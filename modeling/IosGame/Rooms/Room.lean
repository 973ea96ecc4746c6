import IosGame.Document
import Mathlib.Data.List.Nodup

/-!
# IosGame.Rooms.Room

The game room document and the requests that rewrite it.

A request reads the document (`getDocument`), changes its copy and stores the whole of
it (`setData`) or deletes it; the functions here are what it does with the copy.  What
comes before the read is not part of them: the guards on a nil player id or an empty
room id, and the search by share key.  `Rooms.Repeated` has the whole calls.
-/

namespace IosGame

/-- The room document. -/
structure GameRoom where
  ownerID : String
  shareKey : String
  playerIDs : List String
  gameRunning : Bool
  deriving DecidableEq, Repr

/-- `GameRoom(player:)`, the share key being drawn by `generateShareKey`. -/
def GameRoom.init (shareKey playerID : String) : GameRoom where
  ownerID := playerID
  shareKey := shareKey
  playerIDs := [playerID]
  gameRunning := false

namespace Rooms

/-- The player document. -/
structure Player where
  id : Option String
  gameRoomID : String
  lastJoinGameTime : Option Int
  deriving DecidableEq, Repr

/-! ## requests -/

/-- `joinGameRoom` on the room it read: what it stores, and what it completes with.  Both
overloads do this, each having found the room its own way. -/
def joinGameRoom (playerID : String) (peoples : Int) (room : GameRoom) :
    Write GameRoom × Option GameRoom :=
  if 0 < peoples then
    let playerExist := room.playerIDs.contains playerID
    if !playerExist && (room.playerIDs.length : Int) < peoples && !room.gameRunning then
      let joined := { room with playerIDs := room.playerIDs ++ [playerID] }
      (.set joined, some joined)
    else if playerExist && (room.playerIDs.length : Int) < peoples && !room.gameRunning then
      -- "player already exist."
      (.keep, some room)
    else
      (.keep, none)
  else
    (.keep, none)

/-- The first place of the player in the room, and 0 if he is not there. -/
def playerIDIdx (room : GameRoom) (playerID : String) : Nat :=
  (room.playerIDs.idxOf? playerID).getD 0

/-- The member after place `i`, the first after the last. -/
def successor (room : GameRoom) (i : Nat) (h : 1 < room.playerIDs.length) : String :=
  let tmp := (i + 1) % room.playerIDs.length
  room.playerIDs.get ⟨tmp, Nat.mod_lt _ (Nat.zero_lt_of_lt h)⟩

/-- `quitGameRoom` on the room it read.  An owner hands over to the player after him; the
last player deletes the room if it is his. -/
def quitGameRoom (playerID : String) (room : GameRoom) : Write GameRoom :=
  if h : 1 < room.playerIDs.length then
    let i := playerIDIdx room playerID
    .set { room with
      ownerID := if room.ownerID = playerID then successor room i h else room.ownerID
      playerIDs := room.playerIDs.eraseIdx i }
  else if room.ownerID = playerID then
    .delete
  else
    -- "You cannot exit the room where you are not in there."
    .keep

/-- `updateGameRoom` on the room it read, `completion` being the caller's change. -/
def updateGameRoom (completion : GameRoom → GameRoom) (room : GameRoom) : Write GameRoom :=
  .set (completion room)

/-- The change `startGameUpdate` makes. -/
def startGameUpdate (room : GameRoom) : GameRoom :=
  let userGameRoom := (some room).map fun room => { room with gameRunning := true }
  userGameRoom.getD room

/-- The requests clients make on a room. -/
inductive Request where
  | join (playerID : String)
  | quit (playerID : String)
  | start
  deriving DecidableEq, Repr

/-- What a request does with the room it read.  Every caller of `joinGameRoom` leaves
`peoples` at its default. -/
def Request.update : Request → GameRoom → Write GameRoom
  | .join playerID, room => (joinGameRoom playerID 4 room).1
  | .quit playerID, room => quitGameRoom playerID room
  | .start, room => updateGameRoom startGameUpdate room

/-- What a request completes with, from what it read: only `joinGameRoom` has a completion,
nil when there is no room. -/
def Request.completion : Request → Option GameRoom → Option GameRoom
  | .join playerID, some room => (joinGameRoom playerID 4 room).2
  | _, _ => none

/-- The room `playerID` created, and the requests of any number of clients. -/
def system (shareKey playerID : String) :
    System (Shared Request GameRoom) (Shared.Act Request GameRoom) :=
  Shared.system Request.update (GameRoom.init shareKey playerID)

/-- A run of `system`, as the list of its steps. -/
def run (shareKey playerID : String) (ops : List (Shared.Op Request)) :
    Shared Request GameRoom :=
  ops.foldl (Shared.perform Request.update) (.create (GameRoom.init shareKey playerID))

theorem reach_run (shareKey playerID : String) (ops : List (Shared.Op Request)) :
    (system shareKey playerID).Reach (run shareKey playerID ops) :=
  Shared.reach_foldl_perform _ _ ops

/-! ## what a request stores -/

variable {room room' : GameRoom} {playerID : String}

/-- A join adds the player to a room that lacks him, is not full and not running, or stores
nothing. -/
theorem joinGameRoom_cases (playerID : String) (room : GameRoom) :
    (playerID ∉ room.playerIDs ∧ room.playerIDs.length < 4 ∧ room.gameRunning = false ∧
      joinGameRoom playerID 4 room =
        (.set { room with playerIDs := room.playerIDs ++ [playerID] },
          some { room with playerIDs := room.playerIDs ++ [playerID] })) ∨
    (playerID ∈ room.playerIDs ∧ room.playerIDs.length < 4 ∧ room.gameRunning = false ∧
      joinGameRoom playerID 4 room = (.keep, some room)) ∨
    ((4 ≤ room.playerIDs.length ∨ room.gameRunning = true) ∧
      joinGameRoom playerID 4 room = (.keep, none)) := by
  by_cases hopen : room.playerIDs.length < 4 ∧ room.gameRunning = false
  · obtain ⟨hlen, hrun⟩ := hopen
    have hlen' : (room.playerIDs.length : Int) < 4 := by omega
    by_cases hexist : playerID ∈ room.playerIDs
    · exact .inr (.inl ⟨hexist, hlen, hrun, by simp [joinGameRoom, hexist, hlen', hrun]⟩)
    · exact .inl ⟨hexist, hlen, hrun, by simp [joinGameRoom, hexist, hlen', hrun]⟩
  · refine .inr (.inr ?_)
    rcases not_and_or.mp hopen with hlen | hrun
    · have hlen' : ¬ (room.playerIDs.length : Int) < 4 := by omega
      exact ⟨.inl (by omega), by simp [joinGameRoom, hlen']⟩
    · have hrun' : room.gameRunning = true := by simpa using hrun
      exact ⟨.inr hrun', by simp [joinGameRoom, hrun']⟩

theorem quitGameRoom_set (playerID : String) (h : 1 < room.playerIDs.length) :
    quitGameRoom playerID room = .set { room with
      ownerID := if room.ownerID = playerID then successor room (playerIDIdx room playerID) h
        else room.ownerID
      playerIDs := room.playerIDs.eraseIdx (playerIDIdx room playerID) } := by
  rw [quitGameRoom, dif_pos h]

/-- The owner deletes a room that holds nobody else. -/
theorem quitGameRoom_delete (h : ¬ 1 < room.playerIDs.length)
    (howner : room.ownerID = playerID) : quitGameRoom playerID room = .delete := by
  rw [quitGameRoom, dif_neg h, if_pos howner]

theorem playerIDIdx_lt (h : 0 < room.playerIDs.length) (playerID : String) :
    playerIDIdx room playerID < room.playerIDs.length := by
  unfold playerIDIdx
  cases hi : room.playerIDs.idxOf? playerID with
  | none => exact h
  | some i => exact (List.idxOf?_eq_some_iff.mp hi).1

/-- The search finds a member of the room. -/
theorem getElem_playerIDIdx (h : playerID ∈ room.playerIDs) :
    room.playerIDs[playerIDIdx room playerID]? = some playerID := by
  unfold playerIDIdx
  cases hi : room.playerIDs.idxOf? playerID with
  | none => exact absurd h (List.idxOf?_eq_none_iff.mp hi)
  | some i =>
      obtain ⟨hlt, hget, -⟩ := List.idxOf?_eq_some_iff.mp hi
      simp [hlt, hget]

/-- A member's quit takes out him and nobody else. -/
theorem mem_eraseIdx_playerIDIdx (hnodup : room.playerIDs.Nodup) (h : playerID ∈ room.playerIDs)
    {id : String} :
    id ∈ room.playerIDs.eraseIdx (playerIDIdx room playerID) ↔
      id ≠ playerID ∧ id ∈ room.playerIDs := by
  obtain ⟨hlt, hget⟩ := List.getElem?_eq_some_iff.mp (getElem_playerIDIdx h)
  have heq : room.playerIDs.eraseIdx (playerIDIdx room playerID) =
      room.playerIDs.erase playerID := by
    conv_rhs => rw [← hget]
    exact (hnodup.erase_getElem _ hlt).symm
  rw [heq, hnodup.mem_erase_iff]

/-- The one after a member in turn is another member. -/
theorem successor_mem (hnodup : room.playerIDs.Nodup) (h : playerID ∈ room.playerIDs)
    (hlen : 1 < room.playerIDs.length) :
    successor room (playerIDIdx room playerID) hlen ≠ playerID ∧
      successor room (playerIDIdx room playerID) hlen ∈ room.playerIDs := by
  obtain ⟨hlt, hget⟩ := List.getElem?_eq_some_iff.mp (getElem_playerIDIdx h)
  refine ⟨fun heq => ?_, List.get_mem _ _⟩
  have hne : playerIDIdx room playerID ≠
      (playerIDIdx room playerID + 1) % room.playerIDs.length := by
    rcases Nat.lt_or_ge (playerIDIdx room playerID + 1) room.playerIDs.length with hin | hout
    · rw [Nat.mod_eq_of_lt hin]
      omega
    · have : playerIDIdx room playerID + 1 = room.playerIDs.length := by omega
      rw [this, Nat.mod_self]
      omega
  have hmod := Nat.mod_lt (playerIDIdx room playerID + 1) (Nat.zero_lt_of_lt hlen)
  have hsame : room.playerIDs.get ⟨_, hlt⟩ = room.playerIDs.get ⟨_, hmod⟩ := hget.trans heq.symm
  exact hne (hnodup.getElem_inj_iff.mp hsame)

/-- After the quit of a member the owner is one of those who stay. -/
theorem owner_mem_eraseIdx (hnodup : room.playerIDs.Nodup) (howner : room.ownerID ∈ room.playerIDs)
    (h : playerID ∈ room.playerIDs) (hlen : 1 < room.playerIDs.length) :
    (if room.ownerID = playerID then successor room (playerIDIdx room playerID) hlen
      else room.ownerID) ∈ room.playerIDs.eraseIdx (playerIDIdx room playerID) := by
  rw [mem_eraseIdx_playerIDIdx hnodup h]
  by_cases hown : room.ownerID = playerID
  · rw [if_pos hown]
    exact successor_mem hnodup h hlen
  · rw [if_neg hown]
    exact ⟨hown, howner⟩

/-- A member who is not one of several is the only one. -/
theorem playerIDs_eq_singleton (h : playerID ∈ room.playerIDs)
    (hlen : ¬ 1 < room.playerIDs.length) : room.playerIDs = [playerID] := by
  have hpos := List.length_pos_of_mem h
  obtain ⟨p, hp⟩ := List.length_eq_one_iff.mp (show room.playerIDs.length = 1 by omega)
  rw [hp, List.mem_singleton] at h
  rw [hp, h]

/-- **What a request stores**: the room with one more player, with one less, or running. -/
theorem update_eq_set {q : Request} (h : q.update room = .set room') :
    (∃ playerID, q = .join playerID ∧ playerID ∉ room.playerIDs ∧ room.playerIDs.length < 4 ∧
      room.gameRunning = false ∧
      room' = { room with playerIDs := room.playerIDs ++ [playerID] }) ∨
    (∃ playerID, ∃ h : 1 < room.playerIDs.length, q = .quit playerID ∧
      room' = { room with
        ownerID := if room.ownerID = playerID then successor room (playerIDIdx room playerID) h
          else room.ownerID
        playerIDs := room.playerIDs.eraseIdx (playerIDIdx room playerID) }) ∨
    q = .start ∧ room' = { room with gameRunning := true } := by
  cases q with
  | join playerID =>
      refine .inl ⟨playerID, rfl, ?_⟩
      simp only [Request.update] at h
      rcases joinGameRoom_cases playerID room with ⟨hnew, hlen, hrun, heq⟩ | ⟨-, -, -, heq⟩ |
        ⟨-, heq⟩
      · rw [heq] at h
        cases h
        exact ⟨hnew, hlen, hrun, rfl⟩
      · rw [heq] at h
        cases h
      · rw [heq] at h
        cases h
  | quit playerID =>
      refine .inr (.inl ⟨playerID, ?_⟩)
      simp only [Request.update] at h
      by_cases hlen : 1 < room.playerIDs.length
      · rw [quitGameRoom_set playerID hlen] at h
        cases h
        exact ⟨hlen, rfl, rfl⟩
      · rw [quitGameRoom, dif_neg hlen] at h
        split at h <;> cases h
  | start =>
      simp only [Request.update, updateGameRoom, startGameUpdate] at h
      cases h
      exact .inr (.inr ⟨rfl, rfl⟩)

end Rooms

end IosGame
