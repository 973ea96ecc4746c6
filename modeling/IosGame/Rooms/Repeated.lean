import IosGame.Rooms.Leaving
import IosGame.Rooms.Lookup

/-!
# IosGame.Rooms.Repeated

Requests made once more: a join by a player who is in, and a quit by one who is out.

A join of a member is meant to give him the room again, but asks for a free place as that
of a new player does, so that the four of a full room are turned away (`rejoin_iff`).  A
quit looks for the player's place, takes the first for it when there is none, and only where
one player is left says that he is not in the room (`quit_of_stranger`).
-/

namespace IosGame

namespace Rooms

/-! ## the calls -/

/-- The rooms once a write of the document has landed. -/
def writeDocument (docID : String) (write : Write GameRoom) (rooms : List Stored) : List Stored :=
  match write with
  | .set room => rooms.map fun stored => if stored.1 = docID then (docID, room) else stored
  | .delete => rooms.filter fun stored => stored.1 ≠ docID
  | .keep => rooms

/-- The rooms once what a callback of `quitGameRoom` writes has landed. -/
def Quitting.land (rooms : List Stored) : Quitting → List Stored
  | .writing gameRoomID write => writeDocument gameRoomID write rooms
  | _ => rooms

/-- A call of `quitGameRoom`, with nothing between its read and its write. -/
def quitRooms (rooms : List Stored) (player : Player) : List Stored :=
  match Quitting.ask player with
  | .asked gameRoomID playerID =>
      (Quitting.get gameRoomID playerID ((getDocument gameRoomID rooms).map Prod.snd)).land rooms
  | _ => rooms

/-- What a call of `joinGameRoom` leaves: the rooms, and what its completion was called with,
in turn. -/
structure JoinResult where
  rooms : List Stored
  completions : List (Option Stored)
  deriving DecidableEq

/-- The completion is called with nil. -/
def JoinResult.refuse (joined : JoinResult) : JoinResult :=
  { joined with completions := joined.completions ++ [none] }

/-- What both overloads do once they have the id of the room. -/
def JoinResult.join (joined : JoinResult) (gameRoomID playerID : String) (peoples : Int) :
    JoinResult :=
  match getDocument gameRoomID joined.rooms with
  | some document =>
      let (write, token) := joinGameRoom playerID peoples document.2
      { rooms := writeDocument gameRoomID write joined.rooms
        completions := joined.completions ++ [token.map fun room => (gameRoomID, room)] }
  | none => joined.refuse

/-- The answer of the store to the query for a share key. -/
def roomsOfKey (rooms : List Stored) (query : Query) : Option (List Stored) :=
  some (rooms.filter fun room => room.2.shareKey == query.value)

/-- `joinGameRoom(shareKey:playerID:peoples:)`. -/
def joinGameRoomOfKey (rooms : List Stored) (shareKey playerID : String) (peoples : Int) :
    Except Trap JoinResult :=
  if 0 < peoples then do
    let tokens ← getGameRoomOfKey some (roomsOfKey rooms) shareKey
    pure (tokens.foldl (fun joined token =>
      match token with
      | some room => joined.join room.1 playerID peoples
      | none => joined.refuse) ⟨rooms, []⟩)
  else pure ⟨rooms, [none]⟩

/-- `joinGameRoom(gameRoom:player:peoples:)`, of the room only its id. -/
def joinGameRoomOfPlayer (rooms : List Stored) (gameRoomID : Option String) (player : Player)
    (peoples : Int) : JoinResult :=
  match gameRoomID, player.id with
  | some gameRoomID, some playerID =>
      if 0 < peoples then (JoinResult.mk rooms []).join gameRoomID playerID peoples
      else ⟨rooms, [none]⟩
  | _, _ => ⟨rooms, [none]⟩

/-- The room with one more player. -/
def added (room : GameRoom) (playerID : String) : GameRoom :=
  { room with playerIDs := room.playerIDs ++ [playerID] }

/-- A call of one of the overloads, `peoples` left at its default. -/
inductive JoinCall where
  | ofKey (shareKey playerID : String)
  | ofPlayer (gameRoomID : Option String) (player : Player)

def JoinCall.perform (rooms : List Stored) : JoinCall → Except Trap JoinResult
  | .ofKey shareKey playerID => joinGameRoomOfKey rooms shareKey playerID 4
  | .ofPlayer gameRoomID player => .ok (joinGameRoomOfPlayer rooms gameRoomID player 4)

/-- The call asks for the room, for the player. -/
def JoinCall.Asks (rooms : List Stored) (playerID : String) (stored : Stored) : JoinCall → Prop
  | .ofKey shareKey id =>
      id = playerID ∧ rooms.find? (fun room => room.2.shareKey == shareKey) = some stored
  | .ofPlayer gameRoomID player => gameRoomID = some stored.1 ∧ player.id = some playerID

variable {rooms : List Stored} {playerID : String} {stored : Stored} {call : JoinCall}

/-! ## documents -/

theorem fst_getDocument {docID : String} (h : getDocument docID rooms = some stored) :
    stored.1 = docID := by
  simpa using List.find?_some h

theorem getDocument_set {docID : String} (h : getDocument docID rooms = some stored)
    (room : GameRoom) :
    getDocument docID (writeDocument docID (.set room) rooms) = some (docID, room) := by
  have hid : ((fun other : Stored => other.1 == docID) ∘ fun other : Stored =>
      if other.1 = docID then (docID, room) else other) = fun other => other.1 == docID := by
    funext other
    by_cases heq : other.1 = docID <;> simp [heq]
  unfold getDocument at h
  rw [getDocument, writeDocument, List.find?_map, hid, h, Option.map_some,
    if_pos (fst_getDocument h)]

theorem getDocument_delete (docID : String) (rooms : List Stored) :
    getDocument docID (writeDocument docID .delete rooms) = none := by
  simp [getDocument, writeDocument]

/-- A write that keeps the share key is found by it. -/
theorem find?_shareKey_set {shareKey docID : String} {room old : GameRoom}
    (h : rooms.find? (fun room => room.2.shareKey == shareKey) = some (docID, old))
    (hkey : room.shareKey = old.shareKey) :
    (writeDocument docID (.set room) rooms).find? (fun room => room.2.shareKey == shareKey) =
      some (docID, room) := by
  have hfound : room.shareKey = shareKey := by
    rw [hkey]
    simpa using List.find?_some h
  simp only [writeDocument]
  induction rooms with
  | nil => simp at h
  | cons other rooms ih =>
      rw [List.map_cons]
      by_cases hid : other.1 = docID
      · rw [if_pos hid, List.find?_cons_of_pos (by simpa using hfound)]
      · rw [if_neg hid]
        cases hother : other.2.shareKey == shareKey with
        | true =>
            rw [List.find?_cons, hother, Option.some.injEq] at h
            exact absurd (congrArg Prod.fst h) hid
        | false =>
            rw [List.find?_cons, hother] at h
            rw [List.find?_cons, hother]
            exact ih h

/-! ## quits -/

/-- A call whose player has an id and names a room writes what the request makes of it. -/
theorem quitRooms_eq {player : Player} (hid : player.id = some playerID)
    (hname : player.gameRoomID ≠ "")
    (hstored : getDocument player.gameRoomID rooms = some stored) :
    quitRooms rooms player =
      writeDocument player.gameRoomID (quitGameRoom playerID stored.2) rooms := by
  have hask : Quitting.ask player = .asked player.gameRoomID playerID := by
    rw [ask_eq hid, if_pos hname]
  have hdocument : (getDocument player.gameRoomID rooms).map Prod.snd = some stored.2 := by
    rw [hstored, Option.map_some]
  have hcall : quitRooms rooms player =
      (Quitting.get player.gameRoomID playerID (some stored.2)).land rooms := by
    rw [quitRooms, hask, ← hdocument]
  obtain ⟨hget, hkeep⟩ | ⟨room, hroom, hget⟩ :=
    get_cases player.gameRoomID playerID (some stored.2)
  · have hquit : quitGameRoom playerID stored.2 = .keep := hkeep stored.2 rfl
    rw [hcall, hget, hquit]
    rfl
  · cases hroom
    rw [hcall, hget]
    rfl

/-- A quit leaves the room as it is, whoever the player, exactly when it has at most one
player and is not the quitter's, or his document names no room. -/
theorem quit_keeps {player : Player} (hid : player.id = some playerID)
    (hstored : getDocument player.gameRoomID rooms = some stored) :
    getDocument player.gameRoomID (quitRooms rooms player) = some stored ↔
      player.gameRoomID = "" ∨ stored.2.playerIDs.length ≤ 1 ∧ stored.2.ownerID ≠ playerID := by
  by_cases hname : player.gameRoomID = ""
  · have hdone : Quitting.ask player = .done := by
      rw [ask_eq hid, if_neg (not_not_intro hname)]
    rw [quitRooms, hdone]
    exact iff_of_true hstored (.inl hname)
  rw [quitRooms_eq hid hname hstored, or_iff_right hname]
  by_cases hlen : 1 < stored.2.playerIDs.length
  · -- the first player is taken out in the quitter's place
    rw [quitGameRoom_set playerID hlen, getDocument_set hstored]
    refine iff_of_false (fun heq => ?_) fun h => absurd h.1 (by omega)
    have hroom := congrArg (fun room : GameRoom => room.playerIDs.length)
      (congrArg Prod.snd (Option.some.inj heq))
    simp only [List.length_eraseIdx_of_lt
      (playerIDIdx_lt (Nat.zero_lt_of_lt hlen) playerID)] at hroom
    omega
  · by_cases howner : stored.2.ownerID = playerID
    · rw [quitGameRoom_delete hlen howner, getDocument_delete]
      exact iff_of_false (by simp) fun h => h.2 howner
    · have hkeep : quitGameRoom playerID stored.2 = .keep := by
        rw [quitGameRoom, dif_neg hlen, if_neg howner]
      rw [hkeep]
      exact iff_of_true hstored ⟨by omega, howner⟩

/-- **A quit by a player who is not in the room** leaves the room as it is exactly when his
document names no room, or the room has at most one player and is not his. -/
theorem quit_of_stranger {player : Player} (hid : player.id = some playerID)
    (hstored : getDocument player.gameRoomID rooms = some stored) :
    (playerID ∉ stored.2.playerIDs →
      getDocument player.gameRoomID (quitRooms rooms player) = some stored) ↔
      playerID ∈ stored.2.playerIDs ∨ player.gameRoomID = "" ∨
        stored.2.playerIDs.length ≤ 1 ∧ stored.2.ownerID ≠ playerID := by
  rw [quit_keeps hid hstored, Decidable.imp_iff_not_or, not_not]

theorem quit_of_stranger_alone :
    let player : Player := { id := some "B", gameRoomID := "1", lastJoinGameTime := none }
    getDocument "1" (quitRooms [("1", GameRoom.init "KEYS" "A")] player) =
      some ("1", GameRoom.init "KEYS" "A") := by
  intro player
  have hid : player.id = some "B" := rfl
  have hstored : getDocument player.gameRoomID [("1", GameRoom.init "KEYS" "A")] =
      some ("1", GameRoom.init "KEYS" "A") := rfl
  exact (quit_of_stranger hid hstored).mpr (.inr (.inr (by decide))) (by decide)

/-- A player who is not in the room takes out its owner, who stays the owner. -/
theorem stranger_takes_out_owner :
    let room : GameRoom :=
      { ownerID := "A", shareKey := "KEYS", playerIDs := ["A", "B"], gameRunning := false }
    let player : Player := { id := some "C", gameRoomID := "1", lastJoinGameTime := none }
    "C" ∉ room.playerIDs ∧ quitRooms [("1", room)] player =
      [("1", { room with playerIDs := ["B"] })] := by
  decide

/-! ## joins -/

/-- What it is to be for the player to join the room over and over: a join that succeeds
succeeds again, with the room as it is; a player who is in is let in; and one is refused
only when he is not in and the room is full or runs. -/
structure Rejoins (rooms : List Stored) (playerID : String) (stored : Stored) (call : JoinCall) :
    Prop where
  again : ∀ joined room, call.perform rooms = .ok joined → joined.completions = [some room] →
    call.perform joined.rooms = .ok ⟨joined.rooms, [some room]⟩ ∧
      getDocument stored.1 joined.rooms = some room
  member : playerID ∈ stored.2.playerIDs → call.perform rooms = .ok ⟨rooms, [some stored]⟩
  refused : ∀ joined, call.perform rooms = .ok joined → none ∈ joined.completions →
    playerID ∉ stored.2.playerIDs ∧
      (4 ≤ stored.2.playerIDs.length ∨ stored.2.gameRunning = true)

/-- Of stored rooms the search by share key finds the first. -/
theorem getGameRoomOfKey_stored (rooms : List Stored) (shareKey : String) :
    getGameRoomOfKey some (roomsOfKey rooms) shareKey =
      .ok [rooms.find? fun room => room.2.shareKey == shareKey] := by
  have hdecodes : Decodes some (roomsOfKey rooms (.shareKey shareKey)) := by
    intro documents _ hne
    obtain ⟨document, hmem⟩ := List.exists_mem_of_ne_nil documents hne
    exact ⟨document, hmem, rfl⟩
  have hlookup := (lookup_completesOnce _ _).mpr hdecodes
  rw [CompletesOnce, roomsOfKey, Option.getD_some, ← List.head?_filterMap, List.filterMap_some,
    List.head?_filter] at hlookup
  exact hlookup

/-- Whichever the overload, the call is the join of the document. -/
theorem perform_eq (hasks : call.Asks rooms playerID stored) :
    call.perform rooms = .ok ((JoinResult.mk rooms []).join stored.1 playerID 4) := by
  cases call with
  | ofKey shareKey id =>
      obtain ⟨rfl, hfind⟩ := hasks
      rw [JoinCall.perform, joinGameRoomOfKey, if_pos (by decide), getGameRoomOfKey_stored, hfind]
      rfl
  | ofPlayer gameRoomID player =>
      obtain ⟨rfl, hid⟩ := hasks
      simp only [JoinCall.perform, joinGameRoomOfPlayer, hid]
      rw [if_pos (by decide)]

/-- **What a call does** with a room: the player is added, is in, or is turned away. -/
theorem perform_cases (hstored : getDocument stored.1 rooms = some stored)
    (hasks : call.Asks rooms playerID stored) :
    (playerID ∉ stored.2.playerIDs ∧ stored.2.playerIDs.length < 4 ∧
      call.perform rooms =
        .ok ⟨writeDocument stored.1 (.set (added stored.2 playerID)) rooms,
          [some (stored.1, added stored.2 playerID)]⟩) ∨
    (playerID ∈ stored.2.playerIDs ∧ stored.2.playerIDs.length < 4 ∧
      call.perform rooms = .ok ⟨rooms, [some stored]⟩) ∨
    ((4 ≤ stored.2.playerIDs.length ∨ stored.2.gameRunning = true) ∧
      call.perform rooms = .ok ⟨rooms, [none]⟩) := by
  rw [perform_eq hasks, JoinResult.join, hstored]
  obtain ⟨hnew, hlen, -, heq⟩ | ⟨hin, hlen, -, heq⟩ | ⟨hshut, heq⟩ :=
    joinGameRoom_cases playerID stored.2
  · exact .inl ⟨hnew, hlen, by simp only [heq]; rfl⟩
  · exact .inr (.inl ⟨hin, hlen, by simp only [heq]; rfl⟩)
  · exact .inr (.inr ⟨hshut, by simp only [heq]; rfl⟩)

/-- The call asks for the room it has changed. -/
theorem asks_set (hasks : call.Asks rooms playerID stored) (room : GameRoom)
    (hkey : room.shareKey = stored.2.shareKey) :
    call.Asks (writeDocument stored.1 (.set room) rooms) playerID (stored.1, room) := by
  cases call with
  | ofKey shareKey id => exact ⟨hasks.1, find?_shareKey_set hasks.2 hkey⟩
  | ofPlayer gameRoomID player => exact hasks

/-- A player is let in over and over when he is let in and then gets the same room again. -/
theorem rejoins_of_granted {rooms' : List Stored} {room : Stored}
    (hgranted : call.perform rooms = .ok ⟨rooms', [some room]⟩)
    (hagain : call.perform rooms' = .ok ⟨rooms', [some room]⟩)
    (hget : getDocument stored.1 rooms' = some room)
    (hmember : playerID ∈ stored.2.playerIDs → call.perform rooms = .ok ⟨rooms, [some stored]⟩) :
    Rejoins rooms playerID stored call := by
  refine ⟨fun joined room' hjoined hroom' => ?_, hmember, fun joined hjoined hnone => ?_⟩
  · rw [hgranted, Except.ok.injEq] at hjoined
    subst hjoined
    obtain rfl : room = room' := by simpa using hroom'
    exact ⟨hagain, hget⟩
  · rw [hgranted, Except.ok.injEq] at hjoined
    subst hjoined
    simp at hnone

/-- **Joining again**: a room that does not run lets the player join over and over exactly
when it does not have four players with him. -/
theorem rejoin_iff (hstored : getDocument stored.1 rooms = some stored)
    (hasks : call.Asks rooms playerID stored) (hshaped : Shaped stored.2)
    (hwaiting : stored.2.gameRunning = false) :
    Rejoins rooms playerID stored call ↔ (stored.2.playerIDs.insert playerID).length ≠ 4 := by
  have hfour := hshaped.le_four
  obtain ⟨hnew, hlen, hperform⟩ | ⟨hin, hlen, hperform⟩ | ⟨hshut, hperform⟩ :=
    perform_cases hstored hasks
  · -- the player is new, and a member of the room the second call finds
    rw [List.length_insert_of_not_mem hnew]
    have hget := getDocument_set hstored (added stored.2 playerID)
    have hasks' := asks_set hasks (added stored.2 playerID) rfl
    have hlen' : (added stored.2 playerID).playerIDs.length = stored.2.playerIDs.length + 1 := by
      simp [added]
    have hin : playerID ∈ (added stored.2 playerID).playerIDs := by simp [added]
    obtain ⟨hnew', -⟩ | ⟨-, hfew, hagain⟩ | ⟨hshut, hagain⟩ := perform_cases hget hasks'
    · exact absurd hin hnew'
    · refine iff_of_true (rejoins_of_granted hperform hagain hget fun h => absurd h hnew) ?_
      simp only at hfew
      omega
    · refine iff_of_false (fun h => ?_) (not_not_intro ?_)
      · have hsame := (h.again _ _ hperform rfl).1
        rw [hagain] at hsame
        simp at hsame
      · have hrun : (added stored.2 playerID).gameRunning = false := hwaiting
        simp only [hrun, Bool.false_eq_true, or_false] at hshut
        omega
  · rw [List.length_insert_of_mem hin]
    exact iff_of_true (rejoins_of_granted hperform hperform hstored fun _ => hperform) (by omega)
  · have hfull : 4 ≤ stored.2.playerIDs.length := by simpa [hwaiting] using hshut
    by_cases hin : playerID ∈ stored.2.playerIDs
    · rw [List.length_insert_of_mem hin]
      refine iff_of_false (fun h => ?_) (by omega)
      have hmember := h.member hin
      rw [hperform] at hmember
      simp at hmember
    · rw [List.length_insert_of_not_mem hin]
      refine iff_of_true ⟨fun joined room hjoined hroom => ?_, fun h => absurd h hin,
        fun _ _ _ => ⟨hin, .inl hfull⟩⟩ (by omega)
      rw [hperform, Except.ok.injEq] at hjoined
      subst hjoined
      simp at hroom

/-- A room of two, and a third player. -/
theorem rejoin_iff_third :
    let room : GameRoom :=
      { ownerID := "A", shareKey := "KEYS", playerIDs := ["A", "B"], gameRunning := false }
    Rejoins [("1", room)] "C" ("1", room) (.ofKey "KEYS" "C") := by
  intro room
  have hasks : (JoinCall.ofKey "KEYS" "C").Asks [("1", room)] "C" ("1", room) :=
    ⟨rfl, by decide⟩
  exact (rejoin_iff rfl hasks ⟨by decide, by decide, by decide⟩ rfl).mpr (by decide)

/-- The fourth player joins a room of three, by its share key, and is refused when he asks
again; and so is another of the four. -/
theorem rejoin_refused :
    let room : GameRoom :=
      { ownerID := "A", shareKey := "KEYS", playerIDs := ["A", "B", "C"], gameRunning := false }
    let full : GameRoom := { room with playerIDs := ["A", "B", "C", "D"] }
    let player : Player := { id := some "B", gameRoomID := "1", lastJoinGameTime := none }
    (JoinCall.ofKey "KEYS" "D").perform [("1", room)] =
      .ok ⟨[("1", full)], [some ("1", full)]⟩ ∧
    (JoinCall.ofKey "KEYS" "D").perform [("1", full)] = .ok ⟨[("1", full)], [none]⟩ ∧
    (JoinCall.ofPlayer (some "1") player).perform [("1", full)] =
      .ok ⟨[("1", full)], [none]⟩ ∧
    ¬ Rejoins [("1", room)] "D" ("1", room) (.ofKey "KEYS" "D") ∧
    ¬ Rejoins [("1", full)] "B" ("1", full) (.ofPlayer (some "1") player) := by
  intro room full player
  have hjoin : (JoinCall.ofKey "KEYS" "D").perform [("1", room)] =
      .ok ⟨[("1", full)], [some ("1", full)]⟩ := by rfl
  have hrejoin : (JoinCall.ofKey "KEYS" "D").perform [("1", full)] =
      .ok ⟨[("1", full)], [none]⟩ := by rfl
  have henter : (JoinCall.ofPlayer (some "1") player).perform [("1", full)] =
      .ok ⟨[("1", full)], [none]⟩ := by rfl
  refine ⟨hjoin, hrejoin, henter, fun h => ?_, fun h => ?_⟩
  · have hagain := (h.again _ _ hjoin rfl).1
    rw [hrejoin] at hagain
    simp at hagain
  · have hmember := h.member (by decide)
    rw [henter] at hmember
    simp at hmember

end Rooms

end IosGame
