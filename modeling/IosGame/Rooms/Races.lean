import IosGame.Rooms.Room

/-!
# IosGame.Rooms.Races

Clients that rewrite one room at the same time.

* `room_shaped` — a stored room always has one to four players, no player twice;
* `joins_and_quits_kept` — its players are those who joined and did not quit, if every
  write finds the room it was computed from; `joins_and_quits_lost` shows what goes wrong
  otherwise;
* `started_room_closed` — a room that runs stays running and takes in nobody, if nothing
  read before it ran is stored after; `started_room_reopened` is the race.
-/

namespace IosGame

namespace Rooms

open Shared

variable {shareKey creator playerID : String} {room room' : GameRoom}
  {s : Shared Request GameRoom}

/-! ## the shape of a room -/

/-- One to four players, each once. -/
structure Shaped (room : GameRoom) : Prop where
  one_le : 1 ≤ room.playerIDs.length
  le_four : room.playerIDs.length ≤ 4
  nodup : room.playerIDs.Nodup

theorem Shaped.update (h : Shaped room) {q : Request} (hset : q.update room = .set room') :
    Shaped room' := by
  rcases update_eq_set hset with ⟨playerID, -, hnew, hlen, -, rfl⟩ | ⟨playerID, hlen, -, rfl⟩ |
    ⟨-, rfl⟩
  · refine ⟨by simp, by simp; omega, ?_⟩
    simpa using h.nodup.concat hnew
  · have hi := playerIDIdx_lt (Nat.zero_lt_of_lt hlen) playerID
    have heq := List.length_eraseIdx_of_lt hi
    have := h.le_four
    exact ⟨by simp only [heq]; omega, by simp only [heq]; omega,
      h.nodup.sublist (List.eraseIdx_sublist _ _)⟩
  · exact ⟨h.one_le, h.le_four, h.nodup⟩

/-- **A room keeps its shape**: whatever joins, quits and starts overlap, and also when a
deleted room is stored again, every version has one to four players and none twice. -/
theorem room_shaped (h : (system shareKey creator).Reach s) :
    ∀ room ∈ s.versions,
      1 ≤ room.playerIDs.length ∧ room.playerIDs.length ≤ 4 ∧ room.playerIDs.Nodup := by
  have hall : All Shaped s := forall_doc ⟨by simp [GameRoom.init], by simp [GameRoom.init],
    by simp [GameRoom.init]⟩ (fun _ _ _ hroom hset => hroom.update hset) h
  exact fun room hroom => ⟨(hall.versions room hroom).one_le, (hall.versions room hroom).le_four,
    (hall.versions room hroom).nodup⟩

/-- A join that read the room before its last player quit stores it again. -/
theorem room_shaped_stored_again :
    let s := run "KEYS" "A" [.read (.join "B"), .read (.quit "A"), .write 0, .write 0]
    s.versions.map GameRoom.playerIDs = [["A", "B"], ["A"]] ∧ ∀ room ∈ s.versions,
      1 ≤ room.playerIDs.length ∧ room.playerIDs.length ≤ 4 ∧ room.playerIDs.Nodup :=
  ⟨by decide, room_shaped (reach_run _ _ _)⟩

/-! ## joins and quits -/

/-- The players in the room, if there is one. -/
def members : Option GameRoom → List String
  | some room => room.playerIDs
  | none => []

/-- The request decides whether `playerID` is in the room: a join of his that completed
with a room, or his quit. -/
def decides (playerID : String) : Request × Option GameRoom → Bool
  | (.join id, o) => id == playerID && ((Request.join id).completion o).isSome
  | (.quit id, _) => id == playerID
  | (.start, _) => false

/-- The last completed request that decided about `playerID` was a join; before any, the
creator alone is in. -/
def Joined (creator playerID : String) (completed : List (Request × Option GameRoom)) : Prop :=
  match completed.find? (decides playerID) with
  | some (q, _) => q = .join playerID
  | none => playerID = creator

/-- Only members quit, and nobody starts the game. -/
def Request.Sound : Request → Option GameRoom → Prop
  | .join _, _ => True
  | .quit playerID, o => ∀ room, o = some room → playerID ∈ room.playerIDs
  | .start, _ => False

/-- The runs whose writes find the room they were computed from, in which only members
quit and nobody starts the game. -/
def orderly (shareKey creator : String) :
    System (Shared Request GameRoom) (Act Request GameRoom) :=
  (system shareKey creator).only fun s a s' => Fresh s a s' ∧ ∀ q, a = .read q → q.Sound s.stored

/-- A room nobody started, its owner in it. -/
structure Waiting (room : GameRoom) : Prop where
  nodup : room.playerIDs.Nodup
  owner : room.ownerID ∈ room.playerIDs
  running : room.gameRunning = false

theorem joined_cons {q : Request} {o : Option GameRoom}
    {completed : List (Request × Option GameRoom)} :
    Joined creator playerID ((q, o) :: completed) ↔
      if decides playerID (q, o) then q = .join playerID
      else Joined creator playerID completed := by
  unfold Joined
  rw [List.find?_cons]
  cases decides playerID (q, o) <;> simp

/-- What a request executed at once does: whom it decides about is in the room if he joined,
the others stay in or out, and the room goes on waiting. -/
def Serves (q : Request) (o o' : Option GameRoom) : Prop :=
  (∀ id, id ∈ members o' ↔ if decides id (q, o) then q = .join id else id ∈ members o) ∧
    ∀ room, o' = some room → Waiting room

theorem serves_none (q : Request) : Serves q none none := by
  refine ⟨fun id => ?_, nofun⟩
  cases q <;> simp [decides, Request.completion, members]

theorem serves_join (h : Waiting room) (playerID : String) :
    Serves (.join playerID) (some room)
      (atomically Request.update (.join playerID) (some room)) := by
  rcases joinGameRoom_cases playerID room with ⟨hnew, -, -, heq⟩ | ⟨hin, -, -, heq⟩ | ⟨-, heq⟩
  · rw [atomically_set (congrArg Prod.fst heq)]
    refine ⟨fun id => ?_, fun room' hroom' => ?_⟩
    · by_cases hid : playerID = id
      · subst hid
        simp [members, decides, Request.completion, heq]
      · simp [members, decides, hid, Ne.symm hid]
    · cases hroom'
      refine ⟨?_, List.mem_append_left _ h.owner, h.running⟩
      simpa using h.nodup.concat hnew
  · rw [atomically_keep (congrArg Prod.fst heq)]
    refine ⟨fun id => ?_, fun room' hroom' => by cases hroom'; exact h⟩
    by_cases hid : playerID = id
    · subst hid
      simpa [members, decides, Request.completion, heq] using hin
    · simp [members, decides, hid]
  · rw [atomically_keep (congrArg Prod.fst heq)]
    refine ⟨fun id => ?_, fun room' hroom' => by cases hroom'; exact h⟩
    simp [members, decides, Request.completion, heq]

theorem serves_quit (h : Waiting room) (hin : playerID ∈ room.playerIDs) :
    Serves (.quit playerID) (some room)
      (atomically Request.update (.quit playerID) (some room)) := by
  by_cases hlen : 1 < room.playerIDs.length
  · have hquit : (Request.quit playerID).update room = _ := quitGameRoom_set playerID hlen
    rw [atomically_set hquit]
    refine ⟨fun id => ?_, fun room' hroom' => ?_⟩
    · simp only [members, decides, mem_eraseIdx_playerIDIdx h.nodup hin]
      by_cases hid : playerID = id
      · simp [hid]
      · simp [hid, Ne.symm hid]
    · cases hroom'
      exact ⟨h.nodup.sublist (List.eraseIdx_sublist _ _),
        owner_mem_eraseIdx h.nodup h.owner hin hlen, h.running⟩
  · -- the last player owns the room and deletes it
    have hp := playerIDs_eq_singleton hin hlen
    have howner : room.ownerID = playerID := by simpa [hp] using h.owner
    have hquit : (Request.quit playerID).update room = _ := quitGameRoom_delete hlen howner
    rw [atomically_delete hquit]
    refine ⟨fun id => ?_, fun room' hroom' => by cases hroom'⟩
    by_cases hid : playerID = id
    · simp [members, decides, hid]
    · simp [members, decides, hid, hp, Ne.symm hid]

theorem serves_atomically {q : Request} {o : Option GameRoom} (hq : q.Sound o)
    (ho : ∀ room, o = some room → Waiting room) :
    Serves q o (atomically Request.update q o) := by
  cases o with
  | none => exact serves_none q
  | some room =>
      have hroom := ho room rfl
      cases q with
      | join playerID => exact serves_join hroom playerID
      | quit playerID => exact serves_quit hroom (hq room rfl)
      | start => exact hq.elim

/-- **Joins and quits are kept**: if every write finds the room it was computed from, only
members quit and nobody starts the game, then at every moment the players in the stored
room are those whose last deciding request was a join, and a deleted room is gone. -/
theorem joins_and_quits_kept (h : (orderly shareKey creator).Reach s) :
    (∀ playerID, playerID ∈ members s.stored ↔ Joined creator playerID s.completed) ∧
      (s.deleted = true → s.stored = none) := by
  have hserial := serial (I := fun o completed =>
    (∀ playerID, playerID ∈ members o ↔ Joined creator playerID completed) ∧
      ∀ room, o = some room → Waiting room) ?_ ?_ h
  · exact ⟨hserial.holds.1, hserial.gone⟩
  · refine ⟨fun playerID => by simp [members, GameRoom.init, Joined], fun room hroom => ?_⟩
    cases hroom
    exact ⟨by simp [GameRoom.init], by simp [GameRoom.init], rfl⟩
  · intro q o completed hq ⟨hmembers, hwaiting⟩
    obtain ⟨hserves, hwaiting'⟩ := serves_atomically hq hwaiting
    refine ⟨fun playerID => ?_, hwaiting'⟩
    rw [hserves, joined_cons, hmembers]

theorem reach_orderly (q : Request) (h : (orderly shareKey creator).Reach s)
    (hidle : s.inFlight = []) (hq : q.Sound s.stored) :
    (orderly shareKey creator).Reach (serve Request.update s q) ∧
      (serve Request.update s q).inFlight = [] :=
  reach_serve q h hidle (fun _ => ⟨nofun, fun _ heq => by cases heq; exact hq⟩)
    fun _ _ _ hstored _ _ => ⟨fun _ heq => by cases heq; exact hstored, nofun⟩

/-- B joins, then A quits and leaves the room to B. -/
theorem joins_and_quits_kept_handed_over :
    let s := run "KEYS" "A" [.read (.join "B"), .write 0, .read (.quit "A"), .write 0]
    s.stored = some ⟨"B", "KEYS", ["B"], false⟩ ∧
      (∀ playerID, playerID ∈ members s.stored ↔ Joined "A" playerID s.completed) ∧
      (s.deleted = true → s.stored = none) :=
  have hstart : (orderly "KEYS" "A").Reach (run "KEYS" "A" []) := .init rfl
  have hjoin := reach_orderly (.join "B") hstart rfl trivial
  have hquit := reach_orderly (.quit "A") hjoin.1 hjoin.2 fun room hroom => by
    cases hroom
    decide
  ⟨by decide, joins_and_quits_kept hquit.1⟩

/-- His last completed request was a join that completed with a room. -/
def LastJoined (creator playerID : String) (completed : List (Request × Option GameRoom)) :
    Prop :=
  match completed.find? fun r => r.1 = .join playerID || r.1 = .quit playerID with
  | some (q, o) => (q.completion o).isSome = true
  | none => playerID = creator

/-- **Joins and quits can be lost.**  Of two joins that both read the room first, the later
write drops the other player, and a join that read before the last quit stores the deleted
room again.  Also when nothing overlaps, a quit of a player who is not in the room takes out
its first player, and a player in a full room who joins again is answered nil and stays. -/
theorem joins_and_quits_lost :
    (let s := run "KEYS" "A" [.read (.join "B"), .read (.join "C"), .write 0, .write 0];
      s.inFlight = [] ∧ (system "KEYS" "A").Reach s ∧
        LastJoined "A" "C" s.completed ∧ "C" ∉ members s.stored) ∧
    (let s := run "KEYS" "A" [.read (.join "B"), .read (.quit "A"), .write 0, .write 0];
      s.inFlight = [] ∧ (system "KEYS" "A").Reach s ∧
        s.deleted = true ∧ "B" ∈ members s.stored) ∧
    (let s := run "KEYS" "A" [.read (.join "B"), .write 0, .read (.quit "C"), .write 0];
      s.inFlight = [] ∧ (system "KEYS" "A").Reach s ∧
        LastJoined "A" "A" s.completed ∧ "A" ∉ members s.stored) ∧
    (let s := run "KEYS" "A" [.read (.join "B"), .write 0, .read (.join "C"), .write 0,
        .read (.join "D"), .write 0, .read (.join "B")];
      s.inFlight = [] ∧ (system "KEYS" "A").Reach s ∧
        ¬ LastJoined "A" "B" s.completed ∧ "B" ∈ members s.stored) := by
  refine ⟨⟨rfl, reach_run _ _ _, ?_, by decide⟩, ⟨rfl, reach_run _ _ _, rfl, by decide⟩,
    ⟨rfl, reach_run _ _ _, ?_, by decide⟩, ⟨rfl, reach_run _ _ _, ?_, by decide⟩⟩
  · exact rfl
  · exact rfl
  · exact nofun

/-! ## started rooms -/

/-- Every version after the first that runs is running and has only players of that one. -/
def StaysClosed (versions : List GameRoom) : Prop :=
  ∀ later started before, versions = later ++ started :: before →
    started.gameRunning = true → (∀ room ∈ before, room.gameRunning = false) →
    ∀ room ∈ later, room.gameRunning = true ∧ room.playerIDs ⊆ started.playerIDs

/-- The runs that, once a running room was stored, store none computed from a room read
before. -/
def timely (shareKey creator : String) :
    System (Shared Request GameRoom) (Act Request GameRoom) :=
  (system shareKey creator).only (Current Request.update fun room => room.gameRunning = true)

/-- **A started room stays started and closed** if no room computed from one read before
the start is stored after it. -/
theorem started_room_closed (h : (timely shareKey creator).Reach s) :
    StaysClosed s.versions := by
  have hlatched := latched (R := fun room room' => room'.playerIDs ⊆ room.playerIDs)
    (fun room => List.Subset.refl _) (fun _ _ _ h₁ h₂ => List.Subset.trans h₂ h₁)
    (fun q room room' hrun hset => ?_) h
  · intro later started before hversions hrun hbefore
    exact hlatched.versions started later ⟨before, hversions, hrun, fun b hb => by
      simp [hbefore b hb]⟩
  · rcases update_eq_set hset with ⟨playerID, -, -, -, hidle, -⟩ | ⟨playerID, hlen, -, rfl⟩ |
      ⟨-, rfl⟩
    · simp [hidle] at hrun
    · exact ⟨hrun, (List.eraseIdx_sublist _ _).subset⟩
    · exact ⟨rfl, List.Subset.refl _⟩

theorem reach_timely (q : Request) (h : (timely shareKey creator).Reach s)
    (hidle : s.inFlight = []) :
    (timely shareKey creator).Reach (serve Request.update s q) ∧
      (serve Request.update s q).inFlight = [] :=
  reach_serve q h hidle nofun fun _ _ _ _ hseen _ _ _ heq _ hrun => by
    cases heq
    exact hseen ▸ hrun

/-- B joins, A starts the game, and B quits. -/
theorem started_room_closed_left :
    let s := run "KEYS" "A" [.read (.join "B"), .write 0, .read .start, .write 0,
      .read (.quit "B"), .write 0]
    s.stored = some ⟨"A", "KEYS", ["A"], true⟩ ∧ StaysClosed s.versions :=
  have hcreate : (timely "KEYS" "A").Reach (run "KEYS" "A" []) := .init rfl
  have hjoin := reach_timely (.join "B") hcreate rfl
  have hstart := reach_timely .start hjoin.1 hjoin.2
  have hquit := reach_timely (.quit "B") hstart.1 hstart.2
  ⟨by decide, started_room_closed hquit.1⟩

/-- **A started room can be reopened**: a join that read the room before it was started
stores it with one more player and not running. -/
theorem started_room_reopened :
    let s := run "KEYS" "A" [.read .start, .read (.join "B"), .write 1, .write 0]
    (system "KEYS" "A").Reach s ∧
      s.versions = [⟨"A", "KEYS", ["A", "B"], false⟩, ⟨"A", "KEYS", ["A"], true⟩,
        ⟨"A", "KEYS", ["A"], false⟩] ∧ ¬ StaysClosed s.versions := by
  refine ⟨reach_run _ _ _, by decide, fun h => ?_⟩
  have hlater := h [⟨"A", "KEYS", ["A", "B"], false⟩] ⟨"A", "KEYS", ["A"], true⟩
    [⟨"A", "KEYS", ["A"], false⟩] (by decide) rfl (by decide) _ (List.mem_singleton_self _)
  cases hlater.1

end Rooms

end IosGame
