import IosGame.Rooms.Succession

/-!
# IosGame.Rooms.Overlap

What overlapping requests on one room can and cannot do.

* `nothing_unasked` — whatever overlaps, a stored room holds nothing that nobody asked for;
* `owner_kept` — if only players of the room quit, the owner is a player of every version;
* `overlap_sequential` — if no write is stale, requests that overlap do what the same
  requests do one at a time, so that a room is handed over as `Rooms.Succession` says.
-/

namespace IosGame

namespace Rooms

open Shared

variable {shareKey creator playerID : String} {room room' : GameRoom} {q : Request}
  {s : Shared Request GameRoom}

/-! ## what nobody asked for -/

/-- The creator, or a player whose join completed with a room. -/
def LetIn (creator playerID : String) (completed : List (Request × Option GameRoom)) : Prop :=
  playerID = creator ∨
    ∃ o, (.join playerID, o) ∈ completed ∧ ((Request.join playerID).completion o).isSome = true

/-- The room has its share key, only players that were let in, one of them as its owner, and
runs only if it was started. -/
structure Asked (shareKey creator : String) (completed : List (Request × Option GameRoom))
    (room : GameRoom) : Prop where
  shareKey : room.shareKey = shareKey
  playerIDs : ∀ id ∈ room.playerIDs, LetIn creator id completed
  ownerID : LetIn creator room.ownerID completed
  gameRunning : room.gameRunning = true → ∃ o, (.start, o) ∈ completed

theorem LetIn.cons {completed : List (Request × Option GameRoom)}
    (h : LetIn creator playerID completed) (r : Request × Option GameRoom) :
    LetIn creator playerID (r :: completed) :=
  h.imp id fun ⟨o, ho, hroom⟩ => ⟨o, List.mem_cons_of_mem r ho, hroom⟩

theorem Asked.cons {completed : List (Request × Option GameRoom)}
    (h : Asked shareKey creator completed room) (r : Request × Option GameRoom) :
    Asked shareKey creator (r :: completed) room where
  shareKey := h.shareKey
  playerIDs := fun id hid => (h.playerIDs id hid).cons r
  ownerID := h.ownerID.cons r
  gameRunning := fun hrun => (h.gameRunning hrun).imp fun _ ho => List.mem_cons_of_mem r ho

theorem Asked.update {completed : List (Request × Option GameRoom)}
    (h : Asked shareKey creator completed room) (hset : q.update room = .set room') :
    Asked shareKey creator ((q, some room) :: completed) room' := by
  have hcons := h.cons (q, some room)
  rcases update_eq_set hset with ⟨playerID, rfl, hnew, hlen, hidle, rfl⟩ |
    ⟨playerID, hlen, -, rfl⟩ | ⟨rfl, rfl⟩
  · refine ⟨hcons.shareKey, fun id hid => ?_, hcons.ownerID, hcons.gameRunning⟩
    rcases List.mem_append.mp hid with hid | hid
    · exact hcons.playerIDs id hid
    · obtain rfl := List.mem_singleton.mp hid
      refine .inr ⟨some room, List.mem_cons_self, ?_⟩
      have hroom : ¬ 4 ≤ room.playerIDs.length := by omega
      rcases joinGameRoom_cases id room with ⟨-, -, -, heq⟩ | ⟨hin, -⟩ | ⟨hfull, -⟩
      · simp [Request.completion, heq]
      · exact absurd hin hnew
      · simp [hroom, hidle] at hfull
  · refine ⟨hcons.shareKey, fun id hid => ?_, ?_, hcons.gameRunning⟩
    · exact hcons.playerIDs id (List.mem_of_mem_eraseIdx hid)
    · dsimp only
      split
      · exact hcons.playerIDs _ (List.get_mem _ _)
      · exact hcons.ownerID
  · exact ⟨hcons.shareKey, hcons.playerIDs, hcons.ownerID,
      fun _ => ⟨some room, List.mem_cons_self⟩⟩

/-- **Nothing comes into a room unasked**: whatever requests overlap, every version of the
room has the share key it was created with, its players and its owner are the creator or
players whose join completed with a room, and it runs only if a start was completed. -/
theorem nothing_unasked (h : (system shareKey creator).Reach s) :
    ∀ room ∈ s.versions, room.shareKey = shareKey ∧
      (∀ id ∈ room.playerIDs, LetIn creator id s.completed) ∧
      LetIn creator room.ownerID s.completed ∧
      (room.gameRunning = true → ∃ o, (.start, o) ∈ s.completed) := by
  have htraced : Traced (fun _ _ => True) (Asked shareKey creator) s := by
    refine traced ⟨rfl, fun id hid => .inl ?_, .inl rfl, fun hrun => by cases hrun⟩
      (fun r _ _ hroom => hroom.cons r) (fun q d d' _ _ hroom hset => hroom.update hset)
      (h.only fun _ _ _ _ _ _ _ _ => trivial)
    simpa [GameRoom.init] using hid
  intro room hroom
  have hasked := htraced.all.versions room hroom
  exact ⟨hasked.shareKey, hasked.playerIDs, hasked.ownerID, hasked.gameRunning⟩

/-- Two joins and a start that overlap. -/
theorem nothing_unasked_overlapping :
    let s := run "KEYS" "A" [.read (.join "B"), .read (.join "C"), .read .start, .write 0,
      .write 0, .write 0]
    s.versions.map GameRoom.playerIDs = [["A", "B"], ["A", "C"], ["A"], ["A"]] ∧
      ∀ room ∈ s.versions, room.shareKey = "KEYS" ∧
        (∀ id ∈ room.playerIDs, LetIn "A" id s.completed) ∧
        LetIn "A" room.ownerID s.completed ∧
        (room.gameRunning = true → ∃ o, (.start, o) ∈ s.completed) :=
  ⟨by decide, nothing_unasked (reach_run _ _ _)⟩

/-! ## the owner -/

/-- A quit is of a player in the room. -/
def Request.OfPlayer (q : Request) (o : Option GameRoom) : Prop :=
  ∀ playerID, q = .quit playerID → playerID ∈ members o

/-- The runs in which a quit reads a room that its player is in. -/
def membersQuit (shareKey creator : String) :
    System (Shared Request GameRoom) (Act Request GameRoom) :=
  (system shareKey creator).only (Reads fun q room => q.OfPlayer (some room))

/-- **A room has its owner**: if only players of the room quit, then whatever overlaps, and
also when a quit of the owner or a join is lost, the owner of every version is one of its
players, and a room is deleted only by a player who read that he was alone in it. -/
theorem owner_kept (h : (membersQuit shareKey creator).Reach s) :
    (∀ room ∈ s.versions, room.ownerID ∈ room.playerIDs) ∧
      ∀ p ∈ s.inFlight, p.request.update p.read = .delete →
        ∃ playerID, p.request = .quit playerID ∧ p.read.playerIDs = [playerID] := by
  have htraced : Traced (fun q room => q.OfPlayer (some room)) (fun _ => Owned) s :=
    traced ⟨by simp [GameRoom.init], by simp [GameRoom.init]⟩ (fun _ _ _ hroom => hroom)
      (fun q d d' _ hquit hroom hset => hroom.update hquit hset) h
  refine ⟨fun room hroom => (htraced.all.versions room hroom).owner, fun p hp hdelete => ?_⟩
  exact (delete_update (htraced.all.inFlight p hp) (htraced.inFlight p hp)).mp hdelete

theorem reach_membersQuit_read (h : (membersQuit shareKey creator).Reach s) (q : Request)
    (hq : q.OfPlayer s.stored) :
    (membersQuit shareKey creator).Reach (perform Request.update s (.read q)) := by
  refine reach_perform h (.read q) (fun q' heq q'' room heq' hroom => ?_) nofun
  cases heq
  cases heq'
  exact hroom ▸ hq

theorem reach_membersQuit_write (h : (membersQuit shareKey creator).Reach s) (i : Nat) :
    (membersQuit shareKey creator).Reach (perform Request.update s (.write i)) :=
  reach_perform h (.write i) nofun fun _ _ _ _ _ _ heq => by cases heq

/-- The owner and another player quit together; the later write stores the owner again. -/
theorem owner_kept_overlapping :
    let s := run "KEYS" "A" [.read (.join "B"), .write 0, .read (.quit "A"), .read (.quit "B"),
      .write 1, .write 0]
    s.versions.map (fun room => (room.ownerID, room.playerIDs)) =
        [("A", ["A"]), ("B", ["B"]), ("A", ["A", "B"]), ("A", ["A"])] ∧
      (∀ room ∈ s.versions, room.ownerID ∈ room.playerIDs) ∧
      ∀ p ∈ s.inFlight, p.request.update p.read = .delete →
        ∃ playerID, p.request = .quit playerID ∧ p.read.playerIDs = [playerID] := by
  intro s
  have hstart : (membersQuit "KEYS" "A").Reach (run "KEYS" "A" []) := .init rfl
  have hjoin := reach_membersQuit_write (reach_membersQuit_read hstart (.join "B") nofun) 0
  have hquitA := reach_membersQuit_read hjoin (.quit "A") fun id hid => by
    cases hid
    decide
  have hquitB := reach_membersQuit_read hquitA (.quit "B") fun id hid => by
    cases hid
    decide
  have hreach := reach_membersQuit_write (reach_membersQuit_write hquitB 1) 0
  exact ⟨by decide, owner_kept hreach⟩

/-! ## requests that overlap without a stale write -/

/-- The runs whose writes find the room they were computed from, in which only players of
the room quit. -/
def upToDate (shareKey creator : String) :
    System (Shared Request GameRoom) (Act Request GameRoom) :=
  (system shareKey creator).only fun s a s' =>
    Fresh s a s' ∧ ∀ q, a = .read q → q.OfPlayer s.stored

/-- **Overlapping requests are executed one at a time**, in the order in which they
completed, if every write finds the room it was computed from and only players quit: the
same room is stored and each request read and completed with the same.  So the owner is a
player, and the players stand in the order in which they joined. -/
theorem overlap_sequential (h : (upToDate shareKey creator).Reach s) :
    (∃ t, (sequential shareKey creator).Reach t ∧ t.stored = s.stored ∧
      t.completed = s.completed) ∧
    ∀ room, s.stored = some room → room.ownerID ∈ room.playerIDs ∧
      room.playerIDs.Pairwise fun a b => joinedAt a s.completed < joinedAt b s.completed := by
  have hserial := serial (C := Request.OfPlayer) (I := fun o completed =>
    ∃ t, (sequential shareKey creator).Reach t ∧ t.stored = o ∧ t.completed = completed)
    ⟨_, .init rfl, rfl, rfl⟩ ?_ h
  · obtain ⟨t, ht, hstored, hcompleted⟩ := hserial.holds
    refine ⟨⟨t, ht, hstored, hcompleted⟩, fun room hroom => ?_⟩
    obtain ⟨howned, hordered⟩ := settled ht room (hstored.trans hroom)
    exact ⟨howned.owner, hcompleted ▸ hordered⟩
  · rintro q o completed hquit ⟨t, ht, rfl, rfl⟩
    obtain ⟨hstored, hcompleted, -⟩ := serve_spec Request.update q (inFlight_sequential ht)
    exact ⟨_, reach_serve_sequential ht hquit, hstored, hcompleted⟩

/-- B joins while A, who is in the room, joins again. -/
theorem overlap_sequential_rejoin :
    let s := run "KEYS" "A" [.read (.join "B"), .read (.join "A"), .write 0]
    s.completed.map Prod.fst = [.join "B", .join "A"] ∧
      (∃ t, (sequential "KEYS" "A").Reach t ∧ t.stored = s.stored ∧
        t.completed = s.completed) ∧
      ∀ room, s.stored = some room → room.ownerID ∈ room.playerIDs ∧
        room.playerIDs.Pairwise fun a b => joinedAt a s.completed < joinedAt b s.completed := by
  intro s
  have hread : ∀ {s : Shared Request GameRoom} (id : String), (upToDate "KEYS" "A").Reach s →
      (upToDate "KEYS" "A").Reach (perform Request.update s (.read (.join id))) := by
    intro s id h
    exact reach_perform h _ (fun q heq => ⟨nofun, fun q' heq' id' hid => by
      cases heq
      cases heq'
      cases hid⟩) nofun
  have hreach : (upToDate "KEYS" "A").Reach s := by
    refine reach_perform (hread "A" (hread "B" (.init rfl))) (.write 0) nofun
      fun i p hi hp => ⟨fun p' heq => ?_, nofun⟩
    cases hi
    cases heq
    cases hp
    rfl
  exact ⟨by decide, overlap_sequential hreach⟩

end Rooms

end IosGame
