import IosGame.Rooms.Races

/-!
# IosGame.Rooms.Succession

A room whose requests are executed one at a time: who owns it, in what order its players
stand, and when it is deleted (`room_succession`).

The order is that of the joins that let the players in (`joinedAt`).  An owner who quits
hands over to the player after him, before he is taken out; so the owner is always a
player of the room, and the last player owns it.
-/

namespace IosGame

namespace Rooms

open Shared

variable {shareKey creator playerID : String} {room room' : GameRoom} {q : Request}
  {s s' : Shared Request GameRoom}

/-! ## one request at a time -/

/-- The runs in which every request has finished before the next one reads, and only
players of the room quit. -/
def sequential (shareKey creator : String) : System (Shared Request GameRoom) Request where
  init s := s = create (GameRoom.init shareKey creator)
  step s q s' := s' = serve Request.update s q ∧
    ∀ playerID, q = .quit playerID → playerID ∈ members s.stored

theorem inFlight_sequential (h : (sequential shareKey creator).Reach s) : s.inFlight = [] := by
  refine h.invariant (I := fun s => s.inFlight = []) (fun s hs => ?_) fun s q s' _ ih hstep => ?_
  · rw [hs]
    rfl
  · rw [hstep.1]
    exact (serve_spec Request.update q ih).2.2

theorem stored_sequential (h : (sequential shareKey creator).Reach s)
    (hstep : (sequential shareKey creator).step s q s') :
    s'.stored = atomically Request.update q s.stored ∧
      s'.completed = (q, s.stored) :: s.completed := by
  obtain ⟨hstored, hcompleted, -⟩ := serve_spec Request.update q (inFlight_sequential h)
  rw [hstep.1]
  exact ⟨hstored, hcompleted⟩

/-! ## the owner -/

/-- The owner of the room is one of its players, each of whom is there once. -/
structure Owned (room : GameRoom) : Prop where
  nodup : room.playerIDs.Nodup
  owner : room.ownerID ∈ room.playerIDs

theorem Owned.update (h : Owned room)
    (hquit : ∀ playerID, q = .quit playerID → playerID ∈ room.playerIDs)
    (hset : q.update room = .set room') : Owned room' := by
  rcases update_eq_set hset with ⟨playerID, -, hnew, -, -, rfl⟩ | ⟨playerID, hlen, hq, rfl⟩ |
    ⟨-, rfl⟩
  · constructor
    · simpa using h.nodup.concat hnew
    · exact List.mem_append_left _ h.owner
  · have hin := hquit playerID hq
    constructor
    · exact h.nodup.sublist (List.eraseIdx_sublist _ _)
    · exact owner_mem_eraseIdx h.nodup h.owner hin hlen
  · exact ⟨h.nodup, h.owner⟩

/-- In the players' turn, `next` comes after `playerID`. -/
def Follows (room : GameRoom) (playerID next : String) : Prop :=
  ∃ i : Nat, room.playerIDs[i]? = some playerID ∧
    room.playerIDs[(i + 1) % room.playerIDs.length]? = some next

theorem follows_successor (h : playerID ∈ room.playerIDs) (hlen : 1 < room.playerIDs.length) :
    Follows room playerID (successor room (playerIDIdx room playerID) hlen) := by
  refine ⟨playerIDIdx room playerID, getElem_playerIDIdx h, ?_⟩
  rw [List.getElem?_eq_getElem (Nat.mod_lt _ (Nat.zero_lt_of_lt hlen))]
  rfl

/-- The owner changes when he quits, to the player after him, and at no other request. -/
theorem owner_update (h : Owned room) (hset : q.update room = .set room') :
    (room'.ownerID ≠ room.ownerID → q = .quit room.ownerID) ∧
      (q = .quit room.ownerID → Follows room room.ownerID room'.ownerID) := by
  rcases update_eq_set hset with ⟨playerID, rfl, -, -, -, rfl⟩ | ⟨playerID, hlen, rfl, rfl⟩ |
    ⟨rfl, rfl⟩
  · exact ⟨fun hne => absurd rfl hne, fun hq => by cases hq⟩
  · by_cases howner : room.ownerID = playerID
    · subst howner
      refine ⟨fun _ => rfl, fun _ => ?_⟩
      rw [if_pos rfl]
      exact follows_successor h.owner hlen
    · simp only [if_neg howner]
      exact ⟨fun hne => absurd rfl hne, fun hq => absurd (Request.quit.inj hq).symm howner⟩
  · exact ⟨fun hne => absurd rfl hne, fun hq => by cases hq⟩

/-- A request deletes the room exactly when it is the last player's quit. -/
theorem delete_update (h : Owned room)
    (hquit : ∀ playerID, q = .quit playerID → playerID ∈ room.playerIDs) :
    q.update room = .delete ↔ ∃ playerID, q = .quit playerID ∧ room.playerIDs = [playerID] := by
  cases q with
  | join playerID =>
      rcases joinGameRoom_cases playerID room with ⟨-, -, -, heq⟩ | ⟨-, -, -, heq⟩ | ⟨-, heq⟩ <;>
        simp [Request.update, heq]
  | quit playerID =>
      have hin := hquit playerID rfl
      by_cases hlen : 1 < room.playerIDs.length
      · have hset : (Request.quit playerID).update room = _ := quitGameRoom_set playerID hlen
        rw [hset]
        constructor
        · intro hdelete
          cases hdelete
        · rintro ⟨_, -, hp⟩
          rw [hp] at hlen
          simp at hlen
      · have hp := playerIDs_eq_singleton hin hlen
        have howner : room.ownerID = playerID := by simpa [hp] using h.owner
        exact ⟨fun _ => ⟨playerID, rfl, hp⟩, fun _ => quitGameRoom_delete hlen howner⟩
  | start => simp [Request.update, updateGameRoom]

/-! ## the order of the players -/

/-- The request lets the player in: a join of his, while he was out, that completed with a
room. -/
def admits (playerID : String) : Request × Option GameRoom → Bool
  | (.join id, o) =>
      id == playerID && !(members o).contains id && ((Request.join id).completion o).isSome
  | _ => false

/-- When the player joined: the number of the completed request that let him in, 0 for the
creator. -/
def joinedAt (playerID : String) : List (Request × Option GameRoom) → Nat
  | [] => 0
  | r :: completed =>
      if admits playerID r then completed.length + 1 else joinedAt playerID completed

theorem joinedAt_le (playerID : String) (completed : List (Request × Option GameRoom)) :
    joinedAt playerID completed ≤ completed.length := by
  induction completed with
  | nil => exact Nat.le_refl _
  | cons r completed ih =>
      rw [joinedAt, List.length_cons]
      split <;> omega

/-- The players stand in the order in which they joined. -/
def Ordered (completed : List (Request × Option GameRoom)) (room : GameRoom) : Prop :=
  room.playerIDs.Pairwise fun a b => joinedAt a completed < joinedAt b completed

/-- A request that lets nobody in keeps the order. -/
theorem Ordered.keep {completed : List (Request × Option GameRoom)} {o : Option GameRoom}
    (h : Ordered completed room) (hsub : room'.playerIDs.Sublist room.playerIDs)
    (hadmits : ∀ id, admits id (q, o) = false) : Ordered ((q, o) :: completed) room' := by
  refine (h.sublist hsub).imp fun hab => ?_
  simpa only [joinedAt, hadmits, Bool.false_eq_true, ↓reduceIte] using hab

/-- A new player stands last. -/
theorem Ordered.join {completed : List (Request × Option GameRoom)}
    (h : Ordered completed room) (hnew : playerID ∉ room.playerIDs)
    (hadmits : ∀ id, admits id (.join playerID, some room) = decide (playerID = id))
    (hroom' : room'.playerIDs = room.playerIDs ++ [playerID]) :
    Ordered ((.join playerID, some room) :: completed) room' := by
  have hold : ∀ id ∈ room.playerIDs,
      joinedAt id ((.join playerID, some room) :: completed) = joinedAt id completed := by
    intro id hid
    have hne : playerID ≠ id := fun heq => hnew (heq ▸ hid)
    rw [joinedAt, hadmits, decide_eq_false hne, if_neg Bool.false_ne_true]
  rw [Ordered, hroom', List.pairwise_append]
  refine ⟨?_, List.pairwise_singleton _ _, fun a ha b hb => ?_⟩
  · refine h.imp_of_mem fun {a b} ha hb hab => ?_
    rw [hold a ha, hold b hb]
    exact hab
  · rw [List.mem_singleton.mp hb, hold a ha, joinedAt, hadmits, decide_eq_true rfl, if_pos rfl]
    have := joinedAt_le a completed
    omega

theorem admits_join (hnew : playerID ∉ room.playerIDs)
    (hcompletes : ((Request.join playerID).completion (some room)).isSome) (id : String) :
    admits id (.join playerID, some room) = decide (playerID = id) := by
  rw [Bool.eq_iff_iff]
  simp [admits, members, hnew, hcompletes]

/-- Only a request that stores the room lets a player in. -/
theorem admits_keep (hkeep : q.update room = .keep) (id : String) :
    admits id (q, some room) = false := by
  cases q with
  | join playerID =>
      rcases joinGameRoom_cases playerID room with ⟨-, -, -, heq⟩ | ⟨hin, -, -, -⟩ | ⟨-, heq⟩
      · simp [Request.update, heq] at hkeep
      · simp [admits, members, hin]
      · simp [admits, Request.completion, heq]
  | quit playerID => rfl
  | start => rfl

/-- A request that stores the room keeps its players in order. -/
theorem Ordered.update {completed : List (Request × Option GameRoom)}
    (h : Ordered completed room) (hset : q.update room = .set room') :
    Ordered ((q, some room) :: completed) room' := by
  rcases update_eq_set hset with ⟨playerID, rfl, hnew, hlen, hrun, rfl⟩ | ⟨playerID, -, rfl, rfl⟩ |
    ⟨rfl, rfl⟩
  · refine h.join hnew (admits_join hnew ?_) rfl
    rcases joinGameRoom_cases playerID room with ⟨-, -, -, heq⟩ | ⟨hin, -⟩ | ⟨hclosed, -⟩
    · simp [Request.completion, heq]
    · exact absurd hin hnew
    · simp only [hrun, Bool.false_eq_true, or_false] at hclosed
      omega
  · exact h.keep (List.eraseIdx_sublist _ _) fun _ => rfl
  · exact h.keep (List.Sublist.refl _) fun _ => rfl

theorem reach_serve_sequential (h : (sequential shareKey creator).Reach s)
    (hquit : ∀ playerID, q = .quit playerID → playerID ∈ members s.stored) :
    (sequential shareKey creator).Reach (serve Request.update s q) :=
  h.step ⟨rfl, hquit⟩

/-! ## every run -/

/-- The stored room is owned and its players stand in order. -/
def Settled (s : Shared Request GameRoom) : Prop :=
  ∀ room, s.stored = some room → Owned room ∧ Ordered s.completed room

theorem settled_init (shareKey creator : String) :
    Settled (create (GameRoom.init shareKey creator)) := by
  intro room hroom
  obtain rfl : GameRoom.init shareKey creator = room := Option.some.inj hroom
  exact ⟨⟨List.nodup_singleton _, List.mem_singleton_self _⟩, List.pairwise_singleton _ _⟩

theorem Settled.step (h : Settled s)
    (hquit : ∀ playerID, q = .quit playerID → playerID ∈ members s.stored)
    (hstored : s'.stored = atomically Request.update q s.stored)
    (hcompleted : s'.completed = (q, s.stored) :: s.completed) : Settled s' := by
  intro room' hroom'
  rw [hcompleted]
  cases hread : s.stored with
  | none =>
      rw [hread] at hstored
      rw [hstored] at hroom'
      cases hroom'
  | some room =>
      obtain ⟨howned, hordered⟩ := h room hread
      rw [hread] at hstored hquit
      rw [hstored, atomically_eq_some] at hroom'
      rcases hroom' with hset | ⟨hkeep, rfl⟩
      · exact ⟨howned.update hquit hset, hordered.update hset⟩
      · exact ⟨howned, hordered.keep (List.Sublist.refl _) (admits_keep hkeep)⟩

theorem settled (h : (sequential shareKey creator).Reach s) : Settled s := by
  refine h.invariant (fun s hs => ?_) fun s q s' hs ih hstep => ?_
  · rw [hs]
    exact settled_init shareKey creator
  · obtain ⟨hstored, hcompleted⟩ := stored_sequential hs hstep
    exact ih.step hstep.2 hstored hcompleted

/-- The owner of the room after the request, if there is still a room. -/
theorem handover (h : Owned room) (hroom' : atomically Request.update q (some room) = some room') :
    (room'.ownerID ≠ room.ownerID → q = .quit room.ownerID) ∧
      (q = .quit room.ownerID → Follows room room.ownerID room'.ownerID) := by
  rw [atomically_eq_some] at hroom'
  rcases hroom' with hset | ⟨hkeep, rfl⟩
  · exact owner_update h hset
  · refine ⟨fun hne => absurd rfl hne, ?_⟩
    rintro rfl
    -- the owner's quit stores the room or deletes it
    by_cases hlen : 1 < room.playerIDs.length
    · rw [Request.update, quitGameRoom_set _ hlen] at hkeep
      cases hkeep
    · rw [Request.update, quitGameRoom_delete hlen rfl] at hkeep
      cases hkeep

/-- **Succession**: in a room whose requests are executed one at a time, and which only its
players quit, the owner is a player and the players stand in the order in which they
joined; the next request changes the owner only if it is his quit, and then to the player
after him, and deletes the room exactly when it is the quit of the last player. -/
theorem room_succession (h : (sequential shareKey creator).Reach s)
    (hroom : s.stored = some room) :
    room.ownerID ∈ room.playerIDs ∧
      room.playerIDs.Pairwise (fun a b => joinedAt a s.completed < joinedAt b s.completed) ∧
      ∀ q s', (sequential shareKey creator).step s q s' →
        (∀ room', s'.stored = some room' →
          (room'.ownerID ≠ room.ownerID → q = .quit room.ownerID) ∧
            (q = .quit room.ownerID → Follows room room.ownerID room'.ownerID)) ∧
        (s'.stored = none ↔ ∃ playerID, q = .quit playerID ∧ room.playerIDs = [playerID]) := by
  obtain ⟨howned, hordered⟩ := settled h room hroom
  refine ⟨howned.owner, hordered, fun q s' hstep => ?_⟩
  obtain ⟨hstored, -⟩ := stored_sequential h hstep
  have hquit := hstep.2
  rw [hroom] at hstored hquit
  rw [hstored]
  exact ⟨fun room' hroom' => handover howned hroom',
    atomically_eq_none.trans (delete_update howned hquit)⟩

/-- The creator hands over to the player who joined next. -/
theorem room_succession_handed_over :
    let serveAll := List.foldl (serve Request.update) (create (GameRoom.init "KEYS" "A"))
    let s := serveAll [.join "B", .start, .join "C", .join "B"]
    let room : GameRoom := ⟨"A", "KEYS", ["A", "B"], true⟩
    s.stored = some room ∧ Follows room "A" "B" ∧
      (serve Request.update s (.quit "A")).stored = some ⟨"B", "KEYS", ["B"], true⟩ := by
  intro serveAll s room
  have hreach : (sequential "KEYS" "A").Reach s := by
    simp only [s, serveAll, List.foldl_cons, List.foldl_nil]
    refine reach_serve_sequential (reach_serve_sequential (reach_serve_sequential
      (reach_serve_sequential (.init rfl) ?_) ?_) ?_) ?_ <;> simp
  have hstored : s.stored = some room := by decide
  have hquit : (sequential "KEYS" "A").step s (.quit "A") (serve Request.update s (.quit "A")) :=
    ⟨rfl, fun id hid => by cases hid; rw [hstored]; decide⟩
  have hafter : (serve Request.update s (.quit "A")).stored =
      some ⟨"B", "KEYS", ["B"], true⟩ := by decide
  have hnext := (room_succession hreach hstored).2.2 _ _ hquit
  exact ⟨hstored, (hnext.1 _ hafter).2 rfl, hafter⟩

end Rooms

end IosGame
