import IosGame.Rooms.Room

/-!
# IosGame.Rooms.Create

The Rooms collection and the calls that add a room to it.

`createGameRoom` looks for a room of the same owner, completes with nil when there is one,
and goes on: the room is added all the same and completes the call a second time.  So a
call does what it should exactly when the owner has no room yet (`one_room_per_owner`).
-/

namespace IosGame

namespace Rooms

/-! ## the collection -/

/-- A stored room, under its document id. -/
abbrev Stored := String × GameRoom

/-- The rooms `whereField("ownerID", isEqualTo: ownerID)` finds. -/
def withOwner (ownerID : String) (rooms : List Stored) : List Stored :=
  rooms.filter fun room => room.2.ownerID == ownerID

/-- The document with the id, if there is one. -/
def getDocument (docID : String) (rooms : List Stored) : Option Stored :=
  rooms.find? fun room => room.1 == docID

/-- `searchGameRoom(ownerID:)` on what its query found: whether that is nothing, and nil
when the query failed. -/
def searchGameRoom (querySnapshot : Option (List Stored)) : Option Bool :=
  querySnapshot.map fun documents => decide (documents.length ≤ 0)

/-- What a call of `createGameRoom` leaves: the collection, and what its completion was
invoked with, in turn. -/
structure Created where
  rooms : List Stored
  completions : List (Option Stored)
  deriving DecidableEq

/-- `createGameRoom`, where all operations on the store succeed.  `call` is the room to add
under the id the store draws for it. -/
def createGameRoom (rooms : List Stored) (call : Stored) : Created :=
  let unexist := searchGameRoom (some (withOwner call.2.ownerID rooms))
  let existed := if unexist = some false then [none] else []
  -- `completion(nil)` is not followed by a return
  let added := rooms ++ [call]
  { rooms := added
    completions := existed ++ ((getDocument call.1 added).map some).toList }

/-- The collection after calls that follow one another. -/
def createAll (rooms : List Stored) (calls : List Stored) : List Stored :=
  calls.foldl (fun rooms call => (createGameRoom rooms call).rooms) rooms

/-- What a call does where an owner has one room. -/
structure OneRoom (rooms : List Stored) (call : Stored) (created : Created) : Prop where
  exists_room : (∃ room ∈ rooms, room.2.ownerID = call.2.ownerID) →
    created.rooms = rooms ∧ created.completions = [none]
  no_room : (∀ room ∈ rooms, room.2.ownerID ≠ call.2.ownerID) →
    created.rooms = rooms ++ [call] ∧ created.completions = [some call]

/-- No call is for an owner who has a room, or for whom an earlier call was. -/
def NewOwners (rooms calls : List Stored) : Prop :=
  (∀ call ∈ calls, ∀ room ∈ rooms, room.2.ownerID ≠ call.2.ownerID) ∧
    (calls.map fun call => call.2.ownerID).Nodup

variable {rooms calls before after : List Stored} {call : Stored}

/-! ## one call -/

theorem withOwner_eq_nil {ownerID : String} :
    withOwner ownerID rooms = [] ↔ ∀ room ∈ rooms, room.2.ownerID ≠ ownerID := by
  simp [withOwner]

theorem searchGameRoom_eq_false {documents : List Stored} :
    searchGameRoom (some documents) = some false ↔ documents ≠ [] := by
  simp [searchGameRoom]

theorem getDocument_append (h : call.1 ∉ rooms.map Prod.fst) :
    getDocument call.1 (rooms ++ [call]) = some call := by
  have hnone : rooms.find? (fun room => room.1 == call.1) = none := by
    refine List.find?_eq_none.mpr fun room hroom hid => h ?_
    rw [← beq_iff_eq.mp hid]
    exact List.mem_map_of_mem hroom
  simp [getDocument, hnone]

/-- Every call adds its room. -/
theorem rooms_createGameRoom (rooms : List Stored) (call : Stored) :
    (createGameRoom rooms call).rooms = rooms ++ [call] := rfl

theorem completions_createGameRoom (h : call.1 ∉ rooms.map Prod.fst) :
    (createGameRoom rooms call).completions =
      if ∀ room ∈ rooms, room.2.ownerID ≠ call.2.ownerID then [some call]
      else [none, some call] := by
  simp only [createGameRoom, getDocument_append h, searchGameRoom_eq_false, ne_eq,
    withOwner_eq_nil, Option.map_some, Option.toList_some]
  by_cases hnew : ∀ room ∈ rooms, ¬ room.2.ownerID = call.2.ownerID
  · rw [if_neg (not_not_intro hnew), if_pos hnew]
    rfl
  · rw [if_pos hnew, if_neg hnew]
    rfl

/-- A call does what it should exactly when no stored room has its owner. -/
theorem oneRoom_createGameRoom (h : call.1 ∉ rooms.map Prod.fst) :
    OneRoom rooms call (createGameRoom rooms call) ↔
      ∀ room ∈ rooms, room.2.ownerID ≠ call.2.ownerID := by
  refine ⟨fun hone room hroom howner => ?_, fun hnew => ⟨?_, fun _ => ⟨rfl, ?_⟩⟩⟩
  · have hrooms := (hone.exists_room ⟨room, hroom, howner⟩).1
    rw [rooms_createGameRoom] at hrooms
    simp at hrooms
  · rintro ⟨room, hroom, howner⟩
    exact absurd howner (hnew room hroom)
  · rw [completions_createGameRoom h, if_pos hnew]

/-! ## calls in turn -/

theorem createAll_eq (rooms calls : List Stored) : createAll rooms calls = rooms ++ calls := by
  induction calls generalizing rooms with
  | nil => simp [createAll]
  | cons call calls ih =>
      have hcons : createAll rooms (call :: calls) = createAll (rooms ++ [call]) calls := rfl
      rw [hcons, ih, List.append_assoc, List.singleton_append]

/-- Calls are for new owners when each finds no room of its owner. -/
theorem newOwners_iff :
    NewOwners rooms calls ↔ ∀ before call after, calls = before ++ call :: after →
      ∀ room ∈ rooms ++ before, room.2.ownerID ≠ call.2.ownerID := by
  constructor
  · rintro ⟨hstored, hnodup⟩ before call after rfl room hroom
    rcases List.mem_append.mp hroom with hroom | hroom
    · exact hstored call (by simp) room hroom
    · rw [List.map_append, List.nodup_append] at hnodup
      exact hnodup.2.2 _ (List.mem_map_of_mem hroom) _ (List.mem_map_of_mem List.mem_cons_self)
  · intro h
    constructor
    · intro call hcall room hroom
      obtain ⟨before, after, rfl⟩ := List.append_of_mem hcall
      exact h before call after rfl room (List.mem_append_left _ hroom)
    · refine List.pairwise_map.mpr (List.pairwise_iff_getElem.mpr fun i j hi hj hij => ?_)
      have hsplit : calls = calls.take j ++ calls[j] :: calls.drop (j + 1) := by simp
      refine h _ _ _ hsplit _ (List.mem_append_right _ (List.mem_take_iff_getElem.mpr ?_))
      exact ⟨i, by omega, rfl⟩

/-- **One room per owner**: from any collection, all calls do what they should exactly when
they are for new owners, each for another; and calls into an empty collection leave no two
rooms of one owner exactly when no two of them are for one owner. -/
theorem one_room_per_owner (hids : ((rooms ++ calls).map Prod.fst).Nodup) :
    ((∀ before call after, calls = before ++ call :: after →
        OneRoom (createAll rooms before) call (createGameRoom (createAll rooms before) call)) ↔
      NewOwners rooms calls) ∧
    (((createAll [] calls).map fun room => room.2.ownerID).Nodup ↔ NewOwners [] calls) := by
  constructor
  · rw [newOwners_iff]
    refine forall₄_congr fun before call after hcalls => ?_
    rw [createAll_eq]
    refine oneRoom_createGameRoom ?_
    rw [hcalls, ← List.append_assoc, List.map_append, List.nodup_append] at hids
    exact fun hmem => hids.2.2 _ hmem _ (List.mem_map_of_mem List.mem_cons_self) rfl
  · rw [createAll_eq, List.nil_append]
    exact ⟨fun h => ⟨fun _ _ => nofun, h⟩, fun h => h.2⟩

/-- Two owners, a call for each. -/
theorem one_room_per_owner_two :
    let calls := [("1", GameRoom.init "KEYS" "A"), ("2", GameRoom.init "GAME" "B")]
    NewOwners [] calls ∧ ((createAll [] calls).map fun room => room.2.ownerID).Nodup := by
  intro calls
  have hnew : NewOwners [] calls := ⟨fun _ _ => nofun, by decide⟩
  have hids : (([] ++ calls).map Prod.fst).Nodup := by decide
  exact ⟨hnew, (one_room_per_owner hids).2.mpr hnew⟩

/-- The second call of one owner completes with nil, adds its room and completes with it. -/
theorem one_room_per_owner_again :
    let first : Stored := ("1", GameRoom.init "KEYS" "A")
    let again : Stored := ("2", GameRoom.init "GAME" "A")
    createGameRoom [first] again = ⟨[first, again], [none, some again]⟩ ∧
      ¬ OneRoom [first] again (createGameRoom [first] again) ∧
      ¬ ((createAll [] [first, again]).map fun room => room.2.ownerID).Nodup := by
  refine ⟨by decide, fun h => ?_, by decide⟩
  have hrooms := (h.exists_room ⟨_, List.mem_singleton_self _, rfl⟩).1
  rw [rooms_createGameRoom] at hrooms
  simp at hrooms

end Rooms

end IosGame
