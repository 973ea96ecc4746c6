import IosGame.Loop
import IosGame.Rooms.Create

/-!
# IosGame.Rooms.Lookup

The four searches for a room or a player by one field of its document.

Each asks the store for the documents with a value in a field, decodes those it can and
completes with the first.  Whether there is one is tested on the documents before they are
decoded, so that a search traps when none of those it found decodes (`lookups_survive`).
-/

namespace IosGame

namespace Rooms

/-! ## the searches -/

/-- `store.collection(collection).whereField(field, isEqualTo: value)`. -/
structure Query where
  collection : String
  field : String
  value : String
  deriving DecidableEq, Repr

def Query.ownerID (ownerID : String) : Query := ⟨"Rooms", "ownerID", ownerID⟩

def Query.shareKey (shareKey : String) : Query := ⟨"Rooms", "shareKey", shareKey⟩

def Query.uid (uid : String) : Query := ⟨"players", "uid", uid⟩

def Query.email (email : String) : Query := ⟨"players", "email", email⟩

section Searches

variable {D α : Type}

/-- `dataList` after the loop over the documents: `data` decodes one, and one that does not
decode is left out. -/
def dataList (data : D → Option α) : List D → List α
  | [] => []
  | document :: documents =>
      match data document with
      | some t => t :: dataList data documents
      | none => dataList data documents

/-- What a search does with the snapshot its query ends in, nil when it failed: the values
its completion is called with, in turn. -/
def lookup (data : D → Option α) (querySnapshot : Option (List D)) :
    Except Trap (List (Option α)) :=
  match querySnapshot with
  | none => .ok [none]
  | some documents =>
      if documents.length ≤ 0 then .ok [none]
      else do
        let first ← idx (dataList data documents) 0
        pure [some first]

variable (room : D → Option Stored) (player : D → Option Player)
  (getDocuments : Query → Option (List D))

/-- `getGameRoom(ownerID:)`. -/
def getGameRoomOfOwner (ownerID : String) : Except Trap (List (Option Stored)) :=
  lookup room (getDocuments (.ownerID ownerID))

/-- `getGameRoom(shareKey:)`. -/
def getGameRoomOfKey (shareKey : String) : Except Trap (List (Option Stored)) :=
  lookup room (getDocuments (.shareKey shareKey))

/-- `getPlayerData(uid:)`. -/
def getPlayerDataOfUid (uid : String) : Except Trap (List (Option Player)) :=
  lookup player (getDocuments (.uid uid))

/-- `getPlayerData(email:)`. -/
def getPlayerDataOfEmail (email : String) : Except Trap (List (Option Player)) :=
  lookup player (getDocuments (.email email))

end Searches

/-! ## what they complete with -/

section Completions

variable {D α : Type} {data : D → Option α}

/-- A search completes once, with the first document that decodes, or nil. -/
def CompletesOnce (data : D → Option α) (querySnapshot : Option (List D))
    (completions : Except Trap (List (Option α))) : Prop :=
  completions = .ok [(querySnapshot.getD []).findSome? data]

/-- The query failed, found nothing, or found a document that decodes. -/
def Decodes (data : D → Option α) (querySnapshot : Option (List D)) : Prop :=
  ∀ documents, querySnapshot = some documents → documents ≠ [] →
    ∃ document ∈ documents, (data document).isSome

theorem dataList_eq (data : D → Option α) (documents : List D) :
    dataList data documents = documents.filterMap data := by
  induction documents with
  | nil => rfl
  | cons document documents ih =>
      cases hdata : data document with
      | some t => simp [dataList, hdata, ih]
      | none => simp [dataList, hdata, ih]

/-- The first of the decoded documents is the first that decodes. -/
theorem idx_dataList_some {documents : List D} {t : α} (h : documents.findSome? data = some t) :
    idx (dataList data documents) 0 = .ok t := by
  rw [← List.head?_filterMap, ← dataList_eq] at h
  obtain ⟨rest, hrest⟩ := List.head?_eq_some_iff.mp h
  rw [hrest]
  rfl

theorem idx_dataList_none {documents : List D} (h : documents.findSome? data = none) :
    idx (dataList data documents) 0 = .error .outOfRange := by
  rw [← List.head?_filterMap, ← dataList_eq, List.head?_eq_none_iff] at h
  rw [h]
  rfl

/-- **A search** does what it should exactly when one of the documents it found decodes. -/
theorem lookup_completesOnce (data : D → Option α) (querySnapshot : Option (List D)) :
    CompletesOnce data querySnapshot (lookup data querySnapshot) ↔
      Decodes data querySnapshot := by
  unfold CompletesOnce Decodes
  cases querySnapshot with
  | none => simp [lookup]
  | some documents =>
      cases documents with
      | nil => simp [lookup]
      | cons document documents =>
          have hfind := List.findSome?_isSome_iff (f := data) (l := document :: documents)
          rw [lookup, if_neg (by simp), Option.getD_some]
          cases hfirst : (document :: documents).findSome? data with
          | some t =>
              rw [idx_dataList_some hfirst]
              rw [hfirst] at hfind
              simpa using hfind.mp rfl
          | none =>
              rw [idx_dataList_none hfirst]
              rw [hfirst] at hfind
              simpa using hfind

end Completions

/-- **Lookups survive undecodable documents** exactly when the query failed, found nothing
or found a document that decodes. -/
theorem lookups_survive {D : Type} (room : D → Option Stored) (player : D → Option Player)
    (getDocuments : Query → Option (List D)) :
    (∀ ownerID, CompletesOnce room (getDocuments (.ownerID ownerID))
        (getGameRoomOfOwner room getDocuments ownerID) ↔
      Decodes room (getDocuments (.ownerID ownerID))) ∧
    (∀ shareKey, CompletesOnce room (getDocuments (.shareKey shareKey))
        (getGameRoomOfKey room getDocuments shareKey) ↔
      Decodes room (getDocuments (.shareKey shareKey))) ∧
    (∀ uid, CompletesOnce player (getDocuments (.uid uid))
        (getPlayerDataOfUid player getDocuments uid) ↔
      Decodes player (getDocuments (.uid uid))) ∧
    ∀ email, CompletesOnce player (getDocuments (.email email))
        (getPlayerDataOfEmail player getDocuments email) ↔
      Decodes player (getDocuments (.email email)) :=
  ⟨fun _ => lookup_completesOnce _ _, fun _ => lookup_completesOnce _ _,
    fun _ => lookup_completesOnce _ _, fun _ => lookup_completesOnce _ _⟩

/-- One document, and it does not decode: each of the searches reads an empty list. -/
theorem lookups_trap :
    let getDocuments : Query → Option (List Unit) := fun _ => some [()]
    getGameRoomOfOwner (fun _ => none) getDocuments "A" = .error .outOfRange ∧
      getGameRoomOfKey (fun _ => none) getDocuments "KEYS" = .error .outOfRange ∧
      getPlayerDataOfUid (fun _ => none) getDocuments "U" = .error .outOfRange ∧
      getPlayerDataOfEmail (fun _ => none) getDocuments "E" = .error .outOfRange ∧
      ¬ CompletesOnce (fun _ => none) (getDocuments (.ownerID "A"))
        (getGameRoomOfOwner (fun _ => none) getDocuments "A") := by
  refine ⟨rfl, rfl, rfl, rfl, fun h => ?_⟩
  cases h

end Rooms

end IosGame
