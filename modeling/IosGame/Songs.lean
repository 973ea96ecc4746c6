import IosGame.Keyed
import IosGame.System
import Mathlib.Logic.Function.Basic

/-!
# IosGame.Songs

The song list, kept up to date by a listener on the songs collection.

The listener edits its array change by change and leaves out every change whose document
does not decode.  So a document that is modified into one that decodes is never listed,
and one modified into one that does not stays listed as it was.  Where no modification
does either, the list is the collection after every batch (`songs_mirror_collection`).
-/

namespace IosGame

namespace Songs

structure Song where
  id : Option String
  name : String
  singer : String
  rate : Int
  deriving DecidableEq, Repr

inductive DocumentChangeType where
  | added
  | modified
  | removed
  deriving DecidableEq, Repr

/-- A change the listener is told of, with the content of the document. -/
structure DocumentChange (Content : Type) where
  type : DocumentChangeType
  id : String
  content : Content
  deriving DecidableEq

variable {Content : Type} (decode : Content → Option Song)

/-- `data(as: Song.self)`: what the content decodes to, under the id of the document. -/
def data (id : String) (content : Content) : Option Song :=
  (decode content).map fun song => { song with id := some id }

/-! ## the listener -/

/-- What the listener does at one change. -/
def change (songs : List Song) (documentChange : DocumentChange Content) : List Song :=
  match data decode documentChange.id documentChange.content with
  | none => songs
  | some song => match documentChange.type with
      | .added => songs ++ [song]
      | .modified => replaceFirst Song.id song songs
      | .removed => removeFirst Song.id song.id songs

/-- What the listener of `fetchChanges` does with a snapshot. -/
def fetchChanges (songs : List Song) (snapshot : Option (List (DocumentChange Content))) :
    List Song :=
  match snapshot with
  | none => songs
  | some documentChanges => documentChanges.foldl (change decode) songs

/-! ## the collection -/

/-- The documents stored, by their ids. -/
abbrev Collection (Content : Type) := String → Option Content

/-- The collection after a change. -/
def Collection.change (docs : Collection Content) (documentChange : DocumentChange Content) :
    Collection Content :=
  match documentChange.type with
  | .added | .modified => Function.update docs documentChange.id (some documentChange.content)
  | .removed => Function.update docs documentChange.id none

/-- What can happen to a collection: a new document is added, a stored one is modified or
removed with the content it has. -/
def Collection.Allows (docs : Collection Content) (documentChange : DocumentChange Content) :
    Prop :=
  match documentChange.type with
  | .added => docs documentChange.id = none
  | .modified => (docs documentChange.id).isSome = true
  | .removed => docs documentChange.id = some documentChange.content

/-- `P` holds of each change and the collection it finds. -/
def Along (P : Collection Content → DocumentChange Content → Prop) :
    Collection Content → List (DocumentChange Content) → Prop
  | _, [] => True
  | docs, c :: batch => P docs c ∧ Along P (docs.change c) batch

/-- The collection and the list. -/
structure State (Content : Type) where
  docs : Collection Content
  songs : List Song

/-- The changes of the collection, delivered to the listener in batches. -/
def listening : System (State Content) (List (DocumentChange Content)) where
  init s := s.docs = (fun _ => none) ∧ s.songs = []
  step s batch s' := Along Collection.Allows s.docs batch ∧
    s'.docs = batch.foldl Collection.change s.docs ∧
    s'.songs = fetchChanges decode s.songs (some batch)

/-- The list holds the stored documents that decode, each id once, with the content they
have. -/
def Mirrors (s : State Content) : Prop :=
  (s.songs.map Song.id).Nodup ∧ ∀ song, song ∈ s.songs ↔
    ∃ id content, s.docs id = some content ∧ data decode id content = some song

/-- A modification leaves a document that decodes one that does, and one that does not one
that does not. -/
def Steady (docs : Collection Content) (c : DocumentChange Content) : Prop :=
  c.type = .modified → ∀ content, docs c.id = some content →
    ((decode content).isSome ↔ (decode c.content).isSome)

/-- All modifications of the batch are steady. -/
def SteadyBatch (s : State Content) (batch : List (DocumentChange Content))
    (_ : State Content) : Prop :=
  Along (Steady decode) s.docs batch

variable {decode} {docs : Collection Content} {songs : List Song} {c : DocumentChange Content}
  {batch : List (DocumentChange Content)} {s s' : State Content} {song : Song} {id : String}

/-! ## one document -/

theorem id_of_data {content : Content} (h : data decode id content = some song) :
    song.id = some id := by
  obtain ⟨song', -, rfl⟩ := Option.map_eq_some_iff.mp h
  rfl

theorem isSome_data {content : Content} :
    (data decode id content).isSome = (decode content).isSome :=
  Option.isSome_map

/-- The song a key of the list should have. -/
def expected (decode : Content → Option Song) (docs : Collection Content) (key : Option String) :
    Option Song :=
  key.bind fun id => (docs id).bind (data decode id)

theorem id_of_expected {key : Option String} (h : expected decode docs key = some song) :
    song.id = key := by
  obtain ⟨id, rfl, hid⟩ := Option.bind_eq_some_iff.mp h
  obtain ⟨content, -, hdata⟩ := Option.bind_eq_some_iff.mp hid
  exact id_of_data hdata

/-- The list has the expected song for each key and no others. -/
def Lists (decode : Content → Option Song) (docs : Collection Content) (songs : List Song) : Prop :=
  ∀ key, listed Song.id key songs = (expected decode docs key).toList

theorem mirrors_iff : Mirrors decode s ↔ Lists decode s.docs s.songs := by
  unfold Lists
  rw [listed_eq_toList fun _ _ => id_of_expected]
  refine and_congr_right fun _ => forall_congr' fun song => ?_
  refine iff_congr Iff.rfl ?_
  constructor
  · rintro ⟨id, content, hdocs, hdata⟩
    rw [id_of_data hdata]
    simp [expected, hdocs, hdata]
  · intro h
    obtain ⟨id, -, hid⟩ := Option.bind_eq_some_iff.mp h
    obtain ⟨content, hdocs, hdata⟩ := Option.bind_eq_some_iff.mp hid
    exact ⟨id, content, hdocs, hdata⟩

theorem docs_change_of_ne (h : c.id ≠ id) : docs.change c id = docs id := by
  obtain ⟨type, id', content⟩ := c
  cases type <;> exact Function.update_of_ne (Ne.symm h) _ _

theorem listed_change_of_ne {key : Option String} (h : some c.id ≠ key) :
    listed Song.id key (change decode songs c) = listed Song.id key songs := by
  unfold change
  split
  · rfl
  · next song hdata =>
    have hkey : song.id ≠ key := id_of_data hdata ▸ h
    split
    · simp [listed_append, listed_cons, hkey]
    · exact listed_replaceFirst_of_ne hkey
    · exact listed_removeFirst_of_ne hkey

/-- A modification makes the song of its document the expected one exactly when the contents
before and after decode, or neither does. -/
theorem listed_change_modified {old content : Content} (hold : docs id = some old)
    (hlisted : listed Song.id (some id) songs = (expected decode docs (some id)).toList) :
    listed Song.id (some id) (change decode songs ⟨.modified, id, content⟩) =
        (expected decode (docs.change ⟨.modified, id, content⟩) (some id)).toList ↔
      ((data decode id old).isSome ↔ (data decode id content).isSome) := by
  have hlisted' : listed Song.id (some id) songs = (data decode id old).toList := by
    simpa [expected, hold] using hlisted
  cases hdata : data decode id content with
  | none =>
      have hafter : change decode songs ⟨.modified, id, content⟩ = songs := by
        simp [change, hdata]
      rw [hafter, hlisted']
      cases data decode id old <;> simp [Collection.change, expected, hdata]
  | some song =>
      have hafter : change decode songs ⟨.modified, id, content⟩ =
          replaceFirst Song.id song songs := by
        simp [change, hdata]
      have hself := listed_replaceFirst_self Song.id song songs
      rw [id_of_data hdata] at hself
      rw [hafter, hself, hlisted']
      cases data decode id old <;> simp [Collection.change, expected, hdata]

/-- A change the collection allows makes the song of its document the expected one exactly
when it is steady. -/
theorem listed_change_self (hallows : docs.Allows c)
    (hlisted : listed Song.id (some c.id) songs = (expected decode docs (some c.id)).toList) :
    listed Song.id (some c.id) (change decode songs c) =
        (expected decode (docs.change c) (some c.id)).toList ↔
      Steady decode docs c := by
  obtain ⟨type, id, content⟩ := c
  have hkey : ∀ song, data decode id content = some song → song.id = some id :=
    fun _ => id_of_data
  cases type with
  | added =>
      have hnone : docs id = none := hallows
      refine iff_of_true ?_ fun hmodified => by cases hmodified
      have hnil : listed Song.id (some id) songs = [] := by simpa [expected, hnone] using hlisted
      cases hdata : data decode id content with
      | none => simp [change, Collection.change, expected, hdata, hnil]
      | some song =>
          simp [change, Collection.change, expected, hdata, listed_append, hnil, listed_cons,
            hkey song hdata]
  | modified =>
      obtain ⟨old, hold⟩ := Option.isSome_iff_exists.mp hallows
      have hsteady : Steady decode docs ⟨.modified, id, content⟩ ↔
          ((data decode id old).isSome ↔ (data decode id content).isSome) := by
        simp [Steady, hold, isSome_data]
      rw [hsteady]
      exact listed_change_modified hold hlisted
  | removed =>
      have hold : docs id = some content := hallows
      refine iff_of_true ?_ fun hmodified => by cases hmodified
      have hlisted' : listed Song.id (some id) songs = (data decode id content).toList := by
        simpa [expected, hold] using hlisted
      cases hdata : data decode id content with
      | none =>
          simpa [change, Collection.change, expected, hdata] using hlisted'
      | some song =>
          simp [change, Collection.change, expected, hdata, hkey song hdata,
            listed_removeFirst_self, hlisted']

theorem expected_change_of_ne {key : Option String} (h : some c.id ≠ key) :
    expected decode (docs.change c) key = expected decode docs key := by
  cases key with
  | none => rfl
  | some id =>
      have hne : c.id ≠ id := fun heq => h (congrArg some heq)
      simp [expected, docs_change_of_ne hne]

theorem Lists.change (h : Lists decode docs songs) (hallows : docs.Allows c)
    (hsteady : Steady decode docs c) :
    Lists decode (docs.change c) (Songs.change decode songs c) := by
  intro key
  by_cases hkey : some c.id = key
  · rw [← hkey]
    exact (listed_change_self hallows (h _)).mpr hsteady
  · rw [listed_change_of_ne hkey, expected_change_of_ne hkey]
    exact h key

/-! ## a batch -/

/-- Steady changes keep the list right. -/
theorem Lists.changes (h : Lists decode docs songs) (hallows : Along Collection.Allows docs batch)
    (hsteady : Along (Steady decode) docs batch) :
    Lists decode (batch.foldl Collection.change docs)
      (batch.foldl (Songs.change decode) songs) := by
  induction batch generalizing docs songs with
  | nil => exact h
  | cons c batch ih => exact ih (h.change hallows.1 hsteady.1) hallows.2 hsteady.2

/-- Changes of other documents do not touch the song of this one. -/
theorem listed_batch_of_notMem (docs : Collection Content) (songs : List Song)
    (h : id ∉ batch.map DocumentChange.id) :
    listed Song.id (some id) (batch.foldl (Songs.change decode) songs) =
        listed Song.id (some id) songs ∧
      expected decode (batch.foldl Collection.change docs) (some id) =
        expected decode docs (some id) := by
  induction batch generalizing docs songs with
  | nil => exact ⟨rfl, rfl⟩
  | cons c batch ih =>
      rw [List.map_cons, List.mem_cons, not_or] at h
      have hne : some c.id ≠ some id := fun heq => h.1 (Option.some.inj heq).symm
      obtain ⟨hlisted, hexpected⟩ := ih (docs.change c) (Songs.change decode songs c) h.2
      exact ⟨hlisted.trans (listed_change_of_ne hne), hexpected.trans (expected_change_of_ne hne)⟩

/-- A batch that has one change for a document and leaves the list right is steady. -/
theorem Lists.steady (h : Lists decode docs songs) (hallows : Along Collection.Allows docs batch)
    (hone : (batch.map DocumentChange.id).Nodup)
    (hafter : Lists decode (batch.foldl Collection.change docs)
      (batch.foldl (Songs.change decode) songs)) : Along (Steady decode) docs batch := by
  induction batch generalizing docs songs with
  | nil => trivial
  | cons c batch ih =>
      rw [List.map_cons, List.nodup_cons] at hone
      have hsteady : Steady decode docs c := by
        refine (listed_change_self hallows.1 (h _)).mp ?_
        obtain ⟨hlisted, hexpected⟩ :=
          listed_batch_of_notMem (docs.change c) (Songs.change decode songs c) hone.1
        rw [← hlisted, ← hexpected]
        exact hafter _
      exact ⟨hsteady, ih (h.change hallows.1 hsteady) hallows.2 hone.2 hafter⟩

/-! ## every run -/

/-- **The song list**: where no modification changes whether its document decodes, the list
mirrors the collection after every batch; and a batch with one change for a document takes
a list that mirrors the collection to one that does not as soon as a modification does. -/
theorem songs_mirror_collection (decode : Content → Option Song) :
    (∀ s, ((listening decode).only (SteadyBatch decode)).Reach s → Mirrors decode s) ∧
      ∀ s batch s', Mirrors decode s → (listening decode).step s batch s' →
        (batch.map DocumentChange.id).Nodup →
        (Mirrors decode s' ↔ SteadyBatch decode s batch s') := by
  constructor
  · intro s h
    refine h.invariant (fun s hs => ?_) fun s batch s' _ ih hstep => ?_
    · rw [mirrors_iff, hs.1, hs.2]
      intro key
      cases key <;> rfl
    · obtain ⟨⟨hallows, hdocs, hsongs⟩, hsteady⟩ := hstep
      rw [mirrors_iff] at ih ⊢
      rw [hdocs, hsongs]
      exact ih.changes hallows hsteady
  · rintro s batch s' h ⟨hallows, hdocs, hsongs⟩ hone
    rw [mirrors_iff] at h ⊢
    rw [hdocs, hsongs]
    exact ⟨fun hafter => h.steady hallows hone hafter, fun hsteady => h.changes hallows hsteady⟩

/-- A song added and modified. -/
theorem songs_mirror_collection_modified :
    let song' : Song := ⟨none, "A", "B", 4⟩
    ∃ s, (listening some).Reach s ∧ s.songs = [{ song' with id := some "1" }] ∧
      Mirrors some s := by
  intro song'
  let song : Song := ⟨none, "A", "B", 5⟩
  let added : DocumentChange Song := ⟨.added, "1", song⟩
  let modified : DocumentChange Song := ⟨.modified, "1", song'⟩
  let empty : State Song := ⟨fun _ => none, []⟩
  let s : State Song :=
    ⟨[added, modified].foldl Collection.change empty.docs, [{ song' with id := some "1" }]⟩
  have hempty : ((listening some).only (SteadyBatch some)).Reach empty := .init ⟨rfl, rfl⟩
  have hsteady : SteadyBatch some empty [added, modified] s :=
    ⟨fun h => (by cases h), fun _ content _ => (by simp), trivial⟩
  have hs : ((listening some).only (SteadyBatch some)).Reach s :=
    hempty.step (e := [added, modified]) ⟨⟨⟨rfl, rfl, trivial⟩, rfl, rfl⟩, hsteady⟩
  exact ⟨s, hs.of_only, rfl, (songs_mirror_collection some).1 s hs⟩

/-- A document added undecodable and modified: it decodes, and is not listed. -/
theorem songs_mirror_collection_missed :
    let song : Song := ⟨none, "A", "B", 5⟩
    let decode := fun content : Option Song => content
    ∃ s, (listening decode).Reach s ∧ s.docs "1" = some (some song) ∧ s.songs = [] ∧
      ¬ Mirrors decode s := by
  intro song decode
  let added : DocumentChange (Option Song) := ⟨.added, "1", none⟩
  let modified : DocumentChange (Option Song) := ⟨.modified, "1", some song⟩
  let empty : State (Option Song) := ⟨fun _ => none, []⟩
  let one : State (Option Song) := ⟨empty.docs.change added, []⟩
  let two : State (Option Song) := ⟨one.docs.change modified, []⟩
  have hempty : (listening decode).Reach empty := .init ⟨rfl, rfl⟩
  have hone : (listening decode).Reach one := hempty.step (e := [added]) ⟨⟨rfl, trivial⟩, rfl, rfl⟩
  have htwo : (listening decode).Reach two := hone.step (e := [modified]) ⟨⟨rfl, trivial⟩, rfl, rfl⟩
  refine ⟨two, htwo, rfl, rfl, fun h => ?_⟩
  have hlisted : _ ∈ [] := (h.2 { song with id := some "1" }).mpr ⟨"1", some song, rfl, rfl⟩
  cases hlisted

end Songs

end IosGame
