import Mathlib.Data.List.Nodup

/-!
# IosGame.Keyed

An array whose entries carry keys, edited at the first entry of a key.

An edit changes the entries of its key (`listed`) and no others, so what an array holds can
be followed key by key.  An array whose keys have at most one entry each holds a partial
function of them (`listed_eq_toList`).
-/

namespace IosGame

section Keyed

variable {α κ : Type} [DecidableEq κ] (key : α → κ)

/-- The entries of a key. -/
def listed (k : κ) (l : List α) : List α := l.filter fun x => key x = k

/-- `firstIndex(where:)` of the key. -/
def firstIndex (k : κ) (l : List α) : Option Nat := l.findIdx? fun x => key x = k

/-- Put `x` in the place of the first entry of its key, if there is one. -/
def replaceFirst (x : α) (l : List α) : List α :=
  match firstIndex key (key x) l with
  | some index => l.set index x
  | none => l

/-- Take out the first entry of the key, if there is one. -/
def removeFirst (k : κ) (l : List α) : List α :=
  match firstIndex key k l with
  | some index => l.eraseIdx index
  | none => l

variable {key} {k : κ} {x y : α} {l : List α}

theorem mem_listed : x ∈ listed key k l ↔ x ∈ l ∧ key x = k := by
  simp [listed]

@[simp] theorem listed_nil : listed key k [] = [] := rfl

theorem listed_append (l l' : List α) :
    listed key k (l ++ l') = listed key k l ++ listed key k l' :=
  List.filter_append _ _

theorem listed_cons (k : κ) (y : α) (l : List α) :
    listed key k (y :: l) = if key y = k then y :: listed key k l else listed key k l := by
  by_cases hy : key y = k
  · rw [if_pos hy, listed, List.filter_cons_of_pos (by simpa using hy), listed]
  · rw [if_neg hy, listed, List.filter_cons_of_neg (by simpa using hy), listed]

theorem replaceFirst_cons (x y : α) (l : List α) :
    replaceFirst key x (y :: l) =
      if key y = key x then x :: l else y :: replaceFirst key x l := by
  by_cases hy : key y = key x
  · simp [replaceFirst, firstIndex, List.findIdx?_cons, hy]
  · cases hindex : l.findIdx? fun z => decide (key z = key x) with
    | none => simp [replaceFirst, firstIndex, List.findIdx?_cons, hy, hindex]
    | some index => simp [replaceFirst, firstIndex, List.findIdx?_cons, hy, hindex]

theorem removeFirst_cons (k : κ) (y : α) (l : List α) :
    removeFirst key k (y :: l) = if key y = k then l else y :: removeFirst key k l := by
  by_cases hy : key y = k
  · simp [removeFirst, firstIndex, List.findIdx?_cons, hy]
  · cases hindex : l.findIdx? fun z => decide (key z = k) with
    | none => simp [removeFirst, firstIndex, List.findIdx?_cons, hy, hindex]
    | some index => simp [removeFirst, firstIndex, List.findIdx?_cons, hy, hindex]

/-- Replacing changes the first entry of the key. -/
theorem listed_replaceFirst_self (key : α → κ) (x : α) (l : List α) :
    listed key (key x) (replaceFirst key x l) =
      if listed key (key x) l = [] then [] else x :: (listed key (key x) l).tail := by
  induction l with
  | nil => simp [replaceFirst, firstIndex]
  | cons y l ih =>
      rw [replaceFirst_cons]
      by_cases hy : key y = key x
      · simp [listed_cons, hy]
      · simp only [listed_cons, hy, ↓reduceIte, ih]

theorem listed_replaceFirst_of_ne (h : key x ≠ k) :
    listed key k (replaceFirst key x l) = listed key k l := by
  induction l with
  | nil => simp [replaceFirst, firstIndex]
  | cons y l ih =>
      rw [replaceFirst_cons]
      by_cases hy : key y = key x
      · simp [listed_cons, hy, h]
      · simp only [listed_cons, hy, ↓reduceIte, ih]

/-- Removing takes out the first entry of the key. -/
theorem listed_removeFirst_self (k : κ) (l : List α) :
    listed key k (removeFirst key k l) = (listed key k l).tail := by
  induction l with
  | nil => simp [removeFirst, firstIndex]
  | cons y l ih =>
      rw [removeFirst_cons]
      by_cases hy : key y = k
      · simp [listed_cons, hy]
      · simp only [listed_cons, hy, ↓reduceIte, ih]

theorem listed_removeFirst_of_ne {k' : κ} (h : k ≠ k') :
    listed key k' (removeFirst key k l) = listed key k' l := by
  induction l with
  | nil => simp [removeFirst, firstIndex]
  | cons y l ih =>
      rw [removeFirst_cons]
      by_cases hy : key y = k
      · simp [listed_cons, hy, h]
      · simp only [listed_cons, hy, ↓reduceIte, ih]

/-- **One entry a key**: the array holds exactly what `m` gives for each key, each once. -/
theorem listed_eq_toList {m : κ → Option α} (hm : ∀ k x, m k = some x → key x = k) :
    (∀ k, listed key k l = (m k).toList) ↔
      (l.map key).Nodup ∧ ∀ x, x ∈ l ↔ m (key x) = some x := by
  constructor
  · intro h
    constructor
    · refine List.nodup_iff_count_le_one.mpr fun k => ?_
      have hcount : (l.map key).count k = (listed key k l).length := by
        rw [List.count, List.countP_map, List.countP_eq_length_filter]
        rfl
      rw [hcount, h]
      cases m k <;> simp
    · intro x
      have hx : x ∈ l ↔ x ∈ listed key (key x) l := by simp [mem_listed]
      rw [hx, h]
      simp
  · rintro ⟨hnodup, hmem⟩ k
    have hlisted : ∀ x, x ∈ listed key k l ↔ m k = some x := by
      intro x
      rw [mem_listed, hmem]
      constructor
      · rintro ⟨hx, rfl⟩
        exact hx
      · intro hx
        exact ⟨(hm k x hx).symm ▸ hx, hm k x hx⟩
    have hsub : (listed key k l).Nodup := (hnodup.of_map _).filter _
    cases hk : m k with
    | none =>
        refine List.eq_nil_iff_forall_not_mem.mpr fun x hx => ?_
        rw [hlisted, hk] at hx
        cases hx
    | some x =>
        refine List.perm_singleton.mp ((List.perm_ext_iff_of_nodup hsub (by simp)).mpr fun y => ?_)
        rw [hlisted, hk, Option.some.injEq, List.mem_singleton, eq_comm]

end Keyed

end IosGame
