import Mathlib

/-!
# IosGame.Descending

Lists ordered strictly by a relation, as scans of sorted data meet them: a pattern
is a subsequence as soon as its elements are there, a cut is a filter, and the first
element a search finds is before every other it could have found.  Of several patterns,
the first whose elements are all there depends on nothing but which elements there are.
-/

namespace IosGame

section Ordered

variable {α : Type} {R : α → α → Prop}

/-- In a strictly ordered list, an ordered pattern is a subsequence as soon as all its
elements are there. -/
theorem sublist_of_subset [Std.Asymm R] {xs ys : List α} (hx : xs.Pairwise R) (hy : ys.Pairwise R)
    (h : xs ⊆ ys) : xs.Sublist ys := by
  have hirrefl : ∀ a, ¬ R a a := fun a haa => Std.Asymm.asymm a a haa haa
  have hnodup : xs.Nodup := hx.imp fun {a b} hab => by
    rintro rfl
    exact hirrefl a hab
  obtain ⟨zs, hperm, hsub⟩ := List.subperm_of_subset hnodup h
  have heq : zs = xs := hperm.eq_of_pairwise
    (fun a b _ _ hab hba => absurd hba (Std.Asymm.asymm a b hab)) (hy.sublist hsub) hx
  exact heq ▸ hsub

/-- The first element found is before every other element that passes the test. -/
theorem find?_first {p : α → Bool} {xs : List α} {a b : α} (hx : xs.Pairwise R)
    (hfind : xs.find? p = some a) (hb : b ∈ xs) (hpb : p b = true) : a = b ∨ R a b := by
  obtain ⟨-, before, after, rfl, hbefore⟩ := List.find?_eq_some_iff_append.mp hfind
  rw [List.mem_append, List.mem_cons] at hb
  obtain hb | rfl | hb := hb
  · have := hbefore b hb
    simp [hpb] at this
  · exact .inl rfl
  · obtain ⟨-, hx, -⟩ := List.pairwise_append.mp hx
    exact .inr ((List.pairwise_cons.mp hx).1 b hb)

/-- Places in a strictly ordered list follow the order of the elements. -/
theorem place_lt [Std.Asymm R] {xs : List α} {i j : Nat} {a b : α} (hx : xs.Pairwise R)
    (hi : xs[i]? = some a) (hj : xs[j]? = some b) (hab : R a b) : i < j := by
  obtain ⟨hilt, rfl⟩ := List.getElem?_eq_some_iff.mp hi
  obtain ⟨hjlt, rfl⟩ := List.getElem?_eq_some_iff.mp hj
  obtain hlt | heq | hgt := Nat.lt_trichotomy i j
  · exact hlt
  · subst heq
    exact absurd hab (Std.Asymm.asymm _ _ hab)
  · exact absurd hab (Std.Asymm.asymm _ _ (List.pairwise_iff_getElem.mp hx j i hjlt hilt hgt))

/-- An element of a strictly ordered list is at one place only. -/
theorem place_inj [Std.Asymm R] {xs : List α} {i j : Nat} {a : α} (hx : xs.Pairwise R)
    (hi : xs[i]? = some a) (hj : xs[j]? = some a) : i = j := by
  obtain ⟨hilt, hia⟩ := List.getElem?_eq_some_iff.mp hi
  obtain ⟨hjlt, hja⟩ := List.getElem?_eq_some_iff.mp hj
  have hordered := List.pairwise_iff_getElem.mp hx
  obtain hlt | heq | hgt := Nat.lt_trichotomy i j
  · have hR := hordered i j hilt hjlt hlt
    rw [hia, hja] at hR
    exact absurd hR (Std.Asymm.asymm _ _ hR)
  · exact heq
  · have hR := hordered j i hjlt hilt hgt
    rw [hia, hja] at hR
    exact absurd hR (Std.Asymm.asymm _ _ hR)

end Ordered

/-- A list sorted by a key begins with the group of its first element's key. -/
theorem exists_group {α : Type} (key : α → Nat) {x : α} {xs : List α}
    (h : (x :: xs).Pairwise fun a b => key b ≤ key a) :
    ∃ group after, x :: xs = group ++ after ∧ x ∈ group ∧ (∀ a ∈ group, key a = key x) ∧
      ∀ a ∈ after, key a < key x := by
  obtain ⟨hx, hxs⟩ := List.pairwise_cons.mp h
  cases xs with
  | nil => exact ⟨[x], [], rfl, by simp, by simp, by simp⟩
  | cons y ys =>
      by_cases hy : key y = key x
      · obtain ⟨group, after, hsplit, hmem, hgroup, hafter⟩ := exists_group key hxs
        refine ⟨x :: group, after, by rw [hsplit, List.cons_append], List.mem_cons_self, ?_, ?_⟩
        · exact List.forall_mem_cons.mpr ⟨rfl, fun a ha => (hgroup a ha).trans hy⟩
        · exact fun a ha => hy ▸ hafter a ha
      · have hlt : key y < key x := lt_of_le_of_ne (hx y List.mem_cons_self) hy
        refine ⟨[x], y :: ys, rfl, List.mem_singleton_self x, by simp, ?_⟩
        intro a ha
        obtain rfl | ha := List.mem_cons.mp ha
        · exact hlt
        · exact lt_of_le_of_lt ((List.pairwise_cons.mp hxs).1 a ha) hlt

section Held

variable {α : Type} [DecidableEq α] {patterns : List (List α)} {pattern xs ys : List α}

theorem find?_held_eq_none : (patterns.find? fun p => p.all fun x => x ∈ xs) = none ↔
    ∀ p ∈ patterns, ¬ p ⊆ xs := by
  simp only [List.find?_eq_none, List.all_eq_true, decide_eq_true_eq]
  rfl

theorem find?_held (h : (patterns.find? fun p => p.all fun x => x ∈ xs) = some pattern) :
    pattern ∈ patterns ∧ pattern ⊆ xs := by
  have hall := List.find?_some h
  simp only [List.all_eq_true, decide_eq_true_eq] at hall
  exact ⟨List.mem_of_find?_eq_some h, hall⟩

/-- Which pattern is found depends on the elements only. -/
theorem find?_held_congr (h : ∀ x, x ∈ xs ↔ x ∈ ys) :
    (patterns.find? fun p => p.all fun x => x ∈ xs) =
      patterns.find? fun p => p.all fun x => x ∈ ys := by
  simp only [h]

end Held

section Cuts

variable {α : Type} [DecidableEq α] {xs cut rest : List α}

/-- What a cut leaves of a list without repetitions, as a filter. -/
theorem eq_filter_of_cut (hx : xs.Nodup) (hsub : rest.Sublist xs) (hperm : (cut ++ rest).Perm xs) :
    rest = xs.filter fun x => x ∉ cut := by
  have hnodup : (cut ++ rest).Nodup := hperm.nodup_iff.mpr hx
  have hdisjoint := (List.nodup_append.mp hnodup).2.2
  have hmem : ∀ x, x ∈ rest ↔ x ∈ xs ∧ x ∉ cut := by
    intro x
    refine ⟨fun h => ⟨hsub.subset h, fun hc => hdisjoint x hc x h rfl⟩, fun h => ?_⟩
    obtain hc | hr := List.mem_append.mp (hperm.mem_iff.mpr h.1)
    · exact absurd hc h.2
    · exact hr
  have hkept : (rest.filter fun x => x ∉ cut) = rest :=
    List.filter_eq_self.mpr fun x h => by simpa using ((hmem x).mp h).2
  have hsub' : rest.Sublist (xs.filter fun x => x ∉ cut) := by
    have := hsub.filter fun x => decide (x ∉ cut)
    rwa [hkept] at this
  have hsame : rest.Perm (xs.filter fun x => x ∉ cut) :=
    (List.perm_ext_iff_of_nodup (hx.sublist hsub) (hx.filter _)).mpr fun x => by simp [hmem]
  exact hsub'.eq_of_length hsame.length_eq

end Cuts

end IosGame
