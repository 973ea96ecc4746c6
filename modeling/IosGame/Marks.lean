import Mathlib.Data.List.Perm.Basic

/-!
# IosGame.Marks

A list of things and a list of marks, place by place: what is not marked yet.

Marking one more place takes the thing there out of the rest (`perm_unmarked_set`), so two
such lists that lose equal things at every step have the same rest if they began with it.
-/

namespace IosGame

variable {α : Type} {xs : List α} {marks : List Bool} {x : α}

/-- The things at the places without a mark. -/
def unmarked : List α → List Bool → List α
  | x :: xs, mark :: marks => if mark then unmarked xs marks else x :: unmarked xs marks
  | _, _ => []

theorem unmarked_replicate (xs : List α) : unmarked xs (.replicate xs.length false) = xs := by
  induction xs with
  | nil => rfl
  | cons x xs ih => simp [unmarked, List.replicate_succ, ih]

/-- **Marking** a place takes the thing there out of the rest. -/
theorem perm_unmarked_set {i : Nat} (hx : xs[i]? = some x) (hmark : marks[i]? = some false) :
    (unmarked xs marks).Perm (x :: unmarked xs (marks.set i true)) := by
  induction xs generalizing marks i with
  | nil => simp at hx
  | cons y xs ih =>
      cases marks with
      | nil => simp at hmark
      | cons mark marks =>
          cases i with
          | zero =>
              obtain rfl : y = x := by simpa using hx
              obtain rfl : mark = false := by simpa using hmark
              simp [unmarked]
          | succ i =>
              have hperm : (unmarked xs marks).Perm (x :: unmarked xs (marks.set i true)) :=
                ih (by simpa using hx) (by simpa using hmark)
              cases mark with
              | true => simpa [unmarked] using hperm
              | false => simpa [unmarked] using (hperm.cons y).trans (List.Perm.swap x y _)

theorem mem_unmarked :
    x ∈ unmarked xs marks ↔ ∃ i : Nat, xs[i]? = some x ∧ marks[i]? = some false := by
  induction xs generalizing marks with
  | nil => simp [unmarked]
  | cons y xs ih =>
      cases marks with
      | nil => simp [unmarked]
      | cons mark marks =>
          have hsplit : (∃ i : Nat, (y :: xs)[i]? = some x ∧ (mark :: marks)[i]? = some false) ↔
              (y = x ∧ mark = false) ∨ ∃ i : Nat, xs[i]? = some x ∧ marks[i]? = some false := by
            constructor
            · rintro ⟨_ | i, hx, hmark⟩
              · exact .inl ⟨by simpa using hx, by simpa using hmark⟩
              · exact .inr ⟨i, by simpa using hx, by simpa using hmark⟩
            · rintro (⟨rfl, rfl⟩ | ⟨i, hx, hmark⟩)
              · exact ⟨0, by simp⟩
              · exact ⟨i + 1, by simpa using hx, by simpa using hmark⟩
          rw [hsplit, ← ih]
          cases mark with
          | true => simp [unmarked]
          | false => simp [unmarked, eq_comm]

/-- Nothing is left when all places are marked. -/
theorem unmarked_eq_nil (h : marks.length = xs.length) :
    unmarked xs marks = [] ↔ marks.all id = true := by
  induction xs generalizing marks with
  | nil =>
      obtain rfl : marks = [] := List.length_eq_zero_iff.mp h
      simp [unmarked]
  | cons x xs ih =>
      cases marks with
      | nil => simp at h
      | cons mark marks =>
          have hih : unmarked xs marks = [] ↔ marks.all id = true := ih (by simpa using h)
          cases mark with
          | true => simpa [unmarked] using hih
          | false => simp [unmarked]

theorem count_unmarked [DecidableEq α] (x : α) (xs : List α) (marks : List Bool) :
    (unmarked xs marks).count x = (xs.zip marks).count (x, false) := by
  induction xs generalizing marks with
  | nil => simp [unmarked]
  | cons y xs ih =>
      cases marks with
      | nil => simp [unmarked]
      | cons mark marks =>
          cases mark with
          | true => simp [unmarked, ih]
          | false => simp [unmarked, List.count_cons, ih]

end IosGame
