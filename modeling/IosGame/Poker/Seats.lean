import IosGame.Poker.Deal

/-!
# IosGame.Poker.Seats

The order of turns round the table.  `wait o p` counts the turns from the one after
`o` to that of `p`: 0 for the seat after `o`, 3 for `o` itself.
-/

namespace IosGame

/-- The turns between that of `o` and the next of `p`. -/
def wait (o p : Seat) : Nat := (p - (o + 1)).val

theorem wait_le (o p : Seat) : wait o p ≤ 3 := by simp only [wait]; omega

theorem wait_next (o : Seat) : wait o (o + 1) = 0 := by revert o; decide

theorem wait_two (o : Seat) : wait o (o + 2) = 1 := by revert o; decide

theorem wait_three (o : Seat) : wait o (o + 3) = 2 := by revert o; decide

theorem wait_self (o : Seat) : wait o o = 3 := by revert o; decide

theorem wait_succ {o p : Seat} (h : wait o p < 3) : wait o (p + 1) = wait o p + 1 := by
  revert o p; decide

theorem wait_inj {o p q : Seat} : wait o p = wait o q ↔ p = q := by revert o p q; decide

theorem wait_lt {o p q : Seat} (hle : wait o p ≤ wait o q) (hne : p ≠ q) :
    wait o p < wait o q := lt_of_le_of_ne hle fun heq => hne (wait_inj.mp heq)

/-- A seat other than `p` is one of the three after it. -/
theorem eq_after {p q : Seat} (h : q ≠ p) : q = p + 1 ∨ q = p + 2 ∨ q = p + 3 := by
  revert p q; decide

theorem lt_next {p q : Seat} (h : q < p + 1) : q < p ∨ q = p := by revert p q; decide

theorem lt_three {p : Seat} (h : p ≠ 3) : p < 3 := by revert p; decide

theorem one_or_two {p : Seat} (h : p ≠ 0) (h' : p ≠ 3) : p = 1 ∨ p = 2 := by
  revert p; decide

/-- The turn comes back to seat 0 from seat 3. -/
theorem next_ne_zero {p : Seat} (h : p ≠ 3) : p + 1 ≠ 0 := by revert p; decide

theorem after_ne (p : Seat) : p + 1 ≠ p ∧ p + 2 ≠ p ∧ p + 3 ≠ p := by revert p; decide

end IosGame
