import IosGame.Poker.Ranks
import IosGame.Poker.Rows

/-!
# IosGame.Poker.Valid

What the kinds of combination mean: `Valid` says of a `pokerClass` that its cards are
what its `classing` says, with the `level` of its row where the kind has one.
-/

namespace IosGame

/-- All cards are of one suit. -/
def OneSuit (cards : List Poker) : Prop := ∀ a ∈ cards, ∀ b ∈ cards, a.suitnum = b.suitnum

/-- The ranks of the cards, in descending order, are row `k` of `SHUNZI`. -/
def RowOf (k : Nat) (cards : List Poker) : Prop :=
  shunzi[k]? = some ((sortedBy pokerNumCompare cards).map Poker.num)

/-- Three cards of one rank and two of another. -/
def FullHouse (cards : List Poker) : Prop :=
  ∃ v w, v ≠ w ∧ (cards.map Poker.num).Perm (List.replicate 3 v ++ List.replicate 2 w)

instance (cards : List Poker) : Decidable (OneSuit cards) :=
  inferInstanceAs (Decidable (∀ a ∈ cards, ∀ b ∈ cards, a.suitnum = b.suitnum))

instance (k : Nat) (cards : List Poker) : Decidable (RowOf k cards) :=
  inferInstanceAs (Decidable (_ = _))

/-- A combination is what its kind says. -/
inductive Valid : PokerClass → Prop where
  | straightFlush {c : PokerClass} {k : Nat} (classing : c.classing = 7) (suit : OneSuit c.cards)
      (row : RowOf k c.cards) (level : c.level = 10 - k) : Valid c
  | four {c : PokerClass} {v : Nat} (four : OfRank 6 4 v c) : Valid c
  | fullHouse {c : PokerClass} (classing : c.classing = 5) (cards : FullHouse c.cards)
      (level : c.level = 0) : Valid c
  | flush {c : PokerClass} (classing : c.classing = 4) (five : c.cards.length = 5)
      (suit : OneSuit c.cards) (level : c.level = 0) : Valid c
  | straight {c : PokerClass} {k : Nat} (classing : c.classing = 3) (row : RowOf k c.cards)
      (level : c.level = 10 - k) : Valid c
  | triple {c : PokerClass} {v : Nat} (triple : OfRank 2 3 v c) : Valid c
  | pair {c : PokerClass} {v : Nat} (pair : OfRank 1 2 v c) : Valid c
  | single {c : PokerClass} {v : Nat} (single : OfRank 0 1 v c) : Valid c

theorem OneSuit.subset {xs ys : List Poker} (h : OneSuit ys) (hsub : xs ⊆ ys) : OneSuit xs :=
  fun a ha b hb => h a (hsub ha) b (hsub hb)

/-- The cards of a row, in any order. -/
theorem rowOf_of_perm {k : Nat} {row : List Nat} {cards : List Poker}
    (hrow : shunzi[k]? = some row) (h : (cards.map Poker.num).Perm row) : RowOf k cards := by
  unfold RowOf
  rw [num_sortedBy (descending_row (List.mem_of_getElem? hrow)) h, hrow]

namespace RowOf

variable {k : Nat} {row : List Nat} {cards xs ys : List Poker}

theorem perm (h : RowOf k cards) :
    ∃ row, shunzi[k]? = some row ∧ (cards.map Poker.num).Perm row :=
  ⟨_, h, ((perm_sortedBy _ _).map _).symm⟩

/-- The ranks of the cards are those of the row. -/
theorem perm_row (h : RowOf k cards) (hrow : shunzi[k]? = some row) :
    (cards.map Poker.num).Perm row := by
  obtain ⟨row', hrow', hnums⟩ := h.perm
  obtain rfl : row' = row := Option.some.inj (hrow'.symm.trans hrow)
  exact hnums

theorem of_perm (h : RowOf k xs) (hperm : xs.Perm ys) : RowOf k ys := by
  obtain ⟨row, hrow, hnums⟩ := h.perm
  exact rowOf_of_perm hrow ((hperm.map _).symm.trans hnums)

theorem nodup (h : RowOf k cards) : (cards.map Poker.num).Nodup := by
  obtain ⟨row, hrow, hnums⟩ := h.perm
  exact hnums.nodup_iff.mpr (nodup_row (List.mem_of_getElem? hrow))

theorem length (h : RowOf k cards) : cards.length = 5 := by
  obtain ⟨row, hrow, hnums⟩ := h.perm
  have hlen := hnums.length_eq
  rwa [length_row (List.mem_of_getElem? hrow), List.length_map] at hlen

end RowOf

/-! ## three cards of one rank and two of another -/

section FullHouse

variable {cards : List Poker} {v w : Nat}

theorem length_of_fullHouse
    (h : (cards.map Poker.num).Perm (List.replicate 3 v ++ List.replicate 2 w)) :
    cards.length = 5 := by
  have hlen := h.length_eq
  rwa [List.length_map, List.length_append, List.length_replicate, List.length_replicate] at hlen

theorem rankCount_fullHouse
    (h : (cards.map Poker.num).Perm (List.replicate 3 v ++ List.replicate 2 w)) (u : Nat) :
    rankCount u cards = (if v = u then 3 else 0) + if w = u then 2 else 0 := by
  rw [rankCount_eq_count, h.count_eq, List.count_append, List.count_replicate,
    List.count_replicate]
  simp only [beq_iff_eq]

theorem FullHouse.length (h : FullHouse cards) : cards.length = 5 := by
  obtain ⟨v, w, -, hvw⟩ := h
  exact length_of_fullHouse hvw

end FullHouse

end IosGame
