import IosGame.Poker.Chosen
import IosGame.Poker.Deal

/-!
# IosGame.Poker.Dealing

What `assignPoker` promises on a shuffled deck: the hands share the deck out, each in
strictly descending order, and the opener is the one seat with the club 3
(`assignPoker_fair`).
-/

namespace IosGame

/-! ## sorted hands -/

/-- A card before another in a hand: of a higher rank, or of the same rank and a higher
suit. -/
def Poker.Above (a b : Poker) : Prop := b.num < a.num ∨ b.num = a.num ∧ b.suitnum < a.suitnum

/-- `sorted(by: >)` puts no card before a higher one. -/
theorem pairwise_gt (cards : List Poker) :
    (sortedBy Poker.gt cards).Pairwise fun a b => b.gt a = false := by
  refine pairwise_sortedBy ?_ ?_ cards
  · intro a b h
    simp only [Poker.gt, beq_iff_eq] at h ⊢
    split_ifs at h ⊢ <;> simp at h ⊢ <;> omega
  · intro a b c hab hbc
    simp only [Poker.gt, beq_iff_eq] at hab hbc ⊢
    split_ifs at hab hbc ⊢ <;> simp at hab hbc ⊢ <;> omega

/-- A card with no higher one behind it is above the others that are not the same. -/
theorem Poker.above_of_gt {a b : Poker} (h : b.gt a = false) (hne : a.same b = false) :
    a.Above b := by
  simp only [Poker.same, Bool.and_eq_false_iff, beq_eq_false_iff_ne] at hne
  simp only [Poker.gt, beq_iff_eq] at h
  unfold Poker.Above
  split_ifs at h <;> simp at h <;> omega

/-- Different cards of a deck are in strictly descending order once they are sorted. -/
theorem pairwise_above {cards : List Poker} (hproper : Proper cards) (hnodup : cards.Nodup) :
    (sortedBy Poker.gt cards).Pairwise Poker.Above := by
  have hnodup' : (sortedBy Poker.gt cards).Nodup := (perm_sortedBy _ _).nodup_iff.mpr hnodup
  refine ((pairwise_gt cards).and hnodup').imp_of_mem fun {a b} ha hb hab => ?_
  refine Poker.above_of_gt hab.1 ?_
  by_contra hsame
  rw [Bool.not_eq_false] at hsame
  exact hab.2 (hproper a (mem_sortedBy.mp ha) b (mem_sortedBy.mp hb) hsame)

/-! ## the seats -/

/-- A card is dealt to one seat. -/
theorem dealt_inj {deck : List Poker} (hnodup : deck.Nodup) {card : Poker} {p q : Seat}
    (hp : card ∈ dealt deck p) (hq : card ∈ dealt deck q) : p = q := by
  have hindex (s : Seat) (h : card ∈ dealt deck s) :
      ∃ i, deck[i]? = some card ∧ 13 * s.val ≤ i ∧ i < 13 * s.val + 13 := by
    obtain ⟨i, hi⟩ := List.mem_iff_getElem?.mp h
    rw [dealt, List.getElem?_take] at hi
    split at hi
    · rw [List.getElem?_drop] at hi
      exact ⟨_, hi, by omega, by omega⟩
    · cases hi
  obtain ⟨i, hi, hi0, hi1⟩ := hindex p hp
  obtain ⟨j, hj, hj0, hj1⟩ := hindex q hq
  have hlt : i < deck.length := (List.getElem?_eq_some_iff.mp hi).1
  have heq : i = j := (List.getElem?_inj hlt hnodup).mp (hi.trans hj.symm)
  exact Fin.ext (by omega)

/-- Only the opener is dealt the club 3. -/
theorem eq_openerOf {deck : List Poker} (hdeck : deck.Perm generatePokers) {card : Poker}
    {p : Seat} (hclub : card.isClubThree = true) (hp : card ∈ dealt deck p) :
    p = openerOf deck := by
  obtain ⟨card', hcard', hclub'⟩ := clubThree_opener hdeck
  have hsame : card.same card' = true := by
    simp only [Poker.isClubThree, Bool.and_eq_true, beq_iff_eq] at hclub hclub'
    simp [Poker.same, hclub, hclub']
  have heq : card = card' :=
    (proper_generatePokers.perm hdeck) card (dealt_subset deck p hp) card'
      (dealt_subset deck _ hcard') hsame
  exact dealt_inj (hdeck.nodup_iff.mpr nodup_generatePokers) hp (heq ▸ hcard')

/-- The four hands are the deck, dealt from the front. -/
theorem flatMap_dealt {deck : List Poker} (h : deck.length = 52) :
    (List.finRange 4).flatMap (dealt deck) = deck := by
  have hall := dealt_append h
  rw [← List.append_nil (dealt deck 3)] at hall
  exact hall

/-- What a deal of the deck is to be: thirteen cards to a hand, each hand in strictly
descending order, all the cards dealt out, and the club 3 in the opener's hand alone. -/
structure FairDeal (deck : List Poker) (players : Seat → Player) (opener : Seat) : Prop where
  length : ∀ p, (players p).cards.length = 13
  sorted : ∀ p, (players p).cards.Pairwise Poker.Above
  perm : ((List.finRange 4).flatMap fun p => (players p).cards).Perm deck
  clubThree : ∀ p, (∃ card ∈ (players p).cards, card.suitnum = 0 ∧ card.num = 0) ↔ p = opener

/-- **The deal is fair** for every order of the deck. -/
theorem assignPoker_fair {deck : List Poker} (hdeck : deck.Perm generatePokers) :
    ∃ players opener, assignPoker deck = .ok (players, opener) ∧
      FairDeal deck players opener := by
  have hlen : deck.length = 52 := hdeck.length_eq
  have hclub : ∀ card : Poker, card.isClubThree = true ↔ card.suitnum = 0 ∧ card.num = 0 :=
    fun card => by simp [Poker.isClubThree, and_comm]
  refine ⟨_, _, assignPoker_eq hlen, ?_, ?_, ?_, ?_⟩
  · intro p
    rw [length_sortedBy, length_dealt hlen]
  · intro p
    have hsub : (dealt deck p).Sublist deck :=
      (List.take_sublist _ _).trans (List.drop_sublist _ _)
    exact pairwise_above ((proper_generatePokers.perm hdeck).subset hsub.subset)
      ((hdeck.nodup_iff.mpr nodup_generatePokers).sublist hsub)
  · refine List.Perm.trans ?_ (.of_eq (flatMap_dealt hlen))
    exact List.Perm.flatMap_left _ fun p _ => perm_sortedBy _ _
  · intro p
    simp only [mem_sortedBy, ← hclub]
    constructor
    · rintro ⟨card, hcard, hthree⟩
      exact eq_openerOf hdeck hthree hcard
    · rintro rfl
      exact clubThree_opener hdeck

theorem assignPoker_fair_unshuffled :
    ∃ players opener, assignPoker generatePokers = .ok (players, opener) ∧
      FairDeal generatePokers players opener :=
  assignPoker_fair (List.Perm.refl _)

end IosGame
