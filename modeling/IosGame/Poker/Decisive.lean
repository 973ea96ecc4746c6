import IosGame.Poker.Order
import IosGame.Poker.Recognition

/-!
# IosGame.Poker.Decisive

Comparing two combinations of one kind.  On combinations of the right sizes the
acceptance test completes as soon as their keys differ (`paied_returns`), and card-disjoint
combinations have the same key only if they are flushes of the same five ranks
(`key_eq_iff`): the loop over two such flushes runs to the end, and the suits are then
read behind the last card.
-/

namespace IosGame

/-! ## the test completes -/

section Returns

variable {a b : PokerClass}

theorem lastPaied_returns {xs ys : List Poker} (hx : xs ≠ []) (hy : ys ≠ []) :
    ∃ r, lastPaied xs ys = .ok r := by
  simp only [lastPaied, lastOf, List.getLast?_eq_some_getLast hx,
    List.getLast?_eq_some_getLast hy, ok_bind, pure_eq_ok]
  exact ⟨_, rfl⟩

/-- Two flushes of different ranks: the loop stops before the end. -/
theorem tonghuaPaied_returns {xs ys : List Poker} (hlen : xs.length = ys.length)
    (hne : nums xs ≠ nums ys) : ∃ r, tonghuaPaied xs ys = .ok r := by
  obtain ⟨j, hloop, hsame, -⟩ := tonghua_loop hlen
  have hj : j ≠ ys.length := by
    rintro rfl
    exact hne (hsame.nums_eq hlen).symm
  obtain ⟨h0, hle, -⟩ := hsame
  have hx : idx xs j = .ok xs[j.toNat] := idx_eq_ok.mpr ⟨h0, List.getElem?_eq_getElem (by omega)⟩
  have hy : idx ys j = .ok ys[j.toNat] := idx_eq_ok.mpr ⟨h0, List.getElem?_eq_getElem (by omega)⟩
  unfold tonghuaPaied
  rw [hloop, ok_bind, hx, ok_bind, hy, ok_bind, if_neg hj]
  exact ⟨_, rfl⟩

/-- Combinations of one kind above 2 with different keys. -/
theorem sameClassingPaied_returns (ha : Shaped a) (hb : Shaped b) (hab : a.classing = b.classing)
    (hne : a.key ≠ b.key) : ∃ r, sameClassingPaied a b (sortedBy Poker.lt a.cards)
      (sortedBy Poker.lt b.cards) = .ok r := by
  have hla := length_sortedBy Poker.lt a.cards
  have hlb := length_sortedBy Poker.lt b.cards
  have hflush : b.classing = 4 → nums (sortedBy Poker.lt a.cards) ≠
      nums (sortedBy Poker.lt b.cards) := by
    intro h4 heq
    refine hne ?_
    unfold PokerClass.key
    simp [hab, h4, heq]
  unfold sameClassingPaied
  rw [shaped_iff] at ha hb
  generalize sortedBy Poker.lt a.cards = xs at hla hflush ⊢
  generalize sortedBy Poker.lt b.cards = ys at hlb hflush ⊢
  split_ifs with h73 hlt heq h6 h5 h4
  · exact ⟨true, rfl⟩
  · have hx : idx xs 0 = .ok xs[0] := idx_eq_ok.mpr ⟨by omega, List.getElem?_eq_getElem (by omega)⟩
    have hy : idx ys 0 = .ok ys[0] := idx_eq_ok.mpr ⟨by omega, List.getElem?_eq_getElem (by omega)⟩
    rw [hx, hy]
    exact ⟨_, rfl⟩
  · exact ⟨false, rfl⟩
  · exact lastPaied_returns (List.ne_nil_of_length_pos (by omega))
      (List.ne_nil_of_length_pos (by omega))
  · rw [huluKey_eq (by omega) (.inl rfl) (List.getElem?_eq_getElem (by omega)),
      huluKey_eq (by omega) (.inr rfl) (List.getElem?_eq_getElem (by omega))]
    exact ⟨_, rfl⟩
  · exact tonghuaPaied_returns (by omega) (hflush h4)
  · exact ⟨false, rfl⟩

/-- **The test completes** on combinations of one kind with different keys. -/
theorem paied_returns (ha : Shaped a) (hb : Shaped b) (hab : a.classing = b.classing)
    (hne : a.key ≠ b.key) : ∃ r, paied a b = .ok r := by
  unfold paied
  by_cases h2 : 2 < b.classing
  · rw [if_pos h2, if_neg (by omega), if_pos hab]
    exact sameClassingPaied_returns ha hb hab hne
  · rw [if_neg h2, if_pos hab]
    have hla := length_sortedBy Poker.lt a.cards
    have hlb := length_sortedBy Poker.lt b.cards
    rw [shaped_iff] at ha hb
    exact lastPaied_returns (List.ne_nil_of_length_pos (by omega))
      (List.ne_nil_of_length_pos (by omega))

/-- The test completes in both directions, and exactly one of two combinations is
accepted on the other. -/
def Decisive (a b : PokerClass) : Prop :=
  ∃ r r', paied a b = .ok r ∧ paied b a = .ok r' ∧ r ≠ r'

/-- Combinations of one kind are told apart by their keys. -/
theorem decisive_iff_key (ha : Shaped a) (hb : Shaped b) (hab : a.classing = b.classing) :
    Decisive a b ↔ a.key ≠ b.key := by
  have hdecided : Beats a b ∨ Beats b a ↔ a.key ≠ b.key := Outranks.decided_iff hab
  rw [← hdecided, ← paied_iff ha hb, ← paied_iff hb ha]
  constructor
  · rintro ⟨r, r', hr, hr', hne⟩
    cases r with
    | true => exact .inl hr
    | false =>
        obtain rfl : r' = true := by simpa using Ne.symm hne
        exact .inr hr'
  · intro hbeats
    have hne : a.key ≠ b.key := by
      rw [← hdecided]
      exact hbeats.imp (paied_iff ha hb).mp (paied_iff hb ha).mp
    obtain ⟨r, hr⟩ := paied_returns ha hb hab hne
    obtain ⟨r', hr'⟩ := paied_returns hb ha hab.symm hne.symm
    refine ⟨r, r', hr, hr', ?_⟩
    rintro rfl
    have hboth : r = true := by
      rw [hr, hr', Except.ok.injEq] at hbeats
      simpa using hbeats
    rw [hboth] at hr hr'
    exact ((paied_iff ha hb).mp hr).asymm ((paied_iff hb ha).mp hr')

end Returns

/-! ## the keys of card-disjoint combinations -/

/-- `sorted(by: <)` puts no card before a lower one. -/
theorem pairwise_lt (cards : List Poker) :
    (sortedBy Poker.lt cards).Pairwise fun a b => b.lt a = false := by
  refine pairwise_sortedBy ?_ ?_ cards
  · intro a b h
    simp only [Poker.lt, beq_iff_eq] at h ⊢
    split_ifs at h ⊢ <;> simp at h ⊢ <;> omega
  · intro a b c hab hbc
    simp only [Poker.lt, beq_iff_eq] at hab hbc ⊢
    split_ifs at hab hbc ⊢ <;> simp at hab hbc ⊢ <;> omega

theorem Poker.lt_eq_false {a b : Poker} (h : b.lt a = false) :
    a.num < b.num ∨ a.num = b.num ∧ a.suitnum ≤ b.suitnum := by
  simp only [Poker.lt, beq_iff_eq] at h
  split_ifs at h <;> simp at h <;> omega

theorem pairwise_num_le (cards : List Poker) :
    (sortedBy Poker.lt cards).Pairwise fun a b => a.num ≤ b.num :=
  (pairwise_lt cards).imp fun h => by
    have := Poker.lt_eq_false h
    omega

/-- Sorted, the ranks depend on nothing but which there are. -/
theorem num_sorted_eq_iff {xs ys : List Poker} :
    (sortedBy Poker.lt xs).map Poker.num = (sortedBy Poker.lt ys).map Poker.num ↔
      (xs.map Poker.num).Perm (ys.map Poker.num) := by
  have hx := (perm_sortedBy Poker.lt xs).map Poker.num
  have hy := (perm_sortedBy Poker.lt ys).map Poker.num
  constructor
  · intro heq
    exact hx.symm.trans (heq ▸ hy)
  · intro hperm
    have hsorted : ∀ cards : List Poker,
        ((sortedBy Poker.lt cards).map Poker.num).Pairwise fun v w => v ≤ w :=
      fun cards => List.pairwise_map.mpr (pairwise_num_le cards)
    exact (hx.trans (hperm.trans hy.symm)).eq_of_pairwise
      (fun v w _ _ hvw hwv => le_antisymm hvw hwv) (hsorted xs) (hsorted ys)

theorem nums_eq_iff {xs ys : List Poker} :
    nums xs = nums ys ↔ xs.map Poker.num = ys.map Poker.num := by
  have hmap : ∀ cards, nums cards = (cards.map Poker.num).map fun v : Nat => (v : Int) := by
    simp [nums]
  rw [hmap, hmap]
  exact (List.map_injective_iff.mpr Int.ofNat_injective).eq_iff

/-- Cards with the same key compare equal. -/
theorem same_of_cardKey {x y : Poker} (h : cardKey (some x) = cardKey (some y)) :
    x.same y = true := by
  simp only [cardKey, List.cons.injEq, Int.natCast_inj, and_true] at h
  simp [Poker.same, h]

/-- The kinds of a row have its level. -/
theorem Valid.row_level {c : PokerClass} (h : Valid c) (h73 : c.classing = 7 ∨ c.classing = 3) :
    ∃ k : Nat, RowOf k c.cards ∧ c.level = 10 - k := by
  cases h with
  | straightFlush _ _ row level => exact ⟨_, row, level⟩
  | straight _ row level => exact ⟨_, row, level⟩
  | four h => have := h.classing; omega
  | fullHouse classing => omega
  | flush classing => omega
  | triple h => have := h.classing; omega
  | pair h => have := h.classing; omega
  | single h => have := h.classing; omega

/-- The other kinds have no level. -/
theorem Valid.level_zero {c : PokerClass} (h : Valid c)
    (h73 : ¬ (c.classing = 7 ∨ c.classing = 3)) : c.level = 0 := by
  cases h with
  | straightFlush classing => exact absurd (.inl classing) h73
  | straight classing => exact absurd (.inr classing) h73
  | four h => exact h.level
  | fullHouse _ _ level => exact level
  | flush _ _ _ level => exact level
  | triple h => exact h.level
  | pair h => exact h.level
  | single h => exact h.level

/-- A combination that is what its kind says has the cards the kind calls for. -/
theorem Valid.shaped {c : PokerClass} (h : Valid c) : Shaped c := by
  unfold Shaped
  cases h with
  | straightFlush classing _ row _ => simp [classing, row.length]
  | four h => simp [h.classing, h.length]
  | fullHouse classing cards _ => simp [classing, cards.length]
  | flush classing five _ _ => simp [classing, five]
  | straight classing row _ => simp [classing, row.length]
  | triple h => simp [h.classing, h.length]
  | pair h => simp [h.classing, h.length]
  | single h => simp [h.classing, h.length]

section Keys

variable {a b : PokerClass}

theorem not_same_of_disjoint {xs ys : List Poker} (h : DeckCards (xs ++ ys)) {x y : Poker}
    (hx : x ∈ xs) (hy : y ∈ ys) : x.same y ≠ true := by
  intro hsame
  have heq : x = y :=
    h.proper x (List.mem_append_left _ hx) y (List.mem_append_right _ hy) hsame
  exact (List.nodup_append.mp h.nodup).2.2 x hx y hy heq

/-- Outside straights and flushes the key is that of one card. -/
theorem exists_keyCard (hs : Shaped a) (h73 : ¬ (a.classing = 7 ∨ a.classing = 3))
    (h4 : a.classing ≠ 4) : ∃ x ∈ a.cards, a.key = cardKey (some x) := by
  have hlen := length_sortedBy Poker.lt a.cards
  rw [shaped_iff] at hs
  have hmem : ∀ x, x ∈ sortedBy Poker.lt a.cards ↔ x ∈ a.cards := fun _ => mem_sortedBy
  simp only [PokerClass.key, if_neg h73, if_neg h4, ← hmem]
  clear hmem
  generalize sortedBy Poker.lt a.cards = xs at hlen ⊢
  split_ifs with h5
  · have hx : xs[3]? = some xs[3] := List.getElem?_eq_getElem (by omega)
    exact ⟨_, List.mem_of_getElem? hx, by rw [hx]⟩
  · have hne : xs ≠ [] := List.ne_nil_of_length_pos (by omega)
    exact ⟨xs.getLast hne, List.getLast_mem hne, by rw [List.getLast?_eq_some_getLast hne]⟩

/-- Straights with the same key have a card in common: the level gives the row, the row
the rank of the lowest card, and its suit is the rest of the key. -/
theorem exists_same_of_row (ha : Valid a) (hb : Valid b) (hab : a.classing = b.classing)
    (h73 : a.classing = 7 ∨ a.classing = 3) (hkey : a.key = b.key) :
    ∃ x ∈ a.cards, ∃ y ∈ b.cards, x.same y = true := by
  obtain ⟨k, hrowa, hlevela⟩ := ha.row_level h73
  obtain ⟨k', hrowb, hlevelb⟩ := hb.row_level (hab ▸ h73)
  have hla := length_sortedBy Poker.lt a.cards
  have hlb := length_sortedBy Poker.lt b.cards
  rw [hrowa.length] at hla
  rw [hrowb.length] at hlb
  simp only [PokerClass.key, if_pos h73, if_pos (hab ▸ h73), List.cons.injEq, and_true] at hkey
  obtain ⟨hlevel, hsuit⟩ := hkey
  obtain rfl : k = k' := by omega
  obtain ⟨row, hrow, hnuma⟩ := hrowa.perm
  have hnumb := hrowb.perm_row hrow
  have hnum := num_sorted_eq_iff.mpr (hnuma.trans hnumb.symm)
  cases hxs : sortedBy Poker.lt a.cards with
  | nil => simp [hxs] at hla
  | cons x xs =>
      cases hys : sortedBy Poker.lt b.cards with
      | nil => simp [hys] at hlb
      | cons y ys =>
          have hx : x ∈ a.cards := mem_sortedBy.mp (hxs ▸ List.mem_cons_self)
          have hy : y ∈ b.cards := mem_sortedBy.mp (hys ▸ List.mem_cons_self)
          refine ⟨x, hx, y, hy, ?_⟩
          rw [hxs, hys] at hnum hsuit
          simp only [List.map_cons, List.cons.injEq] at hnum
          simp only [List.getElem?_cons_zero, Option.elim_some, Int.natCast_inj] at hsuit
          simp [Poker.same, hnum.1, hsuit]

/-- **The keys tell card-disjoint combinations of one kind apart**, unless they are
flushes of the same ranks. -/
theorem key_eq_iff (ha : Valid a) (hb : Valid b) (hab : a.classing = b.classing)
    (hdeck : DeckCards (a.cards ++ b.cards)) :
    a.key = b.key ↔ a.classing = 4 ∧ (a.cards.map Poker.num).Perm (b.cards.map Poker.num) := by
  by_cases h4 : a.classing = 4
  · have h4' : b.classing = 4 := hab ▸ h4
    simp only [PokerClass.key, h4, h4']
    simpa using nums_eq_iff.trans num_sorted_eq_iff
  · refine ⟨fun hkey => ?_, fun h => absurd h.1 h4⟩
    exfalso
    by_cases h73 : a.classing = 7 ∨ a.classing = 3
    · obtain ⟨x, hx, y, hy, hsame⟩ := exists_same_of_row ha hb hab h73 hkey
      exact not_same_of_disjoint hdeck hx hy hsame
    · obtain ⟨x, hx, hxkey⟩ := exists_keyCard ha.shaped h73 h4
      obtain ⟨y, hy, hykey⟩ := exists_keyCard hb.shaped (hab ▸ h73) (hab ▸ h4)
      refine not_same_of_disjoint hdeck hx hy (same_of_cardKey ?_)
      rw [← hxkey, ← hykey, hkey]

/-- **Comparison is decisive** on exactly the card-disjoint combinations of one kind that
are not flushes of the same five ranks. -/
theorem decisive_iff (ha : Valid a) (hb : Valid b) (hab : a.classing = b.classing)
    (hdeck : DeckCards (a.cards ++ b.cards)) :
    Decisive a b ↔
      ¬ (a.classing = 4 ∧ (a.cards.map Poker.num).Perm (b.cards.map Poker.num)) := by
  rw [decisive_iff_key ha.shaped hb.shaped hab, ne_eq, key_eq_iff ha hb hab hdeck]

end Keys

/-- A flush of suit `s` with the ranks `vs`. -/
def flushOf (s : Nat) (vs : List Nat) : PokerClass :=
  { cards := vs.map (deckCard s), classing := 4 }

theorem valid_flushOf (s : Nat) {vs : List Nat} (h : vs.length = 5) : Valid (flushOf s vs) := by
  refine .flush rfl (by simpa [flushOf] using h) ?_ rfl
  intro a ha b hb
  obtain ⟨v, -, rfl⟩ := List.mem_map.mp ha
  obtain ⟨w, -, rfl⟩ := List.mem_map.mp hb
  rfl

theorem decisive_flushes : Decisive (flushOf 0 [12, 8, 6, 4, 2]) (flushOf 1 [12, 8, 6, 4, 1]) :=
  (decisive_iff (valid_flushOf 0 rfl) (valid_flushOf 1 rfl) rfl (by decide +kernel)).mpr
    (by decide +kernel)

/-- **A comparison that traps**: two flushes of the same five ranks. -/
theorem same_flushes_trap : Valid (flushOf 3 [12, 8, 6, 4, 2]) ∧
    Valid (flushOf 2 [12, 8, 6, 4, 2]) ∧
    DeckCards ((flushOf 3 [12, 8, 6, 4, 2]).cards ++ (flushOf 2 [12, 8, 6, 4, 2]).cards) ∧
    paied (flushOf 3 [12, 8, 6, 4, 2]) (flushOf 2 [12, 8, 6, 4, 2]) = .error .outOfRange ∧
    ¬ Decisive (flushOf 3 [12, 8, 6, 4, 2]) (flushOf 2 [12, 8, 6, 4, 2]) := by
  have htrap : paied (flushOf 3 [12, 8, 6, 4, 2]) (flushOf 2 [12, 8, 6, 4, 2]) =
      .error .outOfRange := by decide +kernel
  refine ⟨valid_flushOf 3 rfl, valid_flushOf 2 rfl, by decide +kernel, htrap, ?_⟩
  rintro ⟨r, r', hr, -, -⟩
  rw [htrap] at hr
  cases hr

end IosGame
