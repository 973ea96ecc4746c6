import IosGame.Poker.Decisive

/-!
# IosGame.Poker.Parts

What `ClassingPokers` makes of a selection of up to five cards that is no combination as
a whole: it files the cards rank by rank (`parts_exact`).  The acceptance test does not
look at the order in which a combination lists its cards (`paied_congr`).
-/

namespace IosGame

/-! ## the acceptance test and the order of the cards -/

/-- The same combination, its cards listed in any order. -/
structure SameClass (c d : PokerClass) : Prop where
  cards : c.cards.Perm d.cards
  classing : c.classing = d.classing
  level : c.level = d.level

/-- Cards that can be told apart have one order. -/
theorem sorted_eq_of_perm {xs ys : List Poker} (h : Proper ys) (hperm : xs.Perm ys) :
    sortedBy Poker.lt xs = sortedBy Poker.lt ys := by
  have hx := perm_sortedBy Poker.lt xs
  have hy := perm_sortedBy Poker.lt ys
  refine (hx.trans (hperm.trans hy.symm)).eq_of_pairwise (fun a b ha hb hab hba => ?_)
    (pairwise_lt xs) (pairwise_lt ys)
  refine h a (hperm.subset (hx.subset ha)) b (hy.subset hb) ?_
  have hab := Poker.lt_eq_false hab
  have hba := Poker.lt_eq_false hba
  simp only [Poker.same, Bool.and_eq_true, beq_iff_eq]
  omega

/-- The level follows from the cards and the kind. -/
theorem Valid.level_eq {c d : PokerClass} (hc : Valid c) (hd : Valid d)
    (hclassing : c.classing = d.classing) (hperm : c.cards.Perm d.cards) : c.level = d.level := by
  by_cases h73 : c.classing = 7 ∨ c.classing = 3
  · obtain ⟨k, hrow, hlevel⟩ := hc.row_level h73
    obtain ⟨k', hrow', hlevel'⟩ := hd.row_level (hclassing ▸ h73)
    have hsame : shunzi[k]? = shunzi[k']? := (hrow.of_perm hperm).trans hrow'.symm
    have hnodup : shunzi.Nodup := by decide
    obtain ⟨hlt, -⟩ := List.getElem?_eq_some_iff.mp (hrow.of_perm hperm)
    obtain rfl : k = k' := (List.getElem?_inj hlt hnodup).mp hsame
    rw [hlevel, hlevel']
  · rw [hc.level_zero h73, hd.level_zero (hclassing ▸ h73)]

theorem paied_congr {c d : PokerClass} (h : SameClass c d) (hproper : Proper d.cards)
    (desk : PokerClass) : paied c desk = paied d desk := by
  unfold paied sameClassingPaied
  rw [sorted_eq_of_perm hproper h.cards, h.classing, h.level]

/-! ## rank by rank -/

/-- The cards of rank `v` of a selection as a combination: a single card, a pair, a triple
or a four. -/
def rankClass (cards : List Poker) (v : Nat) : PokerClass :=
  { cards := cards.filter (·.num == v)
    classing := if rankCount v cards = 4 then 6 else (rankCount v cards : Int) - 1 }

/-- Kinds that have less than five cards are of one rank. -/
theorem Valid.ofRank {c : PokerClass} (h : Valid c) (hlen : c.cards.length ≠ 5) :
    ∃ n v, OfRank c.classing n v c ∧ n ∈ [1, 2, 3, 4] ∧
      c.classing = if n = 4 then 6 else (n : Int) - 1 := by
  cases h with
  | straightFlush _ _ row _ => exact absurd row.length hlen
  | fullHouse _ cards _ => exact absurd cards.length hlen
  | flush _ five _ _ => exact absurd five hlen
  | straight _ row _ => exact absurd row.length hlen
  | @four v h => exact ⟨4, v, h.classing.symm ▸ h, by decide, h.classing⟩
  | @triple v h => exact ⟨3, v, h.classing.symm ▸ h, by decide, h.classing⟩
  | @pair v h => exact ⟨2, v, h.classing.symm ▸ h, by decide, h.classing⟩
  | @single v h => exact ⟨1, v, h.classing.symm ▸ h, by decide, h.classing⟩

namespace Classified

variable {hand : List Poker} (k : Classified hand)

/-- A selection that is no combination as a whole has no combination of five cards. -/
theorem not_five (h : DeckCards hand) (hout : classingPokers hand = .ok k.out)
    (hfew : hand.length ≤ 5) (hnot : ¬ Whole hand) {c : PokerClass} (hc : c ∈ k.out) :
    c.cards.length ≠ 5 := by
  intro hlen
  obtain ⟨hsingle, -⟩ := covers hout hc (hlen ▸ hfew)
  exact hnot ((single_iff_whole h hfew).mp ⟨c, hsingle ▸ hout⟩)

/-- A combination of one rank has all cards of this rank. -/
theorem rankCount_of_mem (h : DeckCards hand) (hout : classingPokers hand = .ok k.out)
    (hnone : k.straightFlushes = []) {c : PokerClass} (hc : c ∈ k.out) {n v : Nat}
    (hv : OfRank c.classing n v c) (hmem : n ∈ [1, 2, 3, 4])
    (hn : c.classing = if n = 4 then 6 else (n : Int) - 1) : rankCount v hand = n := by
  have hranks := k.ranksExact (perm_classingPokers hout)
  have hle := h.rankCount_le v
  have hkind : c ∈ ofKind c.classing k.out := List.mem_filter.mpr ⟨hc, by simp⟩
  have houtside := k.rankCount_outside hout hnone v
  simp only [List.mem_cons, List.not_mem_nil, or_false] at hmem
  obtain rfl | rfl | rfl | rfl := hmem
  · have hpool := hranks.countPool v
    have hzero : c.classing = 0 := hn
    rw [hzero] at hkind
    obtain ⟨card, hcard⟩ := List.exists_mem_of_length_pos (l := c.cards) (by rw [hv.length]; omega)
    have hpos : 0 < rankCount v (poolOf k.out) := by
      refine rankCount_pos.mpr ⟨card, ?_, hv.num_eq hcard⟩
      rw [poolOf, cardsOf_append]
      exact List.mem_append_right _ (List.mem_flatMap.mpr ⟨c, hkind, hcard⟩)
    rw [houtside] at hpool
    split at hpool <;> omega
  · have hpairs := hranks.countPairs v
    have hone : c.classing = 1 := hn
    rw [hone, k.pairs_eq] at hkind
    have hpos := hv.groupsOf_pos (List.mem_of_mem_drop hkind)
    rw [houtside] at hpairs
    split at hpairs <;> omega
  · have htriples := hranks.countTriples v
    have htwo : c.classing = 2 := hn
    rw [htwo, k.triples_eq] at hkind
    have hpos := hv.groupsOf_pos (List.mem_of_mem_drop hkind)
    rw [houtside] at htriples
    split at htriples <;> omega
  · have hfours := hranks.countFours v
    have hsix : c.classing = 6 := hn
    rw [hsix] at hkind
    have hpos := hv.groupsOf_pos hkind
    rw [houtside] at hfours
    omega

end Classified

/-- **Rank by rank**: a selection of up to five cards that is no combination as a whole is
filed by its ranks. -/
theorem parts_exact {hand : List Poker} (h : DeckCards hand) (hfew : hand.length ≤ 5)
    (hnot : ¬ Whole hand) : ∃ out, classingPokers hand = .ok out ∧
      (∀ c ∈ out, ∃ v ∈ hand.map Poker.num, SameClass c (rankClass hand v)) ∧
      ∀ v ∈ hand.map Poker.num, ∃ c ∈ out, SameClass c (rankClass hand v) := by
  obtain ⟨k, hout⟩ := exists_out_of_few h hfew
  have hperm := perm_classingPokers hout
  have hnone : k.straightFlushes = [] := by
    refine List.eq_nil_iff_forall_not_mem.mpr fun c hc => ?_
    have hkind : c ∈ ofKind 7 k.out := k.straightFlushes_eq ▸ hc
    obtain ⟨hmem, hfive⟩ := five_of_kind hout hkind (by omega) (by omega)
    exact k.not_five h hout hfew hnot hmem hfive
  have hpart : ∀ c ∈ k.out, ∃ v, (∀ card ∈ c.cards, card.num = v) ∧ v ∈ hand.map Poker.num ∧
      SameClass c (rankClass hand v) := by
    intro c hc
    have hvalid := k.valid_out c hc
    obtain ⟨n, v, hv, hn, hclassing⟩ := hvalid.ofRank (k.not_five h hout hfew hnot hc)
    have hcount := k.rankCount_of_mem h hout hnone hc hv hn hclassing
    have hsub : c.cards.Subperm hand := by
      refine List.Subperm.trans ?_ hperm.subperm
      rw [cardsOf, List.flatMap_def]
      exact (List.sublist_flatten_of_mem (List.mem_map_of_mem hc)).subperm
    have hnum : ∀ card ∈ c.cards, card.num = v := fun card hcard => hv.num_eq hcard
    have hcards : c.cards.Perm (hand.filter (·.num == v)) := by
      have hall : c.cards.filter (·.num == v) = c.cards :=
        List.filter_eq_self.mpr fun card hcard => by simpa using hnum card hcard
      refine List.Subperm.perm_of_length_le (hall ▸ hsub.filter _) ?_
      rw [← List.countP_eq_length_filter, hv.length]
      exact hcount.le
    have hone : v ∈ hand.map Poker.num := by
      obtain ⟨card, hcard, hcardnum⟩ := rankCount_pos.mp
        (show 0 < rankCount v hand by simp at hn; omega)
      exact List.mem_map.mpr ⟨card, hcard, hcardnum⟩
    exact ⟨v, hnum, hone, hcards, by rw [rankClass, hcount]; exact hclassing, hv.level⟩
  refine ⟨k.out, hout, fun c hc => ?_, fun v hv => ?_⟩
  · obtain ⟨v, -, hv, hsame⟩ := hpart c hc
    exact ⟨v, hv, hsame⟩
  · obtain ⟨card, hcard, rfl⟩ := List.mem_map.mp hv
    obtain ⟨c, hc, hcards⟩ := List.mem_flatMap.mp (hperm.mem_iff.mpr hcard)
    obtain ⟨w, hw, -, hsame⟩ := hpart c hc
    obtain rfl := hw card hcards
    exact ⟨c, hc, hsame⟩

end IosGame
