import IosGame.Poker.Pool

/-!
# IosGame.Poker.Exhaustive

What `ClassingPokers` leaves behind.  The straight-flush pass takes one row of every
suit, so that it leaves the suits which hold a second row (`leaves_no_straightFlush_iff`);
the straight pass goes on behind the place of a straight it has cut out, so that it skips
a straight that begins right there (`leaves_no_straight_iff`).  The flush pass does not
clamp its index, as the two passes before it do, and leaves the list on the hands of
`PoolTrap` (`classingPokers_returns_iff`); where it ends, it has taken every flush
(`leaves_no_flush`).
-/

namespace IosGame

/-! ## rows among cards -/

/-- Some of the cards are row `k` of `SHUNZI`. -/
def HoldsRow (k : Nat) (cards : List Poker) : Prop :=
  ∃ five, five.Subperm cards ∧ RowOf k five

/-- Some of the cards are a row of `SHUNZI` in one suit. -/
def HoldsStraightFlush (cards : List Poker) : Prop :=
  ∃ five, five.Subperm cards ∧ OneSuit five ∧ ∃ k, RowOf k five

/-- Cards with the ranks of a row among them hold the row. -/
theorem exists_rowOf {k : Nat} {row : List Nat} {cards : List Poker}
    (hrow : shunzi[k]? = some row) (h : row ⊆ cards.map Poker.num) :
    ∃ five, five.Sublist cards ∧ RowOf k five := by
  have hnodup := nodup_row (List.mem_of_getElem? hrow)
  obtain ⟨nums, hperm, hsub⟩ := List.subperm_of_subset hnodup h
  obtain ⟨five, hfive, rfl⟩ := List.sublist_map_iff.mp hsub
  exact ⟨five, hfive, rowOf_of_perm hrow hperm⟩

theorem holdsRow_iff {k : Nat} {row : List Nat} {cards : List Poker}
    (hrow : shunzi[k]? = some row) : HoldsRow k cards ↔ row ⊆ cards.map Poker.num := by
  constructor
  · rintro ⟨five, hsub, hfive⟩
    have hperm := hfive.perm_row hrow
    exact fun v hv => (List.map_subset _ hsub.subset) (hperm.mem_iff.mpr hv)
  · intro h
    obtain ⟨five, hfive, hrowOf⟩ := exists_rowOf hrow h
    exact ⟨five, hfive.subperm, hrowOf⟩

theorem holdsStraightFlush_iff {cards : List Poker} :
    HoldsStraightFlush cards ↔ ∃ s, ∃ row ∈ shunzi, row ⊆ suitNums cards s := by
  constructor
  · rintro ⟨five, hsub, hsuit, k, hfive⟩
    obtain ⟨row, hrow, hperm⟩ := hfive.perm
    have hmem := List.mem_of_getElem? hrow
    have hlen := hperm.length_eq
    rw [length_row hmem, List.length_map] at hlen
    obtain ⟨x, hx⟩ := List.exists_mem_of_length_pos (l := five) (by omega)
    refine ⟨x.suitnum, row, hmem, fun v hv => ?_⟩
    obtain ⟨card, hcard, rfl⟩ := List.mem_map.mp (hperm.mem_iff.mpr hv)
    exact mem_suitNums.mpr ⟨card, hsub.subset hcard, hsuit card hcard x hx, rfl⟩
  · rintro ⟨s, row, hrow, hsub⟩
    obtain ⟨k, hk⟩ := List.getElem?_of_mem hrow
    obtain ⟨five, hfive, hrowOf⟩ := exists_rowOf hk hsub
    have hsuit : ∀ card ∈ five, card.suitnum = s := fun card hcard => by
      simpa using (List.mem_filter.mp (hfive.subset hcard)).2
    refine ⟨five, (hfive.trans List.filter_sublist).subperm, ?_, k, hrowOf⟩
    exact fun a ha b hb => by rw [hsuit a ha, hsuit b hb]

/-! ## the straight-flush pass -/

/-- Suit `s` of the hand holds a second row that has no card in common with the first. -/
def SecondRow (hand : List Poker) (s : Nat) : Prop :=
  ∃ row ∈ firstRow (suitNums hand s), ∃ row' ∈ shunzi, row' ⊆ suitNums hand s ∧ row.Disjoint row'

/-- The ranks a suit has outside its first row. -/
theorem mem_suitNums_restOf {hand : List Poker} {s v : Nat} :
    v ∈ suitNums (restOf hand) s ↔
      v ∈ suitNums hand s ∧ ∀ row ∈ firstRow (suitNums hand s), v ∉ row := by
  simp only [mem_suitNums, restOf, List.mem_filter, inFirstRow, Bool.not_eq_true',
    Option.any_eq_false, decide_eq_false_iff_not]
  constructor
  · rintro ⟨card, ⟨hcard, hout⟩, rfl, rfl⟩
    exact ⟨⟨card, hcard, rfl, rfl⟩, hout⟩
  · rintro ⟨⟨card, hcard, rfl, rfl⟩, hout⟩
    exact ⟨card, ⟨hcard, hout⟩, rfl, rfl⟩

theorem holdsStraightFlush_restOf {hand : List Poker} :
    HoldsStraightFlush (restOf hand) ↔ ∃ s, SecondRow hand s := by
  rw [holdsStraightFlush_iff]
  refine exists_congr fun s => ?_
  constructor
  · rintro ⟨row', hrow', hsub⟩
    have hheld : row' ⊆ suitNums hand s := fun v hv => (mem_suitNums_restOf.mp (hsub hv)).1
    cases hfirst : firstRow (suitNums hand s) with
    | none => exact absurd hheld (firstRow_eq_none.mp hfirst row' hrow')
    | some row =>
        refine ⟨row, hfirst, row', hrow', hheld, fun v hv hv' => ?_⟩
        exact (mem_suitNums_restOf.mp (hsub hv')).2 row hfirst hv
  · rintro ⟨row, hfirst, row', hrow', hheld, hdisjoint⟩
    refine ⟨row', hrow', fun v hv => mem_suitNums_restOf.mpr ⟨hheld hv, ?_⟩⟩
    intro row'' hfirst' hmem
    obtain rfl : row = row'' := Option.mem_unique hfirst hfirst'
    exact hdisjoint hmem hv

theorem HoldsStraightFlush.perm {xs ys : List Poker} (h : HoldsStraightFlush xs)
    (hperm : xs.Perm ys) : HoldsStraightFlush ys := by
  obtain ⟨five, hsub, hfive⟩ := h
  exact ⟨five, (hperm.subperm_left).mp hsub, hfive⟩

/-- **The straight-flush pass is exhaustive** on exactly the hands no suit of which holds
a second row. -/
theorem leaves_no_straightFlush_iff {hand : List Poker} {out : List PokerClass}
    (h : DeckCards hand) (hout : classingPokers hand = .ok out) :
    ¬ HoldsStraightFlush (outsideStraightFlushes out) ↔ ∀ s, ¬ SecondRow hand s := by
  have hperm := perm_classingPokers hout
  obtain ⟨k, rfl⟩ := exists_classified hout
  have houtside := (k.perm_outside hperm).trans (k.perm_restOf h)
  rw [← not_exists, not_iff_not, ← holdsStraightFlush_restOf]
  exact ⟨fun hrow => hrow.perm houtside, fun hrow => hrow.perm houtside.symm⟩

/-- The thirteen clubs. -/
def allClubs : List Poker := (List.range 13).map (deckCard 0)

/-- The combinations of `allClubs`: the row from the 2 on, a flush and three cards. -/
def allClubsClasses : List PokerClass :=
  [{ cards := [deckCard 0 12, deckCard 0 3, deckCard 0 2, deckCard 0 1, deckCard 0 0],
     classing := 7, level := 10 },
   { cards := [deckCard 0 11, deckCard 0 10, deckCard 0 9, deckCard 0 8, deckCard 0 7],
     classing := 4 },
   { cards := [deckCard 0 6], classing := 0 },
   { cards := [deckCard 0 5], classing := 0 },
   { cards := [deckCard 0 4], classing := 0 }]

theorem classingPokers_allClubs : classingPokers allClubs = .ok allClubsClasses := by
  decide +kernel

theorem leaves_no_straightFlush_iff_allClubs :
    ¬ HoldsStraightFlush (outsideStraightFlushes allClubsClasses) ↔
      ∀ s, ¬ SecondRow allClubs s :=
  leaves_no_straightFlush_iff (by decide +kernel) classingPokers_allClubs

/-- **A straight flush left behind**: of the thirteen clubs, the one from the ace on is
returned as a flush. -/
theorem allClubs_leaves_straightFlush : DeckCards allClubs ∧
    classingPokers allClubs = .ok allClubsClasses ∧
    HoldsStraightFlush (outsideStraightFlushes allClubsClasses) := by
  refine ⟨by decide +kernel, classingPokers_allClubs, ?_⟩
  refine ⟨[deckCard 0 11, deckCard 0 10, deckCard 0 9, deckCard 0 8, deckCard 0 7], ?_, ?_, 1, ?_⟩
  · decide +kernel
  · decide +kernel
  · decide +kernel

/-! ## the flush pass -/

/-- **`ClassingPokers` returns** on exactly the hands without a trap in the pool. -/
theorem classingPokers_returns_iff {hand : List Poker} (h : DeckCards hand) :
    (∃ out, classingPokers hand = .ok out) ↔ ¬ PoolTrap hand := by
  obtain ⟨p, ⟨k, -, hnot, hout⟩ | ⟨herror, htrap⟩⟩ := classingPokers_exact hand
  · rw [p.traps_iff h] at hnot
    exact ⟨fun _ => hnot, fun _ => ⟨_, hout⟩⟩
  · rw [p.traps_iff h] at htrap
    refine ⟨fun ⟨out, hout⟩ => ?_, fun hnot => absurd htrap hnot⟩
    rw [herror] at hout
    cases hout

theorem classingPokers_returns_iff_allClubs : ∃ out, classingPokers allClubs = .ok out :=
  (classingPokers_returns_iff (by decide +kernel)).mpr fun htrap =>
    absurd htrap.1 (by decide +kernel)

/-- Thirteen cards of different ranks, five of them spades. -/
def thirteenRanks : List Poker :=
  [deckCard 3 12, deckCard 3 10, deckCard 3 8, deckCard 3 6, deckCard 3 4, deckCard 2 11,
   deckCard 2 9, deckCard 2 7, deckCard 1 5, deckCard 1 3, deckCard 1 1, deckCard 0 2, deckCard 0 0]

/-- **A hand on which the index leaves the list**: the spades are a flush at the front,
and eight cards are left. -/
theorem thirteenRanks_traps : DeckCards thirteenRanks ∧
    classingPokers thirteenRanks = .error .outOfRange ∧
    ¬ ∃ out, classingPokers thirteenRanks = .ok out := by
  have htrap : classingPokers thirteenRanks = .error .outOfRange := by decide +kernel
  refine ⟨by decide +kernel, htrap, ?_⟩
  rintro ⟨out, hout⟩
  rw [htrap] at hout
  cases hout

/-- The single cards have at most four of a suit, as the flush pass leaves them. -/
theorem Classified.few_left {origins : List Poker} (k : Classified origins) (s : Nat) :
    suitCount s k.left ≤ 4 := by
  have hleft := suitCount_le_of_subperm s k.straight.sublist.subperm
  rw [suitCount_perm s (perm_sortedBy _ _)] at hleft
  exact hleft.trans (k.few s)

/-- **The flush pass is exhaustive** whatever the cards: no five single cards are of one
suit. -/
theorem leaves_no_flush {origins : List Poker} {out : List PokerClass}
    (h : classingPokers origins = .ok out) :
    ¬ ∃ five, five.Subperm (cardsOf (ofKind 0 out)) ∧ five.length = 5 ∧ OneSuit five := by
  obtain ⟨k, rfl⟩ := exists_classified h
  rw [k.singles_eq, cardsOf_singles]
  rintro ⟨five, hsub, hlen, hsuit⟩
  obtain ⟨x, hx⟩ := List.exists_mem_of_length_pos (l := five) (by omega)
  have hfive : suitCount x.suitnum five = 5 :=
    (suitCount_eq_length fun y hy => hsuit y hy x hx).trans hlen
  have hle := suitCount_le_of_subperm x.suitnum hsub
  have hfew := k.few_left x.suitnum
  omega

theorem leaves_no_flush_allClubs :
    ¬ ∃ five, five.Subperm (cardsOf (ofKind 0 allClubsClasses)) ∧ five.length = 5 ∧
      OneSuit five :=
  leaves_no_flush classingPokers_allClubs

/-! ## the straight pass -/

/-- Whether a straight is skipped depends on which ranks there are. -/
theorem skipped_congr {ns ms : List Nat} (h : ∀ v, v ∈ ns ↔ v ∈ ms) : Skipped ns ↔ Skipped ms := by
  have hsub : ∀ row row' : List Nat,
      row' ⊆ ns.filter (· ∉ row) ↔ row' ⊆ ms.filter (· ∉ row) := by
    intro row row'
    simp only [List.subset_def, List.mem_filter, h]
  have hfirst : firstStraight ns = firstStraight ms := find?_held_congr h
  unfold Skipped
  simp only [hfirst, hsub, List.mem_filter, h]

/-- **The straight pass leaves no ordinary straight** on exactly the hands where the one
after the highest is not skipped. -/
theorem leaves_no_straight_iff {hand : List Poker} {out : List PokerClass} (h : DeckCards hand)
    (hout : classingPokers hand = .ok out) :
    (¬ ∃ k ≤ 8, HoldsRow k (cardsOf (ofKind 0 out))) ↔
      ¬ Skipped ((straightCards hand).map Poker.num) := by
  obtain ⟨c, rfl⟩ := exists_classified hout
  have hperm := (perm_sortedBy pokerNumCompare c.unflushed).trans (c.perm_straightCards h)
  have hsub : c.unflushed.Sublist (sortedBy pokerSuitCompare c.pool) := c.flush.sublist
  have hnodup : (c.unflushed.map Poker.num).Nodup := by
    refine List.Nodup.sublist (hsub.map _) ?_
    exact ((perm_sortedBy _ _).map _).nodup_iff.mpr c.nodup_pool
  have hbound : ∀ v ∈ (sortedBy pokerNumCompare c.unflushed).map Poker.num, v ≤ 12 := by
    intro v hv
    obtain ⟨card, hcard, rfl⟩ := List.mem_map.mp hv
    exact (deckCards_poolCards h).num_le (List.mem_filter.mp (hperm.subset hcard)).1
  have hvisits := visits_leaves c.visits (descending_num hnodup) hbound
  rw [skipped_congr fun v => (hperm.map Poker.num).mem_iff] at hvisits
  rw [c.singles_eq, cardsOf_singles, ← hvisits]
  push Not
  constructor
  · intro hnone row hrow hheld
    obtain ⟨k, hk, hget⟩ := mem_ordinaryRows.mp hrow
    exact hnone k hk ((holdsRow_iff hget).mpr hheld)
  · intro hnone k hk hholds
    obtain ⟨five, hsub, hfive⟩ := hholds
    obtain ⟨row, hrow, -⟩ := hfive.perm
    exact hnone row (mem_ordinaryRows.mpr ⟨k, hk, hrow⟩)
      ((holdsRow_iff hrow).mp ⟨five, hsub, hfive⟩)

/-- Two straights in four suits, an ace between their heads. -/
def straightsApart : List Poker :=
  [deckCard 3 12, deckCard 2 11, deckCard 1 9, deckCard 0 8, deckCard 3 7, deckCard 2 6,
   deckCard 1 5, deckCard 0 3, deckCard 3 2, deckCard 2 1, deckCard 1 0]

/-- The combinations of `straightsApart`. -/
def straightsApartClasses : List PokerClass :=
  [{ cards := [deckCard 3 12, deckCard 0 3, deckCard 3 2, deckCard 2 1, deckCard 1 0],
     classing := 3, level := 10 },
   { cards := [deckCard 1 9, deckCard 0 8, deckCard 3 7, deckCard 2 6, deckCard 1 5],
     classing := 3, level := 7 },
   { cards := [deckCard 2 11], classing := 0 }]

theorem classingPokers_straightsApart :
    classingPokers straightsApart = .ok straightsApartClasses := by decide +kernel

theorem leaves_no_straight_iff_straightsApart :
    ¬ ∃ k ≤ 8, HoldsRow k (cardsOf (ofKind 0 straightsApartClasses)) :=
  (leaves_no_straight_iff (by decide +kernel) classingPokers_straightsApart).mpr
    (by decide +kernel)

/-- Two straights in four suits, the second right behind the first. -/
def twoStraights : List Poker :=
  [deckCard 3 12, deckCard 2 11, deckCard 1 10, deckCard 0 9, deckCard 3 8, deckCard 2 7,
   deckCard 1 3, deckCard 0 2, deckCard 3 1, deckCard 2 0]

/-- The combinations of `twoStraights`: a straight and five single cards. -/
def twoStraightsClasses : List PokerClass :=
  [{ cards := [deckCard 3 12, deckCard 1 3, deckCard 0 2, deckCard 3 1, deckCard 2 0],
     classing := 3, level := 10 },
   { cards := [deckCard 2 11], classing := 0 },
   { cards := [deckCard 1 10], classing := 0 },
   { cards := [deckCard 0 9], classing := 0 },
   { cards := [deckCard 3 8], classing := 0 },
   { cards := [deckCard 2 7], classing := 0 }]

/-- **A straight left behind**: the single cards are row 1. -/
theorem twoStraights_leaves_straight : DeckCards twoStraights ∧
    classingPokers twoStraights = .ok twoStraightsClasses ∧
    ∃ k ≤ 8, HoldsRow k (cardsOf (ofKind 0 twoStraightsClasses)) := by
  refine ⟨by decide +kernel, by decide +kernel, 1, by omega, ?_⟩
  refine ⟨cardsOf (ofKind 0 twoStraightsClasses), List.Subperm.refl _, ?_⟩
  decide +kernel

end IosGame
