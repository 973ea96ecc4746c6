import IosGame.Poker.Exhaustive

/-!
# IosGame.Poker.Recognition

Whether `ClassingPokers` takes a selection of up to five cards for one combination.
`Forms` says which kinds of combination the cards are; the function returns the
strongest of them as one combination, unless the cards are the last row of `SHUNZI` in
several suits (`recognises_iff`).
-/

namespace IosGame

/-! ## what cards form -/

/-- The kinds of combination some cards are. -/
inductive Forms (cards : List Poker) : Int → Prop where
  | straightFlush {k : Nat} (suit : OneSuit cards) (row : RowOf k cards) : Forms cards 7
  | four {v : Nat} (nums : cards.map Poker.num = List.replicate 4 v) : Forms cards 6
  | fullHouse (nums : FullHouse cards) : Forms cards 5
  | flush (five : cards.length = 5) (suit : OneSuit cards) : Forms cards 4
  | straight {k : Nat} (row : RowOf k cards) : Forms cards 3
  | triple {v : Nat} (nums : cards.map Poker.num = List.replicate 3 v) : Forms cards 2
  | pair {v : Nat} (nums : cards.map Poker.num = List.replicate 2 v) : Forms cards 1
  | single (one : cards.length = 1) : Forms cards 0

/-- The strongest kind of combination some cards are. -/
def Strongest (cards : List Poker) (j : Int) : Prop := Forms cards j ∧ ∀ i, Forms cards i → i ≤ j

/-- A combination is of the kind its cards form. -/
theorem Valid.forms {c : PokerClass} (h : Valid c) : Forms c.cards c.classing := by
  cases h with
  | straightFlush classing suit row _ => exact classing ▸ .straightFlush suit row
  | four h => exact h.classing ▸ .four h.cards
  | fullHouse classing cards _ => exact classing ▸ .fullHouse cards
  | flush classing five suit _ => exact classing ▸ .flush five suit
  | straight classing row _ => exact classing ▸ .straight row
  | triple h => exact h.classing ▸ .triple h.cards
  | pair h => exact h.classing ▸ .pair h.cards
  | single h => exact h.classing ▸ .single h.length

/-- The order of the cards does not matter. -/
theorem Forms.of_perm {xs ys : List Poker} {j : Int} (h : Forms xs j) (hperm : xs.Perm ys) :
    Forms ys j := by
  have hreplicate : ∀ {n v : Nat}, xs.map Poker.num = List.replicate n v →
      ys.map Poker.num = List.replicate n v := by
    intro n v hnums
    exact List.perm_replicate.mp (hnums ▸ (hperm.map Poker.num).symm)
  cases h with
  | straightFlush suit row =>
      exact .straightFlush (suit.subset hperm.symm.subset) (row.of_perm hperm)
  | four nums => exact .four (hreplicate nums)
  | fullHouse nums =>
      obtain ⟨v, w, hne, hvw⟩ := nums
      exact .fullHouse ⟨v, w, hne, (hperm.map _).symm.trans hvw⟩
  | flush five suit =>
      exact .flush (hperm.length_eq ▸ five) (suit.subset hperm.symm.subset)
  | straight row => exact .straight (row.of_perm hperm)
  | triple nums => exact .triple (hreplicate nums)
  | pair nums => exact .pair (hreplicate nums)
  | single one => exact .single (hperm.length_eq ▸ one)

/-- No kind is above a straight flush. -/
theorem Forms.le {cards : List Poker} {j : Int} (h : Forms cards j) : j ≤ 7 := by
  cases h <;> decide

/-- Cards of one suit are of different ranks. -/
theorem DeckCards.nodup_num {hand : List Poker} (h : DeckCards hand) (hsuit : OneSuit hand) :
    (hand.map Poker.num).Nodup := by
  refine h.nodup.map_on fun a ha b hb heq => ?_
  refine h.proper a ha b hb ?_
  simp [Poker.same, heq, hsuit a ha b hb]

/-- Combinations of one rank each, and none of any rank. -/
theorem nil_of_groupsOf {kind : Int} {n : Nat} {cs : List PokerClass}
    (h : ∀ c ∈ cs, ∃ v, OfRank kind n v c) (hzero : ∀ v, groupsOf v cs = 0) : cs = [] := by
  refine List.eq_nil_iff_forall_not_mem.mpr fun c hc => ?_
  obtain ⟨v, hv⟩ := h c hc
  have hpos := hv.groupsOf_pos hc
  have hnone := hzero v
  omega

/-! ## one combination for all cards -/

/-- A combination with as many cards as the hand is all that is returned. -/
theorem covers {hand : List Poker} {out : List PokerClass} {c : PokerClass}
    (hout : classingPokers hand = .ok out) (hc : c ∈ out) (hlen : hand.length ≤ c.cards.length) :
    out = [c] ∧ c.cards.Perm hand := by
  have hperm := perm_classingPokers hout
  have hshaped := shaped_classingPokers hout
  obtain ⟨pre, post, rfl⟩ := List.append_of_mem hc
  have hcards := hperm.length_eq
  simp only [cardsOf_append, cardsOf_cons, List.length_append] at hcards
  have hnil : ∀ cs : List PokerClass, (∀ d ∈ cs, Shaped d) → (cardsOf cs).length = 0 → cs = [] := by
    intro cs hcs hzero
    cases cs with
    | nil => rfl
    | cons d cs =>
        have hd := hcs d List.mem_cons_self
        rw [shaped_iff] at hd
        simp only [cardsOf_cons, List.length_append] at hzero
        omega
  obtain rfl : pre = [] :=
    hnil pre (fun d hd => hshaped d (List.mem_append_left _ hd)) (by omega)
  obtain rfl : post = [] :=
    hnil post (fun d hd => hshaped d (List.mem_append_right _ (List.mem_cons_of_mem c hd)))
      (by omega)
  refine ⟨rfl, ?_⟩
  simpa using hperm

/-- Some combination of kind `i` or above has all cards of the hand. -/
def Covered (i : Int) (hand : List Poker) (out : List PokerClass) : Prop :=
  ∃ c ∈ out, i ≤ c.classing ∧ hand.length ≤ c.cards.length

/-- The kinds above 2, but for the fours, have five cards. -/
theorem five_of_kind {hand : List Poker} {out : List PokerClass} {c : PokerClass} {i : Int}
    (hout : classingPokers hand = .ok out) (hc : c ∈ ofKind i out) (hi : 2 < i) (hsix : i ≠ 6) :
    c ∈ out ∧ c.cards.length = 5 := by
  obtain ⟨hmem, hkind⟩ := List.mem_filter.mp hc
  have hshaped := shaped_classingPokers hout c hmem
  rw [beq_iff_eq] at hkind
  rw [shaped_iff] at hshaped
  exact ⟨hmem, by omega⟩

/-- A combination of five cards covers a hand of up to five. -/
theorem covered_of_five {hand : List Poker} {out : List PokerClass} {c : PokerClass} {i : Int}
    (hout : classingPokers hand = .ok out) (hfew : hand.length ≤ 5) (hc : c ∈ ofKind i out)
    (hi : 2 < i) (hsix : i ≠ 6) : Covered i hand out := by
  obtain ⟨hmem, hlen⟩ := five_of_kind hout hc hi hsix
  have hkind := (List.mem_filter.mp hc).2
  rw [beq_iff_eq] at hkind
  exact ⟨c, hmem, hkind.ge, hlen ▸ hfew⟩

namespace Classified

variable {hand : List Poker} (k : Classified hand)

/-- Where no straight flush is taken, no card is in the first row of its suit. -/
theorem restOf_eq (h : DeckCards hand) (hnone : k.straightFlushes = []) : restOf hand = hand := by
  have hsuit := k.suit.perm.trans (perm_sortedBy _ _)
  rw [hnone, cardsOf_nil, List.nil_append] at hsuit
  exact List.filter_sublist.eq_of_length ((k.perm_restOf h).symm.trans hsuit).length_eq

/-- What has five cards of a hand of up to five is the kind the hand is of. -/
theorem forms_of_five {c : PokerClass} {i : Int} (hout : classingPokers hand = .ok k.out)
    (hfew : hand.length ≤ 5) (hc : c ∈ ofKind i k.out) (hi : 2 < i) (hsix : i ≠ 6) :
    Forms hand i := by
  obtain ⟨hmem, hkind⟩ := List.mem_filter.mp hc
  obtain ⟨-, hlen⟩ := five_of_kind hout hc hi hsix
  obtain ⟨-, hperm⟩ := covers hout hmem (hlen ▸ hfew)
  rw [beq_iff_eq] at hkind
  exact hkind ▸ (k.valid_out c hmem).forms.of_perm hperm

/-- A hand of up to five cards that are no straight flush keeps its cards. -/
theorem no_straightFlush (hout : classingPokers hand = .ok k.out) (hfew : hand.length ≤ 5)
    (hnot : ¬ Forms hand 7) : k.straightFlushes = [] := by
  refine List.eq_nil_iff_forall_not_mem.mpr fun c hc => hnot ?_
  exact k.forms_of_five hout hfew (k.straightFlushes_eq ▸ hc) (by omega) (by omega)

/-- A straight flush is taken. -/
theorem covered_straightFlush (h : DeckCards hand) (hout : classingPokers hand = .ok k.out)
    (hfew : hand.length ≤ 5) (hforms : Forms hand 7) : Covered 7 hand k.out := by
  obtain ⟨suit, row⟩ := hforms
  cases hnone : k.straightFlushes with
  | nil =>
      exfalso
      have hholds : HoldsStraightFlush hand := ⟨hand, List.Subperm.refl _, suit, _, row⟩
      obtain ⟨s, row', hrow', hsub⟩ := holdsStraightFlush_iff.mp hholds
      cases hfirst : firstRow (suitNums hand s) with
      | none => exact firstRow_eq_none.mp hfirst row' hrow' hsub
      | some first =>
          obtain ⟨hmem, hheld⟩ := firstRow_mem hfirst
          have hlen := length_row hmem
          obtain ⟨v, hv⟩ := List.exists_mem_of_length_pos (l := first) (by omega)
          have hrest : v ∈ suitNums (restOf hand) s := by
            rw [k.restOf_eq h hnone]
            exact hheld hv
          exact (mem_suitNums_restOf.mp hrest).2 first hfirst hv
  | cons c cs =>
      have hkind : c ∈ ofKind 7 k.out := by
        rw [k.straightFlushes_eq, hnone]
        exact List.mem_cons_self
      exact covered_of_five hout hfew hkind (by omega) (by omega)

/-- Outside straight flushes, the hand is as it was. -/
theorem rankCount_outside (hout : classingPokers hand = .ok k.out) (hnone : k.straightFlushes = [])
    (v : Nat) : rankCount v (outsideStraightFlushes k.out) = rankCount v hand := by
  have hsuit := k.suit.perm.trans (perm_sortedBy _ _)
  rw [hnone, cardsOf_nil, List.nil_append] at hsuit
  exact rankCount_perm v ((k.perm_outside (perm_classingPokers hout)).trans hsuit)

/-- Cards of different ranks are the pool. -/
theorem perm_pool_hand (h : DeckCards hand) (hnone : k.straightFlushes = [])
    (hnodup : (hand.map Poker.num).Nodup) : k.pool.Perm hand := by
  have hpool := k.perm_poolCards h
  have hall : poolCards hand = hand := by
    rw [poolCards, k.restOf_eq h hnone]
    refine List.filter_eq_self.mpr fun card hcard => ?_
    rw [beq_iff_eq, rankCount_eq_count]
    exact List.count_eq_one_of_mem hnodup (List.mem_map_of_mem hcard)
  rwa [hall] at hpool

/-- A flush is taken. -/
theorem covered_flush (hout : classingPokers hand = .ok k.out) (hfew : hand.length ≤ 5)
    (hpool : k.pool.Perm hand) (five : hand.length = 5) (suit : OneSuit hand) :
    Covered 4 hand k.out := by
  obtain ⟨x, hx⟩ := List.exists_mem_of_length_pos (l := hand) (by omega)
  have hcount : suitCount x.suitnum hand = hand.length :=
    suitCount_eq_length fun y hy => suit y hy x hx
  have htotal := k.flush.total x.suitnum
  have hleft := k.few x.suitnum
  rw [suitCount_perm _ ((perm_sortedBy _ _).trans hpool), hcount] at htotal
  have hpos : 0 < flushesOf x.suitnum k.flushes := by omega
  obtain ⟨c, hc, -⟩ := List.countP_pos_iff.mp hpos
  have hkind : c ∈ ofKind 4 k.out := by rwa [k.flushes_eq]
  exact covered_of_five hout hfew hkind (by omega) (by omega)

/-- Where the hand is no flush, no flush is taken. -/
theorem no_flush (hout : classingPokers hand = .ok k.out) (hfew : hand.length ≤ 5)
    (hnot : ¬ Forms hand 4) : k.flushes = [] := by
  refine List.eq_nil_iff_forall_not_mem.mpr fun c hc => hnot ?_
  exact k.forms_of_five hout hfew (k.flushes_eq ▸ hc) (by omega) (by omega)

/-- A hand that is not of one suit is no flush. -/
theorem no_flush_of_suits (hout : classingPokers hand = .ok k.out) (hfew : hand.length ≤ 5)
    (hsuit : ¬ OneSuit hand) : k.flushes = [] := by
  refine k.no_flush hout hfew fun hflush => ?_
  cases hflush with
  | flush _ suit => exact hsuit suit

/-- The cards the straight pass goes through, where no flush was taken. -/
theorem perm_unflushed (hpool : k.pool.Perm hand) (hflushes : k.flushes = []) :
    (sortedBy pokerNumCompare k.unflushed).Perm hand := by
  have hperm := k.perm_flushed
  rw [hflushes, cardsOf_nil, List.nil_append] at hperm
  exact (perm_sortedBy pokerNumCompare k.unflushed).trans (hperm.trans hpool)

/-- A straight that is one of the ordinary rows is taken. -/
theorem covered_straight (hout : classingPokers hand = .ok k.out) (hfew : hand.length ≤ 5)
    (hpool : k.pool.Perm hand) (hflushes : k.flushes = []) {row : List Nat}
    (hrow : row ∈ ordinaryRows) (hnums : (hand.map Poker.num).Perm row) :
    Covered 3 hand k.out := by
  have hsorted := k.perm_unflushed hpool hflushes
  have hunflushed := (perm_sortedBy pokerNumCompare k.unflushed).symm.trans hsorted
  have hnodup : (k.unflushed.map Poker.num).Nodup :=
    ((hunflushed.trans hpool.symm).map _).nodup_iff.mpr k.nodup_pool
  have hheld : row ⊆ (sortedBy pokerNumCompare k.unflushed).map Poker.num :=
    ((hsorted.map _).trans hnums).symm.subset
  have hshrinks := k.visits.shrinks (descending_num hnodup) hrow hheld
  have hlen := hsorted.length_eq
  rw [List.length_map, List.length_map, hlen] at hshrinks
  have hfive := hnums.length_eq
  rw [List.length_map, length_row (mem_shunzi_of_ordinary hrow)] at hfive
  cases hstraights : k.straights with
  | nil =>
      -- then all five cards would be left
      have hcards := (k.straight.perm.trans hsorted).length_eq
      rw [hstraights, cardsOf_nil, List.nil_append] at hcards
      omega
  | cons c cs =>
      have hkind : c ∈ ofKind 3 k.out := by
        rw [k.straights_eq, hstraights]
        exact List.mem_cons_self
      exact covered_of_five hout hfew hkind (by omega) (by omega)

/-- The last row of `SHUNZI` is not taken by the straight pass. -/
theorem not_covers_rowNine (hpool : k.pool.Perm hand) (hflushes : k.flushes = [])
    (hrow : RowOf 9 hand) (c : PokerClass) : k.out ≠ [c] := by
  intro hsingle
  have hnums : (hand.map Poker.num).Perm [12, 11, 2, 1, 0] := hrow.perm_row rfl
  have hsorted := k.perm_unflushed hpool hflushes
  have hnone : ∀ row ∈ ordinaryRows,
      ¬ row ⊆ (sortedBy pokerNumCompare k.unflushed).map Poker.num := by
    intro row hrow hsub
    have hall : ∀ r ∈ ordinaryRows, ¬ r ⊆ [12, 11, 2, 1, 0] := by decide
    exact hall row hrow fun v hv => ((hsorted.map _).trans hnums).subset (hsub hv)
  have hleft := congrArg List.length (k.visits.eq_of_none hnone)
  have hsingles := k.singles_eq
  have hlen := congrArg List.length hsingles
  have hone : (ofKind 0 k.out).length ≤ 1 := by
    rw [hsingle]
    exact List.length_filter_le _ [c]
  have hfive := ((hsorted.map Poker.num).trans hnums).length_eq
  simp only [singles, List.length_map, List.length_cons, List.length_nil] at hleft hlen hfive
  omega

/-- Where the cards are of one rank, a combination of that rank covers them. -/
theorem covered_of_groups {kind : Int} {n v : Nat} {cs : List PokerClass}
    (hof : ∀ c ∈ cs, ∃ w, OfRank kind n w c) (hpos : 0 < groupsOf v cs)
    (hkind : cs ⊆ ofKind kind k.out) (hnums : hand.map Poker.num = List.replicate n v) :
    Covered kind hand k.out := by
  obtain ⟨c, hc, -⟩ := List.countP_pos_iff.mp hpos
  obtain ⟨w, hw⟩ := hof c hc
  have hmem := List.mem_of_mem_filter (hkind hc)
  exact ⟨c, hmem, hw.classing.ge, by rw [hw.length, length_of_rank hnums]⟩

/-- The ranks outside straight flushes, where all cards are of one rank. -/
theorem rankCount_outside_replicate (hout : classingPokers hand = .ok k.out)
    (hnone : k.straightFlushes = []) {n v : Nat} (hnums : hand.map Poker.num = List.replicate n v)
    (u : Nat) : rankCount u (outsideStraightFlushes k.out) = if v = u then n else 0 := by
  rw [k.rankCount_outside hout hnone, rankCount_replicate hnums]

theorem covered_four (hout : classingPokers hand = .ok k.out) (hnone : k.straightFlushes = [])
    {v : Nat} (hnums : hand.map Poker.num = List.replicate 4 v) : Covered 6 hand k.out := by
  have hranks := k.ranksExact (perm_classingPokers hout)
  have hcount := hranks.countFours v
  rw [k.rankCount_outside_replicate hout hnone hnums, if_pos rfl] at hcount
  exact k.covered_of_groups hranks.ofFours (by omega) (List.Subset.refl _) hnums

theorem covered_fullHouse (hout : classingPokers hand = .ok k.out) (hfew : hand.length ≤ 5)
    (hnone : k.straightFlushes = []) (hnums : FullHouse hand) : Covered 5 hand k.out := by
  obtain ⟨v, w, hne, hvw⟩ := hnums
  have hranks := k.ranksExact (perm_classingPokers hout)
  have hcount : ∀ u, rankCount u (outsideStraightFlushes k.out) =
      (if v = u then 3 else 0) + if w = u then 2 else 0 := by
    intro u
    rw [k.rankCount_outside hout hnone, rankCount_fullHouse hvw]
  have htriple := hranks.countTriples v
  have hpair := hranks.countPairs w
  rw [hcount, if_pos rfl, if_neg (Ne.symm hne), if_pos rfl] at htriple
  rw [hcount, if_neg hne, if_pos rfl, if_pos rfl] at hpair
  obtain ⟨san, hsan, -⟩ := List.countP_pos_iff.mp (show 0 < groupsOf v k.suntiao by omega)
  obtain ⟨dui, hdui, -⟩ := List.countP_pos_iff.mp (show 0 < groupsOf w k.yidui by omega)
  have hlen := hranks.fullHouses_length
  have hsan := List.length_pos_of_mem hsan
  have hdui := List.length_pos_of_mem hdui
  obtain ⟨c, hc⟩ := List.exists_mem_of_length_pos (show 0 < (ofKind 5 k.out).length by omega)
  exact covered_of_five hout hfew hc (by omega) (by omega)

/-- Three cards of one rank are a triple, and there is no pair to match it with. -/
theorem covered_triple (hout : classingPokers hand = .ok k.out) (hnone : k.straightFlushes = [])
    {v : Nat} (hnums : hand.map Poker.num = List.replicate 3 v) : Covered 2 hand k.out := by
  have hranks := k.ranksExact (perm_classingPokers hout)
  have hcount := k.rankCount_outside_replicate hout hnone hnums
  have hpairs : k.yidui = [] := by
    refine nil_of_groupsOf hranks.ofPairs fun u => ?_
    rw [hranks.countPairs u, hcount u]
    split <;> simp
  have htriple := hranks.countTriples v
  rw [hcount v, if_pos rfl, if_pos rfl] at htriple
  have hkind : k.suntiao = ofKind 2 k.out := by
    rw [k.triples_eq, hpairs]
    rfl
  exact k.covered_of_groups hranks.ofTriples (by omega) (fun _ hc => hkind ▸ hc) hnums

/-- Two cards of one rank are a pair, and there is no triple to match it with. -/
theorem covered_pair (hout : classingPokers hand = .ok k.out) (hnone : k.straightFlushes = [])
    {v : Nat} (hnums : hand.map Poker.num = List.replicate 2 v) : Covered 1 hand k.out := by
  have hranks := k.ranksExact (perm_classingPokers hout)
  have hcount := k.rankCount_outside_replicate hout hnone hnums
  have htriples : k.suntiao = [] := by
    refine nil_of_groupsOf hranks.ofTriples fun u => ?_
    rw [hranks.countTriples u, hcount u]
    split <;> simp
  have hpair := hranks.countPairs v
  rw [hcount v, if_pos rfl, if_pos rfl] at hpair
  have hkind : k.yidui = ofKind 1 k.out := by
    rw [k.pairs_eq, htriples]
    rfl
  exact k.covered_of_groups hranks.ofPairs (by omega) (fun _ hc => hkind ▸ hc) hnums

/-- One card is in some combination. -/
theorem covered_single (hout : classingPokers hand = .ok k.out) (one : hand.length = 1) :
    Covered 0 hand k.out := by
  have hlen := (perm_classingPokers hout).length_eq
  obtain ⟨card, hcard⟩ := List.exists_mem_of_length_pos (l := cardsOf k.out) (by omega)
  obtain ⟨c, hc, hcards⟩ := List.mem_flatMap.mp hcard
  have hpos := List.length_pos_of_mem hcards
  have hshaped := shaped_classingPokers hout c hc
  rw [shaped_iff] at hshaped
  exact ⟨c, hc, by omega, by omega⟩

/-- **Every kind a hand forms is covered**, but for the last row in several suits. -/
theorem covered_of_forms (h : DeckCards hand) (hout : classingPokers hand = .ok k.out)
    (hfew : hand.length ≤ 5) (hnine : RowOf 9 hand → OneSuit hand) {i : Int}
    (hforms : Forms hand i) : Covered i hand k.out := by
  by_cases hseven : Forms hand 7
  · obtain ⟨c, hc, hkind, hlen⟩ := k.covered_straightFlush h hout hfew hseven
    exact ⟨c, hc, hforms.le.trans hkind, hlen⟩
  · have hnone := k.no_straightFlush hout hfew hseven
    cases hforms with
    | straightFlush suit row => exact absurd (.straightFlush suit row) hseven
    | four nums => exact k.covered_four hout hnone nums
    | fullHouse nums => exact k.covered_fullHouse hout hfew hnone nums
    | flush five suit =>
        have hpool := k.perm_pool_hand h hnone (h.nodup_num suit)
        exact k.covered_flush hout hfew hpool five suit
    | @straight r row =>
        have hsuit : ¬ OneSuit hand := fun suit => hseven (.straightFlush suit row)
        obtain ⟨nums, hget, hnums⟩ := row.perm
        obtain ⟨hlt, -⟩ := List.getElem?_eq_some_iff.mp hget
        have hr : r ≤ 8 := by
          have hten : shunzi.length = 10 := rfl
          have hne : r ≠ 9 := by
            rintro rfl
            exact hsuit (hnine row)
          omega
        have hrow : nums ∈ ordinaryRows := mem_ordinaryRows.mpr ⟨r, hr, hget⟩
        have hpool := k.perm_pool_hand h hnone (row.nodup)
        have hflushes := k.no_flush_of_suits hout hfew hsuit
        exact k.covered_straight hout hfew hpool hflushes hrow hnums
    | triple nums => exact k.covered_triple hout hnone nums
    | pair nums => exact k.covered_pair hout hnone nums
    | single one => exact k.covered_single hout one

end Classified

/-! ## recognition -/

/-- One combination of all cards is returned exactly when the cards form one, and it is
of the strongest kind. -/
def Recognised (hand : List Poker) : Prop :=
  ((∃ c, classingPokers hand = .ok [c] ∧ c.cards.Perm hand) ↔ ∃ j, Forms hand j) ∧
    ∀ c, classingPokers hand = .ok [c] → c.cards.Perm hand → Strongest hand c.classing

/-- Few cards do not trap. -/
theorem exists_out_of_few {hand : List Poker} (h : DeckCards hand) (hfew : hand.length ≤ 5) :
    ∃ k : Classified hand, classingPokers hand = .ok k.out := by
  obtain ⟨p, ⟨k, -, -, hout⟩ | ⟨-, htrap⟩⟩ := classingPokers_exact hand
  · exact ⟨k, hout⟩
  · exfalso
    have hten := ((p.traps_iff h).mp htrap).1
    have hle : (poolCards hand).length ≤ hand.length :=
      (List.filter_sublist.trans List.filter_sublist).length_le
    omega

/-- The last row in several suits is not returned as one combination. -/
theorem not_single_of_rowNine {hand : List Poker} (h : DeckCards hand) (hfew : hand.length ≤ 5)
    (row : RowOf 9 hand) (hsuit : ¬ OneSuit hand) (c : PokerClass) :
    classingPokers hand ≠ .ok [c] := by
  obtain ⟨k, hout⟩ := exists_out_of_few h hfew
  have hnone := k.no_straightFlush hout hfew fun hseven => by
    cases hseven with
    | straightFlush suit _ => exact hsuit suit
  have hflushes := k.no_flush_of_suits hout hfew hsuit
  have hpool := k.perm_pool_hand h hnone row.nodup
  rw [hout, ne_eq, Except.ok.injEq]
  exact k.not_covers_rowNine hpool hflushes row c

/-- What is returned as one combination is of the kind the cards form. -/
theorem forms_of_single {hand : List Poker} {c : PokerClass} (hc : classingPokers hand = .ok [c]) :
    c.cards.Perm hand ∧ Valid c ∧ Forms hand c.classing := by
  have hperm := perm_classingPokers hc
  rw [cardsOf_cons, cardsOf_nil, List.append_nil] at hperm
  obtain ⟨k, hk⟩ := exists_classified hc
  have hvalid := k.valid_out c (hk ▸ List.mem_singleton_self c)
  exact ⟨hperm, hvalid, hvalid.forms.of_perm hperm⟩

/-- All other selections are recognised. -/
theorem recognised_of {hand : List Poker} (h : DeckCards hand) (hfew : hand.length ≤ 5)
    (hnine : RowOf 9 hand → OneSuit hand) : Recognised hand := by
  obtain ⟨k, hout⟩ := exists_out_of_few h hfew
  have hcovered : ∀ j, Forms hand j → Covered j hand k.out :=
    fun j hforms => k.covered_of_forms h hout hfew hnine hforms
  refine ⟨⟨fun ⟨c, hc, _⟩ => ⟨_, (forms_of_single hc).2.2⟩, fun ⟨j, hj⟩ => ?_⟩, ?_⟩
  · obtain ⟨c, hc, -, hlen⟩ := hcovered j hj
    obtain ⟨hsingle, hperm⟩ := covers hout hc hlen
    exact ⟨c, hsingle ▸ hout, hperm⟩
  · intro c hc _
    refine ⟨(forms_of_single hc).2.2, fun i hi => ?_⟩
    obtain ⟨d, hd, hle, -⟩ := hcovered i hi
    rw [hout, Except.ok.injEq] at hc
    rw [hc, List.mem_singleton] at hd
    exact hd ▸ hle

/-- **A selection is recognised** exactly when it is not the last row of `SHUNZI` in
several suits. -/
theorem recognises_iff {hand : List Poker} (h : DeckCards hand) (hfew : hand.length ≤ 5) :
    Recognised hand ↔ ¬ (RowOf 9 hand ∧ ¬ OneSuit hand) := by
  constructor
  · rintro ⟨hrec, -⟩ ⟨row, hsuit⟩
    obtain ⟨c, hc, -⟩ := hrec.mpr ⟨3, .straight row⟩
    exact not_single_of_rowNine h hfew row hsuit c hc
  · intro hnot
    refine recognised_of h hfew fun row => ?_
    by_contra hsuit
    exact hnot ⟨row, hsuit⟩

/-- The cards form a combination that is recognised. -/
def Whole (cards : List Poker) : Prop :=
  (∃ j, Forms cards j) ∧ ¬ (RowOf 9 cards ∧ ¬ OneSuit cards)

/-- Up to five cards come back as one combination exactly when they are one that is
recognised. -/
theorem single_iff_whole {hand : List Poker} (h : DeckCards hand) (hfew : hand.length ≤ 5) :
    (∃ c, classingPokers hand = .ok [c]) ↔ Whole hand := by
  constructor
  · rintro ⟨c, hc⟩
    refine ⟨⟨_, (forms_of_single hc).2.2⟩, fun ⟨row, hsuit⟩ => ?_⟩
    exact not_single_of_rowNine h hfew row hsuit c hc
  · rintro ⟨hforms, hnot⟩
    have hrec := recognised_of h hfew fun row => by
      by_contra hsuit
      exact hnot ⟨row, hsuit⟩
    obtain ⟨c, hc, -⟩ := hrec.1.mpr hforms
    exact ⟨c, hc⟩

/-- The first row of `SHUNZI`, which has the same head as the last, in several suits. -/
theorem recognises_rowZero :
    Recognised [deckCard 3 12, deckCard 2 3, deckCard 1 2, deckCard 0 1, deckCard 3 0] :=
  (recognises_iff (by decide +kernel) (by decide)).mpr (by decide +kernel)

/-- The last row of `SHUNZI` in several suits. -/
def rowNine : List Poker := [deckCard 3 12, deckCard 2 11, deckCard 1 2, deckCard 0 1, deckCard 3 0]

/-- **A straight that is not recognised**: the last row comes back as five single cards. -/
theorem rowNine_not_recognised : DeckCards rowNine ∧ Forms rowNine 3 ∧
    classingPokers rowNine = .ok (rowNine.map fun card => { cards := [card], classing := 0 }) ∧
    ¬ Recognised rowNine := by
  have hout : classingPokers rowNine =
      .ok (rowNine.map fun card => { cards := [card], classing := 0 }) := by decide +kernel
  have hforms : Forms rowNine 3 := by
    have hrow : RowOf 9 rowNine := by decide +kernel
    exact .straight hrow
  refine ⟨by decide +kernel, hforms, hout, fun ⟨hrec, _⟩ => ?_⟩
  obtain ⟨c, hc, -⟩ := hrec.mpr ⟨3, hforms⟩
  rw [hout, Except.ok.injEq] at hc
  cases hc

end IosGame
