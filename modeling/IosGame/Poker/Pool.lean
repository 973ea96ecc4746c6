import IosGame.Poker.Chosen
import IosGame.Poker.Sound

/-!
# IosGame.Poker.Pool

What the passes of `ClassingPokers` hand over to each other, read off a hand of distinct
cards of the deck: the cards outside the first row of their suit (`restOf`), those of
them alone in their rank (`poolCards`), and the ones no flush takes (`straightCards`).
A `Pooled` or `Classified` hand has these cards at the places between its passes.
-/

namespace IosGame

/-! ## distinct cards of the deck -/

/-- A hand of distinct cards of the deck. -/
structure DeckCards (hand : List Poker) : Prop where
  nodup : hand.Nodup
  deck : hand ⊆ generatePokers

instance (hand : List Poker) : Decidable (DeckCards hand) :=
  decidable_of_iff (hand.Nodup ∧ hand ⊆ generatePokers)
    ⟨fun h => ⟨h.1, h.2⟩, fun h => ⟨h.nodup, h.deck⟩⟩

namespace DeckCards

variable {hand : List Poker}

theorem proper (h : DeckCards hand) : Proper hand := proper_generatePokers.subset h.deck

theorem num_le (h : DeckCards hand) {card : Poker} (hcard : card ∈ hand) : card.num ≤ 12 := by
  have hall : ∀ c ∈ generatePokers, c.num ≤ 12 := by decide
  exact hall card (h.deck hcard)

theorem perm {hand' : List Poker} (h : DeckCards hand) (hperm : hand'.Perm hand) :
    DeckCards hand' :=
  ⟨hperm.nodup_iff.mpr h.nodup, fun _ hcard => h.deck (hperm.subset hcard)⟩

theorem sublist {hand' : List Poker} (h : DeckCards hand) (hsub : hand'.Sublist hand) :
    DeckCards hand' :=
  ⟨h.nodup.sublist hsub, fun _ hcard => h.deck (hsub.subset hcard)⟩

/-- A rank has four cards. -/
theorem rankCount_le (h : DeckCards hand) (v : Nat) : rankCount v hand ≤ 4 := by
  have hle : rankCount v hand ≤ rankCount v generatePokers :=
    (List.subperm_of_subset h.nodup h.deck).countP_le _
  refine le_trans hle ?_
  by_cases hv : v ≤ 12
  · have hall : ∀ w ≤ 12, rankCount w generatePokers ≤ 4 := by decide
    exact hall v hv
  · have hnums : ∀ c ∈ generatePokers, c.num ≤ 12 := by decide
    rw [rankCount, List.countP_eq_zero.mpr]
    · omega
    · intro c hc
      have := hnums c hc
      simp only [beq_iff_eq]
      omega

/-- Sorted by suit, the cards descend strictly. -/
theorem pairwise_suitOrder (h : DeckCards hand) :
    (sortedBy pokerSuitCompare hand).Pairwise SuitOrder := by
  have hperm := perm_sortedBy pokerSuitCompare hand
  have hnodup := hperm.nodup_iff.mpr h.nodup
  refine ((pairwise_suit hand).and hnodup).imp_of_mem fun {a b} ha hb ⟨hle, hne⟩ => ?_
  obtain hlt | ⟨hsuit, hnum⟩ := hle
  · exact .inl hlt
  · refine .inr ⟨hsuit, lt_of_le_of_ne hnum fun heq => hne ?_⟩
    refine h.proper a (hperm.subset ha) b (hperm.subset hb) ?_
    simp [Poker.same, hsuit, heq]

end DeckCards

/-! ## the cards outside straight flushes -/

/-- The cards of a hand outside the first row of their suit. -/
def restOf (hand : List Poker) : List Poker := hand.filter fun card => !inFirstRow hand card

theorem mem_suitNums {hand : List Poker} {s v : Nat} :
    v ∈ suitNums hand s ↔ ∃ card ∈ hand, card.suitnum = s ∧ card.num = v := by
  simp [suitNums, and_assoc]

theorem inFirstRow_perm {hand hand' : List Poker} (h : hand.Perm hand') :
    inFirstRow hand = inFirstRow hand' := by
  funext card
  have hnums : ∀ v, v ∈ suitNums hand card.suitnum ↔ v ∈ suitNums hand' card.suitnum :=
    fun v => by simp only [mem_suitNums, h.mem_iff]
  unfold inFirstRow
  have hfirst : firstRow (suitNums hand card.suitnum) = firstRow (suitNums hand' card.suitnum) :=
    find?_held_congr hnums
  rw [hfirst]

/-- The straight-flush pass leaves the cards outside the first row of their suit. -/
theorem Pooled.perm_restOf {hand : List Poker} (p : Pooled hand) (h : DeckCards hand) :
    p.rest.Perm (restOf hand) := by
  have hperm := perm_sortedBy pokerSuitCompare hand
  rw [p.suit.first h.pairwise_suitOrder, inFirstRow_perm hperm]
  exact hperm.filter _

/-! ## the pool -/

/-- The cards outside straight flushes that are alone in their rank. -/
def poolCards (hand : List Poker) : List Poker :=
  (restOf hand).filter fun card => rankCount card.num (restOf hand) == 1

theorem deckCards_restOf {hand : List Poker} (h : DeckCards hand) : DeckCards (restOf hand) :=
  h.sublist List.filter_sublist

theorem deckCards_poolCards {hand : List Poker} (h : DeckCards hand) :
    DeckCards (poolCards hand) :=
  (deckCards_restOf h).sublist List.filter_sublist

/-- The only card of its rank. -/
theorem eq_of_rankCount_one {cards : List Poker} {a b : Poker} (ha : a ∈ cards) (hb : b ∈ cards)
    (heq : a.num = b.num) (h : rankCount b.num cards = 1) : a = b := by
  rw [rankCount, List.countP_eq_length_filter] at h
  obtain ⟨x, hx⟩ := List.length_eq_one_iff.mp h
  have hmem : ∀ c ∈ cards, c.num = b.num → c = x := fun c hc hnum => by
    have : c ∈ cards.filter (·.num == b.num) := List.mem_filter.mpr ⟨hc, by simpa using hnum⟩
    rwa [hx, List.mem_singleton] at this
  rw [hmem a ha heq, ← hmem b hb rfl]

/-- The rank pass leaves the pool. -/
theorem Pooled.perm_poolCards {hand : List Poker} (p : Pooled hand) (h : DeckCards hand) :
    p.pool.Perm (poolCards hand) := by
  have hrest := p.perm_restOf h
  have hnum := perm_sortedBy pokerNumCompare p.rest
  have hsub : p.pool.Sublist (sortedBy pokerNumCompare p.rest) := by
    have := p.tally.sublist
    rwa [List.append_nil] at this
  have hcount : ∀ v, rankCount v (restOf hand) = rankCount v p.pool + 4 * groupsOf v p.fours +
      3 * groupsOf v p.suntiao + 2 * groupsOf v p.yidui := by
    intro v
    have htotal := p.tally.total v
    rwa [List.append_nil, rankCount_perm v (hnum.trans hrest)] at htotal
  have hmem : ∀ card ∈ p.pool, card ∈ restOf hand :=
    fun card hcard => (hnum.trans hrest).subset (hsub.subset hcard)
  have hdeck := deckCards_restOf h
  refine (List.perm_ext_iff_of_nodup (p.nodup_pool.of_map _) ?_).mpr fun card => ?_
  · exact (deckCards_poolCards h).nodup
  · rw [poolCards, List.mem_filter, beq_iff_eq]
    have hv := hcount card.num
    have honce := p.tally.once card.num
    refine ⟨fun hcard => ⟨hmem card hcard, ?_⟩, fun ⟨hcard, hone⟩ => ?_⟩
    · have hpos : 0 < rankCount card.num p.pool := rankCount_pos.mpr ⟨card, hcard, rfl⟩
      have hle := hdeck.rankCount_le card.num
      omega
    · have hpos : 0 < rankCount card.num p.pool := by omega
      obtain ⟨x, hx, hxnum⟩ := rankCount_pos.mp hpos
      rwa [← eq_of_rankCount_one (hmem x hx) hcard hxnum hone]

/-- Where the flush pass traps: a pool of ten cards or more, five of them or more in the
highest suit it has. -/
def PoolTrap (hand : List Poker) : Prop :=
  10 ≤ (poolCards hand).length ∧
    ∃ s, 5 ≤ suitCount s (poolCards hand) ∧ ∀ card ∈ poolCards hand, card.suitnum ≤ s

/-- The first suit of a sorted list is the highest one. -/
theorem five_le_firstSuitCount {start : List Poker} (hsorted : start.Pairwise SuitOrderLe) :
    5 ≤ firstSuitCount start ↔
      ∃ s, 5 ≤ suitCount s start ∧ ∀ card ∈ start, card.suitnum ≤ s := by
  cases start with
  | nil => simp [firstSuitCount, suitCount]
  | cons x start =>
      have hle : ∀ card ∈ x :: start, card.suitnum ≤ x.suitnum := by
        intro card hcard
        obtain rfl | hcard := List.mem_cons.mp hcard
        · exact le_refl _
        · exact ((List.pairwise_cons.mp hsorted).1 card hcard).le
      show 5 ≤ suitCount x.suitnum (x :: start) ↔ _
      refine ⟨fun h => ⟨x.suitnum, h, hle⟩, ?_⟩
      rintro ⟨s, hs, htop⟩
      have hpos : 0 < suitCount s (x :: start) := by omega
      obtain ⟨y, hy, hys⟩ := List.countP_pos_iff.mp hpos
      have hsx : x.suitnum = s := by
        have h1 := hle y hy
        have h2 := htop x List.mem_cons_self
        rw [beq_iff_eq] at hys
        omega
      rwa [hsx]

theorem Pooled.traps_iff {hand : List Poker} (p : Pooled hand) (h : DeckCards hand) :
    p.Traps ↔ PoolTrap hand := by
  have hperm := (perm_sortedBy pokerSuitCompare p.pool).trans (p.perm_poolCards h)
  unfold Pooled.Traps FlushTrap PoolTrap
  rw [five_le_firstSuitCount (pairwise_suit p.pool), hperm.length_eq]
  simp only [suitCount_perm _ hperm, hperm.mem_iff]

/-! ## the cards straights are made of -/

/-- The cards of the pool that no flush takes: of `n` cards of a suit, the lowest
`n % 5`. -/
def straightCards (hand : List Poker) : List Poker :=
  (poolCards hand).filter fun card =>
    (poolCards hand).countP (fun x => x.suitnum == card.suitnum && x.num ≤ card.num) ≤
      suitCount card.suitnum (poolCards hand) % 5

namespace Classified

variable {hand : List Poker} (k : Classified hand)

/-- The flushes and the cards left are the pool. -/
theorem perm_flushed : (cardsOf k.flushes ++ k.unflushed).Perm k.pool :=
  k.flush.perm.trans (perm_sortedBy _ _)

/-- The remainder of five is left in a suit. -/
theorem suitCount_unflushed (s : Nat) : suitCount s k.unflushed = suitCount s k.pool % 5 := by
  have htotal := k.flush.total s
  have hfew := k.few s
  rw [suitCount_perm s (perm_sortedBy _ _)] at htotal
  omega

/-- The cards not above a card in its suit, counted in the pool, are as many as are left
of them if it is left, and more if it is not. -/
theorem mem_unflushed {card : Poker} (hcard : card ∈ k.pool) :
    card ∈ k.unflushed ↔
      k.pool.countP (fun x => x.suitnum == card.suitnum && x.num ≤ card.num) ≤
        suitCount card.suitnum k.pool % 5 := by
  rw [← k.suitCount_unflushed, ← k.perm_flushed.countP_eq, List.countP_append]
  have hnodup : (cardsOf k.flushes ++ k.unflushed).Nodup :=
    k.perm_flushed.nodup_iff.mpr (k.nodup_pool.of_map _)
  have hdisjoint := (List.nodup_append.mp hnodup).2.2
  constructor
  · intro hleft
    have hnone : (cardsOf k.flushes).countP
        (fun x => x.suitnum == card.suitnum && x.num ≤ card.num) = 0 := by
      refine List.countP_eq_zero.mpr fun x hx hbelow => ?_
      simp only [Bool.and_eq_true, beq_iff_eq, decide_eq_true_eq] at hbelow
      obtain ⟨c, hc, hxc⟩ := List.mem_flatMap.mp hx
      have hle := k.flush.top c hc x hxc card hleft hbelow.1.symm
      have hxpool : x ∈ k.pool := k.perm_flushed.subset (List.mem_append_left _ hx)
      have heq : x = card :=
        List.inj_on_of_nodup_map k.nodup_pool hxpool hcard (le_antisymm hbelow.2 hle)
      exact hdisjoint x hx card hleft heq
    rw [hnone, zero_add]
    refine List.countP_mono_left fun x _ hx => ?_
    simp only [Bool.and_eq_true] at hx
    exact hx.1
  · intro hle
    by_contra hnot
    have hflushed : card ∈ cardsOf k.flushes :=
      (List.mem_append.mp (k.perm_flushed.mem_iff.mpr hcard)).resolve_right hnot
    obtain ⟨c, hc, hcardc⟩ := List.mem_flatMap.mp hflushed
    have hpos : 0 < (cardsOf k.flushes).countP
        (fun x => x.suitnum == card.suitnum && x.num ≤ card.num) :=
      List.countP_pos_iff.mpr ⟨card, hflushed, by simp⟩
    have hall : suitCount card.suitnum k.unflushed ≤ k.unflushed.countP
        (fun x => x.suitnum == card.suitnum && x.num ≤ card.num) := by
      refine List.countP_mono_left fun x hx hsuit => ?_
      have hbelow := k.flush.top c hc card hcardc x hx (by simpa using hsuit)
      simpa [hbelow] using hsuit
    omega

/-- The flush pass leaves the cards straights are made of. -/
theorem perm_straightCards (h : DeckCards hand) : k.unflushed.Perm (straightCards hand) := by
  have hpool := k.perm_poolCards h
  have hsub : k.unflushed ⊆ k.pool :=
    fun card hcard => k.perm_flushed.subset (List.mem_append_right _ hcard)
  have hnodup : (cardsOf k.flushes ++ k.unflushed).Nodup :=
    k.perm_flushed.nodup_iff.mpr (k.nodup_pool.of_map _)
  refine (List.perm_ext_iff_of_nodup (List.nodup_append.mp hnodup).2.1 ?_).mpr fun card => ?_
  · exact (deckCards_poolCards h).nodup.filter _
  · rw [straightCards, List.mem_filter, decide_eq_true_eq, ← hpool.mem_iff,
      ← suitCount_perm card.suitnum hpool, ← hpool.countP_eq]
    refine ⟨fun hcard => ⟨hsub hcard, (k.mem_unflushed (hsub hcard)).mp hcard⟩, ?_⟩
    exact fun ⟨hcard, hle⟩ => (k.mem_unflushed hcard).mpr hle

end Classified

end IosGame
