import IosGame.Poker.Flushes
import IosGame.Poker.StraightFlushes
import IosGame.Poker.Straights

/-!
# IosGame.Poker.Classified

The four passes of `ClassingPokers` put together.  `Pooled` is what the straight-flush
and the rank pass make of a hand, up to the *pool* of cards alone in their rank, and
`Classified` what the flush and the straight pass make of the pool.
`classingPokers_exact` is the one theorem about the function that the results on it
cite: it returns the combinations of a `Classified` hand, or the flush pass traps.
-/

namespace IosGame

/-! ## full houses -/

/-- The full house of a triple and a pair. -/
def hulu (san dui : PokerClass) : PokerClass :=
  { cards := sortedBy pokerNumCompare (san.cards ++ dui.cards), classing := 5 }

/-- Triples and pairs are matched one to one from the front. -/
theorem pairHulu_eq (suntiao yidui : List PokerClass) :
    pairHulu suntiao yidui =
      (List.zipWith hulu suntiao yidui, suntiao.drop yidui.length, yidui.drop suntiao.length) := by
  induction suntiao generalizing yidui with
  | nil => cases yidui <;> simp [pairHulu]
  | cons san suntiao ih =>
      cases yidui with
      | nil => simp [pairHulu]
      | cons dui yidui => simp [pairHulu, ih, hulu]

theorem fullHouse_hulu {san dui : PokerClass} {v w : Nat} (hsan : OfRank 2 3 v san)
    (hdui : OfRank 1 2 w dui) (hne : v ≠ w) : FullHouse (hulu san dui).cards := by
  refine ⟨v, w, hne, ?_⟩
  rw [← hsan.cards, ← hdui.cards, ← List.map_append]
  exact (perm_sortedBy _ _).map _

/-! ## the orders of the passes -/

theorem pairwise_suit (cards : List Poker) :
    (sortedBy pokerSuitCompare cards).Pairwise SuitOrderLe := by
  refine (pairwise_sortedBy ?_ ?_ cards).imp fun {a b} h => ?_
  · intro a b h
    simp only [pokerSuitCompare, beq_iff_eq] at h ⊢
    split_ifs at h ⊢ <;> simp at h ⊢ <;> omega
  · intro a b c hab hbc
    simp only [pokerSuitCompare, beq_iff_eq] at hab hbc ⊢
    split_ifs at hab hbc ⊢ <;> simp at hab hbc ⊢ <;> omega
  · simp only [pokerSuitCompare, beq_iff_eq] at h
    unfold SuitOrderLe
    split_ifs at h <;> simp at h <;> omega

theorem SuitOrderLe.le {a b : Poker} (h : SuitOrderLe a b) : b.suitnum ≤ a.suitnum := by
  obtain hlt | ⟨heq, -⟩ := h <;> omega

/-- Cards whose ranks occur once are of descending ranks when they are sorted. -/
theorem descending_num {cards : List Poker} (h : (cards.map Poker.num).Nodup) :
    ((sortedBy pokerNumCompare cards).map Poker.num).Pairwise fun a b => b < a := by
  have hnodup : ((sortedBy pokerNumCompare cards).map Poker.num).Nodup :=
    ((perm_sortedBy _ _).map Poker.num).nodup_iff.mpr h
  have hle : ((sortedBy pokerNumCompare cards).map Poker.num).Pairwise fun a b => b ≤ a :=
    List.pairwise_map.mpr (pairwise_num cards)
  exact (hle.and hnodup).imp fun hab => lt_of_le_of_ne hab.1 (Ne.symm hab.2)

/-! ## the passes together -/

/-- A hand after the straight-flush and the rank pass. -/
structure Pooled (origins : List Poker) where
  straightFlushes : List PokerClass
  rest : List Poker
  fours : List PokerClass
  suntiao : List PokerClass
  yidui : List PokerClass
  pool : List Poker
  suit : SuitResult (sortedBy pokerSuitCompare origins) straightFlushes rest
  tally : Tally (sortedBy pokerNumCompare rest) fours suntiao yidui pool []

/-- A hand after all passes. -/
structure Classified (origins : List Poker) extends Pooled origins where
  flushes : List PokerClass
  unflushed : List Poker
  straights : List PokerClass
  left : List Poker
  flush : FlushTally (sortedBy pokerSuitCompare pool) flushes unflushed
  few : ∀ s, suitCount s unflushed ≤ 4
  straight : StraightTally (sortedBy pokerNumCompare unflushed) straights left
  visits : Visits ((sortedBy pokerNumCompare unflushed).map Poker.num) (left.map Poker.num)

/-- The combinations of a classified hand, in the order of the output. -/
def Classified.out {origins : List Poker} (k : Classified origins) : List PokerClass :=
  k.straightFlushes ++ k.fours ++ List.zipWith hulu k.suntiao k.yidui ++ k.flushes ++ k.straights ++
    k.suntiao.drop k.yidui.length ++ k.yidui.drop k.suntiao.length ++ singles k.left

/-- Whether the flush pass traps on the pool. -/
def Pooled.Traps {origins : List Poker} (p : Pooled origins) : Prop :=
  FlushTrap (sortedBy pokerSuitCompare p.pool)

theorem Pooled.nodup_pool {origins : List Poker} (p : Pooled origins) :
    (p.pool.map Poker.num).Nodup :=
  (List.pairwise_map.mpr p.tally.descDone).imp fun hab => Nat.ne_of_gt hab

/-- The flush and the straight pass on a pool. -/
theorem Pooled.finish {origins : List Poker} (p : Pooled origins) {fuel n : Nat}
    (before : List PokerClass) (hlen : p.pool.length ≤ n) (hfuel : loopFuel n ≤ fuel) :
    (∃ k : Classified origins, k.toPooled = p ∧ ¬ p.Traps ∧
      ∃ flush straight, flushPass fuel before (sortedBy pokerSuitCompare p.pool) = .ok flush ∧
        straightPass fuel flush.pokersArray (sortedBy pokerNumCompare flush.tmpNum) = .ok straight ∧
        straight.pokersArray = before ++ k.flushes ++ k.straights ∧ straight.tmpNum = k.left) ∨
      flushPass fuel before (sortedBy pokerSuitCompare p.pool) = .error .outOfRange ∧ p.Traps := by
  have hmore : (sortedBy pokerSuitCompare p.pool).length < fuel := by
    unfold loopFuel at hfuel
    rw [length_sortedBy]
    omega
  obtain ⟨flush, hflush, ⟨flushes, harray, htally, hfew⟩, hnot⟩ | htrap :=
    flushPass_exact before (pairwise_suit p.pool) hmore
  · have hperm := htally.sublist.length_le
    have hdesc : ((sortedBy pokerNumCompare flush.tmpNum).map Poker.num).Pairwise
        fun a b => b < a := by
      refine descending_num (List.Nodup.sublist (htally.sublist.map _) ?_)
      exact ((perm_sortedBy _ _).map _).nodup_iff.mpr p.nodup_pool
    obtain ⟨straight, hstraight, straights, harray', htally', hvisits⟩ :=
      straightPass_exact flush.pokersArray hdesc (n := n)
        (by rw [length_sortedBy] at hperm ⊢; omega) hfuel
    refine .inl ⟨{ p with
      flushes := flushes
      unflushed := flush.tmpNum
      straights := straights
      left := straight.tmpNum
      flush := htally
      few := hfew
      straight := htally'
      visits := hvisits }, rfl, hnot, flush, straight, hflush, hstraight, ?_, rfl⟩
    rw [harray', harray]
  · exact .inr htrap

/-- **`ClassingPokers` is exact**: it returns the combinations of a classified hand, or
the flush pass traps. -/
theorem classingPokers_exact (origins : List Poker) :
    ∃ p : Pooled origins,
      (∃ k : Classified origins, k.toPooled = p ∧ ¬ p.Traps ∧
        classingPokers origins = .ok k.out) ∨
      classingPokers origins = .error .outOfRange ∧ p.Traps := by
  obtain ⟨suit, hsuit, hsuitResult⟩ := straightFlushPass_exact (n := origins.length)
    ((pairwise_suit origins).imp SuitOrderLe.le) (by simp) (le_refl _)
  have hrest : suit.tmpSuit.length ≤ origins.length := by
    have := hsuitResult.sublist.length_le
    rwa [length_sortedBy] at this
  have hmore : (sortedBy pokerNumCompare suit.tmpSuit).length < loopFuel origins.length := by
    rw [length_sortedBy]
    unfold loopFuel
    omega
  obtain ⟨rank, hrank, fours, harray, htally⟩ :=
    rankPass_exact suit.pokersArray (pairwise_num suit.tmpSuit) hmore
  let p : Pooled origins :=
    { straightFlushes := suit.pokersArray
      rest := suit.tmpSuit
      fours := fours
      suntiao := rank.suntiao
      yidui := rank.yidui
      pool := rank.tmpNum
      suit := hsuitResult
      tally := htally }
  have hpool : p.pool.length ≤ origins.length := by
    have := htally.sublist.length_le
    rw [List.append_nil, length_sortedBy] at this
    exact le_trans this hrest
  refine ⟨p, ?_⟩
  rw [classingPokers, hsuit, ok_bind, hrank, ok_bind, pairHulu_eq]
  obtain ⟨k, hk, hnot, flush, straight, hflush, hstraight, hout, hleft⟩ | ⟨htrap, h⟩ :=
    p.finish (rank.pokersArray ++ List.zipWith hulu rank.suntiao rank.yidui) hpool (le_refl _)
  · refine .inl ⟨k, hk, hnot, ?_⟩
    simp only
    rw [hflush, ok_bind, hstraight, ok_bind, hout, hleft, harray]
    rw [Classified.out, hk]
    rfl
  · refine .inr ⟨?_, h⟩
    simp only
    rw [htrap, error_bind]

/-- What `ClassingPokers` returns are the combinations of a classified hand. -/
theorem exists_classified {origins : List Poker} {out : List PokerClass}
    (h : classingPokers origins = .ok out) : ∃ k : Classified origins, k.out = out := by
  obtain ⟨p, ⟨k, -, -, hk⟩ | ⟨herror, -⟩⟩ := classingPokers_exact origins
  · rw [h, Except.ok.injEq] at hk
    exact ⟨k, hk.symm⟩
  · rw [h] at herror
    cases herror

end IosGame
