import IosGame.Poker.Decisive

/-!
# IosGame.Poker.Hulu

How full houses are ranked.  Both loops over the sorted cards end in their first pass and
pick the fourth card, which is of the triple only if the triple is above the pair.  So the
test ranks full houses by the higher of their two ranks (`hulu_accepts_iff`).
-/

namespace IosGame

/-- A full house of the triple `t` and the pair `p`. -/
structure Hulu (c : PokerClass) (t p : Nat) : Prop where
  classing : c.classing = 5
  ne : t ≠ p
  nums : (c.cards.map Poker.num).Perm (List.replicate 3 t ++ List.replicate 2 p)

/-- The full house `c` of the triple `t` and the pair `p` is ranked below one with the pair
`q`, whatever the triple of that one is, if it is lower: the pair is above both ranks of
`c`, or it is of the rank of the pair of `c` and `c` has the club of that rank. -/
def Overtopped (c : PokerClass) (t p q : Nat) : Prop :=
  t < q ∧ p < q ∨ p = q ∧ t < q ∧ deckCard 0 q ∈ c.cards

instance (c : PokerClass) (t p q : Nat) : Decidable (Overtopped c t p q) :=
  inferInstanceAs (Decidable (_ ∨ _))

namespace Hulu

variable {a b c : PokerClass} {t p t' p' : Nat}

theorem shaped (h : Hulu c t p) : Shaped c := by
  simp [Shaped, h.classing, length_of_fullHouse h.nums]

/-- The ranks in ascending order. -/
theorem nums_sorted (h : Hulu c t p) : (sortedBy Poker.lt c.cards).map Poker.num =
    if t < p then [t, t, t, p, p] else [p, p, t, t, t] := by
  have hperm := ((perm_sortedBy Poker.lt c.cards).map Poker.num).trans h.nums
  have hsorted : ((sortedBy Poker.lt c.cards).map Poker.num).Pairwise fun v w => v ≤ w :=
    List.pairwise_map.mpr (pairwise_num_le c.cards)
  have hne := h.ne
  split
  · refine hperm.eq_of_pairwise (fun v w _ _ hvw hwv => le_antisymm hvw hwv) hsorted ?_
    simp
    omega
  · refine (hperm.trans List.perm_append_comm).eq_of_pairwise
      (fun v w _ _ hvw hwv => le_antisymm hvw hwv) hsorted ?_
    simp
    omega

/-- The card a full house is ranked by is of the higher of its ranks, and if that is the
pair, it is the lower card of the pair. -/
theorem exists_keyCard (h : Hulu c t p) : ∃ x ∈ c.cards, c.key = cardKey (some x) ∧
    x.num = max t p ∧ (t < p → ∀ y ∈ c.cards, y.num = p → x.suitnum ≤ y.suitnum) := by
  have hnums := h.nums_sorted
  have hkey : c.key = cardKey (sortedBy Poker.lt c.cards)[3]? := by
    simp [PokerClass.key, h.classing]
  have hmem : ∀ x, x ∈ sortedBy Poker.lt c.cards ↔ x ∈ c.cards := fun _ => mem_sortedBy
  have hsorted := pairwise_lt c.cards
  rw [hkey]
  simp only [← hmem]
  clear hmem hkey
  generalize sortedBy Poker.lt c.cards = xs at hnums hsorted ⊢
  split at hnums
  · -- the pair is the last two cards
    simp only [List.map_eq_cons_iff, List.map_eq_nil_iff] at hnums
    obtain ⟨x₀, _, rfl, h₀, x₁, _, rfl, h₁, x₂, _, rfl, h₂, x₃, _, rfl, h₃, x₄, _, rfl, h₄, rfl⟩ :=
      hnums
    refine ⟨x₃, by simp, rfl, by omega, fun _ y hy hynum => ?_⟩
    simp only [List.pairwise_cons] at hsorted
    have hlast := Poker.lt_eq_false (hsorted.2.2.2.1 x₄ (by simp))
    simp only [List.mem_cons, List.not_mem_nil, or_false] at hy
    obtain rfl | rfl | rfl | rfl | rfl := hy <;> omega
  · simp only [List.map_eq_cons_iff, List.map_eq_nil_iff] at hnums
    obtain ⟨x₀, _, rfl, h₀, x₁, _, rfl, h₁, x₂, _, rfl, h₂, x₃, _, rfl, h₃, x₄, _, rfl, h₄, rfl⟩ :=
      hnums
    exact ⟨x₃, by simp, rfl, by omega, fun hlt => by omega⟩

/-- Two full houses of distinct cards have different triples, and no triple has the rank
of the other's pair. -/
theorem ranks_ne (ha : Hulu a t p) (hb : Hulu b t' p') (hdeck : DeckCards (a.cards ++ b.cards)) :
    t ≠ t' ∧ t ≠ p' ∧ p ≠ t' := by
  have hcount : ∀ v, rankCount v a.cards + rankCount v b.cards ≤ 4 := fun v => by
    have := hdeck.rankCount_le v
    rwa [rankCount_append] at this
  have ht := hcount t
  have hp := hcount t'
  rw [rankCount_fullHouse ha.nums, rankCount_fullHouse hb.nums] at ht hp
  refine ⟨?_, ?_, ?_⟩
  · rintro rfl
    simp at ht
    omega
  · rintro rfl
    simp at ht
    omega
  · rintro rfl
    simp at hp
    omega

/-- Two pairs of one rank are its four cards. -/
theorem club_mem (ha : Hulu a t p) (hb : Hulu b t' p) (hdeck : DeckCards (a.cards ++ b.cards)) :
    deckCard 0 p ∈ a.cards ∨ deckCard 0 p ∈ b.cards := by
  by_contra hnot
  rw [← List.mem_append] at hnot
  have hpair : p ∈ a.cards.map Poker.num := by
    rw [ha.nums.mem_iff]
    simp
  obtain ⟨x, hx, rfl⟩ := List.mem_map.mp hpair
  have hclub : deckCard 0 x.num ∈ generatePokers := by
    have hall : ∀ v ≤ 12, deckCard 0 v ∈ generatePokers := by decide
    exact hall x.num (hdeck.num_le (List.mem_append_left _ hx))
  have hfive : DeckCards (deckCard 0 x.num :: (a.cards ++ b.cards)) :=
    ⟨List.nodup_cons.mpr ⟨hnot, hdeck.nodup⟩, List.cons_subset.mpr ⟨hclub, hdeck.deck⟩⟩
  have hle := hfive.rankCount_le x.num
  rw [rankCount_cons, rankCount_append, rankCount_fullHouse ha.nums,
    rankCount_fullHouse hb.nums] at hle
  simp [deckCard] at hle
  omega

/-- **The test ranks full houses by their higher rank**; between two pairs of one rank
the club decides against its full house. -/
theorem beats_iff (ha : Hulu a t p) (hb : Hulu b t' p') (hdeck : DeckCards (a.cards ++ b.cards)) :
    paied a b = .ok true ↔
      max t' p' < max t p ∨ max t' p' = max t p ∧ deckCard 0 p' ∈ b.cards := by
  obtain ⟨x, hx, hxkey, hxnum, hxlow⟩ := ha.exists_keyCard
  obtain ⟨y, hy, hykey, hynum, hylow⟩ := hb.exists_keyCard
  have hbeats : paied a b = .ok true ↔ b.key < a.key := by
    rw [paied_iff ha.shaped hb.shaped]
    simp [Beats, Outranks, ha.classing, hb.classing]
  have hsuits : max t' p' = max t p →
      (y.suitnum < x.suitnum ↔ deckCard 0 p' ∈ b.cards) := by
    intro hmax
    obtain ⟨hne, hne', hne''⟩ := ranks_ne ha hb hdeck
    obtain ⟨rfl, hlt, hlt'⟩ : p' = p ∧ t < p ∧ t' < p' := by omega
    constructor
    · intro hsuit
      refine (club_mem ha hb hdeck).resolve_left fun hclub => ?_
      have hle : x.suitnum ≤ 0 := hxlow hlt _ hclub rfl
      omega
    · intro hclub
      have hle : y.suitnum ≤ 0 := hylow hlt' _ hclub rfl
      have hpos : x.suitnum ≠ 0 := fun hzero => by
        refine not_same_of_disjoint hdeck hx hclub ?_
        rw [max_eq_right hlt.le] at hxnum
        simp [Poker.same, deckCard, hxnum, hzero]
      omega
  rw [hbeats, hxkey, hykey, cardKey, cardKey, pair_lt_pair, Int.ofNat_lt, Int.natCast_inj,
    Int.ofNat_lt, hxnum, hynum]
  exact or_congr_right (and_congr_right hsuits)

end Hulu

/-- **Full houses are ranked by their triples** on exactly those where the one with the
lower triple does not overtop the other. -/
theorem hulu_accepts_iff {a b : PokerClass} {t p t' p' : Nat} (ha : Hulu a t p) (hb : Hulu b t' p')
    (hdeck : DeckCards (a.cards ++ b.cards)) :
    (paied a b = .ok true ↔ t' < t) ↔
      (t' < t → ¬ Overtopped a t p p') ∧ (t < t' → ¬ Overtopped b t' p' p) := by
  have hne := ha.ne
  have hne' := hb.ne
  obtain ⟨htt, htp, hpt⟩ := Hulu.ranks_ne ha hb hdeck
  rw [Hulu.beats_iff ha hb hdeck]
  have hclub : p = p' → (deckCard 0 p' ∈ b.cards ↔ deckCard 0 p' ∉ a.cards) := by
    rintro rfl
    constructor
    · intro hb' ha'
      exact not_same_of_disjoint hdeck ha' hb' (Poker.same_self _)
    · exact (Hulu.club_mem ha hb hdeck).resolve_left
  unfold Overtopped
  obtain hlt | hlt := Nat.lt_or_gt_of_ne htt
  · -- the desk has the greater triple: the candidate is accepted where it overtops the desk
    simp only [hlt, Nat.lt_asymm hlt, iff_false, false_implies, true_and, true_implies]
    rw [not_iff_not]
    by_cases hp : p = p'
    · subst hp
      by_cases hmem : deckCard 0 p ∈ b.cards
      · simp only [hmem, and_true, true_and]
        omega
      · simp only [hmem, and_false, or_false]
        omega
    · omega
  · -- the candidate has the greater triple: it is accepted where the desk does not overtop it
    simp only [show t' < t from hlt, Nat.lt_asymm hlt, iff_true, false_implies, and_true,
      true_implies]
    by_cases hp : p = p'
    · subst hp
      have hswap := hclub rfl
      by_cases hmem : deckCard 0 p ∈ a.cards
      · have hnot : deckCard 0 p ∉ b.cards := fun h => hswap.mp h hmem
        simp only [hmem, hnot, and_true, true_and, and_false, or_false]
        omega
      · have hb' : deckCard 0 p ∈ b.cards := hswap.mpr hmem
        simp only [hmem, hb', and_true, and_false, or_false]
        omega
    · omega

/-- A full house of the triple `t` and the pair `p`, the triple in the lower suits. -/
def huluOf (t p : Nat) : PokerClass :=
  { cards := [deckCard 0 t, deckCard 1 t, deckCard 2 t, deckCard 0 p, deckCard 1 p], classing := 5 }

theorem hulu_huluOf {t p : Nat} (h : t ≠ p) : Hulu (huluOf t p) t p := ⟨rfl, h, .refl _⟩

theorem hulu_accepts_tripleHigh : paied (huluOf 9 2) (huluOf 4 3) = .ok true ↔ 4 < 9 :=
  (hulu_accepts_iff (hulu_huluOf (by decide)) (hulu_huluOf (by decide)) (by decide +kernel)).mpr
    (by decide +kernel)

/-- **A full house that beats a higher triple**: three 3s with two aces against three 4s
with two 5s. -/
theorem lower_triple_accepted : Hulu (huluOf 0 11) 0 11 ∧ Hulu (huluOf 1 2) 1 2 ∧
    DeckCards ((huluOf 0 11).cards ++ (huluOf 1 2).cards) ∧
    paied (huluOf 0 11) (huluOf 1 2) = .ok true ∧
    ¬ (paied (huluOf 0 11) (huluOf 1 2) = .ok true ↔ 1 < 0) := by
  have hpaied : paied (huluOf 0 11) (huluOf 1 2) = .ok true := by decide +kernel
  refine ⟨hulu_huluOf (by decide), hulu_huluOf (by decide), by decide +kernel, hpaied, ?_⟩
  rw [hpaied]
  decide

end IosGame
