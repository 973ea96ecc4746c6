import IosGame.Poker.Chooser
import IosGame.Poker.Partition
import IosGame.Ranking

/-!
# IosGame.Poker.Order

The acceptance test of action 2 as an order.  `paied` compares two combinations of
one kind by a *key* that depends on the kind; `paied_iff` says that on combinations
of the right sizes it completes with `true` exactly when the candidate outranks the
desk by kind and key, so the order laws are those of `Outranks`.
-/

namespace IosGame

/-! ## keys -/

/-- A card as a key: rank, then suit. -/
def cardKey : Option Poker → List Int
  | some card => [card.num, card.suitnum]
  | none => []

/-- The ranks of a list of cards. -/
def nums (cards : List Poker) : List Int := cards.map fun card => (card.num : Int)

/-- The key of a combination within its kind. -/
def PokerClass.key (c : PokerClass) : List Int :=
  let cards := sortedBy Poker.lt c.cards
  if c.classing = 7 ∨ c.classing = 3 then
    [c.level, (cards[0]?.elim 0 fun card => card.suitnum)]
  else if c.classing = 5 then cardKey cards[3]?
  else if c.classing = 4 then nums cards
  else cardKey cards.getLast?

/-- `a` beats `b` in the sense of the rules: kinds above 2 can be crossed. -/
def Beats (a b : PokerClass) : Prop :=
  Outranks PokerClass.classing PokerClass.key (fun kind => 2 < kind) a b

theorem pair_lt_pair {a b c d : Int} : [a, b] < [c, d] ↔ a < c ∨ a = c ∧ b < d := by
  simp [List.cons_lt_cons_iff]

/-- `>` on cards is the order of their keys. -/
theorem gt_eq_true {a b : Poker} : a.gt b = true ↔ cardKey (some b) < cardKey (some a) := by
  unfold Poker.gt cardKey
  rw [pair_lt_pair]
  by_cases h : a.num = b.num
  · simp [h]
  · simp only [beq_iff_eq, h, if_false, decide_eq_true_eq, Int.ofNat_lt, Int.ofNat_inj]
    omega

/-! ## the loops of the test -/

/-- Both loops over a full house end in their first pass, on the fourth card. -/
theorem huluKey_eq {cards : List Poker} {start : Int} {card : Poker}
    (hlen : cards.length = 5) (hstart : start = 0 ∨ start = 1) (h : cards[3]? = some card) :
    huluKey cards start = .ok card := by
  match cards, hlen with
  | [a, b, c, d, e], _ =>
      obtain rfl : d = card := by simpa using h
      rcases hstart with rfl | rfl
      · simp [huluKey, huluKeyBody, loop, idx]
      · simp [huluKey, huluKeyBody, loop, idx]

/-- What the loop over two flushes knows: the ranks below `j` agree. -/
def SameBelow (xs ys : List Poker) (j : Int) : Prop :=
  0 ≤ j ∧ j ≤ ys.length ∧ ∀ k : Nat, k < j → xs[k]?.map Poker.num = ys[k]?.map Poker.num

/-- Flushes of equal length that agree everywhere have the same ranks. -/
theorem SameBelow.nums_eq {xs ys : List Poker} (hlen : xs.length = ys.length)
    (h : SameBelow xs ys ys.length) : nums ys = nums xs := by
  obtain ⟨-, -, hsame⟩ := h
  refine List.ext_getElem (by simp [nums, hlen]) fun k hk hk' => ?_
  simp only [nums, List.length_map] at hk hk'
  have hk'' := hsame k (by omega)
  rw [List.getElem?_eq_getElem hk', List.getElem?_eq_getElem hk] at hk''
  have hnum : xs[k].num = ys[k].num := by simpa using hk''
  simp [nums, hnum]

theorem tonghuaBody_again {xs ys : List Poker} {j j' : Int} (hj : SameBelow xs ys j)
    (h : tonghuaBody xs ys j = .ok (.again j')) :
    j < ys.length ∧ j' = j + 1 ∧ SameBelow xs ys j' := by
  unfold tonghuaBody at h
  split at h
  · rename_i hlt
    simp only [bind_eq_ok] at h
    obtain ⟨a, ha, b, hb, h⟩ := h
    split at h
    · rename_i heq
      simp only [pure_eq_ok, Except.ok.injEq, Iter.again.injEq] at h
      subst h
      obtain ⟨h0, hle, hsame⟩ := hj
      refine ⟨hlt, rfl, by omega, by omega, fun k hk => ?_⟩
      rcases Int.lt_or_eq_of_le (Int.le_of_lt_add_one hk) with hk' | hk'
      · exact hsame k hk'
      · obtain rfl : j.toNat = k := by omega
        rw [(idx_eq_ok.mp ha).2, (idx_eq_ok.mp hb).2]
        simp [heq]
    · simp at h
  · simp at h

theorem tonghuaBody_leave {xs ys : List Poker} {j r : Int} (hj : SameBelow xs ys j)
    (h : tonghuaBody xs ys j = .ok (.leave r)) :
    SameBelow xs ys r ∧
      (r = ys.length ∨ xs[r.toNat]?.map Poker.num ≠ ys[r.toNat]?.map Poker.num) := by
  unfold tonghuaBody at h
  split at h
  · simp only [bind_eq_ok] at h
    obtain ⟨a, ha, b, hb, h⟩ := h
    split at h
    · simp at h
    · rename_i hne
      simp only [pure_eq_ok, Except.ok.injEq, Iter.leave.injEq] at h
      subst h
      refine ⟨hj, .inr ?_⟩
      rw [(idx_eq_ok.mp ha).2, (idx_eq_ok.mp hb).2]
      simpa using hne
  · rename_i hge
    simp only [pure_eq_ok, Except.ok.injEq, Iter.leave.injEq] at h
    subst h
    exact ⟨hj, .inl (by have := hj.2.1; omega)⟩

/-- The loop over two flushes of equal length finds the first difference. -/
theorem tonghua_loop {xs ys : List Poker} (hlen : xs.length = ys.length) :
    ∃ j, loop .outOfFuel (tonghuaBody xs ys) (ys.length + 1) 0 = .ok j ∧ SameBelow xs ys j ∧
      (j = ys.length ∨ xs[j.toNat]?.map Poker.num ≠ ys[j.toNat]?.map Poker.num) := by
  have hstart : SameBelow xs ys 0 := ⟨Int.le_refl _, by omega, fun k hk => by omega⟩
  have hbody : ∀ j, SameBelow xs ys j → ∀ e, tonghuaBody xs ys j ≠ .error e := by
    intro j hj e
    obtain ⟨h0, -, -⟩ := hj
    unfold tonghuaBody
    split
    · rename_i hlt
      have hx : idx xs j = .ok xs[j.toNat] :=
        idx_eq_ok.mpr ⟨h0, List.getElem?_eq_getElem (by omega)⟩
      have hy : idx ys j = .ok ys[j.toNat] :=
        idx_eq_ok.mpr ⟨h0, List.getElem?_eq_getElem (by omega)⟩
      rw [hx, hy, ok_bind, ok_bind]
      split <;> simp
    · simp
  cases hrun : loop .outOfFuel (tonghuaBody xs ys) (ys.length + 1) 0 with
  | error e =>
      exfalso
      by_cases he : e = .outOfFuel
      · refine loop_ne_outOfFuel (I := SameBelow xs ys)
          (fun j => ((ys.length : Int) - j).toNat) (fun j j' hj hb => ?_)
          (fun j hj => hbody j hj _) hstart (by omega) (he ▸ hrun)
        obtain ⟨hlt, rfl, hj'⟩ := tonghuaBody_again hj hb
        exact ⟨hj', by omega⟩
      · obtain ⟨j, hj, hb⟩ := loop_fault (I := SameBelow xs ys)
          (fun _ _ hj hb => (tonghuaBody_again hj hb).2.2) hstart he hrun
        exact hbody j hj e hb
  | ok j =>
      refine ⟨j, rfl, ?_⟩
      exact loop_invariant (I := SameBelow xs ys) (fun _ _ hj hb => (tonghuaBody_again hj hb).2.2)
        (fun _ _ hj hb => tonghuaBody_leave hj hb) hstart hrun

/-- Ranks that agree below a place are compared at that place. -/
theorem nums_lt_nums {xs ys : List Poker} {n : Nat} (hx : n < xs.length) (hy : n < ys.length)
    (hsame : ∀ k, k < n → xs[k]?.map Poker.num = ys[k]?.map Poker.num)
    (h : xs[n].num < ys[n].num) : nums xs < nums ys := by
  refine List.lt_iff_exists.mpr (.inr ⟨n, by simpa [nums], by simpa [nums], fun k hk => ?_, ?_⟩)
  · have hk' := hsame k hk
    rw [List.getElem?_eq_getElem (by omega), List.getElem?_eq_getElem (by omega)] at hk'
    have hk'' : xs[k].num = ys[k].num := by simpa using hk'
    simp [nums, hk'']
  · simpa [nums] using h

/-- Two flushes of equal length: the test completes with `true` exactly when the
ranks from below are lexicographically greater. -/
theorem tonghuaPaied_eq_true {xs ys : List Poker} (hlen : xs.length = ys.length) :
    tonghuaPaied xs ys = .ok true ↔ nums ys < nums xs := by
  obtain ⟨j, hloop, ⟨h0, hle, hsame⟩, hstop⟩ := tonghua_loop hlen
  unfold tonghuaPaied
  rw [hloop, ok_bind]
  by_cases hj : j = ys.length
  · -- all ranks agree: the test reads past the end, and neither list is less
    have htrap : idx xs j = .error .outOfRange := by
      rw [hj, ← hlen]
      simp [idx]
    have heq : nums ys = nums xs := SameBelow.nums_eq hlen (hj ▸ ⟨h0, hle, hsame⟩)
    simp [htrap, heq]
  · have hlt : j.toNat < ys.length := by omega
    have hlt' : j.toNat < xs.length := by omega
    have hx : idx xs j = .ok xs[j.toNat] := idx_eq_ok.mpr ⟨h0, List.getElem?_eq_getElem hlt'⟩
    have hy : idx ys j = .ok ys[j.toNat] := idx_eq_ok.mpr ⟨h0, List.getElem?_eq_getElem hlt⟩
    have hbelow : ∀ k, k < j.toNat → xs[k]?.map Poker.num = ys[k]?.map Poker.num :=
      fun k hk => hsame k (by omega)
    have hne : xs[j.toNat].num ≠ ys[j.toNat].num := by
      rcases hstop with hstop | hstop
      · exact absurd hstop hj
      · rw [List.getElem?_eq_getElem hlt', List.getElem?_eq_getElem hlt] at hstop
        simpa using hstop
    rw [hx, hy, ok_bind, ok_bind, if_neg hj]
    simp only [pure_eq_ok, Except.ok.injEq, decide_eq_true_eq]
    refine ⟨nums_lt_nums hlt hlt' fun k hk => (hbelow k hk).symm, fun h => ?_⟩
    rcases Nat.lt_or_gt_of_ne hne with hlt'' | hgt
    · exact absurd h (lt_asymm (nums_lt_nums hlt' hlt hbelow hlt''))
    · exact hgt

/-- Greatest cards: the test completes on combinations that have any card. -/
theorem lastPaied_eq_true {xs ys : List Poker} (hx : xs ≠ []) (hy : ys ≠ []) :
    lastPaied xs ys = .ok true ↔ cardKey ys.getLast? < cardKey xs.getLast? := by
  simp only [lastPaied, lastOf, List.getLast?_eq_some_getLast hx, List.getLast?_eq_some_getLast hy,
    ok_bind, pure_eq_ok, Except.ok.injEq]
  exact gt_eq_true

/-! ## the test and the order -/

/-- Combinations of one kind above 2: the test completes with `true` exactly when
the key of the candidate is greater. -/
theorem sameClassingPaied_eq_true {a b : PokerClass} (ha : Shaped a) (hb : Shaped b)
    (hab : a.classing = b.classing) (h2 : 2 < b.classing) :
    sameClassingPaied a b (sortedBy Poker.lt a.cards) (sortedBy Poker.lt b.cards) = .ok true ↔
      b.key < a.key := by
  have hla := length_sortedBy Poker.lt a.cards
  have hlb := length_sortedBy Poker.lt b.cards
  unfold PokerClass.key sameClassingPaied
  rw [shaped_iff] at ha hb
  generalize sortedBy Poker.lt a.cards = xs at hla ⊢
  generalize sortedBy Poker.lt b.cards = ys at hlb ⊢
  rw [hab]
  by_cases h73 : b.classing = 7 ∨ b.classing = 3
  · -- straights: the level, then the suit of the lowest card
    have hx : idx xs 0 = .ok xs[0] := idx_eq_ok.mpr ⟨by omega, List.getElem?_eq_getElem (by omega)⟩
    have hy : idx ys 0 = .ok ys[0] := idx_eq_ok.mpr ⟨by omega, List.getElem?_eq_getElem (by omega)⟩
    rw [if_pos h73, if_pos h73, if_pos h73, pair_lt_pair, List.getElem?_eq_getElem (by omega),
      List.getElem?_eq_getElem (by omega), hx, hy, ok_bind, ok_bind]
    by_cases hlt : b.level < a.level
    · simp [hlt]
    · rw [if_neg hlt]
      by_cases heq : a.level = b.level
      · simp [heq]
      · rw [if_neg heq]
        simp only [pure_eq_ok, Except.ok.injEq, Bool.false_eq_true, false_iff]
        omega
  · rw [if_neg h73, if_neg h73, if_neg h73]
    by_cases h6 : b.classing = 6
    · -- fours: the greatest card
      rw [if_pos h6, if_neg (by omega), if_neg (by omega), if_neg (by omega), if_neg (by omega)]
      refine lastPaied_eq_true ?_ ?_
      · exact List.ne_nil_of_length_pos (by omega)
      · exact List.ne_nil_of_length_pos (by omega)
    · by_cases h5 : b.classing = 5
      · -- full houses: the fourth card from below
        rw [if_neg h6, if_pos h5, if_pos h5, if_pos h5, List.getElem?_eq_getElem (by omega),
          List.getElem?_eq_getElem (by omega),
          huluKey_eq (by omega) (.inl rfl) (List.getElem?_eq_getElem (by omega)),
          huluKey_eq (by omega) (.inr rfl) (List.getElem?_eq_getElem (by omega)), ok_bind, ok_bind]
        simp only [pure_eq_ok, Except.ok.injEq]
        exact gt_eq_true
      · -- flushes: the ranks from below
        have h4 : b.classing = 4 := by omega
        rw [if_neg h6, if_neg h5, if_pos h4, if_neg h5, if_pos h4, if_neg h5, if_pos h4]
        exact tonghuaPaied_eq_true (by omega)

/-- **The acceptance test is the order**: on combinations of the right sizes it
completes with `true` exactly when the candidate beats the desk. -/
theorem paied_iff {a b : PokerClass} (ha : Shaped a) (hb : Shaped b) :
    paied a b = .ok true ↔ Beats a b := by
  unfold paied Beats Outranks
  by_cases h2 : 2 < b.classing
  · rw [if_pos h2]
    by_cases hlt : b.classing < a.classing
    · simp [hlt, h2]
    · rw [if_neg hlt]
      by_cases heq : a.classing = b.classing
      · rw [if_pos heq, sameClassingPaied_eq_true ha hb heq h2]
        simp [heq]
      · simp [heq, hlt]
  · rw [if_neg h2]
    by_cases heq : a.classing = b.classing
    · have hla := length_sortedBy Poker.lt a.cards
      have hlb := length_sortedBy Poker.lt b.cards
      rw [if_pos heq]
      rw [shaped_iff] at ha hb
      rw [lastPaied_eq_true (List.ne_nil_of_length_pos (by omega))
        (List.ne_nil_of_length_pos (by omega))]
      have hka : ¬ (a.classing = 7 ∨ a.classing = 3) := by omega
      have hkb : ¬ (b.classing = 7 ∨ b.classing = 3) := by omega
      simp only [PokerClass.key, if_neg hka, if_neg hkb]
      rw [if_neg (by omega), if_neg (by omega), if_neg (by omega), if_neg (by omega)]
      simp [heq]
    · simp [heq, h2]

end IosGame
