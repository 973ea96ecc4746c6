import IosGame.Poker.Partition

/-!
# IosGame.Poker.Ends

The loops of `ClassingPokers` end: `loopFuel` passes are always enough, whatever
the cards (`fueled_classingPokers`).

Every pass of the outer loops either moves the position on or cuts cards out and
moves it back by no more than it shortens the list, so `count - ele` falls; the
two loops that also run through the rows of `SHUNZI` count ten rows for every
position.  The same measures end every loop from any state at all (`LoopsEnd`), an
index that has left the list ending it at once.
-/

namespace IosGame

/-! ## cuts -/

theorem fueled_readRun (l : List Poker) (i : Int) (k : Nat) : Fueled (readRun l i k) := by
  induction k generalizing i with
  | zero => simp [readRun, Fueled]
  | succ k ih =>
      exact (fueled_idx _ _).bind fun _ _ => (ih _).bind fun _ _ => fueled_pure _

theorem fueled_removeRun (l : List Poker) (i : Int) (k : Nat) : Fueled (removeRun l i k) := by
  induction k generalizing l with
  | zero => simp [removeRun, Fueled]
  | succ k ih => exact (fueled_removeAt _ _).bind fun _ _ => ih _

theorem fueled_readLocs (l : List Poker) (k : Nat) (loc : List Int) :
    Fueled (readLocs l k loc) := by
  induction k generalizing loc with
  | zero => simp [readLocs, Fueled]
  | succ k ih =>
      cases loc with
      | nil => simp [readLocs, Fueled]
      | cons j loc =>
          exact (fueled_idx _ _).bind fun _ _ => (ih _).bind fun _ _ => fueled_pure _

theorem fueled_removeLocs (l : List Poker) (k : Nat) (loc : List Int) :
    Fueled (removeLocs l k loc) := by
  induction k generalizing l loc with
  | zero => simp [removeLocs, Fueled]
  | succ k ih =>
      cases loc with
      | nil => simp [removeLocs, Fueled]
      | cons j loc => exact (fueled_removeAt _ _).bind fun _ _ => ih _ _

/-! ## the scan for a row -/

theorem rowScanBody_count {cards : List Poker} {row : List Nat} {stop : Int} {s s' : RowScan}
    (h : rowScanBody cards row stop s = .ok (.again s')) :
    s.count ≤ stop ∧ s'.count = s.count + 1 := by
  unfold rowScanBody at h
  split at h
  · rename_i hc
    simp only [bind_eq_ok] at h
    obtain ⟨c, -, num, -, h⟩ := h
    refine ⟨hc.1, ?_⟩
    split at h
    all_goals
      simp only [pure_eq_ok, Except.ok.injEq, Iter.again.injEq] at h
      rw [← h]
  · simp at h

theorem fueled_rowScanBody (cards : List Poker) (row : List Nat) (stop : Int) (s : RowScan) :
    Fueled (rowScanBody cards row stop s) := by
  unfold rowScanBody
  split
  · refine (fueled_idx _ _).bind fun _ _ => (fueled_idx _ _).bind fun _ _ => ?_
    split <;> exact fueled_pure _
  · exact fueled_pure _

theorem rowScan_lowers (cards : List Poker) (row : List Nat) (stop : Int) :
    Lowers .outOfFuel (rowScanBody cards row stop) (fun _ => True)
      fun s => (stop + 1 - s.count).toNat where
  again s s' _ hb := by
    have := rowScanBody_count hb
    exact ⟨trivial, by omega⟩
  within s _ := fueled_rowScanBody cards row stop s

theorem fueled_rowScan {fuel : Nat} (cards : List Poker) (row : List Nat) {start stop : Int}
    (hfuel : (stop + 1 - start).toNat < fuel) :
    Fueled (loop .outOfFuel (rowScanBody cards row stop) fuel
      { times := 1, count := start, loc := [] }) :=
  (rowScan_lowers cards row stop).ne_outOfFuel trivial hfuel

theorem fueled_scanRow {fuel : Nat} (cards : List Poker) (row : List Nat) {start stop : Int}
    (hfuel : (stop + 1 - start).toNat < fuel) : Fueled (scanRow fuel cards row start stop) := by
  refine (fueled_rowScan cards row hfuel).bind fun s _ => ?_
  split <;> exact fueled_pure _

/-! ## straight flushes -/

/-- **The end of a suit group** lies after its start and within the list. -/
theorem groupEnd_bounds {cards : List Poker} {first : Poker} {fuel : Nat} {suitS coun : Int}
    (hfirst : idx cards suitS = .ok first)
    (h : loop .outOfFuel (groupEndBody cards first.suitnum) fuel suitS = .ok coun) :
    suitS < coun ∧ coun ≤ cards.length := by
  obtain ⟨h0, hget⟩ := idx_eq_ok.mp hfirst
  obtain ⟨hlt, -⟩ := List.getElem?_eq_some_iff.mp hget
  refine loop_invariant (I := fun v => suitS ≤ v ∧ v ≤ cards.length)
    (P := fun v => suitS < v ∧ v ≤ cards.length) (fun v v' hv hb => ?_) (fun v r hv hb => ?_)
    ⟨Int.le_refl _, by omega⟩ h
  · unfold groupEndBody at hb
    split at hb
    · obtain ⟨card, -, hb⟩ := bind_eq_ok.mp hb
      split at hb
      · simp only [pure_eq_ok, Except.ok.injEq, Iter.again.injEq] at hb
        omega
      · simp at hb
    · simp at hb
  · unfold groupEndBody at hb
    split at hb
    · obtain ⟨card, hcard, hb⟩ := bind_eq_ok.mp hb
      split at hb
      · simp at hb
      · rename_i hne
        simp only [pure_eq_ok, Except.ok.injEq, Iter.leave.injEq] at hb
        subst hb
        -- the group does not end on its first card
        have hv' : v ≠ suitS := by
          rintro rfl
          rw [hfirst, Except.ok.injEq] at hcard
          exact hne (by rw [hcard])
        omega
    · simp only [pure_eq_ok, Except.ok.injEq, Iter.leave.injEq] at hb
      omega

theorem groupEndBody_again {cards : List Poker} {suitreg : Nat} {v v' : Int}
    (h : groupEndBody cards suitreg v = .ok (.again v')) : v < cards.length ∧ v' = v + 1 := by
  unfold groupEndBody at h
  split at h
  · obtain ⟨card, -, h⟩ := bind_eq_ok.mp h
    split at h
    · simp only [pure_eq_ok, Except.ok.injEq, Iter.again.injEq] at h
      omega
    · simp at h
  · simp at h

theorem fueled_groupEndBody (cards : List Poker) (suitreg : Nat) (v : Int) :
    Fueled (groupEndBody cards suitreg v) := by
  unfold groupEndBody
  split
  · refine (fueled_idx _ _).bind fun _ _ => ?_
    split <;> exact fueled_pure _
  · exact fueled_pure _

theorem groupEnd_lowers (cards : List Poker) (suitreg : Nat) :
    Lowers .outOfFuel (groupEndBody cards suitreg) (fun _ => True)
      fun v => ((cards.length : Int) - v).toNat where
  again v v' _ hb := by
    have := groupEndBody_again hb
    exact ⟨trivial, by omega⟩
  within v _ := fueled_groupEndBody cards suitreg v

theorem fueled_groupEnd {cards : List Poker} {suitreg : Nat} {fuel : Nat} {suitS : Int}
    (hfuel : (cards.length - suitS).toNat < fuel) :
    Fueled (loop .outOfFuel (groupEndBody cards suitreg) fuel suitS) :=
  (groupEnd_lowers cards suitreg).ne_outOfFuel trivial hfuel

/-- A straight flush taken shortens the list and moves `ele` back by five. -/
theorem takeStraightFlush_moves {st st' : SuitPass} {cmp : Int} {loc : List Int}
    (h : takeStraightFlush st cmp loc = .ok st') :
    st'.tmpSuit.length + 5 = st.tmpSuit.length ∧ st'.ele = st.ele - 5 := by
  simp only [takeStraightFlush, bind_eq_ok, pure_eq_ok, Except.ok.injEq] at h
  obtain ⟨ttmp, -, tmpSuit, hl, rfl⟩ := h
  exact ⟨length_removeLocs hl, rfl⟩

theorem fueled_takeStraightFlush (st : SuitPass) (cmp : Int) (loc : List Int) :
    Fueled (takeStraightFlush st cmp loc) :=
  (fueled_readLocs _ _ _).bind fun _ _ => (fueled_removeLocs _ _ _).bind fun _ _ => fueled_pure _

/-- A pass that reads a row of `SHUNZI` has one of its ten indices. -/
theorem idx_shunzi {cmp : Int} {row : List Nat} (h : idx shunzi cmp = .ok row) :
    0 ≤ cmp ∧ cmp < 10 := by
  obtain ⟨h0, hget⟩ := idx_eq_ok.mp h
  obtain ⟨hlt, -⟩ := List.getElem?_eq_some_iff.mp hget
  have hlen : shunzi.length = 10 := rfl
  omega

/-- A pass that goes round again has read a card and a row, and moves on to the next row. -/
theorem groupBody_again {fuel : Nat} {st : SuitPass} {suitE : Int} {v v' : Int × Int}
    (h : groupBody fuel st suitE v = .ok (.again v')) :
    v.1 < suitE - 3 ∧ 0 ≤ v.2 ∧ v.2 < 10 ∧ v' = nextRow v.1 v.2 := by
  unfold groupBody at h
  split at h
  · rename_i hlt
    simp only [bind_eq_ok] at h
    obtain ⟨card, -, row, hrow, head, -, h⟩ := h
    refine ⟨hlt, (idx_shunzi hrow).1, (idx_shunzi hrow).2, ?_⟩
    split at h
    · obtain ⟨found, -, h⟩ := bind_eq_ok.mp h
      cases found with
      | none => simpa [eq_comm] using h
      | some loc => simp [bind_eq_ok] at h
    · simpa [eq_comm] using h
  · simp at h

theorem groupBody_leave {fuel : Nat} {st r : SuitPass} {suitE : Int} {v : Int × Int}
    (h : groupBody fuel st suitE v = .ok (.leave r)) :
    r = st ∨ r.tmpSuit.length + 5 = st.tmpSuit.length ∧ r.ele = st.ele - 5 := by
  unfold groupBody at h
  split at h
  · simp only [bind_eq_ok] at h
    obtain ⟨card, -, row, -, head, -, h⟩ := h
    split at h
    · obtain ⟨found, -, h⟩ := bind_eq_ok.mp h
      cases found with
      | none => simp at h
      | some loc =>
          simp only [bind_eq_ok, pure_eq_ok, Except.ok.injEq, Iter.leave.injEq] at h
          obtain ⟨st', htake, rfl⟩ := h
          exact .inr (takeStraightFlush_moves htake)
    · simp at h
  · exact .inl (by simpa [eq_comm] using h)

theorem fueled_groupBody {fuel : Nat} (st : SuitPass) {suitE : Int} {v : Int × Int}
    (hfuel : 0 ≤ v.1 → (suitE + 1 - v.1).toNat < fuel) : Fueled (groupBody fuel st suitE v) := by
  unfold groupBody
  split
  · refine (fueled_idx _ _).bind fun _ hcard => (fueled_idx _ _).bind fun _ _ =>
      (fueled_idx _ _).bind fun _ _ => ?_
    split
    · refine (fueled_scanRow _ _ (hfuel (idx_eq_ok.mp hcard).1)).bind fun found _ => ?_
      cases found with
      | none => exact fueled_pure _
      | some loc => exact (fueled_takeStraightFlush _ _ _).bind fun _ _ => fueled_pure _
    · exact fueled_pure _
  · exact fueled_pure _

/-- Ten rows for every start position bound the search of a group. -/
def groupMeasure (suitE : Int) (v : Int × Int) : Nat :=
  10 * (suitE - 3 - v.1).toNat + (9 - v.2).toNat

theorem group_lowers {fuel : Nat} (st : SuitPass) {suitE : Int} (suitS : Int)
    (hfuel : (suitE + 1 - max 0 suitS).toNat < fuel) :
    Lowers .outOfFuel (groupBody fuel st suitE) (fun v => suitS ≤ v.1) (groupMeasure suitE) where
  again v v' hv hb := by
    obtain ⟨hlt, h0, h9, rfl⟩ := groupBody_again hb
    have hlen : (shunzi.length : Int) = 10 := rfl
    unfold nextRow groupMeasure
    split <;> simp only <;> omega
  within v hv := fueled_groupBody st (by omega)

theorem fueled_group {fuel : Nat} (st : SuitPass) {suitE suitS : Int}
    (hfuel : 10 * (suitE + 1 - suitS).toNat + 10 < fuel) :
    Fueled (loop .outOfFuel (groupBody fuel st suitE) fuel (suitS, 0)) :=
  (group_lowers st suitS (by omega)).ne_outOfFuel (Int.le_refl _)
    (by unfold groupMeasure; simp only; omega)

/-- One suit group: the distance from `ele` to the end of the list falls. -/
theorem suitGroup_moves {fuel : Nat} {st st' : SuitPass} {suitS : Int}
    (h : suitGroup fuel st suitS = .ok st') :
    0 ≤ suitS ∧ 0 ≤ st'.ele ∧ st'.tmpSuit.length ≤ st.tmpSuit.length ∧
      st'.tmpSuit.length - st'.ele < st.tmpSuit.length - suitS := by
  simp only [suitGroup, bind_eq_ok] at h
  obtain ⟨first, hfirst, coun, hend, h⟩ := h
  obtain ⟨h0, -⟩ := idx_eq_ok.mp hfirst
  obtain ⟨hlt, hle⟩ := groupEnd_bounds hfirst hend
  split at h
  · have hr := loop_invariant (I := fun _ => True) (P := fun r : SuitPass => _)
      (fun _ _ _ _ => trivial) (fun v r _ hb => groupBody_leave hb) trivial h
    rcases hr with rfl | ⟨hlen, hele⟩
    · simp only; omega
    · simp only at hlen hele; omega
  · simp only [pure_eq_ok, Except.ok.injEq] at h
    subst h
    simp only; omega

theorem fueled_suitGroup {n fuel : Nat} {st : SuitPass} {suitS : Int} (h0 : 0 ≤ suitS)
    (hlen : st.tmpSuit.length ≤ n) (hfuel : loopFuel n ≤ fuel) :
    Fueled (suitGroup fuel st suitS) := by
  unfold loopFuel at hfuel
  refine (fueled_idx _ _).bind fun first hfirst => (fueled_groupEnd (by omega)).bind
    fun coun hend => ?_
  have hbounds := groupEnd_bounds hfirst hend
  simp only
  split
  · exact fueled_group _ (by omega)
  · exact fueled_pure _

/-- One pass of the straight-flush loop, also one that starts below zero. -/
theorem suitPassBody_moves {fuel : Nat} {st st' : SuitPass}
    (h : suitPassBody fuel st = .ok (.again st')) :
    st.ele < st.tmpSuit.length ∧ st'.tmpSuit.length ≤ st.tmpSuit.length ∧
      st'.tmpSuit.length - st'.ele < (st.tmpSuit.length : Int) - st.ele := by
  unfold suitPassBody at h
  split at h
  · simp only [bind_eq_ok, pure_eq_ok, Except.ok.injEq, Iter.again.injEq] at h
    obtain ⟨r, hgroup, rfl⟩ := h
    have := suitGroup_moves hgroup
    split at this <;> omega
  · simp at h

theorem fueled_suitPassBody {n fuel : Nat} {st : SuitPass} (hlen : st.tmpSuit.length ≤ n)
    (hfuel : loopFuel n ≤ fuel) : Fueled (suitPassBody fuel st) := by
  unfold suitPassBody
  split
  · refine (fueled_suitGroup ?_ hlen hfuel).bind fun _ _ => fueled_pure _
    split <;> omega
  · exact fueled_pure _

theorem suitPass_lowers {n fuel : Nat} (hfuel : loopFuel n ≤ fuel) :
    Lowers .outOfFuel (suitPassBody fuel) (fun st => st.tmpSuit.length ≤ n)
      fun st => (st.tmpSuit.length - st.ele).toNat where
  again st st' hst hb := by
    have := suitPassBody_moves hb
    omega
  within st hst := fueled_suitPassBody hst hfuel

theorem fueled_straightFlushPass {n fuel : Nat} {tmpSuit : List Poker} (hlen : tmpSuit.length ≤ n)
    (hfuel : loopFuel n ≤ fuel) : Fueled (straightFlushPass fuel tmpSuit) := by
  refine (suitPass_lowers hfuel).ne_outOfFuel hlen ?_
  unfold loopFuel at hfuel
  simp only; omega

theorem straightFlushPass_length {fuel : Nat} {tmpSuit : List Poker} {r : SuitPass}
    (h : straightFlushPass fuel tmpSuit = .ok r) : r.tmpSuit.length ≤ tmpSuit.length := by
  have := (straightFlushPass_splits h).perm.length_eq
  rw [List.length_append] at this
  omega

/-! ## fours, triples and pairs -/

/-- How one statement of the rank loop moves: `ele` goes back no further than the
list shrinks. -/
def RankPass.Moves (st st' : RankPass) : Prop :=
  st'.tmpNum.length ≤ st.tmpNum.length ∧
    st'.tmpNum.length - st'.ele ≤ (st.tmpNum.length : Int) - st.ele

theorem takeSuntiao_moves {st st' : RankPass} (h : takeSuntiao st = .ok st') :
    RankPass.Moves st st' := by
  simp only [takeSuntiao, bind_eq_ok, pure_eq_ok, Except.ok.injEq] at h
  obtain ⟨ttmp, -, tmpNum, hl, rfl⟩ := h
  have := length_removeRun hl
  simp only [RankPass.Moves]; omega

theorem takeYidui_moves {st st' : RankPass} (h : takeYidui st = .ok st') :
    RankPass.Moves st st' := by
  simp only [takeYidui, bind_eq_ok, pure_eq_ok, Except.ok.injEq] at h
  obtain ⟨ttmp, -, tmpNum, hl, rfl⟩ := h
  have := length_removeRun hl
  simp only [RankPass.Moves]; omega

theorem takeSitiao_moves {st st' : RankPass} (h : takeSitiao st = .ok st') :
    RankPass.Moves st st' := by
  simp only [takeSitiao, bind_eq_ok, pure_eq_ok, Except.ok.injEq] at h
  obtain ⟨ttmp, -, tmpNum, hl, rfl⟩ := h
  have := length_removeRun hl
  simp only [RankPass.Moves]; omega

theorem endRun_moves {st st' : RankPass} (h : endRun st = .ok st') : RankPass.Moves st st' := by
  unfold endRun at h
  obtain ⟨same, -, h⟩ := bind_eq_ok.mp h
  have hsame : RankPass.Moves st st := ⟨le_refl _, le_refl _⟩
  split at h
  · simp only [pure_eq_ok, Except.ok.injEq] at h
    subst h
    exact hsame
  · split at h
    · exact takeSuntiao_moves h
    · split at h
      · exact takeYidui_moves h
      · simp only [pure_eq_ok, Except.ok.injEq] at h
        exact h ▸ hsame

theorem checkSitiao_moves {st st' : RankPass} (h : checkSitiao st = .ok st') :
    RankPass.Moves st st' := by
  unfold checkSitiao at h
  split at h
  · exact takeSitiao_moves h
  · simp only [pure_eq_ok, Except.ok.injEq] at h
    subst h
    exact ⟨le_refl _, le_refl _⟩

theorem fueled_endRun (st : RankPass) : Fueled (endRun st) := by
  have hsame : Fueled (sameNum st.tmpNum st.ele) := by
    unfold sameNum
    split
    · exact (fueled_idx _ _).bind fun _ _ => (fueled_idx _ _).bind fun _ _ => fueled_pure _
    · exact fueled_pure _
  unfold endRun
  refine hsame.bind fun _ _ => ?_
  split
  · exact fueled_pure _
  · split
    · exact (fueled_readRun _ _ _).bind fun _ _ => (fueled_removeRun _ _ _).bind
        fun _ _ => fueled_pure _
    · split
      · exact (fueled_readRun _ _ _).bind fun _ _ => (fueled_removeRun _ _ _).bind
          fun _ _ => fueled_pure _
      · exact fueled_pure _

theorem fueled_checkSitiao (st : RankPass) : Fueled (checkSitiao st) := by
  unfold checkSitiao
  split
  · exact (fueled_readRun _ _ _).bind fun _ _ => (fueled_removeRun _ _ _).bind
      fun _ _ => fueled_pure _
  · exact fueled_pure _

/-- One pass of the rank loop: the list does not grow, and the position gains on its end. -/
theorem rankPassBody_moves {st st' : RankPass} (h : rankPassBody st = .ok (.again st')) :
    st.ele ≤ st.tmpNum.length ∧ st'.tmpNum.length ≤ st.tmpNum.length ∧
      st'.tmpNum.length - st'.ele < (st.tmpNum.length : Int) - st.ele := by
  unfold rankPassBody at h
  split at h
  · simp only [bind_eq_ok, pure_eq_ok, Except.ok.injEq, Iter.again.injEq] at h
    obtain ⟨st₁, h₁, st₂, h₂, rfl⟩ := h
    have hm₁ := endRun_moves h₁
    have hm₂ := checkSitiao_moves h₂
    simp only [RankPass.Moves] at hm₁ hm₂ ⊢
    split at hm₁ <;> omega
  · simp at h

theorem fueled_rankPassBody (st : RankPass) : Fueled (rankPassBody st) := by
  unfold rankPassBody
  split
  · exact (fueled_endRun _).bind fun _ _ => (fueled_checkSitiao _).bind fun _ _ => fueled_pure _
  · exact fueled_pure _

theorem rankPass_lowers : Lowers .outOfFuel rankPassBody (fun _ => True)
    fun st => (st.tmpNum.length + 1 - st.ele).toNat where
  again st st' _ hb := by
    have := rankPassBody_moves hb
    exact ⟨trivial, by omega⟩
  within st _ := fueled_rankPassBody st

theorem fueled_rankPass {fuel : Nat} (pokersArray : List PokerClass) {tmpNum : List Poker}
    (hfuel : tmpNum.length < fuel) : Fueled (rankPass fuel pokersArray tmpNum) :=
  rankPass_lowers.ne_outOfFuel trivial (by simp only; omega)

theorem rankPass_length {fuel : Nat} {pokersArray : List PokerClass} {tmpNum : List Poker}
    {r : RankPass} (h : rankPass fuel pokersArray tmpNum = .ok r) :
    r.tmpNum.length ≤ tmpNum.length :=
  loop_invariant (I := fun st : RankPass => st.tmpNum.length ≤ tmpNum.length)
    (P := fun st : RankPass => st.tmpNum.length ≤ tmpNum.length)
    (fun _ _ hst hb => le_trans (rankPassBody_moves hb).2.1 hst)
    (fun _ _ hst hb => rankPassBody_leave hb ▸ hst) (le_refl _) h

/-! ## flushes -/

theorem checkTonghua_moves {st st' : FlushPass} (h : checkTonghua st = .ok st') :
    st'.tmpNum.length ≤ st.tmpNum.length ∧
      st'.tmpNum.length - st'.ele = (st.tmpNum.length : Int) - st.ele := by
  unfold checkTonghua at h
  split at h
  · simp only [takeTonghua, bind_eq_ok, pure_eq_ok, Except.ok.injEq] at h
    obtain ⟨ttmp, -, tmpNum, hl, rfl⟩ := h
    have := length_removeRun hl
    simp only; omega
  · simp only [pure_eq_ok, Except.ok.injEq] at h
    subst h
    simp

theorem flushPassBody_moves {st st' : FlushPass} (h : flushPassBody st = .ok (.again st')) :
    st.ele < st.tmpNum.length ∧ st'.tmpNum.length ≤ st.tmpNum.length ∧
      st'.tmpNum.length - st'.ele < (st.tmpNum.length : Int) - st.ele := by
  unfold flushPassBody at h
  split at h
  · rename_i hlt
    simp only [bind_eq_ok, pure_eq_ok, Except.ok.injEq, Iter.again.injEq] at h
    obtain ⟨st₁, h₁, st₂, h₂, rfl⟩ := h
    simp only [countSuit, bind_eq_ok, pure_eq_ok, Except.ok.injEq] at h₁
    obtain ⟨a, -, b, -, rfl⟩ := h₁
    have := checkTonghua_moves h₂
    simp only at this ⊢
    omega
  · simp at h

theorem fueled_flushPassBody (st : FlushPass) : Fueled (flushPassBody st) := by
  unfold flushPassBody
  split
  · refine Fueled.bind ?_ fun _ _ => Fueled.bind ?_ fun _ _ => fueled_pure _
    · exact (fueled_idx _ _).bind fun _ _ => (fueled_idx _ _).bind fun _ _ => fueled_pure _
    · unfold checkTonghua
      split
      · exact (fueled_readRun _ _ _).bind fun _ _ => (fueled_removeRun _ _ _).bind
          fun _ _ => fueled_pure _
      · exact fueled_pure _
  · exact fueled_pure _

theorem flushPass_lowers : Lowers .outOfFuel flushPassBody (fun _ => True)
    fun st => (st.tmpNum.length - st.ele).toNat where
  again st st' _ hb := by
    have := flushPassBody_moves hb
    exact ⟨trivial, by omega⟩
  within st _ := fueled_flushPassBody st

theorem fueled_flushPass {fuel : Nat} (pokersArray : List PokerClass) {tmpNum : List Poker}
    (hfuel : tmpNum.length < fuel) : Fueled (flushPass fuel pokersArray tmpNum) :=
  flushPass_lowers.ne_outOfFuel trivial (by simp only; omega)

theorem flushPass_length {fuel : Nat} {pokersArray : List PokerClass} {tmpNum : List Poker}
    {r : FlushPass} (h : flushPass fuel pokersArray tmpNum = .ok r) :
    r.tmpNum.length ≤ tmpNum.length :=
  loop_invariant (I := fun st : FlushPass => st.tmpNum.length ≤ tmpNum.length)
    (fun _ _ hst hb => le_trans (flushPassBody_moves hb).2.1 hst)
    (fun _ _ hst hb => flushPassBody_leave hb ▸ hst) (le_refl _) h

/-! ## straights -/

theorem checkShunzi_moves {fuel : Nat} {st st' : StraightPass} {row : List Nat}
    (h : checkShunzi fuel st row = .ok st') :
    st'.tmpNum.length ≤ st.tmpNum.length ∧ st'.ele = st.ele ∧ st'.cmp = st.cmp := by
  unfold checkShunzi at h
  obtain ⟨found, -, h⟩ := bind_eq_ok.mp h
  cases found with
  | none =>
      simp only [pure_eq_ok, Except.ok.injEq] at h
      subst h
      simp
  | some loc =>
      simp only [takeShunzi, bind_eq_ok, pure_eq_ok, Except.ok.injEq] at h
      obtain ⟨ttmp, -, tmpNum, hl, rfl⟩ := h
      have := length_removeLocs hl
      exact ⟨by simp only; omega, rfl, rfl⟩

/-- One pass of the straight loop moves on to the next card or to the next row. -/
theorem straightPassBody_moves {fuel : Nat} {st st' : StraightPass}
    (h : straightPassBody fuel st = .ok (.again st')) :
    st.ele < st.tmpNum.length ∧ st'.tmpNum.length ≤ st.tmpNum.length ∧
      0 ≤ st.cmp ∧ st.cmp < 10 ∧
      (st'.ele = st.ele + 1 ∧ (st'.cmp = st.cmp ∨ st'.cmp = 0) ∨
        st'.ele = st.ele ∧ st'.cmp = st.cmp + 1) := by
  unfold straightPassBody at h
  split at h
  · rename_i hlt
    simp only [bind_eq_ok] at h
    obtain ⟨card, -, row, hrow, head, -, h⟩ := h
    have hcmp := idx_shunzi hrow
    refine ⟨hlt.1, ?_⟩
    split at h
    · simp only [bind_eq_ok, pure_eq_ok, Except.ok.injEq, Iter.again.injEq] at h
      obtain ⟨st₁, h₁, rfl⟩ := h
      have := checkShunzi_moves h₁
      simp only; omega
    · split at h
      all_goals
        simp only [pure_eq_ok, Except.ok.injEq, Iter.again.injEq] at h
        subst h
        simp; omega
  · simp at h

/-- Ten rows for every position bound the straight loop too. -/
def straightMeasure (st : StraightPass) : Nat :=
  10 * (st.tmpNum.length - st.ele).toNat + (10 - st.cmp).toNat

theorem fueled_straightPassBody {fuel : Nat} {st : StraightPass}
    (hfuel : st.tmpNum.length < fuel) : Fueled (straightPassBody fuel st) := by
  unfold straightPassBody
  split
  · refine (fueled_idx _ _).bind fun _ hcard => (fueled_idx _ _).bind fun _ _ =>
      (fueled_idx _ _).bind fun _ _ => ?_
    have h0 := (idx_eq_ok.mp hcard).1
    split
    · refine Fueled.bind ?_ fun _ _ => fueled_pure _
      refine (fueled_scanRow _ _ (by omega)).bind fun found _ => ?_
      cases found with
      | none => exact fueled_pure _
      | some loc =>
          exact (fueled_readLocs _ _ _).bind fun _ _ => (fueled_removeLocs _ _ _).bind
            fun _ _ => fueled_pure _
    · split <;> exact fueled_pure _
  · exact fueled_pure _

theorem straightPass_lowers {n fuel : Nat} (hfuel : n < fuel) :
    Lowers .outOfFuel (straightPassBody fuel) (fun st => st.tmpNum.length ≤ n)
      straightMeasure where
  again st st' hst hb := by
    have := straightPassBody_moves hb
    unfold straightMeasure
    omega
  within st hst := fueled_straightPassBody (by omega)

theorem fueled_straightPass {n fuel : Nat} (pokersArray : List PokerClass) {tmpNum : List Poker}
    (hlen : tmpNum.length ≤ n) (hfuel : loopFuel n ≤ fuel) :
    Fueled (straightPass fuel pokersArray tmpNum) := by
  unfold loopFuel at hfuel
  exact (straightPass_lowers (by omega)).ne_outOfFuel hlen
    (by unfold straightMeasure; simp only; omega)

/-! ## the whole classification -/

/-- **The loops of `ClassingPokers` end**, for every list of cards. -/
theorem fueled_classingPokers (origins : List Poker) : Fueled (classingPokers origins) := by
  have hfuel : origins.length < loopFuel origins.length := by unfold loopFuel; omega
  refine (fueled_straightFlushPass (n := origins.length) (by simp) (le_refl _)).bind
    fun suit hsuit => ?_
  have hlen₁ := straightFlushPass_length hsuit
  rw [length_sortedBy] at hlen₁
  refine (fueled_rankPass _ (by rw [length_sortedBy]; omega)).bind fun rank hrank => ?_
  have hlen₂ := rankPass_length hrank
  rw [length_sortedBy] at hlen₂
  refine (fueled_flushPass _ (by rw [length_sortedBy]; omega)).bind fun flush hflush => ?_
  have hlen₃ := flushPass_length hflush
  rw [length_sortedBy] at hlen₃
  exact (fueled_straightPass (n := origins.length) _ (by rw [length_sortedBy]; omega)
    (le_refl _)).bind fun _ _ => fueled_pure _

/-- The loops of `ClassingPokers` end on lists of up to `n` cards, each from every state of
its variables: the scan of a row, the end of a suit group, the search of a group, and the
straight-flush, rank, flush and straight loops.  `fuel` is that of the loops within. -/
structure LoopsEnd (n fuel : Nat) : Prop where
  rowScan (cards : List Poker) (row : List Nat) (stop : Int) (s : RowScan) :
    EndsFrom .outOfFuel (rowScanBody cards row stop) s
  groupEnd (cards : List Poker) (suitreg : Nat) (coun : Int) :
    EndsFrom .outOfFuel (groupEndBody cards suitreg) coun
  group (st : SuitPass) (suitE : Int) (v : Int × Int) : st.tmpSuit.length ≤ n →
    suitE < st.tmpSuit.length → EndsFrom .outOfFuel (groupBody fuel st suitE) v
  suitPass (st : SuitPass) : st.tmpSuit.length ≤ n → EndsFrom .outOfFuel (suitPassBody fuel) st
  rankPass (st : RankPass) : EndsFrom .outOfFuel rankPassBody st
  flushPass (st : FlushPass) : EndsFrom .outOfFuel flushPassBody st
  straightPass (st : StraightPass) : st.tmpNum.length ≤ n →
    EndsFrom .outOfFuel (straightPassBody fuel) st

theorem loopsEnd {n fuel : Nat} (hfuel : loopFuel n ≤ fuel) : LoopsEnd n fuel where
  rowScan cards row stop _ := (rowScan_lowers cards row stop).endsFrom trivial
  groupEnd cards suitreg _ := (groupEnd_lowers cards suitreg).endsFrom trivial
  group st suitE v hlen hend := by
    unfold loopFuel at hfuel
    exact (group_lowers st v.1 (by omega)).endsFrom (Int.le_refl _)
  suitPass _ hlen := (suitPass_lowers hfuel).endsFrom hlen
  rankPass _ := rankPass_lowers.endsFrom trivial
  flushPass _ := flushPass_lowers.endsFrom trivial
  straightPass _ hlen := by
    unfold loopFuel at hfuel
    exact (straightPass_lowers (by omega)).endsFrom hlen

/-- **Every loop of `ClassingPokers` makes finitely many passes**, for every list of cards
and with any fuel beyond that of the model; and so the call ends.  The loops that make full
houses and single cards are recursions over a list. -/
theorem loops_end (origins : List Poker) (more : Nat) :
    LoopsEnd origins.length (loopFuel origins.length + more) ∧ Fueled (classingPokers origins) :=
  ⟨loopsEnd (Nat.le_add_right _ _), fueled_classingPokers origins⟩

/-- **`ClassingPokers` partitions the hand**: whatever the cards, it returns, unless an access
is out of range, and the cards of the combinations are those of the hand. -/
theorem partition_classingPokers (origins : List Poker) :
    classingPokers origins = .error .outOfRange ∨
      ∃ out, classingPokers origins = .ok out ∧ (cardsOf out).Perm origins := by
  cases h : classingPokers origins with
  | ok out => exact .inr ⟨out, rfl, perm_classingPokers h⟩
  | error e =>
      cases e with
      | outOfRange => exact .inl rfl
      | outOfFuel => exact absurd h (fueled_classingPokers origins)

end IosGame
