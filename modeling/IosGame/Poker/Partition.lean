import IosGame.Poker.Classing

/-!
# IosGame.Poker.Partition

`ClassingPokers` partitions the hand: whenever it returns, the cards of the
returned combinations are the cards of the hand, none lost, doubled or invented
(`perm_classingPokers`), and every combination has the number of cards its kind
calls for (`shaped_classingPokers`).

The section is layered like the source: what one *cut* does to a list, then one
invariant for each pass, carried by `loop_invariant`.
-/

namespace IosGame

/-! ## cuts of consecutive cards -/

theorem length_readRun {l xs : List Poker} {i : Int} {k : Nat} (h : readRun l i k = .ok xs) :
    xs.length = k := by
  induction k generalizing i xs with
  | zero => simp only [readRun, Except.ok.injEq] at h; subst h; rfl
  | succ k ih =>
      simp only [readRun, bind_eq_ok, pure_eq_ok, Except.ok.injEq] at h
      obtain ⟨card, -, cards, hr, rfl⟩ := h
      rw [List.length_cons, ih hr]

/-- The cards read are the segment of length `k` at position `i`. -/
theorem readRun_eq {l xs : List Poker} {i : Int} {k : Nat} (h : readRun l i k = .ok xs) :
    xs = (l.drop i.toNat).take k := by
  induction k generalizing i xs with
  | zero => simp only [readRun, Except.ok.injEq] at h; subst h; simp
  | succ k ih =>
      simp only [readRun, bind_eq_ok, pure_eq_ok, Except.ok.injEq] at h
      obtain ⟨card, hc, cards, hr, rfl⟩ := h
      obtain ⟨hi, hc⟩ := idx_eq_ok.mp hc
      obtain ⟨hlt, hc⟩ := List.getElem?_eq_some_iff.mp hc
      have hnext : (i + 1).toNat = i.toNat + 1 := by omega
      rw [ih hr, hnext, List.drop_eq_getElem_cons hlt, List.take_succ_cons, hc]

/-- Removing `k` times at position `i` takes the same segment out. -/
theorem removeRun_eq {l l' : List Poker} {i : Int} {k : Nat} (h : removeRun l i k = .ok l') :
    l' = l.take i.toNat ++ l.drop (i.toNat + k) := by
  induction k generalizing l with
  | zero => simp only [removeRun, Except.ok.injEq] at h; subst h; simp
  | succ k ih =>
      simp only [removeRun, bind_eq_ok] at h
      obtain ⟨l₁, hr, h⟩ := h
      obtain ⟨-, hlt, rfl⟩ := removeAt_eq_ok.mp hr
      have hlen : (l.take i.toNat).length = i.toNat := by rw [List.length_take]; omega
      rw [ih h, List.eraseIdx_eq_take_drop_succ, List.take_append_of_le_length (by omega),
        List.drop_append, hlen, List.drop_eq_nil_of_le (by omega), List.nil_append, List.take_take,
        List.drop_drop]
      congr 2 <;> omega

theorem length_removeRun {l l' : List Poker} {i : Int} {k : Nat}
    (h : removeRun l i k = .ok l') : l'.length + k = l.length := by
  induction k generalizing l with
  | zero => simp only [removeRun, Except.ok.injEq] at h; subst h; rfl
  | succ k ih =>
      simp only [removeRun, bind_eq_ok] at h
      obtain ⟨l₁, hr, h⟩ := h
      obtain ⟨-, hlt, rfl⟩ := removeAt_eq_ok.mp hr
      have := ih h
      rw [List.length_eraseIdx_of_lt hlt] at this
      omega

/-- The middle part of a list is read at the length of the first part. -/
theorem readRun_append (xs run ys : List Poker) :
    readRun (xs ++ (run ++ ys)) xs.length run.length = .ok run := by
  induction run generalizing xs with
  | nil => rfl
  | cons x run ih =>
      have hrest := ih (xs ++ [x])
      rw [List.length_append, List.length_singleton, List.append_assoc] at hrest
      rw [List.length_cons, readRun, List.cons_append, idx_append_cons, ok_bind]
      rw [show ((xs.length : Int) + 1) = ((xs.length + 1 : Nat) : Int) by omega]
      rw [show xs ++ x :: (run ++ ys) = xs ++ ([x] ++ (run ++ ys)) by rfl, hrest]
      rfl

/-- The middle part of a list is removed at the length of the first part. -/
theorem removeRun_append (xs run ys : List Poker) :
    removeRun (xs ++ (run ++ ys)) xs.length run.length = .ok (xs ++ ys) := by
  induction run with
  | nil => rfl
  | cons x run ih =>
      rw [List.length_cons, removeRun, List.cons_append, removeAt_append_cons, ok_bind]
      exact ih

/-- Cutting a run out where it is. -/
theorem cutRun_eq {tmp done run rest : List Poker} {place : Int} {k : Nat}
    (htmp : tmp = done ++ (run ++ rest)) (hlen : run.length = k) (hplace : place = done.length) :
    readRun tmp place k = .ok run ∧ removeRun tmp place k = .ok (done ++ rest) := by
  subst htmp hlen hplace
  exact ⟨readRun_append done run rest, removeRun_append done run rest⟩

/-- **A run cut out and the rest** are the list. -/
theorem perm_cutRun {l xs l' : List Poker} {i : Int} {k : Nat} (hx : readRun l i k = .ok xs)
    (hl : removeRun l i k = .ok l') : (xs ++ l').Perm l := by
  have hsplit : l = l.take i.toNat ++ (xs ++ l.drop (i.toNat + k)) := by
    rw [readRun_eq hx, ← List.drop_drop, List.take_append_drop, List.take_append_drop]
  rw [removeRun_eq hl]
  calc (xs ++ (l.take i.toNat ++ l.drop (i.toNat + k))).Perm
        (l.take i.toNat ++ (xs ++ l.drop (i.toNat + k))) := List.perm_append_comm_assoc ..
    _ = l := hsplit.symm

/-! ## cuts at scattered places -/

/-- Removing at a place leaves the cards before it where they are. -/
theorem idx_eraseIdx {l : List Poker} {n : Nat} {j : Int} (h : j < n) :
    idx (l.eraseIdx n) j = idx l j := by
  cases j with
  | ofNat m => simp only [idx]; rw [List.getElem?_eraseIdx_of_lt (by simpa using h)]
  | negSucc m => rfl

theorem readLocs_eraseIdx {l : List Poker} {n : Nat} {k : Nat} {loc : List Int}
    (h : ∀ j ∈ loc, j < n) : readLocs (l.eraseIdx n) k loc = readLocs l k loc := by
  induction k generalizing loc with
  | zero => rfl
  | succ k ih =>
      cases loc with
      | nil => rfl
      | cons j loc =>
          simp only [readLocs]
          rw [idx_eraseIdx (h j List.mem_cons_self),
            ih fun j' hj' => h j' (List.mem_cons_of_mem j hj')]

theorem length_readLocs {l xs : List Poker} {k : Nat} {loc : List Int}
    (h : readLocs l k loc = .ok xs) : xs.length = k := by
  induction k generalizing loc xs with
  | zero => simp only [readLocs, Except.ok.injEq] at h; subst h; rfl
  | succ k ih =>
      cases loc with
      | nil => simp [readLocs] at h
      | cons j loc =>
          simp only [readLocs, bind_eq_ok, pure_eq_ok, Except.ok.injEq] at h
          obtain ⟨card, -, cards, hr, rfl⟩ := h
          rw [List.length_cons, ih hr]

theorem length_removeLocs {l l' : List Poker} {k : Nat} {loc : List Int}
    (h : removeLocs l k loc = .ok l') : l'.length + k = l.length := by
  induction k generalizing l loc with
  | zero => simp only [removeLocs, Except.ok.injEq] at h; subst h; rfl
  | succ k ih =>
      cases loc with
      | nil => simp [removeLocs] at h
      | cons j loc =>
          simp only [removeLocs, bind_eq_ok] at h
          obtain ⟨l₁, hr, h⟩ := h
          obtain ⟨-, hlt, rfl⟩ := removeAt_eq_ok.mp hr
          have := ih h
          rw [List.length_eraseIdx_of_lt hlt] at this
          omega

/-- **Scattered cards cut out and the rest** are the list, if the places descend
strictly: then no removal shifts a place still to come. -/
theorem perm_cutLocs {l xs l' : List Poker} {k : Nat} {loc : List Int}
    (hloc : loc.Pairwise (fun a b => b < a)) (hx : readLocs l k loc = .ok xs)
    (hl : removeLocs l k loc = .ok l') : (xs ++ l').Perm l := by
  induction k generalizing l loc xs with
  | zero =>
      simp only [readLocs, Except.ok.injEq] at hx
      simp only [removeLocs, Except.ok.injEq] at hl
      subst hx hl
      exact List.Perm.refl _
  | succ k ih =>
      cases loc with
      | nil => simp [readLocs] at hx
      | cons j loc =>
          obtain ⟨hj, hloc⟩ := List.pairwise_cons.mp hloc
          simp only [readLocs, bind_eq_ok, pure_eq_ok, Except.ok.injEq] at hx
          obtain ⟨card, hc, cards, hx, rfl⟩ := hx
          simp only [removeLocs, bind_eq_ok] at hl
          obtain ⟨l₁, hr, hl⟩ := hl
          have hhead : (card :: l₁).Perm l := perm_removeAt hc hr
          obtain ⟨hj0, hlt, rfl⟩ := removeAt_eq_ok.mp hr
          have hx' : readLocs (l.eraseIdx j.toNat) k loc = .ok cards := by
            rw [readLocs_eraseIdx (fun a ha => by have := hj a ha; omega), hx]
          exact ((ih hloc hx' hl).cons card).trans hhead

/-! ## the scan for a row -/

/-- No row of `SHUNZI` has its head again in second place. -/
theorem head_ne_second {cmp : Int} {row : List Nat} {a b : Nat} (hrow : idx shunzi cmp = .ok row)
    (ha : idx row 0 = .ok a) (hb : idx row 1 = .ok b) : b ≠ a := by
  have hmem : row ∈ shunzi := List.mem_of_getElem? (idx_eq_ok.mp hrow).2
  have ha' : row[0]? = some a := (idx_eq_ok.mp ha).2
  have hb' : row[1]? = some b := (idx_eq_ok.mp hb).2
  have hall : ∀ r ∈ shunzi, r[1]? ≠ r[0]? := by decide
  intro hab
  exact hall row hmem (by rw [ha', hb', hab])

/-- What the scan knows: the places found ascend strictly and lie between the head
and the scan position, one for each match. -/
structure RowScan.Inv (start : Int) (s : RowScan) : Prop where
  times : s.times = s.loc.length + 1
  start_le : start ≤ s.count
  ascending : s.loc.Pairwise (· < ·)
  within : ∀ j ∈ s.loc, start < j ∧ j < s.count
  first : s.count = start → s.times = 1

/-- One pass of the scan keeps the invariant: the head itself never matches the
second rank of its row. -/
theorem rowScanBody_inv {cards : List Poker} {row : List Nat} {start stop : Int} {card : Poker}
    (hcard : idx cards start = .ok card) (hhead : ∀ b, idx row 1 = .ok b → b ≠ card.num)
    {s s' : RowScan} (hs : s.Inv start) (h : rowScanBody cards row stop s = .ok (.again s')) :
    s'.Inv start := by
  unfold rowScanBody at h
  split at h
  · simp only [bind_eq_ok] at h
    obtain ⟨c, hc, num, hnum, h⟩ := h
    obtain ⟨htimes, hle, hasc, hwithin, hfirst⟩ := hs
    split at h
    · rename_i heq
      simp only [pure_eq_ok, Except.ok.injEq, Iter.again.injEq] at h
      subst h
      -- a match at the head itself would be the second rank of the row
      have hlt : start < s.count := by
        rcases Int.lt_or_eq_of_le hle with hlt | heq'
        · exact hlt
        · have h1 : s.times = 1 := hfirst heq'.symm
          rw [← heq', hcard, Except.ok.injEq] at hc
          rw [h1] at hnum
          exact absurd (by rw [← heq, hc]) (hhead num hnum)
      refine ⟨?_, ?_, ?_, ?_, ?_⟩
      · simp only [List.length_append, List.length_singleton]; omega
      · simp only; omega
      · rw [List.pairwise_append]
        refine ⟨hasc, List.pairwise_singleton _ _, fun a ha b hb => ?_⟩
        rw [List.mem_singleton.mp hb]
        exact (hwithin a ha).2
      · intro j hj
        rcases List.mem_append.mp hj with hj | hj
        · have := hwithin j hj
          simp only; omega
        · rw [List.mem_singleton.mp hj]
          simp only; omega
      · simp only; omega
    · simp only [pure_eq_ok, Except.ok.injEq, Iter.again.injEq] at h
      subst h
      refine ⟨htimes, ?_, hasc, fun j hj => ?_, ?_⟩
      · simp only; omega
      · have := hwithin j hj
        simp only; omega
      · simp only; omega
  · simp [pure_eq_ok] at h

theorem rowScanBody_leave {cards : List Poker} {row : List Nat} {stop : Int} {s r : RowScan}
    (h : rowScanBody cards row stop s = .ok (.leave r)) : r = s := by
  unfold rowScanBody at h
  split at h
  · simp only [bind_eq_ok] at h
    obtain ⟨c, -, num, -, h⟩ := h
    split at h <;> simp [pure_eq_ok] at h
  · simpa [pure_eq_ok, eq_comm] using h

/-- **The places of a row** found by `scanRow` descend strictly. -/
theorem scanRow_descending {fuel : Nat} {cards : List Poker} {row : List Nat} {start stop : Int}
    {card : Poker} (hcard : idx cards start = .ok card)
    (hhead : ∀ b, idx row 1 = .ok b → b ≠ card.num) {loc : List Int}
    (h : scanRow fuel cards row start stop = .ok (some loc)) :
    loc.Pairwise (fun a b => b < a) := by
  unfold scanRow at h
  simp only [bind_eq_ok] at h
  obtain ⟨s, hs, h⟩ := h
  have hinv : s.Inv start := by
    refine loop_invariant (I := RowScan.Inv start) (P := RowScan.Inv start)
      (fun s s' hs hb => rowScanBody_inv hcard hhead hs hb)
      (fun s r hs hb => rowScanBody_leave hb ▸ hs) ?_ hs
    exact ⟨rfl, Int.le_refl _, List.Pairwise.nil, by simp, fun _ => rfl⟩
  split at h
  · simp only [pure_eq_ok, Except.ok.injEq, Option.some.injEq] at h
    subst h
    have hnodup : (start :: s.loc).Nodup := by
      refine List.nodup_cons.mpr ⟨fun hmem => ?_, ?_⟩
      · have := (hinv.within start hmem).1
        omega
      · exact hinv.ascending.imp fun hab => by omega
    refine (List.Pairwise.and (pairwise_sortedBy ?_ ?_ _)
      ((perm_sortedBy _ _).nodup_iff.mpr hnodup)).imp fun hab => ?_
    · simp; omega
    · simp; omega
    · simp at hab; omega
  · simp [pure_eq_ok] at h

/-! ## the invariant of every pass -/

/-- The kinds of combination with their numbers of cards. -/
def Shaped (c : PokerClass) : Prop :=
  (c.classing, c.cards.length) ∈
    [(7, 5), (6, 4), (5, 5), (4, 5), (3, 5), (2, 3), (1, 2), ((0 : Int), 1)]

instance (c : PokerClass) : Decidable (Shaped c) := inferInstanceAs (Decidable (_ ∈ _))

theorem shaped_iff {c : PokerClass} : Shaped c ↔
    c.classing = 7 ∧ c.cards.length = 5 ∨ c.classing = 6 ∧ c.cards.length = 4 ∨
    c.classing = 5 ∧ c.cards.length = 5 ∨ c.classing = 4 ∧ c.cards.length = 5 ∨
    c.classing = 3 ∧ c.cards.length = 5 ∨ c.classing = 2 ∧ c.cards.length = 3 ∨
    c.classing = 1 ∧ c.cards.length = 2 ∨ c.classing = 0 ∧ c.cards.length = 1 := by
  simp only [Shaped, List.mem_cons, Prod.mk.injEq, List.not_mem_nil, or_false]

/-- A combination is cut out of the part `seg` of the loose cards. -/
theorem perm_cut {origins pre seg seg' : List Poker} {cs : List PokerClass} {c : PokerClass}
    (h : (cardsOf cs ++ (pre ++ seg)).Perm origins) (hcut : (c.cards ++ seg').Perm seg) :
    (cardsOf (cs ++ [c]) ++ (pre ++ seg')).Perm origins := by
  have hpart : (c.cards ++ (pre ++ seg')).Perm (pre ++ seg) :=
    (List.perm_append_comm_assoc ..).trans (hcut.append_left pre)
  rw [cardsOf_append, cardsOf_cons, cardsOf_nil, List.append_nil, List.append_assoc]
  exact (hpart.append_left _).trans h

/-- The combinations `cs` and the loose cards `rest` are the cards `origins`. -/
structure Splits (origins : List Poker) (cs : List PokerClass) (rest : List Poker) : Prop where
  perm : (cardsOf cs ++ rest).Perm origins
  shaped : ∀ c ∈ cs, Shaped c

namespace Splits

variable {origins rest rest' ttmp : List Poker} {cs : List PokerClass}

/-- Loose cards may be put in another order. -/
theorem reorder (h : Splits origins cs rest) (hr : rest'.Perm rest) : Splits origins cs rest' :=
  ⟨(hr.append_left _).trans h.perm, h.shaped⟩

/-- A cut turns loose cards into one more combination, wherever it is filed. -/
theorem cut (h : Splits origins cs rest) {c : PokerClass} (hc : Shaped c)
    (hcut : (ttmp ++ rest').Perm rest) (hcards : c.cards.Perm ttmp)
    {ds : List PokerClass} (hds : ds.Perm (cs ++ [c])) : Splits origins ds rest' where
  perm := by
    have hcardsOf : (cardsOf ds).Perm (cardsOf cs ++ c.cards) := by
      simpa [cardsOf] using hds.flatMap_right PokerClass.cards
    calc (cardsOf ds ++ rest').Perm ((cardsOf cs ++ c.cards) ++ rest') := hcardsOf.append_right _
      _ = cardsOf cs ++ (c.cards ++ rest') := List.append_assoc ..
      _ |>.Perm (cardsOf cs ++ rest) := ((hcards.append_right _).trans hcut).append_left _
      _ |>.Perm origins := h.perm
  shaped := by
    intro d hd
    rcases List.mem_append.mp (hds.mem_iff.mp hd) with hd | hd
    · exact h.shaped d hd
    · rw [List.mem_singleton.mp hd]; exact hc

end Splits

/-! ## straight flushes -/

theorem takeStraightFlush_splits {origins : List Poker} {st st' : SuitPass} {cmp : Int}
    {loc : List Int} (hs : Splits origins st.pokersArray st.tmpSuit)
    (hloc : loc.Pairwise (fun a b => b < a)) (h : takeStraightFlush st cmp loc = .ok st') :
    Splits origins st'.pokersArray st'.tmpSuit := by
  simp only [takeStraightFlush, bind_eq_ok, pure_eq_ok, Except.ok.injEq] at h
  obtain ⟨ttmp, hx, tmpSuit, hl, rfl⟩ := h
  refine hs.cut ?_ (perm_cutLocs hloc hx hl) (perm_sortedBy _ _) (List.Perm.refl _)
  simp [Shaped, length_readLocs hx]

theorem groupBody_splits {origins : List Poker} {fuel : Nat} {st r : SuitPass} {suitE : Int}
    {v : Int × Int} (hs : Splits origins st.pokersArray st.tmpSuit)
    (h : groupBody fuel st suitE v = .ok (.leave r)) :
    Splits origins r.pokersArray r.tmpSuit := by
  unfold groupBody at h
  split at h
  · simp only [bind_eq_ok] at h
    obtain ⟨card, hcard, row, hrow, head, hhead, h⟩ := h
    split at h
    · rename_i heq
      obtain ⟨found, hscan, h⟩ := bind_eq_ok.mp h
      cases found with
      | none => simp [pure_eq_ok] at h
      | some loc =>
          simp only [bind_eq_ok, pure_eq_ok, Except.ok.injEq, Iter.leave.injEq] at h
          obtain ⟨st', htake, rfl⟩ := h
          refine takeStraightFlush_splits hs (scanRow_descending hcard ?_ hscan) htake
          intro b hb
          rw [heq]
          exact head_ne_second hrow hhead hb
    · simp [pure_eq_ok] at h
  · simp only [pure_eq_ok, Except.ok.injEq, Iter.leave.injEq] at h
    exact h ▸ hs

theorem suitGroup_splits {origins : List Poker} {fuel : Nat} {st st' : SuitPass} {suitS : Int}
    (hs : Splits origins st.pokersArray st.tmpSuit) (h : suitGroup fuel st suitS = .ok st') :
    Splits origins st'.pokersArray st'.tmpSuit := by
  simp only [suitGroup, bind_eq_ok] at h
  obtain ⟨first, -, coun, -, h⟩ := h
  split at h
  · exact loop_invariant (I := fun _ => True)
      (P := fun r : SuitPass => Splits origins r.pokersArray r.tmpSuit)
      (fun _ _ _ _ => trivial) (fun v r _ hb => groupBody_splits (by exact hs) hb) trivial h
  · simp only [pure_eq_ok, Except.ok.injEq] at h
    subst h
    exact hs

theorem suitPassBody_splits {origins : List Poker} {fuel : Nat} {st st' : SuitPass}
    (hs : Splits origins st.pokersArray st.tmpSuit)
    (h : suitPassBody fuel st = .ok (.again st')) :
    Splits origins st'.pokersArray st'.tmpSuit := by
  unfold suitPassBody at h
  split at h
  · simp only [bind_eq_ok, pure_eq_ok, Except.ok.injEq, Iter.again.injEq] at h
    obtain ⟨r, hgroup, rfl⟩ := h
    exact suitGroup_splits hs hgroup
  · simp at h

theorem suitPassBody_leave {fuel : Nat} {st r : SuitPass}
    (h : suitPassBody fuel st = .ok (.leave r)) : r = st := by
  unfold suitPassBody at h
  split at h
  · simp [bind_eq_ok] at h
  · simpa [eq_comm] using h

theorem straightFlushPass_splits {fuel : Nat} {tmpSuit : List Poker} {r : SuitPass}
    (h : straightFlushPass fuel tmpSuit = .ok r) : Splits tmpSuit r.pokersArray r.tmpSuit :=
  loop_invariant (I := fun st : SuitPass => Splits tmpSuit st.pokersArray st.tmpSuit)
    (fun _ _ hs hb => suitPassBody_splits hs hb) (fun _ _ hs hb => suitPassBody_leave hb ▸ hs)
    ⟨List.Perm.refl _, by simp⟩ h

/-! ## fours, triples and pairs -/

/-- The combinations the rank pass holds in its three arrays. -/
def RankPass.classes (st : RankPass) : List PokerClass := st.pokersArray ++ st.suntiao ++ st.yidui

/-- The invariant of the rank pass; triples and pairs are what their arrays say. -/
structure RankPass.Inv (origins : List Poker) (st : RankPass) : Prop where
  splits : Splits origins st.classes st.tmpNum
  suntiao : ∀ c ∈ st.suntiao, c.classing = 2 ∧ c.cards.length = 3
  yidui : ∀ c ∈ st.yidui, c.classing = 1 ∧ c.cards.length = 2

theorem takeSuntiao_inv {origins : List Poker} {st st' : RankPass} (hs : st.Inv origins)
    (h : takeSuntiao st = .ok st') : st'.Inv origins := by
  simp only [takeSuntiao, bind_eq_ok, pure_eq_ok, Except.ok.injEq] at h
  obtain ⟨ttmp, hx, tmpNum, hl, rfl⟩ := h
  have hlen := length_readRun hx
  refine ⟨hs.splits.cut (c := { cards := ttmp, classing := 2 }) ?_ (perm_cutRun hx hl)
    (List.Perm.refl _) ?_, ?_, hs.yidui⟩
  · simp [Shaped, hlen]
  · simp only [RankPass.classes, List.append_assoc]
    exact ((List.perm_append_comm).append_left _).append_left _
  · intro c hc
    rcases List.mem_append.mp hc with hc | hc
    · exact hs.suntiao c hc
    · rw [List.mem_singleton.mp hc]; exact ⟨rfl, hlen⟩

theorem takeYidui_inv {origins : List Poker} {st st' : RankPass} (hs : st.Inv origins)
    (h : takeYidui st = .ok st') : st'.Inv origins := by
  simp only [takeYidui, bind_eq_ok, pure_eq_ok, Except.ok.injEq] at h
  obtain ⟨ttmp, hx, tmpNum, hl, rfl⟩ := h
  have hlen := length_readRun hx
  refine ⟨hs.splits.cut (c := { cards := ttmp, classing := 1 }) ?_ (perm_cutRun hx hl)
    (List.Perm.refl _) ?_, hs.suntiao, ?_⟩
  · simp [Shaped, hlen]
  · simp [RankPass.classes]
  · intro c hc
    rcases List.mem_append.mp hc with hc | hc
    · exact hs.yidui c hc
    · rw [List.mem_singleton.mp hc]; exact ⟨rfl, hlen⟩

theorem takeSitiao_inv {origins : List Poker} {st st' : RankPass} (hs : st.Inv origins)
    (h : takeSitiao st = .ok st') : st'.Inv origins := by
  simp only [takeSitiao, bind_eq_ok, pure_eq_ok, Except.ok.injEq] at h
  obtain ⟨ttmp, hx, tmpNum, hl, rfl⟩ := h
  refine ⟨hs.splits.cut (c := { cards := ttmp, classing := 6 }) ?_ (perm_cutRun hx hl)
    (List.Perm.refl _) ?_, hs.suntiao, hs.yidui⟩
  · simp [Shaped, length_readRun hx]
  · simp only [RankPass.classes, List.append_assoc]
    refine List.Perm.append_left _ ?_
    rw [← List.append_assoc st.suntiao]
    exact List.perm_append_comm

theorem endRun_inv {origins : List Poker} {st st' : RankPass} (hs : st.Inv origins)
    (h : endRun st = .ok st') : st'.Inv origins := by
  unfold endRun at h
  obtain ⟨same, -, h⟩ := bind_eq_ok.mp h
  split at h
  · simp only [pure_eq_ok, Except.ok.injEq] at h
    subst h
    exact ⟨hs.splits, hs.suntiao, hs.yidui⟩
  · split at h
    · exact takeSuntiao_inv hs h
    · split at h
      · exact takeYidui_inv hs h
      · simp only [pure_eq_ok, Except.ok.injEq] at h
        exact h ▸ hs

theorem checkSitiao_inv {origins : List Poker} {st st' : RankPass} (hs : st.Inv origins)
    (h : checkSitiao st = .ok st') : st'.Inv origins := by
  unfold checkSitiao at h
  split at h
  · exact takeSitiao_inv hs h
  · simp only [pure_eq_ok, Except.ok.injEq] at h
    exact h ▸ hs

theorem rankPassBody_inv {origins : List Poker} {st st' : RankPass} (hs : st.Inv origins)
    (h : rankPassBody st = .ok (.again st')) : st'.Inv origins := by
  unfold rankPassBody at h
  split at h
  · simp only [bind_eq_ok, pure_eq_ok, Except.ok.injEq, Iter.again.injEq] at h
    obtain ⟨st₁, h₁, st₂, h₂, rfl⟩ := h
    have hs₀ : RankPass.Inv origins { st with ele := if st.ele < 1 then 1 else st.ele } :=
      ⟨hs.splits, hs.suntiao, hs.yidui⟩
    have hs₁ : st₁.Inv origins := endRun_inv hs₀ h₁
    have hs₂ : st₂.Inv origins := checkSitiao_inv hs₁ h₂
    exact ⟨hs₂.splits, hs₂.suntiao, hs₂.yidui⟩
  · simp at h

theorem rankPassBody_leave {st r : RankPass} (h : rankPassBody st = .ok (.leave r)) : r = st := by
  unfold rankPassBody at h
  split at h
  · simp [bind_eq_ok] at h
  · simpa [eq_comm] using h

theorem rankPass_inv {origins : List Poker} {fuel : Nat} {pokersArray : List PokerClass}
    {tmpNum : List Poker} {r : RankPass} (hs : Splits origins pokersArray tmpNum)
    (h : rankPass fuel pokersArray tmpNum = .ok r) : r.Inv origins :=
  loop_invariant (I := RankPass.Inv origins) (fun _ _ hs hb => rankPassBody_inv hs hb)
    (fun _ _ hs hb => rankPassBody_leave hb ▸ hs)
    ⟨by simpa [RankPass.classes] using hs, by simp, by simp⟩ h

/-! ## full houses -/

/-- The combinations `pairHulu` returns: full houses, then triples and pairs left over. -/
def pairedClasses (suntiao yidui : List PokerClass) : List PokerClass :=
  (pairHulu suntiao yidui).1 ++ (pairHulu suntiao yidui).2.1 ++ (pairHulu suntiao yidui).2.2

theorem pairedClasses_cons (san dui : PokerClass) (suntiao yidui : List PokerClass) :
    pairedClasses (san :: suntiao) (dui :: yidui) =
      { cards := sortedBy pokerNumCompare (san.cards ++ dui.cards), classing := 5 } ::
        pairedClasses suntiao yidui := rfl

theorem pairedClasses_nil_left (yidui : List PokerClass) : pairedClasses [] yidui = yidui := by
  simp [pairedClasses, pairHulu]

theorem pairedClasses_nil_right (suntiao : List PokerClass) :
    pairedClasses suntiao [] = suntiao := by
  cases suntiao <;> simp [pairedClasses, pairHulu]

/-- Pairing moves the cards of triples and pairs into full houses. -/
theorem perm_pairedClasses (suntiao yidui : List PokerClass) :
    (cardsOf (pairedClasses suntiao yidui)).Perm (cardsOf suntiao ++ cardsOf yidui) := by
  induction suntiao generalizing yidui with
  | nil => rw [pairedClasses_nil_left]; simp
  | cons san suntiao ih =>
      cases yidui with
      | nil => rw [pairedClasses_nil_right]; simp
      | cons dui yidui =>
          rw [pairedClasses_cons, cardsOf_cons, cardsOf_cons, cardsOf_cons]
          calc (sortedBy pokerNumCompare (san.cards ++ dui.cards) ++
                  cardsOf (pairedClasses suntiao yidui)).Perm
                ((san.cards ++ dui.cards) ++ (cardsOf suntiao ++ cardsOf yidui)) :=
                  (perm_sortedBy _ _).append (ih yidui)
            _ = san.cards ++ (dui.cards ++ (cardsOf suntiao ++ cardsOf yidui)) :=
                  List.append_assoc ..
            _ |>.Perm (san.cards ++ (cardsOf suntiao ++ (dui.cards ++ cardsOf yidui))) :=
                  (List.perm_append_comm_assoc ..).append_left _
            _ = (san.cards ++ cardsOf suntiao) ++ (dui.cards ++ cardsOf yidui) :=
                  (List.append_assoc ..).symm

theorem pairedClasses_shaped {suntiao yidui : List PokerClass}
    (hs : ∀ c ∈ suntiao, c.classing = 2 ∧ c.cards.length = 3)
    (hy : ∀ c ∈ yidui, c.classing = 1 ∧ c.cards.length = 2) :
    ∀ c ∈ pairedClasses suntiao yidui, Shaped c := by
  induction suntiao generalizing yidui with
  | nil =>
      intro c hc
      rw [pairedClasses_nil_left] at hc
      simp [Shaped, hy c hc]
  | cons san suntiao ih =>
      cases yidui with
      | nil =>
          intro c hc
          rw [pairedClasses_nil_right] at hc
          simp [Shaped, hs c hc]
      | cons dui yidui =>
          obtain ⟨hsan, hs⟩ := List.forall_mem_cons.mp hs
          obtain ⟨hdui, hy⟩ := List.forall_mem_cons.mp hy
          rw [pairedClasses_cons]
          refine List.forall_mem_cons.mpr ⟨?_, ih hs hy⟩
          simp [Shaped, hsan.2, hdui.2]

/-- **Pairing keeps the split**. -/
theorem RankPass.Inv.pairHulu {origins : List Poker} {st : RankPass} (hs : st.Inv origins) :
    Splits origins (st.pokersArray ++ pairedClasses st.suntiao st.yidui) st.tmpNum where
  perm := by
    refine List.Perm.trans ?_ hs.splits.perm
    simp only [RankPass.classes, cardsOf_append, List.append_assoc]
    refine List.Perm.append_left _ ?_
    rw [← List.append_assoc (cardsOf st.suntiao)]
    exact (perm_pairedClasses _ _).append_right _
  shaped := by
    intro c hc
    rcases List.mem_append.mp hc with hc | hc
    · exact hs.splits.shaped c (by simp [RankPass.classes, hc])
    · exact pairedClasses_shaped hs.suntiao hs.yidui c hc

/-! ## flushes and straights -/

theorem takeTonghua_splits {origins : List Poker} {st st' : FlushPass}
    (hs : Splits origins st.pokersArray st.tmpNum) (h : takeTonghua st = .ok st') :
    Splits origins st'.pokersArray st'.tmpNum := by
  simp only [takeTonghua, bind_eq_ok, pure_eq_ok, Except.ok.injEq] at h
  obtain ⟨ttmp, hx, tmpNum, hl, rfl⟩ := h
  refine hs.cut ?_ (perm_cutRun hx hl) (List.Perm.refl _) (List.Perm.refl _)
  simp [Shaped, length_readRun hx]

theorem checkTonghua_splits {origins : List Poker} {st st' : FlushPass}
    (hs : Splits origins st.pokersArray st.tmpNum) (h : checkTonghua st = .ok st') :
    Splits origins st'.pokersArray st'.tmpNum := by
  unfold checkTonghua at h
  split at h
  · exact takeTonghua_splits hs h
  · simp only [pure_eq_ok, Except.ok.injEq] at h
    exact h ▸ hs

theorem flushPassBody_splits {origins : List Poker} {st st' : FlushPass}
    (hs : Splits origins st.pokersArray st.tmpNum) (h : flushPassBody st = .ok (.again st')) :
    Splits origins st'.pokersArray st'.tmpNum := by
  unfold flushPassBody at h
  split at h
  · simp only [bind_eq_ok, pure_eq_ok, Except.ok.injEq, Iter.again.injEq] at h
    obtain ⟨st₁, h₁, st₂, h₂, rfl⟩ := h
    simp only [countSuit, bind_eq_ok, pure_eq_ok, Except.ok.injEq] at h₁
    obtain ⟨a, -, b, -, rfl⟩ := h₁
    have hs₂ : Splits origins st₂.pokersArray st₂.tmpNum := checkTonghua_splits (by exact hs) h₂
    exact hs₂
  · simp at h

theorem flushPassBody_leave {st r : FlushPass} (h : flushPassBody st = .ok (.leave r)) :
    r = st := by
  unfold flushPassBody at h
  split at h
  · simp [bind_eq_ok] at h
  · simpa [eq_comm] using h

theorem flushPass_splits {origins : List Poker} {fuel : Nat} {pokersArray : List PokerClass}
    {tmpNum : List Poker} {r : FlushPass} (hs : Splits origins pokersArray tmpNum)
    (h : flushPass fuel pokersArray tmpNum = .ok r) : Splits origins r.pokersArray r.tmpNum :=
  loop_invariant (I := fun st : FlushPass => Splits origins st.pokersArray st.tmpNum)
    (fun _ _ hs hb => flushPassBody_splits hs hb) (fun _ _ hs hb => flushPassBody_leave hb ▸ hs)
    hs h

theorem takeShunzi_splits {origins : List Poker} {st st' : StraightPass} {loc : List Int}
    (hs : Splits origins st.pokersArray st.tmpNum) (hloc : loc.Pairwise (fun a b => b < a))
    (h : takeShunzi st loc = .ok st') : Splits origins st'.pokersArray st'.tmpNum := by
  simp only [takeShunzi, bind_eq_ok, pure_eq_ok, Except.ok.injEq] at h
  obtain ⟨ttmp, hx, tmpNum, hl, rfl⟩ := h
  refine hs.cut ?_ (perm_cutLocs hloc hx hl) (perm_sortedBy _ _) (List.Perm.refl _)
  simp [Shaped, length_readLocs hx]

theorem checkShunzi_splits {origins : List Poker} {fuel : Nat} {st st' : StraightPass}
    {row : List Nat} {card : Poker} (hs : Splits origins st.pokersArray st.tmpNum)
    (hcard : idx st.tmpNum st.ele = .ok card) (hhead : ∀ b, idx row 1 = .ok b → b ≠ card.num)
    (h : checkShunzi fuel st row = .ok st') : Splits origins st'.pokersArray st'.tmpNum := by
  unfold checkShunzi at h
  obtain ⟨found, hscan, h⟩ := bind_eq_ok.mp h
  cases found with
  | none =>
      simp only [pure_eq_ok, Except.ok.injEq] at h
      exact h ▸ hs
  | some loc => exact takeShunzi_splits hs (scanRow_descending hcard hhead hscan) h

theorem straightPassBody_splits {origins : List Poker} {fuel : Nat} {st st' : StraightPass}
    (hs : Splits origins st.pokersArray st.tmpNum)
    (h : straightPassBody fuel st = .ok (.again st')) :
    Splits origins st'.pokersArray st'.tmpNum := by
  unfold straightPassBody at h
  split at h
  · simp only [bind_eq_ok] at h
    obtain ⟨card, hcard, row, hrow, head, hhead, h⟩ := h
    split at h
    · rename_i heq
      simp only [bind_eq_ok, pure_eq_ok, Except.ok.injEq, Iter.again.injEq] at h
      obtain ⟨st₁, h₁, rfl⟩ := h
      have hsecond : ∀ b, idx row 1 = .ok b → b ≠ card.num := fun b hb => by
        rw [heq]
        exact head_ne_second hrow hhead hb
      have hs₁ : Splits origins st₁.pokersArray st₁.tmpNum :=
        checkShunzi_splits hs hcard hsecond h₁
      exact hs₁
    · split at h
      all_goals
        simp only [pure_eq_ok, Except.ok.injEq, Iter.again.injEq] at h
        subst h
        exact hs
  · simp at h

theorem straightPassBody_leave {fuel : Nat} {st r : StraightPass}
    (h : straightPassBody fuel st = .ok (.leave r)) : r = st := by
  unfold straightPassBody at h
  split at h
  · simp only [bind_eq_ok] at h
    obtain ⟨card, -, row, -, head, -, h⟩ := h
    split at h
    · simp [bind_eq_ok] at h
    · split at h <;> simp at h
  · simpa [eq_comm] using h

theorem straightPass_splits {origins : List Poker} {fuel : Nat} {pokersArray : List PokerClass}
    {tmpNum : List Poker} {r : StraightPass} (hs : Splits origins pokersArray tmpNum)
    (h : straightPass fuel pokersArray tmpNum = .ok r) :
    Splits origins r.pokersArray r.tmpNum :=
  loop_invariant (I := fun st : StraightPass => Splits origins st.pokersArray st.tmpNum)
    (fun _ _ hs hb => straightPassBody_splits hs hb)
    (fun _ _ hs hb => straightPassBody_leave hb ▸ hs) hs h

/-! ## the whole classification -/

theorem cardsOf_singles (cards : List Poker) : cardsOf (singles cards) = cards := by
  simp [cardsOf, singles, List.flatMap_map]

/-- **The classification splits the hand** into combinations of the right sizes. -/
theorem classingPokers_splits {origins : List Poker} {out : List PokerClass}
    (h : classingPokers origins = .ok out) : Splits origins out [] := by
  simp only [classingPokers, bind_eq_ok, pure_eq_ok, Except.ok.injEq] at h
  obtain ⟨suit, hsuit, rank, hrank, flush, hflush, straight, hstraight, rfl⟩ := h
  have h₁ : Splits origins suit.pokersArray suit.tmpSuit :=
    ⟨(straightFlushPass_splits hsuit).perm.trans (perm_sortedBy _ _),
      (straightFlushPass_splits hsuit).shaped⟩
  have h₂ := rankPass_inv (h₁.reorder (perm_sortedBy _ _)) hrank
  have h₃ := h₂.pairHulu
  -- the triples and pairs left over wait for the output and take no part in what follows
  have hshaped : ∀ c ∈ rank.pokersArray ++ (pairHulu rank.suntiao rank.yidui).1, Shaped c :=
    fun c hc => h₃.shaped c (by
      simp only [pairedClasses, List.mem_append] at hc ⊢
      tauto)
  have h₄ := flushPass_splits
    (Splits.reorder ⟨List.Perm.refl _, hshaped⟩ (perm_sortedBy pokerSuitCompare _)) hflush
  have h₅ := straightPass_splits (h₄.reorder (perm_sortedBy pokerNumCompare _)) hstraight
  refine ⟨List.perm_iff_count.mpr fun a => ?_, fun c hc => ?_⟩
  · have hc₃ := h₃.perm.count_eq a
    have hc₅ := h₅.perm.count_eq a
    simp only [pairedClasses, cardsOf_append, cardsOf_singles, List.count_append,
      List.count_nil] at hc₃ hc₅ ⊢
    omega
  · simp only [List.mem_append] at hc
    rcases hc with ((hc | hc) | hc) | hc
    · exact h₅.shaped c hc
    · exact h₃.shaped c (by simp [pairedClasses, hc])
    · exact h₃.shaped c (by simp [pairedClasses, hc])
    · obtain ⟨card, -, rfl⟩ := List.mem_map.mp hc
      simp [Shaped]

/-- **Partition**: the cards of the combinations are the cards of the hand. -/
theorem perm_classingPokers {origins : List Poker} {out : List PokerClass}
    (h : classingPokers origins = .ok out) : (cardsOf out).Perm origins := by
  simpa using (classingPokers_splits h).perm

/-- Every combination of a classified hand has the cards its kind calls for. -/
theorem shaped_classingPokers {origins : List Poker} {out : List PokerClass}
    (h : classingPokers origins = .ok out) : ∀ c ∈ out, Shaped c :=
  (classingPokers_splits h).shaped

end IosGame
