import IosGame.Poker.Valid

/-!
# IosGame.Poker.Flushes

The flush pass of `ClassingPokers` is exact where it returns: of every suit it takes as
many fives as there are, from the highest rank on (`flushPass_exact`).  It traps on
exactly the lists whose first suit has five cards and that have ten cards or more:
after the first five cards of the list are cut out, `ele` is 0 and the next pass, if
there is one, reads position `-1`.
-/

namespace IosGame

/-! ## cards of one suit -/

/-- How many cards of a list have suit `s`. -/
def suitCount (s : Nat) (cards : List Poker) : Nat := cards.countP (·.suitnum == s)

/-- How many combinations of a list are of suit `s`. -/
def flushesOf (s : Nat) (cs : List PokerClass) : Nat :=
  cs.countP fun c => c.cards.all (·.suitnum == s)

/-- How many cards of a list have the suit of its first card. -/
def firstSuitCount (cards : List Poker) : Nat :=
  cards.head?.elim 0 fun card => suitCount card.suitnum cards

@[simp] theorem suitCount_append (s : Nat) (xs ys : List Poker) :
    suitCount s (xs ++ ys) = suitCount s xs + suitCount s ys := by
  simp [suitCount]

theorem suitCount_le_length (s : Nat) (xs : List Poker) : suitCount s xs ≤ xs.length :=
  List.countP_le_length

theorem suitCount_eq_length {s : Nat} {xs : List Poker} (h : ∀ x ∈ xs, x.suitnum = s) :
    suitCount s xs = xs.length :=
  List.countP_eq_length.mpr fun x hx => by simpa using h x hx

theorem suitCount_eq_zero {s : Nat} {xs : List Poker} (h : ∀ x ∈ xs, x.suitnum ≠ s) :
    suitCount s xs = 0 :=
  List.countP_eq_zero.mpr fun x hx => by simpa using h x hx

theorem suitCount_le_of_subperm (s : Nat) {xs ys : List Poker} (h : xs.Subperm ys) :
    suitCount s xs ≤ suitCount s ys := h.countP_le _

theorem suitCount_perm (s : Nat) {xs ys : List Poker} (h : xs.Perm ys) :
    suitCount s xs = suitCount s ys := h.countP_eq _

/-- A combination of one suit counts for that suit only. -/
theorem flushesOf_singleton {c : PokerClass} {s : Nat} (hne : c.cards ≠ [])
    (h : ∀ card ∈ c.cards, card.suitnum = s) (t : Nat) :
    flushesOf t [c] = if s = t then 1 else 0 := by
  obtain ⟨card, hcard⟩ := List.exists_mem_of_ne_nil c.cards hne
  rw [flushesOf, List.countP_cons, List.countP_nil, zero_add]
  by_cases hst : s = t
  · subst hst
    rw [if_pos (by simpa using h), if_pos rfl]
  · rw [if_neg, if_neg hst]
    intro hall
    have := List.all_eq_true.mp hall card hcard
    exact hst ((h card hcard).symm.trans (by simpa using this))

/-! ## what has been taken of every suit -/

/-- The order by suit, then by rank. -/
def SuitOrderLe (a b : Poker) : Prop :=
  b.suitnum < a.suitnum ∨ a.suitnum = b.suitnum ∧ b.num ≤ a.num

/-- The flushes cut out of `start` so far and the cards left: five of a suit for every
flush, and none of them below a card of its suit that is left. -/
structure FlushTally (start : List Poker) (flushes : List PokerClass) (left : List Poker) :
    Prop where
  total : ∀ s, suitCount s start = suitCount s left + 5 * flushesOf s flushes
  valid : ∀ c ∈ flushes, c.classing = 4 ∧ Valid c
  perm : (cardsOf flushes ++ left).Perm start
  sublist : left.Sublist start
  top : ∀ c ∈ flushes, ∀ x ∈ c.cards, ∀ y ∈ left, y.suitnum = x.suitnum → y.num ≤ x.num

namespace FlushTally

variable {start done run rest left : List Poker} {flushes : List PokerClass} {s : Nat}

theorem init (start : List Poker) : FlushTally start [] start :=
  ⟨by simp [flushesOf], by simp, List.Perm.refl _, List.Sublist.refl _, by simp⟩

/-- **Five cards of one suit** are cut out, the first ones of their suit that are left. -/
theorem cut (h : FlushTally start flushes (done ++ (run ++ rest))) (hlen : run.length = 5)
    (hrun : ∀ x ∈ run, x.suitnum = s) (hdone : ∀ x ∈ done, x.suitnum ≠ s)
    (hsorted : start.Pairwise SuitOrderLe) :
    FlushTally start (flushes ++ [{ cards := run, classing := 4 }]) (done ++ rest) := by
  have hne : run ≠ [] := List.ne_nil_of_length_pos (by omega)
  have hsub : (done ++ rest).Sublist (done ++ (run ++ rest)) :=
    (List.sublist_append_right run rest).append_left done
  refine ⟨fun t => ?_, ?_, perm_cut h.perm (List.Perm.refl _), hsub.trans h.sublist, ?_⟩
  · have htotal := h.total t
    have hone := flushesOf_singleton (c := { cards := run, classing := 4 }) hne hrun t
    have hcount : suitCount t run = 5 * flushesOf t [{ cards := run, classing := 4 }] := by
      rw [hone]
      by_cases hst : s = t
      · rw [if_pos hst, suitCount_eq_length (hst ▸ hrun), hlen]
      · rw [if_neg hst, suitCount_eq_zero fun x hx => hrun x hx ▸ hst]
    rw [flushesOf, List.countP_append, ← flushesOf, ← flushesOf]
    simp only [suitCount_append] at htotal ⊢
    omega
  · intro c hc
    obtain hc | hc := List.mem_append.mp hc
    · exact h.valid c hc
    · rw [List.mem_singleton.mp hc]
      exact ⟨rfl, .flush rfl hlen (fun a ha b hb => by rw [hrun a ha, hrun b hb]) rfl⟩
  · intro c hc x hx y hy hsame
    obtain hc | hc := List.mem_append.mp hc
    · exact h.top c hc x hx y (hsub.subset hy) hsame
    · rw [List.mem_singleton.mp hc] at hx
      obtain hy | hy := List.mem_append.mp hy
      · exact absurd (hsame.trans (hrun x hx)) (hdone y hy)
      · have hord := hsorted.sublist h.sublist
        have hxy := (List.pairwise_append.mp (List.pairwise_append.mp hord).2.1).2.2 x hx y hy
        obtain hlt | ⟨-, hle⟩ := hxy
        · omega
        · exact hle

end FlushTally

/-! ## the pass -/

/-- The lists on which the flush pass reads position `-1`. -/
def FlushTrap (start : List Poker) : Prop := 10 ≤ start.length ∧ 5 ≤ firstSuitCount start

/-- What the pass makes of `start`, beyond the combinations `before`: no suit has five
cards left. -/
def FlushResult (start : List Poker) (before : List PokerClass) (r : FlushPass) : Prop :=
  ∃ flushes, r.pokersArray = before ++ flushes ∧ FlushTally start flushes r.tmpNum ∧
    ∀ s, suitCount s r.tmpNum ≤ 4

/-- The cards behind `done` are of lower suits, and no suit has five cards in `done`. -/
structure SuitsDone (start : List Poker) (before : List PokerClass) (st : FlushPass)
    (done left : List Poker) : Prop where
  tmpNum : st.tmpNum = done ++ left
  above : ∀ a ∈ done, ∀ b ∈ left, b.suitnum < a.suitnum
  few : ∀ s, suitCount s done ≤ 4
  tally : ∃ flushes, st.pokersArray = before ++ flushes ∧ FlushTally start flushes st.tmpNum
  front : done ≠ [] → firstSuitCount start ≤ 4

namespace FlushPass

variable {start done run rest : List Poker} {before : List PokerClass} {st : FlushPass}

/-- A suit is being counted: `ele` is the place after the cards counted. -/
structure Counting (start : List Poker) (before : List PokerClass) (st : FlushPass)
    (done run rest : List Poker) : Prop where
  suits : SuitsDone start before st done (run ++ rest)
  untouched : done = [] → st.tmpNum = start
  ele : st.ele = (done.length + run.length : Nat)
  suit : ∃ s, ∀ x ∈ run, x.suitnum = s
  suitsCount : run.length = st.suitsCount + 1
  few : st.suitsCount ≤ 3

/-- Five cards have just been cut out behind `done`: `suitsCount` still stands, but the
next comparison is with a card of another suit. -/
structure Between (start : List Poker) (before : List PokerClass) (st : FlushPass)
    (done rest : List Poker) : Prop where
  suits : SuitsDone start before st done rest
  done_ne : done ≠ []
  ele : st.ele = done.length

/-- Five cards have just been cut out at the front: `ele` is 0. -/
structure AtFront (start : List Poker) (before : List PokerClass) (st : FlushPass) : Prop where
  suits : SuitsDone start before st [] st.tmpNum
  ele : st.ele = 0
  length : start.length = st.tmpNum.length + 5
  five : 5 ≤ firstSuitCount start

/-- The invariant of the flush loop. -/
def Scan (start : List Poker) (before : List PokerClass) (st : FlushPass) : Prop :=
  (∃ done run rest, st.Counting start before done run rest) ∨
    (∃ done rest, st.Between start before done rest) ∨ st.AtFront start before

/-- How one pass of the flush loop goes on from the invariant. -/
def Steps (start : List Poker) (before : List PokerClass) (st : FlushPass) : Prop :=
  (∃ st', flushPassBody st = .ok (.again st') ∧ st'.Scan start before) ∨
    (∃ r, flushPassBody st = .ok (.leave r) ∧ FlushResult start before r ∧ ¬ FlushTrap start) ∨
    ∃ e, flushPassBody st = .error e ∧ e = .outOfRange ∧ FlushTrap start

theorem takeTonghua_eq (st : FlushPass) (htmp : st.tmpNum = done ++ (run ++ rest))
    (hlen : run.length = 5) (hele : st.ele = done.length + 4) :
    takeTonghua st = .ok { st with
      tmpNum := done ++ rest
      pokersArray := st.pokersArray ++ [{ cards := run, classing := 4 }]
      ele := st.ele - 5 } := by
  obtain ⟨hread, hremove⟩ := cutRun_eq htmp hlen (show st.ele - 4 = done.length by omega)
  rw [takeTonghua, hread, ok_bind, hremove, ok_bind]
  rfl

/-- The comparison of the loop, between the last card before a place and the card there. -/
theorem countSuit_eq (st : FlushPass) (init : List Poker) (x y : Poker) (tail : List Poker)
    (htmp : st.tmpNum = init ++ x :: y :: tail) (hele : st.ele = init.length + 1) :
    countSuit st = .ok { st with
      suitsCount := if x.suitnum = y.suitnum then st.suitsCount + 1 else 0 } := by
  have hx : idx st.tmpNum (st.ele - 1) = .ok x := by
    rw [htmp, show st.ele - 1 = init.length by omega]
    exact idx_append_cons ..
  have hy : idx st.tmpNum st.ele = .ok y := by
    have := idx_append_cons (init ++ [x]) y tail
    rw [List.length_append, List.append_assoc] at this
    rw [htmp, show st.ele = (init.length + [x].length : Nat) by simpa using hele]
    exact this
  rw [countSuit, hx, ok_bind, hy, ok_bind]
  rfl

/-- A pass that makes its comparison. -/
theorem flushPassBody_eq {st' : FlushPass} (hgo : st.ele < st.tmpNum.length ∧ 4 < st.tmpNum.length)
    (h : countSuit st = .ok st') :
    flushPassBody st = (do
      let st ← checkTonghua st'
      pure (.again { st with ele := st.ele + 1 })) := by
  rw [flushPassBody, if_pos hgo, h, ok_bind]

/-- With few cards, or with all of them done, no suit has five cards left. -/
theorem result (h : SuitsDone start before st done rest)
    (hend : st.tmpNum.length ≤ 4 ∨ rest = []) : FlushResult start before st := by
  obtain ⟨flushes, harray, htally⟩ := h.tally
  refine ⟨flushes, harray, htally, fun s => ?_⟩
  obtain hfew | rfl := hend
  · exact le_trans (suitCount_le_length s _) hfew
  · rw [h.tmpNum, List.append_nil]
    exact h.few s

/-- The card behind `done` begins the count of its suit. -/
theorem step_next {y : Poker} (h : SuitsDone start before st done (y :: rest)) (hne : done ≠ [])
    (hele : st.ele = done.length) (hgo : st.ele < st.tmpNum.length ∧ 4 < st.tmpNum.length)
    (hcount : countSuit st = .ok { st with suitsCount := 0 }) :
    ∃ st', flushPassBody st = .ok (.again st') ∧ st'.Scan start before := by
  rw [flushPassBody_eq hgo hcount, checkTonghua, if_neg (by simp), pure_eq_ok, ok_bind]
  refine ⟨_, rfl, .inl ⟨done, [y], rest, ⟨h.tmpNum, h.above, h.few, h.tally, h.front⟩,
    fun hnil => absurd hnil hne, ?_, ⟨y.suitnum, by simp⟩, rfl, by simp⟩⟩
  simp only [hele, List.length_singleton]
  omega

namespace Counting

theorem run_ne_nil (h : st.Counting start before done run rest) : run ≠ [] :=
  List.ne_nil_of_length_pos (by have := h.suitsCount; omega)

/-- The suit counted is done with when the cards behind it are of lower suits. -/
theorem close {s : Nat} (h : st.Counting start before done run rest)
    (hrun : ∀ x ∈ run, x.suitnum = s) (hrest : ∀ b ∈ rest, b.suitnum < s) :
    SuitsDone start before st (done ++ run) rest := by
  have hlen := h.suitsCount
  have hfew := h.few
  obtain ⟨x, hx⟩ := List.exists_mem_of_ne_nil run h.run_ne_nil
  refine ⟨by rw [h.suits.tmpNum, List.append_assoc], ?_, fun t => ?_, h.suits.tally, fun _ => ?_⟩
  · intro a ha b hb
    obtain ha | ha := List.mem_append.mp ha
    · exact h.suits.above a ha b (List.mem_append_right _ hb)
    · exact (hrun a ha).symm ▸ hrest b hb
  · rw [suitCount_append]
    by_cases hst : s = t
    · have hzero : suitCount t done = 0 := suitCount_eq_zero fun a ha heq => by
        have hlt := h.suits.above a ha x (List.mem_append_left _ hx)
        rw [hrun x hx] at hlt
        omega
      have hle := suitCount_le_length t run
      omega
    · have hzero : suitCount t run = 0 := suitCount_eq_zero fun a ha => hrun a ha ▸ hst
      have hle := h.suits.few t
      omega
  · by_cases hdone : done = []
    · -- the cards counted are those of the first suit
      subst hdone
      obtain ⟨z, tail, rfl⟩ := List.exists_cons_of_ne_nil h.run_ne_nil
      have hz := hrun z List.mem_cons_self
      have hzero : suitCount s rest = 0 :=
        suitCount_eq_zero fun b hb => Nat.ne_of_lt (hrest b hb)
      have hstart : start = z :: tail ++ rest := (h.untouched rfl).symm.trans h.suits.tmpNum
      have hall : suitCount s (z :: tail) = (z :: tail).length := suitCount_eq_length hrun
      rw [hstart, firstSuitCount, List.cons_append, List.head?_cons, Option.elim_some, hz,
        ← List.cons_append, suitCount_append]
      omega
    · exact h.suits.front hdone

theorem leave (h : st.Counting start before done run rest)
    (hend : ¬ (st.ele < st.tmpNum.length ∧ 4 < st.tmpNum.length)) :
    FlushResult start before st ∧ ¬ FlushTrap start := by
  unfold FlushTrap
  by_cases hfew : st.tmpNum.length ≤ 4
  · refine ⟨result h.suits (.inl hfew), ?_⟩
    by_cases hdone : done = []
    · rw [← h.untouched hdone]
      omega
    · have hfront := h.suits.front hdone
      omega
  · have hele := h.ele
    have hlen := congrArg List.length h.suits.tmpNum
    rw [List.length_append, List.length_append] at hlen
    have hrest : rest = [] := List.length_eq_zero_iff.mp (by omega)
    obtain ⟨s, hrun⟩ := h.suit
    have hclose := h.close hrun (by simp [hrest])
    have hfront := hclose.front (by simp [h.run_ne_nil])
    exact ⟨result hclose (.inr hrest), by omega⟩

/-- **The suit goes on**: a fifth card completes a flush. -/
theorem step_on {s : Nat} {y : Poker} (h : st.Counting start before done run (y :: rest))
    (hgo : st.ele < st.tmpNum.length ∧ 4 < st.tmpNum.length) (hsorted : start.Pairwise SuitOrderLe)
    (hrun : ∀ x ∈ run, x.suitnum = s) (hy : y.suitnum = s)
    (hcount : countSuit st = .ok { st with suitsCount := st.suitsCount + 1 }) :
    ∃ st', flushPassBody st = .ok (.again st') ∧ st'.Scan start before := by
  have hlen := h.suitsCount
  have hfew := h.few
  have hele := h.ele
  have htmp : st.tmpNum = done ++ ((run ++ [y]) ++ rest) := by
    rw [h.suits.tmpNum, List.append_assoc run, List.singleton_append]
  have hrun' : ∀ x ∈ run ++ [y], x.suitnum = s := forall_append_singleton hrun hy
  have hlen' : (run ++ [y]).length = run.length + 1 := by simp
  rw [flushPassBody_eq hgo hcount]
  by_cases h4 : st.suitsCount = 3
  · obtain ⟨flushes, harray, htally⟩ := h.suits.tally
    rw [htmp] at htally
    have hdone : ∀ x ∈ done, x.suitnum ≠ s := fun a ha heq => by
      have hlt := h.suits.above a ha y (by simp)
      omega
    have hcut := htally.cut (by omega) hrun' hdone hsorted
    have hsuits : ∀ a ∈ done, ∀ b ∈ rest, b.suitnum < a.suitnum :=
      fun a ha b hb => h.suits.above a ha b (by simp [hb])
    have htally' : ∃ fs, st.pokersArray ++ [{ cards := run ++ [y], classing := 4 }] = before ++ fs ∧
        FlushTally start fs (done ++ rest) :=
      ⟨_, by rw [harray, List.append_assoc], hcut⟩
    have htake := takeTonghua_eq { st with suitsCount := st.suitsCount + 1 } htmp (by omega)
      (by simp only; omega)
    rw [checkTonghua, if_pos (by simp only; omega), htake, ok_bind]
    refine ⟨_, rfl, .inr ?_⟩
    by_cases hnil : done = []
    · subst hnil
      have hstart : start = (run ++ [y]) ++ rest := (h.untouched rfl).symm.trans htmp
      refine .inr ⟨⟨rfl, by simp, by simp [suitCount], htally', by simp⟩, ?_, ?_, ?_⟩
      · rw [List.length_nil] at hele
        simp only
        omega
      · rw [hstart]
        simp only [List.length_append, List.length_singleton, List.nil_append]
        omega
      · obtain ⟨z, tail, hcons⟩ := List.exists_cons_of_ne_nil h.run_ne_nil
        have hz : z.suitnum = s := hrun z (hcons ▸ List.mem_cons_self)
        have hall : suitCount s (run ++ [y]) = (run ++ [y]).length := suitCount_eq_length hrun'
        have hhead : start.head? = some z := by rw [hstart, hcons]; rfl
        rw [firstSuitCount, hhead, Option.elim_some, hz, hstart, suitCount_append]
        omega
    · refine .inl ⟨done, rest, ⟨rfl, hsuits, h.suits.few, htally', h.suits.front⟩, hnil, ?_⟩
      simp only [hele]
      omega
  · rw [checkTonghua, if_neg (by simp only; omega), pure_eq_ok, ok_bind]
    refine ⟨_, rfl, .inl ⟨done, run ++ [y], rest, ⟨htmp, ?_, h.suits.few, h.suits.tally,
      h.suits.front⟩, h.untouched, ?_, ⟨s, hrun'⟩, ?_, ?_⟩⟩
    · intro a ha b hb
      exact h.suits.above a ha b (by simpa using hb)
    · simp only [hele, hlen']
      omega
    · simp only [hlen']
      omega
    · simp only
      omega

/-- **The suit ends**: the count starts over. -/
theorem step_end {s : Nat} {y : Poker} (h : st.Counting start before done run (y :: rest))
    (hgo : st.ele < st.tmpNum.length ∧ 4 < st.tmpNum.length)
    (hrun : ∀ x ∈ run, x.suitnum = s) (hrest : ∀ b ∈ y :: rest, b.suitnum < s)
    (hcount : countSuit st = .ok { st with suitsCount := 0 }) :
    ∃ st', flushPassBody st = .ok (.again st') ∧ st'.Scan start before := by
  refine step_next (h.close hrun hrest) (by simp [h.run_ne_nil]) ?_ hgo hcount
  rw [h.ele, List.length_append]

theorem steps (h : st.Counting start before done run rest)
    (hsorted : start.Pairwise SuitOrderLe) : st.Steps start before := by
  by_cases hgo : st.ele < st.tmpNum.length ∧ 4 < st.tmpNum.length
  · have hele := h.ele
    have htmp := h.suits.tmpNum
    obtain ⟨s, hrun⟩ := h.suit
    cases rest with
    | nil =>
        rw [htmp, List.append_nil, List.length_append] at hgo
        omega
    | cons y rest =>
        obtain ⟨init, x, hsplit⟩ := (List.eq_nil_or_concat' run).resolve_left h.run_ne_nil
        have hx : x.suitnum = s := hrun x (by rw [hsplit]; simp)
        have hcount := countSuit_eq st (done ++ init) x y rest
          (by rw [htmp, hsplit]; simp) (by rw [hele, hsplit]; simp; omega)
        obtain ⟨flushes, -, htally⟩ := h.suits.tally
        have hord := hsorted.sublist htally.sublist
        rw [htmp] at hord
        obtain ⟨-, hrest, hxy⟩ := List.pairwise_append.mp (List.pairwise_append.mp hord).2.1
        by_cases hy : x.suitnum = y.suitnum
        · rw [if_pos hy] at hcount
          exact .inl (h.step_on hgo hsorted hrun (hy ▸ hx) hcount)
        · rw [if_neg hy] at hcount
          have hlt : y.suitnum < s := by
            obtain hlt | ⟨heq, -⟩ := hxy x (by rw [hsplit]; simp) y List.mem_cons_self
            · omega
            · exact absurd heq hy
          refine .inl (h.step_end hgo hrun (List.forall_mem_cons.mpr ⟨hlt, fun b hb => ?_⟩) hcount)
          obtain hlt' | ⟨heq, -⟩ := (List.pairwise_cons.mp hrest).1 b hb <;> omega
  · exact .inr (.inl ⟨st, by rw [flushPassBody, if_neg hgo]; rfl, h.leave hgo⟩)

end Counting

theorem Between.steps (h : st.Between start before done rest) : st.Steps start before := by
  have htmp := h.suits.tmpNum
  by_cases hgo : st.ele < st.tmpNum.length ∧ 4 < st.tmpNum.length
  · have hele := h.ele
    cases rest with
    | nil =>
        rw [htmp, List.append_nil] at hgo
        omega
    | cons y rest =>
        obtain ⟨init, x, rfl⟩ := (List.eq_nil_or_concat' done).resolve_left h.done_ne
        have hcount := countSuit_eq st init x y rest (by rw [htmp]; simp) (by rw [hele]; simp)
        have hlt := h.suits.above x (by simp) y List.mem_cons_self
        rw [if_neg (by omega)] at hcount
        exact .inl (step_next h.suits h.done_ne hele hgo hcount)
  · refine .inr (.inl ⟨st, by rw [flushPassBody, if_neg hgo]; rfl, result h.suits ?_, ?_⟩)
    · by_cases hfew : st.tmpNum.length ≤ 4
      · exact .inl hfew
      · have hele := h.ele
        have hlen := congrArg List.length htmp
        rw [List.length_append] at hlen
        exact .inr (List.length_eq_zero_iff.mp (by omega))
    · have hfront := h.suits.front h.done_ne
      unfold FlushTrap
      omega

theorem AtFront.steps (h : st.AtFront start before) : st.Steps start before := by
  have hele := h.ele
  have hlen := h.length
  have hfive := h.five
  by_cases hgo : st.ele < st.tmpNum.length ∧ 4 < st.tmpNum.length
  · -- position `-1` is read
    refine .inr (.inr ⟨.outOfRange, ?_, rfl, ?_⟩)
    · rw [flushPassBody, if_pos hgo, countSuit, hele]
      rfl
    · unfold FlushTrap
      omega
  · refine .inr (.inl ⟨st, by rw [flushPassBody, if_neg hgo]; rfl, ?_, ?_⟩)
    · exact result h.suits (.inl (by omega))
    · unfold FlushTrap
      omega

theorem Scan.steps (h : st.Scan start before) (hsorted : start.Pairwise SuitOrderLe) :
    st.Steps start before := by
  obtain ⟨done, run, rest, h⟩ | ⟨done, rest, h⟩ | h := h
  · exact h.steps hsorted
  · exact h.steps
  · exact h.steps

end FlushPass

/-- **The flush pass is exact**: on a sorted list it takes the fives of every suit, or
traps, and it traps on exactly the lists of `FlushTrap`. -/
theorem flushPass_exact {start : List Poker} {fuel : Nat} (before : List PokerClass)
    (hsorted : start.Pairwise SuitOrderLe) (hfuel : start.length < fuel) :
    (∃ r, flushPass fuel before start = .ok r ∧ FlushResult start before r ∧ ¬ FlushTrap start) ∨
      flushPass fuel before start = .error .outOfRange ∧ FlushTrap start := by
  cases start with
  | nil =>
      obtain ⟨k, rfl⟩ : ∃ k, fuel = k + 1 := ⟨fuel - 1, by omega⟩
      refine .inl ⟨{ tmpNum := [], ele := 1, suitsCount := 0, pokersArray := before }, ?_,
        ⟨[], by simp, FlushTally.init [], by simp [suitCount]⟩, by simp [FlushTrap]⟩
      exact loop_leave (by rw [flushPassBody, if_neg (by simp)]; rfl) k
  | cons x rest =>
      have hinit : FlushPass.Counting (x :: rest) before
          { tmpNum := x :: rest, ele := 1, suitsCount := 0, pokersArray := before } [] [x] rest :=
        ⟨⟨rfl, by simp, by simp [suitCount], ⟨[], by simp, FlushTally.init _⟩, by simp⟩,
          fun _ => rfl, rfl, ⟨x.suitnum, by simp⟩, rfl, by simp⟩
      obtain h | ⟨e, h, rfl, htrap⟩ := loop_outcome (I := FlushPass.Scan (x :: rest) before)
        (fun st hst => hst.steps hsorted) (.inl ⟨[], [x], rest, hinit⟩)
        (fueled_flushPass before hfuel)
      · exact .inl h
      · exact .inr ⟨h, htrap⟩

end IosGame
