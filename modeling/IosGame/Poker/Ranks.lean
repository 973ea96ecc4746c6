import IosGame.Poker.Ends
import Mathlib

/-!
# IosGame.Poker.Ranks

The rank pass of `ClassingPokers` is exact.  The scanned list is split in three:
the cards *done*, whose rank gave no combination or one already cut out, the *run*
of equal ranks the counter `numCount` stands for, and the cards still to come.
`Tally` says what the combinations cut out so far have taken of every rank;
`RankPass.Scan` ties the counter and the position to the split.

A four is cut out while its run goes on, and the scan resumes with an empty run
whose comparison is with the card before it; a triple or a pair is cut out when the
run ends, and the scan resumes on the first card of the next run.
-/

namespace IosGame

/-! ## cards of one rank -/

/-- How many cards of a list have rank `v`. -/
def rankCount (v : Nat) (cards : List Poker) : Nat := cards.countP (·.num == v)

/-- Whether every card of a combination has rank `v`. -/
def PokerClass.ofNum (v : Nat) (c : PokerClass) : Bool := c.cards.all (·.num == v)

/-- How many combinations of a list are of rank `v`. -/
def groupsOf (v : Nat) (cs : List PokerClass) : Nat := cs.countP (PokerClass.ofNum v)

/-- `k` cards of rank `v`, filed under `kind` without a level. -/
structure OfRank (kind : Int) (k v : Nat) (c : PokerClass) : Prop where
  classing : c.classing = kind
  level : c.level = 0
  cards : c.cards.map Poker.num = List.replicate k v

@[simp] theorem rankCount_nil (v : Nat) : rankCount v [] = 0 := rfl

@[simp] theorem rankCount_append (v : Nat) (xs ys : List Poker) :
    rankCount v (xs ++ ys) = rankCount v xs + rankCount v ys := by
  simp [rankCount]

theorem rankCount_cons (v : Nat) (x : Poker) (xs : List Poker) :
    rankCount v (x :: xs) = rankCount v xs + if x.num = v then 1 else 0 := by
  simp [rankCount, List.countP_cons]

theorem rankCount_perm (v : Nat) {xs ys : List Poker} (h : xs.Perm ys) :
    rankCount v xs = rankCount v ys := h.countP_eq _

theorem rankCount_pos {v : Nat} {xs : List Poker} :
    0 < rankCount v xs ↔ ∃ x ∈ xs, x.num = v := by
  simp [rankCount, List.countP_pos_iff]

@[simp] theorem groupsOf_nil (v : Nat) : groupsOf v [] = 0 := rfl

@[simp] theorem groupsOf_append (v : Nat) (cs ds : List PokerClass) :
    groupsOf v (cs ++ ds) = groupsOf v cs + groupsOf v ds := by
  simp [groupsOf]

theorem rankCount_eq_count (v : Nat) (xs : List Poker) :
    rankCount v xs = (xs.map Poker.num).count v := by
  simp [rankCount, List.count, List.countP_map, Function.comp_def]

/-- Cards of one rank count for that rank only. -/
theorem rankCount_replicate {k v : Nat} {xs : List Poker}
    (h : xs.map Poker.num = List.replicate k v) (w : Nat) :
    rankCount w xs = if v = w then k else 0 := by
  rw [rankCount_eq_count, h, List.count_replicate]
  simp only [beq_iff_eq]

/-- `k` cards of one rank are `k` cards. -/
theorem length_of_rank {k v : Nat} {xs : List Poker}
    (h : xs.map Poker.num = List.replicate k v) : xs.length = k := by
  have hlen := congrArg List.length h
  rwa [List.length_map, List.length_replicate] at hlen

theorem OfRank.length {kind : Int} {k v : Nat} {c : PokerClass} (h : OfRank kind k v c) :
    c.cards.length = k :=
  length_of_rank h.cards

/-- A combination of one rank counts for that rank only. -/
theorem OfRank.groupsOf_singleton {kind : Int} {k v : Nat} {c : PokerClass}
    (h : OfRank kind (k + 1) v c) (w : Nat) : groupsOf w [c] = if v = w then 1 else 0 := by
  have hall : PokerClass.ofNum w c = decide (v = w) := by
    have hmap : c.cards.all (·.num == w) = (c.cards.map Poker.num).all (· == w) := by
      simp [List.all_map, Function.comp_def]
    unfold PokerClass.ofNum
    rw [hmap, h.cards, List.all_replicate]
    by_cases hvw : v = w
    · simp [hvw]
    · simp [hvw]
  simp [groupsOf, List.countP_cons, hall]

theorem OfRank.num_eq {kind : Int} {k v : Nat} {c : PokerClass} (h : OfRank kind k v c)
    {card : Poker} (hcard : card ∈ c.cards) : card.num = v :=
  (List.mem_replicate.mp (h.cards ▸ List.mem_map_of_mem hcard)).2

theorem OfRank.groupsOf_pos {kind : Int} {k v : Nat} {c : PokerClass} (h : OfRank kind k v c)
    {cs : List PokerClass} (hmem : c ∈ cs) : 0 < groupsOf v cs := by
  rw [groupsOf, List.countP_pos_iff]
  refine ⟨c, hmem, ?_⟩
  simp only [PokerClass.ofNum, List.all_eq_true, beq_iff_eq]
  exact fun card hcard => h.num_eq hcard

/-- One combination above another in rank, card by card. -/
def Higher (a b : PokerClass) : Prop := ∀ x ∈ a.cards, ∀ y ∈ b.cards, y.num < x.num

theorem OfRank.higher {kind kind' : Int} {k k' v w : Nat} {a b : PokerClass}
    (ha : OfRank kind k v a) (hb : OfRank kind' k' w b) (hlt : w < v) : Higher a b := by
  intro x hx y hy
  rw [ha.num_eq hx, hb.num_eq hy]
  exact hlt

/-- One more combination at the end, below all others, of the same kind. -/
theorem forall_append_singleton {α : Type} {P : α → Prop} {cs : List α} {c : α}
    (hcs : ∀ d ∈ cs, P d) (hc : P c) : ∀ d ∈ cs ++ [c], P d := by
  intro d hd
  rcases List.mem_append.mp hd with hd | hd
  · exact hcs d hd
  · exact List.mem_singleton.mp hd ▸ hc

theorem pairwise_append_singleton {α : Type} {R : α → α → Prop} {cs : List α} {c : α}
    (hcs : cs.Pairwise R) (hc : ∀ d ∈ cs, R d c) : (cs ++ [c]).Pairwise R := by
  rw [List.pairwise_append]
  refine ⟨hcs, List.pairwise_singleton _ _, fun d hd e he => ?_⟩
  exact List.mem_singleton.mp he ▸ hc d hd

/-! ## what has been taken of every rank -/

/-- The fours, triples and pairs cut out of `start` so far, the cards `done` and the
cards `left`: fours take four of a rank each, and a rank that is done with leaves one
card, one pair or one triple at most. -/
structure Tally (start : List Poker) (fours suntiao yidui : List PokerClass)
    (done left : List Poker) : Prop where
  total : ∀ v, rankCount v start = rankCount v (done ++ left) + 4 * groupsOf v fours +
    3 * groupsOf v suntiao + 2 * groupsOf v yidui
  once : ∀ v, rankCount v done + groupsOf v suntiao + groupsOf v yidui ≤ 1
  above : ∀ v, 0 < rankCount v done + groupsOf v suntiao + groupsOf v yidui →
    ∀ x ∈ left, x.num < v
  sorted : left.Pairwise fun a b => b.num ≤ a.num
  ofFours : ∀ c ∈ fours, ∃ v, OfRank 6 4 v c
  ofSuntiao : ∀ c ∈ suntiao, ∃ v, OfRank 2 3 v c
  ofYidui : ∀ c ∈ yidui, ∃ v, OfRank 1 2 v c
  descSuntiao : suntiao.Pairwise Higher
  descYidui : yidui.Pairwise Higher
  descDone : done.Pairwise fun a b => b.num < a.num
  sublist : (done ++ left).Sublist start

namespace Tally

variable {start done run rest : List Poker} {fours suntiao yidui : List PokerClass}

/-- Before the pass everything is left. -/
theorem init (h : start.Pairwise fun a b => b.num ≤ a.num) : Tally start [] [] [] [] start where
  total := by simp
  once := by simp
  above := by simp
  sorted := h
  ofFours := by simp
  ofSuntiao := by simp
  ofYidui := by simp
  descSuntiao := List.Pairwise.nil
  descYidui := List.Pairwise.nil
  descDone := List.Pairwise.nil
  sublist := List.Sublist.refl _

/-- The cards after a run have a lower rank, or the run would go on. -/
theorem rest_lt {v : Nat} (h : Tally start fours suntiao yidui done (run ++ rest))
    (hrun : run ≠ []) (hnum : ∀ x ∈ run, x.num = v)
    (hend : ∀ y, rest.head? = some y → y.num ≠ v) : ∀ y ∈ rest, y.num < v := by
  obtain ⟨x, hx⟩ := List.exists_mem_of_ne_nil run hrun
  obtain ⟨-, hsorted, hle⟩ := List.pairwise_append.mp h.sorted
  cases rest with
  | nil => simp
  | cons y rest =>
      have hy : y.num < v := by
        have hle := hle x hx y List.mem_cons_self
        rw [hnum x hx] at hle
        exact lt_of_le_of_ne hle (hend y rfl)
      intro z hz
      rcases List.mem_cons.mp hz with rfl | hz
      · exact hy
      · exact lt_of_le_of_lt ((List.pairwise_cons.mp hsorted).1 z hz) hy

/-- A rank kept or taken is above the rank of the run. -/
theorem lt_of_seen {v w : Nat} (h : Tally start fours suntiao yidui done (run ++ rest))
    (hrun : run ≠ []) (hnum : ∀ x ∈ run, x.num = v)
    (hw : 0 < rankCount w done + groupsOf w suntiao + groupsOf w yidui) : v < w := by
  obtain ⟨x, hx⟩ := List.exists_mem_of_ne_nil run hrun
  exact hnum x hx ▸ h.above w hw x (List.mem_append_left _ hx)

/-- Nothing of the rank of the run has been kept or taken as a triple or a pair. -/
theorem fresh {v : Nat} (h : Tally start fours suntiao yidui done (run ++ rest))
    (hrun : run ≠ []) (hnum : ∀ x ∈ run, x.num = v) :
    rankCount v done + groupsOf v suntiao + groupsOf v yidui = 0 := by
  by_contra hpos
  exact absurd (h.lt_of_seen hrun hnum (by omega)) (lt_irrefl v)

/-- Cutting a run out leaves a sublist. -/
theorem sublist_cut (h : Tally start fours suntiao yidui done (run ++ rest)) :
    (done ++ rest).Sublist start :=
  ((List.sublist_append_right run rest).append_left done).trans h.sublist

/-- What a run of `k` cards of rank `v` cut out amounts to, rank by rank. -/
theorem run_count {kind : Int} {k v : Nat}
    (hc : OfRank kind (k + 1) v { cards := run, classing := kind })
    (w : Nat) : rankCount w run = (k + 1) * groupsOf w [{ cards := run, classing := kind }] ∧
      groupsOf w [{ cards := run, classing := kind }] = if v = w then 1 else 0 := by
  have hgroup := hc.groupsOf_singleton w
  refine ⟨?_, hgroup⟩
  rw [rankCount_replicate hc.cards, hgroup]
  split <;> simp

/-- One more card or combination of the rank of the run, which had none: still every rank
has one at most, and is above what is left. -/
theorem ends {v : Nat} {done' : List Poker} {suntiao' yidui' : List PokerClass}
    (h : Tally start fours suntiao yidui done (run ++ rest)) (hrun : run ≠ [])
    (hnum : ∀ x ∈ run, x.num = v) (hlt : ∀ y ∈ rest, y.num < v)
    (hseen : ∀ w, rankCount w done' + groupsOf w suntiao' + groupsOf w yidui' =
      rankCount w done + groupsOf w suntiao + groupsOf w yidui + if v = w then 1 else 0) :
    (∀ w, rankCount w done' + groupsOf w suntiao' + groupsOf w yidui' ≤ 1) ∧
      ∀ w, 0 < rankCount w done' + groupsOf w suntiao' + groupsOf w yidui' →
        ∀ x ∈ rest, x.num < w := by
  constructor
  · intro w
    have honce := h.once w
    rw [hseen w]
    split_ifs with hvw
    · have hfresh := h.fresh hrun hnum
      subst hvw
      omega
    · omega
  · intro w hw x hx
    rw [hseen w] at hw
    split_ifs at hw with hvw
    · exact hvw ▸ hlt x hx
    · exact h.above w hw x (List.mem_append_right _ hx)

/-- **A four** is cut out of the run. -/
theorem four {v : Nat} (h : Tally start fours suntiao yidui done (run ++ rest))
    (hrun : run.map Poker.num = List.replicate 4 v) :
    Tally start (fours ++ [{ cards := run, classing := 6 }]) suntiao yidui done rest := by
  have hc : OfRank 6 4 v { cards := run, classing := 6 } := ⟨rfl, rfl, hrun⟩
  refine ⟨fun w => ?_, h.once,
    fun w hw x hx => h.above w hw x (List.mem_append_right _ hx),
    (List.pairwise_append.mp h.sorted).2.1, forall_append_singleton h.ofFours ⟨v, hc⟩, h.ofSuntiao,
    h.ofYidui, h.descSuntiao, h.descYidui, h.descDone, h.sublist_cut⟩
  have htotal := h.total w
  have hcount := (run_count hc w).1
  simp only [rankCount_append, groupsOf_append] at htotal ⊢
  omega

/-- **A triple** is cut out when its run ends. -/
theorem triple {v : Nat} (h : Tally start fours suntiao yidui done (run ++ rest))
    (hrun : run.map Poker.num = List.replicate 3 v) (hlt : ∀ y ∈ rest, y.num < v) :
    Tally start fours (suntiao ++ [{ cards := run, classing := 2 }]) yidui done rest := by
  have hc : OfRank 2 3 v { cards := run, classing := 2 } := ⟨rfl, rfl, hrun⟩
  have hne : run ≠ [] := fun hnil => by simp [hnil] at hrun
  have hnum : ∀ x ∈ run, x.num = v := fun x hx => hc.num_eq hx
  have hseen : ∀ w, rankCount w done + groupsOf w (suntiao ++ [{ cards := run, classing := 2 }]) +
      groupsOf w yidui =
        rankCount w done + groupsOf w suntiao + groupsOf w yidui + if v = w then 1 else 0 := by
    intro w
    rw [groupsOf_append, (run_count hc w).2]
    omega
  obtain ⟨honce, habove⟩ := h.ends hne hnum hlt hseen
  refine ⟨fun w => ?_, honce, habove, (List.pairwise_append.mp h.sorted).2.1,
    h.ofFours, forall_append_singleton h.ofSuntiao ⟨v, hc⟩, h.ofYidui,
    pairwise_append_singleton h.descSuntiao fun a ha => ?_, h.descYidui, h.descDone,
    h.sublist_cut⟩
  · have htotal := h.total w
    have hcount := (run_count hc w).1
    simp only [rankCount_append, groupsOf_append] at htotal ⊢
    omega
  · obtain ⟨w, hw⟩ := h.ofSuntiao a ha
    have hpos := hw.groupsOf_pos ha
    exact hw.higher hc (h.lt_of_seen hne hnum (by omega))

/-- **A pair** is cut out when its run ends. -/
theorem pair {v : Nat} (h : Tally start fours suntiao yidui done (run ++ rest))
    (hrun : run.map Poker.num = List.replicate 2 v) (hlt : ∀ y ∈ rest, y.num < v) :
    Tally start fours suntiao (yidui ++ [{ cards := run, classing := 1 }]) done rest := by
  have hc : OfRank 1 2 v { cards := run, classing := 1 } := ⟨rfl, rfl, hrun⟩
  have hne : run ≠ [] := fun hnil => by simp [hnil] at hrun
  have hnum : ∀ x ∈ run, x.num = v := fun x hx => hc.num_eq hx
  have hseen : ∀ w, rankCount w done + groupsOf w suntiao +
      groupsOf w (yidui ++ [{ cards := run, classing := 1 }]) =
        rankCount w done + groupsOf w suntiao + groupsOf w yidui + if v = w then 1 else 0 := by
    intro w
    rw [groupsOf_append, (run_count hc w).2]
    omega
  obtain ⟨honce, habove⟩ := h.ends hne hnum hlt hseen
  refine ⟨fun w => ?_, honce, habove, (List.pairwise_append.mp h.sorted).2.1,
    h.ofFours, h.ofSuntiao, forall_append_singleton h.ofYidui ⟨v, hc⟩, h.descSuntiao,
    pairwise_append_singleton h.descYidui fun a ha => ?_, h.descDone, h.sublist_cut⟩
  · have htotal := h.total w
    have hcount := (run_count hc w).1
    simp only [rankCount_append, groupsOf_append] at htotal ⊢
    omega
  · obtain ⟨w, hw⟩ := h.ofYidui a ha
    have hpos := hw.groupsOf_pos ha
    exact hw.higher hc (h.lt_of_seen hne hnum (by omega))

/-- **A card alone in its rank** is kept. -/
theorem single {card : Poker} (h : Tally start fours suntiao yidui done (card :: rest))
    (hlt : ∀ y ∈ rest, y.num < card.num) :
    Tally start fours suntiao yidui (done ++ [card]) rest := by
  have hseen : ∀ w, rankCount w (done ++ [card]) + groupsOf w suntiao + groupsOf w yidui =
      rankCount w done + groupsOf w suntiao + groupsOf w yidui +
        if card.num = w then 1 else 0 := by
    intro w
    rw [rankCount_append, rankCount_cons, rankCount_nil]
    omega
  obtain ⟨honce, habove⟩ := ends h (List.cons_ne_nil card []) (by simp) hlt hseen
  refine ⟨fun w => ?_, honce, habove, (List.pairwise_cons.mp h.sorted).2,
    h.ofFours, h.ofSuntiao, h.ofYidui, h.descSuntiao, h.descYidui,
    pairwise_append_singleton h.descDone fun a ha => ?_, ?_⟩
  · have htotal := h.total w
    rw [List.append_assoc]
    exact htotal
  · have hpos : 0 < rankCount a.num done := rankCount_pos.mpr ⟨a, ha, rfl⟩
    exact h.above a.num (by omega) card List.mem_cons_self
  · rw [List.append_assoc]
    exact h.sublist

end Tally

/-! ## the pass -/

namespace RankPass

variable {start pa done run rest : List Poker} {before : List PokerClass} {st : RankPass}

/-- The combinations of `st`, beyond those found `before` the pass, are those of a
tally. -/
def Tallied (start : List Poker) (before : List PokerClass) (st : RankPass)
    (done left : List Poker) : Prop :=
  ∃ fours, st.pokersArray = before ++ fours ∧ Tally start fours st.suntiao st.yidui done left

/-- A run is being counted: `ele` is the place after it. -/
structure Counting (start : List Poker) (before : List PokerClass) (st : RankPass)
    (done run rest : List Poker) : Prop where
  tmpNum : st.tmpNum = done ++ (run ++ rest)
  ele : st.ele = (done.length + run.length : Nat)
  run_eq : ∃ v, run.map Poker.num = List.replicate (st.numCount + 1) v
  numCount : st.numCount ≤ 2
  tallied : st.Tallied start before done (run ++ rest)

/-- No run is being counted: a four was cut out at `ele`, or nothing is left. -/
structure Between (start : List Poker) (before : List PokerClass) (st : RankPass)
    (done rest : List Poker) : Prop where
  tmpNum : st.tmpNum = done ++ rest
  ele : st.ele = done.length ∨ rest = [] ∧ (done.length : Int) < st.ele
  numCount : st.numCount = 0
  tallied : st.Tallied start before done rest

/-- The invariant of the rank loop. -/
def Scan (start : List Poker) (before : List PokerClass) (st : RankPass) : Prop :=
  (∃ done run rest, st.Counting start before done run rest) ∨
    ∃ done rest, st.Between start before done rest

/-- With nothing counted and `ele` one past what is done, the next run begins. -/
theorem scan_next (done rest : List Poker) (htmp : st.tmpNum = done ++ rest)
    (hele : st.ele = done.length + 1)
    (hcount : st.numCount = 0) (htally : st.Tallied start before done rest) :
    st.Scan start before := by
  cases rest with
  | nil => exact .inr ⟨done, [], htmp, .inr ⟨rfl, by omega⟩, hcount, htally⟩
  | cons y rest =>
      refine .inl ⟨done, [y], rest, htmp, by simp [hele], ⟨y.num, ?_⟩, by omega, htally⟩
      rw [hcount]
      rfl

/-- The comparison of the loop sees whether the run goes on. -/
theorem sameNum_run (done run rest : List Poker) {k v : Nat}
    (hrun : run.map Poker.num = List.replicate (k + 1) v) :
    sameNum (done ++ (run ++ rest)) (done.length + run.length : Nat) =
      .ok (rest.head?.any (·.num == v)) := by
  have hne : run ≠ [] := by
    intro hnil
    simp [hnil] at hrun
  obtain ⟨init, x, rfl⟩ := (List.eq_nil_or_concat' run).resolve_left hne
  have hx : x.num = v := by
    have hmem : x.num ∈ (init ++ [x]).map Poker.num := by simp
    exact (List.mem_replicate.mp (hrun ▸ hmem)).2
  unfold sameNum
  cases rest with
  | nil => simp
  | cons y rest =>
      have hprev : idx (done ++ ((init ++ [x]) ++ y :: rest))
          ((done.length + (init ++ [x]).length : Nat) - 1) = .ok x := by
        have := idx_append_cons (done ++ init) x (y :: rest)
        rw [List.append_assoc] at this
        rw [List.append_assoc, List.singleton_append, List.length_append, List.length_singleton]
        rw [List.length_append] at this
        rw [← this]
        congr 1
        omega
      have hhere : idx (done ++ ((init ++ [x]) ++ y :: rest))
          (done.length + (init ++ [x]).length : Nat) = .ok y := by
        have := idx_append_cons (done ++ (init ++ [x])) y rest
        rw [List.append_assoc, List.length_append] at this
        exact this
      rw [if_pos (by simp), hprev, hhere]
      simp [hx, eq_comm]

/-- A pass whose position needs no clamp. -/
theorem rankPassBody_eq (st : RankPass) (h1 : 1 ≤ st.ele) (hle : st.ele ≤ st.tmpNum.length) :
    rankPassBody st = (do
      let st ← endRun st
      let st ← checkSitiao st
      pure (.again { st with ele := st.ele + 1 })) := by
  unfold rankPassBody
  rw [if_pos hle, if_neg (by omega)]

theorem takeSitiao_eq (st : RankPass) (htmp : st.tmpNum = done ++ (run ++ rest))
    (hlen : run.length = 4)
    (hele : st.ele = done.length + 3) :
    takeSitiao st = .ok { st with
      tmpNum := done ++ rest
      pokersArray := st.pokersArray ++ [{ cards := run, classing := 6 }]
      numCount := 0
      ele := st.ele - 4 } := by
  obtain ⟨hread, hremove⟩ := cutRun_eq htmp hlen (show st.ele - 3 = done.length by omega)
  rw [takeSitiao, hread, ok_bind, hremove, ok_bind]
  rfl

theorem takeSuntiao_eq (htmp : st.tmpNum = done ++ (run ++ rest)) (hlen : run.length = 3)
    (hele : st.ele = done.length + 3) :
    takeSuntiao st = .ok { st with
      tmpNum := done ++ rest
      suntiao := st.suntiao ++ [{ cards := run, classing := 2 }]
      numCount := 0
      ele := st.ele - 3 } := by
  obtain ⟨hread, hremove⟩ := cutRun_eq htmp hlen (show st.ele - 3 = done.length by omega)
  rw [takeSuntiao, hread, ok_bind, hremove, ok_bind]
  rfl

theorem takeYidui_eq (htmp : st.tmpNum = done ++ (run ++ rest)) (hlen : run.length = 2)
    (hele : st.ele = done.length + 2) :
    takeYidui st = .ok { st with
      tmpNum := done ++ rest
      yidui := st.yidui ++ [{ cards := run, classing := 1 }]
      numCount := 0
      ele := st.ele - 2 } := by
  obtain ⟨hread, hremove⟩ := cutRun_eq htmp hlen (show st.ele - 2 = done.length by omega)
  rw [takeYidui, hread, ok_bind, hremove, ok_bind]
  rfl

namespace Counting

theorem run_length (h : st.Counting start before done run rest) :
    run.length = st.numCount + 1 := by
  obtain ⟨v, hrun⟩ := h.run_eq
  simpa using congrArg List.length hrun

theorem body_eq (h : st.Counting start before done run rest) :
    rankPassBody st = (do
      let st ← endRun st
      let st ← checkSitiao st
      pure (.again { st with ele := st.ele + 1 })) := by
  have hlen := h.run_length
  refine rankPassBody_eq st ?_ ?_
  · rw [h.ele]
    omega
  · rw [h.ele, h.tmpNum, List.length_append, List.length_append]
    omega

/-- **The run goes on**: a fourth card of its rank completes a four. -/
theorem step_on {v : Nat} {y : Poker} (h : st.Counting start before done run (y :: rest))
    (hrun : run.map Poker.num = List.replicate (st.numCount + 1) v) (hy : y.num = v) :
    ∃ st', rankPassBody st = .ok (.again st') ∧ st'.Scan start before := by
  have hlen := h.run_length
  have hend : endRun st = .ok { st with numCount := st.numCount + 1 } := by
    unfold endRun
    rw [h.tmpNum, h.ele, sameNum_run done run _ hrun]
    simp [hy]
  have hrun' : (run ++ [y]).map Poker.num = List.replicate (st.numCount + 2) v := by
    rw [List.map_append, hrun, List.map_singleton, hy, ← List.replicate_succ']
  have htmp : st.tmpNum = done ++ ((run ++ [y]) ++ rest) := by
    rw [h.tmpNum, List.append_assoc run, List.singleton_append]
  obtain ⟨fours, harray, htally⟩ := h.tallied
  rw [show run ++ y :: rest = (run ++ [y]) ++ rest by simp] at htally
  rw [h.body_eq, hend, ok_bind]
  by_cases h3 : st.numCount = 2
  · -- the four starts where its run does
    have htake := takeSitiao_eq { st with numCount := st.numCount + 1 } htmp
      (by rw [List.length_append, List.length_singleton]; omega) (by simp only [h.ele]; omega)
    rw [checkSitiao, if_pos (by simp only; omega), htake, ok_bind]
    refine ⟨_, rfl, .inr ⟨done, rest, rfl, .inl ?_, rfl,
      fours ++ [{ cards := run ++ [y], classing := 6 }], ?_, ?_⟩⟩
    · simp only [h.ele]
      omega
    · simp only [harray, List.append_assoc]
    · rw [h3] at hrun'
      exact htally.four hrun'
  · have hle := h.numCount
    rw [checkSitiao, if_neg (by simp only; omega), pure_eq_ok, ok_bind]
    refine ⟨_, rfl, .inl ⟨done, run ++ [y], rest, htmp, ?_, ⟨v, hrun'⟩, by simp only; omega, fours,
      harray, htally⟩⟩
    simp only [h.ele, List.length_append, List.length_singleton]
    omega

/-- **The run ends**: it is a triple, a pair or a card of its own. -/
theorem step_end {v : Nat} (h : st.Counting start before done run rest)
    (hrun : run.map Poker.num = List.replicate (st.numCount + 1) v)
    (hnext : ∀ y, rest.head? = some y → y.num ≠ v) :
    ∃ st', rankPassBody st = .ok (.again st') ∧ st'.Scan start before := by
  have hlen := h.run_length
  have hle := h.numCount
  have hele := h.ele
  have hsame : sameNum st.tmpNum st.ele = .ok false := by
    rw [h.tmpNum, h.ele, sameNum_run done run _ hrun]
    cases hhead : rest.head? with
    | none => rfl
    | some y => simp [hnext y hhead]
  obtain ⟨fours, harray, htally⟩ := h.tallied
  have hnum : ∀ x ∈ run, x.num = v := fun x hx =>
    (List.mem_replicate.mp (hrun ▸ List.mem_map_of_mem hx)).2
  have hlt := htally.rest_lt (List.ne_nil_of_length_pos (by omega)) hnum hnext
  rw [h.body_eq, endRun, hsame, ok_bind]
  by_cases h2 : st.numCount = 2
  · have htake := takeSuntiao_eq h.tmpNum (by omega) (by omega)
    rw [if_neg (by simp), if_pos (by omega), htake, ok_bind, checkSitiao, if_neg (by simp)]
    refine ⟨_, rfl, scan_next done rest rfl ?_ rfl ⟨fours, harray, ?_⟩⟩
    · simp only
      omega
    · rw [h2] at hrun
      exact htally.triple hrun hlt
  · by_cases h1 : st.numCount = 1
    · have htake := takeYidui_eq h.tmpNum (by omega) (by omega)
      rw [if_neg (by simp), if_neg (by omega), if_pos (by omega), htake, ok_bind, checkSitiao,
        if_neg (by simp)]
      refine ⟨_, rfl, scan_next done rest rfl ?_ rfl ⟨fours, harray, ?_⟩⟩
      · simp only
        omega
      · rw [h1] at hrun
        exact htally.pair hrun hlt
    · obtain ⟨card, rfl⟩ := List.length_eq_one_iff.mp (show run.length = 1 by omega)
      rw [if_neg (by simp), if_neg (by omega), if_neg (by omega), pure_eq_ok, ok_bind, checkSitiao,
        if_neg (by omega), pure_eq_ok, ok_bind]
      refine ⟨_, rfl, scan_next (done ++ [card]) rest ?_ ?_ (by simp only; omega)
        ⟨fours, harray, htally.single ?_⟩⟩
      · simp only [h.tmpNum, List.append_assoc]
      · simp only [hele, List.length_append, List.length_singleton]
      · exact hnum card (List.mem_singleton_self card) ▸ hlt

theorem step (h : st.Counting start before done run rest) :
    ∃ st', rankPassBody st = .ok (.again st') ∧ st'.Scan start before := by
  obtain ⟨v, hrun⟩ := h.run_eq
  cases rest with
  | nil => exact h.step_end hrun (by simp)
  | cons y rest =>
      by_cases hy : y.num = v
      · exact h.step_on hrun hy
      · refine h.step_end hrun fun z hz => ?_
        simp only [List.head?_cons, Option.some.injEq] at hz
        exact hz ▸ hy

end Counting

namespace Between

/-- The card before the place of a four is of a higher rank than the card after it. -/
theorem sameNum_eq (h : st.Between start before done rest) (hele : st.ele = done.length)
    (hne : done ≠ []) : sameNum st.tmpNum st.ele = .ok false := by
  obtain ⟨init, x, rfl⟩ := (List.eq_nil_or_concat' done).resolve_left hne
  obtain ⟨fours, -, htally⟩ := h.tallied
  have hsame := sameNum_run init [x] rest (k := 0) (v := x.num) rfl
  have htmp : st.tmpNum = init ++ ([x] ++ rest) := by rw [h.tmpNum, List.append_assoc]
  have hplace : st.ele = (init.length + [x].length : Nat) := by simpa using hele
  rw [htmp, hplace, hsame]
  cases rest with
  | nil => rfl
  | cons y rest =>
      have hpos : 0 < rankCount x.num (init ++ [x]) := rankCount_pos.mpr ⟨x, by simp, rfl⟩
      have hlt := htally.above x.num (by omega) y List.mem_cons_self
      simp only [List.head?_cons, Option.any_some, Except.ok.injEq, beq_eq_false_iff_ne]
      omega

theorem step (h : st.Between start before done rest) (hle : st.ele ≤ st.tmpNum.length) :
    ∃ st', rankPassBody st = .ok (.again st') ∧ st'.Scan start before := by
  have hcount := h.numCount
  have hele : st.ele = done.length := by
    obtain hele | ⟨rfl, hlt⟩ := h.ele
    · exact hele
    · rw [h.tmpNum, List.append_nil] at hle
      omega
  by_cases hne : done = []
  · -- at the front the position is clamped, as if the first card had been counted
    subst hne
    cases rest with
    | nil =>
        have htmp : st.tmpNum = [] := h.tmpNum
        refine ⟨{ st with ele := 2 }, ?_, .inr ⟨[], [], htmp, .inr ⟨rfl, by simp⟩, hcount,
          h.tallied⟩⟩
        rw [rankPassBody, if_pos hle, if_pos (by rw [hele]; simp), endRun, htmp]
        simp [sameNum, checkSitiao, hcount]
    | cons y rest =>
        have htmp : st.tmpNum = [] ++ ([y] ++ rest) := h.tmpNum
        have hstart : Counting start before { st with ele := 1 } [] [y] rest :=
          ⟨htmp, rfl, ⟨y.num, by rw [hcount]; rfl⟩, by simp only; omega, h.tallied⟩
        have hbody : rankPassBody st = rankPassBody { st with ele := 1 } := by
          rw [rankPassBody_eq { st with ele := 1 } (le_refl _) (by simp [htmp]),
            rankPassBody, if_pos hle, if_pos (by rw [hele]; simp)]
        rw [hbody]
        exact hstart.step
  · have hlen := List.length_pos_of_ne_nil hne
    rw [rankPassBody_eq st (by omega) hle, endRun, h.sameNum_eq hele hne, ok_bind,
      if_neg (by simp), if_neg (by omega), if_neg (by omega), pure_eq_ok, ok_bind, checkSitiao,
      if_neg (by omega), pure_eq_ok, ok_bind]
    refine ⟨_, rfl, scan_next done rest h.tmpNum ?_ h.numCount h.tallied⟩
    simp only
    omega

end Between

/-- **One pass of the rank loop** from the invariant succeeds and keeps it, or leaves
with nothing left to look at. -/
theorem scan_step (h : st.Scan start before) :
    (∃ st', rankPassBody st = .ok (.again st') ∧ st'.Scan start before) ∨
      ∃ r, rankPassBody st = .ok (.leave r) ∧ r.Tallied start before r.tmpNum [] := by
  by_cases hle : st.ele ≤ st.tmpNum.length
  · obtain ⟨done, run, rest, h⟩ | ⟨done, rest, h⟩ := h
    · exact .inl h.step
    · exact .inl (h.step hle)
  · refine .inr ⟨st, by rw [rankPassBody, if_neg hle]; rfl, ?_⟩
    obtain ⟨done, run, rest, h⟩ | ⟨done, rest, h⟩ := h
    · have hele := h.ele
      rw [h.tmpNum, List.length_append, List.length_append] at hle
      omega
    · have htmp := h.tmpNum
      obtain hele | ⟨rfl, -⟩ := h.ele
      · rw [htmp, List.length_append] at hle
        omega
      · rw [List.append_nil] at htmp
        exact htmp ▸ h.tallied

end RankPass

/-- **The rank pass is exact**: on a list sorted by rank it returns, and what it cut
out of every rank and what it left are a tally with nothing left to look at. -/
theorem rankPass_exact {start : List Poker} {fuel : Nat} (before : List PokerClass)
    (hsorted : start.Pairwise fun a b => b.num ≤ a.num) (hfuel : start.length < fuel) :
    ∃ r, rankPass fuel before start = .ok r ∧ r.Tallied start before r.tmpNum [] := by
  refine loop_total (I := RankPass.Scan start before) (fun st hst => RankPass.scan_step hst) ?_
    (fueled_rankPass before hfuel)
  -- before the first pass the first card counts as a run
  exact RankPass.scan_next [] start rfl rfl rfl ⟨[], by simp, Tally.init hsorted⟩

end IosGame
