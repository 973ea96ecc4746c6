import IosGame.Descending
import IosGame.Poker.Valid

/-!
# IosGame.Poker.Straights

The straight pass of `ClassingPokers` as a scan of the ranks alone (`Visits`): a rank
that heads one of the rows 0 to 8 is looked at once; if the row is there it is cut out,
and the rank that moves into its place is passed over (`straightPass_exact`).  Row 9
shares its head with row 0 and is never reached.

A list of at most thirteen ranks holds two straights at most, so what the pass misses is
a second straight that begins with the rank passed over (`visits_leaves`).
-/

namespace IosGame

/-! ## ordinary rows -/

/-- Rows 0 to 8 of `SHUNZI`. -/
def ordinaryRows : List (List Nat) := shunzi.take 9

/-- `row` is the ordinary row that begins with `v`. -/
def Heads (v : Nat) (row : List Nat) : Prop := row ∈ ordinaryRows ∧ row.head? = some v

theorem ordinaryRows_getElem? {k : Nat} (h : k < 9) : ordinaryRows[k]? = shunzi[k]? := by
  rw [ordinaryRows, List.getElem?_take_of_lt h]

/-- The ordinary rows are the rows 0 to 8. -/
theorem mem_ordinaryRows {row : List Nat} :
    row ∈ ordinaryRows ↔ ∃ k ≤ 8, shunzi[k]? = some row := by
  constructor
  · intro h
    obtain ⟨k, hk⟩ := List.getElem?_of_mem h
    obtain ⟨hlt, -⟩ := List.getElem?_eq_some_iff.mp hk
    have hlen : ordinaryRows.length = 9 := rfl
    rw [ordinaryRows_getElem? (by omega)] at hk
    exact ⟨k, by omega, hk⟩
  · rintro ⟨k, hk, hrow⟩
    exact List.mem_of_getElem? ((ordinaryRows_getElem? (by omega)).trans hrow)

theorem mem_shunzi_of_ordinary {row : List Nat} (h : row ∈ ordinaryRows) : row ∈ shunzi :=
  List.mem_of_mem_take h

theorem Heads.unique {v : Nat} {row row' : List Nat} (h : Heads v row) (h' : Heads v row') :
    row = row' := by
  have hall : ∀ r ∈ ordinaryRows, ∀ r' ∈ ordinaryRows, r.head? = r'.head? → r = r' := by decide
  exact hall row h.1 row' h'.1 (h.2.trans h'.2.symm)

/-- The ordinary rows stand by their heads, in descending order. -/
theorem pairwise_ordinaryRows :
    ordinaryRows.Pairwise fun a b => b.headD 0 < a.headD 0 := by decide

/-! ## the scan of the ranks -/

/-- `Visits ns left`: the scan of the ranks `ns` leaves `left`. -/
inductive Visits : List Nat → List Nat → Prop where
  | nil : Visits [] []
  | keep {v : Nat} {rest left : List Nat} (fails : ∀ row, Heads v row → ¬ row ⊆ v :: rest)
      (visits : Visits rest left) : Visits (v :: rest) (v :: left)
  | cut {v : Nat} {rest row left : List Nat} (heads : Heads v row) (held : row ⊆ v :: rest)
      (visits : Visits ((rest.filter (· ∉ row)).drop 1) left) :
      Visits (v :: rest) ((rest.filter (· ∉ row)).take 1 ++ left)

/-- A scan that meets no row leaves everything. -/
theorem visits_self {ns : List Nat} (h : ∀ row ∈ ordinaryRows, ¬ row ⊆ ns) : Visits ns ns := by
  induction ns with
  | nil => exact .nil
  | cons v rest ih =>
      refine .keep (fun row hrow => h row hrow.1) (ih fun row hrow hsub => h row hrow ?_)
      exact fun w hw => List.mem_cons_of_mem v (hsub hw)

/-! ## the pass -/

/-- The straights cut out of `start` so far and the cards left. -/
structure StraightTally (start : List Poker) (straights : List PokerClass) (left : List Poker) :
    Prop where
  valid : ∀ c ∈ straights, c.classing = 3 ∧ Valid c
  perm : (cardsOf straights ++ left).Perm start
  sublist : left.Sublist start

/-- What the pass makes of `start`, beyond the combinations `before`. -/
def StraightResult (start : List Poker) (before : List PokerClass) (r : StraightPass) : Prop :=
  ∃ straights, r.pokersArray = before ++ straights ∧ StraightTally start straights r.tmpNum ∧
    Visits (start.map Poker.num) (r.tmpNum.map Poker.num)

/-- The invariant of the straight loop: the cards `seen` stay, and whatever the scan of
`todo` leaves is what the scan of `start` leaves behind them.  The rows before `cmp` are
not headed by the next card. -/
structure StraightPass.Scan (start : List Poker) (before : List PokerClass) (st : StraightPass)
    (seen todo : List Poker) (cmp : Nat) : Prop where
  tmpNum : st.tmpNum = seen ++ todo
  ele : st.ele = seen.length ∨ todo = [] ∧ (seen.length : Int) < st.ele
  cmp_eq : st.cmp = cmp
  cmp_lt : cmp < 10
  tally : ∃ straights, st.pokersArray = before ++ straights ∧
    StraightTally start straights st.tmpNum
  visits : ∀ left, Visits (todo.map Poker.num) left →
    Visits (start.map Poker.num) (seen.map Poker.num ++ left)
  tried : ∀ j < cmp, ∀ row, shunzi[j]? = some row →
    ∀ card, todo.head? = some card → row.head? ≠ some card.num

namespace StraightPass.Scan

variable {start seen todo : List Poker} {before : List PokerClass} {st : StraightPass}
  {card : Poker} {row : List Nat} {cmp fuel n : Nat}

/-- The row tried at `cmp` is an ordinary one if the next card heads it. -/
theorem heads (h : st.Scan start before seen (card :: todo) cmp) (hrow : shunzi[cmp]? = some row)
    (hhead : row.head? = some card.num) : Heads card.num row := by
  have hcmp := h.cmp_lt
  by_cases h9 : cmp = 9
  · -- row 9 begins like row 0, which the card does not head
    subst h9
    have hsame : shunzi[0]?.bind List.head? = shunzi[9]?.bind List.head? := by decide
    obtain ⟨row₀, hrow₀⟩ : ∃ row₀, shunzi[0]? = some row₀ := ⟨_, rfl⟩
    rw [hrow₀, hrow, Option.bind_some, Option.bind_some] at hsame
    exact absurd (hsame.trans hhead) (h.tried 0 (by omega) row₀ hrow₀ card rfl)
  · exact ⟨mem_ordinaryRows.mpr ⟨cmp, by omega, hrow⟩, hhead⟩

/-- The rows that did not match the last card do not match a lower one. -/
theorem tried_below (h : st.Scan start before seen (card :: todo) cmp)
    (hrow : shunzi[cmp]? = some row) (hhead : row.head? = some card.num) {v : Nat}
    (hv : v < card.num) : ∀ j < cmp, ∀ r, shunzi[j]? = some r → r.head? ≠ some v := by
  intro j hj r hr heq
  have hcmp : cmp < 9 := by
    by_contra h9
    have hnine : cmp = 9 := by have := h.cmp_lt; omega
    subst hnine
    have hmem := (h.heads hrow hhead).1
    have hnot : ∀ r ∈ ordinaryRows, shunzi[9]? ≠ some r := by decide
    exact hnot row hmem hrow
  have hget := (ordinaryRows_getElem? hcmp).trans hrow
  have hget' := (ordinaryRows_getElem? (hj.trans hcmp)).trans hr
  obtain ⟨hlt, rfl⟩ := List.getElem?_eq_some_iff.mp hget
  obtain ⟨hlt', rfl⟩ := List.getElem?_eq_some_iff.mp hget'
  have hdesc := List.pairwise_iff_getElem.mp pairwise_ordinaryRows j cmp hlt' hlt hj
  rw [List.headD_eq_head?_getD, List.headD_eq_head?_getD, hhead, heq] at hdesc
  exact absurd hdesc (by simp only [Option.getD_some]; omega)

theorem ele_eq (h : st.Scan start before seen (card :: todo) cmp) : st.ele = seen.length := by
  obtain hele | ⟨hnil, -⟩ := h.ele
  · exact hele
  · cases hnil

theorem descending (h : st.Scan start before seen todo cmp)
    (hdesc : (start.map Poker.num).Pairwise fun a b => b < a) :
    (todo.map Poker.num).Pairwise fun a b => b < a := by
  obtain ⟨straights, -, htally⟩ := h.tally
  have hsub := (htally.sublist.map Poker.num)
  rw [h.tmpNum, List.map_append] at hsub
  exact (List.pairwise_append.mp (hdesc.sublist hsub)).2.1

/-- **A card stays** when its row is not there. -/
theorem keep (h : st.Scan start before seen (card :: todo) cmp) {cmp' : Nat} (hcmp' : cmp' < 10)
    (hfails : ∀ r, Heads card.num r → ¬ r ⊆ (card :: todo).map Poker.num)
    (htried : ∀ j < cmp', ∀ r, shunzi[j]? = some r →
      ∀ next, todo.head? = some next → r.head? ≠ some next.num) :
    StraightPass.Scan start before { st with cmp := cmp', ele := st.ele + 1 } (seen ++ [card]) todo
      cmp' := by
  refine ⟨by rw [h.tmpNum, List.append_assoc, List.singleton_append], .inl ?_, rfl, hcmp', h.tally,
    fun left hleft => ?_, htried⟩
  · simp only [h.ele_eq, List.length_append, List.length_singleton]
    omega
  · have hvisits := h.visits (card.num :: left) (.keep hfails hleft)
    rw [List.map_append, List.append_assoc]
    exact hvisits

/-- **The straight is cut out**, and the card that moves into its place is passed over. -/
theorem cut {loc : List Int} (h : st.Scan start before seen (card :: todo) cmp)
    (hdesc : (start.map Poker.num).Pairwise fun a b => b < a) (hrow : shunzi[cmp]? = some row)
    (hhead : row.head? = some card.num) (hsub : row.Sublist ((card :: todo).map Poker.num))
    (hloc : loc.Pairwise fun a b => b < a)
    (hplaces : Places (card :: todo) seen.length loc row.reverse) :
    ∃ st', takeShunzi st loc = .ok st' ∧ ∃ seen' todo',
      StraightPass.Scan start before { st' with ele := st'.ele + 1 } seen' todo' cmp := by
  have hmem := List.mem_of_getElem? hrow
  obtain ⟨ttmp, seg', hread, hremove, hnums, hperm, hsub'⟩ := cutRow_exact [] hmem hloc hplaces
  rw [List.append_nil] at hread hremove
  rw [← h.tmpNum] at hread hremove
  have hheld : row ⊆ card.num :: todo.map Poker.num := fun v hv => by
    simpa using hsub.subset hv
  have hnums' : (ttmp.map Poker.num).Perm row :=
    ((perm_sortedBy pokerNumCompare ttmp).symm.map _).trans (List.Perm.of_eq hnums)
  -- what is left of the part, rank by rank
  have hseg' : seg'.map Poker.num = (todo.map Poker.num).filter (· ∉ row) := by
    have hordered := h.descending hdesc
    have hnodup : ((card :: todo).map Poker.num).Nodup := hordered.imp fun hab => Nat.ne_of_gt hab
    have hperm' :
        (ttmp.map Poker.num ++ seg'.map Poker.num).Perm ((card :: todo).map Poker.num) := by
      rw [← List.map_append]
      exact hperm.map _
    have hcard : card.num ∈ row := List.mem_of_head? hhead
    rw [eq_filter_of_cut hnodup (hsub'.map _) hperm', List.map_cons, List.filter_cons_of_neg]
    · exact List.filter_congr fun v _ => by simp [hnums'.mem_iff]
    · simp [hnums'.mem_iff, hcard]
  have hvisits : ∀ left, Visits ((seg'.map Poker.num).drop 1) left →
      Visits (start.map Poker.num)
        (seen.map Poker.num ++ ((seg'.map Poker.num).take 1 ++ left)) := by
    rw [hseg']
    exact fun left hleft => h.visits _ (.cut (h.heads hrow hhead) hheld hleft)
  obtain ⟨straights, harray, htally⟩ := h.tally
  have htally' : ∃ cs, st.pokersArray ++
      [{ cards := sortedBy pokerNumCompare ttmp, classing := 3, level := 10 - st.cmp }] =
        before ++ cs ∧ StraightTally start cs (seen ++ seg') := by
    refine ⟨_, by rw [harray, List.append_assoc],
      forall_append_singleton htally.valid ⟨rfl, ?_⟩, ?_, ?_⟩
    · refine .straight (k := cmp) rfl (rowOf_of_perm hrow (by rw [hnums])) ?_
      simp only [h.cmp_eq]
    · have hcut := ((perm_sortedBy pokerNumCompare ttmp).append_right seg').trans hperm
      exact perm_cut (h.tmpNum ▸ htally.perm) hcut
    · exact (hsub'.append_left seen).trans (h.tmpNum ▸ htally.sublist)
  rw [takeShunzi, hread, ok_bind, hremove, ok_bind, List.append_nil]
  refine ⟨_, rfl, ?_⟩
  cases seg' with
  | nil =>
      refine ⟨seen, [], by simp, .inr ⟨rfl, ?_⟩, h.cmp_eq, h.cmp_lt, htally', ?_, by simp⟩
      · simp only [h.ele_eq]
        omega
      · intro left hleft
        have := hvisits left (by simpa using hleft)
        simpa using this
  | cons y rest =>
      refine ⟨seen ++ [y], rest, by simp, .inl ?_, h.cmp_eq, h.cmp_lt, by simpa using htally', ?_,
        ?_⟩
      · simp only [h.ele_eq, List.length_append, List.length_singleton]
        omega
      · intro left hleft
        have := hvisits left (by simpa using hleft)
        simpa using this
      · intro j hj r hr next hnext
        have hmem' : next.num ∈ (y :: rest).map Poker.num :=
          List.mem_map_of_mem (List.mem_cons_of_mem y (List.mem_of_head? hnext))
        rw [hseg'] at hmem'
        have hlt := (List.pairwise_cons.mp (h.descending hdesc)).1 next.num
          (List.mem_filter.mp hmem').1
        exact h.tried_below hrow hhead hlt j hj r hr

/-- **One pass of the straight loop**. -/
theorem step (h : st.Scan start before seen todo cmp)
    (hdesc : (start.map Poker.num).Pairwise fun a b => b < a) (hfuel : start.length < fuel) :
    (∃ st', straightPassBody fuel st = .ok (.again st') ∧
        ∃ seen' todo' cmp', st'.Scan start before seen' todo' cmp') ∨
      ∃ r, straightPassBody fuel st = .ok (.leave r) ∧ StraightResult start before r := by
  have hcmp := h.cmp_lt
  have hlen := congrArg List.length h.tmpNum
  rw [List.length_append] at hlen
  by_cases hgo : st.ele < st.tmpNum.length ∧ 4 < st.tmpNum.length
  · cases todo with
    | nil =>
        obtain hele | ⟨-, hele⟩ := h.ele
        · simp only [List.length_nil] at hlen; omega
        · simp only [List.length_nil] at hlen; omega
    | cons card todo =>
        have hele := h.ele_eq
        obtain ⟨row, head, r, hcons, hrow, hidx, hhead⟩ := exists_row h.cmp_eq hcmp
        have hmem := List.mem_of_getElem? hrow
        have hcard : idx st.tmpNum st.ele = .ok card := by
          rw [h.tmpNum, hele]
          exact idx_append_cons ..
        have hbelow := h.descending hdesc
        rw [straightPassBody, if_pos hgo, hcard, ok_bind, hidx, ok_bind, hhead, ok_bind]
        by_cases heq : card.num = head
        · have hrowhead : row.head? = some card.num := by rw [hcons, heq]; rfl
          have htmp : st.tmpNum = seen ++ (card :: todo ++ []) := by rw [List.append_nil, h.tmpNum]
          have hstop : (st.tmpNum.length : Int) - 1 + 1 = seen.length + (card :: todo).length := by
            omega
          obtain ⟨straights, -, htally⟩ := h.tally
          have hle := htally.sublist.length_le
          have hscan := scanRow_exact seen todo [] hmem hrowhead hstop
            (show (card :: todo).length < fuel by omega)
          rw [← htmp, ← hele] at hscan
          rw [if_pos heq]
          obtain ⟨hsub, loc, hscan, hloc, hplaces⟩ | ⟨hnot, hscan⟩ := hscan
          · rw [hele] at hplaces
            obtain ⟨st', htake, seen', todo', hst'⟩ := h.cut hdesc hrow hrowhead hsub hloc hplaces
            have hcheck : checkShunzi fuel st row = takeShunzi st loc := by
              rw [checkShunzi, hscan]
              rfl
            rw [hcheck, htake, ok_bind]
            exact .inl ⟨_, rfl, seen', todo', cmp, hst'⟩
          · have hcheck : checkShunzi fuel st row = .ok st := by
              rw [checkShunzi, hscan]
              rfl
            rw [hcheck, ok_bind]
            refine .inl ⟨_, rfl, seen ++ [card], todo, cmp, ?_⟩
            have hkeep := h.keep hcmp (fun r hr hsub => hnot ?_) (fun j hj r hr next hnext => ?_)
            · rw [← h.cmp_eq] at hkeep
              exact hkeep
            · rw [hr.unique (h.heads hrow hrowhead)] at hsub
              exact sublist_of_subset (descending_row hmem) hbelow hsub
            · refine h.tried_below hrow hrowhead ?_ j hj r hr
              exact (List.pairwise_cons.mp hbelow).1 _
                (List.mem_map_of_mem (List.mem_of_head? hnext))
        · have hne : row.head? ≠ some card.num := by
            rw [hcons, List.head?_cons, ne_eq, Option.some.injEq]
            exact fun h => heq h.symm
          have hten : (shunzi.length : Int) = 10 := rfl
          rw [if_neg heq]
          by_cases h9 : cmp = 9
          · -- no row is left to try
            rw [if_pos (by rw [h.cmp_eq, hten]; omega)]
            refine .inl ⟨_, rfl, seen ++ [card], todo, 0, h.keep (show 0 < 10 by omega)
              (fun r hr _ => ?_) (by simp)⟩
            obtain ⟨j, hj, hget⟩ := mem_ordinaryRows.mp hr.1
            exact h.tried j (by omega) r hget card rfl hr.2
          · rw [if_neg (by rw [h.cmp_eq, hten]; omega)]
            refine .inl ⟨_, rfl, seen, card :: todo, cmp + 1, h.tmpNum, h.ele, ?_, by omega,
              h.tally, h.visits, fun j hj r hr next hnext => ?_⟩
            · simp only [h.cmp_eq]
              omega
            · by_cases hlast : j = cmp
              · rw [hlast, hrow, Option.some.injEq] at hr
                rw [List.head?_cons, Option.some.injEq] at hnext
                exact hnext ▸ hr ▸ hne
              · exact h.tried j (by omega) r hr next hnext
  · refine .inr ⟨st, by rw [straightPassBody, if_neg hgo]; rfl, ?_⟩
    obtain ⟨straights, harray, htally⟩ := h.tally
    refine ⟨straights, harray, htally, ?_⟩
    rw [h.tmpNum, List.map_append]
    refine h.visits _ (visits_self fun row hrow => ?_)
    by_cases hnil : todo = []
    · exact not_subset_of_few (mem_shunzi_of_ordinary hrow) (by simp [hnil])
    · refine not_subset_of_few (mem_shunzi_of_ordinary hrow) ?_
      obtain hele | ⟨hnil', -⟩ := h.ele
      · have hpos := List.length_pos_of_ne_nil hnil
        rw [List.length_map]
        omega
      · exact absurd hnil' hnil

end StraightPass.Scan

/-- **The straight pass is exact**: on cards of descending ranks it returns, and what it
leaves is what the scan of the ranks leaves. -/
theorem straightPass_exact {start : List Poker} {fuel n : Nat} (before : List PokerClass)
    (hdesc : (start.map Poker.num).Pairwise fun a b => b < a) (hlen : start.length ≤ n)
    (hfuel : loopFuel n ≤ fuel) :
    ∃ r, straightPass fuel before start = .ok r ∧ StraightResult start before r := by
  have hinit : StraightPass.Scan start before
      { tmpNum := start, ele := 0, cmp := 0, pokersArray := before } [] start 0 :=
    ⟨rfl, .inl rfl, rfl, by omega, ⟨[], by simp, by simp, List.Perm.refl _, List.Sublist.refl _⟩,
      fun _ hleft => hleft, by simp⟩
  have hmore : start.length < fuel := by
    unfold loopFuel at hfuel
    omega
  exact loop_total (I := fun st => ∃ seen todo cmp, StraightPass.Scan start before st seen todo cmp)
    (fun st ⟨_, _, _, h⟩ => h.step hdesc hmore) ⟨[], start, 0, hinit⟩
    (fueled_straightPass before hlen hfuel)

/-! ## what the scan misses -/

/-- The highest ordinary row whose ranks are all among `ns`. -/
def firstStraight (ns : List Nat) : Option (List Nat) :=
  ordinaryRows.find? fun row => row.all fun v => v ∈ ns

/-- Once the highest straight is taken out, another one is left, and it begins with the
very next rank below the head of the first. -/
def Skipped (ns : List Nat) : Prop :=
  ∃ row, firstStraight ns = some row ∧
    (∃ row' ∈ ordinaryRows, row' ⊆ ns.filter (· ∉ row)) ∧
    ∀ row' ∈ ordinaryRows, row' ⊆ ns.filter (· ∉ row) →
      ∀ v ∈ ns.filter (· ∉ row), v < row.headD 0 → v ≤ row'.headD 0

instance (ns : List Nat) : Decidable (Skipped ns) :=
  inferInstanceAs (Decidable (∃ row ∈ firstStraight ns, _ ∧ _))

theorem firstStraight_eq_none {ns : List Nat} :
    firstStraight ns = none ↔ ∀ row ∈ ordinaryRows, ¬ row ⊆ ns :=
  find?_held_eq_none

theorem firstStraight_mem {ns row : List Nat} (h : firstStraight ns = some row) :
    row ∈ ordinaryRows ∧ row ⊆ ns :=
  find?_held h

/-- No straight of the list has a higher head than the first one. -/
theorem firstStraight_head {ns row row' : List Nat} (h : firstStraight ns = some row)
    (hrow' : row' ∈ ordinaryRows) (hsub : row' ⊆ ns) : row'.headD 0 ≤ row.headD 0 := by
  obtain rfl | hlt := find?_first pairwise_ordinaryRows h hrow'
    (List.all_eq_true.mpr fun v hv => decide_eq_true (hsub hv))
  · exact le_refl _
  · exact le_of_lt hlt

theorem Heads.headD {v : Nat} {row : List Nat} (h : Heads v row) : row.headD 0 = v := by
  rw [List.headD_eq_head?_getD, h.2]
  rfl

theorem exists_heads {row : List Nat} (h : row ∈ ordinaryRows) : Heads (row.headD 0) row := by
  have hall : ∀ r ∈ ordinaryRows, r.head? = some (r.headD 0) := by decide
  exact ⟨h, hall row h⟩

theorem headD_mem {row : List Nat} (h : row ∈ ordinaryRows) : row.headD 0 ∈ row :=
  List.mem_of_head? (exists_heads h).2

theorem le_headD {row : List Nat} (h : row ∈ ordinaryRows) {v : Nat} (hv : v ∈ row) :
    v ≤ row.headD 0 := by
  have hall : ∀ r ∈ ordinaryRows, ∀ w ∈ r, w ≤ r.headD 0 := by decide
  exact hall row h v hv

theorem Visits.sublist {ns left : List Nat} (h : Visits ns left) : left.Sublist ns := by
  induction h with
  | nil => exact List.Sublist.refl []
  | keep _ _ ih => exact ih.cons_cons _
  | @cut v rest row left _ _ _ ih =>
      have hsub : ((rest.filter (· ∉ row)).take 1 ++ left).Sublist (rest.filter (· ∉ row)) := by
        conv_rhs => rw [← List.take_append_drop 1 (rest.filter (· ∉ row))]
        exact ih.append_left _
      exact (hsub.trans List.filter_sublist).cons v

/-- Without a straight everything is left. -/
theorem Visits.eq_of_none {ns left : List Nat} (h : Visits ns left)
    (hnone : ∀ row ∈ ordinaryRows, ¬ row ⊆ ns) : left = ns := by
  induction h with
  | nil => rfl
  | keep _ _ ih =>
      rw [ih fun row hrow hsub => hnone row hrow fun w hw => List.mem_cons_of_mem _ (hsub hw)]
  | cut heads held _ _ => exact absurd held (hnone _ heads.1)

/-- **The scan up to the first straight**: everything above its head stays, and the scan
goes on behind the next rank below. -/
theorem Visits.at_first {ns left row : List Nat} (h : Visits ns left)
    (hdesc : ns.Pairwise fun a b => b < a) (hfirst : firstStraight ns = some row) :
    ∃ pre v rest left', ns = pre ++ v :: rest ∧ Heads v row ∧ row ⊆ v :: rest ∧
      Visits ((rest.filter (· ∉ row)).drop 1) left' ∧
      left = pre ++ ((rest.filter (· ∉ row)).take 1 ++ left') := by
  obtain ⟨hrow, hheld⟩ := firstStraight_mem hfirst
  induction h with
  | nil => exact absurd hheld (not_subset_of_few (mem_shunzi_of_ordinary hrow) (by simp))
  | @keep v rest left fails visits ih =>
      obtain ⟨hlt, hdesc⟩ := List.pairwise_cons.mp hdesc
      -- the row does not begin with `v`, so `v` is above it
      have hv : v ∉ row := by
        intro hv
        have hle := le_headD hrow hv
        obtain heq | hmem := List.mem_cons.mp (hheld (headD_mem hrow))
        · exact fails row (heq ▸ exists_heads hrow) hheld
        · have := hlt _ hmem
          omega
      have hheld' : row ⊆ rest := fun w hw => by
        obtain rfl | hmem := List.mem_cons.mp (hheld hw)
        · exact absurd hw hv
        · exact hmem
      have hfirst' : firstStraight rest = some row := by
        cases hrest : firstStraight rest with
        | none => exact absurd hheld' (firstStraight_eq_none.mp hrest row hrow)
        | some row' =>
            obtain ⟨hrow', hsub'⟩ := firstStraight_mem hrest
            have hle := firstStraight_head hrest hrow hheld'
            have hle' := firstStraight_head hfirst hrow' fun w hw =>
              List.mem_cons_of_mem v (hsub' hw)
            have heq : row'.headD 0 = row.headD 0 := le_antisymm hle' hle
            rw [(exists_heads hrow').unique (heq ▸ exists_heads hrow)]
      obtain ⟨pre, w, rest', left', rfl, hheads, hsub, hvisits, rfl⟩ := ih hdesc hfirst' hheld'
      exact ⟨v :: pre, w, rest', left', rfl, hheads, hsub, hvisits, rfl⟩
  | @cut v rest row' left heads held visits _ =>
      have hle := firstStraight_head hfirst heads.1 held
      rw [heads.headD] at hle
      have heq : row.headD 0 = v := by
        obtain heq | hmem := List.mem_cons.mp (hheld (headD_mem hrow))
        · exact heq
        · have := (List.pairwise_cons.mp hdesc).1 _ hmem
          omega
      obtain rfl := heads.unique (heq ▸ exists_heads hrow)
      exact ⟨[], v, rest, left, rfl, heads, held, visits, rfl⟩

/-- Cutting a row out of a list that begins with its head takes five ranks. -/
theorem length_filter_row {v : Nat} {row rest : List Nat} (hheads : Heads v row)
    (hsub : row ⊆ v :: rest) : (rest.filter (· ∉ row)).length + 5 ≤ (v :: rest).length := by
  have hmem := mem_shunzi_of_ordinary hheads.1
  have hcut : row ⊆ (v :: rest).filter (· ∈ row) := fun w hw => by
    simpa using ⟨List.mem_cons.mp (hsub hw), hw⟩
  have hfive := (List.subperm_of_subset (nodup_row hmem) hcut).length_le
  have hv : v ∈ row := List.mem_of_head? hheads.2
  have hsplit := List.length_eq_length_filter_add (l := v :: rest) fun w => decide (w ∈ row)
  have hrest : (v :: rest).filter (fun w => !decide (w ∈ row)) = rest.filter (· ∉ row) := by
    rw [List.filter_cons_of_neg (by simp [hv])]
    exact List.filter_congr fun w _ => by simp
  rw [length_row hmem] at hfive
  rw [hrest] at hsplit
  omega

/-- A scan that meets a straight takes at least five ranks. -/
theorem Visits.shrinks {ns left row : List Nat} (h : Visits ns left)
    (hdesc : ns.Pairwise fun a b => b < a) (hrow : row ∈ ordinaryRows) (hsub : row ⊆ ns) :
    left.length + 5 ≤ ns.length := by
  cases hfirst : firstStraight ns with
  | none => exact absurd hsub (firstStraight_eq_none.mp hfirst row hrow)
  | some row' =>
      obtain ⟨pre, v, rest, left', rfl, hheads, hheld, hvisits, rfl⟩ := h.at_first hdesc hfirst
      have hfive := length_filter_row hheads hheld
      have hle := hvisits.sublist.length_le
      have hsplit := congrArg List.length (List.take_append_drop 1 (rest.filter (· ∉ row')))
      simp only [List.length_append, List.length_cons] at hfive hsplit ⊢
      omega

/-- Of at most eight ranks left by the first straight, `f` below its head `v`, the scan
behind the first of `f` leaves a straight exactly when all straights begin there. -/
theorem scan_behind {pre f left : List Nat} {v : Nat}
    (hdesc : (pre ++ v :: f).Pairwise fun a b => b < a) (hlen : pre.length + f.length ≤ 8)
    (hvisits : Visits (f.drop 1) left)
    (hbelow : ∀ row ∈ ordinaryRows, row ⊆ pre ++ f → row.headD 0 < v) :
    (∃ row ∈ ordinaryRows, row ⊆ pre ++ (f.take 1 ++ left)) ↔
      (∃ row ∈ ordinaryRows, row ⊆ pre ++ f) ∧
        ∀ row ∈ ordinaryRows, row ⊆ pre ++ f → ∀ w ∈ pre ++ f, w < v → w ≤ row.headD 0 := by
  obtain ⟨-, hvf, hcross⟩ := List.pairwise_append.mp hdesc
  obtain ⟨hf, hfdesc⟩ := List.pairwise_cons.mp hvf
  have hpre : ∀ w ∈ pre, v < w := fun w hw => hcross w hw v List.mem_cons_self
  -- a straight left is among the ranks below `v`
  have hin : ∀ row ∈ ordinaryRows, row ⊆ pre ++ f → row ⊆ f := fun row hrow hsub w hw => by
    have hlt := hbelow row hrow hsub
    have hle := le_headD hrow hw
    obtain hmem | hmem := List.mem_append.mp (hsub hw)
    · have := hpre w hmem
      omega
    · exact hmem
  by_cases htail : ∃ row ∈ ordinaryRows, row ⊆ f.drop 1
  · -- a second straight is cut out, and too few ranks remain
    obtain ⟨row₂, hrow₂, hsub₂⟩ := htail
    have hshrink := hvisits.shrinks (hfdesc.sublist (List.drop_sublist 1 f)) hrow₂ hsub₂
    have hfew : (pre ++ (f.take 1 ++ left)).length ≤ 4 := by
      simp only [List.length_append, List.length_take, List.length_drop] at hshrink ⊢
      omega
    refine ⟨fun ⟨row, hrow, hsub⟩ => ?_, fun ⟨_, hall⟩ => ?_⟩
    · exact absurd hsub (not_subset_of_few (mem_shunzi_of_ordinary hrow) hfew)
    · cases f with
      | nil => exact absurd hsub₂ (not_subset_of_few (mem_shunzi_of_ordinary hrow₂) (by simp))
      | cons y t =>
          have hsub : row₂ ⊆ pre ++ y :: t := fun w hw =>
            List.mem_append_right _ (List.mem_cons_of_mem y (hsub₂ hw))
          have hle := hall row₂ hrow₂ hsub y (by simp) (hf y List.mem_cons_self)
          have hlt := (List.pairwise_cons.mp hfdesc).1 _ (hsub₂ (headD_mem hrow₂))
          omega
  · -- nothing more is cut out
    have hself : left = f.drop 1 :=
      hvisits.eq_of_none fun row hrow hsub => htail ⟨row, hrow, hsub⟩
    rw [hself, List.take_append_drop]
    refine ⟨fun h => ⟨h, fun row hrow hsub w hw hlt => ?_⟩, fun h => h.1⟩
    have hsubf := hin row hrow hsub
    cases f with
    | nil => exact absurd hsubf (not_subset_of_few (mem_shunzi_of_ordinary hrow) (by simp))
    | cons y t =>
        obtain ⟨hy, -⟩ := List.pairwise_cons.mp hfdesc
        have hhead : row.headD 0 = y := by
          obtain heq | hmem := List.mem_cons.mp (hsubf (headD_mem hrow))
          · exact heq
          · refine absurd ⟨row, hrow, fun u hu => ?_⟩ htail
            obtain rfl | hmem' := List.mem_cons.mp (hsubf hu)
            · have := hy _ hmem
              have := le_headD hrow hu
              omega
            · exact hmem'
        obtain hmem | hmem := List.mem_append.mp hw
        · have := hpre w hmem
          omega
        · obtain rfl | hmem := List.mem_cons.mp hmem
          · exact le_of_eq hhead.symm
          · have := hy w hmem
            omega

/-- **What the scan misses**: of at most thirteen ranks it leaves a straight exactly
when, with the highest straight taken out, the straights left all begin with the next
rank below. -/
theorem visits_leaves {ns left : List Nat} (h : Visits ns left)
    (hdesc : ns.Pairwise fun a b => b < a) (hbound : ∀ v ∈ ns, v ≤ 12) :
    (∃ row ∈ ordinaryRows, row ⊆ left) ↔ Skipped ns := by
  cases hfirst : firstStraight ns with
  | none =>
      have hnone := firstStraight_eq_none.mp hfirst
      rw [h.eq_of_none hnone]
      refine ⟨fun ⟨row, hrow, hsub⟩ => absurd hsub (hnone row hrow), fun ⟨row, hsome, _⟩ => ?_⟩
      rw [hfirst] at hsome
      cases hsome
  | some row =>
      obtain ⟨pre, v, rest, left', rfl, hheads, hheld, hvisits, rfl⟩ := h.at_first hdesc hfirst
      obtain ⟨hpre, hbelow, hcross⟩ := List.pairwise_append.mp hdesc
      obtain ⟨hv, hrest⟩ := List.pairwise_cons.mp hbelow
      have hrow := hheads.1
      -- what is left once the highest straight is taken out
      have hleft : (pre ++ v :: rest).filter (· ∉ row) = pre ++ rest.filter (· ∉ row) := by
        rw [List.filter_append, List.filter_cons_of_neg (by simp [List.mem_of_head? hheads.2])]
        congr 1
        refine List.filter_eq_self.mpr fun w hw => ?_
        simp only [decide_eq_true_eq]
        intro hmem
        have hle := le_headD hrow hmem
        have hlt := hcross w hw v List.mem_cons_self
        rw [hheads.headD] at hle
        omega
      have hskipped : Skipped (pre ++ v :: rest) ↔
          (∃ row' ∈ ordinaryRows, row' ⊆ pre ++ rest.filter (· ∉ row)) ∧
            ∀ row' ∈ ordinaryRows, row' ⊆ pre ++ rest.filter (· ∉ row) →
              ∀ w ∈ pre ++ rest.filter (· ∉ row), w < v → w ≤ row'.headD 0 := by
        unfold Skipped
        simp only [hfirst, Option.some.injEq, exists_eq_left', hleft, hheads.headD]
      have hfive := length_filter_row hheads hheld
      have hlen : (pre ++ v :: rest).length ≤ 13 := by
        have hnodup : (pre ++ v :: rest).Nodup := hdesc.imp fun hab => Nat.ne_of_gt hab
        have hrange : pre ++ v :: rest ⊆ List.range 13 := fun w hw => by
          have := hbound w hw
          exact List.mem_range.mpr (by omega)
        have := (List.subperm_of_subset hnodup hrange).length_le
        rwa [List.length_range] at this
      rw [hskipped]
      refine scan_behind ?_ ?_ hvisits fun row' hrow' hsub => ?_
      · exact hdesc.sublist ((List.filter_sublist.cons_cons v).append_left pre)
      · rw [List.length_append] at hlen
        omega
      · rw [← hleft] at hsub
        have hle := firstStraight_head hfirst hrow' fun w hw => (List.mem_filter.mp (hsub hw)).1
        rw [hheads.headD] at hle
        refine lt_of_le_of_ne hle fun heq => ?_
        have hmem := (List.mem_filter.mp (hsub (headD_mem hrow'))).2
        rw [heq] at hmem
        simp [List.mem_of_head? hheads.2] at hmem

end IosGame
