import IosGame.Descending
import IosGame.Poker.Valid

/-!
# IosGame.Poker.StraightFlushes

The straight-flush pass of `ClassingPokers` is exact: of every suit it takes the first
row of `SHUNZI` that the suit holds, in the order in which the scan tries the rows,
and nothing else (`straightFlushPass_exact`).  After a cut the position is moved back
by five, which is the shifted end of the suit group, so the scan goes on with the next
suit and never looks for a second row of the same suit.
-/

namespace IosGame

/-! ## the first row of a suit -/

/-- The rows in the order in which a suit group is searched: by their heads, and row 0
before row 9. -/
def rowOrder : List (List Nat) := sortedBy (fun a b => b.headD 0 < a.headD 0) shunzi

/-- The first row whose ranks are all among `ns`. -/
def firstRow (ns : List Nat) : Option (List Nat) :=
  rowOrder.find? fun row => row.all fun v => v ∈ ns

/-- The ranks a hand has in suit `s`. -/
def suitNums (hand : List Poker) (s : Nat) : List Nat :=
  (hand.filter (·.suitnum == s)).map Poker.num

/-- The cards of a hand that belong to the first row of their suit. -/
def inFirstRow (hand : List Poker) (card : Poker) : Bool :=
  (firstRow (suitNums hand card.suitnum)).any fun row => card.num ∈ row

/-- Row `a` is tried before row `b`. -/
def TriedBefore (a b : List Nat) : Prop :=
  b.headD 0 < a.headD 0 ∨ a.headD 0 = b.headD 0 ∧ shunzi.idxOf a < shunzi.idxOf b

instance (a b : List Nat) : Decidable (TriedBefore a b) := inferInstanceAs (Decidable (_ ∨ _))

theorem pairwise_rowOrder : rowOrder.Pairwise TriedBefore := by decide

theorem mem_rowOrder {row : List Nat} : row ∈ rowOrder ↔ row ∈ shunzi := mem_sortedBy

theorem firstRow_eq_none {ns : List Nat} :
    firstRow ns = none ↔ ∀ row ∈ shunzi, ¬ row ⊆ ns := by
  simp only [firstRow, find?_held_eq_none, mem_rowOrder]

theorem firstRow_mem {ns row : List Nat} (h : firstRow ns = some row) :
    row ∈ shunzi ∧ row ⊆ ns := by
  obtain ⟨hrow, hheld⟩ := find?_held h
  exact ⟨mem_rowOrder.mp hrow, hheld⟩

theorem firstRow_of_few {ns : List Nat} (h : ns.length ≤ 4) : firstRow ns = none :=
  firstRow_eq_none.mpr fun _ hrow => not_subset_of_few hrow h

/-- A row held is the first one or tried after it. -/
theorem firstRow_before {ns row row' : List Nat} (h : firstRow ns = some row)
    (hrow' : row' ∈ shunzi) (hsub : row' ⊆ ns) : row = row' ∨ TriedBefore row row' := by
  refine find?_first pairwise_rowOrder h (mem_rowOrder.mpr hrow') ?_
  simp only [List.all_eq_true, decide_eq_true_eq]
  exact hsub

/-! ## the end of a suit group -/

/-- **The search for the end** of a suit group stops behind its last card. -/
theorem groupEnd_exact (before : List Poker) {seg after : List Poker} {s : Nat} (fuel : Nat)
    (hseg : ∀ card ∈ seg, card.suitnum = s)
    (hafter : ∀ card, after.head? = some card → card.suitnum ≠ s)
    (hfuel : (seg ++ after).length < fuel) :
    loop .outOfFuel (groupEndBody (before ++ (seg ++ after)) s) fuel before.length =
      .ok ((before.length + seg.length : Nat) : Int) := by
  have hfueled : Fueled (loop .outOfFuel (groupEndBody (before ++ (seg ++ after)) s) fuel
      before.length) := by
    refine fueled_groupEnd ?_
    simp only [List.length_append] at hfuel ⊢
    omega
  have hstep : ∀ v : Int,
      (∃ seen todo, seg = seen ++ todo ∧ v = (before.length + seen.length : Nat)) →
      (∃ v', groupEndBody (before ++ (seg ++ after)) s v = .ok (.again v') ∧
          ∃ seen todo, seg = seen ++ todo ∧ v' = (before.length + seen.length : Nat)) ∨
        ∃ r, groupEndBody (before ++ (seg ++ after)) s v = .ok (.leave r) ∧
          r = (before.length + seg.length : Nat) := by
    intro v ⟨seen, todo, hsplit, hv⟩
    subst hsplit hv
    unfold groupEndBody
    cases todo with
    | cons x todo =>
        have hx := idx_append_cons (before ++ seen) x (todo ++ after)
        rw [List.length_append, List.append_assoc] at hx
        have hlist : before ++ ((seen ++ x :: todo) ++ after) =
            before ++ (seen ++ x :: (todo ++ after)) := by simp
        rw [hlist, if_pos (by simp only [List.length_append, List.length_cons]; omega), hx, ok_bind,
          if_pos (hseg x (by simp))]
        refine .inl ⟨_, rfl, seen ++ [x], todo, by simp, ?_⟩
        rw [List.length_append, List.length_singleton]
        omega
    | nil =>
        rw [List.append_nil]
        cases after with
        | nil =>
            rw [if_neg (by simp)]
            exact .inr ⟨_, rfl, rfl⟩
        | cons y after =>
            have hy := idx_append_cons (before ++ seen) y after
            rw [List.length_append, List.append_assoc] at hy
            rw [if_pos (by simp), hy, ok_bind, if_neg (hafter y rfl)]
            exact .inr ⟨_, rfl, rfl⟩
  obtain ⟨r, hr, rfl⟩ := loop_total hstep ⟨[], seg, rfl, rfl⟩ hfueled
  exact hr

/-! ## the search of a suit group -/

/-- No row has been found in `seg` by the tries before row `cmp` at place `p`. -/
def TriedTo (seg : List Poker) (p cmp : Nat) : Prop :=
  ∀ pre card post j row, seg = pre ++ card :: post → shunzi[j]? = some row →
    row.head? = some card.num → (pre.length < p ∨ pre.length = p ∧ j < cmp) →
      ¬ row.Sublist ((card :: post).map Poker.num)

/-- A try that finds nothing. -/
theorem TriedTo.next {seen todo : List Poker} {card : Poker} {cmp : Nat} {row : List Nat}
    (h : TriedTo (seen ++ card :: todo) seen.length cmp) (hrow : shunzi[cmp]? = some row)
    (hfail : row.head? = some card.num → ¬ row.Sublist ((card :: todo).map Poker.num)) :
    TriedTo (seen ++ card :: todo) seen.length (cmp + 1) := by
  intro pre card' post j row' hsplit hrow' hhead hbefore
  by_cases hlast : pre.length = seen.length ∧ j = cmp
  · obtain ⟨hlen, rfl⟩ := hlast
    obtain ⟨rfl, htail⟩ := List.append_inj hsplit hlen.symm
    obtain ⟨rfl, rfl⟩ := List.cons.inj htail
    rw [hrow, Option.some.injEq] at hrow'
    subst hrow'
    exact hfail hhead
  · exact h pre card' post j row' hsplit hrow' hhead (by omega)

/-- After the last row the next card is tried with row 0. -/
theorem TriedTo.wrap {seg : List Poker} {p : Nat} (h : TriedTo seg p 10) :
    TriedTo seg (p + 1) 0 := by
  intro pre card post j row hsplit hrow hhead hbefore
  obtain ⟨hj, -⟩ := List.getElem?_eq_some_iff.mp hrow
  have hlen : shunzi.length = 10 := rfl
  exact h pre card post j row hsplit hrow hhead (by omega)

/-- A row in `seg` has its head at some place, with the row from there on. -/
theorem row_at {seg : List Poker} {row : List Nat} (hrow : row ∈ shunzi)
    (h : row.Sublist (seg.map Poker.num)) :
    ∃ pre card post, seg = pre ++ card :: post ∧ row.head? = some card.num ∧
      row.Sublist ((card :: post).map Poker.num) := by
  induction seg with
  | nil =>
      have hnil : row = [] := List.sublist_nil.mp h
      have hlen := length_row hrow
      simp [hnil] at hlen
  | cons x seg ih =>
      rw [List.map_cons, List.sublist_cons_iff] at h
      obtain hsub | ⟨r, rfl, hsub⟩ := h
      · obtain ⟨pre, card, post, rfl, hhead, hsub⟩ := ih hsub
        exact ⟨x :: pre, card, post, rfl, hhead, hsub⟩
      · exact ⟨[], x, seg, rfl, rfl, by rw [List.map_cons]; exact hsub.cons_cons x.num⟩

/-- What is searched next: the place and the row of the scan. -/
structure GroupScan (seg : List Poker) (start : Int) (v : Int × Int) (seen todo : List Poker)
    (cmp : Nat) : Prop where
  seg_eq : seg = seen ++ todo
  coun : v.1 = start + seen.length
  row : v.2 = cmp
  cmp_lt : cmp < 10
  tried : TriedTo seg seen.length cmp

/-- The first row found in `seg`, the combination made of it and the cards left. -/
structure FoundIn (seg : List Poker) (c : PokerClass) (seg' : List Poker) (row : List Nat) :
    Prop where
  classing : c.classing = 7
  nums : c.cards.map Poker.num = row
  level : ∃ k : Nat, shunzi[k]? = some row ∧ c.level = 10 - k
  perm : (c.cards ++ seg').Perm seg
  sublist : seg'.Sublist seg
  first : ∃ pre card post j, seg = pre ++ card :: post ∧ shunzi[j]? = some row ∧
    row.head? = some card.num ∧ row.Sublist ((card :: post).map Poker.num) ∧
    TriedTo seg pre.length j

/-- How the search of the group `seg` ends: with no row in it and the state as it was,
or with the first row cut out of it and `ele` moved back. -/
def GroupResult (before seg after : List Poker) (st r : SuitPass) : Prop :=
  (∀ row ∈ shunzi, ¬ row.Sublist (seg.map Poker.num)) ∧ r = st ∨
    ∃ c seg' row, FoundIn seg c seg' row ∧
      r = { tmpSuit := before ++ (seg' ++ after), pokersArray := st.pokersArray ++ [c],
            ele := st.ele - 5 }

namespace GroupScan

variable {before seg after seen todo : List Poker} {v : Int × Int} {cmp fuel : Nat}
  {st : SuitPass} {suitE : Int}

/-- The next try: the next row, or row 0 at the next card. -/
theorem next {x : Poker} {row : List Nat} (h : GroupScan seg before.length v seen (x :: todo) cmp)
    (hrow : shunzi[cmp]? = some row)
    (hfail : row.head? = some x.num → ¬ row.Sublist ((x :: todo).map Poker.num)) :
    ∃ seen' todo' cmp', GroupScan seg before.length (nextRow v.1 v.2) seen' todo' cmp' := by
  have htried : TriedTo seg seen.length (cmp + 1) := by
    have := h.tried
    rw [h.seg_eq] at this ⊢
    exact this.next hrow hfail
  have hlen : (shunzi.length : Int) = 10 := rfl
  have hcmp := h.cmp_lt
  unfold nextRow
  by_cases h9 : cmp = 9
  · rw [if_pos (by rw [h.row, hlen]; omega)]
    refine ⟨seen ++ [x], todo, 0, ?_, ?_, rfl, by omega, ?_⟩
    · rw [h.seg_eq]
      simp
    · simp only [h.coun, List.length_append, List.length_singleton]
      omega
    · rw [h9] at htried
      rw [List.length_append, List.length_singleton]
      exact htried.wrap
  · rw [if_neg (by rw [h.row, hlen]; omega)]
    refine ⟨seen, x :: todo, cmp + 1, h.seg_eq, h.coun, ?_, by omega, htried⟩
    simp only [h.row]
    omega

/-- With fewer than five cards to go no row is in the group. -/
theorem none_left (h : GroupScan seg before.length v seen todo cmp) (hfew : todo.length ≤ 4) :
    ∀ row ∈ shunzi, ¬ row.Sublist (seg.map Poker.num) := by
  intro row hrow hsub
  obtain ⟨pre, card, post, hsplit, hhead, hat⟩ := row_at hrow hsub
  obtain ⟨j, hj⟩ := List.getElem?_of_mem hrow
  have hfive := hat.length_le
  rw [length_row hrow, List.length_map] at hfive
  have hlen := congrArg List.length (h.seg_eq.symm.trans hsplit)
  rw [List.length_append, List.length_append] at hlen
  exact h.tried pre card post j row hsplit hj hhead (.inl (by omega)) hat

/-- The straight flush cut out at a place where a row was found. -/
theorem take {x : Poker} {row : List Nat} {loc : List Int}
    (h : GroupScan seg before.length v seen (x :: todo) cmp) (hrow : shunzi[cmp]? = some row)
    (hhead : row.head? = some x.num) (hsub : row.Sublist ((x :: todo).map Poker.num))
    (htmp : st.tmpSuit = (before ++ seen) ++ ((x :: todo) ++ after))
    (hloc : loc.Pairwise fun a b => b < a)
    (hplaces : Places (x :: todo) (before ++ seen).length loc row.reverse) :
    ∃ r, takeStraightFlush st v.2 loc = .ok r ∧ GroupResult before seg after st r := by
  have hmem := List.mem_of_getElem? hrow
  obtain ⟨ttmp, seg', hread, hremove, hnums, hperm, hsub'⟩ := cutRow_exact after hmem hloc hplaces
  rw [← htmp] at hread hremove
  rw [takeStraightFlush, hread, ok_bind, hremove, ok_bind]
  have hfound : FoundIn seg
      { cards := sortedBy pokerNumCompare ttmp, classing := 7, level := shunzi.length - v.2 }
      (seen ++ seg') row := by
    refine ⟨rfl, hnums, ⟨cmp, hrow, ?_⟩, ?_, ?_, seen, x, todo, cmp, h.seg_eq, hrow, hhead, hsub,
      h.tried⟩
    · simp only [h.row]
      rfl
    · rw [h.seg_eq]
      refine List.Perm.trans ?_ (hperm.append_left seen)
      refine List.Perm.trans ?_ (List.perm_append_comm_assoc ..)
      exact (perm_sortedBy _ _).append_right _
    · rw [h.seg_eq]
      exact hsub'.append_left seen
  refine ⟨_, rfl, .inr ⟨_, seen ++ seg', row, hfound, ?_⟩⟩
  simp only [List.append_assoc]

/-- **One pass of the search** tries the next row, or ends it. -/
theorem step (h : GroupScan seg before.length v seen todo cmp)
    (htmp : st.tmpSuit = before ++ (seg ++ after)) (hend : suitE + 1 = before.length + seg.length)
    (hfuel : seg.length < fuel) :
    (∃ v', groupBody fuel st suitE v = .ok (.again v') ∧
        ∃ seen' todo' cmp', GroupScan seg before.length v' seen' todo' cmp') ∨
      ∃ r, groupBody fuel st suitE v = .ok (.leave r) ∧ GroupResult before seg after st r := by
  have hcoun := h.coun
  have hcmp := h.cmp_lt
  have hlen : seg.length = seen.length + todo.length := by rw [h.seg_eq, List.length_append]
  unfold groupBody
  by_cases hgo : v.1 < suitE - 3
  · cases todo with
    | nil => simp only [List.length_nil] at hlen; omega
    | cons x todo =>
        have htmp' : st.tmpSuit = (before ++ seen) ++ ((x :: todo) ++ after) := by
          rw [htmp, h.seg_eq]
          simp
        have hplace : v.1 = ((before ++ seen).length : Int) := by
          rw [hcoun, List.length_append]
          omega
        have hx : idx st.tmpSuit v.1 = .ok x := by
          rw [htmp', hplace]
          exact idx_append_cons ..
        obtain ⟨row, head, r, hcons, hrow, hidx, hhead⟩ := exists_row h.row hcmp
        have hmem := List.mem_of_getElem? hrow
        rw [if_pos hgo, hx, ok_bind, hidx, ok_bind, hhead, ok_bind]
        by_cases heq : x.num = head
        · have hrowhead : row.head? = some x.num := by rw [hcons, heq]; rfl
          rw [if_pos heq, htmp', hplace]
          have hstop : suitE + 1 = ((before ++ seen).length : Int) + (x :: todo).length := by
            rw [List.length_append]
            omega
          obtain ⟨hsub, loc, hscan, hloc, hplaces⟩ | ⟨hnot, hscan⟩ :=
            scanRow_exact (before ++ seen) todo after hmem hrowhead hstop
              (show (x :: todo).length < fuel by omega)
          · obtain ⟨r, htake, hr⟩ := h.take hrow hrowhead hsub htmp' hloc hplaces
            rw [hscan, ok_bind]
            refine .inr ⟨r, ?_, hr⟩
            simp only [htake, ok_bind, pure_eq_ok]
          · rw [hscan, ok_bind, ← hplace]
            exact .inl ⟨_, rfl, h.next hrow fun _ => hnot⟩
        · rw [if_neg heq]
          refine .inl ⟨_, rfl, h.next hrow fun hx => ?_⟩
          rw [hcons, List.head?_cons, Option.some.injEq] at hx
          exact absurd hx.symm heq
  · rw [if_neg hgo]
    exact .inr ⟨st, rfl, .inl ⟨h.none_left (by omega), rfl⟩⟩

end GroupScan

/-- **A suit group** is searched, and `ele` ends behind what is left of it. -/
theorem suitGroup_exact {before seg after : List Poker} {s n fuel : Nat} (st : SuitPass)
    (hne : seg ≠ []) (hseg : ∀ card ∈ seg, card.suitnum = s)
    (hafter : ∀ card, after.head? = some card → card.suitnum ≠ s)
    (htmp : st.tmpSuit = before ++ (seg ++ after)) (hlen : st.tmpSuit.length ≤ n)
    (hfuel : loopFuel n ≤ fuel) :
    ∃ r, suitGroup fuel st before.length = .ok r ∧
      GroupResult before seg after { st with ele := (before.length + seg.length : Nat) } r := by
  obtain ⟨first, rest, rfl⟩ := List.exists_cons_of_ne_nil hne
  have hfirst : idx st.tmpSuit before.length = .ok first := by
    rw [htmp]
    exact idx_append_cons ..
  have hlen' := congrArg List.length htmp
  simp only [List.length_append] at hlen'
  unfold loopFuel at hfuel
  have hcoun := groupEnd_exact before fuel hseg hafter (by rw [List.length_append]; omega)
  rw [← htmp, ← hseg first List.mem_cons_self] at hcoun
  rw [suitGroup, hfirst, ok_bind, hcoun, ok_bind]
  simp only
  by_cases hfive : 3 < ((before.length + (first :: rest).length : Nat) : Int) - 1 - before.length
  · rw [if_pos hfive]
    refine loop_total (I := fun v => ∃ seen todo cmp,
      GroupScan (first :: rest) before.length v seen todo cmp) ?_ ?_ ?_
    · rintro v ⟨seen, todo, cmp, h⟩
      exact h.step htmp (by omega) (by omega)
    · refine ⟨[], first :: rest, 0, rfl, by simp, rfl, by omega, ?_⟩
      intro pre card post j row _ _ _ hbefore
      simp only [List.length_nil] at hbefore
      omega
    · exact fueled_group _ (by omega)
  · rw [if_neg hfive]
    refine ⟨_, rfl, .inl ⟨fun row hrow hsub => ?_, rfl⟩⟩
    have hle := hsub.length_le
    rw [length_row hrow, List.length_map] at hle
    omega

/-! ## the pass -/

/-- The order by suit, then by rank, of distinct cards. -/
def SuitOrder (a b : Poker) : Prop :=
  b.suitnum < a.suitnum ∨ a.suitnum = b.suitnum ∧ b.num < a.num

namespace FoundIn

variable {seg seg' : List Poker} {c : PokerClass} {row : List Nat}

theorem valid (h : FoundIn seg c seg' row) (hsuit : OneSuit seg) : Valid c := by
  obtain ⟨k, hrow, hlevel⟩ := h.level
  have hsub : c.cards ⊆ seg := fun card hcard =>
    h.perm.subset (List.mem_append_left _ hcard)
  refine .straightFlush h.classing (hsuit.subset hsub) (rowOf_of_perm hrow ?_) hlevel
  rw [h.nums]

theorem row_mem (h : FoundIn seg c seg' row) : row ∈ shunzi := by
  obtain ⟨k, hrow, -⟩ := h.level
  exact List.mem_of_getElem? hrow

/-- Among cards of distinct ranks, the row found is the first one held. -/
theorem firstRow_eq (h : FoundIn seg c seg' row)
    (hseg : (seg.map Poker.num).Pairwise fun a b => b < a) :
    firstRow (seg.map Poker.num) = some row := by
  obtain ⟨pre, card, post, j, rfl, hrow, hhead, hsub, htried⟩ := h.first
  have hheld : row ⊆ (pre ++ card :: post).map Poker.num := by
    rw [List.map_append]
    exact fun v hv => List.mem_append_right _ (hsub.subset hv)
  cases hfirst : firstRow ((pre ++ card :: post).map Poker.num) with
  | none => exact absurd hheld (firstRow_eq_none.mp hfirst row h.row_mem)
  | some row' =>
      obtain ⟨hmem', hheld'⟩ := firstRow_mem hfirst
      obtain rfl | hbefore := firstRow_before hfirst h.row_mem hheld
      · rfl
      · -- a row tried before would have been found before
        exfalso
        have hsub' := sublist_of_subset (descending_row hmem') hseg hheld'
        obtain ⟨pre', card', post', hsplit, hhead', hat⟩ := row_at hmem' hsub'
        have hplace : ((pre ++ card :: post).map Poker.num)[pre.length]? = some card.num := by simp
        have hplace' : ((pre ++ card :: post).map Poker.num)[pre'.length]? = some card'.num := by
          rw [hsplit]
          simp
        have hidx : shunzi[shunzi.idxOf row']? = some row' := List.getElem?_idxOf hmem'
        refine htried pre' card' post' (shunzi.idxOf row') row' hsplit hidx hhead' ?_ hat
        unfold TriedBefore at hbefore
        rw [List.headD_eq_head?_getD, List.headD_eq_head?_getD, hhead, hhead'] at hbefore
        obtain hlt | ⟨heq, hlt⟩ := hbefore
        · exact .inl (place_lt hseg hplace' hplace hlt)
        · refine .inr ⟨?_, lt_of_lt_of_eq hlt ?_⟩
          · rw [show card'.num = card.num from heq] at hplace'
            exact place_inj hseg hplace' hplace
          · have hnodup : shunzi.Nodup := by decide
            obtain ⟨hj, rfl⟩ := List.getElem?_eq_some_iff.mp hrow
            exact hnodup.idxOf_getElem j hj

/-- Among cards of distinct ranks, the cards left are those outside the first row. -/
theorem rest_eq (h : FoundIn seg c seg' row)
    (hseg : (seg.map Poker.num).Pairwise fun a b => b < a) :
    seg' = seg.filter fun card => card.num ∉ row := by
  have hnums : (seg.map Poker.num).Nodup := hseg.imp fun hab => Nat.ne_of_gt hab
  rw [eq_filter_of_cut hnums.of_map h.sublist h.perm]
  refine List.filter_congr fun card hcard => ?_
  have hiff : card ∈ c.cards ↔ card.num ∈ row := by
    rw [← h.nums]
    refine ⟨List.mem_map_of_mem, fun hmem => ?_⟩
    obtain ⟨card', hcard', heq⟩ := List.mem_map.mp hmem
    have hseg' : card' ∈ seg := h.perm.subset (List.mem_append_left _ hcard')
    exact List.inj_on_of_nodup_map hnums hseg' hcard heq ▸ hcard'
  simp [hiff]

end FoundIn

/-- What the pass makes of `start`: straight flushes and the other cards; if the cards
are distinct, those outside the first row of their suit. -/
structure SuitResult (start : List Poker) (classes : List PokerClass) (rest : List Poker) :
    Prop where
  valid : ∀ c ∈ classes, c.classing = 7 ∧ Valid c
  perm : (cardsOf classes ++ rest).Perm start
  sublist : rest.Sublist start
  first : start.Pairwise SuitOrder → rest = start.filter fun card => !inFirstRow start card

/-- The invariant of the straight-flush loop: the groups `handled` have become the
straight flushes and the cards `done`, the groups `todo` are as they were. -/
structure SuitPass.Scan (start : List Poker) (st : SuitPass) (handled done todo : List Poker) :
    Prop where
  start_eq : start = handled ++ todo
  tmpSuit : st.tmpSuit = done ++ todo
  ele : st.ele = done.length
  suits : ∀ a ∈ handled, ∀ b ∈ todo, b.suitnum < a.suitnum
  sublist : done.Sublist handled
  valid : ∀ c ∈ st.pokersArray, c.classing = 7 ∧ Valid c
  perm : (cardsOf st.pokersArray ++ done).Perm handled
  first : start.Pairwise SuitOrder → done = handled.filter fun card => !inFirstRow start card

namespace SuitPass.Scan

variable {start handled done todo seg after : List Poker} {st : SuitPass} {s : Nat}

/-- The groups handled are of other suits than what is left. -/
theorem filter_handled (h : st.Scan start handled done todo) {x : Poker} (hx : x ∈ todo) :
    handled.filter (·.suitnum == x.suitnum) = [] := by
  refine List.filter_eq_nil_iff.mpr fun a ha => ?_
  have hlt := h.suits a ha x hx
  simp only [beq_iff_eq]
  omega

/-- The ranks the hand has in the suit of a whole group are those of the group. -/
theorem suitNums_eq (h : st.Scan start handled done (seg ++ after)) (hne : seg ≠ [])
    (hseg : ∀ card ∈ seg, card.suitnum = s) (hafter : ∀ card ∈ after, card.suitnum < s) :
    suitNums start s = seg.map Poker.num := by
  obtain ⟨x, hx⟩ := List.exists_mem_of_ne_nil seg hne
  have hhandled := h.filter_handled (List.mem_append_left _ hx)
  rw [hseg x hx] at hhandled
  have hafter' : after.filter (·.suitnum == s) = [] := by
    refine List.filter_eq_nil_iff.mpr fun a ha => ?_
    have hlt := hafter a ha
    simp only [beq_iff_eq]
    omega
  have hkeep : seg.filter (·.suitnum == s) = seg :=
    List.filter_eq_self.mpr fun a ha => by simpa using hseg a ha
  rw [suitNums, h.start_eq, List.filter_append, List.filter_append, hhandled, hafter', hkeep]
  simp

/-- **A group handled**: what is left of it joins the cards that are done. -/
theorem next (h : st.Scan start handled done (seg ++ after)) (hne : seg ≠ [])
    (hseg : ∀ card ∈ seg, card.suitnum = s) (hafter : ∀ card ∈ after, card.suitnum < s)
    {r : SuitPass}
    (hr : GroupResult done seg after { st with ele := (done.length + seg.length : Nat) } r) :
    ∃ done', r.Scan start (handled ++ seg) done' after := by
  have hsuits : ∀ a ∈ handled ++ seg, ∀ b ∈ after, b.suitnum < a.suitnum := by
    intro a ha b hb
    obtain ha | ha := List.mem_append.mp ha
    · exact h.suits a ha b (List.mem_append_right _ hb)
    · exact (hseg a ha).symm ▸ hafter b hb
  have hstart : start = handled ++ seg ++ after := by rw [h.start_eq, List.append_assoc]
  have hnums := h.suitNums_eq hne hseg hafter
  have hdesc : start.Pairwise SuitOrder → (seg.map Poker.num).Pairwise fun a b => b < a := by
    intro hord
    rw [h.start_eq, List.pairwise_append] at hord
    refine List.pairwise_map.mpr (((List.pairwise_append.mp hord.2.1).1).imp_of_mem ?_)
    intro a b ha hb hab
    obtain hlt | ⟨-, hlt⟩ := hab
    · rw [hseg a ha, hseg b hb] at hlt
      omega
    · exact hlt
  obtain ⟨hnone, rfl⟩ | ⟨c, seg', row, hfound, rfl⟩ := hr
  · refine ⟨done ++ seg, hstart, ?_, ?_, hsuits, h.sublist.append (List.Sublist.refl seg), h.valid,
      ?_, fun hord => ?_⟩
    · simp only [h.tmpSuit, List.append_assoc]
    · simp only [List.length_append]
    · rw [← List.append_assoc]
      exact h.perm.append_right seg
    · rw [List.filter_append, ← h.first hord]
      congr 1
      refine (List.filter_eq_self.mpr fun card hcard => ?_).symm
      have hrow : firstRow (suitNums start card.suitnum) = none := by
        rw [hseg card hcard, hnums]
        refine firstRow_eq_none.mpr fun row hrow hsub => hnone row hrow ?_
        exact sublist_of_subset (descending_row hrow) (hdesc hord) hsub
      simp [inFirstRow, hrow]
  · refine ⟨done ++ seg', hstart, ?_, ?_, hsuits, h.sublist.append hfound.sublist, ?_, ?_,
      fun hord => ?_⟩
    · simp only [List.append_assoc]
    · have hlen := hfound.perm.length_eq
      have hcards := congrArg List.length hfound.nums
      rw [length_row hfound.row_mem, List.length_map] at hcards
      simp only [List.length_append] at hlen ⊢
      omega
    · intro d hd
      obtain hd | hd := List.mem_append.mp hd
      · exact h.valid d hd
      · rw [List.mem_singleton.mp hd]
        exact ⟨hfound.classing, hfound.valid fun a ha b hb => by rw [hseg a ha, hseg b hb]⟩
    · have hbefore := h.perm.append_right seg
      rw [List.append_assoc] at hbefore
      exact perm_cut hbefore hfound.perm
    · rw [List.filter_append, ← h.first hord, hfound.rest_eq (hdesc hord)]
      congr 1
      refine List.filter_congr fun card hcard => ?_
      have hrow : firstRow (suitNums start card.suitnum) = some row := by
        rw [hseg card hcard, hnums]
        exact hfound.firstRow_eq (hdesc hord)
      simp [inFirstRow, hrow]

/-- **The loop ends** at the end of the list, or with too few cards left for a row. -/
theorem finish (h : st.Scan start handled done todo)
    (hend : ¬ (st.ele < st.tmpSuit.length ∧ 4 < st.tmpSuit.length)) :
    SuitResult start st.pokersArray st.tmpSuit := by
  refine ⟨h.valid, ?_, ?_, fun hord => ?_⟩
  · rw [h.tmpSuit, h.start_eq, ← List.append_assoc]
    exact h.perm.append_right todo
  · rw [h.tmpSuit, h.start_eq]
    exact h.sublist.append (List.Sublist.refl todo)
  · have hsplit := congrArg (List.filter fun card => !inFirstRow start card) h.start_eq
    rw [h.tmpSuit, hsplit, List.filter_append, h.first hord]
    congr 1
    refine (List.filter_eq_self.mpr fun card hcard => ?_).symm
    have hhandled := h.filter_handled hcard
    have hfew : (suitNums start card.suitnum).length ≤ 4 := by
      have hpos := List.length_pos_of_mem hcard
      have hlen := congrArg List.length h.tmpSuit
      have hele := h.ele
      rw [List.length_append] at hlen
      rw [suitNums, h.start_eq, List.filter_append, hhandled, List.nil_append, List.length_map]
      have hle := List.length_filter_le (·.suitnum == card.suitnum) todo
      omega
    simp [inFirstRow, firstRow_of_few hfew]

/-- **One pass of the loop** handles the next suit group. -/
theorem step {n fuel : Nat} (h : st.Scan start handled done todo)
    (hsorted : start.Pairwise fun a b => b.suitnum ≤ a.suitnum) (hlen : start.length ≤ n)
    (hfuel : loopFuel n ≤ fuel) :
    (∃ st', suitPassBody fuel st = .ok (.again st') ∧
        ∃ handled' done' todo', st'.Scan start handled' done' todo') ∨
      ∃ r, suitPassBody fuel st = .ok (.leave r) ∧ SuitResult start r.pokersArray r.tmpSuit := by
  unfold suitPassBody
  by_cases hgo : st.ele < st.tmpSuit.length ∧ 4 < st.tmpSuit.length
  · have hele := h.ele
    cases todo with
    | nil =>
        rw [h.tmpSuit, List.append_nil] at hgo
        omega
    | cons x todo =>
        have htodo : (x :: todo).Pairwise fun a b => b.suitnum ≤ a.suitnum := by
          rw [h.start_eq] at hsorted
          exact (List.pairwise_append.mp hsorted).2.1
        obtain ⟨seg, after, hsplit, hx, hseg, hafter⟩ := exists_group Poker.suitnum htodo
        rw [hsplit] at h
        have hlen' : st.tmpSuit.length ≤ n := by
          have hle := (h.sublist.append (List.Sublist.refl (seg ++ after))).length_le
          rw [← h.start_eq, ← h.tmpSuit] at hle
          omega
        have hhead : ∀ card, after.head? = some card → card.suitnum ≠ x.suitnum :=
          fun card hcard => Nat.ne_of_lt (hafter card (List.mem_of_head? hcard))
        obtain ⟨r, hgroup, hr⟩ := suitGroup_exact st (List.ne_nil_of_mem hx) hseg hhead h.tmpSuit
          hlen' hfuel
        obtain ⟨done', hnext⟩ := h.next (List.ne_nil_of_mem hx) hseg hafter hr
        rw [if_pos hgo, if_neg (by omega), hele, hgroup, ok_bind]
        exact .inl ⟨r, rfl, _, done', after, hnext⟩
  · rw [if_neg hgo]
    exact .inr ⟨st, rfl, h.finish hgo⟩

end SuitPass.Scan

/-- **The straight-flush pass is exact**: on a list sorted by suit it returns, and takes
the first row of every suit of distinct cards. -/
theorem straightFlushPass_exact {start : List Poker} {fuel n : Nat}
    (hsorted : start.Pairwise fun a b => b.suitnum ≤ a.suitnum) (hlen : start.length ≤ n)
    (hfuel : loopFuel n ≤ fuel) :
    ∃ r, straightFlushPass fuel start = .ok r ∧ SuitResult start r.pokersArray r.tmpSuit := by
  have hinit : SuitPass.Scan start { tmpSuit := start, pokersArray := [], ele := 0 } [] [] start :=
    ⟨rfl, rfl, rfl, by simp, List.Sublist.refl [], by simp, List.Perm.refl _, fun _ => rfl⟩
  refine loop_total (I := fun st => ∃ handled done todo, SuitPass.Scan start st handled done todo)
    ?_ ⟨[], [], start, hinit⟩
    (fueled_straightFlushPass hlen hfuel)
  rintro st ⟨handled, done, todo, h⟩
  exact h.step hsorted hlen hfuel

end IosGame
