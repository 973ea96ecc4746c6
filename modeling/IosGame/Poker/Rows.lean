import IosGame.Poker.Ends
import Mathlib

/-!
# IosGame.Poker.Rows

The scan for a row of `SHUNZI` is exact: on a part of a list that begins with a card
of the row's head it finds the row exactly when the row is a subsequence of the
ranks of that part (`scanRow_exact`), and the cut at the places found takes cards of
these ranks out of the part (`cutRow_exact`).
-/

namespace IosGame

/-! ## rows -/

theorem length_row {row : List Nat} (h : row ∈ shunzi) : row.length = 5 := by
  have hall : ∀ r ∈ shunzi, r.length = 5 := by decide
  exact hall row h

theorem descending_row {row : List Nat} (h : row ∈ shunzi) : row.Pairwise fun a b => b < a := by
  have hall : ∀ r ∈ shunzi, r.Pairwise fun a b => b < a := by decide
  exact hall row h

theorem nodup_row {row : List Nat} (h : row ∈ shunzi) : row.Nodup :=
  (descending_row h).imp fun hab => Nat.ne_of_gt hab

/-- Fewer than five ranks hold no row. -/
theorem not_subset_of_few {ns row : List Nat} (hrow : row ∈ shunzi) (h : ns.length ≤ 4) :
    ¬ row ⊆ ns := by
  intro hsub
  have hle := (List.subperm_of_subset (nodup_row hrow) hsub).length_le
  rw [length_row hrow] at hle
  omega

/-- What the loops read of row `cmp`: the row and its head. -/
theorem exists_row {cmp : Nat} {v : Int} (hv : v = cmp) (hcmp : cmp < 10) :
    ∃ row head r, row = head :: r ∧ shunzi[cmp]? = some row ∧ idx shunzi v = .ok row ∧
      idx row 0 = .ok head := by
  have hrow : shunzi[cmp]? = some shunzi[cmp] := List.getElem?_eq_getElem hcmp
  obtain ⟨head, r, hcons⟩ : ∃ head r, shunzi[cmp] = head :: r :=
    List.exists_cons_of_length_pos (by rw [length_row (List.getElem_mem hcmp)]; omega)
  refine ⟨shunzi[cmp], head, r, hcons, hrow, idx_eq_ok.mpr ⟨by omega, by simpa [hv] using hrow⟩, ?_⟩
  rw [hcons]
  rfl

/-! ## the ranks of sorted cards -/

theorem pokerNumCompare_eq_false {a b : Poker} (h : pokerNumCompare b a = false) :
    b.num ≤ a.num := by
  unfold pokerNumCompare at h
  split at h
  · rename_i heq
    exact le_of_eq (by simpa using heq)
  · simpa using h

/-- `sorted(by: PokerNumCompare)` puts the ranks in descending order. -/
theorem pairwise_num (cards : List Poker) :
    (sortedBy pokerNumCompare cards).Pairwise fun a b => b.num ≤ a.num := by
  refine (pairwise_sortedBy ?_ ?_ cards).imp fun h => pokerNumCompare_eq_false h
  · intro a b h
    simp only [pokerNumCompare, beq_iff_eq] at h ⊢
    split_ifs at h ⊢ <;> simp at h ⊢ <;> omega
  · intro a b c hab hbc
    simp only [pokerNumCompare, beq_iff_eq] at hab hbc ⊢
    split_ifs at hab hbc ⊢ <;> simp at hab hbc ⊢ <;> omega

/-- Cards whose ranks are a descending list have these ranks in this order when they
are sorted. -/
theorem num_sortedBy {cards : List Poker} {row : List Nat} (hrow : row.Pairwise fun a b => b < a)
    (h : (cards.map Poker.num).Perm row) :
    (sortedBy pokerNumCompare cards).map Poker.num = row := by
  have hperm : ((sortedBy pokerNumCompare cards).map Poker.num).Perm row :=
    ((perm_sortedBy _ _).map _).trans h
  have hdesc : ((sortedBy pokerNumCompare cards).map Poker.num).Pairwise fun a b => b ≤ a :=
    List.pairwise_map.mpr (pairwise_num cards)
  exact hperm.eq_of_pairwise (fun a b _ _ hab hba => le_antisymm hba hab) hdesc
    (hrow.imp fun hab => le_of_lt hab)

/-! ## cuts inside a part of a list -/

/-- Places in the part `seg` that begins at `start`, with the ranks of their cards. -/
def Places (seg : List Poker) (start : Int) (loc : List Int) (vals : List Nat) : Prop :=
  List.Forall₂ (fun j v => ∃ card, idx seg (j - start) = .ok card ∧ card.num = v) loc vals

/-- A place inside a part of a list, counted from the front of the part. -/
theorem idx_part {before seg after : List Poker} {j : Int} {card : Poker}
    (h : idx seg (j - before.length) = .ok card) :
    idx (before ++ (seg ++ after)) j = .ok card := by
  obtain ⟨h0, hget⟩ := idx_eq_ok.mp h
  obtain ⟨hlt, -⟩ := List.getElem?_eq_some_iff.mp hget
  refine idx_eq_ok.mpr ⟨by omega, ?_⟩
  have hplace : j.toNat - before.length = (j - before.length).toNat := by omega
  rw [List.getElem?_append_right (by omega), hplace, List.getElem?_append_left hlt, hget]

/-- A removal inside a part of a list leaves the rest of the list alone. -/
theorem removeAt_part {before seg after : List Poker} {j : Int} {card : Poker}
    (h : idx seg (j - before.length) = .ok card) :
    removeAt (before ++ (seg ++ after)) j =
      .ok (before ++ (seg.eraseIdx (j - before.length).toNat ++ after)) := by
  obtain ⟨h0, hget⟩ := idx_eq_ok.mp h
  obtain ⟨hlt, -⟩ := List.getElem?_eq_some_iff.mp hget
  refine removeAt_eq_ok.mpr ⟨by omega, ?_, ?_⟩
  · simp only [List.length_append]
    omega
  · have hplace : j.toNat - before.length = (j - before.length).toNat := by omega
    rw [List.eraseIdx_append_of_length_le (by omega), hplace,
      List.eraseIdx_append_of_lt_length hlt]

/-- A removal behind the places leaves them as they are. -/
theorem Places.erase {seg : List Poker} {start : Int} {n : Nat} {loc : List Int} {vals : List Nat}
    (h : Places seg start loc vals) (hlt : ∀ j ∈ loc, j - start < n) :
    Places (seg.eraseIdx n) start loc vals := by
  induction h with
  | nil => exact .nil
  | @cons j v loc vals hj _ ih =>
      obtain ⟨hlt, hrest⟩ := List.forall_mem_cons.mp hlt
      refine .cons ?_ (ih hrest)
      rw [idx_eraseIdx hlt]
      exact hj

section Parts

variable {before seg : List Poker} (after : List Poker) {loc : List Int} {vals : List Nat}

theorem readLocs_places (h : Places seg before.length loc vals) :
    ∃ ttmp, readLocs (before ++ (seg ++ after)) vals.length loc = .ok ttmp ∧
      ttmp.map Poker.num = vals := by
  induction h with
  | nil => exact ⟨[], rfl, rfl⟩
  | @cons j v loc vals hj _ ih =>
      obtain ⟨card, hcard, hnum⟩ := hj
      obtain ⟨ttmp, hread, hvals⟩ := ih
      refine ⟨card :: ttmp, ?_, by rw [List.map_cons, hnum, hvals]⟩
      rw [List.length_cons, readLocs, idx_part hcard, ok_bind, hread]
      rfl

/-- Descending places in a part are removed one after the other: a removal does not
shift the places still to come. -/
theorem removeLocs_places (hloc : loc.Pairwise fun a b => b < a)
    (h : Places seg before.length loc vals) :
    ∃ seg', removeLocs (before ++ (seg ++ after)) loc.length loc = .ok (before ++ (seg' ++ after)) ∧
      seg'.Sublist seg := by
  induction loc generalizing seg vals with
  | nil => exact ⟨seg, rfl, List.Sublist.refl seg⟩
  | cons j loc ih =>
      obtain ⟨hj, hloc⟩ := List.pairwise_cons.mp hloc
      cases h with
      | @cons _ v _ vals hhead htail =>
          obtain ⟨card, hcard, -⟩ := hhead
          obtain ⟨h0, -⟩ := idx_eq_ok.mp hcard
          have htail' : Places (seg.eraseIdx (j - before.length).toNat) before.length loc vals :=
            Places.erase htail fun i hi => by have := hj i hi; omega
          obtain ⟨seg', hremove, hsub⟩ := ih hloc htail'
          refine ⟨seg', ?_, hsub.trans (List.eraseIdx_sublist ..)⟩
          rw [List.length_cons, removeLocs, removeAt_part hcard, ok_bind, hremove]

/-- **The cut is exact**: at the places of a row it takes five cards with the ranks of
the row out of the part. -/
theorem cutRow_exact {row : List Nat} (hrow : row ∈ shunzi) (hloc : loc.Pairwise fun a b => b < a)
    (h : Places seg before.length loc row.reverse) :
    ∃ ttmp seg', readLocs (before ++ (seg ++ after)) 5 loc = .ok ttmp ∧
      removeLocs (before ++ (seg ++ after)) 5 loc = .ok (before ++ (seg' ++ after)) ∧
      (sortedBy pokerNumCompare ttmp).map Poker.num = row ∧ (ttmp ++ seg').Perm seg ∧
      seg'.Sublist seg := by
  have hlen : row.reverse.length = 5 := by rw [List.length_reverse, length_row hrow]
  have hloclen : loc.length = 5 := h.length_eq.trans hlen
  obtain ⟨ttmp, hread, hnums⟩ := readLocs_places after h
  obtain ⟨seg', hremove, hsub⟩ := removeLocs_places after hloc h
  rw [hlen] at hread
  rw [hloclen] at hremove
  refine ⟨ttmp, seg', hread, hremove, num_sortedBy (descending_row hrow) ?_, ?_, hsub⟩
  · rw [hnums]
    exact row.reverse_perm
  · refine List.perm_iff_count.mpr fun card => ?_
    have hcut := (perm_cutLocs hloc hread hremove).count_eq card
    simp only [List.count_append] at hcut ⊢
    omega

end Parts

/-! ## the scan -/

/-- What the scan of `seg` for the rest of `row` knows after the cards `seen`: the
places found hold the ranks matched so far, and what is left of the row is in `todo`
exactly when all of its rest is in `seg`. -/
structure RowScan.Found (seg : List Poker) (row : List Nat) (start : Int) (s : RowScan)
    (seen todo : List Poker) : Prop where
  seg_eq : seg = seen ++ todo
  count : s.count = start + seen.length
  times : s.times ≤ 5
  sublist : (row.drop s.times).Sublist (todo.map Poker.num) ↔
    (row.drop 1).Sublist (seg.map Poker.num)
  places : Places seg start (start :: s.loc) (row.take s.times)

namespace RowScan.Found

variable {seg seen todo before after : List Poker} {row : List Nat} {start stop : Int}
  {s : RowScan}

theorem idx_next {x : Poker} (h : s.Found seg row start seen (x :: todo)) :
    idx seg (s.count - start) = .ok x := by
  have hplace : s.count - start = seen.length := by
    rw [h.count]
    omega
  rw [hplace, h.seg_eq]
  exact idx_append_cons seen x todo

/-- The next card has the rank looked for: its place is noted. -/
theorem hit {x : Poker} (h : s.Found seg row start seen (x :: todo)) (hlt : s.times < row.length)
    (hrow : row.length = 5) (heq : x.num = row[s.times]) :
    RowScan.Found seg row start
      { times := s.times + 1, count := s.count + 1, loc := s.loc ++ [s.count] }
      (seen ++ [x]) todo := by
  refine ⟨by rw [h.seg_eq]; simp, ?_, by simp only; omega, ?_, ?_⟩
  · simp only [h.count, List.length_append, List.length_singleton]
    omega
  · rw [← h.sublist, List.drop_eq_getElem_cons hlt, List.map_cons, ← heq, List.cons_sublist_cons]
  · have hplace : Places seg start [s.count] [row[s.times]] := .cons ⟨x, h.idx_next, heq⟩ .nil
    show Places seg start ((start :: s.loc) ++ [s.count]) (row.take (s.times + 1))
    rw [← List.take_append_getElem hlt]
    exact List.rel_append h.places hplace

/-- The next card has another rank: it is passed over. -/
theorem skip {x : Poker} (h : s.Found seg row start seen (x :: todo)) (hlt : s.times < row.length)
    (hne : x.num ≠ row[s.times]) :
    RowScan.Found seg row start { s with count := s.count + 1 } (seen ++ [x]) todo := by
  refine ⟨by rw [h.seg_eq]; simp, ?_, h.times, ?_, h.places⟩
  · simp only [h.count, List.length_append, List.length_singleton]
    omega
  · rw [← h.sublist, List.drop_eq_getElem_cons hlt, List.map_cons, List.sublist_cons_iff]
    refine ⟨.inl, fun hsub => ?_⟩
    obtain hsub | ⟨r, heq, -⟩ := hsub
    · exact hsub
    · exact absurd (List.cons.inj heq).1.symm hne

/-- **One pass of the scan** reads the next card of the part, or leaves. -/
theorem step (h : s.Found seg row before.length seen todo) (hrow : row.length = 5)
    (hstop : stop + 1 = before.length + seg.length) :
    (∃ s' seen' todo', rowScanBody (before ++ (seg ++ after)) row stop s = .ok (.again s') ∧
        s'.Found seg row before.length seen' todo') ∨
      rowScanBody (before ++ (seg ++ after)) row stop s = .ok (.leave s) ∧
        (s.times = 5 ↔ (row.drop 1).Sublist (seg.map Poker.num)) := by
  have hcount := h.count
  have hlen : seg.length = seen.length + todo.length := by rw [h.seg_eq, List.length_append]
  have htimes := h.times
  unfold rowScanBody
  by_cases hgo : s.count ≤ stop ∧ s.times < 5
  · cases todo with
    | nil => simp only [List.length_nil] at hlen; omega
    | cons x todo =>
        have hnum : idx row s.times = .ok row[s.times] :=
          idx_eq_ok.mpr ⟨by omega, by simp⟩
        rw [if_pos hgo, idx_part h.idx_next, ok_bind, hnum, ok_bind]
        by_cases heq : x.num = row[s.times]
        · rw [if_pos heq]
          exact .inl ⟨_, _, _, rfl, h.hit (by omega) hrow heq⟩
        · rw [if_neg heq]
          exact .inl ⟨_, _, _, rfl, h.skip (by omega) heq⟩
  · rw [if_neg hgo]
    refine .inr ⟨rfl, ?_⟩
    rw [← h.sublist]
    by_cases h5 : s.times = 5
    · have hnil : row.drop 5 = [] := List.drop_eq_nil_of_le (le_of_eq hrow)
      rw [h5, hnil]
      simp
    · have htodo : todo = [] := List.length_eq_zero_iff.mp (by omega)
      have hne : row.drop s.times ≠ [] := by simp; omega
      simp [htodo, h5, hne]

end RowScan.Found

/-- Places in ascending order are reversed by `loc.sort(by: >)`. -/
theorem sortedBy_ascending {loc : List Int} (h : loc.Pairwise (· < ·)) :
    sortedBy (fun a b => decide (b < a)) loc = loc.reverse := by
  have hsorted : (sortedBy (fun a b => decide (b < a)) loc).Pairwise fun a b => b ≤ a :=
    (pairwise_sortedBy (by simp; omega) (by simp; omega) loc).imp fun hab => by simpa using hab
  have hreverse : loc.reverse.Pairwise fun a b => b ≤ a :=
    List.pairwise_reverse.mpr (h.imp fun hab => le_of_lt hab)
  have hperm : (sortedBy (fun a b => decide (b < a)) loc).Perm loc.reverse :=
    (perm_sortedBy _ _).trans loc.reverse_perm.symm
  exact hperm.eq_of_pairwise (fun a b _ _ hab hba => le_antisymm hba hab) hsorted hreverse

/-- Looking for the rest of a row from its head on is looking for the row. -/
theorem rest_sublist_iff {row ns : List Nat} {v : Nat} (hrow : row ∈ shunzi)
    (hhead : row.head? = some v) : (row.drop 1).Sublist (v :: ns) ↔ row.Sublist (v :: ns) := by
  obtain ⟨r, rfl⟩ := List.head?_eq_some_iff.mp hhead
  have hlt := (List.pairwise_cons.mp (descending_row hrow)).1
  rw [List.drop_one, List.tail_cons, List.cons_sublist_cons, List.sublist_cons_iff]
  refine ⟨fun h => ?_, .inl⟩
  obtain h | ⟨r', rfl, -⟩ := h
  · exact h
  · exact absurd (hlt v List.mem_cons_self) (lt_irrefl v)

/-- **The scan is exact**: on a part of the list that begins with the head of a row,
it finds the row exactly when the ranks of the part have it as a subsequence. -/
theorem scanRow_exact (before tail after : List Poker) {card : Poker} {row : List Nat}
    {stop : Int} {fuel : Nat} (hrow : row ∈ shunzi) (hhead : row.head? = some card.num)
    (hstop : stop + 1 = before.length + (card :: tail).length)
    (hfuel : (card :: tail).length < fuel) :
    ((row.Sublist ((card :: tail).map Poker.num) ∧
      ∃ loc, scanRow fuel (before ++ (card :: tail ++ after)) row before.length stop =
          .ok (some loc) ∧ loc.Pairwise (fun a b => b < a) ∧
        Places (card :: tail) before.length loc row.reverse) ∨
      ¬ row.Sublist ((card :: tail).map Poker.num) ∧
        scanRow fuel (before ++ (card :: tail ++ after)) row before.length stop = .ok none) := by
  have hlen := length_row hrow
  have hcard : idx (before ++ (card :: tail ++ after)) before.length = .ok card :=
    idx_append_cons before card (tail ++ after)
  have hne : ∀ b, idx row 1 = .ok b → b ≠ card.num := by
    intro b hb
    obtain ⟨cmp, hcmp⟩ := List.getElem?_of_mem hrow
    have hfirst : idx row 0 = .ok card.num := by
      rw [List.head?_eq_getElem?] at hhead
      exact idx_eq_ok.mpr ⟨le_refl _, hhead⟩
    have hidx : idx shunzi cmp = .ok row := idx_eq_ok.mpr ⟨by simp, hcmp⟩
    exact head_ne_second hidx hfirst hb
  have hfueled : Fueled (loop .outOfFuel
      (rowScanBody (before ++ (card :: tail ++ after)) row stop) fuel
      { times := 1, count := before.length, loc := [] }) :=
    fueled_rowScan _ _ (by omega)
  have hinit : RowScan.Found (card :: tail) row before.length
      { times := 1, count := before.length, loc := [] } [] (card :: tail) := by
    obtain ⟨r, rfl⟩ := List.head?_eq_some_iff.mp hhead
    refine ⟨rfl, by simp, by simp, Iff.rfl, ?_⟩
    refine .cons ⟨card, ?_, rfl⟩ .nil
    rw [Int.sub_self]
    rfl
  -- the scan stops with all five ranks matched, or at the end of the part
  obtain ⟨s, hloop, hinv, hplaces, hfound⟩ := loop_total
    (I := fun s => s.Inv before.length ∧ ∃ seen todo,
      s.Found (card :: tail) row before.length seen todo)
    (P := fun s => s.Inv before.length ∧
      Places (card :: tail) before.length (before.length :: s.loc) (row.take s.times) ∧
      (s.times = 5 ↔ (row.drop 1).Sublist ((card :: tail).map Poker.num)))
    (fun s ⟨hinv, seen, todo, hfound⟩ => by
      obtain ⟨s', seen', todo', hb, hs'⟩ | ⟨hb, hs'⟩ := hfound.step hlen hstop
      · exact .inl ⟨s', hb, rowScanBody_inv hcard hne hinv hb, seen', todo', hs'⟩
      · exact .inr ⟨s, hb, hinv, hfound.places, hs'⟩)
    ⟨⟨rfl, le_refl _, List.Pairwise.nil, by simp, fun _ => rfl⟩, [], card :: tail, hinit⟩ hfueled
  rw [List.map_cons, rest_sublist_iff hrow hhead, ← List.map_cons (f := Poker.num)] at hfound
  rw [scanRow, hloop, ok_bind, ← hfound]
  by_cases h5 : s.times = 5
  · have hasc : ((before.length : Int) :: s.loc).Pairwise (· < ·) :=
      List.pairwise_cons.mpr ⟨fun j hj => (hinv.within j hj).1, hinv.ascending⟩
    rw [if_pos h5, sortedBy_ascending hasc]
    refine .inl ⟨h5, _, rfl, List.pairwise_reverse.mpr hasc, ?_⟩
    rw [h5, List.take_of_length_le (le_of_eq hlen)] at hplaces
    exact List.forall₂_reverse_iff.mpr hplaces
  · rw [if_neg h5]
    exact .inr ⟨h5, rfl⟩

end IosGame
