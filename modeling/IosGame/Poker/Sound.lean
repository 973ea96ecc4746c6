import IosGame.Poker.Classified

/-!
# IosGame.Poker.Sound

What `ClassingPokers` returns, whatever the cards: every combination is what its kind
says, by descending kinds (`classingPokers_sound`), and the fours, triples, pairs and
full houses are those of the multiplicities of the ranks (`ranks_exact`).
-/

namespace IosGame

/-! ## combinations of one kind -/

/-- The combinations of one kind. -/
def ofKind (j : Int) (cs : List PokerClass) : List PokerClass := cs.filter (·.classing == j)

@[simp] theorem ofKind_append (j : Int) (cs ds : List PokerClass) :
    ofKind j (cs ++ ds) = ofKind j cs ++ ofKind j ds := List.filter_append ..

/-- Among combinations of kind `i`, those of kind `j` are all or none. -/
theorem ofKind_of_kind {i : Int} {cs : List PokerClass} (h : ∀ c ∈ cs, c.classing = i) (j : Int) :
    ofKind j cs = if i = j then cs else [] := by
  split
  · rename_i hij
    exact List.filter_eq_self.mpr fun c hc => by simpa using (h c hc).trans hij
  · rename_i hij
    refine List.filter_eq_nil_iff.mpr fun c hc => ?_
    rw [h c hc]
    simpa using hij

theorem pairwise_of_eq {j : Int} {cs : List PokerClass} (h : ∀ c ∈ cs, c.classing = j) :
    cs.Pairwise fun a b => b.classing ≤ a.classing :=
  List.pairwise_of_forall_mem_list fun a ha b hb => by rw [h a ha, h b hb]

/-- Descending kinds, all at least `j`. -/
structure Above (j : Int) (cs : List PokerClass) : Prop where
  descending : cs.Pairwise fun a b => b.classing ≤ a.classing
  above : ∀ c ∈ cs, j ≤ c.classing

theorem Above.append {i j : Int} {cs ds : List PokerClass} (h : Above i cs) (hij : j ≤ i)
    (hds : ∀ d ∈ ds, d.classing = j) : Above j (cs ++ ds) where
  descending := by
    refine List.pairwise_append.mpr ⟨h.descending, ?_, fun c hc d hd => ?_⟩
    · exact pairwise_of_eq hds
    · rw [hds d hd]
      exact hij.trans (h.above c hc)
  above := by
    intro c hc
    obtain hc | hc := List.mem_append.mp hc
    · exact hij.trans (h.above c hc)
    · exact (hds c hc).ge

/-! ## the kinds of a classified hand -/

namespace Classified

variable {origins : List Poker} (k : Classified origins)

theorem suntiao_ne_yidui {san dui : PokerClass} {v w : Nat} (hsan : san ∈ k.suntiao)
    (hv : OfRank 2 3 v san) (hdui : dui ∈ k.yidui) (hw : OfRank 1 2 w dui) : v ≠ w := by
  rintro rfl
  have hone := k.tally.once v
  have hpos := hv.groupsOf_pos hsan
  have hpos' := hw.groupsOf_pos hdui
  omega

theorem valid_hulu : ∀ c ∈ List.zipWith hulu k.suntiao k.yidui, c.classing = 5 ∧ Valid c := by
  intro c hc
  obtain ⟨i, hi⟩ := List.getElem?_of_mem hc
  obtain ⟨san, dui, hsan, hdui, rfl⟩ := List.getElem?_zipWith_eq_some.mp hi
  have hsan := List.mem_of_getElem? hsan
  have hdui := List.mem_of_getElem? hdui
  obtain ⟨v, hv⟩ := k.tally.ofSuntiao san hsan
  obtain ⟨w, hw⟩ := k.tally.ofYidui dui hdui
  exact ⟨rfl, .fullHouse rfl (fullHouse_hulu hv hw (k.suntiao_ne_yidui hsan hv hdui hw)) rfl⟩

theorem valid_fours : ∀ c ∈ k.fours, c.classing = 6 ∧ Valid c := fun c hc => by
  obtain ⟨v, hv⟩ := k.tally.ofFours c hc
  exact ⟨hv.classing, .four hv⟩

theorem valid_suntiao : ∀ c ∈ k.suntiao, c.classing = 2 ∧ Valid c := fun c hc => by
  obtain ⟨v, hv⟩ := k.tally.ofSuntiao c hc
  exact ⟨hv.classing, .triple hv⟩

theorem valid_yidui : ∀ c ∈ k.yidui, c.classing = 1 ∧ Valid c := fun c hc => by
  obtain ⟨v, hv⟩ := k.tally.ofYidui c hc
  exact ⟨hv.classing, .pair hv⟩

theorem valid_singles : ∀ c ∈ singles k.left, c.classing = 0 ∧ Valid c := fun c hc => by
  obtain ⟨card, -, rfl⟩ := List.mem_map.mp hc
  exact ⟨rfl, .single (v := card.num) ⟨rfl, rfl, rfl⟩⟩

/-- Every combination is what its kind says. -/
theorem valid_out : ∀ c ∈ k.out, Valid c := by
  intro c hc
  simp only [Classified.out, List.mem_append] at hc
  obtain ((((((hc | hc) | hc) | hc) | hc) | hc) | hc) | hc := hc
  · exact (k.suit.valid c hc).2
  · exact (k.valid_fours c hc).2
  · exact (k.valid_hulu c hc).2
  · exact (k.flush.valid c hc).2
  · exact (k.straight.valid c hc).2
  · exact (k.valid_suntiao c (List.mem_of_mem_drop hc)).2
  · exact (k.valid_yidui c (List.mem_of_mem_drop hc)).2
  · exact (k.valid_singles c hc).2

/-- The kinds come in descending order. -/
theorem above_out : Above 0 k.out := by
  have h7 : Above 7 k.straightFlushes :=
    ⟨pairwise_of_eq fun c hc => (k.suit.valid c hc).1, fun c hc => (k.suit.valid c hc).1.ge⟩
  have h2 : ∀ c ∈ k.suntiao.drop k.yidui.length, c.classing = 2 :=
    fun c hc => (k.valid_suntiao c (List.mem_of_mem_drop hc)).1
  have h1 : ∀ c ∈ k.yidui.drop k.suntiao.length, c.classing = 1 :=
    fun c hc => (k.valid_yidui c (List.mem_of_mem_drop hc)).1
  have h6 := h7.append (by omega) fun c hc => (k.valid_fours c hc).1
  have h5 := h6.append (by omega) fun c hc => (k.valid_hulu c hc).1
  have h4 := h5.append (by omega) fun c hc => (k.flush.valid c hc).1
  have h3 := h4.append (by omega) fun c hc => (k.straight.valid c hc).1
  exact (((h3.append (by omega) h2).append (by omega) h1).append (by omega)
    fun c hc => (k.valid_singles c hc).1)

end Classified

/-- **`ClassingPokers` is sound**: every combination returned is what its kind says, and
the kinds come in descending order. -/
theorem classingPokers_sound {origins : List Poker} {out : List PokerClass}
    (h : classingPokers origins = .ok out) :
    (∀ c ∈ out, Valid c) ∧ out.Pairwise fun a b => b.classing ≤ a.classing := by
  obtain ⟨k, rfl⟩ := exists_classified h
  exact ⟨k.valid_out, k.above_out.descending⟩

/-- Three 3s, two 8s and two cards alone in their rank. -/
def tripleAndPair : List Poker :=
  [deckCard 0 0, deckCard 1 0, deckCard 2 0, deckCard 3 5, deckCard 1 5, deckCard 0 7,
   deckCard 3 12]

/-- The combinations of `tripleAndPair`. -/
def tripleAndPairClasses : List PokerClass :=
  [{ cards := [deckCard 3 5, deckCard 1 5, deckCard 2 0, deckCard 1 0, deckCard 0 0],
     classing := 5 },
   { cards := [deckCard 3 12], classing := 0 },
   { cards := [deckCard 0 7], classing := 0 }]

theorem classingPokers_tripleAndPair :
    classingPokers tripleAndPair = .ok tripleAndPairClasses := by decide +kernel

theorem classingPokers_sound_tripleAndPair : (∀ c ∈ tripleAndPairClasses, Valid c) ∧
    tripleAndPairClasses.Pairwise fun a b => b.classing ≤ a.classing :=
  classingPokers_sound classingPokers_tripleAndPair

/-! ## the multiplicities of the ranks -/

/-- The cards of a hand that are not in straight flushes. -/
def outsideStraightFlushes (out : List PokerClass) : List Poker :=
  cardsOf (out.filter (·.classing != 7))

/-- The cards that flushes, straights and single cards are made of. -/
def poolOf (out : List PokerClass) : List Poker :=
  cardsOf (ofKind 4 out ++ ofKind 3 out ++ ofKind 0 out)

/-- The combinations `out` are those of the multiplicities of the ranks outside straight
flushes, with the triples `triples` and the pairs `pairs` from the highest on. -/
structure RanksExact (out triples pairs : List PokerClass) : Prop where
  ofFours : ∀ c ∈ ofKind 6 out, ∃ v, OfRank 6 4 v c
  ofTriples : ∀ c ∈ triples, ∃ v, OfRank 2 3 v c
  ofPairs : ∀ c ∈ pairs, ∃ v, OfRank 1 2 v c
  parts : (cardsOf (ofKind 6 out) ++ cardsOf triples ++ cardsOf pairs ++ poolOf out).Perm
    (outsideStraightFlushes out)
  countFours : ∀ v, groupsOf v (ofKind 6 out) = rankCount v (outsideStraightFlushes out) / 4
  countTriples : ∀ v, groupsOf v triples =
    if rankCount v (outsideStraightFlushes out) % 4 = 3 then 1 else 0
  countPairs : ∀ v, groupsOf v pairs =
    if rankCount v (outsideStraightFlushes out) % 4 = 2 then 1 else 0
  countPool : ∀ v, rankCount v (poolOf out) =
    if rankCount v (outsideStraightFlushes out) % 4 = 1 then 1 else 0
  descTriples : triples.Pairwise Higher
  descPairs : pairs.Pairwise Higher
  fullHouses : ofKind 5 out = List.zipWith hulu triples pairs
  fullHouses_length : (ofKind 5 out).length = min triples.length pairs.length
  restTriples : ofKind 2 out = triples.drop (ofKind 5 out).length
  restPairs : ofKind 1 out = pairs.drop (ofKind 5 out).length

namespace Classified

variable {origins : List Poker} (k : Classified origins)

/-- The combinations of each kind. -/
theorem ofKind_out (j : Int) :
    ofKind j k.out = (if 7 = j then k.straightFlushes else []) ++ (if 6 = j then k.fours else []) ++
      (if 5 = j then List.zipWith hulu k.suntiao k.yidui else []) ++
      (if 4 = j then k.flushes else []) ++ (if 3 = j then k.straights else []) ++
      (if 2 = j then k.suntiao.drop k.yidui.length else []) ++
      (if 1 = j then k.yidui.drop k.suntiao.length else []) ++
      (if 0 = j then singles k.left else []) := by
  have h2 : ∀ c ∈ k.suntiao.drop k.yidui.length, c.classing = 2 :=
    fun c hc => (k.valid_suntiao c (List.mem_of_mem_drop hc)).1
  have h1 : ∀ c ∈ k.yidui.drop k.suntiao.length, c.classing = 1 :=
    fun c hc => (k.valid_yidui c (List.mem_of_mem_drop hc)).1
  simp only [Classified.out, ofKind_append]
  rw [ofKind_of_kind (fun c hc => (k.suit.valid c hc).1),
    ofKind_of_kind (fun c hc => (k.valid_fours c hc).1),
    ofKind_of_kind (fun c hc => (k.valid_hulu c hc).1),
    ofKind_of_kind (fun c hc => (k.flush.valid c hc).1),
    ofKind_of_kind (fun c hc => (k.straight.valid c hc).1), ofKind_of_kind h2, ofKind_of_kind h1,
    ofKind_of_kind (fun c hc => (k.valid_singles c hc).1)]

theorem straightFlushes_eq : ofKind 7 k.out = k.straightFlushes := by simp [k.ofKind_out]

theorem fours_eq : ofKind 6 k.out = k.fours := by simp [k.ofKind_out]

theorem hulu_eq : ofKind 5 k.out = List.zipWith hulu k.suntiao k.yidui := by simp [k.ofKind_out]

theorem flushes_eq : ofKind 4 k.out = k.flushes := by simp [k.ofKind_out]

theorem straights_eq : ofKind 3 k.out = k.straights := by simp [k.ofKind_out]

theorem triples_eq : ofKind 2 k.out = k.suntiao.drop k.yidui.length := by simp [k.ofKind_out]

theorem pairs_eq : ofKind 1 k.out = k.yidui.drop k.suntiao.length := by simp [k.ofKind_out]

theorem singles_eq : ofKind 0 k.out = singles k.left := by simp [k.ofKind_out]

/-- The pool is what flushes, straights and single cards are made of. -/
theorem perm_pool : (poolOf k.out).Perm k.pool := by
  rw [poolOf, k.flushes_eq, k.straights_eq, k.singles_eq]
  refine List.perm_iff_count.mpr fun card => ?_
  have hflush := (k.flush.perm.trans (perm_sortedBy _ _)).count_eq card
  have hstraight := (k.straight.perm.trans (perm_sortedBy _ _)).count_eq card
  simp only [cardsOf_append, cardsOf_singles, List.count_append] at hflush hstraight ⊢
  omega

/-- The cards outside straight flushes are those the straight-flush pass leaves. -/
theorem perm_outside (h : (cardsOf k.out).Perm origins) :
    (outsideStraightFlushes k.out).Perm k.rest := by
  have hkind : ∀ out : List PokerClass,
      (cardsOf (ofKind 7 out) ++ outsideStraightFlushes out).Perm (cardsOf out) := by
    intro out
    unfold outsideStraightFlushes cardsOf ofKind
    rw [← List.flatMap_append]
    exact (List.filter_append_perm (·.classing == 7) out).flatMap_right _
  have hsuit := k.suit.perm.trans (perm_sortedBy _ _)
  have hall := (hkind k.out).trans h
  rw [k.straightFlushes_eq] at hall
  exact (List.perm_append_left_iff _).mp (hall.trans hsuit.symm)

/-- The cards outside straight flushes are in fours, triples, pairs and the pool. -/
theorem perm_parts (h : (cardsOf k.out).Perm origins) :
    (cardsOf (ofKind 6 k.out) ++ cardsOf k.suntiao ++ cardsOf k.yidui ++ poolOf k.out).Perm
      (outsideStraightFlushes k.out) := by
  refine List.perm_iff_count.mpr fun card => ?_
  have hall := (h.trans (k.suit.perm.trans (perm_sortedBy _ _)).symm).count_eq card
  have houtside := (k.perm_outside h).count_eq card
  have hpaired := (perm_pairedClasses k.suntiao k.yidui).count_eq card
  rw [pairedClasses, pairHulu_eq] at hpaired
  rw [poolOf, k.fours_eq, k.flushes_eq, k.straights_eq, k.singles_eq]
  simp only [Classified.out, cardsOf_append, cardsOf_singles, List.count_append]
    at hall houtside hpaired ⊢
  omega

end Classified

/-- Dropping as many as there are of the shorter list is dropping as many as the other
list has. -/
theorem drop_length_min {α β : Type} (xs : List α) (ys : List β) :
    xs.drop ys.length = xs.drop (min xs.length ys.length) := by
  obtain hle | hle := Nat.le_total xs.length ys.length
  · rw [min_eq_left hle, List.drop_eq_nil_of_le hle, List.drop_length]
  · rw [min_eq_right hle]

/-- The triples and pairs of a classified hand are those of the multiplicities of the
ranks. -/
theorem Classified.ranksExact {origins : List Poker} (k : Classified origins)
    (hperm : (cardsOf k.out).Perm origins) : RanksExact k.out k.suntiao k.yidui := by
  have hlen : (ofKind 5 k.out).length = min k.suntiao.length k.yidui.length := by
    rw [k.hulu_eq, List.length_zipWith]
  have hcount : ∀ v, rankCount v (outsideStraightFlushes k.out) =
      rankCount v k.pool + 4 * groupsOf v k.fours + 3 * groupsOf v k.suntiao +
        2 * groupsOf v k.yidui := by
    intro v
    have htotal := k.tally.total v
    rwa [List.append_nil, rankCount_perm v (perm_sortedBy _ _),
      ← rankCount_perm v (k.perm_outside hperm)] at htotal
  refine ⟨by rw [k.fours_eq]; exact k.tally.ofFours, k.tally.ofSuntiao,
    k.tally.ofYidui, k.perm_parts hperm, fun v => ?_, fun v => ?_, fun v => ?_, fun v => ?_,
    k.tally.descSuntiao, k.tally.descYidui, k.hulu_eq, hlen, ?_, ?_⟩
  · have honce := k.tally.once v
    have hv := hcount v
    rw [k.fours_eq]
    omega
  · have honce := k.tally.once v
    have hv := hcount v
    split <;> omega
  · have honce := k.tally.once v
    have hv := hcount v
    split <;> omega
  · have honce := k.tally.once v
    have hv := hcount v
    rw [rankCount_perm v k.perm_pool]
    split <;> omega
  · rw [k.triples_eq, hlen]
    exact drop_length_min ..
  · rw [k.pairs_eq, hlen]
    rw [min_comm]
    exact drop_length_min ..

end IosGame
