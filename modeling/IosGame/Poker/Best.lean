import IosGame.Poker.Chosen

/-!
# IosGame.Poker.Best

Which combination `ComputerPoker` puts down (`computerPoker_best`): the one with the
club 3 to open, the greatest by kind and level on a free lead, and the least of those
that beat the desk otherwise.
-/

namespace IosGame

/-! ## the order of the combinations -/

/-- Sorted by kind and level, no combination is below one before it. -/
theorem pairwise_sorted (cs : List PokerClass) :
    (sortedBy PokerClass.lt cs).Pairwise fun a b => b.lt a = false := by
  refine pairwise_sortedBy ?_ ?_ cs
  · intro a b h
    simp only [PokerClass.lt, beq_iff_eq] at h ⊢
    split_ifs at h ⊢ <;> simp at h ⊢ <;> omega
  · intro a b c hab hbc
    simp only [PokerClass.lt, beq_iff_eq] at hab hbc ⊢
    split_ifs at hab hbc ⊢ <;> simp at hab hbc ⊢ <;> omega

theorem PokerClass.lt_self (c : PokerClass) : c.lt c = false := by simp [PokerClass.lt]

/-- The last combination of the sorted list is below none. -/
theorem last_greatest {cs : List PokerClass} {c : PokerClass}
    (h : (sortedBy PokerClass.lt cs).getLast? = some c) : ∀ d ∈ cs, c.lt d = false := by
  intro d hd
  obtain ⟨init, hinit⟩ := List.getLast?_eq_some_iff.mp h
  have hsorted := pairwise_sorted cs
  rw [← (perm_sortedBy PokerClass.lt cs).mem_iff, hinit, List.mem_append, List.mem_singleton] at hd
  rw [hinit, List.pairwise_append] at hsorted
  obtain hd | rfl := hd
  · exact hsorted.2.2 d hd c (List.mem_singleton_self c)
  · exact d.lt_self

/-- The combination found is the least of those accepted on the desk. -/
theorem firstPaied_least {desk r : PokerClass} {cs : List PokerClass}
    (h : firstPaied desk (sortedBy PokerClass.lt cs) = .ok r) :
    (r = .none ∧ ∀ d ∈ cs, paied d desk ≠ .ok true) ∨
      r ∈ cs ∧ paied r desk = .ok true ∧ ∀ d ∈ cs, paied d desk = .ok true → d.lt r = false := by
  obtain ⟨hr, hall⟩ | ⟨pre, post, hsplit, hall, hp⟩ := firstPaied_exact h
  · refine .inl ⟨hr, fun d hd htrue => ?_⟩
    have hfalse := hall d (mem_sortedBy.mpr hd)
    rw [htrue] at hfalse
    cases hfalse
  · have hsorted := pairwise_sorted cs
    have hmem : ∀ d, d ∈ cs ↔ d ∈ pre ∨ d = r ∨ d ∈ post := fun d => by
      rw [← (perm_sortedBy PokerClass.lt cs).mem_iff, hsplit, List.mem_append, List.mem_cons]
    rw [hsplit, List.pairwise_append, List.pairwise_cons] at hsorted
    refine .inr ⟨(hmem r).mpr (.inr (.inl rfl)), hp, fun d hd htrue => ?_⟩
    obtain hd | rfl | hd := (hmem d).mp hd
    · have hfalse := hall d hd
      rw [htrue] at hfalse
      cases hfalse
    · exact d.lt_self
    · exact hsorted.2.1.1 d hd

/-! ## the result of `ComputerPoker` -/

/-- What `ComputerPoker` returns from the combinations `out` of the cards. -/
structure Best (cards : List Poker) (out : List PokerClass) (desk : PokerClass) (action : Nat)
    (c : PokerClass) (last : List Poker) : Prop where
  result : c = .none ∨ c ∈ out
  perm : (c.cards ++ last).Perm cards
  opens : action = 0 →
    (c.isEmpty = false ↔ ∃ card ∈ cards, card.isClubThree = true) ∧
      (c.isEmpty = false → ∃ card ∈ c.cards, card.isClubThree = true)
  leads : action = 1 → cards ≠ [] → c.isEmpty = false ∧ ∀ d ∈ out, c.lt d = false
  beats : action = 2 →
    (c.isEmpty = false ↔ ∃ d ∈ out, paied d desk = .ok true) ∧
      (c.isEmpty = false →
        paied c desk = .ok true ∧ ∀ d ∈ out, paied d desk = .ok true → d.lt c = false)

/-- Cards no two of which compare equal. -/
theorem proper_of_pairwise {cards : List Poker}
    (h : cards.Pairwise fun a b => a.same b = false) : Proper cards := by
  have : Std.Symm fun a b : Poker => a.same b = false := ⟨fun a b hab => by
    simp only [Poker.same, Bool.and_eq_false_iff, beq_eq_false_iff_ne] at hab ⊢
    exact hab.imp Ne.symm Ne.symm⟩
  intro a ha b hb hab
  by_contra hne
  have hdiff := h.forall ha hb hne
  rw [hab] at hdiff
  cases hdiff

/-- **What `ComputerPoker` puts down**, and that the rest of the cards is returned. -/
theorem computerPoker_best {cards last : List Poker} {desk c : PokerClass} {action : Nat}
    (hcards : cards.Pairwise fun a b => a.same b = false)
    (h : computerPoker cards desk action = .ok (c, last)) :
    ∃ out, classingPokers cards = .ok out ∧ Best cards out desk action c last := by
  have hcases := computerPoker_cases (proper_of_pairwise hcards) h
  simp only [computerPoker, bind_eq_ok] at h
  obtain ⟨out, hout, rtn, hrtn, h⟩ := h
  simp only [pure_eq_ok, Except.ok.injEq, Prod.mk.injEq] at h
  obtain ⟨rfl, -⟩ := h
  have hfull : ∀ d ∈ out, d.isEmpty = false :=
    fun d hd => (shaped_classingPokers hout d hd).isEmpty_eq_false
  have hclub : (∃ card ∈ cards, card.isClubThree = true) ↔
      ∃ d ∈ out, ∃ card ∈ d.cards, card.isClubThree = true := by
    have hperm := perm_classingPokers hout
    simp only [← hperm.mem_iff, cardsOf, List.mem_flatMap]
    constructor
    · rintro ⟨card, ⟨d, hd, hcard⟩, h3⟩
      exact ⟨d, hd, card, hcard, h3⟩
    · rintro ⟨d, hd, card, hcard, h3⟩
      exact ⟨card, ⟨d, hd, hcard⟩, h3⟩
  have hresult : rtn = .none ∨ rtn ∈ out := by
    obtain ⟨hnone, -⟩ | ⟨hmem, -⟩ := selectClass_cases hrtn
    · exact .inl hnone
    · exact .inr (mem_sortedBy.mp hmem)
  refine ⟨out, hout, hresult, ?_, ?_, ?_, ?_⟩
  · obtain ⟨hempty, hlast, -⟩ | ⟨-, hchosen⟩ := hcases
    · obtain rfl | hmem := hresult
      · rw [hlast]
        exact List.Perm.refl _
      · rw [hfull rtn hmem] at hempty
        cases hempty
    · exact hchosen.perm
  · rintro rfl
    obtain ⟨hnone, -, hall⟩ | ⟨hmem, hopens, -⟩ := selectClass_cases hrtn
    · refine ⟨?_, fun hne => ?_⟩
      · rw [hclub, hnone]
        refine ⟨fun hne => absurd hne (by decide), ?_⟩
        rintro ⟨d, hd, card, hcard, h3⟩
        rw [hall rfl d (mem_sortedBy.mpr hd) card hcard] at h3
        cases h3
      · rw [hnone] at hne
        cases hne
    · have hmem := mem_sortedBy.mp hmem
      exact ⟨⟨fun _ => hclub.mpr ⟨rtn, hmem, hopens rfl⟩, fun _ => hfull rtn hmem⟩,
        fun _ => hopens rfl⟩
  · rintro rfl -
    have hlast : (sortedBy PokerClass.lt out).getLast? = some rtn := lastOf_eq_ok.mp hrtn
    have hmem : rtn ∈ out := mem_sortedBy.mp (List.mem_of_getLast? hlast)
    exact ⟨hfull rtn hmem, last_greatest hlast⟩
  · rintro rfl
    obtain ⟨hnone, hall⟩ | ⟨hmem, hpaied, hleast⟩ := firstPaied_least hrtn
    · refine ⟨?_, fun hne => ?_⟩
      · rw [hnone]
        refine ⟨fun hne => absurd hne (by decide), ?_⟩
        rintro ⟨d, hd, htrue⟩
        exact absurd htrue (hall d hd)
      · rw [hnone] at hne
        cases hne
    · exact ⟨⟨fun _ => ⟨rtn, hmem, hpaied⟩, fun _ => hfull rtn hmem⟩, fun _ => ⟨hpaied, hleast⟩⟩

/-- Two pairs and a 2 against a pair of 4s: the pair of 7s is put down. -/
theorem computerPoker_best_twoPairs : ∃ out,
    classingPokers [deckCard 0 0, deckCard 1 0, deckCard 2 4, deckCard 3 4, deckCard 3 12] =
        .ok out ∧
      Best [deckCard 0 0, deckCard 1 0, deckCard 2 4, deckCard 3 4, deckCard 3 12] out
        { cards := [deckCard 1 1, deckCard 0 1], classing := 1 } 2
        { cards := [deckCard 3 4, deckCard 2 4], classing := 1 }
        [deckCard 0 0, deckCard 1 0, deckCard 3 12] :=
  computerPoker_best (by decide) (by decide +kernel)

end IosGame
