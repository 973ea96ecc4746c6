import IosGame.Poker.Ends
import IosGame.Poker.Order

/-!
# IosGame.Poker.Chosen

What `ComputerPoker` returns: nothing and the whole hand, or one combination of
`ClassingPokers` and the rest of the hand (`computerPoker_cases`).  Callers argue
from this one theorem and never unfold the function.
-/

namespace IosGame

/-! ## the removal loop -/

/-- Cards that compare equal are the same card.  True of the cards of a deck, whose
glyph follows from the suit. -/
def Proper (cards : List Poker) : Prop :=
  ∀ a ∈ cards, ∀ b ∈ cards, a.same b = true → a = b

theorem Proper.subset {xs ys : List Poker} (h : Proper ys) (hsub : xs ⊆ ys) : Proper xs :=
  fun a ha b hb => h a (hsub ha) b (hsub hb)

theorem Proper.perm {xs ys : List Poker} (h : Proper ys) (hp : xs.Perm ys) : Proper xs :=
  h.subset hp.subset

theorem Poker.same_self (card : Poker) : card.same card = true := by simp [Poker.same]

theorem proper_generatePokers : Proper generatePokers := by
  unfold Proper
  decide +kernel

theorem nodup_generatePokers : generatePokers.Nodup := by decide +kernel

/-- Taking out the first card that compares equal is erasing the card. -/
theorem eraseP_same {cards : List Poker} (h : Proper cards) {card : Poker} (hc : card ∈ cards) :
    cards.eraseP (·.same card) = cards.erase card := by
  induction cards with
  | nil => rfl
  | cons x cards ih =>
      by_cases hx : x = card
      · subst hx
        rw [List.eraseP_cons, Poker.same_self, List.erase_cons_head]
        rfl
      · have hmem : card ∈ cards := (List.mem_cons.mp hc).resolve_left (Ne.symm hx)
        have hne : x.same card = false := by
          by_contra hs
          exact hx (h x List.mem_cons_self card hc (by simpa using hs))
        rw [List.eraseP_cons, hne, List.erase_cons_tail (by simpa using hx),
          ih (h.subset (List.subset_cons_self x cards)) hmem]
        rfl

/-- The removal loop takes out exactly the cards played. -/
theorem perm_removePlayed {last played : List Poker} (h : Proper last)
    (hsub : played.Subperm last) : (played ++ removePlayed last played).Perm last := by
  induction played generalizing last with
  | nil => exact List.Perm.refl _
  | cons card played ih =>
      have hmem : card ∈ last := hsub.subset List.mem_cons_self
      have hperm : last.Perm (card :: last.erase card) := List.perm_cons_erase hmem
      have hsub' : played.Subperm (last.erase card) :=
        (List.subperm_cons card).mp ((List.Perm.subperm_left hperm).mp hsub)
      have hrest := ih (h.subset List.erase_subset) hsub'
      rw [removePlayed, List.foldl_cons, eraseP_same h hmem]
      exact (hrest.cons card).trans hperm.symm

/-! ## the three actions -/

theorem mem_openingClass (tmp : List PokerClass) :
    openingClass tmp = .none ∧ (∀ c ∈ tmp, ∀ card ∈ c.cards, card.isClubThree = false) ∨
      openingClass tmp ∈ tmp ∧ ∃ card ∈ (openingClass tmp).cards, card.isClubThree = true := by
  unfold openingClass
  cases hf : tmp.find? fun c => c.cards.any Poker.isClubThree with
  | none =>
      refine .inl ⟨rfl, fun c hc card hcard => ?_⟩
      have := List.find?_eq_none.mp hf c hc
      simp only [List.any_eq_true, not_exists, not_and, Bool.not_eq_true] at this
      exact this card hcard
  | some c =>
      refine .inr ⟨List.mem_of_find?_eq_some hf, ?_⟩
      simpa using List.find?_some hf

/-- Where the search for a combination that is accepted on the desk ends: nowhere, or
behind combinations that are not accepted. -/
theorem firstPaied_exact {desk r : PokerClass} {tmp : List PokerClass}
    (h : firstPaied desk tmp = .ok r) :
    (r = .none ∧ ∀ c ∈ tmp, paied c desk = .ok false) ∨
      ∃ pre post, tmp = pre ++ r :: post ∧ (∀ c ∈ pre, paied c desk = .ok false) ∧
        paied r desk = .ok true := by
  induction tmp with
  | nil => exact .inl ⟨by simpa [firstPaied, eq_comm] using h, by simp⟩
  | cons c tmp ih =>
      obtain ⟨ok, hok, h⟩ := bind_eq_ok.mp h
      cases ok with
      | true =>
          obtain rfl : c = r := by simpa using h
          exact .inr ⟨[], tmp, rfl, by simp, hok⟩
      | false =>
          obtain ⟨hr, hall⟩ | ⟨pre, post, rfl, hall, hp⟩ := ih (by simpa using h)
          · exact .inl ⟨hr, List.forall_mem_cons.mpr ⟨hok, hall⟩⟩
          · exact .inr ⟨c :: pre, post, rfl, List.forall_mem_cons.mpr ⟨hok, hall⟩, hp⟩

/-- A combination of the right size is not empty. -/
theorem Shaped.isEmpty_eq_false {c : PokerClass} (h : Shaped c) : c.isEmpty = false := by
  rw [shaped_iff] at h
  have hne : c.cards ≠ [] := List.ne_nil_of_length_pos (by omega)
  simp only [PokerClass.isEmpty, Bool.or_eq_false_iff, List.isEmpty_eq_false_iff,
    beq_eq_false_iff_ne]
  exact ⟨hne, by omega⟩

/-- A combination put down: it has the right size, its cards and the rest are the
hand, and it is what the action asks for. -/
structure Chosen (cards : List Poker) (desk : PokerClass) (action : Nat) (c : PokerClass)
    (last : List Poker) : Prop where
  shaped : Shaped c
  perm : (c.cards ++ last).Perm cards
  opens : action = 0 → ∃ card ∈ c.cards, card.isClubThree = true
  beats : action = 2 → paied c desk = .ok true

/-- What one action selects from the combinations of the hand. -/
theorem selectClass_cases {desk rtn : PokerClass} {action : Nat} {tmp : List PokerClass}
    (h : selectClass tmp desk action = .ok rtn) :
    (rtn = .none ∧ action ≠ 1 ∧
        (action = 0 → ∀ c ∈ tmp, ∀ card ∈ c.cards, card.isClubThree = false)) ∨
      rtn ∈ tmp ∧ (action = 0 → ∃ card ∈ rtn.cards, card.isClubThree = true) ∧
        (action = 2 → paied rtn desk = .ok true) := by
  unfold selectClass at h
  split at h
  · obtain rfl : openingClass tmp = rtn := by simpa using h
    rcases mem_openingClass tmp with ⟨hnone, hall⟩ | ⟨hmem, hclub⟩
    · exact .inl ⟨hnone, by omega, fun _ => hall⟩
    · exact .inr ⟨hmem, fun _ => hclub, by omega⟩
  · exact .inr ⟨List.mem_of_getLast? (lastOf_eq_ok.mp h), by omega, by omega⟩
  · obtain ⟨hnone, -⟩ | ⟨pre, post, rfl, -, hp⟩ := firstPaied_exact h
    · exact .inl ⟨hnone, by omega, by omega⟩
    · exact .inr ⟨by simp, by omega, fun _ => hp⟩
  · rename_i h0 h1 h2
    obtain rfl : PokerClass.none = rtn := by simpa using h
    exact .inl ⟨rfl, h1, fun h => absurd h h0⟩

/-- The rest of the hand is what the removal loop leaves. -/
theorem computerPoker_rest {cards last : List Poker} {desk c : PokerClass} {action : Nat}
    (h : computerPoker cards desk action = .ok (c, last)) : last = removePlayed cards c.cards := by
  simp only [computerPoker, bind_eq_ok, pure_eq_ok, Except.ok.injEq, Prod.mk.injEq] at h
  obtain ⟨out, -, rtn, -, rfl, rfl⟩ := h
  rfl

/-- **What `ComputerPoker` returns**: the empty combination and the whole hand, and
then the action was not a free lead and an opening hand has no club 3; or a
combination put down and the rest of the hand. -/
theorem computerPoker_cases {cards last : List Poker} {desk c : PokerClass} {action : Nat}
    (hcards : Proper cards) (h : computerPoker cards desk action = .ok (c, last)) :
    (c.isEmpty = true ∧ last = cards ∧ action ≠ 1 ∧
        (action = 0 → ∀ card ∈ cards, card.isClubThree = false)) ∨
      c.isEmpty = false ∧ Chosen cards desk action c last := by
  simp only [computerPoker, bind_eq_ok] at h
  obtain ⟨out, hout, rtn, hrtn, h⟩ := h
  simp only [pure_eq_ok, Except.ok.injEq, Prod.mk.injEq] at h
  obtain ⟨rfl, rfl⟩ := h
  have hperm : (cardsOf (sortedBy PokerClass.lt out)).Perm cards :=
    ((perm_sortedBy _ _).flatMap_right _).trans (perm_classingPokers hout)
  rcases selectClass_cases hrtn with ⟨rfl, h1, hclub⟩ | ⟨hmem, hclub, hbeats⟩
  · refine .inl ⟨rfl, rfl, h1, fun h0 card hcard => ?_⟩
    obtain ⟨c, hc, hcard⟩ := List.mem_flatMap.mp (hperm.mem_iff.mpr hcard)
    exact hclub h0 c hc card hcard
  · have hshaped : Shaped rtn := shaped_classingPokers hout rtn (mem_sortedBy.mp hmem)
    have hsub : rtn.cards.Subperm cards := by
      refine List.Subperm.trans ?_ hperm.subperm
      rw [cardsOf, List.flatMap_def]
      exact (List.sublist_flatten_of_mem (List.mem_map_of_mem hmem)).subperm
    exact .inr ⟨hshaped.isEmpty_eq_false, hshaped, perm_removePlayed hcards hsub, hclub, hbeats⟩

/-! ## the loops end -/

theorem fueled_huluKey (cards : List Poker) (start : Int) : Fueled (huluKey cards start) := by
  refine loop_ne_outOfFuel (I := fun _ => True) (fun _ => 0) (fun v v' _ hb => ?_)
    (fun v _ => ?_) trivial (by omega)
  · simp only [huluKeyBody] at hb
    split at hb
    · obtain ⟨a, -, hb⟩ := bind_eq_ok.mp hb
      obtain ⟨b, -, hb⟩ := bind_eq_ok.mp hb
      split at hb <;> split at hb <;> simp [bind_eq_ok] at hb
    · simp at hb
  · unfold huluKeyBody
    split
    · refine (fueled_idx _ _).bind fun _ _ => (fueled_idx _ _).bind fun _ _ => ?_
      simp only
      split <;> split <;> exact (fueled_idx _ _).bind fun _ _ => fueled_pure _
    · exact fueled_pure _

theorem fueled_tonghuaPaied (tmpI deskJ : List Poker) : Fueled (tonghuaPaied tmpI deskJ) := by
  have hloop : Fueled (loop .outOfFuel (tonghuaBody tmpI deskJ) (deskJ.length + 1) 0) := by
    refine loop_ne_outOfFuel (I := fun _ => True) (fun j : Int => (deskJ.length - j).toNat)
      (fun j j' _ hb => ⟨trivial, ?_⟩) (fun j _ => ?_) trivial (by omega)
    · unfold tonghuaBody at hb
      split at hb
      · obtain ⟨a, -, hb⟩ := bind_eq_ok.mp hb
        obtain ⟨b, -, hb⟩ := bind_eq_ok.mp hb
        split at hb
        · obtain rfl : j + 1 = j' := by simpa using hb
          omega
        · simp at hb
      · simp at hb
    · unfold tonghuaBody
      split
      · refine (fueled_idx _ _).bind fun _ _ => (fueled_idx _ _).bind fun _ _ => ?_
        split <;> exact fueled_pure _
      · exact fueled_pure _
  refine hloop.bind fun j _ => (fueled_idx _ _).bind fun _ _ => (fueled_idx _ _).bind
    fun _ _ => ?_
  split <;> exact fueled_pure _

theorem fueled_lastPaied (tmpI deskJ : List Poker) : Fueled (lastPaied tmpI deskJ) :=
  (fueled_lastOf _).bind fun _ _ => (fueled_lastOf _).bind fun _ _ => fueled_pure _

theorem fueled_paied (cand desk : PokerClass) : Fueled (paied cand desk) := by
  have hsame (tmpI deskJ : List Poker) : Fueled (sameClassingPaied cand desk tmpI deskJ) := by
    unfold sameClassingPaied
    split
    · split
      · exact fueled_pure _
      · split
        · exact (fueled_idx _ _).bind fun _ _ => (fueled_idx _ _).bind fun _ _ => fueled_pure _
        · exact fueled_pure _
    · split
      · exact fueled_lastPaied _ _
      · split
        · exact (fueled_huluKey _ _).bind fun _ _ => (fueled_huluKey _ _).bind
            fun _ _ => fueled_pure _
        · split
          · exact fueled_tonghuaPaied _ _
          · exact fueled_pure _
  unfold paied
  simp only
  split
  · split
    · exact fueled_pure _
    · split
      · exact hsame _ _
      · exact fueled_pure _
  · split
    · exact fueled_lastPaied _ _
    · exact fueled_pure _

theorem fueled_firstPaied (desk : PokerClass) (tmp : List PokerClass) :
    Fueled (firstPaied desk tmp) := by
  induction tmp with
  | nil => exact fueled_pure _
  | cons c tmp ih =>
      refine (fueled_paied c desk).bind fun ok _ => ?_
      split
      · exact fueled_pure _
      · exact ih

/-- **`ComputerPoker` ends**: it returns or traps in an array access. -/
theorem fueled_computerPoker (cards : List Poker) (desk : PokerClass) (action : Nat) :
    Fueled (computerPoker cards desk action) := by
  refine (fueled_classingPokers cards).bind fun tmp _ => Fueled.bind ?_ fun _ _ => fueled_pure _
  unfold selectClass
  split
  · exact fueled_pure _
  · exact fueled_lastOf _
  · exact fueled_firstPaied _ _
  · exact fueled_pure _

end IosGame
