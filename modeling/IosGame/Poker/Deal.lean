import IosGame.Poker.Card
import Mathlib

/-!
# IosGame.Poker.Deal

`assignPoker` (`pokerCore.swift`): four hands of thirteen cards from one running
deck index, and the seat that was dealt the club 3.
-/

namespace IosGame

/-- A seat at the table: 0 is the human, 1 to 3 the computers.  `players` has four
elements from `assignPoker` on, so the code's `(p + 1) % players.count` is `p + 1`. -/
abbrev Seat := Fin 4

instance Seat.neZero : NeZero 4 := ⟨by decide⟩

/-- `struct player`. -/
structure Player where
  cards : List Poker
  desk : PokerClass
  name : String
  deriving DecidableEq, Repr

/-- `player()`. -/
def Player.empty : Player := { cards := [], desk := .none, name := "empty" }

/-- Deal `k` cards to `owner` from deck index `j` on; the index and the opener go on. -/
def dealHand (deck : List Poker) (owner : Seat) :
    Nat → Nat → Seat → Except Trap (List Poker × Nat × Seat)
  | 0, j, firstPrior => pure ([], j, firstPrior)
  | k + 1, j, firstPrior => do
      let card ← idx deck j
      let (cards, j', firstPrior) ←
        dealHand deck owner k (j + 1) (if card.isClubThree then owner else firstPrior)
      pure (card :: cards, j', firstPrior)

/-- Deal thirteen cards to each of `owners` in turn. -/
def dealHands (deck : List Poker) :
    List Seat → Nat → Seat → Except Trap (List (List Poker) × Seat)
  | [], _, firstPrior => pure ([], firstPrior)
  | owner :: owners, j, firstPrior => do
      let (cards, j, firstPrior) ← dealHand deck owner (52 / 4) j firstPrior
      let (hands, firstPrior) ← dealHands deck owners j firstPrior
      pure (cards :: hands, firstPrior)

/-- The name `assignPoker` gives the player in a seat. -/
def seatName (p : Seat) : String :=
  if p = 0 then "Human" else "Computer " ++ toString p.val

/-- `assignPoker(DECK:)`: the players and the index of the one who opens. -/
def assignPoker (deck : List Poker) : Except Trap ((Seat → Player) × Seat) := do
  let (hands, firstPrior) ← dealHands deck [0, 1, 2, 3] 0 0
  pure (fun p =>
    { cards := sortedBy Poker.gt (hands.getD p []), desk := .none, name := seatName p }, firstPrior)

/-! ## what is dealt -/

/-- The thirteen cards that seat `p` is dealt. -/
def dealt (deck : List Poker) (p : Seat) : List Poker := (deck.drop (13 * p)).take 13

/-- The opener after `cards` were dealt to `owner`. -/
def openerAfter (cards : List Poker) (owner firstPrior : Seat) : Seat :=
  if cards.any Poker.isClubThree then owner else firstPrior

/-- Dealing `k` cards takes the next `k` cards of the deck. -/
theorem dealHand_eq {deck : List Poker} {owner : Seat} {k j : Nat} {firstPrior : Seat}
    (h : j + k ≤ deck.length) : dealHand deck owner k j firstPrior =
      .ok ((deck.drop j).take k, j + k, openerAfter ((deck.drop j).take k) owner firstPrior) := by
  induction k generalizing j firstPrior with
  | zero => simp [dealHand, openerAfter]
  | succ k ih =>
      have hlt : j < deck.length := by omega
      have hidx : idx deck (j : Int) = .ok deck[j] :=
        idx_eq_ok.mpr ⟨by omega, by simp⟩
      rw [dealHand, hidx, ok_bind, ih (by omega), ok_bind, List.drop_eq_getElem_cons hlt,
        List.take_succ_cons]
      simp only [pure_eq_ok, Except.ok.injEq, Prod.mk.injEq, true_and]
      refine ⟨by omega, ?_⟩
      simp only [openerAfter, List.any_cons]
      by_cases hcard : deck[j].isClubThree = true <;> simp [hcard]

/-- The opener `assignPoker` finds on a deck. -/
def openerOf (deck : List Poker) : Seat :=
  openerAfter (dealt deck 3) 3 (openerAfter (dealt deck 2) 2
    (openerAfter (dealt deck 1) 1 (openerAfter (dealt deck 0) 0 0)))

/-- **Dealing succeeds** on a deck of 52 cards. -/
theorem assignPoker_eq {deck : List Poker} (h : deck.length = 52) :
    assignPoker deck = .ok (fun p =>
      { cards := sortedBy Poker.gt (dealt deck p), desk := .none, name := seatName p },
      openerOf deck) := by
  have step (p : Seat) (firstPrior : Seat) : dealHand deck p (52 / 4) (13 * p) firstPrior =
      .ok (dealt deck p, 13 * p + 13, openerAfter (dealt deck p) p firstPrior) :=
    dealHand_eq (by omega)
  have hhands : dealHands deck [0, 1, 2, 3] 0 0 =
      .ok ([dealt deck 0, dealt deck 1, dealt deck 2, dealt deck 3], openerOf deck) := by
    have s0 (f : Seat) : dealHand deck 0 (52 / 4) 0 f =
        .ok (dealt deck 0, 13, openerAfter (dealt deck 0) 0 f) := step 0 f
    have s1 (f : Seat) : dealHand deck 1 (52 / 4) 13 f =
        .ok (dealt deck 1, 26, openerAfter (dealt deck 1) 1 f) := step 1 f
    have s2 (f : Seat) : dealHand deck 2 (52 / 4) 26 f =
        .ok (dealt deck 2, 39, openerAfter (dealt deck 2) 2 f) := step 2 f
    have s3 (f : Seat) : dealHand deck 3 (52 / 4) 39 f =
        .ok (dealt deck 3, 52, openerAfter (dealt deck 3) 3 f) := step 3 f
    simp only [dealHands, s0, s1, s2, s3, ok_bind]
    rfl
  rw [assignPoker, hhands]
  simp only [ok_bind, pure_eq_ok, Except.ok.injEq, Prod.mk.injEq, and_true]
  funext p
  match p with
  | 0 | 1 | 2 | 3 => rfl

/-- The four hands are the deck. -/
theorem dealt_append {deck : List Poker} (h : deck.length = 52) :
    dealt deck 0 ++ (dealt deck 1 ++ (dealt deck 2 ++ dealt deck 3)) = deck := by
  have h3 : (deck.drop 39).take 13 = deck.drop 39 := List.take_of_length_le (by simp; omega)
  have h2 : (deck.drop 26).take 13 ++ deck.drop 39 = deck.drop 26 := by
    simpa using List.take_append_drop 13 (deck.drop 26)
  have h1 : (deck.drop 13).take 13 ++ deck.drop 26 = deck.drop 13 := by
    simpa using List.take_append_drop 13 (deck.drop 13)
  have h0 : (deck.drop 0).take 13 ++ deck.drop 13 = deck := by
    simp
  change (deck.drop 0).take 13 ++ ((deck.drop 13).take 13 ++ ((deck.drop 26).take 13 ++
    (deck.drop 39).take 13)) = deck
  rw [h3, h2, h1, h0]

theorem dealt_subset (deck : List Poker) (p : Seat) : dealt deck p ⊆ deck :=
  fun _ hcard => List.drop_subset _ _ (List.take_subset _ _ hcard)

theorem length_dealt {deck : List Poker} (h : deck.length = 52) (p : Seat) :
    (dealt deck p).length = 13 := by
  simp only [dealt, List.length_take, List.length_drop]
  omega

/-- The club 3 is in the opener's hand, if it is in the deck. -/
theorem clubThree_dealt {deck : List Poker} (h : deck.length = 52)
    (hclub : ∃ card ∈ deck, card.isClubThree = true) :
    ∃ card ∈ dealt deck (openerOf deck), card.isClubThree = true := by
  have hany : ∀ p : Seat, (∃ card ∈ dealt deck p, card.isClubThree = true) ↔
      (dealt deck p).any Poker.isClubThree = true := by simp
  have hsome : (dealt deck 0).any Poker.isClubThree = true ∨
      (dealt deck 1).any Poker.isClubThree = true ∨
      (dealt deck 2).any Poker.isClubThree = true ∨
      (dealt deck 3).any Poker.isClubThree = true := by
    obtain ⟨card, hmem, hcard⟩ := hclub
    rw [← dealt_append h] at hmem
    simp only [List.mem_append] at hmem
    simp only [← hany]
    rcases hmem with hm | hm | hm | hm
    · exact .inl ⟨card, hm, hcard⟩
    · exact .inr (.inl ⟨card, hm, hcard⟩)
    · exact .inr (.inr (.inl ⟨card, hm, hcard⟩))
    · exact .inr (.inr (.inr ⟨card, hm, hcard⟩))
  rw [hany]
  unfold openerOf openerAfter
  grind

theorem clubThree_opener {deck : List Poker} (hdeck : deck.Perm generatePokers) :
    ∃ card ∈ dealt deck (openerOf deck), card.isClubThree = true := by
  have hmem : ({ suit := .club, suitnum := 0, num := 0 } : Poker) ∈ generatePokers := by decide
  exact clubThree_dealt hdeck.length_eq ⟨_, hdeck.mem_iff.mpr hmem, rfl⟩

end IosGame
