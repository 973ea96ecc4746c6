import IosGame.Loop

/-!
# IosGame.Poker.Card

Cards, combinations and their comparison operators (`pokerCore.swift`).

A `poker` is one card: `num` is its rank with `0 = 3`, …, `11 = A`, `12 = 2`,
`suitnum` its suit in the order ♣ ♦ ♥ ♠, and `suit` the glyph that is printed.
A `pokerClass` is a combination of cards with its kind `classing` and, among
straights, the `level` of its row.
-/

namespace IosGame

/-- The glyphs of the array `suits` in `GeneratePokers`. -/
inductive Suit where
  | club
  | diamond
  | heart
  | spade
  deriving DecidableEq, Repr

/-- `struct poker`. -/
structure Poker where
  suit : Suit
  suitnum : Nat
  num : Nat
  deriving DecidableEq, Repr

namespace Poker

/-- `==` on cards, blind to the glyph. -/
def same (left right : Poker) : Bool :=
  left.num == right.num && left.suitnum == right.suitnum

/-- `>` on cards: by rank, then by suit. -/
def gt (left right : Poker) : Bool :=
  if left.num == right.num then right.suitnum < left.suitnum else right.num < left.num

/-- `<` on cards: by rank, then by suit. -/
def lt (left right : Poker) : Bool :=
  if left.num == right.num then left.suitnum < right.suitnum else left.num < right.num

/-- The club 3, which opens a game. -/
def isClubThree (card : Poker) : Bool := card.num == 0 && card.suitnum == 0

end Poker

/-- `struct pokerClass`.  `classing` is 7 for a straight flush, then 6 four of a
kind, 5 full house, 4 flush, 3 straight, 2 triple, 1 pair and 0 single card. -/
structure PokerClass where
  cards : List Poker
  classing : Int
  level : Int := 0
  deriving DecidableEq, Repr

namespace PokerClass

/-- `pokerClass()`, the combination of nobody. -/
def none : PokerClass := { cards := [], classing := -1 }

/-- `isEmpty()`. -/
def isEmpty (c : PokerClass) : Bool := c.cards.isEmpty || c.classing == -1

/-- `<` on combinations: by kind, then by level. -/
def lt (left right : PokerClass) : Bool :=
  if left.classing == right.classing then left.level < right.level
  else left.classing < right.classing

end PokerClass

/-- `PokerNumCompare(this:that:)`, descending by rank, then by suit. -/
def pokerNumCompare (this that : Poker) : Bool :=
  if this.num == that.num then that.suitnum < this.suitnum else that.num < this.num

/-- `PokerSuitCompare(this:that:)`, descending by suit, then by rank. -/
def pokerSuitCompare (this that : Poker) : Bool :=
  if this.suitnum == that.suitnum then that.num < this.num else that.suitnum < this.suitnum

/-- The array `suits` of `GeneratePokers`. -/
def suits : List Suit := [.club, .diamond, .heart, .spade]

/-- The 52 cards `GeneratePokers` appends, before it shuffles them. -/
def generatePokers : List Poker :=
  suits.zipIdx.flatMap fun (suit, i) =>
    (List.range 13).map fun j => { suit := suit, suitnum := i, num := j }

/-- The card of the deck of suit `i` and rank `j`. -/
def deckCard (i j : Nat) : Poker := { suit := suits.getD i .club, suitnum := i, num := j }

/-- `SHUNZI`, the rows of a straight in descending order of rank. -/
def shunzi : List (List Nat) :=
  [[12, 3, 2, 1, 0],
   [11, 10, 9, 8, 7],
   [10, 9, 8, 7, 6],
   [9, 8, 7, 6, 5],
   [8, 7, 6, 5, 4],
   [7, 6, 5, 4, 3],
   [6, 5, 4, 3, 2],
   [5, 4, 3, 2, 1],
   [4, 3, 2, 1, 0],
   [12, 11, 2, 1, 0]]

/-- The cards of several combinations together. -/
def cardsOf (cs : List PokerClass) : List Poker := cs.flatMap PokerClass.cards

@[simp] theorem cardsOf_nil : cardsOf [] = [] := rfl

@[simp] theorem cardsOf_cons (c : PokerClass) (cs : List PokerClass) :
    cardsOf (c :: cs) = c.cards ++ cardsOf cs := rfl

@[simp] theorem cardsOf_append (cs ds : List PokerClass) :
    cardsOf (cs ++ ds) = cardsOf cs ++ cardsOf ds := by
  simp [cardsOf]

end IosGame
