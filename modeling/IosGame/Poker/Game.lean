import IosGame.Poker.Chooser
import IosGame.Poker.Deal

/-!
# IosGame.Poker.Game

The card game of `GamePage.swift`: its state, `initialGame`, `gamePlay` and the
actions of the buttons.

The state keeps the variables that the game logic reads or decides on; copies
that only the views show (the left, top and right cards, `viewPlayersPass`) and
the delayed animation blocks are left out.  `history` is not in the source: it
records the turns and the settlement as the code comes to them, and nothing reads
it back.
-/

namespace IosGame

/-- What happens in a game: `player` puts `combination` down as `action` asked, or
passes; in the end the coins are settled. -/
inductive Event where
  | played (player : Seat) (action : Nat) (combination : PokerClass)
  | passed (player : Seat)
  | settled
  deriving DecidableEq, Repr

/-- The `@State` variables of `GamePage`. -/
structure GamePage where
  desk : Player
  players : Seat → Player
  firstPriority : Seat
  winnerRank : List Seat
  playersPassed : Seat → Bool
  winnedPlayer : Seat → Bool
  userCoin : Int
  userPlayerCards : List Poker
  userDeskCards : List Poker
  userPreDeskCards : List Poker
  currentAct : Nat
  currentPlay : Seat
  confirmAlert : Bool
  activeShowScorePage : Bool
  /-- the events since `initialGame`, the latest first -/
  history : List Event

/-- Why `gamePlay` or a button stops without a result. -/
inductive Halt where
  /-- `ComputerPoker` trapped -/
  | computerPoker (t : Trap)
  /-- an array access of the page itself is out of range -/
  | outOfRange
  | outOfFuel
  deriving DecidableEq, Repr

/-- `GamePage` as SwiftUI creates it. -/
def GamePage.fresh : GamePage where
  desk := .empty
  players := fun _ => .empty
  firstPriority := 0
  winnerRank := []
  playersPassed := fun _ => false
  winnedPlayer := fun _ => false
  userCoin := 50
  userPlayerCards := []
  userDeskCards := []
  userPreDeskCards := []
  currentAct := 0
  currentPlay := 0
  confirmAlert := false
  activeShowScorePage := false
  history := []

/-! ## starting a game -/

/-- `initialGame()` on the shuffled deck.  `desk` keeps what the last game left. -/
def initialGame (st : GamePage) (pokers : List Poker) : Except Trap GamePage := do
  let (players, firstPriority) ← assignPoker pokers
  pure { st with
    players := players
    firstPriority := firstPriority
    userPlayerCards := (players 0).cards
    userDeskCards := []
    userPreDeskCards := []
    playersPassed := fun _ => false
    winnedPlayer := fun _ => false
    winnerRank := []
    currentAct := 0
    currentPlay := firstPriority
    history := [] }

/-! ## the flags -/

/-- The flags of the three players after `current`, all of them set. -/
def othersSet (flags : Seat → Bool) (current : Seat) : Bool :=
  flags (current + 1) && flags (current + 2) && flags (current + 3)

/-- `othersPassed(current:)`. -/
def othersPassed (st : GamePage) (current : Seat) : Bool := othersSet st.playersPassed current

/-- `othersWinned(current:)`; `none` stands for the default argument -1. -/
def othersWinned (st : GamePage) : Option Seat → Bool
  | none => st.winnedPlayer 0 && st.winnedPlayer 1 && st.winnedPlayer 2 && st.winnedPlayer 3
  | some current => othersSet st.winnedPlayer current

/-! ## turns -/

/-- The action of the player to move: a free lead if all the others passed. -/
def callAct (st : GamePage) : Nat :=
  if othersPassed st st.currentPlay then 1 else st.currentAct

/-- A player put `deskTmp` down. -/
def putDown (st : GamePage) (act : Nat) (deskTmp : PokerClass) : GamePage :=
  let p := st.currentPlay
  { st with
    playersPassed := Function.update st.playersPassed p false
    currentAct := 2
    desk := { st.desk with desk := deskTmp, name := (st.players p).name }
    players := Function.update st.players p { st.players p with desk := deskTmp }
    history := .played p act deskTmp :: st.history }

/-- The player to move has no cards left: he is ranked, and counts as passed. -/
def finish (st : GamePage) : GamePage :=
  let p := st.currentPlay
  { st with
    winnerRank := st.winnerRank ++ [p]
    winnedPlayer := Function.update st.winnedPlayer p true
    playersPassed := Function.update st.playersPassed p true }

/-- The player to move passes. -/
def passTurn (st : GamePage) : GamePage :=
  { st with
    playersPassed := Function.update st.playersPassed st.currentPlay true
    history := .passed st.currentPlay :: st.history }

/-- `currentPlay = (currentPlay+1)%players.count`. -/
def nextPlayer (st : GamePage) : GamePage := { st with currentPlay := st.currentPlay + 1 }

/-- A player's cards on the desk, before his turn, are cleared. -/
def clearDesk (st : GamePage) : GamePage :=
  let p := st.currentPlay
  { st with
    players := Function.update st.players p
      { st.players p with desk := { (st.players p).desk with cards := [] } } }

/-- Replace the hand of the player to move. -/
def setHand (st : GamePage) (cards : List Poker) : GamePage :=
  let p := st.currentPlay
  { st with players := Function.update st.players p { st.players p with cards := cards } }

/-- The body of the `while` loop of `gamePlay`: one computer's turn. -/
def computerTurn (st : GamePage) : Except Halt GamePage :=
  let st := clearDesk st
  if st.winnedPlayer st.currentPlay then pure (nextPlayer st)
  else do
    let act := callAct st
    let st := { st with currentAct := act }
    let (deskTmp, last) ←
      (computerPoker (st.players st.currentPlay).cards st.desk.desk act).mapError .computerPoker
    if deskTmp.isEmpty then pure (nextPlayer (passTurn st))
    else
      let st := setHand (putDown st act deskTmp) last
      pure (nextPlayer (if last.isEmpty then finish st else st))

/-- `while(currentPlay > 0)`. -/
def computerLoopBody (st : GamePage) : Except Halt (Iter GamePage GamePage) :=
  if 0 < st.currentPlay then do pure (.again (← computerTurn st)) else pure (.leave st)

/-! ## `gamePlay` -/

/-- The statements of `gamePlay` before its loop. -/
def enterPlay (st : GamePage) : GamePage :=
  { st with players :=
      Function.update st.players 0 { st.players 0 with cards := st.userPlayerCards } }

/-- `winnORlose()`: the human was the first to run out of cards. -/
def winnORlose (st : GamePage) : Except Halt Bool :=
  match st.winnerRank with
  | [] => .error .outOfRange
  | first :: _ => pure (decide (first = 0))

/-- The settlement branch: hands are cleared and the coins paid. -/
def settle (st : GamePage) : Except Halt GamePage := do
  let st := { st with
    players := fun p =>
      { st.players p with cards := [], desk := { (st.players p).desk with cards := [] } } }
  let won ← winnORlose st
  pure { st with
    userCoin := if won then st.userCoin + 50 else st.userCoin - 30
    activeShowScorePage := true
    history := .settled :: st.history }

/-- The turn goes on past a human without cards. -/
def skipUser (st : GamePage) : GamePage :=
  { st with currentAct := 2, currentPlay := st.currentPlay + 1 }

/-- `gamePlay()`: the computers' turns, then the recursive call while the human is
out, or the settlement. -/
def gamePlay : Nat → GamePage → Except Halt GamePage
  | 0, _ => .error .outOfFuel
  | fuel + 1, st => do
      let st ← loop .outOfFuel computerLoopBody (fuel + 1) (enterPlay st)
      if st.winnedPlayer 0 && !othersWinned st (some 0) then gamePlay fuel (skipUser st)
      else if othersWinned st none then settle st
      else pure st

/-! ## the buttons -/

/-- What the human can tap. -/
inductive Action where
  /-- a card of `userPlayerCards` -/
  | select (index : Nat)
  /-- a card of `userPreDeskCards` -/
  | deselect (index : Nat)
  | confirm
  | pass
  deriving DecidableEq, Repr

/-- Tapping a card of the hand moves it to the selection, which holds at most five. -/
def select (st : GamePage) (index : Nat) : GamePage :=
  match st.userPlayerCards[index]? with
  | some card =>
      if 0 < st.userPlayerCards.length ∧ st.userPreDeskCards.length < 5 then
        { st with
          userPlayerCards := st.userPlayerCards.eraseIdx index
          userPreDeskCards := sortedBy Poker.gt (st.userPreDeskCards ++ [card]) }
      else st
  | none => st

/-- Tapping a card of the selection moves it back. -/
def deselect (st : GamePage) (index : Nat) : GamePage :=
  match st.userPreDeskCards[index]? with
  | some card =>
      if 0 < st.userPreDeskCards.length ∧ st.userPreDeskCards.length < 6 ∧
          st.userPlayerCards.length < 13 then
        { st with
          userPreDeskCards := st.userPreDeskCards.eraseIdx index
          userPlayerCards := sortedBy Poker.gt (st.userPlayerCards ++ [card]) }
      else st
  | none => st

/-- The pass button, up to its call of `gamePlay`. -/
def passPlay (st : GamePage) : GamePage :=
  nextPlayer (passTurn { st with userDeskCards := [], currentAct := 2 })

/-- The confirm button: `none` if the selection is rejected, else the state in
which it calls `gamePlay`.  The selection may be put down in part. -/
def confirmPlay (st : GamePage) : Except Halt (Option GamePage) :=
  if 0 < st.userPreDeskCards.length then do
    let act := callAct st
    let st := { st with currentAct := act }
    let (deskTmp, _) ←
      (computerPoker st.userPreDeskCards st.desk.desk act).mapError .computerPoker
    if deskTmp.isEmpty then pure none
    else
      let st := { putDown st act deskTmp with
        userDeskCards := deskTmp.cards
        userPreDeskCards := removePlayed st.userPreDeskCards deskTmp.cards }
      pure (some (nextPlayer
        (if st.userPlayerCards.isEmpty && st.userPreDeskCards.isEmpty then finish st else st)))
  else pure none

/-- What a rejected confirm leaves: the alert, and the action it asked for. -/
def rejectConfirm (st : GamePage) : GamePage :=
  { st with
    confirmAlert := true
    currentAct := if 0 < st.userPreDeskCards.length then callAct st else st.currentAct }

/-- A tap of the human, with the `gamePlay` it calls. -/
def act (fuel : Nat) (st : GamePage) : Action → Except Halt GamePage
  | .select index => pure (select st index)
  | .deselect index => pure (deselect st index)
  | .pass => gamePlay fuel (passPlay st)
  | .confirm => do
      match ← confirmPlay st with
      | some st' => gamePlay fuel st'
      | none => pure (rejectConfirm st)

end IosGame
