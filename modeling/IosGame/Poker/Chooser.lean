import IosGame.Poker.Classing

/-!
# IosGame.Poker.Chooser

`ComputerPoker` (`pokerCore.swift`): the combination a player puts down.  Action
0 opens a game with the club 3, action 1 leads freely, action 2 has to beat the
combination on the desk; the human's selection is checked by the same function.
-/

namespace IosGame

/-! ## the acceptance test of action 2 -/

/-- One pass of the loop that picks the card a full house is ranked by, with its
variables `j` and `coun`.  Both branches of the source break. -/
def huluKeyBody (cards : List Poker) (v : Int × Int) : Except Trap (Iter (Int × Int) Poker) :=
  if v.1 < 4 then do
    let j := v.1 + 1
    let a ← idx cards j
    let b ← idx cards (j - 1)
    let coun := if a.num = b.num then v.2 + 1 else v.2
    if coun < j ∧ j = 3 then do pure (.leave (← idx cards 2))
    else do pure (.leave (← idx cards 3))
  else pure (.leave { suit := .club, suitnum := 0, num := 0 })

/-- The card a full house is ranked by, the loop started at `start`. -/
def huluKey (cards : List Poker) (start : Int) : Except Trap Poker :=
  loop .outOfFuel (huluKeyBody cards) 5 (start, 0)

/-- One pass of the loop over the common ranks of two flushes. -/
def tonghuaBody (tmpI deskJ : List Poker) (j : Int) : Except Trap (Iter Int Int) :=
  if j < deskJ.length then do
    let a ← idx tmpI j
    let b ← idx deskJ j
    if a.num = b.num then pure (.again (j + 1)) else pure (.leave j)
  else pure (.leave j)

/-- Two flushes: the first different rank from below decides; when there is none
the source reads position `deskJ.count`. -/
def tonghuaPaied (tmpI deskJ : List Poker) : Except Trap Bool := do
  let j ← loop .outOfFuel (tonghuaBody tmpI deskJ) (deskJ.length + 1) 0
  let a ← idx tmpI j
  let b ← idx deskJ j
  if j = deskJ.length then pure (decide (b.suitnum < a.suitnum))
  else pure (decide (b.num < a.num))

/-- The greatest cards of two sorted combinations compared. -/
def lastPaied (tmpI deskJ : List Poker) : Except Trap Bool := do
  let a ← lastOf tmpI
  let b ← lastOf deskJ
  pure (a.gt b)

/-- Two combinations of one kind above 2. -/
def sameClassingPaied (cand desk : PokerClass) (tmpI deskJ : List Poker) : Except Trap Bool :=
  if desk.classing = 7 ∨ desk.classing = 3 then
    if desk.level < cand.level then pure true
    else if cand.level = desk.level then do
      let a ← idx tmpI 0
      let b ← idx deskJ 0
      pure (decide (b.suitnum < a.suitnum))
    else pure false
  else if desk.classing = 6 then lastPaied tmpI deskJ
  else if desk.classing = 5 then do
    let tmpD ← huluKey deskJ 0
    let tmpT ← huluKey tmpI 1
    pure (tmpT.gt tmpD)
  else if desk.classing = 4 then tonghuaPaied tmpI deskJ
  else pure false

/-- `paied` of action 2: whether the candidate `cand` is accepted on `desk`. -/
def paied (cand desk : PokerClass) : Except Trap Bool :=
  let tmpI := sortedBy Poker.lt cand.cards
  let deskJ := sortedBy Poker.lt desk.cards
  if 2 < desk.classing then
    if desk.classing < cand.classing then pure true
    else if cand.classing = desk.classing then sameClassingPaied cand desk tmpI deskJ
    else pure false
  else if cand.classing = desk.classing then lastPaied tmpI deskJ
  else pure false

/-! ## the three actions -/

/-- Action 0: the first combination that holds the club 3. -/
def openingClass (tmp : List PokerClass) : PokerClass :=
  (tmp.find? fun c => c.cards.any Poker.isClubThree).getD .none

/-- Action 2: the first combination accepted on the desk. -/
def firstPaied (desk : PokerClass) : List PokerClass → Except Trap PokerClass
  | [] => pure .none
  | c :: tmp => do
      if ← paied c desk then pure c else firstPaied desk tmp

/-- The removal loop: from `last`, take the first card equal to each card played. -/
def removePlayed (last played : List Poker) : List Poker :=
  played.foldl (fun last card => last.eraseP (·.same card)) last

/-- The `switch action`, over the sorted combinations of the hand. -/
def selectClass (tmp : List PokerClass) (desk : PokerClass) : Nat → Except Trap PokerClass
  | 0 => pure (openingClass tmp)
  | 1 => lastOf tmp
  | 2 => firstPaied desk tmp
  | _ => pure .none

/-- `ComputerPoker(cards:desk:action:)`: the combination put down and the rest. -/
def computerPoker (cards : List Poker) (desk : PokerClass) (action : Nat) :
    Except Trap (PokerClass × List Poker) := do
  let tmp ← classingPokers cards
  let rtn ← selectClass (sortedBy PokerClass.lt tmp) desk action
  pure (rtn, removePlayed cards rtn.cards)

end IosGame
