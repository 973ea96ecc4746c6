import IosGame.Poker.Card

/-!
# IosGame.Poker.Classing

`ClassingPokers` (`pokerCore.swift`): a hand is split greedily into straight
flushes, fours of a kind, full houses, flushes, straights, triples, pairs and
single cards.  Each pass scans a sorted list and cuts combinations out of it
while it scans, moving its index back over the gap; the passes are the loops of
the source, body by body, and an index that leaves the list is a `Trap`.
-/

namespace IosGame

/-! ## cutting cards out of a list -/

/-- The `k` cards from position `i` on, as the source lists them one by one. -/
def readRun (l : List Poker) (i : Int) : Nat → Except Trap (List Poker)
  | 0 => .ok []
  | k + 1 => do
      let card ← idx l i
      let cards ← readRun l (i + 1) k
      pure (card :: cards)

/-- `for _ in 0...k-1 { l.remove(at: i) }`. -/
def removeRun (l : List Poker) (i : Int) : Nat → Except Trap (List Poker)
  | 0 => .ok l
  | k + 1 => do removeRun (← removeAt l i) i k

/-- `[l[loc[0]], …, l[loc[k-1]]]`. -/
def readLocs (l : List Poker) : Nat → List Int → Except Trap (List Poker)
  | 0, _ => .ok []
  | _ + 1, [] => .error .outOfRange
  | k + 1, i :: loc => do
      let card ← idx l i
      let cards ← readLocs l k loc
      pure (card :: cards)

/-- `for _ in 0...k-1 { l.remove(at: loc.removeFirst()) }`. -/
def removeLocs (l : List Poker) : Nat → List Int → Except Trap (List Poker)
  | 0, _ => .ok l
  | _ + 1, [] => .error .outOfRange
  | k + 1, i :: loc => do removeLocs (← removeAt l i) k loc

/-! ## scanning for one row of `SHUNZI` -/

/-- Variables of the scan: the matches so far, the position, the places found. -/
structure RowScan where
  times : Nat
  count : Int
  loc : List Int

/-- One pass of the scan of `cards` up to position `stop` for the next rank of `row`. -/
def rowScanBody (cards : List Poker) (row : List Nat) (stop : Int) (s : RowScan) :
    Except Trap (Iter RowScan RowScan) :=
  if s.count ≤ stop ∧ s.times < 5 then do
    let card ← idx cards s.count
    let num ← idx row s.times
    if card.num = num then
      pure (.again { times := s.times + 1, count := s.count + 1, loc := s.loc ++ [s.count] })
    else
      pure (.again { s with count := s.count + 1 })
  else pure (.leave s)

/-- Look for the rest of `row`, whose head is at `start`; the places of all five
cards in descending order if they are there. -/
def scanRow (fuel : Nat) (cards : List Poker) (row : List Nat) (start stop : Int) :
    Except Trap (Option (List Int)) := do
  let s ← loop .outOfFuel (rowScanBody cards row stop) fuel
    { times := 1, count := start, loc := [] }
  if s.times = 5 then
    pure (some (sortedBy (fun a b => decide (b < a)) (start :: s.loc)))
  else pure none

/-! ## straight flushes -/

/-- Variables of the straight-flush pass. -/
structure SuitPass where
  tmpSuit : List Poker
  pokersArray : List PokerClass
  ele : Int

/-- One pass of the search for the end of the suit group that starts with `suitreg`. -/
def groupEndBody (cards : List Poker) (suitreg : Nat) (coun : Int) :
    Except Trap (Iter Int Int) :=
  if coun < cards.length then do
    let card ← idx cards coun
    if card.suitnum = suitreg then pure (.again (coun + 1)) else pure (.leave coun)
  else pure (.leave coun)

/-- The next card and row to try: the row index runs through `SHUNZI` and wraps. -/
def nextRow (coun cmp : Int) : Int × Int :=
  if cmp = shunzi.length - 1 then (coun + 1, 0) else (coun, cmp + 1)

/-- Cut the straight flush at the places `loc` out; the scan resumes at the
shifted end of the suit group. -/
def takeStraightFlush (st : SuitPass) (cmp : Int) (loc : List Int) : Except Trap SuitPass := do
  let ttmp ← readLocs st.tmpSuit 5 loc
  let tmpSuit ← removeLocs st.tmpSuit 5 loc
  pure { tmpSuit := tmpSuit
         pokersArray := st.pokersArray ++
           [{ cards := sortedBy pokerNumCompare ttmp, classing := 7, level := shunzi.length - cmp }]
         ele := st.ele - 5 }

/-- One pass of the search of a suit group, ending at `suitE`, for any row. -/
def groupBody (fuel : Nat) (st : SuitPass) (suitE : Int) (v : Int × Int) :
    Except Trap (Iter (Int × Int) SuitPass) :=
  if v.1 < suitE - 3 then do
    let card ← idx st.tmpSuit v.1
    let row ← idx shunzi v.2
    let head ← idx row 0
    if card.num = head then
      match ← scanRow fuel st.tmpSuit row v.1 suitE with
      | some loc => do pure (.leave (← takeStraightFlush st v.2 loc))
      | none => pure (.again (nextRow v.1 v.2))
    else pure (.again (nextRow v.1 v.2))
  else pure (.leave st)

/-- The suit group from position `suitS` on: `ele` moves to its end, and back if a
straight flush is cut out. -/
def suitGroup (fuel : Nat) (st : SuitPass) (suitS : Int) : Except Trap SuitPass := do
  let first ← idx st.tmpSuit suitS
  let coun ← loop .outOfFuel (groupEndBody st.tmpSuit first.suitnum) fuel suitS
  let suitE := coun - 1
  let st := { st with ele := coun }
  if 3 < suitE - suitS then loop .outOfFuel (groupBody fuel st suitE) fuel (suitS, 0)
  else pure st

/-- One pass of the straight-flush loop. -/
def suitPassBody (fuel : Nat) (st : SuitPass) : Except Trap (Iter SuitPass SuitPass) :=
  if st.ele < st.tmpSuit.length ∧ 4 < st.tmpSuit.length then do
    pure (.again (← suitGroup fuel st (if st.ele < 0 then 0 else st.ele)))
  else pure (.leave st)

/-! ## fours, triples and pairs -/

/-- Variables of the rank pass. -/
structure RankPass where
  tmpNum : List Poker
  ele : Int
  numCount : Nat
  pokersArray : List PokerClass
  suntiao : List PokerClass
  yidui : List PokerClass

/-- Whether the cards at `ele - 1` and `ele` have one rank; false past the end. -/
def sameNum (l : List Poker) (ele : Int) : Except Trap Bool :=
  if ele < l.length then do
    let a ← idx l (ele - 1)
    let b ← idx l ele
    pure (a.num == b.num)
  else pure false

/-- A run of three ended before `ele`: cut the triple out. -/
def takeSuntiao (st : RankPass) : Except Trap RankPass := do
  let ttmp ← readRun st.tmpNum (st.ele - 3) 3
  let tmpNum ← removeRun st.tmpNum (st.ele - 3) 3
  pure { st with
    tmpNum := tmpNum
    suntiao := st.suntiao ++ [{ cards := ttmp, classing := 2 }]
    numCount := 0
    ele := st.ele - 3 }

/-- A run of two ended before `ele`: cut the pair out. -/
def takeYidui (st : RankPass) : Except Trap RankPass := do
  let ttmp ← readRun st.tmpNum (st.ele - 2) 2
  let tmpNum ← removeRun st.tmpNum (st.ele - 2) 2
  pure { st with
    tmpNum := tmpNum
    yidui := st.yidui ++ [{ cards := ttmp, classing := 1 }]
    numCount := 0
    ele := st.ele - 2 }

/-- Four of one rank up to `ele`: cut them out. -/
def takeSitiao (st : RankPass) : Except Trap RankPass := do
  let ttmp ← readRun st.tmpNum (st.ele - 3) 4
  let tmpNum ← removeRun st.tmpNum (st.ele - 3) 4
  pure { st with
    tmpNum := tmpNum
    pokersArray := st.pokersArray ++ [{ cards := ttmp, classing := 6 }]
    numCount := 0
    ele := st.ele - 4 }

/-- The first `if` of the rank loop: count the run on, or cut it out when it ends. -/
def endRun (st : RankPass) : Except Trap RankPass := do
  if ← sameNum st.tmpNum st.ele then pure { st with numCount := st.numCount + 1 }
  else if 2 ≤ st.numCount then takeSuntiao st
  else if 1 ≤ st.numCount then takeYidui st
  else pure st

/-- The second `if` of the rank loop: a run of four is cut out while it goes on. -/
def checkSitiao (st : RankPass) : Except Trap RankPass :=
  if 3 ≤ st.numCount then takeSitiao st else pure st

/-- One pass of the rank loop. -/
def rankPassBody (st : RankPass) : Except Trap (Iter RankPass RankPass) :=
  if st.ele ≤ st.tmpNum.length then do
    let st ← endRun { st with ele := if st.ele < 1 then 1 else st.ele }
    let st ← checkSitiao st
    pure (.again { st with ele := st.ele + 1 })
  else pure (.leave st)

/-! ## full houses -/

/-- Full houses from the first triples and the first pairs, as many as there are
of both; with the triples and the pairs left over. -/
def pairHulu : List PokerClass → List PokerClass →
    List PokerClass × List PokerClass × List PokerClass
  | san :: suntiao, dui :: yidui =>
      let rest := pairHulu suntiao yidui
      ({ cards := sortedBy pokerNumCompare (san.cards ++ dui.cards), classing := 5 } :: rest.1,
        rest.2)
  | suntiao, yidui => ([], suntiao, yidui)

/-! ## flushes -/

/-- Variables of the flush pass. -/
structure FlushPass where
  tmpNum : List Poker
  ele : Int
  suitsCount : Nat
  pokersArray : List PokerClass

/-- Five of one suit up to `ele`: cut them out.  `suitsCount` keeps its value. -/
def takeTonghua (st : FlushPass) : Except Trap FlushPass := do
  let ttmp ← readRun st.tmpNum (st.ele - 4) 5
  let tmpNum ← removeRun st.tmpNum (st.ele - 4) 5
  pure { st with
    tmpNum := tmpNum
    pokersArray := st.pokersArray ++ [{ cards := ttmp, classing := 4 }]
    ele := st.ele - 5 }

/-- Count the suit on, or start over. -/
def countSuit (st : FlushPass) : Except Trap FlushPass := do
  let a ← idx st.tmpNum (st.ele - 1)
  let b ← idx st.tmpNum st.ele
  pure { st with suitsCount := if a.suitnum = b.suitnum then st.suitsCount + 1 else 0 }

/-- The second `if` of the flush loop. -/
def checkTonghua (st : FlushPass) : Except Trap FlushPass :=
  if 4 ≤ st.suitsCount then takeTonghua st else pure st

/-- One pass of the flush loop.  Unlike the rank loop it does not clamp `ele`
from below before it reads position `ele - 1`. -/
def flushPassBody (st : FlushPass) : Except Trap (Iter FlushPass FlushPass) :=
  if st.ele < st.tmpNum.length ∧ 4 < st.tmpNum.length then do
    let st ← countSuit st
    let st ← checkTonghua st
    pure (.again { st with ele := st.ele + 1 })
  else pure (.leave st)

/-! ## straights -/

/-- Variables of the straight pass. -/
structure StraightPass where
  tmpNum : List Poker
  ele : Int
  cmp : Int
  pokersArray : List PokerClass

/-- Cut the straight at the places `loc` out. -/
def takeShunzi (st : StraightPass) (loc : List Int) : Except Trap StraightPass := do
  let ttmp ← readLocs st.tmpNum 5 loc
  let tmpNum ← removeLocs st.tmpNum 5 loc
  pure { st with
    tmpNum := tmpNum
    pokersArray := st.pokersArray ++
      [{ cards := sortedBy pokerNumCompare ttmp, classing := 3, level := 10 - st.cmp }] }

/-- The card at `ele` heads `row`: cut the straight out if the rest is there. -/
def checkShunzi (fuel : Nat) (st : StraightPass) (row : List Nat) : Except Trap StraightPass := do
  match ← scanRow fuel st.tmpNum row st.ele (st.tmpNum.length - 1) with
  | some loc => takeShunzi st loc
  | none => pure st

/-- One pass of the straight loop: the card at `ele` heads the row `cmp`, or the
next row is tried.  A card whose row fails is left with the row unchanged. -/
def straightPassBody (fuel : Nat) (st : StraightPass) :
    Except Trap (Iter StraightPass StraightPass) :=
  if st.ele < st.tmpNum.length ∧ 4 < st.tmpNum.length then do
    let card ← idx st.tmpNum st.ele
    let row ← idx shunzi st.cmp
    let head ← idx row 0
    if card.num = head then do
      let st ← checkShunzi fuel st row
      pure (.again { st with ele := st.ele + 1 })
    else if st.cmp + 1 ≥ shunzi.length then
      pure (.again { st with cmp := 0, ele := st.ele + 1 })
    else pure (.again { st with cmp := st.cmp + 1 })
  else pure (.leave st)

/-! ## the whole classification -/

/-- Fuel for every loop on `n` cards; `fueled_classingPokers` shows that it
suffices. -/
def loopFuel (n : Nat) : Nat := 10 * n + 20

/-- The straight-flush pass over a list sorted by suit. -/
def straightFlushPass (fuel : Nat) (tmpSuit : List Poker) : Except Trap SuitPass :=
  loop .outOfFuel (suitPassBody fuel) fuel { tmpSuit := tmpSuit, pokersArray := [], ele := 0 }

/-- The rank pass over a list sorted by rank. -/
def rankPass (fuel : Nat) (pokersArray : List PokerClass) (tmpNum : List Poker) :
    Except Trap RankPass :=
  loop .outOfFuel rankPassBody fuel
    { tmpNum := tmpNum, ele := 1, numCount := 0, pokersArray := pokersArray, suntiao := [],
      yidui := [] }

/-- The flush pass over a list sorted by suit. -/
def flushPass (fuel : Nat) (pokersArray : List PokerClass) (tmpNum : List Poker) :
    Except Trap FlushPass :=
  loop .outOfFuel flushPassBody fuel
    { tmpNum := tmpNum, ele := 1, suitsCount := 0, pokersArray := pokersArray }

/-- The straight pass over a list sorted by rank. -/
def straightPass (fuel : Nat) (pokersArray : List PokerClass) (tmpNum : List Poker) :
    Except Trap StraightPass :=
  loop .outOfFuel (straightPassBody fuel) fuel
    { tmpNum := tmpNum, ele := 0, cmp := 0, pokersArray := pokersArray }

/-- The cards left over, each a combination of its own. -/
def singles (cards : List Poker) : List PokerClass :=
  cards.map fun card => { cards := [card], classing := 0 }

/-- `ClassingPokers(origins:)`. -/
def classingPokers (origins : List Poker) : Except Trap (List PokerClass) := do
  let fuel := loopFuel origins.length
  let suit ← straightFlushPass fuel (sortedBy pokerSuitCompare origins)
  let rank ← rankPass fuel suit.pokersArray (sortedBy pokerNumCompare suit.tmpSuit)
  let hulu := pairHulu rank.suntiao rank.yidui
  let flush ← flushPass fuel (rank.pokersArray ++ hulu.1) (sortedBy pokerSuitCompare rank.tmpNum)
  let straight ← straightPass fuel flush.pokersArray (sortedBy pokerNumCompare flush.tmpNum)
  pure (straight.pokersArray ++ hulu.2.1 ++ hulu.2.2 ++ singles straight.tmpNum)

end IosGame
