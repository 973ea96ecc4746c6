import IosGame.MainQueue
import IosGame.Poker.Finish

/-!
# IosGame.Poker.Screen

`GamePage.swift` with what it shows: the cards of the three computers, who passed, whether
the buttons are disabled and whether the score page covers them.

`gamePlay` plays the turns of the computers at once and shows them one after the other, by
four nested blocks of the main queue.  Taps and blocks come in any order in time: a card can
be tapped while blocks are to run, and in the last round, when `gamePlay` calls itself,
several chains of blocks run side by side.
-/

namespace IosGame

/-- What the page shows of a computer: `leftPlayerCards` and `leftDeskCards`, and likewise at
the top and on the right. -/
structure Shown where
  playerCards : List Poker
  deskCards : List Poker
  deriving DecidableEq, Repr

/-- What is to be shown of a player. -/
def Player.shown (player : Player) : Shown := ⟨player.cards, player.desk.cards⟩

/-- The blocks of `gamePlay`, the outermost first. -/
inductive Stage where
  | left
  | top
  | right
  /-- the buttons are enabled, or the score page comes up -/
  | enable
  deriving DecidableEq, Repr

/-- The block inside a block, with its delay in tenths of a second. -/
def Stage.next : Stage → Option (Delayed Stage)
  | .left => some ⟨.top, 8⟩
  | .top => some ⟨.right, 8⟩
  | .right => some ⟨.enable, 5⟩
  | .enable => none

/-- `GamePage` with the `@State` variables that its views read. -/
structure Screen where
  page : GamePage
  left : Shown
  top : Shown
  right : Shown
  viewPlayersPass : Seat → Bool
  /-- whether the pass and the confirm button are disabled -/
  passConfirmable : Bool
  showScorePage : Bool
  /-- the blocks still to run -/
  blocks : List (Delayed Stage)

/-- What can happen to the page. -/
inductive ScreenEvent where
  /-- a tenth of a second passes -/
  | tick
  /-- a block that is due runs -/
  | block (i : Nat)
  | tap (a : Action)
  /-- the button of the score page -/
  | nextGame (deck : List Poker)
  /-- the button of the page `GameOverView` -/
  | resetGame (deck : List Poker)

/-- Whether a tap is on one of the two buttons. -/
def Action.isButton : Action → Bool
  | .select _ | .deselect _ => false
  | .confirm | .pass => true

namespace Screen

/-! ## the page -/

/-- `GamePage` as SwiftUI creates it. -/
def fresh : Screen where
  page := .fresh
  left := ⟨[], []⟩
  top := ⟨[], []⟩
  right := ⟨[], []⟩
  viewPlayersPass := fun _ => false
  passConfirmable := false
  showScorePage := false
  blocks := []

/-- What a block does when it runs, but for the block it schedules. -/
def run (s : Screen) : Stage → Screen
  | .left => { s with
      left := (s.page.players 1).shown
      viewPlayersPass := Function.update s.viewPlayersPass 1 (s.page.playersPassed 1) }
  | .top => { s with
      top := (s.page.players 2).shown
      viewPlayersPass := Function.update s.viewPlayersPass 2 (s.page.playersPassed 2) }
  | .right => { s with
      right := (s.page.players 3).shown
      viewPlayersPass := Function.update s.viewPlayersPass 3 (s.page.playersPassed 3) }
  | .enable =>
      let s := { s with passConfirmable := false }
      if s.page.activeShowScorePage then
        { s with page := { s.page with activeShowScorePage := false }, showScorePage := true }
      else s

/-- `gamePlay()`: its blocks are scheduled when the computers' turns are over, before it
calls itself or settles the coins. -/
def gamePlay : Nat → Screen → Except Halt Screen
  | 0, _ => .error .outOfFuel
  | fuel + 1, s => do
      let page ← loop .outOfFuel computerLoopBody (fuel + 1) (enterPlay s.page)
      let s := { s with
        page := page
        viewPlayersPass := fun _ => false
        passConfirmable := true
        blocks := s.blocks ++ [⟨.left, 8⟩] }
      if page.winnedPlayer 0 && !othersWinned page (some 0) then
        gamePlay fuel { s with page := skipUser page }
      else if othersWinned page none then do pure { s with page := ← settle page }
      else pure s

/-- `initialGame()` on the shuffled deck.  Blocks that are still to run stay. -/
def initialGame (s : Screen) (pokers : List Poker) : Except Trap Screen := do
  let page ← IosGame.initialGame s.page pokers
  pure { s with
    page := page
    left := ⟨(page.players 1).cards, []⟩
    top := ⟨(page.players 2).cards, []⟩
    right := ⟨(page.players 3).cards, []⟩
    viewPlayersPass := fun _ => false
    passConfirmable := true }

/-- `initialGame()` and `gamePlay()`, as `onAppear` does. -/
def onAppear (fuel : Nat) (s : Screen) (deck : List Poker) : Except Halt Screen := do
  gamePlay fuel (← (s.initialGame deck).mapError fun _ => .outOfRange)

/-- The action of Next Game. -/
def nextGame (fuel : Nat) (s : Screen) (deck : List Poker) : Except Halt Screen := do
  let s ← onAppear fuel s deck
  pure { s with showScorePage := false }

/-- The action of Reset Game. -/
def resetGame (fuel : Nat) (s : Screen) (deck : List Poker) : Except Halt Screen :=
  nextGame fuel { s with page := { s.page with userCoin := 50 } } deck

/-- A tap of the human, with the `gamePlay` it calls. -/
def act (fuel : Nat) (s : Screen) : Action → Except Halt Screen
  | .select index => pure { s with page := select s.page index }
  | .deselect index => pure { s with page := deselect s.page index }
  | .pass => gamePlay fuel { s with page := passPlay s.page }
  | .confirm => do
      match ← confirmPlay s.page with
      | some page => gamePlay fuel { s with page := page }
      | none => pure { s with page := rejectConfirm s.page }

/-- One step of the page.  Time passes when no block is due, and the button of a page that
covers the game is there to tap when the blocks due are done. -/
inductive Step : Screen → ScreenEvent → Screen → Prop where
  | tick {s : Screen} (hquiet : MainQueue.Quiet s.blocks) :
      Step s .tick { s with blocks := MainQueue.tick s.blocks }
  | block {s : Screen} {i : Nat} {d : Delayed Stage} (hd : s.blocks[i]? = some d)
      (hdue : d.due = 0) :
      Step s (.block i) { s.run d.block with blocks := MainQueue.run Stage.next s.blocks i }
  | tap {s s' : Screen} {a : Action} {fuel : Nat} (hgame : s.showScorePage = false)
      (hbutton : a.isButton = true → s.passConfirmable = false)
      (hact : s.act fuel a = .ok s') : Step s (.tap a) s'
  | nextGame {s s' : Screen} {deck : List Poker} {fuel : Nat} (hscore : s.showScorePage = true)
      (hquiet : MainQueue.Quiet s.blocks) (hcoin : 0 < s.page.userCoin)
      (hdeck : deck.Perm generatePokers) (hgame : s.nextGame fuel deck = .ok s') :
      Step s (.nextGame deck) s'
  | resetGame {s s' : Screen} {deck : List Poker} {fuel : Nat} (hscore : s.showScorePage = true)
      (hquiet : MainQueue.Quiet s.blocks) (hcoin : s.page.userCoin ≤ 0)
      (hdeck : deck.Perm generatePokers) (hgame : s.resetGame fuel deck = .ok s') :
      Step s (.resetGame deck) s'

/-- The page from `onAppear` on, through any number of games. -/
def system : System Screen ScreenEvent where
  init s := ∃ fuel deck, List.Perm deck generatePokers ∧ onAppear fuel fresh deck = .ok s
  step := Step

end Screen

/-! ## `gamePlay` -/

namespace Screen

variable {s s' : Screen}

/-- **What `gamePlay` does**: to the game what the game's `gamePlay` does; the buttons are
disabled, and a chain of blocks begins, or more than one if the game is over. -/
theorem gamePlay_eq {fuel : Nat} (h : s.gamePlay fuel = .ok s') :
    IosGame.gamePlay fuel s.page = .ok s'.page ∧
      ∃ n, s' = { s with
        page := s'.page
        viewPlayersPass := fun _ => false
        passConfirmable := true
        blocks := s.blocks ++ List.replicate (n + 1) ⟨.left, 8⟩ } ∧
        (n = 0 ∨ Event.settled ∈ s'.page.history) := by
  induction fuel generalizing s with
  | zero => cases h
  | succ fuel ih =>
      rw [gamePlay] at h
      obtain ⟨page, hloop, h⟩ := bind_eq_ok.mp h
      rw [IosGame.gamePlay, hloop, ok_bind]
      simp only at h
      split at h
      · rename_i hagain
        rw [if_pos hagain]
        obtain ⟨hplay, n, hs', -⟩ := ih h
        have hsettled : Event.settled ∈ s'.page.history :=
          settled_gamePlay hplay (Bool.and_eq_true_iff.mp hagain).1
        refine ⟨hplay, n + 1, ?_, .inr hsettled⟩
        rw [hs']
        simp [List.replicate_succ]
      · rename_i hagain
        rw [if_neg hagain]
        split at h
        · rename_i hall
          rw [if_pos hall]
          obtain ⟨page', hsettle, h⟩ := bind_eq_ok.mp h
          rw [pure_eq_ok, Except.ok.injEq] at h
          subst h
          exact ⟨hsettle, 0, rfl, .inl rfl⟩
        · rename_i hall
          rw [if_neg hall]
          rw [pure_eq_ok, Except.ok.injEq] at h
          subst h
          exact ⟨rfl, 0, rfl, .inl rfl⟩

/-- To the game it is the game's `gamePlay`, also where that fails. -/
theorem gamePlay_page (fuel : Nat) (s : Screen) :
    (s.gamePlay fuel).map Screen.page = IosGame.gamePlay fuel s.page := by
  induction fuel generalizing s with
  | zero => rfl
  | succ fuel ih =>
      rw [gamePlay, IosGame.gamePlay]
      cases hloop : loop .outOfFuel computerLoopBody (fuel + 1) (enterPlay s.page) with
      | error e => rfl
      | ok page =>
          simp only [ok_bind]
          split
          · exact ih _
          · split
            · cases settle page <;> rfl
            · rfl

/-- A tap does to the game what it does there. -/
theorem act_page (fuel : Nat) (s : Screen) (a : Action) :
    (s.act fuel a).map Screen.page = IosGame.act fuel s.page a := by
  cases a with
  | select index => rfl
  | deselect index => rfl
  | pass => exact gamePlay_page fuel _
  | confirm =>
      rw [act, IosGame.act]
      cases confirmPlay s.page with
      | error e => rfl
      | ok o =>
          cases o with
          | none => rfl
          | some page => exact gamePlay_page fuel _

end Screen

end IosGame
