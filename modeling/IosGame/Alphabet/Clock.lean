import IosGame.System

/-!
# IosGame.Alphabet.Clock

The clock of the word game: one timer that ticks every half second, taken down when a word
is complete and scheduled again when the next round is shown.

The tick that finds the clock at 0 shows the score page, so between it and the tick that
brought the clock there a word can still be completed.  That takes the timer down, and
`gamePlay` starts the next round without a look at the clock.  `time_out_ends_game` says
that nothing else goes wrong.
-/

namespace IosGame

namespace Alphabet

/-- What the clock and the callbacks see of the page.  `timeClock` is in half seconds. -/
structure Game where
  timeClock : Nat
  /-- how many entries `vocabularyOrder` has left -/
  vocabularyOrder : Nat
  roundCount : Nat
  roundChanging : Bool
  showScorePage : Bool
  /-- whether `timer` is scheduled -/
  timer : Bool
  /-- how many timers are scheduled that `timer` no longer refers to -/
  otherTimers : Nat
  /-- whether some tile of the round is not placed -/
  unfinished : Bool
  /-- how many delayed calls of `gamePlay` are to come -/
  gamePlays : Nat
  /-- how many delayed callbacks of `nextRoundDelay` are to come -/
  roundDelays : Nat
  /-- the clock at each run of `initialRound`, the latest first -/
  rounds : List Nat
  deriving DecidableEq, Repr

namespace Game

/-- `timer?.invalidate()` -/
def invalidate (g : Game) : Game := { g with timer := false }

def timerController (g : Game) : Game :=
  if !g.roundChanging then
    if g.timeClock ≤ 0 then
      { g.invalidate with timeClock := 0 }
    else
      { g with
        timer := true
        otherTimers := if g.timer then g.otherTimers + 1 else g.otherTimers }
  else
    g.invalidate

/-- The block that `timerController` schedules. -/
def tick (g : Game) : Game :=
  if g.timeClock ≤ 0 then
    { g with timeClock := 0, showScorePage := true }
  else
    { g with timeClock := g.timeClock - 1 }

def nextRoundDelay (g : Game) : Game :=
  let g := { g with roundCount := g.roundCount + 1, roundChanging := true }
  let g := g.timerController
  { g with roundDelays := g.roundDelays + 1 }

/-- The block that `nextRoundDelay` delays. -/
def roundDelay (g : Game) : Game :=
  let g := { g with roundDelays := g.roundDelays - 1, roundChanging := false }
  g.timerController

/-- `initialRound`: the next word, none of its tiles placed. -/
def initialRound (g : Game) : Game :=
  { g with
    vocabularyOrder := g.vocabularyOrder - 1
    unfinished := true
    rounds := g.timeClock :: g.rounds }

def gamePlay (g : Game) : Game :=
  if g.vocabularyOrder ≤ 0 then
    { g with showScorePage := true }
  else
    g.nextRoundDelay.initialRound

/-- The end of `onEnded` when the last tile of the word is placed. -/
def pass (g : Game) : Game :=
  { g.invalidate with unfinished := false, gamePlays := g.gamePlays + 1 }

/-- The block that `onEnded` delays. -/
def gamePlayDelayed (g : Game) : Game :=
  { g with gamePlays := g.gamePlays - 1 }.gamePlay

/-- `scorePageSelect`, run when the score page is shown: whether it is that of a game
completed in time. -/
def scorePageSelect (g : Game) : Game × Bool :=
  (g.invalidate, decide (g.vocabularyOrder ≤ 0 ∧ 0 < g.timeClock))

end Game

/-- `initialGame` on a page just opened, with as many words as the data set has. -/
def initialGame (vocabularies : Nat) : Game :=
  let g : Game :=
    { timeClock := 600
      vocabularyOrder := vocabularies
      roundCount := 0
      roundChanging := false
      showScorePage := false
      timer := false
      otherTimers := 0
      unfinished := false
      gamePlays := 0
      roundDelays := 0
      rounds := [] }
  g.gamePlay

inductive Event where
  | tick
  | pass
  | gamePlay
  | roundDelay
  | scorePage
  deriving DecidableEq, Repr

/-- One step of the game.  Tiles can be dragged when no round number is shown. -/
inductive Step : Game → Event → Game → Prop where
  | tick {g : Game} (h : g.timer = true ∨ 0 < g.otherTimers) : Step g .tick g.tick
  | pass {g : Game} (hshown : g.roundChanging = false) (h : g.unfinished = true) :
      Step g .pass g.pass
  | gamePlay {g : Game} (h : 0 < g.gamePlays) : Step g .gamePlay g.gamePlayDelayed
  | roundDelay {g : Game} (h : 0 < g.roundDelays) : Step g .roundDelay g.roundDelay
  | scorePage {g : Game} (h : g.showScorePage = true) : Step g .scorePage g.scorePageSelect.1

/-- The game with any number of words. -/
def game : System Game Event where
  init g := ∃ vocabularies, 0 < vocabularies ∧ g = initialGame vocabularies
  step := Step

/-- No round was started with the clock at 0, and the game does not stand there without a
timer, a round unfinished and no score page shown. -/
structure TimesOut (g : Game) : Prop where
  rounds : ∀ clock ∈ g.rounds, clock ≠ 0
  stands : ¬ (g.timeClock = 0 ∧ g.unfinished = true ∧ g.showScorePage = false ∧
    g.timer = false ∧ g.otherTimers = 0)

/-- A word completed with the clock at 0 is the last. -/
def InTime (g : Game) (event : Event) (_ : Game) : Prop :=
  event = .pass → g.timeClock = 0 → g.vocabularyOrder = 0

/-! ## the callbacks to come -/

/-- Of the timer, `gamePlay` and the callback of `nextRoundDelay`, one is to come while the
round or the change of rounds lasts. -/
structure Timed (g : Game) : Prop where
  otherTimers : g.otherTimers = 0
  gamePlays : g.gamePlays ≤ 1
  roundDelays : g.roundDelays ≤ 1
  /-- a word is complete -/
  passed : 0 < g.gamePlays → g.unfinished = false ∧ g.timer = false ∧ g.roundDelays = 0 ∧
    (g.timeClock = 0 → g.vocabularyOrder = 0)
  /-- the round number is shown -/
  changing : g.roundChanging = true ↔ 0 < g.roundDelays
  delayed : 0 < g.roundDelays → g.timeClock ≠ 0 ∧ g.timer = false
  /-- the round goes on -/
  ticking : g.unfinished = true → g.showScorePage = false → g.roundDelays = 0 → g.timer = true
  rounds : ∀ clock ∈ g.rounds, clock ≠ 0

variable {g g' : Game} {event : Event}

/-- A round started by `gamePlay`. -/
theorem gamePlay_round (h : 0 < g.vocabularyOrder) :
    g.gamePlay = { g with
      vocabularyOrder := g.vocabularyOrder - 1
      roundCount := g.roundCount + 1
      roundChanging := true
      timer := false
      unfinished := true
      roundDelays := g.roundDelays + 1
      rounds := g.timeClock :: g.rounds } := by
  have hne : ¬ g.vocabularyOrder ≤ 0 := by omega
  rw [Game.gamePlay, if_neg hne]
  rfl

theorem gamePlay_over (h : g.vocabularyOrder = 0) :
    g.gamePlay = { g with showScorePage := true } := by
  rw [Game.gamePlay, if_pos (by omega)]

theorem roundDelay_eq (hclock : g.timeClock ≠ 0) (htimer : g.timer = false) :
    g.roundDelay = { g with
      roundDelays := g.roundDelays - 1
      roundChanging := false
      timer := true } := by
  have hne : ¬ g.timeClock ≤ 0 := by omega
  simp [Game.roundDelay, Game.timerController, hne, htimer]

theorem timed_initialGame {vocabularies : Nat} (h : 0 < vocabularies) :
    Timed (initialGame vocabularies) := by
  rw [initialGame, gamePlay_round h]
  constructor <;> simp

theorem Timed.tick (h : Timed g) (htick : g.timer = true ∨ 0 < g.otherTimers) :
    Timed g.tick := by
  have htimer : g.timer = true := htick.resolve_right (by simp [h.otherTimers])
  have hgamePlays : ¬ 0 < g.gamePlays := fun hpos => by simp [(h.passed hpos).2.1] at htimer
  have hdelays : ¬ 0 < g.roundDelays := fun hpos => by simp [(h.delayed hpos).2] at htimer
  unfold Game.tick
  split
  · exact ⟨h.otherTimers, h.gamePlays, h.roundDelays, fun hpos => absurd hpos hgamePlays,
      h.changing, fun hpos => absurd hpos hdelays, fun _ _ _ => htimer, h.rounds⟩
  · exact ⟨h.otherTimers, h.gamePlays, h.roundDelays, fun hpos => absurd hpos hgamePlays,
      h.changing, fun hpos => absurd hpos hdelays, fun _ _ _ => htimer, h.rounds⟩

theorem Timed.pass (h : Timed g) (hshown : g.roundChanging = false)
    (hunfinished : g.unfinished = true) (hlast : g.timeClock = 0 → g.vocabularyOrder = 0) :
    Timed g.pass := by
  have hgamePlays : g.gamePlays = 0 := by
    refine Nat.eq_zero_of_not_pos fun hpos => ?_
    simp [(h.passed hpos).1] at hunfinished
  have hdelays : g.roundDelays = 0 := by
    refine Nat.eq_zero_of_not_pos fun hpos => ?_
    simp [h.changing.mpr hpos] at hshown
  constructor <;> simp [Game.pass, Game.invalidate, hgamePlays, hdelays, hshown, h.otherTimers]
  · exact hlast
  · exact h.rounds

theorem Timed.gamePlayDelayed (h : Timed g) (hpos : 0 < g.gamePlays) :
    Timed g.gamePlayDelayed := by
  obtain ⟨hfinished, htimer, hdelays, hlast⟩ := h.passed hpos
  have hgamePlays : g.gamePlays - 1 = 0 := by have := h.gamePlays; omega
  rcases Nat.eq_zero_or_pos g.vocabularyOrder with hover | hleft
  · have heq : g.gamePlayDelayed = { g with gamePlays := g.gamePlays - 1, showScorePage := true } :=
      gamePlay_over hover
    rw [heq]
    constructor <;> simp [hgamePlays, hdelays, hfinished, h.otherTimers]
    · simpa [hdelays] using h.changing
    · exact h.rounds
  · have hclock : g.timeClock ≠ 0 := fun hzero => by have := hlast hzero; omega
    rw [Game.gamePlayDelayed, gamePlay_round (by exact hleft)]
    constructor <;> simp [hgamePlays, hdelays, hclock, h.otherTimers]
    exact h.rounds

theorem Timed.roundDelay (h : Timed g) (hpos : 0 < g.roundDelays) : Timed g.roundDelay := by
  obtain ⟨hclock, htimer⟩ := h.delayed hpos
  have hdelays : g.roundDelays - 1 = 0 := by have := h.roundDelays; omega
  have hgamePlays : g.gamePlays = 0 := by
    refine Nat.eq_zero_of_not_pos fun hpassed => ?_
    have := (h.passed hpassed).2.2.1
    omega
  rw [roundDelay_eq hclock htimer]
  constructor <;> simp [hgamePlays, hdelays, h.otherTimers]
  exact h.rounds

theorem Timed.scorePage (h : Timed g) (hshown : g.showScorePage = true) :
    Timed g.scorePageSelect.1 := by
  refine ⟨h.otherTimers, h.gamePlays, h.roundDelays, fun hpos => ?_, h.changing,
    fun hpos => ⟨(h.delayed hpos).1, rfl⟩, fun _ hhidden => ?_, h.rounds⟩
  · obtain ⟨hfinished, -, hdelays, hlast⟩ := h.passed hpos
    exact ⟨hfinished, rfl, hdelays, hlast⟩
  · rw [Game.scorePageSelect, Game.invalidate, hshown] at hhidden
    cases hhidden

theorem Timed.step (h : Timed g) (hstep : Step g event g') (hin : InTime g event g') :
    Timed g' := by
  cases hstep with
  | tick htick => exact h.tick htick
  | pass hshown hunfinished => exact h.pass hshown hunfinished (hin rfl)
  | gamePlay hpos => exact h.gamePlayDelayed hpos
  | roundDelay hpos => exact h.roundDelay hpos
  | scorePage hshown => exact h.scorePage hshown

theorem timed (h : (game.only InTime).Reach g) : Timed g := by
  refine h.invariant (fun g hg => ?_) fun g event g' _ ih hstep => ih.step hstep.1 hstep.2
  obtain ⟨vocabularies, hpos, rfl⟩ := hg
  exact timed_initialGame hpos

theorem Timed.timesOut (h : Timed g) : TimesOut g := by
  refine ⟨h.rounds, ?_⟩
  rintro ⟨hclock, hunfinished, hhidden, htimer, -⟩
  have hdelays : g.roundDelays = 0 :=
    Nat.eq_zero_of_not_pos fun hpos => (h.delayed hpos).1 hclock
  have := h.ticking hunfinished hhidden hdelays
  simp [htimer] at this

/-- Ticks are in time, so the clock can run down to 0. -/
theorem reach_tick (h : (game.only InTime).Reach g) (htimer : g.timer = true) (n : Nat)
    (hn : n ≤ g.timeClock) :
    (game.only InTime).Reach { g with timeClock := g.timeClock - n } := by
  induction n with
  | zero => exact h
  | succ n ih =>
      have hstep : game.step { g with timeClock := g.timeClock - n } .tick
          (Game.tick { g with timeClock := g.timeClock - n }) := .tick (.inl htimer)
      have hreach := (ih (by omega)).step ⟨hstep, fun heq => by cases heq⟩
      have hpos : ¬ g.timeClock - n ≤ 0 := by omega
      rw [Game.tick, if_neg hpos, Nat.sub_sub] at hreach
      exact hreach

/-- **Time out**: in a game where no word but the last is completed with the clock at 0, no
round starts there, and the game does not stand there without a timer.  In any game, one
that is so completed starts the next round there. -/
theorem time_out_ends_game (g : Game) :
    ((game.only InTime).Reach g → TimesOut g) ∧
      ∀ event g', game.Reach g → game.step g event g' → ¬ InTime g event g' →
        ∃ g'', game.step g' .gamePlay g'' ∧ ¬ TimesOut g'' := by
  refine ⟨fun h => (timed h).timesOut, fun event g' _ hstep hlate => ?_⟩
  simp only [InTime, Classical.not_imp] at hlate
  obtain ⟨rfl, hclock, hleft⟩ := hlate
  cases hstep with
  | pass hshown hunfinished =>
      refine ⟨g.pass.gamePlayDelayed, .gamePlay (Nat.succ_pos _), fun h => ?_⟩
      refine h.rounds 0 ?_ rfl
      have hpos : 0 < g.vocabularyOrder := Nat.pos_of_ne_zero hleft
      rw [Game.gamePlayDelayed, gamePlay_round (by exact hpos)]
      simp [Game.pass, Game.invalidate, hclock]

/-- A first word completed after one tick, and the second and last one with the clock at 0: the
game is timed out neither before that, with the round unfinished, nor when it is over. -/
theorem time_out_ends_game_last :
    ∃ g g', (game.only InTime).Reach g ∧ g.timeClock = 0 ∧ g.unfinished = true ∧
      g.rounds = [599, 600] ∧ TimesOut g ∧
      (game.only InTime).Reach g' ∧ g'.timeClock = 0 ∧ g'.showScorePage = true ∧
      TimesOut g' := by
  let first := (initialGame 2).roundDelay.tick
  let second := first.pass.gamePlayDelayed.roundDelay
  let zero := { second with timeClock := second.timeClock - 599 }
  have hinit : (game.only InTime).Reach (initialGame 2) := .init ⟨2, by decide, rfl⟩
  have hshown : (game.only InTime).Reach (initialGame 2).roundDelay :=
    hinit.step ⟨Step.roundDelay (by decide), fun heq => by cases heq⟩
  have hfirst : (game.only InTime).Reach first :=
    hshown.step ⟨Step.tick (.inl rfl), fun heq => by cases heq⟩
  have hpass : (game.only InTime).Reach first.pass :=
    hfirst.step ⟨Step.pass rfl rfl, fun _ => by decide⟩
  have hchange : (game.only InTime).Reach first.pass.gamePlayDelayed :=
    hpass.step ⟨Step.gamePlay (by decide), fun heq => by cases heq⟩
  have hsecond : (game.only InTime).Reach second :=
    hchange.step ⟨Step.roundDelay (by decide), fun heq => by cases heq⟩
  have hzero : (game.only InTime).Reach zero := reach_tick hsecond rfl 599 (by decide)
  have hlast : (game.only InTime).Reach zero.pass :=
    hzero.step ⟨Step.pass rfl rfl, fun _ _ => rfl⟩
  have hover : (game.only InTime).Reach zero.pass.gamePlayDelayed :=
    hlast.step ⟨Step.gamePlay (by decide), fun heq => by cases heq⟩
  exact ⟨zero, _, hzero, by decide, rfl, rfl, (time_out_ends_game _).1 hzero, hover,
    by decide, by decide, (time_out_ends_game _).1 hover⟩

/-- A first word completed with the clock at 0: the second round starts, and the game
stands. -/
theorem time_out_overrun :
    ∃ g, game.Reach g ∧ g.rounds = [0, 600] ∧ g.timeClock = 0 ∧ g.unfinished = true ∧
      g.showScorePage = false ∧ g.timer = false ∧ g.otherTimers = 0 ∧ g.gamePlays = 0 ∧
      g.roundDelays = 0 := by
  let shown := (initialGame 2).roundDelay
  let zero := { shown with timeClock := shown.timeClock - 600 }
  have hinit : (game.only InTime).Reach (initialGame 2) := .init ⟨2, by decide, rfl⟩
  have hshown : (game.only InTime).Reach shown :=
    hinit.step ⟨Step.roundDelay (by decide), fun heq => by cases heq⟩
  have hzero : game.Reach zero := (reach_tick hshown rfl 600 (by decide)).of_only
  have hpass : game.Reach zero.pass := hzero.step (Step.pass rfl rfl)
  have hlate : game.Reach zero.pass.gamePlayDelayed := hpass.step (Step.gamePlay (by decide))
  exact ⟨zero.pass.gamePlayDelayed.roundDelay, hlate.step (Step.roundDelay (by decide)),
    by decide⟩

end Alphabet

end IosGame
