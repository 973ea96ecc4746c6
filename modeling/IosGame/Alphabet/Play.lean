import IosGame.Alphabet.Clock
import IosGame.Alphabet.Word

/-!
# IosGame.Alphabet.Play

A whole word game: the words of the data set in a shuffled order, a puzzle for each of them,
and the clock over all.

* `reach_clock` — the clock alone runs as in `game`;
* `words_once` — every word is still to come, in play or completed, and just one of these;
* `congratulations_iff` — what the score page says is so;
* `winnable` — while time is left, nothing that happened can keep the player from
  completing all words.
-/

namespace IosGame

namespace Alphabet

/-! ## the callbacks of any game -/

/-- What is to come, in a game with the clock at 0 or not. -/
structure Awaits (g : Game) : Prop where
  otherTimers : g.otherTimers = 0
  gamePlays : g.gamePlays ≤ 1
  roundDelays : g.roundDelays ≤ 1
  /-- a word is complete -/
  passed : 0 < g.gamePlays → g.unfinished = false ∧ g.timer = false ∧ g.roundDelays = 0
  /-- the round number is shown -/
  changing : g.roundChanging = true ↔ 0 < g.roundDelays
  delayed : 0 < g.roundDelays → g.timer = false ∧ g.unfinished = true
  ticking : g.timer = true → g.unfinished = true
  completed : g.unfinished = false → g.showScorePage = true ∨ 0 < g.gamePlays
  ended : g.showScorePage = true →
    g.timeClock = 0 ∨ g.vocabularyOrder = 0 ∧ g.unfinished = false

section Awaits

variable {g g' : Game} {event : Event}

theorem initialGame_eq {vocabularies : Nat} (h : 0 < vocabularies) :
    initialGame vocabularies =
      { timeClock := 600
        vocabularyOrder := vocabularies - 1
        roundCount := 1
        roundChanging := true
        showScorePage := false
        timer := false
        otherTimers := 0
        unfinished := true
        gamePlays := 0
        roundDelays := 1
        rounds := [600] } := gamePlay_round h

theorem awaits_initialGame {vocabularies : Nat} (h : 0 < vocabularies) :
    Awaits (initialGame vocabularies) := by
  rw [initialGame_eq h]
  constructor <;> simp

theorem Awaits.tick (h : Awaits g) (htick : g.timer = true ∨ 0 < g.otherTimers) :
    Awaits g.tick := by
  have htimer : g.timer = true := htick.resolve_right (by simp [h.otherTimers])
  have hunfinished := h.ticking htimer
  unfold Game.tick
  split
  · exact ⟨h.otherTimers, h.gamePlays, h.roundDelays, h.passed, h.changing, h.delayed, h.ticking,
      fun _ => .inl rfl, fun _ => .inl rfl⟩
  · rename_i hclock
    refine ⟨h.otherTimers, h.gamePlays, h.roundDelays, h.passed, h.changing, h.delayed, h.ticking,
      h.completed, fun hover => ?_⟩
    obtain hzero | ⟨-, hfinished⟩ := h.ended hover
    · omega
    · rw [hunfinished] at hfinished
      cases hfinished

theorem Awaits.pass (h : Awaits g) (hshown : g.roundChanging = false)
    (hunfinished : g.unfinished = true) : Awaits g.pass := by
  have hgamePlays : g.gamePlays = 0 := by
    refine Nat.eq_zero_of_not_pos fun hpos => ?_
    simp [(h.passed hpos).1] at hunfinished
  have hdelays : g.roundDelays = 0 := by
    refine Nat.eq_zero_of_not_pos fun hpos => ?_
    simp [h.changing.mpr hpos] at hshown
  refine ⟨h.otherTimers, by simp [Game.pass, hgamePlays], h.roundDelays,
    fun _ => ⟨rfl, rfl, hdelays⟩, h.changing, fun hpos => ?_, fun htimer => (by cases htimer),
    fun _ => .inr (Nat.succ_pos _), fun hover => ?_⟩
  · have hpos : 0 < g.roundDelays := hpos
    omega
  obtain hzero | ⟨-, hfinished⟩ := h.ended hover
  · exact .inl hzero
  · rw [hunfinished] at hfinished
    cases hfinished

theorem Awaits.gamePlayDelayed (h : Awaits g) (hpos : 0 < g.gamePlays) :
    Awaits g.gamePlayDelayed := by
  obtain ⟨hfinished, htimer, hdelays⟩ := h.passed hpos
  have hgamePlays : g.gamePlays - 1 = 0 := by have := h.gamePlays; omega
  rcases Nat.eq_zero_or_pos g.vocabularyOrder with hnone | hleft
  · have heq : g.gamePlayDelayed = { g with gamePlays := g.gamePlays - 1, showScorePage := true } :=
      gamePlay_over hnone
    rw [heq]
    exact ⟨h.otherTimers, by simp [hgamePlays], h.roundDelays, by simp [hgamePlays], h.changing,
      h.delayed, h.ticking, fun _ => .inl rfl, fun _ => .inr ⟨hnone, hfinished⟩⟩
  · rw [Game.gamePlayDelayed, gamePlay_round (by exact hleft)]
    refine ⟨h.otherTimers, by simp [hgamePlays], by simp [hdelays], by simp [hgamePlays],
      by simp, fun _ => ⟨rfl, rfl⟩, fun htimer => (by cases htimer),
      fun hfinished => (by cases hfinished), fun hover => ?_⟩
    obtain hzero | ⟨hnone, -⟩ := h.ended hover
    · exact .inl hzero
    · omega

theorem Awaits.roundDelay (h : Awaits g) (hpos : 0 < g.roundDelays) : Awaits g.roundDelay := by
  obtain ⟨htimer, hunfinished⟩ := h.delayed hpos
  have hdelays : g.roundDelays - 1 = 0 := by have := h.roundDelays; omega
  have hgamePlays : ¬ 0 < g.gamePlays := fun hpassed => by
    have := (h.passed hpassed).2.2
    omega
  by_cases hclock : g.timeClock = 0
  · have heq : g.roundDelay = { g with
        roundDelays := g.roundDelays - 1
        roundChanging := false
        timer := false
        timeClock := 0 } := by
      simp [Game.roundDelay, Game.timerController, Game.invalidate, hclock]
    rw [heq]
    exact ⟨h.otherTimers, h.gamePlays, by simp [hdelays], fun hpassed => absurd hpassed hgamePlays,
      by simp [hdelays], by simp [hdelays], fun htimer => (by cases htimer), h.completed,
      fun _ => .inl rfl⟩
  · rw [roundDelay_eq hclock htimer]
    exact ⟨h.otherTimers, h.gamePlays, by simp [hdelays], fun hpassed => absurd hpassed hgamePlays,
      by simp [hdelays], by simp [hdelays], fun _ => hunfinished, h.completed, h.ended⟩

theorem Awaits.scorePage (h : Awaits g) : Awaits g.scorePageSelect.1 :=
  ⟨h.otherTimers, h.gamePlays, h.roundDelays,
    fun hpos => ⟨(h.passed hpos).1, rfl, (h.passed hpos).2.2⟩, h.changing,
    fun hpos => ⟨rfl, (h.delayed hpos).2⟩, fun htimer => (by cases htimer), h.completed, h.ended⟩

theorem Awaits.step (h : Awaits g) (hstep : Step g event g') : Awaits g' := by
  cases hstep with
  | tick htick => exact h.tick htick
  | pass hshown hunfinished => exact h.pass hshown hunfinished
  | gamePlay hpos => exact h.gamePlayDelayed hpos
  | roundDelay hpos => exact h.roundDelay hpos
  | scorePage hshown => exact h.scorePage

/-- Time passes without a look at the words. -/
theorem tick_words (g : Game) : g.tick.vocabularyOrder = g.vocabularyOrder ∧
    g.tick.roundCount = g.roundCount ∧ g.tick.unfinished = g.unfinished := by
  unfold Game.tick
  split <;> exact ⟨rfl, rfl, rfl⟩

theorem roundDelay_words (g : Game) : g.roundDelay.vocabularyOrder = g.vocabularyOrder ∧
    g.roundDelay.roundCount = g.roundCount ∧ g.roundDelay.unfinished = g.unfinished := by
  simp only [Game.roundDelay, Game.timerController, Game.invalidate, Bool.not_false, if_true]
  split <;> exact ⟨rfl, rfl, rfl⟩

end Awaits

/-! ## the game -/

/-- `vocabularyDataSet`: the German of its entries. -/
def vocabularyDataSet : List (List Char) :=
  ["zebra", "wortschatz", "telefon", "maus", "panzer", "kalender", "fußball", "film", "zug",
    "wagen", "flugzeug"].map String.toList

section Play

variable {α : Type}

/-- The page of the word game: its clock, its words and the puzzle of the word in play. -/
structure Play (α : Type) where
  clock : Game
  /-- the words still to come, the next one last, by their places in the data set -/
  vocabularyOrder : List Nat
  /-- the place of `currentVoca` -/
  currentVoca : Nat
  puzzle : Puzzle α
  savePhotos : Bool
  /-- the words completed, the latest first -/
  completed : List Nat

/-- What happens to the page; the tiles of the next word are shuffled. -/
inductive PlayEvent where
  | tick
  | drag (drag : Drag)
  | gamePlay
  | roundDelay
  | scorePage
  deriving Inhabited

/-! ## puzzles -/

theorem all_of_free {p : Puzzle α} {index : Fin p.ansChars.length}
    (hfree : p.placed index = false) : p.ansCorrect.all id = false := by
  refine List.all_eq_false.mpr ⟨false, ?_, by simp⟩
  exact List.mem_of_getElem? (hfree ▸ placed_eq p index)

theorem exists_free {q : Puzzle α} (h : q.ansCorrect.all id = false) :
    ∃ index, q.placed index = false := by
  obtain ⟨mark, hmem, hmark⟩ := List.all_eq_false.mp h
  obtain ⟨index, hindex⟩ := List.mem_iff_getElem?.mp hmem
  obtain ⟨hlt, hget⟩ := List.getElem?_eq_some_iff.mp hindex
  have hlt' : index < q.ansChars.length := q.length_ansCorrect ▸ hlt
  refine ⟨⟨index, hlt'⟩, ?_⟩
  have hplaced : q.placed ⟨index, hlt'⟩ = mark := hget
  simpa [hplaced] using hmark

/-- A word has a letter, so it is not complete from the start. -/
theorem all_vocabularyInit {voca charSh : List α} (hvoca : voca ≠ []) (hperm : charSh.Perm voca) :
    (vocabularyInit voca charSh hperm).ansCorrect.all id = false := by
  have hpos : voca.length ≠ 0 := by simpa using hvoca
  simp [vocabularyInit, hpos]

theorem ne_nil_of_getElem? {dataSet : List (List α)} {n : Nat} {voca : List α} (hne : [] ∉ dataSet)
    (hvoca : dataSet[n]? = some voca) : voca ≠ [] := by
  rintro rfl
  exact hne (List.mem_of_getElem? hvoca)

namespace Play

/-- `initialRound`, on the word `voca` with its letters shuffled to `charSh`. -/
def nextWord (p : Play α) (clock : Game) (currentVoca : Nat) {voca : List α} (charSh : List α)
    (hperm : charSh.Perm voca) : Play α :=
  { p with
    clock := clock
    vocabularyOrder := p.vocabularyOrder.dropLast
    currentVoca := currentVoca
    puzzle := vocabularyInit voca charSh hperm }

/-- The word in play. -/
def inPlay (p : Play α) : List Nat := if p.clock.unfinished then [p.currentVoca] else []

variable [DecidableEq α]

/-- The end of a drag. -/
def onEnded (p : Play α) (cmpDistance : Nat → Bool) (index : Fin p.puzzle.ansChars.length) :
    Play α :=
  let (puzzle, pass) := p.puzzle.onEnded cmpDistance index
  if pass then
    { p with
      puzzle := puzzle
      clock := p.clock.pass
      completed := p.currentVoca :: p.completed }
  else { p with puzzle := puzzle }

/-- One step of the game.  Tiles can be dragged when neither the round number nor the score
page is shown. -/
inductive Step (dataSet : List (List α)) : Play α → PlayEvent → Play α → Prop where
  | tick {p : Play α} (h : p.clock.timer = true ∨ 0 < p.clock.otherTimers) :
      Step dataSet p .tick { p with clock := p.clock.tick }
  | drag {p : Play α} {drag : Drag} (hshown : p.clock.roundChanging = false)
      (hopen : p.clock.showScorePage = false) (h : drag.index < p.puzzle.ansChars.length) :
      Step dataSet p (.drag drag) (p.onEnded drag.cmpDistance ⟨drag.index, h⟩)
  | gameOver {p : Play α} (h : 0 < p.clock.gamePlays) (hnone : p.vocabularyOrder = []) :
      Step dataSet p .gamePlay { p with clock := p.clock.gamePlayDelayed }
  | gamePlay {p : Play α} {n : Nat} {voca charSh : List α} (h : 0 < p.clock.gamePlays)
      (hlast : p.vocabularyOrder.getLast? = some n) (hvoca : dataSet[n]? = some voca)
      (hperm : charSh.Perm voca) :
      Step dataSet p .gamePlay (p.nextWord p.clock.gamePlayDelayed n charSh hperm)
  | roundDelay {p : Play α} (h : 0 < p.clock.roundDelays) :
      Step dataSet p .roundDelay { p with clock := p.clock.roundDelay }
  | scorePage {p : Play α} (h : p.clock.showScorePage = true) :
      Step dataSet p .scorePage
        { p with
          clock := p.clock.scorePageSelect.1
          savePhotos := p.savePhotos || p.clock.scorePageSelect.2 }

/-- `initialGame`, with the places of the words shuffled to `order`. -/
def Starts (dataSet : List (List α)) (p : Play α) : Prop :=
  ∃ order : List Nat, order.Perm (List.range dataSet.length) ∧
    ∃ n voca charSh, order.getLast? = some n ∧ dataSet[n]? = some voca ∧
      ∃ hperm : List.Perm charSh voca,
        p = { clock := initialGame dataSet.length
              vocabularyOrder := order.dropLast
              currentVoca := n
              puzzle := vocabularyInit voca charSh hperm
              savePhotos := false
              completed := [] }

/-- The games on the words of a data set. -/
def system (dataSet : List (List α)) : System (Play α) PlayEvent where
  init := Starts dataSet
  step := Step dataSet

/-! ## a drag -/

/-- `pass` is found true by the drag that completes the word. -/
theorem onEnded_all (p : Puzzle α) (cmpDistance : Nat → Bool) (index : Fin p.ansChars.length) :
    (p.onEnded cmpDistance index).2 = true ∧ p.ansCorrect.all id = false ∧
        (p.onEnded cmpDistance index).1.ansCorrect.all id = true ∨
      (p.onEnded cmpDistance index).2 = false ∧
        (p.onEnded cmpDistance index).1.ansCorrect.all id = p.ansCorrect.all id := by
  cases hplaced : p.placed index with
  | true => exact .inr (by simp [onEnded_placed hplaced])
  | false =>
      have hnot := all_of_free hplaced
      have hpass : (p.onEnded cmpDistance index).2 =
          (p.onEnded cmpDistance index).1.ansCorrect.all id := by
        obtain ⟨i, -, -, heq⟩ | heq := onEnded_cases hplaced cmpDistance <;> rw [heq]
      cases hall : (p.onEnded cmpDistance index).1.ansCorrect.all id with
      | true => exact .inl ⟨hpass.trans hall, hnot, rfl⟩
      | false => exact .inr ⟨hpass.trans hall, hnot.symm⟩

/-- A drag completes the word in play, or leaves it in play. -/
theorem onEnded_eq (p : Play α) (cmpDistance : Nat → Bool)
    (index : Fin p.puzzle.ansChars.length) :
    p.puzzle.ansCorrect.all id = false ∧
        (p.puzzle.onEnded cmpDistance index).1.ansCorrect.all id = true ∧
        p.onEnded cmpDistance index = { p with
          puzzle := (p.puzzle.onEnded cmpDistance index).1
          clock := p.clock.pass
          completed := p.currentVoca :: p.completed } ∨
      (p.puzzle.onEnded cmpDistance index).1.ansCorrect.all id = p.puzzle.ansCorrect.all id ∧
        p.onEnded cmpDistance index =
          { p with puzzle := (p.puzzle.onEnded cmpDistance index).1 } := by
  obtain ⟨hpass, hnot, hall⟩ | ⟨hpass, hall⟩ := onEnded_all p.puzzle cmpDistance index
  · exact .inl ⟨hnot, hall, by simp only [onEnded, hpass, if_true]⟩
  · exact .inr ⟨hall, by simp [onEnded, hpass]⟩

/-! ## the invariant -/

/-- What holds at every moment of a game. -/
structure Kept (dataSet : List (List α)) (p : Play α) : Prop where
  awaits : Awaits p.clock
  left : p.clock.vocabularyOrder = p.vocabularyOrder.length
  once : (p.vocabularyOrder ++ p.inPlay ++ p.completed).Perm (List.range dataSet.length)
  roundCount : p.clock.roundCount + p.vocabularyOrder.length = dataSet.length
  voca : ∃ voca, dataSet[p.currentVoca]? = some voca ∧ (round voca).Reach p.puzzle
  unfinished : p.clock.unfinished = !p.puzzle.ansCorrect.all id
  saved : p.savePhotos = true →
    p.clock.showScorePage = true ∧ p.vocabularyOrder = [] ∧ p.clock.unfinished = false ∧
      0 < p.clock.timeClock

variable {dataSet : List (List α)} {p p' : Play α} {event : PlayEvent}

theorem kept_starts (hne : [] ∉ dataSet) (h : Starts dataSet p) :
    Kept dataSet p := by
  obtain ⟨order, horder, n, voca, charSh, hlast, hvoca, hperm, rfl⟩ := h
  have hsplit : order.dropLast ++ [n] = order := List.dropLast_append_getLast? n hlast
  have hlen : order.dropLast.length + 1 = dataSet.length := by
    have hlen := congrArg List.length hsplit
    rw [List.length_append, List.length_singleton, horder.length_eq, List.length_range] at hlen
    exact hlen
  have hpos : 0 < dataSet.length := by omega
  have hawaits := awaits_initialGame hpos
  rw [initialGame_eq hpos] at hawaits ⊢
  refine ⟨hawaits, by simp only; omega, ?_, by simp only; omega,
    ⟨voca, hvoca, .init ⟨charSh, hperm, rfl⟩⟩, ?_, fun hsaved => (by cases hsaved)⟩
  · simpa [inPlay, hsplit] using horder
  · rw [all_vocabularyInit (ne_nil_of_getElem? hne hvoca)]
    rfl

/-- The clock takes a step, and the words stay as they are. -/
theorem Kept.clock (h : Kept dataSet p) {g : Game} (hawaits : Awaits g)
    (hleft : g.vocabularyOrder = p.clock.vocabularyOrder)
    (hcount : g.roundCount = p.clock.roundCount)
    (hunfinished : g.unfinished = p.clock.unfinished)
    (hsaved : p.savePhotos = true → g.showScorePage = true ∧ 0 < g.timeClock) :
    Kept dataSet { p with clock := g } := by
  refine ⟨hawaits, hleft.trans h.left, ?_, ?_, h.voca, hunfinished.trans h.unfinished,
    fun hphotos => ?_⟩
  · have honce := h.once
    rw [inPlay, ← hunfinished] at honce
    exact honce
  · simp only [hcount]
    exact h.roundCount
  · obtain ⟨-, hnone, hfinished, -⟩ := h.saved hphotos
    exact ⟨(hsaved hphotos).1, hnone, hunfinished.trans hfinished, (hsaved hphotos).2⟩

/-- A step of the game is one of the clock, or leaves the clock as it is. -/
theorem Kept.clock_step (h : Kept dataSet p) (hstep : Step dataSet p event p') :
    p'.clock = p.clock ∨ ∃ e, game.step p.clock e p'.clock := by
  cases hstep with
  | tick htick => exact .inr ⟨_, .tick htick⟩
  | @drag drag hshown _ hindex =>
      obtain ⟨hnot, -, heq⟩ | ⟨-, heq⟩ := onEnded_eq p drag.cmpDistance ⟨drag.index, hindex⟩
      · have hunfinished : p.clock.unfinished = true := by rw [h.unfinished, hnot]; rfl
        rw [heq]
        exact .inr ⟨_, .pass hshown hunfinished⟩
      · exact .inl (by rw [heq])
  | gameOver hpos _ => exact .inr ⟨_, .gamePlay hpos⟩
  | gamePlay hpos _ _ _ => exact .inr ⟨_, .gamePlay hpos⟩
  | roundDelay hpos => exact .inr ⟨_, .roundDelay hpos⟩
  | scorePage hshown => exact .inr ⟨_, .scorePage hshown⟩

theorem Kept.drag (h : Kept dataSet p) (hopen : p.clock.showScorePage = false)
    (cmpDistance : Nat → Bool) (index : Fin p.puzzle.ansChars.length)
    (hawaits : Awaits (p.onEnded cmpDistance index).clock) :
    Kept dataSet (p.onEnded cmpDistance index) := by
  obtain ⟨voca, hvoca, hreach⟩ := h.voca
  have hround := hreach.step (e := ⟨index, cmpDistance⟩) ⟨index.isLt, rfl⟩
  have hphotos : p.savePhotos = true → False := fun hphotos => by
    have hcovered := (h.saved hphotos).1
    rw [hopen] at hcovered
    cases hcovered
  have honce := h.once
  obtain ⟨hnot, hall, heq⟩ | ⟨hall, heq⟩ := onEnded_eq p cmpDistance index
  · have hunfinished : p.clock.unfinished = true := by rw [h.unfinished, hnot]; rfl
    rw [heq] at hawaits ⊢
    refine ⟨hawaits, h.left, ?_, h.roundCount, ⟨voca, hvoca, hround⟩, ?_,
      fun hp => absurd hp hphotos⟩
    · rw [inPlay, if_pos hunfinished, List.append_assoc] at honce
      simpa [inPlay, Game.pass] using honce
    · rw [hall]
      rfl
  · rw [heq]
    refine ⟨h.awaits, h.left, honce, h.roundCount, ⟨voca, hvoca, hround⟩, ?_,
      fun hp => absurd hp hphotos⟩
    rw [hall]
    exact h.unfinished

theorem Kept.nextWord (hne : [] ∉ dataSet) (h : Kept dataSet p) {n : Nat}
    {voca charSh : List α} (hpos : 0 < p.clock.gamePlays)
    (hlast : p.vocabularyOrder.getLast? = some n) (hvoca : dataSet[n]? = some voca)
    (hperm : charSh.Perm voca) (hawaits : Awaits p.clock.gamePlayDelayed) :
    Kept dataSet (p.nextWord p.clock.gamePlayDelayed n charSh hperm) := by
  have hsplit : p.vocabularyOrder.dropLast ++ [n] = p.vocabularyOrder :=
    List.dropLast_append_getLast? n hlast
  have hlen : p.vocabularyOrder.length = p.vocabularyOrder.dropLast.length + 1 := by
    rw [← hsplit]
    simp
  have hfinished := (h.awaits.passed hpos).1
  have hleft : 0 < p.clock.vocabularyOrder := by have := h.left; omega
  rw [Game.gamePlayDelayed, gamePlay_round (by exact hleft)] at hawaits ⊢
  refine ⟨hawaits, ?_, ?_, ?_, ⟨voca, hvoca, .init ⟨charSh, hperm, rfl⟩⟩, ?_, fun hphotos => ?_⟩
  · have := h.left
    simp only [Play.nextWord]
    omega
  · have honce := h.once
    rw [inPlay, hfinished, if_neg (by simp), List.append_nil, ← hsplit] at honce
    simpa [Play.nextWord, inPlay] using honce
  · have := h.roundCount
    simp only [Play.nextWord]
    omega
  · simp only [Play.nextWord]
    rw [all_vocabularyInit (ne_nil_of_getElem? hne hvoca)]
    rfl
  · have hnone := (h.saved hphotos).2.1
    rw [hnone] at hlast
    cases hlast

theorem Kept.step (hne : [] ∉ dataSet) (h : Kept dataSet p)
    (hstep : Step dataSet p event p') : Kept dataSet p' := by
  have hawaits : Awaits p'.clock := by
    obtain heq | ⟨e, hclock⟩ := h.clock_step hstep
    · exact heq ▸ h.awaits
    · exact h.awaits.step hclock
  cases hstep with
  | tick htick =>
      obtain ⟨hleft, hcount, hunfinished⟩ := tick_words p.clock
      refine h.clock hawaits hleft hcount hunfinished fun hphotos => ?_
      -- the timer of a completed game is down
      have htimer : p.clock.timer = true := htick.resolve_right (by simp [h.awaits.otherTimers])
      have hfinished := (h.saved hphotos).2.2.1
      rw [h.awaits.ticking htimer] at hfinished
      cases hfinished
  | drag hshown hopen hindex => exact h.drag hopen _ _ hawaits
  | gameOver hpos hnone =>
      have hover : p.clock.vocabularyOrder = 0 := by rw [h.left, hnone, List.length_nil]
      rw [Game.gamePlayDelayed, gamePlay_over (by exact hover)] at hawaits ⊢
      exact h.clock hawaits rfl rfl rfl fun hphotos => ⟨rfl, (h.saved hphotos).2.2.2⟩
  | gamePlay hpos hlast hvoca hperm => exact h.nextWord hne hpos hlast hvoca hperm hawaits
  | roundDelay hpos =>
      obtain ⟨hleft, hcount, hunfinished⟩ := roundDelay_words p.clock
      refine h.clock hawaits hleft hcount hunfinished fun hphotos => ?_
      have hfinished := (h.saved hphotos).2.2.1
      rw [(h.awaits.delayed hpos).2] at hfinished
      cases hfinished
  | scorePage hshown =>
      have hscore := h.clock hawaits rfl rfl rfl fun hphotos =>
        ⟨(h.saved hphotos).1, (h.saved hphotos).2.2.2⟩
      refine { hscore with saved := fun hphotos => ?_ }
      obtain hphotos | hphotos := Bool.or_eq_true_iff.mp hphotos
      · exact h.saved hphotos
      · simp only [Game.scorePageSelect, decide_eq_true_eq] at hphotos
        obtain ⟨hnone, hclock⟩ := hphotos
        obtain hzero | ⟨-, hfinished⟩ := h.awaits.ended hshown
        · omega
        · refine ⟨hshown, List.eq_nil_of_length_eq_zero ?_, hfinished, hclock⟩
          rw [← h.left]
          omega

theorem kept_of_reach (hne : [] ∉ dataSet)
    (h : (system dataSet).Reach p) : Kept dataSet p :=
  h.invariant (I := fun p => Kept dataSet p) (fun _ hp => kept_starts hne hp)
    fun _ _ _ _ ih hstep => Kept.step hne ih hstep

/-- The clock of a game with words is that of `game`. -/
theorem reach_clock (hne : [] ∉ dataSet) (h : (system dataSet).Reach p) :
    game.Reach p.clock := by
  refine h.simulate (f := Play.clock) ?_ fun p e p' hp _ hstep =>
    (kept_of_reach hne hp).clock_step hstep
  rintro p ⟨order, horder, n, voca, charSh, hlast, -, -, rfl⟩
  have hpos : 0 < order.length := List.length_pos_of_mem (List.mem_of_getLast? hlast)
  rw [horder.length_eq, List.length_range] at hpos
  exact ⟨_, hpos, rfl⟩

theorem vocabularyDataSet_ne : [] ∉ vocabularyDataSet := by decide

/-- The train is completed, and the airplane in play. -/
theorem exists_second : ∃ p, (system vocabularyDataSet).Reach p ∧ p.completed = [8] ∧
    p.inPlay = [10] ∧ p.clock.showScorePage = false ∧ p.clock.timeClock = 600 := by
  have hzug : vocabularyDataSet[8]? = some ['z', 'u', 'g'] := by decide
  have hflugzeug : vocabularyDataSet[10]? = some "flugzeug".toList := by decide
  let start : Play Char :=
    { clock := initialGame 11, vocabularyOrder := [0, 1, 2, 3, 4, 5, 6, 7, 9, 10],
      currentVoca := 8, puzzle := vocabularyInit ['z', 'u', 'g'] ['g', 'z', 'u'] (by decide),
      savePhotos := false, completed := [] }
  let shown : Play Char := { start with clock := start.clock.roundDelay }
  let first := shown.onEnded (fun _ => true) ⟨0, by decide⟩
  let second := first.onEnded (fun _ => true) ⟨2, by decide⟩
  let whole := second.onEnded (fun _ => true) ⟨1, by decide⟩
  have hstart : (system vocabularyDataSet).Reach start :=
    .init ⟨[0, 1, 2, 3, 4, 5, 6, 7, 9, 10, 8], by decide, 8, _, _, rfl, hzug, _, rfl⟩
  have hshown : (system vocabularyDataSet).Reach shown := hstart.step (.roundDelay (by decide))
  have hfirst : (system vocabularyDataSet).Reach first :=
    hshown.step (e := .drag ⟨0, fun _ => true⟩) (.drag (by decide) (by decide) (by decide))
  have hsecond : (system vocabularyDataSet).Reach second :=
    hfirst.step (e := .drag ⟨2, fun _ => true⟩) (.drag (by decide) (by decide) (by decide))
  have hwhole : (system vocabularyDataSet).Reach whole :=
    hsecond.step (e := .drag ⟨1, fun _ => true⟩)
      (.drag (by decide +kernel) (by decide +kernel) (by decide +kernel))
  have hlast : whole.vocabularyOrder.getLast? = some 10 := by decide +kernel
  have hnext := hwhole.step
    (.gamePlay (by decide +kernel) hlast hflugzeug (List.Perm.refl _))
  exact ⟨_, hnext, by decide +kernel, by decide +kernel, by decide +kernel, by decide +kernel⟩

/-! ## the words and the score page -/

/-- **Every word once**: a word of the data set is still to come, in play or completed, and
just one of these; the round number counts those that are not still to come. -/
theorem words_once (hne : [] ∉ dataSet) (h : (system dataSet).Reach p) :
    (p.vocabularyOrder ++ p.inPlay ++ p.completed).Perm (List.range dataSet.length) ∧
      (p.vocabularyOrder ++ p.inPlay ++ p.completed).Nodup ∧
      p.clock.roundCount = (p.inPlay ++ p.completed).length := by
  have hkept := kept_of_reach hne h
  refine ⟨hkept.once, hkept.once.nodup_iff.mpr List.nodup_range, ?_⟩
  have hlen := hkept.once.length_eq
  have hcount := hkept.roundCount
  simp only [List.length_append, List.length_range] at hlen ⊢
  omega

theorem words_once_german : ∃ p, (system vocabularyDataSet).Reach p ∧ p.completed = [8] ∧
    p.inPlay = [10] ∧
    (p.vocabularyOrder ++ p.inPlay ++ p.completed).Perm (List.range vocabularyDataSet.length) ∧
    (p.vocabularyOrder ++ p.inPlay ++ p.completed).Nodup ∧
    p.clock.roundCount = (p.inPlay ++ p.completed).length := by
  obtain ⟨p, hreach, hcompleted, hinPlay, -⟩ := exists_second
  exact ⟨p, hreach, hcompleted, hinPlay, words_once vocabularyDataSet_ne hreach⟩

/-- All words are completed when none is in play and none still to come. -/
theorem Kept.completed_iff (h : Kept dataSet p) :
    p.completed.Perm (List.range dataSet.length) ↔
      p.vocabularyOrder = [] ∧ p.clock.unfinished = false := by
  have honce := h.once
  constructor
  · intro hall
    have hlen := honce.length_eq
    simp only [List.length_append, ← hall.length_eq] at hlen
    refine ⟨List.eq_nil_of_length_eq_zero (by omega), ?_⟩
    have hnone : p.inPlay.length = 0 := by omega
    by_contra hunfinished
    rw [Bool.not_eq_false] at hunfinished
    rw [inPlay, if_pos hunfinished] at hnone
    cases hnone
  · rintro ⟨hnone, hfinished⟩
    rw [hnone, inPlay, hfinished] at honce
    simpa using honce

/-- **What the score page says**: it congratulates when all words are completed and time is
left, and the photos are given for that alone. -/
theorem congratulations_iff (hne : [] ∉ dataSet)
    (h : (system dataSet).Reach p) :
    (p.clock.showScorePage = true → (p.clock.scorePageSelect.2 = true ↔
      p.completed.Perm (List.range dataSet.length) ∧ 0 < p.clock.timeClock)) ∧
    (p.savePhotos = true →
      p.completed.Perm (List.range dataSet.length) ∧ 0 < p.clock.timeClock) := by
  have hkept := kept_of_reach hne h
  refine ⟨fun hshown => ?_, fun hphotos => ?_⟩
  · rw [hkept.completed_iff]
    simp only [Game.scorePageSelect, decide_eq_true_eq, hkept.left, Nat.le_zero,
      List.length_eq_zero_iff]
    refine and_congr_left fun hclock => ⟨fun hnone => ⟨hnone, ?_⟩, And.left⟩
    obtain hzero | ⟨-, hfinished⟩ := hkept.awaits.ended hshown
    · omega
    · exact hfinished
  · obtain ⟨-, hnone, hfinished, hclock⟩ := hkept.saved hphotos
    exact ⟨hkept.completed_iff.mpr ⟨hnone, hfinished⟩, hclock⟩

/-- A game on one word, completed in time. -/
theorem congratulations_iff_short : ∃ p, (system [['j', 'a']]).Reach p ∧
    p.clock.showScorePage = true ∧ (p.clock.scorePageSelect.2 = true ↔
      p.completed.Perm (List.range [['j', 'a']].length) ∧ 0 < p.clock.timeClock) := by
  let start : Play Char :=
    { clock := initialGame 1, vocabularyOrder := [], currentVoca := 0,
      puzzle := vocabularyInit ['j', 'a'] ['a', 'j'] (by decide), savePhotos := false,
      completed := [] }
  let shown : Play Char := { start with clock := start.clock.roundDelay }
  let half := shown.onEnded (fun _ => true) ⟨0, by decide⟩
  let whole := half.onEnded (fun _ => true) ⟨1, by decide⟩
  have hstart : (system [['j', 'a']]).Reach start :=
    .init ⟨[0], List.Perm.refl _, 0, _, _, rfl, rfl, _, rfl⟩
  have hshown : (system [['j', 'a']]).Reach shown := hstart.step (.roundDelay (by decide))
  have hhalf : (system [['j', 'a']]).Reach half :=
    hshown.step (e := .drag ⟨0, fun _ => true⟩) (.drag (by decide) (by decide) (by decide))
  have hwhole : (system [['j', 'a']]).Reach whole :=
    hhalf.step (e := .drag ⟨1, fun _ => true⟩) (.drag (by decide) (by decide) (by decide))
  have hover : (system [['j', 'a']]).Reach { whole with clock := whole.clock.gamePlayDelayed } :=
    hwhole.step (.gameOver (by decide) rfl)
  exact ⟨_, hover, by decide, (congratulations_iff (by decide) hover).1 (by decide)⟩

/-! ## winning -/

/-- A tile dropped on a free slot of its letter, and near no other, is placed there. -/
theorem onEnded_near {q : Puzzle α} {index : Fin q.ansChars.length} {i : Fin q.quesChars.length}
    (hfree : q.placed index = false) (hletter : q.quesChars.get i = q.ansChars.get index)
    (hslot : q.filled i = false) :
    (q.onEnded (fun j => decide (j = i.val)) index).1 = q.place index i := by
  have hfor : q.slotFor (fun j => decide (j = i.val)) index = some i := by
    cases hfind : q.slotFor (fun j => decide (j = i.val)) index with
    | none =>
        have hnone := List.find?_eq_none.mp hfind i (List.mem_finRange i)
        simp only [hletter, hslot, decide_true, Bool.not_false, Bool.and_self, not_true] at hnone
    | some j =>
        have hj := List.find?_some hfind
        simp only [Bool.and_eq_true, decide_eq_true_eq] at hj
        rw [Fin.ext hj.2]
  simp [Puzzle.onEnded, hfree, hfor]

/-- The word in play can be completed. -/
theorem leads_complete (hne : [] ∉ dataSet) (h : (system dataSet).Reach p)
    (hshown : p.clock.roundChanging = false) (hopen : p.clock.showScorePage = false)
    (hunfinished : p.clock.unfinished = true) :
    ∃ p', (system dataSet).Leads p p' ∧ p'.clock.unfinished = false ∧
      p'.clock.showScorePage = false ∧ p'.clock.timeClock = p.clock.timeClock ∧
      p'.vocabularyOrder = p.vocabularyOrder := by
  generalize hn : (unmarked p.puzzle.ansChars p.puzzle.ansCorrect).length = n
  induction n using Nat.strong_induction_on generalizing p with
  | _ n ih =>
      have hkept := kept_of_reach hne h
      obtain ⟨voca, -, hround⟩ := hkept.voca
      have hnot : p.puzzle.ansCorrect.all id = false := by
        have := hkept.unfinished
        rw [hunfinished] at this
        simpa using this.symm
      obtain ⟨index, hfree⟩ := exists_free hnot
      obtain ⟨i, hletter, hslot⟩ := (matched hround).exists_slot hfree
      have hplace := onEnded_near hfree hletter hslot
      have hstep : (system dataSet).step p
          (.drag ⟨index, fun j => decide (j = i.val)⟩)
          (p.onEnded (fun j => decide (j = i.val)) index) := .drag hshown hopen index.isLt
      obtain ⟨-, -, heq⟩ | ⟨-, heq⟩ := onEnded_eq p (fun j => decide (j = i.val)) index
      · rw [heq] at hstep
        exact ⟨_, System.Leads.refl.step hstep, rfl, hopen, rfl, rfl⟩
      · rw [heq, hplace] at hstep
        have hletter : p.puzzle.ansChars[index.val]? = some (p.puzzle.ansChars.get index) := by
          simp
        have hlen := (perm_unmarked_set hletter (by rw [placed_eq, hfree])).length_eq
        rw [List.length_cons] at hlen
        obtain ⟨p', hleads, hfinished, hopen', hclock, horder⟩ :=
          ih _ (by simp only [Puzzle.place]; omega) (h.step hstep) hshown hopen hunfinished rfl
        exact ⟨p', (System.Leads.refl.step hstep).trans hleads, hfinished, hopen', hclock, horder⟩

/-- When a word is complete, the next one comes up, or the score page. -/
theorem leads_next (hne : [] ∉ dataSet) (h : (system dataSet).Reach p)
    (hopen : p.clock.showScorePage = false) (hfinished : p.clock.unfinished = false) :
    (∃ p', (system dataSet).Leads p p' ∧ p'.clock.showScorePage = true ∧
        p'.clock.timeClock = p.clock.timeClock ∧
        p'.completed.Perm (List.range dataSet.length)) ∨
      ∃ p', (system dataSet).Leads p p' ∧ p'.clock.unfinished = true ∧
        p'.clock.showScorePage = false ∧ p'.clock.timeClock = p.clock.timeClock ∧
        p'.vocabularyOrder.length < p.vocabularyOrder.length := by
  have hkept := kept_of_reach hne h
  have hpos : 0 < p.clock.gamePlays :=
    (hkept.awaits.completed hfinished).resolve_left (by simp [hopen])
  cases hlast : p.vocabularyOrder.getLast? with
  | none =>
      have hnone : p.vocabularyOrder = [] := List.getLast?_eq_none_iff.mp hlast
      have hover : p.clock.vocabularyOrder = 0 := by rw [hkept.left, hnone, List.length_nil]
      have hstep : (system dataSet).step p .gamePlay
          { p with clock := p.clock.gamePlayDelayed } := .gameOver hpos hnone
      rw [Game.gamePlayDelayed, gamePlay_over (by exact hover)] at hstep
      exact .inl ⟨_, System.Leads.refl.step hstep, rfl, rfl,
        hkept.completed_iff.mpr ⟨hnone, hfinished⟩⟩
  | some n =>
      have hsplit : p.vocabularyOrder.dropLast ++ [n] = p.vocabularyOrder :=
        List.dropLast_append_getLast? n hlast
      have hlen : p.vocabularyOrder.length = p.vocabularyOrder.dropLast.length + 1 := by
        rw [← hsplit]
        simp
      have hplace : n < dataSet.length := by
        have hmem : n ∈ p.vocabularyOrder := List.mem_of_getLast? hlast
        have hrange := hkept.once.subset (List.mem_append_left _ (List.mem_append_left _ hmem))
        simpa using hrange
      have hstep : (system dataSet).step p .gamePlay _ :=
        .gamePlay hpos hlast (List.getElem?_eq_getElem hplace) (List.Perm.refl _)
      have hleft : 0 < p.clock.vocabularyOrder := by have := hkept.left; omega
      rw [Game.gamePlayDelayed, gamePlay_round (by exact hleft)] at hstep
      exact .inr ⟨_, System.Leads.refl.step hstep, rfl, hopen, rfl, by simp only [nextWord]; omega⟩

/-- The round number goes away, and the clock runs. -/
theorem leads_shown (hne : [] ∉ dataSet) (h : (system dataSet).Reach p)
    (hopen : p.clock.showScorePage = false) (hunfinished : p.clock.unfinished = true)
    (hclock : 0 < p.clock.timeClock) :
    ∃ p', (system dataSet).Leads p p' ∧ p'.clock.roundChanging = false ∧
      p'.clock.showScorePage = false ∧ p'.clock.unfinished = true ∧
      p'.clock.timeClock = p.clock.timeClock ∧ p'.vocabularyOrder = p.vocabularyOrder := by
  have hkept := kept_of_reach hne h
  by_cases hpos : 0 < p.clock.roundDelays
  · have hstep : (system dataSet).step p .roundDelay
        { p with clock := p.clock.roundDelay } := .roundDelay hpos
    rw [roundDelay_eq hclock.ne' (hkept.awaits.delayed hpos).1] at hstep
    exact ⟨_, System.Leads.refl.step hstep, rfl, hopen, hunfinished, rfl, rfl⟩
  · refine ⟨p, .refl, ?_, hopen, hunfinished, rfl, rfl⟩
    rw [← Bool.not_eq_true, hkept.awaits.changing]
    exact hpos

/-- **The game can be won** while time is left: whatever was dragged where, all words can
still be completed before the clock ticks again. -/
theorem winnable (hne : [] ∉ dataSet) (h : (system dataSet).Reach p)
    (hopen : p.clock.showScorePage = false) (hclock : 0 < p.clock.timeClock) :
    ∃ p', (system dataSet).Leads p p' ∧ p'.clock.showScorePage = true ∧
      p'.clock.timeClock = p.clock.timeClock ∧
      p'.completed.Perm (List.range dataSet.length) := by
  generalize hn : p.vocabularyOrder.length = n
  induction n using Nat.strong_induction_on generalizing p with
  | _ n ih =>
      -- the word in play, if there is one, is completed first
      obtain ⟨p₁, hleads₁, hfinished, hopen₁, hclock₁, horder₁⟩ :
          ∃ p₁, (system dataSet).Leads p p₁ ∧ p₁.clock.unfinished = false ∧
            p₁.clock.showScorePage = false ∧ p₁.clock.timeClock = p.clock.timeClock ∧
            p₁.vocabularyOrder = p.vocabularyOrder := by
        by_cases hunfinished : p.clock.unfinished = true
        · obtain ⟨q, hleads, hshown, hopen', hunfinished', hclock', horder⟩ :=
            leads_shown hne h hopen hunfinished hclock
          obtain ⟨p₁, hleads₁, hfinished, hopen₁, hclock₁, horder₁⟩ :=
            leads_complete hne (hleads.reach h) hshown hopen' hunfinished'
          exact ⟨p₁, hleads.trans hleads₁, hfinished, hopen₁, hclock₁.trans hclock',
            horder₁.trans horder⟩
        · exact ⟨p, .refl, Bool.eq_false_iff.mpr hunfinished, hopen, rfl, rfl⟩
      have h₁ := hleads₁.reach h
      obtain ⟨p', hleads, hshown, hclock', hall⟩ | ⟨p₂, hleads₂, -, hopen₂, hclock₂, hless⟩ :=
        leads_next hne h₁ hopen₁ hfinished
      · exact ⟨p', hleads₁.trans hleads, hshown, hclock'.trans hclock₁, hall⟩
      · rw [horder₁] at hless
        have hsame : p₂.clock.timeClock = p.clock.timeClock := hclock₂.trans hclock₁
        obtain ⟨p', hleads, hshown, hclock', hall⟩ :=
          ih _ (hn ▸ hless) (hleads₂.reach h₁) hopen₂ (hsame ▸ hclock) rfl
        exact ⟨p', (hleads₁.trans hleads₂).trans hleads, hshown, hclock'.trans hsame, hall⟩

theorem winnable_german : ∃ p p', (system vocabularyDataSet).Reach p ∧ p.completed = [8] ∧
    (system vocabularyDataSet).Leads p p' ∧ p'.clock.showScorePage = true ∧
    p'.clock.timeClock = 600 ∧ p'.completed.Perm (List.range vocabularyDataSet.length) := by
  obtain ⟨p, hreach, hcompleted, -, hopen, hclock⟩ := exists_second
  obtain ⟨p', hleads, hshown, hclock', hall⟩ :=
    winnable vocabularyDataSet_ne hreach hopen (by rw [hclock]; decide)
  exact ⟨p, p', hreach, hcompleted, hleads, hshown, hclock'.trans hclock, hall⟩

end Play

end Play

end Alphabet

end IosGame
