import IosGame.Poker.Seats
import IosGame.Poker.Game
import IosGame.System

/-!
# IosGame.Poker.Run

Whole games of `GamePage`: `initialGame` and its `gamePlay`, then the human's taps,
each with the `gamePlay` it calls, one turn at a time.  The settlement ends a game.

That these steps are what the function `gamePlay` does is `gamePlay_leads`; so every
page that a sequence of taps leads to is one of a run (`Page.reach_taps`).
-/

namespace IosGame

/-- A page, and whether its `gamePlay` is running. -/
structure Run where
  page : GamePage
  playing : Bool

namespace Run

/-- One step of a game: a tap of the human, named by the action, or a turn or a
branch of the running `gamePlay`. -/
inductive Step : Run → Option Action → Run → Prop where
  | select {st : GamePage} (index : Nat) (hlive : Event.settled ∉ st.history) :
      Step ⟨st, false⟩ (some (.select index)) ⟨select st index, false⟩
  | deselect {st : GamePage} (index : Nat) (hlive : Event.settled ∉ st.history) :
      Step ⟨st, false⟩ (some (.deselect index)) ⟨deselect st index, false⟩
  | pass {st : GamePage} (hlive : Event.settled ∉ st.history) :
      Step ⟨st, false⟩ (some .pass) ⟨enterPlay (passPlay st), true⟩
  | confirm {st st' : GamePage} (hlive : Event.settled ∉ st.history)
      (hconfirm : confirmPlay st = .ok (some st')) :
      Step ⟨st, false⟩ (some .confirm) ⟨enterPlay st', true⟩
  | reject {st : GamePage} (hlive : Event.settled ∉ st.history)
      (hconfirm : confirmPlay st = .ok none) :
      Step ⟨st, false⟩ (some .confirm) ⟨rejectConfirm st, false⟩
  | turn {st st' : GamePage} (hplay : 0 < st.currentPlay) (hturn : computerTurn st = .ok st') :
      Step ⟨st, true⟩ none ⟨st', true⟩
  | again {st : GamePage} (hplay : st.currentPlay = 0) (hout : st.winnedPlayer 0 = true)
      (hsome : othersWinned st (some 0) = false) :
      Step ⟨st, true⟩ none ⟨enterPlay (skipUser st), true⟩
  | settle {st st' : GamePage} (hplay : st.currentPlay = 0) (hall : othersWinned st none = true)
      (hsettle : settle st = .ok st') : Step ⟨st, true⟩ none ⟨st', false⟩
  | rest {st : GamePage} (hplay : st.currentPlay = 0) (hin : st.winnedPlayer 0 = false) :
      Step ⟨st, true⟩ none ⟨st, false⟩

/-- The games that `initialGame` starts on `deck` in the page `st₀`. -/
def system (st₀ : GamePage) (deck : List Poker) : System Run (Option Action) where
  init r := ∃ st, initialGame st₀ deck = .ok st ∧ r = ⟨enterPlay st, true⟩
  step := Step

end Run

/-! ## the flags of the winners -/

theorem othersSet_eq_true {flags : Seat → Bool} {p : Seat} :
    othersSet flags p = true ↔ ∀ q, q ≠ p → flags q = true := by
  simp only [othersSet, Bool.and_eq_true]
  constructor
  · rintro ⟨⟨h1, h2⟩, h3⟩ q hq
    rcases eq_after hq with rfl | rfl | rfl <;> assumption
  · intro h
    obtain ⟨ne1, ne2, ne3⟩ := after_ne p
    exact ⟨⟨h _ ne1, h _ ne2⟩, h _ ne3⟩

theorem othersSet_eq_false {flags : Seat → Bool} {p : Seat} :
    othersSet flags p = false ↔ ∃ q, q ≠ p ∧ flags q = false := by
  rw [← Bool.not_eq_true, othersSet_eq_true]
  push Not
  simp

theorem othersWinned_none {st : GamePage} :
    othersWinned st none = true ↔ ∀ p, st.winnedPlayer p = true := by
  simp only [othersWinned, Bool.and_eq_true]
  constructor
  · rintro ⟨⟨⟨h0, h1⟩, h2⟩, h3⟩ p
    match p with
    | 0 | 1 | 2 | 3 => assumption
  · intro h
    exact ⟨⟨⟨h 0, h 1⟩, h 2⟩, h 3⟩

/-- The three ends of `gamePlay` after its loop. -/
theorem gamePlay_branches {fuel : Nat} {st s : GamePage}
    (hloop : loop .outOfFuel computerLoopBody (fuel + 1) (enterPlay st) = .ok s) :
    s.winnedPlayer 0 = false ∧ gamePlay (fuel + 1) st = .ok s ∨
      (s.winnedPlayer 0 = true ∧ othersWinned s (some 0) = false) ∧
        gamePlay (fuel + 1) st = gamePlay fuel (skipUser s) ∨
      othersWinned s none = true ∧ gamePlay (fuel + 1) st = settle s := by
  rw [gamePlay, hloop, ok_bind]
  cases h0 : s.winnedPlayer 0 with
  | false =>
      have hnone : othersWinned s none = false :=
        Bool.eq_false_iff.mpr fun hall => by simp [othersWinned_none.mp hall] at h0
      simp [hnone]
  | true =>
      cases hothers : othersWinned s (some 0) with
      | false => simp
      | true =>
          have hall : othersWinned s none = true := othersWinned_none.mpr fun p => by
            by_cases hp : p = 0
            · exact hp ▸ h0
            · exact othersSet_eq_true.mp hothers p hp
          simp [hall]

/-! ## what a turn does -/

/-- A computer with `c` on the desk and `last` in the hand. -/
def computerPlay (st : GamePage) (c : PokerClass) (last : List Poker) : GamePage :=
  let st' := setHand (putDown { st with currentAct := callAct st } (callAct st) c) last
  nextPlayer (if last.isEmpty then finish st' else st')

/-- The human with `c` on the desk. -/
def userPlay (st : GamePage) (c : PokerClass) : GamePage :=
  let st' := { putDown { st with currentAct := callAct st } (callAct st) c with
    userDeskCards := c.cards
    userPreDeskCards := removePlayed st.userPreDeskCards c.cards }
  nextPlayer
    (if st'.userPlayerCards.isEmpty && st'.userPreDeskCards.isEmpty then finish st' else st')

/-- A computer's turn, its cards on the desk cleared, skips a player who is out, or
asks `ComputerPoker` and passes or puts a combination down. -/
theorem computerTurn_cases {st st' : GamePage} (h : computerTurn st = .ok st') :
    let s := clearDesk st
    s.winnedPlayer s.currentPlay = true ∧ st' = nextPlayer s ∨
      s.winnedPlayer s.currentPlay = false ∧ ∃ c last,
        computerPoker (s.players s.currentPlay).cards s.desk.desk (callAct s) = .ok (c, last) ∧
          (c.isEmpty = true ∧ st' = nextPlayer (passTurn { s with currentAct := callAct s }) ∨
            c.isEmpty = false ∧ st' = computerPlay s c last) := by
  intro s
  simp only [computerTurn] at h
  split at h
  · rename_i hout
    exact .inl ⟨hout, by simpa [eq_comm] using h⟩
  · rename_i hin
    simp only [bind_eq_ok, mapError_eq_ok] at h
    obtain ⟨⟨c, last⟩, hcomputer, h⟩ := h
    refine .inr ⟨Bool.eq_false_iff.mpr hin, c, last, hcomputer, ?_⟩
    simp only at h
    split at h
    · rename_i hempty
      exact .inl ⟨hempty, by simpa [eq_comm] using h⟩
    · rename_i hempty
      simp only [pure_eq_ok, Except.ok.injEq] at h
      exact .inr ⟨Bool.eq_false_iff.mpr hempty, h.symm⟩

/-- A confirm of a selection asks `ComputerPoker`, and rejects it or puts a
combination down. -/
theorem confirmPlay_cases {st : GamePage} {o : Option GamePage} (h : confirmPlay st = .ok o) :
    st.userPreDeskCards = [] ∧ o = none ∨
      st.userPreDeskCards ≠ [] ∧ ∃ c last,
        computerPoker st.userPreDeskCards st.desk.desk (callAct st) = .ok (c, last) ∧
          (c.isEmpty = true ∧ o = none ∨ c.isEmpty = false ∧ o = some (userPlay st c)) := by
  unfold confirmPlay at h
  split at h
  · rename_i hpos
    simp only [bind_eq_ok, mapError_eq_ok] at h
    obtain ⟨⟨c, last⟩, hcomputer, h⟩ := h
    refine .inr ⟨List.ne_nil_of_length_pos hpos, c, last, hcomputer, ?_⟩
    simp only at h
    split at h
    · rename_i hempty
      exact .inl ⟨hempty, by simpa [eq_comm] using h⟩
    · rename_i hempty
      simp only [pure_eq_ok, Except.ok.injEq] at h
      exact .inr ⟨Bool.eq_false_iff.mpr hempty, h.symm⟩
  · rename_i hpos
    refine .inl ⟨by simpa using hpos, by simpa [eq_comm] using h⟩

/-- A confirm that is not rejected puts down what `ComputerPoker` returns. -/
theorem confirmPlay_some {st st' : GamePage} (h : confirmPlay st = .ok (some st')) :
    ∃ c last, computerPoker st.userPreDeskCards st.desk.desk (callAct st) = .ok (c, last) ∧
      c.isEmpty = false ∧ st' = userPlay st c := by
  obtain ⟨-, h⟩ | ⟨-, c, last, hcomputer, ⟨-, h⟩ | ⟨hfull, h⟩⟩ := confirmPlay_cases h
  · cases h
  · cases h
  · exact ⟨c, last, hcomputer, hfull, Option.some.inj h⟩

/-! ## the control of a game -/

/-- Only the settlement settles. -/
theorem settled_computerTurn {st st' : GamePage} (h : computerTurn st = .ok st') :
    Event.settled ∈ st'.history ↔ Event.settled ∈ st.history := by
  rcases computerTurn_cases h with ⟨-, rfl⟩ | ⟨-, c, last, -, ⟨-, rfl⟩ | ⟨-, rfl⟩⟩
  · exact Iff.rfl
  · simp [nextPlayer, passTurn, clearDesk]
  · unfold computerPlay
    split <;> simp [nextPlayer, finish, setHand, putDown, clearDesk]

theorem settled_confirmPlay {st st' : GamePage} (h : confirmPlay st = .ok (some st')) :
    Event.settled ∈ st'.history ↔ Event.settled ∈ st.history := by
  obtain ⟨c, last, -, -, rfl⟩ := confirmPlay_some h
  simp only [userPlay]
  split <;> simp [nextPlayer, finish, putDown]

namespace Run

/-- While `gamePlay` runs, the game is not settled; when it is back, it is the
human's turn, and he is in the game unless it is settled. -/
structure Control (r : Run) : Prop where
  running : r.playing = true → Event.settled ∉ r.page.history
  back : r.playing = false → r.page.currentPlay = 0 ∧
    (Event.settled ∉ r.page.history → r.page.winnedPlayer 0 = false)

theorem Control.step {r r' : Run} {a : Option Action} (h : r.Control) (hstep : Step r a r') :
    r'.Control := by
  cases hstep with
  | select index hlive =>
      refine ⟨by simp, fun _ => ?_⟩
      have := h.back rfl
      unfold select
      split <;> (try split) <;> exact this
  | deselect index hlive =>
      refine ⟨by simp, fun _ => ?_⟩
      have := h.back rfl
      unfold deselect
      split <;> (try split) <;> exact this
  | pass hlive =>
      exact ⟨fun _ => by simpa [enterPlay, passPlay, nextPlayer, passTurn] using hlive, by simp⟩
  | confirm hlive hconfirm =>
      exact ⟨fun _ => by simpa [enterPlay, settled_confirmPlay hconfirm] using hlive, by simp⟩
  | reject hlive hconfirm => exact ⟨by simp, fun _ => h.back rfl⟩
  | turn hplay hturn =>
      exact ⟨fun _ => by rw [settled_computerTurn hturn]; exact h.running rfl, by simp⟩
  | again hplay hout hsome => exact ⟨fun _ => h.running rfl, by simp⟩
  | settle hplay hall hsettle =>
      simp only [settle, bind_eq_ok, pure_eq_ok, Except.ok.injEq] at hsettle
      obtain ⟨won, -, rfl⟩ := hsettle
      exact ⟨by simp, fun _ => ⟨hplay, fun hlive => absurd List.mem_cons_self hlive⟩⟩
  | rest hplay hin => exact ⟨by simp, fun _ => ⟨hplay, fun _ => hin⟩⟩

variable {st₀ : GamePage} {deck : List Poker} {r r' : Run}

theorem control_of_reach (h : (system st₀ deck).Reach r) : r.Control := by
  refine h.invariant (fun r hr => ?_) fun r a r' _ ih hstep => ih.step hstep
  obtain ⟨st, hst, rfl⟩ := hr
  simp only [initialGame, bind_eq_ok, pure_eq_ok, Except.ok.injEq] at hst
  obtain ⟨x, -, rfl⟩ := hst
  exact ⟨fun _ => List.not_mem_nil, by simp⟩

/-! ## the steps are those of `gamePlay` -/

/-- The loop of `gamePlay` takes turns until it is the human's. -/
theorem loop_leads (st₀ : GamePage) (deck : List Poker) {fuel : Nat} {st st' : GamePage}
    (h : loop .outOfFuel computerLoopBody fuel st = .ok st') :
    (system st₀ deck).Leads ⟨st, true⟩ ⟨st', true⟩ ∧ st'.currentPlay = 0 := by
  refine loop_invariant
    (I := fun s => (system st₀ deck).Leads ⟨st, true⟩ ⟨s, true⟩)
    (P := fun s => (system st₀ deck).Leads ⟨st, true⟩ ⟨s, true⟩ ∧ s.currentPlay = 0)
    (fun s s' hs hb => ?_) (fun s s' hs hb => ?_) .refl h
  · unfold computerLoopBody at hb
    split at hb
    · rename_i hplay
      obtain ⟨s'', hturn, hb⟩ := bind_eq_ok.mp hb
      obtain rfl : s'' = s' := by simpa using hb
      exact hs.step (.turn hplay hturn)
    · simp at hb
  · unfold computerLoopBody at hb
    split at hb
    · obtain ⟨s'', -, hb⟩ := bind_eq_ok.mp hb
      simp at hb
    · rename_i hplay
      obtain rfl : s = s' := by simpa using hb
      exact ⟨hs, not_not.mp fun hne => hplay (Fin.pos_iff_ne_zero.mpr hne)⟩

/-- **`gamePlay` takes the steps of the game**, and hands the turn back. -/
theorem gamePlay_leads (st₀ : GamePage) (deck : List Poker) {fuel : Nat} {st st' : GamePage}
    (h : gamePlay fuel st = .ok st') :
    (system st₀ deck).Leads ⟨enterPlay st, true⟩ ⟨st', false⟩ := by
  induction fuel generalizing st with
  | zero => simp [gamePlay] at h
  | succ fuel ih =>
      have hloop : ∃ s, loop .outOfFuel computerLoopBody (fuel + 1) (enterPlay st) = .ok s := by
        rw [gamePlay] at h
        obtain ⟨s, hloop, -⟩ := bind_eq_ok.mp h
        exact ⟨s, hloop⟩
      obtain ⟨s, hloop⟩ := hloop
      obtain ⟨hleads, hplay⟩ := loop_leads st₀ deck hloop
      rcases gamePlay_branches hloop with ⟨hin, heq⟩ | ⟨⟨hout, hsome⟩, heq⟩ | ⟨hall, heq⟩
      · rw [heq, Except.ok.injEq] at h
        exact h ▸ hleads.step (.rest hplay hin)
      · exact (hleads.step (.again hplay hout hsome)).trans (ih (heq ▸ h))
      · exact hleads.step (.settle hplay hall (heq ▸ h))

end Run

/-! ## the pages between the taps -/

namespace Page

/-- `initialGame()` and `gamePlay()`, as `onAppear`, Next Game and Reset Game do. -/
def newGame (fuel : Nat) (st₀ : GamePage) (deck : List Poker) : Except Halt GamePage := do
  gamePlay fuel (← (initialGame st₀ deck).mapError fun _ => .outOfRange)

/-- The human's taps one after the other, until the game is settled. -/
def taps (fuel : Nat) (st : GamePage) : List Action → Except Halt GamePage
  | [] => pure st
  | a :: actions =>
      if Event.settled ∈ st.history then pure st else do taps fuel (← act fuel st a) actions

/-- What a new game leads to. -/
theorem reach_newGame {fuel : Nat} {st₀ st : GamePage} {deck : List Poker}
    (h : newGame fuel st₀ deck = .ok st) : (Run.system st₀ deck).Reach ⟨st, false⟩ := by
  simp only [newGame, bind_eq_ok, mapError_eq_ok] at h
  obtain ⟨st₁, hst, hplay⟩ := h
  exact (Run.gamePlay_leads st₀ deck hplay).reach (.init ⟨st₁, hst, rfl⟩)

/-- What one tap leads to. -/
theorem reach_act {fuel : Nat} {st₀ st st' : GamePage} {deck : List Poker} {a : Action}
    (h : (Run.system st₀ deck).Reach ⟨st, false⟩) (hlive : Event.settled ∉ st.history)
    (hact : act fuel st a = .ok st') : (Run.system st₀ deck).Reach ⟨st', false⟩ := by
  cases a with
  | select index =>
      obtain rfl : select st index = st' := by simpa [act] using hact
      exact h.step (.select index hlive)
  | deselect index =>
      obtain rfl : deselect st index = st' := by simpa [act] using hact
      exact h.step (.deselect index hlive)
  | pass => exact (Run.gamePlay_leads st₀ deck hact).reach (h.step (.pass hlive))
  | confirm =>
      obtain ⟨o, hconfirm, hact⟩ := bind_eq_ok.mp hact
      cases o with
      | none =>
          obtain rfl : rejectConfirm st = st' := by simpa using hact
          exact h.step (.reject hlive hconfirm)
      | some st₁ =>
          exact (Run.gamePlay_leads st₀ deck hact).reach (h.step (.confirm hlive hconfirm))

/-- **What holds of the runs holds of the pages** that any sequence of taps leads to. -/
theorem reach_taps {fuel : Nat} {st₀ st st' : GamePage} {deck : List Poker}
    {actions : List Action} (h : (Run.system st₀ deck).Reach ⟨st, false⟩)
    (htaps : taps fuel st actions = .ok st') : (Run.system st₀ deck).Reach ⟨st', false⟩ := by
  induction actions generalizing st with
  | nil =>
      obtain rfl : st = st' := by simpa [taps] using htaps
      exact h
  | cons a actions ih =>
      unfold taps at htaps
      split at htaps
      · obtain rfl : st = st' := by simpa using htaps
        exact h
      · rename_i hlive
        obtain ⟨st₁, hact, htaps⟩ := bind_eq_ok.mp htaps
        exact ih (reach_act h hlive hact) htaps

/-- A game played so far, with a test of its page. -/
theorem reach_play (fuel : Nat) (st₀ : GamePage) (deck : List Poker) (actions : List Action)
    (P : GamePage → Prop) [DecidablePred P]
    (h : (do
      let st ← newGame fuel st₀ deck
      let st' ← taps fuel st actions
      pure (decide (P st'))) = Except.ok (ε := Halt) true) :
    ∃ st, (Run.system st₀ deck).Reach ⟨st, false⟩ ∧ P st := by
  simp only [bind_eq_ok, pure_eq_ok, Except.ok.injEq, decide_eq_true_eq] at h
  obtain ⟨st, hst, st', hst', hpage⟩ := h
  exact ⟨st', reach_taps (reach_newGame hst) hst', hpage⟩

end Page

end IosGame
