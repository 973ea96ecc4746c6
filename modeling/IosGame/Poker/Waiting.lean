import IosGame.Poker.Session

/-!
# IosGame.Poker.Waiting

What happens on the page while nothing is tapped, and how taps are made on it one after the
other, the blocks of each awaited.

* `Waits.steps_le`, `Waits.ticks_le` — the blocks come to an end, and when;
* `exists_shows` — then the page shows what became of the game;
* `leads_taps` — what a sequence of taps does to a game can be had on the page.
-/

namespace IosGame

theorem live_newGame {fuel : Nat} {st₀ st : GamePage} {deck : List Poker}
    (h : Page.newGame fuel st₀ deck = .ok st) : Event.settled ∉ st.history := by
  simp only [Page.newGame, bind_eq_ok, mapError_eq_ok, IosGame.initialGame, pure_eq_ok,
    Except.ok.injEq] at h
  obtain ⟨st₁, ⟨x, -, rfl⟩, hplay⟩ := h
  exact live_gamePlay hplay rfl List.not_mem_nil

namespace Screen

variable {s s' : Screen}

theorem live_onAppear {t : Screen} {fuel : Nat} {deck : List Poker}
    (h : onAppear fuel t deck = .ok s) : Event.settled ∉ s.page.history := by
  obtain ⟨t', -, -, hgame⟩ := onAppear_eq h
  exact live_newGame hgame

/-! ## waiting -/

/-- `s'` is `s` after so many steps, so many of them ticks, in which nothing is tapped: while
there are blocks, time passes and they run. -/
inductive Waits (s : Screen) : Nat → Nat → Screen → Prop where
  | refl : Waits s 0 0 s
  | tick {ticks steps : Nat} {s' s'' : Screen} (h : Waits s ticks steps s')
      (hne : s'.blocks ≠ []) (hstep : Step s' .tick s'') : Waits s (ticks + 1) (steps + 1) s''
  | block {ticks steps i : Nat} {s' s'' : Screen} (h : Waits s ticks steps s')
      (hstep : Step s' (.block i) s'') : Waits s ticks (steps + 1) s''

theorem Waits.reach {ticks steps : Nat} (h : s.Waits ticks steps s') (hs : system.Reach s) :
    system.Reach s' := by
  induction h with
  | refl => exact hs
  | tick _ _ hstep ih => exact ih.step hstep
  | block _ hstep ih => exact ih.step hstep

/-- Every step leaves less to do. -/
theorem Waits.steps_le {ticks steps : Nat} (h : s.Waits ticks steps s') :
    steps + MainQueue.work Stage.cost s'.blocks ≤ MainQueue.work Stage.cost s.blocks := by
  induction h with
  | refl => omega
  | tick _ hne hstep ih =>
      cases hstep with
      | tick hquiet =>
          have hlt := MainQueue.work_tick_lt Stage.cost hne hquiet
          simp only
          omega
  | block _ hstep ih =>
      cases hstep with
      | block hd hdue =>
          have hlt := MainQueue.work_run_lt cost_pos cost_next hd
          simp only
          omega

/-- The chains end together, and a tick brings all of them nearer to the end. -/
theorem Waits.ticks_le {ticks steps rest : Nat} (h : s.Waits ticks steps s')
    (htogether : MainQueue.Together Stage.after rest s.blocks) :
    ∃ rest', MainQueue.Together Stage.after rest' s'.blocks ∧ ticks + rest' ≤ rest := by
  induction h with
  | refl => exact ⟨rest, htogether, by omega⟩
  | tick _ hne hstep ih =>
      obtain ⟨rest', hrest', hle⟩ := ih
      cases hstep with
      | tick hquiet =>
          obtain ⟨d, hd⟩ := List.exists_mem_of_ne_nil _ hne
          have hpos := hquiet d hd
          have hdue := hrest' d hd
          exact ⟨rest' - 1, hrest'.tick hquiet, by omega⟩
  | block _ hstep ih =>
      obtain ⟨rest', hrest', hle⟩ := ih
      cases hstep with
      | block hd hdue => exact ⟨rest', hrest'.run after_next hd hdue, hle⟩

/-- While there are blocks, a step can be taken. -/
theorem Waits.next {ticks steps : Nat} (h : s.Waits ticks steps s') (hne : s'.blocks ≠ []) :
    ∃ ticks' s'', s.Waits ticks' (steps + 1) s'' := by
  obtain hquiet | ⟨i, d, hd, hdue⟩ := MainQueue.quiet_or_due s'.blocks
  · exact ⟨_, _, h.tick hne (.tick hquiet)⟩
  · exact ⟨_, _, h.block (.block hd hdue)⟩

/-- The blocks run out. -/
theorem exists_waits (s : Screen) :
    ∃ ticks steps s', s.Waits ticks steps s' ∧ s'.blocks = [] := by
  by_contra hnot
  push Not at hnot
  have hforever : ∀ n, ∃ ticks s', s.Waits ticks n s' := by
    intro n
    induction n with
    | zero => exact ⟨0, s, .refl⟩
    | succ n ih =>
        obtain ⟨ticks, s', hwaits⟩ := ih
        exact hwaits.next (hnot ticks n s' hwaits)
  obtain ⟨ticks, s', hwaits⟩ := hforever (MainQueue.work Stage.cost s.blocks + 1)
  have hle := hwaits.steps_le
  omega

/-- With no block left the human can play on, or sees the score page. -/
theorem ready (h : system.Reach s) (hnil : s.blocks = []) :
    Event.settled ∉ s.page.history ∧ s.showScorePage = false ∧ s.passConfirmable = false ∨
      Event.settled ∈ s.page.history ∧ s.showScorePage = true := by
  obtain ⟨st₀, deck, hin⟩ := inGame_of_reach h
  by_cases hover : Event.settled ∈ s.page.history
  · obtain ⟨-, -, hchain, -⟩ | ⟨-, hscore⟩ := hin.settled hover
    · exact absurd hnil hchain
    · exact .inr ⟨hover, hscore⟩
  · obtain ⟨-, hgame, -, hdisabled⟩ := hin.live hover
    refine .inl ⟨hover, hgame, ?_⟩
    rw [← Bool.not_eq_true, hdisabled, not_not]
    exact hnil

theorem Waits.leads {ticks steps : Nat} (h : s.Waits ticks steps s') : system.Leads s s' := by
  induction h with
  | refl => exact .refl
  | tick _ _ hstep ih => exact ih.step hstep
  | block _ hstep ih => exact ih.step hstep

/-- Waiting leaves a game that goes on as it is. -/
theorem Waits.page {ticks steps : Nat} (h : s.Waits ticks steps s') :
    ∃ score, s'.page = { s.page with activeShowScorePage := score } := by
  induction h with
  | refl => exact ⟨_, rfl⟩
  | tick _ _ hstep ih =>
      cases hstep with
      | tick hquiet => exact ih
  | @block ticks steps i t t' _ hstep ih =>
      obtain ⟨score, hscore⟩ := ih
      cases hstep with
      | @block _ d hd hdue =>
          obtain hpage | ⟨-, -, hpage⟩ := page_run t d.block
          · exact ⟨score, hpage.trans hscore⟩
          · exact ⟨false, by rw [hpage, hscore]⟩

/-! ## taps, one after the other -/

/-- `s'` shows what became of the game on the page `st`: it goes on, or its score is shown. -/
def Shows (s' : Screen) (st : GamePage) : Prop :=
  s'.blocks = [] ∧ (Event.settled ∉ st.history → s'.page = st) ∧
    (Event.settled ∈ st.history → s'.showScorePage = true)

/-- When its blocks have run, a screen shows what became of the game. -/
theorem exists_shows (h : system.Reach s) : ∃ s', system.Leads s s' ∧ s'.Shows s.page := by
  obtain ⟨ticks, steps, s', hwaits, hnil⟩ := exists_waits s
  have hreach := hwaits.reach h
  obtain ⟨score, hpage⟩ := hwaits.page
  have hhistory : s'.page.history = s.page.history := by rw [hpage]
  refine ⟨s', hwaits.leads, hnil, fun hlive => ?_, fun hover => ?_⟩
  · obtain ⟨st₀, deck, hin⟩ := inGame_of_reach h
    obtain ⟨st₁, deck₁, hin'⟩ := inGame_of_reach hreach
    have hscore := (hin.live hlive).score
    have hscore' := (hin'.live (hhistory ▸ hlive)).score
    rw [hpage] at hscore' ⊢
    simp only at hscore'
    rw [hscore', ← hscore]
  · obtain ⟨hlive, -⟩ | ⟨-, hshown⟩ := ready hreach hnil
    · exact absurd (hhistory ▸ hover) hlive
    · exact hshown

/-- What a tap does to the game it does on the screen. -/
theorem exists_act {a : Action} {fuel : Nat} {st : GamePage}
    (hact : IosGame.act fuel s.page a = .ok st) : ∃ t, s.act fuel a = .ok t ∧ t.page = st := by
  have hpage := act_page fuel s a
  rw [hact] at hpage
  cases hs : s.act fuel a with
  | error e => rw [hs] at hpage; cases hpage
  | ok t => exact ⟨t, rfl, by rw [hs] at hpage; exact Except.ok.inj hpage⟩

/-- After a tap, and the blocks that it schedules, the screen shows what came of it. -/
theorem leads_act (h : system.Reach s) (hlive : Event.settled ∉ s.page.history)
    (hnil : s.blocks = []) {a : Action} {fuel : Nat} {st : GamePage}
    (hact : IosGame.act fuel s.page a = .ok st) : ∃ s', system.Leads s s' ∧ s'.Shows st := by
  obtain ⟨-, hgame, hbutton⟩ | ⟨hover, -⟩ := ready h hnil
  · obtain ⟨t, ht, rfl⟩ := exists_act hact
    have hstep : Step s (.tap a) t := .tap hgame (fun _ => hbutton) ht
    obtain ⟨s', hleads, hshows⟩ := exists_shows (h.step hstep)
    exact ⟨s', (System.Leads.refl.step hstep).trans hleads, hshows⟩
  · exact absurd hover hlive

/-- `ComputerPoker` traps in a tap that the human can make. -/
def Traps (fuel : Nat) (s : Screen) : Prop :=
  s.showScorePage = false ∧ s.passConfirmable = false ∧
    ∃ a, s.act fuel a = .error (.computerPoker .outOfRange)

/-- A sequence of taps can be made on the screen, its blocks awaited. -/
theorem leads_taps (fuel : Nat) (actions : List Action) (h : system.Reach s)
    (hlive : Event.settled ∉ s.page.history) (hnil : s.blocks = []) :
    (∀ st, Page.taps fuel s.page actions = .ok st → ∃ s', system.Leads s s' ∧ s'.Shows st) ∧
      (Page.taps fuel s.page actions = .error (.computerPoker .outOfRange) →
        ∃ s', system.Leads s s' ∧ s'.Traps fuel) := by
  induction actions generalizing s with
  | nil =>
      refine ⟨fun st hst => ⟨s, .refl, hnil, fun _ => ?_, fun hover => ?_⟩, fun hst => ?_⟩
      · simpa [Page.taps] using hst
      · obtain rfl : s.page = st := by simpa [Page.taps] using hst
        exact absurd hover hlive
      · cases hst
  | cons a actions ih =>
      rw [Page.taps, if_neg hlive]
      cases hact : IosGame.act fuel s.page a with
      | error e =>
          refine ⟨fun st hst => (by cases hst), fun hst => ⟨s, .refl, ?_⟩⟩
          obtain rfl : e = .computerPoker .outOfRange := Except.error.inj hst
          obtain ⟨-, hgame, hbutton⟩ | ⟨hover, -⟩ := ready h hnil
          · refine ⟨hgame, hbutton, a, ?_⟩
            have hpage := act_page fuel s a
            rw [hact] at hpage
            cases hs : s.act fuel a with
            | error e => rw [hs] at hpage; rw [Except.error.inj hpage]
            | ok t => rw [hs] at hpage; cases hpage
          · exact absurd hover hlive
      | ok st₁ =>
          obtain ⟨s₁, hleads, hnil₁, hgoes, hshown⟩ := leads_act h hlive hnil hact
          rw [ok_bind]
          by_cases hover : Event.settled ∈ st₁.history
          · -- the game is settled, and the other taps are not made
            have hstop : Page.taps fuel st₁ actions = .ok st₁ := by
              cases actions with
              | nil => rfl
              | cons b actions => rw [Page.taps, if_pos hover]; rfl
            rw [hstop]
            refine ⟨fun st hst => ⟨s₁, hleads, hnil₁, fun hlive' => ?_, fun _ => hshown hover⟩,
              fun hst => (by cases hst)⟩
            exact absurd (Except.ok.inj hst ▸ hover) hlive'
          · obtain rfl := hgoes hover
            obtain ⟨hok, htrap⟩ := ih (hleads.reach h) hover hnil₁
            refine ⟨fun st hst => ?_, fun hst => ?_⟩
            · obtain ⟨s', hleads', hshows⟩ := hok st hst
              exact ⟨s', hleads.trans hleads', hshows⟩
            · obtain ⟨s', hleads', htraps⟩ := htrap hst
              exact ⟨s', hleads.trans hleads', htraps⟩

/-- The turns of the cautious human can be taken on the screen. -/
theorem leads_playOn (fuel n : Nat) (h : system.Reach s)
    (hlive : Event.settled ∉ s.page.history) (hnil : s.blocks = []) :
    (∀ st, Page.playOn fuel n s.page = .ok st → ∃ s', system.Leads s s' ∧ s'.Shows st) ∧
      (Page.playOn fuel n s.page = .error (.computerPoker .outOfRange) →
        ∃ s', system.Leads s s' ∧ s'.Traps fuel) := by
  induction n generalizing s with
  | zero => exact leads_taps fuel [] h hlive hnil
  | succ n ih =>
      obtain ⟨hok, htrap⟩ := leads_taps fuel (Page.cautious s.page) h hlive hnil
      rw [Page.playOn]
      cases htaps : Page.taps fuel s.page (Page.cautious s.page) with
      | error e =>
          rw [htaps] at htrap
          exact ⟨fun st hst => (by cases hst), htrap⟩
      | ok st₁ =>
          obtain ⟨s₁, hleads, hnil₁, hgoes, hshown⟩ := hok st₁ htaps
          rw [ok_bind]
          by_cases hover : Event.settled ∈ st₁.history
          · rw [Page.playOn_settled hover]
            refine ⟨fun st hst => ⟨s₁, hleads, hnil₁, fun hlive' => ?_, fun _ => hshown hover⟩,
              fun hst => (by cases hst)⟩
            exact absurd (Except.ok.inj hst ▸ hover) hlive'
          · obtain rfl := hgoes hover
            obtain ⟨hok', htrap'⟩ := ih (hleads.reach h) hover hnil₁
            refine ⟨fun st hst => ?_, fun hst => ?_⟩
            · obtain ⟨s', hleads', hshows⟩ := hok' st hst
              exact ⟨s', hleads.trans hleads', hshows⟩
            · obtain ⟨s', hleads', htraps⟩ := htrap' hst
              exact ⟨s', hleads.trans hleads', htraps⟩

end Screen

end IosGame
