import IosGame.Poker.Waiting

/-!
# IosGame.Poker.Responds

What the human can rely on, in any session on the page.

* `enabled_up_to_date` — when the buttons are enabled, the page shows the game as it is;
* `score_page_settled` — the score page is that of a settled game, and that comes to it;
* `plays_at_rest` — a game goes on when what happened in it has been shown;
* `coins` — the coins change by the settlement and by Reset Game;
* `responds` — left alone, the page comes back to the human within three seconds;
* `reaches_score_page` — and every game can be brought to its end.
-/

namespace IosGame

namespace Screen

variable {s s' : Screen}

/-- A game on the page: the human is asked to play, passes, and in the end sees the score
page. -/
theorem exists_session : ∃ s u s', system.Reach s ∧ s.blocks = [] ∧ s.showScorePage = false ∧
    s.passConfirmable = false ∧ s.act 10 .pass = .ok u ∧ u.page.history ≠ s.page.history ∧
    system.Leads s s' ∧ s'.showScorePage = true := by
  have hrun : (do
      let s ← onAppear 10 fresh bySuits
      let u ← IosGame.act 10 s.page .pass
      let st ← Page.taps 10 s.page passThenSingles
      pure (decide (u.history ≠ s.page.history ∧ Event.settled ∈ st.history))) =
      Except.ok (ε := Halt) true := by
    decide +kernel
  simp only [bind_eq_ok, pure_eq_ok, Except.ok.injEq, decide_eq_true_eq] at hrun
  obtain ⟨t, ht, u, hu, st, hst, hchange, hover⟩ := hrun
  have hreach : system.Reach t := .init ⟨10, bySuits, perm_bySuits, ht⟩
  have hlive := live_onAppear ht
  obtain ⟨s, hleads, hnil, hpage, -⟩ := exists_shows hreach
  have hpage := hpage hlive
  rw [← hpage] at hlive hst hu hchange
  obtain ⟨s', hleads', -, -, hshown⟩ :=
    (leads_taps 10 passThenSingles (hleads.reach hreach) hlive hnil).1 st hst
  obtain ⟨u', hu', rfl⟩ := exists_act hu
  obtain ⟨-, hgame, hbutton⟩ | ⟨hover', -⟩ := ready (hleads.reach hreach) hnil
  · exact ⟨s, u', s', hleads.reach hreach, hnil, hgame, hbutton, hu', hchange, hleads',
      hshown hover⟩
  · exact absurd hover' hlive

/-! ## what the page shows -/

/-- Between the taps of the buttons no block is left. -/
theorem live_of_enabled (h : system.Reach s) (hgame : s.showScorePage = false)
    (henabled : s.passConfirmable = false) : Event.settled ∉ s.page.history ∧ s.blocks = [] := by
  obtain ⟨st₀, deck, hin⟩ := inGame_of_reach h
  have hlive : Event.settled ∉ s.page.history := by
    intro hover
    obtain ⟨-, -, -, hdisabled⟩ | ⟨-, hscore⟩ := hin.settled hover
    · rw [henabled] at hdisabled
      cases hdisabled
    · rw [hgame] at hscore
      cases hscore
  have hdisabled := (hin.live hlive).disabled
  rw [henabled] at hdisabled
  exact ⟨hlive, by simpa using hdisabled⟩

/-- **The buttons come up with the cards**: when the human can pass or confirm, no block is
to run, the page shows the computers' cards and passes as they are, and it is his turn in a
game that he is in. -/
theorem enabled_up_to_date (h : system.Reach s) (hgame : s.showScorePage = false)
    (henabled : s.passConfirmable = false) :
    s.blocks = [] ∧
      s.left = (s.page.players 1).shown ∧ s.top = (s.page.players 2).shown ∧
      s.right = (s.page.players 3).shown ∧
      (∀ p ≠ 0, s.viewPlayersPass p = s.page.playersPassed p) ∧
      s.page.currentPlay = 0 ∧ Event.settled ∉ s.page.history ∧ s.page.hand 0 ≠ [] := by
  obtain ⟨hlive, hblocks⟩ := live_of_enabled h hgame henabled
  obtain ⟨st₀, deck, hin⟩ := inGame_of_reach h
  have hshown : ∀ p ≠ 0, s.UpToDate p := fun p hp =>
    (hin.showing p hp).resolve_right (by simp [hblocks])
  have hreach := hin.reach_page hlive
  obtain ⟨hplay, hturn⟩ := (Run.control_of_reach hreach).back rfl
  refine ⟨hblocks, (hshown 1 (by decide)).1, (hshown 2 (by decide)).1, (hshown 3 (by decide)).1,
    fun p hp => (hshown p hp).2, hplay, hlive, fun hnil => ?_⟩
  have hout := (Run.winned_iff hin.perm hreach 0).mpr hnil
  rw [hturn hlive] at hout
  cases hout

theorem enabled_up_to_date_bySuits : ∃ s, system.Reach s ∧ s.blocks = [] ∧
    s.left = (s.page.players 1).shown ∧ s.top = (s.page.players 2).shown ∧
    s.right = (s.page.players 3).shown ∧
    (∀ p ≠ 0, s.viewPlayersPass p = s.page.playersPassed p) ∧
    s.page.currentPlay = 0 ∧ Event.settled ∉ s.page.history ∧ s.page.hand 0 ≠ [] := by
  obtain ⟨s, -, -, hreach, -, hgame, hbutton, -⟩ := exists_session
  exact ⟨s, hreach, enabled_up_to_date hreach hgame hbutton⟩

/-- **The score page** is that of a settled game, with all four players ranked and no card
left; and a settled game comes to it, for until then a block is to run and the buttons stay
disabled. -/
theorem score_page_settled (h : system.Reach s) :
    (s.showScorePage = true →
      Event.settled ∈ s.page.history ∧ s.page.winnerRank.Perm [0, 1, 2, 3] ∧
        ∀ p, s.page.hand p = []) ∧
    (Event.settled ∈ s.page.history → s.showScorePage = false →
      s.page.activeShowScorePage = true ∧ s.blocks ≠ [] ∧ s.passConfirmable = true) := by
  obtain ⟨st₀, deck, hin⟩ := inGame_of_reach h
  refine ⟨fun hscore => ?_, fun hover hgame => ?_⟩
  · obtain ⟨hover, -⟩ := hin.settled_of_score hscore
    have hall := hin.all_out hover
    exact ⟨hover, hin.good.rank_perm hall, fun p =>
      (Multiset.coe_eq_zero _).mp ((hin.good.out_iff p).mp (hall p))⟩
  · obtain ⟨hscore, -, hchain, hdisabled⟩ | ⟨-, hscore⟩ := hin.settled hover
    · exact ⟨hscore, hchain, hdisabled⟩
    · rw [hgame] at hscore
      cases hscore

theorem score_page_settled_bySuits : ∃ s, system.Reach s ∧ s.showScorePage = true ∧
    Event.settled ∈ s.page.history ∧ s.page.winnerRank.Perm [0, 1, 2, 3] ∧
      ∀ p, s.page.hand p = [] := by
  obtain ⟨s₀, -, s, hreach, -, -, -, -, -, hleads, hscore⟩ := exists_session
  exact ⟨s, hleads.reach hreach, hscore, (score_page_settled (hleads.reach hreach)).1 hscore⟩

/-- **A game goes on when it has been shown**: nothing is put down, nobody passes, no game is
settled and none begins while a block of the last `gamePlay` is still to run. -/
theorem plays_at_rest (h : system.Reach s) {e : ScreenEvent} (hstep : Step s e s')
    (hchange : s'.page.history ≠ s.page.history) : s.blocks = [] := by
  obtain ⟨st₀, deck, hin⟩ := inGame_of_reach h
  cases hstep with
  | tick hquiet => exact absurd rfl hchange
  | @block i d hd hdue =>
      obtain hpage | ⟨-, -, hpage⟩ := page_run s d.block <;>
        exact absurd (congrArg GamePage.history hpage) hchange
  | @tap _ a fuel hgame hbutton hact =>
      by_cases ha : a.isButton = true
      · exact (live_of_enabled h hgame (hbutton ha)).2
      · -- a card that is tapped only goes from one list to the other
        refine absurd ?_ hchange
        cases a with
        | select index =>
            obtain rfl : { s with page := select s.page index } = s' := by
              simpa [Screen.act] using hact
            exact congrArg Table.history (table_select s.page index)
        | deselect index =>
            obtain rfl : { s with page := deselect s.page index } = s' := by
              simpa [Screen.act] using hact
            exact congrArg Table.history (table_deselect s.page index)
        | confirm | pass => exact absurd rfl ha
  | nextGame hscore hquiet => exact hin.blocks_nil hscore hquiet
  | resetGame hscore hquiet => exact hin.blocks_nil hscore hquiet

theorem plays_at_rest_bySuits : ∃ s a s', system.Reach s ∧ Step s (.tap a) s' ∧
    s'.page.history ≠ s.page.history ∧ s.blocks = [] := by
  obtain ⟨s, s', -, hreach, -, hgame, hbutton, hact, hchange, -⟩ := exists_session
  have hstep : Step s (.tap .pass) s' := .tap hgame (fun _ => hbutton) hact
  exact ⟨s, .pass, s', hreach, hstep, hchange, plays_at_rest hreach hstep hchange⟩

/-! ## the coins -/

/-- **The coins** of a session: a multiple of ten, never below -20, and more than none while a
game goes on.  They change when a game is settled, by who was the first, and by Reset
Game. -/
theorem coins (h : system.Reach s) :
    (10 : Int) ∣ s.page.userCoin ∧ -20 ≤ s.page.userCoin ∧
      (Event.settled ∉ s.page.history → 0 < s.page.userCoin) ∧
    ∀ e s', Step s e s' →
      s'.page.userCoin = s.page.userCoin ∨
        (∃ a, e = .tap a) ∧ Event.settled ∉ s.page.history ∧
          Event.settled ∈ s'.page.history ∧
          s'.page.userCoin = s.page.userCoin + Table.payoff s'.page.winnerRank ∨
        (∃ deck, e = .resetGame deck) ∧ s.page.userCoin ≤ 0 ∧ s'.page.userCoin = 50 := by
  obtain ⟨st₀, deck, hin⟩ := inGame_of_reach h
  obtain ⟨htens, hleast⟩ := hin.coin_bounds
  refine ⟨htens, hleast, fun hlive => (hin.coin.1 hlive).symm ▸ hin.stake, fun e s' hstep => ?_⟩
  cases hstep with
  | tick hquiet => exact .inl rfl
  | @block i d hd hdue =>
      obtain hpage | ⟨-, -, hpage⟩ := page_run s d.block <;> exact .inl (by simp only [hpage])
  | @tap _ a fuel hgame hbutton hact =>
      by_cases hover : Event.settled ∈ s.page.history
      · exact .inl (hin.act_settled hover hgame hbutton hact ▸ rfl)
      · have hin' := hin.act hover hbutton hact
        have hstake := hin.coin.1 hover
        by_cases hover' : Event.settled ∈ s'.page.history
        · exact .inr (.inl ⟨⟨a, rfl⟩, hover, hover', hstake ▸ hin'.coin.2 hover'⟩)
        · exact .inl (hstake ▸ hin'.coin.1 hover')
  | @nextGame _ deck' fuel hscore hquiet hcoin hdeck hnew =>
      obtain ⟨t, ht, rfl⟩ := nextGame_eq hnew
      have hlive := live_onAppear ht
      have hnext := inGame_onAppear ht (hin.blocks_nil hscore hquiet) hdeck
        (hin.settled_of_score hscore).2 hcoin htens
      exact .inl (hnext.coin.1 hlive)
  | @resetGame _ deck' fuel hscore hquiet hcoin hdeck hnew =>
      obtain ⟨t, ht, rfl⟩ := nextGame_eq hnew
      have hlive := live_onAppear ht
      have hnext := inGame_onAppear ht (hin.blocks_nil hscore hquiet) hdeck
        (hin.settled_of_score hscore).2 (by norm_num) (by norm_num)
      exact .inr (.inr ⟨⟨deck', rfl⟩, hcoin, hnext.coin.1 hlive⟩)

theorem coins_bySuits : ∃ s, system.Reach s ∧ s.showScorePage = true ∧
    (10 : Int) ∣ s.page.userCoin ∧ -20 ≤ s.page.userCoin := by
  obtain ⟨s₀, -, s, hreach, -, -, -, -, -, hleads, hscore⟩ := exists_session
  have hcoins := coins (hleads.reach hreach)
  exact ⟨s, hleads.reach hreach, hscore, hcoins.1, hcoins.2.1⟩

/-! ## waiting -/

/-- **Left alone, the page comes back to the human.**  After at most 29 ticks, and finitely
many steps in any order, no block is left; then he can play on, or sees the score page. -/
theorem responds (h : system.Reach s) {ticks steps : Nat} (hwaits : s.Waits ticks steps s') :
    ticks ≤ 29 ∧ steps ≤ MainQueue.work Stage.cost s.blocks ∧
      (s'.blocks ≠ [] → ∃ ticks' s'', s.Waits ticks' (steps + 1) s'') ∧
      (s'.blocks = [] →
        Event.settled ∉ s'.page.history ∧ s'.showScorePage = false ∧
            s'.passConfirmable = false ∨
          Event.settled ∈ s'.page.history ∧ s'.showScorePage = true) := by
  obtain ⟨st₀, deck, hin⟩ := inGame_of_reach h
  obtain ⟨rest, hle, htogether, -⟩ := hin.together
  obtain ⟨rest', -, hticks⟩ := hwaits.ticks_le htogether
  have hsteps := hwaits.steps_le
  exact ⟨by omega, by omega, hwaits.next, ready (hwaits.reach h)⟩

/-- The page as it comes up, with the blocks of the opening still to run. -/
theorem responds_bySuits : ∃ s s' ticks steps, system.Reach s ∧ s.blocks ≠ [] ∧
    (∃ ticks' s'', s.Waits ticks' 1 s'') ∧ s.Waits ticks steps s' ∧ ticks ≤ 29 ∧
    steps ≤ MainQueue.work Stage.cost s.blocks ∧ s'.blocks = [] ∧
      (Event.settled ∉ s'.page.history ∧ s'.showScorePage = false ∧ s'.passConfirmable = false ∨
        Event.settled ∈ s'.page.history ∧ s'.showScorePage = true) := by
  have hrun : (do
      let s ← onAppear 10 fresh bySuits
      pure (decide (s.blocks ≠ []))) = Except.ok (ε := Halt) true := by
    decide +kernel
  simp only [bind_eq_ok, pure_eq_ok, Except.ok.injEq, decide_eq_true_eq] at hrun
  obtain ⟨s, hs, hblocks⟩ := hrun
  have hreach : system.Reach s := .init ⟨10, bySuits, perm_bySuits, hs⟩
  obtain ⟨ticks, steps, s', hwaits, hnil⟩ := exists_waits s
  obtain ⟨-, -, hnext, -⟩ := responds hreach .refl
  obtain ⟨hticks, hsteps, -, hback⟩ := responds hreach hwaits
  exact ⟨s, s', ticks, steps, hreach, hblocks, hnext hblocks, hwaits, hticks, hsteps, hnil,
    hback hnil⟩

/-! ## the end of a game -/

/-- **The score page can always be reached**, from whatever the page has come to, unless
`ComputerPoker` traps in a tap on the way. -/
theorem reaches_score_page (h : system.Reach s) :
    ∃ s', system.Leads s s' ∧ (s'.showScorePage = true ∨ s'.Traps 110) := by
  obtain ⟨s₁, hleads₁, hnil, hgoes, hshown⟩ := exists_shows h
  by_cases hlive : Event.settled ∈ s.page.history
  · exact ⟨s₁, hleads₁, .inl (hshown hlive)⟩
  have hpage := hgoes hlive
  have hreach := hleads₁.reach h
  rw [← hpage] at hlive
  obtain ⟨st₀, deck, hin⟩ := inGame_of_reach hreach
  obtain ⟨hok, htrap⟩ := leads_playOn 110 106 hreach hlive hnil
  have hgame := hin.reach_page hlive
  have hweight := (Run.good_of_reach hin.perm hgame).weight_le hin.perm.length_eq
  obtain hend | ⟨st, hend, hover⟩ :=
    Page.playOn_ends hin.perm hgame le_rfl (Nat.lt_succ_of_le hweight)
  · obtain ⟨s', hleads, htraps⟩ := htrap hend
    exact ⟨s', hleads₁.trans hleads, .inr htraps⟩
  · obtain ⟨s', hleads, -, -, hshown'⟩ := hok st hend
    exact ⟨s', hleads₁.trans hleads, .inl (hshown' hover)⟩

theorem reaches_score_page_bySuits : ∃ s, system.Reach s ∧ s.showScorePage = false ∧
    ∃ s', system.Leads s s' ∧ (s'.showScorePage = true ∨ s'.Traps 110) := by
  obtain ⟨s, -, -, hreach, -, hgame, -⟩ := exists_session
  exact ⟨s, hreach, hgame, reaches_score_page hreach⟩

end Screen

end IosGame
