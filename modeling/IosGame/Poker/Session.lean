import IosGame.Poker.Screen

/-!
# IosGame.Poker.Session

Games one after the other on one page, whatever is tapped while blocks are to run.

Each game is a run of `Run.system` (`InGame`), so what is proved of those holds of every game
of a session.  The blocks of one `gamePlay` are done before the next begins: its chains began
together, so they end together, and until then the buttons are disabled.
-/

namespace IosGame

/-! ## the stages of a chain -/

/-- The ticks from a block to the end of its chain. -/
def Stage.after : Stage → Nat
  | .left => 21
  | .top => 13
  | .right => 5
  | .enable => 0

/-- The ticks and blocks that a block stands for. -/
def Stage.cost : Stage → Nat
  | .left => 25
  | .top => 16
  | .right => 7
  | .enable => 1

/-- The seat whose cards a block shows; the last block comes after all seats. -/
def Stage.seat : Stage → Nat
  | .left => 1
  | .top => 2
  | .right => 3
  | .enable => 4

theorem after_next (b : Stage) (d : Delayed Stage) (h : b.next = some d) :
    d.due + d.block.after = b.after := by
  cases b <;> cases h <;> rfl

theorem cost_next (b : Stage) (d : Delayed Stage) (h : b.next = some d) :
    d.due + d.block.cost < b.cost := by
  cases b <;> cases h <;> decide

theorem cost_pos (b : Stage) : 0 < b.cost := by cases b <;> decide

theorem seat_next {b : Stage} (h : b ≠ .enable) :
    ∃ d, b.next = some d ∧ d.block.seat = b.seat + 1 := by
  cases b with
  | enable => exact absurd rfl h
  | left | top | right => exact ⟨_, rfl, rfl⟩

/-! ## the flag of the score page -/

/-- The settlement alone asks for the score page. -/
theorem activeShowScorePage_reach {st₀ : GamePage} {deck : List Poker} {r : Run}
    (h : (Run.system st₀ deck).Reach r) :
    r.page.activeShowScorePage =
      (decide (Event.settled ∈ r.page.history) || st₀.activeShowScorePage) := by
  refine h.invariant (I := fun r => r.page.activeShowScorePage =
    (decide (Event.settled ∈ r.page.history) || st₀.activeShowScorePage)) ?_ ?_
  · rintro r ⟨st, hst, rfl⟩
    simp only [initialGame, bind_eq_ok, pure_eq_ok, Except.ok.injEq] at hst
    obtain ⟨x, -, rfl⟩ := hst
    simp [enterPlay]
  · intro r a r' _ ih hstep
    cases hstep with
    | select index hlive =>
        unfold select
        split <;> (try split) <;> exact ih
    | deselect index hlive =>
        unfold deselect
        split <;> (try split) <;> exact ih
    | pass hlive => simpa [enterPlay, passPlay, nextPlayer, passTurn] using ih
    | confirm hlive hconfirm =>
        have hsettled := settled_confirmPlay hconfirm
        obtain ⟨c, last, -, -, rfl⟩ := confirmPlay_some hconfirm
        simp only [enterPlay, hsettled]
        simp only [userPlay, nextPlayer]
        split <;> exact ih
    | reject hlive hconfirm => exact ih
    | turn hplay hturn =>
        simp only [settled_computerTurn hturn]
        obtain ⟨-, rfl⟩ | ⟨-, c, last, -, ⟨-, rfl⟩ | ⟨-, rfl⟩⟩ := computerTurn_cases hturn
        · exact ih
        · exact ih
        · simp only [computerPlay, nextPlayer]
          split <;> exact ih
    | again hplay hout hsome => exact ih
    | settle hplay hall hsettle =>
        simp only [settle, bind_eq_ok, pure_eq_ok, Except.ok.injEq] at hsettle
        obtain ⟨won, -, rfl⟩ := hsettle
        simp
    | rest hplay hin => exact ih

namespace Screen

variable {s s' : Screen} {st₀ : GamePage} {deck : List Poker}

/-! ## what is shown -/

/-- What the page shows of the computer at `p`. -/
def view (s : Screen) (p : Seat) : Shown :=
  if p = 1 then s.left else if p = 2 then s.top else s.right

/-- The page shows the cards of the computer at `p` as they are, and whether it passed. -/
def UpToDate (s : Screen) (p : Seat) : Prop :=
  s.view p = (s.page.players p).shown ∧ s.viewPlayersPass p = s.page.playersPassed p

/-- Each computer is shown as it is, or a block that comes to it is still to run. -/
def Showing (s : Screen) : Prop :=
  ∀ p ≠ 0, s.UpToDate p ∨ ∃ d ∈ s.blocks, d.block.seat ≤ p.val

theorem page_run (s : Screen) (b : Stage) :
    (s.run b).page = s.page ∨
      b = .enable ∧ s.page.activeShowScorePage = true ∧
        (s.run b).page = { s.page with activeShowScorePage := false } := by
  cases b with
  | left | top | right => exact .inl rfl
  | enable =>
      unfold run
      dsimp only
      split
      · rename_i hscore
        exact .inr ⟨rfl, hscore, rfl⟩
      · exact .inl rfl

/-- A block brings its computer up to date. -/
theorem upToDate_run {b : Stage} {p : Seat} (hp : p ≠ 0) (h : b.seat = p.val) :
    (s.run b).UpToDate p := by
  cases b with
  | left =>
      obtain rfl : p = 1 := Fin.ext h.symm
      exact ⟨rfl, by simp [Screen.run]⟩
  | top =>
      obtain rfl : p = 2 := Fin.ext h.symm
      exact ⟨rfl, by simp [Screen.run]⟩
  | right =>
      obtain rfl : p = 3 := Fin.ext h.symm
      exact ⟨rfl, by simp [Screen.run]⟩
  | enable =>
      simp only [Stage.seat] at h
      omega

/-- A block leaves the other computers as they are shown. -/
theorem UpToDate.run {b : Stage} {p : Seat} (hu : s.UpToDate p) (hp : p ≠ 0)
    (h : b.seat ≠ p.val) : (s.run b).UpToDate p := by
  obtain ⟨hview, hpass⟩ := hu
  cases b with
  | left =>
      have hne : p ≠ 1 := fun heq => h (by simp [heq, Stage.seat])
      exact ⟨by simpa [view, Screen.run, hne] using hview,
        (Function.update_of_ne hne _ _).trans hpass⟩
  | top =>
      have hne : p ≠ 2 := fun heq => h (by simp [heq, Stage.seat])
      exact ⟨by simpa [view, Screen.run, hne] using hview,
        (Function.update_of_ne hne _ _).trans hpass⟩
  | right =>
      have hne : p ≠ 3 := fun heq => h (by simp [heq, Stage.seat])
      refine ⟨?_, (Function.update_of_ne hne _ _).trans hpass⟩
      obtain rfl | rfl := one_or_two hp hne <;> exact hview
  | enable =>
      unfold Screen.run
      dsimp only
      split <;> exact ⟨hview, hpass⟩

theorem Showing.block (h : s.Showing) {i : Nat} {d : Delayed Stage}
    (hd : s.blocks[i]? = some d) :
    Showing { s.run d.block with blocks := MainQueue.run Stage.next s.blocks i } := by
  intro p hp
  by_cases hseat : d.block.seat = p.val
  · exact .inl (upToDate_run hp hseat)
  obtain hu | ⟨e, he, hle⟩ := h p hp
  · exact .inl (hu.run hp hseat)
  · refine .inr ?_
    rw [MainQueue.run_eq hd]
    obtain rfl | he := MainQueue.eq_or_mem_eraseIdx hd he
    · have hchain : e.block ≠ .enable := fun heq => by
        simp only [heq, Stage.seat] at hle
        omega
      obtain ⟨d', hd', hnext⟩ := seat_next hchain
      exact ⟨d', by simp [hd'], by omega⟩
    · exact ⟨e, List.mem_append_left _ he, hle⟩

theorem Showing.tick (h : s.Showing) :
    Showing { s with blocks := MainQueue.tick s.blocks } := by
  intro p hp
  refine (h p hp).imp id ?_
  rintro ⟨d, hd, hle⟩
  exact ⟨{ d with due := d.due - 1 }, List.mem_map_of_mem hd, hle⟩

/-- What touches neither the computers nor the flags leaves them as they are shown. -/
theorem Showing.page (h : s.Showing) {page : GamePage}
    (hplayers : page.players = s.page.players)
    (hpassed : page.playersPassed = s.page.playersPassed) :
    Showing { s with page := page } := by
  intro p hp
  refine (h p hp).imp (fun hu => ?_) id
  exact ⟨by rw [hplayers]; exact hu.1, by rw [hpassed]; exact hu.2⟩

/-- A chain of blocks comes to all computers. -/
theorem showing_of_chain {q : List (Delayed Stage)} {n due : Nat}
    (h : s.blocks = q ++ List.replicate (n + 1) ⟨.left, due⟩) : s.Showing := by
  intro p hp
  refine .inr ⟨⟨.left, due⟩, by simp [h, List.replicate_succ], ?_⟩
  have hpos : 0 < p.val := Fin.pos_iff_ne_zero.mpr hp
  exact hpos

/-! ## a game on the page -/

/-- The game goes on: at most one chain of blocks is to run, and the buttons are disabled
while it is. -/
structure Live (s : Screen) : Prop where
  score : s.page.activeShowScorePage = false
  game : s.showScorePage = false
  chain : s.blocks.length ≤ 1
  disabled : s.passConfirmable = true ↔ s.blocks ≠ []

/-- The game is settled: the score page is asked for and a block will show it, or it is
shown. -/
inductive Over (s : Screen) : Prop where
  | waiting (score : s.page.activeShowScorePage = true) (game : s.showScorePage = false)
      (chain : s.blocks ≠ []) (disabled : s.passConfirmable = true)
  | shown (score : s.page.activeShowScorePage = false) (game : s.showScorePage = true)

/-- The page in a game on `deck`, begun in the page `st₀`. -/
structure InGame (st₀ : GamePage) (deck : List Poker) (s : Screen) : Prop where
  perm : deck.Perm generatePokers
  idle : st₀.activeShowScorePage = false
  stake : 0 < st₀.userCoin
  tens : (10 : Int) ∣ st₀.userCoin
  reach : ∃ score,
    (Run.system st₀ deck).Reach ⟨{ s.page with activeShowScorePage := score }, false⟩
  live : Event.settled ∉ s.page.history → s.Live
  settled : Event.settled ∈ s.page.history → s.Over
  together : ∃ rest ≤ 29, MainQueue.Together Stage.after rest s.blocks ∧
    (s.showScorePage = true → rest = 0)
  showing : s.Showing

/-- While the game goes on, its page is that of the run. -/
theorem InGame.reach_page (h : InGame st₀ deck s) (hlive : Event.settled ∉ s.page.history) :
    (Run.system st₀ deck).Reach ⟨s.page, false⟩ := by
  obtain ⟨score, hreach⟩ := h.reach
  have hscore : score = false := by
    have := activeShowScorePage_reach hreach
    simpa [hlive, h.idle] using this
  have hpage : { s.page with activeShowScorePage := score } = s.page := by
    rw [hscore, ← (h.live hlive).score]
  rwa [hpage] at hreach

/-- What `gamePlay` leaves when no block was to run: a game, going on or settled. -/
theorem inGame_of_gamePlay {t : Screen} {fuel : Nat} (hplay : t.gamePlay fuel = .ok s)
    (hblocks : t.blocks = []) (hdeck : deck.Perm generatePokers)
    (hidle : st₀.activeShowScorePage = false) (hstake : 0 < st₀.userCoin)
    (htens : (10 : Int) ∣ st₀.userCoin)
    (hreach : (Run.system st₀ deck).Reach ⟨s.page, false⟩) :
    InGame st₀ deck { s with showScorePage := false } := by
  obtain ⟨-, n, hs, hn⟩ := gamePlay_eq hplay
  have hchain : s.blocks = List.replicate (n + 1) ⟨.left, 8⟩ := by rw [hs, hblocks]; rfl
  have hdisabled : s.passConfirmable = true := by rw [hs]
  have hscore := activeShowScorePage_reach hreach
  refine ⟨hdeck, hidle, hstake, htens, ⟨_, hreach⟩, fun hlive => ?_, fun hover => ?_,
    ⟨29, le_rfl, ?_, by simp⟩, showing_of_chain (q := []) hchain⟩
  · obtain rfl : n = 0 := hn.resolve_right hlive
    exact ⟨by simpa [hidle, show Event.settled ∉ s.page.history from hlive] using hscore, rfl,
      by simp [hchain], by simp [hchain, hdisabled]⟩
  · exact .waiting (by simpa [show Event.settled ∈ s.page.history from hover] using hscore) rfl
      (by simp [hchain]) hdisabled
  · intro d hd
    have hd : d ∈ s.blocks := hd
    rw [hchain] at hd
    rw [(List.mem_replicate.mp hd).2]
    rfl

theorem InGame.tick (h : InGame st₀ deck s) (hquiet : MainQueue.Quiet s.blocks) :
    InGame st₀ deck { s with blocks := MainQueue.tick s.blocks } := by
  have hnil : MainQueue.tick s.blocks = [] ↔ s.blocks = [] := by simp [MainQueue.tick]
  obtain ⟨rest, hle, htogether, hrest⟩ := h.together
  refine ⟨h.perm, h.idle, h.stake, h.tens, h.reach, fun hlive => ?_, fun hover => ?_,
    ⟨rest - 1, by omega, htogether.tick hquiet, fun hshown => by simp [hrest hshown]⟩,
    h.showing.tick⟩
  · obtain ⟨hscore, hgame, hchain, hdisabled⟩ := h.live hlive
    refine ⟨hscore, hgame, by simpa [MainQueue.tick] using hchain, ?_⟩
    rw [Ne, hnil]
    exact hdisabled
  · obtain ⟨hscore, hgame, hchain, hdisabled⟩ | ⟨hscore, hgame⟩ := h.settled hover
    · exact .waiting hscore hgame (by rwa [Ne, hnil]) hdisabled
    · exact .shown hscore hgame

/-- The last block of a chain enables the buttons, or shows the score page. -/
theorem run_enable (s : Screen) :
    s.run .enable = { s with
      passConfirmable := false
      page := { s.page with activeShowScorePage := false }
      showScorePage := s.page.activeShowScorePage || s.showScorePage } := by
  unfold run
  dsimp only
  split
  · rename_i hscore
    simp [hscore]
  · rename_i hscore
    have hscore : s.page.activeShowScorePage = false := by simpa using hscore
    have hpage : { s.page with activeShowScorePage := false } = s.page := by rw [← hscore]
    rw [hpage, hscore, Bool.false_or]

theorem run_chain {b : Stage} (hb : b ≠ .enable) (s : Screen) :
    (s.run b).page = s.page ∧ (s.run b).passConfirmable = s.passConfirmable ∧
      (s.run b).showScorePage = s.showScorePage := by
  cases b with
  | left | top | right => exact ⟨rfl, rfl, rfl⟩
  | enable => exact absurd rfl hb

theorem InGame.enable (h : InGame st₀ deck s) {i : Nat} {d : Delayed Stage}
    (hd : s.blocks[i]? = some d) (hdue : d.due = 0) (hlast : d.block = .enable) :
    InGame st₀ deck { s.run d.block with blocks := MainQueue.run Stage.next s.blocks i } := by
  obtain ⟨rest, hle, htogether, hrest⟩ := h.together
  have hzero : rest = 0 := by
    rw [← htogether d (List.mem_of_getElem? hd), hdue, hlast]
    rfl
  have hblocks : MainQueue.run Stage.next s.blocks i = s.blocks.eraseIdx i := by
    rw [MainQueue.run_eq hd, hlast]
    exact List.append_nil _
  have hshowing := h.showing.block hd
  rw [hlast, run_enable] at hshowing ⊢
  refine ⟨h.perm, h.idle, h.stake, h.tens, h.reach, fun hlive => ?_, fun hover => ?_,
    ⟨rest, hle, htogether.run after_next hd hdue, fun _ => hzero⟩, hshowing⟩
  · obtain ⟨hscore, hgame, hchain, -⟩ := h.live hlive
    have hnil : s.blocks.eraseIdx i = [] := by
      obtain ⟨hi, -⟩ := List.getElem?_eq_some_iff.mp hd
      refine List.eq_nil_of_length_eq_zero ?_
      rw [List.length_eraseIdx_of_lt hi]
      omega
    exact ⟨rfl, by simp [hscore, hgame], by simp [hblocks, hnil], by simp [hblocks, hnil]⟩
  · refine .shown rfl ?_
    obtain ⟨hscore, -, -, -⟩ | ⟨-, hgame⟩ := h.settled hover
    · simp [hscore]
    · simp [hgame]

theorem InGame.block (h : InGame st₀ deck s) {i : Nat} {d : Delayed Stage}
    (hd : s.blocks[i]? = some d) (hdue : d.due = 0) :
    InGame st₀ deck { s.run d.block with blocks := MainQueue.run Stage.next s.blocks i } := by
  by_cases hlast : d.block = .enable
  · exact h.enable hd hdue hlast
  obtain ⟨hpage, hbuttons, hscreen⟩ := run_chain hlast s
  obtain ⟨d', hd', -⟩ := seat_next hlast
  have hlen : (MainQueue.run Stage.next s.blocks i).length = s.blocks.length := by
    obtain ⟨hi, -⟩ := List.getElem?_eq_some_iff.mp hd
    rw [MainQueue.run_eq hd, hd', List.length_append, List.length_eraseIdx_of_lt hi]
    simp only [Option.toList_some, List.length_singleton]
    omega
  have hne : s.blocks ≠ [] := List.ne_nil_of_mem (List.mem_of_getElem? hd)
  have hne' : MainQueue.run Stage.next s.blocks i ≠ [] := by
    rw [Ne, ← List.length_eq_zero_iff, hlen, List.length_eq_zero_iff]
    exact hne
  obtain ⟨rest, hle, htogether, hrest⟩ := h.together
  refine ⟨h.perm, h.idle, h.stake, h.tens, ?_, fun hlive => ?_, fun hover => ?_,
    ⟨rest, hle, htogether.run after_next hd hdue, fun hshown => hrest (hscreen ▸ hshown)⟩,
    h.showing.block hd⟩
  · simp only [hpage]
    exact h.reach
  · simp only [hpage] at hlive
    obtain ⟨hscore, hgame, hchain, hdisabled⟩ := h.live hlive
    exact ⟨by simp only [hpage]; exact hscore, hscreen.trans hgame, hlen.le.trans hchain,
      by simp only [hbuttons]; exact iff_of_true (hdisabled.mpr hne) hne'⟩
  · simp only [hpage] at hover
    obtain ⟨hscore, hgame, hchain, hdisabled⟩ | ⟨hscore, hgame⟩ := h.settled hover
    · exact .waiting (by simp only [hpage]; exact hscore) (hscreen.trans hgame) hne'
        (hbuttons.trans hdisabled)
    · exact .shown (by simp only [hpage]; exact hscore) (hscreen.trans hgame)

/-! ## taps -/

/-- A tap that does not end the human's turn. -/
theorem InGame.page (h : InGame st₀ deck s) {page : GamePage}
    (hlive : Event.settled ∉ s.page.history)
    (hreach : (Run.system st₀ deck).Reach ⟨page, false⟩)
    (hhistory : page.history = s.page.history)
    (hscore : page.activeShowScorePage = s.page.activeShowScorePage)
    (hplayers : page.players = s.page.players)
    (hpassed : page.playersPassed = s.page.playersPassed) :
    InGame st₀ deck { s with page := page } := by
  refine ⟨h.perm, h.idle, h.stake, h.tens, ⟨_, hreach⟩, fun _ => ?_, fun hover => ?_, h.together,
    h.showing.page hplayers hpassed⟩
  · obtain ⟨hscore', hgame, hchain, hdisabled⟩ := h.live hlive
    exact ⟨hscore.trans hscore', hgame, hchain, hdisabled⟩
  · exact absurd (hhistory ▸ hover) hlive

/-- A tap while the game goes on. -/
theorem InGame.act (h : InGame st₀ deck s) {a : Action} {fuel : Nat}
    (hlive : Event.settled ∉ s.page.history)
    (hbutton : a.isButton = true → s.passConfirmable = false)
    (hact : s.act fuel a = .ok s') : InGame st₀ deck s' := by
  have hreach := h.reach_page hlive
  have hgame := (h.live hlive).game
  -- a tap that calls `gamePlay` finds no block to run
  have hplay : ∀ page, a.isButton = true → IosGame.act fuel s.page a = IosGame.gamePlay fuel page →
      Screen.gamePlay fuel { s with page := page } = .ok s' → InGame st₀ deck s' := by
    intro page ha heq hs'
    have hblocks : s.blocks = [] := by
      have hdisabled := (h.live hlive).disabled
      rw [hbutton ha] at hdisabled
      simpa using hdisabled
    obtain ⟨hgamePlay, n, hs, -⟩ := gamePlay_eq hs'
    have hnew := inGame_of_gamePlay hs' hblocks h.perm h.idle h.stake h.tens
      (Page.reach_act hreach hlive (heq.trans hgamePlay))
    have hscreen : { s' with showScorePage := false } = s' := by
      rw [hs]
      simp [hgame]
    rwa [hscreen] at hnew
  cases a with
  | select index =>
      obtain rfl : { s with page := select s.page index } = s' := by
        simpa [Screen.act] using hact
      have hstep := hreach.step (.select index hlive)
      refine h.page hlive hstep ?_ ?_ ?_ ?_ <;> unfold select <;> split <;> (try split) <;> rfl
  | deselect index =>
      obtain rfl : { s with page := deselect s.page index } = s' := by
        simpa [Screen.act] using hact
      have hstep := hreach.step (.deselect index hlive)
      refine h.page hlive hstep ?_ ?_ ?_ ?_ <;> unfold deselect <;> split <;> (try split) <;> rfl
  | pass => exact hplay _ rfl rfl hact
  | confirm =>
      obtain ⟨o, hconfirm, hact⟩ := bind_eq_ok.mp hact
      cases o with
      | some page =>
          refine hplay page rfl ?_ hact
          rw [IosGame.act, hconfirm, ok_bind]
      | none =>
          obtain rfl : { s with page := rejectConfirm s.page } = s' := by simpa using hact
          exact h.page hlive (hreach.step (.reject hlive hconfirm)) rfl rfl rfl rfl

theorem InGame.good (h : InGame st₀ deck s) : s.page.table.Good deck st₀.userCoin := by
  obtain ⟨score, hreach⟩ := h.reach
  exact Run.good_of_reach h.perm hreach

/-- In a settled game everybody is out. -/
theorem InGame.all_out (h : InGame st₀ deck s) (hover : Event.settled ∈ s.page.history) (p : Seat) :
    s.page.winnedPlayer p = true := by
  obtain ⟨hlive, -⟩ | ⟨-, hall, -⟩ := h.good.settled
  · exact absurd hover hlive
  · exact hall p

/-- In a settled game the human has no card to tap. -/
theorem InGame.cards_nil (h : InGame st₀ deck s) (hover : Event.settled ∈ s.page.history) :
    s.page.userPlayerCards = [] ∧ s.page.userPreDeskCards = [] := by
  have hhand := (h.good.out_iff 0).mp (h.all_out hover 0)
  have hnil : s.page.userPlayerCards ++ s.page.userPreDeskCards = [] :=
    (Multiset.coe_eq_zero _).mp hhand
  exact List.append_eq_nil_iff.mp hnil

/-- In a settled game a tap changes nothing. -/
theorem InGame.act_settled (h : InGame st₀ deck s) {a : Action} {fuel : Nat}
    (hover : Event.settled ∈ s.page.history) (hgame : s.showScorePage = false)
    (hbutton : a.isButton = true → s.passConfirmable = false)
    (hact : s.act fuel a = .ok s') : s = s' := by
  obtain ⟨-, -, -, hdisabled⟩ | ⟨-, hscore⟩ := h.settled hover
  · obtain ⟨hcards, hselection⟩ := h.cards_nil hover
    cases a with
    | select index => simpa [Screen.act, IosGame.select, hcards] using hact
    | deselect index => simpa [Screen.act, IosGame.deselect, hselection] using hact
    | confirm | pass => rw [hbutton rfl] at hdisabled; cases hdisabled
  · rw [hgame] at hscore
    cases hscore

theorem InGame.tap (h : InGame st₀ deck s) {a : Action} {fuel : Nat}
    (hgame : s.showScorePage = false) (hbutton : a.isButton = true → s.passConfirmable = false)
    (hact : s.act fuel a = .ok s') : InGame st₀ deck s' := by
  by_cases hover : Event.settled ∈ s.page.history
  · exact h.act_settled hover hgame hbutton hact ▸ h
  · exact h.act hover hbutton hact

/-! ## from game to game -/

/-- The human plays for the coins he has, and the settlement pays once. -/
theorem InGame.coin (h : InGame st₀ deck s) :
    (Event.settled ∉ s.page.history → s.page.userCoin = st₀.userCoin) ∧
      (Event.settled ∈ s.page.history →
        s.page.userCoin = st₀.userCoin + Table.payoff s.page.winnerRank) := by
  obtain ⟨hlive, hcoin⟩ | ⟨-, -, hcoin, before, hhistory, -⟩ := h.good.settled
  · exact ⟨fun _ => hcoin, fun hover => absurd hover hlive⟩
  · have hover : Event.settled ∈ s.page.history := by
      have hhistory : s.page.history = .settled :: before := hhistory
      rw [hhistory]
      exact List.mem_cons_self
    exact ⟨fun hlive => absurd hover hlive, fun _ => hcoin⟩

/-- A multiple of ten, and not below the largest loss. -/
theorem InGame.coin_bounds (h : InGame st₀ deck s) :
    (10 : Int) ∣ s.page.userCoin ∧ -20 ≤ s.page.userCoin := by
  have htens := h.tens
  have hstake := h.stake
  by_cases hover : Event.settled ∈ s.page.history
  · rw [h.coin.2 hover, Table.payoff]
    split <;> omega
  · rw [h.coin.1 hover]
    omega

theorem onAppear_eq {t : Screen} {fuel : Nat} (h : onAppear fuel t deck = .ok s) :
    ∃ t' : Screen, t'.blocks = t.blocks ∧ t'.gamePlay fuel = .ok s ∧
      Page.newGame fuel t.page deck = .ok s.page := by
  obtain ⟨t', hinit, hplay⟩ := bind_eq_ok.mp h
  have hinit := mapError_eq_ok.mp hinit
  obtain ⟨page, hpage, ht'⟩ := bind_eq_ok.mp hinit
  rw [pure_eq_ok, Except.ok.injEq] at ht'
  refine ⟨t', by rw [← ht'], hplay, ?_⟩
  have hgame := (gamePlay_eq hplay).1
  rw [← ht'] at hgame
  rw [Page.newGame, hpage]
  exact hgame

/-- A game begins when no block is to run. -/
theorem inGame_onAppear {t : Screen} {fuel : Nat} (h : onAppear fuel t deck = .ok s)
    (hblocks : t.blocks = []) (hdeck : deck.Perm generatePokers)
    (hidle : t.page.activeShowScorePage = false) (hstake : 0 < t.page.userCoin)
    (htens : (10 : Int) ∣ t.page.userCoin) :
    InGame t.page deck { s with showScorePage := false } := by
  obtain ⟨t', ht', hplay, hgame⟩ := onAppear_eq h
  exact inGame_of_gamePlay hplay (ht'.trans hblocks) hdeck hidle hstake htens
    (Page.reach_newGame hgame)

/-- While the score page is shown, the blocks to run are due. -/
theorem InGame.blocks_nil (h : InGame st₀ deck s) (hscore : s.showScorePage = true)
    (hquiet : MainQueue.Quiet s.blocks) : s.blocks = [] := by
  obtain ⟨rest, -, htogether, hrest⟩ := h.together
  refine List.eq_nil_iff_forall_not_mem.mpr fun d hd => ?_
  have hpos := hquiet d hd
  have hzero := htogether d hd
  rw [hrest hscore] at hzero
  omega

/-- The score page is that of a settled game. -/
theorem InGame.settled_of_score (h : InGame st₀ deck s) (hscore : s.showScorePage = true) :
    Event.settled ∈ s.page.history ∧ s.page.activeShowScorePage = false := by
  have hover : Event.settled ∈ s.page.history := by
    by_contra hlive
    rw [(h.live hlive).game] at hscore
    cases hscore
  obtain ⟨-, hgame, -, -⟩ | ⟨hidle, -⟩ := h.settled hover
  · rw [hgame] at hscore
    cases hscore
  · exact ⟨hover, hidle⟩

theorem nextGame_eq {t : Screen} {fuel : Nat} (h : nextGame fuel t deck = .ok s) :
    ∃ s', onAppear fuel t deck = .ok s' ∧ s = { s' with showScorePage := false } := by
  obtain ⟨s', hs', heq⟩ := bind_eq_ok.mp h
  rw [pure_eq_ok, Except.ok.injEq] at heq
  exact ⟨s', hs', heq.symm⟩

/-- **Every page is in a game**: whatever is tapped while blocks are to run, the page is in
a run of the game that its last deal began. -/
theorem inGame_of_reach (h : system.Reach s) : ∃ st₀ deck, InGame st₀ deck s := by
  refine h.invariant (I := fun s => ∃ st₀ deck, InGame st₀ deck s) ?_ ?_
  · rintro s ⟨fuel, deck, hdeck, hs⟩
    have hgame := inGame_onAppear hs rfl hdeck rfl (by decide) (by decide)
    have hscreen : { s with showScorePage := false } = s := by
      obtain ⟨t', hinit, hplay⟩ := bind_eq_ok.mp hs
      obtain ⟨page, -, ht'⟩ := bind_eq_ok.mp (mapError_eq_ok.mp hinit)
      rw [pure_eq_ok, Except.ok.injEq] at ht'
      obtain ⟨-, n, heq, -⟩ := gamePlay_eq hplay
      rw [heq, ← ht']
      rfl
    rw [hscreen] at hgame
    exact ⟨_, _, hgame⟩
  · rintro s e s' - ⟨st₀, deck, hgame⟩ hstep
    cases hstep with
    | tick hquiet => exact ⟨_, _, hgame.tick hquiet⟩
    | block hd hdue => exact ⟨_, _, hgame.block hd hdue⟩
    | tap hpage hbutton hact => exact ⟨_, _, hgame.tap hpage hbutton hact⟩
    | nextGame hscore hquiet hcoin hdeck hnew =>
        obtain ⟨t, ht, rfl⟩ := nextGame_eq hnew
        exact ⟨_, _, inGame_onAppear ht (hgame.blocks_nil hscore hquiet) hdeck
          (hgame.settled_of_score hscore).2 hcoin hgame.coin_bounds.1⟩
    | resetGame hscore hquiet hcoin hdeck hnew =>
        obtain ⟨t, ht, rfl⟩ := nextGame_eq hnew
        exact ⟨_, _, inGame_onAppear ht (hgame.blocks_nil hscore hquiet) hdeck
          (hgame.settled_of_score hscore).2 (by norm_num) (by norm_num)⟩

end Screen

end IosGame
