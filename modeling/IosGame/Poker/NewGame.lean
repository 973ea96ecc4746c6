import IosGame.Poker.Accounts

/-!
# IosGame.Poker.NewGame

What a new game takes over from the page it is started in.  `initialGame` sets every
variable the game reads but one: `desk`.  With the same combination left on the desk,
or with a computer to open, two games on the same deck go the same way; with the
human to open they do not, since a computer may have to beat what an earlier game
left there (`new_game_independent`).
-/

namespace IosGame

/-- What a page shows of the game: the cards, the desk, the flags, the turn and the
finish order. -/
def GamePage.shown (st : GamePage) :
    List Poker × List Poker × (Seat → List Poker) × PokerClass × (Seat → Bool) × Seat ×
      List Seat :=
  (st.userPlayerCards, st.userPreDeskCards, fun p => (st.players p).cards, st.desk.desk,
    st.playersPassed, st.currentPlay, st.winnerRank)

/-- The page with other coins, alerts and `desk`. -/
def GamePage.patch (st : GamePage) (coin : Int) (alert score : Bool) (desk : Player) :
    GamePage :=
  { st with
    userCoin := coin
    confirmAlert := alert
    activeShowScorePage := score
    desk := desk }

/-- Two pages that differ in coins, alerts and the name on the desk only. -/
def Alike (st st' : GamePage) : Prop :=
  ∃ coin alert score desk, desk.desk = st.desk.desk ∧ st' = st.patch coin alert score desk

theorem Alike.shown {st st' : GamePage} (h : Alike st st') : st.shown = st'.shown := by
  obtain ⟨coin, alert, score, desk, hdesk, rfl⟩ := h
  simp [GamePage.shown, GamePage.patch, hdesk]

theorem alike_ite {c : Prop} [Decidable c] {s t s' t' : GamePage} (h : c → Alike s s')
    (h' : ¬ c → Alike t t') : Alike (if c then s else t) (if c then s' else t') := by
  split
  · exact h ‹_›
  · exact h' ‹_›

/-! ## the turns -/

section Turns

variable {st st' : GamePage}

theorem Alike.nextPlayer (h : Alike st st') : Alike (nextPlayer st) (nextPlayer st') := by
  obtain ⟨coin, alert, score, desk, hdesk, rfl⟩ := h
  exact ⟨coin, alert, score, desk, hdesk, rfl⟩

theorem Alike.finish (h : Alike st st') : Alike (finish st) (finish st') := by
  obtain ⟨coin, alert, score, desk, hdesk, rfl⟩ := h
  exact ⟨coin, alert, score, desk, hdesk, rfl⟩

theorem Alike.clearDesk (h : Alike st st') : Alike (clearDesk st) (clearDesk st') := by
  obtain ⟨coin, alert, score, desk, hdesk, rfl⟩ := h
  exact ⟨coin, alert, score, desk, hdesk, rfl⟩

theorem Alike.setHand (h : Alike st st') (cards : List Poker) :
    Alike (setHand st cards) (setHand st' cards) := by
  obtain ⟨coin, alert, score, desk, hdesk, rfl⟩ := h
  exact ⟨coin, alert, score, desk, hdesk, rfl⟩

theorem Alike.passTurn (h : Alike st st') (act : Nat) :
    Alike (passTurn { st with currentAct := act }) (passTurn { st' with currentAct := act }) := by
  obtain ⟨coin, alert, score, desk, hdesk, rfl⟩ := h
  exact ⟨coin, alert, score, desk, hdesk, rfl⟩

/-- A combination put down covers what was on the desk. -/
theorem alike_putDown (st : GamePage) (coin : Int) (alert score : Bool) (desk : Player)
    (act : Nat) (c : PokerClass) :
    Alike (putDown { st with currentAct := act } act c)
      (putDown { st.patch coin alert score desk with currentAct := act } act c) :=
  ⟨coin, alert, score, { desk with desk := c, name := (st.players st.currentPlay).name }, rfl, rfl⟩

theorem alike_userPlay (st : GamePage) (coin : Int) (alert score : Bool) (desk : Player)
    (c : PokerClass) :
    Alike (userPlay st c) (userPlay (st.patch coin alert score desk) c) := by
  have huser (s s' : GamePage) (h : Alike s s') (cards rest : List Poker) :
      Alike { s with userDeskCards := cards, userPreDeskCards := rest }
        { s' with userDeskCards := cards, userPreDeskCards := rest } := by
    obtain ⟨coin, alert, score, desk, hdesk, rfl⟩ := h
    exact ⟨coin, alert, score, desk, hdesk, rfl⟩
  have hput := huser _ _ (alike_putDown st coin alert score desk (callAct st) c) c.cards
    (removePlayed st.userPreDeskCards c.cards)
  unfold userPlay
  exact (alike_ite (fun _ => hput.finish) fun _ => hput).nextPlayer

theorem alike_computerPlay (st : GamePage) (coin : Int) (alert score : Bool) (desk : Player)
    (c : PokerClass) (last : List Poker) :
    Alike (computerPlay st c last) (computerPlay (st.patch coin alert score desk) c last) := by
  have hput := (alike_putDown st coin alert score desk (callAct st) c).setHand last
  unfold computerPlay
  cases last with
  | nil => exact hput.finish.nextPlayer
  | cons card last => exact hput.nextPlayer

/-- On alike pages `ComputerPoker` is asked the same, and the turns go the same way. -/
theorem agree_computerTurn (h : Alike st st') :
    Agree Alike (computerTurn st) (computerTurn st') := by
  obtain ⟨coin, alert, score, desk, hdesk, heq⟩ := h.clearDesk
  simp only [computerTurn, heq]
  generalize IosGame.clearDesk st = s at hdesk
  change Agree Alike (if s.winnedPlayer s.currentPlay = true then _ else _)
    (if s.winnedPlayer s.currentPlay = true then _ else _)
  have hs : Alike s (s.patch coin alert score desk) := ⟨_, _, _, _, hdesk, rfl⟩
  split
  · exact hs.nextPlayer
  · change Agree Alike ((computerPoker (s.players s.currentPlay).cards s.desk.desk
        (callAct s)).mapError Halt.computerPoker >>= _)
      ((computerPoker (s.players s.currentPlay).cards desk.desk
        (callAct s)).mapError Halt.computerPoker >>= _)
    rw [hdesk]
    refine (agree_self _).bind ?_
    rintro ⟨c, last⟩ _ rfl
    simp only
    split
    · exact (hs.passTurn _).nextPlayer
    · exact alike_computerPlay s coin alert score desk c last

/-! ## `gamePlay` and the taps -/

theorem Alike.enterPlay (h : Alike st st') : Alike (enterPlay st) (enterPlay st') := by
  obtain ⟨coin, alert, score, desk, hdesk, rfl⟩ := h
  exact ⟨coin, alert, score, desk, hdesk, rfl⟩

theorem Alike.skipUser (h : Alike st st') : Alike (skipUser st) (skipUser st') := by
  obtain ⟨coin, alert, score, desk, hdesk, rfl⟩ := h
  exact ⟨coin, alert, score, desk, hdesk, rfl⟩

theorem Alike.passPlay (h : Alike st st') : Alike (passPlay st) (passPlay st') := by
  obtain ⟨coin, alert, score, desk, hdesk, rfl⟩ := h
  exact ⟨coin, alert, score, desk, hdesk, rfl⟩

theorem Alike.rejectConfirm (h : Alike st st') : Alike (rejectConfirm st) (rejectConfirm st') := by
  obtain ⟨coin, alert, score, desk, hdesk, rfl⟩ := h
  exact ⟨coin, true, score, desk, hdesk, rfl⟩

theorem agree_computerLoopBody (h : Alike st st') :
    Agree (IterAgree Alike Alike) (computerLoopBody st) (computerLoopBody st') := by
  have hturn := agree_computerTurn h
  have hplay : st'.currentPlay = st.currentPlay := by
    obtain ⟨coin, alert, score, desk, hdesk, rfl⟩ := h
    rfl
  unfold computerLoopBody
  rw [hplay]
  split
  · exact hturn.bind fun s s' hs => hs
  · exact h

theorem agree_settle (h : Alike st st') : Agree Alike (settle st) (settle st') := by
  obtain ⟨coin, alert, score, desk, hdesk, rfl⟩ := h
  unfold settle
  simp only [winnORlose, GamePage.patch]
  cases st.winnerRank with
  | nil => exact rfl
  | cons first rest =>
      simp only [pure_eq_ok, ok_bind]
      exact ⟨_, alert, true, desk, hdesk, rfl⟩

/-- The branches after the loop of `gamePlay`. -/
theorem agree_branches {fuel : Nat}
    (ih : ∀ {s s'}, Alike s s' → Agree Alike (gamePlay fuel s) (gamePlay fuel s'))
    (h : Alike st st') :
    Agree Alike
      (if st.winnedPlayer 0 && !othersWinned st (some 0) then gamePlay fuel (skipUser st)
        else if othersWinned st none then settle st else pure st)
      (if st'.winnedPlayer 0 && !othersWinned st' (some 0) then gamePlay fuel (skipUser st')
        else if othersWinned st' none then settle st' else pure st') := by
  have hflags : st'.winnedPlayer = st.winnedPlayer := by
    obtain ⟨coin, alert, score, desk, hdesk, rfl⟩ := h
    rfl
  simp only [othersWinned, hflags]
  exact agree_ite (fun _ => ih h.skipUser) fun _ => agree_ite (fun _ => agree_settle h) fun _ => h

theorem agree_gamePlay (fuel : Nat) (h : Alike st st') :
    Agree Alike (gamePlay fuel st) (gamePlay fuel st') := by
  induction fuel generalizing st st' with
  | zero => exact rfl
  | succ fuel ih =>
      rw [gamePlay, gamePlay]
      exact (loop_agree (fun _ _ => agree_computerLoopBody) _ h.enterPlay).bind
        fun s s' hs => agree_branches ih hs

theorem Alike.select (h : Alike st st') (index : Nat) :
    Alike (select st index) (select st' index) := by
  obtain ⟨coin, alert, score, desk, hdesk, rfl⟩ := h
  unfold IosGame.select
  simp only [GamePage.patch]
  cases st.userPlayerCards[index]? with
  | none => exact ⟨coin, alert, score, desk, hdesk, rfl⟩
  | some card =>
      exact alike_ite (fun _ => ⟨coin, alert, score, desk, hdesk, rfl⟩)
        fun _ => ⟨coin, alert, score, desk, hdesk, rfl⟩

theorem Alike.deselect (h : Alike st st') (index : Nat) :
    Alike (deselect st index) (deselect st' index) := by
  obtain ⟨coin, alert, score, desk, hdesk, rfl⟩ := h
  unfold IosGame.deselect
  simp only [GamePage.patch]
  cases st.userPreDeskCards[index]? with
  | none => exact ⟨coin, alert, score, desk, hdesk, rfl⟩
  | some card =>
      exact alike_ite (fun _ => ⟨coin, alert, score, desk, hdesk, rfl⟩)
        fun _ => ⟨coin, alert, score, desk, hdesk, rfl⟩

theorem agree_confirmPlay (h : Alike st st') :
    Agree (Option.Rel Alike) (confirmPlay st) (confirmPlay st') := by
  obtain ⟨coin, alert, score, desk, hdesk, rfl⟩ := h
  unfold confirmPlay
  refine agree_ite (fun _ => ?_) fun _ => .none
  change Agree _ ((computerPoker st.userPreDeskCards st.desk.desk
      (callAct st)).mapError Halt.computerPoker >>= _)
    ((computerPoker st.userPreDeskCards desk.desk (callAct st)).mapError Halt.computerPoker >>= _)
  rw [hdesk]
  refine (agree_self _).bind ?_
  rintro ⟨c, last⟩ _ rfl
  exact agree_ite (fun _ => .none) fun _ => .some (alike_userPlay st coin alert score desk c)

theorem agree_act (fuel : Nat) (h : Alike st st') (a : Action) :
    Agree Alike (act fuel st a) (act fuel st' a) := by
  cases a with
  | select index => exact h.select index
  | deselect index => exact h.deselect index
  | pass => exact agree_gamePlay fuel h.passPlay
  | confirm =>
      refine (agree_confirmPlay h).bind fun o o' ho => ?_
      cases ho with
      | none => exact h.rejectConfirm
      | some hst => exact agree_gamePlay fuel hst

theorem agree_taps (fuel : Nat) (h : Alike st st') (actions : List Action) :
    Agree Alike (Page.taps fuel st actions) (Page.taps fuel st' actions) := by
  induction actions generalizing st st' with
  | nil => exact h
  | cons a actions ih =>
      have hhistory : st'.history = st.history := by
        obtain ⟨coin, alert, score, desk, hdesk, rfl⟩ := h
        rfl
      unfold Page.taps
      rw [hhistory]
      exact agree_ite (fun _ => h) fun _ => (agree_act fuel h a).bind fun s s' hs => ih hs

end Turns

/-! ## the first turn -/

section FirstTurn

variable {st : GamePage} {coin : Int} {alert score : Bool} {desk : Player}

/-- Asked to open, `ComputerPoker` does not look at the desk. -/
theorem computerPoker_opening (cards : List Poker) (desk desk' : PokerClass) :
    computerPoker cards desk 0 = computerPoker cards desk' 0 := rfl

/-- The first turn of a computer that holds the club 3 covers the desk. -/
theorem agree_firstTurn (hin : st.winnedPlayer st.currentPlay = false) (hasked : callAct st = 0)
    (hproper : Proper (st.players st.currentPlay).cards)
    (hclub : ∃ card ∈ (st.players st.currentPlay).cards, card.isClubThree = true) :
    Agree Alike (computerTurn st) (computerTurn (st.patch coin alert score desk)) := by
  have hcards : ((clearDesk st).players (clearDesk st).currentPlay).cards =
      (st.players st.currentPlay).cards := by
    simp [clearDesk]
  have hasked : callAct (clearDesk st) = 0 := hasked
  have hin : (clearDesk st).winnedPlayer (clearDesk st).currentPlay = false := hin
  have hclear : clearDesk (st.patch coin alert score desk) =
      (clearDesk st).patch coin alert score desk := rfl
  simp only [computerTurn, hclear]
  rw [← hcards] at hproper hclub
  generalize clearDesk st = s at hproper hclub hasked hin
  change Agree Alike (if s.winnedPlayer s.currentPlay = true then _ else _)
    (if s.winnedPlayer s.currentPlay = true then _ else _)
  refine agree_ite (fun hout => by rw [hin] at hout; cases hout) fun _ => ?_
  change Agree Alike ((computerPoker (s.players s.currentPlay).cards s.desk.desk
      (callAct s)).mapError Halt.computerPoker >>= _)
    ((computerPoker (s.players s.currentPlay).cards desk.desk
      (callAct s)).mapError Halt.computerPoker >>= _)
  have hsame : computerPoker (s.players s.currentPlay).cards s.desk.desk (callAct s) =
      computerPoker (s.players s.currentPlay).cards desk.desk (callAct s) := by
    rw [hasked]
    exact computerPoker_opening _ _ _
  rw [hsame]
  cases hcomputer : computerPoker (s.players s.currentPlay).cards desk.desk (callAct s) with
  | error t => exact rfl
  | ok r =>
      obtain ⟨c, last⟩ := r
      rcases computerPoker_cases hproper hcomputer with ⟨-, -, -, hnone⟩ | ⟨hempty, -⟩
      · obtain ⟨card, hcard, hthree⟩ := hclub
        rw [hnone hasked card hcard] at hthree
        cases hthree
      · simp only [Except.mapError, ok_bind, hempty]
        exact alike_computerPlay s coin alert score desk c last

end FirstTurn

/-! ## two games on one deck -/

/-- The page after `initialGame`: what it does not set is `st₀`'s. -/
def begun (st₀ : GamePage) (deck : List Poker) : GamePage :=
  { st₀ with
    players := fun p =>
      { cards := sortedBy Poker.gt (dealt deck p), desk := .none, name := seatName p }
    firstPriority := openerOf deck
    userPlayerCards := sortedBy Poker.gt (dealt deck 0)
    userDeskCards := []
    userPreDeskCards := []
    playersPassed := fun _ => false
    winnedPlayer := fun _ => false
    winnerRank := []
    currentAct := 0
    currentPlay := openerOf deck
    history := [] }

theorem initialGame_eq {deck : List Poker} (hdeck : deck.length = 52) (st₀ : GamePage) :
    initialGame st₀ deck = .ok (begun st₀ deck) := by
  rw [initialGame, assignPoker_eq hdeck]
  rfl

theorem newGame_eq {deck : List Poker} (hdeck : deck.length = 52) (fuel : Nat)
    (st₀ : GamePage) : Page.newGame fuel st₀ deck = gamePlay fuel (begun st₀ deck) := by
  rw [Page.newGame, initialGame_eq hdeck]
  rfl

/-- Pages a game begins in differ in coins, alerts and the desk. -/
theorem begun_patch (st₁ st₂ : GamePage) (deck : List Poker) :
    begun st₂ deck = (begun st₁ deck).patch st₂.userCoin st₂.confirmAlert
      st₂.activeShowScorePage st₂.desk := rfl

variable {deck : List Poker} {st₁ st₂ : GamePage}

/-- A game that a computer opens covers the desk in its first turn. -/
theorem agree_opened (hdeck : deck.Perm generatePokers) (hopener : openerOf deck ≠ 0)
    (st₁ st₂ : GamePage) (fuel : Nat) :
    Agree Alike (gamePlay fuel (begun st₁ deck)) (gamePlay fuel (begun st₂ deck)) := by
  cases fuel with
  | zero => exact rfl
  | succ fuel =>
      have hplay : 0 < openerOf deck := Fin.pos_iff_ne_zero.mpr hopener
      have hcards : ((enterPlay (begun st₁ deck)).players (openerOf deck)).cards =
          sortedBy Poker.gt (dealt deck (openerOf deck)) := by
        simp [enterPlay, begun]
      have hproper : Proper (sortedBy Poker.gt (dealt deck (openerOf deck))) :=
        ((proper_generatePokers.perm hdeck).subset (dealt_subset deck _)).perm (perm_sortedBy _ _)
      obtain ⟨card, hcard, hthree⟩ := clubThree_opener hdeck
      have hfirst : Agree Alike (computerTurn (enterPlay (begun st₁ deck)))
          (computerTurn (enterPlay (begun st₂ deck))) := by
        rw [begun_patch st₁ st₂]
        refine agree_firstTurn rfl rfl (hcards.symm ▸ hproper) ⟨card, ?_, hthree⟩
        change card ∈ ((enterPlay (begun st₁ deck)).players (openerOf deck)).cards
        rw [hcards, mem_sortedBy]
        exact hcard
      have hbody (st₀ : GamePage) : computerLoopBody (enterPlay (begun st₀ deck)) =
          (computerTurn (enterPlay (begun st₀ deck)) >>= fun st => pure (.again st)) :=
        if_pos hplay
      rw [gamePlay, gamePlay]
      refine Agree.bind (loop_agree_first (fun _ _ => agree_computerLoopBody) fuel ?_)
        fun s s' hs => agree_branches (agree_gamePlay fuel) hs
      rw [hbody, hbody]
      exact hfirst.bind fun s s' hs => hs

theorem agree_newGame (hdeck : deck.Perm generatePokers)
    (h : st₁.desk.desk = st₂.desk.desk ∨ openerOf deck ≠ 0) (fuel : Nat) :
    Agree Alike (Page.newGame fuel st₁ deck) (Page.newGame fuel st₂ deck) := by
  rw [newGame_eq hdeck.length_eq, newGame_eq hdeck.length_eq]
  rcases h with hdesk | hopener
  · exact agree_gamePlay fuel ⟨_, _, _, _, hdesk.symm, begun_patch st₁ st₂ deck⟩
  · exact agree_opened hdeck hopener st₁ st₂ fuel

/-- With the human to open, `gamePlay` gives him the turn at once. -/
theorem gamePlay_begun (hopener : openerOf deck = 0) (st₀ : GamePage) :
    gamePlay 1 (begun st₀ deck) = .ok (enterPlay (begun st₀ deck)) := by
  have hplay : (enterPlay (begun st₀ deck)).currentPlay = 0 := hopener
  have hbody : computerLoopBody (enterPlay (begun st₀ deck)) =
      .ok (.leave (enterPlay (begun st₀ deck))) := by
    simp [computerLoopBody, hplay]
  have hloop : loop .outOfFuel computerLoopBody 1 (enterPlay (begun st₀ deck)) =
      .ok (enterPlay (begun st₀ deck)) := loop_leave hbody 0
  rcases gamePlay_branches hloop with ⟨-, heq⟩ | ⟨⟨hout, -⟩, -⟩ | ⟨hall, -⟩
  · exact heq
  · cases hout
  · cases othersWinned_none.mp hall 0

/-- **When a new game is independent of the one before**: two games on one deck show
the same after the same taps, for every sequence of taps, exactly when the same
combination lay on the desk before or a computer opens. -/
theorem new_game_independent (hdeck : deck.Perm generatePokers) (st₁ st₂ : GamePage) :
    (∀ fuel actions,
        (Page.newGame fuel st₁ deck >>= (Page.taps fuel · actions)).map GamePage.shown =
          (Page.newGame fuel st₂ deck >>= (Page.taps fuel · actions)).map GamePage.shown) ↔
      st₁.desk.desk = st₂.desk.desk ∨ openerOf deck ≠ 0 := by
  constructor
  · intro h
    by_contra hnot
    rw [not_or, not_not] at hnot
    obtain ⟨hdesk, hopener⟩ := hnot
    have hshown := h 1 []
    simp only [newGame_eq hdeck.length_eq, gamePlay_begun hopener, ok_bind, Page.taps,
      pure_eq_ok, Except.map, Except.ok.injEq] at hshown
    exact hdesk (congrArg (fun shown => shown.2.2.2.1) hshown)
  · intro h fuel actions
    exact ((agree_newGame hdeck h fuel).bind fun s s' hs => agree_taps fuel hs actions).map_eq
      fun s s' hs => hs.shown

/-- Computer 3 opens, so the card that the game of `passThenSingles` leaves on the desk does
not matter. -/
theorem new_game_independent_bySuits : ∃ st, (Run.system .fresh bySuits).Reach ⟨st, false⟩ ∧
    Event.settled ∈ st.history ∧ st.desk.desk ≠ GamePage.fresh.desk.desk ∧
      ∀ fuel actions,
        (Page.newGame fuel .fresh bySuits >>= (Page.taps fuel · actions)).map GamePage.shown =
          (Page.newGame fuel st bySuits >>= (Page.taps fuel · actions)).map
            GamePage.shown := by
  obtain ⟨st, hreach, hsettled, hdesk⟩ :=
    Page.reach_play 10 .fresh bySuits passThenSingles
      (fun st => Event.settled ∈ st.history ∧ st.desk.desk ≠ GamePage.fresh.desk.desk)
      (by decide +kernel)
  exact ⟨st, hreach, hsettled, hdesk,
    (new_game_independent perm_bySuits .fresh st).mpr (.inr (by decide +kernel))⟩

/-- **A new game that depends on the one before.**  The game of `passThenSingles` ends
with the 3 of diamonds on the desk.  In the next one the human holds the club 3 and
passes: computer 1 has a card for that desk, and passes on the desk of a first game. -/
theorem new_game_takes_over_desk :
    ∃ st₂, (Page.newGame 10 .fresh bySuits >>= (Page.taps 10 · passThenSingles)) = .ok st₂ ∧
      Event.settled ∈ st₂.history ∧
      (Page.newGame 10 .fresh generatePokers >>= (Page.taps 10 · [.pass])).map GamePage.shown ≠
        (Page.newGame 10 st₂ generatePokers >>= (Page.taps 10 · [.pass])).map
          GamePage.shown := by
  have hrun : (do
      let st₂ ← Page.newGame 10 .fresh bySuits >>= (Page.taps 10 · passThenSingles)
      let a ← Page.newGame 10 .fresh generatePokers >>= (Page.taps 10 · [.pass])
      let b ← Page.newGame 10 st₂ generatePokers >>= (Page.taps 10 · [.pass])
      pure (decide (Event.settled ∈ st₂.history ∧ (a.players 1).cards ≠ (b.players 1).cards))) =
      Except.ok (ε := Halt) true := by
    decide +kernel
  rw [bind_eq_ok] at hrun
  obtain ⟨st₂, hst, hrun⟩ := hrun
  rw [bind_eq_ok] at hrun
  obtain ⟨a, ha, hrun⟩ := hrun
  rw [bind_eq_ok] at hrun
  obtain ⟨b, hb, hrun⟩ := hrun
  simp only [pure_eq_ok, Except.ok.injEq, decide_eq_true_eq] at hrun
  obtain ⟨hsettled, hcards⟩ := hrun
  refine ⟨st₂, hst, hsettled, fun hshown => hcards ?_⟩
  rw [ha, hb] at hshown
  simp only [Except.map, Except.ok.injEq] at hshown
  exact congrArg (fun shown => shown.2.2.1 1) hshown

end IosGame
