import IosGame.Poker.Dealing
import IosGame.Poker.NewGame
import IosGame.Poker.Waiting

/-!
# IosGame.Poker.Selection

The cards as the page shows them: every hand and the selection in descending order, over
whole runs (`in_order`).

So a page is known from the cards selected.  `selections_exact` says which selections the
taps on cards reach, and that each of them is reached in one page, whatever was tapped and
put back on the way.
-/

namespace IosGame

/-- Higher cards do not change places. -/
theorem Poker.Above.asymm {a b : Poker} (h : a.Above b) : ¬ b.Above a := by
  unfold Poker.Above at h ⊢
  omega

/-- Cards in descending order have one order. -/
theorem eq_of_above {xs ys : List Poker} (hx : xs.Pairwise Poker.Above)
    (hy : ys.Pairwise Poker.Above) (hperm : xs.Perm ys) : xs = ys :=
  hperm.eq_of_pairwise (fun _ _ _ _ hab hba => absurd hba hab.asymm) hx hy

theorem removePlayed_sublist (last played : List Poker) :
    (removePlayed last played).Sublist last := by
  induction played generalizing last with
  | nil => exact List.Sublist.refl _
  | cons card played ih => exact (ih _).trans List.eraseP_sublist

/-! ## the order of the hands -/

/-- Each hand and the selection descend. -/
structure GamePage.InOrder (st : GamePage) : Prop where
  hands : ∀ p, (st.players p).cards.Pairwise Poker.Above
  user : st.userPlayerCards.Pairwise Poker.Above
  selection : st.userPreDeskCards.Pairwise Poker.Above

section InOrder

variable {st st' : GamePage} {c : PokerClass}

theorem inOrder_begun {deck : List Poker} (hdeck : deck.Perm generatePokers) (st₀ : GamePage) :
    (begun st₀ deck).InOrder := by
  have hhand : ∀ p, (sortedBy Poker.gt (dealt deck p)).Pairwise Poker.Above := by
    intro p
    have hsub : (dealt deck p).Sublist deck :=
      (List.take_sublist _ _).trans (List.drop_sublist _ _)
    exact pairwise_above ((proper_generatePokers.perm hdeck).subset hsub.subset)
      ((hdeck.nodup_iff.mpr nodup_generatePokers).sublist hsub)
  exact ⟨hhand, hhand 0, List.Pairwise.nil⟩

/-- A player may get any cards in order. -/
theorem GamePage.InOrder.update (h : st.InOrder) {p : Seat} {player : Player}
    (hplayer : player.cards.Pairwise Poker.Above) :
    InOrder { st with players := Function.update st.players p player } := by
  refine ⟨fun q => ?_, h.user, h.selection⟩
  by_cases hq : q = p
  · subst hq
    simpa using hplayer
  · simpa [Function.update_of_ne hq] using h.hands q

theorem inOrder_enterPlay (h : st.InOrder) : (enterPlay st).InOrder := h.update h.user

theorem inOrder_clearDesk (h : st.InOrder) : (clearDesk st).InOrder := h.update (h.hands _)

theorem inOrder_setHand (h : st.InOrder) {cards : List Poker}
    (hcards : cards.Pairwise Poker.Above) : (setHand st cards).InOrder := h.update hcards

theorem inOrder_putDown (h : st.InOrder) (act : Nat) (c : PokerClass) :
    (putDown st act c).InOrder := by
  have hcards : ({ st.players st.currentPlay with desk := c } : Player).cards.Pairwise
      Poker.Above := h.hands st.currentPlay
  exact ⟨(h.update hcards).hands, h.user, h.selection⟩

theorem inOrder_finish (h : st.InOrder) : (finish st).InOrder := ⟨h.hands, h.user, h.selection⟩

theorem inOrder_nextPlayer (h : st.InOrder) : (nextPlayer st).InOrder :=
  ⟨h.hands, h.user, h.selection⟩

/-- What was put down leaves the selection in order. -/
theorem inOrder_userPlay (h : st.InOrder) (c : PokerClass) : (userPlay st c).InOrder := by
  have hask : GamePage.InOrder { st with currentAct := callAct st } :=
    ⟨h.hands, h.user, h.selection⟩
  have hput := inOrder_putDown hask (callAct st) c
  have hrest : GamePage.InOrder { putDown { st with currentAct := callAct st } (callAct st) c with
      userDeskCards := c.cards
      userPreDeskCards := removePlayed st.userPreDeskCards c.cards } :=
    ⟨hput.hands, hput.user, h.selection.sublist (removePlayed_sublist _ _)⟩
  simp only [userPlay]
  split
  · exact inOrder_nextPlayer (inOrder_finish hrest)
  · exact inOrder_nextPlayer hrest

theorem inOrder_computerPlay (h : st.InOrder) (c : PokerClass) {last : List Poker}
    (hlast : last.Pairwise Poker.Above) : (computerPlay st c last).InOrder := by
  have hask : GamePage.InOrder { st with currentAct := callAct st } :=
    ⟨h.hands, h.user, h.selection⟩
  have hset := inOrder_setHand (inOrder_putDown hask (callAct st) c) hlast
  simp only [computerPlay]
  split
  · exact inOrder_nextPlayer (inOrder_finish hset)
  · exact inOrder_nextPlayer hset

theorem inOrder_computerTurn (h : st.InOrder) (hturn : computerTurn st = .ok st') :
    st'.InOrder := by
  have hclear := inOrder_clearDesk h
  obtain ⟨-, rfl⟩ | ⟨-, c, last, hcomputer, ⟨-, rfl⟩ | ⟨-, rfl⟩⟩ := computerTurn_cases hturn
  · exact inOrder_nextPlayer hclear
  · exact ⟨hclear.hands, hclear.user, hclear.selection⟩
  · refine inOrder_computerPlay hclear c ?_
    rw [computerPoker_rest hcomputer]
    exact (hclear.hands _).sublist (removePlayed_sublist _ _)

/-! ## a tap on a card -/

/-- The cards that the human holds, selected or not. -/
def GamePage.held (st : GamePage) : List Poker := st.userPlayerCards ++ st.userPreDeskCards

/-- A card taken from some and put among others in order. -/
theorem perm_move {xs ys : List Poker} {index : Nat} {card : Poker}
    (hcard : xs[index]? = some card) :
    (xs.eraseIdx index ++ sortedBy Poker.gt (ys ++ [card])).Perm (xs ++ ys) := by
  obtain ⟨hlt, rfl⟩ := List.getElem?_eq_some_iff.mp hcard
  have hxs := (List.getElem_cons_eraseIdx_perm hlt).append_right ys
  refine List.Perm.trans ?_ hxs
  refine ((perm_sortedBy Poker.gt (ys ++ [xs[index]])).append_left _).trans ?_
  rw [← List.append_assoc]
  exact List.perm_append_comm

/-- The page with the human's cards shown otherwise. -/
structure GamePage.Shows (st st' : GamePage) : Prop where
  rest : st' = { st with
    userPlayerCards := st'.userPlayerCards, userPreDeskCards := st'.userPreDeskCards }
  held : st'.held.Perm st.held

theorem GamePage.Shows.refl (st : GamePage) : st.Shows st := ⟨rfl, List.Perm.refl _⟩

theorem GamePage.Shows.trans {st'' : GamePage} (h : st.Shows st') (h' : st'.Shows st'') :
    st.Shows st'' := by
  refine ⟨?_, h'.held.trans h.held⟩
  conv_lhs => rw [h'.rest, h.rest]

theorem shows_select (st : GamePage) (index : Nat) : st.Shows (select st index) := by
  unfold select
  split
  · next card hcard =>
    split
    · exact ⟨rfl, perm_move hcard⟩
    · exact .refl st
  · exact .refl st

theorem shows_deselect (st : GamePage) (index : Nat) : st.Shows (deselect st index) := by
  unfold deselect
  split
  · next card hcard =>
    split
    · exact ⟨rfl, List.perm_append_comm.trans ((perm_move hcard).trans List.perm_append_comm)⟩
    · exact .refl st
  · exact .refl st

theorem inOrder_select (h : st.InOrder) (hdeck : DeckCards st.held) (index : Nat) :
    (select st index).InOrder := by
  have hheld := hdeck.perm (shows_select st index).held
  unfold select at hheld ⊢
  split
  · next card hcard =>
    split
    · next hroom =>
      simp only [hcard, if_pos hroom] at hheld
      have hselection := (hheld.sublist (List.sublist_append_right _ _)).perm
        (perm_sortedBy Poker.gt (st.userPreDeskCards ++ [card])).symm
      exact ⟨h.hands, h.user.sublist (List.eraseIdx_sublist _ _),
        pairwise_above hselection.proper hselection.nodup⟩
    · exact h
  · exact h

theorem inOrder_deselect (h : st.InOrder) (hdeck : DeckCards st.held) (index : Nat) :
    (deselect st index).InOrder := by
  have hheld := hdeck.perm (shows_deselect st index).held
  unfold deselect at hheld ⊢
  split
  · next card hcard =>
    split
    · next hroom =>
      simp only [hcard, if_pos hroom] at hheld
      have hhand := (hheld.sublist (List.sublist_append_left _ _)).perm
        (perm_sortedBy Poker.gt (st.userPlayerCards ++ [card])).symm
      exact ⟨h.hands, pairwise_above hhand.proper hhand.nodup,
        h.selection.sublist (List.eraseIdx_sublist _ _)⟩
    · exact h
  · exact h

end InOrder

/-! ## whole runs -/

section Runs

variable {st₀ : GamePage} {deck : List Poker} {r : Run}

theorem deckCards_held (hdeck : deck.Perm generatePokers) (h : (Run.system st₀ deck).Reach r) :
    DeckCards r.page.held := by
  have hcards := perm_cards hdeck h
  have hall : DeckCards r.page.cards :=
    ⟨hcards.nodup_iff.mpr nodup_generatePokers, hcards.subset⟩
  refine hall.sublist ?_
  simp only [GamePage.cards, GamePage.held, List.append_assoc]
  exact (List.Sublist.refl _).append (List.sublist_append_left _ _)

theorem inOrder_of_reach (hdeck : deck.Perm generatePokers)
    (h : (Run.system st₀ deck).Reach r) : r.page.InOrder := by
  refine h.invariant (I := fun r => r.page.InOrder) (fun r hr => ?_) fun r a r' hr ih hstep => ?_
  · obtain ⟨st, hst, rfl⟩ := hr
    rw [initialGame_eq hdeck.length_eq] at hst
    cases hst
    exact inOrder_enterPlay (inOrder_begun hdeck st₀)
  · cases hstep with
    | select index hlive => exact inOrder_select ih (deckCards_held hdeck hr) index
    | deselect index hlive => exact inOrder_deselect ih (deckCards_held hdeck hr) index
    | pass hlive => exact inOrder_enterPlay ⟨ih.hands, ih.user, ih.selection⟩
    | confirm hlive hconfirm =>
        obtain ⟨c, last, -, -, rfl⟩ := confirmPlay_some hconfirm
        exact inOrder_enterPlay (inOrder_userPlay ih c)
    | reject hlive hconfirm => exact ⟨ih.hands, ih.user, ih.selection⟩
    | turn hplay hturn => exact inOrder_computerTurn ih hturn
    | again hplay hout hsome => exact inOrder_enterPlay ⟨ih.hands, ih.user, ih.selection⟩
    | settle hplay hall hsettle =>
        simp only [settle, bind_eq_ok, pure_eq_ok, Except.ok.injEq] at hsettle
        obtain ⟨won, -, rfl⟩ := hsettle
        exact ⟨fun _ => List.Pairwise.nil, ih.user, ih.selection⟩
    | rest hplay hin => exact ih

end Runs

/-! ## what can be selected -/

/-- A tap on a card. -/
def Action.OfCard : Action → Prop
  | .select _ | .deselect _ => True
  | .confirm | .pass => False

namespace Page

variable {st₀ st st' st'' : GamePage} {deck : List Poker} {fuel : Nat}

/-- The page after taps on cards alone. -/
def Tapped (fuel : Nat) (st st' : GamePage) : Prop :=
  ∃ actions, (∀ a ∈ actions, Action.OfCard a) ∧ taps fuel st actions = .ok st'

theorem taps_append (actions actions' : List Action) :
    taps fuel st (actions ++ actions') =
      taps fuel st actions >>= fun st' => taps fuel st' actions' := by
  induction actions generalizing st with
  | nil => rfl
  | cons a actions ih =>
      rw [List.cons_append, taps, taps]
      split
      · next hover =>
        cases actions' with
        | nil => rfl
        | cons a' actions' => rw [pure_eq_ok, ok_bind, taps, if_pos hover]; rfl
      · cases act fuel st a with
        | error e => rfl
        | ok st' => exact ih

theorem Tapped.trans (h : Tapped fuel st st') (h' : Tapped fuel st' st'') :
    Tapped fuel st st'' := by
  obtain ⟨actions, hcards, htaps⟩ := h
  obtain ⟨actions', hcards', htaps'⟩ := h'
  refine ⟨actions ++ actions', fun a ha => ?_, by rw [taps_append, htaps, ok_bind, htaps']⟩
  exact (List.mem_append.mp ha).elim (hcards a) (hcards' a)

/-- Taps on cards only show them otherwise. -/
theorem Tapped.shows (h : Tapped fuel st st') : st.Shows st' := by
  obtain ⟨actions, hcards, htaps⟩ := h
  induction actions generalizing st with
  | nil =>
      obtain rfl : st = st' := by simpa [taps] using htaps
      exact .refl st
  | cons a actions ih =>
      obtain ⟨ha, hactions⟩ := List.forall_mem_cons.mp hcards
      unfold taps at htaps
      split at htaps
      · obtain rfl : st = st' := by simpa using htaps
        exact .refl st
      · cases a with
        | select index => exact (shows_select st index).trans (ih hactions htaps)
        | deselect index => exact (shows_deselect st index).trans (ih hactions htaps)
        | confirm | pass => exact ha.elim

/-- Two pages with the same cards selected are the same. -/
theorem eq_of_selected (h : st.Shows st') (h' : st.Shows st'') (horder : st'.InOrder)
    (horder' : st''.InOrder) (hperm : st'.userPreDeskCards.Perm st''.userPreDeskCards) :
    st' = st'' := by
  have hselection := eq_of_above horder.selection horder'.selection hperm
  have hheld := h.held.trans h'.held.symm
  unfold GamePage.held at hheld
  rw [hselection, List.perm_append_right_iff] at hheld
  rw [h.rest, h'.rest, hselection, eq_of_above horder.user horder'.user hheld]

/-- Cards of the hand can be selected while there is room. -/
theorem tapped_select {cards : List Poker} (hlive : Event.settled ∉ st.history)
    (hcards : cards.Subperm st.userPlayerCards)
    (hroom : st.userPreDeskCards.length + cards.length ≤ 5) :
    ∃ st', Tapped fuel st st' ∧ st'.userPreDeskCards.Perm (cards ++ st.userPreDeskCards) := by
  induction cards generalizing st with
  | nil => exact ⟨st, ⟨[], by simp, rfl⟩, List.Perm.refl _⟩
  | cons card cards ih =>
      obtain ⟨index, hlt, hget⟩ := List.getElem_of_mem (hcards.subset List.mem_cons_self)
      rw [List.length_cons] at hroom
      have hselect : select st index = { st with
          userPlayerCards := st.userPlayerCards.eraseIdx index
          userPreDeskCards := sortedBy Poker.gt (st.userPreDeskCards ++ [card]) } := by
        rw [select, List.getElem?_eq_getElem hlt, hget]
        exact if_pos ⟨by omega, by omega⟩
      have hrest : cards.Subperm (st.userPlayerCards.eraseIdx index) := by
        have hperm := List.getElem_cons_eraseIdx_perm hlt
        rw [hget] at hperm
        exact (List.subperm_cons card).mp ((List.Perm.subperm_left hperm.symm).mp hcards)
      obtain ⟨st', htapped, hselected⟩ := @ih (select st index) (by rw [hselect]; exact hlive)
        (by rw [hselect]; exact hrest)
        (by simp only [hselect, length_sortedBy, List.length_append, List.length_singleton]; omega)
      refine ⟨st', Tapped.trans ⟨[.select index], by simp [Action.OfCard], ?_⟩ htapped, ?_⟩
      · rw [taps, if_neg hlive]
        rfl
      · refine hselected.trans ?_
        simp only [hselect]
        refine ((perm_sortedBy Poker.gt _).append_left cards).trans ?_
        rw [← List.append_assoc]
        exact List.perm_append_singleton card _

/-- **The taps on cards select** exactly the sets of at most five of the cards that the human
holds, and the page is then known from these: it is one page, whatever was tapped and in
which order. -/
theorem selections_exact (hdeck : deck.Perm generatePokers)
    (h : (Run.system st₀ deck).Reach ⟨st, false⟩) (hlive : Event.settled ∉ st.history)
    (fuel : Nat) (selection : List Poker) :
    (∃! st', Tapped fuel st st' ∧ st'.userPreDeskCards.Perm selection) ↔
      selection.Subperm (st.userPlayerCards ++ st.userPreDeskCards) ∧ selection.length ≤ 5 := by
  have hreach : ∀ st', Tapped fuel st st' → (Run.system st₀ deck).Reach ⟨st', false⟩ :=
    fun st' ⟨_, _, htaps⟩ => reach_taps h htaps
  constructor
  · rintro ⟨st', ⟨htapped, hselection⟩, -⟩
    refine ⟨?_, hselection.length_eq ▸ userPreDeskCards_le (hreach st' htapped)⟩
    exact hselection.symm.subperm.trans
      ((List.sublist_append_right _ _).subperm.trans htapped.shows.held.subperm)
  · rintro ⟨hheld, hfive⟩
    obtain ⟨st₁, -, -, hempty, htaps⟩ := taps_deselect fuel hdeck h hlive []
    rw [List.append_nil] at htaps
    have hcleared : Tapped fuel st st₁ := ⟨_, by simp [Action.OfCard], htaps⟩
    have hhand : st₁.userPlayerCards.Perm (st.userPlayerCards ++ st.userPreDeskCards) := by
      simpa [GamePage.held, hempty] using hcleared.shows.held
    have hlive₁ : Event.settled ∉ st₁.history := by
      rw [hcleared.shows.rest]
      exact hlive
    obtain ⟨st₂, htapped, hselected⟩ := tapped_select hlive₁
      (hheld.trans hhand.symm.subperm) (by simpa [hempty] using hfive)
    rw [hempty, List.append_nil] at hselected
    have htapped₂ := hcleared.trans htapped
    refine ⟨st₂, ⟨htapped₂, hselected⟩, fun st₃ ⟨htapped₃, hselected₃⟩ => ?_⟩
    exact eq_of_selected htapped₃.shows htapped₂.shows
      (inOrder_of_reach hdeck (hreach st₃ htapped₃)) (inOrder_of_reach hdeck (hreach st₂ htapped₂))
      (hselected₃.trans hselected.symm)

/-- With two cards selected, the page on which five others are. -/
theorem selections_exact_bySuits : ∃ st, (Run.system .fresh bySuits).Reach ⟨st, false⟩ ∧
    st.userPreDeskCards.length = 2 ∧ (st.userPlayerCards.take 5).length = 5 ∧
      ∃! st', Tapped 10 st st' ∧ st'.userPreDeskCards.Perm (st.userPlayerCards.take 5) := by
  obtain ⟨st, hreach, hlive, htwo, hfive⟩ :=
    reach_play 10 .fresh bySuits [.pass, .select 3, .select 0]
      (fun st => Event.settled ∉ st.history ∧ st.userPreDeskCards.length = 2 ∧
        (st.userPlayerCards.take 5).length = 5) (by decide +kernel)
  refine ⟨st, hreach, htwo, hfive,
    (selections_exact perm_bySuits hreach hlive 10 _).mpr ⟨?_, hfive.le⟩⟩
  exact ((List.take_sublist _ _).trans (List.sublist_append_left _ _)).subperm

end Page

/-! ## the cards on the page -/

namespace Screen

variable {s s' : Screen}

/-- The cards that the page shows of each computer descend. -/
def ShowsOrder (s : Screen) : Prop := ∀ p, (s.view p).playerCards.Pairwise Poker.Above

theorem inOrder_page (h : system.Reach s) : s.page.InOrder := by
  obtain ⟨st₀, deck, hin⟩ := inGame_of_reach h
  obtain ⟨score, hreach⟩ := hin.reach
  have horder := inOrder_of_reach hin.perm hreach
  exact ⟨horder.hands, horder.user, horder.selection⟩

theorem view_gamePlay {fuel : Nat} (h : s.gamePlay fuel = .ok s') (p : Seat) :
    s'.view p = s.view p := by
  obtain ⟨-, n, heq, -⟩ := gamePlay_eq h
  rw [heq]
  rfl

/-- A new game shows the hands as they were dealt. -/
theorem showsOrder_onAppear {fuel : Nat} {deck : List Poker} (h : onAppear fuel s deck = .ok s')
    (hdeck : deck.Perm generatePokers) : s'.ShowsOrder := by
  obtain ⟨t, hinit, hplay⟩ := bind_eq_ok.mp h
  obtain ⟨page, hpage, ht⟩ := bind_eq_ok.mp (mapError_eq_ok.mp hinit)
  rw [initialGame_eq hdeck.length_eq] at hpage
  cases hpage
  cases ht
  have horder := inOrder_begun hdeck s.page
  intro p
  rw [view_gamePlay hplay]
  unfold view
  split
  · exact horder.hands 1
  · split
    · exact horder.hands 2
    · exact horder.hands 3

/-- A block leaves a computer as it is shown, or shows a player's cards as they are. -/
theorem view_run (s : Screen) (b : Stage) (p : Seat) :
    (s.run b).view p = s.view p ∨ ∃ q, (s.run b).view p = (s.page.players q).shown := by
  cases b with
  | left =>
      by_cases hp : p = 1
      · exact .inr ⟨1, by simp [view, Screen.run, hp]⟩
      · exact .inl (by simp [view, Screen.run, hp])
  | top =>
      by_cases hp : p = 2
      · exact .inr ⟨2, by simp [view, Screen.run, hp]⟩
      · exact .inl (by simp [view, Screen.run, hp])
  | right =>
      by_cases hp : p = 1 ∨ p = 2
      · exact .inl (by rcases hp with rfl | rfl <;> rfl)
      · obtain ⟨hleft, htop⟩ := not_or.mp hp
        exact .inr ⟨3, by simp [view, Screen.run, hleft, htop]⟩
  | enable =>
      refine .inl ?_
      simp only [view, Screen.run]
      by_cases hscore : s.page.activeShowScorePage = true <;> simp [hscore]

theorem ShowsOrder.run (h : s.ShowsOrder) (hpage : s.page.InOrder) (b : Stage) :
    (s.run b).ShowsOrder := by
  intro p
  obtain heq | ⟨q, heq⟩ := view_run s b p
  · exact heq ▸ h p
  · rw [heq]
    exact hpage.hands q

theorem ShowsOrder.act (h : s.ShowsOrder) {fuel : Nat} {a : Action} (hact : s.act fuel a = .ok s') :
    s'.ShowsOrder := by
  cases a with
  | select index | deselect index =>
      cases hact
      exact h
  | pass => exact fun p => view_gamePlay hact p ▸ h p
  | confirm =>
      obtain ⟨o, -, hact⟩ := bind_eq_ok.mp hact
      cases o with
      | none =>
          cases hact
          exact h
      | some page => exact fun p => view_gamePlay hact p ▸ h p

/-- **The cards are shown in order** at every moment of every session, through all its games:
the human's hand, his selection and what is shown of the computers' hands, up to date or not
yet, descend strictly, by rank and then by suit. -/
theorem shown_in_order (h : system.Reach s) :
    s.page.userPlayerCards.Pairwise Poker.Above ∧ s.page.userPreDeskCards.Pairwise Poker.Above ∧
      ∀ p, (s.view p).playerCards.Pairwise Poker.Above := by
  have hpage := inOrder_page h
  refine ⟨hpage.user, hpage.selection, ?_⟩
  refine h.invariant (I := ShowsOrder) (fun s hs => ?_) fun s e s' hs ih hstep => ?_
  · obtain ⟨fuel, deck, hdeck, hs⟩ := hs
    exact showsOrder_onAppear hs hdeck
  · cases hstep with
    | tick hquiet => exact ih
    | block hd hdue => exact ih.run (inOrder_page hs) _
    | tap hgame hbutton hact => exact ih.act hact
    | nextGame hscore hquiet hcoin hdeck hnew =>
        obtain ⟨t, ht, rfl⟩ := nextGame_eq hnew
        have ht := showsOrder_onAppear ht hdeck
        exact fun p => ht p
    | resetGame hscore hquiet hcoin hdeck hnew =>
        obtain ⟨t, ht, rfl⟩ := nextGame_eq hnew
        have ht := showsOrder_onAppear ht hdeck
        exact fun p => ht p

/-- The human selects two cards and passes, and what the computers put down then is not shown
yet. -/
theorem shown_in_order_bySuits : ∃ s, system.Reach s ∧ s.blocks ≠ [] ∧
    (plays s.page.history).length = 3 ∧ s.page.userPreDeskCards.length = 2 ∧
    s.page.userPlayerCards.Pairwise Poker.Above ∧ s.page.userPreDeskCards.Pairwise Poker.Above ∧
      ∀ p, (s.view p).playerCards.Pairwise Poker.Above := by
  have hrun : (do
      let t ← onAppear 10 fresh bySuits
      let st ← Page.taps 10 t.page [.select 3, .select 0]
      let u ← IosGame.act 10 st .pass
      pure (decide (Event.settled ∉ st.history ∧ (plays u.history).length = 3 ∧
        u.userPreDeskCards.length = 2))) = Except.ok (ε := Halt) true := by
    decide +kernel
  simp only [bind_eq_ok, pure_eq_ok, Except.ok.injEq, decide_eq_true_eq] at hrun
  obtain ⟨t, ht, st, hst, u, hu, hlive, hplays, hselection⟩ := hrun
  have hstart : system.Reach t := .init ⟨10, bySuits, perm_bySuits, ht⟩
  -- the blocks of the deal run, and the two cards are tapped
  obtain ⟨t', hleads, hnil, hpage, -⟩ := exists_shows hstart
  have hpage := hpage (live_onAppear ht)
  have hreach' := hleads.reach hstart
  obtain ⟨s, hleads', hnil', hgoes, -⟩ :=
    (leads_taps 10 [.select 3, .select 0] hreach' (hpage ▸ live_onAppear ht) hnil).1 st
      (hpage ▸ hst)
  have hgoes := hgoes hlive
  obtain ⟨-, hgame, hbutton⟩ | ⟨hover, -⟩ := ready (hleads'.reach hreach') hnil'
  · obtain ⟨s', hact, rfl⟩ := exists_act (hgoes ▸ hu)
    have hstep : Step s (.tap .pass) s' := .tap hgame (fun _ => hbutton) hact
    have hreach := (hleads'.reach hreach').step hstep
    obtain ⟨-, n, hs', -⟩ := gamePlay_eq hact
    exact ⟨s', hreach, by rw [hs']; simp, hplays, hselection, shown_in_order hreach⟩
  · rw [hgoes] at hover
    exact absurd hover hlive

end Screen

end IosGame
