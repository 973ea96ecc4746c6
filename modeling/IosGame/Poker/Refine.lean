import IosGame.Poker.Run
import IosGame.Poker.Table

/-!
# IosGame.Poker.Refine

Every step of `GamePage` is a move at the table, or none (`Run.reach_table`), so what
holds of the table at every moment of a game holds of the page.
-/

namespace IosGame

/-! ## the page as a table -/

/-- The cards of a player; the human's are in two lists. -/
def GamePage.hand (st : GamePage) (p : Seat) : List Poker :=
  if p = 0 then st.userPlayerCards ++ st.userPreDeskCards else (st.players p).cards

/-- What the players see of the page. -/
def GamePage.table (st : GamePage) : Table where
  hand := fun p => ↑(st.hand p)
  flag := st.playersPassed
  out := st.winnedPlayer
  rank := st.winnerRank
  turn := st.currentPlay
  act := st.currentAct
  desk := st.desk.desk
  coin := st.userCoin
  history := st.history

theorem table_initialGame {st₀ st : GamePage} {deck : List Poker} (hdeck : deck.length = 52)
    (h : initialGame st₀ deck = .ok st) :
    st.table = Table.start deck st₀.userCoin st₀.desk.desk := by
  simp only [initialGame, assignPoker_eq hdeck, ok_bind, pure_eq_ok, Except.ok.injEq] at h
  subst h
  ext1 <;> try rfl
  funext p
  simp only [GamePage.table, GamePage.hand, Table.start]
  split
  · rename_i hp
    subst hp
    simpa using perm_sortedBy _ _
  · simpa using perm_sortedBy _ _

@[simp] theorem table_enterPlay (st : GamePage) : (enterPlay st).table = st.table := by
  ext1 <;> try rfl
  funext p
  simp only [GamePage.table, GamePage.hand, enterPlay, Function.update_apply]
  split <;> simp_all

@[simp] theorem table_select (st : GamePage) (index : Nat) :
    (select st index).table = st.table := by
  unfold select
  split
  · rename_i card hcard
    split
    · ext1 <;> try rfl
      funext p
      simp only [GamePage.table, GamePage.hand, Multiset.coe_eq_coe]
      split
      · obtain ⟨hlt, rfl⟩ := List.getElem?_eq_some_iff.mp hcard
        have hrest := List.getElem_cons_eraseIdx_perm hlt
        have hsort := perm_sortedBy Poker.gt (st.userPreDeskCards ++ [st.userPlayerCards[index]])
        refine (hsort.append_left _).trans (List.Perm.trans ?_ (hrest.append_right _))
        rw [List.perm_iff_count]
        intro x
        simp only [List.count_append, List.count_cons, List.count_nil]
        omega
      · exact List.Perm.refl _
    · rfl
  · rfl

@[simp] theorem table_deselect (st : GamePage) (index : Nat) :
    (deselect st index).table = st.table := by
  unfold deselect
  split
  · rename_i card hcard
    split
    · ext1 <;> try rfl
      funext p
      simp only [GamePage.table, GamePage.hand, Multiset.coe_eq_coe]
      split
      · obtain ⟨hlt, rfl⟩ := List.getElem?_eq_some_iff.mp hcard
        have hrest := List.getElem_cons_eraseIdx_perm hlt
        have hsort := perm_sortedBy Poker.gt (st.userPlayerCards ++ [st.userPreDeskCards[index]])
        refine (hsort.append_right _).trans (List.Perm.trans ?_ (hrest.append_left _))
        rw [List.perm_iff_count]
        intro x
        simp only [List.count_append, List.count_cons, List.count_nil]
        omega
      · exact List.Perm.refl _
    · rfl
  · rfl

theorem table_passPlay (st : GamePage) : (passPlay st).table = st.table.pass 2 := by
  ext1 <;> rfl

@[simp] theorem table_clearDesk (st : GamePage) : (clearDesk st).table = st.table := by
  ext1 <;> try rfl
  funext p
  simp only [GamePage.table, GamePage.hand, clearDesk, Function.update_apply]
  split <;> (try split) <;> simp_all

/-- A page on which the player to move has put `c` down, ranked if he has no cards
left: it is the table's move. -/
theorem table_played {st st' : GamePage} {c : PokerClass} {last : List Poker}
    (hin : st.winnedPlayer st.currentPlay = false)
    (hlast : st.table.hand st.currentPlay - ↑c.cards = ↑last)
    (h : st'.table = { st.table with
      hand := Function.update st.table.hand st.currentPlay ↑last
      flag := Function.update st.playersPassed st.currentPlay false
      act := 2
      desk := c
      history := .played st.currentPlay (callAct st) c :: st.history }) :
    (nextPlayer (if last.isEmpty then finish st' else st')).table = st.table.play c := by
  have hnext (s : GamePage) : (nextPlayer s).table =
      { s.table with turn := s.table.turn + 1 } := rfl
  have hfinish : (finish st').table = { st'.table with
      rank := st'.table.rank ++ [st'.table.turn]
      out := Function.update st'.table.out st'.table.turn true
      flag := Function.update st'.table.flag st'.table.turn true } := rfl
  have hturn : st.table.turn = st.currentPlay := rfl
  have hasked : st.table.asked = callAct st := rfl
  simp only [hnext, Table.play, hturn, hasked, hlast]
  cases last with
  | nil =>
      rw [List.isEmpty_nil, if_pos rfl, hfinish, h]
      simp [GamePage.table]
  | cons card last =>
      have hout : Function.update st.table.out st.currentPlay false = st.table.out := by
        rw [← hin]
        exact Function.update_eq_self _ _
      rw [List.isEmpty_cons, if_neg Bool.false_ne_true, h]
      simp only [Multiset.coe_eq_zero, reduceCtorEq, decide_false, hout, if_false]
      rfl

/-- What is left of a hand after a combination. -/
theorem hand_sub {cards last played : List Poker} (h : (played ++ last).Perm cards) :
    (cards : Multiset Poker) - ↑played = ↑last := by
  rw [← Multiset.coe_eq_coe.mpr h, ← Multiset.coe_add, add_tsub_cancel_left]

/-- A computer puts `c` down. -/
theorem table_computerPlay {st : GamePage} {c : PokerClass} {last : List Poker}
    (hplay : st.currentPlay ≠ 0) (hin : st.winnedPlayer st.currentPlay = false)
    (hperm : (c.cards ++ last).Perm (st.players st.currentPlay).cards) :
    (computerPlay st c last).table = st.table.play c := by
  have hhand : st.table.hand st.currentPlay = ↑(st.players st.currentPlay).cards :=
    congrArg _ (if_neg hplay)
  refine table_played hin (hhand ▸ hand_sub hperm) ?_
  ext1 <;> try rfl
  funext q
  simp only [GamePage.table, GamePage.hand, setHand, putDown, Function.update_apply]
  split <;> (try split) <;> simp_all

/-- The human puts `c` down. -/
theorem table_userPlay {st : GamePage} {c : PokerClass}
    (hplay : st.currentPlay = 0) (hin : st.winnedPlayer 0 = false)
    (hperm : (c.cards ++ removePlayed st.userPreDeskCards c.cards).Perm st.userPreDeskCards) :
    (userPlay st c).table = st.table.play c := by
  have hempty : ∀ xs ys : List Poker, (xs.isEmpty && ys.isEmpty) = (xs ++ ys).isEmpty := by
    intro xs ys
    cases xs <;> rfl
  have hperm' : (c.cards ++ (st.userPlayerCards ++ removePlayed st.userPreDeskCards c.cards)).Perm
      (st.userPlayerCards ++ st.userPreDeskCards) := by
    rw [List.perm_iff_count] at hperm ⊢
    intro x
    have := hperm x
    simp only [List.count_append] at this ⊢
    omega
  have hhand : st.table.hand st.currentPlay = ↑(st.userPlayerCards ++ st.userPreDeskCards) :=
    congrArg _ (if_pos hplay)
  simp only [userPlay, hempty]
  refine table_played (hplay ▸ hin) (hhand ▸ hand_sub hperm') ?_
  ext1 <;> try rfl
  funext q
  simp only [GamePage.table, GamePage.hand, putDown, Function.update_apply]
  split <;> (try split) <;> simp_all

/-! ## every step is a move at the table -/

section Simulation

variable {st st' : GamePage} {deck : List Poker} {coin : Int}

/-- The hands are cards of the deck, so cards that compare equal in them are equal. -/
theorem proper_hand (hdeck : deck.Perm generatePokers) (h : st.table.Good deck coin) (p : Seat) :
    Proper (st.hand p) := by
  have hsub : st.hand p ⊆ dealt deck p := (Multiset.coe_le.mp (h.dealt_le p)).subset
  exact ((proper_generatePokers.perm hdeck).subset (dealt_subset deck p)).subset hsub

/-- What `ComputerPoker` chooses from cards of the hand to move is a move. -/
theorem takes_of_chosen {cards last : List Poker} {c : PokerClass}
    (h : Chosen cards st.desk.desk (callAct st) c last)
    (hle : (cards : Multiset Poker) ≤ st.table.hand st.currentPlay) : st.table.Takes c where
  shaped := h.shaped
  le := by
    refine le_trans ?_ hle
    rw [← Multiset.coe_eq_coe.mpr h.perm, Multiset.coe_le]
    exact (List.sublist_append_left _ _).subperm
  opens := h.opens
  beats := h.beats

/-- If the action is not a free lead, it is the page's current one. -/
theorem callAct_eq (h : callAct st ≠ 1) : callAct st = st.currentAct := by
  unfold callAct at h ⊢
  split at h
  · exact absurd rfl h
  · rename_i hothers
    rw [if_neg hothers]

/-- A computer's turn is a move. -/
theorem step_computerTurn (hdeck : deck.Perm generatePokers) (hgood : st.table.Good deck coin)
    (hplay : st.currentPlay ≠ 0) (h : computerTurn st = .ok st') :
    ∃ m, Table.Step st.table m st'.table := by
  have hcases := computerTurn_cases h
  obtain ⟨s, hs⟩ : ∃ s, s = clearDesk st := ⟨_, rfl⟩
  have hplay : s.currentPlay ≠ 0 := hs ▸ hplay
  have htable : s.table = st.table := hs ▸ table_clearDesk st
  rw [← htable] at hgood ⊢
  have hhand : s.table.hand s.currentPlay = ↑(s.players s.currentPlay).cards :=
    congrArg _ (if_neg hplay)
  have hproper : Proper (s.players s.currentPlay).cards := by
    have := proper_hand hdeck hgood s.currentPlay
    rwa [GamePage.hand, if_neg hplay] at this
  rw [← hs] at hcases
  rcases hcases with ⟨hout, rfl⟩ | ⟨hin, c, last, hcomputer, h⟩
  · exact ⟨.skip, .skip hout hplay⟩
  · rcases computerPoker_cases hproper hcomputer with
      ⟨hempty, -, hasked, hclub⟩ | ⟨hempty, hchosen⟩
    · simp only [hempty, true_and, Bool.true_eq_false, false_and, or_false] at h
      subst h
      rw [callAct_eq hasked]
      refine ⟨.decline, .decline hin hplay hasked fun h0 card hcard => hclub h0 card ?_⟩
      exact Multiset.mem_coe.mp (hhand ▸ hcard)
    · simp only [hempty, true_and, Bool.false_eq_true, false_and, false_or] at h
      subst h
      rw [table_computerPlay hplay hin hchosen.perm]
      exact ⟨.play c, .play hin (takes_of_chosen hchosen hhand.ge)⟩

/-- An accepted confirm puts a combination down that is the human's to put down. -/
theorem table_confirmPlay (hdeck : deck.Perm generatePokers) (hgood : st.table.Good deck coin)
    (hplay : st.currentPlay = 0) (hin : st.winnedPlayer 0 = false)
    (h : confirmPlay st = .ok (some st')) :
    ∃ c, st'.table = st.table.play c ∧ st.table.Takes c := by
  have hproper : Proper st.userPreDeskCards :=
    (proper_hand hdeck hgood 0).subset (List.subset_append_right _ _)
  have hhand : st.table.hand st.currentPlay = ↑(st.userPlayerCards ++ st.userPreDeskCards) :=
    congrArg _ (if_pos hplay)
  obtain ⟨c, last, hcomputer, hne, rfl⟩ := confirmPlay_some h
  have hlast := computerPoker_rest hcomputer
  obtain ⟨hempty, -⟩ | ⟨-, hchosen⟩ := computerPoker_cases hproper hcomputer
  · rw [hempty] at hne
    cases hne
  · refine ⟨c, table_userPlay hplay hin (hlast ▸ hchosen.perm), takes_of_chosen hchosen ?_⟩
    rw [hhand, Multiset.coe_le]
    exact (List.sublist_append_right _ _).subperm

/-- An accepted confirm is a move. -/
theorem step_confirmPlay (hdeck : deck.Perm generatePokers) (hgood : st.table.Good deck coin)
    (hplay : st.currentPlay = 0) (hin : st.winnedPlayer 0 = false)
    (h : confirmPlay st = .ok (some st')) : ∃ m, Table.Step st.table m st'.table := by
  obtain ⟨c, htable, htakes⟩ := table_confirmPlay hdeck hgood hplay hin h
  rw [htable]
  exact ⟨.play c, .play ((congrArg _ hplay).trans hin) htakes⟩

/-- A rejected confirm changes nothing at the table. -/
theorem table_rejectConfirm (hdeck : deck.Perm generatePokers) (hgood : st.table.Good deck coin)
    (h : confirmPlay st = .ok none) : (rejectConfirm st).table = st.table := by
  have hproper : Proper st.userPreDeskCards :=
    (proper_hand hdeck hgood 0).subset (List.subset_append_right _ _)
  have hact : (if 0 < st.userPreDeskCards.length then callAct st else st.currentAct) =
      st.currentAct := by
    rcases confirmPlay_cases h with ⟨hnil, -⟩ | ⟨-, c, last, hcomputer, ⟨hempty, -⟩ | ⟨-, h⟩⟩
    · simp [hnil]
    · rcases computerPoker_cases hproper hcomputer with ⟨-, -, hasked, -⟩ | ⟨hne, -⟩
      · rw [callAct_eq hasked, ite_self]
      · rw [hempty] at hne
        cases hne
    · cases h
  ext1 <;> first | rfl | exact hact

/-- The settlement clears hands that are empty, and settles the coins. -/
theorem step_settle (hgood : st.table.Good deck coin) (hplay : st.currentPlay = 0)
    (hall : ∀ p, st.winnedPlayer p = true) (hlive : Event.settled ∉ st.history)
    (h : settle st = .ok st') : Table.Step st.table .settle st'.table := by
  have htable : st'.table = st.table.settle := by
    simp only [settle, winnORlose] at h
    cases hrank : st.winnerRank with
    | nil => simp [hrank] at h
    | cons first rest =>
        simp only [hrank, pure_eq_ok, ok_bind, Except.ok.injEq] at h
        subst h
        ext1 <;> try rfl
        · funext p
          have hnil : st.table.hand p = 0 := (hgood.out_iff p).mp (hall p)
          simp only [Table.settle, hnil]
          simp only [GamePage.table, GamePage.hand] at hnil ⊢
          split
          · rename_i hp
            rwa [if_pos hp] at hnil
          · rfl
        · exact hrank.symm
        · simp only [GamePage.table, Table.settle, Table.payoff, hrank, List.head?_cons,
            Option.some.injEq, decide_eq_true_eq]
          split <;> omega
  exact htable ▸ .settle hplay hall hlive

end Simulation

namespace Run

variable {st₀ : GamePage} {deck : List Poker} {r r' : Run}

/-- A step of the game is a move at the table, or none. -/
theorem Control.table_step {coin : Int} {a : Option Action} (hdeck : deck.Perm generatePokers)
    (h : r.Control) (hgood : r.page.table.Good deck coin) (hstep : Step r a r') :
    r'.page.table = r.page.table ∨ ∃ m, Table.Step r.page.table m r'.page.table := by
  cases hstep with
  | select index hlive => exact .inl (table_select _ _)
  | deselect index hlive => exact .inl (table_deselect _ _)
  | pass hlive =>
      obtain ⟨hplay, hin⟩ := h.back rfl
      simp only [table_enterPlay, table_passPlay]
      refine .inr ⟨.give, .give ?_ hplay⟩
      exact (congrArg _ hplay).trans (hin hlive)
  | confirm hlive hconfirm =>
      obtain ⟨hplay, hin⟩ := h.back rfl
      simp only [table_enterPlay]
      exact .inr (step_confirmPlay hdeck hgood hplay (hin hlive) hconfirm)
  | reject hlive hconfirm => exact .inl (table_rejectConfirm hdeck hgood hconfirm)
  | turn hplay hturn => exact .inr (step_computerTurn hdeck hgood hplay.ne' hturn)
  | again hplay hout hsome =>
      simp only [table_enterPlay]
      refine .inr ⟨.stay, .stay ((congrArg _ hplay).trans hout) hplay ?_⟩
      rw [othersWinned, ← Bool.not_eq_true, othersSet_eq_true] at hsome
      push Not at hsome
      obtain ⟨p, -, hp⟩ := hsome
      exact ⟨p, Bool.eq_false_iff.mpr hp⟩
  | settle hplay hall hsettle =>
      exact .inr ⟨.settle,
        step_settle hgood hplay (othersWinned_none.mp hall) (h.running rfl) hsettle⟩
  | rest hplay hin => exact .inl rfl

/-- **The code plays the game**: what the page shows is a table that the moves of the
game lead to. -/
theorem reach_table (hdeck : deck.Perm generatePokers) (h : (system st₀ deck).Reach r) :
    (Table.system deck st₀.userCoin).Reach r.page.table := by
  have hlen : deck.length = 52 := hdeck.length_eq
  refine h.simulate (f := fun r => r.page.table) (fun r hr => ?_) fun r a r' hr htable hstep => ?_
  · obtain ⟨st, hst, rfl⟩ := hr
    exact ⟨st₀.desk.desk, by simp only [table_enterPlay, table_initialGame hlen hst]⟩
  · exact (control_of_reach hr).table_step hdeck (Table.good_of_reach hlen htable) hstep

theorem good_of_reach (hdeck : deck.Perm generatePokers) (h : (system st₀ deck).Reach r) :
    r.page.table.Good deck st₀.userCoin :=
  Table.good_of_reach hdeck.length_eq (reach_table hdeck h)

end Run

end IosGame
