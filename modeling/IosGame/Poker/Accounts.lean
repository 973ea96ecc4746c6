import IosGame.Poker.Refine

/-!
# IosGame.Poker.Accounts

The cards and the coins of a game, at every moment of it: no card of the deck is
lost or doubled (`deck_kept`), and the finish order and the settlement agree with
the hands (`ranked_and_settled`).
-/

namespace IosGame

variable {st₀ : GamePage} {deck : List Poker} {r : Run}

/-- The deck that deals the human the diamonds and computer 3, who opens, the clubs. -/
def bySuits : List Poker := generatePokers.rotate 13

theorem perm_bySuits : bySuits.Perm generatePokers := List.rotate_perm _ _

/-- The taps of a game in which the human passes until the computers are out, and then
puts his thirteen cards down one by one. -/
def passThenSingles : List Action :=
  List.replicate 9 .pass ++ (List.replicate 13 [.select 0, .confirm]).flatten

/-! ## the cards -/

theorem removePlayed_length_le (last played : List Poker) :
    (removePlayed last played).length ≤ last.length := by
  induction played generalizing last with
  | nil => exact le_refl _
  | cons card played ih => exact (ih _).trans List.length_eraseP_le

/-- The selection of the human is out of a computer's reach. -/
theorem userPreDeskCards_computerTurn {st st' : GamePage} (h : computerTurn st = .ok st') :
    st'.userPreDeskCards = st.userPreDeskCards := by
  rcases computerTurn_cases h with ⟨-, rfl⟩ | ⟨-, c, last, -, ⟨-, rfl⟩ | ⟨-, rfl⟩⟩
  · rfl
  · rfl
  · unfold computerPlay
    split <;> rfl

theorem userPreDeskCards_confirmPlay {st st' : GamePage} (h : confirmPlay st = .ok (some st')) :
    st'.userPreDeskCards.length ≤ st.userPreDeskCards.length := by
  obtain ⟨c, last, -, -, rfl⟩ := confirmPlay_some h
  simp only [userPlay]
  split <;> exact removePlayed_length_le _ _

/-- The selection holds at most five cards. -/
theorem userPreDeskCards_le (h : (Run.system st₀ deck).Reach r) :
    r.page.userPreDeskCards.length ≤ 5 := by
  refine h.invariant (I := fun r => r.page.userPreDeskCards.length ≤ 5) ?_ ?_
  · rintro r ⟨st, hst, rfl⟩
    simp only [initialGame, bind_eq_ok, pure_eq_ok, Except.ok.injEq] at hst
    obtain ⟨x, -, rfl⟩ := hst
    simp [enterPlay]
  · intro r a r' _ ih hstep
    cases hstep with
    | select index hlive =>
        unfold select
        split <;> (try split)
        · rename_i hroom
          simp only [length_sortedBy, List.length_append, List.length_singleton]
          omega
        · exact ih
        · exact ih
    | deselect index hlive =>
        unfold deselect
        split <;> (try split)
        · exact (List.length_eraseIdx_le _ _).trans ih
        · exact ih
        · exact ih
    | pass hlive => exact ih
    | confirm hlive hconfirm => exact (userPreDeskCards_confirmPlay hconfirm).trans ih
    | reject hlive hconfirm => exact ih
    | turn hplay hturn => exact (userPreDeskCards_computerTurn hturn).symm ▸ ih
    | again hplay hout hsome => exact ih
    | settle hplay hall hsettle =>
        simp only [settle, bind_eq_ok, pure_eq_ok, Except.ok.injEq] at hsettle
        obtain ⟨won, -, rfl⟩ := hsettle
        exact ih
    | rest hplay hin => exact ih

/-- All the cards of a page: the hands, the selection and what was put down. -/
def GamePage.cards (st : GamePage) : List Poker :=
  st.userPlayerCards ++ st.userPreDeskCards ++ (st.players 1).cards ++ (st.players 2).cards ++
    (st.players 3).cards ++ cardsOf (plays st.history)

theorem perm_cards (hdeck : deck.Perm generatePokers) (h : (Run.system st₀ deck).Reach r) :
    r.page.cards.Perm generatePokers := by
  have hsum := (Run.good_of_reach hdeck h).conserved
  rw [Fin.sum_univ_four] at hsum
  exact (Multiset.coe_eq_coe.mp hsum).trans hdeck

/-- **The deck is kept**: at every moment of a game the hands, the selection and the
combinations put down so far are the 52 cards, each once; and the selection holds at
most five. -/
theorem deck_kept (hdeck : deck.Perm generatePokers) (h : (Run.system st₀ deck).Reach r) :
    r.page.cards.Perm generatePokers ∧ r.page.cards.Nodup ∧
      r.page.userPreDeskCards.length ≤ 5 := by
  have hcards := perm_cards hdeck h
  exact ⟨hcards, hcards.nodup_iff.mpr nodup_generatePokers, userPreDeskCards_le h⟩

/-- The computers have put down three straight flushes, and the human has selected two cards. -/
theorem deck_kept_bySuits : ∃ r, (Run.system .fresh bySuits).Reach r ∧
    (plays r.page.history).length = 3 ∧ r.page.userPreDeskCards.length = 2 ∧
    r.page.cards.Perm generatePokers ∧ r.page.cards.Nodup ∧
      r.page.userPreDeskCards.length ≤ 5 := by
  obtain ⟨st, hreach, hplays, hselection⟩ :=
    Page.reach_play 10 .fresh bySuits [.pass, .select 3, .select 0]
      (fun st => (plays st.history).length = 3 ∧ st.userPreDeskCards.length = 2)
      (by decide +kernel)
  exact ⟨_, hreach, hplays, hselection, deck_kept perm_bySuits hreach⟩

/-! ## the finish order and the coins -/

/-- With everybody out, the finish order lists the four seats. -/
theorem Table.Good.rank_perm {coin : Int} {t : Table} (h : t.Good deck coin)
    (hall : ∀ p, t.out p = true) : t.rank.Perm [0, 1, 2, 3] := by
  refine (List.perm_ext_iff_of_nodup h.nodup_rank (by decide)).mpr fun p => ?_
  rw [h.mem_rank, hall p]
  revert p
  decide

theorem Table.Good.rank_cons {coin : Int} {t : Table} (h : t.Good deck coin)
    (hall : ∀ p, t.out p = true) : ∃ first rest, t.rank = first :: rest := by
  cases hrank : t.rank with
  | nil =>
      have := (h.rank_perm hall).length_eq
      simp [hrank] at this
  | cons first rest => exact ⟨first, rest, rfl⟩

/-- A player is a winner exactly when he has no cards. -/
theorem Run.winned_iff (hdeck : deck.Perm generatePokers) (h : (Run.system st₀ deck).Reach r)
    (p : Fin 4) : r.page.winnedPlayer p = true ↔ r.page.hand p = [] :=
  ((Run.good_of_reach hdeck h).out_iff p).trans (Multiset.coe_eq_zero _)

theorem Run.rank_prefix (hdeck : deck.Perm generatePokers) (h : (Run.system st₀ deck).Reach r)
    {a : Option Action} {r' : Run} (hstep : Run.Step r a r') :
    r.page.winnerRank <+: r'.page.winnerRank := by
  have hgood := Run.good_of_reach hdeck h
  rcases (Run.control_of_reach h).table_step hdeck hgood hstep with heq | ⟨m, hm⟩
  · rw [show r'.page.winnerRank = r.page.winnerRank from congrArg Table.rank heq]
  · exact hm.rank_prefix

/-- With everybody out, the settlement finds a first. -/
theorem Run.settle_ok (hdeck : deck.Perm generatePokers) (h : (Run.system st₀ deck).Reach r)
    (hall : othersWinned r.page none = true) : ∃ st, settle r.page = .ok st := by
  obtain ⟨first, rest, hrank⟩ :=
    (Run.good_of_reach hdeck h).rank_cons (othersWinned_none.mp hall)
  have hrank : r.page.winnerRank = first :: rest := hrank
  simp only [settle, winnORlose, hrank, pure_eq_ok, ok_bind]
  exact ⟨_, rfl⟩

/-- The finish order and the coins at one moment of a game that `coin` was at stake
in: nobody is ranked twice; the ranked players, the winners and those without cards
are the same; the order only grows; and the settlement branch is entered once, with
all four seats ranked, where it succeeds and pays by who is the first. -/
structure Ranked (coin : Int) (r : Run) : Prop where
  nodup : r.page.winnerRank.Nodup
  winners : ∀ p, (p ∈ r.page.winnerRank ↔ r.page.winnedPlayer p = true) ∧
    (r.page.winnedPlayer p = true ↔ r.page.hand p = [])
  grows : ∀ a r', Run.Step r a r' → r.page.winnerRank <+: r'.page.winnerRank
  once : r.page.history.count .settled ≤ 1
  branch : r.playing = true → r.page.currentPlay = 0 → othersWinned r.page none = true →
    Event.settled ∉ r.page.history ∧ r.page.winnerRank.Perm [0, 1, 2, 3] ∧
      ∃ st, settle r.page = .ok st
  before : Event.settled ∉ r.page.history → r.page.userCoin = coin
  after : Event.settled ∈ r.page.history → r.page.winnerRank.Perm [0, 1, 2, 3] ∧
    ∃ first rest, r.page.winnerRank = first :: rest ∧
      r.page.userCoin = coin + if first = 0 then 50 else -30

/-- **The finish order and the settlement** are right at every moment of a game. -/
theorem ranked_and_settled (hdeck : deck.Perm generatePokers)
    (h : (Run.system st₀ deck).Reach r) : Ranked st₀.userCoin r := by
  have hgood := Run.good_of_reach hdeck h
  refine ⟨hgood.nodup_rank, fun p => ⟨hgood.mem_rank p, Run.winned_iff hdeck h p⟩,
    fun a r' hstep => Run.rank_prefix hdeck h hstep, ?_,
    fun hplaying hplay hall => ?_, fun hlive => ?_, fun hsettled => ?_⟩
  · rcases hgood.settled with ⟨hlive, -⟩ | ⟨-, -, -, before, hhistory, hbefore⟩
    · exact (List.count_eq_zero.mpr hlive).le.trans (Nat.zero_le 1)
    · have hhistory : r.page.history = .settled :: before := hhistory
      rw [hhistory, List.count_cons_self, List.count_eq_zero.mpr hbefore]
  · exact ⟨(Run.control_of_reach h).running hplaying, hgood.rank_perm (othersWinned_none.mp hall),
      Run.settle_ok hdeck h hall⟩
  · rcases hgood.settled with ⟨-, hcoin⟩ | ⟨-, -, -, before, hhistory, -⟩
    · exact hcoin
    · have hhistory : r.page.history = .settled :: before := hhistory
      rw [hhistory] at hlive
      exact absurd List.mem_cons_self hlive
  · rcases hgood.settled with ⟨hlive, -⟩ | ⟨-, hall, hcoin, -⟩
    · exact absurd hsettled hlive
    · obtain ⟨first, rest, hrank⟩ := hgood.rank_cons hall
      refine ⟨hgood.rank_perm hall, first, rest, hrank, hcoin.trans ?_⟩
      simp [Table.payoff, hrank]

/-- A game that was played out. -/
theorem ranked_and_settled_bySuits : ∃ r, (Run.system .fresh bySuits).Reach r ∧
    Event.settled ∈ r.page.history ∧ r.page.userCoin = 20 ∧ Ranked 50 r := by
  obtain ⟨st, hreach, hsettled, hcoin⟩ :=
    Page.reach_play 10 .fresh bySuits passThenSingles
      (fun st => Event.settled ∈ st.history ∧ st.userCoin = 20) (by decide +kernel)
  exact ⟨_, hreach, hsettled, hcoin, ranked_and_settled perm_bySuits hreach⟩

end IosGame
