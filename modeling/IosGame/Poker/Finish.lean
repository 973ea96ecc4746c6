import IosGame.Poker.Confirm
import IosGame.Poker.Rounds

/-!
# IosGame.Poker.Finish

How long a game is.  From one turn of the human to the next the weight of the table goes
down, as it does from round to round without him (`act_weight`).

* `turns_bounded` — whatever he does, a game has no more turns of his than it has weight;
* `cautious_finishes` — if he passes, and leads one card when all the others have passed, he
  comes to the settlement, unless `ComputerPoker` traps on the way.
-/

namespace IosGame

/-! ## the human in the computers' turns -/

/-- A computer's turn leaves the flags of the others. -/
theorem flags_computerTurn {st st' : GamePage} {p : Seat} (h : computerTurn st = .ok st')
    (hne : p ≠ st.currentPlay) :
    st'.winnedPlayer p = st.winnedPlayer p ∧ st'.playersPassed p = st.playersPassed p := by
  have hupdate : ∀ (f : Seat → Bool) (b : Bool),
      Function.update f st.currentPlay b p = f p := fun f b => Function.update_of_ne hne b f
  obtain ⟨-, rfl⟩ | ⟨-, c, last, -, ⟨-, rfl⟩ | ⟨-, rfl⟩⟩ := computerTurn_cases h
  · exact ⟨rfl, rfl⟩
  · exact ⟨rfl, hupdate _ _⟩
  · simp only [computerPlay, nextPlayer]
    split
    · exact ⟨hupdate _ _, (hupdate _ _).trans (hupdate _ _)⟩
    · exact ⟨rfl, hupdate _ _⟩

/-- The computers leave the human's flags as they are. -/
theorem flags_loop {fuel : Nat} {st st' : GamePage}
    (h : loop .outOfFuel computerLoopBody fuel st = .ok st') :
    st'.winnedPlayer 0 = st.winnedPlayer 0 ∧ st'.playersPassed 0 = st.playersPassed 0 := by
  refine loop_turns (I := fun s => s.winnedPlayer 0 = st.winnedPlayer 0 ∧
    s.playersPassed 0 = st.playersPassed 0) (fun s s' hplay hs hturn => ?_) h ⟨rfl, rfl⟩
  obtain ⟨hout, hpassed⟩ := flags_computerTurn hturn hplay.symm
  exact ⟨hout.trans hs.1, hpassed.trans hs.2⟩

/-- Once the human is out, `gamePlay` goes on to the settlement. -/
theorem settled_gamePlay {fuel : Nat} {st st' : GamePage} (h : gamePlay fuel st = .ok st')
    (hout : st.winnedPlayer 0 = true) : Event.settled ∈ st'.history := by
  induction fuel generalizing st with
  | zero => cases h
  | succ fuel ih =>
      have hplay := h
      rw [gamePlay] at hplay
      obtain ⟨s, hloop, -⟩ := bind_eq_ok.mp hplay
      have hs : s.winnedPlayer 0 = true := (flags_loop hloop).1.trans hout
      obtain ⟨hin, -⟩ | ⟨-, heq⟩ | ⟨hall, heq⟩ := gamePlay_branches hloop
      · rw [hs] at hin
        cases hin
      · have hagain : gamePlay fuel (skipUser s) = .ok st' := heq.symm.trans h
        exact ih hagain hs
      · rw [heq] at h
        simp only [settle, bind_eq_ok, pure_eq_ok, Except.ok.injEq] at h
        obtain ⟨won, -, rfl⟩ := h
        exact List.mem_cons_self

/-- While he is in the game, `gamePlay` is its loop. -/
theorem loop_of_gamePlay {fuel : Nat} {st st' : GamePage} (h : gamePlay fuel st = .ok st')
    (hin : st.winnedPlayer 0 = false) :
    ∃ fuel', loop .outOfFuel computerLoopBody fuel' (enterPlay st) = .ok st' := by
  cases fuel with
  | zero => cases h
  | succ fuel =>
      have hplay := h
      rw [gamePlay] at hplay
      obtain ⟨s, hloop, -⟩ := bind_eq_ok.mp hplay
      have hs : s.winnedPlayer 0 = false := (flags_loop hloop).1.trans hin
      obtain ⟨-, heq⟩ | ⟨⟨hout, -⟩, -⟩ | ⟨hall, -⟩ := gamePlay_branches hloop
      · rw [heq, Except.ok.injEq] at h
        exact ⟨fuel + 1, h ▸ hloop⟩
      · rw [hs] at hout
        cases hout
      · have hout := othersWinned_none.mp hall 0
        rw [hs] at hout
        cases hout

/-- While the human is in the game, `gamePlay` does not settle it. -/
theorem live_gamePlay {fuel : Nat} {st st' : GamePage} (h : gamePlay fuel st = .ok st')
    (hin : st.winnedPlayer 0 = false) (hlive : Event.settled ∉ st.history) :
    Event.settled ∉ st'.history := by
  obtain ⟨fuel', hloop⟩ := loop_of_gamePlay h hin
  refine loop_turns (I := fun s => Event.settled ∉ s.history) (fun s s' _ hs hturn => ?_) hloop
    hlive
  rwa [settled_computerTurn hturn]

/-! ## from one turn of the human to the next -/

namespace Table

variable {t₀ t : Table}

/-- A combination less outweighs any flag. -/
theorem weight_lt_of_left (h : t.left < t₀.left) : t.weight < t₀.weight := by
  unfold weight
  split <;> split <;> omega

/-- The human passed, and a round came back to him in which nothing was put down: the flags
are all set, and if they were before, the others are out. -/
theorem Round.passed (h : Round (t₀.pass 2) t) (hturn : t.turn = 0) (hflag : t.flag 0 = true) :
    t.left < t₀.left ∨ t.left = t₀.left ∧ (∀ q, t.flag q = true) ∧
      ((∀ q, t₀.flag q = true) → ∀ q ≠ 0, t₀.out q = true) := by
  obtain hplayed | ⟨hleft, hout, hflags, hall⟩ := h
  · exact .inl hplayed
  · have hset : ∀ q, t.flag q = true := fun q => by
      by_cases hq : q = 0
      · exact hq ▸ hflag
      · exact hflags q ⟨hq, .inl hturn⟩
    refine .inr ⟨hleft, hset, fun hset₀ q hq => ?_⟩
    have hpass : ∀ p, (t₀.pass 2).flag p = true := fun p => by
      simp only [Table.pass, Function.update_apply]
      split
      · rfl
      · exact hset₀ p
    have houtq := (hall hpass).2 q ⟨hq, .inl hturn⟩
    rwa [hout] at houtq

/-- A pass takes weight, unless the human is alone and has passed before. -/
theorem Round.weight_pass (h : Round (t₀.pass 2) t) (hturn : t.turn = 0)
    (hflag : t.flag 0 = true) (hasked : (∃ p, t₀.flag p = false) ∨ ∃ p ≠ 0, t₀.out p = false) :
    t.weight < t₀.weight := by
  obtain hplayed | ⟨hleft, hset, hall⟩ := h.passed hturn hflag
  · exact weight_lt_of_left hplayed
  · have hnot : ¬ ∀ q, t₀.flag q = true := by
      intro hset₀
      obtain ⟨p, hp⟩ | ⟨p, hp, hin⟩ := hasked
      · rw [hset₀ p] at hp
        cases hp
      · rw [hall hset₀ p hp] at hin
        cases hin
    unfold weight
    rw [if_pos hset, if_neg hnot]
    omega

theorem Round.weight_le (h : Round (t₀.pass 2) t) (hturn : t.turn = 0)
    (hflag : t.flag 0 = true) : t.weight ≤ t₀.weight := by
  obtain hplayed | ⟨hleft, hset, -⟩ := h.passed hturn hflag
  · exact (weight_lt_of_left hplayed).le
  · unfold weight
    rw [if_pos hset]
    split <;> omega

/-- The human put a combination down. -/
theorem Round.weight_play {c : PokerClass} (h : Round (t₀.play c) t) (htakes : t₀.Takes c) :
    t.weight < t₀.weight := by
  refine weight_lt_of_left (lt_of_le_of_lt ?_ (left_play htakes))
  obtain hplayed | ⟨hleft, -⟩ := h
  · exact hplayed.le
  · exact hleft.le

end Table

/-! ## whatever the human does -/

namespace Page

/-- A tap takes a turn: it puts a combination down, or passes, except where the human is alone
in the game and has passed before. -/
def takesTurn (st : GamePage) : Action → Bool
  | .pass => !(othersWinned st (some 0) && st.playersPassed 0)
  | .confirm => match confirmPlay st with
      | .ok (some _) => true
      | _ => false
  | _ => false

/-- A pass takes a turn while one of the others has not passed. -/
theorem takesTurn_pass {st : GamePage} {deck : List Poker} {coin : Int}
    (hgood : st.table.Good deck coin) (hothers : othersPassed st 0 = false) :
    takesTurn st .pass = true := by
  obtain ⟨p, hp, hpassed⟩ := othersSet_eq_false.mp hothers
  have hsome : othersWinned st (some 0) = false := by
    refine othersSet_eq_false.mpr ⟨p, hp, Bool.eq_false_iff.mpr fun hout => ?_⟩
    have hset : st.playersPassed p = true := hgood.flag_of_out p hout
    rw [hpassed] at hset
    cases hset
  rw [takesTurn, hsome]
  rfl

/-- What `gamePlay` leaves of a round that began after the human's turn. -/
theorem round_of_gamePlay {st₀ st st' : GamePage} {deck : List Poker} {fuel : Nat}
    (hdeck : deck.Perm generatePokers) (h : Called st₀ deck st) (hplay : st.currentPlay = 1)
    (hok : gamePlay fuel st = .ok st') :
    Event.settled ∈ st'.history ∨
      Table.Round st.table st'.table ∧ st'.playersPassed 0 = st.playersPassed 0 := by
  cases hout : st.winnedPlayer 0 with
  | true => exact .inl (settled_gamePlay hok hout)
  | false =>
      obtain ⟨fuel', hloop⟩ := loop_of_gamePlay hok hout
      have hround := loop_round hdeck h.reach hplay hloop
      rw [table_enterPlay] at hround
      exact .inr ⟨hround, (flags_loop hloop).2⟩

/-- **A turn takes weight**, or ends the game, and no tap gives any. -/
theorem act_weight {st₀ st st' : GamePage} {deck : List Poker} {fuel : Nat} {a : Action}
    (hdeck : deck.Perm generatePokers) (h : (Run.system st₀ deck).Reach ⟨st, false⟩)
    (hlive : Event.settled ∉ st.history) (hact : act fuel st a = .ok st') :
    Event.settled ∈ st'.history ∨
      (takesTurn st a).toNat + st'.table.weight ≤ st.table.weight := by
  have hgood : st.table.Good deck st₀.userCoin := Run.good_of_reach hdeck h
  have hplay : st.currentPlay = 0 := ((Run.control_of_reach h).back rfl).1
  have hin : st.winnedPlayer 0 = false := ((Run.control_of_reach h).back rfl).2 hlive
  have hback : st'.currentPlay = 0 := ((Run.control_of_reach (reach_act h hlive hact)).back rfl).1
  cases a with
  | select index =>
      obtain rfl : select st index = st' := by simpa [act] using hact
      exact .inr (by simp [takesTurn])
  | deselect index =>
      obtain rfl : deselect st index = st' := by simpa [act] using hact
      exact .inr (by simp [takesTurn])
  | pass =>
      have hturn : (passPlay st).currentPlay = 1 := by simp [passPlay, nextPlayer, passTurn, hplay]
      have hset : (passPlay st).playersPassed 0 = true := by
        simp [passPlay, nextPlayer, passTurn, hplay]
      refine (round_of_gamePlay hdeck (.pass h hlive) hturn hact).imp_right ?_
      rintro ⟨hround, hflag⟩
      rw [table_passPlay] at hround
      have hflag : st'.table.flag 0 = true := hflag.trans hset
      cases hasked : othersWinned st (some 0) && st.playersPassed 0 with
      | true => simpa [takesTurn, hasked] using hround.weight_le hback hflag
      | false =>
          have hlt := hround.weight_pass hback hflag ?_
          · simp only [takesTurn, hasked, Bool.not_false, Bool.toNat_true]
            omega
          · rcases Bool.and_eq_false_iff.mp hasked with hsome | hpassed
            · exact .inr (othersSet_eq_false.mp hsome)
            · exact .inl ⟨0, hpassed⟩
  | confirm =>
      obtain ⟨o, hconfirm, hact⟩ := bind_eq_ok.mp hact
      cases o with
      | none =>
          obtain rfl : rejectConfirm st = st' := by simpa using hact
          rw [table_rejectConfirm hdeck hgood hconfirm]
          exact .inr (by simp [takesTurn, hconfirm])
      | some st₁ =>
          obtain ⟨c, htable, htakes⟩ := table_confirmPlay hdeck hgood hplay hin hconfirm
          have hturn : st₁.currentPlay = 1 := by
            have hnext : st₁.currentPlay = st.currentPlay + 1 := congrArg Table.turn htable
            rw [hnext, hplay, zero_add]
          refine (round_of_gamePlay hdeck (.confirm h hlive hconfirm) hturn hact).imp_right ?_
          rintro ⟨hround, -⟩
          rw [htable] at hround
          have hlt := hround.weight_play htakes
          simp only [takesTurn, hconfirm, Bool.toNat_true]
          omega

/-- The turns that a sequence of taps takes, until the game is settled. -/
def turnsTaken (fuel : Nat) (st : GamePage) : List Action → Nat
  | [] => 0
  | a :: actions =>
      if Event.settled ∈ st.history then 0
      else (takesTurn st a).toNat + match act fuel st a with
        | .ok st' => turnsTaken fuel st' actions
        | .error _ => 0

theorem turnsTaken_le {st₀ st : GamePage} {deck : List Poker} {fuel : Nat}
    (hdeck : deck.Perm generatePokers) (h : (Run.system st₀ deck).Reach ⟨st, false⟩)
    (actions : List Action) : turnsTaken fuel st actions ≤ st.table.weight + 1 := by
  induction actions generalizing st with
  | nil => exact Nat.zero_le _
  | cons a actions ih =>
      rw [turnsTaken]
      split
      · exact Nat.zero_le _
      rename_i hlive
      have hone : (takesTurn st a).toNat ≤ 1 := Bool.toNat_le _
      split
      · rename_i st' hact
        obtain hover | hle := act_weight hdeck h hlive hact
        · have hnone : turnsTaken fuel st' actions = 0 := by
            cases actions with
            | nil => rfl
            | cons b actions => rw [turnsTaken, if_pos hover]
          omega
        · have hrest := ih (reach_act h hlive hact)
          omega
      · omega

/-- **No game is longer than 106 turns of the human**, whatever he does, the passes apart that he
makes alone in the game and after another pass. -/
theorem turns_bounded {st₀ st : GamePage} {deck : List Poker}
    (hdeck : deck.Perm generatePokers) (h : (Run.system st₀ deck).Reach ⟨st, false⟩) (fuel : Nat)
    (actions : List Action) : turnsTaken fuel st actions ≤ 106 := by
  have hweight : st.table.weight ≤ 105 := (Run.good_of_reach hdeck h).weight_le hdeck.length_eq
  have hle : turnsTaken fuel st actions ≤ st.table.weight + 1 := turnsTaken_le hdeck h actions
  omega

theorem turns_bounded_bySuits : ∃ st, (Run.system .fresh bySuits).Reach ⟨st, false⟩ ∧
    turnsTaken 10 st [.pass, .select 0, .confirm, .pass] = 2 ∧
      turnsTaken 10 st [.pass, .select 0, .confirm, .pass] ≤ 106 := by
  obtain ⟨st, hreach, hturns⟩ :=
    reach_play 10 .fresh bySuits []
      (fun st => turnsTaken 10 st [.pass, .select 0, .confirm, .pass] = 2) (by decide +kernel)
  exact ⟨st, hreach, hturns, turns_bounded perm_bySuits hreach 10 _⟩

/-! ## a free lead of one card -/

/-- Deselecting empties the selection, and changes nothing at the table. -/
theorem taps_deselect (fuel : Nat) {st₀ st : GamePage} {deck : List Poker}
    (hdeck : deck.Perm generatePokers) (h : (Run.system st₀ deck).Reach ⟨st, false⟩)
    (hlive : Event.settled ∉ st.history) (rest : List Action) :
    ∃ st', (Run.system st₀ deck).Reach ⟨st', false⟩ ∧ st'.table = st.table ∧
      st'.userPreDeskCards = [] ∧
      taps fuel st (List.replicate st.userPreDeskCards.length (.deselect 0) ++ rest) =
        taps fuel st' rest := by
  generalize hn : st.userPreDeskCards.length = n
  induction n generalizing st with
  | zero => exact ⟨st, h, rfl, List.eq_nil_of_length_eq_zero hn, rfl⟩
  | succ n ih =>
      obtain ⟨card, cards, hcards⟩ := List.exists_cons_of_length_eq_add_one hn
      have hroom : st.userPreDeskCards.length < 6 :=
        Nat.lt_succ_of_le (userPreDeskCards_le h)
      have hhand : st.userPlayerCards.length < 13 := by
        have hle := Multiset.card_le_card ((Run.good_of_reach hdeck h).dealt_le 0)
        have hlen : (st.userPlayerCards ++ st.userPreDeskCards).length ≤ (dealt deck 0).length :=
          hle
        rw [length_dealt hdeck.length_eq, List.length_append] at hlen
        omega
      have hstep := h.step (.deselect 0 hlive)
      have hselection : (deselect st 0).userPreDeskCards.length = n := by
        simp only [deselect, hcards, List.getElem?_cons_zero]
        rw [if_pos ⟨by simp, by rw [← hcards]; exact hroom, hhand⟩]
        simpa [hcards] using hn
      have hlive' : Event.settled ∉ (deselect st 0).history := by
        have hhistory : (deselect st 0).history = st.history :=
          congrArg Table.history (table_deselect st 0)
        rwa [hhistory]
      obtain ⟨st', hreach, htable, hnil, htaps⟩ := ih hstep hlive' hselection
      refine ⟨st', hreach, htable.trans (table_deselect st 0), hnil, ?_⟩
      rw [List.replicate_succ, List.cons_append, taps, if_neg hlive]
      exact htaps

/-- One card is a combination to lead with. -/
theorem computerPoker_card {card : Poker} (hcard : card ∈ generatePokers) (desk : PokerClass) :
    ∃ c last, computerPoker [card] desk 1 = .ok (c, last) ∧ c.isEmpty = false := by
  have hdeck : DeckCards [card] := ⟨List.nodup_singleton _, by simpa using hcard⟩
  obtain ⟨k, hout⟩ := exists_out_of_few hdeck (by simp)
  have hne : sortedBy PokerClass.lt k.out ≠ [] := by
    intro hnil
    have hperm := perm_classingPokers hout
    have hnil : k.out = [] := by
      rw [← List.length_eq_zero_iff, ← length_sortedBy PokerClass.lt, hnil, List.length_nil]
    rw [hnil] at hperm
    exact absurd hperm.length_eq (by simp)
  have hlast : lastOf (sortedBy PokerClass.lt k.out) =
      .ok ((sortedBy PokerClass.lt k.out).getLast hne) :=
    lastOf_eq_ok.mpr (List.getLast?_eq_some_getLast hne)
  have hcomputer : computerPoker [card] desk 1 =
      .ok ((sortedBy PokerClass.lt k.out).getLast hne,
        removePlayed [card] ((sortedBy PokerClass.lt k.out).getLast hne).cards) := by
    rw [computerPoker, hout, ok_bind, selectClass, hlast]
    rfl
  have hproper : Proper [card] := proper_generatePokers.subset (by simpa using hcard)
  obtain ⟨-, -, hact, -⟩ | ⟨hfull, -⟩ := computerPoker_cases hproper hcomputer
  · exact absurd rfl hact
  · exact ⟨_, _, hcomputer, hfull⟩

/-- The human selects one card and confirms, when all the others have passed. -/
theorem confirm_select {st₀ st : GamePage} {deck : List Poker}
    (hdeck : deck.Perm generatePokers) (h : (Run.system st₀ deck).Reach ⟨st, false⟩)
    (hlive : Event.settled ∉ st.history) (hnil : st.userPreDeskCards = [])
    (hothers : othersPassed st 0 = true) :
    ∃ st', confirmPlay (select st 0) = .ok (some st') := by
  have hgood := Run.good_of_reach hdeck h
  obtain ⟨hplay, hin⟩ := (Run.control_of_reach h).back rfl
  have hin := hin hlive
  have hhand : st.hand 0 = st.userPlayerCards := by
    rw [GamePage.hand, if_pos rfl, hnil, List.append_nil]
  obtain ⟨card, cards, hcards⟩ : ∃ card cards, st.userPlayerCards = card :: cards := by
    refine List.exists_cons_of_ne_nil fun hempty => ?_
    have hout := (Run.winned_iff hdeck h 0).mpr (hhand.trans hempty)
    rw [hin] at hout
    cases hout
  have hselection : (select st 0).userPreDeskCards = [card] := by
    simp only [select, hcards, hnil, List.getElem?_cons_zero]
    rw [if_pos ⟨by simp, by simp⟩]
    rfl
  have hcard : card ∈ generatePokers := by
    have hmem : card ∈ st.hand 0 := by rw [hhand, hcards]; exact List.mem_cons_self
    have hdealt := (Multiset.coe_le.mp (hgood.dealt_le 0)).subset hmem
    exact hdeck.subset (dealt_subset deck 0 hdealt)
  have hturn : (select st 0).currentPlay = 0 :=
    (congrArg Table.turn (table_select st 0)).trans hplay
  have hact : callAct (select st 0) = 1 := by
    have hflags : (select st 0).playersPassed = st.playersPassed :=
      congrArg Table.flag (table_select st 0)
    rw [callAct, othersPassed, hturn, hflags]
    exact if_pos hothers
  obtain ⟨c, last, hcomputer, hfull⟩ := computerPoker_card hcard (select st 0).desk.desk
  refine ⟨userPlay (select st 0) c, ?_⟩
  rw [confirmPlay_eq (by simp [hselection]) (by rw [hselection, hact]; exact hcomputer), hfull]
  rfl

/-! ## to the end of a game -/

/-- The human passes; when all the others have passed, he leads one card. -/
def cautious (st : GamePage) : List Action :=
  if othersPassed st 0 then
    List.replicate st.userPreDeskCards.length (.deselect 0) ++ [.select 0, .confirm]
  else [.pass]

/-- Turns of a human who is cautious, until the game is settled. -/
def playOn (fuel : Nat) : Nat → GamePage → Except Halt GamePage
  | 0, st => pure st
  | n + 1, st => do playOn fuel n (← taps fuel st (cautious st))

theorem cautious_ne_nil (st : GamePage) : cautious st ≠ [] := by
  unfold cautious
  split <;> simp

theorem taps_single {fuel : Nat} {st : GamePage} (hlive : Event.settled ∉ st.history) (a : Action) :
    taps fuel st [a] = act fuel st a := by
  rw [taps, if_neg hlive]
  cases act fuel st a <;> rfl

/-- A tap that calls `gamePlay` returns, or `ComputerPoker` traps. -/
theorem ends_called {st₀ st : GamePage} {deck : List Poker} {fuel : Nat}
    (hdeck : deck.Perm generatePokers) (h : Called st₀ deck st) (hfuel : 110 ≤ fuel) :
    Ends (gamePlay fuel st) := by
  have hends := ends_gamePlay hdeck h
  rwa [gamePlay_mono hfuel (by obtain hends | ⟨st', hends⟩ := hends <;> simp [hends])]

/-- **A turn of the cautious human takes weight**, or ends the game. -/
theorem taps_cautious {st₀ st : GamePage} {deck : List Poker} {fuel : Nat}
    (hdeck : deck.Perm generatePokers) (h : (Run.system st₀ deck).Reach ⟨st, false⟩)
    (hlive : Event.settled ∉ st.history) (hfuel : 110 ≤ fuel) :
    taps fuel st (cautious st) = .error (.computerPoker .outOfRange) ∨
      ∃ st', taps fuel st (cautious st) = .ok st' ∧ (Run.system st₀ deck).Reach ⟨st', false⟩ ∧
        (Event.settled ∈ st'.history ∨ st'.table.weight < st.table.weight) := by
  have hgood : st.table.Good deck st₀.userCoin := Run.good_of_reach hdeck h
  -- his last tap takes a turn, and the taps before it leave the table
  have hlast : ∀ t a, (Run.system st₀ deck).Reach ⟨t, false⟩ → t.table = st.table →
      takesTurn t a = true → Ends (act fuel t a) → taps fuel st (cautious st) = act fuel t a →
      taps fuel st (cautious st) = .error (.computerPoker .outOfRange) ∨
        ∃ st', taps fuel st (cautious st) = .ok st' ∧
          (Run.system st₀ deck).Reach ⟨st', false⟩ ∧
          (Event.settled ∈ st'.history ∨ st'.table.weight < st.table.weight) := by
    intro t a hreach htable hturn hends heq
    have hhistory : t.history = st.history := congrArg Table.history htable
    have hlive' : Event.settled ∉ t.history := hhistory ▸ hlive
    rw [heq]
    refine hends.imp_right ?_
    rintro ⟨st', hok⟩
    refine ⟨st', hok, reach_act hreach hlive' hok, ?_⟩
    refine (act_weight hdeck hreach hlive' hok).imp_right fun hle => ?_
    rw [hturn, Bool.toNat_true, htable] at hle
    omega
  cases hothers : othersPassed st 0 with
  | false =>
      refine hlast st .pass h rfl (takesTurn_pass hgood hothers)
        (ends_called hdeck (.pass h hlive) hfuel) ?_
      rw [cautious, hothers, if_neg (by simp), taps_single hlive]
  | true =>
      obtain ⟨st', hreach, htable, hnil, htaps⟩ :=
        taps_deselect fuel hdeck h hlive [.select 0, .confirm]
      have hhistory : st'.history = st.history := congrArg Table.history htable
      have hlive' : Event.settled ∉ st'.history := hhistory ▸ hlive
      have hothers' : othersPassed st' 0 = true := by
        have hflags : st'.playersPassed = st.playersPassed := congrArg Table.flag htable
        rw [othersPassed, hflags]
        exact hothers
      obtain ⟨st'', hconfirm⟩ := confirm_select hdeck hreach hlive' hnil hothers'
      have hselect := hreach.step (.select 0 hlive')
      have hlive'' : Event.settled ∉ (select st' 0).history := by
        have hhistory : (select st' 0).history = st'.history :=
          congrArg Table.history (table_select st' 0)
        rwa [hhistory]
      refine hlast (select st' 0) .confirm hselect ((table_select st' 0).trans htable)
        (by rw [takesTurn, hconfirm]) ?_ ?_
      · rw [act, hconfirm, ok_bind]
        exact ends_called hdeck (.confirm hselect hlive'' hconfirm) hfuel
      · rw [cautious, hothers, if_pos rfl, htaps, taps, if_neg hlive', act, pure_eq_ok, ok_bind,
          taps_single hlive'']

/-- A settled game takes no taps. -/
theorem playOn_settled {fuel : Nat} {st : GamePage} (hover : Event.settled ∈ st.history) (n : Nat) :
    playOn fuel n st = .ok st := by
  induction n with
  | zero => rfl
  | succ n ih =>
      obtain ⟨a, actions, hactions⟩ := List.exists_cons_of_ne_nil (cautious_ne_nil st)
      rw [playOn, hactions, taps, if_pos hover, pure_eq_ok, ok_bind]
      exact ih

theorem playOn_ends {st₀ st : GamePage} {deck : List Poker} {fuel n : Nat}
    (hdeck : deck.Perm generatePokers) (h : (Run.system st₀ deck).Reach ⟨st, false⟩)
    (hfuel : 110 ≤ fuel) (hn : st.table.weight < n) :
    playOn fuel n st = .error (.computerPoker .outOfRange) ∨
      ∃ st', playOn fuel n st = .ok st' ∧ Event.settled ∈ st'.history := by
  induction n generalizing st with
  | zero => omega
  | succ n ih =>
      by_cases hover : Event.settled ∈ st.history
      · exact .inr ⟨st, playOn_settled hover _, hover⟩
      obtain htrap | ⟨st', hok, hreach, hend⟩ := taps_cautious hdeck h hover hfuel
      · exact .inl (by rw [playOn, htrap, error_bind])
      rw [playOn, hok, ok_bind]
      obtain hover' | hlt := hend
      · exact .inr ⟨st', playOn_settled hover' _, hover'⟩
      · exact ih hreach (by omega)

/-- **Every game can be brought to its end**: from any moment of any game 106 turns of a
cautious human come to the settlement, unless `ComputerPoker` traps. -/
theorem cautious_finishes {st₀ st : GamePage} {deck : List Poker}
    (hdeck : deck.Perm generatePokers) (h : (Run.system st₀ deck).Reach ⟨st, false⟩) {fuel : Nat}
    (hfuel : 110 ≤ fuel) :
    playOn fuel 106 st = .error (.computerPoker .outOfRange) ∨
      ∃ st', playOn fuel 106 st = .ok st' ∧ Event.settled ∈ st'.history :=
  playOn_ends hdeck h hfuel
    (Nat.lt_succ_of_le ((Run.good_of_reach hdeck h).weight_le hdeck.length_eq))

theorem cautious_finishes_bySuits : ∃ st, (Run.system .fresh bySuits).Reach ⟨st, false⟩ ∧
    st.userPreDeskCards.length = 2 ∧ Event.settled ∉ st.history ∧
      (playOn 110 106 st = .error (.computerPoker .outOfRange) ∨
        ∃ st', playOn 110 106 st = .ok st' ∧ Event.settled ∈ st'.history) := by
  obtain ⟨st, hreach, hselection, hlive⟩ :=
    reach_play 10 .fresh bySuits [.pass, .select 3, .select 0]
      (fun st => st.userPreDeskCards.length = 2 ∧ Event.settled ∉ st.history) (by decide +kernel)
  exact ⟨st, hreach, hselection, hlive, cautious_finishes perm_bySuits hreach le_rfl⟩

end Page

end IosGame
