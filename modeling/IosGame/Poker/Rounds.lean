import IosGame.Poker.Accounts

/-!
# IosGame.Poker.Rounds

`gamePlay` returns.  Between two turns of the human every computer has one turn.  A
round in which nothing is put down takes no card, but it leaves every flag set; and
when every flag is set at the start of a round, the first computer still in the game
leads freely, and a free lead puts something down.  So twice the cards left, plus one
while some flag is not set, goes down from round to round (`weight`).
-/

namespace IosGame

namespace Table

/-! ## the weight of a table -/

/-- All the cards left. -/
def left (t : Table) : Nat := (∑ p, t.hand p).card

/-- Twice the cards left, and one more while some flag is not set. -/
def weight (t : Table) : Nat := 2 * t.left + if ∀ p, t.flag p = true then 0 else 1

variable {deck : List Poker} {coin : Int} {t₀ t t' : Table}

theorem left_play {c : PokerClass} (h : t.Takes c) : (t.play c).left < t.left := by
  have hsum := congrArg Multiset.card (sum_play h)
  have hpos : 0 < c.cards.length := List.length_pos_iff.mpr (by
    have := h.shaped.isEmpty_eq_false
    simp only [PokerClass.isEmpty, Bool.or_eq_false_iff, List.isEmpty_eq_false_iff] at this
    exact this.1)
  rw [Multiset.card_add, Multiset.coe_card] at hsum
  simp only [left]
  omega

theorem Good.weight_le (h : Good deck coin t) (hdeck : deck.length = 52) : t.weight ≤ 105 := by
  have hsum := congrArg Multiset.card h.conserved
  rw [Multiset.card_add, Multiset.coe_card, Multiset.coe_card] at hsum
  simp only [weight, left]
  split <;> omega

/-! ## one round -/

/-- Seat `q` had its turn since seat 1, now that it is the turn of `p`. -/
def Before (q p : Seat) : Prop := q ≠ 0 ∧ (p = 0 ∨ q < p)

theorem before_next {q p : Seat} (hp : p ≠ 0) : Before q (p + 1) ↔ Before q p ∨ q = p := by
  unfold Before
  revert q p
  decide

/-- How far a round that started at `t₀` has come at `t`: a combination was put down;
or nothing was, those who had their turn have their flag set, and if all flags were
set at the start those are out. -/
def Round (t₀ t : Table) : Prop :=
  t.left < t₀.left ∨
    t.left = t₀.left ∧ t.out = t₀.out ∧ (∀ q, Before q t.turn → t.flag q = true) ∧
      ((∀ q, t₀.flag q = true) → (∀ q, t.flag q = true) ∧ ∀ q, Before q t.turn → t.out q = true)

theorem round_start (h : t.turn = 1) : Round t t := by
  have hnone : ∀ q, ¬ Before q t.turn := by
    rw [h]
    unfold Before
    decide
  exact .inr ⟨rfl, rfl, fun q hq => absurd hq (hnone q), fun hall =>
    ⟨hall, fun q hq => absurd hq (hnone q)⟩⟩

/-- A turn of a computer is one step of the round. -/
theorem Round.step {m : Move} (h : Round t₀ t) (hgood : Good deck coin t) (hturn : t.turn ≠ 0)
    (hstep : Step t m t') : Round t₀ t' := by
  rcases h with hplayed | ⟨hleft, hout, hflags, hall⟩
  · refine .inl ?_
    cases hstep with
    | play hin htakes => exact (left_play htakes).trans hplayed
    | decline => exact hplayed
    | give => exact hplayed
    | skip => exact hplayed
    | stay => exact hplayed
    | settle => exact hplayed
  · cases hstep with
    | play hin htakes => exact .inl (hleft ▸ left_play htakes)
    | decline hin _ hasked hclub =>
        refine .inr ⟨hleft, hout, fun q hq => ?_, fun hset => ?_⟩
        · simp only [Table.pass, Function.update_apply]
          split
          · rfl
          · rename_i hne
            exact hflags q (((before_next hturn).mp hq).resolve_right hne)
        · -- with all flags set he is asked for a free lead, and that is not declined
          refine absurd ?_ hasked
          rw [asked, othersSet_eq_true.mpr fun q _ => (hall hset).1 q, if_pos rfl]
    | give hin h0 => exact absurd h0 hturn
    | skip hskip _ =>
        refine .inr ⟨hleft, hout, fun q hq => ?_, fun hset => ⟨(hall hset).1, fun q hq => ?_⟩⟩
        · rcases (before_next hturn).mp hq with hq | rfl
          · exact hflags q hq
          · exact hgood.flag_of_out _ hskip
        · rcases (before_next hturn).mp hq with hq | rfl
          · exact (hall hset).2 q hq
          · exact hskip
    | stay _ h0 => exact absurd h0 hturn
    | settle h0 => exact absurd h0 hturn

/-- **A round takes weight**, with the human out and somebody in the game. -/
theorem Round.weight_lt (h : Round t₀ t) (hgood : Good deck coin t) (hturn : t.turn = 0)
    (hhuman : t.out 0 = true) (hsome : ∃ p, t₀.out p = false) : t.weight < t₀.weight := by
  unfold weight
  rcases h with hplayed | ⟨hleft, hout, hflags, hall⟩
  · split <;> split <;> omega
  · have hbefore : ∀ q, q ≠ 0 → Before q t.turn := fun q hq => ⟨hq, .inl hturn⟩
    have hset : ∀ q, t.flag q = true := fun q => by
      by_cases hq : q = 0
      · exact hq ▸ hgood.flag_of_out 0 hhuman
      · exact hflags q (hbefore q hq)
    have hnot : ¬ ∀ q, t₀.flag q = true := fun hset₀ => by
      obtain ⟨p, hp⟩ := hsome
      rw [← hout] at hp
      by_cases hq : p = 0
      · rw [hq, hhuman] at hp
        cases hp
      · rw [(hall hset₀).2 p (hbefore p hq)] at hp
        cases hp
    rw [if_pos hset, if_neg hnot]
    omega

end Table

/-! ## the loop of `gamePlay` -/

theorem currentPlay_computerTurn {st st' : GamePage} (h : computerTurn st = .ok st') :
    st'.currentPlay = st.currentPlay + 1 := by
  rcases computerTurn_cases h with ⟨-, rfl⟩ | ⟨-, c, last, -, ⟨-, rfl⟩ | ⟨-, rfl⟩⟩
  · rfl
  · rfl
  · unfold computerPlay
    split <;> rfl

/-- A computer's turn only fails where `ComputerPoker` traps. -/
theorem computerTurn_error {st : GamePage} {e : Halt} (h : computerTurn st = .error e) :
    e = .computerPoker .outOfRange := by
  unfold computerTurn at h
  simp only at h
  split at h
  · cases h
  · rcases bind_eq_error.mp h with h | ⟨⟨c, last⟩, -, h⟩
    · obtain ⟨t, ht, rfl⟩ := mapError_eq_error.mp h
      cases t with
      | outOfRange => rfl
      | outOfFuel => exact absurd ht (fueled_computerPoker _ _ _)
    · simp only at h
      split at h <;> cases h

theorem computerLoopBody_error {st : GamePage} {e : Halt} (h : computerLoopBody st = .error e) :
    e = .computerPoker .outOfRange := by
  unfold computerLoopBody at h
  split at h
  · rcases bind_eq_error.mp h with h | ⟨s, -, h⟩
    · exact computerTurn_error h
    · cases h
  · cases h

theorem computerLoopBody_again {st st' : GamePage} (h : computerLoopBody st = .ok (.again st')) :
    st.currentPlay ≠ 0 ∧ computerTurn st = .ok st' := by
  unfold computerLoopBody at h
  split at h
  · rename_i hplay
    obtain ⟨s, hturn, h⟩ := bind_eq_ok.mp h
    obtain rfl : s = st' := by simpa using h
    exact ⟨hplay.ne', hturn⟩
  · simp at h

/-- What the computers' turns keep holds when the loop hands the turn to the human. -/
theorem loop_turns {I : GamePage → Prop} {fuel : Nat} {st st' : GamePage}
    (hturn : ∀ s s', s.currentPlay ≠ 0 → I s → computerTurn s = .ok s' → I s')
    (h : loop .outOfFuel computerLoopBody fuel st = .ok st') (hst : I st) : I st' := by
  refine loop_invariant (I := I) (P := I) (fun s s' hs hb => ?_) (fun s s' hs hb => ?_) hst h
  · obtain ⟨hplay, hok⟩ := computerLoopBody_again hb
    exact hturn s s' hplay hs hok
  · unfold computerLoopBody at hb
    split at hb
    · obtain ⟨s'', -, hb⟩ := bind_eq_ok.mp hb
      simp at hb
    · obtain rfl : s = s' := by simpa using hb
      exact hs

/-- The loop ends within four passes: `ComputerPoker` traps in it, or it leaves. -/
theorem loop_ends {fuel : Nat} (hfuel : 4 ≤ fuel) (st : GamePage) :
    loop .outOfFuel computerLoopBody fuel st = .error (.computerPoker .outOfRange) ∨
      ∃ s, loop .outOfFuel computerLoopBody fuel st = .ok s := by
  have hends : loop .outOfFuel computerLoopBody fuel st ≠ .error .outOfFuel := by
    refine loop_ne_outOfFuel (I := fun _ => True)
      (fun s : GamePage => if s.currentPlay = 0 then 0 else 4 - s.currentPlay.val)
      (fun s s' _ hb => ⟨trivial, ?_⟩) (fun s _ hb => ?_) trivial ?_
    · obtain ⟨hplay, hturn⟩ := computerLoopBody_again hb
      rw [currentPlay_computerTurn hturn, if_neg hplay]
      generalize s.currentPlay = p at hplay
      revert p
      decide
    · cases computerLoopBody_error hb
    · split
      · omega
      · rename_i hplay
        have := Fin.val_ne_zero_iff.mpr hplay
        omega
  cases hloop : loop .outOfFuel computerLoopBody fuel st with
  | ok s => exact .inr ⟨s, rfl⟩
  | error e =>
      obtain ⟨s, -, hb⟩ := loop_fault (I := fun _ => True) (fun _ _ _ _ => trivial) trivial
        (fun he => hends (by rw [hloop, he])) hloop
      exact .inl (computerLoopBody_error hb ▸ rfl)

variable {st₀ st : GamePage} {deck : List Poker}

/-- The turns of the loop are a round. -/
theorem loop_round (hdeck : deck.Perm generatePokers) {fuel : Nat} {s : GamePage}
    (h : (Run.system st₀ deck).Reach ⟨st, true⟩) (hplay : st.currentPlay = 1)
    (hloop : loop .outOfFuel computerLoopBody fuel st = .ok s) :
    Table.Round st.table s.table := by
  refine loop_invariant
    (I := fun s => (Run.system st₀ deck).Reach ⟨s, true⟩ ∧ Table.Round st.table s.table)
    (P := fun s => Table.Round st.table s.table) (fun s s' hs hb => ?_) (fun s s' hs hb => ?_)
    ⟨h, Table.round_start hplay⟩ hloop
  · obtain ⟨hplay, hturn⟩ := computerLoopBody_again hb
    have hgood := Run.good_of_reach hdeck hs.1
    obtain ⟨m, hm⟩ := step_computerTurn hdeck hgood hplay hturn
    exact ⟨hs.1.step (.turn (Fin.pos_iff_ne_zero.mpr hplay) hturn), hs.2.step hgood hplay hm⟩
  · unfold computerLoopBody at hb
    split at hb
    · obtain ⟨s'', -, hb⟩ := bind_eq_ok.mp hb
      simp at hb
    · obtain rfl : s = s' := by simpa using hb
      exact hs.2

/-! ## `gamePlay` returns -/

/-- A longer `gamePlay` does the same, if the shorter one did not run out of fuel. -/
theorem gamePlay_mono {fuel fuel' : Nat} (hle : fuel ≤ fuel') {st : GamePage}
    (h : gamePlay fuel st ≠ .error .outOfFuel) : gamePlay fuel' st = gamePlay fuel st := by
  induction fuel generalizing fuel' st with
  | zero => simp [gamePlay] at h
  | succ fuel ih =>
      obtain ⟨k, rfl⟩ : ∃ k, fuel' = k + 1 := ⟨fuel' - 1, by omega⟩
      have hsame : loop .outOfFuel computerLoopBody (k + 1) (enterPlay st) =
          loop .outOfFuel computerLoopBody (fuel + 1) (enterPlay st) := by
        refine loop_mono (by omega) fun hloop => h ?_
        rw [gamePlay, hloop, error_bind]
      cases hloop : loop .outOfFuel computerLoopBody (fuel + 1) (enterPlay st) with
      | error e => rw [gamePlay, gamePlay, hsame, hloop, error_bind, error_bind]
      | ok s =>
          rw [gamePlay, hloop, ok_bind] at h
          rw [gamePlay, gamePlay, hsame, hloop, ok_bind, ok_bind]
          split
          · rename_i hagain
            rw [if_pos hagain] at h
            exact ih (by omega) h
          · rfl

/-- `gamePlay` returned, or `ComputerPoker` trapped. -/
def Ends (x : Except Halt GamePage) : Prop :=
  x = .error (.computerPoker .outOfRange) ∨ ∃ st', x = .ok st'

/-- Once its loop has left, `gamePlay` ends if the recursive call does. -/
theorem ends_of_loop (hdeck : deck.Perm generatePokers) {fuel : Nat} {s : GamePage}
    (h : (Run.system st₀ deck).Reach ⟨enterPlay st, true⟩)
    (hloop : loop .outOfFuel computerLoopBody (fuel + 1) (enterPlay st) = .ok s)
    (hagain : (Run.system st₀ deck).Reach ⟨enterPlay (skipUser s), true⟩ →
      s.winnedPlayer 0 = true → (∃ p, s.winnedPlayer p = false) → s.currentPlay = 0 →
      Ends (gamePlay fuel (skipUser s))) : Ends (gamePlay (fuel + 1) st) := by
  obtain ⟨hleads, hplay⟩ := Run.loop_leads st₀ deck hloop
  have hreach := hleads.reach h
  rcases gamePlay_branches hloop with ⟨hin, heq⟩ | ⟨⟨hout, hsome⟩, heq⟩ | ⟨hall, heq⟩
  · exact .inr ⟨s, heq⟩
  · rw [heq]
    have hstep : Run.Step ⟨s, true⟩ none ⟨enterPlay (skipUser s), true⟩ :=
      .again hplay hout hsome
    rw [othersWinned, ← Bool.not_eq_true, othersSet_eq_true] at hsome
    push Not at hsome
    obtain ⟨p, -, hp⟩ := hsome
    exact hagain (hreach.step hstep) hout ⟨p, Bool.eq_false_iff.mpr hp⟩ hplay
  · obtain ⟨st', hsettle⟩ := Run.settle_ok hdeck hreach hall
    exact .inr ⟨st', heq.trans hsettle⟩

/-- The rounds without the human end, each with less weight than the one before. -/
theorem ends_rounds (hdeck : deck.Perm generatePokers) {n : Nat}
    (h : (Run.system st₀ deck).Reach ⟨enterPlay st, true⟩) (hplay : st.currentPlay = 1)
    (hhuman : st.winnedPlayer 0 = true) (hsome : ∃ p, st.winnedPlayer p = false)
    (hn : st.table.weight < n) {fuel : Nat} (hfuel : n + 3 ≤ fuel) : Ends (gamePlay fuel st) := by
  induction n generalizing st fuel with
  | zero => omega
  | succ n ih =>
      obtain ⟨fuel, rfl⟩ : ∃ k, fuel = k + 1 := ⟨fuel - 1, by omega⟩
      rcases loop_ends (by omega : 4 ≤ fuel + 1) (enterPlay st) with hloop | ⟨s, hloop⟩
      · rw [gamePlay, hloop, error_bind]
        exact .inl rfl
      · refine ends_of_loop hdeck h hloop fun hreach hout hsome' hplay' => ?_
        have hround := loop_round hdeck h hplay hloop
        have hgood : s.table.Good deck st₀.userCoin :=
          Run.good_of_reach hdeck ((Run.loop_leads st₀ deck hloop).1.reach h)
        rw [table_enterPlay] at hround
        have hlt := hround.weight_lt hgood hplay' hout hsome
        refine ih hreach ?_ hout hsome' ?_ (by omega)
        · simp [skipUser, hplay']
        · have : (skipUser s).table.weight = s.table.weight := rfl
          omega

/-- The pages in which the code calls `gamePlay`: from `initialGame`, from the pass and
the confirm button, and from `gamePlay` itself while the human is out. -/
inductive Called (st₀ : GamePage) (deck : List Poker) : GamePage → Prop where
  | start {st : GamePage} (h : initialGame st₀ deck = .ok st) : Called st₀ deck st
  | pass {st : GamePage} (h : (Run.system st₀ deck).Reach ⟨st, false⟩)
      (hlive : Event.settled ∉ st.history) : Called st₀ deck (passPlay st)
  | confirm {st st' : GamePage} (h : (Run.system st₀ deck).Reach ⟨st, false⟩)
      (hlive : Event.settled ∉ st.history) (hconfirm : confirmPlay st = .ok (some st')) :
      Called st₀ deck st'
  | again {st : GamePage} (h : (Run.system st₀ deck).Reach ⟨st, true⟩)
      (hplay : st.currentPlay = 0) (hout : st.winnedPlayer 0 = true)
      (hsome : othersWinned st (some 0) = false) : Called st₀ deck (skipUser st)

theorem Called.reach (h : Called st₀ deck st) :
    (Run.system st₀ deck).Reach ⟨enterPlay st, true⟩ := by
  cases h with
  | start h => exact .init ⟨_, h, rfl⟩
  | pass h hlive => exact h.step (.pass hlive)
  | confirm h hlive hconfirm => exact h.step (.confirm hlive hconfirm)
  | again h hplay hout hsome => exact h.step (.again hplay hout hsome)

/-- A deck is used up within 106 rounds, and four passes make one. -/
theorem ends_gamePlay (hdeck : deck.Perm generatePokers) (h : Called st₀ deck st) :
    Ends (gamePlay 110 st) := by
  rcases loop_ends (by omega : 4 ≤ 109 + 1) (enterPlay st) with hloop | ⟨s, hloop⟩
  · rw [gamePlay, hloop, error_bind]
    exact .inl rfl
  · refine ends_of_loop hdeck h.reach hloop fun hreach hout hsome hplay => ?_
    have hweight := (Run.good_of_reach hdeck hreach).weight_le hdeck.length_eq
    rw [table_enterPlay] at hweight
    exact ends_rounds hdeck hreach (by simp [skipUser, hplay]) hout hsome
      (Nat.lt_succ_of_le hweight) (le_refl _)

/-- **`gamePlay` returns** wherever the code calls it, unless `ComputerPoker` traps:
with the turn back at a human who holds cards, or with the game settled. -/
theorem gamePlay_returns (hdeck : deck.Perm generatePokers) (h : Called st₀ deck st) :
    ∃ result, (∀ fuel, 110 ≤ fuel → gamePlay fuel st = result) ∧
      (result = .error (.computerPoker .outOfRange) ∨ ∃ st', result = .ok st' ∧
        (st'.currentPlay = 0 ∧ st'.winnedPlayer 0 = false ∧ st'.hand 0 ≠ [] ∨
          Event.settled ∈ st'.history)) := by
  have hends := ends_gamePlay hdeck h
  refine ⟨gamePlay 110 st, fun fuel hfuel => gamePlay_mono hfuel ?_, ?_⟩
  · rcases hends with hends | ⟨st', hends⟩ <;> simp [hends]
  · refine hends.imp_right ?_
    rintro ⟨st', hok⟩
    refine ⟨st', hok, ?_⟩
    have hreach := (Run.gamePlay_leads st₀ deck hok).reach h.reach
    obtain ⟨hplay, hin⟩ := (Run.control_of_reach hreach).back rfl
    by_cases hsettled : Event.settled ∈ st'.history
    · exact .inr hsettled
    · refine .inl ⟨hplay, hin hsettled, fun hnil => ?_⟩
      have := (Run.winned_iff hdeck hreach 0).mpr hnil
      rw [hin hsettled] at this
      cases this

/-- The deck that deals the human the spades and computer 1, who opens, the clubs. -/
def spadesFirst : List Poker := generatePokers.rotate 39

theorem perm_spadesFirst : spadesFirst.Perm generatePokers := List.rotate_perm _ _

/-- The taps of a human who puts down two straight flushes, the 7 and the 9, and selects the 8
that he has left. -/
def toTheLastCard : List Action :=
  [.select 0, .select 8, .select 8, .select 8, .select 8, .confirm,
   .select 0, .select 0, .select 0, .select 0, .select 0, .confirm,
   .select 2, .confirm, .select 0, .confirm, .select 0]

/-- The human puts his last card down, and the computers play on without him. -/
theorem gamePlay_returns_spadesFirst : ∃ st, Called .fresh spadesFirst st ∧
    st.winnerRank = [0] ∧
      ∃ result, (∀ fuel, 110 ≤ fuel → gamePlay fuel st = result) ∧
        (result = .error (.computerPoker .outOfRange) ∨ ∃ st', result = .ok st' ∧
          (st'.currentPlay = 0 ∧ st'.winnedPlayer 0 = false ∧ st'.hand 0 ≠ [] ∨
            Event.settled ∈ st'.history)) := by
  have hrun : (do
      let st ← Page.newGame 10 .fresh spadesFirst
      let st₁ ← Page.taps 10 st toTheLastCard
      let o ← confirmPlay st₁
      pure (decide (Event.settled ∉ st₁.history) && o.any fun st₂ =>
        decide (st₂.winnerRank = [0]))) = Except.ok (ε := Halt) true := by
    decide +kernel
  simp only [bind_eq_ok, pure_eq_ok, Except.ok.injEq, Bool.and_eq_true, Option.any_eq_true,
    decide_eq_true_eq] at hrun
  obtain ⟨st, hst, st₁, hst₁, o, ho, hlive, st₂, rfl, hrank⟩ := hrun
  have hcalled : Called .fresh spadesFirst st₂ :=
    .confirm (Page.reach_taps (Page.reach_newGame hst) hst₁) hlive ho
  exact ⟨st₂, hcalled, hrank, gamePlay_returns perm_spadesFirst hcalled⟩

end IosGame
