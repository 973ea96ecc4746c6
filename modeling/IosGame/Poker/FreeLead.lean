import IosGame.Poker.Accounts

/-!
# IosGame.Poker.FreeLead

When a free lead is given.  The flags are those of each player's latest turn, and one
who runs out of cards is flagged too: so after a player finished, flags from before
his last combination can pass for answers to it (`free_lead_too_early`).

The flag that decides is that of the last player, in turn order, before the one who
finished: while it is not set nobody leads freely, and when his turn comes all the
others were asked.  `free_lead_declined` proves that this is enough.
-/

namespace IosGame

/-- The players who passed since the latest combination was put down. -/
def passedSince : List Event → List Seat
  | .passed p :: history => p :: passedSince history
  | _ => []

/-- The last player in the game, in turn order, before `p`. -/
def lastOther (out : Seat → Bool) (p : Seat) : Option Seat :=
  [p + 3, p + 2, p + 1].find? fun q => !out q

/-- At least two other players are in the game, and the last of them before `p` is
flagged: he passed in his latest turn. -/
def StaleFlag (flag out : Seat → Bool) (p : Seat) : Prop :=
  ∃ w, lastOther out p = some w ∧ flag w = true ∧ ∃ q, q ≠ p ∧ q ≠ w ∧ out q = false

theorem lastOther_eq_some {out : Seat → Bool} {p w : Seat} (h : lastOther out p = some w) :
    w ≠ p ∧ out w = false ∧ ∀ q, q ≠ p → out q = false → wait p q ≤ wait p w := by
  have hout : out w = false := by simpa using List.find?_some h
  obtain ⟨ne1, ne2, ne3⟩ := after_ne p
  have h1 := wait_next p
  have h2 := wait_two p
  have h3 := wait_three p
  unfold lastOther at h
  cases hp3 : out (p + 3) with
  | false =>
      obtain rfl : p + 3 = w := by simpa [hp3] using h
      exact ⟨ne3, hout, fun q hq _ => by rcases eq_after hq with rfl | rfl | rfl <;> omega⟩
  | true =>
      cases hp2 : out (p + 2) with
      | false =>
          obtain rfl : p + 2 = w := by simpa [hp3, hp2] using h
          refine ⟨ne2, hout, fun q hq hin => ?_⟩
          rcases eq_after hq with rfl | rfl | rfl
          · omega
          · omega
          · simp [hp3] at hin
      | true =>
          cases hp1 : out (p + 1) with
          | false =>
              obtain rfl : p + 1 = w := by simpa [hp3, hp2, hp1] using h
              refine ⟨ne1, hout, fun q hq hin => ?_⟩
              rcases eq_after hq with rfl | rfl | rfl
              · omega
              · simp [hp2] at hin
              · simp [hp3] at hin
          | true => simp [hp3, hp2, hp1] at h

theorem lastOther_eq_none {out : Seat → Bool} {p q : Seat} (h : lastOther out p = none)
    (hq : q ≠ p) : out q = true := by
  have := List.find?_eq_none.mp h q (by
    rcases eq_after hq with rfl | rfl | rfl <;> simp)
  simpa using this

namespace Table

variable {deck : List Poker} {coin : Int} {t t' : Table}

/-! ## who was asked -/

/-- Every player in the game passed since the latest combination. -/
def Declined (t : Table) : Prop := ∀ q, t.out q = false → q ∈ passedSince t.history

/-- The players in the game are being asked, in turn order from the one after `o`: those
before the player to move passed, and the last one, `w`, is not flagged or alone. -/
structure Asking (t : Table) (o w : Seat) : Prop where
  inGame : t.out w = false
  last : ∀ q, t.out q = false → wait o q ≤ wait o w
  turn_le : wait o t.turn ≤ wait o w
  passed : ∀ q, t.out q = false → wait o q < wait o t.turn → q ∈ passedSince t.history
  flag : t.flag w = false ∨ ∀ q, t.out q = false → q = w

/-- The state of the trick: nothing put down yet, or everybody passed, or the players
are being asked. -/
def Answers (t : Table) : Prop :=
  plays t.history = [] ∨ t.Declined ∨ ∃ o w, t.Asking o w

/-- A move is fair if nobody runs out of cards in it, or no flag is stale. -/
def Fair (t : Table) (_ : Move) (t' : Table) : Prop :=
  t'.rank = t.rank ∨ ¬ StaleFlag t.flag t.out t.turn

theorem answers_play {c : PokerClass}
    (hfair : (t.play c).rank = t.rank ∨ ¬ StaleFlag t.flag t.out t.turn) :
    (t.play c).Answers := by
  by_cases hrest : t.hand t.turn - ↑c.cards = 0
  · -- the player is out: the last of the others keeps the trick open
    have hout : ∀ q, (t.play c).out q = false → q ≠ t.turn ∧ t.out q = false := by
      intro q hq
      simp only [Table.play, hrest, decide_true, Function.update_apply] at hq
      split at hq
      · cases hq
      · exact ⟨‹_›, hq⟩
    cases hlast : lastOther t.out t.turn with
    | none =>
        refine .inr (.inl fun q hq => ?_)
        obtain ⟨hne, hin'⟩ := hout q hq
        rw [lastOther_eq_none hlast hne] at hin'
        cases hin'
    | some w =>
        obtain ⟨hne, hw, hle⟩ := lastOther_eq_some hlast
        refine .inr (.inr ⟨t.turn, w, ?_, fun q hq => ?_, ?_, fun q _ hlt => ?_, ?_⟩)
        · simp [Table.play, Function.update_of_ne hne, hw]
        · exact hle q (hout q hq).1 (hout q hq).2
        · simp [Table.play, wait_next]
        · simp [Table.play, wait_next] at hlt
        · have hstale : ¬ StaleFlag t.flag t.out t.turn := hfair.resolve_left (by
            simp [Table.play, hrest])
          have hflag : (t.play c).flag w = t.flag w := Function.update_of_ne hne _ _
          rw [hflag, ← Bool.not_eq_true, ← imp_iff_not_or]
          intro hset q hq
          by_contra hother
          exact hstale ⟨w, hlast, hset, q, (hout q hq).1, hother, (hout q hq).2⟩
  · refine .inr (.inr ⟨t.turn, t.turn, ?_, fun q hq => ?_, ?_, fun q _ hlt => ?_, .inl ?_⟩)
    · simp [Table.play, hrest]
    · rw [wait_self]
      exact wait_le _ _
    · simp [Table.play, wait_next]
    · simp [Table.play, wait_next] at hlt
    · simp [Table.play, hrest]

/-- The turn goes on to the next player who is asked. -/
theorem Asking.next {o w : Seat} (h : t.Asking o w) (hturn : t.turn ≠ w) :
    wait o (t.turn + 1) = wait o t.turn + 1 ∧ wait o t.turn + 1 ≤ wait o w := by
  have hlt := wait_lt h.turn_le hturn
  have hle := wait_le o w
  exact ⟨wait_succ (by omega), hlt⟩

theorem Asking.pass {o w : Seat} (h : t.Asking o w) (act : Nat) :
    (t.pass act).Declined ∨ (t.pass act).Asking o w := by
  by_cases hturn : t.turn = w
  · -- the last one passes
    refine .inl fun q hq => ?_
    by_cases hqt : q = t.turn
    · exact hqt ▸ List.mem_cons_self
    · exact List.mem_cons_of_mem _ (h.passed q hq (wait_lt (hturn ▸ h.last q hq) hqt))
  · obtain ⟨hnext, hle⟩ := h.next hturn
    refine .inr ⟨h.inGame, h.last, hnext ▸ hle, fun q hq hlt => ?_, ?_⟩
    · by_cases hqt : q = t.turn
      · exact hqt ▸ List.mem_cons_self
      · simp only [Table.pass, hnext] at hlt
        exact List.mem_cons_of_mem _ (h.passed q hq (wait_lt (by omega) hqt))
    · simpa [Table.pass, Function.update_of_ne (Ne.symm hturn)] using h.flag

theorem Asking.skip {o w : Seat} (h : t.Asking o w) (hout : t.out t.turn = true) (act : Nat) :
    (t.skip act).Asking o w := by
  have hne : ∀ q, t.out q = false → q ≠ t.turn := fun q hq heq => by
    rw [heq, hout] at hq
    cases hq
  obtain ⟨hnext, hle⟩ := h.next (hne w h.inGame).symm
  refine ⟨h.inGame, h.last, hnext ▸ hle, fun q hq hlt => ?_, h.flag⟩
  simp only [Table.skip, hnext] at hlt
  exact h.passed q hq (wait_lt (by omega) (hne q hq))

theorem Answers.pass (h : t.Answers) (act : Nat) : (t.pass act).Answers := by
  rcases h with hnone | hall | ⟨o, w, hasking⟩
  · exact .inl hnone
  · exact .inr (.inl fun q hq => List.mem_cons_of_mem _ (hall q hq))
  · exact .inr ((hasking.pass act).imp_right fun h => ⟨o, w, h⟩)

theorem Answers.skip (h : t.Answers) (hout : t.out t.turn = true) (act : Nat) :
    (t.skip act).Answers :=
  h.imp_right fun h => h.imp_right fun ⟨o, w, hasking⟩ => ⟨o, w, hasking.skip hout act⟩

theorem Answers.step {m : Move} (h : t.Answers) (hstep : Step t m t') (hfair : Fair t m t') :
    t'.Answers := by
  cases hstep with
  | play => exact answers_play hfair
  | decline => exact h.pass _
  | give => exact h.pass _
  | skip hout => exact h.skip hout _
  | stay hout => exact h.skip hout _
  | settle hturn hall honce =>
      refine .inr (.inl fun q hq => ?_)
      have hout : t.settle.out q = true := hall q
      rw [hq] at hout
      cases hout

/-- Everybody else declined when a player leads freely. -/
theorem Answers.free (h : t.Answers) (hplays : plays t.history ≠ []) (hin : t.out t.turn = false)
    (hfree : othersSet t.flag t.turn = true) {q : Seat} (hq : q ≠ t.turn)
    (hqin : t.out q = false) : q ∈ passedSince t.history := by
  rcases h with hnone | hall | ⟨o, w, hasking⟩
  · exact absurd hnone hplays
  · exact hall q hqin
  · have hturn : t.turn = w := by
      by_contra hne
      have hset := othersSet_eq_true.mp hfree w (Ne.symm hne)
      rcases hasking.flag with hflag | halone
      · rw [hset] at hflag
        cases hflag
      · exact hne (halone _ hin)
    exact hasking.passed q hqin (wait_lt (hturn ▸ hasking.last q hqin) hq)

theorem answers_of_reach (h : ((system deck coin).only Fair).Reach t) : t.Answers := by
  refine h.invariant (fun t ht => ?_) fun t m t' _ ih hstep => ih.step hstep.1 hstep.2
  obtain ⟨desk, rfl⟩ := ht
  exact .inl rfl

end Table

/-! ## on the page -/

namespace Run

/-- `ComputerPoker` is called next, for the player to move, with a free lead. -/
def LeadsFreely (r : Run) : Prop :=
  callAct r.page = 1 ∧
    (r.playing = true ∧ 0 < r.page.currentPlay ∧
        r.page.winnedPlayer r.page.currentPlay = false ∨
      r.playing = false ∧ Event.settled ∉ r.page.history ∧ r.page.userPreDeskCards ≠ [])

instance (r : Run) : Decidable (LeadsFreely r) := inferInstanceAs (Decidable (_ ∧ _))

/-- Whoever leads freely after the opening, every other player who holds cards had a
turn since the combination on the desk was put down, and passed. -/
def FreeLeadDeclined (r : Run) : Prop :=
  LeadsFreely r → plays r.page.history ≠ [] →
    ∀ q, q ≠ r.page.currentPlay → r.page.hand q ≠ [] → q ∈ passedSince r.page.history

instance (r : Run) : Decidable (FreeLeadDeclined r) := inferInstanceAs (Decidable (_ → _))

/-- Nobody runs out of cards in the step while a flag is stale. -/
def Fair (r : Run) (_ : Option Action) (r' : Run) : Prop :=
  r'.page.winnerRank = r.page.winnerRank ∨
    ¬ StaleFlag r.page.playersPassed r.page.winnedPlayer r.page.currentPlay

variable {st₀ : GamePage} {deck : List Poker} {r : Run}

/-- Fair runs of the page are fair runs of the table. -/
theorem reach_fair_table (hdeck : deck.Perm generatePokers)
    (h : ((system st₀ deck).only Fair).Reach r) :
    ((Table.system deck st₀.userCoin).only Table.Fair).Reach r.page.table := by
  have hlen : deck.length = 52 := hdeck.length_eq
  refine h.simulate (f := fun r => r.page.table) (fun r hr => ?_) fun r a r' hr htable hstep => ?_
  · obtain ⟨st, hst, rfl⟩ := hr
    exact ⟨st₀.desk.desk, by simp only [table_enterPlay, table_initialGame hlen hst]⟩
  · have hgood := Table.good_of_reach hlen htable.of_only
    have hcontrol := control_of_reach hr.of_only
    exact (hcontrol.table_step hdeck hgood hstep.1).imp_right fun ⟨m, hm⟩ => ⟨m, hm, hstep.2⟩

/-- **A free lead was declined by all others**, in every run in which nobody runs out
of cards while a flag is stale. -/
theorem free_lead_declined (hdeck : deck.Perm generatePokers)
    (h : ((system st₀ deck).only Fair).Reach r) : FreeLeadDeclined r := by
  intro ⟨hasked, hcall⟩ hplays q hq hhand
  have htable := reach_fair_table hdeck h
  have hgood := Table.good_of_reach hdeck.length_eq htable.of_only
  have hcontrol := control_of_reach h.of_only
  have hin : r.page.winnedPlayer r.page.currentPlay = false := by
    rcases hcall with ⟨-, -, hin⟩ | ⟨hplaying, hlive, -⟩
    · exact hin
    · obtain ⟨hplay, hin⟩ := hcontrol.back hplaying
      exact hplay ▸ hin hlive
  have hfree : othersSet r.page.playersPassed r.page.currentPlay = true := by
    by_contra hnot
    rw [callAct, othersPassed, if_neg hnot] at hasked
    rcases hgood.act_eq with h0 | h2
    · exact absurd (h0.symm.trans hasked) (by omega)
    · exact absurd (h2.symm.trans hasked) (by omega)
  have hqin : r.page.winnedPlayer q = false := by
    rw [← Bool.not_eq_true]
    exact fun hout => hhand ((winned_iff hdeck h.of_only q).mp hout)
  exact (Table.answers_of_reach htable).free hplays hin hfree hq hqin

/-- Until somebody has finished, a run is fair. -/
theorem reach_fair_of_rank_nil (hdeck : deck.Perm generatePokers) (h : (system st₀ deck).Reach r)
    (hrank : r.page.winnerRank = []) : ((system st₀ deck).only Fair).Reach r := by
  induction h with
  | init hr => exact .init hr
  | step hr hstep ih =>
      have hprefix := rank_prefix hdeck hr hstep
      rw [hrank, List.prefix_nil] at hprefix
      exact (ih hprefix).step ⟨hstep, .inl (hrank.trans hprefix.symm)⟩

/-- After three passes computer 2 leads freely, in a fair run. -/
theorem free_lead_declined_bySuits : ∃ r, ((system .fresh bySuits).only Fair).Reach r ∧
    LeadsFreely r ∧ plays r.page.history ≠ [] ∧ FreeLeadDeclined r := by
  have hrun : (do
      let st ← Page.newGame 10 .fresh bySuits
      let st₁ ← Page.taps 10 st [.pass]
      let st₂ ← computerTurn (enterPlay (passPlay st₁))
      pure (decide (Event.settled ∉ st₁.history ∧ 0 < (enterPlay (passPlay st₁)).currentPlay ∧
        st₂.winnerRank = [] ∧ LeadsFreely ⟨st₂, true⟩ ∧ plays st₂.history ≠ []))) =
      Except.ok (ε := Halt) true := by
    decide +kernel
  simp only [bind_eq_ok, pure_eq_ok, Except.ok.injEq, decide_eq_true_eq] at hrun
  obtain ⟨st, hst, st₁, hst₁, st₂, hst₂, hlive, hplay, hrank, hfree, hplays⟩ := hrun
  have hreach : (system .fresh bySuits).Reach ⟨st₂, true⟩ :=
    ((Page.reach_taps (Page.reach_newGame hst) hst₁).step (.pass hlive)).step (.turn hplay hst₂)
  have hfair := reach_fair_of_rank_nil perm_bySuits hreach hrank
  exact ⟨_, hfair, hfree, hplays, free_lead_declined perm_bySuits hfair⟩

/-- **A free lead that comes too early.**  The human passes five times.  Computer 2 then
finishes with a card that neither he nor computer 1 is asked about: their flags are
from before, and computer 3 leads freely. -/
theorem free_lead_too_early : ∃ r, (system .fresh bySuits).Reach r ∧ ¬ FreeLeadDeclined r := by
  have hrun : (do
      let st ← Page.newGame 10 .fresh bySuits
      let st₁ ← Page.taps 10 st [.pass, .pass, .pass, .pass]
      let st₂ ← computerTurn (enterPlay (passPlay st₁))
      let st₃ ← computerTurn st₂
      pure (decide (Event.settled ∉ st₁.history ∧ 0 < (enterPlay (passPlay st₁)).currentPlay ∧
        0 < st₂.currentPlay ∧ ¬ FreeLeadDeclined ⟨st₃, true⟩))) =
      Except.ok (ε := Halt) true := by
    decide +kernel
  simp only [bind_eq_ok, pure_eq_ok, Except.ok.injEq, decide_eq_true_eq] at hrun
  obtain ⟨st, hst, st₁, hst₁, st₂, hst₂, st₃, hst₃, hlive, hplay, hplay', hnot⟩ := hrun
  have hreach := Page.reach_taps (Page.reach_newGame hst) hst₁
  exact ⟨_, ((hreach.step (.pass hlive)).step (.turn hplay hst₂)).step (.turn hplay' hst₃), hnot⟩

end Run

end IosGame
