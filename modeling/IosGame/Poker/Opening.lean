import IosGame.Poker.Accounts
import IosGame.Poker.Dealing

/-!
# IosGame.Poker.Opening

The opening rule: the first combination holds the club 3 and comes from the player
who was dealt it.  It is kept through `currentAct`, which the pass button sets to 2:
when the human has the club 3 and passes in the first turn of the game, a computer
leads with any combination.  In every other game the rule holds (`opening_rule`).
-/

namespace IosGame

/-- The first combination put down, and who put it down. -/
def firstPlay : List Event → Option (Seat × PokerClass)
  | [] => none
  | .played p _ c :: history => (firstPlay history).or (some (p, c))
  | _ :: history => firstPlay history

/-- The first combination holds the club 3, which its player was dealt. -/
def OpeningRule (deck : List Poker) (history : List Event) : Prop :=
  ∀ p c, firstPlay history = some (p, c) →
    ∃ card ∈ c.cards, card.isClubThree = true ∧ card ∈ dealt deck p

instance (deck : List Poker) (history : List Event) : Decidable (OpeningRule deck history) :=
  decidable_of_iff (∀ first ∈ firstPlay history, ∃ card ∈ first.2.cards,
      card.isClubThree = true ∧ card ∈ dealt deck first.1)
    ⟨fun h p c hpc => h (p, c) hpc, fun h first hfirst => h first.1 first.2 hfirst⟩

theorem firstPlay_eq_none {history : List Event} :
    firstPlay history = none ↔ plays history = [] := by
  induction history with
  | nil => simp [firstPlay]
  | cons e history ih => cases e <;> simp [firstPlay, ih]

theorem firstPlay_cons {history : List Event} (h : plays history ≠ []) (e : Event) :
    firstPlay (e :: history) = firstPlay history := by
  cases e with
  | played p act c =>
      cases hfirst : firstPlay history with
      | none => exact absurd (firstPlay_eq_none.mp hfirst) h
      | some first => simp [firstPlay, hfirst]
  | passed p => rfl
  | settled => rfl

theorem plays_cons_ne_nil {history : List Event} (h : plays history ≠ []) (e : Event) :
    plays (e :: history) ≠ [] := by
  cases e <;> simp [h]

theorem getLast?_cons {history : List Event} (h : history ≠ []) (e : Event) :
    (e :: history).getLast? = history.getLast? := by
  cases history with
  | nil => exact absurd rfl h
  | cons e' history => exact List.getLast?_cons_cons

theorem ne_nil_of_plays {history : List Event} (h : plays history ≠ []) : history ≠ [] := by
  rintro rfl
  exact h rfl

/-! ## until the first play -/

namespace Table

variable {deck : List Poker} {coin : Int} {t t' : Table}

/-- Nothing has been put down: the hands are as dealt. -/
structure Dealt (deck : List Poker) (t : Table) : Prop where
  plays : plays t.history = []
  hand : ∀ p, t.hand p = ↑(dealt deck p)
  inGame : ∀ p, t.out p = false

/-- It is the opener's turn, and nobody had one before. -/
structure First (deck : List Poker) (t : Table) : Prop extends Dealt deck t where
  history : t.history = []
  turn : t.turn = openerOf deck
  asked : t.asked = 0

/-- The human has the club 3 and passed, and the computers that had a turn as well. -/
structure Passed (deck : List Poker) (t : Table) : Prop extends Dealt deck t where
  opener : openerOf deck = 0
  opened : t.history.getLast? = some (.passed 0)
  turn : t.turn ≠ 0
  flag : ∀ q, q < t.turn → t.flag q = true

/-- The first combination was put down, by the rule unless the human passed first. -/
structure Opened (deck : List Poker) (t : Table) : Prop where
  plays : plays t.history ≠ []
  rule : OpeningRule deck t.history ↔ t.history.getLast? ≠ some (.passed 0)

/-- How far the opening has come. -/
inductive Opening (deck : List Poker) (t : Table) : Prop where
  | first (h : First deck t)
  | passed (h : Passed deck t)
  | opened (h : Opened deck t)

theorem Opened.cons (h : Opened deck t) {e : Event}
    (heq : t'.history = e :: t.history) : Opened deck t' where
  plays := heq ▸ plays_cons_ne_nil h.plays e
  rule := by
    rw [heq, getLast?_cons (ne_nil_of_plays h.plays) e, ← h.rule]
    simp only [OpeningRule, firstPlay_cons h.plays]

/-- The opener puts down a combination with the club 3, or, being the human, passes. -/
theorem First.step {m : Move} (hdeck : deck.Perm generatePokers) (h : First deck t)
    (hstep : Step t m t') : Opening deck t' := by
  cases hstep with
  | @play c hin htakes =>
      refine .opened ⟨by simp [Table.play], ?_⟩
      obtain ⟨card, hcard, hthree⟩ := htakes.opens h.asked
      have hdealt : card ∈ dealt deck t.turn := by
        have hle := htakes.le
        rw [h.hand, Multiset.coe_le] at hle
        exact hle.subset hcard
      have hfirst : firstPlay (t.play c).history = some (t.turn, c) := by
        simp [Table.play, firstPlay, h.history]
      refine iff_of_true (fun p d hpd => ?_) (by simp [Table.play, h.history])
      obtain ⟨rfl, rfl⟩ : t.turn = p ∧ c = d := by simpa [hfirst] using hpd
      exact ⟨card, hcard, hthree, hdealt⟩
  | decline hin hturn hasked hnone =>
      obtain ⟨card, hcard, hthree⟩ := clubThree_opener hdeck
      rw [← h.turn, ← Multiset.mem_coe, ← h.hand] at hcard
      rw [hnone h.asked card hcard] at hthree
      cases hthree
  | give hin hturn =>
      refine .passed ⟨⟨?_, h.hand, h.inGame⟩, h.turn.symm.trans hturn, ?_, ?_, fun q hq => ?_⟩
      · simp [Table.pass, h.history]
      · simp [Table.pass, h.history, hturn]
      · simp [Table.pass, hturn]
      · rcases lt_next hq with hlt | rfl
        · rw [hturn] at hlt
          exact absurd hlt (Fin.not_lt_zero q)
        · simp [Table.pass]
  | skip hout => exact absurd hout (by simp [h.inGame])
  | stay hout => exact absurd hout (by simp [h.inGame])
  | settle hturn hall => exact absurd (hall 0) (by simp [h.inGame])

/-- After the human's pass a computer passes, the third one not, or puts down a
combination without the club 3. -/
theorem Passed.step {m : Move} (hdeck : deck.Perm generatePokers) (h : Passed deck t)
    (hstep : Step t m t') : Opening deck t' := by
  have hne : t.history ≠ [] := by
    intro hnil
    have := h.opened
    simp [hnil] at this
  cases hstep with
  | @play c hin htakes =>
      refine .opened ⟨by simp [Table.play], ?_⟩
      have hlast : (t.play c).history.getLast? = some (.passed 0) :=
        (getLast?_cons hne _).trans h.opened
      have hfirst : firstPlay (t.play c).history = some (t.turn, c) := by
        simp [Table.play, firstPlay, firstPlay_eq_none.mpr h.plays]
      refine iff_of_false (fun hrule => ?_) (not_not.mpr hlast)
      obtain ⟨card, -, hthree, hdealt⟩ := hrule _ _ hfirst
      exact h.turn ((eq_openerOf hdeck hthree hdealt).trans h.opener)
  | decline hin _ hasked _ =>
      refine .passed ⟨⟨h.plays, h.hand, h.inGame⟩, h.opener, ?_, ?_, fun q hq => ?_⟩
      · exact (getLast?_cons hne _).trans h.opened
      · refine next_ne_zero fun h3 => hasked ?_
        rw [asked, othersSet_eq_true.mpr fun q hq => h.flag q (h3 ▸ lt_three (h3 ▸ hq)),
          if_pos rfl]
      · simp only [Table.pass, Function.update_apply]
        rcases lt_next hq with hlt | heq
        · rw [if_neg hlt.ne, h.flag q hlt]
        · rw [if_pos heq]
  | give hin hturn => exact absurd hturn h.turn
  | skip hout => exact absurd hout (by simp [h.inGame])
  | stay hout => exact absurd hout (by simp [h.inGame])
  | settle hturn => exact absurd hturn h.turn

theorem Opened.step {m : Move} (h : Opened deck t) (hstep : Step t m t') : Opened deck t' := by
  cases hstep with
  | play => exact h.cons rfl
  | decline => exact h.cons rfl
  | give => exact h.cons rfl
  | skip => exact ⟨h.plays, h.rule⟩
  | stay => exact ⟨h.plays, h.rule⟩
  | settle => exact h.cons rfl

theorem Opening.step {m : Move} (hdeck : deck.Perm generatePokers) (h : Opening deck t)
    (hstep : Step t m t') : Opening deck t' := by
  cases h with
  | first h => exact h.step hdeck hstep
  | passed h => exact h.step hdeck hstep
  | opened h => exact .opened (h.step hstep)

theorem opening_of_reach (hdeck : deck.Perm generatePokers) (h : (system deck coin).Reach t) :
    Opening deck t := by
  refine h.invariant (fun t ht => ?_) fun t m t' _ ih hstep => ih.step hdeck hstep
  obtain ⟨desk, rfl⟩ := ht
  exact .first ⟨⟨rfl, fun _ => rfl, fun _ => rfl⟩, rfl, rfl, by simp [asked, othersSet, start]⟩

end Table

/-! ## on the page -/

variable {st₀ : GamePage} {deck : List Poker} {r : Run}

/-- **The opening rule** is kept in every game, whatever page it starts from, exactly
when its first turn is not a pass of the human. -/
theorem opening_rule (hdeck : deck.Perm generatePokers) (h : (Run.system st₀ deck).Reach r)
    (hplays : plays r.page.history ≠ []) :
    OpeningRule deck r.page.history ↔ r.page.history.getLast? ≠ some (.passed 0) := by
  cases Table.opening_of_reach hdeck (Run.reach_table hdeck h) with
  | first h => exact absurd h.plays hplays
  | passed h => exact absurd h.plays hplays
  | opened h => exact h.rule

/-- Computer 3 opens with the club 3. -/
theorem opening_rule_bySuits : ∃ r, (Run.system .fresh bySuits).Reach r ∧
    plays r.page.history ≠ [] ∧ r.page.history.getLast? ≠ some (.passed 0) ∧
      OpeningRule bySuits r.page.history := by
  obtain ⟨st, hreach, hplays, hlast⟩ :=
    Page.reach_play 10 .fresh bySuits []
      (fun st => plays st.history ≠ [] ∧ st.history.getLast? ≠ some (.passed 0))
      (by decide +kernel)
  exact ⟨_, hreach, hplays, hlast, (opening_rule perm_bySuits hreach hplays).mpr hlast⟩

/-- **A game opened without the club 3.**  The unshuffled deck deals the human the
clubs; he passes, and computer 3 opens with spades. -/
theorem opened_without_clubThree : ∃ r, (Run.system .fresh generatePokers).Reach r ∧
    ¬ OpeningRule generatePokers r.page.history := by
  obtain ⟨st, hreach, hnot⟩ :=
    Page.reach_play 10 .fresh generatePokers [.pass]
      (fun st => ¬ OpeningRule generatePokers st.history) (by decide +kernel)
  exact ⟨_, hreach, hnot⟩

end IosGame
