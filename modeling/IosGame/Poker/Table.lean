import IosGame.Poker.Chosen
import IosGame.Poker.Game
import IosGame.System

/-!
# IosGame.Poker.Table

The card game as its players see it: four hands, who passed, who is out, whose turn
it is.  A hand is a multiset of cards; where the code keeps the human's cards in two
lists, and a third copy of them, there is one hand here.

The moves are what a player may do in his turn.  `Table.Good` is the invariant of
all runs: no card is lost, the ranked players are those without cards, and the
coins are settled once.
-/

namespace IosGame

/-! ## reading a history -/

/-- The combination an event puts down. -/
def Event.combination? : Event → Option PokerClass
  | .played _ _ c => some c
  | _ => none

/-- The combinations put down, the latest first. -/
def plays (history : List Event) : List PokerClass := history.filterMap Event.combination?

@[simp] theorem plays_nil : plays [] = [] := rfl

@[simp] theorem plays_played (p : Seat) (act : Nat) (c : PokerClass) (history : List Event) :
    plays (.played p act c :: history) = c :: plays history := rfl

@[simp] theorem plays_passed (p : Seat) (history : List Event) :
    plays (.passed p :: history) = plays history := rfl

@[simp] theorem plays_settled (history : List Event) :
    plays (.settled :: history) = plays history := rfl

/-! ## the table -/

/-- Four players at a table. -/
@[ext] structure Table where
  hand : Seat → Multiset Poker
  flag : Seat → Bool
  out : Seat → Bool
  rank : List Seat
  turn : Seat
  act : Nat
  desk : PokerClass
  coin : Int
  history : List Event

namespace Table

/-- The action the player to move is asked for. -/
def asked (t : Table) : Nat := if othersSet t.flag t.turn then 1 else t.act

/-- The player to move puts `c` down; without cards left he is out, and ranked. -/
def play (t : Table) (c : PokerClass) : Table :=
  let rest := t.hand t.turn - ↑c.cards
  { t with
    hand := Function.update t.hand t.turn rest
    flag := Function.update t.flag t.turn (decide (rest = 0))
    out := Function.update t.out t.turn (decide (rest = 0))
    rank := if rest = 0 then t.rank ++ [t.turn] else t.rank
    turn := t.turn + 1
    act := 2
    desk := c
    history := .played t.turn t.asked c :: t.history }

/-- The player to move passes; the next one is asked for `act`. -/
def pass (t : Table) (act : Nat) : Table :=
  { t with
    flag := Function.update t.flag t.turn true
    turn := t.turn + 1
    act := act
    history := .passed t.turn :: t.history }

/-- The turn goes on past a player who is out. -/
def skip (t : Table) (act : Nat) : Table := { t with turn := t.turn + 1, act := act }

/-- What a finish order earns the human: 50 if he was the first, else -30. -/
def payoff (rank : List Seat) : Int := if rank.head? = some 0 then 50 else -30

/-- The coins are settled. -/
def settle (t : Table) : Table :=
  { t with coin := t.coin + payoff t.rank, history := .settled :: t.history }

/-- `c` is a combination of the hand to move, and what is asked for. -/
structure Takes (t : Table) (c : PokerClass) : Prop where
  shaped : Shaped c
  le : (c.cards : Multiset Poker) ≤ t.hand t.turn
  opens : t.asked = 0 → ∃ card ∈ c.cards, card.isClubThree = true
  beats : t.asked = 2 → paied c t.desk = .ok true

/-- The moves of the game. -/
inductive Move where
  | play (c : PokerClass)
  /-- a computer has nothing to put down -/
  | decline
  /-- the human passes -/
  | give
  | skip
  /-- the turn goes on past the human -/
  | stay
  | settle

/-- What a move does, and when it is possible. -/
inductive Step : Table → Move → Table → Prop where
  | play {t : Table} {c : PokerClass} (hin : t.out t.turn = false) (htakes : t.Takes c) :
      Step t (.play c) (t.play c)
  | decline {t : Table} (hin : t.out t.turn = false) (hturn : t.turn ≠ 0) (hasked : t.asked ≠ 1)
      (hclub : t.asked = 0 → ∀ card ∈ t.hand t.turn, card.isClubThree = false) :
      Step t .decline (t.pass t.act)
  | give {t : Table} (hin : t.out t.turn = false) (hturn : t.turn = 0) : Step t .give (t.pass 2)
  | skip {t : Table} (hout : t.out t.turn = true) (hturn : t.turn ≠ 0) :
      Step t .skip (t.skip t.act)
  | stay {t : Table} (hout : t.out t.turn = true) (hturn : t.turn = 0)
      (hsome : ∃ p, t.out p = false) : Step t .stay (t.skip 2)
  | settle {t : Table} (hturn : t.turn = 0) (hall : ∀ p, t.out p = true)
      (honce : Event.settled ∉ t.history) : Step t .settle t.settle

/-- A game begins: the hands are dealt, and the opener has the club 3. -/
def start (deck : List Poker) (coin : Int) (desk : PokerClass) : Table where
  hand := fun p => ↑(dealt deck p)
  flag := fun _ => false
  out := fun _ => false
  rank := []
  turn := openerOf deck
  act := 0
  desk := desk
  coin := coin
  history := []

/-- The games on a deck, with `coin` at stake, whatever lies on the desk. -/
def system (deck : List Poker) (coin : Int) : System Table Move where
  init t := ∃ desk, t = start deck coin desk
  step := Step

/-! ## the invariant -/

/-- The coins are untouched, or settled once, after everybody ran out of cards. -/
def Settled (t : Table) (coin : Int) : Prop :=
  Event.settled ∉ t.history ∧ t.coin = coin ∨
    t.turn = 0 ∧ (∀ p, t.out p = true) ∧ t.coin = coin + payoff t.rank ∧
      ∃ before, t.history = .settled :: before ∧ Event.settled ∉ before

/-- What holds at every moment of a game. -/
structure Good (deck : List Poker) (coin : Int) (t : Table) : Prop where
  conserved : ∑ p, t.hand p + ↑(cardsOf (plays t.history)) = (deck : Multiset Poker)
  dealt_le : ∀ p, t.hand p ≤ ↑(dealt deck p)
  out_iff : ∀ p, t.out p = true ↔ t.hand p = 0
  mem_rank : ∀ p, p ∈ t.rank ↔ t.out p = true
  nodup_rank : t.rank.Nodup
  flag_of_out : ∀ p, t.out p = true → t.flag p = true
  act_eq : t.act = 0 ∨ t.act = 2
  settled : t.Settled coin

theorem good_start {deck : List Poker} (h : deck.length = 52) (coin : Int) (desk : PokerClass) :
    Good deck coin (start deck coin desk) where
  conserved := by
    simp only [start, Fin.sum_univ_four, Multiset.coe_add, plays_nil, cardsOf_nil,
      Multiset.coe_nil, add_zero, List.append_assoc]
    exact congrArg _ (dealt_append h)
  dealt_le _ := le_refl _
  out_iff p := by
    have := length_dealt h p
    simp only [start, Bool.false_eq_true, Multiset.coe_eq_zero, false_iff]
    intro hnil
    simp [hnil] at this
  mem_rank p := by simp [start]
  nodup_rank := List.nodup_nil
  flag_of_out p := by simp [start]
  act_eq := .inl rfl
  settled := .inl ⟨List.not_mem_nil, rfl⟩

variable {deck : List Poker} {coin : Int} {t t' : Table}

/-- While somebody is in the game, the coins are not settled. -/
theorem Good.unsettled (h : Good deck coin t) (p : Seat) (hin : t.out p = false) :
    Event.settled ∉ t.history ∧ t.coin = coin := by
  rcases h.settled with hs | ⟨-, hall, -⟩
  · exact hs
  · rw [hall p] at hin; cases hin

/-- Putting a combination down takes its cards out of the hand. -/
theorem Takes.hand {c : PokerClass} (h : t.Takes c) :
    t.hand t.turn - ↑c.cards + ↑c.cards = t.hand t.turn := tsub_add_cancel_of_le h.le

theorem sum_play {c : PokerClass} (h : t.Takes c) :
    ∑ p, (t.play c).hand p + ↑c.cards = ∑ p, t.hand p := by
  simp only [play]
  rw [Finset.sum_update_of_mem (Finset.mem_univ _), add_right_comm, h.hand,
    ← Finset.erase_eq, Finset.add_sum_erase _ _ (Finset.mem_univ _)]

theorem Good.play {c : PokerClass} (h : Good deck coin t) (hin : t.out t.turn = false)
    (htakes : t.Takes c) : Good deck coin (t.play c) where
  conserved := by
    rw [← h.conserved, ← sum_play htakes]
    simp only [Table.play, plays_played, cardsOf_cons, ← Multiset.coe_add, add_assoc]
  dealt_le p := by
    simp only [Table.play, Function.update_apply]
    split
    · rename_i hp
      subst hp
      exact (Multiset.sub_le_self _ _).trans (h.dealt_le _)
    · exact h.dealt_le p
  out_iff p := by
    simp only [Table.play, Function.update_apply]
    split
    · exact decide_eq_true_iff
    · exact h.out_iff p
  mem_rank p := by
    have hmem := h.mem_rank p
    simp only [Table.play, Function.update_apply]
    split <;> split <;> simp_all
  nodup_rank := by
    have hturn : t.turn ∉ t.rank := by rw [h.mem_rank, hin]; simp
    simp only [Table.play]
    split
    · exact h.nodup_rank.append (List.nodup_singleton _) (by simpa using hturn)
    · exact h.nodup_rank
  flag_of_out p := by
    simp only [Table.play, Function.update_apply]
    split
    · exact id
    · exact h.flag_of_out p
  act_eq := .inr rfl
  settled := by
    obtain ⟨hs, hcoin⟩ := h.unsettled t.turn hin
    exact .inl ⟨by simpa [Table.play] using hs, hcoin⟩

theorem Good.pass (h : Good deck coin t) (hin : t.out t.turn = false) {act : Nat}
    (hact : act = 0 ∨ act = 2) : Good deck coin (t.pass act) where
  conserved := h.conserved
  dealt_le := h.dealt_le
  out_iff := h.out_iff
  mem_rank := h.mem_rank
  nodup_rank := h.nodup_rank
  flag_of_out p hp := by
    simp only [Table.pass, Function.update_apply]
    split
    · rfl
    · exact h.flag_of_out p hp
  act_eq := hact
  settled := by
    obtain ⟨hs, hcoin⟩ := h.unsettled t.turn hin
    exact .inl ⟨by simpa [Table.pass] using hs, hcoin⟩

theorem Good.skip (h : Good deck coin t)
    (hlive : Event.settled ∉ t.history ∧ t.coin = coin) {act : Nat}
    (hact : act = 0 ∨ act = 2) : Good deck coin (t.skip act) :=
  { h with act_eq := hact, settled := .inl hlive }

theorem Good.settle (h : Good deck coin t) (hturn : t.turn = 0) (hall : ∀ p, t.out p = true)
    (honce : Event.settled ∉ t.history) : Good deck coin t.settle :=
  { h with
    settled := by
      rcases h.settled with ⟨-, hcoin⟩ | ⟨-, -, -, before, hb, -⟩
      · exact .inr ⟨hturn, hall, by simp [Table.settle, hcoin], t.history, rfl, honce⟩
      · exact absurd (by rw [hb]; exact List.mem_cons_self) honce }

theorem Good.step {m : Move} (h : Good deck coin t) (hstep : Step t m t') :
    Good deck coin t' := by
  cases hstep with
  | play hin htakes => exact h.play hin htakes
  | decline hin => exact h.pass hin h.act_eq
  | give hin => exact h.pass hin (.inr rfl)
  | skip hout hturn =>
      rcases h.settled with hlive | ⟨h0, -⟩
      · exact h.skip hlive h.act_eq
      · exact absurd h0 hturn
  | stay hout hturn hsome =>
      obtain ⟨p, hp⟩ := hsome
      exact h.skip (h.unsettled p hp) (.inr rfl)
  | settle hturn hall honce => exact h.settle hturn hall honce

/-- **Every moment of every game is good.** -/
theorem good_of_reach (hdeck : deck.length = 52) (h : (system deck coin).Reach t) :
    Good deck coin t := by
  refine h.invariant (fun t ht => ?_) fun t m t' _ ih hstep => ih.step hstep
  obtain ⟨desk, rfl⟩ := ht
  exact good_start hdeck coin desk

/-- The finish order only grows. -/
theorem Step.rank_prefix {m : Move} (h : Step t m t') : t.rank <+: t'.rank := by
  cases h with
  | play =>
      simp only [Table.play]
      split
      · exact List.prefix_append _ _
      · exact List.prefix_rfl
  | decline => exact List.prefix_rfl
  | give => exact List.prefix_rfl
  | skip => exact List.prefix_rfl
  | stay => exact List.prefix_rfl
  | settle => exact List.prefix_rfl

end Table

end IosGame
