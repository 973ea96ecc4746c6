import IosGame.Poker.Accounts

/-!
# IosGame.Poker.Tricks

Beating is a strict order on combinations, and a trick, what is put down between two
free leads, goes up in it.
-/

namespace IosGame

/-! ## the order -/

theorem paied_asymm {a b : PokerClass} (ha : Shaped a) (hb : Shaped b)
    (hab : paied a b = .ok true) : paied b a ≠ .ok true := by
  rw [paied_iff ha hb] at hab
  rw [Ne, paied_iff hb ha]
  exact Outranks.asymm hab

theorem paied_trans {a b c : PokerClass} (ha : Shaped a) (hb : Shaped b) (hc : Shaped c)
    (hab : paied a b = .ok true) (hbc : paied b c = .ok true) : paied a c = .ok true := by
  rw [paied_iff ha hb] at hab
  rw [paied_iff hb hc] at hbc
  rw [paied_iff ha hc]
  exact Outranks.trans hab hbc

/-- A sequence of combinations, each accepted on the next, is strictly decreasing. -/
theorem pairwise_paied {cs : List PokerClass} (hshaped : ∀ c ∈ cs, Shaped c)
    (h : cs.IsChain fun a b => paied a b = .ok true) :
    cs.Pairwise fun a b => paied a b = .ok true := by
  have hbeats : cs.IsChain Beats :=
    h.imp_of_mem_imp fun a b ha hb hab => (paied_iff (hshaped a ha) (hshaped b hb)).mp hab
  refine (Outranks.pairwise_of_chain hbeats).imp_of_mem fun ha hb hab => ?_
  exact (paied_iff (hshaped _ ha) (hshaped _ hb)).mpr hab

/-! ## tricks -/

/-- What is on the desk since the latest lead, the latest combination first.  A lead
is a combination that was not asked to beat another. -/
def trick : List Event → List PokerClass
  | [] => []
  | .played _ act c :: history => c :: if act = 2 then trick history else []
  | _ :: history => trick history

namespace Table

variable {deck : List Poker} {coin : Int} {t t' : Table}

/-- The trick on the table: each combination was accepted on the one before, and the
last one lies on the desk. -/
structure Trick (t : Table) : Prop where
  shaped : ∀ c ∈ trick t.history, Shaped c
  chain : (trick t.history).IsChain fun a b => paied a b = .ok true
  desk : ∀ c ∈ (trick t.history).head?, c = t.desk

theorem Trick.play {c : PokerClass} (h : Trick t) (htakes : t.Takes c) : Trick (t.play c) where
  shaped := by
    simp only [Table.play, trick, List.mem_cons]
    rintro d (rfl | hd)
    · exact htakes.shaped
    · split at hd
      · exact h.shaped d hd
      · simp at hd
  chain := by
    simp only [Table.play, trick]
    split
    · rename_i hasked
      rw [List.isChain_cons]
      exact ⟨fun d hd => h.desk d hd ▸ htakes.beats hasked, h.chain⟩
    · exact List.isChain_singleton c
  desk := by simp [Table.play, trick]

theorem Trick.step {m : Move} (h : Trick t) (hstep : Step t m t') : Trick t' := by
  cases hstep with
  | play _ htakes => exact h.play htakes
  | decline => exact ⟨h.shaped, h.chain, h.desk⟩
  | give => exact ⟨h.shaped, h.chain, h.desk⟩
  | skip => exact ⟨h.shaped, h.chain, h.desk⟩
  | stay => exact ⟨h.shaped, h.chain, h.desk⟩
  | settle => exact ⟨h.shaped, h.chain, h.desk⟩

theorem trick_of_reach (h : (system deck coin).Reach t) : Trick t := by
  refine h.invariant (fun t ht => ?_) fun t m t' _ ih hstep => ih.step hstep
  obtain ⟨desk, rfl⟩ := ht
  exact ⟨by simp [start, trick], List.isChain_nil, by simp [start, trick]⟩

end Table

/-- **Beating is a strict order** on combinations of the right sizes, and at every
moment of a game the trick on the desk goes up in it, so that no combination comes
back. -/
theorem beating_strict :
    (∀ a b, Shaped a → Shaped b → paied a b = .ok true → paied b a ≠ .ok true) ∧
      (∀ a b c, Shaped a → Shaped b → Shaped c → paied a b = .ok true → paied b c = .ok true →
        paied a c = .ok true) ∧
      ∀ st₀ deck, deck.Perm generatePokers → ∀ r, (Run.system st₀ deck).Reach r →
        (trick r.page.history).Pairwise (fun a b => paied a b = .ok true) ∧
          (trick r.page.history).Nodup := by
  refine ⟨fun a b => paied_asymm, fun a b c => paied_trans, fun st₀ deck hdeck r h => ?_⟩
  have htrick := Table.trick_of_reach (Run.reach_table hdeck h)
  have hpairwise := pairwise_paied htrick.shaped htrick.chain
  refine ⟨hpairwise, hpairwise.imp_of_mem fun {a b} ha _ hab heq => ?_⟩
  have hself : paied a a = .ok true := heq ▸ hab
  have hshaped := htrick.shaped a ha
  exact paied_asymm hshaped hshaped hself hself

/-- Four of a kind beat a full house, that beats a straight, so they beat the straight; and
three straight flushes on the desk each beat those below. -/
theorem beating_strict_crossing :
    paied { cards := generatePokers.filter (·.num = 10), classing := 6 }
        { cards := generatePokers.filter fun card => card.num < 5 ∧ card.suitnum = card.num % 4,
          classing := 3, level := 8 } = .ok true ∧
      ∃ r, (Run.system .fresh bySuits).Reach r ∧ (trick r.page.history).length = 3 ∧
        (trick r.page.history).Pairwise (fun a b => paied a b = .ok true) ∧
          (trick r.page.history).Nodup := by
  obtain ⟨-, trans, tricks⟩ := beating_strict
  obtain ⟨st, hreach, hthree⟩ :=
    Page.reach_play 10 .fresh bySuits [.pass] (fun st => (trick st.history).length = 3)
      (by decide +kernel)
  exact ⟨trans _ { cards := generatePokers.filter fun card =>
      card.num = 4 ∧ card.suitnum < 3 ∨ card.num = 9 ∧ card.suitnum < 2, classing := 5 } _
    (by decide +kernel) (by decide +kernel) (by decide +kernel) (by decide +kernel)
    (by decide +kernel), _, hreach, hthree, tricks _ _ perm_bySuits _ hreach⟩

end IosGame
