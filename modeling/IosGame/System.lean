import Mathlib.Logic.Basic

/-!
# IosGame.System

Transition systems: initial states and a step relation that names its events.

A property of a whole run is proved in one of two ways:

* `Reach.invariant` — it holds initially and every step from a reachable state
  keeps it;
* `Reach.simulate` — every step is matched by a step of a simpler system, or by
  none, so what holds of the simpler system's runs holds of this one's.

`only` restricts a system to the steps that meet a condition, for results about
the runs all of whose steps do.
-/

namespace IosGame

/-- Initial states, and the steps between states, each named by an event. -/
structure System (σ ε : Type) where
  init : σ → Prop
  step : σ → ε → σ → Prop

namespace System

variable {σ ε τ ε' : Type} {S : System σ ε} {T : System τ ε'}

/-- The states a run of `S` reaches. -/
inductive Reach (S : System σ ε) : σ → Prop where
  | init {s : σ} : S.init s → Reach S s
  | step {s s' : σ} {e : ε} : Reach S s → S.step s e s' → Reach S s'

/-- **Invariant rule**: what holds initially and is kept by every step from a
reachable state holds of all reachable states. -/
theorem Reach.invariant {I : σ → Prop} (init : ∀ s, S.init s → I s)
    (step : ∀ s e s', S.Reach s → I s → S.step s e s' → I s') {s : σ} (h : S.Reach s) :
    I s := by
  induction h with
  | init hs => exact init _ hs
  | step hs hstep ih => exact step _ _ _ hs ih hstep

/-- **Simulation rule**: if `f` maps initial states to initial states of `T` and
every step to a step of `T` or to none, it maps reachable states to reachable ones. -/
theorem Reach.simulate {f : σ → τ} (init : ∀ s, S.init s → T.init (f s))
    (step : ∀ s e s', S.Reach s → T.Reach (f s) → S.step s e s' →
      f s' = f s ∨ ∃ e', T.step (f s) e' (f s')) {s : σ} (h : S.Reach s) :
    T.Reach (f s) := by
  refine h.invariant (I := fun s => T.Reach (f s)) (fun s hs => .init (init s hs)) ?_
  intro s e s' hs ih hstep
  rcases step s e s' hs ih hstep with heq | ⟨e', hstep'⟩
  · exact heq ▸ ih
  · exact ih.step hstep'

/-! ## runs all of whose steps meet a condition -/

/-- `S` with only the steps that meet `P`. -/
def only (S : System σ ε) (P : σ → ε → σ → Prop) : System σ ε where
  init := S.init
  step s e s' := S.step s e s' ∧ P s e s'

theorem Reach.of_only {P : σ → ε → σ → Prop} {s : σ} (h : (S.only P).Reach s) : S.Reach s := by
  induction h with
  | init hs => exact .init hs
  | step _ hstep ih => exact ih.step hstep.1

/-- A condition that all steps meet restricts nothing. -/
theorem Reach.only {P : σ → ε → σ → Prop} (hP : ∀ s e s', S.step s e s' → P s e s') {s : σ}
    (h : S.Reach s) : (S.only P).Reach s := by
  induction h with
  | init hs => exact .init hs
  | step _ hstep ih => exact ih.step ⟨hstep, hP _ _ _ hstep⟩

/-! ## the states ahead -/

/-- A run of `S` from `s` on ends in `s'`. -/
inductive Leads (S : System σ ε) (s : σ) : σ → Prop where
  | refl : Leads S s s
  | step {s' s'' : σ} {e : ε} : Leads S s s' → S.step s' e s'' → Leads S s s''

theorem Leads.reach {s s' : σ} (h : S.Leads s s') (hs : S.Reach s) : S.Reach s' := by
  induction h with
  | refl => exact hs
  | step _ hstep ih => exact ih.step hstep

theorem Leads.trans {s s' s'' : σ} (h : S.Leads s s') (h' : S.Leads s' s'') :
    S.Leads s s'' := by
  induction h' with
  | refl => exact h
  | step _ hstep ih => exact ih.step hstep

end System

end IosGame
