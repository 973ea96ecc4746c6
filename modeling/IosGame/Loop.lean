import Mathlib.Data.List.Sort
import Mathlib.Data.List.Perm.Basic

/-!
# IosGame.Loop

Imperative loops over arrays, as pure functions that can fail.

A Swift `while` loop with `break` and `continue` is a *body*: one pass of the
loop takes the loop variables and either goes round `again` with new ones or
`leave`s with a result.  `loop` repeats a body, a fuel argument bounding the
number of passes, so a loop that does not end shows as `outOfFuel` and an
array access outside its bounds as `outOfRange`.

Four rules carry the proofs about a loop:

* `loop_invariant` — what one pass preserves holds when the loop leaves;
* `loop_outcome`, `loop_total` — how the passes end is how the loop ends;
* `loop_ne_outOfFuel` — a measure that every pass lowers bounds the passes;
* `loop_mono` — fuel is only a bound: more of it never changes a result.

`EndsFrom` says without fuel that a loop ends from a state, as it does by `Lowers.endsFrom`.
`loop_agree` is the rule for two runs of a loop side by side.  Below them, Swift's array
subscript, `remove(at:)` and `sorted(by:)`.
-/

namespace IosGame

/-- Why a run stops without a result. -/
inductive Trap where
  /-- an array subscript outside the array, or `first`/`last` of an empty one -/
  | outOfRange
  /-- a loop that made more passes than its fuel allows -/
  | outOfFuel
  deriving DecidableEq, Repr

/-! ## fallible steps -/

theorem ok_bind {ε α β : Type} (a : α) (f : α → Except ε β) :
    (Except.ok a >>= f) = f a := rfl

theorem error_bind {ε α β : Type} (e : ε) (f : α → Except ε β) :
    (Except.error e >>= f) = Except.error e := rfl

theorem pure_eq_ok {ε α : Type} (a : α) : (pure a : Except ε α) = .ok a := rfl

attribute [simp] ok_bind error_bind pure_eq_ok

/-- A sequence of two steps succeeds exactly when both do. -/
theorem bind_eq_ok {ε α β : Type} {x : Except ε α} {f : α → Except ε β} {b : β} :
    (x >>= f) = .ok b ↔ ∃ a, x = .ok a ∧ f a = .ok b := by
  cases x with
  | error e => simp
  | ok a => simp

/-- A sequence of two steps fails when the first does, or the second after it. -/
theorem bind_eq_error {ε α β : Type} {x : Except ε α} {f : α → Except ε β} {e : ε} :
    (x >>= f) = .error e ↔ x = .error e ∨ ∃ a, x = .ok a ∧ f a = .error e := by
  cases x with
  | error e' => simp
  | ok a => simp

theorem mapError_eq_ok {ε ε' α : Type} {x : Except ε α} {f : ε → ε'} {a : α} :
    x.mapError f = .ok a ↔ x = .ok a := by
  cases x <;> simp [Except.mapError]

theorem mapError_eq_error {ε ε' α : Type} {x : Except ε α} {f : ε → ε'} {e : ε'} :
    x.mapError f = .error e ↔ ∃ e', x = .error e' ∧ f e' = e := by
  cases x <;> simp [Except.mapError]

/-- The computation does not stop for want of fuel. -/
def Fueled {α : Type} (x : Except Trap α) : Prop := x ≠ .error .outOfFuel

theorem fueled_pure {α : Type} (a : α) : Fueled (pure a) := by simp [Fueled]

theorem Fueled.bind {α β : Type} {x : Except Trap α} {f : α → Except Trap β} (hx : Fueled x)
    (hf : ∀ a, x = .ok a → Fueled (f a)) : Fueled (x >>= f) := by
  cases x with
  | error e => exact fun h => hx (by simpa using h)
  | ok a => exact hf a rfl

/-! ## loops -/

/-- How one pass of a loop ends. -/
inductive Iter (σ ρ : Type) where
  | again (s : σ)
  | leave (r : ρ)

section Loops

variable {ε σ ρ : Type} (out : ε) (body : σ → Except ε (Iter σ ρ))

/-- Repeat `body` until it leaves, at most `fuel` times; `out` reports that the
fuel did not suffice. -/
def loop : Nat → σ → Except ε ρ
  | 0, _ => .error out
  | fuel + 1, s => do
      match ← body s with
      | .again s' => loop fuel s'
      | .leave r => pure r

variable {out body}

theorem loop_again {s s' : σ} (h : body s = .ok (.again s')) (fuel : Nat) :
    loop out body (fuel + 1) s = loop out body fuel s' := by
  simp [loop, h]

theorem loop_leave {s : σ} {r : ρ} (h : body s = .ok (.leave r)) (fuel : Nat) :
    loop out body (fuel + 1) s = .ok r := by
  simp [loop, h]

theorem loop_trap {s : σ} {e : ε} (h : body s = .error e) (fuel : Nat) :
    loop out body (fuel + 1) s = .error e := by
  simp [loop, h]

/-- **Invariant rule**: a property every pass preserves, and that gives `P`
on leaving, gives `P` of the result. -/
theorem loop_invariant {I : σ → Prop} {P : ρ → Prop}
    (again : ∀ s s', I s → body s = .ok (.again s') → I s')
    (leave : ∀ s r, I s → body s = .ok (.leave r) → P r)
    {fuel : Nat} {s : σ} {r : ρ} (hs : I s) (h : loop out body fuel s = .ok r) : P r := by
  induction fuel generalizing s with
  | zero => simp [loop] at h
  | succ fuel ih =>
      cases hb : body s with
      | error e => rw [loop_trap hb] at h; cases h
      | ok it =>
          cases it with
          | again s' =>
              rw [loop_again hb] at h
              exact ih (again s s' hs hb) h
          | leave r' =>
              rw [loop_leave hb] at h
              cases h
              exact leave s r hs hb

/-- **Fault rule**: a loop that fails other than for fuel does so in a pass it
made, from a state where the invariant holds. -/
theorem loop_fault {I : σ → Prop}
    (again : ∀ s s', I s → body s = .ok (.again s') → I s')
    {fuel : Nat} {s : σ} {e : ε} (hs : I s) (he : e ≠ out)
    (h : loop out body fuel s = .error e) : ∃ s', I s' ∧ body s' = .error e := by
  induction fuel generalizing s with
  | zero => simp only [loop, Except.error.injEq] at h; exact absurd h.symm he
  | succ fuel ih =>
      cases hb : body s with
      | error e' =>
          rw [loop_trap hb] at h
          cases h
          exact ⟨s, hs, hb⟩
      | ok it =>
          cases it with
          | again s' =>
              rw [loop_again hb] at h
              exact ih (again s s' hs hb) h
          | leave r' => rw [loop_leave hb] at h; cases h

/-- **Measure rule**: if every pass keeps the invariant and lowers `μ`, fuel
above `μ` is enough. -/
theorem loop_ne_outOfFuel {I : σ → Prop} (μ : σ → Nat)
    (again : ∀ s s', I s → body s = .ok (.again s') → I s' ∧ μ s' < μ s)
    (within : ∀ s, I s → body s ≠ .error out)
    {fuel : Nat} {s : σ} (hs : I s) (hμ : μ s < fuel) :
    loop out body fuel s ≠ .error out := by
  induction fuel generalizing s with
  | zero => omega
  | succ fuel ih =>
      cases hb : body s with
      | error e =>
          rw [loop_trap hb]
          intro h
          cases h
          exact within s hs hb
      | ok it =>
          cases it with
          | again s' =>
              obtain ⟨hs', hlt⟩ := again s s' hs hb
              rw [loop_again hb]
              exact ih hs' (by omega)
          | leave r' => rw [loop_leave hb]; intro h; cases h

/-- **Outcome rule**: if every pass from the invariant goes round again and keeps it,
leaves with `P` or fails with `Q`, the loop returns with `P` or fails with `Q`, given
the fuel. -/
theorem loop_outcome {I : σ → Prop} {P : ρ → Prop} {Q : ε → Prop}
    (step : ∀ s, I s → (∃ s', body s = .ok (.again s') ∧ I s') ∨
      (∃ r, body s = .ok (.leave r) ∧ P r) ∨ ∃ e, body s = .error e ∧ Q e)
    {fuel : Nat} {s : σ} (hs : I s) (hfuel : loop out body fuel s ≠ .error out) :
    (∃ r, loop out body fuel s = .ok r ∧ P r) ∨ ∃ e, loop out body fuel s = .error e ∧ Q e := by
  induction fuel generalizing s with
  | zero => exact absurd rfl hfuel
  | succ fuel ih =>
      obtain ⟨s', hb, hs'⟩ | ⟨r, hb, hr⟩ | ⟨e, hb, he⟩ := step s hs
      · rw [loop_again hb] at hfuel ⊢
        exact ih hs' hfuel
      · exact .inl ⟨r, loop_leave hb fuel, hr⟩
      · exact .inr ⟨e, loop_trap hb fuel, he⟩

/-- **Total rule**: if every pass from the invariant goes round again and keeps it or
leaves with `P`, the loop returns with `P`, given the fuel. -/
theorem loop_total {I : σ → Prop} {P : ρ → Prop}
    (step : ∀ s, I s → (∃ s', body s = .ok (.again s') ∧ I s') ∨ ∃ r, body s = .ok (.leave r) ∧ P r)
    {fuel : Nat} {s : σ} (hs : I s) (hfuel : loop out body fuel s ≠ .error out) :
    ∃ r, loop out body fuel s = .ok r ∧ P r := by
  obtain h | ⟨e, -, he⟩ := loop_outcome (Q := fun _ => False)
    (fun s hs => (step s hs).imp id .inl) hs hfuel
  · exact h
  · exact he.elim

/-- **Fuel is only a bound**: a loop that ends does so with any more fuel. -/
theorem loop_mono {fuel fuel' : Nat} (hle : fuel ≤ fuel') {s : σ}
    (h : loop out body fuel s ≠ .error out) :
    loop out body fuel' s = loop out body fuel s := by
  induction fuel generalizing fuel' s with
  | zero => simp [loop] at h
  | succ fuel ih =>
      obtain ⟨k, rfl⟩ : ∃ k, fuel' = k + 1 := ⟨fuel' - 1, by omega⟩
      cases hb : body s with
      | error e => rw [loop_trap hb, loop_trap hb]
      | ok it =>
          cases it with
          | again s' =>
              rw [loop_again hb] at h
              rw [loop_again hb, loop_again hb]
              exact ih (by omega) h
          | leave r' => rw [loop_leave hb, loop_leave hb]

variable (out body)

/-- The loop makes only finitely many passes from a state on: it leaves, fails other
than by `out`, or goes round to a state it ends from. -/
inductive EndsFrom : σ → Prop where
  | leave {s : σ} {r : ρ} (h : body s = .ok (.leave r)) : EndsFrom s
  | trap {s : σ} {e : ε} (h : body s = .error e) (he : e ≠ out) : EndsFrom s
  | again {s s' : σ} (h : body s = .ok (.again s')) (hs' : EndsFrom s') : EndsFrom s

variable {out body}

/-- A loop ends exactly when some fuel suffices for it. -/
theorem endsFrom_iff {s : σ} : EndsFrom out body s ↔ ∃ fuel, loop out body fuel s ≠ .error out := by
  constructor
  · intro h
    induction h with
    | leave h => exact ⟨1, by rw [loop_leave h]; simp⟩
    | trap h he => exact ⟨1, by rw [loop_trap h]; simpa using he⟩
    | again h _ ih =>
        obtain ⟨fuel, hfuel⟩ := ih
        exact ⟨fuel + 1, by rwa [loop_again h]⟩
  · rintro ⟨fuel, hfuel⟩
    induction fuel generalizing s with
    | zero => exact absurd rfl hfuel
    | succ fuel ih =>
        cases hb : body s with
        | error e => exact .trap hb (by rw [loop_trap hb] at hfuel; simpa using hfuel)
        | ok it =>
            cases it with
            | again s' => exact .again hb (ih (by rwa [loop_again hb] at hfuel))
            | leave r => exact .leave hb

/-- Every pass from the invariant keeps it and lowers the measure, or ends with fuel for
what it does within. -/
structure Lowers (out : ε) (body : σ → Except ε (Iter σ ρ)) (I : σ → Prop) (μ : σ → Nat) :
    Prop where
  again : ∀ s s', I s → body s = .ok (.again s') → I s' ∧ μ s' < μ s
  within : ∀ s, I s → body s ≠ .error out

variable {I : σ → Prop} {μ : σ → Nat}

theorem Lowers.ne_outOfFuel (h : Lowers out body I μ) {fuel : Nat} {s : σ} (hs : I s)
    (hμ : μ s < fuel) : loop out body fuel s ≠ .error out :=
  loop_ne_outOfFuel μ h.again h.within hs hμ

/-- **Ending by a measure**: the passes from a state are no more than its measure. -/
theorem Lowers.endsFrom (h : Lowers out body I μ) {s : σ} (hs : I s) : EndsFrom out body s :=
  endsFrom_iff.mpr ⟨μ s + 1, h.ne_outOfFuel hs (Nat.lt_succ_self _)⟩

end Loops

/-! ## two runs -/

/-- Two computations agree: both succeed with related results, or both fail the same
way. -/
def Agree {ε α β : Type} (R : α → β → Prop) : Except ε α → Except ε β → Prop
  | .ok a, .ok b => R a b
  | .error e, .error e' => e = e'
  | _, _ => False

/-- Two passes of a loop agree on how they end. -/
def IterAgree {σ σ' ρ ρ' : Type} (R : σ → σ' → Prop) (Q : ρ → ρ' → Prop) :
    Iter σ ρ → Iter σ' ρ' → Prop
  | .again s, .again s' => R s s'
  | .leave r, .leave r' => Q r r'
  | _, _ => False

section TwoRuns

variable {ε ε' α α' β β' σ σ' ρ ρ' : Type} {R : α → α' → Prop} {Q : β → β' → Prop}

theorem Agree.bind {x : Except ε α} {y : Except ε α'} {f : α → Except ε β}
    {g : α' → Except ε β'} (h : Agree R x y) (hfg : ∀ a b, R a b → Agree Q (f a) (g b)) :
    Agree Q (x >>= f) (y >>= g) := by
  cases x with
  | error e =>
      cases y with
      | error e' => exact h
      | ok b => exact h.elim
  | ok a =>
      cases y with
      | error e' => exact h.elim
      | ok b => exact hfg a b h

theorem agree_ite {c : Prop} [Decidable c] {x y : Except ε α} {x' y' : Except ε α'}
    (h : c → Agree R x x') (h' : ¬ c → Agree R y y') :
    Agree R (if c then x else y) (if c then x' else y') := by
  split
  · exact h ‹_›
  · exact h' ‹_›

theorem agree_self (x : Except ε α) : Agree (fun a b => a = b) x x := by
  cases x <;> exact rfl

/-- Results that agree look the same where related results do. -/
theorem Agree.map_eq {γ : Type} {x : Except ε α} {y : Except ε α'} {f : α → γ} {g : α' → γ}
    (h : Agree R x y) (hfg : ∀ a b, R a b → f a = g b) : x.map f = y.map g := by
  cases x with
  | error e =>
      cases y with
      | error e' => exact congrArg Except.error h
      | ok b => exact h.elim
  | ok a =>
      cases y with
      | error e' => exact h.elim
      | ok b => exact congrArg Except.ok (hfg a b h)

/-- **Two-run rule**: loops whose passes agree from related states agree. -/
theorem loop_agree {out : ε} {body : σ → Except ε (Iter σ ρ)} {body' : σ' → Except ε (Iter σ' ρ')}
    {R : σ → σ' → Prop} {Q : ρ → ρ' → Prop}
    (hbody : ∀ s s', R s s' → Agree (IterAgree R Q) (body s) (body' s')) (fuel : Nat) {s : σ}
    {s' : σ'} (h : R s s') : Agree Q (loop out body fuel s) (loop out body' fuel s') := by
  induction fuel generalizing s s' with
  | zero => exact rfl
  | succ fuel ih =>
      refine (hbody s s' h).bind fun it it' hit => ?_
      cases it <;> cases it' <;> first | exact ih hit | exact hit | exact hit.elim

/-- Loops whose first passes agree, and whose passes agree from then on, agree. -/
theorem loop_agree_first {out : ε} {body : σ → Except ε (Iter σ ρ)}
    {body' : σ' → Except ε (Iter σ' ρ')} {R : σ → σ' → Prop} {Q : ρ → ρ' → Prop}
    (hbody : ∀ s s', R s s' → Agree (IterAgree R Q) (body s) (body' s')) (fuel : Nat) {s : σ}
    {s' : σ'} (h : Agree (IterAgree R Q) (body s) (body' s')) :
    Agree Q (loop out body (fuel + 1) s) (loop out body' (fuel + 1) s') := by
  refine h.bind fun it it' hit => ?_
  cases it <;> cases it' <;>
    first | exact loop_agree hbody fuel hit | exact hit | exact hit.elim

end TwoRuns

/-! ## arrays -/

section Arrays

variable {α : Type}

/-- `l[i]` for a Swift array: an `Int` subscript, checked at both ends. -/
def idx (l : List α) : Int → Except Trap α
  | .ofNat n => match l[n]? with
      | some x => .ok x
      | none => .error .outOfRange
  | .negSucc _ => .error .outOfRange

/-- `l[i] = x` for a Swift array. -/
def setAt (l : List α) (i : Nat) (x : α) : Except Trap (List α) :=
  if i < l.length then .ok (l.set i x) else .error .outOfRange

/-- `l.remove(at: i)`, leaving the shorter array. -/
def removeAt (l : List α) : Int → Except Trap (List α)
  | .ofNat n => if n < l.length then .ok (l.eraseIdx n) else .error .outOfRange
  | .negSucc _ => .error .outOfRange

/-- `l.last!`. -/
def lastOf (l : List α) : Except Trap α :=
  match l.getLast? with
  | some x => .ok x
  | none => .error .outOfRange

theorem idx_eq_ok {l : List α} {i : Int} {x : α} :
    idx l i = .ok x ↔ 0 ≤ i ∧ l[i.toNat]? = some x := by
  cases i with
  | ofNat n =>
      simp only [idx, Int.ofNat_eq_natCast, Int.natCast_nonneg, Int.toNat_natCast, true_and]
      cases l[n]? <;> simp
  | negSucc n => simp [idx, Int.negSucc_not_nonneg]

theorem removeAt_eq_ok {l l' : List α} {i : Int} :
    removeAt l i = .ok l' ↔ 0 ≤ i ∧ i.toNat < l.length ∧ l' = l.eraseIdx i.toNat := by
  cases i with
  | ofNat n =>
      simp only [removeAt, Int.ofNat_eq_natCast, Int.natCast_nonneg, Int.toNat_natCast, true_and]
      by_cases h : n < l.length
      · simp [h, eq_comm]
      · simp [h]
  | negSucc n => simp [removeAt, Int.negSucc_not_nonneg]

/-- Reading at the length of the first part reads the head of the second. -/
theorem idx_append_cons (xs : List α) (x : α) (ys : List α) :
    idx (xs ++ x :: ys) xs.length = .ok x := by
  simp [idx]

/-- Removing at the length of the first part removes the head of the second. -/
theorem removeAt_append_cons (xs : List α) (x : α) (ys : List α) :
    removeAt (xs ++ x :: ys) xs.length = .ok (xs ++ ys) := by
  simp [removeAt, List.eraseIdx_append_of_length_le]

theorem lastOf_eq_ok {l : List α} {x : α} : lastOf l = .ok x ↔ l.getLast? = some x := by
  unfold lastOf
  cases l.getLast? <;> simp

/-- Array accesses never run out of fuel. -/
theorem fueled_idx (l : List α) (i : Int) : Fueled (idx l i) := by
  cases i with
  | ofNat n => simp only [idx, Fueled]; cases l[n]? <;> simp
  | negSucc n => simp [idx, Fueled]

theorem fueled_removeAt (l : List α) (i : Int) : Fueled (removeAt l i) := by
  cases i with
  | ofNat n => simp only [removeAt, Fueled]; split <;> simp
  | negSucc n => simp [removeAt, Fueled]

theorem fueled_lastOf (l : List α) : Fueled (lastOf l) := by
  simp only [lastOf, Fueled]
  cases l.getLast? <;> simp

/-- Removing the element that was read leaves the rest of the array. -/
theorem perm_removeAt {l l' : List α} {i : Int} {x : α} (hx : idx l i = .ok x)
    (hl : removeAt l i = .ok l') : (x :: l').Perm l := by
  obtain ⟨-, hx⟩ := idx_eq_ok.mp hx
  obtain ⟨-, hlt, rfl⟩ := removeAt_eq_ok.mp hl
  obtain ⟨_, hx⟩ := List.getElem?_eq_some_iff.mp hx
  rw [← hx]
  exact List.getElem_cons_eraseIdx_perm hlt

/-! ## sorting -/

/-- `l.sorted(by: lt)`, a stable sort. -/
def sortedBy (lt : α → α → Bool) (l : List α) : List α :=
  l.insertionSort fun a b => lt b a = false

theorem perm_sortedBy (lt : α → α → Bool) (l : List α) : (sortedBy lt l).Perm l :=
  List.perm_insertionSort _ l

@[simp] theorem length_sortedBy (lt : α → α → Bool) (l : List α) :
    (sortedBy lt l).length = l.length := (perm_sortedBy lt l).length_eq

@[simp] theorem mem_sortedBy {lt : α → α → Bool} {l : List α} {x : α} :
    x ∈ sortedBy lt l ↔ x ∈ l := (perm_sortedBy lt l).mem_iff

/-- The sort puts a strict weak order in order: no later element is before an
earlier one. -/
theorem pairwise_sortedBy {lt : α → α → Bool} (asymm : ∀ a b, lt a b = true → lt b a = false)
    (trans : ∀ a b c, lt b a = false → lt c b = false → lt c a = false) (l : List α) :
    (sortedBy lt l).Pairwise fun a b => lt b a = false := by
  have : Std.Total fun a b => lt b a = false := ⟨fun a b => by
    cases h : lt b a with
    | false => exact .inl rfl
    | true => exact .inr (asymm b a h)⟩
  have : IsTrans α fun a b => lt b a = false := ⟨fun a b c => trans a b c⟩
  exact List.pairwise_insertionSort _ l

end Arrays

end IosGame
