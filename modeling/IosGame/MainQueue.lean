import Mathlib.Algebra.BigOperators.Group.List.Basic
import Mathlib.Algebra.GroupWithZero.Nat
import Mathlib.Data.List.Perm.Basic

/-!
# IosGame.MainQueue

Blocks that run later, one at a time, each after its delay; a block may schedule the one
that goes on after it, and so make up a chain.  Time passes while no block is due, and any
of those due may run next.

* `Together` — chains that began at the same time end at the same time, for a chain has as
  far to go after a block is run as before it (`Together.run`), and a tick brings all of
  them on alike (`Together.tick`);
* `work_tick_lt`, `work_run_lt` — chains come to an end, if every block is worth more than
  what it schedules.
-/

namespace IosGame

/-- A block, and how many ticks are left before it is due. -/
structure Delayed (β : Type) where
  block : β
  due : Nat
  deriving DecidableEq, Repr

namespace MainQueue

variable {β : Type} {next : β → Option (Delayed β)} {q : List (Delayed β)} {d : Delayed β}
  {i : Nat}

/-- No block is due. -/
def Quiet (q : List (Delayed β)) : Prop := ∀ d ∈ q, 0 < d.due

instance : Decidable (Quiet q) := inferInstanceAs (Decidable (∀ d ∈ q, 0 < d.due))

/-- A tick of the clock. -/
def tick (q : List (Delayed β)) : List (Delayed β) := q.map fun d => { d with due := d.due - 1 }

/-- The queue once its `i`-th block has run, and scheduled the next. -/
def run (next : β → Option (Delayed β)) (q : List (Delayed β)) (i : Nat) : List (Delayed β) :=
  match q[i]? with
  | some d => q.eraseIdx i ++ (next d.block).toList
  | none => q

theorem run_eq (h : q[i]? = some d) :
    run next q i = q.eraseIdx i ++ (next d.block).toList := by
  simp only [run, h]

/-- Running a block leaves the others in the queue. -/
theorem eq_or_mem_eraseIdx {d' : Delayed β} (h : q[i]? = some d) (hd' : d' ∈ q) :
    d' = d ∨ d' ∈ q.eraseIdx i := by
  obtain ⟨hi, rfl⟩ := List.getElem?_eq_some_iff.mp h
  exact List.mem_cons.mp ((List.getElem_cons_eraseIdx_perm hi).mem_iff.mpr hd')

/-- While there are blocks, one is due or time passes. -/
theorem quiet_or_due (q : List (Delayed β)) :
    Quiet q ∨ ∃ (i : Nat) (d : Delayed β), q[i]? = some d ∧ d.due = 0 := by
  by_cases hquiet : Quiet q
  · exact .inl hquiet
  · refine .inr ?_
    simp only [Quiet, not_forall] at hquiet
    obtain ⟨d, hd, hdue⟩ := hquiet
    obtain ⟨i, hi⟩ := List.mem_iff_getElem?.mp hd
    exact ⟨i, d, hi, Nat.eq_zero_of_not_pos hdue⟩

/-! ## chains that run together -/

/-- All chains have `rest` ticks to go, a block having `after` to go once it has run. -/
def Together (after : β → Nat) (rest : Nat) (q : List (Delayed β)) : Prop :=
  ∀ d ∈ q, d.due + after d.block = rest

section Together

variable {after : β → Nat} {rest : Nat}

theorem Together.append {q' : List (Delayed β)} (h : Together after rest q)
    (h' : Together after rest q') : Together after rest (q ++ q') := by
  intro d hd
  exact (List.mem_append.mp hd).elim (h d) (h' d)

theorem Together.tick (h : Together after rest q) (hquiet : Quiet q) :
    Together after (rest - 1) (tick q) := by
  intro d' hd'
  obtain ⟨d, hd, rfl⟩ := List.mem_map.mp hd'
  have hpos := hquiet d hd
  have hrest := h d hd
  simp only
  omega

/-- A block has as far to go as the one it schedules. -/
theorem Together.run (h : Together after rest q)
    (hnext : ∀ b d, next b = some d → d.due + after d.block = after b)
    (hd : q[i]? = some d) (hdue : d.due = 0) : Together after rest (run next q i) := by
  rw [run_eq hd]
  refine Together.append (fun d' hd' => h d' (List.mem_of_mem_eraseIdx hd')) fun d' hd' => ?_
  have hrest := h d (List.mem_of_getElem? hd)
  have := hnext d.block d' (Option.mem_toList.mp hd')
  omega

end Together

/-! ## the end of the chains -/

/-- The ticks and blocks still to come, `cost` being those that a block stands for. -/
def work (cost : β → Nat) (q : List (Delayed β)) : Nat :=
  (q.map fun d => d.due + cost d.block).sum

section Work

variable {cost : β → Nat}

theorem work_cons (d : Delayed β) (q : List (Delayed β)) :
    work cost (d :: q) = d.due + cost d.block + work cost q := by
  simp only [work, List.map_cons, List.sum_cons]

theorem work_tick_le (cost : β → Nat) (q : List (Delayed β)) :
    work cost (tick q) ≤ work cost q := by
  induction q with
  | nil => exact Nat.le_refl _
  | cons d q ih =>
      have htick : tick (d :: q) = { d with due := d.due - 1 } :: tick q := rfl
      rw [htick, work_cons, work_cons]
      simp only
      omega

theorem work_tick_lt (cost : β → Nat) (hne : q ≠ []) (hquiet : Quiet q) :
    work cost (tick q) < work cost q := by
  cases q with
  | nil => exact absurd rfl hne
  | cons d q =>
      have htick : tick (d :: q) = { d with due := d.due - 1 } :: tick q := rfl
      have hpos := hquiet d List.mem_cons_self
      have hle := work_tick_le cost q
      rw [htick, work_cons, work_cons]
      simp only
      omega

theorem work_eraseIdx (cost : β → Nat) (hd : q[i]? = some d) :
    work cost (q.eraseIdx i) + (d.due + cost d.block) = work cost q := by
  obtain ⟨hi, rfl⟩ := List.getElem?_eq_some_iff.mp hd
  have hperm := (List.getElem_cons_eraseIdx_perm hi).map fun d => d.due + cost d.block
  rw [work, work, ← hperm.sum_eq, List.map_cons, List.sum_cons]
  omega

/-- A block that is worth more than the one it schedules. -/
theorem work_run_lt (hpos : ∀ b, 0 < cost b)
    (hnext : ∀ b d, next b = some d → d.due + cost d.block < cost b)
    (hd : q[i]? = some d) : work cost (run next q i) < work cost q := by
  have herase := work_eraseIdx cost hd
  have hcost : work cost (next d.block).toList < d.due + cost d.block := by
    cases hd' : next d.block with
    | none => simpa [work] using Nat.add_pos_right d.due (hpos d.block)
    | some d' =>
        have := hnext d.block d' hd'
        rw [Option.toList_some, work_cons]
        simp only [work, List.map_nil, List.sum_nil]
        omega
  have happend : work cost (run next q i) =
      work cost (q.eraseIdx i) + work cost (next d.block).toList := by
    simp [run_eq hd, work]
  omega

end Work

end MainQueue

end IosGame
