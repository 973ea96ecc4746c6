import Mathlib

/-!
# IosGame.Ranking

Trick-taking comparison in the abstract.  Things have a *kind* and, within a kind,
a *key*; a thing outranks another of its kind by its key, and one of a lower kind
only if that kind may be crossed.

Whatever the kinds, keys and crossing rule, outranking is a strict order, so a
trick, a sequence in which each play outranks the one before, never cycles.
-/

namespace IosGame

variable {α ι κ : Type} [LinearOrder ι] [LinearOrder κ] {kind : α → ι} {key : α → κ}
  {crosses : ι → Prop}

/-- `a` outranks `b`: by key within a kind, or by kind where that is allowed. -/
def Outranks (kind : α → ι) (key : α → κ) (crosses : ι → Prop) (a b : α) : Prop :=
  kind a = kind b ∧ key b < key a ∨ crosses (kind b) ∧ kind b < kind a

namespace Outranks

theorem irrefl (a : α) : ¬ Outranks kind key crosses a a := by
  rintro (⟨-, h⟩ | ⟨-, h⟩) <;> exact lt_irrefl _ h

theorem trans {a b c : α} (hab : Outranks kind key crosses a b)
    (hbc : Outranks kind key crosses b c) : Outranks kind key crosses a c := by
  rcases hab with ⟨hk, hab⟩ | ⟨hx, hab⟩ <;> rcases hbc with ⟨hk', hbc⟩ | ⟨hx', hbc⟩
  · exact .inl ⟨hk.trans hk', hbc.trans hab⟩
  · exact .inr ⟨hx', hk ▸ hbc⟩
  · exact .inr ⟨hk' ▸ hx, hk' ▸ hab⟩
  · exact .inr ⟨hx', hbc.trans hab⟩

theorem asymm {a b : α} (hab : Outranks kind key crosses a b) :
    ¬ Outranks kind key crosses b a := fun hba => irrefl a (hab.trans hba)

/-- Within a kind, one of two things outranks the other exactly when their keys differ. -/
theorem decided_iff {a b : α} (hk : kind a = kind b) :
    Outranks kind key crosses a b ∨ Outranks kind key crosses b a ↔ key a ≠ key b := by
  constructor
  · rintro ((⟨-, h⟩ | ⟨-, h⟩) | (⟨-, h⟩ | ⟨-, h⟩))
    · exact h.ne'
    · exact absurd hk h.ne'
    · exact h.ne
    · exact absurd hk h.ne
  · intro hne
    obtain hlt | hlt := lt_or_gt_of_ne hne
    · exact .inr (.inl ⟨hk.symm, hlt⟩)
    · exact .inl (.inl ⟨hk, hlt⟩)

instance : IsTrans α (Outranks kind key crosses) := ⟨fun _ _ _ => Outranks.trans⟩

/-- **Tricks increase**: if each play outranks the next in the list, every play
outranks all later ones, and no two are the same. -/
theorem pairwise_of_chain {plays : List α} (h : plays.IsChain (Outranks kind key crosses)) :
    plays.Pairwise (Outranks kind key crosses) := List.isChain_iff_pairwise.mp h

end Outranks

end IosGame
