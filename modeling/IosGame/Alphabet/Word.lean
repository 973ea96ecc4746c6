import IosGame.Marks
import IosGame.System
import Mathlib.Data.List.FinRange

/-!
# IosGame.Alphabet.Word

One round of the word game: the word's letters stand on tiles, shuffled, and each tile is
dragged to a slot of its letter.

A drag places a tile in the first free slot of its letter that it ended near.  Which slot
is near is left open: `cmpDistance` answers for each slot and drag as it likes.  The
letters still on tiles are those of the free slots, in some order (`Matched`), so no choice
of slots leaves a tile without one (`word_never_stuck`).
-/

namespace IosGame

namespace Alphabet

/-- `ansChars` and `quesChars`, the tiles and the slots, and `ans.correct` and
`ques.correct`, which of them are placed and filled. -/
structure Puzzle (α : Type) where
  ansChars : List α
  quesChars : List α
  ansCorrect : List Bool
  quesCorrect : List Bool
  length_ansCorrect : ansCorrect.length = ansChars.length
  length_quesCorrect : quesCorrect.length = quesChars.length
  deriving DecidableEq

variable {α : Type}

/-- `vocabularyInit` on the word `chars`, `charSh` being its letters shuffled. -/
def vocabularyInit (chars charSh : List α) (h : charSh.Perm chars) : Puzzle α where
  ansChars := charSh
  quesChars := chars
  ansCorrect := List.replicate chars.length false
  quesCorrect := List.replicate chars.length false
  length_ansCorrect := by rw [List.length_replicate, h.length_eq]
  length_quesCorrect := List.length_replicate

namespace Puzzle

variable (p : Puzzle α)

/-- Whether the tile is placed. -/
def placed (index : Fin p.ansChars.length) : Bool :=
  p.ansCorrect.get (index.cast p.length_ansCorrect.symm)

/-- Whether the slot is filled. -/
def filled (i : Fin p.quesChars.length) : Bool :=
  p.quesCorrect.get (i.cast p.length_quesCorrect.symm)

/-- Put the tile into the slot. -/
def place (index : Fin p.ansChars.length) (i : Fin p.quesChars.length) : Puzzle α :=
  { p with
    ansCorrect := p.ansCorrect.set index true
    quesCorrect := p.quesCorrect.set i true
    length_ansCorrect := by rw [List.length_set, p.length_ansCorrect]
    length_quesCorrect := by rw [List.length_set, p.length_quesCorrect] }

/-- The slot at which the loop of `onEnded` stops: the first that is free, has the tile's
letter and is near. -/
def slotFor [DecidableEq α] (cmpDistance : Nat → Bool) (index : Fin p.ansChars.length) :
    Option (Fin p.quesChars.length) :=
  (List.finRange p.quesChars.length).find? fun i =>
    decide (p.ansChars.get index = p.quesChars.get i) && !p.filled i && cmpDistance i

/-- What `onEnded` does to the puzzle when the tile has been dragged: the puzzle after it,
and whether `pass` is found true, which ends the round. -/
def onEnded [DecidableEq α] (cmpDistance : Nat → Bool) (index : Fin p.ansChars.length) :
    Puzzle α × Bool :=
  if p.placed index then
    (p, false)
  else
    let p' := match p.slotFor cmpDistance index with
      | some i => p.place index i
      | none => p
    let pass := p'.ansCorrect.all id
    (p', pass)

end Puzzle

/-- A finished drag: the tile, and what the distance test answers for each slot. -/
structure Drag where
  index : Nat
  cmpDistance : Nat → Bool

/-- The round on the word `chars`, however its tiles are shuffled and dragged. -/
def round [DecidableEq α] (chars : List α) : System (Puzzle α) Drag where
  init p := ∃ charSh, ∃ h : List.Perm charSh chars, p = vocabularyInit chars charSh h
  step p drag p' := ∃ h : drag.index < p.ansChars.length,
    p' = (p.onEnded drag.cmpDistance ⟨drag.index, h⟩).1

/-! ## what a drag does -/

section Drag

variable {p : Puzzle α} {index : Fin p.ansChars.length}

theorem placed_eq (p : Puzzle α) (index : Fin p.ansChars.length) :
    p.ansCorrect[index.val]? = some (p.placed index) := by
  have hlt : index.val < p.ansCorrect.length := by simp [p.length_ansCorrect]
  rw [List.getElem?_eq_getElem hlt]
  rfl

theorem filled_eq (p : Puzzle α) (i : Fin p.quesChars.length) :
    p.quesCorrect[i.val]? = some (p.filled i) := by
  have hlt : i.val < p.quesCorrect.length := by simp [p.length_quesCorrect]
  rw [List.getElem?_eq_getElem hlt]
  rfl

variable [DecidableEq α]

/-- A drag of a free tile puts it into a free slot of its letter, or changes nothing. -/
theorem onEnded_cases (hfree : p.placed index = false) (cmpDistance : Nat → Bool) :
    (∃ i, p.ansChars.get index = p.quesChars.get i ∧ p.filled i = false ∧
      p.onEnded cmpDistance index =
        (p.place index i, (p.place index i).ansCorrect.all id)) ∨
    p.onEnded cmpDistance index = (p, p.ansCorrect.all id) := by
  simp only [Puzzle.onEnded, hfree, Bool.false_eq_true, ↓reduceIte]
  cases hslot : p.slotFor cmpDistance index with
  | none => exact .inr rfl
  | some i =>
      have hi := List.find?_some hslot
      simp only [Bool.and_eq_true, decide_eq_true_eq, Bool.not_eq_true'] at hi
      exact .inl ⟨i, hi.1.1, hi.1.2, rfl⟩

theorem onEnded_placed (hplaced : p.placed index = true) (cmpDistance : Nat → Bool) :
    p.onEnded cmpDistance index = (p, false) := by
  rw [Puzzle.onEnded, if_pos hplaced]

end Drag

/-! ## tiles and slots -/

/-- The letters on tiles not placed are those of the free slots, in some order. -/
def Matched (p : Puzzle α) : Prop :=
  (unmarked p.ansChars p.ansCorrect).Perm (unmarked p.quesChars p.quesCorrect)

section Matched

variable {p : Puzzle α}

theorem matched_vocabularyInit {chars charSh : List α} (h : charSh.Perm chars) :
    Matched (vocabularyInit chars charSh h) := by
  have hans : unmarked charSh (.replicate chars.length false) = charSh := by
    rw [← h.length_eq, unmarked_replicate]
  have hques := unmarked_replicate chars
  simpa only [Matched, vocabularyInit, hans, hques] using h

theorem Matched.place (h : Matched p) {index : Fin p.ansChars.length}
    {i : Fin p.quesChars.length} (hletter : p.ansChars.get index = p.quesChars.get i)
    (hfree : p.placed index = false) (hslot : p.filled i = false) :
    Matched (p.place index i) := by
  have htile : (unmarked p.ansChars p.ansCorrect).Perm
      (p.ansChars.get index :: unmarked p.ansChars (p.ansCorrect.set index true)) :=
    perm_unmarked_set (by simp) (by rw [placed_eq, hfree])
  have hques : (unmarked p.quesChars p.quesCorrect).Perm
      (p.quesChars.get i :: unmarked p.quesChars (p.quesCorrect.set i true)) :=
    perm_unmarked_set (by simp) (by rw [filled_eq, hslot])
  rw [hletter] at htile
  exact (List.perm_cons _).mp (htile.symm.trans (h.trans hques))

theorem Matched.onEnded [DecidableEq α] (h : Matched p) (cmpDistance : Nat → Bool)
    (index : Fin p.ansChars.length) : Matched (p.onEnded cmpDistance index).1 := by
  cases hplaced : p.placed index with
  | true => rwa [onEnded_placed hplaced]
  | false =>
      rcases onEnded_cases hplaced cmpDistance with ⟨i, hletter, hslot, heq⟩ | heq
      · rw [heq]
        exact h.place hletter hplaced hslot
      · rwa [heq]

theorem matched [DecidableEq α] {chars : List α} (h : (round chars).Reach p) : Matched p := by
  refine h.invariant (fun p hp => ?_) fun p drag p' _ ih hstep => ?_
  · obtain ⟨charSh, hperm, rfl⟩ := hp
    exact matched_vocabularyInit hperm
  · obtain ⟨hindex, rfl⟩ := hstep
    exact ih.onEnded _ _

/-- All tiles are placed when all slots are filled. -/
theorem Matched.all_iff (h : Matched p) :
    p.ansCorrect.all id = true ↔ p.quesCorrect.all id = true := by
  rw [← unmarked_eq_nil p.length_ansCorrect, ← unmarked_eq_nil p.length_quesCorrect]
  constructor
  · intro hnil
    exact List.perm_nil.mp (hnil ▸ h.symm)
  · intro hnil
    exact List.perm_nil.mp (hnil ▸ h)

/-- A tile not placed has a free slot of its letter. -/
theorem Matched.exists_slot (h : Matched p) {index : Fin p.ansChars.length}
    (hfree : p.placed index = false) :
    ∃ i, p.quesChars.get i = p.ansChars.get index ∧ p.filled i = false := by
  have hmem : p.ansChars.get index ∈ unmarked p.ansChars p.ansCorrect :=
    mem_unmarked.mpr ⟨index, by simp, by rw [placed_eq, hfree]⟩
  obtain ⟨i, hletter, hmark⟩ := mem_unmarked.mp (h.mem_iff.mp hmem)
  obtain ⟨hlt, hget⟩ := List.getElem?_eq_some_iff.mp hletter
  refine ⟨⟨i, hlt⟩, hget, ?_⟩
  have hfilled := filled_eq p ⟨i, hlt⟩
  rw [hmark] at hfilled
  exact (Option.some.inj hfilled).symm

/-- The drag that ends the round is the one that fills the last slot. -/
theorem Matched.pass_iff [DecidableEq α] (h : Matched p) (cmpDistance : Nat → Bool)
    (index : Fin p.ansChars.length) :
    (p.onEnded cmpDistance index).2 = true ↔
      (p.onEnded cmpDistance index).1.quesCorrect.all id = true ∧
        p.quesCorrect.all id = false := by
  have hafter := (h.onEnded cmpDistance index).all_iff
  cases hplaced : p.placed index with
  | true => simp [onEnded_placed hplaced]
  | false =>
      -- a free tile means a free slot
      have hbefore : p.quesCorrect.all id = false := by
        obtain ⟨i, -, hslot⟩ := h.exists_slot hplaced
        refine List.all_eq_false.mpr ⟨false, ?_, by simp⟩
        exact List.mem_of_getElem? (hslot ▸ filled_eq p i)
      have hpass : (p.onEnded cmpDistance index).2 =
          (p.onEnded cmpDistance index).1.ansCorrect.all id := by
        rcases onEnded_cases hplaced cmpDistance with ⟨i, -, -, heq⟩ | heq <;>
          rw [heq]
      rw [hpass, hafter]
      exact ⟨fun hall => ⟨hall, hbefore⟩, fun hall => hall.1⟩

end Matched

/-- **No dead end**: whatever the word, the shuffle, the drags and the answers of the
distance test, each letter has as many tiles to place as free slots.  So all tiles are
placed when all slots are filled, a tile to place always has a slot, and the drag that ends
the round is the one that fills the last slot. -/
theorem word_never_stuck [DecidableEq α] {chars : List α} {p : Puzzle α}
    (h : (round chars).Reach p) :
    (∀ c, (p.ansChars.zip p.ansCorrect).count (c, false) =
      (p.quesChars.zip p.quesCorrect).count (c, false)) ∧
    (p.ansCorrect.all id = true ↔ p.quesCorrect.all id = true) ∧
    (∀ index, p.placed index = false →
      ∃ i, p.quesChars.get i = p.ansChars.get index ∧ p.filled i = false) ∧
    ∀ cmpDistance index, (p.onEnded cmpDistance index).2 = true ↔
      (p.onEnded cmpDistance index).1.quesCorrect.all id = true ∧
        p.quesCorrect.all id = false := by
  have hmatched := matched h
  refine ⟨fun c => ?_, hmatched.all_iff, fun index => hmatched.exists_slot, hmatched.pass_iff⟩
  rw [← count_unmarked, ← count_unmarked]
  exact hmatched.count_eq c

/-- The first E dropped between the two slots of its letter goes into one of them. -/
theorem word_never_stuck_repeated :
    let p := vocabularyInit ['S', 'E', 'E'] ['E', 'S', 'E'] (by decide)
    let p' := (p.onEnded (fun i => i == 2) ⟨0, by decide⟩).1
    p'.quesCorrect = [false, false, true] ∧
      ∃ i, p'.quesChars.get i = 'E' ∧ p'.filled i = false := by
  intro p p'
  have hp : (round ['S', 'E', 'E']).Reach p := .init ⟨_, _, rfl⟩
  have hp' : (round ['S', 'E', 'E']).Reach p' :=
    hp.step (e := ⟨0, fun i => i == 2⟩) ⟨by decide, rfl⟩
  exact ⟨by decide, (word_never_stuck hp').2.2.1 ⟨2, by decide⟩ (by decide)⟩

end Alphabet

end IosGame
