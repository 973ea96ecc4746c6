import Mathlib

/-!
# IosGame.Text

Texts as lists of Unicode scalars: replacement of occurrences, the parts between
separators, and decimal integers.

Of a pair of separators one is left, and of three in a row a pair (`infix_replacing_pair`).
`components` is `List.splitOn`, whose inverse is `List.intercalate`.  A decimal is read
back by `intOf` (`intOf_decimal`), which also takes a plus sign and leading zeros, and
refuses what does not fit the machine's integers.
-/

namespace IosGame

abbrev Text := List Char

/-! ## replacement -/

section Replacement

variable {α : Type} [DecidableEq α]

/-- Replace the occurrences of a pattern that is not empty, from left to right and without
overlap, after `skip` characters of an occurrence. -/
def replacingFrom (pattern template : List α) : Nat → List α → List α
  | _, [] => []
  | 0, c :: cs =>
      if pattern.isPrefixOf (c :: cs) then
        template ++ replacingFrom pattern template (pattern.length - 1) cs
      else c :: replacingFrom pattern template 0 cs
  | skip + 1, _ :: cs => replacingFrom pattern template skip cs

/-- `replacingOccurrences(of:with:)`. -/
def replacingOccurrences (pattern template text : List α) : List α :=
  replacingFrom pattern template 0 text

variable {a b c n : α}

theorem replacing_single (a b : α) (text : List α) :
    replacingOccurrences [a] [b] text = text.map fun c => if c = a then b else c := by
  unfold replacingOccurrences
  induction text with
  | nil => rfl
  | cons c text ih =>
      by_cases hc : c = a
      · simp [replacingFrom, hc, ih]
      · simp [replacingFrom, hc, Ne.symm hc, ih]

theorem replacing_pair_cons_ne (h : c ≠ n) (text : List α) :
    replacingOccurrences [n, n] [n] (c :: text) =
      c :: replacingOccurrences [n, n] [n] text := by
  simp [replacingOccurrences, replacingFrom, Ne.symm h]

theorem replacing_pair_twice (n : α) (text : List α) :
    replacingOccurrences [n, n] [n] (n :: n :: text) =
      n :: replacingOccurrences [n, n] [n] text := by
  simp [replacingOccurrences, replacingFrom]

theorem replacing_pair_once (h : c ≠ n) (text : List α) :
    replacingOccurrences [n, n] [n] (n :: c :: text) =
      n :: replacingOccurrences [n, n] [n] (c :: text) := by
  simp [replacingOccurrences, replacingFrom, Ne.symm h]

theorem replacing_pair_append {row : List α} (h : n ∉ row) (text : List α) :
    replacingOccurrences [n, n] [n] (row ++ text) =
      row ++ replacingOccurrences [n, n] [n] text := by
  induction row with
  | nil => rfl
  | cons c row ih =>
      rw [List.mem_cons, not_or] at h
      rw [List.cons_append, replacing_pair_cons_ne (Ne.symm h.1), ih h.2, List.cons_append]

/-- A separator that stands alone is kept. -/
theorem replacing_pair_lone {text : List α} (h : text.head? ≠ some n) :
    replacingOccurrences [n, n] [n] (n :: text) =
      n :: replacingOccurrences [n, n] [n] text := by
  cases text with
  | nil => simp [replacingOccurrences, replacingFrom]
  | cons c text => exact replacing_pair_once (by simpa using h) text

/-- A text as the replacement of a pair reads it: another character, a separator that
stands alone, or two separators. -/
theorem pair_induction {P : List α → Prop} (n : α) (nil : P [])
    (other : ∀ c text, c ≠ n → P text → P (c :: text))
    (lone : ∀ text, text.head? ≠ some n → P text → P (n :: text))
    (twice : ∀ text, P text → P (n :: n :: text)) (text : List α) : P text := by
  induction hlen : text.length using Nat.strong_induction_on generalizing text with
  | _ len ih =>
      have ih' : ∀ rest : List α, rest.length < text.length → P rest :=
        fun rest hrest => ih rest.length (hlen ▸ hrest) rest rfl
      cases text with
      | nil => exact nil
      | cons c text =>
          by_cases hc : c = n
          · subst hc
            by_cases hhead : text.head? = some c
            · obtain ⟨rest, rfl⟩ := List.head?_eq_some_iff.mp hhead
              exact twice rest (ih' rest (by simp only [List.length_cons]; omega))
            · exact lone text hhead (ih' text (by simp))
          · exact other c text hc (ih' text (by simp))

theorem head?_replacing_pair (n : α) (text : List α) :
    (replacingOccurrences [n, n] [n] text).head? = text.head? := by
  induction text using pair_induction n with
  | nil => rfl
  | other c text hc _ => rw [replacing_pair_cons_ne hc, List.head?_cons, List.head?_cons]
  | lone text hhead _ => rw [replacing_pair_lone hhead, List.head?_cons, List.head?_cons]
  | twice text _ => rw [replacing_pair_twice, List.head?_cons, List.head?_cons]

theorem replacing_pair_subset (n : α) (text : List α) :
    replacingOccurrences [n, n] [n] text ⊆ text := by
  induction text using pair_induction n with
  | nil => exact List.Subset.refl _
  | other c text hc ih =>
      rw [replacing_pair_cons_ne hc]
      exact List.cons_subset_cons c ih
  | lone text hhead ih =>
      rw [replacing_pair_lone hhead]
      exact List.cons_subset_cons n ih
  | twice text ih =>
      rw [replacing_pair_twice]
      exact List.cons_subset_cons n (List.subset_cons_of_subset n ih)

omit [DecidableEq α] in
theorem prefix_pair_cons {text : List α} : [n, n] <+: n :: text ↔ text.head? = some n := by
  rw [List.cons_prefix_cons, List.singleton_prefix_iff_head?_eq_some, and_iff_right rfl]

omit [DecidableEq α] in
theorem head_of_prefix_pair {text : List α} (h : [n, n] <+: text) : text.head? = some n := by
  obtain ⟨rest, rfl⟩ := h
  rfl

/-- **A pair is left** exactly of three separators in a row: the replacement goes on behind
the pair it has replaced. -/
theorem infix_replacing_pair (n : α) (text : List α) :
    [n, n] <:+: replacingOccurrences [n, n] [n] text ↔ [n, n, n] <:+: text := by
  induction text using pair_induction n with
  | nil => simp [replacingOccurrences, replacingFrom]
  | other c text hc ih =>
      rw [replacing_pair_cons_ne hc, List.infix_cons_iff, List.infix_cons_iff]
      refine or_congr ?_ ih
      simp only [List.cons_prefix_cons, Ne.symm hc, false_and]
  | lone text hhead ih =>
      rw [replacing_pair_lone hhead, List.infix_cons_iff, List.infix_cons_iff]
      refine or_congr ?_ ih
      rw [prefix_pair_cons, head?_replacing_pair, List.cons_prefix_cons]
      exact iff_of_false hhead fun h => hhead (head_of_prefix_pair h.2)
  | twice text ih =>
      rw [replacing_pair_twice, List.infix_cons_iff, prefix_pair_cons, head?_replacing_pair]
      constructor
      · rintro (hhead | hpair)
        · exact (List.cons_prefix_cons.mpr ⟨rfl, prefix_pair_cons.mpr hhead⟩).isInfix
        · exact List.infix_cons (List.infix_cons (ih.mp hpair))
      · intro hthree
        obtain hfront | hthree := List.infix_cons_iff.mp hthree
        · exact .inl (prefix_pair_cons.mp (List.cons_prefix_cons.mp hfront).2)
        obtain hfront | hthree := List.infix_cons_iff.mp hthree
        · exact .inl (head_of_prefix_pair (List.cons_prefix_cons.mp hfront).2)
        · exact .inr (ih.mpr hthree)

/-- A text without a pair stays as it is. -/
theorem replacing_pair_eq_self {text : List α} (h : ¬ [n, n] <:+: text) :
    replacingOccurrences [n, n] [n] text = text := by
  induction text using pair_induction n with
  | nil => rfl
  | other c text hc ih =>
      rw [List.infix_cons_iff, not_or] at h
      rw [replacing_pair_cons_ne hc, ih h.2]
  | lone text hhead ih =>
      rw [List.infix_cons_iff, not_or] at h
      rw [replacing_pair_lone hhead, ih h.2]
  | twice text _ => exact absurd ⟨[], text, rfl⟩ h

end Replacement

/-! ## separators -/

theorem intercalate_cons {α : Type} (n : α) (row : List α) (rows : List (List α)) :
    [n].intercalate (row :: rows) = row ++ rows.flatMap fun row => n :: row := by
  induction rows generalizing row with
  | nil => simp
  | cons row' rows ih => simp [List.intercalate_cons_cons, ih]

/-- A text without a pair of separators has no empty part but the first and the last. -/
theorem splitOn_inner_ne_nil {α : Type} [DecidableEq α] {n : α} {text : List α}
    (h : ¬ [n, n] <:+: text) : [] ∉ (text.splitOn n).tail.dropLast := by
  intro hmem
  obtain ⟨first, rest, hparts⟩ := List.exists_cons_of_ne_nil (List.splitOn_ne_nil n text)
  rw [hparts, List.tail_cons] at hmem
  obtain ⟨before, after, hinner⟩ := List.append_of_mem hmem
  have hne : rest ≠ [] := by
    rintro rfl
    cases hmem
  have hrest := List.dropLast_append_getLast hne
  obtain ⟨part, parts, hafter⟩ : ∃ part parts, after ++ [rest.getLast hne] = part :: parts :=
    List.exists_cons_of_ne_nil (by simp)
  rw [hinner, List.append_assoc, List.cons_append, hafter] at hrest
  have htext : [n].intercalate (text.splitOn n) = text := List.intercalate_splitOn n
  rw [hparts, intercalate_cons, ← hrest] at htext
  refine h ⟨first ++ before.flatMap (n :: ·), part ++ parts.flatMap (n :: ·), ?_⟩
  rw [← htext]
  simp

/-! ## decimals -/

/-- The value of a text of digits. -/
def natOf (digits : Text) : Option Nat :=
  if digits ≠ [] ∧ digits.all Char.isDigit then some (Nat.ofDigitChars 10 digits 0) else none

/-- The machine integer with the value, if there is one. -/
def fit (value : Int) : Option Int64 :=
  if -2 ^ 63 ≤ value ∧ value < 2 ^ 63 then some (Int64.ofInt value) else none

/-- `Int(text)`. -/
def intOf : Text → Option Int64
  | '-' :: digits => (natOf digits).bind fun n => fit (-n)
  | '+' :: digits => (natOf digits).bind fun n => fit n
  | digits => (natOf digits).bind fun n => fit n

/-- The decimal of an integer. -/
def decimal (value : Int64) : Text :=
  if value.toInt < 0 then '-' :: Nat.toDigits 10 value.toInt.natAbs
  else Nat.toDigits 10 value.toInt.natAbs

theorem natOf_toDigits (n : Nat) : natOf (Nat.toDigits 10 n) = some n := by
  have hdigits : (Nat.toDigits 10 n).all Char.isDigit = true :=
    List.all_eq_true.mpr fun c hc => Nat.isDigit_of_mem_toDigits (by decide) (by decide) hc
  rw [natOf, if_pos ⟨Nat.toDigits_ne_nil, hdigits⟩, Nat.ofDigitChars_ten_toDigits]

theorem fit_toInt (value : Int64) : fit value.toInt = some value := by
  have hle := value.le_toInt
  have hlt := value.toInt_lt
  rw [fit, if_pos ⟨hle, hlt⟩, Int64.ofInt_toInt]

theorem intOf_digits {digits : Text} (h : ∀ c ∈ digits, c.isDigit = true) :
    intOf digits = (natOf digits).bind fun n => fit n := by
  unfold intOf
  split
  · exact absurd (h '-' List.mem_cons_self) (by decide)
  · exact absurd (h '+' List.mem_cons_self) (by decide)
  · rfl

/-- **Decimals** are read back. -/
theorem intOf_decimal (value : Int64) : intOf (decimal value) = some value := by
  have hfit := fit_toInt value
  unfold decimal
  split
  · next hneg =>
    have hvalue : value.toInt = -(value.toInt.natAbs : Int) := by omega
    rw [hvalue] at hfit
    rw [intOf, natOf_toDigits, Option.bind_some]
    exact hfit
  · next hpos =>
    have hvalue : value.toInt = (value.toInt.natAbs : Int) := by omega
    rw [hvalue] at hfit
    rw [intOf_digits fun c hc => Nat.isDigit_of_mem_toDigits (by decide) (by decide) hc,
      natOf_toDigits, Option.bind_some]
    exact hfit

theorem decimal_ne_nil (value : Int64) : decimal value ≠ [] := by
  unfold decimal
  split
  · exact List.cons_ne_nil _ _
  · exact Nat.toDigits_ne_nil

/-- The characters of a decimal. -/
theorem mem_decimal {value : Int64} {c : Char} (h : c ∈ decimal value) :
    c = '-' ∨ c.isDigit = true := by
  have hdigit : ∀ n, c ∈ Nat.toDigits 10 n → c.isDigit = true :=
    fun n hc => Nat.isDigit_of_mem_toDigits (by decide) (by decide) hc
  unfold decimal at h
  split at h
  · rcases List.mem_cons.mp h with rfl | h
    · exact .inl rfl
    · exact .inr (hdigit _ h)
  · exact .inr (hdigit _ h)

end IosGame
