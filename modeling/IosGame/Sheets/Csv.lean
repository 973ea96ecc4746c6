import IosGame.Text

/-!
# IosGame.Sheets.Csv

Sheets as texts: the reader's clean-up of line separators, its rows and columns, and the
first row, which says where the columns are.

`csv_joinRows` is what the clean-up is for: rows joined by LF, CR or CRLF, and not empty,
are the rows that `csv` finds.  It replaces the pairs of separators once, from left to right,
so that of three in a row a pair is left (`noBlankRows_iff`).
-/

namespace IosGame

namespace Sheets

/-! ## reading -/

/-- Why a function of the reader stops. -/
inductive Stop where
  /-- an array subscript outside the array -/
  | outOfRange
  /-- a range whose end comes before its start -/
  | invalidRange
  /-- `nil!` -/
  | unwrappedNil
  /-- `return nil` -/
  | returnNil
  deriving DecidableEq, Repr

def cleanRows (file : Text) : Text :=
  let cleanFile := file
  let cleanFile := replacingOccurrences ['\r'] ['\n'] cleanFile
  let cleanFile := replacingOccurrences ['\n', '\n'] ['\n'] cleanFile
  cleanFile

/-- `readDataFromCSV` on what the file holds, nil when it cannot be read. -/
def readDataFromCSV (contents : Option Text) : Option Text :=
  contents.map cleanRows

def csv (data : Text) : List (List Text) :=
  (data.splitOn '\n').map fun row => row.splitOn ','

/-- `csvRows[i][j]`, on the row. -/
def cell (row : List Text) (j : Nat) : Except Stop Text :=
  match row[j]? with
  | some text => .ok text
  | none => .error .outOfRange

/-- `lower...upper` -/
def closedRange (lower upper : Int) : Except Stop Unit :=
  if lower ≤ upper then .ok () else .error .invalidRange

/-- The columns of a row are counted from 0. -/
theorem closedRange_columns {data : Text} {row : List Text} (h : row ∈ csv data) :
    closedRange 0 ((row.length : Int) - 1) = .ok () := by
  obtain ⟨text, -, rfl⟩ := List.mem_map.mp h
  have hpos := List.length_pos_iff.mpr (List.splitOn_ne_nil ',' text)
  rw [closedRange, if_pos (by omega)]

/-- The rows after the first are counted from 1. -/
theorem closedRange_rows (header : List Text) {rows : List (List Text)} (h : rows ≠ []) :
    closedRange 1 (((header :: rows).length : Int) - 1) = .ok () := by
  have hpos := List.length_pos_iff.mpr h
  rw [closedRange, if_pos (by rw [List.length_cons]; omega)]

section Header

variable {κ : Type} [DecidableEq κ] (column : Text → Option κ)

/-- The loop over the first row: the variable of each column is set to the place of its
name, and a name without one ends it. -/
def scanHeader : Nat → List Text → (κ → Nat) → Except Stop (κ → Nat)
  | _, [], cols => .ok cols
  | i, name :: names, cols =>
      match column name with
      | some c => scanHeader (i + 1) names (Function.update cols c i)
      | none => .error .returnNil

/-- The places that the loop finds. -/
def headerCols : Nat → List Text → (κ → Nat) → κ → Nat
  | _, [], cols => cols
  | i, name :: names, cols =>
      match column name with
      | some c => headerCols (i + 1) names (Function.update cols c i)
      | none => headerCols (i + 1) names cols

variable {column}

theorem scanHeader_eq (i : Nat) (names : List Text) (cols : κ → Nat) :
    scanHeader column i names cols =
      if ∀ name ∈ names, (column name).isSome then .ok (headerCols column i names cols)
      else .error .returnNil := by
  induction names generalizing i cols with
  | nil => simp [scanHeader, headerCols]
  | cons name names ih =>
      cases hname : column name with
      | none => simp [scanHeader, hname]
      | some c => simp [scanHeader, headerCols, hname, ih]

/-- A sheet of a first row and others: an unknown name ends it with nil, and a sheet of no
other rows is not read. -/
theorem sheet_eq {α : Type} {data : Text} {header : List Text} {rows : List (List Text)}
    (h : csv data = header :: rows) (read : (κ → Nat) → Except Stop α) :
    (do
      closedRange 0 ((header.length : Int) - 1)
      let cols ← scanHeader column 0 header fun _ => 0
      closedRange 1 (((header :: rows).length : Int) - 1)
      read cols) =
      if ∀ name ∈ header, (column name).isSome then
        if rows = [] then .error .invalidRange
        else read (headerCols column 0 header fun _ => 0)
      else .error .returnNil := by
  rw [closedRange_columns (h ▸ List.mem_cons_self), scanHeader_eq]
  by_cases hnames : ∀ name ∈ header, (column name).isSome
  · rw [if_pos hnames, if_pos hnames]
    by_cases hrows : rows = []
    · rw [if_pos hrows, hrows]
      rfl
    · rw [if_neg hrows, closedRange_rows header hrows]
      rfl
  · rw [if_neg hnames, if_neg hnames]
    rfl

/-- A column named once is where its name stands. -/
theorem headerCols_names {name : κ → Text} (hname : ∀ c, column (name c) = some c)
    {header : List κ} (hnodup : header.Nodup) (i : Nat) (cols : κ → Nat) :
    (∀ j c, header[j]? = some c → headerCols column i (header.map name) cols c = i + j) ∧
      ∀ c, c ∉ header → headerCols column i (header.map name) cols c = cols c := by
  induction header generalizing i cols with
  | nil => simp [headerCols]
  | cons c header ih =>
      obtain ⟨hnew, hnodup⟩ := List.nodup_cons.mp hnodup
      have hcons : headerCols column i ((c :: header).map name) cols =
          headerCols column (i + 1) (header.map name) (Function.update cols c i) := by
        rw [List.map_cons, headerCols, hname]
      obtain ⟨hin, hout⟩ := ih hnodup (i + 1) (Function.update cols c i)
      rw [hcons]
      constructor
      · intro j c' hc'
        cases j with
        | zero =>
            obtain rfl : c = c' := by simpa using hc'
            rw [hout c hnew, Function.update_self]
            rfl
        | succ j =>
            rw [hin j c' (by simpa using hc')]
            omega
      · intro c' hc'
        rw [List.mem_cons, not_or] at hc'
        rw [hout c' hc'.2, Function.update_of_ne hc'.1]

end Header

/-! ## blank rows -/

/-- A cleaned-up file has no blank rows: no CR and no two LF in a row, a second clean-up
finds nothing to do, and no row is empty but the first and the last. -/
structure NoBlankRows (file : Text) : Prop where
  no_cr : '\r' ∉ cleanRows file
  no_pair : ¬ ['\n', '\n'] <:+: cleanRows file
  again : cleanRows (cleanRows file) = cleanRows file
  inner : [[]] ∉ (csv (cleanRows (cleanRows file))).tail.dropLast

/-- Three characters in a row that separate lines. -/
def ThreeSeparators (file : Text) : Prop :=
  ∃ run, run <:+: file ∧ run.length = 3 ∧ ∀ c ∈ run, c = '\r' ∨ c = '\n'

theorem cleanRows_eq (file : Text) :
    cleanRows file = replacingOccurrences ['\n', '\n'] ['\n']
      (file.map fun c => if c = '\r' then '\n' else c) := by
  rw [cleanRows, replacing_single]

theorem no_cr_cleanRows (file : Text) : '\r' ∉ cleanRows file := by
  rw [cleanRows_eq]
  intro hmem
  obtain ⟨c, -, hc⟩ := List.mem_map.mp (replacing_pair_subset '\n' _ hmem)
  split at hc
  · cases hc
  · exact absurd hc ‹_›

/-- A second clean-up only replaces pairs. -/
theorem cleanRows_again (file : Text) : cleanRows (cleanRows file) =
    replacingOccurrences ['\n', '\n'] ['\n'] (cleanRows file) := by
  conv_lhs => rw [cleanRows_eq]
  congr 1
  conv_rhs => rw [← List.map_id (cleanRows file)]
  refine List.map_congr_left fun c hc => ?_
  have hne : c ≠ '\r' := fun heq => no_cr_cleanRows file (heq ▸ hc)
  rw [if_neg hne]
  rfl

theorem pair_cleanRows (file : Text) :
    ['\n', '\n'] <:+: cleanRows file ↔ ThreeSeparators file := by
  have hlf : ∀ c : Char, (if c = '\r' then '\n' else c) = '\n' ↔ c = '\r' ∨ c = '\n' := by
    intro c
    by_cases hc : c = '\r' <;> simp [hc]
  have hthree : ∀ run : Text,
      ['\n', '\n', '\n'] = run.map (fun c => if c = '\r' then '\n' else c) ↔
        run.length = 3 ∧ ∀ c ∈ run, c = '\r' ∨ c = '\n' := by
    intro run
    rw [eq_comm, show ['\n', '\n', '\n'] = List.replicate 3 '\n' from rfl,
      List.eq_replicate_iff, List.length_map, List.forall_mem_map]
    simp only [hlf]
  rw [cleanRows_eq, infix_replacing_pair, List.infix_map_iff]
  exact exists_congr fun run => and_congr_right fun _ => hthree run

/-- Without a pair of LF, only the first and the last row can be empty. -/
theorem inner_csv {data : Text} (h : ¬ ['\n', '\n'] <:+: data) :
    [[]] ∉ (csv data).tail.dropLast := by
  rw [csv, ← List.map_tail, ← List.map_dropLast]
  intro hmem
  obtain ⟨row, hrow, hempty⟩ := List.mem_map.mp hmem
  have hrow' : [','].intercalate (row.splitOn ',') = row := List.intercalate_splitOn ','
  have hnil : row = [] := by
    rw [← hrow', hempty]
    rfl
  exact splitOn_inner_ne_nil h (hnil ▸ hrow)

/-- **The clean-up removes the blank rows** of exactly the files where no three separators
follow each other. -/
theorem noBlankRows_iff (file : Text) : NoBlankRows file ↔ ¬ ThreeSeparators file := by
  rw [← pair_cleanRows]
  constructor
  · exact fun h => h.no_pair
  · intro h
    have hagain : cleanRows (cleanRows file) = cleanRows file := by
      rw [cleanRows_again, replacing_pair_eq_self h]
    exact ⟨no_cr_cleanRows file, h, hagain, hagain.symm ▸ inner_csv h⟩

/-- Two blank rows between two others: one of them is left, until the next clean-up. -/
theorem blankRows_left : cleanRows "a\n\n\nb".toList = "a\n\nb".toList ∧
    cleanRows "a\n\nb".toList = "a\nb".toList ∧ ¬ NoBlankRows "a\n\n\nb".toList := by
  have honce : cleanRows "a\n\n\nb".toList = "a\n\nb".toList := by decide
  have htwice : cleanRows "a\n\nb".toList = "a\nb".toList := by decide
  refine ⟨honce, htwice, fun h => ?_⟩
  have hagain := h.again
  rw [honce, htwice] at hagain
  revert hagain
  decide

/-! ## rows -/

/-- What stands between two rows of a sheet. -/
inductive LineSeparator where
  | lf
  | cr
  | crlf
  deriving DecidableEq, Repr

def LineSeparator.text : LineSeparator → Text
  | .lf => ['\n']
  | .cr => ['\r']
  | .crlf => ['\r', '\n']

/-- Rows joined by separators, each before its row, and none after the last. -/
def joinRows (first : Text) (rest : List (LineSeparator × Text)) : Text :=
  first ++ rest.flatMap fun row => row.1.text ++ row.2

/-- A row that is not empty and stays one row. -/
structure IsRow (row : Text) : Prop where
  ne_nil : row ≠ []
  no_cr : '\r' ∉ row
  no_lf : '\n' ∉ row

theorem map_isRow {row : Text} (h : IsRow row) :
    row.map (fun c => if c = '\r' then '\n' else c) = row := by
  conv_rhs => rw [← List.map_id row]
  refine List.map_congr_left fun c hc => ?_
  have hne : c ≠ '\r' := fun heq => h.no_cr (heq ▸ hc)
  rw [if_neg hne]
  rfl

/-- A separator, cleaned up before a row. -/
theorem replacing_separator (separator : LineSeparator) {row : Text} (h : IsRow row)
    (text : Text) :
    replacingOccurrences ['\n', '\n'] ['\n']
        (separator.text.map (fun c => if c = '\r' then '\n' else c) ++ (row ++ text)) =
      '\n' :: (row ++ replacingOccurrences ['\n', '\n'] ['\n'] text) := by
  obtain ⟨c, cs, rfl⟩ := List.exists_cons_of_ne_nil h.ne_nil
  have hne : c ≠ '\n' := fun heq => h.no_lf (heq ▸ List.mem_cons_self)
  have hone : replacingOccurrences ['\n', '\n'] ['\n'] ('\n' :: (c :: cs ++ text)) =
      '\n' :: (c :: cs ++ replacingOccurrences ['\n', '\n'] ['\n'] text) := by
    rw [List.cons_append, replacing_pair_once hne, ← List.cons_append,
      replacing_pair_append h.no_lf]
  cases separator with
  | lf => exact hone
  | cr => exact hone
  | crlf =>
      have htwo := replacing_pair_twice '\n' (c :: cs ++ text)
      rw [replacing_pair_append h.no_lf] at htwo
      exact htwo

theorem cleanRows_joinRows {first : Text} {rest : List (LineSeparator × Text)}
    (hfirst : IsRow first) (hrest : ∀ row ∈ rest, IsRow row.2) :
    cleanRows (joinRows first rest) = ['\n'].intercalate (first :: rest.map Prod.snd) := by
  rw [cleanRows, replacing_single, joinRows, List.map_append, map_isRow hfirst,
    replacing_pair_append hfirst.no_lf, intercalate_cons]
  congr 1
  induction rest with
  | nil => rfl
  | cons row rest ih =>
      rw [List.forall_mem_cons] at hrest
      rw [List.flatMap_cons, List.append_assoc, List.map_append, List.map_append,
        map_isRow hrest.1, replacing_separator _ hrest.1, ih hrest.2, List.map_cons,
        List.flatMap_cons, List.cons_append]

theorem intercalate_eq_joinRows (first : Text) (rest : List Text) :
    ['\n'].intercalate (first :: rest) = joinRows first (rest.map fun row => (.lf, row)) := by
  rw [intercalate_cons, joinRows, List.flatMap_map]
  rfl

/-- **Rows** joined in any of the three ways are the rows that the reader finds, cleaned up
once as the file is read and once more. -/
theorem csv_joinRows {first : Text} {rest : List (LineSeparator × Text)}
    (hfirst : IsRow first) (hrest : ∀ row ∈ rest, IsRow row.2) :
    csv (cleanRows (cleanRows (joinRows first rest))) =
      (first :: rest.map Prod.snd).map fun row => row.splitOn ',' := by
  have hrows : ∀ row ∈ first :: rest.map Prod.snd, IsRow row := by
    simpa [List.forall_mem_cons] using And.intro hfirst fun row s hs => hrest (s, row) hs
  have hagain : cleanRows (['\n'].intercalate (first :: rest.map Prod.snd)) =
      ['\n'].intercalate (first :: rest.map Prod.snd) := by
    have htail : ∀ row ∈ (rest.map Prod.snd).map fun row => (LineSeparator.lf, row),
        IsRow row.2 := by
      intro row hrow
      obtain ⟨text, htext, rfl⟩ := List.mem_map.mp hrow
      exact hrows text (List.mem_cons_of_mem _ htext)
    conv_lhs => rw [intercalate_eq_joinRows, cleanRows_joinRows hfirst htail]
    simp [Function.comp_def]
  rw [cleanRows_joinRows hfirst hrest, hagain, csv,
    List.splitOn_intercalate _ (fun row hrow => (hrows row hrow).no_lf) (List.cons_ne_nil _ _)]

end Sheets

end IosGame
