import IosGame.Sheets.Map

/-!
# IosGame.Sheets.Malformed

Sheets of any text: when a new game loads them.

Some of what can be wrong with a sheet makes the reader return nil, which loads as no
estates or no places; the rest stops the program.  Which it is depends on the cell that the
reader meets first (`initialGame_loads`): a cell that is not there stops it, one that is no
number ends the deed sheet quietly, and a sheet of no rows is never read.
-/

namespace IosGame

namespace Sheets

/-! ## outcomes -/

/-- The function returns, a value or nil. -/
def Returns {α : Type} (result : Except Stop α) : Prop :=
  (∃ a, result = .ok a) ∨ result = .error .returnNil

/-- The function returns a value. -/
def Yields {α : Type} (result : Except Stop α) : Prop := ∃ a, result = .ok a

section Outcomes

variable {α β : Type} {f : Text → Except Stop β} {g : Int64 → Except Stop β} {row : List Text}
  {j : Nat} {text : Text}

theorem returns_pure (a : α) : Returns (pure a : Except Stop α) := .inl ⟨a, rfl⟩

theorem yields_pure (a : α) : Yields (pure a : Except Stop α) := ⟨a, rfl⟩

theorem returns_cell :
    Returns (cell row j >>= f) ↔ ∃ text, row[j]? = some text ∧ Returns (f text) := by
  unfold cell
  cases row[j]? <;> simp [Returns]

theorem yields_cell :
    Yields (cell row j >>= f) ↔ ∃ text, row[j]? = some text ∧ Yields (f text) := by
  unfold cell
  cases row[j]? <;> simp [Yields]

theorem returns_guardInt :
    Returns (guardInt text >>= g) ↔ ∀ n, intOf text = some n → Returns (g n) := by
  unfold guardInt
  cases intOf text <;> simp [Returns]

theorem yields_guardInt :
    Yields (guardInt text >>= g) ↔ ∃ n, intOf text = some n ∧ Yields (g n) := by
  unfold guardInt
  cases intOf text <;> simp [Yields]

end Outcomes

/-! ## a row of the deed sheet -/

/-- What the reader asks of a cell: a number, in the rents or nothing, or any text. -/
def DeedColumn.Takes : DeedColumn → Text → Prop
  | .id, text | .mort, text | .mapLoc, text | .buyValue, text => (intOf text).isSome
  | .rents _, text => text = [] ∨ (intOf text).isSome
  | .engName, _ | .chineseName, _ | .color, _ | .costApart, _ => True

/-- No cell of the columns is missing before one that the reader does not take. -/
def RowReads (cols : DeedColumn → Nat) (row : List Text) : List DeedColumn → Prop
  | [] => True
  | c :: cs => ∃ text, row[cols c]? = some text ∧ (c.Takes text → RowReads cols row cs)

/-- The reader takes the cells of all columns. -/
def RowParses (cols : DeedColumn → Nat) (row : List Text) : Prop :=
  ∀ c ∈ DeedColumn.readingOrder, ∃ text, row[cols c]? = some text ∧ c.Takes text

theorem returns_rentOf {β : Type} {g : Int64 → Except Stop β} {text : Text} :
    Returns (rentOf text >>= g) ↔
      ∀ n, (if text = [] then some 0 else intOf text) = some n → Returns (g n) := by
  unfold rentOf
  by_cases hnil : text = []
  · simp [hnil]
  · simp only [hnil, ↓reduceIte]
    exact returns_guardInt

theorem yields_rentOf {β : Type} {g : Int64 → Except Stop β} {text : Text} :
    Yields (rentOf text >>= g) ↔
      ∃ n, (if text = [] then some 0 else intOf text) = some n ∧ Yields (g n) := by
  unfold rentOf
  by_cases hnil : text = []
  · simp [hnil]
  · simp only [hnil, ↓reduceIte]
    exact yields_guardInt

theorem takes_rents {j : Fin 6} {text : Text} : (DeedColumn.rents j).Takes text ↔
    ∃ n, (if text = [] then some 0 else intOf text) = some n := by
  by_cases hnil : text = []
  · simp [DeedColumn.Takes, hnil]
  · simp [DeedColumn.Takes, hnil, Option.isSome_iff_exists]

theorem takes_number {c : DeedColumn} (h : c = .id ∨ c = .mort ∨ c = .mapLoc ∨ c = .buyValue)
    (text : Text) : c.Takes text ↔ ∃ n, intOf text = some n := by
  rcases h with rfl | rfl | rfl | rfl <;> exact Option.isSome_iff_exists

theorem takes_text {c : DeedColumn}
    (h : c = .engName ∨ c = .chineseName ∨ c = .color ∨ c = .costApart) (text : Text) :
    c.Takes text ↔ True := by
  rcases h with rfl | rfl | rfl | rfl <;> exact Iff.rfl

/-- A row is read to its end or to a cell that is not taken, if no cell before is missing. -/
theorem returns_deedRow (cols : DeedColumn → Nat) (row : List Text) :
    Returns (deedRow cols row) ↔ RowReads cols row DeedColumn.readingOrder := by
  simp only [deedRow, returns_cell, returns_guardInt, returns_rentOf, returns_pure,
    DeedColumn.readingOrder, RowReads, takes_number, takes_text, takes_rents, true_or, or_true,
    true_imp_iff, forall_exists_index, imp_true_iff]

theorem rowParses_cons {cols : DeedColumn → Nat} {row : List Text} {c : DeedColumn}
    {cs : List DeedColumn} :
    (∀ c' ∈ c :: cs, ∃ text, row[cols c']? = some text ∧ c'.Takes text) ↔
      ∃ text, row[cols c]? = some text ∧ c.Takes text ∧
        ∀ c' ∈ cs, ∃ text, row[cols c']? = some text ∧ c'.Takes text := by
  rw [List.forall_mem_cons]
  constructor
  · rintro ⟨⟨text, htext, htakes⟩, hcs⟩
    exact ⟨text, htext, htakes, hcs⟩
  · rintro ⟨text, htext, htakes, hcs⟩
    exact ⟨⟨text, htext, htakes⟩, hcs⟩

/-- A row has an estate when all its cells are taken. -/
theorem yields_deedRow (cols : DeedColumn → Nat) (row : List Text) :
    Yields (deedRow cols row) ↔ RowParses cols row := by
  simp only [deedRow, yields_cell, yields_guardInt, yields_rentOf, yields_pure,
    RowParses, DeedColumn.readingOrder, rowParses_cons, takes_number, takes_text, takes_rents,
    true_or, or_true, true_and, and_true, exists_and_right, List.not_mem_nil, false_imp_iff,
    implies_true]

/-! ## the rows of a sheet -/

section Rows

variable {α β : Type} {f : α → Except Stop β}

theorem returns_mapM_cons {a : α} {as : List α} :
    Returns ((a :: as).mapM f) ↔ Returns (f a) ∧ (Yields (f a) → Returns (as.mapM f)) := by
  rw [List.mapM_cons]
  cases hhead : f a with
  | error stop => simp [Returns, Yields]
  | ok b => cases htail : as.mapM f <;> simp [Returns, Yields]

theorem yields_mapM {as : List α} : Yields (as.mapM f) ↔ ∀ a ∈ as, Yields (f a) := by
  induction as with
  | nil => exact iff_of_true (yields_pure _) (by simp)
  | cons a as ih =>
      rw [List.forall_mem_cons, ← ih, List.mapM_cons]
      cases hhead : f a with
      | error stop => simp [Yields]
      | ok b => cases htail : as.mapM f <;> simp [Yields]

end Rows

/-- Each row is read to its end or to a cell that is not taken, up to the first of the
latter kind. -/
def DeedRowsRead (cols : DeedColumn → Nat) : List (List Text) → Prop
  | [] => True
  | row :: rows => RowReads cols row DeedColumn.readingOrder ∧
      (RowParses cols row → DeedRowsRead cols rows)

theorem returns_deedRows (cols : DeedColumn → Nat) (rows : List (List Text)) :
    Returns (rows.mapM (deedRow cols)) ↔ DeedRowsRead cols rows := by
  induction rows with
  | nil => exact iff_of_true (returns_pure _) trivial
  | cons row rows ih =>
      rw [returns_mapM_cons, returns_deedRow, yields_deedRow, ih]
      rfl

theorem yields_deedRows (cols : DeedColumn → Nat) (rows : List (List Text)) :
    Yields (rows.mapM (deedRow cols)) ↔ ∀ row ∈ rows, RowParses cols row := by
  simp only [yields_mapM, yields_deedRow]

/-! ## the deed sheet -/

/-- The first row of a sheet, as the reader finds it. -/
def header (text : Text) : List Text := (csv (cleanRows (cleanRows text))).headD []

/-- The other rows. -/
def dataRows (text : Text) : List (List Text) := (csv (cleanRows (cleanRows text))).tail

theorem csv_eq (text : Text) : csv (cleanRows (cleanRows text)) = header text :: dataRows text := by
  unfold header dataRows
  have hne : csv (cleanRows (cleanRows text)) ≠ [] :=
    fun h => List.splitOn_ne_nil _ _ (List.map_eq_nil_iff.mp h)
  obtain ⟨row, rows, heq⟩ := List.exists_cons_of_ne_nil hne
  rw [heq]
  rfl

/-- All names in the first row are names of columns. -/
def DeedNames (text : Text) : Prop := ∀ name ∈ header text, (DeedColumn.ofName name).isSome

/-- The sheet has rows, and they are read without a missing cell. -/
def DeedReads (text : Text) : Prop :=
  DeedNames text → dataRows text ≠ [] ∧ DeedRowsRead (deedCols (header text)) (dataRows text)

/-- The sheet has rows, and the reader takes all their cells. -/
def DeedParses (text : Text) : Prop :=
  DeedNames text ∧ dataRows text ≠ [] ∧
    ∀ row ∈ dataRows text, RowParses (deedCols (header text)) row

theorem deedOutput_sheet (text : Text) :
    deedOutput (some text) =
      if ∀ name ∈ header text, (DeedColumn.ofName name).isSome then
        if dataRows text = [] then .error .invalidRange
        else (dataRows text).mapM (deedRow (deedCols (header text)))
      else .error .returnNil :=
  deedOutput_eq (csv_eq text)

theorem returns_deedOutput (text : Text) : Returns (deedOutput (some text)) ↔ DeedReads text := by
  rw [deedOutput_sheet]
  by_cases hnames : ∀ name ∈ header text, (DeedColumn.ofName name).isSome
  · have hreads : DeedReads text ↔
        dataRows text ≠ [] ∧ DeedRowsRead (deedCols (header text)) (dataRows text) :=
      forall_prop_of_true hnames
    rw [if_pos hnames, hreads]
    by_cases hrows : dataRows text = []
    · simp [hrows, Returns]
    · rw [if_neg hrows, returns_deedRows]
      simp [hrows]
  · rw [if_neg hnames]
    exact iff_of_true (.inr rfl) fun h => absurd h hnames

theorem yields_deedOutput (text : Text) : Yields (deedOutput (some text)) ↔ DeedParses text := by
  rw [deedOutput_sheet]
  by_cases hnames : ∀ name ∈ header text, (DeedColumn.ofName name).isSome
  · have hparses : DeedParses text ↔
        dataRows text ≠ [] ∧ ∀ row ∈ dataRows text, RowParses (deedCols (header text)) row :=
      and_iff_right hnames
    rw [if_pos hnames, hparses]
    by_cases hrows : dataRows text = []
    · simp [hrows, Yields]
    · rw [if_neg hrows, yields_deedRows]
      simp [hrows]
  · rw [if_neg hnames]
    exact iff_of_false (by simp [Yields]) fun h => hnames h.1

theorem ne_nil_of_deedOutput {text : Text} {estates : List Estate}
    (h : deedOutput (some text) = .ok estates) : estates ≠ [] := by
  rw [deedOutput_sheet] at h
  split at h
  · split at h
    · cases h
    · next hrows =>
      obtain ⟨row, rows, heq⟩ := List.exists_cons_of_ne_nil hrows
      rw [heq, List.mapM_cons] at h
      obtain ⟨estate, -, h⟩ := bind_eq_ok.mp h
      obtain ⟨estates', -, h⟩ := bind_eq_ok.mp h
      cases h
      exact List.cons_ne_nil _ _
  · cases h

/-- The estates loaded: there are some exactly when the sheet parses. -/
theorem generateEstates_eq_ok {text : Text} :
    (∃ estates, generateEstates (some text) = .ok estates) ↔ DeedReads text := by
  rw [← returns_deedOutput, generateEstates]
  cases hdeed : deedOutput (some text) with
  | ok estates => simp [orEmpty, Returns]
  | error stop => cases stop <;> simp [orEmpty, Returns]

theorem generateEstates_ne_nil {text : Text} {estates : List Estate}
    (h : generateEstates (some text) = .ok estates) : estates ≠ [] ↔ DeedParses text := by
  rw [← yields_deedOutput]
  rw [generateEstates] at h
  cases hdeed : deedOutput (some text) with
  | ok estates' =>
      rw [hdeed] at h
      cases h
      exact iff_of_true (ne_nil_of_deedOutput hdeed) ⟨estates, rfl⟩
  | error stop =>
      rw [hdeed] at h
      cases stop <;> cases h
      exact iff_of_false (fun hne => hne rfl) (by simp [Yields])

/-! ## a row of the map sheet -/

/-- The function does not return nil. -/
def NotNil {α : Type} (result : Except Stop α) : Prop := result ≠ .error .returnNil

theorem notNil_ok {α : Type} (a : α) : NotNil (.ok a) := by simp [NotNil]

theorem NotNil.bind {α β : Type} {result : Except Stop α} {f : α → Except Stop β}
    (h : NotNil result) (hf : ∀ a, NotNil (f a)) : NotNil (result >>= f) := by
  cases result with
  | error stop =>
      rw [error_bind]
      exact fun heq => h (congrArg Except.error (Except.error.inj heq))
  | ok a => exact hf a

theorem notNil_cell (row : List Text) (j : Nat) : NotNil (cell row j) := by
  unfold cell
  split <;> simp [NotNil]

theorem notNil_closedRange (lower upper : Int) : NotNil (closedRange lower upper) := by
  unfold closedRange
  split <;> simp [NotNil]

theorem notNil_unwrapInt (text : Text) : NotNil (unwrapInt text) := by
  unfold unwrapInt
  split <;> simp [NotNil]

/-- The cell holds a number. -/
def HoldsNumber (row : List Text) (j : Nat) : Prop :=
  ∃ text, row[j]? = some text ∧ (intOf text).isSome

section MapRow

variable {estates : List Estate} {cols : MapColumn → Nat} {row : List Text} {j : Nat}

theorem notNil_searchEstate (row : List Text) (j : Nat) (estates : List Estate) (tmp : Nat) :
    NotNil (searchEstate row j estates tmp) := by
  induction estates generalizing tmp with
  | nil => exact notNil_ok 0
  | cons estate estates ih =>
      refine (notNil_cell row j).bind fun text => (notNil_unwrapInt text).bind fun Loc => ?_
      split
      · exact notNil_ok tmp
      · exact ih _

/-- The search meets the cell at its first estate. -/
theorem searchEstate_cons (hnumber : HoldsNumber row j) (estates : List Estate) (tmp : Nat) :
    ∃ idx, searchEstate row j estates tmp = .ok idx ∧
      (idx = 0 ∨ tmp ≤ idx ∧ idx < tmp + estates.length) := by
  obtain ⟨text, htext, hnumber⟩ := hnumber
  obtain ⟨n, hn⟩ := Option.isSome_iff_exists.mp hnumber
  induction estates generalizing tmp with
  | nil => exact ⟨0, rfl, .inl rfl⟩
  | cons estate estates ih =>
      have heq : searchEstate row j (estate :: estates) tmp =
          if estate.mapLoc = n then .ok tmp else searchEstate row j estates (tmp + 1) := by
        simp only [searchEstate, cell, htext, unwrapInt, ok_bind, hn, pure_eq_ok]
      rw [heq, List.length_cons]
      split
      · exact ⟨tmp, rfl, .inr ⟨Nat.le_refl _, by omega⟩⟩
      · obtain ⟨idx, hidx, hbound⟩ := ih (tmp + 1)
        exact ⟨idx, hidx, by omega⟩

theorem holdsNumber_of_searchEstate {estate : Estate} {tmp idx : Nat}
    (h : searchEstate row j (estate :: estates) tmp = .ok idx) : HoldsNumber row j := by
  obtain ⟨text, htext, h⟩ := bind_eq_ok.mp h
  obtain ⟨n, hn, -⟩ := bind_eq_ok.mp h
  refine ⟨text, ?_, ?_⟩
  · unfold cell at htext
    split at htext
    · next hget =>
      cases htext
      exact hget
    · cases htext
  · unfold unwrapInt at hn
    split at hn
    · next hint => simp [hint]
    · cases hn

theorem yields_estateInfo :
    Yields (estateInfo estates cols row) ↔ estates ≠ [] ∧ HoldsNumber row (cols .mapLoc) := by
  cases estates with
  | nil => simp [estateInfo, closedRange, Yields]
  | cons estate estates =>
      have hrange : closedRange 0 (((estate :: estates).length : Int) - 1) = .ok () := by
        rw [closedRange, if_pos (by rw [List.length_cons]; omega)]
      rw [estateInfo, hrange, ok_bind]
      constructor
      · rintro ⟨info, h⟩
        obtain ⟨idx, hidx, -⟩ := bind_eq_ok.mp h
        exact ⟨List.cons_ne_nil _ _, holdsNumber_of_searchEstate hidx⟩
      · rintro ⟨-, hnumber⟩
        obtain ⟨idx, hidx, hbound⟩ := searchEstate_cons hnumber (estate :: estates) 0
        have hlt : idx < (estate :: estates).length := by
          rw [List.length_cons] at hbound ⊢
          omega
        rw [hidx, ok_bind, List.getElem?_eq_getElem hlt]
        exact yields_pure _

theorem notNil_estateInfo (estates : List Estate) (cols : MapColumn → Nat) (row : List Text) :
    NotNil (estateInfo estates cols row) := by
  refine (notNil_closedRange _ _).bind fun _ =>
    (notNil_searchEstate row _ estates 0).bind fun idx => ?_
  split
  · exact notNil_ok _
  · simp [NotNil]

theorem notNil_mapRow (estates : List Estate) (cols : MapColumn → Nat) (row : List Text) :
    NotNil (mapRow estates cols row) := by
  refine (notNil_cell row _).bind fun status => ?_
  split
  · exact notNil_ok _
  · exact (notNil_estateInfo estates cols row).bind fun _ => notNil_ok _
  · exact notNil_ok _
  · exact notNil_ok _
  · exact notNil_ok _
  · exact notNil_ok _
  · exact notNil_ok _
  · exact (notNil_cell row _).bind fun _ => notNil_ok _
  · exact (notNil_cell row _).bind fun _ => notNil_ok _
  · exact notNil_ok _

/-- The row has a status; a row of an estate, if there are estates, a number for its place,
and a row of cards a place. -/
def MapRowReads (loaded : Prop) (cols : MapColumn → Nat) (row : List Text) : Prop :=
  ∃ status, row[cols .status]? = some status ∧
    match MapType.ofRawValue status with
    | some .ESTATE => loaded ∧ HoldsNumber row (cols .mapLoc)
    | some .CHANCE | some .COMMUNITY => (row[cols .mapLoc]?).isSome
    | _ => True

theorem yields_mapRow :
    Yields (mapRow estates cols row) ↔ MapRowReads (estates ≠ []) cols row := by
  rw [mapRow, yields_cell, MapRowReads]
  refine exists_congr fun status => and_congr_right fun _ => ?_
  have hcards : Yields (cell row (cols .mapLoc) >>= fun _ => (pure [] : Except Stop (List MapInfo)))
      ↔ (row[cols .mapLoc]?).isSome := by
    rw [yields_cell, Option.isSome_iff_exists]
    exact exists_congr fun text => and_iff_left (yields_pure _)
  have hestate : Yields (estateInfo estates cols row >>= fun info => (pure [info] : Except Stop _))
      ↔ estates ≠ [] ∧ HoldsNumber row (cols .mapLoc) := by
    rw [← yields_estateInfo]
    cases estateInfo estates cols row <;> simp [Yields]
  cases MapType.ofRawValue status with
  | none => exact iff_of_true (yields_pure _) trivial
  | some type =>
      cases type with
      | ESTATE => exact hestate
      | CHANCE => exact hcards
      | COMMUNITY => exact hcards
      | SUPERTAX => exact iff_of_true (yields_pure _) trivial
      | INCOMETAX => exact iff_of_true (yields_pure _) trivial
      | STARTLINE => exact iff_of_true (yields_pure _) trivial
      | PARKING => exact iff_of_true (yields_pure _) trivial
      | JAIL => exact iff_of_true (yields_pure _) trivial
      | GOTOJAIL => exact iff_of_true (yields_pure _) trivial

end MapRow

/-! ## the map sheet -/

/-- All names in the first row are names of columns. -/
def MapNames (text : Text) : Prop := ∀ name ∈ header text, (MapColumn.ofName name).isSome

/-- The sheet has rows, and each has the cells that its status asks for. -/
def MapReads (loaded : Prop) (text : Text) : Prop :=
  MapNames text → dataRows text ≠ [] ∧
    ∀ row ∈ dataRows text, MapRowReads loaded (mapCols (header text)) row

theorem mapInfoOutput_sheet (estates : List Estate) (text : Text) :
    mapInfoOutput estates (some text) =
      if ∀ name ∈ header text, (MapColumn.ofName name).isSome then
        if dataRows text = [] then .error .invalidRange
        else ((dataRows text).mapM (mapRow estates (mapCols (header text)))).map List.flatten
      else .error .returnNil :=
  mapInfoOutput_eq estates (csv_eq text)

theorem notNil_mapRows (estates : List Estate) (cols : MapColumn → Nat)
    (rows : List (List Text)) : NotNil (rows.mapM (mapRow estates cols)) := by
  induction rows with
  | nil => exact notNil_ok []
  | cons row rows ih =>
      rw [List.mapM_cons]
      exact (notNil_mapRow estates cols row).bind fun _ => ih.bind fun _ => notNil_ok _

/-- The places load when the sheet reads. -/
theorem generateMapInfos_eq_ok {estates : List Estate} {text : Text} :
    (∃ infos, generateMapInfos estates (some text) = .ok infos) ↔
      MapReads (estates ≠ []) text := by
  rw [generateMapInfos, mapInfoOutput_sheet]
  by_cases hnames : ∀ name ∈ header text, (MapColumn.ofName name).isSome
  · have hreads : MapReads (estates ≠ []) text ↔ dataRows text ≠ [] ∧
        ∀ row ∈ dataRows text, MapRowReads (estates ≠ []) (mapCols (header text)) row :=
      forall_prop_of_true hnames
    rw [if_pos hnames, hreads]
    by_cases hrows : dataRows text = []
    · simp [hrows, orEmpty]
    · have hyields : Yields ((dataRows text).mapM (mapRow estates (mapCols (header text)))) ↔
          ∀ row ∈ dataRows text, MapRowReads (estates ≠ []) (mapCols (header text)) row := by
        simp only [yields_mapM, yields_mapRow]
      rw [if_neg hrows, ← hyields]
      have hnil := notNil_mapRows estates (mapCols (header text)) (dataRows text)
      cases hrows' : (dataRows text).mapM (mapRow estates (mapCols (header text))) with
      | ok infos => simp [orEmpty, Except.map, Yields, hrows]
      | error stop =>
          rw [hrows'] at hnil
          cases stop with
          | returnNil => exact absurd rfl hnil
          | outOfRange => simp [orEmpty, Except.map, Yields]
          | invalidRange => simp [orEmpty, Except.map, Yields]
          | unwrappedNil => simp [orEmpty, Except.map, Yields]
  · rw [if_neg hnames]
    exact iff_of_true ⟨[], rfl⟩ fun h => absurd h hnames

theorem generateMapInfos_nil {estates : List Estate} {text : Text} (h : ¬ MapNames text) :
    generateMapInfos estates (some text) = .ok [] := by
  have hnames : ¬ ∀ name ∈ header text, (MapColumn.ofName name).isSome := h
  rw [generateMapInfos, mapInfoOutput_sheet, if_neg hnames]
  rfl

/-! ## a new game -/

/-- A new game loads the sheets, one that does not parse as an empty list. -/
structure Loads (deedSheet mapInfoSheet : Text) (game : MonopolyGame) : Prop where
  initialGame : initialGame (some deedSheet) (some mapInfoSheet) = .ok game
  estates : ¬ DeedParses deedSheet → game.estates = []
  mapInfos : ¬ MapNames mapInfoSheet → game.mapInfos = []

/-- **Loading**: a new game loads two sheets exactly when the deed sheet, unless a name in
its first row is unknown, has rows and no row misses a cell before the first that is not
taken; and the map sheet, unless a name is unknown, has rows and in each a status and what
it asks for, which for an estate is that the deed sheet parses and its place is a number. -/
theorem initialGame_loads {deedSheet mapInfoSheet : Text} :
    (∃ game, Loads deedSheet mapInfoSheet game) ↔
      DeedReads deedSheet ∧ MapReads (DeedParses deedSheet) mapInfoSheet := by
  have hloaded : ∀ estates, generateEstates (some deedSheet) = .ok estates →
      (sortedBy mapIncreaseOrder estates ≠ [] ↔ DeedParses deedSheet) := by
    intro estates hestates
    rw [← generateEstates_ne_nil hestates, ne_eq, ne_eq, not_iff_not]
    have hperm := perm_sortedBy mapIncreaseOrder estates
    exact ⟨fun hnil => List.nil_perm.mp (hnil ▸ hperm),
      fun hnil => List.perm_nil.mp (hnil ▸ hperm)⟩
  constructor
  · rintro ⟨game, hgame⟩
    obtain ⟨estates, hestates, hrest⟩ := bind_eq_ok.mp hgame.initialGame
    obtain ⟨infos, hinfos, -⟩ := bind_eq_ok.mp hrest
    have hreads := generateMapInfos_eq_ok.mp ⟨infos, hinfos⟩
    rw [propext (hloaded estates hestates)] at hreads
    exact ⟨generateEstates_eq_ok.mp ⟨estates, hestates⟩, hreads⟩
  · rintro ⟨hdeed, hmap⟩
    obtain ⟨estates, hestates⟩ := generateEstates_eq_ok.mpr hdeed
    rw [← propext (hloaded estates hestates)] at hmap
    obtain ⟨infos, hinfos⟩ := generateMapInfos_eq_ok.mpr hmap
    refine ⟨⟨sortedBy mapIncreaseOrder estates, infos⟩, ?_, fun hparses => ?_, fun hnames => ?_⟩
    · simp only [initialGame, hestates, ok_bind, hinfos, pure_eq_ok]
    · exact not_not.mp ((hloaded estates hestates).not.mpr hparses)
    · rw [generateMapInfos_nil hnames] at hinfos
      exact (Except.ok.inj hinfos).symm

/-- A deed sheet of the first row alone stops the program. -/
theorem initialGame_loads_header :
    initialGame (some "id,engName".toList) (some "mapLoc,status\n0,STARTLINE".toList) =
        .error .invalidRange ∧
      ¬ ∃ game, Loads "id,engName".toList "mapLoc,status\n0,STARTLINE".toList game := by
  have hstop : initialGame (some "id,engName".toList)
      (some "mapLoc,status\n0,STARTLINE".toList) = .error .invalidRange := by decide +kernel
  refine ⟨hstop, fun ⟨game, hgame⟩ => ?_⟩
  have hok := hgame.initialGame
  rw [hstop] at hok
  cases hok

end Sheets

end IosGame
