import IosGame.Sheets.Deed

/-!
# IosGame.Sheets.RoundTrip

Records written as a sheet are read back, whatever the order of the columns and the line
separators (`RendersSheet.mapM`); so the estates of a deed sheet are, whether a rent or a
cost of 0 is written at all or not (`deed_round_trip`).
-/

namespace IosGame

namespace Sheets

/-! ## fields -/

/-- A field that stays one column of one row. -/
structure IsField (text : Text) : Prop where
  no_comma : ',' ∉ text
  no_cr : '\r' ∉ text
  no_lf : '\n' ∉ text

theorem isField_of_all {text : Text}
    (h : text.all (fun c => c != ',' && c != '\r' && c != '\n') = true) : IsField text := by
  have hchars := List.all_eq_true.mp h
  constructor <;> intro hc <;> simpa using hchars _ hc

theorem isField_decimal (value : Int64) : IsField (decimal value) := by
  refine isField_of_all (List.all_eq_true.mpr fun c hc => ?_)
  rcases mem_decimal hc with rfl | hdigit
  · decide
  · have hne : ∀ d : Char, d.isDigit = false → c ≠ d := by
      rintro d hd rfl
      rw [hdigit] at hd
      cases hd
    simp [hne ',' (by decide), hne '\r' (by decide), hne '\n' (by decide)]

/-! ## rows -/

/-- The cells of a row, joined. -/
def joinCells (cells : List Text) : Text := [','].intercalate cells

theorem mem_joinCells {cells : List Text} {c : Char} (h : c ∈ joinCells cells) :
    c = ',' ∨ ∃ cell ∈ cells, c ∈ cell := by
  cases cells with
  | nil => cases h
  | cons cell cells =>
      rw [joinCells, intercalate_cons] at h
      rcases List.mem_append.mp h with h | h
      · exact .inr ⟨cell, List.mem_cons_self, h⟩
      · obtain ⟨cell', hcell', h⟩ := List.mem_flatMap.mp h
        rcases List.mem_cons.mp h with rfl | h
        · exact .inl rfl
        · exact .inr ⟨cell', List.mem_cons_of_mem _ hcell', h⟩

/-- Two or more fields joined are a row. -/
theorem isRow_joinCells {cells : List Text} (hlen : 1 < cells.length)
    (h : ∀ cell ∈ cells, IsField cell) : IsRow (joinCells cells) := by
  refine ⟨fun hnil => ?_, fun hcr => ?_, fun hlf => ?_⟩
  · match cells, hlen with
    | cell :: cell' :: cells, _ =>
        rw [joinCells, intercalate_cons] at hnil
        simp at hnil
  · rcases mem_joinCells hcr with heq | ⟨cell, hcell, hcr⟩
    · exact absurd heq (by decide)
    · exact (h cell hcell).no_cr hcr
  · rcases mem_joinCells hlf with heq | ⟨cell, hcell, hlf⟩
    · exact absurd heq (by decide)
    · exact (h cell hcell).no_lf hlf

theorem splitOn_joinCells {cells : List Text} (hne : cells ≠ [])
    (h : ∀ cell ∈ cells, IsField cell) : (joinCells cells).splitOn ',' = cells :=
  List.splitOn_intercalate _ (fun cell hcell => (h cell hcell).no_comma) hne

/-! ## sheets of records -/

theorem exists_of_forall₂_right {α β : Type} {R : α → β → Prop} {as : List α} {bs : List β}
    (h : List.Forall₂ R as bs) {b : β} (hb : b ∈ bs) : ∃ a ∈ as, R a b := by
  induction h with
  | nil => cases hb
  | cons hhead _ ih =>
      rcases List.mem_cons.mp hb with rfl | hb
      · exact ⟨_, List.mem_cons_self, hhead⟩
      · obtain ⟨a, ha, hR⟩ := ih hb
        exact ⟨a, List.mem_cons_of_mem _ ha, hR⟩

theorem mapM_eq_ok {α β ε : Type} {f : α → Except ε β} {as : List α} {bs : List β}
    (h : List.Forall₂ (fun b a => f a = .ok b) bs as) : as.mapM f = .ok bs := by
  induction h with
  | nil => rfl
  | cons hhead _ ih =>
      rw [List.mapM_cons, hhead, ih]
      rfl

/-- A cell stands where the first row names its column. -/
theorem cell_shows {κ : Type} [DecidableEq κ] {column : Text → Option κ} {name : κ → Text}
    (hname : ∀ c, column (name c) = some c) {header : List κ} (hnodup : header.Nodup)
    {shows : κ → Text → Prop} {cells : List Text} (h : List.Forall₂ shows header cells) {c : κ}
    (hc : c ∈ header) : ∃ text,
      cell cells (headerCols column 0 (header.map name) (fun _ => 0) c) = .ok text ∧
        shows c text := by
  obtain ⟨j, hj, hget⟩ := List.getElem_of_mem hc
  have hcol : headerCols column 0 (header.map name) (fun _ => 0) c = j := by
    have hnames := (headerCols_names hname hnodup 0 fun _ => 0).1 j c
    rw [hnames (List.getElem?_eq_some_iff.mpr ⟨hj, hget⟩), Nat.zero_add]
  obtain ⟨hlen, hshows⟩ := List.forall₂_iff_get.mp h
  have hlt : j < cells.length := hlen ▸ hj
  refine ⟨cells[j], ?_, ?_⟩
  · rw [hcol, cell, List.getElem?_eq_getElem hlt]
  · have hj' := hshows j hj hlt
    rwa [List.get_eq_getElem, hget] at hj'

/-- The rows that the reader finds in a sheet of fields are those that were written. -/
theorem csv_sheet {header : List Text} {rows : List (LineSeparator × List Text)}
    (hlen : 1 < header.length) (hnames : ∀ name ∈ header, IsField name)
    (hrows : ∀ row ∈ rows, row.2.length = header.length ∧ ∀ cell ∈ row.2, IsField cell) :
    csv (cleanRows (cleanRows (joinRows (joinCells header)
      (rows.map fun row => (row.1, joinCells row.2))))) = header :: rows.map Prod.snd := by
  have hrest : ∀ row ∈ rows.map fun row => (row.1, joinCells row.2), IsRow row.2 := by
    intro row hrow
    obtain ⟨row', hrow', rfl⟩ := List.mem_map.mp hrow
    obtain ⟨hlen', hfields⟩ := hrows row' hrow'
    exact isRow_joinCells (by omega) hfields
  have hne : ∀ cells : List Text, 1 < cells.length → cells ≠ [] :=
    fun cells hcells => List.length_pos_iff.mp (by omega)
  rw [csv_joinRows (isRow_joinCells hlen hnames) hrest, List.map_cons,
    splitOn_joinCells (hne header hlen) hnames, List.map_map, List.map_map]
  congr 1
  refine List.map_congr_left fun row hrow => ?_
  obtain ⟨hlen', hfields⟩ := hrows row hrow
  exact splitOn_joinCells (hne row.2 (by omega)) hfields

section Records

variable {κ ρ : Type} {columns : List κ} {name : κ → Text}
  {column : Text → Option κ} {Shows : ρ → κ → Text → Prop} {records : List ρ} {text : Text}

/-- The columns that a reader knows by their names. -/
structure KnownColumns (columns : List κ) (name : κ → Text) (column : Text → Option κ) :
    Prop where
  column : ∀ c, column (name c) = some c
  nodup : columns.Nodup
  two : 1 < columns.length
  field : ∀ c, IsField (name c)

/-- The sheet has a first row that names the columns, each once and in any order, and a row
for each record, with its cells in the same order; any separators stand between them. -/
def RendersSheet (columns : List κ) (name : κ → Text) (Shows : ρ → κ → Text → Prop)
    (records : List ρ) (text : Text) : Prop :=
  ∃ header : List κ, header.Perm columns ∧
    ∃ rows : List (LineSeparator × List Text),
      List.Forall₂ (fun record row => List.Forall₂ (Shows record) header row.2) records rows ∧
      text = joinRows (joinCells (header.map name))
        (rows.map fun row => (row.1, joinCells row.2))

/-- The cells of the record stand in the columns of the first row. -/
def ShowsRow [DecidableEq κ] (column : Text → Option κ) (Shows : ρ → κ → Text → Prop)
    (columns : List κ) (header : List Text) (record : ρ) (row : List Text) : Prop :=
  ∀ c ∈ columns, ∃ text,
    cell row (headerCols column 0 header (fun _ => 0) c) = .ok text ∧ Shows record c text

/-- The reader finds a known first row and the row of each record. -/
theorem RendersSheet.read [DecidableEq κ] (h : RendersSheet columns name Shows records text)
    (hcolumns : KnownColumns columns name column)
    (hfield : ∀ record ∈ records, ∀ c text, Shows record c text → IsField text) :
    ∃ header rows, csv (cleanRows (cleanRows text)) = header :: rows ∧
      (∀ name ∈ header, (column name).isSome) ∧
      List.Forall₂ (ShowsRow column Shows columns header) records rows := by
  obtain ⟨header, hheader, rows, hrows, rfl⟩ := h
  have hcells : ∀ row ∈ rows, row.2.length = (header.map name).length ∧
      ∀ cell ∈ row.2, IsField cell := by
    intro row hrow
    obtain ⟨record, hrecord, hshows⟩ := exists_of_forall₂_right hrows hrow
    refine ⟨by rw [List.length_map, hshows.length_eq], fun cell hcell => ?_⟩
    obtain ⟨c, -, hc⟩ := exists_of_forall₂_right hshows hcell
    exact hfield record hrecord c cell hc
  refine ⟨header.map name, rows.map Prod.snd, csv_sheet ?_ ?_ hcells, ?_, ?_⟩
  · rw [List.length_map, hheader.length_eq]
    exact hcolumns.two
  · rw [List.forall_mem_map]
    exact fun c _ => hcolumns.field c
  · rw [List.forall_mem_map]
    intro c _
    rw [hcolumns.column]
    rfl
  · rw [List.forall₂_map_right_iff]
    refine hrows.imp fun record row hshows c hc => ?_
    exact cell_shows hcolumns.column (hheader.nodup_iff.mpr hcolumns.nodup) hshows
      (hheader.mem_iff.mpr hc)

/-- A reader that reads each record from the cells it is shown in reads all of them. -/
theorem RendersSheet.mapM [DecidableEq κ] {β : Type} {f : List Text → List Text → Except Stop β}
    {g : ρ → β} (h : RendersSheet columns name Shows records text) (hne : records ≠ [])
    (hcolumns : KnownColumns columns name column)
    (hfield : ∀ record ∈ records, ∀ c text, Shows record c text → IsField text)
    (hread : ∀ header, ∀ record ∈ records, ∀ row,
      ShowsRow column Shows columns header record row → f header row = .ok (g record)) :
    ∃ header rows, csv (cleanRows (cleanRows text)) = header :: rows ∧
      (∀ name ∈ header, (column name).isSome) ∧ rows ≠ [] ∧
      rows.mapM (f header) = .ok (records.map g) := by
  obtain ⟨header, rows, hcsv, hknown, hrows⟩ := h.read hcolumns hfield
  refine ⟨header, rows, hcsv, hknown, ?_, mapM_eq_ok (List.forall₂_map_left_iff.mpr ?_)⟩
  · rintro rfl
    cases hrows
    exact hne rfl
  · refine ((List.forall₂_and_left _ _).mpr ⟨fun _ hrecord => hrecord, hrows⟩).imp ?_
    rintro record row ⟨hrecord, hshows⟩
    exact hread header record hrecord row hshows

/-- The sheet with the columns in the order of `header` and a row a line. -/
def writeSheet (header : List κ) (name : κ → Text) (write : ρ → κ → Text) (records : List ρ) :
    Text :=
  joinRows (joinCells (header.map name))
    (records.map fun record => (.lf, joinCells (header.map (write record))))

theorem rendersSheet_write {header : List κ} {write : ρ → κ → Text} (records : List ρ)
    (hheader : header.Perm columns) (h : ∀ record c, Shows record c (write record c)) :
    RendersSheet columns name Shows records (writeSheet header name write records) := by
  refine ⟨header, hheader, records.map fun record => (.lf, header.map (write record)), ?_, ?_⟩
  · rw [List.forall₂_map_right_iff, List.forall₂_same]
    intro record _
    rw [List.forall₂_map_right_iff, List.forall₂_same]
    exact fun c _ => h record c
  · rw [writeSheet, List.map_map]
    rfl

end Records

/-! ## the deed sheet -/

/-- The rents of an estate. -/
def Estate.rent (estate : Estate) : Fin 6 → Int64 :=
  fun j => [estate.rent_0, estate.rent_1, estate.rent_2, estate.rent_3, estate.rent_4,
    estate.rent_5].get j

/-- How an amount is written that may be left out when it is 0. -/
def IsAmount (amount : Int64) (text : Text) : Prop :=
  text = decimal amount ∨ (amount = 0 ∧ text = [])

/-- How an estate is written in a column. -/
def Estate.Shows (estate : Estate) : DeedColumn → Text → Prop
  | .id, text => text = decimal estate.id
  | .engName, text => text = estate.engName
  | .chineseName, text => text = estate.chineseName
  | .mapLoc, text => text = decimal estate.mapLoc
  | .buyValue, text => text = decimal estate.buyValue
  | .mort, text => text = decimal estate.mortgageValue
  | .rents j, text => IsAmount (estate.rent j) text
  | .costApart, text => IsAmount estate.costOfApartment text
  | .color, text => text = estate.color

/-- The texts of an estate are fields. -/
structure Estate.Plain (estate : Estate) : Prop where
  engName : IsField estate.engName
  chineseName : IsField estate.chineseName
  color : IsField estate.color

/-- The sheet has a first row that names all columns, each once, and a row for each estate,
with its cells in the same order; any separators stand between them. -/
def Renders (estates : List Estate) (text : Text) : Prop :=
  RendersSheet DeedColumn.all DeedColumn.name Estate.Shows estates text

/-- How an estate is written in full. -/
def Estate.write (estate : Estate) : DeedColumn → Text
  | .id => decimal estate.id
  | .engName => estate.engName
  | .chineseName => estate.chineseName
  | .mapLoc => decimal estate.mapLoc
  | .buyValue => decimal estate.buyValue
  | .mort => decimal estate.mortgageValue
  | .rents j => decimal (estate.rent j)
  | .costApart => decimal estate.costOfApartment
  | .color => estate.color

theorem renders_write {header : List DeedColumn} (hheader : header.Perm DeedColumn.all)
    (estates : List Estate) :
    Renders estates (writeSheet header DeedColumn.name Estate.write estates) := by
  refine rendersSheet_write estates hheader fun estate c => ?_
  cases c with
  | rents j => exact .inl rfl
  | costApart => exact .inl rfl
  | _ => rfl

theorem isField_name (c : DeedColumn) : IsField c.name := by
  cases c with
  | rents j => exact isField_of_all (by revert j; decide)
  | _ => exact isField_of_all (by decide)

theorem isField_amount {amount : Int64} {text : Text} (h : IsAmount amount text) :
    IsField text := by
  rcases h with rfl | ⟨-, rfl⟩
  · exact isField_decimal amount
  · exact isField_of_all rfl

theorem isField_shows {estate : Estate} (hplain : estate.Plain) {c : DeedColumn} {text : Text}
    (h : estate.Shows c text) : IsField text := by
  cases c with
  | engName => exact h ▸ hplain.engName
  | chineseName => exact h ▸ hplain.chineseName
  | color => exact h ▸ hplain.color
  | rents j => exact isField_amount h
  | costApart => exact isField_amount h
  | id => exact h ▸ isField_decimal _
  | mapLoc => exact h ▸ isField_decimal _
  | buyValue => exact h ▸ isField_decimal _
  | mort => exact h ▸ isField_decimal _

theorem guardInt_decimal (value : Int64) : guardInt (decimal value) = .ok value := by
  rw [guardInt, intOf_decimal]

theorem rentOf_amount {amount : Int64} {text : Text} (h : IsAmount amount text) :
    rentOf text = .ok amount := by
  rcases h with rfl | ⟨rfl, rfl⟩
  · rw [rentOf, if_neg (decimal_ne_nil amount), guardInt_decimal]
  · rfl

theorem intOf_amount {amount : Int64} {text : Text} (h : IsAmount amount text) :
    (intOf text).getD 0 = amount := by
  rcases h with rfl | ⟨rfl, rfl⟩
  · rw [intOf_decimal]
    rfl
  · rfl

/-- A row with the cells of an estate where the columns are is read as the estate. -/
theorem deedRow_shows {estate : Estate} {cols : DeedColumn → Nat} {row : List Text}
    (h : ∀ c, ∃ text, cell row (cols c) = .ok text ∧ estate.Shows c text) :
    deedRow cols row = .ok estate := by
  have hnumber : ∀ c value, (∀ text, estate.Shows c text → text = decimal value) →
      ∃ text, cell row (cols c) = .ok text ∧ guardInt text = .ok value := by
    intro c value hshows
    obtain ⟨text, hcell, htext⟩ := h c
    rw [hshows text htext] at hcell
    exact ⟨_, hcell, guardInt_decimal value⟩
  have hrent : ∀ j, ∃ text, cell row (cols (.rents j)) = .ok text ∧
      rentOf text = .ok (estate.rent j) := by
    intro j
    obtain ⟨text, hcell, htext⟩ := h (.rents j)
    exact ⟨text, hcell, rentOf_amount htext⟩
  obtain ⟨tid, hid, hid'⟩ := hnumber .id estate.id fun _ => id
  obtain ⟨tmort, hmort, hmort'⟩ := hnumber .mort estate.mortgageValue fun _ => id
  obtain ⟨tmapLoc, hmapLoc, hmapLoc'⟩ := hnumber .mapLoc estate.mapLoc fun _ => id
  obtain ⟨tbuy, hbuy, hbuy'⟩ := hnumber .buyValue estate.buyValue fun _ => id
  obtain ⟨_, hengName, rfl⟩ := h .engName
  obtain ⟨_, hchineseName, rfl⟩ := h .chineseName
  obtain ⟨_, hcolor, rfl⟩ := h .color
  obtain ⟨tcost, hcost, hcost'⟩ := h .costApart
  obtain ⟨t0, h0, h0'⟩ := hrent 0
  obtain ⟨t1, h1, h1'⟩ := hrent 1
  obtain ⟨t2, h2, h2'⟩ := hrent 2
  obtain ⟨t3, h3, h3'⟩ := hrent 3
  obtain ⟨t4, h4, h4'⟩ := hrent 4
  obtain ⟨t5, h5, h5'⟩ := hrent 5
  simp only [deedRow, hid, hid', hmort, hmort', hmapLoc, hmapLoc', hbuy, hbuy', hengName,
    hchineseName, hcolor, hcost, intOf_amount hcost', h0, h0', h1, h1', h2, h2', h3, h3', h4,
    h4', h5, h5', bind, Except.bind, pure, Except.pure]
  rfl

theorem knownColumns_deed :
    KnownColumns DeedColumn.all DeedColumn.name DeedColumn.ofName :=
  ⟨DeedColumn.ofName_name, DeedColumn.nodup_all, by decide, isField_name⟩

/-- The rows that the reader finds are those of the estates. -/
theorem Renders.mapM {estates : List Estate} {text : Text} (h : Renders estates text)
    (hne : estates ≠ []) (hplain : ∀ estate ∈ estates, estate.Plain) :
    ∃ header rows, csv (cleanRows (cleanRows text)) = header :: rows ∧
      (∀ name ∈ header, (DeedColumn.ofName name).isSome) ∧ rows ≠ [] ∧
      rows.mapM (deedRow (deedCols header)) = .ok estates := by
  have hread := RendersSheet.mapM (f := fun header => deedRow (deedCols header)) (g := id) h hne
    knownColumns_deed
    (fun estate hestate c text hshows => isField_shows (hplain estate hestate) hshows)
    fun header estate _ row hshows => deedRow_shows fun c => hshows c c.mem_all
  simpa only [List.map_id] using hread

/-- **Round trip**: a sheet that renders estates is read as these estates, in their order. -/
theorem deed_round_trip {estates : List Estate} {text : Text} (hne : estates ≠ [])
    (hplain : ∀ estate ∈ estates, estate.Plain) (h : Renders estates text) :
    deedOutput (some text) = .ok estates := by
  obtain ⟨header, rows, hcsv, hknown, hsome, hread⟩ := h.mapM hne hplain
  rw [deedOutput_eq hcsv, if_pos hknown, if_neg hsome, hread]

/-- An estate with a rent of 0. -/
def balticAvenue : Estate where
  id := 1
  engName := "Baltic".toList
  chineseName := "Bo".toList
  mortgageValue := -5
  mapLoc := 3
  buyValue := 60
  rent_0 := 0
  rent_1 := 4
  rent_2 := 5
  rent_3 := 6
  rent_4 := 7
  rent_5 := 8
  costOfApartment := 0
  color := "red".toList

/-- Two estates with the columns from the last to the first, a rent and a cost of 0 left out
and different line separators. -/
theorem deed_round_trip_two :
    deedOutput (some ("color,costOfApartment,rent-5,rent-4,rent-3,rent-2,rent-1,rent-0,".toList ++
      "mortgageValue,buyValue,mapLoc,chineseName,engName,id\r\n".toList ++
      "red,0,8,7,6,5,4,,-5,60,3,Bo,Baltic,1\n".toList ++
      "red,,8,7,6,5,4,0,-5,60,1,Me,Mediterranean,2".toList)) =
    .ok [balticAvenue, { balticAvenue with
      id := 2
      engName := "Mediterranean".toList
      chineseName := "Me".toList
      mapLoc := 1 }] := by
  refine deed_round_trip (List.cons_ne_nil _ _) ?_ ⟨DeedColumn.all.reverse,
    List.reverse_perm _,
    [(.crlf, ["red".toList, decimal 0, decimal 8, decimal 7, decimal 6, decimal 5, decimal 4, [],
      decimal (-5), decimal 60, decimal 3, "Bo".toList, "Baltic".toList, decimal 1]),
     (.lf, ["red".toList, [], decimal 8, decimal 7, decimal 6, decimal 5, decimal 4, decimal 0,
      decimal (-5), decimal 60, decimal 1, "Me".toList, "Mediterranean".toList, decimal 2])],
    .cons ?_ (.cons ?_ .nil), by decide +kernel⟩
  · intro estate hestate
    rcases List.mem_pair.mp hestate with rfl | rfl <;>
      exact ⟨isField_of_all (by decide), isField_of_all (by decide), isField_of_all (by decide)⟩
  · -- the rent is left out
    exact .cons rfl (.cons (.inl rfl) (.cons (.inl rfl) (.cons (.inl rfl) (.cons (.inl rfl)
      (.cons (.inl rfl) (.cons (.inl rfl) (.cons (.inr ⟨rfl, rfl⟩) (.cons rfl (.cons rfl
        (.cons rfl (.cons rfl (.cons rfl (.cons rfl .nil)))))))))))))
  · -- the cost is left out
    exact .cons rfl (.cons (.inr ⟨rfl, rfl⟩) (.cons (.inl rfl) (.cons (.inl rfl) (.cons (.inl rfl)
      (.cons (.inl rfl) (.cons (.inl rfl) (.cons (.inl rfl) (.cons rfl (.cons rfl
        (.cons rfl (.cons rfl (.cons rfl (.cons rfl .nil)))))))))))))

end Sheets

end IosGame
