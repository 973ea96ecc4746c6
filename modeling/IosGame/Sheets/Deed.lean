import IosGame.Sheets.Csv

/-!
# IosGame.Sheets.Deed

The deed sheet: its columns, in whatever order its first row names them, and the estates of
its other rows.
-/

namespace IosGame

namespace Sheets

structure Estate where
  id : Int64
  engName : Text
  chineseName : Text
  mortgageValue : Int64
  mapLoc : Int64
  buyValue : Int64
  rent_0 : Int64
  rent_1 : Int64
  rent_2 : Int64
  rent_3 : Int64
  rent_4 : Int64
  rent_5 : Int64
  costOfApartment : Int64
  color : Text
  deriving DecidableEq

/-- The columns of the sheet, one for each `_COL` variable and each entry of `rents_Col`. -/
inductive DeedColumn where
  | id
  | engName
  | chineseName
  | mapLoc
  | buyValue
  | mort
  | rents (j : Fin 6)
  | costApart
  | color
  deriving DecidableEq, Repr

/-- The cases of the switch over the names in the first row. -/
def DeedColumn.ofName (name : Text) : Option DeedColumn :=
  match String.ofList name with
  | "id" => some .id
  | "engName" => some .engName
  | "chineseName" => some .chineseName
  | "mapLoc" => some .mapLoc
  | "buyValue" => some .buyValue
  | "mortgageValue" => some .mort
  | "rent-0" => some (.rents 0)
  | "rent-1" => some (.rents 1)
  | "rent-2" => some (.rents 2)
  | "rent-3" => some (.rents 3)
  | "rent-4" => some (.rents 4)
  | "rent-5" => some (.rents 5)
  | "costOfApartment" => some .costApart
  | "color" => some .color
  | _ => none

/-- `guard let n = Int(text) else { return nil }` -/
def guardInt (text : Text) : Except Stop Int64 :=
  match intOf text with
  | some n => .ok n
  | none => .error .returnNil

/-- The body of the loop over `rents_Col`. -/
def rentOf (text : Text) : Except Stop Int64 :=
  if text = [] then .ok 0 else guardInt text

/-- The estate of a row. -/
def deedRow (cols : DeedColumn → Nat) (row : List Text) : Except Stop Estate := do
  let id ← guardInt (← cell row (cols .id))
  let engName ← cell row (cols .engName)
  let chineseName ← cell row (cols .chineseName)
  let color ← cell row (cols .color)
  let mort ← guardInt (← cell row (cols .mort))
  let Loc ← guardInt (← cell row (cols .mapLoc))
  let buyValue ← guardInt (← cell row (cols .buyValue))
  let costApart := (intOf (← cell row (cols .costApart))).getD 0
  -- the loop over `rents_Col`
  let rent_0 ← rentOf (← cell row (cols (.rents 0)))
  let rent_1 ← rentOf (← cell row (cols (.rents 1)))
  let rent_2 ← rentOf (← cell row (cols (.rents 2)))
  let rent_3 ← rentOf (← cell row (cols (.rents 3)))
  let rent_4 ← rentOf (← cell row (cols (.rents 4)))
  let rent_5 ← rentOf (← cell row (cols (.rents 5)))
  pure
    { id := id
      engName := engName
      chineseName := chineseName
      mortgageValue := mort
      mapLoc := Loc
      buyValue := buyValue
      rent_0 := rent_0
      rent_1 := rent_1
      rent_2 := rent_2
      rent_3 := rent_3
      rent_4 := rent_4
      rent_5 := rent_5
      costOfApartment := costApart
      color := color }

/-- The columns as the reader takes them. -/
def DeedColumn.readingOrder : List DeedColumn :=
  [.id, .engName, .chineseName, .color, .mort, .mapLoc, .buyValue, .costApart, .rents 0,
    .rents 1, .rents 2, .rents 3, .rents 4, .rents 5]

/-- `deedOutput` on what the file holds. -/
def deedOutput (contents : Option Text) : Except Stop (List Estate) :=
  match readDataFromCSV contents with
  | none => .ok []
  | some data => do
      let data := cleanRows data
      let csvRows := csv data
      match csvRows with
      | [] => .error .outOfRange
      | header :: rows => do
          closedRange 0 (header.length - 1)
          let cols ← scanHeader DeedColumn.ofName 0 header fun _ => 0
          closedRange 1 (csvRows.length - 1)
          rows.mapM (deedRow cols)

/-- The caller's answer to nil. -/
def orEmpty {α : Type} : Except Stop (List α) → Except Stop (List α)
  | .error .returnNil => .ok []
  | result => result

def generateEstates (contents : Option Text) : Except Stop (List Estate) :=
  orEmpty (deedOutput contents)

/-! ## the columns -/

/-- The name of a column in the first row. -/
def DeedColumn.name : DeedColumn → Text
  | .id => "id".toList
  | .engName => "engName".toList
  | .chineseName => "chineseName".toList
  | .mapLoc => "mapLoc".toList
  | .buyValue => "buyValue".toList
  | .mort => "mortgageValue".toList
  | .rents j => "rent-".toList ++ Nat.toDigits 10 j
  | .costApart => "costOfApartment".toList
  | .color => "color".toList

def DeedColumn.all : List DeedColumn :=
  [.id, .engName, .chineseName, .mapLoc, .buyValue, .mort, .rents 0, .rents 1, .rents 2,
    .rents 3, .rents 4, .rents 5, .costApart, .color]

theorem DeedColumn.mem_all (c : DeedColumn) : c ∈ DeedColumn.all := by
  cases c with
  | rents j => revert j; decide
  | _ => decide

theorem DeedColumn.nodup_all : DeedColumn.all.Nodup := by decide

theorem DeedColumn.ofName_name (c : DeedColumn) : DeedColumn.ofName c.name = some c := by
  cases c with
  | rents j => revert j; decide
  | _ => decide

/-- The columns that a first row gives. -/
def deedCols (header : List Text) : DeedColumn → Nat :=
  headerCols DeedColumn.ofName 0 header fun _ => 0

/-- The reader on a sheet that it has cleaned up and split. -/
theorem deedOutput_eq {text : Text} {header : List Text} {rows : List (List Text)}
    (h : csv (cleanRows (cleanRows text)) = header :: rows) :
    deedOutput (some text) =
      if ∀ name ∈ header, (DeedColumn.ofName name).isSome then
        if rows = [] then .error .invalidRange else rows.mapM (deedRow (deedCols header))
      else .error .returnNil := by
  simp only [deedOutput, readDataFromCSV, Option.map_some, h]
  exact sheet_eq h fun cols => rows.mapM (deedRow cols)

end Sheets

end IosGame
