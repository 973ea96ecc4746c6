import IosGame.Loop
import IosGame.Sheets.Deed

/-!
# IosGame.Sheets.Map

The map sheet: a place of the board for each row, by its status, and what a new game loads.
-/

namespace IosGame

namespace Sheets

inductive MapType where
  | ESTATE
  | SUPERTAX
  | INCOMETAX
  | CHANCE
  | COMMUNITY
  | STARTLINE
  | PARKING
  | JAIL
  | GOTOJAIL
  deriving DecidableEq, Repr

/-- The type whose raw value the text is. -/
def MapType.ofRawValue (text : Text) : Option MapType :=
  match String.ofList text with
  | "ESTATE" => some .ESTATE
  | "SUPERTAX" => some .SUPERTAX
  | "INCOMETAX" => some .INCOMETAX
  | "CHANCE" => some .CHANCE
  | "COMMUNITY" => some .COMMUNITY
  | "STARTLINE" => some .STARTLINE
  | "PARKING" => some .PARKING
  | "JAIL" => some .JAIL
  | "GOTOJAIL" => some .GOTOJAIL
  | _ => none

structure MapInfo where
  name : Text
  status : MapType
  estate : Option Estate
  contentText : Text
  value : Int64
  deriving DecidableEq

def MapInfo.init (name : Text) (status : MapType) (estate : Option Estate) (contentText : Text) :
    MapInfo where
  name := name
  status := status
  estate := estate
  contentText := contentText
  value :=
    if status = .SUPERTAX then 1000
    else if status = .INCOMETAX ∨ status = .STARTLINE then 2000
    else (estate.map Estate.buyValue).getD 0

/-- The columns of the sheet, one for each `_COL` variable. -/
inductive MapColumn where
  | mapLoc
  | status
  deriving DecidableEq, Repr

/-- The cases of the switch over the names in the first row. -/
def MapColumn.ofName (name : Text) : Option MapColumn :=
  match String.ofList name with
  | "mapLoc" => some .mapLoc
  | "status" => some .status
  | _ => none

/-- `Int(text)!` -/
def unwrapInt (text : Text) : Except Stop Int64 :=
  match intOf text with
  | some n => .ok n
  | none => .error .unwrappedNil

/-- The loop that looks for the estate of the row: its index, and 0 if there is none. -/
def searchEstate (row : List Text) (mapLoc_COL : Nat) : List Estate → Nat → Except Stop Nat
  | [], _ => .ok 0
  | estate :: estates, tmp => do
      let Loc ← unwrapInt (← cell row mapLoc_COL)
      if estate.mapLoc = Loc then pure tmp else searchEstate row mapLoc_COL estates (tmp + 1)

/-- The `ESTATE` case of the switch over the statuses. -/
def estateInfo (estates : List Estate) (cols : MapColumn → Nat) (row : List Text) :
    Except Stop MapInfo := do
  closedRange 0 (estates.length - 1)
  let idx ← searchEstate row (cols .mapLoc) estates 0
  match estates[idx]? with
  | some estate => pure (.init estate.engName .ESTATE (some estate) [])
  | none => .error .outOfRange

/-- What a row adds to the list. -/
def mapRow (estates : List Estate) (cols : MapColumn → Nat) (row : List Text) :
    Except Stop (List MapInfo) := do
  let status ← cell row (cols .status)
  match MapType.ofRawValue status with
  | some .STARTLINE => pure [.init "GO".toList .STARTLINE none "Start Line,GO".toList]
  | some .ESTATE =>
      let info ← estateInfo estates cols row
      pure [info]
  | some .PARKING => pure [.init "FREE PARKING".toList .PARKING none []]
  | some .INCOMETAX =>
      pure [.init "INCOME TAX".toList .INCOMETAX none "Income tax, pay 2,000,000".toList]
  | some .SUPERTAX =>
      pure [.init "SUPER TAX".toList .SUPERTAX none "Super tax, pay 1,000,000".toList]
  | some .JAIL => pure [.init "IN JAIL".toList .JAIL none "Going in jail".toList]
  | some .GOTOJAIL => pure [.init "GO TO JAIL".toList .GOTOJAIL none "Go to jail".toList]
  | some .CHANCE | some .COMMUNITY =>
      -- only printed
      let _ ← cell row (cols .mapLoc)
      pure []
  | none => pure []

/-- `mapInfoOutput` on what the file holds. -/
def mapInfoOutput (estates : List Estate) (contents : Option Text) : Except Stop (List MapInfo) :=
  match readDataFromCSV contents with
  | none => .ok []
  | some data => do
      let data := cleanRows data
      let csvRows := csv data
      match csvRows with
      | [] => .error .outOfRange
      | header :: rows => do
          closedRange 0 (header.length - 1)
          let cols ← scanHeader MapColumn.ofName 0 header fun _ => 0
          closedRange 1 (csvRows.length - 1)
          let infos ← rows.mapM (mapRow estates cols)
          pure infos.flatten

def generateMapInfos (estates : List Estate) (contents : Option Text) :
    Except Stop (List MapInfo) :=
  orEmpty (mapInfoOutput estates contents)

/-! ## a new game -/

def mapIncreaseOrder (a b : Estate) : Bool :=
  if a.mapLoc < b.mapLoc then true else false

/-- What `initialGame` loads. -/
structure MonopolyGame where
  estates : List Estate
  mapInfos : List MapInfo
  deriving DecidableEq

/-- `initialGame`, where it loads the sheets. -/
def initialGame (deedSheet mapInfoSheet : Option Text) : Except Stop MonopolyGame := do
  let estates ← generateEstates deedSheet
  let estates := sortedBy mapIncreaseOrder estates
  let mapInfos ← generateMapInfos estates mapInfoSheet
  pure { estates := estates, mapInfos := mapInfos }

/-! ## the reader -/

/-- The columns that a first row gives. -/
def mapCols (header : List Text) : MapColumn → Nat :=
  headerCols MapColumn.ofName 0 header fun _ => 0

/-- The reader on a sheet that it has cleaned up and split. -/
theorem mapInfoOutput_eq (estates : List Estate) {text : Text} {header : List Text}
    {rows : List (List Text)} (h : csv (cleanRows (cleanRows text)) = header :: rows) :
    mapInfoOutput estates (some text) =
      if ∀ name ∈ header, (MapColumn.ofName name).isSome then
        if rows = [] then .error .invalidRange
        else (rows.mapM (mapRow estates (mapCols header))).map List.flatten
      else .error .returnNil := by
  have hflatten : ∀ cols, (rows.mapM (mapRow estates cols) >>= fun infos => pure infos.flatten) =
      (rows.mapM (mapRow estates cols)).map List.flatten := by
    intro cols
    cases rows.mapM (mapRow estates cols) <;> rfl
  simp only [mapInfoOutput, readDataFromCSV, Option.map_some, h, hflatten]
  exact sheet_eq h fun cols => (rows.mapM (mapRow estates cols)).map List.flatten

end Sheets

end IosGame
