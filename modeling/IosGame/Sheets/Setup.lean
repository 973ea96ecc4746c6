import IosGame.Sheets.Board
import IosGame.Sheets.RoundTrip

/-!
# IosGame.Sheets.Setup

A new game from well-formed sheets, read back as a whole.

The deed sheet names its estates in any order of rows and columns, the map sheet its places
row by row.  `initialGame_rendered` says which game the two set up: the estates in the order
of their places, and on the board, for each row, the place of its status, an estate with
the deed of its number.  The order in which the deeds were written makes no difference.
-/

namespace IosGame

namespace Sheets

/-! ## the deeds -/

theorem generateEstates_rendered {estates : List Estate} {text : Text} (hne : estates ≠ [])
    (hplain : ∀ estate ∈ estates, estate.Plain) (h : Renders estates text) :
    generateEstates (some text) = .ok estates := by
  obtain ⟨header, rows, hcsv, hknown, hsome, hread⟩ := h.mapM hne hplain
  rw [generateEstates, deedOutput_eq hcsv, if_pos hknown, if_neg hsome, hread]
  rfl

theorem mapIncreaseOrder_iff {a b : Estate} :
    mapIncreaseOrder a b = true ↔ a.mapLoc < b.mapLoc := by
  simp [mapIncreaseOrder]

/-- The sort puts estates with different places in the order of these. -/
theorem pairwise_mapIncreaseOrder {estates : List Estate}
    (hnodup : (estates.map Estate.mapLoc).Nodup) :
    (sortedBy mapIncreaseOrder estates).Pairwise fun a b => a.mapLoc < b.mapLoc := by
  have hle : ∀ {a b : Estate}, mapIncreaseOrder b a = false ↔ a.mapLoc ≤ b.mapLoc := by
    intro a b
    rw [← Bool.not_eq_true, mapIncreaseOrder_iff, Int64.not_lt]
  have hsorted := @pairwise_sortedBy Estate mapIncreaseOrder
    (fun a b hab => hle.mpr (Int64.le_of_lt (mapIncreaseOrder_iff.mp hab)))
    (fun a b c hab hbc => hle.mpr (Int64.le_trans (hle.mp hab) (hle.mp hbc))) estates
  have hne : (sortedBy mapIncreaseOrder estates).Pairwise fun a b => a.mapLoc ≠ b.mapLoc := by
    rw [← List.pairwise_map]
    exact ((perm_sortedBy mapIncreaseOrder estates).map Estate.mapLoc).nodup_iff.mpr hnodup
  exact (hsorted.and hne).imp fun ⟨hab, hne⟩ => Int64.lt_of_le_of_ne (hle.mp hab) hne

/-! ## the board -/

def MapType.rawValue : MapType → Text
  | .ESTATE => "ESTATE".toList
  | .SUPERTAX => "SUPERTAX".toList
  | .INCOMETAX => "INCOMETAX".toList
  | .CHANCE => "CHANCE".toList
  | .COMMUNITY => "COMMUNITY".toList
  | .STARTLINE => "STARTLINE".toList
  | .PARKING => "PARKING".toList
  | .JAIL => "JAIL".toList
  | .GOTOJAIL => "GOTOJAIL".toList

@[simp] theorem MapType.ofRawValue_rawValue (type : MapType) :
    MapType.ofRawValue type.rawValue = some type := by
  cases type <;> decide

/-- The name of a column in the first row. -/
def MapColumn.name : MapColumn → Text
  | .mapLoc => "mapLoc".toList
  | .status => "status".toList

theorem MapColumn.ofName_name (c : MapColumn) : MapColumn.ofName c.name = some c := by
  cases c <;> decide

def MapColumn.all : List MapColumn := [.mapLoc, .status]

/-- A place of the map: its number and its status. -/
structure MapPlace where
  mapLoc : Int64
  status : MapType
  deriving DecidableEq

/-- How a place is written in a column. -/
def MapPlace.Shows (place : MapPlace) : MapColumn → Text → Prop
  | .mapLoc, text => text = decimal place.mapLoc
  | .status, text => text = place.status.rawValue

/-- The sheet has the columns of a map, in either order, and a row for each place. -/
def RendersMap (places : List MapPlace) (text : Text) : Prop :=
  RendersSheet MapColumn.all MapColumn.name MapPlace.Shows places text

def MapPlace.write (place : MapPlace) : MapColumn → Text
  | .mapLoc => decimal place.mapLoc
  | .status => place.status.rawValue

theorem rendersMap_write {header : List MapColumn} (hheader : header.Perm MapColumn.all)
    (places : List MapPlace) :
    RendersMap places (writeSheet header MapColumn.name MapPlace.write places) :=
  rendersSheet_write places hheader fun place c => by cases c <;> rfl

/-- What stands on the board for a place of the map: nothing for the cards. -/
def MapPlace.infos (estates : List Estate) (place : MapPlace) : List MapInfo :=
  match place.status with
  | .ESTATE => (estates.find? fun estate => estate.mapLoc = place.mapLoc).toList.map fun estate =>
      .init estate.engName .ESTATE (some estate) []
  | .STARTLINE => [.init "GO".toList .STARTLINE none "Start Line,GO".toList]
  | .PARKING => [.init "FREE PARKING".toList .PARKING none []]
  | .INCOMETAX =>
      [.init "INCOME TAX".toList .INCOMETAX none "Income tax, pay 2,000,000".toList]
  | .SUPERTAX => [.init "SUPER TAX".toList .SUPERTAX none "Super tax, pay 1,000,000".toList]
  | .JAIL => [.init "IN JAIL".toList .JAIL none "Going in jail".toList]
  | .GOTOJAIL => [.init "GO TO JAIL".toList .GOTOJAIL none "Go to jail".toList]
  | .CHANCE | .COMMUNITY => []

/-- The deeds have different places, and each estate of the map has its deed. -/
structure Fits (estates : List Estate) (places : List MapPlace) : Prop where
  nodup : (estates.map Estate.mapLoc).Nodup
  deed : ∀ place ∈ places, place.status = .ESTATE → ∃ estate ∈ estates, estate.mapLoc = place.mapLoc

section Board

variable {estates estates' : List Estate} {places : List MapPlace} {n : Int64} {estate : Estate}

/-- An estate is found by its place, wherever it is on the list. -/
theorem find_mapLoc (hnodup : (estates.map Estate.mapLoc).Nodup) (hestate : estate ∈ estates)
    (hloc : estate.mapLoc = n) : estates.find? (fun estate => estate.mapLoc = n) = some estate := by
  cases hfind : estates.find? fun estate => estate.mapLoc = n with
  | none => exact absurd hloc (by simpa using List.find?_eq_none.mp hfind estate hestate)
  | some found =>
      have hfound : found.mapLoc = n := by simpa using List.find?_some hfind
      rw [List.inj_on_of_nodup_map hnodup (List.mem_of_find?_eq_some hfind) hestate
        (hfound.trans hloc.symm)]

theorem Fits.perm (h : Fits estates places) (hperm : estates'.Perm estates) :
    Fits estates' places where
  nodup := (hperm.map Estate.mapLoc).nodup_iff.mpr h.nodup
  deed := by
    intro place hplace hstatus
    obtain ⟨estate, hestate, hloc⟩ := h.deed place hplace hstatus
    exact ⟨estate, hperm.mem_iff.mpr hestate, hloc⟩

/-- The board is the same for the deeds in another order. -/
theorem Fits.infos_perm (h : Fits estates places) (hperm : estates'.Perm estates) :
    places.map (MapPlace.infos estates') = places.map (MapPlace.infos estates) := by
  refine List.map_congr_left fun place hplace => ?_
  unfold MapPlace.infos
  cases hstatus : place.status with
  | ESTATE =>
      obtain ⟨estate, hestate, hloc⟩ := h.deed place hplace hstatus
      simp only [find_mapLoc h.nodup hestate hloc,
        find_mapLoc (h.perm hperm).nodup (hperm.mem_iff.mpr hestate) hloc]
  | _ => rfl

/-- A row gives what stands for its place. -/
theorem Fits.reads {place : MapPlace} (h : Fits estates places) (hplace : place ∈ places)
    {cols : MapColumn → Nat} {row : List Text}
    (hrow : ∀ c, ∃ text, cell row (cols c) = .ok text ∧ place.Shows c text) :
    mapRow estates cols row = .ok (place.infos estates) := by
  obtain ⟨_, hloc, rfl⟩ := hrow .mapLoc
  obtain ⟨_, hstatus, rfl⟩ := hrow .status
  unfold mapRow MapPlace.infos
  rw [hstatus, ok_bind, MapType.ofRawValue_rawValue]
  cases htype : place.status with
  | ESTATE =>
      obtain ⟨estate, hestate, hestateLoc⟩ := h.deed place hplace htype
      have hget : row[cols .mapLoc]? = some (decimal place.mapLoc) := by
        unfold cell at hloc
        split at hloc <;> simp_all
      have hlocOf : locOf cols row = some place.mapLoc := by
        rw [locOf, hget, Option.bind_some, intOf_decimal]
      obtain ⟨i, found, hsearch, hfound, hfoundLoc⟩ :=
        searchEstate_finds hlocOf ⟨estate, hestate, hestateLoc⟩ 0
      have hpos := List.length_pos_of_mem hestate
      have hinfo : estateInfo estates cols row =
          .ok (.init found.engName .ESTATE (some found) []) := by
        rw [estateInfo, closedRange, if_pos (by omega), ok_bind, hsearch, ok_bind, Nat.zero_add,
          hfound]
        rfl
      simp only [hinfo, find_mapLoc h.nodup (List.mem_of_getElem? hfound) hfoundLoc]
      rfl
  | CHANCE =>
      simp only [hloc]
      rfl
  | COMMUNITY =>
      simp only [hloc]
      rfl
  | _ => rfl

theorem isField_shows_place {place : MapPlace} {c : MapColumn} {text : Text}
    (h : place.Shows c text) : IsField text := by
  cases c with
  | mapLoc => exact h ▸ isField_decimal _
  | status =>
      rw [show text = place.status.rawValue from h]
      cases place.status <;> exact isField_of_all (by decide)

theorem knownColumns_map : KnownColumns MapColumn.all MapColumn.name MapColumn.ofName := by
  refine ⟨MapColumn.ofName_name, by decide, by decide, fun c => ?_⟩
  cases c <;> exact isField_of_all (by decide)

theorem generateMapInfos_rendered {text : Text} (h : Fits estates places) (hne : places ≠ [])
    (hmap : RendersMap places text) :
    generateMapInfos estates (some text) = .ok (places.flatMap (MapPlace.infos estates)) := by
  obtain ⟨header, rows, hcsv, hknown, hsome, hread⟩ :=
    RendersSheet.mapM (f := fun header => mapRow estates (mapCols header))
      (g := MapPlace.infos estates) hmap hne knownColumns_map
      (fun place _ c text hshows => isField_shows_place hshows)
      fun header place hplace row hshows =>
        h.reads hplace fun c => hshows c (by cases c <;> decide)
  rw [generateMapInfos, mapInfoOutput_eq estates hcsv, if_pos hknown, if_neg hsome, hread,
    List.flatMap_def]
  rfl

end Board

/-! ## a new game -/

/-- The game has the deeds in the order of their places, and on the board what stands for the
places of the map, in their order. -/
structure SetsUp (estates : List Estate) (places : List MapPlace) (game : MonopolyGame) :
    Prop where
  perm : game.estates.Perm estates
  ordered : game.estates.Pairwise fun a b => a.mapLoc < b.mapLoc
  board : game.mapInfos = places.flatMap (MapPlace.infos estates)

/-- There is one such game. -/
theorem SetsUp.unique {estates : List Estate} {places : List MapPlace} {game game' : MonopolyGame}
    (h : SetsUp estates places game) (h' : SetsUp estates places game') : game = game' := by
  have hestates : game.estates = game'.estates :=
    (h.perm.trans h'.perm.symm).eq_of_pairwise (fun a b _ _ hab hba =>
      absurd hab (Int64.lt_asymm hba)) h.ordered h'.ordered
  have hboard : game.mapInfos = game'.mapInfos := h.board.trans h'.board.symm
  cases game
  cases game'
  simp_all

theorem initialGame_setsUp {estates : List Estate} {places : List MapPlace}
    {deedSheet mapSheet : Text} (hestates : estates ≠ [])
    (hplain : ∀ estate ∈ estates, estate.Plain)
    (hplaces : places ≠ []) (hfits : Fits estates places) (hdeed : Renders estates deedSheet)
    (hmap : RendersMap places mapSheet) :
    ∃ game, initialGame (some deedSheet) (some mapSheet) = .ok game ∧
      SetsUp estates places game := by
  have hperm := perm_sortedBy mapIncreaseOrder estates
  have hinfos := generateMapInfos_rendered (hfits.perm hperm) hplaces hmap
  rw [List.flatMap_def, hfits.infos_perm hperm, ← List.flatMap_def] at hinfos
  refine ⟨⟨sortedBy mapIncreaseOrder estates, places.flatMap (MapPlace.infos estates)⟩, ?_,
    hperm, pairwise_mapIncreaseOrder hfits.nodup, rfl⟩
  simp only [initialGame, generateEstates_rendered hestates hplain hdeed, ok_bind, hinfos,
    pure_eq_ok]

/-- **A new game** from sheets that render deeds and the places of a map is the one that these
set up, whatever the order of the columns and the separators; and the same for sheets that
render the deeds in another order. -/
theorem initialGame_rendered {estates : List Estate} {places : List MapPlace}
    (hestates : estates ≠ []) (hplain : ∀ estate ∈ estates, estate.Plain)
    (hplaces : places ≠ []) (hfits : Fits estates places) :
    ∃ game, SetsUp estates places game ∧
      ∀ estates' deedSheet mapSheet, estates'.Perm estates → Renders estates' deedSheet →
        RendersMap places mapSheet →
        initialGame (some deedSheet) (some mapSheet) = .ok game := by
  have hboard : ∀ estates', estates'.Perm estates → ∀ game, SetsUp estates' places game →
      SetsUp estates places game := by
    intro estates' hperm game hgame
    refine ⟨hgame.perm.trans hperm, hgame.ordered, ?_⟩
    rw [hgame.board, List.flatMap_def, List.flatMap_def, hfits.infos_perm hperm]
  have hgame : SetsUp estates places
      ⟨sortedBy mapIncreaseOrder estates, places.flatMap (MapPlace.infos estates)⟩ :=
    ⟨perm_sortedBy mapIncreaseOrder estates, pairwise_mapIncreaseOrder hfits.nodup, rfl⟩
  refine ⟨_, hgame, fun estates' deedSheet mapSheet hperm hdeed hmap => ?_⟩
  have hne : estates' ≠ [] := fun hnil => hestates (List.nil_perm.mp (hnil ▸ hperm))
  obtain ⟨game, hstart, hset⟩ := initialGame_setsUp hne
    (fun estate hestate => hplain estate (hperm.mem_iff.mp hestate)) hplaces (hfits.perm hperm)
    hdeed hmap
  rw [hstart, (hboard estates' hperm game hset).unique hgame]

/-- Two deeds, the second written first, and the columns from the last to the first. -/
theorem initialGame_rendered_two :
    let estates : List Estate := [onlyEstate, { onlyEstate with id := 2, mapLoc := 3 }]
    let places : List MapPlace :=
      [⟨0, .STARTLINE⟩, ⟨1, .ESTATE⟩, ⟨2, .CHANCE⟩, ⟨3, .ESTATE⟩, ⟨4, .SUPERTAX⟩]
    ∃ game, SetsUp estates places game ∧
      initialGame
        (some (writeSheet DeedColumn.all.reverse DeedColumn.name Estate.write estates.reverse))
        (some (writeSheet MapColumn.all.reverse MapColumn.name MapPlace.write places)) =
          .ok game := by
  intro estates places
  obtain ⟨game, hgame, hstart⟩ := @initialGame_rendered estates places (List.cons_ne_nil _ _)
    (by
      intro estate hestate
      have hcases : estate = onlyEstate ∨ estate = { onlyEstate with id := 2, mapLoc := 3 } := by
        simpa [estates] using hestate
      rcases hcases with rfl | rfl <;>
        exact ⟨isField_of_all (by decide), isField_of_all (by decide), isField_of_all (by decide)⟩)
    (List.cons_ne_nil _ _) ⟨by decide, by decide⟩
  exact ⟨game, hgame, hstart _ _ _ (List.reverse_perm estates)
    (renders_write (List.reverse_perm _) _) (rendersMap_write (List.reverse_perm _) places)⟩

end Sheets

end IosGame
