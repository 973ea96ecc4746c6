import IosGame.Sheets.Malformed

/-!
# IosGame.Sheets.Board

The board that a map sheet gives: the places follow the rows.

The row of an estate looks for it by its place and takes the first of all estates when it is
not there; the rows of chances and of community chests are only printed, so that the places
of the rows after them move up.  `board_follows_sheet` says on which sheets nothing of this
happens.
-/

namespace IosGame

namespace Sheets

/-! ## places and rows -/

/-- The status of a row, if it is the raw value of one. -/
def statusOf (cols : MapColumn → Nat) (row : List Text) : Option MapType :=
  row[cols .status]?.bind MapType.ofRawValue

/-- The place that a row names, if it is a number. -/
def locOf (cols : MapColumn → Nat) (row : List Text) : Option Int64 :=
  row[cols .mapLoc]?.bind intOf

/-- The place of the board is that of the row: it has its status, and an estate the one of
its place. -/
structure IsPlace (cols : MapColumn → Nat) (row : List Text) (info : MapInfo) : Prop where
  status : statusOf cols row = some info.status
  estate : info.status = .ESTATE →
    ∃ estate, info.estate = some estate ∧ locOf cols row = some estate.mapLoc

/-- The sheet is not read, or gives a place for each of its rows, in their order. -/
def FollowsSheet (estates : List Estate) (text : Text) : Prop :=
  mapInfoOutput estates (some text) = .error .returnNil ∨
    ∃ infos, mapInfoOutput estates (some text) = .ok infos ∧
      List.Forall₂ (IsPlace (mapCols (header text))) (dataRows text) infos

/-- The row has the status of a place, and an estate is there for its place. -/
def HasPlace (estates : List Estate) (cols : MapColumn → Nat) (row : List Text) : Prop :=
  ∃ status, statusOf cols row = some status ∧ status ≠ .CHANCE ∧ status ≠ .COMMUNITY ∧
    (status = .ESTATE → ∃ estate ∈ estates, locOf cols row = some estate.mapLoc)

/-! ## one place a row -/

section OneEach

variable {α β : Type} {f : α → Except Stop (List β)} {R : α → β → Prop}

/-- What is returned has one element or none. -/
def AtMostOne (result : Except Stop (List β)) : Prop := ∀ bs, result = .ok bs → bs.length ≤ 1

theorem atMostOne_pure {bs : List β} (h : bs.length ≤ 1) :
    AtMostOne (pure bs : Except Stop (List β)) := by
  intro bs' heq
  cases heq
  exact h

theorem atMostOne_bind {result : Except Stop α} (h : ∀ a, AtMostOne (f a)) :
    AtMostOne (result >>= f) := by
  intro bs hbs
  obtain ⟨a, -, ha⟩ := bind_eq_ok.mp hbs
  exact h a bs ha

theorem length_flatten_mapM (hone : ∀ a, AtMostOne (f a)) {as : List α}
    {parts : List (List β)} (h : as.mapM f = .ok parts) : parts.flatten.length ≤ as.length := by
  induction as generalizing parts with
  | nil =>
      cases h
      simp
  | cons a as ih =>
      rw [List.mapM_cons] at h
      obtain ⟨bs, hbs, h⟩ := bind_eq_ok.mp h
      obtain ⟨parts', hparts, h⟩ := bind_eq_ok.mp h
      cases h
      have hhead := hone a bs hbs
      have htail := ih hparts
      rw [List.flatten_cons, List.length_append, List.length_cons]
      omega

/-- Where each element gives at most one, all of them follow exactly when each gives its
own. -/
theorem forall₂_flatten_mapM (hone : ∀ a, AtMostOne (f a)) (as : List α) :
    (∃ parts, as.mapM f = .ok parts ∧ List.Forall₂ R as parts.flatten) ↔
      ∀ a ∈ as, ∃ b, f a = .ok [b] ∧ R a b := by
  induction as with
  | nil => exact iff_of_true ⟨[], rfl, .nil⟩ (by simp)
  | cons a as ih =>
      rw [List.forall_mem_cons, ← ih, List.mapM_cons]
      constructor
      · rintro ⟨parts, hparts, hfollow⟩
        obtain ⟨bs, hbs, hparts⟩ := bind_eq_ok.mp hparts
        obtain ⟨parts', hparts', hparts⟩ := bind_eq_ok.mp hparts
        cases hparts
        rw [List.flatten_cons] at hfollow
        have hlen := hfollow.length_eq
        have hhead := hone a bs hbs
        have htail := length_flatten_mapM hone hparts'
        rw [List.length_cons, List.length_append] at hlen
        obtain ⟨b, rfl⟩ := List.length_eq_one_iff.mp (show bs.length = 1 by omega)
        obtain ⟨hb, hrest⟩ := List.forall₂_cons.mp hfollow
        exact ⟨⟨b, hbs, hb⟩, parts', hparts', hrest⟩
      · rintro ⟨⟨b, hb, hab⟩, parts, hparts, hfollow⟩
        refine ⟨[b] :: parts, ?_, .cons hab hfollow⟩
        rw [hb, ok_bind, hparts, ok_bind]
        rfl

end OneEach

/-! ## a row -/

section Rows

variable {estates : List Estate} {cols : MapColumn → Nat} {row : List Text}

/-- A row adds a place or nothing. -/
theorem atMostOne_mapRow (estates : List Estate) (cols : MapColumn → Nat) (row : List Text) :
    AtMostOne (mapRow estates cols row) := by
  refine atMostOne_bind fun status => ?_
  split
  · exact atMostOne_pure (Nat.le_refl 1)
  · exact atMostOne_bind fun _ => atMostOne_pure (Nat.le_refl 1)
  · exact atMostOne_pure (Nat.le_refl 1)
  · exact atMostOne_pure (Nat.le_refl 1)
  · exact atMostOne_pure (Nat.le_refl 1)
  · exact atMostOne_pure (Nat.le_refl 1)
  · exact atMostOne_pure (Nat.le_refl 1)
  · exact atMostOne_bind fun _ => atMostOne_pure (Nat.zero_le 1)
  · exact atMostOne_bind fun _ => atMostOne_pure (Nat.zero_le 1)
  · exact atMostOne_pure (Nat.zero_le 1)

/-- The search finds an estate with the place, if there is one. -/
theorem searchEstate_finds {n : Int64} (hloc : locOf cols row = some n)
    (hestate : ∃ estate ∈ estates, estate.mapLoc = n) (tmp : Nat) :
    ∃ i estate, searchEstate row (cols .mapLoc) estates tmp = .ok (tmp + i) ∧
      estates[i]? = some estate ∧ estate.mapLoc = n := by
  obtain ⟨text, htext, hn⟩ := Option.bind_eq_some_iff.mp hloc
  induction estates generalizing tmp with
  | nil => simp at hestate
  | cons estate estates ih =>
      have heq : searchEstate row (cols .mapLoc) (estate :: estates) tmp =
          if estate.mapLoc = n then .ok tmp
          else searchEstate row (cols .mapLoc) estates (tmp + 1) := by
        simp only [searchEstate, cell, htext, unwrapInt, ok_bind, hn, pure_eq_ok]
      rw [heq]
      by_cases hfirst : estate.mapLoc = n
      · rw [if_pos hfirst]
        exact ⟨0, estate, rfl, rfl, hfirst⟩
      · rw [if_neg hfirst]
        obtain ⟨i, found, hsearch, hget, hfound⟩ := ih (by simpa [hfirst] using hestate) (tmp + 1)
        exact ⟨i + 1, found, by rw [hsearch]; congr 1; omega, by simpa using hget, hfound⟩

/-- The place of an estate shows one of the list. -/
theorem estateInfo_eq_ok {info : MapInfo} (h : estateInfo estates cols row = .ok info) :
    ∃ estate ∈ estates, info = .init estate.engName .ESTATE (some estate) [] := by
  obtain ⟨-, -, h⟩ := bind_eq_ok.mp h
  obtain ⟨i, -, h⟩ := bind_eq_ok.mp h
  split at h
  · next estate hget =>
    cases h
    exact ⟨estate, List.mem_of_getElem? hget, rfl⟩
  · cases h

/-- The row of an estate has the right one exactly when there is one for its place. -/
theorem estateInfo_place (hstatus : statusOf cols row = some .ESTATE) :
    (∃ info, estateInfo estates cols row = .ok info ∧ IsPlace cols row info) ↔
      ∃ estate ∈ estates, locOf cols row = some estate.mapLoc := by
  constructor
  · rintro ⟨info, hinfo, hplace⟩
    obtain ⟨estate, hmem, rfl⟩ := estateInfo_eq_ok hinfo
    obtain ⟨found, hfound, hloc⟩ := hplace.estate rfl
    cases hfound
    exact ⟨estate, hmem, hloc⟩
  · rintro ⟨estate, hmem, hloc⟩
    obtain ⟨i, found, hsearch, hget, hfound⟩ := searchEstate_finds hloc ⟨estate, hmem, rfl⟩ 0
    have hpos := List.length_pos_of_mem hmem
    refine ⟨.init found.engName .ESTATE (some found) [], ?_, hstatus, fun _ =>
      ⟨found, rfl, hfound ▸ hloc⟩⟩
    rw [estateInfo, closedRange, if_pos (by omega), ok_bind, hsearch, ok_bind, Nat.zero_add, hget]
    rfl

/-- A status whose rows get a place as they are. -/
def MapType.Plain (type : MapType) : Prop :=
  type ≠ .CHANCE ∧ type ≠ .COMMUNITY ∧ type ≠ .ESTATE

instance (type : MapType) : Decidable type.Plain := inferInstanceAs (Decidable (_ ∧ _ ∧ _))

theorem isPlace_plain {type : MapType} {info : MapInfo} (hstatus : statusOf cols row = some type)
    (hinfo : info.status = type) (hplain : type.Plain) : IsPlace cols row info :=
  ⟨hinfo ▸ hstatus, fun h => absurd (hinfo.symm.trans h) hplain.2.2⟩

theorem hasPlace_iff {type : MapType} (hstatus : statusOf cols row = some type) :
    HasPlace estates cols row ↔ type ≠ .CHANCE ∧ type ≠ .COMMUNITY ∧
      (type = .ESTATE → ∃ estate ∈ estates, locOf cols row = some estate.mapLoc) := by
  simp only [HasPlace, hstatus, Option.some.injEq, exists_eq_left']

theorem hasPlace_plain {type : MapType} (hstatus : statusOf cols row = some type)
    (hplain : type.Plain) : HasPlace estates cols row :=
  (hasPlace_iff hstatus).mpr ⟨hplain.1, hplain.2.1, fun h => absurd h hplain.2.2⟩

/-- A row that is only printed has no place. -/
theorem printed_no_place (text : Except Stop Text) :
    ¬ ∃ info, (text >>= fun _ => pure []) = .ok [info] ∧ IsPlace cols row info := by
  rintro ⟨info, h, -⟩
  obtain ⟨-, -, h⟩ := bind_eq_ok.mp h
  cases h

/-- **A row** has its place exactly when its status has one and its estate is there. -/
theorem mapRow_place :
    (∃ info, mapRow estates cols row = .ok [info] ∧ IsPlace cols row info) ↔
      HasPlace estates cols row := by
  cases hstatus : statusOf cols row with
  | none =>
      refine iff_of_false ?_ ?_
      · rintro ⟨info, -, hplace⟩
        rw [hplace.status] at hstatus
        cases hstatus
      · rintro ⟨type, htype, -⟩
        rw [htype] at hstatus
        cases hstatus
  | some type =>
      obtain ⟨text, htext, htype⟩ := Option.bind_eq_some_iff.mp hstatus
      have hcell : cell row (cols .status) = .ok text := by rw [cell, htext]
      rw [mapRow, hcell, ok_bind, htype]
      cases type with
      | ESTATE =>
          rw [hasPlace_iff hstatus, and_iff_right (by decide), and_iff_right (by decide),
            forall_prop_of_true rfl, ← estateInfo_place hstatus]
          refine exists_congr fun info => and_congr_left fun _ => ?_
          cases estateInfo estates cols row <;> simp
      | CHANCE =>
          exact iff_of_false (printed_no_place _) fun h => ((hasPlace_iff hstatus).mp h).1 rfl
      | COMMUNITY =>
          exact iff_of_false (printed_no_place _) fun h => ((hasPlace_iff hstatus).mp h).2.1 rfl
      | STARTLINE =>
          exact iff_of_true ⟨_, rfl, isPlace_plain hstatus rfl (by decide)⟩
            (hasPlace_plain hstatus (by decide))
      | PARKING =>
          exact iff_of_true ⟨_, rfl, isPlace_plain hstatus rfl (by decide)⟩
            (hasPlace_plain hstatus (by decide))
      | INCOMETAX =>
          exact iff_of_true ⟨_, rfl, isPlace_plain hstatus rfl (by decide)⟩
            (hasPlace_plain hstatus (by decide))
      | SUPERTAX =>
          exact iff_of_true ⟨_, rfl, isPlace_plain hstatus rfl (by decide)⟩
            (hasPlace_plain hstatus (by decide))
      | JAIL =>
          exact iff_of_true ⟨_, rfl, isPlace_plain hstatus rfl (by decide)⟩
            (hasPlace_plain hstatus (by decide))
      | GOTOJAIL =>
          exact iff_of_true ⟨_, rfl, isPlace_plain hstatus rfl (by decide)⟩
            (hasPlace_plain hstatus (by decide))

/-- The places follow the rows exactly when each row has one. -/
theorem mapRows_follow (estates : List Estate) (cols : MapColumn → Nat)
    (rows : List (List Text)) :
    (∃ parts, rows.mapM (mapRow estates cols) = .ok parts ∧
      List.Forall₂ (IsPlace cols) rows parts.flatten) ↔
      ∀ row ∈ rows, HasPlace estates cols row := by
  rw [forall₂_flatten_mapM (atMostOne_mapRow estates cols)]
  simp only [mapRow_place]

end Rows

/-! ## the sheet -/

/-- **The board follows the sheet** exactly when a name in the first row is unknown, so that
nothing is read, or there are rows and each of them has a place: none is a chance or a
community chest, and each estate is on the list. -/
theorem board_follows_sheet (estates : List Estate) (text : Text) :
    FollowsSheet estates text ↔
      ¬ MapNames text ∨ dataRows text ≠ [] ∧
        ∀ row ∈ dataRows text, HasPlace estates (mapCols (header text)) row := by
  rw [FollowsSheet, mapInfoOutput_sheet]
  by_cases hnames : ∀ name ∈ header text, (MapColumn.ofName name).isSome
  · have hknown : ¬ ¬ MapNames text := not_not_intro hnames
    rw [if_pos hnames, or_iff_right hknown]
    by_cases hrows : dataRows text = []
    · rw [if_pos hrows]
      exact iff_of_false (by simp) fun h => h.1 hrows
    · rw [if_neg hrows, and_iff_right hrows, ← mapRows_follow]
      have hnil := notNil_mapRows estates (mapCols (header text)) (dataRows text)
      cases hparts : (dataRows text).mapM (mapRow estates (mapCols (header text))) with
      | ok parts => simp [Except.map]
      | error stop =>
          rw [hparts] at hnil
          refine iff_of_false ?_ (by simp)
          rintro (h | ⟨infos, h, -⟩)
          · exact hnil (by simpa [Except.map] using h)
          · cases h
  · rw [if_neg hnames]
    exact iff_of_true (.inl rfl) (.inl hnames)

/-- The one estate, at place 1. -/
def onlyEstate : Estate where
  id := 1
  engName := "A".toList
  chineseName := "A".toList
  mortgageValue := 0
  mapLoc := 1
  buyValue := 0
  rent_0 := 0
  rent_1 := 0
  rent_2 := 0
  rent_3 := 0
  rent_4 := 0
  rent_5 := 0
  costOfApartment := 0
  color := []

/-- A chance, and an estate that is not on the list: the board has one place for the two rows,
with the estate of another place. -/
theorem board_shifted :
    mapInfoOutput [onlyEstate] (some "mapLoc,status\n2,CHANCE\n3,ESTATE".toList) =
        .ok [.init "A".toList .ESTATE (some onlyEstate) []] ∧
      ¬ FollowsSheet [onlyEstate] "mapLoc,status\n2,CHANCE\n3,ESTATE".toList := by
  have hboard : mapInfoOutput [onlyEstate]
      (some "mapLoc,status\n2,CHANCE\n3,ESTATE".toList) =
        .ok [.init "A".toList .ESTATE (some onlyEstate) []] := by decide +kernel
  have hrows : (dataRows "mapLoc,status\n2,CHANCE\n3,ESTATE".toList).length = 2 := by
    decide +kernel
  refine ⟨hboard, ?_⟩
  rintro (hnil | ⟨infos, hinfos, hfollow⟩)
  · rw [hboard] at hnil
    cases hnil
  · rw [hboard] at hinfos
    cases hinfos
    have hlen := hfollow.length_eq
    rw [hrows] at hlen
    cases hlen

end Sheets

end IosGame
