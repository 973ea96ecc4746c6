import IosGame.Loop
import IosGame.System
import IosGame.Rooms.Room

/-!
# IosGame.Rooms.Slots

The four slots of the waiting page, filled by completions that arrive in any order.

Every snapshot of the room clears the slots and asks for its members one by one; the client
itself goes to slot 0, the others to the next slot that is free.  A member asked for by an
earlier snapshot may still arrive and takes a slot too.  `slots_show_members` is about the
runs in which only the client itself arrives so late.
-/

namespace IosGame

namespace Rooms

/-! ## the page -/

/-- The arrays of the page, with any type of images. -/
structure WaitPage (Image : Type) where
  players : List Player
  usersImages : List (Option Image)
  showPlayers : List (Option Player)
  showUsersImages : List (Option Image)

variable {Image : Type}

/-- How `fetchGameRoomMembers` begins. -/
def WaitPage.cleared : WaitPage Image where
  players := []
  usersImages := []
  showPlayers := [none, none, none, none]
  showUsersImages := [none, none, none, none]

/-- Where a completion shows the player, and the page with the player noted if that is not
the client itself. -/
def WaitPage.note (client : String) (oPlayer : Player) (img : Option Image)
    (page : WaitPage Image) : Nat × WaitPage Image :=
  if some client = oPlayer.id then
    (0, page)
  else
    let page := { page with
      players := page.players ++ [oPlayer]
      usersImages := page.usersImages ++ [img] }
    let loc := page.players.length - 1
    (loc + 1, page)

/-- The completion of one member. -/
def WaitPage.completion (client : String) (oPlayer : Player) (img : Option Image)
    (page : WaitPage Image) : Except Trap (WaitPage Image) := do
  let (index, page) := page.note client oPlayer img
  let showPlayers ← setAt page.showPlayers index (some oPlayer)
  let showUsersImages ← setAt page.showUsersImages index img
  pure { page with showPlayers := showPlayers, showUsersImages := showUsersImages }

/-- A member asked for, and whether a snapshot has cleared the slots since. -/
structure Fetch where
  playerID : String
  stale : Bool
  deriving DecidableEq, Repr

/-- The page, the players of the last snapshot, and the members still to arrive.  `late`
counts the others who arrived since for an earlier snapshot. -/
structure WaitRoom (Image : Type) where
  page : WaitPage Image
  playerIDs : List String
  fetches : List Fetch
  late : Nat

/-- The listener on a snapshot of the room. -/
def WaitRoom.snapshot (playerIDs : List String) (fetches : List Fetch) : WaitRoom Image where
  page := .cleared
  playerIDs := playerIDs
  fetches := fetches.map (fun fetch => { fetch with stale := true }) ++
    playerIDs.map fun playerID => { playerID := playerID, stale := false }
  late := 0

/-- The members of a room the client is in. -/
structure Members (client : String) (playerIDs : List String) : Prop where
  self_mem : client ∈ playerIDs
  nodup : playerIDs.Nodup
  le_four : playerIDs.length ≤ 4

inductive Delivery (Image : Type) where
  | snapshot (playerIDs : List String)
  | completion (fetch : Fetch) (oPlayer : Player) (img : Option Image)

/-- What is delivered to the page: a snapshot, or a member asked for, with or without an
image. -/
inductive Delivers (client : String) :
    WaitRoom Image → Delivery Image → WaitRoom Image → Prop where
  | snapshot {s : WaitRoom Image} {playerIDs : List String} (h : Members client playerIDs) :
      Delivers client s (.snapshot playerIDs) (.snapshot playerIDs s.fetches)
  | completion {s : WaitRoom Image} {i : Nat} {fetch : Fetch} {oPlayer : Player}
      {img : Option Image} {page : WaitPage Image} (hfetch : s.fetches[i]? = some fetch)
      (hplayer : oPlayer.id = some fetch.playerID)
      (hpage : s.page.completion client oPlayer img = .ok page) :
      Delivers client s (.completion fetch oPlayer img)
        { s with
          page := page
          fetches := s.fetches.eraseIdx i
          late := if fetch.stale && fetch.playerID ≠ client then s.late + 1 else s.late }

/-- The page of the client, from the first snapshot on. -/
def waiting (Image : Type) (client : String) : System (WaitRoom Image) (Delivery Image) where
  init s := ∃ playerIDs, Members client playerIDs ∧ s = .snapshot playerIDs []
  step := Delivers client

/-- Nobody but the client itself arrives for an earlier snapshot. -/
def Timely (client : String) (_ : WaitRoom Image) (delivery : Delivery Image)
    (_ : WaitRoom Image) : Prop :=
  ∀ fetch oPlayer img, delivery = .completion fetch oPlayer img → fetch.stale = true →
    fetch.playerID = client

/-- The slots hold the members of the last snapshot, each once, the client in slot 0. -/
def ShowsMembers (client : String) (s : WaitRoom Image) : Prop :=
  ((s.page.showPlayers.filterMap id).map Player.id).Perm (s.playerIDs.map some) ∧
    ∃ player, s.page.showPlayers[0]? = some (some player) ∧ player.id = some client

variable {client : String} {s s' : WaitRoom Image} {delivery : Delivery Image}

/-! ## the members still to arrive -/

/-- The others whom the last snapshot asked for and who have not arrived. -/
def others (client : String) (fetches : List Fetch) : List String :=
  (fetches.filter fun fetch => !fetch.stale && decide (fetch.playerID ≠ client)).map Fetch.playerID

theorem others_cons (fetch : Fetch) (fetches : List Fetch) :
    others client (fetch :: fetches) =
      if fetch.stale = false ∧ fetch.playerID ≠ client then
        fetch.playerID :: others client fetches
      else others client fetches := by
  obtain ⟨playerID, stale⟩ := fetch
  cases stale with
  | true => simp [others]
  | false =>
      by_cases hself : playerID = client
      · simp [others, hself]
      · simp [others, hself]

theorem others_perm {fetches fetches' : List Fetch} (h : fetches.Perm fetches') :
    (others client fetches).Perm (others client fetches') :=
  (h.filter _).map _

theorem others_snapshot (playerIDs : List String) (fetches : List Fetch) :
    others client (WaitRoom.snapshot playerIDs fetches : WaitRoom Image).fetches =
      playerIDs.filter fun playerID => playerID ≠ client := by
  simp [WaitRoom.snapshot, others, List.filter_map, Function.comp_def]

theorem perm_arrived {fetches : List Fetch} {i : Nat} {fetch : Fetch}
    (h : fetches[i]? = some fetch) : fetches.Perm (fetch :: fetches.eraseIdx i) := by
  obtain ⟨hi, rfl⟩ := List.getElem?_eq_some_iff.mp h
  exact (List.getElem_cons_eraseIdx_perm hi).symm

/-! ## a completion -/

section Completion

variable {page page' : WaitPage Image} {oPlayer : Player} {img : Option Image}

theorem note_self (h : some client = oPlayer.id) : page.note client oPlayer img = (0, page) := by
  rw [WaitPage.note, if_pos h]

theorem note_other (h : some client ≠ oPlayer.id) :
    page.note client oPlayer img = (page.players.length + 1, { page with
      players := page.players ++ [oPlayer]
      usersImages := page.usersImages ++ [img] }) := by
  rw [WaitPage.note, if_neg h]
  simp

theorem completion_eq_ok : page.completion client oPlayer img = .ok page' ↔
    (page.note client oPlayer img).1 < page.showPlayers.length ∧
      (page.note client oPlayer img).1 < page.showUsersImages.length ∧
      page' = { (page.note client oPlayer img).2 with
        showPlayers := page.showPlayers.set (page.note client oPlayer img).1 (some oPlayer)
        showUsersImages := page.showUsersImages.set (page.note client oPlayer img).1 img } := by
  have hplayers : (page.note client oPlayer img).2.showPlayers = page.showPlayers := by
    unfold WaitPage.note; split <;> rfl
  have himages : (page.note client oPlayer img).2.showUsersImages = page.showUsersImages := by
    unfold WaitPage.note; split <;> rfl
  simp only [WaitPage.completion, setAt, hplayers, himages]
  by_cases hi : (page.note client oPlayer img).1 < page.showPlayers.length
  · by_cases hj : (page.note client oPlayer img).1 < page.showUsersImages.length
    · simp [hi, hj, eq_comm]
    · simp [hi, hj]
  · simp [hi]

end Completion

/-! ## the slots -/

/-- The slots hold the client, once it has arrived, and the others noted. -/
structure Slotted (client : String) (s : WaitRoom Image) : Prop where
  slots : ∃ first, s.page.showPlayers =
      first :: (s.page.players.map some ++ List.replicate (3 - s.page.players.length) none) ∧
    (∀ player, first = some player → player.id = some client) ∧
    (first = none → ⟨client, false⟩ ∈ s.fetches)
  le_three : s.page.players.length ≤ 3
  images : s.page.showUsersImages.length = 4

theorem Slotted.length_showPlayers (h : Slotted client s) : s.page.showPlayers.length = 4 := by
  obtain ⟨first, hslots, -⟩ := h.slots
  have := h.le_three
  simp only [hslots, List.length_cons, List.length_append, List.length_map, List.length_replicate]
  omega

/-- Of the members of the last snapshot, the others are noted or to arrive; those noted
besides them are late. -/
structure Counted (client : String) (s : WaitRoom Image) : Prop where
  members : Members client s.playerIDs
  count : s.page.players.length + (others client s.fetches).length + 1 =
    s.playerIDs.length + s.late
  prompt : s.late = 0 →
    (s.page.players.map Player.id ++ (others client s.fetches).map some).Perm
      ((s.playerIDs.filter fun playerID => playerID ≠ client).map some)

theorem Members.filter_eq_erase {playerIDs : List String} (h : Members client playerIDs) :
    (playerIDs.filter fun playerID => playerID ≠ client) = playerIDs.erase client := by
  rw [h.nodup.erase_eq_filter]
  refine List.filter_congr fun playerID _ => ?_
  rw [Bool.eq_iff_iff]
  simp

theorem Members.length_filter {playerIDs : List String} (h : Members client playerIDs) :
    (playerIDs.filter fun playerID => playerID ≠ client).length + 1 = playerIDs.length := by
  have hpos := List.length_pos_of_mem h.self_mem
  rw [h.filter_eq_erase, List.length_erase_of_mem h.self_mem]
  omega

theorem slotted_snapshot {playerIDs : List String} (h : Members client playerIDs)
    (fetches : List Fetch) :
    Slotted client (WaitRoom.snapshot playerIDs fetches : WaitRoom Image) := by
  refine ⟨⟨none, rfl, nofun, fun _ => ?_⟩, Nat.zero_le _, rfl⟩
  refine List.mem_append_right _ (List.mem_map.mpr ⟨client, h.self_mem, rfl⟩)

theorem counted_snapshot {playerIDs : List String} (h : Members client playerIDs)
    (fetches : List Fetch) :
    Counted client (WaitRoom.snapshot playerIDs fetches : WaitRoom Image) := by
  have hlen := h.length_filter
  refine ⟨h, ?_, fun _ => ?_⟩
  · rw [others_snapshot]
    simpa [WaitRoom.snapshot, WaitPage.cleared] using hlen
  · rw [others_snapshot]
    exact List.Perm.refl _

theorem set_slot {α : Type} (l : List α) (n : Nat) (x : α) :
    (l.map some ++ List.replicate (n + 1) none).set l.length (some x) =
      (l ++ [x]).map some ++ List.replicate n none := by
  simp [List.replicate_succ]

section Arrival

variable {i : Nat} {fetch : Fetch} {oPlayer : Player} {img : Option Image} {page : WaitPage Image}

theorem Slotted.completion (h : Slotted client s) (hfetch : s.fetches[i]? = some fetch)
    (hplayer : oPlayer.id = some fetch.playerID)
    (hpage : s.page.completion client oPlayer img = .ok page) (late : Nat) :
    Slotted client { s with page := page, fetches := s.fetches.eraseIdx i, late := late } := by
  obtain ⟨hlt, -, rfl⟩ := completion_eq_ok.mp hpage
  obtain ⟨first, hslots, hfirst, hnone⟩ := h.slots
  by_cases hself : some client = oPlayer.id
  · rw [note_self hself]
    refine ⟨⟨some oPlayer, ?_, fun player hp => ?_, nofun⟩, h.le_three, ?_⟩
    · simp [hslots]
    · cases hp
      exact hself.symm
    · simpa using h.images
  · rw [note_other hself] at hlt ⊢
    have hlen : s.page.players.length < 3 := by
      rw [h.length_showPlayers] at hlt
      simp only at hlt
      omega
    obtain ⟨n, hn⟩ : ∃ n, 3 - s.page.players.length = n + 1 :=
      ⟨3 - s.page.players.length - 1, by omega⟩
    refine ⟨⟨first, ?_, hfirst, fun hf => ?_⟩, ?_, ?_⟩
    · have hn' : 3 - (s.page.players ++ [oPlayer]).length = n := by
        simp only [List.length_append, List.length_singleton]
        omega
      simp only [hslots, hn, hn', List.set_cons_succ, set_slot]
    · -- the client is still to arrive
      have hne : fetch ≠ ⟨client, false⟩ := by
        rintro rfl
        exact hself hplayer.symm
      rcases List.mem_cons.mp ((perm_arrived hfetch).mem_iff.mp (hnone hf)) with heq | hmem
      · exact absurd heq.symm hne
      · exact hmem
    · simp only [List.length_append, List.length_singleton]
      omega
    · simpa using h.images

theorem Counted.completion (h : Counted client s) (hfetch : s.fetches[i]? = some fetch)
    (hplayer : oPlayer.id = some fetch.playerID)
    (hpage : s.page.completion client oPlayer img = .ok page) :
    Counted client { s with
      page := page
      fetches := s.fetches.eraseIdx i
      late := if fetch.stale && fetch.playerID ≠ client then s.late + 1 else s.late } := by
  obtain ⟨-, -, rfl⟩ := completion_eq_ok.mp hpage
  have hperm : (others client s.fetches).Perm (others client (fetch :: s.fetches.eraseIdx i)) :=
    others_perm (perm_arrived hfetch)
  rw [others_cons] at hperm
  have hcount := h.count
  by_cases hself : fetch.playerID = client
  · -- the client itself: nothing is noted
    rw [note_self (by rw [hplayer, hself])]
    simp only [hself, ne_eq, not_true_eq_false, and_false, ↓reduceIte] at hperm
    refine ⟨h.members, ?_, fun hlate => ?_⟩
    · simpa [hself, hperm.length_eq] using hcount
    · simp only [hself, ne_eq, not_true_eq_false, decide_false, Bool.and_false,
        Bool.false_eq_true, ↓reduceIte] at hlate
      exact ((hperm.map some).symm.append_left _).trans (h.prompt hlate)
  · have hother : some client ≠ oPlayer.id := by
      rw [hplayer]
      exact fun heq => hself (Option.some.inj heq).symm
    rw [note_other hother]
    cases hstale : fetch.stale with
    | true =>
        simp only [hstale, Bool.true_eq_false, false_and, ↓reduceIte] at hperm
        have hlen := hperm.length_eq
        refine ⟨h.members, ?_, fun hlate => ?_⟩
        · simp [hself]
          omega
        · simp [hself] at hlate
    | false =>
        simp only [hstale, ne_eq, hself, not_false_eq_true, and_self, ↓reduceIte] at hperm
        have hlen := hperm.length_eq
        refine ⟨h.members, ?_, fun hlate => ?_⟩
        · simp only [List.length_cons] at hlen
          simp
          omega
        · have hprompt := h.prompt (by simpa using hlate)
          rw [List.map_append, List.map_singleton, hplayer, List.append_assoc,
            List.singleton_append, ← List.map_cons]
          exact ((hperm.map some).symm.append_left _).trans hprompt

end Arrival

/-! ## every run -/

theorem slotted_counted (h : (waiting Image client).Reach s) :
    Slotted client s ∧ Counted client s := by
  refine h.invariant (I := fun s => Slotted client s ∧ Counted client s) (fun s hs => ?_)
    fun s delivery s' _ ih hstep => ?_
  · obtain ⟨playerIDs, hmembers, rfl⟩ := hs
    exact ⟨slotted_snapshot hmembers _, counted_snapshot hmembers _⟩
  · cases hstep with
    | snapshot hmembers => exact ⟨slotted_snapshot hmembers _, counted_snapshot hmembers _⟩
    | completion hfetch hplayer hpage =>
        exact ⟨ih.1.completion hfetch hplayer hpage _, ih.2.completion hfetch hplayer hpage⟩

theorem reach_timely_completion (h : ((waiting Image client).only (Timely client)).Reach s)
    (i : Nat) (oPlayer : Player) (img : Option Image) {fetch : Fetch} {page : WaitPage Image}
    (hfetch : s.fetches[i]? = some fetch) (hplayer : oPlayer.id = some fetch.playerID)
    (hpage : s.page.completion client oPlayer img = .ok page)
    (htimely : fetch.stale = true → fetch.playerID = client) :
    ((waiting Image client).only (Timely client)).Reach { s with
      page := page
      fetches := s.fetches.eraseIdx i
      late := if fetch.stale && fetch.playerID ≠ client then s.late + 1 else s.late } := by
  refine h.step ⟨Delivers.completion hfetch hplayer hpage, fun fetch' oPlayer' img' heq => ?_⟩
  cases heq
  exact htimely

theorem reach_timely_snapshot (h : ((waiting Image client).only (Timely client)).Reach s)
    {playerIDs : List String} (hmembers : Members client playerIDs) :
    ((waiting Image client).only (Timely client)).Reach (.snapshot playerIDs s.fetches) := by
  refine h.step ⟨Delivers.snapshot hmembers, fun fetch oPlayer img heq => ?_⟩
  cases heq

theorem late_eq_zero (h : ((waiting Image client).only (Timely client)).Reach s) :
    s.late = 0 := by
  refine h.invariant (I := fun s => s.late = 0) (fun s hs => ?_) fun s delivery s' _ ih hstep => ?_
  · obtain ⟨playerIDs, -, rfl⟩ := hs
    rfl
  · obtain ⟨hdelivers, htimely⟩ := hstep
    cases hdelivers with
    | snapshot => rfl
    | @completion i fetch oPlayer img page hfetch hplayer hpage =>
        have hself := htimely fetch oPlayer img rfl
        cases hstale : fetch.stale with
        | true => simp [hself hstale, ih]
        | false => simp [ih]

/-- A completion finds its slot, unless a late one came before it. -/
theorem completion_ok (hslotted : Slotted client s) (hcounted : Counted client s)
    (hlate : s.late = 0) {i : Nat} {fetch : Fetch} {oPlayer : Player} (img : Option Image)
    (hfetch : s.fetches[i]? = some fetch) (hplayer : oPlayer.id = some fetch.playerID)
    (htimely : fetch.stale = true → fetch.playerID = client) :
    (s.page.note client oPlayer img).1 ≤ 3 ∧
      ∃ page, s.page.completion client oPlayer img = .ok page := by
  have hlen := hslotted.length_showPlayers
  have hindex : (s.page.note client oPlayer img).1 ≤ 3 := by
    by_cases hself : fetch.playerID = client
    · rw [note_self (by rw [hplayer, hself])]
      exact Nat.zero_le _
    · have hother : some client ≠ oPlayer.id := by
        rw [hplayer]
        exact fun heq => hself (Option.some.inj heq).symm
      have hfresh : fetch.stale = false := by
        cases hstale : fetch.stale with
        | true => exact absurd (htimely hstale) hself
        | false => rfl
      -- one of the others is still to arrive: this one
      have hpos : 0 < (others client s.fetches).length := by
        refine List.length_pos_of_mem (List.mem_map.mpr ⟨fetch, ?_, rfl⟩)
        exact List.mem_filter.mpr ⟨List.mem_of_getElem? hfetch, by simp [hfresh, hself]⟩
      have hcount := hcounted.count
      have hfour := hcounted.members.le_four
      rw [note_other hother]
      show s.page.players.length + 1 ≤ 3
      omega
  refine ⟨hindex, _, completion_eq_ok.mpr ⟨?_, ?_, rfl⟩⟩
  · omega
  · have := hslotted.images
    omega

/-- When all have arrived, the slots are right exactly if nobody was late. -/
theorem showsMembers_iff (hslotted : Slotted client s) (hcounted : Counted client s)
    (hsettled : s.fetches = []) : ShowsMembers client s ↔ s.late = 0 := by
  obtain ⟨first, hslots, hfirst, hnone⟩ := hslotted.slots
  have hothers : others client s.fetches = [] := by rw [hsettled]; rfl
  obtain ⟨player, rfl⟩ : ∃ player, first = some player := by
    cases first with
    | none => simp [hsettled] at hnone
    | some player => exact ⟨player, rfl⟩
  have hids : (s.page.showPlayers.filterMap id).map Player.id =
      some client :: s.page.players.map Player.id := by
    simp [hslots, hfirst player rfl, List.filterMap_append, List.filterMap_map]
  have hcount := hcounted.count
  rw [hothers, List.length_nil] at hcount
  constructor
  · rintro ⟨hperm, -⟩
    have hlen := hperm.length_eq
    rw [hids] at hlen
    simp only [List.length_cons, List.length_map] at hlen
    omega
  · intro hlate
    refine ⟨?_, player, by rw [hslots]; rfl, hfirst player rfl⟩
    have hprompt := hcounted.prompt hlate
    rw [hothers, List.map_nil, List.append_nil] at hprompt
    have hmembers : (client :: s.playerIDs.filter fun playerID => playerID ≠ client).Perm
        s.playerIDs := by
      have herase := (List.perm_cons_erase hcounted.members.self_mem).symm
      rwa [hcounted.members.filter_eq_erase]
    rw [hids]
    exact (hprompt.cons _).trans (hmembers.map some)

/-- **Slots**: where nobody but the client itself arrives for an earlier snapshot, every
completion finds one of the four slots, and when all have arrived the slots hold the
members of the last snapshot, each once, the client in slot 0.  Once somebody else has
arrived late for the last snapshot, they never do. -/
theorem slots_show_members :
    (∀ s : WaitRoom Image, ((waiting Image client).only (Timely client)).Reach s →
      (∀ (i : Nat) (fetch : Fetch) (oPlayer : Player) (img : Option Image),
        s.fetches[i]? = some fetch → oPlayer.id = some fetch.playerID →
        (fetch.stale = true → fetch.playerID = client) →
          (s.page.note client oPlayer img).1 ≤ 3 ∧
            ∃ page, s.page.completion client oPlayer img = .ok page) ∧
        (s.fetches = [] → ShowsMembers client s)) ∧
      ∀ s : WaitRoom Image, (waiting Image client).Reach s → s.fetches = [] → 0 < s.late →
        ¬ ShowsMembers client s := by
  constructor
  · intro s h
    obtain ⟨hslotted, hcounted⟩ := slotted_counted h.of_only
    have hlate := late_eq_zero h
    exact ⟨fun i fetch oPlayer img => completion_ok hslotted hcounted hlate img,
      fun hsettled => (showsMembers_iff hslotted hcounted hsettled).mpr hlate⟩
  · intro s h hsettled hlate hshows
    obtain ⟨hslotted, hcounted⟩ := slotted_counted h
    have := (showsMembers_iff hslotted hcounted hsettled).mp hshows
    omega

/-- C joins the room of A and B when B has arrived and A has not: A arrives late for the first
snapshot, then C, A and B for the second one. -/
theorem slots_show_members_late_self :
    ∃ s s' : WaitRoom Unit, ((waiting Unit "A").only (Timely "A")).Reach s ∧
      s.fetches = [⟨"B", false⟩] ∧
      (s.page.note "A" ⟨some "B", "2", none⟩ none).1 ≤ 3 ∧
      ((waiting Unit "A").only (Timely "A")).Reach s' ∧ s'.playerIDs = ["A", "B", "C"] ∧
      s'.page.showPlayers.map (Option.bind · Player.id) = [some "A", some "C", some "B", none] ∧
      ShowsMembers "A" s' := by
  let a : Player := ⟨some "A", "1", none⟩
  let b : Player := ⟨some "B", "2", none⟩
  let c : Player := ⟨some "C", "3", none⟩
  have htwo : Members "A" ["A", "B"] := ⟨by decide, by decide, by decide⟩
  have hthree : Members "A" ["A", "B", "C"] := ⟨by decide, by decide, by decide⟩
  have hfirst : ((waiting Unit "A").only (Timely "A")).Reach (.snapshot ["A", "B"] []) :=
    .init ⟨_, htwo, rfl⟩
  have hpromptB := reach_timely_completion hfirst 1 b none rfl rfl rfl (by decide)
  have hsecond := reach_timely_snapshot hpromptB hthree
  have hlateA := reach_timely_completion hsecond 0 a none rfl rfl rfl fun _ => rfl
  have hC := reach_timely_completion hlateA 2 c none rfl rfl rfl (by decide)
  have hA := reach_timely_completion hC 0 a none rfl rfl rfl (by decide)
  have hB := reach_timely_completion hA 0 b none rfl rfl rfl (by decide)
  have hslot := (slots_show_members.1 _ hA).1 0 ⟨"B", false⟩ b none rfl rfl (by decide)
  exact ⟨_, _, hA, rfl, hslot.1, hB, rfl, by decide, (slots_show_members.1 _ hB).2 rfl⟩

/-! ## late completions -/

theorem reach_completion (h : (waiting Image client).Reach s) (i : Nat) (oPlayer : Player)
    (img : Option Image) {fetch : Fetch} {page : WaitPage Image}
    (hfetch : s.fetches[i]? = some fetch) (hplayer : oPlayer.id = some fetch.playerID)
    (hpage : s.page.completion client oPlayer img = .ok page) :
    (waiting Image client).Reach { s with
      page := page
      fetches := s.fetches.eraseIdx i
      late := if fetch.stale && fetch.playerID ≠ client then s.late + 1 else s.late } :=
  h.step (Delivers.completion hfetch hplayer hpage)

theorem reach_snapshot (h : (waiting Image client).Reach s) {playerIDs : List String}
    (hmembers : Members client playerIDs) :
    (waiting Image client).Reach (.snapshot playerIDs s.fetches) :=
  h.step (Delivers.snapshot hmembers)

/-- The room of A and B changes before B has arrived: B takes two slots. -/
theorem slots_show_members_twice :
    ∃ s : WaitRoom Unit, (waiting Unit "A").Reach s ∧ s.fetches = [] ∧
      s.page.showPlayers.map (Option.bind · Player.id) = [some "A", some "B", some "B", none] ∧
      ¬ ShowsMembers "A" s := by
  have hmembers : Members "A" ["A", "B"] := ⟨by decide, by decide, by decide⟩
  let a : Player := ⟨some "A", "1", none⟩
  let b : Player := ⟨some "B", "1", none⟩
  have hfirst : (waiting Unit "A").Reach (.snapshot ["A", "B"] []) := .init ⟨_, hmembers, rfl⟩
  have hsecond := reach_snapshot hfirst hmembers
  have hlateA := reach_completion hsecond 0 a none rfl rfl rfl
  have hlateB := reach_completion hlateA 0 b none rfl rfl rfl
  have hA := reach_completion hlateB 0 a none rfl rfl rfl
  have hB := reach_completion hA 0 b none rfl rfl rfl
  refine ⟨_, hB, rfl, by decide, fun hshows => ?_⟩
  have hlen := hshows.1.length_eq
  revert hlen
  decide

end Rooms

end IosGame
