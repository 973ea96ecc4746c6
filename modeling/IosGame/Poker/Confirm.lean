import IosGame.Poker.Accounts
import IosGame.Poker.Best
import IosGame.Poker.Parts

/-!
# IosGame.Poker.Confirm

The confirm button.  It asks `ComputerPoker` for a combination among the cards selected,
so a selection of several combinations may be put down in part.  Confirm plays the whole
selection or nothing exactly when the selection is one combination on which the
acceptance test completes, or when the action refuses each of its ranks
(`confirm_all_or_nothing_iff`).
-/

namespace IosGame

/-! ## what an action refuses -/

/-- The action does not take the combination. -/
def Refused (desk c : PokerClass) : Nat → Prop
  | 0 => ∀ card ∈ c.cards, card.isClubThree = false
  | 1 => False
  | 2 => paied c desk = .ok false
  | _ => True

theorem Refused.congr {desk c d : PokerClass} {action : Nat} (h : Refused desk c action)
    (hsame : SameClass c d) (hproper : Proper d.cards) : Refused desk d action := by
  unfold Refused at h ⊢
  split at h
  · exact fun card hcard => h card (hsame.cards.mem_iff.mpr hcard)
  · exact h
  · rw [← paied_congr hsame hproper]
    exact h
  · trivial

theorem SameClass.symm {c d : PokerClass} (h : SameClass c d) : SameClass d c :=
  ⟨h.cards.symm, h.classing.symm, h.level.symm⟩

theorem firstPaied_none {desk : PokerClass} {tmp : List PokerClass}
    (h : ∀ c ∈ tmp, paied c desk = .ok false) : firstPaied desk tmp = .ok .none := by
  induction tmp with
  | nil => rfl
  | cons c tmp ih =>
      obtain ⟨hc, htmp⟩ := List.forall_mem_cons.mp h
      rw [firstPaied, hc, ok_bind, if_neg Bool.false_ne_true]
      exact ih htmp

/-- Nothing is selected exactly when every combination is refused. -/
theorem selectClass_none_iff {out : List PokerClass} {desk : PokerClass} {action : Nat}
    (hne : out ≠ []) (hfull : ∀ c ∈ out, c.isEmpty = false) :
    selectClass (sortedBy PokerClass.lt out) desk action = .ok .none ↔
      ∀ c ∈ out, Refused desk c action := by
  have hsorted : ∀ c, c ∈ sortedBy PokerClass.lt out ↔ c ∈ out := fun _ => mem_sortedBy
  unfold selectClass Refused
  split
  · simp only [pure_eq_ok, Except.ok.injEq]
    obtain ⟨hnone, hall⟩ | ⟨hmem, hclub⟩ := mem_openingClass (sortedBy PokerClass.lt out)
    · exact ⟨fun _ c hc => hall c ((hsorted c).mpr hc), fun _ => hnone⟩
    · obtain ⟨card, hcard, h3⟩ := hclub
      have hmem := (hsorted _).mp hmem
      refine ⟨fun hnone => ?_, fun hall => ?_⟩
      · rw [hnone] at hcard
        cases hcard
      · rw [hall _ hmem card hcard] at h3
        cases h3
  · refine ⟨fun hlast => ?_, fun hall => ?_⟩
    · have hmem := (hsorted _).mp (List.mem_of_getLast? (lastOf_eq_ok.mp hlast))
      exact absurd (hfull _ hmem) (by decide)
    · obtain ⟨c, hc⟩ := List.exists_mem_of_ne_nil out hne
      exact (hall c hc).elim
  · refine ⟨fun hfirst c hc => ?_, fun hall => ?_⟩
    · obtain ⟨-, hall⟩ | ⟨pre, post, hsplit, -, -⟩ := firstPaied_exact hfirst
      · exact hall c ((hsorted c).mpr hc)
      · have hmem : PokerClass.none ∈ out := (hsorted _).mp (by rw [hsplit]; simp)
        exact absurd (hfull _ hmem) (by decide)
    · exact firstPaied_none fun c hc => hall c ((hsorted c).mp hc)
  · simp

/-- One combination alone is selected or refused, unless its acceptance test traps. -/
theorem selectClass_single (c desk : PokerClass) (action : Nat)
    (h : action = 2 → ∃ r, paied c desk = .ok r) :
    selectClass [c] desk action = .ok c ∨ selectClass [c] desk action = .ok .none := by
  unfold selectClass
  split
  · simp only [openingClass, List.find?_cons, List.find?_nil]
    split <;> simp
  · exact .inl rfl
  · obtain ⟨r, hr⟩ := h rfl
    rw [firstPaied, hr, ok_bind]
    cases r with
    | true => exact .inl rfl
    | false => exact .inr rfl
  · exact .inr rfl

/-! ## the confirm button -/

section Confirm

variable {st : GamePage} {c : PokerClass}

@[simp] theorem desk_userPlay (st : GamePage) (c : PokerClass) : (userPlay st c).desk.desk = c := by
  simp only [userPlay]
  split <;> rfl

@[simp] theorem userPreDeskCards_userPlay (st : GamePage) (c : PokerClass) :
    (userPlay st c).userPreDeskCards = removePlayed st.userPreDeskCards c.cards := by
  simp only [userPlay]
  split <;> rfl

theorem confirmPlay_eq {last : List Poker} (hne : st.userPreDeskCards ≠ [])
    (h : computerPoker st.userPreDeskCards st.desk.desk (callAct st) = .ok (c, last)) :
    confirmPlay st = .ok (if c.isEmpty then none else some (userPlay st c)) := by
  rw [confirmPlay, if_pos (List.length_pos_iff.mpr hne)]
  simp only [h, Except.mapError, ok_bind]
  split <;> rfl

/-- Hands, selection, desk, flags, turn and ranking are the same. -/
structure Unchanged (st st' : GamePage) : Prop where
  players : st'.players = st.players
  userPlayerCards : st'.userPlayerCards = st.userPlayerCards
  userPreDeskCards : st'.userPreDeskCards = st.userPreDeskCards
  desk : st'.desk = st.desk
  playersPassed : st'.playersPassed = st.playersPassed
  currentPlay : st'.currentPlay = st.currentPlay
  winnerRank : st'.winnerRank = st.winnerRank

/-- Confirm is rejected and changes nothing. -/
def Rejected (st : GamePage) : Prop := confirmPlay st = .ok none ∧ Unchanged st (rejectConfirm st)

/-- Confirm puts exactly the cards selected on the desk, as one combination. -/
def PlaysAll (st : GamePage) : Prop :=
  ∃ st', confirmPlay st = .ok (some st') ∧ st'.desk.desk.cards.Perm st.userPreDeskCards ∧
    Forms st.userPreDeskCards st'.desk.desk.classing ∧ st'.userPreDeskCards = []

/-- Confirm plays the whole selection or nothing, and nothing if it is no combination. -/
def AllOrNothing (st : GamePage) : Prop :=
  (Rejected st ∨ PlaysAll st) ∧ ((¬ ∃ j, Forms st.userPreDeskCards j) → Rejected st)

/-- The selection is a combination on which the acceptance test completes, or the action
refuses each of its ranks. -/
def Confirmable (action : Nat) (desk : PokerClass) (selection : List Poker) : Prop :=
  Whole selection ∧ (action = 2 → ∀ c, Valid c → c.cards.Perm selection →
      Strongest selection c.classing → ∃ r, paied c desk = .ok r) ∨
    ¬ Whole selection ∧ ∀ v ∈ selection.map Poker.num, Refused desk (rankClass selection v) action

theorem rejected_of (h : confirmPlay st = .ok none) : Rejected st :=
  ⟨h, rfl, rfl, rfl, rfl, rfl, rfl, rfl⟩

/-- What `ComputerPoker` selects from is all that decides about the confirm. -/
theorem confirmPlay_of_select {out : List PokerClass} (hne : st.userPreDeskCards ≠ [])
    (hout : classingPokers st.userPreDeskCards = .ok out)
    (hselect : selectClass (sortedBy PokerClass.lt out) st.desk.desk (callAct st) = .ok c) :
    confirmPlay st = .ok (if c.isEmpty then none else some (userPlay st c)) := by
  have hcomputer : computerPoker st.userPreDeskCards st.desk.desk (callAct st) =
      .ok (c, removePlayed st.userPreDeskCards c.cards) := by
    rw [computerPoker, hout, ok_bind, hselect]
    rfl
  exact confirmPlay_eq hne hcomputer

/-- A confirm that returns has selected something, or nothing. -/
theorem select_of_confirmPlay {out : List PokerClass} {o : Option GamePage}
    (hne : st.userPreDeskCards ≠ []) (hout : classingPokers st.userPreDeskCards = .ok out)
    (h : confirmPlay st = .ok o) :
    ∃ c, selectClass (sortedBy PokerClass.lt out) st.desk.desk (callAct st) = .ok c ∧
      (c = .none ∨ c ∈ out) ∧ o = if c.isEmpty then none else some (userPlay st c) := by
  obtain ⟨hnil, -⟩ | ⟨-, c, last, hcomputer, ho⟩ := confirmPlay_cases h
  · exact absurd hnil hne
  · rw [computerPoker, hout, ok_bind] at hcomputer
    obtain ⟨rtn, hselect, hrtn⟩ := bind_eq_ok.mp hcomputer
    simp only [pure_eq_ok, Except.ok.injEq, Prod.mk.injEq] at hrtn
    obtain ⟨rfl, -⟩ := hrtn
    refine ⟨rtn, hselect, ?_, ?_⟩
    · obtain ⟨hnone, -⟩ | ⟨hmem, -⟩ := selectClass_cases hselect
      · exact .inl hnone
      · exact .inr (mem_sortedBy.mp hmem)
    · obtain ⟨hempty, rfl⟩ | ⟨hfull, rfl⟩ := ho
      · rw [hempty, if_pos rfl]
      · rw [hfull, if_neg Bool.false_ne_true]

/-- A selection that is one combination as a whole. -/
theorem allOrNothing_of_whole (hdeck : DeckCards st.userPreDeskCards)
    (hfew : st.userPreDeskCards.length ≤ 5) (hne : st.userPreDeskCards ≠ [])
    (hwhole : Whole st.userPreDeskCards) :
    AllOrNothing st ↔ Confirmable (callAct st) st.desk.desk st.userPreDeskCards := by
  obtain ⟨c, hc⟩ := (single_iff_whole hdeck hfew).mpr hwhole
  obtain ⟨hperm, hvalid, hforms⟩ := forms_of_single hc
  have hsorted : sortedBy PokerClass.lt [c] = [c] := rfl
  have hfull : c.isEmpty = false := hvalid.shaped.isEmpty_eq_false
  have hstrongest : Strongest st.userPreDeskCards c.classing := by
    refine (recognised_of hdeck hfew fun row => ?_).2 c hc hperm
    by_contra hsuit
    exact hwhole.2 ⟨row, hsuit⟩
  have hcompletes : (callAct st = 2 → ∃ r, paied c st.desk.desk = .ok r) ↔
      Confirmable (callAct st) st.desk.desk st.userPreDeskCards := by
    constructor
    · refine fun h => .inl ⟨hwhole, fun h2 d hd hcards hkind => ?_⟩
      have hclassing : d.classing = c.classing :=
        le_antisymm (hstrongest.2 _ hkind.1) (hkind.2 _ hforms)
      have hsame : SameClass d c :=
        ⟨hcards.trans hperm.symm, hclassing, hd.level_eq hvalid hclassing (hcards.trans hperm.symm)⟩
      rw [paied_congr hsame (hdeck.proper.perm hperm)]
      exact h h2
    · rintro (⟨-, h⟩ | ⟨hnot, -⟩) h2
      · exact h h2 c hvalid hperm hstrongest
      · exact absurd hwhole hnot
  rw [← hcompletes]
  constructor
  · rintro ⟨hdone, -⟩ h2
    have hreturns : ∃ o, confirmPlay st = .ok o := by
      obtain hrejected | ⟨st', hplay, -⟩ := hdone
      · exact ⟨_, hrejected.1⟩
      · exact ⟨_, hplay⟩
    obtain ⟨o, ho⟩ := hreturns
    obtain ⟨d, hselect, -⟩ := select_of_confirmPlay hne hc ho
    rw [hsorted, h2, selectClass, firstPaied] at hselect
    obtain ⟨r, hr, -⟩ := bind_eq_ok.mp hselect
    exact ⟨r, hr⟩
  · intro h
    refine ⟨?_, fun hnone => absurd ⟨_, hforms⟩ hnone⟩
    have hselected := selectClass_single c st.desk.desk (callAct st) h
    rw [← hsorted] at hselected
    obtain hselect | hselect := hselected
    · have hplay := confirmPlay_of_select hne hc hselect
      rw [hfull, if_neg Bool.false_ne_true] at hplay
      refine .inr ⟨userPlay st c, hplay, ?_, ?_, ?_⟩
      · rw [desk_userPlay]
        exact hperm
      · rw [desk_userPlay]
        exact hforms
      · have hrest := (perm_removePlayed hdeck.proper hperm.subperm).length_eq
        rw [userPreDeskCards_userPlay]
        refine List.eq_nil_of_length_eq_zero ?_
        rw [List.length_append, hperm.length_eq] at hrest
        omega
    · exact .inl (rejected_of (confirmPlay_of_select hne hc hselect))

/-- A selection that is no combination as a whole. -/
theorem allOrNothing_of_parts (hdeck : DeckCards st.userPreDeskCards)
    (hfew : st.userPreDeskCards.length ≤ 5) (hne : st.userPreDeskCards ≠ [])
    (hwhole : ¬ Whole st.userPreDeskCards) :
    AllOrNothing st ↔ Confirmable (callAct st) st.desk.desk st.userPreDeskCards := by
  obtain ⟨out, hout, hparts, hranks⟩ := parts_exact hdeck hfew hwhole
  have hperm := perm_classingPokers hout
  have hfull : ∀ d ∈ out, d.isEmpty = false :=
    fun d hd => (shaped_classingPokers hout d hd).isEmpty_eq_false
  have hout_ne : out ≠ [] := by
    rintro rfl
    exact hne (List.nil_perm.mp hperm)
  have hproper : ∀ v, Proper (rankClass st.userPreDeskCards v).cards :=
    fun v => hdeck.proper.subset List.filter_sublist.subset
  have hrefused : (∀ d ∈ out, Refused st.desk.desk d (callAct st)) ↔
      ∀ v ∈ st.userPreDeskCards.map Poker.num,
        Refused st.desk.desk (rankClass st.userPreDeskCards v) (callAct st) := by
    constructor
    · intro hall v hv
      obtain ⟨d, hd, hsame⟩ := hranks v hv
      exact (hall d hd).congr hsame (hproper v)
    · intro hall d hd
      obtain ⟨v, hv, hsame⟩ := hparts d hd
      exact (hall v hv).congr hsame.symm ((hproper v).perm hsame.cards)
  have hnone : selectClass (sortedBy PokerClass.lt out) st.desk.desk (callAct st) = .ok .none ↔
      ∀ d ∈ out, Refused st.desk.desk d (callAct st) := selectClass_none_iff hout_ne hfull
  unfold Confirmable
  rw [← hrefused, ← hnone]
  constructor
  · rintro ⟨hrejected | ⟨st', hplay, hcards, -, -⟩, -⟩
    · obtain ⟨d, hselect, hd, ho⟩ := select_of_confirmPlay hne hout hrejected.1
      obtain rfl | hd := hd
      · exact .inr ⟨hwhole, hselect⟩
      · rw [hfull d hd, if_neg Bool.false_ne_true] at ho
        cases ho
    · -- the cards put down would be all of the selection
      obtain ⟨d, -, hd, ho⟩ := select_of_confirmPlay hne hout hplay
      exfalso
      obtain rfl | hd := hd
      · cases ho
      · rw [hfull d hd, if_neg Bool.false_ne_true, Option.some.injEq] at ho
        rw [ho, desk_userPlay] at hcards
        obtain ⟨hsingle, -⟩ := covers hout hd hcards.length_eq.ge
        exact hwhole ((single_iff_whole hdeck hfew).mp ⟨d, hsingle ▸ hout⟩)
  · rintro (⟨h, -⟩ | ⟨-, hselect⟩)
    · exact absurd h hwhole
    · have hrejected : Rejected st := rejected_of (confirmPlay_of_select hne hout hselect)
      exact ⟨.inl hrejected, fun _ => hrejected⟩

end Confirm

/-- **Confirm plays the whole selection or nothing** in exactly the reachable states where
the selection is one combination on which the acceptance test completes, or the action
refuses each of its ranks. -/
theorem confirm_all_or_nothing_iff {st₀ : GamePage} {deck : List Poker} {r : Run}
    (hdeck : deck.Perm generatePokers) (h : (Run.system st₀ deck).Reach r)
    (hne : r.page.userPreDeskCards ≠ []) :
    AllOrNothing r.page ↔
      Confirmable (callAct r.page) r.page.desk.desk r.page.userPreDeskCards := by
  have hcards : DeckCards r.page.userPreDeskCards := by
    have hall : DeckCards r.page.cards :=
      DeckCards.perm ⟨nodup_generatePokers, fun _ hcard => hcard⟩ (perm_cards hdeck h)
    refine hall.sublist ?_
    simp only [GamePage.cards, List.append_assoc]
    exact (List.sublist_append_left _ _).trans (List.sublist_append_right _ _)
  have hfew := userPreDeskCards_le h
  by_cases hwhole : Whole r.page.userPreDeskCards
  · exact allOrNothing_of_whole hcards hfew hne hwhole
  · exact allOrNothing_of_parts hcards hfew hne hwhole

/-- The human opens with the clubs 3 to 7, selected in turn. -/
theorem confirm_clubsThreeToSeven : ∃ r, (Run.system .fresh generatePokers).Reach r ∧
    r.page.userPreDeskCards = ((List.range 5).map (deckCard 0)).reverse ∧
      AllOrNothing r.page := by
  obtain ⟨st, hreach, hselection, hact⟩ :=
    Page.reach_play 10 .fresh generatePokers
      [.select 12, .select 11, .select 10, .select 9, .select 8]
      (fun st => st.userPreDeskCards = ((List.range 5).map (deckCard 0)).reverse ∧ callAct st = 0)
      (by decide +kernel)
  refine ⟨⟨st, false⟩, hreach, hselection, ?_⟩
  refine (confirm_all_or_nothing_iff (List.Perm.refl _) hreach
    (by rw [hselection]; decide)).mpr (.inl ⟨?_, fun h2 => ?_⟩)
  · -- a straight flush
    rw [hselection]
    exact ⟨⟨7, .straightFlush (k := 8) (by decide +kernel) (by decide +kernel)⟩,
      by decide +kernel⟩
  · rw [hact] at h2
    cases h2

/-- **A selection put down in part**: the human opens with the clubs 3 and 4, which are no
combination; the 3 goes to the desk, and the 4 stays selected. -/
theorem confirm_plays_part : ∃ r, (Run.system .fresh generatePokers).Reach r ∧
    r.playing = false ∧ r.page.currentPlay = 0 ∧
      r.page.userPreDeskCards = [deckCard 0 1, deckCard 0 0] ∧
        (∃ st', confirmPlay r.page = .ok (some st') ∧ st'.desk.desk.cards = [deckCard 0 0] ∧
          st'.userPreDeskCards = [deckCard 0 1]) ∧
        ¬ AllOrNothing r.page := by
  have hrun : (do
      let st ← Page.newGame 10 .fresh generatePokers
      let st ← Page.taps 10 st [.select 12, .select 11]
      let o ← confirmPlay st
      pure (decide (st.currentPlay = 0 ∧ st.userPreDeskCards = [deckCard 0 1, deckCard 0 0]) &&
        o.any fun st' => st'.desk.desk.cards = [deckCard 0 0] ∧
          st'.userPreDeskCards = [deckCard 0 1])) = Except.ok (ε := Halt) true := by
    decide +kernel
  rw [bind_eq_ok] at hrun
  obtain ⟨st, hst, hrun⟩ := hrun
  rw [bind_eq_ok] at hrun
  obtain ⟨st₁, hst₁, hrun⟩ := hrun
  rw [bind_eq_ok] at hrun
  obtain ⟨o, ho, hrun⟩ := hrun
  cases o with
  | none => simp at hrun
  | some st' =>
      simp only [pure_eq_ok, Except.ok.injEq, Option.any_some, Bool.and_eq_true,
        decide_eq_true_eq] at hrun
      obtain ⟨⟨hturn, hselection⟩, hcards, hleft⟩ := hrun
      refine ⟨⟨st₁, false⟩, Page.reach_taps (Page.reach_newGame hst) hst₁, rfl, hturn, hselection,
        ⟨st', ho, hcards, hleft⟩, ?_⟩
      rintro ⟨hdone, -⟩
      obtain ⟨hrejected, -⟩ | ⟨st'', hplay, -, -, hnil⟩ := hdone
      · rw [ho] at hrejected
        cases hrejected
      · rw [ho, Except.ok.injEq, Option.some.injEq] at hplay
        rw [← hplay, hleft] at hnil
        cases hnil

end IosGame
