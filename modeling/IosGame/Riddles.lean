import IosGame.Loop
import IosGame.System

/-!
# IosGame.Riddles

The riddles of the lantern festival: one button that asks a riddle, shows an answer and goes
on to the next one, ten riddles a lap, and a shuffle after each lap.

`quesCount` is raised when a riddle is asked, before its answer is shown.  So the answer is
read one place further on: it belongs to the riddle that is asked next
(`answers_of_the_next`), and the button traps unless there is an eleventh riddle
(`never_traps_iff`).
-/

namespace IosGame

namespace Riddles

structure Question where
  Ques : String
  Ans : String
  deriving DecidableEq, Repr

/-- `dengmis`, before it is shuffled. -/
def dengmis : List Question := [
  ⟨"長的少，短的多，腳去踩，手去摸(提示:日常用品)", "梯子"⟩,
  ⟨"看看沒有，摸摸倒有，似冰不化，似水不流(提示:日常用品)", "鏡子"⟩,
  ⟨"兩姐妹，一樣長，酸甜苦辣她先嚐(提示:日常用品)", "筷子"⟩,
  ⟨"在家臉上白，出門臉上花，遠近都能到，一去不回家(提示:日常用品)", "信"⟩,
  ⟨"身小力不小，團結又勤勞。有時搬糧食，有時挖地道。(提示:動物)", "螞蟻"⟩,
  ⟨"說馬不像馬，路上沒有它。若用它做藥，要到海中抓。(提示:動物)", "海馬"⟩,
  ⟨"黑臉包丞相，坐在大堂上。扯起八卦旗，專拿飛天將。(提示:動物)", "蜘蛛"⟩,
  ⟨"吃進的是草，擠出的是寶。捨己為人類，功勞可不小(提示:動物)", "奶牛"⟩,
  ⟨"百姐妹，千姐妹，同床睡，各蓋被(提示:水果)", "石榴"⟩,
  ⟨"左手五個，左手五個。拿去十個，還剩十個(提示:日常用品)", "手套"⟩,
  ⟨"一物生得巧，地位比人高。戴上御風寒，脫下有禮貌(提示:日常用品)", "帽子"⟩,
  ⟨"屋裡一座亭，亭中有個人，天天盪鞦韆，不盪就有病(提示:日常用品)", "鐘擺"⟩,
  ⟨"頭上亮光光，出門就成雙。背上縛繩子，馱人走四方(提示:日常用品)", "皮鞋"⟩,
  ⟨"不是點心不是糖,軟軟涼涼肚裡藏,不能吃來不能喝,每天也要嘗一嘗(提示:日常用品)", "牙膏"⟩,
  ⟨"樓台接樓台，一層一層接起來，上面冒白氣，下面水開花(提示:日常用品)", "蒸籠"⟩,
  ⟨"一間小藥房，藥品裡面藏。房子塗白色，十字畫中央(提示:日常用品)", "醫藥箱"⟩,
  ⟨"薄薄一張口，能啃硬骨頭。吃肉不喝湯，吃瓜不嚼豆(提示:日常用品)", "菜刀"⟩,
  ⟨"有硬有軟，有長有寬。白天空閒，夜晚上班(提示:日常用品)", "床"⟩,
  ⟨"遠看兩個零，近看兩個零。有人用了行不得，有人不用不得行(提示:日常用品)", "眼鏡"⟩,
  ⟨"前面來只船，舵手在上邊，來時下小雨，走後路已乾(提示:日常用品)", "熨斗"⟩]

def constAns : String := "隱藏答案"
def blankText : String := ""
def playText : String := "Play"
def displayText : String := "Display Answer"
def nextText : String := "Next"
def playAnginText : String := "Play Angin"

/-- The page, and the riddles as they were shuffled last.  `asked` are the riddles of this
lap, the latest first. -/
structure ContentView where
  dengmis : List Question
  QuesStr : String
  AnsStr : String
  Counts : String
  buttonState : Nat
  buttonLabel : String
  quesCount : Nat
  asked : List Question
  deriving DecidableEq, Repr

/-- The page as it appears, with the riddles shuffled to `dengmis`. -/
def ContentView.appear (dengmis : List Question) : ContentView where
  dengmis := dengmis
  QuesStr := blankText
  AnsStr := blankText
  Counts := blankText
  buttonState := 0
  buttonLabel := playText
  quesCount := 0
  asked := []

/-- The button in state 0. -/
def ContentView.ask (s : ContentView) (question : Question) : ContentView :=
  { s with
    QuesStr := question.Ques
    AnsStr := constAns
    buttonLabel := displayText
    buttonState := 1
    quesCount := s.quesCount + 1
    Counts := toString (s.quesCount + 1)
    asked := question :: s.asked }

/-- The button in state 1; `shuffled` are the riddles after the shuffle, if there is one. -/
def ContentView.answer (s : ContentView) (shuffled : List Question) (question : Question) :
    ContentView :=
  let s := { s with AnsStr := question.Ans }
  let s :=
    if 10 ≤ s.quesCount then
      { s with
        buttonLabel := playAnginText
        Counts := blankText
        dengmis := shuffled
        quesCount := 0
        asked := [] }
    else
      { s with buttonLabel := nextText, Counts := toString s.quesCount }
  { s with buttonState := 0 }

/-- The action of the button. -/
def ContentView.tap (s : ContentView) (shuffled : List Question) : Except Trap ContentView :=
  if s.buttonState = 0 then do pure (s.ask (← idx s.dengmis s.quesCount))
  else if s.buttonState = 1 then do pure (s.answer shuffled (← idx s.dengmis s.quesCount))
  else pure s

/-- Any number of taps, on the riddles in any order. -/
def system (riddles : List Question) : System ContentView (List Question) where
  init s := ∃ dengmis, List.Perm dengmis riddles ∧ s = .appear dengmis
  step s shuffled s' := shuffled.Perm riddles ∧ s.tap shuffled = .ok s'

variable {riddles shuffled : List Question} {s s' : ContentView}

/-! ## what a tap does -/

theorem idx_cast {α : Type} {l : List α} {n : Nat} {x : α} :
    idx l (n : Int) = .ok x ↔ l[n]? = some x := by
  simp [idx_eq_ok]

theorem tap_ask (hstate : s.buttonState = 0) :
    s.tap shuffled = .ok s' ↔
      ∃ question, s.dengmis[s.quesCount]? = some question ∧ s.ask question = s' := by
  rw [ContentView.tap, if_pos hstate]
  simp only [bind_eq_ok, idx_cast, pure_eq_ok, Except.ok.injEq]

theorem tap_answer (hstate : s.buttonState = 1) :
    s.tap shuffled = .ok s' ↔
      ∃ question, s.dengmis[s.quesCount]? = some question ∧ s.answer shuffled question = s' := by
  rw [ContentView.tap, if_neg (by omega), if_pos hstate]
  simp only [bind_eq_ok, idx_cast, pure_eq_ok, Except.ok.injEq]

/-- The last answer of a lap. -/
theorem answer_last (hlast : 10 ≤ s.quesCount) (shuffled : List Question) (question : Question) :
    s.answer shuffled question = { s with
      AnsStr := question.Ans
      buttonLabel := playAnginText
      Counts := blankText
      dengmis := shuffled
      quesCount := 0
      asked := []
      buttonState := 0 } := by
  simp only [ContentView.answer, if_pos hlast]

theorem answer_next (hnext : ¬ 10 ≤ s.quesCount) (shuffled : List Question)
    (question : Question) :
    s.answer shuffled question = { s with
      AnsStr := question.Ans
      buttonLabel := nextText
      Counts := toString s.quesCount
      buttonState := 0 } := by
  simp only [ContentView.answer, if_neg hnext]

/-! ## laps -/

/-- What holds between the taps. -/
structure Lap (riddles : List Question) (s : ContentView) : Prop where
  perm : s.dengmis.Perm riddles
  asked : s.asked.reverse = s.dengmis.take s.quesCount
  state : s.buttonState = 0 ∧ s.quesCount ≤ 9 ∨
    s.buttonState = 1 ∧ 0 < s.quesCount ∧ s.quesCount ≤ 10 ∧
      s.Counts = toString s.quesCount ∧
      ∃ question, s.dengmis[s.quesCount - 1]? = some question ∧ s.QuesStr = question.Ques

theorem lap_of_reach (h : (system riddles).Reach s) : Lap riddles s := by
  refine h.invariant (I := Lap riddles) ?_ ?_
  · rintro s ⟨dengmis, hperm, rfl⟩
    exact ⟨hperm, rfl, .inl ⟨rfl, Nat.zero_le 9⟩⟩
  · rintro s shuffled s' - ⟨hperm, hasked, hstate⟩ ⟨hshuffled, htap⟩
    obtain ⟨hstate, hcount⟩ | ⟨hstate, hpos, hcount, -⟩ := hstate
    · obtain ⟨question, hquestion, rfl⟩ := (tap_ask hstate).mp htap
      refine ⟨hperm, ?_, .inr ⟨rfl, Nat.succ_pos _, Nat.succ_le_succ hcount, rfl, question,
        hquestion, rfl⟩⟩
      simp only [ContentView.ask, List.reverse_cons, hasked, List.take_add_one, hquestion,
        Option.toList_some]
    · obtain ⟨question, -, rfl⟩ := (tap_answer hstate).mp htap
      by_cases hlast : 10 ≤ s.quesCount
      · rw [answer_last hlast]
        exact ⟨hshuffled, rfl, .inl ⟨rfl, Nat.zero_le 9⟩⟩
      · rw [answer_next hlast]
        exact ⟨hperm, hasked, .inl ⟨rfl, by simp only; omega⟩⟩

/-- While an answer is hidden, the riddle on the page is the one asked last. -/
theorem Lap.shown (h : Lap riddles s) (hone : s.buttonState = 1) :
    0 < s.quesCount ∧ s.Counts = toString s.quesCount ∧
      ∃ question, s.dengmis[s.quesCount - 1]? = some question ∧
        s.asked.head? = some question ∧ s.QuesStr = question.Ques := by
  obtain ⟨-, hasked, ⟨hzero, -⟩ | ⟨-, hpos, -, hcounts, question, hquestion, hshown⟩⟩ := h
  · omega
  · refine ⟨hpos, hcounts, question, hquestion, ?_, hshown⟩
    have hlast : s.asked.reverse.getLast? = some question := by
      rw [hasked, List.getLast?_take]
      simp [hquestion, hpos.ne']
    simpa using hlast

/-- **A lap**: at most ten riddles of the list are asked, none twice if the list has none
twice, and the page counts them while an answer is hidden. -/
theorem lap_no_repeat (h : (system riddles).Reach s) :
    (riddles.Nodup → s.asked.Nodup) ∧ s.asked ⊆ riddles ∧ s.asked.length ≤ 10 ∧
      (s.buttonState = 1 → s.Counts = toString s.asked.length ∧
        ∃ question, s.asked.head? = some question ∧ s.QuesStr = question.Ques) := by
  obtain ⟨hperm, hasked, hstate⟩ := lap_of_reach h
  have htake : (s.dengmis.take s.quesCount).Sublist s.dengmis := List.take_sublist _ _
  have hlen : s.asked.length = min s.quesCount s.dengmis.length := by
    rw [← List.length_reverse, hasked, List.length_take]
  refine ⟨fun hnodup => ?_, ?_, ?_, fun hone => ?_⟩
  · rw [← List.nodup_reverse, hasked]
    exact (hperm.nodup_iff.mpr hnodup).sublist htake
  · intro question hquestion
    have hmem : question ∈ s.asked.reverse := List.mem_reverse.mpr hquestion
    rw [hasked] at hmem
    exact hperm.subset (htake.subset hmem)
  · omega
  · obtain ⟨-, hcounts, question, hquestion, hhead, hshown⟩ := (lap_of_reach h).shown hone
    have hlt := (List.getElem?_eq_some_iff.mp hquestion).1
    have hcount : s.asked.length = s.quesCount := by omega
    exact ⟨hcount ▸ hcounts, question, hhead, hshown⟩

/-- The second riddle of a lap. -/
theorem lap_no_repeat_lantern : ∃ s, (system dengmis).Reach s ∧ s.asked = (dengmis.take 2).reverse ∧
    s.buttonState = 1 ∧ s.asked.Nodup ∧ s.asked ⊆ dengmis ∧ s.asked.length ≤ 10 ∧
    s.Counts = toString s.asked.length ∧
    ∃ question, s.asked.head? = some question ∧ s.QuesStr = question.Ques := by
  let first := (ContentView.appear dengmis).ask (dengmis.get ⟨0, by decide⟩)
  let answered := first.answer dengmis (dengmis.get ⟨1, by decide⟩)
  let second := answered.ask (dengmis.get ⟨1, by decide⟩)
  have hinit : (system dengmis).Reach (.appear dengmis) := .init ⟨_, List.Perm.refl _, rfl⟩
  have hfirst : (system dengmis).Reach first := hinit.step (e := dengmis) ⟨List.Perm.refl _, rfl⟩
  have hanswered : (system dengmis).Reach answered :=
    hfirst.step (e := dengmis) ⟨List.Perm.refl _, rfl⟩
  have hsecond : (system dengmis).Reach second :=
    hanswered.step (e := dengmis) ⟨List.Perm.refl _, rfl⟩
  obtain ⟨hnodup, hsub, hlen, hpage⟩ := lap_no_repeat hsecond
  exact ⟨second, hsecond, rfl, rfl, hnodup (by decide), hsub, hlen, hpage rfl⟩

/-! ## the answers -/

/-- **The answer to the next riddle**: what the button shows after a riddle is not its answer,
but that of the riddle it asks next in the lap. -/
theorem answers_of_the_next (hans : (riddles.map Question.Ans).Nodup)
    (h : (system riddles).Reach s) (hstate : s.buttonState = 1)
    (htap : s.tap shuffled = .ok s') :
    ∃ question next : Question, s.asked.head? = some question ∧ s'.QuesStr = question.Ques ∧
      s'.AnsStr = next.Ans ∧ s'.AnsStr ≠ question.Ans ∧
      ∀ shuffled' s'', s'.quesCount ≠ 0 → s'.tap shuffled' = .ok s'' →
        s''.QuesStr = next.Ques := by
  have hlap := lap_of_reach h
  obtain ⟨hpos, -, question, hquestion, hhead, hshown⟩ := hlap.shown hstate
  obtain ⟨next, hnext, rfl⟩ := (tap_answer hstate).mp htap
  have hne : next.Ans ≠ question.Ans := by
    intro heq
    have hnodup : (s.dengmis.map Question.Ans).Nodup := ((hlap.perm.map _).nodup_iff).mpr hans
    have hplaces : (s.dengmis.map Question.Ans)[s.quesCount]? =
        (s.dengmis.map Question.Ans)[s.quesCount - 1]? := by
      rw [List.getElem?_map, List.getElem?_map, hnext, hquestion]
      exact congrArg some heq
    have hlt : s.quesCount < (s.dengmis.map Question.Ans).length := by
      rw [List.length_map]
      exact (List.getElem?_eq_some_iff.mp hnext).1
    have := (List.getElem?_inj hlt hnodup).mp hplaces
    omega
  refine ⟨question, next, hhead, ?_⟩
  by_cases hlast : 10 ≤ s.quesCount
  · rw [answer_last hlast]
    exact ⟨hshown, rfl, hne, fun _ _ hcount' => absurd rfl hcount'⟩
  · rw [answer_next hlast]
    refine ⟨hshown, rfl, hne, fun shuffled' s'' _ htap' => ?_⟩
    obtain ⟨question', hquestion', rfl⟩ := (tap_ask rfl).mp htap'
    have hsame : some next = some question' := hnext.symm.trans hquestion'
    cases hsame
    rfl

/-- The first riddle is about a ladder, and the answer shown is the mirror. -/
theorem answers_of_the_next_lantern : ∃ s s' : ContentView, (system dengmis).Reach s ∧
    s.tap dengmis = .ok s' ∧ s'.AnsStr = "鏡子" ∧
    ∃ question next : Question, s.asked.head? = some question ∧ s'.QuesStr = question.Ques ∧
      s'.AnsStr = next.Ans ∧ s'.AnsStr ≠ question.Ans := by
  let s := (ContentView.appear dengmis).ask (dengmis.get ⟨0, by decide⟩)
  let s' := s.answer dengmis (dengmis.get ⟨1, by decide⟩)
  have hinit : (system dengmis).Reach (.appear dengmis) := .init ⟨_, List.Perm.refl _, rfl⟩
  have hreach : (system dengmis).Reach s := hinit.step (e := dengmis) ⟨List.Perm.refl _, rfl⟩
  have htap : s.tap dengmis = .ok s' := rfl
  obtain ⟨question, next, hhead, hques, hans, hne, -⟩ :=
    answers_of_the_next (by decide) hreach rfl htap
  exact ⟨s, s', hreach, htap, rfl, question, next, hhead, hques, hans, hne⟩

/-! ## enough riddles -/

/-- The riddles are asked one after the other. -/
theorem reach_quesCount (riddles : List Question) (k : Nat) (hk : k < riddles.length)
    (hlap : k ≤ 9) :
    ∃ s, (system riddles).Reach s ∧ s.dengmis = riddles ∧ s.buttonState = 0 ∧
      s.quesCount = k := by
  induction k with
  | zero => exact ⟨_, .init ⟨riddles, List.Perm.refl _, rfl⟩, rfl, rfl, rfl⟩
  | succ k ih =>
      obtain ⟨s, hreach, hdengmis, hstate, hcount⟩ := ih (by omega) (by omega)
      have hquestion : s.dengmis[s.quesCount]? = some riddles[k] := by
        rw [hdengmis, hcount, List.getElem?_eq_getElem]
      have hasked := hreach.step (e := riddles)
        ⟨List.Perm.refl _, (tap_ask hstate).mpr ⟨_, hquestion, rfl⟩⟩
      have hnext : (s.ask riddles[k]).dengmis[(s.ask riddles[k]).quesCount]? =
          some riddles[k + 1] := by
        simp only [ContentView.ask, hdengmis, hcount, List.getElem?_eq_getElem hk]
      have hanswered := hasked.step (e := riddles)
        ⟨List.Perm.refl _, (tap_answer rfl).mpr ⟨_, hnext, rfl⟩⟩
      rw [answer_next (by simp only [ContentView.ask]; omega)] at hanswered
      exact ⟨_, hanswered, hdengmis, rfl, by simp only [ContentView.ask]; omega⟩

/-- **The button never traps** exactly when there are more than ten riddles. -/
theorem never_traps_iff (riddles : List Question) :
    (∀ s, (system riddles).Reach s → ∀ shuffled, ∃ s', s.tap shuffled = .ok s') ↔
      10 < riddles.length := by
  constructor
  · intro h
    by_contra hfew
    rcases Nat.eq_zero_or_pos riddles.length with hnil | hpos
    · -- there is no riddle to ask
      obtain ⟨s', htap⟩ := h _ (.init ⟨riddles, List.Perm.refl _, rfl⟩) []
      obtain ⟨question, hquestion, -⟩ := (tap_ask rfl).mp htap
      have := (List.getElem?_eq_some_iff.mp hquestion).1
      simp only [ContentView.appear] at this
      omega
    · -- the last riddle has been asked
      obtain ⟨s, hreach, hdengmis, hstate, hcount⟩ :=
        reach_quesCount riddles (riddles.length - 1) (by omega) (by omega)
      obtain ⟨s', htap⟩ := h s hreach riddles
      have hasked := hreach.step (e := riddles) ⟨List.Perm.refl _, htap⟩
      obtain ⟨question, -, rfl⟩ := (tap_ask hstate).mp htap
      obtain ⟨s'', htap'⟩ := h _ hasked riddles
      obtain ⟨next, hnext, -⟩ := (tap_answer rfl).mp htap'
      have := (List.getElem?_eq_some_iff.mp hnext).1
      simp only [ContentView.ask, hdengmis, hcount] at this
      omega
  · intro hmany s hreach shuffled
    obtain ⟨hperm, -, hstate⟩ := lap_of_reach hreach
    have hlen := hperm.length_eq
    have hlt : s.quesCount < s.dengmis.length := by omega
    obtain ⟨hstate, -⟩ | ⟨hstate, -⟩ := hstate
    · exact ⟨_, (tap_ask hstate).mpr ⟨_, List.getElem?_eq_getElem hlt, rfl⟩⟩
    · exact ⟨_, (tap_answer hstate).mpr ⟨_, List.getElem?_eq_getElem hlt, rfl⟩⟩

end Riddles

end IosGame
