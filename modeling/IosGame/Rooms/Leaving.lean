import IosGame.Rooms.Races
import Mathlib.Logic.Function.Basic

/-!
# IosGame.Rooms.Leaving

A client that has just entered a room, and its back button.

Entering the room leaves an update of the player document under way, which gives the
client its `gameRoomID` when its callback runs.  The button quits the room the client has
at that moment and starts a second update.  So leaving works exactly when the button finds
the room, its update of the player is the last to be written, and the room lets the client
go (`leaving_effective`).
-/

namespace IosGame

namespace Rooms

open Shared

/-! ## the client -/

/-- The updates of the player document: when the room is entered, and by the button. -/
inductive Update where
  | join
  | back
  deriving DecidableEq, Repr

/-- What the closure of an update makes of the player it gets, at the date `now`. -/
def Update.change (roomID : String) (now : Int) : Update → Player → Player
  | .join, getplayer => { getplayer with gameRoomID := roomID, lastJoinGameTime := some now }
  | .back, updatePlayer => { updatePlayer with gameRoomID := "", lastJoinGameTime := none }

/-- How far a call of `updatePlayerData` is: the document is asked for, read, and, the
closure having run, written. -/
inductive Progress where
  | idle
  | asked
  | read (getplayer : Player)
  | writing (player : Player)
  | done
  deriving DecidableEq, Repr

/-- How far the call of `quitGameRoom` is. -/
inductive Quitting where
  | idle
  | asked (gameRoomID playerID : String)
  | writing (gameRoomID : String) (write : Write GameRoom)
  | done

/-- The guard of `quitGameRoom`, which runs when it is called. -/
def Quitting.ask (player : Player) : Quitting :=
  match player.id with
  | some playerID =>
      if player.gameRoomID ≠ "" then .asked player.gameRoomID playerID else .done
  | none => .done

/-- The callback of `quitGameRoom` on the document it gets. -/
def Quitting.get (gameRoomID playerID : String) (document : Option GameRoom) : Quitting :=
  match document with
  | some room => match quitGameRoom playerID room with
      | .keep => .done
      | write => .writing gameRoomID write
  | none => .done

/-- The document once the write has landed. -/
def landed : Write GameRoom → Option GameRoom → Option GameRoom
  | .set room, _ => some room
  | .delete, _ => none
  | .keep, document => document

/-- The client, its two documents, and what is under way. -/
structure Client where
  rooms : String → Option GameRoom
  player : Player
  playerProfile : Player
  updates : Update → Progress
  quitting : Quitting
  /-- the room the button found in `playerProfile`, once it is tapped -/
  tapped : Option String
  /-- the update written last -/
  written : Option Update

inductive Event where
  | read (update : Update)
  | callback (update : Update) (now : Int)
  | write (update : Update)
  | tap
  | quitRead
  | quitWrite

/-- One step of the client that entered the room `roomID`. -/
inductive Step (roomID : String) : Client → Event → Client → Prop where
  | read {c : Client} {update : Update} (h : c.updates update = .asked) :
      Step roomID c (.read update)
        { c with updates := Function.update c.updates update (.read c.player) }
  | callback {c : Client} {update : Update} {getplayer : Player} (now : Int)
      (h : c.updates update = .read getplayer) :
      Step roomID c (.callback update now)
        { c with
          playerProfile := update.change roomID now getplayer
          updates := Function.update c.updates update
            (.writing (update.change roomID now getplayer)) }
  | write {c : Client} {update : Update} {player : Player}
      (h : c.updates update = .writing player) :
      Step roomID c (.write update)
        { c with
          player := player
          updates := Function.update c.updates update .done
          written := some update }
  | tap {c : Client} (h : c.tapped = none) :
      Step roomID c .tap
        { c with
          quitting := .ask c.playerProfile
          updates := Function.update c.updates .back .asked
          tapped := some c.playerProfile.gameRoomID }
  | quitRead {c : Client} {gameRoomID playerID : String}
      (h : c.quitting = .asked gameRoomID playerID) :
      Step roomID c .quitRead
        { c with quitting := .get gameRoomID playerID (c.rooms gameRoomID) }
  | quitWrite {c : Client} {gameRoomID : String} {write : Write GameRoom}
      (h : c.quitting = .writing gameRoomID write) :
      Step roomID c .quitWrite
        { c with
          rooms := Function.update c.rooms gameRoomID (landed write (c.rooms gameRoomID))
          quitting := .done }

/-- The client `playerID` from the moment the page shows the room it entered. -/
def leaving (roomID playerID : String) (room : GameRoom) : System Client Event where
  init c := c.rooms roomID = some room ∧ c.player.id = some playerID ∧
    c.playerProfile.id = some playerID ∧ c.updates .join = .asked ∧ c.updates .back = .idle ∧
    c.quitting = .idle ∧ c.tapped = none ∧ c.written = none
  step := Step roomID

/-- The room as the client entered it: created, or joined. -/
def Entered (playerID : String) (room : GameRoom) : Prop :=
  (∃ shareKey, room = GameRoom.init shareKey playerID) ∨
    ∃ before, Shaped before ∧ (joinGameRoom playerID 4 before).2 = some room

/-- Nothing is under way. -/
def Client.Settled (c : Client) : Prop :=
  (∀ update, c.updates update = .done) ∧ c.quitting = .done

/-- The client is not in the room, and its document names none. -/
def Client.Left (roomID playerID : String) (c : Client) : Prop :=
  (∀ room, c.rooms roomID = some room → playerID ∉ room.playerIDs) ∧ c.player.gameRoomID = ""

variable {roomID playerID : String} {room : GameRoom} {c c' : Client} {event : Event}

/-! ## the room -/

theorem Entered.shaped (h : Entered playerID room) :
    Shaped room ∧ playerID ∈ room.playerIDs := by
  rcases h with ⟨shareKey, rfl⟩ | ⟨before, hbefore, hjoin⟩
  · exact ⟨⟨by simp [GameRoom.init], by simp [GameRoom.init], by simp [GameRoom.init]⟩,
      by simp [GameRoom.init]⟩
  · rcases joinGameRoom_cases playerID before with ⟨-, -, -, heq⟩ | ⟨hin, -, -, heq⟩ | ⟨-, heq⟩
    · rw [heq] at hjoin
      cases hjoin
      exact ⟨hbefore.update (q := .join playerID) (by rw [Request.update, heq]), by simp⟩
    · rw [heq] at hjoin
      cases hjoin
      exact ⟨hbefore, hin⟩
    · rw [heq] at hjoin
      cases hjoin

/-- A quit takes the player out of a room that he shares, or that is his. -/
theorem quit_effective (hshaped : Shaped room) (hin : playerID ∈ room.playerIDs) :
    (∀ room', atomically Request.update (.quit playerID) (some room) = some room' →
      playerID ∉ room'.playerIDs) ↔
      1 < room.playerIDs.length ∨ room.ownerID = playerID := by
  by_cases hlen : 1 < room.playerIDs.length
  · have hset : (Request.quit playerID).update room = _ := quitGameRoom_set playerID hlen
    rw [atomically_set hset]
    refine iff_of_true (fun room' hroom' hmem => ?_) (.inl hlen)
    cases hroom'
    rw [mem_eraseIdx_playerIDIdx hshaped.nodup hin] at hmem
    exact hmem.1 rfl
  · by_cases howner : room.ownerID = playerID
    · have hdelete : (Request.quit playerID).update room = _ := quitGameRoom_delete hlen howner
      rw [atomically_delete hdelete]
      exact iff_of_true nofun (.inr howner)
    · have hkeep : (Request.quit playerID).update room = .keep := by
        rw [Request.update, quitGameRoom, dif_neg hlen, if_neg howner]
      rw [atomically_keep hkeep]
      exact iff_of_false (fun h => h room rfl hin) (not_or.mpr ⟨hlen, howner⟩)

/-! ## the player document -/

/-- The room that the player has after the update. -/
def Update.gives (roomID : String) : Update → String
  | .join => roomID
  | .back => ""

theorem Update.change_id (roomID : String) (now : Int) (update : Update) (player : Player) :
    (update.change roomID now player).id = player.id := by
  cases update <;> rfl

theorem Update.change_gameRoomID (roomID : String) (now : Int) (update : Update)
    (player : Player) : (update.change roomID now player).gameRoomID = update.gives roomID := by
  cases update <;> rfl

/-- What a call has to do with is the client's document, with the room it gives on the way
to be written; one that is done has been written. -/
def Update.Sound (roomID playerID : String) (written : Option Update) (update : Update) :
    Progress → Prop
  | .read getplayer => getplayer.id = some playerID
  | .writing player => player.id = some playerID ∧ player.gameRoomID = update.gives roomID
  | .done => written ≠ none
  | .idle | .asked => True

/-- The player document is the client's, and has the room of the update written last. -/
structure Updating (roomID playerID : String) (c : Client) : Prop where
  player : c.player.id = some playerID
  playerProfile : c.playerProfile.id = some playerID
  sound : ∀ update : Update, update.Sound roomID playerID c.written (c.updates update)
  written : ∀ update : Update, c.written = some update → c.player.gameRoomID = update.gives roomID

/-- A step of one call leaves the other as it is. -/
theorem sound_update {written : Option Update} {updates : Update → Progress} {update : Update}
    {progress : Progress}
    (h : ∀ update : Update, update.Sound roomID playerID written (updates update))
    (hprogress : update.Sound roomID playerID written progress) (update' : Update) :
    update'.Sound roomID playerID written (Function.update updates update progress update') := by
  by_cases heq : update' = update
  · subst heq
    rwa [Function.update_self]
  · rw [Function.update_of_ne heq]
    exact h update'

theorem Update.Sound.written {written : Option Update} {update update' : Update}
    {progress : Progress} (h : update.Sound roomID playerID written progress) :
    update.Sound roomID playerID (some update') progress := by
  cases progress with
  | done => exact nofun
  | idle => exact h
  | asked => exact h
  | read getplayer => exact h
  | writing player => exact h

theorem Updating.step (h : Updating roomID playerID c) (hstep : Step roomID c event c') :
    Updating roomID playerID c' := by
  cases hstep with
  | read hasked => exact ⟨h.player, h.playerProfile, sound_update h.sound h.player, h.written⟩
  | @callback update getplayer now hgot =>
      have hsound := h.sound update
      rw [hgot] at hsound
      have hid : (update.change roomID now getplayer).id = some playerID := by
        rw [Update.change_id]
        exact hsound
      exact ⟨h.player, hid,
        sound_update h.sound ⟨hid, Update.change_gameRoomID roomID now update getplayer⟩, h.written⟩
  | @write update player hwriting =>
      have hsound := h.sound update
      rw [hwriting] at hsound
      refine ⟨hsound.1, h.playerProfile,
        sound_update (fun update' => (h.sound update').written) (nofun : some update ≠ none),
        fun update' hwritten => ?_⟩
      cases hwritten
      exact hsound.2
  | tap huntapped => exact ⟨h.player, h.playerProfile, sound_update h.sound trivial, h.written⟩
  | quitRead => exact ⟨h.player, h.playerProfile, h.sound, h.written⟩
  | quitWrite => exact ⟨h.player, h.playerProfile, h.sound, h.written⟩

/-! ## the quit -/

/-- The room is what it was until the quit of it is done, and then what the quit makes
of it. -/
structure Quits (roomID playerID : String) (room : GameRoom) (c : Client) : Prop where
  idle : c.quitting = .idle → c.tapped = none
  asked : ∀ gameRoomID playerID', c.quitting = .asked gameRoomID playerID' →
    c.tapped = some gameRoomID ∧ playerID' = playerID
  writing : ∀ gameRoomID write, c.quitting = .writing gameRoomID write →
    c.tapped = some gameRoomID ∧
      (gameRoomID = roomID → write = (Request.quit playerID).update room)
  before : ¬ (c.quitting = .done ∧ c.tapped = some roomID) → c.rooms roomID = some room
  after : c.quitting = .done → c.tapped = some roomID →
    c.rooms roomID = atomically Request.update (.quit playerID) (some room)

theorem ask_eq {player : Player} (hid : player.id = some playerID) :
    Quitting.ask player =
      if player.gameRoomID ≠ "" then .asked player.gameRoomID playerID else .done := by
  rw [Quitting.ask, hid]

/-- The callback has nothing to write, or goes on to write it. -/
theorem get_cases (gameRoomID playerID : String) (document : Option GameRoom) :
    (Quitting.get gameRoomID playerID document = .done ∧
      ∀ room, document = some room → (Request.quit playerID).update room = .keep) ∨
    ∃ room, document = some room ∧
      Quitting.get gameRoomID playerID document =
        .writing gameRoomID ((Request.quit playerID).update room) := by
  cases document with
  | none => exact .inl ⟨rfl, nofun⟩
  | some room =>
      simp only [Quitting.get, Request.update]
      cases hquit : quitGameRoom playerID room with
      | keep => exact .inl ⟨rfl, fun room' hroom' => by cases hroom'; exact hquit⟩
      | set room' => exact .inr ⟨room, rfl, by rw [hquit]⟩
      | delete => exact .inr ⟨room, rfl, by rw [hquit]⟩

theorem landed_update (q : Request) (room : GameRoom) :
    landed (q.update room) (some room) = atomically Request.update q (some room) := by
  cases hupdate : q.update room with
  | set room' => rw [atomically_set hupdate, landed]
  | delete => rw [atomically_delete hupdate, landed]
  | keep => rw [atomically_keep hupdate, landed]

theorem Quits.tap (h : Quits roomID playerID room c) (hroomID : roomID ≠ "")
    (hid : c.playerProfile.id = some playerID) (huntapped : c.tapped = none) :
    Quits roomID playerID room { c with
      quitting := .ask c.playerProfile
      updates := Function.update c.updates .back .asked
      tapped := some c.playerProfile.gameRoomID } := by
  have hroom : c.rooms roomID = some room := h.before (by simp [huntapped])
  by_cases hguard : c.playerProfile.gameRoomID ≠ ""
  · have hask : Quitting.ask c.playerProfile = .asked c.playerProfile.gameRoomID playerID := by
      rw [ask_eq hid, if_pos hguard]
    simp only [hask]
    refine ⟨nofun, fun gameRoomID playerID' hasked => ?_, nofun, fun _ => hroom, nofun⟩
    cases hasked
    exact ⟨rfl, rfl⟩
  · have hask : Quitting.ask c.playerProfile = .done := by
      rw [ask_eq hid, if_neg hguard]
    simp only [hask]
    refine ⟨nofun, nofun, nofun, fun _ => hroom, fun _ htapped => ?_⟩
    exact absurd ((Option.some.inj htapped).symm.trans (not_not.mp hguard)) hroomID

theorem Quits.quitRead (h : Quits roomID playerID room c) {gameRoomID playerID' : String}
    (hasked : c.quitting = .asked gameRoomID playerID') :
    Quits roomID playerID room
      { c with quitting := .get gameRoomID playerID' (c.rooms gameRoomID) } := by
  obtain ⟨htapped, rfl⟩ := h.asked _ _ hasked
  have hroom : c.rooms roomID = some room := h.before (by simp [hasked])
  rcases get_cases gameRoomID playerID' (c.rooms gameRoomID) with
    ⟨hget, hkeep⟩ | ⟨read, hread, hget⟩
  · simp only [hget]
    refine ⟨nofun, nofun, nofun, fun _ => hroom, fun _ htapped' => ?_⟩
    obtain rfl : gameRoomID = roomID := Option.some.inj (htapped.symm.trans htapped')
    rw [atomically_keep (hkeep room hroom)]
    exact hroom
  · simp only [hget]
    refine ⟨nofun, nofun, fun gameRoomID' write hwriting => ?_, fun _ => hroom, nofun⟩
    cases hwriting
    refine ⟨htapped, fun heq => ?_⟩
    subst heq
    rw [Option.some.inj (hread.symm.trans hroom)]

theorem Quits.quitWrite (h : Quits roomID playerID room c) {gameRoomID : String}
    {write : Write GameRoom} (hwriting : c.quitting = .writing gameRoomID write) :
    Quits roomID playerID room { c with
      rooms := Function.update c.rooms gameRoomID (landed write (c.rooms gameRoomID))
      quitting := .done } := by
  obtain ⟨htapped, hwrite⟩ := h.writing _ _ hwriting
  have hroom : c.rooms roomID = some room := h.before (by simp [hwriting])
  by_cases heq : gameRoomID = roomID
  · subst heq
    refine ⟨nofun, nofun, nofun, fun hpending => absurd ⟨rfl, htapped⟩ hpending, fun _ _ => ?_⟩
    simp only [Function.update_self, hwrite rfl, hroom]
    exact landed_update _ _
  · have hother : c.tapped ≠ some roomID := fun htapped' =>
      heq (Option.some.inj (htapped.symm.trans htapped'))
    refine ⟨nofun, nofun, nofun, fun _ => ?_, fun _ htapped' => absurd htapped' hother⟩
    simp only [Function.update_of_ne (Ne.symm heq), hroom]

theorem Quits.step (h : Quits roomID playerID room c) (hroomID : roomID ≠ "")
    (hid : c.playerProfile.id = some playerID) (hstep : Step roomID c event c') :
    Quits roomID playerID room c' := by
  cases hstep with
  | read hasked => exact ⟨h.idle, h.asked, h.writing, h.before, h.after⟩
  | callback now hgot => exact ⟨h.idle, h.asked, h.writing, h.before, h.after⟩
  | write hwriting => exact ⟨h.idle, h.asked, h.writing, h.before, h.after⟩
  | tap huntapped => exact h.tap hroomID hid huntapped
  | quitRead hasked => exact h.quitRead hasked
  | quitWrite hwriting => exact h.quitWrite hwriting

/-! ## every run -/

theorem updating_quits (hroomID : roomID ≠ "") (h : (leaving roomID playerID room).Reach c) :
    Updating roomID playerID c ∧ Quits roomID playerID room c := by
  refine h.invariant (I := fun c => Updating roomID playerID c ∧ Quits roomID playerID room c)
    (fun c hc => ?_) fun c event c' _ ih hstep =>
      ⟨ih.1.step hstep, ih.2.step hroomID ih.1.playerProfile hstep⟩
  obtain ⟨hroom, hplayer, hprofile, hjoin, hback, hquitting, htapped, hwritten⟩ := hc
  refine ⟨⟨hplayer, hprofile, fun update => ?_, by simp [hwritten]⟩,
    ⟨fun _ => htapped, by simp [hquitting], by simp [hquitting], fun _ => hroom,
      by simp [hquitting]⟩⟩
  cases update with
  | join => rw [hjoin]; trivial
  | back => rw [hback]; trivial

/-- **Leaving**: when nothing is under way any more, the client has left exactly when the
button found the room in `playerProfile`, its update was written after the one made on
entering, and the client shared the room or owned it. -/
theorem leaving_effective (hroomID : roomID ≠ "") (hroom : Entered playerID room)
    (h : (leaving roomID playerID room).Reach c) (hsettled : c.Settled) :
    c.Left roomID playerID ↔ c.tapped = some roomID ∧ c.written = some .back ∧
      (1 < room.playerIDs.length ∨ room.ownerID = playerID) := by
  obtain ⟨hupdating, hquits⟩ := updating_quits hroomID h
  obtain ⟨hshaped, hin⟩ := hroom.shaped
  have hwritten : c.player.gameRoomID = "" ↔ c.written = some .back := by
    have hsome := hupdating.sound .back
    rw [hsettled.1 .back] at hsome
    obtain ⟨update, hupdate⟩ := Option.ne_none_iff_exists'.mp hsome
    rw [hupdating.written update hupdate, hupdate]
    cases update with
    | join => exact iff_of_false hroomID nofun
    | back => exact iff_of_true rfl rfl
  by_cases htapped : c.tapped = some roomID
  · rw [Client.Left, hquits.after hsettled.2 htapped, quit_effective hshaped hin, hwritten]
    constructor
    · rintro ⟨hshared, hback⟩
      exact ⟨htapped, hback, hshared⟩
    · rintro ⟨-, hback, hshared⟩
      exact ⟨hshared, hback⟩
  · -- the room was not quit
    have hstill := hquits.before fun hdone => htapped hdone.2
    exact iff_of_false (fun hleft => hleft.1 room hstill hin) fun hcond => htapped hcond.1

/-! ## two clients -/

/-- A client that has entered the room, and nothing else done. -/
def Client.entered (roomID : String) (room : GameRoom) (player : Player) : Client where
  rooms := fun id => if id = roomID then some room else none
  player := player
  playerProfile := player
  updates := fun update => if update = .join then .asked else .idle
  quitting := .idle
  tapped := none
  written := none

theorem reach_entered {player : Player} (h : player.id = some playerID) :
    (leaving roomID playerID room).Reach (.entered roomID room player) :=
  .init ⟨if_pos rfl, h, h, rfl, rfl, rfl, rfl, rfl⟩

theorem reach_step (event : Event) (h : (leaving roomID playerID room).Reach c)
    (hstep : Step roomID c event c') : (leaving roomID playerID room).Reach c' :=
  h.step hstep

/-- The creator leaves when its update is done. -/
theorem leaving_effective_late :
    let room := GameRoom.init "KEYS" "A"
    ∃ c, (leaving "1" "A" room).Reach c ∧ c.Settled ∧ c.rooms "1" = none ∧ c.Left "1" "A" := by
  intro room
  have hentered : (leaving "1" "A" room).Reach (.entered "1" room ⟨some "A", "", none⟩) :=
    reach_entered rfl
  have hread := reach_step (.read .join) hentered (Step.read rfl)
  have hcallback := reach_step (.callback .join 1) hread (Step.callback 1 rfl)
  have hwrite := reach_step (.write .join) hcallback (Step.write rfl)
  have htap := reach_step .tap hwrite (Step.tap rfl)
  have hquitRead := reach_step .quitRead htap (Step.quitRead rfl)
  have hquitWrite := reach_step .quitWrite hquitRead (Step.quitWrite rfl)
  have hread' := reach_step (.read .back) hquitWrite (Step.read rfl)
  have hcallback' := reach_step (.callback .back 2) hread' (Step.callback 2 rfl)
  have hwrite' := reach_step (.write .back) hcallback' (Step.write rfl)
  refine ⟨_, hwrite', ?settled, rfl, (leaving_effective (by decide) (.inl ⟨"KEYS", rfl⟩) hwrite'
    ?settled).mpr ⟨rfl, rfl, .inr rfl⟩⟩
  exact ⟨fun update => by cases update <;> rfl, rfl⟩

/-- The creator taps before the callback of its update: it is left in the room. -/
theorem leaving_effective_early :
    let room := GameRoom.init "KEYS" "A"
    ∃ c, (leaving "1" "A" room).Reach c ∧ c.Settled ∧ c.rooms "1" = some room ∧
      ¬ c.Left "1" "A" := by
  intro room
  have hentered : (leaving "1" "A" room).Reach (.entered "1" room ⟨some "A", "", none⟩) :=
    reach_entered rfl
  have htap := reach_step .tap hentered (Step.tap rfl)
  have hread := reach_step (.read .join) htap (Step.read rfl)
  have hcallback := reach_step (.callback .join 1) hread (Step.callback 1 rfl)
  have hwrite := reach_step (.write .join) hcallback (Step.write rfl)
  have hread' := reach_step (.read .back) hwrite (Step.read rfl)
  have hcallback' := reach_step (.callback .back 2) hread' (Step.callback 2 rfl)
  have hwrite' := reach_step (.write .back) hcallback' (Step.write rfl)
  refine ⟨_, hwrite', ⟨fun update => by cases update <;> rfl, rfl⟩, rfl, fun hleft => ?_⟩
  exact hleft.1 room rfl (by decide)

end Rooms

end IosGame
