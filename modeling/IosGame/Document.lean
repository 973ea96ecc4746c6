import IosGame.System
import Mathlib.Data.List.Basic

/-!
# IosGame.Document

A shared document that clients update without transactions.  A request reads the
document and later writes the whole of it back, or deletes it; between the two the
requests of other clients read and write as they please.  `perform` runs such steps from
a list, and `serve` a request that nothing overlaps.

Whatever the documents and requests are:

* `Shared.forall_doc` — what every update keeps holds of every stored version, since
  it holds of every snapshot a write is computed from;
* `Shared.traced` — the same, where what holds of a version may speak of the requests
  completed so far, for requests that met a condition when they read;
* `Shared.serial` — if every write finds the document it was computed from, the
  requests act one after the other, and a deleted document is not stored again;
* `Shared.latched` — a property that updates keep once it holds stays, together with
  an order that updates respect, if no write that was read before lands after it.
-/

namespace IosGame

variable {D Q : Type}

/-- What a request does with the document it read. -/
inductive Write (D : Type) where
  /-- `setData(from:)` -/
  | set (d : D)
  | delete
  /-- nothing is written -/
  | keep

/-- A request that has read the document and not written it back.  `seen` are the
versions stored before it read. -/
structure Snapshot (Q D : Type) where
  request : Q
  read : D
  seen : List D

/-- The document, the requests in flight, and what happened so far: the versions
stored, whether the document was deleted, and the completed requests with what they
read, the latest first. -/
structure Shared (Q D : Type) where
  stored : Option D
  inFlight : List (Snapshot Q D)
  versions : List D
  deleted : Bool
  completed : List (Q × Option D)

namespace Shared

/-- A document that was just created. -/
def create (d : D) : Shared Q D where
  stored := some d
  inFlight := []
  versions := [d]
  deleted := false
  completed := []

/-- The two steps of a request. -/
inductive Act (Q D : Type) where
  | read (q : Q)
  | write (p : Snapshot Q D)

/-- The steps of the clients, `update` being what a request does with the document. -/
inductive Step (update : Q → D → Write D) : Shared Q D → Act Q D → Shared Q D → Prop where
  /-- the request will write -/
  | read {s : Shared Q D} {q : Q} {d : D} (hstored : s.stored = some d)
      (hwrite : update q d ≠ .keep) :
      Step update s (.read q) { s with inFlight := ⟨q, d, s.versions⟩ :: s.inFlight }
  /-- the request ends without a write -/
  | answer {s : Shared Q D} {q : Q} {d : D} (hstored : s.stored = some d)
      (hkeep : update q d = .keep) :
      Step update s (.read q) { s with completed := (q, some d) :: s.completed }
  /-- there is no document -/
  | missing {s : Shared Q D} {q : Q} (hstored : s.stored = none) :
      Step update s (.read q) { s with completed := (q, none) :: s.completed }
  | set {s : Shared Q D} {i : Nat} {p : Snapshot Q D} {d : D}
      (hp : s.inFlight[i]? = some p) (hset : update p.request p.read = .set d) :
      Step update s (.write p) { s with
        stored := some d
        inFlight := s.inFlight.eraseIdx i
        versions := d :: s.versions
        completed := (p.request, some p.read) :: s.completed }
  | delete {s : Shared Q D} {i : Nat} {p : Snapshot Q D}
      (hp : s.inFlight[i]? = some p) (hdelete : update p.request p.read = .delete) :
      Step update s (.write p) { s with
        stored := none
        inFlight := s.inFlight.eraseIdx i
        deleted := true
        completed := (p.request, some p.read) :: s.completed }

/-- A document created as `d`, and any number of requests. -/
def system (update : Q → D → Write D) (d : D) : System (Shared Q D) (Act Q D) where
  init s := s = create d
  step := Step update

variable {update : Q → D → Write D} {d₀ : D} {s s' : Shared Q D} {a : Act Q D}

/-! ## running requests -/

/-- One step of a run given as a list: a request reads, or the `i`-th request in flight
writes. -/
inductive Op (Q : Type) where
  | read (q : Q)
  | write (i : Nat)

/-- The step `op` takes. -/
def perform (update : Q → D → Write D) (s : Shared Q D) : Op Q → Shared Q D
  | .read q => match s.stored with
      | none => { s with completed := (q, none) :: s.completed }
      | some d => match update q d with
          | .keep => { s with completed := (q, some d) :: s.completed }
          | _ => { s with inFlight := ⟨q, d, s.versions⟩ :: s.inFlight }
  | .write i => match s.inFlight[i]? with
      | none => s
      | some p => match update p.request p.read with
          | .set d => { s with
              stored := some d
              inFlight := s.inFlight.eraseIdx i
              versions := d :: s.versions
              completed := (p.request, some p.read) :: s.completed }
          | .delete => { s with
              stored := none
              inFlight := s.inFlight.eraseIdx i
              deleted := true
              completed := (p.request, some p.read) :: s.completed }
          | .keep => s

theorem step_read (s : Shared Q D) (q : Q) :
    Step update s (.read q) (perform update s (.read q)) := by
  cases hstored : s.stored with
  | none => simpa only [perform, hstored] using Step.missing hstored
  | some d =>
      cases hupdate : update q d with
      | keep => simpa only [perform, hstored, hupdate] using Step.answer hstored hupdate
      | set d' =>
          have hwrite : update q d ≠ .keep := by simp [hupdate]
          simpa only [perform, hstored, hupdate] using Step.read hstored hwrite
      | delete =>
          have hwrite : update q d ≠ .keep := by simp [hupdate]
          simpa only [perform, hstored, hupdate] using Step.read hstored hwrite

theorem step_write (update : Q → D → Write D) {i : Nat} {p : Snapshot Q D}
    (hp : s.inFlight[i]? = some p) :
    perform update s (.write i) = s ∨ Step update s (.write p) (perform update s (.write i)) := by
  cases hupdate : update p.request p.read with
  | keep => exact .inl (by simp only [perform, hp, hupdate])
  | set d => exact .inr (by simpa only [perform, hp, hupdate] using Step.set hp hupdate)
  | delete => exact .inr (by simpa only [perform, hp, hupdate] using Step.delete hp hupdate)

theorem perform_write_none {i : Nat} (hp : s.inFlight[i]? = none) :
    perform update s (.write i) = s := by
  simp only [perform, hp]

/-- The steps of a list are steps of the system, also where only some are allowed. -/
theorem reach_perform {P : Shared Q D → Act Q D → Shared Q D → Prop}
    (h : ((system update d₀).only P).Reach s) (op : Op Q)
    (hread : ∀ q, op = .read q → P s (.read q) (perform update s op))
    (hwrite : ∀ i p, op = .write i → s.inFlight[i]? = some p →
      P s (.write p) (perform update s op)) :
    ((system update d₀).only P).Reach (perform update s op) := by
  cases op with
  | read q => exact h.step ⟨step_read s q, hread q rfl⟩
  | write i =>
      cases hp : s.inFlight[i]? with
      | none => exact (perform_write_none hp).symm ▸ h
      | some p =>
          rcases step_write update hp with hsame | hstep
          · exact hsame.symm ▸ h
          · exact h.step ⟨hstep, hwrite i p rfl hp⟩

/-- A run of the system. -/
theorem reach_foldl_perform (update : Q → D → Write D) (d₀ : D) (ops : List (Op Q)) :
    (system update d₀).Reach (ops.foldl (perform update) (create d₀)) := by
  suffices h : ∀ s, ((system update d₀).only fun _ _ _ => True).Reach s →
      ((system update d₀).only fun _ _ _ => True).Reach (ops.foldl (perform update) s) from
    (h _ (.init rfl)).of_only
  induction ops with
  | nil => exact fun _ h => h
  | cons op ops ih => exact fun s h => ih _ (reach_perform h op (by simp) (by simp))

/-- A request whose steps no other request overlaps. -/
def serve (update : Q → D → Write D) (s : Shared Q D) (q : Q) : Shared Q D :=
  perform update (perform update s (.read q)) (.write 0)

theorem perform_read_cases (update : Q → D → Write D) (s : Shared Q D) (q : Q) :
    (perform update s (.read q)).inFlight = s.inFlight ∨
      ∃ d, update q d ≠ .keep ∧ s.stored = some d ∧ perform update s (.read q) =
        { s with inFlight := ⟨q, d, s.versions⟩ :: s.inFlight } := by
  cases hstored : s.stored with
  | none => exact .inl (by simp only [perform, hstored])
  | some d =>
      cases hupdate : update q d with
      | keep => exact .inl (by simp only [perform, hstored, hupdate])
      | set d' => exact .inr ⟨d, by simp [hupdate], rfl, by simp only [perform, hstored, hupdate]⟩
      | delete => exact .inr ⟨d, by simp [hupdate], rfl, by simp only [perform, hstored, hupdate]⟩

theorem inFlight_perform_write {i : Nat} {p : Snapshot Q D} (hp : s.inFlight[i]? = some p)
    (hwrite : update p.request p.read ≠ .keep) :
    (perform update s (.write i)).inFlight = s.inFlight.eraseIdx i := by
  cases hupdate : update p.request p.read with
  | keep => exact absurd hupdate hwrite
  | set d => simp [perform, hp, hupdate]
  | delete => simp [perform, hp, hupdate]

/-- A request that nothing overlaps writes when the document is still what it read. -/
theorem reach_serve {P : Shared Q D → Act Q D → Shared Q D → Prop} (q : Q)
    (h : ((system update d₀).only P).Reach s) (hidle : s.inFlight = [])
    (hread : ∀ s', P s (.read q) s')
    (hwrite : ∀ t p t', t.stored = some p.read → p.seen = t.versions → p.request = q →
      P t (.write p) t') :
    ((system update d₀).only P).Reach (serve update s q) ∧ (serve update s q).inFlight = [] := by
  have hreach := reach_perform h (.read q) (fun q' hq' => by cases hq'; exact hread _) nofun
  rcases perform_read_cases update s q with hnone | ⟨d, hupdate, hstored, hsnapshot⟩
  · have hserve : serve update s q = perform update s (.read q) :=
      perform_write_none (by simp [hnone, hidle])
    rw [hserve, hnone]
    exact ⟨hreach, hidle⟩
  · have hp : (perform update s (.read q)).inFlight[0]? = some ⟨q, d, s.versions⟩ := by
      simp [hsnapshot]
    refine ⟨reach_perform hreach (.write 0) nofun fun i p hi hp' => ?_, ?_⟩
    · cases hi
      rw [hp] at hp'
      cases hp'
      exact hwrite _ _ _ (by simp [hsnapshot, hstored]) (by simp [hsnapshot]) rfl
    · rw [serve, inFlight_perform_write hp hupdate, hsnapshot, hidle]
      rfl

/-! ## what every version is -/

/-- `P` holds of the document, of its versions and of the snapshots in flight. -/
structure All (P : D → Prop) (s : Shared Q D) : Prop where
  stored : ∀ d, s.stored = some d → P d
  versions : ∀ d ∈ s.versions, P d
  inFlight : ∀ p ∈ s.inFlight, P p.read

/-- Each request that reads a document meets `C` with it. -/
def Reads (C : Q → D → Prop) (s : Shared Q D) (a : Act Q D) (_ : Shared Q D) : Prop :=
  ∀ q d, a = .read q → s.stored = some d → C q d

/-- The versions and the snapshots satisfy `P` with what was completed so far, and the
requests in flight met `C` when they read. -/
structure Traced (C : Q → D → Prop) (P : List (Q × Option D) → D → Prop) (s : Shared Q D) :
    Prop where
  all : All (P s.completed) s
  inFlight : ∀ p ∈ s.inFlight, C p.request p.read

section Traced

variable {C : Q → D → Prop} {P : List (Q × Option D) → D → Prop}

theorem All.mono {P P' : D → Prop} (h : All P s) (hmono : ∀ d, P d → P' d) : All P' s :=
  ⟨fun d hd => hmono d (h.stored d hd), fun d hd => hmono d (h.versions d hd),
    fun p hp => hmono _ (h.inFlight p hp)⟩

theorem Traced.step (hmono : ∀ r completed d, P completed d → P (r :: completed) d)
    (hupdate : ∀ q d d' completed, C q d → P completed d → update q d = .set d' →
      P ((q, some d) :: completed) d')
    (h : Traced C P s) (hstep : Step update s a s') (hreads : Reads C s a s') :
    Traced C P s' := by
  cases hstep with
  | @read q d hstored hwrite =>
      refine ⟨⟨h.all.stored, h.all.versions, fun p hp => ?_⟩, fun p hp => ?_⟩
      · rcases List.mem_cons.mp hp with rfl | hp
        · exact h.all.stored d hstored
        · exact h.all.inFlight p hp
      · rcases List.mem_cons.mp hp with rfl | hp
        · exact hreads q d rfl hstored
        · exact h.inFlight p hp
  | @answer q d hstored hkeep =>
      have hall := h.all.mono fun d' => hmono (q, some d) s.completed d'
      exact ⟨⟨hall.stored, hall.versions, hall.inFlight⟩, h.inFlight⟩
  | @missing q hstored =>
      have hall := h.all.mono fun d => hmono (q, none) s.completed d
      exact ⟨⟨hall.stored, hall.versions, hall.inFlight⟩, h.inFlight⟩
  | @set i p d hp hset =>
      have hmem := List.mem_of_getElem? hp
      have hd := hupdate _ _ _ _ (h.inFlight p hmem) (h.all.inFlight p hmem) hset
      have hall := h.all.mono fun d => hmono (p.request, some p.read) s.completed d
      refine ⟨⟨fun d' hd' => ?_, fun d' hd' => ?_, fun q hq => ?_⟩, fun q hq => ?_⟩
      · obtain rfl : d = d' := by simpa using hd'
        exact hd
      · rcases List.mem_cons.mp hd' with rfl | hd'
        · exact hd
        · exact hall.versions d' hd'
      · exact hall.inFlight q (List.mem_of_mem_eraseIdx hq)
      · exact h.inFlight q (List.mem_of_mem_eraseIdx hq)
  | @delete i p hp hdelete =>
      have hall := h.all.mono fun d => hmono (p.request, some p.read) s.completed d
      exact ⟨⟨by simp, hall.versions, fun q hq => hall.inFlight q (List.mem_of_mem_eraseIdx hq)⟩,
        fun q hq => h.inFlight q (List.mem_of_mem_eraseIdx hq)⟩

/-- **Trace rule**: what holds of the document created, stays true as requests complete, and
is kept by the update of a request that met `C`, holds of every version, with what was
completed so far, under any interleaving of such requests. -/
theorem traced (hcreate : P [] d₀) (hmono : ∀ r completed d, P completed d → P (r :: completed) d)
    (hupdate : ∀ q d d' completed, C q d → P completed d → update q d = .set d' →
      P ((q, some d) :: completed) d')
    (h : ((system update d₀).only (Reads C)).Reach s) : Traced C P s := by
  refine h.invariant (fun s hs => ?_) fun s a s' _ ih hstep =>
    ih.step hmono hupdate hstep.1 hstep.2
  obtain rfl : s = create d₀ := hs
  exact ⟨⟨by simp [create, hcreate], by simp [create, hcreate], by simp [create]⟩, by simp [create]⟩

end Traced

/-- **Document rule**: what holds of the document created, and is kept by every update,
holds of every version under any interleaving. -/
theorem forall_doc {P : D → Prop} (hcreate : P d₀)
    (hupdate : ∀ q d d', P d → update q d = .set d' → P d')
    (h : (system update d₀).Reach s) : All P s :=
  (traced (C := fun _ _ => True) (P := fun _ => P) hcreate (fun _ _ _ hd => hd)
    (fun q d d' _ _ hd hset => hupdate q d d' hd hset)
    (h.only fun _ _ _ _ _ _ _ _ => trivial)).all

/-! ## writes that find what they were computed from -/

/-- A write finds the document it was computed from. -/
def Fresh (s : Shared Q D) (a : Act Q D) (_ : Shared Q D) : Prop :=
  ∀ p, a = .write p → s.stored = some p.read

/-- A request that reads and writes at once. -/
def atomically (update : Q → D → Write D) (q : Q) : Option D → Option D
  | none => none
  | some d => match update q d with
      | .set d' => some d'
      | .delete => none
      | .keep => some d

theorem atomically_set {q : Q} {d d' : D} (h : update q d = .set d') :
    atomically update q (some d) = some d' := by
  simp only [atomically, h]

theorem atomically_delete {q : Q} {d : D} (h : update q d = .delete) :
    atomically update q (some d) = none := by
  simp only [atomically, h]

theorem atomically_keep {q : Q} {d : D} (h : update q d = .keep) :
    atomically update q (some d) = some d := by
  simp only [atomically, h]

/-- The document left by a request is the one it stored, or the one it kept. -/
theorem atomically_eq_some {q : Q} {d d' : D} :
    atomically update q (some d) = some d' ↔
      update q d = .set d' ∨ update q d = .keep ∧ d = d' := by
  cases hupdate : update q d with
  | set e => simp [atomically_set hupdate]
  | delete => simp [atomically_delete hupdate]
  | keep => simp [atomically_keep hupdate]

theorem atomically_eq_none {q : Q} {d : D} :
    atomically update q (some d) = none ↔ update q d = .delete := by
  cases hupdate : update q d with
  | set e => simp [atomically_set hupdate]
  | delete => simp [atomically_delete hupdate]
  | keep => simp [atomically_keep hupdate]

/-- A request that nothing overlaps is executed at once. -/
theorem serve_spec (update : Q → D → Write D) {s : Shared Q D} (q : Q) (hidle : s.inFlight = []) :
    (serve update s q).stored = atomically update q s.stored ∧
      (serve update s q).completed = (q, s.stored) :: s.completed ∧
      (serve update s q).inFlight = [] := by
  cases hstored : s.stored with
  | none => simp [serve, perform, hstored, hidle, atomically]
  | some d =>
      cases hupdate : update q d with
      | keep => simp [serve, perform, hstored, hidle, atomically, hupdate]
      | set d' => simp [serve, perform, hstored, hidle, atomically, hupdate]
      | delete => simp [serve, perform, hstored, hidle, atomically, hupdate]

/-- `I` holds of the document and the completed requests, a deleted document is gone, and
the requests in flight met `C` when they read. -/
structure InOrder (C : Q → Option D → Prop) (I : Option D → List (Q × Option D) → Prop)
    (s : Shared Q D) : Prop where
  holds : I s.stored s.completed
  gone : s.deleted = true → s.stored = none
  inFlight : ∀ p ∈ s.inFlight, C p.request (some p.read)

section InOrder

variable {C : Q → Option D → Prop} {I : Option D → List (Q × Option D) → Prop}

theorem InOrder.step
    (hatomic : ∀ q o completed, C q o → I o completed →
      I (atomically update q o) ((q, o) :: completed))
    (h : InOrder C I s) (hstep : Step update s a s') (hfresh : Fresh s a s')
    (hread : ∀ q, a = .read q → C q s.stored) : InOrder C I s' := by
  cases hstep with
  | @read q d hstored hwrite =>
      refine ⟨h.holds, h.gone, fun p hp => ?_⟩
      rcases List.mem_cons.mp hp with rfl | hp
      · rw [← hstored]
        exact hread q rfl
      · exact h.inFlight p hp
  | @answer q d hstored hkeep =>
      have hdone := hatomic q _ _ (hread q rfl) h.holds
      rw [hstored, atomically_keep hkeep, ← hstored] at hdone
      exact ⟨hstored ▸ hdone, h.gone, h.inFlight⟩
  | @missing q hstored =>
      have hdone := hatomic q _ _ (hread q rfl) h.holds
      rw [hstored] at hdone
      exact ⟨hstored.symm ▸ hdone, h.gone, h.inFlight⟩
  | @set i p d hp hset =>
      have hstored : s.stored = some p.read := hfresh p rfl
      have hdone := hatomic p.request _ _ (h.inFlight p (List.mem_of_getElem? hp))
        (hstored ▸ h.holds)
      rw [atomically_set hset] at hdone
      refine ⟨hdone, fun hdeleted => ?_, fun q hq => h.inFlight q (List.mem_of_mem_eraseIdx hq)⟩
      rw [h.gone hdeleted] at hstored
      cases hstored
  | @delete i p hp hdelete =>
      have hstored : s.stored = some p.read := hfresh p rfl
      have hdone := hatomic p.request _ _ (h.inFlight p (List.mem_of_getElem? hp))
        (hstored ▸ h.holds)
      rw [atomically_delete hdelete] at hdone
      exact ⟨hdone, fun _ => rfl, fun q hq => h.inFlight q (List.mem_of_mem_eraseIdx hq)⟩

/-- **Serial rule**: in runs whose writes are fresh and whose requests meet `C` when they
read, what holds initially and of each request executed at once, after the completed
ones, holds at every moment; and a deleted document is gone. -/
theorem serial (hcreate : I (some d₀) [])
    (hatomic : ∀ q o completed, C q o → I o completed →
      I (atomically update q o) ((q, o) :: completed))
    (h : ((system update d₀).only fun s a s' =>
      Fresh s a s' ∧ ∀ q, a = .read q → C q s.stored).Reach s) : InOrder C I s := by
  refine h.invariant (fun s hs => ?_) fun s a s' _ ih hstep =>
    ih.step hatomic hstep.1 hstep.2.1 hstep.2.2
  obtain rfl : s = create d₀ := hs
  exact ⟨hcreate, by simp [create], by simp [create]⟩

end InOrder

/-! ## a property that stays -/

/-- A document that lands once `L` held of a version was computed from one read since. -/
def Current (update : Q → D → Write D) (L : D → Prop) (s : Shared Q D) (a : Act Q D)
    (_ : Shared Q D) : Prop :=
  ∀ p d, a = .write p → update p.request p.read = .set d → (∃ v ∈ s.versions, L v) →
    ∃ v ∈ p.seen, L v

/-- `v` is the first of the versions to satisfy `L`, and `later` are those after it. -/
def First (L : D → Prop) (versions : List D) (v : D) (later : List D) : Prop :=
  ∃ before, versions = later ++ v :: before ∧ L v ∧ ∀ b ∈ before, ¬ L b

theorem First.mem {L : D → Prop} {l : List D} {v : D} {later : List D} (h : First L l v later) :
    v ∈ l ∧ L v := by
  obtain ⟨before, rfl, hv, -⟩ := h
  exact ⟨by simp, hv⟩

/-- The first version to satisfy `L` is the one just stored, or was stored before. -/
theorem first_cons {L : D → Prop} {d v : D} {l later : List D} (h : First L (d :: l) v later) :
    (later = [] ∧ v = d ∧ L d ∧ ∀ b ∈ l, ¬ L b) ∨
      ∃ later', later = d :: later' ∧ First L l v later' := by
  obtain ⟨before, heq, hv, hbefore⟩ := h
  cases later with
  | nil =>
      obtain ⟨rfl, rfl⟩ : d = v ∧ l = before := by simpa using heq
      exact .inl ⟨rfl, rfl, hv, hbefore⟩
  | cons e later' =>
      obtain ⟨rfl, rfl⟩ : d = e ∧ l = later' ++ v :: before := by simpa using heq
      exact .inr ⟨later', rfl, before, rfl, hv, hbefore⟩

/-- From the first version on that satisfies `L`, all versions, the document and the
snapshots read since satisfy `L` and are `R`-related to it. -/
structure Latched (L : D → Prop) (R : D → D → Prop) (s : Shared Q D) : Prop where
  versions : ∀ v later, First L s.versions v later → ∀ w ∈ later, L w ∧ R v w
  stored : ∀ v later, First L s.versions v later → ∀ d, s.stored = some d → L d ∧ R v d
  inFlight : ∀ v later, First L s.versions v later →
    ∀ p ∈ s.inFlight, (∃ x ∈ p.seen, L x) → L p.read ∧ R v p.read
  seen : ∀ p ∈ s.inFlight, ∀ x ∈ p.seen, x ∈ s.versions

section Latched

variable {L : D → Prop} {R : D → D → Prop}

theorem Latched.set (refl : ∀ d, R d d) (trans : ∀ d e f, R d e → R e f → R d f)
    (hupdate : ∀ q d d', L d → update q d = .set d' → L d' ∧ R d d') (h : Latched L R s)
    {i : Nat} {p : Snapshot Q D} {d : D} (hp : s.inFlight[i]? = some p)
    (hset : update p.request p.read = .set d)
    (hcurrent : (∃ v ∈ s.versions, L v) → ∃ v ∈ p.seen, L v) :
    Latched L R { s with
      stored := some d
      inFlight := s.inFlight.eraseIdx i
      versions := d :: s.versions
      completed := (p.request, some p.read) :: s.completed } := by
  -- a write after the first version that satisfies `L` keeps `L` and `R`
  have hwrite : ∀ v later, First L s.versions v later → L d ∧ R v d := by
    intro v later hfirst
    obtain ⟨hL, hR⟩ := h.inFlight v later hfirst p (List.mem_of_getElem? hp)
      (hcurrent ⟨v, hfirst.mem⟩)
    obtain ⟨hLd, hRd⟩ := hupdate _ _ _ hL hset
    exact ⟨hLd, trans _ _ _ hR hRd⟩
  constructor
  · intro v later hfirst w hw
    rcases first_cons hfirst with ⟨rfl, rfl, -, -⟩ | ⟨later', rfl, hfirst'⟩
    · cases hw
    · rcases List.mem_cons.mp hw with rfl | hw
      · exact hwrite v later' hfirst'
      · exact h.versions v later' hfirst' w hw
  · intro v later hfirst d' hd'
    obtain rfl : d = d' := by simpa using hd'
    rcases first_cons hfirst with ⟨rfl, rfl, hL, -⟩ | ⟨later', rfl, hfirst'⟩
    · exact ⟨hL, refl _⟩
    · exact hwrite v later' hfirst'
  · intro v later hfirst q hq hseen
    have hq' := List.mem_of_mem_eraseIdx hq
    rcases first_cons hfirst with ⟨rfl, rfl, -, hnone⟩ | ⟨later', rfl, hfirst'⟩
    · obtain ⟨x, hx, hLx⟩ := hseen
      exact absurd hLx (hnone x (h.seen q hq' x hx))
    · exact h.inFlight v later' hfirst' q hq' hseen
  · intro q hq x hx
    exact List.mem_cons_of_mem _ (h.seen q (List.mem_of_mem_eraseIdx hq) x hx)

theorem Latched.step (refl : ∀ d, R d d) (trans : ∀ d e f, R d e → R e f → R d f)
    (hupdate : ∀ q d d', L d → update q d = .set d' → L d' ∧ R d d') (h : Latched L R s)
    (hstep : Step update s a s') (hcurrent : Current update L s a s') : Latched L R s' := by
  cases hstep with
  | @read q d hstored hwrite =>
      refine ⟨h.versions, h.stored, fun v later hfirst p hp hseen => ?_, fun p hp x hx => ?_⟩
      · rcases List.mem_cons.mp hp with rfl | hp
        · exact h.stored v later hfirst d hstored
        · exact h.inFlight v later hfirst p hp hseen
      · rcases List.mem_cons.mp hp with rfl | hp
        · exact hx
        · exact h.seen p hp x hx
  | answer => exact ⟨h.versions, h.stored, h.inFlight, h.seen⟩
  | missing => exact ⟨h.versions, h.stored, h.inFlight, h.seen⟩
  | @set i p d hp hset =>
      exact h.set refl trans hupdate hp hset (hcurrent p d rfl hset)
  | delete hp hdelete =>
      exact ⟨h.versions, by simp, fun v later hfirst q hq => h.inFlight v later hfirst q
        (List.mem_of_mem_eraseIdx hq), fun q hq => h.seen q (List.mem_of_mem_eraseIdx hq)⟩

/-- **Latch rule**: if updates keep `L` once it holds and move along `R`, then all versions
after the first that satisfies `L` do and are `R`-related to it, in runs that write no
document computed from one read before it. -/
theorem latched (refl : ∀ d, R d d) (trans : ∀ d e f, R d e → R e f → R d f)
    (hupdate : ∀ q d d', L d → update q d = .set d' → L d' ∧ R d d')
    (h : ((system update d₀).only (Current update L)).Reach s) : Latched L R s := by
  refine h.invariant (fun s hs => ?_) fun s a s' _ ih hstep =>
    ih.step refl trans hupdate hstep.1 hstep.2
  obtain rfl : s = create d₀ := hs
  constructor
  · intro v later hfirst w hw
    rcases first_cons hfirst with ⟨rfl, -⟩ | ⟨later', -, before, heq, -⟩
    · cases hw
    · simp at heq
  · intro v later hfirst d hd
    obtain rfl : d₀ = d := by simpa [create] using hd
    rcases first_cons hfirst with ⟨-, rfl, hL, -⟩ | ⟨later', -, before, heq, -⟩
    · exact ⟨hL, refl _⟩
    · simp at heq
  · simp [create]
  · simp [create]

end Latched

end Shared

end IosGame
