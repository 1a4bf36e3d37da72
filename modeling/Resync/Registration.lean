import Resync.Lib.FiniteMap
import Resync.RecordedInstalls

/-! A subscribed checkout is registered again (`cli.rs`) while the daemon goes on
with it. The command takes the record from `catalog.json`, or materializes the
project again, and the daemon puts what it sends in the place of its own record. -/
namespace Resync

variable {Oid Task : Type}

/-- What the command uses of a `CatalogProject`. -/
structure CatalogProject where
  remoteUrl : String
  defaultBranch : Branch
  projectGeneration : ℕ

/-- What `project_create` writes into the record before it sends it. -/
def LocalProject.repaired (selected : CatalogProject) (service checkoutId : Option String)
    (record : LocalProject Oid) : LocalProject Oid :=
  { record with
    remoteUrl := selected.remoteUrl
    defaultBranch := selected.defaultBranch
    serverGeneration := selected.projectGeneration
    service := service
    checkoutId := checkoutId }

/-- What a re-registration must not undo. -/
inductive RecordField where
  | lastApplied (branch : Branch)
  | advertised (branch : Branch)
  | state
  | durability

/-- The two records agree in the field. -/
def RecordField.Same (p q : LocalProject Oid) : RecordField → Prop
  | .lastApplied b => q.lastAppliedHeads b = p.lastAppliedHeads b
  | .advertised b => q.advertisedHeads b = p.advertisedHeads b
  | .state => q.state = p.state
  | .durability => q.durability = p.durability

instance [DecidableEq Oid] (p q : LocalProject Oid) : DecidablePred (RecordField.Same p q)
  | .lastApplied b => inferInstanceAs (Decidable (q.lastAppliedHeads b = p.lastAppliedHeads b))
  | .advertised b => inferInstanceAs (Decidable (q.advertisedHeads b = p.advertisedHeads b))
  | .state => inferInstanceAs (Decidable (q.state = p.state))
  | .durability => inferInstanceAs (Decidable (q.durability = p.durability))

/-- Where the command stands. -/
inductive RegisterPlace (Oid : Type) where
  | idle
  /-- It holds the record that it has read in `catalog.json`. -/
  | copied (record : LocalProject Oid)
  | materializing
  | materialized (record : LocalProject Oid)

def RegisterPlace.sent : RegisterPlace Oid → Option (LocalProject Oid)
  | .copied record | .materialized record => some record
  | _ => none

/-- The last three fields only look back: whether the generation of the daemon's record
has risen since the file was written, or since the file that the command has read was,
and which fields the daemon has changed since the command has begun to read. -/
structure RegistrationWorld (Oid Task : Type) where
  daemon : DaemonWorld Oid Task
  file : List (LocalProject Oid)
  command : RegisterPlace Oid
  fileBehind : Bool
  copyBehind : Bool
  changed : RecordField → Bool

inductive RegistrationEvent (Oid Task : Type) where
  | daemon (e : DaemonEvent Oid Task)
  /-- An operation of the daemon writes the catalog. -/
  | persist
  | readCatalog (selected : CatalogProject) (service checkoutId : Option String)
  | materialize
  /-- With the answers of `fetch_remote`, `local_heads` and `current_branch`. -/
  | materialized (selected : CatalogProject) (hosted : FiniteMap Branch Oid)
      (checkoutHeads : Branch → Option Oid) (branch : Option Branch)
      (service checkoutId : Option String)
  | fail
  /-- The daemon handles the request. -/
  | register (generation : Option ℕ)

section Materialize

variable [DecidableEq Oid] (G : CommitGraph Oid)

/-- The head that `materialize_project` takes as applied of a hosted branch. -/
def selectedHead (checkoutHeads : Branch → Option Oid) (name : Branch) (remote : Oid) : Oid :=
  match checkoutHeads name with
  | some head => if head ≠ remote ∧ G.isAncestor head remote then head else remote
  | none => remote

/-- The record that `materialize_project` returns. -/
def materializedProject (id path : String) (selected : CatalogProject)
    (hosted : FiniteMap Branch Oid) (checkoutHeads : Branch → Option Oid)
    (branch : Option Branch) : LocalProject Oid where
  projectId := id
  localPath := path
  remoteUrl := selected.remoteUrl
  remoteName := "resync"
  defaultBranch := selected.defaultBranch
  serverGeneration := selected.projectGeneration
  advertisedHeads := hosted.get
  lastAppliedHeads name := (hosted.get name).map (selectedHead G checkoutHeads name)
  activeBranch := branch
  workspaceGeneration := if hosted.keys = ∅ then 0 else 1
  state := .current
  durability := .remotelyDurable
  conflict := none
  lastError := none
  service := none
  checkoutId := none

end Materialize

/-- The record of the project in this checkout. -/
def subscription (id path : String) (projects : List (LocalProject Oid)) :
    Option (LocalProject Oid) :=
  projects.find? fun p => p.projectId == id && p.localPath == path

section Records

variable {c c' : LocalCatalog Oid} {R : ℕ → LocalProject Oid → LocalProject Oid → Prop}

/-- A write is seen by a search that looks at nothing but the identity. -/
theorem Writes.subscription (h : Writes R c c') (hrefl : ∀ i p, R i p p)
    (hR : ∀ i p q, R i p q → q.identity = p.identity) (id path : String) :
    subscription id path c.projects = none ∧ subscription id path c'.projects = none ∨
      ∃ i p q, subscription id path c.projects = some p ∧
        subscription id path c'.projects = some q ∧ c.projects[i]? = some p ∧
        c'.projects[i]? = some q ∧ R i p q := by
  let test := fun p : LocalProject Oid => p.projectId == id && p.localPath == path
  have htest : ∀ i p q, R i p q → test q = test p := by
    intro i p q hr
    have hid := hR i p q hr
    show (q.projectId == id && q.localPath == path) = (p.projectId == id && p.localPath == path)
    rw [identity_projectId hid, identity_localPath hid]
  have hposition : c'.projects.findIdx? test = c.projects.findIdx? test := by
    rcases h with rfl | ⟨name, f, rfl, hf⟩
    · rfl
    · apply findIdx?_modifyFirst
      intro p hp
      obtain ⟨i, hi, hget⟩ := findProject_eq_some.mp hp
      exact htest i p (f p) (hf i p hi hget)
  have hfind : ∀ c : LocalCatalog Oid, Resync.subscription id path c.projects =
      (c.projects.findIdx? test).bind fun i => c.projects[i]? :=
    fun c => List.find?_eq_bind_findIdx?_getElem?
  rw [hfind, hfind, hposition]
  cases hi : c.projects.findIdx? test with
  | none => exact Or.inl ⟨rfl, rfl⟩
  | some i =>
    obtain ⟨hlt, -⟩ := List.findIdx?_eq_some_iff_getElem.mp hi
    have hp : c.projects[i]? = some c.projects[i] := List.getElem?_eq_getElem hlt
    obtain ⟨q, hq, hr⟩ := h.record hrefl hp
    exact Or.inr ⟨i, c.projects[i], q, hp, hq, hp, hq, hr⟩

/-- The request leaves one record of the project and the checkout, the one it sends. -/
theorem subscription_registerProject {record : LocalProject Oid} {generation : Option ℕ}
    {id path : String} (hid : record.projectId = id) (hpath : record.localPath = path) :
    subscription id path (registerProject c record generation).projects = some record := by
  have hnone : subscription id path (c.projects.filter fun item =>
      item.projectId != record.projectId && item.localPath != record.localPath) = none := by
    apply List.find?_eq_none.mpr
    intro item hitem hfound
    have hne := (List.mem_filter.mp hitem).2
    simp only [Bool.and_eq_true, bne_iff_ne] at hne
    simp only [Bool.and_eq_true, beq_iff_eq] at hfound
    exact hne.1 (hfound.1.trans hid.symm)
  have happ : subscription id path (registerProject c record generation).projects =
      (subscription id path (c.projects.filter fun item =>
        item.projectId != record.projectId && item.localPath != record.localPath)).or
        (subscription id path [record]) := List.find?_append
  rw [happ, hnone, Option.none_or]
  apply List.find?_cons_of_pos
  simp only [hid, hpath, BEq.rfl, Bool.and_self]

end Records

/-- No step of the daemon lowers a generation. -/
theorem DaemonWorld.subscription_step [DecidableEq Oid] [DecidableEq Task] {G : CommitGraph Oid}
    {d d' : DaemonWorld Oid Task} {e : DaemonEvent Oid Task}
    (h : ∀ task, SavedWorld.Expected (d.reconciling task)) (hs : d.step G e = some d')
    {id path : String} {p : LocalProject Oid}
    (hp : subscription id path d.publish.catalog.projects = some p) :
    ∃ q, subscription id path d'.publish.catalog.projects = some q ∧
      p.workspaceGeneration ≤ q.workspaceGeneration := by
  have hwrites := (step_writes hs).subscription (fun _ p => .keeps (KeepsResult.refl p))
    (fun _ _ _ => RecordStep.identity) id path
  rcases hwrites with ⟨hnone, -⟩ | ⟨i, p', q, hp', hq, hget, hget', -⟩
  · cases hnone.symm.trans hp
  · obtain rfl := Option.some.inj (hp'.symm.trans hp)
    have hgeneration := SavedWorld.step_generation h hs hget hget'
    refine ⟨q, hq, ?_⟩
    omega

namespace RegistrationWorld

/-- The record that the daemon has. -/
def record (id path : String) (w : RegistrationWorld Oid Task) : Option (LocalProject Oid) :=
  subscription id path w.daemon.publish.catalog.projects

/-- The daemon runs, and nothing has been read. -/
def initial (publish : PublishWorld Oid Task) : RegistrationWorld Oid Task where
  daemon := .initial publish
  file := publish.catalog.projects
  command := .idle
  fileBehind := false
  copyBehind := false
  changed _ := false

/-- Whether the generation rises. -/
def rises (before after : Option (LocalProject Oid)) : Bool :=
  match before, after with
  | some p, some q => decide (p.workspaceGeneration < q.workspaceGeneration)
  | _, _ => false

section Steps

variable [DecidableEq Oid]

/-- Whether the field changes. -/
def updates (before after : Option (LocalProject Oid)) (f : RecordField) : Bool :=
  match before, after with
  | some p, some q => decide (¬ RecordField.Same p q f)
  | _, _ => false

/-- The daemon goes on to `d`. -/
def moved (id path : String) (w : RegistrationWorld Oid Task) (d : DaemonWorld Oid Task) :
    RegistrationWorld Oid Task :=
  let after := subscription id path d.publish.catalog.projects
  { w with
    daemon := d
    fileBehind := w.fileBehind || rises (w.record id path) after
    copyBehind := w.copyBehind || rises (w.record id path) after
    changed := fun f => w.changed f || updates (w.record id path) after f }

/-- The daemon's catalog after the request. -/
def registered (w : RegistrationWorld Oid Task) (record : LocalProject Oid)
    (generation : Option ℕ) : DaemonWorld Oid Task :=
  w.daemon.setPublish { w.daemon.publish with
    catalog := registerProject w.daemon.publish.catalog record generation }

variable [DecidableEq Task] (G : CommitGraph Oid) (id path : String)

/-- The daemon is not restarted. -/
def step (w : RegistrationWorld Oid Task) :
    RegistrationEvent Oid Task → Option (RegistrationWorld Oid Task)
  | .daemon (.publish .restart) => none
  | .daemon e => (w.daemon.step G e).map (w.moved id path)
  | .persist => some { w with file := w.daemon.publish.catalog.projects, fileBehind := false }
  | .readCatalog selected service checkoutId =>
    match w.command, subscription id path w.file with
    | .idle, some record => some { w with
        command := .copied (record.repaired selected service checkoutId),
        copyBehind := w.fileBehind, changed := fun _ => false }
    | _, _ => none
  | .materialize =>
    match w.command with
    | .idle => some { w with command := .materializing, changed := fun _ => false }
    | _ => none
  | .materialized selected hosted checkoutHeads branch service checkoutId =>
    match w.command with
    | .materializing =>
      let record := materializedProject G id path selected hosted checkoutHeads branch
      some { w with command := .materialized (record.repaired selected service checkoutId) }
    | _ => none
  | .fail => some { w with command := .idle }
  | .register generation =>
    match w.command.sent with
    | some record =>
      some { w.moved id path (w.registered record generation) with command := .idle }
    | none => none

/-- The step registers the project. -/
def Registers : RegistrationEvent Oid Task → Prop
  | .register _ => True
  | _ => False

/-- The step does not lower the generation of the record, and a registration leaves what
the daemon has changed since the command began to read. -/
def KeepsUpdates (w : RegistrationWorld Oid Task) (e : RegistrationEvent Oid Task) : Prop :=
  ∀ w' p q, w.step G id path e = some w' → w.record id path = some p →
    w'.record id path = some q →
    p.workspaceGeneration ≤ q.workspaceGeneration ∧
      (Registers e → ∀ f, w.changed f = true → RecordField.Same p q f)

/-- The condition on a registration: since the catalog that was read has been written the
generation has not risen, or the materialized record is not behind it, and what is sent
agrees with the daemon in each field that the daemon has changed since. -/
def UpToDate (w : RegistrationWorld Oid Task) : RegistrationEvent Oid Task → Prop
  | .register _ => ∀ p, w.record id path = some p →
    match w.command with
    | .copied record =>
      w.copyBehind = false ∧ ∀ f, w.changed f = true → RecordField.Same p record f
    | .materialized record =>
      p.workspaceGeneration ≤ record.workspaceGeneration ∧
        ∀ f, w.changed f = true → RecordField.Same p record f
    | _ => True
  | _ => True

end Steps

/-- Whether the generation of the record `q` has risen since it was `p`. -/
def Behind (behind : Bool) (p q : LocalProject Oid) : Prop :=
  p.workspaceGeneration ≤ q.workspaceGeneration ∧
    (behind = true ↔ p.workspaceGeneration < q.workspaceGeneration)

structure Tracked (id path : String) (w : RegistrationWorld Oid Task) : Prop where
  reconciling : ∀ task, SavedWorld.Expected (w.daemon.reconciling task)
  sent : ∀ record, w.command.sent = some record →
    record.projectId = id ∧ record.localPath = path
  file : ∀ p, subscription id path w.file = some p →
    ∃ q, w.record id path = some q ∧ Behind w.fileBehind p q
  copy : ∀ p, w.command = .copied p → ∃ q, w.record id path = some q ∧ Behind w.copyBehind p q

theorem Behind.rises {behind : Bool} {p q r : LocalProject Oid} (h : Behind behind p q)
    (hle : q.workspaceGeneration ≤ r.workspaceGeneration) :
    Behind (behind || RegistrationWorld.rises (some q) (some r)) p r := by
  obtain ⟨hpq, hbehind⟩ := h
  refine ⟨hpq.trans hle, ?_⟩
  show (behind || decide (q.workspaceGeneration < r.workspaceGeneration)) = true ↔ _
  rw [Bool.or_eq_true, decide_eq_true_iff, hbehind]
  omega

theorem tracked_initial (publish : PublishWorld Oid Task) (id path : String) :
    (initial publish).Tracked id path where
  reconciling _ := trivial
  sent record h := by cases h
  file p hp := by
    refine ⟨p, hp, le_rfl, ?_⟩
    show (false = true) ↔ p.workspaceGeneration < p.workspaceGeneration
    simp only [Bool.false_eq_true, lt_self_iff_false]
  copy p h := by cases h

section Runs

variable [DecidableEq Oid] [DecidableEq Task] {G : CommitGraph Oid} {id path : String}
  {w w' : RegistrationWorld Oid Task} {e : RegistrationEvent Oid Task}

omit [DecidableEq Oid] [DecidableEq Task] in
/-- A command that holds no record. -/
theorem Tracked.leave (h : w.Tracked id path) {command : RegisterPlace Oid}
    (hcommand : command.sent = none) (changed : RecordField → Bool) :
    Tracked id path { w with command := command, changed := changed } where
  reconciling := h.reconciling
  sent record hsent := by cases hcommand.symm.trans hsent
  file := h.file
  copy p hcopy := by
    obtain rfl : command = .copied p := hcopy
    cases hcommand

omit [DecidableEq Task] in
/-- The daemon's record is followed as long as its generation does not fall. -/
theorem Tracked.moved (h : w.Tracked id path) {d : DaemonWorld Oid Task}
    (hd : ∀ task, SavedWorld.Expected (d.reconciling task))
    (hle : ∀ q, w.record id path = some q → ∃ r, subscription id path d.publish.catalog.projects =
      some r ∧ q.workspaceGeneration ≤ r.workspaceGeneration) :
    (w.moved id path d).Tracked id path where
  reconciling := hd
  sent := h.sent
  file p hp := by
    obtain ⟨q, hq, hbehind⟩ := h.file p hp
    obtain ⟨r, hr, hqr⟩ := hle q hq
    refine ⟨r, hr, ?_⟩
    have hmoved := hbehind.rises hqr
    rw [← hq, ← hr] at hmoved
    exact hmoved
  copy p hp := by
    obtain ⟨q, hq, hbehind⟩ := h.copy p hp
    obtain ⟨r, hr, hqr⟩ := hle q hq
    refine ⟨r, hr, ?_⟩
    have hmoved := hbehind.rises hqr
    rw [← hq, ← hr] at hmoved
    exact hmoved

theorem step_daemon {de : DaemonEvent Oid Task} (hs : w.step G id path (.daemon de) = some w') :
    ∃ d, w.daemon.step G de = some d ∧ w' = w.moved id path d := by
  have hmap : ∀ {o : Option (DaemonWorld Oid Task)}, o.map (w.moved id path) = some w' →
      ∃ d, o = some d ∧ w' = w.moved id path d := by
    intro o ho
    obtain ⟨d, hd, hw⟩ := Option.map_eq_some_iff.mp ho
    exact ⟨d, hd, hw.symm⟩
  cases de with
  | publish pe =>
    cases pe with
    | restart => cases hs
    | _ => exact hmap hs
  | reconcile task re => exact hmap hs

/-- A registration that is handled, and what it sends. -/
theorem step_register {generation : Option ℕ}
    (hs : w.step G id path (.register generation) = some w') :
    ∃ record, w.command.sent = some record ∧
      w' = { w.moved id path (w.registered record generation) with command := .idle } := by
  simp only [step] at hs
  split at hs
  · next record hrecord => exact ⟨record, hrecord, (Option.some.inj hs).symm⟩
  · cases hs

/-- The other steps of the command leave the daemon alone, and so does the daemon when
it writes the file. -/
theorem step_frame (hs : w.step G id path e = some w') (hdaemon : ∀ de, e ≠ .daemon de)
    (hreg : ¬ Registers e) : w'.daemon = w.daemon := by
  cases e with
  | daemon de => exact absurd rfl (hdaemon de)
  | register generation => exact absurd trivial hreg
  | persist | fail => exact Option.some.inj hs ▸ rfl
  | readCatalog | materialize | materialized =>
    simp only [step] at hs
    split at hs
    · exact Option.some.inj hs ▸ rfl
    · cases hs

omit [DecidableEq Oid] [DecidableEq Task] in
theorem Tracked.record_registered (h : w.Tracked id path) {record : LocalProject Oid}
    (hsent : w.command.sent = some record) (generation : Option ℕ) :
    subscription id path (w.registered record generation).publish.catalog.projects =
      some record := by
  obtain ⟨hid, hpath⟩ := h.sent record hsent
  exact subscription_registerProject hid hpath

omit [DecidableEq Oid] [DecidableEq Task] in
/-- The condition in terms of the record that is sent. -/
theorem Tracked.upToDate_register (h : w.Tracked id path) {p record : LocalProject Oid}
    {generation : Option ℕ} (hp : w.record id path = some p)
    (hsent : w.command.sent = some record) :
    w.UpToDate id path (.register generation) ↔
      p.workspaceGeneration ≤ record.workspaceGeneration ∧
        ∀ f, w.changed f = true → RecordField.Same p record f := by
  have hone : ∀ {P : LocalProject Oid → Prop}, (∀ q, w.record id path = some q → P q) ↔ P p := by
    intro P
    constructor
    · exact fun hall => hall p hp
    · intro hP q hq
      obtain rfl := Option.some.inj (hp.symm.trans hq)
      exact hP
  rw [UpToDate, hone]
  cases hcommand : w.command with
  | copied copy =>
    rw [hcommand] at hsent
    obtain rfl := Option.some.inj hsent
    obtain ⟨q, hq, hle, hbehind⟩ := h.copy copy hcommand
    obtain rfl := Option.some.inj (hp.symm.trans hq)
    have hnot : w.copyBehind = false ↔ p.workspaceGeneration ≤ copy.workspaceGeneration := by
      rw [← Bool.not_eq_true, hbehind]
      exact not_lt
    rw [hnot]
  | materialized copy =>
    rw [hcommand] at hsent
    obtain rfl := Option.some.inj hsent
    exact Iff.rfl
  | idle | materializing =>
    rw [hcommand] at hsent
    cases hsent

/-- A registration is up to date exactly when it keeps the generation and the updates. -/
theorem Tracked.keepsUpdates_iff (h : w.Tracked id path) :
    w.KeepsUpdates G id path e ↔ w.UpToDate id path e := by
  cases e with
  | register generation =>
    cases hp : w.record id path with
    | none =>
      constructor
      · intro _ p hp'
        cases hp.symm.trans hp'
      · intro _ w' p q _ hp'
        cases hp.symm.trans hp'
    | some p =>
      cases hsent : w.command.sent with
      | none =>
        constructor
        · intro _ p _
          cases hcommand : w.command with
          | copied | materialized =>
            rw [hcommand] at hsent
            cases hsent
          | _ => trivial
        · intro _ w' p q hs
          obtain ⟨record, hrecord, -⟩ := step_register hs
          cases hsent.symm.trans hrecord
      | some record =>
        have hafter := h.record_registered hsent generation
        rw [h.upToDate_register hp hsent]
        constructor
        · intro hkeeps
          have hstep : w.step G id path (.register generation) =
              some { w.moved id path (w.registered record generation) with command := .idle } := by
            simp only [step, hsent]
          have hboth := hkeeps _ p record hstep hp hafter
          exact ⟨hboth.1, hboth.2 trivial⟩
        · intro hok w' p' q hs hp' hq
          obtain rfl := Option.some.inj (hp.symm.trans hp')
          obtain ⟨record', hrecord, rfl⟩ := step_register hs
          obtain rfl := Option.some.inj (hsent.symm.trans hrecord)
          obtain rfl := Option.some.inj (hafter.symm.trans hq)
          exact ⟨hok.1, fun _ => hok.2⟩
  | daemon de =>
    refine iff_of_true ?_ trivial
    intro w' p q hs hp hq
    obtain ⟨d, hd, rfl⟩ := step_daemon hs
    obtain ⟨q', hq', hle⟩ := DaemonWorld.subscription_step h.reconciling hd hp
    obtain rfl := Option.some.inj (hq'.symm.trans hq)
    exact ⟨hle, fun hreg => hreg.elim⟩
  | persist | readCatalog | materialize | materialized | fail =>
    refine iff_of_true ?_ trivial
    intro w' p q hs hp hq
    have hdaemon := step_frame hs (by simp only [ne_eq, reduceCtorEq, not_false_eq_true,
      implies_true]) (fun h => h)
    rw [record, hdaemon] at hq
    obtain rfl := Option.some.inj (hp.symm.trans hq)
    exact ⟨le_rfl, fun hreg => hreg.elim⟩

/-- What one step that is up to date keeps. -/
theorem Tracked.step (h : w.Tracked id path) (hok : w.UpToDate id path e)
    (hs : RegistrationWorld.step G id path w e = some w') : w'.Tracked id path := by
  cases e with
  | daemon de =>
    obtain ⟨d, hd, rfl⟩ := step_daemon hs
    apply h.moved (SavedWorld.step_expected h.reconciling hd)
    intro q hq
    exact DaemonWorld.subscription_step h.reconciling hd hq
  | register generation =>
    obtain ⟨record, hsent, rfl⟩ := step_register hs
    have hafter := h.record_registered hsent generation
    have hmoved : (w.moved id path (w.registered record generation)).Tracked id path := by
      apply h.moved (d := w.registered record generation) h.reconciling
      intro q hq
      exact ⟨record, hafter, ((h.upToDate_register hq hsent).mp hok).1⟩
    exact hmoved.leave rfl _
  | persist =>
    obtain rfl := Option.some.inj hs
    refine ⟨h.reconciling, h.sent, ?_, h.copy⟩
    intro p hp
    refine ⟨p, hp, le_rfl, ?_⟩
    show (false = true) ↔ p.workspaceGeneration < p.workspaceGeneration
    simp only [Bool.false_eq_true, lt_self_iff_false]
  | readCatalog selected service checkoutId =>
    simp only [RegistrationWorld.step] at hs
    split at hs
    · next record hidle hrecord =>
      obtain rfl := Option.some.inj hs
      refine ⟨h.reconciling, ?_, h.file, ?_⟩
      · intro sent hsent
        obtain rfl := Option.some.inj hsent
        have hfound := List.find?_some hrecord
        simp only [Bool.and_eq_true, beq_iff_eq] at hfound
        exact hfound
      · intro copy hcopy
        obtain rfl := RegisterPlace.copied.inj hcopy
        exact h.file record hrecord
    · cases hs
  | materialize =>
    simp only [RegistrationWorld.step] at hs
    split at hs
    · obtain rfl := Option.some.inj hs
      exact h.leave rfl _
    · cases hs
  | materialized selected hosted checkoutHeads branch service checkoutId =>
    simp only [RegistrationWorld.step] at hs
    split at hs
    · obtain rfl := Option.some.inj hs
      refine ⟨h.reconciling, ?_, h.file, fun p hcopy => by cases hcopy⟩
      intro sent hsent
      obtain rfl := Option.some.inj hsent
      exact ⟨rfl, rfl⟩
    · cases hs
  | fail =>
    obtain rfl := Option.some.inj hs
    exact h.leave rfl _

/-- Over whole runs of the daemon and the command, whatever they do: the generation of the
project never falls and no registration undoes what the daemon has changed since the
command began to read, exactly when every registration is up to date. -/
theorem registration_keeps_updates_iff (publish : PublishWorld Oid Task)
    (es : List (RegistrationEvent Oid Task)) :
    Runs.Steps (RegistrationWorld.step G id path) (KeepsUpdates G id path) (initial publish) es ↔
      Runs.Steps (RegistrationWorld.step G id path) (UpToDate id path) (initial publish) es := by
  have hinitial := tracked_initial publish id path
  have hstep : ∀ (s : RegistrationWorld Oid Task) e t, s.Tracked id path → s.UpToDate id path e →
      RegistrationWorld.step G id path s e = some t → t.Tracked id path :=
    fun s e t h hok hs => h.step hok hs
  constructor
  · intro h
    have hkept : ∀ s e t, s.Tracked id path → KeepsUpdates G id path s e →
        RegistrationWorld.step G id path s e = some t → t.Tracked id path :=
      fun s e t htracked hkeeps hs => hstep s e t htracked (htracked.keepsUpdates_iff.mp hkeeps) hs
    apply Runs.Steps.of_invariant hkept ?_ hinitial h
    exact fun s e htracked hkeeps => htracked.keepsUpdates_iff.mp hkeeps
  · intro h
    apply Runs.Steps.of_invariant hstep ?_ hinitial h
    exact fun s e htracked hok => htracked.keepsUpdates_iff.mpr hok

end Runs

section OneProject

/-- The command reads the catalog; then the hosted branch moves to `3`, and a background
task installs it. -/
def readAndInstall (task : Fin 2) : List (RegistrationEvent ℕ (Fin 2)) :=
  .readCatalog ⟨"host/prj", "main", 0⟩ none none ::
    (installHosted task).map .daemon ++ [.persist]

/-- The generation of the record, and where it has its branch `main`. -/
def mainOf (p : LocalProject ℕ) : ℕ × Option ℕ × Option ℕ :=
  (p.workspaceGeneration, p.lastAppliedHeads "main", p.advertisedHeads "main")

/-- The registration takes the installed head back out of the record, and lowers its
generation from `2` to `1`. -/
theorem registration_undoes_reconciliation :
    (∃ u v, Runs.run (step pairGraph "prj" "/work") (initial currentMain) (readAndInstall 0) =
        some u ∧
      step pairGraph "prj" "/work" u (.register (some 1)) = some v ∧
      (u.record "prj" "/work").map mainOf = some (2, some 3, some 3) ∧
      (v.record "prj" "/work").map mainOf = some (1, some 1, some 1)) ∧
    ¬ Runs.Steps (step pairGraph "prj" "/work") (KeepsUpdates pairGraph "prj" "/work")
      (initial currentMain) (readAndInstall 0 ++ [.register (some 1)]) := by
  have htest : ((Runs.run (step pairGraph "prj" "/work") (initial currentMain)
      (readAndInstall 0)).bind fun u => (step pairGraph "prj" "/work" u (.register (some 1))).map
        fun v => [u, v].map fun w => (w.record "prj" "/work").map mainOf) =
      some [some (2, some 3, some 3), some (1, some 1, some 1)] := by decide +kernel
  obtain ⟨u, hu, hstep⟩ := Option.bind_eq_some_iff.mp htest
  obtain ⟨v, hv, hfields⟩ := Option.map_eq_some_iff.mp hstep
  obtain ⟨hbefore, hrest⟩ := List.cons.inj hfields
  have hafter := (List.cons.inj hrest).1
  refine ⟨⟨u, v, hu, hv, hbefore, hafter⟩, ?_⟩
  intro hkeeps
  obtain ⟨p, hp, hpfields⟩ := Option.map_eq_some_iff.mp hbefore
  obtain ⟨q, hq, hqfields⟩ := Option.map_eq_some_iff.mp hafter
  have hle := ((hkeeps.of_append.2 u hu).1 v p q hv hp hq).1
  have hp2 : p.workspaceGeneration = 2 := congrArg Prod.fst hpfields
  have hq1 : q.workspaceGeneration = 1 := congrArg Prod.fst hqfields
  omega

end OneProject

end RegistrationWorld

end Resync
