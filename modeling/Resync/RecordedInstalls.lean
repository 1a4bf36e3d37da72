import Resync.LastAppliedRuns
import Resync.TransactionsDirectory

/-! The installations of a run against the catalog and `catalog.json`. An
installation is recorded when the call that has moved the branch comes to the
write of the catalog; everything that may fail before it loses the record. -/
namespace Resync

variable {Oid Task : Type}

/-- What a call does under exclusive ownership. -/
inductive InstallAttempt where
  /-- The call fails before the branch moves. If its candidate is not wanted any
  more, `discarded` is whether it can be discarded. -/
  | failed (discarded : Bool)
  | retry (detail : String) (persisted : Bool)
  | conflict (detail : String) (paths : List String) (persisted : Bool)
  /-- The branch moves. -/
  | moved (aftermath : Aftermath)

namespace InstallAttempt

def installed : InstallAttempt → Installed
  | .failed _ => .failed false
  | .retry detail _ => .retry detail
  | .conflict detail paths _ => .conflict detail paths
  | .moved a => a.installed

/-- Whether the conflicts that are resolved can be cleared, or the candidate
discarded. -/
def cleared (projectPath : String) : InstallAttempt → Bool
  | .failed discarded => discarded
  | .retry .. | .conflict .. => true
  | .moved a => a.cleared projectPath

def persisted : InstallAttempt → Bool
  | .failed _ => true
  | .retry _ persisted | .conflict _ _ persisted => persisted
  | .moved a => a.persisted

def event {Oid : Type} (projectPath : String) (a : InstallAttempt) : ReconcileEvent Oid :=
  .install a.installed (a.cleared projectPath) a.persisted

/-- An attempt is applied if it moves the branch, and then only if everything
up to the merge goes well. -/
theorem applied_cases {Oid : Type} {candidate : PreparedInstall Oid} {a : InstallAttempt}
    {result : ReconcileResult Oid} (h : a.installed.result candidate = some result)
    (happlied : result.outcome = .applied) :
    ∃ aftermath, a = .moved aftermath ∧ aftermath.finalizes = true ∧
      aftermath.diff.isSome = true := by
  cases a with
  | failed discarded => cases h
  | retry detail persisted | conflict detail paths persisted =>
    obtain rfl := Option.some.inj h
    cases happlied
  | moved aftermath =>
    simp only [installed, Aftermath.installed] at h
    split at h
    · next hfinalizes =>
      split at h
      · next changedPaths hdiff => exact ⟨aftermath, rfl, hfinalizes, by rw [hdiff]; rfl⟩
      · cases h
    · cases h

theorem applied_of_finalizes {Oid : Type} (candidate : PreparedInstall Oid) {a : Aftermath}
    (hfinalizes : a.finalizes = true) (hdiff : a.diff.isSome = true) :
    ∃ result, (InstallAttempt.moved a).installed.result candidate = some result ∧
      result.outcome = .applied := by
  obtain ⟨changedPaths, hpaths⟩ := Option.isSome_iff_exists.mp hdiff
  simp only [installed, Aftermath.installed, hfinalizes, hpaths, ↓reduceIte]
  exact ⟨_, rfl, rfl⟩

end InstallAttempt

/-- The daemon with `catalog.json`; `installs`, by the position of a project in
the catalog, counts the branches that installations have moved. -/
structure SavedWorld (Oid Task : Type) where
  daemon : DaemonWorld Oid Task
  saved : LocalCatalog Oid
  installs : ℕ → ℕ

inductive SavedEvent (Oid Task : Type) where
  /-- Any other step; `saves` is whether it writes `catalog.json`. -/
  | daemon (e : DaemonEvent Oid Task) (saves : Bool)
  | install (task : Option Task) (attempt : InstallAttempt)

namespace SavedWorld

def initial (publish : PublishWorld Oid Task) : SavedWorld Oid Task :=
  ⟨.initial publish, publish.catalog, fun _ => 0⟩

/-- One more installation of the project at a position, if there is one. -/
def countMove (installs : ℕ → ℕ) : Option ℕ → ℕ → ℕ
  | none => installs
  | some i => Function.update installs i (installs i + 1)

theorem countMove_apply (installs : ℕ → ℕ) (moved : Option ℕ) (i : ℕ) :
    countMove installs moved i = installs i + if moved = some i then 1 else 0 := by
  cases moved with
  | none => rfl
  | some j =>
    by_cases hij : j = i
    · subst hij
      rw [if_pos rfl]
      exact Function.update_self ..
    · have hne : ¬ some j = some i := fun h => hij (Option.some.inj h)
      rw [if_neg hne]
      exact Function.update_of_ne (Ne.symm hij) ..

/-- The local path of the clone that a prepared call has. -/
def clonePath (w : SavedWorld Oid Task) (task : Option Task) : String :=
  match w.daemon.reconciling task with
  | .prepared _ _ p _ => p.staged.localPath
  | _ => ""

def installEvent (w : SavedWorld Oid Task) (task : Option Task) (attempt : InstallAttempt) :
    DaemonEvent Oid Task := .reconcile task (attempt.event (w.clonePath task))

section Steps

variable [DecidableEq Oid]

/-- Whether a step writes `catalog.json`. A merge says so itself. -/
def writesCatalog (w : SavedWorld Oid Task) (e : DaemonEvent Oid Task) (saves : Bool) : Bool :=
  match w.daemon.merging e with
  | some m => m.persisted
  | none => saves

/-- The position of the project whose branch a step moves. -/
def movedProject (w : SavedWorld Oid Task) (task : Option Task) (attempt : InstallAttempt) :
    Option ℕ :=
  match w.daemon.reconciling task with
  | .prepared _ name _ _ =>
    if (w.daemon.sets (w.installEvent task attempt)).isSome then w.daemon.position name else none
  | _ => none

variable [DecidableEq Task] (G : CommitGraph Oid)

/-- A step that is not an installation. A new daemon starts from `catalog.json`. -/
def daemonStep (w : SavedWorld Oid Task) (e : DaemonEvent Oid Task) (saves : Bool) :
    Option (SavedWorld Oid Task) :=
  match e with
  | .reconcile _ (.install ..) => none
  | .publish .restart => (w.daemon.step G (.publish .restart)).map fun d =>
      { w with daemon := d.setPublish { d.publish with catalog := w.saved } }
  | e => (w.daemon.step G e).map fun d =>
      { w with
        daemon := d,
        saved := if w.writesCatalog e saves then d.publish.catalog else w.saved }

def step (w : SavedWorld Oid Task) : SavedEvent Oid Task → Option (SavedWorld Oid Task)
  | .daemon e saves => w.daemonStep G e saves
  | .install task attempt =>
    (w.daemon.step G (w.installEvent task attempt)).map fun d => {
      daemon := d
      saved :=
        if w.writesCatalog (w.installEvent task attempt) false then d.publish.catalog
        else w.saved
      installs := countMove w.installs (w.movedProject task attempt) }

/-- After the step the catalog and `catalog.json` say that the target is applied
of the branch, in a generation that has grown by one. -/
def Records (w w' : SavedWorld Oid Task) (i : ℕ) (branch : Branch) (target : Oid) : Prop :=
  ∃ p q saved, w.daemon.publish.catalog.projects[i]? = some p ∧
    w'.daemon.publish.catalog.projects[i]? = some q ∧ w'.saved.projects[i]? = some saved ∧
    q.workspaceGeneration = p.workspaceGeneration + 1 ∧
    q.lastAppliedHeads branch = some target ∧
    saved.workspaceGeneration = q.workspaceGeneration ∧
    saved.lastAppliedHeads branch = some target

/-- When a call that has come to its installation returns, the branch has moved
exactly if this is recorded. -/
def RecordsInstall (w : SavedWorld Oid Task) : SavedEvent Oid Task → Prop
  | .install task attempt => ∀ w', w.step G (.install task attempt) = some w' →
      ∀ caller name p candidate, w.daemon.reconciling task = .prepared caller name p candidate →
        ∀ i, w.daemon.position name = some i →
          (w.movedProject task attempt = some i ↔ Records w w' i p.branch p.target)
  | .daemon .. => True

/-- If the branch moves, nothing after it fails. -/
def CompletesInstall (w : SavedWorld Oid Task) : SavedEvent Oid Task → Prop
  | .install task (.moved a) =>
    (∃ w', w.step G (.install task (.moved a)) = some w') →
      (w.movedProject task (.moved a)).isSome → a.Completes (w.clonePath task)
  | _ => True

end Steps

/-- What a result that waits for its merge says of the generation. -/
def Expected : Reconciliation Oid → Prop
  | .complete _ _ staged result expected _ _ =>
    staged.workspaceGeneration = expected ∧ result.outcome ≠ .applied
  | .prepared _ _ p _ => p.staged.workspaceGeneration = p.expectedGeneration
  | _ => True

section Generations

variable [DecidableEq Oid]

/-- The position of the project into which a step merges an installation. -/
def applies (w : DaemonWorld Oid Task) (e : DaemonEvent Oid Task) : Option ℕ :=
  (w.merging e).bind fun m => if m.outcome = .applied then w.position m.name else none

variable {G : CommitGraph Oid} {w w' : DaemonWorld Oid Task} {e : DaemonEvent Oid Task}

/-- A merge raises the generation by one if it is of an installation. -/
theorem merging_generation (h : ∀ task, Expected (w.reconciling task)) {m : Merging Oid}
    (hm : w.merging e = some m) {p : LocalProject Oid}
    (hp : findProject w.publish.catalog m.name = some p) :
    m.staged.workspaceGeneration =
      p.workspaceGeneration + if m.outcome = .applied then 1 else 0 := by
  rcases DaemonWorld.merging_cases hm with ⟨task, persisted, caller, name, staged, result,
      expected, branch, target, project, -, hplace, hproject, hstill, rfl⟩ |
    ⟨task, installed, cleared, persisted, caller, name, p', candidate, project, result, staged, -,
      hplace, hproject, hwanted, -, happly, rfl⟩
  · obtain rfl := Option.some.inj (hproject.symm.trans hp)
    have hexpected := h task
    rw [hplace] at hexpected
    obtain ⟨hgen, hnot⟩ := hexpected
    simp only [DaemonWorld.stillComplete, Bool.and_eq_true, beq_iff_eq] at hstill
    rw [if_neg hnot, Nat.add_zero, hstill.1]
    exact hgen
  · obtain rfl := Option.some.inj (hproject.symm.trans hp)
    have hexpected := h task
    rw [hplace] at hexpected
    simp only [AccessWorld.stillWanted, Bool.and_eq_true, beq_iff_eq] at hwanted
    have hgen := applyReconciliationResult_workspaceGeneration happly
    have hstaged : p'.staged.workspaceGeneration = project.workspaceGeneration :=
      (show p'.staged.workspaceGeneration = p'.expectedGeneration from hexpected).trans
        hwanted.1.1.symm
    rw [hgen, hstaged]
    split <;> rfl

variable [DecidableEq Task]

/-- A merge writes the record at the position of its name, and no other. -/
theorem merged_record (hs : w.step G e = some w') {m : Merging Oid} (hm : w.merging e = some m)
    {i : ℕ} {p q : LocalProject Oid} (hp : w.publish.catalog.projects[i]? = some p)
    (hq : w'.publish.catalog.projects[i]? = some q) :
    q = if w.position m.name = some i then mergeReconciliationState p m.staged else p := by
  rw [(DaemonWorld.merged_frame hs hm).2] at hq
  exact Option.some.inj (hq.symm.trans (record_updateProject hp))

/-- Only the merge of an installation changes a generation. -/
theorem step_generation (h : ∀ task, Expected (w.reconciling task)) (hs : w.step G e = some w')
    {i : ℕ} {p q : LocalProject Oid} (hp : w.publish.catalog.projects[i]? = some p)
    (hq : w'.publish.catalog.projects[i]? = some q) :
    q.workspaceGeneration =
      p.workspaceGeneration + if applies w e = some i then 1 else 0 := by
  cases hm : w.merging e with
  | none =>
    have hnot : ¬ applies w e = some i := by
      rw [applies, hm]
      exact fun h => by cases h
    obtain ⟨q', hq', hrecord⟩ := DaemonWorld.step_record hs hp
    obtain rfl := Option.some.inj (hq'.symm.trans hq)
    rw [if_neg hnot, Nat.add_zero]
    exact (hrecord.unmerged hm).2
  | some m =>
    rw [merged_record hs hm hp hq]
    by_cases hi : w.position m.name = some i
    · have happlies : applies w e = some i ↔ m.outcome = .applied := by
        rw [applies, hm, Option.bind_some]
        split
        · next happlied => exact iff_of_true hi happlied
        · next hnot => exact iff_of_false (fun h => by cases h) hnot
      rw [if_pos hi, mergeReconciliationState_workspaceGeneration,
        merging_generation h hm (findProject_of_position hi hp)]
      simp only [happlies]
    · have happlies : ¬ applies w e = some i := by
        rw [applies, hm, Option.bind_some]
        split
        · exact hi
        · exact fun h => by cases h
      rw [if_neg hi, if_neg happlies, Nat.add_zero]

omit [DecidableEq Task] in
/-- A place that a step leads to expects the generation that it stages. -/
theorem expected_of_place {task : Option Task} {e : ReconcileEvent Oid} {r : Reconciliation Oid}
    (h : DaemonWorld.PlaceStep G w task e r) : Expected r := by
  cases h with
  | waits hcopy =>
    cases r with
    | complete | prepared => cases hcopy
    | _ => trivial
  | staged _ _ => trivial
  | located _ _ => trivial
  | complete _ hprepare =>
    obtain ⟨hexpected, hstaged⟩ := prepareProjectReconciliation_generation G hprepare
    refine ⟨hstaged, fun happlied => ?_⟩
    rcases prepareProjectReconciliation_consistent G hprepare with ⟨ho, -⟩ | ⟨ho, -⟩
    · rw [happlied] at ho
      cases ho
    · rw [happlied] at ho
      cases ho
  | prepared _ hprepare => exact (prepareProjectReconciliation_generation G hprepare).2

theorem step_expected (h : ∀ task, Expected (w.reconciling task)) (hs : w.step G e = some w')
    (task : Option Task) : Expected (w'.reconciling task) := by
  cases e with
  | publish e =>
    rcases (DaemonWorld.publishes_step hs).2 with hsame | hidle
    · rw [hsame]
      exact h task
    · rw [hidle]
      trivial
  | reconcile other e =>
    obtain ⟨r, hr, hplace⟩ := DaemonWorld.reconcile_place hs
    rw [hr]
    by_cases htask : task = other
    · subst htask
      rw [Function.update_self]
      exact expected_of_place hplace
    · rw [Function.update_of_ne htask]
      exact h task

end Generations

section Installs

variable [DecidableEq Oid] {w w' : SavedWorld Oid Task} {task : Option Task}
  {attempt : InstallAttempt} {i : ℕ}

theorem movedProject_eq_some : w.movedProject task attempt = some i ↔
    ∃ caller name p candidate project,
      w.daemon.reconciling task = .prepared caller name p candidate ∧
      findProject w.daemon.publish.catalog name = some project ∧
      AccessWorld.stillWanted project p
        (w.daemon.publish.checkouts project.localPath).headBranch = true ∧
      attempt.installed.moves = true ∧ w.daemon.position name = some i := by
  constructor
  · intro h
    unfold movedProject at h
    split at h
    · next caller name p candidate hplace =>
      split at h
      · next hsets =>
        simp only [installEvent, InstallAttempt.event, DaemonWorld.sets, hplace] at hsets
        obtain ⟨set, hset⟩ := Option.isSome_iff_exists.mp hsets
        obtain ⟨project, hproject, hset⟩ := Option.bind_eq_some_iff.mp hset
        split at hset
        · next hwanted =>
          rw [Bool.and_eq_true] at hwanted
          exact ⟨caller, name, p, candidate, project, hplace, hproject, hwanted.1, hwanted.2, h⟩
        · cases hset
      · cases h
    · cases h
  · rintro ⟨caller, name, p, candidate, project, hplace, hproject, hwanted, hmoves, hi⟩
    have hsets : (w.daemon.sets (w.installEvent task attempt)).isSome = true := by
      simp only [installEvent, InstallAttempt.event, DaemonWorld.sets, hplace, hproject,
        Option.bind_some, hwanted, hmoves, Bool.and_self, ↓reduceIte, Option.isSome_some]
    rw [movedProject, hplace]
    exact (if_pos hsets).trans hi

/-- An installation that is merged has moved the branch, and nothing has failed
up to the merge. -/
theorem moved_of_applies (h : applies w.daemon (w.installEvent task attempt) = some i) :
    w.movedProject task attempt = some i ∧ ∃ a, attempt = .moved a ∧ a.finalizes = true ∧
      a.diff.isSome = true ∧ a.cleared (w.clonePath task) = true := by
  obtain ⟨m, hm, hposition⟩ := Option.bind_eq_some_iff.mp h
  split at hposition
  · next happlied =>
    rcases DaemonWorld.merging_cases hm with ⟨_, _, _, _, _, _, _, _, _, _, he, -⟩ |
      ⟨task', installed, cleared, persisted, caller, name, p, candidate, project, result, staged,
        he, hplace, hproject, hwanted, hresult, happly, rfl⟩
    · cases he
    · cases he
      obtain ⟨a, rfl, hfinalizes, hdiff⟩ := InstallAttempt.applied_cases hresult happlied
      have hcleared : a.cleared (w.clonePath task) = true := by
        have houtcome : result.outcome = .applied := happlied
        simp only [applyReconciliationResult, houtcome] at happly
        split at happly
        · next hcleared => exact hcleared
        · cases happly
      exact ⟨movedProject_eq_some.mpr ⟨caller, name, p, candidate, project, hplace, hproject,
        hwanted, a.installed_moves, hposition⟩, a, rfl, hfinalizes, hdiff, hcleared⟩
  · cases hposition

/-- If nothing fails up to the merge, the installation is merged. -/
theorem merging_of_moved {a : Aftermath} (h : w.movedProject task (.moved a) = some i)
    (hfinalizes : a.finalizes = true) (hdiff : a.diff.isSome = true)
    (hcleared : a.cleared (w.clonePath task) = true) :
    ∃ m, w.daemon.merging (w.installEvent task (.moved a)) = some m ∧ m.outcome = .applied ∧
      w.daemon.position m.name = some i ∧ m.persisted = a.persisted ∧
      ∀ caller name p candidate, w.daemon.reconciling task = .prepared caller name p candidate →
        m.staged.lastAppliedHeads p.branch = some p.target := by
  obtain ⟨caller, name, p, candidate, project, hplace, hproject, hwanted, -, hi⟩ :=
    movedProject_eq_some.mp h
  obtain ⟨result, hresult, happlied⟩ :=
    InstallAttempt.applied_of_finalizes candidate hfinalizes hdiff
  obtain ⟨staged, hstaged, hheads⟩ : ∃ staged, applyReconciliationResult p.staged p.branch p.target
      result (a.cleared (w.clonePath task)) = some staged ∧
        staged.lastAppliedHeads p.branch = some p.target := by
    rw [hcleared]
    simp only [applyReconciliationResult, happlied, ↓reduceIte]
    exact ⟨_, rfl, Function.update_self ..⟩
  refine ⟨⟨caller, name, staged, result.outcome, a.persisted⟩, ?_, happlied, hi, rfl, ?_⟩
  · have hevent : w.installEvent task (.moved a) = .reconcile task
        (.install (InstallAttempt.moved a).installed (a.cleared (w.clonePath task)) a.persisted) :=
      rfl
    rw [hevent]
    simp only [DaemonWorld.merging, hplace, hproject, Option.bind_some, hwanted, ↓reduceIte,
      hresult, hstaged, Option.map_some]
  · intro caller' name' p' candidate' hplace'
    rw [hplace] at hplace'
    cases hplace'
    exact hheads

end Installs

section Counting

variable [DecidableEq Oid]

/-- The generations are those of the start and the installations since. -/
def CountedFrom (start c : LocalCatalog Oid) (installs : ℕ → ℕ) : Prop :=
  ∀ (i : ℕ) (q : LocalProject Oid), c.projects[i]? = some q → ∃ p, start.projects[i]? = some p ∧
    q.workspaceGeneration = p.workspaceGeneration + installs i

/-- What holds in every run. -/
structure Sound (w : SavedWorld Oid Task) : Prop where
  expected : ∀ task, Expected (w.daemon.reconciling task)
  saved : ∀ (i : ℕ) (p saved : LocalProject Oid),
    w.daemon.publish.catalog.projects[i]? = some p →
    w.saved.projects[i]? = some saved → saved.workspaceGeneration ≤ p.workspaceGeneration

variable [DecidableEq Task] {G : CommitGraph Oid} {w w' : SavedWorld Oid Task}

/-- A step of the daemon keeps `Sound`, whatever it saves. -/
theorem Sound.daemon (h : Sound w) {e : DaemonEvent Oid Task} {d : DaemonWorld Oid Task}
    (hd : w.daemon.step G e = some d) (saves : Bool) (installs : ℕ → ℕ) :
    Sound ⟨d, if saves then d.publish.catalog else w.saved, installs⟩ := by
  refine ⟨step_expected h.expected hd, fun i q saved hq hsaved => ?_⟩
  cases saves with
  | true =>
    obtain rfl := Option.some.inj (hq.symm.trans hsaved)
    exact le_rfl
  | false =>
    obtain ⟨p, hp, -⟩ :=
      (DaemonWorld.step_writes hd).record_back (fun _ p => .keeps (KeepsResult.refl p)) hq
    have hle : saved.workspaceGeneration ≤ p.workspaceGeneration := h.saved i p saved hp hsaved
    have hgen := step_generation h.expected hd hp hq
    omega

theorem Sound.step (h : Sound w) {e : SavedEvent Oid Task} (hs : w.step G e = some w') :
    Sound w' := by
  cases e with
  | install task attempt =>
    obtain ⟨d, hd, rfl⟩ := Option.map_eq_some_iff.mp hs
    exact h.daemon hd _ _
  | daemon e saves =>
    change w.daemonStep G e saves = some w' at hs
    unfold daemonStep at hs
    split at hs
    · cases hs
    · obtain ⟨d, hd, rfl⟩ := Option.map_eq_some_iff.mp hs
      have hexpected := step_expected h.expected hd
      refine ⟨hexpected, fun i p saved hp hsaved => ?_⟩
      have hsame : some p = some saved := hp.symm.trans hsaved
      rw [Option.some.inj hsame]
    · obtain ⟨d, hd, rfl⟩ := Option.map_eq_some_iff.mp hs
      exact h.daemon hd _ _

omit [DecidableEq Oid] [DecidableEq Task] in
theorem sound_initial (publish : PublishWorld Oid Task) : Sound (initial publish) := by
  refine ⟨fun task => trivial, fun i p saved hp hsaved => ?_⟩
  obtain rfl := Option.some.inj (hp.symm.trans hsaved)
  exact le_rfl

/-- What a step writes is counted with the installation that it merges. -/
theorem CountedFrom.step {start : LocalCatalog Oid} {installs : ℕ → ℕ} (hsound : Sound w)
    (h : CountedFrom start w.daemon.publish.catalog installs) {e : DaemonEvent Oid Task}
    {d : DaemonWorld Oid Task} (hd : w.daemon.step G e = some d) :
    CountedFrom start d.publish.catalog
      fun i => installs i + if applies w.daemon e = some i then 1 else 0 := by
  intro i q hq
  obtain ⟨p, hp, -⟩ :=
    (DaemonWorld.step_writes hd).record_back (fun _ p => .keeps (KeepsResult.refl p)) hq
  obtain ⟨p₀, hp₀, hgen⟩ := h i p hp
  refine ⟨p₀, hp₀, ?_⟩
  rw [step_generation hsound.expected hd hp hq, hgen, Nat.add_assoc]

omit [DecidableEq Task] in
/-- Only the section of an installation merges one. -/
theorem applies_eq_none (h : Sound w) {e : DaemonEvent Oid Task}
    (he : ∀ task installed cleared persisted,
      e ≠ .reconcile task (.install installed cleared persisted)) : applies w.daemon e = none := by
  cases hm : w.daemon.merging e with
  | none => rw [applies, hm, Option.bind_none]
  | some m =>
    rcases DaemonWorld.merging_cases hm with ⟨task, _, _, _, _, _, _, _, _, _, -, hplace, -, -, rfl⟩ |
      ⟨task, installed, cleared, persisted, _, _, _, _, _, _, _, heq, -⟩
    · have hexpected := h.expected task
      rw [hplace] at hexpected
      rw [applies, hm, Option.bind_some, if_neg hexpected.2]
    · exact absurd heq (he task installed cleared persisted)

/-- What a step merges of an installation after which nothing fails. -/
theorem completed_merging {task : Option Task} {attempt : InstallAttempt}
    {i : ℕ} (hcompletes : w.CompletesInstall G (.install task attempt))
    (hs : w.step G (.install task attempt) = some w')
    (hmoved : w.movedProject task attempt = some i) :
    ∃ m, w.daemon.merging (w.installEvent task attempt) = some m ∧ m.outcome = .applied ∧
      w.daemon.position m.name = some i ∧
      w.writesCatalog (w.installEvent task attempt) false = true ∧
      ∀ caller name p candidate, w.daemon.reconciling task = .prepared caller name p candidate →
        m.staged.lastAppliedHeads p.branch = some p.target := by
  obtain ⟨-, -, -, -, -, -, -, -, hmoves, -⟩ := movedProject_eq_some.mp hmoved
  cases attempt with
  | moved a =>
    have ha := hcompletes ⟨w', hs⟩ (by rw [hmoved]; rfl)
    obtain ⟨m, hm, happlied, hposition, hpersisted, hheads⟩ :=
      merging_of_moved hmoved ha.finalizes ha.diff ha.cleared
    refine ⟨m, hm, happlied, hposition, ?_, hheads⟩
    rw [writesCatalog, hm]
    exact hpersisted.trans ha.persisted
  | _ => cases hmoves

/-- An installation after which nothing fails is recorded. -/
theorem records_of_moved (h : Sound w) {task : Option Task} {attempt : InstallAttempt} {i : ℕ}
    {caller : Caller} {name : String} {p : PreparedProject Oid} {candidate : PreparedInstall Oid}
    (hcompletes : w.CompletesInstall G (.install task attempt))
    (hs : w.step G (.install task attempt) = some w')
    (hplace : w.daemon.reconciling task = .prepared caller name p candidate)
    (hmoved : w.movedProject task attempt = some i) : Records w w' i p.branch p.target := by
  obtain ⟨m, hm, happlied, hposition, hwrites, hheads⟩ := completed_merging hcompletes hs hmoved
  obtain ⟨caller', name', p', candidate', project, hplace', hproject, -, -, hi⟩ :=
    movedProject_eq_some.mp hmoved
  rw [hplace] at hplace'
  cases hplace'
  obtain ⟨j, hj, hrecord⟩ := findProject_eq_some.mp hproject
  obtain rfl : i = j := Option.some.inj (hi.symm.trans hj)
  obtain ⟨d, hd, rfl⟩ := Option.map_eq_some_iff.mp hs
  obtain ⟨q, hq, -⟩ := DaemonWorld.step_record hd hrecord
  have hmerged := merged_record hd hm hrecord hq
  rw [if_pos hposition] at hmerged
  have hgen : q.workspaceGeneration = project.workspaceGeneration + 1 := by
    rw [step_generation h.expected hd hrecord hq, applies, hm, Option.bind_some,
      if_pos happlied, if_pos hposition]
  have hhead : q.lastAppliedHeads p.branch = some p.target := by
    rw [hmerged]
    exact hheads caller name p candidate hplace
  refine ⟨project, q, q, hrecord, hq, ?_, hgen, hhead, rfl, hhead⟩
  rw [if_pos hwrites]
  exact hq

/-- If nothing fails after the branch has moved, what is moved is merged. -/
theorem applies_eq_moved {task : Option Task} {attempt : InstallAttempt}
    (hcompletes : w.CompletesInstall G (.install task attempt))
    (hs : w.step G (.install task attempt) = some w') :
    applies w.daemon (w.installEvent task attempt) = w.movedProject task attempt := by
  cases hmoved : w.movedProject task attempt with
  | none =>
    by_contra hsome
    obtain ⟨i, hi⟩ := Option.ne_none_iff_exists'.mp hsome
    rw [(moved_of_applies hi).1] at hmoved
    cases hmoved
  | some i =>
    obtain ⟨m, hm, happlied, hposition, -⟩ := completed_merging hcompletes hs hmoved
    rw [applies, hm, Option.bind_some, if_pos happlied, hposition]

/-- An installation is recorded exactly if nothing fails after the branch has
moved. -/
theorem recordsInstall_iff (h : Sound w) (e : SavedEvent Oid Task) :
    w.RecordsInstall G e ↔ w.CompletesInstall G e := by
  cases e with
  | daemon e saves => exact iff_of_true trivial trivial
  | install task attempt =>
    have hrecorded : ∀ {w' : SavedWorld Oid Task}, w.step G (.install task attempt) = some w' →
        ∀ {i : ℕ} {b : Branch} {target : Oid}, Records w w' i b target →
          applies w.daemon (w.installEvent task attempt) = some i ∧
            w.writesCatalog (w.installEvent task attempt) false = true := by
      intro w' hs i b target hrecords
      obtain ⟨d, hd, rfl⟩ := Option.map_eq_some_iff.mp hs
      obtain ⟨p, q, saved, hp, hq, hsaved, hgen, -, hsavedGen, -⟩ := hrecords
      have hstep := step_generation h.expected hd hp hq
      have happlies : applies w.daemon (w.installEvent task attempt) = some i := by
        by_contra hnot
        rw [if_neg hnot] at hstep
        omega
      refine ⟨happlies, ?_⟩
      by_contra hnot
      rw [Bool.not_eq_true] at hnot
      -- what is on disk is older than the catalog
      have hold : w.saved.projects[i]? = some saved := by
        simpa only [hnot, Bool.false_eq_true, ↓reduceIte] using hsaved
      have hle := h.saved i p saved hp hold
      omega
    constructor
    · intro hrecords
      cases attempt with
      | moved a =>
        rintro ⟨w', hs⟩ hmoved
        obtain ⟨i, hi⟩ := Option.isSome_iff_exists.mp hmoved
        obtain ⟨caller, name, p, candidate, project, hplace, -, -, -, hposition⟩ :=
          movedProject_eq_some.mp hi
        have hdone := (hrecords w' hs caller name p candidate hplace i hposition).mp hi
        obtain ⟨happlies, hwrites⟩ := hrecorded hs hdone
        obtain ⟨-, a', ha, hfinalizes, hdiff, hcleared⟩ := moved_of_applies happlies
        cases ha
        obtain ⟨m, hm, -, -, hpersisted, -⟩ := merging_of_moved hi hfinalizes hdiff hcleared
        rw [writesCatalog, hm] at hwrites
        exact ⟨hfinalizes, hdiff, hcleared, hpersisted.symm.trans hwrites⟩
      | _ => trivial
    · intro hcompletes w' hs caller name p candidate hplace i hi
      constructor
      · intro hmoved
        exact records_of_moved h hcompletes hs hplace hmoved
      · intro hdone
        exact (moved_of_applies (hrecorded hs hdone).1).1

/-- The generations, in memory and on disk, count the installations. -/
structure Counted (start : LocalCatalog Oid) (w : SavedWorld Oid Task) : Prop where
  sound : Sound w
  catalog : CountedFrom start w.daemon.publish.catalog w.installs
  saved : CountedFrom start w.saved w.installs

omit [DecidableEq Oid] [DecidableEq Task] in
theorem counted_initial (publish : PublishWorld Oid Task) :
    Counted publish.catalog (initial publish) := by
  have hsame : CountedFrom publish.catalog publish.catalog fun _ => 0 :=
    fun i q hq => ⟨q, hq, (Nat.add_zero _).symm⟩
  exact ⟨sound_initial publish, hsame, hsame⟩

theorem Counted.step {start : LocalCatalog Oid} (h : Counted start w) {e : SavedEvent Oid Task}
    (hok : w.CompletesInstall G e) (hs : w.step G e = some w') : Counted start w' := by
  have hsound := h.sound.step hs
  cases e with
  | daemon e saves =>
    change w.daemonStep G e saves = some w' at hs
    unfold daemonStep at hs
    split at hs
    · cases hs
    · obtain ⟨d, hd, rfl⟩ := Option.map_eq_some_iff.mp hs
      exact ⟨hsound, h.saved, h.saved⟩
    · next he _ =>
      obtain ⟨d, hd, rfl⟩ := Option.map_eq_some_iff.mp hs
      have hcatalog : CountedFrom start d.publish.catalog w.installs := by
        have hcount := h.catalog.step h.sound hd
        rw [applies_eq_none h.sound he] at hcount
        exact hcount
      refine ⟨hsound, hcatalog, ?_⟩
      split
      · exact hcatalog
      · exact h.saved
  | install task attempt =>
    have hrun := hs
    obtain ⟨d, hd, rfl⟩ := Option.map_eq_some_iff.mp hs
    have hcount : CountedFrom start d.publish.catalog
        (countMove w.installs (w.movedProject task attempt)) := by
      have hmerged := h.catalog.step h.sound hd
      rw [applies_eq_moved hok hrun] at hmerged
      intro i q hq
      rw [countMove_apply]
      exact hmerged i q hq
    refine ⟨hsound, hcount, ?_⟩
    dsimp only
    split
    · exact hcount
    · next hwrites =>
      -- nothing was moved, so the counts are as before
      have hnone : w.movedProject task attempt = none := by
        by_contra hsome
        obtain ⟨i, hi⟩ := Option.ne_none_iff_exists'.mp hsome
        obtain ⟨m, -, -, -, hwritten, -⟩ := completed_merging hok hrun hi
        exact hwrites hwritten
      rw [hnone]
      exact h.saved

section Main

variable (G)

/-- In every run, a call that has come to its installation has moved the branch
exactly if the catalog records it, as long as nothing fails after a branch has
moved; and only as long as that. Then the generations count the installations. -/
theorem installs_are_recorded_iff (publish : PublishWorld Oid Task)
    (es : List (SavedEvent Oid Task)) :
    (Runs.Steps (step G) (RecordsInstall G) (initial publish) es ↔
      Runs.Steps (step G) (CompletesInstall G) (initial publish) es) ∧
    (Runs.Steps (step G) (CompletesInstall G) (initial publish) es →
      ∀ w', Runs.run (step G) (initial publish) es = some w' →
        CountedFrom publish.catalog w'.daemon.publish.catalog w'.installs ∧
          CountedFrom publish.catalog w'.saved w'.installs) := by
  have hkept : ∀ (ok : SavedWorld Oid Task → SavedEvent Oid Task → Prop) w e w',
      Sound w → ok w e → w.step G e = some w' → Sound w' :=
    fun _ w e w' h _ hs => h.step hs
  refine ⟨⟨fun h => ?_, fun h => ?_⟩, fun hok w' hr => ?_⟩
  · exact h.of_invariant (hkept _) (fun w e hw => (recordsInstall_iff hw e).mp)
      (sound_initial publish)
  · exact h.of_invariant (hkept _) (fun w e hw => (recordsInstall_iff hw e).mpr)
      (sound_initial publish)
  · have hcounted : Counted publish.catalog w' :=
      Runs.run_invariant (fun w e w' h hok hs => h.step hok hs) (counted_initial publish) hok hr
    exact ⟨hcounted.catalog, hcounted.saved⟩

end Main

end Counting

end SavedWorld

section OneProject

def generations (c : LocalCatalog ℕ) : List ℕ := c.projects.map (·.workspaceGeneration)

/-- A background task comes to the installation of `3` on `main`. -/
def comeToInstall (task : Fin 2) : List (SavedEvent ℕ (Fin 2)) :=
  (comeToPrepare task 3 ++
    [DaemonEvent.reconcile (some task) (.prepare true (.ready ⟨"main", 1, 3⟩))]).map
    fun e => .daemon e true

/-- The record of another project in the transactions directory is no JSON. -/
def unparsableNeighbour : Aftermath where
  transactionId := "txn-1"
  retention := ⟨false⟩
  removal := ⟨fun _ => true, .removed⟩
  written := true
  history := none
  diff := some []
  retentionNow := ⟨false⟩
  directory := some [.other, .json .unparsable]
  persisted := true

/-- The branch has moved to `3`, and the catalog stays in its generation. -/
theorem install_beside_unparsable_is_lost :
    ¬ Runs.Steps (SavedWorld.step pairGraph) (SavedWorld.RecordsInstall pairGraph)
      (.initial currentMain)
      (comeToInstall 0 ++ [.install (some 0) (.moved unparsableNeighbour)]) := by
  have htest : ((Runs.run (SavedWorld.step pairGraph) (.initial currentMain)
      (comeToInstall 0)).map fun w =>
        (w.movedProject (some 0) (.moved unparsableNeighbour),
          generations w.daemon.publish.catalog,
          (w.step pairGraph (.install (some 0) (.moved unparsableNeighbour))).map
            fun w' => generations w'.daemon.publish.catalog)) =
      some (some 0, [1], some [1]) := by decide +kernel
  intro hrecords
  obtain ⟨w, hw, hfields⟩ := Option.map_eq_some_iff.mp htest
  obtain ⟨hmoved, hfields⟩ := Prod.mk.inj hfields
  obtain ⟨hbefore, hfields⟩ := Prod.mk.inj hfields
  obtain ⟨w', hw', hafter⟩ := Option.map_eq_some_iff.mp hfields
  have hinstall := (hrecords.of_append.2 w hw).1
  obtain ⟨caller, name, p, candidate, -, hplace, -, -, -, hi⟩ :=
    SavedWorld.movedProject_eq_some.mp hmoved
  obtain ⟨old, new, -, hold, hnew, -, hgen, -⟩ :=
    (hinstall w' hw' caller name p candidate hplace 0 hi).mp hmoved
  have holdGen : (generations w.daemon.publish.catalog)[0]? = some old.workspaceGeneration := by
    rw [generations, List.getElem?_map, hold]
    rfl
  have hnewGen : (generations w'.daemon.publish.catalog)[0]? = some new.workspaceGeneration := by
    rw [generations, List.getElem?_map, hnew]
    rfl
  rw [hbefore] at holdGen
  rw [hafter] at hnewGen
  have hone : (1 : ℕ) = old.workspaceGeneration := Option.some.inj holdGen
  have hstill : (1 : ℕ) = new.workspaceGeneration := Option.some.inj hnewGen
  omega

end OneProject

end Resync
