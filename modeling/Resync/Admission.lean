import Resync.GateRuns
import Resync.Reconcile

/-! `acquireAccess` and `reconcile_exclusive` (`daemon.rs`) running in any
number of tasks. Both find the project by the name in the request, and both
find the gate by that same name, as a string. -/
namespace Resync

/-- An answer of `acquireAccess` that granted a lease on the project and on the
checkout that its record names. -/
structure AccessGrant where
  name : String
  leaseId : String
  projectId : String
  localPath : String
  generation : ℕ
deriving DecidableEq

/-- The part of `ProjectReconciliation::Prepared` that waits for the gate. -/
structure PreparedProject (Oid : Type) where
  staged : LocalProject Oid
  expectedGeneration : ℕ
  branch : Branch
  target : Oid

/-- Where a task stands between two critical sections; `name` is the string
with which its request names the project. -/
inductive AccessTask (Oid : Type) where
  | idle
  | acquiring (name : String) (metadata : LeaseMetadata)
  | leasing (name : String) (metadata : LeaseMetadata)
  | leased (name : String) (leaseId : Option String)
  | staged (name : String) (project : LocalProject Oid)
  | complete (name : String) (staged : LocalProject Oid) (result : ReconcileResult Oid)
      (expectedGeneration : ℕ) (branch : Branch) (target : Option Oid)
  | prepared (name : String) (p : PreparedProject Oid)
  | waiting (name : String) (ticket : UInt64) (p : PreparedProject Oid)
  | exclusive (name : String) (p : PreparedProject Oid)
  | ending (name : String)

/-- The state shared by the tasks. `issued` are the random lease identifiers
drawn so far, `grants` the answers given so far. -/
structure AccessWorld (Oid Task : Type) where
  catalog : LocalCatalog Oid
  gates : String → GateState
  tasks : Task → AccessTask Oid
  issued : List String
  grants : List AccessGrant

inductive AccessEvent (Oid Task : Type) where
  /-- `acquireAccess` after its branch transition. -/
  | acquire (task : Task) (name : String) (metadata : LeaseMetadata)
  | acquireMode (task : Task)
  | acquireActivity (task : Task) (fresh : String)
  /-- `head` is the answer of `rev-parse HEAD`, `none` for an error. -/
  | acquireAnswer (task : Task) (head : Option Oid)
  /-- A background, `sync` or publication-driven `reconcile_exclusive`. -/
  | reconcile (task : Task) (name : String)
  | prepare (task : Task) (answers : PreparationAnswers Oid)
  | mergeComplete (task : Task)
  | drawTicket (task : Task)
  | enter (task : Task)
  /-- `current` is what `current_branch` answers, `installed` the result of
  `install_prepared_reconciliation` (`none` for an error) and `cleared`
  whether `clear_resolved_conflicts` succeeds. -/
  | install (task : Task) (current : Option Branch) (installed : Option (ReconcileResult Oid))
      (cleared : Bool)
  | endExclusive (task : Task)
  | releaseAccess (name leaseId : String)
  | expire (name leaseId : String)
  /-- Any other write to one record, which leaves its generation alone. -/
  | update (name : String) (record : LocalProject Oid)
  | register (record : LocalProject Oid) (generation : Option ℕ)
  | reload (catalog : LocalCatalog Oid)

/-- Where the task stands at the gate of `name`. -/
def AccessTask.place {Oid : Type} (name : String) : AccessTask Oid → Place
  | .waiting n ticket _ => if n = name then .waiting ticket else .outside
  | .exclusive n _ => if n = name then .owner else .outside
  | .ending n => if n = name then .owner else .outside
  | _ => .outside

@[simp] theorem AccessTask.place_waiting {Oid : Type} (name : String) (ticket : UInt64)
    (p : PreparedProject Oid) : (AccessTask.waiting name ticket p).place name = .waiting ticket :=
  if_pos rfl

@[simp] theorem AccessTask.place_exclusive {Oid : Type} (name : String) (p : PreparedProject Oid) :
    (AccessTask.exclusive name p).place name = .owner := if_pos rfl

@[simp] theorem AccessTask.place_ending {Oid : Type} (name : String) :
    (AccessTask.ending name : AccessTask Oid).place name = .owner := if_pos rfl

namespace AccessWorld

variable {Oid Task : Type}

def initial (catalog : LocalCatalog Oid) : AccessWorld Oid Task :=
  ⟨catalog, fun _ => .initial, fun _ => .idle, [], []⟩

/-- The gate of `name` as the tasks see it. -/
def gate (w : AccessWorld Oid Task) (name : String) : Gate Task :=
  ⟨w.gates name, fun task => (w.tasks task).place name⟩

/-- Neither released nor expired. -/
def Live (w : AccessWorld Oid Task) (g : AccessGrant) : Prop :=
  g.leaseId ∈ (w.gates g.name).leases

instance (w : AccessWorld Oid Task) (g : AccessGrant) : Decidable (w.Live g) :=
  inferInstanceAs (Decidable (g.leaseId ∈ (w.gates g.name).leases))

variable [DecidableEq Oid] [DecidableEq Task] (G : CommitGraph Oid)

def setTask (w : AccessWorld Oid Task) (task : Task) (t : AccessTask Oid) :
    AccessWorld Oid Task := { w with tasks := Function.update w.tasks task t }

def setGate (w : AccessWorld Oid Task) (name : String) (s : GateState) : AccessWorld Oid Task :=
  { w with gates := Function.update w.gates name s }

/-- The recheck under the catalog lock before a candidate is installed. -/
def stillWanted (project : LocalProject Oid) (p : PreparedProject Oid)
    (current : Option Branch) : Bool :=
  project.workspaceGeneration == p.expectedGeneration &&
    project.advertisedHeads p.branch == some p.target && current == some p.branch

def acquireMode (w : AccessWorld Oid Task) (task : Task) : Option (AccessWorld Oid Task) :=
  match w.tasks task with
  | .acquiring name metadata =>
    match findProject w.catalog name with
    | none => some (w.setTask task .idle)
    | some project =>
      if project.state = .conflicted then some (w.setTask task (.leased name none))
      else some (w.setTask task (.leasing name metadata))
  | _ => none

def acquireActivity (w : AccessWorld Oid Task) (task : Task) (fresh : String) :
    Option (AccessWorld Oid Task) :=
  match w.tasks task with
  | .leasing name metadata =>
    if fresh ∈ w.issued then none
    else ((w.gates name).activity metadata fresh).map fun r =>
      { (w.setGate name r.2).setTask task (.leased name (some r.1)) with
        issued := fresh :: w.issued }
  | _ => none

def acquireAnswer (w : AccessWorld Oid Task) (task : Task) (head : Option Oid) :
    Option (AccessWorld Oid Task) :=
  match w.tasks task with
  | .leased name leaseId =>
    match leaseId, findProject w.catalog name, head with
    | some id, some project, some _ => some { w.setTask task .idle with
        grants := ⟨name, id, project.projectId, project.localPath,
          project.workspaceGeneration⟩ :: w.grants }
    | _, _, _ => some (w.setTask task .idle)
  | _ => none

def prepare (w : AccessWorld Oid Task) (task : Task) (answers : PreparationAnswers Oid) :
    Option (AccessWorld Oid Task) :=
  match w.tasks task with
  | .staged name project =>
    match prepareProjectReconciliation G answers project with
    | none => some (w.setTask task .idle)
    | some (.complete staged result expected branch target) =>
      some (w.setTask task (.complete name staged result expected branch target))
    | some (.prepared staged expected branch target) =>
      some (w.setTask task (.prepared name ⟨staged, expected, branch, target⟩))
  | _ => none

def mergeComplete (w : AccessWorld Oid Task) (task : Task) : Option (AccessWorld Oid Task) :=
  match w.tasks task with
  | .complete name staged _ expected branch target =>
    match findProject w.catalog name with
    | none => some (w.setTask task .idle)
    | some project =>
      if project.workspaceGeneration ≠ expected ∨ project.advertisedHeads branch ≠ target then
        some (w.setTask task .idle)
      else some { w.setTask task .idle with
        catalog := updateProject w.catalog name (mergeReconciliationState · staged) }
  | _ => none

/-- The section under exclusive ownership, up to `end_exclusive`. -/
def install (w : AccessWorld Oid Task) (task : Task) (current : Option Branch)
    (installed : Option (ReconcileResult Oid)) (cleared : Bool) :
    Option (AccessWorld Oid Task) :=
  match w.tasks task with
  | .exclusive name p =>
    let ended := w.setTask task (.ending name)
    match findProject w.catalog name with
    | none => some ended
    | some project =>
      if stillWanted project p current then
        match installed.bind fun r =>
          applyReconciliationResult p.staged p.branch p.target r cleared with
        | none => some ended
        | some staged => some { ended with
            catalog := updateProject w.catalog name (mergeReconciliationState · staged) }
      else some ended
  | _ => none

def step (w : AccessWorld Oid Task) : AccessEvent Oid Task → Option (AccessWorld Oid Task)
  | .acquire task name metadata =>
    match w.tasks task with
    | .idle => some (w.setTask task (.acquiring name metadata))
    | _ => none
  | .acquireMode task => w.acquireMode task
  | .acquireActivity task fresh => w.acquireActivity task fresh
  | .acquireAnswer task head => w.acquireAnswer task head
  | .reconcile task name =>
    match w.tasks task, findProject w.catalog name with
    | .idle, some project => some (w.setTask task (.staged name project))
    | _, _ => none
  | .prepare task answers => w.prepare G task answers
  | .mergeComplete task => w.mergeComplete task
  | .drawTicket task =>
    match w.tasks task with
    | .prepared name p => some ((w.setGate name (w.gates name).drawTicket).setTask task
        (.waiting name (w.gates name).nextExclusive p))
    | _ => none
  | .enter task =>
    match w.tasks task with
    | .waiting name ticket p => ((w.gates name).admitExclusive ticket).map fun s =>
        (w.setGate name s).setTask task (.exclusive name p)
    | _ => none
  | .install task current installed cleared => w.install task current installed cleared
  | .endExclusive task =>
    match w.tasks task with
    | .ending name => some ((w.setGate name (w.gates name).endExclusive).setTask task .idle)
    | _ => none
  | .releaseAccess name leaseId => some (w.setGate name ((w.gates name).release leaseId).2)
  | .expire name leaseId => some (w.setGate name ((w.gates name).release leaseId).2)
  | .update name record =>
    match findProject w.catalog name with
    | some project =>
      if record.projectId = project.projectId ∧ record.localPath = project.localPath ∧
          record.workspaceGeneration = project.workspaceGeneration then
        some { w with catalog := updateProject w.catalog name fun _ => record }
      else none
    | none => none
  | .register record generation =>
    some { w with catalog := registerProject w.catalog record generation }
  | .reload catalog => some { w with catalog := catalog }

/-- The project whose checkout the event hands to
`install_prepared_reconciliation`. -/
def installsInto (w : AccessWorld Oid Task) : AccessEvent Oid Task → Option (LocalProject Oid)
  | .install task current _ _ =>
    match w.tasks task with
    | .exclusive name p =>
      (findProject w.catalog name).filter fun project => stillWanted project p current
    | _ => none
  | _ => none

end AccessWorld

end Resync
