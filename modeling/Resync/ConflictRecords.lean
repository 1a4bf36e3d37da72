import Mathlib.Data.List.Dedup
import Resync.DaemonSteps
import Resync.TransactionsDirectory

/-! The records of conflicts in the transactions directory (`transaction.rs`), with the
daemon's calls of `reconcile_exclusive` around them, without debug history. A record
belongs to a branch; `clear_resolved_conflicts` only looks at its checkout. The refs of a
transaction that has no record yet are left out. -/
namespace Resync

variable {Oid Task : Type}

/-- What the clean-up reads of a record, with the branch of its `head_ref`. -/
structure StoredRecord where
  projectPath : String
  headRef : Branch
  phase : Phase
deriving DecidableEq

/-- The directory, with the record of each file or `none` for one that cannot be parsed,
and the recovery refs that each checkout has for a transaction. -/
structure TransactionStore where
  files : FiniteMap String (Option StoredRecord)
  refs : String → String → RecoverySlot → Bool

/-- The answers to one run of `clear_resolved_conflicts`; the listing is `none` where
`read_dir` fails. -/
structure ClearAnswers where
  listing : Option (List String)
  /-- Whether a file can be read. -/
  readable : String → Bool
  removal : String → ArtifactRemoval

/-- The listing has every file once. -/
def ClearAnswers.Lists (answers : ClearAnswers) (files : FiniteMap String (Option StoredRecord)) :
    Prop := ∀ ids ∈ answers.listing, ids.Nodup ∧ ids.toFinset = files.keys

instance (answers : ClearAnswers) (files : FiniteMap String (Option StoredRecord)) :
    Decidable (answers.Lists files) :=
  inferInstanceAs (Decidable (∀ ids ∈ answers.listing, ids.Nodup ∧ ids.toFinset = files.keys))

/-- Whether `remove_transaction_artifacts` comes to delete a ref, and deletes it. -/
def ArtifactRemoval.drops (r : ArtifactRemoval) : RecoverySlot → Bool
  | .head => r.deletes .head
  | .index => r.deletes .head && r.deletes .index
  | .working => r.deletes .head && r.deletes .index && r.deletes .working
  | .candidate => r.deletes .head && r.deletes .index && r.deletes .working && r.deletes .candidate

/-- What is left after a run of `clear_resolved_conflicts`: the conflicts that it has
removed, in whole or in part, and whether it has succeeded. -/
structure Clearing where
  store : TransactionStore
  removed : List (String × StoredRecord)
  ok : Bool

/-- A conflict of the checkout. -/
def StoredRecord.matches (path : String) (t : StoredRecord) : Bool :=
  t.projectPath == path && t.phase == .conflicted

namespace TransactionStore

/-- `remove_transaction_artifacts`, as far as it gets. -/
def removeArtifacts (s : TransactionStore) (path id : String) (answers : ArtifactRemoval) :
    TransactionStore where
  files := if answers.drops .candidate && answers.file != .failed then s.files.set id none
    else s.files
  refs path' id' slot :=
    s.refs path' id' slot && !(path' == path && id' == id && answers.drops slot)

/-- What the clean-up reads of a file. -/
def entryOf (s : TransactionStore) (answers : ClearAnswers) (id : String) :
    DirectoryEntry StoredRecord :=
  if answers.readable id then
    match s.files.get id with
    | none => .json .unreadable
    | some none => .json .unparsable
    | some (some t) => .json (.record t)
  else .json .unreadable

/-- The loop of `clear_resolved_conflicts`. -/
def clearNames (path : String) (answers : ClearAnswers) (s : TransactionStore) :
    List String → Clearing
  | [] => ⟨s, [], true⟩
  | id :: ids =>
    match clearStep (StoredRecord.matches path) (s.entryOf answers id) with
    | .fails => ⟨s, [], false⟩
    | .passes => clearNames path answers s ids
    | .removes t =>
      let s' := s.removeArtifacts path id (answers.removal id)
      let removed := if (answers.removal id).deletes .head then [(id, t)] else []
      if (answers.removal id).succeeds then
        let rest := clearNames path answers s' ids
        ⟨rest.store, removed ++ rest.removed, rest.ok⟩
      else ⟨s', removed, false⟩

/-- `clear_resolved_conflicts`. -/
def clearResolvedConflicts (s : TransactionStore) (path : String) (answers : ClearAnswers) :
    Clearing :=
  match answers.listing with
  | none => ⟨s, [], true⟩
  | some ids => s.clearNames path answers ids

/-- The record of a conflict, under a fresh ID. -/
def writeConflict (s : TransactionStore) (path id : String) (headRef : Branch)
    (candidate : Bool) : Option TransactionStore :=
  if s.files.get id = none then
    some {
      files := s.files.set id (some (some ⟨path, headRef, .conflicted⟩))
      refs := fun path' id' slot => if path' = path ∧ id' = id then slot != .candidate || candidate
        else s.refs path' id' slot }
  else none

end TransactionStore

/-- A conflict that a clean-up has removed, with the branch of the reconciliation. -/
structure ConflictRemoval where
  branch : Branch
  id : String
  record : StoredRecord

/-- The calls that have removed a conflict and have not returned, what they and others
have removed, and how the calls that have removed a conflict returned; these three only
look back. -/
structure ConflictWorld (Oid Task : Type) where
  daemon : DaemonWorld Oid Task
  store : TransactionStore
  clearing : List (Option Task)
  removals : List ConflictRemoval
  ended : List (Option Outcome)

inductive ConflictEvent (Oid Task : Type) where
  /-- A step that neither cleans up nor leaves a conflict. -/
  | daemon (e : DaemonEvent Oid Task)
  /-- `prepare_project_reconciliation` after its first look at HEAD; `id` and `headRef`
  are those of its transaction. -/
  | prepare (task : Option Task) (rebase : Rebase Oid) (id : String) (headRef : Branch)
      (answers : ClearAnswers)
  /-- The section under exclusive ownership; `discarded` is whether a candidate that is
  not wanted any more can be discarded. -/
  | install (task : Option Task) (installed : Installed) (id : String) (discarded persisted : Bool)
      (answers : ClearAnswers)

namespace ConflictWorld

def initial (publish : PublishWorld Oid Task) (store : TransactionStore) :
    ConflictWorld Oid Task :=
  ⟨.initial publish, store, [], [], []⟩

variable [DecidableEq Oid] [DecidableEq Task] (G : CommitGraph Oid)

/-- The checkout and the branch of a preparation that comes to its clean-up. -/
def prepareClears (w : ConflictWorld Oid Task) (task : Option Task) (rebase : Rebase Oid) :
    Option (String × Branch) :=
  match w.daemon.reconciling task with
  | .located _ _ project branch =>
    let head := (w.daemon.publish.checkouts project.localPath).headCommit
    match prepareProjectReconciliation G (rebase.answers branch head true) project with
    | some (.complete _ result _ _ _) =>
      if result.outcome = .current then some (project.localPath, branch) else none
    | _ => none
  | _ => none

/-- The checkout and the branch of an installation that comes to its clean-up. -/
def installClears (w : ConflictWorld Oid Task) (task : Option Task) :
    Installed → Option (String × Branch)
  | .applied _ =>
    match w.daemon.reconciling task with
    | .prepared _ name p _ =>
      (findProject w.daemon.publish.catalog name).bind fun project =>
        if AccessWorld.stillWanted project p
            (w.daemon.publish.checkouts project.localPath).headBranch then
          some (p.staged.localPath, p.branch)
        else none
    | _ => none
  | _ => none

/-- A preparation has found a conflict by its rebase. -/
def leavesConflict : Reconciliation Oid → Option String
  | .complete _ _ staged result _ _ _ =>
    if result.outcome = .conflict ∧ staged.conflict.any (·.kind == "reconciliation") then
      some staged.localPath
    else none
  | _ => none

/-- An installation has found untracked files in the way. -/
def installLeaves (w : ConflictWorld Oid Task) (task : Option Task) :
    Installed → Option (String × Branch)
  | .conflict _ _ =>
    match w.daemon.reconciling task with
    | .prepared _ name p candidate =>
      (findProject w.daemon.publish.catalog name).bind fun project =>
        if AccessWorld.stillWanted project p
            (w.daemon.publish.checkouts project.localPath).headBranch then
          some (p.staged.localPath, candidate.headRef)
        else none
    | _ => none
  | _ => none

def cleanUp (w : ConflictWorld Oid Task) (target : Option (String × Branch))
    (answers : ClearAnswers) : Clearing :=
  match target with
  | some (path, _) => w.store.clearResolvedConflicts path answers
  | none => ⟨w.store, [], true⟩

def removalsOf (target : Option (String × Branch)) (c : Clearing) : List ConflictRemoval :=
  match target with
  | some (_, branch) => c.removed.map fun r => ⟨branch, r.1, r.2⟩
  | none => []

/-- A call that has removed a conflict is put down when it returns. -/
def settle (w : ConflictWorld Oid Task) (task : Option Task) : ConflictWorld Oid Task :=
  match w.daemon.reconciling task with
  | .answered _ _ outcome =>
    if task ∈ w.clearing then
      { w with clearing := w.clearing.filter (· ≠ task), ended := w.ended ++ [outcome] }
    else w
  | _ => w

/-- The state after a clean-up and the rest of its step. -/
def cleared (w : ConflictWorld Oid Task) (task : Option Task) (target : Option (String × Branch))
    (c : Clearing) (daemon : DaemonWorld Oid Task) (store : TransactionStore) :
    ConflictWorld Oid Task :=
  settle ⟨daemon, store, if c.removed = [] then w.clearing else task :: w.clearing,
    w.removals ++ removalsOf target c, w.ended⟩ task

def prepare (w : ConflictWorld Oid Task) (task : Option Task) (rebase : Rebase Oid) (id : String)
    (headRef : Branch) (answers : ClearAnswers) : Option (ConflictWorld Oid Task) :=
  if answers.Lists w.store.files then
    let target := w.prepareClears G task rebase
    let c := w.cleanUp target answers
    (w.daemon.step G (.reconcile task (.prepare c.ok rebase))).bind fun daemon =>
      match leavesConflict (daemon.reconciling task) with
      | none => some (w.cleared task target c daemon c.store)
      | some path =>
        if (daemon.publish.checkouts path).headBranch = some headRef then
          (c.store.writeConflict path id headRef false).map (w.cleared task target c daemon)
        else none
  else none

def install (w : ConflictWorld Oid Task) (task : Option Task) (installed : Installed)
    (id : String) (discarded persisted : Bool) (answers : ClearAnswers) :
    Option (ConflictWorld Oid Task) :=
  if answers.Lists w.store.files then
    let target := w.installClears task installed
    let c := w.cleanUp target answers
    let ok := if target.isSome then c.ok else discarded
    (w.daemon.step G (.reconcile task (.install installed ok persisted))).bind fun daemon =>
      match w.installLeaves task installed with
      | none => some (w.cleared task target c daemon c.store)
      | some (path, headRef) =>
        (c.store.writeConflict path id headRef true).map (w.cleared task target c daemon)
  else none

def step (w : ConflictWorld Oid Task) : ConflictEvent Oid Task → Option (ConflictWorld Oid Task)
  | .daemon (.reconcile _ (.prepare ..)) | .daemon (.reconcile _ (.install ..)) => none
  | .daemon (.publish .restart) =>
    (w.daemon.step G (.publish .restart)).map fun daemon =>
      { w with daemon := daemon, clearing := [], ended := w.ended ++ w.clearing.map fun _ => none }
  | .daemon (.publish e) =>
    (w.daemon.step G (.publish e)).map fun daemon => { w with daemon := daemon }
  | .daemon (.reconcile task e) =>
    (w.daemon.step G (.reconcile task e)).map fun daemon => settle { w with daemon := daemon } task
  | .prepare task rebase id headRef answers => w.prepare G task rebase id headRef answers
  | .install task installed id discarded persisted answers =>
    w.install G task installed id discarded persisted answers

end ConflictWorld

end Resync
