import Resync.Admission
import Resync.Delivery

/-! The daemon's operations around one catalog (`daemon.rs`): hooks, refreshes
and the delivery of the queue as before, together with the calls of
`reconcile_exclusive` that `sync`, the background tasks and the delivery make.
The gate only delays an installation, so it has no part here. -/
namespace Resync

variable {Oid Task : Type}

/-- Who has called `reconcile_exclusive`. -/
inductive Caller where
  | background | delivery | sync
deriving DecidableEq

/-- A candidate that waits for its installation: the branch and the head that
the second look at HEAD has found, and the head to be installed. -/
structure PreparedInstall (Oid : Type) where
  headRef : Branch
  old : Oid
  new : Oid

/-- What `prepare_reconciliation_with_retention` answers for a base and a
target that differ. -/
inductive Rebase (Oid : Type) where
  | failed
  | conflict (detail : String)
  | ready (candidate : PreparedInstall Oid)

/-- What `install_prepared_reconciliation` does and answers. -/
inductive Installed where
  /-- An error, before or after the branch has moved. -/
  | failed (moved : Bool)
  | applied (changedPaths : List String)
  | retry (detail : String)
  | conflict (detail : String) (paths : List String)

/-- Where a call of `reconcile_exclusive` stands; `name` is the string with
which its caller names the project. -/
inductive Reconciliation (Oid : Type) where
  | idle
  /-- A `sync` request; its refresh is under way. -/
  | refreshing (name : String)
  | called (caller : Caller) (name : String)
  | staged (caller : Caller) (name : String) (project : LocalProject Oid)
  /-- `current_branch` has been read. -/
  | located (caller : Caller) (name : String) (project : LocalProject Oid) (branch : Branch)
  | complete (caller : Caller) (name : String) (staged : LocalProject Oid)
      (result : ReconcileResult Oid) (expectedGeneration : ℕ) (branch : Branch)
      (target : Option Oid)
  | prepared (caller : Caller) (name : String) (p : PreparedProject Oid)
      (candidate : PreparedInstall Oid)
  /-- It has returned; `none` is an error. -/
  | answered (caller : Caller) (name : String) (outcome : Option Outcome)

/-- What a refresh has found out about a project. -/
inductive Finding where
  | accessLost | offline | active
deriving DecidableEq

/-- The delivery's own call of `reconcile_exclusive` is at `none`. `findings`,
by the position of a project in the catalog, only looks back. -/
structure DaemonWorld (Oid Task : Type) where
  publish : PublishWorld Oid Task
  reconciling : Option Task → Reconciliation Oid
  findings : ℕ → Option Finding

inductive ReconcileEvent (Oid : Type) where
  /-- A `sync` request arrives. -/
  | sync (name : String)
  /-- The refresh of the request ends, with an error or without. -/
  | refreshed (ok : Bool)
  | background (name : String)
  | deliver
  | stage
  | locate
  /-- `cleared` is whether the records of the transactions that are over can be
  removed. -/
  | prepare (cleared : Bool) (rebase : Rebase Oid)
  /-- The merge of a result that needs no installation, and whether
  `catalog.json` is written. -/
  | merge (persisted : Bool)
  | install (installed : Installed) (cleared persisted : Bool)
  /-- The caller takes the answer; `error` is the text of an error. -/
  | answer (error : String)

inductive DaemonEvent (Oid Task : Type) where
  | publish (e : PublishEvent Oid Task)
  | reconcile (task : Option Task) (e : ReconcileEvent Oid)

def Outcome.text : Outcome → String
  | .applied => "applied"
  | .current => "current"
  | .conflict => "conflict"
  | .retry => "retry"

def RefreshAnswer.finding : RefreshAnswer Oid → Finding
  | .accessLost _ => .accessLost
  | .offline _ _ => .offline
  | .online _ _ => .active

section Answers

variable [DecidableEq Oid]

/-- A base that is the target is `current`. -/
def Rebase.answer (rebase : Rebase Oid) (base target : Oid) : Option (Option
    {result : ReconcileResult Oid // result.outcome = .current ∨ result.outcome = .conflict}) :=
  if base = target then some (some ⟨{ outcome := .current }, Or.inl rfl⟩)
  else match rebase with
    | .failed => none
    | .conflict detail =>
      some (some ⟨{ outcome := .conflict, detail := some detail }, Or.inr rfl⟩)
    | .ready _ => some none

def Rebase.answers (rebase : Rebase Oid) (branch : Branch) (head : Option Oid)
    (cleared : Bool) : PreparationAnswers Oid where
  branch := some branch
  head := head
  cleared := cleared
  prepared := rebase.answer

end Answers

def Installed.result (candidate : PreparedInstall Oid) :
    Installed → Option (ReconcileResult Oid)
  | .failed _ => none
  | .applied changedPaths => some {
      outcome := .applied, oldHead := some candidate.old, newHead := some candidate.new,
      changedPaths := changedPaths }
  | .retry detail => some { outcome := .retry, detail := some detail }
  | .conflict detail paths => some { outcome := .conflict, detail := some detail, paths := paths }

/-- Whether `update-ref` has moved the branch. -/
def Installed.moves : Installed → Bool
  | .failed moved => moved
  | .applied _ => true
  | _ => false

namespace DaemonWorld

/-- The daemon before its first request. -/
def initial (publish : PublishWorld Oid Task) : DaemonWorld Oid Task :=
  ⟨publish, fun _ => .idle, fun _ => none⟩

/-- The catalog position of the project that a name finds. -/
def position (w : DaemonWorld Oid Task) (name : String) : Option ℕ :=
  w.publish.catalog.projects.findIdx? (·.named name)

def place [DecidableEq Task] (w : DaemonWorld Oid Task) (task : Option Task)
    (r : Reconciliation Oid) : DaemonWorld Oid Task :=
  { w with reconciling := Function.update w.reconciling task r }

def setPublish (w : DaemonWorld Oid Task) (p : PublishWorld Oid Task) : DaemonWorld Oid Task :=
  { w with publish := p }

/-- The refresh of a project notes what it has found. -/
def note (w : DaemonWorld Oid Task) (name : String) (f : Finding) : DaemonWorld Oid Task :=
  match w.position name with
  | some i => { w with findings := Function.update w.findings i (some f) }
  | none => w

/-- What the recheck under the catalog lock compares for a complete result. -/
def stillComplete [DecidableEq Oid] (project : LocalProject Oid) (expectedGeneration : ℕ)
    (branch : Branch) (target : Option Oid) : Bool :=
  project.workspaceGeneration == expectedGeneration && project.advertisedHeads branch == target

section Steps

variable [DecidableEq Oid] [DecidableEq Task] (G : CommitGraph Oid)

def prepare (w : DaemonWorld Oid Task) (task : Option Task) (cleared : Bool)
    (rebase : Rebase Oid) : Option (DaemonWorld Oid Task) :=
  match w.reconciling task with
  | .located caller name project branch =>
    let head := (w.publish.checkouts project.localPath).headCommit
    match prepareProjectReconciliation G (rebase.answers branch head cleared) project with
    | none => some (w.place task (.answered caller name none))
    | some (.complete staged result expected branch target) =>
      some (w.place task (.complete caller name staged result expected branch target))
    | some (.prepared staged expected branch target) =>
      match rebase with
      | .ready candidate =>
        some (w.place task (.prepared caller name ⟨staged, expected, branch, target⟩ candidate))
      | _ => none
  | _ => none

def merge (w : DaemonWorld Oid Task) (task : Option Task) (persisted : Bool) :
    Option (DaemonWorld Oid Task) :=
  match w.reconciling task with
  | .complete caller name staged result expected branch target =>
    match findProject w.publish.catalog name with
    | none => some (w.place task (.answered caller name none))
    | some project =>
      if stillComplete project expected branch target then
        some ((w.setPublish (w.publish.setProject name (mergeReconciliationState · staged))).place
          task (.answered caller name (if persisted then some result.outcome else none)))
      else some (w.place task (.answered caller name (some .retry)))
  | _ => none

/-- The section under exclusive ownership: the recheck, the installation, and
the merge of what it gives. -/
def install (w : DaemonWorld Oid Task) (task : Option Task) (installed : Installed)
    (cleared persisted : Bool) : Option (DaemonWorld Oid Task) :=
  match w.reconciling task with
  | .prepared caller name p candidate =>
    match findProject w.publish.catalog name with
    | none => some (w.place task (.answered caller name none))
    | some project =>
      let current := (w.publish.checkouts project.localPath).headBranch
      if AccessWorld.stillWanted project p current then
        let moved := if installed.moves then
            w.publish.step G (.install project.localPath candidate.headRef candidate.new
              candidate.old)
          else some w.publish
        moved.map fun publish =>
          match (installed.result candidate).bind fun r =>
              (applyReconciliationResult p.staged p.branch p.target r cleared).map
                fun staged => (staged, r.outcome) with
          | none => (w.setPublish publish).place task (.answered caller name none)
          | some (staged, outcome) =>
            (w.setPublish (publish.setProject name (mergeReconciliationState · staged))).place
              task (.answered caller name (if persisted then some outcome else none))
      else some (w.place task (.answered caller name (if cleared then some .retry else none)))
  | _ => none

/-- The background task retries or notes an error, and the delivery goes on or
fails. -/
def answer (w : DaemonWorld Oid Task) (task : Option Task) (error : String) :
    Option (DaemonWorld Oid Task) :=
  match w.reconciling task with
  | .answered .background name outcome =>
    match outcome with
    | some .retry => some (w.place task (.called .background name))
    | some _ => some (w.place task .idle)
    | none =>
      some ((w.setPublish (w.publish.setProject name fun p =>
        { p with
          state := if p.state = .reconciling then .remoteAhead else p.state,
          lastError := some error })).place task .idle)
  | .answered .delivery _ outcome =>
    let e := match outcome with
      | some outcome => DeliveryEvent.reconcile outcome.text
      | none => .fail error
    (w.publish.deliver G e).map fun publish => (w.setPublish publish).place task .idle
  | .answered .sync _ _ => some (w.place task .idle)
  | _ => none

def reconcile (w : DaemonWorld Oid Task) (task : Option Task) :
    ReconcileEvent Oid → Option (DaemonWorld Oid Task)
  | .sync name =>
    match task, w.reconciling task with
    | some _, .idle => some (w.place task (.refreshing name))
    | _, _ => none
  | .refreshed ok =>
    match w.reconciling task with
    | .refreshing name => some (w.place task (if ok then .called .sync name else .idle))
    | _ => none
  | .background name =>
    match task, w.reconciling task with
    | some _, .idle => some (w.place task (.called .background name))
    | _, _ => none
  | .deliver =>
    match task, w.reconciling task, w.publish.delivery with
    | none, .idle, .reconciling _ p _ => some (w.place task (.called .delivery p.projectId))
    | _, _, _ => none
  | .stage =>
    match w.reconciling task with
    | .called caller name =>
      match findProject w.publish.catalog name with
      | some project => some (w.place task (.staged caller name project))
      | none => some (w.place task (.answered caller name none))
    | _ => none
  | .locate =>
    match w.reconciling task with
    | .staged caller name project =>
      match (w.publish.checkouts project.localPath).headBranch with
      | some branch => some (w.place task (.located caller name project branch))
      | none => some (w.place task (.answered caller name none))
    | _ => none
  | .prepare cleared rebase => w.prepare G task cleared rebase
  | .merge persisted => w.merge task persisted
  | .install installed cleared persisted => w.install G task installed cleared persisted
  | .answer error => w.answer G task error

/-- A step of the hooks, the refreshes, the users or the delivery. The
reconciliations have steps of their own. -/
def publishes (w : DaemonWorld Oid Task) (e : PublishEvent Oid Task) :
    Option (DaemonWorld Oid Task) :=
  match e with
  | .writeProject .. | .install .. | .deliver (.reconcile _) => none
  | .restart => (w.publish.step G e).map fun publish =>
      { w.setPublish publish with reconciling := fun _ => .idle }
  | .call task (.refreshHead answer) =>
    match w.publish.calls task with
    | .refreshing name _ =>
      (w.publish.step G e).map fun publish => (w.note name answer.finding).setPublish publish
    | _ => none
  | _ => (w.publish.step G e).map w.setPublish

def step (w : DaemonWorld Oid Task) : DaemonEvent Oid Task → Option (DaemonWorld Oid Task)
  | .publish e => w.publishes G e
  | .reconcile task e => w.reconcile G task e

end Steps

end DaemonWorld

end Resync
