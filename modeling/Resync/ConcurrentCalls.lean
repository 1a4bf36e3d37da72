import Resync.CandidateLayers
import Resync.Daemon
import Resync.Installation
import Resync.TransactionsDirectory

/-! Any number of calls of `reconcile_exclusive` on one project (`daemon.rs`,
`transaction.rs`), with users who edit, commit and switch branches. A preparation holds
no lock: each of its reads is a step. The section that installs holds the gate and the
catalog, and users keep out of its Git commands. -/
namespace Resync

variable {β Task : Type}

/-- A commit of the repository. -/
abbrev Revision (β : Type) := Commit (Tree β)

/-- What `capture_workspace` has read. -/
inductive Capture (β : Type) where
  | started
  | head (head : Revision β)
  | index (head : Revision β) (indexTree : Tree β)

/-- The next read, or the snapshot after the last one; `none` for a failing command. -/
def Capture.next (r : Repository β) : Capture β → Option (Capture β ⊕ WorkspaceSnapshot β)
  | .started => r.headCommit.map fun commit => .inl (.head commit)
  | .head commit => r.writeTree.map fun tree => .inl (.index commit tree)
  | .index commit tree => some (.inr ⟨commit, tree, temporaryIndex r tree⟩)

section Preparation

variable [DecidableEq β]

/-- The base and the target that `prepare_project_reconciliation` passes on. -/
def preparationBase (project : LocalProject (Revision β)) (branch : Branch)
    (head : Revision β) : Option (Revision β × Revision β) :=
  match project.advertisedHeads branch with
  | none => none
  | some target =>
    if head = target ∨ (Commit.graph (Tree β)).isAncestor target head then none
    else (reconciliationBase (Commit.graph (Tree β))
      { project with activeBranch := some branch } branch target head).map (·, target)

end Preparation

/-- `write_recovery_refs`. -/
def Repository.writeRecoveryRefs (r : Repository β) (id : String) (snapshot : WorkspaceSnapshot β)
    (chain : SyntheticChain β) : Repository β :=
  ((r.setRef (.recovery id .head) (some snapshot.head)).setRef (.recovery id .index)
    (some chain.indexCommit)).setRef (.recovery id .working) (some chain.workingCommit)

/-- What a preparation has read when it comes to `prepare_reconciliation_with_retention`:
the clone of the record, the branch of the first look at HEAD, and the head of the first
capture. -/
structure Preparing (β : Type) where
  project : LocalProject (Revision β)
  branch : Branch
  head : Revision β
  previous : Revision β
  target : Revision β

/-- An installation, with the repository before and after its Git commands and the
project's record when the branch moves. -/
structure Install (β : Type) where
  p : PreparedProject (Revision β)
  env : Env β
  t : Transaction β
  candidate : Candidate β
  before : Repository β
  record : LocalProject (Revision β)
  after : Repository β

/-- Where a call of `reconcile_exclusive` stands between two of its steps. -/
inductive CallPlace (β : Type) where
  | idle
  | staged (project : LocalProject (Revision β))
  /-- `current_branch` has been read, and the first capture is under way. -/
  | looking (project : LocalProject (Revision β)) (branch : Branch) (capture : Capture β)
  | opened (c : Preparing β)
  /-- The second look at HEAD has found a branch. -/
  | attached (c : Preparing β)
  | capturing (c : Preparing β) (capture : Capture β)
  | captured (c : Preparing β) (snapshot : WorkspaceSnapshot β)
  /-- `read_head_ref` has been read. -/
  | referenced (c : Preparing β) (env : Env β) (t : Transaction β)
  /-- The temporary worktree and its branch are still there. -/
  | rebased (c : Preparing β) (env : Env β) (result : PreparedReconciliation β)
  | complete (record : LocalProject (Revision β)) (result : ReconcileResult (Revision β))
      (expectedGeneration : ℕ) (branch : Branch) (target : Option (Revision β))
  | prepared (p : PreparedProject (Revision β)) (env : Env β) (t : Transaction β)
  /-- The first `done` actions of the installation are over. -/
  | installing (p : PreparedProject (Revision β)) (env : Env β) (t : Transaction β)
      (candidate : Candidate β) (before : Repository β) (done : ℕ)
  | moved (i : Install β)
  /-- The files that a scan of the transactions directory has listed and not yet read;
  `last` is whether it is the one of `clear_resolved_conflicts`. -/
  | scanning (i : Install β) (ids : List String) (last : Bool)
  | finalized (i : Install β)
  | cleared (i : Install β)
  /-- It has returned; `none` is an error. -/
  | answered (outcome : Option Outcome) (install : Option (Install β))

namespace CallPlace

/-- It holds the gate and the catalog. -/
def exclusive : CallPlace β → Bool
  | .installing .. | .moved _ | .scanning .. | .finalized _ | .cleared _ => true
  | _ => false

/-- It is in the preparation, or waits for the gate. -/
def preparing : CallPlace β → Bool
  | .staged _ | .looking .. | .opened _ | .attached _ | .capturing .. | .captured .. => true
  | .referenced .. | .rebased .. | .prepared .. => true
  | _ => false

/-- The Git commands of an installation run. -/
def runsGit : CallPlace β → Bool
  | .installing .. => true
  | _ => false

def hasWorktree : CallPlace β → Bool
  | .rebased .. => true
  | _ => false

/-- It can begin. -/
def free : CallPlace β → Bool
  | .idle | .answered .. => true
  | _ => false

end CallPlace

/-- The transactions directory holds the records of this project. `scratch` is the branch
`resync-candidate-<id>` of a call, whose name is fresh; `exclusive` is the call that holds
the gate and the catalog. -/
structure CallsWorld (β Task : Type) where
  checkout : Checkout β
  project : LocalProject (Revision β)
  calls : Task → CallPlace β
  scratch : Task → Option (Revision β)
  exclusive : Option Task

inductive CallsEvent (β Task : Type) where
  /-- An edit, a commit or a switch: users leave the checkout like this. -/
  | user (repo : Repository β)
  /-- A refresh or a completion writes the record; none changes the generation. -/
  | refresh (record : LocalProject (Revision β))
  | stage (task : Task)
  /-- `cleared` is whether the records of resolved conflicts can be removed. -/
  | look (task : Task) (cleared : Bool)
  /-- The next read of a capture. -/
  | read (task : Task) (cleared : Bool)
  /-- `current_branch` or `ls-files --unmerged`. -/
  | check (task : Task)
  | reference (task : Task) (env : Env β)
  | rebase (task : Task)
  | cleanUp (task : Task) (cleared : Bool)
  /-- A preparation removes the record of a transaction that is over. -/
  | remove (task : Task) (id : String)
  /-- A command of the preparation fails, or a scan of the clean-up after it. -/
  | fail (task : Task)
  | merge (task : Task)
  /-- The recheck under the gate, and the checks of `install_candidate`. -/
  | install (task : Task) (env : Env β)
  /-- The next Git command of the installation. -/
  | act (task : Task)
  | finalize (task : Task) (env : Env β) (listed : List String)
  /-- The scan reads its next file. -/
  | scan (task : Task)
  /-- The scan is over, and drops old history. -/
  | scanned (task : Task) (dropped : List (Transaction β))
  | clear (task : Task) (listed : List String)
  /-- The result is merged into the record. -/
  | record (task : Task)

namespace CallsWorld

def repo (w : CallsWorld β Task) : Repository β := w.checkout.repo

def initial (checkout : Checkout β) (project : LocalProject (Revision β)) :
    CallsWorld β Task where
  checkout := checkout
  project := project
  calls _ := .idle
  scratch _ := none
  exclusive := none

/-- No Git command of an installation runs. -/
def quiet (w : CallsWorld β Task) : Bool :=
  match w.exclusive with
  | some task => !(w.calls task).runsGit
  | none => true

/-- The record that goes with a ready candidate. -/
def readyProject (c : Preparing β) : PreparedProject (Revision β) where
  staged := { c.project with activeBranch := some c.branch, state := .reconciling }
  expectedGeneration := c.project.workspaceGeneration
  branch := c.branch
  target := c.target

/-- `ls` finds these files. -/
def Lists (c : Checkout β) (ids : List String) : Prop := ∀ id ∈ ids, (c.transactions id).isSome

instance (c : Checkout β) (ids : List String) : Decidable (Lists c ids) :=
  inferInstanceAs (Decidable (∀ id ∈ ids, (c.transactions id).isSome = true))

section Steps

variable [DecidableEq β]

/-- The workspace is the snapshot, and no untracked file is in the way. -/
def Passes (env : Env β) (t : Transaction β) (candidate : Candidate β) (r : Repository β) : Prop :=
  captureWorkspace r = some t.snapshot ∧
    findUntrackedCollisions env.pathspecs r (treePaths candidate.workingTree) = some ∅

instance (env : Env β) (t : Transaction β) (candidate : Candidate β) (r : Repository β) :
    Decidable (Passes env t candidate r) := inferInstanceAs (Decidable (_ ∧ _))

/-- Where a preparation ends that has nothing to install. -/
def conclude (project : LocalProject (Revision β)) (branch : Branch) (head : Option (Revision β))
    (cleared : Bool) (result : Option (ReconcileResult (Revision β))) : CallPlace β :=
  let answers : PreparationAnswers (Revision β) :=
    { branch := some branch, head := head, cleared := cleared,
      prepared := fun _ _ => result.bind fun r =>
        if h : r.outcome = .current ∨ r.outcome = .conflict then some (some ⟨r, h⟩) else none }
  match prepareProjectReconciliation (Commit.graph (Tree β)) answers project with
  | some (.complete record result expected branch target) =>
    .complete record result expected branch target
  | _ => .answered none none

/-- Where the first capture leads, of which only the head is used. -/
def afterLooking (project : LocalProject (Revision β)) (branch : Branch) (cleared : Bool) :
    Option (Capture β ⊕ WorkspaceSnapshot β) → CallPlace β
  | none => .answered none none
  | some (.inl capture) => .looking project branch capture
  | some (.inr snapshot) =>
    match preparationBase project branch snapshot.head with
    | none => conclude project branch (some snapshot.head) cleared none
    | some (previous, target) => .opened ⟨project, branch, snapshot.head, previous, target⟩

/-- Where the second capture leads. -/
def afterCapturing (c : Preparing β) (cleared : Bool) :
    Option (Capture β ⊕ WorkspaceSnapshot β) → CallPlace β
  | none => .answered none none
  | some (.inl capture) => .capturing c capture
  | some (.inr snapshot) =>
    match checkRange c.previous c.target snapshot.head with
    | .error _ => .answered none none
    | .ok false => conclude c.project c.branch (some c.head) cleared
        (some { outcome := .current, head := some snapshot.head })
    | .ok true => .captured c snapshot

/-- The records that a preparation leaves of its transaction. -/
def journal (retention : TransactionRetention) (env : Env β) (t : Transaction β) :
    PreparedReconciliation β → List (Action β)
  | .complete result => [.writeJournal { t with
      phase := .conflicted,
      conflict := some ⟨"git-rebase", [], result.detail.getD ""⟩ }]
  | .ready t => if retention.debugHistory then persistDebugTransaction env t else []

variable [DecidableEq Task]

def place (w : CallsWorld β Task) (task : Task) (p : CallPlace β) : CallsWorld β Task :=
  { w with calls := Function.update w.calls task p }

/-- The place of a call, and the checkout with it. -/
def move (w : CallsWorld β Task) (task : Task) (c : Checkout β) (p : CallPlace β) :
    CallsWorld β Task :=
  { w with checkout := c, calls := Function.update w.calls task p }

/-- The call gives up the gate and the catalog. -/
def release (w : CallsWorld β Task) : CallsWorld β Task := { w with exclusive := none }

def dropWorktree (w : CallsWorld β Task) (task : Task) : CallsWorld β Task :=
  { w with scratch := Function.update w.scratch task none }

variable (retention : TransactionRetention)

/-- `discard_prepared_reconciliation`, up to a scan of its clean-up. -/
def discard (env : Env β) (t : Transaction β) (c : Checkout β) : Checkout β :=
  (c.execute (finalizeTransaction env retention
    { t with phase := .retry, completedAt := some env.now })).1

/-- `install_prepared_reconciliation` where the checks fail, and the merge of what it
answers. -/
def reject (w : CallsWorld β Task) (task : Task) (env : Env β)
    (p : PreparedProject (Revision β)) (t : Transaction β) : CallsWorld β Task :=
  match w.checkout.installPreparedReconciliation env retention (.ready t) with
  | (c, .error _) => w.move task c (.answered none none)
  | (c, .ok result) =>
    match applyReconciliationResult p.staged p.branch p.target result true with
    | none => w.move task c (.answered none none)
    | some staged =>
      { w.move task c (.answered (some result.outcome) none) with
        project := mergeReconciliationState w.project staged }

def install (w : CallsWorld β Task) (task : Task) (env : Env β) : Option (CallsWorld β Task) :=
  match w.calls task, w.exclusive with
  | .prepared p rebaseEnv t, none =>
    if AccessWorld.stillWanted w.project p w.repo.headBranch then
      match t.candidate with
      | none => some (w.place task (.answered none none))
      | some candidate =>
        if Passes env t candidate w.repo then
          some { w.place task (.installing p rebaseEnv t candidate w.repo 0) with
            exclusive := some task }
        else some (w.reject retention task env p t)
    else some (w.move task (discard retention env t w.checkout) (.answered (some .retry) none))
  | _, _ => none

def act (w : CallsWorld β Task) (task : Task) : Option (CallsWorld β Task) :=
  match w.calls task with
  | .installing p env t candidate before done =>
    ((gitActions t candidate)[done]?).map fun a =>
      match w.checkout.perform a with
      | none =>
        let i := ⟨p, env, t, candidate, before, w.project, w.repo⟩
        (w.place task (.answered none (some i))).release
      | some c =>
        if done = 3 then w.move task c (.moved ⟨p, env, t, candidate, before, w.project, c.repo⟩)
        else w.move task c (.installing p env t candidate before (done + 1))
  | _ => none

/-- The end of `install_candidate`. Under debug retention the directory is scanned. -/
def finalize (w : CallsWorld β Task) (task : Task) (env : Env β) (listed : List String) :
    Option (CallsWorld β Task) :=
  match w.calls task with
  | .moved i =>
    let t := { i.t with phase := .completed, completedAt := some env.now }
    if retention.debugHistory then
      let c := (w.checkout.execute [.writeJournal t]).1
      if Lists c listed then some (w.move task c (.scanning i listed false)) else none
    else
      some (w.move task (w.checkout.execute (removeTransactionArtifacts t)).1 (.finalized i))
  | _ => none

/-- A scan ends on the first file that it does not find any more. The last one removes the
conflicts, without debug retention. -/
def scan (w : CallsWorld β Task) (task : Task) : Option (CallsWorld β Task) :=
  match w.calls task with
  | .scanning i (id :: ids) last =>
    match clearStep (fun t => last && !retention.debugHistory && t.phase == .conflicted)
        (.ofRecord (w.checkout.transactions id)) with
    | .fails => some (w.place task (.answered none (some i))).release
    | .passes => some (w.move task w.checkout (.scanning i ids last))
    | .removes t => some (w.move task (w.checkout.execute (removeTransactionArtifacts t)).1
        (.scanning i ids last))
  | _ => none

/-- Which records of old history are dropped is left open. -/
def scanned (w : CallsWorld β Task) (task : Task) (dropped : List (Transaction β)) :
    Option (CallsWorld β Task) :=
  match w.calls task with
  | .scanning i [] last =>
    let c := if retention.debugHistory then
        (w.checkout.execute (dropped.flatMap removeTransactionArtifacts)).1
      else w.checkout
    some (w.move task c (if last then .cleared i else .finalized i))
  | _ => none

def record (w : CallsWorld β Task) (task : Task) : Option (CallsWorld β Task) :=
  match w.calls task with
  | .cleared i =>
    let result : ReconcileResult (Revision β) := {
      outcome := .applied, transactionId := some i.t.id, oldHead := some i.t.snapshot.head,
      newHead := some i.candidate.realHead,
      changedPaths := i.env.diffNames i.t.previousRemoteOid.tree i.t.targetRemoteOid.tree }
    (applyReconciliationResult i.p.staged i.p.branch i.p.target result true).map fun staged =>
      { (w.place task (.answered (some .applied) (some i))).release with
        project := mergeReconciliationState w.project staged }
  | _ => none

/-- The steps of a preparation. -/
def prepare (w : CallsWorld β Task) : CallsEvent β Task → Option (CallsWorld β Task)
  | .stage task =>
    if (w.calls task).free ∧ w.exclusive = none then some (w.place task (.staged w.project))
    else none
  | .look task cleared =>
    match w.calls task with
    | .staged project =>
      match w.repo.headBranch with
      | none => some (w.place task (.answered none none))
      | some branch =>
        -- A branch that is not advertised has nothing to reconcile with.
        match project.advertisedHeads branch with
        | none => some (w.place task (conclude project branch none cleared none))
        | some _ => some (w.place task (.looking project branch .started))
    | _ => none
  | .read task cleared =>
    match w.calls task with
    | .looking project branch capture =>
      some (w.place task (afterLooking project branch cleared (capture.next w.repo)))
    | .capturing c capture =>
      some (w.place task (afterCapturing c cleared (capture.next w.repo)))
    | _ => none
  | .check task =>
    match w.calls task with
    | .opened c =>
      some (w.place task (if w.repo.headBranch = none then .answered none none else .attached c))
    | .attached c =>
      some (w.place task (if w.repo.unmerged then .answered none none else .capturing c .started))
    | _ => none
  | .reference task env =>
    match w.calls task with
    | .captured c snapshot =>
      let chain := createSyntheticChain env.now snapshot
      let checkout := { w.checkout with repo := w.repo.writeRecoveryRefs env.id snapshot chain }
      -- The refs are written by the time that HEAD is read again.
      match w.repo.headBranch with
      | none => some (w.move task checkout (.answered none none))
      | some headRef => some (w.move task checkout
          (.referenced c env (newTransaction env c.previous c.target snapshot headRef)))
    | _ => none
  | .rebase task =>
    match w.calls task with
    | .referenced c env t =>
      match rebaseTransaction env t with
      | .error _ => some (w.place task (.answered none none))
      | .ok result => some { w.move task (w.checkout.execute (journal retention env t result)).1
          (.rebased c env result) with
          scratch := Function.update w.scratch task
            (some (createSyntheticChain env.now t.snapshot).workingCommit) }
    | _ => none
  | .cleanUp task cleared =>
    match w.calls task with
    | .rebased c env (.ready t) =>
      some ((w.place task (.prepared (readyProject c) env t)).dropWorktree task)
    | .rebased c _ (.complete result) =>
      some ((w.place task (conclude c.project c.branch (some c.head) cleared
        (some result))).dropWorktree task)
    | _ => none
  | .remove task id =>
    match w.checkout.transactions id with
    | some t =>
      if (w.calls task).preparing ∧ t.phase ≠ .installing then
        some { w with checkout := (w.checkout.execute (removeTransactionArtifacts t)).1 }
      else none
    | none => none
  | .fail task =>
    if (w.calls task).preparing then
      some ((w.place task (.answered none none)).dropWorktree task)
    else none
  | _ => none

def step (w : CallsWorld β Task) : CallsEvent β Task → Option (CallsWorld β Task)
  | .user repo =>
    if w.quiet then some { w with checkout := { w.checkout with repo := repo } } else none
  | .refresh record =>
    if w.exclusive = none ∧ record.workspaceGeneration = w.project.workspaceGeneration then
      some { w with project := record }
    else none
  | .merge task =>
    match w.calls task, w.exclusive with
    | .complete record result expected branch target, none =>
      if DaemonWorld.stillComplete w.project expected branch target then
        some { w.place task (.answered (some result.outcome) none) with
          project := mergeReconciliationState w.project record }
      else some (w.place task (.answered (some .retry) none))
    | _, _ => none
  | .install task env => w.install retention task env
  | .act task => w.act task
  | .finalize task env listed => w.finalize retention task env listed
  | .scan task => w.scan retention task
  | .scanned task dropped => w.scanned retention task dropped
  | .clear task listed =>
    match w.calls task with
    | .finalized i =>
      if Lists w.checkout listed then some (w.place task (.scanning i listed true)) else none
    | _ => none
  | .record task => w.record task
  | e => w.prepare retention e

end Steps

end CallsWorld

end Resync
