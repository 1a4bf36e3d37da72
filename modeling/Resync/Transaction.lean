import Mathlib.Data.Finset.Sort
import Mathlib.Data.String.Basic
import Resync.Git.Rebase
import Resync.GitState
import Resync.Reconcile

/-! The reconciliation transaction (`transaction.rs`): preparing a candidate,
installing it, and recovering an installation that was cut short. The effects
of the last two are lists of atomic actions, so that a crash leaves the effect
of a prefix. -/
namespace Resync

variable {β : Type}

structure Candidate (β : Type) where
  workingCommit : Commit (Tree β)
  indexCommit : Commit (Tree β)
  realHead : Commit (Tree β)
  workingTree : Tree β
  indexTree : Tree β

structure TransactionConflict where
  kind : String
  paths : List String
  detail : String
deriving DecidableEq

inductive Phase where
  | preparing | installing | completed | conflicted | retry | rolledBack
deriving DecidableEq

/-- `recoveryRef` is the part of the ref below `refs/resync/recovery/`, and
`headRef` the branch below `refs/heads/`. -/
structure Transaction (β : Type) where
  id : String
  previousRemoteOid : Commit (Tree β)
  targetRemoteOid : Commit (Tree β)
  snapshot : WorkspaceSnapshot β
  recoveryRef : String
  headRef : Branch
  phase : Phase
  createdAt : ℕ
  candidate : Option (Candidate β)
  conflict : Option TransactionConflict
  completedAt : Option ℕ
  recoveredAt : Option ℕ

structure TransactionRetention where
  debugHistory : Bool

inductive Failure where
  /-- A failing Git command or file access, with the text that it prints. -/
  | command
  | bail (message : String)
deriving DecidableEq

/-- What the code is given by its surroundings: Git's merge, name diff and
pathspecs, the clock, a fresh transaction ID, what a failing rebase prints, and
the old records that `prune_debug_history` drops. -/
structure Env (β : Type) where
  merge : Tree β → Tree β → Tree β → Option (Tree β)
  diffNames : Tree β → Tree β → List String
  pathspecs : Pathspecs
  now : ℕ
  id : String
  rebaseDetail : String
  pruned : List (Transaction β)

/-- The checkout with its repository and the transactions directory. -/
structure Checkout (β : Type) where
  repo : Repository β
  transactions : String → Option (Transaction β)

inductive PreparedReconciliation (β : Type) where
  | complete (result : ReconcileResult (Commit (Tree β)))
  | ready (transaction : Transaction β)

def pathName (p : Path) : String := "/".intercalate p

/-- The colliding paths as a conflict lists them. -/
def collisionNames (collisions : Finset Path) : List String := (collisions.image pathName).sort

/-- `HEAD^`. -/
def firstParent (c : Commit (Tree β)) : Option (Commit (Tree β)) := c.parents.head?

/-- The committer that the rebase runs under; the author stays. -/
def reconcilerStamp (now : ℕ) (i : CommitInfo) : CommitInfo :=
  { i with committer := ⟨"RepoSync Reconciler", "reconcile@reposync.local", now⟩ }

/-- The layers read off the rebased branch as `HEAD`, `HEAD^` and `HEAD^^`. -/
def candidateOf (head : Commit (Tree β)) : Option (Candidate β) := do
  let indexCommit ← firstParent head
  let realHead ← firstParent indexCommit
  return ⟨head, indexCommit, realHead, head.tree, indexCommit.tree⟩

def recoveryRefName (t : Transaction β) : String := "refs/resync/recovery/" ++ t.recoveryRef

section Prepare

variable [DecidableEq β]

/-- The transaction record at the start of a preparation. -/
def newTransaction (env : Env β) (previous target : Commit (Tree β))
    (snapshot : WorkspaceSnapshot β) (headRef : Branch) : Transaction β where
  id := env.id
  previousRemoteOid := previous
  targetRemoteOid := target
  snapshot := snapshot
  recoveryRef := env.id
  headRef := headRef
  phase := .preparing
  createdAt := env.now
  candidate := none
  conflict := none
  completedAt := none
  recoveredAt := none

/-- The rebase of the synthetic chain in the temporary worktree. -/
def rebaseSynthetic (env : Env β) (previous target : Commit (Tree β))
    (snapshot : WorkspaceSnapshot β) : Option (Commit (Tree β)) :=
  rebaseOnto env.merge (reconcilerStamp env.now) target previous
    (createSyntheticChain env.now snapshot).workingCommit

/-- `prepare_reconciliation_with_retention`. -/
def prepareReconciliation (env : Env β) (r : Repository β) (previous target : Commit (Tree β)) :
    Except Failure (PreparedReconciliation β) :=
  match r.headBranch with
  | none => .error (.bail "detached or unborn HEAD is unsupported in RepoSync V1")
  | some headRef =>
    if r.unmerged then
      .error (.bail ("an unmerged index is unsupported; resolve or abort the existing Git " ++
        "operation first"))
    else match captureWorkspace r with
    | none => .error .command
    | some snapshot =>
      if previous = target then
        .ok (.complete { outcome := .current, head := some snapshot.head })
      else if ¬ Commit.Ancestor previous snapshot.head then
        .error (.bail "local HEAD does not descend from the last applied remote revision")
      else if ¬ Commit.Ancestor previous target then
        .error (.bail ("remote branch was rewritten or does not descend from the last applied " ++
          "revision"))
      else if Commit.merges previous snapshot.head ≠ [] then
        .error (.bail ("merge commits in unpublished local history are unsupported in " ++
          "RepoSync V1"))
      else
        let transaction := newTransaction env previous target snapshot headRef
        match rebaseSynthetic env previous target snapshot with
        | none => .ok (.complete {
            outcome := .conflict, transactionId := some transaction.id,
            recoveryRef := some (recoveryRefName transaction), detail := some env.rebaseDetail })
        | some head => match candidateOf head with
          | none => .error .command
          | some candidate => .ok (.ready { transaction with candidate := some candidate })

end Prepare

/-- One Git command, or one write or removal of a journal file. -/
inductive Action (β : Type) where
  | writeJournal (t : Transaction β)
  | removeJournal (id : String)
  | readTreeReset (tree : Tree β)
  | readTree (tree : Tree β)
  | updateRef (branch : Branch) (new old : Commit (Tree β))
  | deleteRecovery (recoveryRef : String) (slot : RecoverySlot)

/-- `remove_transaction_artifacts`. Deleting a ref that is not there succeeds. -/
def removeTransactionArtifacts (t : Transaction β) : List (Action β) :=
  [.deleteRecovery t.recoveryRef .head, .deleteRecovery t.recoveryRef .index,
    .deleteRecovery t.recoveryRef .working, .deleteRecovery t.recoveryRef .candidate,
    .removeJournal t.id]

/-- `persist_debug_transaction`, with the history it prunes. -/
def persistDebugTransaction (env : Env β) (t : Transaction β) : List (Action β) :=
  .writeJournal t :: env.pruned.flatMap removeTransactionArtifacts

/-- What is left of a finished transaction: its record under debug retention,
and nothing otherwise. -/
def finalizeTransaction (env : Env β) (retention : TransactionRetention) (t : Transaction β) :
    List (Action β) :=
  if retention.debugHistory then persistDebugTransaction env t else removeTransactionArtifacts t

/-- The effects of `install_candidate` past its checks. -/
def installActions (env : Env β) (retention : TransactionRetention) (t : Transaction β)
    (candidate : Candidate β) : List (Action β) :=
  [.writeJournal { t with phase := .installing }, .readTreeReset candidate.workingTree,
    .readTree candidate.indexTree, .updateRef t.headRef candidate.realHead t.snapshot.head] ++
  finalizeTransaction env retention { t with phase := .completed, completedAt := some env.now }

namespace Checkout

section Actions

variable [DecidableEq β]

def perform (c : Checkout β) : Action β → Option (Checkout β)
  | .writeJournal t => some { c with transactions := Function.update c.transactions t.id (some t) }
  | .removeJournal id => some { c with transactions := Function.update c.transactions id none }
  | .readTreeReset tree => some { c with repo := c.repo.readTreeReset tree }
  | .readTree tree => some { c with repo := c.repo.readTree tree }
  | .updateRef branch new old =>
    (c.repo.updateRef (.branch branch) new old).map fun r => { c with repo := r }
  | .deleteRecovery name slot => some { c with repo := c.repo.setRef (.recovery name slot) none }

/-- The state that a list of actions leaves, and whether all of them went
through. -/
def execute (c : Checkout β) : List (Action β) → Checkout β × Bool
  | [] => (c, true)
  | a :: as =>
    match c.perform a with
    | none => (c, false)
    | some c' => c'.execute as

section Install

variable {S : Type} (view : S → Checkout β) (run : S → List (Action β) → S × Bool)

/-- `install_candidate`, on a state that Git reads as the checkout `view` and in which
it runs actions. -/
def installCandidateBy (env : Env β) (retention : TransactionRetention) (t : Transaction β)
    (candidate : Candidate β) (s : S) : S × Except Failure (Option TransactionConflict) :=
  match captureWorkspace (view s).repo with
  | none => (s, .error .command)
  | some latest =>
    -- The workspace has changed since it was captured.
    if latest ≠ t.snapshot then
      (s, .ok (some ⟨"install-rejected", [],
        "workspace changed while reconciliation was prepared; retry at a new lease boundary"⟩))
    else match findUntrackedCollisions env.pathspecs (view s).repo
        (treePaths candidate.workingTree) with
    | none => (s, .error .command)
    | some collisions =>
      if collisions ≠ ∅ then
        let paths := (collisions.image pathName).sort
        (s, .ok (some ⟨"untracked-collision", paths,
          "incoming tracked paths collide with untracked files: " ++ ", ".intercalate paths⟩))
      else
        let done := run s (installActions env retention t candidate)
        (done.1, if done.2 then .ok none else .error .command)

/-- `install_prepared_reconciliation`. -/
def installPreparedBy (env : Env β) (retention : TransactionRetention)
    (prepared : PreparedReconciliation β) (s : S) :
    S × Except Failure (ReconcileResult (Commit (Tree β))) :=
  match prepared with
  | .complete result => (s, .ok result)
  | .ready t =>
    match t.candidate with
    | none => (s, .error (.bail "prepared reconciliation has no candidate"))
    | some candidate =>
      match installCandidateBy view run env retention t candidate s with
      | (s', .error e) => (s', .error e)
      | (s', .ok (some conflict)) =>
        if conflict.kind = "install-rejected" then
          let done := run s' (finalizeTransaction env retention
            { t with phase := .retry, completedAt := some env.now })
          (done.1, .ok { outcome := .retry, transactionId := some t.id,
                         detail := some conflict.detail })
        else
          let done := run s'
            [.writeJournal { t with phase := .conflicted, conflict := some conflict }]
          (done.1, .ok { outcome := .conflict, transactionId := some t.id,
                         recoveryRef := some (recoveryRefName t), detail := some conflict.detail,
                         paths := conflict.paths })
      | (s', .ok none) =>
        (s', .ok { outcome := .applied, transactionId := some t.id,
                   oldHead := some t.snapshot.head, newHead := some candidate.realHead,
                   changedPaths := env.diffNames t.previousRemoteOid.tree t.targetRemoteOid.tree })

end Install

/-- `install_candidate`. -/
def installCandidate (env : Env β) (retention : TransactionRetention) (t : Transaction β)
    (candidate : Candidate β) (c : Checkout β) :
    Checkout β × Except Failure (Option TransactionConflict) :=
  installCandidateBy (fun c => c) execute env retention t candidate c

/-- `install_prepared_reconciliation`. -/
def installPreparedReconciliation (env : Env β) (retention : TransactionRetention)
    (prepared : PreparedReconciliation β) (c : Checkout β) :
    Checkout β × Except Failure (ReconcileResult (Commit (Tree β))) :=
  installPreparedBy (fun c => c) execute env retention prepared c

/-- The actions of `recover_transaction_with_retention`, and the transaction
that it returns after them. -/
def recoverActions (env : Env β) (retention : TransactionRetention) (id : String)
    (c : Checkout β) : Except Failure (List (Action β) × Transaction β) :=
  match c.transactions id with
  | none => .error .command
  | some t =>
    match t.phase with
    | .preparing | .conflicted => .ok ([], t)
    | .completed | .rolledBack => .ok (finalizeTransaction env retention t, t)
    | .retry => .error (.bail "unknown transaction phase RETRY")
    | .installing =>
      match captureWorkspace c.repo with
      | none => .error .command
      | some current =>
        match t.candidate with
        | none => .error (.bail "installing transaction has no candidate")
        | some candidate =>
          -- HEAD tells whether the installation had moved the branch.
          if current.head = candidate.realHead then
            let t' := { t with phase := .completed, recoveredAt := some env.now }
            .ok (finalizeTransaction env retention t', t')
          else if current.head = t.snapshot.head then
            let t' := { t with phase := .rolledBack, recoveredAt := some env.now }
            .ok ([.readTreeReset t.snapshot.workingTree, .readTree t.snapshot.indexTree] ++
              finalizeTransaction env retention t', t')
          else .error (.bail ("transaction " ++ id ++
            ".json needs manual recovery; HEAD matches neither preserved state"))

/-- What an attempt to recover leaves that stops after at most `n` actions. -/
def recoverUpTo (env : Env β) (retention : TransactionRetention) (id : String) (n : ℕ)
    (c : Checkout β) : Checkout β :=
  match c.recoverActions env retention id with
  | .error _ => c
  | .ok (actions, _) => (c.execute (actions.take n)).1

/-- What `recover_transaction_with_retention` leaves. -/
def recoverTransaction (env : Env β) (retention : TransactionRetention) (id : String)
    (c : Checkout β) : Checkout β :=
  match c.recoverActions env retention id with
  | .error _ => c
  | .ok (actions, _) => (c.execute actions).1

end Actions

end Checkout

end Resync
