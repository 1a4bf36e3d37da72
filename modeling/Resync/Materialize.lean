import Mathlib.Data.Finset.Option
import Resync.Lib.Runs
import Resync.Recovery
import Resync.SyntheticCommits

/-! One checkout that reconciliations and `materialize_project` (`remote.rs`)
share. A preparation holds its synthetic commits in an ordinary branch while it
runs, and leaves it there when it stops in between. -/
namespace Resync

variable {β : Type}

def candidateBranch (id : String) : Branch := "resync-candidate-" ++ id

/-- The branch has the name of a candidate's. -/
def IsCandidate (b : Branch) : Prop := "resync-candidate-".toList <+: b.toList

instance (b : Branch) : Decidable (IsCandidate b) := inferInstanceAs (Decidable (_ <+: _))

theorem isCandidate_candidateBranch (id : String) : IsCandidate (candidateBranch id) := by
  have happend : (candidateBranch id).toList = "resync-candidate-".toList ++ id.toList :=
    String.toList_append ..
  exact ⟨id.toList, happend.symm⟩

/-- What one Git command leaves at a ref. -/
abbrev RefUpdate (β : Type) := Ref × Option (Commit (Tree β))

section Updates

variable [DecidableEq β]

/-- The cleanup of a preparation that has failed: `branch -D`, and the recovery
refs unless they are kept for debugging. -/
def failedUpdates (retention : TransactionRetention) (id : String) : List (RefUpdate β) :=
  (.branch (candidateBranch id), none) ::
    if retention.debugHistory then [] else
      [(.recovery id .head, none), (.recovery id .index, none), (.recovery id .working, none),
        (.recovery id .candidate, none)]

/-- The refs that `prepare_reconciliation_with_retention` writes past its
checks, in order: the recovery refs, the branch of the temporary worktree, what
the rebase makes of it, and the cleanup. -/
def candidateUpdates (env : Env β) (retention : TransactionRetention)
    (previous target : Commit (Tree β)) (snapshot : WorkspaceSnapshot β) : List (RefUpdate β) :=
  let chain := createSyntheticChain env.now snapshot
  let branch := Ref.branch (candidateBranch env.id)
  [(.recovery env.id .head, some snapshot.head), (.recovery env.id .index, some chain.indexCommit),
    (.recovery env.id .working, some chain.workingCommit), (branch, some chain.workingCommit)] ++
  match rebaseSynthetic env previous target snapshot with
  | none => [(branch, none)]
  | some head => (branch, some head) ::
    match candidateOf head with
    | none => failedUpdates retention env.id
    | some candidate =>
      [(.recovery env.id .candidate, some candidate.workingCommit), (branch, none)]

/-- The checks that come before the synthetic commits are made. -/
def PassesChecks (r : Repository β) (previous target : Commit (Tree β))
    (snapshot : WorkspaceSnapshot β) : Prop :=
  r.headBranch ≠ none ∧ r.unmerged = false ∧ previous ≠ target ∧
    Commit.Ancestor previous snapshot.head ∧ Commit.Ancestor previous target ∧
    Commit.merges previous snapshot.head = []

instance (r : Repository β) (previous target : Commit (Tree β)) (snapshot : WorkspaceSnapshot β) :
    Decidable (PassesChecks r previous target snapshot) := inferInstanceAs (Decidable (_ ∧ _))

/-- A preparation in progress: what it will return, and the refs that it has
not written yet. -/
structure Preparation (β : Type) where
  id : String
  retention : TransactionRetention
  result : Except Failure (PreparedReconciliation β)
  updates : List (RefUpdate β)

def Preparation.begin (env : Env β) (retention : TransactionRetention) (r : Repository β)
    (previous target : Commit (Tree β)) : Preparation β where
  id := env.id
  retention := retention
  result := prepareReconciliation env r previous target
  updates :=
    match captureWorkspace r with
    | none => []
    | some snapshot =>
      if PassesChecks r previous target snapshot then
        candidateUpdates env retention previous target snapshot
      else []

/-- The next command of the preparation fails. Nothing is cleaned up while the
first recovery refs are written, and a cleanup that fails is not noticed. -/
def Preparation.fail (p : Preparation β) : Option (Preparation β) :=
  match p.updates with
  | [] => none
  | (.branch _, none) :: rest => some { p with updates := rest }
  | (.recovery _ _, none) :: _ => some { p with updates := [] }
  | (.recovery _ slot, some _) :: _ =>
    some { p with
      result := .error .command,
      updates := if slot = .candidate then failedUpdates p.retention p.id else [] }
  | (.branch _, some _) :: _ =>
    some { p with result := .error .command, updates := failedUpdates p.retention p.id }

end Updates

/-- Where `materialize_project` stands. -/
inductive Materialization (β : Type) where
  /-- `fetch_remote` has returned these heads. -/
  | fetched (hosted : FiniteMap Branch (Commit (Tree β)))
  /-- It will push `refs/heads/*`. -/
  | pushAll
  | pushNamed (names : Finset Branch)

/-- The checkout, the hosted repository, and the processes at work. `branches`
has every name that a branch was ever made under, `tracking` the remote heads
as last fetched, and `queue` the publications to deliver. -/
structure HostedCheckout (β : Type) where
  checkout : Checkout β
  branches : Finset Branch
  hosted : FiniteMap Branch (Commit (Tree β))
  tracking : FiniteMap Branch (Commit (Tree β))
  preparing : ℕ → Option (Preparation β)
  materializing : ℕ → Option (Materialization β)
  queue : List (Branch × Commit (Tree β))

inductive HostedEvent (β : Type) where
  /-- The user edits files or the index. -/
  | edit (index : Tree β) (unmerged : Bool) (disk : Disk β)
  /-- The user commits on, resets, makes or deletes a branch. -/
  | moveBranch (branch : Branch) (commit : Option (Commit (Tree β)))
  | switch (head : Head β)
  /-- Another client pushes. -/
  | otherPush (branch : Branch) (commit : Commit (Tree β))
  | fetch
  /-- A commit is queued for publication: HEAD's, or a branch's. -/
  | enqueue (branch : Branch) (source : Option Branch)
  | deliver (branch : Branch) (commit : Commit (Tree β))
  | begin (process : ℕ) (env : Env β) (retention : TransactionRetention)
      (previous : Commit (Tree β)) (branch : Branch)
  | continue (process : ℕ)
  | fail (process : ℕ)
  /-- The process stops. -/
  | stop (process : ℕ)
  /-- The prepared candidate is installed, or at most so many actions of it. -/
  | install (process : ℕ) (env : Env β) (cut : Option ℕ)
  | recover (env : Env β) (retention : TransactionRetention) (id : String) (cut : ℕ)
  | materialize (process : ℕ)
  | select (process : ℕ)
  | push (process : ℕ)

namespace HostedCheckout

def branch (w : HostedCheckout β) (b : Branch) : Option (Commit (Tree β)) :=
  w.checkout.repo.refs (.branch b)

def withRepo (w : HostedCheckout β) (r : Repository β) : HostedCheckout β :=
  { w with checkout := { w.checkout with repo := r } }

def setRef (w : HostedCheckout β) (ref : Ref) (c : Option (Commit (Tree β))) : HostedCheckout β :=
  { w.withRepo (w.checkout.repo.setRef ref c) with
    branches := match ref with
      | .branch b => insert b w.branches
      | .recovery _ _ => w.branches }

/-- `local_heads`. -/
def localHeads (w : HostedCheckout β) : Finset Branch :=
  w.branches.filter fun b => (w.branch b).isSome

section Publishing

variable [DecidableEq β]

/-- The local and the hosted history of some branch diverge. -/
def Diverges (w : HostedCheckout β) (hosted : FiniteMap Branch (Commit (Tree β))) : Prop :=
  ∃ b ∈ w.localHeads, ∃ mine ∈ w.branch b, ∃ theirs ∈ hosted.get b,
    ¬ Commit.Ancestor theirs mine ∧ ¬ Commit.Ancestor mine theirs

instance (w : HostedCheckout β) (hosted : FiniteMap Branch (Commit (Tree β))) :
    Decidable (w.Diverges hosted) := inferInstanceAs (Decidable (∃ b ∈ w.localHeads, _))

/-- A push of `mine` without force moves a branch from `theirs`. -/
def FastForwards (theirs mine : Option (Commit (Tree β))) : Prop :=
  match theirs, mine with
  | _, none => False
  | none, some _ => True
  | some r, some l => r ≠ l ∧ Commit.Ancestor r l

instance (theirs mine : Option (Commit (Tree β))) : Decidable (FastForwards theirs mine) :=
  match theirs, mine with
  | _, none => .isFalse id
  | none, some _ => .isTrue trivial
  | some r, some l => inferInstanceAs (Decidable (r ≠ l ∧ Commit.Ancestor r l))

/-- The branches that `materialize_project` finds to be absent in the hosted
repository or ahead of it. -/
def toPublish (w : HostedCheckout β) (hosted : FiniteMap Branch (Commit (Tree β))) :
    Finset Branch :=
  w.localHeads.filter fun b => FastForwards (hosted.get b) (w.branch b)

/-- What follows the fetch: nothing, or a push. -/
def selected (w : HostedCheckout β) (hosted : FiniteMap Branch (Commit (Tree β))) :
    Option (Materialization β) :=
  if hosted.keys = ∅ then
    if w.localHeads = ∅ then none else some .pushAll
  else if w.Diverges hosted then none
  else if w.toPublish hosted = ∅ then none
  else some (.pushNamed (w.toPublish hosted))

/-- The branches that a push names. A name without a ref fails the push. -/
def pushed (w : HostedCheckout β) : Materialization β → Finset Branch
  | .fetched _ => ∅
  | .pushAll => w.localHeads
  | .pushNamed names => if names ⊆ w.localHeads then names else ∅

/-- The branches that the hosted repository moves. -/
def accepted (w : HostedCheckout β) (m : Materialization β) : Finset Branch :=
  (w.pushed m).filter fun b => FastForwards (w.hosted.get b) (w.branch b)

def pushTo (w : HostedCheckout β) (m : Materialization β) : FiniteMap Branch (Commit (Tree β)) :=
  .collect (w.hosted.keys ∪ w.accepted m) fun b =>
    if b ∈ w.accepted m then w.branch b else w.hosted.get b

/-- The user leaves the candidate branches alone. -/
def UserHead : Head β → Prop
  | .attached b => ¬ IsCandidate b
  | .detached c => Clean c

omit [DecidableEq β] in
instance : DecidablePred (UserHead : Head β → Prop)
  | .attached b => inferInstanceAs (Decidable (¬ IsCandidate b))
  | .detached c => inferInstanceAs (Decidable (Clean c))

def installed (w : HostedCheckout β) (env : Env β) (retention : TransactionRetention)
    (t : Transaction β) : Option ℕ → Checkout β
  | none => (Checkout.installPreparedReconciliation env retention (.ready t) w.checkout).1
  | some n =>
    match t.candidate with
    | none => w.checkout
    | some candidate => installUpTo env retention t candidate n w.checkout

/-- Users and other clients make commits of their own, on branches of their
own; everything else is the program. -/
def step (w : HostedCheckout β) : HostedEvent β → Option (HostedCheckout β)
  | .edit index unmerged disk =>
    some (w.withRepo { w.checkout.repo with index := index, unmerged := unmerged, disk := disk })
  | .moveBranch b c =>
    if ¬ IsCandidate b ∧ ∀ x ∈ c, Clean x then some (w.setRef (.branch b) c) else none
  | .switch head =>
    if UserHead head then some (w.withRepo { w.checkout.repo with head := head }) else none
  | .otherPush b c =>
    if Clean c ∧ ∀ x ∈ w.hosted.get b, Commit.Ancestor x c then
      some { w with hosted := w.hosted.set b (some c) }
    else none
  | .fetch => some { w with tracking := w.hosted }
  | .enqueue b source =>
    match source with
    | none => w.checkout.repo.headCommit.map fun c => { w with queue := w.queue ++ [(b, c)] }
    | some name =>
      if IsCandidate name then none
      else (w.branch name).map fun c => { w with queue := w.queue ++ [(b, c)] }
  | .deliver b c =>
    if (b, c) ∈ w.queue then some { w with hosted := w.hosted.set b (some c) } else none
  | .begin process env retention previous b =>
    match w.tracking.get b, w.preparing process, w.branch (candidateBranch env.id) with
    | some target, none, none => some { w with
        preparing := Function.update w.preparing process
          (some (.begin env retention w.checkout.repo previous target)) }
    | _, _, _ => none
  | .continue process =>
    match w.preparing process with
    | some ⟨id, retention, result, (ref, c) :: rest⟩ => some { w.setRef ref c with
        preparing := Function.update w.preparing process (some ⟨id, retention, result, rest⟩) }
    | _ => none
  | .fail process =>
    ((w.preparing process).bind Preparation.fail).map fun p =>
      { w with preparing := Function.update w.preparing process (some p) }
  | .stop process => some { w with
      preparing := Function.update w.preparing process none,
      materializing := Function.update w.materializing process none }
  | .install process env cut =>
    match w.preparing process with
    | some ⟨_, retention, .ok (.ready t), []⟩ => some { w with
        checkout := w.installed env retention t cut,
        preparing := Function.update w.preparing process none }
    | _ => none
  | .recover env retention id cut =>
    some { w with checkout := w.checkout.recoverUpTo env retention id cut }
  | .materialize process => some { w with
      tracking := w.hosted,
      materializing := Function.update w.materializing process (some (.fetched w.hosted)) }
  | .select process =>
    match w.materializing process with
    | some (.fetched hosted) => some { w with
        materializing := Function.update w.materializing process (w.selected hosted) }
    | _ => none
  | .push process =>
    match w.materializing process with
    | some m => some { w with
        hosted := w.pushTo m,
        tracking := w.pushTo m,
        materializing := Function.update w.materializing process none }
    | none => none

end Publishing

end HostedCheckout

end Resync
