import Resync.LastApplied

/-! One project record and the critical sections that write it (`daemon.rs`):
the two halves of `reconcile_exclusive`, `complete_publication`, the
`reportCheckout` request and `refresh`. What Git answers is the same whenever
it is asked the same. -/
namespace Resync

variable {Oid : Type}

/-- The record of a project and the refs of its checkout. -/
structure RecordWorld (Oid : Type) where
  record : LocalProject Oid
  refs : LocalRefs Oid

structure RecordAnswers (Oid : Type) where
  /-- The hosted heads that `fetch_remote_branch` finds. -/
  hosted : Branch → Option Oid
  /-- Whether `clear_resolved_conflicts` succeeds while a reconciliation is
  prepared. -/
  cleared : Bool
  /-- The rebase in a checkout with these refs, for a base and a target. -/
  rebase : LocalRefs Oid → Oid → Oid → Rebase Oid
  install : PreparedInstall Oid → Installed
  /-- Whether `clear_resolved_conflicts` succeeds after an installation. -/
  installCleared : Bool
  /-- Whether `discard_prepared_reconciliation` succeeds. -/
  discarded : Bool

/-- What a call of `reconcile_exclusive` has when it comes back to the catalog. -/
inductive Pending (Oid : Type) where
  /-- The preparation has failed, and the call with it. -/
  | failed
  | complete (staged : LocalProject Oid) (result : ReconcileResult Oid) (expectedGeneration : ℕ)
      (branch : Branch) (target : Option Oid)
  | prepared (p : PreparedProject Oid) (candidate : PreparedInstall Oid)

/-- What a call merges into the record, for the branch that it was made for. -/
structure MergeBack (Oid : Type) where
  branch : Branch
  staged : LocalProject Oid
  outcome : Outcome

/-- What `reconcile_exclusive` returns: an error, `retry` because its inputs
have changed, or the outcome that it has merged. -/
inductive CallReply where
  | failed
  | retry
  | merged (outcome : Outcome)

/-- A critical section of another operation. -/
inductive RecordWrite (Oid : Type) where
  /-- The catalog half of `complete_publication`. -/
  | complete (d : Publication Oid) (ack : PublicationAck Oid) (hasPending : Bool)
  /-- The write of `active_branch` in `reportCheckout`. -/
  | activate (branch : Branch)
  | refresh (answer : RefreshAnswer Oid)

/-- An operation that writes the record. What `reportCheckout` queues for the
branch that was left writes no field that is merged; it ends with a refresh, whose
error it ignores. -/
inductive OtherOperation (Oid : Type) where
  | completePublication (d : Publication Oid) (ack : PublicationAck Oid) (hasPending : Bool)
  | reportCheckout (branch : Branch) (refreshed : Option (RefreshAnswer Oid))
  | refresh (answer : RefreshAnswer Oid)

def OtherOperation.writes : OtherOperation Oid → List (RecordWrite Oid)
  | .completePublication d ack hasPending => [.complete d ack hasPending]
  | .reportCheckout branch none => [.activate branch]
  | .reportCheckout branch (some answer) => [.activate branch, .refresh answer]
  | .refresh answer => [.refresh answer]

/-- What an installation that has returned merges. -/
def PreparedProject.back (p : PreparedProject Oid) (candidate : PreparedInstall Oid)
    (installed : Installed) (cleared : Bool) : Option (MergeBack Oid) :=
  (installed.result candidate).bind fun result =>
    (applyReconciliationResult p.staged p.branch p.target result cleared).map fun staged =>
      ⟨p.branch, staged, result.outcome⟩

section Sections

variable [DecidableEq Oid]

def RecordAnswers.answers (env : RecordAnswers Oid) (refs : LocalRefs Oid) :
    PreparationAnswers Oid where
  branch := refs.headBranch
  head := refs.headCommit
  cleared := env.cleared
  prepared base target := (env.rebase refs base target).answer base target

variable (G : CommitGraph Oid) (env : RecordAnswers Oid)

/-- The candidate of a preparation that is not complete. -/
def RecordAnswers.candidate (w : RecordWorld Oid) (branch : Branch) (target : Oid) :
    Option (PreparedInstall Oid) := do
  let head ← w.refs.headCommit
  let base ← reconciliationBase G w.record branch target head
  match env.rebase w.refs base target with
  | .ready candidate => some candidate
  | _ => none

/-- The record with the head that `refresh` has fetched, or else the provider's. -/
def advertiseInto (hosted : Branch → Option Oid) (branch : Branch) (generation : ℕ)
    (head : Option Oid) (p : LocalProject Oid) : LocalProject Oid :=
  { p with
    serverGeneration := generation,
    advertisedHeads := Function.update p.advertisedHeads branch ((hosted branch).or head) }

/-- The record of a project that `refresh` finds on the branch. -/
def refreshInto (hosted : Branch → Option Oid) (refs : LocalRefs Oid) (branch : Branch)
    (answer : RefreshAnswer Oid) (p : LocalProject Oid) : LocalProject Oid :=
  match answer with
  | .accessLost error => { p with state := .accessLost, lastError := some error }
  | .offline generation error =>
    { p with serverGeneration := generation, state := .offline, lastError := some error }
  | .online generation head =>
    let advertised := advertiseInto hosted branch generation head p
    match refs.headCommit with
    | none => advertised
    | some localHead =>
      let result := PublishWorld.refreshed G advertised branch localHead
      if result.1.durability = .remotelyDurable then { result.1 with lastError := none }
      else result.1

def RecordWrite.apply (refs : LocalRefs Oid) (p : LocalProject Oid) :
    RecordWrite Oid → LocalProject Oid
  | .complete d ack hasPending => PublishWorld.completionRecord d ack hasPending p
  | .activate branch => { p with activeBranch := some branch }
  | .refresh answer =>
    let actual := (refs.headBranch.or p.activeBranch).getD p.defaultBranch
    refreshInto G env.hosted refs actual answer { p with activeBranch := some actual }

namespace RecordWorld

variable (w : RecordWorld Oid)

/-- The first half of `reconcile_exclusive`, from the clone of the record to the
prepared result. -/
def prepare : Pending Oid :=
  match prepareProjectReconciliation G (env.answers w.refs) w.record with
  | none => .failed
  | some (.complete staged result expected branch target) =>
    .complete staged result expected branch target
  | some (.prepared staged expected branch target) =>
    match env.candidate G w branch target with
    | some candidate => .prepared ⟨staged, expected, branch, target⟩ candidate
    | none => .failed

def merge (staged : LocalProject Oid) : RecordWorld Oid :=
  { w with record := mergeReconciliationState w.record staged }

/-- What `install_candidate` leaves of the refs. -/
def moved (candidate : PreparedInstall Oid) (installed : Installed) : RecordWorld Oid :=
  if installed.moves then { w with refs := w.refs.setHead candidate.headRef candidate.new } else w

/-- The second half of `reconcile_exclusive`, under the catalog lock. -/
def finish : Pending Oid → RecordWorld Oid × CallReply
  | .failed => (w, .failed)
  | .complete staged result expected branch target =>
    if DaemonWorld.stillComplete w.record expected branch target then
      (w.merge staged, .merged result.outcome)
    else (w, .retry)
  | .prepared p candidate =>
    if AccessWorld.stillWanted w.record p w.refs.headBranch then
      let installed := env.install candidate
      match p.back candidate installed env.installCleared with
      | none => (w.moved candidate installed, .failed)
      | some back => ((w.moved candidate installed).merge back.staged, .merged back.outcome)
    else (w, if env.discarded then .retry else .failed)

/-- A call of `reconcile_exclusive` that nothing interrupts. -/
def reconcile : RecordWorld Oid × CallReply := w.finish env (w.prepare G env)

def write (writes : List (RecordWrite Oid)) : RecordWorld Oid :=
  { w with record := writes.foldl (fun p x => x.apply G env w.refs p) w.record }

omit [DecidableEq Oid] in
/-- The user switches to a branch, or leaves HEAD alone. -/
def switchTo : Option Branch → RecordWorld Oid
  | none => w
  | some branch => { w with refs := { w.refs with head := .attached branch } }

end RecordWorld

end Sections

end Resync
