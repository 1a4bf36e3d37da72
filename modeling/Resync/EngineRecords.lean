import Mathlib.Data.List.Basic
import Resync.Lib.Runs
import Resync.Recovery
import Resync.TransactionsDirectory

/-! The transactions directory under all the projects of a device
(`transaction.rs`): what a preparation, an installation and a discard write, each
of which a crash may cut short after any write, and the history that a debug
record prunes. -/
namespace Resync

variable {β : Type}

/-- A record with the checkout that it is about. -/
structure StoredTransaction (β : Type) where
  projectPath : String
  transaction : Transaction β

/-- The order in which `read_dir` gives the names of the records, and the length
of a record as it is written. -/
structure RecordDirectory (β : Type) where
  names : Finset String → List String
  nodup : ∀ ids, (names ids).Nodup
  mem_names : ∀ ids id, id ∈ names ids ↔ id ∈ ids
  length : StoredTransaction β → ℕ

/-- The checkouts by their paths, the paths whose checkout is gone, and the
records by their IDs. -/
structure Engine (β : Type) where
  repos : String → Repository β
  removed : String → Bool
  records : FiniteMap String (StoredTransaction β)

/-- A Git command or file access of the engine, at a project's path. -/
inductive EngineWrite (β : Type) where
  | action (projectPath : String) (a : Action β)
  | recoveryRef (projectPath : String) (name : String) (slot : RecoverySlot)
      (commit : Commit (Tree β))

/-- The old records that an engine prunes are computed, not given. -/
def Env.unpruned (env : Env β) : Env β := { env with pruned := [] }

/-- Whether the debug history may drop a record. -/
def StoredTransaction.Droppable (s : StoredTransaction β) : Prop :=
  s.transaction.phase ≠ .installing ∧ s.transaction.phase ≠ .conflicted

instance (s : StoredTransaction β) : Decidable s.Droppable := inferInstanceAs (Decidable (_ ∧ _))

/-- `remove_transaction_artifacts`, at the record's own checkout. -/
def StoredTransaction.removal (s : StoredTransaction β) : List (EngineWrite β) :=
  (removeTransactionArtifacts s.transaction).map (.action s.projectPath)

namespace Engine

def setRepo (e : Engine β) (path : String) (r : Repository β) : Engine β :=
  { e with repos := Function.update e.repos path r }

/-- A user replaces the checkout at a path, or removes it. -/
def user (e : Engine β) (path : String) : Option (Repository β) → Engine β
  | none => { e with removed := Function.update e.removed path true }
  | some r => { e.setRepo path r with removed := Function.update e.removed path false }

/-- A checkout as the transaction code sees it. -/
def checkout (e : Engine β) (path : String) : Checkout β :=
  ⟨e.repos path, fun id => (e.records.get id).map (·.transaction)⟩

/-- The records in the order of the directory. -/
def scanned (dir : RecordDirectory β) (e : Engine β) : List (StoredTransaction β) :=
  (dir.names e.records.keys).filterMap e.records.get

/-- What `prune_debug_history` drops once a record has been written. -/
def dropped (dir : RecordDirectory β) (e : Engine β) (protectedId : String) :
    List (StoredTransaction β) :=
  (passedOver (fun s => decide (s.Droppable ∧ s.transaction.id ≠ protectedId))
    (fun s => some (dir.length s)) (·.transaction.createdAt) 1
    (some ((e.scanned dir).map fun s => .json (.record s)))).getD []

/-- `write_json` on a record. -/
def file (e : Engine β) (s : StoredTransaction β) : Engine β :=
  { e with records := e.records.set s.transaction.id (some s) }

/-- The end of `persist_debug_transaction`. -/
def prunes (dir : RecordDirectory β) (e : Engine β) (s : StoredTransaction β) :
    List (EngineWrite β) :=
  ((e.file s).dropped dir s.transaction.id).flatMap (·.removal)

/-- `persist_debug_transaction` under debug retention, and
`remove_transaction_artifacts` otherwise. -/
def finalizes (dir : RecordDirectory β) (env : Env β) (retention : TransactionRetention)
    (e : Engine β) (s : StoredTransaction β) : List (EngineWrite β) :=
  (finalizeTransaction env.unpruned retention s.transaction).map (.action s.projectPath) ++
    if retention.debugHistory then e.prunes dir s else []

/-- A record that is only kept for the debug history. -/
def persists (dir : RecordDirectory β) (retention : TransactionRetention) (e : Engine β)
    (s : StoredTransaction β) : List (EngineWrite β) :=
  if retention.debugHistory then
    .action s.projectPath (.writeJournal s.transaction) :: e.prunes dir s
  else []

section Execute

variable [DecidableEq β]

/-- One write; a Git command fails where the checkout is gone. -/
def perform (e : Engine β) : EngineWrite β → Option (Engine β)
  | .action path (.writeJournal t) => some (e.file ⟨path, t⟩)
  | .action _ (.removeJournal id) => some { e with records := e.records.set id none }
  | .action path a =>
    if e.removed path then none
    else ((e.checkout path).perform a).map fun c => e.setRepo path c.repo
  | .recoveryRef path name slot commit =>
    if e.removed path then none
    else some (e.setRepo path ((e.repos path).setRef (.recovery name slot) (some commit)))

/-- The state that a list of writes leaves, and whether all of them went
through. -/
def execute (e : Engine β) : List (EngineWrite β) → Engine β × Bool
  | [] => (e, true)
  | w :: ws =>
    match e.perform w with
    | none => (e, false)
    | some e' => e'.execute ws

/-- The transaction that a preparation begins once its checks have passed. -/
def begunTransaction (env : Env β) (r : Repository β) (previous target : Commit (Tree β)) :
    Option (Transaction β) :=
  match r.headBranch, captureWorkspace r with
  | some headRef, some snapshot =>
    if previous ≠ target ∧ Commit.Ancestor previous snapshot.head ∧
        Commit.Ancestor previous target ∧ Commit.merges previous snapshot.head = [] then
      some (newTransaction env previous target snapshot headRef)
    else none
  | _, _ => none

/-- `write_recovery_refs`. -/
def recoveryRefs (path : String) (env : Env β) (t : Transaction β) : List (EngineWrite β) :=
  let chain := createSyntheticChain env.now t.snapshot
  [.recoveryRef path t.recoveryRef .head t.snapshot.head,
    .recoveryRef path t.recoveryRef .index chain.indexCommit,
    .recoveryRef path t.recoveryRef .working chain.workingCommit]

/-- The writes of `prepare_reconciliation_with_retention` after its rebase. -/
def prepareEnds (dir : RecordDirectory β) (env : Env β) (retention : TransactionRetention)
    (e : Engine β) (path : String) (t : Transaction β) :
    Except Failure (PreparedReconciliation β) → List (EngineWrite β)
  | .ok (.complete _) =>
    [.action path (.writeJournal { t with
      phase := .conflicted, conflict := some ⟨"git-rebase", [], env.rebaseDetail⟩ })]
  | .ok (.ready t') =>
    e.persists dir retention ⟨path, t'⟩ ++
      (t'.candidate.toList.map fun candidate =>
        .recoveryRef path t'.recoveryRef .candidate candidate.workingCommit)
  | .error _ =>
    if retention.debugHistory then [] else StoredTransaction.removal ⟨path, t⟩

/-- The writes of `prepare_reconciliation_with_retention`. -/
def prepareWrites (dir : RecordDirectory β) (env : Env β) (retention : TransactionRetention)
    (e : Engine β) (path : String) (previous target : Commit (Tree β)) : List (EngineWrite β) :=
  if e.removed path then []
  else match begunTransaction env (e.repos path) previous target with
  | none => []
  | some t =>
    let begins := recoveryRefs path env t ++ e.persists dir retention ⟨path, t⟩
    begins ++ (e.execute begins).1.prepareEnds dir env retention path t
      (prepareReconciliation env (e.repos path) previous target)

/-- `capture_workspace` at a path. -/
def capture (e : Engine β) (path : String) : Option (WorkspaceSnapshot β) :=
  if e.removed path then none else captureWorkspace (e.repos path)

/-- The writes of `install_prepared_reconciliation`. -/
def installWrites (dir : RecordDirectory β) (env : Env β) (retention : TransactionRetention)
    (e : Engine β) (s : StoredTransaction β) : List (EngineWrite β) :=
  let t := s.transaction
  t.candidate.elim [] fun candidate =>
  (e.capture s.projectPath).elim [] fun latest =>
    -- The workspace has changed since it was captured.
    if latest ≠ t.snapshot then
      e.finalizes dir env retention
        { s with transaction := { t with phase := .retry, completedAt := some env.now } }
    else
      (findUntrackedCollisions env.pathspecs (e.repos s.projectPath)
        (treePaths candidate.workingTree)).elim [] fun collisions =>
        -- Untracked files are in the way of the candidate.
        if collisions ≠ ∅ then
          let paths := collisionNames collisions
          [.action s.projectPath (.writeJournal { t with
            phase := .conflicted,
            conflict := some ⟨"untracked-collision", paths,
              "incoming tracked paths collide with untracked files: " ++ ", ".intercalate paths⟩ })]
        else
          (installActions env.unpruned retention t candidate).map (.action s.projectPath) ++
            if retention.debugHistory then
              e.prunes dir { s with
                transaction := { t with phase := .completed, completedAt := some env.now } }
            else []

/-- The writes of `discard_prepared_reconciliation`. -/
def discardWrites (dir : RecordDirectory β) (env : Env β) (retention : TransactionRetention)
    (e : Engine β) (s : StoredTransaction β) : List (EngineWrite β) :=
  e.finalizes dir env retention
    { s with transaction := { s.transaction with phase := .retry, completedAt := some env.now } }

/-- `recover_transaction_with_retention`: its writes, and the transaction that it
returns. -/
def recoverStored (dir : RecordDirectory β) (env : Env β) (retention : TransactionRetention)
    (e : Engine β) (id : String) : Except Failure (List (EngineWrite β) × Transaction β) :=
  match e.records.get id with
  | none => .error .command
  | some s =>
    -- only the recovery of an installation looks at the checkout before its first write
    if s.transaction.phase = .installing ∧ e.removed s.projectPath then .error .command
    else match (e.checkout s.projectPath).recoverActions env.unpruned retention id with
    | .error failure => .error failure
    | .ok (actions, t) =>
      .ok (actions.map (.action s.projectPath) ++
        (if retention.debugHistory ∧ (t.phase = .completed ∨ t.phase = .rolledBack) then
          e.prunes dir { s with transaction := t } else []), t)

end Execute

end Engine

/-- A preparation that waits in memory to be installed or discarded. -/
structure PreparedTransaction (β : Type) where
  stored : StoredTransaction β
  retention : TransactionRetention

structure EngineWorld (β : Type) where
  engine : Engine β
  prepared : List (PreparedTransaction β)

/-- A call of the engine; `user` is whatever happens to a checkout outside it. -/
inductive EngineEvent (β : Type) where
  | user (path : String) (r : Option (Repository β))
  | prepare (path : String) (env : Env β) (retention : TransactionRetention)
      (previous target : Commit (Tree β))
  | install (i : ℕ) (env : Env β)
  | discard (i : ℕ) (env : Env β)
  | recover (id : String) (env : Env β) (retention : TransactionRetention)

namespace EngineWorld

def start (repos : String → Repository β) : EngineWorld β := ⟨⟨repos, fun _ => false, .empty⟩, []⟩

variable [DecidableEq β]

/-- The writes of a call, and what is prepared once it has returned. -/
def call (dir : RecordDirectory β) (w : EngineWorld β) :
    EngineEvent β → Option (List (EngineWrite β) × List (PreparedTransaction β))
  | .user _ _ => some ([], w.prepared)
  | .prepare path env retention previous target =>
    some (w.engine.prepareWrites dir env retention path previous target,
      match prepareReconciliation env (w.engine.repos path) previous target with
      | .ok (.ready t) =>
        -- a write that fails is an error, and nothing is prepared
        if w.engine.removed path = false ∧
            (w.engine.execute
              (w.engine.prepareWrites dir env retention path previous target)).2 then
          w.prepared ++ [⟨⟨path, t⟩, retention⟩]
        else w.prepared
      | _ => w.prepared)
  | .install i env => do
    let p ← w.prepared[i]?
    return (w.engine.installWrites dir env p.retention p.stored, w.prepared.eraseIdx i)
  | .discard i env => do
    let p ← w.prepared[i]?
    return (w.engine.discardWrites dir env p.retention p.stored, w.prepared.eraseIdx i)
  | .recover id env retention =>
    some (match w.engine.recoverStored dir env retention id with
      | .ok (writes, _) => (writes, w.prepared)
      | .error _ => ([], w.prepared))

/-- One call, which `some n` stops for good after `n` writes. -/
def step (w : EngineWorld β) :
    RecordDirectory β × EngineEvent β × Option ℕ → Option (EngineWorld β)
  | (_, .user path r, _) => some { w with engine := w.engine.user path r }
  | (dir, e, none) => (w.call dir e).map fun called =>
    ⟨(w.engine.execute called.1).1, called.2⟩
  | (dir, e, some n) => (w.call dir e).map fun called =>
    ⟨(w.engine.execute (called.1.take n)).1, []⟩

end EngineWorld

namespace Engine

/-- Every record is filed under its own ID, and a record of an installation has
a candidate. -/
structure Sound (e : Engine β) : Prop where
  filed : ∀ id s, e.records.get id = some s → s.transaction.id = id
  candidate : ∀ id s, e.records.get id = some s → s.transaction.phase = .installing →
    s.transaction.candidate ≠ none

end Engine

/-- A write files no record of an installation without a candidate. -/
def EngineWrite.Sound : EngineWrite β → Prop
  | .action _ (.writeJournal t) => t.phase = .installing → t.candidate ≠ none
  | _ => True

/-- Bookkeeping that files no record of an installation. -/
def EngineWrite.Quiet : EngineWrite β → Prop
  | .action _ a => a.Quiet
  | .recoveryRef _ _ _ _ => True

theorem EngineWrite.Quiet.sound {w : EngineWrite β} (h : w.Quiet) : w.Sound := by
  cases w with
  | action path a =>
    cases a with
    | writeJournal t => exact fun hphase => absurd hphase h
    | removeJournal id => trivial
    | readTreeReset tree => trivial
    | readTree tree => trivial
    | updateRef branch new old => trivial
    | deleteRecovery name slot => trivial
  | recoveryRef path name slot commit => trivial

theorem located_quiet {as : List (Action β)} (h : ∀ a ∈ as, a.Quiet) (path : String) :
    ∀ w ∈ as.map (.action path), EngineWrite.Quiet w := by
  intro w hw
  obtain ⟨a, ha, rfl⟩ := List.mem_map.mp hw
  exact h a ha

namespace Engine

theorem prunes_quiet (dir : RecordDirectory β) (e : Engine β) (s : StoredTransaction β) :
    ∀ w ∈ e.prunes dir s, w.Quiet := by
  intro w hw
  obtain ⟨old, -, hw⟩ := List.mem_flatMap.mp hw
  exact located_quiet (removeTransactionArtifacts_quiet old.transaction) _ w hw

theorem prunesIf_quiet (dir : RecordDirectory β) (e : Engine β) (s : StoredTransaction β)
    (p : Prop) [Decidable p] : ∀ w ∈ (if p then e.prunes dir s else []), w.Quiet := by
  intro w hw
  split at hw
  · exact prunes_quiet dir e s w hw
  · cases hw

theorem finalizes_quiet (dir : RecordDirectory β) (env : Env β) (retention : TransactionRetention)
    (e : Engine β) {s : StoredTransaction β} (h : s.transaction.phase ≠ .installing) :
    ∀ w ∈ e.finalizes dir env retention s, w.Quiet := by
  intro w hw
  rcases List.mem_append.mp hw with hw | hw
  · exact located_quiet (finalizeTransaction_quiet env.unpruned retention h) _ w hw
  · exact prunesIf_quiet dir e s _ w hw

theorem persists_quiet (dir : RecordDirectory β) (retention : TransactionRetention)
    (e : Engine β) {s : StoredTransaction β} (h : s.transaction.phase ≠ .installing) :
    ∀ w ∈ e.persists dir retention s, w.Quiet := by
  intro w hw
  unfold persists at hw
  split at hw
  · rcases List.mem_cons.mp hw with rfl | hw
    · exact h
    · exact prunes_quiet dir e s w hw
  · cases hw

variable [DecidableEq β]

theorem begunTransaction_phase {env : Env β} {r : Repository β} {previous target : Commit (Tree β)}
    {t : Transaction β} (h : begunTransaction env r previous target = some t) :
    t.phase = .preparing := by
  unfold begunTransaction at h
  split at h
  · split at h
    · rw [← Option.some.inj h]
      rfl
    · cases h
  · cases h

/-- A preparation that is ready has begun a transaction, and gives it a
candidate. -/
theorem begunTransaction_of_ready {env : Env β} {r : Repository β}
    {previous target : Commit (Tree β)} {t' : Transaction β}
    (h : prepareReconciliation env r previous target = .ok (.ready t')) :
    ∃ t candidate, begunTransaction env r previous target = some t ∧
      t' = { t with candidate := some candidate } := by
  obtain ⟨snapshot, headRef, head, candidate, hbranch, hcapture, hne, hlocal, htarget, hmerges,
    -, -, rfl⟩ := prepareReconciliation_ready h
  refine ⟨newTransaction env previous target snapshot headRef, candidate, ?_, rfl⟩
  simp only [begunTransaction, hbranch, hcapture]
  exact if_pos ⟨hne, hlocal, htarget, hmerges⟩

theorem prepareWrites_quiet (dir : RecordDirectory β) (env : Env β)
    (retention : TransactionRetention) (e : Engine β) (path : String)
    (previous target : Commit (Tree β)) :
    ∀ w ∈ e.prepareWrites dir env retention path previous target, w.Quiet := by
  intro w hw
  unfold prepareWrites at hw
  split at hw
  · cases hw
  split at hw
  · cases hw
  · next t ht =>
    have hphase : t.phase ≠ .installing := by
      rw [begunTransaction_phase ht]
      exact fun h => by cases h
    rcases List.mem_append.mp hw with hw | hw
    · rcases List.mem_append.mp hw with hw | hw
      · have hrefs : ∀ w ∈ recoveryRefs path env t, w.Quiet := by
          simp only [recoveryRefs, List.forall_mem_cons, EngineWrite.Quiet, true_and,
            List.not_mem_nil, IsEmpty.forall_iff, implies_true]
        exact hrefs w hw
      · exact persists_quiet dir retention e hphase w hw
    · unfold prepareEnds at hw
      split at hw
      · rw [List.mem_singleton.mp hw]
        exact fun h => by cases h
      · next t' hready =>
        obtain ⟨t₀, candidate, hbegun, ht'⟩ := begunTransaction_of_ready hready
        rcases List.mem_append.mp hw with hw | hw
        · have hphase' : t'.phase ≠ .installing := by
            rw [ht']
            show t₀.phase ≠ .installing
            rw [begunTransaction_phase hbegun]
            exact fun h => by cases h
          exact persists_quiet dir retention _ hphase' w hw
        · obtain ⟨c, -, rfl⟩ := List.mem_map.mp hw
          trivial
      · split at hw
        · cases hw
        · exact located_quiet (removeTransactionArtifacts_quiet t) path w hw

/-- An installation files its record only with a candidate. -/
theorem installWrites_sound (dir : RecordDirectory β) (env : Env β)
    (retention : TransactionRetention) (e : Engine β) (s : StoredTransaction β) :
    ∀ w ∈ e.installWrites dir env retention s, w.Sound := by
  intro w hw
  unfold installWrites at hw
  dsimp only at hw
  cases hcandidate : s.transaction.candidate with
  | none =>
    rw [hcandidate] at hw
    cases hw
  | some candidate =>
    cases hcapture : e.capture s.projectPath with
    | none =>
      rw [hcandidate, hcapture] at hw
      cases hw
    | some latest =>
      rw [hcandidate, hcapture, Option.elim_some, Option.elim_some] at hw
      split at hw
      · exact (finalizes_quiet dir env retention e (fun h => by cases h) w hw).sound
      · cases hcollisions : findUntrackedCollisions env.pathspecs (e.repos s.projectPath)
            (treePaths candidate.workingTree) with
        | none =>
          rw [hcollisions] at hw
          cases hw
        | some collisions =>
          rw [hcollisions, Option.elim_some] at hw
          split at hw
          · rw [List.mem_singleton.mp hw]
            exact fun h => by cases h
          · rcases List.mem_append.mp hw with hw | hw
            · obtain ⟨a, ha, rfl⟩ := List.mem_map.mp hw
              rcases List.mem_append.mp ha with ha | ha
              · simp only [List.mem_cons, List.not_mem_nil, or_false] at ha
                rcases ha with rfl | rfl | rfl | rfl
                · exact fun _ => by
                    show s.transaction.candidate ≠ none
                    rw [hcandidate]
                    exact Option.some_ne_none candidate
                · trivial
                · trivial
                · trivial
              · have hquiet : a.Quiet :=
                  finalizeTransaction_quiet env.unpruned retention (fun h => by cases h) a ha
                exact @EngineWrite.Quiet.sound β (.action s.projectPath a) hquiet
            · exact (prunesIf_quiet dir e _ _ w hw).sound

end Engine

end Resync
