import Resync.Lib.LockOrder

/-! The locks of the daemon (`daemon.rs`), with everything else of its tasks left out: which locks
a request, a background task or a pass of the queue takes, in which order, and where it waits for
a gate. Any number of them run at once, and their commands may fail anywhere. -/
namespace Resync

inductive DaemonLock where
  /-- `publication_processing`. -/
  | processing
  /-- The exclusive phase of the gate of a project, with the leases as its shares. -/
  | gate (projectId : String)
  | catalog
  | publications
  /-- The map of the gates, behind a blocking mutex. -/
  | gates
  /-- `background_reconciliations`, behind a blocking mutex. -/
  | background
  /-- The mutex of a `GateState`. -/
  | gateState (projectId : String)
deriving DecidableEq

namespace DaemonLock

def rank : DaemonLock → ℕ
  | .processing => 0
  | .gate _ => 1
  | .catalog => 2
  | .publications => 3
  | .gates => 4
  | .background => 4
  | .gateState _ => 4

/-- The locks of `tokio` and the tickets of a gate are served in turn; a blocking mutex picks any
of the threads that wait for it. -/
def served {Task : Type} [DecidableEq Task] : Locks.Policy Task DaemonLock where
  admits
    | .gates, _, _ => true
    | .background, _, _ => true
    | _, waiting, t => waiting.head? = some t
  exists_admitted l waiting h := by
    obtain ⟨t, rest, rfl⟩ := List.exists_cons_of_ne_nil h
    refine ⟨t, List.mem_cons_self, ?_⟩
    cases l with
    | gates => rfl
    | background => rfl
    | _ => exact decide_eq_true rfl

end DaemonLock

abbrev LockProgram := Locks.Program DaemonLock

namespace DaemonTasks

open Locks.Program

/-- A critical section of the catalog. -/
def withCatalog : LockProgram := .hold .catalog .skip

/-- A critical section of the queue. -/
def withPublications : LockProgram := .hold .publications .skip

def withGateState (projectId : String) : LockProgram := .hold (.gateState projectId) .skip

/-- `ResyncDaemon::gate`. -/
def gate : LockProgram := .hold .gates .skip

/-- `begin_exclusive`, what is done then, and `end_exclusive`. A task draws its ticket and looks at
the state under the state's mutex, and waits without it. The result of the body is kept until the
gate is open again. -/
def exclusively (projectId : String) (body : LockProgram) : LockProgram :=
  .seq (.loop (withGateState projectId)) <|
    .hold (.gate projectId) <| .seq (.rescue body .skip) (withGateState projectId)

/-- `LeaseGate::activity`: the lease of an earlier call with the same IDs, or a new one. -/
def activity (projectId : String) : LockProgram :=
  .seq (.loop (withGateState projectId)) <|
    .choice (.share (.gate projectId) true) (.share (.gate projectId) false)

def scheduleReconcile : LockProgram := .hold .background .skip

def reconcileExclusive (projectId : String) : LockProgram :=
  .seq withCatalog <|
    .choice withCatalog (.seq gate (exclusively projectId withCatalog))

/-- The task that `schedule_reconcile` spawns. -/
def backgroundReconciliation (projectId : String) : LockProgram :=
  .seq (.rescue (reconcileExclusive projectId) withCatalog) <|
    .seq (.hold .background .skip) (.choice .skip scheduleReconcile)

/-- `enqueue_publication`, which ends early if the commit is queued already. -/
def enqueuePublication : LockProgram :=
  .seq withCatalog <| .seq withPublications <|
    .choice .skip (.seq withPublications withCatalog)

/-- `refresh`: the loop over the projects holds the catalog until it is written. -/
def refresh : LockProgram :=
  .choice .skip <| .seq withCatalog <| .seq withCatalog <|
    .seq (.loop enqueuePublication) (.loop scheduleReconcile)

def completePublication : LockProgram := .seq withPublications withCatalog

/-- One round of `deliver_publication_unlocked`: the publication may be done; the remote branch may
have moved, so that the project is reconciled and the publication queued again; or it is pushed
and completed. -/
def deliveryRound (projectId : String) : LockProgram :=
  .seq withPublications <| .choice .skip <| .seq withCatalog <|
    .choice
      (.seq withCatalog <| .seq (reconcileExclusive projectId) <|
        .choice .skip (.seq withCatalog withPublications))
      completePublication

def deliverPublication (projectId : String) : LockProgram := .loop (deliveryRound projectId)

/-- A failed delivery is recorded in the queue and in the catalog, one after the other. -/
def attemptDelivery (projectId : String) : LockProgram :=
  .rescue (deliverPublication projectId) (.seq withPublications withCatalog)

/-- `process_publications`, for a queue with publications of these projects. -/
def processPublications (projectIds : List String) : LockProgram :=
  .hold .processing <| .seq withPublications <| .loop <| .seq withPublications <|
    any (projectIds.map attemptDelivery)

def ensureBranchTransition : LockProgram :=
  .seq withCatalog <| .choice withCatalog <| .choice .skip <|
    .seq (.choice enqueuePublication .skip) <| .seq withCatalog (.choice refresh .skip)

/-- `acquireAccess`: a project in reconciliation mode gets no lease. -/
def acquire (projectId : String) : LockProgram :=
  .seq ensureBranchTransition <| .seq withCatalog <| .seq gate <|
    .seq (.choice scheduleReconcile .skip) <| .seq withCatalog <|
      .seq (.choice .skip (activity projectId)) withCatalog

/-- `releaseAccess`: one gate after the other, until one of them has the lease. -/
def release (projectIds : List String) : LockProgram :=
  .seq gate (each (projectIds.map withGateState))

def sync (projectId : String) : LockProgram := .seq refresh (reconcileExclusive projectId)

def publish (projectIds : List String) : LockProgram :=
  .seq withCatalog <| .seq enqueuePublication <|
    .seq (processPublications projectIds) withPublications

/-- `status` reads the queue while it holds the catalog. -/
def status : LockProgram := .hold .catalog withPublications

def reload : LockProgram := .seq withCatalog (.seq refresh withCatalog)

def reportCheckout : LockProgram :=
  .seq withCatalog <| .seq (.choice enqueuePublication .skip) <|
    .seq withCatalog (.rescue refresh .skip)

end DaemonTasks

/-- The requests of `handle`, and what else the daemon runs in tasks of its own. A list of project
IDs stands for the projects of the queue or of the map of gates at that time. -/
inductive DaemonTask where
  | ping
  | registerProject
  | reload
  | status
  | acquireAccess (projectId : String)
  | accessState
  | releaseAccess (projectIds : List String)
  | sync (projectId : String)
  | publish (projectIds : List String)
  | reportCommit
  | reportCheckout
  /-- The task of `schedule_reconcile`. -/
  | reconciliation (projectId : String)
  /-- The task of `schedule_publications`, of `reload` and of the start. -/
  | processing (projectIds : List String)
  /-- One round of the polling task. -/
  | poll (projectIds : List String)
  /-- The task that ends a lease in time. -/
  | expiry (projectId : String)

namespace DaemonTask

open DaemonTasks

def program : DaemonTask → LockProgram
  | .ping => .skip
  | .registerProject => withCatalog
  | .reload => DaemonTasks.reload
  | .status => DaemonTasks.status
  | .acquireAccess projectId => DaemonTasks.acquire projectId
  | .accessState => withCatalog
  | .releaseAccess projectIds => DaemonTasks.release projectIds
  | .sync projectId => DaemonTasks.sync projectId
  | .publish projectIds => DaemonTasks.publish projectIds
  | .reportCommit => enqueuePublication
  | .reportCheckout => DaemonTasks.reportCheckout
  | .reconciliation projectId => backgroundReconciliation projectId
  | .processing projectIds => processPublications projectIds
  | .poll projectIds =>
    .seq (.rescue refresh .skip) (.rescue (processPublications projectIds) .skip)
  | .expiry projectId => withGateState projectId

/-- The tasks that may wait for leases to end: those that reconcile, or deliver the queue. -/
def waitsForLeases : DaemonTask → Bool
  | .sync _ | .publish _ | .reconciliation _ | .processing _ | .poll _ => true
  | _ => false

end DaemonTask

namespace DaemonLocks

open Locks

variable {Task : Type} [DecidableEq Task]

/-- A new task does to the locks what an execution of its program does. -/
def Starts : Event Task DaemonLock → Prop
  | .start _ ops => ∃ (task : DaemonTask) (ok : Bool), Exec task.program ops ok
  | _ => True

section Programs

open DaemonTasks DaemonLock

theorem ordered_processPublications (projectIds : List String) :
    (processPublications projectIds).ordered rank 0 = true := by
  have hdelivery : ∀ p ∈ projectIds.map attemptDelivery, p.ordered rank 1 = true := by
    intro p hp
    obtain ⟨projectId, -, rfl⟩ := List.mem_map.mp hp
    rfl
  have hany : (Program.any (projectIds.map attemptDelivery)).ordered rank 1 = true :=
    Program.ordered_any hdelivery
  rw [processPublications]
  simp only [Program.ordered, hany, withPublications, rank]
  rfl

theorem ordered_release (projectIds : List String) :
    (release projectIds).ordered rank 0 = true := by
  have hgates : ∀ p ∈ projectIds.map withGateState, p.ordered rank 0 = true := by
    intro p hp
    obtain ⟨projectId, -, rfl⟩ := List.mem_map.mp hp
    rfl
  rw [release, Program.ordered, Program.ordered_each hgates]
  rfl

/-- Every task takes its locks in the order of their ranks. -/
theorem ordered_program (task : DaemonTask) : task.program.ordered rank 0 = true := by
  cases task with
  | releaseAccess projectIds => exact ordered_release projectIds
  | publish projectIds =>
    have hprocess := ordered_processPublications projectIds
    simp only [DaemonTask.program, publish, Program.ordered, hprocess]
    rfl
  | processing projectIds => exact ordered_processPublications projectIds
  | poll projectIds =>
    have hprocess := ordered_processPublications projectIds
    simp only [DaemonTask.program, Program.ordered, hprocess]
    rfl
  | _ => rfl

variable {ok : Op DaemonLock → Bool}

theorem all_processPublications (hprocessing : (Program.hold .processing .skip).all ok = true)
    (hdelivery : ∀ id, (attemptDelivery id).all ok = true) (hqueue : withPublications.all ok = true)
    (projectIds : List String) : (processPublications projectIds).all ok = true := by
  have hall : ∀ p ∈ projectIds.map attemptDelivery, p.all ok = true := by
    intro p hp
    obtain ⟨projectId, -, rfl⟩ := List.mem_map.mp hp
    exact hdelivery projectId
  rw [Program.all, Program.all, Bool.and_true] at hprocessing
  rw [processPublications]
  simp only [Program.all, Program.all_any hall, hprocessing, hqueue, Bool.and_true]

theorem all_release (hgates : DaemonTasks.gate.all ok = true)
    (hstate : ∀ id, (withGateState id).all ok = true) (projectIds : List String) :
    (release projectIds).all ok = true := by
  have hall : ∀ p ∈ projectIds.map withGateState, p.all ok = true := by
    intro p hp
    obtain ⟨projectId, -, rfl⟩ := List.mem_map.mp hp
    exact hstate projectId
  rw [release, Program.all, hgates, Bool.true_and]
  exact Program.all_each hall

/-- Leases are shares of gates, and only of these. -/
def sharesGate : Op DaemonLock → Bool
  | .share l _ => rank l = 1
  | _ => true

theorem sharesGate_program (task : DaemonTask) : task.program.all sharesGate = true := by
  have hprocess : ∀ projectIds, (processPublications projectIds).all sharesGate = true :=
    all_processPublications rfl (fun _ => rfl) rfl
  cases task with
  | releaseAccess projectIds => exact all_release rfl (fun _ => rfl) projectIds
  | publish projectIds =>
    simp only [DaemonTask.program, publish, Program.all, hprocess]
    rfl
  | processing projectIds => exact hprocess projectIds
  | poll projectIds =>
    simp only [DaemonTask.program, Program.all, hprocess]
    rfl
  | _ => rfl

/-- No lock that is held while leases run. -/
def isShort : Op DaemonLock → Bool
  | .acquire l => 2 ≤ rank l
  | .share l _ => 1 ≤ rank l
  | .release _ => true

theorem isShort_program {task : DaemonTask} (h : task.waitsForLeases = false) :
    task.program.all isShort = true := by
  cases task with
  | releaseAccess projectIds => exact all_release rfl (fun _ => rfl) projectIds
  | sync | publish | reconciliation | processing | poll => cases h
  | _ => rfl

end Programs

variable {policy : Policy Task DaemonLock} {es fs : List (Event Task DaemonLock)}
  {s s' : State Task DaemonLock}

theorem ordered_of_run (hstarts : ∀ e ∈ es, Starts e)
    (hr : Runs.run (step policy) initial es = some s) : Ordered DaemonLock.rank s := by
  refine Locks.ordered_of_run (fun e he => ?_) hr
  have hstart := hstarts e he
  cases e with
  | start t ops =>
    obtain ⟨task, ok, hexec⟩ := hstart
    exact hexec.balanced (ordered_program task)
  | _ => trivial

theorem shares_of_run (hstarts : ∀ e ∈ es, Starts e)
    (hr : Runs.run (step policy) initial es = some s) :
    ∀ l ∈ s.shares, DaemonLock.rank l < 2 := by
  have hall : All (fun op => sharesGate op = true) s := by
    refine all_of_run (fun t ops hmem => ?_) hr
    obtain ⟨task, ok, hexec⟩ := hstarts _ hmem
    exact hexec.all (sharesGate_program task)
  intro l hl
  have hrank : DaemonLock.rank l = 1 := of_decide_eq_true (hall.2 l hl)
  omega

/-- The daemon has no deadlock. From every state, once no more tasks start, all runs are finite,
and those that can not be continued have all tasks done and all locks free. -/
theorem every_task_completes {done rest : List (Event Task DaemonLock)}
    (hstarts : ∀ e ∈ done, Starts e) (hr : Runs.run (step policy) initial done = some s)
    (hquiet : ∀ e ∈ rest, e.isStart = false) (hr' : Runs.run (step policy) s rest = some s') :
    rest.length ≤ remaining s ∧
      ((∀ e : Event Task DaemonLock, e.isStart = false → step policy s' e = none) →
        ∀ t, s'.todo t = [] ∧ ∀ l, s'.holder l ≠ some t) := by
  obtain ⟨hordered, hlength⟩ := (ordered_of_run hstarts hr).length_le hquiet hr'
  refine ⟨by omega, fun hstuck t => ?_⟩
  have hshares : ∀ l ∈ s'.shares, DaemonLock.rank l < 0 := by
    intro l hl
    have hexpire := hstuck (.expire l) rfl
    rw [step, if_pos hl] at hexpire
    cases hexpire
  have hdone : s'.todo t = [] := by
    refine hordered.done_of_stuck (fun e hstart _ => hstuck e hstart) hshares fun op _ => ?_
    cases op with
    | release => trivial
    | _ => exact Nat.zero_le _
  exact ⟨hdone, fun l hl => hordered.not_done hl hdone⟩

/-- Two registrations, where one waits for the other. -/
theorem every_task_completes_for_registrations :
    ∃ s s' : State ℕ DaemonLock,
      Runs.run (step DaemonLock.served) initial
          [.start 0 [.acquire .catalog, .release .catalog],
            .start 1 [.acquire .catalog, .release .catalog], .request 0, .request 1,
            .acquire 0] = some s ∧
        Runs.run (step DaemonLock.served) s [.release 0, .acquire 1, .release 1] = some s' ∧
        3 ≤ remaining s ∧
        ((∀ e : Event ℕ DaemonLock, e.isStart = false → step DaemonLock.served s' e = none) →
          ∀ t, s'.todo t = [] ∧ ∀ l, s'.holder l ≠ some t) := by
  have hstarts : ∀ e ∈ [Event.start 0 [.acquire DaemonLock.catalog, .release .catalog],
      .start 1 [.acquire .catalog, .release .catalog], .request 0, .request 1, .acquire 0],
      Starts e := by
    simp only [List.forall_mem_cons, List.not_mem_nil, false_implies, implies_true, and_true]
    have hexec : Starts (.start 0 [.acquire .catalog, .release .catalog]) :=
      ⟨.registerProject, true, .hold .skip⟩
    exact ⟨hexec, hexec, trivial, trivial, trivial⟩
  have hquiet : ∀ e ∈ [Event.release 0, .acquire 1, .release 1],
      (e : Event ℕ DaemonLock).isStart = false := by decide
  refine ⟨_, _, rfl, rfl, ?_⟩
  exact every_task_completes hstarts rfl hquiet rfl

/-- Admission stays open. A request that does not reconcile and does not deliver the queue is done
without the end of any lease, whatever waits for leases to end. -/
theorem admission_stays_open {done rest : List (Event Task DaemonLock)} {t : Task}
    {ops : List (Op DaemonLock)} {task : DaemonTask} {ok : Bool}
    (hstarts : ∀ e ∈ done, Starts e) (hr : Runs.run (step policy) initial done = some s)
    (hstart : .start t ops ∈ done) (hexec : Exec task.program ops ok)
    (htask : task.waitsForLeases = false)
    (hquiet : ∀ e ∈ rest, e.isStart = false ∧ e.isExpire = false)
    (hr' : Runs.run (step policy) s rest = some s') :
    rest.length ≤ remaining s ∧ (Stuck policy s' → s'.todo t = []) := by
  have hquiet' : ∀ e ∈ rest, e.isStart = false := fun e he => (hquiet e he).1
  obtain ⟨hordered, hlength⟩ := (ordered_of_run hstarts hr).length_le hquiet' hr'
  refine ⟨by omega, fun hstuck => ?_⟩
  have hshares : ∀ l ∈ s'.shares, DaemonLock.rank l < 2 := by
    have hall := (Runs.run_append_eq_some _).mpr ⟨s, hr, hr'⟩
    refine shares_of_run (fun e he => ?_) hall
    rcases List.mem_append.mp he with he | he
    · exact hstarts e he
    · have hno := hquiet' e he
      cases e with
      | start => cases hno
      | _ => trivial
  have hsuffix := (todo_suffix_of_run hquiet' hr' t).trans (todo_of_start hr hstart)
  refine hordered.done_of_stuck hstuck hshares fun op hop => ?_
  have hshort := hexec.all (isShort_program htask) op (hsuffix.subset hop)
  cases op with
  | acquire l =>
    have hrank : 2 ≤ DaemonLock.rank l := of_decide_eq_true hshort
    exact hrank
  | share l fresh =>
    have hrank : 1 ≤ DaemonLock.rank l := of_decide_eq_true hshort
    change 2 ≤ DaemonLock.rank l + 1
    omega
  | release l => trivial

/-- A registration, while a background reconciliation waits for the lease of an access. -/
theorem admission_stays_open_for_registration :
    let access : List (Op DaemonLock) :=
      [.acquire .catalog, .release .catalog, .acquire .catalog, .release .catalog,
        .acquire .gates, .release .gates, .acquire .catalog, .release .catalog,
        .share (.gate "p") true]
    let reconciliation : List (Op DaemonLock) :=
      [.acquire .catalog, .release .catalog, .acquire .gates, .release .gates,
        .acquire (.gate "p"), .acquire .catalog, .release .catalog, .acquire (.gateState "p"),
        .release (.gateState "p"), .release (.gate "p"), .acquire .background,
        .release .background]
    let done : List (Event ℕ DaemonLock) :=
      [.start 0 access, .request 0, .acquire 0, .release 0, .request 0, .acquire 0, .release 0,
        .request 0, .acquire 0, .release 0, .request 0, .acquire 0, .release 0, .share 0,
        .start 1 reconciliation, .request 1, .acquire 1, .release 1, .request 1, .acquire 1,
        .release 1, .request 1, .start 2 [.acquire .catalog, .release .catalog]]
    ∃ s s' : State ℕ DaemonLock,
      Runs.run (step DaemonLock.served) initial done = some s ∧
        Runs.run (step DaemonLock.served) s [.request 2, .acquire 2, .release 2] = some s' ∧
        3 ≤ remaining s ∧ (Stuck DaemonLock.served s' → s'.todo 2 = []) := by
  intro access reconciliation done
  have haccess : Starts (.start 0 access) := by
    refine ⟨.acquireAccess "p", false, ?_⟩
    have hcatalog : Exec DaemonTasks.withCatalog [.acquire .catalog, .release .catalog] true :=
      .hold .skip
    have htransition : Exec DaemonTasks.ensureBranchTransition
        [.acquire .catalog, .release .catalog] true := .seq hcatalog (.right (.left .skip))
    have hgate : Exec DaemonTasks.gate [.acquire .gates, .release .gates] true := .hold .skip
    have hactivity : Exec (DaemonTasks.activity "p") [.share (.gate "p") true] true :=
      .seq (.stops _) (.left (.share _ true))
    exact .seq htransition (.seq hcatalog (.seq hgate (.seq (.right .skip)
      (.seq hcatalog (.seq (.right hactivity) (.fails _))))))
  have hreconciliation : Starts (.start 1 reconciliation) := by
    refine ⟨.reconciliation "p", true, ?_⟩
    have hcatalog : Exec DaemonTasks.withCatalog [.acquire .catalog, .release .catalog] true :=
      .hold .skip
    have hgate : Exec DaemonTasks.gate [.acquire .gates, .release .gates] true := .hold .skip
    have hexclusively : Exec (DaemonTasks.exclusively "p" DaemonTasks.withCatalog)
        [.acquire (.gate "p"), .acquire .catalog, .release .catalog, .acquire (.gateState "p"),
          .release (.gateState "p"), .release (.gate "p")] true :=
      .seq (.stops _) (.hold (.seq (.succeeds hcatalog) (.hold .skip)))
    exact .seq (.succeeds (.seq hcatalog (.right (.seq hgate hexclusively))))
      (.seq (.hold .skip) (.left .skip))
  have hexec : Exec DaemonTask.registerProject.program [.acquire .catalog, .release .catalog] true :=
    .hold .skip
  have hregistration : Starts (.start 2 [.acquire .catalog, .release .catalog]) := ⟨_, _, hexec⟩
  have hstarts : ∀ e ∈ done, Starts e := by
    simp only [done, List.forall_mem_cons, List.not_mem_nil, false_implies, implies_true, and_true]
    exact ⟨haccess, trivial, trivial, trivial, trivial, trivial, trivial, trivial, trivial,
      trivial, trivial, trivial, trivial, trivial, hreconciliation, trivial, trivial, trivial,
      trivial, trivial, trivial, trivial, hregistration⟩
  have hquiet : ∀ e ∈ [Event.request 2, .acquire 2, .release 2],
      (e : Event ℕ DaemonLock).isStart = false ∧ (e : Event ℕ DaemonLock).isExpire = false := by
    decide
  have hstart : .start 2 [.acquire .catalog, .release .catalog] ∈ done := by simp [done]
  refine ⟨_, _, rfl, rfl, ?_⟩
  exact admission_stays_open hstarts rfl hstart hexec rfl hquiet rfl

end DaemonLocks

end Resync
