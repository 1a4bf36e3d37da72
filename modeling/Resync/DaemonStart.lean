import Resync.ProcessLock
import Resync.QueueFile

/-! `run_daemon` loads the state, writes back the catalog that it has migrated,
and takes the lock only then (`daemon.rs`). So a second daemon may work on files
that the first one has written since. -/
namespace Resync

variable {Oid : Type}

/-- A record of `catalog.json` with the fields that older versions wrote, which
are in `extra`. A field may be there without being a string. -/
structure StoredProject (Oid : Type) where
  project : LocalProject Oid
  syncBranch : Option (Option Branch)
  advertisedRemoteOid : Option (Option Oid)
  lastAppliedRemoteOid : Option (Option Oid)

/-- One record of `migrate_projects`. -/
def migrateProject (p : StoredProject Oid) : StoredProject Oid :=
  let branch := p.syncBranch.join.getD p.project.defaultBranch
  { project := { p.project with
      defaultBranch := branch,
      advertisedHeads := match p.advertisedRemoteOid.join with
        | some oid => Function.update p.project.advertisedHeads branch (some oid)
        | none => p.project.advertisedHeads,
      lastAppliedHeads := match p.lastAppliedRemoteOid.join with
        | some oid => Function.update p.project.lastAppliedHeads branch (some oid)
        | none => p.project.lastAppliedHeads }
    syncBranch := none
    advertisedRemoteOid := none
    lastAppliedRemoteOid := none }

def migrateProjects (projects : List (StoredProject Oid)) : List (StoredProject Oid) :=
  projects.map migrateProject

/-- The migration changes nothing in what it has migrated. -/
theorem migrateProjects_idempotent (projects : List (StoredProject Oid)) :
    migrateProjects (migrateProjects projects) = migrateProjects projects := by
  rw [migrateProjects, migrateProjects, List.map_map]
  exact List.map_congr_left fun p _ => rfl

def queueIds (queue : List (Publication Oid)) : List String := queue.map (·.publicationId)

def pendingIds (queue : List (Publication Oid)) : List String :=
  queueIds (queue.filter (·.pending))

theorem pendingIds_subset {queue : List (Publication Oid)} {id : String}
    (h : id ∈ pendingIds queue) : id ∈ queueIds queue := by
  obtain ⟨p, hp, rfl⟩ := List.mem_map.mp h
  exact List.mem_map_of_mem (List.mem_of_mem_filter hp)

theorem queueIds_modify (f : Publication Oid → Publication Oid) (id : String)
    (queue : List (Publication Oid)) (hf : ∀ p, (f p).publicationId = p.publicationId) :
    queueIds (PublicationQueue.modify f id queue) = queueIds queue :=
  map_modifyFirst (fun p : Publication Oid => p.publicationId) queue fun p _ => hf p

/-- What the daemon's operations do to the queue. -/
inductive QueueOp (Oid : Type) where
  | push (p : Publication Oid)
  | retarget (now : ℕ) (id : String) (candidate : Oid) (remoteHead : Option Oid)
  | recordFailure (now : ℕ) (id : String) (error : String)
  | complete (now : ℕ) (p : Publication Oid) (ack : PublicationAck Oid)

namespace QueueOp

def apply (queue : List (Publication Oid)) : QueueOp Oid → List (Publication Oid)
  | .push p => queue ++ [p]
  | .retarget now id candidate remoteHead =>
    PublicationQueue.modify (·.retarget now candidate remoteHead) id queue
  | .recordFailure now id error => PublicationQueue.modify (·.recordFailure now error) id queue
  | .complete now p ack => PublicationQueue.complete now p ack queue

/-- The IDs of the acknowledged publications that the operation's compaction
drops. -/
def compacts (queue : List (Publication Oid)) : QueueOp Oid → List String
  | .complete now p ack =>
    queueIds ((queue.map fun q => if p.completes q then q.acknowledge now ack else q).filter
      fun q => !q.pending &&
        !(queueIds (PublicationQueue.complete now p ack queue)).contains q.publicationId)
  | _ => []

/-- An operation keeps every publication, but for those that it compacts. -/
theorem keeps (op : QueueOp Oid) {queue : List (Publication Oid)} {id : String}
    (h : id ∈ queueIds queue) : id ∈ queueIds (op.apply queue) ∨ id ∈ op.compacts queue := by
  cases op with
  | push p =>
    have hids : queueIds (queue ++ [p]) = queueIds queue ++ [p.publicationId] := List.map_append
    exact Or.inl (hids ▸ List.mem_append_left _ h)
  | retarget now i candidate remoteHead =>
    have hids := queueIds_modify (·.retarget now candidate remoteHead) i queue fun _ => rfl
    exact Or.inl (hids.symm ▸ h)
  | recordFailure now i error =>
    have hids := queueIds_modify (·.recordFailure now error) i queue fun _ => rfl
    exact Or.inl (hids.symm ▸ h)
  | complete now p ack =>
    by_cases hkept : id ∈ queueIds (PublicationQueue.complete now p ack queue)
    · exact Or.inl hkept
    · obtain ⟨q, hq, rfl⟩ := List.mem_map.mp h
      have hmark : (if p.completes q then q.acknowledge now ack else q).publicationId =
          q.publicationId := by
        split
        · rfl
        · rfl
      have hmem := List.mem_map_of_mem (f := fun q => if p.completes q then q.acknowledge now ack
        else q) hq
      have hacknowledged : (if p.completes q then q.acknowledge now ack else q).pending = false := by
        -- a pending one is never dropped
        apply Bool.eq_false_iff.mpr
        intro hpending
        apply hkept
        rw [← hmark]
        exact List.mem_map_of_mem (PublicationQueue.mem_compact hmem hpending)
      refine Or.inr (hmark ▸ List.mem_map_of_mem (List.mem_filter.mpr ⟨hmem, ?_⟩))
      rw [hacknowledged, hmark, Bool.not_false, Bool.true_and, Bool.not_eq_true',
        List.contains_eq_mem, decide_eq_false_iff_not]
      exact hkept

end QueueOp

inductive Daemon where
  | first | second
deriving DecidableEq

/-- How far the second daemon has loaded its state. -/
inductive Loading (Oid : Type) where
  | outside
  | catalogRead (catalog : List (StoredProject Oid))
  | queueRead (catalog : List (StoredProject Oid))
  /-- It has written the catalog and goes on to the lock. -/
  | loaded

/-- The state directory, the queues in memory, and the lock. `started`,
`lastWritten`, `persisted` and `compacted` only look back: whether the second
daemon has taken the lock, the catalog that the first one has last written, the
IDs that it has persisted as pending, and the IDs that compactions have
dropped. -/
structure StartWorld (Oid : Type) where
  lock : LockWorld Daemon
  catalogFile : List (StoredProject Oid)
  queueFile : List (Publication Oid)
  queues : Daemon → List (Publication Oid)
  loading : Loading Oid
  started : Bool
  lastWritten : List (StoredProject Oid)
  persisted : List String
  compacted : List String

inductive StartEvent (Oid : Type) where
  /-- An operation of a daemon on the queue. -/
  | operate (d : Daemon) (op : QueueOp Oid) (write : FileWrite)
  /-- An operation of a daemon on the catalog. -/
  | writeCatalog (d : Daemon) (catalog : List (StoredProject Oid)) (write : FileWrite)
  | readCatalog
  | readQueue
  /-- The second daemon writes back the catalog that it has migrated. -/
  | migrate (write : FileWrite)
  | lock (d : Daemon) (e : LockEvent)

namespace StartWorld

/-- The daemon's tasks run: it has the lock, or is about to end. -/
def running (w : StartWorld Oid) (d : Daemon) : Bool := (w.lock.starters d).running

/-- The first daemon runs on the files that it has written, with its PID in the
lock file. -/
def initial (catalog : List (StoredProject Oid)) (queue : List (Publication Oid))
    (pid : Daemon → ℤ) : StartWorld Oid where
  lock := ⟨⟨some 0, fun _ => some (pid .first), fun _ => some .first, 1⟩, pid,
    fun | .first => .locked 0 | .second => .outside⟩
  catalogFile := migrateProjects catalog
  queueFile := queue
  queues := fun | .first => queue | .second => []
  loading := .outside
  started := false
  lastWritten := migrateProjects catalog
  persisted := pendingIds queue
  compacted := []

/-- The second daemon comes to the lock once it has loaded its state, and the
first one answers its probe as long as it runs. -/
def lockEnabled (w : StartWorld Oid) : Daemon → LockEvent → Bool
  | .first, _ => true
  | .second, e =>
    (match w.loading with
      | .loaded => true
      | _ => false) &&
    match e, w.lock.starters .second with
    | .probe alive, .probing _ pid => alive || !(w.running .first && pid == w.lock.pid .first)
    | _, _ => true

/-- What a step of `acquire_process_lock`, or an end, means for the daemon. -/
def locks (w : StartWorld Oid) (lock : LockWorld Daemon) (d : Daemon) : LockEvent → StartWorld Oid
  | .sync => { w with lock := lock, started := w.started || d == .second }
  | _ => { w with lock := lock }

def step (w : StartWorld Oid) : StartEvent Oid → Option (StartWorld Oid)
  | .operate d op write =>
    if w.running d then
      let queue := op.apply (w.queues d)
      some { w with
        queues := Function.update w.queues d queue
        queueFile := if write.replaces then queue else w.queueFile
        persisted := if write.replaces && d == .first then pendingIds queue ++ w.persisted
          else w.persisted
        compacted := op.compacts (w.queues d) ++ w.compacted }
    else none
  | .writeCatalog d catalog write =>
    if w.running d then
      some { w with
        catalogFile := if write.replaces then catalog else w.catalogFile
        lastWritten := if write.replaces && d == .first then catalog else w.lastWritten }
    else none
  | .readCatalog =>
    match w.loading with
    | .outside => some { w with loading := .catalogRead w.catalogFile }
    | _ => none
  | .readQueue =>
    match w.loading with
    | .catalogRead catalog => some { w with
        loading := .queueRead catalog
        queues := Function.update w.queues .second w.queueFile }
    | _ => none
  | .migrate write =>
    match w.loading with
    | .queueRead catalog => some { w with
        catalogFile := if write.replaces then migrateProjects catalog else w.catalogFile
        loading := match write with
          | .written => .loaded
          | .failed _ => .outside }
    | _ => none
  | .lock d e =>
    if w.lockEnabled d e then (w.lock.step (d, e)).map fun lock => w.locks lock d e else none

/-- The second daemon works on what the files say: the catalog that it writes
back is the one in the file, it has read every publication of the file when it
takes the lock, and from then on the first one persists no other. -/
def ReadsLast (w : StartWorld Oid) : StartEvent Oid → Prop
  | .migrate write =>
    match w.loading with
    | .queueRead catalog => write.replaces = true → migrateProjects catalog = w.catalogFile
    | _ => True
  | .lock .second .sync => ∀ id ∈ queueIds w.queueFile, id ∈ queueIds (w.queues .second)
  | .operate .first op write => w.started = true → write.replaces = true →
      ∀ id ∈ pendingIds (op.apply (w.queues .first)), id ∈ queueIds (w.queues .second)
  | _ => True

/-- What the first daemon has persisted is in `queue`, or was compacted. -/
def Keeps (w : StartWorld Oid) (queue : List (Publication Oid)) : Prop :=
  ∀ id ∈ w.persisted, id ∈ queueIds queue ∨ id ∈ w.compacted

/-- The invariant until the second daemon takes the lock. -/
structure Before (w : StartWorld Oid) : Prop where
  started : w.started = false
  waits : w.running .second = false
  file : w.Keeps w.queueFile
  memory : w.Keeps (w.queues .first)
  catalog : w.catalogFile = w.lastWritten

/-- The invariant from then on. -/
structure After (w : StartWorld Oid) : Prop where
  started : w.started = true
  loaded : w.loading = .loaded
  memory : w.Keeps (w.queues .second)

variable {w w' : StartWorld Oid}

/-- An operation on a queue keeps in it what it has, or compacts it. -/
theorem Keeps.apply {queue : List (Publication Oid)} (h : w.Keeps queue) (op : QueueOp Oid) :
    ∀ id ∈ w.persisted, id ∈ queueIds (op.apply queue) ∨ id ∈ op.compacts queue ++ w.compacted := by
  intro id hid
  rcases h id hid with hqueue | hcompacted
  · rcases op.keeps hqueue with hkept | hdropped
    · exact Or.inl hkept
    · exact Or.inr (List.mem_append_left _ hdropped)
  · exact Or.inr (List.mem_append_right _ hcompacted)

theorem loaded_of_lockEnabled {e : LockEvent} (h : w.lockEnabled .second e = true) :
    w.loading = .loaded := by
  have hloaded := (Bool.and_eq_true_iff.mp h).1
  cases hloading : w.loading with
  | loaded => rfl
  | _ =>
    rw [hloading] at hloaded
    cases hloaded

/-- A daemon that does not run comes to run by taking the lock. -/
theorem running_locks {d d' : Daemon} {e : LockEvent} {lock : LockWorld Daemon}
    (hs : w.lock.step (d, e) = some lock) (h : w.running d' = false)
    (hd : d = d' → e ≠ .sync) : (w.locks lock d e).running d' = false := by
  obtain ⟨s, hstarters, hmoves⟩ := LockWorld.step_moves hs
  have hlock : (lock.starters d').running = false := by
    rw [hstarters]
    by_cases hdd : d' = d
    · subst hdd
      rw [Function.update_self]
      exact hmoves.running (hd rfl) h
    · rw [Function.update_of_ne hdd]
      exact h
  cases e with
  | _ => exact hlock

/-- The second daemon does not run before it has the lock, so only the first
one writes. -/
theorem Before.operate (h : Before w) (op : QueueOp Oid) (write : FileWrite) :
    Before { w with
      queues := Function.update w.queues .first (op.apply (w.queues .first))
      queueFile := if write.replaces then op.apply (w.queues .first) else w.queueFile
      persisted := if write.replaces && Daemon.first == .first then
          pendingIds (op.apply (w.queues .first)) ++ w.persisted
        else w.persisted
      compacted := op.compacts (w.queues .first) ++ w.compacted } := by
  have hself : Function.update w.queues .first (op.apply (w.queues .first)) .first =
      op.apply (w.queues .first) := Function.update_self ..
  have hmemory : ∀ id ∈ w.persisted,
      id ∈ queueIds (Function.update w.queues .first (op.apply (w.queues .first)) .first) ∨
        id ∈ op.compacts (w.queues .first) ++ w.compacted := by
    rw [hself]
    exact h.memory.apply op
  cases hreplaces : write.replaces with
  | true =>
    have hwritten : ∀ id ∈ pendingIds (op.apply (w.queues .first)) ++ w.persisted,
        id ∈ queueIds (Function.update w.queues .first (op.apply (w.queues .first)) .first) ∨
          id ∈ op.compacts (w.queues .first) ++ w.compacted := by
      intro id hid
      rcases List.mem_append.mp hid with hnew | hold
      · rw [hself]
        exact Or.inl (pendingIds_subset hnew)
      · exact hmemory id hold
    -- the file is now what the memory is
    have hfile := hwritten
    rw [hself] at hfile
    exact ⟨h.started, h.waits, hfile, hwritten, h.catalog⟩
  | false =>
    refine ⟨h.started, h.waits, ?_, hmemory, h.catalog⟩
    intro id hid
    rcases h.file id hid with hfile | hcompacted
    · exact Or.inl hfile
    · exact Or.inr (List.mem_append_right _ hcompacted)

theorem Before.writeCatalog (h : Before w) (catalog : List (StoredProject Oid))
    (write : FileWrite) : Before { w with
      catalogFile := if write.replaces then catalog else w.catalogFile
      lastWritten := if write.replaces && Daemon.first == .first then catalog
        else w.lastWritten } := by
  cases hreplaces : write.replaces with
  | true => exact ⟨h.started, h.waits, h.file, h.memory, rfl⟩
  | false => exact ⟨h.started, h.waits, h.file, h.memory, h.catalog⟩

/-- By the condition the second daemon writes back what is in the file. -/
theorem Before.migrate (h : Before w) {catalog : List (StoredProject Oid)} {write : FileWrite}
    {loading : Loading Oid}
    (hcatalog : write.replaces = true → migrateProjects catalog = w.catalogFile) :
    Before { w with
      catalogFile := if write.replaces then migrateProjects catalog else w.catalogFile
      loading := loading } := by
  have hsame : (if write.replaces then migrateProjects catalog else w.catalogFile) =
      w.catalogFile := by
    split
    · next hreplaces => exact hcatalog hreplaces
    · rfl
  rw [hsame]
  exact ⟨h.started, h.waits, h.file, h.memory, h.catalog⟩

/-- The step into the lock. -/
theorem Before.lock (h : Before w) {lock : LockWorld Daemon} (hloaded : w.loading = .loaded)
    (hread : ∀ id ∈ queueIds w.queueFile, id ∈ queueIds (w.queues .second)) :
    After { w with lock := lock, started := true } := by
  refine ⟨rfl, hloaded, ?_⟩
  intro id hid
  rcases h.file id hid with hfile | hcompacted
  · exact Or.inl (hread id hfile)
  · exact Or.inr hcompacted

/-- From then on the second daemon's queue keeps what was persisted, and the
first one adds nothing to it. -/
theorem After.operate (h : After w) {d : Daemon} {op : QueueOp Oid} {write : FileWrite}
    (hfirst : d = .first → write.replaces = true →
      ∀ id ∈ pendingIds (op.apply (w.queues .first)), id ∈ queueIds (w.queues .second)) :
    After { w with
      queues := Function.update w.queues d (op.apply (w.queues d))
      queueFile := if write.replaces then op.apply (w.queues d) else w.queueFile
      persisted := if write.replaces && d == .first then
          pendingIds (op.apply (w.queues d)) ++ w.persisted
        else w.persisted
      compacted := op.compacts (w.queues d) ++ w.compacted } := by
  refine ⟨h.started, h.loaded, ?_⟩
  cases d with
  | first =>
    have hold : ∀ id ∈ w.persisted, id ∈ queueIds (w.queues .second) ∨
        id ∈ op.compacts (w.queues .first) ++ w.compacted := fun id hid =>
      (h.memory id hid).imp_right (List.mem_append_right _)
    cases hreplaces : write.replaces with
    | true =>
      intro id hid
      rcases List.mem_append.mp hid with hnew | hid
      · exact Or.inl (hfirst rfl hreplaces id hnew)
      · exact hold id hid
    | false => exact hold
  | second =>
    have hself : Function.update w.queues .second (op.apply (w.queues .second)) .second =
        op.apply (w.queues .second) := Function.update_self ..
    have hmemory : ∀ id ∈ w.persisted,
        id ∈ queueIds (Function.update w.queues .second (op.apply (w.queues .second)) .second) ∨
          id ∈ op.compacts (w.queues .second) ++ w.compacted := by
      rw [hself]
      exact h.memory.apply op
    cases hreplaces : write.replaces with
    | true => exact hmemory
    | false => exact hmemory

theorem Before.step (h : Before w) {e : StartEvent Oid} (hok : ReadsLast w e)
    (hs : w.step e = some w') : Before w' ∨ After w' := by
  cases e with
  | operate d op write =>
    simp only [StartWorld.step] at hs
    split at hs
    · next hruns =>
      obtain rfl := Option.some.inj hs
      cases d with
      | first => exact Or.inl (h.operate op write)
      | second =>
        -- The second daemon does not run yet.
        rw [h.waits] at hruns
        cases hruns
    · cases hs
  | writeCatalog d catalog write =>
    simp only [StartWorld.step] at hs
    split at hs
    · next hruns =>
      obtain rfl := Option.some.inj hs
      cases d with
      | first => exact Or.inl (h.writeCatalog catalog write)
      | second =>
        rw [h.waits] at hruns
        cases hruns
    · cases hs
  | readCatalog =>
    simp only [StartWorld.step] at hs
    split at hs
    · obtain rfl := Option.some.inj hs
      exact Or.inl ⟨h.started, h.waits, h.file, h.memory, h.catalog⟩
    · cases hs
  | readQueue =>
    simp only [StartWorld.step] at hs
    split at hs
    · obtain rfl := Option.some.inj hs
      have hfirst : Function.update w.queues .second w.queueFile .first = w.queues .first :=
        Function.update_of_ne (fun hd => by cases hd) ..
      have hmemory := h.memory
      rw [← hfirst] at hmemory
      exact Or.inl ⟨h.started, h.waits, h.file, hmemory, h.catalog⟩
    · cases hs
  | migrate write =>
    simp only [StartWorld.step] at hs
    split at hs
    · next catalog hloading =>
      obtain rfl := Option.some.inj hs
      rw [ReadsLast, hloading] at hok
      exact Or.inl (h.migrate hok)
    · cases hs
  | lock d e =>
    simp only [StartWorld.step] at hs
    split at hs
    · next henabled =>
      obtain ⟨lock, hlock, rfl⟩ := Option.map_eq_some_iff.mp hs
      -- With the lock the second daemon starts to run.
      by_cases hd : d = .second ∧ e = .sync
      · obtain ⟨rfl, rfl⟩ := hd
        refine Or.inr (?_ : After { w with lock := lock, started := w.started || true })
        rw [Bool.or_true]
        exact h.lock (loaded_of_lockEnabled henabled) hok
      · have hwaits := running_locks hlock h.waits fun hsecond he => hd ⟨hsecond, he⟩
        cases e with
        | sync =>
          have hfirst : (d == Daemon.second) = false := beq_eq_false_iff_ne.mpr fun hsecond =>
            hd ⟨hsecond, rfl⟩
          have hstarted : (w.started || d == Daemon.second) = false := by
            rw [hfirst, Bool.or_false]
            exact h.started
          exact Or.inl ⟨hstarted, hwaits, h.file, h.memory, h.catalog⟩
        | _ => exact Or.inl ⟨h.started, hwaits, h.file, h.memory, h.catalog⟩
    · cases hs

theorem After.step (h : After w) {e : StartEvent Oid} (hok : ReadsLast w e)
    (hs : w.step e = some w') : After w' := by
  cases e with
  | operate d op write =>
    simp only [StartWorld.step] at hs
    split at hs
    · obtain rfl := Option.some.inj hs
      apply h.operate
      rintro rfl
      exact hok h.started
    · cases hs
  | writeCatalog d catalog write =>
    simp only [StartWorld.step] at hs
    split at hs
    · obtain rfl := Option.some.inj hs
      exact ⟨h.started, h.loaded, h.memory⟩
    · cases hs
  | readCatalog =>
    simp only [StartWorld.step, h.loaded] at hs
    cases hs
  | readQueue =>
    simp only [StartWorld.step, h.loaded] at hs
    cases hs
  | migrate write =>
    simp only [StartWorld.step, h.loaded] at hs
    cases hs
  | lock d e =>
    simp only [StartWorld.step] at hs
    split at hs
    · obtain ⟨lock, hlock, rfl⟩ := Option.map_eq_some_iff.mp hs
      have hstarted : (w.started || d == Daemon.second) = true := by
        rw [h.started, Bool.true_or]
      cases e with
      | sync => exact ⟨hstarted, h.loaded, h.memory⟩
      | _ => exact ⟨h.started, h.loaded, h.memory⟩
    · cases hs

theorem before_initial (catalog : List (StoredProject Oid)) (queue : List (Publication Oid))
    (pid : Daemon → ℤ) : Before (initial catalog queue pid) where
  started := rfl
  waits := rfl
  file := fun _ hid => Or.inl (pendingIds_subset hid)
  memory := fun _ hid => Or.inl (pendingIds_subset hid)
  catalog := rfl

/-- In every run whose steps meet the condition: once the second daemon has
taken the lock, whatever the first one has persisted as pending is pending or
acknowledged in its queue, or a compaction of acknowledged publications has
dropped it; and as long as it has not, the catalog is as the first one has last
written it. -/
theorem second_daemon_keeps {catalog : List (StoredProject Oid)} {queue : List (Publication Oid)}
    {pid : Daemon → ℤ} {es : List (StartEvent Oid)} {v : StartWorld Oid}
    (hok : Runs.Steps step ReadsLast (initial catalog queue pid) es)
    (hv : Runs.run step (initial catalog queue pid) es = some v) :
    (v.started = true → ∀ id ∈ v.persisted, id ∉ v.compacted → ∃ p ∈ v.queues .second,
      p.publicationId = id ∧ (p.state = .pending ∨ p.state = .acknowledged)) ∧
    (v.started = false → v.catalogFile = v.lastWritten) := by
  have hstep : ∀ (w : StartWorld Oid) e w', Before w ∨ After w → ReadsLast w e →
      w.step e = some w' → Before w' ∨ After w' := by
    intro w e w' h hok hs
    rcases h with h | h
    · exact h.step hok hs
    · exact Or.inr (h.step hok hs)
  rcases Runs.run_invariant hstep (Or.inl (before_initial catalog queue pid)) hok hv with h | h
  · refine ⟨fun hstarted => ?_, fun _ => h.catalog⟩
    rw [h.started] at hstarted
    cases hstarted
  · refine ⟨fun _ id hid hkept => ?_, fun hstarted => ?_⟩
    · have hmem := (h.memory id hid).resolve_right hkept
      obtain ⟨p, hp, hpid⟩ := List.mem_map.mp hmem
      refine ⟨p, hp, hpid, ?_⟩
      cases p.state with
      | pending => exact Or.inl rfl
      | acknowledged => exact Or.inr rfl
    · rw [h.started] at hstarted
      cases hstarted

end StartWorld

section TwoDaemons

/-- The running daemon has no project and no publication. -/
def emptyState : StartWorld ℕ :=
  StartWorld.initial [] [] fun | .first => 100 | .second => 101

def mainPublication (id : String) : Publication ℕ := .new id 5 "prj" none "main" 1 none

/-- The first daemon ends, and the second one gets the lock and writes a
publication of its own. -/
def takeOver : List (StartEvent ℕ) :=
  [.lock .first (.leave true), .lock .first .exit, .lock .second .start, .lock .second .create,
    .lock .second .write, .lock .second .sync,
    .operate .second (.push (mainPublication "new")) .written]

/-- The second daemon finds the first one alive. -/
def refused : List (StartEvent ℕ) :=
  [.lock .second .start, .lock .second .create, .lock .second .read, .lock .second (.probe true)]

/-- The first daemon persists a publication, and the second one starts. -/
def orderlyStart : List (StartEvent ℕ) :=
  [.operate .first (.push (mainPublication "pub")) .written, .readCatalog, .readQueue,
    .migrate .written] ++ takeOver

/-- The first daemon persists a publication and registers a project while the
second one is between reading and writing. -/
def lateWrites : List (StartEvent ℕ) :=
  [.readCatalog, .readQueue, .operate .first (.push (mainPublication "pub")) .written,
    .writeCatalog .first [⟨currentProject, none, none, none⟩] .written, .migrate .written]

theorem orderlyStart_readsLast :
    Runs.Steps StartWorld.step StartWorld.ReadsLast emptyState orderlyStart := by
  -- the first write, the load, the lock, the second daemon's write
  apply Runs.Steps.cons (fun h => by cases h) rfl
  apply Runs.Steps.cons trivial rfl
  apply Runs.Steps.cons trivial rfl
  apply Runs.Steps.cons (fun _ => migrateProjects_idempotent []) rfl
  apply Runs.Steps.cons trivial rfl
  apply Runs.Steps.cons trivial rfl
  apply Runs.Steps.cons trivial rfl
  apply Runs.Steps.cons trivial rfl
  apply Runs.Steps.cons trivial rfl
  apply Runs.Steps.cons (fun _ hid => hid) rfl
  exact Runs.Steps.cons trivial rfl trivial

theorem second_daemon_keeps_two : ∃ v,
    Runs.run StartWorld.step emptyState orderlyStart = some v ∧ v.started = true ∧
    (∃ p ∈ v.queues .second,
      p.publicationId = "pub" ∧ (p.state = .pending ∨ p.state = .acknowledged)) := by
  have htest : ((Runs.run StartWorld.step emptyState orderlyStart).map fun v =>
      (v.started, v.persisted, v.compacted)) = some (true, ["pub"], []) := by decide +kernel
  obtain ⟨v, hv, hfields⟩ := Option.map_eq_some_iff.mp htest
  simp only [Prod.mk.injEq] at hfields
  obtain ⟨hstarted, hpersisted, hcompacted⟩ := hfields
  refine ⟨v, hv, hstarted, ?_⟩
  apply (StartWorld.second_daemon_keeps orderlyStart_readsLast hv).1 hstarted
  · rw [hpersisted]
    exact List.mem_singleton_self "pub"
  · rw [hcompacted]
    exact List.not_mem_nil

/-- What the first daemon writes in the meantime is lost: the second one, once
it has the lock, has no trace of the publication; and one that is refused has
reverted the catalog. -/
theorem late_writes_are_lost :
    (∃ v, Runs.run StartWorld.step emptyState (lateWrites ++ takeOver) = some v ∧
      v.started = true ∧ "pub" ∈ v.persisted ∧ v.compacted = [] ∧
      queueIds (v.queues .second) = ["new"] ∧ queueIds v.queueFile = ["new"]) ∧
    ∃ v, Runs.run StartWorld.step emptyState (lateWrites ++ refused) = some v ∧
      v.lock.starters .second = .failed "RepoSync daemon is already running as PID 100" ∧
      v.catalogFile ≠ v.lastWritten := by
  have hlost : ((Runs.run StartWorld.step emptyState (lateWrites ++ takeOver)).map fun v =>
      (v.started, v.persisted, v.compacted, queueIds (v.queues .second), queueIds v.queueFile)) =
        some (true, ["pub"], [], ["new"], ["new"]) := by decide +kernel
  have hreverted : ((Runs.run StartWorld.step emptyState (lateWrites ++ refused)).map fun v =>
      (v.lock.starters .second, v.catalogFile.length, v.lastWritten.length)) =
        some (.failed "RepoSync daemon is already running as PID 100", 0, 1) := by decide +kernel
  obtain ⟨v, hv, hfields⟩ := Option.map_eq_some_iff.mp hlost
  obtain ⟨u, hu, hlengths⟩ := Option.map_eq_some_iff.mp hreverted
  simp only [Prod.mk.injEq] at hfields hlengths
  obtain ⟨hstarted, hpersisted, hcompacted, hqueue, hfile⟩ := hfields
  obtain ⟨hfailed, hcatalog, hlast⟩ := hlengths
  refine ⟨⟨v, hv, hstarted, hpersisted ▸ List.mem_singleton_self "pub", hcompacted, hqueue, hfile⟩,
    u, hu, hfailed, fun heq => ?_⟩
  rw [heq, hlast] at hcatalog
  cases hcatalog

end TwoDaemons

end Resync
