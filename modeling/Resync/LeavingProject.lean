import Resync.DaemonSteps
import Resync.HostedForward

/-! `resync project leave` (`cli.rs`) while the daemon runs. The command takes the
project out of `catalog.json`; the daemon goes on with its own copy of the catalog,
which it writes back, and reads the file only when it starts and on `reload`. -/
namespace Resync

variable {Oid Task : Type}

/-- The copy of the record that a publication is enqueued with. -/
def Call.record : Call Oid → Option (LocalProject Oid)
  | .cloned _ project _ _ _ => some project
  | _ => none

/-- The copy of the record that a delivery works with: it fetches, validates, pushes
or acknowledges next. -/
def Delivery.record : Delivery Oid → Option (LocalProject Oid)
  | .projected _ _ project | .validating _ _ project | .validated _ _ project
  | .delivered _ _ project | .confirmed _ _ project _ => some project
  | _ => none

theorem fallible_of_record {d : Delivery Oid} {p : LocalProject Oid} (h : d.record = some p) :
    ∃ a, d.fallible = some a := by
  cases d with
  | projected a | validating a | validated a | delivered a | confirmed a => exact ⟨a, rfl⟩
  | _ => cases h

/-- The copy of the record that a reconciliation prepares with. -/
def Reconciliation.record : Reconciliation Oid → Option (LocalProject Oid)
  | .staged _ _ project | .located _ _ project _ => some project
  | _ => none

inductive LeavePlace (Oid : Type) where
  | idle
  | read (projects : List (LocalProject Oid))
  /-- It has returned success. -/
  | left

/-- An enqueue or a delivery works with a copy of the record. -/
def PublishWorld.Uses (w : PublishWorld Oid Task) (p : LocalProject Oid) : Prop :=
  (∃ task, (w.calls task).record = some p) ∨ w.delivery.record = some p

def DaemonWorld.Uses (d : DaemonWorld Oid Task) (p : LocalProject Oid) : Prop :=
  d.publish.Uses p ∨ ∃ task, (d.reconciling task).record = some p

/-- `file` is `catalog.json`, and `loaded` a catalog that a start or a `reload` of the
daemon has read and has not taken over. -/
structure LeaveWorld (Oid Task : Type) where
  file : List (LocalProject Oid)
  running : Bool
  daemon : DaemonWorld Oid Task
  loaded : Option (List (LocalProject Oid))
  leave : LeavePlace Oid

inductive LeaveEvent (Oid Task : Type) where
  | daemon (e : DaemonEvent Oid Task)
  /-- An operation of the daemon writes the catalog. -/
  | persist
  | register (project : LocalProject Oid) (generation : Option ℕ)
  /-- A start or a `reload` reads the catalog. -/
  | load
  | takeOver
  | stop
  | readCatalog
  | leave

def hasProject (id : String) (projects : List (LocalProject Oid)) : Prop :=
  ∃ p ∈ projects, p.projectId = id

namespace PublishWorld

variable [DecidableEq Oid] {G : CommitGraph Oid} {w w' : PublishWorld Oid Task}
  {q : LocalProject Oid}

/-- A delivery works with a record of the catalog, or keeps the one it has. -/
theorem deliver_record {e : DeliveryEvent Oid} (h : w.deliver G e = some w')
    (hq : w'.delivery.record = some q) :
    w.delivery.record = some q ∨ q ∈ w.catalog.projects := by
  cases deliveryStep_of_deliver h with
  | projects place found =>
    obtain rfl := Option.some.inj hq
    exact Or.inr (findProject_mem found)
  | fetchesCandidate place | fetchesExpected place | validates place | confirms place =>
    rw [place]
    exact Or.inl hq
  | @pushes a p project answered place =>
    rw [place]
    cases answered with
    | true => exact Or.inl hq
    | false => cases hq
  | _ => cases hq

variable [DecidableEq Task]

/-- The place to which a step takes a call, with a record of the catalog if with any. -/
theorem call_record {task : Task} {e : CallEvent Oid} (h : w.call G task e = some w') :
    ∃ c, w'.calls = Function.update w.calls task c ∧ ∀ q, c.record = some q →
      q ∈ w.catalog.projects := by
  have hset : ∀ (u : PublishWorld Oid Task) (c : Call Oid), u.calls = w.calls →
      c.record = none → ∃ c', (u.setCall task c).calls = Function.update w.calls task c' ∧
        ∀ q, c'.record = some q → q ∈ w.catalog.projects := by
    intro u c hu hc
    refine ⟨c, ?_, fun q hq => ?_⟩
    · rw [← hu]
      rfl
    · rw [hc] at hq
      cases hq
  have hnext : ∀ (next : Next) name, (next.call name : Call Oid).record = none := by
    intro next name
    cases next with
    | done => rfl
    | activate branch => rfl
  cases callStep_of_call h with
  | transitions place found =>
    refine ⟨_, rfl, fun q hq => ?_⟩
    cases hq
  | clones place found =>
    refine ⟨_, rfl, fun q hq => ?_⟩
    obtain rfl := Option.some.inj hq
    exact findProject_mem found
  | finds => exact hset w _ rfl (hnext _ _)
  | records => exact hset _ _ rfl (hnext _ _)
  | creates | queues => exact ⟨_, rfl, fun q hq => by cases hq⟩
  | refreshes =>
    refine hset _ _ rfl ?_
    split
    · rfl
    · rfl
  | refreshesBranch | losesAccess | isOffline | advertises | activates => exact hset _ _ rfl rfl
  | _ => exact hset w _ rfl rfl

omit [DecidableEq Task] in
theorem uses_of_delivery {e : DeliveryEvent Oid} (h : w.deliver G e = some w')
    (hq : w'.Uses q) : w.Uses q ∨ q ∈ w.catalog.projects := by
  rcases hq with ⟨task, hq⟩ | hq
  · rw [(deliver_frame h).calls] at hq
    exact Or.inl (Or.inl ⟨task, hq⟩)
  · rcases deliver_record h hq with hq | hq
    · exact Or.inl (Or.inr hq)
    · exact Or.inr hq

/-- A step works with the records that were in use, or with one of the catalog. -/
theorem uses_of_step {e : PublishEvent Oid Task} (h : w.step G e = some w') (hq : w'.Uses q) :
    w.Uses q ∨ q ∈ w.catalog.projects := by
  cases e with
  | user e =>
    have hframe := (user_frame h).1
    rcases hq with ⟨task, hq⟩ | hq
    · rcases hframe.calls task with hsame | ⟨name, path, previous, left, hhook⟩
      · rw [hsame] at hq
        exact Or.inl (Or.inl ⟨task, hq⟩)
      · rw [hhook] at hq
        cases hq
    · rw [hframe.delivery] at hq
      exact Or.inl (Or.inr hq)
  | call task e =>
    obtain ⟨c, hcalls, hc⟩ := call_record h
    rcases hq with ⟨t, hq⟩ | hq
    · rw [hcalls, Function.update_apply] at hq
      split at hq
      · exact Or.inr (hc q hq)
      · exact Or.inl (Or.inl ⟨t, hq⟩)
    · rw [(call_cases h).1.delivery] at hq
      exact Or.inl (Or.inr hq)
  | deliver e => exact uses_of_delivery h hq
  | writeProject name record =>
    obtain ⟨rfl, -⟩ := writeProject_eq_some h
    exact Or.inl hq
  | install path b new old =>
    obtain rfl := install_eq_some h
    exact Or.inl hq
  | restart =>
    obtain rfl := Option.some.inj h
    rcases hq with ⟨task, hq⟩ | hq
    · have hnone : ∀ c : Call Oid, c.afterRestart.record = none := fun c => by cases c <;> rfl
      rw [show ((w.calls task).afterRestart).record = none from hnone _] at hq
      cases hq
    · cases hq

end PublishWorld

namespace DaemonWorld

variable [DecidableEq Oid] [DecidableEq Task] {G : CommitGraph Oid} {d d' : DaemonWorld Oid Task}
  {q : LocalProject Oid}

/-- What a step of a reconciliation does besides to its place. -/
theorem uses_of_reconcile {task : Option Task} {e : ReconcileEvent Oid}
    (h : d.reconcile G task e = some d') (hq : d'.publish.Uses q) :
    d.publish.Uses q ∨ q ∈ d.publish.catalog.projects := by
  have hmoved : ∀ {installed : Installed} {publish : PublishWorld Oid Task},
      InstallMoves G d task installed publish → publish.Uses q →
        d.publish.Uses q ∨ q ∈ d.publish.catalog.projects := by
    intro installed publish hmoves hq
    cases hmoves with
    | stays => exact Or.inl hq
    | moves _ _ _ _ hstep => exact PublishWorld.uses_of_step hstep hq
  cases reconcile_publish h with
  | stays same | merges _ same | notes _ same =>
    rw [same] at hq
    exact Or.inl hq
  | installs _ moves => exact hmoved moves hq
  | installsResult _ moves _ same =>
    rw [same] at hq
    exact hmoved moves hq
  | answers _ _ delivers => exact PublishWorld.uses_of_delivery delivers hq

omit [DecidableEq Task] in
theorem PlaceStep.record {task : Option Task} {e : ReconcileEvent Oid} {r : Reconciliation Oid}
    (h : PlaceStep G d task e r) (hq : r.record = some q) :
    d.Uses q ∨ q ∈ d.publish.catalog.projects := by
  cases h with
  | waits hcopy =>
    cases r with
    | staged => cases hcopy
    | located => cases hcopy
    | _ => cases hq
  | staged _ hproject =>
    obtain rfl := Option.some.inj hq
    exact Or.inr (findProject_mem hproject)
  | located hplace =>
    refine Or.inl (Or.inr ⟨task, ?_⟩)
    rw [hplace]
    exact hq
  | complete => cases hq
  | prepared => cases hq

theorem uses_of_step {e : DaemonEvent Oid Task} (h : d.step G e = some d') (hq : d'.Uses q) :
    d.Uses q ∨ q ∈ d.publish.catalog.projects := by
  cases e with
  | publish e =>
    obtain ⟨hstep, hreconciling⟩ := publishes_step h
    rcases hq with hq | ⟨task, hq⟩
    · rcases PublishWorld.uses_of_step hstep hq with hq | hq
      · exact Or.inl (Or.inl hq)
      · exact Or.inr hq
    · rcases hreconciling with hsame | hidle
      · rw [hsame] at hq
        exact Or.inl (Or.inr ⟨task, hq⟩)
      · rw [hidle] at hq
        cases hq
  | reconcile task e =>
    rcases hq with hq | ⟨t, hq⟩
    · rcases uses_of_reconcile h hq with hq | hq
      · exact Or.inl (Or.inl hq)
      · exact Or.inr hq
    · obtain ⟨r, hr, hplace⟩ := reconcile_place h
      rw [hr, Function.update_apply] at hq
      split at hq
      · exact PlaceStep.record hplace hq
      · exact Or.inl (Or.inr ⟨t, hq⟩)

end DaemonWorld

namespace LeaveWorld

def withCatalog (w : LeaveWorld Oid Task) (c : LocalCatalog Oid) : LeaveWorld Oid Task :=
  { w with daemon := w.daemon.setPublish { w.daemon.publish with catalog := c } }

/-- The project in whose checkout the daemon's step fetches, reconciles or publishes. -/
def worksIn (d : DaemonWorld Oid Task) : DaemonEvent Oid Task → Option (LocalProject Oid)
  | .publish (.call task (.refreshHead answer)) =>
    match d.publish.calls task with
    | .refreshing name _ =>
      match answer with
      | .accessLost _ => none
      | _ => findProject d.publish.catalog name
    | _ => none
  | .publish (.call task (.create _ _)) => (d.publish.calls task).record
  | .publish (.deliver _) => d.publish.delivery.record
  | .reconcile task .locate | .reconcile task (.prepare _ _) => (d.reconciling task).record
  | .reconcile task (.install _ _ _) =>
    match d.reconciling task with
    | .prepared _ name _ _ => findProject d.publish.catalog name
    | _ => none
  | _ => none

/-- A daemon that stops leaves the hooks to themselves. -/
def stopped (d : DaemonWorld Oid Task) : DaemonWorld Oid Task where
  publish := { d.publish with
    calls := fun task => (d.publish.calls task).afterRestart, delivery := .idle }
  reconciling := fun _ => .idle
  findings := d.findings

section Steps

variable [DecidableEq Oid] [DecidableEq Task] (G : CommitGraph Oid) (id : String)

def step (w : LeaveWorld Oid Task) : LeaveEvent Oid Task → Option (LeaveWorld Oid Task)
  | .daemon e =>
    if w.running then (w.daemon.step G e).map fun d => { w with daemon := d } else none
  | .persist =>
    if w.running then some { w with file := w.daemon.publish.catalog.projects } else none
  | .register project generation =>
    if w.running then
      some (w.withCatalog (registerProject w.daemon.publish.catalog project generation))
    else none
  | .load =>
    match w.loaded with
    | none => some { w with loaded := some w.file }
    | some _ => none
  | .takeOver =>
    match w.loaded with
    | none => none
    | some projects =>
      let catalog := { w.daemon.publish.catalog with projects := projects }
      if w.running then some { w.withCatalog catalog with loaded := none }
      else
        -- a start, unlike a `reload`, writes the catalog
        some { { w with daemon := stopped w.daemon }.withCatalog catalog with
          running := true, file := projects, loaded := none }
  | .stop =>
    if w.running then
      some { w with running := false, daemon := stopped w.daemon, loaded := none }
    else none
  | .readCatalog =>
    match w.leave with
    | .idle => some { w with leave := .read w.file }
    | _ => none
  | .leave =>
    match w.leave with
    | .read projects =>
      if ∃ p ∈ projects, p.projectId = id then
        some { w with file := projects.filter fun p => p.projectId != id, leave := .left }
      else some { w with leave := .idle }
    | _ => none

end Steps

/-- The daemon, or a catalog that it has read, has the project. -/
def Remembers (id : String) (w : LeaveWorld Oid Task) : Prop :=
  w.running = true ∧ hasProject id w.daemon.publish.catalog.projects ∨
    ∃ projects, w.loaded = some projects ∧ hasProject id projects

/-- An operation in progress has a copy of the project's record. -/
def InProgress (id : String) (d : DaemonWorld Oid Task) : Prop :=
  ∃ p, d.Uses p ∧ p.projectId = id

def Joins (id : String) : LeaveEvent Oid Task → Prop
  | .register project _ => project.projectId = id
  | _ => False

variable [DecidableEq Oid] [DecidableEq Task] (G : CommitGraph Oid) (id : String)

/-- Whatever is done without joining again, the project does not come back to the
catalog file, and the daemon does not work in its checkout. -/
def LeftForGood (w : LeaveWorld Oid Task) : Prop :=
  ∀ es u, (∀ e ∈ es, ¬ Joins id e) → Runs.run (step G id) w es = some u →
    ¬ hasProject id u.file ∧ ∀ e d p, u.running = true → u.daemon.step G e = some d →
      worksIn u.daemon e = some p → p.projectId ≠ id

/-- The condition when the command writes the file: nothing of a running daemon holds
the project, nor a catalog that has been loaded. -/
def Forgotten (w : LeaveWorld Oid Task) : Prop :=
  ¬ w.Remembers id ∧ (w.running = true → ¬ InProgress id w.daemon)

/-- What holds from there on. -/
structure Away (w : LeaveWorld Oid Task) : Prop where
  leave : w.leave = .left
  file : ¬ hasProject id w.file
  forgotten : w.Forgotten id

variable {G} {id} {w w' : LeaveWorld Oid Task}

omit [DecidableEq Oid] [DecidableEq Task] in
theorem not_hasProject_register {c : LocalCatalog Oid} {project : LocalProject Oid}
    {generation : Option ℕ} (hc : ¬ hasProject id c.projects) (hid : project.projectId ≠ id) :
    ¬ hasProject id (registerProject c project generation).projects := by
  rintro ⟨q, hq, hqid⟩
  rcases mem_registerProject hq with rfl | ⟨hq, -⟩
  · exact hid hqid
  · exact hc ⟨q, hq, hqid⟩

theorem not_hasProject_step {d d' : DaemonWorld Oid Task} {e : DaemonEvent Oid Task}
    (hs : d.step G e = some d') (hd : ¬ hasProject id d.publish.catalog.projects) :
    ¬ hasProject id d'.publish.catalog.projects := by
  rintro ⟨q, hq, hid⟩
  obtain ⟨i, hi⟩ := List.mem_iff_getElem?.mp hq
  obtain ⟨p, hp, hstep⟩ :=
    (DaemonWorld.step_writes hs).record_back (fun _ p => .keeps (KeepsResult.refl p)) hi
  refine hd ⟨p, List.mem_of_getElem? hp, ?_⟩
  exact (identity_projectId hstep.identity).symm.trans hid

theorem not_inProgress_step {d d' : DaemonWorld Oid Task} {e : DaemonEvent Oid Task}
    (hs : d.step G e = some d') (hd : ¬ hasProject id d.publish.catalog.projects)
    (hin : ¬ InProgress id d) : ¬ InProgress id d' := by
  rintro ⟨q, hq, hid⟩
  rcases DaemonWorld.uses_of_step hs hq with hq | hq
  · exact hin ⟨q, hq, hid⟩
  · exact hd ⟨q, hq, hid⟩

omit [DecidableEq Oid] [DecidableEq Task] in
theorem not_inProgress_stopped (d : DaemonWorld Oid Task) : ¬ InProgress id (stopped d) := by
  have hnone : ∀ c : Call Oid, c.afterRestart.record = none := by
    intro c
    cases c <;> rfl
  rintro ⟨q, (⟨task, hq⟩ | hq) | ⟨task, hq⟩, -⟩
  · rw [show ((stopped d).publish.calls task).record = none from hnone _] at hq
    cases hq
  · cases hq
  · cases hq

theorem Away.step (h : w.Away id) {e : LeaveEvent Oid Task} (hjoin : ¬ Joins id e)
    (hs : w.step G id e = some w') : w'.Away id := by
  obtain ⟨hremembers, hidle⟩ := h.forgotten
  have hloaded : ∀ projects, w.loaded = some projects → ¬ hasProject id projects :=
    fun projects hl hp => hremembers (Or.inr ⟨projects, hl, hp⟩)
  have hmemory : w.running = true → ¬ hasProject id w.daemon.publish.catalog.projects :=
    fun hr hp => hremembers (Or.inl ⟨hr, hp⟩)
  cases e with
  | daemon e =>
    simp only [LeaveWorld.step] at hs
    split at hs
    · next hr =>
      obtain ⟨d, hd, rfl⟩ := Option.map_eq_some_iff.mp hs
      refine ⟨h.leave, h.file, ?_, fun _ => not_inProgress_step hd (hmemory hr) (hidle hr)⟩
      rintro (⟨-, hp⟩ | ⟨projects, hl, hp⟩)
      · exact not_hasProject_step hd (hmemory hr) hp
      · exact hloaded projects hl hp
    · cases hs
  | persist =>
    simp only [LeaveWorld.step] at hs
    split at hs
    · next hr =>
      obtain rfl := Option.some.inj hs
      exact ⟨h.leave, hmemory hr, h.forgotten⟩
    · cases hs
  | register project generation =>
    simp only [LeaveWorld.step] at hs
    split at hs
    · next hr =>
      obtain rfl := Option.some.inj hs
      refine ⟨h.leave, h.file, ?_, hidle⟩
      rintro (⟨-, hp⟩ | ⟨projects, hl, hp⟩)
      · exact not_hasProject_register (hmemory hr) hjoin hp
      · exact hloaded projects hl hp
    · cases hs
  | load =>
    simp only [LeaveWorld.step] at hs
    split at hs
    · obtain rfl := Option.some.inj hs
      refine ⟨h.leave, h.file, ?_, hidle⟩
      rintro (⟨hr, hp⟩ | ⟨projects, hl, hp⟩)
      · exact hmemory hr hp
      · obtain rfl := Option.some.inj hl
        exact h.file hp
    · cases hs
  | takeOver =>
    simp only [LeaveWorld.step] at hs
    split at hs
    · cases hs
    · next projects hl =>
      have hprojects := hloaded projects hl
      split at hs
      · next hr =>
        obtain rfl := Option.some.inj hs
        refine ⟨h.leave, h.file, ?_, hidle⟩
        rintro (⟨-, hp⟩ | ⟨projects, hl, -⟩)
        · exact hprojects hp
        · cases hl
      · obtain rfl := Option.some.inj hs
        refine ⟨h.leave, hprojects, ?_, fun _ => not_inProgress_stopped w.daemon⟩
        rintro (⟨-, hp⟩ | ⟨projects, hl, -⟩)
        · exact hprojects hp
        · cases hl
  | stop =>
    simp only [LeaveWorld.step] at hs
    split at hs
    · obtain rfl := Option.some.inj hs
      refine ⟨h.leave, h.file, ?_, fun hr => by cases hr⟩
      rintro (⟨hr, -⟩ | ⟨projects, hl, -⟩)
      · cases hr
      · cases hl
    · cases hs
  | readCatalog =>
    simp only [LeaveWorld.step, h.leave] at hs
    cases hs
  | leave =>
    simp only [LeaveWorld.step, h.leave] at hs
    cases hs

omit [DecidableEq Oid] [DecidableEq Task] in
/-- The daemon works with the records that are in use, and with those of its catalog. -/
theorem worksIn_cases {d : DaemonWorld Oid Task} {e : DaemonEvent Oid Task}
    {p : LocalProject Oid} (h : worksIn d e = some p) :
    d.Uses p ∨ p ∈ d.publish.catalog.projects := by
  unfold worksIn at h
  split at h
  · split at h
    · split at h
      · cases h
      · exact Or.inr (findProject_mem h)
    · cases h
  · next task _ _ => exact Or.inl (Or.inl (Or.inl ⟨task, h⟩))
  · exact Or.inl (Or.inl (Or.inr h))
  · next task => exact Or.inl (Or.inr ⟨task, h⟩)
  · next task _ _ => exact Or.inl (Or.inr ⟨task, h⟩)
  · split at h
    · exact Or.inr (findProject_mem h)
    · cases h
  · cases h

theorem leftForGood_of_away (h : w.Away id) : LeftForGood G id w := by
  intro es u hjoins hrun
  have hok : Runs.Steps (step G id) (fun _ e => ¬ Joins id e) w es :=
    Runs.Steps.of_forall (fun e he _ => hjoins e he) w
  have haway : u.Away id := Runs.run_invariant (fun _ _ _ h hj hs => h.step hj hs) h hok hrun
  obtain ⟨hremembers, hidle⟩ := haway.forgotten
  refine ⟨haway.file, fun e d p hr _ hw hid => ?_⟩
  rcases worksIn_cases hw with hp | hp
  · exact hidle hr ⟨p, hp, hid⟩
  · exact hremembers (Or.inl ⟨hr, p, hp, hid⟩)

/-- A catalog that has the project is written back, or is taken over first. -/
theorem not_leftForGood_of_remembers (h : w.Remembers id) : ¬ LeftForGood G id w := by
  intro hleft
  have hback : ∀ u : LeaveWorld Oid Task, u.running = true →
      hasProject id u.daemon.publish.catalog.projects → ∀ es, (∀ e ∈ es, ¬ Joins id e) →
      Runs.run (step G id) w es = some u → False := by
    intro u hr hp es hes hrun
    have hpersist : Runs.run (step G id) w (es ++ [.persist]) =
        some { u with file := u.daemon.publish.catalog.projects } := by
      rw [Runs.run_append_eq_some]
      refine ⟨u, hrun, ?_⟩
      simp only [Runs.run, step, hr, if_true, Option.bind_some]
    refine (hleft _ _ (fun e he => ?_) hpersist).1 hp
    rcases List.mem_append.mp he with he | he
    · exact hes e he
    · obtain rfl := List.mem_singleton.mp he
      exact fun h => h
  rcases h with ⟨hr, hp⟩ | ⟨projects, hl, hp⟩
  · exact hback w hr hp [] (fun e he => by cases he) rfl
  · cases hr : w.running with
    | true =>
      refine hback { w.withCatalog { w.daemon.publish.catalog with projects := projects } with
        loaded := none } hr hp [.takeOver] (fun e he => ?_) ?_
      · obtain rfl := List.mem_singleton.mp he
        exact fun h => h
      · simp only [Runs.run, step, hl, hr, if_true, Option.bind_some]
    | false =>
      refine hback { { w with daemon := stopped w.daemon }.withCatalog
        { w.daemon.publish.catalog with projects := projects } with
        running := true, file := projects, loaded := none } rfl hp [.takeOver] (fun e he => ?_) ?_
      · obtain rfl := List.mem_singleton.mp he
        exact fun h => h
      · simp only [Runs.run, step, hl, hr, Bool.false_eq_true, if_false, Option.bind_some]

/-- A preparation whose rebase fails comes to an end. -/
theorem prepare_failed {d : DaemonWorld Oid Task} {task : Option Task} {caller : Caller}
    {name : String} {project : LocalProject Oid} {branch : Branch}
    (hplace : d.reconciling task = .located caller name project branch) :
    ∃ d', d.prepare G task false .failed = some d' := by
  simp only [DaemonWorld.prepare, hplace]
  split
  · exact ⟨_, rfl⟩
  · exact ⟨_, rfl⟩
  · next hprepared =>
    exfalso
    unfold prepareProjectReconciliation at hprepared
    obtain ⟨actual, -, hprepared⟩ := Option.bind_eq_some_iff.mp hprepared
    dsimp only at hprepared
    split at hprepared
    · cases hprepared
    · obtain ⟨head, -, hprepared⟩ := Option.bind_eq_some_iff.mp hprepared
      split at hprepared
      · cases hprepared
      · split at hprepared
        · cases hprepared
        · obtain ⟨answer, hanswer, hprepared⟩ := Option.bind_eq_some_iff.mp hprepared
          simp only [Rebase.answers, Rebase.answer] at hanswer
          split at hanswer
          · obtain rfl := Option.some.inj hanswer
            obtain ⟨staged, -, hprepared⟩ := Option.bind_eq_some_iff.mp hprepared
            cases hprepared
          · cases hanswer

/-- An operation that has a copy of the record goes on to work in the checkout. -/
theorem not_leftForGood_of_inProgress (hr : w.running = true) (h : InProgress id w.daemon) :
    ¬ LeftForGood G id w := by
  intro hleft
  have hnow : ∀ e d p, w.daemon.step G e = some d → worksIn w.daemon e = some p →
      p.projectId ≠ id :=
    fun e d p hd hp => (hleft [] w (fun e he => by cases he) rfl).2 e d p hr hd hp
  obtain ⟨p, hp, hid⟩ := h
  rcases hp with (⟨task, hp⟩ | hp) | ⟨task, hp⟩
  · cases hcall : w.daemon.publish.calls task with
    | cloned name project b c next =>
      rw [hcall] at hp
      obtain ⟨fresh, hfresh⟩ := Infinite.exists_notMem_finset w.daemon.publish.issued.toFinset
      have hissued : fresh ∉ w.daemon.publish.issued := fun h => hfresh (List.mem_toFinset.mpr h)
      have hstep : ∃ d, w.daemon.step G (.publish (.call task (.create fresh 0))) = some d := by
        simp only [DaemonWorld.step, DaemonWorld.publishes, PublishWorld.step, PublishWorld.call,
          hcall, if_neg hissued]
        split
        · exact ⟨_, rfl⟩
        · exact ⟨_, rfl⟩
      obtain ⟨d, hd⟩ := hstep
      refine hnow _ d p hd ?_ hid
      simp only [worksIn, hcall]
      exact hp
    | _ =>
      rw [hcall] at hp
      cases hp
  · -- every step of a delivery can fail
    obtain ⟨a, ha⟩ := fallible_of_record hp
    have hstep : w.daemon.step G (.publish (.deliver (.fail ""))) =
        some (w.daemon.setPublish (w.daemon.publish.setDelivery (.failing a ""))) := by
      simp only [DaemonWorld.step, DaemonWorld.publishes, PublishWorld.step, PublishWorld.deliver,
        ha, Option.map_some]
    exact hnow _ _ p hstep hp hid
  · cases hplace : w.daemon.reconciling task with
    | staged caller name project =>
      rw [hplace] at hp
      have hstep : ∃ d, w.daemon.step G (.reconcile task .locate) = some d := by
        simp only [DaemonWorld.step, DaemonWorld.reconcile, hplace]
        split
        · exact ⟨_, rfl⟩
        · exact ⟨_, rfl⟩
      obtain ⟨d, hd⟩ := hstep
      refine hnow _ d p hd ?_ hid
      simp only [worksIn, hplace]
      exact hp
    | located caller name project branch =>
      rw [hplace] at hp
      obtain ⟨d, hd⟩ := prepare_failed (G := G) hplace
      refine hnow (.reconcile task (.prepare false .failed)) d p hd ?_ hid
      simp only [worksIn, hplace]
      exact hp
    | _ =>
      rw [hplace] at hp
      cases hp

theorem forgotten_iff_of_leave (hs : w.step G id .leave = some w') :
    w'.Forgotten id ↔ w.Forgotten id := by
  simp only [LeaveWorld.step] at hs
  split at hs
  · split at hs
    · obtain rfl := Option.some.inj hs
      exact Iff.rfl
    · obtain rfl := Option.some.inj hs
      exact Iff.rfl
  · cases hs

/-- A project has left for good exactly when nothing of the daemon holds it at the
time of the command's write. -/
theorem left_for_good_iff (G : CommitGraph Oid) (id : String) (w w' : LeaveWorld Oid Task)
    (hs : w.step G id .leave = some w') (hleft : w'.leave = .left) :
    LeftForGood G id w' ↔ w.Forgotten id := by
  rw [← forgotten_iff_of_leave hs]
  constructor
  · intro h
    refine ⟨fun hremembers => not_leftForGood_of_remembers hremembers h, fun hr hin => ?_⟩
    exact not_leftForGood_of_inProgress hr hin h
  · intro hforgotten
    refine leftForGood_of_away ⟨hleft, ?_, hforgotten⟩
    simp only [LeaveWorld.step] at hs
    split at hs
    · split at hs
      · obtain rfl := Option.some.inj hs
        rintro ⟨p, hp, hid⟩
        have hne := (List.mem_filter.mp hp).2
        rw [hid, bne_self_eq_false] at hne
        cases hne
      · obtain rfl := Option.some.inj hs
        cases hleft
    · cases hs

section Main

/-- The catalog with `prj`, and a daemon that has it too if it runs. -/
def catalogMain (running : Bool) : LeaveWorld ℕ (Fin 2) :=
  ⟨[currentProject], running, .initial currentMain, none, .idle⟩

theorem left_for_good_stopped : ∃ w w',
    (catalogMain false).step pairGraph "prj" .readCatalog = some w ∧
    w.step pairGraph "prj" .leave = some w' ∧ w'.leave = .left ∧
    LeftForGood pairGraph "prj" w' := by
  have hleave : ({ catalogMain false with leave := .read [currentProject] } :
      LeaveWorld ℕ (Fin 2)).step pairGraph "prj" .leave =
        some { catalogMain false with file := [], leave := .left } := rfl
  refine ⟨_, _, rfl, hleave, rfl,
    (left_for_good_iff pairGraph "prj" _ _ hleave rfl).mpr ⟨?_, ?_⟩⟩
  · rintro (⟨hr, -⟩ | ⟨projects, hl, -⟩)
    · cases hr
    · cases hl
  · intro hr
    cases hr

/-- Under a running daemon the project is back with the next write of the catalog, and
the daemon goes on to fetch into its checkout. -/
theorem left_project_comes_back : ∃ w u task v p,
    Runs.run (step pairGraph "prj") (catalogMain true) [.readCatalog, .leave] = some w ∧
    w.leave = .left ∧ w.file.length = 0 ∧
    w.step pairGraph "prj" .persist = some u ∧ hasProject "prj" u.file ∧
    w.step pairGraph "prj" (.daemon (.publish (.call task (.refreshBranch "prj")))) = some v ∧
    worksIn v.daemon (.publish (.call task (.refreshHead (.online 0 (some 1))))) = some p ∧
    p.projectId = "prj" ∧ ¬ LeftForGood pairGraph "prj" w := by
  refine ⟨_, _, 0, _, _, rfl, rfl, rfl, rfl, ⟨currentProject, List.mem_cons_self, rfl⟩, rfl, rfl,
    rfl, ?_⟩
  exact not_leftForGood_of_remembers (Or.inl ⟨rfl, currentProject, List.mem_cons_self, rfl⟩)

end Main

end LeaveWorld

end Resync
