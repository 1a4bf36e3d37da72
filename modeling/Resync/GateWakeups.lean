import Mathlib.Data.List.Perm.Basic
import Resync.GateRuns

/-! The waiting loops of `begin_exclusive` and `activity` with the gate's
`Notify` (`daemon.rs`). A future of `notified` that was created before a
`notify_waiters` is completed by it, so no wake-up falls between the check of a
task and its `await`. -/
namespace Resync

/-- What a task asks the gate for. -/
inductive Wanted where
  | exclusive (ticket : UInt64)
  | lease (metadata : LeaseMetadata)

/-- Where a task stands in one of the loops; a timer's task only releases. -/
inductive WaitPlace where
  | outside
  /-- At the head of the loop, before `changed.notified()`. -/
  | looping (wanted : Wanted)
  /-- The future is created, and the check under the lock is next. -/
  | armed (wanted : Wanted)
  /-- At `notified.await`. -/
  | parked (wanted : Wanted)
  | owner
  /-- The state is changed and unlocked, and `notify_waiters` is next. -/
  | notifying

/-- `notified` tells of each task whether its present future is completed. -/
structure NotifiedGate (Task : Type) where
  state : GateState
  place : Task → WaitPlace
  notified : Task → Bool

inductive WaitEvent (Task : Type) where
  | draw (task : Task)
  | request (task : Task) (metadata : LeaseMetadata)
  | arm (task : Task)
  /-- The critical section of the loop; `fresh` is the random lease ID. -/
  | check (task : Task) (fresh : String)
  | resume (task : Task)
  | finish (task : Task)
  /-- The critical section of `release`, for a client or for a timer. -/
  | release (task : Task) (id : String)
  | notify (task : Task)

/-- The admission condition. -/
def Wanted.Admissible (s : GateState) : Wanted → Prop
  | .exclusive ticket => ∃ s', s.admitExclusive ticket = some s'
  | .lease metadata => ∃ fresh r, s.activity metadata fresh = some r

/-- The ticket with which a task is in the queue. -/
def WaitPlace.ticket : WaitPlace → Option UInt64
  | .looping (.exclusive ticket) | .armed (.exclusive ticket) | .parked (.exclusive ticket) =>
    some ticket
  | _ => none

/-- The task holds a future of `notified`. -/
def WaitPlace.HasFuture : WaitPlace → Prop
  | .armed _ | .parked _ => True
  | _ => False

/-- What `GateRuns` keeps of a place. -/
def WaitPlace.toPlace (p : WaitPlace) : Place :=
  match p with
  | .owner => .owner
  | p => match p.ticket with
    | some ticket => .waiting ticket
    | none => .outside

namespace Wanted

variable {s s' : GateState} {w : Wanted}

theorem admissible_exclusive {ticket : UInt64} : (exclusive ticket).Admissible s ↔
    s.exclusive = false ∧ s.leases = ∅ ∧ s.exclusiveQueue.head? = some ticket := by
  constructor
  · rintro ⟨s', hs⟩
    obtain ⟨hfree, hempty, hfront, -⟩ := GateState.admitExclusive_eq_some hs
    exact ⟨hfree, hempty, hfront⟩
  · rintro ⟨hfree, hempty, hfront⟩
    refine ⟨_, if_pos ⟨hfree, ?_, hfront⟩⟩
    rw [hempty]
    rfl

theorem admissible_lease {metadata : LeaseMetadata} :
    (lease metadata).Admissible s ↔ s.exclusive = false := by
  constructor
  · rintro ⟨fresh, r, hs⟩
    exact (GateState.activity_eq_some hs).1
  · intro hfree
    have hsome : (s.activity metadata "").isSome := GateState.activity_isSome.mpr hfree
    obtain ⟨r, hr⟩ := Option.isSome_iff_exists.mp hsome
    exact ⟨"", r, hr⟩

theorem Admissible.free (h : w.Admissible s) : s.exclusive = false := by
  cases w with
  | exclusive ticket => exact (admissible_exclusive.mp h).1
  | lease metadata => exact admissible_lease.mp h

/-- An admitted activity makes nobody admissible. -/
theorem Admissible.of_activity {metadata : LeaseMetadata} {fresh id : String}
    (hs : s.activity metadata fresh = some (id, s')) (h : w.Admissible s') : w.Admissible s := by
  obtain ⟨hfree, -, -, -, hlive, -⟩ := GateState.activity_eq_some hs
  cases w with
  | exclusive ticket =>
    have hempty := (admissible_exclusive.mp h).2.1
    rw [hempty] at hlive
    exact absurd hlive (AList.notMem_empty id)
  | lease metadata' => exact admissible_lease.mpr hfree

/-- A drawn ticket makes nobody admissible who is in the queue. -/
theorem Admissible.of_drawTicket (h : w.Admissible s.drawTicket)
    (hqueued : ∀ ticket, w = .exclusive ticket → ticket ∈ s.exclusiveQueue) : w.Admissible s := by
  cases w with
  | exclusive ticket =>
    obtain ⟨hfree, hempty, hfront⟩ := admissible_exclusive.mp h
    refine admissible_exclusive.mpr ⟨hfree, hempty, ?_⟩
    have hmem := hqueued ticket rfl
    cases hq : s.exclusiveQueue with
    | nil =>
      rw [hq] at hmem
      cases hmem
    | cons first rest =>
      rw [GateState.drawTicket, hq] at hfront
      exact hfront
  | lease metadata => exact admissible_lease.mpr h.free

end Wanted

namespace NotifiedGate

variable {Task : Type}

def initial : NotifiedGate Task := ⟨.initial, fun _ => .outside, fun _ => false⟩

def toGate (g : NotifiedGate Task) : Gate Task := ⟨g.state, fun task => (g.place task).toPlace⟩

section Step

variable [DecidableEq Task]

def goto (g : NotifiedGate Task) (task : Task) (p : WaitPlace) : NotifiedGate Task :=
  { g with place := Function.update g.place task p }

def step (g : NotifiedGate Task) : WaitEvent Task → Option (NotifiedGate Task)
  | .draw task =>
    match g.place task with
    | .outside => some ({ g with state := g.state.drawTicket }.goto task
        (.looping (.exclusive g.state.nextExclusive)))
    | _ => none
  | .request task metadata =>
    match g.place task with
    | .outside => some (g.goto task (.looping (.lease metadata)))
    | _ => none
  | .arm task =>
    match g.place task with
    | .looping wanted => some { g.goto task (.armed wanted) with
        notified := Function.update g.notified task false }
    | _ => none
  | .check task fresh =>
    match g.place task with
    | .armed (.exclusive ticket) =>
      match g.state.admitExclusive ticket with
      | some s => some ({ g with state := s }.goto task .owner)
      | none => some (g.goto task (.parked (.exclusive ticket)))
    | .armed (.lease metadata) =>
      match g.state.activity metadata fresh with
      | some r => some ({ g with state := r.2 }.goto task .outside)
      | none => some (g.goto task (.parked (.lease metadata)))
    | _ => none
  | .resume task =>
    match g.place task with
    | .parked wanted => if g.notified task then some (g.goto task (.looping wanted)) else none
    | _ => none
  | .finish task =>
    match g.place task with
    | .owner => some ({ g with state := g.state.endExclusive }.goto task .notifying)
    | _ => none
  | .release task id =>
    match g.place task with
    | .outside =>
      let r := g.state.release id
      some ({ g with state := r.2 }.goto task (if r.1 then .notifying else .outside))
    | _ => none
  | .notify task =>
    match g.place task with
    | .notifying => some { g.goto task .outside with notified := fun _ => true }
    | _ => none

/-- What a step can do, with its guards. -/
inductive Takes (g : NotifiedGate Task) : WaitEvent Task → NotifiedGate Task → Prop
  | draws {task : Task} (place : g.place task = .outside) :
      Takes g (.draw task) ({ g with state := g.state.drawTicket }.goto task
        (.looping (.exclusive g.state.nextExclusive)))
  | requests {task : Task} {metadata : LeaseMetadata} (place : g.place task = .outside) :
      Takes g (.request task metadata) (g.goto task (.looping (.lease metadata)))
  | arms {task : Task} {wanted : Wanted} (place : g.place task = .looping wanted) :
      Takes g (.arm task) { g.goto task (.armed wanted) with
        notified := Function.update g.notified task false }
  | enters {task : Task} {fresh : String} {ticket : UInt64} {s : GateState}
      (place : g.place task = .armed (.exclusive ticket))
      (admitted : g.state.admitExclusive ticket = some s) :
      Takes g (.check task fresh) ({ g with state := s }.goto task .owner)
  | parks {task : Task} {fresh : String} {ticket : UInt64}
      (place : g.place task = .armed (.exclusive ticket))
      (refused : g.state.admitExclusive ticket = none) :
      Takes g (.check task fresh) (g.goto task (.parked (.exclusive ticket)))
  | leases {task : Task} {fresh : String} {metadata : LeaseMetadata} {r : String × GateState}
      (place : g.place task = .armed (.lease metadata))
      (admitted : g.state.activity metadata fresh = some r) :
      Takes g (.check task fresh) ({ g with state := r.2 }.goto task .outside)
  | parksLease {task : Task} {fresh : String} {metadata : LeaseMetadata}
      (place : g.place task = .armed (.lease metadata))
      (refused : g.state.activity metadata fresh = none) :
      Takes g (.check task fresh) (g.goto task (.parked (.lease metadata)))
  | resumes {task : Task} {wanted : Wanted} (place : g.place task = .parked wanted)
      (notified : g.notified task = true) :
      Takes g (.resume task) (g.goto task (.looping wanted))
  | finishes {task : Task} (place : g.place task = .owner) :
      Takes g (.finish task) ({ g with state := g.state.endExclusive }.goto task .notifying)
  | releases {task : Task} {id : String} (place : g.place task = .outside) :
      Takes g (.release task id) ({ g with state := (g.state.release id).2 }.goto task
        (if (g.state.release id).1 then .notifying else .outside))
  | notifies {task : Task} (place : g.place task = .notifying) :
      Takes g (.notify task) { g.goto task .outside with notified := fun _ => true }

theorem takes_of_step {g g' : NotifiedGate Task} {e : WaitEvent Task} (h : g.step e = some g') :
    g.Takes e g' := by
  cases e with
  | draw task =>
    simp only [step] at h
    split at h
    · next hplace => exact Option.some.inj h ▸ .draws hplace
    · cases h
  | request task metadata =>
    simp only [step] at h
    split at h
    · next hplace => exact Option.some.inj h ▸ .requests hplace
    · cases h
  | arm task =>
    simp only [step] at h
    split at h
    · next hplace => exact Option.some.inj h ▸ .arms hplace
    · cases h
  | check task fresh =>
    simp only [step] at h
    split at h
    · next hplace =>
      split at h
      · next hadmitted => exact Option.some.inj h ▸ .enters hplace hadmitted
      · next hrefused => exact Option.some.inj h ▸ .parks hplace hrefused
    · next hplace =>
      split at h
      · next hadmitted => exact Option.some.inj h ▸ .leases hplace hadmitted
      · next hrefused => exact Option.some.inj h ▸ .parksLease hplace hrefused
    · cases h
  | resume task =>
    simp only [step] at h
    split at h
    · next hplace =>
      split at h
      · next hnotified => exact Option.some.inj h ▸ .resumes hplace hnotified
      · cases h
    · cases h
  | finish task =>
    simp only [step] at h
    split at h
    · next hplace => exact Option.some.inj h ▸ .finishes hplace
    · cases h
  | release task id =>
    simp only [step] at h
    split at h
    · next hplace => exact Option.some.inj h ▸ .releases hplace
    · cases h
  | notify task =>
    simp only [step] at h
    split at h
    · next hplace => exact Option.some.inj h ▸ .notifies hplace
    · cases h

end Step

def ticketOf (g : NotifiedGate Task) (task : Task) : Option UInt64 := (g.place task).ticket

/-- The waiting tickets are those of the queue, each as often. -/
def Paired (g : NotifiedGate Task) : Prop :=
  ∃ ws : List Task, ws.Nodup ∧ (∀ task, task ∈ ws ↔ g.ticketOf task ≠ none) ∧
    g.state.exclusiveQueue.Perm (ws.filterMap g.ticketOf)

/-- A task that is parked and could be admitted is notified, or about to be. -/
def NoLostWakeup (g : NotifiedGate Task) : Prop :=
  ∀ task wanted, g.place task = .parked wanted → wanted.Admissible g.state →
    g.notified task = true ∨ ∃ other, other ≠ task ∧ g.place other = .notifying

variable {g g' : NotifiedGate Task}

/-- A step that completes no future and makes no parked task admissible. -/
theorem NoLostWakeup.of_quiet (h : NoLostWakeup g)
    (hparked : ∀ task wanted, g'.place task = .parked wanted → wanted.Admissible g'.state →
      g.place task = .parked wanted ∧ wanted.Admissible g.state ∧
        g'.notified task = g.notified task)
    (hnotifying : ∀ task, g.place task = .notifying → g'.place task = .notifying) :
    NoLostWakeup g' := by
  intro task wanted hp ha
  obtain ⟨hp', ha', hsame⟩ := hparked task wanted hp ha
  rcases h task wanted hp' ha' with hnotified | ⟨other, hne, hother⟩
  · exact Or.inl (hsame.trans hnotified)
  · exact Or.inr ⟨other, hne, hnotifying other hother⟩

/-- A task that is about to notify is enough for all the others. -/
theorem noLostWakeup_of_notifying {task : Task} (h : g.place task = .notifying) :
    NoLostWakeup g := by
  intro t wanted hp _
  refine Or.inr ⟨task, ?_, h⟩
  rintro rfl
  rw [h] at hp
  cases hp

theorem Paired.mem_queue (h : Paired g) {task : Task} {ticket : UInt64}
    (ht : g.ticketOf task = some ticket) : ticket ∈ g.state.exclusiveQueue := by
  obtain ⟨ws, -, hws, hperm⟩ := h
  have hmem : task ∈ ws := (hws task).mpr (by rw [ht]; exact Option.some_ne_none ticket)
  exact hperm.mem_iff.mpr (List.mem_filterMap.mpr ⟨task, hmem, ht⟩)

variable [DecidableEq Task]

@[simp] theorem place_goto (g : NotifiedGate Task) (task : Task) (p : WaitPlace) :
    (g.goto task p).place task = p := Function.update_self ..

theorem place_goto_of_ne (g : NotifiedGate Task) {task t : Task} (p : WaitPlace) (h : t ≠ task) :
    (g.goto task p).place t = g.place t := Function.update_of_ne h ..

/-- A task moves between places where it is neither parked nor about to notify. -/
theorem NoLostWakeup.goto {s : GateState} (h : NoLostWakeup g) {task : Task} {p : WaitPlace}
    (hfrom : g.place task ≠ .notifying)
    (hparked : ∀ wanted, p = .parked wanted → ¬ wanted.Admissible s)
    (hstate : ∀ t wanted, t ≠ task → g.place t = .parked wanted → wanted.Admissible s →
      wanted.Admissible g.state) :
    NoLostWakeup ({ g with state := s }.goto task p) := by
  apply h.of_quiet
  · intro t wanted hp ha
    by_cases ht : t = task
    · subst ht
      rw [place_goto] at hp
      exact absurd ha (hparked wanted hp)
    · rw [place_goto_of_ne _ _ ht] at hp
      exact ⟨hp, hstate t wanted ht hp ha, rfl⟩
  · intro t ht
    by_cases hne : t = task
    · subst hne
      exact absurd ht hfrom
    · rw [place_goto_of_ne _ _ hne]
      exact ht

theorem noLostWakeup_step (h : NoLostWakeup g) (hpaired : Paired g) {e : WaitEvent Task}
    (hs : g.step e = some g') : NoLostWakeup g' := by
  cases takes_of_step hs with
  | draws place =>
    apply h.goto
    · rw [place]
      exact WaitPlace.noConfusion
    · intro wanted hp
      cases hp
    · intro t wanted _ hp ha
      apply ha.of_drawTicket
      rintro ticket rfl
      apply hpaired.mem_queue
      rw [ticketOf, hp]
      rfl
  | requests place | resumes place =>
    apply h.goto
    · rw [place]
      exact WaitPlace.noConfusion
    · intro wanted hp
      cases hp
    · exact fun _ _ _ _ ha => ha
  | @arms task wanted place =>
    apply h.of_quiet
    · intro t wanted' hp ha
      by_cases ht : t = task
      · subst ht
        rw [place_goto] at hp
        cases hp
      · rw [place_goto_of_ne _ _ ht] at hp
        exact ⟨hp, ha, Function.update_of_ne ht ..⟩
    · intro t ht
      by_cases hne : t = task
      · subst hne
        rw [place] at ht
        cases ht
      · exact (place_goto_of_ne g _ hne).trans ht
  | enters place admitted =>
    apply h.goto
    · rw [place]
      exact WaitPlace.noConfusion
    · intro wanted hp
      cases hp
    · -- The gate is taken, so nobody is admissible.
      intro t wanted _ _ ha
      obtain ⟨-, -, -, rfl⟩ := GateState.admitExclusive_eq_some admitted
      cases ha.free
  | parks place refused =>
    apply h.goto
    · rw [place]
      exact WaitPlace.noConfusion
    · intro wanted hp
      obtain rfl := WaitPlace.parked.inj hp
      rintro ⟨s, hs⟩
      rw [refused] at hs
      cases hs
    · exact fun _ _ _ _ ha => ha
  | leases place admitted =>
    apply h.goto
    · rw [place]
      exact WaitPlace.noConfusion
    · intro wanted hp
      cases hp
    · exact fun _ _ _ _ ha => ha.of_activity admitted
  | @parksLease task fresh metadata place refused =>
    apply h.goto
    · rw [place]
      exact WaitPlace.noConfusion
    · intro wanted hp
      obtain rfl := WaitPlace.parked.inj hp
      -- The check does not depend on the lease ID that it would draw.
      intro ha
      have hsome : (g.state.activity metadata fresh).isSome :=
        GateState.activity_isSome.mpr (Wanted.admissible_lease.mp ha)
      rw [refused] at hsome
      cases hsome
    · exact fun _ _ _ _ ha => ha
  | finishes => exact noLostWakeup_of_notifying (place_goto ..)
  | @releases task id place =>
    cases hremoved : (g.state.release id).1 with
    | true =>
      rw [if_pos rfl]
      exact noLostWakeup_of_notifying (place_goto ..)
    | false =>
      -- Nothing was removed, so nothing has changed.
      rw [if_neg Bool.false_ne_true, GateState.release_eq_self hremoved]
      apply h.goto
      · rw [place]
        exact WaitPlace.noConfusion
      · intro wanted hp
        cases hp
      · exact fun _ _ _ _ ha => ha
  | notifies => exact fun _ _ _ _ => Or.inl rfl

@[simp] theorem ticketOf_goto (g : NotifiedGate Task) (task : Task) (p : WaitPlace) :
    (g.goto task p).ticketOf task = p.ticket := by rw [ticketOf, place_goto]

theorem ticketOf_goto_of_ne (g : NotifiedGate Task) {task t : Task} (p : WaitPlace)
    (h : t ≠ task) : (g.goto task p).ticketOf t = g.ticketOf t := by
  rw [ticketOf, place_goto_of_ne _ _ h, ticketOf]

omit [DecidableEq Task] in
theorem Paired.congr (h : Paired g)
    (hqueue : g'.state.exclusiveQueue = g.state.exclusiveQueue)
    (hticket : g'.ticketOf = g.ticketOf) : Paired g' := by
  obtain ⟨ws, hnodup, hws, hperm⟩ := h
  rw [Paired, hqueue, hticket]
  exact ⟨ws, hnodup, hws, hperm⟩

/-- A task moves between places with one ticket, or with none. -/
theorem Paired.goto {s : GateState} (h : Paired g) {task : Task} {p : WaitPlace}
    (hqueue : s.exclusiveQueue = g.state.exclusiveQueue) (hticket : p.ticket = g.ticketOf task) :
    Paired ({ g with state := s }.goto task p) := by
  apply h.congr hqueue
  funext t
  by_cases ht : t = task
  · subst ht
    rw [ticketOf_goto]
    exact hticket
  · rw [ticketOf_goto_of_ne _ _ ht]
    rfl

/-- A task that is not among `ws` moves. -/
theorem filterMap_goto {s : GateState} {task : Task} {ws : List Task} (h : task ∉ ws)
    (p : WaitPlace) : ws.filterMap ({ g with state := s }.goto task p).ticketOf =
      ws.filterMap g.ticketOf := by
  apply List.filterMap_congr
  intro t ht
  have hne : t ≠ task := by
    rintro rfl
    exact h ht
  rw [ticketOf_goto_of_ne _ _ hne]
  rfl

theorem Paired.draw (h : Paired g) {task : Task} (hplace : g.place task = .outside) :
    Paired ({ g with state := g.state.drawTicket }.goto task
      (.looping (.exclusive g.state.nextExclusive))) := by
  obtain ⟨ws, hnodup, hws, hperm⟩ := h
  have hnew : task ∉ ws := by
    intro hmem
    have hticket := (hws task).mp hmem
    rw [ticketOf, hplace] at hticket
    exact hticket rfl
  refine ⟨task :: ws, List.nodup_cons.mpr ⟨hnew, hnodup⟩, fun t => ?_, ?_⟩
  · by_cases ht : t = task
    · subst ht
      rw [ticketOf_goto]
      exact ⟨fun _ => Option.some_ne_none _, fun _ => List.mem_cons_self⟩
    · rw [ticketOf_goto_of_ne _ _ ht, List.mem_cons]
      exact ⟨fun hmem => (hws t).mp (hmem.resolve_left ht), fun hmem => Or.inr ((hws t).mpr hmem)⟩
  · rw [List.filterMap_cons_some (ticketOf_goto ..), filterMap_goto hnew]
    exact (List.perm_append_singleton _ _).trans (hperm.cons _)

/-- The front ticket leaves the queue with the task that is admitted with it. -/
theorem Paired.grant (h : Paired g) {task : Task} {ticket : UInt64}
    (hplace : g.ticketOf task = some ticket) {s : GateState}
    (hqueue : g.state.exclusiveQueue = ticket :: s.exclusiveQueue) :
    Paired ({ g with state := s }.goto task .owner) := by
  obtain ⟨ws, hnodup, hws, hperm⟩ := h
  have hmem : task ∈ ws := (hws task).mpr (by rw [hplace]; exact Option.some_ne_none ticket)
  have hgone : task ∉ ws.erase task := hnodup.not_mem_erase
  refine ⟨ws.erase task, hnodup.erase task, fun t => ?_, ?_⟩
  · by_cases ht : t = task
    · subst ht
      rw [ticketOf_goto]
      exact ⟨fun he => absurd he hgone, fun hnone => absurd rfl hnone⟩
    · rw [ticketOf_goto_of_ne _ _ ht, List.mem_erase_of_ne ht]
      exact hws t
  · have hsplit : (ws.filterMap g.ticketOf).Perm (ticket :: (ws.erase task).filterMap g.ticketOf) := by
      rw [← List.filterMap_cons_some hplace]
      exact (List.perm_cons_erase hmem).filterMap g.ticketOf
    rw [hqueue] at hperm
    rw [filterMap_goto hgone]
    exact (hperm.trans hsplit).cons_inv

theorem paired_step (h : Paired g) {e : WaitEvent Task} (hs : g.step e = some g') :
    Paired g' := by
  cases takes_of_step hs with
  | draws place => exact h.draw place
  | requests place | finishes place =>
    apply h.goto rfl
    rw [ticketOf, place]
    rfl
  | @arms task wanted place =>
    have harmed : Paired (g.goto task (.armed wanted)) := by
      apply h.goto rfl
      rw [ticketOf, place]
      cases wanted <;> rfl
    exact harmed.congr rfl rfl
  | @enters task fresh ticket s place admitted =>
    have hticket : g.ticketOf task = some ticket := by
      rw [ticketOf, place]
      rfl
    apply h.grant hticket
    obtain ⟨-, -, hfront, rfl⟩ := GateState.admitExclusive_eq_some admitted
    exact List.eq_cons_of_mem_head? hfront
  | parks place | parksLease place =>
    apply h.goto rfl
    rw [ticketOf, place]
    rfl
  | leases place admitted =>
    obtain ⟨-, -, -, hqueue, -⟩ := GateState.activity_eq_some admitted
    apply h.goto hqueue
    rw [ticketOf, place]
    rfl
  | @resumes task wanted place =>
    apply h.goto rfl
    rw [ticketOf, place]
    cases wanted <;> rfl
  | releases place =>
    apply h.goto (GateState.release_exclusiveQueue ..)
    rw [ticketOf, place]
    split <;> rfl
  | @notifies task place =>
    have hgone : Paired (g.goto task .outside) := by
      apply h.goto rfl
      rw [ticketOf, place]
      rfl
    exact hgone.congr rfl rfl

/-- Since the task has created its future, another task has notified. -/
def NotifiedSince (es : List (WaitEvent Task)) (task : Task) : Prop :=
  ∃ before after other, es = before ++ .arm task :: after ∧ .arm task ∉ after ∧
    .notify other ∈ after

/-- Every future is of the last `arm` of its task, and it is completed only if
there was a notification since. -/
def Futures (es : List (WaitEvent Task)) (g : NotifiedGate Task) : Prop :=
  ∀ task, (g.place task).HasFuture → ∃ before after, es = before ++ .arm task :: after ∧
    .arm task ∉ after ∧ (g.notified task = true → ∃ other, .notify other ∈ after)

/-- A step makes a future, or the task had it before. -/
theorem step_future {e : WaitEvent Task} (hs : g.step e = some g') {task : Task}
    (hf : (g'.place task).HasFuture) :
    e = .arm task ∧ g'.notified task = false ∨
      e ≠ .arm task ∧ (g.place task).HasFuture ∧
        (g'.notified task = g.notified task ∨ ∃ other, e = .notify other) := by
  have hgoto : ∀ {u : NotifiedGate Task} {t : Task} {p : WaitPlace}, u.place = g.place →
      ((u.goto t p).place task).HasFuture → (t = task → p.HasFuture → (g.place t).HasFuture) →
      (g.place task).HasFuture := by
    intro u t p hu hf hown
    by_cases ht : task = t
    · subst ht
      rw [place_goto] at hf
      exact hown rfl hf
    · rw [place_goto_of_ne _ _ ht, hu] at hf
      exact hf
  cases takes_of_step hs with
  | @arms t wanted =>
    by_cases ht : task = t
    · subst ht
      exact Or.inl ⟨rfl, Function.update_self ..⟩
    · refine Or.inr ⟨?_, ?_, Or.inl (Function.update_of_ne ht ..)⟩
      · rintro ⟨⟩
        exact ht rfl
      · have hsame : (g.goto t (.armed wanted)).place task = g.place task :=
          place_goto_of_ne g _ ht
        rw [← hsame]
        exact hf
  | draws | requests | resumes | finishes =>
    exact Or.inr ⟨nofun, hgoto rfl hf fun _ h => h.elim, Or.inl rfl⟩
  | enters place | parks place | leases place | parksLease place =>
    refine Or.inr ⟨nofun, hgoto rfl hf fun _ _ => ?_, Or.inl rfl⟩
    rw [place]
    trivial
  | releases =>
    refine Or.inr ⟨nofun, hgoto rfl hf fun _ h => ?_, Or.inl rfl⟩
    split at h <;> exact h.elim
  | notifies =>
    have hown : (g.place task).HasFuture := hgoto (u := g) (p := .outside) rfl hf fun _ h => h.elim
    exact Or.inr ⟨nofun, hown, Or.inr ⟨_, rfl⟩⟩

theorem futures_step {es : List (WaitEvent Task)} (h : Futures es g) {e : WaitEvent Task}
    (hs : g.step e = some g') : Futures (es ++ [e]) g' := by
  intro task hf
  rcases step_future hs hf with ⟨rfl, hfresh⟩ | ⟨hne, hold, hnotified⟩
  · refine ⟨es, [], rfl, List.not_mem_nil, fun hn => ?_⟩
    rw [hfresh] at hn
    cases hn
  · obtain ⟨before, after, rfl, hlast, hsince⟩ := h task hold
    refine ⟨before, after ++ [e], by rw [List.append_assoc, List.cons_append], ?_, fun hn => ?_⟩
    · intro hmem
      rcases List.mem_append.mp hmem with hmem | hmem
      · exact hlast hmem
      · exact hne (List.mem_singleton.mp hmem).symm
    · rcases hnotified with hsame | ⟨other, rfl⟩
      · obtain ⟨other, hother⟩ := hsince (hsame.symm.trans hn)
        exact ⟨other, List.mem_append_left _ hother⟩
      · exact ⟨other, List.mem_append_right _ (List.mem_singleton_self _)⟩

/-- In every reachable state a parked task that could be admitted has been
notified since it created its future, or another task has changed the state and
is about to notify. -/
theorem no_lost_wakeup {es : List (WaitEvent Task)} {g : NotifiedGate Task}
    (hr : Runs.run step initial es = some g) {task : Task} {wanted : Wanted}
    (hp : g.place task = .parked wanted) (ha : wanted.Admissible g.state) :
    NotifiedSince es task ∨ ∃ other, other ≠ task ∧ g.place other = .notifying := by
  have hok : Runs.Steps step (fun _ _ => True) (initial : NotifiedGate Task) es :=
    Runs.Steps.of_forall (fun _ _ _ => trivial) _
  have hstep : ∀ (g : NotifiedGate Task) e g', NoLostWakeup g ∧ Paired g → True →
      step g e = some g' → NoLostWakeup g' ∧ Paired g' :=
    fun _ _ _ h _ hs => ⟨noLostWakeup_step h.1 h.2 hs, paired_step h.2 hs⟩
  have h0 : NoLostWakeup (initial : NotifiedGate Task) ∧ Paired (initial : NotifiedGate Task) := by
    refine ⟨fun task wanted hp => (by cases hp), [], List.nodup_nil, fun task => ?_, List.Perm.nil⟩
    exact ⟨fun hmem => (by cases hmem), fun hnone => absurd rfl hnone⟩
  have hfuture : ∀ es (g : NotifiedGate Task) e g', Futures es g → True → step g e = some g' →
      Futures (es ++ [e]) g' := fun _ _ _ _ h _ hs => futures_step h hs
  have hfutures : Futures es g := Runs.run_history hfuture (fun _ hf => (by cases hf)) hok hr
  rcases (Runs.run_invariant hstep h0 hok hr).1 task wanted hp ha with hnotified | hnotifying
  · have hf : (g.place task).HasFuture := by
      rw [hp]
      trivial
    obtain ⟨before, after, hes, hlast, hsince⟩ := hfutures task hf
    obtain ⟨other, hother⟩ := hsince hnotified
    exact Or.inl ⟨before, after, other, hes, hlast, hother⟩
  · exact Or.inr hnotifying

/-- A task waits for the gate behind a lease, which a third task ends. -/
theorem no_lost_wakeup_two :
    let es : List (WaitEvent ℕ) := [.request 0 ⟨none, none⟩, .arm 0, .check 0 "lease", .draw 1,
      .arm 1, .check 1 "", .release 2 "lease"]
    ∃ g, Runs.run step initial es = some g ∧ g.place 1 = .parked (.exclusive 0) ∧
      (Wanted.exclusive 0).Admissible g.state ∧
      (NotifiedSince es 1 ∨ ∃ other, other ≠ 1 ∧ g.place other = .notifying) := by
  intro es
  have hrun : ∃ g, Runs.run step initial es = some g ∧ g.place 1 = .parked (.exclusive 0) ∧
      (Wanted.exclusive 0).Admissible g.state :=
    ⟨_, rfl, rfl, Wanted.admissible_exclusive.mpr ⟨rfl, rfl, rfl⟩⟩
  obtain ⟨g, hr, hp, ha⟩ := hrun
  exact ⟨g, hr, hp, ha, no_lost_wakeup hr hp ha⟩

theorem toGate_goto (g : NotifiedGate Task) (s : GateState) (task : Task) (p : WaitPlace) :
    ({ g with state := s }.goto task p).toGate =
      ⟨s, Function.update g.toGate.place task p.toPlace⟩ := by
  have hplace : (fun t => (({ g with state := s }.goto task p).place t).toPlace) =
      Function.update g.toGate.place task p.toPlace := by
    funext t
    by_cases ht : t = task
    · subst ht
      rw [place_goto, Function.update_self]
    · rw [place_goto_of_ne _ _ ht, Function.update_of_ne ht]
      rfl
  rw [toGate, hplace]
  rfl

/-- The task stays where `GateRuns` has it. -/
theorem toGate_goto_of_eq (g : NotifiedGate Task) {s : GateState} {task : Task} {p : WaitPlace}
    (h : p.toPlace = (g.place task).toPlace) :
    ({ g with state := s }.goto task p).toGate = ⟨s, g.toGate.place⟩ := by
  have hself : Function.update g.toGate.place task p.toPlace = g.toGate.place := by
    rw [h]
    exact Function.update_eq_self task g.toGate.place
  rw [toGate_goto, hself]

/-- Every step is a critical section of `GateRuns`, or it leaves what that
knows of the gate as it is. -/
theorem step_refines {e : WaitEvent Task} (hs : g.step e = some g') :
    g'.toGate = g.toGate ∨ ∃ e', g.toGate.step e' = some g'.toGate := by
  have hplace_toGate : ∀ {task p}, g.place task = p → g.toGate.place task = p.toPlace := by
    rintro task p rfl
    rfl
  cases takes_of_step hs with
  | @draws task place =>
    refine Or.inr ⟨.draw task, ?_⟩
    rw [toGate_goto, Gate.step, hplace_toGate place]
    rfl
  | requests place | parks place | parksLease place | notifies place =>
    exact Or.inl (toGate_goto_of_eq g (by rw [place]; rfl))
  | @arms task wanted place | @resumes task wanted place =>
    exact Or.inl (toGate_goto_of_eq g (by rw [place]; cases wanted <;> rfl))
  | @enters task fresh ticket s place admitted =>
    refine Or.inr ⟨.enter task, ?_⟩
    rw [toGate_goto, Gate.step, hplace_toGate place]
    exact Option.map_eq_some_iff.mpr ⟨s, admitted, rfl⟩
  | @leases task fresh metadata r place admitted =>
    refine Or.inr ⟨.activity metadata fresh, ?_⟩
    rw [toGate_goto_of_eq g (by rw [place]; rfl)]
    exact Option.map_eq_some_iff.mpr ⟨r, admitted, rfl⟩
  | @finishes task place =>
    refine Or.inr ⟨.finish task, ?_⟩
    rw [toGate_goto, Gate.step, hplace_toGate place]
    rfl
  | @releases task id place =>
    refine Or.inr ⟨.release id, ?_⟩
    rw [toGate_goto_of_eq g (by rw [place]; split <;> rfl)]
    rfl

/-- A run of the loops is a run of their critical sections. -/
theorem run_refines {es : List (WaitEvent Task)} (hr : Runs.run step g es = some g') :
    ∃ es', Runs.run Gate.step g.toGate es' = some g'.toGate := by
  induction es generalizing g with
  | nil =>
    cases hr
    exact ⟨[], rfl⟩
  | cons e es ih =>
    obtain ⟨u, hu, hr⟩ := (Runs.run_cons_eq_some step).mp hr
    obtain ⟨es', hes'⟩ := ih hr
    rcases step_refines hu with hsame | ⟨e', he'⟩
    · exact ⟨es', hsame ▸ hes'⟩
    · exact ⟨e' :: es', (Runs.run_cons_eq_some Gate.step).mpr ⟨_, he', hes'⟩⟩

end NotifiedGate

end Resync
