import Mathlib.Data.List.Nodup
import Resync.QueueDaemon

/-! The ref of a publication is written before the publication is queued, and
deleted after its acknowledgement is on disk. Between the two it stays, whatever
fails. -/
namespace Resync

variable {Oid Task : Type}

/-- The publication that a call of `enqueue_publication` has made and not queued
yet. -/
def EnqueueCall.inFlight : EnqueueCall Oid → Option (Publication Oid)
  | .created _ _ p | .referenced _ p => some p
  | _ => none

namespace QueueDaemon

variable {w w' : QueueDaemon Oid Task}

/-- The publication is in the queue in memory or in its file. -/
def Stored (w : QueueDaemon Oid Task) (q : Publication Oid) : Prop :=
  q ∈ w.store.queue ∨ q ∈ w.store.file

/-- `refs/resync/publications/ID` points to the source commit in the repository
that the publication was queued from. -/
def HasRef (w : QueueDaemon Oid Task) (q : Publication Oid) : Prop :=
  w.store.refs (w.origins q.publicationId) q.publicationId = some q.sourceCommitOid

/-- Every publication has an ID of its own. -/
structure Distinct (w : QueueDaemon Oid Task) : Prop where
  queue : (w.store.queue.map (·.publicationId)).Nodup
  file : (w.store.file.map (·.publicationId)).Nodup
  issued : ∀ q, w.Stored q → q.publicationId ∈ w.store.issued
  flight : ∀ task p, (w.store.calls task).inFlight = some p →
    p.publicationId ∈ w.store.issued ∧ ∀ q, w.Stored q → q.publicationId ≠ p.publicationId
  apart : ∀ task task' p p', (w.store.calls task).inFlight = some p →
    (w.store.calls task').inFlight = some p' → p.publicationId = p'.publicationId → task = task'

/-- The step leaves the queue, its file and the refs. -/
structure SameFiles (w w' : QueueDaemon Oid Task) : Prop where
  queue : w'.store.queue = w.store.queue
  file : w'.store.file = w.store.file
  refs : w'.store.refs = w.store.refs
  issued : w'.store.issued = w.store.issued
  origins : w'.origins = w.origins

/-- A publication with a new ID is made. -/
structure Creates (w w' : QueueDaemon Oid Task) (task : Task) (name : String)
    (project : LocalProject Oid) (p : Publication Oid) : Prop where
  call : ∃ b c, w.store.calls task = .verified name project b c ∧ p.projectId = project.projectId
  call' : w'.store.calls task = .created name project p
  pending : p.pending = true
  fresh : p.publicationId ∉ w.store.issued
  issued : w'.store.issued = p.publicationId :: w.store.issued
  queue : w'.store.queue = w.store.queue
  file : w'.store.file = w.store.file
  refs : w'.store.refs = w.store.refs
  origins : w'.origins = w.origins

/-- Its ref is written. -/
structure References (w w' : QueueDaemon Oid Task) (task : Task) (name : String)
    (project : LocalProject Oid) (p : Publication Oid) : Prop where
  call : w.store.calls task = .created name project p
  call' : w'.store.calls task = .referenced name p
  issued : w'.store.issued = w.store.issued
  queue : w'.store.queue = w.store.queue
  file : w'.store.file = w.store.file
  refs : w'.store.refs = Function.update w.store.refs project.localPath
    (Function.update (w.store.refs project.localPath) p.publicationId (some p.sourceCommitOid))
  origins : w'.origins = Function.update w.origins p.publicationId project.localPath

/-- It is put in the queue, and the file is replaced or not. -/
structure Pushes (w w' : QueueDaemon Oid Task) (task : Task) (name : String)
    (p : Publication Oid) (write : FileWrite) : Prop where
  call : w.store.calls task = .referenced name p
  call' : w'.store.calls task = match write with
    | .written => .queued name p
    | .failed _ => .idle
  issued : w'.store.issued = w.store.issued
  queue : w'.store.queue = w.store.queue ++ [p]
  file : w'.store.file = if write.replaces then w.store.queue ++ [p] else w.store.file
  refs : w'.store.refs = w.store.refs
  origins : w'.origins = w.origins

section Enqueue

variable [DecidableEq Oid] [DecidableEq Task]

/-- What a step of `enqueue_publication` can do. -/
theorem enqueue_cases {task : Task} {e : EnqueueEvent Oid}
    (h : w.step (.enqueue task e) = some w') :
    w'.delivery = w.delivery ∧ (∀ t, t ≠ task → w'.store.calls t = w.store.calls t) ∧
      ((SameFiles w w' ∧ (w'.store.calls task).inFlight = none) ∨
        (∃ name project p, Creates w w' task name project p) ∨
        (∃ name project p, References w w' task name project p) ∨
        ∃ name p write, e = .push write ∧ Pushes w w' task name p write) := by
  obtain ⟨store, hstore, rfl⟩ := Option.map_eq_some_iff.mp h
  refine ⟨rfl, ?_⟩
  -- The call goes on, or ends, without a publication in flight.
  have hquiet : ∀ {c : EnqueueCall Oid} {Q : Prop}, c.inFlight = none →
      store.calls = Function.update w.store.calls task c →
      SameFiles w { w with
        store := store, saved := w.savedAfter task e store, origins := w.originsAfter task e } →
      (∀ t, t ≠ task → store.calls t = w.store.calls t) ∧
        ((SameFiles w { w with
          store := store, saved := w.savedAfter task e store, origins := w.originsAfter task e } ∧
          (store.calls task).inFlight = none) ∨ Q) := by
    intro c Q hc hcalls hsame
    rw [hcalls]
    refine ⟨fun t ht => Function.update_of_ne ht .., Or.inl ⟨hsame, ?_⟩⟩
    rw [Function.update_self]
    exact hc
  cases QueueStore.enqueueStep_of_enqueue hstore with
  | calls | clones | clonesUnknown | verifies | refuses | finds | losesRef | recordsUnknown
  | records | losesRecord => exact hquiet rfl rfl ⟨rfl, rfl, rfl, rfl, rfl⟩
  | @creates name project b c id now place none fresh =>
    refine ⟨fun t ht => Function.update_of_ne ht .., Or.inr (Or.inl ⟨name, project,
      .new id now project.projectId project.checkoutId b c (project.advertisedHeads b), ?_⟩)⟩
    exact ⟨⟨b, c, place, rfl⟩, Function.update_self .., rfl, fresh, rfl, rfl, rfl, rfl, rfl⟩
  | @references name project p place =>
    refine ⟨fun t ht => Function.update_of_ne ht ..,
      Or.inr (Or.inr (Or.inl ⟨name, project, p, ?_⟩))⟩
    refine ⟨place, Function.update_self .., rfl, rfl, rfl, rfl, ?_⟩
    simp only [originsAfter, place]
  | @queues name p write place =>
    refine ⟨fun t ht => Function.update_of_ne ht ..,
      Or.inr (Or.inr (Or.inr ⟨name, p, write, rfl, ?_⟩))⟩
    exact ⟨place, Function.update_self .., rfl, rfl, rfl, rfl, rfl⟩

end Enqueue

/-- The IDs are still distinct if the queue has lost some of its publications. -/
theorem Distinct.setQueue (h : Distinct w) {queue : List (Publication Oid)} {write : FileWrite}
    (hids : (queue.map (·.publicationId)).Sublist (w.store.queue.map (·.publicationId))) :
    Distinct (w.setQueue queue write) := by
  have hstored : ∀ q, (w.setQueue queue write).Stored q →
      ∃ r, w.Stored r ∧ r.publicationId = q.publicationId := by
    have hqueue : ∀ q ∈ queue, ∃ r, w.Stored r ∧ r.publicationId = q.publicationId := by
      intro q hq
      obtain ⟨r, hr, hid⟩ := List.mem_map.mp (hids.subset (List.mem_map_of_mem hq))
      exact ⟨r, Or.inl hr, hid⟩
    rintro q (hq | hq)
    · exact hqueue q hq
    · have hq : q ∈ if write.replaces then queue else w.store.file := hq
      split at hq
      · exact hqueue q hq
      · exact ⟨q, Or.inr hq, rfl⟩
  refine ⟨h.queue.sublist hids, ?_, fun q hq => ?_, fun task p hp => ?_, h.apart⟩
  · change ((if write.replaces then queue else w.store.file).map _).Nodup
    split
    · exact h.queue.sublist hids
    · exact h.file
  · obtain ⟨r, hr, hid⟩ := hstored q hq
    rw [← hid]
    exact h.issued r hr
  · obtain ⟨hissued, hapart⟩ := h.flight task p hp
    refine ⟨hissued, fun q hq => ?_⟩
    obtain ⟨r, hr, hid⟩ := hstored q hq
    rw [← hid]
    exact hapart r hr

theorem Distinct.unique (h : Distinct w) {p q : Publication Oid} (hp : p ∈ w.store.queue)
    (hq : q ∈ w.store.queue) (hid : p.publicationId = q.publicationId) : p = q :=
  List.inj_on_of_nodup_map h.queue hp hq hid

/-- A step that leaves the queue and its file, and makes no publication. -/
theorem Distinct.keep (h : Distinct w) (hqueue : w'.store.queue = w.store.queue)
    (hfile : w'.store.file = w.store.file) (hissued : w'.store.issued = w.store.issued)
    (hflight : ∀ t p, (w'.store.calls t).inFlight = some p →
      (w.store.calls t).inFlight = some p) : Distinct w' := by
  have hstored : ∀ q, w'.Stored q → w.Stored q := by
    intro q hq
    rw [Stored, hqueue, hfile] at hq
    exact hq
  refine ⟨hqueue ▸ h.queue, hfile ▸ h.file, fun q hq => ?_, fun t p hp => ?_,
    fun t t' p p' hp hp' => h.apart t t' p p' (hflight t p hp) (hflight t' p' hp')⟩
  · rw [hissued]
    exact h.issued q (hstored q hq)
  · rw [hissued]
    obtain ⟨hdrawn, hapart⟩ := h.flight t p (hflight t p hp)
    exact ⟨hdrawn, fun q hq => hapart q (hstored q hq)⟩

/-- A publication is in flight as before, or the step is of its own call. -/
theorem inFlight_cases {task : Task} (hcalls : ∀ t, t ≠ task →
    w'.store.calls t = w.store.calls t) {t : Task} {p : Publication Oid}
    (hp : (w'.store.calls t).inFlight = some p) :
    t ≠ task ∧ (w.store.calls t).inFlight = some p ∨
      t = task ∧ (w'.store.calls task).inFlight = some p := by
  by_cases ht : t = task
  · subst ht
    exact Or.inr ⟨rfl, hp⟩
  · rw [hcalls t ht] at hp
    exact Or.inl ⟨ht, hp⟩

theorem Distinct.creates (h : Distinct w) {task : Task} {name : String}
    {project : LocalProject Oid} {p : Publication Oid} (hcreates : Creates w w' task name project p)
    (hcalls : ∀ t, t ≠ task → w'.store.calls t = w.store.calls t) : Distinct w' := by
  have hstored : ∀ q, w'.Stored q → w.Stored q := by
    intro q hq
    rw [Stored, hcreates.queue, hcreates.file] at hq
    exact hq
  have hown : (w'.store.calls task).inFlight = some p := by
    rw [hcreates.call']
    rfl
  -- the ID of another publication has been drawn before
  have hother : ∀ {t r}, (w.store.calls t).inFlight = some r →
      r.publicationId ≠ p.publicationId := by
    intro t r hr hid
    exact hcreates.fresh (hid ▸ (h.flight t r hr).1)
  refine ⟨hcreates.queue ▸ h.queue, hcreates.file ▸ h.file, fun q hq => ?_, fun t r hr => ?_,
    fun t t' r r' hr hr' hid => ?_⟩
  · rw [hcreates.issued]
    exact List.mem_cons_of_mem _ (h.issued q (hstored q hq))
  · rw [hcreates.issued]
    rcases inFlight_cases hcalls hr with ⟨-, hr⟩ | ⟨rfl, hr⟩
    · obtain ⟨hdrawn, hapart⟩ := h.flight t r hr
      exact ⟨List.mem_cons_of_mem _ hdrawn, fun q hq => hapart q (hstored q hq)⟩
    · obtain rfl := Option.some.inj (hown.symm.trans hr)
      refine ⟨List.mem_cons_self, fun q hq hid => hcreates.fresh ?_⟩
      rw [← hid]
      exact h.issued q (hstored q hq)
  · rcases inFlight_cases hcalls hr with ⟨-, hr⟩ | ⟨rfl, hr⟩
    · rcases inFlight_cases hcalls hr' with ⟨-, hr'⟩ | ⟨rfl, hr'⟩
      · exact h.apart t t' r r' hr hr' hid
      · obtain rfl := Option.some.inj (hown.symm.trans hr')
        exact absurd hid (hother hr)
    · obtain rfl := Option.some.inj (hown.symm.trans hr)
      rcases inFlight_cases hcalls hr' with ⟨-, hr'⟩ | ⟨rfl, hr'⟩
      · exact absurd hid.symm (hother hr')
      · rfl

theorem Distinct.pushes (h : Distinct w) {task : Task} {name : String} {p : Publication Oid}
    {write : FileWrite} (hpushes : Pushes w w' task name p write)
    (hcalls : ∀ t, t ≠ task → w'.store.calls t = w.store.calls t) : Distinct w' := by
  have hown : (w.store.calls task).inFlight = some p := by
    rw [hpushes.call]
    rfl
  have hlanded : (w'.store.calls task).inFlight = none := by
    rw [hpushes.call']
    cases write <;> rfl
  obtain ⟨hdrawn, hapart⟩ := h.flight task p hown
  have hflight : ∀ t r, (w'.store.calls t).inFlight = some r →
      t ≠ task ∧ (w.store.calls t).inFlight = some r := by
    intro t r hr
    rcases inFlight_cases hcalls hr with hr | ⟨-, hr⟩
    · exact hr
    · rw [hlanded] at hr
      cases hr
  have hstored : ∀ q, w'.Stored q → w.Stored q ∨ q = p := by
    have happend : ∀ q ∈ w.store.queue ++ [p], w.Stored q ∨ q = p := by
      intro q hq
      rcases List.mem_append.mp hq with hq | hq
      · exact Or.inl (Or.inl hq)
      · exact Or.inr (List.mem_singleton.mp hq)
    rintro q (hq | hq)
    · exact happend q (hpushes.queue ▸ hq)
    · rw [hpushes.file] at hq
      split at hq
      · exact happend q hq
      · exact Or.inl (Or.inr hq)
  have hqueue : ((w.store.queue ++ [p]).map (·.publicationId)).Nodup := by
    rw [List.map_append, List.nodup_append]
    refine ⟨h.queue, List.nodup_singleton _, fun x hx y hy => ?_⟩
    obtain ⟨q, hq, rfl⟩ := List.mem_map.mp hx
    obtain rfl := List.mem_singleton.mp hy
    exact hapart q (Or.inl hq)
  refine ⟨hpushes.queue ▸ hqueue, ?_, fun q hq => ?_, fun t r hr => ?_,
    fun t t' r r' hr hr' hid => h.apart t t' r r' (hflight t r hr).2 (hflight t' r' hr').2 hid⟩
  · rw [hpushes.file]
    split
    · exact hqueue
    · exact h.file
  · rw [hpushes.issued]
    rcases hstored q hq with hq | rfl
    · exact h.issued q hq
    · exact hdrawn
  · rw [hpushes.issued]
    obtain ⟨hne, hr⟩ := hflight t r hr
    obtain ⟨hdrawn', hapart'⟩ := h.flight t r hr
    refine ⟨hdrawn', fun q hq hid => ?_⟩
    rcases hstored q hq with hq | rfl
    · exact hapart' q hq hid
    · exact hne (h.apart t task r q hr hown hid.symm)

/-- The publication of an attempt has its ref, also if it is acknowledged by now. -/
def Held (w : QueueDaemon Oid Task) (a : Attempt Oid) : Prop :=
  ∀ q ∈ w.store.queue, q.publicationId = a.initial.publicationId → w.HasRef q

/-- The publication of the ID is acknowledged, in memory and on disk. -/
structure Spent (w : QueueDaemon Oid Task) (id : String) : Prop where
  issued : id ∈ w.store.issued
  acknowledged : ∀ q, w.Stored q → q.publicationId = id → q.pending = false
  landed : ∀ task p, (w.store.calls task).inFlight = some p → p.publicationId ≠ id

/-- What holds where the delivery stands: an attempt that can still fail has the
ref of its publication, and only refs of spent publications are to be deleted. -/
def Stands (w : QueueDaemon Oid Task) : QueueDelivery Oid → Prop
  | .reading a | .loaded a _ | .failing a _ => Held w a
  | .completing a _ _ completed _ => Held w a ∧ ∀ id ∈ completed, Spent w id
  | .deleting _ _ completed => ∀ id ∈ completed, Spent w id
  | _ => True

structure Referenced (w : QueueDaemon Oid Task) : Prop where
  distinct : Distinct w
  pending : ∀ q, w.Stored q → q.pending = true → w.HasRef q
  referenced : ∀ task name p, w.store.calls task = .referenced name p → w.HasRef p
  stands : Stands w w.delivery

theorem hasRef_of_same (hrefs : w'.store.refs = w.store.refs) (horigins : w'.origins = w.origins)
    {p q : Publication Oid} (hid : q.publicationId = p.publicationId)
    (hsource : q.sourceCommitOid = p.sourceCommitOid) (h : w.HasRef p) : w'.HasRef q := by
  rw [HasRef, hrefs, horigins, hid, hsource]
  exact h

theorem stored_of_same (hqueue : w'.store.queue = w.store.queue)
    (hfile : w'.store.file = w.store.file) {q : Publication Oid} (h : w'.Stored q) :
    w.Stored q := by
  rw [Stored, hqueue, hfile] at h
  exact h

/-- The place of the delivery holds as before, if the step keeps the refs of the
queue and spends no ID of a new publication. -/
theorem Stands.keep {d : QueueDelivery Oid} (h : Stands w d)
    (hheld : ∀ a, Held w a → Held w' a) (hspent : ∀ id, Spent w id → Spent w' id) :
    Stands w' d := by
  cases d with
  | reading a => exact hheld a h
  | loaded a p => exact hheld a h
  | failing a error => exact hheld a h
  | completing a p ack completed hasPending =>
    exact ⟨hheld a h.1, fun id hid => hspent id (h.2 id hid)⟩
  | deleting a path completed => exact fun id hid => hspent id (h id hid)
  | _ => trivial

theorem Spent.keep {id : String} (h : Spent w id)
    (hissued : ∀ x ∈ w.store.issued, x ∈ w'.store.issued)
    (hstored : ∀ q, w'.Stored q → w.Stored q ∨ q.publicationId ≠ id)
    (hflight : ∀ t p, (w'.store.calls t).inFlight = some p →
      (w.store.calls t).inFlight = some p ∨ p.publicationId ≠ id) : Spent w' id where
  issued := hissued id h.issued
  acknowledged q hq hid := by
    rcases hstored q hq with hq | hne
    · exact h.acknowledged q hq hid
    · exact absurd hid hne
  landed task p hp := by
    rcases hflight task p hp with hp | hne
    · exact h.landed task p hp
    · exact hne

/-- A step of a call that has nothing in flight after it leaves the refs. -/
theorem Referenced.waits (h : Referenced w) (hdistinct : Distinct w') {task : Task}
    (hcalls : ∀ t, t ≠ task → w'.store.calls t = w.store.calls t) (hsame : SameFiles w w')
    (hnone : (w'.store.calls task).inFlight = none) (hdelivery : w'.delivery = w.delivery) :
    Referenced w' where
  distinct := hdistinct
  pending q hq hpending := hasRef_of_same hsame.refs hsame.origins rfl rfl
    (h.pending q (stored_of_same hsame.queue hsame.file hq) hpending)
  referenced t name p hp := by
    have hflight : (w'.store.calls t).inFlight = some p := by
      rw [hp]
      rfl
    rcases inFlight_cases hcalls hflight with ⟨hne, -⟩ | ⟨-, hp⟩
    · rw [hcalls t hne] at hp
      exact hasRef_of_same hsame.refs hsame.origins rfl rfl (h.referenced t name p hp)
    · rw [hnone] at hp
      cases hp
  stands := by
    rw [hdelivery]
    apply h.stands.keep
    · intro a ha q hq hid
      exact hasRef_of_same hsame.refs hsame.origins rfl rfl (ha q (hsame.queue ▸ hq) hid)
    · intro id hid
      refine hid.keep (fun x hx => hsame.issued ▸ hx)
        (fun q hq => Or.inl (stored_of_same hsame.queue hsame.file hq)) fun t p hp => ?_
      rcases inFlight_cases hcalls hp with ⟨-, hp⟩ | ⟨-, hp⟩
      · exact Or.inl hp
      · rw [hnone] at hp
        cases hp

theorem Referenced.creates (h : Referenced w) (hdistinct : Distinct w') {task : Task}
    (hcalls : ∀ t, t ≠ task → w'.store.calls t = w.store.calls t) {name : String}
    {project : LocalProject Oid} {p : Publication Oid} (hcreates : Creates w w' task name project p)
    (hdelivery : w'.delivery = w.delivery) : Referenced w' where
  distinct := hdistinct
  pending q hq hpending := hasRef_of_same hcreates.refs hcreates.origins rfl rfl
    (h.pending q (stored_of_same hcreates.queue hcreates.file hq) hpending)
  referenced t name' r hr := by
    by_cases ht : t = task
    · subst ht
      rw [hcreates.call'] at hr
      cases hr
    · rw [hcalls t ht] at hr
      exact hasRef_of_same hcreates.refs hcreates.origins rfl rfl (h.referenced t name' r hr)
  stands := by
    rw [hdelivery]
    apply h.stands.keep
    · intro a ha q hq hid
      exact hasRef_of_same hcreates.refs hcreates.origins rfl rfl (ha q (hcreates.queue ▸ hq) hid)
    · intro id hid
      refine hid.keep (fun x hx => hcreates.issued ▸ List.mem_cons_of_mem _ hx)
        (fun q hq => Or.inl (stored_of_same hcreates.queue hcreates.file hq)) fun t r hr => ?_
      rcases inFlight_cases hcalls hr with ⟨-, hr⟩ | ⟨-, hr⟩
      · exact Or.inl hr
      · rw [hcreates.call'] at hr
        obtain rfl := Option.some.inj hr
        exact Or.inr fun hsame => hcreates.fresh (hsame ▸ hid.issued)

/-- Writing a ref leaves those of the other IDs. -/
theorem References.hasRef {task : Task} {name : String} {project : LocalProject Oid}
    {p q : Publication Oid} (hrefs : References w w' task name project p)
    (hne : q.publicationId ≠ p.publicationId) (h : w.HasRef q) : w'.HasRef q := by
  rw [HasRef, hrefs.refs, hrefs.origins, Function.update_of_ne hne]
  by_cases hpath : w.origins q.publicationId = project.localPath
  · rw [hpath, Function.update_self, Function.update_of_ne hne, ← hpath]
    exact h
  · rw [Function.update_of_ne hpath]
    exact h

theorem References.own {task : Task} {name : String} {project : LocalProject Oid}
    {p : Publication Oid} (hrefs : References w w' task name project p) : w'.HasRef p := by
  rw [HasRef, hrefs.refs, hrefs.origins, Function.update_self, Function.update_self,
    Function.update_self]

theorem Referenced.references (h : Referenced w) (hdistinct : Distinct w') {task : Task}
    (hcalls : ∀ t, t ≠ task → w'.store.calls t = w.store.calls t) {name : String}
    {project : LocalProject Oid} {p : Publication Oid} (hrefs : References w w' task name project p)
    (hdelivery : w'.delivery = w.delivery) : Referenced w' := by
  have hown : (w.store.calls task).inFlight = some p := by
    rw [hrefs.call]
    rfl
  obtain ⟨-, hapart⟩ := h.distinct.flight task p hown
  refine ⟨hdistinct, fun q hq hpending => ?_, fun t name' r hr => ?_, ?_⟩
  · have hold := stored_of_same hrefs.queue hrefs.file hq
    exact hrefs.hasRef (hapart q hold) (h.pending q hold hpending)
  · by_cases ht : t = task
    · subst ht
      rw [hrefs.call'] at hr
      obtain ⟨-, rfl⟩ := EnqueueCall.referenced.inj hr
      exact hrefs.own
    · rw [hcalls t ht] at hr
      have hflight : (w.store.calls t).inFlight = some r := by
        rw [hr]
        rfl
      refine hrefs.hasRef (fun hid => ht ?_) (h.referenced t name' r hr)
      exact h.distinct.apart t task r p hflight hown hid
  · rw [hdelivery]
    apply h.stands.keep
    · intro a ha q hq hid
      have hold : q ∈ w.store.queue := hrefs.queue ▸ hq
      exact hrefs.hasRef (hapart q (Or.inl hold)) (ha q hold hid)
    · intro id hid
      refine hid.keep (fun x hx => hrefs.issued ▸ hx)
        (fun q hq => Or.inl (stored_of_same hrefs.queue hrefs.file hq)) fun t r hr => Or.inl ?_
      rcases inFlight_cases hcalls hr with ⟨-, hr⟩ | ⟨rfl, hr⟩
      · exact hr
      · rw [hrefs.call'] at hr
        rw [hrefs.call]
        exact hr

theorem Referenced.pushes (h : Referenced w) (hdistinct : Distinct w') {task : Task}
    (hcalls : ∀ t, t ≠ task → w'.store.calls t = w.store.calls t) {name : String}
    {p : Publication Oid} {write : FileWrite} (hpushes : Pushes w w' task name p write)
    (hdelivery : w'.delivery = w.delivery) : Referenced w' := by
  have hown : (w.store.calls task).inFlight = some p := by
    rw [hpushes.call]
    rfl
  have href : w'.HasRef p := hasRef_of_same hpushes.refs hpushes.origins rfl rfl
    (h.referenced task name p hpushes.call)
  have happend : ∀ q ∈ w.store.queue ++ [p], q ∈ w.store.queue ∨ q = p := fun q hq =>
    (List.mem_append.mp hq).imp_right List.mem_singleton.mp
  have hstored : ∀ q, w'.Stored q → w.Stored q ∨ q = p := by
    rintro q (hq | hq)
    · exact (happend q (hpushes.queue ▸ hq)).imp_left Or.inl
    · rw [hpushes.file] at hq
      split at hq
      · exact (happend q hq).imp_left Or.inl
      · exact Or.inl (Or.inr hq)
  have hflight : ∀ t r, (w'.store.calls t).inFlight = some r →
      t ≠ task ∧ (w.store.calls t).inFlight = some r := by
    intro t r hr
    rcases inFlight_cases hcalls hr with hr | ⟨-, hr⟩
    · exact hr
    · rw [hpushes.call'] at hr
      cases write <;> cases hr
  refine ⟨hdistinct, fun q hq hpending => ?_, fun t name' r hr => ?_, ?_⟩
  · rcases hstored q hq with hq | rfl
    · exact hasRef_of_same hpushes.refs hpushes.origins rfl rfl (h.pending q hq hpending)
    · exact href
  · have hr' : (w'.store.calls t).inFlight = some r := by
      rw [hr]
      rfl
    rw [hcalls t (hflight t r hr').1] at hr
    exact hasRef_of_same hpushes.refs hpushes.origins rfl rfl (h.referenced t name' r hr)
  · rw [hdelivery]
    apply h.stands.keep
    · intro a ha q hq hid
      rcases happend q (hpushes.queue ▸ hq) with hq | rfl
      · exact hasRef_of_same hpushes.refs hpushes.origins rfl rfl (ha q hq hid)
      · exact href
    · intro id hid
      refine hid.keep (fun x hx => hpushes.issued ▸ hx) (fun q hq => ?_)
        fun t r hr => Or.inl (hflight t r hr).2
      rcases hstored q hq with hq | rfl
      · exact Or.inl hq
      · exact Or.inr (hid.landed task q hown)

section Steps

variable [DecidableEq Oid] [DecidableEq Task]

theorem Distinct.enqueue (h : Distinct w) {task : Task} {e : EnqueueEvent Oid}
    (hs : w.step (.enqueue task e) = some w') : Distinct w' := by
  obtain ⟨-, hcalls, ⟨hsame, hnone⟩ | ⟨name, project, p, hcreates⟩ | ⟨name, project, p, hrefs⟩ |
    ⟨name, p, write, -, hpushes⟩⟩ := enqueue_cases hs
  · apply h.keep hsame.queue hsame.file hsame.issued
    intro t p hp
    rcases inFlight_cases hcalls hp with hp | ⟨-, hp⟩
    · exact hp.2
    · rw [hnone] at hp
      cases hp
  · exact h.creates hcreates hcalls
  · apply h.keep hrefs.queue hrefs.file hrefs.issued
    intro t r hr
    rcases inFlight_cases hcalls hr with hr | ⟨rfl, hr⟩
    · exact hr.2
    · rw [hrefs.call'] at hr
      rw [hrefs.call]
      exact hr
  · exact h.pushes hpushes hcalls

theorem Referenced.enqueue (h : Referenced w) {task : Task} {e : EnqueueEvent Oid}
    (hs : w.step (.enqueue task e) = some w') : Referenced w' := by
  have hdistinct := h.distinct.enqueue hs
  obtain ⟨hdelivery, hcalls, ⟨hsame, hnone⟩ | ⟨name, project, p, hcreates⟩ |
    ⟨name, project, p, hrefs⟩ | ⟨name, p, write, -, hpushes⟩⟩ := enqueue_cases hs
  · exact h.waits hdistinct hcalls hsame hnone hdelivery
  · exact h.creates hdistinct hcalls hcreates hdelivery
  · exact h.references hdistinct hcalls hrefs hdelivery
  · exact h.pushes hdistinct hcalls hpushes hdelivery

end Steps

end QueueDaemon

end Resync
