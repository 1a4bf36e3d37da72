import Resync.BranchHeads
import Resync.DaemonSteps
import Resync.QueueRefRuns

/-! What `REMOTELY_DURABLE` says of the queue. Both operations look at the queue
under one lock and write the durability under another, so a record can say that
all work is on the server while a new publication waits. -/
namespace Resync

variable {Oid Task : Type}

section Catalogs

/-- The position of the record that the name finds. -/
def projectPosition (c : LocalCatalog Oid) (name : String) : Option ℕ :=
  c.projects.findIdx? (·.named name)

def durabilityOf (c : LocalCatalog Oid) (name : String) : Option Durability :=
  (findProject c name).map (·.durability)

/-- The same projects in the same order. -/
def SameIds (c c' : LocalCatalog Oid) : Prop :=
  c'.projects.map (·.identity) = c.projects.map (·.identity)

variable {c c' : LocalCatalog Oid} {f : LocalProject Oid → LocalProject Oid}

theorem SameIds.position (h : SameIds c c') (name : String) :
    projectPosition c' name = projectPosition c name := by
  have hmap : ∀ c : LocalCatalog Oid, projectPosition c name =
      (c.projects.map (·.identity)).findIdx? fun i => i.1 == name || i.2.1 == name := by
    intro c
    rw [List.findIdx?_map]
    rfl
  rw [hmap c', hmap c, h]

theorem SameIds.update (h : SameIds c c') (name : String)
    (hf : ∀ p, findProject c' name = some p → (f p).identity = p.identity) :
    SameIds c (updateProject c' name f) := by
  have hmap : (updateProject c' name f).projects.map (·.identity) =
      c'.projects.map (·.identity) := map_modifyFirst _ _ hf
  exact hmap.trans h

theorem SameIds.unique (h : SameIds c c') (hids : UniqueIds c) : UniqueIds c' where
  ids := by
    have hmap : ∀ c : LocalCatalog Oid, c.projects.map (·.projectId) =
        (c.projects.map (·.identity)).map Prod.fst := by
      intro c
      rw [List.map_map]
      rfl
    rw [hmap, h, ← hmap]
    exact hids.ids
  paths p hp q hq := by
    have hold : ∀ r ∈ c'.projects, ∃ r' ∈ c.projects, r'.identity = r.identity := by
      intro r hr
      exact List.mem_map.mp (h ▸ List.mem_map_of_mem hr)
    obtain ⟨p', hp', hpid⟩ := hold p hp
    obtain ⟨q', hq', hqid⟩ := hold q hq
    have hne := hids.paths p' hp' q' hq'
    rw [identity_localPath hpid, identity_projectId hqid] at hne
    exact hne

theorem updateProject_of_none {name : String} (h : findProject c name = none) :
    updateProject c name f = c := by
  have hsame : modifyFirst (·.named name) f c.projects = c.projects := modifyFirst_of_none h
  rw [updateProject, hsame]

/-- A project is found by its own ID where the name found it. -/
theorem UniqueIds.position (hids : UniqueIds c) {name : String} {p : LocalProject Oid}
    (hp : findProject c name = some p) :
    projectPosition c name = projectPosition c p.projectId := by
  obtain ⟨i, hi, hget⟩ := findProject_eq_some.mp hp
  obtain ⟨j, hj, hget'⟩ := findProject_eq_some.mp (hids.find (findProject_mem hp))
  have hij : i = j := by
    have hnodup : c.projects.Nodup := List.Nodup.of_map _ hids.ids
    obtain ⟨hlt, hget⟩ := List.getElem?_eq_some_iff.mp hget
    obtain ⟨hlt', hget'⟩ := List.getElem?_eq_some_iff.mp hget'
    exact (List.Nodup.getElem_inj_iff hnodup).mp (hget.trans hget'.symm)
  rw [projectPosition, projectPosition, hi, hj, hij]

/-- A write through a name is seen under the names that find the same record. -/
theorem durabilityOf_update {name : String}
    (hf : ∀ p, findProject c name = some p → (f p).identity = p.identity) (other : String) :
    durabilityOf (updateProject c name f) other =
      (findProject c other).map fun p =>
        if projectPosition c name = projectPosition c other then (f p).durability
        else p.durability := by
  have hposition : projectPosition (updateProject c name f) other = projectPosition c other :=
    SameIds.position (SameIds.update rfl name hf) other
  cases hp : findProject c other with
  | some p =>
    obtain ⟨i, hi, hget⟩ := findProject_eq_some.mp hp
    have hfound : findProject (updateProject c name f) other =
        some (if projectPosition c name = some i then f p else p) :=
      findProject_of_position (hposition.trans hi) (record_updateProject hget)
    have hother : projectPosition c other = some i := hi
    rw [durabilityOf, hfound, hother, Option.map_some, Option.map_some]
    split <;> rfl
  | none =>
    have hnone : projectPosition c other = none := by
      rw [projectPosition, List.findIdx?_eq_none_iff]
      exact fun p hp' => Bool.eq_false_iff.mpr (List.find?_eq_none.mp hp p hp')
    cases hq : findProject (updateProject c name f) other with
    | none => rw [durabilityOf, hq, Option.map_none, Option.map_none]
    | some q =>
      obtain ⟨i, hi, -⟩ := findProject_eq_some.mp hq
      cases hnone.symm.trans (hposition.symm.trans hi)

theorem findProject_of_same_position {name other : String}
    (h : projectPosition c name = projectPosition c other) :
    findProject c name = findProject c other := by
  have hfind : ∀ name, findProject c name =
      (projectPosition c name).bind fun i => c.projects[i]? := by
    intro name
    exact List.find?_eq_bind_findIdx?_getElem?
  rw [hfind, hfind, h]

theorem written_durability {name other : String} {d : Durability}
    (h : durabilityOf (updateProject c name f) other = some d)
    (hf : ∀ p, findProject c name = some p → (f p).identity = p.identity) :
    ∃ p, findProject c other = some p ∧
      (if projectPosition c name = projectPosition c other then (f p).durability
        else p.durability) = d := by
  rw [durabilityOf_update hf] at h
  exact Option.map_eq_some_iff.mp h

/-- A write that makes no record durable. -/
theorem durable_of_update {name other : String}
    (h : durabilityOf (updateProject c name f) other = some .remotelyDurable)
    (hf : ∀ p, findProject c name = some p → (f p).identity = p.identity)
    (hdurable : ∀ p, findProject c name = some p → (f p).durability = .remotelyDurable →
      p.durability = .remotelyDurable) :
    durabilityOf c other = some .remotelyDurable := by
  obtain ⟨p, hp, hd⟩ := written_durability h hf
  rw [durabilityOf, hp, Option.map_some]
  split at hd
  · next hsame => rw [hdurable p ((findProject_of_same_position hsame).trans hp) hd]
  · rw [hd]

end Catalogs

/-- The name that a call of `enqueue_publication` was given, with the ID of the
project that it has found under it. -/
def EnqueueCall.about : EnqueueCall Oid → Option (String × String)
  | .cloned name project _ _ | .verified name project _ _ => some (name, project.projectId)
  | .created name _ p | .referenced name p | .queued name p => some (name, p.projectId)
  | _ => none

def EnqueueCall.isIdle : EnqueueCall Oid → Bool
  | .idle => true
  | _ => false

/-- `complete_publication` is under way. -/
def QueueDelivery.isCompleting : QueueDelivery Oid → Bool
  | .completing .. | .deleting .. => true
  | _ => false

namespace QueueDaemon

/-- The record of the project says that all of its work is on the server. -/
def Sure (w : QueueDaemon Oid Task) (id : String) : Prop :=
  durabilityOf w.store.catalog id = some .remotelyDurable

/-- A call has queued a publication of the project and has still to record that. -/
def Reporting (w : QueueDaemon Oid Task) (id : String) : Prop :=
  ∃ task name p, w.store.calls task = .queued name p ∧ p.projectId = id

/-- No enqueue and no completion is under way. -/
def Quiet (w : QueueDaemon Oid Task) : Prop :=
  (∀ task, (w.store.calls task).isIdle = true) ∧ w.delivery.isCompleting = false

/-- A record that says `REMOTELY_DURABLE` is about to be corrected, or nothing of
its project is pending. -/
def Honest (w : QueueDaemon Oid Task) : Prop :=
  ∀ q ∈ w.store.queue, q.pending = true → w.Sure q.projectId → w.Reporting q.projectId

/-- The condition on the steps. A failed write of the queue, a completion that has
seen an empty queue, and a failed attempt that takes an acknowledgement back leave
nothing pending under a record that says `REMOTELY_DURABLE`, unless a call is about
to correct it. Nor do the files at a stop of the daemon. -/
def ReportsPending (w : QueueDaemon Oid Task) : QueueDaemonEvent Oid Task → Prop
  | .enqueue task (.push (.failed _)) =>
    match w.store.calls task with
    | .referenced _ p => w.Sure p.projectId → w.Reporting p.projectId
    | _ => True
  | .deliver (.recordCompletion _ _) =>
    match w.delivery with
    | .completing _ p _ _ false =>
      ∀ q ∈ w.store.queue, q.pending = true → (findProject w.store.catalog q.projectId).isSome →
        projectPosition w.store.catalog p.projectId =
          projectPosition w.store.catalog q.projectId → w.Reporting q.projectId
    | _ => True
  | .deliver (.recordFailure _ _) =>
    match w.delivery with
    | .failing a _ =>
      ∀ q, PublicationQueue.find w.store.queue a.initial.publicationId = some q →
        w.Sure q.projectId → w.Reporting q.projectId
    | _ => True
  | .crash => ∀ q ∈ w.store.file, q.pending = true →
      durabilityOf w.saved q.projectId ≠ some .remotelyDurable
  | _ => True

/-- `c` is the catalog of the first start. -/
structure Reported (c : LocalCatalog Oid) (w : QueueDaemon Oid Task) : Prop where
  catalog : SameIds c w.store.catalog
  saved : SameIds c w.saved
  about : ∀ task name id, (w.store.calls task).about = some (name, id) →
    projectPosition c name = projectPosition c id
  flight : ∀ task p, (w.store.calls task).inFlight = some p → p.pending = true
  honest : w.Honest

variable {c : LocalCatalog Oid} {w w' : QueueDaemon Oid Task}

/-- The queue keeps its publications, and the delivery goes to another place. -/
theorem Reported.setQueue (h : Reported c w) {queue : List (Publication Oid)}
    {write : FileWrite} (hqueue : ∀ q ∈ queue, q.pending = true → w.Sure q.projectId →
      w.Reporting q.projectId) (d : QueueDelivery Oid) :
    Reported c ((w.setQueue queue write).setDelivery d) where
  catalog := h.catalog
  saved := h.saved
  about := h.about
  flight := h.flight
  honest := hqueue

/-- A record is written with the durability that it had, or with one that
promises nothing. -/
theorem Reported.setProject (h : Reported c w) {name : String}
    {f : LocalProject Oid → LocalProject Oid} {persisted : Bool}
    (hf : ∀ p, findProject w.store.catalog name = some p → (f p).identity = p.identity)
    (hhonest : ∀ q ∈ w.store.queue, q.pending = true →
      durabilityOf (updateProject w.store.catalog name f) q.projectId = some .remotelyDurable →
        w.Reporting q.projectId) (d : QueueDelivery Oid) :
    Reported c ((w.setProject name f persisted).setDelivery d) where
  catalog := h.catalog.update name hf
  saved := by
    change SameIds c (if persisted then updateProject w.store.catalog name f else w.saved)
    split
    · exact h.catalog.update name hf
    · exact h.saved
  about := h.about
  flight := h.flight
  honest := hhonest

theorem Reported.place (h : Reported c w) (d : QueueDelivery Oid) :
    Reported c (w.setDelivery d) := ⟨h.catalog, h.saved, h.about, h.flight, h.honest⟩

/-- One step of a delivery. -/
theorem Reported.deliver (h : Reported c w) {e : QueueDeliveryEvent Oid}
    (hok : ReportsPending w (.deliver e : QueueDaemonEvent Oid Task))
    (hs : w.deliver e = some w') : Reported c w' := by
  cases deliveryStep_of_deliver hs with
  | retargets =>
    apply h.setQueue
    intro q hq hpending hsure
    rcases mem_modifyFirst hq with hq | ⟨r, hr, rfl⟩
    · exact h.honest q hq hpending hsure
    · exact h.honest r (List.mem_of_find?_eq_some hr) hpending hsure
  | completes =>
    apply h.setQueue
    intro q hq hpending
    exact h.honest q (PublicationQueue.pending_of_mem_complete hq hpending).1 hpending
  | @records a p ack completed hasPending persisted error project place =>
    apply h.setProject
    · exact fun _ _ => rfl
    · intro q hq hpending hdurable
      cases hasPending with
      | true =>
        exact h.honest q hq hpending
          (durable_of_update hdurable (fun _ _ => rfl) fun _ _ hd => hd)
      | false =>
        simp only [ReportsPending, place] at hok
        obtain ⟨r, hr, hd⟩ := written_durability hdurable fun _ _ => rfl
        by_cases hsame : projectPosition w.store.catalog p.projectId =
            projectPosition w.store.catalog q.projectId
        · exact hok q hq hpending (hr ▸ rfl) hsame
        · -- the record of another project has not been written
          rw [if_neg hsame] at hd
          apply h.honest q hq hpending
          rw [Sure, durabilityOf, hr, Option.map_some, hd]
  | recordsFailure place =>
    simp only [ReportsPending, place] at hok
    apply h.setQueue
    intro q hq hpending hsure
    rcases mem_modifyFirst hq with hq | ⟨r, hr, rfl⟩
    · exact h.honest q hq hpending hsure
    · exact hok r hr hsure
  | notesFailure =>
    apply h.setProject
    · exact fun _ _ => rfl
    · intro q hq hpending hdurable
      exact h.honest q hq hpending
        (durable_of_update hdurable (fun _ _ => rfl) fun _ _ hd => by cases hd)
  | @deletes a path id ids deleted =>
    cases deleted <;> exact ⟨h.catalog, h.saved, h.about, h.flight, h.honest⟩
  | _ => exact h.place _

theorem reported_initial (catalog : LocalCatalog Oid) (refs : String → String → Option Oid) :
    Reported catalog (initial catalog refs : QueueDaemon Oid Task) where
  catalog := rfl
  saved := rfl
  about _ _ _ ha := by cases ha
  flight _ _ hp := by cases hp
  honest _ hq := by cases hq

section Steps

variable [DecidableEq Oid] [DecidableEq Task]

/-- A call speaks about what it spoke about before, or about the project that it
finds. -/
theorem enqueue_about {task : Task} {e : EnqueueEvent Oid}
    (hs : w.step (.enqueue task e) = some w') (t : Task) {name id : String}
    (ha : (w'.store.calls t).about = some (name, id)) :
    (w.store.calls t).about = some (name, id) ∨
      ∃ project, findProject w.store.catalog name = some project ∧ id = project.projectId := by
  obtain ⟨store, hstore, rfl⟩ := Option.map_eq_some_iff.mp hs
  -- The step places one call, and what that call speaks about decides.
  have hset : ∀ {d : EnqueueCall Oid}, store.calls = Function.update w.store.calls task d →
      (d.about = some (name, id) → (w.store.calls task).about = some (name, id) ∨
        ∃ project, findProject w.store.catalog name = some project ∧ id = project.projectId) →
      (w.store.calls t).about = some (name, id) ∨
        ∃ project, findProject w.store.catalog name = some project ∧ id = project.projectId := by
    intro d hd hown
    have ha : (store.calls t).about = some (name, id) := ha
    rw [hd] at ha
    by_cases ht : t = task
    · subst ht
      rw [Function.update_self] at ha
      exact hown ha
    · rw [Function.update_of_ne ht] at ha
      exact Or.inl ha
  cases QueueStore.enqueueStep_of_enqueue hstore with
  | calls | clonesUnknown | refuses | finds | losesRef | recordsUnknown | records | losesRecord =>
    exact hset rfl fun hd => by cases hd
  | @clones name' b d project place found =>
    apply hset rfl
    intro hd
    obtain ⟨rfl, rfl⟩ := Prod.mk.inj (Option.some.inj hd)
    exact Or.inr ⟨project, found, rfl⟩
  | verifies place | creates place | references place =>
    exact hset rfl fun hd => Or.inl (place ▸ hd)
  | @queues name' p write place =>
    apply hset rfl
    intro hd
    cases write with
    | written => exact Or.inl (place ▸ hd)
    | failed replaced => cases hd

/-- What a step of `enqueue_publication` does to the records: it leaves them with
every report still to be made, or it makes the report of its own call. -/
theorem enqueue_records {task : Task} {e : EnqueueEvent Oid}
    (hs : w.step (.enqueue task e) = some w') :
    (w'.saved = w.saved ∨ w'.saved = w'.store.catalog) ∧
      (w'.store.catalog = w.store.catalog ∧
          (∀ t name p, w.store.calls t = .queued name p → w'.store.calls t = .queued name p) ∨
        ∃ name p, w.store.calls task = .queued name p ∧
          w'.store.catalog = updateProject w.store.catalog name fun q =>
            { q with durability := .committedUnpublished }) := by
  obtain ⟨-, hcalls, -⟩ := enqueue_cases hs
  obtain ⟨store, hstore, rfl⟩ := Option.map_eq_some_iff.mp hs
  constructor
  · change w.savedAfter task e store = _ ∨ w.savedAfter task e store = store.catalog
    unfold savedAfter
    split
    · split
      · exact Or.inr rfl
      · exact Or.inl rfl
    · exact Or.inl rfl
  · by_cases hqueued : ∃ name p, w.store.calls task = .queued name p
    · obtain ⟨name, p, hcall⟩ := hqueued
      refine Or.inr ⟨name, p, hcall, ?_⟩
      cases QueueStore.enqueueStep_of_enqueue hstore with
      | recordsUnknown place none =>
        obtain ⟨rfl, -⟩ := EnqueueCall.queued.inj (hcall.symm.trans place)
        exact (updateProject_of_none none).symm
      | records place | losesRecord place =>
        obtain ⟨rfl, -⟩ := EnqueueCall.queued.inj (hcall.symm.trans place)
        rfl
      | calls place | clones place | clonesUnknown place | verifies place | refuses place
      | finds place | creates place | references place | losesRef place | queues place =>
        cases hcall.symm.trans place
    · refine Or.inl ⟨?_, fun t name p hp => ?_⟩
      · cases QueueStore.enqueueStep_of_enqueue hstore with
        | recordsUnknown place | records place | losesRecord place =>
          exact absurd ⟨_, _, place⟩ hqueued
        | _ => rfl
      · have hne : t ≠ task := by
          intro ht
          exact hqueued ⟨name, p, ht ▸ hp⟩
        exact (hcalls t hne).trans hp

theorem Reported.enqueue (h : Reported c w) (hids : UniqueIds c) {task : Task}
    {e : EnqueueEvent Oid} (hok : w.ReportsPending (.enqueue task e))
    (hs : w.step (.enqueue task e) = some w') : Reported c w' := by
  obtain ⟨hsaved, hrecords⟩ := enqueue_records hs
  have hcatalog : SameIds c w'.store.catalog := by
    rcases hrecords with ⟨hsame, -⟩ | ⟨name, p, -, hwrite⟩
    · rw [hsame]
      exact h.catalog
    · rw [hwrite]
      exact h.catalog.update name fun _ _ => rfl
  obtain ⟨-, hcalls, hcases⟩ := enqueue_cases hs
  -- what is in the queue afterwards, and which publications are in flight
  have hqueue : ∀ q ∈ w'.store.queue, q ∈ w.store.queue ∨
      ∃ name write, e = .push write ∧ Pushes w w' task name q write := by
    intro q hq
    rcases hcases with ⟨hsame, -⟩ | ⟨name, project, p, hcreates⟩ | ⟨name, project, p, hrefs⟩ |
      ⟨name, p, write, he, hpushes⟩
    · exact Or.inl (hsame.queue ▸ hq)
    · exact Or.inl (hcreates.queue ▸ hq)
    · exact Or.inl (hrefs.queue ▸ hq)
    · rw [hpushes.queue] at hq
      rcases List.mem_append.mp hq with hq | hq
      · exact Or.inl hq
      · obtain rfl := List.mem_singleton.mp hq
        exact Or.inr ⟨name, write, he, hpushes⟩
  have hflight : ∀ p, (w'.store.calls task).inFlight = some p → p.pending = true := by
    intro r hr
    rcases hcases with ⟨-, hnone⟩ | ⟨name, project, p, hcreates⟩ | ⟨name, project, p, hrefs⟩ |
      ⟨name, p, write, -, hpushes⟩
    · rw [hnone] at hr
      cases hr
    · rw [hcreates.call'] at hr
      obtain rfl := Option.some.inj hr
      exact hcreates.pending
    · rw [hrefs.call'] at hr
      obtain rfl := Option.some.inj hr
      apply h.flight task p
      rw [hrefs.call]
      rfl
    · rw [hpushes.call'] at hr
      cases write <;> cases hr
  refine ⟨hcatalog, ?_, fun t name id ha => ?_, fun t p hp => ?_, ?_⟩
  · rcases hsaved with hsaved | hsaved
    · rw [hsaved]
      exact h.saved
    · rw [hsaved]
      exact hcatalog
  · rcases enqueue_about hs t ha with ha | ⟨project, hproject, rfl⟩
    · exact h.about t name id ha
    · have hunique : UniqueIds w.store.catalog := h.catalog.unique hids
      rw [← h.catalog.position, ← h.catalog.position]
      exact hunique.position hproject
  · rcases inFlight_cases hcalls hp with ⟨-, hp⟩ | ⟨-, hp⟩
    · exact h.flight t p hp
    · exact hflight p hp
  · intro q hq hpending hsure
    rcases hrecords with ⟨hsame, hreports⟩ | ⟨name, p, hcall, hwrite⟩
    · have hold : w.Sure q.projectId := by
        rw [Sure, ← hsame]
        exact hsure
      have hkeep : w.Reporting q.projectId → w'.Reporting q.projectId := by
        rintro ⟨t, name, p, hp, hid⟩
        exact ⟨t, name, p, hreports t name p hp, hid⟩
      rcases hqueue q hq with hq | ⟨name, write, rfl, hpushes⟩
      · exact hkeep (h.honest q hq hpending hold)
      · cases write with
        | written => exact ⟨task, name, q, hpushes.call', rfl⟩
        | failed replaced =>
          simp only [ReportsPending, hpushes.call] at hok
          exact hkeep (hok hold)
    · -- the report of this call is made, and its record promises nothing any more
      have hq : q ∈ w.store.queue := by
        rcases hqueue q hq with hq | ⟨_, _, _, hpushes⟩
        · exact hq
        · cases hcall.symm.trans hpushes.call
      rw [Sure, hwrite] at hsure
      obtain ⟨r, hr, hd⟩ := written_durability hsure fun _ _ => rfl
      have hother : projectPosition w.store.catalog name ≠
          projectPosition w.store.catalog q.projectId := by
        intro hsame
        rw [if_pos hsame] at hd
        cases hd
      have hold : w.Sure q.projectId := by
        rw [if_neg hother] at hd
        rw [Sure, durabilityOf, hr, Option.map_some, hd]
      obtain ⟨t, name', p', hp', hid⟩ := h.honest q hq hpending hold
      have hne : t ≠ task := by
        rintro rfl
        obtain ⟨rfl, rfl⟩ := EnqueueCall.queued.inj (hcall.symm.trans hp')
        apply hother
        have habout : projectPosition c name = projectPosition c q.projectId := by
          apply h.about t
          rw [hp', ← hid]
          rfl
        rw [h.catalog.position, h.catalog.position, habout]
      exact ⟨t, name', p', (hcalls t hne).trans hp', hid⟩

/-- The step lemma. -/
theorem Reported.step (h : Reported c w) (hids : UniqueIds c) {e : QueueDaemonEvent Oid Task}
    (hok : w.ReportsPending e) (hs : w.step e = some w') : Reported c w' := by
  cases e with
  | enqueue task e => exact h.enqueue hids hok hs
  | deliver e => exact h.deliver hok hs
  | writeProject name record persisted =>
    simp only [QueueDaemon.step] at hs
    split at hs
    · next project hproject =>
      split at hs
      · next hsame =>
        obtain ⟨⟨hid, hpath, hurl⟩, hdurability⟩ := hsame
        obtain rfl := Option.some.inj hs
        have hf : ∀ p, findProject w.store.catalog name = some p →
            record.identity = p.identity := by
          intro p hp
          obtain rfl := Option.some.inj (hproject.symm.trans hp)
          rw [LocalProject.identity, LocalProject.identity, hid, hpath, hurl]
        refine (h.setProject hf (fun q hq hpending hdurable => ?_) w.delivery :)
        refine h.honest q hq hpending (durable_of_update hdurable hf fun p hp hd => ?_)
        obtain rfl := Option.some.inj (hproject.symm.trans hp)
        exact hdurability.symm.trans hd
      · cases hs
    · cases hs
  | crash =>
    obtain rfl := Option.some.inj hs
    refine ⟨h.saved, h.saved, fun _ _ _ ha => ?_, fun _ _ hp => ?_, ?_⟩
    · cases ha
    · cases hp
    · intro q hq hpending hsure
      exact absurd hsure (hok q hq hpending)

/-- A step that leaves something pending under a record that promises too much
shows. -/
theorem Reported.reportsPending (h : Reported c w) {e : QueueDaemonEvent Oid Task}
    (hhonest : ∀ w', w.step e = some w' → w'.Honest) : w.ReportsPending e := by
  cases e with
  | enqueue task e =>
    cases e with
    | push write =>
      cases write with
      | written => trivial
      | failed replaced =>
        rw [ReportsPending]
        split
        · next name p hcall =>
          intro hsure
          have hpending : p.pending = true := by
            apply h.flight task p
            rw [hcall]
            rfl
          -- The call ends with the failed write, so it will not correct the record.
          have hstep : ∃ w', w.step (.enqueue task (.push (.failed replaced))) = some w' ∧
              w'.store.queue = w.store.queue ++ [p] ∧ w'.store.catalog = w.store.catalog ∧
              w'.store.calls = Function.update w.store.calls task .idle := by
            simp only [QueueDaemon.step, QueueStore.enqueue, hcall, Option.map_some]
            exact ⟨_, rfl, rfl, rfl, rfl⟩
          obtain ⟨w', hs, hqueue, hcatalog, hcalls⟩ := hstep
          have hsure' : w'.Sure p.projectId := by
            rw [Sure, hcatalog]
            exact hsure
          have hmem : p ∈ w'.store.queue := hqueue ▸ List.mem_concat_self
          obtain ⟨t, name', r, hr, hid⟩ := hhonest w' hs p hmem hpending hsure'
          rw [hcalls] at hr
          have hne : t ≠ task := by
            rintro rfl
            rw [Function.update_self] at hr
            cases hr
          rw [Function.update_of_ne hne] at hr
          exact ⟨t, name', r, hr, hid⟩
        · trivial
    | _ => trivial
  | deliver e =>
    cases e with
    | recordCompletion persisted error =>
      rw [ReportsPending]
      split
      · next a p ack completed hplace =>
        intro q hq hpending hfound hsame
        obtain ⟨r, hr⟩ := Option.isSome_iff_exists.mp hfound
        have hp : findProject w.store.catalog p.projectId = some r :=
          (findProject_of_same_position hsame).trans hr
        -- After the completion the record promises durability.
        have hstep : ∃ w' f, w.step (.deliver (.recordCompletion persisted error)) = some w' ∧
            w'.store.queue = w.store.queue ∧ w'.store.calls = w.store.calls ∧
            w'.store.catalog = updateProject w.store.catalog p.projectId f ∧
            (∀ p, (f p).identity = p.identity) ∧ ∀ p, (f p).durability = .remotelyDurable := by
          simp only [QueueDaemon.step, QueueDaemon.deliver, hplace, hp]
          exact ⟨_, _, rfl, rfl, rfl, rfl, fun _ => rfl, fun _ => rfl⟩
        obtain ⟨w', f, hs, hqueue, hcalls, hcatalog, hf, hdurable⟩ := hstep
        have hsure : w'.Sure q.projectId := by
          rw [Sure, hcatalog, durabilityOf_update fun p _ => hf p, hr, Option.map_some,
            if_pos hsame, hdurable]
        obtain ⟨t, name, r', hr', hid⟩ := hhonest w' hs q (hqueue ▸ hq) hpending hsure
        exact ⟨t, name, r', hcalls ▸ hr', hid⟩
      · trivial
    | recordFailure now write =>
      rw [ReportsPending]
      split
      · next a error hplace =>
        intro q hq hsure
        -- The attempt takes an acknowledgement back: the publication is pending again.
        have hstep : ∃ w', w.step (.deliver (.recordFailure now write)) = some w' ∧
            w'.store.queue = PublicationQueue.modify (·.recordFailure now error)
              a.initial.publicationId w.store.queue ∧
            w'.store.catalog = w.store.catalog ∧ w'.store.calls = w.store.calls := by
          simp only [QueueDaemon.step, QueueDaemon.deliver, hplace]
          exact ⟨_, rfl, rfl, rfl, rfl⟩
        obtain ⟨w', hs, hqueue, hcatalog, hcalls⟩ := hstep
        have hmem : q.recordFailure now error ∈ w'.store.queue := by
          rw [hqueue]
          exact mem_modifyFirst_of_find hq
        have hsure' : w'.Sure q.projectId := by
          rw [Sure, hcatalog]
          exact hsure
        obtain ⟨t, name, r, hr, hid⟩ := hhonest w' hs _ hmem rfl hsure'
        exact ⟨t, name, r, hcalls ▸ hr, hid⟩
      · trivial
    | _ => trivial
  | writeProject name record persisted => trivial
  | crash =>
    intro q hq hpending hsure
    obtain ⟨_, _, _, hp, -⟩ := hhonest _ rfl q hq hpending hsure
    cases hp

/-- No step leaves a publication pending under a record that promises too much
exactly when every state of the run is honest, and then a record that says
`REMOTELY_DURABLE` while no enqueue and no completion is under way is right. -/
theorem durable_records_have_nothing_pending (catalog : LocalCatalog Oid)
    (refs : String → String → Option Oid) (es : List (QueueDaemonEvent Oid Task))
    (hids : UniqueIds catalog) :
    (Runs.Steps step ReportsPending (initial catalog refs) es ↔
      ∀ done rest u, es = done ++ rest →
        Runs.run step (initial catalog refs) done = some u → u.Honest) ∧
    (Runs.Steps step ReportsPending (initial catalog refs) es →
      ∀ done rest u, es = done ++ rest → Runs.run step (initial catalog refs) done = some u →
        u.Quiet → ∀ q ∈ u.store.queue, q.pending = true → ¬ u.Sure q.projectId) := by
  have hiff : Runs.Steps step ReportsPending (initial catalog refs) es ↔
      ∀ done rest u, es = done ++ rest →
        Runs.run step (initial catalog refs) done = some u → u.Honest :=
    Runs.steps_iff_forall_reached (fun _ _ _ h hok hs => h.step hids hok hs)
      (fun _ h => h.honest) (fun _ _ h => h.reportsPending) (reported_initial catalog refs)
  refine ⟨hiff, fun hok done rest u hes hu hquiet q hq hpending hsure => ?_⟩
  obtain ⟨task, name, p, hp, -⟩ := hiff.mp hok done rest u hes hu q hq hpending hsure
  have hidle := hquiet.1 task
  rw [hp] at hidle
  cases hidle

end Steps

end QueueDaemon

section OneProject

/-- A second report is made between the two halves of a completion, which has seen
an empty queue. -/
def missedReport (task : Fin 2) : List (QueueDaemonEvent ℕ (Fin 2)) :=
  enqueueOne task "pub" 5 ++
    [.start true 6, .next, .load, .complete 7 ackOne .written ""].map .deliver ++
    [.call "prj" "main" 3, .clone, .verify (some 3), .lookUp "late" 8, .updateRef true,
      .push .written, .record true].map (.enqueue task) ++
    [.recordCompletion true "", .deleteRef true, .deleteRef true].map .deliver

theorem missedReport_run : ∃ w : QueueDaemon ℕ (Fin 2),
    Runs.run QueueDaemon.step (.initial currentMain.catalog fun _ _ => none)
      (missedReport 0) = some w ∧
    w.Quiet ∧ w.Sure "prj" ∧ ∃ q ∈ w.store.queue, q.pending = true ∧ q.projectId = "prj" := by
  have htest : ((Runs.run QueueDaemon.step
      (.initial currentMain.catalog fun _ _ => none : QueueDaemon ℕ (Fin 2))
      (missedReport 0)).map fun w =>
        (decide (∀ task, (w.store.calls task).isIdle = true), w.delivery.isCompleting,
          durabilityOf w.store.catalog "prj",
          w.store.queue.any fun q => q.pending && q.projectId == "prj")) =
      some (true, false, some .remotelyDurable, true) := by decide +kernel
  obtain ⟨w, hw, hstate⟩ := Option.map_eq_some_iff.mp htest
  obtain ⟨hidle, hstate⟩ := Prod.mk.inj hstate
  obtain ⟨hdelivery, hstate⟩ := Prod.mk.inj hstate
  obtain ⟨hdurable, hqueue⟩ := Prod.mk.inj hstate
  refine ⟨w, hw, ⟨of_decide_eq_true hidle, hdelivery⟩, hdurable, ?_⟩
  obtain ⟨q, hq, htrue⟩ := List.any_eq_true.mp hqueue
  rw [Bool.and_eq_true, beq_iff_eq] at htrue
  exact ⟨q, hq, htrue⟩

/-- Everything is at rest, the record says `REMOTELY_DURABLE`, and the second
report is pending. -/
theorem missed_report_is_reported_durable : ∃ w : QueueDaemon ℕ (Fin 2),
    Runs.run QueueDaemon.step (.initial currentMain.catalog fun _ _ => none)
      (missedReport 0) = some w ∧
    w.Quiet ∧ ∃ q ∈ w.store.queue, q.pending = true ∧ w.Sure q.projectId := by
  obtain ⟨w, hw, hquiet, hsure, q, hq, hpending, hid⟩ := missedReport_run
  exact ⟨w, hw, hquiet, q, hq, hpending, hid ▸ hsure⟩

/-- The completion of that run does not meet the condition. -/
theorem durable_records_have_nothing_pending_main :
    UniqueIds currentMain.catalog ∧
      ¬ Runs.Steps QueueDaemon.step QueueDaemon.ReportsPending
        (.initial currentMain.catalog fun _ _ => none) (missedReport 0) := by
  refine ⟨uniqueIds_currentMain, fun hok => ?_⟩
  obtain ⟨w, hw, hquiet, hsure, q, hq, hpending, hid⟩ := missedReport_run
  have hrun := QueueDaemon.durable_records_have_nothing_pending currentMain.catalog
    (fun _ _ => none) (missedReport 0) uniqueIds_currentMain
  exact hrun.2 hok (missedReport 0) [] w (List.append_nil _).symm hw hquiet q hq hpending
    (hid ▸ hsure)

end OneProject

end Resync
