import Resync.QueueRefs

/-! The deliveries keep the refs of the pending publications: a ref is deleted
when its publication is acknowledged on disk, and no failure takes that back. -/
namespace Resync

variable {Oid Task : Type}

namespace QueueDaemon

variable {w w' : QueueDaemon Oid Task}

/-- The delivery goes to another place. -/
theorem Referenced.place (h : Referenced w) {d : QueueDelivery Oid} (hd : Stands w d) :
    Referenced (w.setDelivery d) where
  distinct := h.distinct.keep rfl rfl rfl fun _ _ hp => hp
  pending := h.pending
  referenced := h.referenced
  stands := hd.keep (fun _ ha => ha) fun _ hid =>
    hid.keep (fun _ hx => hx) (fun _ hq => Or.inl hq) fun _ _ hp => Or.inl hp

/-- A record is written, and the delivery goes to another place. -/
theorem Referenced.setProject (h : Referenced w) {d : QueueDelivery Oid} (hd : Stands w d)
    (name : String) (f : LocalProject Oid → LocalProject Oid) (persisted : Bool) :
    Referenced ((w.setProject name f persisted).setDelivery d) where
  distinct := h.distinct.keep rfl rfl rfl fun _ _ hp => hp
  pending := h.pending
  referenced := h.referenced
  stands := hd.keep (fun _ ha => ha) fun _ hid =>
    hid.keep (fun _ hx => hx) (fun _ hq => Or.inl hq) fun _ _ hp => Or.inl hp

/-- What a write of the queue by the delivery leaves: publications that were there
before with the same ID and the same commit. -/
def Rewrites (queue queue' : List (Publication Oid)) : Prop :=
  (queue'.map (·.publicationId)).Sublist (queue.map (·.publicationId)) ∧
    ∀ q ∈ queue', ∃ r ∈ queue, q.publicationId = r.publicationId ∧
      q.sourceCommitOid = r.sourceCommitOid

theorem Held.rewrite {a : Attempt Oid} (h : Held w a) {queue : List (Publication Oid)}
    {write : FileWrite} (hqueue : Rewrites w.store.queue queue) :
    Held (w.setQueue queue write) a := by
  intro q hq hid
  obtain ⟨r, hr, hrid, hsource⟩ := hqueue.2 q hq
  exact hasRef_of_same rfl rfl hrid hsource (h r hr (hrid.symm.trans hid))

theorem Referenced.rewrite (h : Referenced w) {queue : List (Publication Oid)}
    {write : FileWrite} {d : QueueDelivery Oid} (hqueue : Rewrites w.store.queue queue)
    (hpending : ∀ q ∈ queue, q.pending = true → w.HasRef q)
    (hd : Stands (w.setQueue queue write) d) :
    Referenced ((w.setQueue queue write).setDelivery d) where
  distinct := (h.distinct.setQueue hqueue.1).keep rfl rfl rfl fun _ _ hp => hp
  pending q hq hp := by
    rcases hq with hq | hq
    · exact hasRef_of_same rfl rfl rfl rfl (hpending q hq hp)
    · have hq : q ∈ if write.replaces then queue else w.store.file := hq
      split at hq
      · exact hasRef_of_same rfl rfl rfl rfl (hpending q hq hp)
      · exact hasRef_of_same rfl rfl rfl rfl (h.pending q (Or.inr hq) hp)
  referenced := h.referenced
  stands := hd.keep (fun _ ha => ha) fun _ hid =>
    hid.keep (fun _ hx => hx) (fun _ hq => Or.inl hq) fun _ _ hp => Or.inl hp

theorem rewrites_modify {f : Publication Oid → Publication Oid} (id : String)
    (hf : ∀ p, (f p).publicationId = p.publicationId ∧ (f p).sourceCommitOid = p.sourceCommitOid)
    (queue : List (Publication Oid)) : Rewrites queue (PublicationQueue.modify f id queue) := by
  refine ⟨?_, fun q hq => ?_⟩
  · rw [PublicationQueue.modify, map_modifyFirst _ _ fun p _ => (hf p).1]
  · rcases mem_modifyFirst hq with hq | ⟨p, hp, rfl⟩
    · exact ⟨q, hq, rfl, rfl⟩
    · exact ⟨p, List.mem_of_find?_eq_some hp, hf p⟩

theorem rewrites_complete (now : ℕ) (p : Publication Oid) (ack : PublicationAck Oid)
    (queue : List (Publication Oid)) :
    Rewrites queue (PublicationQueue.complete now p ack queue) := by
  refine ⟨PublicationQueue.complete_ids now p ack queue, fun q hq => ?_⟩
  obtain ⟨r, hr, rfl⟩ := List.mem_map.mp ((PublicationQueue.compact_sublist _).subset hq)
  refine ⟨r, hr, ?_⟩
  split <;> exact ⟨rfl, rfl⟩

/-- What a completion has marked and written is spent. -/
theorem Distinct.spent (h : Distinct w) {now : ℕ} {p : Publication Oid}
    {ack : PublicationAck Oid} {id : String}
    (hid : id ∈ (PublicationQueue.marked now p ack w.store.queue).map (·.publicationId)) :
    Spent (w.setQueue (PublicationQueue.complete now p ack w.store.queue) .written) id := by
  obtain ⟨m, hm, rfl⟩ := List.mem_map.mp hid
  obtain ⟨r, hr, rfl⟩ := List.mem_map.mp hm
  obtain ⟨hmem, hcompletes⟩ := List.mem_filter.mp hr
  refine ⟨h.issued r (Or.inl hmem), fun q hq hqid => ?_, fun task s hs hsid => ?_⟩
  · -- the file has been written, so it is the queue in memory
    have hq : q ∈ PublicationQueue.complete now p ack w.store.queue := by
      rcases hq with hq | hq
      · exact hq
      · exact hq
    rw [← Bool.not_eq_true]
    intro hpending
    obtain ⟨hold, hnot⟩ := PublicationQueue.pending_of_mem_complete hq hpending
    rw [h.unique hold hmem hqid, hcompletes] at hnot
    cases hnot
  · exact (h.flight task s hs).2 r (Or.inl hmem) hsid.symm

/-- Deleting the ref of a spent publication. -/
theorem Referenced.deleteRef (h : Referenced w) {a : Attempt Oid} {path id : String}
    {ids : List String} (hspent : ∀ x ∈ id :: ids, Spent w x) :
    Referenced ((w.deleteRef path id).setDelivery (.deleting a path ids)) := by
  have hkeeps : ∀ q, q.publicationId ≠ id → w.HasRef q →
      ((w.deleteRef path id).setDelivery (.deleting a path ids)).HasRef q := by
    intro q hne hq
    change Function.update w.store.refs path _ (w.origins q.publicationId) q.publicationId = _
    by_cases hpath : w.origins q.publicationId = path
    · rw [hpath, Function.update_self, Function.update_of_ne hne, ← hpath]
      exact hq
    · rw [Function.update_of_ne hpath]
      exact hq
  have hid := hspent id List.mem_cons_self
  refine ⟨h.distinct.keep rfl rfl rfl fun _ _ hp => hp, fun q hq hpending => ?_,
    fun task name p hp => ?_, fun x hx => ?_⟩
  · refine hkeeps q (fun hsame => ?_) (h.pending q hq hpending)
    rw [hid.acknowledged q hq hsame] at hpending
    cases hpending
  · have hflight : (w.store.calls task).inFlight = some p := by
      rw [show w.store.calls task = .referenced name p from hp]
      rfl
    exact hkeeps p (hid.landed task p hflight) (h.referenced task name p hp)
  · exact (hspent x (List.mem_cons_of_mem id hx)).keep (fun _ hx => hx) (fun _ hq => Or.inl hq)
      fun _ _ hp => Or.inl hp

/-- One step of a delivery. -/
theorem Referenced.deliver (h : Referenced w) {e : QueueDeliveryEvent Oid}
    (hs : w.deliver e = some w') : Referenced w' := by
  have hstands := h.stands
  cases deliveryStep_of_deliver hs with
  | starts | ends | skips | isDone | isDelivered => exact h.place trivial
  | takes place found =>
    obtain ⟨hmem, -, hpending⟩ := PublicationQueue.findPending_eq_some found
    apply h.place
    intro q hq hid
    rw [h.distinct.unique hq hmem hid]
    exact h.pending _ (Or.inl hmem) hpending
  | losesRace place | disappears place | loads place | retries place | disappearsReconciled place
  | fails place =>
    rw [place] at hstands
    exact h.place hstands
  | @retargets a p x now candidate remoteHead write error place =>
    rw [place] at hstands
    have hqueue := rewrites_modify (f := (·.retarget now candidate remoteHead)) p.publicationId
      (fun _ => ⟨rfl, rfl⟩) w.store.queue
    have hheld : Held (w.setQueue (PublicationQueue.modify
        (·.retarget now candidate remoteHead) p.publicationId w.store.queue) write) a :=
      Held.rewrite hstands hqueue
    refine h.rewrite hqueue (fun q hq hpending => ?_) ?_
    · rcases mem_modifyFirst hq with hq | ⟨x, hx, rfl⟩
      · exact h.pending q (Or.inl hq) hpending
      · exact hasRef_of_same rfl rfl rfl rfl
          (h.pending x (Or.inl (List.mem_of_find?_eq_some hx)) hpending)
    · cases write <;> exact hheld
  | @completes a p now ack write error place =>
    rw [place] at hstands
    have hqueue := rewrites_complete now p ack w.store.queue
    have hheld : ∀ write, Held (w.setQueue
        (PublicationQueue.complete now p ack w.store.queue) write) a :=
      fun _ => Held.rewrite hstands hqueue
    refine h.rewrite hqueue (fun q hq hpending => ?_) ?_
    · exact h.pending q (Or.inl (PublicationQueue.pending_of_mem_complete hq hpending).1) hpending
    · cases write with
      | written => exact ⟨hheld .written, fun id hid => h.distinct.spent hid⟩
      | failed replaced => exact hheld _
  | missesCompleted place =>
    rw [place] at hstands
    exact h.place hstands.1
  | @records a p ack completed hasPending persisted error project place =>
    rw [place] at hstands
    apply h.setProject
    cases persisted with
    | true => exact hstands.2
    | false => exact hstands.1
  | @deletes a path id ids deleted place =>
    rw [place] at hstands
    cases deleted with
    | true => exact h.deleteRef hstands
    | false => exact h.place fun x hx => hstands x (List.mem_cons_of_mem id hx)
  | @recordsFailure a error now write place =>
    rw [place] at hstands
    have hqueue := rewrites_modify (f := (·.recordFailure now error)) a.initial.publicationId
      (fun _ => ⟨rfl, rfl⟩) w.store.queue
    refine h.rewrite hqueue (fun q hq hpending => ?_) ?_
    · rcases mem_modifyFirst hq with hq | ⟨x, hx, rfl⟩
      · exact h.pending q (Or.inl hq) hpending
      · -- it may have been acknowledged, but the attempt has not come to the deletions
        obtain ⟨hmem, hid⟩ := PublicationQueue.find_eq_some hx
        exact hasRef_of_same rfl rfl rfl rfl (hstands x hmem hid)
    · cases write <;> trivial
  | @notesFailure a error persisted =>
    apply h.setProject
    cases persisted <;> trivial

theorem referenced_initial (catalog : LocalCatalog Oid) (refs : String → String → Option Oid) :
    Referenced (initial catalog refs : QueueDaemon Oid Task) where
  distinct := by
    refine ⟨List.nodup_nil, List.nodup_nil, ?_, fun _ _ hp => ?_, fun _ _ _ _ hp => ?_⟩
    · rintro q (hq | hq)
      · cases hq
      · cases hq
    · cases hp
    · cases hp
  pending q hq := by
    rcases hq with hq | hq
    · cases hq
    · cases hq
  referenced _ _ _ hp := by cases hp
  stands := trivial

section Steps

variable [DecidableEq Oid] [DecidableEq Task]

/-- A daemon that starts from its files has no call and no delivery under way. -/
theorem Referenced.crash (h : Referenced w)
    (hs : w.step .crash = some w') : Referenced w' := by
  obtain rfl := Option.some.inj hs
  have hstored : ∀ q, q ∈ w.store.file ∨ q ∈ w.store.file → w.Stored q :=
    fun q hq => Or.inr (hq.elim id id)
  refine ⟨⟨h.distinct.file, h.distinct.file, fun q hq => h.distinct.issued q (hstored q hq),
    fun _ _ hp => ?_, fun _ _ _ _ hp => ?_⟩, fun q hq => h.pending q (hstored q hq),
    fun _ _ _ hp => ?_, trivial⟩
  · cases hp
  · cases hp
  · cases hp

/-- The step lemma. -/
theorem Referenced.step (h : Referenced w) {e : QueueDaemonEvent Oid Task}
    (hs : w.step e = some w') : Referenced w' := by
  cases e with
  | enqueue task e => exact h.enqueue hs
  | deliver e => exact h.deliver hs
  | writeProject name record persisted =>
    simp only [QueueDaemon.step] at hs
    split at hs
    · split at hs
      · obtain rfl := Option.some.inj hs
        exact h.setProject h.stands name _ persisted
      · cases hs
    · cases hs
  | crash => exact h.crash hs

/-- The run lemma: whatever the order of the steps, whichever of them fail, and
wherever the daemon stops, a publication that is pending in memory or on disk
has its ref at its source commit, in the repository that it was queued from. -/
theorem pending_publications_have_refs (catalog : LocalCatalog Oid)
    (refs : String → String → Option Oid) (es : List (QueueDaemonEvent Oid Task)) :
    ∀ w', Runs.run step (initial catalog refs) es = some w' →
      ∀ q, w'.Stored q → q.pending = true → w'.HasRef q := by
  intro w' hr
  have hall : Runs.Steps step (fun _ _ => True) (initial catalog refs) es :=
    Runs.Steps.of_forall (fun _ _ _ => trivial) _
  have hreferenced : Referenced w' :=
    Runs.run_invariant (fun _ _ _ h _ hs => h.step hs) (referenced_initial catalog refs) hall hr
  exact hreferenced.pending

end Steps

end QueueDaemon

section OneProject

/-- A report of commit `1` of `main`, up to its answer. -/
def enqueueOne (task : Fin 2) (id : String) (now : ℕ) : List (QueueDaemonEvent ℕ (Fin 2)) :=
  [.call "prj" "main" 1, .clone, .verify (some 1), .lookUp id now, .updateRef true,
    .push .written, .record true].map (.enqueue task)

def ackOne : PublicationAck ℕ where
  publicationId := "pub"
  attempt := 1
  projectId := "prj"
  branch := "main"
  acceptedOid := 1
  remoteHead := 1
  projectGeneration := 0
  durable := true

/-- A delivery that completes the publication, cannot write `catalog.json`, and so
takes the acknowledgement back. -/
def takeBack : List (QueueDaemonEvent ℕ (Fin 2)) :=
  [.start true 6, .next, .load, .complete 7 ackOne .written "", .recordCompletion false "disk full",
    .recordFailure 8 .written].map .deliver

theorem pending_publications_have_refs_one :
    (∃ w : QueueDaemon ℕ (Fin 2), Runs.run QueueDaemon.step
        (.initial currentMain.catalog fun _ _ => none) (enqueueOne 0 "pub" 5 ++ takeBack) = some w ∧
      w.store.queue.map (·.pending) = [true]) ∧
    ∀ w : QueueDaemon ℕ (Fin 2), Runs.run QueueDaemon.step
        (.initial currentMain.catalog fun _ _ => none) (enqueueOne 0 "pub" 5 ++ takeBack) = some w →
      ∀ q, w.Stored q → q.pending = true → w.HasRef q := by
  refine ⟨?_, QueueDaemon.pending_publications_have_refs _ _ _⟩
  have htest : ((Runs.run QueueDaemon.step
      (.initial currentMain.catalog fun _ _ => none : QueueDaemon ℕ (Fin 2))
      (enqueueOne 0 "pub" 5 ++ takeBack)).map fun w => w.store.queue.map (·.pending)) =
        some [true] := by decide +kernel
  obtain ⟨w, hw, hpending⟩ := Option.map_eq_some_iff.mp htest
  exact ⟨w, hw, hpending⟩

end OneProject

end Resync
