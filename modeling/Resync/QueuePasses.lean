import Resync.QueueRefRuns
import Resync.RetryTimes

/-! A pass of `process_publications` over the queue and its file. Every write may fail, and the two
writes of the failure handler end the pass; a pass that comes to its end has dealt with every
publication that was due when it began. -/
namespace Resync

variable {Oid Task : Type}

/-- What stays of a queued publication. -/
def Publication.fixed (p : Publication Oid) : String × String × Branch × ℕ :=
  (p.publicationId, p.projectId, p.branch, p.createdAt)

namespace QueueDelivery

/-- The publications that a pass has still to deal with. -/
def awaits : QueueDelivery Oid → List String
  | .idle => []
  | .pass ids => ids
  | .reading a | .loaded a _ | .failing a _ => a.initial.publicationId :: a.rest
  | .completing a _ _ _ _ | .deleting a _ _ | .failed a _ => a.rest

/-- The attempt with the copy that it works on, until the copy is completed. -/
def attempted : QueueDelivery Oid → Option (Attempt Oid × Publication Oid)
  | .loaded a p => some (a, p)
  | _ => none

def isIdle : QueueDelivery Oid → Bool
  | .idle => true
  | _ => false

theorem eq_idle {d : QueueDelivery Oid} (h : d.isIdle = true) : d = .idle := by
  cases d with
  | idle => rfl
  | _ => cases h

end QueueDelivery

/-- The daemon stops, or a write of the failure handler fails; a pass does not come to its end. -/
def QueueDaemonEvent.cutsShort : QueueDaemonEvent Oid Task → Bool
  | .crash | .deliver (.recordFailure _ (.failed _)) | .deliver (.noteFailure false) => true
  | _ => false

namespace QueueDaemon

/-- The publication is acknowledged, or a failure was recorded in these steps. -/
def Settled (es : List (QueueDaemonEvent Oid Task)) (q : Publication Oid) : Prop :=
  q.pending = false ∨ ∃ t, .deliver (.recordFailure t .written) ∈ es ∧ q.lastAttemptAt = some t ∧
    q.nextAttemptAt = some (t + retryDelay)

/-- Of the publications that were due, those that are not settled are still awaited. -/
structure Dealing (due : List String) (es : List (QueueDaemonEvent Oid Task))
    (w : QueueDaemon Oid Task) : Prop where
  referenced : Referenced w
  issued : ∀ id ∈ due, id ∈ w.store.issued
  flight : ∀ task p, (w.store.calls task).inFlight = some p → p.publicationId ∉ due
  settled : ∀ q ∈ w.store.queue, q.publicationId ∈ due →
    q.publicationId ∈ w.delivery.awaits ∨ Settled es q
  copy : ∀ a p, w.delivery.attempted = some (a, p) →
    p.publicationId = a.initial.publicationId ∧ ∃ q ∈ w.store.queue, q.fixed = p.fixed

variable {w w' : QueueDaemon Oid Task} {due : List String} {es : List (QueueDaemonEvent Oid Task)}
  {e : QueueDaemonEvent Oid Task} {q : Publication Oid}

theorem Settled.mono (h : Settled es q) (e : QueueDaemonEvent Oid Task) : Settled (es ++ [e]) q :=
  h.imp_right fun ⟨t, hmem, htimes⟩ => ⟨t, List.mem_append_left _ hmem, htimes⟩

theorem Settled.failed (now : ℕ) (error : String) (q : Publication Oid) :
    Settled (es ++ [.deliver (.recordFailure now .written)]) (q.recordFailure now error) :=
  .inr ⟨now, List.mem_append_right _ (List.mem_singleton_self _), rfl, rfl⟩

/-- A step that leaves the queue as it is, and makes no publication. -/
theorem Dealing.keep (h : Dealing due es w) (hreferenced : Referenced w')
    (hqueue : w'.store.queue = w.store.queue) (hissued : w'.store.issued = w.store.issued)
    (hflight : ∀ t p, (w'.store.calls t).inFlight = some p →
      (w.store.calls t).inFlight = some p)
    (hawaits : ∀ q ∈ w.store.queue, q.publicationId ∈ w.delivery.awaits →
      q.publicationId ∈ w'.delivery.awaits ∨ q.pending = false)
    (hcopy : ∀ a p, w'.delivery.attempted = some (a, p) →
      p.publicationId = a.initial.publicationId ∧ ∃ q ∈ w.store.queue, q.fixed = p.fixed) :
    Dealing due (es ++ [e]) w' where
  referenced := hreferenced
  issued id hid := hissued ▸ h.issued id hid
  flight task p hp := h.flight task p (hflight task p hp)
  settled q hq hdue := by
    rw [hqueue] at hq
    rcases h.settled q hq hdue with hwait | hdone
    · exact (hawaits q hq hwait).imp_right .inl
    · exact .inr (hdone.mono e)
  copy a p hp := hqueue ▸ hcopy a p hp

/-- The queue is rewritten, and what is still awaited may be less than before. -/
theorem Dealing.rewrite (h : Dealing due es w) (hreferenced : Referenced w')
    (hissued : w'.store.issued = w.store.issued) (hcalls : w'.store.calls = w.store.calls)
    (hqueue : ∀ q ∈ w'.store.queue, q.publicationId ∈ w'.delivery.awaits ∨
      Settled (es ++ [e]) q ∨ q ∈ w.store.queue ∧
        (q.publicationId ∈ w.delivery.awaits → q.publicationId ∈ w'.delivery.awaits))
    (hcopy : w'.delivery.attempted = none) : Dealing due (es ++ [e]) w' where
  referenced := hreferenced
  issued id hid := hissued ▸ h.issued id hid
  flight task p hp := h.flight task p (hcalls ▸ hp)
  settled q hq hdue := by
    rcases hqueue q hq with hwait | hdone | ⟨hq, hmono⟩
    · exact .inl hwait
    · exact .inr hdone
    · exact (h.settled q hq hdue).imp hmono fun hdone => hdone.mono e
  copy a p hp := by
    rw [hcopy] at hp
    cases hp

theorem mem_awaits_of_ne {id : String} {a : Attempt Oid}
    (h : id ∈ a.initial.publicationId :: a.rest) (hne : id ≠ a.initial.publicationId) :
    id ∈ a.rest := (List.mem_cons.mp h).resolve_left hne

theorem completes_of_fixed {p q : Publication Oid} (h : q.fixed = p.fixed)
    (hpending : q.pending = true) : p.completes q = true := by
  simp only [Publication.fixed, Prod.mk.injEq] at h
  exact Publication.completes_iff.mpr ⟨hpending, h.2.1, h.2.2.1, h.2.2.2.le⟩

/-- With IDs of their own, the publication of the ID is modified and no other. -/
theorem modify_eq_map {f : Publication Oid → Publication Oid} {id : String}
    {queue : List (Publication Oid)} (h : (queue.map (·.publicationId)).Nodup) :
    PublicationQueue.modify f id queue =
      queue.map fun q => if q.publicationId = id then f q else q := by
  induction queue with
  | nil => rfl
  | cons p queue ih =>
    rw [List.map_cons, List.nodup_cons] at h
    rw [List.map_cons]
    by_cases hid : p.publicationId = id
    · have hrest : queue.map (fun q => if q.publicationId = id then f q else q) = queue := by
        have hne : ∀ q ∈ queue, q.publicationId ≠ id := fun q hq hqid =>
          h.1 (List.mem_map.mpr ⟨q, hq, hqid.trans hid.symm⟩)
        calc queue.map (fun q => if q.publicationId = id then f q else q)
          _ = queue.map fun q => q := List.map_congr_left fun q hq => if_neg (hne q hq)
          _ = queue := List.map_id' queue
      rw [if_pos hid, hrest]
      exact if_pos (beq_iff_eq.mpr hid)
    · rw [if_neg hid, ← ih h.2]
      exact if_neg fun hbeq => hid (beq_iff_eq.mp hbeq)

/-- What is left of a publication in a queue in which one was modified. -/
theorem Distinct.mem_modify (h : Distinct w) {f : Publication Oid → Publication Oid} {id : String}
    (hq : q ∈ PublicationQueue.modify f id w.store.queue) :
    q ∈ w.store.queue ∧ q.publicationId ≠ id ∨
      ∃ p ∈ w.store.queue, p.publicationId = id ∧ q = f p := by
  rw [modify_eq_map h.queue] at hq
  obtain ⟨p, hp, rfl⟩ := List.mem_map.mp hq
  split
  · next hid => exact .inr ⟨p, hp, hid, rfl⟩
  · next hid => exact .inl ⟨hp, hid⟩

theorem Dealing.deliver (h : Dealing due es w) {e : QueueDeliveryEvent Oid}
    (hreferenced : Referenced w') (he : (.deliver e : QueueDaemonEvent Oid Task).cutsShort = false)
    (hs : w.deliver e = some w') : Dealing due (es ++ [.deliver e]) w' := by
  have hdistinct := h.referenced.distinct
  have hcopy := h.copy
  -- the attempt goes on with its copy, or without one
  have hon {u : QueueDaemon Oid Task} {d : QueueDelivery Oid} (hplace : w.delivery = d)
      (hreferenced : Referenced u) (hqueue : u.store.queue = w.store.queue)
      (hissued : u.store.issued = w.store.issued) (hcalls : u.store.calls = w.store.calls)
      (hawaits : ∀ id ∈ d.awaits, id ∈ u.delivery.awaits)
      (hattempted : u.delivery.attempted = none) :
      Dealing due (es ++ [.deliver e]) u := by
    refine h.keep hreferenced hqueue hissued (fun t p hp => hcalls ▸ hp)
      (fun q _ hq => .inl (hawaits _ (hplace ▸ hq))) fun a p hp => ?_
    rw [hattempted] at hp
    cases hp
  cases deliveryStep_of_deliver hs with
  | starts place => exact hon place hreferenced rfl rfl rfl (fun id hid => by cases hid) rfl
  | ends place | isDelivered place => exact hon place hreferenced rfl rfl rfl (fun _ => id) rfl
  | @takes id ids p place found =>
    have hid : p.publicationId = id := (PublicationQueue.findPending_eq_some found).2.1
    refine hon place hreferenced rfl rfl rfl (fun id' hid' => ?_) rfl
    change id' ∈ p.publicationId :: ids
    rwa [hid]
  -- a publication that was compacted meanwhile, or is delivered, needs no attempt
  | @skips id ids place none =>
    refine h.keep hreferenced rfl rfl (fun _ _ hp => hp) (fun q hq hwait => ?_)
      fun a p hp => by cases hp
    rw [place] at hwait
    rcases List.mem_cons.mp hwait with hid | hid
    · have hno := List.find?_eq_none.mp none q hq
      rw [hid, beq_self_eq_true, Bool.true_and, Bool.not_eq_true] at hno
      exact .inr hno
    · exact .inl hid
  | losesRace place | disappears place | retries place | disappearsReconciled place
  | fails place => exact hon place hreferenced rfl rfl rfl (fun _ => id) rfl
  | @loads a n p place left found pending =>
    refine h.keep hreferenced rfl rfl (fun _ _ hp => hp) (fun q _ hq => .inl ?_) fun a' p' hp => ?_
    · rw [place] at hq
      exact hq
    · obtain ⟨rfl, rfl⟩ := Prod.mk.inj (Option.some.inj hp)
      obtain ⟨hmem, hid⟩ := PublicationQueue.find_eq_some found
      exact ⟨hid, p, hmem, rfl⟩
  | @isDone a n p place left found pending =>
    refine h.keep hreferenced rfl rfl (fun _ _ hp => hp) (fun q hq hwait => ?_)
      fun a p hp => by cases hp
    rw [place] at hwait
    -- the IDs are distinct, so the publication that was found is this one
    by_cases hid : q.publicationId = a.initial.publicationId
    · obtain ⟨hmem, hpid⟩ := PublicationQueue.find_eq_some found
      rw [hdistinct.unique hq hmem (hid.trans hpid.symm)]
      exact .inr (Bool.not_eq_true _ ▸ pending)
    · exact .inl (mem_awaits_of_ne hwait hid)
  | @retargets a p x now candidate remoteHead write error place found =>
    have hstays : ∀ q ∈ PublicationQueue.modify (·.retarget now candidate remoteHead)
        p.publicationId w.store.queue, q.publicationId ∈ a.initial.publicationId :: a.rest ∨
          q ∈ w.store.queue := by
      intro q hq
      rcases hdistinct.mem_modify hq with ⟨hq, -⟩ | ⟨r, hr, hid, rfl⟩
      · exact .inr hq
      · rw [place] at hcopy
        obtain ⟨hpid, -⟩ := hcopy a p rfl
        exact .inl (List.mem_cons.mpr (.inl (hid.trans hpid)))
    have hwaits : ∀ id ∈ w.delivery.awaits, id ∈ a.initial.publicationId :: a.rest := by
      intro id hid
      rwa [place] at hid
    cases write with
    | written =>
      exact h.rewrite hreferenced rfl rfl (fun q hq => (hstays q hq).imp_right fun hq =>
        .inr ⟨hq, hwaits _⟩) rfl
    | failed replaced =>
      exact h.rewrite hreferenced rfl rfl (fun q hq => (hstays q hq).imp_right fun hq =>
        .inr ⟨hq, hwaits _⟩) rfl
  | @completes a p now ack write error place =>
    rw [place] at hcopy
    obtain ⟨hpid, x, hx, hfixed⟩ := hcopy a p rfl
    -- the publication of the attempt is acknowledged in memory, written or not
    have hdone : ∀ q ∈ PublicationQueue.complete now p ack w.store.queue, q.pending = false ∨
        q ∈ w.store.queue ∧ q.publicationId ≠ a.initial.publicationId := by
      intro q hq
      obtain ⟨r, hr, rfl⟩ := List.mem_map.mp ((PublicationQueue.compact_sublist _).subset hq)
      split
      · exact .inl rfl
      · next hcompletes =>
        by_cases hid : r.publicationId = a.initial.publicationId
        · have hxid : x.publicationId = p.publicationId := congrArg Prod.fst hfixed
          have hrx := hdistinct.unique hx hr ((hxid.trans hpid).trans hid.symm)
          refine .inl (Bool.eq_false_iff.mpr fun hpending => hcompletes ?_)
          exact completes_of_fixed (hrx ▸ hfixed) hpending
        · exact .inr ⟨hr, hid⟩
    have hwaits : ∀ id ∈ w.delivery.awaits, id ∈ a.initial.publicationId :: a.rest := by
      intro id hid
      rwa [place] at hid
    cases write with
    | written =>
      refine h.rewrite hreferenced rfl rfl (fun q hq => .inr ?_) rfl
      exact (hdone q hq).imp .inl fun hq => ⟨hq.1, fun hwait =>
        mem_awaits_of_ne (hwaits _ hwait) hq.2⟩
    | failed replaced =>
      refine h.rewrite hreferenced rfl rfl (fun q hq => .inr ?_) rfl
      exact (hdone q hq).imp .inl fun hq => ⟨hq.1, hwaits _⟩
  | missesCompleted place =>
    exact hon place hreferenced rfl rfl rfl (fun _ hid => List.mem_cons_of_mem _ hid) rfl
  | @records a p ack completed hasPending persisted error project place found =>
    cases persisted with
    | true => exact hon place hreferenced rfl rfl rfl (fun _ => id) rfl
    | false =>
      exact hon place hreferenced rfl rfl rfl (fun _ hid => List.mem_cons_of_mem _ hid) rfl
  | @deletes a path id ids deleted place =>
    cases deleted <;> exact hon place hreferenced rfl rfl rfl (fun _ => fun hid => hid) rfl
  | @recordsFailure a error now write place =>
    cases write with
    | failed replaced => cases he
    | written =>
      refine h.rewrite hreferenced rfl rfl (fun q hq => .inr ?_) rfl
      rcases hdistinct.mem_modify hq with ⟨hq, hid⟩ | ⟨r, hr, hid, rfl⟩
      · refine .inr ⟨hq, fun hwait => ?_⟩
        rw [place] at hwait
        exact mem_awaits_of_ne hwait hid
      · exact .inl (Settled.failed now error r)
  | @notesFailure a error persisted place =>
    cases persisted with
    | true => exact hon place hreferenced rfl rfl rfl (fun _ => id) rfl
    | false => cases he

section Steps

variable [DecidableEq Oid] [DecidableEq Task]

theorem Dealing.enqueue (h : Dealing due es w) {task : Task} {e : EnqueueEvent Oid}
    (hs : w.step (.enqueue task e) = some w') : Dealing due (es ++ [.enqueue task e]) w' := by
  have hreferenced := h.referenced.step hs
  obtain ⟨hdelivery, hcalls, ⟨hsame, hnone⟩ | ⟨name, project, p, hcreates⟩ |
    ⟨name, project, p, hrefs⟩ | ⟨name, p, write, -, hpushes⟩⟩ := enqueue_cases hs
  · refine h.keep hreferenced hsame.queue hsame.issued (fun t p hp => ?_)
      (fun q _ hq => .inl (hdelivery ▸ hq)) (hdelivery ▸ h.copy)
    rcases inFlight_cases hcalls hp with ⟨-, hp⟩ | ⟨-, hp⟩
    · exact hp
    · rw [hnone] at hp
      cases hp
  · refine ⟨hreferenced, fun id hid => ?_, fun t r hr hdue => ?_, fun q hq hdue => ?_, ?_⟩
    · rw [hcreates.issued]
      exact List.mem_cons_of_mem _ (h.issued id hid)
    · rcases inFlight_cases hcalls hr with ⟨-, hr⟩ | ⟨-, hr⟩
      · exact h.flight t r hr hdue
      · rw [hcreates.call'] at hr
        obtain rfl := Option.some.inj hr
        exact hcreates.fresh (h.issued _ hdue)
    · rw [hcreates.queue] at hq
      rw [hdelivery]
      exact (h.settled q hq hdue).imp_right fun hdone => hdone.mono _
    · rw [hdelivery, hcreates.queue]
      exact h.copy
  · refine h.keep hreferenced hrefs.queue hrefs.issued (fun t r hr => ?_)
      (fun q _ hq => .inl (hdelivery ▸ hq)) (hdelivery ▸ h.copy)
    rcases inFlight_cases hcalls hr with ⟨-, hr⟩ | ⟨rfl, hr⟩
    · exact hr
    · rw [hrefs.call'] at hr
      rw [hrefs.call]
      exact hr
  · have hown : (w.store.calls task).inFlight = some p := by
      rw [hpushes.call]
      rfl
    have hlanded : (w'.store.calls task).inFlight = none := by
      rw [hpushes.call']
      cases write <;> rfl
    refine ⟨hreferenced, fun id hid => ?_, fun t r hr => ?_, fun q hq hdue => ?_, fun a r hr => ?_⟩
    · rw [hpushes.issued]
      exact h.issued id hid
    · rcases inFlight_cases hcalls hr with ⟨-, hr⟩ | ⟨-, hr⟩
      · exact h.flight t r hr
      · rw [hlanded] at hr
        cases hr
    · rw [hdelivery]
      rw [hpushes.queue] at hq
      rcases List.mem_append.mp hq with hold | hnew
      · exact (h.settled q hold hdue).imp_right fun hdone => hdone.mono _
      · rw [List.mem_singleton.mp hnew] at hdue
        exact absurd hdue (h.flight task p hown)
    · rw [hdelivery] at hr
      obtain ⟨hid, q, hq, hfixed⟩ := h.copy a r hr
      exact ⟨hid, q, hpushes.queue ▸ List.mem_append_left _ hq, hfixed⟩

theorem Dealing.step (h : Dealing due es w) (he : e.cutsShort = false) (hs : w.step e = some w') :
    Dealing due (es ++ [e]) w' := by
  have hreferenced := h.referenced.step hs
  cases e with
  | enqueue task e => exact h.enqueue hs
  | deliver e => exact h.deliver hreferenced he hs
  | writeProject name record persisted =>
    simp only [QueueDaemon.step] at hs
    split at hs
    · split at hs
      · obtain rfl := Option.some.inj hs
        exact h.keep hreferenced rfl rfl (fun _ _ hp => hp) (fun q _ hq => .inl hq) h.copy
      · cases hs
    · cases hs
  | crash => cases he

end Steps

/-- A report of commit `1` of `main`. -/
def reportOne (task : Fin 2) : List (QueueDaemonEvent ℕ (Fin 2)) :=
  [.call "prj" "main" 1, .clone, .verify (some 1), .lookUp "pub" 5, .updateRef true, .push .written,
    .record true].map (.enqueue task)

end QueueDaemon

end Resync
