import Mathlib.Data.Fintype.Basic
import Resync.QueueRefRuns

/-! A repeated report is recognized by a search of the queue, and a new publication
is put in later, under another lock. So the queue has two pending publications of
one commit as soon as something has come between. -/
namespace Resync

variable {Oid Task : Type}

/-- What a publication is pending for. -/
def Publication.pendingSource (p : Publication Oid) : Option (String × Branch × Oid) :=
  if p.pending then some p.source else none

def PublicationQueue.pendingSources (queue : List (Publication Oid)) :
    List (String × Branch × Oid) := queue.filterMap (·.pendingSource)

namespace QueueDaemon

/-- The queue has no two pending publications of one project, branch and commit. -/
def Single (w : QueueDaemon Oid Task) : Prop :=
  (PublicationQueue.pendingSources w.store.queue).Nodup

/-- The publication that the attempt under way has acknowledged in memory, and that its failure
would make pending again. -/
def acknowledgedAttempt (w : QueueDaemon Oid Task) : Option (Publication Oid) :=
  match w.delivery with
  | .completing a _ _ _ _ | .failing a _ =>
    (PublicationQueue.find w.store.queue a.initial.publicationId).filter fun q => !q.pending
  | _ => none

/-- No other call for the commit stands between its search of the queue and its push, and no
attempt that has acknowledged a publication of the commit can still fail. -/
structure Unraced (w : QueueDaemon Oid Task) (source : String × Branch × Oid) : Prop where
  calls : ∀ task, ∀ p ∈ (w.store.calls task).inFlight, p.source ≠ source
  attempt : ∀ q ∈ w.acknowledgedAttempt, q.source ≠ source

instance [DecidableEq Oid] [Fintype Task] (w : QueueDaemon Oid Task)
    (source : String × Branch × Oid) : Decidable (w.Unraced source) :=
  decidable_of_iff ((∀ task, ∀ p ∈ (w.store.calls task).inFlight, p.source ≠ source) ∧
    ∀ q ∈ w.acknowledgedAttempt, q.source ≠ source)
    ⟨fun h => ⟨h.1, h.2⟩, fun h => ⟨h.calls, h.attempt⟩⟩

/-- The condition on a search that finds no pending publication of the commit. -/
def SearchesAlone [DecidableEq Oid] (w : QueueDaemon Oid Task) : QueueDaemonEvent Oid Task → Prop
  | .enqueue task (.lookUp _ _) =>
    match w.store.calls task with
    | .verified _ project b c =>
      PublicationQueue.existing w.store.queue project.projectId b c = none →
        w.Unraced (project.projectId, b, c)
    | _ => True
  | _ => True

instance [DecidableEq Oid] [Fintype Task] (w : QueueDaemon Oid Task)
    (e : QueueDaemonEvent Oid Task) : Decidable (w.SearchesAlone e) := by
  unfold SearchesAlone
  split
  · split <;> infer_instance
  · infer_instance

/-- No publication of the commit is pending or on its way into the queue. -/
structure Free (w : QueueDaemon Oid Task) (source : String × Branch × Oid) : Prop where
  queue : source ∉ PublicationQueue.pendingSources w.store.queue
  flight : ∀ task p, (w.store.calls task).inFlight = some p → p.source ≠ source

/-- What holds where the delivery stands: the publication of an attempt is pending, or it is
acknowledged and its commit is free. -/
def FreeAttempt (w : QueueDaemon Oid Task) : QueueDelivery Oid → Prop
  | .reading a | .loaded a _ =>
    ∀ q ∈ w.store.queue, q.publicationId = a.initial.publicationId → q.pending = true
  | .completing a _ _ _ _ | .failing a _ =>
    ∀ q ∈ w.store.queue, q.publicationId = a.initial.publicationId → q.pending = false →
      w.Free q.source
  | _ => True

/-- The invariant: one publication or one call for each commit. -/
structure Singles (w : QueueDaemon Oid Task) : Prop where
  referenced : Referenced w
  queue : w.Single
  file : (PublicationQueue.pendingSources w.store.file).Nodup
  pending : ∀ task p, (w.store.calls task).inFlight = some p → p.pending = true
  apart : ∀ task task' p p', (w.store.calls task).inFlight = some p →
    (w.store.calls task').inFlight = some p' → p.source = p'.source → task = task'
  absent : ∀ task p, (w.store.calls task).inFlight = some p →
    p.source ∉ PublicationQueue.pendingSources w.store.queue
  attempt : w.FreeAttempt w.delivery

section Sources

variable {queue : List (Publication Oid)} {p : Publication Oid}

theorem pendingSource_of_pending (h : p.pending = true) : p.pendingSource = some p.source :=
  if_pos h

theorem pendingSource_of_acknowledged (h : p.pending = false) : p.pendingSource = none := by
  rw [Publication.pendingSource, h]
  rfl

theorem pendingSources_append (h : p.pending = true) :
    PublicationQueue.pendingSources (queue ++ [p]) =
      PublicationQueue.pendingSources queue ++ [p.source] := by
  rw [PublicationQueue.pendingSources, List.filterMap_append,
    List.filterMap_cons_some (pendingSource_of_pending h)]
  rfl

/-- A write that keeps what its publication is pending for. -/
theorem pendingSources_modify {f : Publication Oid → Publication Oid} (id : String)
    (hf : ∀ p, PublicationQueue.find queue id = some p →
      (f p).pendingSource = p.pendingSource) :
    PublicationQueue.pendingSources (PublicationQueue.modify f id queue) =
      PublicationQueue.pendingSources queue := by
  have hmap : (PublicationQueue.modify f id queue).map (·.pendingSource) =
      queue.map (·.pendingSource) := map_modifyFirst _ _ hf
  have hjoin := congrArg (List.filterMap fun x => x) hmap
  rw [List.filterMap_map, List.filterMap_map] at hjoin
  exact hjoin

/-- A failed attempt takes an acknowledgement back. -/
theorem pendingSources_recordFailure (now : ℕ) (error : String) {id : String}
    (hp : PublicationQueue.find queue id = some p) (hacked : p.pending = false) :
    (PublicationQueue.pendingSources
      (PublicationQueue.modify (·.recordFailure now error) id queue)).Perm
        (p.source :: PublicationQueue.pendingSources queue) :=
  perm_filterMap_modifyFirst hp (pendingSource_of_acknowledged hacked)
    (pendingSource_of_pending rfl)

/-- Each commit is pending for one publication only. -/
theorem eq_of_nodup_filterMap {α β : Type} {f : α → Option β} {xs : List α}
    (h : (xs.filterMap f).Nodup) {x y : α} {b : β} (hx : x ∈ xs) (hy : y ∈ xs)
    (hfx : f x = some b) (hfy : f y = some b) : x = y := by
  induction xs with
  | nil => cases hx
  | cons z xs ih =>
    rcases List.mem_cons.mp hx with rfl | hxs
    · rcases List.mem_cons.mp hy with rfl | hys
      · rfl
      · rw [List.filterMap_cons_some hfx, List.nodup_cons] at h
        exact absurd (List.mem_filterMap.mpr ⟨y, hys, hfy⟩) h.1
    · rcases List.mem_cons.mp hy with rfl | hys
      · rw [List.filterMap_cons_some hfy, List.nodup_cons] at h
        exact absurd (List.mem_filterMap.mpr ⟨x, hxs, hfx⟩) h.1
      · exact ih (h.sublist ((List.sublist_cons_self z xs).filterMap f)) hxs hys

/-- A completion leaves some of the pending publications. -/
theorem pendingSources_complete (now : ℕ) (p : Publication Oid) (ack : PublicationAck Oid)
    (queue : List (Publication Oid)) :
    (PublicationQueue.pendingSources (PublicationQueue.complete now p ack queue)).Sublist
      (PublicationQueue.pendingSources queue) := by
  have hmarked : (PublicationQueue.pendingSources
      (queue.map fun q => if p.completes q then q.acknowledge now ack else q)).Sublist
        (PublicationQueue.pendingSources queue) := by
    induction queue with
    | nil => exact List.Sublist.slnil
    | cons q queue ih =>
      rw [List.map_cons]
      by_cases hc : p.completes q = true
      · rw [if_pos hc, PublicationQueue.pendingSources,
          List.filterMap_cons_none (pendingSource_of_acknowledged rfl)]
        refine ih.trans ?_
        rw [PublicationQueue.pendingSources, PublicationQueue.pendingSources]
        exact (List.sublist_cons_self q queue).filterMap _
      · rw [if_neg hc]
        cases hq : q.pendingSource with
        | none =>
          rw [PublicationQueue.pendingSources, PublicationQueue.pendingSources,
            List.filterMap_cons_none hq, List.filterMap_cons_none hq]
          exact ih
        | some x =>
          rw [PublicationQueue.pendingSources, PublicationQueue.pendingSources,
            List.filterMap_cons_some hq, List.filterMap_cons_some hq]
          exact ih.cons_cons x
  exact ((PublicationQueue.compact_sublist _).filterMap _).trans hmarked

end Sources

section Delivery

variable {w w' : QueueDaemon Oid Task}

theorem singles_initial (catalog : LocalCatalog Oid) (refs : String → String → Option Oid) :
    Singles (initial catalog refs : QueueDaemon Oid Task) where
  referenced := referenced_initial catalog refs
  queue := List.nodup_nil
  file := List.nodup_nil
  pending _ _ hp := by cases hp
  apart _ _ _ _ hp := by cases hp
  absent _ _ hp := by cases hp
  attempt := trivial

/-- The delivery goes to another place, and may write a record or delete a ref. -/
theorem Singles.place (h : Singles w) (hreferenced : Referenced w')
    (hqueue : w'.store.queue = w.store.queue) (hfile : w'.store.file = w.store.file)
    (hcalls : w'.store.calls = w.store.calls) (hattempt : w.FreeAttempt w'.delivery) :
    Singles w' where
  referenced := hreferenced
  queue := by
    rw [Single, hqueue]
    exact h.queue
  file := hfile ▸ h.file
  pending := hcalls ▸ h.pending
  apart := hcalls ▸ h.apart
  absent := by
    rw [hcalls, hqueue]
    exact h.absent
  attempt := by
    have hfree : ∀ {source : String × Branch × Oid}, w.Free source → w'.Free source := by
      intro source hf
      refine ⟨hqueue ▸ hf.queue, hcalls ▸ hf.flight⟩
    cases hd : w'.delivery with
    | reading a | loaded a p =>
      rw [hd] at hattempt
      exact fun q hq => hattempt q (hqueue ▸ hq)
    | completing a p ack completed hasPending | failing a error =>
      rw [hd] at hattempt
      exact fun q hq hid hacked => hfree (hattempt q (hqueue ▸ hq) hid hacked)
    | _ => trivial

/-- The delivery writes the queue, and no more is pending after it. -/
theorem Singles.rewrite (h : Singles w) {queue : List (Publication Oid)} {write : FileWrite}
    {d : QueueDelivery Oid}
    (hreferenced : Referenced ((w.setQueue queue write).setDelivery d))
    (hqueue : (PublicationQueue.pendingSources queue).Nodup)
    (habsent : ∀ task p, (w.store.calls task).inFlight = some p →
      p.source ∉ PublicationQueue.pendingSources queue)
    (hattempt : (w.setQueue queue write).FreeAttempt d) :
    Singles ((w.setQueue queue write).setDelivery d) where
  referenced := hreferenced
  queue := hqueue
  file := by
    change (PublicationQueue.pendingSources
      (if write.replaces then queue else w.store.file)).Nodup
    split
    · exact hqueue
    · exact h.file
  pending := h.pending
  apart := h.apart
  absent := habsent
  attempt := by
    cases d with
    | completing a p ack completed hasPending | failing a error =>
      intro q hq hid hacked
      have hfree := hattempt q hq hid hacked
      exact ⟨hfree.queue, hfree.flight⟩
    | _ => exact hattempt

theorem Singles.deliver (h : Singles w) {e : QueueDeliveryEvent Oid}
    (hreferenced : Referenced w') (hs : w.deliver e = some w') : Singles w' := by
  have hattempt := h.attempt
  have hplace {d : QueueDelivery Oid} (hr : Referenced (w.setDelivery d))
      (hd : w.FreeAttempt d) : Singles (w.setDelivery d) := h.place hr rfl rfl rfl hd
  cases deliveryStep_of_deliver hs with
  | starts place | ends place | skips place none | isDone place left found pending
  | isDelivered place => exact hplace hreferenced trivial
  | @takes id ids p place found =>
    obtain ⟨hp, -, hpending⟩ := PublicationQueue.findPending_eq_some found
    refine hplace hreferenced fun q hq hid => ?_
    rw [h.referenced.distinct.unique hq hp hid]
    exact hpending
  | losesRace place | disappears place | fails place | disappearsReconciled place =>
    rw [place] at hattempt
    refine hplace hreferenced fun q hq hid hacked => ?_
    rw [hattempt q hq hid] at hacked
    cases hacked
  | loads place | retries place =>
    rw [place] at hattempt
    exact hplace hreferenced hattempt
  | @retargets a p x now candidate remoteHead write error place found =>
    rw [place] at hattempt
    have hsame : PublicationQueue.pendingSources (PublicationQueue.modify
        (·.retarget now candidate remoteHead) p.publicationId w.store.queue) =
          PublicationQueue.pendingSources w.store.queue :=
      pendingSources_modify _ fun _ _ => rfl
    have hpending : ∀ q ∈ PublicationQueue.modify (·.retarget now candidate remoteHead)
        p.publicationId w.store.queue, q.publicationId = a.initial.publicationId →
          q.pending = true := by
      intro q hq hid
      rcases mem_modifyFirst hq with hq | ⟨r, hr, rfl⟩
      · exact hattempt q hq hid
      · exact hattempt r (List.mem_of_find?_eq_some hr) hid
    refine h.rewrite hreferenced (hsame ▸ h.queue) (fun t r hr => hsame ▸ h.absent t r hr) ?_
    cases write with
    | written => exact hpending
    | failed replaced =>
      intro q hq hid hacked
      rw [hpending q hq hid] at hacked
      cases hacked
  | @completes a p now ack write error place =>
    rw [place] at hattempt
    have hsub := pendingSources_complete now p ack w.store.queue
    -- what is acknowledged now was pending, and the only one of its commit
    have hfree : ∀ q ∈ PublicationQueue.complete now p ack w.store.queue,
        q.publicationId = a.initial.publicationId → q.pending = false →
          (w.setQueue (PublicationQueue.complete now p ack w.store.queue) write).Free q.source := by
      intro q hq hid hacked
      obtain ⟨r, hr, hqr⟩ := List.mem_map.mp ((PublicationQueue.compact_sublist _).subset hq)
      have hsame : q.publicationId = r.publicationId ∧ q.source = r.source := by
        rw [← hqr]
        split
        · exact ⟨rfl, rfl⟩
        · exact ⟨rfl, rfl⟩
      have hpending := hattempt r hr (hsame.1.symm.trans hid)
      have hmarked : p.completes r = true := by
        by_contra hnot
        rw [if_neg hnot] at hqr
        rw [← hqr, hpending] at hacked
        cases hacked
      rw [hsame.2]
      refine ⟨fun hmem => ?_, fun t c hc he => h.absent t c hc ?_⟩
      · obtain ⟨o, ho, hsource⟩ := List.mem_filterMap.mp hmem
        obtain ⟨r', hr', hor⟩ := List.mem_map.mp ((PublicationQueue.compact_sublist _).subset ho)
        by_cases hc : p.completes r' = true
        · rw [if_pos hc] at hor
          rw [← hor, pendingSource_of_acknowledged rfl] at hsource
          cases hsource
        · rw [if_neg hc] at hor
          subst hor
          have hone := eq_of_nodup_filterMap h.queue hr' hr hsource
            (pendingSource_of_pending hpending)
          exact hc (hone ▸ hmarked)
      · rw [he]
        exact List.mem_filterMap.mpr ⟨r, hr, pendingSource_of_pending hpending⟩
    refine h.rewrite hreferenced (h.queue.sublist hsub)
      (fun t r hr hmem => h.absent t r hr (hsub.subset hmem)) ?_
    cases write <;> exact hfree
  | missesCompleted place =>
    rw [place] at hattempt
    exact hplace hreferenced hattempt
  | @records a p ack completed hasPending persisted error project place found =>
    rw [place] at hattempt
    refine h.place hreferenced rfl rfl rfl ?_
    cases persisted
    · exact hattempt
    · trivial
  | @deletes a path id ids deleted place =>
    cases deleted <;> exact h.place hreferenced rfl rfl rfl trivial
  | @recordsFailure a error now write place =>
    rw [place] at hattempt
    have hdone : (w.setQueue (PublicationQueue.modify (·.recordFailure now error)
        a.initial.publicationId w.store.queue) write).FreeAttempt
          (afterWrite write (.failed a error) .idle) := by
      cases write <;> trivial
    -- only an acknowledgement that is taken back makes a publication pending
    by_cases hacked : ∃ q, PublicationQueue.find w.store.queue a.initial.publicationId = some q ∧
        q.pending = false
    · obtain ⟨q, hq, hpending⟩ := hacked
      obtain ⟨hmem, hid⟩ := PublicationQueue.find_eq_some hq
      have hfree := hattempt q hmem hid hpending
      have hperm := pendingSources_recordFailure now error hq hpending
      refine h.rewrite hreferenced ((hperm.nodup_iff).mpr ?_) (fun t r hr hin => ?_) hdone
      · exact List.nodup_cons.mpr ⟨hfree.queue, h.queue⟩
      · rcases List.mem_cons.mp (hperm.subset hin) with he | hin
        · exact hfree.flight t r hr he
        · exact h.absent t r hr hin
    · have hsame : PublicationQueue.pendingSources (PublicationQueue.modify
          (·.recordFailure now error) a.initial.publicationId w.store.queue) =
            PublicationQueue.pendingSources w.store.queue := by
        apply pendingSources_modify
        intro q hq
        have hpending : q.pending = true := by
          by_contra hnot
          exact hacked ⟨q, hq, Bool.eq_false_iff.mpr hnot⟩
        rw [pendingSource_of_pending hpending]
        rfl
      exact h.rewrite hreferenced (hsame ▸ h.queue) (fun t r hr => hsame ▸ h.absent t r hr) hdone
  | @notesFailure a error persisted place =>
    refine h.place hreferenced rfl rfl rfl ?_
    cases persisted <;> trivial

theorem Free.keep {source : String × Branch × Oid} (h : w.Free source)
    (hqueue : w'.store.queue = w.store.queue)
    (hflight : ∀ t p, (w'.store.calls t).inFlight = some p →
      (w.store.calls t).inFlight = some p ∨ p.source ≠ source) : w'.Free source where
  queue := hqueue ▸ h.queue
  flight t p hp := by
    rcases hflight t p hp with hp | hne
    · exact h.flight t p hp
    · exact hne

/-- A call goes on without a push. -/
theorem Singles.waits (h : Singles w) (hreferenced : Referenced w')
    (hqueue : w'.store.queue = w.store.queue) (hfile : w'.store.file = w.store.file)
    (hdelivery : w'.delivery = w.delivery)
    (hflight : ∀ t p, (w'.store.calls t).inFlight = some p →
      (w.store.calls t).inFlight = some p) : Singles w' where
  referenced := hreferenced
  queue := by
    rw [Single, hqueue]
    exact h.queue
  file := hfile ▸ h.file
  pending t p hp := h.pending t p (hflight t p hp)
  apart t t' p p' hp hp' := h.apart t t' p p' (hflight t p hp) (hflight t' p' hp')
  absent t p hp := hqueue ▸ h.absent t p (hflight t p hp)
  attempt := by
    have hattempt := h.attempt
    rw [hdelivery]
    cases hd : w.delivery with
    | reading a | loaded a p =>
      rw [hd] at hattempt
      exact fun q hq => hattempt q (hqueue ▸ hq)
    | completing a p ack completed hasPending | failing a error =>
      rw [hd] at hattempt
      exact fun q hq hid hacked => (hattempt q (hqueue ▸ hq) hid hacked).keep hqueue
        fun t p hp => Or.inl (hflight t p hp)
    | _ => trivial

/-- A call has searched the queue alone, and found nothing. -/
theorem Singles.creates (h : Singles w) (hreferenced : Referenced w') {task : Task}
    {name : String} {project : LocalProject Oid} {p : Publication Oid}
    (hcreates : Creates w w' task name project p) (hdelivery : w'.delivery = w.delivery)
    (hcalls : ∀ t, t ≠ task → w'.store.calls t = w.store.calls t) (halone : w.Unraced p.source)
    (hnew : p.source ∉ PublicationQueue.pendingSources w.store.queue) : Singles w' where
  referenced := hreferenced
  queue := by
    rw [Single, hcreates.queue]
    exact h.queue
  file := hcreates.file ▸ h.file
  pending t r hr := by
    rcases inFlight_cases hcalls hr with ⟨-, hr⟩ | ⟨-, hr⟩
    · exact h.pending t r hr
    · rw [hcreates.call'] at hr
      obtain rfl := Option.some.inj hr
      exact hcreates.pending
  apart t t' r r' hr hr' he := by
    rcases inFlight_cases hcalls hr with ⟨-, hr⟩ | ⟨rfl, hr⟩
    · rcases inFlight_cases hcalls hr' with ⟨-, hr'⟩ | ⟨rfl, hr'⟩
      · exact h.apart t t' r r' hr hr' he
      · rw [hcreates.call'] at hr'
        obtain rfl := Option.some.inj hr'
        exact absurd he (halone.calls t r hr)
    · rw [hcreates.call'] at hr
      obtain rfl := Option.some.inj hr
      rcases inFlight_cases hcalls hr' with ⟨-, hr'⟩ | ⟨rfl, hr'⟩
      · exact absurd he.symm (halone.calls t' r' hr')
      · rfl
  absent t r hr := by
    rw [hcreates.queue]
    rcases inFlight_cases hcalls hr with ⟨-, hr⟩ | ⟨-, hr⟩
    · exact h.absent t r hr
    · rw [hcreates.call'] at hr
      obtain rfl := Option.some.inj hr
      exact hnew
  attempt := by
    have hattempt := h.attempt
    -- the attempt has acknowledged no publication of the commit that it can take back
    have hfree : ∀ a : Attempt Oid, w.acknowledgedAttempt =
          ((PublicationQueue.find w.store.queue a.initial.publicationId).filter fun q =>
            !q.pending) →
        (∀ q ∈ w.store.queue, q.publicationId = a.initial.publicationId → q.pending = false →
          w.Free q.source) →
        ∀ q ∈ w'.store.queue, q.publicationId = a.initial.publicationId → q.pending = false →
          w'.Free q.source := by
      intro a hacknowledged hstands q hq hid hacked
      rw [hcreates.queue] at hq
      refine (hstands q hq hid hacked).keep hcreates.queue fun t r hr => ?_
      rcases inFlight_cases hcalls hr with ⟨-, hr⟩ | ⟨-, hr⟩
      · exact Or.inl hr
      · rw [hcreates.call'] at hr
        obtain rfl := Option.some.inj hr
        refine Or.inr fun he => halone.attempt q ?_ he.symm
        have hfind : PublicationQueue.find w.store.queue a.initial.publicationId = some q := by
          cases hf : PublicationQueue.find w.store.queue a.initial.publicationId with
          | none =>
            refine absurd ?_ (List.find?_eq_none.mp hf q hq)
            exact beq_iff_eq.mpr hid
          | some r =>
            obtain ⟨hr, hrid⟩ := PublicationQueue.find_eq_some hf
            rw [h.referenced.distinct.unique hr hq (hrid.trans hid.symm)]
        rw [hacknowledged, hfind, Option.filter_some, hacked]
        rfl
    rw [hdelivery]
    cases hd : w.delivery with
    | reading a | loaded a p =>
      rw [hd] at hattempt
      exact fun q hq => hattempt q (hcreates.queue ▸ hq)
    | completing a p ack completed hasPending | failing a error =>
      rw [hd] at hattempt
      exact hfree a (by rw [acknowledgedAttempt, hd]) hattempt
    | _ => trivial

/-- The only call for a commit puts its publication in. -/
theorem Singles.pushes (h : Singles w) (hreferenced : Referenced w') {task : Task}
    {name : String} {p : Publication Oid} {write : FileWrite}
    (hpushes : Pushes w w' task name p write) (hdelivery : w'.delivery = w.delivery)
    (hcalls : ∀ t, t ≠ task → w'.store.calls t = w.store.calls t) : Singles w' := by
  have hown : (w.store.calls task).inFlight = some p := by
    rw [hpushes.call]
    rfl
  have hlanded : (w'.store.calls task).inFlight = none := by
    rw [hpushes.call']
    cases write <;> rfl
  have hflight : ∀ t r, (w'.store.calls t).inFlight = some r →
      (w.store.calls t).inFlight = some r ∧ r.source ≠ p.source := by
    intro t r hr
    rcases inFlight_cases hcalls hr with ⟨hne, hr⟩ | ⟨-, hr⟩
    · exact ⟨hr, fun he => hne (h.apart t task r p hr hown he)⟩
    · rw [hlanded] at hr
      cases hr
  have hsources : PublicationQueue.pendingSources (w.store.queue ++ [p]) =
      PublicationQueue.pendingSources w.store.queue ++ [p.source] :=
    pendingSources_append (h.pending task p hown)
  have hqueue : (PublicationQueue.pendingSources (w.store.queue ++ [p])).Nodup := by
    rw [hsources, List.nodup_append]
    refine ⟨h.queue, List.nodup_singleton _, fun x hx y hy hxy => ?_⟩
    obtain rfl := List.mem_singleton.mp hy
    exact h.absent task p hown (hxy ▸ hx)
  have habsent {source : String × Branch × Oid} (hne : source ≠ p.source)
      (hnot : source ∉ PublicationQueue.pendingSources w.store.queue) :
      source ∉ PublicationQueue.pendingSources w'.store.queue := by
    rw [hpushes.queue, hsources, List.mem_append, List.mem_singleton]
    exact fun hin => hin.elim hnot hne
  refine ⟨hreferenced, ?_, ?_, fun t r hr => h.pending t r (hflight t r hr).1,
    fun t t' r r' hr hr' => h.apart t t' r r' (hflight t r hr).1 (hflight t' r' hr').1,
    fun t r hr => habsent (hflight t r hr).2 (h.absent t r (hflight t r hr).1), ?_⟩
  · rw [Single, hpushes.queue]
    exact hqueue
  · rw [hpushes.file]
    split
    · exact hqueue
    · exact h.file
  · have hattempt := h.attempt
    have hfree : ∀ a : Attempt Oid,
        (∀ q ∈ w.store.queue, q.publicationId = a.initial.publicationId → q.pending = false →
          w.Free q.source) →
        ∀ q ∈ w'.store.queue, q.publicationId = a.initial.publicationId → q.pending = false →
          w'.Free q.source := by
      intro a hstands q hq hid hacked
      rw [hpushes.queue] at hq
      rcases List.mem_append.mp hq with hq | hq
      · have hf := hstands q hq hid hacked
        exact ⟨habsent (fun he => hf.flight task p hown he.symm) hf.queue,
          fun t r hr => hf.flight t r (hflight t r hr).1⟩
      · rw [List.mem_singleton.mp hq, h.pending task p hown] at hacked
        cases hacked
    rw [hdelivery]
    cases hd : w.delivery with
    | reading a | loaded a p' =>
      rw [hd] at hattempt
      intro q hq hid
      rw [hpushes.queue] at hq
      rcases List.mem_append.mp hq with hq | hq
      · exact hattempt q hq hid
      · rw [List.mem_singleton.mp hq]
        exact h.pending task p hown
    | completing a p' ack completed hasPending | failing a error =>
      rw [hd] at hattempt
      exact hfree a hattempt
    | _ => trivial

end Delivery

section Steps

variable [DecidableEq Oid] [DecidableEq Task] {w w' : QueueDaemon Oid Task}

/-- A new publication comes from a search that has found nothing. -/
theorem search_of_creates {task : Task} {e : EnqueueEvent Oid} {name : String}
    {project : LocalProject Oid} {p : Publication Oid}
    (hcreates : Creates w w' task name project p) (hs : w.step (.enqueue task e) = some w')
    (hok : w.SearchesAlone (.enqueue task e)) :
    w.Unraced p.source ∧ p.source ∉ PublicationQueue.pendingSources w.store.queue := by
  obtain ⟨store, hstore, rfl⟩ := Option.map_eq_some_iff.mp hs
  have hcreated := hcreates.call'
  cases QueueStore.enqueueStep_of_enqueue hstore with
  | @creates name' project' b c id now place hnone fresh =>
    simp only [SearchesAlone, place] at hok
    simp only [Function.update_self, QueueStore.setCall, EnqueueCall.created.injEq] at hcreated
    obtain ⟨-, -, rfl⟩ := hcreated
    refine ⟨hok hnone, fun hmem => ?_⟩
    obtain ⟨q, hq, hsource⟩ := List.mem_filterMap.mp hmem
    rw [Publication.pendingSource] at hsource
    split at hsource
    · next hpending =>
      have hparts := Prod.mk.inj (Option.some.inj hsource)
      refine List.find?_eq_none.mp hnone q hq ?_
      simp only [hpending, hparts.1, (Prod.mk.inj hparts.2).1,
        (Prod.mk.inj hparts.2).2, Publication.new, beq_self_eq_true, Bool.and_self]
    · cases hsource
  | @queues name' p' write place =>
    cases write <;>
      simp only [Function.update_self, QueueStore.setCall, reduceCtorEq] at hcreated
  | _ =>
    simp only [Function.update_self, QueueStore.setCall, QueueStore.answer,
      reduceCtorEq] at hcreated

theorem Singles.enqueue (h : Singles w) {task : Task} {e : EnqueueEvent Oid}
    (hok : w.SearchesAlone (.enqueue task e)) (hs : w.step (.enqueue task e) = some w') :
    Singles w' := by
  have hreferenced := h.referenced.step hs
  obtain ⟨hdelivery, hcalls, ⟨hsame, hnone⟩ | ⟨name, project, p, hcreates⟩ |
    ⟨name, project, p, hrefs⟩ | ⟨name, p, write, -, hpushes⟩⟩ := enqueue_cases hs
  · refine h.waits hreferenced hsame.queue hsame.file hdelivery fun t p hp => ?_
    rcases inFlight_cases hcalls hp with ⟨-, hp⟩ | ⟨-, hp⟩
    · exact hp
    · rw [hnone] at hp
      cases hp
  · obtain ⟨halone, hnew⟩ := search_of_creates hcreates hs hok
    exact h.creates hreferenced hcreates hdelivery hcalls halone hnew
  · refine h.waits hreferenced hrefs.queue hrefs.file hdelivery fun t r hr => ?_
    rcases inFlight_cases hcalls hr with ⟨-, hr⟩ | ⟨rfl, hr⟩
    · exact hr
    · rw [hrefs.call'] at hr
      rw [hrefs.call]
      exact hr
  · exact h.pushes hreferenced hpushes hdelivery hcalls

theorem Singles.step (h : Singles w) {e : QueueDaemonEvent Oid Task} (hok : w.SearchesAlone e)
    (hs : w.step e = some w') : Singles w' := by
  have hreferenced := h.referenced.step hs
  cases e with
  | enqueue task e => exact h.enqueue hok hs
  | deliver e => exact h.deliver hreferenced hs
  | writeProject name record persisted =>
    simp only [QueueDaemon.step] at hs
    split at hs
    · split at hs
      · obtain rfl := Option.some.inj hs
        exact h.place hreferenced rfl rfl rfl h.attempt
      · cases hs
    · cases hs
  | crash =>
    obtain rfl := Option.some.inj hs
    refine ⟨hreferenced, h.file, h.file, ?_, ?_, ?_, trivial⟩
    · intro _ _ hp
      cases hp
    · intro _ _ _ _ hp
      cases hp
    · intro _ _ hp
      cases hp

/-- In every run in which each search that finds nothing is alone, whatever fails and wherever the
daemon stops, no state has two pending publications of a project, branch and commit. -/
theorem pending_publications_are_single (catalog : LocalCatalog Oid)
    (refs : String → String → Option Oid) (es : List (QueueDaemonEvent Oid Task))
    (halone : Runs.Steps step SearchesAlone (initial catalog refs) es) :
    ∀ w', Runs.run step (initial catalog refs) es = some w' → w'.Single := fun _ hrun =>
  (Runs.run_invariant (fun _ _ _ h hok hs => h.step hok hs) (singles_initial catalog refs) halone
    hrun).queue

/-- A call goes through to its push. -/
theorem run_insert {task : Task} {p : Publication Oid}
    (hp : (w.store.calls task).inFlight = some p) :
    ∃ es u, Runs.run step w es = some u ∧ u.store.queue = w.store.queue ++ [p] ∧
      ∀ t, t ≠ task → u.store.calls t = w.store.calls t := by
  have hpush : ∀ {v : QueueDaemon Oid Task} {name : String},
      v.store.calls task = .referenced name p → ∃ u,
        v.step (.enqueue task (.push .written)) = some u ∧ u.store.queue = v.store.queue ++ [p] ∧
          ∀ t, t ≠ task → u.store.calls t = v.store.calls t := by
    intro v name hcall
    simp only [QueueDaemon.step, QueueStore.enqueue, hcall, Option.map_some]
    exact ⟨_, rfl, rfl, fun t ht => Function.update_of_ne ht _ _⟩
  cases hcall : w.store.calls task with
  | created name project p' =>
    rw [hcall] at hp
    obtain rfl := Option.some.inj hp
    have href : ∃ v, w.step (.enqueue task (.updateRef true)) = some v ∧
        v.store.calls task = .referenced name p' ∧ v.store.queue = w.store.queue ∧
        ∀ t, t ≠ task → v.store.calls t = w.store.calls t := by
      simp only [QueueDaemon.step, QueueStore.enqueue, hcall, if_true, Option.map_some]
      exact ⟨_, rfl, Function.update_self _ _ _, rfl, fun t ht => Function.update_of_ne ht _ _⟩
    obtain ⟨v, hv, hvcall, hvqueue, hvothers⟩ := href
    obtain ⟨u, hu, huqueue, huothers⟩ := hpush hvcall
    refine ⟨[.enqueue task (.updateRef true), .enqueue task (.push .written)], u, ?_,
      by rw [huqueue, hvqueue], fun t ht => (huothers t ht).trans (hvothers t ht)⟩
    rw [Runs.run_cons, hv, Option.bind_some, Runs.run_cons, hu]
    rfl
  | referenced name p' =>
    rw [hcall] at hp
    obtain rfl := Option.some.inj hp
    obtain ⟨u, hu, huqueue, huothers⟩ := hpush hcall
    refine ⟨[.enqueue task (.push .written)], u, ?_, huqueue, huothers⟩
    rw [Runs.run_cons, hu]
    rfl
  | _ =>
    rw [hcall] at hp
    cases hp

/-- An attempt that can still fail takes its acknowledgement back. -/
theorem run_takeBack {q : Publication Oid} (h : w.acknowledgedAttempt = some q) :
    ∃ es u, Runs.run step w es = some u ∧
      q.source ∈ PublicationQueue.pendingSources u.store.queue ∧
      u.store.calls = w.store.calls := by
  have hfail : ∀ {v : QueueDaemon Oid Task} {a : Attempt Oid} {error : String},
      v.delivery = .failing a error →
      PublicationQueue.find v.store.queue a.initial.publicationId = some q → q.pending = false →
      ∃ u, v.step (.deliver (.recordFailure 0 .written)) = some u ∧
        q.source ∈ PublicationQueue.pendingSources u.store.queue ∧
        u.store.calls = v.store.calls := by
    intro v a error hplace hfound hacked
    simp only [QueueDaemon.step, QueueDaemon.deliver, hplace]
    exact ⟨_, rfl, (pendingSources_recordFailure 0 error hfound hacked).symm.subset
      List.mem_cons_self, rfl⟩
  rw [acknowledgedAttempt] at h
  split at h
  · next a p ack completed hasPending hplace =>
    obtain ⟨hfound, hacked⟩ := Option.filter_eq_some_iff.mp h
    rw [Bool.not_eq_true'] at hacked
    have hlost : ∃ v error, w.step (.deliver (.recordCompletion false "lost")) = some v ∧
        v.delivery = .failing a error ∧ v.store.queue = w.store.queue ∧
        v.store.calls = w.store.calls := by
      simp only [QueueDaemon.step, QueueDaemon.deliver, hplace]
      split
      · exact ⟨_, _, rfl, rfl, rfl, rfl⟩
      · exact ⟨_, _, rfl, rfl, rfl, rfl⟩
    obtain ⟨v, error, hv, hvplace, hvqueue, hvcalls⟩ := hlost
    obtain ⟨u, hu, hsource, hucalls⟩ := hfail hvplace (hvqueue ▸ hfound) hacked
    refine ⟨[.deliver (.recordCompletion false "lost"), .deliver (.recordFailure 0 .written)], u,
      ?_, hsource, hucalls.trans hvcalls⟩
    rw [Runs.run_cons, hv, Option.bind_some, Runs.run_cons, hu]
    rfl
  · next a error hplace =>
    obtain ⟨hfound, hacked⟩ := Option.filter_eq_some_iff.mp h
    rw [Bool.not_eq_true'] at hacked
    obtain ⟨u, hu, hsource, hucalls⟩ := hfail hplace hfound hacked
    refine ⟨[.deliver (.recordFailure 0 .written)], u, ?_, hsource, hucalls⟩
    rw [Runs.run_cons, hu]
    rfl
  · cases h

/-- The condition is no stronger than it must be: behind a search that is not alone, the run can
go on to two pending publications of the commit. -/
theorem raced_search_can_duplicate (h : Singles w) {e : QueueDaemonEvent Oid Task}
    (hraced : ¬ w.SearchesAlone e) (hs : w.step e = some w') :
    ∃ es u, Runs.run step w' es = some u ∧ ¬ u.Single := by
  have hrace : ∃ task project b c, (∃ id now name, e = .enqueue task (.lookUp id now) ∧
      w.store.calls task = .verified name project b c) ∧
      PublicationQueue.existing w.store.queue project.projectId b c = none ∧
      ¬ w.Unraced (project.projectId, b, c) := by
    unfold SearchesAlone at hraced
    split at hraced
    · next task id now =>
      split at hraced
      · next name project b c hcall =>
        exact ⟨task, project, b, c, ⟨id, now, name, rfl, hcall⟩, Classical.not_imp.mp hraced⟩
      · exact absurd trivial hraced
    · exact absurd trivial hraced
  obtain ⟨task, project, b, c, ⟨id, now, name, rfl, hcall⟩, hnone, hraced⟩ := hrace
  -- the call has a publication on its way, and the rest is as it was
  set p : Publication Oid := .new id now project.projectId project.checkoutId b c
    (project.advertisedHeads b) with hp
  have hafter : w'.store.queue = w.store.queue ∧ w'.delivery = w.delivery ∧
      (w'.store.calls task).inFlight = some p ∧
      ∀ t, t ≠ task → w'.store.calls t = w.store.calls t := by
    simp only [QueueDaemon.step, QueueStore.enqueue, hcall, hnone] at hs
    split at hs
    · cases hs
    · obtain rfl := Option.some.inj hs
      refine ⟨rfl, rfl, ?_, fun t ht => Function.update_of_ne ht _ _⟩
      show EnqueueCall.inFlight (Function.update w.store.calls task _ task) = some p
      rw [Function.update_self]
      rfl
  obtain ⟨hqueue, hdelivery, hown, hothers⟩ := hafter
  by_cases hcalls : ∀ t r, (w.store.calls t).inFlight = some r →
      r.source ≠ (project.projectId, b, c)
  · have hattempt : ¬ ∀ q ∈ w.acknowledgedAttempt, q.source ≠ (project.projectId, b, c) :=
      fun hattempt => hraced ⟨hcalls, hattempt⟩
    push Not at hattempt
    obtain ⟨q, hq, hsource⟩ := hattempt
    have hq' : w'.acknowledgedAttempt = some q := by
      rw [acknowledgedAttempt, hdelivery, hqueue]
      exact hq
    obtain ⟨es, u, hu, hmem, hucalls⟩ := run_takeBack hq'
    obtain ⟨fs, v, hv, hvqueue, -⟩ := run_insert (hucalls ▸ hown)
    refine ⟨es ++ fs, v, (Runs.run_append_eq_some step).mpr ⟨u, hu, hv⟩, fun hsingle => ?_⟩
    rw [Single, hvqueue, pendingSources_append rfl, List.nodup_append] at hsingle
    exact hsingle.2.2 _ hmem _ List.mem_cons_self hsource
  · push Not at hcalls
    obtain ⟨t, r, hr, hsource⟩ := hcalls
    have ht : t ≠ task := by
      rintro rfl
      rw [hcall] at hr
      cases hr
    obtain ⟨es, u, hu, huqueue, huothers⟩ := run_insert ((hothers t ht).symm ▸ hr)
    obtain ⟨fs, v, hv, hvqueue, -⟩ := run_insert ((huothers task ht.symm).symm ▸ hown)
    refine ⟨es ++ fs, v, (Runs.run_append_eq_some step).mpr ⟨u, hu, hv⟩, fun hsingle => ?_⟩
    rw [Single, hvqueue, huqueue, pendingSources_append rfl,
      pendingSources_append (h.pending t r hr), List.nodup_append] at hsingle
    exact hsingle.2.2 r.source (List.mem_append_right _ List.mem_cons_self) _ List.mem_cons_self
      hsource

end Steps

end QueueDaemon

section OneProject

/-- A report of commit `1` of `main` whose search finds nothing. -/
def searchOne (task : Fin 2) (id : String) (now : ℕ) : List (QueueDaemonEvent ℕ (Fin 2)) :=
  [.call "prj" "main" 1, .clone, .verify (some 1), .lookUp id now].map (.enqueue task)

def insertOne (task : Fin 2) : List (QueueDaemonEvent ℕ (Fin 2)) :=
  [.updateRef true, .push .written, .record true].map (.enqueue task)

/-- Two reports of a commit, one after the other. -/
theorem pending_publications_are_single_one : ∃ w : QueueDaemon ℕ (Fin 2),
    Runs.run QueueDaemon.step (.initial currentMain.catalog fun _ _ => none)
      (searchOne 0 "first" 5 ++ insertOne 0 ++ searchOne 1 "second" 6) = some w ∧ w.Single := by
  obtain ⟨w, hw⟩ : ∃ w, Runs.run QueueDaemon.step
      (.initial currentMain.catalog fun _ _ => none : QueueDaemon ℕ (Fin 2))
      (searchOne 0 "first" 5 ++ insertOne 0 ++ searchOne 1 "second" 6) = some w :=
    Option.isSome_iff_exists.mp (by decide +kernel)
  exact ⟨w, hw, QueueDaemon.pending_publications_are_single _ _ _ (by decide +kernel) w hw⟩

/-- Both reports of the commit search the queue before one of them has put its
publication in. -/
theorem concurrent_reports_are_queued_twice : ∃ w : QueueDaemon ℕ (Fin 2),
    Runs.run QueueDaemon.step (.initial currentMain.catalog fun _ _ => none)
      (searchOne 0 "first" 5 ++ searchOne 1 "second" 6 ++ insertOne 0 ++ insertOne 1) = some w ∧
    w.store.queue.map (·.publicationId) = ["first", "second"] ∧ ¬ w.Single := by
  have htest : ((Runs.run QueueDaemon.step
      (.initial currentMain.catalog fun _ _ => none : QueueDaemon ℕ (Fin 2))
      (searchOne 0 "first" 5 ++ searchOne 1 "second" 6 ++ insertOne 0 ++ insertOne 1)).map fun w =>
        (w.store.queue.map (·.publicationId), PublicationQueue.pendingSources w.store.queue)) =
      some (["first", "second"], [("prj", "main", 1), ("prj", "main", 1)]) := by decide +kernel
  obtain ⟨w, hw, hqueue⟩ := Option.map_eq_some_iff.mp htest
  obtain ⟨hids, hsources⟩ := Prod.mk.inj hqueue
  refine ⟨w, hw, hids, ?_⟩
  rw [QueueDaemon.Single, hsources]
  decide

end OneProject

end Resync
