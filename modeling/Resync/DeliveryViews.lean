import Resync.DeliverySteps
import Resync.Lib.Runs
import Resync.QueueDaemon

/-! The delivery seen from the files of the queue. A delivery with all of its commands
(`PublishWorld`) does to the queue, the catalog and the publication refs what the delivery that
knows only its writes (`QueueDaemon`) does, as long as no write fails. -/
namespace Resync

variable {Oid Task : Type}

/-- The attempt and its copy of the publication, from the load to the acknowledgement. -/
def Delivery.loadedCopy : Delivery Oid → Option (Attempt Oid × Publication Oid)
  | .loaded a p | .projected a p _ | .behind a p _ _ | .reconciling a p _ | .reconciled a p _
  | .headRead a p _ _ | .validating a p _ | .validated a p _ | .delivered a p _
  | .confirmed a p _ _ => some (a, p)
  | _ => none

/-- The places that only a command separates are one place. The time of the request to the
provider is noted on the copy alone, and a failure does not count rounds. -/
inductive Delivery.SeenAs : Delivery Oid → QueueDelivery Oid → Prop
  | idle : SeenAs .idle .idle
  | pass {ids : List String} : SeenAs (.pass ids) (.pass ids)
  | reading {a : Attempt Oid} : SeenAs (.reading a) (.reading a)
  | attempting {d : Delivery Oid} {a : Attempt Oid} {p : Publication Oid}
      (copy : d.loadedCopy = some (a, p)) : SeenAs d (.loaded a p)
  | acked {a : Attempt Oid} {p : Publication Oid} {ack : PublicationAck Oid} {now : ℕ} :
      SeenAs (.acked a { p with lastAttemptAt := some now } ack) (.loaded a p)
  | completing {a : Attempt Oid} {p : Publication Oid} {ack : PublicationAck Oid}
      {completed : List String} {hasPending : Bool} {now : ℕ} :
      SeenAs (.completing a { p with lastAttemptAt := some now } ack completed hasPending)
        (.completing a p ack completed hasPending)
  | deleting {a : Attempt Oid} {path : String} {ids : List String} :
      SeenAs (.deleting a path ids) (.deleting a path ids)
  | failing {a b : Attempt Oid} {error : String} (rest : b.rest = a.rest)
      (initial : b.initial = a.initial) : SeenAs (.failing a error) (.failing b error)
  | failed {a b : Attempt Oid} {error : String} (rest : b.rest = a.rest)
      (initial : b.initial = a.initial) : SeenAs (.failed a error) (.failed b error)

theorem Delivery.SeenAs.eq_loaded {d : Delivery Oid} {q : QueueDelivery Oid} {a : Attempt Oid}
    {p : Publication Oid} (h : d.SeenAs q) (hcopy : d.loadedCopy = some (a, p)) : q = .loaded a p := by
  cases h with
  | attempting copy =>
    cases copy.symm.trans hcopy
    rfl
  | _ => cases hcopy

/-- No write of the step fails. -/
def QueueDaemonEvent.succeeds : QueueDaemonEvent Oid Task → Bool
  | .deliver (.retarget _ _ _ (.failed _) _) | .deliver (.complete _ _ (.failed _) _)
  | .deliver (.recordCompletion false _) | .deliver (.deleteRef false)
  | .deliver (.recordFailure _ (.failed _)) | .deliver (.noteFailure false)
  | .enqueue _ (.updateRef false) | .enqueue _ (.push (.failed _)) | .enqueue _ (.record false)
  | .writeProject _ _ false | .crash => false
  | _ => true

/-- The two daemons have the same queue, records and publication refs, at the same place. -/
structure Views (w : PublishWorld Oid Task) (v : QueueDaemon Oid Task) : Prop where
  queue : v.store.queue = w.queue
  catalog : v.store.catalog = w.catalog
  refs : ∀ path, v.store.refs path = (w.checkouts path).publications
  place : w.delivery.SeenAs v.delivery

/-- The daemon of the files, where no task queues a publication and no delivery runs. -/
def QueueDaemon.ofPublish (w : PublishWorld Oid Task) : QueueDaemon Oid Task where
  store := .load w.catalog w.queue (fun path => (w.checkouts path).publications) w.issued
  saved := w.catalog
  delivery := .idle
  origins _ := ""

theorem views_ofPublish {w : PublishWorld Oid Task} (h : w.delivery = .idle) :
    Views w (.ofPublish w) where
  queue := rfl
  catalog := rfl
  refs _ := rfl
  place := h ▸ .idle

namespace Views

variable [DecidableEq Oid] [DecidableEq Task] {G : CommitGraph Oid} {w w' : PublishWorld Oid Task}
  {v : QueueDaemon Oid Task} {e : DeliveryEvent Oid}

/-- At most one step, in which no write fails, leads to a view. -/
def Follows (v : QueueDaemon Oid Task) (w' : PublishWorld Oid Task) : Prop :=
  ∃ v', (v' = v ∨ ∃ f : QueueDaemonEvent Oid Task, f.succeeds = true ∧ v.step f = some v') ∧
    Views w' v'

theorem follows_of_step (f : QueueDaemonEvent Oid Task) (hf : f.succeeds = true)
    (v' : QueueDaemon Oid Task) (hs : v.step f = some v') (h : Views w' v') : Follows v w' :=
  ⟨v', Or.inr ⟨f, hf, hs⟩, h⟩

/-- Nothing but the place changes. -/
theorem moves (h : Views w v) (f : QueueDaemonEvent Oid Task) (hf : f.succeeds = true)
    (d : QueueDelivery Oid) (hs : v.step f = some (v.setDelivery d)) (hqueue : w'.queue = w.queue)
    (hcatalog : w'.catalog = w.catalog) (hcheckouts : w'.checkouts = w.checkouts)
    (hplace : w'.delivery.SeenAs d) : Follows v w' := by
  refine follows_of_step f hf _ hs
    ⟨h.queue.trans hqueue.symm, h.catalog.trans hcatalog.symm, ?_, hplace⟩
  rw [hcheckouts]
  exact h.refs

/-- A command goes through. -/
theorem waits (h : Views w v) {a : Attempt Oid} {p : Publication Oid}
    (hcopy : w.delivery.loadedCopy = some (a, p)) (hqueue : w'.queue = w.queue)
    (hcatalog : w'.catalog = w.catalog) (hcheckouts : w'.checkouts = w.checkouts)
    (hplace : w'.delivery.SeenAs (.loaded a p)) : Follows v w' := by
  refine ⟨v, Or.inl rfl, h.queue.trans hqueue.symm, h.catalog.trans hcatalog.symm, ?_, ?_⟩
  · rw [hcheckouts]
    exact h.refs
  · rw [h.place.eq_loaded hcopy]
    exact hplace

/-- A command fails. -/
theorem fails (h : Views w v) {a : Attempt Oid} {p : Publication Oid} {error : String}
    (hcopy : w.delivery.loadedCopy = some (a, p)) (hqueue : w'.queue = w.queue)
    (hcatalog : w'.catalog = w.catalog) (hcheckouts : w'.checkouts = w.checkouts)
    (hplace : w'.delivery = .failing a error) : Follows v w' := by
  refine h.moves (.deliver (.fail error)) rfl (.failing a error) ?_ hqueue hcatalog hcheckouts
    (hplace ▸ .failing rfl rfl)
  change Option.map _ v.delivery.fallible = _
  rw [h.place.eq_loaded hcopy]
  rfl

omit [DecidableEq Oid] in
theorem loadedCopy_of_fallible {d : Delivery Oid} {a : Attempt Oid} (h : d.fallible = some a) :
    ∃ p, d.loadedCopy = some (a, p) := by
  cases d with
  | projected b p | behind b p | reconciling b p | reconciled b p | headRead b p
  | validating b p | validated b p | delivered b p | confirmed b p =>
    obtain rfl := Option.some.inj h
    exact ⟨p, rfl⟩
  | _ => cases h

/-- Each step of a delivery is at most one step on the files. -/
theorem deliver (h : Views w v) (hs : w.deliver G e = some w') : Follows v w' := by
  have hplace := h.place
  generalize hd : v.delivery = d at hplace
  cases PublishWorld.deliveryStep_of_deliver hs with
  | @starts force now place =>
    rw [place] at hplace
    cases hplace with
    | idle =>
      refine h.moves (.deliver (.start force now)) rfl _ ?_ rfl rfl rfl .pass
      simp only [QueueDaemon.step, QueueDaemon.deliver, hd, h.queue]
    | attempting copy => cases copy
  | ends place =>
    rw [place] at hplace
    cases hplace with
    | pass =>
      refine h.moves (.deliver .next) rfl _ ?_ rfl rfl rfl .idle
      simp only [QueueDaemon.step, QueueDaemon.deliver, hd]
    | attempting copy => cases copy
  | takes place found | skips place found =>
    rw [place] at hplace
    cases hplace with
    | pass =>
      refine h.moves (.deliver .next) rfl _ ?_ rfl rfl rfl (by constructor)
      simp only [QueueDaemon.step, QueueDaemon.deliver, hd, h.queue, found]
    | attempting copy => cases copy
  | losesRace place left =>
    rw [place] at hplace
    cases hplace with
    | reading =>
      refine h.moves (.deliver .load) rfl _ ?_ rfl rfl rfl (.failing rfl rfl)
      simp only [QueueDaemon.step, QueueDaemon.deliver, hd, left]
    | attempting copy => cases copy
  | @disappears a n place left none =>
    rw [place] at hplace
    cases hplace with
    | reading =>
      refine h.moves (.deliver .load) rfl (.failing a "publication disappeared from queue") ?_
        rfl rfl rfl (.failing rfl rfl)
      simp only [QueueDaemon.step, QueueDaemon.deliver, hd, left, h.queue, none]
    | attempting copy => cases copy
  | loads place left found pending =>
    rw [place] at hplace
    cases hplace with
    | reading =>
      refine h.moves (.deliver .load) rfl _ ?_ rfl rfl rfl (.attempting rfl)
      simp only [QueueDaemon.step, QueueDaemon.deliver, hd, left, h.queue, found, pending, if_true]
    | attempting copy => cases copy
  | isDone place left found pending =>
    rw [place] at hplace
    cases hplace with
    | reading =>
      refine h.moves (.deliver .load) rfl _ ?_ rfl rfl rfl .pass
      simp only [QueueDaemon.step, QueueDaemon.deliver, hd, left, h.queue, found, pending]
      rfl
    | attempting copy => cases copy
  -- the checks and the commands are not seen, and their errors are one
  | misses place | isPaused place | isInactive place | missesChecked place | isBlocked place
  | missesReconciled place | isStale place | missesBranch place | isUnreachable place
  | refuses place | isAdvanced place =>
    exact h.fails (congrArg _ place) rfl rfl rfl rfl
  | fails place =>
    obtain ⟨p, hcopy⟩ := loadedCopy_of_fallible place
    exact h.fails hcopy rfl rfl rfl rfl
  | projects place | fetchesCandidate place | fetchesExpected place | fetchesOther place
  | reconciles place | readsHead place | validates place | confirms place =>
    exact h.waits (congrArg _ place) rfl rfl rfl (.attempting rfl)
  | acknowledges place | acknowledgesOwn place =>
    exact h.waits (congrArg _ place) rfl rfl rfl .acked
  | @pushes a p project answered place =>
    cases answered with
    | true => exact h.waits (congrArg _ place) rfl rfl rfl (.attempting rfl)
    | false => exact h.fails (congrArg _ place) rfl rfl rfl rfl
  | retries place =>
    have hloaded := h.place.eq_loaded (congrArg _ place)
    refine h.moves (.deliver .again) rfl _ ?_ rfl rfl rfl .reading
    simp only [QueueDaemon.step, QueueDaemon.deliver, hloaded]
  | disappearsReconciled place none =>
    exact h.fails (congrArg _ place) rfl rfl rfl rfl
  | @checks a p project known remoteHead place active found =>
    have hloaded := h.place.eq_loaded (congrArg _ place)
    -- the file takes over the whole record, of which one head is new
    have hrecord : updateProject w.catalog p.projectId (fun _ => { known with
        advertisedHeads := Function.update known.advertisedHeads p.branch remoteHead }) =
        updateProject w.catalog p.projectId fun q => { q with
          advertisedHeads := Function.update q.advertisedHeads p.branch remoteHead } :=
      updateProject_congr fun q hq => by rw [Option.some.inj (found.symm.trans hq)]
    refine follows_of_step (.writeProject p.projectId { known with
      advertisedHeads := Function.update known.advertisedHeads p.branch remoteHead } true) rfl
        (v.setProject p.projectId (fun _ => { known with
          advertisedHeads := Function.update known.advertisedHeads p.branch remoteHead }) true) ?_
        ⟨h.queue, ?_, h.refs, hloaded ▸ .attempting rfl⟩
    · simp only [QueueDaemon.step, h.catalog, found]
      exact if_pos ⟨⟨rfl, rfl, rfl⟩, trivial⟩
    · change updateProject v.store.catalog _ _ = _
      rw [h.catalog]
      exact hrecord
  | @retargets a p q remoteHead head now place found =>
    have hloaded := h.place.eq_loaded (congrArg _ place)
    refine follows_of_step (.deliver (.retarget now head remoteHead .written "")) rfl
      ((v.setQueue (PublicationQueue.modify (·.retarget now head remoteHead) p.publicationId
        v.store.queue) .written).setDelivery (.reading a)) ?_ ⟨?_, h.catalog, h.refs, .reading⟩
    · simp only [QueueDaemon.step, QueueDaemon.deliver, hloaded, h.queue, found]
      rfl
    · exact congrArg _ h.queue
  | @completes a p ack now place =>
    rw [place] at hplace
    cases hplace with
    | @acked a p ack attempted =>
      refine follows_of_step (.deliver (.complete now ack .written "")) rfl
        ((v.setQueue (PublicationQueue.complete now p ack v.store.queue) .written).setDelivery
          (.completing a p ack
            ((PublicationQueue.marked now p ack v.store.queue).map (·.publicationId))
            ((PublicationQueue.complete now p ack v.store.queue).any fun q =>
              q.pending && q.projectId == p.projectId))) ?_ ⟨?_, h.catalog, h.refs, ?_⟩
      · simp only [QueueDaemon.step, QueueDaemon.deliver, hd]
        rfl
      · exact congrArg (PublicationQueue.complete now p ack) h.queue
      · rw [h.queue]
        exact .completing
    | attempting copy => cases copy
  | missesCompleted place none =>
    rw [place] at hplace
    cases hplace with
    | completing =>
      refine h.moves (.deliver (.recordCompletion true "")) rfl _ ?_ rfl rfl rfl (.failing rfl rfl)
      simp only [QueueDaemon.step, QueueDaemon.deliver, hd, h.catalog, none]
    | attempting copy => cases copy
  | @records a p ack completed hasPending project place found =>
    rw [place] at hplace
    cases hplace with
    | @completing a p ack completed hasPending now =>
      refine follows_of_step (.deliver (.recordCompletion true "")) rfl
        ((v.setProject p.projectId (fun q => { q with
          advertisedHeads := Function.update q.advertisedHeads p.branch (some ack.remoteHead),
          lastAppliedHeads := Function.update q.lastAppliedHeads p.branch (some ack.remoteHead),
          serverGeneration := max q.serverGeneration ack.projectGeneration,
          lastError := none,
          durability := if hasPending then q.durability else .remotelyDurable }) true).setDelivery
            (.deleting a project.localPath completed)) ?_ ⟨h.queue, ?_, h.refs, .deleting⟩
      · simp only [QueueDaemon.step, QueueDaemon.deliver, hd, h.catalog, found]
        rfl
      · exact congrArg (updateProject · _ _) h.catalog
    | attempting copy => cases copy
  | isDelivered place =>
    rw [place] at hplace
    cases hplace with
    | deleting =>
      refine h.moves (.deliver (.deleteRef true)) rfl _ ?_ rfl rfl rfl .pass
      simp only [QueueDaemon.step, QueueDaemon.deliver, hd]
    | attempting copy => cases copy
  | @deletes a path id ids place =>
    rw [place] at hplace
    cases hplace with
    | deleting =>
      refine follows_of_step (.deliver (.deleteRef true)) rfl
        ((v.deleteRef path id).setDelivery (.deleting a path ids)) ?_
        ⟨h.queue, h.catalog, fun other => ?_, .deleting⟩
      · simp only [QueueDaemon.step, QueueDaemon.deliver, hd]
        rfl
      · change Function.update v.store.refs path _ other =
          (Function.update w.checkouts path _ other).publications
        by_cases hother : other = path
        · rw [hother, Function.update_self, Function.update_self, h.refs]
          rfl
        · rw [Function.update_of_ne hother, Function.update_of_ne hother, h.refs]
    | attempting copy => cases copy
  | @recordsFailure a error now place =>
    rw [place] at hplace
    cases hplace with
    | @failing _ b _ rest initial =>
      -- the two attempts may differ in the rounds, but not in the publication
      refine follows_of_step (.deliver (.recordFailure now .written)) rfl
        ((v.setQueue (PublicationQueue.modify (·.recordFailure now error) b.initial.publicationId
          v.store.queue) .written).setDelivery (.failed b error)) ?_
        ⟨?_, h.catalog, h.refs, .failed rest initial⟩
      · simp only [QueueDaemon.step, QueueDaemon.deliver, hd]
        rfl
      · change PublicationQueue.modify _ _ v.store.queue = _
        rw [initial, h.queue]
    | attempting copy => cases copy
  | @notesFailure a error place =>
    rw [place] at hplace
    cases hplace with
    | @failed _ b _ rest initial =>
      refine follows_of_step (.deliver (.noteFailure true)) rfl
        ((v.setProject b.initial.projectId (fun q => { q with
          durability := .committedUnpublished, lastError := some error }) true).setDelivery
            (.pass b.rest)) ?_ ⟨h.queue, ?_, h.refs, rest ▸ .pass⟩
      · simp only [QueueDaemon.step, QueueDaemon.deliver, hd]
        rfl
      · change updateProject v.store.catalog _ _ = _
        rw [initial, h.catalog]
        rfl
    | attempting copy => cases copy

theorem run (h : Views w v) {es : List (DeliveryEvent Oid)}
    (hr : Runs.run (PublishWorld.deliver G) w es = some w') :
    ∃ (fs : List (QueueDaemonEvent Oid Task)) (v' : QueueDaemon Oid Task), fs.length ≤ es.length ∧
      (∀ f ∈ fs, f.succeeds = true) ∧
      Runs.run QueueDaemon.step v fs = some v' ∧ Views w' v' := by
  induction es generalizing w v with
  | nil =>
    obtain rfl := Option.some.inj hr
    exact ⟨[], v, le_rfl, fun f hf => absurd hf List.not_mem_nil, rfl, h⟩
  | cons e es ih =>
    obtain ⟨u, hs, hr⟩ := (Runs.run_cons_eq_some _).mp hr
    obtain ⟨x, hx, hu⟩ := h.deliver hs
    obtain ⟨fs, v', hlength, hsucceeds, hrun, hview⟩ := ih hu hr
    rcases hx with rfl | ⟨f, hf, hx⟩
    · exact ⟨fs, v', hlength.trans (Nat.le_succ _), hsucceeds, hrun, hview⟩
    · refine ⟨f :: fs, v', Nat.succ_le_succ hlength, ?_, ?_, hview⟩
      · exact List.forall_mem_cons.mpr ⟨hf, hsucceeds⟩
      · exact (Runs.run_cons_eq_some _).mpr ⟨x, hx, hrun⟩

end Views

/-- What a pass with all of its commands leaves of the queue, the catalog and the refs, a pass
over the files leaves too in which no write fails, and in no more steps. -/
theorem passes_on_files [DecidableEq Oid] [DecidableEq Task] {G : CommitGraph Oid}
    {w w' : PublishWorld Oid Task} (h : w.delivery = .idle) {es : List (DeliveryEvent Oid)}
    (hr : Runs.run (PublishWorld.deliver G) w es = some w') :
    ∃ (fs : List (QueueDaemonEvent Oid Task)) (v' : QueueDaemon Oid Task), fs.length ≤ es.length ∧
      (∀ f ∈ fs, f.succeeds = true) ∧
      Runs.run QueueDaemon.step (.ofPublish w) fs = some v' ∧ Views w' v' :=
  (views_ofPublish h).run hr

end Resync
