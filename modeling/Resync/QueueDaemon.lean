import Resync.QueueFile

/-! The queue between its two users, `enqueue_publication` and the deliveries of
`process_publications` with `complete_publication` (`daemon.rs`), in memory and in
the state directory. Every write of a file may fail, and the daemon may stop at
any point. What a delivery does between reading a publication and completing it
(fetch, validate, push, reconcile) leaves the queue alone and may fail anywhere,
so it has no places of its own. -/
namespace Resync

variable {Oid Task : Type}

/-- Where `process_publications` stands. -/
inductive QueueDelivery (Oid : Type) where
  | idle
  | pass (ids : List String)
  | reading (a : Attempt Oid)
  | loaded (a : Attempt Oid) (p : Publication Oid)
  | completing (a : Attempt Oid) (p : Publication Oid) (ack : PublicationAck Oid)
      (completed : List String) (hasPending : Bool)
  | deleting (a : Attempt Oid) (path : String) (completed : List String)
  | failing (a : Attempt Oid) (error : String)
  | failed (a : Attempt Oid) (error : String)

/-- `error` is the text of the error if a write fails. -/
inductive QueueDeliveryEvent (Oid : Type) where
  | start (force : Bool) (now : ℕ)
  | next
  | load
  /-- The reconciliation asks for a retry. -/
  | again
  /-- The reconciliation has left a new candidate. -/
  | retarget (now : ℕ) (candidate : Oid) (remoteHead : Option Oid) (write : FileWrite)
      (error : String)
  | complete (now : ℕ) (ack : PublicationAck Oid) (write : FileWrite) (error : String)
  | recordCompletion (persisted : Bool) (error : String)
  /-- `update-ref -d`, whose failure is ignored. -/
  | deleteRef (deleted : Bool)
  | fail (error : String)
  | recordFailure (now : ℕ) (write : FileWrite)
  | noteFailure (persisted : Bool)

/-- `saved` is `catalog.json`. `origins` only looks back: the checkout in which
the ref of a publication was written. -/
structure QueueDaemon (Oid Task : Type) where
  store : QueueStore Oid Task
  saved : LocalCatalog Oid
  delivery : QueueDelivery Oid
  origins : String → String

inductive QueueDaemonEvent (Oid Task : Type) where
  | enqueue (task : Task) (e : EnqueueEvent Oid)
  | deliver (e : QueueDeliveryEvent Oid)
  /-- The rest of the daemon writes a project record. -/
  | writeProject (name : String) (record : LocalProject Oid) (persisted : Bool)
  /-- The daemon stops, and starts again from its files. -/
  | crash

/-- The attempt that fails if one of its commands does. -/
def QueueDelivery.fallible : QueueDelivery Oid → Option (Attempt Oid)
  | .loaded a _ => some a
  | _ => none

namespace QueueDaemon

/-- The first start, with nothing queued. -/
def initial (catalog : LocalCatalog Oid) (refs : String → String → Option Oid) :
    QueueDaemon Oid Task where
  store := .load catalog [] refs []
  saved := catalog
  delivery := .idle
  origins _ := ""

def setDelivery (w : QueueDaemon Oid Task) (d : QueueDelivery Oid) : QueueDaemon Oid Task :=
  { w with delivery := d }

/-- The queue is written in memory, and its file is replaced or not. -/
def setQueue (w : QueueDaemon Oid Task) (queue : List (Publication Oid)) (write : FileWrite) :
    QueueDaemon Oid Task :=
  { w with store := { w.store with
      queue := queue,
      file := if write.replaces then queue else w.store.file } }

/-- A record is written in memory, and `catalog.json` with it or not. -/
def setProject (w : QueueDaemon Oid Task) (name : String)
    (f : LocalProject Oid → LocalProject Oid) (persisted : Bool) : QueueDaemon Oid Task :=
  { w with
    store := { w.store with catalog := updateProject w.store.catalog name f },
    saved := if persisted then updateProject w.store.catalog name f else w.saved }

def deleteRef (w : QueueDaemon Oid Task) (path id : String) : QueueDaemon Oid Task :=
  { w with store := { w.store with
      refs := Function.update w.store.refs path
        (Function.update (w.store.refs path) id none) } }

/-- The place after a write of the queue file. -/
def afterWrite (write : FileWrite) (d failed : QueueDelivery Oid) : QueueDelivery Oid :=
  match write with
  | .written => d
  | .failed _ => failed

def deliver (w : QueueDaemon Oid Task) :
    QueueDeliveryEvent Oid → Option (QueueDaemon Oid Task)
  | .start force now =>
    match w.delivery with
    | .idle => some (w.setDelivery (.pass (PublicationQueue.toProcess force now w.store.queue)))
    | _ => none
  | .next =>
    match w.delivery with
    | .pass [] => some (w.setDelivery .idle)
    | .pass (id :: ids) =>
      match PublicationQueue.findPending w.store.queue id with
      | some p => some (w.setDelivery (.reading ⟨ids, p, 5⟩))
      | none => some (w.setDelivery (.pass ids))
    | _ => none
  | .load =>
    match w.delivery with
    | .reading a =>
      match a.left with
      | 0 => some (w.setDelivery (.failing a "publication lost the remote race five times"))
      | left + 1 =>
        match PublicationQueue.find w.store.queue a.initial.publicationId with
        | none => some (w.setDelivery (.failing a "publication disappeared from queue"))
        | some p =>
          if p.pending then some (w.setDelivery (.loaded { a with left := left } p))
          else some (w.setDelivery (.pass a.rest))
    | _ => none
  | .again =>
    match w.delivery with
    | .loaded a _ => some (w.setDelivery (.reading a))
    | _ => none
  | .retarget now candidate remoteHead write error =>
    match w.delivery with
    | .loaded a p =>
      match PublicationQueue.find w.store.queue p.publicationId with
      | none => some (w.setDelivery (.failing a "publication disappeared from queue"))
      | some _ =>
        some ((w.setQueue (PublicationQueue.modify (·.retarget now candidate remoteHead)
          p.publicationId w.store.queue) write).setDelivery
            (afterWrite write (.reading a) (.failing a error)))
    | _ => none
  | .complete now ack write error =>
    match w.delivery with
    | .loaded a p =>
      let queue := PublicationQueue.complete now p ack w.store.queue
      let marked := PublicationQueue.marked now p ack w.store.queue
      some ((w.setQueue queue write).setDelivery (afterWrite write
        (.completing a p ack (marked.map (·.publicationId))
          (queue.any fun q => q.pending && q.projectId == p.projectId))
        (.failing a error)))
    | _ => none
  | .recordCompletion persisted error =>
    match w.delivery with
    | .completing a p ack completed hasPending =>
      match findProject w.store.catalog p.projectId with
      | none => some (w.setDelivery (.failing a (unknownProject p.projectId)))
      | some project =>
        some ((w.setProject p.projectId (fun q => { q with
          advertisedHeads := Function.update q.advertisedHeads p.branch (some ack.remoteHead),
          lastAppliedHeads := Function.update q.lastAppliedHeads p.branch (some ack.remoteHead),
          serverGeneration := max q.serverGeneration ack.projectGeneration,
          lastError := none,
          durability := if hasPending then q.durability else .remotelyDurable })
            persisted).setDelivery
            (if persisted then .deleting a project.localPath completed else .failing a error))
    | _ => none
  | .deleteRef deleted =>
    match w.delivery with
    | .deleting a _ [] => some (w.setDelivery (.pass a.rest))
    | .deleting a path (id :: ids) =>
      -- A ref that cannot be deleted is left where it is.
      some ((if deleted then w.deleteRef path id else w).setDelivery (.deleting a path ids))
    | _ => none
  | .fail error => w.delivery.fallible.map fun a => w.setDelivery (.failing a error)
  | .recordFailure now write =>
    match w.delivery with
    | .failing a error =>
      some ((w.setQueue (PublicationQueue.modify (·.recordFailure now error)
        a.initial.publicationId w.store.queue) write).setDelivery
          (afterWrite write (.failed a error) .idle))
    | _ => none
  | .noteFailure persisted =>
    match w.delivery with
    | .failed a error =>
      some ((w.setProject a.initial.projectId (fun q => { q with
        durability := .committedUnpublished, lastError := some error }) persisted).setDelivery
          (if persisted then .pass a.rest else .idle))
    | _ => none

/-- What a step of the delivery can do, with its guards. -/
inductive DeliveryStep (w : QueueDaemon Oid Task) :
    QueueDeliveryEvent Oid → QueueDaemon Oid Task → Prop
  | starts {force : Bool} {now : ℕ} (place : w.delivery = .idle) :
      DeliveryStep w (.start force now)
        (w.setDelivery (.pass (PublicationQueue.toProcess force now w.store.queue)))
  | ends (place : w.delivery = .pass []) : DeliveryStep w .next (w.setDelivery .idle)
  | takes {id : String} {ids : List String} {p : Publication Oid}
      (place : w.delivery = .pass (id :: ids))
      (found : PublicationQueue.findPending w.store.queue id = some p) :
      DeliveryStep w .next (w.setDelivery (.reading ⟨ids, p, 5⟩))
  | skips {id : String} {ids : List String} (place : w.delivery = .pass (id :: ids))
      (none : PublicationQueue.findPending w.store.queue id = none) :
      DeliveryStep w .next (w.setDelivery (.pass ids))
  | losesRace {a : Attempt Oid} (place : w.delivery = .reading a) (left : a.left = 0) :
      DeliveryStep w .load
        (w.setDelivery (.failing a "publication lost the remote race five times"))
  | disappears {a : Attempt Oid} {n : ℕ} (place : w.delivery = .reading a) (left : a.left = n + 1)
      (none : PublicationQueue.find w.store.queue a.initial.publicationId = none) :
      DeliveryStep w .load (w.setDelivery (.failing a "publication disappeared from queue"))
  | loads {a : Attempt Oid} {n : ℕ} {p : Publication Oid} (place : w.delivery = .reading a)
      (left : a.left = n + 1)
      (found : PublicationQueue.find w.store.queue a.initial.publicationId = some p)
      (pending : p.pending = true) :
      DeliveryStep w .load (w.setDelivery (.loaded { a with left := n } p))
  | isDone {a : Attempt Oid} {n : ℕ} {p : Publication Oid} (place : w.delivery = .reading a)
      (left : a.left = n + 1)
      (found : PublicationQueue.find w.store.queue a.initial.publicationId = some p)
      (pending : ¬ p.pending = true) :
      DeliveryStep w .load (w.setDelivery (.pass a.rest))
  | retries {a : Attempt Oid} {p : Publication Oid} (place : w.delivery = .loaded a p) :
      DeliveryStep w .again (w.setDelivery (.reading a))
  | disappearsReconciled {a : Attempt Oid} {p : Publication Oid} {now : ℕ} {candidate : Oid}
      {remoteHead : Option Oid} {write : FileWrite} {error : String}
      (place : w.delivery = .loaded a p)
      (none : PublicationQueue.find w.store.queue p.publicationId = none) :
      DeliveryStep w (.retarget now candidate remoteHead write error)
        (w.setDelivery (.failing a "publication disappeared from queue"))
  | retargets {a : Attempt Oid} {p q : Publication Oid} {now : ℕ} {candidate : Oid}
      {remoteHead : Option Oid} {write : FileWrite} {error : String}
      (place : w.delivery = .loaded a p)
      (found : PublicationQueue.find w.store.queue p.publicationId = some q) :
      DeliveryStep w (.retarget now candidate remoteHead write error)
        ((w.setQueue (PublicationQueue.modify (·.retarget now candidate remoteHead)
          p.publicationId w.store.queue) write).setDelivery
            (afterWrite write (.reading a) (.failing a error)))
  | completes {a : Attempt Oid} {p : Publication Oid} {now : ℕ} {ack : PublicationAck Oid}
      {write : FileWrite} {error : String} (place : w.delivery = .loaded a p) :
      DeliveryStep w (.complete now ack write error)
        ((w.setQueue (PublicationQueue.complete now p ack w.store.queue) write).setDelivery
          (afterWrite write (.completing a p ack
            ((PublicationQueue.marked now p ack w.store.queue).map (·.publicationId))
            ((PublicationQueue.complete now p ack w.store.queue).any fun q =>
              q.pending && q.projectId == p.projectId)) (.failing a error)))
  | missesCompleted {a : Attempt Oid} {p : Publication Oid} {ack : PublicationAck Oid}
      {completed : List String} {hasPending persisted : Bool} {error : String}
      (place : w.delivery = .completing a p ack completed hasPending)
      (none : findProject w.store.catalog p.projectId = none) :
      DeliveryStep w (.recordCompletion persisted error)
        (w.setDelivery (.failing a (unknownProject p.projectId)))
  | records {a : Attempt Oid} {p : Publication Oid} {ack : PublicationAck Oid}
      {completed : List String} {hasPending persisted : Bool} {error : String}
      {project : LocalProject Oid}
      (place : w.delivery = .completing a p ack completed hasPending)
      (found : findProject w.store.catalog p.projectId = some project) :
      DeliveryStep w (.recordCompletion persisted error)
        ((w.setProject p.projectId (fun q => { q with
          advertisedHeads := Function.update q.advertisedHeads p.branch (some ack.remoteHead),
          lastAppliedHeads := Function.update q.lastAppliedHeads p.branch (some ack.remoteHead),
          serverGeneration := max q.serverGeneration ack.projectGeneration,
          lastError := none,
          durability := if hasPending then q.durability else .remotelyDurable })
            persisted).setDelivery
            (if persisted then .deleting a project.localPath completed else .failing a error))
  | isDelivered {a : Attempt Oid} {path : String} {deleted : Bool}
      (place : w.delivery = .deleting a path []) :
      DeliveryStep w (.deleteRef deleted) (w.setDelivery (.pass a.rest))
  | deletes {a : Attempt Oid} {path id : String} {ids : List String} {deleted : Bool}
      (place : w.delivery = .deleting a path (id :: ids)) :
      DeliveryStep w (.deleteRef deleted)
        ((if deleted then w.deleteRef path id else w).setDelivery (.deleting a path ids))
  | fails {a : Attempt Oid} {p : Publication Oid} {error : String}
      (place : w.delivery = .loaded a p) :
      DeliveryStep w (.fail error) (w.setDelivery (.failing a error))
  | recordsFailure {a : Attempt Oid} {error : String} {now : ℕ} {write : FileWrite}
      (place : w.delivery = .failing a error) :
      DeliveryStep w (.recordFailure now write)
        ((w.setQueue (PublicationQueue.modify (·.recordFailure now error)
          a.initial.publicationId w.store.queue) write).setDelivery
            (afterWrite write (.failed a error) .idle))
  | notesFailure {a : Attempt Oid} {error : String} {persisted : Bool}
      (place : w.delivery = .failed a error) :
      DeliveryStep w (.noteFailure persisted)
        ((w.setProject a.initial.projectId (fun q => { q with
          durability := .committedUnpublished, lastError := some error }) persisted).setDelivery
            (if persisted then .pass a.rest else .idle))

theorem deliveryStep_of_deliver {w w' : QueueDaemon Oid Task} {e : QueueDeliveryEvent Oid}
    (h : w.deliver e = some w') : w.DeliveryStep e w' := by
  cases e with
  | start force now =>
    simp only [deliver] at h
    split at h
    · next hplace => exact Option.some.inj h ▸ .starts hplace
    · cases h
  | next =>
    simp only [deliver] at h
    split at h
    · next hplace => exact Option.some.inj h ▸ .ends hplace
    · next hplace =>
      split at h
      · next hfound => exact Option.some.inj h ▸ .takes hplace hfound
      · next hnone => exact Option.some.inj h ▸ .skips hplace hnone
    · cases h
  | load =>
    simp only [deliver] at h
    split at h
    · next hplace =>
      split at h
      · next hleft => exact Option.some.inj h ▸ .losesRace hplace hleft
      · next hleft =>
        split at h
        · next hnone => exact Option.some.inj h ▸ .disappears hplace hleft hnone
        · next hfound =>
          split at h
          · next hpending => exact Option.some.inj h ▸ .loads hplace hleft hfound hpending
          · next hpending => exact Option.some.inj h ▸ .isDone hplace hleft hfound hpending
    · cases h
  | again =>
    simp only [deliver] at h
    split at h
    · next hplace => exact Option.some.inj h ▸ .retries hplace
    · cases h
  | retarget now candidate remoteHead write error =>
    simp only [deliver] at h
    split at h
    · next hplace =>
      split at h
      · next hnone => exact Option.some.inj h ▸ .disappearsReconciled hplace hnone
      · next hfound => exact Option.some.inj h ▸ .retargets hplace hfound
    · cases h
  | complete now ack write error =>
    simp only [deliver] at h
    split at h
    · next hplace => exact Option.some.inj h ▸ .completes hplace
    · cases h
  | recordCompletion persisted error =>
    simp only [deliver] at h
    split at h
    · next hplace =>
      split at h
      · next hnone => exact Option.some.inj h ▸ .missesCompleted hplace hnone
      · next hfound => exact Option.some.inj h ▸ .records hplace hfound
    · cases h
  | deleteRef deleted =>
    simp only [deliver] at h
    split at h
    · next hplace => exact Option.some.inj h ▸ .isDelivered hplace
    · next hplace => exact Option.some.inj h ▸ .deletes hplace
    · cases h
  | fail error =>
    obtain ⟨a, ha, rfl⟩ := Option.map_eq_some_iff.mp h
    unfold QueueDelivery.fallible at ha
    split at ha
    · next hplace => exact Option.some.inj ha ▸ .fails hplace
    · cases ha
  | recordFailure now write =>
    simp only [deliver] at h
    split at h
    · next hplace => exact Option.some.inj h ▸ .recordsFailure hplace
    · cases h
  | noteFailure persisted =>
    simp only [deliver] at h
    split at h
    · next hplace => exact Option.some.inj h ▸ .notesFailure hplace
    · cases h

section Steps

variable [DecidableEq Oid] [DecidableEq Task]

/-- `catalog.json` after a step of `enqueue_publication`. -/
def savedAfter (w : QueueDaemon Oid Task) (task : Task) (e : EnqueueEvent Oid)
    (store : QueueStore Oid Task) : LocalCatalog Oid :=
  match e, w.store.calls task with
  | .record true, .queued name _ =>
    if (findProject w.store.catalog name).isSome then store.catalog else w.saved
  | _, _ => w.saved

def originsAfter (w : QueueDaemon Oid Task) (task : Task) (e : EnqueueEvent Oid) :
    String → String :=
  match e, w.store.calls task with
  | .updateRef true, .created _ project p =>
    Function.update w.origins p.publicationId project.localPath
  | _, _ => w.origins

def step (w : QueueDaemon Oid Task) : QueueDaemonEvent Oid Task → Option (QueueDaemon Oid Task)
  | .enqueue task e =>
    (w.store.enqueue task e).map fun store =>
      { w with
        store := store, saved := w.savedAfter task e store, origins := w.originsAfter task e }
  | .deliver e => w.deliver e
  | .writeProject name record persisted =>
    match findProject w.store.catalog name with
    | some project =>
      if PublishWorld.SameProject project record ∧ record.durability = project.durability then
        some (w.setProject name (fun _ => record) persisted)
      else none
    | none => none
  | .crash => (w.store.step (.crash w.saved)).map fun store =>
      { w with store := store, delivery := .idle }

end Steps

end QueueDaemon

end Resync
