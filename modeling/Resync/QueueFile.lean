import Resync.HostedForward

/-! `enqueue_publication` (`daemon.rs`) with the queue in memory and its file on
disk. A repeated report is answered from memory; what it promises is on disk as
long as no earlier write of that publication has failed. -/
namespace Resync

variable {Oid Task : Type}

/-- `write_json`: the file is replaced as a whole or not at all, and an error
may be reported after it was replaced. -/
inductive FileWrite where
  | written
  | failed (replaced : Bool)

def FileWrite.replaces : FileWrite → Bool
  | .written => true
  | .failed replaced => replaced

/-- Where a call of `enqueue_publication` stands. -/
inductive EnqueueCall (Oid : Type) where
  | idle
  | called (name : String) (branch : Branch) (commit : Oid)
  | cloned (name : String) (project : LocalProject Oid) (branch : Branch) (commit : Oid)
  | verified (name : String) (project : LocalProject Oid) (branch : Branch) (commit : Oid)
  | created (name : String) (project : LocalProject Oid) (publication : Publication Oid)
  | referenced (name : String) (publication : Publication Oid)
  | queued (name : String) (publication : Publication Oid)

/-- The daemon's memory and its state directory; `refs` are the publication refs
by checkout path. `issued` and `returned` only look back: the IDs that were
drawn, and those that calls have returned. -/
structure QueueStore (Oid Task : Type) where
  catalog : LocalCatalog Oid
  queue : List (Publication Oid)
  file : List (Publication Oid)
  refs : String → String → Option Oid
  calls : Task → EnqueueCall Oid
  issued : List String
  returned : List String

inductive EnqueueEvent (Oid : Type) where
  | call (name : String) (branch : Branch) (commit : Oid)
  | clone
  /-- `answer` is what `rev-parse --verify` prints, `none` for an error. -/
  | verify (answer : Option Oid)
  /-- The search for a pending publication of the commit; a new publication is
  given the ID and the time. -/
  | lookUp (id : String) (now : ℕ)
  | updateRef (ok : Bool)
  | push (write : FileWrite)
  /-- The durability is recorded, and `catalog.json` is written or not. -/
  | record (persisted : Bool)

inductive QueueEvent (Oid Task : Type) where
  | enqueue (task : Task) (e : EnqueueEvent Oid)
  /-- The daemon dies, and starts again from the files; `catalog` is what it
  finds in `catalog.json`. -/
  | crash (catalog : LocalCatalog Oid)

namespace QueueStore

/-- The daemon as it starts from its files. -/
def load (catalog : LocalCatalog Oid) (file : List (Publication Oid))
    (refs : String → String → Option Oid) (issued : List String) : QueueStore Oid Task :=
  ⟨catalog, file, file, refs, fun _ => .idle, issued, []⟩

def fileIds (w : QueueStore Oid Task) : List String := w.file.map (·.publicationId)

section Steps

variable [DecidableEq Task]

def setCall (w : QueueStore Oid Task) (task : Task) (c : EnqueueCall Oid) :
    QueueStore Oid Task := { w with calls := Function.update w.calls task c }

/-- The call returns `Ok(id)`. -/
def answer (w : QueueStore Oid Task) (task : Task) (id : String) : QueueStore Oid Task :=
  { w.setCall task .idle with returned := id :: w.returned }

variable [DecidableEq Oid]

def enqueue (w : QueueStore Oid Task) (task : Task) :
    EnqueueEvent Oid → Option (QueueStore Oid Task)
  | .call name b c =>
    match w.calls task with
    | .idle => some (w.setCall task (.called name b c))
    | _ => none
  | .clone =>
    match w.calls task with
    | .called name b c =>
      match findProject w.catalog name with
      | some project => some (w.setCall task (.cloned name project b c))
      | none => some (w.setCall task .idle)
    | _ => none
  | .verify answer =>
    match w.calls task with
    | .cloned name project b c =>
      if answer = some c then some (w.setCall task (.verified name project b c))
      else some (w.setCall task .idle)
    | _ => none
  | .lookUp id now =>
    match w.calls task with
    | .verified name project b c =>
      match PublicationQueue.existing w.queue project.projectId b c with
      | some p => some (w.answer task p.publicationId)
      | none =>
        if id ∈ w.issued then none
        else some { w.setCall task (.created name project (.new id now project.projectId
            project.checkoutId b c (project.advertisedHeads b))) with
          issued := id :: w.issued }
    | _ => none
  | .updateRef ok =>
    match w.calls task with
    | .created name project p =>
      if ok then some { w.setCall task (.referenced name p) with
        refs := Function.update w.refs project.localPath
          (Function.update (w.refs project.localPath) p.publicationId (some p.sourceCommitOid)) }
      else some (w.setCall task .idle)
    | _ => none
  | .push write =>
    match w.calls task with
    | .referenced name p =>
      some { w.setCall task (match write with
          | .written => .queued name p
          | .failed _ => .idle) with
        -- The publication is queued in memory even when the file is not written.
        queue := w.queue ++ [p],
        file := if write.replaces then w.queue ++ [p] else w.file }
    | _ => none
  | .record persisted =>
    match w.calls task with
    | .queued name p =>
      match findProject w.catalog name with
      | none => some (w.setCall task .idle)
      | some _ =>
        let recorded := { w with catalog := updateProject w.catalog name fun q =>
          { q with durability := .committedUnpublished } }
        some (if persisted then recorded.answer task p.publicationId
          else recorded.setCall task .idle)
    | _ => none

/-- What a step of a call can do, with its guards. -/
inductive EnqueueStep (w : QueueStore Oid Task) (task : Task) :
    EnqueueEvent Oid → QueueStore Oid Task → Prop
  | calls {name : String} {b : Branch} {c : Oid} (place : w.calls task = .idle) :
      EnqueueStep w task (.call name b c) (w.setCall task (.called name b c))
  | clones {name : String} {b : Branch} {c : Oid} {project : LocalProject Oid}
      (place : w.calls task = .called name b c)
      (found : findProject w.catalog name = some project) :
      EnqueueStep w task .clone (w.setCall task (.cloned name project b c))
  | clonesUnknown {name : String} {b : Branch} {c : Oid} (place : w.calls task = .called name b c)
      (none : findProject w.catalog name = none) :
      EnqueueStep w task .clone (w.setCall task .idle)
  | verifies {name : String} {project : LocalProject Oid} {b : Branch} {c : Oid}
      (place : w.calls task = .cloned name project b c) :
      EnqueueStep w task (.verify (some c)) (w.setCall task (.verified name project b c))
  | refuses {name : String} {project : LocalProject Oid} {b : Branch} {c : Oid}
      {answer : Option Oid} (place : w.calls task = .cloned name project b c)
      (other : answer ≠ some c) : EnqueueStep w task (.verify answer) (w.setCall task .idle)
  | finds {name : String} {project : LocalProject Oid} {b : Branch} {c : Oid}
      {p : Publication Oid} {id : String} {now : ℕ}
      (place : w.calls task = .verified name project b c)
      (found : PublicationQueue.existing w.queue project.projectId b c = some p) :
      EnqueueStep w task (.lookUp id now) (w.answer task p.publicationId)
  | creates {name : String} {project : LocalProject Oid} {b : Branch} {c : Oid}
      {id : String} {now : ℕ} (place : w.calls task = .verified name project b c)
      (none : PublicationQueue.existing w.queue project.projectId b c = none)
      (fresh : id ∉ w.issued) :
      EnqueueStep w task (.lookUp id now)
        { w.setCall task (.created name project (.new id now project.projectId
            project.checkoutId b c (project.advertisedHeads b))) with
          issued := id :: w.issued }
  | references {name : String} {project : LocalProject Oid} {p : Publication Oid}
      (place : w.calls task = .created name project p) :
      EnqueueStep w task (.updateRef true)
        { w.setCall task (.referenced name p) with
          refs := Function.update w.refs project.localPath
            (Function.update (w.refs project.localPath) p.publicationId (some p.sourceCommitOid)) }
  | losesRef {name : String} {project : LocalProject Oid} {p : Publication Oid}
      (place : w.calls task = .created name project p) :
      EnqueueStep w task (.updateRef false) (w.setCall task .idle)
  | queues {name : String} {p : Publication Oid} {write : FileWrite}
      (place : w.calls task = .referenced name p) :
      EnqueueStep w task (.push write)
        { w.setCall task (match write with
            | .written => .queued name p
            | .failed _ => .idle) with
          queue := w.queue ++ [p],
          file := if write.replaces then w.queue ++ [p] else w.file }
  | recordsUnknown {name : String} {p : Publication Oid} {persisted : Bool}
      (place : w.calls task = .queued name p) (none : findProject w.catalog name = none) :
      EnqueueStep w task (.record persisted) (w.setCall task .idle)
  | records {name : String} {p : Publication Oid} {project : LocalProject Oid}
      (place : w.calls task = .queued name p)
      (found : findProject w.catalog name = some project) :
      EnqueueStep w task (.record true)
        ({ w with catalog := updateProject w.catalog name fun q =>
          { q with durability := .committedUnpublished } }.answer task p.publicationId)
  | losesRecord {name : String} {p : Publication Oid} {project : LocalProject Oid}
      (place : w.calls task = .queued name p)
      (found : findProject w.catalog name = some project) :
      EnqueueStep w task (.record false)
        ({ w with catalog := updateProject w.catalog name fun q =>
          { q with durability := .committedUnpublished } }.setCall task .idle)

theorem enqueueStep_of_enqueue {w w' : QueueStore Oid Task} {task : Task} {e : EnqueueEvent Oid}
    (h : w.enqueue task e = some w') : w.EnqueueStep task e w' := by
  cases e with
  | call name b c =>
    simp only [enqueue] at h
    split at h
    · next hplace => exact Option.some.inj h ▸ .calls hplace
    · cases h
  | clone =>
    simp only [enqueue] at h
    split at h
    · next hplace =>
      split at h
      · next hfound => exact Option.some.inj h ▸ .clones hplace hfound
      · next hnone => exact Option.some.inj h ▸ .clonesUnknown hplace hnone
    · cases h
  | verify answer =>
    simp only [enqueue] at h
    split at h
    · next hplace =>
      split at h
      · next hsame =>
        subst hsame
        exact Option.some.inj h ▸ .verifies hplace
      · next hother => exact Option.some.inj h ▸ .refuses hplace hother
    · cases h
  | lookUp id now =>
    simp only [enqueue] at h
    split at h
    · next hplace =>
      split at h
      · next hfound => exact Option.some.inj h ▸ .finds hplace hfound
      · next hnone =>
        split at h
        · cases h
        · next hfresh => exact Option.some.inj h ▸ .creates hplace hnone hfresh
    · cases h
  | updateRef ok =>
    simp only [enqueue] at h
    split at h
    · next hplace =>
      cases ok with
      | true => exact Option.some.inj h ▸ .references hplace
      | false => exact Option.some.inj h ▸ .losesRef hplace
    · cases h
  | push write =>
    simp only [enqueue] at h
    split at h
    · next hplace => exact Option.some.inj h ▸ .queues hplace
    · cases h
  | record persisted =>
    simp only [enqueue] at h
    split at h
    · next hplace =>
      split at h
      · next hnone => exact Option.some.inj h ▸ .recordsUnknown hplace hnone
      · next hfound =>
        cases persisted with
        | true => exact Option.some.inj h ▸ .records hplace hfound
        | false => exact Option.some.inj h ▸ .losesRecord hplace hfound
    · cases h

def step (w : QueueStore Oid Task) : QueueEvent Oid Task → Option (QueueStore Oid Task)
  | .enqueue task e => w.enqueue task e
  | .crash catalog => some { w with
      catalog := catalog, queue := w.file, calls := fun _ => .idle }

/-- A call that finds a pending publication of its commit in memory finds one
whose write has reached the file. -/
def FindsWritten (w : QueueStore Oid Task) : QueueEvent Oid Task → Prop
  | .enqueue task (.lookUp _ _) =>
    match w.calls task with
    | .verified _ project b c =>
      ∀ p ∈ PublicationQueue.existing w.queue project.projectId b c, p.publicationId ∈ w.fileIds
    | _ => True
  | _ => True

end Steps

/-- The file has every publication whose ID a call has returned. -/
def KeepsPromises (w : QueueStore Oid Task) : Prop := ∀ id ∈ w.returned, id ∈ w.fileIds

/-- The file also has what a call is about to return, and memory has what the
file has. -/
structure Durable (w : QueueStore Oid Task) : Prop where
  returned : w.KeepsPromises
  queued : ∀ task name p, w.calls task = .queued name p → p.publicationId ∈ w.fileIds
  memory : ∀ p ∈ w.file, p ∈ w.queue

theorem durable_load (catalog : LocalCatalog Oid) (file : List (Publication Oid))
    (refs : String → String → Option Oid) (issued : List String) :
    Durable (load catalog file refs issued : QueueStore Oid Task) where
  returned id hid := by cases hid
  queued task name p hp := by cases hp
  memory p hp := hp

section Invariant

variable [DecidableEq Task] {w w' : QueueStore Oid Task} {task : Task}

/-- A step that leaves the files and the answers alone, and whose call is not
about to return. -/
theorem Durable.setCall (h : Durable w) {c : EnqueueCall Oid}
    (hc : ∀ name p, c = .queued name p → p.publicationId ∈ w.fileIds) :
    Durable (w.setCall task c) where
  returned := h.returned
  queued t name p hp := by
    by_cases ht : t = task
    · subst ht
      have hself : (w.setCall t c).calls t = c := Function.update_self ..
      exact hc name p (hself.symm.trans hp)
    · have hother : (w.setCall task c).calls t = w.calls t := Function.update_of_ne ht ..
      exact h.queued t name p (hother.symm.trans hp)
  memory := h.memory

theorem Durable.setCall_waiting (h : Durable w) {c : EnqueueCall Oid}
    (hc : ∀ name p, c ≠ .queued name p) : Durable (w.setCall task c) :=
  h.setCall fun name p hp => absurd hp (hc name p)

omit [DecidableEq Task] in
theorem Durable.setCatalog (h : Durable w) (catalog : LocalCatalog Oid) :
    Durable { w with catalog := catalog } := ⟨h.returned, h.queued, h.memory⟩

/-- The call returns an ID that the file has. -/
theorem Durable.answer (h : Durable w) {id : String} (hid : id ∈ w.fileIds) :
    Durable (w.answer task id) := by
  have hidle : Durable (w.setCall task .idle) := h.setCall_waiting fun _ _ hc => by cases hc
  refine ⟨fun x hx => ?_, hidle.queued, hidle.memory⟩
  rcases List.mem_cons.mp hx with rfl | hx
  · exact hid
  · exact hidle.returned x hx

/-- A new entry goes to memory, and with it all of memory to the file, or not. -/
theorem Durable.push (h : Durable w) {name : String} {p : Publication Oid} (write : FileWrite) :
    Durable { w.setCall task (match write with
        | .written => .queued name p
        | .failed _ => .idle) with
      queue := w.queue ++ [p],
      file := if write.replaces then w.queue ++ [p] else w.file } := by
  have hgrow : ∀ id ∈ w.fileIds, id ∈
      (if write.replaces then w.queue ++ [p] else w.file).map (·.publicationId) := by
    intro id hid
    split
    · obtain ⟨q, hq, rfl⟩ := List.mem_map.mp hid
      exact List.mem_map_of_mem (List.mem_append_left [p] (h.memory q hq))
    · exact hid
  refine ⟨fun id hid => hgrow id (h.returned id hid), fun t name' p' hp => ?_, fun q hq => ?_⟩
  · by_cases ht : t = task
    · subst ht
      have hcall := (Function.update_self t _ w.calls).symm.trans hp
      cases write with
      | written =>
        obtain ⟨-, rfl⟩ := EnqueueCall.queued.inj hcall
        exact List.mem_map_of_mem (List.mem_append_right w.queue (List.mem_singleton_self p))
      | failed replaced => cases hcall
    · exact hgrow _ (h.queued t name' p' ((Function.update_of_ne ht ..).symm.trans hp))
  · have hq' : q ∈ if write.replaces then w.queue ++ [p] else w.file := hq
    split at hq'
    · exact hq'
    · exact List.mem_append_left [p] (h.memory q hq')

variable [DecidableEq Oid]

theorem Durable.step (h : Durable w) {e : QueueEvent Oid Task} (hok : FindsWritten w e)
    (hs : w.step e = some w') : Durable w' := by
  cases e with
  | crash catalog =>
    obtain rfl := Option.some.inj hs
    exact ⟨h.returned, (fun _ _ _ hp => by cases hp), fun _ hp => hp⟩
  | enqueue task e =>
    have hs : w.enqueue task e = some w' := hs
    cases enqueueStep_of_enqueue hs with
    | calls | clones | clonesUnknown | verifies | refuses | losesRef | recordsUnknown =>
      exact h.setCall_waiting fun _ _ hc => by cases hc
    | finds place found =>
      -- the answer comes from memory, and by the condition it is in the file
      rw [FindsWritten, place] at hok
      exact h.answer (hok _ found)
    | @creates name project =>
      have hcreated : ∀ p, Durable (w.setCall task (.created name project p)) :=
        fun p => h.setCall_waiting fun _ _ hc => by cases hc
      exact ⟨h.returned, (hcreated _).queued, h.memory⟩
    | @references name project p =>
      have hreferenced : Durable (w.setCall task (.referenced name p)) :=
        h.setCall_waiting fun _ _ hc => by cases hc
      exact ⟨h.returned, hreferenced.queued, h.memory⟩
    | queues => exact h.push _
    | records place => exact (h.setCatalog _).answer (h.queued task _ _ place)
    | losesRecord => exact (h.setCatalog _).setCall_waiting fun _ _ hc => by cases hc

/-- The answer from memory is right only if the file has the publication. -/
theorem findsWritten_of_promises {e : QueueEvent Oid Task}
    (h : ∀ w', w.step e = some w' → w'.KeepsPromises) : FindsWritten w e := by
  cases e with
  | crash catalog => trivial
  | enqueue task e =>
    cases e with
    | lookUp id now =>
      rw [FindsWritten]
      split
      · next name project b c hcall =>
        intro p hp
        have hs : w.step (.enqueue task (.lookUp id now)) =
            some (w.answer task p.publicationId) := by
          have hfound : PublicationQueue.existing w.queue project.projectId b c = some p := hp
          simp only [QueueStore.step, enqueue, hcall, hfound]
        exact h _ hs p.publicationId List.mem_cons_self
      · trivial
    | _ => trivial

/-- The calls keep their promises in every state of a run exactly when each of
its steps meets the condition: no call finds the pending publication of its
commit in memory only. -/
theorem returned_ids_are_durable_iff (catalog : LocalCatalog Oid)
    (file : List (Publication Oid)) (refs : String → String → Option Oid) (issued : List String)
    (es : List (QueueEvent Oid Task)) :
    Runs.Steps step FindsWritten (load catalog file refs issued) es ↔
      ∀ done rest u, es = done ++ rest →
        Runs.run step (load catalog file refs issued) done = some u → u.KeepsPromises :=
  Runs.steps_iff_forall_reached (fun _ _ _ h hok hs => h.step hok hs) (fun _ h => h.returned)
    (fun _ _ _ h => findsWritten_of_promises h) (durable_load catalog file refs issued)

/-- Whatever the run, a daemon that starts again has in its queue what is in the
file. -/
theorem restarted_queue {catalog : LocalCatalog Oid} (hs : w.step (.crash catalog) = some w')
    (h : w.KeepsPromises) : ∀ id ∈ w.returned, ∃ p ∈ w'.queue, p.publicationId = id := by
  intro id hid
  obtain rfl := Option.some.inj hs
  exact List.mem_map.mp (h id hid)

end Invariant

end QueueStore

section OneProject

/-- A report of commit `1` of `main`, up to the write of the queue file. -/
def reportOne (task : Fin 2) (id : String) (write : FileWrite) : List (QueueEvent ℕ (Fin 2)) :=
  [.call "prj" "main" 1, .clone, .verify (some 1), .lookUp id 5, .updateRef true,
    .push write].map (.enqueue task)

/-- The first write fails. The report is repeated, and answered with an ID that
the file does not have. -/
theorem repeated_report_is_not_durable : ∃ v : QueueStore ℕ (Fin 2),
    Runs.run QueueStore.step
      (QueueStore.load currentMain.catalog [] (fun _ _ => none) [])
      (reportOne 0 "pub" (.failed false) ++ (reportOne 0 "new" .written).take 4) = some v ∧
    v.returned = ["pub"] ∧ v.fileIds = [] ∧ ¬ v.KeepsPromises := by
  have htest : ((Runs.run QueueStore.step
      (QueueStore.load currentMain.catalog [] (fun _ _ => none) [] : QueueStore ℕ (Fin 2))
      (reportOne 0 "pub" (.failed false) ++ (reportOne 0 "new" .written).take 4)).map
        fun v => (v.returned, v.fileIds)) = some (["pub"], []) := by decide +kernel
  obtain ⟨v, hv, hids⟩ := Option.map_eq_some_iff.mp htest
  obtain ⟨hreturned, hfile⟩ := Prod.mk.injEq .. ▸ hids
  refine ⟨v, hv, hreturned, hfile, fun h => ?_⟩
  have hpub := h "pub" (hreturned ▸ List.mem_singleton_self "pub")
  rw [hfile] at hpub
  cases hpub

end OneProject

end Resync
