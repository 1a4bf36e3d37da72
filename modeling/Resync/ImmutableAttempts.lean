import Resync.QueueRefRuns

/-! The requests of `acknowledge_with_provider` (`publication.rs`), which a
provider may answer from what it has stored for the ID and the attempt. A
reconciliation gives a publication its new attempt, candidate and expectation in
memory, and writes the queue afterwards. -/
namespace Resync

variable {Oid Task : Type}

/-- The body of the request. -/
structure AckRequest (Oid : Type) where
  publicationId : String
  attempt : ℕ
  branch : Branch
  candidateOid : Oid
  expectedRemoteOid : Option Oid
deriving DecidableEq

/-- What `acknowledge_with_provider` sends for a publication. -/
def Publication.ackRequest (p : Publication Oid) : AckRequest Oid where
  publicationId := p.publicationId
  attempt := p.attempt
  branch := p.branch
  candidateOid := p.candidateCommitOid
  expectedRemoteOid := p.expectedRemoteOid

/-- The daemon with the requests it has sent. `awaiting` says that the delivery has
sent one, and waits for its answer. -/
structure RequestingDaemon (Oid Task : Type) where
  daemon : QueueDaemon Oid Task
  awaiting : Bool
  sent : List (AckRequest Oid)

inductive RequestingEvent (Oid Task : Type) where
  /-- The delivery sends its request. That its project has a service, and the daemon a
  token, is not looked at: without them a delivery completes as it does here if it
  sends none. -/
  | request
  | daemon (e : QueueDaemonEvent Oid Task)

/-- What may follow on a request in its delivery: an ACK completes the publication,
and any other answer, or none, is an error. -/
def QueueDeliveryEvent.answers : QueueDeliveryEvent Oid → Bool
  | .complete .. | .fail _ => true
  | _ => false

/-- The delivery is no longer waiting after the step. -/
def QueueDaemonEvent.ends : QueueDaemonEvent Oid Task → Bool
  | .deliver _ | .crash => true
  | _ => false

/-- The step can happen while the delivery waits. -/
def QueueDaemonEvent.duringRequest : QueueDaemonEvent Oid Task → Bool
  | .deliver e => e.answers
  | _ => true

namespace RequestingDaemon

def initial (catalog : LocalCatalog Oid) (refs : String → String → Option Oid) :
    RequestingDaemon Oid Task where
  daemon := .initial catalog refs
  awaiting := false
  sent := []

section Steps

variable [DecidableEq Oid] [DecidableEq Task]

def step (w : RequestingDaemon Oid Task) :
    RequestingEvent Oid Task → Option (RequestingDaemon Oid Task)
  | .request =>
    match w.daemon.delivery with
    | .loaded _ p =>
      if w.awaiting then none
      else some { w with awaiting := true, sent := p.ackRequest :: w.sent }
    | _ => none
  | .daemon e =>
    if w.awaiting && !e.duringRequest then none
    else (w.daemon.step e).map fun daemon =>
      { w with daemon := daemon, awaiting := w.awaiting && !e.ends }

end Steps

/-- No two requests with the same ID and attempt differ. -/
def Immutable (w : RequestingDaemon Oid Task) : Prop :=
  ∀ r ∈ w.sent, ∀ s ∈ w.sent, r.publicationId = s.publicationId → r.attempt = s.attempt → r = s

/-- The condition on the steps: a request is sent only for what the queue file has
of its publication, if the file has the publication at all. -/
def SendsWritten (w : RequestingDaemon Oid Task) : RequestingEvent Oid Task → Prop
  | .request =>
    match w.daemon.delivery with
    | .loaded _ p => ∀ q ∈ w.daemon.store.file, q.publicationId = p.publicationId →
        q.ackRequest = p.ackRequest
    | _ => True
  | .daemon _ => True

instance [DecidableEq Oid] (w : RequestingDaemon Oid Task) (e : RequestingEvent Oid Task) :
    Decidable (SendsWritten w e) := by
  unfold SendsWritten
  split
  · split <;> infer_instance
  · infer_instance

end RequestingDaemon

/-- The later version of a publication: it has not changed what it asks for, or it
has a higher attempt. -/
structure Publication.Follows (p q : Publication Oid) : Prop where
  id : q.publicationId = p.publicationId
  request : p.attempt < q.attempt ∨ q.ackRequest = p.ackRequest

/-- What was sent for a publication of the list is what it still asks for, or was an
earlier attempt. -/
def Covers (queue : List (Publication Oid)) (r : AckRequest Oid) : Prop :=
  ∀ q ∈ queue, q.publicationId = r.publicationId → r.attempt < q.attempt ∨ q.ackRequest = r

section Versions

variable {p q : Publication Oid} {queue queue' : List (Publication Oid)} {r : AckRequest Oid}

theorem Publication.Follows.refl (p : Publication Oid) : p.Follows p := ⟨rfl, Or.inr rfl⟩

theorem Publication.follows_retarget (now : ℕ) (c : Oid) (h : Option Oid)
    (p : Publication Oid) : p.Follows (p.retarget now c h) :=
  ⟨rfl, Or.inl (Nat.lt_succ_self p.attempt)⟩

theorem Covers.follow (h : Covers queue r) (hqueue : ∀ q ∈ queue', ∃ p ∈ queue, p.Follows q) :
    Covers queue' r := by
  intro q hq hid
  obtain ⟨p, hp, hfollows⟩ := hqueue q hq
  have hcovers := h p hp (hfollows.id.symm.trans hid)
  rcases hfollows.request with hlt | hsame
  · have hle : r.attempt ≤ p.attempt := by
      rcases hcovers with hbefore | hnow
      · exact le_of_lt hbefore
      · rw [← hnow]
        exact le_refl p.attempt
    exact Or.inl (lt_of_le_of_lt hle hlt)
  · rcases hcovers with hbefore | hnow
    · have hattempt : q.attempt = p.attempt := congrArg AckRequest.attempt hsame
      rw [hattempt]
      exact Or.inl hbefore
    · exact Or.inr (hsame.trans hnow)

theorem follows_modify {f : Publication Oid → Publication Oid}
    (hf : ∀ p : Publication Oid, p.Follows (f p)) (id : String) (queue : List (Publication Oid)) :
    ∀ q ∈ PublicationQueue.modify f id queue, ∃ p ∈ queue, p.Follows q := by
  intro q hq
  rcases mem_modifyFirst hq with hq | ⟨p, hp, rfl⟩
  · exact ⟨q, hq, .refl q⟩
  · exact ⟨p, List.mem_of_find?_eq_some hp, hf p⟩

theorem follows_complete (now : ℕ) (p : Publication Oid) (ack : PublicationAck Oid)
    (queue : List (Publication Oid)) :
    ∀ q ∈ PublicationQueue.complete now p ack queue, ∃ p ∈ queue, p.Follows q := by
  intro q hq
  obtain ⟨r, hr, rfl⟩ := List.mem_map.mp ((PublicationQueue.compact_sublist _).subset hq)
  refine ⟨r, hr, ?_⟩
  split
  · exact ⟨rfl, Or.inr rfl⟩
  · exact .refl r

end Versions

namespace QueueDaemon

variable {w w' : QueueDaemon Oid Task}

/-- What a step of a delivery does to the queue and to the file. -/
structure Advances (w w' : QueueDaemon Oid Task) : Prop where
  queue : ∀ q ∈ w'.store.queue, ∃ p ∈ w.store.queue, p.Follows q
  file : w'.store.file = w'.store.queue ∨ w'.store.file = w.store.file
  calls : w'.store.calls = w.store.calls
  issued : w'.store.issued = w.store.issued
  loaded : ∀ a p, w'.delivery = .loaded a p → p ∈ w'.store.queue

theorem Advances.place {d : QueueDelivery Oid} (hd : ∀ a p, d = .loaded a p → p ∈ w.store.queue) :
    Advances w (w.setDelivery d) :=
  ⟨fun q hq => ⟨q, hq, .refl q⟩, Or.inr rfl, rfl, rfl, hd⟩

theorem Advances.setProject {d : QueueDelivery Oid} (hd : ∀ a p, d ≠ .loaded a p) (name : String)
    (f : LocalProject Oid → LocalProject Oid) (persisted : Bool) :
    Advances w ((w.setProject name f persisted).setDelivery d) :=
  ⟨fun q hq => ⟨q, hq, .refl q⟩, Or.inr rfl, rfl, rfl, fun a p hp => absurd hp (hd a p)⟩

theorem Advances.setQueue {queue : List (Publication Oid)} {write : FileWrite}
    {d : QueueDelivery Oid} (hqueue : ∀ q ∈ queue, ∃ p ∈ w.store.queue, p.Follows q)
    (hd : ∀ a p, d ≠ .loaded a p) : Advances w ((w.setQueue queue write).setDelivery d) := by
  refine ⟨hqueue, ?_, rfl, rfl, fun a p hp => absurd hp (hd a p)⟩
  change (if write.replaces then queue else w.store.file) = queue ∨
    (if write.replaces then queue else w.store.file) = w.store.file
  split
  · exact Or.inl rfl
  · exact Or.inr rfl

/-- A delivery only ever moves publications on. -/
theorem deliver_advances {e : QueueDeliveryEvent Oid} (hs : w.deliver e = some w') :
    Advances w w' := by
  cases deliveryStep_of_deliver hs with
  | loads place left found =>
    -- the publication is the one that the queue has
    apply Advances.place
    intro a' p' h
    obtain ⟨-, rfl⟩ := QueueDelivery.loaded.inj h
    exact (PublicationQueue.find_eq_some found).1
  | @retargets a p q now candidate remoteHead write =>
    apply Advances.setQueue
    · exact follows_modify (Publication.follows_retarget now candidate remoteHead) _ _
    · intro a' p' h
      cases write <;> cases h
  | @completes a p now ack write =>
    apply Advances.setQueue (follows_complete now p ack _)
    intro a' p' h
    cases write <;> cases h
  | @records a p ack completed hasPending persisted =>
    apply Advances.setProject
    intro a' p' h
    cases persisted <;> cases h
  | @deletes a path id ids deleted =>
    cases deleted with
    | true => exact ⟨fun q hq => ⟨q, hq, .refl q⟩, Or.inr rfl, rfl, rfl, fun _ _ h => by cases h⟩
    | false => exact .place fun _ _ h => by cases h
  | @recordsFailure a error now write =>
    apply Advances.setQueue
    · have hsame : ∀ p : Publication Oid, p.Follows (p.recordFailure now error) :=
        fun p => ⟨rfl, Or.inr rfl⟩
      exact follows_modify hsame _ _
    · intro a' p' h
      cases write <;> cases h
  | @notesFailure a error persisted =>
    apply Advances.setProject
    intro a' p' h
    cases persisted <;> cases h
  | _ => exact .place fun _ _ h => by cases h

end QueueDaemon

namespace RequestingDaemon

/-- The invariant: memory and file have moved on from every request, and what is
about to be queued has never been asked for. -/
structure Orderly (w : RequestingDaemon Oid Task) : Prop where
  referenced : w.daemon.Referenced
  loaded : ∀ a p, w.daemon.delivery = .loaded a p → p ∈ w.daemon.store.queue
  queue : ∀ r ∈ w.sent, Covers w.daemon.store.queue r
  file : ∀ r ∈ w.sent, Covers w.daemon.store.file r
  issued : ∀ r ∈ w.sent, r.publicationId ∈ w.daemon.store.issued
  flight : ∀ task p, (w.daemon.store.calls task).inFlight = some p →
    ∀ r ∈ w.sent, r.publicationId ≠ p.publicationId
  immutable : w.Immutable

variable {w w' : RequestingDaemon Oid Task}

theorem orderly_initial (catalog : LocalCatalog Oid) (refs : String → String → Option Oid) :
    Orderly (initial catalog refs : RequestingDaemon Oid Task) where
  referenced := QueueDaemon.referenced_initial catalog refs
  loaded a p h := by cases h
  queue r hr := by cases hr
  file r hr := by cases hr
  issued r hr := by cases hr
  flight task p h := by cases h
  immutable r hr := by cases hr

/-- A request of the publication that the queue has, at a time when the file does
not have another version of it. -/
theorem Orderly.request (h : Orderly w) {p : Publication Oid} (hp : p ∈ w.daemon.store.queue)
    (hfile : ∀ q ∈ w.daemon.store.file, q.publicationId = p.publicationId →
      q.ackRequest = p.ackRequest) :
    Orderly { w with awaiting := true, sent := p.ackRequest :: w.sent } := by
  have hdistinct := h.referenced.distinct
  -- what was sent before for the attempt is what is sent now
  have hsame : ∀ r ∈ w.sent, r.publicationId = p.publicationId → r.attempt = p.attempt →
      p.ackRequest = r := by
    intro r hr hid hattempt
    rcases h.queue r hr p hp hid.symm with hlt | hnow
    · omega
    · exact hnow
  refine ⟨h.referenced, h.loaded, fun r hr => ?_, fun r hr => ?_, fun r hr => ?_,
    fun task q hq r hr => ?_, fun r hr s hs hid hattempt => ?_⟩
  · rcases List.mem_cons.mp hr with rfl | hr
    · intro q hq hid
      rw [hdistinct.unique hq hp hid]
      exact Or.inr rfl
    · exact h.queue r hr
  · rcases List.mem_cons.mp hr with rfl | hr
    · exact fun q hq hid => Or.inr (hfile q hq hid)
    · exact h.file r hr
  · rcases List.mem_cons.mp hr with rfl | hr
    · exact hdistinct.issued p (Or.inl hp)
    · exact h.issued r hr
  · rcases List.mem_cons.mp hr with rfl | hr
    · exact (hdistinct.flight task q hq).2 p (Or.inl hp)
    · exact h.flight task q hq r hr
  · rcases List.mem_cons.mp hr with rfl | hr
    · rcases List.mem_cons.mp hs with rfl | hs
      · rfl
      · exact hsame s hs hid.symm hattempt.symm
    · rcases List.mem_cons.mp hs with rfl | hs
      · exact (hsame r hr hid hattempt).symm
      · exact h.immutable r hr s hs hid hattempt

/-- A step of the daemon between the requests. -/
theorem Orderly.move (h : Orderly w) {daemon : QueueDaemon Oid Task} {awaiting : Bool}
    (hreferenced : daemon.Referenced)
    (hloaded : ∀ a p, daemon.delivery = .loaded a p → p ∈ daemon.store.queue)
    (hqueue : ∀ r ∈ w.sent, Covers daemon.store.queue r)
    (hfile : ∀ r ∈ w.sent, Covers daemon.store.file r)
    (hissued : ∀ id ∈ w.daemon.store.issued, id ∈ daemon.store.issued)
    (hflight : ∀ task p, (daemon.store.calls task).inFlight = some p →
      ∀ r ∈ w.sent, r.publicationId ≠ p.publicationId) :
    Orderly { w with daemon := daemon, awaiting := awaiting } :=
  ⟨hreferenced, hloaded, hqueue, hfile, fun r hr => hissued _ (h.issued r hr), hflight,
    h.immutable⟩

theorem Orderly.deliver (h : Orderly w) {daemon : QueueDaemon Oid Task} {awaiting : Bool}
    {e : QueueDeliveryEvent Oid} (hs : w.daemon.deliver e = some daemon) :
    Orderly { w with daemon := daemon, awaiting := awaiting } := by
  have hadvances := QueueDaemon.deliver_advances hs
  have hqueue : ∀ r ∈ w.sent, Covers daemon.store.queue r :=
    fun r hr => (h.queue r hr).follow hadvances.queue
  apply h.move (h.referenced.deliver hs) hadvances.loaded hqueue
  · intro r hr
    rcases hadvances.file with hfile | hfile
    · rw [hfile]
      exact hqueue r hr
    · rw [hfile]
      exact h.file r hr
  · rw [hadvances.issued]
    exact fun _ hid => hid
  · rw [hadvances.calls]
    exact h.flight

/-- What a call puts in the queue has an ID that was never sent. -/
theorem Orderly.pushed (h : Orderly w) {p : Publication Oid}
    (hfresh : ∀ r ∈ w.sent, r.publicationId ≠ p.publicationId) :
    ∀ r ∈ w.sent, Covers (w.daemon.store.queue ++ [p]) r := by
  intro r hr q hq hid
  rcases List.mem_append.mp hq with hq | hq
  · exact h.queue r hr q hq hid
  · obtain rfl := List.mem_singleton.mp hq
    exact absurd hid.symm (hfresh r hr)

section Steps

variable [DecidableEq Oid] [DecidableEq Task]

theorem Orderly.enqueue (h : Orderly w) {daemon : QueueDaemon Oid Task} {awaiting : Bool}
    {task : Task} {e : EnqueueEvent Oid} (hs : w.daemon.step (.enqueue task e) = some daemon) :
    Orderly { w with daemon := daemon, awaiting := awaiting } := by
  obtain ⟨hdelivery, hcalls, hcases⟩ := QueueDaemon.enqueue_cases hs
  have hreferenced := h.referenced.step hs
  have hloaded : (∀ q ∈ w.daemon.store.queue, q ∈ daemon.store.queue) →
      ∀ a p, daemon.delivery = .loaded a p → p ∈ daemon.store.queue := by
    intro hgrow a p hp
    exact hgrow p (h.loaded a p (hdelivery.symm.trans hp))
  have hflight : (∀ p, (daemon.store.calls task).inFlight = some p →
        ∀ r ∈ w.sent, r.publicationId ≠ p.publicationId) →
      ∀ t p, (daemon.store.calls t).inFlight = some p →
        ∀ r ∈ w.sent, r.publicationId ≠ p.publicationId := by
    intro hown t p hp
    rcases QueueDaemon.inFlight_cases hcalls hp with ⟨-, hp⟩ | ⟨-, hp⟩
    · exact h.flight t p hp
    · exact hown p hp
  rcases hcases with ⟨hsame, hnone⟩ | ⟨name, project, p, hcreates⟩ |
    ⟨name, project, p, hrefs⟩ | ⟨name, p, write, -, hpushes⟩
  · apply h.move hreferenced
    · exact hloaded fun q hq => hsame.queue ▸ hq
    · exact hsame.queue ▸ h.queue
    · exact hsame.file ▸ h.file
    · exact fun id hid => hsame.issued ▸ hid
    · exact hflight fun p hp => by rw [hnone] at hp; cases hp
  · apply h.move hreferenced
    · exact hloaded fun q hq => hcreates.queue ▸ hq
    · exact hcreates.queue ▸ h.queue
    · exact hcreates.file ▸ h.file
    · exact fun id hid => hcreates.issued ▸ List.mem_cons_of_mem _ hid
    · -- the ID is drawn now, and those of the requests have been drawn before
      apply hflight
      intro q hq r hr hid
      have hown : (daemon.store.calls task).inFlight = some p := by
        rw [hcreates.call']
        rfl
      obtain rfl := Option.some.inj (hown.symm.trans hq)
      exact hcreates.fresh (hid ▸ h.issued r hr)
  · apply h.move hreferenced
    · exact hloaded fun q hq => hrefs.queue ▸ hq
    · exact hrefs.queue ▸ h.queue
    · exact hrefs.file ▸ h.file
    · exact fun id hid => hrefs.issued ▸ hid
    · apply hflight
      intro q hq
      apply h.flight task q
      rw [hrefs.call'] at hq
      rw [hrefs.call]
      exact hq
  · have hown : (w.daemon.store.calls task).inFlight = some p := by
      rw [hpushes.call]
      rfl
    have hpushed := h.pushed (h.flight task p hown)
    apply h.move hreferenced
    · exact hloaded fun q hq => hpushes.queue ▸ List.mem_append_left [p] hq
    · exact hpushes.queue ▸ hpushed
    · rw [hpushes.file]
      split
      · exact hpushed
      · exact h.file
    · exact fun id hid => hpushes.issued ▸ hid
    · apply hflight
      intro q hq
      rw [hpushes.call'] at hq
      cases write with
      | written => cases hq
      | failed replaced => cases hq

/-- The step lemma. -/
theorem Orderly.step (h : Orderly w) {e : RequestingEvent Oid Task} (hok : SendsWritten w e)
    (hs : w.step e = some w') : Orderly w' := by
  cases e with
  | request =>
    simp only [RequestingDaemon.step] at hs
    split at hs
    · next a p hplace =>
      split at hs
      · cases hs
      · obtain rfl := Option.some.inj hs
        rw [SendsWritten, hplace] at hok
        exact h.request (h.loaded a p hplace) hok
    · cases hs
  | daemon e =>
    simp only [RequestingDaemon.step] at hs
    split at hs
    · cases hs
    · obtain ⟨daemon, hdaemon, rfl⟩ := Option.map_eq_some_iff.mp hs
      have hreferenced := h.referenced.step hdaemon
      cases e with
      | enqueue task e => exact h.enqueue hdaemon
      | deliver e => exact h.deliver hdaemon
      | writeProject name record persisted =>
        simp only [QueueDaemon.step] at hdaemon
        split at hdaemon
        · split at hdaemon
          · obtain rfl := Option.some.inj hdaemon
            exact h.move hreferenced h.loaded h.queue h.file (fun _ hid => hid) h.flight
          · cases hdaemon
        · cases hdaemon
      | crash =>
        -- memory is what the file has, and the file has moved on from every request
        obtain rfl := Option.some.inj hdaemon
        refine h.move hreferenced (fun _ _ hp => ?_) h.file h.file (fun _ hid => hid)
          fun _ _ hp => ?_
        · cases hp
        · cases hp

/-- The run lemma: in a run in which every request is sent for what the file has,
no two requests of one attempt differ, whatever fails and wherever the daemon
stops. -/
theorem attempts_are_immutable (catalog : LocalCatalog Oid)
    (refs : String → String → Option Oid) (es : List (RequestingEvent Oid Task))
    (hok : Runs.Steps step SendsWritten (initial catalog refs) es) :
    ∀ w', Runs.run step (initial catalog refs) es = some w' → w'.Immutable := by
  intro w' hr
  have horderly : Orderly w' :=
    Runs.run_invariant (fun _ _ _ h hok hs => h.step hok hs) (orderly_initial catalog refs) hok hr
  exact horderly.immutable

end Steps

end RequestingDaemon

section OneProject

/-- The project of `currentMain`, at a service. -/
def hostedCatalog : LocalCatalog ℕ where
  catalogGeneration := 0
  projects := [{ currentProject with service := some "https://a.example" }]

/-- The next pass comes to the request of the only publication. -/
def requestOne : List (RequestingEvent ℕ (Fin 2)) :=
  [.daemon (.deliver (.start true 6)), .daemon (.deliver .next), .daemon (.deliver .load),
    .request]

/-- The next pass finds another hosted head, and reconciles. -/
def retargetOne (candidate head : ℕ) (write : FileWrite) : List (RequestingEvent ℕ (Fin 2)) :=
  [.daemon (.deliver (.start true 6)), .daemon (.deliver .next), .daemon (.deliver .load),
    .daemon (.deliver (.retarget 7 candidate (some head) write "disk full"))]

/-- The failure of the attempt is recorded, and the file is written or not. -/
def failOne (write : FileWrite) : List (RequestingEvent ℕ (Fin 2)) :=
  [.daemon (.deliver (.recordFailure 8 write))]

/-- The branch has advanced to `5`, and commit `1` has been rebased on it, as `2`. The
new candidate is not written to the disk, is pushed and requested all the same, and is
forgotten with the next stop. Commit `3` follows it, and is requested under the same
attempt. -/
def forgottenAttempt : List (RequestingEvent ℕ (Fin 2)) :=
  (enqueueOne 0 "pub" 5).map .daemon ++ retargetOne 2 5 (.failed false) ++
    failOne (.failed false) ++ requestOne ++ [.daemon .crash] ++ retargetOne 3 2 .written ++
    [.daemon (.deliver .load), .request]

theorem forgotten_attempt_is_reused : ∃ w : RequestingDaemon ℕ (Fin 2),
    Runs.run RequestingDaemon.step (.initial hostedCatalog fun _ _ => none)
      forgottenAttempt = some w ∧
    w.sent = [⟨"pub", 2, "main", 3, some 2⟩, ⟨"pub", 2, "main", 2, some 5⟩] ∧
    ¬ w.Immutable := by
  have htest : ((Runs.run RequestingDaemon.step
      (.initial hostedCatalog fun _ _ => none : RequestingDaemon ℕ (Fin 2))
      forgottenAttempt).map (·.sent)) =
        some [⟨"pub", 2, "main", 3, some 2⟩, ⟨"pub", 2, "main", 2, some 5⟩] := by decide +kernel
  obtain ⟨w, hw, hsent⟩ := Option.map_eq_some_iff.mp htest
  refine ⟨w, hw, hsent, fun h => ?_⟩
  have hsame := h ⟨"pub", 2, "main", 3, some 2⟩ (hsent ▸ List.mem_cons_self)
    ⟨"pub", 2, "main", 2, some 5⟩ (hsent ▸ List.mem_cons_of_mem _ List.mem_cons_self) rfl rfl
  cases hsame

/-- The same branch, and the same failed write. The next one succeeds, and the
restarted daemon repeats the request before it goes on to the third attempt. -/
def rememberedAttempt : List (RequestingEvent ℕ (Fin 2)) :=
  (enqueueOne 0 "pub" 5).map .daemon ++ retargetOne 2 5 (.failed false) ++ failOne .written ++
    [.daemon (.deliver (.noteFailure true)), .daemon (.deliver .next)] ++ requestOne ++
    [.daemon .crash] ++ requestOne ++ [.daemon .crash] ++ retargetOne 3 2 .written ++
    [.daemon (.deliver .load), .request]

theorem attempts_are_immutable_one :
    (∃ w : RequestingDaemon ℕ (Fin 2), Runs.run RequestingDaemon.step
      (.initial hostedCatalog fun _ _ => none) rememberedAttempt = some w ∧
      w.sent.map (fun r => (r.attempt, r.candidateOid)) = [(3, 3), (2, 2), (2, 2)]) ∧
    ∀ w : RequestingDaemon ℕ (Fin 2), Runs.run RequestingDaemon.step
      (.initial hostedCatalog fun _ _ => none) rememberedAttempt = some w →
        w.Immutable := by
  have htest : ((Runs.run RequestingDaemon.step
      (.initial hostedCatalog fun _ _ => none : RequestingDaemon ℕ (Fin 2))
      rememberedAttempt).map fun w => w.sent.map fun r => (r.attempt, r.candidateOid)) =
        some [(3, 3), (2, 2), (2, 2)] := by decide +kernel
  refine ⟨Option.map_eq_some_iff.mp htest, ?_⟩
  exact RequestingDaemon.attempts_are_immutable hostedCatalog (fun _ _ => none)
    rememberedAttempt (by decide +kernel)

end OneProject

end Resync
