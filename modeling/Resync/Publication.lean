import Mathlib.Data.List.Sort
import Resync.Project

/-! Publications and their queue (`publication.rs`), with what
`enqueue_publication`, `process_publications` and `complete_publication`
(`daemon.rs`) read and write of it. Times are in nanoseconds. A clock may go
back, so nothing relates two readings of it. -/
namespace Resync

structure PublicationAck (Oid : Type) where
  publicationId : String
  attempt : ℕ
  projectId : String
  branch : Branch
  acceptedOid : Oid
  remoteHead : Oid
  projectGeneration : ℕ
  durable : Bool

inductive PublicationState where
  | pending | acknowledged
deriving DecidableEq

structure Publication (Oid : Type) where
  publicationId : String
  projectId : String
  checkoutId : Option String
  branch : Branch
  sourceCommitOid : Oid
  candidateCommitOid : Oid
  expectedRemoteOid : Option Oid
  attempt : ℕ
  state : PublicationState
  createdAt : ℕ
  lastAttemptAt : Option ℕ
  nextAttemptAt : Option ℕ
  lastError : Option String
  ack : Option (PublicationAck Oid)

variable {Oid : Type}

namespace Publication

/-- `Publication::new` with the fresh ID and the time that it draws. -/
def new (publicationId : String) (now : ℕ) (projectId : String) (checkoutId : Option String)
    (branch : Branch) (commitOid : Oid) (expectedRemoteOid : Option Oid) : Publication Oid where
  publicationId := publicationId
  projectId := projectId
  checkoutId := checkoutId
  branch := branch
  sourceCommitOid := commitOid
  candidateCommitOid := commitOid
  expectedRemoteOid := expectedRemoteOid
  attempt := 1
  state := .pending
  createdAt := now
  lastAttemptAt := none
  nextAttemptAt := some now
  lastError := none
  ack := none

def pending (p : Publication Oid) : Bool := p.state != .acknowledged

def due (now : ℕ) (p : Publication Oid) : Bool :=
  p.pending && p.nextAttemptAt.all (· ≤ now)

/-- `record_failure` with the retry of one minute that the daemon passes. -/
def recordFailure (now : ℕ) (error : String) (p : Publication Oid) : Publication Oid :=
  { p with
    state := .pending, lastAttemptAt := some now, nextAttemptAt := some (now + 60000000000),
    lastError := some error }

/-- What a reconciliation during a delivery makes of the queued publication. -/
def retarget (now : ℕ) (candidate : Oid) (remoteHead : Option Oid) (p : Publication Oid) :
    Publication Oid :=
  { p with
    attempt := p.attempt + 1, candidateCommitOid := candidate, expectedRemoteOid := remoteHead,
    lastError := none, nextAttemptAt := some now }

def acknowledge (now : ℕ) (ack : PublicationAck Oid) (p : Publication Oid) : Publication Oid :=
  { p with
    state := .acknowledged, lastAttemptAt := some now, nextAttemptAt := none, lastError := none,
    ack := some ack }

/-- What a publication was queued for. -/
def source (p : Publication Oid) : String × Branch × Oid :=
  (p.projectId, p.branch, p.sourceCommitOid)

/-- A delivery of `p` completes `q`: it is pending, of the same branch, and not
younger. -/
def completes (p q : Publication Oid) : Bool :=
  q.pending && q.projectId == p.projectId && q.branch == p.branch && q.createdAt ≤ p.createdAt

/-- The checks of `acknowledge_with_provider` on the provider's ACK. -/
def accepts [DecidableEq Oid] (p : Publication Oid) (ack : PublicationAck Oid) : Bool :=
  ack.durable && ack.publicationId == p.publicationId && ack.attempt == p.attempt &&
    ack.projectId == p.projectId && ack.branch == p.branch &&
    ack.acceptedOid == p.candidateCommitOid

/-- The ACK of a delivery to a host without a provider. -/
def ownAck (p : Publication Oid) (confirmedHead : Oid) (generation : ℕ) : PublicationAck Oid where
  publicationId := p.publicationId
  attempt := p.attempt
  projectId := p.projectId
  branch := p.branch
  acceptedOid := p.candidateCommitOid
  remoteHead := confirmedHead
  projectGeneration := generation
  durable := true

theorem completes_iff {p q : Publication Oid} : p.completes q = true ↔
    q.pending = true ∧ q.projectId = p.projectId ∧ q.branch = p.branch ∧
      q.createdAt ≤ p.createdAt := by
  simp only [completes, Bool.and_eq_true, beq_iff_eq, decide_eq_true_eq, and_assoc]

@[simp] theorem pending_new (id : String) (now : ℕ) (projectId : String)
    (checkoutId : Option String) (b : Branch) (c : Oid) (e : Option Oid) :
    (new id now projectId checkoutId b c e).pending = true := rfl

@[simp] theorem pending_acknowledge (now : ℕ) (ack : PublicationAck Oid) (p : Publication Oid) :
    (p.acknowledge now ack).pending = false := rfl

end Publication

namespace PublicationQueue

/-- The pending publication that a repeated report finds. -/
def existing [DecidableEq Oid] (queue : List (Publication Oid)) (projectId : String)
    (branch : Branch) (commitOid : Oid) : Option (Publication Oid) :=
  queue.find? fun p =>
    p.pending && p.projectId == projectId && p.branch == branch && p.sourceCommitOid == commitOid

def find (queue : List (Publication Oid)) (id : String) : Option (Publication Oid) :=
  queue.find? (·.publicationId == id)

def findPending (queue : List (Publication Oid)) (id : String) : Option (Publication Oid) :=
  queue.find? fun p => p.publicationId == id && p.pending

def modify (f : Publication Oid → Publication Oid) (id : String) (queue : List (Publication Oid)) :
    List (Publication Oid) := modifyFirst (·.publicationId == id) f queue

/-- The IDs that `process_publications` goes through, the youngest first. -/
def toProcess (force : Bool) (now : ℕ) (queue : List (Publication Oid)) : List String :=
  (((queue.filter fun p => p.pending && (force || p.due now)).map fun p =>
    (p.createdAt, p.publicationId)).insertionSort fun l r => r.1 ≤ l.1).map (·.2)

/-- The queue without its first `n` acknowledged publications. -/
def dropAcknowledged : ℕ → List (Publication Oid) → List (Publication Oid)
  | _, [] => []
  | 0, queue => queue
  | n + 1, p :: queue =>
    if p.pending then p :: dropAcknowledged (n + 1) queue else dropAcknowledged n queue

/-- `compact`: the last 256 acknowledged publications stay. -/
def compact (queue : List (Publication Oid)) : List (Publication Oid) :=
  let completed := queue.countP fun p => !p.pending
  if completed ≤ 256 then queue else dropAcknowledged (completed - 256) queue

/-- The publications that `complete_publication` marks. -/
def marked (now : ℕ) (p : Publication Oid) (ack : PublicationAck Oid)
    (queue : List (Publication Oid)) : List (Publication Oid) :=
  (queue.filter p.completes).map (·.acknowledge now ack)

/-- The queue that `complete_publication` leaves. -/
def complete (now : ℕ) (p : Publication Oid) (ack : PublicationAck Oid)
    (queue : List (Publication Oid)) : List (Publication Oid) :=
  compact (queue.map fun q => if p.completes q then q.acknowledge now ack else q)

variable {queue : List (Publication Oid)} {p q : Publication Oid}

theorem find_eq_some {id : String} (h : find queue id = some p) :
    p ∈ queue ∧ p.publicationId = id :=
  ⟨List.mem_of_find?_eq_some h, by simpa using List.find?_some h⟩

theorem findPending_eq_some {id : String} (h : findPending queue id = some p) :
    p ∈ queue ∧ p.publicationId = id ∧ p.pending = true := by
  have htest : (p.publicationId == id && p.pending) = true := by simpa using List.find?_some h
  rw [Bool.and_eq_true, beq_iff_eq] at htest
  exact ⟨List.mem_of_find?_eq_some h, htest⟩

theorem dropAcknowledged_sublist (n : ℕ) (queue : List (Publication Oid)) :
    (dropAcknowledged n queue).Sublist queue := by
  induction queue generalizing n with
  | nil => cases n <;> exact List.Sublist.slnil
  | cons p queue ih =>
    cases n with
    | zero => exact List.Sublist.refl _
    | succ n =>
      rw [dropAcknowledged]
      split
      · exact (ih (n + 1)).cons_cons p
      · exact (ih n).cons p

theorem mem_dropAcknowledged (n : ℕ) (h : p ∈ queue) (hp : p.pending = true) :
    p ∈ dropAcknowledged n queue := by
  induction queue generalizing n with
  | nil => cases h
  | cons q queue ih =>
    cases n with
    | zero => exact h
    | succ n =>
      rw [dropAcknowledged]
      split
      · rcases List.mem_cons.mp h with rfl | h
        · exact List.mem_cons_self
        · exact List.mem_cons_of_mem q (ih (n + 1) h)
      · next hq =>
        rcases List.mem_cons.mp h with rfl | h
        · exact absurd hp hq
        · exact ih n h

theorem compact_sublist (queue : List (Publication Oid)) : (compact queue).Sublist queue := by
  rw [compact]
  split
  · exact List.Sublist.refl queue
  · exact dropAcknowledged_sublist _ queue

/-- A compaction never drops a pending publication. -/
theorem mem_compact (h : p ∈ queue) (hp : p.pending = true) : p ∈ compact queue := by
  rw [compact]
  split
  · exact h
  · exact mem_dropAcknowledged _ h hp

/-- What is still pending after a completion was pending before, and was not
completed. -/
theorem pending_of_mem_complete {now : ℕ} {ack : PublicationAck Oid}
    (h : q ∈ complete now p ack queue) (hq : q.pending = true) :
    q ∈ queue ∧ p.completes q = false := by
  obtain ⟨r, hr, hrq⟩ := List.mem_map.mp ((compact_sublist _).subset h)
  by_cases hc : p.completes r = true
  · rw [if_pos hc] at hrq
    rw [← hrq, Publication.pending_acknowledge] at hq
    cases hq
  · rw [if_neg hc] at hrq
    subst hrq
    exact ⟨hr, Bool.eq_false_iff.mpr hc⟩

/-- A pending publication is completed, or it stays. -/
theorem mem_complete (now : ℕ) (ack : PublicationAck Oid) (h : q ∈ queue)
    (hq : q.pending = true) :
    q ∈ complete now p ack queue ∨ q.acknowledge now ack ∈ marked now p ack queue := by
  by_cases hc : p.completes q = true
  · exact Or.inr (List.mem_map_of_mem (List.mem_filter.mpr ⟨h, hc⟩))
  · refine Or.inl (mem_compact (List.mem_map.mpr ⟨q, h, if_neg hc⟩) hq)

theorem complete_ids (now : ℕ) (p : Publication Oid) (ack : PublicationAck Oid)
    (queue : List (Publication Oid)) :
    ((complete now p ack queue).map (·.publicationId)).Sublist
      (queue.map (·.publicationId)) := by
  have hids : (queue.map fun q => if p.completes q then q.acknowledge now ack else q).map
      (·.publicationId) = queue.map (·.publicationId) := by
    rw [List.map_map]
    refine List.map_congr_left fun q _ => ?_
    dsimp only [Function.comp]
    split <;> rfl
  rw [← hids]
  exact (compact_sublist _).map _

end PublicationQueue

end Resync
