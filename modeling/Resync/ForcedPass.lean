import Mathlib.Data.List.MinMax
import Resync.OwnBranch
import Resync.QueueCompaction

/-! One forced pass of `process_publications` over the queue, with no other operation
in progress, and what it does to the publications of one branch. -/
namespace Resync

variable {Oid Task : Type}

namespace Delivery

def attempt : Delivery Oid → Option (Attempt Oid)
  | .idle | .pass _ => none
  | .reading a | .loaded a _ | .projected a _ _ | .behind a _ _ _ | .reconciling a _ _
  | .reconciled a _ _ | .headRead a _ _ _ | .validating a _ _ | .validated a _ _
  | .delivered a _ _ | .confirmed a _ _ _ | .acked a _ _ | .completing a _ _ _ _
  | .deleting a _ _ | .failing a _ | .failed a _ => some a

/-- The attempt, with its copy of the publication. -/
def current : Delivery Oid → Option (Attempt Oid × Publication Oid)
  | .loaded a p | .projected a p _ | .behind a p _ _ | .reconciling a p _ | .reconciled a p _
  | .headRead a p _ _ | .validating a p _ | .validated a p _ | .delivered a p _
  | .confirmed a p _ _ | .acked a p _ | .completing a p _ _ _ => some (a, p)
  | _ => none

/-- The IDs of which the pass has not decided yet. -/
def remaining : Delivery Oid → List String
  | .idle => []
  | .pass ids => ids
  | .completing a _ _ _ _ | .deleting a _ _ | .failing a _ | .failed a _ => a.rest
  | .reading a | .loaded a _ | .projected a _ _ | .behind a _ _ _ | .reconciling a _ _
  | .reconciled a _ _ | .headRead a _ _ _ | .validating a _ _ | .validated a _ _
  | .delivered a _ _ | .confirmed a _ _ _ | .acked a _ _ => a.initial.publicationId :: a.rest

def isReconciling : Delivery Oid → Bool
  | .reconciling .. => true
  | _ => false

end Delivery

section Queue

variable {queue : List (Publication Oid)} {keep : Publication Oid → Bool}

/-- With distinct IDs, to rewrite the first publication of an ID is to rewrite all. -/
theorem modify_eq_map {f : Publication Oid → Publication Oid} {id : String}
    (hids : (queue.map (·.publicationId)).Nodup) :
    PublicationQueue.modify f id queue =
      queue.map fun q => if q.publicationId = id then f q else q := by
  induction queue with
  | nil => rfl
  | cons x xs ih =>
    rw [List.map_cons, List.nodup_cons] at hids
    rw [PublicationQueue.modify, List.map_cons]
    by_cases hid : x.publicationId = id
    · rw [modifyFirst_of_pos (by rw [hid]; exact beq_self_eq_true id), if_pos hid]
      have hsame : xs.map (fun q => if q.publicationId = id then f q else q) = xs.map fun q => q := by
        apply List.map_congr_left
        intro q hq
        apply if_neg
        intro heq
        exact hids.1 (List.mem_map.mpr ⟨q, hq, heq.trans hid.symm⟩)
      rw [hsame, List.map_id']
    · rw [modifyFirst_of_neg (by rw [beq_iff_eq]; exact hid), if_neg hid]
      exact congrArg (x :: ·) (ih hids.2)

/-- What is kept of a queue in which the publication of one ID is rewritten. -/
theorem filter_modify {f : Publication Oid → Publication Oid} {id : String}
    (hids : (queue.map (·.publicationId)).Nodup)
    (hf : ∀ q ∈ queue, q.publicationId = id → keep (f q) = keep q) :
    (PublicationQueue.modify f id queue).filter keep =
      (queue.filter keep).map fun q => if q.publicationId = id then f q else q := by
  rw [modify_eq_map hids, List.filter_map]
  refine congrArg _ (List.filter_congr fun q hq => ?_)
  change keep (if q.publicationId = id then f q else q) = keep q
  split
  · next hid => exact hf q hq hid
  · rfl

/-- A completion takes what it marks from the pending publications, and no more. -/
theorem filter_complete (hkeep : ∀ q, keep q = true → q.pending = true) (now : ℕ)
    (p : Publication Oid) (ack : PublicationAck Oid) (queue : List (Publication Oid)) :
    (PublicationQueue.complete now p ack queue).filter keep =
      (queue.filter keep).filter fun q => !p.completes q := by
  rw [PublicationQueue.complete, StoredQueue.filter_compact hkeep]
  induction queue with
  | nil => rfl
  | cons q queue ih =>
    rw [List.map_cons, List.filter_cons, ih, List.filter_cons (p := keep)]
    by_cases hc : p.completes q = true
    · have hack : ¬ keep (q.acknowledge now ack) = true := fun h => by cases hkeep _ h
      rw [if_pos hc, if_neg hack]
      by_cases hq : keep q = true
      · rw [if_pos hq, List.filter_cons_of_neg (by rw [hc]; exact Bool.false_ne_true)]
      · rw [if_neg hq]
    · rw [if_neg hc]
      by_cases hq : keep q = true
      · rw [if_pos hq, if_pos hq, List.filter_cons_of_pos (by
          rw [Bool.eq_false_iff.mpr hc]
          rfl)]
      · rw [if_neg hq, if_neg hq]

end Queue

namespace OwnBranch

variable (o : OwnBranch)

def checkedOut (w : PublishWorld Oid Task) : Prop :=
  (w.checkouts o.path).headBranch = some o.branch

instance (w : PublishWorld Oid Task) : Decidable (o.checkedOut w) :=
  inferInstanceAs (Decidable (_ = _))

/-- The pending publications of the branch. -/
def waiting (w : PublishWorld Oid Task) : List (Publication Oid) :=
  w.queue.filter fun q => q.pending && o.owns q

/-- No pending publication of the branch is younger. -/
def Youngest (w : PublishWorld Oid Task) (q : Publication Oid) : Prop :=
  q ∈ o.waiting w ∧ ∀ p ∈ o.waiting w, p.createdAt ≤ q.createdAt

section Decisions

variable [DecidableEq Oid] (G : CommitGraph Oid)

/-- The hosted branch has the candidate, or is as the publication expects it. -/
def Deliverable (w : PublishWorld Oid Task) (q : Publication Oid) : Prop :=
  (∃ r ∈ o.hostedHead w, G.Ancestor q.candidateCommitOid r) ∨
    o.hostedHead w = q.expectedRemoteOid

/-- A delivery of the publication succeeds. -/
def Succeeds (w : PublishWorld Oid Task) (q : Publication Oid) : Prop :=
  o.checkedOut w ∨ o.Deliverable G w q

/-- Nothing waits, or one of the youngest publications succeeds. -/
def Ready (w : PublishWorld Oid Task) : Prop :=
  o.waiting w = [] ∨ ∃ q, o.Youngest w q ∧ o.Succeeds G w q

end Decisions

/-- The fetch, the push and the acknowledgement of a publication of the branch
succeed. A paused project would not be fetched. -/
def answers [DecidableEq Oid] (w : PublishWorld Oid Task) : DeliveryEvent Oid → Bool
  | .start .. => false
  | .project =>
    match w.delivery with
    | .loaded _ p => !o.owns p ||
        (findProject w.catalog o.projectId).any (fun project => project.state != .conflicted)
    | _ => true
  | .push answered =>
    match w.delivery with
    | .validated _ p _ => !o.owns p || answered
    | _ => true
  | .acknowledge now answer =>
    match w.delivery, answer with
    | .confirmed _ p _ _, .acknowledged ack =>
      !o.owns p || { p with lastAttemptAt := some now }.accepts ack
    | .confirmed _ p _ _, .remoteAdvanced _ => !o.owns p
    | _, _ => true
  | .fail _ => !w.delivery.isReconciling && w.delivery.attempt.all fun a => !o.owns a.initial
  | _ => true

/-- A step of a pass with no other operation in progress. -/
def inPass [DecidableEq Oid] (w : DaemonWorld Oid Task) : DaemonEvent Oid Task → Bool
  | .publish (.deliver e) => o.answers w.publish e
  | .reconcile none e =>
    match w.publish.delivery, e with
    | .reconciling _ p _, .prepare cleared _ => !o.owns p || cleared
    | .reconciling _ p _, .merge persisted => !o.owns p || persisted
    | _, _ => true
  | _ => false

/-- In the order of the pass no publication is followed by a younger one. -/
def Sorted (w : PublishWorld Oid Task) : Prop :=
  w.delivery.remaining.Pairwise fun i j => ∀ p ∈ w.queue, ∀ q ∈ w.queue,
    p.publicationId = i → q.publicationId = j → q.createdAt ≤ p.createdAt

section Outcomes

variable [DecidableEq Oid] (G : CommitGraph Oid)

/-- The pass is to leave nothing that waits. -/
def Hopes (w : PublishWorld Oid Task) : Prop :=
  o.waiting w = [] ∨
    ∃ q, o.Youngest w q ∧ o.Succeeds G w q ∧ q.publicationId ∈ w.delivery.remaining

/-- The pass is to leave the youngest publications. -/
def Stuck (w : PublishWorld Oid Task) : Prop :=
  (∃ q, o.Youngest w q) ∧
    ∀ q, o.Youngest w q → q.publicationId ∈ w.delivery.remaining → ¬ o.Succeeds G w q

/-- What a step of a pass does for the branch. -/
inductive PassEffect (w w' : PublishWorld Oid Task) : Prop
  /-- The same publications wait, and the pass decides at most of one that does not
  succeed. -/
  | carries (f : Publication Oid → Publication Oid) :
      o.waiting w' = (o.waiting w).map f →
      (∀ q ∈ o.waiting w, (f q).publicationId = q.publicationId ∧
        (f q).createdAt = q.createdAt ∧ (o.Succeeds G w' (f q) ↔ o.Succeeds G w q)) →
      w'.delivery.remaining ⊆ w.delivery.remaining →
      (∀ q ∈ o.waiting w, o.Succeeds G w q → q.publicationId ∈ w.delivery.remaining →
        q.publicationId ∈ w'.delivery.remaining) → PassEffect w w'
  /-- The hosted branch moves to the candidate of the publication at hand. -/
  | pushes (p : Publication Oid) (rest : List String) : p ∈ o.waiting w →
      o.Succeeds G w p → o.Succeeds G w' p → o.waiting w' = o.waiting w →
      w.delivery.remaining = p.publicationId :: rest →
      w'.delivery.remaining = p.publicationId :: rest → PassEffect w w'
  /-- The publication at hand is acknowledged, and those that are not younger. -/
  | completes (p : Publication Oid) (rest : List String) : p ∈ o.waiting w →
      o.Succeeds G w p →
      o.waiting w' = (o.waiting w).filter (fun q => !decide (q.createdAt ≤ p.createdAt)) →
      w.delivery.remaining = p.publicationId :: rest → w'.delivery.remaining = rest →
      PassEffect w w'

end Outcomes

section Outcomes

variable {o} [DecidableEq Oid] {G : CommitGraph Oid} {w w' : PublishWorld Oid Task}

omit [DecidableEq Oid] in
theorem mem_waiting {q : Publication Oid} :
    q ∈ o.waiting w ↔ q ∈ w.queue ∧ q.pending = true ∧ o.owns q = true := by
  rw [waiting, List.mem_filter, Bool.and_eq_true]

omit [DecidableEq Oid] in
theorem youngest_of_waiting (h : o.waiting w ≠ []) : ∃ q, o.Youngest w q := by
  cases hq : List.argmax (·.createdAt) (o.waiting w) with
  | none => exact absurd (List.argmax_eq_none.mp hq) h
  | some q => exact ⟨q, List.argmax_mem hq, fun p hp => List.le_of_mem_argmax hp hq⟩

omit [DecidableEq Oid] in
/-- Of the publications that the pass still decides of, none is younger than the first. -/
theorem Sorted.first (h : Sorted w) {p q : Publication Oid} {rest : List String}
    (hrest : w.delivery.remaining = p.publicationId :: rest) (hp : p ∈ o.waiting w)
    (hq : q ∈ o.waiting w) (hid : q.publicationId ∈ w.delivery.remaining)
    (hids : w.DistinctIds) : q.createdAt ≤ p.createdAt := by
  have hpq := (mem_waiting.mp hp).1
  have hqq := (mem_waiting.mp hq).1
  rw [hrest] at hid
  rcases List.mem_cons.mp hid with heq | hid
  · rw [hids.unique hqq hpq heq]
  · rw [Sorted, hrest] at h
    exact (List.pairwise_cons.mp h).1 _ hid p hpq q hqq rfl rfl

omit [DecidableEq Oid] in
theorem Hopes.step (h : o.Hopes G w) (hids : w.DistinctIds) (hsorted : Sorted w)
    (heffect : o.PassEffect G w w') : o.Hopes G w' := by
  cases heffect with
  | carries f hwaiting hf hsub hkeeps =>
    rcases h with hnone | ⟨q, ⟨hq, hmax⟩, hsucceeds, hid⟩
    · refine Or.inl ?_
      rw [hwaiting, hnone, List.map_nil]
    · obtain ⟨hfid, hfcreated, hfsucceeds⟩ := hf q hq
      refine Or.inr ⟨f q, ⟨?_, fun p hp => ?_⟩, hfsucceeds.mpr hsucceeds, ?_⟩
      · rw [hwaiting]
        exact List.mem_map_of_mem hq
      · rw [hwaiting] at hp
        obtain ⟨r, hr, rfl⟩ := List.mem_map.mp hp
        rw [(hf r hr).2.1, hfcreated]
        exact hmax r hr
      · rw [hfid]
        exact hkeeps q hq hsucceeds hid
  | pushes p rest hp _ hsucceeds hwaiting hrest hrest' =>
    rcases h with hnone | ⟨q, ⟨hq, hmax⟩, -, hid⟩
    · rw [hnone] at hp
      cases hp
    · -- the publication at hand is a youngest one too
      have hle : q.createdAt ≤ p.createdAt := hsorted.first hrest hp hq hid hids
      refine Or.inr ⟨p, ⟨hwaiting ▸ hp, fun r hr => ?_⟩, hsucceeds, ?_⟩
      · rw [hwaiting] at hr
        exact (hmax r hr).trans hle
      · rw [hrest']
        exact List.mem_cons_self
  | completes p rest hp _ hwaiting hrest _ =>
    rcases h with hnone | ⟨q, ⟨hq, hmax⟩, -, hid⟩
    · rw [hnone] at hp
      cases hp
    · have hle : q.createdAt ≤ p.createdAt := hsorted.first hrest hp hq hid hids
      refine Or.inl ?_
      rw [hwaiting, List.filter_eq_nil_iff]
      intro r hr
      rw [decide_eq_true ((hmax r hr).trans hle)]
      exact Bool.false_ne_true

omit [DecidableEq Oid] in
theorem Stuck.older (h : o.Stuck G w) {p : Publication Oid} {rest : List String}
    (hp : p ∈ o.waiting w) (hsucceeds : o.Succeeds G w p)
    (hrest : w.delivery.remaining = p.publicationId :: rest) {q : Publication Oid}
    (hq : o.Youngest w q) : p.createdAt < q.createdAt := by
  by_contra hle
  have hyoungest : o.Youngest w p :=
    ⟨hp, fun r hr => (hq.2 r hr).trans (Nat.le_of_not_lt hle)⟩
  refine h.2 p hyoungest ?_ hsucceeds
  rw [hrest]
  exact List.mem_cons_self

omit [DecidableEq Oid] in
theorem Stuck.step (h : o.Stuck G w) (hids : w.DistinctIds) (hsorted : Sorted w)
    (heffect : o.PassEffect G w w') : o.Stuck G w' := by
  obtain ⟨⟨y, hy⟩, hfails⟩ := h
  cases heffect with
  | carries f hwaiting hf hsub hkeeps =>
    have hback : ∀ q, o.Youngest w' q → ∃ r, o.Youngest w r ∧ q = f r := by
      rintro q ⟨hq, hmax⟩
      rw [hwaiting] at hq
      obtain ⟨r, hr, rfl⟩ := List.mem_map.mp hq
      refine ⟨r, ⟨hr, fun p hp => ?_⟩, rfl⟩
      have hle := hmax (f p) (by rw [hwaiting]; exact List.mem_map_of_mem hp)
      rwa [(hf p hp).2.1, (hf r hr).2.1] at hle
    refine ⟨⟨f y, ?_, fun p hp => ?_⟩, fun q hq hid hsucceeds => ?_⟩
    · rw [hwaiting]
      exact List.mem_map_of_mem hy.1
    · rw [hwaiting] at hp
      obtain ⟨r, hr, rfl⟩ := List.mem_map.mp hp
      rw [(hf r hr).2.1, (hf y hy.1).2.1]
      exact hy.2 r hr
    · obtain ⟨r, hr, rfl⟩ := hback q hq
      obtain ⟨hfid, -, hfsucceeds⟩ := hf r hr.1
      refine hfails r hr ?_ (hfsucceeds.mp hsucceeds)
      rw [← hfid]
      exact hsub hid
  | pushes p rest hp hsucceeds _ hwaiting hrest hrest' =>
    have hsame : ∀ q, o.Youngest w' q → o.Youngest w q := by
      rintro q ⟨hq, hmax⟩
      rw [hwaiting] at hq
      exact ⟨hq, fun r hr => hmax r (hwaiting ▸ hr)⟩
    refine ⟨⟨y, hwaiting ▸ hy.1, fun r hr => hy.2 r (hwaiting ▸ hr)⟩, fun q hq hid => ?_⟩
    -- all the youngest were tried before
    have hlt := Stuck.older ⟨⟨y, hy⟩, hfails⟩ hp hsucceeds hrest (hsame q hq)
    rw [hrest', ← hrest] at hid
    exact absurd (hsorted.first hrest hp (hsame q hq).1 hid hids) (Nat.not_le_of_lt hlt)
  | completes p rest hp hsucceeds hwaiting hrest hrest' =>
    have holder : ∀ q, o.Youngest w q → p.createdAt < q.createdAt := fun q hq =>
      Stuck.older ⟨⟨y, hy⟩, hfails⟩ hp hsucceeds hrest hq
    have hmem : ∀ q, q ∈ o.waiting w' ↔ q ∈ o.waiting w ∧ p.createdAt < q.createdAt := by
      intro q
      rw [hwaiting, List.mem_filter, Bool.not_eq_true', decide_eq_false_iff_not, Nat.not_le]
    have hy' : y ∈ o.waiting w' := (hmem y).mpr ⟨hy.1, holder y hy⟩
    refine ⟨⟨y, hy', fun r hr => hy.2 r ((hmem r).mp hr).1⟩, fun q ⟨hq, hmax⟩ hid => ?_⟩
    have hyoungest : o.Youngest w q :=
      ⟨((hmem q).mp hq).1, fun r hr => (hy.2 r hr).trans (hmax y hy')⟩
    have hid' : q.publicationId ∈ w.delivery.remaining := by
      rw [hrest]
      rw [hrest'] at hid
      exact List.mem_cons_of_mem _ hid
    exact absurd (hsorted.first hrest hp hyoungest.1 hid' hids)
      (Nat.not_le_of_lt (holder q hyoungest))

end Outcomes

end OwnBranch

end Resync
