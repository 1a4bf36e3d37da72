import Mathlib.Data.List.DropRight
import Resync.Lib.Retain
import Resync.Publication

/-! `PublicationQueue::compact` on the queue as it is stored: the state of a publication is a text
there, and every text but `ACKNOWLEDGED` counts as pending. -/
namespace Resync

namespace StoredQueue

variable {α : Type}

/-- `pending`, of the text in the field `state`. -/
def pending (state : α → String) (publication : α) : Bool := state publication != "ACKNOWLEDGED"

def acknowledged (state : α → String) (publication : α) : Bool := !pending state publication

/-- What the closure of `retain` does with one publication; the counter is `remove`. -/
def keepCounted (state : α → String) (remove : ℕ) (publication : α) : ℕ × Option α :=
  if 0 < remove && !pending state publication then (remove - 1, none)
  else (remove, some publication)

def compact (state : α → String) (queue : List α) : List α :=
  let completed := (queue.filter fun publication => !pending state publication).length
  if completed ≤ 256 then queue
  else (Retain.retain (keepCounted state) (completed - 256) queue).2

variable {state : α → String}

section Counter

theorem keepCounted_zero (publication : α) :
    keepCounted state 0 publication = (0, some publication) := rfl

theorem keepCounted_pending {publication : α} (h : pending state publication = true)
    (remove : ℕ) : keepCounted state remove publication = (remove, some publication) := by
  rw [keepCounted, h, Bool.not_true, Bool.and_false]
  rfl

theorem keepCounted_acknowledged {publication : α} (h : pending state publication = false)
    (remove : ℕ) : keepCounted state (remove + 1) publication = (remove, none) := by
  rw [keepCounted, h]
  rfl

/-- The acknowledged publications that go are the first ones. -/
theorem acknowledged_retain (remove : ℕ) (queue : List α) :
    (Retain.retain (keepCounted state) remove queue).2.filter (acknowledged state) =
      (queue.filter (acknowledged state)).drop remove := by
  induction queue generalizing remove with
  | nil => exact List.drop_nil.symm
  | cons p queue ih =>
    rw [Retain.retain_cons, List.filter_append]
    by_cases hp : pending state p = true
    · have hkeep : acknowledged state p = false := by rw [acknowledged, hp]; rfl
      rw [keepCounted_pending hp, ih, List.filter_cons, hkeep]
      show [p].filter (acknowledged state) ++ _ = _
      rw [List.filter_cons, hkeep]
      rfl
    · have hacknowledged : acknowledged state p = true := by
        rw [acknowledged, Bool.eq_false_iff.mpr hp]
        rfl
      have hcons : (p :: queue).filter (acknowledged state) =
          p :: queue.filter (acknowledged state) := List.filter_cons_of_pos hacknowledged
      cases remove with
      | zero =>
        have hone : [p].filter (acknowledged state) = [p] := List.filter_cons_of_pos hacknowledged
        rw [keepCounted_zero, ih, hcons, List.drop_zero, List.drop_zero, Option.toList_some, hone]
        rfl
      | succ remove =>
        rw [keepCounted_acknowledged (Bool.eq_false_iff.mpr hp), ih, hcons, List.drop_succ_cons]
        rfl

theorem pending_retain (remove : ℕ) (queue : List α) :
    (Retain.retain (keepCounted state) remove queue).2.filter (pending state) =
      queue.filter (pending state) := by
  induction queue generalizing remove with
  | nil => rfl
  | cons p queue ih =>
    rw [Retain.retain_cons, List.filter_append, ih]
    by_cases hp : pending state p = true
    · have hone : [p].filter (pending state) = [p] := List.filter_cons_of_pos hp
      rw [keepCounted_pending hp, Option.toList_some, hone, List.filter_cons_of_pos hp]
      rfl
    · have hnone : [p].filter (pending state) = [] := List.filter_cons_of_neg hp
      rw [List.filter_cons_of_neg hp]
      cases remove with
      | zero =>
        rw [keepCounted_zero, Option.toList_some, hnone]
        rfl
      | succ remove =>
        rw [keepCounted_acknowledged (Bool.eq_false_iff.mpr hp)]
        rfl

theorem retain_sublist (remove : ℕ) (queue : List α) :
    (Retain.retain (keepCounted state) remove queue).2.Sublist queue := by
  induction queue generalizing remove with
  | nil => exact List.Sublist.slnil
  | cons p queue ih =>
    rw [Retain.retain_cons, keepCounted]
    split
    · exact (ih _).cons p
    · exact (ih _).cons_cons p

end Counter

theorem pending_compact (state : α → String) (queue : List α) :
    (compact state queue).filter (pending state) = queue.filter (pending state) := by
  rw [compact]
  split
  · rfl
  · exact pending_retain _ queue

/-- Compaction, for every queue: the pending publications stay, and of the acknowledged ones the
last 256 or all that there are; nothing changes its place or its content, and a second compaction
does nothing. -/
theorem compact_keeps (state : α → String) (queue : List α) :
    (compact state queue).Sublist queue ∧
      (compact state queue).filter (pending state) = queue.filter (pending state) ∧
      (compact state queue).filter (acknowledged state) =
        (queue.filter (acknowledged state)).rtake
          (min 256 (queue.filter (acknowledged state)).length) ∧
      compact state (compact state queue) = compact state queue := by
  set done := queue.filter (acknowledged state) with hdone
  have hcompact : compact state queue = if done.length ≤ 256 then queue
      else (Retain.retain (keepCounted state) (done.length - 256) queue).2 := rfl
  by_cases hfew : done.length ≤ 256
  · rw [if_pos hfew] at hcompact
    have hall : done.rtake (min 256 done.length) = done := by
      rw [List.rtake, min_eq_right hfew, Nat.sub_self, List.drop_zero]
    rw [hcompact, hall, hcompact]
    exact ⟨List.Sublist.refl queue, rfl, rfl, rfl⟩
  · rw [if_neg hfew] at hcompact
    have hkept : (compact state queue).filter (acknowledged state) =
        done.drop (done.length - 256) := by
      rw [hcompact, acknowledged_retain]
    have hlast : done.rtake (min 256 done.length) = done.drop (done.length - 256) := by
      rw [List.rtake, min_eq_left (by omega)]
    have hlength : ((compact state queue).filter (acknowledged state)).length = 256 := by
      rw [hkept, List.length_drop]
      omega
    refine ⟨?_, pending_compact state queue, ?_, ?_⟩
    · rw [hcompact]
      exact retain_sublist _ queue
    · rw [hkept, hlast]
    · exact if_pos hlength.le

/-- The texts of the states that the daemon gives. -/
def stateText : PublicationState → String
  | .pending => "PENDING"
  | .acknowledged => "ACKNOWLEDGED"

theorem pending_stateText {Oid : Type} (p : Publication Oid) :
    pending (fun p : Publication Oid => stateText p.state) p = p.pending := by
  rw [pending, Publication.pending]
  cases p.state with
  | pending => rfl
  | acknowledged => rfl

/-- The queue that the daemon works on is compacted so. -/
theorem compact_eq {Oid : Type} (queue : List (Publication Oid)) :
    PublicationQueue.compact queue =
      compact (fun p : Publication Oid => stateText p.state) queue := by
  have hpending (p : Publication Oid) := pending_stateText p
  have hdrop (n : ℕ) : PublicationQueue.dropAcknowledged n queue =
      (Retain.retain (keepCounted fun p : Publication Oid => stateText p.state) n queue).2 := by
    induction queue generalizing n with
    | nil => cases n with
      | zero => rfl
      | succ n => rfl
    | cons p queue ih =>
      rw [Retain.retain_cons]
      cases n with
      | zero =>
        have hzero : PublicationQueue.dropAcknowledged 0 queue = queue := by
          cases queue with
          | nil => rfl
          | cons q queue => rfl
        rw [keepCounted_zero, ← ih 0, hzero]
        rfl
      | succ n =>
        rw [PublicationQueue.dropAcknowledged]
        by_cases hp : p.pending = true
        · rw [if_pos hp, keepCounted_pending ((hpending p).trans hp), ih]
          rfl
        · rw [if_neg hp,
            keepCounted_acknowledged ((hpending p).trans (Bool.eq_false_iff.mpr hp)), ih]
          rfl
  have hcount : (queue.filter fun p : Publication Oid =>
      !pending (fun p : Publication Oid => stateText p.state) p).length =
      queue.countP fun p => !p.pending := by
    rw [List.countP_eq_length_filter]
    simp only [hpending]
  rw [PublicationQueue.compact, compact, hcount, hdrop]

/-- So none of its pending publications is lost. -/
theorem filter_compact {Oid : Type} {keep : Publication Oid → Bool}
    (hkeep : ∀ q, keep q = true → q.pending = true) (queue : List (Publication Oid)) :
    (PublicationQueue.compact queue).filter keep = queue.filter keep := by
  have hpending : (PublicationQueue.compact queue).filter (·.pending) =
      queue.filter (·.pending) := by
    have hstored := pending_compact (fun p : Publication Oid => stateText p.state) queue
    rwa [← compact_eq, funext pending_stateText] at hstored
  have hfilter (queue : List (Publication Oid)) :
      queue.filter keep = (queue.filter (·.pending)).filter keep := by
    rw [List.filter_filter]
    refine List.filter_congr fun q _ => ?_
    cases hq : keep q with
    | true => rw [hkeep q hq, Bool.and_self]
    | false => rw [Bool.false_and]
  rw [hfilter, hpending, ← hfilter]

end StoredQueue

end Resync
