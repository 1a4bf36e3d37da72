import Mathlib.Data.List.AList
import Mathlib.Data.UInt

/-! The critical sections of one `LeaseGate` (`daemon.rs`): what each of them
does to the state behind the gate's mutex. -/
namespace Resync

/-- The members of a lease's JSON metadata that `lease_call` reads; a member
that is absent or not a string is `none`. -/
structure LeaseMetadata where
  sessionId : Option String
  callId : Option String
deriving DecidableEq

structure LeaseCall where
  sessionId : String
  callId : String
deriving DecidableEq

def leaseCall (metadata : LeaseMetadata) : Option LeaseCall := do
  let sessionId ← metadata.sessionId
  let callId ← metadata.callId
  return ⟨sessionId, callId⟩

structure GateState where
  exclusive : Bool
  nextExclusive : UInt64
  exclusiveQueue : List UInt64
  leases : AList fun _ : String => LeaseMetadata
  leasesByCall : AList fun _ : LeaseCall => String

namespace GateState

/-- `GateState::default()`. -/
def initial : GateState := ⟨false, 0, [], ∅, ∅⟩

/-- The first critical section of `begin_exclusive`. The counter wraps. -/
def drawTicket (s : GateState) : GateState :=
  { s with nextExclusive := s.nextExclusive + 1,
           exclusiveQueue := s.exclusiveQueue ++ [s.nextExclusive] }

/-- The admission check of `begin_exclusive`; `none` parks the task. -/
def admitExclusive (s : GateState) (ticket : UInt64) : Option GateState :=
  if s.exclusive = false ∧ s.leases.entries.isEmpty ∧ s.exclusiveQueue.head? = some ticket then
    some { s with exclusiveQueue := s.exclusiveQueue.tail, exclusive := true }
  else none

def endExclusive (s : GateState) : GateState := { s with exclusive := false }

/-- The live lease that `activity` returns again for the same call. -/
def leaseOfCall (s : GateState) (metadata : LeaseMetadata) : Option String := do
  let call ← leaseCall metadata
  let id ← s.leasesByCall.lookup call
  if id ∈ s.leases then some id else none

/-- The admission check of `activity`: the identifier of the lease and the
next state. `fresh` is the new random identifier. -/
def activity (s : GateState) (metadata : LeaseMetadata) (fresh : String) :
    Option (String × GateState) :=
  if s.exclusive then none
  else match s.leaseOfCall metadata with
    | some id => some (id, s)
    | none =>
      some (fresh, { s with
        leases := s.leases.insert fresh metadata,
        leasesByCall := match leaseCall metadata with
          | some call => s.leasesByCall.insert call fresh
          | none => s.leasesByCall })

/-- `release`, by the holder or by the expiry timer. -/
def release (s : GateState) (id : String) : Bool × GateState :=
  match s.leases.lookup id with
  | none => (false, s)
  | some metadata =>
    (true, { s with
      leases := s.leases.erase id,
      leasesByCall := match leaseCall metadata with
        | some call =>
          if s.leasesByCall.lookup call = some id then s.leasesByCall.erase call
          else s.leasesByCall
        | none => s.leasesByCall })

/-- All that an admission to exclusive ownership can do. -/
theorem admitExclusive_eq_some {s t : GateState} {ticket : UInt64}
    (h : s.admitExclusive ticket = some t) :
    s.exclusive = false ∧ s.leases = ∅ ∧ s.exclusiveQueue.head? = some ticket ∧
      t = { s with exclusiveQueue := s.exclusiveQueue.tail, exclusive := true } := by
  unfold admitExclusive at h
  split at h
  · next hc =>
    refine ⟨hc.1, ?_, hc.2.2, (Option.some.inj h).symm⟩
    exact AList.ext (List.isEmpty_iff.mp hc.2.1)
  · cases h

/-- All that an admission of an activity can do: it returns a live lease, and
keeps the queue and the flag. -/
theorem activity_eq_some {s t : GateState} {metadata : LeaseMetadata} {fresh id : String}
    (h : s.activity metadata fresh = some (id, t)) :
    s.exclusive = false ∧ t.exclusive = false ∧ t.nextExclusive = s.nextExclusive ∧
      t.exclusiveQueue = s.exclusiveQueue ∧ id ∈ t.leases ∧
      (∀ k, k ∈ t.leases ↔ k = id ∨ k ∈ s.leases) ∧
      ((id ∈ s.leases ∧ t = s) ∨ id = fresh) := by
  unfold activity at h
  split at h
  · cases h
  · next hx =>
    have hx : s.exclusive = false := by simpa only [Bool.not_eq_true] using hx
    split at h
    · next found hfound =>
      obtain ⟨rfl, rfl⟩ := Prod.mk.inj (Option.some.inj h)
      have hlive : found ∈ s.leases := by
        simp only [leaseOfCall, Option.bind_eq_bind, Option.bind_eq_some_iff] at hfound
        obtain ⟨_, _, id, _, hid⟩ := hfound
        split at hid
        · next hm =>
          obtain rfl := Option.some.inj hid
          exact hm
        · cases hid
      refine ⟨hx, hx, rfl, rfl, hlive, ?_, Or.inl ⟨hlive, rfl⟩⟩
      intro k
      exact ⟨Or.inr, fun hk => hk.elim (fun he => he ▸ hlive) (fun hk => hk)⟩
    · obtain ⟨rfl, rfl⟩ := Prod.mk.inj (Option.some.inj h)
      exact ⟨hx, hx, rfl, rfl, (AList.mem_insert _).mpr (Or.inl rfl),
        fun k => AList.mem_insert _, Or.inr rfl⟩

/-- The admission of an activity asks only whether the gate is free. -/
theorem activity_isSome {s : GateState} {metadata : LeaseMetadata} {fresh : String} :
    (s.activity metadata fresh).isSome ↔ s.exclusive = false := by
  constructor
  · intro h
    obtain ⟨r, hr⟩ := Option.isSome_iff_exists.mp h
    exact (activity_eq_some hr).1
  · intro hfree
    rw [activity, hfree]
    cases s.leaseOfCall metadata <;> rfl

@[simp] theorem release_exclusive (s : GateState) (id : String) :
    (s.release id).2.exclusive = s.exclusive := by
  unfold release
  split <;> rfl

@[simp] theorem release_nextExclusive (s : GateState) (id : String) :
    (s.release id).2.nextExclusive = s.nextExclusive := by
  unfold release
  split <;> rfl

@[simp] theorem release_exclusiveQueue (s : GateState) (id : String) :
    (s.release id).2.exclusiveQueue = s.exclusiveQueue := by
  unfold release
  split <;> rfl

theorem release_eq_self {s : GateState} {id : String} (h : (s.release id).1 = false) :
    (s.release id).2 = s := by
  unfold release at h ⊢
  split at h
  · rfl
  · cases h

/-- A release ends the named lease and no other. -/
theorem mem_leases_release (s : GateState) (id k : String) :
    k ∈ (s.release id).2.leases ↔ k ≠ id ∧ k ∈ s.leases := by
  unfold release
  split
  · next h =>
    have hid : id ∉ s.leases := AList.lookup_eq_none.mp h
    refine ⟨fun hk => ⟨?_, hk⟩, And.right⟩
    rintro rfl
    exact hid hk
  · exact AList.mem_erase

theorem release_leases_empty {s : GateState} (id : String) (h : s.leases = ∅) :
    (s.release id).2.leases = ∅ := by
  have hlookup : s.leases.lookup id = none := by rw [h]; exact AList.lookup_empty id
  rw [release, hlookup]
  exact h

end GateState

end Resync
