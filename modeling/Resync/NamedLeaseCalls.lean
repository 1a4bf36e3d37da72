import Resync.Lib.Runs
import Resync.NamedLease

/-! The named-lease calls of one client, one after the other, with a crash between any two
of their file and network steps, and a provider that executes what has been sent
(`named_lease.rs`). -/
namespace Resync

/-- `renew` and `release` are both `mutate_active_receipt`. -/
inductive NamedLeaseCall where
  | acquire (project : NamedLeaseProject) (resourceKey : String) (holderId : Option String)
      (ttlSeconds : Option ℕ)
  | mutate (project : NamedLeaseProject) (leaseId holderId : String) (operation : LeaseOperation)
      (ttlSeconds : Option ℕ)
deriving DecidableEq

namespace NamedLeaseCall

def renew (project : NamedLeaseProject) (leaseId holderId : String) (ttlSeconds : Option ℕ) :
    NamedLeaseCall := .mutate project leaseId holderId .renew ttlSeconds

def release (project : NamedLeaseProject) (leaseId holderId : String) : NamedLeaseCall :=
  .mutate project leaseId holderId .release none

def project : NamedLeaseCall → NamedLeaseProject
  | .acquire project .. | .mutate project .. => project

/-- The call up to its request. -/
def start (files : Receipts) (fresh : FreshReceipt) : NamedLeaseCall → Except LeaseError LeaseStart
  | .acquire project resourceKey holderId ttlSeconds =>
    Resync.acquire files project resourceKey holderId ttlSeconds fresh
  | .mutate project leaseId holderId operation ttlSeconds =>
    mutateActiveReceipt files project leaseId holderId operation ttlSeconds fresh.requestId

/-- The call from the answer on. -/
def answered (path : ReceiptPath) (receipt : NamedLeaseReceipt) (now : ℤ)
    (answer : Option LeaseAnswer) : NamedLeaseCall → LeaseEnd
  | .acquire project resourceKey .. =>
    acquireAnswered project resourceKey path receipt now answer
  | .mutate project leaseId .. => mutateAnswered project leaseId path receipt now answer

end NamedLeaseCall

/-- Where the client stands. -/
inductive LeasePlace where
  | idle
  /-- The writes of `start` are still to be made, and then the request is sent. -/
  | preparing (call : NamedLeaseCall) (start : LeaseStart)
  | awaiting (call : NamedLeaseCall) (start : LeaseStart)
  | finishing (call : NamedLeaseCall) (request : Option LeaseRequest) (rest : LeaseEnd)
  | returned (call : NamedLeaseCall) (request : Option LeaseRequest) (now : ℤ)
      (result : Except LeaseError NamedLeaseMutationResponse)

def LeasePlace.free : LeasePlace → Bool
  | .idle | .returned .. => true
  | _ => false

/-- `issued` are the request IDs that have been drawn, `sent` the requests that have been
sent, `answers` what the provider has answered when it executed them, and `ended` the leases
for which an answer with `RELEASED`, `LEASE_EXPIRED` or `NOT_HOLDER` has been received, each
with the origin of its provider. -/
structure LeasesWorld where
  files : Receipts
  place : LeasePlace
  issued : List String
  sent : List (NamedLeaseCall × LeaseRequest)
  answers : List (LeaseRequest × LeaseAnswer)
  ended : List (String × String)

inductive LeasesEvent where
  /-- A call begins; its project has the policy of this moment. -/
  | call (call : NamedLeaseCall) (fresh : FreshReceipt)
  /-- The next write or removal of a receipt. -/
  | act
  | send
  /-- The provider executes a request that has been sent, at any time. -/
  | execute (request : LeaseRequest) (answer : LeaseAnswer)
  /-- `none` is a transport error; the answer is lost. -/
  | receive (now : ℤ) (answer : Option LeaseAnswer)
  | finish (now : ℤ)
  /-- The client dies, or one of its file operations fails. -/
  | crash

/-- The lease whose end an answer tells. -/
def endOf (request : LeaseRequest) (answer : Option LeaseAnswer) : List (String × String) :=
  match request.address, answer.bind (·.body) with
  | .lease leaseId _, some response =>
    if response.outcome = .released ∨ response.outcome = .leaseExpired ∨
        response.outcome = .notHolder then [(request.providerOrigin, leaseId)]
    else []
  | _, _ => []

namespace LeasesWorld

def initial : LeasesWorld := ⟨∅, .idle, [], [], [], []⟩

def step (w : LeasesWorld) : LeasesEvent → Option LeasesWorld
  | .call call fresh =>
    if w.place.free ∧ fresh.requestId ∉ w.issued then
      some { w with
        issued := fresh.requestId :: w.issued
        place := match call.start w.files fresh with
          | .error e => .finishing call none ⟨[], .error e⟩
          | .ok start => .preparing call start }
    else none
  | .act =>
    match w.place with
    | .preparing call ⟨path, receipt, a :: writes, request⟩ => some { w with
        files := a.perform w.files, place := .preparing call ⟨path, receipt, writes, request⟩ }
    | .finishing call request ⟨a :: actions, result⟩ => some { w with
        files := a.perform w.files, place := .finishing call request ⟨actions, result⟩ }
    | _ => none
  | .send =>
    match w.place with
    | .preparing call ⟨path, receipt, [], request⟩ => some { w with
        sent := (call, request) :: w.sent
        place := .awaiting call ⟨path, receipt, [], request⟩ }
    | _ => none
  | .execute request answer =>
    if request ∈ w.sent.map Prod.snd then
      some { w with answers := (request, answer) :: w.answers }
    else none
  | .receive now answer =>
    match w.place with
    | .awaiting call start => some { w with
        ended := endOf start.request answer ++ w.ended
        place := .finishing call (some start.request)
          (call.answered start.path start.receipt now answer) }
    | _ => none
  | .finish now =>
    match w.place with
    | .finishing call request ⟨[], result⟩ =>
      some { w with place := .returned call request now result }
    | _ => none
  | .crash => if w.place.free then none else some { w with place := .idle }

/-- What a step can do, with its guards. -/
inductive Takes (w : LeasesWorld) : LeasesEvent → LeasesWorld → Prop
  | fails {call : NamedLeaseCall} {fresh : FreshReceipt} {error : LeaseError}
      (free : w.place.free = true) (unused : fresh.requestId ∉ w.issued)
      (checks : call.start w.files fresh = .error error) :
      Takes w (.call call fresh) { w with
        issued := fresh.requestId :: w.issued, place := .finishing call none ⟨[], .error error⟩ }
  | starts {call : NamedLeaseCall} {fresh : FreshReceipt} {start : LeaseStart}
      (free : w.place.free = true) (unused : fresh.requestId ∉ w.issued)
      (checks : call.start w.files fresh = .ok start) :
      Takes w (.call call fresh) { w with
        issued := fresh.requestId :: w.issued, place := .preparing call start }
  | prepares {call : NamedLeaseCall} {path : ReceiptPath} {receipt : NamedLeaseReceipt}
      {a : ReceiptAction} {writes : List ReceiptAction} {request : LeaseRequest}
      (place : w.place = .preparing call ⟨path, receipt, a :: writes, request⟩) :
      Takes w .act { w with
        files := a.perform w.files, place := .preparing call ⟨path, receipt, writes, request⟩ }
  | settles {call : NamedLeaseCall} {request : Option LeaseRequest} {a : ReceiptAction}
      {actions : List ReceiptAction} {result : Except LeaseError NamedLeaseMutationResponse}
      (place : w.place = .finishing call request ⟨a :: actions, result⟩) :
      Takes w .act { w with
        files := a.perform w.files, place := .finishing call request ⟨actions, result⟩ }
  | sends {call : NamedLeaseCall} {path : ReceiptPath} {receipt : NamedLeaseReceipt}
      {request : LeaseRequest} (place : w.place = .preparing call ⟨path, receipt, [], request⟩) :
      Takes w .send { w with
        sent := (call, request) :: w.sent
        place := .awaiting call ⟨path, receipt, [], request⟩ }
  | executes {request : LeaseRequest} {answer : LeaseAnswer}
      (sent : request ∈ w.sent.map Prod.snd) :
      Takes w (.execute request answer) { w with answers := (request, answer) :: w.answers }
  | receives {call : NamedLeaseCall} {start : LeaseStart} {now : ℤ} {answer : Option LeaseAnswer}
      (place : w.place = .awaiting call start) :
      Takes w (.receive now answer) { w with
        ended := endOf start.request answer ++ w.ended
        place := .finishing call (some start.request)
          (call.answered start.path start.receipt now answer) }
  | returns {call : NamedLeaseCall} {request : Option LeaseRequest} {now : ℤ}
      {result : Except LeaseError NamedLeaseMutationResponse}
      (place : w.place = .finishing call request ⟨[], result⟩) :
      Takes w (.finish now) { w with place := .returned call request now result }
  | crashes : Takes w .crash { w with place := .idle }

theorem takes_of_step {w w' : LeasesWorld} {e : LeasesEvent} (h : w.step e = some w') :
    w.Takes e w' := by
  cases e with
  | call call fresh =>
    rw [step] at h
    split at h
    · next hfree =>
      obtain rfl := Option.some.inj h
      cases hstart : call.start w.files fresh with
      | error error => exact .fails hfree.1 hfree.2 hstart
      | ok start => exact .starts hfree.1 hfree.2 hstart
    · cases h
  | act =>
    simp only [step] at h
    split at h
    · next call path receipt a writes request hplace =>
      obtain rfl := Option.some.inj h
      exact .prepares hplace
    · next call request a actions result hplace =>
      obtain rfl := Option.some.inj h
      exact .settles hplace
    · cases h
  | send =>
    simp only [step] at h
    split at h
    · next call path receipt request hplace =>
      obtain rfl := Option.some.inj h
      exact .sends hplace
    · cases h
  | execute request answer =>
    rw [step] at h
    split at h
    · next hsent =>
      obtain rfl := Option.some.inj h
      exact .executes hsent
    · cases h
  | receive now answer =>
    simp only [step] at h
    split at h
    · next call start hplace =>
      obtain rfl := Option.some.inj h
      exact .receives hplace
    · cases h
  | finish now =>
    simp only [step] at h
    split at h
    · next call request result hplace =>
      obtain rfl := Option.some.inj h
      exact .returns hplace
    · cases h
  | crash =>
    rw [step] at h
    split at h
    · cases h
    · obtain rfl := Option.some.inj h
      exact .crashes

end LeasesWorld

end Resync
