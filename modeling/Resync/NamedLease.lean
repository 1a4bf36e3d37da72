import Mathlib.Data.List.AList
import Resync.Lib.Utf8

/-! Project-scoped named leases (`named_lease.rs`, `protocol.rs`): the receipts that prove a
lease, the checks of what a provider answers, and what each call does to the receipts before
its request and after the answer. -/
namespace Resync

inductive NamedLeaseOutcome where
  | acquired | held | renewed | released | leaseExpired | notHolder | notFound
  | invalidResourceKey | invalidTtl | requestIdReused
deriving DecidableEq

def NamedLeaseOutcome.carriesLease : NamedLeaseOutcome → Bool
  | .acquired | .held | .renewed | .released => true
  | _ => false

/-- The times are in milliseconds. -/
structure NamedLease where
  leaseId : String
  projectId : String
  resourceKey : String
  holderDeviceId : String
  holderDeviceName : Option String
  holderId : String
  generation : ℕ
  acquiredAt : ℤ
  expiresAt : ℤ
deriving DecidableEq

structure NamedLeaseMutationResponse where
  outcome : NamedLeaseOutcome
  lease : Option NamedLease
deriving DecidableEq

inductive LeaseError where
  | bail (message : String)
  /-- There is no answer, or one that does not parse. -/
  | transport
  /-- `NamedLeaseProviderOutcome`. -/
  | outcome (status : ℕ) (response : NamedLeaseMutationResponse)
deriving DecidableEq

/-- `bail!` unless `p`. -/
def ensure (p : Prop) [Decidable p] (message : String) : Except LeaseError Unit :=
  if p then .ok () else .error (.bail message)

section Checks

variable {α γ : Type} {x : Except LeaseError α} {f : α → Except LeaseError γ}

theorem bind_eq_ok {c : γ} : (x >>= f) = .ok c ↔ ∃ a, x = .ok a ∧ f a = .ok c := by
  cases x with
  | error e =>
    constructor
    · intro h
      cases h
    · rintro ⟨a, h, -⟩
      cases h
  | ok a =>
    constructor
    · intro h
      exact ⟨a, rfl, h⟩
    · rintro ⟨b, hb, h⟩
      obtain rfl := Except.ok.inj hb
      exact h

theorem ensure_eq_ok {p : Prop} [Decidable p] {message : String} {u : Unit} :
    ensure p message = .ok u ↔ p := by
  unfold ensure
  by_cases hp : p
  · rw [if_pos hp]
    exact ⟨fun _ => hp, fun _ => rfl⟩
  · rw [if_neg hp]
    exact ⟨fun h => absurd h (by intro h; cases h), fun h => absurd h hp⟩

theorem bind_eq_error {e : LeaseError} :
    (x >>= f) = .error e ↔ x = .error e ∨ ∃ a, x = .ok a ∧ f a = .error e := by
  cases x with
  | error e' =>
    constructor
    · intro h
      exact Or.inl (congrArg Except.error (Except.error.inj h))
    · rintro (h | ⟨a, h, -⟩)
      · exact congrArg Except.error (Except.error.inj h)
      · cases h
  | ok a =>
    constructor
    · intro h
      exact Or.inr ⟨a, rfl, h⟩
    · rintro (h | ⟨b, hb, h⟩)
      · cases h
      · obtain rfl := Except.ok.inj hb
        exact h

theorem ensure_error {p : Prop} [Decidable p] {message : String} {e : LeaseError}
    (h : ensure p message = .error e) : e = .bail message := by
  unfold ensure at h
  split at h
  · cases h
  · exact (Except.error.inj h).symm

end Checks

namespace NamedLease

/-- The fields that `validate` wants not to be empty. -/
def required (lease : NamedLease) : List (String × String) :=
  [("lease_id", lease.leaseId), ("project_id", lease.projectId),
    ("resource_key", lease.resourceKey), ("holder_device_id", lease.holderDeviceId),
    ("holder_id", lease.holderId)]

def validate (lease : NamedLease) : Except LeaseError Unit := do
  match lease.required.find? (·.2.isEmpty) with
  | some (field, _) => throw (.bail ("named lease is missing " ++ field))
  | none =>
    ensure (lease.generation ≠ 0) "named lease generation must be greater than zero"
    ensure (lease.acquiredAt < lease.expiresAt) "named lease expiry must be after acquisition"

def validateForResource (lease : NamedLease) (projectId resourceKey : String) :
    Except LeaseError Unit := do
  lease.validate
  ensure (lease.projectId = projectId ∧ lease.resourceKey = resourceKey)
    "provider returned a named lease for a different project or resource"

def validateForLease (lease : NamedLease) (projectId leaseId : String) :
    Except LeaseError Unit := do
  lease.validate
  ensure (lease.projectId = projectId ∧ lease.leaseId = leaseId)
    "provider returned a different named lease than requested"

end NamedLease

namespace NamedLeaseMutationResponse

def validate (response : NamedLeaseMutationResponse) : Except LeaseError Unit := do
  ensure (response.outcome.carriesLease = response.lease.isSome)
    "named-lease response has an invalid lease payload for its outcome"
  match response.lease with
  | some lease => lease.validate
  | none => return ()

def validateForResource (response : NamedLeaseMutationResponse) (projectId resourceKey : String) :
    Except LeaseError Unit := do
  response.validate
  match response.lease with
  | some lease => lease.validateForResource projectId resourceKey
  | none => return ()

def validateForLease (response : NamedLeaseMutationResponse) (projectId leaseId : String) :
    Except LeaseError Unit := do
  response.validate
  match response.lease with
  | some lease => lease.validateForLease projectId leaseId
  | none => return ()

end NamedLeaseMutationResponse

structure NamedLeasePolicy where
  defaultTtlSeconds : ℕ
  minTtlSeconds : ℕ
  maxTtlSeconds : ℕ
deriving DecidableEq

/-- A project with the policy that its provider advertises at the time of a call. -/
structure NamedLeaseProject where
  providerOrigin : String
  projectId : String
  policy : NamedLeasePolicy
deriving DecidableEq

inductive NamedLeaseReceiptState where
  | pending | active
deriving DecidableEq

inductive LeaseOperation where
  | renew | release
deriving DecidableEq

structure PendingMutation where
  operation : LeaseOperation
  requestId : String
  ttlSeconds : Option ℕ
deriving DecidableEq

structure NamedLeaseReceipt where
  version : ℕ
  state : NamedLeaseReceiptState
  providerOrigin : String
  projectId : String
  requestId : String
  resourceKey : String
  holderId : String
  holderSecret : String
  requestedTtlSeconds : ℕ
  lease : Option NamedLease
  pendingMutation : Option PendingMutation
  authorityRecordedAt : Option ℤ
deriving DecidableEq

/-- A SHA-256 digest over framed fields, taken to be free of collisions. -/
structure Digest where
  fields : List String
deriving DecidableEq

def hash (fields : List String) : Digest := ⟨fields⟩

/-- `pending-<digest>.json` and `<lease_id>-<digest>.json`; a lease ID begins with `nls_`. -/
inductive ReceiptFile where
  | pending (digest : Digest)
  | active (leaseId : String) (digest : Digest)
deriving DecidableEq

def ReceiptFile.isPending : ReceiptFile → Bool
  | .pending _ => true
  | .active .. => false

/-- A file below the directory of the origin's digest and the project. -/
structure ReceiptPath where
  origin : Digest
  projectId : String
  file : ReceiptFile
deriving DecidableEq

/-- `receipt_project_directory`, and a file in it. -/
def receiptPath (providerOrigin projectId : String) (file : ReceiptFile) : ReceiptPath :=
  ⟨hash [providerOrigin], projectId, file⟩

def pendingReceiptFile (receipt : NamedLeaseReceipt) : ReceiptFile :=
  .pending (hash [receipt.projectId, receipt.resourceKey, receipt.holderId])

def activeReceiptFile (leaseId holderId : String) : ReceiptFile :=
  .active leaseId (hash [holderId])

/-- The receipt files. -/
abbrev Receipts := AList fun _ : ReceiptPath => NamedLeaseReceipt

/-- `write_json`, which is over with the rename, and `remove_receipt`. -/
inductive ReceiptAction where
  | write (path : ReceiptPath) (receipt : NamedLeaseReceipt)
  | remove (path : ReceiptPath)
deriving DecidableEq

def ReceiptAction.perform (files : Receipts) : ReceiptAction → Receipts
  | .write path receipt => files.insert path receipt
  | .remove path => files.erase path

section Identifiers

def validResourceSegment (value : String) : Bool :=
  value.toList ≠ [] && value.utf8ByteSize ≤ 63 && value ≠ "." && value ≠ ".." &&
    value.toList.head?.any (fun c => c.isLower || c.isDigit) &&
    value.toList.all fun c => c.isLower || c.isDigit || c = '.' || c = '_' || c = '-'

def validateResourceKey (value : String) : Except LeaseError Unit :=
  ensure (value.toList ≠ [] ∧ value.utf8ByteSize ≤ 255 ∧ value.toList.head? ≠ some '/' ∧
    value.toList.getLast? ≠ some '/' ∧
    ((value.toList.splitOn '/').all fun segment => validResourceSegment (.ofList segment)) = true)
    "invalid named-lease resource key"

/-- `char::is_control`. -/
def isControl (c : Char) : Bool := c.toNat < 32 || (127 ≤ c.toNat && c.toNat < 160)

def validateHolderId (value : String) : Except LeaseError Unit :=
  ensure (value.toList ≠ [] ∧ value.utf8ByteSize ≤ 255 ∧
    (value.toList.any fun c => isControl c || Utf8.isWhitespace c) = false)
    "invalid named-lease holder ID"

def validateIdentifier (value field start : String) : Except LeaseError Unit :=
  ensure (start.toList.isPrefixOf value.toList = true ∧ value.utf8ByteSize ≤ 100 ∧
    (value.toList.all fun c => c.isAlphanum || c = '_') = true)
    ("invalid named-lease " ++ field ++ " ID")

def validateTtl (policy : NamedLeasePolicy) (ttl : ℕ) : Except LeaseError Unit :=
  ensure (policy.minTtlSeconds ≤ ttl ∧ ttl ≤ policy.maxTtlSeconds)
    ("named-lease TTL must be " ++ toString policy.minTtlSeconds ++ "-" ++
      toString policy.maxTtlSeconds ++ " seconds")

end Identifiers

/-- What a request addresses: `<base>`, or `<base>/<lease_id>/<operation>`. -/
inductive LeaseAddress where
  | acquire
  | lease (leaseId : String) (operation : LeaseOperation)
deriving DecidableEq

/-- The members of the JSON body; one that is absent is `none`. -/
structure LeaseBody where
  requestId : String
  holderSecret : String
  resourceKey : Option String
  holderId : Option String
  ttlSeconds : Option ℕ
deriving DecidableEq

structure LeaseRequest where
  providerOrigin : String
  projectId : String
  address : LeaseAddress
  body : LeaseBody
deriving DecidableEq

/-- An answer of the provider, with its body where that parses. -/
structure LeaseAnswer where
  status : ℕ
  body : Option NamedLeaseMutationResponse
deriving DecidableEq

/-- `mutation_request`, from what `provider_request` returns. -/
def mutationRequest : Option LeaseAnswer → Except LeaseError NamedLeaseMutationResponse
  | none => .error .transport
  | some answer =>
    match answer.body with
    | none => .error .transport
    | some response =>
      if 200 ≤ answer.status ∧ answer.status < 300 then .ok response
      else match response.validate with
        | .error e => .error e
        | .ok () => .error (.outcome answer.status response)

def mutationStatus : NamedLeaseOutcome → ℕ
  | .acquired => 201
  | .renewed | .released => 200
  | .held | .leaseExpired | .requestIdReused => 409
  | .notHolder => 403
  | .notFound => 404
  | .invalidResourceKey | .invalidTtl => 400

/-- The pending receipts that a file of the directory may be. -/
def matchesPending (project : NamedLeaseProject) (resourceKey : String) (holderId : Option String)
    (path : ReceiptPath) (receipt : NamedLeaseReceipt) : Bool :=
  path.origin = hash [project.providerOrigin] && path.projectId = project.projectId &&
    path.file.isPending && receipt.state = .pending &&
    receipt.providerOrigin = project.providerOrigin && receipt.projectId = project.projectId && receipt.resourceKey = resourceKey &&
    holderId.all (receipt.holderId = ·)

def findPendingReceipt (files : Receipts) (project : NamedLeaseProject) (resourceKey : String)
    (holderId : Option String) : Except LeaseError (Option (ReceiptPath × NamedLeaseReceipt)) :=
  match files.entries.filter fun e => matchesPending project resourceKey holderId e.1 e.2 with
  | [] => .ok none
  | [⟨path, receipt⟩] => .ok (some (path, receipt))
  | _ => .error (.bail "multiple pending named-lease receipts match this acquisition")

def validateReceiptBinding (receipt : NamedLeaseReceipt) (project : NamedLeaseProject)
    (leaseId holderId : String) : Except LeaseError Unit := do
  match receipt.lease with
  | none => throw (.bail "active receipt has no lease")
  | some lease =>
    ensure (receipt.version = 1 ∧ receipt.state = .active ∧
      receipt.providerOrigin = project.providerOrigin ∧ receipt.projectId = project.projectId ∧
      receipt.holderId = holderId ∧ lease.leaseId = leaseId)
      "named-lease receipt does not match the requested authority"
    lease.validateForLease project.projectId leaseId

/-- The random values of a new receipt. -/
structure FreshReceipt where
  requestId : String
  holderId : String
  holderSecret : String
deriving DecidableEq

/-- A call that has passed its checks: the receipt that it goes by, the files that it writes
before its request, and the request. -/
structure LeaseStart where
  path : ReceiptPath
  receipt : NamedLeaseReceipt
  writes : List ReceiptAction
  request : LeaseRequest
deriving DecidableEq

/-- The request of a pending receipt. -/
def acquireRequest (receipt : NamedLeaseReceipt) : LeaseRequest where
  providerOrigin := receipt.providerOrigin
  projectId := receipt.projectId
  address := .acquire
  body := {
    requestId := receipt.requestId
    holderSecret := receipt.holderSecret
    resourceKey := some receipt.resourceKey
    holderId := some receipt.holderId
    ttlSeconds := some receipt.requestedTtlSeconds }

/-- The receipt of a new acquisition. -/
def pendingReceipt (project : NamedLeaseProject) (resourceKey holderId : String) (ttl : ℕ)
    (fresh : FreshReceipt) : NamedLeaseReceipt where
  version := 1
  state := .pending
  providerOrigin := project.providerOrigin
  projectId := project.projectId
  requestId := fresh.requestId
  resourceKey := resourceKey
  holderId := holderId
  holderSecret := fresh.holderSecret
  requestedTtlSeconds := ttl
  lease := none
  pendingMutation := none
  authorityRecordedAt := none

/-- `acquire`, up to its request. -/
def acquire (files : Receipts) (project : NamedLeaseProject) (resourceKey : String)
    (holderId : Option String) (ttlSeconds : Option ℕ) (fresh : FreshReceipt) :
    Except LeaseError LeaseStart := do
  validateResourceKey resourceKey
  let ttl := ttlSeconds.getD project.policy.defaultTtlSeconds
  validateTtl project.policy ttl
  match ← findPendingReceipt files project resourceKey holderId with
  | some (path, receipt) =>
    ensure (receipt.requestedTtlSeconds = ttl)
      "pending named-lease acquisition uses a different TTL"
    return ⟨path, receipt, [], acquireRequest receipt⟩
  | none =>
    let holderId := holderId.getD fresh.holderId
    validateHolderId holderId
    let receipt := pendingReceipt project resourceKey holderId ttl fresh
    let path := receiptPath project.providerOrigin project.projectId (pendingReceiptFile receipt)
    return ⟨path, receipt, [.write path receipt], acquireRequest receipt⟩

/-- What a call still does to the files after an answer, and what it returns. -/
structure LeaseEnd where
  actions : List ReceiptAction
  result : Except LeaseError NamedLeaseMutationResponse

/-- `acquire`, from the answer on. -/
def acquireAnswered (project : NamedLeaseProject) (resourceKey : String) (path : ReceiptPath)
    (receipt : NamedLeaseReceipt) (now : ℤ) (answer : Option LeaseAnswer) : LeaseEnd :=
  match mutationRequest answer with
  | .error (.outcome status response) => ⟨[.remove path], .error (.outcome status response)⟩
  | .error e => ⟨[], .error e⟩
  | .ok response =>
    match response.validateForResource project.projectId resourceKey with
    | .error e => ⟨[], .error e⟩
    | .ok () =>
      if response.outcome ≠ .acquired then
        ⟨[.remove path], .error (.outcome (mutationStatus response.outcome) response)⟩
      else match response.lease with
        | none => ⟨[], .error (.bail "ACQUIRED response omitted its lease")⟩
        | some lease =>
          match validateIdentifier lease.leaseId "lease" "nls_" with
          | .error e => ⟨[], .error e⟩
          | .ok () =>
            ⟨[.write (receiptPath project.providerOrigin project.projectId
                (activeReceiptFile lease.leaseId receipt.holderId))
                { receipt with
                  state := .active, lease := some lease, authorityRecordedAt := some now },
              .remove path], .ok response⟩

/-- The mutation whose request is sent: the one that is awaiting an answer, or a new one. -/
def mutationOf (receipt : NamedLeaseReceipt) (operation : LeaseOperation) (ttlSeconds : Option ℕ)
    (freshId : String) : Except LeaseError PendingMutation :=
  match receipt.pendingMutation with
  | some pending =>
    if pending.operation = operation ∧ pending.ttlSeconds = ttlSeconds then .ok pending
    else .error (.bail
      "a different named-lease mutation is awaiting an unambiguous response")
  | none => .ok ⟨operation, freshId, ttlSeconds⟩

/-- The request of `renew` or `release`. A renewal without a TTL takes the default that is
advertised at the time of the call. -/
def mutateRequest (project : NamedLeaseProject) (leaseId : String) (operation : LeaseOperation)
    (receipt : NamedLeaseReceipt) (request : PendingMutation) (ttlSeconds : Option ℕ) :
    LeaseRequest where
  providerOrigin := project.providerOrigin
  projectId := project.projectId
  address := .lease leaseId operation
  body := {
    requestId := request.requestId
    holderSecret := receipt.holderSecret
    resourceKey := none
    holderId := none
    ttlSeconds := if operation = .renew then
      some (ttlSeconds.getD project.policy.defaultTtlSeconds) else none }

/-- `mutate_active_receipt`, up to its request. -/
def mutateActiveReceipt (files : Receipts) (project : NamedLeaseProject)
    (leaseId holderId : String) (operation : LeaseOperation) (ttlSeconds : Option ℕ)
    (freshId : String) : Except LeaseError LeaseStart := do
  validateHolderId holderId
  validateIdentifier leaseId "lease" "nls_"
  -- Only a renewal has a TTL.
  let checked := if operation = .renew then
      validateTtl project.policy (ttlSeconds.getD project.policy.defaultTtlSeconds)
    else .ok ()
  checked
  let path := receiptPath project.providerOrigin project.projectId
    (activeReceiptFile leaseId holderId)
  match files.lookup path with
  | none => throw (.bail "no active named-lease receipt matches that lease and holder")
  | some receipt =>
    validateReceiptBinding receipt project leaseId holderId
    let request ← mutationOf receipt operation ttlSeconds freshId
    -- The request is in the receipt before it is sent.
    let receipt := { receipt with pendingMutation := some request }
    return ⟨path, receipt, [.write path receipt],
      mutateRequest project leaseId operation receipt request ttlSeconds⟩

/-- `mutate_active_receipt`, from the answer on. -/
def mutateAnswered (project : NamedLeaseProject) (leaseId : String) (path : ReceiptPath)
    (receipt : NamedLeaseReceipt) (now : ℤ) (answer : Option LeaseAnswer) : LeaseEnd :=
  match mutationRequest answer with
  | .error (.outcome status response) =>
    -- The provider says that the lease is gone, so its receipt goes too.
    if response.outcome = .leaseExpired ∨ response.outcome = .notHolder then
      ⟨[.remove path], .error (.outcome status response)⟩
    else ⟨[], .error (.outcome status response)⟩
  | .error e => ⟨[], .error e⟩
  | .ok response =>
    match response.validateForLease project.projectId leaseId with
    | .error e => ⟨[], .error e⟩
    | .ok () =>
      match response.outcome with
      | .renewed =>
        ⟨[.write path { receipt with
          lease := response.lease, pendingMutation := none, authorityRecordedAt := some now }],
          .ok response⟩
      | .released => ⟨[.remove path], .ok response⟩
      | outcome => ⟨[.remove path], .error (.outcome (mutationStatus outcome) response)⟩

/-! What the functions above tell their callers. -/

section Findings

variable {files : Receipts} {project : NamedLeaseProject} {resourceKey : String}
  {holderId : Option String} {ttlSeconds : Option ℕ} {fresh : FreshReceipt}

/-- A check fails with a message, never with an outcome of the provider. -/
theorem NamedLease.validate_error {lease : NamedLease} {e : LeaseError}
    (h : lease.validate = .error e) : ∃ message, e = .bail message := by
  unfold NamedLease.validate at h
  split at h
  · exact ⟨_, (Except.error.inj h).symm⟩
  · rcases bind_eq_error.mp h with h | ⟨_, -, h⟩
    · exact ⟨_, ensure_error h⟩
    · exact ⟨_, ensure_error h⟩

theorem NamedLeaseMutationResponse.validate_error {response : NamedLeaseMutationResponse}
    {e : LeaseError} (h : response.validate = .error e) : ∃ message, e = .bail message := by
  unfold NamedLeaseMutationResponse.validate at h
  rcases bind_eq_error.mp h with h | ⟨_, -, h⟩
  · exact ⟨_, ensure_error h⟩
  · split at h
    · exact NamedLease.validate_error h
    · cases h

theorem NamedLease.validate_ok {lease : NamedLease} {u : Unit} (h : lease.validate = .ok u) :
    0 < lease.generation ∧ lease.acquiredAt < lease.expiresAt := by
  unfold NamedLease.validate at h
  split at h
  · cases h
  · obtain ⟨_, hgeneration, h⟩ := bind_eq_ok.mp h
    have hpositive := ensure_eq_ok.mp hgeneration
    exact ⟨by omega, ensure_eq_ok.mp h⟩

/-- A checked lease. -/
structure NamedLease.Proper (lease : NamedLease) (projectId : String) : Prop where
  projectId : lease.projectId = projectId
  generation : 0 < lease.generation
  lifetime : lease.acquiredAt < lease.expiresAt

theorem NamedLease.validateForResource_ok {lease : NamedLease} {projectId : String} {u : Unit}
    (h : lease.validateForResource projectId resourceKey = .ok u) :
    lease.Proper projectId ∧ lease.resourceKey = resourceKey := by
  obtain ⟨_, hvalid, h⟩ := bind_eq_ok.mp h
  obtain ⟨hgeneration, hlifetime⟩ := NamedLease.validate_ok hvalid
  obtain ⟨hproject, hresource⟩ := ensure_eq_ok.mp h
  exact ⟨⟨hproject, hgeneration, hlifetime⟩, hresource⟩

theorem NamedLease.validateForLease_ok {lease : NamedLease} {projectId leaseId : String} {u : Unit}
    (h : lease.validateForLease projectId leaseId = .ok u) :
    lease.Proper projectId ∧ lease.leaseId = leaseId := by
  obtain ⟨_, hvalid, h⟩ := bind_eq_ok.mp h
  obtain ⟨hgeneration, hlifetime⟩ := NamedLease.validate_ok hvalid
  obtain ⟨hproject, hlease⟩ := ensure_eq_ok.mp h
  exact ⟨⟨hproject, hgeneration, hlifetime⟩, hlease⟩

theorem validateForResource_lease {response : NamedLeaseMutationResponse} {projectId : String}
    {u : Unit} {lease : NamedLease}
    (h : response.validateForResource projectId resourceKey = .ok u)
    (hlease : response.lease = some lease) :
    lease.Proper projectId ∧ lease.resourceKey = resourceKey := by
  obtain ⟨_, -, h⟩ := bind_eq_ok.mp h
  rw [hlease] at h
  exact NamedLease.validateForResource_ok h

/-- The outcomes that carry a lease have one. -/
theorem validateForLease_lease {response : NamedLeaseMutationResponse}
    {projectId leaseId : String} {u : Unit}
    (h : response.validateForLease projectId leaseId = .ok u)
    (hcarries : response.outcome.carriesLease = true) :
    ∃ lease, response.lease = some lease ∧ lease.Proper projectId ∧ lease.leaseId = leaseId := by
  obtain ⟨_, hvalid, h⟩ := bind_eq_ok.mp h
  obtain ⟨_, hsome, -⟩ := bind_eq_ok.mp hvalid
  rw [ensure_eq_ok, hcarries] at hsome
  obtain ⟨lease, hlease⟩ := Option.isSome_iff_exists.mp hsome.symm
  rw [hlease] at h
  exact ⟨lease, hlease, NamedLease.validateForLease_ok h⟩

/-- Where `mutation_request` returns. -/
theorem mutationRequest_ok {answer : Option LeaseAnswer} {response : NamedLeaseMutationResponse}
    (h : mutationRequest answer = .ok response) :
    ∃ status, answer = some ⟨status, some response⟩ ∧ 200 ≤ status ∧ status < 300 := by
  unfold mutationRequest at h
  split at h
  · cases h
  · next found =>
    split at h
    · cases h
    · next hbody =>
      split at h
      · next hstatus =>
        obtain rfl := Except.ok.inj h
        obtain ⟨status, body⟩ := found
        obtain rfl : body = _ := hbody
        exact ⟨status, rfl, hstatus⟩
      · split at h
        · cases h
        · cases h

/-- Where `mutation_request` reports an outcome of the provider. -/
theorem mutationRequest_outcome {answer : Option LeaseAnswer} {status : ℕ}
    {response : NamedLeaseMutationResponse}
    (h : mutationRequest answer = .error (.outcome status response)) :
    answer = some ⟨status, some response⟩ ∧ ¬ (200 ≤ status ∧ status < 300) := by
  unfold mutationRequest at h
  split at h
  · cases h
  · next found =>
    split at h
    · cases h
    · next hbody =>
      split at h
      · cases h
      · next hstatus =>
        split at h
        · next e hinvalid =>
          obtain ⟨message, rfl⟩ := NamedLeaseMutationResponse.validate_error hinvalid
          cases h
        · obtain ⟨rfl, rfl⟩ := LeaseError.outcome.inj (Except.error.inj h)
          obtain ⟨status, body⟩ := found
          obtain rfl : body = _ := hbody
          exact ⟨rfl, hstatus⟩

theorem findPendingReceipt_some {path : ReceiptPath} {receipt : NamedLeaseReceipt}
    (h : findPendingReceipt files project resourceKey holderId = .ok (some (path, receipt))) :
    files.lookup path = some receipt ∧
      matchesPending project resourceKey holderId path receipt = true := by
  unfold findPendingReceipt at h
  split at h
  · cases h
  · next path' receipt' hfound =>
    obtain ⟨hpath, hreceipt⟩ := Prod.mk.inj (Option.some.inj (Except.ok.inj h))
    subst hpath hreceipt
    have hmem : (⟨path', receipt'⟩ : Sigma fun _ : ReceiptPath => NamedLeaseReceipt) ∈
        files.entries.filter fun e => matchesPending project resourceKey holderId e.1 e.2 := by
      rw [hfound]
      exact List.mem_singleton_self _
    obtain ⟨hentry, hmatches⟩ := List.mem_filter.mp hmem
    exact ⟨AList.mem_lookup_iff.mpr hentry, hmatches⟩
  · cases h

theorem findPendingReceipt_none
    (h : findPendingReceipt files project resourceKey holderId = .ok none)
    {path : ReceiptPath} {receipt : NamedLeaseReceipt} (hlookup : files.lookup path = some receipt) :
    matchesPending project resourceKey holderId path receipt = false := by
  unfold findPendingReceipt at h
  split at h
  · next hnil =>
    have hnot := List.filter_eq_nil_iff.mp hnil _ (AList.mem_lookup_iff.mp hlookup)
    exact Bool.not_eq_true _ ▸ hnot
  · cases h
  · cases h

/-- How an acquisition begins: with the pending receipt that is there, or with a new one. -/
theorem acquire_cases {start : LeaseStart}
    (h : acquire files project resourceKey holderId ttlSeconds fresh = .ok start) :
    (∃ path receipt,
      findPendingReceipt files project resourceKey holderId = .ok (some (path, receipt)) ∧
      start = ⟨path, receipt, [], acquireRequest receipt⟩) ∨
    ∃ receipt, findPendingReceipt files project resourceKey holderId = .ok none ∧
      receipt = pendingReceipt project resourceKey (holderId.getD fresh.holderId)
        (ttlSeconds.getD project.policy.defaultTtlSeconds) fresh ∧
      start = ⟨receiptPath project.providerOrigin project.projectId (pendingReceiptFile receipt),
        receipt, [.write (receiptPath project.providerOrigin project.projectId
          (pendingReceiptFile receipt)) receipt], acquireRequest receipt⟩ := by
  obtain ⟨_, -, h⟩ := bind_eq_ok.mp h
  obtain ⟨_, -, h⟩ := bind_eq_ok.mp h
  obtain ⟨found, hfound, h⟩ := bind_eq_ok.mp h
  cases found with
  | some entry =>
    obtain ⟨path, receipt⟩ := entry
    obtain ⟨_, -, h⟩ := bind_eq_ok.mp h
    exact Or.inl ⟨path, receipt, hfound, (Except.ok.inj h).symm⟩
  | none =>
    obtain ⟨_, -, h⟩ := bind_eq_ok.mp h
    exact Or.inr ⟨_, hfound, rfl, (Except.ok.inj h).symm⟩

/-- What `validate_receipt_binding` makes sure of. -/
structure NamedLeaseReceipt.Bound (receipt : NamedLeaseReceipt) (project : NamedLeaseProject)
    (leaseId holderId : String) (lease : NamedLease) : Prop where
  held : receipt.lease = some lease
  state : receipt.state = .active
  origin : receipt.providerOrigin = project.providerOrigin
  projectId : receipt.projectId = project.projectId
  holderId : receipt.holderId = holderId
  leaseId : lease.leaseId = leaseId
  proper : lease.Proper project.projectId

theorem validateReceiptBinding_ok {receipt : NamedLeaseReceipt} {leaseId holder : String} {u : Unit}
    (h : validateReceiptBinding receipt project leaseId holder = .ok u) :
    ∃ lease, receipt.Bound project leaseId holder lease := by
  unfold validateReceiptBinding at h
  split at h
  · cases h
  · next lease hlease =>
    obtain ⟨_, hbound, h⟩ := bind_eq_ok.mp h
    obtain ⟨-, hstate, horigin, hproject, hholder, hid⟩ := ensure_eq_ok.mp hbound
    have hproper := (NamedLease.validateForLease_ok h).1
    exact ⟨lease, hlease, hstate, horigin, hproject, hholder, hid, hproper⟩

/-- How `renew` and `release` begin. -/
theorem mutateActiveReceipt_cases {leaseId holder freshId : String} {operation : LeaseOperation}
    {start : LeaseStart}
    (h : mutateActiveReceipt files project leaseId holder operation ttlSeconds freshId =
      .ok start) :
    ∃ receipt lease request,
      files.lookup (receiptPath project.providerOrigin project.projectId
        (activeReceiptFile leaseId holder)) = some receipt ∧
      receipt.Bound project leaseId holder lease ∧
      mutationOf receipt operation ttlSeconds freshId = .ok request ∧
      start = ⟨receiptPath project.providerOrigin project.projectId
          (activeReceiptFile leaseId holder), { receipt with pendingMutation := some request },
        [.write (receiptPath project.providerOrigin project.projectId
          (activeReceiptFile leaseId holder)) { receipt with pendingMutation := some request }],
        mutateRequest project leaseId operation { receipt with pendingMutation := some request }
          request ttlSeconds⟩ := by
  obtain ⟨_, -, h⟩ := bind_eq_ok.mp h
  obtain ⟨_, -, h⟩ := bind_eq_ok.mp h
  obtain ⟨_, -, hrest⟩ := bind_eq_ok.mp h
  dsimp only at hrest
  cases hlookup : files.lookup (receiptPath project.providerOrigin project.projectId
      (activeReceiptFile leaseId holder)) with
  | none =>
    rw [hlookup] at hrest
    cases hrest
  | some receipt =>
    rw [hlookup] at hrest
    obtain ⟨_, hbound, hrest⟩ := bind_eq_ok.mp hrest
    obtain ⟨request, hrequest, hrest⟩ := bind_eq_ok.mp hrest
    obtain ⟨lease, hlease⟩ := validateReceiptBinding_ok hbound
    exact ⟨receipt, lease, request, rfl, hlease, hrequest, (Except.ok.inj hrest).symm⟩

variable {path : ReceiptPath} {receipt : NamedLeaseReceipt} {now : ℤ}
  {answer : Option LeaseAnswer} {leaseId : String}

/-- How an acquisition ends. -/
inductive AcquireEnds (project : NamedLeaseProject) (resourceKey : String) (path : ReceiptPath)
    (receipt : NamedLeaseReceipt) (now : ℤ) (answer : Option LeaseAnswer) : LeaseEnd → Prop
  | failed {e} : AcquireEnds project resourceKey path receipt now answer ⟨[], .error e⟩
  | refused {status response e} : answer = some ⟨status, some response⟩ →
      ¬ (200 ≤ status ∧ status < 300) ∨ response.outcome ≠ .acquired →
      AcquireEnds project resourceKey path receipt now answer ⟨[.remove path], .error e⟩
  | granted {status response} {lease : NamedLease} : answer = some ⟨status, some response⟩ →
      response.outcome = .acquired → response.lease = some lease →
      lease.Proper project.projectId → lease.resourceKey = resourceKey →
      AcquireEnds project resourceKey path receipt now answer
        ⟨[.write (receiptPath project.providerOrigin project.projectId
            (activeReceiptFile lease.leaseId receipt.holderId))
            { receipt with
              state := .active, lease := some lease, authorityRecordedAt := some now },
          .remove path], .ok response⟩

theorem acquireAnswered_cases : AcquireEnds project resourceKey path receipt now answer
    (acquireAnswered project resourceKey path receipt now answer) := by
  unfold acquireAnswered
  split
  · next status response houtcome =>
    obtain ⟨hanswer, hstatus⟩ := mutationRequest_outcome houtcome
    exact .refused hanswer (Or.inl hstatus)
  · exact .failed
  · next response hresponse =>
    obtain ⟨status, hanswer, -⟩ := mutationRequest_ok hresponse
    split
    · exact .failed
    · next hvalid =>
      split
      · next hne => exact .refused hanswer (Or.inr hne)
      · next hacquired =>
        split
        · exact .failed
        · next lease hlease =>
          split
          · exact .failed
          · obtain ⟨hproper, hresource⟩ := validateForResource_lease hvalid hlease
            exact .granted hanswer (not_not.mp hacquired) hlease hproper hresource

/-- How `renew` and `release` end. -/
inductive MutateEnds (project : NamedLeaseProject) (leaseId : String) (path : ReceiptPath)
    (receipt : NamedLeaseReceipt) (now : ℤ) (answer : Option LeaseAnswer) : LeaseEnd → Prop
  | failed {e} : MutateEnds project leaseId path receipt now answer ⟨[], .error e⟩
  | lost {status response e} : answer = some ⟨status, some response⟩ →
      response.outcome = .leaseExpired ∨ response.outcome = .notHolder →
      MutateEnds project leaseId path receipt now answer ⟨[.remove path], .error e⟩
  | renewed {status response} {lease : NamedLease} : answer = some ⟨status, some response⟩ →
      response.outcome = .renewed → response.lease = some lease →
      lease.Proper project.projectId → lease.leaseId = leaseId →
      MutateEnds project leaseId path receipt now answer
        ⟨[.write path { receipt with
            lease := some lease, pendingMutation := none, authorityRecordedAt := some now }],
          .ok response⟩
  | released {status response} {lease : NamedLease} : answer = some ⟨status, some response⟩ →
      response.outcome = .released → response.lease = some lease →
      lease.Proper project.projectId → lease.leaseId = leaseId →
      MutateEnds project leaseId path receipt now answer ⟨[.remove path], .ok response⟩
  | other {status response e} : answer = some ⟨status, some response⟩ →
      200 ≤ status ∧ status < 300 → response.outcome ≠ .renewed → response.outcome ≠ .released →
      MutateEnds project leaseId path receipt now answer ⟨[.remove path], .error e⟩

theorem mutateAnswered_cases : MutateEnds project leaseId path receipt now answer
    (mutateAnswered project leaseId path receipt now answer) := by
  unfold mutateAnswered
  split
  · next status response houtcome =>
    obtain ⟨hanswer, -⟩ := mutationRequest_outcome houtcome
    split
    · next hlost => exact .lost hanswer hlost
    · exact .failed
  · exact .failed
  · next response hresponse =>
    obtain ⟨status, hanswer, hstatus⟩ := mutationRequest_ok hresponse
    split
    · exact .failed
    · next hvalid =>
      split
      · next hrenewed =>
        have hcarries : response.outcome.carriesLease = true := by rw [hrenewed]; rfl
        obtain ⟨lease, hlease, hproper, hid⟩ := validateForLease_lease hvalid hcarries
        rw [hlease]
        exact .renewed hanswer hrenewed hlease hproper hid
      · next hreleased =>
        have hcarries : response.outcome.carriesLease = true := by rw [hreleased]; rfl
        obtain ⟨lease, hlease, hproper, hid⟩ := validateForLease_lease hvalid hcarries
        exact .released hanswer hreleased hlease hproper hid
      · next hrenewed hreleased => exact .other hanswer hstatus hrenewed hreleased

end Findings

end Resync
