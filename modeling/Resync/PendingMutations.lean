import Resync.NamedLease

/-! Which answers to a renewal or a release settle the mutation that the receipt
has recorded, so that the next one is not refused as waiting for an answer. -/
namespace Resync

/-- The message of a mutation that is refused for another one that is waiting. -/
def awaitingMessage : String := "a different named-lease mutation is awaiting an unambiguous response"

/-- The active receipt of a lease and a holder has a mutation that waits. -/
def Waiting (files : Receipts) (project : NamedLeaseProject) (leaseId holderId : String) : Prop :=
  ∃ receipt, files.lookup (receiptPath project.providerOrigin project.projectId
    (activeReceiptFile leaseId holderId)) = some receipt ∧ receipt.pendingMutation ≠ none

/-- The receipts when a call that has begun has been answered. -/
def receiptsAfter (files : Receipts) (project : NamedLeaseProject) (leaseId : String)
    (start : LeaseStart) (now : ℤ) (answer : Option LeaseAnswer) : Receipts :=
  (mutateAnswered project leaseId start.path start.receipt now answer).actions.foldl
    ReceiptAction.perform (start.writes.foldl ReceiptAction.perform files)

/-- The answers that settle a mutation: under a success status every one that passes
`validate_for_lease`, under an error status the two that tell of a lost lease. -/
def Settles (project : NamedLeaseProject) (leaseId : String) (status : ℕ)
    (response : NamedLeaseMutationResponse) : Prop :=
  if 200 ≤ status ∧ status < 300 then
    response.validateForLease project.projectId leaseId = .ok ()
  else response.validate = .ok () ∧
    (response.outcome = .leaseExpired ∨ response.outcome = .notHolder)

section Messages

/-- A message that does not begin like it is another message. -/
theorem ne_awaitingMessage {message : String} (h : message.toList.head? ≠ some 'a') :
    (.bail message : LeaseError) ≠ .bail awaitingMessage := by
  intro he
  rw [LeaseError.bail.inj he] at h
  exact h rfl

theorem head_append {s : String} {c : Char} (h : s.toList.head? = some c) (t : String) :
    (s ++ t).toList.head? = some c := by
  rw [String.toList_append, List.head?_append, h]
  rfl

theorem NamedLease.validate_message {lease : NamedLease} {e : LeaseError}
    (h : lease.validate = .error e) : e ≠ .bail awaitingMessage := by
  unfold NamedLease.validate at h
  split at h
  · rw [← Except.error.inj h]
    apply ne_awaitingMessage
    rw [head_append (c := 'n') rfl]
    decide
  · rcases bind_eq_error.mp h with h | ⟨_, -, h⟩
    · rw [ensure_error h]
      exact ne_awaitingMessage (by decide)
    · rw [ensure_error h]
      exact ne_awaitingMessage (by decide)

theorem validateTtl_message {policy : NamedLeasePolicy} {ttl : ℕ} {e : LeaseError}
    (h : validateTtl policy ttl = .error e) : e ≠ .bail awaitingMessage := by
  rw [ensure_error h]
  apply ne_awaitingMessage
  have hhead := head_append (head_append (head_append (head_append
    (s := "named-lease TTL must be ") (c := 'n') rfl (toString policy.minTtlSeconds)) "-")
      (toString policy.maxTtlSeconds)) " seconds"
  rw [hhead]
  decide

theorem validateReceiptBinding_message {receipt : NamedLeaseReceipt} {project : NamedLeaseProject}
    {leaseId holderId : String} {e : LeaseError}
    (h : validateReceiptBinding receipt project leaseId holderId = .error e) :
    e ≠ .bail awaitingMessage := by
  unfold validateReceiptBinding at h
  split at h
  · rw [← Except.error.inj h]
    exact fun he => absurd (LeaseError.bail.inj he) (by decide)
  · rcases bind_eq_error.mp h with h | ⟨_, -, h⟩
    · rw [ensure_error h]
      exact ne_awaitingMessage (by decide)
    · rcases bind_eq_error.mp h with h | ⟨_, -, h⟩
      · exact NamedLease.validate_message h
      · rw [ensure_error h]
        exact ne_awaitingMessage (by decide)

end Messages

section Next

variable {files : Receipts} {project : NamedLeaseProject} {leaseId holderId : String}

/-- Where no mutation waits, none is refused for one that does. -/
theorem mutate_not_refused (h : ¬ Waiting files project leaseId holderId)
    (policy : NamedLeasePolicy) (operation : LeaseOperation) (ttlSeconds : Option ℕ)
    (freshId : String) :
    mutateActiveReceipt files { project with policy := policy } leaseId holderId operation
      ttlSeconds freshId ≠ .error (.bail awaitingMessage) := by
  intro herror
  rcases bind_eq_error.mp herror with hholder | ⟨_, -, herror⟩
  · have hmessage := LeaseError.bail.inj (ensure_error hholder)
    exact absurd hmessage (by decide)
  rcases bind_eq_error.mp herror with hidentifier | ⟨_, -, herror⟩
  · have hmessage := LeaseError.bail.inj (ensure_error hidentifier)
    exact absurd hmessage (by decide)
  rcases bind_eq_error.mp herror with hchecked | ⟨_, -, herror⟩
  · split at hchecked
    · exact validateTtl_message hchecked rfl
    · cases hchecked
  dsimp only at herror
  cases hlookup : files.lookup (receiptPath project.providerOrigin project.projectId
      (activeReceiptFile leaseId holderId)) with
  | none =>
    rw [hlookup] at herror
    have hmessage := LeaseError.bail.inj (Except.error.inj herror)
    exact absurd hmessage (by decide)
  | some receipt =>
    have hnone : receipt.pendingMutation = none := by
      by_contra hsome
      exact h ⟨receipt, hlookup, hsome⟩
    rw [hlookup] at herror
    rcases bind_eq_error.mp herror with hbinding | ⟨_, -, herror⟩
    · exact validateReceiptBinding_message hbinding rfl
    · rcases bind_eq_error.mp herror with hmutation | ⟨_, -, herror⟩
      · rw [mutationOf, hnone] at hmutation
        cases hmutation
      · cases herror

end Next

section Answered

variable {files : Receipts} {project : NamedLeaseProject} {leaseId holderId freshId : String}
  {operation : LeaseOperation} {ttlSeconds : Option ℕ} {start : LeaseStart}

/-- Whether a mutation waits after the answer, by what the answer does to the
receipt that was written before the request. -/
theorem waiting_after_iff
    (hstart : mutateActiveReceipt files project leaseId holderId operation ttlSeconds freshId =
      .ok start) (status : ℕ) (response : NamedLeaseMutationResponse) (now : ℤ) :
    Waiting (receiptsAfter files project leaseId start now (some ⟨status, some response⟩))
      project leaseId holderId ↔ ¬ Settles project leaseId status response := by
  obtain ⟨receipt, lease, request, -, -, -, rfl⟩ := mutateActiveReceipt_cases hstart
  set path := receiptPath project.providerOrigin project.projectId
    (activeReceiptFile leaseId holderId) with hpath
  set written : NamedLeaseReceipt := { receipt with pendingMutation := some request } with hwritten
  have hfiles : ∀ found : LeaseEnd,
      mutateAnswered project leaseId path written now (some ⟨status, some response⟩) = found →
      receiptsAfter files project leaseId ⟨path, written, [.write path written],
        mutateRequest project leaseId operation written request ttlSeconds⟩ now
        (some ⟨status, some response⟩) =
        found.actions.foldl ReceiptAction.perform (files.insert path written) := by
    intro found hfound
    rw [receiptsAfter, hfound]
    rfl
  -- nothing was done to the receipt
  have hkept : ∀ e, mutateAnswered project leaseId path written now
      (some ⟨status, some response⟩) = ⟨[], .error e⟩ →
      Waiting (receiptsAfter files project leaseId ⟨path, written, [.write path written],
        mutateRequest project leaseId operation written request ttlSeconds⟩ now
        (some ⟨status, some response⟩)) project leaseId holderId := by
    intro e he
    rw [hfiles _ he]
    exact ⟨written, AList.lookup_insert files, Option.some_ne_none request⟩
  -- the receipt was removed, or written without the mutation
  have hsettled : ∀ found : LeaseEnd, mutateAnswered project leaseId path written now
      (some ⟨status, some response⟩) = found →
      (found.actions = [.remove path] ∨ ∃ r : NamedLeaseReceipt, r.pendingMutation = none ∧
        found.actions = [.write path r]) →
      ¬ Waiting (receiptsAfter files project leaseId ⟨path, written, [.write path written],
        mutateRequest project leaseId operation written request ttlSeconds⟩ now
        (some ⟨status, some response⟩)) project leaseId holderId := by
    intro found hfound hactions
    rw [hfiles found hfound]
    rintro ⟨r, hlookup, hpending⟩
    rw [← hpath] at hlookup
    rcases hactions with hremove | ⟨r', hnone, hwrite⟩
    · rw [hremove] at hlookup
      have hgone : ((files.insert path written).erase path).lookup path = none :=
        AList.lookup_erase path _
      exact Option.some_ne_none r (hlookup.symm.trans hgone)
    · rw [hwrite] at hlookup
      have hnow : ((files.insert path written).insert path r').lookup path = some r' :=
        AList.lookup_insert _
      obtain rfl := Option.some.inj (hlookup.symm.trans hnow)
      exact hpending hnone
  by_cases hstatus : 200 ≤ status ∧ status < 300
  · have hrequest : mutationRequest (some ⟨status, some response⟩) = .ok response := by
      simp only [mutationRequest, hstatus, and_self, if_true]
    rw [Settles, if_pos hstatus]
    cases hvalid : response.validateForLease project.projectId leaseId with
    | error e =>
      have hend : mutateAnswered project leaseId path written now
          (some ⟨status, some response⟩) = ⟨[], .error e⟩ := by
        simp only [mutateAnswered, hrequest, hvalid]
      exact iff_of_true (hkept e hend) fun h => by cases h
    | ok u =>
      refine iff_of_false ?_ fun h => h rfl
      apply hsettled _ rfl
      simp only [mutateAnswered, hrequest, hvalid]
      split
      · exact Or.inr ⟨_, rfl, rfl⟩
      · exact Or.inl rfl
      · exact Or.inl rfl
  · rw [Settles, if_neg hstatus]
    cases hvalid : response.validate with
    | error e =>
      have hrequest : mutationRequest (some ⟨status, some response⟩) = .error e := by
        simp only [mutationRequest, hstatus, if_false, hvalid]
      obtain ⟨message, rfl⟩ := NamedLeaseMutationResponse.validate_error hvalid
      have hend : mutateAnswered project leaseId path written now
          (some ⟨status, some response⟩) = ⟨[], .error (.bail message)⟩ := by
        simp only [mutateAnswered, hrequest]
      exact iff_of_true (hkept _ hend) fun h => by cases h.1
    | ok u =>
      have hrequest : mutationRequest (some ⟨status, some response⟩) =
          .error (.outcome status response) := by
        simp only [mutationRequest, hstatus, if_false, hvalid]
      by_cases hlost : response.outcome = .leaseExpired ∨ response.outcome = .notHolder
      · refine iff_of_false ?_ fun h => h ⟨rfl, hlost⟩
        apply hsettled _ rfl
        simp only [mutateAnswered, hrequest, if_pos hlost]
        exact Or.inl trivial
      · have hend : mutateAnswered project leaseId path written now
            (some ⟨status, some response⟩) = ⟨[], .error (.outcome status response)⟩ := by
          simp only [mutateAnswered, hrequest, if_neg hlost]
        exact iff_of_true (hkept _ hend) fun h => hlost h.2

/-- A renewal or a release that is answered leaves no mutation waiting, and the
next one is not refused for it, exactly when the answer settles it. -/
theorem answered_settles_iff
    (hstart : mutateActiveReceipt files project leaseId holderId operation ttlSeconds freshId =
      .ok start) (status : ℕ) (response : NamedLeaseMutationResponse) (now : ℤ) :
    (¬ Waiting (receiptsAfter files project leaseId start now (some ⟨status, some response⟩))
        project leaseId holderId ∧
      ∀ policy operation' ttlSeconds' freshId', mutateActiveReceipt
        (receiptsAfter files project leaseId start now (some ⟨status, some response⟩))
        { project with policy := policy } leaseId holderId operation' ttlSeconds' freshId' ≠
          .error (.bail awaitingMessage)) ↔
      Settles project leaseId status response := by
  have hwaiting := waiting_after_iff hstart status response now
  constructor
  · rintro ⟨hfree, -⟩
    by_contra hnot
    exact hfree (hwaiting.mpr hnot)
  · intro hsettles
    have hfree := fun h => (hwaiting.mp h) hsettles
    exact ⟨hfree, mutate_not_refused hfree⟩

end Answered

section OneRenewal

/-- A project whose policy allows from half a minute to an hour. -/
def heldProject : NamedLeaseProject := ⟨"https://host", "prj_a", ⟨900, 30, 3600⟩⟩

def heldPath : ReceiptPath :=
  receiptPath heldProject.providerOrigin heldProject.projectId (activeReceiptFile "nls_a" "worker")

/-- An active receipt without a mutation. -/
def heldReceipt : NamedLeaseReceipt where
  version := 1
  state := .active
  providerOrigin := "https://host"
  projectId := "prj_a"
  requestId := "req_0"
  resourceKey := "maps/a"
  holderId := "worker"
  holderSecret := "secret"
  requestedTtlSeconds := 900
  lease := some ⟨"nls_a", "prj_a", "maps/a", "dev_a", none, "worker", 1, 0, 900000⟩
  pendingMutation := none
  authorityRecordedAt := some 0

def heldFiles : Receipts := AList.singleton heldPath heldReceipt

/-- A renewal for ten minutes. -/
def renewalStart : LeaseStart where
  path := heldPath
  receipt := { heldReceipt with pendingMutation := some ⟨.renew, "req_1", some 600⟩ }
  writes :=
    [.write heldPath { heldReceipt with pendingMutation := some ⟨.renew, "req_1", some 600⟩ }]
  request := mutateRequest heldProject "nls_a" .renew heldReceipt ⟨.renew, "req_1", some 600⟩
    (some 600)

theorem renewal_starts :
    mutateActiveReceipt heldFiles heldProject "nls_a" "worker" .renew (some 600) "req_1" =
      .ok renewalStart := by
  decide +kernel

/-- `LEASE_EXPIRED` under 409 settles the renewal. -/
theorem answered_settles_expired :
    mutateActiveReceipt heldFiles heldProject "nls_a" "worker" .renew (some 600) "req_1" =
      .ok renewalStart ∧
    ¬ Waiting (receiptsAfter heldFiles heldProject "nls_a" renewalStart 1000
      (some ⟨409, some ⟨.leaseExpired, none⟩⟩)) heldProject "nls_a" "worker" := by
  have hsettles : Settles heldProject "nls_a" 409 ⟨.leaseExpired, none⟩ := by
    rw [Settles, if_neg (by decide)]
    exact ⟨by decide, Or.inl rfl⟩
  have hanswered := answered_settles_iff renewal_starts 409 ⟨.leaseExpired, none⟩ 1000
  exact ⟨renewal_starts, (hanswered.mpr hsettles).1⟩

/-- `INVALID_TTL` under 400, as a provider with another policy answers, leaves the renewal
waiting, and the lease cannot be released. -/
theorem refused_renewal_blocks_release :
    mutateActiveReceipt heldFiles heldProject "nls_a" "worker" .renew (some 600) "req_1" =
      .ok renewalStart ∧
    (⟨.invalidTtl, none⟩ : NamedLeaseMutationResponse).validate = .ok () ∧
    Waiting (receiptsAfter heldFiles heldProject "nls_a" renewalStart 1000
      (some ⟨400, some ⟨.invalidTtl, none⟩⟩)) heldProject "nls_a" "worker" ∧
    mutateActiveReceipt (receiptsAfter heldFiles heldProject "nls_a" renewalStart 1000
      (some ⟨400, some ⟨.invalidTtl, none⟩⟩)) heldProject "nls_a" "worker" .release none "req_2" =
      .error (.bail awaitingMessage) := by
  have hunsettled : ¬ Settles heldProject "nls_a" 400 ⟨.invalidTtl, none⟩ := by
    rw [Settles, if_neg (by decide)]
    rintro ⟨-, hexpired | hlost⟩
    · exact absurd hexpired (by decide)
    · exact absurd hlost (by decide)
  have hwaiting := (waiting_after_iff renewal_starts 400 ⟨.invalidTtl, none⟩ 1000).mpr hunsettled
  exact ⟨renewal_starts, by decide, hwaiting, by decide +kernel⟩

end OneRenewal

end Resync
