import Resync.LeaseProofs

/-! What a request ID stands for (`named_lease.rs`). An acquisition keeps its TTL with its
request ID, and a renewal that was asked for without one does not. -/
namespace Resync

/-- What has been settled when a request ID is drawn. -/
inductive LeaseIssue where
  | acquire (holderSecret resourceKey holderId : String) (ttl : ℕ)
  | mutate (holderSecret : String) (operation : LeaseOperation) (ttlSeconds : Option ℕ)
deriving DecidableEq

namespace LeaseIssue

/-- The body of a request, which may still depend on the advertised default. -/
def body (requestId : String) (default : ℕ) : LeaseIssue → LeaseBody
  | .acquire holderSecret resourceKey holderId ttl =>
    ⟨requestId, holderSecret, some resourceKey, some holderId, some ttl⟩
  | .mutate holderSecret operation ttlSeconds =>
    ⟨requestId, holderSecret, none, none,
      if operation = .renew then some (ttlSeconds.getD default) else none⟩

/-- The call is of the kind of the issue. -/
def fits : NamedLeaseCall → LeaseIssue → Prop
  | .acquire .., .acquire .. => True
  | .mutate _ _ _ operation ttlSeconds, .mutate _ operation' ttlSeconds' =>
    operation' = operation ∧ ttlSeconds' = ttlSeconds
  | _, _ => False

end LeaseIssue

/-- A renewal for which no TTL was given. -/
def NamedLeaseCall.takesDefault : NamedLeaseCall → Bool
  | .mutate _ _ _ .renew none => true
  | _ => false

namespace LeasesWorld

/-- All requests with one ID have one body. -/
def SameBodies (w : LeasesWorld) : Prop :=
  ∀ p ∈ w.sent, ∀ q ∈ w.sent, p.2.body.requestId = q.2.body.requestId → p.2.body = q.2.body

instance (w : LeasesWorld) : Decidable w.SameBodies :=
  inferInstanceAs (Decidable (∀ p ∈ w.sent, ∀ q ∈ w.sent,
    p.2.body.requestId = q.2.body.requestId → p.2.body = q.2.body))

/-- The condition. Where a renewal without a TTL is sent again, the provider advertises the
default of the times before. -/
def KeepsDefault (w : LeasesWorld) : LeasesEvent → Prop
  | .send =>
    match w.place with
    | .preparing call ⟨_, _, [], request⟩ => call.takesDefault = true →
      ∀ p ∈ w.sent, p.2.body.requestId = request.body.requestId →
        p.1.project.policy.defaultTtlSeconds = call.project.policy.defaultTtlSeconds
    | _ => True
  | _ => True

section Issues

variable (issues : String → Option LeaseIssue)

/-- The request IDs of a receipt stand for what it holds. -/
structure Described (receipt : NamedLeaseReceipt) : Prop where
  acquire : issues receipt.requestId = some (.acquire receipt.holderSecret receipt.resourceKey
    receipt.holderId receipt.requestedTtlSeconds)
  mutation : ∀ m ∈ receipt.pendingMutation,
    issues m.requestId = some (.mutate receipt.holderSecret m.operation m.ttlSeconds)

def DescribedActions (actions : List ReceiptAction) : Prop :=
  ∀ path receipt, .write path receipt ∈ actions → Described issues receipt

/-- The body of a request is that of its issue, at the default of its call. -/
def DescribedRequest (call : NamedLeaseCall) (request : LeaseRequest) : Prop :=
  ∃ issue, issues request.body.requestId = some issue ∧ issue.fits call ∧
    request.body = issue.body request.body.requestId call.project.policy.defaultTtlSeconds

def DescribedPlace : LeasePlace → Prop
  | .idle | .returned .. => True
  | .preparing call start => Described issues start.receipt ∧
    DescribedActions issues start.writes ∧ DescribedRequest issues call start.request
  | .awaiting _ start => Described issues start.receipt
  | .finishing _ _ rest => DescribedActions issues rest.actions

/-- The invariant. -/
structure Consistent (w : LeasesWorld) : Prop where
  files : ∀ path receipt, w.files.lookup path = some receipt → Described issues receipt
  place : DescribedPlace issues w.place
  sent : ∀ p ∈ w.sent, DescribedRequest issues p.1 p.2
  issued : ∀ id, issues id ≠ none → id ∈ w.issued

end Issues

section Steps

variable {issues issues' : String → Option LeaseIssue} {w w' : LeasesWorld} {e : LeasesEvent}

theorem Described.mono (hmono : ∀ id issue, issues id = some issue → issues' id = some issue)
    {receipt : NamedLeaseReceipt} (h : Described issues receipt) : Described issues' receipt where
  acquire := hmono _ _ h.acquire
  mutation m hm := hmono _ _ (h.mutation m hm)

theorem DescribedRequest.mono (hmono : ∀ id issue, issues id = some issue → issues' id = some issue)
    {call : NamedLeaseCall} {request : LeaseRequest} (h : DescribedRequest issues call request) :
    DescribedRequest issues' call request := by
  obtain ⟨issue, hissue, hfits, hbody⟩ := h
  exact ⟨issue, hmono _ _ hissue, hfits, hbody⟩

/-- A new request ID gets its meaning, and the others keep theirs. -/
theorem exists_issues (h : Consistent issues w) {id : String} (hid : id ∉ w.issued)
    (issue : LeaseIssue) : ∃ issues' : String → Option LeaseIssue,
      (∀ id issue, issues id = some issue → issues' id = some issue) ∧
      issues' id = some issue ∧ ∀ other, issues' other ≠ none → other ∈ id :: w.issued := by
  have hnone : issues id = none := by
    by_contra hne
    exact hid (h.issued id hne)
  refine ⟨Function.update issues id (some issue), ?_, Function.update_self .., ?_⟩
  · intro other known hknown
    have hne : other ≠ id := by
      rintro rfl
      rw [hnone] at hknown
      cases hknown
    rw [Function.update_of_ne hne, hknown]
  · intro other hother
    by_cases hsame : other = id
    · exact hsame ▸ List.mem_cons_self
    · rw [Function.update_of_ne hsame] at hother
      exact List.mem_cons_of_mem _ (h.issued other hother)

/-- A call that has passed its checks, with the meaning of its request ID. -/
theorem Consistent.start (h : Consistent issues w) {call : NamedLeaseCall} {fresh : FreshReceipt}
    (hfresh : fresh.requestId ∉ w.issued) {start : LeaseStart}
    (hstart : call.start w.files fresh = .ok start) :
    ∃ issues' : String → Option LeaseIssue,
      (∀ id issue, issues id = some issue → issues' id = some issue) ∧
      (∀ other, issues' other ≠ none → other ∈ fresh.requestId :: w.issued) ∧
      DescribedPlace issues' (.preparing call start) := by
  have hold : ∀ other, issues other ≠ none → other ∈ fresh.requestId :: w.issued :=
    fun other hother => List.mem_cons_of_mem _ (h.issued other hother)
  have hwrite : ∀ {issues : String → Option LeaseIssue} {path receipt},
      Described issues receipt → DescribedActions issues [.write path receipt] := by
    intro issues path receipt hreceipt path' receipt' hmem
    obtain ⟨-, rfl⟩ := ReceiptAction.write.inj (List.mem_singleton.mp hmem)
    exact hreceipt
  cases call with
  | acquire project resourceKey holderId ttlSeconds =>
    rcases acquire_cases hstart with ⟨path, receipt, hfound, rfl⟩ | ⟨receipt, -, hnew, rfl⟩
    · have hreceipt := h.files path receipt (findPendingReceipt_some hfound).1
      refine ⟨issues, fun _ _ hissue => hissue, hold, hreceipt, ?_, ?_⟩
      · intro _ _ hmem
        cases hmem
      · exact ⟨_, hreceipt.acquire, trivial, rfl⟩
    · obtain ⟨issues', hmono, hissue, hissued⟩ := exists_issues h hfresh
        (.acquire receipt.holderSecret receipt.resourceKey receipt.holderId
          receipt.requestedTtlSeconds)
      have hid : receipt.requestId = fresh.requestId := by
        rw [hnew]
        rfl
      have hpending : receipt.pendingMutation = none := by
        rw [hnew]
        rfl
      have hreceipt : Described issues' receipt := by
        refine ⟨by rw [hid, hissue], fun m hm => ?_⟩
        rw [hpending] at hm
        cases hm
      refine ⟨issues', hmono, hissued, hreceipt, hwrite hreceipt, ?_⟩
      exact ⟨_, hreceipt.acquire, trivial, rfl⟩
  | mutate project leaseId holderId operation ttlSeconds =>
    obtain ⟨receipt, lease, request, hlookup, -, hrequest, rfl⟩ := mutateActiveReceipt_cases hstart
    have hreceipt := h.files _ receipt hlookup
    -- the mutation is the one that is awaiting an answer, or it has the new ID
    obtain ⟨issues', hmono, hissued, hissue, hfits⟩ : ∃ issues' : String → Option LeaseIssue,
        (∀ id issue, issues id = some issue → issues' id = some issue) ∧
        (∀ other, issues' other ≠ none → other ∈ fresh.requestId :: w.issued) ∧
        issues' request.requestId =
          some (.mutate receipt.holderSecret request.operation request.ttlSeconds) ∧
        request.operation = operation ∧ request.ttlSeconds = ttlSeconds := by
      unfold mutationOf at hrequest
      split at hrequest
      · next pending hpending =>
        split at hrequest
        · next hsame =>
          obtain rfl := Except.ok.inj hrequest
          exact ⟨issues, fun _ _ hissue => hissue, hold, hreceipt.mutation _ hpending, hsame⟩
        · cases hrequest
      · obtain rfl := Except.ok.inj hrequest
        obtain ⟨issues', hmono, hissue, hissued⟩ := exists_issues h hfresh
          (.mutate receipt.holderSecret operation ttlSeconds)
        exact ⟨issues', hmono, hissued, hissue, rfl, rfl⟩
    have hmarked : Described issues' { receipt with pendingMutation := some request } := by
      refine ⟨hmono _ _ hreceipt.acquire, fun m hm => ?_⟩
      obtain rfl := Option.some.inj hm
      exact hissue
    refine ⟨issues', hmono, hissued, hmarked, hwrite hmarked, ?_⟩
    refine ⟨_, hissue, hfits, ?_⟩
    simp only [mutateRequest, LeaseIssue.body, hfits.1, hfits.2, NamedLeaseCall.project]

/-- What is left to do after an answer describes its receipts. -/
theorem describedActions_answered {call : NamedLeaseCall} {path : ReceiptPath}
    {receipt : NamedLeaseReceipt} (h : Described issues receipt) (now : ℤ)
    (answer : Option LeaseAnswer) :
    DescribedActions issues (call.answered path receipt now answer).actions := by
  intro target written hmem
  cases call with
  | acquire project resourceKey holderId ttlSeconds =>
    obtain ⟨rest, hrest⟩ :
        ∃ rest, acquireAnswered project resourceKey path receipt now answer = rest := ⟨_, rfl⟩
    have hends : AcquireEnds project resourceKey path receipt now answer rest :=
      hrest ▸ acquireAnswered_cases
    simp only [NamedLeaseCall.answered, hrest] at hmem
    cases hends with
    | failed => cases hmem
    | refused => cases List.mem_singleton.mp hmem
    | granted =>
      rcases List.mem_cons.mp hmem with heq | hmem
      · obtain ⟨-, rfl⟩ := ReceiptAction.write.inj heq
        exact ⟨h.acquire, h.mutation⟩
      · cases List.mem_singleton.mp hmem
  | mutate project leaseId holderId operation ttlSeconds =>
    obtain ⟨rest, hrest⟩ :
        ∃ rest, mutateAnswered project leaseId path receipt now answer = rest := ⟨_, rfl⟩
    have hends : MutateEnds project leaseId path receipt now answer rest :=
      hrest ▸ mutateAnswered_cases
    simp only [NamedLeaseCall.answered, hrest] at hmem
    cases hends with
    | failed => cases hmem
    | renewed =>
      obtain ⟨-, rfl⟩ := ReceiptAction.write.inj (List.mem_singleton.mp hmem)
      exact ⟨h.acquire, fun m hm => by cases hm⟩
    | _ => cases List.mem_singleton.mp hmem

/-- The files after a write or a removal. -/
theorem Consistent.perform (h : Consistent issues w) {a : ReceiptAction}
    (ha : ∀ path receipt, a = .write path receipt → Described issues receipt)
    {path : ReceiptPath} {receipt : NamedLeaseReceipt}
    (hlookup : (a.perform w.files).lookup path = some receipt) : Described issues receipt := by
  cases a with
  | write target new =>
    rw [lookup_write] at hlookup
    split at hlookup
    · obtain rfl := Option.some.inj hlookup
      exact ha target new rfl
    · exact h.files path receipt hlookup
  | remove target =>
    rw [lookup_remove] at hlookup
    split at hlookup
    · cases hlookup
    · exact h.files path receipt hlookup

/-- What every step keeps, whatever the provider answers. -/
theorem Consistent.step (h : Consistent issues w) (hs : w.step e = some w') :
    ∃ issues' : String → Option LeaseIssue,
      (∀ id issue, issues id = some issue → issues' id = some issue) ∧ Consistent issues' w' := by
  have hplace := h.place
  have hsame : ∀ id issue, issues id = some issue → issues id = some issue := fun _ _ h => h
  have hissued : ∀ {id' : String}, ∀ id, issues id ≠ none → id ∈ id' :: w.issued :=
    fun id hid => List.mem_cons_of_mem _ (h.issued id hid)
  cases takes_of_step hs with
  | fails free unused checks =>
    have hnone : DescribedActions issues [] := by
      intro _ _ hmem
      cases hmem
    exact ⟨issues, hsame, h.files, hnone, h.sent, hissued⟩
  | starts free unused checks =>
    obtain ⟨issues', hmono, hissued, hstarted⟩ := h.start unused checks
    exact ⟨issues', hmono, fun path receipt hlookup => (h.files path receipt hlookup).mono hmono,
      hstarted, fun p hp => (h.sent p hp).mono hmono, hissued⟩
  | @prepares call path receipt a writes request hpreparing =>
    rw [hpreparing] at hplace
    obtain ⟨hreceipt, hwrites, hrequest⟩ := hplace
    have ha : ∀ path receipt, a = .write path receipt → Described issues receipt :=
      fun path receipt heq => hwrites path receipt (heq ▸ List.mem_cons_self)
    exact ⟨issues, hsame, fun _ _ hlookup => h.perform ha hlookup,
      ⟨hreceipt, fun path receipt hmem => hwrites path receipt (List.mem_cons_of_mem _ hmem),
        hrequest⟩, h.sent, h.issued⟩
  | @settles call request a actions result hfinishing =>
    rw [hfinishing] at hplace
    have ha : ∀ path receipt, a = .write path receipt → Described issues receipt :=
      fun path receipt heq => hplace path receipt (heq ▸ List.mem_cons_self)
    exact ⟨issues, hsame, fun _ _ hlookup => h.perform ha hlookup,
      fun path receipt hmem => hplace path receipt (List.mem_cons_of_mem _ hmem), h.sent,
      h.issued⟩
  | sends hpreparing =>
    rw [hpreparing] at hplace
    refine ⟨issues, hsame, h.files, hplace.1, ?_, h.issued⟩
    intro p hp
    rcases List.mem_cons.mp hp with rfl | hp
    · exact hplace.2.2
    · exact h.sent p hp
  | executes sent => exact ⟨issues, hsame, h.files, h.place, h.sent, h.issued⟩
  | @receives call start now answer hawaiting =>
    rw [hawaiting] at hplace
    exact ⟨issues, hsame, h.files, describedActions_answered hplace now answer, h.sent, h.issued⟩
  | returns hfinishing => exact ⟨issues, hsame, h.files, trivial, h.sent, h.issued⟩
  | crashes => exact ⟨issues, hsame, h.files, trivial, h.sent, h.issued⟩

/-- Two requests with one ID have one body exactly when they do not differ in a default that
they take. -/
theorem body_eq_iff {call call' : NamedLeaseCall} {request request' : LeaseRequest}
    (h : DescribedRequest issues call request) (h' : DescribedRequest issues call' request')
    (hid : request.body.requestId = request'.body.requestId) :
    request.body = request'.body ↔ (call'.takesDefault = true →
      call.project.policy.defaultTtlSeconds = call'.project.policy.defaultTtlSeconds) := by
  obtain ⟨issue, hissue, hfits, hbody⟩ := h
  obtain ⟨issue', hissue', hfits', hbody'⟩ := h'
  rw [hid, hissue'] at hissue
  obtain rfl := Option.some.inj hissue
  rw [hbody, hbody', hid]
  cases issue' with
  | acquire secret resource holder ttl =>
    refine ⟨fun _ htakes => ?_, fun _ => rfl⟩
    cases call' with
    | acquire => cases htakes
    | mutate => exact hfits'.elim
  | mutate secret operation ttlSeconds =>
    cases call' with
    | acquire => exact hfits'.elim
    | mutate project leaseId holderId operation' ttlSeconds' =>
      obtain ⟨rfl, rfl⟩ := hfits'
      cases operation with
      | release =>
        refine ⟨fun _ htakes => ?_, fun _ => rfl⟩
        cases htakes
      | renew =>
        cases ttlSeconds with
        | some ttl =>
          refine ⟨fun _ htakes => ?_, fun _ => rfl⟩
          cases htakes
        | none =>
          constructor
          · intro hsame _
            have httl := congrArg LeaseBody.ttlSeconds hsame
            exact Option.some.inj httl
          · intro hdefault
            simp only [LeaseIssue.body, ↓reduceIte, Option.getD_none, hdefault rfl]

theorem consistent_initial : Consistent (fun _ => none) initial where
  files path receipt h := by cases h
  place := trivial
  sent p hp := by cases hp
  issued id h := absurd rfl h

/-- In every run, whatever the provider answers and advertises and wherever calls are cut
off: all requests with one ID have carried one body exactly when each renewal without a TTL
that is sent again meets the default of the times before. -/
theorem bodies_agree_iff (es : List LeasesEvent) :
    Runs.Steps LeasesWorld.step KeepsDefault initial es ↔
      ∀ done rest u, es = done ++ rest → Runs.run LeasesWorld.step initial done = some u →
        u.SameBodies := by
  have hinv : ∀ (s : LeasesWorld) e t, ((∃ issues, Consistent issues s) ∧ s.SameBodies) →
      s.KeepsDefault e → s.step e = some t → (∃ issues, Consistent issues t) ∧ t.SameBodies := by
    rintro s e t ⟨⟨issues, h⟩, hbodies⟩ hok hs
    obtain ⟨issues', hmono, h'⟩ := h.step hs
    refine ⟨⟨issues', h'⟩, ?_⟩
    by_cases hsent : t.sent = s.sent
    · unfold SameBodies
      rw [hsent]
      exact hbodies
    · -- only `send` adds a request
      cases e with
      | send =>
        simp only [LeasesWorld.step] at hs
        split at hs
        · next call path receipt request hpreparing =>
          obtain rfl := Option.some.inj hs
          simp only [KeepsDefault, hpreparing] at hok
          have hnew := h'.sent (call, request) List.mem_cons_self
          have hagrees : ∀ p ∈ s.sent, p.2.body.requestId = request.body.requestId →
              p.2.body = request.body := by
            intro p hp hid
            have hold := h'.sent p (List.mem_cons_of_mem _ hp)
            exact (body_eq_iff hold hnew hid).mpr fun htakes => hok htakes p hp hid
          intro p hp q hq hid
          rcases List.mem_cons.mp hp with rfl | hp
          · rcases List.mem_cons.mp hq with rfl | hq
            · rfl
            · exact (hagrees q hq hid.symm).symm
          · rcases List.mem_cons.mp hq with rfl | hq
            · exact hagrees p hp hid
            · exact hbodies p hp q hq hid
        · cases hs
      | _ =>
        exfalso
        apply hsent
        simp only [LeasesWorld.step] at hs
        split at hs
        all_goals first
          | (obtain rfl := Option.some.inj hs; rfl)
          | cases hs
  have hback : ∀ (s : LeasesWorld) e, ((∃ issues, Consistent issues s) ∧ s.SameBodies) →
      (∀ t, s.step e = some t → t.SameBodies) → s.KeepsDefault e := by
    rintro s e ⟨⟨issues, h⟩, -⟩ hnext
    cases e with
    | send =>
      simp only [KeepsDefault]
      split
      · next call path receipt request hpreparing =>
        intro htakes p hp hid
        have hplace := h.place
        rw [hpreparing] at hplace
        have hsent : s.step .send = some { s with
            sent := (call, request) :: s.sent
            place := .awaiting call ⟨path, receipt, [], request⟩ } := by
          simp only [LeasesWorld.step, hpreparing]
        have hsame := hnext _ hsent p (List.mem_cons_of_mem _ hp) (call, request)
          List.mem_cons_self hid
        exact (body_eq_iff (h.sent p hp) hplace.2.2 hid).mp hsame htakes
      · trivial
    | _ => trivial
  exact Runs.steps_iff_forall_reached hinv (fun s h => h.2) hback
    ⟨⟨_, consistent_initial⟩, fun p hp => by cases hp⟩

end Steps

section OneRenewal

/-- The lease is acquired, and a renewal without a TTL is sent; its answer is lost. -/
def losesRenewal : List LeasesEvent :=
  [.call acquireOne (oneFresh "req_0"), .act, .send, .receive 1000 (some oneGrant), .act, .act,
    .finish 1000, .call (.renew oneProject "nls_a" "worker" none) (oneFresh "req_1"), .act, .send,
    .receive 2000 none, .finish 2000]

/-- The provider advertises another default when it is repeated. -/
def repeatsRenewal : List LeasesEvent :=
  losesRenewal ++
    [.call (.renew { oneProject with policy := ⟨600, 30, 3600⟩ } "nls_a" "worker" none)
      (oneFresh "req_2"), .act, .send]

theorem renewal_changes_body : ∃ u, Runs.run step initial repeatsRenewal = some u ∧
    ¬ u.SameBodies := by
  have htest : (Runs.run step initial repeatsRenewal).map (fun u => decide (¬ u.SameBodies)) =
      some true := by
    decide +kernel
  obtain ⟨u, hu, hnot⟩ := Option.map_eq_some_iff.mp htest
  exact ⟨u, hu, of_decide_eq_true hnot⟩

end OneRenewal

end LeasesWorld

end Resync
