import Resync.LeaseRequests

/-! What the checks of an answer say about results and receipts (`named_lease.rs`,
`protocol.rs`), for a provider that may answer anything. An acquisition is checked against
its project and resource, a renewal and a release against their project and lease. -/
namespace Resync

/-- The call that awaits an answer. -/
def LeasePlace.awaited : LeasePlace → Option (NamedLeaseCall × LeaseStart)
  | .awaiting call start => some (call, start)
  | _ => none

/-- The response that an event brings. -/
def LeasesEvent.received : LeasesEvent → Option NamedLeaseMutationResponse
  | .receive _ answer => answer.bind (·.body)
  | _ => none

namespace LeasesWorld

/-- What is asked of the leases of active receipts, of a renewed lease beside the one before,
and of results. -/
structure Standard where
  lease : (resourceKey holderId : String) → NamedLease → Prop
  renewal : NamedLease → NamedLease → Prop
  result : NamedLeaseCall → Option LeaseRequest →
    Except LeaseError NamedLeaseMutationResponse → Prop
  keeps : ∀ {resourceKey holderId old new}, lease resourceKey holderId old → renewal old new →
    lease resourceKey holderId new
  error : ∀ call request e, result call request (.error e)

/-- The lease of a result is the one that was asked for, as far as it is checked. -/
def ResultChecked (call : NamedLeaseCall)
    (result : Except LeaseError NamedLeaseMutationResponse) : Prop :=
  match call, result with
  | _, .error _ => True
  | .acquire project resourceKey .., .ok response => response.outcome = .acquired ∧
    ∃ lease, response.lease = some lease ∧ lease.Proper project.projectId ∧
      lease.resourceKey = resourceKey
  | .mutate project leaseId .., .ok response =>
    (response.outcome = .renewed ∨ response.outcome = .released) ∧
    ∃ lease, response.lease = some lease ∧ lease.Proper project.projectId ∧
      lease.leaseId = leaseId

/-- What the checks leave open: the holder, and which of the two outcomes belongs to which
operation. -/
def ResultExact (call : NamedLeaseCall) (request : Option LeaseRequest)
    (result : Except LeaseError NamedLeaseMutationResponse) : Prop :=
  match call, result with
  | _, .error _ => True
  | .acquire .., .ok response => ∀ lease ∈ response.lease, ∀ q ∈ request,
    q.body.holderId = some lease.holderId
  | .mutate _ _ _ operation _, .ok response =>
    response.outcome = if operation = .renew then .renewed else .released

/-- Nothing beyond the checks. -/
def checked : Standard where
  lease _ _ _ := True
  renewal _ _ := True
  result call _ result := ResultChecked call result
  keeps _ _ := trivial
  error call _ _ := by cases call <;> trivial

/-- The receipt's resource and holder, and the generation of the acquisition. -/
def exactly : Standard where
  lease resourceKey holderId lease :=
    lease.resourceKey = resourceKey ∧ lease.holderId = holderId
  renewal old new := new.resourceKey = old.resourceKey ∧ new.holderId = old.holderId ∧
    new.generation = old.generation
  result call request result := ResultChecked call result ∧ ResultExact call request result
  keeps hold hnew := ⟨hnew.1.trans hold.1, hnew.2.1.trans hold.2⟩
  error call _ _ := by cases call <;> exact ⟨trivial, trivial⟩

section Standards

variable (S : Standard)

/-- What an active receipt says of its lease. -/
def Stored (path : ReceiptPath) (receipt : NamedLeaseReceipt) : Prop :=
  ∀ leaseId digest, path.file = .active leaseId digest →
    ∃ lease, receipt.lease = some lease ∧ lease.leaseId = leaseId ∧
      lease.Proper receipt.projectId ∧ S.lease receipt.resourceKey receipt.holderId lease

/-- At most one action is left, and a renewal writes over the lease that it has renewed. -/
def RenewsLease (files : Receipts) (actions : List ReceiptAction) : Prop :=
  ∀ a rest, actions = a :: rest → rest = [] ∧ ∀ path receipt, a = .write path receipt →
    ∃ old lease new, files.lookup path = some old ∧ old.lease = some lease ∧
      receipt.lease = some new ∧ S.renewal lease new

/-- What a run has shown so far. -/
structure Meets (w : LeasesWorld) : Prop where
  store : ∀ path receipt, w.files.lookup path = some receipt → Stored S path receipt
  place : match w.place with
    | .finishing (.mutate ..) _ rest => RenewsLease S w.files rest.actions
    | .returned call request _ result => S.result call request result
    | _ => True

/-- What a call knows of the receipt that it goes by. -/
def Bears (start : LeaseStart) : NamedLeaseCall → Prop
  | .acquire project resourceKey .. => start.receipt.projectId = project.projectId ∧
    start.receipt.resourceKey = resourceKey ∧
    start.request.body.holderId = some start.receipt.holderId
  | .mutate project leaseId .. => start.receipt.projectId = project.projectId ∧
    ∃ lease digest, start.path.file = .active leaseId digest ∧ start.receipt.lease = some lease ∧
      lease.leaseId = leaseId ∧ lease.Proper project.projectId

def BearsPlace (w : LeasesWorld) : Prop :=
  match w.place with
  | .idle | .returned .. => True
  | .preparing call start => Bears start call ∧
    (∀ path receipt, .write path receipt ∈ start.writes → Stored S path receipt) ∧
    (start.writes.foldl ReceiptAction.perform w.files).lookup start.path = some start.receipt
  | .awaiting call start => Bears start call ∧ w.files.lookup start.path = some start.receipt
  | .finishing call request rest =>
    (∀ path receipt, .write path receipt ∈ rest.actions → Stored S path receipt) ∧
      S.result call request rest.result

/-- The answer that comes meets the standard where the checks leave it open. -/
def Answers (w : LeasesWorld) : LeasesEvent → Prop
  | .receive now answer =>
    match w.place with
    | .awaiting call start =>
      S.result call (some start.request) (call.answered start.path start.receipt now answer).result ∧
        ∀ response ∈ answer.bind (·.body), ∀ lease ∈ response.lease,
          match call with
          | .acquire _ resourceKey .. => response.outcome = .acquired →
            lease.resourceKey = resourceKey →
            S.lease start.receipt.resourceKey start.receipt.holderId lease
          | .mutate .. => response.outcome = .renewed →
            ∀ old ∈ start.receipt.lease, S.renewal old lease
    | _ => True
  | _ => True

end Standards

/-- A response to a call tells what the call was for. -/
def EchoesCall (start : LeaseStart) (response : NamedLeaseMutationResponse) :
    NamedLeaseCall → Prop
  | .acquire .. => response.outcome = .acquired →
    ∀ lease ∈ response.lease, start.request.body.holderId = some lease.holderId
  | .mutate _ _ _ operation _ => (response.outcome = .released → operation = .release) ∧
    (response.outcome = .renewed → operation = .renew ∧
      ∀ lease ∈ response.lease, ∀ old ∈ start.receipt.lease, lease.resourceKey = old.resourceKey ∧
        lease.holderId = old.holderId ∧ lease.generation = old.generation)

/-- The provider answers a renewal and a release with their own outcome, and tells the
resource, the holder and the generation of a lease as they are. -/
def Echoes (w : LeasesWorld) (e : LeasesEvent) : Prop :=
  ∀ p ∈ w.place.awaited, ∀ response ∈ e.received, EchoesCall p.2 response p.1

section Steps

variable {S : Standard} {w w' : LeasesWorld} {e : LeasesEvent} {es : List LeasesEvent}

/-- The invariant. -/
structure Judged (S : Standard) (w : LeasesWorld) : Prop where
  meets : Meets S w
  place : BearsPlace S w

theorem stored_pending {path : ReceiptPath} (h : path.file.isPending = true)
    (receipt : NamedLeaseReceipt) : Stored S path receipt := by
  intro leaseId digest hfile
  rw [hfile] at h
  cases h

theorem judged_initial : Judged S initial where
  meets := by
    refine ⟨?_, trivial⟩
    intro path receipt h
    cases h
  place := trivial

/-- The receipts after a write or a removal. -/
theorem stored_perform (h : ∀ path receipt, w.files.lookup path = some receipt →
      Stored S path receipt) {a : ReceiptAction}
    (ha : ∀ path receipt, a = .write path receipt → Stored S path receipt)
    {path : ReceiptPath} {receipt : NamedLeaseReceipt}
    (hlookup : (a.perform w.files).lookup path = some receipt) : Stored S path receipt := by
  cases a with
  | write target new =>
    rw [lookup_write] at hlookup
    split at hlookup
    · next hpath =>
      obtain rfl := Option.some.inj hlookup
      exact hpath ▸ ha target new rfl
    · exact h path receipt hlookup
  | remove target =>
    rw [lookup_remove] at hlookup
    split at hlookup
    · cases hlookup
    · exact h path receipt hlookup

/-- A call that has passed its checks. -/
theorem Judged.start (h : Judged S w) {call : NamedLeaseCall} {fresh : FreshReceipt}
    {start : LeaseStart} (hstart : call.start w.files fresh = .ok start) :
    Bears start call ∧
      (∀ path receipt, .write path receipt ∈ start.writes → Stored S path receipt) ∧
      (start.writes.foldl ReceiptAction.perform w.files).lookup start.path =
        some start.receipt := by
  cases call with
  | acquire project resourceKey holderId ttlSeconds =>
    rcases acquire_cases hstart with ⟨path, receipt, hfound, rfl⟩ | ⟨receipt, -, hnew, rfl⟩
    · obtain ⟨hlookup, hmatches⟩ := findPendingReceipt_some hfound
      simp only [matchesPending, Bool.and_eq_true, decide_eq_true_eq] at hmatches
      obtain ⟨⟨⟨-, hproject⟩, hresource⟩, -⟩ := hmatches
      refine ⟨⟨hproject, hresource, rfl⟩, ?_, hlookup⟩
      intro _ _ hmem
      cases hmem
    · refine ⟨⟨?_, ?_, rfl⟩, ?_, AList.lookup_insert _⟩
      · rw [hnew]
        rfl
      · rw [hnew]
        rfl
      · intro path written hmem
        obtain ⟨rfl, -⟩ := ReceiptAction.write.inj (List.mem_singleton.mp hmem)
        exact stored_pending rfl written
  | mutate project leaseId holderId operation ttlSeconds =>
    obtain ⟨receipt, lease, request, hlookup, hbound, -, rfl⟩ := mutateActiveReceipt_cases hstart
    refine ⟨⟨hbound.projectId, lease, _, rfl, hbound.held, hbound.leaseId, hbound.proper⟩, ?_,
      AList.lookup_insert _⟩
    intro path written hmem
    obtain ⟨rfl, rfl⟩ := ReceiptAction.write.inj (List.mem_singleton.mp hmem)
    exact h.meets.store _ receipt hlookup

/-- What is left to do after an answer. -/
theorem Judged.receive (h : Judged S w) {now : ℤ} {answer : Option LeaseAnswer}
    {call : NamedLeaseCall} {start : LeaseStart} (hawaiting : w.place = .awaiting call start)
    (hok : Answers S w (.receive now answer)) :
    (∀ path receipt,
      .write path receipt ∈ (call.answered start.path start.receipt now answer).actions →
        Stored S path receipt) ∧
    match call with
    | .acquire .. => True
    | .mutate project leaseId .. => RenewsLease S w.files
      (mutateAnswered project leaseId start.path start.receipt now answer).actions := by
  have hplace := h.place
  simp only [BearsPlace, hawaiting] at hplace
  simp only [Answers, hawaiting] at hok
  obtain ⟨hbears, hlookup⟩ := hplace
  obtain ⟨-, hleases⟩ := hok
  cases call with
  | acquire project resourceKey holderId ttlSeconds =>
    obtain ⟨hproject, hresource, -⟩ := hbears
    refine ⟨?_, trivial⟩
    intro path written hmem
    obtain ⟨rest, hrest⟩ : ∃ rest, acquireAnswered project resourceKey start.path start.receipt
        now answer = rest := ⟨_, rfl⟩
    have hends : AcquireEnds project resourceKey start.path start.receipt now answer rest :=
      hrest ▸ acquireAnswered_cases
    simp only [NamedLeaseCall.answered, hrest] at hmem
    cases hends with
    | failed => cases hmem
    | refused => cases List.mem_singleton.mp hmem
    | @granted status response lease hsome hacquired hlease hproper hsame =>
      rcases List.mem_cons.mp hmem with heq | hmem
      · obtain ⟨rfl, rfl⟩ := ReceiptAction.write.inj heq
        intro leaseId digest hfile
        obtain ⟨rfl, -⟩ := ReceiptFile.active.inj hfile
        refine ⟨lease, rfl, rfl, ?_, hleases response ?_ lease hlease hacquired hsame⟩
        · rw [hproject]
          exact hproper
        · rw [hsome]
          rfl
      · cases List.mem_singleton.mp hmem
  | mutate project leaseId holderId operation ttlSeconds =>
    obtain ⟨hproject, old, digest, hfile, hold, hid, -⟩ := hbears
    obtain ⟨rest, hrest⟩ : ∃ rest, mutateAnswered project leaseId start.path start.receipt
        now answer = rest := ⟨_, rfl⟩
    have hends : MutateEnds project leaseId start.path start.receipt now answer rest :=
      hrest ▸ mutateAnswered_cases
    simp only [NamedLeaseCall.answered, hrest]
    cases hends with
    | failed =>
      refine ⟨fun _ _ hmem => ?_, fun _ _ heq => ?_⟩
      · cases hmem
      · cases heq
    | @renewed status response lease hsome hrenewed hlease hproper hleaseId =>
      have hmeets : S.renewal old lease := by
        refine hleases response ?_ lease hlease hrenewed old hold
        rw [hsome]
        rfl
      constructor
      · intro path written hmem
        obtain ⟨rfl, rfl⟩ := ReceiptAction.write.inj (List.mem_singleton.mp hmem)
        intro id digest' hfile'
        obtain ⟨rfl, -⟩ := ReceiptFile.active.inj (hfile.symm.trans hfile')
        -- the lease before has met the standard
        obtain ⟨known, hknown, -, -, hstandard⟩ := h.meets.store _ _ hlookup _ _ hfile
        obtain rfl := Option.some.inj (hold.symm.trans hknown)
        refine ⟨lease, rfl, hleaseId, ?_, S.keeps hstandard hmeets⟩
        rw [hproject]
        exact hproper
      · intro a others heq
        obtain ⟨rfl, rfl⟩ := List.cons.inj heq
        refine ⟨rfl, fun path written hwrite => ?_⟩
        obtain ⟨rfl, rfl⟩ := ReceiptAction.write.inj hwrite
        exact ⟨start.receipt, old, lease, hlookup, hold, rfl, hmeets⟩
    | _ =>
      refine ⟨fun _ _ hmem => ?_, fun a others heq => ?_⟩
      · cases List.mem_singleton.mp hmem
      · obtain ⟨rfl, rfl⟩ := List.cons.inj heq
        refine ⟨rfl, fun _ _ hwrite => ?_⟩
        cases hwrite

/-- What a step keeps where the answer meets the standard. -/
theorem Judged.step (h : Judged S w) (hok : Answers S w e) (hs : w.step e = some w') :
    Judged S w' := by
  have hplace := h.place
  have hmeets := h.meets.place
  unfold BearsPlace at hplace
  have hperform : ∀ {a : ReceiptAction} {rest : List ReceiptAction},
      (∀ path receipt, .write path receipt ∈ a :: rest → Stored S path receipt) →
        ∀ path receipt, (a.perform w.files).lookup path = some receipt → Stored S path receipt :=
    fun hwrites path receipt hlookup => stored_perform h.meets.store
      (fun path receipt heq => hwrites path receipt (heq ▸ List.mem_cons_self)) hlookup
  cases takes_of_step hs with
  | @fails call fresh error free unused checks =>
    have hnothing : ∀ path receipt, .write path receipt ∈ ([] : List ReceiptAction) →
        Stored S path receipt := by
      intro path receipt hmem
      cases hmem
    refine ⟨⟨h.meets.store, ?_⟩, hnothing, S.error call none error⟩
    cases call with
    | acquire => trivial
    | mutate =>
      intro a rest heq
      cases heq
  | starts free unused checks => exact ⟨⟨h.meets.store, trivial⟩, h.start checks⟩
  | @prepares call path receipt a writes request hpreparing =>
    rw [hpreparing] at hplace
    obtain ⟨hbears, hwrites, hlookup⟩ := hplace
    refine ⟨⟨hperform hwrites, trivial⟩, ?_, ?_, hlookup⟩
    · cases call with
      | acquire => exact hbears
      | mutate => exact hbears
    · intro p r hmem
      exact hwrites p r (List.mem_cons_of_mem _ hmem)
  | @settles call request a actions result hfinishing =>
    rw [hfinishing] at hplace hmeets
    obtain ⟨hwrites, hresult⟩ := hplace
    refine ⟨⟨hperform hwrites, ?_⟩, ?_, hresult⟩
    · cases call with
      | acquire => trivial
      | mutate =>
        -- nothing is left after the one action
        obtain ⟨rfl, -⟩ := hmeets a actions rfl
        intro b rest heq
        cases heq
    · intro p r hmem
      exact hwrites p r (List.mem_cons_of_mem _ hmem)
  | sends hpreparing =>
    rw [hpreparing] at hplace
    exact ⟨⟨h.meets.store, trivial⟩, hplace.1, hplace.2.2⟩
  | executes sent => exact ⟨⟨h.meets.store, h.meets.place⟩, h.place⟩
  | @receives call start now answer hawaiting =>
    obtain ⟨hwrites, hrenews⟩ := h.receive hawaiting hok
    simp only [Answers, hawaiting] at hok
    refine ⟨⟨h.meets.store, ?_⟩, hwrites, hok.1⟩
    cases call with
    | acquire => trivial
    | mutate => exact hrenews
  | returns hfinishing =>
    rw [hfinishing] at hplace
    exact ⟨⟨h.meets.store, hplace.2⟩, trivial⟩
  | crashes => exact ⟨⟨h.meets.store, trivial⟩, trivial⟩

/-- The checks before a result. -/
theorem resultChecked_answered (call : NamedLeaseCall) (path : ReceiptPath)
    (receipt : NamedLeaseReceipt) (now : ℤ) (answer : Option LeaseAnswer) :
    ResultChecked call (call.answered path receipt now answer).result := by
  cases call with
  | acquire project resourceKey holderId ttlSeconds =>
    obtain ⟨rest, hrest⟩ :
        ∃ rest, acquireAnswered project resourceKey path receipt now answer = rest := ⟨_, rfl⟩
    have hends : AcquireEnds project resourceKey path receipt now answer rest :=
      hrest ▸ acquireAnswered_cases
    simp only [NamedLeaseCall.answered, hrest]
    cases hends with
    | failed => trivial
    | refused => trivial
    | granted hsome hacquired hlease hproper hresource =>
      exact ⟨hacquired, _, hlease, hproper, hresource⟩
  | mutate project leaseId holderId operation ttlSeconds =>
    obtain ⟨rest, hrest⟩ :
        ∃ rest, mutateAnswered project leaseId path receipt now answer = rest := ⟨_, rfl⟩
    have hends : MutateEnds project leaseId path receipt now answer rest :=
      hrest ▸ mutateAnswered_cases
    simp only [NamedLeaseCall.answered, hrest]
    cases hends with
    | failed => trivial
    | lost => trivial
    | other => trivial
    | renewed hsome hrenewed hlease hproper hid =>
      exact ⟨Or.inl hrenewed, _, hlease, hproper, hid⟩
    | released hsome hreleased hlease hproper hid =>
      exact ⟨Or.inr hreleased, _, hlease, hproper, hid⟩

theorem answers_checked (w : LeasesWorld) (e : LeasesEvent) : Answers checked w e := by
  cases e with
  | receive now answer =>
    unfold Answers
    dsimp only
    split
    · next call start hawaiting =>
      refine ⟨resultChecked_answered .., ?_⟩
      intro response _ lease _
      cases call with
      | acquire => exact fun _ _ => trivial
      | mutate => exact fun _ _ _ => trivial
    · trivial
  | _ => trivial

instance (start : LeaseStart) (response : NamedLeaseMutationResponse) (call : NamedLeaseCall) :
    Decidable (EchoesCall start response call) := by
  unfold EchoesCall
  split
  · infer_instance
  · infer_instance

instance (w : LeasesWorld) (e : LeasesEvent) : Decidable (w.Echoes e) :=
  inferInstanceAs (Decidable (∀ p ∈ w.place.awaited, ∀ response ∈ e.received,
    EchoesCall p.2 response p.1))

theorem echoes_awaiting {call : NamedLeaseCall} {start : LeaseStart} {now : ℤ}
    {answer : Option LeaseAnswer} (hawaiting : w.place = .awaiting call start)
    (hok : w.Echoes (.receive now answer)) {status : ℕ} {response : NamedLeaseMutationResponse}
    (hsome : answer = some ⟨status, some response⟩) : EchoesCall start response call := by
  have hawaited : w.place.awaited = some (call, start) := by
    rw [hawaiting]
    rfl
  have hreceived : (LeasesEvent.receive now answer).received = some response := by
    rw [hsome]
    rfl
  exact hok _ hawaited response hreceived

/-- A result is exact where the provider echoes. -/
theorem resultExact_answered {call : NamedLeaseCall} {start : LeaseStart} {now : ℤ}
    {answer : Option LeaseAnswer} (hawaiting : w.place = .awaiting call start)
    (hok : w.Echoes (.receive now answer)) :
    ResultExact call (some start.request)
      (call.answered start.path start.receipt now answer).result := by
  cases call with
  | acquire project resourceKey holderId ttlSeconds =>
    obtain ⟨rest, hrest⟩ : ∃ rest, acquireAnswered project resourceKey start.path start.receipt
        now answer = rest := ⟨_, rfl⟩
    have hends : AcquireEnds project resourceKey start.path start.receipt now answer rest :=
      hrest ▸ acquireAnswered_cases
    simp only [NamedLeaseCall.answered, hrest]
    cases hends with
    | failed => trivial
    | refused => trivial
    | granted hsome hacquired hlease hproper hresource =>
      have hechoes := echoes_awaiting hawaiting hok hsome
      intro lease hmem q hq
      obtain rfl := Option.some.inj hq
      exact hechoes hacquired lease hmem
  | mutate project leaseId holderId operation ttlSeconds =>
    obtain ⟨rest, hrest⟩ : ∃ rest, mutateAnswered project leaseId start.path start.receipt
        now answer = rest := ⟨_, rfl⟩
    have hends : MutateEnds project leaseId start.path start.receipt now answer rest :=
      hrest ▸ mutateAnswered_cases
    simp only [NamedLeaseCall.answered, hrest]
    cases hends with
    | failed => trivial
    | lost => trivial
    | other => trivial
    | @renewed status response lease hsome hrenewed hlease hproper hid =>
      have hrenew := ((echoes_awaiting hawaiting hok hsome).2 hrenewed).1
      show response.outcome = if operation = .renew then .renewed else .released
      rw [if_pos hrenew, hrenewed]
    | @released status response lease hsome hreleased hlease hproper hid =>
      have hrelease := (echoes_awaiting hawaiting hok hsome).1 hreleased
      show response.outcome = if operation = .renew then .renewed else .released
      rw [hrelease, hreleased]
      rfl

theorem answers_exactly (h : Judged exactly w) (hok : w.Echoes e) : Answers exactly w e := by
  cases e with
  | receive now answer =>
    unfold Answers
    dsimp only
    split
    · next call start hawaiting =>
      refine ⟨⟨resultChecked_answered .., resultExact_answered hawaiting hok⟩, ?_⟩
      intro response hresponse lease hlease
      have hawaited : w.place.awaited = some (call, start) := by
        rw [hawaiting]
        rfl
      have hechoes : EchoesCall start response call := hok _ hawaited response hresponse
      have hplace := h.place
      simp only [BearsPlace, hawaiting] at hplace
      cases call with
      | acquire project resourceKey holderId ttlSeconds =>
        intro hacquired hsame
        have hholder := hechoes hacquired lease hlease
        obtain ⟨⟨-, hresource, hrequest⟩, -⟩ := hplace
        exact ⟨hsame.trans hresource.symm, (Option.some.inj (hrequest.symm.trans hholder)).symm⟩
      | mutate project leaseId holderId operation ttlSeconds =>
        intro hrenewed old hold
        exact (hechoes.2 hrenewed).2 lease hlease old hold
    · trivial
  | _ => trivial

/-- For every provider, in every run: an acquisition succeeds only with `ACQUIRED` and a lease
of its project and resource, a renewal or a release only with `RENEWED` or `RELEASED` and the
lease that it names; and each active receipt has a lease of its project, under the ID in its
file name, with a positive generation and a lifetime. Where the provider echoes the rest, the
rest holds as well. -/
theorem leases_are_checked (hrun : Runs.run LeasesWorld.step initial es = some w) :
    Meets checked w ∧ (Runs.Steps LeasesWorld.step Echoes initial es → Meets exactly w) := by
  have hstep : ∀ (s : LeasesWorld) e t, Judged checked s → True → s.step e = some t →
      Judged checked t := fun s e t h _ hs => h.step (answers_checked s e) hs
  have hstep' : ∀ (s : LeasesWorld) e t, Judged exactly s → s.Echoes e → s.step e = some t →
      Judged exactly t := fun s e t h hok hs => h.step (answers_exactly h hok) hs
  have hall : Runs.Steps LeasesWorld.step (fun _ _ => True) initial es :=
    Runs.Steps.of_forall (fun _ _ _ => trivial) initial
  constructor
  · exact (Runs.run_invariant hstep judged_initial hall hrun).meets
  · intro hok
    exact (Runs.run_invariant hstep' judged_initial hok hrun).meets

end Steps

section OneLease

/-- An acquisition with this answer. -/
def acquiresWith (answer : LeaseAnswer) : List LeasesEvent :=
  [.call acquireOne (oneFresh "req_0"), .act, .send, .receive 1000 (some answer), .act, .act,
    .finish 1000]

/-- A renewal or a release of the lease, with this answer. -/
def mutatesWith (operation : LeaseOperation) (response : NamedLeaseMutationResponse) :
    List LeasesEvent :=
  acquiresWith oneGrant ++
    [.call (.mutate oneProject "nls_a" "worker" operation none) (oneFresh "req_1"), .act, .send,
      .receive 2000 (some ⟨200, some response⟩)]

theorem leases_are_checked_one : ∃ u,
    Runs.run step initial (mutatesWith .renew ⟨.renewed, some oneLease⟩) = some u ∧
    Meets exactly u := by
  have hok : Runs.Steps step Echoes initial (mutatesWith .renew ⟨.renewed, some oneLease⟩) := by
    decide +kernel
  have hsome : (Runs.run step initial (mutatesWith .renew ⟨.renewed, some oneLease⟩)).isSome =
      true := by
    decide +kernel
  obtain ⟨u, hu⟩ := Option.isSome_iff_exists.mp hsome
  exact ⟨u, hu, (leases_are_checked hu).2 hok⟩

/-- A result whose holder or whose outcome is not the one that was asked for. -/
def returnsOther (w : LeasesWorld) : Bool :=
  match w.place with
  | .returned (.acquire ..) (some q) _ (.ok response) =>
    response.lease.any fun lease => q.body.holderId ≠ some lease.holderId
  | .returned (.mutate _ _ _ operation _) _ _ (.ok response) =>
    decide (response.outcome ≠ if operation = .renew then .renewed else .released)
  | _ => false

def onePath : ReceiptPath :=
  receiptPath oneProject.providerOrigin oneProject.projectId (activeReceiptFile "nls_a" "worker")

/-- The receipt's lease is of another resource, another holder and another generation. -/
def storesOther (w : LeasesWorld) : Bool :=
  (w.files.lookup onePath).any fun receipt => receipt.lease.any fun lease =>
    lease.resourceKey ≠ receipt.resourceKey && lease.holderId ≠ receipt.holderId &&
      lease.generation ≠ oneLease.generation

theorem not_meets_of_returnsOther {w : LeasesWorld} (h : w.returnsOther = true) :
    ¬ Meets exactly w := by
  intro hmeets
  have hplace := hmeets.place
  unfold returnsOther at h
  split at h
  · next q now response hreturned =>
    rw [hreturned] at hplace
    obtain ⟨lease, hlease, hne⟩ := Option.any_eq_true .. |>.mp h
    exact of_decide_eq_true hne (hplace.2 lease hlease q rfl)
  · next hreturned =>
    rw [hreturned] at hplace
    exact of_decide_eq_true h hplace.2
  · cases h

theorem not_meets_of_storesOther {w : LeasesWorld} (h : w.storesOther = true) :
    ¬ Meets exactly w := by
  intro hmeets
  obtain ⟨receipt, hlookup, h⟩ := Option.any_eq_true .. |>.mp h
  obtain ⟨lease, hlease, h⟩ := Option.any_eq_true .. |>.mp h
  obtain ⟨known, hknown, -, -, hresource, -⟩ := hmeets.store onePath receipt hlookup _ _ rfl
  obtain rfl := Option.some.inj (hlease.symm.trans hknown)
  simp only [Bool.and_eq_true, decide_eq_true_eq] at h
  exact h.1.1 hresource

/-- The lease of another acquisition. -/
def otherLease : NamedLease :=
  { oneLease with resourceKey := "maps/b", holderId := "other", generation := 2 }

/-- Four runs: an acquisition takes the lease of another holder, a renewal succeeds with
`RELEASED`, a release with `RENEWED`, and a renewal stores the lease of another resource,
holder and generation. -/
theorem answers_are_trusted :
    (∃ u, Runs.run step initial
        (acquiresWith ⟨201, some ⟨.acquired, some { oneLease with holderId := "other" }⟩⟩) =
          some u ∧ u.returnsOther = true ∧ ¬ Meets exactly u) ∧
    (∃ u, Runs.run step initial
        (mutatesWith .renew ⟨.released, some oneLease⟩ ++ [.act, .finish 2000]) = some u ∧
      u.returnsOther = true ∧ ¬ Meets exactly u) ∧
    (∃ u, Runs.run step initial
        (mutatesWith .release ⟨.renewed, some oneLease⟩ ++ [.act, .finish 2000]) = some u ∧
      u.returnsOther = true ∧ ¬ Meets exactly u) ∧
    ∃ u, Runs.run step initial
        (mutatesWith .renew ⟨.renewed, some otherLease⟩ ++ [.act, .finish 2000]) = some u ∧
      u.storesOther = true ∧ ¬ Meets exactly u := by
  have hreturns : ∀ {es : List LeasesEvent},
      (Runs.run step initial es).map returnsOther = some true →
        ∃ u, Runs.run step initial es = some u ∧ u.returnsOther = true ∧ ¬ Meets exactly u := by
    intro es h
    obtain ⟨u, hu, htest⟩ := Option.map_eq_some_iff.mp h
    exact ⟨u, hu, htest, not_meets_of_returnsOther htest⟩
  refine ⟨hreturns (by decide +kernel), hreturns (by decide +kernel),
    hreturns (by decide +kernel), ?_⟩
  have hstores : (Runs.run step initial
      (mutatesWith .renew ⟨.renewed, some otherLease⟩ ++ [.act, .finish 2000])).map storesOther =
        some true := by
    decide +kernel
  obtain ⟨u, hu, htest⟩ := Option.map_eq_some_iff.mp hstores
  exact ⟨u, hu, htest, not_meets_of_storesOther htest⟩

end OneLease

end LeasesWorld

end Resync
