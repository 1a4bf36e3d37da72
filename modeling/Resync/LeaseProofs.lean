import Resync.NamedLeaseCalls

/-! Where the client keeps the holder secret of a lease (`named_lease.rs`). A receipt file is
only removed once the answer to its request is known, and then the lease has ended, was
never granted, or has its secret in another file. -/
namespace Resync

/-- The lease that an answer grants. -/
def grantOf (answer : LeaseAnswer) : Option NamedLease :=
  answer.body.bind fun response => if response.outcome = .acquired then response.lease else none

theorem grantOf_eq_some {answer : LeaseAnswer} {lease : NamedLease}
    (h : grantOf answer = some lease) : ∃ response, answer.body = some response ∧
      response.outcome = .acquired ∧ response.lease = some lease := by
  obtain ⟨response, hresponse, hlease⟩ := Option.bind_eq_some_iff.mp h
  have hacquired : response.outcome = .acquired := by
    by_contra hne
    rw [if_neg hne] at hlease
    cases hlease
  rw [if_pos hacquired] at hlease
  exact ⟨response, hresponse, hacquired, hlease⟩

namespace LeasesWorld

section Conditions

variable (answers : List (LeaseRequest × LeaseAnswer)) (ended : List (String × String))
  (files : Receipts)

/-- The provider has granted the lease to the request. -/
def Granted (request : LeaseRequest) (lease : NamedLease) : Prop :=
  ∃ answer, (request, answer) ∈ answers ∧ grantOf answer = some lease

/-- What the provider promises when it executes a request that it has not executed before.
Every outcome has its status, and a granted lease has a new ID. -/
def Honest (request : LeaseRequest) (answer : LeaseAnswer) : Prop :=
  (∀ p ∈ answers, p.1 ≠ request) ∧
    ∀ response ∈ answer.body, answer.status = mutationStatus response.outcome ∧
      (response.outcome = .acquired → request.address = .acquire ∧
        ∃ lease ∈ response.lease, ∀ p ∈ answers, ∀ other ∈ grantOf p.2,
          p.1.providerOrigin = request.providerOrigin → other.leaseId ≠ lease.leaseId)

/-- The provider conforms: a request that it has executed gets the first answer again. -/
def Conforming (w : LeasesWorld) : LeasesEvent → Prop
  | .execute request answer => Honest w.answers request answer
  | .receive _ answer =>
    match w.place with
    | .awaiting _ start => ∀ a ∈ answer, (start.request, a) ∈ w.answers
    | _ => True
  | _ => True

/-- The secret of every granted lease that has not been seen to end is on disk. -/
def ProofsKept (w : LeasesWorld) : Prop :=
  ∀ request lease, Granted w.answers request lease →
    (request.providerOrigin, lease.leaseId) ∉ w.ended →
      ∃ path receipt, w.files.lookup path = some receipt ∧
        receipt.holderSecret = request.body.holderSecret

/-- A receipt of the request is on disk. -/
def Held (request : LeaseRequest) : Prop :=
  ∃ path receipt, files.lookup path = some receipt ∧ acquireRequest receipt = request

/-- A receipt is where its fields say, and an active one belongs to a granted lease. -/
def Filed (path : ReceiptPath) (receipt : NamedLeaseReceipt) : Prop :=
  match path.file with
  | .pending _ =>
    path = receiptPath receipt.providerOrigin receipt.projectId (pendingReceiptFile receipt) ∧
      receipt.state = .pending
  | .active leaseId _ =>
    path.origin = hash [receipt.providerOrigin] ∧
      ∃ lease, Granted answers (acquireRequest receipt) lease ∧ lease.leaseId = leaseId

/-- The request has its answer, and the file at `path` is not needed for its lease. -/
def Over (path : ReceiptPath) (request : LeaseRequest) : Prop :=
  (∃ answer, (request, answer) ∈ answers) ∧
    ∀ lease, Granted answers request lease → (request.providerOrigin, lease.leaseId) ∈ ended ∨
      ∃ other receipt, other ≠ path ∧ files.lookup other = some receipt ∧
        acquireRequest receipt = request

def SafeAction : ReceiptAction → Prop
  | .write path receipt => Filed answers path receipt ∧
    ∀ old, files.lookup path = some old → acquireRequest old = acquireRequest receipt
  | .remove path =>
    ∀ old, files.lookup path = some old → Over answers ended files path (acquireRequest old)

/-- Each action is safe when its turn comes. -/
def SafeActions (files : Receipts) : List ReceiptAction → Prop
  | [] => True
  | a :: rest => SafeAction answers ended files a ∧ SafeActions (a.perform files) rest

end Conditions

/-- What a call knows of the receipt that it goes by. -/
def GoesBy (start : LeaseStart) : NamedLeaseCall → Prop
  | .acquire project .. => start.path.file.isPending = true ∧
    start.request = acquireRequest start.receipt ∧
    start.receipt.providerOrigin = project.providerOrigin
  | .mutate project leaseId holderId operation _ =>
    start.path = receiptPath project.providerOrigin project.projectId
      (activeReceiptFile leaseId holderId) ∧
    start.request.address = .lease leaseId operation ∧
    start.request.providerOrigin = project.providerOrigin

/-- What holds where the client stands. -/
def PlaceKept (w : LeasesWorld) : Prop :=
  match w.place with
  | .idle | .returned .. => True
  | .preparing call start => GoesBy start call ∧
    SafeActions w.answers w.ended w.files start.writes ∧
    (start.writes.foldl ReceiptAction.perform w.files).lookup start.path = some start.receipt
  | .awaiting call start => GoesBy start call ∧ w.files.lookup start.path = some start.receipt
  | .finishing _ _ rest => SafeActions w.answers w.ended w.files rest.actions

/-- The invariant. -/
structure Kept (w : LeasesWorld) : Prop where
  filed : ∀ path receipt, w.files.lookup path = some receipt → Filed w.answers path receipt
  held : ∀ request lease, Granted w.answers request lease →
    (request.providerOrigin, lease.leaseId) ∉ w.ended → Held w.files request
  /-- A request that may still be executed has its receipt. -/
  sent : ∀ p ∈ w.sent, p.2.address = .acquire → (∀ q ∈ w.answers, q.1 ≠ p.2) →
    Held w.files p.2
  once : ∀ request a a', (request, a) ∈ w.answers → (request, a') ∈ w.answers → a = a'
  unique : ∀ request request' lease lease', Granted w.answers request lease →
    Granted w.answers request' lease' → request.providerOrigin = request'.providerOrigin →
    lease.leaseId = lease'.leaseId → request = request'
  honest : ∀ request a, (request, a) ∈ w.answers → ∀ response ∈ a.body,
    a.status = mutationStatus response.outcome ∧
      (response.outcome = .acquired → request.address = .acquire)
  place : PlaceKept w

section Actions

variable {answers : List (LeaseRequest × LeaseAnswer)} {ended : List (String × String)}
  {files : Receipts} {request : LeaseRequest} {a : ReceiptAction}

/-- What a new grant promises. -/
theorem Honest.granted {answer : LeaseAnswer} {lease : NamedLease}
    (h : Honest answers request answer) (hgrant : grantOf answer = some lease) :
    request.address = .acquire ∧ ∀ p ∈ answers, ∀ other ∈ grantOf p.2,
      p.1.providerOrigin = request.providerOrigin → other.leaseId ≠ lease.leaseId := by
  obtain ⟨response, hresponse, hacquired, hlease⟩ := grantOf_eq_some hgrant
  obtain ⟨haddress, found, hfound, hnew⟩ := (h.2 response hresponse).2 hacquired
  obtain rfl := Option.some.inj (hlease.symm.trans hfound)
  exact ⟨haddress, hnew⟩

theorem lookup_write (path : ReceiptPath) (receipt : NamedLeaseReceipt) (p : ReceiptPath) :
    ((ReceiptAction.write path receipt).perform files).lookup p =
      if p = path then some receipt else files.lookup p := by
  show (files.insert path receipt).lookup p = _
  by_cases hp : p = path
  · subst hp
    rw [if_pos rfl, AList.lookup_insert]
  · rw [if_neg hp, AList.lookup_insert_ne hp]

theorem lookup_remove (path p : ReceiptPath) :
    ((ReceiptAction.remove path).perform files).lookup p =
      if p = path then none else files.lookup p := by
  show (files.erase path).lookup p = _
  by_cases hp : p = path
  · subst hp
    rw [if_pos rfl, AList.lookup_erase]
  · rw [if_neg hp, AList.lookup_erase_ne hp]

/-- A safe action keeps the receipt of a request that has no answer, or whose lease has not
ended. -/
theorem SafeAction.held (hsafe : SafeAction answers ended files a) (hheld : Held files request)
    (hneeded : (∀ q ∈ answers, q.1 ≠ request) ∨
      ∃ lease, Granted answers request lease ∧ (request.providerOrigin, lease.leaseId) ∉ ended) :
    Held (a.perform files) request := by
  obtain ⟨path, receipt, hlookup, hrequest⟩ := hheld
  cases a with
  | write target new =>
    by_cases hp : path = target
    · subst hp
      have hsame := hsafe.2 receipt hlookup
      refine ⟨path, new, ?_, hsame.symm.trans hrequest⟩
      rw [lookup_write, if_pos rfl]
    · refine ⟨path, receipt, ?_, hrequest⟩
      rw [lookup_write, if_neg hp, hlookup]
  | remove target =>
    by_cases hp : path = target
    · subst hp
      obtain ⟨⟨answer, hanswer⟩, hover⟩ := hsafe receipt hlookup
      rw [hrequest] at hanswer hover
      rcases hneeded with hnone | ⟨lease, hgranted, hnot⟩
      · exact absurd rfl (hnone _ hanswer)
      · rcases hover lease hgranted with hended | ⟨other, new, hne, hother, hsame⟩
        · exact absurd hended hnot
        · refine ⟨other, new, ?_, hsame⟩
          rw [lookup_remove, if_neg hne, hother]
    · refine ⟨path, receipt, ?_, hrequest⟩
      rw [lookup_remove, if_neg hp, hlookup]

theorem SafeAction.filed (hsafe : SafeAction answers ended files a)
    (hfiled : ∀ path receipt, files.lookup path = some receipt → Filed answers path receipt)
    {path : ReceiptPath} {receipt : NamedLeaseReceipt}
    (hlookup : (a.perform files).lookup path = some receipt) : Filed answers path receipt := by
  cases a with
  | write target new =>
    rw [lookup_write] at hlookup
    by_cases hp : path = target
    · rw [if_pos hp] at hlookup
      obtain rfl := Option.some.inj hlookup
      subst hp
      exact hsafe.1
    · rw [if_neg hp] at hlookup
      exact hfiled path receipt hlookup
  | remove target =>
    rw [lookup_remove] at hlookup
    by_cases hp : path = target
    · rw [if_pos hp] at hlookup
      cases hlookup
    · rw [if_neg hp] at hlookup
      exact hfiled path receipt hlookup

theorem Granted.cons {answer : LeaseAnswer} {other : LeaseRequest} {lease : NamedLease}
    (h : Granted answers request lease) : Granted ((other, answer) :: answers) request lease := by
  obtain ⟨found, hmem, hgrant⟩ := h
  exact ⟨found, List.mem_cons_of_mem _ hmem, hgrant⟩

theorem granted_cons {answer : LeaseAnswer} {other : LeaseRequest} {lease : NamedLease}
    (h : Granted ((other, answer) :: answers) request lease) :
    Granted answers request lease ∨ request = other ∧ grantOf answer = some lease := by
  obtain ⟨found, hmem, hgrant⟩ := h
  rcases List.mem_cons.mp hmem with heq | hmem
  · obtain ⟨rfl, rfl⟩ := Prod.mk.inj heq
    exact Or.inr ⟨rfl, hgrant⟩
  · exact Or.inl ⟨found, hmem, hgrant⟩

theorem Filed.cons {answer : LeaseAnswer} {other : LeaseRequest} {path : ReceiptPath}
    {receipt : NamedLeaseReceipt} (h : Filed answers path receipt) :
    Filed ((other, answer) :: answers) path receipt := by
  unfold Filed at h ⊢
  split
  · next hfile =>
    rw [hfile] at h
    exact h
  · next hfile =>
    rw [hfile] at h
    obtain ⟨horigin, lease, hgranted, hid⟩ := h
    exact ⟨horigin, lease, hgranted.cons, hid⟩

/-- What is safe stays safe when the provider executes another request. -/
theorem SafeActions.cons {answer : LeaseAnswer} {other : LeaseRequest}
    (hnew : ∀ q ∈ answers, q.1 ≠ other) {actions : List ReceiptAction}
    (h : SafeActions answers ended files actions) :
    SafeActions ((other, answer) :: answers) ended files actions := by
  induction actions generalizing files with
  | nil => trivial
  | cons a rest ih =>
    refine ⟨?_, ih h.2⟩
    cases a with
    | write path receipt => exact ⟨h.1.1.cons, h.1.2⟩
    | remove path =>
      intro old hlookup
      obtain ⟨⟨known, hknown⟩, hover⟩ := h.1 old hlookup
      refine ⟨⟨known, List.mem_cons_of_mem _ hknown⟩, fun lease hgranted => ?_⟩
      rcases granted_cons hgranted with hgranted | ⟨heq, -⟩
      · exact hover lease hgranted
      · exact absurd heq (hnew _ hknown)

end Actions

section Steps

variable {w w' : LeasesWorld} {e : LeasesEvent}

theorem kept_initial : Kept initial where
  filed path receipt h := by cases h
  held request lease h := by
    obtain ⟨answer, hmem, -⟩ := h
    cases hmem
  sent p hp := by cases hp
  once request a a' h := by cases h
  unique request request' lease lease' h := by
    obtain ⟨answer, hmem, -⟩ := h
    cases hmem
  honest request a h := by cases h
  place := trivial

/-- Only the place changes, and the request IDs that have been drawn. -/
theorem Kept.move (h : w.Kept) (hfiles : w'.files = w.files) (hsent : w'.sent = w.sent)
    (hanswers : w'.answers = w.answers) (hended : w'.ended = w.ended) (hplace : PlaceKept w') :
    w'.Kept where
  filed := by
    rw [hfiles, hanswers]
    exact h.filed
  held := by
    rw [hfiles, hanswers, hended]
    exact h.held
  sent := by
    rw [hfiles, hsent, hanswers]
    exact h.sent
  once := by
    rw [hanswers]
    exact h.once
  unique := by
    rw [hanswers]
    exact h.unique
  honest := by
    rw [hanswers]
    exact h.honest
  place := hplace

/-- A safe action is carried out. -/
theorem Kept.perform (h : w.Kept) {a : ReceiptAction}
    (hsafe : SafeAction w.answers w.ended w.files a) (hfiles : w'.files = a.perform w.files)
    (hsent : w'.sent = w.sent) (hanswers : w'.answers = w.answers) (hended : w'.ended = w.ended)
    (hplace : PlaceKept w') : w'.Kept where
  filed path receipt hlookup := by
    rw [hfiles] at hlookup
    rw [hanswers]
    exact hsafe.filed h.filed hlookup
  held request lease hgranted hnot := by
    rw [hanswers] at hgranted
    rw [hended] at hnot
    rw [hfiles]
    exact hsafe.held (h.held request lease hgranted hnot) (Or.inr ⟨lease, hgranted, hnot⟩)
  sent p hp haddress hnone := by
    rw [hsent] at hp
    rw [hanswers] at hnone
    rw [hfiles]
    exact hsafe.held (h.sent p hp haddress hnone) (Or.inl hnone)
  once := by
    rw [hanswers]
    exact h.once
  unique := by
    rw [hanswers]
    exact h.unique
  honest := by
    rw [hanswers]
    exact h.honest
  place := hplace

/-- The receipt at the path of a new one would have been found. -/
theorem Filed.matches {project : NamedLeaseProject} {resourceKey : String}
    {holderId : Option String} {ttl : ℕ} {fresh : FreshReceipt} {old : NamedLeaseReceipt}
    {answers : List (LeaseRequest × LeaseAnswer)} {path : ReceiptPath}
    (hpath : path = receiptPath project.providerOrigin project.projectId (pendingReceiptFile
      (pendingReceipt project resourceKey (holderId.getD fresh.holderId) ttl fresh)))
    (h : Filed answers path old) : matchesPending project resourceKey holderId path old = true := by
  unfold Filed at h
  rw [hpath] at h ⊢
  obtain ⟨heq, hstate⟩ := h
  simp only [receiptPath, pendingReceiptFile, pendingReceipt, hash, ReceiptPath.mk.injEq,
    Digest.mk.injEq, List.cons.injEq, and_true, ReceiptFile.pending.injEq] at heq
  obtain ⟨horigin, hproject, -, hresource, hholder⟩ := heq
  simp only [matchesPending, receiptPath, ReceiptFile.isPending, pendingReceiptFile, hstate,
    ← horigin, ← hproject, ← hresource, decide_true, Bool.and_self, Bool.true_and]
  cases holderId with
  | none => rfl
  | some holder =>
    simp only [Option.getD_some] at hholder
    simp only [Option.all_some, ← hholder, decide_true]

/-- A call that has passed its checks. -/
theorem Kept.start (h : w.Kept) {call : NamedLeaseCall} {fresh : FreshReceipt} {start : LeaseStart}
    (hstart : call.start w.files fresh = .ok start) :
    GoesBy start call ∧ SafeActions w.answers w.ended w.files start.writes ∧
      (start.writes.foldl ReceiptAction.perform w.files).lookup start.path =
        some start.receipt := by
  cases call with
  | acquire project resourceKey holderId ttlSeconds =>
    rcases acquire_cases hstart with ⟨path, receipt, hfound, rfl⟩ | ⟨receipt, hnone, hnew, rfl⟩
    · obtain ⟨hlookup, hmatches⟩ := findPendingReceipt_some hfound
      simp only [matchesPending, Bool.and_eq_true, decide_eq_true_eq] at hmatches
      obtain ⟨⟨⟨⟨⟨⟨⟨-, -⟩, hfile⟩, -⟩, horigin⟩, -⟩, -⟩, -⟩ := hmatches
      exact ⟨⟨hfile, rfl, horigin⟩, trivial, hlookup⟩
    · refine ⟨⟨rfl, rfl, by rw [hnew]; rfl⟩, ⟨⟨⟨?_, ?_⟩, ?_⟩, trivial⟩, AList.lookup_insert _⟩
      · rw [hnew]
        rfl
      · rw [hnew]
        rfl
      · intro old hlookup
        -- no file has been found, so there is none at the path
        have hfiled := h.filed _ old hlookup
        have hmatches := Filed.matches (by rw [hnew]) hfiled
        rw [findPendingReceipt_none hnone hlookup] at hmatches
        cases hmatches
  | mutate project leaseId holderId operation ttlSeconds =>
    obtain ⟨receipt, lease, request, hlookup, hbound, -, rfl⟩ := mutateActiveReceipt_cases hstart
    refine ⟨⟨rfl, rfl, rfl⟩, ⟨⟨?_, ?_⟩, trivial⟩, AList.lookup_insert _⟩
    · exact h.filed _ receipt hlookup
    · intro old hold
      obtain rfl := Option.some.inj (hlookup.symm.trans hold)
      rfl

/-- What the answer to an acquisition leaves to do. -/
theorem Kept.acquireAnswered (h : w.Kept) {project : NamedLeaseProject} {resourceKey : String}
    {path : ReceiptPath} {receipt : NamedLeaseReceipt} {now : ℤ} {answer : Option LeaseAnswer}
    (hpath : path.file.isPending = true) (hlookup : w.files.lookup path = some receipt)
    (horigin : receipt.providerOrigin = project.providerOrigin)
    (hanswer : ∀ a ∈ answer, (acquireRequest receipt, a) ∈ w.answers) :
    SafeActions w.answers w.ended w.files
      (Resync.acquireAnswered project resourceKey path receipt now answer).actions := by
  obtain ⟨rest, hrest⟩ :
      ∃ rest, Resync.acquireAnswered project resourceKey path receipt now answer = rest := ⟨_, rfl⟩
  have hends : AcquireEnds project resourceKey path receipt now answer rest :=
    hrest ▸ acquireAnswered_cases
  rw [hrest]
  cases hends with
  | failed => trivial
  | @refused status response e hsome hrefused =>
    have hmem := hanswer _ hsome
    refine ⟨?_, trivial⟩
    intro old hold
    obtain rfl := Option.some.inj (hlookup.symm.trans hold)
    refine ⟨⟨_, hmem⟩, fun lease hgranted => ?_⟩
    -- the one answer to the request does not grant anything
    exfalso
    obtain ⟨a, ha, hgrant⟩ := hgranted
    obtain rfl := h.once _ _ _ hmem ha
    obtain ⟨found, hfound, hacquired, -⟩ := grantOf_eq_some hgrant
    obtain rfl := Option.some.inj hfound
    rcases hrefused with hstatus | hne
    · have hhonest := (h.honest _ _ hmem response rfl).1
      rw [hacquired] at hhonest
      apply hstatus
      show 200 ≤ status ∧ status < 300
      have hcode : status = 201 := hhonest
      omega
    · exact hne hacquired
  | @granted status response lease hsome hacquired hlease hproper hresource =>
    have hmem := hanswer _ hsome
    have hgranted : Granted w.answers (acquireRequest receipt) lease := by
      refine ⟨_, hmem, ?_⟩
      show (if response.outcome = .acquired then response.lease else none) = some lease
      rw [if_pos hacquired, hlease]
    have hne : path ≠ receiptPath project.providerOrigin project.projectId
        (activeReceiptFile lease.leaseId receipt.holderId) := by
      rintro rfl
      cases hpath
    refine ⟨⟨⟨congrArg (fun s => hash [s]) horigin.symm, lease, hgranted, rfl⟩, ?_⟩, ?_, trivial⟩
    · intro old hold
      obtain ⟨hother, lease', hgranted', hid⟩ := h.filed _ old hold
      have hsame : old.providerOrigin = receipt.providerOrigin := by
        have hdigest : hash [project.providerOrigin] = hash [old.providerOrigin] := hother
        have hfields := congrArg Digest.fields hdigest
        exact ((List.cons.inj hfields).1.symm).trans horigin.symm
      exact h.unique _ _ _ _ hgranted' hgranted hsame hid
    · intro old hold
      rw [lookup_write, if_neg hne] at hold
      obtain rfl := Option.some.inj (hlookup.symm.trans hold)
      refine ⟨⟨_, hmem⟩, fun _ _ => Or.inr ⟨_, _, hne.symm, AList.lookup_insert _, rfl⟩⟩

/-- What the answer to a renewal or a release leaves to do. -/
theorem Kept.mutateAnswered (h : w.Kept) {project : NamedLeaseProject} {leaseId : String}
    {holderId : String} {operation : LeaseOperation} {request : LeaseRequest}
    {path : ReceiptPath} {receipt : NamedLeaseReceipt} {now : ℤ} {answer : Option LeaseAnswer}
    (hpath : path = receiptPath project.providerOrigin project.projectId
      (activeReceiptFile leaseId holderId))
    (haddress : request.address = .lease leaseId operation)
    (horigin : request.providerOrigin = project.providerOrigin)
    (hlookup : w.files.lookup path = some receipt)
    (hanswer : ∀ a ∈ answer, (request, a) ∈ w.answers) :
    SafeActions w.answers (endOf request answer ++ w.ended) w.files
      (Resync.mutateAnswered project leaseId path receipt now answer).actions := by
  have hfiled := h.filed path receipt hlookup
  rw [hpath] at hfiled
  obtain ⟨hdigest, lease, hgranted, hid⟩ := hfiled
  have hsame : receipt.providerOrigin = project.providerOrigin :=
    ((List.cons.inj (congrArg Digest.fields hdigest)).1).symm
  -- a receipt may go when the end of its lease has been received
  have hremove : (project.providerOrigin, leaseId) ∈ endOf request answer →
      SafeActions w.answers (endOf request answer ++ w.ended) w.files [.remove path] := by
    intro hend
    refine ⟨?_, trivial⟩
    intro old hold
    obtain rfl := Option.some.inj (hlookup.symm.trans hold)
    obtain ⟨a, ha, hgrant⟩ := hgranted
    refine ⟨⟨a, ha⟩, fun other hother => Or.inl (List.mem_append_left _ ?_)⟩
    obtain ⟨a', ha', hgrant'⟩ := hother
    obtain rfl := h.once _ _ _ ha ha'
    obtain rfl := Option.some.inj (hgrant.symm.trans hgrant')
    show (receipt.providerOrigin, lease.leaseId) ∈ endOf request answer
    rw [hsame, hid]
    exact hend
  have hend : ∀ {status response}, answer = some ⟨status, some response⟩ →
      (response.outcome = .released ∨ response.outcome = .leaseExpired ∨
        response.outcome = .notHolder) → (project.providerOrigin, leaseId) ∈ endOf request answer := by
    intro status response hsome houtcome
    simp only [endOf, haddress, hsome, Option.bind_some, houtcome, ↓reduceIte, horigin,
      List.mem_singleton]
  obtain ⟨rest, hrest⟩ :
      ∃ rest, Resync.mutateAnswered project leaseId path receipt now answer = rest := ⟨_, rfl⟩
  have hends : MutateEnds project leaseId path receipt now answer rest :=
    hrest ▸ mutateAnswered_cases
  rw [hrest]
  cases hends with
  | failed => trivial
  | lost hsome houtcome => exact hremove (hend hsome (Or.inr houtcome))
  | released hsome houtcome hlease hproper hleaseId => exact hremove (hend hsome (Or.inl houtcome))
  | renewed hsome houtcome hlease hproper hleaseId =>
    refine ⟨⟨h.filed path receipt hlookup, ?_⟩, trivial⟩
    intro old hold
    obtain rfl := Option.some.inj (hlookup.symm.trans hold)
    rfl
  | @other status response e hsome hstatus hrenewed hreleased =>
    -- a provider that conforms answers a renewal or a release with no other success
    exfalso
    have hmem := hanswer _ hsome
    obtain ⟨hcode, hacquire⟩ := h.honest _ _ hmem response rfl
    have hcode : status = mutationStatus response.outcome := hcode
    rw [hcode] at hstatus
    cases houtcome : response.outcome with
    | acquired =>
      have hwrong := hacquire houtcome
      rw [haddress] at hwrong
      cases hwrong
    | renewed => exact hrenewed houtcome
    | released => exact hreleased houtcome
    | _ =>
      rw [houtcome] at hstatus
      exact absurd hstatus (by decide)

/-- The provider executes a request. -/
theorem Kept.execute (h : w.Kept) {request : LeaseRequest} {answer : LeaseAnswer}
    (hsent : request ∈ w.sent.map Prod.snd) (hhonest : Honest w.answers request answer) :
    Kept { w with answers := (request, answer) :: w.answers } where
  filed path receipt hlookup := (h.filed path receipt hlookup).cons
  held other lease hgranted hnot := by
    rcases granted_cons hgranted with hgranted | ⟨rfl, hgrant⟩
    · exact h.held other lease hgranted hnot
    · -- the grant is new, so its receipt is still pending
      obtain ⟨p, hp, rfl⟩ := List.mem_map.mp hsent
      exact h.sent p hp (hhonest.granted hgrant).1 hhonest.1
  sent p hp haddress hnone := by
    apply h.sent p hp haddress
    intro q hq
    exact hnone q (List.mem_cons_of_mem _ hq)
  once other a a' ha ha' := by
    rcases List.mem_cons.mp ha with heq | ha
    · rcases List.mem_cons.mp ha' with heq' | ha'
      · exact (Prod.mk.inj heq).2.trans (Prod.mk.inj heq').2.symm
      · exact absurd (Prod.mk.inj heq).1 (hhonest.1 _ ha')
    · rcases List.mem_cons.mp ha' with heq' | ha'
      · exact absurd (Prod.mk.inj heq').1 (hhonest.1 _ ha)
      · exact h.once other a a' ha ha'
  unique first second lease lease' hfirst hsecond horigin hid := by
    -- a new lease has a new ID
    have hfresh : ∀ {other lease lease'}, grantOf answer = some lease →
        Granted w.answers other lease' → other.providerOrigin = request.providerOrigin →
          lease'.leaseId ≠ lease.leaseId := by
      intro other lease lease' hgrant hother horigin
      obtain ⟨a, ha, hgrant'⟩ := hother
      exact (hhonest.granted hgrant).2 _ ha lease' hgrant' horigin
    rcases granted_cons hfirst with hold | ⟨rfl, hgrant⟩
    · rcases granted_cons hsecond with hold' | ⟨rfl, hgrant⟩
      · exact h.unique first second lease lease' hold hold' horigin hid
      · exact absurd hid (hfresh hgrant hold horigin)
    · rcases granted_cons hsecond with hold' | ⟨rfl, -⟩
      · exact absurd hid.symm (hfresh hgrant hold' horigin.symm)
      · rfl
  honest other a ha response hresponse := by
    rcases List.mem_cons.mp ha with heq | ha
    · obtain ⟨rfl, rfl⟩ := Prod.mk.inj heq
      obtain ⟨hstatus, hacquired⟩ := hhonest.2 response hresponse
      exact ⟨hstatus, fun h => (hacquired h).1⟩
    · exact h.honest other a ha response hresponse
  place := by
    have hplace := h.place
    unfold PlaceKept at hplace ⊢
    dsimp only
    split
    · trivial
    · trivial
    · next call start hpreparing =>
      rw [hpreparing] at hplace
      exact ⟨hplace.1, hplace.2.1.cons hhonest.1, hplace.2.2⟩
    · next call start hawaiting =>
      rw [hawaiting] at hplace
      exact hplace
    · next call req rest hfinishing =>
      rw [hfinishing] at hplace
      exact hplace.cons hhonest.1

/-- What a step keeps while the provider conforms. -/
theorem Kept.step (h : w.Kept) (hok : w.Conforming e) (hs : w.step e = some w') : w'.Kept := by
  have hplace := h.place
  unfold PlaceKept at hplace
  cases takes_of_step hs with
  | fails free unused checks => exact h.move rfl rfl rfl rfl trivial
  | starts free unused checks => exact h.move rfl rfl rfl rfl (h.start checks)
  | @prepares call path receipt a writes request hpreparing =>
    rw [hpreparing] at hplace
    obtain ⟨hgoes, ⟨hsafe, hrest⟩, hlookup⟩ := hplace
    exact h.perform hsafe rfl rfl rfl rfl ⟨by cases call <;> exact hgoes, hrest, hlookup⟩
  | settles hfinishing =>
    rw [hfinishing] at hplace
    exact h.perform hplace.1 rfl rfl rfl rfl hplace.2
  | @sends call path receipt request hpreparing =>
    rw [hpreparing] at hplace
    obtain ⟨hgoes, -, hlookup⟩ := hplace
    refine ⟨h.filed, h.held, ?_, h.once, h.unique, h.honest, hgoes, hlookup⟩
    intro p hp haddress hnone
    rcases List.mem_cons.mp hp with rfl | hp
    · cases call with
      | acquire project resourceKey holderId ttlSeconds =>
        exact ⟨path, receipt, hlookup, hgoes.2.1.symm⟩
      | mutate project leaseId holderId operation ttlSeconds =>
        -- only an acquisition is addressed to the base
        have hlease := hgoes.2.1
        rw [show request.address = .acquire from haddress] at hlease
        cases hlease
    · exact h.sent p hp haddress hnone
  | executes hsent => exact h.execute hsent hok
  | @receives call start now answer hawaiting =>
    rw [hawaiting] at hplace
    obtain ⟨hgoes, hlookup⟩ := hplace
    simp only [Conforming, hawaiting] at hok
    have hgrows : ∀ p ∈ w.ended, p ∈ endOf start.request answer ++ w.ended :=
      fun p hp => List.mem_append_right _ hp
    refine ⟨h.filed, ?_, h.sent, h.once, h.unique, h.honest, ?_⟩
    · intro request lease hgranted hnot
      exact h.held request lease hgranted fun hmem => hnot (hgrows _ hmem)
    · cases call with
      | acquire project resourceKey holderId ttlSeconds =>
        obtain ⟨hpath, hrequest, horigin⟩ := hgoes
        have hnone : endOf start.request answer = [] := by
          rw [hrequest]
          rfl
        rw [hrequest] at hok
        show SafeActions w.answers (endOf start.request answer ++ w.ended) w.files _
        rw [hnone, List.nil_append]
        exact h.acquireAnswered hpath hlookup horigin hok
      | mutate project leaseId holderId operation ttlSeconds =>
        obtain ⟨hpath, haddress, horigin⟩ := hgoes
        exact h.mutateAnswered hpath haddress horigin hlookup hok
  | returns hfinishing => exact h.move rfl rfl rfl rfl trivial
  | crashes => exact h.move rfl rfl rfl rfl trivial

/-- From the moment a lease is granted until its end has been received, a receipt file holds
the secret of its request. -/
theorem proofs_are_kept {es : List LeasesEvent}
    (hok : Runs.Steps LeasesWorld.step Conforming initial es)
    (hrun : Runs.run LeasesWorld.step initial es = some w) : w.ProofsKept := by
  have hstep : ∀ (s : LeasesWorld) e t, s.Kept → s.Conforming e → s.step e = some t → t.Kept :=
    fun s e t h hok hs => h.step hok hs
  have hkept := Runs.run_invariant hstep kept_initial hok hrun
  intro request lease hgranted hnot
  obtain ⟨path, receipt, hlookup, hrequest⟩ := hkept.held request lease hgranted hnot
  refine ⟨path, receipt, hlookup, ?_⟩
  rw [← hrequest]
  rfl

end Steps

section OneLease

instance (w : LeasesWorld) (e : LeasesEvent) : Decidable (w.Conforming e) := by
  unfold Conforming Honest
  split
  · infer_instance
  · split
    · infer_instance
    · infer_instance
  · infer_instance

def oneProject : NamedLeaseProject := ⟨"https://host", "prj_a", ⟨900, 30, 3600⟩⟩

def oneFresh (requestId : String) : FreshReceipt := ⟨requestId, "holder_0", "secret"⟩

def acquireOne : NamedLeaseCall := .acquire oneProject "maps/a" (some "worker") none

def oneRequest : LeaseRequest :=
  acquireRequest (pendingReceipt oneProject "maps/a" "worker" 900 (oneFresh "req_0"))

/-- Its lifetime is from 0 to 900 seconds. -/
def oneLease : NamedLease :=
  ⟨"nls_a", "prj_a", "maps/a", "dev_a", none, "worker", 1, 0, 900000⟩

def oneGrant : LeaseAnswer := ⟨201, some ⟨.acquired, some oneLease⟩⟩

/-- The first answer is lost. -/
def losesAnswer : List LeasesEvent :=
  [.call acquireOne (oneFresh "req_0"), .act, .send, .execute oneRequest oneGrant,
    .receive 1000 none, .finish 1000]

/-- The second call gets it again, and dies between its two file operations. -/
def diesActive : List LeasesEvent :=
  losesAnswer ++ [.call acquireOne (oneFresh "req_1"), .send, .receive 2000 (some oneGrant), .act,
    .crash]

theorem proofs_are_kept_replay : ∃ u, Runs.run step initial diesActive = some u ∧
    Granted u.answers oneRequest oneLease ∧
    (oneRequest.providerOrigin, oneLease.leaseId) ∉ u.ended ∧
    ∃ path receipt, u.files.lookup path = some receipt ∧
      receipt.holderSecret = oneRequest.body.holderSecret := by
  have hok : Runs.Steps step Conforming initial diesActive := by decide +kernel
  have htest : (Runs.run step initial diesActive).map (fun u =>
      decide ((oneRequest, oneGrant) ∈ u.answers ∧
        (oneRequest.providerOrigin, oneLease.leaseId) ∉ u.ended)) = some true := by
    decide +kernel
  obtain ⟨u, hu, htest⟩ := Option.map_eq_some_iff.mp htest
  obtain ⟨hanswer, hnot⟩ := of_decide_eq_true htest
  have hgranted : Granted u.answers oneRequest oneLease := ⟨oneGrant, hanswer, rfl⟩
  have hkept := proofs_are_kept hok hu
  exact ⟨u, hu, hgranted, hnot, hkept oneRequest oneLease hgranted hnot⟩

end OneLease

end LeasesWorld

end Resync
