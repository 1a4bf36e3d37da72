import Resync.LeaseRequests

/-! When `acquire` returns a lease that is over (`named_lease.rs`). A pending receipt that is
left behind is replayed, and the provider answers with the lease that it granted at first. -/
namespace Resync

namespace LeasesWorld

/-- `acquire` does not return a lease whose end has been received, or whose time is over. -/
def ReturnsLive (w : LeasesWorld) : Prop :=
  match w.place with
  | .returned (.acquire project ..) _ now (.ok response) => ∀ lease ∈ response.lease,
    (project.providerOrigin, lease.leaseId) ∉ w.ended ∧ now < lease.expiresAt
  | _ => True

/-- The leases that the provider has granted to the request. -/
def grants (answers : List (LeaseRequest × LeaseAnswer)) (request : LeaseRequest) :
    List NamedLease :=
  (answers.filter (·.1 = request)).filterMap fun p => grantOf p.2

/-- The pending receipt that an acquisition finds. -/
def replayed (w : LeasesWorld) : NamedLeaseCall → Option NamedLeaseReceipt
  | .acquire project resourceKey holderId _ =>
    match findPendingReceipt w.files project resourceKey holderId with
    | .ok found => found.map Prod.snd
    | .error _ => none
  | .mutate .. => none

/-- The request of an acquisition that is about to succeed. -/
def succeeding (w : LeasesWorld) : Option LeaseRequest :=
  match w.place with
  | .finishing (.acquire ..) request ⟨[], .ok _⟩ => request
  | _ => none

/-- The condition. An acquisition that finds a pending receipt does not replay a request
whose lease has been seen to end, and it comes back within the lifetime of the grant. -/
def Timely (w : LeasesWorld) : LeasesEvent → Prop
  | .call call _ => ∀ receipt ∈ w.replayed call,
    ∀ lease ∈ grants w.answers (acquireRequest receipt),
      (call.project.providerOrigin, lease.leaseId) ∉ w.ended
  | .finish now => ∀ request ∈ w.succeeding, ∀ lease ∈ grants w.answers request,
    now < lease.expiresAt
  | _ => True

section Leases

variable (answers : List (LeaseRequest × LeaseAnswer)) (ended : List (String × String))

/-- No lease that has been granted to the request has been seen to end. -/
def Unended (request : LeaseRequest) : Prop :=
  ∀ lease, Granted answers request lease → (request.providerOrigin, lease.leaseId) ∉ ended

/-- What an acquisition knows of its request, wherever it stands. -/
def LivePlace : LeasePlace → Prop
  | .preparing (.acquire ..) start | .awaiting (.acquire ..) start =>
    Unended answers ended start.request
  | .finishing (.acquire project ..) request ⟨_, .ok response⟩ =>
    ∃ q, request = some q ∧ q.providerOrigin = project.providerOrigin ∧
      Unended answers ended q ∧ ∀ lease ∈ response.lease, Granted answers q lease
  | _ => True

end Leases

/-- The invariant, beside those of the receipts and of the request IDs. -/
structure Live (w : LeasesWorld) : Prop where
  kept : w.Kept
  consistent : ∃ issues, Consistent issues w
  executed : ∀ p ∈ w.answers, p.1 ∈ w.sent.map Prod.snd
  known : ∀ p ∈ w.ended, ∃ request lease, Granted w.answers request lease ∧
    request.providerOrigin = p.1 ∧ lease.leaseId = p.2
  place : LivePlace w.answers w.ended w.place
  returned : w.ReturnsLive

section Steps

variable {w w' : LeasesWorld} {e : LeasesEvent} {es : List LeasesEvent}

theorem mem_grants {answers : List (LeaseRequest × LeaseAnswer)} {request : LeaseRequest}
    {lease : NamedLease} : lease ∈ grants answers request ↔ Granted answers request lease := by
  unfold grants Granted
  constructor
  · intro h
    obtain ⟨p, hp, hgrant⟩ := List.mem_filterMap.mp h
    obtain ⟨hmem, hrequest⟩ := List.mem_filter.mp hp
    obtain rfl := of_decide_eq_true hrequest
    exact ⟨p.2, hmem, hgrant⟩
  · rintro ⟨answer, hmem, hgrant⟩
    apply List.mem_filterMap.mpr
    exact ⟨(request, answer), List.mem_filter.mpr ⟨hmem, decide_eq_true rfl⟩, hgrant⟩

theorem live_initial : Live initial where
  kept := kept_initial
  consistent := ⟨_, consistent_initial⟩
  executed p hp := by cases hp
  known p hp := by cases hp
  place := trivial
  returned := trivial

/-- The grant to a request that nobody has sent yet. -/
theorem Live.unended_fresh (h : w.Live) {request : LeaseRequest}
    (hfresh : request.body.requestId ∉ w.issued) : Unended w.answers w.ended request := by
  rintro lease ⟨answer, hmem, -⟩
  -- an executed request has been sent, so its ID has been drawn
  exfalso
  obtain ⟨p, hp, hrequest⟩ := List.mem_map.mp (h.executed _ hmem)
  obtain ⟨issues, hconsistent⟩ := h.consistent
  obtain ⟨issue, hissue, -⟩ := hconsistent.sent p hp
  apply hfresh
  have hsame : request = p.2 := hrequest.symm
  rw [hsame]
  apply hconsistent.issued
  rw [hissue]
  exact Option.some_ne_none _

/-- A new grant is of a lease that nobody has seen to end. -/
theorem Live.unended_execute (h : w.Live) {request other : LeaseRequest} {answer : LeaseAnswer}
    (hhonest : Honest w.answers request answer) (hunended : Unended w.answers w.ended other) :
    Unended ((request, answer) :: w.answers) w.ended other := by
  intro lease hgranted hended
  rcases granted_cons hgranted with hgranted | ⟨rfl, hgrant⟩
  · exact hunended lease hgranted hended
  · obtain ⟨known, old, ⟨a, ha, hold⟩, horigin, hid⟩ := h.known _ hended
    exact (hhonest.granted hgrant).2 _ ha old hold horigin hid

theorem Live.livePlace_execute (h : w.Live) {request : LeaseRequest} {answer : LeaseAnswer}
    (hhonest : Honest w.answers request answer) :
    LivePlace ((request, answer) :: w.answers) w.ended w.place := by
  have hplace := h.place
  unfold LivePlace at hplace ⊢
  split
  · next hpreparing =>
    rw [hpreparing] at hplace
    exact h.unended_execute hhonest hplace
  · next hawaiting =>
    rw [hawaiting] at hplace
    exact h.unended_execute hhonest hplace
  · next hfinishing =>
    rw [hfinishing] at hplace
    obtain ⟨q, hq, horigin, hunended, hlease⟩ := hplace
    exact ⟨q, hq, horigin, h.unended_execute hhonest hunended,
      fun lease hmem => (hlease lease hmem).cons⟩
  · trivial

/-- The lease whose end an answer tells has been granted. -/
theorem Live.known_endOf (h : w.Live) {call : NamedLeaseCall} {start : LeaseStart}
    (hawaiting : w.place = .awaiting call start) {answer : Option LeaseAnswer}
    {p : String × String} (hp : p ∈ endOf start.request answer) :
    ∃ request lease, Granted w.answers request lease ∧ request.providerOrigin = p.1 ∧
      lease.leaseId = p.2 := by
  have hplace := h.kept.place
  simp only [PlaceKept, hawaiting] at hplace
  obtain ⟨hgoes, hlookup⟩ := hplace
  cases call with
  | acquire project resourceKey holderId ttlSeconds =>
    rw [hgoes.2.1] at hp
    cases hp
  | mutate project leaseId holderId operation ttlSeconds =>
    obtain ⟨hpath, haddress, horigin⟩ := hgoes
    have hfiled := h.kept.filed _ _ hlookup
    rw [hpath] at hfiled
    obtain ⟨hdigest, lease, hgranted, hid⟩ := hfiled
    have hsame : start.receipt.providerOrigin = project.providerOrigin :=
      ((List.cons.inj (congrArg Digest.fields hdigest)).1).symm
    have hpair : p = (start.request.providerOrigin, leaseId) := by
      unfold endOf at hp
      rw [haddress] at hp
      split at hp
      · next heq _ =>
        obtain ⟨rfl, -⟩ := LeaseAddress.lease.inj heq
        split at hp
        · exact List.mem_singleton.mp hp
        · cases hp
      · cases hp
    refine ⟨_, lease, hgranted, ?_, ?_⟩
    · rw [hpair, horigin]
      exact hsame
    · rw [hpair]
      exact hid

/-- The place after an answer. -/
theorem Live.receive (h : w.Live) (hok : w.Conforming (.receive now answer))
    {call : NamedLeaseCall} {start : LeaseStart} (hawaiting : w.place = .awaiting call start) :
    LivePlace w.answers (endOf start.request answer ++ w.ended)
      (.finishing call (some start.request)
        (call.answered start.path start.receipt now answer)) := by
  have hplace := h.place
  have hkept := h.kept.place
  simp only [PlaceKept, hawaiting] at hkept
  rw [hawaiting] at hplace
  cases call with
  | mutate => trivial
  | acquire project resourceKey holderId ttlSeconds =>
    obtain ⟨⟨-, hrequest, horigin⟩, -⟩ := hkept
    simp only [Conforming, hawaiting] at hok
    obtain ⟨rest, hrest⟩ : ∃ rest, acquireAnswered project resourceKey start.path start.receipt
        now answer = rest := ⟨_, rfl⟩
    have hends : AcquireEnds project resourceKey start.path start.receipt now answer rest :=
      hrest ▸ acquireAnswered_cases
    have hnone : endOf start.request answer = [] := by
      rw [hrequest]
      rfl
    rw [hnone, List.nil_append]
    show LivePlace w.answers w.ended (.finishing _ _ (acquireAnswered ..))
    rw [hrest]
    cases hends with
    | failed => trivial
    | refused => trivial
    | @granted status response lease hsome hacquired hlease hproper hresource =>
      refine ⟨start.request, rfl, ?_, hplace, ?_⟩
      · rw [hrequest]
        exact horigin
      · intro found hfound
        refine ⟨_, hok _ hsome, ?_⟩
        show (if response.outcome = .acquired then response.lease else none) = some found
        rw [if_pos hacquired]
        exact hfound

/-- What a step keeps while the provider conforms and acquisitions are timely. -/
theorem Live.step (h : w.Live) (hok : w.Conforming e) (htimely : w.Timely e)
    (hs : w.step e = some w') : w'.Live := by
  have hkept := h.kept.step hok hs
  obtain ⟨issues, hconsistent⟩ := h.consistent
  obtain ⟨issues', -, hconsistent'⟩ := hconsistent.step hs
  have hplace := h.place
  cases takes_of_step hs with
  | @fails call fresh error free unused checks =>
    refine ⟨hkept, ⟨issues', hconsistent'⟩, h.executed, h.known, ?_, trivial⟩
    cases call with
    | acquire => trivial
    | mutate => trivial
  | @starts call fresh start free unused checks =>
    refine ⟨hkept, ⟨issues', hconsistent'⟩, h.executed, h.known, ?_, trivial⟩
    cases call with
    | mutate => trivial
    | acquire project resourceKey holderId ttlSeconds =>
      show Unended w.answers w.ended start.request
      rcases acquire_cases checks with ⟨path, receipt, hfound, rfl⟩ | ⟨receipt, -, hnew, rfl⟩
      · obtain ⟨-, hmatches⟩ := findPendingReceipt_some hfound
        simp only [matchesPending, Bool.and_eq_true, decide_eq_true_eq] at hmatches
        -- The receipt that is found is sent again, and in a timely acquisition its lease
        -- has not ended.
        have horigin : receipt.providerOrigin = project.providerOrigin := hmatches.1.1.1.2
        have hreplayed : receipt ∈ w.replayed
            (.acquire project resourceKey holderId ttlSeconds) := by
          simp only [replayed, hfound, Option.map_some, Option.mem_some_iff]
        intro lease hgranted
        have hnot : (project.providerOrigin, lease.leaseId) ∉ w.ended :=
          htimely receipt hreplayed lease (mem_grants.mpr hgranted)
        rw [← horigin] at hnot
        exact hnot
      -- A new request has an ID of its own, so nothing has been granted under it.
      · apply h.unended_fresh
        rw [hnew]
        exact unused
  | @prepares call path receipt a writes request hpreparing =>
    rw [hpreparing] at hplace
    refine ⟨hkept, ⟨issues', hconsistent'⟩, h.executed, h.known, ?_, trivial⟩
    cases call with
    | acquire => exact hplace
    | mutate => trivial
  | @settles call request a actions result hfinishing =>
    rw [hfinishing] at hplace
    refine ⟨hkept, ⟨issues', hconsistent'⟩, h.executed, h.known, ?_, trivial⟩
    cases call with
    | mutate => trivial
    | acquire =>
      cases result with
      | error => trivial
      | ok => exact hplace
  | @sends call path receipt request hpreparing =>
    rw [hpreparing] at hplace
    refine ⟨hkept, ⟨issues', hconsistent'⟩, ?_, h.known, ?_, trivial⟩
    · intro p hp
      exact List.mem_cons_of_mem _ (h.executed p hp)
    · cases call with
      | acquire => exact hplace
      | mutate => trivial
  | @executes request answer hsent =>
    refine ⟨hkept, ⟨issues', hconsistent'⟩, ?_, ?_, h.livePlace_execute hok, h.returned⟩
    · intro p hp
      rcases List.mem_cons.mp hp with rfl | hp
      · exact hsent
      · exact h.executed p hp
    · intro p hp
      obtain ⟨known, lease, hgranted, hpair⟩ := h.known p hp
      exact ⟨known, lease, hgranted.cons, hpair⟩
  | @receives call start now answer hawaiting =>
    refine ⟨hkept, ⟨issues', hconsistent'⟩, h.executed, ?_, h.receive hok hawaiting, trivial⟩
    intro p hp
    rcases List.mem_append.mp hp with hp | hp
    · exact h.known_endOf hawaiting hp
    · exact h.known p hp
  | @returns call request now result hfinishing =>
    rw [hfinishing] at hplace
    refine ⟨hkept, ⟨issues', hconsistent'⟩, h.executed, h.known, trivial, ?_⟩
    cases call with
    | mutate => trivial
    | acquire project resourceKey holderId ttlSeconds =>
      cases result with
      | error => trivial
      | ok response =>
        obtain ⟨q, rfl, horigin, hunended, hlease⟩ := hplace
        have hsucceeding : q ∈ w.succeeding := by
          simp only [succeeding, hfinishing, Option.mem_some_iff]
        intro lease hmem
        have hgranted := hlease lease hmem
        refine ⟨?_, htimely q hsucceeding lease (mem_grants.mpr hgranted)⟩
        rw [← horigin]
        exact hunended lease hgranted
  | crashes => exact ⟨hkept, ⟨issues', hconsistent'⟩, h.executed, h.known, trivial, trivial⟩

/-- In every run against a provider that replays its first answers, with crashes and lost
answers anywhere: where no acquisition replays a request whose lease has been seen to end,
and each comes back within the lifetime of its grant, none returns a dead lease. -/
theorem acquire_returns_live
    (hok : Runs.Steps LeasesWorld.step (fun w e => w.Conforming e ∧ w.Timely e) initial es)
    (hrun : Runs.run LeasesWorld.step initial es = some w) : w.ReturnsLive := by
  have hstep : ∀ (s : LeasesWorld) e t, s.Live → (s.Conforming e ∧ s.Timely e) →
      s.step e = some t → t.Live := fun s e t h hok hs => h.step hok.1 hok.2 hs
  exact (Runs.run_invariant hstep live_initial hok hrun).returned

end Steps

section OneLease

instance (w : LeasesWorld) (e : LeasesEvent) : Decidable (w.Timely e) := by
  unfold Timely
  split
  · infer_instance
  · infer_instance
  · infer_instance

/-- The call has returned this lease, which is not live. -/
def returnsDead (w : LeasesWorld) (lease : NamedLease) : Bool :=
  match w.place with
  | .returned (.acquire project ..) _ now (.ok response) =>
    decide (response.lease = some lease ∧
      ((project.providerOrigin, lease.leaseId) ∈ w.ended ∨ lease.expiresAt ≤ now))
  | _ => false

/-- The call has returned this lease. -/
def returnsLease (w : LeasesWorld) (lease : NamedLease) : Bool :=
  match w.place with
  | .returned (.acquire ..) _ _ (.ok response) => decide (response.lease = some lease)
  | _ => false

theorem not_returnsLive {w : LeasesWorld} {lease : NamedLease}
    (h : w.returnsDead lease = true) : ¬ w.ReturnsLive := by
  intro hlive
  unfold returnsDead at h
  unfold ReturnsLive at hlive
  split at h
  · next hreturned =>
    obtain ⟨hlease, hdead⟩ := of_decide_eq_true h
    rw [hreturned] at hlive
    obtain ⟨hnot, htime⟩ := hlive lease hlease
    rcases hdead with hended | hover
    · exact hnot hended
    · omega
  · cases h

/-- An acquisition finds the receipt of an earlier one, and comes back at the given time. -/
def replaysAt (requestId : String) (now : ℤ) : List LeasesEvent :=
  [.call acquireOne (oneFresh requestId), .send, .receive now (some oneGrant), .act, .act,
    .finish now]

theorem acquire_returns_live_replay : ∃ u,
    Runs.run step initial (losesAnswer ++ replaysAt "req_1" 2000) = some u ∧
    u.returnsLease oneLease = true ∧ u.ReturnsLive := by
  have hok : Runs.Steps step (fun w e => w.Conforming e ∧ w.Timely e) initial
      (losesAnswer ++ replaysAt "req_1" 2000) := by
    decide +kernel
  have htest : (Runs.run step initial (losesAnswer ++ replaysAt "req_1" 2000)).map
      (fun u => u.returnsLease oneLease) = some true := by
    decide +kernel
  obtain ⟨u, hu, htest⟩ := Option.map_eq_some_iff.mp htest
  exact ⟨u, hu, htest, acquire_returns_live hok hu⟩

/-- The lease is released, from the active receipt of an acquisition that has died. -/
def releasesOne : List LeasesEvent :=
  [.call (.release oneProject "nls_a" "worker") (oneFresh "req_2"), .act, .send,
    .execute (mutateRequest oneProject "nls_a" .release
      (pendingReceipt oneProject "maps/a" "worker" 900 (oneFresh "req_0"))
      ⟨.release, "req_2", none⟩ none) ⟨200, some ⟨.released, some oneLease⟩⟩,
    .receive 3000 (some ⟨200, some ⟨.released, some oneLease⟩⟩), .act, .finish 3000]

/-- Two runs: the pending receipt outlives the release of its lease, and is replayed; and the
answer that was lost is asked for again when the lease is over. -/
theorem acquire_returns_dead :
    (∃ u, Runs.Steps step Conforming initial (diesActive ++ releasesOne ++
        replaysAt "req_3" 4000) ∧
      Runs.run step initial (diesActive ++ releasesOne ++ replaysAt "req_3" 4000) = some u ∧
      ¬ u.ReturnsLive) ∧
    ∃ u, Runs.Steps step Conforming initial (losesAnswer ++ replaysAt "req_1" 900000) ∧
      Runs.run step initial (losesAnswer ++ replaysAt "req_1" 900000) = some u ∧
      ¬ u.ReturnsLive := by
  constructor
  · have hok : Runs.Steps step Conforming initial (diesActive ++ releasesOne ++
        replaysAt "req_3" 4000) := by
      decide +kernel
    have htest : (Runs.run step initial (diesActive ++ releasesOne ++
        replaysAt "req_3" 4000)).map (fun u => u.returnsDead oneLease) = some true := by
      decide +kernel
    obtain ⟨u, hu, htest⟩ := Option.map_eq_some_iff.mp htest
    exact ⟨u, hok, hu, not_returnsLive htest⟩
  · have hok : Runs.Steps step Conforming initial (losesAnswer ++ replaysAt "req_1" 900000) := by
      decide +kernel
    have htest : (Runs.run step initial (losesAnswer ++ replaysAt "req_1" 900000)).map
        (fun u => u.returnsDead oneLease) = some true := by
      decide +kernel
    obtain ⟨u, hu, htest⟩ := Option.map_eq_some_iff.mp htest
    exact ⟨u, hok, hu, not_returnsLive htest⟩

end OneLease

end LeasesWorld

end Resync
