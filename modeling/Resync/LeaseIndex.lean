import Resync.GateRuns

/-! The two maps of a `LeaseGate`: the live leases, and the index that finds a
lease by its session and call. -/
namespace Resync

namespace GateState

/-- The index has the entry of every live lease that carries a call, and no
other entry. -/
def Indexed (s : GateState) : Prop :=
  ∀ call id, s.leasesByCall.lookup call = some id ↔
    ∃ metadata, s.leases.lookup id = some metadata ∧ leaseCall metadata = some call

theorem indexed_initial : Indexed initial := by
  intro call id
  constructor
  · intro h
    cases h
  · rintro ⟨metadata, h, -⟩
    cases h

variable {s s' : GateState}

theorem Indexed.congr (h : Indexed s) (hleases : s'.leases = s.leases)
    (hindex : s'.leasesByCall = s.leasesByCall) : Indexed s' := by
  intro call id
  rw [hleases, hindex]
  exact h call id

/-- No two live leases share a call. -/
theorem Indexed.unique (h : Indexed s) {id id' : String} {metadata metadata' : LeaseMetadata}
    {call : LeaseCall} (hid : s.leases.lookup id = some metadata)
    (hid' : s.leases.lookup id' = some metadata') (hcall : leaseCall metadata = some call)
    (hcall' : leaseCall metadata' = some call) : id = id' := by
  have hfirst := (h call id).mpr ⟨metadata, hid, hcall⟩
  have hsecond := (h call id').mpr ⟨metadata', hid', hcall'⟩
  exact Option.some.inj (hfirst.symm.trans hsecond)

/-- A live call is found again. -/
theorem Indexed.leaseOfCall (h : Indexed s) {id : String} {metadata metadata' : LeaseMetadata}
    {call : LeaseCall} (hid : s.leases.lookup id = some metadata)
    (hcall : leaseCall metadata = some call) (hcall' : leaseCall metadata' = some call) :
    s.leaseOfCall metadata' = some id := by
  have hentry : s.leasesByCall.lookup call = some id := (h call id).mpr ⟨metadata, hid, hcall⟩
  have hlive : id ∈ s.leases := AList.lookup_isSome.mp (by rw [hid]; rfl)
  rw [GateState.leaseOfCall, hcall']
  change (s.leasesByCall.lookup call).bind _ = some id
  rw [hentry]
  exact if_pos hlive

/-- Where no lease is found, the index has no entry for the call. -/
theorem Indexed.lookup_none (h : Indexed s) {metadata : LeaseMetadata} {call : LeaseCall}
    (hcall : leaseCall metadata = some call) (hnone : s.leaseOfCall metadata = none) :
    s.leasesByCall.lookup call = none := by
  cases hentry : s.leasesByCall.lookup call with
  | none => rfl
  | some id =>
    obtain ⟨metadata', hid, hcall'⟩ := (h call id).mp hentry
    rw [h.leaseOfCall hid hcall' hcall] at hnone
    cases hnone

theorem Indexed.activity (h : Indexed s) {metadata : LeaseMetadata} {fresh id : String}
    (hfresh : fresh ∉ s.leases) (hs : s.activity metadata fresh = some (id, s')) :
    Indexed s' := by
  unfold GateState.activity at hs
  split at hs
  · cases hs
  · split at hs
    · obtain ⟨-, rfl⟩ := Prod.mk.inj (Option.some.inj hs)
      exact h
    · next hnone =>
      obtain ⟨-, rfl⟩ := Prod.mk.inj (Option.some.inj hs)
      -- The other leases are as before, and none of them is the fresh one.
      have hothers : ∀ {k m}, k ≠ fresh → ((s.leases.insert fresh metadata).lookup k = some m ↔
          s.leases.lookup k = some m) := by
        intro k m hk
        rw [AList.lookup_insert_ne hk]
      have hne : ∀ {k m}, s.leases.lookup k = some m → k ≠ fresh := by
        rintro k m hk rfl
        exact hfresh (AList.lookup_isSome.mp (by rw [hk]; rfl))
      intro call k
      cases hcall : leaseCall metadata with
      | none =>
        constructor
        · intro hentry
          obtain ⟨m, hm, hmc⟩ := (h call k).mp hentry
          exact ⟨m, (hothers (hne hm)).mpr hm, hmc⟩
        · rintro ⟨m, hm, hmc⟩
          by_cases hk : k = fresh
          · subst hk
            rw [AList.lookup_insert] at hm
            obtain rfl := Option.some.inj hm
            rw [hcall] at hmc
            cases hmc
          · exact (h call k).mpr ⟨m, (hothers hk).mp hm, hmc⟩
      | some own =>
        by_cases hown : call = own
        · subst hown
          simp only [AList.lookup_insert, Option.some.injEq]
          constructor
          · rintro rfl
            exact ⟨metadata, AList.lookup_insert _, hcall⟩
          · rintro ⟨m, hm, hmc⟩
            by_contra hk
            have hentry := (h call k).mpr ⟨m, (hothers (Ne.symm hk)).mp hm, hmc⟩
            rw [h.lookup_none hcall hnone] at hentry
            cases hentry
        · simp only [AList.lookup_insert_ne hown]
          constructor
          · intro hentry
            obtain ⟨m, hm, hmc⟩ := (h call k).mp hentry
            exact ⟨m, (hothers (hne hm)).mpr hm, hmc⟩
          · rintro ⟨m, hm, hmc⟩
            by_cases hk : k = fresh
            · subst hk
              rw [AList.lookup_insert] at hm
              obtain rfl := Option.some.inj hm
              rw [hcall] at hmc
              exact absurd (Option.some.inj hmc).symm hown
            · exact (h call k).mpr ⟨m, (hothers hk).mp hm, hmc⟩

/-- A release takes the lease, and no other. -/
theorem lookup_leases_release (s : GateState) (id k : String) :
    (s.release id).2.leases.lookup k = if k = id then none else s.leases.lookup k := by
  unfold GateState.release
  split
  · next hdead =>
    split
    · next hk => rw [hk, hdead]
    · rfl
  · change (s.leases.erase id).lookup k = _
    by_cases hk : k = id
    · rw [if_pos hk, hk, AList.lookup_erase]
    · rw [if_neg hk, AList.lookup_erase_ne hk]

/-- A release takes all entries of the lease from the index, and no other. -/
theorem Indexed.lookup_release (h : Indexed s) (id : String) (call : LeaseCall) :
    (s.release id).2.leasesByCall.lookup call =
      if s.leasesByCall.lookup call = some id then none else s.leasesByCall.lookup call := by
  unfold GateState.release
  split
  · next hdead =>
    split
    · next hentry =>
      obtain ⟨metadata, hlive, -⟩ := (h call id).mp hentry
      rw [hdead] at hlive
      cases hlive
    · rfl
  · next metadata hlive =>
    have howner : s.leasesByCall.lookup call = some id → leaseCall metadata = some call := by
      intro hentry
      obtain ⟨metadata', hlive', hcall'⟩ := (h call id).mp hentry
      rw [hlive] at hlive'
      rw [Option.some.inj hlive']
      exact hcall'
    cases hcall : leaseCall metadata with
    | none =>
      change s.leasesByCall.lookup call = _
      rw [if_neg]
      intro hentry
      rw [hcall] at howner
      cases howner hentry
    | some own =>
      have hown : s.leasesByCall.lookup own = some id := (h own id).mpr ⟨metadata, hlive, hcall⟩
      simp only [hown, if_true]
      by_cases hsame : call = own
      · rw [hsame, AList.lookup_erase, if_pos hown]
      · rw [AList.lookup_erase_ne hsame, if_neg]
        intro hentry
        rw [hcall] at howner
        exact hsame (Option.some.inj (howner hentry)).symm

theorem Indexed.release (h : Indexed s) (id : String) : Indexed (s.release id).2 := by
  intro call k
  rw [h.lookup_release]
  simp only [lookup_leases_release]
  constructor
  · intro hentry
    split at hentry
    · cases hentry
    · next hother =>
      obtain ⟨metadata, hlive, hcall⟩ := (h call k).mp hentry
      have hk : k ≠ id := by
        rintro rfl
        exact hother hentry
      exact ⟨metadata, (if_neg hk).trans hlive, hcall⟩
  · rintro ⟨metadata, hlive, hcall⟩
    split at hlive
    · cases hlive
    · next hk =>
      have hentry := (h call k).mpr ⟨metadata, hlive, hcall⟩
      rw [if_neg, hentry]
      rw [hentry]
      exact fun he => hk (Option.some.inj he)

/-- A timer that fires after its lease has ended does nothing. -/
theorem release_dead {id : String} (h : id ∉ s.leases) : (s.release id).2 = s := by
  apply release_eq_self
  rw [GateState.release, AList.lookup_eq_none.mpr h]

end GateState

namespace Gate

variable {Task : Type}

/-- The lease IDs that the activities bring along. -/
def freshIds (es : List (GateEvent Task)) : List String :=
  es.filterMap fun | .activity _ fresh => some fresh | _ => none

theorem freshIds_append (es fs : List (GateEvent Task)) :
    freshIds (es ++ fs) = freshIds es ++ freshIds fs := List.filterMap_append

/-- The invariant of the two maps; the live leases are among those drawn. -/
structure LeasesIndexed (es : List (GateEvent Task)) (g : Gate Task) : Prop where
  index : g.state.Indexed
  drawn : ∀ id, id ∈ g.state.leases → id ∈ freshIds es

variable [DecidableEq Task] {g g' : Gate Task}

/-- What a step can do to the leases: nothing, an activity, or a release. -/
theorem step_leases {e : GateEvent Task} (hs : g.step e = some g') :
    (g'.state.leases = g.state.leases ∧ g'.state.leasesByCall = g.state.leasesByCall) ∨
      (∃ metadata fresh id, e = .activity metadata fresh ∧
        g.state.activity metadata fresh = some (id, g'.state)) ∨
      ∃ id, g'.state = (g.state.release id).2 := by
  cases e with
  | draw task =>
    simp only [step] at hs
    split at hs
    · obtain rfl := Option.some.inj hs
      exact Or.inl ⟨rfl, rfl⟩
    · cases hs
  | enter task =>
    simp only [step] at hs
    split at hs
    · obtain ⟨s, hadmit, rfl⟩ := Option.map_eq_some_iff.mp hs
      obtain ⟨-, -, -, rfl⟩ := GateState.admitExclusive_eq_some hadmit
      exact Or.inl ⟨rfl, rfl⟩
    · cases hs
  | finish task =>
    simp only [step] at hs
    split at hs
    · obtain rfl := Option.some.inj hs
      exact Or.inl ⟨rfl, rfl⟩
    · cases hs
  | activity metadata fresh =>
    obtain ⟨⟨id, s⟩, hadmit, rfl⟩ := Option.map_eq_some_iff.mp hs
    exact Or.inr (Or.inl ⟨metadata, fresh, id, rfl, hadmit⟩)
  | release id =>
    obtain rfl := Option.some.inj hs
    exact Or.inr (Or.inr ⟨id, rfl⟩)
  | expire id =>
    obtain rfl := Option.some.inj hs
    exact Or.inr (Or.inr ⟨id, rfl⟩)

theorem LeasesIndexed.step {es : List (GateEvent Task)} (h : LeasesIndexed es g)
    {e : GateEvent Task} (hfresh : (freshIds (es ++ [e])).Nodup) (hs : g.step e = some g') :
    LeasesIndexed (es ++ [e]) g' := by
  have hold : ∀ id, id ∈ freshIds es → id ∈ freshIds (es ++ [e]) := by
    intro id hid
    rw [freshIds_append]
    exact List.mem_append_left _ hid
  rcases step_leases hs with ⟨hleases, hindex⟩ | ⟨metadata, fresh, id, rfl, hadmit⟩ | ⟨id, hrelease⟩
  · refine ⟨h.index.congr hleases hindex, fun id hid => ?_⟩
    rw [hleases] at hid
    exact hold id (h.drawn id hid)
  · have hnew : fresh ∉ freshIds es := by
      rw [freshIds_append] at hfresh
      intro hmem
      exact List.disjoint_of_nodup_append hfresh hmem (List.mem_singleton_self fresh)
    refine ⟨h.index.activity (fun hlive => hnew (h.drawn fresh hlive)) hadmit, fun k hk => ?_⟩
    obtain ⟨-, -, -, -, -, hmem, hid⟩ := GateState.activity_eq_some hadmit
    rcases (hmem k).mp hk with rfl | hk
    · rcases hid with ⟨hlive, -⟩ | rfl
      · exact hold k (h.drawn k hlive)
      · rw [freshIds_append]
        exact List.mem_append_right _ (List.mem_singleton_self k)
    · exact hold k (h.drawn k hk)
  · refine ⟨hrelease ▸ h.index.release id, fun k hk => ?_⟩
    rw [hrelease] at hk
    exact hold k (h.drawn k ((GateState.mem_leases_release ..).mp hk).2)

theorem leasesIndexed_of_run {es : List (GateEvent Task)} (hfresh : (freshIds es).Nodup)
    (hr : Runs.run step initial es = some g) : LeasesIndexed es g := by
  have hstep : ∀ es (g : Gate Task) e g', ((freshIds es).Nodup → LeasesIndexed es g) → True →
      step g e = some g' → (freshIds (es ++ [e])).Nodup → LeasesIndexed (es ++ [e]) g' := by
    intro es g e g' h _ hs hnodup
    have hprefix : (freshIds es).Nodup := by
      rw [freshIds_append] at hnodup
      exact hnodup.of_append_left
    exact (h hprefix).step hnodup hs
  have h0 : (freshIds ([] : List (GateEvent Task))).Nodup → LeasesIndexed [] (initial : Gate Task) :=
    fun _ => ⟨GateState.indexed_initial, fun id hid => absurd hid (AList.notMem_empty id)⟩
  exact Runs.run_history hstep h0 (Runs.Steps.of_forall (fun _ _ _ => trivial) _) hr hfresh

/-- A lease that has ended does not come back. -/
theorem dead_of_run {es more : List (GateEvent Task)} {id : String} (hid : id ∈ freshIds es)
    (hfresh : (freshIds (es ++ more)).Nodup) (hr : Runs.run step g more = some g')
    (hdead : id ∉ g.state.leases) : id ∉ g'.state.leases := by
  have hstep : ∀ fs (u : Gate Task) e v, ((freshIds (es ++ fs)).Nodup → id ∉ u.state.leases) →
      True → step u e = some v → (freshIds (es ++ (fs ++ [e]))).Nodup → id ∉ v.state.leases := by
    intro fs u e v h _ hs hnodup hlive
    have hprefix : (freshIds (es ++ fs)).Nodup := by
      rw [← List.append_assoc, freshIds_append] at hnodup
      exact hnodup.of_append_left
    have hbefore : id ∉ u.state.leases := h hprefix
    rcases step_leases hs with ⟨hleases, -⟩ | ⟨metadata, fresh, k, rfl, hadmit⟩ | ⟨k, hrelease⟩
    · rw [hleases] at hlive
      exact hbefore hlive
    · obtain ⟨-, -, -, -, -, hmem, hk⟩ := GateState.activity_eq_some hadmit
      rcases (hmem id).mp hlive with rfl | hlive
      · rcases hk with ⟨hlive, -⟩ | rfl
        · exact hbefore hlive
        · rw [freshIds_append, freshIds_append] at hnodup
          exact List.disjoint_of_nodup_append hnodup hid
            (List.mem_append_right _ (List.mem_singleton_self id))
      · exact hbefore hlive
    · rw [hrelease] at hlive
      exact hbefore ((GateState.mem_leases_release ..).mp hlive).2
  exact Runs.run_history hstep (fun _ => hdead) (Runs.Steps.of_forall (fun _ _ _ => trivial) _) hr
    hfresh

/-- In every reachable state the index is exactly the map from the calls to the
live leases that carry one, and no two live leases share a call. So a live call
gets its lease again; a release or a timer takes one lease with all its
entries; and the timer of a lease that has ended does nothing in any later
state. -/
theorem leases_by_call_exact {es : List (GateEvent Task)} {g : Gate Task}
    (hfresh : (freshIds es).Nodup) (hr : Runs.run step initial es = some g) :
    (∀ call id, g.state.leasesByCall.lookup call = some id ↔
      ∃ metadata, g.state.leases.lookup id = some metadata ∧ leaseCall metadata = some call) ∧
    (∀ id id' metadata metadata' call, g.state.leases.lookup id = some metadata →
      g.state.leases.lookup id' = some metadata' → leaseCall metadata = some call →
      leaseCall metadata' = some call → id = id') ∧
    (∀ id metadata metadata' call fresh, g.state.leases.lookup id = some metadata →
      leaseCall metadata = some call → leaseCall metadata' = some call →
      g.state.activity metadata' fresh =
        if g.state.exclusive then none else some (id, g.state)) ∧
    (∀ id k, (g.state.release id).2.leases.lookup k =
      if k = id then none else g.state.leases.lookup k) ∧
    (∀ id call, (g.state.release id).2.leasesByCall.lookup call =
      if g.state.leasesByCall.lookup call = some id then none
      else g.state.leasesByCall.lookup call) ∧
    ∀ more g', (freshIds (es ++ more)).Nodup → Runs.run step g more = some g' →
      ∀ id ∈ freshIds es, id ∉ g.state.leases → (g'.state.release id).2 = g'.state := by
  have h := leasesIndexed_of_run hfresh hr
  refine ⟨h.index, fun id id' metadata metadata' call => h.index.unique, ?_,
    GateState.lookup_leases_release g.state, h.index.lookup_release, ?_⟩
  · intro id metadata metadata' call fresh hid hcall hcall'
    rw [GateState.activity, h.index.leaseOfCall hid hcall hcall']
  · intro more g' hmore hr' id hid hdead
    exact GateState.release_dead (dead_of_run hid hmore hr' hdead)

/-- A lease ends and its call is acquired again; the timer of the first lease
then fires. -/
theorem leases_by_call_exact_two :
    let call : LeaseMetadata := ⟨some "session", some "call"⟩
    let es : List (GateEvent ℕ) := [.activity call "first", .release "first"]
    ∃ g g' : Gate ℕ, Runs.run step initial es = some g ∧
      Runs.run step g [.activity call "second"] = some g' ∧
      g'.state.leasesByCall.lookup ⟨"session", "call"⟩ = some "second" ∧
      (g'.state.release "first").2 = g'.state := by
  intro call es
  have hrun : ∃ g g' : Gate ℕ, Runs.run step initial es = some g ∧
      "first" ∉ g.state.leases ∧ Runs.run step g [.activity call "second"] = some g' ∧
      g'.state.leasesByCall.lookup ⟨"session", "call"⟩ = some "second" :=
    ⟨_, _, rfl, by decide, rfl, by decide⟩
  obtain ⟨g, g', hr, hdead, hr', hentry⟩ := hrun
  obtain ⟨-, -, -, -, -, hlate⟩ := leases_by_call_exact (by decide) hr
  exact ⟨g, g', hr, hr', hentry, hlate _ g' (by decide) hr' "first" (by decide) hdead⟩

end Gate

end Resync
