import Resync.DaemonSteps
import Resync.HostedForward

/-! Reconciliation mode is one value of a field that refreshes, merges and error
handlers all write. It lasts until a `sync` succeeds exactly as long as the other
writers happen to stay away. -/
namespace Resync

variable {Oid Task : Type}

/-- The publication whose delivery has passed the check of the project's state
and may come to its push. -/
def Delivery.checked : Delivery Oid → Option (Publication Oid)
  | .projected _ d _ | .validating _ d _ | .validated _ d _ => some d
  | _ => none

namespace DaemonWorld

/-- The project at position `i` is in reconciliation mode. -/
def Conflicted (w : DaemonWorld Oid Task) (i : ℕ) : Prop :=
  ∃ p, w.publish.catalog.projects[i]? = some p ∧ p.state = .conflicted

/-- No publication of the project at position `i` is about to be pushed. -/
def Paused (w : DaemonWorld Oid Task) (i : ℕ) : Prop :=
  ∀ d ∈ w.publish.delivery.checked, w.position d.projectId ≠ some i

section Steps

variable [DecidableEq Oid]

/-- A `sync` request for the project at position `i` is answered with `applied`
or `current`. -/
def SyncEnds (w : DaemonWorld Oid Task) (i : ℕ) (e : DaemonEvent Oid Task) : Prop :=
  ∃ m ∈ w.merging e, m.caller = .sync ∧ m.persisted = true ∧
    (m.outcome = .applied ∨ m.outcome = .current) ∧ w.position m.name = some i

/-- What may happen to a project in reconciliation mode: a refresh finds it
active and fetches its branch. A reconciliation that merges is answered with a
conflict again, or it is a `sync`, its installation is not refused, and
`catalog.json` is written. While a delivery is about to push, no conflict is
merged. -/
def KeepsMode (w : DaemonWorld Oid Task) : DaemonEvent Oid Task → Prop
  | .publish (.call task (.refreshHead answer)) =>
    match w.publish.calls task with
    | .refreshing name _ => ∀ p ∈ findProject w.publish.catalog name,
        p.state = .conflicted → answer.finding = .active
    | _ => True
  | e => ∀ m ∈ w.merging e, ∀ p ∈ findProject w.publish.catalog m.name,
      (p.state = .conflicted → m.outcome = .conflict ∨
        m.caller = .sync ∧ m.persisted = true ∧ m.outcome ≠ .retry) ∧
      (p.state ≠ .conflicted → m.outcome = .conflict →
        ∀ d ∈ w.publish.delivery.checked, w.position d.projectId ≠ w.position m.name)

/-- What a complete result says is what its staged record says. -/
def Consistent : Reconciliation Oid → Prop
  | .complete _ _ staged result _ _ _ =>
    (result.outcome = .current ∧ staged.state = .current) ∨
      (result.outcome = .conflict ∧ staged.state = .conflicted)
  | _ => True

/-- The invariant: results are consistent, and a project in reconciliation mode
is not being pushed. -/
structure ModeKept (w : DaemonWorld Oid Task) : Prop where
  consistent : ∀ task, Consistent (w.reconciling task)
  paused : ∀ i, w.Conflicted i → w.Paused i

variable {G : CommitGraph Oid} [DecidableEq Task] {w w' : DaemonWorld Oid Task} {i : ℕ}

omit [DecidableEq Task] in
theorem refreshRecord_conflicted {publish : PublishWorld Oid Task} {b : Branch}
    {answer : RefreshAnswer Oid} {p : LocalProject Oid} (hanswer : answer.finding = .active)
    (h : p.state = .conflicted) :
    (publish.refreshRecord G b answer p).state = .conflicted := by
  cases answer with
  | accessLost error => cases hanswer
  | offline generation error => cases hanswer
  | online generation head =>
    have hadvertised : (publish.advertise p b generation head).state = .conflicted := h
    simp only [PublishWorld.refreshRecord]
    split
    · exact hadvertised
    · simp only [PublishWorld.refreshed, hadvertised, ↓reduceIte]
      split
      · rfl
      · exact hadvertised

omit [DecidableEq Task] in
/-- What a merge says about its outcome is what it writes. -/
theorem merging_state (h : ∀ task, Consistent (w.reconciling task)) {e : DaemonEvent Oid Task}
    {m : Merging Oid} (hm : w.merging e = some m) :
    m.staged.state = match m.outcome with
      | .applied | .current => .current
      | .conflict => .conflicted
      | .retry => .remoteAhead := by
  rcases merging_cases hm with ⟨task, persisted, caller, name, staged, result, expected, branch,
      target, project, -, hplace, -, -, rfl⟩ | ⟨task, installed, cleared, persisted, caller, name,
      p, candidate, project, result, staged, -, -, -, -, -, happly, rfl⟩
  · have hcons := h task
    rw [hplace] at hcons
    rcases hcons with ⟨ho, hs⟩ | ⟨ho, hs⟩
    · simp only [ho, hs]
    · simp only [ho, hs]
  · exact applyReconciliationResult_state happly

omit [DecidableEq Task] in
/-- So a merge starts the mode with a conflict only. -/
theorem merging_conflict (h : ∀ task, Consistent (w.reconciling task))
    {e : DaemonEvent Oid Task} {m : Merging Oid} (hm : w.merging e = some m) :
    m.staged.state = .conflicted ↔ m.outcome = .conflict := by
  rw [merging_state h hm]
  cases m.outcome <;> decide

omit [DecidableEq Task] in
/-- What the condition says about a merge. -/
theorem KeepsMode.merge {e : DaemonEvent Oid Task} (h : KeepsMode w e) {m : Merging Oid}
    (hm : w.merging e = some m) {p : LocalProject Oid}
    (hp : findProject w.publish.catalog m.name = some p) :
    (p.state = .conflicted → m.outcome = .conflict ∨
      m.caller = .sync ∧ m.persisted = true ∧ m.outcome ≠ .retry) ∧
    (p.state ≠ .conflicted → m.outcome = .conflict →
      ∀ d ∈ w.publish.delivery.checked, w.position d.projectId ≠ w.position m.name) := by
  rcases merging_cases hm with ⟨task, persisted, _, _, _, _, _, _, _, _, rfl, -⟩ |
    ⟨task, installed, cleared, persisted, _, _, _, _, _, _, _, rfl, -⟩
  · exact h m hm p hp
  · exact h m hm p hp

/-- While the condition holds, only a successful `sync` ends the mode. -/
theorem step_conflicted (hinv : ModeKept w) {e : DaemonEvent Oid Task} (hok : KeepsMode w e)
    (hsync : ¬ SyncEnds w i e) (hs : w.step G e = some w') (h : w.Conflicted i) :
    w'.Conflicted i := by
  obtain ⟨p, hp, hstate⟩ := h
  obtain ⟨q, hq, hrecord⟩ := step_record hs hp
  refine ⟨q, hq, ?_⟩
  cases hrecord with
  | keeps hkeep => exact hkeep.state.trans hstate
  | completed => exact hstate
  | noted =>
    have hne : ¬ p.state = .reconciling := by
      rw [hstate]
      decide
    rw [if_neg hne]
    exact hstate
  | @refreshed task name branch answer _ _ hcall hi =>
    rw [KeepsMode, hcall] at hok
    exact refreshRecord_conflicted (hok p (findProject_of_position hi hp) hstate) hstate
  | @merged _ m _ _ hm hi =>
    change m.staged.state = .conflicted
    have hfound : findProject w.publish.catalog m.name = some p :=
      findProject_of_position hi hp
    rcases (hok.merge hm hfound).1 hstate with hconflict | ⟨hcaller, hpersisted, hretry⟩
    · exact (merging_conflict hinv.consistent hm).mpr hconflict
    · -- a merge of a sync that is not refused is the end of the sync, or a conflict
      have hwrites := merging_state hinv.consistent hm
      cases ho : m.outcome with
      | applied => exact absurd ⟨m, hm, hcaller, hpersisted, Or.inl ho, hi⟩ hsync
      | current => exact absurd ⟨m, hm, hcaller, hpersisted, Or.inr ho, hi⟩ hsync
      | retry => exact absurd ho hretry
      | conflict => rw [hwrites, ho]

omit [DecidableEq Task] in
theorem refreshRecord_state_ne {publish : PublishWorld Oid Task} {b : Branch}
    {answer : RefreshAnswer Oid} {p : LocalProject Oid} (h : p.state ≠ .conflicted) :
    (publish.refreshRecord G b answer p).state ≠ .conflicted := by
  cases answer with
  | accessLost error => exact fun h => by cases h
  | offline generation error => exact fun h => by cases h
  | online generation head =>
    have hadvertised : (publish.advertise p b generation head).state ≠ .conflicted := h
    simp only [PublishWorld.refreshRecord]
    split
    · exact hadvertised
    · next localHead _ =>
      have hrefreshed : (PublishWorld.refreshed G (publish.advertise p b generation head) b
          localHead).1.state ≠ .conflicted := by
        rw [PublishWorld.refreshed, if_neg hadvertised]
        split
        · exact fun h => by cases h
        · split
          · exact fun h => by cases h
          · split <;> exact fun h => by cases h
      split
      · exact hrefreshed
      · exact hrefreshed

omit [DecidableEq Task] in
/-- A delivery passes its check only for a project that is not in the mode. -/
theorem deliver_checked {publish publish' : PublishWorld Oid Task} {e : DeliveryEvent Oid}
    (h : publish.deliver G e = some publish') {d : Publication Oid}
    (hd : d ∈ publish'.delivery.checked) :
    d ∈ publish.delivery.checked ∨ publish'.catalog = publish.catalog ∧
      ∃ p, findProject publish.catalog d.projectId = some p ∧ p.state ≠ .conflicted := by
  cases PublishWorld.deliveryStep_of_deliver h with
  | projects place found state =>
    obtain rfl := Option.mem_some.mp hd
    exact Or.inr ⟨rfl, _, found, state⟩
  | fetchesExpected place | validates place =>
    rw [place]
    exact Or.inl hd
  | @pushes a p project answered => cases answered <;> cases hd
  | _ => cases hd

/-- Whatever the step, only the delivery's own check lets a push come near. -/
theorem step_checked {e : DaemonEvent Oid Task} (hs : w.step G e = some w')
    {d : Publication Oid} (hd : d ∈ w'.publish.delivery.checked) :
    d ∈ w.publish.delivery.checked ∨ w'.publish.catalog = w.publish.catalog ∧
      ∃ p, findProject w.publish.catalog d.projectId = some p ∧ p.state ≠ .conflicted := by
  cases e with
  | publish e =>
    have hstep := (publishes_step hs).1
    cases e with
    | user e =>
      rw [(PublishWorld.user_frame hstep).1.delivery] at hd
      exact Or.inl hd
    | call task e =>
      rw [(PublishWorld.call_cases hstep).1.delivery] at hd
      exact Or.inl hd
    | deliver e => exact deliver_checked hstep hd
    | writeProject name record => cases hs
    | install path b new old => cases hs
    | restart =>
      rw [← Option.some.inj hstep] at hd
      cases hd
  | reconcile task e =>
    have hsame : w'.publish.delivery = w.publish.delivery → d ∈ w.publish.delivery.checked :=
      fun hdelivery => hdelivery ▸ hd
    cases reconcile_publish hs with
    | stays same | merges _ same | notes _ same =>
      exact Or.inl (hsame (congrArg (·.delivery) same))
    | installs _ moves => exact Or.inl (hsame moves.delivery)
    | installsResult _ moves _ same =>
      exact Or.inl (hsame ((congrArg (·.delivery) same).trans moves.delivery))
    | answers _ _ delivers => exact deliver_checked delivers hd

/-- A step other than a merge does not start the mode. -/
theorem step_starts {e : DaemonEvent Oid Task} (hs : w.step G e = some w')
    (h : w'.Conflicted i) : w.Conflicted i ∨ ∃ m p, w.merging e = some m ∧
      w.position m.name = some i ∧ findProject w.publish.catalog m.name = some p ∧
      p.state ≠ .conflicted ∧ m.staged.state = .conflicted := by
  obtain ⟨q, hq, hstate⟩ := h
  obtain ⟨p, hp, hrecord⟩ := (step_writes hs).record_back (fun _ p => .keeps (KeepsResult.refl p)) hq
  by_cases hc : p.state = .conflicted
  · exact Or.inl ⟨p, hp, hc⟩
  · cases hrecord with
    | keeps hkeep => exact absurd (hkeep.state.symm.trans hstate) hc
    | completed => exact absurd hstate hc
    | noted =>
      simp only at hstate
      split at hstate
      · cases hstate
      · exact absurd hstate hc
    | refreshed => exact absurd hstate (refreshRecord_state_ne hc)
    | @merged _ m _ _ hm hi =>
      exact Or.inr ⟨m, p, hm, hi, findProject_of_position hi hp, hc, hstate⟩

theorem step_consistent (h : ∀ task, Consistent (w.reconciling task)) {e : DaemonEvent Oid Task}
    (hs : w.step G e = some w') (task : Option Task) : Consistent (w'.reconciling task) := by
  cases e with
  | publish e =>
    rcases (publishes_step hs).2 with hsame | hidle
    · rw [hsame]
      exact h task
    · rw [hidle]
      trivial
  | reconcile task' e =>
    obtain ⟨r, hw, hplace⟩ := reconcile_place hs
    rw [hw]
    by_cases htask : task = task'
    · subst htask
      rw [Function.update_self]
      cases hplace with
      | complete _ hprepare => exact prepareProjectReconciliation_consistent G hprepare
      | waits hcopy =>
        cases r with
        | complete => cases hcopy
        | _ => trivial
      | _ => trivial
    · rw [Function.update_of_ne htask]
      exact h task

/-- The invariant is kept by the steps that meet the condition. -/
theorem ModeKept.step (h : ModeKept w) {e : DaemonEvent Oid Task} (hok : KeepsMode w e)
    (hs : w.step G e = some w') : ModeKept w' where
  consistent := step_consistent h.consistent hs
  paused i hi d hd hposition := by
    rw [step_position hs] at hposition
    rcases step_checked hs hd with hold | ⟨hcatalog, p, hp, hstate⟩
    · rcases step_starts hs hi with hconflicted | ⟨m, p, hm, hmi, hp, hstate, hstaged⟩
      · exact h.paused i hconflicted d hold hposition
      · have hconflict : m.outcome = .conflict := (merging_conflict h.consistent hm).mp hstaged
        exact (hok.merge hm hp).2 hstate hconflict d hold (hposition.trans hmi.symm)
    · obtain ⟨q, hq, hconflicted⟩ := hi
      rw [hcatalog] at hq
      obtain ⟨j, hj, hget⟩ := findProject_eq_some.mp hp
      obtain rfl := Option.some.inj (hj.symm.trans hposition)
      obtain rfl := Option.some.inj (hget.symm.trans hq)
      exact hstate hconflicted

omit [DecidableEq Oid] [DecidableEq Task] in
theorem ModeKept.initial {publish : PublishWorld Oid Task} (h : publish.delivery = .idle) :
    ModeKept (DaemonWorld.initial publish) where
  consistent _ := trivial
  paused i _ d hd := by
    change d ∈ publish.delivery.checked at hd
    rw [h] at hd
    cases hd

/-- In every run whose steps meet the condition: from any state `u` that it
reaches on, a project in reconciliation mode stays there, and its publications
stay paused, until a `sync` for it ends with `applied` or `current`. -/
theorem conflicted_until_sync {publish : PublishWorld Oid Task} (h0 : publish.delivery = .idle)
    {done more : List (DaemonEvent Oid Task)} {u v : DaemonWorld Oid Task}
    (hok : Runs.Steps (step G) KeepsMode (DaemonWorld.initial publish) (done ++ more))
    (hu : Runs.run (step G) (DaemonWorld.initial publish) done = some u) {i : ℕ}
    (hi : u.Conflicted i) (hsync : Runs.Steps (step G) (fun w e => ¬ SyncEnds w i e) u more)
    (hv : Runs.run (step G) u more = some v) : v.Conflicted i ∧ v.Paused i := by
  obtain ⟨hdone, hmore⟩ := hok.of_append
  have hkept : ModeKept u := Runs.run_invariant (fun w e w' h hok hs => h.step hok hs)
    (ModeKept.initial h0) hdone hu
  have hstep : ∀ (w : DaemonWorld Oid Task) e w', ModeKept w ∧ w.Conflicted i →
      KeepsMode w e ∧ ¬ SyncEnds w i e → step G w e = some w' →
        ModeKept w' ∧ w'.Conflicted i := by
    rintro w e w' ⟨hw, hwi⟩ ⟨hok, hsync⟩ hs
    exact ⟨hw.step hok hs, step_conflicted hw hok hsync hs hwi⟩
  have hend := Runs.run_invariant hstep ⟨hkept, hi⟩ ((hmore u hu).and hsync) hv
  exact ⟨hend.2, hend.1.paused i hend.2⟩

end Steps

end DaemonWorld

section OneProject

/-- The project of `currentMain` in reconciliation mode. -/
def conflictedMain : PublishWorld ℕ (Fin 2) :=
  { currentMain with catalog := ⟨0, [{ currentProject with state := .conflicted }]⟩ }

theorem conflicted_conflictedMain :
    (DaemonWorld.initial conflictedMain).Conflicted 0 := ⟨_, rfl, rfl⟩

/-- A refresh of the project. -/
def refreshMain (task : Fin 2) (answer : RefreshAnswer ℕ) : List (DaemonEvent ℕ (Fin 2)) :=
  [.publish (.call task (.refreshBranch "prj")), .publish (.call task (.refreshHead answer))]

/-- No step of a refresh is the end of a `sync`. -/
theorem refreshMain_not_sync (task : Fin 2) (answer : RefreshAnswer ℕ)
    (w : DaemonWorld ℕ (Fin 2)) (i : ℕ) : Runs.Steps (DaemonWorld.step pairGraph)
      (fun w e => ¬ DaemonWorld.SyncEnds w i e) w (refreshMain task answer) := by
  refine Runs.Steps.of_forall (fun e he w hsync => ?_) w
  obtain ⟨m, hm, -⟩ := hsync
  rcases List.mem_cons.mp he with rfl | he
  · cases hm
  · rw [List.mem_singleton.mp he] at hm
    cases hm

theorem refreshMain_keeps (task : Fin 2) (w : DaemonWorld ℕ (Fin 2)) :
    Runs.Steps (DaemonWorld.step pairGraph) DaemonWorld.KeepsMode w
      (refreshMain task (.online 0 none)) := by
  refine Runs.Steps.of_forall (fun e he w => ?_) w
  rcases List.mem_cons.mp he with rfl | he
  · exact fun m hm => by cases hm
  · rw [List.mem_singleton.mp he, DaemonWorld.KeepsMode]
    split
    · exact fun p _ _ => rfl
    · trivial

theorem conflicted_until_sync_two :
    (Runs.run (DaemonWorld.step pairGraph) (DaemonWorld.initial conflictedMain)
      (refreshMain 0 (.online 0 none))).isSome = true ∧
    ∀ v, Runs.run (DaemonWorld.step pairGraph) (DaemonWorld.initial conflictedMain)
      (refreshMain 0 (.online 0 none)) = some v → v.Conflicted 0 ∧ v.Paused 0 := by
  refine ⟨by decide +kernel, fun v hv => ?_⟩
  exact DaemonWorld.conflicted_until_sync rfl
    (refreshMain_keeps 0 _ : Runs.Steps _ _ _ ([] ++ refreshMain 0 (.online 0 none)))
    (Runs.run_nil _ (DaemonWorld.initial conflictedMain)) conflicted_conflictedMain
    (refreshMain_not_sync ..) hv

/-- A fetch that fails takes the project out of the mode. -/
theorem failed_fetch_ends_mode : (DaemonWorld.initial conflictedMain).Conflicted 0 ∧
    Runs.Steps (DaemonWorld.step pairGraph) (fun w e => ¬ DaemonWorld.SyncEnds w 0 e)
      (DaemonWorld.initial conflictedMain) (refreshMain 0 (.offline 0 "no route to host")) ∧
    ∃ v, Runs.run (DaemonWorld.step pairGraph) (DaemonWorld.initial conflictedMain)
        (refreshMain 0 (.offline 0 "no route to host")) = some v ∧
      v.publish.catalog.projects.map (·.state) = [.offline] ∧ ¬ v.Conflicted 0 := by
  refine ⟨conflicted_conflictedMain, refreshMain_not_sync .., ?_⟩
  have htest : ((Runs.run (DaemonWorld.step pairGraph) (DaemonWorld.initial conflictedMain)
      (refreshMain 0 (.offline 0 "no route to host"))).map fun v =>
        v.publish.catalog.projects.map (·.state)) = some [.offline] := by decide +kernel
  obtain ⟨v, hv, hstates⟩ := Option.map_eq_some_iff.mp htest
  refine ⟨v, hv, hstates, ?_⟩
  rintro ⟨p, hp, hstate⟩
  have hmem : p.state ∈ v.publish.catalog.projects.map (·.state) :=
    List.mem_map_of_mem (List.mem_of_getElem? hp)
  rw [hstates, hstate] at hmem
  exact absurd (List.mem_singleton.mp hmem) (by decide)

end OneProject

end Resync
