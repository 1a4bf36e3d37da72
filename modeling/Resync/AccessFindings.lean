import Resync.ReconciliationMode

/-! A refresh and a reconciliation write the same state from different
knowledge: the provider's answer and the fetch, or the hosted heads that the
catalog has cached. A project that the last refresh has not found active and
fetched is not `CURRENT` as long as HEAD does not have the cached head, and
nothing is installed. -/
namespace Resync

variable {Oid Task : Type}

section Preparations

variable [DecidableEq Oid] {G : CommitGraph Oid}

/-- HEAD has the hosted head that the record has cached for the branch, or no
head is cached. -/
def HasCached (G : CommitGraph Oid) (project : LocalProject Oid) (branch : Branch)
    (head : Option Oid) : Prop :=
  ∀ target ∈ project.advertisedHeads branch, ∃ h ∈ head, h = target ∨ G.isAncestor target h = true

/-- The base of a rebase is not its target. -/
theorem reconciliationBase_ne {project : LocalProject Oid} {branch : Branch}
    {target head base : Oid} (hhead : head ≠ target)
    (h : reconciliationBase G project branch target head = some base) : base ≠ target := by
  have hancestor : ∀ {b : Oid}, (if G.isAncestor head target then some head else none) = some b →
      b ≠ target := by
    intro b hb
    split at hb
    · exact Option.some.inj hb ▸ hhead
    · cases hb
  unfold reconciliationBase at h
  split at h
  · split at h
    · exact hancestor h
    · next hne => exact Option.some.inj h ▸ hne
  · exact hancestor h

/-- Without an installation a preparation finds `current` only where HEAD has
the cached head, and the old records can be removed. -/
theorem prepared_current {rebase : Rebase Oid} {branch actual : Branch} {head : Option Oid}
    {cleared : Bool} {record staged : LocalProject Oid} {result : ReconcileResult Oid}
    {expected : ℕ} {target : Option Oid}
    (h : prepareProjectReconciliation G (rebase.answers branch head cleared) record =
      some (.complete staged result expected actual target)) (ho : result.outcome = .current) :
    cleared = true ∧ HasCached G record branch head := by
  unfold prepareProjectReconciliation at h
  obtain ⟨found, hfound, h⟩ := Option.bind_eq_some_iff.mp h
  obtain rfl : branch = found := Option.some.inj hfound
  dsimp only at h
  split at h
  · next hnone =>
    split at h
    · next hcleared =>
      refine ⟨hcleared, fun target htarget => ?_⟩
      rw [hnone] at htarget
      cases htarget
    · cases h
  · next target hsome =>
    obtain ⟨localHead, hhead, h⟩ := Option.bind_eq_some_iff.mp h
    split at h
    · next hhas =>
      split at h
      · next hcleared =>
        refine ⟨hcleared, fun other hother => ⟨localHead, hhead, ?_⟩⟩
        obtain rfl := Option.some.inj (hsome.symm.trans hother)
        exact hhas
      · cases h
    · next hhas =>
      split at h
      · cases h
        cases ho
      · next base hbase =>
        have hne : base ≠ target := reconciliationBase_ne (fun heq => hhas (Or.inl heq)) hbase
        obtain ⟨prepared, hprepared, h⟩ := Option.bind_eq_some_iff.mp h
        simp only [Rebase.answers, Rebase.answer, if_neg hne] at hprepared
        cases rebase with
        | failed => cases hprepared
        | ready candidate =>
          cases hprepared
          cases h
        | conflict detail =>
          cases hprepared
          obtain ⟨applied, -, h⟩ := Option.bind_eq_some_iff.mp h
          cases h
          cases ho

end Preparations

namespace DaemonWorld

/-- The last refresh that looked at the project at position `i` did not find it
active, or could not fetch its branch. -/
def Unknown (w : DaemonWorld Oid Task) (i : ℕ) : Prop :=
  ∃ f, w.findings i = some f ∧ f ≠ .active

/-- A reconciliation of the project at position `i` has found HEAD at the
cached head, and waits for its merge. -/
def WaitsCurrent (w : DaemonWorld Oid Task) (i : ℕ) : Prop :=
  ∃ task caller name staged result expected branch target,
    w.reconciling task = .complete caller name staged result expected branch target ∧
      w.position name = some i ∧ result.outcome = .current

/-- What a refresh has found out stands: in the record, and no reconciliation
is about to write over it. -/
structure FindingsStand (w : DaemonWorld Oid Task) : Prop where
  record : ∀ i, w.Unknown i → ∀ p, w.publish.catalog.projects[i]? = some p → p.state ≠ .current
  waits : ∀ i, w.Unknown i → ¬ w.WaitsCurrent i

section Steps

variable [DecidableEq Oid]

/-- A `sync` request for the project at position `i` is answered with
`current`. -/
def ReportsCurrent (w : DaemonWorld Oid Task) (i : ℕ) (e : DaemonEvent Oid Task) : Prop :=
  ∃ m ∈ w.merging e, m.caller = .sync ∧ m.persisted = true ∧ m.outcome = .current ∧
    w.position m.name = some i

/-- What may happen to a project that the last refresh has not found active and
fetched: when a reconciliation prepares, HEAD does not have the cached head, and
what it has prepared is not installed. No refresh ends with such a finding while
a reconciliation that has found HEAD at the cached head waits for its merge. -/
def KeepsFindings (G : CommitGraph Oid) (w : DaemonWorld Oid Task) : DaemonEvent Oid Task → Prop
  | .publish (.call task (.refreshHead answer)) =>
    match w.publish.calls task with
    | .refreshing name _ =>
      answer.finding ≠ .active → ∀ i, w.position name = some i → ¬ w.WaitsCurrent i
    | _ => True
  | .reconcile task (.prepare cleared _) =>
    match w.reconciling task with
    | .located _ name project branch =>
      ∀ i, w.position name = some i → w.Unknown i → cleared = true →
        ¬ HasCached G project branch (w.publish.checkouts project.localPath).headCommit
    | _ => True
  | .reconcile task (.install installed cleared _) =>
    match w.reconciling task with
    | .prepared _ name p _ =>
      ∀ i, w.position name = some i → w.Unknown i → cleared = true →
        ∀ project ∈ findProject w.publish.catalog name, AccessWorld.stillWanted project p
          (w.publish.checkouts project.localPath).headBranch = true →
            ∀ changedPaths, installed ≠ .applied changedPaths
    | _ => True
  | _ => True

variable {G : CommitGraph Oid} [DecidableEq Task] {w w' : DaemonWorld Oid Task} {i : ℕ}

/-- The record of a refresh that has its answer. -/
theorem refreshed_record {task : Task} {name : String} {b : Branch} {answer : RefreshAnswer Oid}
    (hcall : w.publish.calls task = .refreshing name b)
    (hs : w.step G (.publish (.call task (.refreshHead answer))) = some w')
    (hi : w.position name = some i) {p : LocalProject Oid}
    (hp : w.publish.catalog.projects[i]? = some p) :
    w'.publish.catalog.projects[i]? = some (w.publish.refreshRecord G b answer p) := by
  have hfound : findProject w.publish.catalog name = some p := findProject_of_position hi hp
  have hstep : w.publishes G (.call task (.refreshHead answer)) = some w' := hs
  rcases PublishWorld.refreshHead_writes hcall (publishes_step hstep).1 with ⟨hnone, -⟩ |
    ⟨f, hcatalog, hf⟩
  · rw [hnone] at hfound
    cases hfound
  · rw [hcatalog, record_updateProject hp, ← hf p hfound]
    exact congrArg some (if_pos hi)

theorem reconcile_findings {task : Option Task} {e : ReconcileEvent Oid}
    (hs : w.reconcile G task e = some w') : w'.findings = w.findings := by
  cases reconcileStep_of_reconcile hs with
  | _ => rfl

/-- Only a refresh that has its answer finds out something, and that about one
project. -/
theorem step_findings {e : DaemonEvent Oid Task} (hs : w.step G e = some w') :
    (w'.findings i = w.findings i ∧ ∀ task name b answer,
      e = .publish (.call task (.refreshHead answer)) →
        w.publish.calls task = .refreshing name b → w.position name ≠ some i) ∨
    ∃ task name b answer, e = .publish (.call task (.refreshHead answer)) ∧
      w.publish.calls task = .refreshing name b ∧ w.position name = some i ∧
      w'.findings i = some answer.finding := by
  cases e with
  | reconcile task e =>
    exact Or.inl ⟨congrFun (reconcile_findings hs) i, fun _ _ _ _ h => by cases h⟩
  | publish e =>
    simp only [step, publishes] at hs
    split at hs
    · cases hs
    · cases hs
    · cases hs
    · obtain ⟨u, -, rfl⟩ := Option.map_eq_some_iff.mp hs
      exact Or.inl ⟨rfl, fun _ _ _ _ h => by cases h⟩
    · next task answer =>
      split at hs
      · next name b hcall =>
        obtain ⟨u, -, rfl⟩ := Option.map_eq_some_iff.mp hs
        -- The answer is about the project of the refresh: that is the project `i`, or `i`
        -- keeps its finding.
        by_cases hname : w.position name = some i
        · refine Or.inr ⟨task, name, b, answer, rfl, hcall, hname, ?_⟩
          rw [setPublish, note, hname]
          exact Function.update_self ..
        · refine Or.inl ⟨?_, ?_⟩
          · rw [setPublish, note]
            split
            · next j hj =>
              refine Function.update_of_ne (fun hij => hname ?_) ..
              rw [hij]
              exact hj
            · rfl
          · intro task' name' b' answer' he hcall'
            cases he
            rw [hcall] at hcall'
            cases hcall'
            exact hname
      · cases hs
    · next hother =>
      obtain ⟨u, -, rfl⟩ := Option.map_eq_some_iff.mp hs
      exact Or.inl ⟨rfl, fun task name b answer he _ _ => by
        cases he
        exact hother task answer rfl⟩

omit [DecidableEq Task] in
/-- What a refresh finds out it also writes. -/
theorem refreshRecord_not_current {publish : PublishWorld Oid Task} {b : Branch}
    {answer : RefreshAnswer Oid} {p : LocalProject Oid} (h : answer.finding ≠ .active) :
    (publish.refreshRecord G b answer p).state ≠ .current := by
  cases answer with
  | accessLost error => exact fun h => by cases h
  | offline generation error => exact fun h => by cases h
  | online generation head => exact absurd rfl h

omit [DecidableEq Task] in
/-- A merge that writes `CURRENT` is of a reconciliation that has found HEAD at
the cached head, or of an installation. -/
theorem merging_current (hcons : ∀ task, Consistent (w.reconciling task))
    {e : DaemonEvent Oid Task} {m : Merging Oid} (hm : w.merging e = some m)
    (hi : w.position m.name = some i) (hcurrent : m.staged.state = .current) :
    w.WaitsCurrent i ∨ ∃ task changedPaths persisted caller p candidate project,
      e = .reconcile task (.install (.applied changedPaths) true persisted) ∧
      w.reconciling task = .prepared caller m.name p candidate ∧
      findProject w.publish.catalog m.name = some project ∧
      AccessWorld.stillWanted project p
        (w.publish.checkouts project.localPath).headBranch = true := by
  have hstate := merging_state hcons hm
  rcases merging_cases hm with ⟨task, persisted, caller, name, staged, result, expected, branch,
      target, project, -, hplace, -, -, rfl⟩ | ⟨task, installed, cleared, persisted, caller, name,
      p, candidate, project, result, staged, rfl, hplace, hproject, hwanted, hresult, happly, rfl⟩
  · have hout : result.outcome = .current := by
      have hcomplete := hcons task
      rw [hplace] at hcomplete
      rcases hcomplete with ⟨ho, -⟩ | ⟨-, hs⟩
      · exact ho
      · exact absurd (hs.symm.trans hcurrent) (by decide)
    exact Or.inl ⟨task, caller, name, staged, result, expected, branch, target, hplace, hi, hout⟩
  · rw [hcurrent] at hstate
    -- Of the answers of an installation only `applied` writes `CURRENT`.
    cases installed with
    | failed moved => cases hresult
    | retry detail =>
      cases hresult
      cases hstate
    | conflict detail paths =>
      cases hresult
      cases hstate
    | applied changedPaths =>
      cases hresult
      cases cleared with
      | false => cases happly
      | true =>
        exact Or.inr ⟨task, changedPaths, persisted, caller, p, candidate, project, rfl, hplace,
          hproject, hwanted⟩

/-- A reconciliation comes to wait with `current` by a preparation that finds
HEAD at the cached head. -/
theorem step_waitsCurrent {e : DaemonEvent Oid Task} (hs : w.step G e = some w')
    (h : w'.WaitsCurrent i) : w.WaitsCurrent i ∨ ∃ task rebase caller name project branch,
      e = .reconcile task (.prepare true rebase) ∧
      w.reconciling task = .located caller name project branch ∧ w.position name = some i ∧
      HasCached G project branch (w.publish.checkouts project.localPath).headCommit := by
  obtain ⟨other, caller, name, staged, result, expected, branch, target, hplace, hi, ho⟩ := h
  rw [step_position hs] at hi
  cases e with
  | publish e =>
    rcases (publishes_step hs).2 with hsame | hidle
    · rw [hsame] at hplace
      exact Or.inl ⟨other, caller, name, staged, result, expected, branch, target, hplace, hi, ho⟩
    · rw [hidle] at hplace
      cases hplace
  | reconcile task e =>
    obtain ⟨r, hw, hr⟩ := reconcile_place hs
    rw [hw] at hplace
    by_cases htask : other = task
    · subst htask
      rw [Function.update_self] at hplace
      subst hplace
      cases hr with
      | complete hlocated hprepare =>
        obtain ⟨rfl, hcached⟩ := prepared_current hprepare ho
        exact Or.inr ⟨other, _, caller, name, _, _, rfl, hlocated, hi, hcached⟩
      | waits hcopy => cases hcopy
    · rw [Function.update_of_ne htask] at hplace
      exact Or.inl ⟨other, caller, name, staged, result, expected, branch, target, hplace, hi, ho⟩

/-- The record keeps what the last refresh has found out in every step that
meets the condition. -/
theorem FindingsStand.step_record (h : FindingsStand w)
    (hcons : ∀ task, Consistent (w.reconciling task)) {e : DaemonEvent Oid Task}
    (hok : KeepsFindings G w e) (hs : w.step G e = some w') (hi : w'.Unknown i)
    {q : LocalProject Oid} (hq : w'.publish.catalog.projects[i]? = some q) :
    q.state ≠ .current := by
  obtain ⟨p, hp, hrecord⟩ :=
    (step_writes hs).record_back (fun _ p => .keeps (KeepsResult.refl p)) hq
  obtain ⟨f, hf, hne⟩ := hi
  rcases step_findings hs with ⟨hsame, hother⟩ |
    ⟨task, name, b, answer, rfl, hcall, hname, hnew⟩
  · have hunknown : w.Unknown i := ⟨f, hsame ▸ hf, hne⟩
    have hstate : p.state ≠ .current := h.record i hunknown p hp
    cases hrecord with
    | keeps hkeep =>
      rw [hkeep.state]
      exact hstate
    | completed => exact hstate
    | noted =>
      simp only
      split
      · exact fun h => by cases h
      · exact hstate
    | refreshed hcall hname => exact absurd hname (hother _ _ _ _ rfl hcall)
    | @merged _ m _ _ hm hmi =>
      intro hcurrent
      rcases merging_current hcons hm hmi hcurrent with hwaits | ⟨task, changedPaths, persisted,
        caller, pp, candidate, project, rfl, hplace, hproject, hwanted⟩
      · exact h.waits i hunknown hwaits
      · rw [KeepsFindings, hplace] at hok
        exact hok i hmi hunknown rfl project hproject hwanted changedPaths rfl
  · have hfinding : answer.finding = f := Option.some.inj (hnew.symm.trans hf)
    have hrefreshed := refreshed_record hcall hs hname hp
    obtain rfl := Option.some.inj (hrefreshed.symm.trans hq)
    exact refreshRecord_not_current (hfinding ▸ hne)

/-- No reconciliation comes to wait with `current` for such a project. -/
theorem FindingsStand.step_waits (h : FindingsStand w) {e : DaemonEvent Oid Task}
    (hok : KeepsFindings G w e) (hs : w.step G e = some w') (hi : w'.Unknown i) :
    ¬ w'.WaitsCurrent i := by
  intro hwaits
  obtain ⟨f, hf, hne⟩ := hi
  rcases step_findings hs with ⟨hsame, -⟩ | ⟨task, name, b, answer, rfl, hcall, hname, hnew⟩
  · have hunknown : w.Unknown i := ⟨f, hsame ▸ hf, hne⟩
    rcases step_waitsCurrent hs hwaits with hold | ⟨task, rebase, caller, name, project, branch,
      rfl, hplace, hname, hcached⟩
    · exact h.waits i hunknown hold
    · rw [KeepsFindings, hplace] at hok
      exact hok i hname hunknown rfl hcached
  · have hfinding : answer.finding = f := Option.some.inj (hnew.symm.trans hf)
    rw [KeepsFindings, hcall] at hok
    rcases step_waitsCurrent hs hwaits with hold | ⟨_, _, _, _, _, _, he, -⟩
    · exact hok (hfinding ▸ hne) i hname hold
    · cases he

/-- The findings stand in every step that meets the condition. -/
theorem FindingsStand.step (h : FindingsStand w) (hcons : ∀ task, Consistent (w.reconciling task))
    {e : DaemonEvent Oid Task} (hok : KeepsFindings G w e) (hs : w.step G e = some w') :
    FindingsStand w' where
  record _ hi _ hq := h.step_record hcons hok hs hi hq
  waits _ hi := h.step_waits hok hs hi

omit [DecidableEq Task] in
/-- An installation does not answer `current`, and nothing waits with it. -/
theorem FindingsStand.reports (h : FindingsStand w) {e : DaemonEvent Oid Task}
    (hi : w.Unknown i) : ¬ ReportsCurrent w i e := by
  rintro ⟨m, hm, -, -, ho, hmi⟩
  rcases merging_cases hm with ⟨task, persisted, caller, name, staged, result, expected, branch,
      target, project, -, hplace, -, -, rfl⟩ | ⟨task, installed, cleared, persisted, caller, name,
      p, candidate, project, result, staged, -, -, -, -, hresult, -, rfl⟩
  · exact h.waits i hi
      ⟨task, caller, name, staged, result, expected, branch, target, hplace, hmi, ho⟩
  · cases installed <;> cases hresult <;> cases ho

/-- In every run whose steps meet the condition: as long as the last refresh has
not found a project active and fetched its branch, the project is not `CURRENT`,
and no `sync` reports `current` for it. -/
theorem not_current_until_refreshed {publish : PublishWorld Oid Task}
    {es : List (DaemonEvent Oid Task)} {v : DaemonWorld Oid Task}
    (hok : Runs.Steps (step G) (KeepsFindings G) (DaemonWorld.initial publish) es)
    (hv : Runs.run (step G) (DaemonWorld.initial publish) es = some v) {i : ℕ}
    (hi : v.Unknown i) :
    (∀ p, v.publish.catalog.projects[i]? = some p → p.state ≠ .current) ∧
      ∀ e, ¬ ReportsCurrent v i e := by
  have hstep : ∀ (w : DaemonWorld Oid Task) e w',
      FindingsStand w ∧ (∀ task, Consistent (w.reconciling task)) → KeepsFindings G w e →
        step G w e = some w' → FindingsStand w' ∧ ∀ task, Consistent (w'.reconciling task) :=
    fun w e w' h hok hs => ⟨h.1.step h.2 hok hs, step_consistent h.2 hs⟩
  have hnone : ∀ j, ¬ (DaemonWorld.initial publish).Unknown j := by
    rintro j ⟨f, hf, -⟩
    cases hf
  have h0 : FindingsStand (DaemonWorld.initial publish) :=
    ⟨fun j hj => absurd hj (hnone j), fun j hj => absurd hj (hnone j)⟩
  have hstand := (Runs.run_invariant hstep ⟨h0, fun _ => trivial⟩ hok hv).1
  exact ⟨hstand.record i hi, fun _ => hstand.reports hi⟩

end Steps

end DaemonWorld

section OneProject

/-- While the daemon has no reconciliation, a refresh finds out what it likes. -/
theorem refreshMain_known (publish : PublishWorld ℕ (Fin 2)) (task : Fin 2)
    (answer : RefreshAnswer ℕ) : Runs.Steps (DaemonWorld.step pairGraph)
      (DaemonWorld.KeepsFindings pairGraph) (DaemonWorld.initial publish)
        (refreshMain task answer) := by
  refine ⟨trivial, fun w hw => ⟨?_, fun _ _ => trivial⟩⟩
  have hidle : ∀ other, w.reconciling other = .idle := by
    have hs : (DaemonWorld.initial publish).publishes pairGraph
        (.call task (.refreshBranch "prj")) = some w := hw
    rcases (DaemonWorld.publishes_step hs).2 with hsame | hnone
    · exact fun other => congrFun hsame other
    · exact fun other => congrFun hnone other
  rw [DaemonWorld.KeepsFindings]
  split
  · rintro - i - ⟨other, _, _, _, _, _, _, _, hplace, -⟩
    rw [hidle] at hplace
    cases hplace
  · trivial

theorem not_current_until_refreshed_two : ∃ v,
    Runs.run (DaemonWorld.step pairGraph) (DaemonWorld.initial currentMain)
      (refreshMain 0 (.offline 0 "no route to host")) = some v ∧ v.Unknown 0 ∧
    ∀ p, v.publish.catalog.projects[0]? = some p → p.state ≠ .current := by
  have htest : ((Runs.run (DaemonWorld.step pairGraph) (DaemonWorld.initial currentMain)
      (refreshMain 0 (.offline 0 "no route to host"))).map fun v => v.findings 0) =
        some (some .offline) := by decide +kernel
  obtain ⟨v, hv, hfinding⟩ := Option.map_eq_some_iff.mp htest
  have hunknown : v.Unknown 0 := ⟨.offline, hfinding, by decide⟩
  exact ⟨v, hv, hunknown,
    (DaemonWorld.not_current_until_refreshed (refreshMain_known ..) hv hunknown).1⟩

/-- A `sync` request whose own refresh gets the answer, up to its merge. -/
def syncMain (task : Fin 2) (answer : RefreshAnswer ℕ) : List (DaemonEvent ℕ (Fin 2)) :=
  .reconcile (some task) (.sync "prj") :: refreshMain task answer ++
    [.refreshed true, .stage, .locate, .prepare true .failed].map (.reconcile (some task))

/-- The refresh of a `sync` finds that the access is lost. The `sync` goes on
with the cached head, reports `current`, and the state is `CURRENT` again. -/
theorem sync_of_lost_project_reports_current : ∃ u v,
    Runs.run (DaemonWorld.step pairGraph) (DaemonWorld.initial currentMain)
      (syncMain 0 (.accessLost "omitted")) = some u ∧
    u.Unknown 0 ∧ u.ReportsCurrent 0 (.reconcile (some 0) (.merge true)) ∧
    u.step pairGraph (.reconcile (some 0) (.merge true)) = some v ∧ v.Unknown 0 ∧
    v.publish.catalog.projects.map (·.state) = [.current] := by
  have hrun : ((Runs.run (DaemonWorld.step pairGraph) (DaemonWorld.initial currentMain)
      (syncMain 0 (.accessLost "omitted"))).bind fun u =>
        (u.step pairGraph (.reconcile (some 0) (.merge true))).map fun v =>
          (u.findings 0, v.findings 0, v.publish.catalog.projects.map (·.state))) =
      some (some .accessLost, some .accessLost, [.current]) := by decide +kernel
  have hmerge : ((Runs.run (DaemonWorld.step pairGraph) (DaemonWorld.initial currentMain)
      (syncMain 0 (.accessLost "omitted"))).bind fun u =>
        (u.merging (.reconcile (some 0) (.merge true))).map fun m =>
          (m.caller, m.persisted, m.outcome, u.position m.name)) =
      some (.sync, true, .current, some 0) := by decide +kernel
  obtain ⟨u, hu, hrun⟩ := Option.bind_eq_some_iff.mp hrun
  obtain ⟨v, hv, hrun⟩ := Option.map_eq_some_iff.mp hrun
  rw [hu, Option.bind_some] at hmerge
  obtain ⟨m, hm, hmerge⟩ := Option.map_eq_some_iff.mp hmerge
  simp only [Prod.mk.injEq] at hrun hmerge
  obtain ⟨huf, hvf, hstates⟩ := hrun
  obtain ⟨hcaller, hpersisted, ho, hmi⟩ := hmerge
  exact ⟨u, v, hu, ⟨_, huf, by decide⟩, ⟨m, hm, hcaller, hpersisted, ho, hmi⟩, hv,
    ⟨_, hvf, by decide⟩, hstates⟩

end OneProject

end Resync
