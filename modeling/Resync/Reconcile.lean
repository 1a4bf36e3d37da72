import Resync.Lib.CommitGraph
import Resync.Project

/-! How the daemon reconciles one project record (`daemon.rs`): what
`prepare_project_reconciliation` decides from the record and from the answers
of Git, and what the outcome of an installation does to the record. -/
namespace Resync

/-- The values of `ReconcileResult::outcome`. -/
inductive Outcome where
  | applied | current | conflict | retry
deriving DecidableEq

structure ReconcileResult (Oid : Type) where
  outcome : Outcome
  transactionId : Option String := none
  recoveryRef : Option String := none
  head : Option Oid := none
  oldHead : Option Oid := none
  newHead : Option Oid := none
  changedPaths : List String := []
  detail : Option String := none
  paths : List String := []

/-- What Git and the transactions directory answer during one preparation. -/
structure PreparationAnswers (Oid : Type) where
  /-- `current_branch`; `none` when HEAD is detached or unborn. -/
  branch : Option Branch
  /-- The head of `capture_workspace`; `none` when the capture fails. -/
  head : Option Oid
  /-- Whether `clear_resolved_conflicts` succeeds. -/
  cleared : Bool
  /-- `prepare_reconciliation_with_retention` for a base and a target: `none`
  is an error, `some none` a candidate that is ready to install. A preparation
  that is complete at once has found nothing to do or a conflict. -/
  prepared : Oid → Oid → Option (Option
    {result : ReconcileResult Oid // result.outcome = .current ∨ result.outcome = .conflict})

/-- `ProjectReconciliation`; a prepared one always has a target. -/
inductive ProjectReconciliation (Oid : Type) where
  | complete (staged : LocalProject Oid) (result : ReconcileResult Oid)
      (expectedGeneration : ℕ) (branch : Branch) (target : Option Oid)
  | prepared (staged : LocalProject Oid) (expectedGeneration : ℕ) (branch : Branch)
      (target : Oid)

variable {Oid : Type}

/-- `apply_reconciliation_result`; the flag is `clear_resolved_conflicts`. -/
def applyReconciliationResult (project : LocalProject Oid) (branch : Branch) (target : Oid)
    (result : ReconcileResult Oid) (cleared : Bool) : Option (LocalProject Oid) :=
  match result.outcome with
  | .applied =>
    if cleared then
      some { project with
        lastAppliedHeads := Function.update project.lastAppliedHeads branch (some target),
        workspaceGeneration := project.workspaceGeneration + 1,
        state := .current, conflict := none }
    else none
  | .current =>
    if cleared then
      some { project with
        lastAppliedHeads := Function.update project.lastAppliedHeads branch (some target),
        state := .current, conflict := none }
    else none
  | .conflict =>
    some { project with
      state := .conflicted,
      conflict := some ⟨"reconciliation", result.detail.getD "reconciliation conflict",
        result.paths⟩ }
  | .retry => some { project with state := .remoteAhead, conflict := none }

/-- `merge_reconciliation_state`. -/
def mergeReconciliationState (current staged : LocalProject Oid) : LocalProject Oid :=
  { current with
    activeBranch := staged.activeBranch,
    lastAppliedHeads := staged.lastAppliedHeads,
    workspaceGeneration := staged.workspaceGeneration,
    state := staged.state,
    conflict := staged.conflict }

@[simp] theorem mergeReconciliationState_workspaceGeneration (current staged : LocalProject Oid) :
    (mergeReconciliationState current staged).workspaceGeneration =
      staged.workspaceGeneration := rfl

theorem applyReconciliationResult_workspaceGeneration {project staged : LocalProject Oid}
    {branch : Branch} {target : Oid} {result : ReconcileResult Oid} {cleared : Bool}
    (h : applyReconciliationResult project branch target result cleared = some staged) :
    staged.workspaceGeneration =
      if result.outcome = .applied then project.workspaceGeneration + 1
      else project.workspaceGeneration := by
  unfold applyReconciliationResult at h
  split at h <;> rename_i ho <;> simp only [ho, reduceCtorEq, ↓reduceIte]
  · split at h
    · obtain rfl := Option.some.inj h
      rfl
    · cases h
  · split at h
    · obtain rfl := Option.some.inj h
      rfl
    · cases h
  · obtain rfl := Option.some.inj h
    rfl
  · obtain rfl := Option.some.inj h
    rfl

theorem applyReconciliationResult_state {project staged : LocalProject Oid}
    {branch : Branch} {target : Oid} {result : ReconcileResult Oid} {cleared : Bool}
    (h : applyReconciliationResult project branch target result cleared = some staged) :
    staged.state = match result.outcome with
      | .applied | .current => .current
      | .conflict => .conflicted
      | .retry => .remoteAhead := by
  unfold applyReconciliationResult at h
  cases ho : result.outcome with
  | applied | current =>
    simp only [ho] at h
    split at h
    · exact Option.some.inj h ▸ rfl
    · cases h
  | conflict | retry =>
    simp only [ho] at h
    exact Option.some.inj h ▸ rfl

theorem applyReconciliationResult_localPath {project staged : LocalProject Oid}
    {branch : Branch} {target : Oid} {result : ReconcileResult Oid} {cleared : Bool}
    (h : applyReconciliationResult project branch target result cleared = some staged) :
    staged.localPath = project.localPath := by
  unfold applyReconciliationResult at h
  split at h
  · split at h
    · exact Option.some.inj h ▸ rfl
    · cases h
  · split at h
    · exact Option.some.inj h ▸ rfl
    · cases h
  · exact Option.some.inj h ▸ rfl
  · exact Option.some.inj h ▸ rfl

/-- A result writes the last-applied head of its branch, if it is applied or
current, and no other. -/
theorem applyReconciliationResult_lastAppliedHeads {project staged : LocalProject Oid}
    {branch b : Branch} {target x : Oid} {result : ReconcileResult Oid} {cleared : Bool}
    (h : applyReconciliationResult project branch target result cleared = some staged)
    (hx : staged.lastAppliedHeads b = some x) :
    project.lastAppliedHeads b = some x ∨
      (result.outcome = .applied ∨ result.outcome = .current) ∧ b = branch ∧ x = target := by
  have hupdate : Function.update project.lastAppliedHeads branch (some target) b = some x →
      project.lastAppliedHeads b = some x ∨ b = branch ∧ x = target := by
    intro hx
    by_cases hb : b = branch
    · subst hb
      rw [Function.update_self, Option.some.injEq] at hx
      exact Or.inr ⟨rfl, hx.symm⟩
    · exact Or.inl ((Function.update_of_ne hb ..).symm.trans hx)
  unfold applyReconciliationResult at h
  split at h
  · next houtcome =>
    split at h
    · obtain rfl := Option.some.inj h
      exact (hupdate hx).imp_right fun hnew => ⟨Or.inl houtcome, hnew⟩
    · cases h
  · next houtcome =>
    split at h
    · obtain rfl := Option.some.inj h
      exact (hupdate hx).imp_right fun hnew => ⟨Or.inr houtcome, hnew⟩
    · cases h
  · obtain rfl := Option.some.inj h
    exact Or.inl hx
  · obtain rfl := Option.some.inj h
    exact Or.inl hx

theorem applied_lastAppliedHeads {project staged : LocalProject Oid} {branch : Branch}
    {target : Oid} {result : ReconcileResult Oid} {cleared : Bool}
    (h : applyReconciliationResult project branch target result cleared = some staged)
    (hresult : result.outcome = .applied) :
    staged.lastAppliedHeads = Function.update project.lastAppliedHeads branch (some target) := by
  simp only [applyReconciliationResult, hresult] at h
  split at h
  · exact Option.some.inj h ▸ rfl
  · cases h

variable [DecidableEq Oid] (G : CommitGraph Oid)

/-- The base of the rebase, or `none` when the histories diverge. -/
def reconciliationBase (project : LocalProject Oid) (branch : Branch) (target head : Oid) :
    Option Oid :=
  match project.lastAppliedHeads branch with
  | some previous =>
    if previous = target then if G.isAncestor head target then some head else none
    else some previous
  | none => if G.isAncestor head target then some head else none

/-- `prepare_project_reconciliation` on a clone of the project. -/
def prepareProjectReconciliation (answers : PreparationAnswers Oid) (record : LocalProject Oid) :
    Option (ProjectReconciliation Oid) := do
  let branch ← answers.branch
  let project := { record with activeBranch := some branch }
  let generation := record.workspaceGeneration
  match project.advertisedHeads branch with
  -- Nothing is advertised for the branch.
  | none =>
    if answers.cleared then
      some (.complete { project with state := .current, conflict := none }
        { outcome := .current } generation branch none)
    else none
  | some target =>
    let head ← answers.head
    -- HEAD has what is advertised.
    if head = target ∨ G.isAncestor target head then
      if answers.cleared then
        some (.complete { project with
          lastAppliedHeads := Function.update project.lastAppliedHeads branch (some target),
          state := .current, conflict := none } { outcome := .current } generation branch
          (some target))
      else none
    else match reconciliationBase G project branch target head with
    | none =>
      let detail := "local and hosted histories for branch " ++ branch ++ " diverge"
      some (.complete { project with
        state := .conflicted, conflict := some ⟨"diverged-history", detail, []⟩ }
        { outcome := .conflict, detail := some detail } generation branch (some target))
    | some previous =>
      let project := { project with state := .reconciling }
      match ← answers.prepared previous target with
      | none => some (.prepared project generation branch target)
      | some result => do
        let staged ← applyReconciliationResult project branch target result.1 answers.cleared
        some (.complete staged result.1 generation branch (some target))

/-- A preparation never changes the generation: it expects the generation of
the record it cloned, and stages the same one. -/
theorem prepareProjectReconciliation_generation {answers : PreparationAnswers Oid}
    {record : LocalProject Oid} {r : ProjectReconciliation Oid}
    (h : prepareProjectReconciliation G answers record = some r) :
    match r with
    | .complete staged _ expected _ _ =>
      expected = record.workspaceGeneration ∧ staged.workspaceGeneration = expected
    | .prepared staged expected _ _ =>
      expected = record.workspaceGeneration ∧ staged.workspaceGeneration = expected := by
  unfold prepareProjectReconciliation at h
  obtain ⟨branch, -, h⟩ := Option.bind_eq_some_iff.mp h
  dsimp only at h
  split at h
  · split at h
    · obtain rfl := Option.some.inj h
      exact ⟨rfl, rfl⟩
    · cases h
  · next target _ =>
    obtain ⟨head, -, h⟩ := Option.bind_eq_some_iff.mp h
    split at h
    · split at h
      · obtain rfl := Option.some.inj h
        exact ⟨rfl, rfl⟩
      · cases h
    · split at h
      · obtain rfl := Option.some.inj h
        exact ⟨rfl, rfl⟩
      · next previous _ =>
        obtain ⟨prepared, -, h⟩ := Option.bind_eq_some_iff.mp h
        cases prepared with
        | none =>
          obtain rfl := Option.some.inj h
          exact ⟨rfl, rfl⟩
        | some result =>
          obtain ⟨staged, hs, h⟩ := Option.bind_eq_some_iff.mp h
          obtain rfl := Option.some.inj h
          have hgen := applyReconciliationResult_workspaceGeneration hs
          have hne : result.1.outcome ≠ .applied := by
            rcases result.2 with ho | ho <;> simp only [ho, ne_eq, reduceCtorEq, not_false_eq_true]
          rw [if_neg hne] at hgen
          exact ⟨rfl, hgen⟩

/-- A complete result says what its staged record says. -/
theorem prepareProjectReconciliation_consistent {answers : PreparationAnswers Oid}
    {record staged : LocalProject Oid} {result : ReconcileResult Oid} {expected : ℕ}
    {branch : Branch} {target : Option Oid}
    (h : prepareProjectReconciliation G answers record =
      some (.complete staged result expected branch target)) :
    (result.outcome = .current ∧ staged.state = .current) ∨
      (result.outcome = .conflict ∧ staged.state = .conflicted) := by
  unfold prepareProjectReconciliation at h
  obtain ⟨actual, -, h⟩ := Option.bind_eq_some_iff.mp h
  dsimp only at h
  split at h
  · split at h
    · cases h
      exact Or.inl ⟨rfl, rfl⟩
    · cases h
  · obtain ⟨head, -, h⟩ := Option.bind_eq_some_iff.mp h
    split at h
    · split at h
      · cases h
        exact Or.inl ⟨rfl, rfl⟩
      · cases h
    · split at h
      · cases h
        exact Or.inr ⟨rfl, rfl⟩
      · obtain ⟨prepared, -, h⟩ := Option.bind_eq_some_iff.mp h
        cases prepared with
        | none => cases h
        | some prepared =>
          obtain ⟨applied, hs, h⟩ := Option.bind_eq_some_iff.mp h
          cases h
          have hstate := applyReconciliationResult_state hs
          rcases prepared.2 with ho | ho
          · rw [ho] at hstate
            exact Or.inl ⟨ho, hstate⟩
          · rw [ho] at hstate
            exact Or.inr ⟨ho, hstate⟩

end Resync
