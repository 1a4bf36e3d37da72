import Resync.ConcurrentCallRuns

/-! Results of `reconcile_exclusive` that need no installation: what they were computed
from, and what the recheck under the catalog lock lets through. -/
namespace Resync

variable {β Task : Type}

/-- A merge of a result that needs no installation. -/
structure CompleteMerge (β : Type) where
  before : LocalProject (Revision β)
  answer : Outcome
  after : LocalProject (Revision β)
  /-- HEAD's branch and the workspace were still as the preparation had read them. -/
  held : Bool

/-- A result that is out of date is not merged. -/
def CompleteMerge.Proper (m : CompleteMerge β) : Prop :=
  m.held = false → m.answer = .retry ∧ m.after = m.before

/-- The captures of the preparations and the merges only look back. -/
structure ReadingWorld (β Task : Type) where
  world : CallsWorld β Task
  captures : Task → List (WorkspaceSnapshot β)
  merges : List (CompleteMerge β)

namespace CallPlace

/-- The capture that is under way. -/
def capture : CallPlace β → Option (Capture β)
  | .looking _ _ capture | .capturing _ capture => some capture
  | _ => none

/-- The preparation or the installation is over, or the call holds the gate. -/
def decided : CallPlace β → Bool
  | .prepared .. | .installing .. | .moved _ | .scanning .. | .finalized _ | .cleared _
  | .answered .. => true
  | _ => false

end CallPlace

namespace CallsWorld

/-- The snapshot that a step completes. -/
def capturing (w : CallsWorld β Task) : CallsEvent β Task → Option (Task × WorkspaceSnapshot β)
  | .read task _ => (w.calls task).capture.bind fun capture =>
    match capture.next w.repo with
    | some (.inr snapshot) => some (task, snapshot)
    | _ => none
  | _ => none

variable [DecidableEq β]

/-- HEAD's branch and the workspace are as a preparation has read them. -/
def Holds (w : CallsWorld β Task) (branch : Branch) (captures : List (WorkspaceSnapshot β)) :
    Prop :=
  w.repo.headBranch = some branch ∧ ∀ s ∈ captures, captureWorkspace w.repo = some s

instance (w : CallsWorld β Task) (branch : Branch) (captures : List (WorkspaceSnapshot β)) :
    Decidable (w.Holds branch captures) := inferInstanceAs (Decidable (_ ∧ ∀ s ∈ captures, _))

/-- The merge that a step makes of a complete result. -/
def merging (w w' : CallsWorld β Task) (captures : Task → List (WorkspaceSnapshot β)) :
    CallsEvent β Task → List (CompleteMerge β)
  | .merge task =>
    match w.calls task, w'.calls task with
    | .complete _ _ _ branch _, .answered (some outcome) _ =>
      [⟨w.project, outcome, w'.project, decide (w.Holds branch (captures task))⟩]
    | _, _ => []
  | _ => []

end CallsWorld

namespace ReadingWorld

open CallsWorld

def initial (checkout : Checkout β) (project : LocalProject (Revision β)) :
    ReadingWorld β Task where
  world := .initial checkout project
  captures _ := []
  merges := []

variable [DecidableEq Task]

/-- A preparation begins with no capture, and keeps each one that it completes. -/
def noted (r : ReadingWorld β Task) : CallsEvent β Task → Task → List (WorkspaceSnapshot β)
  | .stage task => Function.update r.captures task []
  | e => match r.world.capturing e with
    | some (task, snapshot) => Function.update r.captures task (r.captures task ++ [snapshot])
    | none => r.captures

variable [DecidableEq β]

def step (retention : TransactionRetention) (r : ReadingWorld β Task) (e : CallsEvent β Task) :
    Option (ReadingWorld β Task) :=
  (r.world.step retention e).map fun w =>
    ⟨w, r.noted e, r.merges ++ r.world.merging w r.captures e⟩

/-- Every merge so far is proper. -/
def MergesProperly (r : ReadingWorld β Task) : Prop := ∀ m ∈ r.merges, m.Proper

/-- The condition on a merge: where the generation of the record and the head that is
advertised for the branch are those of the preparation, HEAD's branch and the workspace
are too. -/
def RecheckSuffices (r : ReadingWorld β Task) : CallsEvent β Task → Prop
  | .merge task =>
    match r.world.calls task, r.world.exclusive with
    | .complete _ _ expected branch target, none =>
      DaemonWorld.stillComplete r.world.project expected branch target = true →
        r.world.Holds branch (r.captures task)
    | _, _ => True
  | _ => True

end ReadingWorld

section Preparations

variable [DecidableEq β]

/-- The result of the second capture. -/
def Found (captures : List (WorkspaceSnapshot β)) (r : ReconcileResult (Revision β)) : Prop :=
  ∃ first s, captures = [first, s] ∧
    (r = { outcome := .current, head := some s.head } ∨
      ∃ env t, t.snapshot = s ∧ rebaseTransaction env t = .ok (.complete r))

/-- A preparation goes by its clone, by the branch that it has found HEAD on, and by
what it has captured. -/
def CallPlace.Computed (captures : List (WorkspaceSnapshot β)) : CallPlace β → Prop
  | .staged _ | .looking .. => captures = []
  | .opened c | .attached c | .capturing c _ => ∃ s, captures = [s] ∧ c.head = s.head
  | .captured c s => ∃ first, captures = [first, s] ∧ c.head = first.head
  | .referenced c _ t => ∃ first, captures = [first, t.snapshot] ∧ c.head = first.head
  | .rebased c env result => ∃ first t, captures = [first, t.snapshot] ∧ c.head = first.head ∧
      rebaseTransaction env t = .ok result
  | .complete record result expected branch target => ∃ project cleared found,
      CallsWorld.conclude project branch (captures.head?.map (·.head)) cleared found =
        .complete record result expected branch target ∧
      (∀ r ∈ found, Found captures r) ∧ expected = project.workspaceGeneration ∧
      target = project.advertisedHeads branch ∧
      (result.outcome = .current ∨ result.outcome = .conflict)
  | _ => True

/-- A complete result is about the branch that HEAD was found on, and about what the
record has advertised for it. -/
theorem complete_inputs {G : CommitGraph (Revision β)}
    {answers : PreparationAnswers (Revision β)} {record staged : LocalProject (Revision β)}
    {result : ReconcileResult (Revision β)} {expected : ℕ} {branch : Branch}
    {target : Option (Revision β)}
    (h : prepareProjectReconciliation G answers record =
      some (.complete staged result expected branch target)) :
    answers.branch = some branch ∧ expected = record.workspaceGeneration ∧
      target = record.advertisedHeads branch := by
  have hgeneration := (prepareProjectReconciliation_generation G h).1
  unfold prepareProjectReconciliation at h
  obtain ⟨actual, hactual, h⟩ := Option.bind_eq_some_iff.mp h
  dsimp only at h
  split at h
  · next hnone =>
    split at h
    · cases h
      exact ⟨hactual, hgeneration, hnone.symm⟩
    · cases h
  · next advertised hsome =>
    obtain ⟨head, -, h⟩ := Option.bind_eq_some_iff.mp h
    split at h
    · split at h
      · cases h
        exact ⟨hactual, hgeneration, hsome.symm⟩
      · cases h
    · split at h
      · cases h
        exact ⟨hactual, hgeneration, hsome.symm⟩
      · obtain ⟨prepared, -, h⟩ := Option.bind_eq_some_iff.mp h
        cases prepared with
        | none => cases h
        | some prepared =>
          obtain ⟨applied, -, h⟩ := Option.bind_eq_some_iff.mp h
          cases h
          exact ⟨hactual, hgeneration, hsome.symm⟩

theorem computed_conclude (captures : List (WorkspaceSnapshot β))
    {found : Option (ReconcileResult (Revision β))} (hfound : ∀ r ∈ found, Found captures r)
    (project : LocalProject (Revision β)) (branch : Branch) (cleared : Bool) :
    (CallsWorld.conclude project branch (captures.head?.map (·.head)) cleared found).Computed
      captures := by
  cases hplace : CallsWorld.conclude project branch (captures.head?.map (·.head)) cleared found with
  | complete record result expected actual target =>
    have hconclude := hplace
    unfold CallsWorld.conclude at hplace
    dsimp only at hplace
    split at hplace
    · next record' result' expected' actual' target' h =>
      cases hplace
      obtain ⟨hbranch, hexpected, htarget⟩ := complete_inputs h
      obtain rfl := Option.some.inj hbranch
      refine ⟨project, cleared, found, hconclude, hfound, hexpected, htarget, ?_⟩
      rcases prepareProjectReconciliation_consistent _ h with ⟨houtcome, -⟩ | ⟨houtcome, -⟩
      · exact Or.inl houtcome
      · exact Or.inr houtcome
    · cases hplace
  | answered => trivial
  | _ =>
    -- it is complete or it has failed
    unfold CallsWorld.conclude at hplace
    dsimp only at hplace
    split at hplace
    all_goals cases hplace

end Preparations

namespace ReadingWorld

open CallsWorld

variable [DecidableEq β] [DecidableEq Task] {retention : TransactionRetention}
  {r r' : ReadingWorld β Task} {e : CallsEvent β Task}

/-- Every call stands where its captures have taken it. -/
def Orderly (r : ReadingWorld β Task) : Prop :=
  ∀ task, (r.world.calls task).Computed (r.captures task)

omit [DecidableEq Task] in
theorem orderly_initial (checkout : Checkout β) (project : LocalProject (Revision β)) :
    (initial checkout project : ReadingWorld β Task).Orderly := fun _ => trivial

/-- One call moves, and only its captures are other ones. -/
theorem Orderly.moves (h : r.Orderly) {task : Task} {p : CallPlace β}
    (hcalls : r'.world.calls = Function.update r.world.calls task p)
    (hothers : ∀ t, t ≠ task → r'.captures t = r.captures t)
    (hp : p.Computed (r'.captures task)) : r'.Orderly := by
  intro t
  rw [hcalls]
  by_cases ht : t = task
  · subst ht
    rw [Function.update_self]
    exact hp
  · rw [Function.update_of_ne ht, hothers t ht]
    exact h t

/-- A call whose captures stay is placed. -/
theorem Orderly.place (h : r.Orderly) {task : Task} {p : CallPlace β} {w : CallsWorld β Task}
    {merges : List (CompleteMerge β)} (hcalls : w.calls = Function.update r.world.calls task p)
    (hp : p.Computed (r.captures task)) : Orderly ⟨w, r.captures, merges⟩ :=
  h.moves hcalls (fun _ _ => rfl) hp

theorem Orderly.capture (h : r.Orderly) {task : Task} {p : CallPlace β} {w : CallsWorld β Task}
    {merges : List (CompleteMerge β)} {captures : List (WorkspaceSnapshot β)}
    (hcalls : w.calls = Function.update r.world.calls task p) (hp : p.Computed captures) :
    Orderly ⟨w, Function.update r.captures task captures, merges⟩ := by
  refine h.moves hcalls (fun t ht => Function.update_of_ne ht ..) ?_
  change p.Computed (Function.update r.captures task captures task)
  rw [Function.update_self]
  exact hp

omit [DecidableEq β] in
theorem noted_read {task : Task} {cleared : Bool} {capture : Capture β}
    (h : (r.world.calls task).capture = some capture) :
    r.noted (.read task cleared) = match capture.next r.world.repo with
      | some (.inr snapshot) => Function.update r.captures task (r.captures task ++ [snapshot])
      | _ => r.captures := by
  unfold noted
  simp only [capturing, h, Option.bind_some]
  cases capture.next r.world.repo with
  | none => rfl
  | some read =>
    cases read with
    | inl next => rfl
    | inr snapshot => rfl

theorem Orderly.read (h : r.Orderly) {task : Task} {cleared : Bool} {w : CallsWorld β Task}
    {merges : List (CompleteMerge β)}
    (hs : r.world.prepare retention (.read task cleared) = some w) :
    Orderly ⟨w, r.noted (.read task cleared), merges⟩ := by
  have hcomputed := h task
  simp only [prepare] at hs
  split at hs
  · next project branch capture hplace =>
    obtain rfl := Option.some.inj hs
    rw [noted_read (by rw [hplace]; rfl)]
    have hnil : r.captures task = [] := by
      rw [hplace] at hcomputed
      exact hcomputed
    cases capture.next r.world.repo with
    | none => exact h.place rfl trivial
    | some read =>
      cases read with
      | inl next => exact h.place rfl hnil
      | inr snapshot =>
        refine h.capture rfl ?_
        rw [hnil, List.nil_append, afterLooking]
        split
        · exact computed_conclude [snapshot] (fun _ hr => by cases hr) ..
        · exact ⟨snapshot, rfl, rfl⟩
  · next c capture hplace =>
    obtain rfl := Option.some.inj hs
    rw [noted_read (by rw [hplace]; rfl)]
    rw [hplace] at hcomputed
    obtain ⟨first, hfirst, hhead⟩ := hcomputed
    cases capture.next r.world.repo with
    | none => exact h.place rfl trivial
    | some read =>
      cases read with
      | inl next => exact h.place rfl ⟨first, hfirst, hhead⟩
      | inr snapshot =>
        refine h.capture rfl ?_
        have hboth : r.captures task ++ [snapshot] = [first, snapshot] := by
          rw [hfirst]
          rfl
        rw [hboth, afterCapturing]
        split
        · trivial
        · rw [hhead]
          apply computed_conclude [first, snapshot]
          intro result hresult
          obtain rfl := Option.some.inj hresult
          exact ⟨first, snapshot, rfl, Or.inl rfl⟩
        · exact ⟨first, rfl, hhead⟩
  · cases hs

theorem Orderly.prepare (h : r.Orderly) {w : CallsWorld β Task} {merges : List (CompleteMerge β)}
    (hs : r.world.prepare retention e = some w) : Orderly ⟨w, r.noted e, merges⟩ := by
  cases e with
  | read task cleared => exact h.read hs
  | stage task =>
    simp only [CallsWorld.prepare] at hs
    split at hs
    · obtain rfl := Option.some.inj hs
      exact h.capture rfl rfl
    · cases hs
  | look task cleared =>
    have hcomputed := h task
    simp only [CallsWorld.prepare] at hs
    split at hs
    · next project hplace =>
      -- A call that looks for its branch has captured nothing yet.
      have hnil : r.captures task = [] := by
        rw [hplace] at hcomputed
        exact hcomputed
      have hconclude : ∀ branch, (conclude project branch none cleared none).Computed
          (r.captures task) := by
        intro branch
        rw [hnil]
        exact computed_conclude [] (fun _ hr => by cases hr) ..
      split at hs
      · obtain rfl := Option.some.inj hs
        exact h.place rfl trivial
      · split at hs
        · obtain rfl := Option.some.inj hs
          exact h.place rfl (hconclude _)
        · obtain rfl := Option.some.inj hs
          exact h.place rfl hnil
    · cases hs
  | check task =>
    have hcomputed := h task
    simp only [CallsWorld.prepare] at hs
    split at hs
    · next c hplace =>
      obtain rfl := Option.some.inj hs
      rw [hplace] at hcomputed
      refine h.place rfl ?_
      split
      · trivial
      · exact hcomputed
    · next c hplace =>
      obtain rfl := Option.some.inj hs
      rw [hplace] at hcomputed
      refine h.place rfl ?_
      split
      · trivial
      · exact hcomputed
    · cases hs
  | reference task env =>
    have hcomputed := h task
    simp only [CallsWorld.prepare] at hs
    split at hs
    · next c snapshot hplace =>
      rw [hplace] at hcomputed
      split at hs
      · obtain rfl := Option.some.inj hs
        exact h.place rfl trivial
      · obtain rfl := Option.some.inj hs
        exact h.place rfl hcomputed
    · cases hs
  | rebase task =>
    have hcomputed := h task
    simp only [CallsWorld.prepare] at hs
    split at hs
    · next c env t hplace =>
      rw [hplace] at hcomputed
      obtain ⟨first, hcaptures, hhead⟩ := hcomputed
      split at hs
      · obtain rfl := Option.some.inj hs
        exact h.place rfl trivial
      · next result hresult =>
        obtain rfl := Option.some.inj hs
        exact h.place rfl ⟨first, t, hcaptures, hhead, hresult⟩
    · cases hs
  | cleanUp task cleared =>
    have hcomputed := h task
    simp only [CallsWorld.prepare] at hs
    split at hs
    · obtain rfl := Option.some.inj hs
      exact h.place rfl trivial
    · next c env result hplace =>
      rw [hplace] at hcomputed
      obtain ⟨first, t, hcaptures, hhead, hresult⟩ := hcomputed
      obtain rfl := Option.some.inj hs
      refine h.place rfl ?_
      rw [hcaptures, hhead]
      apply computed_conclude [first, t.snapshot]
      intro found hfound
      obtain rfl := Option.some.inj hfound
      exact ⟨first, t.snapshot, rfl, Or.inr ⟨env, t, rfl, hresult⟩⟩
    · cases hs
  | remove task id =>
    simp only [CallsWorld.prepare] at hs
    split at hs
    · split at hs
      · obtain rfl := Option.some.inj hs
        exact h
      · cases hs
    · cases hs
  | fail task =>
    simp only [CallsWorld.prepare] at hs
    split at hs
    · obtain rfl := Option.some.inj hs
      exact h.place rfl trivial
    · cases hs
  | _ => cases hs

omit [DecidableEq Task] in
theorem computed_of_decided {p : CallPlace β} (h : p.decided = true)
    (captures : List (WorkspaceSnapshot β)) : p.Computed captures := by
  cases p with
  | idle | staged | looking | opened | attached | capturing | captured | referenced | rebased
  | complete => cases h
  | _ => trivial

/-- The other steps take a call on from where its result is known. -/
theorem later_cases {w w' : CallsWorld β Task} (hs : w.step retention e = some w') :
    w.prepare retention e = some w' ∨ w'.calls = w.calls ∨
      ∃ task p, w'.calls = Function.update w.calls task p ∧ p.decided = true := by
  have hsame : ∀ {u}, some u = some w' → u.calls = w.calls → w'.calls = w.calls :=
    fun heq h => Option.some.inj heq ▸ h
  have hmoves : ∀ {u : CallsWorld β Task} {task : Task} {p : CallPlace β}, some u = some w' →
      u.calls = Function.update w.calls task p → p.decided = true →
      ∃ task p, w'.calls = Function.update w.calls task p ∧ p.decided = true :=
    fun heq h hp => ⟨_, _, Option.some.inj heq ▸ h, hp⟩
  cases e with
  | user repo =>
    simp only [CallsWorld.step] at hs
    split at hs
    · exact Or.inr (Or.inl (hsame hs rfl))
    · cases hs
  | refresh record =>
    simp only [CallsWorld.step] at hs
    split at hs
    · exact Or.inr (Or.inl (hsame hs rfl))
    · cases hs
  | merge task =>
    simp only [CallsWorld.step] at hs
    split at hs
    · split at hs
      · exact Or.inr (Or.inr (hmoves hs rfl rfl))
      · exact Or.inr (Or.inr (hmoves hs rfl rfl))
    · cases hs
  | install task env =>
    simp only [CallsWorld.step, install] at hs
    split at hs
    · split at hs
      · split at hs
        · exact Or.inr (Or.inr (hmoves hs rfl rfl))
        · split at hs
          · exact Or.inr (Or.inr (hmoves hs rfl rfl))
          · refine Or.inr (Or.inr ?_)
            unfold reject at hs
            split at hs
            · exact hmoves hs rfl rfl
            · split at hs
              · exact hmoves hs rfl rfl
              · exact hmoves hs rfl rfl
      · exact Or.inr (Or.inr (hmoves hs rfl rfl))
    · cases hs
  | act task =>
    simp only [CallsWorld.step, act] at hs
    split at hs
    · obtain ⟨a, -, hs⟩ := Option.map_eq_some_iff.mp hs
      refine Or.inr (Or.inr ?_)
      split at hs
      · exact hs ▸ ⟨task, _, rfl, rfl⟩
      · split at hs
        · exact hs ▸ ⟨task, _, rfl, rfl⟩
        · exact hs ▸ ⟨task, _, rfl, rfl⟩
    · cases hs
  | finalize task env listed =>
    simp only [CallsWorld.step, finalize] at hs
    split at hs
    · split at hs
      · split at hs
        · exact Or.inr (Or.inr (hmoves hs rfl rfl))
        · cases hs
      · exact Or.inr (Or.inr (hmoves hs rfl rfl))
    · cases hs
  | scan task =>
    simp only [CallsWorld.step, scan] at hs
    split at hs
    · split at hs
      · exact Or.inr (Or.inr (hmoves hs rfl rfl))
      · exact Or.inr (Or.inr (hmoves hs rfl rfl))
      · exact Or.inr (Or.inr (hmoves hs rfl rfl))
    · cases hs
  | scanned task dropped =>
    simp only [CallsWorld.step, scanned] at hs
    split at hs
    · next i last hplace =>
      refine Or.inr (Or.inr (hmoves hs rfl ?_))
      cases last with
      | true => rfl
      | false => rfl
    · cases hs
  | clear task listed =>
    simp only [CallsWorld.step] at hs
    split at hs
    · split at hs
      · exact Or.inr (Or.inr (hmoves hs rfl rfl))
      · cases hs
    · cases hs
  | record task =>
    simp only [CallsWorld.step, record] at hs
    split at hs
    · obtain ⟨staged, -, hs⟩ := Option.map_eq_some_iff.mp hs
      exact Or.inr (Or.inr (hs ▸ ⟨task, _, rfl, rfl⟩))
    · cases hs
  | _ => exact Or.inl hs

/-- The events that are no preparation complete no capture. -/
theorem noted_of_not_prepare (h : ∀ w, r.world.prepare retention e ≠ some w) {w : CallsWorld β Task}
    (hs : r.world.step retention e = some w) : r.noted e = r.captures := by
  cases e with
  | stage task => exact absurd hs (h w)
  | read task cleared => exact absurd hs (h w)
  | _ => rfl

theorem Orderly.step (h : r.Orderly) (hs : r.step retention e = some r') : r'.Orderly := by
  obtain ⟨w, hw, rfl⟩ := Option.map_eq_some_iff.mp hs
  by_cases hprepare : r.world.prepare retention e = some w
  · exact h.prepare hprepare
  · have hnot : ∀ u, r.world.prepare retention e ≠ some u := by
      intro u hu
      refine hprepare ?_
      cases e with
      | stage | look | read | check | reference | rebase | cleanUp | remove | fail => exact hw
      | _ => cases hu
    rw [noted_of_not_prepare hnot hw]
    rcases later_cases hw with hpreparing | hsame | ⟨task, p, hcalls, hp⟩
    · exact absurd hpreparing hprepare
    · intro task
      change (w.calls task).Computed (r.captures task)
      rw [hsame]
      exact h task
    · exact h.place hcalls (computed_of_decided hp _)

/-- A merge is put down with what the recheck has decided. -/
theorem merge_step {task : Task} (hs : r.step retention (.merge task) = some r') :
    ∃ record result expected branch target,
      r.world.calls task = .complete record result expected branch target ∧
      r.world.exclusive = none ∧
      (DaemonWorld.stillComplete r.world.project expected branch target = true ∧
          r'.merges = r.merges ++ [⟨r.world.project, result.outcome,
            mergeReconciliationState r.world.project record,
            decide (r.world.Holds branch (r.captures task))⟩] ∨
        DaemonWorld.stillComplete r.world.project expected branch target = false ∧
          r'.merges = r.merges ++ [⟨r.world.project, .retry, r.world.project,
            decide (r.world.Holds branch (r.captures task))⟩]) := by
  obtain ⟨w, hw, rfl⟩ := Option.map_eq_some_iff.mp hs
  simp only [CallsWorld.step] at hw
  split at hw
  · next record result expected branch target hplace hfree =>
    refine ⟨record, result, expected, branch, target, hplace, hfree, ?_⟩
    split at hw
    · next hstill =>
      obtain rfl := Option.some.inj hw
      refine Or.inl ⟨hstill, congrArg (r.merges ++ ·) ?_⟩
      simp only [merging, hplace, CallsWorld.place, Function.update_self]
    · next hstill =>
      obtain rfl := Option.some.inj hw
      refine Or.inr ⟨Bool.eq_false_iff.mpr hstill, congrArg (r.merges ++ ·) ?_⟩
      simp only [merging, hplace, CallsWorld.place, Function.update_self]
  · cases hw

theorem merges_of_other (he : ∀ task, e ≠ .merge task) (hs : r.step retention e = some r') :
    r'.merges = r.merges := by
  obtain ⟨w, -, rfl⟩ := Option.map_eq_some_iff.mp hs
  have hnone : r.world.merging w r.captures e = [] := by
    cases e with
    | merge task => exact absurd rfl (he task)
    | _ => rfl
  change r.merges ++ r.world.merging w r.captures e = r.merges
  rw [hnone, List.append_nil]

theorem MergesProperly.step (h : r.MergesProperly) (hok : r.RecheckSuffices e)
    (hs : r.step retention e = some r') : r'.MergesProperly := by
  by_cases he : ∃ task, e = .merge task
  · obtain ⟨task, rfl⟩ := he
    obtain ⟨record, result, expected, branch, target, hplace, hfree, hmerged⟩ := merge_step hs
    simp only [RecheckSuffices, hplace, hfree] at hok
    intro m hm
    rcases hmerged with ⟨hstill, hmerges⟩ | ⟨-, hmerges⟩
    · rw [hmerges] at hm
      rcases List.mem_append.mp hm with hm | hm
      · exact h m hm
      · rw [List.mem_singleton.mp hm]
        intro hheld
        exact absurd (hok hstill) (of_decide_eq_false hheld)
    · rw [hmerges] at hm
      rcases List.mem_append.mp hm with hm | hm
      · exact h m hm
      · rw [List.mem_singleton.mp hm]
        exact fun _ => ⟨rfl, rfl⟩
  · have hmerges := merges_of_other (fun task heq => he ⟨task, heq⟩) hs
    intro m hm
    rw [hmerges] at hm
    exact h m hm

/-- A merge that is proper has found HEAD's branch and the workspace as they were, or
has been refused by the recheck. -/
theorem recheckSuffices_of_merges (h : r.Orderly)
    (hnext : ∀ r', r.step retention e = some r' → r'.MergesProperly) : r.RecheckSuffices e := by
  unfold RecheckSuffices
  split
  · next task =>
    split
    · next record result expected branch target hplace hfree =>
      intro hstill
      by_contra hnot
      have hw : r.world.step retention (.merge task) =
          some { r.world.place task (.answered (some result.outcome) none) with
            project := mergeReconciliationState r.world.project record } := by
        simp only [CallsWorld.step, hplace, hfree, hstill, ↓reduceIte]
      obtain ⟨r', hs⟩ : ∃ r', r.step retention (.merge task) = some r' :=
        ⟨_, Option.map_eq_some_iff.mpr ⟨_, hw, rfl⟩⟩
      obtain ⟨record', result', expected', branch', target', hplace', -, hmerged⟩ := merge_step hs
      obtain ⟨rfl, rfl, rfl, rfl, rfl⟩ := CallPlace.complete.inj (hplace.symm.trans hplace')
      rcases hmerged with ⟨-, hmerges⟩ | ⟨hrefused, -⟩
      · have hproper :=
          hnext r' hs _ (hmerges ▸ List.mem_append_right _ (List.mem_singleton_self _))
        have hretry : result.outcome = .retry := (hproper (decide_eq_false hnot)).1
        have hcomputed := h task
        rw [hplace] at hcomputed
        obtain ⟨-, -, -, -, -, -, -, houtcome | houtcome⟩ := hcomputed
        · rw [houtcome] at hretry
          cases hretry
        · rw [houtcome] at hretry
          cases hretry
      · rw [hstill] at hrefused
        cases hrefused
    · trivial
  · trivial

/-- A result that needs no installation is only merged while HEAD's branch and the
workspace are as they were read, exactly when at each merge they are, or the recheck of
the generation and of the advertised head refuses it. -/
theorem complete_results_hold_iff (checkout : Checkout β) (project : LocalProject (Revision β))
    (es : List (CallsEvent β Task)) :
    Runs.Steps (step retention) RecheckSuffices (initial checkout project) es ↔
      ∀ done rest r, es = done ++ rest →
        Runs.run (step retention) (initial checkout project) done = some r →
        r.MergesProperly := by
  have hstep : ∀ (r : ReadingWorld β Task) e r', (r.Orderly ∧ r.MergesProperly) →
      r.RecheckSuffices e → r.step retention e = some r' → r'.Orderly ∧ r'.MergesProperly :=
    fun r e r' h hok hs => ⟨h.1.step hs, h.2.step hok hs⟩
  apply Runs.steps_iff_forall_reached hstep
  · exact fun r h => h.2
  · exact fun r e h hnext => recheckSuffices_of_merges h.1 hnext
  · exact ⟨orderly_initial checkout project, fun m hm => by cases hm⟩

section OneCall

open CallsWorld

/-- The hosted `main` has never been applied. -/
def unappliedProject : LocalProject (Revision ℕ) :=
  { CallsWorld.behindProject with lastAppliedHeads := fun _ => none }

/-- `main` has a commit that the hosted one lacks. -/
def divergedRepo (head : Branch) : Repository ℕ :=
  { (stagedAndOther.setRef (.branch "main") (some topicRevision)).setRef (.branch "topic")
      (some oldRevision) with head := .attached head }

/-- A user switches to `topic` after the preparation has found the divergence. -/
def switchesBeforeMerge (task : Fin 2) : List (CallsEvent ℕ (Fin 2)) :=
  [.stage task, .look task true, .read task true, .read task true, .read task true,
    .user (divergedRepo "topic"), .merge task]

def mergesLate (r : ReadingWorld ℕ (Fin 2)) : Bool :=
  r.merges.any (fun m => !m.held && m.answer == .conflict) &&
    (r.world.project.state == .conflicted && r.world.repo.headBranch == some "topic")

/-- The conflict of `main` is recorded while HEAD is on `topic`. -/
theorem late_conflict_is_recorded : ∃ r,
    Runs.run (step noRetention) (initial ⟨divergedRepo "main", fun _ => none⟩ unappliedProject)
      (switchesBeforeMerge 0) = some r ∧
    r.world.project.state = .conflicted ∧ r.world.repo.headBranch = some "topic" ∧
    ¬ r.MergesProperly := by
  have htest : (Runs.run (step noRetention)
      (initial ⟨divergedRepo "main", fun _ => none⟩ unappliedProject)
      (switchesBeforeMerge 0)).map mergesLate = some true := by decide +kernel
  obtain ⟨r, hr, hlate⟩ := Option.map_eq_some_iff.mp htest
  rw [mergesLate, Bool.and_eq_true, Bool.and_eq_true, beq_iff_eq, beq_iff_eq] at hlate
  obtain ⟨hmerge, hstate, hhead⟩ := hlate
  refine ⟨r, hr, hstate, hhead, fun hproper => ?_⟩
  obtain ⟨m, hm, hconflict⟩ := List.any_eq_true.mp hmerge
  rw [Bool.and_eq_true, Bool.not_eq_true', beq_iff_eq] at hconflict
  have hretry := (hproper m hm hconflict.1).1
  rw [hconflict.2] at hretry
  cases hretry

end OneCall

end ReadingWorld

end Resync
