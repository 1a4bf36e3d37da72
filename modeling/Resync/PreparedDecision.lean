import Resync.RecordCalls

/-! What a call of `reconcile_exclusive` reads of the record that it has cloned,
and what it merges: a preparation is a decision about the branch of HEAD, made
into a result by the rest of the record. -/
namespace Resync

variable {Oid : Type}

/-- The fields that `merge_reconciliation_state` copies. -/
structure SameMerged (p q : LocalProject Oid) : Prop where
  activeBranch : p.activeBranch = q.activeBranch
  lastAppliedHeads : p.lastAppliedHeads = q.lastAppliedHeads
  workspaceGeneration : p.workspaceGeneration = q.workspaceGeneration
  state : p.state = q.state
  conflict : p.conflict = q.conflict

theorem SameMerged.refl (p : LocalProject Oid) : SameMerged p p := ⟨rfl, rfl, rfl, rfl, rfl⟩

theorem SameMerged.symm {p q : LocalProject Oid} (h : SameMerged p q) : SameMerged q p :=
  ⟨h.activeBranch.symm, h.lastAppliedHeads.symm, h.workspaceGeneration.symm, h.state.symm,
    h.conflict.symm⟩

theorem SameMerged.merge {p q staged staged' : LocalProject Oid} (h : SameMerged staged staged') :
    SameMerged (mergeReconciliationState p staged) (mergeReconciliationState q staged') :=
  ⟨h.activeBranch, h.lastAppliedHeads, h.workspaceGeneration, h.state, h.conflict⟩

/-- A result sets the state and the conflict; the other merged fields it takes
from the record. -/
theorem applyReconciliationResult_same {p q : LocalProject Oid}
    (hactive : p.activeBranch = q.activeBranch)
    (hheads : p.lastAppliedHeads = q.lastAppliedHeads)
    (hgen : p.workspaceGeneration = q.workspaceGeneration)
    (branch : Branch) (target : Oid) (result : ReconcileResult Oid) (cleared : Bool) :
    Option.Rel SameMerged (applyReconciliationResult p branch target result cleared)
      (applyReconciliationResult q branch target result cleared) := by
  unfold applyReconciliationResult
  cases result.outcome with
  | applied | current =>
    cases cleared with
    | false => exact .none
    | true =>
      refine .some ⟨hactive, ?_, ?_, rfl, rfl⟩
      · simp only [hheads]
      · simp only [hgen]
  | conflict | retry => exact .some ⟨hactive, hheads, hgen, rfl, rfl⟩

theorem back_of_staged {x y : Option (LocalProject Oid)} (h : Option.Rel SameMerged x y)
    (branch : Branch) (outcome : Outcome) :
    Option.Rel (fun m m' : MergeBack Oid => SameMerged m.staged m'.staged)
      (x.map fun staged => ⟨branch, staged, outcome⟩)
      (y.map fun staged => ⟨branch, staged, outcome⟩) := by
  cases h with
  | none => exact .none
  | some h => exact .some h

/-- The heads after a result: the target is recorded if it is applied or current. -/
def recorded (heads : Branch → Option Oid) (branch : Branch) (target : Option Oid) :
    Outcome → Branch → Option Oid
  | .applied | .current =>
    match target with
    | some target => Function.update heads branch (some target)
    | none => heads
  | .conflict | .retry => heads

theorem recorded_of_ne {heads : Branch → Option Oid} {branch b : Branch} {target : Option Oid}
    {outcome : Outcome} (hb : b ≠ branch) : recorded heads branch target outcome b = heads b := by
  cases outcome with
  | applied | current =>
    cases target with
    | none => rfl
    | some target => exact Function.update_of_ne hb ..
  | conflict | retry => rfl

theorem recorded_self {heads : Branch → Option Oid} {branch : Branch} {target : Oid}
    {outcome : Outcome} : recorded heads branch (some target) outcome branch = some target ↔
      heads branch = some target ∨ outcome = .applied ∨ outcome = .current := by
  cases outcome with
  | applied => exact iff_of_true (Function.update_self ..) (Or.inr (Or.inl rfl))
  | current => exact iff_of_true (Function.update_self ..) (Or.inr (Or.inr rfl))
  | conflict | retry => simp only [recorded, reduceCtorEq, or_false]

theorem applyReconciliationResult_recorded {project staged : LocalProject Oid} {branch : Branch}
    {target : Oid} {result : ReconcileResult Oid} {cleared : Bool}
    (h : applyReconciliationResult project branch target result cleared = some staged) :
    staged.activeBranch = project.activeBranch ∧ staged.lastAppliedHeads =
      recorded project.lastAppliedHeads branch (some target) result.outcome := by
  unfold applyReconciliationResult at h
  cases houtcome : result.outcome with
  | applied | current =>
    simp only [houtcome] at h
    split at h
    · exact Option.some.inj h ▸ ⟨rfl, rfl⟩
    · cases h
  | conflict | retry =>
    simp only [houtcome] at h
    exact Option.some.inj h ▸ ⟨rfl, rfl⟩

/-- What a preparation finds out; the rest of what it leaves is the record. -/
inductive Decision (Oid : Type) where
  | failed
  | current (target : Option Oid)
  | conflicted (conflict : Conflict) (result : ReconcileResult Oid) (target : Option Oid)
  | ready (candidate : PreparedInstall Oid) (target : Oid)

/-- The result that a preparation makes of the record, for the branch of HEAD. -/
def Decision.pending (record : LocalProject Oid) (branch : Branch) : Decision Oid → Pending Oid
  | .failed => .failed
  | .current target =>
    .complete { record with
      activeBranch := some branch,
      lastAppliedHeads := match target with
        | some target => Function.update record.lastAppliedHeads branch (some target)
        | none => record.lastAppliedHeads,
      state := .current, conflict := none }
      { outcome := .current } record.workspaceGeneration branch target
  | .conflicted conflict result target =>
    .complete { record with
      activeBranch := some branch, state := .conflicted, conflict := some conflict }
      { result with outcome := .conflict } record.workspaceGeneration branch target
  | .ready candidate target =>
    .prepared ⟨{ record with activeBranch := some branch, state := .reconciling },
      record.workspaceGeneration, branch, target⟩ candidate

/-- The decision names the advertised head of its branch. -/
def Decision.About (advertised : Option Oid) : Decision Oid → Prop
  | .failed => True
  | .current target => advertised = target
  | .conflicted _ _ target => advertised = target
  | .ready _ target => advertised = some target

/-- What the call merges if it is not sent away. -/
def Pending.back (env : RecordAnswers Oid) : Pending Oid → Option (MergeBack Oid)
  | .failed => none
  | .complete staged result _ branch _ => some ⟨branch, staged, result.outcome⟩
  | .prepared p candidate => p.back candidate (env.install candidate) env.installCleared

def Pending.moved (env : RecordAnswers Oid) (refs : LocalRefs Oid) : Pending Oid → LocalRefs Oid
  | .prepared _ candidate =>
    if (env.install candidate).moves then refs.setHead candidate.headRef candidate.new else refs
  | _ => refs

/-- The record with what is merged, if anything is. -/
def mergeIn (record : LocalProject Oid) : Option (MergeBack Oid) → LocalProject Oid
  | none => record
  | some back => mergeReconciliationState record back.staged

def replyOf : Option (MergeBack Oid) → CallReply
  | none => .failed
  | some back => .merged back.outcome

section Sections

variable [DecidableEq Oid] (G : CommitGraph Oid) (env : RecordAnswers Oid)

/-- The decision of a preparation; of the record it reads the advertised and the
last-applied head of the branch. -/
def RecordAnswers.decision (refs : LocalRefs Oid) (branch : Branch) (record : LocalProject Oid) :
    Decision Oid :=
  let current target := if env.cleared then Decision.current target else .failed
  match record.advertisedHeads branch, refs.headCommit with
  | none, _ => current none
  | some _, none => .failed
  | some target, some head =>
    if head = target ∨ G.isAncestor target head then current (some target)
    else match reconciliationBase G record branch target head with
      | none =>
        let detail := "local and hosted histories for branch " ++ branch ++ " diverge"
        .conflicted ⟨"diverged-history", detail, []⟩
          { outcome := .conflict, detail := some detail } (some target)
      | some base =>
        if base = target then current (some target)
        else match env.rebase refs base target with
          | .failed => .failed
          | .conflict detail =>
            .conflicted ⟨"reconciliation", detail, []⟩
              { outcome := .conflict, detail := some detail } (some target)
          | .ready candidate => .ready candidate target

variable {G env} {w : RecordWorld Oid} {branch : Branch}

theorem prepare_of_detached (h : w.refs.headBranch = none) : w.prepare G env = .failed := by
  have hprepare : prepareProjectReconciliation G (env.answers w.refs) w.record = none := by
    unfold prepareProjectReconciliation
    rw [RecordAnswers.answers, h]
    rfl
  rw [RecordWorld.prepare, hprepare]

/-- A preparation is its decision, made into a result from the record. -/
theorem prepare_eq (h : w.refs.headBranch = some branch) :
    w.prepare G env = (env.decision G w.refs branch w.record).pending w.record branch := by
  have hbranch : (env.answers w.refs).branch = some branch := h
  unfold RecordWorld.prepare prepareProjectReconciliation RecordAnswers.decision
  simp only [hbranch, Option.bind_eq_bind, Option.bind_some]
  have hcleared : (env.answers w.refs).cleared = env.cleared := rfl
  have hheads : (env.answers w.refs).head = w.refs.headCommit := rfl
  have hprepared : ∀ base target, (env.answers w.refs).prepared base target =
      (env.rebase w.refs base target).answer base target := fun _ _ => rfl
  simp only [hcleared, hheads, hprepared]
  cases htarget : w.record.advertisedHeads branch with
  | none => by_cases hc : env.cleared = true <;> simp only [hc, ↓reduceIte, Decision.pending,
      Bool.false_eq_true]
  | some target =>
    cases hhead : w.refs.headCommit with
    | none => simp only [Option.bind_none, Decision.pending]
    | some head =>
      simp only [Option.bind_some]
      by_cases hahead : head = target ∨ G.isAncestor target head = true
      · simp only [hahead, ↓reduceIte]
        by_cases hc : env.cleared = true <;> simp only [hc, ↓reduceIte, Decision.pending,
          Bool.false_eq_true]
      · simp only [hahead, ↓reduceIte]
        have hsame : reconciliationBase G { w.record with activeBranch := some branch } branch
            target head = reconciliationBase G w.record branch target head := rfl
        rw [hsame]
        cases hbase : reconciliationBase G w.record branch target head with
        | none => rfl
        | some base =>
          simp only
          by_cases hcurrent : base = target
          · simp only [hcurrent, Rebase.answer, ↓reduceIte, Option.bind_some,
              applyReconciliationResult]
            by_cases hc : env.cleared = true <;> simp only [hc, ↓reduceIte, Decision.pending,
              Option.bind_some, Option.bind_none, Bool.false_eq_true]
          · simp only [Rebase.answer, hcurrent, ↓reduceIte]
            cases hrebase : env.rebase w.refs base target with
            | failed => rfl
            | conflict detail => rfl
            | ready candidate =>
              simp only [Option.bind_some, RecordAnswers.candidate, hhead, hbase, hrebase,
                Option.bind_eq_bind, Decision.pending]

/-- The recheck under the catalog lock. -/
def Pending.wanted (w : RecordWorld Oid) : Pending Oid → Bool
  | .failed => true
  | .complete _ _ expected branch target =>
    DaemonWorld.stillComplete w.record expected branch target
  | .prepared p _ => AccessWorld.stillWanted w.record p w.refs.headBranch

omit [DecidableEq Oid] in
theorem mergeIn_same {record : LocalProject Oid} {x y : Option (MergeBack Oid)}
    (h : Option.Rel (fun m m' => SameMerged m.staged m'.staged) x y) :
    SameMerged (mergeIn record x) (mergeIn record y) := by
  cases h with
  | none => exact .refl record
  | some h => exact h.merge

omit [DecidableEq Oid] in
@[simp] theorem moved_headBranch (refs : LocalRefs Oid) (pending : Pending Oid) :
    (pending.moved env refs).headBranch = refs.headBranch := by
  cases pending with
  | prepared p candidate =>
    rw [Pending.moved]
    split <;> rfl
  | _ => rfl

theorem finish_wanted {pending : Pending Oid} (h : pending.wanted w = true) :
    w.finish env pending = (⟨mergeIn w.record (pending.back env), pending.moved env w.refs⟩,
      replyOf (pending.back env)) := by
  cases pending with
  | failed => rfl
  | complete staged result expected branch target =>
    rw [Pending.wanted] at h
    simp only [RecordWorld.finish, h, ↓reduceIte]
    rfl
  | prepared p candidate =>
    rw [Pending.wanted] at h
    have hmoved : w.moved candidate (env.install candidate) =
        ⟨w.record, (Pending.prepared p candidate).moved env w.refs⟩ := by
      rw [RecordWorld.moved, Pending.moved]
      split <;> rfl
    simp only [RecordWorld.finish, h, ↓reduceIte, Pending.back, hmoved]
    cases p.back candidate (env.install candidate) env.installCleared with
    | none => rfl
    | some back => rfl

theorem finish_unwanted {pending : Pending Oid} (h : ¬ pending.wanted w = true) :
    (w.finish env pending).1 = w ∧
      ((w.finish env pending).2 = .retry ∨ (w.finish env pending).2 = .failed) := by
  cases pending with
  | failed => exact absurd rfl h
  | complete staged result expected branch target =>
    rw [Pending.wanted] at h
    rw [RecordWorld.finish, if_neg h]
    exact ⟨rfl, Or.inl rfl⟩
  | prepared p candidate =>
    rw [Pending.wanted] at h
    rw [RecordWorld.finish, if_neg h]
    refine ⟨rfl, ?_⟩
    cases hdiscarded : env.discarded with
    | true => exact Or.inl rfl
    | false => exact Or.inr rfl

theorem decision_about (G : CommitGraph Oid) (env : RecordAnswers Oid) (branch : Branch)
    (refs : LocalRefs Oid) (record : LocalProject Oid) :
    (env.decision G refs branch record).About (record.advertisedHeads branch) := by
  have hcurrent : ∀ target, record.advertisedHeads branch = target →
      (if env.cleared = true then Decision.current target else .failed).About
        (record.advertisedHeads branch) := by
    intro target htarget
    split
    · exact htarget
    · trivial
  unfold RecordAnswers.decision
  dsimp only
  cases htarget : record.advertisedHeads branch with
  | none =>
    rw [htarget] at hcurrent
    exact hcurrent none rfl
  | some target =>
    rw [htarget] at hcurrent
    cases refs.headCommit with
    | none => trivial
    | some head =>
      dsimp only
      split
      · exact hcurrent (some target) rfl
      · split
        · rfl
        · split
          · exact hcurrent (some target) rfl
          · split
            · trivial
            · rfl
            · rfl

/-- A recheck that passes finds the advertised head and the generation that the
result was prepared from, and for a candidate also the branch. -/
theorem wanted_pending {record : LocalProject Oid} {d : Decision Oid}
    (hd : d.About (record.advertisedHeads branch))
    (h : (d.pending record branch).wanted w = true) :
    d = .failed ∨ w.record.workspaceGeneration = record.workspaceGeneration ∧
      w.record.advertisedHeads branch = record.advertisedHeads branch ∧
      ((∃ candidate target, d = .ready candidate target) → w.refs.headBranch = some branch) := by
  cases d with
  | failed => exact Or.inl rfl
  | current target | conflicted _ _ target =>
    have hstill : (w.record.workspaceGeneration == record.workspaceGeneration &&
        w.record.advertisedHeads branch == target) = true := h
    simp only [Bool.and_eq_true, beq_iff_eq] at hstill
    obtain ⟨hgen, htarget⟩ := hstill
    refine Or.inr ⟨hgen, htarget.trans hd.symm, ?_⟩
    rintro ⟨_, _, hready⟩
    cases hready
  | ready candidate target =>
    have hstill : (w.record.workspaceGeneration == record.workspaceGeneration &&
        w.record.advertisedHeads branch == some target &&
          w.refs.headBranch == some branch) = true := h
    simp only [Bool.and_eq_true, beq_iff_eq] at hstill
    obtain ⟨⟨hgen, htarget⟩, hbranch⟩ := hstill
    exact Or.inr ⟨hgen, htarget.trans hd.symm, fun _ => hbranch⟩

/-- A recheck passes that finds what the result was prepared from. -/
theorem wanted_decision {w' : RecordWorld Oid} {record : LocalProject Oid} {d : Decision Oid}
    (hd : d.About (record.advertisedHeads branch))
    (hgen : w'.record.workspaceGeneration = record.workspaceGeneration)
    (hadvertised : w'.record.advertisedHeads branch = record.advertisedHeads branch)
    (hready : (∃ candidate target, d = .ready candidate target) →
      w'.refs.headBranch = some branch) :
    (d.pending record branch).wanted w' = true := by
  cases d with
  | failed => rfl
  | current target | conflicted _ _ target =>
    have htarget : w'.record.advertisedHeads branch = target := hadvertised.trans hd
    simp only [Decision.pending, Pending.wanted, DaemonWorld.stillComplete, hgen, htarget,
      beq_self_eq_true, Bool.and_self]
  | ready candidate target =>
    have htarget : w'.record.advertisedHeads branch = some target := hadvertised.trans hd
    simp only [Decision.pending, Pending.wanted, AccessWorld.stillWanted, hgen, htarget,
      hready ⟨candidate, target, rfl⟩, beq_self_eq_true, Bool.and_self]

/-- Nothing sends a call away that was not interrupted. -/
theorem prepare_wanted (w : RecordWorld Oid) : (w.prepare G env).wanted w = true := by
  cases hbranch : w.refs.headBranch with
  | none =>
    rw [prepare_of_detached hbranch]
    rfl
  | some branch =>
    rw [prepare_eq hbranch]
    exact wanted_decision (decision_about G env _ w.refs w.record) rfl rfl fun _ => hbranch

theorem reconcile_eq (w : RecordWorld Oid) : w.reconcile G env =
    (⟨mergeIn w.record ((w.prepare G env).back env), (w.prepare G env).moved env w.refs⟩,
      replyOf ((w.prepare G env).back env)) :=
  finish_wanted (prepare_wanted w)

omit [DecidableEq Oid] in
/-- What is merged of a result: it is on the branch of the preparation, and
records the advertised head if the outcome is applied or current. -/
theorem back_spec {record : LocalProject Oid} {d : Decision Oid} {m : MergeBack Oid}
    (hd : d.About (record.advertisedHeads branch))
    (hm : (d.pending record branch).back env = some m) :
    m.branch = branch ∧ m.staged.activeBranch = some branch ∧ m.staged.lastAppliedHeads =
      recorded record.lastAppliedHeads branch (record.advertisedHeads branch) m.outcome := by
  cases d with
  | failed => cases hm
  | current target =>
    have htarget : record.advertisedHeads branch = target := hd
    obtain rfl := Option.some.inj hm
    refine ⟨rfl, rfl, ?_⟩
    rw [htarget]
    rfl
  | conflicted conflict result target =>
    obtain rfl := Option.some.inj hm
    exact ⟨rfl, rfl, rfl⟩
  | ready candidate target =>
    have htarget : record.advertisedHeads branch = some target := hd
    obtain ⟨result, -, hm⟩ := Option.bind_eq_some_iff.mp hm
    obtain ⟨staged, hstaged, rfl⟩ := Option.map_eq_some_iff.mp hm
    obtain ⟨hactive, hheads⟩ := applyReconciliationResult_recorded hstaged
    refine ⟨rfl, hactive, ?_⟩
    rw [htarget]
    exact hheads

/-- What a call can merge, by the branch of HEAD. -/
theorem prepare_back {m : MergeBack Oid} (hm : (w.prepare G env).back env = some m) :
    w.refs.headBranch = some m.branch ∧ m.staged.activeBranch = some m.branch ∧
      m.staged.lastAppliedHeads = recorded w.record.lastAppliedHeads m.branch
        (w.record.advertisedHeads m.branch) m.outcome := by
  cases hbranch : w.refs.headBranch with
  | none =>
    rw [prepare_of_detached hbranch] at hm
    cases hm
  | some branch =>
    rw [prepare_eq hbranch] at hm
    obtain ⟨rfl, hactive, hheads⟩ := back_spec (decision_about G env _ w.refs w.record) hm
    exact ⟨rfl, hactive, hheads⟩

/-- The record `q` was written by an operation that leaves what a preparation
with these refs reads, or records that the advertised head is the one of HEAD. -/
structure SameInputs (refs : LocalRefs Oid) (branch : Branch) (p q : LocalProject Oid) : Prop where
  workspaceGeneration : q.workspaceGeneration = p.workspaceGeneration
  advertised : q.advertisedHeads branch = p.advertisedHeads branch
  lastAppliedHeads : q.lastAppliedHeads = p.lastAppliedHeads ∨ ∃ target,
    p.advertisedHeads branch = some target ∧ refs.headCommit = some target ∧
      q.lastAppliedHeads = Function.update p.lastAppliedHeads branch (some target)

theorem decision_same {refs : LocalRefs Oid} {p q : LocalProject Oid}
    (h : SameInputs refs branch p q) :
    env.decision G refs branch q = env.decision G refs branch p := by
  rcases h.lastAppliedHeads with hheads | ⟨target, htarget, hhead, -⟩
  · simp only [RecordAnswers.decision, reconciliationBase, h.advertised, hheads]
  · -- HEAD is at the advertised head, and the last-applied heads are not read
    simp only [RecordAnswers.decision, h.advertised, htarget, hhead, true_or, ↓reduceIte]

theorem decision_at_head {refs : LocalRefs Oid} {p : LocalProject Oid} {target : Oid}
    (htarget : p.advertisedHeads branch = some target) (hhead : refs.headCommit = some target) :
    env.decision G refs branch p = .current (some target) ∨
      env.decision G refs branch p = .failed := by
  simp only [RecordAnswers.decision, htarget, hhead, true_or, ↓reduceIte]
  split
  · exact Or.inl rfl
  · exact Or.inr rfl

/-- Two records that a preparation reads alike get the same merged fields. -/
theorem back_same {refs : LocalRefs Oid} {p q : LocalProject Oid} (h : SameInputs refs branch p q) :
    Option.Rel (fun m m' => SameMerged m.staged m'.staged)
      (((env.decision G refs branch q).pending q branch).back env)
      (((env.decision G refs branch p).pending p branch).back env) := by
  rw [decision_same h]
  rcases h.lastAppliedHeads with hheads | ⟨target, htarget, hhead, hheads⟩
  · cases env.decision G refs branch p with
    | failed => exact .none
    | current target =>
      refine .some ⟨rfl, ?_, h.workspaceGeneration, rfl, rfl⟩
      rw [hheads]
    | conflicted conflict result target =>
      exact .some ⟨rfl, hheads, h.workspaceGeneration, rfl, rfl⟩
    | ready candidate target =>
      simp only [Decision.pending, Pending.back, PreparedProject.back]
      cases (env.install candidate).result candidate with
      | none => exact .none
      | some result =>
        apply back_of_staged
        apply applyReconciliationResult_same
        · rfl
        · exact hheads
        · exact h.workspaceGeneration
  · have hat : env.decision G refs branch p = .current (some target) ∨
        env.decision G refs branch p = .failed := decision_at_head htarget hhead
    rcases hat with hd | hd
    · rw [hd]
      refine .some ⟨rfl, ?_, h.workspaceGeneration, rfl, rfl⟩
      change Function.update q.lastAppliedHeads branch (some target) = _
      rw [hheads, Function.update_idem]
    · rw [hd]
      exact .none

/-- A recheck that passes before something is merged. -/
theorem wanted_prepare {w' : RecordWorld Oid} {m : MergeBack Oid}
    (hm : (w.prepare G env).back env = some m) (h : (w.prepare G env).wanted w' = true) :
    w'.record.workspaceGeneration = w.record.workspaceGeneration ∧
      w'.record.advertisedHeads m.branch = w.record.advertisedHeads m.branch := by
  have hbranch := (prepare_back hm).1
  rw [prepare_eq hbranch] at hm h
  rcases wanted_pending (decision_about G env _ w.refs w.record) h with hd | ⟨hgen, hadvertised, -⟩
  · rw [hd] at hm
    cases hm
  · exact ⟨hgen, hadvertised⟩

theorem refreshed_inputs (project : LocalProject Oid) (branch : Branch) (head : Oid) :
    (PublishWorld.refreshed G project branch head).1.advertisedHeads = project.advertisedHeads ∧
    (PublishWorld.refreshed G project branch head).1.activeBranch = project.activeBranch ∧
    ((PublishWorld.refreshed G project branch head).1.lastAppliedHeads = project.lastAppliedHeads ∨
      project.advertisedHeads branch = some head ∧
        (PublishWorld.refreshed G project branch head).1.lastAppliedHeads =
          Function.update project.lastAppliedHeads branch (some head)) := by
  unfold PublishWorld.refreshed
  split
  · exact ⟨rfl, rfl, Or.inl rfl⟩
  · split
    · exact ⟨rfl, rfl, Or.inl rfl⟩
    · next target htarget =>
      split
      · next heq =>
        refine ⟨rfl, rfl, Or.inr ⟨?_, ?_⟩⟩
        · rw [htarget, heq]
        · simp only [heq]
      · split <;> exact ⟨rfl, rfl, Or.inl rfl⟩

/-- A refresh leaves the generation, the branch and the last-applied heads, or it
records that HEAD is at the advertised head. -/
theorem refreshInto_spec (hosted : Branch → Option Oid) (refs : LocalRefs Oid) (branch : Branch)
    (answer : RefreshAnswer Oid) (p : LocalProject Oid) :
    (refreshInto G hosted refs branch answer p).workspaceGeneration = p.workspaceGeneration ∧
    (refreshInto G hosted refs branch answer p).activeBranch = p.activeBranch ∧
    ((refreshInto G hosted refs branch answer p).lastAppliedHeads = p.lastAppliedHeads ∨
      ∃ head, refs.headCommit = some head ∧
        (refreshInto G hosted refs branch answer p).advertisedHeads branch = some head ∧
        (refreshInto G hosted refs branch answer p).lastAppliedHeads =
          Function.update p.lastAppliedHeads branch (some head)) := by
  cases answer with
  | accessLost error => exact ⟨rfl, rfl, Or.inl rfl⟩
  | offline generation error => exact ⟨rfl, rfl, Or.inl rfl⟩
  | online generation fetched =>
    cases hhead : refs.headCommit with
    | none =>
      simp only [refreshInto, hhead]
      exact ⟨rfl, rfl, Or.inl rfl⟩
    | some head =>
      let advertised := advertiseInto hosted branch generation fetched p
      have hgen : (PublishWorld.refreshed G advertised branch head).1.workspaceGeneration =
          p.workspaceGeneration := DaemonWorld.refreshed_workspaceGeneration advertised branch head
      obtain ⟨hadvertised, hactive, hheads⟩ := refreshed_inputs (G := G) advertised branch head
      have hrecords : (PublishWorld.refreshed G advertised branch head).1.lastAppliedHeads =
            p.lastAppliedHeads ∨
          ∃ c, some head = some c ∧
            (PublishWorld.refreshed G advertised branch head).1.advertisedHeads branch = some c ∧
            (PublishWorld.refreshed G advertised branch head).1.lastAppliedHeads =
              Function.update p.lastAppliedHeads branch (some c) := by
        rcases hheads with hheads | ⟨htarget, hheads⟩
        · exact Or.inl hheads
        · exact Or.inr ⟨head, rfl, (congrFun hadvertised branch).trans htarget, hheads⟩
      simp only [refreshInto, hhead]
      split
      · exact ⟨hgen, hactive, hrecords⟩
      · exact ⟨hgen, hactive, hrecords⟩

theorem refreshInto_inputs {hosted : Branch → Option Oid} {refs : LocalRefs Oid}
    {answer : RefreshAnswer Oid} {p : LocalProject Oid}
    (hadvertised : (refreshInto G hosted refs branch answer p).advertisedHeads branch =
      p.advertisedHeads branch) :
    SameInputs refs branch p (refreshInto G hosted refs branch answer p) := by
  obtain ⟨hgen, -, hheads⟩ := refreshInto_spec (G := G) hosted refs branch answer p
  refine ⟨hgen, hadvertised, ?_⟩
  rcases hheads with hheads | ⟨head, hhead, htarget, hheads⟩
  · exact Or.inl hheads
  · exact Or.inr ⟨head, hadvertised.symm.trans htarget, hhead, hheads⟩

/-- A call that has its branch and merges nothing has failed, or its recheck
finds HEAD on the branch. -/
theorem wanted_back_none {w' : RecordWorld Oid} (hbranch : w.refs.headBranch = some branch)
    (hm : (w.prepare G env).back env = none) (h : (w.prepare G env).wanted w' = true) :
    w.prepare G env = .failed ∨ w'.refs.headBranch = some branch := by
  rw [prepare_eq hbranch] at hm h ⊢
  have habout := decision_about G env branch w.refs w.record
  cases hd : env.decision G w.refs branch w.record with
  | failed => exact Or.inl rfl
  | current target | conflicted _ _ target =>
    rw [hd] at hm
    cases hm
  | ready candidate target =>
    rw [hd] at h habout
    rcases wanted_pending habout h with hfailed | ⟨-, -, hready⟩
    · cases hfailed
    · exact Or.inr (hready ⟨candidate, target, rfl⟩)

/-- After a call the active branch is what it was before, or the branch of HEAD. -/
theorem reconcile_activeBranch (G : CommitGraph Oid) (env : RecordAnswers Oid)
    (w : RecordWorld Oid) :
    (mergeIn w.record ((w.prepare G env).back env)).activeBranch = w.record.activeBranch ∨
      (mergeIn w.record ((w.prepare G env).back env)).activeBranch = w.refs.headBranch := by
  cases hm : (w.prepare G env).back env with
  | none => exact Or.inl rfl
  | some m =>
    obtain ⟨hbranch, hactive, -⟩ := prepare_back hm
    exact Or.inr (hactive.trans hbranch.symm)

end Sections

end Resync
