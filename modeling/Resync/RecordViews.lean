import Resync.RecordCalls

/-! The steps of the daemon, seen from one record: what they do to it and to the
refs of its checkout is what the critical sections of the record do. -/
namespace Resync

variable {Oid Task : Type}

/-- Where a call stands that has prepared its result. -/
def Pending.place (caller : Caller) (name : String) : Pending Oid → Reconciliation Oid
  | .failed => .answered caller name none
  | .complete staged result expected branch target =>
    .complete caller name staged result expected branch target
  | .prepared p candidate => .prepared caller name p candidate

namespace DaemonWorld

/-- A project of the catalog with its checkout. -/
def view (w : DaemonWorld Oid Task) (project : LocalProject Oid) : RecordWorld Oid :=
  ⟨project, w.publish.checkouts project.localPath⟩

variable [DecidableEq Oid] {G : CommitGraph Oid} {env : RecordAnswers Oid}

/-- A preparation that leaves a candidate has had it from the rebase. -/
theorem candidate_of_prepared {v : RecordWorld Oid} {staged : LocalProject Oid} {expected : ℕ}
    {branch : Branch} {target : Oid}
    (h : prepareProjectReconciliation G (env.answers v.refs) v.record =
      some (.prepared staged expected branch target)) :
    ∃ base candidate, env.rebase v.refs base target = .ready candidate ∧
      env.candidate G v branch target = some candidate := by
  unfold prepareProjectReconciliation at h
  obtain ⟨found, -, h⟩ := Option.bind_eq_some_iff.mp h
  dsimp only at h
  split at h
  · split at h
    · cases h
    · cases h
  · next advertised _ =>
    obtain ⟨head, hhead, h⟩ := Option.bind_eq_some_iff.mp h
    split at h
    · split at h
      · cases h
      · cases h
    · split at h
      · cases h
      · next base hbase =>
        obtain ⟨prepared, hprepared, h⟩ := Option.bind_eq_some_iff.mp h
        cases prepared with
        | some prepared =>
          obtain ⟨applied, -, h⟩ := Option.bind_eq_some_iff.mp h
          cases h
        | none =>
          cases h
          have hanswer : (env.rebase v.refs base target).answer base target = some none := hprepared
          have hbase' : reconciliationBase G v.record branch target head = some base := hbase
          have hhead' : v.refs.headCommit = some head := hhead
          cases hrebase : env.rebase v.refs base target with
          | ready candidate =>
            refine ⟨base, candidate, hrebase, ?_⟩
            simp only [RecordAnswers.candidate, hhead', hbase', hrebase, Option.bind_eq_bind,
              Option.bind_some]
          | failed =>
            rw [hrebase, Rebase.answer] at hanswer
            split at hanswer <;> cases hanswer
          | conflict detail =>
            rw [hrebase, Rebase.answer] at hanswer
            split at hanswer <;> cases hanswer

variable [DecidableEq Task] {w w' : DaemonWorld Oid Task} {task : Option Task} {caller : Caller}
  {name : String} {project : LocalProject Oid} {i : ℕ}

/-- The preparation of a call while HEAD stays on the branch that it has read. -/
theorem prepare_view {branch : Branch} {cleared : Bool} {rebase : Rebase Oid}
    (hplace : w.reconciling task = .located caller name project branch)
    (hbranch : (w.view project).refs.headBranch = some branch) (hcleared : env.cleared = cleared)
    (hrebase : ∀ base target, env.rebase (w.view project).refs base target = rebase)
    (h : w.prepare G task cleared rebase = some w') :
    w'.reconciling task = ((w.view project).prepare G env).place caller name := by
  have hview : prepareProjectReconciliation G (env.answers (w.view project).refs)
      (w.view project).record = prepareProjectReconciliation G
        (rebase.answers branch (w.publish.checkouts project.localPath).headCommit cleared)
        project := by
    have hanswers : env.answers (w.view project).refs =
        rebase.answers branch (w.view project).refs.headCommit cleared := by
      simp only [RecordAnswers.answers, Rebase.answers, hbranch, hcleared, hrebase]
    rw [hanswers]
    rfl
  unfold prepare at h
  rw [hplace] at h
  dsimp only at h
  rw [← hview] at h
  unfold RecordWorld.prepare
  generalize hprepared : prepareProjectReconciliation G (env.answers (w.view project).refs)
    (w.view project).record = prepared at h ⊢
  cases prepared with
  | none =>
    obtain rfl := Option.some.inj h
    exact Function.update_self ..
  | some prepared =>
    cases prepared with
    | complete staged result expected b target =>
      obtain rfl := Option.some.inj h
      exact Function.update_self ..
    | prepared staged expected b target =>
      obtain ⟨base, candidate, hready, hcandidate⟩ := candidate_of_prepared hprepared
      rw [hrebase base target] at hready
      subst hready
      obtain rfl := Option.some.inj h
      simp only [hcandidate]
      exact Function.update_self ..

/-- The merge of a result that needs no installation. -/
theorem merge_view {persisted : Bool} {staged : LocalProject Oid} {result : ReconcileResult Oid}
    {expected : ℕ} {branch : Branch} {target : Option Oid}
    (hplace : w.reconciling task = .complete caller name staged result expected branch target)
    (hi : w.position name = some i) (hp : w.publish.catalog.projects[i]? = some project)
    (h : w.merge task persisted = some w') :
    w'.publish.catalog.projects[i]? = some
      ((w.view project).finish env (.complete staged result expected branch target)).1.record := by
  have hproject := findProject_of_position hi hp
  unfold merge at h
  rw [hplace] at h
  dsimp only at h
  rw [hproject] at h
  dsimp only at h
  split at h
  · next hstill =>
    obtain rfl := Option.some.inj h
    rw [RecordWorld.finish, view, if_pos hstill]
    exact (record_updateProject hp).trans (congrArg some (if_pos hi))
  · next hstill =>
    obtain rfl := Option.some.inj h
    rw [RecordWorld.finish, view, if_neg hstill]
    exact hp

/-- An installation, and the merge of what it gives. -/
theorem install_view {installed : Installed} {persisted : Bool} {p : PreparedProject Oid}
    {candidate : PreparedInstall Oid}
    (hplace : w.reconciling task = .prepared caller name p candidate)
    (hi : w.position name = some i) (hp : w.publish.catalog.projects[i]? = some project)
    (hinstall : env.install candidate = installed)
    (h : w.install G task installed env.installCleared persisted = some w') :
    w'.publish.catalog.projects[i]? =
        some ((w.view project).finish env (.prepared p candidate)).1.record ∧
      (w'.view project).refs = ((w.view project).finish env (.prepared p candidate)).1.refs := by
  have hproject := findProject_of_position hi hp
  unfold install at h
  rw [hplace] at h
  dsimp only at h
  rw [hproject] at h
  dsimp only at h
  split at h
  · next hwanted =>
    obtain ⟨publish, hmoved, hw⟩ := Option.map_eq_some_iff.mp h
    -- The branch of the view moves as that of the checkout does.
    have hpublish : publish.catalog = w.publish.catalog ∧ publish.checkouts project.localPath =
        ((w.view project).moved candidate installed).refs := by
      split at hmoved
      · next hmoves =>
        obtain rfl := PublishWorld.install_eq_some hmoved
        rw [RecordWorld.moved, if_pos hmoves]
        exact ⟨rfl, Function.update_self ..⟩
      · next hmoves =>
        obtain rfl := Option.some.inj hmoved
        rw [RecordWorld.moved, if_neg hmoves]
        exact ⟨rfl, rfl⟩
    obtain ⟨hcatalog, hrefs⟩ := hpublish
    rw [RecordWorld.finish, view, if_pos hwanted, hinstall]
    dsimp only
    have hback : ((installed.result candidate).bind fun r =>
        (applyReconciliationResult p.staged p.branch p.target r env.installCleared).map
          fun staged => (staged, r.outcome)) =
        (p.back candidate installed env.installCleared).map fun m => (m.staged, m.outcome) := by
      rw [PreparedProject.back, Option.map_bind]
      refine congrArg _ (funext fun r => ?_)
      rw [Function.comp_apply, Option.map_map]
      rfl
    have hrecord : ((w.view project).moved candidate installed).record = project := by
      rw [RecordWorld.moved]
      split <;> rfl
    rw [← hcatalog] at hp
    rw [hback] at hw
    cases hm : p.back candidate installed env.installCleared with
    | none =>
      rw [hm] at hw
      subst hw
      exact ⟨hp.trans (congrArg some hrecord.symm), hrefs⟩
    | some m =>
      rw [hm] at hw
      subst hw
      refine ⟨?_, hrefs⟩
      have hposition : publish.catalog.projects.findIdx? (·.named name) = some i := hcatalog ▸ hi
      refine (record_updateProject hp).trans (congrArg some ?_)
      rw [if_pos hposition]
      exact congrArg (mergeReconciliationState · m.staged) hrecord.symm
  · next hwanted =>
    obtain rfl := Option.some.inj h
    rw [RecordWorld.finish, view, if_neg hwanted]
    exact ⟨hp, rfl⟩

omit [DecidableEq Task] in
/-- A refresh of a project on the branch that it has read. -/
theorem refreshRecord_view (branch : Branch) (answer : RefreshAnswer Oid) :
    PublishWorld.refreshRecord G w.publish branch answer project =
      refreshInto G (w.publish.hosted project.remoteUrl) (w.view project).refs branch answer
        project := by
  cases answer <;> rfl

end DaemonWorld

end Resync
