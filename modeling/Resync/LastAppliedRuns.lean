import Resync.LastApplied

/-! The last-applied heads over whole runs: what a step records is on its branch,
and so stays there, in the catalog and in the clones that may still be used. -/
namespace Resync

variable {Oid Task : Type}

namespace DaemonWorld

section Steps

variable [DecidableEq Oid] [DecidableEq Task] {G : CommitGraph Oid} {w w' : DaemonWorld Oid Task}
  {e : DaemonEvent Oid Task} {path : String}

theorem InstallMoves.heads {task : Option Task} {installed : Installed} {cleared persisted : Bool}
    {publish : PublishWorld Oid Task} (h : InstallMoves G w task installed publish) {b : Branch}
    {tip : Oid} (htip : (publish.checkouts path).heads b = some tip) :
    (w.publish.checkouts path).heads b = some tip ∨
      w.sets (.reconcile task (.install installed cleared persisted)) = some (path, b, tip) := by
  cases h with
  | stays => exact Or.inl htip
  | moves hplace hproject hwanted hmoved hstep =>
    obtain rfl := PublishWorld.install_eq_some hstep
    refine (PublishWorld.heads_setHead htip rfl).imp_right fun hset => ?_
    simp only [sets, hplace, hproject, Option.bind_some, hwanted, hmoved, Bool.and_self,
      ↓reduceIte, hset]

/-- A branch has the tip that it had, or the one that the step sets. -/
theorem step_heads (hs : w.step G e = some w') {b : Branch} {tip : Oid}
    (htip : (w'.publish.checkouts path).heads b = some tip) :
    (w.publish.checkouts path).heads b = some tip ∨ w.sets e = some (path, b, tip) := by
  have hsame : w'.publish.checkouts = w.publish.checkouts →
      (w.publish.checkouts path).heads b = some tip ∨ w.sets e = some (path, b, tip) := by
    intro hcheckouts
    rw [hcheckouts] at htip
    exact Or.inl htip
  cases e with
  | publish e =>
    have hstep := (publishes_step hs).1
    cases e with
    | user e => exact PublishWorld.user_heads hstep htip
    | call task e =>
      rw [PublishWorld.call_heads hstep] at htip
      exact Or.inl htip
    | deliver e =>
      rw [((PublishWorld.deliver_frame hstep).heads path).2] at htip
      exact Or.inl htip
    | restart => exact hsame (congrArg (·.checkouts) (Option.some.inj hstep).symm)
    | writeProject | install => cases hs
  | reconcile task e =>
    cases reconcile_publish hs with
    | stays same | merges _ same | notes _ same => exact hsame (congrArg (·.checkouts) same)
    | installs event moves =>
      subst event
      exact moves.heads htip
    | installsResult event moves _ same =>
      subst event
      rw [same] at htip
      exact moves.heads htip
    | answers _ _ delivers =>
      rw [((PublishWorld.deliver_frame delivers).heads path).2] at htip
      exact Or.inl htip

/-- Heads that the step does not leave behind stay covered. -/
theorem Covers.step {heads : Branch → Option Oid} (h : Covers G w path heads)
    (hs : w.step G e = some w')
    (hsets : ∀ b c x, w.sets e = some (path, b, c) → heads b = some x → G.Ancestor x c) :
    Covers G w' path heads := by
  intro b x tip hx htip
  rcases step_heads hs htip with hold | hset
  · exact h b x tip hx hold
  · exact hsets b tip x hset hx

theorem sets_eq_none (hs : w.step G e = some w') (hsets : w.sets e = none) {b : Branch} {tip : Oid}
    (htip : (w'.publish.checkouts path).heads b = some tip) :
    (w.publish.checkouts path).heads b = some tip := by
  rcases step_heads hs htip with hold | hset
  · exact hold
  · rw [hsets] at hset
    cases hset

omit [DecidableEq Task] in
/-- A commit that a branch is set to has the heads that are still held. -/
theorem Applied.sets_covers (h : Applied G w) (hadds : AddsOnTop G w e)
    (hok : AppliesOnBranch G w e) {b : Branch} {c x : Oid} (hset : w.sets e = some (path, b, c))
    (hx : HeldPast w e path b x) : G.Ancestor x c := by
  have hheld : ∀ tip, (w.publish.checkouts path).heads b = some tip → G.Ancestor x tip := by
    intro tip htip
    cases hx with
    | record _ hp hpath hx =>
      subst hpath
      exact h.records _ hp b x tip hx htip
    | clone _ hlive hpath hx =>
      subst hpath
      exact h.live _ _ _ hlive b x tip hx htip
  cases e with
  | publish e =>
    cases e with
    | user e =>
      have hadds' := hadds path b c hset
      cases htip : (w.publish.checkouts path).heads b with
      | none =>
        rw [htip] at hadds'
        exact hadds' x hx
      | some tip =>
        rw [htip] at hadds'
        exact (hheld tip htip).trans hadds'
    | _ => cases hset
  | reconcile task e =>
    cases e with
    | install installed cleared persisted => exact hok path b c hset x hx
    | _ => cases hset

/-- A project is found after a step where it was found before. -/
theorem find_step (hs : w.step G e = some w') {name : String} {p : LocalProject Oid}
    (hp : findProject w.publish.catalog name = some p) :
    ∃ i q, w.position name = some i ∧ w.publish.catalog.projects[i]? = some p ∧
      w'.publish.catalog.projects[i]? = some q ∧ findProject w'.publish.catalog name = some q ∧
      RecordStep G w e i p q := by
  obtain ⟨i, hi, hget⟩ := findProject_eq_some.mp hp
  obtain ⟨q, hq, hstep⟩ := step_record hs hget
  exact ⟨i, q, hi, hget, hq, findProject_of_position ((step_position hs name).trans hi) hq, hstep⟩

omit [DecidableEq Task] in
/-- What a step that merges nothing does to a record. -/
theorem RecordStep.unmerged {i : ℕ} {p q : LocalProject Oid} (h : RecordStep G w e i p q)
    (hm : w.merging e = none) : q.localPath = p.localPath ∧
      q.workspaceGeneration = p.workspaceGeneration := by
  refine ⟨identity_localPath h.identity, ?_⟩
  cases h with
  | keeps hkeep => exact hkeep.workspaceGeneration
  | refreshed => exact refreshRecord_workspaceGeneration
  | completed | noted => rfl
  | merged hmerging =>
    rw [hm] at hmerging
    cases hmerging

/-- A step that merges nothing leaves the last-applied heads of a record, or
records one that is on its branch. -/
theorem Applied.record_covered (h : Applied G w) (hadds : AddsOnTop G w e)
    (hok : AppliesOnBranch G w e) (hs : w.step G e = some w') (hm : w.merging e = none) {i : ℕ}
    {p q : LocalProject Oid} (hp : w.publish.catalog.projects[i]? = some p)
    (hstep : RecordStep G w e i p q) : Covers G w' p.localPath q.lastAppliedHeads := by
  have hmem : p ∈ w.publish.catalog.projects := List.mem_of_getElem? hp
  have hold : Covers G w' p.localPath p.lastAppliedHeads := by
    apply (h.records p hmem).step hs
    intro b c x hset hx
    exact h.sets_covers hadds hok hset (.record hm hmem rfl hx)
  cases hstep with
  | keeps hkeep =>
    rw [hkeep.lastAppliedHeads]
    exact hold
  | @refreshed task name branch answer i p hcall hi =>
    intro b x tip hx htip
    rcases refreshRecord_lastAppliedHeads hx with hx | ⟨generation, head, rfl, rfl, hhead, htarget,
      hstate⟩
    · exact hold b x tip hx htip
    · have hproject := findProject_of_position hi hp
      simp only [AppliesOnBranch, hcall] at hok
      exact hok p hproject x hhead htarget hstate tip (sets_eq_none hs rfl htip)
  | @completed a d ack completed hasPending i p hplace hi =>
    intro b x tip hx htip
    have hproject := findProject_of_position hi hp
    simp only [AppliesOnBranch, hplace] at hok
    have hupdate : Function.update p.lastAppliedHeads d.branch (some ack.remoteHead) b = some x :=
      hx
    by_cases hb : b = d.branch
    · subst hb
      rw [Function.update_self, Option.some.injEq] at hupdate
      rw [← hupdate]
      exact hok p hproject tip (sets_eq_none hs rfl htip)
    · rw [Function.update_of_ne hb] at hupdate
      exact hold b x tip hupdate htip
  | noted => exact hold
  | merged hmerging =>
    rw [hm] at hmerging
    cases hmerging

/-- A call has the place that it had, or the step is its own. -/
theorem place_cases (hs : w.step G e = some w') {task : Option Task} {name : String}
    {clone : LocalProject Oid} (hheld : (w'.reconciling task).held = some (name, clone)) :
    w'.reconciling task = w.reconciling task ∨
      ∃ e', e = .reconcile task e' ∧ PlaceStep G w task e' (w'.reconciling task) := by
  cases e with
  | publish e =>
    rcases (publishes_step hs).2 with hsame | hidle
    · exact Or.inl (congrFun hsame task)
    · rw [hidle] at hheld
      cases hheld
  | reconcile other e =>
    obtain ⟨r, hr, hplace⟩ := reconcile_place hs
    by_cases htask : task = other
    · subst htask
      rw [hr, Function.update_self]
      exact Or.inr ⟨e, rfl, hplace⟩
    · rw [hr, Function.update_of_ne htask]
      exact Or.inl rfl

omit [DecidableEq Oid] [DecidableEq Task] in
theorem held_of_copy {r : Reconciliation Oid} (h : r.copy = none) : r.held = none := by
  cases r with
  | staged | located | complete | prepared => cases h
  | _ => rfl

/-- What a preparation takes from a clone it has from the record, and what it
adds is on the branch that HEAD is on. -/
theorem Applied.place_covered (h : Applied G w) (hadds : AddsOnTop G w e)
    (hrebased : RebasedOnTarget G w e) (hok : AppliesOnBranch G w e) (hs : w.step G e = some w')
    (hm : w.merging e = none) {task : Option Task} {e' : ReconcileEvent Oid}
    {r : Reconciliation Oid} (he : e = .reconcile task e') (hplace : PlaceStep G w task e' r)
    {name : String} {clone : LocalProject Oid} (hheld : r.held = some (name, clone)) :
    (∃ p, findProject w.publish.catalog name = some p ∧ clone.localPath = p.localPath ∧
        clone.workspaceGeneration ≤ p.workspaceGeneration) ∧
      Covers G w' clone.localPath clone.lastAppliedHeads ∧ Promised G r := by
  subst he
  -- a clone that is not prepared yet is covered, whatever its generation
  have hcovers : ∀ {caller : Caller} {project : LocalProject Oid} {branch : Branch},
      w.reconciling task = .located caller name project branch →
      Live w task name project ∧ Covers G w' project.localPath project.lastAppliedHeads := by
    intro caller project branch hlocated
    have hlive : Live w task name project := by
      rw [Live, hlocated]
      exact ⟨rfl, Or.inl rfl⟩
    refine ⟨hlive, (h.live _ _ _ hlive).step hs fun b c x hset hx => ?_⟩
    exact h.sets_covers hadds hok hset (.clone (Or.inl hm) hlive rfl hx)
  cases hplace with
  | waits hcopy =>
    rw [held_of_copy hcopy] at hheld
    cases hheld
  | staged hcalled hproject =>
    cases hheld
    refine ⟨⟨_, hproject, rfl, le_rfl⟩, ?_, trivial⟩
    have hmem := findProject_mem hproject
    apply (h.records _ hmem).step hs
    intro b c x hset hx
    exact h.sets_covers hadds hok hset (.record hm hmem rfl hx)
  | located hstaged hbranch =>
    cases hheld
    have hlive : Live w task name clone := by
      rw [Live, hstaged]
      exact ⟨rfl, Or.inl rfl⟩
    refine ⟨h.clones _ _ _ hlive.1, (h.live _ _ _ hlive).step hs fun b c x hset hx => ?_, trivial⟩
    exact h.sets_covers hadds hok hset (.clone (Or.inl hm) hlive rfl hx)
  | @complete caller _ project branch cleared rebase _ result expected actual target hlocated
      hprepare =>
    cases hheld
    obtain ⟨hlive, hnew⟩ := hcovers hlocated
    obtain ⟨p, hp, hpath, hle⟩ := h.clones _ _ _ hlive.1
    obtain ⟨hpath', hheads⟩ := complete_spec hprepare
    obtain ⟨hexpected, hgeneration⟩ := prepareProjectReconciliation_generation G hprepare
    simp only [AppliesOnBranch, hlocated] at hok
    refine ⟨⟨p, hp, hpath'.trans hpath, ?_⟩, fun b x tip hx htip => ?_, hgeneration⟩
    · rw [hgeneration, hexpected]
      exact hle
    · rw [hpath'] at htip
      rcases hheads b x hx with hx | ⟨rfl, c, hc, hancestor⟩
      · exact hnew b x tip hx htip
      · have htip' := sets_eq_none hs rfl htip
        rw [LocalRefs.headCommit_of_headBranch hok.1, htip', Option.some.injEq] at hc
        rw [hc]
        exact hancestor
  | @prepared caller _ project branch cleared candidate record expected actual target hlocated
      hprepare =>
    cases hheld
    obtain ⟨hlive, hnew⟩ := hcovers hlocated
    obtain ⟨p, hp, hpath, hle⟩ := h.clones _ _ _ hlive.1
    obtain ⟨rfl, htarget, hpath', hheads⟩ := prepared_spec hprepare
    obtain ⟨hexpected, hgeneration⟩ := prepareProjectReconciliation_generation G hprepare
    simp only [AppliesOnBranch, hlocated] at hok
    simp only [RebasedOnTarget, hlocated] at hrebased
    refine ⟨⟨p, hp, hpath'.trans hpath, ?_⟩, ?_, hgeneration, hok.2, hrebased target htarget⟩
    · rw [hgeneration, hexpected]
      exact hle
    · rw [hpath', hheads]
      exact hnew

theorem paths_step (hs : w.step G e = some w')
    (h : (w.publish.catalog.projects.map (·.localPath)).Nodup) :
    (w'.publish.catalog.projects.map (·.localPath)).Nodup := by
  rw [(step_writes hs).map_localPath fun _ _ _ => RecordStep.identity]
  exact h

/-- The steps that merge nothing. -/
theorem Applied.unmerged_step (h : Applied G w) (hadds : AddsOnTop G w e)
    (hrebased : RebasedOnTarget G w e) (hok : AppliesOnBranch G w e) (hs : w.step G e = some w')
    (hm : w.merging e = none) : Applied G w' := by
  -- a record keeps its place, its path and its generation
  have hfind : ∀ {name p}, findProject w.publish.catalog name = some p →
      ∃ q, findProject w'.publish.catalog name = some q ∧ q.localPath = p.localPath ∧
        q.workspaceGeneration = p.workspaceGeneration := by
    intro name p hp
    obtain ⟨i, q, -, -, -, hq, hstep⟩ := find_step hs hp
    exact ⟨q, hq, hstep.unmerged hm⟩
  have hkept : ∀ {task name clone}, w'.reconciling task = w.reconciling task →
      (w.reconciling task).held = some (name, clone) →
      (∃ q, findProject w'.publish.catalog name = some q ∧ clone.localPath = q.localPath ∧
        clone.workspaceGeneration ≤ q.workspaceGeneration) ∧
      (Live w' task name clone → Covers G w' clone.localPath clone.lastAppliedHeads) := by
    intro task name clone hsame hheld
    obtain ⟨p, hp, hpath, hle⟩ := h.clones task name clone hheld
    obtain ⟨q, hq, hqpath, hqgen⟩ := hfind hp
    refine ⟨⟨q, hq, hpath.trans hqpath.symm, hle.trans hqgen.ge⟩, fun hlive => ?_⟩
    have hold : Live w task name clone := by
      refine ⟨hheld, ?_⟩
      rw [← hsame]
      apply hlive.2.imp_right
      rintro ⟨q', hq', hgen⟩
      obtain rfl := Option.some.inj (hq'.symm.trans hq)
      exact ⟨p, hp, hgen.trans hqgen⟩
    apply (h.live task name clone hold).step hs
    intro b c x hset hx
    exact h.sets_covers hadds hok hset (.clone (Or.inl hm) hold rfl hx)
  have hplaced : ∀ {task name clone}, (w'.reconciling task).held = some (name, clone) →
      (∃ q, findProject w'.publish.catalog name = some q ∧ clone.localPath = q.localPath ∧
        clone.workspaceGeneration ≤ q.workspaceGeneration) ∧
      (Live w' task name clone → Covers G w' clone.localPath clone.lastAppliedHeads) := by
    intro task name clone hheld
    rcases place_cases hs hheld with hsame | ⟨e', he, hplace⟩
    · exact hkept hsame (hsame ▸ hheld)
    · obtain ⟨⟨p, hp, hpath, hle⟩, hcovers, -⟩ :=
        h.place_covered hadds hrebased hok hs hm he hplace hheld
      obtain ⟨q, hq, hqpath, hqgen⟩ := hfind hp
      exact ⟨⟨q, hq, hpath.trans hqpath.symm, hle.trans hqgen.ge⟩, fun _ => hcovers⟩
  refine ⟨paths_step hs h.paths, fun q hq => ?_, fun task name clone hheld => (hplaced hheld).1,
    fun task name clone hlive => (hplaced hlive.1).2 hlive, fun task => ?_⟩
  · obtain ⟨i, hi⟩ := List.getElem?_of_mem hq
    obtain ⟨p, hp, hstep⟩ :=
      (step_writes hs).record_back (fun _ p => .keeps (KeepsResult.refl p)) hi
    rw [(hstep.unmerged hm).1]
    exact h.record_covered hadds hok hs hm hp hstep
  · cases hheld : (w'.reconciling task).held with
    | none =>
      cases hplace : w'.reconciling task with
      | staged | located | complete | prepared =>
        rw [hplace] at hheld
        cases hheld
      | _ => exact trivial
    | some held =>
      obtain ⟨name, clone⟩ := held
      rcases place_cases hs hheld with hsame | ⟨e', he, hplace⟩
      · rw [hsame]
        exact h.promised task
      · exact (h.place_covered hadds hrebased hok hs hm he hplace hheld).2.2

/-- An installation that moves a branch moves it to its candidate. -/
theorem install_tip {task : Option Task} {installed : Installed} {cleared persisted : Bool}
    (hs : w.install G task installed cleared persisted = some w') {caller : Caller} {name : String}
    {p : PreparedProject Oid} {candidate : PreparedInstall Oid} {project : LocalProject Oid}
    (hplace : w.reconciling task = .prepared caller name p candidate)
    (hproject : findProject w.publish.catalog name = some project)
    (hwanted : AccessWorld.stillWanted project p
      (w.publish.checkouts project.localPath).headBranch = true)
    (hmoves : installed.moves = true) :
    (w'.publish.checkouts project.localPath).heads candidate.headRef = some candidate.new := by
  simp only [install, hplace, hproject, hwanted, hmoves, ↓reduceIte] at hs
  obtain ⟨publish, hpublish, hw⟩ := Option.map_eq_some_iff.mp hs
  have htip : (publish.checkouts project.localPath).heads candidate.headRef =
      some candidate.new := by
    obtain rfl := PublishWorld.install_eq_some hpublish
    change (Function.update w.publish.checkouts project.localPath _ project.localPath).heads _ = _
    rw [Function.update_self]
    exact Function.update_self ..
  split at hw
  · exact hw ▸ htip
  · exact hw ▸ htip

/-- A step that merges writes one record and answers its call. -/
theorem merged_frame (hs : w.step G e = some w') {m : Merging Oid} (hm : w.merging e = some m) :
    (∃ task caller name outcome, w'.reconciling =
      Function.update w.reconciling task (.answered caller name outcome)) ∧
    w'.publish.catalog =
      updateProject w.publish.catalog m.name (mergeReconciliationState · m.staged) := by
  rcases merging_cases hm with
    ⟨task, persisted, caller, name, staged, result, expected, branch, target, project, rfl, hplace,
      hproject, hstill, rfl⟩ |
    ⟨task, installed, cleared, persisted, caller, name, p, candidate, project, result, staged, rfl,
      hplace, hproject, hwanted, hresult, hstaged, rfl⟩
  · have hs : w.reconcile G task (.merge persisted) = some w' := hs
    cases reconcileStep_of_reconcile hs with
    | mergesUnknown place unknown =>
      cases hplace.symm.trans place
      cases hproject.symm.trans unknown
    | merges place =>
      cases hplace.symm.trans place
      exact ⟨⟨task, _, _, _, rfl⟩, rfl⟩
    | isOutdated place found still =>
      cases hplace.symm.trans place
      cases hproject.symm.trans found
      exact absurd hstill still
  · have hs : w.reconcile G task (.install installed cleared persisted) = some w' := hs
    cases reconcileStep_of_reconcile hs with
    | installsUnknown place unknown =>
      cases hplace.symm.trans place
      cases hproject.symm.trans unknown
    | isUnwanted place found wanted =>
      cases hplace.symm.trans place
      cases hproject.symm.trans found
      exact absurd hwanted wanted
    | failsInstallation place _ _ _ hnone =>
      cases hplace.symm.trans place
      rw [hresult, Option.bind_some, hstaged] at hnone
      cases hnone
    | installs place found wanted moved hsome =>
      cases hplace.symm.trans place
      rw [hresult, Option.bind_some, hstaged] at hsome
      cases hsome
      refine ⟨⟨task, _, _, _, rfl⟩, ?_⟩
      rw [setPublish, DaemonWorld.place, PublishWorld.setProject,
        (installMoves_of_moved place found wanted moved).catalog]

/-- What is merged is on the branches, and a step that moves a branch ends the
generation of its project. -/
theorem Applied.merged_covered (h : Applied G w) (hs : w.step G e = some w') {m : Merging Oid}
    (hm : w.merging e = some m) :
    ∃ project, findProject w.publish.catalog m.name = some project ∧
      Covers G w' project.localPath m.staged.lastAppliedHeads ∧
      project.workspaceGeneration ≤ m.staged.workspaceGeneration ∧
      ∀ path b c, w.sets e = some (path, b, c) → path = project.localPath ∧
        project.workspaceGeneration < m.staged.workspaceGeneration := by
  rcases merging_cases hm with
    ⟨task, persisted, caller, name, staged, result, expected, branch, target, project, rfl, hplace,
      hproject, hstill, rfl⟩ |
    ⟨task, installed, cleared, persisted, caller, name, p, candidate, project, result, staged, rfl,
      hplace, hproject, hwanted, hresult, hstaged, rfl⟩
  · have hpromised := h.promised task
    rw [hplace] at hpromised
    have hgen : staged.workspaceGeneration = project.workspaceGeneration := by
      rw [stillComplete, Bool.and_eq_true, beq_iff_eq] at hstill
      exact hpromised.trans hstill.1.symm
    have hlive : Live w task name staged := by
      rw [Live, hplace]
      exact ⟨rfl, Or.inr ⟨project, hproject, hgen⟩⟩
    have hpath : staged.localPath = project.localPath := by
      obtain ⟨p, hp, hpath, -⟩ := h.clones _ _ _ hlive.1
      obtain rfl := Option.some.inj (hp.symm.trans hproject)
      exact hpath
    refine ⟨project, hproject, ?_, hgen.ge, fun path b c hset => by cases hset⟩
    rw [← hpath]
    exact (h.live _ _ _ hlive).step hs fun b c x hset => by cases hset
  · have hpromised := h.promised task
    rw [hplace] at hpromised
    obtain ⟨hexpected, hheadRef, htarget⟩ := hpromised
    have hgen : p.staged.workspaceGeneration = project.workspaceGeneration := by
      have hwanted' := hwanted
      rw [AccessWorld.stillWanted, Bool.and_eq_true, Bool.and_eq_true, beq_iff_eq] at hwanted'
      exact hexpected.trans hwanted'.1.1.symm
    have hlive : Live w task name p.staged := by
      rw [Live, hplace]
      exact ⟨rfl, Or.inr ⟨project, hproject, hgen⟩⟩
    have hpath : p.staged.localPath = project.localPath := by
      obtain ⟨q, hq, hpath, -⟩ := h.clones _ _ _ hlive.1
      obtain rfl := Option.some.inj (hq.symm.trans hproject)
      exact hpath
    have hcovers := h.live _ _ _ hlive
    rw [hpath] at hcovers
    have hstagedGen := applyReconciliationResult_workspaceGeneration hstaged
    -- only an applied result comes from a branch that has moved
    have hset : ∀ path b c, w.sets (.reconcile task (.install installed cleared persisted)) =
        some (path, b, c) → path = project.localPath ∧ b = p.branch ∧
          result.outcome = .applied := by
      intro path b c hset
      simp only [sets, hplace, hproject, Option.bind_some, hwanted, Bool.true_and] at hset
      split at hset
      · next hmoves =>
        cases hset
        refine ⟨rfl, hheadRef, ?_⟩
        cases installed with
        | failed moved => cases hresult
        | applied changedPaths => exact Option.some.inj hresult ▸ rfl
        | retry | conflict => cases hmoves
      · cases hset
    refine ⟨project, hproject, ?_, ?_, fun path b c hb => ?_⟩
    · intro b x tip hx htip
      by_cases hnew : result.outcome = .applied ∧ b = p.branch
      · obtain ⟨houtcome, rfl⟩ := hnew
        have hmoves : installed.moves = true := by
          cases installed with
          | failed moved => cases hresult
          | applied changedPaths => rfl
          | retry | conflict =>
            cases hresult
            cases houtcome
        have htip' := install_tip hs hplace hproject hwanted hmoves
        have hx' : staged.lastAppliedHeads p.branch = some x := hx
        rw [applied_lastAppliedHeads hstaged houtcome, Function.update_self, Option.some.injEq]
          at hx'
        rw [hheadRef, htip, Option.some.injEq] at htip'
        rw [← hx', htip']
        exact htarget
      · have htip' : (w.publish.checkouts project.localPath).heads b = some tip := by
          rcases step_heads hs htip with hold | hb
          · exact hold
          · obtain ⟨-, hbranch, houtcome⟩ := hset _ _ _ hb
            exact absurd ⟨houtcome, hbranch⟩ hnew
        rcases applyReconciliationResult_lastAppliedHeads hstaged hx with hold | ⟨houtcome, hb, -⟩
        · exact hcovers b x tip hold htip'
        · rcases houtcome with houtcome | houtcome
          · exact absurd ⟨houtcome, hb⟩ hnew
          -- no installation answers that it was current
          · cases installed with
            | failed moved => cases hresult
            | applied | retry | conflict =>
              cases hresult
              cases houtcome
    · rw [hstagedGen, hgen]
      split
      · exact Nat.le_succ _
      · exact le_rfl
    · obtain ⟨hpath', -, houtcome⟩ := hset path b c hb
      refine ⟨hpath', ?_⟩
      rw [hstagedGen, if_pos houtcome, hgen]
      exact Nat.lt_succ_self _

/-- The steps that merge. -/
theorem Applied.merged_step (h : Applied G w) (hadds : AddsOnTop G w e)
    (hok : AppliesOnBranch G w e) (hs : w.step G e = some w') {m : Merging Oid}
    (hm : w.merging e = some m) : Applied G w' := by
  obtain ⟨⟨own, caller, answered, outcome, hreconciling⟩, hcatalog⟩ := merged_frame hs hm
  obtain ⟨project, hproject, hcovers, hgrows, hset⟩ := h.merged_covered hs hm
  obtain ⟨i, hi, hget⟩ := findProject_eq_some.mp hproject
  have hself : w'.publish.catalog.projects[i]? =
      some (mergeReconciliationState project m.staged) := by
    rw [hcatalog, record_updateProject hget, if_pos hi]
  have hother : ∀ {j p}, w.publish.catalog.projects[j]? = some p → j ≠ i →
      w'.publish.catalog.projects[j]? = some p := by
    intro j p hp hj
    rw [hcatalog, record_updateProject hp, if_neg]
    intro hij
    exact hj (Option.some.inj (hij.symm.trans hi))
  -- the branch that moves is one of the merged project
  have hunique : ∀ {j p}, w.publish.catalog.projects[j]? = some p →
      p.localPath = project.localPath → j = i := by
    intro j p hp hpath
    have hj : (w.publish.catalog.projects.map (·.localPath))[j]? = some project.localPath := by
      rw [List.getElem?_map, hp, Option.map_some, hpath]
    have hi' : (w.publish.catalog.projects.map (·.localPath))[i]? = some project.localPath := by
      rw [List.getElem?_map, hget, Option.map_some]
    obtain ⟨hlt, -⟩ := List.getElem?_eq_some_iff.mp hj
    exact (List.getElem?_inj hlt h.paths).mp (hj.trans hi'.symm)
  have hcalls : ∀ {task name clone}, (w'.reconciling task).held = some (name, clone) →
      w'.reconciling task = w.reconciling task := by
    intro task name clone hheld
    by_cases htask : task = own
    · subst htask
      rw [hreconciling, Function.update_self] at hheld
      cases hheld
    · rw [hreconciling, Function.update_of_ne htask]
  have hfind : ∀ {name p}, findProject w.publish.catalog name = some p →
      ∃ j q, w.publish.catalog.projects[j]? = some p ∧
        findProject w'.publish.catalog name = some q ∧ q.localPath = p.localPath ∧
        (j = i ∧ p = project ∧ q.workspaceGeneration = m.staged.workspaceGeneration ∨
          j ≠ i ∧ q = p) := by
    intro name p hp
    obtain ⟨j, q, -, hpj, hqj, hq, hstep⟩ := find_step hs hp
    refine ⟨j, q, hpj, hq, identity_localPath hstep.identity, ?_⟩
    by_cases hj : j = i
    · subst hj
      obtain rfl := Option.some.inj (hqj.symm.trans hself)
      exact Or.inl ⟨rfl, Option.some.inj (hpj.symm.trans hget), rfl⟩
    · exact Or.inr ⟨hj, Option.some.inj (hqj.symm.trans (hother hpj hj))⟩
  refine ⟨paths_step hs h.paths, fun q hq => ?_, fun task name clone hheld => ?_,
    fun task name clone hlive => ?_, fun task => ?_⟩
  · obtain ⟨j, hj⟩ := List.getElem?_of_mem hq
    by_cases hji : j = i
    · subst hji
      obtain rfl := Option.some.inj (hj.symm.trans hself)
      exact hcovers
    · obtain ⟨p, hp, -⟩ :=
        (step_writes hs).record_back (fun _ p => .keeps (KeepsResult.refl p)) hj
      obtain rfl := Option.some.inj (hj.symm.trans (hother hp hji))
      apply (h.records q (List.mem_of_getElem? hp)).step hs
      intro b c x hb
      exact absurd (hunique hp (hset _ _ _ hb).1) hji
  · rw [hcalls hheld] at hheld
    obtain ⟨p, hp, hpath, hle⟩ := h.clones task name clone hheld
    obtain ⟨j, q, -, hq, hqpath, ⟨-, rfl, hgen⟩ | ⟨-, rfl⟩⟩ := hfind hp
    · exact ⟨q, hq, hpath.trans hqpath.symm, hgen ▸ hle.trans hgrows⟩
    · exact ⟨q, hq, hpath, hle⟩
  · have hheld := hlive.1
    have hsame := hcalls hheld
    rw [hsame] at hheld
    obtain ⟨p, hp, hpath, hle⟩ := h.clones task name clone hheld
    obtain ⟨j, q, hpj, hq, hqpath, hcases⟩ := hfind hp
    rcases hlive.2 with hunprepared | ⟨q', hq', hgen⟩
    · rw [hsame] at hunprepared
      have hold : Live w task name clone := ⟨hheld, Or.inl hunprepared⟩
      apply (h.live task name clone hold).step hs
      intro b c x hb hx
      exact h.sets_covers hadds hok hb (.clone (Or.inr hunprepared) hold rfl hx)
    · obtain rfl := Option.some.inj (hq'.symm.trans hq)
      have hold : Live w task name clone := by
        refine ⟨hheld, Or.inr ⟨p, hp, ?_⟩⟩
        rcases hcases with ⟨-, rfl, hqgen⟩ | ⟨-, rfl⟩
        · omega
        · exact hgen
      apply (h.live task name clone hold).step hs
      intro b c x hb
      obtain ⟨hclone, hlt⟩ := hset _ _ _ hb
      have hj : j = i := hunique hpj (hpath.symm.trans hclone)
      -- the clone's generation is over
      rcases hcases with ⟨-, rfl, hqgen⟩ | ⟨hne, -⟩
      · omega
      · exact absurd hj hne
  · cases hheld : (w'.reconciling task).held with
    | none =>
      cases hplace : w'.reconciling task with
      | staged | located | complete | prepared =>
        rw [hplace] at hheld
        cases hheld
      | _ => exact trivial
    | some held =>
      obtain ⟨name, clone⟩ := held
      rw [hcalls hheld]
      exact h.promised task

theorem Applied.step (h : Applied G w) (hadds : AddsOnTop G w e)
    (hrebased : RebasedOnTarget G w e) (hok : AppliesOnBranch G w e)
    (hs : w.step G e = some w') : Applied G w' := by
  cases hm : w.merging e with
  | none => exact h.unmerged_step hadds hrebased hok hs hm
  | some m => exact h.merged_step hadds hok hs hm

omit [DecidableEq Oid] [DecidableEq Task] in
/-- The daemon starts with paths that are unique, as `registerProject` keeps
them, and with last-applied heads that are on the branches. -/
theorem applied_initial {publish : PublishWorld Oid Task}
    (hpaths : (publish.catalog.projects.map (·.localPath)).Nodup)
    (hrecords : ∀ p ∈ publish.catalog.projects,
      Covers G (initial publish) p.localPath p.lastAppliedHeads) : Applied G (initial publish) where
  paths := hpaths
  records := hrecords
  clones task name clone hheld := by cases hheld
  live task name clone hlive := by cases hlive.1
  promised task := trivial

/-- In every run in which the users only add commits on top of the branches, and
whose steps meet the condition: what the catalog has as the last-applied head of
a branch is the tip of that branch or an ancestor of it, and the base that a
preparation on the branch of HEAD passes on is an ancestor of HEAD. -/
theorem last_applied_on_branch {publish : PublishWorld Oid Task} {es : List (DaemonEvent Oid Task)}
    {v : DaemonWorld Oid Task}
    (hpaths : (publish.catalog.projects.map (·.localPath)).Nodup)
    (hrecords : ∀ p ∈ publish.catalog.projects,
      Covers G (initial publish) p.localPath p.lastAppliedHeads)
    (hok : Runs.Steps (DaemonWorld.step G)
      (fun w e => (AddsOnTop G w e ∧ RebasedOnTarget G w e) ∧ AppliesOnBranch G w e)
      (initial publish) es)
    (hv : Runs.run (DaemonWorld.step G) (initial publish) es = some v) :
    (∀ p ∈ v.publish.catalog.projects, ∀ b x tip, p.lastAppliedHeads b = some x →
      (v.publish.checkouts p.localPath).heads b = some tip → G.Ancestor x tip) ∧
    ∀ task caller name project branch target head base,
      v.reconciling task = .located caller name project branch →
      (v.publish.checkouts project.localPath).headBranch = some branch →
      (v.publish.checkouts project.localPath).headCommit = some head →
      reconciliationBase G { project with activeBranch := some branch } branch target head =
        some base →
      G.Ancestor base head := by
  have hstep : ∀ (w : DaemonWorld Oid Task) e w', Applied G w →
      ((AddsOnTop G w e ∧ RebasedOnTarget G w e) ∧ AppliesOnBranch G w e) →
      w.step G e = some w' → Applied G w' := fun w e w' h hok hs =>
    h.step hok.1.1 hok.1.2 hok.2 hs
  have h := Runs.run_invariant hstep (applied_initial hpaths hrecords) hok hv
  refine ⟨h.records, ?_⟩
  intro task caller name project branch target head base hplace hbranch hhead hbase
  have hlive : Live v task name project := by
    rw [Live, hplace]
    exact ⟨rfl, Or.inl rfl⟩
  have htip : (v.publish.checkouts project.localPath).heads branch = some head :=
    (LocalRefs.headCommit_of_headBranch hbranch).symm.trans hhead
  -- the base is HEAD itself, or the last-applied head of the clone
  have hself : (if G.isAncestor head target then some head else none) = some base →
      G.Ancestor base head := by
    intro h
    split at h
    · rw [Option.some.inj h]
    · cases h
  unfold reconciliationBase at hbase
  split at hbase
  · next previous hprevious =>
    split at hbase
    · exact hself hbase
    · rw [← Option.some.inj hbase]
      exact h.live task name project hlive branch previous head hprevious htip
  · exact hself hbase

end Steps

end DaemonWorld

/-- What a call that has read the branch is about to prepare. -/
def Reconciliation.locatedAt : Reconciliation Oid → Option (LocalProject Oid × Branch)
  | .located _ _ project branch => some (project, branch)
  | _ => none

theorem locatedAt_eq_some {r : Reconciliation Oid} {project : LocalProject Oid} {branch : Branch}
    (h : r.locatedAt = some (project, branch)) :
    ∃ caller name, r = .located caller name project branch := by
  cases r with
  | located caller name project branch =>
    cases h
    exact ⟨caller, name, rfl⟩
  | _ => cases h

section OneProject

/-- The hosted branch moves to `head`, a refresh finds it, and a background task
comes to prepare its installation. -/
def comeToPrepare (task : Fin 2) (head : ℕ) : List (DaemonEvent ℕ (Fin 2)) :=
  [.publish (.user (.otherPush "host/prj" "main" head)), .publish (.call task (.refreshBranch "prj")),
    .publish (.call task (.refreshHead (.online 1 none))),
    .reconcile (some task) (.background "prj"), .reconcile (some task) .stage,
    .reconcile (some task) .locate]

/-- The hosted branch moves to `3`, and a background task installs it. -/
def installHosted (task : Fin 2) : List (DaemonEvent ℕ (Fin 2)) :=
  comeToPrepare task 3 ++ [.reconcile (some task) (.prepare true (.ready ⟨"main", 1, 3⟩)),
    .reconcile (some task) (.install (.applied []) true true)]

theorem covers_currentMain : ∀ p ∈ currentMain.catalog.projects,
    (DaemonWorld.initial currentMain).Covers pairGraph p.localPath p.lastAppliedHeads := by
  intro p hp b x tip hx htip
  obtain rfl := List.mem_singleton.mp hp
  have hsame : some x = some tip := hx.symm.trans htip
  rw [Option.some.inj hsame]

theorem installHosted_applies :
    Runs.Steps (DaemonWorld.step pairGraph)
      (fun w e => (w.AddsOnTop pairGraph e ∧ w.RebasedOnTarget pairGraph e) ∧
        w.AppliesOnBranch pairGraph e) (DaemonWorld.initial currentMain) (installHosted 0) := by
  have hadds : ∀ w : DaemonWorld ℕ (Fin 2),
      w.AddsOnTop pairGraph (.publish (.user (.otherPush "host/prj" "main" 3))) :=
    fun w path b c hset => by cases hset
  refine Runs.Steps.cons ⟨⟨hadds _, trivial⟩, trivial⟩ rfl ?_
  refine Runs.Steps.cons ⟨⟨trivial, trivial⟩, trivial⟩ rfl ?_
  refine Runs.Steps.cons ⟨⟨trivial, trivial⟩, ?_⟩ rfl ?_
  · -- HEAD is not at the advertised head
    intro project hproject c hc htarget
    obtain rfl := Option.some.inj hproject
    obtain rfl := Option.some.inj hc
    cases Option.some.inj htarget
  refine Runs.Steps.cons ⟨⟨trivial, trivial⟩, trivial⟩ rfl ?_
  refine Runs.Steps.cons ⟨⟨trivial, trivial⟩, trivial⟩ rfl ?_
  refine Runs.Steps.cons ⟨⟨trivial, trivial⟩, trivial⟩ rfl ?_
  refine Runs.Steps.cons ⟨⟨trivial, ?_⟩, rfl, rfl⟩ rfl ?_
  · intro target htarget
    obtain rfl := Option.some.inj htarget
    exact CommitGraph.Ancestor.refl 3
  refine Runs.Steps.cons ⟨⟨trivial, trivial⟩, ?_⟩ rfl trivial
  · -- the installation replaces the only last-applied head that there is
    intro path b new hset x hx
    cases hx with
    | record hm => cases hm
    | @clone task name clone hlater hlive =>
      rcases hlater with hm | hunprepared
      · cases hm
      · match task with
        | none => cases hunprepared
        | some 0 => cases hunprepared
        | some 1 => cases hunprepared

theorem last_applied_on_branch_two : ∃ v,
    Runs.run (DaemonWorld.step pairGraph) (DaemonWorld.initial currentMain) (installHosted 0) =
      some v ∧
    (v.publish.checkouts "/work").heads "main" = some 3 ∧
    ∃ p ∈ v.publish.catalog.projects, p.lastAppliedHeads "main" = some 3 ∧
      pairGraph.Ancestor 3 3 := by
  have htest : ((Runs.run (DaemonWorld.step pairGraph) (DaemonWorld.initial currentMain)
      (installHosted 0)).map fun v => ((v.publish.checkouts "/work").heads "main",
        v.publish.catalog.projects.map fun p => (p.localPath, p.lastAppliedHeads "main"))) =
      some (some 3, [("/work", some 3)]) := by decide +kernel
  obtain ⟨v, hv, hfields⟩ := Option.map_eq_some_iff.mp htest
  obtain ⟨htip, hprojects⟩ := Prod.mk.inj hfields
  have hmem : ("/work", some 3) ∈ v.publish.catalog.projects.map
      fun p => (p.localPath, p.lastAppliedHeads "main") := hprojects ▸ List.mem_singleton_self _
  obtain ⟨p, hp, hpfields⟩ := List.mem_map.mp hmem
  obtain ⟨hpath, hhead⟩ := Prod.mk.inj hpfields
  refine ⟨v, hv, htip, p, hp, hhead, ?_⟩
  have hpaths : (currentMain.catalog.projects.map (·.localPath)).Nodup := List.nodup_singleton "/work"
  apply (DaemonWorld.last_applied_on_branch hpaths covers_currentMain
    installHosted_applies hv).1 p hp "main" 3 3 hhead
  rw [hpath]
  exact htip

/-- The user commits `3`, and it is delivered. Another client pushes `7` on top
of it before the delivery looks at the hosted branch again. -/
def pushDuringDelivery (task : Fin 2) : List (PublishEvent ℕ (Fin 2)) :=
  .user (.commit "/work" 3) :: reportHead task "pub" 5 ++
    [.start true 6, .next, .load, .project, .fetch, .validate, .push true].map .deliver ++
    .user (.otherPush "host/prj" "main" 7) ::
      [.confirm, .acknowledge 6 (.remoteAdvanced ""), .complete 6, .recordCompletion].map .deliver

/-- The completion records `7` as applied, which the checkout does not have; and
once the hosted branch goes on to `15`, the base that a preparation passes on is
not an ancestor of HEAD. -/
theorem completion_applies_hosted_head :
    (∃ v, Runs.run (DaemonWorld.step pairGraph) (DaemonWorld.initial currentMain)
        ((pushDuringDelivery 0).map .publish) = some v ∧
      (v.publish.checkouts "/work").heads "main" = some 3 ∧
      (v.publish.catalog.projects.map fun p => (p.localPath, p.lastAppliedHeads "main")) =
        [("/work", some 7)]) ∧
    (∃ v caller name project branch, Runs.run (DaemonWorld.step pairGraph)
        (DaemonWorld.initial currentMain)
        ((pushDuringDelivery 0).map .publish ++ comeToPrepare 0 15) = some v ∧
      v.reconciling (some 0) = .located caller name project branch ∧
      (v.publish.checkouts project.localPath).headBranch = some branch ∧
      (v.publish.checkouts project.localPath).headCommit = some 3 ∧
      reconciliationBase pairGraph { project with activeBranch := some branch } branch 15 3 =
        some 7) ∧
    ¬ pairGraph.Ancestor 7 3 := by
  have hrecorded : ((Runs.run (DaemonWorld.step pairGraph) (DaemonWorld.initial currentMain)
      ((pushDuringDelivery 0).map .publish)).map fun v =>
        ((v.publish.checkouts "/work").heads "main",
          v.publish.catalog.projects.map fun p => (p.localPath, p.lastAppliedHeads "main"))) =
      some (some 3, [("/work", some 7)]) := by decide +kernel
  have hbase : ((Runs.run (DaemonWorld.step pairGraph) (DaemonWorld.initial currentMain)
      ((pushDuringDelivery 0).map .publish ++ comeToPrepare 0 15)).bind fun v =>
        (v.reconciling (some 0)).locatedAt.map fun place =>
          let r := v.publish.checkouts place.1.localPath
          (r.headBranch == some place.2, r.headCommit, reconciliationBase pairGraph
            { place.1 with activeBranch := some place.2 } place.2 15 3)) =
      some (true, some 3, some 7) := by decide +kernel
  obtain ⟨v, hv, hfields⟩ := Option.map_eq_some_iff.mp hrecorded
  obtain ⟨u, hu, hlocated⟩ := Option.bind_eq_some_iff.mp hbase
  obtain ⟨htip, hprojects⟩ := Prod.mk.inj hfields
  refine ⟨⟨v, hv, htip, hprojects⟩, ?_, by decide⟩
  obtain ⟨⟨project, branch⟩, hplace, hall⟩ := Option.map_eq_some_iff.mp hlocated
  obtain ⟨caller, name, hplace⟩ := locatedAt_eq_some hplace
  simp only [Prod.mk.injEq, beq_iff_eq] at hall
  obtain ⟨hbranch, hhead, hpassed⟩ := hall
  exact ⟨u, caller, name, project, branch, hu, hplace, hbranch, hhead, hpassed⟩

end OneProject

end Resync
