import Resync.BranchHeads
import Resync.DaemonSteps

/-! What the catalog says was applied of a branch (`last_applied_heads`) against
the tip that the branch has in the checkout. The clones of a record that the
calls of `reconcile_exclusive` have say it too, until they are merged or their
generation is over. -/
namespace Resync

variable {Oid Task : Type}

namespace PublishWorld

/-- The branch that a user's step writes, and the commit that it sets it to. -/
def userSets (w : PublishWorld Oid Task) : UserEvent Oid Task → Option (String × Branch × Oid)
  | .commit path c =>
    match (w.checkouts path).head with
    | .attached b => some (path, b, c)
    | .detached _ => none
  | .rewrite path b c => some (path, b, c)
  | .switch path b _ =>
    match (w.checkouts path).heads b, (w.checkouts path).headCommit with
    | none, some c => some (path, b, c)
    | _, _ => none
  | _ => none

variable {w w' : PublishWorld Oid Task} {path : String} {b : Branch} {tip : Oid}

theorem heads_setCheckout {other : String} {r : LocalRefs Oid}
    (h : ((w.setCheckout other r).checkouts path).heads b = some tip)
    (hr : r.heads = (w.checkouts other).heads) :
    (w.checkouts path).heads b = some tip := by
  change (Function.update w.checkouts other r path).heads b = some tip at h
  by_cases hpath : path = other
  · subst hpath
    rw [Function.update_self, hr] at h
    exact h
  · rw [Function.update_of_ne hpath] at h
    exact h

/-- Setting a branch in one checkout. -/
theorem heads_setHead {other : String} {b' : Branch} {c : Oid} {r : LocalRefs Oid}
    (h : ((w.setCheckout other r).checkouts path).heads b = some tip)
    (hr : r.heads = ((w.checkouts other).setHead b' c).heads) :
    (w.checkouts path).heads b = some tip ∨ (other, b', c) = (path, b, tip) := by
  change (Function.update w.checkouts other r path).heads b = some tip at h
  by_cases hpath : path = other
  · subst hpath
    rw [Function.update_self, hr, LocalRefs.setHead] at h
    by_cases hb : b = b'
    · subst hb
      have hc : Function.update (w.checkouts path).heads b (some c) b = some tip := h
      rw [Function.update_self, Option.some.injEq] at hc
      exact Or.inr (by rw [hc])
    · exact Or.inl ((Function.update_of_ne hb ..).symm.trans h)
  · rw [Function.update_of_ne hpath] at h
    exact Or.inl h

section Steps

variable [DecidableEq Task]

theorem startHook_checkouts {u : PublishWorld Oid Task} {previous : Option Oid}
    {left : Option Branch} {hook : Option (Task × String)}
    (h : u.startHook path previous left hook = some w') : w'.checkouts = u.checkouts := by
  cases hook with
  | none => exact Option.some.inj h ▸ rfl
  | some hook =>
    simp only [startHook] at h
    split at h
    · split at h
      · exact Option.some.inj h ▸ rfl
      · cases h
    · cases h

variable [DecidableEq Oid] {G : CommitGraph Oid}

/-- A branch has the tip that it had, or the one that the user sets. -/
theorem user_heads {e : UserEvent Oid Task} (h : w.user G e = some w')
    (htip : (w'.checkouts path).heads b = some tip) :
    (w.checkouts path).heads b = some tip ∨ w.userSets e = some (path, b, tip) := by
  cases e with
  | commit other c =>
    simp only [user] at h
    split at h
    · split at h
      · next b' hhead =>
        obtain rfl := Option.some.inj h
        rw [userSets, hhead]
        exact (heads_setHead htip rfl).imp_right (congrArg some)
      · obtain rfl := Option.some.inj h
        exact Or.inl (heads_setCheckout htip rfl)
    · cases h
  | rewrite other b' c =>
    obtain rfl := Option.some.inj h
    exact (heads_setHead htip rfl).imp_right (congrArg some)
  | switch other b' hook =>
    simp only [user] at h
    split at h
    · rw [startHook_checkouts h] at htip
      exact Or.inl (heads_setCheckout htip rfl)
    · next c hnew hcommit =>
      rw [startHook_checkouts h] at htip
      simp only [userSets, hnew, hcommit]
      exact (heads_setHead htip rfl).imp_right (congrArg some)
    · cases h
  | detach other c hook =>
    simp only [user] at h
    rw [startHook_checkouts h] at htip
    exact Or.inl (heads_setCheckout htip rfl)
  | otherPush url b' c =>
    simp only [user] at h
    split at h
    · obtain rfl := Option.some.inj h
      exact Or.inl htip
    · cases h

/-- The tasks that queue publications and the delivery leave the branches. -/
theorem call_heads {task : Task} {e : CallEvent Oid} (h : w.call G task e = some w') :
    (w'.checkouts path).heads = (w.checkouts path).heads := by
  obtain ⟨-, hquiet | ⟨name, project, b, c, next, p, hcreates⟩ | ⟨p, hpushes⟩⟩ := call_cases h
  · rw [hquiet.checkouts]
  · rw [hcreates.checkouts]
    by_cases hpath : path = project.localPath
    · subst hpath
      rw [Function.update_self, LocalRefs.setPublication]
    · rw [Function.update_of_ne hpath]
  · rw [hpushes.checkouts]

end Steps

end PublishWorld

/-- The clone of a record that a call of `reconcile_exclusive` has, with the
name that has found it. -/
def Reconciliation.held : Reconciliation Oid → Option (String × LocalProject Oid)
  | .staged _ name project | .located _ name project _ => some (name, project)
  | .complete _ name record .. => some (name, record)
  | .prepared _ name p _ => some (name, p.staged)
  | _ => none

/-- The call has its clone and has not prepared anything from it. -/
def Reconciliation.unprepared : Reconciliation Oid → Bool
  | .staged .. | .located .. => true
  | _ => false

namespace DaemonWorld

/-- A clone that may still be used: to prepare a reconciliation from it, or to
merge it while the record has its generation. -/
def Live (w : DaemonWorld Oid Task) (task : Option Task) (name : String)
    (clone : LocalProject Oid) : Prop :=
  (w.reconciling task).held = some (name, clone) ∧
    ((w.reconciling task).unprepared = true ∨ ∃ p, findProject w.publish.catalog name = some p ∧
      clone.workspaceGeneration = p.workspaceGeneration)

section Conditions

variable [DecidableEq Oid]

/-- The branch that a step writes in a checkout, and the commit that it sets it
to: a user's step, or an installation. -/
def sets (w : DaemonWorld Oid Task) : DaemonEvent Oid Task → Option (String × Branch × Oid)
  | .publish (.user e) => w.publish.userSets e
  | .reconcile task (.install installed _ _) =>
    match w.reconciling task with
    | .prepared _ name p candidate =>
      (findProject w.publish.catalog name).bind fun project =>
        if AccessWorld.stillWanted project p
            (w.publish.checkouts project.localPath).headBranch && installed.moves then
          some (project.localPath, candidate.headRef, candidate.new)
        else none
    | _ => none
  | _ => none

/-- `x` is the last-applied head of the branch in the catalog or in a clone, and
the step does not replace it. An installation that is merged replaces what the
record says, and ends the generation of the prepared clones. -/
inductive HeldPast (w : DaemonWorld Oid Task) (e : DaemonEvent Oid Task) (path : String)
    (b : Branch) (x : Oid) : Prop
  | record {p} : w.merging e = none → p ∈ w.publish.catalog.projects → p.localPath = path →
      p.lastAppliedHeads b = some x → HeldPast w e path b x
  | clone {task name clone} : w.merging e = none ∨ (w.reconciling task).unprepared = true →
      Live w task name clone → clone.localPath = path → clone.lastAppliedHeads b = some x →
      HeldPast w e path b x

variable (G : CommitGraph Oid)

/-- The users add commits on top of the local branches. A branch that they make
has the commits that are said to be applied of it. -/
def AddsOnTop (w : DaemonWorld Oid Task) : DaemonEvent Oid Task → Prop
  | .publish (.user e) =>
    ∀ path b c, w.publish.userSets e = some (path, b, c) →
      match (w.publish.checkouts path).heads b with
      | some tip => G.Ancestor tip c
      | none => ∀ x, HeldPast w (.publish (.user e)) path b x → G.Ancestor x c
  | _ => True

/-- A candidate is the rebased branch, so it has the target in its history. -/
def RebasedOnTarget (w : DaemonWorld Oid Task) : DaemonEvent Oid Task → Prop
  | .reconcile task (.prepare _ (.ready candidate)) =>
    match w.reconciling task with
    | .located _ _ project branch =>
      ∀ target ∈ project.advertisedHeads branch, G.Ancestor target candidate.new
    | _ => True
  | _ => True

/-- The condition on the steps that write a last-applied head or a branch: the
head that a completion or a refresh records is on the local branch, HEAD is on
the branch that a preparation has located, and an installation covers the heads
that it does not replace. -/
def AppliesOnBranch (w : DaemonWorld Oid Task) : DaemonEvent Oid Task → Prop
  | .publish (.deliver .recordCompletion) =>
    match w.publish.delivery with
    | .completing _ p ack _ _ =>
      ∀ project ∈ findProject w.publish.catalog p.projectId,
        ∀ tip ∈ (w.publish.checkouts project.localPath).heads p.branch,
          G.Ancestor ack.remoteHead tip
    | _ => True
  | .publish (.call task (.refreshHead (.online generation head))) =>
    match w.publish.calls task with
    | .refreshing name branch =>
      ∀ project ∈ findProject w.publish.catalog name,
        ∀ c ∈ (w.publish.checkouts project.localPath).headCommit,
          (w.publish.advertise project branch generation head).advertisedHeads branch = some c →
          project.state ≠ .conflicted →
          ∀ tip ∈ (w.publish.checkouts project.localPath).heads branch, G.Ancestor c tip
    | _ => True
  | .reconcile task (.prepare _ rebase) =>
    match w.reconciling task with
    | .located _ _ project branch =>
      (w.publish.checkouts project.localPath).headBranch = some branch ∧
        match rebase with
        | .ready candidate => candidate.headRef = branch
        | _ => True
    | _ => True
  | .reconcile task (.install installed cleared persisted) =>
    ∀ path b new, w.sets (.reconcile task (.install installed cleared persisted)) =
        some (path, b, new) →
      ∀ x, HeldPast w (.reconcile task (.install installed cleared persisted)) path b x →
        G.Ancestor x new
  | _ => True

end Conditions

variable (G : CommitGraph Oid)

/-- The heads are on the branches of the checkout, as far as these are there. -/
def Covers (w : DaemonWorld Oid Task) (path : String) (heads : Branch → Option Oid) : Prop :=
  ∀ b x tip, heads b = some x → (w.publish.checkouts path).heads b = some tip → G.Ancestor x tip

/-- What a prepared result says about the record that it was prepared from. -/
def Promised : Reconciliation Oid → Prop
  | .complete _ _ staged _ expected _ _ => staged.workspaceGeneration = expected
  | .prepared _ _ p candidate =>
    p.staged.workspaceGeneration = p.expectedGeneration ∧ candidate.headRef = p.branch ∧
      G.Ancestor p.target candidate.new
  | _ => True

structure Applied (w : DaemonWorld Oid Task) : Prop where
  paths : (w.publish.catalog.projects.map (·.localPath)).Nodup
  records : ∀ p ∈ w.publish.catalog.projects, Covers G w p.localPath p.lastAppliedHeads
  clones : ∀ task name clone, (w.reconciling task).held = some (name, clone) →
    ∃ p, findProject w.publish.catalog name = some p ∧ clone.localPath = p.localPath ∧
      clone.workspaceGeneration ≤ p.workspaceGeneration
  live : ∀ task name clone, Live w task name clone →
    Covers G w clone.localPath clone.lastAppliedHeads
  promised : ∀ task, Promised G (w.reconciling task)

section Records

variable [DecidableEq Oid] {G} {w : PublishWorld Oid Task} {p : LocalProject Oid} {branch : Branch}
  {answer : RefreshAnswer Oid}

theorem refreshed_workspaceGeneration (project : LocalProject Oid) (b : Branch) (c : Oid) :
    (PublishWorld.refreshed G project b c).1.workspaceGeneration =
      project.workspaceGeneration := by
  unfold PublishWorld.refreshed
  split
  · rfl
  · split
    · rfl
    · split
      · rfl
      · split <;> rfl

theorem refreshRecord_workspaceGeneration :
    (PublishWorld.refreshRecord G w branch answer p).workspaceGeneration =
      p.workspaceGeneration := by
  unfold PublishWorld.refreshRecord
  split
  · rfl
  · rfl
  · dsimp only
    split
    · rfl
    · next localHead _ =>
      split
      · exact refreshed_workspaceGeneration (w.advertise p branch _ _) branch localHead
      · exact refreshed_workspaceGeneration (w.advertise p branch _ _) branch localHead

/-- A refresh of a project that it finds at the advertised head records it. -/
theorem refreshed_lastAppliedHeads {project : LocalProject Oid} {c x : Oid} {b : Branch}
    (h : (PublishWorld.refreshed G project branch c).1.lastAppliedHeads b = some x) :
    project.lastAppliedHeads b = some x ∨
      b = branch ∧ x = c ∧ project.advertisedHeads branch = some c ∧
        project.state ≠ .conflicted := by
  unfold PublishWorld.refreshed at h
  split at h
  · exact Or.inl h
  · next hstate =>
    split at h
    · exact Or.inl h
    · next target htarget =>
      split at h
      · next heq =>
        by_cases hb : b = branch
        · subst hb
          have hx : Function.update project.lastAppliedHeads b (some target) b = some x := h
          rw [Function.update_self, Option.some.injEq] at hx
          exact Or.inr ⟨rfl, hx.symm.trans heq, heq ▸ htarget, hstate⟩
        · exact Or.inl ((Function.update_of_ne hb ..).symm.trans h)
      · split at h
        · exact Or.inl h
        · exact Or.inl h

theorem refreshRecord_lastAppliedHeads {b : Branch} {x : Oid}
    (h : (PublishWorld.refreshRecord G w branch answer p).lastAppliedHeads b = some x) :
    p.lastAppliedHeads b = some x ∨ ∃ generation head, answer = .online generation head ∧
      b = branch ∧ (w.checkouts p.localPath).headCommit = some x ∧
      (w.advertise p branch generation head).advertisedHeads branch = some x ∧
      p.state ≠ .conflicted := by
  unfold PublishWorld.refreshRecord at h
  split at h
  · exact Or.inl h
  · exact Or.inl h
  · next generation head =>
    dsimp only at h
    split at h
    · exact Or.inl h
    · next localHead hhead =>
      have hrefreshed : (PublishWorld.refreshed G (w.advertise p branch generation head) branch
          localHead).1.lastAppliedHeads b = some x := by
        split at h
        · exact h
        · exact h
      rcases refreshed_lastAppliedHeads hrefreshed with hold | ⟨hb, hx, htarget, hstate⟩
      · exact Or.inl hold
      · exact Or.inr ⟨generation, head, rfl, hb, hx ▸ hhead, hx ▸ htarget, hstate⟩

end Records

section Preparations

variable [DecidableEq Oid] {G} {rebase : Rebase Oid} {branch actual : Branch} {head : Option Oid}
  {cleared : Bool} {record staged : LocalProject Oid} {expected : ℕ}

/-- A base that is not the head is a last-applied head other than the target. -/
theorem reconciliationBase_ne {project : LocalProject Oid} {target c base : Oid}
    (h : reconciliationBase G project branch target c = some base) (hc : c ≠ target) :
    base ≠ target := by
  have hhead : (if G.isAncestor c target then some c else none) = some base → base ≠ target := by
    intro h
    split at h
    · exact Option.some.inj h ▸ hc
    · cases h
  unfold reconciliationBase at h
  split at h
  · split at h
    · exact hhead h
    · next hprevious => exact Option.some.inj h ▸ hprevious
  · exact hhead h

/-- What a preparation finds to be complete records, of the branch that it was
made for, an ancestor of HEAD. -/
theorem complete_spec {result : ReconcileResult Oid} {target : Option Oid}
    (h : prepareProjectReconciliation G (rebase.answers branch head cleared) record =
      some (.complete staged result expected actual target)) :
    staged.localPath = record.localPath ∧
      ∀ b x, staged.lastAppliedHeads b = some x → record.lastAppliedHeads b = some x ∨
        b = branch ∧ ∃ c, head = some c ∧ G.Ancestor x c := by
  unfold prepareProjectReconciliation at h
  obtain ⟨found, hfound, h⟩ := Option.bind_eq_some_iff.mp h
  obtain rfl : branch = found := Option.some.inj hfound
  dsimp only at h
  split at h
  · split at h
    · cases h
      exact ⟨rfl, fun b x hx => Or.inl hx⟩
    · cases h
  · next advertised _ =>
    obtain ⟨c, hc, h⟩ := Option.bind_eq_some_iff.mp h
    split at h
    · next hahead =>
      split at h
      · cases h
        refine ⟨rfl, fun b x hx => ?_⟩
        by_cases hb : b = branch
        · subst hb
          have htarget : Function.update record.lastAppliedHeads b (some advertised) b = some x := hx
          rw [Function.update_self, Option.some.injEq] at htarget
          refine Or.inr ⟨rfl, c, hc, ?_⟩
          rw [← htarget]
          rcases hahead with heq | hancestor
          · rw [heq]
          · exact (G.isAncestor_iff ..).mp hancestor
        · exact Or.inl ((Function.update_of_ne hb ..).symm.trans hx)
      · cases h
    · next hahead =>
      have hne : c ≠ advertised := fun heq => hahead (Or.inl heq)
      split at h
      · cases h
        exact ⟨rfl, fun b x hx => Or.inl hx⟩
      · next previous hprevious =>
        obtain ⟨prepared, hprepared, h⟩ := Option.bind_eq_some_iff.mp h
        cases prepared with
        | none => cases h
        | some prepared =>
          obtain ⟨applied, happlied, h⟩ := Option.bind_eq_some_iff.mp h
          cases h
          have hpath := applyReconciliationResult_localPath happlied
          refine ⟨hpath, fun b x hx => ?_⟩
          rcases applyReconciliationResult_lastAppliedHeads happlied hx with hold | ⟨houtcome, -⟩
          · exact Or.inl hold
          -- the base is not the target, so the answer is a conflict
          · have hbase := reconciliationBase_ne hprevious hne
            have hanswer : rebase.answer previous advertised = some (some prepared) := hprepared
            unfold Rebase.answer at hanswer
            rw [if_neg hbase] at hanswer
            cases rebase with
            | failed => cases hanswer
            | ready candidate => cases hanswer
            | conflict detail =>
              cases hanswer
              rcases houtcome with houtcome | houtcome
              · cases houtcome
              · cases houtcome

/-- A preparation that leaves a candidate changes no last-applied head. -/
theorem prepared_spec {target : Oid}
    (h : prepareProjectReconciliation G (rebase.answers branch head cleared) record =
      some (.prepared staged expected actual target)) :
    actual = branch ∧ record.advertisedHeads branch = some target ∧
      staged.localPath = record.localPath ∧
      staged.lastAppliedHeads = record.lastAppliedHeads := by
  unfold prepareProjectReconciliation at h
  obtain ⟨found, hfound, h⟩ := Option.bind_eq_some_iff.mp h
  obtain rfl : branch = found := Option.some.inj hfound
  dsimp only at h
  split at h
  · split at h
    · cases h
    · cases h
  · next advertised hadvertised =>
    obtain ⟨c, -, h⟩ := Option.bind_eq_some_iff.mp h
    split at h
    · split at h
      · cases h
      · cases h
    · split at h
      · cases h
      · obtain ⟨prepared, -, h⟩ := Option.bind_eq_some_iff.mp h
        cases prepared with
        | none =>
          cases h
          exact ⟨rfl, hadvertised, rfl, rfl⟩
        | some prepared =>
          obtain ⟨applied, -, h⟩ := Option.bind_eq_some_iff.mp h
          cases h

end Preparations

end DaemonWorld

end Resync
