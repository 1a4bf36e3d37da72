import Resync.Transaction

/-! What an installation leaves: the journal and the recovery refs are book-
keeping that a capture does not see, and the two `read-tree` steps leave the
candidate's layers exactly when the trees fit each other and the checkout. -/
namespace Resync

variable {β : Type}

/-- The same HEAD, branches, index and disk. Only recovery refs may differ. -/
structure SameWorkspace (r s : Repository β) : Prop where
  head : s.head = r.head
  branches : ∀ b, s.refs (.branch b) = r.refs (.branch b)
  index : s.index = r.index
  unmerged : s.unmerged = r.unmerged
  disk : s.disk = r.disk

namespace SameWorkspace

variable {r s u : Repository β}

@[refl] theorem refl (r : Repository β) : SameWorkspace r r := ⟨rfl, fun _ => rfl, rfl, rfl, rfl⟩

theorem trans (h : SameWorkspace r s) (h' : SameWorkspace s u) : SameWorkspace r u :=
  ⟨h'.head.trans h.head, fun b => (h'.branches b).trans (h.branches b), h'.index.trans h.index,
    h'.unmerged.trans h.unmerged, h'.disk.trans h.disk⟩

theorem headCommit (h : SameWorkspace r s) : s.headCommit = r.headCommit :=
  Repository.headCommit_congr h.head h.branches

/-- A capture sees no bookkeeping. -/
theorem captureWorkspace (h : SameWorkspace r s) :
    captureWorkspace s = captureWorkspace r := by
  have htree : s.writeTree = r.writeTree := by
    rw [Repository.writeTree, Repository.writeTree, h.unmerged, h.index]
  have hseed : ∀ seed, temporaryIndex s seed = temporaryIndex r seed := fun seed => by
    rw [temporaryIndex, temporaryIndex, Repository.addTracked, Repository.addTracked, h.disk]
  simp only [Resync.captureWorkspace, h.headCommit, htree, hseed]

theorem setRecovery (r : Repository β) (name : String) (slot : RecoverySlot)
    (commit : Option (Commit (Tree β))) :
    SameWorkspace r (r.setRef (.recovery name slot) commit) := by
  refine ⟨rfl, fun b => ?_, rfl, rfl, rfl⟩
  have hne : Ref.branch b ≠ Ref.recovery name slot := fun h => by cases h
  exact Function.update_of_ne hne commit r.refs

/-- The same checkout of a tree on two workspaces that are the same. -/
theorem readTreeReset (h : SameWorkspace r s) (tree : Tree β) :
    SameWorkspace (r.readTreeReset tree) (s.readTreeReset tree) where
  head := h.head
  branches := h.branches
  index := rfl
  unmerged := rfl
  disk := by
    show s.disk.checkout s.index tree = r.disk.checkout r.index tree
    rw [h.disk, h.index]

theorem readTree (h : SameWorkspace r s) (tree : Tree β) :
    SameWorkspace (r.readTree tree) (s.readTree tree) :=
  ⟨h.head, h.branches, rfl, rfl, h.disk⟩

theorem setBranch (h : SameWorkspace r s) (b : Branch) (commit : Option (Commit (Tree β))) :
    SameWorkspace (r.setRef (.branch b) commit) (s.setRef (.branch b) commit) where
  head := h.head
  branches b' := by
    show Function.update s.refs (.branch b) commit (.branch b') =
      Function.update r.refs (.branch b) commit (.branch b')
    by_cases hb : b' = b
    · rw [hb, Function.update_self, Function.update_self]
    · have hne : Ref.branch b' ≠ Ref.branch b := fun he => hb (Ref.branch.inj he)
      rw [Function.update_of_ne hne, Function.update_of_ne hne, h.branches]
  index := h.index
  unmerged := h.unmerged
  disk := h.disk

end SameWorkspace

/-- The actions on journals and on recovery refs. -/
def Action.Bookkeeping : Action β → Prop
  | .writeJournal _ | .removeJournal _ | .deleteRecovery _ _ => True
  | _ => False

theorem writeJournal_bookkeeping (t : Transaction β) :
    ∀ a ∈ [Action.writeJournal t], a.Bookkeeping := by
  intro a ha
  rw [List.mem_singleton.mp ha]
  trivial

theorem removeTransactionArtifacts_bookkeeping (t : Transaction β) :
    ∀ a ∈ removeTransactionArtifacts t, a.Bookkeeping := by
  simp only [removeTransactionArtifacts, List.forall_mem_cons, Action.Bookkeeping, true_and,
    List.not_mem_nil, IsEmpty.forall_iff, implies_true]

theorem finalizeTransaction_bookkeeping (env : Env β) (retention : TransactionRetention)
    (t : Transaction β) : ∀ a ∈ finalizeTransaction env retention t, a.Bookkeeping := by
  intro a ha
  unfold finalizeTransaction at ha
  split at ha
  · rcases List.mem_cons.mp ha with rfl | ha
    · trivial
    · obtain ⟨old, -, ha⟩ := List.mem_flatMap.mp ha
      exact removeTransactionArtifacts_bookkeeping old a ha
  · exact removeTransactionArtifacts_bookkeeping t a ha

/-- The actions of an installation up to the move of the branch. -/
def gitActions (t : Transaction β) (candidate : Candidate β) : List (Action β) :=
  [.writeJournal { t with phase := .installing }, .readTreeReset candidate.workingTree,
    .readTree candidate.indexTree, .updateRef t.headRef candidate.realHead t.snapshot.head]

theorem installActions_eq (env : Env β) (retention : TransactionRetention) (t : Transaction β)
    (candidate : Candidate β) :
    installActions env retention t candidate = gitActions t candidate ++
      finalizeTransaction env retention
        { t with phase := .completed, completedAt := some env.now } := rfl

theorem gitActions_cases {t : Transaction β} {candidate : Candidate β} {done : ℕ} {a : Action β}
    (h : (gitActions t candidate)[done]? = some a) :
    done = 0 ∧ a = .writeJournal { t with phase := .installing } ∨
      done = 1 ∧ a = .readTreeReset candidate.workingTree ∨
      done = 2 ∧ a = .readTree candidate.indexTree ∨
      done = 3 ∧ a = .updateRef t.headRef candidate.realHead t.snapshot.head := by
  match done with
  | 0 => exact Or.inl ⟨rfl, (Option.some.inj h).symm⟩
  | 1 => exact Or.inr (Or.inl ⟨rfl, (Option.some.inj h).symm⟩)
  | 2 => exact Or.inr (Or.inr (Or.inl ⟨rfl, (Option.some.inj h).symm⟩))
  | 3 => exact Or.inr (Or.inr (Or.inr ⟨rfl, (Option.some.inj h).symm⟩))
  | n + 4 => cases h

variable [DecidableEq β]

namespace Checkout

/-- Bookkeeping always goes through, and no capture sees it. -/
theorem execute_bookkeeping (c : Checkout β) {as : List (Action β)}
    (h : ∀ a ∈ as, a.Bookkeeping) :
    (c.execute as).2 = true ∧ SameWorkspace c.repo (c.execute as).1.repo := by
  induction as generalizing c with
  | nil => exact ⟨rfl, SameWorkspace.refl c.repo⟩
  | cons a as ih =>
    have hrest : ∀ b ∈ as, b.Bookkeeping := fun b hb => h b (List.mem_cons_of_mem a hb)
    have ha := h a List.mem_cons_self
    cases a with
    | writeJournal t => exact ih _ hrest
    | removeJournal id => exact ih _ hrest
    | deleteRecovery name slot =>
      obtain ⟨hdone, hsame⟩ := ih { c with repo := c.repo.setRef (.recovery name slot) none } hrest
      exact ⟨hdone, (SameWorkspace.setRecovery c.repo name slot none).trans hsame⟩
    | readTreeReset tree => exact absurd ha id
    | readTree tree => exact absurd ha id
    | updateRef branch new old => exact absurd ha id

theorem execute_bookkeeping_same {c c' : Checkout β} {as : List (Action β)} {done : Bool}
    (h : ∀ a ∈ as, a.Bookkeeping) (hrun : c.execute as = (c', done)) :
    SameWorkspace c.repo c'.repo := by
  have hsame := (c.execute_bookkeeping h).2
  rw [hrun] at hsame
  exact hsame

end Checkout

/-- The workspace once the branch has moved to the candidate. -/
def installedRepo (r : Repository β) (t : Transaction β) (candidate : Candidate β) :
    Repository β :=
  ((r.readTreeReset candidate.workingTree).readTree candidate.indexTree).setRef
    (.branch t.headRef) (some candidate.realHead)

/-- An installation that goes through leaves the candidate's trees and moves
the branch from the snapshot's head. -/
theorem execute_installActions {env : Env β} {retention : TransactionRetention}
    {t : Transaction β} {candidate : Candidate β} {c c' : Checkout β}
    (h : c.execute (installActions env retention t candidate) = (c', true)) :
    c.repo.refs (.branch t.headRef) = some t.snapshot.head ∧
      SameWorkspace (installedRepo c.repo t candidate) c'.repo := by
  rw [installActions_eq, gitActions, List.cons_append, List.cons_append, List.cons_append,
    List.cons_append, List.nil_append] at h
  simp only [Checkout.execute, Checkout.perform, Repository.updateRef] at h
  split at h
  · cases h
  · next c₁ hc₁ =>
    obtain ⟨r₁, hr₁, rfl⟩ := Option.map_eq_some_iff.mp hc₁
    split at hr₁
    · next hold =>
      obtain rfl := Option.some.inj hr₁
      exact ⟨hold, Checkout.execute_bookkeeping_same
        (finalizeTransaction_bookkeeping env retention _) h⟩
    · cases hr₁

/-- The candidate's trees fit: all paths of the working tree are indexed, and
an indexed path without a working file is one that the checkout removes or that
has no file. -/
structure LayersFit (r : Repository β) (candidate : Candidate β) : Prop where
  indexed : ∀ p ∈ candidate.workingTree.keys, p ∈ candidate.indexTree.keys
  removed : ∀ p ∈ candidate.indexTree.keys, p ∉ candidate.workingTree.keys →
    p ∈ r.index.keys ∨ r.disk.files.get p = none

omit [DecidableEq β] in
/-- After the two `read-tree` steps the tracked files are the candidate's
working tree exactly when the trees fit. -/
theorem temporaryIndex_installed (r : Repository β) (candidate : Candidate β) :
    temporaryIndex ((r.readTreeReset candidate.workingTree).readTree candidate.indexTree)
      candidate.indexTree = candidate.workingTree ↔ LayersFit r candidate := by
  have hget : ∀ p, (temporaryIndex ((r.readTreeReset candidate.workingTree).readTree
      candidate.indexTree) candidate.indexTree).get p =
      if p ∈ candidate.indexTree.keys then
        r.disk.checkoutEntry r.index candidate.workingTree p else none := fun p => by
    rw [get_temporaryIndex, Repository.readTree_disk, Repository.get_readTreeReset]
  constructor
  · intro h
    have hentry : ∀ p, (if p ∈ candidate.indexTree.keys then
        r.disk.checkoutEntry r.index candidate.workingTree p else none) =
          candidate.workingTree.get p := fun p => by rw [← hget, h]
    have hindexed : ∀ p ∈ candidate.workingTree.keys, p ∈ candidate.indexTree.keys := by
      intro p hp
      by_contra hni
      have hp' := (candidate.workingTree.mem_keys p).mp hp
      rw [← hentry p, if_neg hni] at hp'
      exact hp' rfl
    refine ⟨hindexed, fun p hi hw => ?_⟩
    by_cases hidx : p ∈ r.index.keys
    · exact Or.inl hidx
    · have hclear : ∀ q ∈ candidate.workingTree.keys, ¬ Comparable p q := by
        intro q hq hcmp
        have hqi := (candidate.indexTree.mem_keys q).mp (hindexed q hq)
        have hpi := (candidate.indexTree.mem_keys p).mp hi
        rcases hcmp with hpq | hqp
        · exact hw (candidate.indexTree.prefix_free p q hpi hqi hpq ▸ hq)
        · exact hw (candidate.indexTree.prefix_free q p hqi hpi hqp ▸ hq)
      have hp := hentry p
      rw [if_pos hi, Disk.checkoutEntry_of_clear _ hidx hclear,
        (candidate.workingTree.get_eq_none_iff p).mpr hw] at hp
      exact Or.inr hp
  · intro h
    refine PathTree.ext fun p => ?_
    rw [hget]
    by_cases hw : p ∈ candidate.workingTree.keys
    · rw [if_pos (h.indexed p hw), Disk.checkoutEntry_of_mem _ _ hw]
    · rw [(candidate.workingTree.get_eq_none_iff p).mpr hw]
      by_cases hi : p ∈ candidate.indexTree.keys
      · rw [if_pos hi]
        rcases h.removed p hi hw with hidx | hnone
        · exact Disk.checkoutEntry_of_index _ hw hidx
        · exact Disk.checkoutEntry_none _ hw hnone
      · rw [if_neg hi]

/-- HEAD is at the candidate's head after the branch has moved. -/
def HeadFits (r : Repository β) (t : Transaction β) (candidate : Candidate β) : Prop :=
  r.headBranch = some t.headRef ∨ r.headCommit = some candidate.realHead

omit [DecidableEq β] in
theorem headCommit_installed {r : Repository β} {t : Transaction β} {candidate : Candidate β} :
    (installedRepo r t candidate).headCommit = some candidate.realHead ↔
      HeadFits r t candidate := by
  have hrefs : (installedRepo r t candidate).refs =
      Function.update r.refs (.branch t.headRef) (some candidate.realHead) := rfl
  have hhead : (installedRepo r t candidate).head = r.head := rfl
  unfold HeadFits Repository.headCommit Repository.headBranch
  rw [hhead, hrefs]
  cases r.head with
  | detached commit =>
    dsimp only
    exact ⟨Or.inr, fun h => h.resolve_left (Option.some_ne_none _).symm⟩
  | attached branch =>
    dsimp only
    by_cases hb : branch = t.headRef
    · subst hb
      rw [Function.update_self]
      exact ⟨fun _ => Or.inl rfl, fun _ => rfl⟩
    · have hne : Ref.branch branch ≠ Ref.branch t.headRef := fun he => hb (Ref.branch.inj he)
      rw [Function.update_of_ne hne]
      exact ⟨Or.inr, fun h => h.resolve_left fun he => hb (Option.some.inj he)⟩

omit [DecidableEq β] in
/-- A capture after the installation is the candidate exactly when its trees
and HEAD fit. -/
theorem captureWorkspace_installed (r : Repository β) (t : Transaction β)
    (candidate : Candidate β) :
    captureWorkspace (installedRepo r t candidate) =
      some ⟨candidate.realHead, candidate.indexTree, candidate.workingTree⟩ ↔
    LayersFit r candidate ∧ HeadFits r t candidate := by
  rw [captureWorkspace_eq_some, ← temporaryIndex_installed, ← headCommit_installed]
  exact ⟨fun h => ⟨h.2.2.2.symm, h.1⟩, fun h => ⟨h.2, rfl, rfl, h.1.symm⟩⟩

/-- The inversion of `install_prepared_reconciliation`, on any state: its checks have passed on
what Git reads, and all of the actions have gone through; or nothing but bookkeeping was run. -/
theorem installPreparedBy_ok {S : Type} {view : S → Checkout β}
    {run : S → List (Action β) → S × Bool} {env : Env β} {retention : TransactionRetention}
    {t : Transaction β} {candidate : Candidate β} {s s' : S}
    {result : ReconcileResult (Commit (Tree β))} (hcandidate : t.candidate = some candidate)
    (h : Checkout.installPreparedBy view run env retention (.ready t) s = (s', .ok result)) :
    (result.outcome = .applied ∧ captureWorkspace (view s).repo = some t.snapshot ∧
      findUntrackedCollisions env.pathspecs (view s).repo (treePaths candidate.workingTree) =
        some ∅ ∧
      run s (installActions env retention t candidate) = (s', true)) ∨
    ((result.outcome = .retry ∨ result.outcome = .conflict) ∧
      ∃ as, (∀ a ∈ as, Action.Bookkeeping a) ∧ (run s as).1 = s') := by
  simp only [Checkout.installPreparedBy, hcandidate] at h
  unfold Checkout.installCandidateBy at h
  cases hcapture : captureWorkspace (view s).repo with
  | none =>
    rw [hcapture] at h
    cases h
  | some latest =>
    rw [hcapture] at h
    dsimp only at h
    by_cases hlatest : latest = t.snapshot
    · rw [if_neg (not_not.mpr hlatest)] at h
      cases hfound : findUntrackedCollisions env.pathspecs (view s).repo
          (treePaths candidate.workingTree) with
      | none =>
        rw [hfound] at h
        cases h
      | some collisions =>
        rw [hfound] at h
        dsimp only at h
        by_cases hempty : collisions = ∅
        · rw [if_neg (not_not.mpr hempty)] at h
          cases hdone : run s (installActions env retention t candidate) with
          | mk s₁ done =>
            rw [hdone] at h
            cases done with
            | false => cases h
            | true =>
              obtain ⟨rfl, hresult⟩ := Prod.mk.inj h
              obtain rfl := Except.ok.inj hresult
              exact Or.inl ⟨rfl, congrArg some hlatest, congrArg some hempty, rfl⟩
        · rw [if_pos hempty] at h
          dsimp only at h
          rw [if_neg (by decide)] at h
          obtain ⟨rfl, hresult⟩ := Prod.mk.inj h
          obtain rfl := Except.ok.inj hresult
          exact Or.inr ⟨Or.inr rfl, _, writeJournal_bookkeeping _, rfl⟩
    · rw [if_pos hlatest] at h
      dsimp only at h
      rw [if_pos rfl] at h
      obtain ⟨rfl, hresult⟩ := Prod.mk.inj h
      obtain rfl := Except.ok.inj hresult
      exact Or.inr ⟨Or.inl rfl, _, finalizeTransaction_bookkeeping env retention _, rfl⟩

/-- On a checkout: the candidate was applied to the captured snapshot, without a
collision, or the workspace is kept. -/
theorem installPreparedReconciliation_ok {env : Env β} {retention : TransactionRetention}
    {t : Transaction β} {candidate : Candidate β} {c c' : Checkout β}
    {result : ReconcileResult (Commit (Tree β))} (hcandidate : t.candidate = some candidate)
    (h : c.installPreparedReconciliation env retention (.ready t) = (c', .ok result)) :
    (result.outcome = .applied ∧ captureWorkspace c.repo = some t.snapshot ∧
      findUntrackedCollisions env.pathspecs c.repo (treePaths candidate.workingTree) = some ∅ ∧
      SameWorkspace (installedRepo c.repo t candidate) c'.repo) ∨
    ((result.outcome = .retry ∨ result.outcome = .conflict) ∧
      SameWorkspace c.repo c'.repo) := by
  rcases installPreparedBy_ok hcandidate h with
    ⟨happlied, hcapture, hfree, hrun⟩ | ⟨hrejected, as, has, rfl⟩
  · exact Or.inl ⟨happlied, hcapture, hfree, (execute_installActions hrun).2⟩
  · exact Or.inr ⟨hrejected, (Checkout.execute_bookkeeping c has).2⟩

end Resync
