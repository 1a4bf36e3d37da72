import Resync.CandidateLayers
import Resync.Installation

/-! Installing a prepared candidate: what the workspace is afterwards, and
which untracked files survive. -/
namespace Resync

variable {β : Type} [DecidableEq β]

/-- A path that one side of a clean merge deletes is not in the result. -/
def DeletionsStay (merge : Tree β → Tree β → Tree β → Option (Tree β)) : Prop :=
  ∀ base ours theirs result, merge base ours theirs = some result →
    ∀ p, base.get p ≠ none → theirs.get p = none → result.get p = none

theorem merge_deletionsStay (driver : β → β → β → Option β) :
    DeletionsStay (PathTree.merge (σ := String) driver) := by
  intro base ours theirs result h p hbase htheirs
  have hp := PathTree.merge_eq_some_iff.mp h p
  rw [htheirs] at hp
  exact mergeEntry_deleted hp hbase

/-- A tracked file that is missing on disk is not in a prepared candidate. -/
theorem candidate_keeps_deletions {env : Env β} {r : Repository β}
    {previous target : Commit (Tree β)} {t : Transaction β} {candidate : Candidate β}
    (hdel : DeletionsStay env.merge)
    (hready : prepareReconciliation env r previous target = .ok (.ready t))
    (hcandidate : t.candidate = some candidate) {p : Path}
    (hindex : t.snapshot.indexTree.get p ≠ none) (hworking : t.snapshot.workingTree.get p = none) :
    candidate.workingTree.get p = none := by
  obtain ⟨snapshot, headRef, head, candidate', -, -, -, hlocal, -, -, hrebase, hof, rfl⟩ :=
    prepareReconciliation_ready hready
  obtain rfl : candidate' = candidate := Option.some.inj hcandidate
  obtain ⟨real, index, -, -, hlast⟩ := rebaseSynthetic_tips hlocal hrebase
  have htree : mergedTree env.merge snapshot.indexTree index.tree snapshot.workingTree =
      some head.tree := replayCommit_tree hlast
  have hne : snapshot.workingTree ≠ snapshot.indexTree := by
    intro he
    change snapshot.indexTree.get p ≠ none at hindex
    change snapshot.workingTree.get p = none at hworking
    exact hindex (he ▸ hworking)
  rw [mergedTree, if_neg hne] at htree
  rw [(candidateOf_eq_some hof).2.2.1]
  exact hdel _ _ _ _ htree p hindex hworking

/-- A file on disk that the index does not have. -/
def Untracked (r : Repository β) (p : Path) : Prop :=
  p ∉ r.index.keys ∧ r.disk.files.get p ≠ none

/-- No untracked file lies below an incoming path that Git reads as pathspec
magic when it stands on a command line. -/
def NothingBelowColon (r : Repository β) (candidate : Candidate β) : Prop :=
  ∀ c ∈ candidate.workingTree.keys, Path.startsWithColon c = true →
    ∀ p, Untracked r p → ¬ c <+: p

section Untracked

variable {ps : Pathspecs} {r : Repository β} {candidate : Candidate β}

omit [DecidableEq β] in
/-- The checkout of the candidate keeps an untracked file exactly when it does
not lie below an incoming path. -/
theorem untracked_kept_iff
    (hfree : findUntrackedCollisions ps r (treePaths candidate.workingTree) = some ∅)
    {p : Path} (hp : Untracked r p) :
    r.disk.checkoutEntry r.index candidate.workingTree p = r.disk.files.get p ↔
      ∀ c ∈ candidate.workingTree.keys, ¬ c <+: p := by
  have habove : ∀ c ∈ candidate.workingTree.keys, ¬ p <+: c := fun c hc =>
    no_untracked_above (untrackedCollision_of_empty hfree hc) hp.2 hp.1
  constructor
  · intro hkept c hc hcp
    have hw : p ∉ candidate.workingTree.keys := fun hpw => habove p hpw (List.prefix_refl p)
    rw [Disk.checkoutEntry_of_clash _ _ hw hc (Or.inr hcp)] at hkept
    exact hp.2 hkept.symm
  · intro hbelow
    refine Disk.checkoutEntry_of_clear _ hp.1 fun c hc hcmp => ?_
    rcases hcmp with hpc | hcp
    · exact habove c hc hpc
    · exact hbelow c hc hcp

omit [DecidableEq β] in
/-- All untracked files are kept exactly when none of them lies below an
incoming path that the collision search misreads. -/
theorem all_untracked_kept_iff
    (hfree : findUntrackedCollisions ps r (treePaths candidate.workingTree) = some ∅)
    (hdeleted : ∀ p ∈ r.index.keys, r.disk.files.get p = none →
      candidate.workingTree.get p = none) :
    (∀ p, Untracked r p →
      r.disk.checkoutEntry r.index candidate.workingTree p = r.disk.files.get p) ↔
    NothingBelowColon r candidate := by
  constructor
  · intro h c hc _ p hp
    exact (untracked_kept_iff hfree hp).mp (h p hp) c hc
  · intro h p hp
    refine (untracked_kept_iff hfree hp).mpr fun c hc hcp => ?_
    by_cases hcolon : Path.startsWithColon c = true
    · exact h c hc hcolon p hp hcp
    · by_cases hindex : c ∈ r.index.keys
      · -- a tracked path that is a directory on disk counts as deleted
        have hnone : r.disk.files.get c = none := by
          by_contra hfile
          exact hp.1 (r.disk.files.prefix_free c p hfile hp.2 hcp ▸ hindex)
        exact (candidate.workingTree.mem_keys c).mp hc (hdeleted c hindex hnone)
      · exact no_untracked_below (untrackedCollision_of_empty hfree hc) hp.2 hp.1 hindex
          (by simpa only [Bool.not_eq_true] using hcolon) hcp

end Untracked

/-- The workspace is the candidate, and every untracked file is as it was. -/
def InstalledExactly (r r' : Repository β) (candidate : Candidate β) : Prop :=
  captureWorkspace r' = some ⟨candidate.realHead, candidate.indexTree, candidate.workingTree⟩ ∧
    ∀ p, Untracked r p → r'.disk.files.get p = r.disk.files.get p

/-- An applied candidate is the workspace, and no untracked file is touched,
exactly when the candidate's trees fit the checkout, HEAD is still on the
transaction's branch (or on the new commit already), and no untracked file
lies below an incoming path that begins with a colon. A conflict or a retry
leaves the workspace alone. -/
theorem install_frame_iff (env₀ env : Env β) (retention : TransactionRetention)
    (r₀ : Repository β) (previous target : Commit (Tree β)) (t : Transaction β)
    (candidate : Candidate β) (c c' : Checkout β) (result : ReconcileResult (Commit (Tree β)))
    (hdel : DeletionsStay env₀.merge)
    (hready : prepareReconciliation env₀ r₀ previous target = .ok (.ready t))
    (hcandidate : t.candidate = some candidate)
    (hinstall : c.installPreparedReconciliation env retention (.ready t) = (c', .ok result)) :
    (result.outcome = .applied →
      (InstalledExactly c.repo c'.repo candidate ↔
        LayersFit c.repo candidate ∧ HeadFits c.repo t candidate ∧
          NothingBelowColon c.repo candidate)) ∧
    (result.outcome = .conflict ∨ result.outcome = .retry →
      SameWorkspace c.repo c'.repo) := by
  rcases installPreparedReconciliation_ok hcandidate hinstall with
    ⟨happlied, hcapture, hfree, hsame⟩ | ⟨hrejected, hsame⟩
  · refine ⟨fun _ => ?_, fun h => ?_⟩
    · have hdeleted : ∀ p ∈ c.repo.index.keys, c.repo.disk.files.get p = none →
          candidate.workingTree.get p = none := by
        intro p hp hnone
        obtain ⟨-, -, hindex, -⟩ := captureWorkspace_eq_some.mp hcapture
        refine candidate_keeps_deletions hdel hready hcandidate ?_ ?_
        · rw [hindex]
          exact (c.repo.index.mem_keys p).mp hp
        · rw [captured_get hcapture p, hnone, ite_self]
      have hdisk : ∀ p, c'.repo.disk.files.get p =
          c.repo.disk.checkoutEntry c.repo.index candidate.workingTree p := fun p => by
        rw [hsame.disk]
        exact Repository.get_readTreeReset c.repo candidate.workingTree p
      rw [InstalledExactly, hsame.captureWorkspace, captureWorkspace_installed, and_assoc]
      refine and_congr_right fun _ => and_congr_right fun _ => ?_
      simp only [hdisk]
      exact all_untracked_kept_iff hfree hdeleted
    · rw [happlied] at h
      rcases h with h | h <;> cases h
  · refine ⟨fun h => ?_, fun _ => hsame⟩
    rw [h] at hrejected
    rcases hrejected with h | h <;> cases h

section Reconcile

/-- `reconcile_workspace_with_retention` on a state that Git reads as the checkout `view`, and
whether what it prepared and installed passes a test. -/
def reconcilesBy {S : Type} (view : S → Checkout β) (run : S → List (Action β) → S × Bool)
    (env : Env β) (retention : TransactionRetention) (s : S) (previous target : Commit (Tree β))
    (test : Transaction β → Candidate β → S → ReconcileResult (Commit (Tree β)) → Bool) : Bool :=
  match prepareReconciliation env (view s).repo previous target with
  | .ok (.ready t) =>
    match t.candidate, Checkout.installPreparedBy view run env retention (.ready t) s with
    | some candidate, (s', .ok result) => test t candidate s' result
    | _, _ => false
  | _ => false

/-- `reconcile_workspace_with_retention` on a checkout of blobs. -/
def reconcilesTo (env : Env β) (retention : TransactionRetention) (c : Checkout β)
    (previous target : Commit (Tree β))
    (test : Transaction β → Candidate β → Checkout β → ReconcileResult (Commit (Tree β)) → Bool) :
    Bool :=
  reconcilesBy (fun c => c) Checkout.execute env retention c previous target test

theorem exists_of_reconcilesBy {S : Type} {view : S → Checkout β}
    {run : S → List (Action β) → S × Bool} {env : Env β} {retention : TransactionRetention}
    {previous target : Commit (Tree β)} (s : S)
    (test : Transaction β → Candidate β → S → ReconcileResult (Commit (Tree β)) → Bool)
    (h : reconcilesBy view run env retention s previous target test = true) :
    ∃ t candidate s' result,
      prepareReconciliation env (view s).repo previous target = .ok (.ready t) ∧
      t.candidate = some candidate ∧
      Checkout.installPreparedBy view run env retention (.ready t) s = (s', .ok result) ∧
      test t candidate s' result = true := by
  unfold reconcilesBy at h
  split at h
  · next t ht =>
    split at h
    · next candidate s' result hcandidate hinstall =>
      exact ⟨t, candidate, s', result, ht, hcandidate, hinstall, h⟩
    · cases h
  · cases h

theorem exists_of_reconcilesTo {env : Env β} {retention : TransactionRetention}
    {previous target : Commit (Tree β)} (c : Checkout β)
    (test : Transaction β → Candidate β → Checkout β → ReconcileResult (Commit (Tree β)) → Bool)
    (h : reconcilesTo env retention c previous target test = true) :
    ∃ t candidate c' result,
      prepareReconciliation env c.repo previous target = .ok (.ready t) ∧
      t.candidate = some candidate ∧
      c.installPreparedReconciliation env retention (.ready t) = (c', .ok result) ∧
      test t candidate c' result = true :=
  exists_of_reconcilesBy c test h

instance (r : Repository β) (candidate : Candidate β) : Decidable (LayersFit r candidate) :=
  decidable_of_iff ((∀ p ∈ candidate.workingTree.keys, p ∈ candidate.indexTree.keys) ∧
    ∀ p ∈ candidate.indexTree.keys, p ∉ candidate.workingTree.keys →
      p ∈ r.index.keys ∨ r.disk.files.get p = none)
    ⟨fun h => ⟨h.1, h.2⟩, fun h => ⟨h.1, h.2⟩⟩

instance (r : Repository β) (t : Transaction β) (candidate : Candidate β) :
    Decidable (HeadFits r t candidate) := inferInstanceAs (Decidable (_ ∨ _))

omit [DecidableEq β] in
theorem forall_untracked (r : Repository β) (P : Path → Prop) :
    (∀ p ∈ r.disk.files.keys, p ∉ r.index.keys → P p) ↔ ∀ p, Untracked r p → P p :=
  ⟨fun h p hp => h p ((r.disk.files.mem_keys p).mpr hp.2) hp.1,
    fun h p hp hi => h p ⟨hi, (r.disk.files.mem_keys p).mp hp⟩⟩

instance (r : Repository β) (candidate : Candidate β) :
    Decidable (NothingBelowColon r candidate) :=
  decidable_of_iff (∀ c ∈ candidate.workingTree.keys, Path.startsWithColon c = true →
    ∀ p ∈ r.disk.files.keys, p ∉ r.index.keys → ¬ c <+: p)
    (forall₂_congr fun c _ => imp_congr_right fun _ => forall_untracked r fun p => ¬ c <+: p)

instance (r r' : Repository β) (candidate : Candidate β) :
    Decidable (InstalledExactly r r' candidate) :=
  decidable_of_iff (captureWorkspace r' =
      some ⟨candidate.realHead, candidate.indexTree, candidate.workingTree⟩ ∧
    ∀ p ∈ r.disk.files.keys, p ∉ r.index.keys → r'.disk.files.get p = r.disk.files.get p)
    (and_congr_right fun _ => forall_untracked r fun p => r'.disk.files.get p = r.disk.files.get p)

def noRetention : TransactionRetention := ⟨false⟩

theorem install_frame_two : ∃ t candidate c' result,
    prepareReconciliation plainEnv stagedAndOther oldRevision newRevision = .ok (.ready t) ∧
    t.candidate = some candidate ∧
    Checkout.installPreparedReconciliation plainEnv noRetention (.ready t)
      ⟨stagedAndOther, fun _ => none⟩ = (c', .ok result) ∧
    result.outcome = .applied ∧ InstalledExactly stagedAndOther c'.repo candidate := by
  obtain ⟨t, candidate, c', result, ht, hcandidate, hinstall, htest⟩ :=
    exists_of_reconcilesTo ⟨stagedAndOther, fun _ => none⟩
      (fun t candidate _ result => decide (result.outcome = .applied ∧
        LayersFit stagedAndOther candidate ∧ HeadFits stagedAndOther t candidate ∧
        NothingBelowColon stagedAndOther candidate))
      (by decide +kernel : reconcilesTo plainEnv noRetention _ oldRevision newRevision _ = true)
  obtain ⟨happlied, hfits⟩ := of_decide_eq_true htest
  exact ⟨t, candidate, c', result, ht, hcandidate, hinstall, happlied,
    ((install_frame_iff plainEnv plainEnv noRetention stagedAndOther oldRevision newRevision t
      candidate _ c' result (merge_deletionsStay _) ht hcandidate hinstall).1 happlied).mpr hfits⟩

/-- The candidate whose unstaged layer was dropped is applied, and the staged
file is not in the index any more. -/
theorem install_loses_staged_file : ∃ t candidate c' result,
    prepareReconciliation plainEnv stagedAndSame oldRevision newRevision = .ok (.ready t) ∧
    t.candidate = some candidate ∧
    Checkout.installPreparedReconciliation plainEnv noRetention (.ready t)
      ⟨stagedAndSame, fun _ => none⟩ = (c', .ok result) ∧
    result.outcome = .applied ∧ c'.repo.index.get ["n"] = none ∧
    ¬ InstalledExactly stagedAndSame c'.repo candidate := by
  obtain ⟨t, candidate, c', result, ht, hcandidate, hinstall, htest⟩ :=
    exists_of_reconcilesTo ⟨stagedAndSame, fun _ => none⟩
      (fun _ candidate c' result => decide (result.outcome = .applied ∧
        c'.repo.index.get ["n"] = none ∧ ¬ InstalledExactly stagedAndSame c'.repo candidate))
      (by decide +kernel : reconcilesTo plainEnv noRetention _ oldRevision newRevision _ = true)
  exact ⟨t, candidate, c', result, ht, hcandidate, hinstall, of_decide_eq_true htest⟩

end Reconcile

end Resync
