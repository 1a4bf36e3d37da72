import Resync.InstallFrame
import Resync.WorkingCopy

/-! What a reconciliation does to one path, over a chain of local commits of
any length, whatever commits the rebase drops and however Git converts files. -/
namespace Resync

variable {β : Type} [DecidableEq β] {driver : β → β → β → Option β}
  {stamp : CommitInfo → CommitInfo}

section Chain

variable {base target tip r : Commit (Tree β)} {cs : List (Commit (Tree β))}

/-- Replaying a commit merges every path, whether the commit is dropped, kept
empty, or changed by the merge. -/
theorem replayCommit_entry {parent : Commit (Tree β)} {t : Tree β} {i : CommitInfo}
    (h : replayCommit (PathTree.merge driver) stamp tip (.mk [parent] t i) = some r) (p : Path) :
    mergeEntry driver (parent.tree.get p) (tip.tree.get p) (t.get p) = some (r.tree.get p) := by
  have hmerged := replayCommit_tree h
  unfold mergedTree at hmerged
  split at hmerged
  -- a commit that changes nothing takes the tree that it comes upon
  · next hsame =>
    rw [hsame, mergeEntry_base_right, Option.some.inj hmerged]
  · exact PathTree.merge_eq_some_iff.mp hmerged p

/-- Where upstream changed nothing, the replayed history has the local content. -/
theorem replay_of_upstream_same (h : Commit.Chain base cs tip)
    (hr : replay (PathTree.merge driver) stamp target cs = some r) {p : Path}
    (hp : target.tree.get p = base.tree.get p) : r.tree.get p = tip.tree.get p := by
  induction h generalizing r with
  | nil =>
    obtain rfl := Option.some.inj hr
    exact hp
  | snoc h t i ih =>
    obtain ⟨before, hbefore, hlast⟩ := replay_concat_eq_some.mp hr
    have hentry := replayCommit_entry hlast p
    rw [ih hbefore, mergeEntry_base_left] at hentry
    exact (Option.some.inj hentry).symm

/-- Where no local commit changed anything, the replayed history has the
target's content. -/
theorem replay_of_local_same (h : Commit.Chain base cs tip)
    (hr : replay (PathTree.merge driver) stamp target cs = some r) {p : Path}
    (hp : ∀ c ∈ cs, c.tree.get p = base.tree.get p) :
    r.tree.get p = target.tree.get p ∧ tip.tree.get p = base.tree.get p := by
  induction h generalizing r with
  | nil =>
    obtain rfl := Option.some.inj hr
    exact ⟨rfl, rfl⟩
  | @snoc cs tip h t i ih =>
    obtain ⟨before, hbefore, hlast⟩ := replay_concat_eq_some.mp hr
    obtain ⟨htarget, htip⟩ := ih hbefore fun c hc => hp c (List.mem_append_left _ hc)
    have ht : t.get p = base.tree.get p :=
      hp (.mk [tip] t i) (List.mem_append_right cs (List.mem_singleton_self _))
    have hentry := replayCommit_entry hlast p
    rw [htip, ht, mergeEntry_base_right] at hentry
    exact ⟨(Option.some.inj hentry).symm.trans htarget, ht⟩

/-- A path that the last local commit does not have, but the replayed history
does, was never there locally and comes from the target. -/
theorem replay_of_added (h : Commit.Chain base cs tip)
    (hr : replay (PathTree.merge driver) stamp target cs = some r) {p : Path}
    (hp : tip.tree.get p = none) (hadded : r.tree.get p ≠ none) :
    base.tree.get p = none ∧ (∀ c ∈ cs, c.tree.get p = none) ∧
      r.tree.get p = target.tree.get p := by
  induction h generalizing r with
  | nil =>
    obtain rfl := Option.some.inj hr
    exact ⟨hp, fun c hc => absurd hc List.not_mem_nil, rfl⟩
  | @snoc cs tip h t i ih =>
    obtain ⟨before, hbefore, hlast⟩ := replay_concat_eq_some.mp hr
    have ht : t.get p = none := hp
    have hentry := replayCommit_entry hlast p
    rw [ht] at hentry
    -- otherwise the last commit has deleted it
    have htip : tip.tree.get p = none := by
      by_contra htip
      exact hadded (mergeEntry_deleted hentry htip)
    rw [htip, mergeEntry_base_right] at hentry
    have hsame : before.tree.get p = r.tree.get p := Option.some.inj hentry
    obtain ⟨hbase, hcs, htarget⟩ := ih hbefore htip (hsame ▸ hadded)
    refine ⟨hbase, fun c hc => ?_, hsame.symm.trans htarget⟩
    rcases List.mem_append.mp hc with hc | hc
    · exact hcs c hc
    · rw [List.mem_singleton.mp hc]
      exact ht

end Chain

section Candidate

variable {env : Env β} {r : Repository β} {previous target : Commit (Tree β)} {t : Transaction β}
  {candidate : Candidate β}

/-- The local commits and the two synthetic ones, oldest first. -/
def localLayers (env : Env β) (previous : Commit (Tree β)) (snapshot : WorkspaceSnapshot β) :
    List (Commit (Tree β)) :=
  localCommits previous snapshot ++ [(createSyntheticChain env.now snapshot).indexCommit] ++
    [(createSyntheticChain env.now snapshot).workingCommit]

/-- A prepared candidate is the target with a chain of all local layers
replayed on it, of which the last has the snapshot's working tree. -/
theorem candidate_replays
    (hready : prepareReconciliation env r previous target = .ok (.ready t))
    (hcandidate : t.candidate = some candidate) :
    ∃ head, Commit.Chain previous (localLayers env previous t.snapshot)
        (createSyntheticChain env.now t.snapshot).workingCommit ∧
      replay env.merge (reconcilerStamp env.now) target (localLayers env previous t.snapshot) =
        some head ∧ candidate.workingTree = head.tree := by
  obtain ⟨snapshot, headRef, head, candidate', -, -, -, hlocal, -, hmerges, hrebase, hof, rfl⟩ :=
    prepareReconciliation_ready hready
  obtain rfl : candidate' = candidate := Option.some.inj hcandidate
  refine ⟨head, ((Commit.chain_revList hlocal hmerges).snoc _ _).snoc _ _, ?_,
    (candidateOf_eq_some hof).2.2.1⟩
  exact (rebaseSynthetic_eq env target hlocal).symm.trans hrebase

theorem forall_localLayers (env : Env β) {snapshot : WorkspaceSnapshot β} {P : Tree β → Prop} :
    (∀ c ∈ localLayers env previous snapshot, P c.tree) ↔
      (∀ c ∈ localCommits previous snapshot, P c.tree) ∧ P snapshot.indexTree ∧
        P snapshot.workingTree := by
  constructor
  · intro h
    refine ⟨fun c hc => h c (List.mem_append_left _ (List.mem_append_left _ hc)), ?_, ?_⟩
    · exact h (createSyntheticChain env.now snapshot).indexCommit
        (List.mem_append_left _ (List.mem_append_right _ (List.mem_singleton_self _)))
    · exact h (createSyntheticChain env.now snapshot).workingCommit
        (List.mem_append_right _ (List.mem_singleton_self _))
  · rintro ⟨hlocal, hindex, hworking⟩ c hc
    rcases List.mem_append.mp hc with hc | hc
    · rcases List.mem_append.mp hc with hc | hc
      · exact hlocal c hc
      · rw [List.mem_singleton.mp hc]
        exact hindex
    · rw [List.mem_singleton.mp hc]
      exact hworking

end Candidate

/-- No local layer differs from the previous revision at the path: no local
commit, not the index, and not what is on disk. -/
structure LocallySame (previous : Commit (Tree β)) (snapshot : WorkspaceSnapshot β)
    (r : Repository β) (p : Path) : Prop where
  commits : ∀ c ∈ localCommits previous snapshot, c.tree.get p = previous.tree.get p
  index : r.index.get p = previous.tree.get p
  disk : r.disk.files.get p = previous.tree.get p

/-- The content of a file is a blob's: Git stores it as the blob, or has written it for
the blob. -/
def ContentOf {δ : Type} (conv : Conversion β δ) (p : Path) (file : Option δ) (blob : Option β) :
    Prop :=
  file.map (conv.clean p) = blob ∨ file = blob.map (conv.smudge p)

/-- What upstream left unchanged keeps its content on disk, and what no local
layer changed gets the target's. -/
def PathLaws {δ : Type} (conv : Conversion β δ) (previous target : Commit (Tree β))
    (snapshot : WorkspaceSnapshot β) (w w' : WorkingCopy β δ) : Prop :=
  (∀ p, target.tree.get p = previous.tree.get p →
    w'.disk.files.get p = w.disk.files.get p) ∧
  ∀ p, LocallySame previous snapshot (w.view conv).repo p →
    ContentOf conv p (w'.disk.files.get p) (target.tree.get p)

/-- A tracked file that upstream left alone is not written anew, since its index entry
is what Git stores of it and has its stat data; or what Git writes for what it stores
of the file is the file. -/
def WrittenAsFound {δ : Type} (conv : Conversion β δ) (previous target : Commit (Tree β))
    (w : WorkingCopy β δ) : Prop :=
  ∀ p d, target.tree.get p = previous.tree.get p → w.disk.files.get p = some d →
    p ∈ w.index.keys →
    (w.upToDate p = true ∧ w.index.get p = some (conv.clean p d)) ∨
      conv.smudge p (conv.clean p d) = d

/-- No untracked file that the previous revision does not have lies below a
path that begins with a colon and that the target brings in, with no local
layer changed there. -/
def NothingBelowTarget (previous target : Commit (Tree β)) (snapshot : WorkspaceSnapshot β)
    (r : Repository β) : Prop :=
  ∀ p, Untracked r p → previous.tree.get p = none → ∀ q ∈ target.tree.keys,
    Path.startsWithColon q = true → LocallySame previous snapshot r q → ¬ q <+: p

section Laws

variable {env₀ : Env β} {ps : Pathspecs} {r₀ r : Repository β}
  {previous target : Commit (Tree β)} {t : Transaction β} {candidate : Candidate β}

/-- The laws would put the target's file above the untracked one. -/
theorem nothingBelowTarget_of_laws {δ : Type} {conv : Conversion β δ}
    {snapshot : WorkspaceSnapshot β} {w w' : WorkingCopy β δ}
    (h : PathLaws conv previous target snapshot w w') :
    NothingBelowTarget previous target snapshot (w.view conv).repo := by
  intro p hp hprevious q hq _ hsame hqp
  have hqt := (target.tree.mem_keys q).mp hq
  have hfile : w'.disk.files.get q ≠ none := by
    intro hnone
    rcases h.2 q hsame with hblob | hblob
    · rw [hnone] at hblob
      exact hqt hblob.symm
    · rw [hnone] at hblob
      exact hqt (Option.map_eq_none_iff.mp hblob.symm)
  have hpfile : w.disk.files.get p ≠ none := fun hnone => hp.2 (Option.map_eq_none_iff.mpr hnone)
  by_cases hqp' : q = p
  · subst hqp'
    exact hp.2 (hsame.disk.trans hprevious)
  · have htarget : target.tree.get p = none := by
      by_contra hpt
      exact hqp' (target.tree.prefix_free q p hqt hpt hqp)
    have hkept := h.1 p (htarget.trans hprevious.symm)
    exact hqp' (w'.disk.files.prefix_free q p hfile (hkept ▸ hpfile) hqp)

/-- An untracked file below a path of the candidate lies below a path of the
target that no local layer changed. -/
theorem below_target_of_below_candidate (hmerge : env₀.merge = PathTree.merge driver)
    (hready : prepareReconciliation env₀ r₀ previous target = .ok (.ready t))
    (hcandidate : t.candidate = some candidate)
    (hcapture : captureWorkspace r = some t.snapshot) {p q : Path} (hp : Untracked r p)
    (hq : q ∈ candidate.workingTree.keys) (hqp : q <+: p) (hne : q ≠ p) :
    q ∈ target.tree.keys ∧ LocallySame previous t.snapshot r q := by
  obtain ⟨head, hchain, hreplay, htree⟩ := candidate_replays hready hcandidate
  rw [hmerge] at hreplay
  -- on disk the path is a directory
  have hdisk : r.disk.files.get q = none := by
    by_contra hfile
    exact hne (r.disk.files.prefix_free q p hfile hp.2 hqp)
  have hworking : t.snapshot.workingTree.get q = none := by
    rw [captured_get hcapture q, hdisk, ite_self]
  have hadded : head.tree.get q ≠ none := by
    rw [← htree]
    exact (candidate.workingTree.mem_keys q).mp hq
  obtain ⟨hbase, hlayers, htarget⟩ := replay_of_added hchain hreplay hworking hadded
  obtain ⟨hlocal, hindex, -⟩ :=
    (forall_localLayers env₀ (P := fun u => u.get q = none)).mp hlayers
  refine ⟨(target.tree.mem_keys q).mpr (htarget ▸ hadded), fun c hc => ?_, ?_, ?_⟩
  · rw [hlocal c hc, hbase]
  · rw [← (captureWorkspace_eq_some.mp hcapture).2.2.1, hindex, hbase]
  · rw [hdisk, hbase]

/-- The first law, at a tracked path or one without a file. -/
theorem checkout_of_upstream_same (hmerge : env₀.merge = PathTree.merge driver)
    (hready : prepareReconciliation env₀ r₀ previous target = .ok (.ready t))
    (hcandidate : t.candidate = some candidate)
    (hcapture : captureWorkspace r = some t.snapshot) {p : Path}
    (hp : target.tree.get p = previous.tree.get p) (htracked : ¬ Untracked r p) :
    r.disk.checkoutEntry r.index candidate.workingTree p = r.disk.files.get p := by
  obtain ⟨head, hchain, hreplay, htree⟩ := candidate_replays hready hcandidate
  rw [hmerge] at hreplay
  have hindex : t.snapshot.indexTree = r.index := (captureWorkspace_eq_some.mp hcapture).2.2.1
  have hcand : candidate.workingTree.get p =
      if p ∈ r.index.keys then r.disk.files.get p else none := by
    rw [htree, replay_of_upstream_same hchain hreplay hp, ← hindex]
    exact captured_get hcapture p
  by_cases hi : p ∈ r.index.keys
  · rw [if_pos hi] at hcand
    by_cases hw : p ∈ candidate.workingTree.keys
    · rw [Disk.checkoutEntry_of_mem _ _ hw, hcand]
    · rw [Disk.checkoutEntry_of_index _ hw hi, ← hcand,
        (candidate.workingTree.get_eq_none_iff p).mpr hw]
  · rw [if_neg hi] at hcand
    have hnone : r.disk.files.get p = none := by
      by_contra hfile
      exact htracked ⟨hi, hfile⟩
    have hw : p ∉ candidate.workingTree.keys := (candidate.workingTree.get_eq_none_iff p).mp hcand
    rw [Disk.checkoutEntry_none _ hw hnone, hnone]

/-- Where no local layer changed anything, the candidate is the target. -/
theorem candidate_of_local_same (hmerge : env₀.merge = PathTree.merge driver)
    (hready : prepareReconciliation env₀ r₀ previous target = .ok (.ready t))
    (hcandidate : t.candidate = some candidate)
    (hcapture : captureWorkspace r = some t.snapshot) {p : Path}
    (hp : LocallySame previous t.snapshot r p) :
    candidate.workingTree.get p = target.tree.get p := by
  obtain ⟨head, hchain, hreplay, htree⟩ := candidate_replays hready hcandidate
  rw [hmerge] at hreplay
  have hindex : t.snapshot.indexTree = r.index := (captureWorkspace_eq_some.mp hcapture).2.2.1
  have hworking : t.snapshot.workingTree.get p = previous.tree.get p := by
    rw [captured_get hcapture p, hindex, hp.disk]
    split
    · rfl
    · next hi => rw [← hp.index, (r.index.get_eq_none_iff p).mpr hi]
  rw [htree]
  have hlayers := (forall_localLayers env₀ (P := fun u => u.get p = previous.tree.get p)).mpr
    ⟨hp.commits, hindex ▸ hp.index, hworking⟩
  exact (replay_of_local_same hchain hreplay hlayers).1

/-- A file that no local layer changed is gone where the candidate does not have it. -/
theorem checkout_of_local_same {p : Path} (hp : LocallySame previous t.snapshot r p)
    (hw : p ∉ candidate.workingTree.keys) :
    r.disk.checkoutEntry r.index candidate.workingTree p = none := by
  by_cases hi : p ∈ r.index.keys
  · exact Disk.checkoutEntry_of_index _ hw hi
  · refine Disk.checkoutEntry_none _ hw ?_
    rw [hp.disk, ← hp.index, (r.index.get_eq_none_iff p).mpr hi]

/-- No incoming path lies above an untracked file where upstream changed nothing. -/
theorem no_candidate_above_untracked (hmerge : env₀.merge = PathTree.merge driver)
    (hready : prepareReconciliation env₀ r₀ previous target = .ok (.ready t))
    (hcandidate : t.candidate = some candidate)
    (hcapture : captureWorkspace r = some t.snapshot)
    (hfree : findUntrackedCollisions ps r (treePaths candidate.workingTree) = some ∅)
    (hbelow : NothingBelowTarget previous target t.snapshot r) {p : Path}
    (hp : target.tree.get p = previous.tree.get p) (hu : Untracked r p) :
    ∀ q ∈ candidate.workingTree.keys, ¬ q <+: p := by
  intro q hq hqp
  have hne : q ≠ p := by
    rintro rfl
    exact no_untracked_above (untrackedCollision_of_empty hfree hq) hu.2 hu.1
      (List.prefix_refl q)
  obtain ⟨hqt, hqsame⟩ :=
    below_target_of_below_candidate hmerge hready hcandidate hcapture hu hq hqp hne
  have htarget : target.tree.get p = none := by
    by_contra hpt
    exact hne (target.tree.prefix_free q p ((target.tree.mem_keys q).mp hqt) hpt hqp)
  by_cases hcolon : Path.startsWithColon q = true
  · exact hbelow p hu (hp.symm.trans htarget) q hqt hcolon hqsame hqp
  · have hqi : q ∉ r.index.keys := by
      rw [← r.index.get_eq_none_iff, hqsame.index, ← hqsame.disk]
      by_contra hfile
      exact hne (r.disk.files.prefix_free q p hfile hu.2 hqp)
    exact no_untracked_below (untrackedCollision_of_empty hfree hq) hu.2 hu.1 hqi
      (by simpa only [Bool.not_eq_true] using hcolon) hqp

section Rewritten

variable {δ : Type} {conv : Conversion β δ} {w : WorkingCopy β δ}

/-- What upstream left alone is rewritten as it was found. -/
theorem rewrite_of_upstream_same (hmerge : env₀.merge = PathTree.merge driver)
    (hready : prepareReconciliation env₀ r₀ previous target = .ok (.ready t))
    (hcandidate : t.candidate = some candidate)
    (hcapture : captureWorkspace (w.view conv).repo = some t.snapshot) {p : Path}
    (hp : target.tree.get p = previous.tree.get p) (htracked : ¬ Untracked (w.view conv).repo p) :
    w.disk.rewriteEntry conv w.upToDate w.index candidate.workingTree p = w.disk.files.get p ↔
      ∀ d, w.disk.files.get p = some d → p ∈ w.index.keys →
        (w.upToDate p = true ∧ w.index.get p = some (conv.clean p d)) ∨
          conv.smudge p (conv.clean p d) = d := by
  have hentry := checkout_of_upstream_same hmerge hready hcandidate hcapture hp htracked
  by_cases hw : p ∈ candidate.workingTree.keys
  · rw [Disk.checkoutEntry_of_mem _ _ hw] at hentry
    have hblob := (candidate.workingTree.mem_keys p).mp hw
    rw [hentry] at hblob
    obtain ⟨d, hd⟩ := Option.ne_none_iff_exists'.mp
      fun hnone : w.disk.files.get p = none => hblob (Option.map_eq_none_iff.mpr hnone)
    have hclean : candidate.workingTree.get p = some (conv.clean p d) := by
      rw [hentry]
      exact congrArg (Option.map (conv.clean p)) hd
    have hindexed : p ∈ w.index.keys := by
      by_contra hi
      refine htracked ⟨hi, fun hnone => ?_⟩
      exact hblob hnone
    rw [Disk.rewriteEntry_of_mem _ _ hw, hd, hclean, Option.map_some]
    simp only [Option.some.injEq, forall_eq', hindexed, forall_const, Option.isSome_some, and_true]
    split
    · next hkept => exact iff_of_true rfl (Or.inl hkept)
    · next hkept =>
      exact ⟨fun h => Or.inr (Option.some.inj h), fun h => congrArg some (h.resolve_left hkept)⟩
  · have hkept := (Disk.rewriteEntry_eq_files_iff conv w.upToDate hw).mpr hentry
    refine iff_of_true hkept fun d hd hi => ?_
    have hgone := Disk.checkoutEntry_of_index (w.disk.clean conv) hw hi
    have hnone : w.disk.files.get p = none := Option.map_eq_none_iff.mp (hentry.symm.trans hgone)
    rw [hd] at hnone
    cases hnone

/-- What no local layer changed is rewritten to the target's content. -/
theorem rewrite_of_local_same (hmerge : env₀.merge = PathTree.merge driver)
    (hready : prepareReconciliation env₀ r₀ previous target = .ok (.ready t))
    (hcandidate : t.candidate = some candidate)
    (hcapture : captureWorkspace (w.view conv).repo = some t.snapshot) {p : Path}
    (hp : LocallySame previous t.snapshot (w.view conv).repo p) :
    ContentOf conv p (w.disk.rewriteEntry conv w.upToDate w.index candidate.workingTree p)
      (target.tree.get p) := by
  have hcand := candidate_of_local_same hmerge hready hcandidate hcapture hp
  by_cases hw : p ∈ candidate.workingTree.keys
  · rw [Disk.rewriteEntry_of_mem _ _ hw, hcand]
    split
    · next hkept => exact Or.inl ((hp.disk.trans hp.index.symm).trans hkept.2.1)
    · exact Or.inr rfl
  · left
    have hnone : (w.disk.clean conv).checkoutEntry w.index candidate.workingTree p = none :=
      checkout_of_local_same hp hw
    rw [(Disk.rewriteEntry_eq_none_iff conv w.upToDate).mpr hnone, Option.map_none, ← hcand,
      (candidate.workingTree.get_eq_none_iff p).mpr hw]

/-- An untracked file is kept exactly when it is below no incoming path. -/
theorem rewrite_untracked_iff
    (hfree : findUntrackedCollisions ps (w.view conv).repo (treePaths candidate.workingTree) =
      some ∅) {p : Path} (hp : Untracked (w.view conv).repo p) :
    w.disk.rewriteEntry conv w.upToDate w.index candidate.workingTree p = w.disk.files.get p ↔
      ∀ q ∈ candidate.workingTree.keys, ¬ q <+: p := by
  have hw : p ∉ candidate.workingTree.keys := fun hw =>
    no_untracked_above (untrackedCollision_of_empty hfree hw) hp.2 hp.1 (List.prefix_refl p)
  exact (Disk.rewriteEntry_eq_files_iff conv w.upToDate hw).trans (untracked_kept_iff hfree hp)

end Rewritten

/-- An applied reconciliation keeps on disk what upstream left unchanged, and
takes the target's content where no local layer changed anything, for every
chain of local commits and all conversions: exactly when no untracked file lies
below a path from the target that the collision search misreads, and no
conversion changes a file that upstream left alone and the checkout rewrites. -/
theorem path_laws_iff {δ : Type} (driver : β → β → β → Option β) (env₀ env : Env β)
    (conv : Conversion β δ) (retention : TransactionRetention) (r₀ : Repository β)
    (previous target : Commit (Tree β)) (t : Transaction β) (candidate : Candidate β)
    (w w' : WorkingCopy β δ) (result : ReconcileResult (Commit (Tree β)))
    (hmerge : env₀.merge = PathTree.merge driver)
    (hready : prepareReconciliation env₀ r₀ previous target = .ok (.ready t))
    (hcandidate : t.candidate = some candidate)
    (hinstall : w.installPreparedReconciliation conv env retention (.ready t) = (w', .ok result))
    (happlied : result.outcome = .applied) :
    PathLaws conv previous target t.snapshot w w' ↔
      NothingBelowTarget previous target t.snapshot (w.view conv).repo ∧
        WrittenAsFound conv previous target w := by
  rcases installPreparedBy_ok hcandidate hinstall with ⟨-, hcapture, hfree, hrun⟩ | ⟨hrejected, -⟩
  · have hfiles := WorkingCopy.execute_installActions_files hrun
    constructor
    · intro h
      refine ⟨nothingBelowTarget_of_laws h, fun p d hp hd hi => ?_⟩
      have hu : ¬ Untracked (w.view conv).repo p := fun hu => hu.1 hi
      have hkept := (hfiles p).symm.trans (h.1 p hp)
      exact (rewrite_of_upstream_same hmerge hready hcandidate hcapture hp hu).mp hkept d hd hi
    · rintro ⟨hbelow, hfound⟩
      refine ⟨fun p hp => ?_, fun p hp => ?_⟩
      · rw [hfiles]
        by_cases hu : Untracked (w.view conv).repo p
        · exact (rewrite_untracked_iff hfree hu).mpr
            (no_candidate_above_untracked hmerge hready hcandidate hcapture hfree hbelow hp hu)
        · exact (rewrite_of_upstream_same hmerge hready hcandidate hcapture hp hu).mpr
            fun d hd hi => hfound p d hp hd hi
      · rw [hfiles]
        exact rewrite_of_local_same hmerge hready hcandidate hcapture hp
  · rw [happlied] at hrejected
    rcases hrejected with h | h <;> cases h

end Laws

section Rewrites

/-- Files are stored and written as they are. -/
def asTheyAre : Conversion ℕ ℕ := ⟨fun _ d => d, fun _ b => b⟩

/-- A file has its lines and whether they end in CRLF; `text=auto` stores and writes LF. -/
def textAuto : Conversion ℕ (ℕ × Bool) := ⟨fun _ d => d.1, fun _ b => (b, false)⟩

/-- The repository with the files on disk, and no stat data in its index. -/
def withFiles {δ : Type} (r : Repository ℕ) (files : Tree δ) : WorkingCopy ℕ δ where
  head := r.head
  refs := r.refs
  index := r.index
  unmerged := r.unmerged
  upToDate _ := false
  disk := ⟨files, ∅, fun _ => none, fun _ h => absurd h (Finset.notMem_empty _)⟩
  transactions _ := none

def stagedCopy : WorkingCopy ℕ ℕ := withFiles stagedAndSame stagedAndSame.disk.files

theorem path_laws_two : ∃ t candidate w' result,
    prepareReconciliation plainEnv (stagedCopy.view asTheyAre).repo oldRevision newRevision =
      .ok (.ready t) ∧
    t.candidate = some candidate ∧
    stagedCopy.installPreparedReconciliation asTheyAre plainEnv noRetention (.ready t) =
      (w', .ok result) ∧
    result.outcome = .applied ∧
    PathLaws asTheyAre oldRevision newRevision t.snapshot stagedCopy w' := by
  obtain ⟨t, candidate, w', result, ht, hcandidate, hinstall, htest⟩ :=
    exists_of_reconcilesBy stagedCopy (fun _ _ _ result => decide (result.outcome = .applied))
      (by decide +kernel : reconcilesBy (WorkingCopy.view asTheyAre)
        (WorkingCopy.execute asTheyAre) plainEnv noRetention _ oldRevision newRevision _ = true)
  have happlied := of_decide_eq_true htest
  refine ⟨t, candidate, w', result, ht, hcandidate, hinstall, happlied,
    (path_laws_iff (fun _ _ _ => none) plainEnv plainEnv asTheyAre noRetention _ oldRevision
      newRevision t candidate stagedCopy w' result rfl ht hcandidate hinstall happlied).mpr
      ⟨fun p hp => ?_, fun _ _ _ _ _ => Or.inr rfl⟩⟩
  have htracked : ∀ p ∈ stagedCopy.disk.files.keys, p ∈ stagedCopy.index.keys := by decide
  exact absurd (htracked p (((stagedCopy.disk.clean asTheyAre).files.mem_keys p).mpr hp.2)) hp.1

/-- Upstream adds the file `y`. -/
def addedRevision : Commit (Tree ℕ) :=
  .mk [oldRevision] (filesOf [(["x"], 0), (["y"], 1)]) plainInfo

/-- An unstaged change of `x` to lines that end in CRLF. -/
def crlfEdit : WorkingCopy ℕ (ℕ × Bool) :=
  withFiles (mainAt oldRevision oldRevision.tree oldRevision.tree)
    ((filesOf [(["x"], 6)]).mapContents fun _ lines => (lines, true))

/-- Upstream has left `x` alone. The candidate has its lines as they are stored, and the
checkout of the candidate writes them with LF. -/
theorem crlf_edit_rewritten : ∃ t candidate w' result,
    prepareReconciliation plainEnv (crlfEdit.view textAuto).repo oldRevision addedRevision =
      .ok (.ready t) ∧
    t.candidate = some candidate ∧
    crlfEdit.installPreparedReconciliation textAuto plainEnv noRetention (.ready t) =
      (w', .ok result) ∧
    result.outcome = .applied ∧
    addedRevision.tree.get ["x"] = oldRevision.tree.get ["x"] ∧
    crlfEdit.disk.files.get ["x"] = some (6, true) ∧
    w'.disk.files.get ["x"] = some (6, false) ∧
    ¬ PathLaws textAuto oldRevision addedRevision t.snapshot crlfEdit w' := by
  obtain ⟨t, candidate, w', result, ht, hcandidate, hinstall, htest⟩ :=
    exists_of_reconcilesBy crlfEdit (fun _ _ w' result => decide (result.outcome = .applied ∧
        w'.disk.files.get ["x"] = some (6, false)))
      (by decide +kernel : reconcilesBy (WorkingCopy.view textAuto)
        (WorkingCopy.execute textAuto) plainEnv noRetention _ oldRevision addedRevision _ = true)
  obtain ⟨happlied, hrewritten⟩ := of_decide_eq_true htest
  have hsame : addedRevision.tree.get ["x"] = oldRevision.tree.get ["x"] := by decide
  have hbefore : crlfEdit.disk.files.get ["x"] = some (6, true) := by decide
  refine ⟨t, candidate, w', result, ht, hcandidate, hinstall, happlied, hsame, hbefore,
    hrewritten, fun h => ?_⟩
  have hafter := h.1 _ hsame
  rw [hrewritten, hbefore] at hafter
  exact absurd hafter (by decide)

end Rewrites

section Colon

/-- A directory with the name `:`. -/
def colonDirectory : Commit (Tree ℕ) := .mk [] (filesOf [([":", "x", "f"], 0)]) plainInfo

/-- Upstream puts a file in the place of the directory `:/x`. -/
def colonFile : Commit (Tree ℕ) := .mk [colonDirectory] (filesOf [([":", "x"], 1)]) plainInfo

/-- Nothing is changed locally, and `:/x/u` is untracked. -/
def untrackedBelowColon : WorkingCopy ℕ ℕ :=
  withFiles (mainAt colonDirectory colonDirectory.tree colonDirectory.tree)
    (filesOf [([":", "x", "f"], 0), ([":", "x", "u"], 7)])

/-- `ls-files --others -- :/x` looks for untracked files below `x`, so the one
below `:/x` is not found, and the checkout of the file `:/x` destroys it. -/
theorem untracked_below_colon_lost : ∃ t candidate w' result,
    prepareReconciliation plainEnv (untrackedBelowColon.view asTheyAre).repo colonDirectory
      colonFile = .ok (.ready t) ∧
    t.candidate = some candidate ∧
    untrackedBelowColon.installPreparedReconciliation asTheyAre plainEnv noRetention (.ready t) =
      (w', .ok result) ∧
    result.outcome = .applied ∧
    colonFile.tree.get [":", "x", "u"] = colonDirectory.tree.get [":", "x", "u"] ∧
    untrackedBelowColon.disk.files.get [":", "x", "u"] = some 7 ∧
    w'.disk.files.get [":", "x", "u"] = none ∧
    ¬ PathLaws asTheyAre colonDirectory colonFile t.snapshot untrackedBelowColon w' := by
  obtain ⟨t, candidate, w', result, ht, hcandidate, hinstall, htest⟩ :=
    exists_of_reconcilesBy untrackedBelowColon
      (fun _ _ w' result => decide (result.outcome = .applied ∧
        w'.disk.files.get [":", "x", "u"] = none))
      (by decide +kernel : reconcilesBy (WorkingCopy.view asTheyAre)
        (WorkingCopy.execute asTheyAre) plainEnv noRetention _ colonDirectory colonFile _ = true)
  obtain ⟨happlied, hlost⟩ := of_decide_eq_true htest
  have hsame : colonFile.tree.get [":", "x", "u"] = colonDirectory.tree.get [":", "x", "u"] := by
    decide
  have hbefore : untrackedBelowColon.disk.files.get [":", "x", "u"] = some 7 := by decide
  refine ⟨t, candidate, w', result, ht, hcandidate, hinstall, happlied, hsame, hbefore, hlost,
    fun h => ?_⟩
  have hafter := h.1 _ hsame
  rw [hlost, hbefore] at hafter
  cases hafter

end Colon

end Resync
