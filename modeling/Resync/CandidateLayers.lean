import Resync.Transaction

/-! A prepared candidate is read off the rebased chain by position. The
positions are right exactly when the rebase drops neither synthetic commit. -/
namespace Resync

variable {β : Type} [DecidableEq β] {env : Env β} {r : Repository β}
  {previous target : Commit (Tree β)} {snapshot : WorkspaceSnapshot β} {t : Transaction β}

/-- The local commits, oldest first. -/
def localCommits (previous : Commit (Tree β)) (snapshot : WorkspaceSnapshot β) :
    List (Commit (Tree β)) :=
  (Commit.revList previous snapshot.head).reverse

section Preparation

/-- The checks of `prepare_reconciliation_with_retention` on its two commits and the head
that it has captured; `false` when there is nothing to rebase. -/
def checkRange (previous target head : Commit (Tree β)) : Except Failure Bool :=
  if previous = target then .ok false
  else if ¬ Commit.Ancestor previous head then
    .error (.bail "local HEAD does not descend from the last applied remote revision")
  else if ¬ Commit.Ancestor previous target then
    .error (.bail ("remote branch was rewritten or does not descend from the last applied " ++
      "revision"))
  else if Commit.merges previous head ≠ [] then
    .error (.bail ("merge commits in unpublished local history are unsupported in " ++
      "RepoSync V1"))
  else .ok true

/-- The rebase of a transaction, and the candidate that is read off it. -/
def rebaseTransaction (env : Env β) (t : Transaction β) :
    Except Failure (PreparedReconciliation β) :=
  match rebaseSynthetic env t.previousRemoteOid t.targetRemoteOid t.snapshot with
  | none => .ok (.complete {
      outcome := .conflict, transactionId := some t.id,
      recoveryRef := some (recoveryRefName t), detail := some env.rebaseDetail })
  | some head => match candidateOf head with
    | none => .error .command
    | some candidate => .ok (.ready { t with candidate := some candidate })

/-- The steps of a preparation, with nothing in between. -/
def prepareInSteps (env : Env β) (r : Repository β) (previous target : Commit (Tree β)) :
    Except Failure (PreparedReconciliation β) :=
  match r.headBranch with
  | none => .error (.bail "detached or unborn HEAD is unsupported in RepoSync V1")
  | some headRef =>
    if r.unmerged then
      .error (.bail ("an unmerged index is unsupported; resolve or abort the existing Git " ++
        "operation first"))
    else match captureWorkspace r with
    | none => .error .command
    | some snapshot =>
      match checkRange previous target snapshot.head with
      | .error e => .error e
      | .ok false => .ok (.complete { outcome := .current, head := some snapshot.head })
      | .ok true => rebaseTransaction env (newTransaction env previous target snapshot headRef)

/-- The steps are those of `prepare_reconciliation_with_retention`. -/
theorem prepareReconciliation_eq (env : Env β) (r : Repository β) (previous target : Commit (Tree β)) :
    prepareReconciliation env r previous target = prepareInSteps env r previous target := by
  unfold prepareReconciliation prepareInSteps
  cases r.headBranch with
  | none => rfl
  | some headRef =>
    cases captureWorkspace r with
    | none => rfl
    | some snapshot =>
      refine if_congr Iff.rfl rfl ?_
      by_cases heq : previous = target
      · simp only [checkRange, heq, ↓reduceIte]
      by_cases hlocal : Commit.Ancestor previous snapshot.head
      · by_cases htarget : Commit.Ancestor previous target
        · by_cases hmerges : Commit.merges previous snapshot.head = []
          · simp only [checkRange, heq, hlocal, htarget, hmerges, not_true, ne_eq, ↓reduceIte]
            rfl
          · simp only [checkRange, heq, hlocal, htarget, hmerges, not_true, not_false_eq_true,
              ne_eq, ↓reduceIte]
        · simp only [checkRange, heq, hlocal, htarget, not_true, not_false_eq_true, ↓reduceIte]
      · simp only [checkRange, heq, hlocal, not_false_eq_true, ↓reduceIte]

theorem checkRange_eq_ok_true {head : Commit (Tree β)} :
    checkRange previous target head = .ok true ↔ previous ≠ target ∧
      Commit.Ancestor previous head ∧ Commit.Ancestor previous target ∧
      Commit.merges previous head = [] := by
  unfold checkRange
  by_cases hsame : previous = target
  · rw [if_pos hsame]
    exact iff_of_false (fun h => by cases h) fun h => h.1 hsame
  by_cases hlocal : Commit.Ancestor previous head
  · by_cases htarget : Commit.Ancestor previous target
    · by_cases hmerges : Commit.merges previous head = []
      · rw [if_neg hsame, if_neg (not_not.mpr hlocal), if_neg (not_not.mpr htarget),
          if_neg (not_not.mpr hmerges)]
        exact iff_of_true rfl ⟨hsame, hlocal, htarget, hmerges⟩
      · rw [if_neg hsame, if_neg (not_not.mpr hlocal), if_neg (not_not.mpr htarget), if_pos hmerges]
        exact iff_of_false (fun h => by cases h) fun h => hmerges h.2.2.2
    · rw [if_neg hsame, if_neg (not_not.mpr hlocal), if_pos htarget]
      exact iff_of_false (fun h => by cases h) fun h => htarget h.2.2.1
  · rw [if_neg hsame, if_pos hlocal]
    exact iff_of_false (fun h => by cases h) fun h => hlocal h.2.1

/-- A transaction that is ready has the candidate that was read off its rebase. -/
theorem rebaseTransaction_ready {t t' : Transaction β}
    (h : rebaseTransaction env t = .ok (.ready t')) :
    ∃ head candidate,
      rebaseSynthetic env t.previousRemoteOid t.targetRemoteOid t.snapshot = some head ∧
      candidateOf head = some candidate ∧ t' = { t with candidate := some candidate } := by
  unfold rebaseTransaction at h
  split at h
  · cases h
  · next head hhead =>
    split at h
    · cases h
    · next candidate hcandidate =>
      cases h
      exact ⟨head, candidate, hhead, hcandidate, rfl⟩

/-- A preparation that is ready passed all the checks, and its candidate was
read off the rebased chain. -/
theorem prepareReconciliation_ready
    (h : prepareReconciliation env r previous target = .ok (.ready t)) :
    ∃ snapshot headRef head candidate, r.headBranch = some headRef ∧
      captureWorkspace r = some snapshot ∧ previous ≠ target ∧
      Commit.Ancestor previous snapshot.head ∧ Commit.Ancestor previous target ∧
      Commit.merges previous snapshot.head = [] ∧
      rebaseSynthetic env previous target snapshot = some head ∧
      candidateOf head = some candidate ∧
      t = { newTransaction env previous target snapshot headRef with
        candidate := some candidate } := by
  rw [prepareReconciliation_eq] at h
  unfold prepareInSteps at h
  -- The guards stand in the order of the source: HEAD, the index, the snapshot, the two commits.
  split at h
  · cases h
  · next headRef hbranch =>
    split at h
    · cases h
    · split at h
      · cases h
      · next snapshot hcapture =>
        split at h
        · cases h
        · cases h
        · next hrange =>
          obtain ⟨hne, hlocal, htarget, hmerges⟩ := checkRange_eq_ok_true.mp hrange
          obtain ⟨head, candidate, hrebase, hcandidate, ht⟩ := rebaseTransaction_ready h
          exact ⟨snapshot, headRef, head, candidate, hbranch, hcapture, hne, hlocal, htarget,
            hmerges, hrebase, hcandidate, ht⟩

/-- The rebase replays the local commits and then the two synthetic ones. -/
theorem rebaseSynthetic_eq (env : Env β) (target : Commit (Tree β))
    (h : Commit.Ancestor previous snapshot.head) :
    rebaseSynthetic env previous target snapshot =
      replay env.merge (reconcilerStamp env.now) target
        (localCommits previous snapshot ++ [(createSyntheticChain env.now snapshot).indexCommit] ++
          [(createSyntheticChain env.now snapshot).workingCommit]) := by
  have hindex : Commit.Ancestor previous (createSyntheticChain env.now snapshot).indexCommit :=
    CommitGraph.ancestor_of_parent (List.mem_singleton_self snapshot.head) h
  have hworking : Commit.revList previous (createSyntheticChain env.now snapshot).workingCommit =
      (createSyntheticChain env.now snapshot).workingCommit ::
        (createSyntheticChain env.now snapshot).indexCommit ::
          Commit.revList previous snapshot.head := by
    refine (Commit.revList_child _ _ hindex).trans (congrArg _ ?_)
    exact Commit.revList_child _ _ h
  rw [rebaseSynthetic, rebaseOnto, hworking, List.reverse_cons, List.reverse_cons, localCommits]

/-- Where nothing is new upstream, the candidate is the workspace as it was captured: every commit
sits on the tip already and stays the commit that it is. -/
theorem candidate_of_previous (htheirs : ∀ b t : Tree β, env.merge b b t = some t)
    (hlocal : Commit.Ancestor previous snapshot.head)
    (hmerges : Commit.merges previous snapshot.head = []) :
    (rebaseSynthetic env previous previous snapshot).bind candidateOf =
      some ⟨(createSyntheticChain env.now snapshot).workingCommit,
        (createSyntheticChain env.now snapshot).indexCommit, snapshot.head,
        snapshot.workingTree, snapshot.indexTree⟩ := by
  have hchain := ((Commit.chain_revList hlocal hmerges).snoc snapshot.indexTree
    (createSyntheticChain env.now snapshot).indexCommit.info).snoc snapshot.workingTree
      (createSyntheticChain env.now snapshot).workingCommit.info
  rw [rebaseSynthetic_eq env previous hlocal]
  exact congrArg (Option.bind · candidateOf) (replay_chain htheirs hchain)

/-- The three tips of a rebase that succeeds: after the local commits, after
the staged layer, and after the unstaged layer. -/
theorem rebaseSynthetic_tips {head : Commit (Tree β)}
    (h : Commit.Ancestor previous snapshot.head)
    (hrebase : rebaseSynthetic env previous target snapshot = some head) :
    ∃ real index, replay env.merge (reconcilerStamp env.now) target
        (localCommits previous snapshot) = some real ∧
      replayCommit env.merge (reconcilerStamp env.now) real
        (createSyntheticChain env.now snapshot).indexCommit = some index ∧
      replayCommit env.merge (reconcilerStamp env.now) index
        (createSyntheticChain env.now snapshot).workingCommit = some head := by
  rw [rebaseSynthetic_eq env target h] at hrebase
  obtain ⟨index, hindex, hworking⟩ := replay_concat_eq_some.mp hrebase
  obtain ⟨real, hreal, hindex⟩ := replay_concat_eq_some.mp hindex
  exact ⟨real, index, hreal, hindex, hworking⟩

end Preparation

section Layers

/-- The candidate's layers are the images of the snapshot's: the real head is
the target with the local commits replayed on it, so the target is below it
and so is every local commit that it does not contain already; the trees are
those after the staged and after the unstaged layer. -/
def LayersAreImages (env : Env β) (previous target : Commit (Tree β))
    (snapshot : WorkspaceSnapshot β) (candidate : Candidate β) : Prop :=
  ∃ real index working,
    replay env.merge (reconcilerStamp env.now) target (localCommits previous snapshot) =
      some real ∧
    replayCommit env.merge (reconcilerStamp env.now) real
      (createSyntheticChain env.now snapshot).indexCommit = some index ∧
    replayCommit env.merge (reconcilerStamp env.now) index
      (createSyntheticChain env.now snapshot).workingCommit = some working ∧
    candidate.realHead = real ∧ candidate.indexTree = index.tree ∧
    candidate.workingTree = working.tree ∧
    Commit.Ancestor target candidate.realHead ∧
    ∀ c ∈ localCommits previous snapshot, ∃ before after,
      replayCommit env.merge (reconcilerStamp env.now) before c = some after ∧
      Commit.Ancestor target before ∧ Commit.Ancestor after candidate.realHead

/-- Neither the staged nor the unstaged change, if there is one, is already
contained in the tree that the rebase merges it into. -/
def LayersSurvive (env : Env β) (previous target : Commit (Tree β))
    (snapshot : WorkspaceSnapshot β) : Prop :=
  ∃ real index,
    replay env.merge (reconcilerStamp env.now) target (localCommits previous snapshot) =
      some real ∧
    mergedTree env.merge snapshot.head.tree real.tree snapshot.indexTree = some index ∧
    ¬ Contained env.merge snapshot.head.tree real.tree snapshot.indexTree ∧
    ¬ Contained env.merge snapshot.indexTree index snapshot.workingTree

omit [DecidableEq β] in
theorem candidateOf_eq_some {head : Commit (Tree β)} {candidate : Candidate β}
    (h : candidateOf head = some candidate) :
    candidate.indexCommit ∈ head.parents ∧
      candidate.realHead ∈ candidate.indexCommit.parents ∧ candidate.workingTree = head.tree ∧
      candidate.indexTree = candidate.indexCommit.tree ∧
      firstParent head = some candidate.indexCommit ∧
      firstParent candidate.indexCommit = some candidate.realHead := by
  obtain ⟨index, hindex, h⟩ := Option.bind_eq_some_iff.mp h
  obtain ⟨real, hreal, h⟩ := Option.bind_eq_some_iff.mp h
  obtain rfl := Option.some.inj h
  exact ⟨List.mem_of_mem_head? hindex, List.mem_of_mem_head? hreal, rfl, rfl, hindex, hreal⟩

omit [DecidableEq β] in
/-- The real head is two links below the head that it is read off. -/
theorem candidateOf_depth {head : Commit (Tree β)} {candidate : Candidate β}
    (h : candidateOf head = some candidate) : candidate.realHead.depth + 2 ≤ head.depth := by
  obtain ⟨hindex, hreal, -⟩ := candidateOf_eq_some h
  have h1 := (Commit.graph (Tree β)).depth_lt head _ hindex
  have h2 := (Commit.graph (Tree β)).depth_lt _ _ hreal
  change _ < Commit.depth _ at h1 h2
  change Commit.depth _ < _ at h1 h2
  omega

omit [DecidableEq β] in
theorem depth_child (tip : Commit (Tree β)) (tree : Tree β) (i : CommitInfo) :
    (Commit.mk [tip] tree i).depth = tip.depth + 1 := by
  rw [Commit.depth, Commit.depthOf, Commit.depthOf, Nat.max_zero]

/-- Where both synthetic commits survive, the positions name the right
commits. -/
theorem candidateOf_survivors {real index working : Commit (Tree β)} {candidate : Candidate β}
    (hindex : replayCommit env.merge (reconcilerStamp env.now) real
      (createSyntheticChain env.now snapshot).indexCommit = some index)
    (hworking : replayCommit env.merge (reconcilerStamp env.now) index
      (createSyntheticChain env.now snapshot).workingCommit = some working)
    (hi : ¬ Contained env.merge snapshot.head.tree real.tree snapshot.indexTree)
    (hw : ¬ Contained env.merge snapshot.indexTree index.tree snapshot.workingTree)
    (hc : candidateOf working = some candidate) :
    candidate.realHead = real ∧ candidate.indexTree = index.tree := by
  rcases replayCommit_eq_some hindex with ⟨hcontained, -⟩ | ⟨-, u, -, rfl⟩
  · exact absurd hcontained hi
  · rcases replayCommit_eq_some hworking with ⟨hcontained, -⟩ | ⟨-, v, -, rfl⟩
    · exact absurd hcontained hw
    · obtain rfl := Option.some.inj hc
      exact ⟨rfl, rfl⟩

/-- Where a synthetic commit is dropped, the real head is read off too low. -/
theorem survivors_of_realHead {real index working : Commit (Tree β)} {candidate : Candidate β}
    (hindex : replayCommit env.merge (reconcilerStamp env.now) real
      (createSyntheticChain env.now snapshot).indexCommit = some index)
    (hworking : replayCommit env.merge (reconcilerStamp env.now) index
      (createSyntheticChain env.now snapshot).workingCommit = some working)
    (hc : candidateOf working = some candidate) (hreal : candidate.realHead = real) :
    ¬ Contained env.merge snapshot.head.tree real.tree snapshot.indexTree ∧
      ¬ Contained env.merge snapshot.indexTree index.tree snapshot.workingTree := by
  have hdepth := candidateOf_depth hc
  rw [hreal] at hdepth
  rcases replayCommit_eq_some hindex with ⟨hi, rfl⟩ | ⟨hi, u, -, rfl⟩
  · rcases replayCommit_eq_some hworking with ⟨-, rfl⟩ | ⟨-, v, -, rfl⟩
    · omega
    · rw [depth_child] at hdepth
      omega
  · rcases replayCommit_eq_some hworking with ⟨-, rfl⟩ | ⟨hw, v, -, rfl⟩
    · rw [depth_child] at hdepth
      omega
    · exact ⟨hi, hw⟩

/-- What is read off a rebased chain are the images of the snapshot's layers exactly when
the chain is complete. -/
theorem layersAreImages_iff {head : Commit (Tree β)} {candidate : Candidate β}
    (hlocal : Commit.Ancestor previous snapshot.head)
    (hrebase : rebaseSynthetic env previous target snapshot = some head)
    (hof : candidateOf head = some candidate) :
    LayersAreImages env previous target snapshot candidate ↔
      LayersSurvive env previous target snapshot := by
  obtain ⟨real, index, hreal, hindex, hworking⟩ := rebaseSynthetic_tips hlocal hrebase
  have htree : mergedTree env.merge snapshot.head.tree real.tree snapshot.indexTree =
      some index.tree := replayCommit_tree hindex
  constructor
  · rintro ⟨real', index', working', hreal', hindex', -, hhead, -⟩
    obtain rfl : real = real' := Option.some.inj (hreal.symm.trans hreal')
    obtain ⟨hi, hw⟩ := survivors_of_realHead hindex hworking hof hhead
    exact ⟨real, index.tree, hreal, htree, hi, hw⟩
  · rintro ⟨real', tree, hreal', htree', hi, hw⟩
    obtain rfl : real = real' := Option.some.inj (hreal.symm.trans hreal')
    obtain rfl : index.tree = tree := Option.some.inj (htree.symm.trans htree')
    obtain ⟨hhead, hindexTree⟩ := candidateOf_survivors hindex hworking hi hw hof
    refine ⟨real, index, head, hreal, hindex, hworking, hhead, hindexTree,
      (candidateOf_eq_some hof).2.2.1, ?_, fun c hc => ?_⟩
    · rw [hhead]
      exact replay_ancestor hreal
    · rw [hhead]
      exact replay_mem hreal hc

/-- A ready candidate has the images of the three layers exactly when neither
the staged nor the unstaged change is already contained in the history that it
is replayed on. -/
theorem candidate_layers_are_images_iff (env : Env β) (r : Repository β)
    (previous target : Commit (Tree β)) (snapshot : WorkspaceSnapshot β) (t : Transaction β)
    (candidate : Candidate β) (hcapture : captureWorkspace r = some snapshot)
    (hready : prepareReconciliation env r previous target = .ok (.ready t))
    (hcandidate : t.candidate = some candidate) :
    LayersAreImages env previous target snapshot candidate ↔
      LayersSurvive env previous target snapshot := by
  obtain ⟨snapshot', headRef, head, candidate', -, hcapture', -, hlocal, -, -, hrebase, hof, rfl⟩ :=
    prepareReconciliation_ready hready
  obtain rfl : snapshot = snapshot' := Option.some.inj (hcapture.symm.trans hcapture')
  obtain rfl : candidate' = candidate := Option.some.inj hcandidate
  exact layersAreImages_iff hlocal hrebase hof

end Layers

section Dropped

def filesOf (l : List (Path × ℕ)) : Tree ℕ := (PathTree.ofMap? (.ofList l)).getD .empty

def plainInfo : CommitInfo := ⟨⟨"dev", "dev@local", 0⟩, ⟨"dev", "dev@local", 0⟩, "change"⟩

/-- Merges that leave every content conflict to the user, and pathspecs without
wildcards and magic. -/
def plainEnv : Env ℕ where
  merge := PathTree.merge fun _ _ _ => none
  diffNames _ _ := []
  pathspecs := ⟨fun _ _ => false, fun _ => none⟩
  now := 1
  id := "t"
  rebaseDetail := ""
  pruned := []

/-- A checkout of `main` without empty directories. -/
def mainAt (head : Commit (Tree ℕ)) (index files : Tree ℕ) : Repository ℕ where
  head := .attached "main"
  refs ref := if ref = .branch "main" then some head else none
  index := index
  unmerged := false
  disk := ⟨files, ∅, fun _ => none, fun _ h => absurd h (Finset.notMem_empty _)⟩

def oldRevision : Commit (Tree ℕ) := .mk [] (filesOf [(["x"], 0)]) plainInfo

def newRevision : Commit (Tree ℕ) := .mk [oldRevision] (filesOf [(["x"], 1)]) plainInfo

/-- A new file is staged, and `x` has an unstaged change to what upstream has. -/
def stagedAndSame : Repository ℕ :=
  mainAt oldRevision (filesOf [(["x"], 0), (["n"], 5)]) (filesOf [(["x"], 1), (["n"], 5)])

/-- A new file is staged, and it has an unstaged change. -/
def stagedAndOther : Repository ℕ :=
  mainAt oldRevision (filesOf [(["x"], 0), (["n"], 5)]) (filesOf [(["x"], 0), (["n"], 6)])

theorem candidate_layers_are_images_two : ∃ snapshot t candidate,
    captureWorkspace stagedAndOther = some snapshot ∧
    prepareReconciliation plainEnv stagedAndOther oldRevision newRevision = .ok (.ready t) ∧
    t.candidate = some candidate ∧
    LayersAreImages plainEnv oldRevision newRevision snapshot candidate :=
  ⟨_, _, _, rfl, rfl, rfl,
    (candidate_layers_are_images_iff plainEnv stagedAndOther oldRevision newRevision _ _ _ rfl rfl
      rfl).mpr ⟨_, _, rfl, rfl, by decide, by decide⟩⟩

/-- The unstaged change is dropped, so the real head is read off below the
target, and the index loses the staged file. -/
theorem candidate_layers_shift : ∃ snapshot t candidate,
    captureWorkspace stagedAndSame = some snapshot ∧
    prepareReconciliation plainEnv stagedAndSame oldRevision newRevision = .ok (.ready t) ∧
    t.candidate = some candidate ∧ candidate.realHead = oldRevision ∧
    ¬ LayersAreImages plainEnv oldRevision newRevision snapshot candidate := by
  refine ⟨_, _, _, rfl, rfl, rfl, rfl, ?_⟩
  rintro ⟨-, -, -, -, -, -, -, -, -, htarget, -⟩
  revert htarget
  decide

end Dropped

end Resync
