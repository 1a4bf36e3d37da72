import Resync.InstallFrame

/-! An installation that is cut short at any point, and any number of attempts
to recover it, of which only the last one has to run to its end. HEAD alone
tells the attempts whether the branch has moved. -/
namespace Resync

variable {β : Type}

/-- Bookkeeping that leaves no journal of an installation in progress. -/
def Action.Quiet : Action β → Prop
  | .writeJournal t => t.phase ≠ .installing
  | .removeJournal _ | .deleteRecovery _ _ => True
  | _ => False

theorem Action.Quiet.bookkeeping {a : Action β} (h : a.Quiet) : a.Bookkeeping := by
  cases a with
  | writeJournal t => trivial
  | removeJournal id => trivial
  | deleteRecovery name slot => trivial
  | readTreeReset tree => exact h
  | readTree tree => exact h
  | updateRef branch new old => exact h

theorem removeTransactionArtifacts_quiet (t : Transaction β) :
    ∀ a ∈ removeTransactionArtifacts t, a.Quiet := by
  simp only [removeTransactionArtifacts, List.forall_mem_cons, Action.Quiet, true_and,
    List.not_mem_nil, IsEmpty.forall_iff, implies_true]

theorem finalizeTransaction_quiet (env : Env β) (retention : TransactionRetention)
    {t : Transaction β} (h : t.phase ≠ .installing) :
    ∀ a ∈ finalizeTransaction env retention t, a.Quiet := by
  intro a ha
  unfold finalizeTransaction at ha
  split at ha
  · rcases List.mem_cons.mp ha with rfl | ha
    · exact h
    · obtain ⟨old, -, ha⟩ := List.mem_flatMap.mp ha
      exact removeTransactionArtifacts_quiet old a ha
  · exact removeTransactionArtifacts_quiet t a ha

/-- The journal of an installation of the candidate, as it was written before
the first `read-tree`. -/
structure Installing (t : Transaction β) (candidate : Candidate β) (j : Transaction β) : Prop where
  phase : j.phase = .installing
  snapshot : j.snapshot = t.snapshot
  candidate : j.candidate = some candidate

variable [DecidableEq β]

/-- Quiet actions go through, keep the workspace, and leave a journal as it was
or turn it into one that is not of an installation in progress. -/
theorem execute_quiet (c : Checkout β) {as : List (Action β)} (h : ∀ a ∈ as, a.Quiet)
    (id : String) :
    SameWorkspace c.repo (c.execute as).1.repo ∧
      ((c.execute as).1.transactions id = c.transactions id ∨
        ∀ j, (c.execute as).1.transactions id = some j → j.phase ≠ .installing) := by
  refine ⟨(c.execute_bookkeeping fun a ha => (h a ha).bookkeeping).2, ?_⟩
  induction as generalizing c with
  | nil => exact Or.inl rfl
  | cons a as ih =>
    have hrest : ∀ b ∈ as, b.Quiet := fun b hb => h b (List.mem_cons_of_mem a hb)
    have ha := h a List.mem_cons_self
    cases a with
    | writeJournal t =>
      have hnext := ih { c with transactions := Function.update c.transactions t.id (some t) } hrest
      rcases hnext with hsame | hquiet
      · by_cases hid : id = t.id
        · subst hid
          refine Or.inr fun j hj => ?_
          obtain rfl : t = j := by
            have hj' := hsame.symm.trans hj
            simpa only [Function.update_self, Option.some.injEq] using hj'
          exact ha
        · exact Or.inl (hsame.trans (Function.update_of_ne hid ..))
      · exact Or.inr hquiet
    | removeJournal key =>
      have hnext := ih { c with transactions := Function.update c.transactions key none } hrest
      rcases hnext with hsame | hquiet
      · by_cases hid : id = key
        · subst hid
          refine Or.inr fun j hj => ?_
          have hj' := hsame.symm.trans hj
          simp only [Function.update_self, reduceCtorEq] at hj'
        · exact Or.inl (hsame.trans (Function.update_of_ne hid ..))
      · exact Or.inr hquiet
    | deleteRecovery name slot =>
      exact ih { c with repo := c.repo.setRef (.recovery name slot) none } hrest
    | readTreeReset tree => exact False.elim ha
    | readTree tree => exact False.elim ha
    | updateRef branch new old => exact False.elim ha

/-- What `install_candidate` leaves when it stops after at most `n` actions. -/
def installUpTo (env : Env β) (retention : TransactionRetention) (t : Transaction β)
    (candidate : Candidate β) (n : ℕ) (c : Checkout β) : Checkout β :=
  if captureWorkspace c.repo = some t.snapshot ∧
      findUntrackedCollisions env.pathspecs c.repo (treePaths candidate.workingTree) = some ∅ then
    (c.execute ((installActions env retention t candidate).take n)).1
  else c

/-- Attempts to recover, each cut short after some number of actions. -/
def recoverAttempts (id : String) (attempts : List (Env β × TransactionRetention × ℕ))
    (c : Checkout β) : Checkout β :=
  attempts.foldl (fun c a => c.recoverUpTo a.1 a.2.1 id a.2.2) c

/-- The branch has not moved yet. Every file that the snapshot does not have is
still indexed, so that the rollback removes it. -/
structure BeforeMove (t : Transaction β) (candidate : Candidate β) (c : Checkout β) : Prop where
  head : c.repo.headBranch = some t.headRef
  branch : c.repo.refs (.branch t.headRef) = some t.snapshot.head
  unmerged : c.repo.unmerged = false
  removable : ∀ p ∈ t.snapshot.indexTree.keys, t.snapshot.workingTree.get p = none →
    c.repo.disk.files.get p ≠ none → p ∈ c.repo.index.keys
  journal : (∃ j, c.transactions t.id = some j ∧ Installing t candidate j) ∨
    (captureWorkspace c.repo = some t.snapshot ∧
      ∀ j, c.transactions t.id = some j → j.phase ≠ .installing)

/-- The branch has moved, and the workspace is the candidate. -/
structure AfterMove (t : Transaction β) (candidate : Candidate β) (c : Checkout β) : Prop where
  branch : c.repo.refs (.branch t.headRef) = some candidate.realHead
  captured : captureWorkspace c.repo =
    some ⟨candidate.realHead, candidate.indexTree, candidate.workingTree⟩
  journal : ∀ j, c.transactions t.id = some j → j.phase = .installing → Installing t candidate j

section Phases

variable {env : Env β} {retention : TransactionRetention} {t : Transaction β}
  {candidate : Candidate β} {c : Checkout β}

omit [DecidableEq β] in
theorem headCommit_of_headBranch {r : Repository β} {b : Branch} (h : r.headBranch = some b) :
    r.headCommit = r.refs (.branch b) := by
  unfold Repository.headBranch at h
  unfold Repository.headCommit
  cases hr : r.head with
  | attached branch =>
    rw [hr] at h
    rw [Option.some.inj h]
  | detached commit =>
    rw [hr] at h
    cases h

omit [DecidableEq β] in
/-- The captured snapshot itself can be rolled back to. -/
theorem removable_of_captured {r : Repository β} {s : WorkspaceSnapshot β}
    (h : captureWorkspace r = some s) {p : Path} (hp : p ∈ s.indexTree.keys)
    (hw : s.workingTree.get p = none) : r.disk.files.get p = none := by
  rw [captured_get h p, if_pos hp] at hw
  exact hw

/-- Quiet actions keep a workspace that is the snapshot. -/
theorem BeforeMove.quiet (h : BeforeMove t candidate c)
    (hcaptured : captureWorkspace c.repo = some t.snapshot) {as : List (Action β)}
    (has : ∀ a ∈ as, a.Quiet) : BeforeMove t candidate (c.execute as).1 := by
  obtain ⟨hsame, hjournal⟩ := execute_quiet c has t.id
  have hcaptured' := hsame.captureWorkspace.trans hcaptured
  refine ⟨?_, (hsame.branches _).trans h.branch, hsame.unmerged.trans h.unmerged,
    fun p hp hw hfile => ?_, ?_⟩
  · rw [Repository.headBranch, hsame.head]
    exact h.head
  · exact absurd (removable_of_captured hcaptured' hp hw) hfile
  · rcases hjournal with hkept | hquiet
    · rcases h.journal with ⟨j, hj, hinstalling⟩ | ⟨-, hdone⟩
      · exact Or.inl ⟨j, hkept.trans hj, hinstalling⟩
      · exact Or.inr ⟨hcaptured', fun j hj => hdone j (hkept.symm.trans hj)⟩
    · exact Or.inr ⟨hcaptured', hquiet⟩

theorem AfterMove.quiet (h : AfterMove t candidate c) {as : List (Action β)}
    (has : ∀ a ∈ as, a.Quiet) : AfterMove t candidate (c.execute as).1 := by
  obtain ⟨hsame, hjournal⟩ := execute_quiet c has t.id
  refine ⟨(hsame.branches _).trans h.branch, hsame.captureWorkspace.trans h.captured,
    fun j hj hphase => ?_⟩
  rcases hjournal with hkept | hquiet
  · exact h.journal j (hkept.symm.trans hj) hphase
  · exact absurd hphase (hquiet j hj)

omit [DecidableEq β] in
/-- A checkout of the snapshot's working tree leaves no other file at the
snapshot's paths. -/
theorem rollback_file (h : BeforeMove t candidate c) {p : Path}
    (hp : p ∈ t.snapshot.indexTree.keys) :
    c.repo.disk.checkoutEntry c.repo.index t.snapshot.workingTree p =
      t.snapshot.workingTree.get p := by
  by_cases hw : p ∈ t.snapshot.workingTree.keys
  · exact Disk.checkoutEntry_of_mem _ _ hw
  · have hnone := (t.snapshot.workingTree.get_eq_none_iff p).mpr hw
    rw [hnone]
    by_cases hfile : c.repo.disk.files.get p = none
    · exact Disk.checkoutEntry_none _ hw hfile
    · exact Disk.checkoutEntry_of_index _ hw (h.removable p hp hnone hfile)

/-- A snapshot that was captured has no working file outside its index. -/
def SnapshotFits (s : WorkspaceSnapshot β) : Prop :=
  ∀ p, p ∉ s.indexTree.keys → s.workingTree.get p = none

omit [DecidableEq β] in
/-- The two `read-tree` steps of a rollback restore the snapshot. -/
theorem rollback_captured (hfits : SnapshotFits t.snapshot) (h : BeforeMove t candidate c) :
    captureWorkspace ((c.repo.readTreeReset t.snapshot.workingTree).readTree
      t.snapshot.indexTree) = some t.snapshot := by
  refine captureWorkspace_eq_some.mpr ⟨?_, rfl, rfl, PathTree.ext fun p => ?_⟩
  · exact (headCommit_of_headBranch h.head).trans h.branch
  · rw [get_temporaryIndex, Repository.readTree_index, Repository.readTree_disk,
      Repository.get_readTreeReset]
    by_cases hp : p ∈ t.snapshot.indexTree.keys
    · rw [if_pos hp, rollback_file h hp]
    · rw [if_neg hp, hfits p hp]

/-- Where a prefix of a rollback stops, the workspace can still be rolled back. -/
theorem BeforeMove.rollback (hfits : SnapshotFits t.snapshot) (h : BeforeMove t candidate c)
    {j : Transaction β} (hj : c.transactions t.id = some j) (hinst : Installing t candidate j)
    {as : List (Action β)} (has : ∀ a ∈ as, a.Quiet) (n : ℕ) :
    BeforeMove t candidate (c.execute ((.readTreeReset t.snapshot.workingTree ::
      .readTree t.snapshot.indexTree :: as : List (Action β)).take n)).1 := by
  have hjournal : ∃ j, c.transactions t.id = some j ∧ Installing t candidate j := ⟨j, hj, hinst⟩
  match n with
  | 0 => exact h
  | 1 =>
    refine ⟨h.head, h.branch, rfl, fun p hp hw hfile => ?_, Or.inl hjournal⟩
    have hentry : c.repo.disk.checkoutEntry c.repo.index t.snapshot.workingTree p ≠ none := by
      rw [← Repository.get_readTreeReset]
      exact hfile
    exact absurd ((rollback_file h hp).trans hw) hentry
  | n + 2 =>
    have hcaptured := rollback_captured hfits h
    have hrolled : BeforeMove t candidate ⟨(c.repo.readTreeReset t.snapshot.workingTree).readTree
        t.snapshot.indexTree, c.transactions⟩ := by
      refine ⟨h.head, h.branch, rfl, fun p hp hw hfile => ?_, Or.inl hjournal⟩
      exact absurd (removable_of_captured hcaptured hp hw) hfile
    exact hrolled.quiet hcaptured fun a ha => has a (List.mem_of_mem_take ha)

/-- A recovery that finds no installation in progress only does bookkeeping. -/
theorem recoverActions_settled (h : ∀ j, c.transactions t.id = some j → j.phase ≠ .installing)
    {actions : List (Action β)} {result : Transaction β}
    (hactions : c.recoverActions env retention t.id = .ok (actions, result)) :
    ∀ a ∈ actions, a.Quiet := by
  unfold Checkout.recoverActions at hactions
  cases hj : c.transactions t.id with
  | none =>
    rw [hj] at hactions
    cases hactions
  | some j =>
    have hphase := h j hj
    rw [hj] at hactions
    dsimp only at hactions
    split at hactions
    · obtain ⟨rfl, -⟩ := Prod.mk.inj (Except.ok.inj hactions)
      exact fun a ha => absurd ha List.not_mem_nil
    · obtain ⟨rfl, -⟩ := Prod.mk.inj (Except.ok.inj hactions)
      exact fun a ha => absurd ha List.not_mem_nil
    · obtain ⟨rfl, -⟩ := Prod.mk.inj (Except.ok.inj hactions)
      exact finalizeTransaction_quiet env retention hphase
    · obtain ⟨rfl, -⟩ := Prod.mk.inj (Except.ok.inj hactions)
      exact finalizeTransaction_quiet env retention hphase
    · cases hactions
    · next hinstalling => exact absurd hinstalling hphase

/-- HEAD at the snapshot's head makes a recovery roll back. -/
theorem recoverActions_rollback (env : Env β) (retention : TransactionRetention)
    (hmoved : candidate.realHead ≠ t.snapshot.head)
    (h : BeforeMove t candidate c) {j : Transaction β} (hj : c.transactions t.id = some j)
    (hinst : Installing t candidate j) :
    ∃ as result, (∀ a ∈ as, a.Quiet) ∧ c.recoverActions env retention t.id =
      .ok (.readTreeReset t.snapshot.workingTree :: .readTree t.snapshot.indexTree :: as,
        result) := by
  have hcapture : captureWorkspace c.repo =
      some ⟨t.snapshot.head, c.repo.index, temporaryIndex c.repo c.repo.index⟩ :=
    captureWorkspace_eq_some.mpr
      ⟨(headCommit_of_headBranch h.head).trans h.branch, h.unmerged, rfl, rfl⟩
  have hphase : ({ j with phase := .rolledBack, recoveredAt := some env.now } :
      Transaction β).phase ≠ .installing := fun h => by cases h
  refine ⟨_, { j with phase := .rolledBack, recoveredAt := some env.now },
    finalizeTransaction_quiet env retention hphase, ?_⟩
  simp only [Checkout.recoverActions, hj, hinst.phase, hcapture, hinst.candidate, hinst.snapshot,
    hmoved.symm, if_false, if_true]
  rfl

/-- HEAD at the candidate's head makes a recovery complete the installation. -/
theorem recoverActions_complete (env : Env β) (retention : TransactionRetention)
    {index working : Tree β}
    (hcaptured : captureWorkspace c.repo = some ⟨candidate.realHead, index, working⟩)
    {j : Transaction β} (hj : c.transactions t.id = some j) (hinst : Installing t candidate j) :
    ∃ as result, (∀ a ∈ as, a.Quiet) ∧
      c.recoverActions env retention t.id = .ok (as, result) := by
  have hphase : ({ j with phase := .completed, recoveredAt := some env.now } :
      Transaction β).phase ≠ .installing := fun h => by cases h
  refine ⟨_, { j with phase := .completed, recoveredAt := some env.now },
    finalizeTransaction_quiet env retention hphase, ?_⟩
  simp only [Checkout.recoverActions, hj, hinst.phase, hcaptured, hinst.candidate, if_true]

/-- A recovery before the branch has moved: wherever it stops the workspace can
still be rolled back, and it ends with the snapshot. -/
theorem BeforeMove.recover (hfits : SnapshotFits t.snapshot)
    (hmoved : candidate.realHead ≠ t.snapshot.head) (h : BeforeMove t candidate c)
    (env : Env β) (retention : TransactionRetention) :
    (∀ n, BeforeMove t candidate (c.recoverUpTo env retention t.id n)) ∧
      captureWorkspace (c.recoverTransaction env retention t.id).repo = some t.snapshot := by
  simp only [Checkout.recoverUpTo, Checkout.recoverTransaction]
  rcases h.journal with ⟨j, hj, hinst⟩ | ⟨hcaptured, hdone⟩
  · obtain ⟨as, result, hquiet, hactions⟩ :=
      recoverActions_rollback env retention hmoved h hj hinst
    simp only [hactions]
    refine ⟨fun n => h.rollback hfits hj hinst hquiet n, ?_⟩
    have hsame := (execute_quiet
      ⟨(c.repo.readTreeReset t.snapshot.workingTree).readTree t.snapshot.indexTree,
        c.transactions⟩ hquiet t.id).1
    exact hsame.captureWorkspace.trans (rollback_captured hfits h)
  · cases hactions : c.recoverActions env retention t.id with
    | error e => exact ⟨fun _ => h, hcaptured⟩
    | ok found =>
      have hquiet := recoverActions_settled hdone hactions
      refine ⟨fun n => h.quiet hcaptured fun a ha => hquiet a (List.mem_of_mem_take ha), ?_⟩
      exact (execute_quiet c hquiet t.id).1.captureWorkspace.trans hcaptured

/-- A recovery after the branch has moved only does bookkeeping. -/
theorem AfterMove.recover (h : AfterMove t candidate c) (env : Env β)
    (retention : TransactionRetention) :
    (∀ n, AfterMove t candidate (c.recoverUpTo env retention t.id n)) ∧
      AfterMove t candidate (c.recoverTransaction env retention t.id) := by
  simp only [Checkout.recoverUpTo, Checkout.recoverTransaction]
  have hall : ∀ as result, c.recoverActions env retention t.id = .ok (as, result) →
      ∀ a ∈ as, a.Quiet := by
    intro as result hactions
    by_cases hdone : ∀ j, c.transactions t.id = some j → j.phase ≠ .installing
    · exact recoverActions_settled hdone hactions
    · push Not at hdone
      obtain ⟨j, hj, hphase⟩ := hdone
      obtain ⟨as', result', hquiet, hactions'⟩ := recoverActions_complete env retention
        h.captured hj (h.journal j hj hphase)
      rw [hactions'] at hactions
      obtain ⟨rfl, -⟩ := Prod.mk.inj (Except.ok.inj hactions)
      exact hquiet
  cases hactions : c.recoverActions env retention t.id with
  | error e => exact ⟨fun _ => h, h⟩
  | ok found =>
    have hquiet := hall found.1 found.2 hactions
    exact ⟨fun n => h.quiet fun a ha => hquiet a (List.mem_of_mem_take ha), h.quiet hquiet⟩

theorem BeforeMove.attempts (hfits : SnapshotFits t.snapshot)
    (hmoved : candidate.realHead ≠ t.snapshot.head)
    (attempts : List (Env β × TransactionRetention × ℕ)) (h : BeforeMove t candidate c) :
    BeforeMove t candidate (recoverAttempts t.id attempts c) := by
  induction attempts generalizing c with
  | nil => exact h
  | cons a attempts ih => exact ih ((h.recover hfits hmoved a.1 a.2.1).1 a.2.2)

theorem AfterMove.attempts (attempts : List (Env β × TransactionRetention × ℕ))
    (h : AfterMove t candidate c) :
    AfterMove t candidate (recoverAttempts t.id attempts c) := by
  induction attempts generalizing c with
  | nil => exact h
  | cons a attempts ih => exact ih ((h.recover a.1 a.2.1).1 a.2.2)

omit [DecidableEq β] in
theorem snapshotFits_of_captured {r : Repository β} {s : WorkspaceSnapshot β}
    (h : captureWorkspace r = some s) : SnapshotFits s := fun p hp => by
  rw [captured_get h p, if_neg hp]

/-- The state right after the branch has moved. -/
def movedCheckout (t : Transaction β) (candidate : Candidate β) (c : Checkout β) : Checkout β :=
  ⟨installedRepo c.repo t candidate,
    Function.update c.transactions t.id (some { t with phase := .installing })⟩

theorem installUpTo_moved (env : Env β) (retention : TransactionRetention)
    (hcapture : captureWorkspace c.repo = some t.snapshot)
    (hfree : findUntrackedCollisions env.pathspecs c.repo (treePaths candidate.workingTree) =
      some ∅)
    (hbranch : c.repo.refs (.branch t.headRef) = some t.snapshot.head) (n : ℕ) :
    installUpTo env retention t candidate (n + 4) c =
      ((movedCheckout t candidate c).execute ((finalizeTransaction env retention
        { t with phase := .completed, completedAt := some env.now }).take n)).1 := by
  have hupdate : ((c.repo.readTreeReset candidate.workingTree).readTree
      candidate.indexTree).updateRef (.branch t.headRef) candidate.realHead t.snapshot.head =
        some (installedRepo c.repo t candidate) := if_pos hbranch
  rw [installUpTo, if_pos ⟨hcapture, hfree⟩]
  simp only [installActions, List.cons_append, List.nil_append, List.take_succ_cons,
    Checkout.execute, Checkout.perform, hupdate, Option.map_some]
  rfl

/-- Where the trees fit, an installation stops either before the branch has
moved, in a workspace that can be rolled back, or after it, with the
candidate. -/
theorem installUpTo_phase (hcandidate : t.candidate = some candidate)
    (hcapture : captureWorkspace c.repo = some t.snapshot)
    (hfree : findUntrackedCollisions env.pathspecs c.repo (treePaths candidate.workingTree) =
      some ∅)
    (hhead : c.repo.headBranch = some t.headRef)
    (hjournal : ∀ j, c.transactions t.id = some j → j.phase = .preparing)
    (hfit : LayersFit c.repo candidate) (n : ℕ) :
    BeforeMove t candidate (installUpTo env retention t candidate n c) ∨
      AfterMove t candidate (installUpTo env retention t candidate n c) := by
  obtain ⟨hcommit, hunmerged, hindex, -⟩ := captureWorkspace_eq_some.mp hcapture
  have hbranch : c.repo.refs (.branch t.headRef) = some t.snapshot.head :=
    (headCommit_of_headBranch hhead).symm.trans hcommit
  have hstart : BeforeMove t candidate c := by
    refine ⟨hhead, hbranch, hunmerged, fun p hp hw hfile => ?_, Or.inr ⟨hcapture, fun j hj => ?_⟩⟩
    · exact absurd (removable_of_captured hcapture hp hw) hfile
    · rw [hjournal j hj]
      exact fun h => by cases h
  have hinst : Installing t candidate { t with phase := .installing } := ⟨rfl, rfl, hcandidate⟩
  have hwritten : ∃ j, Function.update c.transactions t.id (some { t with phase := .installing })
      t.id = some j ∧ Installing t candidate j := ⟨_, Function.update_self .., hinst⟩
  match n with
  | 0 =>
    rw [installUpTo, if_pos ⟨hcapture, hfree⟩]
    exact Or.inl hstart
  | 1 =>
    rw [installUpTo, if_pos ⟨hcapture, hfree⟩]
    exact Or.inl ⟨hhead, hbranch, hunmerged, hstart.removable, Or.inl hwritten⟩
  | 2 =>
    rw [installUpTo, if_pos ⟨hcapture, hfree⟩]
    refine Or.inl ⟨hhead, hbranch, rfl, fun p hp hw hfile => ?_, Or.inl hwritten⟩
    by_contra hni
    have hentry : c.repo.disk.checkoutEntry c.repo.index candidate.workingTree p ≠ none := by
      rw [← Repository.get_readTreeReset]
      exact hfile
    exact hentry (Disk.checkoutEntry_none _ hni (removable_of_captured hcapture hp hw))
  | 3 =>
    rw [installUpTo, if_pos ⟨hcapture, hfree⟩]
    refine Or.inl ⟨hhead, hbranch, rfl, fun p hp hw hfile => ?_, Or.inl hwritten⟩
    by_contra hni
    have hentry : c.repo.disk.checkoutEntry c.repo.index candidate.workingTree p ≠ none := by
      rw [← Repository.get_readTreeReset]
      exact hfile
    have hnw : p ∉ candidate.workingTree.keys := fun hpw => hni (hfit.indexed p hpw)
    exact hentry (Disk.checkoutEntry_none _ hnw (removable_of_captured hcapture hp hw))
  | n + 4 =>
    have hmoved : AfterMove t candidate (movedCheckout t candidate c) := by
      refine ⟨Function.update_self .., (captureWorkspace_installed ..).mpr ⟨hfit, Or.inl hhead⟩,
        fun j hj _ => ?_⟩
      obtain rfl : { t with phase := .installing } = j := by
        simpa only [movedCheckout, Function.update_self, Option.some.injEq] using hj
      exact hinst
    have hphase : ({ t with phase := .completed, completedAt := some env.now } :
      Transaction β).phase ≠ .installing := fun h => by cases h
    rw [installUpTo_moved env retention hcapture hfree hbranch]
    exact Or.inr (hmoved.quiet fun a ha =>
      finalizeTransaction_quiet env retention hphase a (List.mem_of_mem_take ha))

end Phases

/-- Wherever the installation stops, and however often and however briefly it
is recovered before a recovery runs to its end, in whichever retention modes:
the workspace is the candidate if the branch had moved, and the snapshot if
not. -/
def RecoversExactly (env : Env β) (t : Transaction β) (candidate : Candidate β)
    (c : Checkout β) : Prop :=
  ∀ (retention : TransactionRetention) (n : ℕ)
    (attempts : List (Env β × TransactionRetention × ℕ)) (env' : Env β)
    (retention' : TransactionRetention),
    captureWorkspace (Checkout.recoverTransaction env' retention' t.id (recoverAttempts t.id
      attempts (installUpTo env retention t candidate n c))).repo =
    some (if (installUpTo env retention t candidate n c).repo.refs (.branch t.headRef) =
        some candidate.realHead then
      ⟨candidate.realHead, candidate.indexTree, candidate.workingTree⟩ else t.snapshot)

/-- An installation that moves HEAD recovers exactly if and only if the trees
of its candidate fit each other and the checkout. -/
theorem recovers_exactly_iff (env : Env β) (t : Transaction β) (candidate : Candidate β)
    (c : Checkout β) (hcandidate : t.candidate = some candidate)
    (hmoved : candidate.realHead ≠ t.snapshot.head)
    (hcapture : captureWorkspace c.repo = some t.snapshot)
    (hfree : findUntrackedCollisions env.pathspecs c.repo (treePaths candidate.workingTree) =
      some ∅)
    (hhead : c.repo.headBranch = some t.headRef)
    (hjournal : ∀ j, c.transactions t.id = some j → j.phase = .preparing) :
    RecoversExactly env t candidate c ↔ LayersFit c.repo candidate := by
  have hbranch : c.repo.refs (.branch t.headRef) = some t.snapshot.head :=
    (headCommit_of_headBranch hhead).symm.trans (captureWorkspace_eq_some.mp hcapture).1
  constructor
  · intro h
    -- the stop right after the move, with one recovery
    have hstop := h ⟨false⟩ 4 [] env ⟨false⟩
    have hstopped : installUpTo env ⟨false⟩ t candidate 4 c = movedCheckout t candidate c :=
      installUpTo_moved env ⟨false⟩ hcapture hfree hbranch 0
    have hat : (movedCheckout t candidate c).repo.refs (.branch t.headRef) =
        some candidate.realHead := Function.update_self ..
    rw [hstopped, if_pos hat] at hstop
    have hcommit : (installedRepo c.repo t candidate).headCommit = some candidate.realHead :=
      headCommit_installed.mpr (Or.inl hhead)
    have hmovedCapture : captureWorkspace (movedCheckout t candidate c).repo =
        some ⟨candidate.realHead, candidate.indexTree, _⟩ :=
      captureWorkspace_eq_some.mpr ⟨hcommit, rfl, rfl, rfl⟩
    have hinst : Installing t candidate { t with phase := .installing } := ⟨rfl, rfl, hcandidate⟩
    obtain ⟨as, result, hquiet, hactions⟩ := recoverActions_complete env ⟨false⟩ hmovedCapture
      (Function.update_self ..) hinst
    simp only [recoverAttempts, List.foldl_nil, Checkout.recoverTransaction, hactions] at hstop
    rw [(execute_quiet _ hquiet t.id).1.captureWorkspace] at hstop
    exact ((captureWorkspace_installed c.repo t candidate).mp hstop).1
  · intro hfit retention n attempts env' retention'
    rcases installUpTo_phase hcandidate hcapture hfree hhead hjournal hfit n with hbefore | hafter
    · rw [hbefore.branch, if_neg fun h => hmoved (Option.some.inj h).symm]
      have hrest := hbefore.attempts (snapshotFits_of_captured hcapture) hmoved attempts
      exact (hrest.recover (snapshotFits_of_captured hcapture) hmoved env' retention').2
    · rw [if_pos hafter.branch]
      exact ((hafter.attempts attempts).recover env' retention').2.captured

section Stopped

/-- Two upstream commits, of which the second changes `x`. -/
def betweenRevision : Commit (Tree ℕ) :=
  .mk [oldRevision] (filesOf [(["x"], 0), (["y"], 2)]) plainInfo

def latestRevision : Commit (Tree ℕ) :=
  .mk [betweenRevision] (filesOf [(["x"], 1), (["y"], 2)]) plainInfo

theorem recovers_exactly_two : ∃ t candidate,
    prepareReconciliation plainEnv stagedAndOther oldRevision newRevision = .ok (.ready t) ∧
    t.candidate = some candidate ∧ candidate.realHead ≠ t.snapshot.head ∧
    RecoversExactly plainEnv t candidate ⟨stagedAndOther, fun _ => none⟩ := by
  obtain ⟨t, candidate, c', result, ht, hcandidate, -, htest⟩ :=
    exists_of_reconcilesTo ⟨stagedAndOther, fun _ => none⟩
      (fun t candidate _ _ => decide (candidate.realHead ≠ t.snapshot.head ∧
        captureWorkspace stagedAndOther = some t.snapshot ∧
        findUntrackedCollisions plainEnv.pathspecs stagedAndOther
          (treePaths candidate.workingTree) = some ∅ ∧
        stagedAndOther.headBranch = some t.headRef ∧ LayersFit stagedAndOther candidate))
      (by decide +kernel : reconcilesTo plainEnv noRetention _ oldRevision newRevision _ = true)
  obtain ⟨hmoved, hcapture, hfree, hhead, hfit⟩ := of_decide_eq_true htest
  exact ⟨t, candidate, ht, hcandidate, hmoved,
    (recovers_exactly_iff plainEnv t candidate ⟨stagedAndOther, fun _ => none⟩ hcandidate hmoved
      hcapture hfree hhead fun j hj => by cases hj).mpr hfit⟩

/-- A recovery after the move completes the installation of a candidate whose
unstaged layer was dropped, and the workspace is not the candidate: the staged
file is not tracked any more. -/
theorem recovery_loses_staged_file : ∃ t candidate,
    prepareReconciliation plainEnv stagedAndSame oldRevision latestRevision = .ok (.ready t) ∧
    t.candidate = some candidate ∧ candidate.realHead ≠ t.snapshot.head ∧
    candidate.workingTree.get ["n"] = some 5 ∧
    (captureWorkspace (Checkout.recoverTransaction plainEnv noRetention t.id
      (installUpTo plainEnv noRetention t candidate 4 ⟨stagedAndSame, fun _ => none⟩)).repo).map
        (fun s => s.workingTree.get ["n"]) = some none ∧
    ¬ RecoversExactly plainEnv t candidate ⟨stagedAndSame, fun _ => none⟩ := by
  obtain ⟨t, candidate, c', result, ht, hcandidate, -, htest⟩ :=
    exists_of_reconcilesTo ⟨stagedAndSame, fun _ => none⟩
      (fun t candidate _ _ => decide (candidate.realHead ≠ t.snapshot.head ∧
        candidate.workingTree.get ["n"] = some 5 ∧
        (captureWorkspace (Checkout.recoverTransaction plainEnv noRetention t.id
          (installUpTo plainEnv noRetention t candidate 4
            ⟨stagedAndSame, fun _ => none⟩)).repo).map (fun s => s.workingTree.get ["n"]) =
          some none ∧
        (installUpTo plainEnv noRetention t candidate 4 ⟨stagedAndSame, fun _ => none⟩).repo.refs
          (.branch t.headRef) = some candidate.realHead))
      (by decide +kernel : reconcilesTo plainEnv noRetention _ oldRevision latestRevision _ = true)
  obtain ⟨hmoved, hn, hlost, hat⟩ := of_decide_eq_true htest
  refine ⟨t, candidate, ht, hcandidate, hmoved, hn, hlost, fun h => ?_⟩
  have hexact := h noRetention 4 [] plainEnv noRetention
  rw [if_pos hat] at hexact
  simp only [recoverAttempts, List.foldl_nil] at hexact
  rw [hexact, Option.map_some, hn] at hlost
  cases hlost

end Stopped

end Resync
