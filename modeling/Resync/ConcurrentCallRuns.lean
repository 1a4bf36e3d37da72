import Resync.ConcurrentCalls
import Resync.InstallFrame
import Resync.Lib.Runs

/-! What concurrent calls of `reconcile_exclusive` install, over whole runs. The branch,
the snapshot and the head ref are read at different moments, and only the branch and the
snapshot are looked at again, so users who switch away and back are not noticed. -/
namespace Resync

variable {β Task : Type}

/-- The installation moves the ref that HEAD names, from the captured HEAD, index and
working tree and at the generation of the preparation, to the target that is advertised
at that moment, with the local commits on top. -/
structure Install.Exact [DecidableEq β] (i : Install β) : Prop where
  snapshot : captureWorkspace i.before = some i.t.snapshot
  head : i.before.headBranch = some i.t.headRef
  generation : i.record.workspaceGeneration = i.p.expectedGeneration
  target : i.record.advertisedHeads i.t.headRef = some i.t.targetRemoteOid
  images : LayersAreImages i.env i.t.previousRemoteOid i.t.targetRemoteOid i.t.snapshot i.candidate
  moved : SameWorkspace (installedRepo i.before i.t i.candidate) i.after

/-- A call that has answered `applied` has installed exactly, and any other answer comes
from a call whose Git commands, if there were any, have left the workspace as it was. -/
def Answered [DecidableEq β] (outcome : Option Outcome) (install : Option (Install β)) : Prop :=
  (outcome = some .applied → ∃ i, install = some i ∧ i.Exact) ∧
    (outcome ≠ some .applied → ∀ i, install = some i → SameWorkspace i.before i.after)

/-- A candidate is read off the rebase of its transaction. -/
def ReadOff [DecidableEq β] (env : Env β) (t : Transaction β) : Prop :=
  ∀ candidate, t.candidate = some candidate →
    Commit.Ancestor t.previousRemoteOid t.snapshot.head ∧
    ∃ head, rebaseSynthetic env t.previousRemoteOid t.targetRemoteOid t.snapshot = some head ∧
      candidateOf head = some candidate

/-- What a place says whatever else happens. -/
def CallPlace.Sound [DecidableEq β] : CallPlace β → Prop
  | .captured c snapshot => Commit.Ancestor c.previous snapshot.head
  | .referenced c _ t =>
    t.targetRemoteOid = c.target ∧ Commit.Ancestor t.previousRemoteOid t.snapshot.head
  | .rebased c env (.ready t) => t.targetRemoteOid = c.target ∧ ReadOff env t
  | .complete _ result _ _ _ => result.outcome ≠ .applied
  | .prepared p env t => t.targetRemoteOid = p.target ∧ ReadOff env t
  | .moved i | .scanning i _ _ | .finalized i | .cleared i => i.Exact
  | .answered outcome install => Answered outcome install
  | _ => True

/-- A place that promises nothing of an installation. -/
def CallPlace.plain : CallPlace β → Prop
  | .idle | .staged _ | .looking .. | .opened _ | .attached _ | .capturing .. => True
  | .complete _ result _ _ _ => result.outcome ≠ .applied
  | .answered outcome install => outcome = none ∧ install = none
  | _ => False

/-- The repository after the first `done` actions of an installation. -/
def partialRepo (r : Repository β) (candidate : Candidate β) (done : ℕ) : Repository β :=
  match done with
  | 0 | 1 => r
  | 2 => r.readTreeReset candidate.workingTree
  | _ => (r.readTreeReset candidate.workingTree).readTree candidate.indexTree

namespace CallsWorld

/-- What holds while the Git commands of an installation run. -/
structure Begun [DecidableEq β] (w : CallsWorld β Task) (p : PreparedProject (Revision β))
    (env : Env β) (t : Transaction β) (candidate : Candidate β) (before : Repository β)
    (done : ℕ) : Prop where
  branch : t.headRef = p.branch
  target : t.targetRemoteOid = p.target
  images : LayersAreImages env t.previousRemoteOid t.targetRemoteOid t.snapshot candidate
  snapshot : captureWorkspace before = some t.snapshot
  head : before.headBranch = some t.headRef
  generation : w.project.workspaceGeneration = p.expectedGeneration
  advertised : w.project.advertisedHeads t.headRef = some t.targetRemoteOid
  bound : done < 4
  repo : SameWorkspace (partialRepo before candidate done) w.repo

structure Orderly [DecidableEq β] (w : CallsWorld β Task) : Prop where
  sound : ∀ task, (w.calls task).Sound
  exclusive : ∀ task, (w.calls task).exclusive = true → w.exclusive = some task
  scratch : ∀ task, w.scratch task ≠ none → (w.calls task).hasWorktree = true
  begun : ∀ task p env t candidate before done,
    w.calls task = .installing p env t candidate before done →
      Begun w p env t candidate before done

section Conditions

variable [DecidableEq β]

/-- The condition. Where an installation passes its checks, HEAD was on the same branch when
the preparation looked at it first and when it read the head ref, and the rebase has dropped
neither of the synthetic commits. And where the clean-up after it reads the transactions
directory, no file has been removed that it has listed. -/
def Steady (w : CallsWorld β Task) : CallsEvent β Task → Prop
  | .install task env =>
    match w.calls task with
    | .prepared p rebaseEnv t =>
      AccessWorld.stillWanted w.project p w.repo.headBranch = true →
        ∀ candidate ∈ t.candidate, Passes env t candidate w.repo →
          t.headRef = p.branch ∧
            LayersSurvive rebaseEnv t.previousRemoteOid t.targetRemoteOid t.snapshot
    | _ => True
  | .scan task =>
    match w.calls task with
    | .scanning _ (id :: _) _ => (w.checkout.transactions id).isSome = true
    | _ => True
  | _ => True

variable [DecidableEq Task] (retention : TransactionRetention)

/-- Of the steps of the calls only the Git commands of an installation touch HEAD, a
branch, the index or a file. -/
def TouchesOnlyByInstalling (w : CallsWorld β Task) (e : CallsEvent β Task) : Prop :=
  ∀ w', w.step retention e = some w' → SameWorkspace w.repo w'.repo ∨
    (∃ repo, e = .user repo) ∨ ∃ task, e = .act task

/-- The answer of a call is true to what it has done, and its temporary branch is gone. -/
def AnswersTruly (w : CallsWorld β Task) (task : Task) : Prop :=
  ∀ outcome install, w.calls task = .answered outcome install →
    w.scratch task = none ∧ Answered outcome install

end Conditions

section Workspace

variable [DecidableEq β] {c c' : Checkout β}

/-- An installation whose checks fail leaves the workspace alone. -/
theorem installPrepared_rejected {env : Env β} {retention : TransactionRetention}
    {t : Transaction β} {candidate : Candidate β} (hcandidate : t.candidate = some candidate)
    (hpasses : ¬ Passes env t candidate c.repo)
    {answer : Except Failure (ReconcileResult (Revision β))}
    (h : c.installPreparedReconciliation env retention (.ready t) = (c', answer)) :
    SameWorkspace c.repo c'.repo ∧ ∀ result, answer = .ok result → result.outcome ≠ .applied := by
  simp only [Checkout.installPreparedReconciliation, Checkout.installPreparedBy, hcandidate] at h
  unfold Checkout.installCandidateBy at h
  have herror : ∀ {e : Failure}, (c, Except.error e) = (c', answer) → SameWorkspace c.repo c'.repo ∧
      ∀ result, answer = .ok result → result.outcome ≠ .applied := by
    intro e he
    obtain ⟨rfl, rfl⟩ := Prod.mk.inj he
    exact ⟨SameWorkspace.refl c.repo, fun result hresult => by cases hresult⟩
  cases hcapture : captureWorkspace c.repo with
  | none =>
    rw [hcapture] at h
    exact herror h
  | some latest =>
    rw [hcapture] at h
    dsimp only at h
    by_cases hlatest : latest = t.snapshot
    · rw [if_neg (not_not.mpr hlatest)] at h
      cases hfound : findUntrackedCollisions env.pathspecs c.repo
          (treePaths candidate.workingTree) with
      | none =>
        rw [hfound] at h
        exact herror h
      | some collisions =>
        rw [hfound] at h
        dsimp only at h
        have hne : collisions ≠ ∅ := by
          intro hempty
          apply hpasses
          exact ⟨hcapture.trans (congrArg some hlatest), hfound.trans (congrArg some hempty)⟩
        rw [if_pos hne] at h
        dsimp only at h
        rw [if_neg (by decide)] at h
        obtain ⟨rfl, rfl⟩ := Prod.mk.inj h
        refine ⟨(Checkout.execute_bookkeeping c (writeJournal_bookkeeping _)).2, ?_⟩
        intro result hresult
        obtain rfl := Except.ok.inj hresult
        exact fun happlied => by cases happlied
    · rw [if_pos hlatest] at h
      dsimp only at h
      rw [if_pos rfl] at h
      obtain ⟨rfl, rfl⟩ := Prod.mk.inj h
      refine ⟨(Checkout.execute_bookkeeping c
        (finalizeTransaction_bookkeeping env retention _)).2, ?_⟩
      intro result hresult
      obtain rfl := Except.ok.inj hresult
      exact fun happlied => by cases happlied

omit [DecidableEq β] in
theorem sameWorkspace_writeRecoveryRefs (r : Repository β) (id : String)
    (snapshot : WorkspaceSnapshot β) (chain : SyntheticChain β) :
    SameWorkspace r (r.writeRecoveryRefs id snapshot chain) :=
  ((SameWorkspace.setRecovery r id .head _).trans (SameWorkspace.setRecovery _ id .index _)).trans
    (SameWorkspace.setRecovery _ id .working _)

theorem sameWorkspace_removeArtifacts (c : Checkout β) (t : Transaction β) :
    SameWorkspace c.repo (c.execute (removeTransactionArtifacts t)).1.repo :=
  (c.execute_bookkeeping (removeTransactionArtifacts_bookkeeping t)).2

omit [DecidableEq β] in
theorem journal_bookkeeping (retention : TransactionRetention) (env : Env β) (t : Transaction β)
    (result : PreparedReconciliation β) :
    ∀ a ∈ journal retention env t result, a.Bookkeeping := by
  cases result with
  | complete result => exact writeJournal_bookkeeping _
  | ready t =>
    intro a ha
    simp only [journal] at ha
    split at ha
    · next hdebug =>
      apply finalizeTransaction_bookkeeping env retention t a
      rw [finalizeTransaction, if_pos hdebug]
      exact ha
    · exact absurd ha List.not_mem_nil

theorem sameWorkspace_dropped (c : Checkout β) (dropped : List (Transaction β)) :
    SameWorkspace c.repo (c.execute (dropped.flatMap removeTransactionArtifacts)).1.repo := by
  refine (c.execute_bookkeeping ?_).2
  intro a ha
  obtain ⟨t, -, ha⟩ := List.mem_flatMap.mp ha
  exact removeTransactionArtifacts_bookkeeping t a ha

end Workspace

section Preparations

variable [DecidableEq β] [DecidableEq Task]

/-- The place to which a step of a preparation takes a call. -/
inductive PreparesTo (w : CallsWorld β Task) (task : Task) : CallPlace β → Prop
  | waits {r} : r.plain → PreparesTo w task r
  | captured {c : Preparing β} {snapshot} : Commit.Ancestor c.previous snapshot.head →
      PreparesTo w task (.captured c snapshot)
  | referenced {c env snapshot headRef} : w.calls task = .captured c snapshot →
      PreparesTo w task
        (.referenced c env (newTransaction env c.previous c.target snapshot headRef))
  | rebased {c env t result} : w.calls task = .referenced c env t →
      rebaseTransaction env t = .ok result → PreparesTo w task (.rebased c env result)
  | prepared {c env t} : w.calls task = .rebased c env (.ready t) →
      PreparesTo w task (.prepared (readyProject c) env t)

/-- What a step of a preparation changes besides the place of its call. -/
structure Prepares (w w' : CallsWorld β Task) (task : Task) (r : CallPlace β) : Prop where
  calls : w'.calls = Function.update w.calls task r
  place : PreparesTo w task r
  scratch : w'.scratch = w.scratch ∧ (w.calls task).hasWorktree = false ∨
    ∃ x, w'.scratch = Function.update w.scratch task x ∧ (x ≠ none → r.hasWorktree = true)
  project : w'.project = w.project
  exclusive : w'.exclusive = w.exclusive
  repo : SameWorkspace w.repo w'.repo

variable {retention : TransactionRetention} {w w' : CallsWorld β Task} {e : CallsEvent β Task}

omit [DecidableEq Task] in
theorem conclude_plain (project : LocalProject (Revision β)) (branch : Branch)
    (head : Option (Revision β)) (cleared : Bool) (result : Option (ReconcileResult (Revision β))) :
    (conclude project branch head cleared result).plain := by
  unfold conclude
  dsimp only
  split
  · next record result expected actual target h =>
    show result.outcome ≠ .applied
    rcases prepareProjectReconciliation_consistent _ h with ⟨houtcome, -⟩ | ⟨houtcome, -⟩
    · rw [houtcome]
      exact fun h => by cases h
    · rw [houtcome]
      exact fun h => by cases h
  · exact ⟨rfl, rfl⟩

omit [DecidableEq Task] in
theorem afterLooking_plain (project : LocalProject (Revision β)) (branch : Branch) (cleared : Bool)
    (read : Option (Capture β ⊕ WorkspaceSnapshot β)) :
    (afterLooking project branch cleared read).plain := by
  unfold afterLooking
  split
  · exact ⟨rfl, rfl⟩
  · trivial
  · split
    · exact conclude_plain ..
    · trivial

omit [DecidableEq Task] in
theorem afterCapturing_to (w : CallsWorld β Task) (task : Task) (c : Preparing β) (cleared : Bool)
    (read : Option (Capture β ⊕ WorkspaceSnapshot β)) :
    PreparesTo w task (afterCapturing c cleared read) := by
  unfold afterCapturing
  split
  · exact .waits ⟨rfl, rfl⟩
  · exact .waits trivial
  · split
    · exact .waits ⟨rfl, rfl⟩
    · exact .waits (conclude_plain ..)
    · next hrange => exact .captured (checkRange_eq_ok_true.mp hrange).2.1

/-- A step of a preparation moves one call, or removes a record. -/
theorem prepare_cases (hs : w.prepare retention e = some w') :
    (w'.calls = w.calls ∧ w'.scratch = w.scratch ∧ w'.project = w.project ∧
      w'.exclusive = w.exclusive ∧ SameWorkspace w.repo w'.repo) ∨
    ∃ task r, Prepares w w' task r := by
  -- The step places a call that has no worktree to drop.
  have hplace : ∀ {task r}, PreparesTo w task r → (w.calls task).hasWorktree = false →
      Prepares w (w.place task r) task r := by
    intro task r hr hworktree
    exact ⟨rfl, hr, Or.inl ⟨rfl, hworktree⟩, rfl, rfl, SameWorkspace.refl _⟩
  -- The step places a call and drops its worktree.
  have hdrop : ∀ {task r}, PreparesTo w task r →
      Prepares w ((w.place task r).dropWorktree task) task r := by
    intro task r hr
    refine ⟨rfl, hr, Or.inr ⟨none, rfl, fun h => absurd rfl h⟩, rfl, rfl, SameWorkspace.refl _⟩
  cases e with
  | stage task =>
    simp only [prepare] at hs
    split at hs
    · next hfree =>
      obtain rfl := Option.some.inj hs
      refine Or.inr ⟨task, _, hplace (.waits trivial) ?_⟩
      cases hcall : w.calls task with
      | rebased =>
        rw [hcall] at hfree
        cases hfree.1
      | _ => rfl
    · cases hs
  | look task cleared =>
    simp only [prepare] at hs
    split at hs
    · next project hcall =>
      have hworktree : (w.calls task).hasWorktree = false := by rw [hcall]; rfl
      split at hs
      · obtain rfl := Option.some.inj hs
        exact Or.inr ⟨task, _, hplace (.waits ⟨rfl, rfl⟩) hworktree⟩
      · split at hs
        · obtain rfl := Option.some.inj hs
          exact Or.inr ⟨task, _, hplace (.waits (conclude_plain ..)) hworktree⟩
        · obtain rfl := Option.some.inj hs
          exact Or.inr ⟨task, _, hplace (.waits trivial) hworktree⟩
    · cases hs
  | read task cleared =>
    simp only [prepare] at hs
    split at hs
    · next project branch capture hcall =>
      obtain rfl := Option.some.inj hs
      have hworktree : (w.calls task).hasWorktree = false := by rw [hcall]; rfl
      exact Or.inr ⟨task, _, hplace (.waits (afterLooking_plain ..)) hworktree⟩
    · next c capture hcall =>
      obtain rfl := Option.some.inj hs
      have hworktree : (w.calls task).hasWorktree = false := by rw [hcall]; rfl
      exact Or.inr ⟨task, _, hplace (afterCapturing_to ..) hworktree⟩
    · cases hs
  | check task =>
    simp only [prepare] at hs
    split at hs
    · next c hcall =>
      obtain rfl := Option.some.inj hs
      have hworktree : (w.calls task).hasWorktree = false := by rw [hcall]; rfl
      refine Or.inr ⟨task, _, hplace (.waits ?_) hworktree⟩
      split
      · exact ⟨rfl, rfl⟩
      · trivial
    · next c hcall =>
      obtain rfl := Option.some.inj hs
      have hworktree : (w.calls task).hasWorktree = false := by rw [hcall]; rfl
      refine Or.inr ⟨task, _, hplace (.waits ?_) hworktree⟩
      split
      · exact ⟨rfl, rfl⟩
      · trivial
    · cases hs
  | reference task env =>
    simp only [prepare] at hs
    split at hs
    · next c snapshot hcall =>
      have hworktree : (w.calls task).hasWorktree = false := by rw [hcall]; rfl
      have hsame := sameWorkspace_writeRecoveryRefs w.repo env.id snapshot
        (createSyntheticChain env.now snapshot)
      split at hs
      · obtain rfl := Option.some.inj hs
        exact Or.inr ⟨task, _, rfl, .waits ⟨rfl, rfl⟩, Or.inl ⟨rfl, hworktree⟩, rfl, rfl, hsame⟩
      · obtain rfl := Option.some.inj hs
        exact Or.inr ⟨task, _, rfl, .referenced hcall, Or.inl ⟨rfl, hworktree⟩, rfl, rfl, hsame⟩
    · cases hs
  | rebase task =>
    simp only [prepare] at hs
    split at hs
    · next c env t hcall =>
      split at hs
      · obtain rfl := Option.some.inj hs
        have hworktree : (w.calls task).hasWorktree = false := by rw [hcall]; rfl
        exact Or.inr ⟨task, _, hplace (.waits ⟨rfl, rfl⟩) hworktree⟩
      · next result hresult =>
        obtain rfl := Option.some.inj hs
        -- The journal of the rebase is bookkeeping, which leaves the workspace alone.
        have hsame :=
          (w.checkout.execute_bookkeeping (journal_bookkeeping retention env t result)).2
        exact Or.inr ⟨task, _, rfl, .rebased hcall hresult, Or.inr ⟨_, rfl, fun _ => rfl⟩, rfl, rfl,
          hsame⟩
    · cases hs
  | cleanUp task cleared =>
    simp only [prepare] at hs
    split at hs
    · next c env t hcall =>
      obtain rfl := Option.some.inj hs
      exact Or.inr ⟨task, _, hdrop (.prepared hcall)⟩
    · obtain rfl := Option.some.inj hs
      exact Or.inr ⟨task, _, hdrop (.waits (conclude_plain ..))⟩
    · cases hs
  | remove task id =>
    simp only [prepare] at hs
    split at hs
    · next t _ =>
      split at hs
      · obtain rfl := Option.some.inj hs
        exact Or.inl ⟨rfl, rfl, rfl, rfl, sameWorkspace_removeArtifacts w.checkout t⟩
      · cases hs
    · cases hs
  | fail task =>
    simp only [prepare] at hs
    split at hs
    · obtain rfl := Option.some.inj hs
      exact Or.inr ⟨task, _, hdrop (.waits ⟨rfl, rfl⟩)⟩
    · cases hs
  | _ => cases hs

end Preparations

section Invariant

variable [DecidableEq β] {retention : TransactionRetention} {w w' : CallsWorld β Task}
  {e : CallsEvent β Task}

theorem orderly_initial (checkout : Checkout β) (project : LocalProject (Revision β)) :
    (initial checkout project : CallsWorld β Task).Orderly where
  sound _ := trivial
  exclusive task h := by cases h
  scratch task h := absurd rfl h
  begun task p env t candidate before done h := by cases h

/-- Between its Git commands an installation is not disturbed by what leaves the workspace
and the record alone. -/
theorem Begun.of_same {p : PreparedProject (Revision β)} {env : Env β} {t : Transaction β}
    {candidate : Candidate β} {before : Repository β} {done : ℕ}
    (h : Begun w p env t candidate before done) (hrepo : SameWorkspace w.repo w'.repo)
    (hproject : w'.project = w.project) : Begun w' p env t candidate before done :=
  ⟨h.branch, h.target, h.images, h.snapshot, h.head, hproject ▸ h.generation,
    hproject ▸ h.advertised, h.bound, h.repo.trans hrepo⟩

/-- The calls go on, one of them to `r`: it holds the gate or nobody does, or neither the
workspace nor the record changes. -/
theorem Orderly.update [DecidableEq Task] (h : w.Orderly) {task : Task} {r : CallPlace β}
    (hcalls : w'.calls = Function.update w.calls task r)
    (hscratch : ∀ other, other ≠ task → w'.scratch other = w.scratch other)
    (hworktree : w'.scratch task ≠ none → r.hasWorktree = true)
    (hexclusive : w'.exclusive = w.exclusive ∨ w.exclusive = none ∨ w.exclusive = some task)
    (hholds : r.exclusive = true → w'.exclusive = some task)
    (hframe : (w.exclusive = none ∨ w.exclusive = some task) ∨
      SameWorkspace w.repo w'.repo ∧ w'.project = w.project)
    (hsound : r.Sound)
    (hbegun : ∀ p env t candidate before done, r = .installing p env t candidate before done →
      Begun w' p env t candidate before done) : w'.Orderly := by
  have hself : w'.calls task = r := by rw [hcalls, Function.update_self]
  have hother : ∀ other, other ≠ task → w'.calls other = w.calls other := by
    intro other hne
    rw [hcalls, Function.update_of_ne hne]
  constructor
  · intro other
    by_cases hne : other = task
    · rw [hne, hself]
      exact hsound
    · rw [hother other hne]
      exact h.sound other
  · intro other hex
    by_cases hne : other = task
    · rw [hne] at hex ⊢
      rw [hself] at hex
      exact hholds hex
    · rw [hother other hne] at hex
      have hheld := h.exclusive other hex
      rcases hexclusive with hsame | hnone | htask
      · exact hsame.trans hheld
      · cases hnone.symm.trans hheld
      · exact absurd (Option.some.inj (hheld.symm.trans htask)) hne
  · intro other hscr
    by_cases hne : other = task
    · rw [hne] at hscr ⊢
      rw [hself]
      exact hworktree hscr
    · rw [hother other hne]
      rw [hscratch other hne] at hscr
      exact h.scratch other hscr
  · intro other p env t candidate before done hplace
    by_cases hne : other = task
    · rw [hne, hself] at hplace
      exact hbegun p env t candidate before done hplace
    · rw [hother other hne] at hplace
      have hold := h.begun other p env t candidate before done hplace
      rcases hframe with hheld | ⟨hrepo, hproject⟩
      · have hex : w.exclusive = some other := by
          apply h.exclusive other
          rw [hplace]
          rfl
        rcases hheld with hnone | htask
        · cases hnone.symm.trans hex
        · exact absurd (Option.some.inj (hex.symm.trans htask)) hne
      · exact hold.of_same hrepo hproject

/-- No call moves, and no installation is disturbed. -/
theorem Orderly.of_same (h : w.Orderly) (hcalls : w'.calls = w.calls)
    (hscratch : w'.scratch = w.scratch) (hexclusive : w'.exclusive = w.exclusive)
    (hbegun : ∀ task p env t candidate before done,
      w.calls task = .installing p env t candidate before done →
        SameWorkspace w.repo w'.repo ∧ w'.project = w.project) : w'.Orderly where
  sound task := by
    rw [hcalls]
    exact h.sound task
  exclusive task hex := by
    rw [hcalls] at hex
    rw [hexclusive]
    exact h.exclusive task hex
  scratch task hscr := by
    rw [hscratch] at hscr
    rw [hcalls]
    exact h.scratch task hscr
  begun task p env t candidate before done hplace := by
    rw [hcalls] at hplace
    obtain ⟨hrepo, hproject⟩ := hbegun task p env t candidate before done hplace
    exact (h.begun task p env t candidate before done hplace).of_same hrepo hproject

/-- A call that has not come to its Git commands, and has not answered `applied`. -/
theorem answered_of_none {outcome : Option Outcome} (h : outcome ≠ some .applied) :
    Answered (β := β) outcome none where
  left happlied := absurd happlied h
  right _ i hi := by cases hi

theorem CallPlace.Sound.of_plain {r : CallPlace β} (h : r.plain) : r.Sound := by
  cases r with
  | complete => exact h
  | answered outcome install =>
    obtain ⟨rfl, rfl⟩ := h
    exact answered_of_none fun happlied => by cases happlied
  | captured | referenced | rebased | prepared | installing | moved | scanning | finalized
  | cleared => exact h.elim
  | _ => trivial

/-- What a step of a preparation promises. -/
theorem PreparesTo.sound {task : Task} {r : CallPlace β} (h : PreparesTo w task r)
    (hsound : (w.calls task).Sound) : r.Sound ∧ r.exclusive = false := by
  cases h with
  | waits hplain =>
    refine ⟨CallPlace.Sound.of_plain hplain, ?_⟩
    cases r with
    | installing | moved | scanning | finalized | cleared => exact hplain.elim
    | _ => rfl
  | captured hlocal => exact ⟨hlocal, rfl⟩
  | referenced hcall =>
    rw [hcall] at hsound
    exact ⟨⟨rfl, hsound⟩, rfl⟩
  | @rebased c env t result hcall hresult =>
    rw [hcall] at hsound
    obtain ⟨htarget, hlocal⟩ := hsound
    refine ⟨?_, rfl⟩
    cases result with
    | complete result => trivial
    | ready t' =>
      obtain ⟨head, candidate, hhead, hcandidate, rfl⟩ := rebaseTransaction_ready hresult
      refine ⟨htarget, ?_⟩
      intro candidate' hcandidate'
      obtain rfl := Option.some.inj hcandidate'
      exact ⟨hlocal, head, hhead, hcandidate⟩
  | prepared hcall =>
    rw [hcall] at hsound
    exact ⟨hsound, rfl⟩

/-- A call that holds the gate goes on holding it. -/
theorem Orderly.keep [DecidableEq Task] (h : w.Orderly) {task : Task}
    (hex : (w.calls task).exclusive = true) (c : Checkout β) {r : CallPlace β} (hsound : r.Sound)
    (hgit : r.runsGit = false) : (w.move task c r).Orderly := by
  have hheld := h.exclusive task hex
  have hcalls : (w.move task c r).calls = Function.update w.calls task r := rfl
  apply h.update hcalls (fun _ _ => rfl) ?_ (Or.inl rfl) (fun _ => hheld) (Or.inl (Or.inr hheld))
    hsound
  · intro p env t candidate before done hr
    rw [hr] at hgit
    cases hgit
  · intro hscr
    have hworktree := h.scratch task hscr
    cases hplace : w.calls task with
    | rebased =>
      rw [hplace] at hex
      cases hex
    | _ =>
      rw [hplace] at hworktree
      cases hworktree

/-- A call answers while nobody holds the gate, and has not installed anything. -/
theorem Orderly.answer [DecidableEq Task] (h : w.Orderly) {task : Task}
    (hold : (w.calls task).hasWorktree = false) (hfree : w.exclusive = none) (c : Checkout β)
    (project : LocalProject (Revision β)) {outcome : Option Outcome}
    (hne : outcome ≠ some .applied) :
    Orderly { w.move task c (.answered outcome none) with project := project } := by
  have hcalls : CallsWorld.calls { w.move task c (.answered outcome none) with
      project := project } = Function.update w.calls task (.answered outcome none) := rfl
  apply h.update hcalls (fun _ _ => rfl) ?_ (Or.inl rfl) (fun hex => ?_) (Or.inl (Or.inl hfree))
    (answered_of_none hne)
  · intro p env t candidate before done hr
    cases hr
  · intro hscr
    have hworktree := h.scratch task hscr
    rw [hold] at hworktree
    cases hworktree
  · cases hex

/-- A step of a preparation. -/
theorem Orderly.prepare [DecidableEq Task] (h : w.Orderly)
    (hs : CallsWorld.prepare retention w e = some w') : w'.Orderly := by
  rcases prepare_cases hs with ⟨hcalls, hscratch, hproject, hexclusive, hrepo⟩ | ⟨task, r, hr⟩
  · exact h.of_same hcalls hscratch hexclusive fun _ _ _ _ _ _ _ _ => ⟨hrepo, hproject⟩
  · obtain ⟨hsound, hnot⟩ := hr.place.sound (h.sound task)
    apply h.update hr.calls ?_ ?_ (Or.inl hr.exclusive) ?_ (Or.inr ⟨hr.repo, hr.project⟩) hsound ?_
    · intro other hne
      rcases hr.scratch with ⟨hsame, -⟩ | ⟨x, hx, -⟩
      · rw [hsame]
      · rw [hx, Function.update_of_ne hne]
    · intro hscr
      rcases hr.scratch with ⟨hsame, hold⟩ | ⟨x, hx, hworktree⟩
      · rw [hsame] at hscr
        have hworktree := h.scratch task hscr
        rw [hold] at hworktree
        cases hworktree
      · rw [hx, Function.update_self] at hscr
        exact hworktree hscr
    · intro hex
      rw [hnot] at hex
      cases hex
    · intro p env t candidate before done hplace
      rw [hplace] at hnot
      cases hnot

/-- The Git commands go through, and the last of them moves the branch. -/
theorem Begun.perform {p : PreparedProject (Revision β)} {env : Env β} {t : Transaction β}
    {candidate : Candidate β} {before : Repository β} {done : ℕ}
    (h : Begun w p env t candidate before done) {a : Action β}
    (ha : (gitActions t candidate)[done]? = some a) :
    ∃ c, w.checkout.perform a = some c ∧
      (done = 3 ∧ SameWorkspace (installedRepo before t candidate) c.repo ∨
        done < 3 ∧ SameWorkspace (partialRepo before candidate (done + 1)) c.repo) := by
  have hrepo := h.repo
  rcases gitActions_cases ha with ⟨rfl, rfl⟩ | ⟨rfl, rfl⟩ | ⟨rfl, rfl⟩ | ⟨rfl, rfl⟩
  · exact ⟨_, rfl, Or.inr ⟨by omega, hrepo⟩⟩
  · exact ⟨_, rfl, Or.inr ⟨by omega, hrepo.readTreeReset _⟩⟩
  · exact ⟨_, rfl, Or.inr ⟨by omega, hrepo.readTree _⟩⟩
  · -- HEAD names the branch, so it is at the head of the snapshot
    have hbranch : before.refs (.branch t.headRef) = some t.snapshot.head := by
      have hcommit := (captureWorkspace_eq_some.mp h.snapshot).1
      have hhead := h.head
      unfold Repository.headCommit at hcommit
      unfold Repository.headBranch at hhead
      cases hh : before.head with
      | attached branch =>
        rw [hh] at hcommit hhead
        obtain rfl := Option.some.inj hhead
        exact hcommit
      | detached commit =>
        rw [hh] at hhead
        cases hhead
    have hold : w.checkout.repo.refs (.branch t.headRef) = some t.snapshot.head :=
      (hrepo.branches t.headRef).trans hbranch
    refine ⟨{ w.checkout with repo := w.repo.setRef (.branch t.headRef) (some candidate.realHead) },
      ?_, Or.inl ⟨rfl, hrepo.setBranch _ _⟩⟩
    simp only [Checkout.perform, Repository.updateRef, hold, ↓reduceIte]
    rfl

section Sections

variable [DecidableEq Task] {task : Task} {env : Env β}

/-- An installation that the checks have turned down. -/
theorem Orderly.reject (h : w.Orderly) {p : PreparedProject (Revision β)} {rebaseEnv : Env β}
    {t : Transaction β} {candidate : Candidate β}
    (hplace : w.calls task = .prepared p rebaseEnv t) (hfree : w.exclusive = none)
    (hcandidate : t.candidate = some candidate) (hpasses : ¬ Passes env t candidate w.repo) :
    (w.reject retention task env p t).Orderly := by
  have hold : (w.calls task).hasWorktree = false := by
    rw [hplace]
    rfl
  unfold CallsWorld.reject
  split
  · exact h.answer hold hfree _ w.project fun happlied => by cases happlied
  · next c result hrun =>
    have hnot := (installPrepared_rejected hcandidate hpasses hrun).2 result rfl
    split
    · exact h.answer hold hfree c w.project fun happlied => by cases happlied
    · exact h.answer hold hfree c _ fun happlied => hnot (Option.some.inj happlied)

theorem Orderly.install (h : w.Orderly) (hok : w.Steady (.install task env))
    (hs : CallsWorld.install retention w task env = some w') : w'.Orderly := by
  unfold CallsWorld.install at hs
  split at hs
  · next p rebaseEnv t hplace hfree =>
    have hold : (w.calls task).hasWorktree = false := by
      rw [hplace]
      rfl
    have hsound := h.sound task
    rw [hplace] at hsound
    obtain ⟨htarget, hread⟩ := hsound
    split at hs
    · next hwanted =>
      split at hs
      · obtain rfl := Option.some.inj hs
        exact h.answer hold hfree w.checkout w.project fun happlied => by cases happlied
      · next candidate hcandidate =>
        split at hs
        · next hpasses =>
          obtain rfl := Option.some.inj hs
          simp only [Steady, hplace] at hok
          obtain ⟨hbranch, hsurvive⟩ := hok hwanted candidate hcandidate hpasses
          obtain ⟨hlocal, head, hhead, hof⟩ := hread candidate hcandidate
          simp only [AccessWorld.stillWanted, Bool.and_eq_true, beq_iff_eq] at hwanted
          have hcalls : CallsWorld.calls
              { w.place task (.installing p rebaseEnv t candidate w.repo 0) with
                exclusive := some task } =
              Function.update w.calls task (.installing p rebaseEnv t candidate w.repo 0) := rfl
          apply h.update hcalls (fun _ _ => rfl) ?_ (Or.inr (Or.inl hfree)) (fun _ => rfl)
            (Or.inl (Or.inl hfree)) trivial
          · intro p' env' t' candidate' before done hinstalling
            cases hinstalling
            refine ⟨hbranch, htarget, (layersAreImages_iff hlocal hhead hof).mpr hsurvive,
              hpasses.1, ?_, hwanted.1.1, ?_, by omega, SameWorkspace.refl _⟩
            · rw [hbranch]
              exact hwanted.2
            · rw [hbranch, htarget]
              exact hwanted.1.2
          · intro hscr
            have hworktree := h.scratch task hscr
            rw [hold] at hworktree
            cases hworktree
        · next hpasses =>
          obtain rfl := Option.some.inj hs
          exact h.reject hplace hfree hcandidate hpasses
    · obtain rfl := Option.some.inj hs
      exact h.answer hold hfree _ w.project fun happlied => by cases happlied
  · cases hs

theorem Orderly.act (h : w.Orderly) (hs : w.act task = some w') : w'.Orderly := by
  unfold CallsWorld.act at hs
  split at hs
  · next p renv t candidate before done hplace =>
    obtain ⟨a, ha, rfl⟩ := Option.map_eq_some_iff.mp hs
    have hbegun := h.begun task p renv t candidate before done hplace
    have hex : (w.calls task).exclusive = true := by
      rw [hplace]
      rfl
    have hheld := h.exclusive task hex
    have hold : (w.calls task).hasWorktree = false := by
      rw [hplace]
      rfl
    obtain ⟨c, hc, hafter⟩ := hbegun.perform ha
    simp only [hc]
    split
    · next hdone =>
      have hmoved : SameWorkspace (installedRepo before t candidate) c.repo := by
        rcases hafter with ⟨-, hmoved⟩ | ⟨hlt, -⟩
        · exact hmoved
        · omega
      apply h.keep hex c _ rfl
      exact ⟨hbegun.snapshot, hbegun.head, hbegun.generation, hbegun.advertised, hbegun.images,
        hmoved⟩
    · next hdone =>
      obtain ⟨hlt, hpartial⟩ : done < 3 ∧
          SameWorkspace (partialRepo before candidate (done + 1)) c.repo := by
        rcases hafter with ⟨heq, -⟩ | hpartial
        · exact absurd heq hdone
        · exact hpartial
      have hcalls : (w.move task c (.installing p renv t candidate before (done + 1))).calls =
          Function.update w.calls task (.installing p renv t candidate before (done + 1)) := rfl
      apply h.update hcalls (fun _ _ => rfl) ?_ (Or.inl rfl) (fun _ => hheld)
        (Or.inl (Or.inr hheld)) trivial
      · intro p' env' t' candidate' before' done' hinstalling
        cases hinstalling
        exact ⟨hbegun.branch, hbegun.target, hbegun.images, hbegun.snapshot, hbegun.head,
          hbegun.generation, hbegun.advertised, by omega, hpartial⟩
      · intro hscr
        have hworktree := h.scratch task hscr
        rw [hold] at hworktree
        cases hworktree
  · cases hs

theorem Orderly.finalize (h : w.Orderly) {listed : List String}
    (hs : CallsWorld.finalize retention w task env listed = some w') : w'.Orderly := by
  unfold CallsWorld.finalize at hs
  split at hs
  · next i hplace =>
    have hsound := h.sound task
    have hex : (w.calls task).exclusive = true := by
      rw [hplace]
      rfl
    rw [hplace] at hsound
    dsimp only at hs
    split at hs
    · split at hs
      · obtain rfl := Option.some.inj hs
        exact h.keep hex _ hsound rfl
      · cases hs
    · obtain rfl := Option.some.inj hs
      exact h.keep hex _ hsound rfl
  · cases hs

theorem Orderly.scan (h : w.Orderly) (hok : w.Steady (.scan task))
    (hs : CallsWorld.scan retention w task = some w') : w'.Orderly := by
  unfold CallsWorld.scan at hs
  split at hs
  · next i id ids last hplace =>
    have hsound := h.sound task
    have hex : (w.calls task).exclusive = true := by
      rw [hplace]
      rfl
    rw [hplace] at hsound
    simp only [Steady, hplace] at hok
    split at hs
    · next hfails =>
      rw [clearStep_ofRecord_eq_fails.mp hfails] at hok
      cases hok
    · obtain rfl := Option.some.inj hs
      exact h.keep hex _ hsound rfl
    · obtain rfl := Option.some.inj hs
      exact h.keep hex _ hsound rfl
  · cases hs

theorem Orderly.scanned (h : w.Orderly) {dropped : List (Transaction β)}
    (hs : CallsWorld.scanned retention w task dropped = some w') : w'.Orderly := by
  unfold CallsWorld.scanned at hs
  split at hs
  · next i last hplace =>
    obtain rfl := Option.some.inj hs
    have hsound := h.sound task
    have hex : (w.calls task).exclusive = true := by
      rw [hplace]
      rfl
    rw [hplace] at hsound
    apply h.keep hex
    · cases last with
      | true => exact hsound
      | false => exact hsound
    · cases last with
      | true => rfl
      | false => rfl
  · cases hs

theorem Orderly.record (h : w.Orderly) (hs : CallsWorld.record w task = some w') : w'.Orderly := by
  unfold CallsWorld.record at hs
  split at hs
  · next i hplace =>
    obtain ⟨staged, -, rfl⟩ := Option.map_eq_some_iff.mp hs
    have hsound := h.sound task
    have hex : (w.calls task).exclusive = true := by
      rw [hplace]
      rfl
    have hheld := h.exclusive task hex
    rw [hplace] at hsound
    have hcalls : CallsWorld.calls
        { (w.place task (.answered (some .applied) (some i))).release with
          project := mergeReconciliationState w.project staged } =
        Function.update w.calls task (.answered (some .applied) (some i)) := rfl
    apply h.update hcalls (fun _ _ => rfl) ?_ (Or.inr (Or.inr hheld)) ?_ (Or.inl (Or.inr hheld)) ?_
    · intro p env t candidate before done hinstalling
      cases hinstalling
    · intro hscr
      have hworktree := h.scratch task hscr
      rw [hplace] at hworktree
      cases hworktree
    · intro hexclusive
      cases hexclusive
    · exact ⟨fun _ => ⟨i, rfl, hsound⟩, fun hne => absurd rfl hne⟩
  · cases hs

/-- What a step that meets the condition keeps. -/
theorem Orderly.step (h : w.Orderly) (hok : w.Steady e)
    (hs : CallsWorld.step retention w e = some w') : w'.Orderly := by
  cases e with
  | user repo =>
    simp only [CallsWorld.step] at hs
    split at hs
    · next hquiet =>
      obtain rfl := Option.some.inj hs
      have hcalls : CallsWorld.calls { w with checkout := { w.checkout with repo := repo } } =
          w.calls := rfl
      apply h.of_same hcalls rfl rfl
      intro task p env t candidate before done hplace
      -- users keep out of the Git commands
      have hheld := h.exclusive task (by rw [hplace]; rfl)
      simp only [quiet, hheld, hplace, CallPlace.runsGit, Bool.not_true, Bool.false_eq_true]
        at hquiet
    · cases hs
  | refresh record =>
    simp only [CallsWorld.step] at hs
    split at hs
    · next hfree =>
      obtain rfl := Option.some.inj hs
      have hcalls : CallsWorld.calls { w with project := record } = w.calls := rfl
      apply h.of_same hcalls rfl rfl
      intro task p env t candidate before done hplace
      have hheld := h.exclusive task (by rw [hplace]; rfl)
      cases hfree.1.symm.trans hheld
    · cases hs
  | merge task =>
    simp only [CallsWorld.step] at hs
    split at hs
    · next record result expected branch target hplace hfree =>
      have hsound := h.sound task
      have hold : (w.calls task).hasWorktree = false := by
        rw [hplace]
        rfl
      rw [hplace] at hsound
      split at hs
      · obtain rfl := Option.some.inj hs
        exact h.answer hold hfree w.checkout _ fun happlied => hsound (Option.some.inj happlied)
      · obtain rfl := Option.some.inj hs
        exact h.answer hold hfree w.checkout w.project fun happlied => by cases happlied
    · cases hs
  | clear task listed =>
    simp only [CallsWorld.step] at hs
    split at hs
    · next i hplace =>
      have hsound := h.sound task
      have hex : (w.calls task).exclusive = true := by
        rw [hplace]
        rfl
      rw [hplace] at hsound
      split at hs
      · obtain rfl := Option.some.inj hs
        exact h.keep hex w.checkout hsound rfl
      · cases hs
    · cases hs
  | install task env => exact h.install hok hs
  | act task => exact h.act hs
  | finalize task env listed => exact h.finalize hs
  | scan task => exact h.scan hok hs
  | scanned task dropped => exact h.scanned hs
  | record task => exact h.record hs
  | _ => exact h.prepare (by simpa only [CallsWorld.step] using hs)

end Sections

/-- The steps that touch the workspace. -/
theorem step_touches [DecidableEq Task] (w : CallsWorld β Task) (e : CallsEvent β Task) :
    w.TouchesOnlyByInstalling retention e := by
  intro w' hs
  cases e with
  | user repo => exact Or.inr (Or.inl ⟨repo, rfl⟩)
  | act task => exact Or.inr (Or.inr ⟨task, rfl⟩)
  | refresh record =>
    simp only [step] at hs
    split at hs
    · exact Or.inl (Option.some.inj hs ▸ SameWorkspace.refl _)
    · cases hs
  | merge task =>
    simp only [step] at hs
    split at hs
    · split at hs
      · exact Or.inl (Option.some.inj hs ▸ SameWorkspace.refl _)
      · exact Or.inl (Option.some.inj hs ▸ SameWorkspace.refl _)
    · cases hs
  | clear task listed =>
    simp only [step] at hs
    split at hs
    · split at hs
      · exact Or.inl (Option.some.inj hs ▸ SameWorkspace.refl _)
      · cases hs
    · cases hs
  | install task env =>
    refine Or.inl ?_
    simp only [step, install] at hs
    split at hs
    · next p rebaseEnv t hplace hfree =>
      split at hs
      · split at hs
        · exact Option.some.inj hs ▸ SameWorkspace.refl _
        · next candidate hcandidate =>
          split at hs
          · exact Option.some.inj hs ▸ SameWorkspace.refl _
          · next hpasses =>
            obtain rfl := Option.some.inj hs
            -- A rejected installation leaves the workspace as it is.
            unfold reject
            split
            · next c e hrun => exact (installPrepared_rejected hcandidate hpasses hrun).1
            · next c result hrun =>
              have hsame := (installPrepared_rejected hcandidate hpasses hrun).1
              split
              · exact hsame
              · exact hsame
      · obtain rfl := Option.some.inj hs
        exact (w.checkout.execute_bookkeeping (finalizeTransaction_bookkeeping env retention _)).2
    · cases hs
  | finalize task env listed =>
    refine Or.inl ?_
    simp only [step, finalize] at hs
    split at hs
    · split at hs
      · split at hs
        · obtain rfl := Option.some.inj hs
          exact (w.checkout.execute_bookkeeping (writeJournal_bookkeeping _)).2
        · cases hs
      · obtain rfl := Option.some.inj hs
        exact sameWorkspace_removeArtifacts w.checkout _
    · cases hs
  | scan task =>
    refine Or.inl ?_
    simp only [step, scan] at hs
    split at hs
    · split at hs
      · exact Option.some.inj hs ▸ SameWorkspace.refl _
      · exact Option.some.inj hs ▸ SameWorkspace.refl _
      · next t _ =>
        obtain rfl := Option.some.inj hs
        exact sameWorkspace_removeArtifacts w.checkout t
    · cases hs
  | scanned task dropped =>
    refine Or.inl ?_
    simp only [step, scanned] at hs
    split at hs
    · obtain rfl := Option.some.inj hs
      show SameWorkspace w.checkout.repo (ite _ _ _ : Checkout β).repo
      split
      · exact sameWorkspace_dropped w.checkout dropped
      · exact SameWorkspace.refl _
    · cases hs
  | record task =>
    refine Or.inl ?_
    simp only [step, record] at hs
    split at hs
    · obtain ⟨staged, -, rfl⟩ := Option.map_eq_some_iff.mp hs
      exact SameWorkspace.refl _
    · cases hs
  -- The other steps are those of a preparation.
  | _ =>
    rcases prepare_cases (by simpa only [step] using hs) with ⟨-, -, -, -, hrepo⟩ | ⟨task, r, hr⟩
    · exact Or.inl hrepo
    · exact Or.inl hr.repo

theorem Orderly.answersTruly (h : w.Orderly) (task : Task) : w.AnswersTruly task := by
  intro outcome install hplace
  have hsound := h.sound task
  rw [hplace] at hsound
  refine ⟨?_, hsound⟩
  by_contra hscr
  have hworktree := h.scratch task hscr
  rw [hplace] at hworktree
  cases hworktree

/-- Over whole runs, with any number of calls, users and refreshes in any order: where the
condition holds at every step, each call that answers `applied` has moved the ref that HEAD
names from exactly what was prepared to the target that is advertised, and every other
call has left HEAD, the branches, the index and the files alone. -/
theorem installs_what_was_prepared [DecidableEq Task] (checkout : Checkout β)
    (project : LocalProject (Revision β)) {es : List (CallsEvent β Task)}
    (hok : Runs.Steps (CallsWorld.step retention) Steady (initial checkout project) es) :
    Runs.Steps (CallsWorld.step retention) (TouchesOnlyByInstalling retention)
        (initial checkout project) es ∧
      ∀ done rest u, es = done ++ rest →
        Runs.run (CallsWorld.step retention) (initial checkout project) done = some u →
          ∀ task, u.AnswersTruly task := by
  constructor
  · exact hok.mono fun w e _ => step_touches w e
  · rintro done rest u rfl hu task
    have hstep : ∀ (s : CallsWorld β Task) e t, s.Orderly → s.Steady e →
        CallsWorld.step retention s e = some t → t.Orderly := fun s e t h hok hs => h.step hok hs
    have horderly := Runs.run_invariant hstep (orderly_initial checkout project) hok.of_append.1 hu
    exact horderly.answersTruly task

end Invariant

section OneCall

instance [DecidableEq β] (env : Env β) (previous target : Revision β)
    (snapshot : WorkspaceSnapshot β) : Decidable (LayersSurvive env previous target snapshot) :=
  decidable_of_iff (∃ real ∈ replay env.merge (reconcilerStamp env.now) target
      (localCommits previous snapshot),
    ∃ index ∈ mergedTree env.merge snapshot.head.tree real.tree snapshot.indexTree,
      ¬ Contained env.merge snapshot.head.tree real.tree snapshot.indexTree ∧
      ¬ Contained env.merge snapshot.indexTree index snapshot.workingTree)
    ⟨fun ⟨real, hreal, index, hindex, hnot⟩ => ⟨real, index, hreal, hindex, hnot⟩,
      fun ⟨real, index, hreal, hindex, hnot⟩ => ⟨real, hreal, index, hindex, hnot⟩⟩

instance [DecidableEq β] (w : CallsWorld β Task) (e : CallsEvent β Task) :
    Decidable (w.Steady e) := by
  unfold Steady
  split
  · split
    · infer_instance
    · infer_instance
  · split
    · infer_instance
    · infer_instance
  · infer_instance

/-- The hosted `main` is ahead of the checkout. -/
def behindProject : LocalProject (Revision ℕ) where
  projectId := "prj"
  localPath := "/work"
  remoteUrl := "host/prj"
  remoteName := "resync"
  defaultBranch := "main"
  serverGeneration := 0
  advertisedHeads b := if b = "main" then some newRevision else none
  lastAppliedHeads b := if b = "main" then some oldRevision else none
  activeBranch := some "main"
  workspaceGeneration := 1
  state := .remoteAhead
  durability := .remotelyDurable
  conflict := none
  lastError := none
  service := none
  checkoutId := none

/-- A preparation up to its second capture. -/
def capturesTwice (task : Fin 2) : List (CallsEvent ℕ (Fin 2)) :=
  [.stage task, .look task true, .read task true, .read task true, .read task true, .check task,
    .check task, .read task true, .read task true, .read task true]

/-- The rest of the preparation. -/
def rebases (task : Fin 2) : List (CallsEvent ℕ (Fin 2)) :=
  [.reference task plainEnv, .rebase task, .cleanUp task true]

def runsInstallation (task : Fin 2) : List (CallsEvent ℕ (Fin 2)) :=
  [.install task plainEnv, .act task, .act task, .act task, .act task]

/-- The clean-up after it, in a directory without other records, and the merge. -/
def recordsInstallation (task : Fin 2) : List (CallsEvent ℕ (Fin 2)) :=
  [.finalize task plainEnv [], .clear task [], .scanned task [], .record task]

/-- Whether the call has answered, and its answer passes a test. -/
def answers (task : Fin 2)
    (test : Option Outcome → Option (Install ℕ) → CallsWorld ℕ (Fin 2) → Bool)
    (w : CallsWorld ℕ (Fin 2)) : Bool :=
  match w.calls task with
  | .answered outcome install => test outcome install w
  | _ => false

def reportsApplied (outcome : Option Outcome) (_ : Option (Install ℕ))
    (_ : CallsWorld ℕ (Fin 2)) : Bool := decide (outcome = some .applied)

theorem exists_of_answers {checkout : Checkout ℕ} {es : List (CallsEvent ℕ (Fin 2))}
    {task : Fin 2} {test : Option Outcome → Option (Install ℕ) → CallsWorld ℕ (Fin 2) → Bool}
    (h : (Runs.run (step noRetention) (initial checkout behindProject) es).map
      (answers task test) = some true) :
    ∃ u outcome install,
      Runs.run (step noRetention) (initial checkout behindProject) es = some u ∧
      u.calls task = .answered outcome install ∧ test outcome install u = true := by
  obtain ⟨u, hu, htest⟩ := Option.map_eq_some_iff.mp h
  unfold answers at htest
  split at htest
  · next outcome install hplace => exact ⟨u, outcome, install, hu, hplace, htest⟩
  · cases htest

theorem installs_what_was_prepared_two : ∃ u i,
    Runs.run (step noRetention) (initial ⟨stagedAndOther, fun _ => none⟩ behindProject)
      (capturesTwice 0 ++ rebases 0 ++ runsInstallation 0 ++ recordsInstallation 0) = some u ∧
    u.calls 0 = .answered (some .applied) (some i) ∧ i.Exact := by
  have hsteady : Runs.Steps (step noRetention) Steady
      (initial ⟨stagedAndOther, fun _ => none⟩ behindProject)
      (capturesTwice 0 ++ rebases 0 ++ runsInstallation 0 ++ recordsInstallation 0) := by
    decide +kernel
  have hrun : (Runs.run (step noRetention)
      (initial ⟨stagedAndOther, fun _ => none⟩ behindProject)
      (capturesTwice 0 ++ rebases 0 ++ runsInstallation 0 ++ recordsInstallation 0)).map
        (answers 0 reportsApplied) = some true := by decide +kernel
  obtain ⟨u, outcome, install, hu, hplace, htest⟩ := exists_of_answers hrun
  obtain rfl := of_decide_eq_true htest
  have htruly := (installs_what_was_prepared ⟨stagedAndOther, fun _ => none⟩ behindProject
    hsteady).2 _ [] u (List.append_nil _).symm hu 0 _ install hplace
  obtain ⟨i, rfl, hexact⟩ := htruly.2.1 rfl
  exact ⟨u, i, hu, hplace, hexact⟩

/-- `topic` is checked out, or `main`. -/
def withTopic (branch : Branch) (topic : Revision ℕ) : Repository ℕ :=
  { stagedAndOther.setRef (.branch "topic") (some topic) with head := .attached branch }

/-- Back on `main`, with what the preparation has written in between. -/
def backOnMain (topic : Revision ℕ) : Repository ℕ :=
  let snapshot : WorkspaceSnapshot ℕ :=
    ⟨oldRevision, stagedAndOther.index, stagedAndOther.disk.files⟩
  (withTopic "main" topic).writeRecoveryRefs "t" snapshot (createSyntheticChain 1 snapshot)

/-- A commit of `topic` with the files of `main`. -/
def topicRevision : Revision ℕ := .mk [oldRevision] (filesOf [(["x"], 0)]) plainInfo

/-- A user is on `topic` while the head ref is read. -/
def switchesAway (topic : Revision ℕ) (task : Fin 2) : List (CallsEvent ℕ (Fin 2)) :=
  capturesTwice task ++ [.user (withTopic "topic" topic), .reference task plainEnv,
    .user (backOnMain topic), .rebase task, .cleanUp task true] ++ runsInstallation task

/-- The other call removes a record between the listing and the reading of the clean-up. -/
def removesListed (task other : Fin 2) : List (CallsEvent ℕ (Fin 2)) :=
  .stage other :: (capturesTwice task ++ rebases task ++ runsInstallation task ++
    [.finalize task plainEnv [], .clear task ["old"], .remove other "old", .scan task])

/-- A directory with the record of a conflict. -/
def oldConflict (id : String) : Option (Transaction ℕ) :=
  if id = "old" then
    some { newTransaction { plainEnv with id := "old" } oldRevision newRevision
      ⟨oldRevision, oldRevision.tree, oldRevision.tree⟩ "main" with phase := .conflicted }
  else none

/-- It answers `applied`, and HEAD is on another branch than the one that has moved. -/
def movesOther (outcome : Option Outcome) (install : Option (Install ℕ))
    (_ : CallsWorld ℕ (Fin 2)) : Bool :=
  match install with
  | some i => decide (outcome = some .applied ∧ i.before.headBranch ≠ some i.t.headRef)
  | none => false

/-- It answers with an error after its Git commands have changed the index. -/
def leavesChanged (outcome : Option Outcome) (install : Option (Install ℕ))
    (_ : CallsWorld ℕ (Fin 2)) : Bool :=
  match install with
  | some i => decide (outcome = none ∧ i.before.index ≠ i.after.index)
  | none => false

theorem not_answered_of_movesOther {outcome : Option Outcome} {install : Option (Install ℕ)}
    {w : CallsWorld ℕ (Fin 2)} (h : movesOther outcome install w = true) :
    ¬ Answered outcome install := by
  intro hanswered
  unfold movesOther at h
  split at h
  · next i =>
    obtain ⟨happlied, hother⟩ := of_decide_eq_true h
    obtain ⟨i', hi, hexact⟩ := hanswered.1 happlied
    obtain rfl := Option.some.inj hi
    exact hother hexact.head
  · cases h

theorem not_answered_of_leavesChanged {outcome : Option Outcome} {install : Option (Install ℕ)}
    {w : CallsWorld ℕ (Fin 2)} (h : leavesChanged outcome install w = true) :
    ¬ Answered outcome install := by
  intro hanswered
  unfold leavesChanged at h
  split at h
  · next i =>
    obtain ⟨rfl, hchanged⟩ := of_decide_eq_true h
    have hsame := hanswered.2 (by decide) i rfl
    exact hchanged hsame.index.symm
  · cases h

/-- Three runs that go wrong: `topic` moves, and not the branch that HEAD names; the
compare-and-swap on `topic` fails after the index and the files have changed; and the call
answers with an error after the installation, for a file that is gone. -/
theorem installations_go_wrong :
    (∃ u outcome install,
      Runs.run (step noRetention) (initial ⟨stagedAndOther, fun _ => none⟩ behindProject)
        (switchesAway oldRevision 0 ++ recordsInstallation 0) = some u ∧
      u.calls 0 = .answered outcome install ∧ outcome = some .applied ∧
      ¬ Answered outcome install) ∧
    (∃ u outcome install,
      Runs.run (step noRetention) (initial ⟨withTopic "main" topicRevision, fun _ => none⟩
        behindProject) (switchesAway topicRevision 0) = some u ∧
      u.calls 0 = .answered outcome install ∧ ¬ Answered outcome install) ∧
    ∃ u outcome install,
      Runs.run (step noRetention) (initial ⟨stagedAndOther, oldConflict⟩ behindProject)
        (removesListed 0 1) = some u ∧
      u.calls 0 = .answered outcome install ∧ ¬ Answered outcome install := by
  refine ⟨?_, ?_, ?_⟩
  · have hrun : (Runs.run (step noRetention)
        (initial ⟨stagedAndOther, fun _ => none⟩ behindProject)
        (switchesAway oldRevision 0 ++ recordsInstallation 0)).map
          (answers 0 movesOther) = some true := by decide +kernel
    obtain ⟨u, outcome, install, hu, hplace, htest⟩ := exists_of_answers hrun
    refine ⟨u, outcome, install, hu, hplace, ?_, not_answered_of_movesOther htest⟩
    unfold movesOther at htest
    split at htest
    · exact (of_decide_eq_true htest).1
    · cases htest
  · have hrun : (Runs.run (step noRetention)
        (initial ⟨withTopic "main" topicRevision, fun _ => none⟩ behindProject)
        (switchesAway topicRevision 0)).map (answers 0 leavesChanged) = some true := by
      decide +kernel
    obtain ⟨u, outcome, install, hu, hplace, htest⟩ := exists_of_answers hrun
    exact ⟨u, outcome, install, hu, hplace, not_answered_of_leavesChanged htest⟩
  · have hrun : (Runs.run (step noRetention)
        (initial ⟨stagedAndOther, oldConflict⟩ behindProject)
        (removesListed 0 1)).map (answers 0 leavesChanged) = some true := by decide +kernel
    obtain ⟨u, outcome, install, hu, hplace, htest⟩ := exists_of_answers hrun
    exact ⟨u, outcome, install, hu, hplace, not_answered_of_leavesChanged htest⟩

end OneCall

end CallsWorld

end Resync
