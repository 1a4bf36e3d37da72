import Mathlib.Data.Finset.Option
import Mathlib.Data.Finset.Union
import Resync.Git.Repository

/-! What the daemon reads of a checkout (`git_state.rs`): the three captured
layers, the synthetic commits on top of them, and the untracked files that
stand in the way of incoming paths. -/
namespace Resync

variable {β : Type}

structure WorkspaceSnapshot (β : Type) where
  head : Commit (Tree β)
  indexTree : Tree β
  workingTree : Tree β

instance [DecidableEq β] : DecidableEq (WorkspaceSnapshot β) := fun a b =>
  decidable_of_iff (a.head = b.head ∧ a.indexTree = b.indexTree ∧ a.workingTree = b.workingTree)
    (by
      obtain ⟨h, i, w⟩ := a
      obtain ⟨h', i', w'⟩ := b
      simp only [WorkspaceSnapshot.mk.injEq])

structure SyntheticChain (β : Type) where
  indexCommit : Commit (Tree β)
  workingCommit : Commit (Tree β)

/-- `temporary_index` with `update_tracked`. -/
def temporaryIndex (r : Repository β) (seedTree : Tree β) : Tree β := r.addTracked seedTree

/-- `capture_workspace`; `none` for a failing Git command. -/
def captureWorkspace (r : Repository β) : Option (WorkspaceSnapshot β) := do
  let head ← r.headCommit
  let indexTree ← r.writeTree
  return ⟨head, indexTree, temporaryIndex r indexTree⟩

/-- The author and committer of `create_synthetic_chain`. -/
def recoverySignature (now : ℕ) : Signature := ⟨"RepoSync Recovery", "recovery@reposync.local", now⟩

def createSyntheticChain (now : ℕ) (snapshot : WorkspaceSnapshot β) : SyntheticChain β :=
  let info message : CommitInfo := ⟨recoverySignature now, recoverySignature now, message⟩
  let indexCommit := .mk [snapshot.head] snapshot.indexTree (info "RepoSync synthetic index\n")
  ⟨indexCommit, .mk [indexCommit] snapshot.workingTree (info "RepoSync synthetic working tree\n")⟩

/-- `tree_paths`. -/
def treePaths (tree : Tree β) : Finset Path := tree.keys

/-- The ancestors of a path below the checkout, the shortest first. -/
def ancestors (p : Path) : List Path := (List.range' 1 (p.length - 1)).map fun n => p.take n

/-- The body of the loop of `find_untracked_collisions`: the path that collides
with `candidate`, if any; `none` when `ls-files` fails. -/
def untrackedCollision (ps : Pathspecs) (r : Repository β) (candidate : Path) :
    Option (Option Path) :=
  match (ancestors candidate).find? fun ancestor =>
      r.disk.lstat ancestor = some .other ∧ ancestor ∉ r.index.keys with
  | some ancestor => some (some ancestor)
  | none =>
    if candidate ∈ r.index.keys then some none
    else match r.disk.lstat candidate with
      | none => some none
      | some .other => some (some candidate)
      | some .directory =>
        if r.index.HasBelow candidate then
          (r.others ps candidate).map fun untracked => if untracked then some candidate else none
        else some (some candidate)

/-- `find_untracked_collisions`. -/
def findUntrackedCollisions (ps : Pathspecs) (r : Repository β) (candidateTracked : Finset Path) :
    Option (Finset Path) :=
  if ∀ c ∈ candidateTracked, untrackedCollision ps r c ≠ none then
    some (candidateTracked.biUnion fun c => (untrackedCollision ps r c).join.toFinset)
  else none

@[simp] theorem get_temporaryIndex (r : Repository β) (seed : Tree β) (p : Path) :
    (temporaryIndex r seed).get p = if p ∈ seed.keys then r.disk.files.get p else none := rfl

theorem captureWorkspace_eq_some {r : Repository β} {s : WorkspaceSnapshot β} :
    captureWorkspace r = some s ↔ r.headCommit = some s.head ∧ r.unmerged = false ∧
      s.indexTree = r.index ∧ s.workingTree = temporaryIndex r r.index := by
  obtain ⟨head, index, working⟩ := s
  simp only [captureWorkspace, Option.bind_eq_bind, Option.bind_eq_some_iff, Repository.writeTree,
    Option.pure_def, Option.some.injEq, WorkspaceSnapshot.mk.injEq]
  constructor
  · rintro ⟨h, hh, i, hi, rfl, rfl, rfl⟩
    split at hi
    · cases hi
    · next hu =>
      obtain rfl := Option.some.inj hi
      exact ⟨hh, by simpa only [Bool.not_eq_true] using hu, rfl, rfl⟩
  · rintro ⟨hh, hu, rfl, rfl⟩
    exact ⟨head, hh, r.index, by rw [hu]; rfl, rfl, rfl, rfl⟩

/-- The captured working tree at an indexed path is what is on disk there. -/
theorem captured_get {r : Repository β} {s : WorkspaceSnapshot β} (h : captureWorkspace r = some s)
    (p : Path) : s.workingTree.get p = if p ∈ s.indexTree.keys then r.disk.files.get p else none := by
  obtain ⟨-, -, hi, hw⟩ := captureWorkspace_eq_some.mp h
  rw [hi, hw, get_temporaryIndex]

theorem mem_ancestors {p a : Path} : a ∈ ancestors p ↔ a <+: p ∧ a ≠ p ∧ a ≠ [] := by
  simp only [ancestors, List.mem_map, List.mem_range'_1]
  constructor
  · rintro ⟨n, ⟨h1, hn⟩, rfl⟩
    refine ⟨List.take_prefix n p, fun h => ?_, fun h => ?_⟩
    · have hlen := congrArg List.length h
      rw [List.length_take] at hlen
      omega
    · rcases List.take_eq_nil_iff.mp h with h | rfl
      · omega
      · rw [List.length_nil] at hn
        omega
  · rintro ⟨hpre, hne, hnil⟩
    have hle : a.length ≤ p.length := hpre.length_le
    have hlt : a.length ≠ p.length := fun h => hne (hpre.eq_of_length h)
    have hpos : a.length ≠ 0 := fun h => hnil (List.length_eq_zero_iff.mp h)
    exact ⟨a.length, by omega, (List.prefix_iff_eq_take.mp hpre).symm⟩

/-- A search that reports nothing found nothing at any incoming path. -/
theorem untrackedCollision_of_empty {ps : Pathspecs} {r : Repository β} {tracked : Finset Path}
    (h : findUntrackedCollisions ps r tracked = some ∅) {c : Path} (hc : c ∈ tracked) :
    untrackedCollision ps r c = some none := by
  unfold findUntrackedCollisions at h
  split at h
  · next hall =>
    have hempty := Option.some.inj h
    obtain ⟨x, hx⟩ := Option.ne_none_iff_exists'.mp (hall c hc)
    cases x with
    | none => exact hx
    | some p =>
      have hp : p ∈ tracked.biUnion fun c => (untrackedCollision ps r c).join.toFinset :=
        Finset.mem_biUnion.mpr ⟨c, hc, by rw [hx]; exact Finset.mem_singleton_self p⟩
      rw [hempty] at hp
      exact absurd hp (Finset.notMem_empty p)
  · cases h

/-- Nothing untracked stands at an incoming path or above it. -/
theorem no_untracked_above {ps : Pathspecs} {r : Repository β} {c p : Path}
    (h : untrackedCollision ps r c = some none) (hp : r.disk.files.get p ≠ none)
    (hi : p ∉ r.index.keys) : ¬ p <+: c := by
  intro hpc
  unfold untrackedCollision at h
  split at h
  · cases h
  · next hnone =>
    by_cases hne : p = c
    · subst hne
      rw [if_neg hi, Disk.lstat_of_file hp] at h
      cases h
    · have hnil : p ≠ [] := fun hnil => hp (hnil ▸ r.disk.files.root)
      have hmem : p ∈ ancestors c := mem_ancestors.mpr ⟨hpc, hne, hnil⟩
      refine List.find?_eq_none.mp hnone p hmem ?_
      exact decide_eq_true ⟨Disk.lstat_of_file hp, hi⟩

/-- Nothing untracked lies below an incoming path that is not indexed, if Git
reads the path literally. -/
theorem no_untracked_below {ps : Pathspecs} {r : Repository β} {c p : Path}
    (h : untrackedCollision ps r c = some none) (hp : r.disk.files.get p ≠ none)
    (hi : p ∉ r.index.keys) (hc : c ∉ r.index.keys)
    (hcolon : Path.startsWithColon c = false) : ¬ c <+: p := by
  intro hcp
  by_cases hne : c = p
  · exact no_untracked_above h hp hi (hne ▸ List.prefix_refl p)
  · unfold untrackedCollision at h
    split at h
    · cases h
    · rw [if_neg hc, Disk.lstat_of_below hp hcp hne] at h
      dsimp only at h
      split at h
      · obtain ⟨f, hf, hfp⟩ := ps.matching_literal hcolon hcp
        rw [Repository.others, hf, Option.map_some, Option.map_some] at h
        have hfound : ∃ q ∈ r.disk.files.keys, q ∉ r.index.keys ∧ f q = true :=
          ⟨p, (r.disk.files.mem_keys p).mpr hp, hi, hfp⟩
        rw [decide_eq_true hfound] at h
        cases h
      · cases h

end Resync
