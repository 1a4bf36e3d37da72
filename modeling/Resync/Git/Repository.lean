import Resync.Git.Commit
import Resync.Lib.PathTree
import Resync.Project

/-! A repository with its checkout, and the Git commands that the daemon runs
on them, each taken as one step. A file is its content with its mode; what a
symbolic link points to is content. -/
namespace Resync

abbrev Tree (β : Type) := PathTree String β

inductive RecoverySlot where
  | head | index | working | candidate
deriving DecidableEq

/-- The refs below `refs/heads` and below `refs/resync/recovery`. -/
inductive Ref where
  | branch (name : Branch)
  | recovery (id : String) (slot : RecoverySlot)
deriving DecidableEq

inductive Head (β : Type) where
  | attached (branch : Branch)
  | detached (commit : Commit (Tree β))

inductive FileKind where
  | directory | other
deriving DecidableEq

/-- One of the two paths is above the other, or they are the same. -/
def Comparable (p q : Path) : Prop := p <+: q ∨ q <+: p

instance (p q : Path) : Decidable (Comparable p q) := inferInstanceAs (Decidable (_ ∨ _))

/-- What is on disk below the checkout. `through` is what `lstat` finds behind
a symbolic link that is a directory of the path. -/
structure Disk (β : Type) where
  files : Tree β
  emptyDirs : Finset Path
  through : Path → Option FileKind
  empty : ∀ e ∈ emptyDirs, ∀ p ∈ files.keys, ¬ Comparable e p

namespace Disk

variable {β : Type}

/-- `fs::symlink_metadata`. -/
def lstat (d : Disk β) (p : Path) : Option FileKind :=
  if (d.files.get p).isSome then some .other
  else if d.files.HasBelow p ∨ ∃ e ∈ d.emptyDirs, p <+: e then some .directory
  else if ∃ q ∈ d.files.keys, q <+: p then d.through p
  else none

theorem lstat_of_file {d : Disk β} {p : Path} (h : d.files.get p ≠ none) :
    d.lstat p = some .other := if_pos (Option.isSome_iff_ne_none.mpr h)

/-- What lies above a file is a directory. -/
theorem lstat_of_below {d : Disk β} {p q : Path} (h : d.files.get q ≠ none) (hpq : p <+: q)
    (hne : p ≠ q) : d.lstat p = some .directory := by
  have hbelow : d.files.HasBelow p := ⟨q, (d.files.mem_keys q).mpr h, hpq, hne⟩
  have hp : ¬ (d.files.get p).isSome := fun hp =>
    PathTree.not_hasBelow (Option.isSome_iff_ne_none.mp hp) hbelow
  rw [lstat, if_neg hp, if_pos (Or.inl hbelow)]

/-- The file that `read-tree --reset -u` leaves at a path: the tree's, and
nothing at other indexed paths and in the way of the tree. -/
def checkoutEntry (d : Disk β) (index tree : Tree β) (p : Path) : Option β :=
  if p ∈ tree.keys then tree.get p
  else if p ∈ index.keys ∨ ∃ q ∈ tree.keys, Comparable p q then none
  else d.files.get p

theorem checkoutEntry_prefix_free (d : Disk β) (index tree : Tree β) {p q : Path}
    (hp : d.checkoutEntry index tree p ≠ none) (hq : d.checkoutEntry index tree q ≠ none)
    (hpq : p <+: q) : p = q := by
  unfold checkoutEntry at hp hq
  by_cases hpt : p ∈ tree.keys
  · by_cases hqt : q ∈ tree.keys
    · exact tree.prefix_free p q ((tree.mem_keys p).mp hpt) ((tree.mem_keys q).mp hqt) hpq
    · rw [if_neg hqt, if_pos (Or.inr ⟨p, hpt, Or.inr hpq⟩)] at hq
      exact absurd rfl hq
  · by_cases hqt : q ∈ tree.keys
    · rw [if_neg hpt, if_pos (Or.inr ⟨q, hqt, Or.inl hpq⟩)] at hp
      exact absurd rfl hp
    · rw [if_neg hpt] at hp
      rw [if_neg hqt] at hq
      split at hp
      · exact absurd rfl hp
      · split at hq
        · exact absurd rfl hq
        · exact d.files.prefix_free p q hp hq hpq

/-- The files of `read-tree --reset -u tree`. -/
def checkoutFiles (d : Disk β) (index tree : Tree β) : Tree β where
  toFiniteMap := .collect (tree.keys ∪ d.files.keys) (d.checkoutEntry index tree)
  root := by
    rw [FiniteMap.get_collect]
    refine ite_eq_right_iff.mpr fun _ => ?_
    rw [checkoutEntry, tree.root, d.files.root, ite_self, ite_self]
  prefix_free p q hp hq := by
    rw [FiniteMap.get_collect] at hp hq
    have hp' : d.checkoutEntry index tree p ≠ none := fun h => hp (by rw [h, ite_self])
    have hq' : d.checkoutEntry index tree q ≠ none := fun h => hq (by rw [h, ite_self])
    exact checkoutEntry_prefix_free d index tree hp' hq'

@[simp] theorem get_checkoutFiles (d : Disk β) (index tree : Tree β) (p : Path) :
    (d.checkoutFiles index tree).get p = d.checkoutEntry index tree p := by
  refine FiniteMap.get_collect_of_subset (fun k hk => ?_) p
  unfold checkoutEntry at hk
  split at hk
  · next h => exact Finset.mem_union_left _ h
  · split at hk
    · exact absurd rfl hk
    · exact Finset.mem_union_right _ ((d.files.mem_keys k).mpr hk)

theorem checkoutEntry_of_mem (d : Disk β) (index : Tree β) {tree : Tree β} {p : Path}
    (h : p ∈ tree.keys) : d.checkoutEntry index tree p = tree.get p := if_pos h

theorem checkoutEntry_of_index (d : Disk β) {index tree : Tree β} {p : Path}
    (ht : p ∉ tree.keys) (hi : p ∈ index.keys) : d.checkoutEntry index tree p = none := by
  rw [checkoutEntry, if_neg ht, if_pos (Or.inl hi)]

theorem checkoutEntry_of_clash (d : Disk β) (index : Tree β) {tree : Tree β} {p q : Path}
    (ht : p ∉ tree.keys) (hq : q ∈ tree.keys) (hpq : Comparable p q) :
    d.checkoutEntry index tree p = none := by
  rw [checkoutEntry, if_neg ht, if_pos (Or.inr ⟨q, hq, hpq⟩)]

/-- Away from the tree and from the index nothing is touched. -/
theorem checkoutEntry_of_clear (d : Disk β) {index tree : Tree β} {p : Path}
    (hi : p ∉ index.keys) (hq : ∀ q ∈ tree.keys, ¬ Comparable p q) :
    d.checkoutEntry index tree p = d.files.get p := by
  have ht : p ∉ tree.keys := fun h => hq p h (Or.inl (List.prefix_refl p))
  rw [checkoutEntry, if_neg ht, if_neg]
  rintro (h | ⟨q, hmem, hcmp⟩)
  · exact hi h
  · exact hq q hmem hcmp

/-- No step of a checkout makes a file that is neither in the tree nor was
there before. -/
theorem checkoutEntry_none {d : Disk β} (index : Tree β) {tree : Tree β} {p : Path}
    (ht : p ∉ tree.keys) (h : d.files.get p = none) : d.checkoutEntry index tree p = none := by
  rw [checkoutEntry, if_neg ht, h, ite_self]

/-- The disk after `read-tree --reset -u tree`. -/
def checkout (d : Disk β) (index tree : Tree β) : Disk β where
  files := d.checkoutFiles index tree
  emptyDirs := d.emptyDirs.filter fun e => ∀ p ∈ tree.keys, ¬ Comparable e p
  through := d.through
  empty e he p hp := by
    obtain ⟨he, hclear⟩ := Finset.mem_filter.mp he
    by_cases hpt : p ∈ tree.keys
    · exact hclear p hpt
    · refine d.empty e he p ((d.files.mem_keys p).mpr fun hnone => ?_)
      have hget := ((d.checkoutFiles index tree).mem_keys p).mp hp
      rw [get_checkoutFiles] at hget
      exact hget (checkoutEntry_none index hpt hnone)

end Disk

/-- How Git reads a path that stands as a pathspec on a command line, beyond
the literal reading: what its wildcards match, and what the magic means that a
leading colon starts (`none` for an error). -/
structure Pathspecs where
  glob : Path → Path → Bool
  magic : Path → Option (Path → Bool)

def Path.startsWithColon (p : Path) : Bool :=
  match p with
  | [] => false
  | s :: _ => s.startsWith ":"

/-- The files that the pathspec matches. `:/` is the magic word for the top of
the checkout, if no other sign of magic follows it. -/
def Pathspecs.matching (ps : Pathspecs) (spec : Path) : Option (Path → Bool) :=
  if Path.startsWithColon spec then
    match spec with
    | ":" :: s :: rest =>
      if s.toList.head?.any Char.isAlphanum then
        some fun p => (s :: rest) <+: p ∨ ps.glob (s :: rest) p = true
      else ps.magic spec
    | _ => ps.magic spec
  else some fun p => spec <+: p ∨ ps.glob spec p = true

theorem Pathspecs.matching_literal (ps : Pathspecs) {spec p : Path}
    (h : Path.startsWithColon spec = false) (hp : spec <+: p) :
    ∃ f, ps.matching spec = some f ∧ f p = true := by
  refine ⟨_, if_neg (by rw [h]; exact Bool.false_ne_true), ?_⟩
  exact decide_eq_true (Or.inl hp)

structure Repository (β : Type) where
  head : Head β
  refs : Ref → Option (Commit (Tree β))
  index : Tree β
  unmerged : Bool
  disk : Disk β

namespace Repository

variable {β : Type}

/-- `rev-parse --verify HEAD`; a branch without a commit has none. -/
def headCommit (r : Repository β) : Option (Commit (Tree β)) :=
  match r.head with
  | .attached branch => r.refs (.branch branch)
  | .detached commit => some commit

/-- `symbolic-ref HEAD`. -/
def headBranch (r : Repository β) : Option Branch :=
  match r.head with
  | .attached branch => some branch
  | .detached _ => none

/-- `write-tree`; it fails on an unmerged index. -/
def writeTree (r : Repository β) : Option (Tree β) := if r.unmerged then none else some r.index

/-- The tree of a temporary index seeded with `seed` after `add -u -- .`. -/
def addTracked (r : Repository β) (seed : Tree β) : Tree β := r.disk.files.restrict seed.keys

/-- `read-tree --reset -u tree`. -/
def readTreeReset (r : Repository β) (tree : Tree β) : Repository β :=
  { r with index := tree, unmerged := false, disk := r.disk.checkout r.index tree }

/-- `read-tree tree`. -/
def readTree (r : Repository β) (tree : Tree β) : Repository β :=
  { r with index := tree, unmerged := false }

def setRef (r : Repository β) (ref : Ref) (commit : Option (Commit (Tree β))) : Repository β :=
  { r with refs := Function.update r.refs ref commit }

/-- `update-ref ref new old`, which fails when the ref is not at `old`. -/
def updateRef [DecidableEq β] (r : Repository β) (ref : Ref) (new old : Commit (Tree β)) :
    Option (Repository β) :=
  if r.refs ref = some old then some (r.setRef ref (some new)) else none

/-- Whether `ls-files --others -- spec` prints anything. -/
def others (r : Repository β) (ps : Pathspecs) (spec : Path) : Option Bool :=
  (ps.matching spec).map fun f => decide (∃ p ∈ r.disk.files.keys, p ∉ r.index.keys ∧ f p = true)

@[simp] theorem get_readTreeReset (r : Repository β) (tree : Tree β) (p : Path) :
    (r.readTreeReset tree).disk.files.get p = r.disk.checkoutEntry r.index tree p :=
  Disk.get_checkoutFiles ..

@[simp] theorem readTree_index (r : Repository β) (tree : Tree β) :
    (r.readTree tree).index = tree := rfl

@[simp] theorem readTree_disk (r : Repository β) (tree : Tree β) :
    (r.readTree tree).disk = r.disk := rfl

/-- The commit of HEAD only depends on HEAD and on the branches. -/
theorem headCommit_congr {r s : Repository β} (hh : s.head = r.head)
    (hb : ∀ b, s.refs (.branch b) = r.refs (.branch b)) : s.headCommit = r.headCommit := by
  unfold headCommit
  rw [hh]
  cases r.head with
  | attached branch => exact hb branch
  | detached commit => rfl

end Repository

end Resync
