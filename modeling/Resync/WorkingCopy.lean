import Resync.Installation

/-! A checkout whose files are not taken as blobs. Git converts what it stores of a
file and what it writes of a blob (line endings, `ident`, filters), and
`read-tree --reset -u` leaves a file alone only where the index keeps its entry and
has the file's stat data. -/
namespace Resync

variable {β δ : Type}

/-- The conversions that the attributes and the configuration ask for. -/
structure Conversion (β δ : Type) where
  /-- What `add` stores of a file. -/
  clean : Path → δ → β
  /-- What a checkout writes of a blob. -/
  smudge : Path → β → δ

/-- Git stores again what it has written. -/
def Conversion.Lossless (conv : Conversion β δ) : Prop := ∀ p b, conv.clean p (conv.smudge p b) = b

namespace Disk

theorem ext_of {d e : Disk β} (hfiles : d.files = e.files) (hdirs : d.emptyDirs = e.emptyDirs)
    (hthrough : d.through = e.through) : d = e := by
  obtain ⟨files, dirs, through, empty⟩ := d
  obtain ⟨files', dirs', through', empty'⟩ := e
  obtain rfl : files = files' := hfiles
  obtain rfl : dirs = dirs' := hdirs
  obtain rfl : through = through' := hthrough
  rfl

variable (conv : Conversion β δ)

/-- The disk as Git reads it. -/
def clean (d : Disk δ) : Disk β where
  files := d.files.mapContents conv.clean
  emptyDirs := d.emptyDirs
  through := d.through
  empty := d.empty

@[simp] theorem get_clean (d : Disk δ) (p : Path) :
    (d.clean conv).files.get p = (d.files.get p).map (conv.clean p) := rfl

variable [DecidableEq β] (upToDate : Path → Bool)

/-- The file that `read-tree --reset -u` leaves at a path. -/
def rewriteEntry (d : Disk δ) (index tree : Tree β) (p : Path) : Option δ :=
  if p ∈ tree.keys then
    if upToDate p = true ∧ index.get p = tree.get p ∧ (d.files.get p).isSome then d.files.get p
    else (tree.get p).map (conv.smudge p)
  else if p ∈ index.keys ∨ ∃ q ∈ tree.keys, Comparable p q then none
  else d.files.get p

/-- The paths are those of a checkout of blobs. -/
theorem rewriteEntry_eq_none_iff {d : Disk δ} {index tree : Tree β} {p : Path} :
    d.rewriteEntry conv upToDate index tree p = none ↔
      (d.clean conv).checkoutEntry index tree p = none := by
  unfold rewriteEntry checkoutEntry
  by_cases ht : p ∈ tree.keys
  · rw [if_pos ht, if_pos ht]
    split
    · next hkept =>
      refine iff_of_false (Option.isSome_iff_ne_none.mp hkept.2.2) ((tree.mem_keys p).mp ht)
    · exact Option.map_eq_none_iff
  · rw [if_neg ht, if_neg ht]
    split
    · exact iff_of_true rfl rfl
    · exact Option.map_eq_none_iff.symm

/-- Away from the tree a file is removed or kept as in a checkout of blobs. -/
theorem rewriteEntry_eq_files_iff {d : Disk δ} {index tree : Tree β} {p : Path}
    (ht : p ∉ tree.keys) :
    d.rewriteEntry conv upToDate index tree p = d.files.get p ↔
      (d.clean conv).checkoutEntry index tree p = (d.clean conv).files.get p := by
  unfold rewriteEntry checkoutEntry
  rw [if_neg ht, if_neg ht]
  split
  · rw [eq_comm, eq_comm (a := none), get_clean, Option.map_eq_none_iff]
  · exact iff_of_true rfl rfl

theorem rewriteEntry_of_mem {d : Disk δ} {index tree : Tree β} {p : Path} (ht : p ∈ tree.keys) :
    d.rewriteEntry conv upToDate index tree p =
      if upToDate p = true ∧ index.get p = tree.get p ∧ (d.files.get p).isSome then d.files.get p
      else (tree.get p).map (conv.smudge p) := if_pos ht

/-- The files of `read-tree --reset -u tree`. -/
def rewriteFiles (d : Disk δ) (index tree : Tree β) : Tree δ where
  toFiniteMap := .collect (tree.keys ∪ d.files.keys) (d.rewriteEntry conv upToDate index tree)
  root := by
    rw [FiniteMap.get_collect]
    refine ite_eq_right_iff.mpr fun _ => ?_
    rw [rewriteEntry_eq_none_iff, checkoutEntry, tree.root, (d.clean conv).files.root, ite_self,
      ite_self]
  prefix_free p q hp hq := by
    rw [FiniteMap.get_collect] at hp hq
    refine checkoutEntry_prefix_free (d.clean conv) index tree (fun h => hp ?_) (fun h => hq ?_)
    · rw [(rewriteEntry_eq_none_iff conv upToDate).mpr h, ite_self]
    · rw [(rewriteEntry_eq_none_iff conv upToDate).mpr h, ite_self]

@[simp] theorem get_rewriteFiles (d : Disk δ) (index tree : Tree β) (p : Path) :
    (d.rewriteFiles conv upToDate index tree).get p =
      d.rewriteEntry conv upToDate index tree p := by
  refine FiniteMap.get_collect_of_subset (fun k hk => ?_) p
  unfold rewriteEntry at hk
  split at hk
  · next h => exact Finset.mem_union_left _ h
  · split at hk
    · exact absurd rfl hk
    · exact Finset.mem_union_right _ ((d.files.mem_keys k).mpr hk)

/-- The disk after `read-tree --reset -u tree`. -/
def rewrite (d : Disk δ) (index tree : Tree β) : Disk δ where
  files := d.rewriteFiles conv upToDate index tree
  emptyDirs := ((d.clean conv).checkout index tree).emptyDirs
  through := d.through
  empty e he p hp := by
    refine ((d.clean conv).checkout index tree).empty e he p ?_
    have hfile := ((d.rewriteFiles conv upToDate index tree).mem_keys p).mp hp
    rw [get_rewriteFiles, ne_eq, rewriteEntry_eq_none_iff, ← get_checkoutFiles] at hfile
    exact (((d.clean conv).checkoutFiles index tree).mem_keys p).mpr hfile

end Disk

/-- A checkout with the files as they are on disk. -/
structure WorkingCopy (β δ : Type) where
  head : Head β
  refs : Ref → Option (Commit (Tree β))
  index : Tree β
  unmerged : Bool
  /-- Whether the index has the stat data of the file. -/
  upToDate : Path → Bool
  disk : Disk δ
  transactions : String → Option (Transaction β)

namespace WorkingCopy

section Operations

variable [DecidableEq β] (conv : Conversion β δ)

/-- The checkout as Git reads it. -/
def view (w : WorkingCopy β δ) : Checkout β :=
  ⟨⟨w.head, w.refs, w.index, w.unmerged, w.disk.clean conv⟩, w.transactions⟩

def perform (w : WorkingCopy β δ) : Action β → Option (WorkingCopy β δ)
  | .readTreeReset tree => some { w with
      index := tree, unmerged := false, upToDate := fun p => decide (p ∈ tree.keys),
      disk := w.disk.rewrite conv w.upToDate w.index tree }
  -- Without `-m` the index is read anew, and has no stat data.
  | .readTree tree => some { w with index := tree, unmerged := false, upToDate := fun _ => false }
  | action => ((w.view conv).perform action).map fun c =>
      { w with refs := c.repo.refs, transactions := c.transactions }

def execute (w : WorkingCopy β δ) : List (Action β) → WorkingCopy β δ × Bool
  | [] => (w, true)
  | a :: as =>
    match w.perform conv a with
    | none => (w, false)
    | some w' => w'.execute as

/-- `install_prepared_reconciliation`. -/
def installPreparedReconciliation (env : Env β) (retention : TransactionRetention)
    (prepared : PreparedReconciliation β) (w : WorkingCopy β δ) :
    WorkingCopy β δ × Except Failure (ReconcileResult (Commit (Tree β))) :=
  Checkout.installPreparedBy (view conv) (execute conv) env retention prepared w

end Operations

section Files

variable [DecidableEq β] (conv : Conversion β δ)

/-- Bookkeeping leaves the files alone, and so do the two moves after the checkout. -/
theorem execute_files (w : WorkingCopy β δ) {as : List (Action β)}
    (h : ∀ a ∈ as, ∀ tree, a ≠ Action.readTreeReset tree) :
    (w.execute conv as).1.disk.files = w.disk.files := by
  induction as generalizing w with
  | nil => rfl
  | cons a as ih =>
    have hrest : ∀ b ∈ as, ∀ tree, b ≠ Action.readTreeReset tree :=
      fun b hb => h b (List.mem_cons_of_mem a hb)
    unfold execute
    split
    · rfl
    · next w' hw =>
      rw [ih w' hrest]
      cases a with
      | readTreeReset tree => exact absurd rfl (h _ List.mem_cons_self tree)
      | readTree tree =>
        obtain rfl := Option.some.inj hw
        rfl
      | _ =>
        simp only [perform] at hw
        obtain ⟨c, -, rfl⟩ := Option.map_eq_some_iff.mp hw
        rfl

/-- An installation writes the files of the candidate's working tree. -/
theorem execute_installActions_files {conv : Conversion β δ} {w w' : WorkingCopy β δ} {env : Env β}
    {retention : TransactionRetention} {t : Transaction β} {candidate : Candidate β}
    (h : w.execute conv (installActions env retention t candidate) = (w', true)) (p : Path) :
    w'.disk.files.get p =
      w.disk.rewriteEntry conv w.upToDate w.index candidate.workingTree p := by
  rw [← Disk.get_rewriteFiles]
  have hfinal : ∀ a ∈ Action.readTree candidate.indexTree ::
      Action.updateRef t.headRef candidate.realHead t.snapshot.head ::
        finalizeTransaction env retention { t with phase := .completed, completedAt := some env.now },
      ∀ tree, a ≠ Action.readTreeReset tree := by
    intro a ha tree heq
    subst heq
    rcases List.mem_cons.mp ha with ha | ha
    · cases ha
    · rcases List.mem_cons.mp ha with ha | ha
      · cases ha
      · exact finalizeTransaction_bookkeeping env retention _ _ ha
  have hfiles := execute_files conv { w with
    transactions := Function.update w.transactions t.id (some { t with phase := .installing })
    index := candidate.workingTree, unmerged := false
    upToDate := fun p => decide (p ∈ candidate.workingTree.keys)
    disk := w.disk.rewrite conv w.upToDate w.index candidate.workingTree } hfinal
  have hrun : (w.execute conv (installActions env retention t candidate)).1 = w' :=
    congrArg Prod.fst h
  rw [← hrun]
  exact congrArg (fun files => files.get p) hfiles

end Files

section Lossless

variable [DecidableEq β] {conv : Conversion β δ} {w : WorkingCopy β δ}

/-- Where the index has a file's stat data, its entry is what Git would store of the file. -/
def Accurate (conv : Conversion β δ) (w : WorkingCopy β δ) : Prop :=
  ∀ p d, w.upToDate p = true → w.disk.files.get p = some d → w.index.get p = some (conv.clean p d)

theorem rewriteEntry_clean (hconv : conv.Lossless) (hw : w.Accurate conv) (tree : Tree β)
    (p : Path) : (w.disk.rewriteEntry conv w.upToDate w.index tree p).map (conv.clean p) =
      (w.disk.clean conv).checkoutEntry w.index tree p := by
  by_cases ht : p ∈ tree.keys
  · rw [Disk.rewriteEntry_of_mem _ _ ht, Disk.checkoutEntry_of_mem _ _ ht]
    split
    · next hkept =>
      obtain ⟨hfresh, hindex, hfile⟩ := hkept
      obtain ⟨d, hd⟩ := Option.isSome_iff_exists.mp hfile
      rw [hd, Option.map_some, ← hindex, hw p d hfresh hd]
    · obtain ⟨b, hb⟩ := Option.ne_none_iff_exists'.mp ((tree.mem_keys p).mp ht)
      rw [hb, Option.map_some, Option.map_some, hconv p b]
  · unfold Disk.rewriteEntry Disk.checkoutEntry
    rw [if_neg ht, if_neg ht]
    split
    · rfl
    · rfl

/-- Where the conversions lose nothing, a checkout reads as one of blobs. -/
theorem rewrite_clean (hconv : conv.Lossless) (hw : w.Accurate conv) (tree : Tree β) :
    (w.disk.rewrite conv w.upToDate w.index tree).clean conv =
      (w.disk.clean conv).checkout w.index tree := by
  refine Disk.ext_of (PathTree.ext fun p => ?_) rfl rfl
  rw [Disk.get_clean]
  show ((w.disk.rewriteFiles conv w.upToDate w.index tree).get p).map (conv.clean p) =
    ((w.disk.clean conv).checkoutFiles w.index tree).get p
  rw [Disk.get_rewriteFiles, Disk.get_checkoutFiles, rewriteEntry_clean hconv hw]

theorem view_perform (hconv : conv.Lossless) (hw : w.Accurate conv) (a : Action β) :
    (w.perform conv a).map (view conv) = (w.view conv).perform a ∧
      ∀ w', w.perform conv a = some w' → w'.Accurate conv := by
  cases a with
  | readTreeReset tree =>
    refine ⟨?_, fun w' hw' p d hfresh hd => ?_⟩
    · simp only [perform, Option.map_some, view, rewrite_clean hconv hw]
      rfl
    · obtain rfl := Option.some.inj hw'
      have hentry := rewriteEntry_clean hconv hw tree p
      rw [← Disk.get_rewriteFiles, show (w.disk.rewriteFiles conv w.upToDate w.index tree).get p =
        some d from hd, Disk.checkoutEntry_of_mem _ _ (of_decide_eq_true hfresh)] at hentry
      exact hentry.symm
  | readTree tree =>
    refine ⟨rfl, fun w' hw' p d hfresh => ?_⟩
    obtain rfl := Option.some.inj hw'
    cases hfresh
  | updateRef branch new old =>
    simp only [perform, Checkout.perform, Repository.updateRef]
    split
    · refine ⟨rfl, fun w' hw' => ?_⟩
      obtain rfl := Option.some.inj hw'
      exact hw
    · exact ⟨rfl, fun w' hw' => by cases hw'⟩
  | _ =>
    refine ⟨rfl, fun w' hw' => ?_⟩
    obtain rfl := Option.some.inj hw'
    exact hw

theorem view_execute (hconv : conv.Lossless) (hw : w.Accurate conv) (as : List (Action β)) :
    (w.view conv).execute as = ((w.execute conv as).1.view conv, (w.execute conv as).2) := by
  induction as generalizing w with
  | nil => rfl
  | cons a as ih =>
    obtain ⟨hview, haccurate⟩ := view_perform hconv hw a
    rw [Checkout.execute, execute, ← hview]
    cases hperform : w.perform conv a with
    | none => rfl
    | some w' => exact ih (haccurate w' hperform)

/-- Where the conversions lose nothing and the index is accurate, an installation is the
one over blobs, on what Git reads. -/
theorem view_installPreparedReconciliation (hconv : conv.Lossless) (hw : w.Accurate conv)
    (env : Env β) (retention : TransactionRetention) (prepared : PreparedReconciliation β) :
    (w.view conv).installPreparedReconciliation env retention prepared =
      ((w.installPreparedReconciliation conv env retention prepared).1.view conv,
        (w.installPreparedReconciliation conv env retention prepared).2) := by
  have hrun := view_execute hconv hw
  cases prepared with
  | complete result => rfl
  | ready t =>
    unfold installPreparedReconciliation Checkout.installPreparedReconciliation
      Checkout.installPreparedBy Checkout.installCandidateBy
    dsimp only
    cases t.candidate with
    | none => rfl
    | some candidate =>
      dsimp only
      cases captureWorkspace (w.view conv).repo with
      | none => rfl
      | some latest =>
        dsimp only
        by_cases hlatest : latest ≠ t.snapshot
        · simp only [if_pos hlatest, hrun]
          rfl
        · simp only [if_neg hlatest]
          cases findUntrackedCollisions env.pathspecs (w.view conv).repo
              (treePaths candidate.workingTree) with
          | none => rfl
          | some collisions =>
            dsimp only
            by_cases hempty : collisions ≠ ∅
            · simp only [if_pos hempty, hrun]
              rfl
            · simp only [if_neg hempty, hrun]
              cases (w.execute conv (installActions env retention t candidate)).2 with
              | false => rfl
              | true => rfl

end Lossless

end WorkingCopy

end Resync
