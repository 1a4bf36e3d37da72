import Resync.GcTransactions
import Resync.Lib.Splitting

/-! `persist_debug_transaction` and `prune_debug_history` (`transaction.rs`) on the files of the
transactions directory: a record is written, and the latest others are kept as far as they fit.
The files may be anything, and every command and file access behind the write may fail. -/
namespace Resync

namespace DebugHistory

open Gc (Record File World)

variable {γ P ρ σ : Type}

/-- A record that is kept for the history only. -/
def historical (r : Record P ρ) : Bool := r.phase != "INSTALLING" && r.phase != "CONFLICTED"

/-- How records are read from what lies at a path, a file or a directory, and how they are
written. The ID of a record is in the part that the collector only copies. -/
structure Format (γ P ρ : Type) where
  read : γ → FileContents (Record P ρ)
  length : γ → ℕ
  /-- Whether `fs::metadata` gives the length. -/
  measured : γ → Bool
  idOf : ρ → String
  write : Record P ρ → γ
  read_write : ∀ r, read (write r) = .record r

/-- What the file accesses and the commands of Git answer. -/
structure Access (γ P σ : Type) where
  /-- Whether `read_dir` opens the directory. -/
  opens : Bool
  /-- Whether it gives every entry without an error. -/
  complete : Bool
  order : List (File γ) → List (File γ)
  perm : ∀ files, (order files).Perm files
  /-- The file to which the path in a record leads. -/
  locate : String → String
  /-- Whether `remove_file` at a file finds nothing or removes it. -/
  removes : String → Bool
  /-- The refs that belong to a path, if Git finds a repository there. -/
  storeOf : P → Option σ
  /-- Whether `update-ref -d` succeeds on a ref. -/
  deletes : σ → String → Bool

/-- A record with the file in which it has been found. -/
structure Found (γ P ρ : Type) where
  file : File γ
  record : Record P ρ

/-- What `delete_recovery_refs` deletes. -/
def artifactRefs (r : Record P ρ) : List String :=
  ["head", "index", "working", "candidate"].map fun suffix => r.recoveryRef ++ "/" ++ suffix

namespace Format

variable (format : Format γ P ρ)

def entryOf (file : File γ) : DirectoryEntry (Found γ P ρ) :=
  .json (match format.read file.contents with
    | .unreadable => .unreadable
    | .unparsable => .unparsable
    | .record r => .record ⟨file, r⟩)

def found (file : File γ) : Option (Found γ P ρ) :=
  match format.read file.contents with
  | .record r => some ⟨file, r⟩
  | _ => none

def lengthOf (found : Found γ P ρ) : ℕ := format.length found.file.contents

/-- `fs::metadata`. -/
def measure (found : Found γ P ρ) : Option ℕ :=
  if format.measured found.file.contents then some (format.lengthOf found) else none

/-- Whether the loops may come to remove a record. -/
def droppable (protectedId : Option String) (found : Found γ P ρ) : Bool :=
  historical found.record && protectedId != some (format.idOf found.record.rest)

/-- The records of a directory that are kept for the history only. -/
def historicalOf (files : List (File γ)) : List (Found γ P ρ) :=
  (files.filterMap format.found).filter fun found => historical found.record

end Format

section Operations

variable [DecidableEq σ] (a : Access γ P σ) (format : Format γ P ρ)

/-- The entries of the directory; it does not matter where an error comes. -/
def scan (w : World γ σ) : DirectoryScan (Found γ P ρ) :=
  if a.opens then
    some ((a.order w.files).map format.entryOf ++ if a.complete then [] else [.error])
  else none

/-- Whether one `update-ref -d` succeeds for a record. -/
def Access.deletesRef (r : Record P ρ) (reference : String) : Bool :=
  (a.storeOf r.projectPath).elim false fun store => a.deletes store reference

/-- The refs that `delete_recovery_refs` deletes, until a command fails. -/
def Access.deleted (r : Record P ρ) : List String := (artifactRefs r).takeWhile (a.deletesRef r)

/-- Whether `remove_transaction_artifacts` succeeds. -/
def Access.succeeds (r : Record P ρ) : Bool :=
  (artifactRefs r).all (a.deletesRef r) && a.removes (a.locate r.path)

omit [DecidableEq σ] in
theorem nodup_filter (w : World γ σ) (p : File γ → Bool) :
    ((w.files.filter p).map (·.path)).Nodup :=
  w.nodup.sublist (List.filter_sublist.map _)

/-- `remove_transaction_artifacts`, as far as it gets. -/
def removeArtifacts (w : World γ σ) (r : Record P ρ) : World γ σ where
  files := w.files.filter fun file => !(a.succeeds r && file.path == a.locate r.path)
  refs store := (w.refs store).filter fun reference =>
    !(a.storeOf r.projectPath == some store && (a.deleted r).contains reference)
  nodup := nodup_filter w _

/-- The removals one after the other, and whether all of them succeed. -/
def removeAll (w : World γ σ) : List (Record P ρ) → World γ σ × Bool
  | [] => (w, true)
  | r :: rs =>
    if a.succeeds r then removeAll (removeArtifacts a w r) rs else (removeArtifacts a w r, false)

def pruneDebugHistory (w : World γ σ) (protectedId : Option String) : World γ σ × Bool :=
  (passedOver (format.droppable protectedId) format.measure (·.record.createdAt)
    (if protectedId.isSome then 1 else 0) (scan a format w)).elim (w, false) fun found =>
      removeAll a w (found.map (·.record))

/-- `write_json`: the file at the path of the record is replaced as a whole. -/
def writeRecord (w : World γ σ) (t : Record P ρ) : World γ σ where
  files := ⟨a.locate t.path, format.write t⟩ ::
    w.files.filter fun file => file.path ≠ a.locate t.path
  refs := w.refs
  nodup := by
    rw [List.map_cons, List.nodup_cons]
    refine ⟨fun h => ?_, nodup_filter w _⟩
    obtain ⟨file, hfile, hpath⟩ := List.mem_map.mp h
    exact of_decide_eq_true (List.mem_filter.mp hfile).2 hpath

def persistDebugTransaction (w : World γ σ) (t : Record P ρ) : World γ σ × Bool :=
  pruneDebugHistory a format (writeRecord a format w t) (some (format.idOf t.rest))

end Operations

/-- What the files of a list, by their lengths, may take. -/
def WithinCaps (lengths : List ℕ) : Prop :=
  lengths.length ≤ debugHistoryMaxRecords ∧ lengths.sum ≤ debugHistoryMaxBytes

/-- What a persisted record is to leave of the directory `w`. Only the earlier record of the
same transaction may be replaced. -/
structure Bounded (a : Access γ P σ) (format : Format γ P ρ) (t : Record P ρ)
    (w final : World γ σ) : Prop where
  caps : WithinCaps ((format.historicalOf final.files).map format.lengthOf)
  own : historical t = true → (⟨a.locate t.path, format.write t⟩ : File γ) ∈ final.files
  spares : ∀ file ∈ w.files, ∀ r, format.read file.contents = .record r → historical r = false →
    (file.path = a.locate t.path ∧ format.idOf r.rest = format.idOf t.rest ∨
      file ∈ final.files) ∧
    ∀ store, a.storeOf r.projectPath = some store → ∀ reference ∈ artifactRefs r,
      reference ∈ w.refs store → reference ∈ final.refs store

section Condition

/-- The part of the history that the second loop keeps. -/
def retained {R : Type} (retainedCount retainedBytes : ℕ) : List (ℕ × R) → List (ℕ × R)
  | [] => []
  | (bytes, r) :: history =>
    if retainedCount < debugHistoryMaxRecords ∧ retainedBytes + bytes ≤ debugHistoryMaxBytes then
      (bytes, r) :: retained (retainedCount + 1) (retainedBytes + bytes) history
    else retained retainedCount retainedBytes history

variable [DecidableEq σ] (a : Access γ P σ) (format : Format γ P ρ) (t : Record P ρ)
  (w : World γ σ)

/-- The history behind the write, the latest records first. -/
def sortedHistory : List (ℕ × Found γ P ρ) :=
  ((((a.order (writeRecord a format w t).files).filterMap format.found).filter
    (format.droppable (some (format.idOf t.rest)))).map fun found =>
      (format.lengthOf found, found)).mergeSort fun left right =>
        decide (right.2.record.createdAt ≤ left.2.record.createdAt)

/-- Whether the first loop gets what it asks for at a file. -/
def readsFile (file : File γ) : Bool :=
  match format.read file.contents with
  | .unreadable => false
  | .unparsable => true
  | .record r => !format.droppable (some (format.idOf t.rest)) ⟨file, r⟩ ||
      format.measured file.contents

/-- Whether the first loop comes to its end. -/
def reads : Bool :=
  a.opens && a.complete && (writeRecord a format w t).files.all (readsFile format t)

/-- Nothing is in the way of the loops: every file is read, no other file holds the ID of the new
record, and what is passed over lies in the file that it names, can be removed, and shares no ref
with a record that is to stay. -/
structure Orderly : Prop where
  reads : reads a format t w = true
  alone : ∀ found ∈ format.historicalOf (writeRecord a format w t).files,
    format.idOf found.record.rest = format.idOf t.rest → found.file.path = a.locate t.path
  replaces : ∀ file ∈ w.files, ∀ r, format.read file.contents = .record r →
    historical r = false → file.path = a.locate t.path → format.idOf r.rest = format.idOf t.rest
  removes : ∀ found ∈ excess 1 0 (sortedHistory a format t w),
    a.locate found.record.path = found.file.path ∧ a.succeeds found.record = true
  refs : ∀ found ∈ excess 1 0 (sortedHistory a format t w), ∀ file ∈ w.files, ∀ r,
    format.read file.contents = .record r → historical r = false →
    ∀ store, a.storeOf r.projectPath = some store → a.storeOf found.record.projectPath = some store →
      ∀ reference ∈ artifactRefs r, reference ∉ artifactRefs found.record

/-- The lengths of the new record, if the caps are about it, and of those that are kept. -/
def keptLengths : List ℕ :=
  (if historical t then [format.length (format.write t)] else []) ++
    (retained 1 0 (sortedHistory a format t w)).map (·.1)

/-- The records of a list up to the first that cannot be removed. -/
def attempted : List (Record P ρ) → List (Record P ρ)
  | [] => []
  | r :: rs => r :: if a.succeeds r then attempted rs else []

/-- The records on which a removal is tried. -/
def attempts : List (Record P ρ) :=
  attempted a (if reads a format t w then
    (excess 1 0 (sortedHistory a format t w)).map (·.record) else [])

/-- Whether a record that is removed names this file. -/
def lost (path : String) : Bool :=
  (attempts a format t w).any fun r => a.succeeds r && path == a.locate r.path

/-- The records that are tried leave what is to stay, whatever files and refs they name: for the
directories in which something is in the way. -/
structure Spared : Prop where
  caps : WithinCaps (((format.historicalOf (writeRecord a format w t).files).filter fun found =>
    !lost a format t w found.file.path).map format.lengthOf)
  own : historical t = true → lost a format t w (a.locate t.path) = false
  files : ∀ file ∈ w.files, ∀ r, format.read file.contents = .record r → historical r = false →
    (file.path = a.locate t.path → format.idOf r.rest = format.idOf t.rest) ∧
    (file.path ≠ a.locate t.path → lost a format t w file.path = false)
  refs : ∀ file ∈ w.files, ∀ r, format.read file.contents = .record r → historical r = false →
    ∀ store, a.storeOf r.projectPath = some store → ∀ reference ∈ artifactRefs r,
      reference ∈ w.refs store → ∀ tried ∈ attempts a format t w,
        a.storeOf tried.projectPath = some store → reference ∉ a.deleted tried

/-- Where nothing is in the way, the new record and those that are kept take at most the cap. -/
def Fits : Prop :=
  (Orderly a format t w → (keptLengths a format t w).sum ≤ debugHistoryMaxBytes) ∧
    (¬ Orderly a format t w → Spared a format t w)

end Condition

section Loop

variable [DecidableEq σ] {a : Access γ P σ} {format : Format γ P ρ} {t : Record P ρ}
  {w : World γ σ}

theorem found_eq_some {file : File γ} {found : Found γ P ρ} :
    format.found file = some found ↔
      format.read file.contents = .record found.record ∧ found.file = file := by
  obtain ⟨file', r⟩ := found
  rw [Format.found]
  split
  · next r' hread =>
    rw [hread, Option.some.injEq, Found.mk.injEq, FileContents.record.injEq]
    exact ⟨fun h => ⟨h.2, h.1.symm⟩, fun h => ⟨h.2.symm, h.1⟩⟩
  · next hread =>
    exact iff_of_false (fun h => Option.some_ne_none _ h.symm) fun h => hread r h.1

theorem mem_historicalOf {files : List (File γ)} {found : Found γ P ρ} :
    found ∈ format.historicalOf files ↔ found.file ∈ files ∧
      format.read found.file.contents = .record found.record ∧ historical found.record = true := by
  rw [Format.historicalOf, List.mem_filter, List.mem_filterMap]
  constructor
  · rintro ⟨⟨file, hfile, hfound⟩, hphase⟩
    obtain ⟨hread, hsame⟩ := found_eq_some.mp hfound
    rw [hsame]
    exact ⟨hfile, hread, hphase⟩
  · rintro ⟨hfile, hread, hphase⟩
    exact ⟨⟨found.file, hfile, found_eq_some.mpr ⟨hread, rfl⟩⟩, hphase⟩

/-- The records that are found lie at different paths. -/
theorem nodup_found (format : Format γ P ρ) {files : List (File γ)}
    (h : (files.map (·.path)).Nodup) :
    ((files.filterMap format.found).map (·.file.path)).Nodup := by
  refine h.sublist ?_
  clear h
  induction files with
  | nil => exact List.Sublist.slnil
  | cons file files ih =>
    rw [List.filterMap_cons]
    split
    · exact ih.cons file.path
    · next found hfound =>
      rw [List.map_cons, (found_eq_some.mp hfound).2]
      exact ih.cons_cons file.path

theorem removeAll_files (a : Access γ P σ) (w : World γ σ) (rs : List (Record P ρ))
    (file : File γ) : file ∈ (removeAll a w rs).1.files ↔ file ∈ w.files ∧
      ∀ r ∈ attempted a rs, a.succeeds r = true → file.path ≠ a.locate r.path := by
  induction rs generalizing w with
  | nil => exact ⟨fun h => ⟨h, fun r hr => by cases hr⟩, fun h => h.1⟩
  | cons r rs ih =>
    have hone : file ∈ (removeArtifacts a w r).files ↔ file ∈ w.files ∧
        (a.succeeds r = true → file.path ≠ a.locate r.path) := by
      rw [removeArtifacts, List.mem_filter, Bool.not_eq_true', Bool.and_eq_false_imp,
        beq_eq_false_iff_ne]
    rw [removeAll, attempted, List.forall_mem_cons, ← and_assoc, ← hone]
    split
    · exact ih (removeArtifacts a w r)
    · exact ⟨fun h => ⟨h, fun r hr => by cases hr⟩, fun h => h.1⟩

theorem removeAll_refs (a : Access γ P σ) (w : World γ σ) (rs : List (Record P ρ))
    (store : σ) (reference : String) : reference ∈ (removeAll a w rs).1.refs store ↔
      reference ∈ w.refs store ∧ ∀ r ∈ attempted a rs, a.storeOf r.projectPath = some store →
        reference ∉ a.deleted r := by
  induction rs generalizing w with
  | nil => exact ⟨fun h => ⟨h, fun r hr => by cases hr⟩, fun h => h.1⟩
  | cons r rs ih =>
    have hone : reference ∈ (removeArtifacts a w r).refs store ↔ reference ∈ w.refs store ∧
        (a.storeOf r.projectPath = some store → reference ∉ a.deleted r) := by
      rw [removeArtifacts, List.mem_filter, Bool.not_eq_true', Bool.and_eq_false_imp, beq_iff_eq,
        ← Bool.not_eq_true, List.contains_iff_mem]
    rw [removeAll, attempted, List.forall_mem_cons, ← and_assoc, ← hone]
    split
    · exact ih (removeArtifacts a w r)
    · exact ⟨fun h => ⟨h, fun r hr => by cases hr⟩, fun h => h.1⟩

/-- The first loop, over the files that `read_dir` gives. -/
theorem historyOf_entries {files : List (File γ)} (h : files.all (readsFile format t) = true) :
    historyOf (format.droppable (some (format.idOf t.rest))) format.measure
        (files.map format.entryOf) =
      some (((files.filterMap format.found).filter
        (format.droppable (some (format.idOf t.rest)))).map fun found =>
          (format.lengthOf found, found)) := by
  induction files with
  | nil => rfl
  | cons file files ih =>
    rw [List.all_cons, Bool.and_eq_true] at h
    obtain ⟨hfile, hfiles⟩ := h
    have hrest := ih hfiles
    rw [readsFile] at hfile
    cases hread : format.read file.contents with
    | unreadable =>
      rw [hread] at hfile
      cases hfile
    | unparsable =>
      have hfound : format.found file = none := by rw [Format.found, hread]
      rw [List.map_cons, Format.entryOf, hread, historyOf, hrest, List.filterMap_cons_none hfound]
    | record r =>
      have hfound : format.found file = some ⟨file, r⟩ := found_eq_some.mpr ⟨hread, rfl⟩
      rw [hread] at hfile
      rw [List.map_cons, Format.entryOf, hread, historyOf, hrest, List.filterMap_cons_some hfound,
        List.filter_cons]
      split
      · next hdroppable =>
        have hmeasured : format.measured file.contents = true := by
          simpa only [hdroppable, Bool.not_true, Bool.false_or] using hfile
        rw [Format.measure, if_pos hmeasured]
        rfl
      · rfl

/-- An entry that cannot be read ends the first loop. -/
theorem historyOf_fails {R : Type} (droppable : R → Bool) (bytes : R → Option ℕ)
    {entries : List (DirectoryEntry R)} {entry : DirectoryEntry R} (hentry : entry ∈ entries)
    (hfails : ∀ rest, historyOf droppable bytes (entry :: rest) = none) :
    historyOf droppable bytes entries = none := by
  induction entries with
  | nil => cases hentry
  | cons first entries ih =>
    rcases List.mem_cons.mp hentry with rfl | hentry
    · exact hfails entries
    · have hrest := ih hentry
      cases first with
      | error => rfl
      | other => exact hrest
      | json contents =>
        cases contents with
        | unreadable => rfl
        | unparsable => exact hrest
        | record r =>
          rw [historyOf, hrest]
          split
          · cases bytes r with
            | none => rfl
            | some length => rfl
          · rfl

end Loop

section Persist

variable [DecidableEq σ] (a : Access γ P σ) (format : Format γ P ρ) (t : Record P ρ)
  (w : World γ σ)

omit [DecidableEq σ] in
theorem passedOver_of_reads (h : reads a format t w = true) :
    passedOver (format.droppable (some (format.idOf t.rest))) format.measure
      (·.record.createdAt) 1 (scan a format (writeRecord a format w t)) =
      some (excess 1 0 (sortedHistory a format t w)) := by
  rw [reads, Bool.and_eq_true, Bool.and_eq_true] at h
  have hall : (a.order (writeRecord a format w t).files).all (readsFile format t) = true := by
    rw [List.all_eq_true] at h ⊢
    exact fun file hfile => h.2 file ((a.perm _).subset hfile)
  rw [scan, if_pos h.1.1, if_pos h.1.2, List.append_nil, passedOver]
  rw [historyOf_entries hall]
  rfl

omit [DecidableEq σ] in
/-- Where something is not read, nothing is removed. -/
theorem passedOver_of_not_reads (h : ¬ reads a format t w = true) :
    passedOver (format.droppable (some (format.idOf t.rest))) format.measure
        (·.record.createdAt) 1 (scan a format (writeRecord a format w t)) = none ∨
      passedOver (format.droppable (some (format.idOf t.rest))) format.measure
        (·.record.createdAt) 1 (scan a format (writeRecord a format w t)) = some [] := by
  by_cases hopens : a.opens = true
  · rw [scan, if_pos hopens, passedOver]
    refine Or.inl (Option.map_eq_none_iff.mpr ?_)
    by_cases hcomplete : a.complete = true
    · -- some file is not read as it is asked for
      rw [if_pos hcomplete, List.append_nil]
      rw [reads, hopens, hcomplete, Bool.true_and, Bool.true_and, List.all_eq_true] at h
      push Not at h
      obtain ⟨file, hfile, hfails⟩ := h
      refine historyOf_fails _ _
        (List.mem_map_of_mem ((a.perm _).symm.subset hfile)) fun rest => ?_
      rw [readsFile] at hfails
      rw [Format.entryOf]
      cases hread : format.read file.contents with
      | unreadable => rfl
      | unparsable =>
        rw [hread] at hfails
        exact absurd rfl hfails
      | record r =>
        rw [hread] at hfails
        simp only [ne_eq, Bool.or_eq_true, Bool.not_eq_true', not_or, Bool.not_eq_false] at hfails
        simp only [historyOf, hfails.1, Format.measure, hfails.2, if_true]
        rfl
    · rw [if_neg hcomplete]
      exact historyOf_fails _ _ (List.mem_append_right _ List.mem_cons_self) fun rest => rfl
  · rw [scan, if_neg hopens]
    exact Or.inr rfl

/-- What a persisted record leaves, by the removals that are tried. -/
theorem persist_world :
    ∃ rs, attempts a format t w = attempted a rs ∧
      (persistDebugTransaction a format w t).1 =
        (removeAll a (writeRecord a format w t) rs).1 := by
  by_cases hreads : reads a format t w = true
  · refine ⟨(excess 1 0 (sortedHistory a format t w)).map (·.record), ?_, ?_⟩
    · rw [attempts, if_pos hreads]
    · rw [persistDebugTransaction, pruneDebugHistory, Option.isSome_some, if_pos rfl,
        passedOver_of_reads a format t w hreads]
      rfl
  · refine ⟨[], ?_, ?_⟩
    · rw [attempts, if_neg hreads]
    · rw [persistDebugTransaction, pruneDebugHistory, Option.isSome_some, if_pos rfl]
      rcases passedOver_of_not_reads a format t w hreads with hnone | hsome
      · rw [hnone]
        rfl
      · rw [hsome]
        rfl

theorem mem_persist_files (file : File γ) :
    file ∈ (persistDebugTransaction a format w t).1.files ↔
      file ∈ (writeRecord a format w t).files ∧ lost a format t w file.path = false := by
  obtain ⟨rs, hattempts, hworld⟩ := persist_world a format t w
  rw [hworld, removeAll_files, lost, hattempts, List.any_eq_false]
  simp only [Bool.and_eq_true, beq_iff_eq, not_and, ne_eq]

theorem mem_persist_refs (store : σ) (reference : String) :
    reference ∈ (persistDebugTransaction a format w t).1.refs store ↔
      reference ∈ w.refs store ∧ ∀ tried ∈ attempts a format t w,
        a.storeOf tried.projectPath = some store → reference ∉ a.deleted tried := by
  obtain ⟨rs, hattempts, hworld⟩ := persist_world a format t w
  rw [hworld, removeAll_refs, hattempts]
  rfl

omit [DecidableEq σ] in
theorem mem_writeRecord {file : File γ} :
    file ∈ (writeRecord a format w t).files ↔
      file = ⟨a.locate t.path, format.write t⟩ ∨ file ∈ w.files ∧ file.path ≠ a.locate t.path := by
  rw [writeRecord, List.mem_cons, List.mem_filter, decide_eq_true_eq]

/-- The files that are lost are gone from the directory, and no other ones. -/
theorem historicalOf_persist :
    ((format.historicalOf (persistDebugTransaction a format w t).1.files).map format.lengthOf).Perm
      (((format.historicalOf (writeRecord a format w t).files).filter fun found =>
        !lost a format t w found.file.path).map format.lengthOf) := by
  apply List.Perm.map
  have hnodup (files : List (File γ)) (h : (files.map (·.path)).Nodup) :
      (format.historicalOf files).Nodup :=
    List.Nodup.of_map (·.file.path) ((nodup_found format h).sublist (List.filter_sublist.map _))
  refine (List.perm_ext_iff_of_nodup (hnodup _ (persistDebugTransaction a format w t).1.nodup)
    ((hnodup _ (writeRecord a format w t).nodup).filter _)).mpr fun found => ?_
  rw [List.mem_filter, mem_historicalOf, mem_historicalOf, mem_persist_files, Bool.not_eq_true']
  tauto

omit [DecidableEq σ] in
theorem withinCaps_perm {lengths others : List ℕ} (h : lengths.Perm others) :
    WithinCaps lengths ↔ WithinCaps others := by
  rw [WithinCaps, WithinCaps, h.length_eq, h.sum_eq]

/-- What is left is bounded where the removals spare what is to stay. -/
theorem bounded_iff_spared :
    Bounded a format t w (persistDebugTransaction a format w t).1 ↔ Spared a format t w := by
  constructor
  · intro h
    refine ⟨(withinCaps_perm (historicalOf_persist a format t w)).mp h.caps, fun hown => ?_,
      fun file hfile r hread hphase => ?_, fun file hfile r hread hphase store hstore reference
        hreference href => ?_⟩
    · exact ((mem_persist_files a format t w _).mp (h.own hown)).2
    · constructor
      · intro hpath
        rcases (h.spares file hfile r hread hphase).1 with hsame | hleft
        · exact hsame.2
        · rcases (mem_writeRecord a format t w).mp ((mem_persist_files a format t w _).mp hleft).1
            with rfl | hother
          · rw [format.read_write] at hread
            cases hread
            rfl
          · exact absurd hpath hother.2
      · intro hpath
        rcases (h.spares file hfile r hread hphase).1 with hsame | hleft
        · exact absurd hsame.1 hpath
        · exact ((mem_persist_files a format t w _).mp hleft).2
    · have hleft := (h.spares file hfile r hread hphase).2 store hstore reference hreference href
      exact ((mem_persist_refs a format t w store reference).mp hleft).2
  · intro h
    refine ⟨(withinCaps_perm (historicalOf_persist a format t w)).mpr h.caps, fun hown => ?_,
      fun file hfile r hread hphase => ⟨?_, fun store hstore reference hreference href => ?_⟩⟩
    · exact (mem_persist_files a format t w _).mpr
        ⟨(mem_writeRecord a format t w).mpr (Or.inl rfl), h.own hown⟩
    · obtain ⟨hsame, hother⟩ := h.files file hfile r hread hphase
      by_cases hpath : file.path = a.locate t.path
      · exact Or.inl ⟨hpath, hsame hpath⟩
      · exact Or.inr ((mem_persist_files a format t w _).mpr
          ⟨(mem_writeRecord a format t w).mpr (Or.inr ⟨hfile, hpath⟩), hother hpath⟩)
    · exact (mem_persist_refs a format t w store reference).mpr
        ⟨href, h.refs file hfile r hread hphase store hstore reference hreference href⟩

end Persist

section Retained

variable {R : Type}

/-- The second loop keeps what it does not pass over. -/
theorem retained_excess_perm (count bytes : ℕ) (history : List (ℕ × R)) :
    ((retained count bytes history).map (·.2) ++ excess count bytes history).Perm
      (history.map (·.2)) := by
  induction history generalizing count bytes with
  | nil => exact List.Perm.refl _
  | cons entry history ih =>
    rw [retained, excess, List.map_cons]
    split
    · rw [List.map_cons, List.cons_append]
      exact (ih _ _).cons entry.2
    · exact List.perm_middle.trans ((ih _ _).cons entry.2)

theorem retained_sublist (count bytes : ℕ) (history : List (ℕ × R)) :
    (retained count bytes history).Sublist history := by
  induction history generalizing count bytes with
  | nil => exact List.Sublist.slnil
  | cons entry history ih =>
    rw [retained]
    split
    · exact (ih _ _).cons_cons entry
    · exact (ih _ _).cons entry

/-- With the records that are counted before, the loop keeps no more than the cap. -/
theorem retained_length {count : ℕ} (hcount : count ≤ debugHistoryMaxRecords) (bytes : ℕ)
    (history : List (ℕ × R)) :
    count + (retained count bytes history).length ≤ debugHistoryMaxRecords := by
  induction history generalizing count bytes with
  | nil => exact hcount
  | cons entry history ih =>
    rw [retained]
    split
    · next hfits =>
      have hrest := ih (Nat.succ_le_of_lt hfits.1) (bytes + entry.1)
      rw [List.length_cons, Nat.add_comm _ 1, ← Nat.add_assoc]
      exact hrest
    · exact ih hcount bytes

end Retained

section Orderly

variable [DecidableEq σ] {a : Access γ P σ} {format : Format γ P ρ} {t : Record P ρ}
  {w : World γ σ}

omit [DecidableEq σ] in
theorem mem_sortedHistory {entry : ℕ × Found γ P ρ} :
    entry ∈ sortedHistory a format t w ↔ entry.1 = format.lengthOf entry.2 ∧
      entry.2 ∈ format.historicalOf (writeRecord a format w t).files ∧
      format.idOf t.rest ≠ format.idOf entry.2.record.rest := by
  have hperm := (a.perm (writeRecord a format w t).files).filterMap format.found
  rw [sortedHistory, List.mem_mergeSort, List.mem_map]
  constructor
  · rintro ⟨found, hfound, rfl⟩
    obtain ⟨hmem, hdroppable⟩ := List.mem_filter.mp hfound
    rw [Format.droppable, Bool.and_eq_true, bne_iff_ne] at hdroppable
    exact ⟨rfl, List.mem_filter.mpr ⟨hperm.subset hmem, hdroppable.1⟩,
      fun he => hdroppable.2 (congrArg some he)⟩
  · rintro ⟨hlength, hmem, hid⟩
    obtain ⟨hmem, hphase⟩ := List.mem_filter.mp hmem
    refine ⟨entry.2, List.mem_filter.mpr ⟨hperm.symm.subset hmem, ?_⟩, by rw [← hlength]⟩
    rw [Format.droppable, hphase, Bool.true_and, bne_iff_ne]
    exact fun he => hid (Option.some.inj he)

omit [DecidableEq σ] in
/-- The records of the history lie at different paths. -/
theorem nodup_sortedHistory (a : Access γ P σ) (format : Format γ P ρ) (t : Record P ρ)
    (w : World γ σ) :
    (((sortedHistory a format t w).map (·.2)).map (·.file.path)).Nodup := by
  have hperm := (List.mergeSort_perm
    ((((a.order (writeRecord a format w t).files).filterMap format.found).filter
      (format.droppable (some (format.idOf t.rest)))).map fun found =>
        (format.lengthOf found, found)) fun left right =>
          decide (right.2.record.createdAt ≤ left.2.record.createdAt)).map (·.2)
  rw [List.map_map] at hperm
  have hnodup := nodup_found format (((a.perm _).map (·.path)).nodup_iff.mpr
    (writeRecord a format w t).nodup)
  refine ((hperm.map (·.file.path)).nodup_iff).mpr (hnodup.sublist ?_)
  rw [List.map_map]
  exact List.filter_sublist.map fun found : Found γ P ρ => found.file.path

omit [DecidableEq σ] in
theorem attempted_of_succeeds {rs : List (Record P ρ)}
    (h : ∀ r ∈ rs, a.succeeds r = true) : attempted a rs = rs := by
  induction rs with
  | nil => rfl
  | cons r rs ih =>
    rw [attempted, if_pos (h r List.mem_cons_self),
      ih fun other hother => h other (List.mem_cons_of_mem _ hother)]

omit [DecidableEq σ] in
theorem Orderly.attempts_eq (h : Orderly a format t w) :
    attempts a format t w = (excess 1 0 (sortedHistory a format t w)).map (·.record) := by
  rw [attempts, if_pos h.reads]
  apply attempted_of_succeeds
  intro r hr
  obtain ⟨found, hfound, rfl⟩ := List.mem_map.mp hr
  exact (h.removes found hfound).2

omit [DecidableEq σ] in
/-- Where nothing is in the way, what is passed over is lost, and nothing else. -/
theorem Orderly.lost_iff (h : Orderly a format t w) (path : String) :
    lost a format t w path = true ↔
      ∃ found ∈ excess 1 0 (sortedHistory a format t w), found.file.path = path := by
  rw [lost, h.attempts_eq, List.any_eq_true]
  constructor
  · rintro ⟨r, hr, hlost⟩
    obtain ⟨found, hfound, rfl⟩ := List.mem_map.mp hr
    rw [Bool.and_eq_true, beq_iff_eq, (h.removes found hfound).1] at hlost
    exact ⟨found, hfound, hlost.2.symm⟩
  · rintro ⟨found, hfound, rfl⟩
    obtain ⟨hlocate, hsucceeds⟩ := h.removes found hfound
    refine ⟨found.record, List.mem_map_of_mem hfound, ?_⟩
    rw [hsucceeds, hlocate, beq_self_eq_true, Bool.and_self]

omit [DecidableEq σ] in
/-- What is passed over is found behind the write, is kept for the history only, and has another
ID than the new record. -/
theorem mem_excess {found : Found γ P ρ} (h : found ∈ excess 1 0 (sortedHistory a format t w)) :
    found ∈ format.historicalOf (writeRecord a format w t).files ∧
      format.idOf t.rest ≠ format.idOf found.record.rest := by
  obtain ⟨entry, hentry, rfl⟩ := List.mem_map.mp ((excess_sublist _ _ _).subset h)
  exact (mem_sortedHistory.mp hentry).2

omit [DecidableEq σ] in
/-- What is left, where nothing is in the way: the new record and what is kept. -/
theorem Orderly.left_perm (h : Orderly a format t w) :
    (((format.historicalOf (writeRecord a format w t).files).filter fun found =>
      !lost a format t w found.file.path).map format.lengthOf).Perm
        (keptLengths a format t w) := by
  set kept := (retained 1 0 (sortedHistory a format t w)).map (·.2) with hkept
  set own : List (Found γ P ρ) :=
    if historical t then [⟨⟨a.locate t.path, format.write t⟩, t⟩] else [] with hown
  have hnodupHistory := nodup_sortedHistory a format t w
  have hperm := retained_excess_perm 1 0 (sortedHistory a format t w)
  have hparts := ((hperm.map (·.file.path)).nodup_iff).mpr hnodupHistory
  rw [List.map_append, List.nodup_append] at hparts
  -- the new record, in its file
  have hthere : (⟨a.locate t.path, format.write t⟩ : File γ) ∈ (writeRecord a format w t).files :=
    List.mem_cons_self
  have hself {found : Found γ P ρ}
      (hfound : found ∈ format.historicalOf (writeRecord a format w t).files)
      (hpath : found.file.path = a.locate t.path) :
      found = ⟨⟨a.locate t.path, format.write t⟩, t⟩ := by
    obtain ⟨hmem, hread, -⟩ := mem_historicalOf.mp hfound
    have hfile : found.file = ⟨a.locate t.path, format.write t⟩ :=
      List.inj_on_of_nodup_map (writeRecord a format w t).nodup hmem hthere hpath
    rw [hfile, format.read_write] at hread
    obtain ⟨file, r⟩ := found
    cases hread
    rw [Found.mk.injEq]
    exact ⟨hfile, rfl⟩
  have hlengths : keptLengths a format t w = (own ++ kept).map format.lengthOf := by
    rw [keptLengths, List.map_append, hown, hkept, List.map_map]
    congr 1
    · split
      · rfl
      · rfl
    · apply List.map_congr_left
      intro entry hentry
      exact (mem_sortedHistory.mp ((retained_sublist _ _ _).subset hentry)).1
  rw [hlengths]
  apply List.Perm.map
  have hownMem {found : Found γ P ρ} (hfound : found ∈ own) :
      historical t = true ∧ found = ⟨⟨a.locate t.path, format.write t⟩, t⟩ := by
    rw [hown] at hfound
    split at hfound
    · next hphase => exact ⟨hphase, List.mem_singleton.mp hfound⟩
    · cases hfound
  have hkeptMem {found : Found γ P ρ} (hfound : found ∈ kept) :
      found ∈ format.historicalOf (writeRecord a format w t).files ∧
        format.idOf t.rest ≠ format.idOf found.record.rest := by
    obtain ⟨entry, hentry, rfl⟩ := List.mem_map.mp hfound
    exact (mem_sortedHistory.mp ((retained_sublist _ _ _).subset hentry)).2
  have hnodupLeft : ((format.historicalOf (writeRecord a format w t).files).filter fun found =>
      !lost a format t w found.file.path).Nodup :=
    (List.Nodup.of_map (·.file.path) ((nodup_found format
      (writeRecord a format w t).nodup).sublist (List.filter_sublist.map _))).filter _
  have hnodupRight : (own ++ kept).Nodup := by
    refine List.nodup_append.mpr ⟨?_, List.Nodup.of_map _ hparts.1, fun x hx y hy he => ?_⟩
    · rw [hown]
      split
      · exact List.nodup_singleton _
      · exact List.nodup_nil
    · have hid := (hkeptMem hy).2
      rw [← he, (hownMem hx).2] at hid
      exact hid rfl
  refine (List.perm_ext_iff_of_nodup hnodupLeft hnodupRight).mpr fun found => ?_
  rw [List.mem_filter, List.mem_append, Bool.not_eq_true', ← Bool.not_eq_true, h.lost_iff]
  constructor
  · rintro ⟨hfound, hstays⟩
    by_cases hid : format.idOf t.rest = format.idOf found.record.rest
    · have hsame := hself hfound (h.alone found hfound hid.symm)
      refine Or.inl ?_
      rw [hown, if_pos]
      · exact List.mem_singleton.mpr hsame
      · rw [hsame] at hfound
        exact (mem_historicalOf.mp hfound).2.2
    · have hmem : found ∈ (sortedHistory a format t w).map (·.2) :=
        List.mem_map.mpr ⟨(format.lengthOf found, found),
          mem_sortedHistory.mpr ⟨rfl, hfound, hid⟩, rfl⟩
      rcases List.mem_append.mp (hperm.symm.subset hmem) with hin | hout
      · exact Or.inr hin
      · exact absurd ⟨found, hout, rfl⟩ hstays
  · rintro (hin | hin)
    · obtain ⟨hphase, rfl⟩ := hownMem hin
      have hfound : (⟨⟨a.locate t.path, format.write t⟩, t⟩ : Found γ P ρ) ∈
          format.historicalOf (writeRecord a format w t).files :=
        mem_historicalOf.mpr ⟨hthere, format.read_write t, hphase⟩
      refine ⟨hfound, ?_⟩
      rintro ⟨other, hother, hpath⟩
      obtain ⟨hmem, hid⟩ := mem_excess hother
      rw [hself hmem hpath] at hid
      exact hid rfl
    · refine ⟨(hkeptMem hin).1, ?_⟩
      rintro ⟨other, hother, hpath⟩
      exact hparts.2.2 _ (List.mem_map_of_mem hin) _ (List.mem_map_of_mem hother) hpath.symm

omit [DecidableEq σ] in
/-- Where nothing is in the way, only the bytes of the new record can be too many. -/
theorem Orderly.spared_iff (h : Orderly a format t w) :
    Spared a format t w ↔ (keptLengths a format t w).sum ≤ debugHistoryMaxBytes := by
  have hcount : (keptLengths a format t w).length ≤ debugHistoryMaxRecords := by
    have hone : 1 ≤ debugHistoryMaxRecords := by decide
    have hkept := retained_length hone 0 (sortedHistory a format t w)
    rw [keptLengths, List.length_append, List.length_map]
    split
    · exact hkept
    · exact (Nat.add_le_add_right (Nat.zero_le 1) _).trans hkept
  constructor
  · exact fun hspared => ((withinCaps_perm h.left_perm).mp hspared.caps).2
  · intro hbytes
    refine ⟨(withinCaps_perm h.left_perm).mpr ⟨hcount, hbytes⟩, fun hown => ?_,
      fun file hfile r hread hphase => ⟨h.replaces file hfile r hread hphase, fun hpath => ?_⟩,
      fun file hfile r hread hphase store hstore reference hreference _ tried htried hown => ?_⟩
    · rw [← Bool.not_eq_true, h.lost_iff]
      rintro ⟨found, hfound, hpath⟩
      obtain ⟨hmem, hid⟩ := mem_excess hfound
      obtain ⟨hfile, hread, -⟩ := mem_historicalOf.mp hmem
      have hsame : found.file = ⟨a.locate t.path, format.write t⟩ :=
        List.inj_on_of_nodup_map (writeRecord a format w t).nodup hfile List.mem_cons_self hpath
      rw [hsame, format.read_write] at hread
      cases hread
      exact hid rfl
    · rw [← Bool.not_eq_true, h.lost_iff]
      rintro ⟨found, hfound, hfoundPath⟩
      obtain ⟨hfoundFile, hfoundRead, hfoundPhase⟩ := mem_historicalOf.mp (mem_excess hfound).1
      have hbehind : file ∈ (writeRecord a format w t).files :=
        (mem_writeRecord a format t w).mpr (Or.inr ⟨hfile, hpath⟩)
      have hsame : found.file = file := List.inj_on_of_nodup_map
        (writeRecord a format w t).nodup hfoundFile hbehind hfoundPath
      rw [hsame, hread] at hfoundRead
      cases hfoundRead
      rw [hphase] at hfoundPhase
      cases hfoundPhase
    · rw [h.attempts_eq] at htried
      obtain ⟨found, hfound, rfl⟩ := List.mem_map.mp htried
      exact fun hdeleted => h.refs found hfound file hfile r hread hphase store hstore hown
        reference hreference ((List.takeWhile_sublist _).subset hdeleted)

end Orderly

section Naming

/-- The file that a new transaction names. -/
def recordPath (root id : String) : String := root ++ "/" ++ id ++ ".json"

def recoveryRefOf (id : String) : String := "refs/resync/recovery/" ++ id

/-- The names that a transaction gets from its ID when it is prepared. -/
structure Named (root : String) (idOf : ρ → String) (r : Record P ρ) : Prop where
  path : r.path = recordPath root (idOf r.rest)
  recoveryRef : r.recoveryRef = recoveryRefOf (idOf r.rest)

/-- A directory in which every record lies in the file that it names. -/
def WellNamed (format : Format γ P ρ) (root : String) (w : World γ σ) : Prop :=
  ∀ file ∈ w.files, ∀ r, format.read file.contents = .record r →
    file.path = r.path ∧ Named root format.idOf r

theorem recordPath_injective {root a b : String} (h : recordPath root a = recordPath root b) :
    a = b := by
  have hlist := congrArg String.toList h
  simp only [recordPath, String.toList_append, List.append_left_inj, List.append_right_inj] at hlist
  exact String.toList_inj.mp hlist

theorem recoveryRefOf_injective {a b : String} (h : recoveryRefOf a = recoveryRefOf b) :
    a = b := by
  have hlist : ("refs/resync/recovery/" ++ a).toList = ("refs/resync/recovery/" ++ b).toList :=
    congrArg String.toList h
  rw [String.toList_append, String.toList_append, List.append_right_inj] at hlist
  exact String.toList_inj.mp hlist

/-- Two records with a recovery ref in common have their prefix in common. -/
theorem recoveryRef_eq_of_mem {r s : Record P ρ} {reference : String}
    (hr : reference ∈ artifactRefs r) (hs : reference ∈ artifactRefs s) :
    r.recoveryRef = s.recoveryRef := by
  have hsuffixes : ["head", "index", "working", "candidate"].all
      (fun suffix => decide ('/' ∉ suffix.toList.reverse)) = true := by decide
  obtain ⟨x, hx, rfl⟩ := List.mem_map.mp hr
  obtain ⟨y, hy, hxy⟩ := List.mem_map.mp hs
  have hxslash := of_decide_eq_true (List.all_eq_true.mp hsuffixes x hx)
  have hyslash := of_decide_eq_true (List.all_eq_true.mp hsuffixes y hy)
  have hlist := congrArg (fun text : String => text.toList.reverse) hxy
  have hslash : "/".toList = ['/'] := by decide
  simp only [String.toList_append, List.reverse_append, hslash, List.reverse_singleton,
    List.singleton_append] at hlist
  -- read from the end, the first slash stands before the suffix
  have hparts := Splitting.append_separator_inj hyslash hxslash hlist
  exact String.toList_inj.mp (List.reverse_injective hparts.2).symm

variable [DecidableEq σ] {a : Access γ P σ} {format : Format γ P ρ} {t : Record P ρ}
  {w : World γ σ} {root : String}

omit [DecidableEq σ] in
theorem WellNamed.writeRecord (h : WellNamed format root w) (ht : Named root format.idOf t)
    (hlocate : ∀ path, a.locate path = path) :
    WellNamed format root (writeRecord a format w t) := by
  intro file hfile r hread
  rcases (mem_writeRecord a format t w).mp hfile with rfl | hother
  · rw [format.read_write] at hread
    cases hread
    exact ⟨hlocate t.path, ht⟩
  · exact h file hother.1 r hread

omit [DecidableEq σ] in
/-- Nothing is in the way where every transaction has its own names, every file is read and every
removal succeeds. -/
theorem WellNamed.orderly (h : WellNamed format root w) (ht : Named root format.idOf t)
    (hlocate : ∀ path, a.locate path = path) (hreads : reads a format t w = true)
    (hsucceeds : ∀ r : Record P ρ, a.succeeds r = true) : Orderly a format t w := by
  have hnamed := h.writeRecord ht hlocate
  -- a record is in the file of its ID
  have hplace {found : Found γ P ρ}
      (hfound : found ∈ format.historicalOf (DebugHistory.writeRecord a format w t).files) :
      found.file.path = found.record.path ∧ Named root format.idOf found.record := by
    obtain ⟨hfile, hread, -⟩ := mem_historicalOf.mp hfound
    exact hnamed found.file hfile found.record hread
  refine ⟨hreads, fun found hfound hid => ?_, fun file hfile r hread _ hpath => ?_,
    fun found hfound => ?_, fun found hfound file hfile r hread hphase store _ _ reference hshared
      hfoundShared => ?_⟩
  · obtain ⟨hpath, hown⟩ := hplace hfound
    rw [hlocate, hpath, hown.path, ht.path, hid]
  · obtain ⟨hfilePath, hown⟩ := h file hfile r hread
    rw [hlocate, hfilePath, hown.path, ht.path] at hpath
    exact recordPath_injective hpath
  · exact ⟨(hlocate _).trans (hplace (mem_excess hfound).1).1.symm, hsucceeds found.record⟩
  · obtain ⟨hmem, hid⟩ := mem_excess hfound
    obtain ⟨hfoundPath, hfoundNamed⟩ := hplace hmem
    obtain ⟨hpath, hown⟩ := h file hfile r hread
    -- the same refs are the same ID, the same file and the same record
    have hsame : format.idOf r.rest = format.idOf found.record.rest := by
      have hprefixes := recoveryRef_eq_of_mem hshared hfoundShared
      rw [hown.recoveryRef, hfoundNamed.recoveryRef] at hprefixes
      exact recoveryRefOf_injective hprefixes
    have hplaces : file.path = found.file.path := by
      rw [hpath, hown.path, hsame, hfoundPath, hfoundNamed.path]
    obtain ⟨hfoundFile, hfoundRead, hfoundPhase⟩ := mem_historicalOf.mp hmem
    have hother : file.path ≠ a.locate t.path := by
      rw [hlocate, hplaces, hfoundPath, hfoundNamed.path, ht.path]
      exact fun he => hid (recordPath_injective he).symm
    have hfiles : found.file = file := List.inj_on_of_nodup_map
      (DebugHistory.writeRecord a format w t).nodup hfoundFile
      ((mem_writeRecord a format t w).mpr (Or.inr ⟨hfile, hother⟩)) hplaces.symm
    rw [hfiles, hread] at hfoundRead
    cases hfoundRead
    rw [hphase] at hfoundPhase
    cases hfoundPhase

end Naming

section Main

variable [DecidableEq σ]

/-- Records that tell their ID and the length of their file. -/
def sampleFormat : Format (Record String (String × ℕ)) String (String × ℕ) where
  read := .record
  length := fun r => r.rest.2
  measured := fun _ => true
  idOf := fun rest => rest.1
  write := id
  read_write := fun _ => rfl

/-- A directory and a repository in which nothing fails. -/
def sampleAccess : Access (Record String (String × ℕ)) String Unit where
  opens := true
  complete := true
  order := id
  perm := fun files => List.Perm.refl files
  locate := id
  removes := fun _ => true
  storeOf := fun _ => some ()
  deletes := fun _ _ => true

def sampleRecord (id createdAt : String) (length : ℕ) : Record String (String × ℕ) where
  projectPath := "/repo"
  recoveryRef := recoveryRefOf id
  phase := "COMPLETED"
  createdAt := createdAt
  candidate := false
  path := recordPath "/state/transactions" id
  rest := (id, length)

/-- A directory with one record of this length. -/
def sampleWorld (length : ℕ) : World (Record String (String × ℕ)) Unit where
  files := [⟨recordPath "/state/transactions" "a", sampleRecord "a" "2026-01-01" length⟩]
  refs := fun _ => []
  nodup := List.nodup_singleton _

theorem sampleWorld_orderly (length new : ℕ) :
    Orderly sampleAccess sampleFormat (sampleRecord "b" "2026-01-02" new) (sampleWorld length) := by
  have hnamed : WellNamed sampleFormat "/state/transactions" (sampleWorld length) := by
    intro file hfile r hread
    rw [List.mem_singleton.mp hfile] at hread ⊢
    cases hread
    exact ⟨rfl, rfl, rfl⟩
  exact hnamed.orderly ⟨rfl, rfl⟩ (fun _ => rfl) rfl fun _ => rfl

theorem sortedHistory_sample (length new : ℕ) :
    sortedHistory sampleAccess sampleFormat (sampleRecord "b" "2026-01-02" new)
      (sampleWorld length) =
      [(length, ⟨⟨recordPath "/state/transactions" "a", sampleRecord "a" "2026-01-01" length⟩,
        sampleRecord "a" "2026-01-01" length⟩)] := by
  rw [sortedHistory]
  exact List.mergeSort_singleton _

end Main

end DebugHistory

end Resync
