import Resync.Daemon
import Resync.Transaction

/-! What follows an installation once the branch has moved (`transaction.rs`): the
clean-up of the transaction, the diff for the answer, and the scan of the
transactions directory, in which other processes may change any file at any
time. Every command and file access may fail. -/
namespace Resync

/-- What `remove_file` finds. -/
inductive FileRemoval where
  | removed | notFound | failed
deriving DecidableEq

/-- The answers to one `remove_transaction_artifacts`. -/
structure ArtifactRemoval where
  /-- Whether `update-ref -d` succeeds on a recovery ref. -/
  deletes : RecoverySlot → Bool
  file : FileRemoval

/-- A record that a scan can parse. -/
structure RecordFile where
  projectPath : String
  id : String
  phase : String
  createdAt : String
  /-- The length that `fs::metadata` gives. -/
  bytes : Option ℕ
  removal : ArtifactRemoval

/-- What a scan reads of a file with the extension of a record; `R` is a record. -/
inductive FileContents (R : Type) where
  | unreadable
  | unparsable
  | record (r : R)

inductive DirectoryEntry (R : Type) where
  | error
  /-- A file without the extension of a record. -/
  | other
  | json (contents : FileContents R)

/-- A listed file of a record, which may be gone by now. -/
def DirectoryEntry.ofRecord {R : Type} (record : Option R) : DirectoryEntry R :=
  .json (record.elim .unreadable .record)

/-- What `read_dir` gives; `none` is an error. -/
abbrev DirectoryScan (R : Type) := Option (List (DirectoryEntry R))

/-- `DEBUG_HISTORY_MAX_RECORDS`. -/
def debugHistoryMaxRecords : ℕ := 128

/-- `DEBUG_HISTORY_MAX_BYTES`. -/
def debugHistoryMaxBytes : ℕ := 256 * 1024 * 1024

/-- `remove_transaction_artifacts`. -/
def ArtifactRemoval.succeeds (r : ArtifactRemoval) : Bool :=
  r.deletes .head && r.deletes .index && r.deletes .working && r.deletes .candidate &&
    r.file != .failed

section History

variable {R : Type}

/-- The first loop of `prune_debug_history`: the records that may be dropped, with the
lengths that `fs::metadata` gives. -/
def historyOf (droppable : R → Bool) (bytes : R → Option ℕ) :
    List (DirectoryEntry R) → Option (List (ℕ × R))
  | [] => some []
  | .error :: _ => none
  | .other :: entries => historyOf droppable bytes entries
  | .json .unreadable :: _ => none
  | .json .unparsable :: entries => historyOf droppable bytes entries
  | .json (.record r) :: entries =>
    if droppable r then do
      let length ← bytes r
      let history ← historyOf droppable bytes entries
      return (length, r) :: history
    else historyOf droppable bytes entries

/-- The second loop of `prune_debug_history`, over the latest records first: what does not
fit is passed over. -/
def excess (retainedCount retainedBytes : ℕ) : List (ℕ × R) → List R
  | [] => []
  | (bytes, r) :: history =>
    if retainedCount < debugHistoryMaxRecords ∧ retainedBytes + bytes ≤ debugHistoryMaxBytes then
      excess (retainedCount + 1) (retainedBytes + bytes) history
    else r :: excess retainedCount retainedBytes history

/-- The records that `prune_debug_history` removes one after the other; `none` where the
scan ends with an error. -/
def passedOver {T : Type} [LE T] [DecidableLE T] (droppable : R → Bool) (bytes : R → Option ℕ)
    (createdAt : R → T) (protectedCount : ℕ) : DirectoryScan R → Option (List R)
  | none => some []
  | some entries => (historyOf droppable bytes entries).map fun history =>
    excess protectedCount 0 (history.mergeSort fun left right =>
      decide (createdAt right.2 ≤ createdAt left.2))

end History

/-- What the loop of `clear_resolved_conflicts` does about an entry. -/
inductive ClearStep (R : Type) where
  | fails
  | passes
  | removes (r : R)

def clearStep {R : Type} (conflict : R → Bool) : DirectoryEntry R → ClearStep R
  | .error | .json .unreadable | .json .unparsable => .fails
  | .other => .passes
  | .json (.record r) => if conflict r then .removes r else .passes

/-- A conflict of the checkout. -/
def RecordFile.conflictOf (projectPath : String) (file : RecordFile) : Bool :=
  file.projectPath == projectPath && file.phase == "CONFLICTED"

/-- The loop of `clear_resolved_conflicts`. -/
def clearEntries (projectPath : String) : List (DirectoryEntry RecordFile) → Bool
  | [] => true
  | entry :: entries =>
    match clearStep (RecordFile.conflictOf projectPath) entry with
    | .fails => false
    | .passes => clearEntries projectPath entries
    | .removes file => file.removal.succeeds && clearEntries projectPath entries

/-- Whether `prune_debug_history` may drop a record. -/
def RecordFile.droppable (protectedId : Option String) (file : RecordFile) : Bool :=
  file.phase != "INSTALLING" && file.phase != "CONFLICTED" && protectedId != some file.id

/-- `prune_debug_history`. -/
def pruneDebugHistory (scan : DirectoryScan RecordFile) (protectedId : Option String) : Bool :=
  (passedOver (RecordFile.droppable protectedId) (·.bytes) (·.createdAt)
    (if protectedId.isSome then 1 else 0) scan).elim false fun files =>
      files.all (·.removal.succeeds)

/-- `clear_resolved_conflicts`. -/
def clearResolvedConflicts (scan : DirectoryScan RecordFile) (projectPath : String)
    (retention : TransactionRetention) : Bool :=
  if retention.debugHistory then pruneDebugHistory scan none
  else match scan with
    | none => true
    | some entries => clearEntries projectPath entries

/-- The answers to everything between the move of the branch and the return of
`reconcile_exclusive`. -/
structure Aftermath where
  transactionId : String
  /-- The retention of the transaction. -/
  retention : TransactionRetention
  removal : ArtifactRemoval
  /-- Whether the record of the finished transaction is written. -/
  written : Bool
  history : DirectoryScan RecordFile
  /-- The output of `diff --name-only`. -/
  diff : Option (List String)
  /-- The retention that `apply_reconciliation_result` reads. -/
  retentionNow : TransactionRetention
  directory : DirectoryScan RecordFile
  /-- Whether `catalog.json` is written. -/
  persisted : Bool

namespace Aftermath

/-- The end of `install_candidate`. -/
def finalizes (a : Aftermath) : Bool :=
  if a.retention.debugHistory then a.written && pruneDebugHistory a.history (some a.transactionId)
  else a.removal.succeeds

/-- What `install_prepared_reconciliation` returns once the branch has moved. -/
def installed (a : Aftermath) : Installed :=
  if a.finalizes then
    match a.diff with
    | some changedPaths => .applied changedPaths
    | none => .failed true
  else .failed true

def cleared (a : Aftermath) (projectPath : String) : Bool :=
  clearResolvedConflicts a.directory projectPath a.retentionNow

@[simp] theorem installed_moves (a : Aftermath) : a.installed.moves = true := by
  rw [installed]
  split
  · split <;> rfl
  · rfl

/-- Nothing fails after the branch has moved. -/
structure Completes (a : Aftermath) (projectPath : String) : Prop where
  finalizes : a.finalizes = true
  diff : a.diff.isSome = true
  cleared : a.cleared projectPath = true
  persisted : a.persisted = true

end Aftermath

section History

variable {R : Type}

/-- In a directory in which every file is read, the history is a filter. -/
theorem historyOf_records (droppable : R → Bool) (length : R → ℕ) (records : List R) :
    historyOf droppable (fun r => some (length r)) (records.map fun r => .json (.record r)) =
      some ((records.filter droppable).map fun r => (length r, r)) := by
  induction records with
  | nil => rfl
  | cons r records ih =>
    rw [List.map_cons, historyOf, ih, List.filter_cons]
    split
    · rfl
    · rfl

theorem excess_sublist (count bytes : ℕ) (history : List (ℕ × R)) :
    (excess count bytes history).Sublist (history.map (·.2)) := by
  induction history generalizing count bytes with
  | nil => exact List.Sublist.slnil
  | cons entry history ih =>
    unfold excess
    split
    · exact (ih _ _).cons _
    · exact (ih _ _).cons_cons _

/-- A history that fits both caps loses nothing. -/
theorem excess_of_fits {count bytes : ℕ} {history : List (ℕ × R)}
    (hcount : count + history.length ≤ debugHistoryMaxRecords)
    (hbytes : bytes + (history.map (·.1)).sum ≤ debugHistoryMaxBytes) :
    excess count bytes history = [] := by
  induction history generalizing count bytes with
  | nil => rfl
  | cons entry history ih =>
    rw [List.length_cons] at hcount
    rw [List.map_cons, List.sum_cons] at hbytes
    unfold excess
    rw [if_pos ⟨by omega, by omega⟩]
    exact ih (by omega) (by omega)

end History

theorem clearStep_ofRecord_eq_fails {R : Type} {conflict : R → Bool} {record : Option R} :
    clearStep conflict (.ofRecord record) = .fails ↔ record = none := by
  cases record with
  | none => exact iff_of_true rfl rfl
  | some r =>
    refine iff_of_false (fun h => ?_) (fun h => by cases h)
    change (if conflict r then ClearStep.removes r else .passes) = .fails at h
    split at h
    · cases h
    · cases h

/-- The scan parses the record of every project, and removes those of the
project's conflicts. -/
theorem clearEntries_iff {projectPath : String} {entries : List (DirectoryEntry RecordFile)} :
    clearEntries projectPath entries = true ↔ ∀ entry ∈ entries, entry = .other ∨
      ∃ file, entry = .json (.record file) ∧
        (file.projectPath = projectPath → file.phase = "CONFLICTED" →
          file.removal.succeeds = true) := by
  induction entries with
  | nil => exact iff_of_true rfl fun _ h => by cases h
  | cons entry entries ih =>
    rw [List.forall_mem_cons, ← ih, clearEntries]
    match entry with
    | .error => exact iff_of_false (fun h => by cases h) fun h => by simp at h
    | .other => simp only [clearStep, true_or, true_and]
    | .json .unreadable | .json .unparsable =>
      exact iff_of_false (fun h => by cases h) fun h => by simp at h
    | .json (.record file) =>
      simp only [clearStep, reduceCtorEq, false_or, DirectoryEntry.json.injEq,
        FileContents.record.injEq, exists_eq_left']
      by_cases hconflict : file.conflictOf projectPath = true
      · obtain ⟨hpath, hphase⟩ := (Bool.and_eq_true _ _).mp hconflict
        rw [if_pos hconflict]
        simp only [Bool.and_eq_true, eq_of_beq hpath, eq_of_beq hphase, forall_const]
      · rw [if_neg hconflict]
        refine (and_iff_right ?_).symm
        intro hpath hphase
        exact absurd ((Bool.and_eq_true _ _).mpr ⟨beq_iff_eq.mpr hpath, beq_iff_eq.mpr hphase⟩)
          hconflict

end Resync
