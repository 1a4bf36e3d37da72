import Mathlib.Data.List.Sort
import Resync.Lib.Utf8
import Resync.Transaction
import Resync.TransactionsDirectory

/-! `gc_transactions` (`transaction.rs`) with its report: the scan of the
transactions directory, the records that are retained, the recovery refs that
they require at each checkout path, and what a run that is not dry deletes and
rewrites. Nothing else runs beside it. -/
namespace Resync

namespace Gc

/-- What the collector reads of a record; `rest` is what it only copies. -/
structure Record (P ρ : Type) where
  projectPath : P
  recoveryRef : String
  phase : String
  createdAt : String
  candidate : Bool
  path : String
  rest : ρ

/-- A `.json` file of the transactions directory, with contents in `γ`. -/
structure File (γ : Type) where
  path : String
  contents : γ

/-- How records are read and, as pretty JSON and a newline, written, and the length
of what a file holds. -/
structure RecordFormat (γ P ρ : Type) where
  parse : γ → Option (Record P ρ)
  write : Record P ρ → γ
  length : γ → ℕ
  parse_write : ∀ r, parse (write r) = some r

/-- `GcEntry`. -/
structure Entry (P ρ : Type) where
  transaction : Record P ρ
  originalBytes : ℕ
  compactBytes : ℕ
  retain : Bool

/-- `TransactionGcReport`. -/
structure Report where
  dryRun : Bool
  debugHistory : Bool
  scanned : ℕ
  retained : ℕ
  removed : ℕ
  compacted : ℕ
  invalidRetained : ℕ
  recoveryRefsPrunable : ℕ
  recoveryRefsRemoved : ℕ
  recoveryRefsSkipped : ℕ
  bytesReclaimed : ℕ
deriving DecidableEq

/-- The files in the order of `read_dir`, and the refs of every ref store in the
order of `for-each-ref`. -/
structure World (γ σ : Type) where
  files : List (File γ)
  refs : σ → List String
  nodup : (files.map (·.path)).Nodup

/-- What `gc_transactions` is called with; the managed paths come in the order of
their set. -/
structure Call (P : Type) where
  managedProjectPaths : List P
  activeConflictPaths : List P
  retention : TransactionRetention

/-- Whether `validate_recovery_ref` lets a ref pass. -/
def validRecoveryRef (reference : String) : Bool :=
  "refs/resync/recovery/".toList.isPrefixOf reference.toList &&
    !reference.toList.any Utf8.isWhitespace

def refusal (reference : String) : Failure :=
  .bail ("refusing to operate on invalid recovery ref " ++ reference)

/-- What the pattern `refs/resync/recovery` of `for-each-ref` matches. -/
def listedRecoveryRef (reference : String) : Bool :=
  reference == "refs/resync/recovery" ||
    "refs/resync/recovery/".toList.isPrefixOf reference.toList

section Scan

variable {γ P ρ : Type} [LinearOrder P]

/-- The records that are retained for their phase. -/
def inUse (activeConflictPaths : List P) (r : Record P ρ) : Bool :=
  r.phase == "INSTALLING" ||
    (r.phase == "CONFLICTED" && decide (r.projectPath ∈ activeConflictPaths))

/-- A record as the scan reads it, under the path of its file. -/
def readRecord (format : RecordFormat γ P ρ) (file : File γ) : Option (Record P ρ) :=
  (format.parse file.contents).map fun r => { r with path := file.path }

def entryOf (format : RecordFormat γ P ρ) (activeConflictPaths : List P) (file : File γ) :
    Option (Entry P ρ) :=
  (readRecord format file).map fun r =>
    ⟨r, format.length file.contents, format.length (format.write r), inUse activeConflictPaths r⟩

/-- The records of the debug history that fit its caps, the latest first. -/
def selectHistory (retainedRecords retainedBytes : ℕ) : List (Entry P ρ) → List (Entry P ρ)
  | [] => []
  | entry :: history =>
    if retainedRecords < debugHistoryMaxRecords ∧
        retainedBytes + entry.compactBytes ≤ debugHistoryMaxBytes then
      entry :: selectHistory (retainedRecords + 1) (retainedBytes + entry.compactBytes) history
    else selectHistory retainedRecords retainedBytes history

/-- What may be dropped, the latest first. -/
def historyOf (entries : List (Entry P ρ)) : List (Entry P ρ) :=
  (entries.filter fun entry => !entry.retain).mergeSort fun left right =>
    decide (right.transaction.createdAt ≤ left.transaction.createdAt)

/-- The selection of the debug history. The entries have different paths. -/
def retainHistory (entries : List (Entry P ρ)) : List (Entry P ρ) :=
  let selected := (selectHistory 0 0 (historyOf entries)).map (·.transaction.path)
  entries.map fun entry =>
    { entry with retain := entry.retain || selected.contains entry.transaction.path }

/-- The entries of the scan. -/
def scan (format : RecordFormat γ P ρ) (call : Call P) (files : List (File γ)) : List (Entry P ρ) :=
  let entries := files.filterMap (entryOf format call.activeConflictPaths)
  if call.retention.debugHistory then retainHistory entries else entries

/-- The files that do not parse. -/
def invalid (format : RecordFormat γ P ρ) (files : List (File γ)) : List (File γ) :=
  files.filter fun file => (format.parse file.contents).isNone

/-- The refs that a retained record needs. -/
def recordRefs (r : Record P ρ) : List String :=
  ["head", "index", "working"].map (fun suffix => r.recoveryRef ++ "/" ++ suffix) ++
    if r.candidate then [r.recoveryRef ++ "/candidate"] else []

/-- `required_refs` at a path. -/
def requiredRefs (entries : List (Entry P ρ)) (path : P) : List String :=
  (entries.filter fun entry => entry.retain && decide (entry.transaction.projectPath = path)).flatMap
    fun entry => recordRefs entry.transaction

/-- The first retained record whose recovery ref is refused. -/
def refusedRecord (entries : List (Entry P ρ)) : Option String :=
  (entries.filter (·.retain)).findSome? fun entry =>
    if validRecoveryRef entry.transaction.recoveryRef then none
    else some entry.transaction.recoveryRef

/-- `project_paths`, in the order of the set. -/
def projectPaths (call : Call P) (entries : List (Entry P ρ)) : List P :=
  (call.managedProjectPaths ++ entries.map (·.transaction.projectPath)).dedup.insertionSort
    (· ≤ ·)

end Scan

section Collect

variable {γ P ρ σ : Type} [LinearOrder P] [DecidableEq σ] (format : RecordFormat γ P ρ)
  (storeOf : P → Option σ)

/-- `list_recovery_refs`; a path without a repository has none. -/
def listRecoveryRefs (w : World γ σ) (path : P) : Option (List String) :=
  (storeOf path).map fun store => (w.refs store).filter listedRecoveryRef

/-- The listed refs of a path that no record at this path requires. -/
def unneeded (w : World γ σ) (entries : List (Entry P ρ)) (path : P) : List String :=
  ((listRecoveryRefs storeOf w path).getD []).filter fun reference =>
    decide (reference ∉ requiredRefs entries path)

/-- `prunable_refs`. -/
def prunableRefs (w : World γ σ) (call : Call P) (entries : List (Entry P ρ)) (invalidRetained : ℕ) :
    List (P × List String) :=
  if invalidRetained = 0 then
    ((projectPaths call entries).map fun path => (path, unneeded storeOf w entries path)).filter
      fun pruned => !pruned.2.isEmpty
  else []

def skippedRefs (w : World γ σ) (call : Call P) (entries : List (Entry P ρ))
    (invalidRetained : ℕ) : ℕ :=
  if invalidRetained = 0 then 0
  else ((projectPaths call entries).map fun path => (unneeded storeOf w entries path).length).sum

/-- A batch of `update-ref --stdin`: the refs of a path's store are gone. -/
def deleteRefs (w : World γ σ) (path : P) (references : List String) : World γ σ :=
  match storeOf path with
  | none => w
  | some store => { w with
      refs := Function.update w.refs store
        ((w.refs store).filter fun reference => decide (reference ∉ references)) }

/-- The loop over `delete_recovery_refs_batch`. A batch is checked before any of
it is deleted. -/
def deleteBatches (w : World γ σ) : List (P × List String) → World γ σ × Except Failure Unit
  | [] => (w, .ok ())
  | (path, references) :: batches =>
    match references.find? fun reference => !validRecoveryRef reference with
    | some reference => (w, .error (refusal reference))
    | none => deleteBatches (deleteRefs storeOf w path references) batches

/-- What becomes of a file: it is left as it is when it does not parse, rewritten
when that makes a retained record shorter, and removed when the record is not
retained. -/
def collectFile (entries : List (Entry P ρ)) (file : File γ) : Option (File γ) :=
  match entries.find? fun entry => entry.transaction.path == file.path with
  | none => some file
  | some entry =>
    if entry.retain then
      if entry.compactBytes < entry.originalBytes then
        some { file with contents := format.write entry.transaction }
      else some file
    else none

omit [LinearOrder P] in
theorem collectFile_path {entries : List (Entry P ρ)} {file file' : File γ}
    (h : collectFile format entries file = some file') : file'.path = file.path := by
  unfold collectFile at h
  split at h
  · rw [← Option.some.inj h]
  · split at h
    · split at h
      · rw [← Option.some.inj h]
      · rw [← Option.some.inj h]
    · cases h

omit [LinearOrder P] in
theorem collectFiles_sublist (entries : List (Entry P ρ)) (files : List (File γ)) :
    ((files.filterMap (collectFile format entries)).map (·.path)).Sublist
      (files.map (·.path)) := by
  induction files with
  | nil => exact List.Sublist.refl []
  | cons file files ih =>
    cases h : collectFile format entries file with
    | none =>
      rw [List.filterMap_cons_none h]
      exact ih.cons _
    | some file' =>
      rw [List.filterMap_cons_some h, List.map_cons, List.map_cons, collectFile_path format h]
      exact ih.cons_cons _

/-- What a run that is not dry leaves of the directory. -/
def collectFiles (entries : List (Entry P ρ)) (w : World γ σ) : World γ σ where
  files := w.files.filterMap (collectFile format entries)
  refs := w.refs
  nodup := (collectFiles_sublist format entries w.files).nodup w.nodup

def report (w : World γ σ) (call : Call P) (dryRun : Bool) : Report :=
  let entries := scan format call w.files
  let invalidRetained := (invalid format w.files).length
  let prunable := (prunableRefs storeOf w call entries invalidRetained).map (·.2.length)
  { dryRun := dryRun
    debugHistory := call.retention.debugHistory
    scanned := w.files.length
    retained := entries.countP (·.retain) + invalidRetained
    removed := entries.countP fun entry => !entry.retain
    compacted := entries.countP fun entry =>
      entry.retain && decide (entry.compactBytes < entry.originalBytes)
    invalidRetained := invalidRetained
    recoveryRefsPrunable := prunable.sum
    recoveryRefsRemoved := if dryRun then 0 else prunable.sum
    recoveryRefsSkipped := skippedRefs storeOf w call entries invalidRetained
    bytesReclaimed := (entries.map fun entry =>
      if entry.retain then entry.originalBytes - entry.compactBytes
      else entry.originalBytes).sum }

/-- `gc_transactions`. -/
def gcTransactions (w : World γ σ) (call : Call P) (dryRun : Bool) :
    World γ σ × Except Failure Report :=
  let entries := scan format call w.files
  match refusedRecord entries with
  | some reference => (w, .error (refusal reference))
  | none =>
    if dryRun then (w, .ok (report format storeOf w call dryRun))
    else
      let swept := deleteBatches storeOf w
        (prunableRefs storeOf w call entries (invalid format w.files).length)
      match swept.2 with
      | .error failure => (swept.1, .error failure)
      | .ok () =>
        (collectFiles format entries swept.1, .ok (report format storeOf w call dryRun))

end Collect

section Entries

variable {γ P ρ : Type} [LinearOrder P] {format : RecordFormat γ P ρ} {call : Call P}

omit [LinearOrder P] in
/-- The selection changes what is retained, and nothing else. -/
theorem mem_retainHistory {entries : List (Entry P ρ)} {entry : Entry P ρ}
    (h : entry ∈ retainHistory entries) : ∃ retain, { entry with retain := retain } ∈ entries := by
  obtain ⟨entry', hmem, rfl⟩ := List.mem_map.mp h
  exact ⟨entry'.retain, hmem⟩

omit [LinearOrder P] in
theorem retainHistory_paths (entries : List (Entry P ρ)) :
    (retainHistory entries).map (·.transaction.path) = entries.map (·.transaction.path) := by
  simp only [retainHistory, List.map_map]
  rfl

theorem entryOf_eq_some {conflicts : List P} {file : File γ} {entry : Entry P ρ} :
    entryOf format conflicts file = some entry ↔ readRecord format file = some entry.transaction ∧
      entry.originalBytes = format.length file.contents ∧
      entry.compactBytes = format.length (format.write entry.transaction) ∧
      entry.retain = inUse conflicts entry.transaction := by
  obtain ⟨r, original, compact, retain⟩ := entry
  rw [entryOf, Option.map_eq_some_iff]
  constructor
  · rintro ⟨r', hr', h⟩
    obtain ⟨rfl, rfl, rfl, rfl⟩ := Entry.mk.inj h
    exact ⟨hr', rfl, rfl, rfl⟩
  · rintro ⟨hr, horiginal, hcompact, hretain⟩
    refine ⟨r, hr, ?_⟩
    rw [Entry.mk.injEq]
    exact ⟨rfl, horiginal.symm, hcompact.symm, hretain.symm⟩

omit [LinearOrder P] in
theorem readRecord_path {file : File γ} {r : Record P ρ} (h : readRecord format file = some r) :
    r.path = file.path := by
  obtain ⟨r', -, rfl⟩ := Option.map_eq_some_iff.mp h
  rfl

/-- An entry stands for a file that parses. -/
theorem mem_scan {files : List (File γ)} {entry : Entry P ρ} (h : entry ∈ scan format call files) :
    ∃ file ∈ files, readRecord format file = some entry.transaction ∧
      entry.originalBytes = format.length file.contents ∧
      entry.compactBytes = format.length (format.write entry.transaction) := by
  have hread : ∀ e : Entry P ρ, e ∈ files.filterMap (entryOf format call.activeConflictPaths) →
      ∃ file ∈ files, readRecord format file = some e.transaction ∧
        e.originalBytes = format.length file.contents ∧
        e.compactBytes = format.length (format.write e.transaction) := by
    intro e he
    obtain ⟨file, hfile, he⟩ := List.mem_filterMap.mp he
    obtain ⟨hread, horiginal, hcompact, -⟩ := entryOf_eq_some.mp he
    exact ⟨file, hfile, hread, horiginal, hcompact⟩
  unfold scan at h
  dsimp only at h
  split at h
  · obtain ⟨retain, hmem⟩ := mem_retainHistory h
    exact hread { entry with retain := retain } hmem
  · exact hread entry h

theorem filterMap_paths_sublist (format : RecordFormat γ P ρ) (conflicts : List P)
    (files : List (File γ)) :
    ((files.filterMap (entryOf format conflicts)).map (·.transaction.path)).Sublist
      (files.map (·.path)) := by
  induction files with
  | nil => exact List.Sublist.refl []
  | cons file files ih =>
    cases h : entryOf format conflicts file with
    | none =>
      rw [List.filterMap_cons_none h]
      exact ih.cons _
    | some entry =>
      rw [List.filterMap_cons_some h, List.map_cons, List.map_cons,
        readRecord_path (entryOf_eq_some.mp h).1]
      exact ih.cons_cons _

/-- Two entries never stand for one file. -/
theorem scan_nodup {files : List (File γ)} (h : (files.map (·.path)).Nodup) :
    ((scan format call files).map (·.transaction.path)).Nodup := by
  have hsub := (filterMap_paths_sublist format call.activeConflictPaths files).nodup h
  unfold scan
  dsimp only
  split
  · rw [retainHistory_paths]
    exact hsub
  · exact hsub

theorem find_entry {files : List (File γ)} (h : (files.map (·.path)).Nodup) {entry : Entry P ρ}
    (hentry : entry ∈ scan format call files) {path : String}
    (hpath : entry.transaction.path = path) :
    (scan format call files).find? (fun e => e.transaction.path == path) = some entry := by
  cases hfind : (scan format call files).find? fun e => e.transaction.path == path with
  | none =>
    have hnone := List.find?_eq_none.mp hfind entry hentry
    rw [hpath, beq_self_eq_true] at hnone
    exact absurd rfl hnone
  | some entry' =>
    have hmem := List.mem_of_find?_eq_some hfind
    have hpath' : entry'.transaction.path = path :=
      eq_of_beq (List.find?_some (p := fun e : Entry P ρ => e.transaction.path == path) hfind)
    have heq := List.inj_on_of_nodup_map (scan_nodup h) hmem hentry (hpath'.trans hpath.symm)
    rw [heq]

/-- A file that does not parse has no entry. -/
theorem find_entry_none {files : List (File γ)} (h : (files.map (·.path)).Nodup) {file : File γ}
    (hfile : file ∈ invalid format files) :
    (scan format call files).find? (fun e => e.transaction.path == file.path) = none := by
  obtain ⟨hmem, hparse⟩ := List.mem_filter.mp hfile
  apply List.find?_eq_none.mpr
  intro entry hentry hpath
  obtain ⟨file', hmem', hread, -⟩ := mem_scan hentry
  have hsame : file' = file :=
    List.inj_on_of_nodup_map h hmem' hmem ((readRecord_path hread).symm.trans (eq_of_beq hpath))
  rw [hsame, readRecord, Option.isNone_iff_eq_none.mp hparse] at hread
  cases hread

end Entries

end Gc

end Resync
