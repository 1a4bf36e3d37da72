import Resync.GcTransactions

/-! Which refs a run of the collector deletes. A path's batch is checked against
the records of this path alone, so the refs of a record are safe exactly when
every other path of the same store requires them too. -/
namespace Resync

namespace Gc

variable {γ P ρ σ : Type} [LinearOrder P]

/-- Every retained record is still there, with the refs it needs, and nothing at
all is deleted beside a file that does not parse. -/
structure KeepsRetained (format : RecordFormat γ P ρ) (storeOf : P → Option σ) (w : World γ σ)
    (call : Call P) (w' : World γ σ) : Prop where
  records : ∀ entry ∈ scan format call w.files, entry.retain = true → ∃ file' ∈ w'.files,
    readRecord format file' = some entry.transaction
  unparsable : ∀ file ∈ invalid format w.files, file ∈ w'.files
  refs : ∀ entry ∈ scan format call w.files, entry.retain = true → ∀ store,
    storeOf entry.transaction.projectPath = some store →
    ∀ reference ∈ recordRefs entry.transaction, reference ∈ w.refs store →
      reference ∈ w'.refs store
  untouched : invalid format w.files ≠ [] → w'.refs = w.refs

section Deletions

variable [DecidableEq σ] (storeOf : P → Option σ)

omit [LinearOrder P] in
theorem mem_deleteRefs (w : World γ σ) (path : P) (references : List String) (store : σ)
    (reference : String) :
    reference ∈ (deleteRefs storeOf w path references).refs store ↔
      reference ∈ w.refs store ∧ (storeOf path = some store → reference ∉ references) := by
  unfold deleteRefs
  cases hstore : storeOf path with
  | none => simp only [reduceCtorEq, IsEmpty.forall_iff, and_true]
  | some s =>
    by_cases hs : store = s
    · subst hs
      simp only [Function.update_self, List.mem_filter, decide_eq_true_eq, forall_const]
    · have hne : ¬ s = store := fun h => hs h.symm
      simp only [Function.update_of_ne hs, Option.some.injEq, hne, IsEmpty.forall_iff, and_true]

omit [LinearOrder P] in
@[simp] theorem deleteRefs_files (w : World γ σ) (path : P) (references : List String) :
    (deleteRefs storeOf w path references).files = w.files := by
  unfold deleteRefs
  cases storeOf path with
  | none => rfl
  | some s => rfl

omit [LinearOrder P] in
@[simp] theorem deleteBatches_files (w : World γ σ) (batches : List (P × List String)) :
    (deleteBatches storeOf w batches).1.files = w.files := by
  induction batches generalizing w with
  | nil => rfl
  | cons batch batches ih =>
    unfold deleteBatches
    split
    · rfl
    · rw [ih, deleteRefs_files]

/-- Whether a batch passes its check. -/
def batchPasses (references : List String) : Bool := references.all validRecoveryRef

theorem find_invalid_eq_none {references : List String} :
    (references.find? fun reference => !validRecoveryRef reference) = none ↔
      batchPasses references = true := by
  simp only [List.find?_eq_none, batchPasses, List.all_eq_true, Bool.not_eq_true',
    Bool.not_eq_false]

omit [LinearOrder P] in
/-- The loop deletes the batches up to the first one that is refused. -/
theorem mem_deleteBatches (w : World γ σ) (batches : List (P × List String)) (store : σ)
    (reference : String) :
    reference ∈ (deleteBatches storeOf w batches).1.refs store ↔
      reference ∈ w.refs store ∧ ∀ batch ∈ batches.takeWhile fun batch => batchPasses batch.2,
        storeOf batch.1 = some store → reference ∉ batch.2 := by
  induction batches generalizing w with
  | nil => simp only [deleteBatches, List.takeWhile_nil, List.not_mem_nil, IsEmpty.forall_iff,
      implies_true, and_true]
  | cons batch batches ih =>
    unfold deleteBatches
    cases hfind : batch.2.find? fun reference => !validRecoveryRef reference with
    | some invalid =>
      have hfails : ¬ batchPasses batch.2 = true := by
        rw [← find_invalid_eq_none, hfind]
        exact Option.some_ne_none invalid
      rw [List.takeWhile_cons_of_neg (p := fun b : P × List String => batchPasses b.2) hfails]
      simp only [List.not_mem_nil, IsEmpty.forall_iff, implies_true, and_true]
    | none =>
      have hpasses : batchPasses batch.2 = true := find_invalid_eq_none.mp hfind
      rw [List.takeWhile_cons_of_pos (p := fun b : P × List String => batchPasses b.2) hpasses,
        List.forall_mem_cons, ih, mem_deleteRefs, and_assoc]

omit [LinearOrder P] in
/-- The loop goes through exactly when no batch is refused. -/
theorem deleteBatches_ok (w : World γ σ) (batches : List (P × List String)) :
    (deleteBatches storeOf w batches).2 = .ok () ↔
      ∀ batch ∈ batches, batchPasses batch.2 = true := by
  induction batches generalizing w with
  | nil => exact iff_of_true rfl fun _ h => by cases h
  | cons batch batches ih =>
    rw [List.forall_mem_cons, ← find_invalid_eq_none]
    unfold deleteBatches
    cases hfind : batch.2.find? fun reference => !validRecoveryRef reference with
    | some invalid => exact iff_of_false (fun h => by cases h) fun h => by cases h.1
    | none =>
      rw [ih]
      exact (and_iff_right rfl).symm

/-- The paths whose batches pass their check before one is refused. -/
def sweptPaths (w : World γ σ) (call : Call P) (entries : List (Entry P ρ)) : List P :=
  (projectPaths call entries).takeWhile fun path => batchPasses (unneeded storeOf w entries path)

/-- No ref that a retained record needs is unneeded at a swept path of the same
store. -/
def SharedSafely (w : World γ σ) (call : Call P) (entries : List (Entry P ρ)) : Prop :=
  ∀ path ∈ sweptPaths storeOf w call entries, ∀ entry ∈ entries, entry.retain = true → ∀ store,
    storeOf path = some store → storeOf entry.transaction.projectPath = some store →
    ∀ reference ∈ recordRefs entry.transaction, reference ∈ w.refs store →
      reference ∈ requiredRefs entries path

omit [DecidableEq σ] in
/-- The batches that are deleted, where every file parses. -/
theorem mem_swept_batches {w : World γ σ} {call : Call P} {entries : List (Entry P ρ)}
    {batch : P × List String} :
    batch ∈ (prunableRefs storeOf w call entries 0).takeWhile (fun b => batchPasses b.2) ↔
      batch.1 ∈ sweptPaths storeOf w call entries ∧
        batch.2 = unneeded storeOf w entries batch.1 ∧ batch.2 ≠ [] := by
  have hfilter : (prunableRefs storeOf w call entries 0).takeWhile (fun b => batchPasses b.2) =
      ((sweptPaths storeOf w call entries).map fun path =>
        (path, unneeded storeOf w entries path)).filter fun pruned => !pruned.2.isEmpty := by
    rw [prunableRefs, if_pos rfl, List.takeWhile_filter, List.takeWhile_map, sweptPaths]
    congr 3
    funext path
    show (!(!(unneeded storeOf w entries path).isEmpty) ||
      batchPasses (unneeded storeOf w entries path)) = batchPasses (unneeded storeOf w entries path)
    cases hlist : unneeded storeOf w entries path with
    | nil => rfl
    | cons reference references => rfl
  rw [hfilter, List.mem_filter, List.mem_map]
  constructor
  · rintro ⟨⟨path, hpath, rfl⟩, hne⟩
    refine ⟨hpath, rfl, fun hnil => ?_⟩
    rw [hnil] at hne
    cases hne
  · rintro ⟨hpath, hlist, hne⟩
    refine ⟨⟨batch.1, hpath, Prod.ext rfl hlist.symm⟩, ?_⟩
    rw [Bool.not_eq_true', List.isEmpty_eq_false_iff]
    exact hne

omit [DecidableEq σ] in
theorem mem_unneeded {w : World γ σ} {entries : List (Entry P ρ)} {path : P} {store : σ}
    (hstore : storeOf path = some store) {reference : String} :
    reference ∈ unneeded storeOf w entries path ↔ reference ∈ w.refs store ∧
      listedRecoveryRef reference = true ∧ reference ∉ requiredRefs entries path := by
  simp only [unneeded, listRecoveryRefs, hstore, Option.map_some, Option.getD_some,
    List.mem_filter, decide_eq_true_eq, and_assoc]

/-- The refs that a run which deletes at all leaves in a store. -/
theorem mem_swept {w : World γ σ} {call : Call P} {entries : List (Entry P ρ)} {store : σ}
    {reference : String} :
    reference ∈ (deleteBatches storeOf w (prunableRefs storeOf w call entries 0)).1.refs store ↔
      reference ∈ w.refs store ∧ ∀ path ∈ sweptPaths storeOf w call entries,
        storeOf path = some store → listedRecoveryRef reference = true →
          reference ∈ requiredRefs entries path := by
  rw [mem_deleteBatches]
  apply and_congr_right
  intro hreference
  constructor
  · intro h path hpath hstore hlisted
    by_contra hrequired
    have hmem : reference ∈ unneeded storeOf w entries path :=
      (mem_unneeded storeOf hstore).mpr ⟨hreference, hlisted, hrequired⟩
    have hbatch : (path, unneeded storeOf w entries path) ∈
        (prunableRefs storeOf w call entries 0).takeWhile fun b => batchPasses b.2 :=
      (mem_swept_batches storeOf).mpr ⟨hpath, rfl, List.ne_nil_of_mem hmem⟩
    exact h _ hbatch hstore hmem
  · intro h batch hbatch hstore hmem
    obtain ⟨hpath, hlist, -⟩ := (mem_swept_batches storeOf).mp hbatch
    rw [hlist] at hmem
    obtain ⟨-, hlisted, hrequired⟩ := (mem_unneeded storeOf hstore).mp hmem
    exact hrequired (h batch.1 hpath hstore hlisted)

omit [LinearOrder P] in
/-- A loop with a batch that is refused stops at such a batch. -/
theorem deleteBatches_error (w : World γ σ) {batches : List (P × List String)}
    (h : ∃ batch ∈ batches, batchPasses batch.2 = false) :
    ∃ reference, ∃ batch ∈ batches, reference ∈ batch.2 ∧ validRecoveryRef reference = false ∧
      (deleteBatches storeOf w batches).2 = .error (refusal reference) := by
  induction batches generalizing w with
  | nil =>
    obtain ⟨batch, hbatch, -⟩ := h
    cases hbatch
  | cons batch batches ih =>
    unfold deleteBatches
    cases hfind : batch.2.find? fun reference => !validRecoveryRef reference with
    | some reference =>
      have hinvalid : validRecoveryRef reference = false := by
        have hfound := List.find?_some (p := fun r : String => !validRecoveryRef r) hfind
        rwa [Bool.not_eq_true'] at hfound
      exact ⟨reference, batch, List.mem_cons_self, List.mem_of_find?_eq_some hfind, hinvalid, rfl⟩
    | none =>
      obtain ⟨failing, hmem, hfails⟩ := h
      have hrest : failing ∈ batches := by
        rcases List.mem_cons.mp hmem with rfl | hrest
        · rw [find_invalid_eq_none.mp hfind] at hfails
          cases hfails
        · exact hrest
      obtain ⟨reference, batch', hbatch', hreference⟩ :=
        ih (deleteRefs storeOf w batch.1 batch.2) ⟨failing, hrest, hfails⟩
      exact ⟨reference, batch', List.mem_cons_of_mem batch hbatch', hreference⟩

end Deletions

section Records

variable {format : RecordFormat γ P ρ} {call : Call P}

omit [LinearOrder P] in
/-- The refs of a record that passes its check are listed. -/
theorem listed_of_recordRefs {r : Record P ρ} (h : validRecoveryRef r.recoveryRef = true)
    {reference : String} (hreference : reference ∈ recordRefs r) :
    listedRecoveryRef reference = true := by
  have hprefix := (Bool.and_eq_true_iff.mp h).1
  have hlisted : ∀ suffix : String, listedRecoveryRef (r.recoveryRef ++ suffix) = true := by
    intro suffix
    have hlong : "refs/resync/recovery/".toList.isPrefixOf (r.recoveryRef ++ suffix).toList =
        true := by
      rw [List.isPrefixOf_iff_prefix] at hprefix ⊢
      rw [String.toList_append]
      exact hprefix.trans (List.prefix_append _ _)
    rw [listedRecoveryRef, hlong, Bool.or_true]
  rcases List.mem_append.mp hreference with hmem | hmem
  · obtain ⟨suffix, -, rfl⟩ := List.mem_map.mp hmem
    rw [String.append_assoc]
    exact hlisted ("/" ++ suffix)
  · split at hmem
    · rw [List.mem_singleton.mp hmem]
      exact hlisted "/candidate"
    · cases hmem

omit [LinearOrder P] in
theorem refusedRecord_eq_none {entries : List (Entry P ρ)} :
    refusedRecord entries = none ↔ ∀ entry ∈ entries, entry.retain = true →
      validRecoveryRef entry.transaction.recoveryRef = true := by
  simp only [refusedRecord, List.findSome?_eq_none_iff, List.mem_filter, and_imp]
  apply forall₃_congr
  intro entry _ _
  split
  · next hvalid => exact iff_of_true rfl hvalid
  · next hvalid => exact iff_of_false (Option.some_ne_none _) hvalid

/-- A retained record is read from the collected directory as before. -/
theorem collected_record (w : World γ σ) {entry : Entry P ρ}
    (hentry : entry ∈ scan format call w.files) (hretain : entry.retain = true) :
    ∃ file' ∈ w.files.filterMap (collectFile format (scan format call w.files)),
      readRecord format file' = some entry.transaction := by
  obtain ⟨file, hfile, hread, -, -⟩ := mem_scan hentry
  have hpath := readRecord_path hread
  have hfind := find_entry w.nodup hentry hpath
  by_cases hcompact : entry.compactBytes < entry.originalBytes
  · refine ⟨{ file with contents := format.write entry.transaction },
      List.mem_filterMap.mpr ⟨file, hfile, ?_⟩, ?_⟩
    · simp only [collectFile, hfind, hretain, hcompact, if_true]
    · rw [readRecord, format.parse_write, Option.map_some, ← hpath]
  · refine ⟨file, List.mem_filterMap.mpr ⟨file, hfile, ?_⟩, hread⟩
    simp only [collectFile, hfind, hretain, hcompact, if_true, if_false]

/-- A file that does not parse stays as it is. -/
theorem collected_invalid (w : World γ σ) {file : File γ} (hfile : file ∈ invalid format w.files) :
    file ∈ w.files.filterMap (collectFile format (scan format call w.files)) := by
  have hfind : (scan format call w.files).find? (fun e => e.transaction.path == file.path) = none :=
    find_entry_none w.nodup hfile
  refine List.mem_filterMap.mpr ⟨file, (List.mem_filter.mp hfile).1, ?_⟩
  simp only [collectFile, hfind]

end Records

section Keeps

variable [DecidableEq σ] (format : RecordFormat γ P ρ) (storeOf : P → Option σ)

/-- The outcome of a run that is not dry. -/
theorem gcTransactions_refs (w : World γ σ) (call : Call P) :
    (gcTransactions format storeOf w call false).1.refs =
      if refusedRecord (scan format call w.files) = none then
        (deleteBatches storeOf w (prunableRefs storeOf w call (scan format call w.files)
          (invalid format w.files).length)).1.refs
      else w.refs := by
  unfold gcTransactions
  dsimp only
  cases hrefused : refusedRecord (scan format call w.files) with
  | some reference => rw [if_neg (Option.some_ne_none reference)]
  | none =>
    rw [if_pos rfl]
    simp only [Bool.false_eq_true, if_false]
    split
    · rfl
    · rfl

theorem gcTransactions_files (w : World γ σ) (call : Call P) :
    (gcTransactions format storeOf w call false).1.files = w.files ∨
      (gcTransactions format storeOf w call false).1.files =
        w.files.filterMap (collectFile format (scan format call w.files)) := by
  unfold gcTransactions
  dsimp only
  cases hrefused : refusedRecord (scan format call w.files) with
  | some reference => exact Or.inl rfl
  | none =>
    simp only [Bool.false_eq_true, if_false]
    split
    · exact Or.inl (deleteBatches_files storeOf w _)
    · right
      exact congrArg (List.filterMap (collectFile format (scan format call w.files)))
        (deleteBatches_files storeOf w _)

/-- After any run every retained record and every file that does not parse is
still there with nothing deleted beside the latter, and the refs that retained
records need are there too exactly when the swept paths share them safely. -/
theorem gc_keeps_required_iff (w : World γ σ) (call : Call P) :
    KeepsRetained format storeOf w call (gcTransactions format storeOf w call false).1 ↔
      invalid format w.files ≠ [] ∨ refusedRecord (scan format call w.files) ≠ none ∨
        SharedSafely storeOf w call (scan format call w.files) := by
  have hrefs := gcTransactions_refs format storeOf w call
  have hrecords : ∀ entry ∈ scan format call w.files, entry.retain = true →
      ∃ file' ∈ (gcTransactions format storeOf w call false).1.files,
        readRecord format file' = some entry.transaction := by
    intro entry hentry hretain
    rcases gcTransactions_files format storeOf w call with hfiles | hfiles
    · obtain ⟨file, hfile, hread, -⟩ := mem_scan hentry
      rw [hfiles]
      exact ⟨file, hfile, hread⟩
    · rw [hfiles]
      exact collected_record w hentry hretain
  have hunparsable : ∀ file ∈ invalid format w.files,
      file ∈ (gcTransactions format storeOf w call false).1.files := by
    intro file hfile
    rcases gcTransactions_files format storeOf w call with hfiles | hfiles
    · rw [hfiles]
      exact (List.mem_filter.mp hfile).1
    · rw [hfiles]
      exact collected_invalid w hfile
  have huntouched : invalid format w.files ≠ [] →
      (gcTransactions format storeOf w call false).1.refs = w.refs := by
    intro hinvalid
    have hlength : ¬ (invalid format w.files).length = 0 := fun h =>
      hinvalid (List.length_eq_zero_iff.mp h)
    rw [hrefs, prunableRefs, if_neg hlength, deleteBatches, ite_self]
  have hsame : (gcTransactions format storeOf w call false).1.refs = w.refs →
      KeepsRetained format storeOf w call (gcTransactions format storeOf w call false).1 := by
    intro h
    refine ⟨hrecords, hunparsable, fun _ _ _ store _ reference _ hreference => ?_, fun _ => h⟩
    rw [h]
    exact hreference
  by_cases hinvalid : invalid format w.files = []
  · by_cases hrefused : refusedRecord (scan format call w.files) = none
    · -- every file parses and every retained record passes: the refs are swept
      have hvalid := refusedRecord_eq_none.mp hrefused
      rw [if_pos hrefused, hinvalid, List.length_nil] at hrefs
      have hiff : SharedSafely storeOf w call (scan format call w.files) ↔
          ∀ entry ∈ scan format call w.files, entry.retain = true → ∀ store,
            storeOf entry.transaction.projectPath = some store →
            ∀ reference ∈ recordRefs entry.transaction, reference ∈ w.refs store →
              reference ∈ (gcTransactions format storeOf w call false).1.refs store := by
        rw [hrefs]
        constructor
        · intro h entry hentry hretain store hstore reference hneeded hreference
          refine (mem_swept storeOf).mpr ⟨hreference, fun path hpath hpathStore _ => ?_⟩
          exact h path hpath entry hentry hretain store hpathStore hstore reference hneeded
            hreference
        · intro h path hpath entry hentry hretain store hpathStore hstore reference hneeded
            hreference
          have hkept := h entry hentry hretain store hstore reference hneeded hreference
          exact ((mem_swept storeOf).mp hkept).2 path hpath hpathStore
            (listed_of_recordRefs (hvalid entry hentry hretain) hneeded)
      constructor
      · intro h
        exact Or.inr (Or.inr (hiff.mpr h.refs))
      · rintro (h | h | h)
        · exact absurd hinvalid h
        · exact absurd hrefused h
        · exact ⟨hrecords, hunparsable, hiff.mp h, huntouched⟩
    · refine iff_of_true (hsame ?_) (Or.inr (Or.inl hrefused))
      rw [hrefs, if_neg hrefused]
  · exact iff_of_true (hsame (huntouched hinvalid)) (Or.inl hinvalid)

end Keeps

section Linked

/-- A file holds a record and its length. -/
def plainFormat : RecordFormat (Option (Record ℕ Unit) × ℕ) ℕ Unit where
  parse := Prod.fst
  write r := (some r, 1)
  length := Prod.snd
  parse_write _ := rfl

/-- An installation at the first checkout that was cut short. -/
def interrupted : Record ℕ Unit where
  projectPath := 0
  recoveryRef := "refs/resync/recovery/t"
  phase := "INSTALLING"
  createdAt := "1"
  candidate := true
  path := "t.json"
  rest := ()

/-- Two linked worktrees of one repository, and the transaction of the first. -/
def linkedWorktrees : World (Option (Record ℕ Unit) × ℕ) Unit where
  files := [⟨"t.json", (some interrupted, 1)⟩]
  refs _ := ["refs/resync/recovery/t/candidate", "refs/resync/recovery/t/head",
    "refs/resync/recovery/t/index", "refs/resync/recovery/t/working"]
  nodup := List.nodup_singleton _

def bothManaged : Call ℕ := ⟨[0, 1], [], ⟨false⟩⟩

/-- No record at the path of the second worktree needs the refs of the first one's
installation, so they are deleted from the store that both share. -/
theorem linked_worktree_loses_refs :
    (gcTransactions plainFormat (fun _ => some ()) linkedWorktrees bothManaged false).1.refs () =
      [] ∧
    ¬ KeepsRetained plainFormat (fun _ => some ()) linkedWorktrees bothManaged
      (gcTransactions plainFormat (fun _ => some ()) linkedWorktrees bothManaged false).1 := by
  have hgone : (gcTransactions plainFormat (fun _ => some ()) linkedWorktrees bothManaged
      false).1.refs () = [] := by decide +kernel
  refine ⟨hgone, fun h => ?_⟩
  have hkept := h.refs ⟨interrupted, 1, 1, true⟩ List.mem_cons_self rfl () rfl
    "refs/resync/recovery/t/head" (by decide) (by decide)
  rw [hgone] at hkept
  cases hkept

end Linked

end Gc

end Resync
