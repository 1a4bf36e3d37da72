import Mathlib.Algebra.Order.BigOperators.Group.List
import Mathlib.Data.List.TakeWhile
import Resync.RequiredRefs

/-! What a dry run of the collector tells about the run that follows it, and that
a second run finds nothing to do: what the first one keeps fits the caps in any
order, is as short as it can be, and requires every ref that is left. -/
namespace Resync

namespace Gc

variable {γ P ρ σ : Type} [LinearOrder P] {format : RecordFormat γ P ρ} {call : Call P}

section Select

omit [LinearOrder P]

/-- The selection fits what is left of the caps. -/
theorem selectHistory_fits (count bytes : ℕ) (history : List (Entry P ρ))
    (hcount : count ≤ debugHistoryMaxRecords) (hbytes : bytes ≤ debugHistoryMaxBytes) :
    count + (selectHistory count bytes history).length ≤ debugHistoryMaxRecords ∧
      bytes + ((selectHistory count bytes history).map (·.compactBytes)).sum ≤
        debugHistoryMaxBytes := by
  induction history generalizing count bytes with
  | nil => exact ⟨hcount, hbytes⟩
  | cons entry history ih =>
    unfold selectHistory
    split
    · next hfits =>
      have hrest := ih (count + 1) (bytes + entry.compactBytes) (by omega) hfits.2
      rw [List.length_cons, List.map_cons, List.sum_cons]
      omega
    · exact ih count bytes hcount hbytes

/-- What fits the caps as a whole is selected as a whole. -/
theorem selectHistory_all (count bytes : ℕ) (history : List (Entry P ρ))
    (hcount : count + history.length ≤ debugHistoryMaxRecords)
    (hbytes : bytes + (history.map (·.compactBytes)).sum ≤ debugHistoryMaxBytes) :
    selectHistory count bytes history = history := by
  induction history generalizing count bytes with
  | nil => rfl
  | cons entry history ih =>
    rw [List.length_cons] at hcount
    rw [List.map_cons, List.sum_cons] at hbytes
    unfold selectHistory
    rw [if_pos ⟨by omega, by omega⟩, ih (count + 1) (bytes + entry.compactBytes) (by omega)
      (by omega)]

theorem mem_of_mem_selectHistory {count bytes : ℕ} {history : List (Entry P ρ)}
    {entry : Entry P ρ} (h : entry ∈ selectHistory count bytes history) : entry ∈ history := by
  induction history generalizing count bytes with
  | nil => exact h
  | cons first history ih =>
    unfold selectHistory at h
    split at h
    · rcases List.mem_cons.mp h with rfl | h
      · exact List.mem_cons_self
      · exact List.mem_cons_of_mem first (ih h)
    · exact List.mem_cons_of_mem first (ih h)

end Select

section Scanned

/-- The entries of the scan before the history is selected. -/
def readEntries (format : RecordFormat γ P ρ) (call : Call P) (files : List (File γ)) :
    List (Entry P ρ) :=
  files.filterMap (entryOf format call.activeConflictPaths)

theorem scan_eq (files : List (File γ)) :
    scan format call files =
      if call.retention.debugHistory then retainHistory (readEntries format call files)
      else readEntries format call files := rfl

/-- Every record that can be read has an entry. -/
theorem mem_scan_of_read {files : List (File γ)} {file : File γ} (hfile : file ∈ files)
    {r : Record P ρ} (hread : readRecord format file = some r) :
    ∃ entry ∈ scan format call files, entry.transaction = r := by
  have hentry : (⟨r, format.length file.contents, format.length (format.write r),
      inUse call.activeConflictPaths r⟩ : Entry P ρ) ∈ readEntries format call files :=
    List.mem_filterMap.mpr ⟨file, hfile, entryOf_eq_some.mpr ⟨hread, rfl, rfl, rfl⟩⟩
  rw [scan_eq]
  split
  · exact ⟨_, List.mem_map_of_mem hentry, rfl⟩
  · exact ⟨_, hentry, rfl⟩

/-- Why an entry is retained. -/
theorem retain_of_mem_scan {files : List (File γ)} {entry : Entry P ρ}
    (h : entry ∈ scan format call files) (hretain : entry.retain = true) :
    inUse call.activeConflictPaths entry.transaction = true ∨
      (call.retention.debugHistory = true ∧
        ∃ selected ∈ selectHistory 0 0 (historyOf (readEntries format call files)),
          selected.transaction.path = entry.transaction.path) := by
  have hread : ∀ e : Entry P ρ, e ∈ readEntries format call files →
      e.retain = inUse call.activeConflictPaths e.transaction := by
    intro e he
    obtain ⟨file, -, he⟩ := List.mem_filterMap.mp he
    exact (entryOf_eq_some.mp he).2.2.2
  rw [scan_eq] at h
  split at h
  · next hdebug =>
    obtain ⟨e, he, rfl⟩ := List.mem_map.mp h
    rcases Bool.or_eq_true_iff.mp hretain with hin | hselected
    · left
      rw [← hread e he]
      exact hin
    · obtain ⟨s, hs, hpath⟩ := List.mem_map.mp (List.contains_iff_mem.mp hselected)
      exact Or.inr ⟨hdebug, s, hs, hpath⟩
  · left
    rw [← hread entry h]
    exact hretain

end Scanned

section Again

variable {files files₂ : List (File γ)}

/-- What is read of a collected file is the record of a retained entry, as short
as it can be. -/
theorem read_of_collected (hnodup : (files.map (·.path)).Nodup) {file₂ : File γ}
    (hfile : file₂ ∈ files.filterMap (collectFile format (scan format call files)))
    {entry₂ : Entry P ρ} (hentry : entryOf format call.activeConflictPaths file₂ = some entry₂) :
    (∃ entry ∈ scan format call files, entry.retain = true ∧
      entry.transaction = entry₂.transaction) ∧
      entry₂.originalBytes ≤ entry₂.compactBytes := by
  obtain ⟨file, hmem, hcollect⟩ := List.mem_filterMap.mp hfile
  obtain ⟨hread, horiginal, hcompact, -⟩ := entryOf_eq_some.mp hentry
  unfold collectFile at hcollect
  cases hfind : (scan format call files).find? fun e => e.transaction.path == file.path with
  | none =>
    rw [hfind] at hcollect
    obtain rfl := Option.some.inj hcollect
    obtain ⟨entry, hscan, hsame⟩ : ∃ entry ∈ scan format call files,
        entry.transaction = entry₂.transaction := mem_scan_of_read hmem hread
    have hother := List.find?_eq_none.mp hfind entry hscan
    rw [hsame, readRecord_path hread, beq_self_eq_true] at hother
    exact absurd rfl hother
  | some entry =>
    have hscan := List.mem_of_find?_eq_some hfind
    have hpath : entry.transaction.path = file.path :=
      eq_of_beq (List.find?_some (p := fun e : Entry P ρ => e.transaction.path == file.path) hfind)
    obtain ⟨file', hmem', hread', horiginal', hcompact'⟩ := mem_scan hscan
    have hsame : file' = file :=
      List.inj_on_of_nodup_map hnodup hmem' hmem ((readRecord_path hread').symm.trans hpath)
    subst hsame
    rw [hfind] at hcollect
    dsimp only at hcollect
    split at hcollect
    · next hretain =>
      split at hcollect
      · -- the file was rewritten
        obtain rfl := Option.some.inj hcollect
        have hrewritten : readRecord format
            ({ file' with contents := format.write entry.transaction } : File γ) =
            some entry.transaction := by
          rw [readRecord, format.parse_write, Option.map_some, ← hpath]
        rw [hrewritten] at hread
        have htransaction := Option.some.inj hread
        rw [horiginal, hcompact, ← htransaction]
        exact ⟨⟨entry, hscan, hretain, rfl⟩, le_refl _⟩
      · next hlong =>
        obtain rfl := Option.some.inj hcollect
        rw [hread'] at hread
        have htransaction := Option.some.inj hread
        rw [horiginal, hcompact, ← htransaction, ← horiginal', ← hcompact']
        exact ⟨⟨entry, hscan, hretain, rfl⟩, Nat.le_of_not_lt hlong⟩
    · cases hcollect

/-- The record of a retained entry is read again. -/
theorem reread_of_retained (hnodup : (files.map (·.path)).Nodup)
    (hperm : files₂.Perm (files.filterMap (collectFile format (scan format call files))))
    {entry : Entry P ρ} (hentry : entry ∈ scan format call files) (hretain : entry.retain = true) :
    ∃ entry₂ ∈ scan format call files₂, entry₂.transaction = entry.transaction := by
  let w : World γ Unit := ⟨files, fun _ => [], hnodup⟩
  obtain ⟨file₂, hfile, hread⟩ := collected_record w hentry hretain
  exact mem_scan_of_read (hperm.mem_iff.mpr hfile) hread

/-- An entry of the second scan has the record of a retained entry of the first,
and is as short as it can be. -/
theorem entry_of_second (hnodup : (files.map (·.path)).Nodup)
    (hperm : files₂.Perm (files.filterMap (collectFile format (scan format call files))))
    {entry₂ : Entry P ρ} (hentry : entry₂ ∈ scan format call files₂) :
    (∃ entry ∈ scan format call files, entry.retain = true ∧
      entry.transaction = entry₂.transaction) ∧
      entry₂.originalBytes ≤ entry₂.compactBytes := by
  obtain ⟨file₂, hfile, hread, horiginal, hcompact⟩ := mem_scan hentry
  have hbase : entryOf format call.activeConflictPaths file₂ = some ⟨entry₂.transaction,
      entry₂.originalBytes, entry₂.compactBytes,
      inUse call.activeConflictPaths entry₂.transaction⟩ :=
    entryOf_eq_some.mpr ⟨hread, horiginal, hcompact, rfl⟩
  have hagain := read_of_collected hnodup (hperm.mem_iff.mp hfile) hbase
  exact hagain

/-- The history that the first run keeps fits the caps in any order. -/
theorem second_history_fits (hnodup : (files.map (·.path)).Nodup)
    (hperm : files₂.Perm (files.filterMap (collectFile format (scan format call files))))
    (hnodup₂ : (files₂.map (·.path)).Nodup) :
    (historyOf (readEntries format call files₂)).length ≤ debugHistoryMaxRecords ∧
      ((historyOf (readEntries format call files₂)).map (·.compactBytes)).sum ≤
        debugHistoryMaxBytes := by
  set selected := selectHistory 0 0 (historyOf (readEntries format call files)) with hselected
  obtain ⟨hcount, hbytes⟩ := selectHistory_fits 0 0 (historyOf (readEntries format call files))
    (Nat.zero_le _) (Nat.zero_le _)
  rw [← hselected, Nat.zero_add] at hcount hbytes
  set history := (readEntries format call files₂).filter fun entry => !entry.retain with hhistory
  have hsorted : (historyOf (readEntries format call files₂)).Perm history :=
    List.mergeSort_perm _ _
  have hsize : ∀ {l : List (File γ)} {e : Entry P ρ}, e ∈ readEntries format call l →
      e.compactBytes = format.length (format.write e.transaction) ∧
        e.retain = inUse call.activeConflictPaths e.transaction := by
    intro l e he
    obtain ⟨file, -, he⟩ := List.mem_filterMap.mp he
    exact (entryOf_eq_some.mp he).2.2
  -- every record of the second history was selected by the first run
  have hfound : ∀ r ∈ history.map (·.transaction), r ∈ selected.map (·.transaction) := by
    intro r hr
    obtain ⟨e₂, he₂, rfl⟩ := List.mem_map.mp hr
    obtain ⟨hread₂, hdropped⟩ := List.mem_filter.mp he₂
    obtain ⟨file₂, hfile₂, hentry₂⟩ := List.mem_filterMap.mp hread₂
    obtain ⟨⟨e, he, hretain, hsame⟩, -⟩ :=
      read_of_collected hnodup (hperm.mem_iff.mp hfile₂) hentry₂
    have hunused : ¬ inUse call.activeConflictPaths e.transaction = true := by
      rw [hsame, ← (hsize hread₂).2, Bool.not_eq_true]
      simpa only [Bool.not_eq_true'] using hdropped
    obtain ⟨-, s, hs, hpath⟩ := (retain_of_mem_scan he hretain).resolve_left hunused
    -- the selected entry and this one stand for one file
    have hsread : s ∈ readEntries format call files := by
      have hmem := mem_of_mem_selectHistory hs
      exact (List.mem_filter.mp (List.mem_mergeSort.mp hmem)).1
    obtain ⟨file, hfile, hsentry⟩ := List.mem_filterMap.mp hsread
    obtain ⟨file', hfile', hread', -⟩ := mem_scan he
    have hsfile := (entryOf_eq_some.mp hsentry).1
    have hone : file = file' := by
      apply List.inj_on_of_nodup_map hnodup hfile hfile'
      rw [← readRecord_path hsfile, ← readRecord_path hread', hpath]
    rw [hone, hread'] at hsfile
    refine List.mem_map.mpr ⟨s, hs, ?_⟩
    rw [← hsame]
    exact (Option.some.inj hsfile).symm
  have hpaths : (history.map (·.transaction)).Nodup := by
    have hsub := (filterMap_paths_sublist format call.activeConflictPaths files₂).nodup hnodup₂
    have hmap : ((history.map (·.transaction)).map (·.path)).Nodup := by
      rw [List.map_map]
      exact (List.filter_sublist.map _).nodup hsub
    exact hmap.of_map
  obtain ⟨l, hl, hlsub⟩ := hpaths.subperm hfound
  have hweights : ∀ (m : List (Entry P ρ)) (f : List (File γ)),
      (∀ e ∈ m, e ∈ readEntries format call f) →
      m.map (·.compactBytes) =
        (m.map (·.transaction)).map fun r => format.length (format.write r) := by
    intro m f hm
    rw [List.map_map]
    exact List.map_congr_left fun e he => (hsize (hm e he)).1
  have hweight₂ := hweights history files₂ fun e he => (List.mem_filter.mp he).1
  have hweight₁ := hweights selected files fun e he =>
    (List.mem_filter.mp (List.mem_mergeSort.mp (mem_of_mem_selectHistory he))).1
  constructor
  · have hlength := hlsub.length_le
    rw [hl.length_eq, List.length_map, List.length_map] at hlength
    rw [hsorted.length_eq]
    exact hlength.trans hcount
  · have hsum := (hlsub.map fun r => format.length (format.write r)).sum_le_sum
      fun _ _ => Nat.zero_le _
    rw [(hl.map fun r => format.length (format.write r)).sum_eq, ← hweight₁, ← hweight₂] at hsum
    rw [(hsorted.map (·.compactBytes)).sum_eq]
    exact hsum.trans hbytes

/-- A second run retains every record that the first one has left. -/
theorem second_retains (hnodup : (files.map (·.path)).Nodup)
    (hperm : files₂.Perm (files.filterMap (collectFile format (scan format call files))))
    (hnodup₂ : (files₂.map (·.path)).Nodup) {entry₂ : Entry P ρ}
    (hentry : entry₂ ∈ scan format call files₂) : entry₂.retain = true := by
  obtain ⟨⟨entry, hscan, hretain, hsame⟩, -⟩ := entry_of_second hnodup hperm hentry
  have hwhy := retain_of_mem_scan hscan hretain
  rw [scan_eq] at hentry
  split at hentry
  · obtain ⟨e, he, rfl⟩ := List.mem_map.mp hentry
    by_cases hin : e.retain = true
    · show (e.retain || _) = true
      rw [hin, Bool.true_or]
    · obtain ⟨hcount, hbytes⟩ := second_history_fits hnodup hperm hnodup₂
      have hall : selectHistory 0 0 (historyOf (readEntries format call files₂)) =
          historyOf (readEntries format call files₂) :=
        selectHistory_all 0 0 _ (by omega) (by omega)
      have hmem : e ∈ historyOf (readEntries format call files₂) := by
        refine List.mem_mergeSort.mpr (List.mem_filter.mpr ⟨he, ?_⟩)
        simpa only [Bool.not_eq_true'] using (Bool.not_eq_true _).mp hin
      show (e.retain || ((selectHistory 0 0 (historyOf (readEntries format call files₂))).map
        (·.transaction.path)).contains e.transaction.path) = true
      rw [hall, List.contains_iff_mem.mpr (List.mem_map.mpr ⟨e, hmem, rfl⟩), Bool.or_true]
  · next hdebug =>
    obtain ⟨file, -, hfile⟩ := List.mem_filterMap.mp hentry
    rw [(entryOf_eq_some.mp hfile).2.2.2, ← hsame]
    exact hwhy.resolve_right fun h => hdebug h.1

end Again

section Removed

/-- Whether no record at a path is to be removed. -/
def keepsPath (entries : List (Entry P ρ)) (path : String) : Bool :=
  decide (∀ entry ∈ entries, entry.transaction.path = path → entry.retain = true)

omit [LinearOrder P] in
/-- A file is kept unless its record is not retained. -/
theorem collectFile_isSome (format : RecordFormat γ P ρ) {entries : List (Entry P ρ)}
    (hnodup : (entries.map (·.transaction.path)).Nodup) (file : File γ) :
    (collectFile format entries file).isSome = keepsPath entries file.path := by
  unfold collectFile keepsPath
  cases hfind : entries.find? fun entry => entry.transaction.path == file.path with
  | none =>
    have hnone := List.find?_eq_none.mp hfind
    refine (decide_eq_true ?_).symm
    intro entry hentry hpath
    exact absurd (beq_iff_eq.mpr hpath) (hnone entry hentry)
  | some found =>
    have hmem := List.mem_of_find?_eq_some hfind
    have hpath : found.transaction.path = file.path :=
      eq_of_beq (List.find?_some (p := fun e : Entry P ρ => e.transaction.path == file.path) hfind)
    have honly : (∀ entry ∈ entries, entry.transaction.path = file.path →
        entry.retain = true) ↔ found.retain = true := by
      constructor
      · exact fun h => h found hmem hpath
      · intro h entry hentry hsame
        rw [List.inj_on_of_nodup_map hnodup hentry hmem (hsame.trans hpath.symm)]
        exact h
    have hdecide : decide (∀ entry ∈ entries, entry.transaction.path = file.path →
        entry.retain = true) = found.retain := by
      rw [Bool.eq_iff_iff, decide_eq_true_iff]
      exact honly
    rw [hdecide]
    by_cases hretain : found.retain = true
    · simp only [hretain, if_true]
      split
      · rfl
      · rfl
    · simp only [hretain, if_false, Option.isSome_none, Bool.false_eq_true]

omit [LinearOrder P] in
theorem collected_paths (format : RecordFormat γ P ρ) {entries : List (Entry P ρ)}
    (hnodup : (entries.map (·.transaction.path)).Nodup) (files : List (File γ)) :
    (files.filterMap (collectFile format entries)).map (·.path) =
      (files.map (·.path)).filter (keepsPath entries) := by
  induction files with
  | nil => rfl
  | cons file files ih =>
    have hkept := collectFile_isSome format hnodup file
    rw [List.map_cons]
    cases hcollect : collectFile format entries file with
    | none =>
      rw [hcollect, Option.isSome_none] at hkept
      have hgone : ¬ keepsPath entries file.path = true := by
        rw [← hkept]
        exact Bool.false_ne_true
      rw [List.filterMap_cons_none hcollect, ih, List.filter_cons_of_neg hgone]
    | some file' =>
      rw [hcollect, Option.isSome_some] at hkept
      rw [List.filterMap_cons_some hcollect, List.map_cons, collectFile_path format hcollect, ih,
        List.filter_cons_of_pos hkept.symm]

/-- As many files go as there are entries that are not retained. -/
theorem collected_length {files : List (File γ)} (hnodup : (files.map (·.path)).Nodup) :
    (files.filterMap (collectFile format (scan format call files))).length +
      (scan format call files).countP (fun entry => !entry.retain) = files.length := by
  have hentries : ((scan format call files).map (·.transaction.path)).Nodup := scan_nodup hnodup
  have hlength := congrArg List.length (collected_paths format hentries files)
  rw [List.length_map] at hlength
  have hgone : (((scan format call files).filter fun entry => !entry.retain).map
      (·.transaction.path)).Perm
        ((files.map (·.path)).filter fun path => !keepsPath (scan format call files) path) := by
    apply (List.perm_ext_iff_of_nodup ((List.filter_sublist.map _).nodup hentries)
      (hnodup.filter _)).mpr
    intro path
    rw [List.mem_map, List.mem_filter]
    constructor
    · rintro ⟨entry, hentry, rfl⟩
      obtain ⟨hmem, hretain⟩ := List.mem_filter.mp hentry
      obtain ⟨file, hfile, hread, -⟩ := mem_scan hmem
      refine ⟨List.mem_map.mpr ⟨file, hfile, (readRecord_path hread).symm⟩, ?_⟩
      rw [Bool.not_eq_true', keepsPath, decide_eq_false_iff_not]
      intro hall
      rw [hall entry hmem rfl] at hretain
      cases hretain
    · rintro ⟨-, hdropped⟩
      rw [Bool.not_eq_true', keepsPath, decide_eq_false_iff_not] at hdropped
      push Not at hdropped
      obtain ⟨entry, hentry, hpath, hretain⟩ := hdropped
      refine ⟨entry, List.mem_filter.mpr ⟨hentry, ?_⟩, hpath⟩
      simpa only [Bool.not_eq_true'] using (Bool.not_eq_true _).mp hretain
  have hcount := hgone.length_eq
  rw [List.length_map] at hcount
  have htotal := List.length_eq_length_filter_add (l := files.map (·.path))
    (keepsPath (scan format call files))
  rw [List.length_map] at htotal
  rw [hlength, List.countP_eq_length_filter, hcount, htotal]

end Removed

section Foretell

variable [DecidableEq σ] (format : RecordFormat γ P ρ) (storeOf : P → Option σ)

/-- `prunable_refs` of a run. -/
def prunableOf (w : World γ σ) (call : Call P) : List (P × List String) :=
  prunableRefs storeOf w call (scan format call w.files) (invalid format w.files).length

/-- A dry run changes nothing. Where it fails, the run that follows fails in the
same way and changes nothing either; where it reports and every prunable ref is a
valid one, the run that follows reports the same and removes exactly the prunable
refs and the records that are not retained, and a second one, in whatever order it
reads the files, removes, rewrites and prunes nothing; where a prunable ref is not
valid, the run that follows is refused. -/
structure DryRunForetells (w : World γ σ) (call : Call P) : Prop where
  untouched : (gcTransactions format storeOf w call true).1 = w
  fails : ∀ failure, (gcTransactions format storeOf w call true).2 = .error failure →
    gcTransactions format storeOf w call false = (w, .error failure)
  reports : ∀ r, (gcTransactions format storeOf w call true).2 = .ok r →
    (∀ batch ∈ prunableOf format storeOf w call, batchPasses batch.2 = true) →
    (gcTransactions format storeOf w call false).2 =
      .ok { r with dryRun := false, recoveryRefsRemoved := r.recoveryRefsPrunable }
  refused : ∀ r, (gcTransactions format storeOf w call true).2 = .ok r →
    (∃ batch ∈ prunableOf format storeOf w call, batchPasses batch.2 = false) →
    ∃ batch ∈ prunableOf format storeOf w call, ∃ reference ∈ batch.2,
      validRecoveryRef reference = false ∧
        (gcTransactions format storeOf w call false).2 = .error (refusal reference)
  refs : ∀ r, (gcTransactions format storeOf w call false).2 = .ok r → ∀ store reference,
    reference ∈ (gcTransactions format storeOf w call false).1.refs store ↔
      reference ∈ w.refs store ∧ ∀ batch ∈ prunableOf format storeOf w call,
        storeOf batch.1 = some store → reference ∉ batch.2
  records : ∀ r, (gcTransactions format storeOf w call false).2 = .ok r →
    (gcTransactions format storeOf w call false).1.files.map (·.path) =
      (w.files.map (·.path)).filter (keepsPath (scan format call w.files)) ∧
    (gcTransactions format storeOf w call false).1.files.length + r.removed = w.files.length
  again : ∀ r, (gcTransactions format storeOf w call false).2 = .ok r → ∀ w₂ : World γ σ,
    w₂.files.Perm (gcTransactions format storeOf w call false).1.files →
    w₂.refs = (gcTransactions format storeOf w call false).1.refs →
    ∃ r₂, gcTransactions format storeOf w₂ call false = (w₂, .ok r₂) ∧
      r₂.removed = 0 ∧ r₂.compacted = 0 ∧ r₂.recoveryRefsPrunable = 0

/-- What a run that is not dry comes to. -/
theorem gcTransactions_ok {w : World γ σ} {call : Call P} {r : Report}
    (h : (gcTransactions format storeOf w call false).2 = .ok r) :
    refusedRecord (scan format call w.files) = none ∧
      (∀ batch ∈ prunableOf format storeOf w call, batchPasses batch.2 = true) ∧
      r = report format storeOf w call false ∧
      (gcTransactions format storeOf w call false).1 = collectFiles format
        (scan format call w.files) (deleteBatches storeOf w (prunableOf format storeOf w call)).1 := by
  unfold gcTransactions at h ⊢
  dsimp only at h ⊢
  cases hrefused : refusedRecord (scan format call w.files) with
  | some reference =>
    rw [hrefused] at h
    cases h
  | none =>
    rw [hrefused] at h
    simp only [Bool.false_eq_true, if_false] at h ⊢
    cases hswept : (deleteBatches storeOf w (prunableRefs storeOf w call
        (scan format call w.files) (invalid format w.files).length)).2 with
    | error failure =>
      rw [hswept] at h
      cases h
    | ok done =>
      rw [hswept] at h
      refine ⟨trivial, (deleteBatches_ok storeOf w _).mp hswept, (Except.ok.inj h).symm, ?_⟩
      rfl

omit [DecidableEq σ] in
/-- Every listed path of the second run was listed by the first. -/
theorem projectPaths_second {w w₂ : World γ σ} {call : Call P}
    (hperm : w₂.files.Perm
      (w.files.filterMap (collectFile format (scan format call w.files)))) {path : P}
    (h : path ∈ projectPaths call (scan format call w₂.files)) :
    path ∈ projectPaths call (scan format call w.files) := by
  rw [projectPaths, List.mem_insertionSort, List.mem_dedup, List.mem_append] at h ⊢
  rcases h with hmanaged | hrecorded
  · exact Or.inl hmanaged
  · obtain ⟨entry₂, hentry₂, rfl⟩ := List.mem_map.mp hrecorded
    obtain ⟨⟨entry, hentry, -, hsame⟩, -⟩ := entry_of_second w.nodup hperm hentry₂
    exact Or.inr (List.mem_map.mpr ⟨entry, hentry, by rw [hsame]⟩)

omit [DecidableEq σ] in
/-- What the first run requires at a path, the second one requires too. -/
theorem requiredRefs_second {w w₂ : World γ σ} {call : Call P}
    (hperm : w₂.files.Perm
      (w.files.filterMap (collectFile format (scan format call w.files)))) {path : P}
    {reference : String}
    (h : reference ∈ requiredRefs (scan format call w.files) path) :
    reference ∈ requiredRefs (scan format call w₂.files) path := by
  rw [requiredRefs, List.mem_flatMap] at h ⊢
  obtain ⟨entry, hentry, hneeded⟩ := h
  obtain ⟨hmem, hkept⟩ := List.mem_filter.mp hentry
  obtain ⟨hretain, hpath⟩ := Bool.and_eq_true_iff.mp hkept
  obtain ⟨entry₂, hentry₂, hsame⟩ := reread_of_retained w.nodup hperm hmem hretain
  refine ⟨entry₂, List.mem_filter.mpr ⟨hentry₂, ?_⟩, by rw [hsame]; exact hneeded⟩
  rw [second_retains w.nodup hperm w₂.nodup hentry₂, hsame, hpath, Bool.true_and]

/-- A second run finds nothing to do. -/
theorem second_run {w w₂ : World γ σ} {call : Call P} {r : Report}
    (hok : (gcTransactions format storeOf w call false).2 = .ok r)
    (hperm : w₂.files.Perm (gcTransactions format storeOf w call false).1.files)
    (hrefs : w₂.refs = (gcTransactions format storeOf w call false).1.refs) :
    ∃ r₂, gcTransactions format storeOf w₂ call false = (w₂, .ok r₂) ∧
      r₂.removed = 0 ∧ r₂.compacted = 0 ∧ r₂.recoveryRefsPrunable = 0 := by
  obtain ⟨hrefused, hpass, -, hworld⟩ := gcTransactions_ok format storeOf hok
  have hfiles : (gcTransactions format storeOf w call false).1.files =
      w.files.filterMap (collectFile format (scan format call w.files)) := by
    rw [hworld]
    exact congrArg (List.filterMap (collectFile format (scan format call w.files)))
      (deleteBatches_files storeOf w _)
  have hstore : (gcTransactions format storeOf w call false).1.refs =
      (deleteBatches storeOf w (prunableOf format storeOf w call)).1.refs := by
    rw [hworld]
    rfl
  rw [hfiles] at hperm
  rw [hstore] at hrefs
  -- What the second run lists was retained by the first, in its compact form.
  have hretains : ∀ entry₂ ∈ scan format call w₂.files, entry₂.retain = true := fun entry₂ h =>
    second_retains w.nodup hperm w₂.nodup h
  have hshort : ∀ entry₂ ∈ scan format call w₂.files,
      entry₂.originalBytes ≤ entry₂.compactBytes := fun entry₂ h =>
    (entry_of_second w.nodup hperm h).2
  have hrefused₂ : refusedRecord (scan format call w₂.files) = none := by
    refine refusedRecord_eq_none.mpr fun entry₂ h _ => ?_
    obtain ⟨⟨entry, hentry, hretain, hsame⟩, -⟩ := entry_of_second w.nodup hperm h
    rw [← hsame]
    exact refusedRecord_eq_none.mp hrefused entry hentry hretain
  -- A ref that is not needed now was not needed before, and the first run swept its path.
  have hnothing : prunableOf format storeOf w₂ call = [] := by
    by_cases hinvalid₂ : invalid format w₂.files = []
    · -- then every file of the first run parses too
      have hinvalid : invalid format w.files = [] := by
        apply List.eq_nil_iff_forall_not_mem.mpr
        intro file hfile
        have hkept : file ∈ w₂.files := hperm.mem_iff.mpr (collected_invalid w hfile)
        have hmem : file ∈ invalid format w₂.files :=
          List.mem_filter.mpr ⟨hkept, (List.mem_filter.mp hfile).2⟩
        rw [hinvalid₂] at hmem
        cases hmem
      rw [prunableOf, hinvalid, List.length_nil] at hpass hrefs
      rw [prunableOf, hinvalid₂, List.length_nil, prunableRefs, if_pos rfl,
        List.filter_eq_nil_iff]
      rintro batch hbatch
      obtain ⟨path, hpath, rfl⟩ := List.mem_map.mp hbatch
      suffices hempty : unneeded storeOf w₂ (scan format call w₂.files) path = [] by
        rw [hempty]
        exact fun h => by cases h
      apply List.eq_nil_iff_forall_not_mem.mpr
      intro reference hunneeded
      cases hstore : storeOf path with
      | none =>
        rw [unneeded, listRecoveryRefs, hstore] at hunneeded
        cases hunneeded
      | some store =>
        obtain ⟨hreference, hlisted, hfree⟩ := (mem_unneeded storeOf hstore).mp hunneeded
        rw [hrefs] at hreference
        have hswept : path ∈ sweptPaths storeOf w call (scan format call w.files) := by
          have hall : ∀ p ∈ projectPaths call (scan format call w.files),
              batchPasses (unneeded storeOf w (scan format call w.files) p) = true := by
            intro p hp
            by_cases hnil : unneeded storeOf w (scan format call w.files) p = []
            · rw [hnil]
              rfl
            · refine hpass (p, unneeded storeOf w (scan format call w.files) p) ?_
              rw [prunableRefs, if_pos rfl, List.mem_filter]
              refine ⟨List.mem_map.mpr ⟨p, hp, rfl⟩, ?_⟩
              rw [Bool.not_eq_true', List.isEmpty_eq_false_iff]
              exact hnil
          rw [sweptPaths, List.takeWhile_eq_self_iff.mpr hall]
          exact projectPaths_second format hperm hpath
        have hrequired := ((mem_swept storeOf).mp hreference).2 path hswept hstore hlisted
        exact hfree (requiredRefs_second format hperm hrequired)
    · rw [prunableOf, prunableRefs, if_neg fun h => hinvalid₂ (List.length_eq_zero_iff.mp h)]
  -- The second run keeps every file as it is.
  have hkeeps : w₂.files.filterMap (collectFile format (scan format call w₂.files)) = w₂.files := by
    have hsome : ∀ file ∈ w₂.files, collectFile format (scan format call w₂.files) file =
        some file := by
      intro file _
      unfold collectFile
      cases hfind : (scan format call w₂.files).find? fun e => e.transaction.path == file.path with
      | none => rfl
      | some entry =>
        have hmem := List.mem_of_find?_eq_some hfind
        simp only [hretains entry hmem, if_true, Nat.not_lt.mpr (hshort entry hmem), if_false]
    calc w₂.files.filterMap (collectFile format (scan format call w₂.files))
        = w₂.files.filterMap some := List.filterMap_congr hsome
      _ = w₂.files := List.filterMap_some
  refine ⟨report format storeOf w₂ call false, ?_, ?_, ?_, ?_⟩
  · unfold gcTransactions
    dsimp only
    rw [hrefused₂]
    have hswept : deleteBatches storeOf w₂ (prunableRefs storeOf w₂ call
        (scan format call w₂.files) (invalid format w₂.files).length) = (w₂, .ok ()) := by
      rw [prunableOf] at hnothing
      rw [hnothing]
      rfl
    simp only [Bool.false_eq_true, if_false, hswept, Prod.mk.injEq, and_true]
    cases w₂
    simp only [collectFiles, World.mk.injEq, and_true]
    exact hkeeps
  · show (scan format call w₂.files).countP (fun entry => !entry.retain) = 0
    apply List.countP_eq_zero.mpr
    intro entry hentry
    rw [hretains entry hentry]
    exact Bool.false_ne_true
  · show (scan format call w₂.files).countP (fun entry =>
      entry.retain && decide (entry.compactBytes < entry.originalBytes)) = 0
    apply List.countP_eq_zero.mpr
    intro entry hentry
    rw [decide_eq_false (Nat.not_lt.mpr (hshort entry hentry)), Bool.and_false]
    exact Bool.false_ne_true
  · show ((prunableOf format storeOf w₂ call).map (·.2.length)).sum = 0
    rw [hnothing]
    rfl

/-- For every content of the directory and of the ref stores, a dry run tells what
the run that follows it does. -/
theorem gc_dry_run_foretells (w : World γ σ) (call : Call P) :
    DryRunForetells format storeOf w call := by
  have hdry : gcTransactions format storeOf w call true =
      (w, (refusedRecord (scan format call w.files)).elim
        (.ok (report format storeOf w call true)) fun reference => .error (refusal reference)) := by
    unfold gcTransactions
    dsimp only
    cases refusedRecord (scan format call w.files) with
    | some reference => rfl
    | none => rfl
  have hnone : ∀ r, (gcTransactions format storeOf w call true).2 = .ok r →
      refusedRecord (scan format call w.files) = none ∧ r = report format storeOf w call true := by
    intro r hr
    rw [hdry] at hr
    cases hrefused : refusedRecord (scan format call w.files) with
    | some reference =>
      rw [hrefused] at hr
      cases hr
    | none =>
      rw [hrefused] at hr
      exact ⟨rfl, (Except.ok.inj hr).symm⟩
  -- The failure, the run that succeeds and the one that does not, the refs, the files
  -- with their number, and the second run.
  refine ⟨by rw [hdry], fun failure hfailure => ?_, fun r hr hpass => ?_, fun r hr hfails => ?_,
    fun r hr store reference => ?_, fun r hr => ⟨?_, ?_⟩, fun r hr w₂ hperm hrefs => ?_⟩
  · rw [hdry] at hfailure
    unfold gcTransactions
    dsimp only
    cases hrefused : refusedRecord (scan format call w.files) with
    | some reference =>
      rw [hrefused] at hfailure
      rw [← Except.error.inj hfailure]
    | none =>
      rw [hrefused] at hfailure
      cases hfailure
  · obtain ⟨hrefused, rfl⟩ := hnone r hr
    have hok := (deleteBatches_ok storeOf w _).mpr hpass
    rw [prunableOf] at hok
    unfold gcTransactions
    simp only [hrefused, Bool.false_eq_true, if_false, hok]
    rfl
  · obtain ⟨hrefused, -⟩ := hnone r hr
    obtain ⟨reference, batch, hbatch, hmem, hinvalid, herror⟩ :=
      deleteBatches_error storeOf w hfails
    refine ⟨batch, hbatch, reference, hmem, hinvalid, ?_⟩
    rw [prunableOf] at herror
    unfold gcTransactions
    simp only [hrefused, Bool.false_eq_true, if_false, herror]
  · obtain ⟨-, hpass, -, hworld⟩ := gcTransactions_ok format storeOf hr
    have hall : (prunableOf format storeOf w call).takeWhile (fun batch => batchPasses batch.2) =
        prunableOf format storeOf w call := List.takeWhile_eq_self_iff.mpr hpass
    rw [hworld]
    show reference ∈ (deleteBatches storeOf w (prunableOf format storeOf w call)).1.refs store ↔ _
    rw [mem_deleteBatches, hall]
  · obtain ⟨-, -, -, hworld⟩ := gcTransactions_ok format storeOf hr
    rw [hworld]
    show ((deleteBatches storeOf w (prunableOf format storeOf w call)).1.files.filterMap
      (collectFile format (scan format call w.files))).map (·.path) = _
    rw [deleteBatches_files]
    exact collected_paths format (scan_nodup w.nodup) w.files
  · obtain ⟨-, -, rfl, hworld⟩ := gcTransactions_ok format storeOf hr
    rw [hworld]
    show ((deleteBatches storeOf w (prunableOf format storeOf w call)).1.files.filterMap
      (collectFile format (scan format call w.files))).length +
        (scan format call w.files).countP (fun entry => !entry.retain) = w.files.length
    rw [deleteBatches_files]
    exact collected_length w.nodup
  · exact second_run format storeOf hr hperm hrefs

end Foretell

section Refused

/-- A checkout with a ref in the recovery namespace whose name holds a no-break
space, which Git allows. -/
def strayRef : World (Option (Record ℕ Unit) × ℕ) Unit where
  files := []
  refs _ := ["refs/resync/recovery/a\u00a0b/head"]
  nodup := List.nodup_nil

def oneManaged : Call ℕ := ⟨[0], [], ⟨false⟩⟩

/-- The dry run reports the ref as prunable, and the run that follows refuses it. -/
theorem refused_ref_is_not_foretold : ∃ r,
    (gcTransactions plainFormat (fun _ => some ()) strayRef oneManaged true).2 = .ok r ∧
    r.recoveryRefsPrunable = 1 ∧
    gcTransactions plainFormat (fun _ => some ()) strayRef oneManaged false =
      (strayRef, .error (refusal "refs/resync/recovery/a\u00a0b/head")) :=
  ⟨report plainFormat (fun _ => some ()) strayRef oneManaged true, by decide +kernel,
    by decide +kernel, rfl⟩

end Refused

end Gc

end Resync
