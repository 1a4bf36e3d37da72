import Resync.EngineRecords

/-! The recovery of one record among all the records of the transactions
directory: which records can be recovered, what the recovery writes, and what it
leaves of the other records and checkouts. -/
namespace Resync

variable {β : Type}

/-- Only the records themselves can be written where the checkout is gone. -/
def EngineWrite.Reaches (e : Engine β) : EngineWrite β → Prop
  | .action _ (.writeJournal _) | .action _ (.removeJournal _) => True
  | .action path _ | .recoveryRef path _ _ _ => e.removed path = false

theorem EngineWrite.Reaches.congr {e e' : Engine β} {w : EngineWrite β} (h : w.Reaches e)
    (hremoved : e'.removed = e.removed) : w.Reaches e' := by
  have hpath : ∀ path, e.removed path = false → e'.removed path = false := by
    intro path hp
    rw [hremoved]
    exact hp
  cases w with
  | recoveryRef path name slot commit => exact hpath path h
  | action path a =>
    cases a with
    | writeJournal t => trivial
    | removeJournal id => trivial
    | readTreeReset tree | readTree tree | updateRef branch new old | deleteRecovery name slot =>
      exact hpath path h

theorem located_reaches {e : Engine β} {path : String} (h : e.removed path = false)
    (as : List (Action β)) : ∀ w ∈ as.map (.action path), EngineWrite.Reaches e w := by
  intro w hw
  obtain ⟨a, -, rfl⟩ := List.mem_map.mp hw
  cases a with
  | writeJournal t => trivial
  | removeJournal id => trivial
  | readTreeReset tree | readTree tree | updateRef branch new old | deleteRecovery name slot =>
    exact h

namespace Engine

section Writes

variable [DecidableEq β]

theorem execute_append (e : Engine β) (ws vs : List (EngineWrite β)) :
    e.execute (ws ++ vs) =
      if (e.execute ws).2 then (e.execute ws).1.execute vs else e.execute ws := by
  induction ws generalizing e with
  | nil => rfl
  | cons w ws ih =>
    rw [List.cons_append, execute, execute]
    cases e.perform w with
    | none => rfl
    | some e' => exact ih e'

/-- Writes of which the first part goes through. -/
theorem execute_append_of_done {e : Engine β} {ws : List (EngineWrite β)}
    (h : (e.execute ws).2 = true) (vs : List (EngineWrite β)) :
    e.execute (ws ++ vs) = (e.execute ws).1.execute vs := by
  rw [execute_append, if_pos h]

theorem done_of_append {e : Engine β} {ws vs : List (EngineWrite β)}
    (h : (e.execute (ws ++ vs)).2 = true) :
    (e.execute ws).2 = true ∧ ((e.execute ws).1.execute vs).2 = true := by
  rw [execute_append] at h
  split at h
  · next hdone => exact ⟨hdone, h⟩
  · next hdone => exact absurd h hdone

/-- No write of the engine makes or removes a checkout. -/
theorem perform_removed {e e' : Engine β} {w : EngineWrite β} (h : e.perform w = some e') :
    e'.removed = e.removed := by
  have hcheckout : ∀ path (a : Action β),
      (if e.removed path then none
        else ((e.checkout path).perform a).map fun c => e.setRepo path c.repo) = some e' →
          e'.removed = e.removed := by
    intro path a ha
    split at ha
    · cases ha
    · obtain ⟨c, -, rfl⟩ := Option.map_eq_some_iff.mp ha
      rfl
  cases w with
  | recoveryRef path name slot commit =>
    rw [perform] at h
    split at h
    · cases h
    · obtain rfl := Option.some.inj h
      rfl
  | action path a =>
    cases a with
    | writeJournal t =>
      obtain rfl := Option.some.inj h
      rfl
    | removeJournal id =>
      obtain rfl := Option.some.inj h
      rfl
    | readTreeReset tree => exact hcheckout path (.readTreeReset tree) h
    | readTree tree => exact hcheckout path (.readTree tree) h
    | updateRef branch new old => exact hcheckout path (.updateRef branch new old) h
    | deleteRecovery name slot => exact hcheckout path (.deleteRecovery name slot) h

theorem execute_removed (e : Engine β) (ws : List (EngineWrite β)) :
    (e.execute ws).1.removed = e.removed := by
  induction ws generalizing e with
  | nil => rfl
  | cons w ws ih =>
    rw [execute]
    split
    · rfl
    · next e' he' => exact (ih e').trans (perform_removed he')

theorem Sound.perform {e e' : Engine β} (h : e.Sound) {w : EngineWrite β} (hw : w.Sound)
    (hperform : e.perform w = some e') : e'.Sound := by
  have hkept : e'.records = e.records → e'.Sound := by
    intro hrecords
    refine ⟨fun id s hs => ?_, fun id s hs => ?_⟩
    · exact h.filed id s (hrecords ▸ hs)
    · exact h.candidate id s (hrecords ▸ hs)
  have hcheckout : ∀ path (a : Action β),
      (if e.removed path then none
        else ((e.checkout path).perform a).map fun c => e.setRepo path c.repo) = some e' →
          e'.records = e.records := by
    intro path a ha
    split at ha
    · cases ha
    · obtain ⟨c, -, rfl⟩ := Option.map_eq_some_iff.mp ha
      rfl
  cases w with
  | recoveryRef path name slot commit =>
    apply hkept
    rw [Engine.perform] at hperform
    split at hperform
    · cases hperform
    · rw [← Option.some.inj hperform]
      rfl
  | action path a =>
    cases a with
    | writeJournal t =>
      obtain rfl := Option.some.inj hperform
      refine ⟨fun id s hs => ?_, fun id s hs hphase => ?_⟩
      · rw [file, FiniteMap.get_set] at hs
        by_cases hid : id = t.id
        · rw [hid, Function.update_self] at hs
          rw [← Option.some.inj hs]
          exact hid.symm
        · rw [Function.update_of_ne hid] at hs
          exact h.filed id s hs
      · rw [file, FiniteMap.get_set] at hs
        by_cases hid : id = t.id
        · rw [hid, Function.update_self] at hs
          obtain rfl := Option.some.inj hs
          exact hw hphase
        · rw [Function.update_of_ne hid] at hs
          exact h.candidate id s hs hphase
    | removeJournal key =>
      obtain rfl := Option.some.inj hperform
      have hsome : ∀ id s, (e.records.set key none).get id = some s →
          e.records.get id = some s := by
        intro id s hs
        rw [FiniteMap.get_set] at hs
        by_cases hid : id = key
        · rw [hid, Function.update_self] at hs
          cases hs
        · rwa [Function.update_of_ne hid] at hs
      exact ⟨fun id s hs => h.filed id s (hsome id s hs),
        fun id s hs => h.candidate id s (hsome id s hs)⟩
    | readTreeReset tree => exact hkept (hcheckout path (.readTreeReset tree) hperform)
    | readTree tree => exact hkept (hcheckout path (.readTree tree) hperform)
    | updateRef branch new old => exact hkept (hcheckout path (.updateRef branch new old) hperform)
    | deleteRecovery name slot => exact hkept (hcheckout path (.deleteRecovery name slot) hperform)

theorem Sound.execute {e : Engine β} (h : e.Sound) {ws : List (EngineWrite β)}
    (hws : ∀ w ∈ ws, w.Sound) : (e.execute ws).1.Sound := by
  induction ws generalizing e with
  | nil => exact h
  | cons w ws ih =>
    rw [Engine.execute]
    split
    · exact h
    · next e' he' =>
      exact ih (h.perform (hws w List.mem_cons_self) he') fun v hv =>
        hws v (List.mem_cons_of_mem w hv)

/-- What a quiet write at a path with a checkout leaves. -/
theorem perform_quiet {e : Engine β} {w : EngineWrite β} (hw : w.Quiet) (hreach : w.Reaches e) :
    ∃ e', e.perform w = some e' ∧ ∀ path, SameWorkspace (e.repos path) (e'.repos path) := by
  have hset : ∀ path (r : Repository β), SameWorkspace (e.repos path) r →
      ∀ q, SameWorkspace (e.repos q) ((e.setRepo path r).repos q) := by
    intro path r hr q
    show SameWorkspace (e.repos q) (Function.update e.repos path r q)
    by_cases hq : q = path
    · rw [hq, Function.update_self]
      exact hr
    · rw [Function.update_of_ne hq]
  cases w with
  | recoveryRef path name slot commit =>
    have hpath : e.removed path = false := hreach
    refine ⟨_, ?_, hset path _ (SameWorkspace.setRecovery (e.repos path) name slot (some commit))⟩
    simp only [perform, hpath, Bool.false_eq_true, if_false]
  | action path a =>
    cases a with
    | writeJournal t => exact ⟨_, rfl, fun q => SameWorkspace.refl (e.repos q)⟩
    | removeJournal id => exact ⟨_, rfl, fun q => SameWorkspace.refl (e.repos q)⟩
    | deleteRecovery name slot =>
      have hpath : e.removed path = false := hreach
      refine ⟨_, ?_, hset path _ (SameWorkspace.setRecovery (e.repos path) name slot none)⟩
      simp only [perform, hpath, Bool.false_eq_true, if_false]
      rfl
    | readTreeReset tree => exact False.elim hw
    | readTree tree => exact False.elim hw
    | updateRef branch new old => exact False.elim hw

/-- A Git command at a path without a checkout fails. -/
theorem perform_of_not_reaches {e : Engine β} {w : EngineWrite β} (h : ¬ w.Reaches e) :
    e.perform w = none := by
  cases w with
  | recoveryRef path name slot commit =>
    exact if_pos (Bool.not_eq_false _ ▸ h)
  | action path a =>
    cases a with
    | writeJournal t => exact absurd trivial h
    | removeJournal id => exact absurd trivial h
    | readTreeReset tree | readTree tree | updateRef branch new old | deleteRecovery name slot =>
      exact if_pos (Bool.not_eq_false _ ▸ h)

/-- No capture of any checkout sees quiet writes, however many of them go
through. -/
theorem execute_quiet (e : Engine β) {ws : List (EngineWrite β)} (h : ∀ w ∈ ws, w.Quiet)
    (path : String) : SameWorkspace (e.repos path) ((e.execute ws).1.repos path) := by
  induction ws generalizing e with
  | nil => exact SameWorkspace.refl (e.repos path)
  | cons w ws ih =>
    by_cases hreach : w.Reaches e
    · obtain ⟨e', he', hsame⟩ := perform_quiet (h w List.mem_cons_self) hreach
      simp only [execute, he']
      exact (hsame path).trans (ih e' fun v hv => h v (List.mem_cons_of_mem w hv))
    · rw [execute, perform_of_not_reaches hreach]

/-- Quiet writes at paths with checkouts go through. -/
theorem execute_done (e : Engine β) {ws : List (EngineWrite β)} (h : ∀ w ∈ ws, w.Quiet)
    (hreach : ∀ w ∈ ws, w.Reaches e) : (e.execute ws).2 = true := by
  induction ws generalizing e with
  | nil => rfl
  | cons w ws ih =>
    obtain ⟨e', he', -⟩ := perform_quiet (h w List.mem_cons_self) (hreach w List.mem_cons_self)
    simp only [execute, he']
    exact ih e' (fun v hv => h v (List.mem_cons_of_mem w hv)) fun v hv =>
      (hreach v (List.mem_cons_of_mem w hv)).congr (perform_removed he')

/-- The clean-up of one transaction takes its record away, and no other. Where
its checkout is gone, the first command fails. -/
theorem execute_removal (e : Engine β) (s : StoredTransaction β) :
    (e.removed s.projectPath = true → e.execute s.removal = (e, false)) ∧
      (e.removed s.projectPath = false → (e.execute s.removal).2 = true ∧
        (e.execute s.removal).1.records = e.records.set s.transaction.id none) := by
  constructor
  · intro hgone
    have hfirst : e.perform (.action s.projectPath
        (.deleteRecovery s.transaction.recoveryRef .head)) = none :=
      perform_of_not_reaches fun hreach => Bool.false_ne_true (hreach.symm.trans hgone)
    simp only [StoredTransaction.removal, removeTransactionArtifacts, List.map_cons, execute,
      hfirst]
  · intro hpath
    have hquiet := located_quiet (removeTransactionArtifacts_quiet s.transaction) s.projectPath
    refine ⟨execute_done e hquiet (located_reaches hpath _), ?_⟩
    simp only [StoredTransaction.removal, removeTransactionArtifacts, List.map_cons, List.map_nil,
      execute, perform, Checkout.perform, setRepo, hpath, Bool.false_eq_true, if_false,
      Option.map_some]

theorem execute_removals {e : Engine β} {olds : List (StoredTransaction β)} (id : String)
    (hdone : (e.execute (olds.flatMap (·.removal))).2 = true) :
    (e.execute (olds.flatMap (·.removal))).1.records.get id =
      if ∃ old ∈ olds, old.transaction.id = id then none else e.records.get id := by
  induction olds generalizing e with
  | nil =>
    rw [if_neg (fun ⟨_, h, _⟩ => by cases h)]
    rfl
  | cons old olds ih =>
    rw [List.flatMap_cons] at hdone
    obtain ⟨hfirst, hrest⟩ := done_of_append hdone
    have hpath : e.removed old.projectPath = false := by
      by_contra hgone
      rw [(execute_removal e old).1 (Bool.not_eq_false _ ▸ hgone)] at hfirst
      cases hfirst
    rw [List.flatMap_cons, execute_append_of_done hfirst, ih hrest,
      ((execute_removal e old).2 hpath).2, FiniteMap.get_set]
    by_cases hid : id = old.transaction.id
    · rw [hid, Function.update_self, ite_self, if_pos ⟨old, List.mem_cons_self, rfl⟩]
    · rw [Function.update_of_ne hid]
      apply if_congr _ rfl rfl
      constructor
      · rintro ⟨o, ho, he⟩
        exact ⟨o, List.mem_cons_of_mem old ho, he⟩
      · rintro ⟨o, ho, he⟩
        rcases List.mem_cons.mp ho with rfl | ho
        · exact absurd he.symm hid
        · exact ⟨o, ho, he⟩

end Writes

/-- The records that the history is chosen from. -/
def history (dir : RecordDirectory β) (e : Engine β) (protectedId : String) :
    List (StoredTransaction β) :=
  (e.scanned dir).filter fun s => s.Droppable ∧ s.transaction.id ≠ protectedId

theorem dropped_eq (dir : RecordDirectory β) (e : Engine β) (protectedId : String) :
    e.dropped dir protectedId =
      excess 1 0 (((e.history dir protectedId).map fun s => (dir.length s, s)).mergeSort
        fun left right =>
          decide (right.2.transaction.createdAt ≤ left.2.transaction.createdAt)) := by
  rw [dropped, passedOver, historyOf_records]
  rfl

/-- Only a record that may be dropped, and is not the one just written, is. -/
theorem mem_dropped {dir : RecordDirectory β} {e : Engine β} {protectedId : String}
    {old : StoredTransaction β} (h : old ∈ e.dropped dir protectedId) :
    (∃ id, e.records.get id = some old) ∧ old.Droppable ∧ old.transaction.id ≠ protectedId := by
  rw [dropped_eq] at h
  obtain ⟨entry, hentry, rfl⟩ := List.mem_map.mp ((excess_sublist _ _ _).subset h)
  obtain ⟨old, hold, rfl⟩ := List.mem_map.mp (List.mem_mergeSort.mp hentry)
  obtain ⟨hmem, hkept⟩ := List.mem_filter.mp hold
  obtain ⟨id, -, hid⟩ := List.mem_filterMap.mp hmem
  exact ⟨⟨id, hid⟩, of_decide_eq_true hkept⟩

variable [DecidableEq β]

/-- A finished transaction leaves its record under debug retention and nothing
otherwise; the other records stay but for the history that is dropped. -/
theorem finalizes_records (dir : RecordDirectory β) (env : Env β)
    (retention : TransactionRetention) {e : Engine β} {s : StoredTransaction β}
    (hdone : (e.execute (e.finalizes dir env retention s)).2 = true) (id : String) :
    (e.execute (e.finalizes dir env retention s)).1.records.get id =
      if id = s.transaction.id then (if retention.debugHistory then some s else none)
      else if retention.debugHistory ∧
          ∃ old ∈ (e.file s).dropped dir s.transaction.id, old.transaction.id = id then none
      else e.records.get id := by
  by_cases hdebug : retention.debugHistory = true
  · have hwrites : e.finalizes dir env retention s =
        .action s.projectPath (.writeJournal s.transaction) :: e.prunes dir s := by
      simp only [finalizes, finalizeTransaction, persistDebugTransaction, Env.unpruned, hdebug,
        if_true, List.flatMap_nil, List.map_cons, List.map_nil, List.cons_append, List.nil_append]
    rw [hwrites] at hdone ⊢
    have hprunes : ((e.file s).execute (e.prunes dir s)).2 = true := hdone
    show ((e.file s).execute (e.prunes dir s)).1.records.get id = _
    rw [prunes] at hprunes ⊢
    rw [execute_removals id hprunes, file, FiniteMap.get_set]
    simp only [hdebug, if_true, true_and]
    by_cases hid : id = s.transaction.id
    · -- the record that was just written is protected
      rw [if_pos hid, hid, Function.update_self]
      apply if_neg
      rintro ⟨old, hold, he⟩
      exact (mem_dropped hold).2.2 he
    · rw [if_neg hid, Function.update_of_ne hid]
  · have hwrites : e.finalizes dir env retention s = s.removal := by
      simp only [finalizes, finalizeTransaction, hdebug, if_false, List.append_nil,
        StoredTransaction.removal, Bool.false_eq_true]
    rw [hwrites] at hdone ⊢
    have hpath : e.removed s.projectPath = false := by
      by_contra hgone
      rw [(execute_removal e s).1 (Bool.not_eq_false _ ▸ hgone)] at hdone
      cases hdone
    rw [((execute_removal e s).2 hpath).2, FiniteMap.get_set]
    simp only [hdebug, if_false, false_and, Bool.false_eq_true]
    by_cases hid : id = s.transaction.id
    · rw [if_pos hid, hid, Function.update_self]
    · rw [if_neg hid, Function.update_of_ne hid]

/-- HEAD is at the candidate of the record. -/
def AtCandidate (e : Engine β) (s : StoredTransaction β) : Prop :=
  e.removed s.projectPath = false ∧ ∃ candidate ∈ s.transaction.candidate,
    (e.repos s.projectPath).headCommit = some candidate.realHead

/-- HEAD is at the snapshot of the record. -/
def AtSnapshot (e : Engine β) (s : StoredTransaction β) : Prop :=
  e.removed s.projectPath = false ∧
    (e.repos s.projectPath).headCommit = some s.transaction.snapshot.head

instance (e : Engine β) (s : StoredTransaction β) : Decidable (e.AtCandidate s) :=
  inferInstanceAs (Decidable (_ ∧ ∃ candidate ∈ s.transaction.candidate, _))

instance (e : Engine β) (s : StoredTransaction β) : Decidable (e.AtSnapshot s) :=
  inferInstanceAs (Decidable (_ ∧ _))

/-- Two states with the same checkouts, and the same HEADs. -/
structure SameHeads (e e' : Engine β) : Prop where
  removed : e'.removed = e.removed
  heads : ∀ path, (e'.repos path).headCommit = (e.repos path).headCommit

/-- The record of an installation whose HEAD is at the snapshot or at the
candidate. -/
def Preserved (e : Engine β) (s : StoredTransaction β) : Prop :=
  s.transaction.phase = .installing ∧ (e.AtCandidate s ∨ e.AtSnapshot s)

/-- The record of an installation whose HEAD is at neither, or whose checkout is
gone: it needs a person. -/
def Elsewhere (e : Engine β) (s : StoredTransaction β) : Prop :=
  s.transaction.phase = .installing ∧ ¬ (e.AtCandidate s ∨ e.AtSnapshot s)

/-- The record as a recovery leaves it, if there is something to recover. -/
def settledForm (env : Env β) (e : Engine β) (s : StoredTransaction β) : StoredTransaction β :=
  if s.transaction.phase = .installing then
    if e.AtCandidate s then
      { s with transaction :=
        { s.transaction with phase := .completed, recoveredAt := some env.now } }
    else if e.AtSnapshot s then
      { s with transaction :=
        { s.transaction with phase := .rolledBack, recoveredAt := some env.now } }
    else s
  else s

/-- The two `read-tree` commands of a rollback. -/
def rollback (e : Engine β) (s : StoredTransaction β) : List (EngineWrite β) :=
  if s.transaction.phase = .installing ∧ ¬ e.AtCandidate s then
    [.action s.projectPath (.readTreeReset s.transaction.snapshot.workingTree),
      .action s.projectPath (.readTree s.transaction.snapshot.indexTree)]
  else []

/-- The writes of a recovery that succeeds. -/
def recoverWrites (dir : RecordDirectory β) (env : Env β) (retention : TransactionRetention)
    (e : Engine β) (s : StoredTransaction β) : List (EngineWrite β) :=
  if s.transaction.phase = .preparing ∨ s.transaction.phase = .conflicted then []
  else e.rollback s ++ e.finalizes dir env retention (settledForm env e s)

/-- What the recovery of one record needs. Its refs are deleted unless it is kept
for the debug history. -/
structure CanRecover (retention : TransactionRetention) (e : Engine β)
    (s : StoredTransaction β) : Prop where
  known : s.transaction.phase ≠ .retry
  installing : s.transaction.phase = .installing →
    (e.AtCandidate s ∨ e.AtSnapshot s) ∧ (e.repos s.projectPath).unmerged = false
  removable : retention.debugHistory = false →
    s.transaction.phase = .completed ∨ s.transaction.phase = .rolledBack →
      e.removed s.projectPath = false

section Stored

variable {dir : RecordDirectory β} {env : Env β} {retention : TransactionRetention}
  {e : Engine β} {id : String} {s : StoredTransaction β}

omit [DecidableEq β] in
theorem checkout_transactions (hs : e.records.get id = some s) (path : String) :
    (e.checkout path).transactions id = some s.transaction := by
  show (e.records.get id).map (·.transaction) = some s.transaction
  rw [hs]
  rfl

/-- A record whose recovery needs something that is missing is refused, or its
first command fails. -/
theorem recoverStored_error (dir : RecordDirectory β) (env : Env β)
    (hs : e.records.get id = some s) (h : ¬ e.CanRecover retention s) :
    (∃ failure, e.recoverStored dir env retention id = .error failure) ∨
      e.recoverStored dir env retention id = .ok (s.removal, s.transaction) ∧
        e.execute s.removal = (e, false) := by
  have hrecord := checkout_transactions hs s.projectPath
  by_cases hinstalling : s.transaction.phase = .installing
  · left
    cases hgone : e.removed s.projectPath with
    | true =>
      refine ⟨.command, ?_⟩
      simp only [recoverStored, hs, hinstalling, hgone, and_self, if_true]
    | false =>
      have hfails : ∀ failure,
          (e.checkout s.projectPath).recoverActions env.unpruned retention id = .error failure →
          ∃ failure, e.recoverStored dir env retention id = .error failure := by
        intro failure hfailure
        refine ⟨failure, ?_⟩
        simp only [recoverStored, hs, hgone, hfailure, Bool.false_eq_true, and_false, if_false]
      cases hcapture : captureWorkspace (e.repos s.projectPath) with
      | none =>
        apply hfails .command
        have hcapture' : captureWorkspace (e.checkout s.projectPath).repo = none := hcapture
        simp only [Checkout.recoverActions, hrecord, hinstalling, hcapture']
      | some current =>
        obtain ⟨hhead, hmerged, -, -⟩ := captureWorkspace_eq_some.mp hcapture
        have haway : ¬ (e.AtCandidate s ∨ e.AtSnapshot s) := by
          intro hat
          refine h ⟨fun hretry => ?_, fun _ => ⟨hat, hmerged⟩, fun _ _ => hgone⟩
          rw [hinstalling] at hretry
          cases hretry
        have hcapture' : captureWorkspace (e.checkout s.projectPath).repo = some current := hcapture
        cases hcandidate : s.transaction.candidate with
        | none =>
          apply hfails (.bail "installing transaction has no candidate")
          simp only [Checkout.recoverActions, hrecord, hinstalling, hcapture', hcandidate]
        | some candidate =>
          have hnotCandidate : ¬ current.head = candidate.realHead := by
            intro hc
            exact haway (Or.inl ⟨hgone, candidate, hcandidate, hhead.trans (congrArg some hc)⟩)
          have hnotSnapshot : ¬ current.head = s.transaction.snapshot.head := by
            intro hc
            exact haway (Or.inr ⟨hgone, hhead.trans (congrArg some hc)⟩)
          apply hfails (.bail ("transaction " ++ id ++
            ".json needs manual recovery; HEAD matches neither preserved state"))
          simp only [Checkout.recoverActions, hrecord, hinstalling, hcapture', hcandidate,
            hnotCandidate, hnotSnapshot, if_false]
  by_cases hretry : s.transaction.phase = .retry
  · refine Or.inl ⟨.bail "unknown transaction phase RETRY", ?_⟩
    simp only [recoverStored, hs, Checkout.recoverActions, hrecord, hretry, reduceCtorEq, false_and,
      if_false]
  -- the record is finished, and its refs stand in a checkout that is gone
  · have hfinished : retention.debugHistory = false ∧
        (s.transaction.phase = .completed ∨ s.transaction.phase = .rolledBack) ∧
          e.removed s.projectPath = true := by
      by_contra hnot
      refine h ⟨hretry, fun hi => absurd hi hinstalling, fun hdebug hphase => ?_⟩
      by_contra hgone
      exact hnot ⟨hdebug, hphase, Bool.not_eq_false _ ▸ hgone⟩
    obtain ⟨hdebug, hphase, hgone⟩ := hfinished
    refine Or.inr ⟨?_, (execute_removal e s).1 hgone⟩
    rcases hphase with hphase | hphase
    all_goals
      simp only [recoverStored, hs, Checkout.recoverActions, hrecord, hphase, hdebug,
        finalizeTransaction, StoredTransaction.removal, reduceCtorEq, Bool.false_eq_true,
        false_and, if_false, List.append_nil]

/-- Every other record is recovered. -/
theorem recoverStored_ok (dir : RecordDirectory β) (env : Env β) (hsound : e.Sound)
    (hs : e.records.get id = some s) (h : e.CanRecover retention s) :
    e.recoverStored dir env retention id =
      .ok (e.recoverWrites dir env retention s, (settledForm env e s).transaction) := by
  have hrecord := checkout_transactions hs s.projectPath
  simp only [recoverStored, hs, Checkout.recoverActions, hrecord]
  cases hphase : s.transaction.phase with
  | preparing | conflicted =>
    simp only [recoverWrites, settledForm, hphase, reduceCtorEq, or_false, or_true, if_true,
      if_false, and_false, false_and, List.map_nil, List.append_nil, or_self]
  | completed | rolledBack =>
    simp only [recoverWrites, settledForm, rollback, finalizes, hphase, reduceCtorEq, or_false,
      or_true, if_false, and_true, false_and, List.nil_append, or_self]
  | retry => exact absurd hphase h.known
  | installing =>
    obtain ⟨hat, hmerged⟩ := h.installing hphase
    have hpath : e.removed s.projectPath = false := hat.elim (·.1) (·.1)
    obtain ⟨candidate, hcandidate⟩ :=
      Option.ne_none_iff_exists'.mp (hsound.candidate id s hs hphase)
    have hhead : ∃ commit, (e.repos s.projectPath).headCommit = some commit := by
      rcases hat with ⟨-, c, -, hc⟩ | ⟨-, hsnapshot⟩
      · exact ⟨_, hc⟩
      · exact ⟨_, hsnapshot⟩
    obtain ⟨commit, hcommit⟩ := hhead
    have hcapture : captureWorkspace (e.checkout s.projectPath).repo = some ⟨commit,
        (e.repos s.projectPath).index,
        temporaryIndex (e.repos s.projectPath) (e.repos s.projectPath).index⟩ :=
      captureWorkspace_eq_some.mpr ⟨hcommit, hmerged, rfl, rfl⟩
    have hatCandidate : e.AtCandidate s ↔ commit = candidate.realHead := by
      constructor
      · rintro ⟨-, c, hc, hhead⟩
        obtain rfl : candidate = c := Option.some.inj (hcandidate.symm.trans hc)
        exact Option.some.inj (hcommit.symm.trans hhead)
      · rintro rfl
        exact ⟨hpath, candidate, hcandidate, hcommit⟩
    simp only [hcapture, hcandidate, hpath, Bool.false_eq_true, and_false, if_false]
    by_cases hc : commit = candidate.realHead
    · have hat' := hatCandidate.mpr hc
      simp only [hc, if_true, recoverWrites, settledForm, rollback, finalizes, hphase, hat',
        hcandidate, reduceCtorEq, or_self, if_false, not_true_eq_false, and_false,
        List.nil_append, and_true, or_false]
      rfl
    · have hat' : ¬ e.AtCandidate s := fun h => hc (hatCandidate.mp h)
      have hsnapshot : e.AtSnapshot s := hat.resolve_left hat'
      have hcs : commit = s.transaction.snapshot.head :=
        Option.some.inj (hcommit.symm.trans hsnapshot.2)
      have hne : ¬ s.transaction.snapshot.head = candidate.realHead := by
        rw [← hcs]
        exact hc
      simp only [hcs, hne, if_true, recoverWrites, settledForm, rollback, finalizes, hphase, hat',
        hsnapshot, hcandidate, reduceCtorEq, or_self, if_false, not_false_eq_true, and_true,
        or_true, List.map_append, List.map_cons, List.map_nil, List.append_assoc]
      rfl

omit [DecidableEq β] in
theorem finalizes_congr {e₁ : Engine β} (h : e₁.records = e.records) (s : StoredTransaction β) :
    e₁.finalizes dir env retention s = e.finalizes dir env retention s := by
  have hdropped : (e₁.file s).dropped dir s.transaction.id =
      (e.file s).dropped dir s.transaction.id := by
    simp only [dropped, scanned, file, h]
  simp only [finalizes, prunes, hdropped]

theorem settledForm_id (env : Env β) (e : Engine β) (s : StoredTransaction β) :
    (settledForm env e s).transaction.id = s.transaction.id := by
  unfold settledForm
  split
  · split
    · rfl
    · split <;> rfl
  · rfl

theorem settledForm_projectPath (env : Env β) (e : Engine β) (s : StoredTransaction β) :
    (settledForm env e s).projectPath = s.projectPath := by
  unfold settledForm
  split
  · split
    · rfl
    · split <;> rfl
  · rfl

theorem settledForm_of_settled (env : Env β) (e : Engine β)
    (h : s.transaction.phase ≠ .installing) : settledForm env e s = s := if_neg h

/-- A record that can be recovered is no installation in progress afterwards. -/
theorem settledForm_phase (h : e.CanRecover retention s) :
    (settledForm env e s).transaction.phase ≠ .installing := by
  unfold settledForm
  split
  · next hphase =>
    split
    · exact fun h => by cases h
    · next hnot =>
      rw [if_pos ((h.installing hphase).1.resolve_left hnot)]
      exact fun h => by cases h
  · next hphase => exact hphase

/-- What the recovery of one record does to the checkouts and to the records. -/
structure Recovered (dir : RecordDirectory β) (env : Env β) (retention : TransactionRetention)
    (e : Engine β) (id : String) (s : StoredTransaction β) (e' : Engine β) : Prop where
  sound : e'.Sound
  heads : SameHeads e e'
  merged : ∀ path, (e.repos path).unmerged = false → (e'.repos path).unmerged = false
  workspace : s.transaction.phase ≠ .installing → ∀ path,
    SameWorkspace (e.repos path) (e'.repos path)
  own : ∀ s', e'.records.get id = some s' → s' = settledForm env e s
  kept : retention.debugHistory = true → e'.records.get id = some (settledForm env e s)
  others : ∀ id', id' ≠ id → e'.records.get id' = e.records.get id' ∨
    (retention.debugHistory = true ∧ s.transaction.phase ≠ .conflicted ∧
      e'.records.get id' = none ∧ ∃ old ∈ (e.file (settledForm env e s)).dropped dir id,
        old.transaction.id = id' ∧ old.Droppable ∧ e.records.get id' = some old)

omit [DecidableEq β] in
/-- What is dropped stood in the directory under its own ID. -/
theorem get_of_mem_dropped (hsound : e.Sound) (hs : s.transaction.id = id)
    {old : StoredTransaction β} (h : old ∈ (e.file s).dropped dir id) :
    e.records.get old.transaction.id = some old ∧ old.Droppable ∧ old.transaction.id ≠ id := by
  obtain ⟨⟨key, hkey⟩, hdroppable, hne⟩ := mem_dropped h
  rw [file, FiniteMap.get_set, hs] at hkey
  by_cases hid : key = id
  · rw [hid, Function.update_self] at hkey
    rw [← Option.some.inj hkey] at hne
    exact absurd hs hne
  · rw [Function.update_of_ne hid] at hkey
    rw [hsound.filed key old hkey]
    exact ⟨hkey, hdroppable, hid⟩

/-- A rollback changes no record and no HEAD, and leaves nothing unmerged. -/
theorem execute_rollback (h : s.transaction.phase = .installing →
    e.removed s.projectPath = false) :
    (e.execute (e.rollback s)).2 = true ∧ (e.execute (e.rollback s)).1.records = e.records ∧
      ∀ path, ((e.execute (e.rollback s)).1.repos path).headCommit = (e.repos path).headCommit ∧
        ((e.repos path).unmerged = false →
          ((e.execute (e.rollback s)).1.repos path).unmerged = false) := by
  unfold rollback
  split
  · next hrolls =>
    have hpath := h hrolls.1
    simp only [execute, perform, Checkout.perform, Option.map_some, checkout, setRepo, hpath,
      Bool.false_eq_true, if_false]
    refine ⟨trivial, trivial, fun path => ?_⟩
    by_cases hpath : path = s.projectPath
    · subst hpath
      simp only [Function.update_self]
      exact ⟨Repository.headCommit_congr rfl fun _ => rfl, fun _ => rfl⟩
    · simp only [Function.update_of_ne hpath]
      exact ⟨trivial, id⟩
  · exact ⟨rfl, rfl, fun path => ⟨rfl, id⟩⟩

omit [DecidableEq β] in
theorem CanRecover.reached (h : e.CanRecover retention s)
    (hphase : s.transaction.phase = .installing) : e.removed s.projectPath = false :=
  (h.installing hphase).1.elim (·.1) (·.1)

/-- The recovery of one record that can be recovered, if its writes go through:
that of an older record of the debug history may fail. -/
theorem execute_recoverWrites (dir : RecordDirectory β) (env : Env β) (hsound : e.Sound)
    (hs : e.records.get id = some s) (h : e.CanRecover retention s)
    (hdone : (e.execute (e.recoverWrites dir env retention s)).2 = true) :
    Recovered dir env retention e id s (e.execute (e.recoverWrites dir env retention s)).1 := by
  have hid : s.transaction.id = id := hsound.filed id s hs
  by_cases hwaits : s.transaction.phase = .preparing ∨ s.transaction.phase = .conflicted
  -- A record that waits is left alone.
  · have hphase : s.transaction.phase ≠ .installing := by
      rcases hwaits with hp | hp
      · rw [hp]
        exact fun h => by cases h
      · rw [hp]
        exact fun h => by cases h
    rw [recoverWrites, if_pos hwaits]
    have hform : settledForm env e s = s := settledForm_of_settled env e hphase
    refine ⟨hsound, ⟨rfl, fun _ => rfl⟩, fun _ hmerged => hmerged,
      fun _ path => SameWorkspace.refl _, ?_, ?_, fun _ _ => Or.inl rfl⟩
    · intro s' hs'
      rw [hform]
      exact Option.some.inj (hs'.symm.trans hs)
    · intro _
      rw [hform]
      exact hs
  -- The others are rolled back where they need it, and then finalized.
  · rw [recoverWrites, if_neg hwaits] at hdone ⊢
    obtain ⟨hrolls, hrecords, hrepos⟩ := execute_rollback h.reached
    have hsettled : (settledForm env e s).transaction.phase ≠ .installing := settledForm_phase h
    have hformId : (settledForm env e s).transaction.id = id :=
      (settledForm_id env e s).trans hid
    have hfinal := (done_of_append hdone).2
    rw [execute_append_of_done hrolls]
    rw [← finalizes_congr hrecords] at hfinal ⊢
    have hquiet := finalizes_quiet dir env retention (e.execute (e.rollback s)).1 hsettled
    have hsame := (e.execute (e.rollback s)).1.execute_quiet hquiet
    have hget := finalizes_records dir env retention hfinal
    have hdroppedCongr : ((e.execute (e.rollback s)).1.file (settledForm env e s)).dropped dir id =
        (e.file (settledForm env e s)).dropped dir id := by
      simp only [dropped, scanned, file, hrecords]
    rw [hformId, hdroppedCongr, hrecords] at hget
    have hrolled : (e.execute (e.rollback s)).1.Sound := by
      refine ⟨fun k r hk => hsound.filed k r (hrecords ▸ hk),
        fun k r hk => hsound.candidate k r (hrecords ▸ hk)⟩
    refine ⟨hrolled.execute fun w hw => (hquiet w hw).sound,
      ⟨(execute_removed _ _).trans (execute_removed _ _), fun path => ?_⟩,
      fun path hpath => ?_, fun hphase path => ?_, fun s' hs' => ?_, fun hdebug => ?_,
      fun id' hne => ?_⟩
    · exact ((hsame path).headCommit).trans (hrepos path).1
    · exact (hsame path).unmerged.trans ((hrepos path).2 hpath)
    · have hnothing : e.rollback s = [] := if_neg fun hp => hphase hp.1
      have hstart : (e.execute (e.rollback s)).1 = e := by
        rw [hnothing]
        rfl
      have hpath := hsame path
      rw [hstart] at hpath
      rw [hstart]
      exact hpath
    · rw [hget id, if_pos rfl] at hs'
      split at hs'
      · exact (Option.some.inj hs').symm
      · cases hs'
    · rw [hget id, if_pos rfl, if_pos hdebug]
    · rw [hget id', if_neg hne]
      split
      · next hdrop =>
        obtain ⟨hdebug, old, hold, hname⟩ := hdrop
        obtain ⟨hrecord, hdroppable, -⟩ := get_of_mem_dropped hsound hformId hold
        exact Or.inr ⟨hdebug, fun hc => hwaits (Or.inr hc), rfl, old, hold, hname, hdroppable,
          hname ▸ hrecord⟩
      · exact Or.inl rfl

end Stored

end Engine

end Resync
