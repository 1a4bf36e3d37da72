import Mathlib.Algebra.Order.BigOperators.Group.List
import Mathlib.Data.List.Sort
import Resync.InstallFrame
import Resync.StoredRecovery

/-! `project recover` (`cli.rs`): every record of the transactions directory in
the order of `read_dir`, up to the first one that fails. -/
namespace Resync

variable {β : Type}

/-- What `project recover` leaves, and the IDs and phases that it prints when it
does not fail. -/
structure RecoverRun (β : Type) where
  engine : Engine β
  recovered : List (String × Phase)
  failure : Option Failure

namespace Engine

variable [DecidableEq β]

/-- The loop of `project recover`. -/
def recoverFrom (dir : RecordDirectory β) (env : String → Env β)
    (retention : TransactionRetention) : List String → Engine β → RecoverRun β
  | [], e => ⟨e, [], none⟩
  | id :: ids, e =>
    match e.recoverStored dir (env id) retention id with
    | .error failure => ⟨e, [], some failure⟩
    | .ok (writes, t) =>
      let done := e.execute writes
      if done.2 then
        let rest := recoverFrom dir env retention ids done.1
        { rest with recovered := (t.id, t.phase) :: rest.recovered }
      else ⟨done.1, [], some .command⟩

/-- `project recover`. -/
def recoverAll (dir : RecordDirectory β) (env : String → Env β)
    (retention : TransactionRetention) (e : Engine β) : RecoverRun β :=
  recoverFrom dir env retention (dir.names e.records.keys) e

/-- No record fails but that of an installation whose HEAD is elsewhere (or whose
checkout is gone), every installation whose HEAD is preserved is completed or
rolled back, and a second run changes no checkout. -/
structure RecoversEvery (dir : RecordDirectory β) (env : String → Env β)
    (retention : TransactionRetention) (e : Engine β) : Prop where
  phases : ∀ id s, e.records.get id = some s → ¬ e.Elsewhere s →
    ∃ found, e.recoverStored dir (env id) retention id = .ok found ∧
      (e.execute found.1).2 = true
  runs : (∀ id s, e.records.get id = some s → ¬ e.Elsewhere s) →
    (e.recoverAll dir env retention).failure = none
  installing : ∀ id s, e.records.get id = some s → e.Preserved s →
    ∃ phase, (id, phase) ∈ (e.recoverAll dir env retention).recovered ∧
      (phase = .completed ∨ phase = .rolledBack)
  again : ∀ dir' env' retention' path,
    SameWorkspace ((e.recoverAll dir env retention).engine.repos path)
      (((e.recoverAll dir env retention).engine.recoverAll dir' env' retention').engine.repos path)

/-- Nothing stands in the way of an installation that can be recovered: no record
of a discarded or rejected preparation, no unmerged index, no finished record whose
refs would have to be deleted in a checkout that is gone, and no installation with
HEAD elsewhere that comes first. -/
structure Smooth (dir : RecordDirectory β) (retention : TransactionRetention) (e : Engine β) :
    Prop where
  retried : ∀ id s, e.records.get id = some s → s.transaction.phase ≠ .retry
  merged : ∀ id s, e.records.get id = some s → e.Preserved s →
    (e.repos s.projectPath).unmerged = false
  present : retention.debugHistory = false → ∀ id s, e.records.get id = some s →
    s.transaction.phase = .completed ∨ s.transaction.phase = .rolledBack →
      e.removed s.projectPath = false
  order : (dir.names e.records.keys).Pairwise fun a b => ∀ s ∈ e.records.get a,
    ∀ u ∈ e.records.get b, e.Elsewhere s → ¬ e.Preserved u

/-- The debug history once everything is recovered. -/
def settledHistory (dir : RecordDirectory β) (env : String → Env β) (e : Engine β) :
    List (StoredTransaction β) :=
  ((dir.names e.records.keys).filterMap fun id =>
    (e.records.get id).map (settledForm (env id) e)).filter fun s => s.Droppable

/-- Recovering everything leaves a debug history that fits its caps. -/
def HistoryFits (dir : RecordDirectory β) (env : String → Env β)
    (retention : TransactionRetention) (e : Engine β) : Prop :=
  retention.debugHistory = true →
    (e.settledHistory dir env).length ≤ debugHistoryMaxRecords ∧
      ((e.settledHistory dir env).map dir.length).sum ≤ debugHistoryMaxBytes

section Heads

variable {e e' : Engine β}

omit [DecidableEq β] in
theorem SameHeads.atCandidate_iff (h : SameHeads e e') (s : StoredTransaction β) :
    e'.AtCandidate s ↔ e.AtCandidate s := by
  simp only [AtCandidate, h.removed, h.heads]

omit [DecidableEq β] in
theorem SameHeads.atSnapshot_iff (h : SameHeads e e') (s : StoredTransaction β) :
    e'.AtSnapshot s ↔ e.AtSnapshot s := by
  simp only [AtSnapshot, h.removed, h.heads]

omit [DecidableEq β] in
theorem SameHeads.preserved_iff (h : SameHeads e e') (s : StoredTransaction β) :
    e'.Preserved s ↔ e.Preserved s := by
  simp only [Preserved, h.atCandidate_iff, h.atSnapshot_iff]

omit [DecidableEq β] in
theorem SameHeads.elsewhere_iff (h : SameHeads e e') (s : StoredTransaction β) :
    e'.Elsewhere s ↔ e.Elsewhere s := by
  simp only [Elsewhere, h.atCandidate_iff, h.atSnapshot_iff]

theorem SameHeads.settledForm_eq (h : SameHeads e e') (env : Env β) (s : StoredTransaction β) :
    settledForm env e' s = settledForm env e s := by
  simp only [settledForm, h.atCandidate_iff, h.atSnapshot_iff]

end Heads

section History

variable {dir : RecordDirectory β} {env : String → Env β} {retention : TransactionRetention}
  {e : Engine β} {id : String} {s : StoredTransaction β}

omit [DecidableEq β] in
/-- What a second look-up finds again of what passes a test. -/
theorem filterMap_sublist {f g : String → Option (StoredTransaction β)}
    {P Q : StoredTransaction β → Bool}
    (h : ∀ id s, g id = some s → P s = true → f id = some s ∧ Q s = true) (ids : List String) :
    ((ids.filterMap g).filter P).Sublist ((ids.filterMap f).filter Q) := by
  induction ids with
  | nil => exact List.Sublist.refl []
  | cons id ids ih =>
    have hright : ((ids.filterMap f).filter Q).Sublist (((id :: ids).filterMap f).filter Q) :=
      ((List.sublist_cons_self id ids).filterMap f).filter Q
    cases hg : g id with
    | none =>
      rw [List.filterMap_cons_none hg]
      exact ih.trans hright
    | some s =>
      rw [List.filterMap_cons_some hg]
      by_cases hP : P s = true
      · obtain ⟨hf, hQ⟩ := h id s hg hP
        rw [List.filter_cons_of_pos hP, List.filterMap_cons_some hf, List.filter_cons_of_pos hQ]
        exact ih.cons_cons s
      · rw [List.filter_cons_of_neg hP]
        exact ih.trans hright

omit [DecidableEq β] in
/-- A record that is filed again leaves the names as they are. -/
theorem keys_file (hs : e.records.get id = some s) {t : StoredTransaction β}
    (ht : t.transaction.id = id) : (e.file t).records.keys = e.records.keys := by
  ext key
  rw [(e.file t).records.mem_keys, e.records.mem_keys, file, FiniteMap.get_set, ht]
  by_cases hkey : key = id
  · rw [hkey, Function.update_self, hs]
    exact iff_of_true (Option.some_ne_none t) (Option.some_ne_none s)
  · rw [Function.update_of_ne hkey]

/-- Where the whole history fits, the record of a recovery prunes nothing. -/
theorem dropped_of_fits (hfits : HistoryFits dir env retention e)
    (hdebug : retention.debugHistory = true) (hsound : e.Sound)
    (hs : e.records.get id = some s) (h : e.CanRecover retention s)
    (hactive : s.transaction.phase ≠ .conflicted) :
    (e.file (settledForm (env id) e s)).dropped dir id = [] := by
  obtain ⟨hcount, hbytes⟩ := hfits hdebug
  set form := settledForm (env id) e s with hform
  have hformId : form.transaction.id = id := by
    rw [hform, settledForm_id]
    exact hsound.filed id s hs
  have hdroppable : form.Droppable := by
    refine ⟨settledForm_phase h, ?_⟩
    rw [hform, settledForm]
    split
    · split
      · exact fun h => by cases h
      · split
        · exact fun h => by cases h
        · exact hactive
    · exact hactive
  have hmem : id ∈ dir.names e.records.keys := by
    rw [dir.mem_names, e.records.mem_keys, hs]
    exact Option.some_ne_none s
  obtain ⟨before, after, hsplit⟩ := List.append_of_mem hmem
  -- everything but the record itself stands in both histories
  have hsame : ∀ key old, (e.file form).records.get key = some old →
      decide (old.Droppable ∧ old.transaction.id ≠ id) = true →
      (e.records.get key).map (settledForm (env key) e) = some old ∧
        decide old.Droppable = true := by
    intro key old hkey hkept
    obtain ⟨hold, hne⟩ := of_decide_eq_true hkept
    rw [file, FiniteMap.get_set, hformId] at hkey
    by_cases hid : key = id
    · rw [hid, Function.update_self] at hkey
      rw [← Option.some.inj hkey] at hne
      exact absurd hformId hne
    · rw [Function.update_of_ne hid] at hkey
      rw [hkey, Option.map_some, settledForm_of_settled (env key) e hold.1]
      exact ⟨rfl, decide_eq_true hold⟩
  have hown : (e.file form).records.get id = some form := by
    rw [file, FiniteMap.get_set, hformId, Function.update_self]
  have hsettled : (e.records.get id).map (settledForm (env id) e) = some form := by
    rw [hs, Option.map_some]
  have hskipped : ¬ decide (form.Droppable ∧ form.transaction.id ≠ id) = true := by
    rw [decide_eq_true_eq]
    exact fun hkept => hkept.2 hformId
  let kept : StoredTransaction β → Bool := fun old =>
    decide (old.Droppable ∧ old.transaction.id ≠ id)
  let droppable : StoredTransaction β → Bool := fun old => decide old.Droppable
  let settled : String → Option (StoredTransaction β) := fun key =>
    (e.records.get key).map (settledForm (env key) e)
  have hsub : ∀ ids : List String, ((ids.filterMap (e.file form).records.get).filter kept).Sublist
      ((ids.filterMap settled).filter droppable) := fun ids => filterMap_sublist hsame ids
  have hhistory : (e.file form).history dir id =
      (before.filterMap (e.file form).records.get).filter kept ++
        (after.filterMap (e.file form).records.get).filter kept := by
    show ((dir.names (e.file form).records.keys).filterMap _).filter kept = _
    rw [keys_file hs hformId, hsplit, List.filterMap_append, List.filterMap_cons_some hown,
      List.filter_append, List.filter_cons_of_neg (p := kept) hskipped]
  have hall : e.settledHistory dir env = (before.filterMap settled).filter droppable ++
      form :: (after.filterMap settled).filter droppable := by
    show ((dir.names e.records.keys).filterMap settled).filter droppable = _
    rw [hsplit, List.filterMap_append, List.filterMap_cons_some (f := settled) hsettled,
      List.filter_append, List.filter_cons_of_pos (p := droppable) (decide_eq_true hdroppable)]
  have hsums : ∀ {l l' : List (StoredTransaction β)}, l.Sublist l' →
      (l.map dir.length).sum ≤ (l'.map dir.length).sum := by
    intro l l' hl
    exact (hl.map dir.length).sum_le_sum fun _ _ => Nat.zero_le _
  rw [hall, List.length_append, List.length_cons] at hcount
  rw [hall, List.map_append, List.sum_append, List.map_cons, List.sum_cons] at hbytes
  have hsorted := List.mergeSort_perm
    (((e.file form).history dir id).map fun old => (dir.length old, old)) fun left right =>
      decide (right.2.transaction.createdAt ≤ left.2.transaction.createdAt)
  rw [dropped_eq]
  apply excess_of_fits
  · rw [hsorted.length_eq, List.length_map, hhistory, List.length_append]
    have hlengths := Nat.add_le_add (hsub before).length_le (hsub after).length_le
    omega
  · rw [(hsorted.map (·.1)).sum_eq, List.map_map]
    show 0 + (((e.file form).history dir id).map dir.length).sum ≤ _
    rw [hhistory, List.map_append, List.sum_append]
    have hsum := Nat.add_le_add (hsums (hsub before)) (hsums (hsub after))
    omega

end History

section Run

variable {dir : RecordDirectory β} {env : String → Env β} {retention : TransactionRetention}
  {e e' : Engine β} {id : String} {s : StoredTransaction β}

/-- The loop at a record that cannot be recovered. -/
theorem recoverFrom_stops (dir : RecordDirectory β) (env : String → Env β)
    (hs : e.records.get id = some s) (h : ¬ e.CanRecover retention s) (ids : List String) :
    ∃ failure, recoverFrom dir env retention (id :: ids) e = ⟨e, [], some failure⟩ := by
  rcases recoverStored_error dir (env id) hs h with ⟨failure, hfailure⟩ | ⟨hok, hfails⟩
  · refine ⟨failure, ?_⟩
    simp only [recoverFrom, hfailure]
  · refine ⟨.command, ?_⟩
    simp only [recoverFrom, hok, hfails, Bool.false_eq_true, if_false]

/-- The loop at a record that can be recovered, and what an older record of the
debug history lets through. -/
theorem recoverFrom_goes (dir : RecordDirectory β) (env : String → Env β) (hsound : e.Sound)
    (hs : e.records.get id = some s) (h : e.CanRecover retention s) (ids : List String) :
    let writes := e.recoverWrites dir (env id) retention s
    if (e.execute writes).2 then
      Recovered dir (env id) retention e id s (e.execute writes).1 ∧
        recoverFrom dir env retention (id :: ids) e =
          { recoverFrom dir env retention ids (e.execute writes).1 with
            recovered := (id, (settledForm (env id) e s).transaction.phase) ::
              (recoverFrom dir env retention ids (e.execute writes).1).recovered }
    else
      recoverFrom dir env retention (id :: ids) e = ⟨(e.execute writes).1, [], some .command⟩ := by
  intro writes
  have hok := recoverStored_ok dir (env id) hsound hs h
  have hid : (settledForm (env id) e s).transaction.id = id :=
    (settledForm_id (env id) e s).trans (hsound.filed id s hs)
  split
  · next hdone =>
    refine ⟨execute_recoverWrites dir (env id) hsound hs h hdone, ?_⟩
    simp only [recoverFrom, hok, hdone, if_true, hid, writes]
  · next hfails =>
    simp only [recoverFrom, hok]
    exact if_neg hfails

omit [DecidableEq β] in
/-- A record that can be recovered is no installation in progress, or one with
HEAD preserved. -/
theorem CanRecover.preserved (h : e.CanRecover retention s)
    (hphase : s.transaction.phase = .installing) : e.Preserved s :=
  ⟨hphase, (h.installing hphase).1⟩

theorem canRecover_of_smooth (hretry : s.transaction.phase ≠ .retry)
    (hmerged : e.Preserved s → (e.repos s.projectPath).unmerged = false)
    (hpresent : retention.debugHistory = false →
      s.transaction.phase = .completed ∨ s.transaction.phase = .rolledBack →
        e.removed s.projectPath = false)
    (h : ¬ e.Elsewhere s) : e.CanRecover retention s := by
  refine ⟨hretry, fun hphase => ?_, hpresent⟩
  have hat : e.AtCandidate s ∨ e.AtSnapshot s := by
    by_contra hnot
    exact h ⟨hphase, hnot⟩
  exact ⟨hat, hmerged ⟨hphase, hat⟩⟩

/-- An installation that is recovered is completed or rolled back. -/
theorem settledForm_of_preserved (env : Env β) (h : e.Preserved s) :
    (settledForm env e s).transaction.phase = .completed ∨
      (settledForm env e s).transaction.phase = .rolledBack := by
  unfold settledForm
  rw [if_pos h.1]
  split
  · exact Or.inl rfl
  · next hnot =>
    rw [if_pos (h.2.resolve_left hnot)]
    exact Or.inr rfl

/-- A record of an installation survives the recovery of another record. -/
theorem Recovered.installing (h : Recovered dir (env id) retention e id s e') {id' : String}
    (hne : id' ≠ id) {s' : StoredTransaction β} (hs' : e.records.get id' = some s')
    (hphase : s'.transaction.phase = .installing) : e'.records.get id' = some s' := by
  rcases h.others id' hne with hsame | ⟨-, -, -, old, -, -, hdroppable, hold⟩
  · exact hsame.trans hs'
  · obtain rfl : old = s' := Option.some.inj (hold.symm.trans hs')
    exact absurd hphase hdroppable.1

/-- What is found under another ID was there before. -/
theorem Recovered.found (h : Recovered dir (env id) retention e id s e') {id' : String}
    (hne : id' ≠ id) {s' : StoredTransaction β} (hs' : e'.records.get id' = some s') :
    e.records.get id' = some s' := by
  rcases h.others id' hne with hsame | ⟨-, -, hgone, -⟩
  · exact hsame.symm.trans hs'
  · rw [hgone] at hs'
    cases hs'

/-- An installation in progress afterwards is another record. -/
theorem Recovered.ne_of_installing (h : Recovered dir (env id) retention e id s e')
    (hcan : e.CanRecover retention s) {id' : String} {s' : StoredTransaction β}
    (hs' : e'.records.get id' = some s') (hphase : s'.transaction.phase = .installing) :
    id' ≠ id := by
  rintro rfl
  rw [h.own s' hs'] at hphase
  exact settledForm_phase hcan hphase

/-- Without an installation to recover, the writes of a recovery are bookkeeping. -/
theorem recoverWrites_quiet (dir : RecordDirectory β) (env : Env β)
    (hcan : e.CanRecover retention s) (hphase : s.transaction.phase ≠ .installing) :
    ∀ w ∈ e.recoverWrites dir env retention s, w.Quiet := by
  intro w hw
  rw [recoverWrites, rollback, if_neg fun hrolls : _ ∧ _ => hphase hrolls.1] at hw
  split at hw
  · cases hw
  · exact finalizes_quiet dir env retention e (settledForm_phase hcan) w hw

/-- Without an installation that can be recovered, the loop changes no checkout. -/
theorem recoverFrom_quiet (hsound : e.Sound)
    (h : ∀ id s, e.records.get id = some s → ¬ e.Preserved s) (ids : List String) (path : String) :
    SameWorkspace (e.repos path) ((recoverFrom dir env retention ids e).engine.repos path) := by
  induction ids generalizing e with
  | nil => exact SameWorkspace.refl (e.repos path)
  | cons id ids ih =>
    cases hs : e.records.get id with
    | none =>
      simp only [recoverFrom, recoverStored, hs]
      exact SameWorkspace.refl (e.repos path)
    | some s =>
      by_cases hcan : e.CanRecover retention s
      · have hphase : s.transaction.phase ≠ .installing := fun hphase =>
          h id s hs (hcan.preserved hphase)
        have hsame := e.execute_quiet (recoverWrites_quiet dir (env id) hcan hphase) path
        have hgoes := recoverFrom_goes dir env hsound hs hcan ids
        dsimp only at hgoes
        split at hgoes
        · obtain ⟨hrecovered, hrun⟩ := hgoes
          have hnone : ∀ id' s', (e.execute (e.recoverWrites dir (env id) retention s)).1.records.get
              id' = some s' →
                ¬ (e.execute (e.recoverWrites dir (env id) retention s)).1.Preserved s' := by
            intro id' s' hs' hpreserved
            have hne := hrecovered.ne_of_installing hcan hs' hpreserved.1
            exact h id' s' (hrecovered.found hne hs')
              ((hrecovered.heads.preserved_iff s').mp hpreserved)
          rw [hrun]
          exact hsame.trans (ih hrecovered.sound hnone)
        · rw [hgoes]
          exact hsame
      · obtain ⟨failure, hfailure⟩ := recoverFrom_stops dir env hs hcan ids
        rw [hfailure]

omit [DecidableEq β] in
theorem not_canRecover_of_elsewhere (retention : TransactionRetention) (h : e.Elsewhere s) :
    ¬ e.CanRecover retention s :=
  fun hcan => h.2 (hcan.installing h.1).1

/-- Nothing after an installation with HEAD elsewhere is recovered. -/
theorem not_recovered_after (hsound : e.Sound) {ids : List String} (hnodup : ids.Nodup)
    {a b : String} (hsub : [a, b].Sublist ids) (hs : e.records.get a = some s)
    (h : e.Elsewhere s) (phase : Phase) :
    (b, phase) ∉ (recoverFrom dir env retention ids e).recovered := by
  induction ids generalizing e with
  | nil => cases hsub
  | cons id ids ih =>
    obtain ⟨hfresh, hnodup⟩ := List.nodup_cons.mp hnodup
    by_cases hid : id = a
    · subst hid
      obtain ⟨failure, hfailure⟩ := recoverFrom_stops dir env hs
        (not_canRecover_of_elsewhere retention h) ids
      rw [hfailure]
      exact List.not_mem_nil
    · have hrest : [a, b].Sublist ids := (List.sublist_cons_iff.mp hsub).resolve_right
        fun ⟨r, hr, _⟩ => hid (List.cons.inj hr).1.symm
      cases hr : e.records.get id with
      | none =>
        simp only [recoverFrom, recoverStored, hr]
        exact List.not_mem_nil
      | some r =>
        by_cases hcan : e.CanRecover retention r
        · have hgoes := recoverFrom_goes dir env hsound hr hcan ids
          dsimp only at hgoes
          split at hgoes
          · obtain ⟨hrecovered, hrun⟩ := hgoes
            rw [hrun]
            intro hmem
            rcases List.mem_cons.mp hmem with heq | hmem
            · have hb : b ∈ ids := hrest.subset (List.mem_cons_of_mem a List.mem_cons_self)
              exact hfresh ((Prod.mk.inj heq).1 ▸ hb)
            · exact ih hrecovered.sound hnodup hrest
                (hrecovered.installing (fun he => hid he.symm) hs h.1)
                ((hrecovered.heads.elsewhere_iff s).mpr h) hmem
          · rw [hgoes]
            exact List.not_mem_nil
        · obtain ⟨failure, hfailure⟩ := recoverFrom_stops dir env hr hcan ids
          rw [hfailure]
          exact List.not_mem_nil

/-- While the history fits, a record that can be recovered is: nothing is deleted
in a checkout that is gone. -/
theorem recoverWrites_done (hfits : HistoryFits dir env retention e) (hsound : e.Sound)
    (hs : e.records.get id = some s) (h : e.CanRecover retention s) :
    (e.execute (e.recoverWrites dir (env id) retention s)).2 = true := by
  have hid : s.transaction.id = id := hsound.filed id s hs
  rw [recoverWrites]
  split
  · rfl
  · next hwaits =>
    obtain ⟨hrolls, hrecords, -⟩ := execute_rollback h.reached
    rw [execute_append_of_done hrolls, ← finalizes_congr hrecords]
    apply execute_done _ (finalizes_quiet dir (env id) retention _ (settledForm_phase h))
    have hformId : (settledForm (env id) e s).transaction.id = id :=
      (settledForm_id (env id) e s).trans hid
    by_cases hdebug : retention.debugHistory = true
    · have hnone : ((e.execute (e.rollback s)).1.file (settledForm (env id) e s)).dropped dir id =
          [] := by
        have hall := dropped_of_fits hfits hdebug hsound hs h fun hc => hwaits (Or.inr hc)
        simpa only [dropped, scanned, file, hrecords] using hall
      intro w hw
      simp only [finalizes, finalizeTransaction, persistDebugTransaction, Env.unpruned, hdebug,
        if_true, List.flatMap_nil, List.map_cons, List.map_nil, List.cons_append, List.nil_append,
        prunes, hformId, hnone, List.mem_singleton] at hw
      rw [hw]
      trivial
    · have hreached : e.removed s.projectPath = false := by
        cases hphase : s.transaction.phase with
        | installing => exact h.reached hphase
        | completed => exact h.removable (Bool.not_eq_true _ ▸ hdebug) (Or.inl hphase)
        | rolledBack => exact h.removable (Bool.not_eq_true _ ▸ hdebug) (Or.inr hphase)
        | preparing => exact absurd (Or.inl hphase) hwaits
        | conflicted => exact absurd (Or.inr hphase) hwaits
        | retry => exact absurd hphase h.known
      intro w hw
      simp only [finalizes, finalizeTransaction, hdebug, if_false, List.append_nil,
        Bool.false_eq_true, settledForm_projectPath] at hw
      refine (located_reaches ?_ _ w hw).congr rfl
      rw [execute_removed]
      exact hreached

/-- While the history fits, the recovery of a record changes no other record. -/
theorem Recovered.others_of_fits (h : Recovered dir (env id) retention e id s e')
    (hfits : HistoryFits dir env retention e) (hsound : e.Sound) (hs : e.records.get id = some s)
    (hcan : e.CanRecover retention s) {id' : String} (hne : id' ≠ id) :
    e'.records.get id' = e.records.get id' := by
  rcases h.others id' hne with hsame | ⟨hdebug, hactive, -, old, hold, -⟩
  · exact hsame
  · rw [dropped_of_fits hfits hdebug hsound hs hcan hactive] at hold
    cases hold

theorem Recovered.fits (h : Recovered dir (env id) retention e id s e')
    (hfits : HistoryFits dir env retention e) (hsound : e.Sound) (hs : e.records.get id = some s)
    (hcan : e.CanRecover retention s) : HistoryFits dir env retention e' := by
  intro hdebug
  have hkept := h.kept hdebug
  have hothers : ∀ id', id' ≠ id → e'.records.get id' = e.records.get id' := fun id' hne =>
    h.others_of_fits hfits hsound hs hcan hne
  have hkeys : e'.records.keys = e.records.keys := by
    ext key
    rw [e'.records.mem_keys, e.records.mem_keys]
    by_cases hkey : key = id
    · rw [hkey, hkept, hs]
      exact iff_of_true (Option.some_ne_none _) (Option.some_ne_none s)
    · rw [hothers key hkey]
  have hforms : ∀ key, (e'.records.get key).map (settledForm (env key) e') =
      (e.records.get key).map (settledForm (env key) e) := by
    intro key
    have hform : settledForm (env key) e' = settledForm (env key) e :=
      funext fun r => h.heads.settledForm_eq (env key) r
    rw [hform]
    by_cases hkey : key = id
    · rw [hkey, hkept, hs, Option.map_some, Option.map_some,
        settledForm_of_settled (env id) e (settledForm_phase hcan)]
    · rw [hothers key hkey]
  have hhistory : e'.settledHistory dir env = e.settledHistory dir env := by
    simp only [settledHistory, hkeys, hforms]
  rw [hhistory]
  exact hfits hdebug

/-- The loop over the rest of a directory in which nothing stands in the way. -/
theorem recoverFrom_every (hsound : e.Sound)
    (hretried : ∀ id s, e.records.get id = some s → s.transaction.phase ≠ .retry)
    (hmerged : ∀ id s, e.records.get id = some s → e.Preserved s →
      (e.repos s.projectPath).unmerged = false)
    (hpresent : retention.debugHistory = false → ∀ id s, e.records.get id = some s →
      s.transaction.phase = .completed ∨ s.transaction.phase = .rolledBack →
        e.removed s.projectPath = false)
    (hfits : HistoryFits dir env retention e) {ids : List String} (hnodup : ids.Nodup)
    (hlisted : ∀ id ∈ ids, ∃ s, e.records.get id = some s)
    (hcovered : ∀ id s, e.records.get id = some s → e.Preserved s → id ∈ ids)
    (horder : ids.Pairwise fun a b => ∀ s ∈ e.records.get a, ∀ u ∈ e.records.get b,
      e.Elsewhere s → ¬ e.Preserved u) :
    (∀ id s, e.records.get id = some s → e.Preserved s →
      ∃ phase, (id, phase) ∈ (recoverFrom dir env retention ids e).recovered ∧
        (phase = .completed ∨ phase = .rolledBack)) ∧
    ((∀ id s, e.records.get id = some s → ¬ e.Elsewhere s) →
      (recoverFrom dir env retention ids e).failure = none) ∧
    (recoverFrom dir env retention ids e).engine.Sound ∧
    ∀ id s, (recoverFrom dir env retention ids e).engine.records.get id = some s →
      ¬ (recoverFrom dir env retention ids e).engine.Preserved s := by
  induction ids generalizing e with
  | nil =>
    have hnone : ∀ id s, e.records.get id = some s → ¬ e.Preserved s := fun id s hs hp =>
      absurd (hcovered id s hs hp) List.not_mem_nil
    exact ⟨fun id s hs hp => absurd hp (hnone id s hs), fun _ => rfl, hsound, hnone⟩
  | cons id ids ih =>
    obtain ⟨hfresh, hnodup⟩ := List.nodup_cons.mp hnodup
    obtain ⟨hfirst, horder⟩ := List.pairwise_cons.mp horder
    obtain ⟨s, hs⟩ := hlisted id List.mem_cons_self
    by_cases helsewhere : e.Elsewhere s
    · -- the loop stops, and nothing that could be recovered comes after
      have hnone : ∀ id' s', e.records.get id' = some s' → ¬ e.Preserved s' := by
        intro id' s' hs' hp
        rcases List.mem_cons.mp (hcovered id' s' hs' hp) with rfl | hmem
        · obtain rfl : s = s' := Option.some.inj (hs.symm.trans hs')
          exact helsewhere.2 hp.2
        · exact hfirst id' hmem s hs s' hs' helsewhere hp
      obtain ⟨failure, hfailure⟩ := recoverFrom_stops dir env hs
        (not_canRecover_of_elsewhere retention helsewhere) ids
      rw [hfailure]
      exact ⟨fun id' s' hs' hp => absurd hp (hnone id' s' hs'),
        fun hall => absurd helsewhere (hall id s hs), hsound, hnone⟩
    · have hcan := canRecover_of_smooth (hretried id s hs) (hmerged id s hs)
        (fun hdebug => hpresent hdebug id s hs) helsewhere
      have hgoes := recoverFrom_goes dir env hsound hs hcan ids
      dsimp only at hgoes
      rw [if_pos (recoverWrites_done hfits hsound hs hcan)] at hgoes
      obtain ⟨hrecovered, hrun⟩ := hgoes
      generalize (e.execute (e.recoverWrites dir (env id) retention s)).1 = e' at hrecovered hrun
      -- The other records are as they were, so the rest of the loop has its hypotheses.
      have hothers : ∀ id', id' ≠ id → e'.records.get id' = e.records.get id' :=
        fun id' hne => hrecovered.others_of_fits hfits hsound hs hcan hne
      have hsettled : ∀ s', e'.records.get id = some s' →
          s'.transaction.phase ≠ .installing := by
        intro s' hs'
        rw [hrecovered.own s' hs']
        exact settledForm_phase hcan
      have hinstalling : ∀ id' s', e'.records.get id' = some s' →
          s'.transaction.phase = .installing → e.records.get id' = some s' := by
        intro id' s' hs' hphase
        exact hrecovered.found (hrecovered.ne_of_installing hcan hs' hphase) hs'
      have hp' : ∀ s', e'.Preserved s' ↔ e.Preserved s' := hrecovered.heads.preserved_iff
      have hretried' : ∀ id' s', e'.records.get id' = some s' →
          s'.transaction.phase ≠ .retry := by
        intro id' s' hs'
        by_cases hid : id' = id
        · subst hid
          rw [hrecovered.own s' hs']
          by_cases hphase : s.transaction.phase = .installing
          · intro hretry
            rcases settledForm_of_preserved (env id') (hcan.preserved hphase) with hc | hc
            · rw [hc] at hretry
              cases hretry
            · rw [hc] at hretry
              cases hretry
          · rw [settledForm_of_settled (env id') e hphase]
            exact hretried id' s hs
        · exact hretried id' s' ((hothers id' hid).symm.trans hs')
      have hpresent' : retention.debugHistory = false → ∀ id' s', e'.records.get id' = some s' →
          s'.transaction.phase = .completed ∨ s'.transaction.phase = .rolledBack →
            e'.removed s'.projectPath = false := by
        intro hdebug id' s' hs' hphase'
        rw [hrecovered.heads.removed]
        by_cases hid : id' = id
        · subst hid
          rw [hrecovered.own s' hs']
          by_cases hphase : s.transaction.phase = .installing
          · rw [settledForm_projectPath]
            exact hcan.reached hphase
          · have hform := settledForm_of_settled (env id') e hphase
            rw [hrecovered.own s' hs', hform] at hphase'
            rw [hform]
            exact hpresent hdebug id' s hs hphase'
        · exact hpresent hdebug id' s' ((hothers id' hid).symm.trans hs') hphase'
      obtain ⟨hevery, hruns, hsound', hnone⟩ := ih hrecovered.sound hretried'
        (fun id' s' hs' hp => hrecovered.merged _
          (hmerged id' s' (hinstalling id' s' hs' hp.1) ((hp' s').mp hp))) hpresent'
        (hrecovered.fits hfits hsound hs hcan) hnodup
        (fun id' hmem => by
          obtain ⟨s', hs'⟩ := hlisted id' (List.mem_cons_of_mem id hmem)
          have hne : id' ≠ id := fun he => hfresh (he ▸ hmem)
          exact ⟨s', (hothers id' hne).trans hs'⟩)
        (fun id' s' hs' hp => by
          have hmem := hcovered id' s' (hinstalling id' s' hs' hp.1) ((hp' s').mp hp)
          exact (List.mem_cons.mp hmem).resolve_left
            (hrecovered.ne_of_installing hcan hs' hp.1))
        (horder.imp fun {a b} hab s₁ h₁ s₂ h₂ he hp =>
          hab s₁ (hinstalling a s₁ h₁ he.1) s₂ (hinstalling b s₂ h₂ hp.1)
            ((hrecovered.heads.elsewhere_iff s₁).mp he) ((hp' s₂).mp hp))
      rw [hrun]
      refine ⟨fun id' s' hs' hp => ?_, fun hall => ?_, hsound', hnone⟩
      · by_cases hid : id' = id
        · subst hid
          obtain rfl : s = s' := Option.some.inj (hs.symm.trans hs')
          exact ⟨_, List.mem_cons_self, settledForm_of_preserved (env id') hp⟩
        · obtain ⟨phase, hmem, hphase⟩ :=
            hevery id' s' ((hothers id' hid).trans hs') ((hp' s').mpr hp)
          exact ⟨phase, List.mem_cons_of_mem _ hmem, hphase⟩
      · apply hruns
        intro id' s' hs' he
        exact hall id' s' (hinstalling id' s' hs' he.1)
          ((hrecovered.heads.elsewhere_iff s').mp he)

/-- A directory in which nothing stands in the way, with a history that fits. -/
theorem recoversEvery_of_smooth (hsound : e.Sound) (h : e.Smooth dir retention)
    (hfits : HistoryFits dir env retention e) : e.RecoversEvery dir env retention := by
  have hlisted : ∀ id ∈ dir.names e.records.keys, ∃ s, e.records.get id = some s := by
    intro id hid
    exact Option.ne_none_iff_exists'.mp
      ((e.records.mem_keys id).mp ((dir.mem_names _ id).mp hid))
  have hcovered : ∀ id s, e.records.get id = some s → e.Preserved s →
      id ∈ dir.names e.records.keys := by
    intro id s hs _
    rw [dir.mem_names, e.records.mem_keys, hs]
    exact Option.some_ne_none s
  obtain ⟨hevery, hruns, hsound', hnone⟩ := recoverFrom_every hsound h.retried h.merged
    h.present hfits (dir.nodup e.records.keys) hlisted hcovered h.order
  refine ⟨fun id s hs he => ?_, hruns, hevery, fun dir' env' retention' path => ?_⟩
  · have hcan := canRecover_of_smooth (h.retried id s hs) (h.merged id s hs)
      (fun hdebug => h.present hdebug id s hs) he
    exact ⟨_, recoverStored_ok dir (env id) hsound hs hcan,
      recoverWrites_done hfits hsound hs hcan⟩
  · exact recoverFrom_quiet hsound' hnone _ path

/-- A run that processes every record finds nothing in the way. -/
theorem smooth_of_recoversEvery (hsound : e.Sound) (h : e.RecoversEvery dir env retention) :
    e.Smooth dir retention := by
  have hcan : ∀ id s, e.records.get id = some s → ¬ e.Elsewhere s → e.CanRecover retention s := by
    intro id s hs he
    by_contra hcan
    obtain ⟨found, hfound, hdone⟩ := h.phases id s hs he
    rcases recoverStored_error dir (env id) hs hcan with ⟨failure, hfailure⟩ | ⟨hok, hfails⟩
    · rw [hfound] at hfailure
      cases hfailure
    · obtain rfl := Except.ok.inj (hfound.symm.trans hok)
      rw [hfails] at hdone
      cases hdone
  have hsettled : ∀ {s : StoredTransaction β}, s.transaction.phase ≠ .installing →
      ¬ e.Elsewhere s := fun hphase he => hphase he.1
  refine ⟨fun id s hs hretry => ?_, fun id s hs hp => ?_, fun hdebug id s hs hphase => ?_, ?_⟩
  · have he : ¬ e.Elsewhere s := hsettled fun hphase => by
      rw [hphase] at hretry
      cases hretry
    exact (hcan id s hs he).known hretry
  · exact ((hcan id s hs fun he => he.2 hp.2).installing hp.1).2
  · have he : ¬ e.Elsewhere s := hsettled fun hinstalling => by
      rw [hinstalling] at hphase
      rcases hphase with hphase | hphase
      · cases hphase
      · cases hphase
    exact (hcan id s hs he).removable hdebug hphase
  · apply List.pairwise_iff_forall_sublist.mpr
    intro a b hsub s hs u hu helsewhere hp
    obtain ⟨phase, hmem, -⟩ := h.installing b u hu hp
    exact not_recovered_after hsound (dir.nodup e.records.keys) hsub hs helsewhere phase hmem

/-- The writes of a recovery file nothing unsound. -/
theorem recoverStored_sound {env : Env β} (hsound : e.Sound) {writes : List (EngineWrite β)}
    {t : Transaction β} (h : e.recoverStored dir env retention id = .ok (writes, t)) :
    ∀ w ∈ writes, w.Sound := by
  cases hs : e.records.get id with
  | none =>
    simp only [recoverStored, hs] at h
    cases h
  | some s =>
    by_cases hcan : e.CanRecover retention s
    · rw [recoverStored_ok dir env hsound hs hcan] at h
      obtain ⟨rfl, -⟩ := Prod.mk.inj (Except.ok.inj h)
      intro w hw
      unfold recoverWrites at hw
      split at hw
      · cases hw
      · rcases List.mem_append.mp hw with hw | hw
        · unfold rollback at hw
          split at hw
          · simp only [List.mem_cons, List.not_mem_nil, or_false] at hw
            rcases hw with rfl | rfl
            · trivial
            · trivial
          · cases hw
        · exact (finalizes_quiet dir env retention e (settledForm_phase hcan) w hw).sound
    · rcases recoverStored_error dir env hs hcan with ⟨failure, hfailure⟩ | ⟨hok, -⟩
      · rw [hfailure] at h
        cases h
      · obtain ⟨rfl, -⟩ := Prod.mk.inj (Except.ok.inj (hok.symm.trans h))
        have hquiet := located_quiet (removeTransactionArtifacts_quiet s.transaction) s.projectPath
        exact fun w hw => (hquiet w hw).sound

end Run

end Engine

namespace EngineWorld

variable [DecidableEq β] {dir : RecordDirectory β} {w : EngineWorld β}

theorem call_sound (h : w.engine.Sound) {event : EngineEvent β} {writes : List (EngineWrite β)}
    {prepared : List (PreparedTransaction β)} (hcall : w.call dir event = some (writes, prepared)) :
    ∀ write ∈ writes, write.Sound := by
  cases event with
  | user path r =>
    obtain ⟨rfl, -⟩ := Prod.mk.inj (Option.some.inj hcall)
    exact fun _ hw => absurd hw List.not_mem_nil
  | prepare path env retention previous target =>
    obtain ⟨rfl, -⟩ := Prod.mk.inj (Option.some.inj hcall)
    intro write hw
    exact (Engine.prepareWrites_quiet dir env retention _ path previous target write hw).sound
  | install i env =>
    obtain ⟨p, -, hp⟩ := Option.bind_eq_some_iff.mp hcall
    obtain ⟨rfl, -⟩ := Prod.mk.inj (Option.some.inj hp)
    exact Engine.installWrites_sound dir env p.retention w.engine p.stored
  | discard i env =>
    obtain ⟨p, -, hp⟩ := Option.bind_eq_some_iff.mp hcall
    obtain ⟨rfl, -⟩ := Prod.mk.inj (Option.some.inj hp)
    intro write hw
    exact (Engine.finalizes_quiet dir env p.retention w.engine (fun h => by cases h)
      write hw).sound
  | recover id env retention =>
    have hpair := Option.some.inj hcall
    split at hpair
    · next hok =>
      obtain ⟨rfl, -⟩ := Prod.mk.inj hpair
      exact Engine.recoverStored_sound h hok
    · obtain ⟨rfl, -⟩ := Prod.mk.inj hpair
      exact fun _ hw => absurd hw List.not_mem_nil

theorem step_sound {w' : EngineWorld β} {event : RecordDirectory β × EngineEvent β × Option ℕ}
    (h : w.engine.Sound) (hstep : step w event = some w') : w'.engine.Sound := by
  obtain ⟨dir, event, cut⟩ := event
  have hkept : ∀ path r, (w.engine.user path r).Sound := fun path r => by
    cases r with
    | none => exact ⟨h.filed, h.candidate⟩
    | some r => exact ⟨h.filed, h.candidate⟩
  have hgoes : (w.call dir event).map (fun called =>
      (⟨(w.engine.execute called.1).1, called.2⟩ : EngineWorld β)) = some w' →
        w'.engine.Sound := by
    intro hmap
    obtain ⟨⟨writes, prepared⟩, hcall, rfl⟩ := Option.map_eq_some_iff.mp hmap
    exact h.execute (call_sound h hcall)
  have hcut : ∀ n, (w.call dir event).map (fun called =>
      (⟨(w.engine.execute (called.1.take n)).1, []⟩ : EngineWorld β)) = some w' →
        w'.engine.Sound := by
    intro n hmap
    obtain ⟨⟨writes, prepared⟩, hcall, rfl⟩ := Option.map_eq_some_iff.mp hmap
    exact h.execute fun write hw => call_sound h hcall write (List.mem_of_mem_take hw)
  cases event with
  | user path r =>
    rw [← Option.some.inj hstep]
    exact hkept path r
  | prepare path env retention previous target =>
    cases cut with
    | none => exact hgoes hstep
    | some n => exact hcut n hstep
  | install i env =>
    cases cut with
    | none => exact hgoes hstep
    | some n => exact hcut n hstep
  | discard i env =>
    cases cut with
    | none => exact hgoes hstep
    | some n => exact hcut n hstep
  | recover id env retention =>
    cases cut with
    | none => exact hgoes hstep
    | some n => exact hcut n hstep

theorem run_sound {repos : String → Repository β}
    {es : List (RecordDirectory β × EngineEvent β × Option ℕ)}
    (hrun : Runs.run step (start repos) es = some w) : w.engine.Sound := by
  have hstart : (start repos).engine.Sound :=
    ⟨fun _ _ hs => (by cases hs), fun _ _ hs => (by cases hs)⟩
  have hsteps : Runs.Steps step (fun _ _ => True) (start repos) es :=
    Runs.Steps.of_forall (fun _ _ _ => trivial) _
  exact Runs.run_invariant (fun (_ : EngineWorld β) _ _ hsound _ hstep =>
    step_sound hsound hstep) hstart hsteps hrun

section Blocked

/-- Names in alphabetical order, and records of one byte. -/
def byName : RecordDirectory ℕ where
  names ids := Quotient.liftOn ids.val (fun l => l.insertionSort (· ≤ ·)) fun a b h =>
    ((List.perm_insertionSort (· ≤ ·) a).trans
      (h.trans (List.perm_insertionSort (· ≤ ·) b).symm)).eq_of_pairwise'
        (List.pairwise_insertionSort (· ≤ ·) a) (List.pairwise_insertionSort (· ≤ ·) b)
  nodup ids := by
    obtain ⟨⟨l⟩, h⟩ := ids
    exact (List.perm_insertionSort (· ≤ ·) l).nodup_iff.mpr h
  mem_names ids id := by
    obtain ⟨⟨l⟩, h⟩ := ids
    exact (List.perm_insertionSort (· ≤ ·) l).mem_iff
  length _ := 1

def debugRetention : TransactionRetention := ⟨true⟩

/-- The surroundings of the transaction with an ID. -/
def envOf (id : String) : Env ℕ := { plainEnv with id := id }

/-- One preparation is discarded, and the installation of the next one is cut
short after its first `read-tree`. -/
def discardThenCrash (retention : TransactionRetention) :
    List (RecordDirectory ℕ × EngineEvent ℕ × Option ℕ) :=
  [(byName, .prepare "p" (envOf "t1") retention oldRevision newRevision, none),
    (byName, .discard 0 (envOf "t1"), none),
    (byName, .prepare "p" (envOf "t2") retention oldRevision newRevision, none),
    (byName, .install 0 (envOf "t2"), some 2)]

def afterCrash (retention : TransactionRetention) : Option (EngineWorld ℕ) :=
  Runs.run step (start fun _ => stagedAndOther) (discardThenCrash retention)

def phaseAt (id : String) (w : Engine ℕ) : Option Phase :=
  (w.records.get id).map (·.transaction.phase)

instance (e : Engine ℕ) (s : StoredTransaction ℕ) : Decidable (e.Preserved s) :=
  inferInstanceAs (Decidable (_ ∧ _))

instance (e : Engine ℕ) (s : StoredTransaction ℕ) : Decidable (e.Elsewhere s) :=
  inferInstanceAs (Decidable (_ ∧ _))

instance (dir : RecordDirectory ℕ) (retention : TransactionRetention) (e : Engine ℕ) :
    Decidable (e.Smooth dir retention) :=
  decidable_of_iff ((∀ id ∈ e.records.keys, ∀ s ∈ e.records.get id,
      s.transaction.phase ≠ .retry ∧
      (e.Preserved s → (e.repos s.projectPath).unmerged = false) ∧
      (retention.debugHistory = false →
        s.transaction.phase = .completed ∨ s.transaction.phase = .rolledBack →
          e.removed s.projectPath = false)) ∧
    (dir.names e.records.keys).Pairwise fun a b => ∀ s ∈ e.records.get a,
      ∀ u ∈ e.records.get b, e.Elsewhere s → ¬ e.Preserved u) (by
    have hkeys : ∀ id s, e.records.get id = some s → id ∈ e.records.keys := fun id s hs =>
      (e.records.mem_keys id).mpr (Option.ne_none_iff_exists'.mpr ⟨s, hs⟩)
    constructor
    · rintro ⟨hall, horder⟩
      exact ⟨fun id s hs => (hall id (hkeys id s hs) s hs).1,
        fun id s hs => (hall id (hkeys id s hs) s hs).2.1,
        fun hdebug id s hs => (hall id (hkeys id s hs) s hs).2.2 hdebug, horder⟩
    · intro h
      exact ⟨fun id _ s hs => ⟨h.retried id s hs, h.merged id s hs,
        fun hdebug => h.present hdebug id s hs⟩, h.order⟩)

/-- A transaction that is kept under debug history is finished, the installation of
another project is cut short, and the first checkout is removed. -/
def finishThenRemove : List (RecordDirectory ℕ × EngineEvent ℕ × Option ℕ) :=
  [(byName, .prepare "p" (envOf "t1") debugRetention oldRevision newRevision, none),
    (byName, .install 0 (envOf "t1"), none),
    (byName, .prepare "q" (envOf "t2") debugRetention oldRevision newRevision, none),
    (byName, .install 0 (envOf "t2"), some 2), (byName, .user "p" none, none)]

/-- Without debug history the refs of the finished transaction are to be deleted,
which fails in the checkout that is gone. -/
theorem removed_checkout_blocks_recovery :
    ∃ w, Runs.run step (start fun _ => stagedAndOther) finishThenRemove = some w ∧
      phaseAt "t1" w.engine = some .completed ∧
      (w.engine.recoverAll byName envOf noRetention).failure = some .command ∧
      phaseAt "t2" (w.engine.recoverAll byName envOf noRetention).engine = some .installing := by
  decide +kernel

end Blocked

end EngineWorld

end Resync
