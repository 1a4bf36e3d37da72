import Resync.ConflictRecords
import Resync.HostedForward
import Resync.Lib.Runs

/-! Who removes the record of a conflict, over whole runs: only a clean-up, and not always
one of its own branch or one whose reconciliation comes to a good end. -/
namespace Resync

variable {Oid Task : Type}

namespace TransactionStore

variable {s s' u : TransactionStore} {path id : String} {t : StoredRecord}
  {answers : ClearAnswers}

/-- The record of a transaction is still there, with the refs that it had. -/
structure Keeps (s s' : TransactionStore) (id : String) (t : StoredRecord) : Prop where
  file : s'.files.get id = some (some t)
  refs : ∀ slot, s.refs t.projectPath id slot = true → s'.refs t.projectPath id slot = true

theorem Keeps.refl (h : s.files.get id = some (some t)) : Keeps s s id t := ⟨h, fun _ h => h⟩

theorem Keeps.trans (h : Keeps s s' id t) (h' : Keeps s' u id t) : Keeps s u id t :=
  ⟨h'.file, fun slot hslot => h'.refs slot (h.refs slot hslot)⟩

section Removal

variable (s) {removal : ArtifactRemoval} {j : String}

/-- A removal only changes the file of its record. -/
theorem get_removeArtifacts_of_ne (hj : j ≠ id) :
    (s.removeArtifacts path id removal).files.get j = s.files.get j := by
  change FiniteMap.get (if _ then s.files.set id none else s.files) j = s.files.get j
  split
  · rw [FiniteMap.get_set, Function.update_of_ne hj]
  · rfl

theorem keeps_removeArtifacts_of_ne (hj : j ≠ id) (h : s.files.get j = some (some t)) :
    Keeps s (s.removeArtifacts path id removal) j t := by
  refine ⟨(get_removeArtifacts_of_ne s hj).trans h, fun slot hslot => ?_⟩
  change (s.refs t.projectPath j slot && !(_ && j == id && _)) = true
  rw [hslot, beq_eq_false_iff_ne.mpr hj, Bool.and_false, Bool.false_and]
  rfl

/-- A removal that does not delete its first ref does nothing. -/
theorem keeps_removeArtifacts_of_head (hhead : removal.deletes .head = false)
    (h : s.files.get j = some (some t)) : Keeps s (s.removeArtifacts path id removal) j t := by
  have hdrops : ∀ slot, removal.drops slot = false := by
    intro slot
    cases slot with
    | head => exact hhead
    | _ => simp only [ArtifactRemoval.drops, hhead, Bool.false_and]
  refine ⟨?_, fun slot hslot => ?_⟩
  · change FiniteMap.get (if _ then s.files.set id none else s.files) j = some (some t)
    rw [hdrops, Bool.false_and, if_neg Bool.false_ne_true]
    exact h
  · change (s.refs t.projectPath j slot && !(_ && j == id && removal.drops slot)) = true
    rw [hslot, hdrops, Bool.and_false]
    rfl

end Removal

section Scan

/-- The scan goes on after a file. -/
def Passes (s : TransactionStore) (path : String) (answers : ClearAnswers) (id : String) : Prop :=
  answers.readable id = true ∧ ∃ t, s.files.get id = some (some t) ∧
    (t.matches path = true → (answers.removal id).succeeds = true)

/-- The scan comes to a conflict of the checkout, and deletes its first ref. -/
def Removes (s : TransactionStore) (path : String) (answers : ClearAnswers) (ids : List String)
    (id : String) (t : StoredRecord) : Prop :=
  (∃ before after, ids = before ++ id :: after ∧ ∀ j ∈ before, s.Passes path answers j) ∧
    answers.readable id = true ∧ s.files.get id = some (some t) ∧ t.matches path = true ∧
    (answers.removal id).deletes .head = true

theorem head_of_succeeds {removal : ArtifactRemoval} (h : removal.succeeds = true) :
    removal.deletes .head = true := by
  simp only [ArtifactRemoval.succeeds, Bool.and_eq_true] at h
  exact h.1.1.1.1

/-- The scan over a file that it passes. -/
theorem clearNames_cons (ids : List String) (h : s.Passes path answers id) :
    ∃ s' removed, s.clearNames path answers (id :: ids) =
        ⟨(s'.clearNames path answers ids).store,
          removed ++ (s'.clearNames path answers ids).removed,
          (s'.clearNames path answers ids).ok⟩ ∧
      (∀ j, j ≠ id → s'.files.get j = s.files.get j) ∧
      (∀ j t, j ≠ id → s.files.get j = some (some t) → Keeps s s' j t) ∧
      (s' = s ∧ removed = [] ∧ (∀ t, s.files.get id = some (some t) → t.matches path = false) ∨
        ∃ t, s.files.get id = some (some t) ∧ t.matches path = true ∧ removed = [(id, t)] ∧
          (answers.removal id).deletes .head = true) := by
  obtain ⟨hreadable, t, hfile, hsucceeds⟩ := h
  by_cases hmatches : t.matches path = true
  · have hhead := head_of_succeeds (hsucceeds hmatches)
    refine ⟨s.removeArtifacts path id (answers.removal id), [(id, t)], ?_,
      fun j hj => get_removeArtifacts_of_ne s hj,
      fun j t hj h => keeps_removeArtifacts_of_ne s hj h, Or.inr ⟨t, hfile, hmatches, rfl, hhead⟩⟩
    simp only [clearNames, entryOf, clearStep, hreadable, hfile, hmatches, hsucceeds hmatches, hhead,
      ↓reduceIte]
  · refine ⟨s, [], ?_, fun _ _ => rfl, fun _ _ _ h => Keeps.refl h, Or.inl ⟨rfl, rfl, ?_⟩⟩
    · simp only [clearNames, entryOf, clearStep, hreadable, hfile, hmatches, ↓reduceIte,
        List.nil_append, Bool.false_eq_true]
    · intro u hu
      rw [hfile] at hu
      obtain rfl := Option.some.inj (Option.some.inj hu)
      exact Bool.eq_false_iff.mpr hmatches

/-- What a scan that ends at a file has removed is the conflict of that file, if its
first ref is gone. -/
theorem clearNames_stop (ids : List String) (h : ¬ s.Passes path answers id) :
    ∃ s' removed, s.clearNames path answers (id :: ids) = ⟨s', removed, false⟩ ∧
      (∀ j u, (j, u) ∈ removed ↔ j = id ∧ answers.readable id = true ∧
        s.files.get id = some (some u) ∧ u.matches path = true ∧
        (answers.removal id).deletes .head = true) ∧
      ∀ j u, s.files.get j = some (some u) → Keeps s s' j u ∨ (j, u) ∈ removed := by
  have hstays : (∀ u, answers.readable id = true → s.files.get id ≠ some (some u)) →
      (∀ j u, (j, u) ∈ ([] : List (String × StoredRecord)) ↔ j = id ∧
        answers.readable id = true ∧ s.files.get id = some (some u) ∧ u.matches path = true ∧
        (answers.removal id).deletes .head = true) ∧
      ∀ j u, s.files.get j = some (some u) →
        Keeps s s j u ∨ (j, u) ∈ ([] : List (String × StoredRecord)) := by
    intro hnone
    refine ⟨fun j u => iff_of_false List.not_mem_nil ?_, fun j u hj => Or.inl (Keeps.refl hj)⟩
    rintro ⟨-, hreadable, hfile, -⟩
    exact hnone u hreadable hfile
  by_cases hreadable : answers.readable id = true
  · cases hfile : s.files.get id with
    -- The file is gone.
    | none =>
      refine ⟨s, [], ?_, hfile ▸ hstays fun u _ hu => ?_⟩
      · simp only [clearNames, entryOf, clearStep, hreadable, hfile, ↓reduceIte]
      · rw [hfile] at hu
        cases hu
    | some contents =>
      cases contents with
      -- The file does not parse.
      | none =>
        refine ⟨s, [], ?_, hfile ▸ hstays fun u _ hu => ?_⟩
        · simp only [clearNames, entryOf, clearStep, hreadable, hfile, ↓reduceIte]
        · rw [hfile] at hu
          cases hu
      -- The removal of the record fails on the way.
      | some t =>
        have hmatches : t.matches path = true := by
          by_contra hnot
          exact h ⟨hreadable, t, hfile, fun hm => absurd hm hnot⟩
        have hfails : (answers.removal id).succeeds = false := by
          rw [Bool.eq_false_iff]
          exact fun hsucceeds => h ⟨hreadable, t, hfile, fun _ => hsucceeds⟩
        refine ⟨s.removeArtifacts path id (answers.removal id),
          if (answers.removal id).deletes .head then [(id, t)] else [], ?_, fun j u => ?_,
          fun j u hj => ?_⟩
        · simp only [clearNames, entryOf, clearStep, hreadable, hfile, hmatches, hfails, ↓reduceIte,
            Bool.false_eq_true]
        · constructor
          · intro hmem
            split at hmem
            · next hhead =>
              obtain ⟨rfl, rfl⟩ := Prod.mk.inj (List.mem_singleton.mp hmem)
              exact ⟨rfl, hreadable, rfl, hmatches, hhead⟩
            · cases hmem
          · rintro ⟨rfl, -, hu, -, hhead⟩
            obtain rfl := Option.some.inj (Option.some.inj hu)
            rw [if_pos hhead]
            exact List.mem_singleton_self _
        · by_cases hhead : (answers.removal id).deletes .head = true
          · by_cases hjid : j = id
            · subst hjid
              rw [hfile] at hj
              obtain rfl := Option.some.inj (Option.some.inj hj)
              rw [if_pos hhead]
              exact Or.inr (List.mem_singleton_self _)
            · exact Or.inl (keeps_removeArtifacts_of_ne s hjid hj)
          · exact Or.inl (keeps_removeArtifacts_of_head s (Bool.eq_false_iff.mpr hhead) hj)
  -- The file cannot be read.
  · refine ⟨s, [], ?_, hstays fun u hr _ => hreadable hr⟩
    simp only [clearNames, entryOf, clearStep, hreadable, ↓reduceIte, Bool.false_eq_true]

/-- The scan succeeds when it goes through. -/
theorem clearNames_ok_iff {ids : List String} (hnodup : ids.Nodup) :
    (s.clearNames path answers ids).ok = true ↔ ∀ id ∈ ids, s.Passes path answers id := by
  induction ids generalizing s with
  | nil => exact iff_of_true rfl fun _ h => by cases h
  | cons id ids ih =>
    obtain ⟨hnot, hnodup⟩ := List.nodup_cons.mp hnodup
    rw [List.forall_mem_cons]
    by_cases hpasses : s.Passes path answers id
    · obtain ⟨s', removed, hclear, hget, -, -⟩ := clearNames_cons ids hpasses
      rw [hclear]
      refine (ih hnodup).trans ?_
      rw [and_iff_right hpasses]
      refine forall₂_congr fun j hj => ?_
      rw [Passes, Passes, hget j fun heq => hnot (heq ▸ hj)]
    · obtain ⟨s', removed, hclear, -⟩ := clearNames_stop ids hpasses
      rw [hclear]
      exact iff_of_false Bool.false_ne_true fun h => hpasses h.1

theorem removes_cons {ids : List String} {j : String} (hj : j ≠ id) :
    s.Removes path answers (id :: ids) j t ↔
      s.Passes path answers id ∧ s.Removes path answers ids j t := by
  constructor
  · rintro ⟨⟨before, after, heq, hbefore⟩, h⟩
    cases before with
    | nil => exact absurd (List.cons.inj heq).1.symm hj
    | cons i before =>
      obtain ⟨rfl, rfl⟩ := List.cons.inj heq
      rw [List.forall_mem_cons] at hbefore
      exact ⟨hbefore.1, ⟨before, after, rfl, hbefore.2⟩, h⟩
  · rintro ⟨hpasses, ⟨before, after, rfl, hbefore⟩, h⟩
    exact ⟨⟨id :: before, after, rfl, List.forall_mem_cons.mpr ⟨hpasses, hbefore⟩⟩, h⟩

/-- The first file is removed with the conflict that it has. -/
theorem removes_head {ids : List String} :
    s.Removes path answers (id :: ids) id t ↔ answers.readable id = true ∧
      s.files.get id = some (some t) ∧ t.matches path = true ∧
      (answers.removal id).deletes .head = true :=
  ⟨fun h => h.2, fun h => ⟨⟨[], ids, rfl, fun _ hj => by cases hj⟩, h⟩⟩

theorem Removes.congr {ids : List String} {j : String} (hids : ∀ i ∈ ids, i ≠ id)
    (hget : ∀ i, i ≠ id → s'.files.get i = s.files.get i) (hj : j ≠ id)
    (h : s'.Removes path answers ids j t) : s.Removes path answers ids j t := by
  obtain ⟨⟨before, after, rfl, hbefore⟩, hreadable, hfile, h⟩ := h
  refine ⟨⟨before, after, rfl, fun i hi => ?_⟩, hreadable, (hget j hj).symm.trans hfile, h⟩
  have hne : i ≠ id := hids i (List.mem_append_left _ hi)
  have hpasses := hbefore i hi
  rw [Passes, hget i hne] at hpasses
  exact hpasses

theorem Removes.mem {ids : List String} (h : s.Removes path answers ids id t) : id ∈ ids := by
  obtain ⟨⟨before, after, rfl, -⟩, -⟩ := h
  exact List.mem_append_right _ List.mem_cons_self

/-- What a scan removes, and that it keeps the other records. -/
theorem clearNames_spec {ids : List String} (hnodup : ids.Nodup) :
    (∀ j u, (j, u) ∈ (s.clearNames path answers ids).removed ↔
      s.Removes path answers ids j u) ∧
    ∀ j u, s.files.get j = some (some u) →
      Keeps s (s.clearNames path answers ids).store j u ∨
        (j, u) ∈ (s.clearNames path answers ids).removed := by
  induction ids generalizing s with
  | nil =>
    refine ⟨fun j u => iff_of_false List.not_mem_nil ?_, fun j u h => Or.inl (Keeps.refl h)⟩
    intro h
    cases h.mem
  | cons id ids ih =>
    obtain ⟨hnot, hnodup⟩ := List.nodup_cons.mp hnodup
    have hids : ∀ i ∈ ids, i ≠ id := fun i hi heq => hnot (heq ▸ hi)
    -- The scan goes on past the file, or it ends there.
    by_cases hpasses : s.Passes path answers id
    · obtain ⟨s', removed, hclear, hget, hkeeps, hcase⟩ := clearNames_cons ids hpasses
      obtain ⟨hremoved, hkept⟩ := ih (s := s') hnodup
      rw [hclear]
      have hother : ∀ j u, (j, u) ∈ removed → j = id ∧ s.files.get id = some (some u) ∧
          u.matches path = true ∧ (answers.removal id).deletes .head = true := by
        intro j u hj
        rcases hcase with ⟨-, rfl, -⟩ | ⟨t, hfile, hmatches, rfl, hhead⟩
        · cases hj
        · obtain ⟨rfl, rfl⟩ := Prod.mk.inj (List.mem_singleton.mp hj)
          exact ⟨rfl, hfile, hmatches, hhead⟩
      refine ⟨fun j u => ?_, fun j u hj => ?_⟩
      · rw [List.mem_append]
        by_cases hjid : j = id
        -- The file of `id` is up to this round, since the rounds after it do not list it
        -- again.
        · subst hjid
          rw [removes_head]
          constructor
          · rintro (hj | hj)
            · exact ⟨hpasses.1, (hother j u hj).2⟩
            · exact absurd ((hremoved j u).mp hj).mem hnot
          · rintro ⟨-, hfile, hmatches, hhead⟩
            rcases hcase with ⟨-, -, hquiet⟩ | ⟨t, ht, -, rfl, -⟩
            · rw [hquiet u hfile] at hmatches
              cases hmatches
            · rw [ht] at hfile
              obtain rfl := Option.some.inj (Option.some.inj hfile)
              exact Or.inl (List.mem_singleton_self _)
        · rw [removes_cons hjid, and_iff_right hpasses]
          constructor
          · rintro (hj | hj)
            · exact absurd (hother j u hj).1 hjid
            · exact ((hremoved j u).mp hj).congr hids hget hjid
          · intro hj
            refine Or.inr ((hremoved j u).mpr ?_)
            exact hj.congr hids (fun i hi => (hget i hi).symm) hjid
      · by_cases hjid : j = id
        · subst hjid
          rcases hcase with ⟨rfl, -, -⟩ | ⟨t, ht, -, rfl, -⟩
          · exact (hkept j u hj).imp_right (List.mem_append_right _)
          · rw [ht] at hj
            obtain rfl := Option.some.inj (Option.some.inj hj)
            exact Or.inr (List.mem_append_left _ (List.mem_singleton_self _))
        · have hfirst := hkeeps j u hjid hj
          rcases hkept j u hfirst.file with hlast | hlast
          · exact Or.inl (hfirst.trans hlast)
          · exact Or.inr (List.mem_append_right _ hlast)
    · obtain ⟨s', removed, hclear, hremoved, hkept⟩ := clearNames_stop ids hpasses
      rw [hclear]
      refine ⟨fun j u => ?_, hkept⟩
      rw [hremoved]
      by_cases hjid : j = id
      · subst hjid
        rw [removes_head, and_iff_right rfl]
      · rw [removes_cons hjid]
        exact iff_of_false (fun h => hjid h.1) fun h => hpasses h.1

end Scan

/-- A fresh record leaves the others alone. -/
theorem keeps_writeConflict {headRef : Branch} {candidate : Bool} {j : String}
    (hs : s.writeConflict path id headRef candidate = some s')
    (h : s.files.get j = some (some t)) : Keeps s s' j t := by
  unfold writeConflict at hs
  split at hs
  · next hfresh =>
    have hj : j ≠ id := by
      rintro rfl
      rw [hfresh] at h
      cases h
    obtain rfl := Option.some.inj hs
    refine ⟨?_, fun slot hslot => ?_⟩
    · change FiniteMap.get (s.files.set id _) j = some (some t)
      rw [FiniteMap.get_set, Function.update_of_ne hj]
      exact h
    · change (if t.projectPath = path ∧ j = id then _ else s.refs t.projectPath j slot) = true
      rw [if_neg fun h => hj h.2]
      exact hslot
  · cases hs

end TransactionStore

namespace ConflictWorld

open TransactionStore

section Condition

/-- Each conflict that a clean-up removes is of the branch that is reconciled, the
clean-up goes through, and nothing fails after it. -/
def CleansOwn (s : TransactionStore) (path : String) (branch : Branch) (answers : ClearAnswers)
    (succeeds : Prop) : Prop :=
  ∀ ids ∈ answers.listing, ∀ id t, s.Removes path answers ids id t →
    t.headRef = branch ∧ (∀ j ∈ ids, s.Passes path answers j) ∧ succeeds

variable [DecidableEq Oid]

/-- The recheck of a complete result lets it through, and `catalog.json` is written. -/
def MergesComplete (w : DaemonWorld Oid Task) (task : Option Task) (persisted : Bool) : Prop :=
  ∃ caller name staged result expected branch target project,
    w.reconciling task = .complete caller name staged result expected branch target ∧
    findProject w.publish.catalog name = some project ∧
    DaemonWorld.stillComplete project expected branch target = true ∧ persisted = true

variable [DecidableEq Task] (G : CommitGraph Oid)

/-- The condition on a step that is made. -/
def ClearsOwn (w : ConflictWorld Oid Task) (e : ConflictEvent Oid Task) : Prop :=
  (w.step G e).isSome = true →
    match e with
    | .prepare task rebase _ _ answers => ∀ target ∈ w.prepareClears G task rebase,
        CleansOwn w.store target.1 target.2 answers True
    | .install task installed _ _ persisted answers => ∀ target ∈ w.installClears task installed,
        CleansOwn w.store target.1 target.2 answers (persisted = true)
    | .daemon (.reconcile task (.merge persisted)) =>
        task ∈ w.clearing → MergesComplete w.daemon task persisted
    | .daemon (.publish .restart) => w.clearing = []
    | _ => True

end Condition

/-- A conflict is only removed for its own branch, and by a reconciliation that is
applied or current in the end. -/
structure RemovesOwn (w : ConflictWorld Oid Task) : Prop where
  removals : ∀ r ∈ w.removals, r.record.headRef = r.branch
  ended : ∀ outcome ∈ w.ended, outcome = some .applied ∨ outcome = some .current

/-- A call that has removed a conflict and has not returned is about to merge that it is
current. -/
def Settled (w : ConflictWorld Oid Task) : Prop :=
  ∀ task ∈ w.clearing, ∃ caller name staged result expected branch target,
    w.daemon.reconciling task = .complete caller name staged result expected branch target ∧
      result.outcome = .current

section Settle

variable [DecidableEq Task] {w : ConflictWorld Oid Task} {task : Option Task}

theorem settle_cases (w : ConflictWorld Oid Task) (task : Option Task) :
    (w.settle task = w ∧ ∀ caller name outcome,
      w.daemon.reconciling task = .answered caller name outcome → task ∉ w.clearing) ∨
    ∃ caller name outcome, w.daemon.reconciling task = .answered caller name outcome ∧
      task ∈ w.clearing ∧ w.settle task = { w with
        clearing := w.clearing.filter (· ≠ task), ended := w.ended ++ [outcome] } := by
  cases hplace : w.daemon.reconciling task with
  | answered caller name outcome =>
    by_cases hmem : task ∈ w.clearing
    · refine Or.inr ⟨caller, name, outcome, rfl, hmem, ?_⟩
      simp only [settle, hplace, hmem, ↓reduceIte]
    · refine Or.inl ⟨?_, fun _ _ _ _ => hmem⟩
      simp only [settle, hplace, hmem, ↓reduceIte]
  | _ =>
    refine Or.inl ⟨?_, fun _ _ _ h => by cases h⟩
    simp only [settle, hplace]

@[simp] theorem store_settle : (w.settle task).store = w.store := by
  rcases settle_cases w task with ⟨h, -⟩ | ⟨_, _, _, -, -, h⟩ <;> rw [h]

@[simp] theorem removals_settle : (w.settle task).removals = w.removals := by
  rcases settle_cases w task with ⟨h, -⟩ | ⟨_, _, _, -, -, h⟩ <;> rw [h]

end Settle

section Steps

variable [DecidableEq Oid] [DecidableEq Task] {G : CommitGraph Oid}
  {w w' : ConflictWorld Oid Task} {task : Option Task} {answers : ClearAnswers}
  {id : String} {t : StoredRecord}

omit [DecidableEq Oid] [DecidableEq Task] in
/-- The conflicts that a clean-up removes, by the records that it finds. -/
theorem cleanUp_spec (hlists : answers.Lists w.store.files)
    (target : Option (String × Branch)) :
    (∀ j u, (j, u) ∈ (w.cleanUp target answers).removed ↔
      ∃ path branch, target = some (path, branch) ∧ ∃ ids ∈ answers.listing,
        w.store.Removes path answers ids j u) ∧
    ∀ j u, w.store.files.get j = some (some u) →
      Keeps w.store (w.cleanUp target answers).store j u ∨
        (j, u) ∈ (w.cleanUp target answers).removed := by
  cases target with
  | none =>
    refine ⟨fun j u => iff_of_false List.not_mem_nil ?_, fun j u h => Or.inl (Keeps.refl h)⟩
    rintro ⟨_, _, h, -⟩
    cases h
  | some target =>
    obtain ⟨path, branch⟩ := target
    have hclean : w.cleanUp (some (path, branch)) answers =
      w.store.clearResolvedConflicts path answers := rfl
    rw [hclean]
    cases hlisting : answers.listing with
    | none =>
      simp only [TransactionStore.clearResolvedConflicts, hlisting]
      refine ⟨fun j u => iff_of_false List.not_mem_nil ?_, fun j u h => Or.inl (Keeps.refl h)⟩
      rintro ⟨_, _, -, _, h, -⟩
      cases h
    | some ids =>
      have hnodup := (hlists ids hlisting).1
      simp only [TransactionStore.clearResolvedConflicts, hlisting]
      have hspec := @clearNames_spec w.store path answers ids hnodup
      refine ⟨fun j u => (hspec.1 j u).trans ⟨fun h => ?_, fun h => ?_⟩, hspec.2⟩
      · exact ⟨path, branch, rfl, ids, rfl, h⟩
      · obtain ⟨_, _, heq, ids', hids', h⟩ := h
        obtain ⟨rfl, rfl⟩ := Prod.mk.inj (Option.some.inj heq)
        obtain rfl := Option.some.inj hids'
        exact h

omit [DecidableEq Oid] [DecidableEq Task] in
/-- The clean-up succeeds when it goes through. -/
theorem cleanUp_ok_iff (hlists : answers.Lists w.store.files) (path : String) (branch : Branch) :
    (w.cleanUp (some (path, branch)) answers).ok = true ↔
      ∀ ids ∈ answers.listing, ∀ j ∈ ids, w.store.Passes path answers j := by
  have hclean : w.cleanUp (some (path, branch)) answers =
    w.store.clearResolvedConflicts path answers := rfl
  rw [hclean]
  cases hlisting : answers.listing with
  | none =>
    simp only [TransactionStore.clearResolvedConflicts, hlisting]
    exact iff_of_true trivial fun _ h => by cases h
  | some ids =>
    simp only [TransactionStore.clearResolvedConflicts, hlisting]
    refine (clearNames_ok_iff (hlists ids hlisting).1).trans ⟨fun h ids' hids' => ?_, fun h => ?_⟩
    · obtain rfl := Option.some.inj hids'
      exact h
    · exact h ids rfl

/-- What a step with a clean-up does. -/
structure Cleans (w w' : ConflictWorld Oid Task) (task : Option Task)
    (target : Option (String × Branch)) (answers : ClearAnswers) (daemon : DaemonWorld Oid Task)
    (store : TransactionStore) : Prop where
  lists : answers.Lists w.store.files
  stored : store = (w.cleanUp target answers).store ∨ ∃ path id headRef candidate,
    (w.cleanUp target answers).store.writeConflict path id headRef candidate = some store
  after : w' = w.cleared task target (w.cleanUp target answers) daemon store

theorem prepare_eq_some {rebase : Rebase Oid} {headRef : Branch}
    (hs : w.prepare G task rebase id headRef answers = some w') :
    ∃ daemon store, w.daemon.step G (.reconcile task (.prepare
        (w.cleanUp (w.prepareClears G task rebase) answers).ok rebase)) = some daemon ∧
      Cleans w w' task (w.prepareClears G task rebase) answers daemon store := by
  unfold prepare at hs
  split at hs
  · next hlists =>
    obtain ⟨daemon, hdaemon, hs⟩ := Option.bind_eq_some_iff.mp hs
    split at hs
    · exact ⟨daemon, _, hdaemon, hlists, Or.inl rfl, (Option.some.inj hs).symm⟩
    · split at hs
      · obtain ⟨store, hstore, rfl⟩ := Option.map_eq_some_iff.mp hs
        exact ⟨daemon, store, hdaemon, hlists, Or.inr ⟨_, _, _, _, hstore⟩, rfl⟩
      · cases hs
  · cases hs

theorem install_eq_some {installed : Installed} {discarded persisted : Bool}
    (hs : w.install G task installed id discarded persisted answers = some w') :
    ∃ daemon store, w.daemon.step G (.reconcile task (.install installed
        (if (w.installClears task installed).isSome then
          (w.cleanUp (w.installClears task installed) answers).ok else discarded) persisted)) =
        some daemon ∧
      Cleans w w' task (w.installClears task installed) answers daemon store := by
  unfold install at hs
  split at hs
  · next hlists =>
    obtain ⟨daemon, hdaemon, hs⟩ := Option.bind_eq_some_iff.mp hs
    split at hs
    · exact ⟨daemon, _, hdaemon, hlists, Or.inl rfl, (Option.some.inj hs).symm⟩
    · obtain ⟨store, hstore, rfl⟩ := Option.map_eq_some_iff.mp hs
      exact ⟨daemon, store, hdaemon, hlists, Or.inr ⟨_, _, _, _, hstore⟩, rfl⟩
  · cases hs

section Cleans

variable {target : Option (String × Branch)} {daemon : DaemonWorld Oid Task}
  {store : TransactionStore}

omit [DecidableEq Oid] in
theorem Cleans.removals (h : Cleans w w' task target answers daemon store) :
    w'.removals = w.removals ++ removalsOf target (w.cleanUp target answers) := by
  rw [h.after, cleared, removals_settle]

omit [DecidableEq Oid] in
theorem Cleans.keeps (h : Cleans w w' task target answers daemon store)
    (hfile : w.store.files.get id = some (some t)) :
    Keeps w.store w'.store id t ∨ ∃ r ∈ w'.removals, r.id = id ∧ r.record = t := by
  have hspec := cleanUp_spec h.lists target
  rcases hspec.2 id t hfile with hkept | hremoved
  · refine Or.inl ?_
    rw [h.after, cleared, store_settle]
    rcases h.stored with hstore | ⟨path, fresh, headRef, candidate, hstore⟩
    · change Keeps w.store store id t
      rw [hstore]
      exact hkept
    · exact hkept.trans (keeps_writeConflict hstore hkept.file)
  · obtain ⟨path, branch, htarget, -⟩ := (hspec.1 id t).mp hremoved
    refine Or.inr ⟨⟨branch, id, t⟩, ?_, rfl, rfl⟩
    rw [h.removals]
    refine List.mem_append_right _ ?_
    rw [htarget] at hremoved ⊢
    exact List.mem_map_of_mem hremoved

end Cleans

theorem step_eq_some {e : ConflictEvent Oid Task} (hs : w.step G e = some w') :
    (w'.store = w.store ∧ w'.removals = w.removals) ∨
      ∃ task target answers daemon store, Cleans w w' task target answers daemon store := by
  cases e with
  | daemon e =>
    refine Or.inl ?_
    unfold step at hs
    split at hs
    · cases hs
    · cases hs
    · obtain ⟨daemon, -, rfl⟩ := Option.map_eq_some_iff.mp hs
      exact ⟨rfl, rfl⟩
    · obtain ⟨daemon, -, rfl⟩ := Option.map_eq_some_iff.mp hs
      exact ⟨rfl, rfl⟩
    · obtain ⟨daemon, -, rfl⟩ := Option.map_eq_some_iff.mp hs
      exact ⟨store_settle, removals_settle⟩
    · next heq => cases heq
    · next heq => cases heq
  | prepare task rebase id headRef answers =>
    obtain ⟨daemon, store, -, hcleans⟩ := prepare_eq_some hs
    exact Or.inr ⟨task, _, answers, daemon, store, hcleans⟩
  | install task installed id discarded persisted answers =>
    obtain ⟨daemon, store, -, hcleans⟩ := install_eq_some hs
    exact Or.inr ⟨task, _, answers, daemon, store, hcleans⟩

/-- Only a clean-up removes a record, or a ref of it. -/
theorem step_keeps {e : ConflictEvent Oid Task} (hs : w.step G e = some w')
    (hfile : w.store.files.get id = some (some t)) :
    Keeps w.store w'.store id t ∨ ∃ r ∈ w'.removals, r.id = id ∧ r.record = t := by
  rcases step_eq_some hs with ⟨hstore, -⟩ | ⟨task, target, answers, daemon, store, hcleans⟩
  · rw [hstore]
    exact Or.inl (Keeps.refl hfile)
  · exact hcleans.keeps hfile

theorem step_removals {e : ConflictEvent Oid Task} (hs : w.step G e = some w') :
    ∀ r ∈ w.removals, r ∈ w'.removals := by
  intro r hr
  rcases step_eq_some hs with ⟨-, hremovals⟩ | ⟨task, target, answers, daemon, store, hcleans⟩
  · rw [hremovals]
    exact hr
  · rw [hcleans.removals]
    exact List.mem_append_left _ hr

/-- A record that is gone, or that has lost a ref, has been removed by a clean-up. -/
theorem kept_or_removed {es : List (ConflictEvent Oid Task)}
    (hfile : w.store.files.get id = some (some t)) (hr : Runs.run (step G) w es = some w') :
    Keeps w.store w'.store id t ∨ ∃ r ∈ w'.removals, r.id = id ∧ r.record = t := by
  have hstep : ∀ (u : ConflictWorld Oid Task) e u',
      (Keeps w.store u.store id t ∨ ∃ r ∈ u.removals, r.id = id ∧ r.record = t) → True →
      u.step G e = some u' →
      (Keeps w.store u'.store id t ∨ ∃ r ∈ u'.removals, r.id = id ∧ r.record = t) := by
    rintro u e u' (hkept | ⟨r, hr, hid⟩) - hs
    · rcases step_keeps hs hkept.file with hnext | hremoved
      · exact Or.inl (hkept.trans hnext)
      · exact Or.inr hremoved
    · exact Or.inr ⟨r, step_removals hs r hr, hid⟩
  exact Runs.run_invariant hstep (Or.inl (Keeps.refl hfile))
    (Runs.Steps.of_forall (fun _ _ _ => trivial) _) hr

section Outcomes

omit [DecidableEq Task] in
/-- A preparation that is current fails where its clean-up does. -/
theorem prepare_uncleared {project staged : LocalProject Oid} {rebase : Rebase Oid}
    {branch actual : Branch} {head : Option Oid} {result : ReconcileResult Oid} {expected : ℕ}
    {advertised : Option Oid}
    (h : prepareProjectReconciliation G (rebase.answers branch head true) project =
      some (.complete staged result expected actual advertised))
    (hcurrent : result.outcome = .current) :
    prepareProjectReconciliation G (rebase.answers branch head false) project = none := by
  unfold prepareProjectReconciliation at h ⊢
  simp only [Rebase.answers, Option.bind_eq_bind, Option.bind_some, ↓reduceIte,
    Bool.false_eq_true] at h ⊢
  split at h
  · rfl
  · next target _ =>
    obtain ⟨c, hc, h⟩ := Option.bind_eq_some_iff.mp h
    rw [hc, Option.bind_some]
    split at h
    · next hahead => rw [if_pos hahead]
    · next hahead =>
      rw [if_neg hahead]
      split at h
      · cases h
        cases hcurrent
      · next previous hprevious =>
        obtain ⟨prepared, hprepared, h⟩ := Option.bind_eq_some_iff.mp h
        cases prepared with
        | none => cases h
        | some found =>
          obtain ⟨applied, -, h⟩ := Option.bind_eq_some_iff.mp h
          cases h
          rw [hprepared, Option.bind_some]
          simp only [applyReconciliationResult, hcurrent, Bool.false_eq_true, ↓reduceIte,
            Option.bind_none]

omit [DecidableEq Task] in
/-- Only a preparation that answers `current` cleans up. -/
theorem prepareClears_eq_some {rebase : Rebase Oid} {target : String × Branch} {caller : Caller}
    {name : String} {project : LocalProject Oid} {branch : Branch}
    (hplace : w.daemon.reconciling task = .located caller name project branch)
    (h : w.prepareClears G task rebase = some target) :
    ∃ staged result expected actual advertised,
      prepareProjectReconciliation G (rebase.answers branch
        (w.daemon.publish.checkouts project.localPath).headCommit true) project =
          some (.complete staged result expected actual advertised) ∧
        result.outcome = .current := by
  simp only [prepareClears, hplace] at h
  split at h
  · next staged result expected actual advertised hprepare =>
    split at h
    · next hcurrent => exact ⟨staged, result, expected, actual, advertised, hprepare, hcurrent⟩
    · cases h
  · cases h

omit [DecidableEq Task] in
/-- Only an installation that is applied, of a project that still wants it, cleans up. -/
theorem installClears_eq_some {installed : Installed} {target : String × Branch}
    {caller : Caller} {name : String} {p : PreparedProject Oid} {candidate : PreparedInstall Oid}
    (hplace : w.daemon.reconciling task = .prepared caller name p candidate)
    (h : w.installClears task installed = some target) :
    (∃ changedPaths, installed = .applied changedPaths) ∧
      ∃ project, findProject w.daemon.publish.catalog name = some project ∧
        AccessWorld.stillWanted project p
          (w.daemon.publish.checkouts project.localPath).headBranch = true := by
  cases installed with
  | applied changedPaths =>
    simp only [installClears, hplace] at h
    obtain ⟨project, hfound, h⟩ := Option.bind_eq_some_iff.mp h
    split at h
    · next hwanted => exact ⟨⟨changedPaths, rfl⟩, project, hfound, hwanted⟩
    · cases h
  | _ => cases h

/-- Where a preparation with a clean-up takes its call. -/
theorem prepare_place {rebase : Rebase Oid} {ok : Bool} {daemon : DaemonWorld Oid Task}
    (hs : w.daemon.step G (.reconcile task (.prepare ok rebase)) = some daemon) :
    ∃ caller name project branch r,
      w.daemon.reconciling task = .located caller name project branch ∧
      daemon.reconciling = Function.update w.daemon.reconciling task r ∧
      ∀ target ∈ w.prepareClears G task rebase,
        (ok = true → ∃ staged result expected actual advertised,
          r = .complete caller name staged result expected actual advertised ∧
            result.outcome = .current) ∧
        (ok = false → r = .answered caller name none) := by
  simp only [DaemonWorld.step] at hs
  cases DaemonWorld.reconcileStep_of_reconcile hs with
  | failsPreparation hplace hfailed =>
    refine ⟨_, _, _, _, _, hplace, rfl, fun target htarget => ⟨fun hok => ?_, fun _ => rfl⟩⟩
    obtain ⟨_, _, _, _, _, hprepare, -⟩ := prepareClears_eq_some hplace htarget
    rw [hok, hprepare] at hfailed
    cases hfailed
  | completes hplace hprepared =>
    refine ⟨_, _, _, _, _, hplace, rfl, fun target htarget => ?_⟩
    obtain ⟨_, _, _, _, _, hprepare, hcurrent⟩ := prepareClears_eq_some hplace htarget
    constructor
    · intro hok
      rw [hok, hprepare] at hprepared
      cases hprepared
      exact ⟨_, _, _, _, _, rfl, hcurrent⟩
    · intro hok
      rw [hok, prepare_uncleared hprepare hcurrent] at hprepared
      cases hprepared
  | prepares hplace hprepared =>
    refine ⟨_, _, _, _, _, hplace, rfl, fun target htarget => ?_⟩
    -- a candidate is prepared where the branch is behind, and there nothing is cleaned up
    obtain ⟨_, _, _, _, _, hprepare, hcurrent⟩ := prepareClears_eq_some hplace htarget
    cases ok with
    | true =>
      rw [hprepare] at hprepared
      cases hprepared
    | false =>
      rw [prepare_uncleared hprepare hcurrent] at hprepared
      cases hprepared

/-- Where an installation takes its call. -/
theorem install_place {installed : Installed} {ok persisted : Bool}
    {daemon : DaemonWorld Oid Task}
    (hs : w.daemon.step G (.reconcile task (.install installed ok persisted)) = some daemon) :
    ∃ caller name p candidate outcome,
      w.daemon.reconciling task = .prepared caller name p candidate ∧
      daemon.reconciling = Function.update w.daemon.reconciling task
        (.answered caller name outcome) ∧
      ∀ target ∈ w.installClears task installed,
        outcome = if ok && persisted then some .applied else none := by
  simp only [DaemonWorld.step] at hs
  cases DaemonWorld.reconcileStep_of_reconcile hs with
  | installsUnknown hplace hunknown =>
    refine ⟨_, _, _, _, _, hplace, rfl, fun target htarget => ?_⟩
    obtain ⟨-, project, hfound, -⟩ := installClears_eq_some hplace htarget
    rw [hunknown] at hfound
    cases hfound
  | isUnwanted hplace hfound hunwanted =>
    refine ⟨_, _, _, _, _, hplace, rfl, fun target htarget => ?_⟩
    obtain ⟨-, project, hproject, hwanted⟩ := installClears_eq_some hplace htarget
    cases hfound.symm.trans hproject
    exact absurd hwanted hunwanted
  | failsInstallation hplace hfound hwanted hmoved hresult =>
    refine ⟨_, _, _, _, _, hplace, rfl, fun target htarget => ?_⟩
    obtain ⟨⟨changedPaths, rfl⟩, -⟩ := installClears_eq_some hplace htarget
    cases ok with
    | true => cases hresult
    | false => rfl
  | installs hplace hfound hwanted hmoved hresult =>
    refine ⟨_, _, _, _, _, hplace, rfl, fun target htarget => ?_⟩
    obtain ⟨⟨changedPaths, rfl⟩, -⟩ := installClears_eq_some hplace htarget
    cases ok with
    | true =>
      cases hresult
      rw [Bool.true_and]
    | false => cases hresult

end Outcomes

section Invariant

variable {target : Option (String × Branch)} {daemon : DaemonWorld Oid Task}
  {store : TransactionStore} {r : Reconciliation Oid} {P : Prop}

omit [DecidableEq Oid] [DecidableEq Task] in
/-- What the condition says of a clean-up. -/
theorem cleansOwn_iff (hlists : answers.Lists w.store.files) :
    (∀ x ∈ target, CleansOwn w.store x.1 x.2 answers P) ↔
      (∀ x ∈ removalsOf target (w.cleanUp target answers), x.record.headRef = x.branch) ∧
        ((w.cleanUp target answers).removed ≠ [] →
          (w.cleanUp target answers).ok = true ∧ P) := by
  obtain ⟨hremoved, -⟩ := cleanUp_spec hlists target
  constructor
  · intro hown
    have heach : ∀ j u, (j, u) ∈ (w.cleanUp target answers).removed → ∃ path branch,
        target = some (path, branch) ∧ u.headRef = branch ∧
          (w.cleanUp target answers).ok = true ∧ P := by
      intro j u hj
      obtain ⟨path, branch, htarget, ids, hids, hremoves⟩ := (hremoved j u).mp hj
      obtain ⟨hhead, hpasses, hP⟩ := hown (path, branch) htarget ids hids j u hremoves
      refine ⟨path, branch, htarget, hhead, ?_, hP⟩
      rw [htarget, cleanUp_ok_iff hlists]
      intro ids' hids'
      rw [Option.mem_def.mp hids] at hids'
      obtain rfl := Option.some.inj hids'
      exact hpasses
    constructor
    · intro x hx
      cases htarget : target with
      | none =>
        rw [htarget] at hx
        cases hx
      | some found =>
        rw [htarget] at hx
        obtain ⟨⟨j, u⟩, hj, rfl⟩ := List.mem_map.mp hx
        obtain ⟨path, branch, hfound, hhead, -⟩ := heach j u (htarget ▸ hj)
        rw [htarget] at hfound
        rw [Option.some.inj hfound]
        exact hhead
    · intro hne
      obtain ⟨⟨j, u⟩, hj⟩ := List.exists_mem_of_ne_nil _ hne
      obtain ⟨-, -, -, -, h⟩ := heach j u hj
      exact h
  · rintro ⟨hheads, hdone⟩ ⟨path, branch⟩ htarget ids hids j u hremoves
    obtain rfl := Option.mem_def.mp htarget
    have hj : (j, u) ∈ (w.cleanUp (some (path, branch)) answers).removed :=
      (hremoved j u).mpr ⟨path, branch, rfl, ids, hids, hremoves⟩
    obtain ⟨hok, hP⟩ := hdone fun hnil => by
      rw [hnil] at hj
      cases hj
    refine ⟨hheads ⟨branch, j, u⟩ (List.mem_map_of_mem hj), ?_, hP⟩
    exact (cleanUp_ok_iff hlists path branch).mp hok ids hids

omit [DecidableEq Oid] in
/-- The calls after a step with a clean-up. -/
theorem Cleans.settled (h : Settled w) (hc : Cleans w w' task target answers daemon store)
    (hcalls : daemon.reconciling = Function.update w.daemon.reconciling task r)
    (hnot : task ∉ w.clearing)
    (hr : (w.cleanUp target answers).removed ≠ [] →
      (∃ caller name staged result expected branch advertised,
        r = .complete caller name staged result expected branch advertised ∧
          result.outcome = .current) ∨ ∃ caller name outcome, r = .answered caller name outcome) :
    Settled w' := by
  have hself : daemon.reconciling task = r := by rw [hcalls, Function.update_self]
  have hother : ∀ t ∈ w.clearing, ∃ caller name staged result expected branch advertised,
      daemon.reconciling t = .complete caller name staged result expected branch advertised ∧
        result.outcome = .current := by
    intro t ht
    have hne : t ≠ task := fun heq => hnot (heq ▸ ht)
    rw [hcalls, Function.update_of_ne hne]
    exact h t ht
  rw [hc.after, cleared]
  rcases settle_cases ⟨daemon, store, if (w.cleanUp target answers).removed = [] then w.clearing
      else task :: w.clearing, w.removals ++ removalsOf target (w.cleanUp target answers),
      w.ended⟩ task with ⟨heq, hanswered⟩ | ⟨caller, name, outcome, -, -, heq⟩
  · rw [heq]
    intro t ht
    change t ∈ (if _ then _ else _) at ht
    split at ht
    · exact hother t ht
    · next hne =>
      rcases List.mem_cons.mp ht with rfl | ht
      · rcases hr hne with ⟨caller, name, staged, result, expected, branch, advertised, rfl, hcur⟩
          | ⟨caller, name, outcome, rfl⟩
        · exact ⟨caller, name, staged, result, expected, branch, advertised, hself, hcur⟩
        · refine absurd ?_ (hanswered caller name outcome hself)
          change t ∈ (if _ then _ else _)
          rw [if_neg hne]
          exact List.mem_cons_self
      · exact hother t ht
  · rw [heq]
    intro t ht
    obtain ⟨ht, hne⟩ := List.mem_filter.mp ht
    change t ∈ (if _ then _ else _) at ht
    split at ht
    · exact hother t ht
    · rcases List.mem_cons.mp ht with rfl | ht
      · exact absurd rfl (of_decide_eq_true hne)
      · exact hother t ht

omit [DecidableEq Oid] in
/-- What has been put down after a step with a clean-up. -/
theorem Cleans.ended (hc : Cleans w w' task target answers daemon store)
    (hcalls : daemon.reconciling = Function.update w.daemon.reconciling task r)
    (hnot : task ∉ w.clearing) :
    (w'.ended = w.ended ∧ ((w.cleanUp target answers).removed ≠ [] →
        ∀ caller name outcome, r ≠ .answered caller name outcome)) ∨
      ∃ caller name outcome, r = .answered caller name outcome ∧
        (w.cleanUp target answers).removed ≠ [] ∧ w'.ended = w.ended ++ [outcome] := by
  have hself : daemon.reconciling task = r := by rw [hcalls, Function.update_self]
  rw [hc.after, cleared]
  rcases settle_cases ⟨daemon, store, if (w.cleanUp target answers).removed = [] then w.clearing
      else task :: w.clearing, w.removals ++ removalsOf target (w.cleanUp target answers),
      w.ended⟩ task with ⟨heq, hanswered⟩ | ⟨caller, name, outcome, hplace, hmem, heq⟩
  · refine Or.inl ⟨by rw [heq], fun hne caller name outcome hr => ?_⟩
    refine hanswered caller name outcome (hself.trans hr) ?_
    change task ∈ (if _ then _ else _)
    rw [if_neg hne]
    exact List.mem_cons_self
  · refine Or.inr ⟨caller, name, outcome, hself.symm.trans hplace, fun hnil => ?_, by rw [heq]⟩
    change task ∈ (if _ then _ else _) at hmem
    rw [if_pos hnil] at hmem
    exact hnot hmem

/-- A call that waits for its merge makes no other step. -/
theorem merges_of_complete {d d' : DaemonWorld Oid Task} {caller : Caller} {name : String}
    {staged : LocalProject Oid} {result : ReconcileResult Oid} {expected : ℕ} {branch : Branch}
    {advertised : Option Oid} {e : ReconcileEvent Oid}
    (hplace : d.reconciling task =
      .complete caller name staged result expected branch advertised)
    (hs : d.reconcile G task e = some d') : ∃ persisted, e = .merge persisted := by
  cases DaemonWorld.reconcileStep_of_reconcile hs with
  | mergesUnknown => exact ⟨_, rfl⟩
  | merges => exact ⟨_, rfl⟩
  | isOutdated => exact ⟨_, rfl⟩
  | requests _ place | starts _ place | calls _ place => cases hplace.symm.trans place
  | _ place => cases hplace.symm.trans place

/-- How a merge returns. -/
theorem merge_returns {persisted : Bool} {d d' : DaemonWorld Oid Task} {caller : Caller}
    {name : String} {staged : LocalProject Oid} {result : ReconcileResult Oid} {expected : ℕ}
    {branch : Branch} {advertised : Option Oid}
    (hplace : d.reconciling task =
      .complete caller name staged result expected branch advertised)
    (hcurrent : result.outcome = .current) (hs : d.merge task persisted = some d') :
    ∃ outcome, d'.reconciling = Function.update d.reconciling task
        (.answered caller name outcome) ∧
      (MergesComplete d task persisted ∧ outcome = some .current ∨
        ¬ MergesComplete d task persisted ∧ (outcome = none ∨ outcome = some .retry)) := by
  have hcomplete : MergesComplete d task persisted → ∃ project,
      findProject d.publish.catalog name = some project ∧
        DaemonWorld.stillComplete project expected branch advertised = true ∧
          persisted = true := by
    rintro ⟨_, _, _, _, _, _, _, project, hplace', hfind, hstill, hpersisted⟩
    rw [hplace] at hplace'
    cases hplace'
    exact ⟨project, hfind, hstill, hpersisted⟩
  simp only [DaemonWorld.merge, hplace] at hs
  split at hs
  · next hnone =>
    refine ⟨none, by rw [← Option.some.inj hs]; rfl, Or.inr ⟨fun h => ?_, Or.inl rfl⟩⟩
    obtain ⟨project, hfind, -⟩ := hcomplete h
    rw [hnone] at hfind
    cases hfind
  · next project hproject =>
    split at hs
    · next hstill =>
      refine ⟨if persisted then some result.outcome else none,
        by rw [← Option.some.inj hs]; rfl, ?_⟩
      cases persisted with
      | true =>
        refine Or.inl ⟨⟨caller, name, staged, result, expected, branch, advertised, project,
          hplace, hproject, hstill, rfl⟩, ?_⟩
        rw [← hcurrent]
        rfl
      | false =>
        refine Or.inr ⟨fun h => ?_, Or.inl rfl⟩
        obtain ⟨_, -, -, hpersisted⟩ := hcomplete h
        cases hpersisted
    · next hstill =>
      refine ⟨some .retry, by rw [← Option.some.inj hs]; rfl, Or.inr ⟨fun h => ?_, Or.inr rfl⟩⟩
      obtain ⟨project', hfind, hstill', -⟩ := hcomplete h
      rw [hproject] at hfind
      obtain rfl := Option.some.inj hfind
      exact hstill hstill'

end Invariant

section Runs

omit [DecidableEq Oid] [DecidableEq Task] in
theorem settled_initial (publish : PublishWorld Oid Task) (store : TransactionStore) :
    Settled (initial publish store) := fun _ h => by cases h

omit [DecidableEq Oid] [DecidableEq Task] in
theorem not_clearing (h : Settled w) {r : Reconciliation Oid}
    (hplace : w.daemon.reconciling task = r)
    (hr : ∀ caller name staged result expected branch advertised,
      r ≠ .complete caller name staged result expected branch advertised) :
    task ∉ w.clearing := by
  intro hmem
  obtain ⟨_, _, _, _, _, _, _, hcomplete, -⟩ := h task hmem
  exact hr _ _ _ _ _ _ _ (hplace.symm.trans hcomplete)

/-- The two steps with a clean-up: where the call stands afterwards. -/
theorem prepare_spec (h : Settled w) {rebase : Rebase Oid} {headRef : Branch}
    (hs : w.prepare G task rebase id headRef answers = some w') :
    ∃ daemon store r, Cleans w w' task (w.prepareClears G task rebase) answers daemon store ∧
      daemon.reconciling = Function.update w.daemon.reconciling task r ∧ task ∉ w.clearing ∧
      ((w.cleanUp (w.prepareClears G task rebase) answers).removed ≠ [] →
        ((w.cleanUp (w.prepareClears G task rebase) answers).ok = true ∧
            ∃ caller name staged result expected branch advertised,
              r = .complete caller name staged result expected branch advertised ∧
                result.outcome = .current) ∨
          ((w.cleanUp (w.prepareClears G task rebase) answers).ok = false ∧
            ∃ caller name, r = .answered caller name none)) := by
  obtain ⟨daemon, store, hdaemon, hcleans⟩ := prepare_eq_some hs
  obtain ⟨caller, name, project, branch, r, hplace, hcalls, hr⟩ := prepare_place hdaemon
  refine ⟨daemon, store, r, hcleans, hcalls,
    not_clearing h hplace (fun _ _ _ _ _ _ _ heq => by cases heq), fun hne => ?_⟩
  obtain ⟨⟨j, u⟩, hj⟩ := List.exists_mem_of_ne_nil _ hne
  obtain ⟨path, actual, htarget, -⟩ := ((cleanUp_spec hcleans.lists _).1 j u).mp hj
  obtain ⟨hcomplete, hfailed⟩ := hr (path, actual) htarget
  cases hok : (w.cleanUp (w.prepareClears G task rebase) answers).ok with
  | true =>
    obtain ⟨staged, result, expected, b, advertised, hrr, hcurrent⟩ := hcomplete hok
    exact Or.inl ⟨rfl, caller, name, staged, result, expected, b, advertised, hrr, hcurrent⟩
  | false => exact Or.inr ⟨rfl, caller, name, hfailed hok⟩

theorem install_spec (h : Settled w) {installed : Installed} {discarded persisted : Bool}
    (hs : w.install G task installed id discarded persisted answers = some w') :
    ∃ daemon store caller name outcome,
      Cleans w w' task (w.installClears task installed) answers daemon store ∧
      daemon.reconciling = Function.update w.daemon.reconciling task
        (.answered caller name outcome) ∧ task ∉ w.clearing ∧
      ((w.cleanUp (w.installClears task installed) answers).removed ≠ [] →
        outcome = if (w.cleanUp (w.installClears task installed) answers).ok && persisted then
          some .applied else none) := by
  obtain ⟨daemon, store, hdaemon, hcleans⟩ := install_eq_some hs
  obtain ⟨caller, name, p, candidate, outcome, hplace, hcalls, houtcome⟩ := install_place hdaemon
  refine ⟨daemon, store, caller, name, outcome, hcleans, hcalls,
    not_clearing h hplace (fun _ _ _ _ _ _ _ heq => by cases heq), fun hne => ?_⟩
  obtain ⟨⟨j, u⟩, hj⟩ := List.exists_mem_of_ne_nil _ hne
  obtain ⟨path, actual, htarget, -⟩ := ((cleanUp_spec hcleans.lists _).1 j u).mp hj
  have hsome : (w.installClears task installed).isSome = true := by
    rw [htarget]
    rfl
  rw [if_pos hsome] at houtcome
  exact houtcome (path, actual) htarget

/-- The other steps of a call. -/
theorem reconcile_spec (h : Settled w) {e : ReconcileEvent Oid} {daemon : DaemonWorld Oid Task}
    (hs : w.daemon.reconcile G task e = some daemon) :
    (task ∉ w.clearing ∧ settle { w with daemon := daemon } task = { w with daemon := daemon } ∧
        ∃ r, daemon.reconciling = Function.update w.daemon.reconciling task r) ∨
      task ∈ w.clearing ∧ ∃ persisted caller name outcome, e = .merge persisted ∧
        daemon.reconciling = Function.update w.daemon.reconciling task
          (.answered caller name outcome) ∧
        (MergesComplete w.daemon task persisted ∧ outcome = some .current ∨
          ¬ MergesComplete w.daemon task persisted ∧
            (outcome = none ∨ outcome = some .retry)) ∧
        settle { w with daemon := daemon } task =
          ⟨daemon, w.store, w.clearing.filter (· ≠ task), w.removals, w.ended ++ [outcome]⟩ := by
  by_cases hmem : task ∈ w.clearing
  · obtain ⟨caller, name, staged, result, expected, branch, advertised, hplace, hcurrent⟩ :=
      h task hmem
    obtain ⟨persisted, rfl⟩ := merges_of_complete hplace hs
    obtain ⟨outcome, hcalls, houtcome⟩ := merge_returns hplace hcurrent hs
    refine Or.inr ⟨hmem, persisted, caller, name, outcome, rfl, hcalls, houtcome, ?_⟩
    have hself : daemon.reconciling task = .answered caller name outcome := by
      rw [hcalls, Function.update_self]
    rcases settle_cases { w with daemon := daemon } task with ⟨-, hnot⟩ | ⟨_, _, _, hans, -, heq⟩
    · exact absurd hmem (hnot caller name outcome hself)
    · rw [heq]
      change daemon.reconciling task = _ at hans
      rw [hself] at hans
      cases hans
      rfl
  · obtain ⟨r, hcalls, -⟩ := DaemonWorld.reconcile_place hs
    refine Or.inl ⟨hmem, ?_, r, hcalls⟩
    rcases settle_cases { w with daemon := daemon } task with ⟨heq, -⟩ | ⟨_, _, _, -, hin, -⟩
    · exact heq
    · exact absurd hin hmem

theorem publishes_reconciling {d d' : DaemonWorld Oid Task} {e : PublishEvent Oid Task}
    (he : e ≠ .restart) (hs : d.publishes G e = some d') : d'.reconciling = d.reconciling := by
  unfold DaemonWorld.publishes at hs
  split at hs
  · cases hs
  · cases hs
  · cases hs
  · exact absurd rfl he
  · split at hs
    · obtain ⟨u, -, rfl⟩ := Option.map_eq_some_iff.mp hs
      change (DaemonWorld.note ..).reconciling = d.reconciling
      rw [DaemonWorld.note]
      split <;> rfl
    · cases hs
  · obtain ⟨u, -, rfl⟩ := Option.map_eq_some_iff.mp hs
    rfl

/-- The steps without a clean-up. -/
theorem daemon_step_cases {e : DaemonEvent Oid Task} (hs : w.step G (.daemon e) = some w') :
    (∃ daemon, e = .publish .restart ∧ w' = ⟨daemon, w.store, [], w.removals,
        w.ended ++ w.clearing.map fun _ => none⟩) ∨
      (∃ e' daemon, e = .publish e' ∧ e' ≠ .restart ∧
        daemon.reconciling = w.daemon.reconciling ∧ w' = { w with daemon := daemon }) ∨
      ∃ task e' daemon, e = .reconcile task e' ∧ w.daemon.reconcile G task e' = some daemon ∧
        w' = settle { w with daemon := daemon } task := by
  cases e with
  | publish e =>
    by_cases hrestart : e = .restart
    · subst hrestart
      simp only [ConflictWorld.step] at hs
      obtain ⟨daemon, -, rfl⟩ := Option.map_eq_some_iff.mp hs
      exact Or.inl ⟨daemon, rfl, rfl⟩
    · have hs' : (w.daemon.step G (.publish e)).map (fun daemon => { w with daemon := daemon }) =
          some w' := by
        cases e with
        | restart => exact absurd rfl hrestart
        | _ => exact hs
      obtain ⟨daemon, hd, rfl⟩ := Option.map_eq_some_iff.mp hs'
      exact Or.inr (Or.inl
        ⟨e, daemon, rfl, hrestart, publishes_reconciling hrestart hd, rfl⟩)
  | reconcile task e =>
    cases e with
    | prepare cleared rebase => cases hs
    | install installed cleared persisted => cases hs
    | _ =>
      obtain ⟨daemon, hd, rfl⟩ := Option.map_eq_some_iff.mp hs
      exact Or.inr (Or.inr ⟨task, _, daemon, rfl, hd, rfl⟩)

theorem Settled.step (h : Settled w) {e : ConflictEvent Oid Task} (hs : w.step G e = some w') :
    Settled w' := by
  cases e with
  | daemon e =>
    rcases daemon_step_cases hs with ⟨daemon, -, rfl⟩ | ⟨e', daemon, -, -, hcalls, rfl⟩ |
      ⟨task, e', daemon, -, hd, rfl⟩
    · exact fun t ht => by cases ht
    · intro t ht
      change ∃ _, _
      rw [hcalls]
      exact h t ht
    · have hothers : ∀ r, daemon.reconciling = Function.update w.daemon.reconciling task r →
          ∀ t ∈ w.clearing, t ≠ task → ∃ caller name staged result expected branch advertised,
            daemon.reconciling t = .complete caller name staged result expected branch advertised ∧
              result.outcome = .current := by
        intro r hcalls t ht hne
        rw [hcalls, Function.update_of_ne hne]
        exact h t ht
      rcases reconcile_spec h hd with ⟨hnot, hsettle, r, hcalls⟩ |
        ⟨-, persisted, caller, name, outcome, -, hcalls, -, hsettle⟩
      · rw [hsettle]
        exact fun t ht => hothers r hcalls t ht (ne_of_mem_of_not_mem ht hnot)
      · rw [hsettle]
        intro t ht
        obtain ⟨ht, hne⟩ := List.mem_filter.mp ht
        exact hothers _ hcalls t ht (of_decide_eq_true hne)
  | prepare task rebase id headRef answers =>
    obtain ⟨daemon, store, r, hcleans, hcalls, hnot, hr⟩ := prepare_spec h hs
    refine hcleans.settled h hcalls hnot fun hne => ?_
    rcases hr hne with ⟨-, hcomplete⟩ | ⟨-, caller, name, hfailed⟩
    · exact Or.inl hcomplete
    · exact Or.inr ⟨caller, name, none, hfailed⟩
  | install task installed id discarded persisted answers =>
    obtain ⟨daemon, store, caller, name, outcome, hcleans, hcalls, hnot, -⟩ := install_spec h hs
    exact hcleans.settled h hcalls hnot fun _ => Or.inr ⟨caller, name, outcome, rfl⟩

section CleanUp

variable {target : Option (String × Branch)} {daemon : DaemonWorld Oid Task}
  {store : TransactionStore} {r : Reconciliation Oid}

omit [DecidableEq Oid] in
/-- A clean-up is fine when what it removes is of its branch, and when its call does not
return badly. -/
theorem RemovesOwn.cleans_iff (hw : w.RemovesOwn)
    (hc : Cleans w w' task target answers daemon store)
    (hcalls : daemon.reconciling = Function.update w.daemon.reconciling task r)
    (hnot : task ∉ w.clearing) :
    w'.RemovesOwn ↔
      (∀ x ∈ removalsOf target (w.cleanUp target answers), x.record.headRef = x.branch) ∧
        ((w.cleanUp target answers).removed ≠ [] → ∀ caller name outcome,
          r = .answered caller name outcome →
            outcome = some .applied ∨ outcome = some .current) := by
  have hended := hc.ended hcalls hnot
  constructor
  · rintro ⟨hremovals, hgood⟩
    refine ⟨fun x hx => hremovals x ?_, fun hne caller name outcome hr => hgood outcome ?_⟩
    · rw [hc.removals]
      exact List.mem_append_right _ hx
    · rcases hended with ⟨-, hnever⟩ | ⟨_, _, outcome', hr', -, heq⟩
      · exact absurd hr (hnever hne caller name outcome)
      · rw [hr] at hr'
        cases hr'
        rw [heq]
        exact List.mem_append_right _ (List.mem_singleton_self _)
  · rintro ⟨hremovals, hgood⟩
    refine ⟨fun x hx => ?_, fun outcome houtcome => ?_⟩
    · rw [hc.removals] at hx
      rcases List.mem_append.mp hx with hx | hx
      · exact hw.removals x hx
      · exact hremovals x hx
    · rcases hended with ⟨heq, -⟩ | ⟨caller, name, outcome', hr, hne, heq⟩
      · rw [heq] at houtcome
        exact hw.ended outcome houtcome
      · rw [heq] at houtcome
        rcases List.mem_append.mp houtcome with houtcome | houtcome
        · exact hw.ended outcome houtcome
        · rw [List.mem_singleton.mp houtcome]
          exact hgood hne caller name outcome' hr

end CleanUp

/-- A step is fine exactly under its condition. -/
theorem RemovesOwn.step_iff (hw : w.RemovesOwn) (h : Settled w) {e : ConflictEvent Oid Task}
    (hs : w.step G e = some w') : w'.RemovesOwn ↔ w.ClearsOwn G e := by
  have hmade : (w.step G e).isSome = true := by
    rw [hs]
    rfl
  unfold ClearsOwn
  rw [forall_prop_of_true hmade]
  cases e with
  | daemon e =>
    rcases daemon_step_cases hs with ⟨daemon, rfl, rfl⟩ | ⟨e', daemon, rfl, hne, -, rfl⟩ |
      ⟨task, e', daemon, rfl, hd, rfl⟩
    -- A restart ends the calls whose records are gone already.
    · change _ ↔ w.clearing = []
      constructor
      · intro h'
        by_contra hne
        obtain ⟨t, ht⟩ := List.exists_mem_of_ne_nil _ hne
        have hnone := h'.ended none (List.mem_append_right _ (List.mem_map.mpr ⟨t, ht, rfl⟩))
        rcases hnone with hnone | hnone
        · cases hnone
        · cases hnone
      · intro hnil
        refine ⟨hw.removals, fun outcome houtcome => hw.ended outcome ?_⟩
        change outcome ∈ w.ended ++ w.clearing.map _ at houtcome
        rw [hnil, List.map_nil, List.append_nil] at houtcome
        exact houtcome
    -- The other steps of the daemon answer no call that has cleaned up.
    · cases e' with
      | restart => exact absurd rfl hne
      | _ => exact iff_of_true ⟨hw.removals, hw.ended⟩ trivial
    · rcases reconcile_spec h hd with ⟨hnot, hsettle, -⟩ |
        ⟨hmem, persisted, caller, name, outcome, rfl, -, houtcome, hsettle⟩
      · rw [hsettle]
        cases e' with
        | merge persisted => exact iff_of_true ⟨hw.removals, hw.ended⟩ fun ht => absurd ht hnot
        | _ => exact iff_of_true ⟨hw.removals, hw.ended⟩ trivial
      · rw [hsettle]
        change _ ↔ (task ∈ w.clearing → MergesComplete w.daemon task persisted)
        rw [forall_prop_of_true hmem]
        rcases houtcome with ⟨hcomplete, rfl⟩ | ⟨hnot, hbad⟩
        · refine iff_of_true ⟨hw.removals, fun o ho => ?_⟩ hcomplete
          rcases List.mem_append.mp ho with ho | ho
          · exact hw.ended o ho
          · exact Or.inr (List.mem_singleton.mp ho)
        · refine iff_of_false (fun h' => ?_) hnot
          have hgood := h'.ended outcome (List.mem_append_right _ (List.mem_singleton_self _))
          rcases hbad with rfl | rfl
          · rcases hgood with hgood | hgood
            · cases hgood
            · cases hgood
          · rcases hgood with hgood | hgood
            · cases hgood
            · cases hgood
  | prepare task rebase id headRef answers =>
    obtain ⟨daemon, store, r, hcleans, hcalls, hnot, hr⟩ := prepare_spec h hs
    rw [hw.cleans_iff hcleans hcalls hnot]
    change _ ↔ ∀ target ∈ w.prepareClears G task rebase,
      CleansOwn w.store target.1 target.2 answers True
    rw [cleansOwn_iff hcleans.lists]
    refine and_congr_right fun _ => forall_congr' fun hne => ?_
    rw [and_true]
    constructor
    · intro hgood
      rcases hr hne with ⟨hok, -⟩ | ⟨-, caller, name, hanswered⟩
      · exact hok
      · rcases hgood caller name none hanswered with hbad | hbad
        · cases hbad
        · cases hbad
    · intro hok caller name outcome hanswered
      rcases hr hne with ⟨-, _, _, _, _, _, _, _, hcomplete, -⟩ | ⟨hfailed, -⟩
      · rw [hanswered] at hcomplete
        cases hcomplete
      · rw [hok] at hfailed
        cases hfailed
  | install task installed id discarded persisted answers =>
    obtain ⟨daemon, store, caller, name, outcome, hcleans, hcalls, hnot, houtcome⟩ :=
      install_spec h hs
    rw [hw.cleans_iff hcleans hcalls hnot]
    change _ ↔ ∀ target ∈ w.installClears task installed,
      CleansOwn w.store target.1 target.2 answers (persisted = true)
    rw [cleansOwn_iff hcleans.lists]
    refine and_congr_right fun _ => forall_congr' fun hne => ?_
    rw [← Bool.and_eq_true]
    have hout := houtcome hne
    constructor
    · intro hgood
      by_contra hbad
      rw [if_neg hbad] at hout
      rcases hgood caller name outcome rfl with h' | h'
      · rw [hout] at h'
        cases h'
      · rw [hout] at h'
        cases h'
    · intro hok caller' name' outcome' hanswered
      cases hanswered
      rw [if_pos hok] at hout
      exact Or.inl hout

/-- A conflict that is gone has been removed by a clean-up; and each removal is made for the
branch of the conflict, by a reconciliation that is applied or current in the end, exactly
when each clean-up only finds conflicts of its own branch, and nothing fails after it has
begun to remove one. -/
theorem conflicts_removed_by_own_branch_iff (publish : PublishWorld Oid Task)
    (store : TransactionStore) (es : List (ConflictEvent Oid Task)) :
    (∀ before after u v id t, es = before ++ after →
        Runs.run (step G) (initial publish store) before = some u →
        u.store.files.get id = some (some t) → Runs.run (step G) u after = some v →
        Keeps u.store v.store id t ∨ ∃ r ∈ v.removals, r.id = id ∧ r.record = t) ∧
      (Runs.Steps (step G) (ClearsOwn G) (initial publish store) es ↔
        ∀ done rest u, es = done ++ rest →
          Runs.run (step G) (initial publish store) done = some u → u.RemovesOwn) := by
  constructor
  · intro before after u v id t _ _ hfile hv
    exact kept_or_removed hfile hv
  · have hstep : ∀ (w : ConflictWorld Oid Task) e w', (w.Settled ∧ w.RemovesOwn) →
        w.ClearsOwn G e → w.step G e = some w' → w'.Settled ∧ w'.RemovesOwn :=
      fun w e w' h hok hs => ⟨h.1.step hs, (h.2.step_iff h.1 hs).mpr hok⟩
    apply Runs.steps_iff_forall_reached hstep
    · exact fun w h => h.2
    · intro w e h hnext hmade
      obtain ⟨w', hs⟩ := Option.isSome_iff_exists.mp hmade
      exact (h.2.step_iff h.1 hs).mp (hnext w' hs) hmade
    · exact ⟨settled_initial publish store, fun r hr => (by cases hr), fun o ho => (by cases ho)⟩

end Runs

end Steps

section OneProject

/-- The checked out `main` and the hosted one have each a commit that the other lacks. -/
def divergedMain : PublishWorld ℕ (Fin 2) :=
  { currentMain with
    catalog := ⟨0, [{ currentProject with
      advertisedHeads := fun b => if b = "main" then some 3 else none }]⟩
    checkouts := fun _ =>
      ⟨.attached "main", fun b => if b = "main" then some 4 else none, fun _ => none⟩
    hosted := fun url b => if url = "host/prj" ∧ b = "main" then some 3 else none
    hostedLog := fun url b => if url = "host/prj" ∧ b = "main" then [3] else [] }

def emptyStore : TransactionStore := ⟨FiniteMap.empty, fun _ _ _ => false⟩

/-- Everything succeeds. -/
def clearsAll (listing : List String) : ClearAnswers :=
  ⟨some listing, fun _ => true, fun _ => ⟨fun _ => true, .removed⟩⟩

/-- A `sync` request with its preparation and the merge of a complete result. -/
def syncs (task : Fin 2) (prepare : ConflictEvent ℕ (Fin 2)) : List (ConflictEvent ℕ (Fin 2)) :=
  [.daemon (.reconcile (some task) (.sync "prj")),
    .daemon (.reconcile (some task) (.refreshed true)),
    .daemon (.reconcile (some task) .stage), .daemon (.reconcile (some task) .locate), prepare,
    .daemon (.reconcile (some task) (.merge true)), .daemon (.reconcile (some task) (.answer ""))]

/-- The rebase of `main` ends in a conflict; then `topic` is checked out, which is not
hosted, and found current. -/
def conflictThenSwitch (task : Fin 2) : List (ConflictEvent ℕ (Fin 2)) :=
  syncs task (.prepare (some task) (.conflict "") "t" "main" (clearsAll [])) ++
    .daemon (.publish (.user (.switch "/work" "topic" none))) ::
    syncs task (.prepare (some task) .failed "u" "topic" (clearsAll ["t"]))

def removesOther (w : ConflictWorld ℕ (Fin 2)) : Bool :=
  (w.removals.any fun r => r.record.headRef == "main" && r.branch == "topic") &&
    decide (w.store.files.get "t" = none)

/-- The conflict of `main` is removed because `topic` is current. -/
theorem conflict_removed_by_other_branch : ∃ w,
    Runs.run (step pairGraph) (initial divergedMain emptyStore) (conflictThenSwitch 0) = some w ∧
    w.store.files.get "t" = none ∧ ¬ w.RemovesOwn := by
  have htest : (Runs.run (step pairGraph) (initial divergedMain emptyStore)
      (conflictThenSwitch 0)).map removesOther = some true := by decide +kernel
  obtain ⟨w, hw, hother⟩ := Option.map_eq_some_iff.mp htest
  rw [removesOther, Bool.and_eq_true] at hother
  refine ⟨w, hw, of_decide_eq_true hother.2, fun hown => ?_⟩
  obtain ⟨r, hr, hbranches⟩ := List.any_eq_true.mp hother.1
  rw [Bool.and_eq_true, beq_iff_eq, beq_iff_eq] at hbranches
  have hsame := hown.removals r hr
  rw [hbranches.1, hbranches.2] at hsame
  exact absurd hsame (by decide)

end OneProject

end ConflictWorld

end Resync
