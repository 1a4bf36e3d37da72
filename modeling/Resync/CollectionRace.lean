import Resync.GcTransactions
import Resync.Lib.Runs

/-! `resync gc` while the daemon prepares and installs a transaction. The collector
reads the catalog, then the records, then the refs at every managed or recorded
checkout path, and deletes refs and records, all in another process and without a
lock; the daemon writes refs, then the record, then the catalog. The collector's
deletions are followed at this one transaction, whose ref store other checkouts
may share. -/
namespace Resync

/-- One effect of `remove_transaction_artifacts`. -/
inductive ArtifactDrop where
  | ref (slot : RecoverySlot)
  | record
deriving DecidableEq

/-- Where the transaction stands, by what has been written for it. -/
inductive CollectedPlace where
  | unborn
  /-- `write_recovery_refs` has written the refs up to this one. -/
  | head | index | working
  /-- The synthetic chain is rebased. -/
  | opened
  /-- There is a candidate without its ref. -/
  | rebased
  /-- Prepared, and awaiting its installation. -/
  | ready
  | installing
  /-- It has ended `CONFLICTED`, and the daemon is to say so of the project. -/
  | conflict (candidate : Bool)
  | ended (candidate : Bool)
  | dropping (drops : List ArtifactDrop)
  | over
deriving DecidableEq

/-- What the collector reads of the catalog: the paths of the projects, and of those
that are `CONFLICTED`. -/
structure CatalogPaths (P : Type) where
  managed : List P
  conflicts : List P

inductive CollectorPlace (P ρ : Type) where
  | idle
  | catalog (call : Gc.Call P)
  /-- The directory is open, with or without the transaction's record. -/
  | directory (call : Gc.Call P) (there : Bool)
  /-- The records are read. The refs at `paths` are still to be listed; `batches` has
  the transaction's refs that were found at each of the other paths. -/
  | collecting (entries : List (Gc.Entry P ρ)) (invalid : ℕ) (paths : List P)
      (batches : List (P × (RecoverySlot → Bool)))
  | done

/-- What the collector has found of the transaction's refs, and is yet to delete. -/
def CollectorPlace.batches {P ρ : Type} :
    CollectorPlace P ρ → List (P × (RecoverySlot → Bool))
  | .collecting _ _ _ batches => batches
  | _ => []

/-- `saved` is the catalog on disk, `conflicted` is whether the daemon's own copy has
the project as `CONFLICTED`, and `record` is what the file of the record holds. -/
structure CollectionWorld (γ P ρ : Type) where
  saved : CatalogPaths P
  conflicted : Bool
  refs : RecoverySlot → Bool
  record : Option γ
  daemon : CollectedPlace
  collector : CollectorPlace P ρ

/-- What stays the same of the transaction: its record as far as the phase does not
change it, the ref store of its checkout, and the retention that the daemon read. -/
structure CollectedTransaction (ρ : Type) {P σ : Type} (storeOf : P → Option σ) where
  base : Gc.Record P ρ
  rest : Phase → Bool → ρ
  retention : TransactionRetention
  store : σ
  located : storeOf base.projectPath = some store
  /-- Its refs are listed, and no batch is refused for one of them. -/
  recovery : Gc.validRecoveryRef base.recoveryRef = true

inductive CollectionEvent (γ : Type) where
  /-- The transaction takes its next step. -/
  | advance
  /-- The rebase fails, or untracked files are in the way of the installation. -/
  | conflict
  /-- The installation is given up, or the merge of a conflict. -/
  | retry
  /-- The preparation fails, a check of the installation, or the clean-up. -/
  | abort
  | persist
  | readCatalog (retention : TransactionRetention)
  | openDirectory
  /-- The scan, with the other files in the order of the directory. -/
  | scan (before after : List (Gc.File γ))
  /-- A scan that does not list a record written after the directory was opened. -/
  | miss (others : List (Gc.File γ))
  /-- The refs at the next path are listed. -/
  | list
  /-- `for-each-ref` fails at the next path. -/
  | skip
  /-- The batch of the next path is deleted. -/
  | prune
  | sweep
  /-- The end of a dry run, or an error. -/
  | stop

/-- The name of a recovery ref below `recovery_ref`. -/
def RecoverySlot.suffix : RecoverySlot → String
  | .head => "head"
  | .index => "index"
  | .working => "working"
  | .candidate => "candidate"

/-- The field `phase` of a record. -/
def Phase.text : Phase → String
  | .preparing => "PREPARING"
  | .installing => "INSTALLING"
  | .completed => "COMPLETED"
  | .conflicted => "CONFLICTED"
  | .retry => "RETRY"
  | .rolledBack => "ROLLED_BACK"

namespace CollectedTransaction

variable {ρ P σ : Type} {storeOf : P → Option σ} (t : CollectedTransaction ρ storeOf)

def recordAt (phase : Phase) (candidate : Bool) : Gc.Record P ρ :=
  { t.base with phase := phase.text, candidate := candidate, rest := t.rest phase candidate }

def reference (slot : RecoverySlot) : String := t.base.recoveryRef ++ "/" ++ slot.suffix

/-- `remove_transaction_artifacts`. -/
def drops : List ArtifactDrop :=
  [.ref .head, .ref .index, .ref .working, .ref .candidate, .record]

end CollectedTransaction

/-- The refs that have been written for the transaction. -/
def CollectedPlace.written : CollectedPlace → RecoverySlot → Bool
  | .head, slot => slot == .head
  | .index, slot => slot == .head || slot == .index
  | .working, slot | .opened, slot | .rebased, slot => slot != .candidate
  | .conflict candidate, slot | .ended candidate, slot => slot != .candidate || candidate
  | .ready, _ | .installing, _ => true
  | _, _ => false

/-- Whether the record has been written that the transaction is to have until it
installs or ends. -/
def CollectedPlace.recorded (retention : TransactionRetention) : CollectedPlace → Bool
  | .rebased | .ready => retention.debugHistory
  | .installing | .conflict _ | .ended _ => true
  | _ => false

namespace CollectionWorld

variable {γ P ρ σ : Type}

def start (saved : CatalogPaths P) (conflicted : Bool) : CollectionWorld γ P ρ :=
  ⟨saved, conflicted, fun _ => false, none, .unborn, .idle⟩

def writeRef (w : CollectionWorld γ P ρ) (slot : RecoverySlot) (place : CollectedPlace) :
    CollectionWorld γ P ρ :=
  { w with refs := Function.update w.refs slot true, daemon := place }

def drop (w : CollectionWorld γ P ρ) (rest : List ArtifactDrop) :
    ArtifactDrop → CollectionWorld γ P ρ
  | .ref slot => { w with refs := Function.update w.refs slot false, daemon := .dropping rest }
  | .record => { w with record := none, daemon := .dropping rest }

section Steps

variable [LinearOrder P] [DecidableEq σ] (format : Gc.RecordFormat γ P ρ) {storeOf : P → Option σ}
  (t : CollectedTransaction ρ storeOf)

def writeRecord (w : CollectionWorld γ P ρ) (phase : Phase) (candidate : Bool)
    (place : CollectedPlace) : CollectionWorld γ P ρ :=
  { w with record := some (format.write (t.recordAt phase candidate)), daemon := place }

/-- `persist_debug_transaction` under debug retention. -/
def writeDebug (w : CollectionWorld γ P ρ) (phase : Phase) (candidate : Bool)
    (place : CollectedPlace) : CollectionWorld γ P ρ :=
  if t.retention.debugHistory then w.writeRecord format t phase candidate place
  else { w with daemon := place }

/-- A finished transaction stays as a record, or is removed. -/
def finish (w : CollectionWorld γ P ρ) (phase : Phase) : CollectionWorld γ P ρ :=
  if t.retention.debugHistory then w.writeRecord format t phase true .over
  else { w with daemon := .dropping CollectedTransaction.drops }

def advance (w : CollectionWorld γ P ρ) : Option (CollectionWorld γ P ρ) :=
  match w.daemon with
  | .unborn => some (w.writeRef .head .head)
  | .head => some (w.writeRef .index .index)
  | .index => some (w.writeRef .working .working)
  | .working => some (w.writeDebug format t .preparing false .opened)
  | .opened => some (w.writeDebug format t .preparing true .rebased)
  | .rebased => some (w.writeRef .candidate .ready)
  | .ready => some (w.writeRecord format t .installing true .installing)
  | .installing => some (w.finish format t .completed)
  | .conflict candidate => some { w with conflicted := true, daemon := .ended candidate }
  | .dropping (d :: rest) => some (w.drop rest d)
  | _ => none

/-- The records are read, and the recovery refs of those that are retained checked. -/
def scanned (w : CollectionWorld γ P ρ) (call : Gc.Call P) (files : List (Gc.File γ)) :
    CollectionWorld γ P ρ :=
  let entries := Gc.scan format call files
  match Gc.refusedRecord entries with
  | some _ => { w with collector := .done }
  | none => { w with
      collector := .collecting entries (Gc.invalid format files).length
        (Gc.projectPaths call entries) [] }

/-- The transaction's refs that `list_recovery_refs` finds at a path. -/
def found (w : CollectionWorld γ P ρ) (path : P) (slot : RecoverySlot) : Bool :=
  decide (storeOf path = some t.store) && w.refs slot && Gc.listedRecoveryRef (t.reference slot)

/-- The refs found at a path that are deleted: those that no record at this path
requires, and none after a record that could not be parsed. -/
def prunable (entries : List (Gc.Entry P ρ)) (invalid : ℕ) (batch : P × (RecoverySlot → Bool))
    (slot : RecoverySlot) : Bool :=
  invalid == 0 && batch.2 slot && decide (t.reference slot ∉ Gc.requiredRefs entries batch.1)

/-- What the last loop of the collector leaves of the transaction's record. -/
def swept (entries : List (Gc.Entry P ρ)) (record : Option γ) : Option γ :=
  record.bind fun contents =>
    (Gc.collectFile format entries ⟨t.base.path, contents⟩).map (·.contents)

def step (w : CollectionWorld γ P ρ) : CollectionEvent γ → Option (CollectionWorld γ P ρ)
  | .advance => w.advance format t
  | .conflict =>
    match w.daemon with
    | .opened => some (w.writeRecord format t .conflicted false (.conflict false))
    | .ready => some (w.writeRecord format t .conflicted true (.conflict true))
    | _ => none
  | .retry =>
    match w.daemon with
    | .ready => some (w.finish format t .retry)
    | .conflict candidate => some { w with daemon := .ended candidate }
    | _ => none
  | .abort =>
    match w.daemon with
    | .unborn | .head | .index | .working | .ready | .dropping _ =>
      some { w with daemon := .over }
    | .opened | .rebased =>
      if t.retention.debugHistory then some { w with daemon := .over }
      else some { w with daemon := .dropping CollectedTransaction.drops }
    | _ => none
  | .persist =>
    let others := w.saved.conflicts.filter fun path => path != t.base.projectPath
    some { w with saved := { w.saved with
      conflicts := if w.conflicted then t.base.projectPath :: others else others } }
  | .readCatalog retention =>
    match w.collector with
    | .idle => some { w with
        collector := .catalog ⟨w.saved.managed, w.saved.conflicts, retention⟩ }
    | _ => none
  | .openDirectory =>
    match w.collector with
    | .catalog call => some { w with collector := .directory call w.record.isSome }
    | _ => none
  | .scan before after =>
    match w.collector with
    | .directory call _ =>
      if ∀ file ∈ before ++ after, file.path ≠ t.base.path then
        some (w.scanned format call
          (before ++ (w.record.toList.map fun contents => ⟨t.base.path, contents⟩) ++ after))
      else none
    | _ => none
  | .miss others =>
    match w.collector with
    | .directory call false =>
      if ∀ file ∈ others, file.path ≠ t.base.path then some (w.scanned format call others)
      else none
    | _ => none
  | .list =>
    match w.collector with
    | .collecting entries invalid (path :: paths) batches => some { w with
        collector := .collecting entries invalid paths (batches ++ [(path, w.found t path)]) }
    | _ => none
  | .skip =>
    match w.collector with
    | .collecting entries invalid (_ :: paths) batches => some { w with
        collector := .collecting entries invalid paths batches }
    | _ => none
  | .prune =>
    match w.collector with
    | .collecting entries invalid [] (batch :: batches) => some { w with
        refs := fun slot => w.refs slot && !prunable t entries invalid batch slot
        collector := .collecting entries invalid [] batches }
    | _ => none
  | .sweep =>
    match w.collector with
    | .collecting entries _ [] [] => some { w with
        record := swept format t entries w.record
        collector := .done }
    | _ => none
  | .stop => some { w with collector := .done }

/-- The transaction is under way: it is prepared or installed, or it has ended
`CONFLICTED` and the project is, or is to be, `CONFLICTED`. -/
def UnderWay (w : CollectionWorld γ P ρ) : Prop :=
  match w.daemon with
  | .head | .index | .working | .opened | .rebased | .ready | .installing | .conflict _ => True
  | .ended _ => w.conflicted = true
  | _ => False

/-- The transactions that a collection must leave alone. -/
def Protected (w : CollectionWorld γ P ρ) : Prop :=
  match w.daemon with
  | .ready | .installing => True
  | .conflict _ | .ended _ => w.conflicted = true
  | _ => False

/-- The refs and the record are there, as far as they have been written. -/
structure Kept (w : CollectionWorld γ P ρ) : Prop where
  refs : ∀ slot, w.daemon.written slot = true → w.refs slot = true
  record : w.daemon.recorded t.retention = true → w.record ≠ none

/-- The condition on a collection. Where it deletes the refs of a path while the
transaction is under way, the records at this path require all that it found there of
the transaction's, or an unparsable record keeps it from deleting any; and where it
removes records then, it retains the transaction's if it has seen it. -/
def Spares (w : CollectionWorld γ P ρ) : CollectionEvent γ → Prop
  | .prune =>
    match w.collector with
    | .collecting entries invalid [] ((path, found) :: _) =>
      w.UnderWay → invalid = 0 → ∀ slot, found slot = true →
        t.reference slot ∈ Gc.requiredRefs entries path
    | _ => True
  | .sweep =>
    match w.collector with
    | .collecting entries _ [] [] =>
      w.UnderWay → w.daemon.recorded t.retention = true → ∀ entry,
        entries.find? (fun e => e.transaction.path == t.base.path) = some entry →
        entry.retain = true
    | _ => True
  | _ => True

/-- The transaction has come to its end without anything to keep. -/
def Gone (w : CollectionWorld γ P ρ) : Prop := ¬ w.UnderWay ∧ w.daemon ≠ .unborn

/-- A step of a transaction that is not gone, by what it writes. -/
structure Proceeds (w w' : CollectionWorld γ P ρ) : Prop where
  collector : w'.collector = w.collector
  begun : ¬ w.Gone
  refs : ∀ slot, w'.refs slot = true ↔
    w.refs slot = true ∨ w'.daemon.written slot = true ∧ w.daemon.written slot = false
  written : ∀ slot, w.daemon.written slot = true → w'.daemon.written slot = true
  record : w'.daemon.recorded t.retention = true →
    w'.record ≠ none ∨ w.daemon.recorded t.retention = true ∧ w'.record = w.record
  /-- A record that is lost ahead of the end of the preparation stays lost. -/
  lost : ¬ w.Protected → w.daemon.recorded t.retention = true →
    w'.daemon.recorded t.retention = true ∧ w'.record = w.record

end Steps

structure SameTransaction (w w' : CollectionWorld γ P ρ) : Prop where
  daemon : w'.daemon = w.daemon
  conflicted : w'.conflicted = w.conflicted
  refs : w'.refs = w.refs
  record : w'.record = w.record

variable {format : Gc.RecordFormat γ P ρ} {storeOf : P → Option σ}
  {t : CollectedTransaction ρ storeOf} {w w' : CollectionWorld γ P ρ}

theorem UnderWay.not_gone (h : w.UnderWay) : ¬ w.Gone := fun hgone => hgone.1 h

theorem Protected.underWay (h : w.Protected) : w.UnderWay := by
  unfold Protected at h
  unfold UnderWay
  split at h
  all_goals simp_all

theorem Proceeds.writeRef {slot : RecoverySlot} {place : CollectedPlace} (hbegun : ¬ w.Gone)
    (hwritten : ∀ s, place.written s = true ↔ s = slot ∨ w.daemon.written s = true)
    (hnew : w.daemon.written slot = false)
    (hrecorded : place.recorded t.retention = w.daemon.recorded t.retention) :
    Proceeds t w (w.writeRef slot place) := by
  refine ⟨rfl, hbegun, fun s => ?_, fun s hs => (hwritten s).mpr (Or.inr hs), fun hr => ?_,
    fun _ hr => ?_⟩
  · show Function.update w.refs slot true s = true ↔ _
    rw [Function.update_apply]
    by_cases hslot : s = slot
    · rw [if_pos hslot]
      refine iff_of_true rfl (Or.inr ⟨(hwritten s).mpr (Or.inl hslot), ?_⟩)
      rw [hslot]
      exact hnew
    · rw [if_neg hslot]
      refine ⟨Or.inl, fun h => h.resolve_right fun ⟨hplace, hold⟩ => ?_⟩
      have hin := ((hwritten s).mp hplace).resolve_left hslot
      rw [hold] at hin
      cases hin
  · exact Or.inr ⟨hrecorded ▸ hr, rfl⟩
  · exact ⟨hrecorded.trans hr, rfl⟩

/-- A record is written where the transaction has none to lose. -/
theorem Proceeds.writeRecord {phase : Phase} {candidate : Bool} {place : CollectedPlace}
    (hbegun : ¬ w.Gone) (hwritten : ∀ s, place.written s = w.daemon.written s)
    (hnone : w.Protected ∨ w.daemon.recorded t.retention = false) :
    Proceeds t w (w.writeRecord format t phase candidate place) := by
  refine ⟨rfl, hbegun, fun s => ⟨Or.inl, fun h => h.resolve_right fun ⟨hplace, hold⟩ => ?_⟩,
    fun s hs => (hwritten s).trans hs, fun _ => Or.inl (fun h => by cases h), fun hnot hr => ?_⟩
  · have hsame := (hwritten s).symm.trans hplace
    rw [hold] at hsame
    cases hsame
  · rw [hnone.resolve_left hnot] at hr
    cases hr

theorem Proceeds.writeDebug {phase : Phase} {candidate : Bool} {place : CollectedPlace}
    (hbegun : ¬ w.Gone) (hwritten : ∀ s, place.written s = w.daemon.written s)
    (hnone : w.daemon.recorded t.retention = false)
    (hrecorded : place.recorded t.retention = true → t.retention.debugHistory = true) :
    Proceeds t w (w.writeDebug format t phase candidate place) := by
  unfold CollectionWorld.writeDebug
  split
  · exact Proceeds.writeRecord hbegun hwritten (Or.inr hnone)
  · next hdebug =>
    refine ⟨rfl, hbegun, fun s => ⟨Or.inl, fun h => h.resolve_right fun ⟨hplace, hold⟩ => ?_⟩,
      fun s hs => (hwritten s).trans hs, fun hr => absurd (hrecorded hr) hdebug, fun _ hr => ?_⟩
    · have hsame := (hwritten s).symm.trans hplace
      rw [hold] at hsame
      cases hsame
    · rw [hnone] at hr
      cases hr

/-- The end of a conflict writes nothing more for the transaction. -/
theorem Proceeds.ends {candidate : Bool} (hbegun : ¬ w.Gone)
    (hd : w.daemon = .conflict candidate)
    (hw : w' = { w with conflicted := w'.conflicted, daemon := .ended candidate }) :
    Proceeds t w w' := by
  rw [hw]
  refine ⟨rfl, hbegun, fun s => ⟨Or.inl, fun h => h.resolve_right fun ⟨hnew, hold⟩ => ?_⟩,
    fun s hs => ?_, fun _ => Or.inr ⟨?_, rfl⟩, fun _ _ => ⟨rfl, rfl⟩⟩
  · rw [hd] at hold
    exact absurd (hnew.symm.trans hold) (fun h => by cases h)
  · rw [hd] at hs
    exact hs
  · rw [hd]
    rfl

theorem gone_finish (phase : Phase) : (w.finish format t phase).Gone := by
  unfold finish
  split
  · exact ⟨id, fun h => by cases h⟩
  · exact ⟨id, fun h => by cases h⟩

theorem not_gone_of_daemon {place : CollectedPlace} (hd : w.daemon = place)
    (hplace : place = .unborn ∨ UnderWay { w with daemon := place }) : ¬ w.Gone := by
  rintro ⟨hunder, hunborn⟩
  rcases hplace with rfl | hplace
  · exact hunborn hd
  · rw [← hd] at hplace
    exact hunder hplace

theorem advance_cases (hs : w.advance format t = some w') : w'.Gone ∨ Proceeds t w w' := by
  have href : ∀ {old place : CollectedPlace} {slot : RecoverySlot}, w.daemon = old →
      (old = .unborn ∨ UnderWay { w with daemon := old }) →
      (∀ s, place.written s = true ↔ s = slot ∨ old.written s = true) →
      old.written slot = false → place.recorded t.retention = old.recorded t.retention →
      (w.writeRef slot place).Gone ∨ Proceeds t w (w.writeRef slot place) := by
    intro old place slot hd hplace hwritten hnew hrecorded
    subst hd
    exact Or.inr (Proceeds.writeRef (not_gone_of_daemon rfl hplace) hwritten hnew hrecorded)
  unfold CollectionWorld.advance at hs
  split at hs
  -- the refs of `write_recovery_refs`, one after the other
  · next hd =>
    obtain rfl := Option.some.inj hs
    refine href hd (Or.inl rfl) (fun s => ?_) rfl rfl
    simp [CollectedPlace.written]
  · next hd =>
    obtain rfl := Option.some.inj hs
    refine href hd (Or.inr trivial) (fun s => ?_) rfl rfl
    cases s <;> simp [CollectedPlace.written]
  · next hd =>
    obtain rfl := Option.some.inj hs
    refine href hd (Or.inr trivial) (fun s => ?_) rfl rfl
    cases s <;> simp [CollectedPlace.written]
  -- the record without a candidate, and then with one, which only debug history has
  · next hd =>
    obtain rfl := Option.some.inj hs
    refine Or.inr (Proceeds.writeDebug (not_gone_of_daemon hd (Or.inr trivial)) (fun s => ?_) ?_ ?_)
    · rw [hd]
      rfl
    · rw [hd]
      rfl
    · exact fun hr => by cases hr
  · next hd =>
    obtain rfl := Option.some.inj hs
    refine Or.inr (Proceeds.writeDebug (not_gone_of_daemon hd (Or.inr trivial)) (fun s => ?_) ?_ id)
    · rw [hd]
      rfl
    · rw [hd]
      rfl
  -- the ref of the candidate
  · next hd =>
    obtain rfl := Option.some.inj hs
    refine href hd (Or.inr trivial) (fun s => ?_) rfl rfl
    cases s <;> simp [CollectedPlace.written]
  -- the record `INSTALLING`, over one that the transaction may have lost
  · next hd =>
    obtain rfl := Option.some.inj hs
    refine Or.inr (Proceeds.writeRecord (not_gone_of_daemon hd (Or.inr trivial)) (fun s => ?_) ?_)
    · rw [hd]
      rfl
    · left
      rw [Protected, hd]
      trivial
  · obtain rfl := Option.some.inj hs
    exact Or.inl (gone_finish _)
  · next candidate hd =>
    obtain rfl := Option.some.inj hs
    refine Or.inr (Proceeds.ends (not_gone_of_daemon hd (Or.inr trivial)) hd rfl)
  -- `remove_transaction_artifacts` goes on
  · next d rest hd =>
    obtain rfl := Option.some.inj hs
    left
    cases d with
    | ref slot => exact ⟨id, fun h => by cases h⟩
    | record => exact ⟨id, fun h => by cases h⟩
  · cases hs

theorem SameTransaction.gone_iff (h : SameTransaction w w') : w'.Gone ↔ w.Gone := by
  unfold Gone UnderWay
  rw [h.daemon, h.conflicted]

theorem SameTransaction.kept_iff (h : SameTransaction w w') : w'.Kept t ↔ w.Kept t := by
  constructor
  · rintro ⟨hrefs, hrecord⟩
    rw [h.daemon, h.refs] at hrefs
    rw [h.daemon, h.record] at hrecord
    exact ⟨hrefs, hrecord⟩
  · rintro ⟨hrefs, hrecord⟩
    rw [← h.daemon, ← h.refs] at hrefs
    rw [← h.daemon, ← h.record] at hrecord
    exact ⟨hrefs, hrecord⟩

theorem Kept.of_unborn (hd : w.daemon = .unborn) : w.Kept t := by
  refine ⟨fun slot hs => ?_, fun hr => ?_⟩
  · rw [hd] at hs
    cases hs
  · rw [hd] at hr
    cases hr

theorem Kept.proceeds (h : w.Kept t) (hp : Proceeds t w w') : w'.Kept t := by
  refine ⟨fun slot hs => ?_, fun hr => ?_⟩
  · apply (hp.refs slot).mpr
    cases hold : w.daemon.written slot with
    | true => exact Or.inl (h.refs slot hold)
    | false => exact Or.inr ⟨hs, rfl⟩
  · rcases hp.record hr with hsome | ⟨hr, hsame⟩
    · exact hsome
    · rw [hsame]
      exact h.record hr

variable [LinearOrder P] [DecidableEq σ]

omit [LinearOrder P] in
theorem refs_of_found {path : P} {slot : RecoverySlot} (h : w.found t path slot = true) :
    w.refs slot = true :=
  ((Bool.and_eq_true _ _).mp ((Bool.and_eq_true _ _).mp h).1).2

omit [DecidableEq σ] in
theorem prunable_iff {entries : List (Gc.Entry P ρ)} {invalid : ℕ} {path : P}
    {found : RecoverySlot → Bool} {slot : RecoverySlot} :
    prunable t entries invalid (path, found) slot = true ↔
      invalid = 0 ∧ found slot = true ∧ t.reference slot ∉ Gc.requiredRefs entries path := by
  simp only [prunable, Bool.and_eq_true, beq_iff_eq, decide_eq_true_eq, and_assoc]

omit [LinearOrder P] [DecidableEq σ] in
/-- The record is removed where its entry is not retained. -/
theorem swept_eq_none_iff {entries : List (Gc.Entry P ρ)} {record : Option γ} :
    swept format t entries record = none ↔ record = none ∨ ∃ entry,
      entries.find? (fun e => e.transaction.path == t.base.path) = some entry ∧
      entry.retain = false := by
  cases record with
  | none => exact iff_of_true rfl (Or.inl rfl)
  | some contents =>
    rw [swept, Option.bind_some, Option.map_eq_none_iff, Gc.collectFile]
    cases hfind : entries.find? fun e => e.transaction.path == t.base.path with
    | none => simp only [reduceCtorEq, false_and, exists_false, or_self]
    | some entry =>
      simp only [reduceCtorEq, Option.some.injEq, exists_eq_left', false_or]
      cases entry.retain with
      | true =>
        refine iff_of_false (fun h => ?_) (fun h => by cases h)
        rw [if_pos rfl] at h
        split at h
        · cases h
        · cases h
      | false => exact iff_of_true rfl rfl

/-- What a step can do. -/
theorem step_cases {e : CollectionEvent γ} (hs : w.step format t e = some w') :
    w'.Gone ∨ Proceeds t w w' ∨
      SameTransaction w w' ∧ (∀ batch ∈ w'.collector.batches, batch ∈ w.collector.batches ∨
        ∃ path, batch = (path, w.found t path)) ∨
      (e = .prune ∧ ∃ entries invalid batch batches,
        w.collector = .collecting entries invalid [] (batch :: batches) ∧
        w' = { w with
          refs := fun slot => w.refs slot && !prunable t entries invalid batch slot
          collector := .collecting entries invalid [] batches }) ∨
      (e = .sweep ∧ ∃ entries invalid, w.collector = .collecting entries invalid [] [] ∧
        w' = { w with
          record := swept format t entries w.record
          collector := .done }) := by
  have hmoves : ∀ place : CollectorPlace P ρ,
      (∀ batch ∈ place.batches, batch ∈ w.collector.batches ∨
        ∃ path, batch = (path, w.found t path)) →
      some { w with collector := place } = some w' → SameTransaction w w' ∧
        ∀ batch ∈ w'.collector.batches, batch ∈ w.collector.batches ∨
          ∃ path, batch = (path, w.found t path) := by
    intro place hbatches hw
    obtain rfl := Option.some.inj hw
    exact ⟨⟨rfl, rfl, rfl, rfl⟩, hbatches⟩
  have hscans : ∀ call files, some (w.scanned format call files) = some w' →
      SameTransaction w w' ∧ ∀ batch ∈ w'.collector.batches, batch ∈ w.collector.batches ∨
        ∃ path, batch = (path, w.found t path) := by
    intro call files hw
    unfold scanned at hw
    dsimp only at hw
    split at hw
    · exact hmoves _ (fun _ h => by cases h) hw
    · exact hmoves _ (fun _ h => by cases h) hw
  cases e with
  | advance =>
    rcases advance_cases hs with hgone | hproceeds
    · exact Or.inl hgone
    · exact Or.inr (Or.inl hproceeds)
  | conflict =>
    simp only [step] at hs
    split at hs
    · next hd =>
      obtain rfl := Option.some.inj hs
      refine Or.inr (Or.inl (Proceeds.writeRecord (not_gone_of_daemon hd (Or.inr trivial))
        (fun s => ?_) (Or.inr ?_)))
      · rw [hd]
        cases s <;> rfl
      · rw [hd]
        rfl
    · next hd =>
      obtain rfl := Option.some.inj hs
      refine Or.inr (Or.inl (Proceeds.writeRecord (not_gone_of_daemon hd (Or.inr trivial))
        (fun s => ?_) (Or.inl ?_)))
      · rw [hd]
        cases s <;> rfl
      · rw [Protected, hd]
        trivial
    · cases hs
  | retry =>
    simp only [step] at hs
    split at hs
    · obtain rfl := Option.some.inj hs
      exact Or.inl (gone_finish _)
    · next candidate hd =>
      obtain rfl := Option.some.inj hs
      exact Or.inr (Or.inl
        (Proceeds.ends (not_gone_of_daemon hd (Or.inr trivial)) hd rfl))
    · cases hs
  | abort =>
    left
    simp only [step] at hs
    split at hs
    iterate 6 (obtain rfl := Option.some.inj hs; exact ⟨id, fun h => by cases h⟩)
    iterate 2
      split at hs
      · obtain rfl := Option.some.inj hs
        exact ⟨id, fun h => by cases h⟩
      · obtain rfl := Option.some.inj hs
        exact ⟨id, fun h => by cases h⟩
    · cases hs
  | persist =>
    obtain rfl := Option.some.inj hs
    exact Or.inr (Or.inr (Or.inl ⟨⟨rfl, rfl, rfl, rfl⟩, fun _ h => Or.inl h⟩))
  | prune =>
    simp only [step] at hs
    split at hs
    · next entries invalid batch batches hw =>
      obtain rfl := Option.some.inj hs
      exact Or.inr (Or.inr (Or.inr (Or.inl ⟨rfl, entries, invalid, batch, batches, hw, rfl⟩)))
    · cases hs
  | sweep =>
    simp only [step] at hs
    split at hs
    · next entries invalid hw =>
      obtain rfl := Option.some.inj hs
      exact Or.inr (Or.inr (Or.inr (Or.inr ⟨rfl, entries, invalid, hw, rfl⟩)))
    · cases hs
  | list =>
    simp only [step] at hs
    split at hs
    · next entries invalid path paths batches hw =>
      refine Or.inr (Or.inr (Or.inl (hmoves _ (fun batch hbatch => ?_) hs)))
      rcases List.mem_append.mp hbatch with hold | hnew
      · left
        rw [hw]
        exact hold
      · exact Or.inr ⟨path, List.mem_singleton.mp hnew⟩
    · cases hs
  | skip =>
    simp only [step] at hs
    split at hs
    · next entries invalid path paths batches hw =>
      refine Or.inr (Or.inr (Or.inl (hmoves _ (fun batch hbatch => Or.inl ?_) hs)))
      rw [hw]
      exact hbatch
    · cases hs
  | readCatalog retention =>
    simp only [step] at hs
    split at hs
    · exact Or.inr (Or.inr (Or.inl (hmoves _ (fun _ h => by cases h) hs)))
    · cases hs
  | openDirectory =>
    simp only [step] at hs
    split at hs
    · exact Or.inr (Or.inr (Or.inl (hmoves _ (fun _ h => by cases h) hs)))
    · cases hs
  | scan before after =>
    simp only [step] at hs
    split at hs
    · split at hs
      · exact Or.inr (Or.inr (Or.inl (hscans _ _ hs)))
      · cases hs
    · cases hs
  | miss others =>
    simp only [step] at hs
    split at hs
    · split at hs
      · exact Or.inr (Or.inr (Or.inl (hscans _ _ hs)))
      · cases hs
    · cases hs
  | stop => exact Or.inr (Or.inr (Or.inl (hmoves _ (fun _ h => by cases h) hs)))

/-- What is gone does not come back. -/
theorem Gone.step (h : w.Gone) {e : CollectionEvent γ} (hs : w.step format t e = some w') :
    w'.Gone := by
  rcases step_cases hs with hgone | hp | ⟨hsame, -⟩ | ⟨-, _, _, _, _, -, rfl⟩ | ⟨-, _, _, -, rfl⟩
  · exact hgone
  · exact absurd h hp.begun
  · exact hsame.gone_iff.mpr h
  · exact h
  · exact h

/-- An allowed step keeps what is kept. -/
theorem kept_step (h : ¬ w.Gone → w.Kept t) {e : CollectionEvent γ} (hok : w.Spares t e)
    (hs : w.step format t e = some w') (hgone : ¬ w'.Gone) : w'.Kept t := by
  rcases step_cases hs with hgone' | hp | ⟨hsame, -⟩ |
    ⟨rfl, entries, invalid, ⟨path, found⟩, batches, hw, rfl⟩ | ⟨rfl, entries, invalid, hw, rfl⟩
  · exact absurd hgone' hgone
  · exact (h hp.begun).proceeds hp
  · exact hsame.kept_iff.mpr (h fun hg => hgone (hsame.gone_iff.mpr hg))
  -- an unborn transaction has nothing to keep
  · by_cases hd : w.daemon = .unborn
    · exact Kept.of_unborn hd
    · have hunder : w.UnderWay := by
        by_contra hnot
        exact hgone ⟨hnot, hd⟩
      have hkept := h hgone
      simp only [Spares, hw] at hok
      refine ⟨fun slot hslot => ?_, hkept.record⟩
      have hspared : prunable t entries invalid (path, found) slot = false := by
        rw [Bool.eq_false_iff]
        intro hprunable
        obtain ⟨hinvalid, hfound, hneeded⟩ := prunable_iff.mp hprunable
        exact hneeded (hok hunder hinvalid slot hfound)
      show (w.refs slot && !prunable t entries invalid (path, found) slot) = true
      rw [hspared, hkept.refs slot hslot]
      rfl
  · by_cases hd : w.daemon = .unborn
    · exact Kept.of_unborn hd
    · have hunder : w.UnderWay := by
        by_contra hnot
        exact hgone ⟨hnot, hd⟩
      have hkept := h hgone
      simp only [Spares, hw] at hok
      refine ⟨hkept.refs, fun hr hnone => ?_⟩
      rcases swept_eq_none_iff.mp hnone with hnone | ⟨entry, hentry, hdropped⟩
      · exact hkept.record hr hnone
      · rw [hok hunder hr entry hentry] at hdropped
        cases hdropped

/-- Only refs that have been written are there and are found. -/
structure Traced (w : CollectionWorld γ P ρ) : Prop where
  refs : ¬ w.Gone → ∀ slot, w.refs slot = true → w.daemon.written slot = true
  found : ¬ w.Gone → ∀ batch ∈ w.collector.batches, ∀ slot, batch.2 slot = true →
    w.daemon.written slot = true

theorem Traced.step (h : w.Traced) {e : CollectionEvent γ} (hs : w.step format t e = some w') :
    w'.Traced := by
  rcases step_cases hs with hgone | hp | ⟨hsame, hbatches⟩ |
    ⟨-, entries, invalid, batch, batches, hw, rfl⟩ | ⟨-, entries, invalid, -, rfl⟩
  · exact ⟨fun hnot => absurd hgone hnot, fun hnot => absurd hgone hnot⟩
  · refine ⟨fun _ slot hslot => ?_, fun _ batch hbatch slot hslot => ?_⟩
    · rcases (hp.refs slot).mp hslot with hold | ⟨hnew, -⟩
      · exact hp.written slot (h.refs hp.begun slot hold)
      · exact hnew
    · rw [hp.collector] at hbatch
      exact hp.written slot (h.found hp.begun batch hbatch slot hslot)
  · refine ⟨fun hnot slot hslot => ?_, fun hnot batch hbatch slot hslot => ?_⟩
    · rw [hsame.refs] at hslot
      rw [hsame.daemon]
      exact h.refs (fun hg => hnot (hsame.gone_iff.mpr hg)) slot hslot
    · have hbegun : ¬ w.Gone := fun hg => hnot (hsame.gone_iff.mpr hg)
      rw [hsame.daemon]
      rcases hbatches batch hbatch with hold | ⟨path, rfl⟩
      · exact h.found hbegun batch hold slot hslot
      · exact h.refs hbegun slot (refs_of_found hslot)
  · refine ⟨fun hnot slot hslot => ?_, fun hnot batch' hbatch slot hslot => ?_⟩
    · exact h.refs hnot slot ((Bool.and_eq_true _ _).mp hslot).1
    · refine h.found hnot batch' ?_ slot hslot
      rw [hw]
      exact List.mem_cons_of_mem batch hbatch
  · exact ⟨h.refs, fun _ _ hbatch => by cases hbatch⟩

/-- Something that is to be kept is lost. -/
def Lost (t : CollectedTransaction ρ storeOf) (w : CollectionWorld γ P ρ) : Prop :=
  w.UnderWay ∧ ¬ w.Kept t

/-- A step that is not allowed loses something. -/
theorem Traced.lost (h : w.Traced) {e : CollectionEvent γ} (hnot : ¬ w.Spares t e)
    (hs : w.step format t e = some w') : w'.Lost t := by
  cases e with
  | prune =>
    simp only [CollectionWorld.step] at hs
    split at hs
    · next entries invalid batch batches hw =>
      obtain ⟨path, found⟩ := batch
      obtain rfl := Option.some.inj hs
      simp only [Spares, hw] at hnot
      push Not at hnot
      obtain ⟨hunder, hinvalid, slot, hfound, hneeded⟩ := hnot
      refine ⟨hunder, fun hkept => ?_⟩
      have hmem : (path, found) ∈ w.collector.batches := by
        rw [hw]
        exact List.mem_cons_self
      have hwritten := h.found hunder.not_gone (path, found) hmem slot hfound
      have hrefs : (w.refs slot && !prunable t entries invalid (path, found) slot) = true :=
        hkept.refs slot hwritten
      rw [prunable_iff.mpr ⟨hinvalid, hfound, hneeded⟩, Bool.not_true, Bool.and_false] at hrefs
      cases hrefs
    · cases hs
  | sweep =>
    simp only [CollectionWorld.step] at hs
    split at hs
    · next entries invalid hw =>
      obtain rfl := Option.some.inj hs
      simp only [Spares, hw] at hnot
      push Not at hnot
      obtain ⟨hunder, hr, entry, hentry, hretain⟩ := hnot
      refine ⟨hunder, fun hkept => hkept.record hr ?_⟩
      exact swept_eq_none_iff.mpr (Or.inr ⟨entry, hentry, Bool.eq_false_iff.mpr hretain⟩)
    · cases hs
  | _ => exact absurd trivial hnot

/-- What is lost stays lost until the transaction is gone, or to be protected. -/
theorem Lost.step (h : w.Lost t) (hnot : ¬ w.Protected) {e : CollectionEvent γ}
    (hs : w.step format t e = some w') : w'.Gone ∨ w'.Lost t := by
  obtain ⟨hunder, hlost⟩ := h
  rcases step_cases hs with hgone | hp | ⟨hsame, -⟩ |
    ⟨rfl, entries, invalid, batch, batches, hw, rfl⟩ | ⟨rfl, entries, invalid, hw, rfl⟩
  · exact Or.inl hgone
  · by_cases hgone : w'.Gone
    · exact Or.inl hgone
    · have hlost' : ¬ w'.Kept t := by
        refine fun hkept => hlost ⟨fun slot hslot => ?_, fun hr => ?_⟩
        · rcases (hp.refs slot).mp (hkept.refs slot (hp.written slot hslot)) with hold | ⟨-, hold⟩
          · exact hold
          · rw [hslot] at hold
            cases hold
        · obtain ⟨hr', hrecord⟩ := hp.lost hnot hr
          rw [← hrecord]
          exact hkept.record hr'
      have hunder' : w'.UnderWay := by
        by_contra hnot'
        apply hlost'
        apply Kept.of_unborn
        by_contra hd
        exact hgone ⟨hnot', hd⟩
      exact Or.inr ⟨hunder', hlost'⟩
  · right
    refine ⟨?_, fun hkept => hlost (hsame.kept_iff.mp hkept)⟩
    unfold UnderWay at hunder ⊢
    rw [hsame.daemon, hsame.conflicted]
    exact hunder
  · right
    refine ⟨hunder, fun hkept => hlost ⟨fun slot hslot => ?_, hkept.record⟩⟩
    exact ((Bool.and_eq_true _ _).mp (hkept.refs slot hslot)).1
  · right
    refine ⟨hunder, fun hkept => hlost ⟨hkept.refs, fun hr hnone => hkept.record hr ?_⟩⟩
    exact swept_eq_none_iff.mpr (Or.inl hnone)

/-- In every state of a run a protected transaction has its refs and its record. -/
def KeepsProtected (format : Gc.RecordFormat γ P ρ) (t : CollectedTransaction ρ storeOf)
    (w : CollectionWorld γ P ρ) (es : List (CollectionEvent γ)) : Prop :=
  ∀ done rest u, es = done ++ rest → Runs.run (step format t) w done = some u → u.Protected →
    u.Kept t

theorem KeepsProtected.tail {e : CollectionEvent γ} {es : List (CollectionEvent γ)}
    (h : KeepsProtected format t w (e :: es)) (hs : w.step format t e = some w') :
    KeepsProtected format t w' es := by
  intro done rest u heq hu
  apply h (e :: done) rest u
  · rw [heq]
    rfl
  · exact (Runs.run_cons_eq_some (step format t)).mpr ⟨w', hs, hu⟩

/-- A run that loses something and ends protected was protected when it was lost. -/
theorem not_keepsProtected_of_lost (h : w.Lost t) {es : List (CollectionEvent γ)}
    (hrun : Runs.run (step format t) w es = some w') (hend : w'.Protected) :
    ¬ KeepsProtected format t w es := by
  intro hkeeps
  -- the first state of the rest that is protected is one in which it is lost
  induction es generalizing w with
  | nil =>
    obtain rfl := Option.some.inj hrun
    exact h.2 (hkeeps [] [] _ rfl rfl hend)
  | cons e es ih =>
    obtain ⟨u, hu, hrun⟩ := (Runs.run_cons_eq_some (step format t)).mp hrun
    by_cases hprotected : w.Protected
    · exact h.2 (hkeeps [] (e :: es) w rfl rfl hprotected)
    · rcases h.step hprotected hu with hgone | hlost
      · have hall : Runs.Steps (step format t) (fun _ _ => True) u es :=
          Runs.Steps.of_forall (fun _ _ _ => trivial) u
        have hgone' : w'.Gone :=
          Runs.run_invariant (fun _ _ _ hg _ hs => Gone.step hg hs) hgone hall hrun
        exact hgone'.1 hend.underWay
      · exact ih hlost hrun (hkeeps.tail hu)

theorem kept_of_spares {es : List (CollectionEvent γ)} (h : ¬ w.Gone → w.Kept t)
    (hok : Runs.Steps (step format t) (Spares t) w es) : KeepsProtected format t w es := by
  intro done rest u heq hu hprotected
  have hdone : Runs.Steps (step format t) (Spares t) w done := (heq ▸ hok).of_append.1
  have hkept : ¬ u.Gone → u.Kept t :=
    Runs.run_invariant (fun _ _ _ h hok hs => kept_step h hok hs) h hdone hu
  exact hkept hprotected.underWay.not_gone

theorem spares_of_traced {es : List (CollectionEvent γ)} (h : w.Traced)
    (hrun : Runs.run (step format t) w es = some w') (hend : w'.Protected)
    (hkeeps : KeepsProtected format t w es) : Runs.Steps (step format t) (Spares t) w es := by
  induction es generalizing w with
  | nil => trivial
  | cons e es ih =>
    obtain ⟨u, hu, hrun⟩ := (Runs.run_cons_eq_some (step format t)).mp hrun
    have hok : w.Spares t e := by
      by_contra hnot
      exact not_keepsProtected_of_lost (h.lost hnot hu) hrun hend (hkeeps.tail hu)
    exact Runs.Steps.cons hok hu (ih (h.step hu) hrun (hkeeps.tail hu))

section Unspared

/-- A file holds a record and its length. -/
def sizedFormat : Gc.RecordFormat (Option (Gc.Record ℕ ℕ) × ℕ) ℕ ℕ where
  parse := Prod.fst
  write r := (some r, r.rest)
  length := Prod.snd
  parse_write _ := rfl

/-- A transaction of the project at `0`, under ordinary retention. -/
def unrecorded : CollectedTransaction ℕ (fun _ : ℕ => some ()) where
  base := ⟨0, "refs/resync/recovery/t", "PREPARING", "2026-01-01T00:00:00+00:00", false, "t.json",
    900⟩
  rest _ candidate := if candidate then 1200 else 900
  retention := ⟨false⟩
  store := ()
  located := rfl
  recovery := by decide

/-- The refs are written, and there is no record yet. The collector runs, and then the
preparation comes to its end. -/
def collectWhilePreparing : List (CollectionEvent (Option (Gc.Record ℕ ℕ) × ℕ)) :=
  [.advance, .advance, .advance, .advance, .readCatalog ⟨false⟩, .openDirectory, .scan [] [],
    .list, .prune, .sweep, .advance, .advance]

/-- The collector runs while the transaction is installed, over a linked worktree of
the same repository too. -/
def collectLinked : List (CollectionEvent (Option (Gc.Record ℕ ℕ) × ℕ)) :=
  [.advance, .advance, .advance, .advance, .advance, .advance, .advance, .readCatalog ⟨false⟩,
    .openDirectory, .scan [] [], .list, .list, .prune, .prune, .sweep]

/-- The record is retained, and requires the refs at its own path alone: those found at
the other worktree are deleted. -/
theorem linked_worktree_prunes_installing : ∃ u,
    Runs.run (step sizedFormat unrecorded) (start ⟨[0, 1], []⟩ false) collectLinked = some u ∧
    u.daemon = .installing ∧ u.record ≠ none ∧ u.refs .head = false ∧ ¬ u.Kept unrecorded := by
  refine ⟨_, rfl, rfl, by decide, rfl, fun h => ?_⟩
  exact absurd (h.refs .head rfl) (by decide)

end Unspared

end CollectionWorld

end Resync
