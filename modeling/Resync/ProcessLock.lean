import Mathlib.Data.Fintype.Basic
import Mathlib.Data.Int.Notation
import Mathlib.Data.Nat.Notation
import Mathlib.Logic.Function.Basic
import Resync.Lib.Runs

/-! `acquire_process_lock` (`daemon.rs`) in any number of processes. Creating
the lock file, writing the PID, reading it, probing it and removing the file
are separate steps, so a process may remove a file that another one has made
since, or has not written yet. -/
namespace Resync

variable {Proc : Type}

/-- The lock file's path and the files that were ever made there. `content` is
the PID that a reader parses, `none` for an empty or other text; `creator` only
looks back, and is `none` for a file that was there before. -/
structure LockFile (Proc : Type) where
  path : Option ℕ
  content : ℕ → Option ℤ
  creator : ℕ → Option Proc
  next : ℕ

/-- Where a process stands in `acquire_process_lock`; `left` counts the rounds
of its loop that are left. -/
inductive Starter where
  | outside
  | opening (left : ℕ)
  /-- It has created the file. -/
  | writing (file : ℕ)
  | syncing (file : ℕ)
  /-- It has found a file. -/
  | reading (left : ℕ)
  | probing (left : ℕ) (pid : ℤ)
  | removing (left : ℕ)
  /-- It has returned `Ok(())` and runs the daemon. -/
  | locked (file : ℕ)
  /-- The daemon has removed the lock at its end. -/
  | leaving
  | failed (error : String)
  | gone
deriving DecidableEq

structure LockWorld (Proc : Type) where
  lock : LockFile Proc
  pid : Proc → ℤ
  starters : Proc → Starter

inductive LockEvent where
  | start
  /-- The file is opened with `create_new`. -/
  | create
  | giveUp
  | write
  | sync
  /-- The file cannot be opened, written or synced. -/
  | fail (error : String)
  | read
  /-- The answer of `kill` with signal 0. -/
  | probe (alive : Bool)
  /-- A failing removal is ignored. -/
  | remove (removed : Bool)
  /-- The daemon stops and removes the lock. -/
  | leave (removed : Bool)
  /-- The process ends after that. -/
  | exit
  /-- The process ends without that. -/
  | die

/-- The file that the process has created and may hold the lock by. -/
def Starter.file : Starter → Option ℕ
  | .writing file | .syncing file | .locked file => some file
  | _ => none

/-- It has returned `Ok(())` and not ended yet. -/
def Starter.running : Starter → Bool
  | .locked _ | .leaving => true
  | _ => false

/-- It has a file, or has had the lock and leaves. -/
def Starter.present : Starter → Bool
  | .writing _ | .syncing _ | .locked _ | .leaving => true
  | _ => false

theorem Starter.present_iff {s : Starter} :
    s.present = true ↔ (∃ file, s.file = some file) ∨ s = .leaving := by
  cases s with
  | writing file | syncing file | locked file => exact iff_of_true rfl (Or.inl ⟨file, rfl⟩)
  | leaving => exact iff_of_true rfl (Or.inr rfl)
  | _ =>
    refine iff_of_false (fun h => by cases h) ?_
    rintro (⟨file, h⟩ | h)
    · cases h
    · cases h

theorem Starter.running_iff {s : Starter} :
    s.running = true ↔ (∃ file, s = .locked file) ∨ s = .leaving := by
  cases s with
  | locked file => exact iff_of_true rfl (Or.inl ⟨file, rfl⟩)
  | leaving => exact iff_of_true rfl (Or.inr rfl)
  | _ =>
    refine iff_of_false (fun h => by cases h) ?_
    rintro (⟨file, h⟩ | h)
    · cases h
    · cases h

namespace LockFile

/-- A new, empty file at the path. -/
def create (l : LockFile Proc) (p : Proc) : LockFile Proc where
  path := some l.next
  content := Function.update l.content l.next none
  creator := Function.update l.creator l.next (some p)
  next := l.next + 1

def write (l : LockFile Proc) (file : ℕ) (pid : ℤ) : LockFile Proc :=
  { l with content := Function.update l.content file (some pid) }

def remove (l : LockFile Proc) (removed : Bool) : LockFile Proc :=
  { l with path := if removed then none else l.path }

end LockFile

namespace LockWorld

section Steps

variable [DecidableEq Proc]

def place (w : LockWorld Proc) (p : Proc) (s : Starter) : LockWorld Proc :=
  { w with starters := Function.update w.starters p s }

def step (w : LockWorld Proc) : Proc × LockEvent → Option (LockWorld Proc)
  | (p, .start) =>
    match w.starters p with
    | .outside => some (w.place p (.opening 2))
    | _ => none
  | (p, .create) =>
    match w.starters p with
    | .opening (left + 1) =>
      match w.lock.path with
      | none => some { w.place p (.writing w.lock.next) with lock := w.lock.create p }
      | some _ => some (w.place p (.reading left))
    | _ => none
  | (p, .giveUp) =>
    match w.starters p with
    | .opening 0 => some (w.place p (.failed "could not acquire RepoSync daemon lock"))
    | _ => none
  | (p, .write) =>
    match w.starters p with
    | .writing file => some { w.place p (.syncing file) with lock := w.lock.write file (w.pid p) }
    | _ => none
  | (p, .sync) =>
    match w.starters p with
    | .syncing file => some (w.place p (.locked file))
    | _ => none
  | (p, .fail error) =>
    match w.starters p with
    | .opening (_ + 1) | .writing _ | .syncing _ => some (w.place p (.failed error))
    | _ => none
  | (p, .read) =>
    match w.starters p with
    | .reading left =>
      match w.lock.path.bind w.lock.content with
      | some pid => some (w.place p (.probing left pid))
      | none => some (w.place p (.removing left))
    | _ => none
  | (p, .probe alive) =>
    match w.starters p with
    | .probing left pid =>
      if alive then some (w.place p
        (.failed ("RepoSync daemon is already running as PID " ++ toString pid)))
      else some (w.place p (.removing left))
    | _ => none
  | (p, .remove removed) =>
    match w.starters p with
    | .removing left =>
      some { w.place p (.opening left) with lock := w.lock.remove removed }
    | _ => none
  | (p, .leave removed) =>
    match w.starters p with
    | .locked _ => some { w.place p .leaving with lock := w.lock.remove removed }
    | _ => none
  | (p, .exit) =>
    match w.starters p with
    | .leaving => some (w.place p .gone)
    | _ => none
  | (p, .die) =>
    match w.starters p with
    | .outside | .gone => none
    | _ => some (w.place p .gone)

/-- Whether a starter removes the lock file. -/
def removes (w : LockWorld Proc) : Proc × LockEvent → Bool
  | (p, .remove removed) =>
    match w.starters p with
    | .removing _ => removed
    | _ => false
  | _ => false

/-- A starter that removes the lock file removes one whose creator has ended or
given up. -/
def RemovesStale (w : LockWorld Proc) (e : Proc × LockEvent) : Prop :=
  w.removes e = true → ∀ file ∈ w.lock.path, ∀ q ∈ w.lock.creator file,
    (w.starters q).file ≠ some file

instance (w : LockWorld Proc) (e : Proc × LockEvent) : Decidable (w.RemovesStale e) :=
  inferInstanceAs (Decidable (_ → _))

/-- A step that makes a new file at the path. -/
def creates (w : LockWorld Proc) : Proc × LockEvent → Bool
  | (_, .create) => w.lock.path.isNone
  | _ => false

/-- No lock file is made while a daemon that has removed its own has not ended. -/
def WaitsForEnd (w : LockWorld Proc) (e : Proc × LockEvent) : Prop :=
  w.creates e = true → ∀ q, w.starters q ≠ .leaving

instance [Fintype Proc] (w : LockWorld Proc) (e : Proc × LockEvent) :
    Decidable (w.WaitsForEnd e) :=
  inferInstanceAs (Decidable (_ → _))

end Steps

/-- The lock file before any of the processes, whatever is in it. -/
def initial (path : Option ℕ) (content : ℕ → Option ℤ) (next : ℕ) (pid : Proc → ℤ) :
    LockWorld Proc := ⟨⟨path, content, fun _ => none, next⟩, pid, fun _ => .outside⟩

/-- A process that has created a file and may lock, or has locked, by it has
its file at the path. -/
def Held (w : LockWorld Proc) : Prop :=
  ∀ p file, (w.starters p).file = some file →
    w.lock.path = some file ∧ w.lock.creator file = some p

variable {w w' : LockWorld Proc}

/-- One file at the path has one creator. -/
theorem Held.unique (h : Held w) {p q : Proc} {f g : ℕ} (hp : (w.starters p).file = some f)
    (hq : (w.starters q).file = some g) : p = q := by
  obtain ⟨hpath, hcreator⟩ := h p f hp
  obtain ⟨hpath', hcreator'⟩ := h q g hq
  have hfile : f = g := Option.some.inj (hpath.symm.trans hpath')
  rw [← hfile] at hcreator'
  exact Option.some.inj (hcreator.symm.trans hcreator')

section Invariant

variable [DecidableEq Proc]

theorem Held.place (h : Held w) {p : Proc} {s : Starter}
    (hs : ∀ file, s.file = some file → (w.starters p).file = some file) : Held (w.place p s) := by
  intro q file hq
  by_cases hqp : q = p
  · subst hqp
    have hself : (w.place q s).starters q = s := Function.update_self ..
    rw [hself] at hq
    exact h q file (hs file hq)
  · have hother : (w.place p s).starters q = w.starters q := Function.update_of_ne hqp ..
    rw [hother] at hq
    exact h q file hq

/-- A file can be created only while no process holds one. -/
theorem Held.create (h : Held w) (hpath : w.lock.path = none) (p : Proc) :
    Held { w.place p (.writing w.lock.next) with lock := w.lock.create p } := by
  intro q file hq
  by_cases hqp : q = p
  · subst hqp
    have hfile : w.lock.next = file := by
      have hself := congrArg Starter.file (Function.update_self q (.writing w.lock.next) w.starters)
      exact Option.some.inj (hself.symm.trans hq)
    subst hfile
    exact ⟨rfl, Function.update_self ..⟩
  · have hold : (w.starters q).file = some file :=
      (congrArg Starter.file (Function.update_of_ne hqp _ w.starters)).symm.trans hq
    have hsome := (h q file hold).1
    rw [hpath] at hsome
    cases hsome

/-- A removal is harmless if no other process than the one that removes holds
a file at the path. -/
theorem Held.remove (h : Held w) {p : Proc} {s : Starter} (hs : s.file = none) {removed : Bool}
    (hother : removed = true → ∀ q file, q ≠ p → w.lock.path = some file →
      w.lock.creator file = some q → (w.starters q).file ≠ some file) :
    Held { w.place p s with lock := w.lock.remove removed } := by
  intro q file hq
  by_cases hqp : q = p
  · subst hqp
    have hself := congrArg Starter.file (Function.update_self q s w.starters)
    have hnone := hself.symm.trans hq
    rw [hs] at hnone
    cases hnone
  · have hold : (w.starters q).file = some file :=
      (congrArg Starter.file (Function.update_of_ne hqp _ w.starters)).symm.trans hq
    obtain ⟨hpath, hcreator⟩ := h q file hold
    cases removed with
    | false => exact ⟨hpath, hcreator⟩
    | true => exact absurd hold (hother rfl q file hqp hpath hcreator)

/-- The invariant is kept by the steps that meet the condition. -/
theorem Held.step (h : Held w) {e : Proc × LockEvent} (hok : RemovesStale w e)
    (hs : w.step e = some w') : Held w' := by
  obtain ⟨p, e⟩ := e
  cases e with
  | start =>
    simp only [LockWorld.step] at hs
    split at hs
    · obtain rfl := Option.some.inj hs
      exact h.place fun _ hf => by cases hf
    · cases hs
  | create =>
    simp only [LockWorld.step] at hs
    split at hs
    · split at hs
      · next hpath =>
        obtain rfl := Option.some.inj hs
        exact h.create hpath p
      · obtain rfl := Option.some.inj hs
        exact h.place fun _ hf => by cases hf
    · cases hs
  | giveUp =>
    simp only [LockWorld.step] at hs
    split at hs
    · obtain rfl := Option.some.inj hs
      exact h.place fun _ hf => by cases hf
    · cases hs
  | write =>
    simp only [LockWorld.step] at hs
    split at hs
    · next file hplace =>
      obtain rfl := Option.some.inj hs
      have hsyncing : Held (w.place p (.syncing file)) := by
        apply h.place
        intro f hf
        rw [hplace]
        exact hf
      -- the content is no part of the invariant
      exact hsyncing
    · cases hs
  | sync =>
    simp only [LockWorld.step] at hs
    split at hs
    · next file hplace =>
      obtain rfl := Option.some.inj hs
      apply h.place
      intro f hf
      rw [hplace]
      exact hf
    · cases hs
  | fail error =>
    simp only [LockWorld.step] at hs
    split at hs
    · obtain rfl := Option.some.inj hs
      exact h.place fun _ hf => by cases hf
    · obtain rfl := Option.some.inj hs
      exact h.place fun _ hf => by cases hf
    · obtain rfl := Option.some.inj hs
      exact h.place fun _ hf => by cases hf
    · cases hs
  | read =>
    simp only [LockWorld.step] at hs
    split at hs
    · split at hs
      · obtain rfl := Option.some.inj hs
        exact h.place fun _ hf => by cases hf
      · obtain rfl := Option.some.inj hs
        exact h.place fun _ hf => by cases hf
    · cases hs
  | probe alive =>
    simp only [LockWorld.step] at hs
    split at hs
    · split at hs
      · obtain rfl := Option.some.inj hs
        exact h.place fun _ hf => by cases hf
      · obtain rfl := Option.some.inj hs
        exact h.place fun _ hf => by cases hf
    · cases hs
  | remove removed =>
    simp only [LockWorld.step] at hs
    split at hs
    · next left hplace =>
      obtain rfl := Option.some.inj hs
      apply h.remove rfl
      intro hremoved q file _ hpath hcreator
      refine hok ?_ file hpath q hcreator
      rw [removes, hplace]
      exact hremoved
    · cases hs
  | leave removed =>
    simp only [LockWorld.step] at hs
    split at hs
    · next file hplace =>
      obtain rfl := Option.some.inj hs
      -- the daemon that stops is the only one that holds a file
      have hp : (w.starters p).file = some file := by
        rw [hplace]
        rfl
      apply h.remove rfl
      intro _ q g hqp _ _ hq
      exact hqp (h.unique hq hp)
    · cases hs
  | exit =>
    simp only [LockWorld.step] at hs
    split at hs
    · obtain rfl := Option.some.inj hs
      exact h.place fun _ hf => by cases hf
    · cases hs
  | die =>
    simp only [LockWorld.step] at hs
    split at hs
    · cases hs
    · cases hs
    · obtain rfl := Option.some.inj hs
      exact h.place fun _ hf => by cases hf

/-- How a step may change the place of its process: it comes to run only by
`sync`, to have a file only by making it, and to leave only from the lock. -/
structure Moves (w : LockWorld Proc) (p : Proc) (e : LockEvent) (s : Starter) : Prop where
  running : e ≠ .sync → (w.starters p).running = false → s.running = false
  present : s.present = true → w.creates (p, e) = true ∨ (w.starters p).present = true
  leaving : s = .leaving → ∃ file, w.starters p = .locked file

theorem step_moves {p : Proc} {e : LockEvent} (hs : w.step (p, e) = some w') :
    ∃ s, w'.starters = Function.update w.starters p s ∧ Moves w p e s := by
  have haway : ∀ {s : Starter}, s.running = false → s.present = false → Moves w p e s := by
    intro s hruns hpresent
    refine ⟨fun _ _ => hruns, fun h => ?_, fun h => ?_⟩
    · rw [hpresent] at h
      cases h
    · rw [h] at hruns
      cases hruns
  cases e with
  | create =>
    simp only [LockWorld.step] at hs
    split at hs
    · split at hs
      · next hpath =>
        obtain rfl := Option.some.inj hs
        exact ⟨_, rfl, fun _ _ => rfl, fun _ => Or.inl (Option.isNone_iff_eq_none.mpr hpath),
          fun h => by cases h⟩
      · obtain rfl := Option.some.inj hs
        exact ⟨_, rfl, haway rfl rfl⟩
    · cases hs
  | write =>
    simp only [LockWorld.step] at hs
    split at hs
    · next hplace =>
      obtain rfl := Option.some.inj hs
      refine ⟨_, rfl, fun _ _ => rfl, fun _ => Or.inr ?_, fun h => by cases h⟩
      rw [hplace]
      rfl
    · cases hs
  | sync =>
    simp only [LockWorld.step] at hs
    split at hs
    · next hplace =>
      obtain rfl := Option.some.inj hs
      refine ⟨_, rfl, fun h => absurd rfl h, fun _ => Or.inr ?_, fun h => by cases h⟩
      rw [hplace]
      rfl
    · cases hs
  | leave removed =>
    simp only [LockWorld.step] at hs
    split at hs
    · next file hplace =>
      obtain rfl := Option.some.inj hs
      refine ⟨_, rfl, fun _ hruns => ?_, fun _ => Or.inr ?_, fun _ => ⟨file, hplace⟩⟩
      · rw [hplace] at hruns
        cases hruns
      · rw [hplace]
        rfl
    · cases hs
  | _ =>
    simp only [LockWorld.step] at hs
    repeat' split at hs
    all_goals first
      | cases hs; exact ⟨_, rfl, haway rfl rfl⟩
      | cases hs

/-- While a daemon leaves, no other process has a file or leaves too. -/
def Alone (w : LockWorld Proc) : Prop :=
  ∀ p q, w.starters p = .leaving → (w.starters q).present = true → q = p

theorem Alone.step (h : Alone w) (hheld : Held w) {e : Proc × LockEvent} (hok : w.WaitsForEnd e)
    (hs : w.step e = some w') : Alone w' := by
  obtain ⟨r, e⟩ := e
  obtain ⟨s, hstarters, hmoves⟩ := step_moves hs
  -- who is there after the step was there before it, but for the creator of a file
  have hbefore : ∀ q, (w'.starters q).present = true →
      (w.starters q).present = true ∨ q = r ∧ w.creates (r, e) = true := by
    intro q hq
    rw [hstarters] at hq
    by_cases hqr : q = r
    · subst hqr
      rw [Function.update_self] at hq
      exact (hmoves.present hq).elim (fun hnew => Or.inr ⟨rfl, hnew⟩) Or.inl
    · rw [Function.update_of_ne hqr] at hq
      exact Or.inl hq
  intro p q hp hq
  rw [hstarters] at hp
  by_cases hpr : p = r
  · subst hpr
    rw [Function.update_self] at hp
    obtain ⟨file, hfile⟩ := hmoves.leaving hp
    rcases hbefore q hq with hq | ⟨hq, -⟩
    · have hown : (w.starters p).file = some file := by
        rw [hfile]
        rfl
      rcases Starter.present_iff.mp hq with ⟨other, hother⟩ | hother
      · exact hheld.unique hother hown
      · refine (h q p hother ?_).symm
        rw [hfile]
        rfl
    · exact hq
  · rw [Function.update_of_ne hpr] at hp
    rcases hbefore q hq with hq | ⟨-, hnew⟩
    · exact h p q hp hq
    · exact absurd hp (hok hnew p)

/-- In every run whose steps meet the condition, from any content of the lock
file, at most one running process has the lock at any time; and at most one that
has had it has not ended, if no process makes a lock file between the removal of
the lock at the end of a daemon and the end of its process. -/
theorem at_most_one_locked {path : Option ℕ} {content : ℕ → Option ℤ} {next : ℕ}
    {pid : Proc → ℤ} {es : List (Proc × LockEvent)} {v : LockWorld Proc}
    (hok : Runs.Steps step RemovesStale (initial path content next pid) es)
    (hv : Runs.run step (initial path content next pid) es = some v) :
    (∀ p q f g, v.starters p = .locked f → v.starters q = .locked g → p = q) ∧
    (Runs.Steps step WaitsForEnd (initial path content next pid) es →
      ∀ p q, (v.starters p).running = true → (v.starters q).running = true → p = q) := by
  have hinitial : Held (initial path content next pid) := fun _ _ hfile => by cases hfile
  have hheld : Held v := Runs.run_invariant (fun _ _ _ h hok hs => h.step hok hs) hinitial hok hv
  have hfile : ∀ {r : Proc} {file : ℕ}, v.starters r = .locked file →
      (v.starters r).file = some file := by
    intro r file hr
    rw [hr]
    rfl
  refine ⟨fun p q f g hp hq => hheld.unique (hfile hp) (hfile hq), fun hends p q hp hq => ?_⟩
  have hstep : ∀ (w : LockWorld Proc) e w', Held w ∧ Alone w → RemovesStale w e ∧ WaitsForEnd w e →
      w.step e = some w' → Held w' ∧ Alone w' := fun w e w' h hok hs =>
    ⟨h.1.step hok.1 hs, h.2.step h.1 hok.2 hs⟩
  have halone := Runs.run_invariant hstep
    ⟨hinitial, fun _ _ hleaving => by cases hleaving⟩ (hok.and hends) hv
  rcases Starter.running_iff.mp hp with ⟨f, hp⟩ | hleaving
  · rcases Starter.running_iff.mp hq with ⟨g, hq⟩ | hleaving
    · exact hheld.unique (hfile hp) (hfile hq)
    · refine halone.2 q p hleaving ?_
      rw [hp]
      rfl
  · refine (halone.2 p q hleaving ?_).symm
    rcases Starter.running_iff.mp hq with ⟨g, hq⟩ | hq
    · rw [hq]
      rfl
    · rw [hq]
      rfl

end Invariant

end LockWorld

section TwoStarters

/-- Two processes and a lock file that is not there. -/
def noLock : LockWorld (Fin 2) := LockWorld.initial none (fun _ => none) 0 fun p => 100 + p.val

/-- Two processes and a lock file with the PID of a process that is dead. -/
def staleLock : LockWorld (Fin 2) :=
  LockWorld.initial (some 0) (fun _ => some 7) 1 fun p => 100 + p.val

/-- The first process replaces the stale lock, and the second one is refused. -/
def replaceStale (first second : Fin 2) : List (Fin 2 × LockEvent) :=
  [.start, .create, .read, .probe false, .remove true, .create, .write, .sync].map (first, ·) ++
    [.start, .create, .read, .probe true].map (second, ·)

theorem at_most_one_locked_two : ∃ v,
    Runs.run LockWorld.step staleLock (replaceStale 0 1) = some v ∧
    v.starters 0 = .locked 1 ∧ (∀ q g, v.starters q = .locked g → 0 = q) ∧
    ∀ q, (v.starters q).running = true → 0 = q := by
  have htest : ((Runs.run LockWorld.step staleLock (replaceStale 0 1)).map fun v =>
      v.starters 0) = some (.locked 1) := by decide +kernel
  obtain ⟨v, hv, hlocked⟩ := Option.map_eq_some_iff.mp htest
  have hok : Runs.Steps LockWorld.step LockWorld.RemovesStale staleLock (replaceStale 0 1) := by
    decide +kernel
  have hends : Runs.Steps LockWorld.step LockWorld.WaitsForEnd staleLock (replaceStale 0 1) := by
    decide +kernel
  have hrunning : (v.starters 0).running = true := by
    rw [hlocked]
    rfl
  obtain ⟨hone, hrun⟩ := LockWorld.at_most_one_locked hok hv
  exact ⟨v, hv, hlocked, fun q g hq => hone 0 q 1 g hlocked hq,
    fun q hq => hrun hends 0 q hrunning hq⟩

/-- The second process finds the file of the first before the PID is in it,
takes it for a stale one, and both return success. -/
theorem unwritten_lock_is_removed : ∃ v, Runs.run LockWorld.step noLock
      [(0, .start), (1, .start), (0, .create), (1, .create), (1, .read), (1, .remove true),
        (1, .create), (1, .write), (1, .sync), (0, .write), (0, .sync)] = some v ∧
    v.starters 0 = .locked 0 ∧ v.starters 1 = .locked 1 := by
  have htest : ((Runs.run LockWorld.step noLock
      [(0, .start), (1, .start), (0, .create), (1, .create), (1, .read), (1, .remove true),
        (1, .create), (1, .write), (1, .sync), (0, .write), (0, .sync)]).map fun v =>
      (v.starters 0, v.starters 1)) = some (.locked 0, .locked 1) := by decide +kernel
  obtain ⟨v, hv, hplaces⟩ := Option.map_eq_some_iff.mp htest
  exact ⟨v, hv, congrArg Prod.fst hplaces, congrArg Prod.snd hplaces⟩

end TwoStarters

end Resync
