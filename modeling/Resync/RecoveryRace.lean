import Resync.Lib.Runs
import Resync.Recovery

/-! An installation of the daemon while `resync project recover` (`cli.rs`) runs in
another process. Nothing keeps the two apart: the recovery reads the journal,
decides by HEAD, and rolls back, and the installation goes on between any two of
these steps. In between the recovery goes through the other records of the directory,
which are of other checkouts. -/
namespace Resync

variable {β : Type}

/-- Where the recovery stands. -/
inductive RecoveryPlace (β : Type) where
  | waiting
  | read (t : Transaction β)
  | acting (actions : List (Action β))

/-- `installed` counts the actions of the installation that are done. -/
structure RecoveryRace (β : Type) where
  checkout : Checkout β
  installed : ℕ
  recovery : RecoveryPlace β

/-- An action on the record of another transaction, whose checkout is another one. -/
def Action.Apart (id : String) : Action β → Prop
  | .writeJournal t => t.id ≠ id
  | .removeJournal key => key ≠ id
  | .deleteRecovery _ _ => True
  | _ => False

/-- The steps of both sides at the transaction with this ID. -/
inductive RaceEvent (β : Type) (id : String) where
  /-- The next action of the installation. -/
  | install
  /-- The recovery reads the record. -/
  | read
  /-- The recovery captures the workspace and decides. -/
  | decide
  | recover
  /-- The recovery is at the record of another checkout. -/
  | elsewhere (a : Action β) (apart : a.Apart id)

/-- The actions of a recovery that has read the record and now captures the
workspace; it ends on an error. -/
def recoverRead [DecidableEq β] (env : Env β) (retention : TransactionRetention)
    (t : Transaction β) (r : Repository β) : List (Action β) :=
  match Checkout.recoverActions env retention t.id ⟨r, fun _ => some t⟩ with
  | .ok (actions, _) => actions
  | .error _ => []

/-- The recovery may still check files out. -/
def RecoveryPlace.mayCheckOut : RecoveryPlace β → Bool
  | .waiting | .read _ | .acting (.readTreeReset _ :: _) => true
  | _ => false

def RecoveryPlace.atRest : RecoveryPlace β → Bool
  | .waiting | .acting [] => true
  | _ => false

namespace RecoveryRace

/-- The daemon has made its checks. -/
def start (c : Checkout β) : RecoveryRace β := ⟨c, 0, .waiting⟩

section Steps

variable [DecidableEq β] (env env' : Env β) (retention retention' : TransactionRetention)
  (t : Transaction β) (candidate : Candidate β)

def step (w : RecoveryRace β) : RaceEvent β t.id → Option (RecoveryRace β)
  | .install =>
    ((installActions env retention t candidate)[w.installed]?).bind fun a =>
      (w.checkout.perform a).map fun c =>
        { w with checkout := c, installed := w.installed + 1 }
  | .read =>
    match w.recovery with
    | .waiting =>
      match w.checkout.transactions t.id with
      | some j => some { w with recovery := .read j }
      | none => some { w with recovery := .acting [] }
    | _ => none
  | .decide =>
    match w.recovery with
    | .read j => some { w with recovery := .acting (recoverRead env' retention' j w.checkout.repo) }
    | _ => none
  | .recover =>
    match w.recovery with
    | .acting (a :: as) =>
      (w.checkout.perform a).map fun c => { w with checkout := c, recovery := .acting as }
    | _ => none
  | .elsewhere a _ => (w.checkout.perform a).map fun c => { w with checkout := c }

/-- Both have come to their end. -/
def AtRest (w : RecoveryRace β) : Prop :=
  w.installed = (installActions env retention t candidate).length ∧ w.recovery.atRest = true

omit [DecidableEq β] in
/-- The workspace is the snapshot, or it is the candidate. -/
def Coherent (w : RecoveryRace β) : Prop :=
  captureWorkspace w.checkout.repo = some t.snapshot ∨
    captureWorkspace w.checkout.repo =
      some ⟨candidate.realHead, candidate.indexTree, candidate.workingTree⟩

omit [DecidableEq β] in
/-- The condition on the steps of the recovery. It checks the snapshot's files out
before the installation checks out the candidate's, or they are the same files; and
it reads the snapshot's index before the installation reads the candidate's, or they
are the same tree. -/
def RollsBackFirst (w : RecoveryRace β) : RaceEvent β t.id → Prop
  | .recover =>
    match w.recovery with
    | .acting (.readTreeReset _ :: _) => w.installed < 2 ∨
        ∀ p ∈ candidate.indexTree.keys, t.snapshot.workingTree.get p = candidate.workingTree.get p
    | .acting (.readTree _ :: _) =>
      w.installed < 3 ∨ t.snapshot.indexTree = candidate.indexTree
    | _ => True
  | _ => True

omit [DecidableEq β] in
/-- The condition on the candidate: it is an image of itself on this checkout, or it
is the snapshot as far as the index goes. -/
def ImageOfItself (t : Transaction β) (candidate : Candidate β) (r : Repository β) : Prop :=
  LayersFit r candidate ∨
    candidate.realHead = t.snapshot.head ∧ candidate.indexTree = t.snapshot.indexTree ∧
      ∀ p ∈ candidate.indexTree.keys, candidate.workingTree.get p = t.snapshot.workingTree.get p

end Steps

/-- What holds whatever the order of the steps: the branch is where the installation
has put it, and the recovery has nothing to do but a rollback and bookkeeping. -/
structure OnCourse (t : Transaction β) (candidate : Candidate β) (w : RecoveryRace β) :
    Prop where
  head : w.checkout.repo.headBranch = some t.headRef
  branch : w.checkout.repo.refs (.branch t.headRef) =
    some (if w.installed < 4 then t.snapshot.head else candidate.realHead)
  unmerged : w.checkout.repo.unmerged = false
  journal : ∀ j, w.checkout.transactions t.id = some j → j.phase = .installing →
    Installing t candidate j
  read : ∀ j, w.recovery = .read j → j.phase = .installing → Installing t candidate j
  acting : ∀ as, w.recovery = .acting as → (∀ a ∈ as, a.Quiet) ∨ ∃ rest : List (Action β),
    (∀ a ∈ rest, a.Quiet) ∧ candidate.realHead ≠ t.snapshot.head ∧
      (as = .readTreeReset t.snapshot.workingTree :: .readTree t.snapshot.indexTree :: rest ∨
        as = .readTree t.snapshot.indexTree :: rest)

/-- What holds as long as the recovery rolls back first: up to its checkout the
installation finds the files of the start, then they are the candidate's, and at
the end so is the index. -/
structure Undisturbed (r : Repository β) (t : Transaction β) (candidate : Candidate β)
    (w : RecoveryRace β) : Prop where
  before : w.installed < 2 → (∀ p, w.checkout.repo.disk.files.get p = r.disk.files.get p) ∧
    (w.checkout.repo.index = t.snapshot.indexTree ∨ w.checkout.repo.index = t.snapshot.workingTree)
  files : 2 ≤ w.installed → ∀ p ∈ candidate.indexTree.keys,
    w.checkout.repo.disk.files.get p = candidate.workingTree.get p
  between : w.installed = 2 → w.recovery.mayCheckOut = true →
    w.checkout.repo.index = candidate.workingTree
  index : 3 ≤ w.installed → w.checkout.repo.index = candidate.indexTree ∨
    ∃ rest, w.recovery = .acting (.readTree t.snapshot.indexTree :: rest)

/-- A rollback that came too late shows at the end: files of the snapshot that are
not the candidate's, or its index. -/
inductive Spoiled (t : Transaction β) (candidate : Candidate β) (w : RecoveryRace β) : Prop
  where
  | files (p : Path) (as : List (Action β)) (moved : candidate.realHead ≠ t.snapshot.head)
      (installed : 2 ≤ w.installed)
      (acting : w.recovery = .acting as) (rest : ∀ a ∈ as, ∀ tree, a ≠ .readTreeReset tree)
      (indexed : p ∈ candidate.indexTree.keys)
      (file : w.checkout.repo.disk.files.get p ≠ candidate.workingTree.get p)
  | index (as : List (Action β)) (moved : candidate.realHead ≠ t.snapshot.head)
      (installed : 3 ≤ w.installed) (acting : w.recovery = .acting as)
      (rest : ∀ a ∈ as, a.Quiet) (index : w.checkout.repo.index ≠ candidate.indexTree)

/-- A file that the candidate indexes without having it, where the checkout has an
untracked one: it stays there, and is tracked from the third step on, unless a
rollback takes it away, and then it is tracked no more. -/
inductive Stray (t : Transaction β) (p : Path) (w : RecoveryRace β) : Prop
  where
  | kept (file : w.checkout.repo.disk.files.get p ≠ none)
      (indexed : p ∈ w.checkout.repo.index.keys ↔ 3 ≤ w.installed)
  | taken (rest : List (Action β)) (installed : 3 ≤ w.installed)
      (acting : w.recovery = .acting (.readTree t.snapshot.indexTree :: rest))
  | rolled (as : List (Action β)) (installed : 3 ≤ w.installed) (acting : w.recovery = .acting as)
      (rest : ∀ a ∈ as, a.Quiet) (index : p ∉ w.checkout.repo.index.keys)

end RecoveryRace

section Quiet

variable [DecidableEq β]

/-- A quiet action is seen neither in the workspace nor as an installation in
progress. -/
theorem perform_quiet {c c' : Checkout β} {a : Action β} (ha : a.Quiet)
    (hc : c.perform a = some c') (id : String) :
    SameWorkspace c.repo c'.repo ∧ (c'.transactions id = c.transactions id ∨
      ∀ j, c'.transactions id = some j → j.phase ≠ .installing) := by
  have hexecute : c.execute [a] = (c', true) := by
    rw [Checkout.execute, hc]
    rfl
  have hquiet := execute_quiet c (List.forall_mem_singleton.mpr ha) id
  rw [hexecute] at hquiet
  exact hquiet

/-- What is done to another record shows neither in the workspace nor in this record. -/
theorem perform_apart {c c' : Checkout β} {a : Action β} {id : String} (ha : a.Apart id)
    (hc : c.perform a = some c') :
    SameWorkspace c.repo c'.repo ∧ c'.transactions id = c.transactions id := by
  cases a with
  | writeJournal t =>
    obtain rfl := Option.some.inj hc
    exact ⟨SameWorkspace.refl c.repo, Function.update_of_ne (Ne.symm ha) ..⟩
  | removeJournal key =>
    obtain rfl := Option.some.inj hc
    exact ⟨SameWorkspace.refl c.repo, Function.update_of_ne (Ne.symm ha) ..⟩
  | deleteRecovery name slot =>
    obtain rfl := Option.some.inj hc
    exact ⟨SameWorkspace.setRecovery c.repo name slot none, rfl⟩
  | readTreeReset tree => exact False.elim ha
  | readTree tree => exact False.elim ha
  | updateRef branch new old => exact False.elim ha

omit [DecidableEq β] in
theorem installActions_cases {env : Env β} {retention : TransactionRetention}
    {t : Transaction β} {candidate : Candidate β} {k : ℕ} {a : Action β}
    (h : (installActions env retention t candidate)[k]? = some a) :
    k = 0 ∧ a = .writeJournal { t with phase := .installing } ∨
      k = 1 ∧ a = .readTreeReset candidate.workingTree ∨
      k = 2 ∧ a = .readTree candidate.indexTree ∨
      k = 3 ∧ a = .updateRef t.headRef candidate.realHead t.snapshot.head ∨
      4 ≤ k ∧ a.Quiet := by
  rw [installActions_eq] at h
  rcases Nat.lt_or_ge k 4 with hk | hk
  · rw [List.getElem?_append_left hk] at h
    rcases gitActions_cases h with h | h | h | h
    · exact Or.inl h
    · exact Or.inr (Or.inl h)
    · exact Or.inr (Or.inr (Or.inl h))
    · exact Or.inr (Or.inr (Or.inr (Or.inl h)))
  · have hphase : ({ t with phase := .completed, completedAt := some env.now } :
      Transaction β).phase ≠ .installing := fun h => by cases h
    rw [List.getElem?_append_right hk] at h
    refine Or.inr (Or.inr (Or.inr (Or.inr ⟨hk, ?_⟩)))
    exact finalizeTransaction_quiet env retention hphase a (List.mem_of_getElem? h)

/-- What the recovery decides: a rollback, or bookkeeping. -/
theorem recoverRead_cases (env : Env β) (retention : TransactionRetention) {t j : Transaction β}
    {candidate : Candidate β} {r : Repository β}
    (hj : j.phase = .installing → Installing t candidate j) :
    (∀ a ∈ recoverRead env retention j r, a.Quiet) ∨ ∃ rest : List (Action β),
      (∀ a ∈ rest, a.Quiet) ∧ candidate.realHead ≠ t.snapshot.head ∧
      recoverRead env retention j r =
        .readTreeReset t.snapshot.workingTree :: .readTree t.snapshot.indexTree :: rest := by
  unfold recoverRead
  by_cases hphase : j.phase = .installing
  · obtain ⟨-, hsnapshot, hcandidate⟩ := hj hphase
    simp only [Checkout.recoverActions, hphase]
    cases hcapture : captureWorkspace r with
    | none => exact Or.inl fun a ha => absurd ha List.not_mem_nil
    | some current =>
      simp only [hcandidate, hsnapshot]
      by_cases hnew : current.head = candidate.realHead
      · rw [if_pos hnew]
        exact Or.inl (finalizeTransaction_quiet env retention fun h => by cases h)
      · rw [if_neg hnew]
        by_cases hold : current.head = t.snapshot.head
        · rw [if_pos hold]
          refine Or.inr ⟨_, finalizeTransaction_quiet env retention ?_, ?_, rfl⟩
          · exact fun h => by cases h
          · rw [← hold]
            exact fun h => hnew h.symm
        · rw [if_neg hold]
          exact Or.inl fun a ha => absurd ha List.not_mem_nil
  · refine Or.inl ?_
    split
    · next actions result hactions =>
      apply recoverActions_settled _ hactions
      intro j' hj'
      rw [← Option.some.inj hj']
      exact hphase
    · exact fun a ha => absurd ha List.not_mem_nil

end Quiet

namespace RecoveryRace

variable [DecidableEq β] {env env' : Env β} {retention retention' : TransactionRetention}
  {t : Transaction β} {candidate : Candidate β} {w w' : RecoveryRace β}

omit [DecidableEq β] in
/-- What the recovery can do next. -/
theorem OnCourse.acting_cases (h : OnCourse t candidate w) {a : Action β}
    {as : List (Action β)} (hw : w.recovery = .acting (a :: as)) :
    a.Quiet ∧ (∀ b ∈ as, b.Quiet) ∨
      candidate.realHead ≠ t.snapshot.head ∧
        (a = .readTreeReset t.snapshot.workingTree ∧
            (∃ rest : List (Action β), (∀ b ∈ rest, b.Quiet) ∧
              as = .readTree t.snapshot.indexTree :: rest) ∨
          a = .readTree t.snapshot.indexTree ∧ ∀ b ∈ as, b.Quiet) := by
  rcases h.acting _ hw with hquiet | ⟨rest, hquiet, hmoved, hall | hall⟩
  · exact Or.inl (List.forall_mem_cons.mp hquiet)
  · obtain ⟨rfl, rfl⟩ := List.cons.inj hall
    exact Or.inr ⟨hmoved, Or.inl ⟨rfl, rest, hquiet, rfl⟩⟩
  · obtain ⟨rfl, rfl⟩ := List.cons.inj hall
    exact Or.inr ⟨hmoved, Or.inr ⟨rfl, hquiet⟩⟩

/-- Bookkeeping, by the installation or by the recovery. -/
theorem OnCourse.quiet (h : OnCourse t candidate w) {c : Checkout β} {a : Action β}
    (ha : a.Quiet) (hc : w.checkout.perform a = some c) :
    SameWorkspace w.checkout.repo c.repo ∧ c.repo.headBranch = some t.headRef ∧
      c.repo.refs (.branch t.headRef) = w.checkout.repo.refs (.branch t.headRef) ∧
      c.repo.unmerged = false ∧
      ∀ j, c.transactions t.id = some j → j.phase = .installing → Installing t candidate j := by
  obtain ⟨hsame, hjournal⟩ := perform_quiet ha hc t.id
  refine ⟨hsame, ?_, hsame.branches _, hsame.unmerged.trans h.unmerged, fun j hj hphase => ?_⟩
  · rw [Repository.headBranch, hsame.head]
    exact h.head
  · rcases hjournal with hkept | hquiet
    · exact h.journal j (hkept.symm.trans hj) hphase
    · exact absurd hphase (hquiet j hj)

omit [DecidableEq β] in
theorem OnCourse.elsewhere (h : OnCourse t candidate w) {c : Checkout β}
    (hsame : SameWorkspace w.checkout.repo c.repo)
    (hjournal : c.transactions t.id = w.checkout.transactions t.id) :
    OnCourse t candidate { w with checkout := c } := by
  refine ⟨?_, (hsame.branches _).trans h.branch, hsame.unmerged.trans h.unmerged,
    fun j hj => h.journal j (hjournal.symm.trans hj), h.read, h.acting⟩
  rw [Repository.headBranch, hsame.head]
  exact h.head

theorem OnCourse.step (h : OnCourse t candidate w) (hcandidate : t.candidate = some candidate)
    {e : RaceEvent β t.id}
    (hs : w.step env env' retention retention' t candidate e = some w') :
    OnCourse t candidate w' := by
  cases e with
  | install =>
    obtain ⟨a, ha, hs⟩ := Option.bind_eq_some_iff.mp hs
    obtain ⟨c, hc, rfl⟩ := Option.map_eq_some_iff.mp hs
    rcases installActions_cases ha with ⟨hk, rfl⟩ | ⟨hk, rfl⟩ | ⟨hk, rfl⟩ | ⟨hk, rfl⟩ | ⟨hk, hquiet⟩
    -- The journal now says `INSTALLING`.
    · obtain rfl := Option.some.inj hc
      have hbranch := h.branch
      rw [if_pos (by omega)] at hbranch
      refine ⟨h.head, ?_, h.unmerged, fun j hj hphase => ?_, h.read, h.acting⟩
      · rw [if_pos (show w.installed + 1 < 4 by omega)]
        exact hbranch
      · obtain rfl : { t with phase := .installing } = j := by
          have hj : Function.update w.checkout.transactions t.id _ t.id = some j := hj
          rw [Function.update_self] at hj
          exact Option.some.inj hj
        exact ⟨rfl, rfl, hcandidate⟩
    -- The first checkout, of the working tree.
    · obtain rfl := Option.some.inj hc
      have hbranch := h.branch
      rw [if_pos (by omega)] at hbranch
      refine ⟨h.head, ?_, rfl, h.journal, h.read, h.acting⟩
      rw [if_pos (show w.installed + 1 < 4 by omega)]
      exact hbranch
    -- The second checkout, of the index.
    · obtain rfl := Option.some.inj hc
      have hbranch := h.branch
      rw [if_pos (by omega)] at hbranch
      refine ⟨h.head, ?_, rfl, h.journal, h.read, h.acting⟩
      rw [if_pos (show w.installed + 1 < 4 by omega)]
      exact hbranch
    -- From here on the branch is at the candidate.
    · obtain ⟨r, hr, rfl⟩ := Option.map_eq_some_iff.mp hc
      unfold Repository.updateRef at hr
      split at hr
      · obtain rfl := Option.some.inj hr
        refine ⟨h.head, ?_, h.unmerged, h.journal, h.read, h.acting⟩
        rw [if_neg (show ¬ w.installed + 1 < 4 by omega)]
        exact Function.update_self ..
      · cases hr
    -- What follows is bookkeeping.
    · obtain ⟨-, hhead, hbranch, hunmerged, hjournal⟩ := h.quiet hquiet hc
      refine ⟨hhead, ?_, hunmerged, hjournal, h.read, h.acting⟩
      have hold := h.branch
      rw [if_neg (by omega)] at hold
      rw [if_neg (show ¬ w.installed + 1 < 4 by omega)]
      exact hbranch.trans hold
  | read =>
    simp only [RecoveryRace.step] at hs
    split at hs
    · split at hs
      · next j hj =>
        obtain rfl := Option.some.inj hs
        refine ⟨h.head, h.branch, h.unmerged, h.journal, fun j' hj' => ?_, fun as has => ?_⟩
        · obtain rfl := RecoveryPlace.read.inj hj'
          exact h.journal j hj
        · cases has
      · obtain rfl := Option.some.inj hs
        refine ⟨h.head, h.branch, h.unmerged, h.journal, fun j' hj' => ?_, fun as has => ?_⟩
        · cases hj'
        · obtain rfl := RecoveryPlace.acting.inj has
          exact Or.inl fun a ha => absurd ha List.not_mem_nil
    · cases hs
  | decide =>
    simp only [RecoveryRace.step] at hs
    split at hs
    · next j hplace =>
      obtain rfl := Option.some.inj hs
      refine ⟨h.head, h.branch, h.unmerged, h.journal, fun j' hj' => ?_, fun as has => ?_⟩
      · cases hj'
      · obtain rfl := RecoveryPlace.acting.inj has
        rcases recoverRead_cases env' retention' (h.read j hplace) with
          hquiet | ⟨rest, hquiet, hmoved, hall⟩
        · exact Or.inl hquiet
        · exact Or.inr ⟨rest, hquiet, hmoved, Or.inl hall⟩
    · cases hs
  | recover =>
    simp only [RecoveryRace.step] at hs
    split at hs
    · next a as hplace =>
      obtain ⟨c, hc, rfl⟩ := Option.map_eq_some_iff.mp hs
      have hread : ∀ j, RecoveryPlace.acting as = .read j → j.phase = .installing →
          Installing t candidate j := fun _ hj => by cases hj
      rcases h.acting_cases hplace with
        ⟨ha, hquiet⟩ | ⟨hmoved, ⟨rfl, rest, hquiet, rfl⟩ | ⟨rfl, hquiet⟩⟩
      · obtain ⟨-, hhead, hbranch, hunmerged, hjournal⟩ := h.quiet ha hc
        refine ⟨hhead, hbranch.trans h.branch, hunmerged, hjournal, hread, fun as' has => ?_⟩
        obtain rfl := RecoveryPlace.acting.inj has
        exact Or.inl hquiet
      · obtain rfl := Option.some.inj hc
        refine ⟨h.head, h.branch, rfl, h.journal, hread, fun as' has => ?_⟩
        obtain rfl := RecoveryPlace.acting.inj has
        exact Or.inr ⟨rest, hquiet, hmoved, Or.inr rfl⟩
      · obtain rfl := Option.some.inj hc
        refine ⟨h.head, h.branch, rfl, h.journal, hread, fun as' has => ?_⟩
        obtain rfl := RecoveryPlace.acting.inj has
        exact Or.inl hquiet
    · cases hs
  | elsewhere a apart =>
    obtain ⟨c, hc, rfl⟩ := Option.map_eq_some_iff.mp hs
    obtain ⟨hsame, hjournal⟩ := perform_apart apart hc
    exact h.elsewhere hsame hjournal

omit [DecidableEq β] in
theorem mayCheckOut_quiet {as : List (Action β)} (h : ∀ a ∈ as, a.Quiet) :
    ¬ (RecoveryPlace.acting as).mayCheckOut = true := by
  cases as with
  | nil => exact Bool.false_ne_true
  | cons a as =>
    have ha := h a List.mem_cons_self
    cases a with
    | readTreeReset tree => exact False.elim ha
    | _ => exact Bool.false_ne_true

omit [DecidableEq β] in
theorem captured_file {r : Repository β} (hcapture : captureWorkspace r = some t.snapshot)
    {q : Path} (hq : q ∈ t.snapshot.workingTree.keys) :
    q ∈ t.snapshot.indexTree.keys ∧ t.snapshot.workingTree.get q = r.disk.files.get q ∧
      r.disk.files.get q ≠ none := by
  have hsome := (t.snapshot.workingTree.mem_keys q).mp hq
  have hget := captured_get hcapture q
  by_cases hqi : q ∈ t.snapshot.indexTree.keys
  · rw [if_pos hqi] at hget
    exact ⟨hqi, hget, hget ▸ hsome⟩
  · rw [if_neg hqi] at hget
    exact absurd hget hsome

omit [DecidableEq β] in
/-- Checking the snapshot out where nothing has changed yet changes no file. -/
theorem snapshot_checkout {r : Repository β} (hcapture : captureWorkspace r = some t.snapshot)
    {d : Disk β} {index : Tree β} (hd : ∀ p, d.files.get p = r.disk.files.get p)
    (hindex : index = t.snapshot.indexTree ∨ index = t.snapshot.workingTree) (p : Path) :
    d.checkoutEntry index t.snapshot.workingTree p = r.disk.files.get p := by
  by_cases hp : p ∈ t.snapshot.workingTree.keys
  · rw [Disk.checkoutEntry_of_mem _ _ hp]
    exact (captured_file hcapture hp).2.1
  · have hnone := (t.snapshot.workingTree.get_eq_none_iff p).mpr hp
    rw [Disk.checkoutEntry, if_neg hp]
    split
    · next hclash =>
      rcases hclash with hi | ⟨q, hq, hcmp⟩
      · -- an indexed path without a working file had no file
        rcases hindex with rfl | rfl
        · exact (removable_of_captured hcapture hi hnone).symm
        · exact absurd hi hp
      · by_contra hfile
        have hfile' : r.disk.files.get p ≠ none := fun h => hfile h.symm
        have hsame : p = q := by
          rcases hcmp with hpq | hqp
          · exact r.disk.files.prefix_free p q hfile' (captured_file hcapture hq).2.2 hpq
          · exact (r.disk.files.prefix_free q p (captured_file hcapture hq).2.2 hfile' hqp).symm
        exact hp (hsame ▸ hq)
    · exact hd p

omit [DecidableEq β] in
/-- Checking the candidate out there leaves its files, if no untracked file is one
that it has indexed. -/
theorem candidate_checkout {r : Repository β} (hcapture : captureWorkspace r = some t.snapshot)
    (hremoved : ∀ p ∈ candidate.indexTree.keys, p ∉ candidate.workingTree.keys →
      p ∈ r.index.keys ∨ r.disk.files.get p = none) {d : Disk β} {index : Tree β}
    (hd : ∀ p, d.files.get p = r.disk.files.get p)
    (hindex : index = t.snapshot.indexTree ∨ index = t.snapshot.workingTree) {p : Path}
    (hp : p ∈ candidate.indexTree.keys) :
    d.checkoutEntry index candidate.workingTree p = candidate.workingTree.get p := by
  by_cases hw : p ∈ candidate.workingTree.keys
  · exact Disk.checkoutEntry_of_mem _ _ hw
  · rw [(candidate.workingTree.get_eq_none_iff p).mpr hw]
    by_cases hfile : d.files.get p = none
    · exact Disk.checkoutEntry_none _ hw hfile
    · -- a file that the candidate does not have was indexed, with its content
      have hold : r.disk.files.get p ≠ none := fun h => hfile ((hd p).trans h)
      have hi : p ∈ t.snapshot.indexTree.keys := by
        rw [(captureWorkspace_eq_some.mp hcapture).2.2.1]
        exact (hremoved p hp hw).resolve_right hold
      apply Disk.checkoutEntry_of_index _ hw
      rcases hindex with rfl | rfl
      · exact hi
      · rw [t.snapshot.workingTree.mem_keys, captured_get hcapture p, if_pos hi]
        exact hold

omit [DecidableEq β] in
/-- A recovery that reads or decides touches nothing. -/
theorem Undisturbed.place {r : Repository β} (h : Undisturbed r t candidate w)
    (hmay : w.recovery.mayCheckOut = true)
    (hnot : ∀ rest, w.recovery ≠ .acting (.readTree t.snapshot.indexTree :: rest))
    (place : RecoveryPlace β) : Undisturbed r t candidate { w with recovery := place } := by
  refine ⟨h.before, h.files, fun hn _ => h.between hn hmay, fun hn => Or.inl ?_⟩
  rcases h.index hn with hindex | ⟨rest, hpending⟩
  · exact hindex
  · exact absurd hpending (hnot rest)

omit [DecidableEq β] in
theorem Undisturbed.elsewhere {r : Repository β} (h : Undisturbed r t candidate w)
    {c : Checkout β} (hsame : SameWorkspace w.checkout.repo c.repo) :
    Undisturbed r t candidate { w with checkout := c } := by
  refine ⟨?_, ?_, ?_, ?_⟩
  · rw [show c.repo.index = w.checkout.repo.index from hsame.index,
      show c.repo.disk = w.checkout.repo.disk from hsame.disk]
    exact h.before
  · rw [show c.repo.disk = w.checkout.repo.disk from hsame.disk]
    exact h.files
  · rw [show c.repo.index = w.checkout.repo.index from hsame.index]
    exact h.between
  · rw [show c.repo.index = w.checkout.repo.index from hsame.index]
    exact h.index

theorem Undisturbed.step {r : Repository β} (h : Undisturbed r t candidate w)
    (hcourse : OnCourse t candidate w) (hcapture : captureWorkspace r = some t.snapshot)
    (hremoved : ∀ p ∈ candidate.indexTree.keys, p ∉ candidate.workingTree.keys →
      p ∈ r.index.keys ∨ r.disk.files.get p = none)
    {e : RaceEvent β t.id} (hok : w.RollsBackFirst t candidate e)
    (hs : w.step env env' retention retention' t candidate e = some w') :
    Undisturbed r t candidate w' := by
  cases e with
  | install =>
    obtain ⟨a, ha, hs⟩ := Option.bind_eq_some_iff.mp hs
    obtain ⟨c, hc, rfl⟩ := Option.map_eq_some_iff.mp hs
    rcases installActions_cases ha with ⟨hk, rfl⟩ | ⟨hk, rfl⟩ | ⟨hk, rfl⟩ | ⟨hk, rfl⟩ | ⟨hk, hquiet⟩
    · obtain rfl := Option.some.inj hc
      exact ⟨fun _ => h.before (by omega), fun (hn : 2 ≤ w.installed + 1) => by omega,
        fun (hn : w.installed + 1 = 2) => by omega, fun (hn : 3 ≤ w.installed + 1) => by omega⟩
    · obtain rfl := Option.some.inj hc
      obtain ⟨hfiles, hindex⟩ := h.before (by omega)
      refine ⟨fun (hn : w.installed + 1 < 2) => by omega, fun _ p hp => ?_, fun _ _ => rfl,
        fun (hn : 3 ≤ w.installed + 1) => by omega⟩
      have hget : ((w.checkout.repo.readTreeReset candidate.workingTree).disk.files.get p) =
          candidate.workingTree.get p := by
        rw [Repository.get_readTreeReset]
        exact candidate_checkout hcapture hremoved hfiles hindex hp
      exact hget
    · obtain rfl := Option.some.inj hc
      exact ⟨fun (hn : w.installed + 1 < 2) => by omega, fun _ => h.files (by omega),
        fun (hn : w.installed + 1 = 2) => by omega, fun _ => Or.inl rfl⟩
    · obtain ⟨r', hr', rfl⟩ := Option.map_eq_some_iff.mp hc
      unfold Repository.updateRef at hr'
      split at hr'
      · obtain rfl := Option.some.inj hr'
        exact ⟨fun (hn : w.installed + 1 < 2) => by omega, fun _ => h.files (by omega),
          fun (hn : w.installed + 1 = 2) => by omega, fun _ => h.index (by omega)⟩
      · cases hr'
    · have hsame := (hcourse.quiet hquiet hc).1
      refine ⟨fun (hn : w.installed + 1 < 2) => by omega, fun _ p hp => ?_,
        fun (hn : w.installed + 1 = 2) => by omega, fun _ => ?_⟩
      · rw [← h.files (by omega) p hp, ← hsame.disk]
      · rcases h.index (by omega) with hindex | hpending
        · exact Or.inl (hsame.index.trans hindex)
        · exact Or.inr hpending
  | read =>
    simp only [RecoveryRace.step] at hs
    split at hs
    · next hplace =>
      have hmay : w.recovery.mayCheckOut = true := by
        rw [hplace]
        rfl
      split at hs
      · obtain rfl := Option.some.inj hs
        exact h.place hmay (fun rest hpending => by cases hplace.symm.trans hpending) _
      · obtain rfl := Option.some.inj hs
        exact h.place hmay (fun rest hpending => by cases hplace.symm.trans hpending) _
    · cases hs
  | decide =>
    simp only [RecoveryRace.step] at hs
    split at hs
    · next j hplace =>
      have hmay : w.recovery.mayCheckOut = true := by
        rw [hplace]
        rfl
      obtain rfl := Option.some.inj hs
      exact h.place hmay (fun rest hpending => by cases hplace.symm.trans hpending) _
    · cases hs
  | recover =>
    simp only [RecoveryRace.step] at hs
    split at hs
    · next a as hplace =>
      obtain ⟨c, hc, rfl⟩ := Option.map_eq_some_iff.mp hs
      simp only [RollsBackFirst, hplace] at hok
      rcases hcourse.acting_cases hplace with
        ⟨ha, hquiet⟩ | ⟨-, ⟨rfl, rest, -, rfl⟩ | ⟨rfl, hquiet⟩⟩
      · have hsame := (hcourse.quiet ha hc).1
        refine ⟨fun hn => ?_, fun hn p hp => ?_,
          fun _ hmay => absurd hmay (mayCheckOut_quiet hquiet), fun hn => ?_⟩
        · obtain ⟨hfiles, hindex⟩ := h.before hn
          refine ⟨fun p => ?_, ?_⟩
          · rw [← hfiles p, ← hsame.disk]
          · rw [← hsame.index] at hindex
            exact hindex
        · rw [← h.files hn p hp, ← hsame.disk]
        · rcases h.index hn with hindex | ⟨rest, hpending⟩
          · exact Or.inl (hsame.index.trans hindex)
          · obtain ⟨rfl, -⟩ := List.cons.inj (RecoveryPlace.acting.inj (hplace.symm.trans hpending))
            exact absurd ha id
      · obtain rfl := Option.some.inj hc
        refine ⟨fun hn => ?_, fun hn p hp => ?_, fun _ hmay => absurd hmay Bool.false_ne_true,
          fun _ => Or.inr ⟨rest, rfl⟩⟩
        · obtain ⟨hfiles, hindex⟩ := h.before hn
          refine ⟨fun p => ?_, Or.inr rfl⟩
          have hget : (w.checkout.repo.readTreeReset t.snapshot.workingTree).disk.files.get p =
              r.disk.files.get p := by
            rw [Repository.get_readTreeReset]
            exact snapshot_checkout hcapture hfiles hindex p
          exact hget
        -- A rollback after the first checkout does no harm only where the two trees
        -- agree.
        · have hsame : t.snapshot.workingTree.get p = candidate.workingTree.get p := by
            rcases hok with hearly | hsame
            · exact absurd hn (Nat.not_le.mpr hearly)
            · exact hsame p hp
          have hget : (w.checkout.repo.readTreeReset t.snapshot.workingTree).disk.files.get p =
              candidate.workingTree.get p := by
            rw [Repository.get_readTreeReset]
            by_cases hw : p ∈ t.snapshot.workingTree.keys
            · rw [Disk.checkoutEntry_of_mem _ _ hw]
              exact hsame
            · have hnone := (t.snapshot.workingTree.get_eq_none_iff p).mpr hw
              rw [Disk.checkoutEntry_none _ hw, ← hsame, hnone]
              exact (h.files hn p hp).trans (hsame.symm.trans hnone)
          exact hget
      · obtain rfl := Option.some.inj hc
        refine ⟨fun hn => ⟨(h.before hn).1, Or.inl rfl⟩, h.files,
          fun _ hmay => absurd hmay (mayCheckOut_quiet hquiet), fun hn => Or.inl ?_⟩
        rcases hok with hearly | hsame
        · exact absurd hn (Nat.not_le.mpr hearly)
        · exact hsame
    · cases hs
  | elsewhere a apart =>
    obtain ⟨c, hc, rfl⟩ := Option.map_eq_some_iff.mp hs
    exact h.elsewhere (perform_apart apart hc).1

/-- A rollback that comes too late spoils the workspace. -/
theorem Undisturbed.spoil {r : Repository β} (h : Undisturbed r t candidate w)
    (hcourse : OnCourse t candidate w) {e : RaceEvent β t.id}
    (hlate : ¬ w.RollsBackFirst t candidate e)
    (hs : w.step env env' retention retention' t candidate e = some w') :
    Spoiled t candidate w' := by
  cases e with
  | recover =>
    simp only [RecoveryRace.step] at hs
    split at hs
    · next a as hplace =>
      obtain ⟨c, hc, rfl⟩ := Option.map_eq_some_iff.mp hs
      simp only [RollsBackFirst, hplace] at hlate
      rcases hcourse.acting_cases hplace with
        ⟨ha, -⟩ | ⟨hmoved, ⟨rfl, rest, hquiet, rfl⟩ | ⟨rfl, hquiet⟩⟩
      · cases a with
        | readTreeReset tree => exact False.elim ha
        | readTree tree => exact False.elim ha
        | _ => exact absurd trivial hlate
      · obtain rfl := Option.some.inj hc
        push Not at hlate
        obtain ⟨hn, p, hp, hdiffers⟩ := hlate
        have hrest : ∀ a ∈ Action.readTree t.snapshot.indexTree :: rest, ∀ tree,
            a ≠ .readTreeReset tree := by
          rw [List.forall_mem_cons]
          refine ⟨fun tree hreset => ?_, fun a ha tree hreset => ?_⟩
          · cases hreset
          · have hq := hquiet a ha
            rw [hreset] at hq
            exact hq
        refine .files p _ hmoved hn rfl hrest hp ?_
        have hget : (w.checkout.repo.readTreeReset t.snapshot.workingTree).disk.files.get p =
            t.snapshot.workingTree.get p := by
          rw [Repository.get_readTreeReset]
          by_cases hw : p ∈ t.snapshot.workingTree.keys
          · exact Disk.checkoutEntry_of_mem _ _ hw
          · have hnone := (t.snapshot.workingTree.get_eq_none_iff p).mpr hw
            rw [hnone]
            apply Disk.checkoutEntry_of_index _ hw
            -- the candidate's file is indexed, so the rollback removes it
            rcases (show w.installed = 2 ∨ 3 ≤ w.installed by omega) with htwo | hthree
            · have hmay : w.recovery.mayCheckOut = true := by
                rw [hplace]
                rfl
              rw [h.between htwo hmay, candidate.workingTree.mem_keys, ← hnone]
              exact hdiffers.symm
            · rcases h.index hthree with hindex | ⟨rest', hpending⟩
              · rw [hindex]
                exact hp
              · cases hplace.symm.trans hpending
        rw [show (RecoveryRace.mk _ _ _ : RecoveryRace β).checkout.repo.disk.files.get p = _
          from hget]
        exact hdiffers
      · obtain rfl := Option.some.inj hc
        push Not at hlate
        exact .index as hmoved hlate.1 rfl hquiet hlate.2
    · cases hs
  | _ => exact absurd trivial hlate

theorem perform_disk {c c' : Checkout β} {a : Action β} (ha : ∀ tree, a ≠ .readTreeReset tree)
    (hc : c.perform a = some c') : c'.repo.disk = c.repo.disk := by
  cases a with
  | readTreeReset tree => exact absurd rfl (ha tree)
  | updateRef branch new old =>
    obtain ⟨r, hr, rfl⟩ := Option.map_eq_some_iff.mp hc
    unfold Repository.updateRef at hr
    split at hr
    · obtain rfl := Option.some.inj hr
      rfl
    · cases hr
  | _ =>
    obtain rfl := Option.some.inj hc
    rfl

/-- A spoiled workspace stays so. -/
theorem Spoiled.step (h : Spoiled t candidate w) {e : RaceEvent β t.id}
    (hs : w.step env env' retention retention' t candidate e = some w') :
    Spoiled t candidate w' := by
  have hacting : ∃ as, w.recovery = .acting as := by
    cases h with
    | files p as _ _ hplace => exact ⟨as, hplace⟩
    | index as _ _ hplace => exact ⟨as, hplace⟩
  obtain ⟨as, hplace⟩ := hacting
  cases e with
  | read =>
    simp only [RecoveryRace.step, hplace] at hs
    cases hs
  | decide =>
    simp only [RecoveryRace.step, hplace] at hs
    cases hs
  | install =>
    obtain ⟨a, ha, hs⟩ := Option.bind_eq_some_iff.mp hs
    obtain ⟨c, hc, rfl⟩ := Option.map_eq_some_iff.mp hs
    cases h with
    | files p as' hmoved hn hplace' hrest hp hfile =>
      -- No checkout of the installation comes any more.
      have hreset : ∀ tree, a ≠ .readTreeReset tree := by
        rintro tree rfl
        rcases installActions_cases ha with ⟨-, h⟩ | ⟨hk, -⟩ | ⟨-, h⟩ | ⟨-, h⟩ | ⟨-, hquiet⟩
        · cases h
        · omega
        · cases h
        · cases h
        · exact hquiet
      refine .files p as' hmoved (Nat.le_succ_of_le hn) hplace' hrest hp ?_
      rw [show c.repo.disk = w.checkout.repo.disk from perform_disk hreset hc]
      exact hfile
    | index as' hmoved hn hplace' hrest hindex =>
      refine .index as' hmoved (Nat.le_succ_of_le hn) hplace' hrest ?_
      -- Past the second checkout the installation leaves the index alone.
      have hkept : c.repo.index = w.checkout.repo.index := by
        rcases installActions_cases ha with ⟨hk, -⟩ | ⟨hk, -⟩ | ⟨hk, -⟩ | ⟨-, rfl⟩ | ⟨-, hquiet⟩
        · omega
        · omega
        · omega
        · obtain ⟨r, hr, rfl⟩ := Option.map_eq_some_iff.mp hc
          unfold Repository.updateRef at hr
          split at hr
          · obtain rfl := Option.some.inj hr
            rfl
          · cases hr
        · exact (perform_quiet hquiet hc t.id).1.index
      change c.repo.index ≠ candidate.indexTree
      rw [hkept]
      exact hindex
  | recover =>
    simp only [RecoveryRace.step] at hs
    split at hs
    · next a rest hplace =>
      obtain ⟨c, hc, rfl⟩ := Option.map_eq_some_iff.mp hs
      cases h with
      | files p as' hmoved hn hplace' hrest hp hfile =>
        obtain rfl := RecoveryPlace.acting.inj (hplace.symm.trans hplace')
        obtain ⟨hreset, hrest⟩ := List.forall_mem_cons.mp hrest
        refine .files p rest hmoved hn rfl hrest hp ?_
        rw [show c.repo.disk = w.checkout.repo.disk from perform_disk hreset hc]
        exact hfile
      | index as' hmoved hn hplace' hrest hindex =>
        obtain rfl := RecoveryPlace.acting.inj (hplace.symm.trans hplace')
        obtain ⟨hquiet, hrest⟩ := List.forall_mem_cons.mp hrest
        refine .index rest hmoved hn rfl hrest ?_
        rw [show c.repo.index = w.checkout.repo.index from (perform_quiet hquiet hc t.id).1.index]
        exact hindex
    · cases hs
  | elsewhere a apart =>
    obtain ⟨c, hc, rfl⟩ := Option.map_eq_some_iff.mp hs
    have hsame := (perform_apart apart hc).1
    cases h with
    | files p as' hmoved hn hplace' hrest hp hfile =>
      refine .files p as' hmoved hn hplace' hrest hp ?_
      rw [show c.repo.disk = w.checkout.repo.disk from hsame.disk]
      exact hfile
    | index as' hmoved hn hplace' hrest hindex =>
      refine .index as' hmoved hn hplace' hrest ?_
      rw [show c.repo.index = w.checkout.repo.index from hsame.index]
      exact hindex

theorem Stray.step {p : Path} (h : Stray t p w) (hcourse : OnCourse t candidate w)
    (hp : p ∈ candidate.indexTree.keys) (hpi : p ∉ t.snapshot.indexTree.keys)
    (hcandidate : ∀ q ∈ candidate.workingTree.keys, ¬ Comparable p q)
    (hsnapshot : ∀ q ∈ t.snapshot.workingTree.keys, ¬ Comparable p q) {e : RaceEvent β t.id}
    (hs : w.step env env' retention retention' t candidate e = some w') : Stray t p w' := by
  have hnotIn : p ∉ candidate.workingTree.keys :=
    fun hw => hcandidate p hw (Or.inl (List.prefix_refl p))
  have hnotOld : p ∉ t.snapshot.workingTree.keys :=
    fun hw => hsnapshot p hw (Or.inl (List.prefix_refl p))
  cases e with
  | install =>
    obtain ⟨a, ha, hs⟩ := Option.bind_eq_some_iff.mp hs
    obtain ⟨c, hc, rfl⟩ := Option.map_eq_some_iff.mp hs
    -- From the third action on the installation leaves the index and the files alone.
    have hkeeps : 3 ≤ w.installed → c.repo.index = w.checkout.repo.index ∧
        c.repo.disk = w.checkout.repo.disk := by
      intro hn
      rcases installActions_cases ha with ⟨hk, -⟩ | ⟨hk, -⟩ | ⟨hk, -⟩ | ⟨-, rfl⟩ | ⟨-, hquiet⟩
      · omega
      · omega
      · omega
      · obtain ⟨r, hr, rfl⟩ := Option.map_eq_some_iff.mp hc
        unfold Repository.updateRef at hr
        split at hr
        · obtain rfl := Option.some.inj hr
          exact ⟨rfl, rfl⟩
        · cases hr
      · have hsame := (perform_quiet hquiet hc t.id).1
        exact ⟨hsame.index, hsame.disk⟩
    cases h with
    | kept hfile hindexed =>
      by_cases hn : 3 ≤ w.installed
      · obtain ⟨hindex, hdisk⟩ := hkeeps hn
        refine .kept ?_ ?_
        · rw [show c.repo.disk = w.checkout.repo.disk from hdisk]
          exact hfile
        · rw [show c.repo.index = w.checkout.repo.index from hindex, hindexed]
          exact ⟨Nat.le_succ_of_le, fun _ => hn⟩
      · have hout : p ∉ w.checkout.repo.index.keys := fun hin => hn (hindexed.mp hin)
        rcases installActions_cases ha with ⟨hk, rfl⟩ | ⟨hk, rfl⟩ | ⟨hk, rfl⟩ | ⟨hk, -⟩ | ⟨hk, -⟩
        · obtain rfl := Option.some.inj hc
          refine .kept hfile ⟨fun hin => absurd hin hout, fun (hn : 3 ≤ w.installed + 1) => ?_⟩
          omega
        · obtain rfl := Option.some.inj hc
          refine .kept ?_ ⟨fun hin => absurd hin hnotIn, fun (hn : 3 ≤ w.installed + 1) => ?_⟩
          · have hget : (w.checkout.repo.readTreeReset candidate.workingTree).disk.files.get p =
                w.checkout.repo.disk.files.get p := by
              rw [Repository.get_readTreeReset]
              exact Disk.checkoutEntry_of_clear _ hout hcandidate
            exact fun hnone => hfile (hget.symm.trans hnone)
          · omega
        · obtain rfl := Option.some.inj hc
          exact .kept hfile ⟨fun _ => show 3 ≤ w.installed + 1 by omega, fun _ => hp⟩
        · omega
        · omega
    | taken rest hn hplace => exact .taken rest (Nat.le_succ_of_le hn) hplace
    | rolled as hn hplace hrest hout =>
      refine .rolled as (Nat.le_succ_of_le hn) hplace hrest ?_
      rw [show c.repo.index = w.checkout.repo.index from (hkeeps hn).1]
      exact hout
  | read =>
    simp only [RecoveryRace.step] at hs
    split at hs
    · next hplace =>
      cases h with
      | kept hfile hindexed =>
        split at hs
        · obtain rfl := Option.some.inj hs
          exact .kept hfile hindexed
        · obtain rfl := Option.some.inj hs
          exact .kept hfile hindexed
      | taken rest hn hplace' => cases hplace.symm.trans hplace'
      | rolled as hn hplace' => cases hplace.symm.trans hplace'
    · cases hs
  | decide =>
    simp only [RecoveryRace.step] at hs
    split at hs
    · next hplace =>
      obtain rfl := Option.some.inj hs
      cases h with
      | kept hfile hindexed => exact .kept hfile hindexed
      | taken rest hn hplace' => cases hplace.symm.trans hplace'
      | rolled as hn hplace' => cases hplace.symm.trans hplace'
    · cases hs
  | recover =>
    simp only [RecoveryRace.step] at hs
    split at hs
    · next a as hplace =>
      obtain ⟨c, hc, rfl⟩ := Option.map_eq_some_iff.mp hs
      rcases hcourse.acting_cases hplace with
        ⟨ha, hquiet⟩ | ⟨-, ⟨rfl, rest, -, rfl⟩ | ⟨rfl, hquiet⟩⟩
      · have hsame := (perform_quiet ha hc t.id).1
        cases h with
        | kept hfile hindexed =>
          refine .kept ?_ ?_
          · rw [show c.repo.disk = w.checkout.repo.disk from hsame.disk]
            exact hfile
          · rw [show c.repo.index = w.checkout.repo.index from hsame.index]
            exact hindexed
        | taken rest hn hplace' =>
          obtain ⟨rfl, -⟩ := List.cons.inj (RecoveryPlace.acting.inj (hplace.symm.trans hplace'))
          exact absurd ha id
        | rolled as' hn hplace' hrest hout =>
          refine .rolled as hn rfl hquiet ?_
          rw [show c.repo.index = w.checkout.repo.index from hsame.index]
          exact hout
      · obtain rfl := Option.some.inj hc
        by_cases hn : 3 ≤ w.installed
        · exact .taken rest hn rfl
        · cases h with
          | kept hfile hindexed =>
            have hout : p ∉ w.checkout.repo.index.keys := fun hin => hn (hindexed.mp hin)
            refine .kept ?_ ⟨fun hin => absurd hin hnotOld, fun hn' => absurd hn' hn⟩
            have hget : (w.checkout.repo.readTreeReset t.snapshot.workingTree).disk.files.get p =
                w.checkout.repo.disk.files.get p := by
              rw [Repository.get_readTreeReset]
              exact Disk.checkoutEntry_of_clear _ hout hsnapshot
            exact fun hnone => hfile (hget.symm.trans hnone)
          | taken _ hn' => exact absurd hn' hn
          | rolled _ hn' => exact absurd hn' hn
      · obtain rfl := Option.some.inj hc
        by_cases hn : 3 ≤ w.installed
        · exact .rolled as hn rfl hquiet hpi
        · cases h with
          | kept hfile hindexed =>
            exact .kept hfile ⟨fun hin => absurd hin hpi, fun hn' => absurd hn' hn⟩
          | taken _ hn' => exact absurd hn' hn
          | rolled _ hn' => exact absurd hn' hn
    · cases hs
  | elsewhere a apart =>
    obtain ⟨c, hc, rfl⟩ := Option.map_eq_some_iff.mp hs
    have hsame := (perform_apart apart hc).1
    cases h with
    | kept hfile hindexed =>
      refine .kept ?_ ?_
      · rw [show c.repo.disk = w.checkout.repo.disk from hsame.disk]
        exact hfile
      · rw [show c.repo.index = w.checkout.repo.index from hsame.index]
        exact hindexed
    | taken rest hn hplace => exact .taken rest hn hplace
    | rolled as hn hplace hrest hout =>
      refine .rolled as hn hplace hrest ?_
      rw [show c.repo.index = w.checkout.repo.index from hsame.index]
      exact hout

omit [DecidableEq β] in
/-- A stray file keeps the workspace from being the candidate. -/
theorem Stray.incoherent {p : Path} (h : Stray t p w) (hp : p ∈ candidate.indexTree.keys)
    (hpw : p ∉ candidate.workingTree.keys) (hrest : w.recovery.atRest = true) :
    captureWorkspace w.checkout.repo ≠
      some ⟨candidate.realHead, candidate.indexTree, candidate.workingTree⟩ := by
  intro hcandidate
  have hindex : candidate.indexTree = w.checkout.repo.index :=
    (captureWorkspace_eq_some.mp hcandidate).2.2.1
  cases h with
  | kept hfile =>
    have hget := captured_get hcandidate p
    rw [if_pos hp] at hget
    exact hfile (hget.symm.trans ((candidate.workingTree.get_eq_none_iff p).mpr hpw))
  | taken rest hn hplace =>
    rw [hplace] at hrest
    cases hrest
  | rolled as hn hplace hquiet hout => exact hout (hindex ▸ hp)

omit [DecidableEq β] in
/-- At the end the branch has moved, so a spoiled workspace is neither the snapshot
nor the candidate. -/
theorem Spoiled.incoherent (h : Spoiled t candidate w) (hcourse : OnCourse t candidate w)
    (hn : 4 ≤ w.installed) : ¬ w.Coherent t candidate := by
  have hhead : w.checkout.repo.headCommit = some candidate.realHead := by
    rw [headCommit_of_headBranch hcourse.head, hcourse.branch, if_neg (by omega)]
  rintro (hsnapshot | hcandidate)
  · have hold := (captureWorkspace_eq_some.mp hsnapshot).1
    rw [hhead] at hold
    cases h with
    | files p as hmoved => exact hmoved (Option.some.inj hold)
    | index as hmoved => exact hmoved (Option.some.inj hold)
  · cases h with
    | files p as _ _ _ _ hp hfile =>
      have hget := captured_get hcandidate p
      rw [if_pos hp] at hget
      exact hfile hget.symm
    | index as _ _ _ _ hindex =>
      exact hindex (captureWorkspace_eq_some.mp hcandidate).2.2.1.symm

omit [DecidableEq β] in
theorem onCourse_start {c : Checkout β} (hcapture : captureWorkspace c.repo = some t.snapshot)
    (hhead : c.repo.headBranch = some t.headRef)
    (hjournal : ∀ j, c.transactions t.id = some j → j.phase = .preparing) :
    OnCourse t candidate (start c) := by
  obtain ⟨hcommit, hunmerged, -⟩ := captureWorkspace_eq_some.mp hcapture
  refine ⟨hhead, ?_, hunmerged, fun j hj hphase => ?_, fun j hj => ?_, fun as has => ?_⟩
  · exact (headCommit_of_headBranch hhead).symm.trans hcommit
  · rw [hjournal j hj] at hphase
    cases hphase
  · cases hj
  · cases has

omit [DecidableEq β] in
theorem undisturbed_start {c : Checkout β} (hcapture : captureWorkspace c.repo = some t.snapshot) :
    Undisturbed c.repo t candidate (start c) := by
  refine ⟨fun _ => ⟨fun _ => rfl, Or.inl ?_⟩, fun hn => ?_, fun hn => ?_, fun hn => ?_⟩
  · exact (captureWorkspace_eq_some.mp hcapture).2.2.1.symm
  · exact absurd (show 2 ≤ 0 from hn) (by decide)
  · exact absurd (show 0 = 2 from hn) (by decide)
  · exact absurd (show 3 ≤ 0 from hn) (by decide)

omit [DecidableEq β] in
theorem ImageOfItself.removed {r : Repository β} (h : ImageOfItself t candidate r)
    (hcapture : captureWorkspace r = some t.snapshot) :
    ∀ p ∈ candidate.indexTree.keys, p ∉ candidate.workingTree.keys →
      p ∈ r.index.keys ∨ r.disk.files.get p = none := by
  rcases h with hfit | ⟨-, hindex, -⟩
  · exact hfit.removed
  · intro p hp _
    left
    rw [← (captureWorkspace_eq_some.mp hcapture).2.2.1, ← hindex]
    exact hp

omit [DecidableEq β] in
/-- Where the candidate has the snapshot's head, the recovery rolls nothing back. -/
theorem OnCourse.rollsBackFirst (h : OnCourse t candidate w)
    (hhead : candidate.realHead = t.snapshot.head) (e : RaceEvent β t.id) :
    w.RollsBackFirst t candidate e := by
  cases e with
  | recover =>
    simp only [RollsBackFirst]
    split
    · next hplace =>
      rcases h.acting_cases hplace with ⟨ha, -⟩ | ⟨hmoved, -⟩
      · exact absurd ha id
      · exact absurd hhead hmoved
    · next hplace =>
      rcases h.acting_cases hplace with ⟨ha, -⟩ | ⟨hmoved, -⟩
      · exact absurd ha id
      · exact absurd hhead hmoved
    · trivial
  | _ => trivial

/-- There the index is the candidate's from the third step on. -/
theorem OnCourse.index_step (h : OnCourse t candidate w)
    (hhead : candidate.realHead = t.snapshot.head)
    (hindex : 3 ≤ w.installed → w.checkout.repo.index = candidate.indexTree)
    {e : RaceEvent β t.id} (hs : w.step env env' retention retention' t candidate e = some w') :
    3 ≤ w'.installed → w'.checkout.repo.index = candidate.indexTree := by
  cases e with
  | install =>
    obtain ⟨a, ha, hs⟩ := Option.bind_eq_some_iff.mp hs
    obtain ⟨c, hc, rfl⟩ := Option.map_eq_some_iff.mp hs
    intro (hn : 3 ≤ w.installed + 1)
    rcases installActions_cases ha with ⟨hk, -⟩ | ⟨hk, -⟩ | ⟨hk, rfl⟩ | ⟨hk, rfl⟩ | ⟨hk, hquiet⟩
    · omega
    · omega
    · obtain rfl := Option.some.inj hc
      rfl
    · obtain ⟨r, hr, rfl⟩ := Option.map_eq_some_iff.mp hc
      unfold Repository.updateRef at hr
      split at hr
      · obtain rfl := Option.some.inj hr
        exact hindex (by omega)
      · cases hr
    · have hsame := (perform_quiet hquiet hc t.id).1.index
      exact hsame.trans (hindex (by omega))
  | read =>
    simp only [RecoveryRace.step] at hs
    split at hs
    · split at hs
      · obtain rfl := Option.some.inj hs
        exact hindex
      · obtain rfl := Option.some.inj hs
        exact hindex
    · cases hs
  | decide =>
    simp only [RecoveryRace.step] at hs
    split at hs
    · obtain rfl := Option.some.inj hs
      exact hindex
    · cases hs
  | recover =>
    simp only [RecoveryRace.step] at hs
    split at hs
    · next a as hplace =>
      obtain ⟨c, hc, rfl⟩ := Option.map_eq_some_iff.mp hs
      rcases h.acting_cases hplace with ⟨ha, -⟩ | ⟨hmoved, -⟩
      · have hsame := (perform_quiet ha hc t.id).1.index
        exact fun hn => hsame.trans (hindex hn)
      · exact absurd hhead hmoved
    · cases hs
  | elsewhere a apart =>
    obtain ⟨c, hc, rfl⟩ := Option.map_eq_some_iff.mp hs
    have hsame := (perform_apart apart hc).1.index
    exact fun hn => hsame.trans (hindex hn)

omit [DecidableEq β] in
/-- Where nothing disturbs the installation, it ends with the candidate, or with
the snapshot where that is what it installs. -/
theorem Undisturbed.coherent_of_image {r : Repository β} (h : Undisturbed r t candidate w)
    (hcourse : OnCourse t candidate w) (hcapture : captureWorkspace r = some t.snapshot)
    (himage : ImageOfItself t candidate r) (hn : 4 ≤ w.installed)
    (hrest : w.recovery.atRest = true) : w.Coherent t candidate := by
  have hindex : w.checkout.repo.index = candidate.indexTree := by
    rcases h.index (by omega) with hindex | ⟨rest, hpending⟩
    · exact hindex
    · rw [hpending] at hrest
      cases hrest
  have hcommit : w.checkout.repo.headCommit = some candidate.realHead := by
    rw [headCommit_of_headBranch hcourse.head, hcourse.branch, if_neg (by omega)]
  rcases himage with hfit | ⟨hhead, hsame, hfiles⟩
  · refine Or.inr (captureWorkspace_eq_some.mpr ⟨hcommit, hcourse.unmerged, hindex.symm, ?_⟩)
    apply PathTree.ext
    intro p
    rw [get_temporaryIndex, hindex]
    by_cases hp : p ∈ candidate.indexTree.keys
    · rw [if_pos hp]
      exact (h.files (by omega) p hp).symm
    · rw [if_neg hp]
      apply (candidate.workingTree.get_eq_none_iff p).mpr
      exact fun hw => hp (hfit.indexed p hw)
  · rw [hhead] at hcommit
    rw [hsame] at hindex
    refine Or.inl (captureWorkspace_eq_some.mpr ⟨hcommit, hcourse.unmerged, hindex.symm, ?_⟩)
    apply PathTree.ext
    intro p
    rw [get_temporaryIndex, hindex, captured_get hcapture p]
    by_cases hp : p ∈ t.snapshot.indexTree.keys
    · rw [if_pos hp, if_pos hp]
      have hp' : p ∈ candidate.indexTree.keys := hsame ▸ hp
      have hget := captured_get hcapture p
      rw [if_pos hp] at hget
      exact hget.symm.trans ((hfiles p hp').symm.trans (h.files (by omega) p hp').symm)
    · rw [if_neg hp, if_neg hp]

/-- A candidate that a run has installed and left there is an image of itself: a
stray file would show. -/
theorem layersFit_of_installed {c : Checkout β} {es : List (RaceEvent β t.id)}
    (hcandidate : t.candidate = some candidate)
    (hcapture : captureWorkspace c.repo = some t.snapshot) (hcourse : OnCourse t candidate (start c))
    (hrun : Runs.run (step env env' retention retention' t candidate) (start c) es = some w)
    (hrest : w.recovery.atRest = true)
    (hcandidateIs : captureWorkspace w.checkout.repo =
      some ⟨candidate.realHead, candidate.indexTree, candidate.workingTree⟩) :
    LayersFit c.repo candidate := by
  have hindexed : ∀ p ∈ candidate.workingTree.keys, p ∈ candidate.indexTree.keys := by
    intro p hw
    by_contra hp
    have hget := captured_get hcandidateIs p
    rw [if_neg hp] at hget
    exact (candidate.workingTree.mem_keys p).mp hw hget
  refine ⟨hindexed, fun p hp hpw => ?_⟩
  by_contra hstray
  obtain ⟨hpi, hfile⟩ := not_or.mp hstray
  rw [← (captureWorkspace_eq_some.mp hcapture).2.2.1] at hpi
  have hsome := (candidate.indexTree.mem_keys p).mp hp
  have hclear : ∀ q ∈ candidate.workingTree.keys, ¬ Comparable p q := by
    intro q hq hcmp
    have hqi := (candidate.indexTree.mem_keys q).mp (hindexed q hq)
    have hsame : p = q := by
      rcases hcmp with hpq | hqp
      · exact candidate.indexTree.prefix_free p q hsome hqi hpq
      · exact (candidate.indexTree.prefix_free q p hqi hsome hqp).symm
    exact hpw (hsame ▸ hq)
  have hclearOld : ∀ q ∈ t.snapshot.workingTree.keys, ¬ Comparable p q := by
    intro q hq hcmp
    obtain ⟨hqi, -, hqfile⟩ := captured_file hcapture hq
    have hsame : p = q := by
      rcases hcmp with hpq | hqp
      · exact c.repo.disk.files.prefix_free p q hfile hqfile hpq
      · exact (c.repo.disk.files.prefix_free q p hqfile hfile hqp).symm
    exact hpi (hsame ▸ hqi)
  have hinit : OnCourse t candidate (start c) ∧ Stray t p (start c) := by
    refine ⟨hcourse, .kept hfile ⟨fun hin => ?_, fun (hn : 3 ≤ 0) => by omega⟩⟩
    rw [(captureWorkspace_eq_some.mp hcapture).2.2.1] at hpi
    exact absurd hin hpi
  have hall : Runs.Steps (step env env' retention retention' t candidate) (fun _ _ => True)
      (start c) es := Runs.Steps.of_forall (fun _ _ _ => trivial) _
  have hstep : ∀ s e s', (OnCourse t candidate s ∧ Stray t p s) → True →
      step env env' retention retention' t candidate s e = some s' →
      (OnCourse t candidate s' ∧ Stray t p s') :=
    fun _ _ _ h _ hs => ⟨h.1.step hcandidate hs, h.2.step h.1 hp hpi hclear hclearOld hs⟩
  have hend : OnCourse t candidate w ∧ Stray t p w := Runs.run_invariant hstep hinit hall hrun
  exact hend.2.incoherent hp hpw hrest hcandidateIs

/-- A workspace that ends as the snapshot has a candidate of the snapshot's head and
index, so the run has rolled nothing back, and it has installed the same files. -/
theorem image_of_snapshot {c : Checkout β} {es : List (RaceEvent β t.id)}
    (hcandidate : t.candidate = some candidate)
    (hcapture : captureWorkspace c.repo = some t.snapshot) (hcourse : OnCourse t candidate (start c))
    (hrun : Runs.run (step env env' retention retention' t candidate) (start c) es = some w)
    (hn : 4 ≤ w.installed) (hsnapshot : captureWorkspace w.checkout.repo = some t.snapshot) :
    ImageOfItself t candidate c.repo := by
  have hall : Runs.Steps (step env env' retention retention' t candidate) (fun _ _ => True)
      (start c) es := Runs.Steps.of_forall (fun _ _ _ => trivial) _
  have hend : OnCourse t candidate w :=
    Runs.run_invariant (fun _ _ _ h _ hs => h.step hcandidate hs) hcourse hall hrun
  have hhead : candidate.realHead = t.snapshot.head := by
    have hcommit := (captureWorkspace_eq_some.mp hsnapshot).1
    rw [headCommit_of_headBranch hend.head, hend.branch, if_neg (by omega)] at hcommit
    exact Option.some.inj hcommit
  have hstep : ∀ s e s', (OnCourse t candidate s ∧
        (3 ≤ s.installed → s.checkout.repo.index = candidate.indexTree)) → True →
      step env env' retention retention' t candidate s e = some s' →
      (OnCourse t candidate s' ∧
        (3 ≤ s'.installed → s'.checkout.repo.index = candidate.indexTree)) :=
    fun _ _ _ h _ hs => ⟨h.1.step hcandidate hs, h.1.index_step hhead h.2 hs⟩
  have hinit : OnCourse t candidate (start c) ∧
      (3 ≤ (start c).installed → (start c).checkout.repo.index = candidate.indexTree) :=
    ⟨hcourse, fun (hn : 3 ≤ 0) => by omega⟩
  have hindexEnd := Runs.run_invariant hstep hinit hall hrun
  have hindex : candidate.indexTree = t.snapshot.indexTree := by
    rw [(captureWorkspace_eq_some.mp hsnapshot).2.2.1]
    exact (hindexEnd.2 (by omega)).symm
  have hremoved : ∀ p ∈ candidate.indexTree.keys, p ∉ candidate.workingTree.keys →
      p ∈ c.repo.index.keys ∨ c.repo.disk.files.get p = none := by
    intro p hp _
    left
    rw [← (captureWorkspace_eq_some.mp hcapture).2.2.1, ← hindex]
    exact hp
  have hundisturbed : ∀ s e s', (OnCourse t candidate s ∧ Undisturbed c.repo t candidate s) →
      True → step env env' retention retention' t candidate s e = some s' →
      (OnCourse t candidate s' ∧ Undisturbed c.repo t candidate s') := by
    intro s e s' h _ hs
    exact ⟨h.1.step hcandidate hs,
      h.2.step h.1 hcapture hremoved (h.1.rollsBackFirst hhead e) hs⟩
  have hboth : OnCourse t candidate w ∧ Undisturbed c.repo t candidate w :=
    Runs.run_invariant hundisturbed ⟨hcourse, undisturbed_start hcapture⟩ hall hrun
  refine Or.inr ⟨hhead, hindex, fun p hp => ?_⟩
  have hget := captured_get hsnapshot p
  rw [if_pos (hindex ▸ hp), hboth.2.files (by omega) p hp] at hget
  exact hget.symm

/-- Whatever the order of the steps: when the installation and the recovery have
both come to their end, the workspace is the snapshot or the candidate exactly when
the candidate is an image of itself and the recovery, if it rolled back, rolled back
ahead of the installation. -/
theorem interleaved_recovery_is_coherent_iff (env env' : Env β)
    (retention retention' : TransactionRetention) (t : Transaction β) (candidate : Candidate β)
    (c : Checkout β) (es : List (RaceEvent β t.id)) (w : RecoveryRace β)
    (hcandidate : t.candidate = some candidate)
    (hcapture : captureWorkspace c.repo = some t.snapshot)
    (hhead : c.repo.headBranch = some t.headRef)
    (hjournal : ∀ j, c.transactions t.id = some j → j.phase = .preparing)
    (hrun : Runs.run (step env env' retention retention' t candidate) (start c) es = some w)
    (hrest : w.AtRest env retention t candidate) :
    w.Coherent t candidate ↔ ImageOfItself t candidate c.repo ∧
      Runs.Steps (step env env' retention retention' t candidate) (RollsBackFirst t candidate)
        (start c) es := by
  have hcourse0 : OnCourse t candidate (start c) := onCourse_start hcapture hhead hjournal
  have hall : Runs.Steps (step env env' retention retention' t candidate) (fun _ _ => True)
      (start c) es := Runs.Steps.of_forall (fun _ _ _ => trivial) _
  have hcourse : OnCourse t candidate w :=
    Runs.run_invariant (fun _ _ _ h _ hs => h.step hcandidate hs) hcourse0 hall hrun
  have hn : 4 ≤ w.installed := by
    rw [hrest.1, installActions, List.length_append]
    exact Nat.le_add_right 4 _
  have hinit : OnCourse t candidate (start c) ∧ Undisturbed c.repo t candidate (start c) :=
    ⟨hcourse0, undisturbed_start hcapture⟩
  have hstep : ImageOfItself t candidate c.repo → ∀ s e s',
      (OnCourse t candidate s ∧ Undisturbed c.repo t candidate s) →
      RollsBackFirst t candidate s e →
      step env env' retention retention' t candidate s e = some s' →
      (OnCourse t candidate s' ∧ Undisturbed c.repo t candidate s') := by
    intro himage s e s' h hok hs
    exact ⟨h.1.step hcandidate hs, h.2.step h.1 hcapture (himage.removed hcapture) hok hs⟩
  constructor
  · intro hcoherent
    have himage : ImageOfItself t candidate c.repo := by
      rcases hcoherent with hsnapshot | hcandidateIs
      · exact image_of_snapshot hcandidate hcapture hcourse0 hrun hn hsnapshot
      · left
        exact layersFit_of_installed hcandidate hcapture hcourse0 hrun hrest.2 hcandidateIs
    have hlate : ∀ s e s', (OnCourse t candidate s ∧ Undisturbed c.repo t candidate s) →
        ¬ RollsBackFirst t candidate s e →
        step env env' retention retention' t candidate s e = some s' →
        Spoiled t candidate s' := fun _ _ _ h hlate hs => h.2.spoil h.1 hlate hs
    refine ⟨himage, ?_⟩
    refine Runs.steps_of_unspoiled (hstep himage) hlate (fun _ _ _ h hs => h.step hs) hinit hrun ?_
    exact fun hspoiled => hspoiled.incoherent hcourse hn hcoherent
  · rintro ⟨himage, hok⟩
    have hboth : OnCourse t candidate w ∧ Undisturbed c.repo t candidate w :=
      Runs.run_invariant (hstep himage) hinit hok hrun
    exact hboth.2.coherent_of_image hcourse hcapture himage hn hrest.2

section Interleaved

/-- The recovery reads the record and decides while only the journal is written. The
installation goes on to its end, and then the recovery rolls back. -/
def rollsBackLate {id : String} : List (RaceEvent ℕ id) :=
  [.install, .read, .decide] ++ List.replicate 8 .install ++ List.replicate 7 .recover

def rollsBackEarly {id : String} : List (RaceEvent ℕ id) :=
  [.install, .read, .decide] ++ List.replicate 7 .recover ++ List.replicate 8 .install

def stagedStart : RecoveryRace ℕ := start ⟨stagedAndOther, fun _ => none⟩

instance (w : RecoveryRace ℕ) (t : Transaction ℕ) (candidate : Candidate ℕ) :
    Decidable (w.AtRest plainEnv noRetention t candidate) :=
  inferInstanceAs (Decidable (_ ∧ _))

instance (w : RecoveryRace ℕ) (t : Transaction ℕ) (candidate : Candidate ℕ) :
    Decidable (w.Coherent t candidate) :=
  inferInstanceAs (Decidable (_ ∨ _))

theorem interleaved_recovery_is_coherent_early : ∃ t candidate w,
    prepareReconciliation plainEnv stagedAndOther oldRevision newRevision = .ok (.ready t) ∧
    Runs.run (step plainEnv plainEnv noRetention noRetention t candidate) stagedStart
      rollsBackEarly = some w ∧
    w.Coherent t candidate ∧ ImageOfItself t candidate stagedAndOther ∧
    Runs.Steps (step plainEnv plainEnv noRetention noRetention t candidate)
      (RollsBackFirst t candidate) stagedStart rollsBackEarly := by
  obtain ⟨t, candidate, c', result, ht, hcandidate, -, htest⟩ :=
    exists_of_reconcilesTo ⟨stagedAndOther, fun _ => none⟩
      (fun t candidate _ _ => decide (captureWorkspace stagedAndOther = some t.snapshot ∧
        stagedAndOther.headBranch = some t.headRef) &&
        (Runs.run (step plainEnv plainEnv noRetention noRetention t candidate) stagedStart
          rollsBackEarly).any fun (w : RecoveryRace ℕ) =>
            decide (w.AtRest plainEnv noRetention t candidate ∧ w.Coherent t candidate))
      (by decide +kernel : reconcilesTo plainEnv noRetention _ oldRevision newRevision _ = true)
  obtain ⟨hstart, hend⟩ := (Bool.and_eq_true _ _).mp htest
  obtain ⟨hcapture, hhead⟩ := of_decide_eq_true hstart
  obtain ⟨w, hrun, hw⟩ := (Option.any_eq_true _ _).mp hend
  obtain ⟨hrest, hcoherent⟩ := of_decide_eq_true hw
  exact ⟨t, candidate, w, ht, hrun, hcoherent,
    (interleaved_recovery_is_coherent_iff plainEnv plainEnv noRetention noRetention t candidate
      ⟨stagedAndOther, fun _ => none⟩ rollsBackEarly w hcandidate hcapture hhead
      (fun j hj => by cases hj) hrun hrest).mp hcoherent⟩

/-- The late rollback leaves the candidate's head over the snapshot's index and
files. -/
theorem late_rollback_mixes_trees : ∃ t candidate w,
    prepareReconciliation plainEnv stagedAndOther oldRevision newRevision = .ok (.ready t) ∧
    t.candidate = some candidate ∧
    Runs.run (step plainEnv plainEnv noRetention noRetention t candidate) stagedStart
      rollsBackLate = some w ∧
    w.AtRest plainEnv noRetention t candidate ∧
    w.checkout.repo.headCommit = some candidate.realHead ∧
    w.checkout.repo.index = t.snapshot.indexTree ∧ ¬ w.Coherent t candidate := by
  obtain ⟨t, candidate, c', result, ht, hcandidate, -, htest⟩ :=
    exists_of_reconcilesTo ⟨stagedAndOther, fun _ => none⟩
      (fun t candidate _ _ =>
        (Runs.run (step plainEnv plainEnv noRetention noRetention t candidate) stagedStart
          rollsBackLate).any fun (w : RecoveryRace ℕ) =>
            decide (w.AtRest plainEnv noRetention t candidate ∧
              w.checkout.repo.headCommit = some candidate.realHead ∧
              w.checkout.repo.index = t.snapshot.indexTree ∧ ¬ w.Coherent t candidate))
      (by decide +kernel : reconcilesTo plainEnv noRetention _ oldRevision newRevision _ = true)
  obtain ⟨w, hrun, hw⟩ := (Option.any_eq_true _ _).mp htest
  exact ⟨t, candidate, w, ht, hcandidate, hrun, of_decide_eq_true hw⟩

end Interleaved

end RecoveryRace

end Resync
