import Mathlib.Data.Nat.Notation
import Mathlib.Logic.Function.Basic

/-! A directory of files on a disk that may lose power. What was not synced is lost then, or is
there in part: bytes of files as well as names. The names change on the disk in the order in which
they were changed, so what is left of them is the directory at some time since the last sync.

A file that is written under another name, synced and then renamed is there as a whole or not at
all, and once the directory is synced it stays. -/
namespace CrashDisk

variable {Name Byte V : Type}

structure Disk (Name Byte : Type) where
  names : Name → Option ℕ
  /-- The directory before each change since it was synced, the last one first. -/
  earlier : List (Name → Option ℕ)
  content : ℕ → List Byte
  synced : ℕ → Bool
  next : ℕ

namespace Disk

/-- The directories that a power loss may leave. -/
def views (d : Disk Name Byte) : List (Name → Option ℕ) := d.names :: d.earlier

def held (d : Disk Name Byte) (view : Name → Option ℕ) (n : Name) : Option (List Byte) :=
  (view n).map d.content

def read (d : Disk Name Byte) (n : Name) : Option (List Byte) := d.held d.names n

variable [DecidableEq Name]

omit [DecidableEq Name] in
def clear (d : Disk Name Byte) (i : ℕ) : Disk Name Byte :=
  { d with content := Function.update d.content i [], synced := Function.update d.synced i false }

def add (d : Disk Name Byte) (n : Name) : Disk Name Byte where
  names := Function.update d.names n (some d.next)
  earlier := d.names :: d.earlier
  content := Function.update d.content d.next []
  synced := Function.update d.synced d.next false
  next := d.next + 1

/-- The file is opened to be written, and is empty then. -/
def truncate (d : Disk Name Byte) (n : Name) : ℕ × Disk Name Byte :=
  match d.names n with
  | some i => (i, d.clear i)
  | none => (d.next, d.add n)

theorem truncate_names (d : Disk Name Byte) (n : Name) :
    (d.truncate n).2.names n = some (d.truncate n).1 ∧
      (d.truncate n).2.content (d.truncate n).1 = [] := by
  unfold truncate
  split
  · next i hi => exact ⟨hi, Function.update_self ..⟩
  · exact ⟨Function.update_self .., Function.update_self ..⟩

omit [DecidableEq Name] in
def append (d : Disk Name Byte) (i : ℕ) (bytes : List Byte) : Disk Name Byte :=
  { d with
    content := Function.update d.content i (d.content i ++ bytes)
    synced := Function.update d.synced i false }

omit [DecidableEq Name] in
def sync (d : Disk Name Byte) (i : ℕ) : Disk Name Byte :=
  { d with synced := Function.update d.synced i true }

def rename (d : Disk Name Byte) (a b : Name) : Option (Disk Name Byte) :=
  (d.names a).map fun i =>
    { d with
      names := Function.update (Function.update d.names a none) b (some i)
      earlier := d.names :: d.earlier }

omit [DecidableEq Name] in
def syncNames (d : Disk Name Byte) : Disk Name Byte := { d with earlier := [] }

omit [DecidableEq Name] in
/-- The power goes, and what comes back is the directory in the place `view`, or the last one if
there is none, and `left` of the files that were not synced. -/
def losePower (d : Disk Name Byte) (view : ℕ) (left : ℕ → List Byte) : Disk Name Byte :=
  { d with
    names := d.views.getD view d.names
    earlier := []
    -- a file that was not synced may have come to hold anything
    content := fun i => if d.synced i then d.content i else left i
    synced := fun _ => true }

end Disk

open Disk

/-- The documents are whole and synced in every directory that may be left, and a file under any
other name is not one of theirs. -/
structure Sound (isDocument : Name → Prop) (d : Disk Name Byte) : Prop where
  fresh : ∀ v ∈ d.views, ∀ n i, v n = some i → i < d.next
  single : ∀ v ∈ d.views, ∀ m n i, v m = some i → v n = some i → m = n
  synced : ∀ v ∈ d.views, ∀ n i, isDocument n → v n = some i → d.synced i = true
  apart : ∀ n i, ¬ isDocument n → d.names n = some i →
    ∀ v ∈ d.views, ∀ m, isDocument m → v m ≠ some i

/-- A file that is replaced as a whole: what is read, and what a power loss may bring back. -/
structure AtomicFile (V : Type) where
  current : V
  recent : List V

namespace AtomicFile

inductive Event (V : Type) where
  | replace (v : V)
  | settle
  | losePower (v : V)

def Event.isReplace : Event V → Bool
  | .replace _ => true
  | _ => false

def replace (f : AtomicFile V) (v : V) : AtomicFile V := ⟨v, f.current :: f.recent⟩

def settle (f : AtomicFile V) : AtomicFile V := { f with recent := [] }

/-- The form of a step. -/
inductive Step (f : AtomicFile V) : Event V → AtomicFile V → Prop
  | replace (v : V) : Step f (.replace v) (f.replace v)
  | settle : Step f .settle f.settle
  | losePower {v : V} (known : v ∈ f.current :: f.recent) : Step f (.losePower v) ⟨v, []⟩

/-- Several steps. -/
inductive Run : AtomicFile V → List (Event V) → AtomicFile V → Prop
  | nil (f : AtomicFile V) : Run f [] f
  | cons {f g h : AtomicFile V} {e : Event V} {es : List (Event V)} (first : Step f e g)
      (rest : Run g es h) : Run f (e :: es) h

variable {f g h : AtomicFile V} {es fs : List (Event V)}

/-- All that is known of the file is `ok`. -/
def All (ok : V → Prop) (f : AtomicFile V) : Prop := ∀ v ∈ f.current :: f.recent, ok v

theorem All.step {ok : V → Prop} {e : Event V} (hall : All ok f) (hs : Step f e g)
    (hok : ∀ v, e = .replace v → ok v) : All ok g := by
  cases hs with
  | replace v => exact List.forall_mem_cons.mpr ⟨hok v rfl, hall⟩
  | settle =>
    have hcurrent : ok f.current := hall _ List.mem_cons_self
    exact List.forall_mem_singleton.mpr hcurrent
  | losePower known => exact List.forall_mem_singleton.mpr (hall _ known)

/-- A file holds what it held, or what it was replaced by. -/
theorem All.run {ok : V → Prop} (hall : All ok f) (hr : Run f es g)
    (hok : ∀ v, .replace v ∈ es → ok v) : All ok g := by
  induction hr with
  | nil => exact hall
  | cons first _ ih =>
    refine ih (hall.step first fun v hv => hok v ?_) fun v hv => hok v (List.mem_cons_of_mem _ hv)
    rw [hv]
    exact List.mem_cons_self

/-- What is settled stays until the file is replaced. -/
theorem settled_run (hrecent : f.recent = []) (hr : Run f es g)
    (hes : ∀ e ∈ es, e.isReplace = false) : g = f := by
  induction hr with
  | nil => rfl
  | @cons f _ _ e es first _ ih =>
    obtain ⟨current, recent⟩ := f
    obtain rfl : recent = [] := hrecent
    have hrest := fun e he => hes e (List.mem_cons_of_mem _ he)
    cases first with
    | replace v => cases hes _ List.mem_cons_self
    | settle => exact ih rfl hrest
    | losePower known =>
      obtain rfl := List.mem_singleton.mp known
      exact ih rfl hrest

end AtomicFile

/-- The document `n` is the file `f`, where `text` is what the file holds of a value. -/
structure Shows (text : V → List Byte) (d : Disk Name Byte) (n : Name)
    (f : AtomicFile (Option V)) : Prop where
  current : d.read n = f.current.map text
  recent : ∀ v ∈ d.earlier, ∃ x ∈ f.current :: f.recent, d.held v n = x.map text

section Operations

variable {isDocument : Name → Prop} {text : V → List Byte} {d : Disk Name Byte} {n m : Name}
  {f : AtomicFile (Option V)} {i : ℕ}

theorem Shows.views (h : Shows text d n f) :
    ∀ v ∈ d.views, ∃ x ∈ f.current :: f.recent, d.held v n = x.map text :=
  List.forall_mem_cons.mpr ⟨⟨f.current, List.mem_cons_self, h.current⟩, h.recent⟩

/-- Nothing is known of a document but what it holds in the directories. -/
theorem Shows.congr {d' : Disk Name Byte} (h : Shows text d n f) (hread : d'.read n = d.read n)
    (hearlier : ∀ v ∈ d'.earlier, ∃ u ∈ d.views, d'.held v n = d.held u n) : Shows text d' n f where
  current := hread.trans h.current
  recent v hv := by
    obtain ⟨u, hu, heq⟩ := hearlier v hv
    rw [heq]
    exact h.views u hu

/-- A change of the bytes of a file that is none of the documents. -/
theorem held_of_apart {content : ℕ → List Byte} {bytes : List Byte} {v : Name → Option ℕ}
    (hv : v n ≠ some i) (hcontent : content = Function.update d.content i bytes) :
    (v n).map content = d.held v n := by
  rw [held]
  cases hn : v n with
  | none => rfl
  | some j =>
    have hne : j ≠ i := fun heq => hv (heq ▸ hn)
    rw [Option.map_some, Option.map_some, hcontent, Function.update_of_ne hne]

theorem Sound.write {content : ℕ → List Byte} (h : Sound isDocument d)
    (hi : ∀ v ∈ d.views, ∀ n, isDocument n → v n ≠ some i) :
    Sound isDocument { d with content, synced := Function.update d.synced i false } where
  fresh := h.fresh
  single := h.single
  synced v hv n j hn hj := by
    have hne : j ≠ i := fun heq => hi v hv n hn (heq ▸ hj)
    change Function.update d.synced i false j = true
    rw [Function.update_of_ne hne]
    exact h.synced v hv n j hn hj
  apart := h.apart

theorem Sound.append (h : Sound isDocument d) (hm : ¬ isDocument m) (hi : d.names m = some i)
    (bytes : List Byte) : Sound isDocument (d.append i bytes) :=
  h.write (h.apart m i hm hi)

theorem Shows.append (h : Shows text d n f) (hsound : Sound isDocument d) (hn : isDocument n)
    (hm : ¬ isDocument m) (hi : d.names m = some i) (bytes : List Byte) :
    Shows text (d.append i bytes) n f := by
  have hheld : ∀ v ∈ d.views, (d.append i bytes).held v n = d.held v n := fun v hv =>
    held_of_apart (hsound.apart m i hm hi v hv n hn) rfl
  refine h.congr (hheld _ List.mem_cons_self) fun v hv => ?_
  have hv : v ∈ d.views := List.mem_cons_of_mem _ hv
  exact ⟨v, hv, hheld v hv⟩

theorem Sound.sync (h : Sound isDocument d) (i : ℕ) : Sound isDocument (d.sync i) where
  fresh := h.fresh
  single := h.single
  synced _ hv n j hn hj := by
    change Function.update d.synced i true j = true
    by_cases heq : j = i
    · rw [heq, Function.update_self]
    · rw [Function.update_of_ne heq]
      exact h.synced _ hv n j hn hj
  apart := h.apart

theorem Shows.sync (h : Shows text d n f) (i : ℕ) : Shows text (d.sync i) n f :=
  ⟨h.current, h.recent⟩

theorem Sound.syncNames (h : Sound isDocument d) : Sound isDocument d.syncNames := by
  have hview : ∀ v ∈ d.syncNames.views, v ∈ d.views := by
    intro v hv
    obtain rfl := List.mem_singleton.mp hv
    exact List.mem_cons_self
  exact
    { fresh := fun v hv => h.fresh v (hview v hv)
      single := fun v hv => h.single v (hview v hv)
      synced := fun v hv => h.synced v (hview v hv)
      apart := fun n i hn hi v hv => h.apart n i hn hi v (hview v hv) }

theorem Shows.syncNames (h : Shows text d n f) : Shows text d.syncNames n f.settle where
  current := h.current
  recent _ hv := absurd hv List.not_mem_nil

section PowerLoss

theorem getD_mem {α : Type} (x : α) (l : List α) (k : ℕ) : (x :: l).getD k x ∈ x :: l := by
  rw [List.getD_eq_getElem?_getD]
  cases hk : (x :: l)[k]? with
  | none => exact List.mem_cons_self
  | some y => exact List.mem_of_getElem? hk

theorem Sound.losePower (h : Sound isDocument d) (view : ℕ) (left : ℕ → List Byte) :
    Sound isDocument (d.losePower view left) := by
  have hmem : d.views.getD view d.names ∈ d.views := getD_mem _ _ _
  have hview : ∀ v ∈ (d.losePower view left).views, v ∈ d.views := by
    intro v hv
    obtain rfl := List.mem_singleton.mp hv
    exact hmem
  exact
    { fresh := fun v hv => h.fresh v (hview v hv)
      single := fun v hv => h.single v (hview v hv)
      synced := fun _ _ _ _ _ _ => rfl
      apart := by
        intro n i hn hi v hv m hm hmi
        obtain rfl := List.mem_singleton.mp hv
        exact hn (h.single _ hmem m n i hmi hi ▸ hm) }

/-- A power loss leaves one of the values that it may bring back. -/
theorem Shows.losePower (h : Shows text d n f) (hsound : Sound isDocument d) (hn : isDocument n)
    (view : ℕ) (left : ℕ → List Byte) :
    ∃ x ∈ f.current :: f.recent, Shows text (d.losePower view left) n ⟨x, []⟩ := by
  have hmem : d.views.getD view d.names ∈ d.views := getD_mem _ _ _
  obtain ⟨x, hx, hheld⟩ := h.views _ hmem
  refine ⟨x, hx, ?_, fun v hv => absurd hv List.not_mem_nil⟩
  rw [← hheld, Disk.read, held, held]
  change (d.views.getD view d.names n).map _ = _
  cases hi : d.views.getD view d.names n with
  | none => rfl
  | some i =>
    have hsynced := hsound.synced _ hmem n i hn hi
    rw [Option.map_some, Option.map_some]
    change some (if d.synced i = true then d.content i else left i) = _
    rw [if_pos hsynced]

end PowerLoss

variable [DecidableEq Name]

theorem names_truncate (d : Disk Name Byte) (m : Name) :
    (d.truncate m).2.names m = some (d.truncate m).1 := by
  rw [truncate]
  cases hm : d.names m with
  | none => exact Function.update_self m _ _
  | some i => exact hm

theorem content_truncate (d : Disk Name Byte) (m : Name) :
    (d.truncate m).2.content (d.truncate m).1 = [] := by
  rw [truncate]
  cases d.names m with
  | none => exact Function.update_self _ _ _
  | some i => exact Function.update_self _ _ _

theorem Sound.add (h : Sound isDocument d) (hm : ¬ isDocument m) : Sound isDocument (d.add m) := by
  have hnext : ∀ v ∈ d.views, ∀ n, v n ≠ some d.next := fun v hv n hn =>
    Nat.lt_irrefl _ (h.fresh v hv n _ hn)
  have hself : (d.add m).names m = some d.next := Function.update_self m _ _
  have hold {n : Name} (hn : n ≠ m) : (d.add m).names n = d.names n :=
    Function.update_of_ne hn _ _
  have hsynced : ∀ v ∈ d.views, ∀ n i, isDocument n → v n = some i →
      (d.add m).synced i = true := by
    intro v hv n i hn hi
    have hne : i ≠ d.next := fun heq => hnext v hv n (heq ▸ hi)
    exact (Function.update_of_ne hne _ _).trans (h.synced v hv n i hn hi)
  exact
    { fresh := by
        refine List.forall_mem_cons.mpr ⟨fun n i hn => ?_, fun v hv n i hn => ?_⟩
        · by_cases heq : n = m
          · rw [heq, hself] at hn
            obtain rfl := Option.some.inj hn
            exact Nat.lt_succ_self _
          · rw [hold heq] at hn
            exact Nat.lt_succ_of_lt (h.fresh _ List.mem_cons_self n i hn)
        · exact Nat.lt_succ_of_lt (h.fresh v hv n i hn)
      single := by
        refine List.forall_mem_cons.mpr ⟨fun a b i ha hb => ?_, h.single⟩
        by_cases hame : a = m <;> by_cases hbme : b = m
        · rw [hame, hbme]
        · rw [hame, hself] at ha
          rw [hold hbme, ← ha] at hb
          exact absurd hb (hnext _ List.mem_cons_self b)
        · rw [hbme, hself] at hb
          rw [hold hame, ← hb] at ha
          exact absurd ha (hnext _ List.mem_cons_self a)
        · rw [hold hame] at ha
          rw [hold hbme] at hb
          exact h.single _ List.mem_cons_self a b i ha hb
      synced := by
        refine List.forall_mem_cons.mpr ⟨fun n i hn hi => ?_, hsynced⟩
        have hne : n ≠ m := fun heq => hm (heq ▸ hn)
        exact hsynced _ List.mem_cons_self n i hn (hold hne ▸ hi)
      apart := by
        intro n i hn hi
        have hapart : ∀ v ∈ d.views, ∀ k, isDocument k → v k ≠ some i := by
          by_cases heq : n = m
          · rw [heq, hself] at hi
            obtain rfl := Option.some.inj hi
            exact fun v hv k _ => hnext v hv k
          · exact h.apart n i hn (hold heq ▸ hi)
        refine List.forall_mem_cons.mpr ⟨fun k hk => ?_, hapart⟩
        have hne : k ≠ m := fun heq => hm (heq ▸ hk)
        rw [hold hne]
        exact hapart _ List.mem_cons_self k hk }

theorem Sound.truncate (h : Sound isDocument d) (hm : ¬ isDocument m) :
    Sound isDocument (d.truncate m).2 := by
  rw [Disk.truncate]
  cases hi : d.names m with
  | some i => exact h.write (h.apart m i hm hi)
  | none => exact h.add hm

theorem Shows.truncate (h : Shows text d n f) (hsound : Sound isDocument d) (hn : isDocument n)
    (hm : ¬ isDocument m) : Shows text (d.truncate m).2 n f := by
  rw [Disk.truncate]
  cases hi : d.names m with
  | some i =>
    have hheld : ∀ v ∈ d.views, (d.clear i).held v n = d.held v n := fun v hv =>
      held_of_apart (hsound.apart m i hm hi v hv n hn) rfl
    refine h.congr (hheld _ List.mem_cons_self) fun v hv => ?_
    have hv : v ∈ d.views := List.mem_cons_of_mem _ hv
    exact ⟨v, hv, hheld v hv⟩
  | none =>
    have hheld : ∀ v ∈ d.views, (d.add m).held v n = d.held v n := fun v hv =>
      held_of_apart (fun hnext => Nat.lt_irrefl _ (hsound.fresh v hv n _ hnext)) rfl
    refine h.congr ?_ fun v hv => ⟨v, hv, hheld v hv⟩
    have hne : n ≠ m := fun heq => hm (heq ▸ hn)
    have hname : (d.add m).names n = d.names n := Function.update_of_ne hne _ _
    calc (d.add m).held (d.add m).names n = (d.add m).held d.names n := by rw [held, held, hname]
      _ = d.held d.names n := hheld _ List.mem_cons_self

variable {d' : Disk Name Byte} {a b : Name}

theorem rename_eq_some (h : d.rename a b = some d') : ∃ i, d.names a = some i ∧
    d' = { d with
      names := Function.update (Function.update d.names a none) b (some i)
      earlier := d.names :: d.earlier } := by
  obtain ⟨i, hi, heq⟩ := Option.map_eq_some_iff.mp h
  exact ⟨i, hi, heq.symm⟩

/-- A file that is synced takes the place of a document. -/
theorem Sound.rename (h : Sound isDocument d) (hb : isDocument b)
    (hi : d.names a = some i) (hsynced : d.synced i = true) (hr : d.rename a b = some d') :
    Sound isDocument d' := by
  obtain ⟨j, hj, rfl⟩ := rename_eq_some hr
  obtain rfl := Option.some.inj (hi.symm.trans hj)
  have hview {n : Name} {k : ℕ} (hn : n ≠ b)
      (hk : Function.update (Function.update d.names a none) b (some i) n = some k) :
      n ≠ a ∧ d.names n = some k := by
    rw [Function.update_of_ne hn] at hk
    by_cases heq : n = a
    · rw [heq, Function.update_self] at hk
      cases hk
    · rw [Function.update_of_ne heq] at hk
      exact ⟨heq, hk⟩
  have hself {k : ℕ}
      (hk : Function.update (Function.update d.names a none) b (some i) b = some k) : i = k := by
    rw [Function.update_self] at hk
    exact Option.some.inj hk
  have hother {n : Name} (hna : n ≠ a) : d.names n ≠ some i := fun hn =>
    hna (h.single _ List.mem_cons_self n a i hn hi)
  exact
    { fresh := by
        refine List.forall_mem_cons.mpr ⟨fun n k hk => ?_, h.fresh⟩
        by_cases heq : n = b
        · obtain rfl := hself (heq ▸ hk)
          exact h.fresh _ List.mem_cons_self a i hi
        · exact h.fresh _ List.mem_cons_self n k (hview heq hk).2
      single := by
        refine List.forall_mem_cons.mpr ⟨fun m n k hm hn => ?_, h.single⟩
        by_cases hmb : m = b <;> by_cases hnb : n = b
        · rw [hmb, hnb]
        · obtain rfl := hself (hmb ▸ hm)
          obtain ⟨hna, hn⟩ := hview hnb hn
          exact absurd hn (hother hna)
        · obtain rfl := hself (hnb ▸ hn)
          obtain ⟨hma, hm⟩ := hview hmb hm
          exact absurd hm (hother hma)
        · exact h.single _ List.mem_cons_self m n k (hview hmb hm).2 (hview hnb hn).2
      synced := by
        refine List.forall_mem_cons.mpr ⟨fun n k hn hk => ?_, h.synced⟩
        by_cases heq : n = b
        · obtain rfl := hself (heq ▸ hk)
          exact hsynced
        · exact h.synced _ List.mem_cons_self n k hn (hview heq hk).2
      apart := by
        intro n k hn hk
        have hnb : n ≠ b := fun heq => hn (heq ▸ hb)
        obtain ⟨hna, hk⟩ := hview hnb hk
        refine List.forall_mem_cons.mpr ⟨fun m hm hmk => ?_, h.apart n k hn hk⟩
        by_cases heq : m = b
        · obtain rfl := hself (heq ▸ hmk)
          exact hother hna hk
        · exact h.apart n k hn hk _ List.mem_cons_self m hm (hview heq hmk).2 }

/-- The document is replaced. -/
theorem Shows.rename {x : V} (h : Shows text d b f) (hi : d.names a = some i)
    (hcontent : d.content i = text x) (hr : d.rename a b = some d') :
    Shows text d' b (f.replace (some x)) := by
  obtain ⟨j, hj, rfl⟩ := rename_eq_some hr
  obtain rfl := Option.some.inj (hi.symm.trans hj)
  constructor
  · change (Function.update (Function.update d.names a none) b (some i) b).map d.content = _
    rw [Function.update_self, Option.map_some, hcontent]
    rfl
  · intro v hv
    obtain ⟨x, hx, hheld⟩ := h.views v hv
    exact ⟨x, List.mem_cons_of_mem _ hx, hheld⟩

/-- The other documents stay. -/
theorem Shows.rename_of_ne (h : Shows text d n f) (hna : n ≠ a) (hnb : n ≠ b)
    (hr : d.rename a b = some d') : Shows text d' n f := by
  obtain ⟨j, hj, rfl⟩ := rename_eq_some hr
  refine h.congr ?_ fun v hv => ⟨v, hv, rfl⟩
  change (Function.update (Function.update d.names a none) b (some j) n).map d.content = _
  rw [Function.update_of_ne hnb, Function.update_of_ne hna]
  rfl

/-- The file of a name stays what it is. -/
def Keeps (d d' : Disk Name Byte) (n : Name) : Prop :=
  ∀ i, d.names n = some i →
    d'.names n = some i ∧ d'.content i = d.content i ∧ (d.synced i = true → d'.synced i = true)

omit [DecidableEq Name] in
theorem Keeps.refl (d : Disk Name Byte) (n : Name) : Keeps d d n := fun _ hi => ⟨hi, rfl, id⟩

omit [DecidableEq Name] in
theorem Keeps.write (h : Sound isDocument d) (hne : n ≠ m) (hi : d.names m = some i)
    {content : ℕ → List Byte} {bytes : List Byte} {synced : ℕ → Bool} {flag : Bool}
    (hcontent : content = Function.update d.content i bytes)
    (hsynced : synced = Function.update d.synced i flag) :
    Keeps d { d with content, synced } n := by
  intro j hj
  have hji : j ≠ i := fun heq => hne (h.single _ List.mem_cons_self n m i (heq ▸ hj) hi)
  refine ⟨hj, ?_, fun hs => ?_⟩
  · exact hcontent ▸ Function.update_of_ne hji _ _
  · exact hsynced ▸ (Function.update_of_ne hji _ _).trans hs

theorem Keeps.truncate (h : Sound isDocument d) (hne : n ≠ m) :
    Keeps d (d.truncate m).2 n := by
  rw [Disk.truncate]
  cases hi : d.names m with
  | some i => exact Keeps.write h hne hi rfl rfl
  | none =>
    intro j hj
    have hjn : j ≠ d.next := Nat.ne_of_lt (h.fresh _ List.mem_cons_self n j hj)
    exact ⟨(Function.update_of_ne hne _ _).trans hj, Function.update_of_ne hjn _ _,
      (Function.update_of_ne hjn _ _).trans⟩

theorem Keeps.rename (hna : n ≠ a) (hnb : n ≠ b) (hr : d.rename a b = some d') :
    Keeps d d' n := by
  obtain ⟨i, hi, rfl⟩ := rename_eq_some hr
  intro j hj
  refine ⟨?_, rfl, id⟩
  change Function.update (Function.update d.names a none) b (some i) n = some j
  rw [Function.update_of_ne hnb, Function.update_of_ne hna, hj]

end Operations

end CrashDisk
