import Mathlib.Data.List.Infix
import Resync.Lib.FiniteMap

/-! Trees of files: finitely many paths with content, no path above another.
A three-way merge goes path by path and takes the side that changed; where
both sides changed a file, a content merge decides. -/

section MergeEntry

variable {β : Type*} [DecidableEq β]

/-- The entry that a three-way merge leaves at one path, or `none` for a
conflict. `driver` merges contents. -/
def mergeEntry (driver : β → β → β → Option β) (base ours theirs : Option β) :
    Option (Option β) :=
  if theirs = base then some ours
  else if ours = base then some theirs
  else if ours = theirs then some ours
  else match base, ours, theirs with
    | some b, some o, some t => (driver b o t).map some
    | _, _, _ => none

variable {driver : β → β → β → Option β} {base ours theirs r : Option β}

@[simp] theorem mergeEntry_base_right (driver : β → β → β → Option β) (base ours : Option β) :
    mergeEntry driver base ours base = some ours := if_pos rfl

@[simp] theorem mergeEntry_base_left (driver : β → β → β → Option β) (base theirs : Option β) :
    mergeEntry driver base base theirs = some theirs := by
  unfold mergeEntry
  by_cases h : theirs = base
  · rw [if_pos h, h]
  · rw [if_neg h, if_pos rfl]

/-- A file that one side deletes and the merge does not reject is gone. -/
theorem mergeEntry_deleted (h : mergeEntry driver base ours none = some r) (hb : base ≠ none) :
    r = none := by
  simp only [mergeEntry, if_neg (Ne.symm hb)] at h
  by_cases ho : ours = base
  · rw [if_pos ho] at h
    exact (Option.some.inj h).symm
  · rw [if_neg ho] at h
    by_cases hn : ours = none
    · rw [if_pos hn] at h
      exact (Option.some.inj h).symm.trans hn
    · rw [if_neg hn] at h
      cases h

end MergeEntry

/-- A finite map from paths to contents in which no file is above another. -/
structure PathTree (σ β : Type*) extends FiniteMap (List σ) β where
  root : get [] = none
  prefix_free : ∀ p q, get p ≠ none → get q ≠ none → p <+: q → p = q

namespace PathTree

variable {σ β : Type*}

@[ext] theorem ext {t u : PathTree σ β} (h : ∀ p, t.get p = u.get p) : t = u := by
  obtain ⟨m, _, _⟩ := t
  obtain ⟨n, _, _⟩ := u
  obtain rfl : m = n := FiniteMap.ext h
  rfl

def empty : PathTree σ β where
  toFiniteMap := .empty
  root := rfl
  prefix_free _ _ hp := absurd rfl hp

/-- The path names a directory of the tree: files lie below it. -/
def HasBelow (t : PathTree σ β) (p : List σ) : Prop := ∃ q ∈ t.keys, p <+: q ∧ p ≠ q

instance [DecidableEq σ] (t : PathTree σ β) (p : List σ) : Decidable (t.HasBelow p) :=
  inferInstanceAs (Decidable (∃ q ∈ t.keys, _))

theorem not_hasBelow {t : PathTree σ β} {p : List σ} (h : t.get p ≠ none) : ¬ t.HasBelow p := by
  rintro ⟨q, hq, hpre, hne⟩
  exact hne (t.prefix_free p q h ((t.mem_keys q).mp hq) hpre)

/-- The tree with other contents at the same paths. -/
def mapContents {γ : Type*} (f : List σ → β → γ) (t : PathTree σ β) : PathTree σ γ where
  get p := (t.get p).map (f p)
  keys := t.keys
  mem_keys p := by rw [t.mem_keys, ne_eq, ne_eq, Option.map_eq_none_iff]
  root := by rw [t.root, Option.map_none]
  prefix_free p q hp hq :=
    t.prefix_free p q (fun h => hp (by rw [h, Option.map_none]))
      fun h => hq (by rw [h, Option.map_none])

@[simp] theorem get_mapContents {γ : Type*} (f : List σ → β → γ) (t : PathTree σ β) (p : List σ) :
    (t.mapContents f).get p = (t.get p).map (f p) := rfl

@[simp] theorem keys_mapContents {γ : Type*} (f : List σ → β → γ) (t : PathTree σ β) :
    (t.mapContents f).keys = t.keys := rfl

variable [DecidableEq σ]

instance [DecidableEq β] : DecidableEq (PathTree σ β) := fun t u =>
  decidable_of_iff (t.toFiniteMap = u.toFiniteMap)
    ⟨fun h => PathTree.ext fun p => by rw [h], fun h => by rw [h]⟩

/-- No file of the map is above another, tested on the keys. -/
def Separated (m : FiniteMap (List σ) β) : Prop :=
  [] ∉ m.keys ∧ ∀ p ∈ m.keys, ∀ q ∈ m.keys, p <+: q → p = q

instance (m : FiniteMap (List σ) β) : Decidable (Separated m) :=
  inferInstanceAs (Decidable (_ ∧ _))

/-- The tree of a map, unless one file is above another. -/
def ofMap? (m : FiniteMap (List σ) β) : Option (PathTree σ β) :=
  if h : Separated m then
    some ⟨m, (m.get_eq_none_iff []).mpr h.1, fun p q hp hq =>
      h.2 p ((m.mem_keys p).mpr hp) q ((m.mem_keys q).mpr hq)⟩
  else none

theorem ofMap?_eq_some {m : FiniteMap (List σ) β} {t : PathTree σ β} (h : ofMap? m = some t) :
    t.toFiniteMap = m := by
  unfold ofMap? at h
  split at h
  · obtain rfl := Option.some.inj h
    rfl
  · cases h

theorem ofMap?_toFiniteMap (t : PathTree σ β) : ofMap? t.toFiniteMap = some t := by
  have h : Separated t.toFiniteMap := by
    refine ⟨(t.get_eq_none_iff []).mp t.root, fun p hp q hq => ?_⟩
    exact t.prefix_free p q ((t.mem_keys p).mp hp) ((t.mem_keys q).mp hq)
  rw [ofMap?, dif_pos h]

/-- The entries of `t` at the paths in `support`. -/
def restrict (t : PathTree σ β) (support : Finset (List σ)) : PathTree σ β where
  toFiniteMap := .collect support t.get
  root := by rw [FiniteMap.get_collect, t.root, ite_self]
  prefix_free p q hp hq := by
    rw [FiniteMap.get_collect] at hp hq
    have hp' : t.get p ≠ none := fun h => hp (by rw [h, ite_self])
    have hq' : t.get q ≠ none := fun h => hq (by rw [h, ite_self])
    exact t.prefix_free p q hp' hq'

section Merge

variable [DecidableEq β]

/-- The entries of a merge, without a check for conflicts. -/
def mergedMap (driver : β → β → β → Option β) (base ours theirs : PathTree σ β) :
    FiniteMap (List σ) β :=
  .collect (base.keys ∪ ours.keys ∪ theirs.keys) fun p =>
    (mergeEntry driver (base.get p) (ours.get p) (theirs.get p)).join

/-- The three-way merge of trees. It fails when some path conflicts, also by a
file in the place of a directory. -/
def merge (driver : β → β → β → Option β) (base ours theirs : PathTree σ β) :
    Option (PathTree σ β) :=
  if ∀ p ∈ base.keys ∪ ours.keys ∪ theirs.keys,
      mergeEntry driver (base.get p) (ours.get p) (theirs.get p) ≠ none then
    ofMap? (mergedMap driver base ours theirs)
  else none

/-- A merge that succeeds is the merge of every path. -/
theorem merge_eq_some_iff {driver : β → β → β → Option β} {base ours theirs r : PathTree σ β} :
    merge driver base ours theirs = some r ↔
      ∀ p, mergeEntry driver (base.get p) (ours.get p) (theirs.get p) = some (r.get p) := by
  have houtside : ∀ p, p ∉ base.keys ∪ ours.keys ∪ theirs.keys →
      mergeEntry driver (base.get p) (ours.get p) (theirs.get p) = some none := by
    intro p hp
    simp only [Finset.mem_union, not_or] at hp
    rw [(base.get_eq_none_iff p).mpr hp.1.1, (ours.get_eq_none_iff p).mpr hp.1.2,
      (theirs.get_eq_none_iff p).mpr hp.2, mergeEntry_base_right]
  constructor
  · intro h p
    unfold merge at h
    split at h
    · next hall =>
      have hr : r.get p = (mergedMap driver base ours theirs).get p := by
        rw [← ofMap?_eq_some h]
      rw [mergedMap, FiniteMap.get_collect] at hr
      by_cases hp : p ∈ base.keys ∪ ours.keys ∪ theirs.keys
      · rw [if_pos hp] at hr
        obtain ⟨e, he⟩ := Option.ne_none_iff_exists'.mp (hall p hp)
        rw [hr, he, Option.join_some]
      · rw [hr, if_neg hp]
        exact houtside p hp
    · cases h
  · intro h
    have hall : ∀ p ∈ base.keys ∪ ours.keys ∪ theirs.keys,
        mergeEntry driver (base.get p) (ours.get p) (theirs.get p) ≠ none := fun p _ => by
      rw [h p]
      exact Option.some_ne_none _
    have hmap : mergedMap driver base ours theirs = r.toFiniteMap := by
      refine FiniteMap.ext fun p => ?_
      rw [mergedMap, FiniteMap.get_collect]
      by_cases hp : p ∈ base.keys ∪ ours.keys ∪ theirs.keys
      · rw [if_pos hp, h p, Option.join_some]
      · rw [if_neg hp]
        exact (Option.some.inj ((houtside p hp).symm.trans (h p)))
    rw [merge, if_pos hall, hmap, ofMap?_toFiniteMap]

end Merge

end PathTree
