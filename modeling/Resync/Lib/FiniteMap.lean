import Mathlib.Data.Finset.Basic
import Mathlib.Data.Finset.Dedup

/-! Maps with finitely many entries, given by look-up and by the finite set of
their keys. Two maps with the same look-ups are equal, and equality can be
decided. -/

/-- A partial function with a finite domain. -/
structure FiniteMap (κ β : Type*) where
  get : κ → Option β
  keys : Finset κ
  mem_keys : ∀ k, k ∈ keys ↔ get k ≠ none

namespace FiniteMap

variable {κ β : Type*}

@[ext] theorem ext {m n : FiniteMap κ β} (h : ∀ k, m.get k = n.get k) : m = n := by
  obtain ⟨get, keys, hm⟩ := m
  obtain ⟨get', keys', hn⟩ := n
  obtain rfl : get = get' := funext h
  obtain rfl : keys = keys' := Finset.ext fun k => (hm k).trans (hn k).symm
  rfl

theorem get_eq_none_iff (m : FiniteMap κ β) (k : κ) : m.get k = none ↔ k ∉ m.keys := by
  rw [m.mem_keys, not_not]

/-- The map without entries. -/
def empty : FiniteMap κ β := ⟨fun _ => none, ∅, fun k => by simp⟩

variable [DecidableEq κ]

/-- The entries that `f` gives to the keys in `support`. -/
def collect (support : Finset κ) (f : κ → Option β) : FiniteMap κ β where
  get k := if k ∈ support then f k else none
  keys := support.filter fun k => (f k).isSome
  mem_keys k := by
    rw [Finset.mem_filter, Option.isSome_iff_ne_none]
    by_cases hk : k ∈ support
    · simp only [hk, true_and, if_true]
    · simp only [hk, false_and, if_false, ne_eq, not_true_eq_false]

theorem get_collect (support : Finset κ) (f : κ → Option β) (k : κ) :
    (collect support f).get k = if k ∈ support then f k else none := rfl

/-- Outside the support nothing is lost when `f` has no entry there. -/
theorem get_collect_of_subset {support : Finset κ} {f : κ → Option β}
    (h : ∀ k, f k ≠ none → k ∈ support) (k : κ) : (collect support f).get k = f k := by
  rw [get_collect]
  by_cases hk : k ∈ support
  · rw [if_pos hk]
  · rw [if_neg hk]
    by_contra hne
    exact hk (h k (Ne.symm hne))

/-- The map with another entry at one key, or without one. -/
def set (m : FiniteMap κ β) (k : κ) (v : Option β) : FiniteMap κ β :=
  collect (insert k m.keys) (Function.update m.get k v)

@[simp] theorem get_set (m : FiniteMap κ β) (k : κ) (v : Option β) :
    (m.set k v).get = Function.update m.get k v := by
  refine funext fun j => get_collect_of_subset (fun j hj => ?_) j
  by_cases h : j = k
  · exact h ▸ Finset.mem_insert_self k m.keys
  · rw [Function.update_of_ne h] at hj
    exact Finset.mem_insert_of_mem ((m.mem_keys j).mpr hj)

def ofList (l : List (κ × β)) : FiniteMap κ β :=
  collect (l.map Prod.fst).toFinset fun k => l.lookup k

variable [DecidableEq β]

instance : DecidableEq (FiniteMap κ β) := fun m n =>
  decidable_of_iff (m.keys = n.keys ∧ ∀ k ∈ m.keys, m.get k = n.get k) (by
    constructor
    · rintro ⟨hkeys, hget⟩
      refine FiniteMap.ext fun k => ?_
      by_cases hk : k ∈ m.keys
      · exact hget k hk
      · rw [(m.get_eq_none_iff k).mpr hk, (n.get_eq_none_iff k).mpr (hkeys ▸ hk)]
    · rintro rfl
      exact ⟨rfl, fun _ _ => rfl⟩)

end FiniteMap
