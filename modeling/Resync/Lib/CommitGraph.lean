import Mathlib.Logic.Relation
import Mathlib.Data.List.Basic
import Mathlib.Order.Nat

/-! A history of commits is an acyclic graph of parent links. Reachability in
it is a partial order, and it is decidable because the depth of a commit
bounds every path that leaves it. -/

/-- A parent relation in which every parent is less deep than its child. -/
structure CommitGraph (C : Type*) where
  parents : C → List C
  depth : C → ℕ
  depth_lt : ∀ c p, p ∈ parents c → depth p < depth c

namespace CommitGraph

variable {C : Type*} (G : CommitGraph C)

/-- `a` is `b` or is reachable from `b` through parent links. -/
def Ancestor (a b : C) : Prop := Relation.ReflTransGen (fun x y => y ∈ G.parents x) b a

variable {G}

@[refl] theorem Ancestor.refl (a : C) : G.Ancestor a a := Relation.ReflTransGen.refl

theorem Ancestor.trans {a b c : C} (h : G.Ancestor a b) (h' : G.Ancestor b c) :
    G.Ancestor a c := Relation.ReflTransGen.trans h' h

theorem ancestor_of_mem_parents {p c : C} (h : p ∈ G.parents c) : G.Ancestor p c :=
  Relation.ReflTransGen.single h

theorem ancestor_of_parent {a p c : C} (h : p ∈ G.parents c) (ha : G.Ancestor a p) :
    G.Ancestor a c := ha.trans (ancestor_of_mem_parents h)

theorem ancestor_iff {a b : C} :
    G.Ancestor a b ↔ a = b ∨ ∃ p ∈ G.parents b, G.Ancestor a p := by
  constructor
  · intro h
    rcases Relation.ReflTransGen.cases_head h with hb | ⟨p, hp, h⟩
    · exact Or.inl hb.symm
    · exact Or.inr ⟨p, hp, h⟩
  · rintro (rfl | ⟨p, hp, h⟩)
    · exact Ancestor.refl a
    · exact ancestor_of_parent hp h

theorem Ancestor.depth_le {a b : C} (h : G.Ancestor a b) : G.depth a ≤ G.depth b := by
  induction h with
  | refl => exact le_rfl
  | tail _ hp ih => exact (G.depth_lt _ _ hp).le.trans ih

theorem Ancestor.eq_of_depth_le {a b : C} (h : G.Ancestor a b) (hd : G.depth b ≤ G.depth a) :
    a = b := by
  rcases ancestor_iff.mp h with rfl | ⟨p, hp, ha⟩
  · rfl
  · have hlt := G.depth_lt b p hp
    have hle := ha.depth_le
    omega

theorem Ancestor.antisymm {a b : C} (h : G.Ancestor a b) (h' : G.Ancestor b a) : a = b :=
  h.eq_of_depth_le h'.depth_le

theorem parent_ne {p c : C} (h : p ∈ G.parents c) : p ≠ c := by
  rintro rfl
  exact (G.depth_lt p p h).false

theorem not_ancestor_parent {p c : C} (h : p ∈ G.parents c) : ¬ G.Ancestor c p := by
  intro hc
  exact parent_ne h ((ancestor_of_mem_parents h).antisymm hc)

section Decide

variable [DecidableEq C] (G)

/-- Search for `a` along the parent links of `b`, at most `n` links deep. -/
def isAncestorWithin (a : C) : ℕ → C → Bool
  | 0, b => a == b
  | n + 1, b => a == b || (G.parents b).any (isAncestorWithin a n)

/-- `merge-base --is-ancestor a b`. -/
def isAncestor (a b : C) : Bool := G.isAncestorWithin a (G.depth b) b

theorem isAncestorWithin_iff (a : C) (n : ℕ) (b : C) (h : G.depth b ≤ n) :
    G.isAncestorWithin a n b = true ↔ G.Ancestor a b := by
  induction n generalizing b with
  | zero =>
    rw [isAncestorWithin, beq_iff_eq, ancestor_iff]
    refine ⟨Or.inl, ?_⟩
    rintro (hab | ⟨p, hp, _⟩)
    · exact hab
    · have hlt := G.depth_lt b p hp
      omega
  | succ n ih =>
    rw [isAncestorWithin, Bool.or_eq_true, beq_iff_eq, List.any_eq_true, ancestor_iff]
    refine or_congr Iff.rfl (exists_congr fun p => and_congr_right fun hp => ?_)
    have hlt := G.depth_lt b p hp
    exact ih p (by omega)

@[simp] theorem isAncestor_iff (a b : C) : G.isAncestor a b = true ↔ G.Ancestor a b :=
  G.isAncestorWithin_iff a _ b le_rfl

instance (a b : C) : Decidable (G.Ancestor a b) :=
  decidable_of_iff _ (G.isAncestor_iff a b)

theorem isAncestor_eq_false_iff (a b : C) : G.isAncestor a b = false ↔ ¬ G.Ancestor a b := by
  rw [← isAncestor_iff, Bool.not_eq_true]

end Decide

end CommitGraph
