import Mathlib.Algebra.Order.BigOperators.Group.List
import Mathlib.Algebra.Ring.Nat

/-! Lists from which some elements are removed and others replaced, in one pass that carries a
state. -/
namespace Retain

variable {σ α β : Type*}

/-- `keep` decides on one element in a state; the state goes on to the next one. -/
def retain (keep : σ → α → σ × Option β) : σ → List α → σ × List β
  | s, [] => (s, [])
  | s, a :: xs =>
    let step := keep s a
    let rest := retain keep step.1 xs
    (rest.1, step.2.toList ++ rest.2)

variable {keep : σ → α → σ × Option β}

theorem retain_cons (s : σ) (a : α) (xs : List α) : retain keep s (a :: xs) =
    ((retain keep (keep s a).1 xs).1, (keep s a).2.toList ++ (retain keep (keep s a).1 xs).2) := rfl

theorem retain_append (s : σ) (xs ys : List α) : retain keep s (xs ++ ys) =
    ((retain keep (retain keep s xs).1 ys).1,
      (retain keep s xs).2 ++ (retain keep (retain keep s xs).1 ys).2) := by
  induction xs generalizing s with
  | nil => rfl
  | cons a xs ih => rw [List.cons_append, retain_cons, retain_cons, ih, List.append_assoc]

/-- What is read off each element, before and after, is read off the list. -/
theorem flatMap_retain {γ : Type*} {view : α → List γ} {view' : β → List γ}
    (h : ∀ s a, (keep s a).2.toList.flatMap view' = view a) (s : σ) (xs : List α) :
    (retain keep s xs).2.flatMap view' = xs.flatMap view := by
  induction xs generalizing s with
  | nil => rfl
  | cons a xs ih => rw [retain_cons, List.flatMap_append, h, ih, List.flatMap_cons]

/-- A quantity of the kept elements that the state keeps account of. -/
theorem sum_retain {amount : β → ℕ} (account : σ → ℕ)
    (h : ∀ s a, ((keep s a).2.toList.map amount).sum + account s = account (keep s a).1)
    (s : σ) (xs : List α) :
    ((retain keep s xs).2.map amount).sum + account s = account (retain keep s xs).1 := by
  induction xs generalizing s with
  | nil =>
    show 0 + account s = account s
    rw [Nat.zero_add]
  | cons a xs ih =>
    have hstep := h s a
    have hrest := ih (keep s a).1
    rw [retain_cons, List.map_append, List.sum_append]
    show _ = account (retain keep (keep s a).1 xs).1
    omega

/-- A second pass keeps all that the first one kept, if it does so for each element. -/
theorem retain_retain {keep : σ → α → σ × Option α}
    (h : ∀ s a, retain keep s (keep s a).2.toList = ((keep s a).1, (keep s a).2.toList))
    (s : σ) (xs : List α) : retain keep s (retain keep s xs).2 = retain keep s xs := by
  induction xs generalizing s with
  | nil => rfl
  | cons a xs ih => rw [retain_cons, retain_append, h, ih]

end Retain
