import Mathlib.Data.List.Basic

/-! Writing through the first element of a list that a test accepts. What the
write keeps of that element it keeps of the list. -/

section ModifyFirst

variable {α : Type*} {p : α → Bool} {f : α → α}

/-- The list with `f` applied to the first element that `p` accepts. -/
def modifyFirst (p : α → Bool) (f : α → α) : List α → List α
  | [] => []
  | x :: xs => if p x then f x :: xs else x :: modifyFirst p f xs

theorem modifyFirst_of_pos {x : α} (h : p x = true) (xs : List α) :
    modifyFirst p f (x :: xs) = f x :: xs := if_pos h

theorem modifyFirst_of_neg {x : α} (h : ¬ p x = true) (xs : List α) :
    modifyFirst p f (x :: xs) = x :: modifyFirst p f xs := if_neg h

theorem modifyFirst_of_none {xs : List α} (h : xs.find? p = none) : modifyFirst p f xs = xs := by
  induction xs with
  | nil => rfl
  | cons x xs ih =>
    have hx : ¬ p x = true := List.find?_eq_none.mp h x List.mem_cons_self
    rw [modifyFirst_of_neg hx, ih ((List.find?_cons_of_neg hx).symm.trans h)]

theorem modifyFirst_congr {g : α → α} {xs : List α}
    (h : ∀ x, xs.find? p = some x → f x = g x) : modifyFirst p f xs = modifyFirst p g xs := by
  induction xs with
  | nil => rfl
  | cons x xs ih =>
    by_cases hx : p x = true
    · rw [modifyFirst_of_pos hx, modifyFirst_of_pos hx, h x (List.find?_cons_of_pos hx)]
    · rw [modifyFirst_of_neg hx, modifyFirst_of_neg hx,
        ih fun y hy => h y ((List.find?_cons_of_neg hx).trans hy)]

theorem mem_modifyFirst {xs : List α} {y : α} (h : y ∈ modifyFirst p f xs) :
    y ∈ xs ∨ ∃ x, xs.find? p = some x ∧ y = f x := by
  induction xs with
  | nil => cases h
  | cons x xs ih =>
    by_cases hx : p x = true
    · rw [modifyFirst_of_pos hx] at h
      rcases List.mem_cons.mp h with rfl | h
      · exact Or.inr ⟨x, List.find?_cons_of_pos hx, rfl⟩
      · exact Or.inl (List.mem_cons_of_mem x h)
    · rw [modifyFirst_of_neg hx] at h
      rcases List.mem_cons.mp h with rfl | h
      · exact Or.inl List.mem_cons_self
      · rcases ih h with h | ⟨z, hz, rfl⟩
        · exact Or.inl (List.mem_cons_of_mem x h)
        · exact Or.inr ⟨z, (List.find?_cons_of_neg hx).trans hz, rfl⟩

theorem mem_modifyFirst_of_find {xs : List α} {x : α} (h : xs.find? p = some x) :
    f x ∈ modifyFirst p f xs := by
  induction xs with
  | nil => cases h
  | cons y ys ih =>
    by_cases hy : p y = true
    · rw [List.find?_cons_of_pos hy] at h
      obtain rfl := Option.some.inj h
      rw [modifyFirst_of_pos hy]
      exact List.mem_cons_self
    · rw [List.find?_cons_of_neg hy] at h
      rw [modifyFirst_of_neg hy]
      exact List.mem_cons_of_mem y (ih h)

/-- What was written is found by the test if it still passes. -/
theorem find?_modifyFirst_of_find {xs : List α} {x : α} (h : xs.find? p = some x)
    (hf : p (f x) = true) : (modifyFirst p f xs).find? p = some (f x) := by
  induction xs with
  | nil => cases h
  | cons y ys ih =>
    by_cases hy : p y = true
    · rw [List.find?_cons_of_pos hy] at h
      obtain rfl := Option.some.inj h
      rw [modifyFirst_of_pos hy, List.find?_cons_of_pos hf]
    · rw [List.find?_cons_of_neg hy] at h
      rw [modifyFirst_of_neg hy, List.find?_cons_of_neg hy]
      exact ih h

/-- An element stays, or it is the one that was written. -/
theorem mem_or_mem_modifyFirst {xs : List α} {x : α} (h : x ∈ xs) :
    x ∈ modifyFirst p f xs ∨ xs.find? p = some x ∧ f x ∈ modifyFirst p f xs := by
  induction xs with
  | nil => cases h
  | cons y ys ih =>
    by_cases hy : p y = true
    · rw [modifyFirst_of_pos hy]
      rcases List.mem_cons.mp h with rfl | h
      · exact Or.inr ⟨List.find?_cons_of_pos hy, List.mem_cons_self⟩
      · exact Or.inl (List.mem_cons_of_mem _ h)
    · rw [modifyFirst_of_neg hy]
      rcases List.mem_cons.mp h with rfl | h
      · exact Or.inl List.mem_cons_self
      · rcases ih h with h | ⟨hfind, h⟩
        · exact Or.inl (List.mem_cons_of_mem y h)
        · exact Or.inr ⟨(List.find?_cons_of_neg hy).trans hfind, List.mem_cons_of_mem y h⟩

theorem map_modifyFirst {β : Type*} (key : α → β) (xs : List α)
    (hf : ∀ x, xs.find? p = some x → key (f x) = key x) :
    (modifyFirst p f xs).map key = xs.map key := by
  induction xs with
  | nil => rfl
  | cons x xs ih =>
    by_cases hx : p x = true
    · rw [modifyFirst_of_pos hx, List.map_cons, List.map_cons, hf x (List.find?_cons_of_pos hx)]
    · rw [modifyFirst_of_neg hx, List.map_cons, List.map_cons, ih]
      intro z hz
      exact hf z ((List.find?_cons_of_neg hx).trans hz)

/-- A write that makes the first element count adds what it counts for. -/
theorem perm_filterMap_modifyFirst {β : Type*} {key : α → Option β} {xs : List α} {x : α} {b : β}
    (hx : xs.find? p = some x) (hnone : key x = none) (hsome : key (f x) = some b) :
    ((modifyFirst p f xs).filterMap key).Perm (b :: xs.filterMap key) := by
  induction xs with
  | nil => cases hx
  | cons y ys ih =>
    by_cases hy : p y = true
    · rw [List.find?_cons_of_pos hy] at hx
      obtain rfl := Option.some.inj hx
      rw [modifyFirst_of_pos hy, List.filterMap_cons_some hsome, List.filterMap_cons_none hnone]
    · rw [List.find?_cons_of_neg hy] at hx
      rw [modifyFirst_of_neg hy]
      cases hkey : key y with
      | none =>
        rw [List.filterMap_cons_none hkey, List.filterMap_cons_none hkey]
        exact ih hx
      | some c =>
        rw [List.filterMap_cons_some hkey, List.filterMap_cons_some hkey]
        exact ((ih hx).cons c).trans (List.Perm.swap b c _)

/-- Only the position that the test finds first is written. -/
theorem getElem?_modifyFirst (xs : List α) (i : ℕ) :
    (modifyFirst p f xs)[i]? = if xs.findIdx? p = some i then xs[i]?.map f else xs[i]? := by
  induction xs generalizing i with
  | nil => rfl
  | cons x xs ih =>
    by_cases hx : p x = true
    · rw [modifyFirst_of_pos hx, List.findIdx?_cons, if_pos hx]
      cases i with
      | zero => rfl
      | succ i => rfl
    · rw [modifyFirst_of_neg hx, List.findIdx?_cons, if_neg hx]
      cases i with
      | zero =>
        rw [if_neg]
        · rfl
        · intro h
          obtain ⟨j, -, hj⟩ := Option.map_eq_some_iff.mp h
          cases hj
      | succ i =>
        rw [List.getElem?_cons_succ, List.getElem?_cons_succ, ih]
        refine if_congr ?_ rfl rfl
        simp only [Option.map_eq_some_iff, Nat.succ_inj, exists_eq_right]

/-- A write that a test does not see leaves the position that it finds. -/
theorem findIdx?_modifyFirst (q : α → Bool) (xs : List α)
    (hf : ∀ x, xs.find? p = some x → q (f x) = q x) :
    (modifyFirst p f xs).findIdx? q = xs.findIdx? q := by
  induction xs with
  | nil => rfl
  | cons x xs ih =>
    by_cases hx : p x = true
    · rw [modifyFirst_of_pos hx, List.findIdx?_cons, List.findIdx?_cons,
        hf x (List.find?_cons_of_pos hx)]
    · rw [modifyFirst_of_neg hx, List.findIdx?_cons, List.findIdx?_cons, ih]
      intro z hz
      exact hf z ((List.find?_cons_of_neg hx).trans hz)

/-- A write that a search by `q` does not see leaves what it finds. -/
theorem find_modifyFirst {β : Type*} (key : α → β) (q : α → Bool) (xs : List α)
    (hf : ∀ x, xs.find? p = some x → q (f x) = q x ∧ key (f x) = key x) :
    ((modifyFirst p f xs).find? q).map key = (xs.find? q).map key := by
  induction xs with
  | nil => rfl
  | cons x xs ih =>
    by_cases hx : p x = true
    · obtain ⟨hq, hkey⟩ := hf x (List.find?_cons_of_pos hx)
      rw [modifyFirst_of_pos hx, List.find?_cons, List.find?_cons, hq]
      cases q x with
      | true => exact congrArg some hkey
      | false => rfl
    · rw [modifyFirst_of_neg hx, List.find?_cons, List.find?_cons]
      cases q x with
      | true => rfl
      | false => exact ih fun z hz => hf z ((List.find?_cons_of_neg hx).trans hz)

end ModifyFirst
