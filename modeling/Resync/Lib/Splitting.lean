import Mathlib.Data.List.Infix

/-! Lists split at a separator: what stands around the first one, what a translation of the
elements does to the parts, and the parts of a list that begins another one. -/
namespace Splitting

variable {α β : Type*}

theorem intercalate_append {a : α} {parts : List (List α)} (hparts : parts ≠ [])
    (xs : List (List α)) (hxs : xs ≠ []) :
    [a].intercalate (xs ++ parts) = [a].intercalate xs ++ [a] ++ [a].intercalate parts := by
  induction xs with
  | nil => exact absurd rfl hxs
  | cons x xs ih =>
    cases xs with
    | nil =>
      rw [List.singleton_append, List.intercalate_cons_of_ne_nil hparts, List.intercalate_singleton]
    | cons y xs =>
      have hrest := ih (List.cons_ne_nil y xs)
      rw [List.cons_append, List.cons_append, List.intercalate_cons_cons, ← List.cons_append, hrest,
        List.intercalate_cons_cons]
      simp only [List.append_assoc]

section Separator

variable [BEq α] [LawfulBEq α] {a : α}

/-- What stands before the first separator is put before the first part. -/
theorem splitOn_append_of_not_mem {xs : List α} (h : a ∉ xs) (ys : List α) :
    (xs ++ ys).splitOn a = (ys.splitOn a).modifyHead (xs ++ ·) := by
  induction xs with
  | nil =>
    rw [List.nil_append]
    cases ys.splitOn a with
    | nil => rfl
    | cons part parts => rfl
  | cons x xs ih =>
    have hx : (x == a) = false := beq_eq_false_iff_ne.mpr fun he => h (he ▸ List.mem_cons_self)
    have hxs : a ∉ xs := fun hmem => h (List.mem_cons_of_mem _ hmem)
    rw [List.cons_append, List.splitOn_cons_eq_if_modifyHead, hx, ih hxs]
    cases ys.splitOn a with
    | nil => rfl
    | cons part parts => rfl

/-- A translation that keeps the separator to itself translates the parts. -/
theorem splitOn_flatMap [BEq β] [LawfulBEq β] {b : β} {f : α → List β} (hself : f a = [b])
    (hother : ∀ x, x ≠ a → b ∉ f x) (xs : List α) :
    (xs.flatMap f).splitOn b = (xs.splitOn a).map (List.flatMap f) := by
  induction xs with
  | nil => rfl
  | cons x xs ih =>
    rw [List.flatMap_cons, List.splitOn_cons_eq_if_modifyHead]
    by_cases hx : x = a
    · subst hx
      rw [hself, beq_self_eq_true, if_pos rfl, List.map_cons, ← ih]
      exact List.splitOn_append_cons_self [] (xs.flatMap f)
    · rw [splitOn_append_of_not_mem (hother x hx), ih, beq_eq_false_iff_ne.mpr hx]
      cases xs.splitOn a with
      | nil => rfl
      | cons part parts => rfl

/-- A list and a separator begin another list exactly when its parts are the first parts of
the other one, and are not all of them. -/
theorem append_separator_prefix {q k : List α} :
    q ++ [a] <+: k ↔ q.splitOn a <+: k.splitOn a ∧ q.splitOn a ≠ k.splitOn a := by
  constructor
  · rintro ⟨rest, rfl⟩
    have hsplit : (q ++ [a] ++ rest).splitOn a = q.splitOn a ++ rest.splitOn a := by
      rw [List.append_assoc]
      exact List.splitOn_append_cons_self q rest
    rw [hsplit]
    refine ⟨List.prefix_append _ _, fun he => ?_⟩
    have hnil : rest.splitOn a = [] := List.append_right_eq_self.mp he.symm
    exact List.splitOn_ne_nil a rest hnil
  · rintro ⟨⟨parts, hparts⟩, hne⟩
    have hq : [a].intercalate (q.splitOn a) = q := List.intercalate_splitOn a
    have hk : [a].intercalate (k.splitOn a) = k := List.intercalate_splitOn a
    have hmore : parts ≠ [] := by
      rintro rfl
      rw [List.append_nil] at hparts
      exact hne hparts
    rw [← hk, ← hparts, intercalate_append hmore _ (List.splitOn_ne_nil a q), hq]
    exact List.prefix_append _ _

/-- No part holds the separator. -/
theorem not_mem_part {xs part : List α} (h : part ∈ xs.splitOn a) : a ∉ part := by
  induction xs generalizing part with
  | nil =>
    rw [List.mem_singleton.mp h]
    exact List.not_mem_nil
  | cons x xs ih =>
    rw [List.splitOn_cons_eq_if_modifyHead] at h
    by_cases hx : (x == a) = true
    · rw [if_pos hx] at h
      rcases List.mem_cons.mp h with rfl | h
      · exact List.not_mem_nil
      · exact ih h
    · rw [if_neg hx] at h
      cases hparts : xs.splitOn a with
      | nil => exact absurd hparts (List.splitOn_ne_nil a xs)
      | cons first parts =>
        rw [hparts] at h ih
        rcases List.mem_cons.mp h with rfl | h
        · intro hmem
          rcases List.mem_cons.mp hmem with rfl | hmem
          · exact hx (beq_self_eq_true _)
          · exact ih List.mem_cons_self hmem
        · exact ih (List.mem_cons_of_mem _ h)

end Separator

/-- Two lists with a separator that stands in neither front have the same parts. -/
theorem append_separator_inj {x y s t : List α} {a : α} (hx : a ∉ x) (hy : a ∉ y)
    (h : x ++ a :: s = y ++ a :: t) : x = y ∧ s = t := by
  induction x generalizing y with
  | nil =>
    cases y with
    | nil => exact ⟨rfl, (List.cons.inj h).2⟩
    | cons d y => exact absurd (List.mem_cons.mpr (Or.inl (List.cons.inj h).1)) hy
  | cons c x ih =>
    cases y with
    | nil => exact absurd (List.mem_cons.mpr (Or.inl (List.cons.inj h).1.symm)) hx
    | cons d y =>
      obtain ⟨hhead, htail⟩ := List.cons.inj h
      obtain ⟨hxy, hst⟩ := ih (fun hmem => hx (List.mem_cons_of_mem _ hmem))
        (fun hmem => hy (List.mem_cons_of_mem _ hmem)) htail
      exact ⟨by rw [hhead, hxy], hst⟩

/-- The last separator of a list. -/
theorem exists_last {a : α} {xs : List α} (h : a ∈ xs) :
    ∃ front last, xs = front ++ a :: last ∧ a ∉ last := by
  obtain ⟨last, front, hsplit, hnot⟩ := List.eq_append_cons_of_mem (List.mem_reverse.mpr h)
  refine ⟨front.reverse, last.reverse, ?_, fun hmem => hnot (List.mem_reverse.mp hmem)⟩
  have hxs := congrArg List.reverse hsplit
  rw [List.reverse_reverse, List.reverse_append, List.reverse_cons, List.append_assoc,
    List.singleton_append] at hxs
  exact hxs

end Splitting
