import Mathlib.Algebra.Ring.Nat
import Mathlib.Data.List.Basic

/-! Numbers written with a fixed count of decimal digits, in the order of their characters. -/
namespace Decimals

section Order

variable {α : Type*} [LT α]

/-- What comes later does not count where lists of one length differ. -/
theorem append_lt_append {x y : List α} (hlength : x.length = y.length) (h : x < y)
    (s t : List α) : x ++ s < y ++ t := by
  induction x generalizing y with
  | nil =>
    rw [List.length_eq_zero_iff.mp hlength.symm] at h
    cases h
  | cons a x ih =>
    cases y with
    | nil => cases hlength
    | cons b y =>
      rw [List.cons_append, List.cons_append, List.cons_lt_cons_iff]
      rcases List.cons_lt_cons_iff.mp h with hab | ⟨hab, hxy⟩
      · exact Or.inl hab
      · exact Or.inr ⟨hab, ih (Nat.succ.inj hlength) hxy⟩

/-- Nothing is below a list of zeros of its own length. -/
theorem exists_pos_of_lt {g h : List ℕ} (hlength : g.length = h.length) (hlt : g < h) :
    ∃ n ∈ h, n ≠ 0 := by
  induction g generalizing h with
  | nil =>
    rw [List.length_eq_zero_iff.mp hlength.symm] at hlt
    cases hlt
  | cons m g ih =>
    cases h with
    | nil => cases hlength
    | cons n h =>
      rcases List.cons_lt_cons_iff.mp hlt with hmn | ⟨-, hgh⟩
      · exact ⟨n, List.mem_cons_self, Nat.ne_of_gt (Nat.zero_lt_of_lt hmn)⟩
      · obtain ⟨k, hk, hne⟩ := ih (Nat.succ.inj hlength) hgh
        exact ⟨k, List.mem_cons_of_mem n hk, hne⟩

end Order

def digit (n : ℕ) : Char := Char.ofNat (48 + n)

/-- The last digits of a number, `width` of them. -/
def digits : ℕ → ℕ → List Char
  | 0, _ => []
  | width + 1, n => digits width (n / 10) ++ [digit (n % 10)]

theorem length_digits (width n : ℕ) : (digits width n).length = width := by
  induction width generalizing n with
  | zero => rfl
  | succ width ih => rw [digits, List.length_append, ih, List.length_singleton]

theorem toNat_digit {n : ℕ} (hn : n < 10) : (digit n).toNat = 48 + n := by
  have hall : ∀ n < 10, (digit n).toNat = 48 + n := by decide
  exact hall n hn

theorem digit_lt {m n : ℕ} (hn : n < 10) (h : m < n) : digit m < digit n := by
  have hall : ∀ n < 10, ∀ m < n, digit m < digit n := by decide
  exact hall n hn m h

theorem ascii_of_mem_digits {width n : ℕ} {c : Char} (h : c ∈ digits width n) :
    c.toNat < 128 := by
  induction width generalizing n with
  | zero => exact absurd h List.not_mem_nil
  | succ width ih =>
    rw [digits] at h
    rcases List.mem_append.mp h with h | h
    · exact ih h
    · have hten : n % 10 < 10 := Nat.mod_lt n (by decide)
      rw [List.mem_singleton.mp h, toNat_digit hten]
      omega

theorem digits_lt {width m n : ℕ} (hn : n < 10 ^ width) (h : m < n) :
    digits width m < digits width n := by
  induction width generalizing m n with
  | zero => omega
  | succ width ih =>
    have hten : n % 10 < 10 := Nat.mod_lt n (by decide)
    have hhigh : n / 10 < 10 ^ width := by
      rw [Nat.pow_succ'] at hn
      omega
    rw [digits, digits]
    rcases Nat.lt_or_ge (m / 10) (n / 10) with hlt | hge
    · exact append_lt_append (by rw [length_digits, length_digits]) (ih hhigh hlt) _ _
    · have hsame : m / 10 = n / 10 := by omega
      have hlow : m % 10 < n % 10 := by omega
      rw [hsame]
      exact List.append_left_lt (List.cons_lt_cons_iff.mpr (Or.inl (digit_lt hten hlow)))

theorem digits_append (v w n : ℕ) :
    digits (v + w) n = digits v (n / 10 ^ w) ++ digits w (n % 10 ^ w) := by
  induction w generalizing n with
  | zero => rw [Nat.pow_zero, Nat.div_one, digits, List.append_nil, Nat.add_zero]
  | succ w ih =>
    have hhigh : n / 10 / 10 ^ w = n / 10 ^ (w + 1) := by
      rw [Nat.div_div_eq_div_mul, Nat.pow_succ']
    have hlow : n % 10 ^ (w + 1) / 10 = n / 10 % 10 ^ w := by
      rw [Nat.pow_succ', Nat.mod_mul_right_div_self]
    have hlast : n % 10 ^ (w + 1) % 10 = n % 10 :=
      Nat.mod_mod_of_dvd n ⟨10 ^ w, Nat.pow_succ'⟩
    rw [← Nat.add_assoc, digits, ih, hhigh, digits, hlow, hlast, List.append_assoc]

/-- A number and what follows it, written with the same count of digits. -/
theorem digits_append_lt {width m n : ℕ} (hn : n < 10 ^ width) {s t : List Char}
    (h : m < n ∨ m = n ∧ s < t) : digits width m ++ s < digits width n ++ t := by
  rcases h with h | ⟨rfl, h⟩
  · exact append_lt_append (by rw [length_digits, length_digits]) (digits_lt hn h) s t
  · exact List.append_left_lt h

/-- A sign below the digits is below a number. -/
theorem lt_digits_append {c : Char} (hc : c.toNat < 48) {width : ℕ} (n : ℕ) (s t : List Char) :
    c :: s < digits (width + 1) n ++ t := by
  have hhead : ∃ d rest, digits (width + 1) n = d :: rest ∧ 48 ≤ d.toNat := by
    induction width generalizing n with
    | zero =>
      have hten : n % 10 < 10 := Nat.mod_lt n (by decide)
      refine ⟨digit (n % 10), [], rfl, ?_⟩
      rw [toNat_digit hten]
      omega
    | succ width ih =>
      obtain ⟨d, rest, hd, hle⟩ := ih (n / 10)
      refine ⟨d, rest ++ [digit (n % 10)], ?_, hle⟩
      rw [digits, hd, List.cons_append]
  obtain ⟨d, rest, hd, hle⟩ := hhead
  rw [hd, List.cons_append, List.cons_lt_cons_iff]
  exact Or.inl (Char.lt_def.mpr (UInt32.lt_iff_toNat_lt.mpr (Nat.lt_of_lt_of_le hc hle)))

end Decimals
