import Mathlib.Algebra.Order.Ring.Nat

/-! Fields written one after the other, each behind its length in a fixed number of bytes. -/
namespace Framing

/-- The last `w` bytes of a number, the most significant one first. -/
def bigEndian : ℕ → ℕ → List UInt8
  | 0, _ => []
  | w + 1, n => bigEndian w (n / 256) ++ [UInt8.ofNat (n % 256)]

@[simp] theorem length_bigEndian (w n : ℕ) : (bigEndian w n).length = w := by
  induction w generalizing n with
  | zero => rfl
  | succ w ih => rw [bigEndian, List.length_append, ih, List.length_singleton]

theorem bigEndian_injective {w m n : ℕ} (hm : m < 256 ^ w) (hn : n < 256 ^ w)
    (h : bigEndian w m = bigEndian w n) : m = n := by
  induction w generalizing m n with
  | zero =>
    rw [pow_zero] at hm hn
    omega
  | succ w ih =>
    have hlengths : (bigEndian w (m / 256)).length = (bigEndian w (n / 256)).length := by
      rw [length_bigEndian, length_bigEndian]
    obtain ⟨hhigh, hlow⟩ := List.append_inj h hlengths
    have hlast : m % 256 = n % 256 := by
      have hnat := congrArg UInt8.toNat (List.cons.inj hlow).1
      rw [UInt8.toNat_ofNat', UInt8.toNat_ofNat'] at hnat
      omega
    rw [pow_succ] at hm hn
    have hfirst : m / 256 = n / 256 := ih (by omega) (by omega) hhigh
    omega

/-- Each field behind its length in `w` bytes. -/
def frame (w : ℕ) (fields : List (List UInt8)) : List UInt8 :=
  fields.flatMap fun field => bigEndian w field.length ++ field

theorem frame_cons (w : ℕ) (field : List UInt8) (fields : List (List UInt8)) :
    frame w (field :: fields) = bigEndian w field.length ++ (field ++ frame w fields) := by
  rw [frame, List.flatMap_cons, List.append_assoc]
  rfl

/-- The bytes determine the fields, where the lengths fit. -/
theorem frame_injective {w : ℕ} (hw : 0 < w) {fields others : List (List UInt8)}
    (hfields : ∀ field ∈ fields, field.length < 256 ^ w)
    (hothers : ∀ field ∈ others, field.length < 256 ^ w)
    (h : frame w fields = frame w others) : fields = others := by
  induction fields generalizing others with
  | nil =>
    cases others with
    | nil => rfl
    | cons other others =>
      have hlength := congrArg List.length h
      rw [frame_cons, List.length_append, length_bigEndian] at hlength
      have hzero : (frame w []).length = 0 := rfl
      omega
  | cons field fields ih =>
    cases others with
    | nil =>
      have hlength := congrArg List.length h
      rw [frame_cons, List.length_append, length_bigEndian] at hlength
      have hzero : (frame w []).length = 0 := rfl
      omega
    | cons other others =>
      rw [frame_cons, frame_cons] at h
      obtain ⟨hbytes, hrest⟩ := List.append_inj h (by simp)
      have hlength : field.length = other.length :=
        bigEndian_injective (hfields field List.mem_cons_self)
          (hothers other List.mem_cons_self) hbytes
      obtain ⟨hfield, htail⟩ := List.append_inj hrest hlength
      have hfields' := ih (fun f hf => hfields f (List.mem_cons_of_mem _ hf))
        (fun f hf => hothers f (List.mem_cons_of_mem _ hf)) htail
      rw [hfield, hfields']

end Framing
