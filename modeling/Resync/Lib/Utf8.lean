import Resync.Lib.Splitting

/-! White space, and the UTF-8 encoding of a text as a list of bytes: it is uniquely decodable, the
order of prefixes is that of the characters, and splitting at an ASCII character commutes with
it. -/
namespace Utf8

/-- `char::is_whitespace`, the white space of Unicode. -/
def isWhitespace (c : Char) : Bool :=
  c.toNat ∈ [0x20, 0x85, 0xA0, 0x1680, 0x2028, 0x2029, 0x202F, 0x205F, 0x3000] ||
    (9 ≤ c.toNat && c.toNat ≤ 13) || (0x2000 ≤ c.toNat && c.toNat ≤ 0x200A)

def encode (s : List Char) : List UInt8 := s.flatMap String.utf8EncodeChar

@[simp] theorem encode_nil : encode [] = [] := rfl

@[simp] theorem encode_cons (c : Char) (s : List Char) :
    encode (c :: s) = String.utf8EncodeChar c ++ encode s := List.flatMap_cons

@[simp] theorem encode_append (s t : List Char) : encode (s ++ t) = encode s ++ encode t :=
  List.flatMap_append

/-- The bytes of a string are those of its encoding. -/
theorem length_encode (s : String) : (encode s.toList).length = s.utf8ByteSize := by
  have hbytes : (encode s.toList).toByteArray = s.toByteArray := String.utf8Encode_toList
  rw [← String.size_toByteArray, ← hbytes, List.size_toByteArray]

section Decoding

/-- A character is determined by bytes that begin with its encoding. -/
theorem char_eq {c d : Char} {x y : List UInt8}
    (h : String.utf8EncodeChar c ++ x = String.utf8EncodeChar d ++ y) : c = d := by
  have hbytes := congrArg List.toByteArray h
  rw [List.toByteArray_append, List.toByteArray_append] at hbytes
  have hc := ByteArray.utf8DecodeChar?_utf8EncodeChar_append (b := x.toByteArray) (c := c)
  have hd := ByteArray.utf8DecodeChar?_utf8EncodeChar_append (b := y.toByteArray) (c := d)
  rw [hbytes, hd] at hc
  exact (Option.some.inj hc).symm

theorem encode_prefix {s t : List Char} : encode s <+: encode t ↔ s <+: t := by
  constructor
  · intro h
    induction s generalizing t with
    | nil => exact List.nil_prefix
    | cons c s ih =>
      obtain ⟨rest, hrest⟩ := h
      cases t with
      | nil =>
        have hnil : String.utf8EncodeChar c = [] := by
          rw [encode_cons, encode_nil, List.append_assoc] at hrest
          exact (List.append_eq_nil_iff.mp hrest).1
        exact absurd hnil String.utf8EncodeChar_ne_nil
      | cons d t =>
        rw [encode_cons, encode_cons, List.append_assoc] at hrest
        obtain rfl := char_eq hrest
        have htail := List.append_cancel_left hrest
        exact List.cons_prefix_cons.mpr ⟨rfl, ih ⟨rest, htail⟩⟩
  · rintro ⟨rest, rfl⟩
    rw [encode_append]
    exact List.prefix_append _ _

theorem encode_injective : Function.Injective encode := by
  intro s t h
  have hst : s <+: t := encode_prefix.mp (h ▸ List.prefix_rfl)
  have hts : t <+: s := encode_prefix.mp (h ▸ List.prefix_rfl)
  exact hst.eq_of_length_le hts.length_le

theorem encode_eq_iff {s t : String} : encode s.toList = encode t.toList ↔ s = t := by
  constructor
  · intro h
    exact String.toList_inj.mp (encode_injective h)
  · intro h
    rw [h]

end Decoding

section Ascii

theorem encodeChar_ascii {c : Char} (h : c.toNat < 128) :
    String.utf8EncodeChar c = [UInt8.ofNat c.toNat] := by
  have hle : c.val.toNat ≤ 0x7f := Nat.le_of_lt_succ h
  rw [String.utf8EncodeChar]
  simp only [hle, if_true]
  rfl

/-- Beyond ASCII every byte is at least 128. -/
theorem le_of_mem_encodeChar {c : Char} (h : 128 ≤ c.toNat) {b : UInt8}
    (hb : b ∈ String.utf8EncodeChar c) : 128 ≤ b.toNat := by
  have hgt : ¬ c.val.toNat ≤ 0x7f := Nat.not_le.mpr h
  rw [String.utf8EncodeChar] at hb
  simp only [hgt, if_false] at hb
  split at hb
  · simp only [List.mem_cons, List.not_mem_nil, or_false] at hb
    rcases hb with rfl | rfl <;> rw [UInt8.toNat_ofNat'] <;> omega
  · split at hb
    · simp only [List.mem_cons, List.not_mem_nil, or_false] at hb
      rcases hb with rfl | rfl | rfl <;> rw [UInt8.toNat_ofNat'] <;> omega
    · simp only [List.mem_cons, List.not_mem_nil, or_false] at hb
      rcases hb with rfl | rfl | rfl | rfl <;> rw [UInt8.toNat_ofNat'] <;> omega

/-- A condition on the bytes that no byte beyond ASCII meets, by characters. -/
theorem forall_mem_encode {p : UInt8 → Prop} (hp : ∀ b, p b → b.toNat < 128) {s : List Char} :
    (∀ b ∈ encode s, p b) ↔ ∀ c ∈ s, c.toNat < 128 ∧ p (UInt8.ofNat c.toNat) := by
  constructor
  · intro h c hc
    have hsub : ∀ b ∈ String.utf8EncodeChar c, p b := by
      intro b hb
      exact h b (List.mem_flatMap.mpr ⟨c, hc, hb⟩)
    have hascii : c.toNat < 128 := by
      by_contra hhigh
      obtain ⟨b, hb⟩ := List.exists_mem_of_ne_nil _ (String.utf8EncodeChar_ne_nil (c := c))
      have hle := le_of_mem_encodeChar (Nat.not_lt.mp hhigh) hb
      exact absurd (hp b (hsub b hb)) (Nat.not_lt.mpr hle)
    rw [encodeChar_ascii hascii] at hsub
    exact ⟨hascii, hsub _ (List.mem_singleton_self _)⟩
  · intro h b hb
    obtain ⟨c, hc, hb⟩ := List.mem_flatMap.mp hb
    obtain ⟨hascii, hpc⟩ := h c hc
    rw [encodeChar_ascii hascii] at hb
    rw [List.mem_singleton.mp hb]
    exact hpc

theorem ofNat_inj {m n : ℕ} (hm : m < 256) (hn : n < 256) (h : UInt8.ofNat m = UInt8.ofNat n) :
    m = n := by
  have hnat := congrArg UInt8.toNat h
  rw [UInt8.toNat_ofNat', UInt8.toNat_ofNat'] at hnat
  omega

theorem char_eq_of_toNat {c d : Char} (h : c.toNat = d.toNat) : c = d :=
  Char.ext (UInt32.toNat_inj.mp h)

/-- The byte of an ASCII character stands in the encoding of no other character. -/
theorem mem_encodeChar_ascii {a c : Char} (ha : a.toNat < 128) :
    UInt8.ofNat a.toNat ∈ String.utf8EncodeChar c ↔ c = a := by
  constructor
  · intro h
    by_cases hc : c.toNat < 128
    · rw [encodeChar_ascii hc, List.mem_singleton] at h
      exact (char_eq_of_toNat (ofNat_inj (by omega) (by omega) h)).symm
    · have hle := le_of_mem_encodeChar (Nat.not_lt.mp hc) h
      rw [UInt8.toNat_ofNat'] at hle
      omega
  · rintro rfl
    rw [encodeChar_ascii ha]
    exact List.mem_singleton_self _

/-- Splitting the bytes at an ASCII character is splitting the text there. -/
theorem splitOn_encode {a : Char} (ha : a.toNat < 128) (s : List Char) :
    (encode s).splitOn (UInt8.ofNat a.toNat) = (s.splitOn a).map encode := by
  apply Splitting.splitOn_flatMap (encodeChar_ascii ha)
  intro c hc hmem
  exact hc ((mem_encodeChar_ascii ha).mp hmem)

/-- The order of the bytes of ASCII texts is the order of the texts. -/
theorem encode_lt_iff {s t : List Char} (hs : ∀ c ∈ s, c.toNat < 128)
    (ht : ∀ c ∈ t, c.toNat < 128) : encode s < encode t ↔ s < t := by
  induction s generalizing t with
  | nil =>
    cases t with
    | nil => exact iff_of_false (List.not_lt_nil _) (List.not_lt_nil _)
    | cons d t =>
      rw [encode_cons, encodeChar_ascii (ht d List.mem_cons_self)]
      exact iff_of_true (List.nil_lt_cons _ _) (List.nil_lt_cons _ _)
  | cons c s ih =>
    have hc := hs c List.mem_cons_self
    cases t with
    | nil => exact iff_of_false (List.not_lt_nil _) (List.not_lt_nil _)
    | cons d t =>
      have hd := ht d List.mem_cons_self
      have hrest := ih (fun c hc => hs c (List.mem_cons_of_mem _ hc))
        fun d hd => ht d (List.mem_cons_of_mem _ hd)
      have hlt : UInt8.ofNat c.toNat < UInt8.ofNat d.toNat ↔ c < d := by
        rw [UInt8.lt_iff_toNat_lt, UInt8.toNat_ofNat', UInt8.toNat_ofNat',
          Nat.mod_eq_of_lt (by omega), Nat.mod_eq_of_lt (by omega)]
        exact (Char.lt_def.trans UInt32.lt_iff_toNat_lt).symm
      have heq : UInt8.ofNat c.toNat = UInt8.ofNat d.toNat ↔ c = d :=
        ⟨fun h => char_eq_of_toNat (ofNat_inj (by omega) (by omega) h), fun h => by rw [h]⟩
      rw [encode_cons, encode_cons, encodeChar_ascii hc, encodeChar_ascii hd,
        List.singleton_append, List.singleton_append, List.cons_lt_cons_iff,
        List.cons_lt_cons_iff, hlt, heq, hrest]

end Ascii

section Decoder

/-- The character that bytes begin with. -/
def decodeChar (bytes : List UInt8) : Option Char := bytes.toByteArray.utf8DecodeChar? 0

theorem decodeChar_encodeChar (c : Char) (rest : List UInt8) :
    decodeChar (String.utf8EncodeChar c ++ rest) = some c := by
  rw [decodeChar, List.toByteArray_append]
  exact ByteArray.utf8DecodeChar?_utf8EncodeChar_append

theorem decodeChar_eq_some {bytes : List UInt8} {c : Char} (h : decodeChar bytes = some c) :
    String.utf8EncodeChar c ++ bytes.drop (String.utf8EncodeChar c).length = bytes := by
  have hextract := String.toByteArray_utf8EncodeChar_of_utf8DecodeChar?_eq_some h
  have htake : String.utf8EncodeChar c = bytes.take c.utf8Size := by
    have hlist := congrArg (fun b : ByteArray => b.data.toList) hextract
    simp only [List.data_toByteArray, ByteArray.data_extract, Array.toList_extract] at hlist
    rw [hlist]
    simp
  rw [String.length_utf8EncodeChar, htake]
  exact List.take_append_drop _ _

/-- What is decoded while `fuel` lasts. -/
def decodeWith : ℕ → List UInt8 → Option (List Char)
  | 0, bytes => if bytes = [] then some [] else none
  | fuel + 1, bytes =>
    if bytes = [] then some []
    else (decodeChar bytes).bind fun c =>
      (decodeWith fuel (bytes.drop (String.utf8EncodeChar c).length)).map (c :: ·)

/-- The text that bytes encode. -/
def decode (bytes : List UInt8) : Option (List Char) := decodeWith bytes.length bytes

theorem encode_of_decodeWith {fuel : ℕ} {bytes : List UInt8} {s : List Char}
    (h : decodeWith fuel bytes = some s) : encode s = bytes := by
  induction fuel generalizing bytes s with
  | zero =>
    rw [decodeWith] at h
    split at h
    · next hnil => rw [← Option.some.inj h, hnil, encode_nil]
    · cases h
  | succ fuel ih =>
    rw [decodeWith] at h
    split at h
    · next hnil => rw [← Option.some.inj h, hnil, encode_nil]
    · obtain ⟨c, hc, hrest⟩ := Option.bind_eq_some_iff.mp h
      obtain ⟨t, ht, rfl⟩ := Option.map_eq_some_iff.mp hrest
      rw [encode_cons, ih ht]
      exact decodeChar_eq_some hc

theorem decodeWith_encode (s : List Char) (fuel : ℕ) (hfuel : (encode s).length ≤ fuel) :
    decodeWith fuel (encode s) = some s := by
  induction s generalizing fuel with
  | nil =>
    cases fuel with
    | zero => rfl
    | succ fuel => rfl
  | cons c s ih =>
    have hpos : 0 < (String.utf8EncodeChar c).length := by
      rw [String.length_utf8EncodeChar]
      exact c.utf8Size_pos
    rw [encode_cons, List.length_append] at hfuel
    cases fuel with
    | zero => omega
    | succ fuel =>
      have hne : String.utf8EncodeChar c ++ encode s ≠ [] :=
        List.append_ne_nil_of_left_ne_nil String.utf8EncodeChar_ne_nil _
      rw [encode_cons, decodeWith, if_neg hne, decodeChar_encodeChar, Option.bind_some,
        List.drop_left, ih fuel (by omega)]
      rfl

/-- Decoding is the inverse of encoding. -/
theorem decode_eq_some_iff {bytes : List UInt8} {s : List Char} :
    decode bytes = some s ↔ encode s = bytes := by
  constructor
  · exact encode_of_decodeWith
  · rintro rfl
    exact decodeWith_encode s _ le_rfl

end Decoder

section Lossy

/-- The range of the second byte behind the first byte of a longer sequence. -/
def secondByte (first : UInt8) : Option (UInt8 × UInt8) :=
  if first = 0xE0 then some (0xA0, 0xBF)
  else if first = 0xED then some (0x80, 0x9F)
  else if 0xE1 ≤ first ∧ first ≤ 0xEF then some (0x80, 0xBF)
  else if first = 0xF0 then some (0x90, 0xBF)
  else if 0xF1 ≤ first ∧ first ≤ 0xF3 then some (0x80, 0xBF)
  else if first = 0xF4 then some (0x80, 0x8F)
  else none

def within (range : UInt8 × UInt8) (byte : UInt8) : Bool := range.1 ≤ byte && byte ≤ range.2

/-- How many bytes one replacement character stands for: the longest beginning of a sequence. -/
def invalidLength : List UInt8 → ℕ
  | [] => 0
  | first :: rest =>
    (secondByte first).elim 1 fun range =>
      match rest with
      | [] => 1
      | second :: rest =>
        if within range second then
          if 0xF0 ≤ first && rest.head?.any (within (0x80, 0xBF)) then 3 else 2
        else 1

def decodeLossyWith : ℕ → List UInt8 → List Char
  | 0, _ => []
  | fuel + 1, bytes =>
    if bytes = [] then []
    else (decodeChar bytes).elim
      (Char.ofNat 0xFFFD :: decodeLossyWith fuel (bytes.drop (invalidLength bytes)))
      fun c => c :: decodeLossyWith fuel (bytes.drop (String.utf8EncodeChar c).length)

/-- `String::from_utf8_lossy`. -/
def decodeLossy (bytes : List UInt8) : List Char := decodeLossyWith bytes.length bytes

theorem length_pos_encodeChar (c : Char) : 0 < (String.utf8EncodeChar c).length := by
  rw [String.length_utf8EncodeChar]
  exact c.utf8Size_pos

theorem invalidLength_pos {bytes : List UInt8} (h : bytes ≠ []) : 0 < invalidLength bytes := by
  cases bytes with
  | nil => exact absurd rfl h
  | cons first rest =>
    rw [invalidLength]
    cases secondByte first with
    | none => exact Nat.one_pos
    | some range =>
      rw [Option.elim_some]
      cases rest with
      | nil => exact Nat.one_pos
      | cons second rest =>
        dsimp only
        split
        · split
          · omega
          · omega
        · omega

/-- More fuel than bytes changes nothing. -/
theorem decodeLossyWith_eq {fuel m : ℕ} {bytes : List UInt8} (hfuel : bytes.length ≤ fuel)
    (hmore : bytes.length ≤ m) : decodeLossyWith fuel bytes = decodeLossyWith m bytes := by
  induction fuel generalizing m bytes with
  | zero =>
    have hnil : bytes = [] := List.length_eq_zero_iff.mp (Nat.le_zero.mp hfuel)
    subst hnil
    cases m with
    | zero => rfl
    | succ m => rfl
  | succ fuel ih =>
    by_cases hne : bytes = []
    · subst hne
      cases m with
      | zero => rfl
      | succ m => rfl
    · have hpos : 0 < bytes.length := List.length_pos_iff.mpr hne
      cases m with
      | zero => omega
      | succ m =>
        rw [decodeLossyWith, decodeLossyWith, if_neg hne, if_neg hne]
        cases hdecode : decodeChar bytes with
        | none =>
          have hdrop : (bytes.drop (invalidLength bytes)).length < bytes.length := by
            have hinvalid := invalidLength_pos hne
            rw [List.length_drop]
            omega
          rw [Option.elim_none, Option.elim_none, ih (m := m) (by omega) (by omega)]
        | some c =>
          have hdrop : (bytes.drop (String.utf8EncodeChar c).length).length < bytes.length := by
            have hchar := length_pos_encodeChar c
            rw [List.length_drop]
            omega
          rw [Option.elim_some, Option.elim_some, ih (m := m) (by omega) (by omega)]

theorem decodeLossy_of_none {bytes : List UInt8} (hne : bytes ≠ []) (h : decodeChar bytes = none) :
    decodeLossy bytes = Char.ofNat 0xFFFD :: decodeLossy (bytes.drop (invalidLength bytes)) := by
  have hinvalid := invalidLength_pos hne
  have hpos : 0 < bytes.length := List.length_pos_iff.mpr hne
  have hdrop : (bytes.drop (invalidLength bytes)).length ≤ bytes.length - 1 := by
    rw [List.length_drop]
    omega
  obtain ⟨n, hn⟩ : ∃ n, bytes.length = n + 1 := ⟨bytes.length - 1, by omega⟩
  rw [decodeLossy, hn, decodeLossyWith, if_neg hne, h, Option.elim_none, decodeLossy]
  congr 1
  exact decodeLossyWith_eq (by omega) le_rfl

theorem decodeLossy_encodeChar (c : Char) (rest : List UInt8) :
    decodeLossy (String.utf8EncodeChar c ++ rest) = c :: decodeLossy rest := by
  have hne : String.utf8EncodeChar c ++ rest ≠ [] :=
    List.append_ne_nil_of_left_ne_nil String.utf8EncodeChar_ne_nil _
  have hchar := length_pos_encodeChar c
  obtain ⟨n, hn⟩ : ∃ n, (String.utf8EncodeChar c ++ rest).length = n + 1 :=
    ⟨(String.utf8EncodeChar c ++ rest).length - 1, by rw [List.length_append]; omega⟩
  have hrest : rest.length ≤ n := by
    rw [List.length_append] at hn
    omega
  rw [decodeLossy, hn, decodeLossyWith, if_neg hne, decodeChar_encodeChar, Option.elim_some,
    List.drop_left, decodeLossy]
  congr 1
  exact decodeLossyWith_eq hrest le_rfl

/-- A text comes back. -/
theorem decodeLossy_encode (s : List Char) : decodeLossy (encode s) = s := by
  induction s with
  | nil => rfl
  | cons c s ih => rw [encode_cons, decodeLossy_encodeChar, ih]

/-- Bytes come back exactly when they are a text. -/
theorem encode_decodeLossy_iff {bytes : List UInt8} :
    encode (decodeLossy bytes) = bytes ↔ ∃ s, encode s = bytes := by
  constructor
  · exact fun h => ⟨_, h⟩
  · rintro ⟨s, rfl⟩
    rw [decodeLossy_encode]

end Lossy

section Boundary

variable {x : List UInt8}

/-- A zero byte belongs to no longer sequence. -/
theorem decodeChar_append_zero (hne : x ≠ []) (y : List UInt8) :
    decodeChar (x ++ 0 :: y) = decodeChar x := by
  cases hx : decodeChar x with
  | some c =>
    have hsplit := decodeChar_eq_some hx
    rw [← hsplit, List.append_assoc, decodeChar_encodeChar]
  | none =>
    by_contra hsome
    obtain ⟨c, hc⟩ := Option.ne_none_iff_exists'.mp hsome
    have hsplit := decodeChar_eq_some hc
    rcases List.append_eq_append_iff.mp hsplit with ⟨rest, hxeq, -⟩ | ⟨rest, hceq, hrest⟩
    · rw [hxeq, decodeChar_encodeChar] at hx
      cases hx
    · -- the character would take in the zero byte
      cases rest with
      | nil =>
        rw [List.append_nil] at hceq
        have hback := decodeChar_encodeChar c []
        rw [List.append_nil, hceq, hx] at hback
        cases hback
      | cons b rest =>
        have hb : b = 0 := (List.cons.inj hrest).1.symm
        have hmem : UInt8.ofNat (Char.ofNat 0).toNat ∈ String.utf8EncodeChar c := by
          rw [hceq, hb]
          exact List.mem_append_right _ List.mem_cons_self
        have hnul := (mem_encodeChar_ascii (a := Char.ofNat 0) (by decide)).mp hmem
        have henc : String.utf8EncodeChar c = [0] := by
          rw [hnul]
          decide
        rw [henc] at hceq
        have hlength := congrArg List.length hceq
        have hpos : 0 < x.length := List.length_pos_iff.mpr hne
        simp only [List.length_append, List.length_cons, List.length_nil] at hlength
        omega

theorem within_zero {first : UInt8} {range : UInt8 × UInt8} (h : secondByte first = some range) :
    within range 0 = false := by
  have hlow : range = (0xA0, 0xBF) ∨ range = (0x80, 0x9F) ∨ range = (0x80, 0xBF) ∨
      range = (0x90, 0xBF) ∨ range = (0x80, 0x8F) := by
    unfold secondByte at h
    split_ifs at h <;> first
      | exact Or.inl (Option.some.inj h).symm
      | exact Or.inr (Or.inl (Option.some.inj h).symm)
      | exact Or.inr (Or.inr (Or.inl (Option.some.inj h).symm))
      | exact Or.inr (Or.inr (Or.inr (Or.inl (Option.some.inj h).symm)))
      | exact Or.inr (Or.inr (Or.inr (Or.inr (Option.some.inj h).symm)))
  rcases hlow with rfl | rfl | rfl | rfl | rfl
  · decide
  · decide
  · decide
  · decide
  · decide

theorem invalidLength_append_zero (hne : x ≠ []) (y : List UInt8) :
    invalidLength (x ++ 0 :: y) = invalidLength x := by
  cases x with
  | nil => exact absurd rfl hne
  | cons first rest =>
    rw [List.cons_append, invalidLength, invalidLength]
    cases hrange : secondByte first with
    | none => rfl
    | some range =>
      rw [Option.elim_some, Option.elim_some]
      cases rest with
      | nil =>
        rw [List.nil_append]
        dsimp only
        rw [within_zero hrange, if_neg Bool.false_ne_true]
      | cons second rest =>
        rw [List.cons_append]
        dsimp only
        cases rest with
        | nil =>
          have hnone : (([] : List UInt8) ++ 0 :: y).head?.any (within (0x80, 0xBF)) = false := rfl
          have hnil : ([] : List UInt8).head?.any (within (0x80, 0xBF)) = false := rfl
          rw [hnone, hnil]
        | cons third rest => rfl

theorem invalidLength_le (x : List UInt8) : invalidLength x ≤ x.length := by
  cases x with
  | nil => exact le_rfl
  | cons first rest =>
    rw [invalidLength, List.length_cons]
    cases secondByte first with
    | none => exact Nat.le_add_left 1 _
    | some range =>
      rw [Option.elim_some]
      cases rest with
      | nil => exact le_rfl
      | cons second rest =>
        dsimp only
        rw [List.length_cons]
        cases rest with
        | nil =>
          have hnil : ([] : List UInt8).head?.any (within (0x80, 0xBF)) = false := rfl
          rw [hnil, Bool.and_false, if_neg Bool.false_ne_true]
          split
          · exact le_rfl
          · omega
        | cons third rest =>
          rw [List.length_cons]
          split
          · split
            · omega
            · omega
          · omega

/-- A zero byte cuts bytes in two for the decoder. -/
theorem decodeLossy_append_zero (hzero : 0 ∉ x) (y : List UInt8) :
    decodeLossy (x ++ 0 :: y) = decodeLossy x ++ Char.ofNat 0 :: decodeLossy y := by
  induction hlength : x.length using Nat.strong_induction_on generalizing x with
  | _ n ih =>
    by_cases hne : x = []
    · subst hne
      have hnul : String.utf8EncodeChar (Char.ofNat 0) = [0] := by decide
      have hone := decodeLossy_encodeChar (Char.ofNat 0) y
      rw [hnul] at hone
      exact hone
    have hpos : 0 < x.length := List.length_pos_iff.mpr hne
    have hdrop (k : ℕ) : 0 ∉ x.drop k := fun hmem => hzero (List.mem_of_mem_drop hmem)
    cases hx : decodeChar x with
    | some c =>
      have hchar := length_pos_encodeChar c
      have hsplit := decodeChar_eq_some hx
      have hshorter : (x.drop (String.utf8EncodeChar c).length).length < n := by
        rw [List.length_drop]
        omega
      have hrest := ih _ hshorter (hdrop _) rfl
      calc decodeLossy (x ++ 0 :: y)
          = decodeLossy (String.utf8EncodeChar c ++
              (x.drop (String.utf8EncodeChar c).length ++ 0 :: y)) := by
            rw [← List.append_assoc, hsplit]
        _ = c :: (decodeLossy (x.drop (String.utf8EncodeChar c).length) ++
              Char.ofNat 0 :: decodeLossy y) := by rw [decodeLossy_encodeChar, hrest]
        _ = decodeLossy (String.utf8EncodeChar c ++
              x.drop (String.utf8EncodeChar c).length) ++ Char.ofNat 0 :: decodeLossy y := by
            rw [decodeLossy_encodeChar, List.cons_append]
        _ = decodeLossy x ++ Char.ofNat 0 :: decodeLossy y := by rw [hsplit]
    | none =>
      have hinvalid := invalidLength_pos hne
      have hshorter : (x.drop (invalidLength x)).length < n := by
        rw [List.length_drop]
        omega
      have hrest := ih _ hshorter (hdrop _) rfl
      have hboth : decodeChar (x ++ 0 :: y) = none := by rw [decodeChar_append_zero hne, hx]
      have hcons : x ++ 0 :: y ≠ [] := List.append_ne_nil_of_left_ne_nil hne _
      rw [decodeLossy_of_none hcons hboth, invalidLength_append_zero hne,
        List.drop_append_of_le_length (invalidLength_le x), hrest, decodeLossy_of_none hne hx,
        List.cons_append]

theorem decodeLossy_ne_nil (hne : x ≠ []) : decodeLossy x ≠ [] := by
  cases hx : decodeChar x with
  | some c =>
    rw [← decodeChar_eq_some hx, decodeLossy_encodeChar]
    exact List.cons_ne_nil _ _
  | none =>
    rw [decodeLossy_of_none hne hx]
    exact List.cons_ne_nil _ _

/-- Bytes without a zero byte are no text with a NUL. -/
theorem nul_not_mem_decodeLossy (hzero : 0 ∉ x) : Char.ofNat 0 ∉ decodeLossy x := by
  induction hlength : x.length using Nat.strong_induction_on generalizing x with
  | _ n ih =>
    by_cases hne : x = []
    · subst hne
      exact List.not_mem_nil
    have hpos : 0 < x.length := List.length_pos_iff.mpr hne
    have hrest (k : ℕ) (hk : 0 < k) : Char.ofNat 0 ∉ decodeLossy (x.drop k) := by
      refine ih (x.drop k).length ?_ (fun hmem => hzero (List.mem_of_mem_drop hmem)) rfl
      rw [List.length_drop]
      omega
    cases hx : decodeChar x with
    | some c =>
      have hsplit := decodeChar_eq_some hx
      have htail := hrest _ (length_pos_encodeChar c)
      rw [← hsplit, decodeLossy_encodeChar]
      intro hmem
      rcases List.mem_cons.mp hmem with rfl | hmem
      · have hnul : String.utf8EncodeChar (Char.ofNat 0) = [0] := by decide
        rw [hnul] at hsplit
        exact hzero (hsplit ▸ List.mem_cons_self)
      · exact htail hmem
    | none =>
      have htail := hrest _ (invalidLength_pos hne)
      rw [decodeLossy_of_none hne hx]
      intro hmem
      rcases List.mem_cons.mp hmem with hnul | hmem
      · exact absurd hnul (by decide)
      · exact htail hmem

end Boundary

end Utf8
