import Mathlib.Algebra.Ring.Nat
import Mathlib.Data.List.DropRight
import Resync.Lib.Json

/-! The text of JSON values: a writer, which is told where to break its lines, and the reader. An
array or object may be nested 127 deep, and an object keeps its members in the order of their keys.
How a number with a fraction is written and read is left open. -/
namespace JsonText

/-- The four characters that JSON takes as white space. -/
def blank (c : Char) : Bool := c = ' ' || c = '\n' || c = '\t' || c = '\r'

def skip (text : List Char) : List Char := text.dropWhile blank

/-- How floats are written and read. Only numbers with a fraction or an exponent use it. -/
structure Floats where
  write : UInt64 → List Char
  read : List Char → Option UInt64

/-- Where a writer breaks its lines. -/
structure Layout where
  line : ℕ → List Char
  colon : List Char
  line_blank : ∀ n, ∀ c ∈ line n, blank c = true
  colon_blank : ∀ c ∈ colon, blank c = true

/-- On one line and without blanks. -/
def compact : Layout where
  line _ := []
  colon := []
  line_blank _ _ hc := absurd hc List.not_mem_nil
  colon_blank _ hc := absurd hc List.not_mem_nil

section Writer

/-- A character of a string. -/
def escape (c : Char) : List Char :=
  if c = '"' then ['\\', '"']
  else if c = '\\' then ['\\', '\\']
  else if c = '\n' then ['\\', 'n']
  else if c = '\r' then ['\\', 'r']
  else if c = '\t' then ['\\', 't']
  else if c.toNat = 8 then ['\\', 'b']
  else if c.toNat = 12 then ['\\', 'f']
  else if c.toNat < 32 then
    ['\\', 'u', '0', '0', Nat.digitChar (c.toNat / 16), Nat.digitChar (c.toNat % 16)]
  else [c]

def writeString (s : String) : List Char := '"' :: (s.toList.flatMap escape ++ ['"'])

variable (F : Floats) (L : Layout)

def writeNumber : JsonNumber → List Char
  | .posInt n => Nat.toDigits 10 n
  | .negInt n => '-' :: Nat.toDigits 10 n
  | .float bits => F.write bits

mutual

/-- The text of a value that begins at a level. -/
def write (level : ℕ) : Json → List Char
  | .null => ['n', 'u', 'l', 'l']
  | .bool true => ['t', 'r', 'u', 'e']
  | .bool false => ['f', 'a', 'l', 's', 'e']
  | .num n => writeNumber F n
  | .str s => writeString s
  | .arr [] => ['[', ']']
  | .arr (v :: vs) => '[' :: (writeItems (level + 1) (v :: vs) ++ (L.line level ++ [']']))
  | .obj [] => ['{', '}']
  | .obj (m :: ms) => '{' :: (writeMembers (level + 1) (m :: ms) ++ (L.line level ++ ['}']))

def writeItems (level : ℕ) : List Json → List Char
  | [] => []
  | v :: vs => L.line level ++ (write level v ++ match vs with
    | [] => []
    | _ :: _ => ',' :: writeItems level vs)

def writeMembers (level : ℕ) : List (String × Json) → List Char
  | [] => []
  | (key, v) :: ms => L.line level ++ (writeString key ++ ':' :: (L.colon ++ (write level v ++
    match ms with
    | [] => []
    | _ :: _ => ',' :: writeMembers level ms)))

end

end Writer

section Reader

def hexValue (c : Char) : Option ℕ :=
  if c.isDigit then some (c.toNat - 48)
  else if 'a' ≤ c ∧ c ≤ 'f' then some (c.toNat - 87)
  else if 'A' ≤ c ∧ c ≤ 'F' then some (c.toNat - 55)
  else none

/-- The number that four hexadecimal digits name. -/
def hexFour (a b c d : Char) : Option ℕ :=
  (hexValue a).bind fun a => (hexValue b).bind fun b => (hexValue c).bind fun c =>
    (hexValue d).map fun d => 4096 * a + 256 * b + 16 * c + d

/-- What stands behind a backslash. -/
def readEscape : List Char → Option (Char × List Char)
  | 'u' :: a :: b :: c :: d :: rest =>
    (hexFour a b c d).bind fun n =>
      if 0xDC00 ≤ n ∧ n ≤ 0xDFFF then none
      else if 0xD800 ≤ n ∧ n ≤ 0xDBFF then
        -- the first half of a surrogate pair
        match rest with
        | '\\' :: 'u' :: e :: f :: g :: h :: rest =>
          (hexFour e f g h).bind fun m =>
            if 0xDC00 ≤ m ∧ m ≤ 0xDFFF then
              some (Char.ofNat (0x10000 + 1024 * (n - 0xD800) + (m - 0xDC00)), rest)
            else none
        | _ => none
      else some (Char.ofNat n, rest)
  | '"' :: rest => some ('"', rest)
  | '\\' :: rest => some ('\\', rest)
  | '/' :: rest => some ('/', rest)
  | 'b' :: rest => some (Char.ofNat 8, rest)
  | 'f' :: rest => some (Char.ofNat 12, rest)
  | 'n' :: rest => some ('\n', rest)
  | 'r' :: rest => some ('\r', rest)
  | 't' :: rest => some ('\t', rest)
  | _ => none

/-- A character of a string, but not the quote that ends it. -/
def readChar : List Char → Option (Char × List Char)
  | [] => none
  | c :: rest =>
    if c = '\\' then readEscape rest
    else if c = '"' ∨ c.toNat < 32 then none
    else some (c, rest)

/-- The characters up to the closing quote. Each takes one of the bound. -/
def readChars : ℕ → List Char → Option (List Char × List Char)
  | 0, _ => none
  | fuel + 1, text =>
    if text.head? = some '"' then some ([], text.tail)
    else (readChar text).bind fun next =>
      (readChars fuel next.2).map fun found => (next.1 :: found.1, found.2)

/-- A string behind its first quote. -/
def readString (text : List Char) : Option (String × List Char) :=
  (readChars text.length text).map fun found => (String.ofList found.1, found.2)

/-- At least one digit. -/
def readDigits (text : List Char) : Option (List Char × List Char) :=
  if text.takeWhile Char.isDigit = [] then none
  else some (text.takeWhile Char.isDigit, text.dropWhile Char.isDigit)

def readFraction : List Char → Option (List Char × List Char)
  | '.' :: rest => (readDigits rest).map fun found => ('.' :: found.1, found.2)
  | rest => some ([], rest)

def readExponent : List Char → Option (List Char × List Char)
  | c :: rest =>
    if c = 'e' ∨ c = 'E' then
      match rest with
      | '+' :: rest => (readDigits rest).map fun found => (c :: '+' :: found.1, found.2)
      | '-' :: rest => (readDigits rest).map fun found => (c :: '-' :: found.1, found.2)
      | rest => (readDigits rest).map fun found => (c :: found.1, found.2)
    else some ([], c :: rest)
  | [] => some ([], [])

variable (F : Floats)

/-- A number behind its sign. -/
def readUnsigned (negative : Bool) (text : List Char) : Option (JsonNumber × List Char) :=
  (readDigits text).bind fun whole =>
    -- a zero stands alone
    if whole.1.head? = some '0' ∧ whole.1.length ≠ 1 then none
    else (readFraction whole.2).bind fun fraction => (readExponent fraction.2).bind fun exponent =>
      let sign := if negative then ['-'] else []
      let float := (F.read (sign ++ whole.1 ++ fraction.1 ++ exponent.1)).map fun bits =>
        (JsonNumber.float bits, exponent.2)
      let n := Nat.ofDigitChars 10 whole.1 0
      if fraction.1 ≠ [] ∨ exponent.1 ≠ [] then float
      else if negative then
        if 0 < n ∧ n ≤ 2 ^ 63 then some (.negInt n, exponent.2) else float
      else if n < 2 ^ 64 then some (.posInt n, exponent.2) else float

/-- A number with or without its minus sign. -/
def readNumber : List Char → Option (JsonNumber × List Char)
  | '-' :: rest => readUnsigned F true rest
  | text => readUnsigned F false text

/-- What is neither an array nor an object. -/
def readScalar : List Char → Option (Json × List Char)
  | 'n' :: 'u' :: 'l' :: 'l' :: rest => some (.null, rest)
  | 't' :: 'r' :: 'u' :: 'e' :: rest => some (.bool true, rest)
  | 'f' :: 'a' :: 'l' :: 's' :: 'e' :: rest => some (.bool false, rest)
  | '"' :: rest => (readString rest).map fun found => (.str found.1, found.2)
  | text => (readNumber F text).map fun found => (.num found.1, found.2)

/-- The items of an array that has one, to its end. -/
def readItems (read : List Char → Option (Json × List Char)) :
    ℕ → List Char → Option (List Json × List Char)
  | 0, _ => none
  | fuel + 1, text =>
    (read text).bind fun item =>
      match skip item.2 with
      | ',' :: rest => (readItems read fuel rest).map fun found => (item.1 :: found.1, found.2)
      | ']' :: rest => some ([item.1], rest)
      | _ => none

/-- The members of an object that has one, to its end, put to those that are `known`. -/
def readMembers (read : List Char → Option (Json × List Char)) :
    ℕ → List (String × Json) → List Char → Option (List (String × Json) × List Char)
  | 0, _, _ => none
  | fuel + 1, known, text =>
    match skip text with
    | '"' :: rest =>
      (readString rest).bind fun key =>
        match skip key.2 with
        | ':' :: rest =>
          (read rest).bind fun value =>
            match skip value.2 with
            | ',' :: rest => readMembers read fuel (Json.insert key.1 value.1 known) rest
            | '}' :: rest => some (Json.insert key.1 value.1 known, rest)
            | _ => none
        | _ => none
    | _ => none

/-- A value in which arrays and objects are nested so deep. -/
def readValue : ℕ → List Char → Option (Json × List Char)
  | 0, text => readScalar F (skip text)
  | depth + 1, text =>
    match skip text with
    | '[' :: rest =>
      match skip rest with
      | ']' :: rest => some (.arr [], rest)
      | _ => (readItems (readValue depth) rest.length rest).map fun found =>
        (.arr found.1, found.2)
    | '{' :: rest =>
      match skip rest with
      | '}' :: rest => some (.obj [], rest)
      | _ => (readMembers (readValue depth) rest.length [] rest).map fun found =>
        (.obj found.1, found.2)
    | text => readScalar F text

/-- A text that is one value. -/
def read (text : List Char) : Option Json :=
  (readValue F 127 text).bind fun found => if skip found.2 = [] then some found.1 else none

end Reader

section Fitting

def fitsNumber : JsonNumber → Bool
  | .posInt n => n < 2 ^ 64
  | .negInt n => 0 < n && n ≤ 2 ^ 63
  | .float _ => false

mutual

/-- Whether a value without fractions is nested at most so deep, its members in order. -/
def fits : ℕ → Json → Bool
  | _, .null => true
  | _, .bool _ => true
  | _, .num n => fitsNumber n
  | _, .str _ => true
  | 0, .arr _ => false
  | depth + 1, .arr items => fitsItems depth items
  | 0, .obj _ => false
  | depth + 1, .obj members =>
    members.Pairwise (fun a b => a.1 < b.1) && fitsMembers depth members

def fitsItems (depth : ℕ) : List Json → Bool
  | [] => true
  | v :: vs => fits depth v && fitsItems depth vs

def fitsMembers (depth : ℕ) : List (String × Json) → Bool
  | [] => true
  | (_, v) :: ms => fits depth v && fitsMembers depth ms

end

end Fitting

section Blanks

theorem skip_cons {c : Char} (h : blank c = false) (text : List Char) :
    skip (c :: text) = c :: text := by
  simp only [skip, List.dropWhile_cons, h, Bool.false_eq_true, ↓reduceIte]

theorem skip_append {blanks : List Char} (h : ∀ c ∈ blanks, blank c = true) (text : List Char) :
    skip (blanks ++ text) = skip text := by
  induction blanks with
  | nil => rfl
  | cons c blanks ih =>
    have hc : blank c = true := h c List.mem_cons_self
    have hrest := ih fun d hd => h d (List.mem_cons_of_mem c hd)
    simpa only [skip, List.cons_append, List.dropWhile_cons, hc, ↓reduceIte] using hrest

theorem skip_skip (text : List Char) : skip (skip text) = skip text :=
  List.dropWhile_idempotent blank text

theorem readValue_skip (F : Floats) (depth : ℕ) (text : List Char) :
    readValue F depth (skip text) = readValue F depth text := by
  cases depth <;> simp only [readValue, skip_skip]

theorem readValue_append (F : Floats) (depth : ℕ) {blanks : List Char}
    (h : ∀ c ∈ blanks, blank c = true) (text : List Char) :
    readValue F depth (blanks ++ text) = readValue F depth text := by
  rw [← readValue_skip, skip_append h, readValue_skip]

end Blanks

section Strings

theorem hexValue_digitChar : ∀ n < 16, hexValue (Nat.digitChar n) = some n := by
  decide

theorem readChar_escape (c : Char) (rest : List Char) :
    readChar (escape c ++ rest) = some (c, rest) := by
  unfold escape
  split_ifs with h1 h2 h3 h4 h5 h6 h7 h8
  · subst h1; rfl
  · subst h2; rfl
  · subst h3; rfl
  · subst h4; rfl
  · subst h5; rfl
  · have hc : Char.ofNat 8 = c := by rw [← h6, Char.ofNat_toNat]
    exact congrArg (fun d => some (d, rest)) hc
  · have hc : Char.ofNat 12 = c := by rw [← h7, Char.ofNat_toNat]
    exact congrArg (fun d => some (d, rest)) hc
  · have hhigh := hexValue_digitChar (c.toNat / 16) (by omega)
    have hlow := hexValue_digitChar (c.toNat % 16) (by omega)
    have hzero : hexValue '0' = some 0 := rfl
    have hsum : 4096 * 0 + 256 * 0 + 16 * (c.toNat / 16) + c.toNat % 16 = c.toNat := by omega
    have hc : Char.ofNat c.toNat = c := Char.ofNat_toNat c
    have hfour : hexFour '0' '0' (Nat.digitChar (c.toNat / 16)) (Nat.digitChar (c.toNat % 16)) =
        some c.toNat := by
      simp only [hexFour, hzero, hhigh, hlow, Option.bind_some, Option.map_some, hsum]
    have hone : ¬(0xDC00 ≤ c.toNat ∧ c.toNat ≤ 0xDFFF) := by omega
    have htwo : ¬(0xD800 ≤ c.toNat ∧ c.toNat ≤ 0xDBFF) := by omega
    simp only [List.cons_append, List.nil_append, readChar, ↓reduceIte, readEscape, hfour,
      Option.bind_some, hone, htwo, hc]
  · have hplain : ¬(c = '"' ∨ c.toNat < 32) := by
      rintro (h | h)
      · exact h1 h
      · exact h8 h
    simp only [List.cons_append, List.nil_append, readChar, h2, hplain, ↓reduceIte]

theorem head_escape (c : Char) : ∃ d rest, escape c = d :: rest ∧ d ≠ '"' := by
  unfold escape
  split_ifs with h1
  all_goals first
    | exact ⟨_, _, rfl, by decide⟩
    | exact ⟨_, _, rfl, h1⟩

theorem readChars_escape (chars rest : List Char) (fuel : ℕ) (hfuel : chars.length < fuel) :
    readChars fuel (chars.flatMap escape ++ '"' :: rest) = some (chars, rest) := by
  induction chars generalizing fuel with
  | nil =>
    obtain ⟨fuel, rfl⟩ := Nat.exists_eq_add_one.mpr hfuel
    rfl
  | cons c chars ih =>
    rw [List.length_cons] at hfuel
    obtain ⟨fuel, rfl⟩ := Nat.exists_eq_add_one.mpr (Nat.zero_lt_of_lt hfuel)
    have hrest := ih fuel (by omega)
    obtain ⟨d, tail, hd, hquote⟩ := head_escape c
    have hhead : ¬(escape c ++ (chars.flatMap escape ++ '"' :: rest)).head? = some '"' := by
      rw [hd, List.cons_append, List.head?_cons]
      exact fun h => hquote (Option.some.inj h)
    rw [List.flatMap_cons, List.append_assoc]
    simp only [readChars, hhead, ↓reduceIte, readChar_escape, Option.bind_some, hrest,
      Option.map_some]

theorem length_le_flatMap_escape (chars : List Char) :
    chars.length ≤ (chars.flatMap escape).length := by
  induction chars with
  | nil => exact Nat.le_refl 0
  | cons c chars ih =>
    obtain ⟨d, tail, hd, -⟩ := head_escape c
    rw [List.flatMap_cons, List.length_append, List.length_cons, hd, List.length_cons]
    omega

/-- A string that was written is read back, whatever follows it. -/
theorem readString_escape (s : String) (rest : List Char) :
    readString (s.toList.flatMap escape ++ '"' :: rest) = some (s, rest) := by
  have hle := length_le_flatMap_escape s.toList
  have hfuel : s.toList.length < (s.toList.flatMap escape ++ '"' :: rest).length := by
    rw [List.length_append, List.length_cons]
    omega
  rw [readString, readChars_escape s.toList rest _ hfuel]
  simp only [Option.map_some, String.ofList_toList]

end Strings

section Numbers

/-- A text that does not carry on the number before it. -/
def Ends (text : List Char) : Prop :=
  ∀ c ∈ text.head?, c.isDigit = false ∧ c ≠ '.' ∧ c ≠ 'e' ∧ c ≠ 'E'

theorem ends_nil : Ends [] := fun _ hc => by cases hc

theorem ends_cons {c : Char} (h : c.isDigit = false ∧ c ≠ '.' ∧ c ≠ 'e' ∧ c ≠ 'E')
    (text : List Char) : Ends (c :: text) := by
  intro d hd
  rw [List.head?_cons, Option.mem_some_iff] at hd
  exact hd ▸ h

theorem ends_append {blanks text : List Char} (h : ∀ c ∈ blanks, blank c = true)
    (htext : Ends text) : Ends (blanks ++ text) := by
  cases blanks with
  | nil => exact htext
  | cons c blanks =>
    have hc := h c List.mem_cons_self
    refine ends_cons ?_ _
    simp only [blank, Bool.or_eq_true, decide_eq_true_eq] at hc
    rcases hc with ((rfl | rfl) | rfl) | rfl <;> decide

theorem readDigits_append {digits : List Char} (hne : digits ≠ [])
    (hdigits : ∀ c ∈ digits, c.isDigit = true) {rest : List Char} (hrest : Ends rest) :
    readDigits (digits ++ rest) = some (digits, rest) := by
  have htake : rest.takeWhile Char.isDigit = [] := by
    cases rest with
    | nil => rfl
    | cons c rest => exact List.takeWhile_cons_of_neg (by simp [(hrest c rfl).1])
  have hdrop : rest.dropWhile Char.isDigit = rest := by
    cases rest with
    | nil => rfl
    | cons c rest => exact List.dropWhile_cons_of_neg (by simp [(hrest c rfl).1])
  have htaken : (digits ++ rest).takeWhile Char.isDigit = digits := by
    rw [List.takeWhile_append_of_pos hdigits, htake, List.append_nil]
  have hdropped : (digits ++ rest).dropWhile Char.isDigit = rest := by
    rw [List.dropWhile_append_of_pos hdigits, hdrop]
  rw [readDigits, htaken, hdropped, if_neg hne]

theorem readFraction_of_ends {rest : List Char} (h : Ends rest) :
    readFraction rest = some ([], rest) := by
  unfold readFraction
  split
  · next c => exact absurd rfl (h '.' rfl).2.1
  · rfl

theorem readExponent_of_ends {rest : List Char} (h : Ends rest) :
    readExponent rest = some ([], rest) := by
  cases rest with
  | nil => rfl
  | cons c rest =>
    have hc : ¬(c = 'e' ∨ c = 'E') := by
      rintro (hc | hc)
      · exact (h c rfl).2.2.1 hc
      · exact (h c rfl).2.2.2 hc
    simp only [readExponent, hc, ↓reduceIte]

/-- Decimal digits have no zero before them. -/
theorem length_toDigits (n : ℕ) (h : (Nat.toDigits 10 n).head? = some '0') :
    (Nat.toDigits 10 n).length = 1 := by
  have hzero : ∀ d < 10, Nat.digitChar d = '0' → d = 0 := by decide
  induction n using Nat.strongRecOn with
  | ind n ih =>
    by_cases hn : n < 10
    · rw [Nat.toDigits_of_lt_base hn]
      rfl
    · have hle : 10 ≤ n := by omega
      rw [Nat.toDigits_of_base_le (by decide) hle,
        List.head?_append_of_ne_nil _ Nat.toDigits_ne_nil] at h
      have hone := ih (n / 10) (by omega) h
      have hlt : n / 10 < 10 := by
        have hpow := (Nat.length_toDigits_le_iff (by decide) Nat.one_pos).mp (Nat.le_of_eq hone)
        rwa [Nat.pow_one] at hpow
      rw [Nat.toDigits_of_lt_base hlt, List.head?_cons, Option.some_inj] at h
      have := hzero (n / 10) hlt h
      omega

/-- A natural number that was written is read back. -/
theorem readUnsigned_toDigits (F : Floats) (negative : Bool) (n : ℕ) {rest : List Char}
    (hrest : Ends rest) : readUnsigned F negative (Nat.toDigits 10 n ++ rest) =
      if negative then
        if 0 < n ∧ n ≤ 2 ^ 63 then some (.negInt n, rest)
        else (F.read ('-' :: Nat.toDigits 10 n)).map fun bits => (.float bits, rest)
      else if n < 2 ^ 64 then some (.posInt n, rest)
      else (F.read (Nat.toDigits 10 n)).map fun bits => (.float bits, rest) := by
  have hdigits : ∀ c ∈ Nat.toDigits 10 n, c.isDigit = true := fun c hc =>
    Nat.isDigit_of_mem_toDigits (by decide) (by decide) hc
  have hwhole := readDigits_append Nat.toDigits_ne_nil hdigits hrest
  have hzero : ¬((Nat.toDigits 10 n).head? = some '0' ∧ (Nat.toDigits 10 n).length ≠ 1) :=
    fun h => h.2 (length_toDigits n h.1)
  have hvalue : Nat.ofDigitChars 10 (Nat.toDigits 10 n) 0 = n := Nat.ofDigitChars_ten_toDigits
  unfold readUnsigned
  rw [hwhole, Option.bind_some, if_neg hzero, readFraction_of_ends hrest, Option.bind_some,
    readExponent_of_ends hrest, Option.bind_some]
  simp only [hvalue, ne_eq, not_true_eq_false, or_self, ↓reduceIte, List.append_nil]
  cases negative <;> simp

/-- So is every number but for a float, in front of what ends a number. -/
theorem readNumber_write (F : Floats) {n : JsonNumber} (hfits : fitsNumber n = true)
    {rest : List Char} (hrest : Ends rest) :
    readNumber F (writeNumber F n ++ rest) = some (n, rest) := by
  cases n with
  | posInt n =>
    have hlt : n < 2 ^ 64 := of_decide_eq_true hfits
    obtain ⟨c, digits, hc⟩ := List.exists_cons_of_ne_nil (Nat.toDigits_ne_nil (n := n) (b := 10))
    have hdigit : c.isDigit = true :=
      Nat.isDigit_of_mem_toDigits (n := n) (b := 10) (by decide) (by decide)
        (hc ▸ List.mem_cons_self)
    have hunsigned := readUnsigned_toDigits F false n hrest
    simp only [Bool.false_eq_true, ↓reduceIte, hlt] at hunsigned
    rw [writeNumber, ← hunsigned, hc, List.cons_append]
    unfold readNumber
    split
    · next heq =>
      rw [(List.cons.inj heq).1] at hdigit
      exact absurd hdigit (by decide)
    · rfl
  | negInt n =>
    have hn : 0 < n ∧ n ≤ 2 ^ 63 := by
      simpa only [fitsNumber, Bool.and_eq_true, decide_eq_true_eq] using hfits
    have hunsigned := readUnsigned_toDigits F true n hrest
    simp only [↓reduceIte, hn, and_self] at hunsigned
    rw [writeNumber, List.cons_append, ← hunsigned]
    rfl
  | float bits => exact absurd hfits Bool.false_ne_true

end Numbers

section Values

variable (F : Floats) (L : Layout)

/-- The first character of the text of a number. -/
theorem head_writeNumber {n : JsonNumber} (hfits : fitsNumber n = true) :
    ∃ c tail, writeNumber F n = c :: tail ∧ (c.isDigit = true ∨ c = '-') := by
  cases n with
  | posInt n =>
    obtain ⟨c, tail, hc⟩ := List.exists_cons_of_ne_nil (Nat.toDigits_ne_nil (n := n) (b := 10))
    have hmem : c ∈ Nat.toDigits 10 n := hc ▸ List.mem_cons_self
    exact ⟨c, tail, hc, Or.inl (Nat.isDigit_of_mem_toDigits (by decide) (by decide) hmem)⟩
  | negInt n => exact ⟨'-', Nat.toDigits 10 n, rfl, Or.inr rfl⟩
  | float bits => exact absurd hfits Bool.false_ne_true

theorem ne_of_first {c d : Char} (hc : c.isDigit = true ∨ c = '-')
    (hd : d.isDigit = false ∧ d ≠ '-') : c ≠ d := by
  rintro rfl
  rcases hc with hdigit | hminus
  · exact Bool.false_ne_true (hd.1.symm.trans hdigit)
  · exact hd.2 hminus

theorem blank_of_first {c : Char} (hc : c.isDigit = true ∨ c = '-') : blank c = false := by
  simp only [blank, Bool.or_eq_false_iff, decide_eq_false_iff_not]
  refine ⟨⟨⟨?_, ?_⟩, ?_⟩, ?_⟩ <;> exact ne_of_first hc (by decide)

/-- The first character of the text of a value. -/
theorem first_write {depth : ℕ} {v : Json} (hfits : fits depth v = true) (level : ℕ) :
    ∃ c tail, write F L level v = c :: tail ∧
      (c.isDigit = true ∨ c ∈ ['-', 'n', 't', 'f', '"', '[', '\x7b']) := by
  cases v with
  | null => exact ⟨_, _, rfl, Or.inr (by decide)⟩
  | bool b => cases b <;> exact ⟨_, _, rfl, Or.inr (by decide)⟩
  | num n =>
    have hnumber : fitsNumber n = true := by cases depth <;> exact hfits
    obtain ⟨c, tail, hc, hfirst⟩ := head_writeNumber F hnumber
    exact ⟨c, tail, hc, hfirst.imp_right fun hminus => List.mem_cons.mpr (Or.inl hminus)⟩
  | str s => exact ⟨_, _, rfl, Or.inr (by decide)⟩
  | arr items => cases items <;> exact ⟨_, _, rfl, Or.inr (by decide)⟩
  | obj members => cases members <;> exact ⟨_, _, rfl, Or.inr (by decide)⟩

/-- A value does not begin with a blank, and not like the end of an array. -/
theorem head_write {depth : ℕ} {v : Json} (hfits : fits depth v = true) (level : ℕ) :
    ∃ c tail, write F L level v = c :: tail ∧ blank c = false ∧ c ≠ ']' := by
  obtain ⟨c, tail, hc, hfirst⟩ := first_write F L hfits level
  rcases hfirst with hdigit | hmem
  · exact ⟨c, tail, hc, blank_of_first (Or.inl hdigit), ne_of_first (Or.inl hdigit) (by decide)⟩
  · have hall : ['-', 'n', 't', 'f', '"', '[', '\x7b'].all
        fun d => decide (blank d = false ∧ d ≠ ']') := by decide
    exact ⟨c, tail, hc, of_decide_eq_true (List.all_eq_true.mp hall c hmem)⟩

theorem readScalar_number {c : Char} {tail : List Char} (hc : c.isDigit = true ∨ c = '-') :
    readScalar F (c :: tail) =
      (readNumber F (c :: tail)).map fun found => (.num found.1, found.2) := by
  unfold readScalar
  split <;> rename_i heq
  · exact absurd (List.cons.inj heq).1 (ne_of_first hc (by decide))
  · exact absurd (List.cons.inj heq).1 (ne_of_first hc (by decide))
  · exact absurd (List.cons.inj heq).1 (ne_of_first hc (by decide))
  · exact absurd (List.cons.inj heq).1 (ne_of_first hc (by decide))
  · rfl

/-- What does not begin with a bracket is a scalar. -/
theorem readValue_scalar {c : Char} (hc : blank c = false ∧ c ≠ '[' ∧ c ≠ '{') (depth : ℕ)
    (tail : List Char) : readValue F depth (c :: tail) = readScalar F (c :: tail) := by
  cases depth with
  | zero => rw [readValue, skip_cons hc.1]
  | succ depth =>
    rw [readValue, skip_cons hc.1]
    split <;> rename_i heq
    · exact absurd (List.cons.inj heq).1 hc.2.1
    · exact absurd (List.cons.inj heq).1 hc.2.2
    · rfl

theorem readValue_writeNumber {n : JsonNumber} (hfits : fitsNumber n = true) (depth : ℕ)
    {rest : List Char} (hrest : Ends rest) :
    readValue F depth (writeNumber F n ++ rest) = some (.num n, rest) := by
  have hread := readNumber_write F hfits hrest
  obtain ⟨c, tail, hc, hfirst⟩ := head_writeNumber F hfits
  have hscalar : blank c = false ∧ c ≠ '[' ∧ c ≠ '{' :=
    ⟨blank_of_first hfirst, ne_of_first hfirst (by decide), ne_of_first hfirst (by decide)⟩
  rw [hc, List.cons_append] at hread ⊢
  rw [readValue_scalar F hscalar, readScalar_number F hfirst, hread, Option.map_some]

/-- A member with a key greater than those before it comes last. -/
theorem insert_greatest {key : String} {known : List (String × Json)}
    (h : ∀ m ∈ known, m.1 < key) (value : Json) :
    Json.insert key value known = known ++ [(key, value)] := by
  have hlookup : Json.lookup key known = none := by
    induction known with
    | nil => rfl
    | cons m known ih =>
      have hm := h m List.mem_cons_self
      have hne : m.1 ≠ key := fun he => String.lt_irrefl key (he ▸ hm)
      simp only [Json.lookup, hne, ↓reduceIte]
      exact ih fun n hn => h n (List.mem_cons_of_mem m hn)
  have hnew : Json.insertNew key value known = known ++ [(key, value)] := by
    induction known with
    | nil => rfl
    | cons m known ih =>
      have hm := h m List.mem_cons_self
      have hne : m.1 ≠ key := fun he => String.lt_irrefl key (he ▸ hm)
      have hlt : ¬key < m.1 := String.lt_asymm hm
      simp only [Json.lookup, hne, ↓reduceIte] at hlookup
      simp only [Json.insertNew, hlt, ↓reduceIte, List.cons_append]
      rw [ih (fun n hn => h n (List.mem_cons_of_mem m hn)) hlookup]
  rw [Json.insert, hlookup, if_neg (by decide), hnew]

/-- A line break, and the bracket after it, end a number. -/
theorem ends_line (level : ℕ) {c : Char} (hc : c = ']' ∨ c = '}') (rest : List Char) :
    Ends (L.line level ++ c :: rest) := by
  refine ends_append (L.line_blank level) (ends_cons ?_ rest)
  rcases hc with rfl | rfl <;> decide

theorem length_le_writeItems (level : ℕ) : ∀ items : List Json,
    items.length ≤ (writeItems F L level items).length + 1
  | [] => Nat.zero_le _
  | [v] => Nat.le_add_left _ _
  | v :: w :: vs => by
    have ih := length_le_writeItems level (w :: vs)
    simp only [writeItems, List.length_append, List.length_cons] at ih ⊢
    omega

theorem skip_writeItems {depth : ℕ} {v : Json} (hfits : fits depth v = true) (level : ℕ)
    (vs : List Json) (rest : List Char) :
    ∃ c tail, skip (writeItems F L level (v :: vs) ++ rest) = c :: tail ∧ c ≠ ']' := by
  obtain ⟨c, tail, hc, hblank, hend⟩ := head_write F L hfits level
  cases vs <;>
  · rw [writeItems, List.append_assoc, skip_append (L.line_blank level), hc]
    exact ⟨c, _, skip_cons hblank _, hend⟩

theorem skip_writeMembers (level : ℕ) (m : String × Json) (ms : List (String × Json))
    (rest : List Char) :
    ∃ tail, skip (writeMembers F L level (m :: ms) ++ rest) = '"' :: tail := by
  cases ms <;>
  · rw [writeMembers, List.append_assoc, skip_append (L.line_blank level), writeString]
    exact ⟨_, skip_cons (by decide) _⟩

theorem length_le_writeMembers (level : ℕ) : ∀ members : List (String × Json),
    members.length ≤ (writeMembers F L level members).length
  | [] => Nat.zero_le _
  | [(key, v)] => by
    simp only [writeMembers, writeString, List.length_append, List.length_cons]
    omega
  | (key, v) :: w :: ms => by
    have ih := length_le_writeMembers level (w :: ms)
    rw [writeMembers]
    simp only [List.length_append, List.length_cons] at ih ⊢
    omega

mutual

/-- The reader inverts the writers. -/
theorem readValue_write : (v : Json) → (depth level : ℕ) → (rest : List Char) →
    fits depth v = true → Ends rest → readValue F depth (write F L level v ++ rest) = some (v, rest)
  | .null, depth, _, _, _, _ => readValue_scalar F (by decide) depth _
  | .bool true, depth, _, _, _, _ => readValue_scalar F (by decide) depth _
  | .bool false, depth, _, _, _, _ => readValue_scalar F (by decide) depth _
  | .num n, depth, _, _, hfits, hrest =>
    readValue_writeNumber F (by cases depth <;> exact hfits) depth hrest
  | .str s, depth, _, rest, _, _ => by
    have hread := readString_escape s rest
    rw [write, writeString, List.cons_append, List.append_assoc, List.singleton_append,
      readValue_scalar F (by decide)]
    simp only [readScalar, hread, Option.map_some]
  | .arr items, 0, _, _, hfits, _ => absurd hfits Bool.false_ne_true
  | .arr [], depth + 1, _, _, _, _ => rfl
  | .arr (v :: vs), depth + 1, level, rest, hfits, _ => by
    have hitems : fitsItems depth (v :: vs) = true := hfits
    have hv : fits depth v = true := by
      simp only [fitsItems, Bool.and_eq_true] at hitems
      exact hitems.1
    have hlength := length_le_writeItems F L (level + 1) (v :: vs)
    obtain ⟨c, tail, hskip, hend⟩ :=
      skip_writeItems F L hv (level + 1) vs (L.line level ++ ']' :: rest)
    have hread := readItems_write (v :: vs) depth (level + 1) level
      (writeItems F L (level + 1) (v :: vs) ++ (L.line level ++ ']' :: rest)).length rest hitems
      (List.cons_ne_nil v vs) (by
        simp only [List.length_append, List.length_cons] at hlength ⊢
        omega)
    rw [write]
    simp only [List.cons_append, List.append_assoc, List.nil_append, readValue,
      skip_cons (c := '[') (by decide), hskip, hread, Option.map_some]
    split
    · next heq => exact absurd (List.cons.inj heq).1 hend
    · rfl
  | .obj members, 0, _, _, hfits, _ => absurd hfits Bool.false_ne_true
  | .obj [], depth + 1, _, _, _, _ => rfl
  | .obj (m :: ms), depth + 1, level, rest, hfits, _ => by
    have hboth : (m :: ms).Pairwise (fun a b => a.1 < b.1) ∧
        fitsMembers depth (m :: ms) = true := by
      simpa only [fits, Bool.and_eq_true, decide_eq_true_eq] using hfits
    have hlength := length_le_writeMembers F L (level + 1) (m :: ms)
    obtain ⟨tail, hskip⟩ := skip_writeMembers F L (level + 1) m ms (L.line level ++ '}' :: rest)
    have hread := readMembers_write (m :: ms) [] depth (level + 1) level
      (writeMembers F L (level + 1) (m :: ms) ++ (L.line level ++ '}' :: rest)).length rest hboth.2
      hboth.1 (List.cons_ne_nil m ms) (by
        rw [List.length_append]
        omega)
    rw [write]
    simp only [List.cons_append, List.append_assoc, List.nil_append, readValue,
      skip_cons (c := '{') (by decide), hskip, hread, Option.map_some]
    rfl

theorem readItems_write : (items : List Json) → (depth level outer fuel : ℕ) →
    (rest : List Char) → fitsItems depth items = true → items ≠ [] → items.length ≤ fuel →
    readItems (readValue F depth) fuel
      (writeItems F L level items ++ (L.line outer ++ ']' :: rest)) = some (items, rest)
  | [], _, _, _, _, _, _, hne, _ => absurd rfl hne
  | _ :: _, _, _, _, 0, _, _, _, hfuel => absurd hfuel (Nat.not_succ_le_zero _)
  | [v], depth, level, outer, fuel + 1, rest, hfits, _, _ => by
    have hv : fits depth v = true := by
      simpa only [fitsItems, Bool.and_true] using hfits
    have hread := readValue_write v depth level (L.line outer ++ ']' :: rest) hv
      (ends_line L outer (Or.inl rfl) rest)
    have hskip : skip (L.line outer ++ ']' :: rest) = ']' :: rest := by
      rw [skip_append (L.line_blank outer), skip_cons (by decide)]
    simp only [writeItems, List.append_nil, List.append_assoc, readItems,
      readValue_append F depth (L.line_blank level), hread, Option.bind_some, hskip]
  | v :: w :: vs, depth, level, outer, fuel + 1, rest, hfits, _, hfuel => by
    have hboth : fits depth v = true ∧ fitsItems depth (w :: vs) = true := by
      simpa only [fitsItems, Bool.and_eq_true] using hfits
    have hread := readValue_write v depth level
      (',' :: (writeItems F L level (w :: vs) ++ (L.line outer ++ ']' :: rest))) hboth.1
      (ends_cons (by decide) _)
    have hrest := readItems_write (w :: vs) depth level outer fuel rest hboth.2
      (List.cons_ne_nil w vs) (Nat.le_of_succ_le_succ hfuel)
    rw [writeItems]
    simp only [List.append_assoc, List.cons_append, readItems,
      readValue_append F depth (L.line_blank level), hread, Option.bind_some,
      skip_cons (c := ',') (by decide), hrest, Option.map_some]

theorem readMembers_write : (members : List (String × Json)) →
    (known : List (String × Json)) → (depth level outer fuel : ℕ) → (rest : List Char) →
    fitsMembers depth members = true → (known ++ members).Pairwise (fun a b => a.1 < b.1) →
    members ≠ [] → members.length ≤ fuel →
    readMembers (readValue F depth) fuel known
      (writeMembers F L level members ++ (L.line outer ++ '}' :: rest)) =
        some (known ++ members, rest)
  | [], _, _, _, _, _, _, _, _, hne, _ => absurd rfl hne
  | _ :: _, _, _, _, _, 0, _, _, _, _, hfuel => absurd hfuel (Nat.not_succ_le_zero _)
  | [(key, v)], known, depth, level, outer, fuel + 1, rest, hfits, hsorted, _, _ => by
    have hv : fits depth v = true := by
      simpa only [fitsMembers, Bool.and_true] using hfits
    have hread := readValue_write v depth level (L.line outer ++ '}' :: rest) hv
      (ends_line L outer (Or.inr rfl) rest)
    have hkey := readString_escape key
      (':' :: (L.colon ++ (write F L level v ++ (L.line outer ++ '}' :: rest))))
    have hskip : skip (L.line outer ++ '}' :: rest) = '}' :: rest := by
      rw [skip_append (L.line_blank outer), skip_cons (by decide)]
    have hinsert := insert_greatest (fun m hm => (List.pairwise_append.mp hsorted).2.2 m hm _
      List.mem_cons_self) v
    simp only [writeMembers, writeString, List.append_nil, List.append_assoc, List.cons_append,
      List.nil_append, readMembers, skip_append (L.line_blank level),
      skip_cons (c := '"') (by decide), hkey, Option.bind_some, skip_cons (c := ':') (by decide),
      readValue_append F depth L.colon_blank, hread, hskip, hinsert]
  | (key, v) :: w :: ms, known, depth, level, outer, fuel + 1, rest, hfits, hsorted, _, hfuel => by
    have hboth : fits depth v = true ∧ fitsMembers depth (w :: ms) = true := by
      simpa only [fitsMembers, Bool.and_eq_true] using hfits
    have hread := readValue_write v depth level
      (',' :: (writeMembers F L level (w :: ms) ++ (L.line outer ++ '}' :: rest))) hboth.1
      (ends_cons (by decide) _)
    have hkey := readString_escape key (':' :: (L.colon ++ (write F L level v ++
      ',' :: (writeMembers F L level (w :: ms) ++ (L.line outer ++ '}' :: rest)))))
    have hinsert := insert_greatest (fun m hm => (List.pairwise_append.mp hsorted).2.2 m hm _
      List.mem_cons_self) v
    have hassoc : known ++ (key, v) :: w :: ms = known ++ [(key, v)] ++ (w :: ms) := by
      rw [List.append_assoc, List.singleton_append]
    have hrest := readMembers_write (w :: ms) (known ++ [(key, v)]) depth level outer fuel rest
      hboth.2 (hassoc ▸ hsorted) (List.cons_ne_nil w ms) (Nat.le_of_succ_le_succ hfuel)
    rw [writeMembers, hassoc]
    simp only [writeString, List.append_assoc, List.cons_append, List.nil_append, readMembers,
      skip_append (L.line_blank level), skip_cons (c := '"') (by decide), hkey, Option.bind_some,
      skip_cons (c := ':') (by decide), readValue_append F depth L.colon_blank, hread,
      skip_cons (c := ',') (by decide), hinsert, hrest]

end

/-- The text of a value, with blanks after it, is the text of no other value. -/
theorem read_write {v : Json} (hfits : fits 127 v = true) {blanks : List Char}
    (hblanks : ∀ c ∈ blanks, blank c = true) : read F (write F L 0 v ++ blanks) = some v := by
  have hends : Ends blanks := by
    have hnil := ends_append hblanks ends_nil
    rwa [List.append_nil] at hnil
  have hskip : skip blanks = [] := by
    have hnil := skip_append hblanks []
    rwa [List.append_nil] at hnil
  rw [read, readValue_write F L v 127 0 blanks hfits hends, Option.bind_some, if_pos hskip]

end Values

end JsonText
