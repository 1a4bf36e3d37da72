import Resync.Lib.JsonText

/-! How the text of a JSON value stands among other text: without line breaks it is one line, and
what a reader has read it reads again when more text stands behind it. A text that was cut off is
therefore no value, unless it is a number. -/
namespace JsonText

section Lines

variable (F : Floats)

theorem newline_not_mem_toDigits (n : ℕ) : '\n' ∉ Nat.toDigits 10 n := fun h =>
  absurd (Nat.isDigit_of_mem_toDigits (by decide) (by decide) h) (by decide)

/-- A line feed in a string is written as an escape. -/
theorem newline_not_mem_escape (c : Char) : '\n' ∉ escape c := by
  have hdigit : ∀ n < 16, '\n' ≠ Nat.digitChar n := by decide
  unfold escape
  split_ifs with h1 h2 h3 h4 h5 h6 h7 h8
  · decide
  · decide
  · decide
  · decide
  · decide
  · decide
  · decide
  · have hhigh := hdigit (c.toNat / 16) (by omega)
    have hlow := hdigit (c.toNat % 16) (by omega)
    simp [hhigh, hlow]
  · exact fun h => h3 (List.mem_singleton.mp h).symm

theorem newline_not_mem_writeString (s : String) : '\n' ∉ writeString s := by
  intro h
  rw [writeString, List.mem_cons, List.mem_append, List.mem_flatMap, List.mem_singleton] at h
  rcases h with h | ⟨c, -, h⟩ | h
  · exact absurd h (by decide)
  · exact newline_not_mem_escape c h
  · exact absurd h (by decide)

mutual

/-- Without line breaks a value stands on one line. -/
theorem newline_not_mem_write : (v : Json) → (depth level : ℕ) → fits depth v = true →
    '\n' ∉ write F compact level v
  | .null, _, _, _ => by simp [write]
  | .bool true, _, _, _ => by simp [write]
  | .bool false, _, _, _ => by simp [write]
  | .num (.posInt n), _, _, _ => newline_not_mem_toDigits n
  | .num (.negInt n), _, _, _ => fun h => (List.mem_cons.mp h).elim (by decide)
    (newline_not_mem_toDigits n)
  | .num (.float bits), depth, _, hfits => by cases depth <;> exact absurd hfits Bool.false_ne_true
  | .str s, _, _, _ => newline_not_mem_writeString s
  | .arr items, 0, _, hfits => absurd hfits Bool.false_ne_true
  | .arr [], _ + 1, _, _ => by simp [write]
  | .arr (v :: vs), depth + 1, level, hfits => by
    have ih := newline_not_mem_writeItems (v :: vs) depth (level + 1) hfits
    simp [write, compact] at ih ⊢
    exact ih
  | .obj members, 0, _, hfits => absurd hfits Bool.false_ne_true
  | .obj [], _ + 1, _, _ => by simp [write]
  | .obj (m :: ms), depth + 1, level, hfits => by
    have hboth : (m :: ms).Pairwise (fun a b => a.1 < b.1) ∧
        fitsMembers depth (m :: ms) = true := by
      simpa only [fits, Bool.and_eq_true, decide_eq_true_eq] using hfits
    have ih := newline_not_mem_writeMembers (m :: ms) depth (level + 1) hboth.2
    simp [write, compact] at ih ⊢
    exact ih

theorem newline_not_mem_writeItems : (items : List Json) → (depth level : ℕ) →
    fitsItems depth items = true → '\n' ∉ writeItems F compact level items
  | [], _, _, _ => List.not_mem_nil
  | [v], depth, level, hfits => by
    have hv : fits depth v = true := by
      simpa only [fitsItems, Bool.and_true] using hfits
    have ih := newline_not_mem_write v depth level hv
    simpa [writeItems, compact] using ih
  | v :: w :: vs, depth, level, hfits => by
    have hboth : fits depth v = true ∧ fitsItems depth (w :: vs) = true := by
      simpa only [fitsItems, Bool.and_eq_true] using hfits
    have ih := newline_not_mem_write v depth level hboth.1
    have ihs := newline_not_mem_writeItems (w :: vs) depth level hboth.2
    rw [writeItems]
    simp [compact] at ih ihs ⊢
    exact ⟨ih, ihs⟩

theorem newline_not_mem_writeMembers : (members : List (String × Json)) → (depth level : ℕ) →
    fitsMembers depth members = true → '\n' ∉ writeMembers F compact level members
  | [], _, _, _ => List.not_mem_nil
  | [(key, v)], depth, level, hfits => by
    have hv : fits depth v = true := by
      simpa only [fitsMembers, Bool.and_true] using hfits
    have hkey := newline_not_mem_writeString key
    have ih := newline_not_mem_write v depth level hv
    simp [writeMembers, compact] at ih ⊢
    exact ⟨hkey, ih⟩
  | (key, v) :: w :: ms, depth, level, hfits => by
    have hboth : fits depth v = true ∧ fitsMembers depth (w :: ms) = true := by
      simpa only [fitsMembers, Bool.and_eq_true] using hfits
    have hkey := newline_not_mem_writeString key
    have ih := newline_not_mem_write v depth level hboth.1
    have ihs := newline_not_mem_writeMembers (w :: ms) depth level hboth.2
    rw [writeMembers]
    simp [compact] at ih ihs ⊢
    exact ⟨hkey, ih, ihs⟩

end

end Lines

section Extension

theorem skip_extend {text rest : List Char} {c : Char} (h : skip text = c :: rest)
    (more : List Char) : skip (text ++ more) = c :: (rest ++ more) := by
  induction text with
  | nil => exact absurd h (List.cons_ne_nil c rest).symm
  | cons d text ih =>
    by_cases hd : blank d = true
    · simp only [skip, List.cons_append, List.dropWhile_cons, hd, ↓reduceIte] at h ⊢
      exact ih h
    · have hd' : blank d = false := by simpa using hd
      rw [skip_cons hd', List.cons.injEq] at h
      rw [List.cons_append, skip_cons hd', h.1, h.2]

theorem readEscape_extend {text rest : List Char} {c : Char}
    (h : readEscape text = some (c, rest)) (more : List Char) :
    readEscape (text ++ more) = some (c, rest ++ more) := by
  unfold readEscape at h
  split at h
  · next a b c' d tail =>
    simp only [List.cons_append, readEscape]
    cases hfour : hexFour a b c' d with
    | none => simp only [hfour, Option.bind_none, reduceCtorEq] at h
    | some n =>
      simp only [hfour, Option.bind_some] at h ⊢
      split_ifs at h ⊢ with hlow hhigh
      · split at h
        · next e f g i tail =>
          simp only [List.cons_append]
          cases hsecond : hexFour e f g i with
          | none => simp only [hsecond, Option.bind_none, reduceCtorEq] at h
          | some m =>
            simp only [hsecond, Option.bind_some] at h ⊢
            split_ifs at h ⊢ with hpair
            simp only [Option.some_inj, Prod.mk.injEq] at h ⊢
            exact ⟨h.1, congrArg (· ++ more) h.2⟩
        · cases h
      · simp only [Option.some_inj, Prod.mk.injEq] at h ⊢
        exact ⟨h.1, congrArg (· ++ more) h.2⟩
  all_goals cases h <;> rfl

theorem readChar_extend {text rest : List Char} {c : Char} (h : readChar text = some (c, rest))
    (more : List Char) : readChar (text ++ more) = some (c, rest ++ more) := by
  cases text with
  | nil => cases h
  | cons d text =>
    simp only [readChar, List.cons_append] at h ⊢
    split_ifs at h ⊢
    · exact readEscape_extend h more
    · simp only [Option.some_inj, Prod.mk.injEq] at h ⊢
      exact ⟨h.1, congrArg (· ++ more) h.2⟩

theorem readChars_extend {fuel larger : ℕ} {text rest chars : List Char}
    (h : readChars fuel text = some (chars, rest)) (hle : fuel ≤ larger) (more : List Char) :
    readChars larger (text ++ more) = some (chars, rest ++ more) := by
  induction fuel generalizing larger text chars with
  | zero => cases h
  | succ fuel ih =>
    obtain ⟨larger, rfl⟩ := Nat.exists_eq_add_one.mpr (Nat.lt_of_lt_of_le fuel.succ_pos hle)
    cases text with
    | nil => cases h
    | cons d text =>
      simp only [readChars, List.head?_cons, List.tail_cons, List.cons_append,
        Option.some_inj] at h ⊢
      split_ifs at h ⊢
      · simp only [Option.some_inj, Prod.mk.injEq] at h ⊢
        exact ⟨h.1, congrArg (· ++ more) h.2⟩
      · obtain ⟨⟨c, behind⟩, hchar, hrest⟩ := Option.bind_eq_some_iff.mp h
        obtain ⟨⟨found, left⟩, hfound, heq⟩ := Option.map_eq_some_iff.mp hrest
        obtain ⟨rfl, rfl⟩ := Prod.mk.inj heq
        have hnext := readChar_extend hchar more
        have htail := ih hfound (Nat.le_of_succ_le_succ hle)
        rw [List.cons_append] at hnext
        rw [hnext, Option.bind_some, htail, Option.map_some]

/-- A string that was read in front of the end is read the same in front of more text. -/
theorem readString_extend {text rest : List Char} {s : String}
    (h : readString text = some (s, rest)) (more : List Char) :
    readString (text ++ more) = some (s, rest ++ more) := by
  obtain ⟨⟨chars, left⟩, hfound, heq⟩ := Option.map_eq_some_iff.mp h
  simp only [Prod.mk.injEq] at heq
  have hle : text.length ≤ (text ++ more).length := by
    rw [List.length_append]
    exact Nat.le_add_right _ _
  rw [readString, readChars_extend hfound hle more, Option.map_some, heq.1, heq.2]

/-- Digits are cut off only at the end of the text, where more of them may follow. -/
theorem readDigits_extend {text rest digits : List Char}
    (h : readDigits text = some (digits, rest)) (hrest : rest ≠ []) (more : List Char) :
    readDigits (text ++ more) = some (digits, rest ++ more) := by
  have hparts : text.takeWhile Char.isDigit ++ text.dropWhile Char.isDigit = text :=
    List.takeWhile_append_dropWhile
  unfold readDigits at h
  split_ifs at h with hne
  simp only [Option.some_inj, Prod.mk.injEq] at h
  obtain ⟨htake, hdrop⟩ := h
  obtain ⟨c, tail, hc⟩ := List.exists_cons_of_ne_nil hrest
  have hnot : c.isDigit = false := by
    have hhead := List.head?_dropWhile_not Char.isDigit text
    rw [hdrop, hc] at hhead
    simpa using hhead
  have hdigits : ∀ d ∈ digits, d.isDigit = true := by
    intro d hd
    rw [← htake] at hd
    exact List.mem_takeWhile_imp hd
  have htext : text ++ more = digits ++ (c :: (tail ++ more)) := by
    rw [← hparts, htake, hdrop, hc, List.append_assoc, List.cons_append]
  have htaken : (text ++ more).takeWhile Char.isDigit = digits := by
    rw [htext, List.takeWhile_append_of_pos hdigits, List.takeWhile_cons_of_neg (by simp [hnot]),
      List.append_nil]
  have hdropped : (text ++ more).dropWhile Char.isDigit = c :: (tail ++ more) := by
    rw [htext, List.dropWhile_append_of_pos hdigits, List.dropWhile_cons_of_neg (by simp [hnot])]
  rw [readDigits, htaken, hdropped, if_neg (htake ▸ hne), hc, List.cons_append]

theorem readFraction_extend {text rest digits : List Char}
    (h : readFraction text = some (digits, rest)) (hrest : rest ≠ []) (more : List Char) :
    readFraction (text ++ more) = some (digits, rest ++ more) := by
  unfold readFraction at h
  split at h
  · obtain ⟨⟨found, left⟩, hfound, heq⟩ := Option.map_eq_some_iff.mp h
    obtain ⟨rfl, rfl⟩ := Prod.mk.inj heq
    rw [List.cons_append, readFraction, readDigits_extend hfound hrest more, Option.map_some]
  · next hdot =>
    obtain ⟨rfl, rfl⟩ := Prod.mk.inj (Option.some.inj h)
    obtain ⟨c, tail, rfl⟩ := List.exists_cons_of_ne_nil hrest
    unfold readFraction
    split
    · next heq => exact absurd (congrArg (· :: tail) (List.cons.inj heq).1) (hdot tail)
    · rfl

theorem readExponent_extend {text rest digits : List Char}
    (h : readExponent text = some (digits, rest)) (hrest : rest ≠ []) (more : List Char) :
    readExponent (text ++ more) = some (digits, rest ++ more) := by
  cases text with
  | nil => exact absurd (Prod.mk.inj (Option.some.inj h)).2.symm hrest
  | cons c text =>
    simp only [readExponent, List.cons_append] at h ⊢
    split_ifs at h ⊢
    · split at h
      · obtain ⟨⟨found, left⟩, hfound, heq⟩ := Option.map_eq_some_iff.mp h
        obtain ⟨rfl, rfl⟩ := Prod.mk.inj heq
        rw [List.cons_append]
        simp only [readDigits_extend hfound hrest more, Option.map_some]
      · obtain ⟨⟨found, left⟩, hfound, heq⟩ := Option.map_eq_some_iff.mp h
        obtain ⟨rfl, rfl⟩ := Prod.mk.inj heq
        rw [List.cons_append]
        simp only [readDigits_extend hfound hrest more, Option.map_some]
      · next hplus hminus =>
        obtain ⟨⟨found, left⟩, hfound, heq⟩ := Option.map_eq_some_iff.mp h
        obtain ⟨rfl, rfl⟩ := Prod.mk.inj heq
        have hnext := readDigits_extend hfound hrest more
        cases text with
        | nil => cases hfound
        | cons d text =>
          rw [List.cons_append] at hnext ⊢
          split
          · next heq => exact absurd (congrArg (· :: text) (List.cons.inj heq).1) (hplus text)
          · next heq => exact absurd (congrArg (· :: text) (List.cons.inj heq).1) (hminus text)
          · rw [hnext, Option.map_some]
    · obtain ⟨rfl, rfl⟩ := Prod.mk.inj (Option.some.inj h)
      rfl

variable (F : Floats)

theorem readUnsigned_extend {negative : Bool} {text rest : List Char} {n : JsonNumber}
    (h : readUnsigned F negative text = some (n, rest)) (hrest : rest ≠ []) (more : List Char) :
    readUnsigned F negative (text ++ more) = some (n, rest ++ more) := by
  obtain ⟨⟨whole, afterWhole⟩, hwhole, hbehind⟩ := Option.bind_eq_some_iff.mp h
  simp only at hbehind
  have hzero : ¬(whole.head? = some '0' ∧ whole.length ≠ 1) := by
    intro hzero
    rw [if_pos hzero] at hbehind
    cases hbehind
  rw [if_neg hzero] at hbehind
  obtain ⟨⟨fraction, afterFraction⟩, hfraction, htail⟩ := Option.bind_eq_some_iff.mp hbehind
  obtain ⟨⟨exponent, left⟩, hexponent, hvalue⟩ := Option.bind_eq_some_iff.mp htail
  simp only at hfraction hexponent hvalue
  clear h hbehind htail
  -- nothing but what stands behind the exponent is left
  have hleft : left = rest := by
    split_ifs at hvalue
    all_goals first
      | exact (Prod.mk.inj (Option.some.inj hvalue)).2
      | (obtain ⟨bits, -, heq⟩ := Option.map_eq_some_iff.mp hvalue
         exact (Prod.mk.inj heq).2)
  subst hleft
  have hafterFraction : afterFraction ≠ [] := by
    rintro rfl
    exact hrest (Prod.mk.inj (Option.some.inj hexponent)).2.symm
  have hafterWhole : afterWhole ≠ [] := by
    rintro rfl
    exact hafterFraction (Prod.mk.inj (Option.some.inj hfraction)).2.symm
  unfold readUnsigned
  rw [readDigits_extend hwhole hafterWhole more, Option.bind_some, if_neg hzero,
    readFraction_extend hfraction hafterFraction more, Option.bind_some,
    readExponent_extend hexponent hrest more, Option.bind_some]
  simp only
  split_ifs at hvalue ⊢
  all_goals first
    | (obtain ⟨bits, hbits, heq⟩ := Option.map_eq_some_iff.mp hvalue
       rw [hbits, Option.map_some, (Prod.mk.inj heq).1])
    | rw [(Prod.mk.inj (Option.some.inj hvalue)).1]

/-- A number that something follows is whole. -/
theorem readNumber_extend {text rest : List Char} {n : JsonNumber}
    (h : readNumber F text = some (n, rest)) (hrest : rest ≠ []) (more : List Char) :
    readNumber F (text ++ more) = some (n, rest ++ more) := by
  unfold readNumber at h
  split at h
  · exact readUnsigned_extend F h hrest more
  · next hminus =>
    have hnext := readUnsigned_extend F h hrest more
    cases text with
    | nil => cases h
    | cons c text =>
      rw [List.cons_append] at hnext ⊢
      unfold readNumber
      split
      · next heq => exact absurd (congrArg (· :: text) (List.cons.inj heq).1) (hminus text)
      · exact hnext

theorem first_readNumber {text rest : List Char} {n : JsonNumber}
    (h : readNumber F text = some (n, rest)) :
    ∃ c tail, text = c :: tail ∧ (c.isDigit = true ∨ c = '-') := by
  unfold readNumber at h
  split at h
  · exact ⟨_, _, rfl, Or.inr rfl⟩
  · obtain ⟨⟨whole, left⟩, hwhole, -⟩ := Option.bind_eq_some_iff.mp h
    cases text with
    | nil => cases hwhole
    | cons c tail =>
      refine ⟨c, tail, rfl, Or.inl ?_⟩
      by_contra hc
      rw [readDigits, List.takeWhile_cons_of_neg hc, if_pos rfl] at hwhole
      cases hwhole

/-- A value that is not a number is over where its text is. -/
def closed : Json → Bool
  | .num _ => false
  | _ => true

/-- A scalar with a last character of its own is whole at the end of the text too. -/
theorem readScalar_extend {text rest : List Char} {v : Json}
    (h : readScalar F text = some (v, rest)) (hrest : rest ≠ [] ∨ closed v = true)
    (more : List Char) : readScalar F (text ++ more) = some (v, rest ++ more) := by
  unfold readScalar at h
  split at h
  · cases h
    rfl
  · cases h
    rfl
  · cases h
    rfl
  · obtain ⟨⟨s, left⟩, hfound, heq⟩ := Option.map_eq_some_iff.mp h
    obtain ⟨rfl, rfl⟩ := Prod.mk.inj heq
    rw [List.cons_append, readScalar, readString_extend hfound more, Option.map_some]
  · obtain ⟨⟨n, left⟩, hfound, heq⟩ := Option.map_eq_some_iff.mp h
    obtain ⟨rfl, rfl⟩ := Prod.mk.inj heq
    have hnext := readNumber_extend F hfound (hrest.resolve_right Bool.false_ne_true) more
    obtain ⟨c, tail, rfl, hfirst⟩ := first_readNumber F hfound
    rw [List.cons_append] at hnext ⊢
    rw [readScalar_number F hfirst, hnext, Option.map_some]

theorem closed_readScalar {text rest : List Char} {v : Json}
    (h : readScalar F text = some (v, rest))
    (hfirst : ∀ c ∈ text.head?, ¬(c.isDigit = true ∨ c = '-')) : closed v = true := by
  unfold readScalar at h
  split at h
  · cases h
    rfl
  · cases h
    rfl
  · cases h
    rfl
  · obtain ⟨found, -, heq⟩ := Option.map_eq_some_iff.mp h
    rw [← (Prod.mk.inj heq).1]
    rfl
  · obtain ⟨found, hfound, -⟩ := Option.map_eq_some_iff.mp h
    obtain ⟨c, tail, rfl, hnumber⟩ := first_readNumber F hfound
    exact absurd hnumber (hfirst c rfl)

theorem closed_readValue {depth : ℕ} {c : Char} (hblank : blank c = false)
    (hfirst : ¬(c.isDigit = true ∨ c = '-')) {text rest : List Char} {v : Json}
    (h : readValue F depth (c :: text) = some (v, rest)) : closed v = true := by
  have hscalar : ∀ d ∈ (c :: text).head?, ¬(d.isDigit = true ∨ d = '-') := by
    rintro d ⟨⟩
    exact hfirst
  cases depth with
  | zero =>
    rw [readValue, skip_cons hblank] at h
    exact closed_readScalar F h hscalar
  | succ depth =>
    rw [readValue, skip_cons hblank] at h
    split at h
    · split at h
      · cases h
        rfl
      · obtain ⟨found, -, heq⟩ := Option.map_eq_some_iff.mp h
        rw [← (Prod.mk.inj heq).1]
        rfl
    · split at h
      · cases h
        rfl
      · obtain ⟨found, -, heq⟩ := Option.map_eq_some_iff.mp h
        rw [← (Prod.mk.inj heq).1]
        rfl
    · exact closed_readScalar F h hscalar

/-- A reader that goes on in the same way when more text stands behind what it read. -/
def Extends (read : List Char → Option (Json × List Char)) : Prop :=
  ∀ text v rest, read text = some (v, rest) → rest ≠ [] ∨ closed v = true →
    ∀ more, read (text ++ more) = some (v, rest ++ more)

theorem ne_nil_of_skip {text rest : List Char} {c : Char} (h : skip text = c :: rest) :
    text ≠ [] := by
  rintro rfl
  cases h

/-- What is read of the items stays so where what is read of each item does. -/
theorem readItems_extend {read : List Char → Option (Json × List Char)} (hread : Extends read)
    {fuel larger : ℕ} {text rest : List Char} {items : List Json}
    (h : readItems read fuel text = some (items, rest)) (hle : fuel ≤ larger) (more : List Char) :
    readItems read larger (text ++ more) = some (items, rest ++ more) := by
  induction fuel generalizing larger text items with
  | zero => cases h
  | succ fuel ih =>
    obtain ⟨larger, rfl⟩ := Nat.exists_eq_add_one.mpr (Nat.lt_of_lt_of_le fuel.succ_pos hle)
    obtain ⟨⟨item, behind⟩, hitem, hrest⟩ := Option.bind_eq_some_iff.mp h
    simp only at hrest
    split at hrest
    · next tail hskip =>
      obtain ⟨⟨found, left⟩, hfound, heq⟩ := Option.map_eq_some_iff.mp hrest
      obtain ⟨rfl, rfl⟩ := Prod.mk.inj heq
      have hnext := hread _ _ _ hitem (Or.inl (ne_nil_of_skip hskip)) more
      have htail := ih hfound (Nat.le_of_succ_le_succ hle)
      simp only [readItems, hnext, Option.bind_some, skip_extend hskip more, htail, Option.map_some]
    · next tail hskip =>
      obtain ⟨rfl, rfl⟩ := Prod.mk.inj (Option.some.inj hrest)
      have hnext := hread _ _ _ hitem (Or.inl (ne_nil_of_skip hskip)) more
      simp only [readItems, hnext, Option.bind_some, skip_extend hskip more]
    · cases hrest

theorem readMembers_extend {read : List Char → Option (Json × List Char)} (hread : Extends read)
    {fuel larger : ℕ} {known members : List (String × Json)} {text rest : List Char}
    (h : readMembers read fuel known text = some (members, rest)) (hle : fuel ≤ larger)
    (more : List Char) :
    readMembers read larger known (text ++ more) = some (members, rest ++ more) := by
  induction fuel generalizing larger text known with
  | zero => cases h
  | succ fuel ih =>
    obtain ⟨larger, rfl⟩ := Nat.exists_eq_add_one.mpr (Nat.lt_of_lt_of_le fuel.succ_pos hle)
    unfold readMembers at h
    split at h
    case h_2 => cases h
    next start hstart =>
    obtain ⟨⟨key, afterKey⟩, hkey, hbehind⟩ := Option.bind_eq_some_iff.mp h
    simp only at hbehind
    split at hbehind
    case h_2 => cases hbehind
    next colon hcolon =>
    obtain ⟨⟨value, afterValue⟩, hvalue, htail⟩ := Option.bind_eq_some_iff.mp hbehind
    simp only at htail
    split at htail
    · next tail hskip =>
      have hnext := hread _ _ _ hvalue (Or.inl (ne_nil_of_skip hskip)) more
      have hrest := ih htail (Nat.le_of_succ_le_succ hle)
      simp only [readMembers, skip_extend hstart more, readString_extend hkey more,
        Option.bind_some, skip_extend hcolon more, hnext, skip_extend hskip more, hrest]
    · next tail hskip =>
      obtain ⟨rfl, rfl⟩ := Prod.mk.inj (Option.some.inj htail)
      have hnext := hread _ _ _ hvalue (Or.inl (ne_nil_of_skip hskip)) more
      simp only [readMembers, skip_extend hstart more, readString_extend hkey more,
        Option.bind_some, skip_extend hcolon more, hnext, skip_extend hskip more]
    · cases htail

/-- Where items are read, a value is read in front. -/
theorem first_of_readItems {read : List Char → Option (Json × List Char)} {fuel : ℕ}
    {text rest : List Char} {items : List Json}
    (h : readItems read fuel text = some (items, rest)) :
    ∃ found, read text = some found := by
  cases fuel with
  | zero => cases h
  | succ fuel =>
    obtain ⟨found, hfound, -⟩ := Option.bind_eq_some_iff.mp h
    exact ⟨found, hfound⟩

theorem quote_of_readMembers {read : List Char → Option (Json × List Char)} {fuel : ℕ}
    {known members : List (String × Json)} {text rest : List Char}
    (h : readMembers read fuel known text = some (members, rest)) :
    ∃ tail, skip text = '"' :: tail := by
  cases fuel with
  | zero => cases h
  | succ fuel =>
    unfold readMembers at h
    split at h
    · next tail hskip => exact ⟨tail, hskip⟩
    · cases h

/-- The first character of a value that is not a number. -/
theorem head_closed (L : Layout) {v : Json} (hclosed : closed v = true) (level : ℕ) {c : Char}
    {tail : List Char} (h : write F L level v = c :: tail) :
    blank c = false ∧ ¬(c.isDigit = true ∨ c = '-') := by
  cases v with
  | null =>
    obtain ⟨rfl, -⟩ := List.cons.inj h
    decide
  | bool b =>
    cases b <;>
    · obtain ⟨rfl, -⟩ := List.cons.inj h
      decide
  | num n => exact absurd hclosed Bool.false_ne_true
  | str s =>
    obtain ⟨rfl, -⟩ := List.cons.inj h
    decide
  | arr items =>
    cases items <;>
    · obtain ⟨rfl, -⟩ := List.cons.inj h
      decide
  | obj members =>
    cases members <;>
    · obtain ⟨rfl, -⟩ := List.cons.inj h
      decide

theorem ne_nil_of_readValue {depth : ℕ} {text rest : List Char} {v : Json}
    (h : readValue F depth text = some (v, rest)) : skip text ≠ [] := by
  intro hnil
  cases depth <;>
  · rw [readValue, hnil] at h
    cases h

theorem readValue_extend (depth : ℕ) : Extends (readValue F depth) := by
  induction depth with
  | zero =>
    intro text v rest h hrest more
    obtain ⟨c, tail, hskip⟩ := List.exists_cons_of_ne_nil (ne_nil_of_readValue F h)
    rw [readValue, hskip] at h
    have hnext := readScalar_extend F h hrest more
    rw [readValue, skip_extend hskip more]
    exact hnext
  | succ depth ih =>
    intro text v rest h hrest more
    obtain ⟨c, tail, hskip⟩ := List.exists_cons_of_ne_nil (ne_nil_of_readValue F h)
    rw [readValue, hskip] at h
    rw [readValue, skip_extend hskip more]
    have hle : tail.length ≤ (tail ++ more).length := by
      rw [List.length_append]
      exact Nat.le_add_right _ _
    split at h
    · next behind heq =>
      obtain ⟨rfl, rfl⟩ := List.cons.inj heq
      split at h
      · next left hend =>
        obtain ⟨rfl, rfl⟩ := Prod.mk.inj (Option.some.inj h)
        simp only [skip_extend hend more]
      · next hopen =>
        obtain ⟨⟨items, left⟩, hitems, heq⟩ := Option.map_eq_some_iff.mp h
        obtain ⟨rfl, rfl⟩ := Prod.mk.inj heq
        have hnext := readItems_extend ih hitems hle more
        obtain ⟨found, hfirst⟩ := first_of_readItems hitems
        obtain ⟨d, after, hd⟩ := List.exists_cons_of_ne_nil (ne_nil_of_readValue F hfirst)
        simp only [skip_extend hd more, hnext, Option.map_some]
        split
        · next heq =>
          exact absurd (hd.trans (congrArg (· :: after) (List.cons.inj heq).1)) (hopen after)
        · rfl
    · next behind heq =>
      obtain ⟨rfl, rfl⟩ := List.cons.inj heq
      split at h
      · next left hend =>
        obtain ⟨rfl, rfl⟩ := Prod.mk.inj (Option.some.inj h)
        simp only [skip_extend hend more]
      · next hopen =>
        obtain ⟨⟨members, left⟩, hmembers, heq⟩ := Option.map_eq_some_iff.mp h
        obtain ⟨rfl, rfl⟩ := Prod.mk.inj heq
        have hnext := readMembers_extend ih hmembers hle more
        obtain ⟨after, hd⟩ := quote_of_readMembers hmembers
        simp only [skip_extend hd more, hnext, Option.map_some]
        rfl
    · next harray hobject =>
      have hnext := readScalar_extend F h hrest more
      split
      · next heq => exact absurd (congrArg (· :: tail) (List.cons.inj heq).1) (harray tail)
      · next heq => exact absurd (congrArg (· :: tail) (List.cons.inj heq).1) (hobject tail)
      · exact hnext

/-- The text of a value that is not a number is no value where it is cut off. -/
theorem read_of_cut (L : Layout) {v : Json} (hfits : fits 127 v = true)
    (hclosed : closed v = true) {part : List Char} (hpart : part <+: write F L 0 v)
    (hne : part ≠ write F L 0 v) : read F part = none := by
  obtain ⟨more, hmore⟩ := hpart
  cases hread : readValue F 127 part with
  | none => rw [read, hread, Option.bind_none]
  | some found =>
    obtain ⟨w, rest⟩ := found
    have hwhole := readValue_write F L v 127 0 [] hfits ends_nil
    rw [List.append_nil] at hwhole
    have hw : closed w = true := by
      have hpart : part ≠ [] := by
        rintro rfl
        exact ne_nil_of_readValue F hread rfl
      obtain ⟨c, tail, rfl⟩ := List.exists_cons_of_ne_nil hpart
      obtain ⟨hblank, hfirst⟩ := head_closed F L hclosed 0 hmore.symm
      exact closed_readValue F hblank hfirst hread
    have hlonger := readValue_extend F 127 part w rest hread (Or.inr hw) more
    rw [hmore, hwhole] at hlonger
    have hnil := (Prod.mk.inj (Option.some.inj hlonger)).2.symm
    rw [List.append_eq_nil_iff] at hnil
    rw [hnil.2, List.append_nil] at hmore
    exact absurd hmore hne

end Extension

end JsonText
