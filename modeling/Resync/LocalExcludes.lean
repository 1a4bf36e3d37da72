import Resync.HookCommands
import Resync.Lib.Utf8

/-! `ensure_local_excludes` (`cli.rs`): the patterns that the installer puts into a repository's
`info/exclude`. -/
namespace Resync

open Utf8 (isWhitespace)

namespace LocalExcludes

/-- `str::trim`. -/
def trim (text : List Char) : List Char := trimMatches isWhitespace text

def stripReturn (line : List Char) : List Char :=
  if line.getLast? = some '\r' then line.dropLast else line

/-- `str::lines`: what a newline ends is a line, and what is left behind the last one. -/
def lines (contents : List Char) : List (List Char) :=
  let parts := contents.splitOn '\n'
  parts.dropLast.map stripReturn ++ parts.getLast?.toList.filter (· ≠ [])

def hasLine (contents pattern : List Char) : Bool :=
  (lines contents).any fun line => trim line = pattern

/-- The contents with a newline at their end, if they have any. -/
def ended (contents : List Char) : List Char :=
  if contents ≠ [] ∧ contents.getLast? ≠ some '\n' then contents ++ ['\n'] else contents

/-- One turn of the loop, with the variables `contents` and `changed`. -/
def addPattern (state : List Char × Bool) (pattern : List Char) : List Char × Bool :=
  if hasLine state.1 pattern then state else (ended state.1 ++ pattern ++ ['\n'], true)

/-- The file behind the call, where Git knows its path and it can be written. -/
def ensureLocalExcludes (patterns : List (List Char)) (file : Option (List UInt8)) :
    Option (List UInt8) :=
  let contents := (file.bind Utf8.decode).getD []
  let result := patterns.foldl addPattern (contents, false)
  if result.2 then some (Utf8.encode result.1) else file

section Trimming

theorem dropWhile_concat_nil {p : Char → Bool} {x : List Char} (h : x.dropWhile p = []) {c : Char}
    (hc : p c = true) : (x ++ [c]).dropWhile p = [] := by
  rw [List.dropWhile_append, h, List.isEmpty_nil, if_pos rfl, List.dropWhile_cons_of_pos hc]
  rfl

/-- White space at the end is trimmed. -/
theorem trim_concat {c : Char} (hc : isWhitespace c = true) (x : List Char) :
    trim (x ++ [c]) = trim x := by
  rw [trim, trimMatches, trim, trimMatches]
  by_cases hx : x.dropWhile isWhitespace = []
  · rw [hx, dropWhile_concat_nil hx hc]
  · rw [List.dropWhile_append, List.isEmpty_eq_false_iff.mpr hx, if_neg Bool.false_ne_true,
      List.rdropWhile_concat_pos _ _ _ hc]

theorem trim_stripReturn (line : List Char) : trim (stripReturn line) = trim line := by
  rw [stripReturn]
  split
  · next h =>
    obtain ⟨front, rfl⟩ := List.getLast?_eq_some_iff.mp h
    rw [List.dropLast_concat, trim_concat (by decide)]
  · rfl

theorem mem_of_mem_trim {c : Char} {text : List Char} (h : c ∈ trim text) : c ∈ text :=
  (List.dropWhile_suffix _).subset ((List.rdropWhile_prefix _ _).subset h)

/-- What a trimmed text is trimmed to. -/
theorem trim_trim (text : List Char) : trim (trim text) = trim text := by
  have hfront : (trim text).dropWhile isWhitespace = trim text := by
    cases htrim : trim text with
    | nil => rfl
    | cons c rest =>
      have hbegins : c :: rest <+: text.dropWhile isWhitespace := by
        rw [← htrim]
        exact List.rdropWhile_prefix _ _
      have hhead : (text.dropWhile isWhitespace).head? = some c := by
        obtain ⟨more, hmore⟩ := hbegins
        rw [← hmore]
        rfl
      have hnot := List.head?_dropWhile_not isWhitespace text
      rw [hhead] at hnot
      apply List.dropWhile_cons_of_neg
      rw [hnot]
      exact Bool.false_ne_true
  rw [trim, trimMatches, hfront]
  exact List.rdropWhile_idempotent isWhitespace _

end Trimming

section Lines

variable {contents pattern : List Char}

/-- Some part between newlines is the pattern, but for white space around it. -/
def HasPart (contents pattern : List Char) : Prop :=
  ∃ line ∈ contents.splitOn '\n', trim line = pattern

theorem any_lines (parts : List (List Char)) (pattern : List Char) :
    ((parts.map stripReturn).any fun line => trim line = pattern) = true ↔
      ∃ line ∈ parts, trim line = pattern := by
  rw [List.any_map, List.any_eq_true]
  simp only [Function.comp, trim_stripReturn, decide_eq_true_eq]

theorem hasLine_nil (pattern : List Char) : hasLine [] pattern = false := rfl

theorem hasLine_concat (d pattern : List Char) :
    hasLine (d ++ ['\n']) pattern = true ↔ HasPart d pattern := by
  have hsplit : (d ++ ['\n']).splitOn '\n' = d.splitOn '\n' ++ [[]] :=
    List.splitOn_append_cons_self d []
  have hlines : lines (d ++ ['\n']) = (d.splitOn '\n').map stripReturn := by
    rw [lines, hsplit, List.dropLast_concat, List.getLast?_concat]
    exact List.append_nil _
  rw [hasLine, hlines, any_lines, HasPart]

/-- A text that does not end with a newline: its last part is a line, too. -/
theorem hasLine_open (hne : contents ≠ []) (hlast : contents.getLast? ≠ some '\n') :
    hasLine contents pattern = true ↔ HasPart contents pattern := by
  obtain ⟨parts, last, hsplit, hlastne⟩ : ∃ parts last,
      contents.splitOn '\n' = parts ++ [last] ∧ last ≠ [] := by
    by_cases hmem : '\n' ∈ contents
    · obtain ⟨front, last, rfl, hnot⟩ := Splitting.exists_last hmem
      refine ⟨front.splitOn '\n', last, ?_, ?_⟩
      · rw [List.splitOn_append_cons_self, List.splitOn_eq_singleton hnot]
      · rintro rfl
        exact hlast List.getLast?_concat
    · exact ⟨[], contents, List.splitOn_eq_singleton hmem, hne⟩
  have hlines : lines contents = parts.map stripReturn ++ [last] := by
    have hone : ([last].filter fun line => line ≠ []) = [last] :=
      List.filter_cons_of_pos (decide_eq_true hlastne)
    rw [lines, hsplit, List.dropLast_concat, List.getLast?_concat]
    exact congrArg (parts.map stripReturn ++ ·) hone
  rw [hasLine, hlines, List.any_append, Bool.or_eq_true, any_lines, HasPart, hsplit]
  simp only [List.mem_append, List.mem_singleton, List.any_cons, List.any_nil, Bool.or_false,
    decide_eq_true_eq]
  constructor
  · rintro (⟨line, hline, h⟩ | h)
    · exact ⟨line, Or.inl hline, h⟩
    · exact ⟨last, Or.inr rfl, h⟩
  · rintro ⟨line, hline | rfl, h⟩
    · exact Or.inl ⟨line, hline, h⟩
    · exact Or.inr h

/-- The contents in front of which a pattern is put on a line of its own. -/
theorem ended_cases (contents : List Char) :
    ended contents = [] ∧ contents = [] ∨ ∃ d, ended contents = d ++ ['\n'] ∧
      (contents = d ∨ contents = d ++ ['\n']) ∧
      ∀ pattern, hasLine contents pattern = true ↔ HasPart d pattern := by
  by_cases hne : contents = []
  · subst hne
    exact Or.inl ⟨rfl, rfl⟩
  · right
    by_cases hlast : contents.getLast? = some '\n'
    · obtain ⟨d, rfl⟩ := List.getLast?_eq_some_iff.mp hlast
      refine ⟨d, ?_, Or.inr rfl, fun pattern => hasLine_concat d pattern⟩
      rw [ended, if_neg]
      exact fun h => h.2 hlast
    · refine ⟨contents, ?_, Or.inl rfl, fun pattern => hasLine_open hne hlast⟩
      rw [ended, if_pos ⟨hne, hlast⟩]

theorem hasPart_cons (d e pattern : List Char) :
    HasPart (d ++ '\n' :: e) pattern ↔ HasPart d pattern ∨ HasPart e pattern := by
  rw [HasPart, List.splitOn_append_cons_self]
  simp only [List.mem_append, or_and_right, exists_or]
  rfl

/-- What a turn that adds a pattern leaves to be found. -/
theorem hasLine_added (contents added pattern : List Char) :
    hasLine (ended contents ++ added ++ ['\n']) pattern = true ↔
      hasLine contents pattern = true ∨ HasPart added pattern := by
  rw [hasLine_concat]
  rcases ended_cases contents with ⟨hended, rfl⟩ | ⟨d, hended, -, hlines⟩
  · rw [hended, List.nil_append, hasLine_nil]
    constructor
    · exact Or.inr
    · rintro (h | h)
      · cases h
      · exact h
  · rw [hended, List.append_assoc, List.singleton_append, hasPart_cons, hlines]

/-- A pattern that can stand on a line: one line, without white space around it. -/
def IsPattern (pattern : List Char) : Prop := '\n' ∉ pattern ∧ trim pattern = pattern

theorem isPattern_of_hasPart (h : HasPart contents pattern) : IsPattern pattern := by
  obtain ⟨line, hline, rfl⟩ := h
  refine ⟨fun hmem => ?_, trim_trim line⟩
  exact Splitting.not_mem_part hline (mem_of_mem_trim hmem)

theorem hasPart_self (h : IsPattern pattern) : HasPart pattern pattern :=
  ⟨pattern, by rw [List.splitOn_eq_singleton h.1]; exact List.mem_singleton_self _, h.2⟩

theorem hasPart_of_hasLine (h : hasLine contents pattern = true) : HasPart contents pattern := by
  rcases ended_cases contents with ⟨-, rfl⟩ | ⟨d, -, hcontents, hlines⟩
  · rw [hasLine_nil] at h
    cases h
  · have hd := (hlines pattern).mp h
    rcases hcontents with rfl | rfl
    · exact hd
    · exact (hasPart_cons d [] pattern).mpr (Or.inl hd)

theorem isPattern_of_hasLine (h : hasLine contents pattern = true) : IsPattern pattern :=
  isPattern_of_hasPart (hasPart_of_hasLine h)

end Lines

section Patterns

variable {patterns : List (List Char)} {state : List Char × Bool} {pattern : List Char}

theorem prefix_ended (contents : List Char) : contents <+: ended contents := by
  rw [ended]
  split
  · exact List.prefix_append _ _
  · exact List.prefix_rfl

/-- The contents only grow, and the flag tells whether they have. -/
theorem foldl_prefix (patterns : List (List Char)) (state : List Char × Bool) :
    state.1 <+: (patterns.foldl addPattern state).1 ∧
      ((patterns.foldl addPattern state).2 = false →
        patterns.foldl addPattern state = state) := by
  induction patterns generalizing state with
  | nil => exact ⟨List.prefix_rfl, fun _ => rfl⟩
  | cons pattern patterns ih =>
    rw [List.foldl_cons]
    by_cases h : hasLine state.1 pattern = true
    · have hsame : addPattern state pattern = state := if_pos h
      rw [hsame]
      exact ih state
    · have hadd : addPattern state pattern =
          (ended state.1 ++ pattern ++ ['\n'], true) := if_neg h
      obtain ⟨hbegins, hflag⟩ := ih (addPattern state pattern)
      have hgrows : state.1 <+: (addPattern state pattern).1 := by
        rw [hadd, List.append_assoc]
        exact (prefix_ended state.1).trans (List.prefix_append _ _)
      refine ⟨hgrows.trans hbegins, fun hfalse => ?_⟩
      have hback := hflag hfalse
      rw [hback, hadd] at hfalse
      cases hfalse

theorem hasLine_foldl (h : hasLine state.1 pattern = true) (patterns : List (List Char)) :
    hasLine (patterns.foldl addPattern state).1 pattern = true := by
  induction patterns generalizing state with
  | nil => exact h
  | cons other patterns ih =>
    rw [List.foldl_cons]
    apply ih
    rw [addPattern]
    split
    · exact h
    · exact (hasLine_added state.1 other pattern).mpr (Or.inl h)

/-- Every pattern that can stand on a line does so in the end. -/
theorem hasLine_of_mem (hmem : pattern ∈ patterns) (h : IsPattern pattern)
    (state : List Char × Bool) : hasLine (patterns.foldl addPattern state).1 pattern = true := by
  induction patterns generalizing state with
  | nil => cases hmem
  | cons other patterns ih =>
    rw [List.foldl_cons]
    rcases List.mem_cons.mp hmem with rfl | hmem
    · apply hasLine_foldl
      rw [addPattern]
      split
      · next hthere => exact hthere
      · exact (hasLine_added state.1 pattern pattern).mpr (Or.inr (hasPart_self h))
    · exact ih hmem _

theorem foldl_settled (state : List Char × Bool)
    (h : ∀ pattern ∈ patterns, hasLine state.1 pattern = true) :
    patterns.foldl addPattern state = state := by
  induction patterns with
  | nil => rfl
  | cons pattern patterns ih =>
    have hsame : addPattern state pattern = state := if_pos (h pattern List.mem_cons_self)
    rw [List.foldl_cons, hsame]
    exact ih fun other hother => h other (List.mem_cons_of_mem _ hother)

/-- A pattern that is not there changes the contents. -/
theorem foldl_changed (state : List Char × Bool) (hmem : pattern ∈ patterns)
    (h : hasLine state.1 pattern = false) :
    (patterns.foldl addPattern state).2 = true ∧
      (patterns.foldl addPattern state).1 ≠ state.1 := by
  induction patterns with
  | nil => cases hmem
  | cons other patterns ih =>
    rw [List.foldl_cons]
    by_cases hthere : hasLine state.1 other = true
    · have hsame : addPattern state other = state := if_pos hthere
      rw [hsame]
      rcases List.mem_cons.mp hmem with rfl | hmem
      · rw [h] at hthere
        cases hthere
      · exact ih hmem
    · have hadd : addPattern state other =
          (ended state.1 ++ other ++ ['\n'], true) := if_neg hthere
      obtain ⟨hbegins, hflag⟩ := foldl_prefix patterns (addPattern state other)
      constructor
      · by_contra hfalse
        rw [Bool.not_eq_true] at hfalse
        have hback := hflag hfalse
        rw [hback, hadd] at hfalse
        cases hfalse
      · intro hsame
        have hlength := hbegins.length_le
        have hended := (prefix_ended state.1).length_le
        rw [hsame, hadd, List.length_append, List.length_append, List.length_singleton] at hlength
        omega

end Patterns

section Files

/-- A line of the file, between newlines, is the pattern but for white space around it. -/
def StandsOnLine (file : List UInt8) (pattern : List Char) : Prop :=
  ∃ line text, line ∈ file.splitOn (UInt8.ofNat '\n'.toNat) ∧ Utf8.encode text = line ∧
    trim text = pattern

/-- What the call is to do for a file. -/
structure Excludes (patterns : List (List Char)) (file : Option (List UInt8)) : Prop where
  appends : file.getD [] <+: (ensureLocalExcludes patterns file).getD []
  stands : ∀ pattern ∈ patterns,
    StandsOnLine ((ensureLocalExcludes patterns file).getD []) pattern
  again : ensureLocalExcludes patterns (ensureLocalExcludes patterns file) =
    ensureLocalExcludes patterns file
  spares : (∃ bytes, file = some bytes ∧ Utf8.decode bytes = none) →
    ensureLocalExcludes patterns file = file

variable {patterns : List (List Char)} {file : Option (List UInt8)} {contents : List Char}

theorem standsOnLine_encode {pattern : List Char} (h : HasPart contents pattern) :
    StandsOnLine (Utf8.encode contents) pattern := by
  obtain ⟨line, hline, htrim⟩ := h
  refine ⟨Utf8.encode line, line, ?_, rfl, htrim⟩
  rw [Utf8.splitOn_encode (by decide)]
  exact List.mem_map_of_mem hline

/-- The contents that the call works on, of a file that is a text or is not there. -/
theorem text_cases (h : ∀ bytes, file = some bytes → Utf8.decode bytes ≠ none) :
    ∃ contents, (file.bind Utf8.decode).getD [] = contents ∧
      file.getD [] = Utf8.encode contents := by
  cases file with
  | none => exact ⟨[], rfl, rfl⟩
  | some bytes =>
    obtain ⟨contents, hcontents⟩ := Option.ne_none_iff_exists'.mp (h bytes rfl)
    refine ⟨contents, ?_, (Utf8.decode_eq_some_iff.mp hcontents).symm⟩
    rw [Option.bind_some, hcontents]
    rfl

theorem ensure_of_changed (hcontents : (file.bind Utf8.decode).getD [] = contents)
    (h : (patterns.foldl addPattern (contents, false)).2 = true) :
    ensureLocalExcludes patterns file =
      some (Utf8.encode (patterns.foldl addPattern (contents, false)).1) := by
  rw [ensureLocalExcludes, hcontents]
  exact if_pos h

theorem ensure_of_unchanged (hcontents : (file.bind Utf8.decode).getD [] = contents)
    (h : (patterns.foldl addPattern (contents, false)).2 = false) :
    ensureLocalExcludes patterns file = file := by
  rw [ensureLocalExcludes, hcontents]
  exact if_neg (by rw [h]; exact Bool.false_ne_true)

theorem decode_written (contents : List Char) :
    ((some (Utf8.encode contents)).bind Utf8.decode).getD [] = contents := by
  rw [Option.bind_some, Utf8.decode_eq_some_iff.mpr rfl]
  rfl

theorem excludes_of_text (htext : ∀ bytes, file = some bytes → Utf8.decode bytes ≠ none)
    (hpatterns : ∀ pattern ∈ patterns, IsPattern pattern) : Excludes patterns file := by
  obtain ⟨contents, hcontents, hfile⟩ := text_cases htext
  have hspares : (∃ bytes, file = some bytes ∧ Utf8.decode bytes = none) →
      ensureLocalExcludes patterns file = file := by
    rintro ⟨bytes, hbytes, hnone⟩
    exact absurd hnone (htext bytes hbytes)
  have hthere (pattern : List Char) (hmem : pattern ∈ patterns) :
      hasLine (patterns.foldl addPattern (contents, false)).1 pattern = true :=
    hasLine_of_mem hmem (hpatterns pattern hmem) (contents, false)
  obtain ⟨hbegins, hflag⟩ := foldl_prefix patterns (contents, false)
  cases hchanged : (patterns.foldl addPattern (contents, false)).2 with
  | false =>
    have hsame := ensure_of_unchanged hcontents hchanged
    refine ⟨?_, fun pattern hmem => ?_, ?_, hspares⟩
    · rw [hsame]
    · have hline := hthere pattern hmem
      rw [hflag hchanged] at hline
      rw [hsame, hfile]
      exact standsOnLine_encode (hasPart_of_hasLine hline)
    · rw [hsame, hsame]
  | true =>
    have hnew := ensure_of_changed hcontents hchanged
    refine ⟨?_, fun pattern hmem => ?_, ?_, hspares⟩
    · rw [hnew, hfile]
      exact Utf8.encode_prefix.mpr hbegins
    · rw [hnew]
      exact standsOnLine_encode (hasPart_of_hasLine (hthere pattern hmem))
    · -- the second run finds every pattern
      have hsettled := foldl_settled ((patterns.foldl addPattern (contents, false)).1, false) hthere
      rw [hnew]
      apply ensure_of_unchanged (decode_written _)
      rw [hsettled]

/-- For every content of the file and every list of patterns: the call does what it is to do
exactly when there is no pattern, or the content is a text (or not there) and each pattern is
one line without white space around it. -/
theorem excludes_iff (patterns : List (List Char)) (file : Option (List UInt8)) :
    Excludes patterns file ↔ patterns = [] ∨
      (∀ bytes, file = some bytes → Utf8.decode bytes ≠ none) ∧
        ∀ pattern ∈ patterns, IsPattern pattern := by
  constructor
  · intro h
    by_cases hempty : patterns = []
    · exact Or.inl hempty
    refine Or.inr ⟨fun bytes hbytes hnone => ?_, fun pattern hmem => ?_⟩
    · -- what is not a text is read as nothing, and the first pattern is added to that
      obtain ⟨pattern, hmem⟩ := List.exists_mem_of_ne_nil patterns hempty
      have hcontents : (file.bind Utf8.decode).getD [] = [] := by
        rw [hbytes, Option.bind_some, hnone]
        rfl
      have hchanged := (foldl_changed ([], false) hmem (hasLine_nil pattern)).1
      have hspared := h.spares ⟨bytes, hbytes, hnone⟩
      rw [ensure_of_changed hcontents hchanged, hbytes] at hspared
      rw [← Option.some.inj hspared, Utf8.decode_eq_some_iff.mpr rfl] at hnone
      cases hnone
    · by_contra hbad
      have hnever (contents : List Char) : hasLine contents pattern = false := by
        rw [Bool.eq_false_iff]
        intro hline
        exact hbad (isPattern_of_hasLine hline)
      have hfirst := (foldl_changed ((file.bind Utf8.decode).getD [], false) hmem (hnever _)).1
      have hnew := ensure_of_changed rfl hfirst
      obtain ⟨hsecond, hne⟩ := foldl_changed
        ((patterns.foldl addPattern ((file.bind Utf8.decode).getD [], false)).1, false) hmem
        (hnever _)
      have hagain := h.again
      rw [hnew, ensure_of_changed (decode_written _) hsecond] at hagain
      exact hne (Utf8.encode_injective (Option.some.inj hagain))
  · rintro (rfl | ⟨htext, hpatterns⟩)
    · have hsame : ensureLocalExcludes [] file = file := rfl
      refine ⟨?_, fun pattern hmem => (by cases hmem), ?_, fun _ => hsame⟩
      · rw [hsame]
      · rw [hsame]
        exact hsame
    · exact excludes_of_text htext hpatterns

/-- A file with a line that is not UTF-8 loses it. -/
theorem latin_line_is_lost :
    ¬ Excludes ["/.codex/hooks.json".toList] (some [0xE9, 0x0A]) := by
  intro h
  have hnone : Utf8.decode [0xE9, 0x0A] = none := by decide
  have hspared := h.spares ⟨_, rfl, hnone⟩
  have hlost : ensureLocalExcludes ["/.codex/hooks.json".toList] (some [0xE9, 0x0A]) =
      some (Utf8.encode "/.codex/hooks.json\n".toList) := by decide
  rw [hlost] at hspared
  exact absurd (Option.some.inj hspared) (by decide)

end Files

end LocalExcludes

end Resync
