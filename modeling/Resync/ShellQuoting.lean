import Resync.HookCommands
import Resync.SyncCommands

/-! `shell_command_segments` (`cli.rs`) on commands whose words `shell_quote`
(`hook_dispatcher.rs`) has quoted: the hook's lexer gives the words back. -/
namespace Resync

namespace ShellCommand

/-- The words of one simple command; none is empty. -/
structure Arguments where
  words : List String
  nonempty : words ≠ []
  texts : ∀ word ∈ words, word ≠ ""

/-- The words quoted, with a space between two of them. -/
def Arguments.text (arguments : Arguments) : List Char :=
  [' '].intercalate (arguments.words.map fun word => shellQuote word.toList)

/-- Simple commands, each but the first behind the operator that joins it. -/
structure Joined where
  first : Arguments
  rest : List (Char × Arguments)
  joints : ∀ next ∈ rest, next.1 ∈ operators

def Joined.text (command : Joined) : List Char :=
  command.first.text ++ command.rest.flatMap fun next => next.1 :: next.2.text

def Joined.lists (command : Joined) : List (List String) :=
  command.first.words :: command.rest.map fun next => next.2.words

section Quoting

variable {s : Scan} {segments : List (List String)} {segment : List String}

/-- An escaped character behind an opening quote is read as itself. -/
theorem scan_escapeQuote (c : Char) (part : List Char) :
    (escapeQuote c).foldl Scan.next ⟨segments, segment, part, some '\'', false⟩ =
      ⟨segments, segment, part ++ [c], some '\'', false⟩ := by
  by_cases hc : c = '\''
  · -- the quote is closed, the character comes behind a backslash, and a quote is opened again
    rw [hc]
    rfl
  · rw [escapeQuote, if_neg hc]
    exact scan_single (fun hmem => hc (List.mem_singleton.mp hmem).symm) part

theorem scan_escaped (text part : List Char) :
    (text.flatMap escapeQuote).foldl Scan.next ⟨segments, segment, part, some '\'', false⟩ =
      ⟨segments, segment, part ++ text, some '\'', false⟩ := by
  induction text generalizing part with
  | nil => rw [List.flatMap_nil, List.foldl_nil, List.append_nil]
  | cons c text ih =>
    rw [List.flatMap_cons, List.foldl_append, scan_escapeQuote, ih, List.append_assoc,
      List.singleton_append]

/-- A quoted text is added to the word that has begun. -/
theorem scan_shellQuote (text part : List Char) :
    (shellQuote text).foldl Scan.next ⟨segments, segment, part, none, false⟩ =
      ⟨segments, segment, part ++ text, none, false⟩ := by
  have hopen : Scan.next ⟨segments, segment, part, none, false⟩ '\'' =
      ⟨segments, segment, part, some '\'', false⟩ := rfl
  have hclose : Scan.next ⟨segments, segment, part ++ text, some '\'', false⟩ '\'' =
      ⟨segments, segment, part ++ text, none, false⟩ := rfl
  rw [shellQuote, List.cons_append, List.foldl_cons, hopen, List.foldl_append, scan_escaped,
    List.foldl_cons, List.foldl_nil, hclose]

/-- A quoted word is a word of its own behind a space or an operator. -/
theorem scan_word_quoted {word : String} (hword : word ≠ "") (segments : List (List String))
    (segment : List String) :
    ((shellQuote word.toList).foldl Scan.next ⟨segments, segment, [], none, false⟩).Between
      segments (segment ++ [word]) := by
  have hne : word.toList ≠ [] := fun hnil => hword (String.toList_eq_nil_iff.mp hnil)
  have hone : (nonempty word.toList).map String.ofList = [word] := by
    rw [nonempty, List.isEmpty_eq_false_iff.mpr hne, if_neg Bool.false_ne_true, List.map_singleton,
      String.ofList_toList]
  have hbetween := between_start segments segment word.toList
  rw [hone] at hbetween
  rw [scan_shellQuote, List.nil_append]
  exact hbetween

/-- The words of a simple command, one after another. -/
theorem scan_words {words : List String} (hne : words ≠ []) (htexts : ∀ word ∈ words, word ≠ "")
    (segments : List (List String)) (segment : List String) :
    (([' '].intercalate (words.map fun word => shellQuote word.toList)).foldl Scan.next
      ⟨segments, segment, [], none, false⟩).Between segments (segment ++ words) := by
  induction words generalizing segment with
  | nil => exact absurd rfl hne
  | cons word words ih =>
    have hword := scan_word_quoted (htexts word List.mem_cons_self) segments segment
    cases words with
    | nil =>
      rw [List.map_singleton, List.intercalate_singleton]
      exact hword
    | cons next words =>
      have hrest := ih (List.cons_ne_nil next words)
        (fun w hw => htexts w (List.mem_cons_of_mem word hw)) (segment ++ [word])
      rw [List.append_assoc, List.singleton_append] at hrest
      rw [List.map_cons, List.map_cons, List.intercalate_cons_cons, List.foldl_append,
        List.foldl_append, List.foldl_cons, List.foldl_nil, hword.blank (Or.inl rfl)]
      exact hrest

/-- The simple commands behind the first one; `segment` holds the words of the one before. -/
theorem scan_joined {rest : List (Char × Arguments)} (hjoints : ∀ next ∈ rest, next.1 ∈ operators)
    (h : s.Between segments segment) (hsegment : segment ≠ []) :
    ∃ found group,
      ((rest.flatMap fun next => next.1 :: next.2.text).foldl Scan.next s).Between found group ∧
      found ++ nonempty group = segments ++ segment :: rest.map fun next => next.2.words := by
  induction rest generalizing s segments segment with
  | nil =>
    refine ⟨segments, segment, h, ?_⟩
    rw [nonempty, List.isEmpty_eq_false_iff.mpr hsegment, if_neg Bool.false_ne_true, List.map_nil]
  | cons next rest ih =>
    have hone : nonempty segment = [segment] := by
      rw [nonempty, List.isEmpty_eq_false_iff.mpr hsegment, if_neg Bool.false_ne_true]
    have hwords := scan_words next.2.nonempty next.2.texts (segments ++ [segment]) []
    rw [List.nil_append] at hwords
    obtain ⟨found, group, hbetween, hfound⟩ :=
      ih (fun n hn => hjoints n (List.mem_cons_of_mem next hn)) hwords next.2.nonempty
    refine ⟨found, group, ?_, ?_⟩
    · rw [List.flatMap_cons, List.cons_append, List.foldl_cons,
        h.operator (hjoints next List.mem_cons_self), hone, List.foldl_append]
      exact hbetween
    · rw [hfound, List.map_cons, List.append_assoc, List.singleton_append]

end Quoting

/-- Quoting and joining is undone by the lexer. -/
theorem segments_joined (command : Joined) :
    ShellCommand.segments (String.ofList command.text) = command.lists := by
  obtain ⟨first, rest, hjoints⟩ := command
  have hfirst : (first.text.foldl Scan.next ⟨[], [], [], none, false⟩).Between [] first.words :=
    scan_words first.nonempty first.texts [] []
  obtain ⟨found, group, hbetween, hfound⟩ := scan_joined hjoints hfirst first.nonempty
  have htext : (Joined.text ⟨first, rest, hjoints⟩).foldl Scan.next ⟨[], [], [], none, false⟩ =
      (rest.flatMap fun next => next.1 :: next.2.text).foldl Scan.next
        (first.text.foldl Scan.next ⟨[], [], [], none, false⟩) := List.foldl_append
  rw [ShellCommand.segments, String.toList_ofList, htext]
  rw [hbetween.escaped, if_neg Bool.false_ne_true, hbetween.flushed, flushSegment_eq, hfound]
  rfl

end ShellCommand

end Resync
