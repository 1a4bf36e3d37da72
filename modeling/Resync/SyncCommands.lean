import Mathlib.Data.List.Chain
import Resync.ToolHooks

/-! Which Bash commands run the sync barrier, by the shell's words and the CLI's own reading of
them, and which of these the hook's lexer recognizes. -/
namespace Resync

open Utf8 (isWhitespace)

namespace ShellCommand

/-- The characters that have a meaning of their own in a bare word. -/
def shellSpecial : List Char :=
  [' ', '\t', '\n', '\'', '"', '\\', ';', '|', '&', '(', ')', '<', '>', '$', '`', '*', '?', '[',
    ']', '{', '}', '~', '#', '!']

/-- A word of a command, bare or quoted as a whole. -/
inductive Word where
  | bare (text : List Char) (plain : text ≠ [] ∧ ∀ c ∈ text, c ∉ shellSpecial)
  | single (text : List Char) (plain : '\'' ∉ text)
  | double (text : List Char)

/-- What the program gets as its argument. -/
def Word.value : Word → List Char
  | .bare text _ | .single text _ | .double text => text

/-- Between double quotes these are written with a backslash. -/
def escapeDouble (c : Char) : List Char :=
  if c ∈ ['"', '\\', '$', '`'] then ['\\', c] else [c]

/-- A word that sets a variable where it stands ahead of the program. -/
def Word.assigns : Word → Bool
  | .bare text _ =>
    let name := text.takeWhile fun c => c.isAlphanum || c == '_'
    let rest := text.dropWhile fun c => c.isAlphanum || c == '_'
    !name.isEmpty && !name.head?.any Char.isDigit &&
      (rest.head? == some '=' || rest.take 2 == ['+', '='])
  | _ => false

def Word.text : Word → List Char
  | .bare text _ => text
  | .single text _ => '\'' :: text ++ ['\'']
  | .double text => '"' :: text.flatMap escapeDouble ++ ['"']

def operators : List Char := [';', '|', '&', '(', ')']

inductive Token where
  | word (w : Word)
  | blank (tab : Bool)
  | newline
  | operator (c : Char) (plain : c ∈ operators)

namespace Token

def text : Token → List Char
  | .word w => w.text
  | .blank tab => [if tab then '\t' else ' ']
  | .newline => ['\n']
  | .operator c _ => [c]

def isWord : Token → Bool
  | .word _ => true
  | _ => false

def isOperator : Token → Bool
  | .operator .. => true
  | _ => false

/-- What ends a simple command. -/
def endsCommand : Token → Bool
  | .operator .. | .newline => true
  | _ => false

def words : Token → List Word
  | .word w => [w]
  | _ => []

end Token

/-- A command line; two words have something between them. -/
structure CommandLine where
  tokens : List Token
  apart : tokens.IsChain fun a b => (a.isWord && b.isWord) = false

def textOf (tokens : List Token) : List Char := tokens.flatMap Token.text

def CommandLine.text (line : CommandLine) : String := String.ofList (textOf line.tokens)

/-- A list without its front, where that is empty. -/
def nonempty {α : Type} (front : List α) : List (List α) := if front.isEmpty then [] else [front]

/-- The groups of words between tokens that end one; `group` is the one that has begun. -/
def gather {α : Type} (ends : Token → Bool) (words : Token → List α) :
    List α → List Token → List (List α)
  | group, [] => nonempty group
  | group, t :: tokens =>
    if ends t then nonempty group ++ gather ends words [] tokens
    else gather ends words (group ++ words t) tokens

/-- The program of a simple command and its arguments. A reserved word, with which no simple
command begins, is taken for a program. -/
def program (words : List Word) : List String :=
  (words.dropWhile Word.assigns).map fun w => String.ofList w.value

/-- The simple commands; one that only sets variables has no program. -/
def CommandLine.commands (line : CommandLine) : List (List String) :=
  (gather Token.endsCommand Token.words [] line.tokens).map program

/-- The parts of a bare word between white space, of which Unicode has more than the shell. -/
def pieces : List Char → List Char → List (List Char)
  | part, [] => nonempty part
  | part, c :: text =>
    if isWhitespace c then nonempty part ++ pieces [] text else pieces (part ++ [c]) text

/-- The words that the hook reads of a token. -/
def Token.lexed : Token → List String
  | .word (.bare text _) => (pieces [] text).map String.ofList
  | .word (.single text _) | .word (.double text) => (nonempty text).map String.ofList
  | _ => []

/-- The groups of simple commands that only lines separate, with the words that the hook reads. -/
def CommandLine.runs (line : CommandLine) : List (List String) :=
  gather Token.isOperator Token.lexed [] line.tokens

end ShellCommand

section Cli

/-- The `--state-dir` options at the front, and the rest. -/
def splitStateDir : List String → List String × List String
  | [] => ([], [])
  | [arg] =>
    if arg = "--state-dir" ∨ "--state-dir=".toList.isPrefixOf arg.toList then ([arg], [])
    else ([], [arg])
  | arg :: value :: args =>
    if arg = "--state-dir" then
      (arg :: value :: (splitStateDir args).1, (splitStateDir args).2)
    else if "--state-dir=".toList.isPrefixOf arg.toList then
      (arg :: (splitStateDir (value :: args)).1, (splitStateDir (value :: args)).2)
    else ([], arg :: value :: args)

def knownCommands : List String :=
  ["auth", "project", "device", "lease", "peer", "daemon", "doctor", "upgrade",
    "activate-upgrade", "gc", "transaction-debug", "install-adapters", "workspace", "acquire",
    "release", "codex-hook", "codex-workspace-hook", "report-commit", "report-checkout", "help"]

def replacements : String → Option (List String)
  | "login" => some ["auth", "login"]
  | "init" => some ["project", "init"]
  | "join" | "subscribe" => some ["project", "join"]
  | "fork" => some ["project", "fork"]
  | "unsubscribe" => some ["project", "leave"]
  | "status" => some ["project", "status"]
  | "sync" => some ["project", "sync"]
  | "publish" => some ["project", "publish"]
  | "conflicts" => some ["project", "conflicts"]
  | "recover" => some ["project", "recover"]
  | "devices" => some ["device", "list"]
  | _ => none

def preprocessArguments (args : List String) : List String :=
  match args with
  | [] => args
  | program :: rest =>
    match (splitStateDir rest).2 with
    | [] => args
    | value :: tail =>
      match replacements value with
      | some replacement => program :: (splitStateDir rest).1 ++ replacement ++ tail
      | none =>
        if value ∉ knownCommands ∧ value.toList.head? ≠ some '-' then
          program :: (splitStateDir rest).1 ++ ["peer", "sync"] ++ value :: tail
        else args

/-- Where the parser stands: before a command, before one of `project`, or in `project sync`,
with its project given or not. -/
inductive CliLevel where
  | root | project
  | sync (given : Bool)
deriving DecidableEq

/-- The `Cli` grammar accepts the arguments as `project sync`. The option `--state-dir` is
global: it may stand at every level, once, and `seen` says that it has at this one. -/
def resolvesToSync (level : CliLevel) (seen : Bool) : List String → Bool
  | [] => level = .sync false || level = .sync true
  | [arg] =>
    if arg = "--state-dir" then false
    else if "--state-dir=".toList.isPrefixOf arg.toList then
      !seen && arg ≠ "--state-dir=" && (level = .sync false || level = .sync true)
    else match level with
      | .root => false
      | .project => arg = "sync"
      | .sync given => arg = "--" || (!given && (arg.toList.head? ≠ some '-' || arg = "-"))
  | arg :: value :: args =>
    if arg = "--state-dir" then
      !seen && value ≠ "" && (value.toList.head? ≠ some '-' || value = "-") &&
        resolvesToSync level true args
    else if "--state-dir=".toList.isPrefixOf arg.toList then
      !seen && arg ≠ "--state-dir=" && resolvesToSync level true (value :: args)
    else match level with
      | .root => arg = "project" && resolvesToSync .project false (value :: args)
      | .project => arg = "sync" && resolvesToSync (.sync false) false (value :: args)
      | .sync given =>
        if arg = "--" then !given && args.isEmpty
        else !given && (arg.toList.head? ≠ some '-' || arg = "-") &&
          resolvesToSync (.sync true) seen (value :: args)

/-- The program is RepoSync's, and `run` dispatches its arguments to `project sync`. -/
def runsProjectSync (words : List String) : Bool :=
  words.head?.bind ShellCommand.fileName == some "resync" &&
    !((preprocessArguments words).any fun arg => arg = "--version" || arg = "-V") &&
    resolvesToSync .root false ((preprocessArguments words).drop 1)

end Cli

namespace ShellCommand

section Lexing

/-- What `flush_word` leaves of a scan outside of quotes. -/
structure Scan.Between (s : Scan) (segments : List (List String)) (segment : List String) : Prop where
  quote : s.quote = none
  escaped : s.escaped = false
  flushed : s.flushWord = ⟨segments, segment, [], none, false⟩

theorem flushWord_eq (segments : List (List String)) (segment : List String) (word : List Char) :
    (⟨segments, segment, word, none, false⟩ : Scan).flushWord =
      ⟨segments, segment ++ (nonempty word).map String.ofList, [], none, false⟩ := by
  cases word with
  | nil =>
    have hnil : segment ++ (nonempty []).map String.ofList = segment := List.append_nil segment
    rw [hnil]
    rfl
  | cons c word => rfl

theorem between_start (segments : List (List String)) (segment : List String) (word : List Char) :
    Scan.Between ⟨segments, segment, word, none, false⟩ segments
      (segment ++ (nonempty word).map String.ofList) :=
  ⟨rfl, rfl, flushWord_eq segments segment word⟩

theorem flushSegment_eq (segments : List (List String)) (segment : List String) :
    (⟨segments, segment, [], none, false⟩ : Scan).flushSegment =
      ⟨segments ++ nonempty segment, [], [], none, false⟩ := by
  cases segment with
  | nil =>
    have hnil : segments ++ nonempty [] = segments := List.append_nil segments
    rw [hnil]
    rfl
  | cons word segment => rfl

variable {s : Scan} {segments : List (List String)} {segment : List String}

/-- Outside of quotes, where a character is none that quotes. -/
theorem Scan.Between.next (h : s.Between segments segment) {c : Char}
    (hc : c ≠ '\\' ∧ c ≠ '\'' ∧ c ≠ '"') :
    s.next c = if isWhitespace c then s.flushWord
      else if c ∈ operators then s.flushWord.flushSegment else s.push c := by
  obtain ⟨hbackslash, hsingle, hdouble⟩ := hc
  have hquotes : (c == '\'' || c == '"') = false := by
    rw [beq_false_of_ne hsingle, beq_false_of_ne hdouble]
    rfl
  rw [Scan.next, h.escaped, if_neg (by decide), h.quote]
  simp only [beq_false_of_ne hbackslash, hquotes, Bool.false_eq_true, if_false, operators]
  rfl

theorem Scan.Between.blank (h : s.Between segments segment) {c : Char}
    (hc : c = ' ' ∨ c = '\t' ∨ c = '\n') :
    s.next c = ⟨segments, segment, [], none, false⟩ := by
  have hwhite : isWhitespace c = true := by
    rcases hc with rfl | rfl | rfl
    · decide
    · decide
    · decide
  have hplain : c ≠ '\\' ∧ c ≠ '\'' ∧ c ≠ '"' := by
    rcases hc with rfl | rfl | rfl
    · decide
    · decide
    · decide
  rw [h.next hplain, if_pos hwhite, h.flushed]

theorem Scan.Between.operator (h : s.Between segments segment) {c : Char} (hc : c ∈ operators) :
    s.next c = ⟨segments ++ nonempty segment, [], [], none, false⟩ := by
  have hall : (operators.all fun c =>
      c ≠ '\\' ∧ c ≠ '\'' ∧ c ≠ '"' ∧ isWhitespace c = false) = true := by decide
  obtain ⟨hbackslash, hsingle, hdouble, hwhite⟩ :=
    of_decide_eq_true (List.all_eq_true.mp hall c hc)
  rw [h.next ⟨hbackslash, hsingle, hdouble⟩, hwhite, if_neg (by decide), if_pos hc, h.flushed,
    flushSegment_eq]

/-- A bare word, from a part of it that was read. -/
theorem scan_bare {text : List Char} (hplain : ∀ c ∈ text, c ∉ shellSpecial) (part : List Char)
    (segments : List (List String)) (segment : List String) :
    (text.foldl Scan.next ⟨segments, segment, part, none, false⟩).Between segments
      (segment ++ (pieces part text).map String.ofList) := by
  induction text generalizing part segment with
  | nil => exact between_start segments segment part
  | cons c text ih =>
    have hrest : ∀ c ∈ text, c ∉ shellSpecial := fun d hd => hplain d (List.mem_cons_of_mem _ hd)
    have hc := hplain c List.mem_cons_self
    have hquotes : c ≠ '\\' ∧ c ≠ '\'' ∧ c ≠ '"' := by
      refine ⟨?_, ?_, ?_⟩
      · rintro rfl
        exact hc (by decide)
      · rintro rfl
        exact hc (by decide)
      · rintro rfl
        exact hc (by decide)
    have hoperator : c ∉ operators := by
      have hsub : (operators.all fun d => d ∈ shellSpecial) = true := by decide
      exact fun hmem => hc (of_decide_eq_true (List.all_eq_true.mp hsub c hmem))
    rw [List.foldl_cons, (between_start segments segment part).next hquotes, pieces]
    by_cases hwhite : isWhitespace c = true
    · rw [if_pos hwhite, if_pos hwhite, flushWord_eq, List.map_append, ← List.append_assoc]
      exact ih hrest [] _
    · rw [if_neg hwhite, if_neg hwhite, if_neg hoperator]
      exact ih hrest (part ++ [c]) segment

theorem scan_single {text : List Char} (hplain : '\'' ∉ text) (part : List Char) :
    text.foldl Scan.next ⟨segments, segment, part, some '\'', false⟩ =
      ⟨segments, segment, part ++ text, some '\'', false⟩ := by
  induction text generalizing part with
  | nil => rw [List.foldl_nil, List.append_nil]
  | cons c text ih =>
    have hc : (c == '\'') = false :=
      beq_false_of_ne fun he => hplain (he ▸ List.mem_cons_self)
    have hrest : '\'' ∉ text := fun hmem => hplain (List.mem_cons_of_mem _ hmem)
    have hnext : Scan.next ⟨segments, segment, part, some '\'', false⟩ c =
        ⟨segments, segment, part ++ [c], some '\'', false⟩ := by
      simp only [Scan.next, hc, Bool.false_eq_true, if_false]
      rfl
    rw [List.foldl_cons, hnext, ih hrest, List.append_assoc, List.singleton_append]

theorem scan_double (text part : List Char) :
    (text.flatMap escapeDouble).foldl Scan.next ⟨segments, segment, part, some '"', false⟩ =
      ⟨segments, segment, part ++ text, some '"', false⟩ := by
  induction text generalizing part with
  | nil => rw [List.flatMap_nil, List.foldl_nil, List.append_nil]
  | cons c text ih =>
    have hnext : (escapeDouble c).foldl Scan.next ⟨segments, segment, part, some '"', false⟩ =
        ⟨segments, segment, part ++ [c], some '"', false⟩ := by
      rw [escapeDouble]
      split
      · rfl
      · next hc =>
        have hquote : (c == '"') = false := by
          apply beq_false_of_ne
          rintro rfl
          exact hc (by decide)
        have hbackslash : (c == '\\') = false := by
          apply beq_false_of_ne
          rintro rfl
          exact hc (by decide)
        simp only [List.foldl_cons, List.foldl_nil, Scan.next, hquote, hbackslash, Bool.and_false,
          Bool.false_eq_true, if_false]
        rfl
    rw [List.flatMap_cons, List.foldl_append, hnext, ih, List.append_assoc, List.singleton_append]

/-- A word adds to the group what the hook reads of it. -/
theorem scan_word (w : Word) (segments : List (List String)) (segment : List String) :
    (w.text.foldl Scan.next ⟨segments, segment, [], none, false⟩).Between segments
      (segment ++ (Token.word w).lexed) := by
  cases w with
  | bare text plain => exact scan_bare plain.2 [] segments segment
  | single text plain =>
    have hscan : (Word.single text plain).text.foldl Scan.next ⟨segments, segment, [], none, false⟩ =
        ⟨segments, segment, text, none, false⟩ := by
      rw [Word.text, List.cons_append, List.foldl_cons, List.foldl_append]
      show List.foldl Scan.next
        (text.foldl Scan.next ⟨segments, segment, [], some '\'', false⟩) ['\''] = _
      rw [scan_single plain]
      rfl
    rw [hscan]
    exact between_start segments segment text
  | double text =>
    have hscan : (Word.double text).text.foldl Scan.next ⟨segments, segment, [], none, false⟩ =
        ⟨segments, segment, text, none, false⟩ := by
      rw [Word.text, List.cons_append, List.foldl_cons, List.foldl_append]
      show List.foldl Scan.next
        ((text.flatMap escapeDouble).foldl Scan.next ⟨segments, segment, [], some '"', false⟩)
        ['"'] = _
      rw [scan_double]
      rfl
    rw [hscan]
    exact between_start segments segment text

/-- The tokens from a scan between words; where a word has just ended no word follows. -/
theorem scan_tokens {tokens : List Token}
    (hapart : tokens.IsChain fun a b => (a.isWord && b.isWord) = false)
    (h : s.Between segments segment)
    (hstart : s.word = [] ∨ ∀ t ∈ tokens.head?, t.isWord = false) :
    ∃ found group, ((textOf tokens).foldl Scan.next s).Between found group ∧
      found ++ nonempty group = segments ++ gather Token.isOperator Token.lexed segment tokens := by
  induction tokens generalizing s segments segment with
  | nil => exact ⟨segments, segment, h, rfl⟩
  | cons t tokens ih =>
    obtain ⟨hsecond, hrest⟩ := List.isChain_cons.mp hapart
    rw [textOf, List.flatMap_cons, List.foldl_append]
    cases t with
    | word w =>
      have hword : s.word = [] := by
        rcases hstart with hempty | hhead
        · exact hempty
        · exact absurd (hhead _ rfl) Bool.noConfusion
      have hclean : s = ⟨segments, segment, [], none, false⟩ := by
        have hempty : s.word.isEmpty = true := by
          rw [hword]
          rfl
        have hflushed := h.flushed
        rw [Scan.flushWord, if_pos hempty] at hflushed
        exact hflushed
      have hnext : ∀ t ∈ tokens.head?, t.isWord = false := hsecond
      have hgroup := scan_word w segments segment
      rw [← hclean] at hgroup
      exact ih hrest hgroup (Or.inr hnext)
    | blank tab =>
      have hblank : Token.text (.blank tab) = [if tab then '\t' else ' '] := rfl
      have hchar : (if tab then '\t' else ' ') = ' ' ∨ (if tab then '\t' else ' ') = '\t' ∨
          (if tab then '\t' else ' ') = '\n' := by
        cases tab with
        | false => exact Or.inl rfl
        | true => exact Or.inr (Or.inl rfl)
      rw [hblank, List.foldl_cons, List.foldl_nil, h.blank hchar]
      have hkept : segment ++ Token.lexed (.blank tab) = segment := List.append_nil segment
      have hends : ¬ Token.isOperator (.blank tab) = true := Bool.false_ne_true
      obtain ⟨found, group, hbetween, hfound⟩ :=
        ih hrest (⟨rfl, rfl, rfl⟩ : Scan.Between ⟨segments, segment, [], none, false⟩ segments segment)
          (Or.inl rfl)
      exact ⟨found, group, hbetween, by rw [hfound, gather, if_neg hends, hkept]⟩
    | newline =>
      have hline : Token.text .newline = ['\n'] := rfl
      rw [hline, List.foldl_cons, List.foldl_nil, h.blank (Or.inr (Or.inr rfl))]
      have hkept : segment ++ Token.lexed .newline = segment := List.append_nil segment
      have hends : ¬ Token.isOperator .newline = true := Bool.false_ne_true
      obtain ⟨found, group, hbetween, hfound⟩ :=
        ih hrest (⟨rfl, rfl, rfl⟩ : Scan.Between ⟨segments, segment, [], none, false⟩ segments segment)
          (Or.inl rfl)
      exact ⟨found, group, hbetween, by rw [hfound, gather, if_neg hends, hkept]⟩
    | operator c plain =>
      have hoperator : Token.text (.operator c plain) = [c] := rfl
      rw [hoperator, List.foldl_cons, List.foldl_nil, h.operator plain]
      obtain ⟨found, group, hbetween, hfound⟩ :=
        ih hrest (⟨rfl, rfl, rfl⟩ : Scan.Between ⟨segments ++ nonempty segment, [], [], none, false⟩
          (segments ++ nonempty segment) []) (Or.inl rfl)
      have hends : Token.isOperator (.operator c plain) = true := rfl
      exact ⟨found, group, hbetween, by rw [hfound, gather, if_pos hends, List.append_assoc]⟩

/-- The hook's lexer finds the groups of simple commands that only lines separate. -/
theorem segments_text (line : CommandLine) : ShellCommand.segments line.text = line.runs := by
  obtain ⟨found, group, hbetween, hfound⟩ := scan_tokens line.apart
    (⟨rfl, rfl, rfl⟩ : Scan.Between ⟨[], [], [], none, false⟩ [] []) (Or.inl rfl)
  rw [ShellCommand.segments, CommandLine.text, String.toList_ofList]
  rw [hbetween.escaped, if_neg (by decide), hbetween.flushed, flushSegment_eq, hfound]
  rfl

end Lexing

end ShellCommand

section Recognition

open ShellCommand

/-- `project sync` of a program of that name, spelled out at the front. -/
def Spelled (words : List String) : Prop :=
  ∃ program rest, words = program :: "project" :: "sync" :: rest ∧
    fileName program = some "resync"

/-- Some simple command runs the sync barrier. -/
def RunsBarrier (line : CommandLine) : Prop :=
  ∃ words ∈ line.commands, runsProjectSync words = true

theorem spelled_iff (words : List String) :
    (3 ≤ words.length && words.head?.bind fileName == some "resync" &&
      (words.drop 1).take 2 == ["project", "sync"]) = true ↔ Spelled words := by
  rw [Bool.and_eq_true, Bool.and_eq_true, decide_eq_true_eq, beq_iff_eq, beq_iff_eq]
  constructor
  · rintro ⟨⟨hlength, hname⟩, htake⟩
    match words, hlength with
    | program :: first :: second :: rest, _ =>
      obtain ⟨hfirst, hrest⟩ := List.cons.inj htake
      obtain ⟨hsecond, -⟩ := List.cons.inj hrest
      exact ⟨program, rest, by rw [hfirst, hsecond], hname⟩
  · rintro ⟨program, rest, rfl, hname⟩
    refine ⟨⟨?_, hname⟩, rfl⟩
    rw [List.length_cons, List.length_cons, List.length_cons]
    omega

/-- The hook recognizes a command line exactly where a group of simple commands that only
lines separate begins with the command spelled out. -/
theorem isProjectSyncCommand_iff (line : CommandLine) :
    isProjectSyncCommand ⟨some "Bash", some line.text⟩ = true ↔
      ∃ words ∈ line.runs, Spelled words := by
  have hany : isProjectSyncCommand ⟨some "Bash", some line.text⟩ =
      (ShellCommand.segments line.text).any fun words =>
        3 ≤ words.length && words.head?.bind fileName == some "resync" &&
          (words.drop 1).take 2 == ["project", "sync"] := rfl
  rw [hany, segments_text, List.any_eq_true]
  exact exists_congr fun words => and_congr_right fun _ => spelled_iff words

/-- A tool call with such a command asks for no lease. -/
theorem barrier_holds_no_lease {u : ToolUse} {line : CommandLine}
    (hpre : u.call.pre = ⟨some "Bash", some line.text⟩)
    (hspelled : ∃ words ∈ line.runs, Spelled words) : u.acquires = false := by
  rw [ToolUse.acquires, hpre, (isProjectSyncCommand_iff line).mpr hspelled]
  rfl

/-- A command line that runs the barrier is recognized, and its tool call holds no lease,
exactly where it runs none or one of its groups spells the command out. -/
theorem barrier_recognized_iff (line : CommandLine) :
    (RunsBarrier line → isProjectSyncCommand ⟨some "Bash", some line.text⟩ = true ∧
      ∀ u : ToolUse, u.call.pre = ⟨some "Bash", some line.text⟩ → u.acquires = false) ↔
      ¬ RunsBarrier line ∨ ∃ words ∈ line.runs, Spelled words := by
  rw [← imp_iff_not_or, isProjectSyncCommand_iff]
  refine imp_congr_right fun _ => ⟨And.left, fun hspelled => ⟨hspelled, fun u hpre => ?_⟩⟩
  exact barrier_holds_no_lease hpre hspelled

theorem fileName_resync : fileName "resync" = some "resync" := by
  have hparts : "resync".splitOn "/" = ["resync"] := by
    rw [String.splitOn, if_neg (by decide)]
    iterate 7 rw [String.splitOnAux]
    rfl
  rw [fileName, hparts]
  decide

/-- A bare word of letters. -/
def bareWord (text : String)
    (h : (text.toList ≠ [] && text.toList.all fun c => c ∉ shellSpecial) = true) : Token :=
  have hparts := (Bool.and_eq_true _ _).mp h
  .word (.bare text.toList ⟨of_decide_eq_true hparts.1,
    fun c hc => of_decide_eq_true (List.all_eq_true.mp hparts.2 c hc)⟩)

/-- The alias: `resync sync`. -/
def aliasLine : CommandLine where
  tokens := [bareWord "resync" (by decide), .blank false, bareWord "sync" (by decide)]
  apart := by simp [bareWord, Token.isWord]

/-- The state directory ahead of the command. -/
def stateDirLine : CommandLine where
  tokens := [bareWord "resync" (by decide), .blank false, bareWord "--state-dir=/s" (by decide),
    .blank false, bareWord "project" (by decide), .blank false, bareWord "sync" (by decide)]
  apart := by simp [bareWord, Token.isWord]

/-- Another command on the line before. -/
def secondLine : CommandLine where
  tokens := [bareWord "true" (by decide), .newline, bareWord "resync" (by decide), .blank false,
    bareWord "project" (by decide), .blank false, bareWord "sync" (by decide)]
  apart := by simp [bareWord, Token.isWord]

/-- The state directory in the environment of the command. -/
def assignedLine : CommandLine where
  tokens := [bareWord "RESYNC_STATE_DIR=/s" (by decide), .blank false,
    bareWord "resync" (by decide), .blank false, bareWord "project" (by decide), .blank false,
    bareWord "sync" (by decide)]
  apart := by simp [bareWord, Token.isWord]

theorem runsProjectSync_resync {args : List String}
    (h : (!((preprocessArguments ("resync" :: args)).any fun arg => arg = "--version" || arg = "-V")
      && resolvesToSync .root false ((preprocessArguments ("resync" :: args)).drop 1)) = true) :
    runsProjectSync ("resync" :: args) = true := by
  have hname : ((some "resync").bind fileName == some "resync") = true := by
    rw [Option.bind_some, fileName_resync]
    decide
  rw [runsProjectSync, List.head?_cons, hname, Bool.true_and]
  exact h

/-- A group that does not begin so. -/
theorem not_spelled {words : List String} (h : (words.drop 1).take 2 ≠ ["project", "sync"]) :
    ¬ Spelled words := by
  rintro ⟨program, rest, rfl, -⟩
  exact h rfl

/-- All four run the barrier, and none is recognized. -/
theorem barrier_is_missed :
    (RunsBarrier aliasLine ∧
      isProjectSyncCommand ⟨some "Bash", some aliasLine.text⟩ = false) ∧
    (RunsBarrier stateDirLine ∧
      isProjectSyncCommand ⟨some "Bash", some stateDirLine.text⟩ = false) ∧
    (RunsBarrier secondLine ∧
      isProjectSyncCommand ⟨some "Bash", some secondLine.text⟩ = false) ∧
    RunsBarrier assignedLine ∧
      isProjectSyncCommand ⟨some "Bash", some assignedLine.text⟩ = false := by
  have hmissed : ∀ (line : CommandLine) words, line.runs = [words] →
      (words.drop 1).take 2 ≠ ["project", "sync"] →
      isProjectSyncCommand ⟨some "Bash", some line.text⟩ = false := by
    intro line words hruns hwords
    rw [← Bool.not_eq_true, isProjectSyncCommand_iff, hruns]
    rintro ⟨found, hfound, hspelled⟩
    rw [List.mem_singleton.mp hfound] at hspelled
    exact not_spelled hwords hspelled
  have halias : aliasLine.commands = [["resync", "sync"]] := by decide +kernel
  have hstate : stateDirLine.commands = [["resync", "--state-dir=/s", "project", "sync"]] := by
    decide +kernel
  have hsecond : secondLine.commands = [["true"], ["resync", "project", "sync"]] := by
    decide +kernel
  have hassigned : assignedLine.commands = [["resync", "project", "sync"]] := by decide +kernel
  refine ⟨⟨⟨_, halias ▸ List.mem_cons_self, runsProjectSync_resync (by decide +kernel)⟩,
      hmissed aliasLine ["resync", "sync"] (by decide +kernel) (by decide)⟩,
    ⟨⟨_, hstate ▸ List.mem_cons_self, runsProjectSync_resync (by decide +kernel)⟩,
      hmissed stateDirLine ["resync", "--state-dir=/s", "project", "sync"] (by decide +kernel)
        (by decide)⟩,
    ⟨⟨_, hsecond ▸ List.mem_cons_of_mem _ List.mem_cons_self,
        runsProjectSync_resync (by decide +kernel)⟩,
      hmissed secondLine ["true", "resync", "project", "sync"] (by decide +kernel) (by decide)⟩,
    ⟨_, hassigned ▸ List.mem_cons_self, runsProjectSync_resync (by decide +kernel)⟩,
    hmissed assignedLine ["RESYNC_STATE_DIR=/s", "resync", "project", "sync"]
      (by decide +kernel) (by decide)⟩

end Recognition

end Resync
