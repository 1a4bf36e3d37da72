import Mathlib.Data.List.DropRight
import Resync.ReceiptPaths

/-! The commands that RepoSync writes into a `hooks.json`, and how a later version recognizes
them (`hook_dispatcher.rs`). -/
namespace Resync

open Utf8 (isWhitespace)

def escapeQuote (c : Char) : List Char := if c = '\'' then ['\'', '\\', '\'', '\''] else [c]

def shellQuote (value : List Char) : List Char := '\'' :: value.flatMap escapeQuote ++ ['\'']

/-- `str::trim_matches`. -/
def trimMatches (p : Char → Bool) (value : List Char) : List Char :=
  (value.dropWhile p).rdropWhile p

def isQuote (c : Char) : Bool := c = '\'' || c = '"'

def unquoted (value : List Char) : List Char := trimMatches isQuote (trimMatches isWhitespace value)

/-- `str::split_whitespace`. -/
def splitWhitespace (text : List Char) : List (List Char) :=
  (text.splitOnP isWhitespace).filter (· ≠ [])

def isDispatcherCommand (command start : List Char) : Bool :=
  (PathText.fileName (unquoted command)).any (fun name => start.isPrefixOf name) &&
    PathText.parentFileName (unquoted command) == some "hook-dispatchers".toList

def invokesResyncSubcommand (command subcommand : List Char) : Bool :=
  match splitWhitespace command with
  | [] => false
  | executable :: words =>
    PathText.fileName (unquoted executable) == some "resync".toList &&
      words.head? == some subcommand

def isReposyncProjectCommand (command : List Char) : Bool :=
  (isDispatcherCommand command "codex-".toList &&
    !isDispatcherCommand command "codex-workspace-".toList) ||
    invokesResyncSubcommand command "codex-hook".toList

def isReposyncWorkspaceCommand (command : List Char) : Bool :=
  isDispatcherCommand command "codex-workspace-".toList ||
    invokesResyncSubcommand command "codex-workspace-hook".toList

/-- `dispatcher` of `ensure_dispatcher`; `start` is `codex` or `codex-workspace`. -/
def dispatcherPath (sha : Sha256) (stateRoot start : List Char) (identity : List UInt8) :
    List Char :=
  PathText.join (PathText.join stateRoot "hook-dispatchers".toList)
    (start ++ '-' :: sha.hex identity)

/-- The command that is installed now. -/
def dispatcherCommand (sha : Sha256) (stateRoot start : List Char) (identity : List UInt8) :
    List Char :=
  shellQuote (dispatcherPath sha stateRoot start identity)

/-- The command that an earlier version installed. -/
def handlerCommand (executable subcommand argument : List Char) : List Char :=
  shellQuote executable ++ ' ' :: subcommand ++ ' ' :: shellQuote argument

section Words

/-- The words on both sides of white space. -/
theorem splitWhitespace_append {c : Char} (hc : isWhitespace c = true) (x y : List Char) :
    splitWhitespace (x ++ c :: y) = splitWhitespace x ++ splitWhitespace y := by
  rw [splitWhitespace, List.splitOnP_append_cons x y hc, List.filter_append]
  rfl

theorem splitWhitespace_single {x : List Char} (hne : x ≠ [])
    (hword : ∀ c ∈ x, isWhitespace c = false) : splitWhitespace x = [x] := by
  rw [splitWhitespace, List.splitOnP_eq_singleton hword]
  simp only [List.filter_cons, ne_eq, hne, not_false_eq_true, decide_true, if_true,
    List.filter_nil]

/-- The last word of a text, with what is put behind it. -/
theorem splitWhitespace_append_word (b : List Char) : ∃ words last, ∀ t : List Char, t ≠ [] →
    (∀ c ∈ t, isWhitespace c = false) → splitWhitespace (b ++ t) = words ++ [last ++ t] := by
  induction b using List.reverseRecOn with
  | nil => exact ⟨[], [], fun t hne ht => splitWhitespace_single hne ht⟩
  | append_singleton b d ih =>
    by_cases hd : isWhitespace d = true
    · refine ⟨splitWhitespace b, [], fun t hne ht => ?_⟩
      rw [List.append_assoc, List.singleton_append, splitWhitespace_append hd,
        splitWhitespace_single hne ht, List.nil_append]
    · obtain ⟨words, last, h⟩ := ih
      refine ⟨words, last ++ [d], fun t hne ht => ?_⟩
      have hdt : ∀ c ∈ d :: t, isWhitespace c = false := by
        intro c hc
        rcases List.mem_cons.mp hc with rfl | hc
        · exact Bool.eq_false_iff.mpr hd
        · exact ht c hc
      rw [List.append_assoc, List.singleton_append, h (d :: t) (List.cons_ne_nil d t) hdt,
        List.append_assoc, List.singleton_append]

/-- The first white space of a text. -/
theorem exists_first_white {x : List Char} (h : ∃ c ∈ x, isWhitespace c = true) :
    ∃ a c b, x = a ++ c :: b ∧ isWhitespace c = true ∧ ∀ d ∈ a, isWhitespace d = false := by
  induction x with
  | nil =>
    obtain ⟨c, hc, -⟩ := h
    cases hc
  | cons d x ih =>
    by_cases hd : isWhitespace d = true
    · exact ⟨[], d, x, rfl, hd, fun e he => by cases he⟩
    · obtain ⟨c, hc, hwhite⟩ := h
      have hmem : c ∈ x := by
        rcases List.mem_cons.mp hc with rfl | hmem
        · exact absurd hwhite hd
        · exact hmem
      obtain ⟨a, c', b, rfl, hc', ha⟩ := ih ⟨c, hmem, hwhite⟩
      refine ⟨d :: a, c', b, rfl, hc', fun e he => ?_⟩
      rcases List.mem_cons.mp he with rfl | he
      · exact Bool.eq_false_iff.mpr hd
      · exact ha e he

end Words

section Names

open PathText

/-- What `is_dispatcher_command` asks of the names of a path. -/
def namesDispatcher (start : List Char) (names : List (List Char)) : Bool :=
  ((names.getLast?.filter fun name => name ≠ ['.', '.']).any fun name => start.isPrefixOf name) &&
    (names.dropLast.getLast?.filter fun name => name ≠ ['.', '.']) ==
      some "hook-dispatchers".toList

theorem isDispatcherCommand_eq (command start : List Char) :
    isDispatcherCommand command start = namesDispatcher start (names (unquoted command)) := rfl

/-- A name that cannot be the dispatcher's or its directory's is not looked at. -/
theorem namesDispatcher_append {start name : List Char} (hname : start.isPrefixOf name = false)
    (hdirectory : name ≠ "hook-dispatchers".toList) (front tail : List (List Char)) :
    namesDispatcher start (front ++ name :: tail) = namesDispatcher start tail := by
  have hlast (x : List Char) (xs : List (List Char)) :
      (front ++ name :: x :: xs).getLast? = (x :: xs).getLast? := by
    rw [List.getLast?_append_cons, List.getLast?_cons_cons]
  have hdrop (x : List Char) (xs : List (List Char)) :
      (front ++ name :: x :: xs).dropLast = front ++ name :: (x :: xs).dropLast := by
    rw [List.dropLast_append_of_ne_nil (List.cons_ne_nil _ _), List.dropLast_cons_cons]
  cases tail with
  | nil =>
    -- the name is the last one
    rw [namesDispatcher, List.getLast?_append_cons, List.getLast?_singleton]
    have hany : ((some name).filter fun name => name ≠ ['.', '.']).any
        (fun name => start.isPrefixOf name) = false := by
      rw [Option.filter_some]
      split
      · exact hname
      · rfl
    rw [hany, Bool.false_and]
    rfl
  | cons t tail =>
    cases tail with
    | nil =>
      -- the name is the last but one
      have hparent : (front ++ [name]).getLast? = some name := List.getLast?_concat
      rw [namesDispatcher, namesDispatcher, hdrop, List.dropLast_singleton, hparent]
      have hno : ((some name).filter fun name => name ≠ ['.', '.']) ≠
          some "hook-dispatchers".toList := by
        rw [Option.filter_some]
        split
        · exact fun h => hdirectory (Option.some.inj h)
        · exact fun h => by cases h
      rw [beq_eq_false_iff_ne.mpr hno, Bool.and_false]
      exact (Bool.and_false _).symm
    | cons u tail =>
      rw [namesDispatcher, namesDispatcher, hlast, hdrop, List.dropLast_cons_cons,
        List.getLast?_append_cons, List.getLast?_cons_cons, List.getLast?_cons_cons]

theorem namesDispatcher_dispatcher {name : List Char} (hname : name ≠ ['.', '.'])
    (start : List Char) (front : List (List Char)) :
    namesDispatcher start (front ++ ["hook-dispatchers".toList, name]) = start.isPrefixOf name := by
  have hlast : (front ++ ["hook-dispatchers".toList, name]).getLast? = some name := by
    rw [List.getLast?_append_cons, List.getLast?_cons_cons, List.getLast?_singleton]
  have hdrop : (front ++ ["hook-dispatchers".toList, name]).dropLast =
      front ++ ["hook-dispatchers".toList] := by
    rw [List.dropLast_append_of_ne_nil (List.cons_ne_nil _ _), List.dropLast_cons_cons,
      List.dropLast_singleton]
  have hparent : ((some "hook-dispatchers".toList).filter fun name => name ≠ ['.', '.']) =
      some "hook-dispatchers".toList := by decide
  rw [namesDispatcher, hlast, hdrop, List.getLast?_concat, hparent, beq_self_eq_true, Bool.and_true,
    Option.filter_some, if_pos (decide_eq_true hname)]
  rfl

end Names

section Quoting

open PathText

variable {p : Char → Bool}

theorem dropWhile_append_stop {c : Char} (hc : p c = false) (x y : List Char) :
    (x ++ c :: y).dropWhile p = x.dropWhile p ++ c :: y := by
  induction x with
  | nil =>
    have hstop : ¬ p c = true := by
      rw [hc]
      exact Bool.false_ne_true
    rw [List.nil_append, List.dropWhile_cons_of_neg hstop]
    rfl
  | cons d x ih =>
    by_cases hd : p d = true
    · rw [List.cons_append, List.dropWhile_cons_of_pos hd, List.dropWhile_cons_of_pos hd, ih]
    · rw [List.cons_append, List.dropWhile_cons_of_neg hd, List.dropWhile_cons_of_neg hd,
        List.cons_append]

theorem rdropWhile_append_stop {c : Char} (hc : p c = false) (x y : List Char) :
    (x ++ c :: y).rdropWhile p = x ++ c :: y.rdropWhile p := by
  induction y using List.reverseRecOn with
  | nil =>
    have hstop : ¬ p c = true := by
      rw [hc]
      exact Bool.false_ne_true
    rw [List.rdropWhile_concat_neg _ _ _ hstop, List.rdropWhile_nil]
  | append_singleton y d ih =>
    by_cases hd : p d = true
    · rw [List.rdropWhile_concat_pos _ _ _ hd, ← List.cons_append, ← List.append_assoc,
        List.rdropWhile_concat_pos _ _ _ hd, ih]
    · rw [List.rdropWhile_concat_neg _ _ _ hd, ← List.cons_append, ← List.append_assoc,
        List.rdropWhile_concat_neg _ _ _ hd]

/-- What is left of a text between two quotes. -/
theorem unquoted_quoted (x : List Char) :
    unquoted ('\'' :: x ++ ['\'']) = trimMatches isQuote x := by
  have hwhite : trimMatches isWhitespace ('\'' :: x ++ ['\'']) = '\'' :: x ++ ['\''] := by
    rw [trimMatches, List.cons_append, List.dropWhile_cons_of_neg (by decide), ← List.cons_append,
      List.rdropWhile_concat_neg _ _ _ (by decide)]
  rw [unquoted, hwhite, trimMatches, List.cons_append, List.dropWhile_cons_of_pos (by decide),
    List.dropWhile_append]
  by_cases hx : x.dropWhile isQuote = []
  · rw [hx, List.isEmpty_nil, if_pos rfl, trimMatches, hx]
    rfl
  · rw [List.isEmpty_eq_false_iff.mpr hx, if_neg Bool.false_ne_true,
      List.rdropWhile_concat_pos _ _ _ (by decide), trimMatches]

/-- A slash in front is where the trimming stops. -/
theorem unquoted_slash (x : List Char) :
    unquoted ('\'' :: ('/' :: x) ++ ['\'']) = '/' :: x.rdropWhile isQuote := by
  rw [unquoted_quoted, trimMatches, List.dropWhile_cons_of_neg (by decide)]
  exact rdropWhile_append_stop (by decide) [] x

theorem escapeQuote_of_ne {c : Char} (hc : c ≠ '\'') : escapeQuote c = [c] := if_neg hc

theorem escape_of_not_mem {x : List Char} (h : '\'' ∉ x) : x.flatMap escapeQuote = x := by
  induction x with
  | nil => rfl
  | cons c x ih =>
    have hc : c ≠ '\'' := fun he => h (he ▸ List.mem_cons_self)
    rw [List.flatMap_cons, escapeQuote_of_ne hc, ih fun hmem => h (List.mem_cons_of_mem _ hmem)]
    rfl

theorem mem_escape {c : Char} (hquote : c ≠ '\'') (hback : c ≠ '\\') {x : List Char} :
    c ∈ x.flatMap escapeQuote ↔ c ∈ x := by
  rw [List.mem_flatMap]
  constructor
  · rintro ⟨d, hd, hc⟩
    rw [escapeQuote] at hc
    split at hc
    · simp only [List.mem_cons, hquote, hback, List.not_mem_nil, or_self] at hc
    · rw [List.mem_singleton.mp hc]
      exact hd
  · intro hc
    exact ⟨c, hc, by rw [escapeQuote_of_ne hquote]; exact List.mem_singleton_self c⟩

theorem escape_slash (x y : List Char) : (x ++ '/' :: y).flatMap escapeQuote =
    x.flatMap escapeQuote ++ '/' :: y.flatMap escapeQuote := by
  rw [List.flatMap_append, List.flatMap_cons]
  rfl

theorem isName_escape (part : List Char) : isName (part.flatMap escapeQuote) = isName part := by
  by_cases hquote : '\'' ∈ part
  · obtain ⟨x, y, rfl⟩ := List.append_of_mem hquote
    have hlong : (x ++ '\'' :: y).flatMap escapeQuote =
        x.flatMap escapeQuote ++ ('\'' :: '\\' :: '\'' :: '\'' :: y.flatMap escapeQuote) := by
      rw [List.flatMap_append, List.flatMap_cons]
      rfl
    have hname {u v : List Char} : isName (u ++ '\'' :: v) = true := by
      have hne : u ++ '\'' :: v ≠ [] := List.append_ne_nil_of_right_ne_nil _ (List.cons_ne_nil _ _)
      have hdot : u ++ '\'' :: v ≠ ['.'] := by
        intro h
        have hmem : '\'' ∈ ['.'] := h ▸ List.mem_append_right _ List.mem_cons_self
        exact absurd hmem (by decide)
      rw [isName, decide_eq_true hne, decide_eq_true hdot]
      rfl
    rw [hlong, hname, hname]
  · rw [escape_of_not_mem hquote]

theorem names_escape (path : List Char) :
    names (path.flatMap escapeQuote) = (names path).map (List.flatMap escapeQuote) := by
  have hself : escapeQuote '/' = ['/'] := rfl
  have hother : ∀ c, c ≠ '/' → '/' ∉ escapeQuote c := by
    intro c hc hmem
    rw [escapeQuote] at hmem
    split at hmem
    · exact absurd hmem (by decide)
    · exact hc (List.mem_singleton.mp hmem).symm
  rw [names, names, Splitting.splitOn_flatMap hself hother, List.filter_map]
  congr 1
  apply List.filter_congr
  intro part _
  exact isName_escape part

end Quoting

section Paths

open PathText

variable {path : List Char}

/-- What stands behind the last slash of a path whose file name is `resync`. -/
theorem path_end (hslash : '/' ∈ path) (hfile : fileName path = some "resync".toList) :
    ∃ front last, path = front ++ '/' :: last ∧
      (last = "resync".toList ∨ last = [] ∨ last = ['.']) := by
  obtain ⟨front, last, rfl, hlast⟩ := Splitting.exists_last hslash
  refine ⟨front, last, rfl, ?_⟩
  by_cases hname : isName last = true
  · left
    rw [fileName, names_append, names_of_not_mem hlast hname, List.getLast?_concat,
      Option.filter_some] at hfile
    split at hfile
    · exact Option.some.inj hfile
    · cases hfile
  · right
    rw [isName, Bool.and_eq_true, not_and_or, decide_eq_true_eq, decide_eq_true_eq, not_not,
      not_not] at hname
    exact hname

theorem fileName_escape (hfile : fileName path = some "resync".toList) :
    fileName (path.flatMap escapeQuote) = some "resync".toList := by
  obtain ⟨hlast, hname⟩ := Option.filter_eq_some_iff.mp hfile
  have hself : "resync".toList.flatMap escapeQuote = "resync".toList := by decide
  rw [fileName, names_escape, List.getLast?_map, hlast, Option.map_some, hself]
  rfl

/-- The quoted path of the executable is taken apart correctly where it is one word. -/
theorem fileName_unquoted (hroot : path.head? = some '/')
    (hfile : fileName path = some "resync".toList) :
    fileName (unquoted (shellQuote path)) = some "resync".toList := by
  have hslash : '/' ∈ path := List.mem_of_mem_head? hroot
  have hunquoted : unquoted (shellQuote path) = path.flatMap escapeQuote := by
    obtain ⟨rest, hrest⟩ := List.head?_eq_some_iff.mp hroot
    have hfront : (path.flatMap escapeQuote).dropWhile isQuote = path.flatMap escapeQuote := by
      rw [hrest, List.flatMap_cons]
      exact List.dropWhile_cons_of_neg (by decide)
    obtain ⟨front, last, hpath, hlast⟩ := path_end hslash hfile
    have hback : ('/' :: last).rdropWhile isQuote = '/' :: last := by
      rcases hlast with rfl | rfl | rfl
      · decide
      · decide
      · decide
    have hself : last.flatMap escapeQuote = last := by
      rcases hlast with rfl | rfl | rfl
      · decide
      · decide
      · decide
    have hdrop := rdropWhile_append_stop (p := isQuote) (c := '/') (by decide)
      (front.flatMap escapeQuote) last
    have hstop := rdropWhile_append_stop (p := isQuote) (c := '/') (by decide) [] last
    rw [List.nil_append, List.nil_append, hback] at hstop
    rw [shellQuote, unquoted_quoted, trimMatches, hfront, hpath, escape_slash, hself, hdrop, hstop]
  rw [hunquoted]
  exact fileName_escape hfile

/-- The name that the path of an executable makes with what follows it in a command. -/
theorem names_executable (hslash : '/' ∈ path) (hfile : fileName path = some "resync".toList)
    {start : List Char} (hstart : start.head? = some 'c') {w : List Char} (hw : '/' ∉ w) :
    ∃ front name, names (path.flatMap escapeQuote ++ '\'' :: ' ' :: w) = front ++ [name] ∧
      start.isPrefixOf name = false ∧ name ≠ "hook-dispatchers".toList := by
  obtain ⟨front, last, rfl, hlast⟩ := path_end hslash hfile
  have hself : last.flatMap escapeQuote = last := by
    rcases hlast with rfl | rfl | rfl
    · decide
    · decide
    · decide
  have hclear : '/' ∉ last := by
    rcases hlast with rfl | rfl | rfl
    · decide
    · decide
    · decide
  obtain ⟨c, rest, hname, hcs⟩ : ∃ c rest, last ++ '\'' :: ' ' :: w = c :: rest ∧
      (c = 'r' ∨ c = '\'' ∨ c = '.') := by
    rcases hlast with rfl | rfl | rfl
    · exact ⟨'r', _, rfl, Or.inl rfl⟩
    · exact ⟨'\'', _, rfl, Or.inr (Or.inl rfl)⟩
    · exact ⟨'.', _, rfl, Or.inr (Or.inr rfl)⟩
  have hc : c ≠ 'c' ∧ c ≠ 'h' := by
    rcases hcs with rfl | rfl | rfl
    · decide
    · decide
    · decide
  have hnoslash : '/' ∉ last ++ '\'' :: ' ' :: w := by
    intro h
    rcases List.mem_append.mp h with h | h
    · exact hclear h
    · rcases List.mem_cons.mp h with h | h
      · exact absurd h (by decide)
      · rcases List.mem_cons.mp h with h | h
        · exact absurd h (by decide)
        · exact hw h
  have hquote : '\'' ∈ last ++ '\'' :: ' ' :: w := List.mem_append_right _ List.mem_cons_self
  have hisName : isName (last ++ '\'' :: ' ' :: w) = true := by
    have hne : last ++ '\'' :: ' ' :: w ≠ [] := List.ne_nil_of_mem hquote
    have hdot : last ++ '\'' :: ' ' :: w ≠ ['.'] := by
      intro h
      rw [h] at hquote
      exact absurd hquote (by decide)
    rw [isName, decide_eq_true hne, decide_eq_true hdot]
    rfl
  refine ⟨names (front.flatMap escapeQuote), last ++ '\'' :: ' ' :: w, ?_, ?_, ?_⟩
  · rw [escape_slash, hself, List.append_assoc, List.cons_append, names_append,
      names_of_not_mem hnoslash hisName]
  · obtain ⟨starts, rfl⟩ := List.head?_eq_some_iff.mp hstart
    rw [hname, List.isPrefixOf_cons_cons, beq_eq_false_iff_ne.mpr (Ne.symm hc.1), Bool.false_and]
  · rw [hname]
    intro h
    exact hc.2 (List.cons.inj h).1

end Paths

section Handlers

open PathText

/-- A text from its first slash on. -/
def fromSlash (text : List Char) : List Char := text.dropWhile (· ≠ '/')

variable {path : List Char}

/-- Whether an earlier version's command is taken for a dispatcher's path is up to the argument
from its first slash on. -/
theorem isDispatcherCommand_handler (hroot : path.head? = some '/')
    (hfile : fileName path = some "resync".toList) {subcommand : List Char}
    (hsubcommand : '/' ∉ subcommand) (start : List Char) (hstart : start.head? = some 'c')
    (argument : List Char) :
    isDispatcherCommand (handlerCommand path subcommand argument) start =
      isDispatcherCommand (shellQuote (fromSlash argument)) start := by
  have hslash : '/' ∈ path := List.mem_of_mem_head? hroot
  obtain ⟨rest, hrest⟩ := List.head?_eq_some_iff.mp hroot
  have hescaped : path.flatMap escapeQuote = '/' :: rest.flatMap escapeQuote := by
    rw [hrest, List.flatMap_cons]
    rfl
  have hcommand : handlerCommand path subcommand argument =
      '\'' :: ('/' :: (rest.flatMap escapeQuote ++ '\'' :: ' ' :: (subcommand ++ ' ' :: '\'' ::
        argument.flatMap escapeQuote))) ++ ['\''] := by
    rw [handlerCommand, shellQuote, shellQuote, hescaped]
    simp only [List.cons_append, List.append_assoc, List.nil_append]
  rw [isDispatcherCommand_eq, isDispatcherCommand_eq, hcommand, unquoted_slash]
  by_cases harg : '/' ∈ argument
  -- The names behind the executable's path are those of the argument, from its first
  -- slash on.
  · obtain ⟨a, b, hsplit, ha⟩ := List.eq_append_cons_of_mem harg
    have hfrom : fromSlash argument = '/' :: b := by
      rw [hsplit, fromSlash, List.dropWhile_append_of_pos, List.dropWhile_cons_of_neg]
      · decide
      · intro c hc
        exact decide_eq_true fun he => ha (he ▸ hc)
    have hw : '/' ∉ subcommand ++ ' ' :: '\'' :: a.flatMap escapeQuote := by
      intro h
      rcases List.mem_append.mp h with h | h
      · exact hsubcommand h
      · rcases List.mem_cons.mp h with h | h
        · exact absurd h (by decide)
        · rcases List.mem_cons.mp h with h | h
          · exact absurd h (by decide)
          · exact ha ((mem_escape (by decide) (by decide)).mp h)
    obtain ⟨front, name, hnames, hname, hdirectory⟩ := names_executable hslash hfile hstart hw
    have hcut := rdropWhile_append_stop (p := isQuote) (c := '/') (by decide)
      (rest.flatMap escapeQuote ++ '\'' :: ' ' :: (subcommand ++ ' ' :: '\'' ::
        a.flatMap escapeQuote)) (b.flatMap escapeQuote)
    have hright : unquoted (shellQuote (fromSlash argument)) =
        '/' :: (b.flatMap escapeQuote).rdropWhile isQuote := by
      rw [hfrom, shellQuote]
      exact unquoted_slash (b.flatMap escapeQuote)
    have hempty : names ('/' :: (b.flatMap escapeQuote).rdropWhile isQuote) =
        names ((b.flatMap escapeQuote).rdropWhile isQuote) := names_append [] _
    have hleft : '/' :: (rest.flatMap escapeQuote ++ '\'' :: ' ' :: (subcommand ++ ' ' :: '\'' ::
        argument.flatMap escapeQuote)).rdropWhile isQuote =
        (path.flatMap escapeQuote ++ '\'' :: ' ' :: (subcommand ++ ' ' :: '\'' ::
          a.flatMap escapeQuote)) ++ '/' :: (b.flatMap escapeQuote).rdropWhile isQuote := by
      rw [hsplit, escape_slash, hescaped, List.cons_append, List.cons_append, ← hcut]
      simp only [List.cons_append, List.append_assoc]
    rw [hleft, names_append, hnames, hright, hempty, List.append_assoc, List.singleton_append,
      namesDispatcher_append hname hdirectory]
  · -- no slash stands behind the path of the executable
    have hfrom : fromSlash argument = [] := by
      rw [fromSlash, List.dropWhile_eq_nil_iff]
      intro c hc
      exact decide_eq_true fun he => harg (he ▸ hc)
    have hcut := rdropWhile_append_stop (p := isQuote) (c := ' ') (by decide)
      (rest.flatMap escapeQuote ++ '\'' :: ' ' :: subcommand) ('\'' :: argument.flatMap escapeQuote)
    have hw : '/' ∉ subcommand ++ ' ' ::
        ('\'' :: argument.flatMap escapeQuote).rdropWhile isQuote := by
      intro h
      rcases List.mem_append.mp h with h | h
      · exact hsubcommand h
      · rcases List.mem_cons.mp h with h | h
        · exact absurd h (by decide)
        · rcases List.mem_cons.mp ((List.rdropWhile_prefix _ _).subset h) with h | h
          · exact absurd h (by decide)
          · exact harg ((mem_escape (by decide) (by decide)).mp h)
    obtain ⟨front, name, hnames, hname, hdirectory⟩ := names_executable hslash hfile hstart hw
    have hleft : '/' :: (rest.flatMap escapeQuote ++ '\'' :: ' ' :: (subcommand ++ ' ' :: '\'' ::
        argument.flatMap escapeQuote)).rdropWhile isQuote =
        path.flatMap escapeQuote ++ '\'' :: ' ' :: (subcommand ++ ' ' ::
          ('\'' :: argument.flatMap escapeQuote).rdropWhile isQuote) := by
      rw [hescaped, List.cons_append]
      simp only [List.cons_append, List.append_assoc] at hcut
      rw [hcut]
    rw [hleft, hnames, hfrom, namesDispatcher_append hname hdirectory]
    rfl

theorem white_escape {c : Char} (hc : isWhitespace c = true) {x : List Char} :
    c ∈ x.flatMap escapeQuote ↔ c ∈ x := by
  apply mem_escape
  · rintro rfl
    exact absurd hc (by decide)
  · rintro rfl
    exact absurd hc (by decide)

theorem splitWhitespace_handler {subcommand : List Char} (hne : subcommand ≠ [])
    (hword : ∀ c ∈ subcommand, isWhitespace c = false) (executable argument : List Char) :
    splitWhitespace (handlerCommand executable subcommand argument) =
      splitWhitespace (shellQuote executable) ++
        subcommand :: splitWhitespace (shellQuote argument) := by
  have hspace : isWhitespace ' ' = true := by decide
  rw [handlerCommand, List.append_assoc, List.cons_append, splitWhitespace_append hspace,
    splitWhitespace_append hspace, splitWhitespace_single hne hword, List.singleton_append]

theorem splitWhitespace_shellQuote (hpath : ∀ c ∈ path, isWhitespace c = false) :
    splitWhitespace (shellQuote path) = [shellQuote path] := by
  apply splitWhitespace_single (List.cons_ne_nil _ _)
  intro c hc
  rw [Bool.eq_false_iff]
  intro hwhite
  rcases List.mem_cons.mp hc with rfl | hc
  · exact absurd hwhite (by decide)
  · rcases List.mem_append.mp hc with hc | hc
    · rw [hpath c ((white_escape hwhite).mp hc)] at hwhite
      cases hwhite
    · rw [List.mem_singleton.mp hc] at hwhite
      exact absurd hwhite (by decide)

/-- A path without white space is the first word of the command. -/
theorem invokes_handler_word (hroot : path.head? = some '/')
    (hfile : fileName path = some "resync".toList) (hpath : ∀ c ∈ path, isWhitespace c = false)
    {subcommand : List Char} (hne : subcommand ≠ [])
    (hword : ∀ c ∈ subcommand, isWhitespace c = false) (argument other : List Char) :
    invokesResyncSubcommand (handlerCommand path subcommand argument) other =
      (some subcommand == some other) := by
  rw [invokesResyncSubcommand, splitWhitespace_handler hne hword,
    splitWhitespace_shellQuote hpath]
  show (fileName (unquoted (shellQuote path)) == some "resync".toList &&
    some subcommand == some other) = _
  rw [fileName_unquoted hroot hfile, beq_self_eq_true, Bool.true_and]

/-- White space in the path: its own first two words are the first two of the command. -/
theorem invokes_handler_words (hwhite : ∃ c ∈ path, isWhitespace c = true)
    {subcommand : List Char} (hne : subcommand ≠ [])
    (hword : ∀ c ∈ subcommand, isWhitespace c = false) (argument other : List Char) :
    invokesResyncSubcommand (handlerCommand path subcommand argument) other =
      invokesResyncSubcommand (shellQuote path) other := by
  obtain ⟨d, hd, hdwhite⟩ := hwhite
  obtain ⟨a, c, b, hsplit, hc, ha⟩ := exists_first_white ⟨d, (white_escape hdwhite).mpr hd, hdwhite⟩
  have hfirst : splitWhitespace ('\'' :: a) = ['\'' :: a] := by
    apply splitWhitespace_single (List.cons_ne_nil _ _)
    intro e he
    rcases List.mem_cons.mp he with rfl | he
    · decide
    · exact ha e he
  obtain ⟨words, last, hlast⟩ := splitWhitespace_append_word b
  have hsecond : splitWhitespace (b ++ ['\'']) = words ++ [last ++ ['\'']] := by
    apply hlast _ (List.cons_ne_nil _ _)
    intro e he
    rw [List.mem_singleton.mp he]
    decide
  have hquoted : splitWhitespace (shellQuote path) =
      ('\'' :: a) :: (words ++ [last ++ ['\'']]) := by
    have hshape : shellQuote path = ('\'' :: a) ++ c :: (b ++ ['\'']) := by
      rw [shellQuote, hsplit]
      simp only [List.cons_append, List.append_assoc]
    rw [hshape, splitWhitespace_append hc, hfirst, hsecond, List.singleton_append]
  rw [invokesResyncSubcommand, invokesResyncSubcommand, splitWhitespace_handler hne hword, hquoted]
  cases words with
  | nil => rfl
  | cons word words => rfl

end Handlers

section Dispatchers

open PathText

theorem dispatcherPath_eq (sha : Sha256) (root start : List Char) (identity : List UInt8)
    (hstart : start.head? = some 'c') : ∃ slash, (slash = [] ∨ slash = ['/']) ∧
      (root ++ slash = [] ∨ (root ++ slash).getLast? = some '/') ∧
      dispatcherPath sha root start identity =
        root ++ (slash ++ ("hook-dispatchers".toList ++ '/' ::
          (start ++ '-' :: sha.hex identity))) := by
  obtain ⟨rest, hrest⟩ := List.head?_eq_some_iff.mp hstart
  have hname : (start ++ '-' :: sha.hex identity).head? ≠ some '/' := by
    rw [hrest, List.cons_append, List.head?_cons]
    decide
  have hdirectory : "hook-dispatchers".toList.head? ≠ some '/' := by decide
  have houter (d : List Char) (hd : d ≠ []) (hlast : d.getLast? ≠ some '/') :
      join d (start ++ '-' :: sha.hex identity) =
        d ++ '/' :: (start ++ '-' :: sha.hex identity) := by
    rw [join, if_neg hname, if_neg (not_or.mpr ⟨hd, hlast⟩)]
  have hlast (d : List Char) : (d ++ "hook-dispatchers".toList).getLast? ≠ some '/' := by
    have hsplit : d ++ "hook-dispatchers".toList = d ++ "hook-dispatcher".toList ++ ['s'] := by
      rw [List.append_assoc]
      rfl
    rw [hsplit, List.getLast?_concat]
    decide
  have hne (d : List Char) : d ++ "hook-dispatchers".toList ≠ [] :=
    List.append_ne_nil_of_right_ne_nil _ (by decide)
  by_cases hroot : root = [] ∨ root.getLast? = some '/'
  · refine ⟨[], Or.inl rfl, ?_, ?_⟩
    · rw [List.append_nil]
      exact hroot
    · have hjoin : join root "hook-dispatchers".toList = root ++ "hook-dispatchers".toList := by
        rw [join, if_neg hdirectory, if_pos hroot]
      rw [dispatcherPath, hjoin, houter _ (hne root) (hlast root)]
      simp only [List.append_assoc, List.nil_append]
  · have hjoin : join root "hook-dispatchers".toList =
        (root ++ ['/']) ++ "hook-dispatchers".toList := by
      rw [join, if_neg hdirectory, if_neg hroot, List.append_assoc]
      rfl
    refine ⟨['/'], Or.inr rfl, Or.inr List.getLast?_concat, ?_⟩
    rw [dispatcherPath, hjoin, houter _ (hne _) (hlast _)]
    simp only [List.append_assoc, List.cons_append]

/-- A character of one word that is not a quote. -/
def isPlain (c : Char) : Bool := !isWhitespace c && !isQuote c

theorem isPlain_iff {c : Char} :
    isPlain c = true ↔ isWhitespace c = false ∧ isQuote c = false := by
  rw [isPlain, Bool.and_eq_true, Bool.not_eq_true', Bool.not_eq_true']

theorem isPlain_hex (sha : Sha256) (identity : List UInt8) :
    ∀ c ∈ sha.hex identity, isPlain c = true := by
  have hascii (c : Char) (h : 48 ≤ c.toNat ∧ c.toNat ≤ 102) : isPlain c = true := by
    rw [isPlain_iff]
    constructor
    · simp only [isWhitespace, List.mem_cons, List.not_mem_nil, or_false, Bool.or_eq_false_iff,
        decide_eq_false_iff_not, Bool.and_eq_false_iff]
      omega
    · have hquote : c ≠ '\'' := by
        rintro rfl
        exact absurd h (by decide)
      have hdouble : c ≠ '"' := by
        rintro rfl
        exact absurd h (by decide)
      simp only [isQuote, hquote, hdouble, decide_false, Bool.or_self]
  intro c hc
  apply hascii
  rcases sha.lowerHex identity c hc with hdigit | ⟨hlow, hhigh⟩
  · obtain ⟨hlow, hhigh⟩ := Char.isDigit_iff_toNat.mp hdigit
    exact ⟨hlow, le_trans hhigh (by decide)⟩
  · have hlow : 97 ≤ c.toNat := hlow
    have hhigh : c.toNat ≤ 102 := hhigh
    omega

variable {start : List Char}

/-- The characters behind the state root. -/
theorem isPlain_dispatcher (hstart : start.all isPlain = true) (sha : Sha256)
    (identity : List UInt8) {slash : List Char} (hslash : slash = [] ∨ slash = ['/']) :
    ∀ c ∈ slash ++ ("hook-dispatchers".toList ++ '/' :: (start ++ '-' :: sha.hex identity)),
      isPlain c = true := by
  have hdirectory : "hook-dispatchers".toList.all isPlain = true := by decide
  intro c hc
  rcases List.mem_append.mp hc with hc | hc
  · rcases hslash with rfl | rfl
    · cases hc
    · rw [List.mem_singleton.mp hc]
      decide
  rcases List.mem_append.mp hc with hc | hc
  · exact List.all_eq_true.mp hdirectory c hc
  rcases List.mem_cons.mp hc with rfl | hc
  · decide
  rcases List.mem_append.mp hc with hc | hc
  · exact List.all_eq_true.mp hstart c hc
  rcases List.mem_cons.mp hc with rfl | hc
  · decide
  · exact isPlain_hex sha identity c hc

/-- A command that is installed now is taken for a dispatcher's path by the start of its name. -/
theorem isDispatcherCommand_dispatcher (hstart : start.all isPlain = true)
    (hfirst : start.head? = some 'c') (hslash : '/' ∉ start) (sha : Sha256) (root : List Char)
    (identity : List UInt8) (other : List Char) :
    isDispatcherCommand (dispatcherCommand sha root start identity) other =
      other.isPrefixOf (start ++ '-' :: sha.hex identity) := by
  obtain ⟨slash, hslashes, hroot, hpath⟩ := dispatcherPath_eq sha root start identity hfirst
  have hplain := isPlain_dispatcher hstart sha identity hslashes
  have hquote : '\'' ∉ slash ++ ("hook-dispatchers".toList ++ '/' :: (start ++ '-' ::
      sha.hex identity)) := by
    intro h
    exact absurd (hplain _ h) (by decide)
  have hhex : '/' ∉ sha.hex identity := by
    intro h
    rcases sha.lowerHex _ _ h with hdigit | hletter
    · exact absurd hdigit (by decide)
    · exact absurd hletter (by decide)
  have hname : isName (start ++ '-' :: sha.hex identity) = true := by
    obtain ⟨rest, hrest⟩ := List.head?_eq_some_iff.mp hfirst
    rw [hrest, isName]
    simp
  have hnoslash : '/' ∉ start ++ '-' :: sha.hex identity := by
    intro h
    rcases List.mem_append.mp h with h | h
    · exact hslash h
    · rcases List.mem_cons.mp h with h | h
      · exact absurd h (by decide)
      · exact hhex h
  have hdots : start ++ '-' :: sha.hex identity ≠ ['.', '.'] := by
    obtain ⟨rest, hrest⟩ := List.head?_eq_some_iff.mp hfirst
    rw [hrest]
    intro h
    exact absurd (List.cons.inj h).1 (by decide)
  set tail := "hook-dispatchers".toList ++ '/' :: (start ++ '-' :: sha.hex identity) with htail
  have hback (front : List Char) : (front ++ tail).rdropWhile isQuote = front ++ tail := by
    have hhexQuote : (sha.hex identity).rdropWhile isQuote = sha.hex identity := by
      rw [List.rdropWhile_eq_self_iff]
      intro hne
      have hlast := (isPlain_iff.mp (isPlain_hex sha identity _ (List.getLast_mem hne))).2
      rw [hlast]
      exact Bool.false_ne_true
    have hsplit : front ++ tail =
        (front ++ "hook-dispatchers".toList ++ '/' :: start) ++ '-' :: sha.hex identity := by
      rw [htail]
      simp only [List.append_assoc, List.cons_append]
    rw [hsplit, rdropWhile_append_stop (by decide), hhexQuote]
  -- the trimming stops at the slash before the directory, or at its first letter
  obtain ⟨front, hfront, hdrop⟩ : ∃ front : List Char, (front = [] ∨ front.getLast? = some '/') ∧
      trimMatches isQuote ((root ++ slash).flatMap escapeQuote ++ tail) = front ++ tail := by
    rcases hroot with hempty | hlast
    · refine ⟨[], Or.inl rfl, ?_⟩
      have hstop : tail.dropWhile isQuote = tail := List.dropWhile_cons_of_neg (by decide)
      rw [hempty, List.flatMap_nil, List.nil_append, trimMatches, hstop]
      exact hback []
    · obtain ⟨d, hd⟩ := List.getLast?_eq_some_iff.mp hlast
      refine ⟨(d.flatMap escapeQuote).dropWhile isQuote ++ ['/'], Or.inr List.getLast?_concat, ?_⟩
      have hescape : (root ++ slash).flatMap escapeQuote ++ tail =
          d.flatMap escapeQuote ++ '/' :: tail := by
        rw [hd, escape_slash, List.flatMap_nil, List.append_assoc, List.singleton_append]
      rw [hescape, trimMatches, dropWhile_append_stop (by decide), ← hback]
      rw [List.append_assoc, List.singleton_append]
  have hcommand : dispatcherCommand sha root start identity =
      '\'' :: ((root ++ slash).flatMap escapeQuote ++ tail) ++ ['\''] := by
    rw [dispatcherCommand, shellQuote, hpath, ← List.append_assoc, List.flatMap_append,
      escape_of_not_mem (fun h => hquote (List.mem_append_right _ h))]
  obtain ⟨names', hnames⟩ : ∃ front, names (unquoted (dispatcherCommand sha root start identity)) =
      front ++ ["hook-dispatchers".toList, start ++ '-' :: sha.hex identity] := by
    have hdirectory : names "hook-dispatchers".toList = ["hook-dispatchers".toList] :=
      names_of_not_mem (by decide) (by decide)
    rw [hcommand, unquoted_quoted, hdrop, htail, ← List.append_assoc, names_append,
      names_of_not_mem hnoslash hname]
    rcases hfront with rfl | hfront
    · exact ⟨[], by rw [List.nil_append, hdirectory]; rfl⟩
    · obtain ⟨d, rfl⟩ := List.getLast?_eq_some_iff.mp hfront
      refine ⟨names d, ?_⟩
      rw [List.append_assoc, List.singleton_append, names_append, hdirectory, List.append_assoc]
      rfl
  rw [isDispatcherCommand_eq, hnames, namesDispatcher_dispatcher hdots]

/-- What invokes a subcommand in it is in the state root already. -/
theorem invokes_dispatcher (hstart : start.all isPlain = true) (hfirst : start.head? = some 'c')
    (sha : Sha256) (root : List Char) (identity : List UInt8) (other : List Char)
    (hother : '\'' ∉ other) :
    invokesResyncSubcommand (dispatcherCommand sha root start identity) other =
      invokesResyncSubcommand (shellQuote root) other := by
  obtain ⟨slash, hslashes, -, hpath⟩ := dispatcherPath_eq sha root start identity hfirst
  have hplain := isPlain_dispatcher hstart sha identity hslashes
  set tail := slash ++ ("hook-dispatchers".toList ++ '/' :: (start ++ '-' :: sha.hex identity))
  have hquote : '\'' ∉ tail := by
    intro h
    exact absurd (hplain _ h) (by decide)
  have hword : ∀ c ∈ tail ++ ['\''], isWhitespace c = false := by
    intro c hc
    rcases List.mem_append.mp hc with hc | hc
    · exact (isPlain_iff.mp (hplain c hc)).1
    · rw [List.mem_singleton.mp hc]
      decide
  have hend : ∀ c ∈ ['\''], isWhitespace c = false := by
    intro c hc
    rw [List.mem_singleton.mp hc]
    decide
  have hcommand : dispatcherCommand sha root start identity =
      ('\'' :: root.flatMap escapeQuote) ++ (tail ++ ['\'']) := by
    rw [dispatcherCommand, shellQuote, hpath, List.flatMap_append, escape_of_not_mem hquote,
      List.cons_append, List.cons_append, List.append_assoc]
  obtain ⟨words, last, hwords⟩ := splitWhitespace_append_word ('\'' :: root.flatMap escapeQuote)
  have hleft := hwords (tail ++ ['\''])
    (List.append_ne_nil_of_right_ne_nil _ (List.cons_ne_nil _ _)) hword
  have hright := hwords ['\''] (List.cons_ne_nil _ _) hend
  -- the last word holds a quote
  have hdiffer (x : List Char) : (some (last ++ (x ++ ['\''])) == some other) = false := by
    rw [beq_eq_false_iff_ne]
    intro h
    have hmem : '\'' ∈ last ++ (x ++ ['\'']) :=
      List.mem_append_right _ (List.mem_append_right _ (List.mem_singleton_self _))
    rw [Option.some.inj h] at hmem
    exact hother hmem
  have hshape : shellQuote root = ('\'' :: root.flatMap escapeQuote) ++ ['\''] := rfl
  rw [invokesResyncSubcommand, invokesResyncSubcommand, hcommand, hleft, hshape, hright]
  cases words with
  | nil =>
    show (_ && (none : Option (List Char)) == some other) = (_ && none == some other)
    rw [show ((none : Option (List Char)) == some other) = false from rfl, Bool.and_false,
      Bool.and_false]
  | cons word words =>
    cases words with
    | nil =>
      show (_ && some (last ++ (tail ++ ['\''])) == some other) =
        (_ && some (last ++ ([] ++ ['\''])) == some other)
      rw [hdiffer, hdiffer, Bool.and_false]
    | cons second words => rfl

end Dispatchers

section Recognition

open PathText

def OnlyProject (command : List Char) : Prop :=
  isReposyncProjectCommand command = true ∧ isReposyncWorkspaceCommand command = false

def OnlyWorkspace (command : List Char) : Prop :=
  isReposyncWorkspaceCommand command = true ∧ isReposyncProjectCommand command = false

/-- The argument of an earlier command, from its first slash on, is itself a dispatcher's path
with a name of this start. -/
def NamesDispatcher (start argument : List Char) : Prop :=
  isDispatcherCommand (shellQuote (fromSlash argument)) start = true

/-- White space in the path, and what it cuts off is an executable of that name with this
subcommand. -/
def InvokesItself (subcommand path : List Char) : Prop :=
  invokesResyncSubcommand (shellQuote path) subcommand = true

def OneWord (path : List Char) : Prop := ∀ c ∈ path, isWhitespace c = false

theorem oneWord_of_all {text : List Char} (h : (text.all fun c => !isWhitespace c) = true) :
    OneWord text := by
  intro c hc
  have hplain := List.all_eq_true.mp h c hc
  rwa [Bool.not_eq_true'] at hplain

variable {path : List Char}

theorem onlyProject_iff {command : List Char} : OnlyProject command ↔
    (isDispatcherCommand command "codex-".toList = true ∨
      invokesResyncSubcommand command "codex-hook".toList = true) ∧
    ¬ invokesResyncSubcommand command "codex-workspace-hook".toList = true ∧
    ¬ isDispatcherCommand command "codex-workspace-".toList = true := by
  rw [OnlyProject, isReposyncProjectCommand, isReposyncWorkspaceCommand]
  cases isDispatcherCommand command "codex-".toList <;>
    cases isDispatcherCommand command "codex-workspace-".toList <;>
      cases invokesResyncSubcommand command "codex-hook".toList <;>
        cases invokesResyncSubcommand command "codex-workspace-hook".toList <;> decide

theorem onlyWorkspace_iff {command : List Char} : OnlyWorkspace command ↔
    (isDispatcherCommand command "codex-workspace-".toList = true ∨
      invokesResyncSubcommand command "codex-workspace-hook".toList = true) ∧
    ¬ invokesResyncSubcommand command "codex-hook".toList = true ∧
    (isDispatcherCommand command "codex-workspace-".toList = true ∨
      ¬ isDispatcherCommand command "codex-".toList = true) := by
  rw [OnlyWorkspace, isReposyncProjectCommand, isReposyncWorkspaceCommand]
  cases isDispatcherCommand command "codex-".toList <;>
    cases isDispatcherCommand command "codex-workspace-".toList <;>
      cases invokesResyncSubcommand command "codex-hook".toList <;>
        cases invokesResyncSubcommand command "codex-workspace-hook".toList <;> decide

theorem not_invokesItself (hword : OneWord path) (subcommand : List Char) :
    ¬ InvokesItself subcommand path := by
  rw [InvokesItself, invokesResyncSubcommand, splitWhitespace_shellQuote hword]
  show ¬ (_ && (none : Option (List Char)) == some subcommand) = true
  rw [show ((none : Option (List Char)) == some subcommand) = false from rfl, Bool.and_false]
  exact Bool.false_ne_true

theorem invokes_handler (hroot : path.head? = some '/')
    (hfile : fileName path = some "resync".toList) {subcommand : List Char}
    (hne : subcommand ≠ []) (hplain : ∀ c ∈ subcommand, isWhitespace c = false)
    (argument other : List Char) :
    invokesResyncSubcommand (handlerCommand path subcommand argument) other = true ↔
      OneWord path ∧ subcommand = other ∨ InvokesItself other path := by
  by_cases hword : OneWord path
  · rw [invokes_handler_word hroot hfile hword hne hplain, beq_iff_eq]
    constructor
    · exact fun h => Or.inl ⟨hword, Option.some.inj h⟩
    · rintro (⟨-, rfl⟩ | h)
      · rfl
      · exact absurd h (not_invokesItself hword other)
  · have hwhite : ∃ c ∈ path, isWhitespace c = true := by
      rw [OneWord] at hword
      push Not at hword
      obtain ⟨c, hc, hne⟩ := hword
      exact ⟨c, hc, Bool.eq_true_of_not_eq_false hne⟩
    rw [invokes_handler_words hwhite hne hplain]
    constructor
    · exact Or.inr
    · rintro (⟨h, -⟩ | h)
      · exact absurd h hword
      · exact h

/-- The form of a handler's own command, apart from the dispatcher's name that it may have. -/
theorem handler_form_iff (hroot : path.head? = some '/')
    (hfile : fileName path = some "resync".toList) {own other : List Char} (hne : own ≠ [])
    (hplain : OneWord own) (hdiffer : own ≠ other) (argument : List Char) (named rest : Prop) :
    ((named ∨ invokesResyncSubcommand (handlerCommand path own argument) own = true) ∧
        ¬ invokesResyncSubcommand (handlerCommand path own argument) other = true ∧ rest) ↔
      (OneWord path ∨ InvokesItself own path ∨ named) ∧ ¬ InvokesItself other path ∧ rest := by
  rw [invokes_handler hroot hfile hne hplain, invokes_handler hroot hfile hne hplain,
    and_iff_left rfl]
  constructor
  · rintro ⟨hform, hother, hrest⟩
    refine ⟨?_, fun h => hother (Or.inr h), hrest⟩
    rcases hform with hform | hform | hform
    · exact Or.inr (Or.inr hform)
    · exact Or.inl hform
    · exact Or.inr (Or.inl hform)
  · rintro ⟨hform, hother, hrest⟩
    refine ⟨?_, ?_, hrest⟩
    · rcases hform with hform | hform | hform
      · exact Or.inr (Or.inl hform)
      · exact Or.inr (Or.inr hform)
      · exact Or.inl hform
    · rintro (⟨-, h⟩ | h)
      · exact hdiffer h
      · exact hother h

/-- What an earlier command for a project takes to be taken for one, and for no other. -/
theorem onlyProject_handler (hroot : path.head? = some '/')
    (hfile : fileName path = some "resync".toList) (argument : List Char) :
    OnlyProject (handlerCommand path "codex-hook".toList argument) ↔
      (OneWord path ∨ InvokesItself "codex-hook".toList path ∨
        NamesDispatcher "codex-".toList argument) ∧
      ¬ InvokesItself "codex-workspace-hook".toList path ∧
      ¬ NamesDispatcher "codex-workspace-".toList argument := by
  have hplain : OneWord "codex-hook".toList := oneWord_of_all (by decide)
  have hdiffer : "codex-hook".toList ≠ "codex-workspace-hook".toList := by decide
  have hslash : '/' ∉ "codex-hook".toList := by decide
  have hproject := isDispatcherCommand_handler hroot hfile hslash "codex-".toList (by decide)
    argument
  have hworkspace := isDispatcherCommand_handler hroot hfile hslash "codex-workspace-".toList
    (by decide) argument
  rw [onlyProject_iff, hproject, hworkspace, NamesDispatcher, NamesDispatcher]
  exact handler_form_iff hroot hfile (by decide) hplain hdiffer argument _ _

theorem onlyWorkspace_handler (hroot : path.head? = some '/')
    (hfile : fileName path = some "resync".toList) (argument : List Char) :
    OnlyWorkspace (handlerCommand path "codex-workspace-hook".toList argument) ↔
      (OneWord path ∨ InvokesItself "codex-workspace-hook".toList path ∨
        NamesDispatcher "codex-workspace-".toList argument) ∧
      ¬ InvokesItself "codex-hook".toList path ∧
      (NamesDispatcher "codex-workspace-".toList argument ∨
        ¬ NamesDispatcher "codex-".toList argument) := by
  have hplain : OneWord "codex-workspace-hook".toList := oneWord_of_all (by decide)
  have hdiffer : "codex-workspace-hook".toList ≠ "codex-hook".toList := by decide
  have hslash : '/' ∉ "codex-workspace-hook".toList := by decide
  have hproject := isDispatcherCommand_handler hroot hfile hslash "codex-".toList (by decide)
    argument
  have hworkspace := isDispatcherCommand_handler hroot hfile hslash "codex-workspace-".toList
    (by decide) argument
  rw [onlyWorkspace_iff, hproject, hworkspace, NamesDispatcher, NamesDispatcher]
  exact handler_form_iff hroot hfile (by decide) hplain hdiffer argument _ _

theorem onlyProject_dispatcher (sha : Sha256) (root : List Char) (identity : List UInt8) :
    OnlyProject (dispatcherCommand sha root "codex".toList identity) ↔
      ¬ InvokesItself "codex-workspace-hook".toList root := by
  have hchars : "codex".toList.all isPlain = true := by decide
  have hfirst : "codex".toList.head? = some 'c' := by decide
  have hslash : '/' ∉ "codex".toList := by decide
  have hown : isDispatcherCommand (dispatcherCommand sha root "codex".toList identity)
      "codex-".toList = true :=
    isDispatcherCommand_dispatcher hchars hfirst hslash sha root identity _
  have hother : ¬ isDispatcherCommand (dispatcherCommand sha root "codex".toList identity)
      "codex-workspace-".toList = true := by
    rw [isDispatcherCommand_dispatcher hchars hfirst hslash, List.isPrefixOf_iff_prefix]
    rintro ⟨rest, hrest⟩
    -- no digit of the digest is a `w`
    have hsplit : "codex-".toList ++ ("workspace-".toList ++ rest) =
        "codex-".toList ++ sha.hex identity := hrest
    have hhex : "workspace-".toList ++ rest = sha.hex identity := List.append_cancel_left hsplit
    have hmem : 'w' ∈ sha.hex identity := hhex ▸ List.mem_append_left rest (by decide)
    rcases sha.lowerHex _ _ hmem with hdigit | hletter
    · exact absurd hdigit (by decide)
    · exact absurd hletter (by decide)
  have hinvokes := invokes_dispatcher hchars hfirst sha root identity
    "codex-workspace-hook".toList (by decide)
  rw [onlyProject_iff, hinvokes]
  constructor
  · exact fun h => h.2.1
  · exact fun h => ⟨Or.inl hown, h, hother⟩

theorem onlyWorkspace_dispatcher (sha : Sha256) (root : List Char) (identity : List UInt8) :
    OnlyWorkspace (dispatcherCommand sha root "codex-workspace".toList identity) ↔
      ¬ InvokesItself "codex-hook".toList root := by
  have hchars : "codex-workspace".toList.all isPlain = true := by decide
  have hfirst : "codex-workspace".toList.head? = some 'c' := by decide
  have hslash : '/' ∉ "codex-workspace".toList := by decide
  have hown : isDispatcherCommand (dispatcherCommand sha root "codex-workspace".toList identity)
      "codex-workspace-".toList = true :=
    isDispatcherCommand_dispatcher hchars hfirst hslash sha root identity _
  have hinvokes := invokes_dispatcher hchars hfirst sha root identity "codex-hook".toList
    (by decide)
  rw [onlyWorkspace_iff, hinvokes]
  constructor
  · exact fun h => h.2.1
  · exact fun h => ⟨Or.inl hown, h, Or.inl hown⟩

/-- The commands that an earlier version installed, and those that are installed now, are taken
for commands of their own kind and not of the other exactly so: an earlier one whose path has
white space in it is lost, unless what the white space cuts off happens to be of that form. -/
theorem commands_recognized_iff {path : List Char} (hroot : path.head? = some '/')
    (hfile : fileName path = some "resync".toList) (argument : List Char) (sha : Sha256)
    (root : List Char) (identity : List UInt8) :
    (OnlyProject (handlerCommand path "codex-hook".toList argument) ↔
      (OneWord path ∨ InvokesItself "codex-hook".toList path ∨
        NamesDispatcher "codex-".toList argument) ∧
      ¬ InvokesItself "codex-workspace-hook".toList path ∧
      ¬ NamesDispatcher "codex-workspace-".toList argument) ∧
    (OnlyWorkspace (handlerCommand path "codex-workspace-hook".toList argument) ↔
      (OneWord path ∨ InvokesItself "codex-workspace-hook".toList path ∨
        NamesDispatcher "codex-workspace-".toList argument) ∧
      ¬ InvokesItself "codex-hook".toList path ∧
      (NamesDispatcher "codex-workspace-".toList argument ∨
        ¬ NamesDispatcher "codex-".toList argument)) ∧
    (OnlyProject (dispatcherCommand sha root "codex".toList identity) ↔
      ¬ InvokesItself "codex-workspace-hook".toList root) ∧
    (OnlyWorkspace (dispatcherCommand sha root "codex-workspace".toList identity) ↔
      ¬ InvokesItself "codex-hook".toList root) :=
  ⟨onlyProject_handler hroot hfile argument, onlyWorkspace_handler hroot hfile argument,
    onlyProject_dispatcher sha root identity, onlyWorkspace_dispatcher sha root identity⟩

theorem handler_is_recognized :
    "/usr/bin/resync".toList.head? = some '/' ∧
      OnlyProject (handlerCommand "/usr/bin/resync".toList "codex-hook".toList
        "prj_one".toList) := by
  refine ⟨rfl, ((commands_recognized_iff rfl (by decide) "prj_one".toList sampleSha
    "/state".toList []).1).mpr ⟨Or.inl (oneWord_of_all (by decide)), ?_, ?_⟩⟩
  · rw [InvokesItself]
    decide
  · rw [NamesDispatcher]
    decide

/-- An executable below a directory with white space in its name. -/
theorem handler_with_space_is_lost :
    "/opt/Repo Sync/resync".toList.head? = some '/' ∧
      fileName "/opt/Repo Sync/resync".toList = some "resync".toList ∧
      ¬ OnlyProject (handlerCommand "/opt/Repo Sync/resync".toList "codex-hook".toList
        "prj_one".toList) := by
  refine ⟨rfl, by decide, ?_⟩
  rw [onlyProject_iff]
  decide

end Recognition

end Resync
