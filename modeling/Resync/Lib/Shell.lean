import Mathlib.Data.List.DropRight
import Mathlib.Data.List.Forall2
import Mathlib.Logic.Function.Basic

/-! A part of the shell's language: simple commands with quotes, parameters and redirections, in
lists of `||`, one list on a line. What lies beyond it is no script here. The commands themselves
are left to an oracle. -/
namespace Shell

/-- A part of a word. Parameters are expanded between double quotes only. -/
inductive Part where
  | bare (c : Char)
  | quoted (c : Char)
  | variable (name : List Char)
  | argument (n : ℕ)
  | arguments
  /-- The output of a command. -/
  | output (command : List Char)
deriving DecidableEq

abbrev Word := List Part

inductive Token where
  | word (w : Word)
  | newline
  | orElse
  | redirect (fd : ℕ)
  | duplicate (fd : ℕ)
deriving DecidableEq

section Lexer

inductive Mode where
  | bare
  | single
  | escape
  | double
  /-- Behind a dollar between double quotes. -/
  | dollar
  | name (name : List Char)
  | output (command : List Char)
  | comment
  /-- Behind the first bar of `||`. -/
  | bar
  /-- Behind `>`. -/
  | great (fd : ℕ)
deriving DecidableEq

structure Lexer where
  /-- The word that is not over yet. -/
  word : Option Word
  mode : Mode
deriving DecidableEq

def Lexer.initial : Lexer := ⟨none, .bare⟩

def Lexer.add (l : Lexer) (part : Part) (mode : Mode) : Lexer :=
  ⟨some (l.word.getD [] ++ [part]), mode⟩

def Lexer.start (l : Lexer) (mode : Mode) : Lexer := ⟨some (l.word.getD []), mode⟩

def Lexer.ended (l : Lexer) : List Token := l.word.toList.map .word

def nameChar (c : Char) : Bool := c.isAlphanum || c = '_'

/-- A character that means itself outside of quotes. -/
def plain (c : Char) : Bool :=
  nameChar c || c = '-' || c = '.' || c = '/' || c = ':' || c = '=' || c = '+' || c = ',' ||
    c = '%' || c = '@' || c = '!'

def bareDigit : Part → Option Char
  | .bare c => if c.isDigit then some c else none
  | _ => none

/-- The number of the descriptor that stands before `>`. -/
def descriptor (word : Option Word) : Option ℕ :=
  match word with
  | some (part :: parts) =>
    ((part :: parts).mapM bareDigit).map fun digits => Nat.ofDigitChars 10 digits 0
  | _ => none

/-- Outside of quotes. A bracket is no pattern where it begins a word. -/
def stepBare (l : Lexer) (c : Char) : Option (List Token × Lexer) :=
  if c = '\'' then some ([], l.start .single)
  else if c = '"' then some ([], l.start .double)
  else if c = '\\' then some ([], l.start .escape)
  else if c = ' ' ∨ c = '\t' then some (l.ended, .initial)
  else if c = '\n' then some (l.ended ++ [.newline], .initial)
  else if c = '|' then some (l.ended, ⟨none, .bar⟩)
  else if c = '>' then
    match descriptor l.word with
    | some fd => some ([], ⟨none, .great fd⟩)
    | none => some (l.ended, ⟨none, .great 1⟩)
  else if c = '#' ∧ l.word = none then some ([], ⟨none, .comment⟩)
  else if plain c ∨ ((c = '[' ∨ c = ']') ∧ l.word = none) then some ([], l.add (.bare c) .bare)
  else none

def stepDouble (l : Lexer) (c : Char) : Option (List Token × Lexer) :=
  if c = '"' then some ([], l.start .bare)
  else if c = '$' then some ([], l.start .dollar)
  else if c = '\\' ∨ c.toNat = 96 then none
  else some ([], l.add (.quoted c) .double)

/-- A character of the command in `$(..)`, where it is plain or a blank. -/
def outputChar (c : Char) : Bool := plain c || c = ' ' || c = '>'

def step (l : Lexer) (c : Char) : Option (List Token × Lexer) :=
  if c.toNat = 0 then none
  else match l.mode with
    | .bare => stepBare l c
    | .single =>
      if c = '\'' then some ([], l.start .bare) else some ([], l.add (.quoted c) .single)
    -- a backslash in front of a line break would join two lines
    | .escape => if c = '\n' then none else some ([], l.add (.quoted c) .bare)
    | .double => stepDouble l c
    | .dollar =>
      -- a single digit: what follows it stands for itself
      if c.isDigit then some ([], l.add (.argument (c.toNat - 48)) .double)
      else if c = '@' then some ([], l.add .arguments .double)
      else if c = '(' then some ([], l.start (.output []))
      else if nameChar c then some ([], l.start (.name [c]))
      else none
    | .name name =>
      if nameChar c then some ([], l.start (.name (name ++ [c])))
      else stepDouble (l.add (.variable name) .double) c
    | .output command =>
      if c = ')' then some ([], l.add (.output command) .double)
      else if outputChar c then some ([], l.start (.output (command ++ [c])))
      else none
    | .comment => if c = '\n' then some ([.newline], .initial) else some ([], l)
    | .bar => if c = '|' then some ([.orElse], .initial) else none
    | .great fd =>
      if c = '&' then some ([.duplicate fd], .initial)
      -- nothing is appended to a file
      else if c = '>' then none
      else (stepBare .initial c).map fun (tokens, l) => (.redirect fd :: tokens, l)

def scan : Lexer → List Char → Option (List Token × Lexer)
  | l, [] => some ([], l)
  | l, c :: text => (step l c).bind fun (tokens, l) =>
    (scan l text).map fun (more, l) => (tokens ++ more, l)

def finish (l : Lexer) : Option (List Token) :=
  match l.mode with
  | .bare => some l.ended
  | .comment => some []
  | _ => none

def lex (text : List Char) : Option (List Token) :=
  (scan .initial text).bind fun (tokens, l) => (finish l).map fun more => tokens ++ more

end Lexer

section Parser

/-- Where a redirection goes. -/
inductive Target (α : Type) where
  | file (path : α)
  | descriptor (fd : ℕ)
deriving DecidableEq

structure Simple where
  words : List Word
  redirects : List (ℕ × Target Word)
deriving DecidableEq

inductive Command where
  | simple (command : Simple)
  | assign (name : List Char) (value : Word)
  /-- An assignment of the output of a command. -/
  | capture (name : List Char) (command : Simple)
deriving DecidableEq

def Part.isOutput : Part → Bool
  | .output _ => true
  | _ => false

/-- The text of a word that is not quoted and has nothing to expand. -/
def bareText (w : Word) : Option (List Char) :=
  w.mapM fun
    | .bare c => some c
    | _ => none

def reserved : List (List Char) :=
  [['!'], ['i', 'f'], ['t', 'h', 'e', 'n'], ['e', 'l', 's', 'e'], ['e', 'l', 'i', 'f'], ['f', 'i'],
    ['d', 'o'], ['d', 'o', 'n', 'e'], ['c', 'a', 's', 'e'], ['e', 's', 'a', 'c'],
    ['w', 'h', 'i', 'l', 'e'], ['u', 'n', 't', 'i', 'l'], ['f', 'o', 'r'], ['i', 'n']]

/-- The name and the value of a word that is an assignment. -/
def assignment : List Char → Word → Option (List Char × Word)
  | name, .bare c :: rest =>
    if c = '=' then if name = [] then none else some (name, rest)
    else if nameChar c ∧ ¬(name = [] ∧ c.isDigit) then assignment (name ++ [c]) rest
    else none
  | _, _ => none

def parseTokens : List Token → Option Simple
  | [] => some ⟨[], []⟩
  | .word w :: rest =>
    if w.any Part.isOutput then none
    else (parseTokens rest).map fun c => ⟨w :: c.words, c.redirects⟩
  | .redirect fd :: .word w :: rest =>
    if w.any Part.isOutput then none
    else (parseTokens rest).map fun c => ⟨c.words, (fd, .file w) :: c.redirects⟩
  -- `2>&1`
  | .duplicate fd :: .word [.bare d] :: rest =>
    if d.isDigit then
      (parseTokens rest).map fun c => ⟨c.words, (fd, .descriptor (d.toNat - 48)) :: c.redirects⟩
    else none
  | _ => none

def parseSimple (tokens : List Token) : Option Simple :=
  (parseTokens tokens).bind fun c =>
    match c.words with
    | [] => none
    | w :: _ =>
      if (assignment [] w).isSome ∨ (bareText w).any reserved.contains then none else some c

/-- The commands that change the shell itself. -/
def builtins : List (List Char) :=
  [['e', 'x', 'e', 'c'], ['e', 'x', 'i', 't'], ['s', 'e', 't']]

def parseCommand : List Token → Option Command
  | [.word w] =>
    match assignment [] w with
    | some (name, [.output text]) => (lex text).bind fun tokens =>
      (parseSimple tokens).bind fun c =>
        if c.words.head?.any fun w => (bareText w).any fun text => !builtins.contains text then
          some (.capture name c)
        else none
    | some (name, value) =>
      if value.any fun part => part.isOutput || part = .arguments then none
      else some (.assign name value)
    | none => (parseSimple [.word w]).map .simple
  | tokens => (parseSimple tokens).map .simple

/-- The parts between the tokens that are `separator`. -/
def splitAt (separator : Token → Bool) : List Token → List (List Token)
  | [] => [[]]
  | t :: rest =>
    if separator t then [] :: splitAt separator rest
    else match splitAt separator rest with
      | [] => [[t]]
      | part :: parts => (t :: part) :: parts

def Token.isNewline : Token → Bool
  | .newline => true
  | _ => false

def Token.isOrElse : Token → Bool
  | .orElse => true
  | _ => false

def parseLine (line : List Token) : Option (List Command) :=
  (splitAt Token.isOrElse line).mapM parseCommand

/-- The lists of the script, one for each line that has one. -/
def parse (tokens : List Token) : Option (List (List Command)) :=
  ((splitAt Token.isNewline tokens).filter (· ≠ [])).mapM parseLine

end Parser

section Execution

structure Invocation where
  argv : List (List Char)
  redirects : List (ℕ × Target (List Char))
deriving DecidableEq

/-- The exit status and the output of a call, after others. -/
abbrev Oracle := List Invocation → Invocation → ℕ × List Char

structure State where
  env : List Char → Option (List Char)
  errexit : Bool
  nounset : Bool
  calls : List Invocation
  status : ℕ
  exited : Bool

variable (oracle : Oracle) (parameters : List (List Char))

/-- A parameter that is not set. -/
def unset (s : State) : Option (List Char) := if s.nounset then none else some []

def expandPart (s : State) : Part → Option (List Char)
  | .bare c => some [c]
  | .quoted c => some [c]
  | .variable name => (s.env name).or (unset s)
  | .argument n => parameters[n]?.or (unset s)
  | .arguments => none
  | .output _ => none

def expandText (s : State) (w : Word) : Option (List Char) :=
  (w.mapM (expandPart parameters s)).map List.flatten

/-- The fields of a word: `"$@"` has one for each argument. -/
def expandWord (s : State) (w : Word) : Option (List (List Char)) :=
  if w = [.arguments] then some parameters.tail else (expandText parameters s w).map ([·])

def expandWords (s : State) (words : List Word) : Option (List (List Char)) :=
  (words.mapM (expandWord parameters s)).map List.flatten

def expandTarget (s : State) : Target Word → Option (Target (List Char))
  | .file w => (expandText parameters s w).map .file
  | .descriptor fd => some (.descriptor fd)

def expand (s : State) (c : Simple) : Option Invocation :=
  (expandWords parameters s c.words).bind fun argv =>
    (c.redirects.mapM fun r => (expandTarget parameters s r.2).map (r.1, ·)).map fun redirects =>
      ⟨argv, redirects⟩

def State.call (s : State) (c : Invocation) : State :=
  { s with calls := s.calls ++ [c], status := (oracle s.calls c).1 }

def State.fail (s : State) : State := { s with status := 2, exited := true }

def State.setFlags (s : State) (flags : List (List Char)) : State :=
  { s with
    errexit := s.errexit || flags.any fun flag => flag.head? = some '-' && 'e' ∈ flag
    nounset := s.nounset || flags.any fun flag => flag.head? = some '-' && 'u' ∈ flag
    status := 0 }

def State.exit (s : State) : List (List Char) → State
  | [] => { s with exited := true }
  | code :: _ => { s with status := Nat.ofDigitChars 10 code 0 % 256, exited := true }

def runCall (s : State) (c : Invocation) : State :=
  match c.argv with
  | ['e', 'x', 'i', 't'] :: codes => s.exit codes
  | ['s', 'e', 't'] :: flags => s.setFlags flags
  -- the program takes the place of the shell, so nothing comes after it
  | ['e', 'x', 'e', 'c'] :: program :: arguments =>
    { s.call oracle ⟨program :: arguments, c.redirects⟩ with exited := true }
  | _ => s.call oracle c

def runSimple (s : State) (c : Simple) : State :=
  match expand parameters s c with
  | none => s.fail
  | some call => runCall oracle s call

/-- The newlines at the end of the output are not part of the value. -/
def runCapture (s : State) (name : List Char) (c : Simple) : State :=
  match expand parameters s c with
  | none => { s with env := Function.update s.env name (some []), status := 2 }
  | some call =>
    { s.call oracle call with
      env := Function.update s.env name
        (some ((oracle s.calls call).2.rdropWhile (· = '\n'))) }

def runCommand (s : State) : Command → State
  | .simple c => runSimple oracle parameters s c
  | .assign name value =>
    match expandText parameters s value with
    | none => s.fail
    | some text => { s with env := Function.update s.env name (some text), status := 0 }
  | .capture name c => runCapture oracle parameters s name c

/-- Commands with `||` between them. -/
def runList (s : State) : List Command → State
  | [] => s
  | c :: rest =>
    let s := runCommand oracle parameters s c
    if s.exited ∨ s.status = 0 then s else runList s rest

def runLine (s : State) (line : List Command) : State :=
  let s := runList oracle parameters s line
  if s.errexit ∧ s.status ≠ 0 then { s with exited := true } else s

def runLines (s : State) : List (List Command) → State
  | [] => s
  | line :: rest =>
    let s := runLine oracle parameters s line
    if s.exited then s else runLines s rest

def initial (env : List Char → Option (List Char)) : State :=
  ⟨env, false, false, [], 0, false⟩

/-- A script with its parameters, of which the first one is its name. -/
def run (env : List Char → Option (List Char)) (script : List Char) : Option State :=
  (lex script).bind fun tokens =>
    (parse tokens).map (runLines oracle parameters (initial env))

end Execution

section Scanning

theorem scan_append (l : Lexer) (text more : List Char) :
    scan l (text ++ more) = (scan l text).bind fun (tokens, l) =>
      (scan l more).map fun (others, l) => (tokens ++ others, l) := by
  induction text generalizing l with
  | nil =>
    simp only [List.nil_append, scan, Option.bind_some]
    cases scan l more <;> rfl
  | cons c text ih =>
    rw [List.cons_append, scan, scan]
    cases hstep : step l c with
    | none => rfl
    | some next =>
      obtain ⟨tokens, l'⟩ := next
      simp only [Option.bind_some, ih]
      cases scan l' text with
      | none => rfl
      | some found =>
        obtain ⟨others, l''⟩ := found
        simp only [Option.bind_some, Option.map_some]
        cases scan l'' more with
        | none => rfl
        | some rest => simp only [Option.map_some, List.append_assoc]

/-- A text whose parts are known to the scanner. -/
theorem scan_of_parts {l l' l'' : Lexer} {text more : List Char} {tokens others : List Token}
    (h : scan l text = some (tokens, l')) (hmore : scan l' more = some (others, l'')) :
    scan l (text ++ more) = some (tokens ++ others, l'') := by
  simp only [scan_append, h, Option.bind_some, hmore, Option.map_some]

theorem lex_of_scan {text : List Char} {tokens : List Token}
    (h : scan .initial text = some (tokens, .initial)) : lex text = some tokens := by
  rw [lex, h, Option.bind_some]
  exact congrArg some (List.append_nil tokens)

end Scanning

section Words

/-- A word in which each character is quoted. -/
def literal (value : List Char) : Word := value.map .quoted

def plainWord (text : List Char) : Word := text.map .bare

/-- Words without the output of a command. -/
def Plain (words : List Word) : Prop := ∀ w ∈ words, w.any Part.isOutput = false

/-- A word that a simple command may begin with. -/
def Begins (w : Word) : Prop := assignment [] w = none ∧ ∀ text ∈ bareText w, text ∉ reserved

theorem any_isOutput_literal (value : List Char) : (literal value).any Part.isOutput = false := by
  rw [literal, List.any_map, List.any_eq_false]
  exact fun _ _ => Bool.false_ne_true

theorem begins_literal {value : List Char} (h : value ≠ []) : Begins (literal value) := by
  obtain ⟨c, rest, rfl⟩ := List.exists_cons_of_ne_nil h
  exact ⟨rfl, fun _ htext => by cases htext⟩

theorem any_isOutput_plainWord (text : List Char) :
    (plainWord text).any Part.isOutput = false := by
  rw [plainWord, List.any_map, List.any_eq_false]
  exact fun _ _ => Bool.false_ne_true

theorem bareText_plainWord (text : List Char) : bareText (plainWord text) = some text := by
  induction text with
  | nil => rfl
  | cons c text ih =>
    rw [bareText, plainWord] at ih
    rw [bareText, plainWord, List.map_cons, List.mapM_cons, ih]
    rfl

theorem begins_plainWord {text : List Char} (h : assignment [] (plainWord text) = none)
    (hreserved : text ∉ reserved) : Begins (plainWord text) := by
  refine ⟨h, fun found hfound => ?_⟩
  rw [bareText_plainWord, Option.mem_some_iff] at hfound
  exact hfound ▸ hreserved

theorem plain_nil : Plain [] := fun _ hw => by cases hw

theorem Plain.cons {w : Word} {words : List Word} (hw : w.any Part.isOutput = false)
    (h : Plain words) : Plain (w :: words) := by
  intro v hv
  rcases List.mem_cons.mp hv with rfl | hv
  · exact hw
  · exact h v hv

theorem parseTokens_words {words : List Word} (h : Plain words) (rest : List Token) :
    parseTokens (words.map .word ++ rest) =
      (parseTokens rest).map fun c => ⟨words ++ c.words, c.redirects⟩ := by
  induction words with
  | nil =>
    simp only [List.map_nil, List.nil_append]
    cases parseTokens rest <;> rfl
  | cons w words ih =>
    have hw : ¬w.any Part.isOutput = true := by
      rw [h w List.mem_cons_self]
      exact Bool.false_ne_true
    rw [List.map_cons, List.cons_append, parseTokens, if_neg hw,
      ih fun v hv => h v (List.mem_cons_of_mem w hv), Option.map_map]
    rfl

/-- A simple command. -/
theorem parseCommand_words {w : Word} {words : List Word} {rest : List Token}
    {redirects : List (ℕ × Target Word)} (hw : Begins w) (hplain : Plain (w :: words))
    (hrest : parseTokens rest = some ⟨[], redirects⟩) :
    parseCommand ((w :: words).map .word ++ rest) = some (.simple ⟨w :: words, redirects⟩) := by
  have htokens := parseTokens_words hplain rest
  rw [hrest, Option.map_some, List.append_nil] at htokens
  have hbegins : ¬((assignment [] w).isSome = true ∨
      (bareText w).any reserved.contains = true) := by
    rintro (hassign | hreserved)
    · rw [hw.1] at hassign
      exact absurd hassign Bool.false_ne_true
    · obtain ⟨text, htext, hmem⟩ := (Option.any_eq_true _ _).mp hreserved
      exact hw.2 text htext (List.contains_iff_mem.mp hmem)
  have hsimple : parseSimple ((w :: words).map .word ++ rest) = some ⟨w :: words, redirects⟩ := by
    simp only [parseSimple, htokens, Option.bind_some, if_neg hbegins]
  have hcommand : parseCommand ((w :: words).map .word ++ rest) =
      (parseSimple ((w :: words).map .word ++ rest)).map .simple := by
    cases words with
    | cons v words => rfl
    | nil =>
      cases rest with
      | cons t rest => rfl
      | nil => simp only [List.map_cons, List.map_nil, List.append_nil, parseCommand, hw.1]
  rw [hcommand, hsimple, Option.map_some]

theorem splitAt_single {separator : Token → Bool} {tokens : List Token}
    (h : ∀ t ∈ tokens, separator t = false) : splitAt separator tokens = [tokens] := by
  induction tokens with
  | nil => rfl
  | cons t tokens ih =>
    have ht := h t List.mem_cons_self
    have hrest := ih fun u hu => h u (List.mem_cons_of_mem t hu)
    simp only [splitAt, ht, Bool.false_eq_true, ↓reduceIte, hrest]

theorem splitAt_append {separator : Token → Bool} {tokens : List Token}
    (h : ∀ t ∈ tokens, separator t = false) {t : Token} (ht : separator t = true)
    (rest : List Token) :
    splitAt separator (tokens ++ t :: rest) = tokens :: splitAt separator rest := by
  induction tokens with
  | nil => rw [List.nil_append, splitAt, if_pos ht]
  | cons u tokens ih =>
    have hu := h u List.mem_cons_self
    have hrest := ih fun v hv => h v (List.mem_cons_of_mem u hv)
    simp only [List.cons_append, splitAt, hu, Bool.false_eq_true, ↓reduceIte, hrest]

theorem parseLine_single {line : List Token} {c : Command}
    (h : ∀ t ∈ line, Token.isOrElse t = false) (hc : parseCommand line = some c) :
    parseLine line = some [c] := by
  rw [parseLine, splitAt_single h, List.mapM_cons, hc]
  rfl

theorem parseLine_orElse {line rest : List Token} {c : Command} {commands : List Command}
    (h : ∀ t ∈ line, Token.isOrElse t = false) (hc : parseCommand line = some c)
    (hrest : parseLine rest = some commands) :
    parseLine (line ++ .orElse :: rest) = some (c :: commands) := by
  rw [parseLine] at hrest ⊢
  rw [splitAt_append h rfl, List.mapM_cons, hc, hrest]
  rfl

/-- The commands of a script, line by line. -/
theorem parse_of_lines {tokens : List Token} (lines : List (List Token))
    {commands : List (List Command)}
    (hsplit : (splitAt Token.isNewline tokens).filter (· ≠ []) = lines)
    (h : List.Forall₂ (fun line commands => parseLine line = some commands) lines commands) :
    parse tokens = some commands := by
  rw [parse, hsplit]
  clear hsplit
  induction h with
  | nil => rfl
  | cons hline _ ih => rw [List.mapM_cons, hline, ih]; rfl

end Words

section Expansion

variable (parameters : List (List Char)) (s : State)

theorem expandText_append {v w : Word} {x y : List Char}
    (hv : expandText parameters s v = some x) (hw : expandText parameters s w = some y) :
    expandText parameters s (v ++ w) = some (x ++ y) := by
  obtain ⟨xs, hxs, rfl⟩ := Option.map_eq_some_iff.mp hv
  obtain ⟨ys, hys, rfl⟩ := Option.map_eq_some_iff.mp hw
  rw [expandText, List.mapM_append, hxs, hys]
  exact congrArg some List.flatten_append

theorem expandText_literal (value : List Char) :
    expandText parameters s (literal value) = some value := by
  have hparts : (literal value).mapM (expandPart parameters s) = some (value.map ([·])) := by
    induction value with
    | nil => rfl
    | cons c value ih =>
      rw [literal] at ih
      rw [literal, List.map_cons, List.mapM_cons, ih]
      rfl
  rw [expandText, hparts, Option.map_some, ← List.flatMap_def, List.flatMap_singleton']

theorem expandText_plainWord (text : List Char) :
    expandText parameters s (plainWord text) = some text := by
  have hparts : (plainWord text).mapM (expandPart parameters s) = some (text.map ([·])) := by
    induction text with
    | nil => rfl
    | cons c text ih =>
      rw [plainWord] at ih
      rw [plainWord, List.map_cons, List.mapM_cons, ih]
      rfl
  rw [expandText, hparts, Option.map_some, ← List.flatMap_def, List.flatMap_singleton']

theorem expandText_variable {s : State} {name value : List Char} (h : s.env name = some value) :
    expandText parameters s [.variable name] = some value := by
  have hpart : [Part.variable name].mapM (expandPart parameters s) = some [value] := by
    rw [List.mapM_cons, expandPart, h]
    rfl
  rw [expandText, hpart]
  exact congrArg some (List.append_nil value)

/-- Under `set -u` there is no value for a variable that is not set. -/
theorem expandText_unset {s : State} {name : List Char} (hnounset : s.nounset = true)
    (h : s.env name = none) (w : Word) :
    expandText parameters s (.variable name :: w) = none := by
  have hpart : expandPart parameters s (.variable name) = none := by
    rw [expandPart, h, unset, if_pos hnounset]
    rfl
  rw [expandText, List.mapM_cons, hpart]
  rfl

/-- A word that is expanded to one field. -/
theorem expandWord_of_text {w : Word} {text : List Char}
    (h : expandText parameters s w = some text) : expandWord parameters s w = some [text] := by
  have hne : w ≠ [.arguments] := by
    rintro rfl
    cases h
  rw [expandWord, if_neg hne, h, Option.map_some]

theorem expandWords_cons {w : Word} {words : List Word} {fields more : List (List Char)}
    (h : expandWord parameters s w = some fields)
    (hmore : expandWords parameters s words = some more) :
    expandWords parameters s (w :: words) = some (fields ++ more) := by
  obtain ⟨rest, hrest, rfl⟩ := Option.map_eq_some_iff.mp hmore
  rw [expandWords, List.mapM_cons, h, hrest]
  rfl

theorem expandWords_of_texts {words : List Word} {texts : List (List Char)}
    (h : List.Forall₂ (fun w text => expandText parameters s w = some text) words texts) :
    expandWords parameters s words = some texts := by
  induction h with
  | nil => rfl
  | cons hw _ ih => exact expandWords_cons parameters s (expandWord_of_text parameters s hw) ih

/-- A word without a value leaves the command without any. -/
theorem expandWords_none {words : List Word} {w : Word} (hw : w ∈ words)
    (h : expandWord parameters s w = none) : expandWords parameters s words = none := by
  have hnone : words.mapM (expandWord parameters s) = none := by
    induction words with
    | nil => cases hw
    | cons v words ih =>
      rw [List.mapM_cons]
      rcases List.mem_cons.mp hw with rfl | hw
      · rw [h]
        rfl
      · rw [ih hw]
        cases expandWord parameters s v <;> rfl
  rw [expandWords, hnone, Option.map_none]

theorem not_builtin_of_mem {program : List Char} {c : Char} (h : c ∈ program)
    (hc : c ∉ ['e', 'x', 'c', 'i', 't', 's']) : program ∉ builtins := by
  have hletters : builtins.all fun name => name.all (· ∈ ['e', 'x', 'c', 'i', 't', 's']) := by
    decide
  exact fun hmem => hc (of_decide_eq_true
    (List.all_eq_true.mp (List.all_eq_true.mp hletters program hmem) c h))

/-- A command that changes nothing of the shell itself. -/
theorem runCall_of_not_builtin (oracle : Oracle) {program : List Char} (h : program ∉ builtins)
    (arguments : List (List Char)) (redirects : List (ℕ × Target (List Char))) :
    runCall oracle s ⟨program :: arguments, redirects⟩ =
      s.call oracle ⟨program :: arguments, redirects⟩ := by
  unfold runCall
  split
  · next heq => exact absurd ((List.cons.inj heq).1 ▸ by decide) h
  · next heq => exact absurd ((List.cons.inj heq).1 ▸ by decide) h
  · next heq => exact absurd ((List.cons.inj heq).1 ▸ by decide) h
  · rfl

end Expansion

section Runs

variable (oracle : Oracle) (parameters : List (List Char))

@[simp] theorem runList_single (s : State) (c : Command) :
    runList oracle parameters s [c] = runCommand oracle parameters s c := by
  rw [runList, runList, ite_self]

@[simp] theorem runLines_single (s : State) (line : List Command) :
    runLines oracle parameters s [line] = runLine oracle parameters s line := by
  rw [runLines, runLines, ite_self]

theorem runLines_open {s t : State} {line : List Command} (h : runLine oracle parameters s line = t)
    (ht : t.exited = false) (rest : List (List Command)) :
    runLines oracle parameters s (line :: rest) = runLines oracle parameters t rest := by
  simp only [runLines, h, ht, Bool.false_eq_true, ↓reduceIte]

theorem runLines_exited {s t : State} {line : List Command}
    (h : runLine oracle parameters s line = t) (ht : t.exited = true) (rest : List (List Command)) :
    runLines oracle parameters s (line :: rest) = t := by
  simp only [runLines, h, ht, ↓reduceIte]

/-- A simple command whose words are known. -/
theorem runCommand_simple {s : State} {c : Simple} {call : Invocation}
    (h : expand parameters s c = some call) :
    runCommand oracle parameters s (.simple c) = runCall oracle s call := by
  simp only [runCommand, runSimple, h]

/-- The value of an assignment `name="$(..)"`, if the command succeeds. -/
def captured (calls : List Invocation) (call : Invocation) : Option (List Char) :=
  if (oracle calls call).1 = 0 then some ((oracle calls call).2.rdropWhile (· = '\n')) else none

theorem runCommand_capture {s : State} {c : Simple} {call : Invocation}
    (h : expand parameters s c = some call) (name : List Char) :
    runCommand oracle parameters s (.capture name c) =
      { s.call oracle call with
        env := Function.update s.env name
          (some ((oracle s.calls call).2.rdropWhile (· = '\n'))) } := by
  simp only [runCommand, runCapture, h]

/-- Without `set -e` a line ends as its last command does. -/
theorem runLine_of_list {s t : State} {line : List Command}
    (h : runList oracle parameters s line = t) (ht : t.errexit = false) :
    runLine oracle parameters s line = t := by
  subst h
  simp only [runLine, ht, Bool.false_eq_true, false_and, ↓reduceIte]

/-- Two commands with `||` between them, neither of which is a command of the shell itself. -/
theorem runLine_orElse {s : State} {c d : Simple} {first second : Invocation} {p q : List Char}
    {ps qs : List (List Char)} (herrexit : s.errexit = false) (hexited : s.exited = false)
    (hc : expand parameters s c = some first) (hd : expand parameters s d = some second)
    (hfirst : first.argv = p :: ps) (hsecond : second.argv = q :: qs)
    (hp : p ∉ builtins) (hq : q ∉ builtins) :
    runLine oracle parameters s [.simple c, .simple d] =
      if (oracle s.calls first).1 = 0 then s.call oracle first
      else (s.call oracle first).call oracle second := by
  obtain ⟨argv, redirects⟩ := first
  obtain ⟨argv', redirects'⟩ := second
  simp only at hfirst hsecond
  subst hfirst hsecond
  have hone : runCommand oracle parameters s (.simple c) = s.call oracle ⟨p :: ps, redirects⟩ := by
    rw [runCommand_simple oracle parameters hc, runCall_of_not_builtin s oracle hp]
  -- the second command is expanded as in the state before the first one
  have htwo : runCommand oracle parameters (s.call oracle ⟨p :: ps, redirects⟩) (.simple d) =
      (s.call oracle ⟨p :: ps, redirects⟩).call oracle ⟨q :: qs, redirects'⟩ := by
    have hsame : expand parameters (s.call oracle ⟨p :: ps, redirects⟩) d =
        some ⟨q :: qs, redirects'⟩ := hd
    rw [runCommand_simple oracle parameters hsame, runCall_of_not_builtin _ oracle hq]
  refine runLine_of_list oracle parameters ?_ ?_
  · rw [runList, hone]
    simp only [runList_single, htwo]
    have hopen : (s.call oracle ⟨p :: ps, redirects⟩).exited = false := hexited
    simp only [hopen, Bool.false_eq_true, false_or]
    rfl
  · split_ifs <;> exact herrexit

/-- A variable that is set by a command, or the end of the script with the status 0. -/
theorem runLine_capture {s : State} {name : List Char} {c : Simple} {call : Invocation}
    (herrexit : s.errexit = false) (hexited : s.exited = false)
    (hc : expand parameters s c = some call) :
    runLine oracle parameters s [.capture name c,
        .simple ⟨[plainWord ['e', 'x', 'i', 't'], plainWord ['0']], []⟩] =
      (captured oracle s.calls call).elim
        { s.call oracle call with
          env := Function.update s.env name
            (some ((oracle s.calls call).2.rdropWhile (· = '\n')))
          status := 0, exited := true }
        fun value => { s.call oracle call with
          env := Function.update s.env name (some value), status := 0 } := by
  have hone := runCommand_capture oracle parameters hc name
  refine runLine_of_list oracle parameters ?_ ?_
  · rw [runList, hone]
    by_cases hstatus : (oracle s.calls call).1 = 0
    · simp only [captured, hstatus, State.call, or_true, ↓reduceIte, Option.elim_some]
    · have hexit : ∀ t : State, runCommand oracle parameters t
          (.simple ⟨[plainWord ['e', 'x', 'i', 't'], plainWord ['0']], []⟩) =
            { t with status := 0, exited := true } := fun _ => rfl
      simp only [captured, hstatus, State.call, hexited, Bool.false_eq_true, or_self, ↓reduceIte,
        Option.elim_none, runList_single, hexit]
  · cases captured oracle s.calls call <;> exact herrexit

theorem expand_words {s : State} {words : List Word} {argv : List (List Char)}
    (h : expandWords parameters s words = some argv) :
    expand parameters s ⟨words, []⟩ = some ⟨argv, []⟩ := by
  rw [expand, h]
  rfl

/-- A command with its output of one kind in a file. -/
theorem expand_file {s : State} {words : List Word} {argv : List (List Char)}
    (h : expandWords parameters s words = some argv) (fd : ℕ) (path : List Char) :
    expand parameters s ⟨words, [(fd, .file (plainWord path))]⟩ =
      some ⟨argv, [(fd, .file path)]⟩ := by
  have htarget : expandTarget parameters s (.file (plainWord path)) = some (.file path) := by
    rw [expandTarget, expandText_plainWord, Option.map_some]
  rw [expand, h, Option.bind_some, List.mapM_cons, htarget]
  rfl

theorem expand_descriptor {s : State} {words : List Word} {argv : List (List Char)}
    (h : expandWords parameters s words = some argv) (fd target : ℕ) :
    expand parameters s ⟨words, [(fd, .descriptor target)]⟩ =
      some ⟨argv, [(fd, .descriptor target)]⟩ := by
  rw [expand, h]
  rfl

theorem expandWords_plainWords (s : State) (texts : List (List Char)) :
    expandWords parameters s (texts.map plainWord) = some texts := by
  apply expandWords_of_texts
  induction texts with
  | nil => exact .nil
  | cons text texts ih => exact .cons (expandText_plainWord parameters s text) ih

theorem run_of_lines {env : List Char → Option (List Char)} {script : List Char}
    {tokens : List Token} {lines : List (List Command)} (hlex : lex script = some tokens)
    (hparse : parse tokens = some lines) :
    run oracle parameters env script = some (runLines oracle parameters (initial env) lines) := by
  rw [run, hlex, Option.bind_some, hparse, Option.map_some]

end Runs

section Lines

/-- A text that begins with tokens and ends in a word. -/
def Ends (text : List Char) (tokens : List Token) (w : Word) : Prop :=
  scan .initial text = some (tokens, ⟨some w, .bare⟩)

theorem step_plain {l : Lexer} {c : Char} (hl : l.mode = .bare) (h : plain c = true) :
    step l c = some ([], l.add (.bare c) .bare) := by
  have hother {d : Char} (hd : plain d = false) : c ≠ d := by
    rintro rfl
    exact absurd (h.symm.trans hd) (by decide)
  have hnul : c.toNat ≠ 0 := by
    intro hzero
    apply hother (d := Char.ofNat 0) (by decide)
    rw [← hzero, Char.ofNat_toNat]
  rw [step, if_neg hnul, hl, stepBare, if_neg (hother (by decide)), if_neg (hother (by decide)),
    if_neg (hother (by decide)), if_neg (not_or.mpr ⟨hother (by decide), hother (by decide)⟩),
    if_neg (hother (by decide)), if_neg (hother (by decide)), if_neg (hother (by decide)),
    if_neg fun hcomment => hother (by decide) hcomment.1, if_pos (Or.inl h)]

theorem scan_plain {text : List Char} (h : ∀ c ∈ text, plain c = true) (w : Word) :
    scan ⟨some w, .bare⟩ text = some ([], ⟨some (w ++ plainWord text), .bare⟩) := by
  induction text generalizing w with
  | nil => rw [plainWord, List.map_nil, List.append_nil]; rfl
  | cons c text ih =>
    have hc := step_plain (l := ⟨some w, .bare⟩) rfl (h c List.mem_cons_self)
    have hrest := ih (fun d hd => h d (List.mem_cons_of_mem c hd)) (w ++ [.bare c])
    rw [scan, hc]
    simp only [Option.bind_some, Lexer.add, Option.getD_some, hrest, Option.map_some,
      List.nil_append, List.append_assoc, plainWord, List.map_cons, List.singleton_append]

theorem ends_plainWord {text : List Char} (hne : text ≠ []) (h : ∀ c ∈ text, plain c = true) :
    Ends text [] (plainWord text) := by
  obtain ⟨c, text, rfl⟩ := List.exists_cons_of_ne_nil hne
  have hc := step_plain (l := .initial) rfl (h c List.mem_cons_self)
  have hrest := scan_plain (fun d hd => h d (List.mem_cons_of_mem c hd)) [.bare c]
  have hadd : Lexer.initial.add (.bare c) .bare = ⟨some [.bare c], .bare⟩ := rfl
  rw [Ends, scan, hc, Option.bind_some, hadd]
  simp only [hrest, Option.map_some, List.nil_append, plainWord, List.map_cons,
    List.singleton_append]

/-- A line of a script, from the texts between its blanks. -/
def line (texts : List (List Char)) : List Char := [' '].intercalate texts ++ ['\n']

theorem line_cons (text : List Char) (texts : List (List Char)) :
    line (text :: texts) = text ++ texts.flatMap (' ' :: ·) ++ ['\n'] := by
  have hjoin : [' '].intercalate (text :: texts) = text ++ texts.flatMap (' ' :: ·) := by
    induction texts generalizing text with
    | nil => rw [List.intercalate_singleton, List.flatMap_nil, List.append_nil]
    | cons next texts ih =>
      rw [List.intercalate_cons_cons, ih, List.flatMap_cons, List.append_assoc]
      rfl
  rw [line, hjoin]

theorem scan_behind {w : Word} {text : List Char} {tokens : List Token} {l : Lexer}
    (h : scan .initial text = some (tokens, l)) :
    scan ⟨some w, .bare⟩ (' ' :: text) = some (.word w :: tokens, l) := by
  have hspace : scan ⟨some w, .bare⟩ [' '] = some ([.word w], .initial) := rfl
  exact scan_of_parts hspace h

/-- The end of a line behind a word. -/
theorem scan_newline (w : Word) :
    scan ⟨some w, .bare⟩ ['\n'] = some ([.word w, .newline], .initial) := rfl

/-- What stands in a line between two blanks: tokens, and the word behind them. -/
def itemTokens (item : List Token × Word) : List Token := item.1 ++ [.word item.2]

theorem scan_items {texts : List (List Char)} {items : List (List Token × Word)}
    (h : List.Forall₂ (fun text item => Ends text item.1 item.2) texts items) (w : Word) :
    scan ⟨some w, .bare⟩ (texts.flatMap (' ' :: ·) ++ ['\n']) =
      some (.word w :: (items.flatMap itemTokens ++ [.newline]), .initial) := by
  induction h generalizing w with
  | nil => exact scan_newline w
  | @cons text item texts items htext _ ih =>
    have hall := scan_of_parts (scan_behind (w := w) htext) (ih item.2)
    rw [List.flatMap_cons, List.append_assoc, List.flatMap_cons, hall]
    simp only [itemTokens, List.cons_append, List.append_assoc, List.nil_append]

theorem scan_line {text : List Char} {texts : List (List Char)} {item : List Token × Word}
    {items : List (List Token × Word)} (hfirst : Ends text item.1 item.2)
    (h : List.Forall₂ (fun text item => Ends text item.1 item.2) texts items) :
    scan .initial (line (text :: texts)) =
      some ((item :: items).flatMap itemTokens ++ [.newline], .initial) := by
  have hall := scan_of_parts hfirst (scan_items h item.2)
  rw [line_cons, List.append_assoc, hall]
  simp only [itemTokens, List.flatMap_cons, List.append_assoc, List.cons_append, List.nil_append]

/-- A text that is one line with these commands. -/
def IsLine (text : List Char) (commands : List Command) : Prop :=
  ∃ tokens, scan .initial text = some (tokens ++ [.newline], .initial) ∧ tokens ≠ [] ∧
    (∀ t ∈ tokens, t.isNewline = false) ∧ parseLine tokens = some commands

/-- A line of words is a simple command. -/
theorem isLine_words {texts : List (List Char)} {w : Word} {words : List Word}
    (h : List.Forall₂ (fun text w => Ends text [] w) texts (w :: words)) (hw : Begins w)
    (hplain : Plain (w :: words)) : IsLine (line texts) [.simple ⟨w :: words, []⟩] := by
  have hitems : (w :: words).flatMap (fun w => itemTokens ([], w)) = (w :: words).map .word :=
    List.map_eq_flatMap.symm
  have hword : ∀ t ∈ (w :: words).map Token.word, t.isNewline = false ∧ t.isOrElse = false := by
    intro t ht
    obtain ⟨v, -, rfl⟩ := List.mem_map.mp ht
    exact ⟨rfl, rfl⟩
  have hnone : parseTokens [] = some ⟨[], []⟩ := rfl
  have hcommand := parseCommand_words hw hplain hnone
  rw [List.append_nil] at hcommand
  refine ⟨(w :: words).map .word, ?_, List.cons_ne_nil _ _, fun t ht => (hword t ht).1,
    parseLine_single (fun t ht => (hword t ht).2) hcommand⟩
  cases h with
  | cons hfirst hrest =>
    have hmap : List.Forall₂ (fun text item => Ends text item.1 item.2) _
        (words.map fun w => (([], w) : List Token × Word)) :=
      List.forall₂_map_right_iff.mpr hrest
    have hline := @scan_line _ _ ([], w) _ hfirst hmap
    rw [hline, ← hitems, List.flatMap_cons, List.flatMap_cons, List.flatMap_map]

/-- A script that is given line by line. -/
theorem run_of_texts (oracle : Oracle) (parameters : List (List Char))
    (env : List Char → Option (List Char)) {texts : List (List Char)}
    {commands : List (List Command)} (h : List.Forall₂ IsLine texts commands) :
    run oracle parameters env texts.flatten =
      some (runLines oracle parameters (initial env) commands) := by
  have hscript : ∃ lines : List (List Token),
      scan .initial texts.flatten = some (lines.flatMap (· ++ [.newline]), .initial) ∧
      (splitAt Token.isNewline (lines.flatMap (· ++ [.newline]))).filter (· ≠ []) = lines ∧
      List.Forall₂ (fun line commands => parseLine line = some commands) lines commands := by
    induction h with
    | nil => exact ⟨[], rfl, rfl, .nil⟩
    | @cons text command texts commands hline _ ih =>
      obtain ⟨tokens, hscan, hne, hnewline, hparse⟩ := hline
      obtain ⟨lines, hrest, hsplit, hlines⟩ := ih
      refine ⟨tokens :: lines, ?_, ?_, .cons hparse hlines⟩
      · rw [List.flatten_cons, scan_of_parts hscan hrest, List.flatMap_cons]
      · have hfirst := splitAt_append (t := .newline) hnewline rfl
          (lines.flatMap (· ++ [.newline]))
        have hkept : decide (tokens ≠ []) = true := decide_eq_true hne
        rw [List.flatMap_cons, List.append_assoc, List.singleton_append, hfirst,
          List.filter_cons, if_pos hkept, hsplit]
  obtain ⟨lines, hscan, hsplit, hlines⟩ := hscript
  exact run_of_lines oracle parameters (lex_of_scan hscan) (parse_of_lines lines hsplit hlines)

end Lines

section Checked

variable (oracle : Oracle) (parameters : List (List Char))

/-- Commands of which each one is run only if those before it have succeeded. -/
def runChecked (s : State) : List Invocation → State
  | [] => s
  | c :: rest =>
    let s := s.call oracle c
    if s.status = 0 then runChecked s rest else { s with exited := true }

/-- Under `set -e` the lines of a script are run until one fails. -/
theorem runLines_checked {s : State} (herrexit : s.errexit = true) (hexited : s.exited = false)
    {commands : List Simple} {calls : List Invocation}
    (h : List.Forall₂ (fun c call => expand parameters s c = some call ∧
      ∃ program arguments, call.argv = program :: arguments ∧ program ∉ builtins) commands calls) :
    runLines oracle parameters s (commands.map fun c => [.simple c]) =
      runChecked oracle s calls := by
  induction commands generalizing s calls with
  | nil =>
    cases h
    rfl
  | cons c commands ih =>
    obtain ⟨call, calls, ⟨hexpand, program, arguments, hargv, hbuiltin⟩, hrest, rfl⟩ :=
      List.forall₂_cons_left_iff.mp h
    have hcall : runCall oracle s call = s.call oracle call := by
      obtain ⟨argv, redirects⟩ := call
      subst hargv
      exact runCall_of_not_builtin s oracle hbuiltin arguments redirects
    have hline : runLine oracle parameters s [.simple c] =
        if (s.call oracle call).status = 0 then s.call oracle call
        else { s.call oracle call with exited := true } := by
      rw [runLine, runList_single, runCommand_simple oracle parameters hexpand, hcall]
      by_cases hstatus : (s.call oracle call).status = 0
      · simp only [hstatus, ne_eq, not_true_eq_false, and_false, ↓reduceIte]
      · have hflag : (s.call oracle call).errexit = true := herrexit
        simp only [hstatus, hflag, ne_eq, not_false_eq_true, and_self, ↓reduceIte]
    rw [List.map_cons, runChecked]
    by_cases hstatus : (s.call oracle call).status = 0
    · rw [if_pos hstatus] at hline
      rw [runLines_open oracle parameters hline hexited, if_pos hstatus]
      have hopen : (s.call oracle call).errexit = true := herrexit
      exact ih hopen hexited hrest
    · rw [if_neg hstatus] at hline
      rw [runLines_exited oracle parameters hline rfl, if_neg hstatus]

end Checked

end Shell
