import Resync.HookCommands
import Resync.Lib.Shell
import Resync.Lib.Utf8
import Resync.StateDocuments

/-! The scripts that RepoSync generates for other programs to run: the dispatchers behind the
handlers of a `hooks.json` (`hook_dispatcher.rs`) and the Git hooks of a checkout (`cli.rs`). -/
namespace Resync

namespace GeneratedScripts

open Shell

section Quoting

variable {value : List Char}

theorem scan_escapeQuote (w : Word) (h : Char.ofNat 0 ∉ value) :
    scan ⟨some w, .single⟩ (value.flatMap escapeQuote) =
      some ([], ⟨some (w ++ literal value), .single⟩) := by
  induction value generalizing w with
  | nil => simp only [List.flatMap_nil, scan, literal, List.map_nil, List.append_nil]
  | cons c value ih =>
    have hc : c.toNat ≠ 0 := by
      intro hzero
      apply h
      rw [← hzero, Char.ofNat_toNat]
      exact List.mem_cons_self
    have hrest := ih (w ++ [.quoted c]) fun hmem => h (List.mem_cons_of_mem c hmem)
    have hone : scan ⟨some w, .single⟩ (escapeQuote c) =
        some ([], ⟨some (w ++ [.quoted c]), .single⟩) := by
      rw [escapeQuote]
      split_ifs with hquote
      · subst hquote
        rfl
      · simp only [scan, step, hc, hquote, ↓reduceIte, Lexer.add, Option.getD_some,
          Option.bind_some, Option.map_some, List.append_nil]
    rw [List.flatMap_cons, scan_of_parts hone hrest, List.append_assoc]
    rfl

/-- A quoted value is a part of the word it stands in, whatever its characters are. -/
theorem scan_shellQuote (w : Option Word) (h : Char.ofNat 0 ∉ value) :
    scan ⟨w, .bare⟩ (shellQuote value) =
      some ([], ⟨some (w.getD [] ++ literal value), .bare⟩) := by
  have hopen : scan ⟨w, .bare⟩ ['\''] = some ([], ⟨some (w.getD []), .single⟩) := rfl
  have hclose : scan ⟨some (w.getD [] ++ literal value), .single⟩ ['\''] =
      some ([], ⟨some (w.getD [] ++ literal value), .bare⟩) := rfl
  have hinside := scan_of_parts (scan_escapeQuote (w.getD []) h) hclose
  exact scan_of_parts hopen hinside

theorem scan_word (h : Char.ofNat 0 ∉ value) :
    scan .initial (shellQuote value) = some ([], ⟨some (literal value), .bare⟩) :=
  scan_shellQuote none h

end Quoting

section Dispatchers

/-- `script` of `ensure_dispatcher`. -/
def dispatcherScript (description arguments : List Char) : List Char :=
  "#!/bin/sh\n# ".toList ++ description ++ "\nexec \"$0.resync\" ".toList ++ arguments ++ ['\n']

/-- `ensure_project_dispatcher`. -/
def projectDispatcher (projectId : List Char) : List Char :=
  dispatcherScript "RepoSync Codex hook dispatcher v1".toList
    ("codex-hook ".toList ++ shellQuote projectId)

/-- `ensure_workspace_dispatcher`. -/
def workspaceDispatcher (manifestPath : List Char) : List Char :=
  dispatcherScript "RepoSync Codex workspace hook dispatcher v1".toList
    ("codex-workspace-hook ".toList ++ shellQuote manifestPath)

/-- A command that is one quoted word, as `sh -c` runs it. -/
theorem run_shellQuote (oracle : Oracle) (parameters : List (List Char))
    (env : List Char → Option (List Char)) {program : List Char} (hslash : '/' ∈ program)
    (h : Char.ofNat 0 ∉ program) :
    run oracle parameters env (shellQuote program) =
      some ((initial env).call oracle ⟨[program], []⟩) := by
  have hbegins : Begins (literal program) := begins_literal (List.ne_nil_of_mem hslash)
  have hlex : lex (shellQuote program) = some [.word (literal program)] := by
    rw [lex, scan_word h]
    rfl
  have hplain : Plain [literal program] := by
    intro w hw
    rw [List.mem_singleton.mp hw, any_isOutput_literal]
  have hcommand : parseCommand [.word (literal program)] =
      some (.simple ⟨[literal program], []⟩) := by
    have hnone : parseTokens [] = some ⟨[], []⟩ := rfl
    exact parseCommand_words hbegins hplain hnone
  have hparse : parse [.word (literal program)] = some [[.simple ⟨[literal program], []⟩]] := by
    apply parse_of_lines [[.word (literal program)]] rfl
    exact .cons (parseLine_single (by simp [Token.isOrElse]) hcommand) .nil
  have hwords := expand_words parameters (expandWords_of_texts parameters (initial env)
    (.cons (expandText_literal parameters (initial env) program) .nil))
  rw [run_of_lines oracle parameters hlex hparse, runLines_single]
  refine congrArg some (runLine_of_list oracle parameters ?_ rfl)
  rw [runList_single, runCommand_simple oracle parameters hwords]
  exact runCall_of_not_builtin (initial env) oracle (not_builtin_of_mem hslash (by decide)) [] []

theorem regroup (a b c d e f : List Char) :
    a ++ b ++ c ++ (d ++ e) ++ f = a ++ b ++ c ++ d ++ e ++ f := by
  simp only [List.append_assoc]

/-- A dispatcher hands its task to the executable that is linked next to it. -/
theorem run_dispatcher (oracle : Oracle) (arguments : List (List Char))
    (env : List Char → Option (List Char)) (dispatcher : List Char)
    {description subcommand value : List Char}
    (hdescription : scan .initial ("#!/bin/sh\n# ".toList ++ description ++
        "\nexec \"$0.resync\" ".toList ++ (subcommand ++ [' '])) =
      some ([.newline, .newline, .word (plainWord ['e', 'x', 'e', 'c']),
        .word (.argument 0 :: literal ".resync".toList), .word (plainWord subcommand)], .initial))
    (hvalue : Char.ofNat 0 ∉ value) :
    run oracle (dispatcher :: arguments) env
        (dispatcherScript description (subcommand ++ [' '] ++ shellQuote value)) =
      some { (initial env).call oracle
        ⟨[dispatcher ++ ".resync".toList, subcommand, value], []⟩ with exited := true } := by
  have hlex : lex (dispatcherScript description (subcommand ++ [' '] ++ shellQuote value)) =
      some [.newline, .newline, .word (plainWord ['e', 'x', 'e', 'c']),
        .word (.argument 0 :: literal ".resync".toList), .word (plainWord subcommand),
        .word (literal value), .newline] := by
    have hscan := scan_of_parts (scan_of_parts hdescription (scan_word hvalue))
      (scan_newline (literal value))
    have htext : dispatcherScript description (subcommand ++ [' '] ++ shellQuote value) =
        "#!/bin/sh\n# ".toList ++ description ++ "\nexec \"$0.resync\" ".toList ++
          (subcommand ++ [' ']) ++ shellQuote value ++ ['\n'] := regroup _ _ _ _ _ _
    exact htext ▸ lex_of_scan hscan
  have hwords : Plain [plainWord ['e', 'x', 'e', 'c'], .argument 0 :: literal ".resync".toList,
      plainWord subcommand, literal value] := by
    refine .cons (any_isOutput_plainWord _) (.cons ?_ (.cons (any_isOutput_plainWord _)
      (.cons (any_isOutput_literal _) plain_nil)))
    rw [List.any_cons, any_isOutput_literal]
    rfl
  have hbegins : Begins (plainWord ['e', 'x', 'e', 'c']) :=
    begins_plainWord (by decide) (by decide)
  have hnone : parseTokens [] = some ⟨[], []⟩ := rfl
  have hcommand := parseCommand_words hbegins hwords hnone
  have hparse : parse [.newline, .newline, .word (plainWord ['e', 'x', 'e', 'c']),
      .word (.argument 0 :: literal ".resync".toList), .word (plainWord subcommand),
      .word (literal value), .newline] = some [[.simple ⟨[plainWord ['e', 'x', 'e', 'c'],
        .argument 0 :: literal ".resync".toList, plainWord subcommand, literal value], []⟩]] := by
    apply parse_of_lines [[plainWord ['e', 'x', 'e', 'c'], .argument 0 :: literal ".resync".toList,
      plainWord subcommand, literal value].map .word ++ []] rfl
    exact .cons (parseLine_single (by simp [Token.isOrElse]) hcommand) .nil
  have hname : expandText (dispatcher :: arguments) (initial env)
      (.argument 0 :: literal ".resync".toList) = some (dispatcher ++ ".resync".toList) := by
    have hzero : expandText (dispatcher :: arguments) (initial env) [.argument 0] =
        some dispatcher := congrArg some (List.append_nil dispatcher)
    exact expandText_append _ _ hzero (expandText_literal _ _ _)
  have hargv := expand_words (dispatcher :: arguments) (expandWords_of_texts _ (initial env)
    (.cons (expandText_plainWord _ _ ['e', 'x', 'e', 'c']) (.cons hname
      (.cons (expandText_plainWord _ _ subcommand) (.cons (expandText_literal _ _ value) .nil)))))
  rw [run_of_lines oracle _ hlex hparse, runLines_single]
  refine congrArg some (runLine_of_list oracle _ ?_ rfl)
  rw [runList_single, runCommand_simple oracle _ hargv]
  rfl

/-- `target` of `ensure_dispatcher`, the link to the executable. -/
def dispatcherTarget (sha : Sha256) (stateRoot start : List Char) (identity : List UInt8) :
    List Char :=
  PathText.join (PathText.join stateRoot "hook-dispatchers".toList)
    (withExtension (start ++ '-' :: sha.hex identity) "resync".toList)

theorem fileStem_of_not_mem {name : List Char} (h : '.' ∉ name) : fileStem name = name := by
  have hnone : name.reverse.dropWhile (· ≠ '.') = [] := by
    rw [List.dropWhile_eq_nil_iff]
    intro c hc
    apply decide_eq_true
    rintro rfl
    exact h (List.mem_reverse.mp hc)
  rw [fileStem, hnone]

theorem join_append (directory more : List Char) {name : List Char} (h : name ≠ []) :
    PathText.join directory (name ++ more) = PathText.join directory name ++ more := by
  have hhead : (name ++ more).head? = name.head? := List.head?_append_of_ne_nil name h
  rw [PathText.join, PathText.join, hhead]
  split_ifs
  · rfl
  · rw [List.append_assoc]
  · rw [List.append_assoc, List.cons_append]

section

variable (sha : Sha256) {start : List Char} (identity : List UInt8)

theorem not_mem_hex {c : Char} (h : c.toNat < 48) : c ∉ sha.hex identity := by
  intro hmem
  rcases sha.lowerHex identity c hmem with hdigit | ⟨hlow, -⟩
  · exact absurd (Char.isDigit_iff_toNat.mp hdigit).1 (not_le.mpr h)
  · have hlow : 97 ≤ c.toNat := hlow
    omega

theorem not_mem_dispatcherName {c : Char} (h : c.toNat < 48) (hdash : c ≠ '-')
    (hstart : c ∉ start) : c ∉ start ++ '-' :: sha.hex identity := by
  intro hmem
  rcases List.mem_append.mp hmem with hmem | hmem
  · exact hstart hmem
  · rcases List.mem_cons.mp hmem with hmem | hmem
    · exact hdash hmem
    · exact not_mem_hex sha identity h hmem

/-- `"$0.resync"` is the link. -/
theorem dispatcherTarget_eq (stateRoot : List Char) (hdot : '.' ∉ start) :
    dispatcherTarget sha stateRoot start identity =
      dispatcherPath sha stateRoot start identity ++ ".resync".toList := by
  have hname : start ++ '-' :: sha.hex identity ≠ [] :=
    List.append_ne_nil_of_right_ne_nil _ (List.cons_ne_nil _ _)
  have hstem := fileStem_of_not_mem
    (not_mem_dispatcherName sha identity (by decide) (by decide) hdot)
  rw [dispatcherTarget, withExtension, hstem]
  exact join_append _ _ hname

theorem slash_mem_dispatcherPath (stateRoot : List Char) (hstart : start.head? = some 'c') :
    '/' ∈ dispatcherPath sha stateRoot start identity := by
  obtain ⟨slash, -, -, hpath⟩ := dispatcherPath_eq sha stateRoot start identity hstart
  rw [hpath]
  exact List.mem_append_right _ (List.mem_append_right _ (List.mem_append_right _
    List.mem_cons_self))

theorem nul_not_mem_dispatcherPath {stateRoot : List Char} (hroot : Char.ofNat 0 ∉ stateRoot)
    (hstart : start.head? = some 'c') (hnul : Char.ofNat 0 ∉ start) :
    Char.ofNat 0 ∉ dispatcherPath sha stateRoot start identity := by
  obtain ⟨slash, hslash, -, hpath⟩ := dispatcherPath_eq sha stateRoot start identity hstart
  have hdirectory : Char.ofNat 0 ∉ "hook-dispatchers".toList := by decide
  have hempty : Char.ofNat 0 ∉ slash := by
    rcases hslash with rfl | rfl
    · decide
    · decide
  have hname := not_mem_dispatcherName sha identity (by decide) (by decide) hnul
  have hend : Char.ofNat 0 ∉ '/' :: (start ++ '-' :: sha.hex identity) :=
    List.not_mem_cons_of_ne_of_not_mem (by decide) hname
  rw [hpath]
  simp only [List.mem_append, not_or]
  exact ⟨hroot, hempty, hdirectory, hend⟩

end

/-- The command of a handler runs the dispatcher, and the dispatcher the executable with one task
and one value. -/
def RunsHook (oracle : Oracle) (command script dispatcher target subcommand value : List Char) :
    Prop :=
  ∀ (parameters arguments : List (List Char)) (env : List Char → Option (List Char)),
    run oracle parameters env command = some ((initial env).call oracle ⟨[dispatcher], []⟩) ∧
    run oracle (dispatcher :: arguments) env script =
      some { (initial env).call oracle ⟨[target, subcommand, value], []⟩ with exited := true }

/-- The handlers of a `hooks.json` and the dispatchers behind them, for every directory of the
state, every project ID and every path of a manifest: the shell takes the ID or the path from them
as it is, and the executable from the link that stands next to the dispatcher. -/
theorem handlers_run_their_hooks (sha : Sha256) (oracle : Oracle)
    {stateRoot projectId manifestPath : List Char} (hroot : Char.ofNat 0 ∉ stateRoot)
    (hproject : Char.ofNat 0 ∉ projectId) (hmanifest : Char.ofNat 0 ∉ manifestPath) :
    RunsHook oracle (dispatcherCommand sha stateRoot "codex".toList (Utf8.encode projectId))
        (projectDispatcher projectId)
        (dispatcherPath sha stateRoot "codex".toList (Utf8.encode projectId))
        (dispatcherTarget sha stateRoot "codex".toList (Utf8.encode projectId))
        "codex-hook".toList projectId ∧
      RunsHook oracle
        (dispatcherCommand sha stateRoot "codex-workspace".toList (Utf8.encode manifestPath))
        (workspaceDispatcher manifestPath)
        (dispatcherPath sha stateRoot "codex-workspace".toList (Utf8.encode manifestPath))
        (dispatcherTarget sha stateRoot "codex-workspace".toList (Utf8.encode manifestPath))
        "codex-workspace-hook".toList manifestPath := by
  have hcommand {start : List Char} (hstart : start.head? = some 'c')
      (hnul : Char.ofNat 0 ∉ start) (identity : List UInt8) (parameters : List (List Char))
      (env : List Char → Option (List Char)) :=
    run_shellQuote oracle parameters env (slash_mem_dispatcherPath sha identity stateRoot hstart)
      (nul_not_mem_dispatcherPath sha identity hroot hstart hnul)
  constructor
  · intro parameters arguments env
    have htext : "codex-hook ".toList = "codex-hook".toList ++ [' '] := by decide +kernel
    refine ⟨hcommand (by decide) (by decide) _ parameters env, ?_⟩
    rw [projectDispatcher, htext, dispatcherTarget_eq _ _ _ (by decide)]
    exact run_dispatcher oracle arguments env _ (by decide +kernel) hproject
  · intro parameters arguments env
    have htext : "codex-workspace-hook ".toList = "codex-workspace-hook".toList ++ [' '] := by
      decide +kernel
    refine ⟨hcommand (by decide) (by decide) _ parameters env, ?_⟩
    rw [workspaceDispatcher, htext, dispatcherTarget_eq _ _ _ (by decide)]
    exact run_dispatcher oracle arguments env _ (by decide +kernel) hmanifest

theorem handlers_run_their_hooks_of_quotes :
    Char.ofNat 0 ∉ "/home/o'neil/state".toList ∧ Char.ofNat 0 ∉ "prj_'$(id)'".toList ∧
      Char.ofNat 0 ∉ "/src/it's `here`/resync.json".toList ∧
      RunsHook (fun _ _ => (0, []))
        (dispatcherCommand sampleSha "/home/o'neil/state".toList "codex".toList
          (Utf8.encode "prj_'$(id)'".toList))
        (projectDispatcher "prj_'$(id)'".toList)
        (dispatcherPath sampleSha "/home/o'neil/state".toList "codex".toList
          (Utf8.encode "prj_'$(id)'".toList))
        (dispatcherTarget sampleSha "/home/o'neil/state".toList "codex".toList
          (Utf8.encode "prj_'$(id)'".toList))
        "codex-hook".toList "prj_'$(id)'".toList := by
  have hroot : Char.ofNat 0 ∉ "/home/o'neil/state".toList := by decide
  have hproject : Char.ofNat 0 ∉ "prj_'$(id)'".toList := by decide
  have hmanifest : Char.ofNat 0 ∉ "/src/it's `here`/resync.json".toList := by decide
  exact ⟨hroot, hproject, hmanifest,
    (handlers_run_their_hooks sampleSha (fun _ _ => (0, [])) hroot hproject hmanifest).1⟩

end Dispatchers

section GitHooks

/-- The first lines of both hooks. -/
def hookStart : List Char :=
  ("#!/bin/sh\n# RepoSync dispatcher\nset -u\n" ++
    "[ ! -x \"$0.pre-resync\" ] || \"$0.pre-resync\" \"$@\"\n").toList

def notScheduled : String := "RepoSync could not schedule automatic publication"

def notRecorded : String := "RepoSync could not record branch transition"

/-- A report whose output is dropped, with a message for its failure. -/
def reportText (arguments message : String) : List Char :=
  (arguments ++ " >/dev/null || echo \"" ++ message ++ "\" >&2\n").toList

/-- `script` of `install_project_adapters_in_state`. -/
def postCommitHook (executable projectId : List Char) : List Char :=
  hookStart ++ ("commit=\"$(git rev-parse HEAD 2>/dev/null)\" || exit 0\n" ++
      "branch=\"$(git symbolic-ref --short HEAD 2>/dev/null)\" || exit 0\n").toList ++
    shellQuote executable ++ " report-commit ".toList ++ shellQuote projectId ++
    reportText " \"$commit\" \"$branch\"" notScheduled

/-- `checkout_script` of `install_project_adapters_in_state`. -/
def postCheckoutHook (executable projectId : List Char) : List Char :=
  hookStart ++ "new_branch=\"$(git symbolic-ref --short HEAD 2>/dev/null)\" || exit 0\n".toList ++
    shellQuote executable ++ " report-checkout ".toList ++ shellQuote projectId ++
    reportText " \"$1\" \"$2\" \"$new_branch\"" notRecorded

variable (oracle : Oracle)

/-- The hook that was there before, if it can be run. -/
def previousHook (name : List Char) (arguments : List (List Char)) : List Invocation :=
  let test : Invocation :=
    ⟨["[".toList, "!".toList, "-x".toList, name ++ ".pre-resync".toList, "]".toList], []⟩
  if (oracle [] test).1 = 0 then [test]
  else [test, ⟨(name ++ ".pre-resync".toList) :: arguments, []⟩]

/-- A question to Git, whose messages are dropped. -/
def asksGit (arguments : List (List Char)) : Invocation :=
  ⟨"git".toList :: arguments, [(2, .file "/dev/null".toList)]⟩

def headCommit : Invocation := asksGit ["rev-parse".toList, "HEAD".toList]

def headBranch : Invocation := asksGit ["symbolic-ref".toList, "--short".toList, "HEAD".toList]

/-- The report to the daemon, and a message to the user if it fails. -/
def reportCalls (calls : List Invocation) (argv : List (List Char)) (message : List Char) :
    List Invocation :=
  let report : Invocation := ⟨argv, [(1, .file "/dev/null".toList)]⟩
  if (oracle calls report).1 = 0 then calls ++ [report]
  else calls ++ [report, ⟨["echo".toList, message], [(1, .descriptor 2)]⟩]

/-- What the hook after a commit is there to do. -/
def postCommitCalls (name : List Char) (arguments : List (List Char))
    (executable projectId : List Char) : List Invocation :=
  let before := previousHook oracle name arguments
  (captured oracle before headCommit).elim (before ++ [headCommit]) fun commit =>
    (captured oracle (before ++ [headCommit]) headBranch).elim
      (before ++ [headCommit, headBranch]) fun branch =>
        reportCalls oracle (before ++ [headCommit, headBranch])
          [executable, "report-commit".toList, projectId, commit, branch]
          notScheduled.toList

/-- What the hook after a checkout is there to do, with the old and the new commit. -/
def postCheckoutCalls (name : List Char) (arguments : List (List Char))
    (executable projectId old new : List Char) : List Invocation :=
  let before := previousHook oracle name arguments
  (captured oracle before headBranch).elim (before ++ [headBranch]) fun branch =>
    reportCalls oracle (before ++ [headBranch])
      [executable, "report-checkout".toList, projectId, old, new, branch]
      notRecorded.toList

/-- `"$0.pre-resync"` -/
def previousWord : Word := .argument 0 :: literal ".pre-resync".toList

def startTokens : List Token :=
  [.newline, .newline, .word (plainWord ['s', 'e', 't']), .word (plainWord ['-', 'u']), .newline,
    .word (plainWord "[".toList), .word (plainWord "!".toList), .word (plainWord "-x".toList),
    .word previousWord, .word (plainWord "]".toList), .orElse, .word previousWord,
    .word [.arguments], .newline]

def previousLine : List Command :=
  [.simple ⟨[plainWord "[".toList, plainWord "!".toList, plainWord "-x".toList, previousWord,
    plainWord "]".toList], []⟩, .simple ⟨[previousWord, [.arguments]], []⟩]

/-- `"$(command)" || exit 0` behind a name. -/
def askLine (name : List Char) (question : List (List Char)) : List Command :=
  [.capture name ⟨plainWord "git".toList :: question.map plainWord,
      [(2, .file (plainWord "/dev/null".toList))]⟩,
    .simple ⟨[plainWord ['e', 'x', 'i', 't'], plainWord ['0']], []⟩]

/-- The last line of a hook. -/
def reportLine (words : List Word) (message : List Char) : List Command :=
  [.simple ⟨words, [(1, .file (plainWord "/dev/null".toList))]⟩,
    .simple ⟨[plainWord "echo".toList, literal message], [(1, .descriptor 2)]⟩]

theorem scan_hookStart : scan .initial hookStart = some (startTokens, .initial) := by
  decide +kernel

variable {oracle : Oracle} {parameters : List (List Char)} {env : List Char → Option (List Char)}

/-- Where the shell stands in a hook: the commands so far, and the status of the last one. -/
def at' (env : List Char → Option (List Char)) (calls : List Invocation) (status : ℕ) : State :=
  ⟨env, false, true, calls, status, false⟩

theorem expandText_previous (name : List Char) (arguments : List (List Char)) (s : State) :
    expandText (name :: arguments) s previousWord = some (name ++ ".pre-resync".toList) := by
  have hzero : expandText (name :: arguments) s [.argument 0] = some name :=
    congrArg some (List.append_nil name)
  exact expandText_append _ _ hzero (expandText_literal _ _ _)

/-- The hook that was there before is run first, with the same arguments. -/
theorem runLine_previous (name : List Char) (arguments : List (List Char)) :
    ∃ status, runLine oracle (name :: arguments) (at' env [] 0) previousLine =
      at' env (previousHook oracle name arguments) status := by
  have hname := expandText_previous name arguments (at' env [] 0)
  have htest := expand_words (name :: arguments) (expandWords_of_texts _ (at' env [] 0)
    (.cons (expandText_plainWord _ _ "[".toList) (.cons (expandText_plainWord _ _ "!".toList)
      (.cons (expandText_plainWord _ _ "-x".toList) (.cons hname
        (.cons (expandText_plainWord _ _ "]".toList) .nil))))))
  have hprevious : expand (name :: arguments) (at' env [] 0) ⟨[previousWord, [.arguments]], []⟩ =
      some ⟨(name ++ ".pre-resync".toList) :: arguments, []⟩ := by
    have hall : expandWords (name :: arguments) (at' env [] 0) [[.arguments]] =
        some arguments := congrArg some (List.append_nil arguments)
    exact expand_words _ (expandWords_cons _ _ (expandWord_of_text _ _ hname) hall)
  have hdot : '.' ∈ ".pre-resync".toList := by decide +kernel
  have hbuiltin : name ++ ".pre-resync".toList ∉ builtins :=
    not_builtin_of_mem (List.mem_append_right name hdot) (by decide)
  have hline := runLine_orElse oracle (name :: arguments) rfl rfl htest hprevious rfl rfl
    (by decide +kernel) hbuiltin
  by_cases hnone : (oracle [] ⟨["[".toList, "!".toList, "-x".toList, name ++ ".pre-resync".toList,
      "]".toList], []⟩).1 = 0
  · have hcalls : previousHook oracle name arguments = _ := if_pos hnone
    rw [hcalls]
    exact ⟨_, hline.trans (if_pos hnone)⟩
  · have hcalls : previousHook oracle name arguments = _ := if_neg hnone
    rw [hcalls]
    exact ⟨_, hline.trans (if_neg hnone)⟩

/-- A question to Git, after which the hook may be over. -/
theorem runLine_ask (parameters : List (List Char)) (name : List Char) (calls : List Invocation)
    (status : ℕ) (question : List (List Char)) :
    ∃ env', runLine oracle parameters (at' env calls status) (askLine name question) =
      (captured oracle calls (asksGit question)).elim
        ⟨env', false, true, calls ++ [asksGit question], 0, true⟩
        fun value =>
          at' (Function.update env name (some value)) (calls ++ [asksGit question]) 0 := by
  have hwords := expand_file parameters
    (expandWords_plainWords parameters (at' env calls status) ("git".toList :: question)) 2
    "/dev/null".toList
  have hopen : (at' env calls status).errexit = false := rfl
  have hline (x : List Char) := @runLine_capture oracle parameters _ x _ _ hopen rfl hwords
  refine ⟨Function.update env name
    (some ((oracle calls (asksGit question)).2.rdropWhile (· = '\n'))), ?_⟩
  rw [askLine]
  exact hline name

/-- The status of a hook, which fails only if the message that nothing was reported does. -/
def Succeeds (oracle : Oracle) (message : List Char) (calls : List Invocation) (status : ℕ) :
    Prop :=
  let echo : Invocation := ⟨["echo".toList, message], [(1, .descriptor 2)]⟩
  status = 0 ∨ ∃ before, calls = before ++ [echo] ∧ status = (oracle before echo).1

/-- The report is the last that a hook does. -/
theorem runLine_report {parameters : List (List Char)} {calls : List Invocation} {words : List Word}
    {executable message : List Char} {argv : List (List Char)} (hslash : '/' ∈ executable)
    (hwords : expandWords parameters (at' env calls 0) words = some (executable :: argv)) :
    ∃ status,
      Succeeds oracle message (reportCalls oracle calls (executable :: argv) message) status ∧
      runLine oracle parameters (at' env calls 0) (reportLine words message) =
        at' env (reportCalls oracle calls (executable :: argv) message) status := by
  have hreport := expand_file parameters hwords 1 "/dev/null".toList
  have hecho := expand_descriptor parameters (expandWords_of_texts parameters (at' env calls 0)
    (.cons (expandText_plainWord _ _ "echo".toList)
      (.cons (expandText_literal _ _ message) .nil))) 1 2
  have hline := runLine_orElse oracle parameters rfl rfl hreport hecho rfl rfl
    (not_builtin_of_mem hslash (by decide)) (by decide +kernel)
  by_cases hreported : (oracle calls
      ⟨executable :: argv, [(1, .file "/dev/null".toList)]⟩).1 = 0
  · have hcalls : reportCalls oracle calls (executable :: argv) message = _ := if_pos hreported
    rw [hcalls]
    exact ⟨_, Or.inl hreported, hline.trans (if_pos hreported)⟩
  · have hcalls : reportCalls oracle calls (executable :: argv) message = _ := if_neg hreported
    have happend : calls ++ [⟨executable :: argv, [(1, .file "/dev/null".toList)]⟩,
        ⟨["echo".toList, message], [(1, .descriptor 2)]⟩] =
        calls ++ [⟨executable :: argv, [(1, .file "/dev/null".toList)]⟩] ++
          [⟨["echo".toList, message], [(1, .descriptor 2)]⟩] := by
      rw [List.append_assoc, List.singleton_append]
    rw [hcalls, happend]
    exact ⟨_, Or.inr ⟨_, rfl, rfl⟩, hline.trans (if_neg hreported)⟩

/-- The word of an assignment of the output of a command. -/
def askWord (name : String) (command : String) : Word :=
  plainWord (name ++ "=").toList ++ [.output command.toList]

def askTokens (name command : String) : List Token :=
  [.word (askWord name command), .orElse, .word (plainWord ['e', 'x', 'i', 't']),
    .word (plainWord ['0'])]

def reportTokens (message : String) : List Token :=
  [.redirect 1, .word (plainWord "/dev/null".toList), .orElse, .word (plainWord "echo".toList),
    .word (literal message.toList), .duplicate 1, .word (plainWord ['2'])]

theorem parse_reportLine {w : Word} {words : List Word} (hw : Begins w)
    (hplain : Plain (w :: words)) (message : String) :
    parseLine ((w :: words).map .word ++ reportTokens message) =
      some (reportLine (w :: words) message.toList) := by
  have hfile : parseTokens [.redirect 1, .word (plainWord "/dev/null".toList)] =
      some ⟨[], [(1, .file (plainWord "/dev/null".toList))]⟩ := by decide +kernel
  have hreport := parseCommand_words hw hplain hfile
  have hnone : ∀ t ∈ (w :: words).map Token.word ++
      [.redirect 1, .word (plainWord "/dev/null".toList)], t.isOrElse = false := by
    intro t ht
    rcases List.mem_append.mp ht with ht | ht
    · obtain ⟨v, -, rfl⟩ := List.mem_map.mp ht
      rfl
    · rcases List.mem_cons.mp ht with rfl | ht
      · rfl
      · rw [List.mem_singleton.mp ht]
        rfl
  have htwo : parseTokens [.duplicate 1, .word (plainWord ['2'])] =
      some ⟨[], [(1, .descriptor 2)]⟩ := by decide +kernel
  have hecho : parseCommand [.word (plainWord "echo".toList), .word (literal message.toList),
      .duplicate 1, .word (plainWord ['2'])] =
        some (.simple ⟨[plainWord "echo".toList, literal message.toList], [(1, .descriptor 2)]⟩) :=
    parseCommand_words (begins_plainWord (by decide +kernel) (by decide +kernel))
      (.cons (any_isOutput_plainWord _) (.cons (any_isOutput_literal _) plain_nil)) htwo
  have hline := parseLine_orElse hnone hreport
    (parseLine_single (by simp [Token.isOrElse]) hecho)
  rw [List.append_assoc] at hline
  exact hline

/-- The tokens of a hook, from those of the texts around the executable and the project ID. -/
theorem lex_hook {questions subcommand tail : List Char} {asked told : List Token}
    {executable projectId : List Char} (hasked : scan .initial questions = some (asked, .initial))
    (hsubcommand : scan .initial (subcommand ++ [' ']) =
      some ([.word (plainWord subcommand)], .initial))
    (htold : scan .initial tail = some (told, .initial))
    (hexecutable : Char.ofNat 0 ∉ executable) (hproject : Char.ofNat 0 ∉ projectId) :
    lex (hookStart ++ questions ++ shellQuote executable ++ ' ' :: (subcommand ++ [' ']) ++
        shellQuote projectId ++ ' ' :: tail) =
      some (startTokens ++ asked ++ [.word (literal executable), .word (plainWord subcommand)] ++
        .word (literal projectId) :: told) := by
  have hstart := scan_of_parts scan_hookStart hasked
  have hprogram := scan_of_parts (scan_of_parts hstart (scan_word hexecutable))
    (scan_behind hsubcommand)
  have hall := scan_of_parts (scan_of_parts hprogram (scan_word hproject)) (scan_behind htold)
  rw [List.append_nil, List.append_nil] at hall
  exact lex_of_scan hall

theorem lex_postCommitHook {executable projectId : List Char}
    (hexecutable : Char.ofNat 0 ∉ executable) (hproject : Char.ofNat 0 ∉ projectId) :
    lex (postCommitHook executable projectId) = some (startTokens ++
      (askTokens "commit" "git rev-parse HEAD 2>/dev/null" ++ .newline ::
        askTokens "branch" "git symbolic-ref --short HEAD 2>/dev/null" ++ [.newline]) ++
      [.word (literal executable), .word (plainWord "report-commit".toList)] ++
      .word (literal projectId) :: .word [.variable "commit".toList] ::
        .word [.variable "branch".toList] ::
        (reportTokens notScheduled ++ [.newline])) := by
  have hsub : " report-commit ".toList = ' ' :: ("report-commit".toList ++ [' ']) := by
    decide +kernel
  have htail : reportText " \"$commit\" \"$branch\"" notScheduled =
      ' ' :: reportText "\"$commit\" \"$branch\"" notScheduled := by
    decide +kernel
  rw [postCommitHook, hsub, htail]
  exact lex_hook (by decide +kernel) (by decide +kernel) (by decide +kernel) hexecutable hproject

theorem lex_postCheckoutHook {executable projectId : List Char}
    (hexecutable : Char.ofNat 0 ∉ executable) (hproject : Char.ofNat 0 ∉ projectId) :
    lex (postCheckoutHook executable projectId) = some (startTokens ++
      (askTokens "new_branch" "git symbolic-ref --short HEAD 2>/dev/null" ++ [.newline]) ++
      [.word (literal executable), .word (plainWord "report-checkout".toList)] ++
      .word (literal projectId) :: .word [.argument 1] :: .word [.argument 2] ::
        .word [.variable "new_branch".toList] ::
        (reportTokens notRecorded ++ [.newline])) := by
  have hsub : " report-checkout ".toList = ' ' :: ("report-checkout".toList ++ [' ']) := by
    decide +kernel
  have htail : reportText " \"$1\" \"$2\" \"$new_branch\"" notRecorded =
      ' ' :: reportText "\"$1\" \"$2\" \"$new_branch\"" notRecorded := by
    decide +kernel
  rw [postCheckoutHook, hsub, htail]
  exact lex_hook (by decide +kernel) (by decide +kernel) (by decide +kernel) hexecutable hproject

theorem parse_postCommit {executable projectId : List Char} (hslash : '/' ∈ executable) :
    parse (startTokens ++
      (askTokens "commit" "git rev-parse HEAD 2>/dev/null" ++ .newline ::
        askTokens "branch" "git symbolic-ref --short HEAD 2>/dev/null" ++ [.newline]) ++
      [.word (literal executable), .word (plainWord "report-commit".toList)] ++
      .word (literal projectId) :: .word [.variable "commit".toList] ::
        .word [.variable "branch".toList] :: (reportTokens notScheduled ++ [.newline])) =
    some [[.simple ⟨[plainWord ['s', 'e', 't'], plainWord ['-', 'u']], []⟩], previousLine,
      askLine "commit".toList ["rev-parse".toList, "HEAD".toList],
      askLine "branch".toList ["symbolic-ref".toList, "--short".toList, "HEAD".toList],
      reportLine [literal executable, plainWord "report-commit".toList, literal projectId,
        [.variable "commit".toList], [.variable "branch".toList]] notScheduled.toList] := by
  apply parse_of_lines [[.word (plainWord ['s', 'e', 't']), .word (plainWord ['-', 'u'])],
    [.word (plainWord "[".toList), .word (plainWord "!".toList), .word (plainWord "-x".toList),
      .word previousWord, .word (plainWord "]".toList), .orElse, .word previousWord,
      .word [.arguments]],
    askTokens "commit" "git rev-parse HEAD 2>/dev/null",
    askTokens "branch" "git symbolic-ref --short HEAD 2>/dev/null",
    [literal executable, plainWord "report-commit".toList, literal projectId,
      [.variable "commit".toList], [.variable "branch".toList]].map .word ++
        reportTokens notScheduled] rfl
  refine .cons (by decide +kernel) (.cons (by decide +kernel) (.cons (by decide +kernel)
    (.cons (by decide +kernel) (.cons ?_ .nil))))
  apply parse_reportLine (begins_literal (List.ne_nil_of_mem hslash))
  exact .cons (any_isOutput_literal _) (.cons (any_isOutput_plainWord _)
    (.cons (any_isOutput_literal _) (.cons rfl (.cons rfl plain_nil))))

theorem parse_postCheckout {executable projectId : List Char} (hslash : '/' ∈ executable) :
    parse (startTokens ++
      (askTokens "new_branch" "git symbolic-ref --short HEAD 2>/dev/null" ++ [.newline]) ++
      [.word (literal executable), .word (plainWord "report-checkout".toList)] ++
      .word (literal projectId) :: .word [.argument 1] :: .word [.argument 2] ::
        .word [.variable "new_branch".toList] :: (reportTokens notRecorded ++ [.newline])) =
    some [[.simple ⟨[plainWord ['s', 'e', 't'], plainWord ['-', 'u']], []⟩], previousLine,
      askLine "new_branch".toList ["symbolic-ref".toList, "--short".toList, "HEAD".toList],
      reportLine [literal executable, plainWord "report-checkout".toList, literal projectId,
        [.argument 1], [.argument 2], [.variable "new_branch".toList]] notRecorded.toList] := by
  apply parse_of_lines [[.word (plainWord ['s', 'e', 't']), .word (plainWord ['-', 'u'])],
    [.word (plainWord "[".toList), .word (plainWord "!".toList), .word (plainWord "-x".toList),
      .word previousWord, .word (plainWord "]".toList), .orElse, .word previousWord,
      .word [.arguments]],
    askTokens "new_branch" "git symbolic-ref --short HEAD 2>/dev/null",
    [literal executable, plainWord "report-checkout".toList, literal projectId,
      [.argument 1], [.argument 2], [.variable "new_branch".toList]].map .word ++
        reportTokens notRecorded] rfl
  refine .cons (by decide +kernel) (.cons (by decide +kernel) (.cons (by decide +kernel)
    (.cons ?_ .nil)))
  apply parse_reportLine (begins_literal (List.ne_nil_of_mem hslash))
  exact .cons (any_isOutput_literal _) (.cons (any_isOutput_plainWord _)
    (.cons (any_isOutput_literal _) (.cons rfl (.cons rfl (.cons rfl plain_nil)))))

/-- The value of the variable that was set last. -/
theorem expandText_update (parameters : List (List Char)) (calls : List Invocation) (status : ℕ)
    (name value : List Char) :
    expandText parameters (at' (Function.update env name (some value)) calls status)
      [.variable name] = some value :=
  expandText_variable parameters (Function.update_self ..)

/-- A question to Git, and the lines behind it if there is an answer. -/
theorem runLines_ask (parameters : List (List Char)) (name : List Char) (calls : List Invocation)
    (status : ℕ) (question : List (List Char)) (rest : List (List Command)) :
    ∃ env', runLines oracle parameters (at' env calls status) (askLine name question :: rest) =
      (captured oracle calls (asksGit question)).elim
        ⟨env', false, true, calls ++ [asksGit question], 0, true⟩
        fun value => runLines oracle parameters
          (at' (Function.update env name (some value)) (calls ++ [asksGit question]) 0) rest := by
  obtain ⟨env', hline⟩ := runLine_ask parameters name calls status question
  refine ⟨env', ?_⟩
  cases hvalue : captured oracle calls (asksGit question) with
  | none =>
    rw [hvalue, Option.elim_none] at hline
    rw [Option.elim_none, runLines_exited oracle parameters hline rfl]
  | some value =>
    rw [hvalue, Option.elim_some] at hline
    rw [Option.elim_some, runLines_open oracle parameters hline rfl]

/-- What a hook has done in the end. -/
def Reports (oracle : Oracle) (calls : List Invocation) (message : List Char) (s : State) : Prop :=
  s.calls = calls ∧ Succeeds oracle message calls s.status

/-- The end of a hook, which tells of the values that it has asked for. -/
theorem reports_line {parameters : List (List Char)} {calls : List Invocation} {words : List Word}
    {executable message : List Char} {argv : List (List Char)} (hslash : '/' ∈ executable)
    (hwords : expandWords parameters (at' env calls 0) words = some (executable :: argv)) :
    Reports oracle (reportCalls oracle calls (executable :: argv) message) message
      (runLines oracle parameters (at' env calls 0) [reportLine words message]) := by
  obtain ⟨status, hsucceeds, hline⟩ := runLine_report hslash hwords
  rw [runLines_single, hline]
  exact ⟨rfl, hsucceeds⟩

/-- The Git hooks of a checkout, for every executable and every project ID: the hook that was there
before runs first, with the same arguments; then the daemon is told of the commit and the branch,
or of the two commits and the branch, each as one argument, and of nothing where Git names none;
and only a message that cannot be written makes the hook fail. -/
theorem git_hooks_report {name executable projectId old new : List Char}
    {arguments : List (List Char)} (hslash : '/' ∈ executable)
    (hexecutable : Char.ofNat 0 ∉ executable) (hproject : Char.ofNat 0 ∉ projectId) :
    (∃ s, run oracle (name :: arguments) env (postCommitHook executable projectId) = some s ∧
      Reports oracle (postCommitCalls oracle name arguments executable projectId)
        notScheduled.toList s) ∧
    (∃ s, run oracle (name :: old :: new :: arguments) env
        (postCheckoutHook executable projectId) = some s ∧
      Reports oracle (postCheckoutCalls oracle name (old :: new :: arguments) executable projectId
        old new) notRecorded.toList s) := by
  have hset (parameters : List (List Char)) : runLine oracle parameters (initial env)
      [.simple ⟨[plainWord ['s', 'e', 't'], plainWord ['-', 'u']], []⟩] = at' env [] 0 := rfl
  constructor
  · obtain ⟨status, hprevious⟩ := runLine_previous name arguments
    rw [run_of_lines oracle _ (lex_postCommitHook hexecutable hproject)
      (parse_postCommit hslash), runLines_open oracle _ (hset _) rfl,
      runLines_open oracle _ hprevious rfl]
    refine ⟨_, rfl, ?_⟩
    obtain ⟨env₁, hcommit⟩ := runLines_ask (name :: arguments) "commit".toList
      (previousHook oracle name arguments) status ["rev-parse".toList, "HEAD".toList] _
    rw [hcommit, postCommitCalls, headCommit]
    cases captured oracle (previousHook oracle name arguments)
        (asksGit ["rev-parse".toList, "HEAD".toList]) with
    | none => exact ⟨rfl, Or.inl rfl⟩
    | some commit =>
      obtain ⟨env₂, hbranch⟩ := runLines_ask (name :: arguments) "branch".toList
        (previousHook oracle name arguments ++ [headCommit]) 0
        ["symbolic-ref".toList, "--short".toList, "HEAD".toList] _
      have hcalls : previousHook oracle name arguments ++ [headCommit] ++ [headBranch] =
          previousHook oracle name arguments ++ [headCommit, headBranch] := by
        rw [List.append_assoc, List.singleton_append]
      rw [Option.elim_some, Option.elim_some, ← headCommit, hbranch, ← headBranch]
      cases captured oracle (previousHook oracle name arguments ++ [headCommit]) headBranch with
      | none => exact ⟨hcalls, Or.inl rfl⟩
      | some branch =>
        rw [Option.elim_some, Option.elim_some, hcalls]
        apply reports_line hslash
        have hne : "commit".toList ≠ "branch".toList := by decide +kernel
        have hvalue : Function.update (Function.update env "commit".toList (some commit))
            "branch".toList (some branch) "commit".toList = some commit := by
          rw [Function.update_of_ne hne, Function.update_self]
        exact expandWords_of_texts _ _ (.cons (expandText_literal _ _ _)
          (.cons (expandText_plainWord _ _ _) (.cons (expandText_literal _ _ _)
            (.cons (expandText_variable _ hvalue)
              (.cons (expandText_update _ _ _ _ _) .nil)))))
  · obtain ⟨status, hprevious⟩ := runLine_previous name (old :: new :: arguments)
    rw [run_of_lines oracle _ (lex_postCheckoutHook hexecutable hproject)
      (parse_postCheckout hslash), runLines_open oracle _ (hset _) rfl,
      runLines_open oracle _ hprevious rfl]
    refine ⟨_, rfl, ?_⟩
    obtain ⟨env₁, hbranch⟩ := runLines_ask (name :: old :: new :: arguments) "new_branch".toList
      (previousHook oracle name (old :: new :: arguments)) status
      ["symbolic-ref".toList, "--short".toList, "HEAD".toList] _
    rw [hbranch, postCheckoutCalls, ← headBranch]
    cases captured oracle (previousHook oracle name (old :: new :: arguments)) headBranch with
    | none => exact ⟨rfl, Or.inl rfl⟩
    | some branch =>
      rw [Option.elim_some, Option.elim_some]
      apply reports_line hslash
      have hold (s : State) : expandText (name :: old :: new :: arguments) s [.argument 1] =
          some old := congrArg some (List.append_nil old)
      have hnew (s : State) : expandText (name :: old :: new :: arguments) s [.argument 2] =
          some new := congrArg some (List.append_nil new)
      exact expandWords_of_texts _ _ (.cons (expandText_literal _ _ _)
        (.cons (expandText_plainWord _ _ _) (.cons (expandText_literal _ _ _)
          (.cons (hold _) (.cons (hnew _)
            (.cons (expandText_update _ _ _ _ _) .nil))))))

/-- A checkout in which every command succeeds, and Git answers with one line. -/
def answeringGit : Oracle := fun _ call =>
  (0, if call.argv.head? = some "git".toList then "main\n".toList else [])

theorem git_hooks_report_of_quotes :
    '/' ∈ "/opt/it's here/resync".toList ∧ Char.ofNat 0 ∉ "/opt/it's here/resync".toList ∧
      Char.ofNat 0 ∉ "prj_'$(id)'".toList ∧
      ∃ s, run answeringGit [".git/hooks/post-commit".toList] (fun _ => none)
          (postCommitHook "/opt/it's here/resync".toList "prj_'$(id)'".toList) = some s ∧
        Reports answeringGit (postCommitCalls answeringGit ".git/hooks/post-commit".toList []
          "/opt/it's here/resync".toList "prj_'$(id)'".toList) notScheduled.toList s := by
  have hslash : '/' ∈ "/opt/it's here/resync".toList := by decide
  have hexecutable : Char.ofNat 0 ∉ "/opt/it's here/resync".toList := by decide
  have hproject : Char.ofNat 0 ∉ "prj_'$(id)'".toList := by decide
  have hhooks := @git_hooks_report answeringGit (fun _ => none) ".git/hooks/post-commit".toList
    "/opt/it's here/resync".toList "prj_'$(id)'".toList [] [] [] hslash hexecutable hproject
  exact ⟨hslash, hexecutable, hproject, hhooks.1⟩

end GitHooks

end GeneratedScripts

end Resync
