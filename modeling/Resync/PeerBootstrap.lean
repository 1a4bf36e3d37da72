import Resync.GeneratedScripts

/-! `peer_sync` (`peer.rs`) puts the executable on another machine and enrolls a checkout there: an
upload, and scripts that the machine's shell is given on its standard input. -/
namespace Resync

namespace PeerBootstrap

open Shell GeneratedScripts

section Scripts

/-- `remote_home_path` -/
def remoteHomePath (relative : List Char) : List Char :=
  "\"$HOME\"/".toList ++ shellQuote relative

/-- The first line of every script. -/
def strict : List Char := line ["set".toList, "-eu".toList]

/-- The script of `install_remote_binary` in front of the upload. -/
def directoryScript (directory : List Char) : List (List Char) :=
  [strict, line ["mkdir".toList, "-p".toList, remoteHomePath directory]]

/-- `remote_install_script`, by lines. -/
def remoteInstallScript (remote : List Char) : List (List Char) :=
  [strict,
    line ["chmod".toList, "755".toList, remoteHomePath (remote ++ ".tmp".toList)],
    line ["mv".toList, remoteHomePath (remote ++ ".tmp".toList), remoteHomePath remote],
    line ["mkdir".toList, "-p".toList, remoteHomePath ".local/bin".toList],
    line ["ln".toList, "-sfn".toList, remoteHomePath remote,
      remoteHomePath ".local/bin/resync".toList],
    line [remoteHomePath remote, "upgrade".toList, ">/dev/null".toList]]

/-- `script` of `peer_sync`. -/
def acceptScript (executable : List Char) (arguments : List (List Char)) : List (List Char) :=
  [strict, line ("exec".toList :: executable :: arguments.map shellQuote)]

/-- `remote_arguments` of `peer_sync`. -/
def remoteArguments (service ticket projectId deviceName : List Char)
    (targetPath : Option (List Char)) : List (List Char) :=
  ["peer".toList, "accept".toList, "--provider".toList, service, "--ticket".toList, ticket,
    "--project".toList, projectId, "--device-name".toList, deviceName] ++
    targetPath.elim [] fun path => ["--into".toList, path]

/-- `directory` of `install_remote_binary`, with its version and its fingerprint. -/
def remoteDirectory (version fingerprint : List Char) : List Char :=
  ".local/share/resync/bin/".toList ++ version ++ '-' :: fingerprint

/-- `remote` of `install_remote_binary`. -/
def remotePath (version fingerprint : List Char) : List Char :=
  remoteDirectory version fingerprint ++ "/resync".toList

example : (remoteInstallScript "bin/resync".toList).flatten =
    ("set -eu\nchmod 755 \"$HOME\"/'bin/resync.tmp'\n" ++
      "mv \"$HOME\"/'bin/resync.tmp' \"$HOME\"/'bin/resync'\nmkdir -p \"$HOME\"/'.local/bin'\n" ++
      "ln -sfn \"$HOME\"/'bin/resync' \"$HOME\"/'.local/bin/resync'\n" ++
      "\"$HOME\"/'bin/resync' upgrade >/dev/null\n").toList := by
  decide +kernel

end Scripts

section Peer

/-- What the other machine is asked for. -/
inductive RemoteAction where
  | command (c : Invocation)
  | upload
deriving DecidableEq

/-- The exit status and the output of an action, after others. -/
abbrev RemoteOracle := List RemoteAction → RemoteAction → ℕ × List Char

/-- How far `peer_sync` has come. -/
structure PeerRun where
  done : List RemoteAction
  failed : Bool
deriving DecidableEq

variable (oracle : RemoteOracle) (env : List Char → Option (List Char))

/-- The commands of a script, after what was done before. -/
def scriptOracle (done : List RemoteAction) : Oracle := fun calls c =>
  oracle (done ++ calls.map .command) (.command c)

/-- `run` of `ssh` with `sh -s`, if there was no error before. -/
def PeerRun.script (p : PeerRun) (texts : List (List Char)) : PeerRun :=
  if p.failed then p
  else match run (scriptOracle oracle p.done) ["sh".toList] env texts.flatten with
    | none => ⟨p.done, true⟩
    | some s => ⟨p.done ++ s.calls.map .command, s.status ≠ 0⟩

/-- `run` of `rsync`. -/
def PeerRun.rsync (p : PeerRun) : PeerRun :=
  if p.failed then p else ⟨p.done ++ [.upload], (oracle p.done .upload).1 ≠ 0⟩

/-- `install_remote_binary`, once the platform of the machine is known. -/
def installRemoteBinary (version fingerprint : List Char) : PeerRun :=
  let p := PeerRun.script oracle env ⟨[], false⟩
    (directoryScript (remoteDirectory version fingerprint))
  PeerRun.script oracle env (p.rsync oracle) (remoteInstallScript (remotePath version fingerprint))

/-- `parse_target`, with the host and the path on it. -/
def parseTarget (value : List Char) (explicitPath : Option (List Char)) :
    Option (List Char × Option (List Char)) :=
  if value = [] then none
  else match explicitPath with
    | some path => some (value, some path)
    | none =>
      let host := value.takeWhile (· ≠ ':')
      if "ssh://".toList.isPrefixOf value ∨ ':' ∉ value ∨ host = [] then some (value, none)
      else
        let path := value.drop (host.length + 1)
        some (host, if path = [] then none else some path)

/-- What `peer_sync` is called with, the identity of the checkout, and its join ticket. -/
structure PeerRequest where
  targetValue : List Char
  into : Option (List Char)
  name : Option (List Char)
  noBootstrap : Bool
  service : List Char
  projectId : List Char
  ticket : List Char

/-- The command line of the enrollment. -/
def PeerRequest.arguments (r : PeerRequest) (host : List Char) (targetPath : Option (List Char)) :
    List (List Char) :=
  remoteArguments r.service r.ticket r.projectId (r.name.getD host) targetPath

/-- `&fingerprint[..16]` -/
def binaryFingerprint (sha : Sha256) (binary : List UInt8) : List Char := (sha.hex binary).take 16

/-- `peer_sync`, up to the answer of the enrollment. -/
def peerSync (sha : Sha256) (version : List Char) (binary : List UInt8) (r : PeerRequest) :
    PeerRun :=
  match parseTarget r.targetValue r.into with
  | none => ⟨[], true⟩
  | some (host, targetPath) =>
    if r.noBootstrap then
      PeerRun.script oracle env ⟨[], false⟩
        (acceptScript (shellQuote "resync".toList) (r.arguments host targetPath))
    else
      let fingerprint := binaryFingerprint sha binary
      PeerRun.script oracle env (installRemoteBinary oracle env version fingerprint)
        (acceptScript (remoteHomePath (remotePath version fingerprint))
          (r.arguments host targetPath))

/-- Actions of which each one is taken only if those before it have succeeded. -/
def attempt (done : List RemoteAction) : List RemoteAction → PeerRun
  | [] => ⟨done, false⟩
  | a :: rest =>
    if (oracle done a).1 = 0 then attempt (done ++ [a]) rest else ⟨done ++ [a], true⟩

theorem attempt_append (done actions more : List RemoteAction) :
    attempt oracle done (actions ++ more) =
      if (attempt oracle done actions).failed then attempt oracle done actions
      else attempt oracle (attempt oracle done actions).done more := by
  induction actions generalizing done with
  | nil => rfl
  | cons a actions ih =>
    rw [List.cons_append, attempt, attempt]
    by_cases h : (oracle done a).1 = 0
    · rw [if_pos h, if_pos h, ih]
    · rw [if_neg h, if_neg h]
      rfl

/-- What is done behind some actions, unless one of them has failed. -/
theorem attempt_then (done actions : List RemoteAction) {more : List RemoteAction}
    {f : PeerRun → PeerRun}
    (hf : ∀ done, f ⟨done, false⟩ = attempt oracle done more)
    (hfailed : ∀ p : PeerRun, p.failed = true → f p = p) :
    f (attempt oracle done actions) = attempt oracle done (actions ++ more) := by
  rw [attempt_append]
  split_ifs with h
  · exact hfailed _ h
  · rw [← hf, ← Bool.eq_false_iff.mpr h]

theorem script_failed {p : PeerRun} (h : p.failed = true) (texts : List (List Char)) :
    p.script oracle env texts = p := if_pos h

/-- The actions are taken in order: each one only if those before it have succeeded, and all of
them if there was no failure. -/
structure InOrder (actions : List RemoteAction) (p : PeerRun) : Prop where
  taken : p.done <+: actions
  before : ∀ front a, front ++ [a] <+: p.done → front ++ [a] ≠ p.done → (oracle front a).1 = 0
  finished : p.failed = false ↔
    p.done = actions ∧ ∀ front a, front ++ [a] <+: actions → (oracle front a).1 = 0

variable {oracle}

/-- From the actions that are done on. -/
theorem inOrder_attempt_of_done {done actions : List RemoteAction}
    (hdone : ∀ front a, front ++ [a] <+: done → (oracle front a).1 = 0) :
    InOrder oracle (done ++ actions) (attempt oracle done actions) := by
  induction actions generalizing done with
  | nil =>
    rw [attempt, List.append_nil]
    exact ⟨List.prefix_rfl, fun front a h _ => hdone front a h, fun _ => ⟨rfl, hdone⟩, fun _ => rfl⟩
  | cons a actions ih =>
    have hlast {front : List RemoteAction} {b : RemoteAction} (h : front ++ [b] <+: done ++ [a]) :
        front ++ [b] <+: done ∨ (front = done ∧ b = a) := by
      rcases List.prefix_concat_iff.mp h with heq | hpre
      · have hboth := List.append_inj' heq rfl
        exact Or.inr ⟨hboth.1, List.singleton_inj.mp hboth.2⟩
      · exact Or.inl hpre
    rw [attempt]
    by_cases h : (oracle done a).1 = 0
    · have hmore : ∀ front b, front ++ [b] <+: done ++ [a] → (oracle front b).1 = 0 := by
        intro front b hpre
        rcases hlast hpre with hpre | ⟨rfl, rfl⟩
        · exact hdone front b hpre
        · exact h
      have hall := ih hmore
      rw [List.append_assoc, List.singleton_append] at hall
      rw [if_pos h]
      exact hall
    · have hpre : done ++ [a] <+: done ++ a :: actions :=
        List.prefix_append_right_inj done |>.mpr (List.prefix_append [a] actions)
      rw [if_neg h]
      refine ⟨hpre, ?_, ⟨(fun hfailed => by cases hfailed), ?_⟩⟩
      · intro front b hfront hne
        rcases hlast hfront with hfront | ⟨rfl, rfl⟩
        · exact hdone front b hfront
        · exact absurd rfl hne
      · exact fun hall => absurd (hall.2 done a hpre) h

theorem inOrder_attempt (actions : List RemoteAction) :
    InOrder oracle actions (attempt oracle [] actions) := by
  have hnone : ∀ front a, front ++ [a] <+: [] → (oracle front a).1 = 0 := by
    intro front a h
    have hne : front ++ [a] ≠ [] := List.append_ne_nil_of_right_ne_nil _ (List.cons_ne_nil _ _)
    exact absurd (List.prefix_nil.mp h) hne
  exact inOrder_attempt_of_done hnone

/-- The commands of a script under `set -e` are actions. -/
theorem attempt_runChecked (done : List RemoteAction) (s : State) (hstatus : s.status = 0)
    (calls : List Invocation) :
    attempt oracle (done ++ s.calls.map .command) (calls.map .command) =
      ⟨done ++ (runChecked (scriptOracle oracle done) s calls).calls.map .command,
        (runChecked (scriptOracle oracle done) s calls).status ≠ 0⟩ := by
  induction calls generalizing s with
  | nil => simp only [List.map_nil, attempt, runChecked, hstatus, ne_eq, not_true_eq_false,
      decide_false]
  | cons c calls ih =>
    have hdone : done ++ s.calls.map RemoteAction.command ++ [.command c] =
        done ++ (s.call (scriptOracle oracle done) c).calls.map .command := by
      rw [State.call, List.map_append, List.append_assoc]
      rfl
    rw [List.map_cons, attempt, runChecked, hdone]
    by_cases h : (oracle (done ++ s.calls.map .command) (.command c)).1 = 0
    · have hcall : (s.call (scriptOracle oracle done) c).status = 0 := h
      rw [if_pos h, if_pos hcall]
      exact ih _ hcall
    · have hcall : (s.call (scriptOracle oracle done) c).status ≠ 0 := h
      rw [if_neg h, if_neg hcall]
      simp only [hcall, ne_eq, not_false_eq_true, decide_true]

end Peer

section Lines

variable {relative home : List Char}

def homeWord (relative : List Char) : Word :=
  .variable "HOME".toList :: .bare '/' :: literal relative

theorem ends_remoteHomePath (h : Char.ofNat 0 ∉ relative) :
    Ends (remoteHomePath relative) [] (homeWord relative) := by
  have hhome : scan .initial "\"$HOME\"/".toList =
      some ([], ⟨some [.variable "HOME".toList, .bare '/'], .bare⟩) := by decide +kernel
  exact scan_of_parts hhome (scan_shellQuote _ h)

theorem begins_homeWord (relative : List Char) : Begins (homeWord relative) :=
  ⟨rfl, fun _ htext => by cases htext⟩

theorem any_isOutput_homeWord (relative : List Char) :
    (homeWord relative).any Part.isOutput = false :=
  any_isOutput_literal relative

/-- A path in the home directory of the other machine. -/
def inHome (home relative : List Char) : List Char := home ++ '/' :: relative

theorem expandText_homeWord (parameters : List (List Char)) {s : State}
    (h : s.env "HOME".toList = some home) :
    expandText parameters s (homeWord relative) = some (inHome home relative) := by
  have hslash : expandText parameters s (.bare '/' :: literal relative) =
      some ('/' :: relative) :=
    expandText_append parameters s (expandText_plainWord parameters s ['/'])
      (expandText_literal parameters s relative)
  exact expandText_append parameters s (expandText_variable parameters h) hslash

/-- What the shell is in behind `set -eu`. -/
def strictState (env : List Char → Option (List Char)) : State := ⟨env, true, true, [], 0, false⟩

def setFlags : List Command := [.simple ⟨[plainWord "set".toList, plainWord "-eu".toList], []⟩]

theorem isLine_strict : IsLine strict setFlags := by
  have hset : Ends "set".toList [] (plainWord "set".toList) :=
    ends_plainWord (by decide) (List.all_eq_true.mp (by decide))
  have hflags : Ends "-eu".toList [] (plainWord "-eu".toList) :=
    ends_plainWord (by decide) (List.all_eq_true.mp (by decide))
  exact isLine_words (.cons hset (.cons hflags .nil)) (begins_plainWord (by decide) (by decide))
    (.cons (any_isOutput_plainWord _) (.cons (any_isOutput_plainWord _) plain_nil))

variable {oracle : RemoteOracle} {env : List Char → Option (List Char)}

/-- A script is what comes behind its first line. -/
theorem script_strict (done : List RemoteAction) {texts : List (List Char)}
    {commands : List (List Command)} (h : List.Forall₂ IsLine texts commands) {s : State}
    (hs : runLines (scriptOracle oracle done) ["sh".toList] (strictState env) commands = s) :
    PeerRun.script oracle env ⟨done, false⟩ (strict :: texts) =
      ⟨done ++ s.calls.map .command, s.status ≠ 0⟩ := by
  have hrun := run_of_texts (scriptOracle oracle done) ["sh".toList] env (.cons isLine_strict h)
  have hset : runLine (scriptOracle oracle done) ["sh".toList] (initial env) setFlags =
      strictState env := rfl
  rw [runLines_open _ _ hset rfl, hs] at hrun
  simp only [PeerRun.script, Bool.false_eq_true, ↓reduceIte, hrun]

/-- A script of simple commands. -/
theorem script_commands (done : List RemoteAction) {texts : List (List Char)}
    {commands : List Simple} {calls : List Invocation}
    (htexts : List.Forall₂ (fun text c => IsLine text [.simple c]) texts commands)
    (hcalls : List.Forall₂ (fun c call => expand ["sh".toList] (strictState env) c = some call ∧
      ∃ program arguments, call.argv = program :: arguments ∧ program ∉ builtins) commands calls) :
    PeerRun.script oracle env ⟨done, false⟩ (strict :: texts) =
      attempt oracle done (calls.map .command) := by
  have hlines : List.Forall₂ IsLine texts (commands.map fun c => [.simple c]) :=
    List.forall₂_map_right_iff.mpr htexts
  have hchecked := runLines_checked (scriptOracle oracle done) ["sh".toList]
    (s := strictState env) rfl rfl hcalls
  have hattempt := @attempt_runChecked oracle done (strictState env) rfl calls
  have hnil : done ++ (strictState env).calls.map RemoteAction.command = done :=
    List.append_nil done
  rw [hnil] at hattempt
  rw [script_strict done hlines hchecked, hattempt]

end Lines

section Bootstrap

variable {oracle : RemoteOracle} {env : List Char → Option (List Char)} {home : List Char}

/-- What is installed on the other machine, in order. -/
def bootstrapActions (home version fingerprint : List Char) : List RemoteAction :=
  let remote := remotePath version fingerprint
  [.command ⟨["mkdir".toList, "-p".toList, inHome home (remoteDirectory version fingerprint)], []⟩,
    .upload,
    .command ⟨["chmod".toList, "755".toList, inHome home (remote ++ ".tmp".toList)], []⟩,
    .command ⟨["mv".toList, inHome home (remote ++ ".tmp".toList), inHome home remote], []⟩,
    .command ⟨["mkdir".toList, "-p".toList, inHome home ".local/bin".toList], []⟩,
    .command ⟨["ln".toList, "-sfn".toList, inHome home remote,
      inHome home ".local/bin/resync".toList], []⟩,
    .command ⟨[inHome home remote, "upgrade".toList], [(1, .file "/dev/null".toList)]⟩]

/-- The enrollment of the other machine. -/
def acceptAction (executable : List Char) (arguments : List (List Char)) : RemoteAction :=
  .command ⟨executable :: arguments, []⟩

/-- A word of a script, and what becomes of it. -/
structure Item (env : List Char → Option (List Char)) where
  text : List Char
  word : Word
  value : List Char
  ends : Ends text [] word
  plain : word.any Part.isOutput = false
  expands : expandText ["sh".toList] (strictState env) word = some value

def plainItem (text : List Char) (hne : text ≠ []) (h : text.all plain = true) : Item env :=
  ⟨text, plainWord text, text, ends_plainWord hne (List.all_eq_true.mp h),
    any_isOutput_plainWord text, expandText_plainWord _ _ text⟩

def homeItem (henv : env "HOME".toList = some home) (relative : List Char)
    (h : Char.ofNat 0 ∉ relative) : Item env :=
  ⟨remoteHomePath relative, homeWord relative, inHome home relative, ends_remoteHomePath h,
    any_isOutput_homeWord relative, expandText_homeWord _ henv⟩

def quotedItem (value : List Char) (h : Char.ofNat 0 ∉ value) : Item env :=
  ⟨shellQuote value, literal value, value, scan_word h, any_isOutput_literal value,
    expandText_literal _ _ value⟩

theorem ends_items (items : List (Item env)) :
    List.Forall₂ (fun text w => Ends text [] w) (items.map Item.text) (items.map Item.word) := by
  rw [List.forall₂_map_left_iff, List.forall₂_map_right_iff, List.forall₂_same]
  exact fun item _ => item.ends

theorem plain_items (items : List (Item env)) : Plain (items.map Item.word) := by
  intro w hw
  obtain ⟨item, -, rfl⟩ := List.mem_map.mp hw
  exact item.plain

theorem isLine_items (first : Item env) (items : List (Item env)) (h : Begins first.word) :
    IsLine (line ((first :: items).map Item.text))
      [.simple ⟨(first :: items).map Item.word, []⟩] :=
  isLine_words (ends_items (first :: items)) h (plain_items (first :: items))

theorem expandWords_items (items : List (Item env)) :
    expandWords ["sh".toList] (strictState env) (items.map Item.word) =
      some (items.map Item.value) := by
  apply expandWords_of_texts
  rw [List.forall₂_map_left_iff, List.forall₂_map_right_iff, List.forall₂_same]
  exact fun item _ => item.expands

theorem expand_items (items : List (Item env)) :
    expand ["sh".toList] (strictState env) ⟨items.map Item.word, []⟩ =
      some ⟨items.map Item.value, []⟩ :=
  expand_words _ (expandWords_items items)

/-- A command whose output goes to a file. -/
theorem isLine_redirect (first : Item env) (items : List (Item env)) (h : Begins first.word)
    {text path : List Char} (htext : Ends text [.redirect 1] (plainWord path)) :
    IsLine (line ((first :: items).map Item.text ++ [text]))
      [.simple ⟨(first :: items).map Item.word, [(1, .file (plainWord path))]⟩] := by
  have hfile : parseTokens [.redirect 1, .word (plainWord path)] =
      some ⟨[], [(1, .file (plainWord path))]⟩ := by
    rw [parseTokens, any_isOutput_plainWord, if_neg Bool.false_ne_true]
    rfl
  have hrest : List.Forall₂ (fun text item => Ends text item.1 item.2)
      (items.map Item.text ++ [text])
      ((items.map fun item => (([], item.word) : List Token × Word)) ++
        [([.redirect 1], plainWord path)]) := by
    refine List.rel_append ?_ (.cons htext .nil)
    rw [List.forall₂_map_left_iff, List.forall₂_map_right_iff, List.forall₂_same]
    exact fun item _ => item.ends
  have hscan := @scan_line _ _ ([], first.word) _ first.ends hrest
  have htokens : (([], first.word) :: ((items.map fun item => (([], item.word) :
      List Token × Word)) ++ [([.redirect 1], plainWord path)])).flatMap itemTokens =
        ((first :: items).map Item.word).map .word ++ [.redirect 1, .word (plainWord path)] := by
    have hwords : (items.map fun item => (([], item.word) : List Token × Word)).flatMap
        itemTokens = (items.map Item.word).map .word := by
      rw [List.flatMap_map, List.map_map, List.map_eq_flatMap]
      rfl
    rw [List.flatMap_cons, List.flatMap_append, hwords]
    rfl
  have hcommand := parseCommand_words h (plain_items (first :: items)) hfile
  have hkind : ∀ t ∈ ((first :: items).map Item.word).map Token.word ++
      [.redirect 1, .word (plainWord path)], t.isNewline = false ∧ t.isOrElse = false := by
    intro t ht
    rcases List.mem_append.mp ht with ht | ht
    · obtain ⟨w, -, rfl⟩ := List.mem_map.mp ht
      exact ⟨rfl, rfl⟩
    · rcases List.mem_cons.mp ht with rfl | ht
      · exact ⟨rfl, rfl⟩
      · rw [List.mem_singleton.mp ht]
        exact ⟨rfl, rfl⟩
  rw [htokens] at hscan
  exact ⟨_, hscan, List.cons_ne_nil _ _, fun t ht => (hkind t ht).1,
    parseLine_single (fun t ht => (hkind t ht).2) hcommand⟩

theorem expand_redirect (items : List (Item env)) (path : List Char) :
    expand ["sh".toList] (strictState env)
        ⟨items.map Item.word, [(1, .file (plainWord path))]⟩ =
      some ⟨items.map Item.value, [(1, .file path)]⟩ :=
  expand_file _ (expandWords_items items) 1 path

section

variable {version fingerprint : List Char}

theorem nul_not_mem_remoteDirectory (hversion : Char.ofNat 0 ∉ version)
    (hfingerprint : Char.ofNat 0 ∉ fingerprint) :
    Char.ofNat 0 ∉ remoteDirectory version fingerprint := by
  have hstart : Char.ofNat 0 ∉ ".local/share/resync/bin/".toList := by decide +kernel
  have hend : Char.ofNat 0 ∉ '-' :: fingerprint :=
    List.not_mem_cons_of_ne_of_not_mem (by decide) hfingerprint
  exact List.not_mem_append (List.not_mem_append hstart hversion) hend

theorem nul_not_mem_remotePath (hversion : Char.ofNat 0 ∉ version)
    (hfingerprint : Char.ofNat 0 ∉ fingerprint) :
    Char.ofNat 0 ∉ remotePath version fingerprint := by
  have hname : Char.ofNat 0 ∉ "/resync".toList := by decide
  exact List.not_mem_append (nul_not_mem_remoteDirectory hversion hfingerprint) hname

end

/-- The scripts around the upload. -/
theorem script_directory (done : List RemoteAction) (henv : env "HOME".toList = some home)
    {directory : List Char} (h : Char.ofNat 0 ∉ directory) :
    PeerRun.script oracle env ⟨done, false⟩ (directoryScript directory) =
      attempt oracle done
        [.command ⟨["mkdir".toList, "-p".toList, inHome home directory], []⟩] := by
  let mkdir : Item env := plainItem "mkdir".toList (by decide) (by decide)
  let items : List (Item env) :=
    [plainItem "-p".toList (by decide) (by decide), homeItem henv directory h]
  have hbegins : Begins mkdir.word := begins_plainWord (by decide) (by decide)
  have hbuiltin : "mkdir".toList ∉ builtins := by decide
  exact script_commands done (.cons (isLine_items mkdir items hbegins) .nil)
    (.cons ⟨expand_items (mkdir :: items), _, _, rfl, hbuiltin⟩ .nil)

theorem script_install (done : List RemoteAction) (henv : env "HOME".toList = some home)
    {version fingerprint : List Char} (h : Char.ofNat 0 ∉ remotePath version fingerprint) :
    PeerRun.script oracle env ⟨done, false⟩
        (remoteInstallScript (remotePath version fingerprint)) =
      attempt oracle done ((bootstrapActions home version fingerprint).drop 2) := by
  have htemporary : Char.ofNat 0 ∉ remotePath version fingerprint ++ ".tmp".toList := by
    have hend : Char.ofNat 0 ∉ ".tmp".toList := by decide
    exact List.not_mem_append h hend
  have hbin : Char.ofNat 0 ∉ ".local/bin".toList := by decide
  have hlauncher : Char.ofNat 0 ∉ ".local/bin/resync".toList := by decide +kernel
  let remote : Item env := homeItem henv _ h
  let temporary : Item env := homeItem henv _ htemporary
  let bin : Item env := homeItem henv _ hbin
  let launcher : Item env := homeItem henv _ hlauncher
  let chmod : Item env := plainItem "chmod".toList (by decide) (by decide)
  let mv : Item env := plainItem "mv".toList (by decide) (by decide)
  let mkdir : Item env := plainItem "mkdir".toList (by decide) (by decide)
  let ln : Item env := plainItem "ln".toList (by decide) (by decide)
  let mode : Item env := plainItem "755".toList (by decide) (by decide)
  let parents : Item env := plainItem "-p".toList (by decide) (by decide)
  let flags : Item env := plainItem "-sfn".toList (by decide) (by decide)
  let upgrade : Item env := plainItem "upgrade".toList (by decide) (by decide)
  have hnull : Ends ">/dev/null".toList [.redirect 1] (plainWord "/dev/null".toList) := by
    unfold Ends
    decide +kernel
  have hchmod := isLine_items chmod [mode, temporary] (begins_plainWord (by decide) (by decide))
  have hmv := isLine_items mv [temporary, remote] (begins_plainWord (by decide) (by decide))
  have hmkdir := isLine_items mkdir [parents, bin] (begins_plainWord (by decide) (by decide))
  have hln := isLine_items ln [flags, remote, launcher]
    (begins_plainWord (by decide) (by decide))
  have hupgrade := isLine_redirect remote [upgrade] (begins_homeWord _) hnull
  have hbuiltins : "chmod".toList ∉ builtins ∧ "mv".toList ∉ builtins ∧
      "mkdir".toList ∉ builtins ∧ "ln".toList ∉ builtins := by decide
  have hslash : '/' ∈ inHome home (remotePath version fingerprint) :=
    List.mem_append_right _ List.mem_cons_self
  exact script_commands done
    (.cons hchmod (.cons hmv (.cons hmkdir (.cons hln (.cons hupgrade .nil)))))
    (.cons ⟨expand_items [chmod, mode, temporary], _, _, rfl, hbuiltins.1⟩
      (.cons ⟨expand_items [mv, temporary, remote], _, _, rfl, hbuiltins.2.1⟩
        (.cons ⟨expand_items [mkdir, parents, bin], _, _, rfl, hbuiltins.2.2.1⟩
          (.cons ⟨expand_items [ln, flags, remote, launcher], _, _, rfl, hbuiltins.2.2.2⟩
            (.cons ⟨expand_redirect [remote, upgrade] _, _, _, rfl,
              not_builtin_of_mem hslash (by decide)⟩ .nil)))))

/-- The last script is the enrollment. -/
theorem script_accept (done : List RemoteAction) (executable : Item env)
    {arguments : List (List Char)} (h : ∀ a ∈ arguments, Char.ofNat 0 ∉ a) :
    PeerRun.script oracle env ⟨done, false⟩ (acceptScript executable.text arguments) =
      attempt oracle done [acceptAction executable.value arguments] := by
  let exec : Item env := plainItem "exec".toList (by decide) (by decide)
  let quoted : List (Item env) := arguments.attach.map fun a => quotedItem a.1 (h a.1 a.2)
  have htext : quoted.map Item.text = arguments.map shellQuote := by
    rw [List.map_map]
    exact List.attach_map_val (f := shellQuote)
  have hvalue : quoted.map Item.value = arguments := by
    rw [List.map_map]
    exact List.attach_map_subtype_val arguments
  have hline := isLine_items exec (executable :: quoted)
    (begins_plainWord (by decide) (by decide))
  have hexpand := expand_items (exec :: executable :: quoted)
  rw [List.map_cons, List.map_cons, htext] at hline
  rw [List.map_cons, List.map_cons, List.map_cons, List.map_cons, hvalue] at hexpand
  have hexec (o : Oracle) : ∃ s, runLines o ["sh".toList] (strictState env)
      [[.simple ⟨exec.word :: executable.word :: quoted.map Item.word, []⟩]] = s ∧
        s.calls = [⟨executable.value :: arguments, []⟩] ∧
        s.status = (o [] ⟨executable.value :: arguments, []⟩).1 := by
    refine ⟨_, rfl, ?_⟩
    rw [runLines_single, runLine, runList_single, runCommand_simple o _ hexpand]
    split_ifs
    · exact ⟨rfl, rfl⟩
    · exact ⟨rfl, rfl⟩
  obtain ⟨s, hs, hcalls, hstatus⟩ := hexec (scriptOracle oracle done)
  have hscript := script_strict done (.cons hline .nil) hs
  have hfirst : scriptOracle oracle done [] ⟨executable.value :: arguments, []⟩ =
      oracle done (acceptAction executable.value arguments) :=
    congrArg (fun before => oracle before _) (List.append_nil done)
  rw [hfirst] at hstatus
  refine hscript.trans ?_
  rw [hcalls, hstatus, attempt]
  by_cases h : (oracle done (acceptAction executable.value arguments)).1 = 0
  · simp only [h, ne_eq, not_true_eq_false, decide_false, ↓reduceIte]
    rfl
  · simp only [h, ne_eq, not_false_eq_true, decide_true, ↓reduceIte]
    rfl

theorem rsync_eq (done : List RemoteAction) :
    PeerRun.rsync oracle ⟨done, false⟩ = attempt oracle done [.upload] := by
  rw [PeerRun.rsync, if_neg Bool.false_ne_true, attempt]
  by_cases h : (oracle done .upload).1 = 0
  · simp only [h, ne_eq, not_true_eq_false, decide_false, ↓reduceIte]
    rfl
  · simp only [h, ne_eq, not_false_eq_true, decide_true, ↓reduceIte]

section

variable {version fingerprint : List Char}

theorem installRemoteBinary_eq (henv : env "HOME".toList = some home)
    (hversion : Char.ofNat 0 ∉ version) (hfingerprint : Char.ofNat 0 ∉ fingerprint) :
    installRemoteBinary oracle env version fingerprint =
      attempt oracle [] (bootstrapActions home version fingerprint) := by
  have hpath := nul_not_mem_remotePath hversion hfingerprint
  have hdirectory (done : List RemoteAction) :=
    @script_directory oracle env home done henv _
      (nul_not_mem_remoteDirectory hversion hfingerprint)
  have hupload (actions : List RemoteAction) :=
    attempt_then oracle [] actions (f := PeerRun.rsync oracle) rsync_eq fun p h => if_pos h
  have hinstall (actions : List RemoteAction) := attempt_then oracle [] actions
    (f := fun p => p.script oracle env (remoteInstallScript (remotePath version fingerprint)))
    (fun done => script_install done henv hpath) fun p h => script_failed oracle env h _
  rw [installRemoteBinary, hdirectory, hupload, hinstall]
  rfl

/-- Without a home directory there is no path for the executable. -/
theorem installRemoteBinary_homeless (henv : env "HOME".toList = none)
    (hversion : Char.ofNat 0 ∉ version) (hfingerprint : Char.ofNat 0 ∉ fingerprint) :
    installRemoteBinary oracle env version fingerprint = ⟨[], true⟩ := by
  let mkdir : Item env := plainItem "mkdir".toList (by decide) (by decide)
  let parents : Item env := plainItem "-p".toList (by decide) (by decide)
  have hends := ends_remoteHomePath (nul_not_mem_remoteDirectory hversion hfingerprint)
  have hline : IsLine (line ["mkdir".toList, "-p".toList,
      remoteHomePath (remoteDirectory version fingerprint)])
      [.simple ⟨[mkdir.word, parents.word, homeWord (remoteDirectory version fingerprint)], []⟩] :=
    isLine_words (.cons mkdir.ends (.cons parents.ends (.cons hends .nil)))
      (begins_plainWord (by decide) (by decide))
      (.cons mkdir.plain (.cons parents.plain (.cons (any_isOutput_homeWord _) plain_nil)))
  have hunset := expandText_unset ["sh".toList] (s := strictState env) rfl henv
    (.bare '/' :: literal (remoteDirectory version fingerprint))
  have hword : expandWord ["sh".toList] (strictState env)
      (homeWord (remoteDirectory version fingerprint)) = none := by
    have hne : homeWord (remoteDirectory version fingerprint) ≠ [.arguments] := by
      intro h
      cases h
    rw [expandWord, if_neg hne, homeWord, hunset, Option.map_none]
  have hwords : expandWords ["sh".toList] (strictState env)
      [mkdir.word, parents.word, homeWord (remoteDirectory version fingerprint)] = none :=
    expandWords_none _ _ (List.mem_cons_of_mem _ (List.mem_cons_of_mem _ List.mem_cons_self)) hword
  have hexpand : expand ["sh".toList] (strictState env)
      ⟨[mkdir.word, parents.word, homeWord (remoteDirectory version fingerprint)], []⟩ = none := by
    rw [expand, hwords, Option.bind_none]
  have hrun : runLines (scriptOracle oracle []) ["sh".toList] (strictState env)
      [[.simple ⟨[mkdir.word, parents.word, homeWord (remoteDirectory version fingerprint)], []⟩]] =
        ⟨env, true, true, [], 2, true⟩ := by
    rw [runLines_single, runLine, runList_single, runCommand, runSimple, hexpand]
    rfl
  have hscript : PeerRun.script oracle env ⟨[], false⟩
      (directoryScript (remoteDirectory version fingerprint)) = ⟨[], true⟩ :=
    script_strict [] (.cons hline .nil) hrun
  rw [installRemoteBinary, hscript]
  rfl

end

theorem nul_not_mem_binaryFingerprint (sha : Sha256) (binary : List UInt8) :
    Char.ofNat 0 ∉ binaryFingerprint sha binary :=
  fun h => not_mem_hex sha binary (by decide) (List.mem_of_mem_take h)

/-- `peer_sync` on the other machine, whatever the paths, the names and the ticket are made of: the
commands and the upload come in one order, each of them only if those before it have succeeded; the
enrollment comes last, from the executable that was uploaded, with each of its values as one
argument. Without a home directory nothing is done there. -/
theorem peer_is_enrolled_last (sha : Sha256) {version : List Char} {binary : List UInt8}
    {r : PeerRequest} {host : List Char} {targetPath : Option (List Char)}
    (htarget : parseTarget r.targetValue r.into = some (host, targetPath))
    (hversion : Char.ofNat 0 ∉ version)
    (harguments : ∀ a ∈ r.arguments host targetPath, Char.ofNat 0 ∉ a) :
    let fingerprint := binaryFingerprint sha binary
    let p := peerSync oracle env sha version binary r
    (r.noBootstrap = true →
      InOrder oracle [acceptAction "resync".toList (r.arguments host targetPath)] p) ∧
    (r.noBootstrap = false → (∀ home, env "HOME".toList = some home →
      InOrder oracle (bootstrapActions home version fingerprint ++
        [acceptAction (inHome home (remotePath version fingerprint))
          (r.arguments host targetPath)]) p) ∧
      (env "HOME".toList = none → p = ⟨[], true⟩)) := by
  intro fingerprint p
  have hfingerprint : Char.ofNat 0 ∉ fingerprint := nul_not_mem_binaryFingerprint sha binary
  have hpath := nul_not_mem_remotePath hversion hfingerprint
  have hp : p = if r.noBootstrap then
      PeerRun.script oracle env ⟨[], false⟩
        (acceptScript (shellQuote "resync".toList) (r.arguments host targetPath))
      else PeerRun.script oracle env (installRemoteBinary oracle env version fingerprint)
        (acceptScript (remoteHomePath (remotePath version fingerprint))
          (r.arguments host targetPath)) := by
    simp only [p, fingerprint, peerSync, htarget]
  constructor
  · intro hno
    have haccept := @script_accept oracle env []
      (quotedItem "resync".toList (by decide)) _ harguments
    rw [hp, if_pos hno]
    exact haccept ▸ inOrder_attempt _
  · intro hno
    rw [hp, hno, if_neg Bool.false_ne_true]
    constructor
    · intro home henv
      have haccept (done : List RemoteAction) :=
        @script_accept oracle env done (homeItem henv _ hpath) _ harguments
      have hall := attempt_then oracle [] (bootstrapActions home version fingerprint)
        (f := fun p => p.script oracle env (acceptScript
          (remoteHomePath (remotePath version fingerprint)) (r.arguments host targetPath)))
        haccept fun p h => script_failed oracle env h _
      rw [installRemoteBinary_eq henv hversion hfingerprint]
      exact hall ▸ inOrder_attempt _
    · intro henv
      rw [installRemoteBinary_homeless henv hversion hfingerprint]
      exact script_failed oracle env rfl _

def samplePeer : PeerRequest where
  targetValue := "box:it's here".toList
  into := none
  name := none
  noBootstrap := false
  service := "https://sync.example".toList
  projectId := "prj_'$(id)'".toList
  ticket := "tkt\n`date`".toList

theorem peer_is_enrolled_last_of_quotes :
    parseTarget samplePeer.targetValue samplePeer.into =
        some ("box".toList, some "it's here".toList) ∧
      InOrder (fun _ _ => (0, []))
        (bootstrapActions "/home/o'neil".toList "0.4.0".toList (binaryFingerprint sampleSha []) ++
          [acceptAction (inHome "/home/o'neil".toList
              (remotePath "0.4.0".toList (binaryFingerprint sampleSha [])))
            (samplePeer.arguments "box".toList (some "it's here".toList))])
        (peerSync (fun _ _ => (0, [])) (fun _ => some "/home/o'neil".toList) sampleSha
          "0.4.0".toList [] samplePeer) := by
  have htarget : parseTarget samplePeer.targetValue samplePeer.into =
      some ("box".toList, some "it's here".toList) := by decide +kernel
  have hversion : Char.ofNat 0 ∉ "0.4.0".toList := by decide
  have harguments : ∀ a ∈ samplePeer.arguments "box".toList (some "it's here".toList),
      Char.ofNat 0 ∉ a := by decide +kernel
  have hall := @peer_is_enrolled_last (fun _ _ => (0, []))
    (fun _ => some "/home/o'neil".toList) sampleSha _ [] _ _ _ htarget hversion harguments
  exact ⟨htarget, (hall.2 rfl).1 _ rfl⟩

end Bootstrap

end PeerBootstrap

end Resync
