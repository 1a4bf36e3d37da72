import Resync.LeaseGate
import Resync.Lib.Runs
import Resync.Lib.Utf8

/-! The hooks that an agent runs before and after each tool call (`cli.rs`). The lease
that `PreToolUse` is granted goes through a file to `PostToolUse`, another process, and
the name of the file is made of the IDs of the session, the project and the tool use.
The file system tells all names apart, up to a length. -/
namespace Resync

/-- `tool_name`, and the `command` of `tool_input`. -/
structure ToolInput where
  toolName : Option String
  command : Option String
deriving DecidableEq

namespace ShellCommand

/-- The variables of `shell_command_segments`. -/
structure Scan where
  segments : List (List String)
  segment : List String
  word : List Char
  quote : Option Char
  escaped : Bool

def Scan.push (s : Scan) (c : Char) : Scan := { s with word := s.word ++ [c] }

def Scan.flushWord (s : Scan) : Scan :=
  if s.word.isEmpty then s
  else { s with segment := s.segment ++ [String.ofList s.word], word := [] }

def Scan.flushSegment (s : Scan) : Scan :=
  if s.segment.isEmpty then s
  else { s with segments := s.segments ++ [s.segment], segment := [] }

/-- One turn of the loop over the characters. -/
def Scan.next (s : Scan) (c : Char) : Scan :=
  if s.escaped then { s.push c with escaped := false }
  else match s.quote with
    | some q =>
      if c == q then { s with quote := none }
      else if q == '"' && c == '\\' then { s with escaped := true }
      else s.push c
    | none =>
      if c == '\\' then { s with escaped := true }
      else if c == '\'' || c == '"' then { s with quote := some c }
      else if Utf8.isWhitespace c then s.flushWord
      else if c ∈ [';', '|', '&', '(', ')'] then s.flushWord.flushSegment
      else s.push c

/-- `shell_command_segments`. -/
def segments (command : String) : List (List String) :=
  let s := command.toList.foldl Scan.next ⟨[], [], [], none, false⟩
  (if s.escaped then s.push '\\' else s).flushWord.flushSegment.segments

/-- `Path::file_name` with `to_str`. -/
def fileName (path : String) : Option String :=
  match ((path.splitOn "/").filter fun part => part != "" && part != ".").getLast? with
  | some ".." => none
  | name => name

end ShellCommand

/-- `is_project_sync_command`. -/
def isProjectSyncCommand (input : ToolInput) : Bool :=
  match input.toolName, input.command with
  | some "Bash", some command =>
    (ShellCommand.segments command).any fun words =>
      3 ≤ words.length && words.head?.bind ShellCommand.fileName == some "resync" &&
        (words.drop 1).take 2 == ["project", "sync"]
  | _, _ => false

/-- A tool call of an agent. Its two events carry the same IDs; an ID that is absent or
not a string is `none`. -/
structure ToolCall where
  sessionId : Option String
  toolUseId : Option String
  pre : ToolInput
  post : ToolInput
deriving DecidableEq

/-- A tool call in one of the projects that it is coordinated with. -/
structure ToolUse where
  call : ToolCall
  projectId : String
deriving DecidableEq

def safeHookPart (value : Option String) : String :=
  String.ofList (((value.getD "unknown").toList.map fun c =>
    if c.isAlphanum || c == '.' || c == '_' || c == '-' then c else '_').take 160)

namespace ToolUse

def triple (u : ToolUse) : Option String × String × Option String :=
  (u.call.sessionId, u.projectId, u.call.toolUseId)

/-- What the daemon indexes the lease by. -/
def metadata (u : ToolUse) : LeaseMetadata := ⟨u.call.sessionId, u.call.toolUseId⟩

/-- `directory` of `codex_hook_for_input`, from the state root. -/
def directory (u : ToolUse) : List String :=
  let part := safeHookPart u.call.sessionId
  if part = "" ∨ part = "." then ["codex-leases"]
  else if part = ".." then []
  else ["codex-leases", part]

def leasePath (u : ToolUse) : List String :=
  u.directory ++
    [safeHookPart (some u.projectId) ++ "-" ++ safeHookPart u.call.toolUseId ++ ".json"]

/-- The file that `write_json` renames to the lease file: a name with another extension. -/
def temporaryName (u : ToolUse) (pid : ℕ) : String :=
  safeHookPart (some u.projectId) ++ "-" ++ safeHookPart u.call.toolUseId ++
    "." ++ toString pid ++ ".tmp"

def temporaryPath (u : ToolUse) (pid : ℕ) : List String := u.directory ++ [u.temporaryName pid]

def legacyLeasePath (u : ToolUse) : List String :=
  u.directory ++ [safeHookPart u.call.toolUseId ++ ".json"]

def reconciliationMarker (u : ToolUse) : List String :=
  u.directory ++ ["reconciliation-" ++ safeHookPart (some u.projectId) ++ ".json"]

/-- Its `PreToolUse` asks for a lease. -/
def acquires (u : ToolUse) : Bool := !isProjectSyncCommand u.call.pre

/-- Its `PostToolUse` looks for the lease. -/
def looks (u : ToolUse) : Bool := !isProjectSyncCommand u.call.post

end ToolUse

/-- `NAME_MAX` of the file system, in bytes; the names of the hooks are ASCII. -/
def nameMax : ℕ := 255

/-- The largest process ID. -/
def pidMax : ℕ := 4194304

/-- What is read of a file in the directory: `leaseId`, which a marker has not. -/
inductive HookFile where
  | lease (leaseId : String)
  | marker
deriving DecidableEq

inductive ToolEvent where
  | preToolUse | postToolUse
deriving DecidableEq

/-- Where the two hooks of a tool use stand. -/
inductive HookPlace where
  | untouched
  | preStarted
  | answered (lease : Option String)
  | preMessages (active : Bool)
  /-- `PreToolUse` has ended. -/
  | between
  | postStarted
  | found (path : List String)
  | opened (path : List String) (lease : String)
  | released (path : List String)
  | postMessages (active : Bool)
  | ended
deriving DecidableEq

namespace HookPlace

/-- The event of the tool use has not happened, and may happen now. -/
def awaits : ToolEvent → HookPlace → Bool
  | .preToolUse, .untouched => true
  | .postToolUse, .untouched | .postToolUse, .between => true
  | _, _ => false

/-- Where a hook that fails ends. -/
def afterFailure : HookPlace → Option HookPlace
  | .preStarted | .answered _ | .preMessages _ => some .between
  | .postStarted | .found _ | .opened _ _ | .released _ | .postMessages _ => some .ended
  | .untouched | .between | .ended => none

/-- No lease will be asked for from here on. -/
def asked : HookPlace → Bool
  | .untouched | .preStarted => false
  | _ => true

end HookPlace

def ToolEvent.start : ToolEvent → HookPlace
  | .preToolUse => .preStarted
  | .postToolUse => .postStarted

/-- What else happens to a gate: reconciliations, and leases that expire. -/
inductive GateOperation where
  | drawTicket
  | admitExclusive (ticket : UInt64)
  | endExclusive
  | expire (id : String)

def GateState.perform (s : GateState) : GateOperation → Option GateState
  | .drawTicket => some s.drawTicket
  | .admitExclusive ticket => s.admitExclusive ticket
  | .endExclusive => some s.endExclusive
  | .expire id => some (s.release id).2

/-- How the daemon answers `acquireAccess`. -/
inductive AcquireAnswer where
  /-- With a lease; the answer may be lost, or the request fail after the grant. -/
  | lease (answered : Bool)
  /-- In reconciliation mode there is no lease. -/
  | reconciling
  | error

/-- The gates of the daemon, the files of the hooks and the directories that they have
created, and for each running hook the tool uses that it still has to go through. `issued`
are the lease IDs that were drawn, `granted` the leases that the hooks were answered with,
`released` those that they have released, and `failed` are the tool uses with a hook that has
failed. -/
structure HookWorld where
  gates : String → GateState
  issued : List String
  files : List String → Option HookFile
  directories : List (List String)
  processes : ℕ → List ToolUse
  places : ToolUse → HookPlace
  granted : ToolUse → Option String
  released : ToolUse → List String
  failed : List ToolUse

inductive HookEvent where
  /-- A process starts: for one project (`codex_hook`), or for those of a workspace
  (`codex_workspace_hook`). -/
  | start (pid : ℕ) (event : ToolEvent) (call : ToolCall) (projects : List String)
  | acquire (pid : ℕ) (fresh : String) (answer : AcquireAnswer)
  /-- `reconciliation_mode`, or an error. -/
  | accessState (pid : ℕ) (answer : Option Bool)
  /-- The directory is created, and the lease written. -/
  | write (pid : ℕ)
  | messages (pid : ℕ)
  | look (pid : ℕ)
  | read (pid : ℕ)
  | release (pid : ℕ)
  | remove (pid : ℕ)
  /-- The next operation of the hook fails, though nothing is in its way. -/
  | fail (pid : ℕ)
  | gate (projectId : String) (operation : GateOperation)
  /-- The daemon starts anew, with no lease. -/
  | restart

namespace HookWorld

def initial : HookWorld where
  gates _ := .initial
  issued := []
  files _ := none
  directories := []
  processes _ := []
  places _ := .untouched
  granted _ := none
  released _ := []
  failed := []

/-- The tool use that the process is at. -/
def current (w : HookWorld) (pid : ℕ) : Option (ToolUse × HookPlace) :=
  (w.processes pid).head?.map fun u => (u, w.places u)

def goTo (w : HookWorld) (u : ToolUse) (place : HookPlace) : HookWorld :=
  { w with places := Function.update w.places u place }

/-- The hook ends for this project, and the process goes on to the next one. -/
def leave (w : HookWorld) (pid : ℕ) (u : ToolUse) (place : HookPlace) : HookWorld :=
  { w.goTo u place with processes := Function.update w.processes pid (w.processes pid).tail }

def fail (w : HookWorld) (pid : ℕ) (u : ToolUse) (place : HookPlace) : HookWorld :=
  { w.leave pid u place with failed := u :: w.failed }

def setFile (w : HookWorld) (path : List String) (file : Option HookFile) : HookWorld :=
  { w with files := Function.update w.files path file }

/-- `Path::exists`. -/
def pathExists (w : HookWorld) (path : List String) : Bool :=
  (w.files path).isSome || w.directories.contains path

/-- What `reconciliation_messages` does to the marker. -/
def setMarker (w : HookWorld) (u : ToolUse) (active : Bool) : HookWorld :=
  if w.directories.contains u.reconciliationMarker then w
  else if active then
    if (w.files u.reconciliationMarker).isSome then w
    else w.setFile u.reconciliationMarker (some .marker)
  else w.setFile u.reconciliationMarker none

/-- `create_dir_all` of the directory, which fails where a file has its name. -/
def createDirectory (w : HookWorld) (u : ToolUse) : Option HookWorld :=
  if (w.files u.directory).isSome then none
  else some { w with directories := u.directory :: w.directories }

/-- `write_json` can write the lease file: the name is not too long, and no directory has it. -/
def canWrite (w : HookWorld) (u : ToolUse) (pid : ℕ) : Bool :=
  decide ((u.temporaryName pid).length ≤ nameMax) &&
    !w.directories.contains (u.temporaryPath pid) && !w.directories.contains u.leasePath

/-- What a hook writes once it has its answer, and whether it can: it creates the directory,
and writes the lease. -/
def record (w : HookWorld) (pid : ℕ) (u : ToolUse) (lease : Option String) : HookWorld × Bool :=
  match w.createDirectory u, lease with
  | none, _ => (w, false)
  | some created, none => (created, true)
  | some created, some id =>
    if created.canWrite u pid then (created.setFile u.leasePath (some (.lease id)), true)
    else (created, false)

/-- The daemon grants a lease; whether the hook is told of it is seen at its place. -/
def grant (w : HookWorld) (u : ToolUse) (fresh : String) (gate : GateState) : HookWorld :=
  { w with
    gates := Function.update w.gates u.projectId gate,
    issued := fresh :: w.issued }

/-- `release` of the daemon asks every gate; a lease is in one of them. -/
def releaseAccess (w : HookWorld) (u : ToolUse) (id : String) : HookWorld :=
  { w with
    gates := fun project => ((w.gates project).release id).2,
    released := Function.update w.released u (id :: w.released u) }

def step (w : HookWorld) : HookEvent → Option HookWorld
  | .start pid event call projects =>
    let uses := projects.map (ToolUse.mk call)
    if w.processes pid = [] ∧ uses.Nodup ∧ ∀ u ∈ uses, (w.places u).awaits event = true then
      some { w with
        processes := Function.update w.processes pid
          (match event with
          | .preToolUse => uses
          | .postToolUse => uses.reverse),
        places := fun u => if u ∈ uses then event.start else w.places u }
    else none
  | .acquire pid fresh answer =>
    match w.current pid with
    | some (u, .preStarted) =>
      if u.acquires then
        match answer with
        | .error => some (w.leave pid u .between)
        | .reconciling => some (w.goTo u (.answered none))
        | .lease answered =>
          if fresh ∈ w.issued then none
          else match (w.gates u.projectId).activity u.metadata fresh with
            | none => none
            | some (id, gate) =>
              if answered then
                some { (w.grant u fresh gate).goTo u (.answered (some id)) with
                  granted := Function.update w.granted u (some id) }
              else some ((w.grant u fresh gate).leave pid u .between)
      else none
    | _ => none
  | .accessState pid answer =>
    match w.current pid with
    | some (u, .preStarted) =>
      if u.acquires then none
      else match answer with
        | some active =>
          match w.record pid u none with
          | (recorded, true) => some (recorded.goTo u (.preMessages active))
          | (recorded, false) => some (recorded.leave pid u .between)
        | none => some (w.leave pid u .between)
    | some (u, .postStarted) =>
      if u.looks then none
      else match answer with
        | some active => some (w.goTo u (.postMessages active))
        | none => some (w.leave pid u .ended)
    | _ => none
  | .write pid =>
    match w.current pid with
    | some (u, .answered lease) =>
      match w.record pid u lease with
      | (recorded, true) => some (recorded.goTo u (.preMessages lease.isNone))
      | (recorded, false) => some (recorded.leave pid u .between)
    | _ => none
  | .messages pid =>
    match w.current pid with
    | some (u, .preMessages active) => some ((w.setMarker u active).leave pid u .between)
    | some (u, .postMessages active) => some ((w.setMarker u active).leave pid u .ended)
    | _ => none
  | .look pid =>
    match w.current pid with
    | some (u, .postStarted) =>
      if u.looks then
        if w.pathExists u.leasePath then some (w.goTo u (.found u.leasePath))
        else if w.pathExists u.legacyLeasePath then
          some (w.goTo u (.found u.legacyLeasePath))
        else some (w.leave pid u .ended)
      else none
    | _ => none
  | .read pid =>
    match w.current pid with
    | some (u, .found path) =>
      match w.files path with
      | some (.lease id) => some (w.goTo u (.opened path id))
      | _ =>
        -- a directory is never read as a file
        if w.directories.contains path then some (w.leave pid u .ended)
        -- the file is gone, or the daemon is asked to release no lease
        else some (w.fail pid u .ended)
    | _ => none
  | .release pid =>
    match w.current pid with
    | some (u, .opened path id) => some ((w.releaseAccess u id).goTo u (.released path))
    | _ => none
  | .remove pid =>
    match w.current pid with
    | some (u, .released path) =>
      if (w.files path).isSome then some ((w.setFile path none).leave pid u .ended)
      else some (w.fail pid u .ended)
    | _ => none
  | .fail pid =>
    match w.current pid with
    | some (u, place) => place.afterFailure.map fun next => w.fail pid u next
    | none => none
  | .gate projectId operation =>
    ((w.gates projectId).perform operation).map fun gate =>
      { w with gates := Function.update w.gates projectId gate }
  | .restart => some { w with gates := fun _ => .initial }

end HookWorld

end Resync
