import Mathlib.Data.Nat.Notation
import Mathlib.Logic.Function.Basic
import Resync.Lib.ModifyFirst

/-! The records of `catalog.json` (`state.rs`) and the daemon's look-up of a
project by name. Commits are an arbitrary type of object identifiers. -/
namespace Resync

abbrev Branch := String

/-- A path below the checkout, as its list of segments. -/
abbrev Path := List String

/-- `WORKSPACE_STATES`. -/
inductive WorkspaceState where
  | materializing | current | remoteAhead | waitingForLeases | reconciling
  | conflicted | offline | accessLost | failed
deriving DecidableEq

/-- `DURABILITY_STATES`. -/
inductive Durability where
  | noLocalChange | dirtyUncheckpointed | committedUnpublished | publishing | remotelyDurable
deriving DecidableEq

structure Conflict where
  kind : String
  detail : String
  paths : List String
deriving DecidableEq

structure LocalProject (Oid : Type) where
  projectId : String
  localPath : String
  remoteUrl : String
  remoteName : String
  defaultBranch : Branch
  serverGeneration : ℕ
  advertisedHeads : Branch → Option Oid
  lastAppliedHeads : Branch → Option Oid
  activeBranch : Option Branch
  workspaceGeneration : ℕ
  state : WorkspaceState
  durability : Durability
  conflict : Option Conflict
  lastError : Option String
  service : Option String
  checkoutId : Option String

structure LocalCatalog (Oid : Type) where
  catalogGeneration : ℕ
  projects : List (LocalProject Oid)

section Find

variable {Oid : Type}

def LocalProject.named (p : LocalProject Oid) (id : String) : Bool :=
  p.projectId == id || p.localPath == id

/-- `find_project`: by project ID or by checkout path, the first match. -/
def findProject (catalog : LocalCatalog Oid) (id : String) : Option (LocalProject Oid) :=
  catalog.projects.find? (·.named id)

/-- Write through `find_project_mut`: only the first match changes. -/
def updateProject (catalog : LocalCatalog Oid) (id : String)
    (f : LocalProject Oid → LocalProject Oid) : LocalCatalog Oid :=
  { catalog with projects := modifyFirst (·.named id) f catalog.projects }

/-- The `registerProject` request: the record replaces every record of the
same project or checkout. -/
def registerProject (catalog : LocalCatalog Oid) (project : LocalProject Oid)
    (generation : Option ℕ) : LocalCatalog Oid where
  catalogGeneration := match generation with
    | some g => max catalog.catalogGeneration g
    | none => catalog.catalogGeneration
  projects := catalog.projects.filter (fun item =>
    item.projectId != project.projectId && item.localPath != project.localPath) ++ [project]

theorem findProject_mem {catalog : LocalCatalog Oid} {id : String} {p : LocalProject Oid}
    (h : findProject catalog id = some p) : p ∈ catalog.projects :=
  List.mem_of_find?_eq_some h

theorem findProject_named {catalog : LocalCatalog Oid} {id : String} {p : LocalProject Oid}
    (h : findProject catalog id = some p) : p.projectId = id ∨ p.localPath = id := by
  have hn : p.named id = true := by simpa using List.find?_some h
  simpa only [LocalProject.named, Bool.or_eq_true, beq_iff_eq] using hn

/-- A write through a name changes at most the project that the name finds. -/
theorem mem_updateProject {catalog : LocalCatalog Oid} {id : String}
    {f : LocalProject Oid → LocalProject Oid} {q : LocalProject Oid}
    (h : q ∈ (updateProject catalog id f).projects) :
    q ∈ catalog.projects ∨ ∃ p, findProject catalog id = some p ∧ q = f p :=
  mem_modifyFirst h

theorem updateProject_congr {catalog : LocalCatalog Oid} {id : String}
    {f g : LocalProject Oid → LocalProject Oid}
    (h : ∀ p, findProject catalog id = some p → f p = g p) :
    updateProject catalog id f = updateProject catalog id g :=
  congrArg (fun projects => { catalog with projects := projects }) (modifyFirst_congr h)

theorem mem_registerProject {catalog : LocalCatalog Oid} {project q : LocalProject Oid}
    {generation : Option ℕ} (h : q ∈ (registerProject catalog project generation).projects) :
    q = project ∨ (q ∈ catalog.projects ∧ q.projectId ≠ project.projectId) := by
  rcases List.mem_append.mp h with h | h
  · refine Or.inr ⟨(List.mem_filter.mp h).1, ?_⟩
    have hf := (List.mem_filter.mp h).2
    simp only [Bool.and_eq_true, bne_iff_ne] at hf
    exact hf.1
  · exact Or.inl (List.mem_singleton.mp h)

end Find

end Resync
