import Resync.BranchHeads
import Resync.ServiceRequests

/-! `refresh` (`daemon.rs`) over the whole catalog: one loop visits the projects and
collects what is to follow, then the catalog is written, then publications are
queued, and at last reconciliations are scheduled. An error at one project ends
all of it. -/
namespace Resync

variable {Oid : Type}

/-- What Git answers in one checkout during a refresh; `none` is an error, except
for a fetch that finds no branch. -/
structure CheckoutAnswers (Oid : Type) where
  branch : Option Branch
  fetched : Except String (Option Oid)
  /-- `rev-parse HEAD`; it fails where HEAD is unborn. -/
  head : Option Oid
  isAncestor : Oid → Oid → Option Bool
  /-- `rev-parse --verify` answers the commit itself. -/
  verifies : Oid → Bool

/-- The first command or write that fails when a new publication is queued. -/
inductive QueueFault where
  | updateRef | writeQueue | writeCatalog
deriving DecidableEq

/-- What a refresh meets. The answers are by checkout path, and what is drawn for
a new publication is by project ID. -/
structure RefreshInputs (Oid : Type) where
  /-- There is a server and a token. -/
  configured : Bool
  heartbeat : Option (List (HeartbeatProject Oid))
  answers : String → CheckoutAnswers Oid
  /-- The write of `catalog.json` after the loop. -/
  persisted : Bool
  publicationId : String → String
  now : String → ℕ
  fault : String → Option QueueFault

/-- What is to follow the visit of a project. -/
inductive FollowUp (Oid : Type) where
  | nothing
  | publish (branch : Branch) (head : Oid)
  | reconcile

/-- One round of the loop: the record that it leaves, and what is to follow, or
`none` if the round returns an error. -/
structure Visit (Oid : Type) where
  record : LocalProject Oid
  next : Option (FollowUp Oid)

/-- The catalog in memory and on disk, the queue, and the projects that have a
background reconciliation. -/
structure RefreshWorld (Oid : Type) where
  catalog : LocalCatalog Oid
  disk : LocalCatalog Oid
  queue : List (Publication Oid)
  reconciling : List String

/-- What there is of one project. -/
structure ProjectView (Oid : Type) where
  record : Option (LocalProject Oid)
  queue : List (Publication Oid)
  reconciling : Bool

section Visits

variable [DecidableEq Oid] (x : RefreshInputs Oid)

/-- The state of a project whose branch was fetched. The heads are compared where
the project is not in conflict. -/
def compared (answers : CheckoutAnswers Oid) (project : LocalProject Oid) (branch : Branch)
    (localHead : Oid) : Visit Oid :=
  if project.state = .conflicted then ⟨project, some .nothing⟩
  else match project.advertisedHeads branch with
    | none => ⟨{ project with state := .current }, some (.publish branch localHead)⟩
    | some target =>
      if target = localHead then
        ⟨{ project with
          state := .current,
          lastAppliedHeads := Function.update project.lastAppliedHeads branch (some target) },
          some .nothing⟩
      else match answers.isAncestor target localHead with
        | none => ⟨project, none⟩
        | some true => ⟨{ project with state := .current }, some (.publish branch localHead)⟩
        | some false => ⟨{ project with state := .remoteAhead }, some .reconcile⟩

/-- The round of the loop for one project, with its entry of the heartbeat. -/
def visitEntry (update : Option (HeartbeatProject Oid)) (project : LocalProject Oid) :
    Visit Oid :=
  let answers := x.answers project.localPath
  let branch := (answers.branch.or project.activeBranch).getD project.defaultBranch
  let project := { project with activeBranch := some branch }
  match update with
  | none =>
    ⟨{ project with
      state := .accessLost,
      lastError := some "provider heartbeat omitted a locally subscribed project" },
      some .nothing⟩
  | some update =>
    if update.membership ≠ "ACTIVE" then
      ⟨{ project with
        state := .accessLost,
        lastError := some "device credential no longer authorizes this subscribed project" },
        some .nothing⟩
    else
      let project := { project with serverGeneration := update.projectGeneration }
      match answers.fetched with
      | .error error =>
        ⟨{ project with state := .offline, lastError := some error }, some .nothing⟩
      | .ok fetched =>
        let project := { project with
          advertisedHeads :=
            Function.update project.advertisedHeads branch (fetched.or update.head) }
        match answers.head with
        -- An error here ends the refresh.
        | none => ⟨project, none⟩
        | some localHead =>
          let visited := compared answers project branch localHead
          ⟨if visited.next.isSome ∧ visited.record.durability = .remotelyDurable then
              { visited.record with lastError := none }
            else visited.record, visited.next⟩

def visit (remote : List (HeartbeatProject Oid)) (project : LocalProject Oid) : Visit Oid :=
  visitEntry x (remote.find? (·.projectId == project.projectId)) project

/-- The loop. After an error the rest of the catalog is not visited. -/
def visitAll (remote : List (HeartbeatProject Oid)) :
    List (LocalProject Oid) → List (LocalProject Oid) × Option (List (String × FollowUp Oid))
  | [] => ([], some [])
  | project :: projects =>
    let visited := visit x remote project
    match visited.next with
    | none => (visited.record :: projects, none)
    | some next =>
      let rest := visitAll remote projects
      (visited.record :: rest.1, rest.2.map ((project.projectId, next) :: ·))

end Visits

/-- `missing_publications`. -/
def missingPublications (todo : List (String × FollowUp Oid)) : List (String × Branch × Oid) :=
  todo.filterMap fun item =>
    match item.2 with
    | .publish branch head => some (item.1, branch, head)
    | _ => none

/-- `pending_reconciliation`. -/
def pendingReconciliation (todo : List (String × FollowUp Oid)) : List String :=
  todo.filterMap fun item =>
    match item.2 with
    | .reconcile => some item.1
    | _ => none

namespace RefreshWorld

/-- `schedule_reconcile`: at most one for each project. -/
def schedule (w : RefreshWorld Oid) (id : String) : RefreshWorld Oid :=
  if id ∈ w.reconciling then w else { w with reconciling := id :: w.reconciling }

variable [DecidableEq Oid] (x : RefreshInputs Oid)

/-- `enqueue_publication`, and whether it succeeds. -/
def enqueue (w : RefreshWorld Oid) (id : String) (branch : Branch) (commit : Oid) :
    RefreshWorld Oid × Bool :=
  match findProject w.catalog id with
  | none => (w, false)
  | some project =>
    if (x.answers project.localPath).verifies commit then
      match PublicationQueue.existing w.queue project.projectId branch commit with
      | some _ => (w, true)
      | none =>
        let publication := Publication.new (x.publicationId project.projectId)
          (x.now project.projectId) project.projectId project.checkoutId branch commit
          (project.advertisedHeads branch)
        let queued := { w with queue := w.queue ++ [publication] }
        let noted := { queued with
          catalog := updateProject w.catalog id fun p =>
            { p with durability := .committedUnpublished } }
        -- The first of the three writes that fails.
        match x.fault project.projectId with
        | some .updateRef => (w, false)
        | some .writeQueue => (queued, false)
        | some .writeCatalog => (noted, false)
        | none => ({ noted with disk := noted.catalog }, true)
    else (w, false)

/-- The publications are queued in turn, up to the first error. -/
def enqueueAll (w : RefreshWorld Oid) : List (String × Branch × Oid) → RefreshWorld Oid × Bool
  | [] => (w, true)
  | item :: items =>
    let result := w.enqueue x item.1 item.2.1 item.2.2
    if result.2 then enqueueAll result.1 items else (result.1, false)

/-- `refresh`, and whether it succeeds. -/
def refresh (w : RefreshWorld Oid) : RefreshWorld Oid × Bool :=
  if x.configured then
    match x.heartbeat with
    | none => (w, false)
    | some remote =>
      let visited := visitAll x remote w.catalog.projects
      let w := { w with catalog := { w.catalog with projects := visited.1 } }
      match visited.2 with
      | none => (w, false)
      | some todo =>
        if x.persisted then
          let result := { w with disk := w.catalog }.enqueueAll x (missingPublications todo)
          if result.2 then
            ((pendingReconciliation todo).foldl schedule result.1, true)
          else (result.1, false)
        else (w, false)
  else (w, true)

end RefreshWorld

end Resync
