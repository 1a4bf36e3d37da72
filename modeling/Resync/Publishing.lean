import Resync.Lib.CommitGraph
import Resync.Publication

/-! The hooks of the checkouts, the tasks that queue publications, and the
delivery of the queue to the hosted repositories (`daemon.rs`). Each step is
one command of Git or one critical section of the daemon; users, other clients
and the rest of the daemon act between any two of them. -/
namespace Resync

variable {Oid Task : Type}

inductive LocalHead (Oid : Type) where
  | attached (branch : Branch)
  | detached (commit : Oid)

/-- The refs of one checkout: HEAD, `refs/heads`, and `refs/resync/publications`. -/
structure LocalRefs (Oid : Type) where
  head : LocalHead Oid
  heads : Branch → Option Oid
  publications : String → Option Oid

namespace LocalRefs

/-- `current_branch`. -/
def headBranch (r : LocalRefs Oid) : Option Branch :=
  match r.head with
  | .attached b => some b
  | .detached _ => none

/-- `rev-parse HEAD`. -/
def headCommit (r : LocalRefs Oid) : Option Oid :=
  match r.head with
  | .attached b => r.heads b
  | .detached c => some c

def setHead (r : LocalRefs Oid) (b : Branch) (c : Oid) : LocalRefs Oid :=
  { r with heads := Function.update r.heads b (some c) }

def setPublication (r : LocalRefs Oid) (id : String) (c : Option Oid) : LocalRefs Oid :=
  { r with publications := Function.update r.publications id c }

end LocalRefs

/-- What follows an enqueue: a branch transition records the new branch. -/
inductive Next where
  | done
  | activate (branch : Branch)

/-- Where a hook or a daemon task stands. `on` and `left` are the branch that
HEAD was attached to when the commit was read; the program does not know it. -/
inductive Call (Oid : Type) where
  | idle
  /-- The post-commit hook has read HEAD. -/
  | hookCommit (name path : String) (commit : Oid) (on : Option Branch)
  /-- The post-checkout hook runs with the commit that was checked out before. -/
  | hookCheckout (name path : String) (previous : Option Oid) (left : Option Branch)
  /-- The post-checkout hook has read the new branch and calls `reportCheckout`. -/
  | checkoutReport (name path : String) (newBranch : Branch) (previous : Option Oid)
      (left : Option Branch)
  /-- `ensure_branch_transition` has cloned the project. -/
  | transition (name : String) (project : LocalProject Oid)
  /-- `refresh` has read the branch of the project. -/
  | refreshing (name : String) (branch : Branch)
  /-- `enqueue_publication` is called. -/
  | requested (name : String) (branch : Branch) (commit : Oid) (next : Next)
  | cloned (name : String) (project : LocalProject Oid) (branch : Branch) (commit : Oid)
      (next : Next)
  | created (name : String) (publication : Publication Oid) (next : Next)
  | queued (name : String) (next : Next)
  /-- The new branch is to be recorded as the active one. -/
  | activating (name : String) (branch : Branch)

/-- One call of `deliver_publication_unlocked`, with the rest of the pass that
it belongs to. `left` counts the rounds of its loop. -/
structure Attempt (Oid : Type) where
  rest : List String
  initial : Publication Oid
  left : ℕ

/-- Where `process_publications` stands. -/
inductive Delivery (Oid : Type) where
  | idle
  | pass (ids : List String)
  | reading (a : Attempt Oid)
  | loaded (a : Attempt Oid) (p : Publication Oid)
  | projected (a : Attempt Oid) (p : Publication Oid) (project : LocalProject Oid)
  /-- The hosted branch is neither as expected nor ahead of the candidate. -/
  | behind (a : Attempt Oid) (p : Publication Oid) (project : LocalProject Oid)
      (remoteHead : Option Oid)
  | reconciling (a : Attempt Oid) (p : Publication Oid) (remoteHead : Option Oid)
  | reconciled (a : Attempt Oid) (p : Publication Oid) (remoteHead : Option Oid)
  | headRead (a : Attempt Oid) (p : Publication Oid) (remoteHead : Option Oid) (head : Oid)
  | validating (a : Attempt Oid) (p : Publication Oid) (project : LocalProject Oid)
  | validated (a : Attempt Oid) (p : Publication Oid) (project : LocalProject Oid)
  | delivered (a : Attempt Oid) (p : Publication Oid) (project : LocalProject Oid)
  | confirmed (a : Attempt Oid) (p : Publication Oid) (project : LocalProject Oid)
      (confirmedHead : Oid)
  | acked (a : Attempt Oid) (p : Publication Oid) (ack : PublicationAck Oid)
  | completing (a : Attempt Oid) (p : Publication Oid) (ack : PublicationAck Oid)
      (completed : List String) (hasPending : Bool)
  | deleting (a : Attempt Oid) (path : String) (completed : List String)
  | failing (a : Attempt Oid) (error : String)
  | failed (a : Attempt Oid) (error : String)

/-- The daemon, the checkouts by path, and the hosted branches by remote URL;
`token` is whether the configuration has one. `hostedLog`, `recorded`, `acknowledged`
and `issued` only look back: the heads that the hosted branches have had, the
publications that were put in the queue, those that were marked as acknowledged, and the
IDs that were drawn. -/
structure PublishWorld (Oid Task : Type) where
  token : Bool
  catalog : LocalCatalog Oid
  queue : List (Publication Oid)
  checkouts : String → LocalRefs Oid
  hosted : String → Branch → Option Oid
  calls : Task → Call Oid
  delivery : Delivery Oid
  hostedLog : String → Branch → List Oid
  recorded : List (Publication Oid)
  acknowledged : List (Publication Oid)
  issued : List String

inductive UserEvent (Oid Task : Type) where
  /-- A commit or a merge on HEAD. -/
  | commit (path : String) (commit : Oid)
  /-- An amend, a reset or a rebase, or a new branch. -/
  | rewrite (path : String) (branch : Branch) (commit : Oid)
  /-- A switch to a branch, which is made at HEAD if it is not there. The
  post-checkout hook runs in a task, or is missed. -/
  | switch (path : String) (branch : Branch) (hook : Option (Task × String))
  | detach (path : String) (commit : Oid) (hook : Option (Task × String))
  /-- Another client pushes to a hosted branch. -/
  | otherPush (url : String) (branch : Branch) (commit : Oid)

/-- What `refresh` gets for one project from the provider and from the fetch. -/
inductive RefreshAnswer (Oid : Type) where
  | accessLost (error : String)
  | offline (generation : ℕ) (error : String)
  | online (generation : ℕ) (head : Option Oid)

inductive CallEvent (Oid : Type) where
  /-- The post-commit hook of the checkout of a project starts. -/
  | hookCommit (name : String)
  /-- A hook reads the branch. -/
  | hookBranch
  /-- The report of a hook does not arrive, or a command of the call fails. -/
  | lose
  | reportCheckout
  | transition (name : String)
  | transitionBranch
  | refreshBranch (name : String)
  | refreshHead (answer : RefreshAnswer Oid)
  | publish (name : String) (branch : Branch)
  | clone
  | create (id : String) (now : ℕ)
  | push
  | record
  | activate

/-- What `acknowledge_with_provider` returns. -/
inductive ProviderAnswer (Oid : Type) where
  | acknowledged (ack : PublicationAck Oid)
  | remoteAdvanced (error : String)

inductive DeliveryEvent (Oid : Type) where
  | start (force : Bool) (now : ℕ)
  | next
  | load
  | project
  | fetch
  | checkBranch
  | reconcile (outcome : String)
  | readHead
  | retarget (now : ℕ)
  | validate
  /-- The push, and whether its answer arrives. -/
  | push (answered : Bool)
  | confirm
  | acknowledge (now : ℕ) (answer : ProviderAnswer Oid)
  | complete (now : ℕ)
  | recordCompletion
  | deleteRef
  /-- A command, a file access or a request fails. -/
  | fail (error : String)
  | recordFailure (now : ℕ)
  | noteFailure

inductive PublishEvent (Oid Task : Type) where
  | user (e : UserEvent Oid Task)
  | call (task : Task) (e : CallEvent Oid)
  | deliver (e : DeliveryEvent Oid)
  /-- The rest of the daemon writes a project record. -/
  | writeProject (name : String) (record : LocalProject Oid)
  /-- A reconciliation moves a branch: `update-ref` of `install_candidate`. -/
  | install (path : String) (branch : Branch) (new old : Oid)
  /-- The daemon restarts; the queue and the catalog are on disk. -/
  | restart

namespace PublishWorld

def path (w : PublishWorld Oid Task) (name : String) : Option String :=
  (findProject w.catalog name).map (·.localPath)

def setCheckout (w : PublishWorld Oid Task) (path : String) (r : LocalRefs Oid) :
    PublishWorld Oid Task :=
  { w with checkouts := Function.update w.checkouts path r }

def setProject (w : PublishWorld Oid Task) (name : String)
    (f : LocalProject Oid → LocalProject Oid) : PublishWorld Oid Task :=
  { w with catalog := updateProject w.catalog name f }

/-- A hosted branch moves. -/
def setHosted (w : PublishWorld Oid Task) (url : String) (b : Branch) (c : Oid) :
    PublishWorld Oid Task :=
  { w with
    hosted := Function.update w.hosted url (Function.update (w.hosted url) b (some c)),
    hostedLog := Function.update w.hostedLog url
      (Function.update (w.hostedLog url) b (c :: w.hostedLog url b)) }

def setDelivery (w : PublishWorld Oid Task) (d : Delivery Oid) : PublishWorld Oid Task :=
  { w with delivery := d }

section Calls

variable [DecidableEq Task]

def setCall (w : PublishWorld Oid Task) (task : Task) (c : Call Oid) : PublishWorld Oid Task :=
  { w with calls := Function.update w.calls task c }

/-- The post-checkout hook starts in a free task. -/
def startHook (w : PublishWorld Oid Task) (path : String) (previous : Option Oid)
    (left : Option Branch) : Option (Task × String) → Option (PublishWorld Oid Task)
  | none => some w
  | some (task, name) =>
    match w.calls task with
    | .idle =>
      if w.path name = some path then
        some (w.setCall task (.hookCheckout name path previous left))
      else none
    | _ => none

end Calls

end PublishWorld

/-- What a call does once its publication is queued. -/
def Next.call (name : String) : Next → Call Oid
  | .done => .idle
  | .activate branch => .activating name branch

section Steps

variable [DecidableEq Task] [DecidableEq Oid] (G : CommitGraph Oid)

namespace PublishWorld

def user (w : PublishWorld Oid Task) : UserEvent Oid Task → Option (PublishWorld Oid Task)
  | .commit path c =>
    let r := w.checkouts path
    -- A commit or a merge keeps the head that it is made on among its ancestors.
    if ∀ h ∈ r.headCommit, G.Ancestor h c then
      match r.head with
      | .attached b => some (w.setCheckout path (r.setHead b c))
      | .detached _ => some (w.setCheckout path { r with head := .detached c })
    else none
  | .rewrite path b c => some (w.setCheckout path ((w.checkouts path).setHead b c))
  | .switch path b hook =>
    let r := w.checkouts path
    match r.heads b, r.headCommit with
    | some _, previous =>
      (w.setCheckout path { r with head := .attached b }).startHook path previous r.headBranch hook
    | none, some c =>
      (w.setCheckout path { r.setHead b c with head := .attached b }).startHook path (some c)
        r.headBranch hook
    | none, none => none
  | .detach path c hook =>
    let r := w.checkouts path
    (w.setCheckout path { r with head := .detached c }).startHook path r.headCommit r.headBranch
      hook
  | .otherPush url b c =>
    -- The host takes another client's push only as a fast forward.
    if ∀ h ∈ w.hosted url b, G.Ancestor h c then some (w.setHosted url b c) else none

/-- The record with the head that `refresh` has fetched, or else the provider's. -/
def advertise (w : PublishWorld Oid Task) (project : LocalProject Oid) (branch : Branch)
    (generation : ℕ) (head : Option Oid) : LocalProject Oid :=
  { project with
    serverGeneration := generation,
    advertisedHeads := Function.update project.advertisedHeads branch
      ((w.hosted project.remoteUrl branch).or head) }

/-- The record that `refresh` leaves of a project of which it has read HEAD,
and whether HEAD is to be published. -/
def refreshed (project : LocalProject Oid) (branch : Branch) (localHead : Oid) :
    LocalProject Oid × Bool :=
  if project.state = .conflicted then (project, false)
  else match project.advertisedHeads branch with
    | none => ({ project with state := .current }, true)
    | some target =>
      if target = localHead then
        ({ project with
          state := .current,
          lastAppliedHeads := Function.update project.lastAppliedHeads branch (some target) },
          false)
      else if G.isAncestor target localHead then ({ project with state := .current }, true)
      else ({ project with state := .remoteAhead }, false)

def call (w : PublishWorld Oid Task) (task : Task) :
    CallEvent Oid → Option (PublishWorld Oid Task)
  | .hookCommit name =>
    match w.calls task, w.path name with
    | .idle, some path =>
      (w.checkouts path).headCommit.map fun c =>
        w.setCall task (.hookCommit name path c (w.checkouts path).headBranch)
    | _, _ => none
  | .hookBranch =>
    match w.calls task with
    | .hookCommit name path c _ =>
      match (w.checkouts path).headBranch with
      | some b => some (w.setCall task (.requested name b c .done))
      -- `current_branch` fails on a detached HEAD, and the hook ends.
      | none => some (w.setCall task .idle)
    | .hookCheckout name path previous left =>
      match (w.checkouts path).headBranch with
      | some b => some (w.setCall task (.checkoutReport name path b previous left))
      | none => some (w.setCall task .idle)
    | _ => none
  | .lose =>
    match w.calls task with
    | .hookCommit .. | .hookCheckout .. | .checkoutReport .. | .requested .. | .cloned .. =>
      some (w.setCall task .idle)
    | _ => none
  | .reportCheckout =>
    match w.calls task with
    | .checkoutReport name _ newBranch previous _ =>
      match findProject w.catalog name with
      | none => some (w.setCall task .idle)
      | some project =>
        match project.activeBranch, previous with
        | some previousBranch, some c =>
          if previousBranch = newBranch then some (w.setCall task (.activating name newBranch))
          else some (w.setCall task (.requested name previousBranch c (.activate newBranch)))
        | _, _ => some (w.setCall task (.activating name newBranch))
    | _ => none
  | .transition name =>
    match w.calls task, findProject w.catalog name with
    | .idle, some project => some (w.setCall task (.transition name project))
    | _, _ => none
  | .transitionBranch =>
    match w.calls task with
    | .transition name project =>
      let r := w.checkouts project.localPath
      match r.headBranch with
      | none => some (w.setCall task .idle)
      | some actual =>
        match project.activeBranch with
        | none => some (w.setCall task (.activating name actual))
        | some previous =>
          if previous = actual then some (w.setCall task .idle)
          else match r.heads previous with
            | some c => some (w.setCall task (.requested name previous c (.activate actual)))
            -- The branch that was left is gone, so only the new one is recorded.
            | none => some (w.setCall task (.activating name actual))
    | _ => none
  | .refreshBranch name =>
    match w.calls task, findProject w.catalog name with
    | .idle, some project =>
      let actual := ((w.checkouts project.localPath).headBranch.or project.activeBranch).getD
        project.defaultBranch
      some ((w.setProject name fun p => { p with activeBranch := some actual }).setCall task
        (.refreshing name actual))
    | _, _ => none
  | .refreshHead answer =>
    match w.calls task with
    | .refreshing name branch =>
      match findProject w.catalog name with
      | none => some (w.setCall task .idle)
      | some project =>
        match answer with
        | .accessLost error =>
          some ((w.setProject name fun p =>
            { p with state := .accessLost, lastError := some error }).setCall task .idle)
        | .offline generation error =>
          some ((w.setProject name fun p => { p with
            serverGeneration := generation, state := .offline, lastError := some error }).setCall
              task .idle)
        -- Without a fetched head the one of the heartbeat counts.
        | .online generation head =>
          let advertised := w.advertise project branch generation head
          match (w.checkouts project.localPath).headCommit with
          | none => some ((w.setProject name fun _ => advertised).setCall task .idle)
          | some localHead =>
            let result := refreshed G advertised branch localHead
            let record := if result.1.durability = .remotelyDurable then
              { result.1 with lastError := none } else result.1
            some ((w.setProject name fun _ => record).setCall task
              (if result.2 then .requested project.projectId branch localHead .done else .idle))
    | _ => none
  | .publish name b =>
    match w.calls task, w.path name with
    | .idle, some path =>
      ((w.checkouts path).heads b).map fun c => w.setCall task (.requested name b c .done)
    | _, _ => none
  | .clone =>
    match w.calls task with
    | .requested name b c next =>
      match findProject w.catalog name with
      | some project => some (w.setCall task (.cloned name project b c next))
      | none => some (w.setCall task .idle)
    | _ => none
  | .create id now =>
    match w.calls task with
    | .cloned name project b c next =>
      match PublicationQueue.existing w.queue project.projectId b c with
      -- The same commit is already pending: no second publication.
      | some _ => some (w.setCall task (next.call name))
      | none =>
        if id ∈ w.issued then none
        else
          let r := w.checkouts project.localPath
          let p := Publication.new id now project.projectId project.checkoutId b c
            (project.advertisedHeads b)
          some { (w.setCheckout project.localPath (r.setPublication id (some c))).setCall task
              (.created name p next) with issued := id :: w.issued }
    | _ => none
  | .push =>
    match w.calls task with
    | .created name p next =>
      some { w.setCall task (.queued name next) with
        queue := w.queue ++ [p],
        recorded := w.recorded ++ [p] }
    | _ => none
  | .record =>
    match w.calls task with
    | .queued name next =>
      match findProject w.catalog name with
      | none => some (w.setCall task .idle)
      | some _ =>
        some ((w.setProject name fun p => { p with durability := .committedUnpublished }).setCall
          task (next.call name))
    | _ => none
  | .activate =>
    match w.calls task with
    | .activating name b =>
      some ((w.setProject name fun p => { p with activeBranch := some b }).setCall task .idle)
    | _ => none

end PublishWorld

end Steps

end Resync
