import Resync.Daemon
import Resync.HostedForward

/-! To whom the daemon sends requests, and with which credential. Credentials are
stored by origin (`credentials.rs`); the daemon reads one configuration when it
starts (`remote.rs`) and uses its token for the requests of every project
(`daemon.rs`). -/
namespace Resync

variable {Oid Task : Type}

/-- What the program uses of URLs: `canonical` is `canonical_origin`, and `http` is
the origin that an HTTP request for the URL goes to. -/
structure Urls where
  canonical : String → Option String
  http : String → Option String
  canonical_self : ∀ url origin, canonical url = some origin → canonical origin = some origin
  http_canonical : ∀ url origin, canonical url = some origin → http url = some origin

structure Config where
  activeProvider : Option String
  server : Option String
  token : Option String

/-- The credential helper, `RESYNC_TOKEN` and `RESYNC_PROVIDER`, and the file. An
error is `none`. -/
structure Credentials where
  helper : String → Option (Option String)
  token : Option String
  provider : Option String
  file : Option (String → Option String)

section Credentials

variable (urls : Urls)

def loadCredential (c : Credentials) (provider : String) : Option (Option String) :=
  (urls.canonical provider).bind fun origin =>
    (c.helper origin).bind fun answer =>
      match answer, c.token with
      | some external, _ => some (if external = "" then none else some external)
      | none, none => c.file.map fun file => file origin
      | none, some token =>
        match c.provider with
        | none => some (some token)
        | some provider =>
          (urls.canonical provider).bind fun only =>
            if only = origin then some (some token) else c.file.map fun file => file origin

/-- A configuration from before there were providers names its server. -/
def loadConfigRaw (config : Config) : Option Config :=
  match config.activeProvider, config.server with
  | none, some server =>
    (urls.http server).map fun origin => { config with activeProvider := some origin }
  | _, _ => some config

def resolvedConfig (raw : Config) (c : Credentials) : Option Config :=
  (loadConfigRaw urls raw).bind fun config =>
    match config.activeProvider with
    | none => some { config with server := none }
    | some origin =>
      (loadCredential urls c origin).map fun loaded =>
        { config with server := some origin, token := Option.or loaded config.token }

/-- The token that `configured_provider` (`cli.rs`) finds for a provider. -/
def configuredToken (raw : Config) (c : Credentials) (provider : String) : Option String :=
  (urls.canonical provider).bind fun origin =>
    (loadCredential urls c origin).bind fun loaded =>
      Option.or loaded (if raw.server = some origin then raw.token else none)

end Credentials

structure HeartbeatProject (Oid : Type) where
  projectId : String
  membership : String
  head : Option Oid
  projectGeneration : ℕ

/-- What a refresh makes of one project, given the provider's answer to the
heartbeat and the error of the fetch if it fails. -/
def refreshAnswer (remote : List (HeartbeatProject Oid)) (project : LocalProject Oid)
    (failure : Option String) : RefreshAnswer Oid :=
  match remote.find? (·.projectId == project.projectId) with
  | none => .accessLost "provider heartbeat omitted a locally subscribed project"
  | some update =>
    if update.membership = "ACTIVE" then
      match failure with
      | some error => .offline update.projectGeneration error
      | none => .online update.projectGeneration update.head
    else .accessLost "device credential no longer authorizes this subscribed project"

inductive RequestKind where
  | heartbeat | fetch | push | acknowledge
deriving DecidableEq

/-- A request on behalf of a project, by the URL that it is sent to. -/
structure Address (Oid : Type) where
  request : RequestKind
  project : LocalProject Oid
  url : String

/-- An authenticated request as it was sent. `own` is the origin of the project's
service, and `stored` the credential for it at that time. -/
structure SentRequest where
  request : RequestKind
  projectId : String
  destination : String
  token : String
  own : Option String
  stored : Option String
deriving DecidableEq

/-- A project that was marked `ACCESS_LOST` by the answer of an origin. -/
structure LostMark where
  projectId : String
  origin : String
  own : Option String
deriving DecidableEq

/-- A remote of a checkout; `git push` goes to the URL of its own, if there is one. -/
structure Remote where
  url : Option String
  pushUrl : Option String

def Remote.pushes (r : Remote) : Option String := r.pushUrl.or r.url

/-- The remotes of the checkouts, by path and name. -/
abbrev Remotes := String → String → Remote

/-- The remote that `fetch_remote_branch` and the push of a delivery name. -/
def Remotes.of (remotes : Remotes) (project : LocalProject Oid) : Remote :=
  remotes project.localPath project.remoteName

/-- The request that a delivery is about to make. -/
def Delivery.address (remotes : Remotes) : Delivery Oid → Option (Address Oid)
  | .projected _ _ project => (remotes.of project).url.map fun url => ⟨.fetch, project, url⟩
  | .validated _ _ project => (remotes.of project).pushes.map fun url => ⟨.push, project, url⟩
  | .delivered _ _ project => (remotes.of project).url.map fun url => ⟨.fetch, project, url⟩
  | .confirmed _ _ project _ => project.service.map fun service => ⟨.acknowledge, project, service⟩
  | _ => none

/-- The step makes the request of its place, be it answered or not. -/
def DeliveryEvent.asks : DeliveryEvent Oid → Delivery Oid → Bool
  | .fetch, .projected .. => true
  | .push _, .validated .. => true
  | .confirm, .delivered .. => true
  | .acknowledge _ _, .confirmed .. => true
  | .fail _, _ => true
  | _, _ => false

/-- `raw` is `config.json`, and `config` is what the daemon has read of it and of
the credentials when it started. What `remotes` name is in `.git/config` of the
checkouts. `answers` are the heartbeats of the refreshes that
are under way, with the origin that has answered. -/
structure ServiceWorld (Oid Task : Type) where
  raw : Config
  credentials : Credentials
  config : Config
  remotes : Remotes
  daemon : DaemonWorld Oid Task
  answers : Task → Option (String × List (HeartbeatProject Oid))
  sent : List SentRequest
  lost : List LostMark

inductive ServiceEvent (Oid Task : Type) where
  /-- A login, a logout, or another change of the configuration. -/
  | configure (raw : Config) (credentials : Credentials)
  /-- `git remote set-url`, by a user or in `project fork`; `heads` are the branches at the URL. -/
  | setUrl (path name : String) (remote : Remote) (heads : Branch → Option Oid)
  | register (project : LocalProject Oid) (generation : Option ℕ)
  /-- The daemon reads `catalog.json` again. -/
  | reload (catalog : LocalCatalog Oid)
  /-- A refresh sends its heartbeat; `none` is an error. -/
  | heartbeat (task : Task) (answer : Option (List (HeartbeatProject Oid)))
  /-- The refresh comes to the fetch of a project whose branch it has read. -/
  | refreshHead (task : Task) (failure : Option String)
  | daemon (e : DaemonEvent Oid Task)

def SentRequest.Proper (s : SentRequest) : Prop :=
  s.own = some s.destination ∧ s.stored = some s.token

def LostMark.Proper (m : LostMark) : Prop := m.own = some m.origin

def RefreshAnswer.isAccessLost : RefreshAnswer Oid → Bool
  | .accessLost _ => true
  | _ => false

namespace ServiceWorld

/-- The daemon when it has read its configuration. -/
def initial (raw : Config) (credentials : Credentials) (config : Config) (remotes : Remotes)
    (publish : PublishWorld Oid Task) : ServiceWorld Oid Task where
  raw := raw
  credentials := credentials
  config := config
  remotes := remotes
  daemon := .initial { publish with token := config.token.isSome }
  answers _ := none
  sent := []
  lost := []

variable (urls : Urls)

/-- The service that a project belongs to: the one that it was joined at, or else
the active provider. -/
def serviceOf (w : ServiceWorld Oid Task) (project : LocalProject Oid) : Option String :=
  project.service.or w.config.server

def own (w : ServiceWorld Oid Task) (project : LocalProject Oid) : Option String :=
  (w.serviceOf project).bind urls.http

def stored (w : ServiceWorld Oid Task) (project : LocalProject Oid) : Option String :=
  (w.serviceOf project).bind (configuredToken urls w.raw w.credentials)

/-- A request carries the token of the daemon, if it has one. -/
def send (w : ServiceWorld Oid Task) (a : Address Oid) : List SentRequest :=
  match w.config.token, urls.http a.url with
  | some token, some destination =>
    [⟨a.request, a.project.projectId, destination, token, w.own urls a.project,
      w.stored urls a.project⟩]
  | _, _ => []

/-- The refresh that is about to fetch a project: the answer to its heartbeat, with
its origin, and the record. -/
def visit (w : ServiceWorld Oid Task) (task : Task) :
    Option (String × List (HeartbeatProject Oid) × LocalProject Oid) :=
  match w.answers task, w.daemon.publish.calls task with
  | some (origin, remote), .refreshing name _ =>
    (findProject w.daemon.publish.catalog name).map fun project => (origin, remote, project)
  | _, _ => none

def addresses [DecidableEq Task] (w : ServiceWorld Oid Task) :
    ServiceEvent Oid Task → List (Address Oid)
  | .heartbeat task _ =>
    match w.config.server, w.daemon.publish.calls task with
    | some server, .idle => w.daemon.publish.catalog.projects.map fun p => ⟨.heartbeat, p, server⟩
    | _, _ => []
  | .refreshHead task failure =>
    match w.visit task with
    | some (_, remote, project) =>
      if (refreshAnswer remote project failure).isAccessLost then []
      else (w.remotes.of project).url.toList.map fun url => ⟨.fetch, project, url⟩
    | none => []
  | .daemon (.publish (.deliver e)) =>
    if e.asks w.daemon.publish.delivery then
      (w.daemon.publish.delivery.address w.remotes).toList
    else []
  | _ => []

/-- The projects that the step marks `ACCESS_LOST`, with the origin that has
answered the heartbeat. -/
def losses (w : ServiceWorld Oid Task) :
    ServiceEvent Oid Task → List (LocalProject Oid × String)
  | .refreshHead task failure =>
    match w.visit task with
    | some (origin, remote, project) =>
      if (refreshAnswer remote project failure).isAccessLost then [(project, origin)] else []
    | none => []
  | _ => []

def setPublish (w : ServiceWorld Oid Task) (publish : PublishWorld Oid Task) :
    ServiceWorld Oid Task :=
  { w with daemon := w.daemon.setPublish publish }

/-- The branches that are fetched for the project of a record are at the URL now. -/
def fetchesFrom (publish : PublishWorld Oid Task) (path name : String)
    (heads : Branch → Option Oid) : PublishWorld Oid Task :=
  { publish with
    hosted := fun url =>
      if publish.catalog.projects.any fun p =>
          p.localPath == path && p.remoteName == name && p.remoteUrl == url then
        heads
      else publish.hosted url }

section Steps

variable [DecidableEq Oid] [DecidableEq Task] (G : CommitGraph Oid)

/-- The step without the record of its requests. -/
def next (w : ServiceWorld Oid Task) : ServiceEvent Oid Task → Option (ServiceWorld Oid Task)
  | .configure raw credentials => some { w with raw := raw, credentials := credentials }
  | .setUrl path name remote heads => some { w with
      remotes := Function.update w.remotes path (Function.update (w.remotes path) name remote),
      daemon := w.daemon.setPublish (fetchesFrom w.daemon.publish path name heads) }
  | .register project generation => some (w.setPublish { w.daemon.publish with
      catalog := registerProject w.daemon.publish.catalog project generation })
  | .reload catalog => some (w.setPublish { w.daemon.publish with catalog := catalog })
  | .heartbeat task answer =>
    match w.config.server, w.config.token, w.daemon.publish.calls task with
    | some server, some _, .idle =>
      (urls.http server).map fun origin => { w with
        answers := Function.update w.answers task (answer.map fun remote => (origin, remote)) }
    | _, _, _ => none
  | .refreshHead task failure =>
    match w.visit task with
    | some (_, remote, project) =>
      (w.daemon.step G (.publish (.call task (.refreshHead
        (refreshAnswer remote project failure))))).map fun daemon => { w with daemon := daemon }
    | none => none
  | .daemon (.publish .restart) =>
    (resolvedConfig urls w.raw w.credentials).bind fun config =>
      (w.daemon.step G (.publish .restart)).map fun daemon => { w with
        config := config,
        daemon := daemon.setPublish { daemon.publish with token := config.token.isSome },
        answers := fun _ => none }
  | .daemon (.publish (.call task (.refreshBranch name))) =>
    if (w.answers task).isSome then
      (w.daemon.step G (.publish (.call task (.refreshBranch name)))).map fun daemon =>
        { w with daemon := daemon }
    else none
  | .daemon (.publish (.call _ (.refreshHead _))) => none
  | .daemon e => (w.daemon.step G e).map fun daemon => { w with daemon := daemon }

def step (w : ServiceWorld Oid Task) (e : ServiceEvent Oid Task) :
    Option (ServiceWorld Oid Task) :=
  (w.next urls G e).map fun w' => { w' with
    sent := w.sent ++ (w.addresses e).flatMap (w.send urls),
    lost := w.lost ++ (w.losses e).map fun l => ⟨l.1.projectId, l.2, w.own urls l.1⟩ }

end Steps

/-- Every request that was sent, and every mark that was made, is right. -/
def Separate (w : ServiceWorld Oid Task) : Prop :=
  (∀ s ∈ w.sent, s.Proper) ∧ ∀ m ∈ w.lost, m.Proper

end ServiceWorld

end Resync
