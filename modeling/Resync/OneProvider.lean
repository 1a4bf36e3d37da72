import Resync.LeavingProject
import Resync.ServiceRequests

/-! A device that works with one provider: the configuration, the projects of the catalog and the
remotes of their checkouts are of one origin. Then the one credential that the daemon has read is
right for every request, and every request goes to the service of its project. -/
namespace Resync

variable {Oid Task : Type}

/-- `config.json` names the provider at the origin, and a token from before there were providers is
for it. -/
structure Config.For (urls : Urls) (origin : String) (raw : Config) : Prop where
  active : ∀ config, loadConfigRaw urls raw = some config →
    ∀ provider ∈ config.activeProvider, urls.canonical provider = some origin
  token : raw.token = none ∨ raw.server = some origin

/-- An HTTP request to a URL of the remote goes to the origin. -/
def Remote.At (urls : Urls) (origin : String) (r : Remote) : Prop :=
  ∀ url, r.url = some url ∨ r.pushes = some url →
    ∀ host, urls.http url = some host → host = origin

/-- The project was joined at the origin, and the remote of its checkout is there. -/
structure LocalProject.At (urls : Urls) (origin : String) (remotes : Remotes)
    (p : LocalProject Oid) : Prop where
  service : ∀ s ∈ p.service, urls.canonical s = some origin
  remote : (remotes.of p).At urls origin

namespace ServiceWorld

/-- A record of the catalog, or a copy of one that an operation works with. -/
def Holds (w : ServiceWorld Oid Task) (p : LocalProject Oid) : Prop :=
  p ∈ w.daemon.publish.catalog.projects ∨ w.daemon.Uses p

/-- The condition on what comes from outside. The active provider stays the one at the origin, and
while the daemon has a token the credential for the origin stays the same; a record that comes into
the catalog is of a project of the provider; and a remote that the daemon uses gets no HTTP URL of
another origin. -/
def OneProvider (urls : Urls) (origin : String) (w : ServiceWorld Oid Task) :
    ServiceEvent Oid Task → Prop
  | .configure raw credentials => raw.For urls origin ∧ (w.config.token.isSome = true →
      configuredToken urls raw credentials origin =
        configuredToken urls w.raw w.credentials origin)
  | .setUrl path name remote _ => ∀ p, w.Holds p → p.localPath = path → p.remoteName = name →
      remote.At urls origin
  | .register p _ => p.At urls origin w.remotes
  | .reload catalog => ∀ p ∈ catalog.projects, p.At urls origin w.remotes
  | _ => True

/-- The daemon serves the one provider. -/
structure Serves (urls : Urls) (origin : String) (w : ServiceWorld Oid Task) : Prop where
  raw : w.raw.For urls origin
  server : ∀ s ∈ w.config.server, urls.canonical s = some origin
  token : ∀ t ∈ w.config.token, w.config.server ≠ none ∧
    configuredToken urls w.raw w.credentials origin = some t
  answers : ∀ task host remote, w.answers task = some (host, remote) →
    host = origin ∧ w.config.server ≠ none
  held : ∀ p, w.Holds p → p.At urls origin w.remotes

end ServiceWorld

section Tokens

variable {urls : Urls} {origin provider : String} {raw config : Config} {c : Credentials}

theorem loadCredential_canonical (h : urls.canonical provider = some origin) :
    loadCredential urls c provider = loadCredential urls c origin := by
  simp only [loadCredential, h, urls.canonical_self _ _ h]

theorem configuredToken_canonical (h : urls.canonical provider = some origin) :
    configuredToken urls raw c provider = configuredToken urls raw c origin := by
  simp only [configuredToken, h, urls.canonical_self _ _ h]

theorem loadConfigRaw_token (h : loadConfigRaw urls raw = some config) :
    config.token = raw.token ∧ (config.activeProvider = none → raw.server = none) := by
  unfold loadConfigRaw at h
  split at h
  · obtain ⟨host, -, rfl⟩ := Option.map_eq_some_iff.mp h
    exact ⟨rfl, fun hnone => by cases hnone⟩
  · next hnot =>
    obtain rfl := Option.some.inj h
    refine ⟨rfl, fun hnone => ?_⟩
    cases hserver : raw.server with
    | none => rfl
    | some server => exact absurd hserver (hnot server hnone)

/-- What the daemon reads when it starts: a server at the origin, and the credential for it. -/
theorem Config.For.resolved (hraw : raw.For urls origin)
    (h : resolvedConfig urls raw c = some config) :
    (∀ s ∈ config.server, urls.canonical s = some origin) ∧
      ∀ t ∈ config.token, config.server ≠ none ∧
        configuredToken urls raw c origin = some t := by
  obtain ⟨loaded, hloaded, h⟩ := Option.bind_eq_some_iff.mp h
  obtain ⟨htoken, hserver⟩ := loadConfigRaw_token hloaded
  cases hactive : loaded.activeProvider with
  | none =>
    rw [hactive] at h
    obtain rfl := Option.some.inj h
    -- a token from before there were providers would come with a server
    have hnone : loaded.token = none := by
      rcases hraw.token with hnone | hlegacy
      · rw [htoken, hnone]
      · rw [hserver hactive] at hlegacy
        cases hlegacy
    refine ⟨fun s hs => ?_, fun t ht => ?_⟩
    · cases hs
    · have ht' : loaded.token = some t := ht
      rw [hnone] at ht'
      cases ht'
  | some provider =>
    rw [hactive] at h
    have hcanonical := hraw.active loaded hloaded provider hactive
    obtain ⟨credential, hcredential, rfl⟩ := Option.map_eq_some_iff.mp h
    rw [loadCredential_canonical hcanonical] at hcredential
    refine ⟨fun s hs => ?_, fun t ht => ⟨Option.some_ne_none provider, ?_⟩⟩
    · obtain rfl := Option.some.inj hs
      exact hcanonical
    · -- the older token is the origin's own, or there is none
      have hold : (if raw.server = some origin then raw.token else none) = loaded.token := by
        rw [htoken]
        rcases hraw.token with hnone | hlegacy
        · rw [hnone, ite_self]
        · exact if_pos hlegacy
      simp only [configuredToken, urls.canonical_self _ _ hcanonical, Option.bind_some,
        hcredential, hold]
      exact ht

end Tokens

theorem LocalProject.At.congr {urls : Urls} {origin : String} {remotes : Remotes}
    {p q : LocalProject Oid} (h : p.At urls origin remotes) (hhome : q.home = p.home) :
    q.At urls origin remotes := by
  have hservice : q.service = p.service := congrArg (·.1) hhome
  have hremote : remotes.of q = remotes.of p := by
    rw [Remotes.of, Remotes.of, show q.localPath = p.localPath from congrArg (·.2.1) hhome,
      show q.remoteName = p.remoteName from congrArg (·.2.2) hhome]
  exact ⟨fun s hs => h.service s (hservice ▸ hs), hremote ▸ h.remote⟩

theorem record_of_address {remotes : Remotes} {d : Delivery Oid} {a : Address Oid}
    (h : d.address remotes = some a) : d.record = some a.project ∧
      ((remotes.of a.project).url = some a.url ∨ (remotes.of a.project).pushes = some a.url ∨
        a.project.service = some a.url) := by
  cases d with
  | projected b p project | delivered b p project =>
    obtain ⟨url, hurl, rfl⟩ := Option.map_eq_some_iff.mp h
    exact ⟨rfl, Or.inl hurl⟩
  | validated b p project =>
    obtain ⟨url, hurl, rfl⟩ := Option.map_eq_some_iff.mp h
    exact ⟨rfl, Or.inr (Or.inl hurl)⟩
  | confirmed b p project head =>
    obtain ⟨service, hservice, rfl⟩ := Option.map_eq_some_iff.mp h
    exact ⟨rfl, Or.inr (Or.inr hservice)⟩
  | _ => cases h

namespace ServiceWorld

variable {urls : Urls} {origin : String} {w w' : ServiceWorld Oid Task}

/-- A project of the provider, asked for with the origin's own server. -/
theorem Serves.own (h : w.Serves urls origin) (hserver : w.config.server ≠ none)
    {p : LocalProject Oid} (hservice : ∀ s ∈ p.service, urls.canonical s = some origin) :
    ∃ provider, w.serviceOf p = some provider ∧ urls.canonical provider = some origin := by
  unfold serviceOf
  cases hp : p.service with
  | some s => exact ⟨s, rfl, hservice s hp⟩
  | none =>
    obtain ⟨server, hs⟩ := Option.ne_none_iff_exists'.mp hserver
    exact ⟨server, hs, h.server server hs⟩

theorem Serves.send_proper (h : w.Serves urls origin) {a : Address Oid}
    (hservice : ∀ s ∈ a.project.service, urls.canonical s = some origin)
    (hurl : ∀ host, urls.http a.url = some host → host = origin) :
    ∀ s ∈ w.send urls a, s.Proper := by
  intro s hs
  unfold send at hs
  split at hs
  · next token destination htoken hdestination =>
    obtain rfl := List.mem_singleton.mp hs
    obtain ⟨hserver, hstored⟩ := h.token token htoken
    obtain ⟨provider, hprovider, hcanonical⟩ := h.own hserver hservice
    constructor
    · show (w.serviceOf a.project).bind urls.http = some destination
      rw [hprovider, hurl destination hdestination]
      exact urls.http_canonical _ _ hcanonical
    · show (w.serviceOf a.project).bind (configuredToken urls w.raw w.credentials) = some token
      rw [hprovider, ← hstored]
      exact configuredToken_canonical hcanonical
  · cases hs

section Steps

variable [DecidableEq Task]

omit [DecidableEq Task] in
theorem visit_eq_some {task : Task} {host : String} {remote : List (HeartbeatProject Oid)}
    {project : LocalProject Oid} (h : w.visit task = some (host, remote, project)) :
    w.answers task = some (host, remote) ∧ project ∈ w.daemon.publish.catalog.projects := by
  unfold visit at h
  split at h
  · next hanswers _ =>
    obtain ⟨p, hp, heq⟩ := Option.map_eq_some_iff.mp h
    obtain ⟨rfl, hrest⟩ := Prod.mk.inj heq
    obtain ⟨rfl, rfl⟩ := Prod.mk.inj hrest
    exact ⟨hanswers, findProject_mem hp⟩
  · cases h

/-- Every request of a step is for a project of the provider, and goes to its origin. -/
theorem Serves.addresses (h : w.Serves urls origin) {e : ServiceEvent Oid Task} :
    ∀ a ∈ w.addresses e, (∀ s ∈ a.project.service, urls.canonical s = some origin) ∧
      ∀ host, urls.http a.url = some host → host = origin := by
  have hcatalog : ∀ p ∈ w.daemon.publish.catalog.projects, p.At urls origin w.remotes :=
    fun p hp => h.held p (Or.inl hp)
  intro a ha
  cases e with
  | heartbeat task answer =>
    simp only [ServiceWorld.addresses] at ha
    split at ha
    · next server hserver _ =>
      -- one heartbeat for all records of the catalog
      obtain ⟨p, hp, rfl⟩ := List.mem_map.mp ha
      refine ⟨(hcatalog p hp).service, fun host hhost => ?_⟩
      have hown := urls.http_canonical _ _ (h.server server hserver)
      exact Option.some.inj (hhost.symm.trans hown)
    · cases ha
  | refreshHead task failure =>
    simp only [ServiceWorld.addresses] at ha
    split at ha
    · next host remote project hvisit =>
      have hat := hcatalog project (visit_eq_some hvisit).2
      split at ha
      · cases ha
      · obtain ⟨url, hurl, rfl⟩ := List.mem_map.mp ha
        exact ⟨hat.service, hat.remote url (Or.inl (Option.mem_toList.mp hurl))⟩
    · cases ha
  | daemon e =>
    cases e with
    | reconcile task e => cases ha
    | publish e =>
      cases e with
      | deliver e =>
        simp only [ServiceWorld.addresses] at ha
        split at ha
        · obtain ⟨hrecord, hurl⟩ := record_of_address (Option.mem_toList.mp ha)
          have hat := h.held a.project (Or.inr (Or.inl (Or.inr hrecord)))
          refine ⟨hat.service, fun host hhost => ?_⟩
          -- fetch and push go to the remote, the acknowledgement to the service
          rcases hurl with hurl | hurl | hservice
          · exact hat.remote a.url (Or.inl hurl) host hhost
          · exact hat.remote a.url (Or.inr hurl) host hhost
          · have hown := urls.http_canonical _ _ (hat.service a.url hservice)
            exact Option.some.inj (hhost.symm.trans hown)
        · cases ha
      | _ => cases ha
  | _ => cases ha

omit [DecidableEq Task] in
/-- Only the provider's own answer marks a project. -/
theorem Serves.losses (h : w.Serves urls origin) {e : ServiceEvent Oid Task} :
    ∀ l ∈ w.losses e, w.own urls l.1 = some l.2 := by
  intro l hl
  cases e with
  | refreshHead task failure =>
    simp only [ServiceWorld.losses] at hl
    split at hl
    · next host remote project hvisit =>
      obtain ⟨hanswers, hproject⟩ := visit_eq_some hvisit
      obtain ⟨rfl, hserver⟩ := h.answers task host remote hanswers
      split at hl
      · obtain rfl := List.mem_singleton.mp hl
        obtain ⟨provider, hprovider, hcanonical⟩ :=
          h.own hserver (h.held project (Or.inl hproject)).service
        show (w.serviceOf project).bind urls.http = some host
        rw [hprovider]
        exact urls.http_canonical _ _ hcanonical
      · cases hl
    · cases hl
  | _ => cases hl

variable [DecidableEq Oid] {G : CommitGraph Oid}

/-- What the daemon holds after one of its steps is where it was before. -/
theorem Serves.held_of_step (h : w.Serves urls origin) {e : DaemonEvent Oid Task}
    {daemon : DaemonWorld Oid Task} (hs : w.daemon.step G e = some daemon)
    {q : LocalProject Oid} (hq : q ∈ daemon.publish.catalog.projects ∨ daemon.Uses q) :
    q.At urls origin w.remotes := by
  rcases hq with hq | hq
  · obtain ⟨i, hi⟩ := List.mem_iff_getElem?.mp hq
    obtain ⟨p, hp, hrecord⟩ :=
      (DaemonWorld.step_writes hs).record_back (fun _ p => .keeps (KeepsResult.refl p)) hi
    exact (h.held p (Or.inl (List.mem_of_getElem? hp))).congr hrecord.home
  · rcases DaemonWorld.uses_of_step hs hq with hq | hq
    · exact h.held q (Or.inr hq)
    · exact h.held q (Or.inl hq)

/-- A step of the daemon is taken as it is, or it is a start. -/
theorem next_daemon {e : DaemonEvent Oid Task} (h : w.next urls G (.daemon e) = some w') :
    ∃ daemon, w.daemon.step G e = some daemon ∧
      (w' = { w with daemon := daemon } ∨
        ∃ config, resolvedConfig urls w.raw w.credentials = some config ∧
          w' = { w with
            config := config,
            daemon := daemon.setPublish { daemon.publish with token := config.token.isSome },
            answers := fun _ => none }) := by
  have htaken : ∀ {e : DaemonEvent Oid Task}, ((w.daemon.step G e).map fun daemon =>
      ({ w with daemon := daemon } : ServiceWorld Oid Task)) = some w' →
        ∃ daemon, w.daemon.step G e = some daemon ∧ w' = { w with daemon := daemon } := by
    intro e he
    obtain ⟨daemon, hdaemon, rfl⟩ := Option.map_eq_some_iff.mp he
    exact ⟨daemon, hdaemon, rfl⟩
  have hplain : ∀ {e : DaemonEvent Oid Task}, ((w.daemon.step G e).map fun daemon =>
      ({ w with daemon := daemon } : ServiceWorld Oid Task)) = some w' →
        ∃ daemon, w.daemon.step G e = some daemon ∧
          (w' = { w with daemon := daemon } ∨
            ∃ config, resolvedConfig urls w.raw w.credentials = some config ∧
              w' = { w with
                config := config,
                daemon := daemon.setPublish { daemon.publish with token := config.token.isSome },
                answers := fun _ => none }) := by
    intro e he
    obtain ⟨daemon, hdaemon, hsame⟩ := htaken he
    exact ⟨daemon, hdaemon, Or.inl hsame⟩
  cases e with
  | reconcile task e => exact hplain h
  | publish e =>
    cases e with
    | restart =>
      obtain ⟨config, hconfig, h⟩ := Option.bind_eq_some_iff.mp h
      obtain ⟨daemon, hdaemon, rfl⟩ := Option.map_eq_some_iff.mp h
      exact ⟨daemon, hdaemon, Or.inr ⟨config, hconfig, rfl⟩⟩
    | call task e =>
      cases e with
      | refreshBranch name =>
        simp only [next] at h
        split at h
        · exact hplain h
        · cases h
      | refreshHead answer => cases h
      | _ => exact hplain h
    | _ => exact hplain h

theorem Serves.next (h : w.Serves urls origin) {e : ServiceEvent Oid Task}
    (hok : w.OneProvider urls origin e) (hs : w.next urls G e = some w') :
    w'.Serves urls origin := by
  cases e with
  | configure raw credentials =>
    obtain rfl := Option.some.inj hs
    refine ⟨hok.1, h.server, fun t ht => ?_, h.answers, h.held⟩
    obtain ⟨hserver, htoken⟩ := h.token t ht
    exact ⟨hserver, (hok.2 (Option.isSome_iff_exists.mpr ⟨t, ht⟩)).trans htoken⟩
  | setUrl path name remote heads =>
    obtain rfl := Option.some.inj hs
    refine ⟨h.raw, h.server, h.token, h.answers, fun p hp => ?_⟩
    have hheld : w.Holds p := hp
    have hat := h.held p hheld
    -- only the remote with this name in this checkout is another one now
    refine ⟨hat.service, ?_⟩
    show (Function.update w.remotes path (Function.update (w.remotes path) name remote) p.localPath
      p.remoteName).At urls origin
    by_cases hpath : p.localPath = path
    · rw [hpath, Function.update_self]
      by_cases hname : p.remoteName = name
      · rw [hname, Function.update_self]
        exact hok p hheld hpath hname
      · rw [Function.update_of_ne hname, ← hpath]
        exact hat.remote
    · rw [Function.update_of_ne hpath]
      exact hat.remote
  | register project generation =>
    obtain rfl := Option.some.inj hs
    refine ⟨h.raw, h.server, h.token, h.answers, fun p hp => ?_⟩
    rcases hp with hp | hp
    · rcases mem_registerProject hp with rfl | ⟨hp, -⟩
      · exact hok
      · exact h.held p (Or.inl hp)
    · exact h.held p (Or.inr hp)
  | reload catalog =>
    obtain rfl := Option.some.inj hs
    refine ⟨h.raw, h.server, h.token, h.answers, fun p hp => ?_⟩
    rcases hp with hp | hp
    · exact hok p hp
    · exact h.held p (Or.inr hp)
  | heartbeat task answer =>
    simp only [ServiceWorld.next] at hs
    split at hs
    · next server token hserver _ _ =>
      obtain ⟨host, hhost, rfl⟩ := Option.map_eq_some_iff.mp hs
      refine ⟨h.raw, h.server, h.token, fun t host' remote hanswer => ?_, h.held⟩
      dsimp only at hanswer
      by_cases ht : t = task
      · rw [ht, Function.update_self] at hanswer
        obtain ⟨found, -, heq⟩ := Option.map_eq_some_iff.mp hanswer
        obtain ⟨rfl, -⟩ := Prod.mk.inj heq
        have hown := urls.http_canonical _ _ (h.server server hserver)
        refine ⟨Option.some.inj (hhost.symm.trans hown), ?_⟩
        show w.config.server ≠ none
        rw [hserver]
        exact Option.some_ne_none server
      · rw [Function.update_of_ne ht] at hanswer
        exact h.answers t host' remote hanswer
    · cases hs
  | refreshHead task failure =>
    simp only [ServiceWorld.next] at hs
    split at hs
    · obtain ⟨daemon, hdaemon, rfl⟩ := Option.map_eq_some_iff.mp hs
      exact ⟨h.raw, h.server, h.token, h.answers, fun p hp => h.held_of_step hdaemon hp⟩
    · cases hs
  | daemon e =>
    obtain ⟨daemon, hdaemon, rfl | ⟨config, hconfig, rfl⟩⟩ := next_daemon hs
    · exact ⟨h.raw, h.server, h.token, h.answers, fun p hp => h.held_of_step hdaemon hp⟩
    -- a start reads the configuration anew
    · obtain ⟨hserver, htoken⟩ := h.raw.resolved hconfig
      refine ⟨h.raw, hserver, htoken, fun _ _ _ hanswer => ?_, fun p hp => ?_⟩
      · cases hanswer
      · exact h.held_of_step hdaemon hp

/-- One step makes right requests and right marks. -/
theorem Serves.step (h : w.Serves urls origin ∧ w.Separate) {e : ServiceEvent Oid Task}
    (hok : w.OneProvider urls origin e) (hs : w.step urls G e = some w') :
    w'.Serves urls origin ∧ w'.Separate := by
  obtain ⟨v, hv, rfl⟩ := Option.map_eq_some_iff.mp hs
  obtain ⟨h, hseparate⟩ := h
  have hnext := h.next hok hv
  refine ⟨⟨hnext.raw, hnext.server, hnext.token, hnext.answers, hnext.held⟩,
    fun s hmem => ?_, fun m hm => ?_⟩
  · rcases List.mem_append.mp hmem with hmem | hmem
    · exact hseparate.1 s hmem
    · obtain ⟨a, ha, hmem⟩ := List.mem_flatMap.mp hmem
      obtain ⟨hservice, hurl⟩ := h.addresses a ha
      exact h.send_proper hservice hurl s hmem
  · rcases List.mem_append.mp hm with hm | hm
    · exact hseparate.2 m hm
    · obtain ⟨l, hl, rfl⟩ := List.mem_map.mp hm
      exact h.losses l hl

end Steps

end ServiceWorld

section TwoServices

/-- Three URLs and their origins. -/
def twoOrigins : Urls where
  canonical url :=
    if url = "https://a.example" ∨ url = "https://b.example" then some url else none
  http url :=
    if url = "https://a.example" ∨ url = "https://b.example" then some url
    else if url = "https://b.example/git/prj" then some "https://b.example"
    else none
  canonical_self url origin h := by
    by_cases hurl : url = "https://a.example" ∨ url = "https://b.example"
    · rw [if_pos hurl] at h
      obtain rfl := Option.some.inj h
      exact if_pos hurl
    · rw [if_neg hurl] at h
      cases h
  http_canonical url origin h := by
    by_cases hurl : url = "https://a.example" ∨ url = "https://b.example"
    · rw [if_pos hurl] at h
      obtain rfl := Option.some.inj h
      exact if_pos hurl
    · rw [if_neg hurl] at h
      cases h

/-- The device is registered with two services. -/
def twoCredentials : Credentials where
  helper _ := some none
  token := none
  provider := none
  file := some fun origin =>
    if origin = "https://a.example" then some "token of a"
    else if origin = "https://b.example" then some "token of b"
    else none

/-- The last login was at `a`. -/
def activeA : Config := ⟨some "https://a.example", none, none⟩

def daemonOfA : Config := ⟨some "https://a.example", some "https://a.example", some "token of a"⟩

/-- A project of `b`, with a commit that waits for its delivery. -/
def projectOfB : PublishWorld ℕ (Fin 2) :=
  { currentMain with
    catalog := ⟨0, [{ currentProject with
      remoteUrl := "https://b.example/git/prj", service := some "https://b.example" }]⟩
    queue := [.new "pub" 5 "prj" none "main" 3 (some 1)] }

/-- The remote of the checkout is at `b`. -/
def remoteAtB : Remotes := fun _ _ => ⟨some "https://b.example/git/prj", none⟩

/-- A refresh with the answer to its heartbeat, and a delivery up to its first fetch. -/
def refreshAndDeliver (task : Fin 2) (answer : List (HeartbeatProject ℕ)) :
    List (ServiceEvent ℕ (Fin 2)) :=
  [.heartbeat task (some answer), .daemon (.publish (.call task (.refreshBranch "prj"))),
    .refreshHead task none] ++
    [.start true 6, .next, .load, .project, .fetch].map fun e => .daemon (.publish (.deliver e))

/-- The last login was at `b`. -/
def activeB : Config := ⟨some "https://b.example", none, none⟩

def daemonOfB : Config := ⟨some "https://b.example", some "https://b.example", some "token of b"⟩

theorem activeB_for : activeB.For twoOrigins "https://b.example" := by
  refine ⟨fun config hconfig provider hprovider => ?_, Or.inl rfl⟩
  obtain rfl := Option.some.inj hconfig
  obtain rfl := Option.some.inj hprovider
  rfl

theorem remoteAtB_at : Remote.At twoOrigins "https://b.example"
    ⟨some "https://b.example/git/prj", none⟩ := by
  intro url hurl host hhost
  have hsame : url = "https://b.example/git/prj" := by
    rcases hurl with hurl | hurl
    · exact (Option.some.inj hurl).symm
    · exact (Option.some.inj hurl).symm
  rw [hsame] at hhost
  exact (Option.some.inj hhost).symm

/-- The catalog is all of `b`, but the remote of the checkout has been set to a URL at `a`. -/
theorem token_goes_to_remote_url :
    ∃ u, Runs.run (ServiceWorld.step twoOrigins pairGraph)
        (.initial activeB twoCredentials daemonOfB remoteAtB projectOfB)
        (.setUrl "/work" "resync" ⟨some "https://a.example", none⟩ (fun _ => none) ::
          refreshAndDeliver 0 [⟨"prj", "ACTIVE", some 3, 1⟩]) = some u ∧
      ⟨.fetch, "prj", "https://a.example", "token of b", some "https://b.example",
        some "token of b"⟩ ∈ u.sent := by
  decide +kernel

end TwoServices

end Resync
