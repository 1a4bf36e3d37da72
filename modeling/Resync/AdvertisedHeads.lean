import Resync.HostedForward
import Resync.DaemonSteps

/-! `advertised_heads` and the fetches behind it (`daemon.rs`, `remote.rs`).
`fetch_remote_branch` is two commands, `git fetch` and `rev-parse` of the
tracking ref, and other processes act between them. A refresh falls back to the
head of the heartbeat, and a completion takes the head of the acknowledgement. -/
namespace Resync

variable {Oid Task : Type}

/-- `tracking` are the refs `refs/remotes/<remote>/<branch>` of the checkouts. A
refresh and the delivery note what the `git fetch` under way has found, and
`found` is what the last fetch of the delivery has found. `fetched`, by the
position of a project in the catalog, only looks back: what the fetch of the
operation that has stored the head of a branch had found. -/
structure AdvertisingWorld (Oid Task : Type) where
  publish : PublishWorld Oid Task
  tracking : String → String → Branch → Option Oid
  refreshFetch : Task → Option (Option Oid)
  deliveryFetch : Option (Option Oid)
  found : Option Oid
  fetched : ℕ → Branch → Option (Option Oid)

inductive AdvertisingEvent (Oid Task : Type) where
  | publish (e : PublishEvent Oid Task)
  /-- Another process fetches into the checkout. -/
  | setTracking (path remote : String) (branch : Branch) (head : Option Oid)
  /-- The `git fetch` of a refresh. `deleted` is whether `update-ref -d` removes
  the tracking ref of a branch that is not hosted. -/
  | refreshFetch (task : Task) (deleted : Bool)
  /-- The refresh resolves the tracking ref and stores a head; the heartbeat has
  answered `head`. -/
  | refreshStore (task : Task) (generation : ℕ) (head : Option Oid)
  | deliveryFetch (deleted : Bool)
  | deliveryResolve

/-- The fetch that a place of the delivery waits for. -/
def Delivery.fetching : Delivery Oid → Option (LocalProject Oid × Branch)
  | .projected _ p project => some (project, p.branch)
  | .delivered _ p project => some (project, p.branch)
  | _ => none

/-- The head that a place of the delivery holds is the one that the last fetch has
found. -/
def Delivery.Holds (found : Option Oid) : Delivery Oid → Prop
  | .behind _ _ _ remoteHead => remoteHead = found
  | .confirmed _ _ _ head => found = some head
  | .acked _ _ ack => found = some ack.remoteHead
  | .completing _ _ ack _ _ => found = some ack.remoteHead
  | _ => True

namespace AdvertisingWorld

/-- Nothing is under way, and nothing was stored. -/
def initial (publish : PublishWorld Oid Task) (tracking : String → String → Branch → Option Oid) :
    AdvertisingWorld Oid Task :=
  ⟨publish, tracking, fun _ => none, none, none, fun _ _ => none⟩

/-- The project that a refresh fetches, and the branch. -/
def refreshing (w : AdvertisingWorld Oid Task) (task : Task) :
    Option (String × LocalProject Oid × Branch) :=
  match w.publish.calls task with
  | .refreshing name b => (findProject w.publish.catalog name).map fun p => (name, p, b)
  | _ => none

def setTracking (w : AdvertisingWorld Oid Task) (path remote : String) (b : Branch)
    (head : Option Oid) : AdvertisingWorld Oid Task :=
  { w with
    tracking := Function.update w.tracking path (Function.update (w.tracking path) remote
      (Function.update (w.tracking path remote) b head)) }

/-- The `git fetch` of `fetch_remote_branch`. -/
def fetch (w : AdvertisingWorld Oid Task) (project : LocalProject Oid) (b : Branch)
    (deleted : Bool) : AdvertisingWorld Oid Task :=
  match w.publish.hosted project.remoteUrl b with
  | some c => w.setTracking project.localPath project.remoteName b (some c)
  | none =>
    if deleted then w.setTracking project.localPath project.remoteName b none else w

/-- The end of `fetch_remote_branch`: a branch that was not found is not resolved. -/
def resolved (w : AdvertisingWorld Oid Task) (project : LocalProject Oid) (b : Branch)
    (found : Option Oid) : Option Oid :=
  found.bind fun _ => w.tracking project.localPath project.remoteName b

/-- An operation stores the head of a branch. -/
def store (w : AdvertisingWorld Oid Task) (name : String) (b : Branch) (found : Option Oid) :
    AdvertisingWorld Oid Task :=
  match w.publish.catalog.projects.findIdx? (·.named name) with
  | some i => { w with
      fetched := Function.update w.fetched i (Function.update (w.fetched i) b (some found)) }
  | none => w

/-- The project and the branch whose head a step of the delivery has stored. -/
def storing (w w' : PublishWorld Oid Task) : DeliveryEvent Oid → Option (String × Branch)
  | .checkBranch =>
    match w'.delivery with
    | .reconciling _ p _ => some (p.projectId, p.branch)
    | _ => none
  | .recordCompletion =>
    match w.delivery, w'.delivery with
    | .completing _ p _ _ _, .deleting _ _ _ => some (p.projectId, p.branch)
    | _, _ => none
  | _ => none

def setPublish (w : AdvertisingWorld Oid Task) (publish : PublishWorld Oid Task) :
    AdvertisingWorld Oid Task :=
  { w with publish := publish }

/-- The delivery has made a step; what it stores, its last fetch has found. -/
def delivered (w : AdvertisingWorld Oid Task) (publish : PublishWorld Oid Task)
    (e : DeliveryEvent Oid) : AdvertisingWorld Oid Task :=
  match storing w.publish publish e with
  | some r => (w.setPublish publish).store r.1 r.2 w.found
  | none => w.setPublish publish

section Steps

variable [DecidableEq Oid] [DecidableEq Task] (G : CommitGraph Oid)

/-- The daemon as it is when a fetch has answered. -/
def seeing (w : AdvertisingWorld Oid Task) (project : LocalProject Oid) (b : Branch)
    (answer : Option Oid) : PublishWorld Oid Task :=
  { w.publish with
    hosted := Function.update w.publish.hosted project.remoteUrl
      (Function.update (w.publish.hosted project.remoteUrl) b answer) }

/-- The step of the daemon that goes on with the answer of a fetch. -/
def answering (w : AdvertisingWorld Oid Task) (project : LocalProject Oid) (b : Branch)
    (answer : Option Oid) (e : PublishEvent Oid Task) : Option (PublishWorld Oid Task) :=
  ((w.seeing project b answer).step G e).map fun publish =>
    { publish with hosted := w.publish.hosted }

/-- A step without a fetch of its own. The rest of the daemon does not write
`advertised_heads`. -/
def publishes (w : AdvertisingWorld Oid Task) (e : PublishEvent Oid Task) :
    Option (AdvertisingWorld Oid Task) :=
  match e with
  | .call task (.refreshHead answer) =>
    match answer with
    -- A refresh that is online goes through `refreshFetch` and `refreshStore`.
    | .online .. => none
    | _ => (w.publish.step G e).map fun publish =>
      { w with publish := publish, refreshFetch := Function.update w.refreshFetch task none }
  | .deliver d =>
    match d with
    -- These two fetch, and go through `deliveryFetch` and `deliveryResolve`.
    | .fetch => none
    | .confirm => none
    | .fail _ => (w.publish.step G e).map fun publish =>
      { w with publish := publish, deliveryFetch := none }
    | d => (w.publish.step G e).map fun publish => w.delivered publish d
  | .writeProject name record =>
    -- The record keeps the heads that the catalog has for the project.
    match findProject w.publish.catalog name with
    | some project =>
      (w.publish.step G (.writeProject name
        { record with advertisedHeads := project.advertisedHeads })).map w.setPublish
    | none => none
  | .restart => (w.publish.step G e).map fun publish =>
    { w with publish := publish, refreshFetch := fun _ => none, deliveryFetch := none }
  | e => (w.publish.step G e).map w.setPublish

def step (w : AdvertisingWorld Oid Task) :
    AdvertisingEvent Oid Task → Option (AdvertisingWorld Oid Task)
  | .publish e => w.publishes G e
  | .setTracking path remote b head => some (w.setTracking path remote b head)
  | .refreshFetch task deleted =>
    match w.refreshFetch task, w.refreshing task with
    | none, some (_, project, b) =>
      let found := w.publish.hosted project.remoteUrl b
      some { w.fetch project b deleted with
        refreshFetch := Function.update w.refreshFetch task (some found) }
    | _, _ => none
  | .refreshStore task generation head =>
    match w.refreshFetch task, w.refreshing task with
    | some found, some (name, project, b) =>
      (w.answering G project b (w.resolved project b found)
        (.call task (.refreshHead (.online generation head)))).map fun publish =>
          { (w.setPublish publish).store name b found with
            refreshFetch := Function.update w.refreshFetch task none }
    | _, _ => none
  | .deliveryFetch deleted =>
    match w.deliveryFetch, w.publish.delivery.fetching with
    | none, some (project, b) => some { w.fetch project b deleted with
        deliveryFetch := some (w.publish.hosted project.remoteUrl b) }
    | _, _ => none
  | .deliveryResolve =>
    match w.deliveryFetch, w.publish.delivery with
    | some found, .projected _ p project =>
      (w.answering G project p.branch (w.resolved project p.branch found)
        (.deliver .fetch)).map fun publish =>
          { w with publish := publish, deliveryFetch := none, found := found }
    | some found, .delivered _ p project =>
      (w.answering G project p.branch (w.resolved project p.branch found)
        (.deliver .confirm)).map fun publish =>
          { w with publish := publish, deliveryFetch := none, found := found }
    | _, _ => none

/-- The end of a `git fetch` whose answer is resolved. -/
structure BranchFetch (Oid : Type) where
  project : LocalProject Oid
  branch : Branch
  found : Option Oid

/-- The fetch that a step resolves. -/
def resolving (w : AdvertisingWorld Oid Task) :
    AdvertisingEvent Oid Task → Option (BranchFetch Oid)
  | .refreshStore task _ _ =>
    (w.refreshFetch task).bind fun found =>
      (w.refreshing task).map fun r => ⟨r.2.1, r.2.2, found⟩
  | .deliveryResolve =>
    w.deliveryFetch.bind fun found =>
      w.publish.delivery.fetching.map fun r => ⟨r.1, r.2, found⟩
  | _ => none

/-- The head of the heartbeat, for a branch that the refresh has not found. -/
def hint (w : AdvertisingWorld Oid Task) : AdvertisingEvent Oid Task → Option Oid
  | .refreshStore task _ head => if (w.refreshFetch task).any (·.isNone) then head else none
  | _ => none

/-- The head that an accepted acknowledgement names, and the one that the delivery
has confirmed. -/
def answered (w : AdvertisingWorld Oid Task) :
    AdvertisingEvent Oid Task → Option (Oid × Oid)
  | .publish (.deliver (.acknowledge now (.acknowledged ack))) =>
    match w.publish.delivery with
    | .confirmed _ p project head =>
      if (project.service.isSome && w.publish.token) &&
          ({ p with lastAttemptAt := some now } : Publication Oid).accepts ack then
        some (ack.remoteHead, head)
      else none
    | _ => none
  | _ => none

/-- The tracking ref is resolved where the fetch has left it, the heartbeat names
no head of a branch that is not hosted, and the acknowledgement names the head
that was confirmed. -/
def Verified (w : AdvertisingWorld Oid Task)
    (e : AdvertisingEvent Oid Task) : Prop :=
  (∀ r ∈ w.resolving e, ∀ c ∈ r.found,
    w.tracking r.project.localPath r.project.remoteName r.branch = some c) ∧
  w.hint e = none ∧
  ∀ a ∈ w.answered e, a.1 = a.2

instance (w : AdvertisingWorld Oid Task) (e : AdvertisingEvent Oid Task) :
    Decidable (w.Verified e) :=
  inferInstanceAs (Decidable (_ ∧ _ ∧ _))

/-- Every head in the map is the one that the fetch of its operation has found, and
it is absent when that fetch has found none. -/
def HeadsAreFetched (w : AdvertisingWorld Oid Task) : Prop :=
  ∀ i p b found, w.publish.catalog.projects[i]? = some p → w.fetched i b = some found →
    p.advertisedHeads b = found

/-- What the verified steps keep. -/
structure Sound (w : AdvertisingWorld Oid Task) : Prop where
  heads : w.HeadsAreFetched
  delivery : w.publish.delivery.Holds w.found

end Steps

open PublishWorld

variable {w : AdvertisingWorld Oid Task} {publish : PublishWorld Oid Task}

section Stores

theorem store_publish (w : AdvertisingWorld Oid Task) (name : String) (b : Branch)
    (found : Option Oid) : (w.store name b found).publish = w.publish := by
  unfold store
  split <;> rfl

theorem store_found (w : AdvertisingWorld Oid Task) (name : String) (b : Branch)
    (found : Option Oid) : (w.store name b found).found = w.found := by
  unfold store
  split <;> rfl

/-- A step that stores no head. -/
theorem HeadsAreFetched.write (h : w.HeadsAreFetched)
    {R : ℕ → LocalProject Oid → LocalProject Oid → Prop}
    (hw : Writes R w.publish.catalog publish.catalog) (hrefl : ∀ i p, R i p p)
    (hR : ∀ i p q, R i p q → q.advertisedHeads = p.advertisedHeads) :
    (w.setPublish publish).HeadsAreFetched := by
  intro i q b found hq hfound
  obtain ⟨p, hp, hr⟩ := hw.record_back hrefl hq
  rw [hR i p q hr]
  exact h i p b found hp hfound

/-- A step that stores the head that its fetch has found. -/
theorem HeadsAreFetched.store (h : w.HeadsAreFetched) {name : String}
    {f : LocalProject Oid → LocalProject Oid} {b : Branch} {found : Option Oid}
    (hcatalog : publish.catalog = updateProject w.publish.catalog name f)
    (hid : ∀ p, findProject w.publish.catalog name = some p → (f p).identity = p.identity)
    (hf : ∀ p, findProject w.publish.catalog name = some p →
      (f p).advertisedHeads = Function.update p.advertisedHeads b found) :
    ((w.setPublish publish).store name b found).HeadsAreFetched := by
  have hw : Writes (fun _ p q => q.identity = p.identity) w.publish.catalog publish.catalog :=
    Or.inr ⟨name, f, hcatalog, fun i p hi hp => hid p (findProject_of_position hi hp)⟩
  have hposition : publish.catalog.projects.findIdx? (·.named name) =
      w.publish.catalog.projects.findIdx? (·.named name) := hw.position (fun _ _ _ hi => hi) name
  intro i q b' found' hq hfound
  rw [store_publish] at hq
  obtain ⟨p, hp, -⟩ := hw.record_back (fun _ _ => rfl) hq
  have hrecord : (updateProject w.publish.catalog name f).projects[i]? =
      some (if w.publish.catalog.projects.findIdx? (·.named name) = some i then f p else p) :=
    record_updateProject hp
  rw [← hcatalog] at hrecord
  have hq' : q = if w.publish.catalog.projects.findIdx? (·.named name) = some i then f p else p :=
    Option.some.inj (hq.symm.trans hrecord)
  unfold AdvertisingWorld.store at hfound
  rw [show (w.setPublish publish).publish = publish from rfl, hposition] at hfound
  by_cases hi : w.publish.catalog.projects.findIdx? (·.named name) = some i
  · rw [if_pos hi] at hq'
    rw [hi] at hfound
    rw [hq', hf p (findProject_of_position hi hp)]
    change Function.update w.fetched i (Function.update (w.fetched i) b (some found)) i b' =
      some found' at hfound
    rw [Function.update_self] at hfound
    by_cases hb : b' = b
    · subst hb
      rw [Function.update_self] at hfound ⊢
      exact Option.some.inj hfound
    · rw [Function.update_of_ne hb] at hfound ⊢
      exact h i p b' found' hp hfound
  · rw [if_neg hi] at hq'
    rw [hq']
    -- the store is at another position, or the name is not in the catalog
    refine h i p b' found' hp ?_
    split at hfound
    · next j hj =>
      have hne : i ≠ j := fun hij => hi (hij ▸ hj)
      exact (congrFun (Function.update_of_ne hne _ _) b').symm.trans hfound
    · exact hfound

/-- The answer is what the fetch has found, unless the tracking ref was moved. -/
theorem resolved_eq {project : LocalProject Oid} {b : Branch} {found : Option Oid}
    (h : ∀ c ∈ found, w.tracking project.localPath project.remoteName b = some c) :
    w.resolved project b found = found := by
  cases found with
  | none => rfl
  | some c => exact h c rfl

theorem Sound.fetch (h : w.Sound) (project : LocalProject Oid) (b : Branch) (deleted : Bool) :
    (w.fetch project b deleted).Sound := by
  unfold AdvertisingWorld.fetch
  split
  · exact ⟨h.heads, h.delivery⟩
  · split
    · exact ⟨h.heads, h.delivery⟩
    · exact h

theorem sound_initial (publish : PublishWorld Oid Task)
    (tracking : String → String → Branch → Option Oid) (hdelivery : publish.delivery = .idle) :
    (initial publish tracking).Sound where
  heads i p b found _ hfound := by cases hfound
  delivery := by
    change publish.delivery.Holds none
    rw [hdelivery]
    trivial

end Stores

section Runs

variable [DecidableEq Oid] {G : CommitGraph Oid}

theorem refreshed_advertisedHeads (p : LocalProject Oid) (b : Branch) (c : Oid) :
    (refreshed G p b c).1.advertisedHeads = p.advertisedHeads := by
  unfold refreshed
  split
  · rfl
  · split
    · rfl
    · split
      · rfl
      · split <;> rfl

/-- A refresh stores what its fetch answers, or else the head of the heartbeat. -/
theorem refreshRecord_online (w : PublishWorld Oid Task) (b : Branch) (generation : ℕ)
    (head : Option Oid) (p : LocalProject Oid) :
    (refreshRecord G w b (.online generation head) p).advertisedHeads =
      Function.update p.advertisedHeads b ((w.hosted p.remoteUrl b).or head) := by
  simp only [refreshRecord]
  split
  · rfl
  · next localHead _ =>
    have hsame := refreshed_advertisedHeads (G := G) (w.advertise p b generation head) b localHead
    split
    · exact hsame
    · exact hsame

/-- A refresh that does not get that far leaves the heads. -/
theorem refreshRecord_heads (w : PublishWorld Oid Task) (b : Branch) {answer : RefreshAnswer Oid}
    (h : ∀ generation head, answer ≠ .online generation head) (p : LocalProject Oid) :
    (refreshRecord G w b answer p).advertisedHeads = p.advertisedHeads := by
  cases answer with
  | accessLost error => rfl
  | offline generation error => rfl
  | online generation head => exact absurd rfl (h generation head)

/-- The delivery comes to hold a head by its fetches, and by the answer of the
provider. -/
theorem deliver_holds {w w' : PublishWorld Oid Task} {e : DeliveryEvent Oid} {found : Option Oid}
    (h : w.deliver G e = some w') (hfetch : e ≠ .fetch) (hconfirm : e ≠ .confirm)
    (hack : ∀ a p project head now ack, w.delivery = .confirmed a p project head →
      e = .acknowledge now (.acknowledged ack) → (project.service.isSome && w.token) = true →
      ({ p with lastAttemptAt := some now } : Publication Oid).accepts ack = true →
        ack.remoteHead = head)
    (hholds : w.delivery.Holds found) : w'.delivery.Holds found := by
  cases deliveryStep_of_deliver h with
  | fetchesCandidate | fetchesExpected | fetchesOther => exact absurd rfl hfetch
  | missesBranch | confirms | isUnreachable => exact absurd rfl hconfirm
  | @acknowledges a p project head now ack place service accepts =>
    rw [place] at hholds
    have hfound : found = some head := hholds
    have hsame := hack a p project head now ack place rfl service accepts
    exact hfound.trans (congrArg some hsame.symm)
  | acknowledgesOwn place =>
    -- without a provider the delivery acknowledges the confirmed head
    rw [place] at hholds
    exact hholds
  | completes place =>
    rw [place] at hholds
    exact hholds
  | @pushes a p project answered => cases answered <;> trivial
  | _ => trivial

/-- The delivery stores a head when it hands the project over to a reconciliation,
and when it completes a publication. -/
theorem deliver_stores {u u' : PublishWorld Oid Task} {e : DeliveryEvent Oid}
    (h : u.deliver G e = some u') :
    storing u u' e = none ∧ Writes (fun _ => Notes) u.catalog u'.catalog ∨
      (∃ a p project remoteHead, storing u u' e = some (p.projectId, p.branch) ∧
        u.delivery = .behind a p project remoteHead ∧
        u'.catalog = updateProject u.catalog p.projectId (advertisedRecord p.branch remoteHead)) ∨
      ∃ a d ack completed hasPending, storing u u' e = some (d.projectId, d.branch) ∧
        u.delivery = .completing a d ack completed hasPending ∧
        u'.catalog = updateProject u.catalog d.projectId (completionRecord d ack hasPending) := by
  cases deliveryStep_of_deliver h with
  | checks place => exact Or.inr (Or.inl ⟨_, _, _, _, rfl, place, rfl⟩)
  | records place =>
    refine Or.inr (Or.inr ⟨_, _, _, _, _, ?_, place, rfl⟩)
    simp only [storing, place, setDelivery]
  | missesCompleted place =>
    refine Or.inl ⟨?_, Or.inl rfl⟩
    simp only [storing, place, setDelivery]
  | notesFailure =>
    exact Or.inl ⟨rfl, writes_updateProject fun _ p _ _ => ⟨_, _, _, rfl⟩⟩
  | _ => exact Or.inl ⟨rfl, Or.inl rfl⟩

/-- The delivery stores the head that it holds. -/
theorem Sound.deliver (h : w.Sound) {e : DeliveryEvent Oid} (hfetch : e ≠ .fetch)
    (hconfirm : e ≠ .confirm) (hv : w.Verified (.publish (.deliver e)))
    (hs : w.publish.deliver G e = some publish) : (w.delivered publish e).Sound := by
  have hholds : publish.delivery.Holds w.found := by
    apply deliver_holds hs hfetch hconfirm ?_ h.delivery
    rintro a p project head now ack hplace rfl hservice haccepts
    have hanswered : w.answered (.publish (.deliver (.acknowledge now (.acknowledged ack)))) =
        some (ack.remoteHead, head) := by
      simp only [answered, hplace, hservice, haccepts, Bool.and_self, if_true]
    exact hv.2.2 _ hanswered
  rcases deliver_stores hs with ⟨hnone, hw⟩ | ⟨a, p, project, remoteHead, hsome, hplace, hcatalog⟩ |
    ⟨a, d, ack, completed, hasPending, hsome, hplace, hcatalog⟩
  -- No head is stored.
  · rw [delivered, hnone]
    refine ⟨?_, hholds⟩
    exact h.heads.write hw (fun _ p => ⟨_, _, _, rfl⟩) fun _ _ _ hn => hn.advertisedHeads
  -- The head that the delivery has found is stored.
  · rw [delivered, hsome]
    refine ⟨?_, ?_⟩
    · have hfound : remoteHead = w.found := by
        have hplaced := h.delivery
        rw [hplace] at hplaced
        exact hplaced
      apply h.heads.store hcatalog
      · exact fun _ _ => rfl
      · intro q _
        rw [← hfound]
        rfl
    · rw [store_found, store_publish]
      exact hholds
  -- The head of the ACK is stored.
  · rw [delivered, hsome]
    refine ⟨?_, ?_⟩
    · have hfound : w.found = some ack.remoteHead := by
        have hplaced := h.delivery
        rw [hplace] at hplaced
        exact hplaced
      apply h.heads.store hcatalog
      · exact fun _ _ => rfl
      · intro q _
        rw [hfound]
        rfl
    · rw [store_found, store_publish]
      exact hholds

variable [DecidableEq Task]

/-- The step sees what the tracking ref answers. -/
theorem answering_eq_some {project : LocalProject Oid} {b : Branch} {answer : Option Oid}
    {e : PublishEvent Oid Task} (h : w.answering G project b answer e = some publish) :
    ∃ u, (w.seeing project b answer).step G e = some u ∧ u.catalog = publish.catalog ∧
      u.delivery = publish.delivery := by
  obtain ⟨u, hu, rfl⟩ := Option.map_eq_some_iff.mp h
  exact ⟨u, hu, rfl, rfl⟩

/-- The refresh stores what it has found. -/
theorem Sound.refreshStore (h : w.Sound) {task : Task} {generation : ℕ} {head found : Option Oid}
    {name : String} {project : LocalProject Oid} {b : Branch}
    (hrefreshing : w.refreshing task = some (name, project, b))
    (hresolved : w.resolved project b found = found) (hhint : found = none → head = none)
    (hs : w.answering G project b (w.resolved project b found)
      (.call task (.refreshHead (.online generation head))) = some publish) :
    ((w.setPublish publish).store name b found).Sound := by
  obtain ⟨hcall, hproject⟩ : w.publish.calls task = .refreshing name b ∧
      findProject w.publish.catalog name = some project := by
    unfold AdvertisingWorld.refreshing at hrefreshing
    split at hrefreshing
    · next hcall =>
      obtain ⟨p, hp, heq⟩ := Option.map_eq_some_iff.mp hrefreshing
      cases heq
      exact ⟨hcall, hp⟩
    · cases hrefreshing
  obtain ⟨u, hu, hcatalog, hdelivery⟩ := answering_eq_some hs
  have hstep : (w.seeing project b (w.resolved project b found)).call G task
      (.refreshHead (.online generation head)) = some u := hu
  have hcall' : (w.seeing project b (w.resolved project b found)).calls task =
      .refreshing name b := hcall
  have hsame : u.delivery = w.publish.delivery := (call_cases hstep).1.delivery
  refine ⟨?_, ?_⟩
  · rcases refreshHead_writes hcall' hstep with ⟨hnone, -⟩ | ⟨f, hwrite, hf⟩
    · have hnone : findProject w.publish.catalog name = none := hnone
      rw [hproject] at hnone
      cases hnone
    · have hf' : ∀ p, findProject w.publish.catalog name = some p → f p =
          refreshRecord G (w.seeing project b (w.resolved project b found)) b
            (.online generation head) p := hf
      apply h.heads.store (hcatalog.symm.trans hwrite)
      · intro p hp
        rw [hf' p hp]
        exact refreshRecord_identity ..
      · intro p hp
        obtain rfl := Option.some.inj (hproject.symm.trans hp)
        have hseen : (w.seeing project b (w.resolved project b found)).hosted
            project.remoteUrl b = found := by
          rw [hresolved]
          simp only [seeing, Function.update_self]
        rw [hf' project hp, refreshRecord_online, hseen]
        cases found with
        | none => rw [hhint rfl, Option.none_or]
        | some c => rfl
  · rw [store_found, store_publish]
    change publish.delivery.Holds w.found
    rw [← hdelivery, hsame]
    exact h.delivery

/-- A step of a hook or a task without a fetch stores no head. -/
theorem Sound.call (h : w.Sound) {task : Task} {e : CallEvent Oid}
    (he : ∀ generation head, e ≠ .refreshHead (.online generation head))
    (hs : w.publish.call G task e = some publish) : (w.setPublish publish).Sound := by
  have hsame : publish.delivery = w.publish.delivery := (call_cases hs).1.delivery
  refine ⟨?_, hsame ▸ h.delivery⟩
  by_cases hrefresh : ∃ answer, e = .refreshHead answer
  · obtain ⟨answer, rfl⟩ := hrefresh
    have hanswer : ∀ generation head, answer ≠ .online generation head :=
      fun generation head heq => he generation head (congrArg CallEvent.refreshHead heq)
    cases hcall : w.publish.calls task with
    | refreshing name b =>
      rcases refreshHead_writes hcall hs with ⟨-, hcatalog⟩ | ⟨f, hcatalog, hf⟩
      · exact h.heads.write (R := fun _ => Eq) (Or.inl hcatalog) (fun _ _ => rfl)
          fun _ _ _ hr => by rw [hr]
      · apply h.heads.write (R := fun _ p q => q.advertisedHeads = p.advertisedHeads)
        · refine Or.inr ⟨name, f, hcatalog, fun i p hi hp => ?_⟩
          rw [hf p (findProject_of_position hi hp)]
          exact refreshRecord_heads _ b hanswer p
        · exact fun _ _ => rfl
        · exact fun _ _ _ hr => hr
    | _ =>
      simp only [PublishWorld.call, hcall] at hs
      cases hs
  · have hw := call_writes hs fun answer heq => hrefresh ⟨answer, heq⟩
    exact h.heads.write hw (fun _ p => ⟨_, _, _, rfl⟩) fun _ _ _ hn => hn.advertisedHeads

/-- The delivery holds the head that a verified fetch has answered. -/
theorem Sound.resolve (h : w.Sound) {e : DeliveryEvent Oid} {project : LocalProject Oid}
    {b : Branch} {found : Option Oid} (he : e = .fetch ∨ e = .confirm)
    (hplace : w.publish.delivery.fetching = some (project, b))
    (hresolved : w.resolved project b found = found)
    (hs : w.answering G project b (w.resolved project b found) (.deliver e) = some publish) :
    ({ w with publish := publish, deliveryFetch := none, found := found } :
      AdvertisingWorld Oid Task).Sound := by
  obtain ⟨u, hu, hcatalog, hdelivery⟩ := answering_eq_some hs
  have hstep : (w.seeing project b found).deliver G e = some u := by
    rw [hresolved] at hu
    exact hu
  have hseen : (w.seeing project b found).hosted project.remoteUrl b = found := by
    simp only [seeing, Function.update_self]
  refine ⟨?_, ?_⟩
  · have hwrite : u.catalog = w.publish.catalog := by
      rcases he with rfl | rfl
      · cases deliveryStep_of_deliver hstep <;> rfl
      · cases deliveryStep_of_deliver hstep <;> rfl
    have hsame : Writes (fun _ => Eq) w.publish.catalog publish.catalog :=
      Or.inl (hcatalog.symm.trans hwrite)
    exact h.heads.write hsame (fun _ _ => rfl) fun _ _ _ hr => by rw [hr]
  · change publish.delivery.Holds found
    rw [← hdelivery]
    rcases he with rfl | rfl
    · cases deliveryStep_of_deliver hstep with
      | @fetchesOther a p project' place =>
        have hprojected : w.publish.delivery = .projected a p project' := place
        rw [hprojected] at hplace
        obtain ⟨rfl, rfl⟩ := Prod.mk.inj (Option.some.inj hplace)
        exact hseen
      | _ => trivial
    · cases deliveryStep_of_deliver hstep with
      | @confirms a p project' head place hosted =>
        have hdelivered : w.publish.delivery = .delivered a p project' := place
        rw [hdelivered] at hplace
        obtain ⟨rfl, rfl⟩ := Prod.mk.inj (Option.some.inj hplace)
        exact hseen.symm.trans hosted
      | _ => trivial

/-- A step without a fetch. -/
theorem Sound.publishes (h : w.Sound) {e : PublishEvent Oid Task} {w' : AdvertisingWorld Oid Task}
    (hv : w.Verified (.publish e)) (hs : w.publishes G e = some w') : w'.Sound := by
  cases e with
  | user e =>
    obtain ⟨u, hu, rfl⟩ := Option.map_eq_some_iff.mp hs
    have hframe := (user_frame hu).1
    refine ⟨?_, hframe.delivery ▸ h.delivery⟩
    have hsame : Writes (fun _ => Eq) w.publish.catalog u.catalog := Or.inl hframe.catalog
    exact h.heads.write hsame (fun _ _ => rfl) fun _ _ _ hr => by rw [hr]
  | install path b new old =>
    obtain ⟨u, hu, rfl⟩ := Option.map_eq_some_iff.mp hs
    obtain rfl := PublishWorld.install_eq_some hu
    exact ⟨h.heads, h.delivery⟩
  | restart =>
    simp only [AdvertisingWorld.publishes, PublishWorld.step, Option.map_some] at hs
    obtain rfl := Option.some.inj hs
    exact ⟨h.heads, trivial⟩
  | writeProject name record =>
    simp only [AdvertisingWorld.publishes] at hs
    split at hs
    · next project hproject =>
      obtain ⟨u, hu, rfl⟩ := Option.map_eq_some_iff.mp hs
      simp only [PublishWorld.step, hproject] at hu
      split at hu
      · next hsame =>
        obtain rfl := Option.some.inj hu
        refine ⟨?_, h.delivery⟩
        apply h.heads.write (R := fun _ p q => q.advertisedHeads = p.advertisedHeads)
        · refine writes_updateProject fun i p hi hp => ?_
          obtain rfl := Option.some.inj (hproject.symm.trans (findProject_of_position hi hp))
          rfl
        · exact fun _ _ => rfl
        · exact fun _ _ _ hr => hr
      · cases hu
    · cases hs
  | call task e =>
    by_cases hrefresh : ∃ answer, e = .refreshHead answer
    · obtain ⟨answer, rfl⟩ := hrefresh
      -- A refresh that is online has a fetch of its own.
      cases answer with
      | online generation head => cases hs
      | accessLost error | offline generation error =>
        obtain ⟨u, hu, rfl⟩ := Option.map_eq_some_iff.mp hs
        simp only [PublishWorld.step] at hu
        have hsound : (w.setPublish u).Sound := h.call (fun _ _ heq => by cases heq) hu
        exact ⟨hsound.heads, hsound.delivery⟩
    · have hcall : (w.publish.step G (.call task e)).map w.setPublish = some w' := by
        cases e with
        | refreshHead answer => exact absurd ⟨answer, rfl⟩ hrefresh
        | _ => exact hs
      obtain ⟨u, hu, rfl⟩ := Option.map_eq_some_iff.mp hcall
      exact h.call (fun _ _ heq => hrefresh ⟨_, heq⟩) hu
  | deliver e =>
    cases e with
    | fetch => cases hs
    | confirm => cases hs
    | fail error =>
      obtain ⟨u, hu, rfl⟩ := Option.map_eq_some_iff.mp hs
      have hstep : w.publish.deliver G (.fail error) = some u := hu
      have hsound : (w.setPublish u).Sound := h.deliver (fun he => by cases he)
        (fun he => by cases he) hv hstep
      exact ⟨hsound.heads, hsound.delivery⟩
    | _ =>
      obtain ⟨u, hu, rfl⟩ := Option.map_eq_some_iff.mp hs
      simp only [PublishWorld.step] at hu
      exact h.deliver (fun he => by cases he) (fun he => by cases he) hv hu

/-- What one verified step preserves. -/
theorem Sound.step (h : w.Sound) {e : AdvertisingEvent Oid Task} {w' : AdvertisingWorld Oid Task}
    (hv : w.Verified e) (hs : w.step G e = some w') : w'.Sound := by
  cases e with
  | publish e => exact h.publishes hv hs
  | setTracking path remote b head =>
    obtain rfl := Option.some.inj hs
    exact ⟨h.heads, h.delivery⟩
  | refreshFetch task deleted =>
    simp only [AdvertisingWorld.step] at hs
    split at hs
    · next name project b _ _ =>
      obtain rfl := Option.some.inj hs
      have hfetch := h.fetch project b deleted
      exact ⟨hfetch.heads, hfetch.delivery⟩
    · cases hs
  | deliveryFetch deleted =>
    simp only [AdvertisingWorld.step] at hs
    split at hs
    · next project b _ _ =>
      obtain rfl := Option.some.inj hs
      have hfetch := h.fetch project b deleted
      exact ⟨hfetch.heads, hfetch.delivery⟩
    · cases hs
  | refreshStore task generation head =>
    simp only [AdvertisingWorld.step] at hs
    split at hs
    · next found name project b hfetch hrefreshing =>
      obtain ⟨u, hu, rfl⟩ := Option.map_eq_some_iff.mp hs
      have hresolving : w.resolving (.refreshStore task generation head) =
          some ⟨project, b, found⟩ := by
        simp only [resolving, hfetch, hrefreshing, Option.bind_some, Option.map_some]
      have hhint : found = none → head = none := by
        rintro rfl
        have hnone := hv.2.1
        simp only [hint, hfetch, Option.any_some, Option.isNone_none, if_true] at hnone
        exact hnone
      have hsound := h.refreshStore hrefreshing (resolved_eq (hv.1 _ hresolving)) hhint hu
      exact ⟨hsound.heads, hsound.delivery⟩
    · cases hs
  | deliveryResolve =>
    simp only [AdvertisingWorld.step] at hs
    split at hs
    · next found a p project hfetch hplace =>
      obtain ⟨u, hu, rfl⟩ := Option.map_eq_some_iff.mp hs
      have hfetching : w.publish.delivery.fetching = some (project, p.branch) := by
        rw [hplace]
        rfl
      have hresolving : w.resolving .deliveryResolve = some ⟨project, p.branch, found⟩ := by
        simp only [resolving, hfetch, hfetching, Option.bind_some, Option.map_some]
      exact h.resolve (Or.inl rfl) hfetching (resolved_eq (hv.1 _ hresolving)) hu
    · next found a p project hfetch hplace =>
      obtain ⟨u, hu, rfl⟩ := Option.map_eq_some_iff.mp hs
      have hfetching : w.publish.delivery.fetching = some (project, p.branch) := by
        rw [hplace]
        rfl
      have hresolving : w.resolving .deliveryResolve = some ⟨project, p.branch, found⟩ := by
        simp only [resolving, hfetch, hfetching, Option.bind_some, Option.map_some]
      exact h.resolve (Or.inr rfl) hfetching (resolved_eq (hv.1 _ hresolving)) hu
    · cases hs

/-- After every run whose steps are verified, each head that was stored is the one
that the fetch of its operation has found. -/
theorem advertised_heads_are_fetched (publish : PublishWorld Oid Task)
    (tracking : String → String → Branch → Option Oid) (hdelivery : publish.delivery = .idle)
    (es : List (AdvertisingEvent Oid Task))
    (hv : Runs.Steps (AdvertisingWorld.step G) Verified (initial publish tracking) es)
    {w : AdvertisingWorld Oid Task}
    (hr : Runs.run (AdvertisingWorld.step G) (initial publish tracking) es = some w) :
    w.HeadsAreFetched := by
  have hsound : w.Sound :=
    Runs.run_invariant (fun _ _ _ h hv hs => h.step hv hs)
      (sound_initial publish tracking hdelivery) hv hr
  exact hsound.heads

end Runs

end AdvertisingWorld

section OneProject

open AdvertisingWorld

def noTracking : String → String → Branch → Option ℕ := fun _ _ _ => none

/-- The heartbeat is sent from `main`. The user makes the branch `topic` and goes
to it, and the refresh does not find it at the host. -/
def switchedRefresh (task : Fin 2) : List (AdvertisingEvent ℕ (Fin 2)) :=
  [.publish (.user (.switch "/work" "topic" none)), .publish (.call task (.refreshBranch "prj")),
    .refreshFetch task true, .refreshStore task 1 (some 1)]

/-- The head of `main` becomes the head of `topic`. -/
theorem hint_of_other_branch_is_stored : ∃ w : AdvertisingWorld ℕ (Fin 2),
    Runs.run (AdvertisingWorld.step pairGraph) (.initial currentMain noTracking)
      (switchedRefresh 0) = some w ∧
    currentMain.hosted "host/prj" "topic" = none ∧
    w.fetched 0 "topic" = some none ∧
    (findProject w.publish.catalog "prj").map (·.advertisedHeads "topic") = some (some 1) ∧
    ¬ w.HeadsAreFetched := by
  have htest : ((Runs.run (AdvertisingWorld.step pairGraph)
      (.initial currentMain noTracking : AdvertisingWorld ℕ (Fin 2))
      (switchedRefresh 0)).map fun w =>
        (w.fetched 0 "topic", w.publish.catalog.projects.map (·.advertisedHeads "topic"),
          (findProject w.publish.catalog "prj").map (·.advertisedHeads "topic"))) =
      some (some none, [some 1], some (some 1)) := by decide
  obtain ⟨w, hw, hfacts⟩ := Option.map_eq_some_iff.mp htest
  obtain ⟨hfetched, hrest⟩ := Prod.mk.inj hfacts
  obtain ⟨hheads, hfound⟩ := Prod.mk.inj hrest
  refine ⟨w, hw, rfl, hfetched, hfound, fun h => ?_⟩
  have hfirst : (w.publish.catalog.projects[0]?).map (·.advertisedHeads "topic") =
      some (some 1) := by
    rw [← List.getElem?_map, hheads]
    rfl
  obtain ⟨p, hp, hhead⟩ := Option.map_eq_some_iff.mp hfirst
  have hnone := h 0 p "topic" none hp hfetched
  rw [hhead] at hnone
  cases hnone

/-- A refresh of `main`, and the delivery of a commit on it. Another process moves
the tracking ref when nobody resolves it. -/
def verifiedRun (task : Fin 2) : List (AdvertisingEvent ℕ (Fin 2)) :=
  [.publish (.call task (.refreshBranch "prj")), .refreshFetch task true,
    .refreshStore task 1 (some 5), .setTracking "/work" "resync" "main" (some 7),
    .publish (.user (.commit "/work" 3)), .publish (.call task (.hookCommit "prj")),
    .publish (.call task .hookBranch), .publish (.call task .clone),
    .publish (.call task (.create "pub" 5)),
    .publish (.call task .push), .publish (.call task .record), .publish (.deliver (.start true 6)),
    .publish (.deliver .next), .publish (.deliver .load), .publish (.deliver .project),
    .deliveryFetch true, .deliveryResolve, .publish (.deliver .validate),
    .publish (.deliver (.push true)), .deliveryFetch true, .deliveryResolve,
    .publish (.deliver (.acknowledge 7 (.remoteAdvanced ""))), .publish (.deliver (.complete 8)),
    .publish (.deliver .recordCompletion)]

theorem advertised_heads_are_fetched_one :
    (∃ w : AdvertisingWorld ℕ (Fin 2), Runs.run (AdvertisingWorld.step pairGraph)
      (.initial currentMain noTracking) (verifiedRun 0) = some w ∧
      w.fetched 0 "main" = some (some 3)) ∧
    ∀ w : AdvertisingWorld ℕ (Fin 2), Runs.run (AdvertisingWorld.step pairGraph)
      (.initial currentMain noTracking) (verifiedRun 0) = some w → w.HeadsAreFetched := by
  have htest : ((Runs.run (AdvertisingWorld.step pairGraph)
      (.initial currentMain noTracking : AdvertisingWorld ℕ (Fin 2))
      (verifiedRun 0)).map fun w =>
        w.fetched 0 "main") = some (some (some 3)) := by decide +kernel
  refine ⟨Option.map_eq_some_iff.mp htest, fun w hw => ?_⟩
  exact advertised_heads_are_fetched currentMain noTracking rfl (verifiedRun 0) (by decide +kernel) hw

end OneProject

end Resync
