import Resync.ProjectRefresh
import Resync.QueueDurability

/-! What a refresh does for one project. The publications are queued one by one, and
a call for one project does nothing for another, so it is a function of the view
of the project: its own record, its own publications and its own reconciliation. -/
namespace Resync

variable {Oid : Type}

namespace RefreshWorld

def view (w : RefreshWorld Oid) (id : String) : ProjectView Oid where
  record := findProject w.catalog id
  queue := w.queue.filter (·.projectId == id)
  reconciling := decide (id ∈ w.reconciling)

/-- The daemon with one project only. -/
def alone (w : RefreshWorld Oid) (p : LocalProject Oid) : RefreshWorld Oid where
  catalog := { w.catalog with projects := [p] }
  disk := { w.catalog with projects := [p] }
  queue := w.queue.filter (·.projectId == p.projectId)
  reconciling := w.reconciling.filter (· == p.projectId)

/-- A refresh begins with the catalog that is on disk. -/
def start (catalog : LocalCatalog Oid) (queue : List (Publication Oid))
    (reconciling : List String) : RefreshWorld Oid :=
  ⟨catalog, catalog, queue, reconciling⟩

end RefreshWorld

/-- The heartbeat has an entry for this project only. -/
def RefreshInputs.alone (x : RefreshInputs Oid) (p : LocalProject Oid) : RefreshInputs Oid :=
  { x with heartbeat := x.heartbeat.map (·.filter (·.projectId == p.projectId)) }

variable [DecidableEq Oid]

/-- How `enqueue_publication` ends; an added publication may still meet an error. -/
inductive Queueing where
  | refused | known
  | added (fault : Option QueueFault)
deriving DecidableEq

def Queueing.succeeds : Queueing → Bool
  | .known => true
  | .added fault => fault.isNone
  | .refused => false

def Queueing.adds : Queueing → Bool
  | .added _ => true
  | _ => false

section Queueing

variable (x : RefreshInputs Oid)

/-- It is decided by the project, and by its publications in the queue. -/
def queueing (queue : List (Publication Oid)) (p : LocalProject Oid) (b : Branch) (c : Oid) :
    Queueing :=
  if (x.answers p.localPath).verifies c then
    if (PublicationQueue.existing queue p.projectId b c).isSome then .known
    else if x.fault p.projectId = some .updateRef then .refused
    else .added (x.fault p.projectId)
  else .refused

def newPublication (p : LocalProject Oid) (b : Branch) (c : Oid) : Publication Oid :=
  Publication.new (x.publicationId p.projectId) (x.now p.projectId) p.projectId p.checkoutId b c
    (p.advertisedHeads b)

def unpublished (p : LocalProject Oid) : LocalProject Oid :=
  { p with durability := .committedUnpublished }

/-- The view of a project for which `enqueue_publication` was called. -/
def ProjectView.queued (v : ProjectView Oid) (p : LocalProject Oid) (b : Branch) (c : Oid) :
    ProjectView Oid :=
  match queueing x v.queue p b c with
  | .added fault => { v with
      record := some (if fault = some .writeQueue then p else unpublished p),
      queue := v.queue ++ [newPublication x p b c] }
  | _ => v

end Queueing

section FollowUps

/-- The publication that is to follow a visit. -/
def Visit.publication (v : Visit Oid) : Option (Branch × Oid) :=
  match v.next with
  | some (.publish b c) => some (b, c)
  | _ => none

def Visit.reconciles (v : Visit Oid) : Bool :=
  match v.next with
  | some .reconcile => true
  | _ => false

variable (x : RefreshInputs Oid)

/-- The view of a project once the publication after its visit is queued. -/
def ProjectView.published (u : ProjectView Oid) (v : Visit Oid) : ProjectView Oid :=
  match v.publication with
  | some r => u.queued x v.record r.1 r.2
  | none => u

/-- The view of a project whose visit is followed up. -/
def ProjectView.follow (u : ProjectView Oid) (v : Visit Oid) : ProjectView Oid :=
  if v.reconciles then { u.published x v with reconciling := true } else u.published x v

/-- The HEAD of the checkout can not be read, or not be compared. -/
def Errs (remote : List (HeartbeatProject Oid)) (p : LocalProject Oid) : Prop :=
  (visit x remote p).next = none

end FollowUps

section Visits

variable {x : RefreshInputs Oid} {remote : List (HeartbeatProject Oid)}

theorem compared_identity (answers : CheckoutAnswers Oid) (p : LocalProject Oid) (b : Branch)
    (c : Oid) : (compared answers p b c).record.identity = p.identity := by
  unfold compared
  split
  · rfl
  · split
    · rfl
    · split
      · rfl
      · split <;> rfl

theorem visit_identity (x : RefreshInputs Oid) (remote : List (HeartbeatProject Oid))
    (p : LocalProject Oid) : (visit x remote p).record.identity = p.identity := by
  simp only [visit, visitEntry]
  split
  · rfl
  · split
    · rfl
    · split
      · rfl
      · split
        · rfl
        · split
          · exact compared_identity ..
          · exact compared_identity ..

theorem visit_projectId (x : RefreshInputs Oid) (remote : List (HeartbeatProject Oid))
    (p : LocalProject Oid) : (visit x remote p).record.projectId = p.projectId :=
  identity_projectId (visit_identity x remote p)

/-- Git answers what a world has in the checkout of the project and at its host, or
the fetch fails. -/
structure Answers (G : CommitGraph Oid) {Task : Type} (u : PublishWorld Oid Task)
    (p : LocalProject Oid) (failure : Option String) (a : CheckoutAnswers Oid) : Prop where
  branch : a.branch = (u.checkouts p.localPath).headBranch
  fetched : ∀ b, b = (a.branch.or p.activeBranch).getD p.defaultBranch →
    a.fetched = failure.elim (.ok (u.hosted p.remoteUrl b)) .error
  head : a.head = (u.checkouts p.localPath).headCommit
  isAncestor : ∀ c d, a.isAncestor c d = some (G.isAncestor c d)

/-- The comparison is the one of a single refresh. -/
theorem compared_record {G : CommitGraph Oid} {a : CheckoutAnswers Oid}
    (h : ∀ c d, a.isAncestor c d = some (G.isAncestor c d)) (p : LocalProject Oid) (b : Branch)
    (c : Oid) : (compared a p b c).record = (PublishWorld.refreshed G p b c).1 ∧
      (compared a p b c).next.isSome = true := by
  unfold compared PublishWorld.refreshed
  by_cases hconflict : p.state = .conflicted
  · rw [if_pos hconflict, if_pos hconflict]
    exact ⟨rfl, rfl⟩
  · rw [if_neg hconflict, if_neg hconflict]
    cases p.advertisedHeads b with
    | none => exact ⟨rfl, rfl⟩
    | some target =>
      by_cases hsame : target = c
      · simp only [if_pos hsame]
        exact ⟨trivial, rfl⟩
      · simp only [if_neg hsame, h]
        cases G.isAncestor target c <;> exact ⟨rfl, rfl⟩

theorem visit_refreshes {G : CommitGraph Oid} {Task : Type} {u : PublishWorld Oid Task}
    {p : LocalProject Oid} {failure : Option String}
    (h : Answers G u p failure (x.answers p.localPath)) :
    ∃ b, (visit x remote p).record = PublishWorld.refreshRecord G u b
      (refreshAnswer remote p failure) { p with activeBranch := some b } := by
  refine ⟨((x.answers p.localPath).branch.or p.activeBranch).getD p.defaultBranch, ?_⟩
  have hfetched := h.fetched _ rfl
  simp only [visit, visitEntry, refreshAnswer]
  cases remote.find? (·.projectId == p.projectId) with
  | none => rfl
  | some update =>
    by_cases hactive : update.membership = "ACTIVE"
    · simp only [hactive, ne_eq, not_true_eq_false, if_false, if_true, hfetched]
      cases failure with
      | some error => rfl
      | none =>
        simp only [Option.elim_none, PublishWorld.refreshRecord, ← h.head]
        cases hhead : (x.answers p.localPath).head with
        | none => rfl
        | some c =>
          obtain ⟨hrecord, hnext⟩ := compared_record h.isAncestor
            (u.advertise { p with
              activeBranch := some (((x.answers p.localPath).branch.or p.activeBranch).getD
                p.defaultBranch) }
              (((x.answers p.localPath).branch.or p.activeBranch).getD p.defaultBranch)
              update.projectGeneration update.head)
            (((x.answers p.localPath).branch.or p.activeBranch).getD p.defaultBranch) c
          simp only [PublishWorld.advertise] at hrecord hnext ⊢
          simp only [hnext, true_and, hrecord]
          rfl
    · simp only [hactive, ne_eq, not_false_eq_true, if_true, if_false]
      rfl

/-- The visit looks at the heartbeat's entry for the project only. -/
theorem visit_alone (x : RefreshInputs Oid) (remote : List (HeartbeatProject Oid))
    (p : LocalProject Oid) :
    visit (x.alone p) (remote.filter (·.projectId == p.projectId)) p = visit x remote p := by
  have hfind : (remote.filter (·.projectId == p.projectId)).find? (·.projectId == p.projectId) =
      remote.find? (·.projectId == p.projectId) := by
    rw [List.find?_filter]
    simp only [Bool.decide_eq_true, and_self]
  rw [visit, visit, hfind]
  rfl

/-- Without an error the loop visits every project. -/
theorem visitAll_of_visited {ps : List (LocalProject Oid)}
    (h : ¬ ∃ p ∈ ps, Errs x remote p) :
    visitAll x remote ps = (ps.map fun p => (visit x remote p).record,
      some (ps.filterMap fun p => (visit x remote p).next.map fun f => (p.projectId, f))) := by
  induction ps with
  | nil => rfl
  | cons p ps ih =>
    have hrest : ¬ ∃ q ∈ ps, Errs x remote q := fun ⟨q, hq, he⟩ =>
      h ⟨q, List.mem_cons_of_mem p hq, he⟩
    cases hnext : (visit x remote p).next with
    | none => exact absurd ⟨p, List.mem_cons_self, hnext⟩ h
    | some next =>
      simp only [visitAll, hnext, ih hrest, List.map_cons, Option.map_some]
      rw [List.filterMap_cons_some (b := (p.projectId, next)) (by rw [hnext]; rfl)]

/-- Without an error the loop does to every record what the refresh of one project does among the
steps of the daemon. -/
theorem visitAll_refreshes {G : CommitGraph Oid} {Task : Type} {u : PublishWorld Oid Task}
    {failure : LocalProject Oid → Option String} {ps : List (LocalProject Oid)}
    (hanswers : ∀ p ∈ ps, Answers G u p (failure p) (x.answers p.localPath))
    (hvisited : ¬ ∃ p ∈ ps, Errs x remote p) :
    List.Forall₂ (fun p q => ∃ b, q = PublishWorld.refreshRecord G u b
      (refreshAnswer remote p (failure p)) { p with activeBranch := some b })
      ps (visitAll x remote ps).1 := by
  rw [visitAll_of_visited hvisited, List.forall₂_map_right_iff, List.forall₂_same]
  exact fun p hp => visit_refreshes (hanswers p hp)

/-- The first error ends the loop. -/
theorem visitAll_of_error {before after : List (LocalProject Oid)} {p : LocalProject Oid}
    (h : ¬ ∃ q ∈ before, Errs x remote q) (hp : Errs x remote p) :
    visitAll x remote (before ++ p :: after) =
      ((before.map fun q => (visit x remote q).record) ++ (visit x remote p).record :: after,
        none) := by
  induction before with
  | nil =>
    have hnext : (visit x remote p).next = none := hp
    simp only [List.nil_append, visitAll, hnext, List.map_nil]
  | cons q before ih =>
    have hrest : ¬ ∃ r ∈ before, Errs x remote r := fun ⟨r, hr, he⟩ =>
      h ⟨r, List.mem_cons_of_mem q hr, he⟩
    cases hnext : (visit x remote q).next with
    | none => exact absurd ⟨q, List.mem_cons_self, hnext⟩ h
    | some next =>
      simp only [List.cons_append, visitAll, hnext, ih hrest, List.map_cons, Option.map_none]

end Visits

section Queueing

variable {x : RefreshInputs Oid}

theorem existing_filter (queue : List (Publication Oid)) (id : String) (b : Branch) (c : Oid) :
    PublicationQueue.existing (queue.filter (·.projectId == id)) id b c =
      PublicationQueue.existing queue id b c := by
  unfold PublicationQueue.existing
  rw [List.find?_filter]
  congr 1
  funext p
  by_cases hid : (p.projectId == id) = true
  · simp only [hid, true_and, Bool.decide_eq_true]
  · simp only [Bool.not_eq_true] at hid
    simp only [hid, Bool.false_eq_true, false_and, decide_false, Bool.and_false, Bool.false_and]

/-- Other projects' publications play no part. -/
theorem queueing_filter (queue : List (Publication Oid)) (p : LocalProject Oid) (b : Branch)
    (c : Oid) : queueing x (queue.filter (·.projectId == p.projectId)) p b c =
      queueing x queue p b c := by
  simp only [queueing, existing_filter]

/-- The queue stays as it is exactly where nothing is added. -/
theorem queued_queue_iff {v : ProjectView Oid} {p : LocalProject Oid} {b : Branch} {c : Oid} :
    (v.queued x p b c).queue = v.queue ↔ (queueing x v.queue p b c).adds = false := by
  unfold ProjectView.queued
  cases hk : queueing x v.queue p b c with
  | refused => exact ⟨fun _ => rfl, fun _ => rfl⟩
  | known => exact ⟨fun _ => rfl, fun _ => rfl⟩
  | added fault =>
    refine ⟨fun h => ?_, fun h => by cases h⟩
    have hlength := congrArg List.length h
    simp only [List.length_append, List.length_cons, List.length_nil] at hlength
    omega

theorem queued_eq_self {v : ProjectView Oid} {p : LocalProject Oid} {b : Branch} {c : Oid}
    (h : (queueing x v.queue p b c).adds = false) : v.queued x p b c = v := by
  unfold ProjectView.queued
  cases hk : queueing x v.queue p b c with
  | refused => rfl
  | known => rfl
  | added fault =>
    rw [hk] at h
    cases h

theorem queueing_ne_updateRef {queue : List (Publication Oid)} {p : LocalProject Oid}
    {b : Branch} {c : Oid} : queueing x queue p b c ≠ .added (some .updateRef) := by
  unfold queueing
  split
  · split
    · exact fun h => by cases h
    · split
      · exact fun h => by cases h
      · next hfault =>
        intro h
        exact hfault (Queueing.added.inj h)
  · exact fun h => by cases h

end Queueing

namespace RefreshWorld

variable {x : RefreshInputs Oid} {w : RefreshWorld Oid}

/-- What `enqueue_publication` does for a project of the catalog, and that it does
nothing for the others. -/
structure Enqueued (x : RefreshInputs Oid) (w : RefreshWorld Oid) (p : LocalProject Oid)
    (b : Branch) (c : Oid) (r : RefreshWorld Oid × Bool) : Prop where
  succeeds : r.2 = (queueing x w.queue p b c).succeeds
  own : r.1.view p.projectId = (w.view p.projectId).queued x p b c
  others : ∀ q ∈ w.catalog.projects, q ≠ p →
    q ∈ r.1.catalog.projects ∧ r.1.view q.projectId = w.view q.projectId
  ids : SameIds w.catalog r.1.catalog
  reconciling : r.1.reconciling = w.reconciling
  written : w.catalog = w.disk → (r.1.catalog = r.1.disk ↔
    ¬ (queueing x w.queue p b c = .added (some .writeCatalog) ∧
      p.durability ≠ .committedUnpublished))

/-- The call changes nothing. -/
theorem Enqueued.of_same {p : LocalProject Oid} {b : Branch} {c : Oid}
    (hk : (queueing x w.queue p b c).adds = false) :
    Enqueued x w p b c (w, (queueing x w.queue p b c).succeeds) where
  succeeds := rfl
  own := by
    refine (queued_eq_self ?_).symm
    change (queueing x (w.queue.filter _) p b c).adds = false
    rw [queueing_filter]
    exact hk
  others q hq _ := ⟨hq, rfl⟩
  ids := rfl
  reconciling := rfl
  written hw := by
    refine ⟨fun _ h => ?_, fun _ => hw⟩
    rw [h.1] at hk
    cases hk

omit [DecidableEq Oid] in
theorem unpublished_eq_self_iff {p : LocalProject Oid} :
    unpublished p = p ↔ p.durability = .committedUnpublished := by
  refine ⟨fun h => ?_, fun h => ?_⟩
  · rw [← h]
    rfl
  · rw [unpublished, ← h]

omit [DecidableEq Oid] in
/-- The note leaves the catalog only where it is there already. -/
theorem updateProject_eq_self_iff {catalog : LocalCatalog Oid} (hids : UniqueIds catalog)
    {p : LocalProject Oid} (hp : p ∈ catalog.projects) :
    updateProject catalog p.projectId unpublished = catalog ↔
      p.durability = .committedUnpublished := by
  have hfind : findProject catalog p.projectId = some p := hids.find hp
  rw [← unpublished_eq_self_iff]
  constructor
  · intro h
    have hmem : unpublished p ∈ (updateProject catalog p.projectId unpublished).projects :=
      mem_modifyFirst_of_find hfind
    rw [h] at hmem
    exact List.inj_on_of_nodup_map hids.ids hmem hp rfl
  · intro h
    have hsame : (modifyFirst (·.named p.projectId) unpublished catalog.projects).map id =
        catalog.projects.map id := by
      apply map_modifyFirst
      intro q hq
      obtain rfl := Option.some.inj (hq.symm.trans hfind)
      exact h
    rw [List.map_id, List.map_id] at hsame
    rw [updateProject, hsame]

omit [DecidableEq Oid] in
/-- The record of the project is written, and no other one. -/
theorem updateProject_spec {catalog : LocalCatalog Oid} (hids : UniqueIds catalog)
    {p : LocalProject Oid} (hp : p ∈ catalog.projects) {f : LocalProject Oid → LocalProject Oid}
    (hf : ∀ q, (f q).identity = q.identity) :
    SameIds catalog (updateProject catalog p.projectId f) ∧
      f p ∈ (updateProject catalog p.projectId f).projects ∧
      ∀ q ∈ catalog.projects, q ≠ p → q ∈ (updateProject catalog p.projectId f).projects := by
  have hfind : findProject catalog p.projectId = some p := hids.find hp
  refine ⟨SameIds.update rfl _ fun q _ => hf q, mem_modifyFirst_of_find hfind, ?_⟩
  intro q hq hne
  rcases mem_or_mem_modifyFirst hq with hmem | ⟨hfirst, -⟩
  · exact hmem
  · exact absurd (Option.some.inj (hfirst.symm.trans hfind)) hne

/-- A new publication is in the queue, and the record may say so. -/
theorem Enqueued.of_added (hids : UniqueIds w.catalog) {p : LocalProject Oid}
    (hp : p ∈ w.catalog.projects) {b : Branch} {c : Oid} {fault : Option QueueFault}
    (hk : queueing x w.queue p b c = .added fault) {noted : LocalCatalog Oid}
    (hnoted : noted = if fault = some .writeQueue then w.catalog
      else updateProject w.catalog p.projectId unpublished) :
    Enqueued x w p b c ({ w with
      queue := w.queue ++ [newPublication x p b c],
      catalog := noted,
      disk := if fault.isNone then noted else w.disk }, fault.isNone) := by
  have hwrite := updateProject_spec hids hp (f := unpublished) fun _ => rfl
  have hkeep : SameIds w.catalog noted ∧
      (if fault = some .writeQueue then p else unpublished p) ∈ noted.projects ∧
      ∀ q ∈ w.catalog.projects, q ≠ p → q ∈ noted.projects := by
    by_cases hfault : fault = some .writeQueue
    · rw [if_pos hfault] at hnoted ⊢
      rw [hnoted]
      exact ⟨rfl, hp, fun q hq _ => hq⟩
    · rw [if_neg hfault] at hnoted ⊢
      rw [hnoted]
      exact hwrite
  obtain ⟨hsame, hown, hothers⟩ := hkeep
  have hids' : UniqueIds noted := hsame.unique hids
  refine ⟨?_, ?_, fun q hq hne => ⟨hothers q hq hne, ?_⟩, hsame, rfl, fun hw => ?_⟩
  · rw [hk]
    rfl
  · have hrecord : findProject noted p.projectId =
        some (if fault = some .writeQueue then p else unpublished p) := by
      have hid : (if fault = some .writeQueue then p else unpublished p).projectId =
          p.projectId := by split <;> rfl
      have hfound := hids'.find hown
      rw [hid] at hfound
      exact hfound
    have hqueueing : queueing x (w.view p.projectId).queue p b c = .added fault := by
      change queueing x (w.queue.filter _) p b c = _
      rw [queueing_filter, hk]
    unfold ProjectView.queued
    rw [hqueueing]
    simp only [view, hrecord, List.filter_append]
    have hpub : [newPublication x p b c].filter (·.projectId == p.projectId) =
        [newPublication x p b c] := List.filter_cons_of_pos (BEq.rfl)
    rw [hpub]
  · have hother : (newPublication x p b c).projectId ≠ q.projectId := fun hid =>
      hne (List.inj_on_of_nodup_map hids.ids hq hp hid.symm)
    simp only [view, hids'.find (hothers q hq hne), hids.find hq, List.filter_append]
    have hpub : [newPublication x p b c].filter (·.projectId == q.projectId) = [] := by
      rw [List.filter_cons_of_neg, List.filter_nil]
      simp only [beq_iff_eq]
      exact hother
    rw [hpub, List.append_nil]
  · change noted = (if fault.isNone then noted else w.disk) ↔ _
    rw [hk]
    match fault with
    | none => exact ⟨fun _ h => (by cases h.1), fun _ => rfl⟩
    | some .updateRef => exact absurd hk queueing_ne_updateRef
    | some .writeQueue => exact ⟨fun _ h => (by cases h.1), fun _ => hnoted.trans hw⟩
    | some .writeCatalog =>
      have hnoted : noted = updateProject w.catalog p.projectId unpublished := hnoted
      change noted = w.disk ↔ _
      rw [← hw, hnoted, updateProject_eq_self_iff hids hp]
      exact ⟨fun h hne => hne.2 h, fun h => by_contra fun hne => h ⟨rfl, hne⟩⟩

/-- One call of `enqueue_publication`. -/
theorem enqueue_spec (hids : UniqueIds w.catalog) {p : LocalProject Oid}
    (hp : p ∈ w.catalog.projects) (b : Branch) (c : Oid) :
    Enqueued x w p b c (w.enqueue x p.projectId b c) := by
  have hfind : findProject w.catalog p.projectId = some p := hids.find hp
  unfold enqueue
  rw [hfind]
  simp only
  by_cases hverifies : (x.answers p.localPath).verifies c = true
  · rw [if_pos hverifies]
    cases hexisting : PublicationQueue.existing w.queue p.projectId b c with
    | some q =>
      have hk : queueing x w.queue p b c = .known := by
        rw [queueing, if_pos hverifies, hexisting]
        rfl
      have hsame : Enqueued x w p b c (w, (queueing x w.queue p b c).succeeds) :=
        Enqueued.of_same (by rw [hk]; rfl)
      rw [hk] at hsame
      exact hsame
    | none =>
      have hk : queueing x w.queue p b c = if x.fault p.projectId = some .updateRef then .refused
          else .added (x.fault p.projectId) := by
        rw [queueing, if_pos hverifies, hexisting]
        rfl
      cases hfault : x.fault p.projectId with
      | none =>
        rw [hfault] at hk
        exact Enqueued.of_added hids hp hk rfl
      | some fault =>
        rw [hfault] at hk
        cases fault with
        | updateRef =>
          have hsame : Enqueued x w p b c (w, (queueing x w.queue p b c).succeeds) :=
            Enqueued.of_same (by rw [hk]; rfl)
          rw [hk] at hsame
          exact hsame
        | writeQueue => exact Enqueued.of_added hids hp hk rfl
        | writeCatalog => exact Enqueued.of_added hids hp hk rfl
  · rw [if_neg hverifies]
    have hk : queueing x w.queue p b c = .refused := by rw [queueing, if_neg hverifies]
    have hsame : Enqueued x w p b c (w, (queueing x w.queue p b c).succeeds) :=
      Enqueued.of_same (by rw [hk]; rfl)
    rw [hk] at hsame
    exact hsame

/-- A project with the publication that is missing. -/
structure Missing (Oid : Type) where
  record : LocalProject Oid
  branch : Branch
  head : Oid

omit [DecidableEq Oid] in
def Missing.request (m : Missing Oid) : String × Branch × Oid :=
  (m.record.projectId, m.branch, m.head)

/-- How it is queued. -/
def Missing.queueing (x : RefreshInputs Oid) (queue : List (Publication Oid))
    (m : Missing Oid) : Queueing :=
  Resync.queueing x queue m.record m.branch m.head

/-- The calls for the missing publications have gone through. -/
structure AllEnqueued (x : RefreshInputs Oid) (w : RefreshWorld Oid) (ms : List (Missing Oid))
    (r : RefreshWorld Oid × Bool) : Prop where
  succeeds : r.2 = true
  own : ∀ m ∈ ms, r.1.view m.record.projectId =
    (w.view m.record.projectId).queued x m.record m.branch m.head
  others : ∀ q ∈ w.catalog.projects, q.projectId ∉ ms.map (·.record.projectId) →
    q ∈ r.1.catalog.projects ∧ r.1.view q.projectId = w.view q.projectId
  ids : SameIds w.catalog r.1.catalog
  reconciling : r.1.reconciling = w.reconciling
  written : w.catalog = w.disk → r.1.catalog = r.1.disk

/-- A missing publication is queued as it would have been before the call for another
project. -/
theorem Enqueued.queueing {p q : LocalProject Oid} {b : Branch} {c : Oid}
    {r : RefreshWorld Oid × Bool} (h : Enqueued x w p b c r) (hq : q ∈ w.catalog.projects)
    (hne : q ≠ p) (b' : Branch) (c' : Oid) :
    queueing x r.1.queue q b' c' = queueing x w.queue q b' c' := by
  have hview : (r.1.view q.projectId).queue = (w.view q.projectId).queue :=
    congrArg ProjectView.queue (h.others q hq hne).2
  rw [← queueing_filter r.1.queue, ← queueing_filter w.queue]
  exact congrArg (fun queue => Resync.queueing x queue q b' c') hview

omit [DecidableEq Oid] in
theorem exists_of_sameIds {c c' : LocalCatalog Oid} (h : SameIds c c') {p : LocalProject Oid}
    (hp : p ∈ c.projects) : ∃ q ∈ c'.projects, q.projectId = p.projectId := by
  have hin : p.identity ∈ c'.projects.map (·.identity) := by
    rw [h]
    exact List.mem_map_of_mem hp
  obtain ⟨q, hq, hqid⟩ := List.mem_map.mp hin
  exact ⟨q, hq, identity_projectId hqid⟩

/-- The view of another project is left alone. -/
theorem Enqueued.view_other {p q : LocalProject Oid} {b : Branch} {c : Oid}
    {r : RefreshWorld Oid × Bool} (h : Enqueued x w p b c r) {catalog : LocalCatalog Oid}
    (hsame : SameIds catalog w.catalog) (hq : q ∈ catalog.projects)
    (hne : q.projectId ≠ p.projectId) :
    r.1.view q.projectId = w.view q.projectId := by
  obtain ⟨q', hq', hid⟩ := exists_of_sameIds hsame hq
  rw [← hid] at hne ⊢
  exact (h.others q' hq' fun heq => hne (congrArg LocalProject.projectId heq)).2

/-- While the calls succeed, each project gets its own publication. -/
theorem enqueueAll_of_succeeds {ms : List (Missing Oid)} (hids : UniqueIds w.catalog)
    (hmem : ∀ m ∈ ms, m.record ∈ w.catalog.projects)
    (hnodup : (ms.map (·.record.projectId)).Nodup)
    (hok : ∀ m ∈ ms, (m.queueing x w.queue).succeeds = true) :
    AllEnqueued x w ms (w.enqueueAll x (ms.map (·.request))) := by
  induction ms generalizing w with
  | nil => exact ⟨rfl, fun m hm => (by cases hm), fun q hq _ => ⟨hq, rfl⟩, rfl, rfl, id⟩
  | cons m ms ih =>
    obtain ⟨hfresh, hnodup⟩ := List.nodup_cons.mp hnodup
    have hm : m.record ∈ w.catalog.projects := hmem m List.mem_cons_self
    let r := w.enqueue x m.record.projectId m.branch m.head
    have hfirst : Enqueued x w m.record m.branch m.head r := enqueue_spec hids hm m.branch m.head
    have hsucceeds : r.2 = true := hfirst.succeeds.trans (hok m List.mem_cons_self)
    have hid : ∀ n ∈ ms, n.record.projectId ≠ m.record.projectId := fun n hn heq =>
      hfresh (List.mem_map.mpr ⟨n, hn, heq⟩)
    have hkept : ∀ n ∈ ms, n.record ∈ r.1.catalog.projects ∧
        r.1.view n.record.projectId = w.view n.record.projectId := fun n hn =>
      hfirst.others _ (hmem n (List.mem_cons_of_mem m hn)) fun heq => hid n hn (heq ▸ rfl)
    have hsame : ∀ n ∈ ms, n.queueing x r.1.queue = n.queueing x w.queue := fun n hn =>
      hfirst.queueing (hmem n (List.mem_cons_of_mem m hn)) (fun heq => hid n hn (heq ▸ rfl)) _ _
    have hrest : AllEnqueued x r.1 ms (r.1.enqueueAll x (ms.map (·.request))) :=
      ih (hfirst.ids.unique hids) (fun n hn => (hkept n hn).1) hnodup fun n hn => by
        rw [hsame n hn]
        exact hok n (List.mem_cons_of_mem m hn)
    have hall : w.enqueueAll x ((m :: ms).map (·.request)) =
        r.1.enqueueAll x (ms.map (·.request)) := by
      simp only [List.map_cons, enqueueAll]
      exact if_pos hsucceeds
    rw [hall]
    refine ⟨hrest.succeeds, fun n hn => ?_, fun q hq hout => ?_, ?_, ?_, fun hw => ?_⟩
    · rcases List.mem_cons.mp hn with rfl | hn
      · -- its record may be a new one, under the same ID
        obtain ⟨q, hq, hqid⟩ := exists_of_sameIds hfirst.ids hm
        have hlater := (hrest.others q hq (by rw [hqid]; exact hfresh)).2
        rw [hqid] at hlater
        exact hlater.trans hfirst.own
      · have hown := hrest.own n hn
        rw [(hkept n hn).2] at hown
        exact hown
    · have hne : q ≠ m.record := fun heq => hout (heq ▸ List.mem_cons_self)
      obtain ⟨hq', hview⟩ := hfirst.others q hq hne
      obtain ⟨hq'', hview'⟩ := hrest.others q hq' fun h => hout (List.mem_cons_of_mem _ h)
      exact ⟨hq'', hview'.trans hview⟩
    · exact hrest.ids.trans hfirst.ids
    · exact hrest.reconciling.trans hfirst.reconciling
    · apply hrest.written
      refine (hfirst.written hw).mpr fun h => ?_
      have hok' := hok m List.mem_cons_self
      rw [Missing.queueing, h.1] at hok'
      cases hok'

omit [DecidableEq Oid] in
theorem foldl_schedule (w : RefreshWorld Oid) (ids : List String) :
    (ids.foldl schedule w).catalog = w.catalog ∧ (ids.foldl schedule w).disk = w.disk ∧
      (ids.foldl schedule w).queue = w.queue ∧
      ∀ id, id ∈ (ids.foldl schedule w).reconciling ↔ id ∈ ids ∨ id ∈ w.reconciling := by
  induction ids generalizing w with
  | nil => exact ⟨rfl, rfl, rfl, fun id => ⟨Or.inr, fun h => h.resolve_left List.not_mem_nil⟩⟩
  | cons i ids ih =>
    obtain ⟨hcatalog, hdisk, hqueue, hreconciling⟩ := ih (w.schedule i)
    have hschedule : (w.schedule i).catalog = w.catalog ∧ (w.schedule i).disk = w.disk ∧
        (w.schedule i).queue = w.queue ∧
        ∀ id, id ∈ (w.schedule i).reconciling ↔ id = i ∨ id ∈ w.reconciling := by
      unfold schedule
      split
      · next hmem =>
        refine ⟨rfl, rfl, rfl, fun id => ⟨Or.inr, fun h => ?_⟩⟩
        rcases h with rfl | h
        · exact hmem
        · exact h
      · exact ⟨rfl, rfl, rfl, fun id => List.mem_cons⟩
    refine ⟨hcatalog.trans hschedule.1, hdisk.trans hschedule.2.1,
      hqueue.trans hschedule.2.2.1, fun id => ?_⟩
    change id ∈ (ids.foldl schedule (w.schedule i)).reconciling ↔ _
    rw [hreconciling, hschedule.2.2.2, List.mem_cons]
    tauto

end RefreshWorld

/-- The publication that is missing after a visit. -/
def Visit.missing (v : Visit Oid) : Option (RefreshWorld.Missing Oid) :=
  v.publication.map fun r => ⟨v.record, r.1, r.2⟩

namespace RefreshWorld

section Together

variable {x : RefreshInputs Oid} {w : RefreshWorld Oid} {remote : List (HeartbeatProject Oid)}

/-- The first of the elements of a list with a property. -/
theorem exists_first {α : Type*} {P : α → Prop} {l : List α} (h : ∃ a ∈ l, P a) :
    ∃ before a after, l = before ++ a :: after ∧ (¬ ∃ b ∈ before, P b) ∧ P a := by
  classical
  obtain ⟨a, ha, hpa⟩ := h
  have hsome : (l.find? fun a => decide (P a)).isSome :=
    List.find?_isSome.mpr ⟨a, ha, decide_eq_true hpa⟩
  obtain ⟨b, hb⟩ := Option.isSome_iff_exists.mp hsome
  obtain ⟨hpb, before, after, hl, hbefore⟩ := List.find?_eq_some_iff_append.mp hb
  refine ⟨before, b, after, hl, ?_, of_decide_eq_true hpb⟩
  rintro ⟨c, hc, hpc⟩
  have hnot := hbefore c hc
  rw [decide_eq_true hpc] at hnot
  cases hnot

theorem filterMap_one {α β : Type*} (g : α → Option β) (a : α) :
    [a].filterMap g = (g a).toList := by
  cases h : g a with
  | none => rw [List.filterMap_cons_none h, List.filterMap_nil, Option.toList_none]
  | some b => rw [List.filterMap_cons_some h, List.filterMap_nil, Option.toList_some]

/-- The view of a project that was visited. -/
def visitedView (x : RefreshInputs Oid) (remote : List (HeartbeatProject Oid))
    (w : RefreshWorld Oid) (p : LocalProject Oid) : ProjectView Oid :=
  { w.view p.projectId with record := some (visit x remote p).record }

/-- All projects are visited, and the catalog is written. -/
def visitedWorld (x : RefreshInputs Oid) (remote : List (HeartbeatProject Oid))
    (w : RefreshWorld Oid) : RefreshWorld Oid :=
  let catalog := { w.catalog with
    projects := w.catalog.projects.map fun p => (visit x remote p).record }
  { w with catalog := catalog, disk := catalog }

theorem visited_sameIds (x : RefreshInputs Oid) (remote : List (HeartbeatProject Oid))
    (w : RefreshWorld Oid) : SameIds w.catalog (visitedWorld x remote w).catalog := by
  change List.map _ (List.map _ _) = _
  rw [List.map_map]
  exact List.map_congr_left fun p _ => visit_identity x remote p

theorem visitedWorld_view (hids : UniqueIds w.catalog) {p : LocalProject Oid}
    (hp : p ∈ w.catalog.projects) :
    (visitedWorld x remote w).view p.projectId = visitedView x remote w p := by
  have hids' := (visited_sameIds x remote w).unique hids
  have hmem : (visit x remote p).record ∈ (visitedWorld x remote w).catalog.projects :=
    List.mem_map_of_mem hp
  have hfind := hids'.find hmem
  rw [visit_projectId] at hfind
  simp only [view, hfind, visitedView]
  rfl

theorem missingPublications_eq (ps : List (LocalProject Oid)) :
    missingPublications (ps.filterMap fun p =>
      (visit x remote p).next.map fun f => (p.projectId, f)) =
    (ps.filterMap fun p => (visit x remote p).missing).map (·.request) := by
  rw [missingPublications, List.filterMap_filterMap, List.map_filterMap]
  apply List.filterMap_congr
  intro p _
  simp only [Visit.missing, Visit.publication]
  cases hnext : (visit x remote p).next with
  | none => rfl
  | some f =>
    cases f with
    | nothing => rfl
    | reconcile => rfl
    | publish b c =>
      simp only [Option.map_some, Option.bind_some, Missing.request, visit_projectId]

theorem mem_pendingReconciliation {ps : List (LocalProject Oid)} {id : String} :
    id ∈ pendingReconciliation (ps.filterMap fun p =>
      (visit x remote p).next.map fun f => (p.projectId, f)) ↔
    ∃ p ∈ ps, (visit x remote p).reconciles = true ∧ p.projectId = id := by
  rw [pendingReconciliation, List.filterMap_filterMap, List.mem_filterMap]
  apply exists_congr
  intro p
  apply and_congr_right
  intro _
  simp only [Visit.reconciles]
  cases hnext : (visit x remote p).next with
  | none => simp
  | some f => cases f <;> simp

/-- The missing publications of the catalog. -/
def allMissing (x : RefreshInputs Oid) (remote : List (HeartbeatProject Oid))
    (w : RefreshWorld Oid) : List (Missing Oid) :=
  w.catalog.projects.filterMap fun p => (visit x remote p).missing

/-- The projects that are scheduled, as a list for `foldl`. -/
def allReconciling (x : RefreshInputs Oid) (remote : List (HeartbeatProject Oid))
    (w : RefreshWorld Oid) : List String :=
  pendingReconciliation (w.catalog.projects.filterMap fun p =>
    (visit x remote p).next.map fun f => (p.projectId, f))

/-- A refresh without an error in its loop. -/
theorem refresh_of_written (hconf : x.configured = true) (hheart : x.heartbeat = some remote)
    (herr : ¬ ∃ p ∈ w.catalog.projects, Errs x remote p) (hpersisted : x.persisted = true) :
    w.refresh x =
      let result := (visitedWorld x remote w).enqueueAll x
        ((allMissing x remote w).map (·.request))
      if result.2 then ((allReconciling x remote w).foldl schedule result.1, true)
      else (result.1, false) := by
  rw [refresh, if_pos hconf, hheart]
  simp only [visitAll_of_visited herr, missingPublications_eq, hpersisted, if_true]
  rfl

theorem refresh_of_unwritten (hconf : x.configured = true) (hheart : x.heartbeat = some remote)
    (herr : ¬ ∃ p ∈ w.catalog.projects, Errs x remote p) (hpersisted : x.persisted = false) :
    w.refresh x = ({ visitedWorld x remote w with disk := w.disk }, false) := by
  rw [refresh, if_pos hconf, hheart]
  simp only [visitAll_of_visited herr, hpersisted]
  rfl

/-- A refresh whose loop meets an error. -/
theorem refresh_of_error (hconf : x.configured = true) (hheart : x.heartbeat = some remote)
    {before after : List (LocalProject Oid)} {p : LocalProject Oid}
    (hsplit : w.catalog.projects = before ++ p :: after)
    (herr : ¬ ∃ q ∈ before, Errs x remote q) (hp : Errs x remote p) :
    w.refresh x = ({ w with catalog := { w.catalog with
      projects := (before.map fun q => (visit x remote q).record) ++
        (visit x remote p).record :: after } }, false) := by
  rw [refresh, if_pos hconf, hheart]
  simp only [hsplit, visitAll_of_error herr hp]

section Alone

variable {p : LocalProject Oid}

omit [DecidableEq Oid] in
theorem alone_uniqueIds (hids : UniqueIds w.catalog) (hp : p ∈ w.catalog.projects) :
    UniqueIds (w.alone p).catalog where
  ids := List.nodup_singleton _
  paths q hq r hr := by
    rw [List.mem_singleton.mp hq, List.mem_singleton.mp hr]
    exact hids.paths p hp p hp

omit [DecidableEq Oid] in
/-- Alone, a project begins with its own view. -/
theorem alone_view (hids : UniqueIds w.catalog) (hp : p ∈ w.catalog.projects) :
    (w.alone p).view p.projectId = w.view p.projectId := by
  have hfind : findProject (w.alone p).catalog p.projectId = findProject w.catalog p.projectId :=
    ((alone_uniqueIds hids hp).find List.mem_cons_self).trans (hids.find hp).symm
  rw [view, view, hfind]
  simp only [alone, List.filter_filter, Bool.and_self, List.mem_filter, beq_self_eq_true, and_true]

theorem alone_visitedView (hids : UniqueIds w.catalog) (hp : p ∈ w.catalog.projects) :
    visitedView (x.alone p) (remote.filter (·.projectId == p.projectId)) (w.alone p) p =
      visitedView x remote w p := by
  rw [visitedView, visitedView, alone_view hids hp, visit_alone]

omit [DecidableEq Oid] in
theorem alone_heartbeat (hheart : x.heartbeat = some remote) :
    (x.alone p).heartbeat = some (remote.filter (·.projectId == p.projectId)) := by
  rw [RefreshInputs.alone, hheart]
  rfl

/-- Alone, a project is visited as with the others. -/
theorem alone_errs :
    (∃ q ∈ (w.alone p).catalog.projects,
      Errs (x.alone p) (remote.filter (·.projectId == p.projectId)) q) ↔ Errs x remote p := by
  constructor
  · rintro ⟨q, hq, he⟩
    rw [List.mem_singleton.mp hq, Errs, visit_alone] at he
    exact he
  · intro he
    refine ⟨p, List.mem_cons_self, ?_⟩
    rw [Errs, visit_alone]
    exact he

theorem alone_visitedWorld_view (hids : UniqueIds w.catalog) (hp : p ∈ w.catalog.projects) :
    (visitedWorld (x.alone p) (remote.filter (·.projectId == p.projectId)) (w.alone p)).view
      p.projectId = visitedView x remote w p :=
  (visitedWorld_view (alone_uniqueIds hids hp) List.mem_cons_self).trans
    (alone_visitedView hids hp)

/-- Where the project itself meets an error, or the catalog is not written, nothing
follows the visit. -/
theorem alone_of_visit (hids : UniqueIds w.catalog) (hp : p ∈ w.catalog.projects)
    (hconf : x.configured = true) (hheart : x.heartbeat = some remote)
    (h : Errs x remote p ∨ x.persisted = false) :
    ((w.alone p).refresh (x.alone p)).1.view p.projectId = visitedView x remote w p := by
  rw [← alone_visitedWorld_view hids hp]
  by_cases herr : Errs x remote p
  · have he : Errs (x.alone p) (remote.filter (·.projectId == p.projectId)) p := by
      rw [Errs, visit_alone]
      exact herr
    have hnone : ¬ ∃ q ∈ ([] : List (LocalProject Oid)),
        Errs (x.alone p) (remote.filter (·.projectId == p.projectId)) q :=
      fun ⟨q, hq, _⟩ => List.not_mem_nil hq
    have hsplit : (w.alone p).catalog.projects = [] ++ p :: [] := rfl
    rw [refresh_of_error (x := x.alone p) hconf (alone_heartbeat hheart) hsplit hnone he]
    rfl
  · have hpersisted : (x.alone p).persisted = false := h.resolve_left herr
    have hnone : ¬ ∃ q ∈ (w.alone p).catalog.projects,
        Errs (x.alone p) (remote.filter (·.projectId == p.projectId)) q :=
      fun h => herr (alone_errs.mp h)
    rw [refresh_of_unwritten (x := x.alone p) hconf (alone_heartbeat hheart) hnone hpersisted]
    rfl

/-- Otherwise its visit is followed up. -/
theorem alone_of_follow (hids : UniqueIds w.catalog) (hp : p ∈ w.catalog.projects)
    (hconf : x.configured = true) (hheart : x.heartbeat = some remote)
    (hpersisted : x.persisted = true) (herr : ¬ Errs x remote p) :
    ((w.alone p).refresh (x.alone p)).1.view p.projectId =
      (visitedView x remote w p).follow x (visit x remote p) := by
  obtain ⟨f, hnext⟩ := Option.ne_none_iff_exists'.mp herr
  let r := remote.filter (·.projectId == p.projectId)
  let u := visitedWorld (x.alone p) r (w.alone p)
  have hvisit : visit (x.alone p) r p = visit x remote p := visit_alone x remote p
  have hview : u.view p.projectId = visitedView x remote w p := alone_visitedWorld_view hids hp
  have hids' : UniqueIds u.catalog :=
    (visited_sameIds (x.alone p) r (w.alone p)).unique (alone_uniqueIds hids hp)
  have hmem : (visit x remote p).record ∈ u.catalog.projects := by
    rw [← hvisit]
    exact List.mem_cons_self
  have hmissing : allMissing (x.alone p) r (w.alone p) =
      ((visit x remote p).missing).toList := by
    change List.filterMap _ [p] = _
    rw [filterMap_one, hvisit]
  have hreconciling : allReconciling (x.alone p) r (w.alone p) =
      pendingReconciliation [(p.projectId, f)] := by
    change pendingReconciliation (List.filterMap _ [p]) = _
    rw [filterMap_one, hvisit, hnext]
    rfl
  rw [refresh_of_written (x := x.alone p) hconf (alone_heartbeat hheart)
    (fun h => herr (alone_errs.mp h)) hpersisted, hmissing, hreconciling]
  simp only [Visit.missing, ProjectView.follow, ProjectView.published, Visit.publication,
    Visit.reconciles, hnext]
  cases f with
  | nothing => exact hview
  | publish b c =>
    have hown := (enqueue_spec (x := x) hids' hmem b c).own
    rw [visit_projectId, hview] at hown
    have hall : (u.enqueueAll (x.alone p) [((visit x remote p).record.projectId, b, c)]).1 =
        (u.enqueue x p.projectId b c).1 := by
      rw [visit_projectId]
      simp only [enqueueAll]
      split <;> rfl
    change (if (u.enqueueAll (x.alone p) [((visit x remote p).record.projectId, b, c)]).2 then _
      else _ : RefreshWorld Oid × Bool).1.view p.projectId = _
    split
    · exact (congrArg (·.view p.projectId) hall).trans hown
    · exact (congrArg (·.view p.projectId) hall).trans hown
  | reconcile =>
    change (u.schedule p.projectId).view p.projectId = { visitedView x remote w p with
      reconciling := true }
    rw [← hview]
    unfold schedule
    split
    · next hrunning => simp only [view, hrunning, decide_true]
    · simp only [view, List.mem_cons_self, decide_true]

end Alone

end Together

end RefreshWorld

end Resync
