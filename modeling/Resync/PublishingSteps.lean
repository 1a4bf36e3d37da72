import Resync.CallSteps
import Resync.DeliverySteps

/-! What the steps of the publishing system leave alone, and the few that write
the queue, the hosted branches or the catalog. -/
namespace Resync

variable {Oid Task : Type}

section Catalogs

def LocalProject.identity (p : LocalProject Oid) : String × String × String :=
  (p.projectId, p.localPath, p.remoteUrl)

theorem identity_projectId {p q : LocalProject Oid} (h : q.identity = p.identity) :
    q.projectId = p.projectId := congrArg Prod.fst h

theorem identity_localPath {p q : LocalProject Oid} (h : q.identity = p.identity) :
    q.localPath = p.localPath := congrArg (fun i => i.2.1) h

theorem identity_remoteUrl {p q : LocalProject Oid} (h : q.identity = p.identity) :
    q.remoteUrl = p.remoteUrl := congrArg (fun i => i.2.2) h

/-- Every name finds the same project, checkout and remote. -/
def SameProjects (c c' : LocalCatalog Oid) : Prop :=
  ∀ name, (findProject c' name).map (·.identity) = (findProject c name).map (·.identity)

theorem SameProjects.refl (c : LocalCatalog Oid) : SameProjects c c := fun _ => rfl

theorem sameProjects_updateProject (c : LocalCatalog Oid) (name : String)
    {f : LocalProject Oid → LocalProject Oid}
    (hf : ∀ p, findProject c name = some p → (f p).identity = p.identity) :
    SameProjects c (updateProject c name f) := by
  intro other
  refine find_modifyFirst (·.identity) (·.named other) c.projects fun p hp => ?_
  have hid : (f p).identity = p.identity := hf p hp
  refine ⟨?_, hid⟩
  rw [LocalProject.named, LocalProject.named, identity_projectId hid, identity_localPath hid]

/-- A project that was found is still found under the same name. -/
theorem SameProjects.find {c c' : LocalCatalog Oid} (h : SameProjects c c') {name : String}
    {p : LocalProject Oid} (hp : findProject c name = some p) :
    ∃ q, findProject c' name = some q ∧ q.identity = p.identity := by
  have hname := h name
  rw [hp] at hname
  exact Option.map_eq_some_iff.mp hname

theorem SameProjects.find_back {c c' : LocalCatalog Oid} (h : SameProjects c c') {name : String}
    {q : LocalProject Oid} (hq : findProject c' name = some q) :
    ∃ p, findProject c name = some p ∧ p.identity = q.identity := by
  have hname := h name
  rw [hq] at hname
  exact Option.map_eq_some_iff.mp hname.symm

end Catalogs

/-- The copy of a publication that a delivery has read to push it or to attempt
it again. -/
def Delivery.copy : Delivery Oid → Option (Publication Oid)
  | .loaded _ p | .projected _ p _ | .behind _ p _ _ | .reconciling _ p _ | .reconciled _ p _
  | .headRead _ p _ _ | .validating _ p _ | .validated _ p _ => some p
  | _ => none

/-- What no attempt of a publication changes. -/
def Publication.target (p : Publication Oid) : String × String × Branch :=
  (p.publicationId, p.projectId, p.branch)

namespace PublishWorld

variable {w w' : PublishWorld Oid Task}

/-- The second state has the same queue with its history. -/
structure SameQueue (w w' : PublishWorld Oid Task) : Prop where
  queue : w'.queue = w.queue
  recorded : w'.recorded = w.recorded
  acknowledged : w'.acknowledged = w.acknowledged
  issued : w'.issued = w.issued

/-- The hosted branches are the same, or one of them has moved. -/
def HostedMoves (allowed : String → Branch → Oid → Prop) (w w' : PublishWorld Oid Task) : Prop :=
  (w'.hosted = w.hosted ∧ w'.hostedLog = w.hostedLog) ∨
    ∃ url b c, allowed url b c ∧ w'.hosted = (w.setHosted url b c).hosted ∧
      w'.hostedLog = (w.setHosted url b c).hostedLog

/-- The users and the other clients touch neither the daemon nor its queue. -/
structure UserFrame (w w' : PublishWorld Oid Task) : Prop where
  queue : SameQueue w w'
  catalog : w'.catalog = w.catalog
  delivery : w'.delivery = w.delivery
  calls : ∀ task, w'.calls task = w.calls task ∨
    ∃ name path previous left, w'.calls task = .hookCheckout name path previous left
  publications : ∀ path, (w'.checkouts path).publications = (w.checkouts path).publications

theorem publications_setCheckout (w : PublishWorld Oid Task) (path : String)
    {r : LocalRefs Oid} (h : r.publications = (w.checkouts path).publications) (p : String) :
    ((w.setCheckout path r).checkouts p).publications = (w.checkouts p).publications := by
  change (Function.update w.checkouts path r p).publications = _
  by_cases hp : p = path
  · subst hp
    rw [Function.update_self]
    exact h
  · rw [Function.update_of_ne hp]

theorem setCheckout_frame (w : PublishWorld Oid Task) (path : String) {r : LocalRefs Oid}
    (h : r.publications = (w.checkouts path).publications) :
    UserFrame w (w.setCheckout path r) :=
  ⟨⟨rfl, rfl, rfl, rfl⟩, rfl, rfl, fun _ => Or.inl rfl, publications_setCheckout w path h⟩

section Steps

variable [DecidableEq Task]

theorem startHook_frame {u : PublishWorld Oid Task} {path : String} {previous : Option Oid}
    {left : Option Branch} {hook : Option (Task × String)}
    (h : u.startHook path previous left hook = some w') (hu : UserFrame w u) :
    UserFrame w w' ∧ w'.hosted = u.hosted ∧ w'.hostedLog = u.hostedLog := by
  cases hook with
  | none =>
    obtain rfl := Option.some.inj h
    exact ⟨hu, rfl, rfl⟩
  | some hook =>
    obtain ⟨task, name⟩ := hook
    simp only [startHook] at h
    split at h
    · split at h
      · obtain rfl := Option.some.inj h
        obtain ⟨hqueue, hrecorded, hacknowledged, hissued⟩ := hu.queue
        refine ⟨⟨⟨hqueue, hrecorded, hacknowledged, hissued⟩, hu.catalog, hu.delivery, fun t => ?_,
          hu.publications⟩, rfl, rfl⟩
        by_cases ht : t = task
        · subst ht
          exact Or.inr ⟨name, path, previous, left, Function.update_self ..⟩
        · have hsame : (u.setCall task (.hookCheckout name path previous left)).calls t =
              u.calls t := Function.update_of_ne ht ..
          rw [hsame]
          exact hu.calls t
      · cases h
    · cases h

variable [DecidableEq Oid] {G : CommitGraph Oid}

/-- A user's step leaves the hosted branches alone, and another client's push
moves one of them forward. -/
theorem user_frame {e : UserEvent Oid Task} (h : w.user G e = some w') :
    UserFrame w w' ∧
      HostedMoves (fun url b c => ∀ x ∈ w.hosted url b, G.Ancestor x c) w w' := by
  cases e with
  | commit path c =>
    simp only [user] at h
    split at h
    · split at h
      · obtain rfl := Option.some.inj h
        exact ⟨setCheckout_frame w path rfl, Or.inl ⟨rfl, rfl⟩⟩
      · obtain rfl := Option.some.inj h
        exact ⟨setCheckout_frame w path rfl, Or.inl ⟨rfl, rfl⟩⟩
    · cases h
  | rewrite path b c =>
    obtain rfl := Option.some.inj h
    exact ⟨setCheckout_frame w path rfl, Or.inl ⟨rfl, rfl⟩⟩
  | switch path b hook =>
    simp only [user] at h
    split at h
    · obtain ⟨hframe, hhosted, hlog⟩ := startHook_frame h (setCheckout_frame w path rfl)
      exact ⟨hframe, Or.inl ⟨hhosted, hlog⟩⟩
    · obtain ⟨hframe, hhosted, hlog⟩ := startHook_frame h (setCheckout_frame w path rfl)
      exact ⟨hframe, Or.inl ⟨hhosted, hlog⟩⟩
    · cases h
  | detach path c hook =>
    obtain ⟨hframe, hhosted, hlog⟩ := startHook_frame h (setCheckout_frame w path rfl)
    exact ⟨hframe, Or.inl ⟨hhosted, hlog⟩⟩
  | otherPush url b c =>
    simp only [user] at h
    split at h
    · next hforward =>
      obtain rfl := Option.some.inj h
      exact ⟨⟨⟨rfl, rfl, rfl, rfl⟩, rfl, rfl, fun _ => Or.inl rfl, fun _ => rfl⟩,
        Or.inr ⟨url, b, c, hforward, rfl, rfl⟩⟩
    · cases h

/-- A task that queues publications leaves the hosted branches, the delivery
and the other tasks alone, and keeps the projects. -/
structure CallFrame (task : Task) (w w' : PublishWorld Oid Task) : Prop where
  catalog : SameProjects w.catalog w'.catalog
  hosted : w'.hosted = w.hosted
  hostedLog : w'.hostedLog = w.hostedLog
  delivery : w'.delivery = w.delivery
  acknowledged : w'.acknowledged = w.acknowledged
  calls : ∀ t, t ≠ task → w'.calls t = w.calls t

def Call.isCreated : Call Oid → Prop
  | .created .. => True
  | _ => False

/-- The step creates no publication and queues none. -/
structure CallQuiet (task : Task) (w w' : PublishWorld Oid Task) : Prop where
  queue : SameQueue w w'
  checkouts : w'.checkouts = w.checkouts
  notCreated : ¬ Call.isCreated (w'.calls task)

/-- A publication is created, and its ref is written. -/
structure CallCreates (task : Task) (e : CallEvent Oid) (w w' : PublishWorld Oid Task)
    (name : String) (project : LocalProject Oid) (b : Branch) (c : Oid) (next : Next)
    (p : Publication Oid) : Prop where
  cloned : w.calls task = .cloned name project b c next
  created : w'.calls task = .created name p next
  first : PublicationQueue.existing w.queue project.projectId b c = none
  publication : ∃ id now, e = .create id now ∧ id ∉ w.issued ∧ w'.issued = id :: w.issued ∧
    p = .new id now project.projectId project.checkoutId b c (project.advertisedHeads b)
  queue : w'.queue = w.queue
  recorded : w'.recorded = w.recorded
  checkouts : w'.checkouts = Function.update w.checkouts project.localPath
    ((w.checkouts project.localPath).setPublication p.publicationId (some c))

/-- A publication is put in the queue. -/
structure CallPushes (task : Task) (e : CallEvent Oid) (w w' : PublishWorld Oid Task)
    (p : Publication Oid) : Prop where
  event : e = .push
  created : ∃ name next, w.calls task = .created name p next ∧ w'.calls task = .queued name next
  queue : w'.queue = w.queue ++ [p]
  recorded : w'.recorded = w.recorded ++ [p]
  issued : w'.issued = w.issued
  checkouts : w'.checkouts = w.checkouts

variable {task : Task}

omit [DecidableEq Oid] in
theorem calls_setCall_of_ne (w : PublishWorld Oid Task) (c : Call Oid) {t : Task}
    (h : t ≠ task) : (w.setCall task c).calls t = w.calls t := Function.update_of_ne h ..

omit [DecidableEq Oid] in
@[simp] theorem calls_setCall (w : PublishWorld Oid Task) (task : Task) (c : Call Oid) :
    (w.setCall task c).calls task = c := Function.update_self ..

omit [DecidableEq Task] [DecidableEq Oid] in
theorem next_call_not_created (name : String) (next : Next) :
    ¬ Call.isCreated (next.call name : Call Oid) := by
  cases next <;> exact id

omit [DecidableEq Task] [DecidableEq Oid] in
theorem afterRestart_not_created (call : Call Oid) : ¬ Call.isCreated call.afterRestart := by
  cases call <;> exact id

omit [DecidableEq Oid] in
theorem setCall_quiet {c : Call Oid} (hc : ¬ Call.isCreated c) :
    CallFrame task w (w.setCall task c) ∧ CallQuiet task w (w.setCall task c) := by
  refine ⟨⟨SameProjects.refl _, rfl, rfl, rfl, rfl, fun t ht => calls_setCall_of_ne w c ht⟩,
    ⟨⟨rfl, rfl, rfl, rfl⟩, rfl, ?_⟩⟩
  rw [calls_setCall]
  exact hc

omit [DecidableEq Oid] in
/-- A task writes a record of the same project and goes on. -/
theorem setProject_quiet {c : Call Oid} (hc : ¬ Call.isCreated c) {name : String}
    {f : LocalProject Oid → LocalProject Oid}
    (hf : ∀ p, findProject w.catalog name = some p → (f p).identity = p.identity) :
    CallFrame task w ((w.setProject name f).setCall task c) ∧
      CallQuiet task w ((w.setProject name f).setCall task c) := by
  refine ⟨⟨sameProjects_updateProject w.catalog name hf, rfl, rfl, rfl, rfl,
    fun t ht => calls_setCall_of_ne _ c ht⟩, ⟨⟨rfl, rfl, rfl, rfl⟩, rfl, ?_⟩⟩
  rw [calls_setCall]
  exact hc

omit [DecidableEq Task] in
theorem refreshed_identity (project : LocalProject Oid) (b : Branch) (c : Oid) :
    (refreshed G project b c).1.identity = project.identity := by
  unfold refreshed
  split
  · rfl
  · split
    · rfl
    · split
      · rfl
      · split <;> rfl

/-- What a task can do: create a publication, queue it, or go on without. -/
theorem call_cases {e : CallEvent Oid} (h : w.call G task e = some w') :
    CallFrame task w w' ∧ (CallQuiet task w w' ∨
      (∃ name project b c next p, CallCreates task e w w' name project b c next p) ∨
      ∃ p, CallPushes task e w w' p) := by
  -- Every event but `create` and `push` only moves its task on.
  have hquiet : ∀ {u}, CallFrame task w u ∧ CallQuiet task w u → CallFrame task w u ∧
      (CallQuiet task w u ∨
        (∃ name project b c next p, CallCreates task e w u name project b c next p) ∨
        ∃ p, CallPushes task e w u p) := fun hu => ⟨hu.1, Or.inl hu.2⟩
  -- `refresh` writes back the record that it holds, so the identity is kept.
  have hsame : ∀ {name : String} {project record : LocalProject Oid},
      findProject w.catalog name = some project → record.identity = project.identity →
        ∀ p, findProject w.catalog name = some p → record.identity = p.identity := by
    intro name project record hproject hrecord p hp
    obtain rfl := Option.some.inj (hproject.symm.trans hp)
    exact hrecord
  cases callStep_of_call h with
  | refreshesBranch | losesAccess | isOffline | activates =>
    exact hquiet (setProject_quiet id fun _ _ => rfl)
  | advertises place found => exact hquiet (setProject_quiet id (hsame found rfl))
  | refreshes place found headCommit decides =>
    subst decides
    refine hquiet (setProject_quiet ?_ (hsame found ?_))
    · split <;> exact id
    · split <;> exact refreshed_identity ..
  | finds => exact hquiet (setCall_quiet (next_call_not_created _ _))
  | records => exact hquiet (setProject_quiet (next_call_not_created _ _) fun _ _ => rfl)
  | creates place none fresh =>
    refine ⟨⟨SameProjects.refl _, rfl, rfl, rfl, rfl, fun t ht => ?_⟩,
      Or.inr (Or.inl ⟨_, _, _, _, _, _, place, Function.update_self ..,
        none, ⟨_, _, rfl, fresh, rfl, rfl⟩, rfl, rfl, rfl⟩)⟩
    exact Function.update_of_ne ht ..
  | queues place =>
    exact ⟨⟨SameProjects.refl _, rfl, rfl, rfl, rfl, fun t ht => Function.update_of_ne ht ..⟩,
      Or.inr (Or.inr ⟨_, rfl, ⟨_, _, place, Function.update_self ..⟩, rfl, rfl, rfl, rfl⟩)⟩
  | _ => exact hquiet (setCall_quiet id)

/-- The rest of the daemon leaves a project what and where it is. -/
theorem writeProject_eq_some {name : String} {record : LocalProject Oid}
    (h : w.step G (.writeProject name record : PublishEvent Oid Task) = some w') :
    (w' = w.setProject name fun _ => record) ∧ SameProjects w.catalog w'.catalog := by
  simp only [step] at h
  split at h
  · next project hproject =>
    split at h
    · next hsame =>
      obtain rfl := Option.some.inj h
      refine ⟨rfl, sameProjects_updateProject w.catalog name fun p hp => ?_⟩
      obtain rfl := Option.some.inj (hproject.symm.trans hp)
      rw [LocalProject.identity, LocalProject.identity, hsame.1, hsame.2.1, hsame.2.2]
    · cases h
  · cases h

theorem install_eq_some {path : String} {b : Branch} {new old : Oid}
    (h : w.step G (.install path b new old : PublishEvent Oid Task) = some w') :
    w' = w.setCheckout path ((w.checkouts path).setHead b new) := by
  simp only [step] at h
  split at h
  · exact (Option.some.inj h).symm
  · cases h

end Steps

section Deliveries

/-- What a delivery step leaves alone, and where what it writes comes from. -/
structure Delivers (e : DeliveryEvent Oid) (w w' : PublishWorld Oid Task) :
    Prop where
  calls : w'.calls = w.calls
  recorded : w'.recorded = w.recorded
  issued : w'.issued = w.issued
  catalog : SameProjects w.catalog w'.catalog
  heads : ∀ path, (w'.checkouts path).head = (w.checkouts path).head ∧
    (w'.checkouts path).heads = (w.checkouts path).heads
  copy : ∀ p ∈ w'.delivery.copy, p ∈ w.delivery.copy ∨ p ∈ w.queue
  queue : ∀ q ∈ w'.queue,
    (∃ p ∈ w.queue, q.target = p.target ∧ q.candidateCommitOid = p.candidateCommitOid ∧
      q.expectedRemoteOid = p.expectedRemoteOid) ∨
    ∃ now a p remoteHead head x, e = .retarget now ∧ w.delivery = .headRead a p remoteHead head ∧
      PublicationQueue.find w.queue p.publicationId = some x ∧
      q = x.retarget now head remoteHead
  hosted : HostedMoves (fun url b c =>
    ∃ p ∈ w.delivery.copy, c = p.candidateCommitOid ∧ w.hosted url b = p.expectedRemoteOid) w w'

variable {e : DeliveryEvent Oid}

theorem delivers_setDelivery {d : Delivery Oid}
    (h : ∀ p ∈ d.copy, p ∈ w.delivery.copy ∨ p ∈ w.queue) :
    Delivers e w (w.setDelivery d) :=
  ⟨rfl, rfl, rfl, SameProjects.refl _, fun _ => ⟨rfl, rfl⟩, h,
    fun q hq => Or.inl ⟨q, hq, rfl, rfl, rfl⟩, Or.inl ⟨rfl, rfl⟩⟩

/-- The delivery goes to a place without a copy. -/
theorem delivers_place {d : Delivery Oid} (h : d.copy = none) :
    Delivers e w (w.setDelivery d) := by
  apply delivers_setDelivery
  intro p hp
  rw [h] at hp
  cases hp

/-- The delivery goes on with the copy that it has. -/
theorem delivers_on {d : Delivery Oid} (h : d.copy = w.delivery.copy) :
    Delivers e w (w.setDelivery d) := by
  apply delivers_setDelivery
  intro p hp
  rw [h] at hp
  exact Or.inl hp

theorem delivers_setProject {d : Delivery Oid} (h : ∀ p ∈ d.copy, p ∈ w.delivery.copy)
    {name : String}
    {f : LocalProject Oid → LocalProject Oid}
    (hf : ∀ p, findProject w.catalog name = some p → (f p).identity = p.identity) :
    Delivers e w ((w.setProject name f).setDelivery d) := by
  exact ⟨rfl, rfl, rfl, sameProjects_updateProject w.catalog name hf, fun _ => ⟨rfl, rfl⟩,
    fun p hp => Or.inl (h p hp), fun q hq => Or.inl ⟨q, hq, rfl, rfl, rfl⟩, Or.inl ⟨rfl, rfl⟩⟩

/-- The push leaves what it carries at the hosted branch, which was as the
publication expects. -/
theorem delivers_push {a : Attempt Oid} {p : Publication Oid} {project : LocalProject Oid}
    (hplace : w.delivery = .validated a p project)
    (hexpected : w.hosted project.remoteUrl p.branch = p.expectedRemoteOid) {d : Delivery Oid}
    (hd : d.copy = none) :
    Delivers e w ((w.setHosted project.remoteUrl p.branch p.candidateCommitOid).setDelivery d) := by
  refine ⟨rfl, rfl, rfl, SameProjects.refl _, fun _ => ⟨rfl, rfl⟩, fun q hq => ?_,
    fun q hq => Or.inl ⟨q, hq, rfl, rfl, rfl⟩,
    Or.inr ⟨project.remoteUrl, p.branch, p.candidateCommitOid, ⟨p, ?_, rfl, hexpected⟩, rfl, rfl⟩⟩
  · have hq : q ∈ d.copy := hq
    rw [hd] at hq
    cases hq
  · rw [hplace]
    exact Option.mem_some_self p

variable [DecidableEq Oid] {G : CommitGraph Oid}

theorem deliver_frame (h : w.deliver G e = some w') : Delivers e w w' := by
  cases deliveryStep_of_deliver h with
  | loads place left found =>
    apply delivers_setDelivery
    intro q hq
    obtain rfl := Option.mem_some.mp hq
    exact Or.inr (PublicationQueue.find_eq_some found).1
  | projects place | fetchesExpected place | fetchesOther place | reconciles place
  | readsHead place | validates place => exact delivers_on (by rw [place]; rfl)
  | checks place =>
    refine delivers_setProject (fun q hq => ?_) fun _ _ => rfl
    rw [place]
    exact hq
  | @retargets a p x remoteHead head now place found =>
    refine ⟨rfl, rfl, rfl, SameProjects.refl _, fun _ => ⟨rfl, rfl⟩, fun q hq => ?_,
      fun q hq => ?_, Or.inl ⟨rfl, rfl⟩⟩
    · cases hq
    · -- `retarget` changes the first publication of the name and no other
      rcases mem_modifyFirst hq with hq | ⟨x, hx, rfl⟩
      · exact Or.inl ⟨q, hq, rfl, rfl, rfl⟩
      · exact Or.inr ⟨now, a, p, remoteHead, head, x, rfl, place, hx, rfl⟩
  | @pushes a p project answered place expected =>
    apply delivers_push place expected
    cases answered <;> rfl
  | completes =>
    refine ⟨rfl, rfl, rfl, SameProjects.refl _, fun _ => ⟨rfl, rfl⟩, fun q hq => ?_,
      fun q hq => Or.inl ?_, Or.inl ⟨rfl, rfl⟩⟩
    · cases hq
    · -- what the compaction leaves was in the queue before, with the same candidate
      obtain ⟨r, hr, hrq⟩ := List.mem_map.mp ((PublicationQueue.compact_sublist _).subset hq)
      refine ⟨r, hr, ?_⟩
      rw [← hrq]
      split <;> exact ⟨rfl, rfl, rfl⟩
  | records => exact delivers_setProject (fun _ hq => by cases hq) fun _ _ => rfl
  | @deletes a path id ids =>
    refine ⟨rfl, rfl, rfl, SameProjects.refl _, fun p => ?_, fun q hq => ?_,
      fun q hq => Or.inl ⟨q, hq, rfl, rfl, rfl⟩, Or.inl ⟨rfl, rfl⟩⟩
    · change (Function.update w.checkouts path _ p).head = _ ∧
        (Function.update w.checkouts path _ p).heads = _
      by_cases hp : p = path
      · subst hp
        rw [Function.update_self]
        exact ⟨rfl, rfl⟩
      · rw [Function.update_of_ne hp]
        exact ⟨rfl, rfl⟩
    · cases hq
  | recordsFailure =>
    refine ⟨rfl, rfl, rfl, SameProjects.refl _, fun _ => ⟨rfl, rfl⟩, fun q hq => ?_,
      fun q hq => Or.inl ?_, Or.inl ⟨rfl, rfl⟩⟩
    · cases hq
    · -- a failure changes neither the candidate nor the expectation
      rcases mem_modifyFirst hq with hq | ⟨x, hx, rfl⟩
      · exact ⟨q, hq, rfl, rfl, rfl⟩
      · exact ⟨x, List.mem_of_find?_eq_some hx, rfl, rfl, rfl⟩
  | notesFailure => exact delivers_setProject (fun _ hq => by cases hq) fun _ _ => rfl
  | _ => exact delivers_place rfl

end Deliveries

end PublishWorld

end Resync
