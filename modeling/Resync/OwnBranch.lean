import Resync.DaemonSteps
import Resync.HostedForward

/-! A branch that only the queue of its own checkout advances: what the run of the
daemon keeps about its commits and its publications. -/
namespace Resync

variable {Oid Task : Type}

/-- A branch of a project, with the checkout and the hosted repository. -/
structure OwnBranch where
  projectId : String
  path : String
  url : String
  branch : Branch

namespace PublishWorld

/-- The IDs of the queue, and of what is about to be queued, name one publication
each. -/
structure DistinctIds (w : PublishWorld Oid Task) : Prop where
  ids : (w.queue.map (·.publicationId)).Nodup
  issued : ∀ q ∈ w.queue, q.publicationId ∈ w.issued
  created : ∀ task name p next, w.calls task = .created name p next →
    p.publicationId ∈ w.issued ∧ ∀ q ∈ w.queue, q.publicationId ≠ p.publicationId
  apart : ∀ task task' name name' p p' next next', w.calls task = .created name p next →
    w.calls task' = .created name' p' next' → p.publicationId = p'.publicationId → task = task'

namespace DistinctIds

variable {w w' : PublishWorld Oid Task}

theorem of_start (h : Start w) : DistinctIds w where
  ids := by
    rw [h.queue]
    exact List.nodup_nil
  issued q hq := by
    rw [h.queue] at hq
    cases hq
  created task name p next hc := by
    rw [h.calls task] at hc
    cases hc
  apart task task' name name' p p' next next' hc := by
    rw [h.calls task] at hc
    cases hc

theorem unique (h : DistinctIds w) {p q : Publication Oid} (hp : p ∈ w.queue) (hq : q ∈ w.queue)
    (hid : p.publicationId = q.publicationId) : p = q :=
  List.inj_on_of_nodup_map h.ids hp hq hid

/-- The queue keeps at most its IDs, and no task creates a publication. -/
theorem of_queue (h : DistinctIds w)
    (hids : (w'.queue.map (·.publicationId)).Sublist (w.queue.map (·.publicationId)))
    (hissued : w'.issued = w.issued)
    (hcalls : ∀ task name p next, w'.calls task = .created name p next →
      w.calls task = .created name p next) : DistinctIds w' := by
  have hback : ∀ q ∈ w'.queue, ∃ r ∈ w.queue, r.publicationId = q.publicationId :=
    fun q hq => List.mem_map.mp (hids.subset (List.mem_map_of_mem hq))
  refine ⟨h.ids.sublist hids, fun q hq => ?_, fun task name p next hc => ?_,
    fun task task' name name' p p' next next' hc hc' =>
      h.apart task task' name name' p p' next next' (hcalls _ _ _ _ hc) (hcalls _ _ _ _ hc')⟩
  · obtain ⟨r, hr, hid⟩ := hback q hq
    rw [hissued, ← hid]
    exact h.issued r hr
  · obtain ⟨hissue, hqueue⟩ := h.created task name p next (hcalls _ _ _ _ hc)
    refine ⟨hissued ▸ hissue, fun q hq => ?_⟩
    obtain ⟨r, hr, hid⟩ := hback q hq
    rw [← hid]
    exact hqueue r hr

theorem of_sameQueue (h : DistinctIds w) (hqueue : SameQueue w w')
    (hcalls : ∀ task name p next, w'.calls task = .created name p next →
      w.calls task = .created name p next) : DistinctIds w' :=
  h.of_queue (by rw [hqueue.queue]) hqueue.issued hcalls

section Steps

theorem push (h : DistinctIds w) {task : Task} {e : CallEvent Oid} {p : Publication Oid}
    (hframe : CallFrame task w w') (hpush : CallPushes task e w w' p) : DistinctIds w' := by
  obtain ⟨name, next, hcreated, hqueued⟩ := hpush.created
  obtain ⟨hissued, hfresh⟩ := h.created task name p next hcreated
  -- another task holds the same publication as before
  have hother : ∀ t name q next, w'.calls t = .created name q next →
      t ≠ task ∧ w.calls t = .created name q next := by
    intro t name q next hc
    have ht : t ≠ task := by
      rintro rfl
      rw [hqueued] at hc
      cases hc
    exact ⟨ht, (hframe.calls t ht).symm.trans hc⟩
  refine ⟨?_, fun q hq => ?_, fun t name' q next' hc => ?_,
    fun t t' n n' q q' x x' hc hc' =>
      h.apart t t' n n' q q' x x' (hother _ _ _ _ hc).2 (hother _ _ _ _ hc').2⟩
  · rw [hpush.queue, List.map_append]
    refine h.ids.append (List.nodup_singleton _) fun i hi hi' => ?_
    obtain ⟨q, hq, rfl⟩ := List.mem_map.mp hi
    exact hfresh q hq (List.mem_singleton.mp hi')
  · rw [hpush.issued]
    rw [hpush.queue] at hq
    rcases List.mem_append.mp hq with hq | hq
    · exact h.issued q hq
    · rw [List.mem_singleton.mp hq]
      exact hissued
  · obtain ⟨ht, hold⟩ := hother t name' q next' hc
    obtain ⟨hissue, hqueue⟩ := h.created t name' q next' hold
    refine ⟨hpush.issued ▸ hissue, fun r hr => ?_⟩
    rw [hpush.queue] at hr
    rcases List.mem_append.mp hr with hr | hr
    · exact hqueue r hr
    · rw [List.mem_singleton.mp hr]
      exact fun hid => ht (h.apart t task _ _ _ _ _ _ hold hcreated hid.symm)

variable [DecidableEq Oid]

theorem create (h : DistinctIds w) {task : Task} {e : CallEvent Oid} {name : String}
    {project : LocalProject Oid} {b : Branch} {c : Oid} {next : Next} {p : Publication Oid}
    (hframe : CallFrame task w w') (hcreate : CallCreates task e w w' name project b c next p) :
    DistinctIds w' := by
  obtain ⟨id, now, -, hfresh, hissued, hp⟩ := hcreate.publication
  have hid : p.publicationId = id := by rw [hp, Publication.new]
  have hcases : ∀ t name q next, w'.calls t = .created name q next →
      t = task ∧ q = p ∨ t ≠ task ∧ w.calls t = .created name q next := by
    intro t name q next hc
    by_cases ht : t = task
    · subst ht
      rw [hcreate.created] at hc
      obtain ⟨-, rfl, -⟩ := Call.created.inj hc
      exact Or.inl ⟨rfl, rfl⟩
    · exact Or.inr ⟨ht, (hframe.calls t ht).symm.trans hc⟩
  refine ⟨?_, fun q hq => ?_, fun t n q x hc => ?_, fun t t' n n' q q' x x' hc hc' heq => ?_⟩
  · rw [hcreate.queue]
    exact h.ids
  · rw [hcreate.queue] at hq
    rw [hissued]
    exact List.mem_cons_of_mem id (h.issued q hq)
  · rw [hissued, hcreate.queue]
    rcases hcases t n q x hc with ⟨rfl, rfl⟩ | ⟨-, hold⟩
    · refine ⟨hid ▸ List.mem_cons_self, fun r hr heq => hfresh ?_⟩
      rw [← hid, ← heq]
      exact h.issued r hr
    · obtain ⟨hissue, hqueue⟩ := h.created t n q x hold
      exact ⟨List.mem_cons_of_mem id hissue, hqueue⟩
  · rcases hcases t n q x hc with ⟨rfl, rfl⟩ | ⟨-, hold⟩
    · rcases hcases t' n' q' x' hc' with ⟨rfl, -⟩ | ⟨-, hold'⟩
      · rfl
      · refine absurd ?_ hfresh
        rw [← hid, heq]
        exact (h.created t' n' q' x' hold').1
    · rcases hcases t' n' q' x' hc' with ⟨rfl, rfl⟩ | ⟨-, hold'⟩
      · refine absurd ?_ hfresh
        rw [← hid, ← heq]
        exact (h.created t n q x hold).1
      · exact h.apart t t' n n' q q' x x' hold hold' heq

variable {G : CommitGraph Oid}

/-- A delivery draws no ID and keeps those of the queue that it does not drop. -/
theorem deliver_ids {e : DeliveryEvent Oid} (h : w.deliver G e = some w') :
    (w'.queue.map (·.publicationId)).Sublist (w.queue.map (·.publicationId)) := by
  have hmodify : ∀ {f : Publication Oid → Publication Oid} {id : String},
      (∀ q, (f q).publicationId = q.publicationId) →
      ((PublicationQueue.modify f id w.queue).map (·.publicationId)).Sublist
        (w.queue.map (·.publicationId)) := by
    intro f id hf
    rw [PublicationQueue.modify, map_modifyFirst _ _ fun q _ => hf q]
  cases deliveryStep_of_deliver h with
  | retargets | recordsFailure => exact hmodify fun _ => rfl
  | completes => exact PublicationQueue.complete_ids ..
  | _ => exact List.Sublist.refl _

variable [DecidableEq Task]

theorem step (h : DistinctIds w) {e : PublishEvent Oid Task} (hs : w.step G e = some w') :
    DistinctIds w' := by
  cases e with
  | user e =>
    have hframe := (user_frame hs).1
    apply h.of_sameQueue hframe.queue
    intro task name p next hc
    rcases hframe.calls task with hsame | ⟨n, path, previous, left, hhook⟩
    · exact hsame.symm.trans hc
    · rw [hhook] at hc
      cases hc
  | call task e =>
    obtain ⟨hframe, hquiet | ⟨name, project, b, c, next, p, hcreate⟩ | ⟨p, hpush⟩⟩ :=
      call_cases hs
    · apply h.of_sameQueue hquiet.queue
      intro t name p next hc
      have ht : t ≠ task := by
        rintro rfl
        have hnot := hquiet.notCreated
        rw [hc] at hnot
        exact hnot trivial
      exact (hframe.calls t ht).symm.trans hc
    · exact h.create hframe hcreate
    · exact h.push hframe hpush
  | deliver e =>
    have hframe := deliver_frame hs
    refine h.of_queue (deliver_ids hs) hframe.issued fun task name p next hc => ?_
    rw [hframe.calls] at hc
    exact hc
  | writeProject name record =>
    obtain ⟨rfl, -⟩ := writeProject_eq_some hs
    exact ⟨h.ids, h.issued, h.created, h.apart⟩
  | install path b new old =>
    obtain rfl := install_eq_some hs
    exact ⟨h.ids, h.issued, h.created, h.apart⟩
  | restart =>
    obtain rfl := Option.some.inj hs
    refine h.of_sameQueue ⟨rfl, rfl, rfl, rfl⟩ fun task name p next hc => ?_
    have hnot := afterRestart_not_created (w.calls task)
    change (w.calls task).afterRestart = _ at hc
    rw [hc] at hnot
    exact absurd trivial hnot

end Steps

end DistinctIds

end PublishWorld

namespace DaemonWorld

open PublishWorld

/-- A step of a reconciliation leaves the queue, the hosted branches and the tasks
alone, and takes no new copy of a publication. -/
structure ReconcileFrame (w w' : PublishWorld Oid Task) : Prop where
  queue : SameQueue w w'
  hosted : w'.hosted = w.hosted
  calls : w'.calls = w.calls
  head : ∀ path, (w'.checkouts path).head = (w.checkouts path).head
  copy : ∀ p ∈ w'.delivery.copy, p ∈ w.delivery.copy

variable [DecidableEq Oid] [DecidableEq Task] {G : CommitGraph Oid} {w w' : DaemonWorld Oid Task}

omit [DecidableEq Oid] [DecidableEq Task] in
theorem ReconcileFrame.refl (w : PublishWorld Oid Task) : ReconcileFrame w w :=
  ⟨⟨rfl, rfl, rfl, rfl⟩, rfl, rfl, fun _ => rfl, fun _ h => h⟩

omit [DecidableEq Oid] [DecidableEq Task] in
theorem ReconcileFrame.setProject {w w' : PublishWorld Oid Task} (h : ReconcileFrame w w')
    (name : String) (f : LocalProject Oid → LocalProject Oid) :
    ReconcileFrame w (w'.setProject name f) :=
  ⟨⟨h.queue.queue, h.queue.recorded, h.queue.acknowledged, h.queue.issued⟩, h.hosted, h.calls,
    h.head, h.copy⟩

theorem InstallMoves.frame {task : Option Task} {installed : Installed}
    {publish : PublishWorld Oid Task} (h : InstallMoves G w task installed publish) :
    ReconcileFrame w.publish publish := by
  cases h with
  | stays => exact ReconcileFrame.refl _
  | @moves caller name p candidate project publish _ _ _ _ hstep =>
    obtain rfl := install_eq_some hstep
    refine ⟨⟨rfl, rfl, rfl, rfl⟩, rfl, rfl, fun path => ?_, fun _ hp => hp⟩
    change (Function.update w.publish.checkouts project.localPath _ path).head = _
    by_cases hpath : path = project.localPath
    · rw [hpath, Function.update_self]
      rfl
    · rw [Function.update_of_ne hpath]

omit [DecidableEq Task] in
/-- The answer of a reconciliation lets the delivery go on with its copy, or ends it. -/
theorem deliver_answer_frame {w w' : PublishWorld Oid Task} {e : DeliveryEvent Oid}
    {error : String} (he : e = .fail error ∨ ∃ outcome, e = .reconcile outcome)
    (h : w.deliver G e = some w') : ReconcileFrame w w' := by
  have hplace : ∀ d : Delivery Oid, (∀ p ∈ d.copy, p ∈ w.delivery.copy) →
      ReconcileFrame w (w.setDelivery d) := fun d hd =>
    ⟨⟨rfl, rfl, rfl, rfl⟩, rfl, rfl, fun _ => rfl, hd⟩
  rcases he with rfl | ⟨outcome, rfl⟩
  · obtain ⟨a, -, rfl⟩ := Option.map_eq_some_iff.mp h
    exact hplace _ fun p hp => by cases hp
  · cases PublishWorld.deliveryStep_of_deliver h with
    | reconciles place =>
      apply hplace
      intro q hq
      rw [place]
      exact hq
    | _ => exact hplace _ fun p hp => by cases hp

theorem reconcile_keeps {task : Option Task} {e : ReconcileEvent Oid}
    (h : w.reconcile G task e = some w') : ReconcileFrame w.publish w'.publish := by
  cases reconcile_publish h with
  | stays same =>
    rw [same]
    exact ReconcileFrame.refl _
  | merges _ same | notes _ same =>
    rw [same]
    exact (ReconcileFrame.refl _).setProject _ _
  | installs _ moves => exact moves.frame
  | installsResult _ moves _ same =>
    rw [same]
    exact moves.frame.setProject _ _
  | answers _ kind delivers => exact deliver_answer_frame kind delivers

theorem step_sameProjects {e : DaemonEvent Oid Task} (h : w.step G e = some w') :
    SameProjects w.publish.catalog w'.publish.catalog := by
  rcases step_writes h with hsame | ⟨name, f, hw, hf⟩
  · rw [hsame]
    exact SameProjects.refl _
  · rw [hw]
    apply sameProjects_updateProject
    intro p hp
    obtain ⟨i, hi, hp⟩ := findProject_eq_some.mp hp
    exact (hf i p hi hp).identity

theorem distinctIds_step (h : DistinctIds w.publish) {e : DaemonEvent Oid Task}
    (hs : w.step G e = some w') : DistinctIds w'.publish := by
  cases e with
  | publish e => exact h.step (publishes_step hs).1
  | reconcile task e =>
    have hframe := reconcile_keeps hs
    refine h.of_sameQueue hframe.queue fun task name p next hc => ?_
    rw [hframe.calls] at hc
    exact hc

end DaemonWorld

namespace OwnBranch

variable (o : OwnBranch)

def owns (p : Publication Oid) : Bool := p.projectId == o.projectId && p.branch == o.branch

def localHead (w : PublishWorld Oid Task) : Option Oid := (w.checkouts o.path).heads o.branch

def hostedHead (w : PublishWorld Oid Task) : Option Oid := w.hosted o.url o.branch

def Known (w : PublishWorld Oid Task) : Prop :=
  ∃ project, findProject w.catalog o.projectId = some project ∧ project.localPath = o.path ∧
    project.remoteUrl = o.url

/-- The commit is in the local branch. -/
def Covers (G : CommitGraph Oid) (w : PublishWorld Oid Task) (c : Oid) : Prop :=
  ∃ h ∈ o.localHead w, G.Ancestor c h

/-- The step pushes a publication of the branch. -/
def pushes (w : DaemonWorld Oid Task) : DaemonEvent Oid Task → Bool
  | .publish (.deliver (.push _)) =>
    match w.publish.delivery with
    | .validated _ p _ => o.owns p
    | _ => false
  | _ => false

section Steps

variable [DecidableEq Oid] [DecidableEq Task] (G : CommitGraph Oid)

instance (w : PublishWorld Oid Task) (c : Oid) : Decidable (o.Covers G w c) :=
  inferInstanceAs (Decidable (∃ h ∈ o.localHead w, G.Ancestor c h))

/-- The commits of the branch are added on top of each other, and so are those
that are queued for it; only its own publications move the hosted branch. -/
def OnTop (w : DaemonWorld Oid Task) (e : DaemonEvent Oid Task) : Prop :=
  ∀ w' ∈ w.step G e, (∀ c ∈ o.localHead w.publish, o.Covers G w'.publish c) ∧
    (∀ q ∈ w'.publish.queue, o.owns q = true → o.Covers G w'.publish q.candidateCommitOid) ∧
    (o.hostedHead w'.publish ≠ o.hostedHead w.publish → o.pushes w e = true)

instance (w : DaemonWorld Oid Task) (e : DaemonEvent Oid Task) : Decidable (o.OnTop G w e) :=
  inferInstanceAs (Decidable (∀ w' ∈ w.step G e, _ ∧ _ ∧ _))

/-- The hosted branch and all that is queued for it is in the local branch. -/
structure Rooted (w : PublishWorld Oid Task) : Prop where
  ids : w.DistinctIds
  known : o.Known w
  hosted : ∀ r ∈ o.hostedHead w, o.Covers G w r
  queue : ∀ q ∈ w.queue, o.owns q = true → o.Covers G w q.candidateCommitOid
  copy : ∀ p ∈ w.delivery.copy, o.owns p = true → o.Covers G w p.candidateCommitOid

end Steps

section Roots

variable {o} [DecidableEq Oid] [DecidableEq Task] {G : CommitGraph Oid}

omit [DecidableEq Oid] [DecidableEq Task] in
theorem rooted_start {w : PublishWorld Oid Task} (h : w.Start) (hknown : o.Known w)
    (hhosted : ∀ r ∈ o.hostedHead w, o.Covers G w r) : o.Rooted G w where
  ids := .of_start h
  known := hknown
  hosted := hhosted
  queue q hq := by
    rw [h.queue] at hq
    cases hq
  copy p hp := by
    rw [h.delivery] at hp
    cases hp

omit [DecidableEq Oid] [DecidableEq Task] in
theorem Covers.mono {w w' : PublishWorld Oid Task} {c : Oid} (h : o.Covers G w c)
    (hlocal : ∀ c ∈ o.localHead w, o.Covers G w' c) : o.Covers G w' c := by
  obtain ⟨x, hx, hc⟩ := h
  obtain ⟨y, hy, hxy⟩ := hlocal x hx
  exact ⟨y, hy, hc.trans hxy⟩

omit [DecidableEq Oid] [DecidableEq Task] in
theorem Known.step {w w' : PublishWorld Oid Task} (h : o.Known w)
    (hcatalog : SameProjects w.catalog w'.catalog) : o.Known w' := by
  obtain ⟨project, hproject, hpath, hurl⟩ := h
  obtain ⟨q, hq, hid⟩ := hcatalog.find hproject
  exact ⟨q, hq, (identity_localPath hid).trans hpath,
    (identity_remoteUrl hid).trans hurl⟩

/-- Where the hosted branch moves, it moves to the candidate of a publication of the
branch. -/
theorem hosted_of_pushes {w w' : DaemonWorld Oid Task} {e : DaemonEvent Oid Task}
    (h : w.step G e = some w') (hpush : o.pushes w e = true) {r : Oid}
    (hr : r ∈ o.hostedHead w'.publish) : r ∈ o.hostedHead w.publish ∨
      ∃ p ∈ w.publish.delivery.copy, o.owns p = true ∧ r = p.candidateCommitOid := by
  unfold pushes at hpush
  split at hpush
  · next answered =>
    split at hpush
    · next a p project hplace =>
      have hpublishes : w.publishes G (.deliver (.push answered)) = some w' := h
      have hstep := (DaemonWorld.publishes_step hpublishes).1
      simp only [PublishWorld.step, PublishWorld.deliver, hplace] at hstep
      split at hstep
      · have hw := Option.some.inj hstep
        rw [← hw] at hr
        change r ∈ Function.update w.publish.hosted project.remoteUrl _ o.url o.branch at hr
        by_cases hurl : o.url = project.remoteUrl
        · rw [hurl, Function.update_self] at hr
          by_cases hb : o.branch = p.branch
          · rw [hb, Function.update_self] at hr
            refine Or.inr ⟨p, ?_, hpush, (Option.some.inj hr).symm⟩
            rw [hplace]
            exact Option.mem_some_self p
          · rw [Function.update_of_ne hb, ← hurl] at hr
            exact Or.inl hr
        · rw [Function.update_of_ne hurl] at hr
          exact Or.inl hr
      · have hw := Option.some.inj hstep
        rw [← hw] at hr
        exact Or.inl hr
    · cases hpush
  · cases hpush

/-- A step takes its copy of a publication from the queue. -/
theorem copy_step {w w' : DaemonWorld Oid Task} {e : DaemonEvent Oid Task}
    (h : w.step G e = some w') {p : Publication Oid} (hp : p ∈ w'.publish.delivery.copy) :
    p ∈ w.publish.delivery.copy ∨ p ∈ w.publish.queue := by
  cases e with
  | reconcile task e => exact Or.inl ((DaemonWorld.reconcile_keeps h).copy p hp)
  | publish e =>
    have hpublishes : w.publishes G e = some w' := h
    have hstep := (DaemonWorld.publishes_step hpublishes).1
    cases e with
    | user e =>
      rw [(PublishWorld.user_frame hstep).1.delivery] at hp
      exact Or.inl hp
    | call task e =>
      rw [(PublishWorld.call_cases hstep).1.delivery] at hp
      exact Or.inl hp
    | deliver e => exact (PublishWorld.deliver_frame hstep).copy p hp
    | writeProject name record => cases h
    | install path b new old => cases h
    | restart =>
      have hw := Option.some.inj hstep
      rw [← hw] at hp
      cases hp

theorem Rooted.step {w w' : DaemonWorld Oid Task} {e : DaemonEvent Oid Task}
    (h : o.Rooted G w.publish) (htop : o.OnTop G w e) (hs : w.step G e = some w') :
    o.Rooted G w'.publish := by
  obtain ⟨hlocal, hqueue, hpush⟩ := htop w' hs
  refine ⟨DaemonWorld.distinctIds_step h.ids hs, h.known.step (DaemonWorld.step_sameProjects hs),
    fun r hr => ?_, hqueue, fun p hp hown => ?_⟩
  · by_cases hsame : o.hostedHead w'.publish = o.hostedHead w.publish
    · rw [hsame] at hr
      exact (h.hosted r hr).mono hlocal
    · rcases hosted_of_pushes hs (hpush hsame) hr with hr | ⟨p, hp, hown, rfl⟩
      · exact (h.hosted r hr).mono hlocal
      · exact (h.copy p hp hown).mono hlocal
  · rcases copy_step hs hp with hp | hp
    · exact (h.copy p hp hown).mono hlocal
    · exact (h.queue p hp hown).mono hlocal

end Roots

end OwnBranch

end Resync
