import Resync.BranchHeads
import Resync.DaemonSteps

/-! The writes of `active_branch`, and the ways in which a commit that was queued
or hosted stays so. -/
namespace Resync

variable {Oid Task : Type}

/-- The call is on its way to the queue with a clone of the project, or past it. -/
def Call.underway : Call Oid → Bool
  | .cloned .. | .created .. | .queued .. | .activating .. => true
  | _ => false

namespace PublishWorld

section Statements

variable (G : CommitGraph Oid)

def InHosted (w : PublishWorld Oid Task) (url : String) (b : Branch) (c : Oid) : Prop :=
  ∃ head, w.hosted url b = some head ∧ G.Ancestor c head

/-- The commit is on the hosted branch, or the queue has a publication of it
for the branch. -/
def Kept (w : PublishWorld Oid Task) (p : LocalProject Oid) (b : Branch) (c : Oid) : Prop :=
  w.InHosted G p.remoteUrl b c ∨ (p.projectId, b, c) ∈ w.queue.map (·.source)

/-- A push leaves the hosted commits in the history of the branch, and a
publication that a compaction drops is of a hosted commit. -/
def KeepsQueued [DecidableEq Oid] (w : PublishWorld Oid Task) : PublishEvent Oid Task → Prop
  | .deliver (.push _) =>
    match w.delivery with
    | .validated _ p project => w.hosted project.remoteUrl p.branch = p.expectedRemoteOid →
        ∀ x ∈ p.expectedRemoteOid, G.Ancestor x p.candidateCommitOid
    | _ => True
  | .deliver (.complete now) =>
    match w.delivery with
    | .acked _ p ack =>
      ∀ project ∈ w.catalog.projects, ∀ (b : Branch) (c : Oid),
        (project.projectId, b, c) ∈ w.queue.map (·.source) →
          (project.projectId, b, c) ∈ (PublicationQueue.complete now p ack w.queue).map (·.source) ∨
            w.InHosted G project.remoteUrl b c
    | _ => True
  | _ => True

end Statements

variable [DecidableEq Oid] {G : CommitGraph Oid} {w w' : PublishWorld Oid Task}

/-- Only a completion changes what the queue has publications of. -/
theorem deliver_sources {e : DeliveryEvent Oid} (h : w.deliver G e = some w') :
    w'.queue.map (·.source) = w.queue.map (·.source) ∨
      ∃ now a p ack, e = .complete now ∧ w.delivery = .acked a p ack ∧
        w'.queue = PublicationQueue.complete now p ack w.queue := by
  cases deliveryStep_of_deliver h with
  | completes place => exact Or.inr ⟨_, _, _, _, rfl, place, rfl⟩
  | retargets | recordsFailure => exact Or.inl (map_modifyFirst _ _ fun _ _ => rfl)
  | _ => exact Or.inl rfl

/-- Only a push changes the hosted branches. -/
theorem deliver_hosted {e : DeliveryEvent Oid} (h : w.deliver G e = some w') :
    w'.hosted = w.hosted ∨ ∃ answered a p project, e = .push answered ∧
      w.delivery = .validated a p project ∧
      w.hosted project.remoteUrl p.branch = p.expectedRemoteOid ∧
      w'.hosted = (w.setHosted project.remoteUrl p.branch p.candidateCommitOid).hosted := by
  cases deliveryStep_of_deliver h with
  | pushes place expected => exact Or.inr ⟨_, _, _, _, rfl, place, expected, rfl⟩
  | _ => exact Or.inl rfl

omit [DecidableEq Oid] in
theorem inHosted_of_grows (h : HostedGrows G w w') {url : String} {b : Branch} {c : Oid}
    (hc : w.InHosted G url b c) : w'.InHosted G url b c := by
  obtain ⟨head, hhead, hancestor⟩ := hc
  obtain ⟨head', hhead', hgrow⟩ := h url b head hhead
  exact ⟨head', hhead', hancestor.trans hgrow⟩

variable [DecidableEq Task]

/-- Under the condition no hosted branch loses a commit. -/
theorem KeepsQueued.grows {e : PublishEvent Oid Task} (hok : KeepsQueued G w e)
    (hs : w.step G e = some w') : HostedGrows G w w' := by
  have hsame : w'.hosted = w.hosted → HostedGrows G w w' := by
    intro heq url b x hx
    rw [heq]
    exact ⟨x, hx, CommitGraph.Ancestor.refl x⟩
  cases e with
  | user e => exact hostedGrows_of_moves (user_frame hs).2 fun _ _ _ hc => hc
  | call task e => exact hsame (call_cases hs).1.hosted
  | deliver e =>
    rcases deliver_hosted hs with heq | ⟨answered, a, p, project, rfl, hplace, hexpected, heq⟩
    · exact hsame heq
    · simp only [KeepsQueued, hplace] at hok
      -- The push writes one branch of one hosted repository, and `hok` has its old head
      -- below the new one.
      intro url b x hx
      have hget : w'.hosted url b = Function.update w.hosted project.remoteUrl
          (Function.update (w.hosted project.remoteUrl) p.branch (some p.candidateCommitOid))
            url b := by
        rw [heq, setHosted]
      rw [hget]
      by_cases hurl : url = project.remoteUrl
      · subst hurl
        rw [Function.update_self]
        by_cases hb : b = p.branch
        · subst hb
          rw [Function.update_self]
          rw [hexpected] at hx
          exact ⟨_, rfl, hok hexpected x hx⟩
        · rw [Function.update_of_ne hb]
          exact ⟨x, hx, CommitGraph.Ancestor.refl x⟩
      · rw [Function.update_of_ne hurl]
        exact ⟨x, hx, CommitGraph.Ancestor.refl x⟩
  | writeProject name record =>
    obtain ⟨rfl, -⟩ := writeProject_eq_some hs
    exact hsame rfl
  | install path b new old =>
    obtain rfl := install_eq_some hs
    exact hsame rfl
  | restart =>
    obtain rfl := Option.some.inj hs
    exact hsame rfl

/-- What is queued or hosted stays so. -/
theorem KeepsQueued.kept {e : PublishEvent Oid Task} (hok : KeepsQueued G w e)
    (hs : w.step G e = some w') {p q : LocalProject Oid} (hp : p ∈ w.catalog.projects)
    (hid : q.identity = p.identity) {b : Branch} {c : Oid} (h : w.Kept G p b c) :
    w'.Kept G q b c := by
  rw [Kept, identity_remoteUrl hid, identity_projectId hid]
  rcases h with hhosted | hqueued
  · exact Or.inl (inHosted_of_grows (hok.grows hs) hhosted)
  have hsame : w'.queue.map (·.source) = w.queue.map (·.source) →
      w'.InHosted G p.remoteUrl b c ∨ (p.projectId, b, c) ∈ w'.queue.map (·.source) := by
    intro heq
    rw [heq]
    exact Or.inr hqueued
  cases e with
  | user e => exact hsame (congrArg _ (user_frame hs).1.queue.queue)
  | call task e =>
    obtain ⟨-, hquiet | ⟨_, _, _, _, _, _, hcreates⟩ | ⟨r, hpushes⟩⟩ := call_cases hs
    · exact hsame (congrArg _ hquiet.queue.queue)
    · exact hsame (congrArg _ hcreates.queue)
    · rw [hpushes.queue, List.map_append]
      exact Or.inr (List.mem_append_left _ hqueued)
  | deliver e =>
    rcases deliver_sources hs with heq | ⟨now, a, r, ack, rfl, hplace, heq⟩
    · exact hsame heq
    · have hgrows := hok.grows hs
      simp only [KeepsQueued, hplace] at hok
      rcases hok p hp b c hqueued with hstays | hhosted
      · exact Or.inr (heq ▸ hstays)
      · exact Or.inl (inHosted_of_grows hgrows hhosted)
  | writeProject name record =>
    obtain ⟨rfl, -⟩ := writeProject_eq_some hs
    exact hsame rfl
  | install path b new old =>
    obtain rfl := install_eq_some hs
    exact hsame rfl
  | restart =>
    obtain rfl := Option.some.inj hs
    exact hsame rfl

/-- The place to which a task goes, and where what it has there comes from. -/
inductive CallMoves (w w' : PublishWorld Oid Task) (task : Task) (e : CallEvent Oid) :
    Call Oid → Prop
  | rests {c} : c.underway = false → CallMoves w w' task e c
  | clones {name project b c next} : w.calls task = .requested name b c next →
      findProject w.catalog name = some project →
      CallMoves w w' task e (.cloned name project b c next)
  /-- The commit has a pending publication. -/
  | finds {name project b c next} : w.calls task = .cloned name project b c next →
      (project.projectId, b, c) ∈ w.queue.map (·.source) →
      CallMoves w w' task e (next.call name)
  | creates {name project b c next p} : w.calls task = .cloned name project b c next →
      p.source = (project.projectId, b, c) → CallMoves w w' task e (.created name p next)
  | pushes {name p next} : w.calls task = .created name p next →
      p.source ∈ w'.queue.map (·.source) → CallMoves w w' task e (.queued name next)
  | records {name next} : w.calls task = .queued name next →
      CallMoves w w' task e (next.call name)
  /-- The new branch is recorded, and no commit was read for the branch before. -/
  | reports {name path b previous left} :
      w.calls task = .checkoutReport name path b previous left →
      CallMoves w w' task e (.activating name b)
  | transitions {name project b} : w.calls task = .transition name project →
      CallMoves w w' task e (.activating name b)

theorem call_moves {task : Task} {e : CallEvent Oid} (h : w.call G task e = some w') :
    CallMoves w w' task e (w'.calls task) := by
  have hrests : ∀ (u : PublishWorld Oid Task) (c : Call Oid), c.underway = false →
      CallMoves w (u.setCall task c) task e ((u.setCall task c).calls task) := by
    intro u c hc
    rw [calls_setCall]
    exact .rests hc
  cases callStep_of_call h with
  | clones place found =>
    rw [calls_setCall]
    exact .clones place found
  | @finds name id now project b c next p place found =>
    have htest := List.find?_some found
    simp only [Bool.and_eq_true, beq_iff_eq] at htest
    obtain ⟨⟨⟨-, hid⟩, hb⟩, hc⟩ := htest
    rw [calls_setCall]
    refine .finds place (List.mem_map.mpr ⟨p, List.mem_of_find?_eq_some found, ?_⟩)
    rw [Publication.source, hid, hb, hc]
  | @creates name id now project b c next place =>
    change CallMoves w _ task (.create id now) (Function.update w.calls task _ task)
    rw [Function.update_self]
    exact .creates place rfl
  | @queues name p next place =>
    change CallMoves w _ task .push (Function.update w.calls task _ task)
    rw [Function.update_self]
    refine .pushes place ?_
    rw [List.map_append]
    exact List.mem_append_right _ List.mem_cons_self
  | records place =>
    rw [calls_setCall]
    exact .records place
  | reportsSame place | reportsFirst place =>
    rw [calls_setCall]
    exact .reports place
  | hasNoActive place | leavesDeleted place =>
    rw [calls_setCall]
    exact .transitions place
  | refreshes =>
    apply hrests
    split <;> rfl
  | _ => exact hrests _ _ rfl

section Writes

omit [DecidableEq Task]

theorem refreshRecord_activeBranch {b : Branch} {answer : RefreshAnswer Oid}
    {p : LocalProject Oid} : (refreshRecord G w b answer p).activeBranch = p.activeBranch := by
  have hrefreshed : ∀ project c,
      (refreshed G project b c).1.activeBranch = project.activeBranch := by
    intro project c
    unfold refreshed
    repeat' split
    all_goals rfl
  unfold refreshRecord
  split
  · rfl
  · rfl
  · dsimp only
    split
    · rfl
    · split
      · exact hrefreshed _ _
      · exact hrefreshed _ _

/-- The delivery does not write the active branch. -/
theorem deliver_active {e : DeliveryEvent Oid} (h : w.deliver G e = some w') :
    Writes (fun _ p q => q.identity = p.identity ∧ q.activeBranch = p.activeBranch) w.catalog
      w'.catalog := by
  have hkeep : ∀ {name : String} {f : LocalProject Oid → LocalProject Oid},
      (∀ p, (f p).identity = p.identity ∧ (f p).activeBranch = p.activeBranch) →
        Writes (fun _ p q => q.identity = p.identity ∧ q.activeBranch = p.activeBranch) w.catalog
          (updateProject w.catalog name f) :=
    fun hf => writes_updateProject fun _ p _ _ => hf p
  cases deliveryStep_of_deliver h with
  | checks | records | notesFailure => exact hkeep fun _ => ⟨rfl, rfl⟩
  | _ => exact Or.inl rfl

end Writes

end PublishWorld

namespace DaemonWorld

open PublishWorld

/-- The active branch that a step writes, with the name of its project: `refresh`,
the end of a branch transition or of a checkout report, and the two merges of
`reconcile_exclusive`. -/
def activates [DecidableEq Oid] (w : DaemonWorld Oid Task) :
    DaemonEvent Oid Task → Option (String × Option Branch)
  | .publish (.call _ (.refreshBranch name)) =>
    (findProject w.publish.catalog name).map fun project =>
      (name, some (((w.publish.checkouts project.localPath).headBranch.or
        project.activeBranch).getD project.defaultBranch))
  | .publish (.call task .activate) =>
    match w.publish.calls task with
    | .activating name b => some (name, some b)
    | _ => none
  | e => (w.merging e).map fun m => (m.name, m.staged.activeBranch)

variable [DecidableEq Oid] [DecidableEq Task] {G : CommitGraph Oid} {w w' : DaemonWorld Oid Task}

/-- The record is of the same project, and its active branch is the one before or
the one that the step writes. -/
def ActiveStep (w : DaemonWorld Oid Task) (e : DaemonEvent Oid Task) (i : ℕ)
    (p q : LocalProject Oid) : Prop :=
  q.identity = p.identity ∧ (q.activeBranch = p.activeBranch ∨
    ∃ name, w.activates e = some (name, q.activeBranch) ∧ w.position name = some i)

theorem publishes_active {e : PublishEvent Oid Task} (h : w.publishes G e = some w') :
    Writes (ActiveStep w (.publish e)) w.publish.catalog w'.publish.catalog := by
  have hstep := (publishes_step h).1
  have hkeep : ∀ {name : String} {f : LocalProject Oid → LocalProject Oid},
      (∀ p, findProject w.publish.catalog name = some p →
        (f p).identity = p.identity ∧ (f p).activeBranch = p.activeBranch) →
      Writes (ActiveStep w (.publish e)) w.publish.catalog
        (updateProject w.publish.catalog name f) := by
    intro name f hf
    refine writes_updateProject fun i p hi hp => ?_
    obtain ⟨hid, hactive⟩ := hf p (findProject_of_position hi hp)
    exact ⟨hid, Or.inl hactive⟩
  cases e with
  | user e => exact Or.inl (user_frame hstep).1.catalog
  | restart => exact Or.inl (congrArg (·.catalog) (Option.some.inj hstep).symm)
  | writeProject name record => cases h
  | install path b new old => cases h
  | deliver e =>
    exact (deliver_active hstep).mono fun i p q hq => ⟨hq.1, Or.inl hq.2⟩
  | call task e =>
    have hcall : w.publish.call G task e = some w'.publish := hstep
    generalize w'.publish = u at hcall ⊢
    by_cases hrefresh : ∃ answer, e = .refreshHead answer
    · obtain ⟨answer, rfl⟩ := hrefresh
      simp only [publishes] at h
      split at h
      · next name branch hplace =>
        rcases refreshHead_writes hplace hcall with ⟨-, hcatalog⟩ | ⟨f, hcatalog, hf⟩
        · exact Or.inl hcatalog
        · rw [hcatalog]
          apply hkeep
          intro p hp
          rw [hf p hp]
          exact ⟨refreshRecord_identity .., refreshRecord_activeBranch⟩
      · cases h
    · cases callStep_of_call hcall with
      | @refreshesBranch name _ _ _ found branch =>
        refine writes_updateProject fun i p hi hp => ⟨rfl, Or.inr ⟨name, ?_, hi⟩⟩
        rw [activates, found, branch]
        rfl
      | @activates name b place =>
        refine writes_updateProject fun i p hi hp => ⟨rfl, Or.inr ⟨name, ?_, hi⟩⟩
        simp only [activates, place]
      | records => exact hkeep fun _ _ => ⟨rfl, rfl⟩
      | refreshesUnknown | losesAccess | isOffline | advertises | refreshes =>
        exact absurd ⟨_, rfl⟩ hrefresh
      | _ => exact Or.inl rfl

theorem reconcile_active {task : Option Task} {e : ReconcileEvent Oid}
    (h : w.reconcile G task e = some w') :
    Writes (ActiveStep w (.reconcile task e)) w.publish.catalog w'.publish.catalog := by
  have hmerged : ∀ {m : Merging Oid}, w.merging (.reconcile task e) = some m →
      Writes (ActiveStep w (.reconcile task e)) w.publish.catalog
        (updateProject w.publish.catalog m.name (mergeReconciliationState · m.staged)) := by
    intro m hm
    refine writes_updateProject fun i p hi _ => ⟨rfl, Or.inr ⟨m.name, ?_, hi⟩⟩
    change (w.merging (.reconcile task e)).map _ = _
    rw [hm]
    rfl
  cases reconcile_publish h with
  | stays same => exact Or.inl (congrArg (·.catalog) same)
  | merges merging same =>
    rw [same]
    exact hmerged merging
  | installs _ moves => exact Or.inl moves.catalog
  | @installsResult _ _ _ moved m _ moves merging same =>
    have hcatalog : w'.publish.catalog =
        updateProject w.publish.catalog m.name (mergeReconciliationState · m.staged) := by
      rw [same, PublishWorld.setProject, moves.catalog]
    rw [hcatalog]
    exact hmerged merging
  | notes _ same =>
    rw [same]
    exact writes_updateProject fun _ _ _ _ => ⟨rfl, Or.inl rfl⟩
  | answers _ _ delivers => exact (deliver_active delivers).mono fun i p q hq => ⟨hq.1, Or.inl hq.2⟩

/-- What one step does to the active branch of one project. -/
theorem step_active {e : DaemonEvent Oid Task} (h : w.step G e = some w') :
    Writes (ActiveStep w e) w.publish.catalog w'.publish.catalog := by
  cases e with
  | publish e => exact publishes_active h
  | reconcile task e => exact reconcile_active h

omit [DecidableEq Task] in
theorem ActiveStep.refl {e : DaemonEvent Oid Task} (i : ℕ) (p : LocalProject Oid) :
    ActiveStep w e i p p := ⟨rfl, Or.inl rfl⟩

/-- A reconciliation leaves the queue, the hosted branches and the tasks that
queue publications alone. -/
structure PublishFrame (u v : PublishWorld Oid Task) : Prop where
  sources : v.queue.map (·.source) = u.queue.map (·.source)
  hosted : v.hosted = u.hosted
  calls : v.calls = u.calls

omit [DecidableEq Oid] [DecidableEq Task] in
theorem PublishFrame.of_eq {u v : PublishWorld Oid Task} (h : v = u) : PublishFrame u v :=
  ⟨by rw [h], by rw [h], by rw [h]⟩

theorem InstallMoves.publishFrame {task : Option Task} {installed : Installed}
    {publish : PublishWorld Oid Task} (h : InstallMoves G w task installed publish) :
    PublishFrame w.publish publish := by
  cases h with
  | stays => exact .of_eq rfl
  | moves _ _ _ _ hstep =>
    obtain rfl := install_eq_some hstep
    exact ⟨rfl, rfl, rfl⟩

theorem reconcile_frame {task : Option Task} {e : ReconcileEvent Oid}
    (h : w.reconcile G task e = some w') : PublishFrame w.publish w'.publish := by
  cases reconcile_publish h with
  | stays same => exact .of_eq same
  | merges _ same | notes _ same =>
    rw [same]
    exact ⟨rfl, rfl, rfl⟩
  | installs _ moves => exact moves.publishFrame
  | installsResult _ moves _ same =>
    rw [same]
    exact ⟨moves.publishFrame.sources, moves.publishFrame.hosted, moves.publishFrame.calls⟩
  | answers _ kind delivers =>
    refine ⟨?_, ?_, (deliver_frame delivers).calls⟩
    · rcases deliver_sources delivers with hsame | ⟨now, a, p, ack, rfl, -⟩
      · exact hsame
      · rcases kind with he | ⟨outcome, he⟩ <;> cases he
    · rcases deliver_hosted delivers with hsame | ⟨answered, a, p, project, rfl, -⟩
      · exact hsame
      · rcases kind with he | ⟨outcome, he⟩ <;> cases he

/-- The condition on the publishing part of a step of the daemon. -/
def KeepsQueued (G : CommitGraph Oid) (w : DaemonWorld Oid Task) : DaemonEvent Oid Task → Prop
  | .publish e => PublishWorld.KeepsQueued G w.publish e
  | .reconcile _ _ => True

/-- What is queued or hosted stays so in every step that keeps it. -/
theorem KeepsQueued.kept {e : DaemonEvent Oid Task} (hok : KeepsQueued G w e)
    (hs : w.step G e = some w') {p q : LocalProject Oid} (hp : p ∈ w.publish.catalog.projects)
    (hid : q.identity = p.identity) {b : Branch} {c : Oid} (h : w.publish.Kept G p b c) :
    w'.publish.Kept G q b c := by
  cases e with
  | publish e => exact PublishWorld.KeepsQueued.kept hok (publishes_step hs).1 hp hid h
  | reconcile task e =>
    have hframe := reconcile_frame hs
    rw [Kept, InHosted, identity_remoteUrl hid, identity_projectId hid, hframe.hosted,
      hframe.sources]
    exact h

end DaemonWorld

end Resync
