import Resync.PublishingSteps
import Resync.ReconcileSteps

/-! What one step of the daemon does to the record of one project. The record
is named by its position in the catalog, which no step changes. -/
namespace Resync

variable {Oid Task : Type}

/-- Where the commits of a project go: its service, and the remote of its checkout. -/
def LocalProject.home (p : LocalProject Oid) : Option String × String × String :=
  (p.service, p.localPath, p.remoteName)

/-- The write leaves what a reconciliation decides about. -/
structure KeepsResult (p q : LocalProject Oid) : Prop where
  identity : q.identity = p.identity
  home : q.home = p.home
  state : q.state = p.state
  conflict : q.conflict = p.conflict
  lastAppliedHeads : q.lastAppliedHeads = p.lastAppliedHeads
  workspaceGeneration : q.workspaceGeneration = p.workspaceGeneration

theorem KeepsResult.refl (p : LocalProject Oid) : KeepsResult p p := ⟨rfl, rfl, rfl, rfl, rfl, rfl⟩

/-- What the tasks that queue publications and a failing delivery write into a
record. -/
def Notes (p q : LocalProject Oid) : Prop :=
  ∃ active durability error,
    q = { p with activeBranch := active, durability := durability, lastError := error }

theorem Notes.keepsResult {p q : LocalProject Oid} (h : Notes p q) : KeepsResult p q := by
  obtain ⟨active, durability, error, rfl⟩ := h
  exact ⟨rfl, rfl, rfl, rfl, rfl, rfl⟩

theorem Notes.advertisedHeads {p q : LocalProject Oid} (h : Notes p q) :
    q.advertisedHeads = p.advertisedHeads := by
  obtain ⟨active, durability, error, rfl⟩ := h
  rfl

section Catalogs

variable {c c' : LocalCatalog Oid} {name : String} {f : LocalProject Oid → LocalProject Oid}
  {i : ℕ} {p : LocalProject Oid}

theorem findProject_eq_some : findProject c name = some p ↔
    ∃ i, c.projects.findIdx? (·.named name) = some i ∧ c.projects[i]? = some p := by
  rw [findProject, List.find?_eq_bind_findIdx?_getElem?, Option.bind_eq_some_iff]

theorem findProject_of_position (hi : c.projects.findIdx? (·.named name) = some i)
    (hp : c.projects[i]? = some p) : findProject c name = some p :=
  findProject_eq_some.mpr ⟨i, hi, hp⟩

theorem record_updateProject (hp : c.projects[i]? = some p) :
    (updateProject c name f).projects[i]? =
      some (if c.projects.findIdx? (·.named name) = some i then f p else p) := by
  rw [updateProject, getElem?_modifyFirst, hp]
  split <;> rfl

/-- The catalog is the same, or the record at one position was written as `R`
allows. -/
def Writes (R : ℕ → LocalProject Oid → LocalProject Oid → Prop) (c c' : LocalCatalog Oid) :
    Prop :=
  c' = c ∨ ∃ name f, c' = updateProject c name f ∧
    ∀ i p, c.projects.findIdx? (·.named name) = some i → c.projects[i]? = some p → R i p (f p)

variable {R R' : ℕ → LocalProject Oid → LocalProject Oid → Prop}

theorem writes_updateProject (hf : ∀ i p, c.projects.findIdx? (·.named name) = some i →
    c.projects[i]? = some p → R i p (f p)) : Writes R c (updateProject c name f) :=
  Or.inr ⟨name, f, rfl, hf⟩

theorem Writes.mono (h : Writes R c c') (hR : ∀ i p q, R i p q → R' i p q) : Writes R' c c' := by
  rcases h with rfl | ⟨name, f, rfl, hf⟩
  · exact Or.inl rfl
  · exact Or.inr ⟨name, f, rfl, fun i p hi hp => hR i p (f p) (hf i p hi hp)⟩

theorem Writes.record (h : Writes R c c') (hR : ∀ i p, R i p p) (hp : c.projects[i]? = some p) :
    ∃ q, c'.projects[i]? = some q ∧ R i p q := by
  rcases h with rfl | ⟨name, f, rfl, hf⟩
  · exact ⟨p, hp, hR i p⟩
  · refine ⟨_, record_updateProject hp, ?_⟩
    split
    · next hi => exact hf i p hi hp
    · exact hR i p

theorem Writes.record_back (h : Writes R c c') (hR : ∀ i p, R i p p) {q : LocalProject Oid}
    (hq : c'.projects[i]? = some q) : ∃ p, c.projects[i]? = some p ∧ R i p q := by
  cases hp : c.projects[i]? with
  | some p =>
    obtain ⟨q', hq', hr⟩ := h.record hR hp
    obtain rfl := Option.some.inj (hq'.symm.trans hq)
    exact ⟨p, rfl, hr⟩
  | none =>
    rcases h with rfl | ⟨name, f, rfl, -⟩
    · rw [hp] at hq
      cases hq
    · rw [updateProject, getElem?_modifyFirst, hp] at hq
      split at hq <;> cases hq

theorem Writes.position (h : Writes R c c') (hR : ∀ i p q, R i p q → q.identity = p.identity)
    (other : String) :
    c'.projects.findIdx? (·.named other) = c.projects.findIdx? (·.named other) := by
  rcases h with rfl | ⟨name, f, rfl, hf⟩
  · rfl
  · refine findIdx?_modifyFirst (·.named other) c.projects fun p hp => ?_
    obtain ⟨i, hi, hget⟩ := findProject_eq_some.mp hp
    have hid : (f p).identity = p.identity := hR i p (f p) (hf i p hi hget)
    rw [LocalProject.named, LocalProject.named, identity_projectId hid, identity_localPath hid]

theorem Writes.map_localPath (h : Writes R c c')
    (hR : ∀ i p q, R i p q → q.identity = p.identity) :
    c'.projects.map (·.localPath) = c.projects.map (·.localPath) := by
  rcases h with rfl | ⟨name, f, rfl, hf⟩
  · rfl
  · apply map_modifyFirst
    intro p hp
    obtain ⟨i, hi, hget⟩ := findProject_eq_some.mp hp
    exact identity_localPath (hR i p (f p) (hf i p hi hget))

end Catalogs

namespace PublishWorld

variable [DecidableEq Oid] (G : CommitGraph Oid)

/-- The record that `refresh` leaves of a project whose branch it has read. -/
def refreshRecord (w : PublishWorld Oid Task) (branch : Branch) (answer : RefreshAnswer Oid)
    (p : LocalProject Oid) : LocalProject Oid :=
  match answer with
  | .accessLost error => { p with state := .accessLost, lastError := some error }
  | .offline generation error =>
    { p with serverGeneration := generation, state := .offline, lastError := some error }
  | .online generation head =>
    let advertised := w.advertise p branch generation head
    match (w.checkouts p.localPath).headCommit with
    | none => advertised
    | some localHead =>
      let result := refreshed G advertised branch localHead
      if result.1.durability = .remotelyDurable then { result.1 with lastError := none }
      else result.1

/-- The record with the head that the delivery has fetched. -/
def advertisedRecord (b : Branch) (head : Option Oid) (p : LocalProject Oid) : LocalProject Oid :=
  { p with advertisedHeads := Function.update p.advertisedHeads b head }

/-- The record that `complete_publication` leaves. -/
def completionRecord (d : Publication Oid) (ack : PublicationAck Oid) (hasPending : Bool)
    (p : LocalProject Oid) : LocalProject Oid :=
  { p with
    advertisedHeads := Function.update p.advertisedHeads d.branch (some ack.remoteHead),
    lastAppliedHeads := Function.update p.lastAppliedHeads d.branch (some ack.remoteHead),
    serverGeneration := max p.serverGeneration ack.projectGeneration,
    lastError := none,
    durability := if hasPending then p.durability else .remotelyDurable }

theorem refreshRecord_identity (w : PublishWorld Oid Task) (b : Branch)
    (answer : RefreshAnswer Oid) (p : LocalProject Oid) :
    (refreshRecord G w b answer p).identity = p.identity := by
  unfold refreshRecord
  split
  · rfl
  · rfl
  · dsimp only
    split
    · rfl
    · next localHead _ =>
      split
      · exact refreshed_identity (w.advertise p b _ _) b localHead
      · exact refreshed_identity (w.advertise p b _ _) b localHead

theorem refreshed_home (p : LocalProject Oid) (b : Branch) (c : Oid) :
    (refreshed G p b c).1.home = p.home := by
  unfold refreshed
  split
  · rfl
  · split
    · rfl
    · split
      · rfl
      · split <;> rfl

theorem refreshRecord_home (w : PublishWorld Oid Task) (b : Branch)
    (answer : RefreshAnswer Oid) (p : LocalProject Oid) :
    (refreshRecord G w b answer p).home = p.home := by
  unfold refreshRecord
  split
  · rfl
  · rfl
  · dsimp only
    split
    · rfl
    · next localHead _ =>
      split
      · exact refreshed_home G (w.advertise p b _ _) b localHead
      · exact refreshed_home G (w.advertise p b _ _) b localHead

variable {G} [DecidableEq Task] {w w' : PublishWorld Oid Task}

/-- Of the tasks that queue publications, only a refresh that has its answer
writes more than a note. -/
theorem call_writes {task : Task} {e : CallEvent Oid} (h : w.call G task e = some w')
    (he : ∀ answer, e ≠ .refreshHead answer) : Writes (fun _ => Notes) w.catalog w'.catalog := by
  have hnote : ∀ {name : String} {f : LocalProject Oid → LocalProject Oid},
      (∀ p, Notes p (f p)) → Writes (fun _ => Notes) w.catalog (updateProject w.catalog name f) :=
    fun hf => writes_updateProject fun _ p _ _ => hf p
  cases callStep_of_call h with
  | refreshesUnknown | losesAccess | isOffline | advertises | refreshes => exact absurd rfl (he _)
  | refreshesBranch | records | activates => exact hnote fun p => ⟨_, _, _, rfl⟩
  | _ => exact Or.inl rfl

theorem refreshHead_writes {task : Task} {answer : RefreshAnswer Oid} {name : String}
    {b : Branch} (hcall : w.calls task = .refreshing name b)
    (h : w.call G task (.refreshHead answer) = some w') :
    findProject w.catalog name = none ∧ w'.catalog = w.catalog ∨
      ∃ f, w'.catalog = updateProject w.catalog name f ∧
        ∀ p, findProject w.catalog name = some p → f p = refreshRecord G w b answer p := by
  have hfound : ∀ {r project : LocalProject Oid}, findProject w.catalog name = some project →
      r = refreshRecord G w b answer project →
        ∀ p, findProject w.catalog name = some p → r = refreshRecord G w b answer p := by
    intro r project hproject hr p hp
    obtain rfl := Option.some.inj (hproject.symm.trans hp)
    exact hr
  cases callStep_of_call h with
  | refreshesUnknown place none =>
    obtain ⟨rfl, rfl⟩ := Call.refreshing.inj (hcall.symm.trans place)
    exact Or.inl ⟨none, rfl⟩
  | losesAccess place | isOffline place =>
    obtain ⟨rfl, rfl⟩ := Call.refreshing.inj (hcall.symm.trans place)
    exact Or.inr ⟨_, rfl, fun p _ => rfl⟩
  | advertises place found headCommit =>
    obtain ⟨rfl, rfl⟩ := Call.refreshing.inj (hcall.symm.trans place)
    refine Or.inr ⟨_, rfl, hfound found ?_⟩
    simp only [refreshRecord, headCommit]
  | refreshes place found headCommit decides =>
    obtain ⟨rfl, rfl⟩ := Call.refreshing.inj (hcall.symm.trans place)
    subst decides
    refine Or.inr ⟨_, rfl, hfound found ?_⟩
    simp only [refreshRecord, headCommit]

omit [DecidableEq Task] in
/-- The delivery writes more than a note when it hands the project over to a
reconciliation, and when it completes a publication. -/
theorem deliver_writes {e : DeliveryEvent Oid} (h : w.deliver G e = some w') :
    Writes (fun _ => Notes) w.catalog w'.catalog ∨
      (∃ a p project remoteHead, e = .checkBranch ∧ w.delivery = .behind a p project remoteHead ∧
        w'.delivery = .reconciling a p remoteHead ∧
        w'.catalog = updateProject w.catalog p.projectId (advertisedRecord p.branch remoteHead)) ∨
      ∃ a d ack completed hasPending path, e = .recordCompletion ∧
        w.delivery = .completing a d ack completed hasPending ∧
        w'.delivery = .deleting a path completed ∧
        w'.catalog = updateProject w.catalog d.projectId (completionRecord d ack hasPending) := by
  cases deliveryStep_of_deliver h with
  | checks place => exact Or.inr (Or.inl ⟨_, _, _, _, rfl, place, rfl, rfl⟩)
  | records place => exact Or.inr (Or.inr ⟨_, _, _, _, _, _, rfl, place, rfl, rfl⟩)
  | notesFailure => exact Or.inl (writes_updateProject fun _ p _ _ => ⟨_, _, _, rfl⟩)
  | _ => exact Or.inl (Or.inl rfl)

omit [DecidableEq Task] in
/-- So what a reconciliation decides about is written by a completion only. -/
theorem deliver_keeps {e : DeliveryEvent Oid} (h : w.deliver G e = some w') :
    Writes (fun _ => KeepsResult) w.catalog w'.catalog ∨
      ∃ a d ack completed hasPending, e = .recordCompletion ∧
        w.delivery = .completing a d ack completed hasPending ∧
        w'.catalog = updateProject w.catalog d.projectId (completionRecord d ack hasPending) := by
  rcases deliver_writes h with hw | ⟨a, p, project, remoteHead, -, -, -, hcatalog⟩ |
    ⟨a, d, ack, completed, hasPending, path, he, hplace, -, hcatalog⟩
  · exact Or.inl (hw.mono fun _ _ _ hn => hn.keepsResult)
  · refine Or.inl ?_
    rw [hcatalog]
    exact writes_updateProject fun _ p _ _ => ⟨rfl, rfl, rfl, rfl, rfl, rfl⟩
  · exact Or.inr ⟨a, d, ack, completed, hasPending, he, hplace, hcatalog⟩

end PublishWorld

/-- The copy of the record that a call of `reconcile_exclusive` has. -/
def Reconciliation.copy : Reconciliation Oid → Option (LocalProject Oid)
  | .staged _ _ project => some project
  | .located _ _ project _ => some project
  | .complete _ _ record _ _ _ _ => some record
  | .prepared _ _ p _ => some p.staged
  | _ => none

/-- A merge that passes its recheck: whose it is, and what it writes. -/
structure Merging (Oid : Type) where
  caller : Caller
  name : String
  staged : LocalProject Oid
  outcome : Outcome
  persisted : Bool

namespace DaemonWorld

open PublishWorld

variable [DecidableEq Oid]

/-- What a step merges into the catalog. -/
def merging (w : DaemonWorld Oid Task) : DaemonEvent Oid Task → Option (Merging Oid)
  | .reconcile task (.merge persisted) =>
    match w.reconciling task with
    | .complete caller name staged result expected branch target =>
      (findProject w.publish.catalog name).bind fun project =>
        if stillComplete project expected branch target then
          some ⟨caller, name, staged, result.outcome, persisted⟩
        else none
    | _ => none
  | .reconcile task (.install installed cleared persisted) =>
    match w.reconciling task with
    | .prepared caller name p candidate =>
      (findProject w.publish.catalog name).bind fun project =>
        if AccessWorld.stillWanted project p
            (w.publish.checkouts project.localPath).headBranch then
          (installed.result candidate).bind fun r =>
            (applyReconciliationResult p.staged p.branch p.target r cleared).map
              fun staged => ⟨caller, name, staged, r.outcome, persisted⟩
        else none
    | _ => none
  | _ => none

/-- A merge is of a complete result or of an installation. -/
theorem merging_cases {w : DaemonWorld Oid Task} {e : DaemonEvent Oid Task} {m : Merging Oid}
    (h : w.merging e = some m) :
    (∃ task persisted caller name staged result expected branch target project,
      e = .reconcile task (.merge persisted) ∧
      w.reconciling task = .complete caller name staged result expected branch target ∧
      findProject w.publish.catalog name = some project ∧
      stillComplete project expected branch target = true ∧
      m = ⟨caller, name, staged, result.outcome, persisted⟩) ∨
    ∃ task installed cleared persisted caller name p candidate project result staged,
      e = .reconcile task (.install installed cleared persisted) ∧
      w.reconciling task = .prepared caller name p candidate ∧
      findProject w.publish.catalog name = some project ∧
      AccessWorld.stillWanted project p
        (w.publish.checkouts project.localPath).headBranch = true ∧
      installed.result candidate = some result ∧
      applyReconciliationResult p.staged p.branch p.target result cleared = some staged ∧
      m = ⟨caller, name, staged, result.outcome, persisted⟩ := by
  unfold merging at h
  split at h
  · next task persisted =>
    split at h
    · next caller name staged result expected branch target hplace =>
      obtain ⟨project, hproject, h⟩ := Option.bind_eq_some_iff.mp h
      split at h
      · next hstill =>
        exact Or.inl ⟨task, persisted, caller, name, staged, result, expected, branch, target,
          project, rfl, hplace, hproject, hstill, (Option.some.inj h).symm⟩
      · cases h
    · cases h
  · next task installed cleared persisted =>
    split at h
    · next caller name p candidate hplace =>
      obtain ⟨project, hproject, h⟩ := Option.bind_eq_some_iff.mp h
      split at h
      · next hwanted =>
        obtain ⟨result, hresult, h⟩ := Option.bind_eq_some_iff.mp h
        obtain ⟨staged, hstaged, h⟩ := Option.map_eq_some_iff.mp h
        exact Or.inr ⟨task, installed, cleared, persisted, caller, name, p, candidate, project,
          result, staged, rfl, hplace, hproject, hwanted, hresult, hstaged, h.symm⟩
      · cases h
    · cases h
  · cases h

variable (G : CommitGraph Oid)

/-- What one step can do to the record `p` at position `i`. -/
inductive RecordStep (w : DaemonWorld Oid Task) : DaemonEvent Oid Task → ℕ → LocalProject Oid →
    LocalProject Oid → Prop
  | keeps {e i p q} : KeepsResult p q → RecordStep w e i p q
  | refreshed {task name branch answer i p} : w.publish.calls task = .refreshing name branch →
      w.position name = some i →
      RecordStep w (.publish (.call task (.refreshHead answer))) i p
        (refreshRecord G w.publish branch answer p)
  | completed {a d ack completed hasPending i p} :
      w.publish.delivery = .completing a d ack completed hasPending →
      w.position d.projectId = some i →
      RecordStep w (.publish (.deliver .recordCompletion)) i p
        (completionRecord d ack hasPending p)
  /-- The error of a background task is noted. -/
  | noted {task error i p} : RecordStep w (.reconcile task (.answer error)) i p
      { p with
        state := if p.state = .reconciling then .remoteAhead else p.state,
        lastError := some error }
  | merged {e m i p} : w.merging e = some m → w.position m.name = some i →
      RecordStep w e i p (mergeReconciliationState p m.staged)

variable [DecidableEq Task]

/-- What the Git commands of an installation leave of the checkouts. -/
inductive InstallMoves (w : DaemonWorld Oid Task) (task : Option Task) (installed : Installed) :
    PublishWorld Oid Task → Prop
  | stays : InstallMoves w task installed w.publish
  | moves {caller name p candidate project publish} :
      w.reconciling task = .prepared caller name p candidate →
      findProject w.publish.catalog name = some project →
      AccessWorld.stillWanted project p
        (w.publish.checkouts project.localPath).headBranch = true →
      installed.moves = true →
      w.publish.step G (.install project.localPath candidate.headRef candidate.new
        candidate.old) = some publish →
      InstallMoves w task installed publish

/-- The place to which a step takes a call of `reconcile_exclusive`. -/
inductive PlaceStep (w : DaemonWorld Oid Task) (task : Option Task) :
    ReconcileEvent Oid → Reconciliation Oid → Prop
  /-- A place without a copy of the record. -/
  | waits {e r} : r.copy = none → PlaceStep w task e r
  | staged {caller name project} : w.reconciling task = .called caller name →
      findProject w.publish.catalog name = some project →
      PlaceStep w task .stage (.staged caller name project)
  | located {caller name project branch} : w.reconciling task = .staged caller name project →
      (w.publish.checkouts project.localPath).headBranch = some branch →
      PlaceStep w task .locate (.located caller name project branch)
  | complete {caller name project branch cleared rebase staged result expected actual target} :
      w.reconciling task = .located caller name project branch →
      prepareProjectReconciliation G (rebase.answers branch
        (w.publish.checkouts project.localPath).headCommit cleared) project =
          some (.complete staged result expected actual target) →
      PlaceStep w task (.prepare cleared rebase)
        (.complete caller name staged result expected actual target)
  | prepared {caller name project branch cleared candidate staged expected actual target} :
      w.reconciling task = .located caller name project branch →
      prepareProjectReconciliation G (Rebase.answers (.ready candidate) branch
        (w.publish.checkouts project.localPath).headCommit cleared) project =
          some (.prepared staged expected actual target) →
      PlaceStep w task (.prepare cleared (.ready candidate))
        (.prepared caller name ⟨staged, expected, actual, target⟩ candidate)

/-- What a step of a reconciliation does besides to its place. -/
inductive PublishPart (w : DaemonWorld Oid Task) (task : Option Task) (e : ReconcileEvent Oid)
    (publish : PublishWorld Oid Task) : Prop
  | stays (same : publish = w.publish)
  | merges {m : Merging Oid} (merging : w.merging (.reconcile task e) = some m)
      (same : publish = w.publish.setProject m.name (mergeReconciliationState · m.staged))
  /-- An installation that merges nothing. -/
  | installs {installed : Installed} {cleared persisted : Bool}
      (event : e = .install installed cleared persisted)
      (moves : InstallMoves G w task installed publish)
  | installsResult {installed : Installed} {cleared persisted : Bool}
      {moved : PublishWorld Oid Task} {m : Merging Oid}
      (event : e = .install installed cleared persisted)
      (moves : InstallMoves G w task installed moved)
      (merging : w.merging (.reconcile task e) = some m)
      (same : publish = moved.setProject m.name (mergeReconciliationState · m.staged))
  /-- A background task notes its error. -/
  | notes {name error : String} (event : e = .answer error)
      (same : publish = w.publish.setProject name fun p =>
        { p with
          state := if p.state = .reconciling then .remoteAhead else p.state,
          lastError := some error })
  /-- The delivery takes its answer. -/
  | answers {error : String} {answer : DeliveryEvent Oid} (event : e = .answer error)
      (kind : answer = .fail error ∨ ∃ outcome, answer = .reconcile outcome)
      (delivers : w.publish.deliver G answer = some publish)

variable {G} {w w' : DaemonWorld Oid Task} {i : ℕ} {p : LocalProject Oid}

/-- A step of the hooks, the users or the delivery is one of the publishing
system, and none that stands for a reconciliation. -/
theorem publishes_step {e : PublishEvent Oid Task} (h : w.publishes G e = some w') :
    w.publish.step G e = some w'.publish ∧
      (w'.reconciling = w.reconciling ∨ w'.reconciling = fun _ => .idle) := by
  unfold publishes at h
  split at h
  · cases h
  · cases h
  · cases h
  · obtain ⟨u, hu, hw⟩ := Option.map_eq_some_iff.mp h
    rw [← hw]
    exact ⟨hu, Or.inr rfl⟩
  · split at h
    · next name _ _ =>
      obtain ⟨u, hu, hw⟩ := Option.map_eq_some_iff.mp h
      rw [← hw]
      refine ⟨hu, Or.inl ?_⟩
      rw [setPublish, note]
      split <;> rfl
    · cases h
  · obtain ⟨u, hu, hw⟩ := Option.map_eq_some_iff.mp h
    rw [← hw]
    exact ⟨hu, Or.inl rfl⟩

theorem publishes_writes {e : PublishEvent Oid Task} (h : w.publishes G e = some w') :
    Writes (RecordStep G w (.publish e)) w.publish.catalog w'.publish.catalog := by
  have hstep := (publishes_step h).1
  have hkeeps : Writes (fun _ => KeepsResult) w.publish.catalog w'.publish.catalog →
      Writes (RecordStep G w (.publish e)) w.publish.catalog w'.publish.catalog :=
    fun hw => hw.mono fun i p q => .keeps
  cases e with
  | user e => exact Or.inl (user_frame hstep).1.catalog
  | restart => exact Or.inl (congrArg (·.catalog) (Option.some.inj hstep).symm)
  | writeProject name record => cases h
  | install path b new old => cases h
  | call task e =>
    by_cases he : ∃ answer, e = .refreshHead answer
    · obtain ⟨answer, rfl⟩ := he
      simp only [publishes] at h
      split at h
      · next name branch hcall =>
        rcases refreshHead_writes hcall hstep with ⟨-, hcatalog⟩ | ⟨f, hcatalog, hf⟩
        · exact Or.inl hcatalog
        · refine Or.inr ⟨name, f, hcatalog, fun i p hi hp => ?_⟩
          rw [hf p (findProject_of_position hi hp)]
          exact .refreshed hcall hi
      · cases h
    · exact hkeeps ((call_writes hstep fun answer ha => he ⟨answer, ha⟩).mono
        fun _ _ _ hn => hn.keepsResult)
  | deliver e =>
    rcases deliver_keeps hstep with hw | ⟨a, d, ack, completed, hasPending, rfl, hplace, hcatalog⟩
    · exact hkeeps hw
    · exact Or.inr ⟨_, _, hcatalog, fun i p hi _ => .completed hplace hi⟩

theorem installMoves_of_moved {task : Option Task} {caller : Caller} {name : String}
    {p : PreparedProject Oid} {candidate : PreparedInstall Oid} {project : LocalProject Oid}
    {installed : Installed} {publish : PublishWorld Oid Task}
    (hplace : w.reconciling task = .prepared caller name p candidate)
    (hproject : findProject w.publish.catalog name = some project)
    (hwanted : AccessWorld.stillWanted project p
      (w.publish.checkouts project.localPath).headBranch = true)
    (hmoved : (if installed.moves then w.publish.step G (.install project.localPath
      candidate.headRef candidate.new candidate.old) else some w.publish) = some publish) :
    InstallMoves G w task installed publish := by
  split at hmoved
  · next hmoves => exact .moves hplace hproject hwanted hmoves hmoved
  · exact Option.some.inj hmoved ▸ .stays

theorem InstallMoves.delivery {task : Option Task} {installed : Installed}
    {publish : PublishWorld Oid Task} (h : InstallMoves G w task installed publish) :
    publish.delivery = w.publish.delivery := by
  cases h with
  | stays => rfl
  | moves _ _ _ _ hstep =>
    obtain rfl := install_eq_some hstep
    rfl

theorem InstallMoves.queue {task : Option Task} {installed : Installed}
    {publish : PublishWorld Oid Task} (h : InstallMoves G w task installed publish) :
    publish.queue = w.publish.queue := by
  cases h with
  | stays => rfl
  | moves _ _ _ _ hstep =>
    obtain rfl := install_eq_some hstep
    rfl

theorem InstallMoves.catalog {task : Option Task} {installed : Installed}
    {publish : PublishWorld Oid Task} (h : InstallMoves G w task installed publish) :
    publish.catalog = w.publish.catalog := by
  cases h with
  | stays => rfl
  | moves _ _ _ _ hstep =>
    obtain rfl := install_eq_some hstep
    rfl

theorem reconcile_publish {task : Option Task} {e : ReconcileEvent Oid}
    (h : w.reconcile G task e = some w') : PublishPart G w task e w'.publish := by
  cases reconcileStep_of_reconcile h with
  | @merges caller name staged project result expected branch target persisted place found still =>
    refine .merges (m := ⟨caller, name, staged, result.outcome, persisted⟩) ?_ rfl
    simp only [merging, place, found, Option.bind_some, still, ↓reduceIte]
  | failsInstallation place found wanted moved =>
    exact .installs rfl (installMoves_of_moved place found wanted moved)
  | @installs caller name p candidate project staged installed cleared persisted publish outcome
      place found wanted moved result =>
    refine .installsResult (m := ⟨caller, name, staged, outcome, persisted⟩) rfl
      (installMoves_of_moved place found wanted moved) ?_ rfl
    obtain ⟨r, hr, hs⟩ := Option.bind_eq_some_iff.mp result
    obtain ⟨staged', hstaged, heq⟩ := Option.map_eq_some_iff.mp hs
    cases heq
    simp only [merging, place, found, Option.bind_some, wanted, ↓reduceIte, hr, hstaged,
      Option.map_some]
  | notes => exact .notes rfl rfl
  | delivers _ step => exact .answers rfl (Or.inr ⟨_, rfl⟩) step
  | failsDelivery _ step => exact .answers rfl (Or.inl rfl) step
  | _ => exact .stays rfl

theorem reconcile_writes {task : Option Task} {e : ReconcileEvent Oid}
    (h : w.reconcile G task e = some w') :
    Writes (RecordStep G w (.reconcile task e)) w.publish.catalog w'.publish.catalog := by
  cases reconcile_publish h with
  | stays same => exact Or.inl (congrArg (·.catalog) same)
  | merges merging same =>
    exact Or.inr ⟨_, _, congrArg (·.catalog) same, fun i p hi _ => .merged merging hi⟩
  | installs _ moves => exact Or.inl moves.catalog
  | @installsResult _ _ _ moved m _ moves merging same =>
    have hcatalog : w'.publish.catalog =
        updateProject w.publish.catalog m.name (mergeReconciliationState · m.staged) := by
      rw [same, PublishWorld.setProject, moves.catalog]
    exact Or.inr ⟨_, _, hcatalog, fun i p hi _ => .merged merging hi⟩
  | notes event same =>
    subst event
    exact Or.inr ⟨_, _, congrArg (·.catalog) same, fun i p _ _ => .noted⟩
  | answers _ kind delivers =>
    rcases deliver_keeps delivers with hw | ⟨a, d, ack, completed, hasPending, hcompletion, -⟩
    · exact hw.mono fun i p q => .keeps
    · rcases kind with rfl | ⟨outcome, rfl⟩ <;> cases hcompletion

/-- A step moves one call of `reconcile_exclusive`. -/
theorem reconcile_place {task : Option Task} {e : ReconcileEvent Oid}
    (h : w.reconcile G task e = some w') :
    ∃ r, w'.reconciling = Function.update w.reconciling task r ∧ PlaceStep G w task e r := by
  cases reconcileStep_of_reconcile h with
  | stages place found => exact ⟨_, rfl, .staged place found⟩
  | locates place head => exact ⟨_, rfl, .located place head⟩
  | completes place prepared => exact ⟨_, rfl, .complete place prepared⟩
  | prepares place prepared => exact ⟨_, rfl, .prepared place prepared⟩
  | _ => exact ⟨_, rfl, .waits rfl⟩

omit [DecidableEq Task] in
theorem RecordStep.identity {e : DaemonEvent Oid Task} {q : LocalProject Oid}
    (h : RecordStep G w e i p q) : q.identity = p.identity := by
  cases h with
  | keeps hkeep => exact hkeep.identity
  | refreshed => exact refreshRecord_identity ..
  | completed | noted | merged => rfl

omit [DecidableEq Task] in
theorem RecordStep.home {e : DaemonEvent Oid Task} {q : LocalProject Oid}
    (h : RecordStep G w e i p q) : q.home = p.home := by
  cases h with
  | keeps hkeep => exact hkeep.home
  | refreshed => exact refreshRecord_home ..
  | completed | noted | merged => rfl

/-- What one step does to the catalog. -/
theorem step_writes {e : DaemonEvent Oid Task} (h : w.step G e = some w') :
    Writes (RecordStep G w e) w.publish.catalog w'.publish.catalog := by
  cases e with
  | publish e => exact publishes_writes h
  | reconcile task e => exact reconcile_writes h

theorem step_record {e : DaemonEvent Oid Task} (h : w.step G e = some w')
    (hp : w.publish.catalog.projects[i]? = some p) :
    ∃ q, w'.publish.catalog.projects[i]? = some q ∧ RecordStep G w e i p q :=
  (step_writes h).record (fun _ p => .keeps (KeepsResult.refl p)) hp

/-- A name stands for the same project in every state of a run. -/
theorem step_position {e : DaemonEvent Oid Task} (h : w.step G e = some w') (name : String) :
    w'.position name = w.position name :=
  (step_writes h).position (fun _ _ _ => RecordStep.identity) name

end DaemonWorld

end Resync
