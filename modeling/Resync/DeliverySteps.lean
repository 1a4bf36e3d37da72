import Resync.Delivery

/-! The forms of a delivery's steps. What a delivery preserves is proved over them, and
only their own proof takes the step function apart. -/
namespace Resync.PublishWorld

variable {Oid Task : Type} [DecidableEq Oid] {G : CommitGraph Oid} {w w' : PublishWorld Oid Task}

/-- What a step of the delivery can do, with its guards. -/
inductive DeliveryStep (G : CommitGraph Oid) (w : PublishWorld Oid Task) :
    DeliveryEvent Oid → PublishWorld Oid Task → Prop
  | starts {force : Bool} {now : ℕ} (place : w.delivery = .idle) :
      DeliveryStep G w (.start force now)
        (w.setDelivery (.pass (PublicationQueue.toProcess force now w.queue)))
  | ends (place : w.delivery = .pass []) : DeliveryStep G w .next (w.setDelivery .idle)
  | takes {id : String} {ids : List String} {p : Publication Oid}
      (place : w.delivery = .pass (id :: ids))
      (found : PublicationQueue.findPending w.queue id = some p) :
      DeliveryStep G w .next (w.setDelivery (.reading ⟨ids, p, 5⟩))
  | skips {id : String} {ids : List String} (place : w.delivery = .pass (id :: ids))
      (none : PublicationQueue.findPending w.queue id = none) :
      DeliveryStep G w .next (w.setDelivery (.pass ids))
  | losesRace {a : Attempt Oid} (place : w.delivery = .reading a) (left : a.left = 0) :
      DeliveryStep G w .load
        (w.setDelivery (.failing a "publication lost the remote race five times"))
  | disappears {a : Attempt Oid} {n : ℕ} (place : w.delivery = .reading a) (left : a.left = n + 1)
      (none : PublicationQueue.find w.queue a.initial.publicationId = none) :
      DeliveryStep G w .load
        (w.setDelivery (.failing { a with left := n } "publication disappeared from queue"))
  | loads {a : Attempt Oid} {n : ℕ} {p : Publication Oid} (place : w.delivery = .reading a)
      (left : a.left = n + 1)
      (found : PublicationQueue.find w.queue a.initial.publicationId = some p)
      (pending : p.pending = true) :
      DeliveryStep G w .load (w.setDelivery (.loaded { a with left := n } p))
  | isDone {a : Attempt Oid} {n : ℕ} {p : Publication Oid} (place : w.delivery = .reading a)
      (left : a.left = n + 1)
      (found : PublicationQueue.find w.queue a.initial.publicationId = some p)
      (pending : ¬ p.pending = true) :
      DeliveryStep G w .load (w.setDelivery (.pass a.rest))
  | misses {a : Attempt Oid} {p : Publication Oid} (place : w.delivery = .loaded a p)
      (none : findProject w.catalog p.projectId = none) :
      DeliveryStep G w .project (w.setDelivery (.failing a (unknownProject p.projectId)))
  | isPaused {a : Attempt Oid} {p : Publication Oid} {project : LocalProject Oid}
      (place : w.delivery = .loaded a p)
      (found : findProject w.catalog p.projectId = some project)
      (state : project.state = .conflicted) :
      DeliveryStep G w .project (w.setDelivery (.failing a
        "publication is paused until `resync project sync` completes reconciliation"))
  | projects {a : Attempt Oid} {p : Publication Oid} {project : LocalProject Oid}
      (place : w.delivery = .loaded a p)
      (found : findProject w.catalog p.projectId = some project)
      (state : ¬ project.state = .conflicted) :
      DeliveryStep G w .project (w.setDelivery (.projected a p project))
  | fetchesCandidate {a : Attempt Oid} {p : Publication Oid} {project : LocalProject Oid}
      (place : w.delivery = .projected a p project)
      (reached : (w.hosted project.remoteUrl p.branch).any (G.isAncestor p.candidateCommitOid) =
        true) :
      DeliveryStep G w .fetch (w.setDelivery (.delivered a p project))
  | fetchesExpected {a : Attempt Oid} {p : Publication Oid} {project : LocalProject Oid}
      (place : w.delivery = .projected a p project)
      (reached : ¬ (w.hosted project.remoteUrl p.branch).any
        (G.isAncestor p.candidateCommitOid) = true)
      (expected : w.hosted project.remoteUrl p.branch = p.expectedRemoteOid) :
      DeliveryStep G w .fetch (w.setDelivery (.validating a p project))
  | fetchesOther {a : Attempt Oid} {p : Publication Oid} {project : LocalProject Oid}
      (place : w.delivery = .projected a p project)
      (reached : ¬ (w.hosted project.remoteUrl p.branch).any
        (G.isAncestor p.candidateCommitOid) = true)
      (expected : ¬ w.hosted project.remoteUrl p.branch = p.expectedRemoteOid) :
      DeliveryStep G w .fetch
        (w.setDelivery (.behind a p project (w.hosted project.remoteUrl p.branch)))
  | isInactive {a : Attempt Oid} {p : Publication Oid} {project : LocalProject Oid}
      {remoteHead : Option Oid} (place : w.delivery = .behind a p project remoteHead)
      (inactive : (w.checkouts project.localPath).headBranch ≠ some p.branch) :
      DeliveryStep G w .checkBranch (w.setDelivery (.failing a ("remote branch " ++ p.branch ++
        " advanced while it is inactive; publication remains queued")))
  | missesChecked {a : Attempt Oid} {p : Publication Oid} {project : LocalProject Oid}
      {remoteHead : Option Oid} (place : w.delivery = .behind a p project remoteHead)
      (active : ¬ (w.checkouts project.localPath).headBranch ≠ some p.branch)
      (none : findProject w.catalog p.projectId = none) :
      DeliveryStep G w .checkBranch (w.setDelivery (.failing a (unknownProject p.projectId)))
  | checks {a : Attempt Oid} {p : Publication Oid} {project known : LocalProject Oid}
      {remoteHead : Option Oid} (place : w.delivery = .behind a p project remoteHead)
      (active : ¬ (w.checkouts project.localPath).headBranch ≠ some p.branch)
      (found : findProject w.catalog p.projectId = some known) :
      DeliveryStep G w .checkBranch ((w.setProject p.projectId fun q => { q with
        advertisedHeads := Function.update q.advertisedHeads p.branch remoteHead }).setDelivery
          (.reconciling a p remoteHead))
  | isBlocked {a : Attempt Oid} {p : Publication Oid} {remoteHead : Option Oid} {outcome : String}
      (place : w.delivery = .reconciling a p remoteHead) (conflict : outcome = "conflict") :
      DeliveryStep G w (.reconcile outcome)
        (w.setDelivery (.failing a "publication is blocked by a reconciliation conflict"))
  | retries {a : Attempt Oid} {p : Publication Oid} {remoteHead : Option Oid} {outcome : String}
      (place : w.delivery = .reconciling a p remoteHead) (conflict : ¬ outcome = "conflict")
      (retry : outcome = "retry") :
      DeliveryStep G w (.reconcile outcome) (w.setDelivery (.reading a))
  | reconciles {a : Attempt Oid} {p : Publication Oid} {remoteHead : Option Oid} {outcome : String}
      (place : w.delivery = .reconciling a p remoteHead) (conflict : ¬ outcome = "conflict")
      (retry : ¬ outcome = "retry") :
      DeliveryStep G w (.reconcile outcome) (w.setDelivery (.reconciled a p remoteHead))
  | missesReconciled {a : Attempt Oid} {p : Publication Oid} {remoteHead : Option Oid}
      (place : w.delivery = .reconciled a p remoteHead)
      (none : findProject w.catalog p.projectId = none) :
      DeliveryStep G w .readHead (w.setDelivery (.failing a (unknownProject p.projectId)))
  | readsHead {a : Attempt Oid} {p : Publication Oid} {remoteHead : Option Oid}
      {project : LocalProject Oid} {head : Oid} (place : w.delivery = .reconciled a p remoteHead)
      (found : findProject w.catalog p.projectId = some project)
      (headCommit : (w.checkouts project.localPath).headCommit = some head) :
      DeliveryStep G w .readHead (w.setDelivery (.headRead a p remoteHead head))
  | disappearsReconciled {a : Attempt Oid} {p : Publication Oid} {remoteHead : Option Oid}
      {head : Oid} {now : ℕ} (place : w.delivery = .headRead a p remoteHead head)
      (none : PublicationQueue.find w.queue p.publicationId = none) :
      DeliveryStep G w (.retarget now)
        (w.setDelivery (.failing a "publication disappeared from queue"))
  | retargets {a : Attempt Oid} {p q : Publication Oid} {remoteHead : Option Oid} {head : Oid}
      {now : ℕ} (place : w.delivery = .headRead a p remoteHead head)
      (found : PublicationQueue.find w.queue p.publicationId = some q) :
      DeliveryStep G w (.retarget now) { w.setDelivery (.reading a) with
        queue := PublicationQueue.modify (·.retarget now head remoteHead) p.publicationId w.queue }
  | validates {a : Attempt Oid} {p : Publication Oid} {project : LocalProject Oid}
      (place : w.delivery = .validating a p project) :
      DeliveryStep G w .validate (w.setDelivery (.validated a p project))
  | pushes {a : Attempt Oid} {p : Publication Oid} {project : LocalProject Oid} {answered : Bool}
      (place : w.delivery = .validated a p project)
      (expected : w.hosted project.remoteUrl p.branch = p.expectedRemoteOid) :
      DeliveryStep G w (.push answered)
        ((w.setHosted project.remoteUrl p.branch p.candidateCommitOid).setDelivery
          (if answered then .delivered a p project else .failing a "push failed"))
  | isStale {a : Attempt Oid} {p : Publication Oid} {project : LocalProject Oid} {answered : Bool}
      (place : w.delivery = .validated a p project)
      (expected : ¬ w.hosted project.remoteUrl p.branch = p.expectedRemoteOid) :
      DeliveryStep G w (.push answered) (w.setDelivery (.failing a "stale info"))
  | missesBranch {a : Attempt Oid} {p : Publication Oid} {project : LocalProject Oid}
      (place : w.delivery = .delivered a p project)
      (none : w.hosted project.remoteUrl p.branch = none) :
      DeliveryStep G w .confirm
        (w.setDelivery (.failing a "hosted branch is missing after publication"))
  | confirms {a : Attempt Oid} {p : Publication Oid} {project : LocalProject Oid} {head : Oid}
      (place : w.delivery = .delivered a p project)
      (hosted : w.hosted project.remoteUrl p.branch = some head)
      (reachable : G.isAncestor p.candidateCommitOid head = true) :
      DeliveryStep G w .confirm (w.setDelivery (.confirmed a p project head))
  | isUnreachable {a : Attempt Oid} {p : Publication Oid} {project : LocalProject Oid} {head : Oid}
      (place : w.delivery = .delivered a p project)
      (hosted : w.hosted project.remoteUrl p.branch = some head)
      (reachable : ¬ G.isAncestor p.candidateCommitOid head = true) :
      DeliveryStep G w .confirm (w.setDelivery (.failing a
        "published candidate is not reachable from the hosted branch"))
  | acknowledges {a : Attempt Oid} {p : Publication Oid} {project : LocalProject Oid} {head : Oid}
      {now : ℕ} {ack : PublicationAck Oid} (place : w.delivery = .confirmed a p project head)
      (service : (project.service.isSome && w.token) = true)
      (accepts : ({ p with lastAttemptAt := some now } : Publication Oid).accepts ack = true) :
      DeliveryStep G w (.acknowledge now (.acknowledged ack))
        (w.setDelivery (.acked a { p with lastAttemptAt := some now } ack))
  | refuses {a : Attempt Oid} {p : Publication Oid} {project : LocalProject Oid} {head : Oid}
      {now : ℕ} {ack : PublicationAck Oid} (place : w.delivery = .confirmed a p project head)
      (service : (project.service.isSome && w.token) = true)
      (accepts : ¬ ({ p with lastAttemptAt := some now } : Publication Oid).accepts ack = true) :
      DeliveryStep G w (.acknowledge now (.acknowledged ack))
        (w.setDelivery (.failing a "provider returned an invalid durability ACK"))
  | isAdvanced {a : Attempt Oid} {p : Publication Oid} {project : LocalProject Oid} {head : Oid}
      {now : ℕ} {error : String} (place : w.delivery = .confirmed a p project head)
      (service : (project.service.isSome && w.token) = true) :
      DeliveryStep G w (.acknowledge now (.remoteAdvanced error))
        (w.setDelivery (.failing a error))
  | acknowledgesOwn {a : Attempt Oid} {p : Publication Oid} {project : LocalProject Oid}
      {head : Oid} {now : ℕ} {answer : ProviderAnswer Oid}
      (place : w.delivery = .confirmed a p project head)
      (service : ¬ (project.service.isSome && w.token) = true) :
      DeliveryStep G w (.acknowledge now answer)
        (w.setDelivery (.acked a { p with lastAttemptAt := some now }
          (({ p with lastAttemptAt := some now } : Publication Oid).ownAck head
            project.serverGeneration)))
  | completes {a : Attempt Oid} {p : Publication Oid} {ack : PublicationAck Oid} {now : ℕ}
      (place : w.delivery = .acked a p ack) :
      DeliveryStep G w (.complete now) { w.setDelivery (.completing a p ack
          ((PublicationQueue.marked now p ack w.queue).map (·.publicationId))
          ((PublicationQueue.complete now p ack w.queue).any fun q =>
            q.pending && q.projectId == p.projectId)) with
        queue := PublicationQueue.complete now p ack w.queue,
        acknowledged := w.acknowledged ++ PublicationQueue.marked now p ack w.queue }
  | missesCompleted {a : Attempt Oid} {p : Publication Oid} {ack : PublicationAck Oid}
      {completed : List String} {hasPending : Bool}
      (place : w.delivery = .completing a p ack completed hasPending)
      (none : findProject w.catalog p.projectId = none) :
      DeliveryStep G w .recordCompletion
        (w.setDelivery (.failing a (unknownProject p.projectId)))
  | records {a : Attempt Oid} {p : Publication Oid} {ack : PublicationAck Oid}
      {completed : List String} {hasPending : Bool} {project : LocalProject Oid}
      (place : w.delivery = .completing a p ack completed hasPending)
      (found : findProject w.catalog p.projectId = some project) :
      DeliveryStep G w .recordCompletion ((w.setProject p.projectId fun q => { q with
        advertisedHeads := Function.update q.advertisedHeads p.branch (some ack.remoteHead),
        lastAppliedHeads := Function.update q.lastAppliedHeads p.branch (some ack.remoteHead),
        serverGeneration := max q.serverGeneration ack.projectGeneration,
        lastError := none,
        durability := if hasPending then q.durability else .remotelyDurable }).setDelivery
          (.deleting a project.localPath completed))
  | isDelivered {a : Attempt Oid} {path : String} (place : w.delivery = .deleting a path []) :
      DeliveryStep G w .deleteRef (w.setDelivery (.pass a.rest))
  | deletes {a : Attempt Oid} {path id : String} {ids : List String}
      (place : w.delivery = .deleting a path (id :: ids)) :
      DeliveryStep G w .deleteRef
        ((w.setCheckout path ((w.checkouts path).setPublication id none)).setDelivery
          (.deleting a path ids))
  | fails {a : Attempt Oid} {error : String} (place : w.delivery.fallible = some a) :
      DeliveryStep G w (.fail error) (w.setDelivery (.failing a error))
  | recordsFailure {a : Attempt Oid} {error : String} {now : ℕ}
      (place : w.delivery = .failing a error) :
      DeliveryStep G w (.recordFailure now) { w.setDelivery (.failed a error) with
        queue := PublicationQueue.modify (·.recordFailure now error) a.initial.publicationId
          w.queue }
  | notesFailure {a : Attempt Oid} {error : String} (place : w.delivery = .failed a error) :
      DeliveryStep G w .noteFailure ((w.setProject a.initial.projectId fun q => { q with
        durability := .committedUnpublished, lastError := some error }).setDelivery (.pass a.rest))

theorem deliveryStep_of_deliver {e : DeliveryEvent Oid} (h : w.deliver G e = some w') :
    DeliveryStep G w e w' := by
  cases e with
  | start force now =>
    simp only [deliver] at h
    split at h
    · next hplace => exact Option.some.inj h ▸ .starts hplace
    · cases h
  | next =>
    simp only [deliver] at h
    split at h
    · next hplace => exact Option.some.inj h ▸ .ends hplace
    · next hplace =>
      split at h
      · next hfound => exact Option.some.inj h ▸ .takes hplace hfound
      · next hnone => exact Option.some.inj h ▸ .skips hplace hnone
    · cases h
  | load =>
    simp only [deliver] at h
    split at h
    · next hplace =>
      split at h
      · next hleft => exact Option.some.inj h ▸ .losesRace hplace hleft
      · next hleft =>
        split at h
        · next hnone => exact Option.some.inj h ▸ .disappears hplace hleft hnone
        · next hfound =>
          split at h
          · next hpending => exact Option.some.inj h ▸ .loads hplace hleft hfound hpending
          · next hpending => exact Option.some.inj h ▸ .isDone hplace hleft hfound hpending
    · cases h
  | project =>
    simp only [deliver] at h
    split at h
    · next hplace =>
      split at h
      · next hnone => exact Option.some.inj h ▸ .misses hplace hnone
      · next hfound =>
        split at h
        · next hstate => exact Option.some.inj h ▸ .isPaused hplace hfound hstate
        · next hstate => exact Option.some.inj h ▸ .projects hplace hfound hstate
    · cases h
  | fetch =>
    simp only [deliver] at h
    split at h
    · next hplace =>
      split at h
      · next hreached => exact Option.some.inj h ▸ .fetchesCandidate hplace hreached
      · next hreached =>
        split at h
        · next hexpected => exact Option.some.inj h ▸ .fetchesExpected hplace hreached hexpected
        · next hexpected => exact Option.some.inj h ▸ .fetchesOther hplace hreached hexpected
    · cases h
  | checkBranch =>
    simp only [deliver] at h
    split at h
    · next hplace =>
      split at h
      · next hinactive => exact Option.some.inj h ▸ .isInactive hplace hinactive
      · next hactive =>
        split at h
        · next hnone => exact Option.some.inj h ▸ .missesChecked hplace hactive hnone
        · next hfound => exact Option.some.inj h ▸ .checks hplace hactive hfound
    · cases h
  | reconcile outcome =>
    simp only [deliver] at h
    split at h
    · next hplace =>
      split at h
      · next hconflict => exact Option.some.inj h ▸ .isBlocked hplace hconflict
      · next hconflict =>
        split at h
        · next hretry => exact Option.some.inj h ▸ .retries hplace hconflict hretry
        · next hretry => exact Option.some.inj h ▸ .reconciles hplace hconflict hretry
    · cases h
  | readHead =>
    simp only [deliver] at h
    split at h
    · next hplace =>
      split at h
      · next hnone => exact Option.some.inj h ▸ .missesReconciled hplace hnone
      · next hfound =>
        obtain ⟨head, hhead, rfl⟩ := Option.map_eq_some_iff.mp h
        exact .readsHead hplace hfound hhead
    · cases h
  | retarget now =>
    simp only [deliver] at h
    split at h
    · next hplace =>
      split at h
      · next hnone => exact Option.some.inj h ▸ .disappearsReconciled hplace hnone
      · next hfound => exact Option.some.inj h ▸ .retargets hplace hfound
    · cases h
  | validate =>
    simp only [deliver] at h
    split at h
    · next hplace => exact Option.some.inj h ▸ .validates hplace
    · cases h
  | push answered =>
    simp only [deliver] at h
    split at h
    · next hplace =>
      split at h
      · next hexpected => exact Option.some.inj h ▸ .pushes hplace hexpected
      · next hexpected => exact Option.some.inj h ▸ .isStale hplace hexpected
    · cases h
  | confirm =>
    simp only [deliver] at h
    split at h
    · next hplace =>
      split at h
      · next hnone => exact Option.some.inj h ▸ .missesBranch hplace hnone
      · next hhosted =>
        split at h
        · next hreachable => exact Option.some.inj h ▸ .confirms hplace hhosted hreachable
        · next hreachable => exact Option.some.inj h ▸ .isUnreachable hplace hhosted hreachable
    · cases h
  | acknowledge now answer =>
    simp only [deliver] at h
    split at h
    · next hplace =>
      split at h
      · next hservice =>
        split at h
        · split at h
          · next haccepts => exact Option.some.inj h ▸ .acknowledges hplace hservice haccepts
          · next haccepts => exact Option.some.inj h ▸ .refuses hplace hservice haccepts
        · exact Option.some.inj h ▸ .isAdvanced hplace hservice
      · next hservice => exact Option.some.inj h ▸ .acknowledgesOwn hplace hservice
    · cases h
  | complete now =>
    simp only [deliver] at h
    split at h
    · next hplace => exact Option.some.inj h ▸ .completes hplace
    · cases h
  | recordCompletion =>
    simp only [deliver] at h
    split at h
    · next hplace =>
      split at h
      · next hnone => exact Option.some.inj h ▸ .missesCompleted hplace hnone
      · next hfound => exact Option.some.inj h ▸ .records hplace hfound
    · cases h
  | deleteRef =>
    simp only [deliver] at h
    split at h
    · next hplace => exact Option.some.inj h ▸ .isDelivered hplace
    · next hplace => exact Option.some.inj h ▸ .deletes hplace
    · cases h
  | fail error =>
    obtain ⟨a, hplace, rfl⟩ := Option.map_eq_some_iff.mp h
    exact .fails hplace
  | recordFailure now =>
    simp only [deliver] at h
    split at h
    · next hplace => exact Option.some.inj h ▸ .recordsFailure hplace
    · cases h
  | noteFailure =>
    simp only [deliver] at h
    split at h
    · next hplace => exact Option.some.inj h ▸ .notesFailure hplace
    · cases h

end Resync.PublishWorld
