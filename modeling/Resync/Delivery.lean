import Resync.Publishing

/-! The delivery of the queue: `process_publications`, with the loop of
`deliver_publication_unlocked` and with `complete_publication` (`daemon.rs`). -/
namespace Resync

variable {Oid Task : Type}

/-- The attempt of a delivery that a failing command, file access or request
can end. -/
def Delivery.fallible : Delivery Oid → Option (Attempt Oid)
  | .projected a .. | .behind a .. | .reconciling a .. | .reconciled a .. | .headRead a ..
  | .validating a .. | .validated a .. | .delivered a .. | .confirmed a .. => some a
  | _ => none

/-- The hooks run outside of the daemon. -/
def Call.afterRestart : Call Oid → Call Oid
  | .hookCommit name path c on => .hookCommit name path c on
  | .hookCheckout name path previous left => .hookCheckout name path previous left
  | .checkoutReport name path b previous left => .checkoutReport name path b previous left
  | _ => .idle

def unknownProject (id : String) : String := "unknown subscribed project " ++ id

namespace PublishWorld

section Deliver

variable [DecidableEq Oid] (G : CommitGraph Oid)

def deliver (w : PublishWorld Oid Task) : DeliveryEvent Oid → Option (PublishWorld Oid Task)
  | .start force now =>
    match w.delivery with
    | .idle => some (w.setDelivery (.pass (PublicationQueue.toProcess force now w.queue)))
    | _ => none
  | .next =>
    match w.delivery with
    | .pass [] => some (w.setDelivery .idle)
    | .pass (id :: ids) =>
      match PublicationQueue.findPending w.queue id with
      | some p => some (w.setDelivery (.reading ⟨ids, p, 5⟩))
      -- An earlier attempt of the pass has acknowledged the publication.
      | none => some (w.setDelivery (.pass ids))
    | _ => none
  | .load =>
    match w.delivery with
    | .reading a =>
      match a.left with
      -- The round counter of `for _ in 0..5` is used up.
      | 0 => some (w.setDelivery (.failing a "publication lost the remote race five times"))
      | left + 1 =>
        let a := { a with left := left }
        match PublicationQueue.find w.queue a.initial.publicationId with
        | none => some (w.setDelivery (.failing a "publication disappeared from queue"))
        | some p =>
          if p.pending then some (w.setDelivery (.loaded a p))
          else some (w.setDelivery (.pass a.rest))
    | _ => none
  | .project =>
    match w.delivery with
    | .loaded a p =>
      match findProject w.catalog p.projectId with
      | none => some (w.setDelivery (.failing a (unknownProject p.projectId)))
      | some project =>
        if project.state = .conflicted then
          some (w.setDelivery (.failing a
            "publication is paused until `resync project sync` completes reconciliation"))
        else some (w.setDelivery (.projected a p project))
    | _ => none
  | .fetch =>
    match w.delivery with
    | .projected a p project =>
      let remoteHead := w.hosted project.remoteUrl p.branch
      -- The candidate is reachable from the hosted head: no push is needed.
      if remoteHead.any (G.isAncestor p.candidateCommitOid) then
        some (w.setDelivery (.delivered a p project))
      else if remoteHead = p.expectedRemoteOid then
        some (w.setDelivery (.validating a p project))
      else some (w.setDelivery (.behind a p project remoteHead))
    | _ => none
  | .checkBranch =>
    match w.delivery with
    | .behind a p project remoteHead =>
      if (w.checkouts project.localPath).headBranch ≠ some p.branch then
        some (w.setDelivery (.failing a ("remote branch " ++ p.branch ++
          " advanced while it is inactive; publication remains queued")))
      else match findProject w.catalog p.projectId with
      | none => some (w.setDelivery (.failing a (unknownProject p.projectId)))
      | some _ =>
        some ((w.setProject p.projectId fun q => { q with
          advertisedHeads := Function.update q.advertisedHeads p.branch remoteHead }).setDelivery
            (.reconciling a p remoteHead))
    | _ => none
  | .reconcile outcome =>
    match w.delivery with
    | .reconciling a p remoteHead =>
      if outcome = "conflict" then
        some (w.setDelivery (.failing a "publication is blocked by a reconciliation conflict"))
      else if outcome = "retry" then some (w.setDelivery (.reading a))
      else some (w.setDelivery (.reconciled a p remoteHead))
    | _ => none
  | .readHead =>
    match w.delivery with
    | .reconciled a p remoteHead =>
      match findProject w.catalog p.projectId with
      | none => some (w.setDelivery (.failing a (unknownProject p.projectId)))
      | some project =>
        (w.checkouts project.localPath).headCommit.map fun head =>
          w.setDelivery (.headRead a p remoteHead head)
    | _ => none
  | .retarget now =>
    match w.delivery with
    | .headRead a p remoteHead head =>
      match PublicationQueue.find w.queue p.publicationId with
      | none => some (w.setDelivery (.failing a "publication disappeared from queue"))
      | some _ => some { w.setDelivery (.reading a) with
          queue := PublicationQueue.modify (·.retarget now head remoteHead) p.publicationId
            w.queue }
    | _ => none
  | .validate =>
    match w.delivery with
    | .validating a p project => some (w.setDelivery (.validated a p project))
    | _ => none
  | .push answered =>
    match w.delivery with
    | .validated a p project =>
      -- `--force-with-lease` compares the hosted head with the expectation.
      if w.hosted project.remoteUrl p.branch = p.expectedRemoteOid then
        some ((w.setHosted project.remoteUrl p.branch p.candidateCommitOid).setDelivery
          -- A push whose answer is lost has moved the branch all the same.
          (if answered then .delivered a p project else .failing a "push failed"))
      else some (w.setDelivery (.failing a "stale info"))
    | _ => none
  | .confirm =>
    match w.delivery with
    | .delivered a p project =>
      match w.hosted project.remoteUrl p.branch with
      | none => some (w.setDelivery (.failing a "hosted branch is missing after publication"))
      | some head =>
        if G.isAncestor p.candidateCommitOid head then
          some (w.setDelivery (.confirmed a p project head))
        else some (w.setDelivery (.failing a
          "published candidate is not reachable from the hosted branch"))
    | _ => none
  | .acknowledge now answer =>
    match w.delivery with
    | .confirmed a p project head =>
      let p := { p with lastAttemptAt := some now }
      -- Without a service or a token the daemon writes the acknowledgement itself.
      if project.service.isSome && w.token then
        match answer with
        | .acknowledged ack =>
          if p.accepts ack then some (w.setDelivery (.acked a p ack))
          else some (w.setDelivery (.failing a "provider returned an invalid durability ACK"))
        | .remoteAdvanced error => some (w.setDelivery (.failing a error))
      else some (w.setDelivery (.acked a p (p.ownAck head project.serverGeneration)))
    | _ => none
  | .complete now =>
    match w.delivery with
    | .acked a p ack =>
      let queue := PublicationQueue.complete now p ack w.queue
      let marked := PublicationQueue.marked now p ack w.queue
      some { w.setDelivery (.completing a p ack (marked.map (·.publicationId))
          (queue.any fun q => q.pending && q.projectId == p.projectId)) with
        queue := queue,
        acknowledged := w.acknowledged ++ marked }
    | _ => none
  | .recordCompletion =>
    match w.delivery with
    | .completing a p ack completed hasPending =>
      match findProject w.catalog p.projectId with
      | none => some (w.setDelivery (.failing a (unknownProject p.projectId)))
      | some project =>
        some ((w.setProject p.projectId fun q => { q with
          advertisedHeads := Function.update q.advertisedHeads p.branch (some ack.remoteHead),
          lastAppliedHeads := Function.update q.lastAppliedHeads p.branch (some ack.remoteHead),
          serverGeneration := max q.serverGeneration ack.projectGeneration,
          lastError := none,
          durability := if hasPending then q.durability else .remotelyDurable }).setDelivery
            (.deleting a project.localPath completed))
    | _ => none
  | .deleteRef =>
    match w.delivery with
    | .deleting a _ [] => some (w.setDelivery (.pass a.rest))
    | .deleting a path (id :: ids) =>
      some ((w.setCheckout path ((w.checkouts path).setPublication id none)).setDelivery
        (.deleting a path ids))
    | _ => none
  -- An error of the attempt goes to the failure handler; that its own two writes can fail, which
  -- ends the pass, is among the steps of `QueueDaemon`.
  | .fail error => w.delivery.fallible.map fun a => w.setDelivery (.failing a error)
  | .recordFailure now =>
    match w.delivery with
    | .failing a error => some { w.setDelivery (.failed a error) with
        queue := PublicationQueue.modify (·.recordFailure now error) a.initial.publicationId
          w.queue }
    | _ => none
  | .noteFailure =>
    match w.delivery with
    | .failed a error =>
      some ((w.setProject a.initial.projectId fun q => { q with
        durability := .committedUnpublished, lastError := some error }).setDelivery (.pass a.rest))
    | _ => none

variable [DecidableEq Task]

/-- The record is the same project, checkout and remote as the one that it
replaces. -/
def SameProject (p q : LocalProject Oid) : Prop :=
  q.projectId = p.projectId ∧ q.localPath = p.localPath ∧ q.remoteUrl = p.remoteUrl

omit [DecidableEq Oid] in
instance (p q : LocalProject Oid) : Decidable (SameProject p q) :=
  inferInstanceAs (Decidable (_ ∧ _))

def step (w : PublishWorld Oid Task) : PublishEvent Oid Task → Option (PublishWorld Oid Task)
  | .user e => w.user G e
  | .call task e => w.call G task e
  | .deliver e => w.deliver G e
  | .writeProject name record =>
    match findProject w.catalog name with
    | some project => if SameProject project record then some (w.setProject name fun _ => record)
      else none
    | none => none
  | .install path b new old =>
    if (w.checkouts path).heads b = some old then
      some (w.setCheckout path ((w.checkouts path).setHead b new))
    else none
  -- The tasks of the daemon end; the hooks go on, and the queue is on disk.
  | .restart => some { w with calls := fun task => (w.calls task).afterRestart, delivery := .idle }

end Deliver

end PublishWorld

end Resync
