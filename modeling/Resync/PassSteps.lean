import Resync.ForcedPass

/-! The steps of a forced pass: where the delivery of one branch's publication
stands, and what each step makes of it. -/
namespace Resync

variable {Oid Task : Type}

namespace OwnBranch

variable (o : OwnBranch)

section Stages

variable [DecidableEq Oid] (G : CommitGraph Oid)

/-- The record has the hosted head, and the reconciliation that the delivery has
called finds nothing to do. -/
def FindsNothing (project : LocalProject Oid) (remoteHead : Option Oid) :
    Reconciliation Oid → Prop
  | .idle => project.advertisedHeads o.branch = remoteHead
  | .called caller name => project.advertisedHeads o.branch = remoteHead ∧
      caller = .delivery ∧ name = o.projectId
  | .staged caller name staged => project.advertisedHeads o.branch = remoteHead ∧
      caller = .delivery ∧ name = o.projectId ∧ staged = project
  | .located caller name staged branch => project.advertisedHeads o.branch = remoteHead ∧
      caller = .delivery ∧ name = o.projectId ∧ staged = project ∧ branch = o.branch
  | .complete caller name _ result expected branch target => caller = .delivery ∧
      name = o.projectId ∧ result.outcome = .current ∧
      DaemonWorld.stillComplete project expected branch target = true
  | .answered caller _ outcome => caller = .delivery ∧ outcome = some .current
  | _ => False

def Reconciles (w : DaemonWorld Oid Task) (remoteHead : Option Oid) : Prop :=
  ∃ project, findProject w.publish.catalog o.projectId = some project ∧
    o.FindsNothing project remoteHead (w.reconciling none)

/-- The publication waits, and it is the one of the attempt. -/
def Holds (w : PublishWorld Oid Task) (a : Attempt Oid) (p : Publication Oid) : Prop :=
  p ∈ o.waiting w ∧ p.publicationId = a.initial.publicationId

/-- Where the delivery of a publication of the branch stands. -/
def OwnStage (w : DaemonWorld Oid Task) : Delivery Oid → Prop
  | .reading a => ∃ q, o.Holds w.publish a q ∧
      (a.left = 5 ∨ a.left = 4 ∧ o.hostedHead w.publish = q.expectedRemoteOid)
  | .loaded a p => o.Holds w.publish a p ∧
      (a.left = 4 ∨ a.left = 3 ∧ o.hostedHead w.publish = p.expectedRemoteOid)
  | .projected a p project => o.Holds w.publish a p ∧
      (a.left = 4 ∨ a.left = 3 ∧ o.hostedHead w.publish = p.expectedRemoteOid) ∧
      project.localPath = o.path ∧ project.remoteUrl = o.url
  | .behind a p project remoteHead => o.Holds w.publish a p ∧ a.left = 4 ∧
      remoteHead = o.hostedHead w.publish ∧ ¬ o.Deliverable G w.publish p ∧
      project.localPath = o.path
  | .reconciling a p remoteHead => o.Holds w.publish a p ∧ a.left = 4 ∧
      remoteHead = o.hostedHead w.publish ∧ o.checkedOut w.publish ∧ o.Reconciles w remoteHead
  | .reconciled a p remoteHead | .headRead a p remoteHead _ => o.Holds w.publish a p ∧
      a.left = 4 ∧ remoteHead = o.hostedHead w.publish ∧ o.checkedOut w.publish
  | .validating a p project | .validated a p project => o.Holds w.publish a p ∧
      o.hostedHead w.publish = p.expectedRemoteOid ∧ project.remoteUrl = o.url
  | .delivered a p project => o.Holds w.publish a p ∧ project.remoteUrl = o.url ∧
      ∃ r ∈ o.hostedHead w.publish, G.Ancestor p.candidateCommitOid r
  | .confirmed a p _ _ => o.Holds w.publish a p ∧ o.Deliverable G w.publish p
  | .acked a p _ => ∃ q, o.Holds w.publish a q ∧ q.createdAt = p.createdAt ∧
      o.Deliverable G w.publish q
  | .failing a _ => ∃ q, o.Holds w.publish a q ∧ ¬ o.Succeeds G w.publish q
  | _ => True

/-- What holds throughout a pass. -/
structure Passing (w : DaemonWorld Oid Task) : Prop where
  rooted : o.Rooted G w.publish
  names : ∀ a ∈ w.publish.delivery.attempt, ∀ q ∈ w.publish.queue,
    q.publicationId = a.initial.publicationId → o.owns q = o.owns a.initial
  copy : ∀ c ∈ w.publish.delivery.current,
    c.2.publicationId = c.1.initial.publicationId ∧ o.owns c.2 = o.owns c.1.initial
  stage : ∀ a ∈ w.publish.delivery.attempt, o.owns a.initial = true →
    o.OwnStage G w w.publish.delivery
  idle : w.publish.delivery.isReconciling = false → w.reconciling none = .idle
  sorted : Sorted w.publish

/-- The step does something for the branch, and the pass goes on. -/
def Advances (w w' : DaemonWorld Oid Task) : Prop :=
  o.PassEffect G w.publish w'.publish ∧ (o.Rooted G w'.publish → o.Passing G w')

end Stages

/-- The same publications wait, and the branch is as before in both repositories. -/
structure SameView (w u : PublishWorld Oid Task) : Prop where
  waiting : o.waiting u = o.waiting w
  hosted : o.hostedHead u = o.hostedHead w
  head : (u.checkouts o.path).head = (w.checkouts o.path).head

/-- Each publication of the second queue was in the first one. -/
def SameEntries (w u : PublishWorld Oid Task) : Prop :=
  ∀ q ∈ u.queue, ∃ r ∈ w.queue, r.publicationId = q.publicationId ∧ r.createdAt = q.createdAt ∧
    o.owns r = o.owns q

section Views

variable {o} {G : CommitGraph Oid} {w u : PublishWorld Oid Task}

theorem sameEntries_of_queue (h : u.queue = w.queue) : o.SameEntries w u :=
  fun q hq => ⟨q, h ▸ hq, rfl, rfl, rfl⟩

theorem sameEntries_modify {f : Publication Oid → Publication Oid} {id : String}
    (hf : ∀ q, (f q).publicationId = q.publicationId ∧ (f q).createdAt = q.createdAt ∧
      o.owns (f q) = o.owns q) (h : u.queue = PublicationQueue.modify f id w.queue) :
    o.SameEntries w u := by
  intro q hq
  rw [h] at hq
  rcases mem_modifyFirst hq with hq | ⟨r, hr, rfl⟩
  · exact ⟨q, hq, rfl, rfl, rfl⟩
  · obtain ⟨hid, hcreated, howns⟩ := hf r
    exact ⟨r, List.mem_of_find?_eq_some hr, hid.symm, hcreated.symm, howns.symm⟩

theorem SameView.checkedOut (h : o.SameView w u) : o.checkedOut u ↔ o.checkedOut w := by
  rw [OwnBranch.checkedOut, OwnBranch.checkedOut, LocalRefs.headBranch, h.head,
    LocalRefs.headBranch]

theorem SameView.deliverable (h : o.SameView w u) (q : Publication Oid) :
    o.Deliverable G u q ↔ o.Deliverable G w q := by
  rw [Deliverable, Deliverable, h.hosted]

theorem SameView.succeeds (h : o.SameView w u) (q : Publication Oid) :
    o.Succeeds G u q ↔ o.Succeeds G w q := by
  rw [Succeeds, Succeeds, h.checkedOut, h.deliverable]

theorem SameView.holds (h : o.SameView w u) {a : Attempt Oid} {p : Publication Oid} :
    o.Holds u a p ↔ o.Holds w a p := by
  rw [Holds, Holds, h.waiting]

/-- What a step decides that leaves the branch as it is. -/
theorem SameView.effect (h : o.SameView w u)
    (hsub : u.delivery.remaining ⊆ w.delivery.remaining)
    (hkeeps : ∀ q ∈ o.waiting w, o.Succeeds G w q → q.publicationId ∈ w.delivery.remaining →
      q.publicationId ∈ u.delivery.remaining) : o.PassEffect G w u := by
  refine .carries (fun q => q) ?_ (fun q _ => ⟨rfl, rfl, h.succeeds q⟩) hsub hkeeps
  rw [h.waiting, List.map_id']

theorem sameView_setDelivery (w : PublishWorld Oid Task) (d : Delivery Oid) :
    o.SameView w (w.setDelivery d) := ⟨rfl, rfl, rfl⟩

theorem owns_iff {p : Publication Oid} :
    o.owns p = true ↔ p.projectId = o.projectId ∧ p.branch = o.branch := by
  rw [owns, Bool.and_eq_true, beq_iff_eq, beq_iff_eq]

theorem Sorted.sublist (h : Sorted w) (hback : o.SameEntries w u)
    (hrest : u.delivery.remaining.Sublist w.delivery.remaining) : Sorted u := by
  refine (List.Pairwise.sublist hrest h).imp fun {i j} hij p hp q hq hi hj => ?_
  obtain ⟨p', hp', hpid, hpcreated, -⟩ := hback p hp
  obtain ⟨q', hq', hqid, hqcreated, -⟩ := hback q hq
  rw [← hpcreated, ← hqcreated]
  exact hij p' hp' q' hq' (hpid.trans hi) (hqid.trans hj)

/-- The pass has not decided of the publication at hand. -/
structure Undecided (w : PublishWorld Oid Task) (a : Attempt Oid) : Prop where
  attempt : w.delivery.attempt = some a
  remaining : w.delivery.remaining = a.initial.publicationId :: a.rest

theorem Undecided.of {a : Attempt Oid} {d : Delivery Oid} (hplace : w.delivery = d)
    (ha : d.attempt = some a) (hrest : d.remaining = a.initial.publicationId :: a.rest) :
    Undecided w a := by
  subst hplace
  exact ⟨ha, hrest⟩

end Views

section Steps

variable {o} [DecidableEq Oid] {G : CommitGraph Oid} {w : DaemonWorld Oid Task}
  {u : PublishWorld Oid Task} {a : Attempt Oid}

theorem Passing.idleAt (h : o.Passing G w) {d : Delivery Oid} (hplace : w.publish.delivery = d)
    (hd : d.isReconciling = false) : w.reconciling none = .idle := by
  subst hplace
  exact h.idle hd

/-- What the stage of an attempt says at its place. -/
theorem Passing.stageAt (h : o.Passing G w) {d : Delivery Oid} (hplace : w.publish.delivery = d)
    (ha : d.attempt = some a) (hown : o.owns a.initial = true) : o.OwnStage G w d := by
  subst hplace
  exact h.stage a ha hown

theorem Passing.copyAt (h : o.Passing G w) {d : Delivery Oid} (hplace : w.publish.delivery = d)
    {p : Publication Oid} (hp : d.current = some (a, p)) :
    p.publicationId = a.initial.publicationId ∧ o.owns p = o.owns a.initial := by
  subst hplace
  exact h.copy (a, p) hp

/-- An attempt is for one publication. -/
theorem Passing.held (h : o.Passing G w) {p q : Publication Oid} (hp : o.Holds w.publish a p)
    (hq : o.Holds w.publish a q) : q = p :=
  h.rooted.ids.unique (mem_waiting.mp hq.1).1 (mem_waiting.mp hp.1).1 (hq.2.trans hp.2.symm)

/-- What waits under the ID of an attempt is of the branch if the attempt is. -/
theorem Passing.own_of_id (h : o.Passing G w) (ha : w.publish.delivery.attempt = some a)
    {q : Publication Oid} (hq : q ∈ o.waiting w.publish)
    (hid : q.publicationId = a.initial.publicationId) : o.owns a.initial = true := by
  obtain ⟨hqueue, -, hown⟩ := mem_waiting.mp hq
  rw [← h.names a ha q hqueue hid]
  exact hown

/-- The project of the branch is found for its publications. -/
theorem Passing.find (h : o.Passing G w) {p : Publication Oid} (hown : o.owns p = true) :
    ∃ project, findProject w.publish.catalog p.projectId = some project ∧
      project.localPath = o.path ∧ project.remoteUrl = o.url := by
  rw [(owns_iff.mp hown).1]
  exact h.rooted.known

/-- The pass goes on from a queue of the same publications. -/
theorem Passing.next (h : o.Passing G w) {w' : DaemonWorld Oid Task}
    (hrooted : o.Rooted G w'.publish) (hback : o.SameEntries w.publish w'.publish)
    (hattempt : ∀ b ∈ w'.publish.delivery.attempt, ∃ a ∈ w.publish.delivery.attempt,
      b.initial = a.initial)
    (hcopy : ∀ c ∈ w'.publish.delivery.current,
      c.2.publicationId = c.1.initial.publicationId ∧ o.owns c.2 = o.owns c.1.initial)
    (hstage : ∀ b ∈ w'.publish.delivery.attempt, o.owns b.initial = true →
      o.OwnStage G w' w'.publish.delivery)
    (hidle : w'.publish.delivery.isReconciling = false → w'.reconciling none = .idle)
    (hrest : w'.publish.delivery.remaining.Sublist w.publish.delivery.remaining) :
    o.Passing G w' := by
  refine ⟨hrooted, fun b hb q hq hid => ?_, hcopy, hstage, hidle, h.sorted.sublist hback hrest⟩
  obtain ⟨a, ha, hinitial⟩ := hattempt b hb
  obtain ⟨r, hr, hrid, -, howns⟩ := hback q hq
  rw [← howns, hinitial]
  exact h.names a ha r hr (hrid.trans (hid.trans (by rw [hinitial])))

/-- The attempt goes on, and the pass decides nothing. -/
theorem Passing.stays (h : o.Passing G w) {w' : DaemonWorld Oid Task}
    (heffect : o.PassEffect G w.publish w'.publish) (hback : o.SameEntries w.publish w'.publish)
    (ha : w.publish.delivery.attempt = some a)
    (hidle : w'.publish.delivery.isReconciling = false → w'.reconciling none = .idle)
    {b : Attempt Oid} (hb : w'.publish.delivery.attempt = some b) (hinitial : b.initial = a.initial)
    (hrest : w'.publish.delivery.remaining.Sublist w.publish.delivery.remaining)
    (hcopy : ∀ c ∈ w'.publish.delivery.current, c.1 = b ∧
      c.2.publicationId = a.initial.publicationId ∧ o.owns c.2 = o.owns a.initial)
    (hstage : o.owns a.initial = true → o.OwnStage G w' w'.publish.delivery) :
    o.Advances G w w' := by
  refine ⟨heffect, fun hrooted => h.next hrooted hback (fun b' hb' => ?_) (fun c hc => ?_)
    (fun b' hb' hown => ?_) hidle hrest⟩
  · obtain rfl := Option.some.inj (hb.symm.trans hb')
    exact ⟨a, ha, hinitial⟩
  · obtain ⟨hfirst, hid, howns⟩ := hcopy c hc
    rw [hfirst, hinitial]
    exact ⟨hid, howns⟩
  · obtain rfl := Option.some.inj (hb.symm.trans hb')
    rw [hinitial] at hown
    exact hstage hown

/-- The attempt goes on to its next place. -/
theorem Passing.place (h : o.Passing G w) {w' : DaemonWorld Oid Task}
    (hview : o.SameView w.publish w'.publish) (hqueue : w'.publish.queue = w.publish.queue)
    (hat : Undecided w.publish a)
    (hidle : w'.publish.delivery.isReconciling = false → w'.reconciling none = .idle)
    {b : Attempt Oid} (hb : w'.publish.delivery.attempt = some b) (hinitial : b.initial = a.initial)
    (hrest : w'.publish.delivery.remaining = a.initial.publicationId :: a.rest)
    (hcopy : ∀ c ∈ w'.publish.delivery.current, c.1 = b ∧
      c.2.publicationId = a.initial.publicationId ∧ o.owns c.2 = o.owns a.initial)
    (hstage : o.owns a.initial = true → o.OwnStage G w' w'.publish.delivery) :
    o.Advances G w w' := by
  rw [← hat.remaining] at hrest
  refine h.stays (hview.effect (by rw [hrest]; exact List.Subset.refl _) fun q _ _ hq => ?_)
    (sameEntries_of_queue hqueue) hat.attempt hidle hb hinitial (by rw [hrest]) hcopy hstage
  rw [hrest]
  exact hq

/-- The pass gives up an attempt that does not succeed, or one of another branch. -/
theorem Passing.drop (h : o.Passing G w) {w' : DaemonWorld Oid Task}
    (hview : o.SameView w.publish w'.publish) (hqueue : w'.publish.queue = w.publish.queue)
    (hat : Undecided w.publish a)
    (hrest : w'.publish.delivery.remaining = a.rest)
    (hidle : w'.publish.delivery.isReconciling = false → w'.reconciling none = .idle)
    (hplace : (∃ ids, w'.publish.delivery = .pass ids) ∨
      ∃ b error, w'.publish.delivery = .failing b error ∧ b.initial = a.initial)
    (hfails : o.owns a.initial = true →
      ∃ q, o.Holds w.publish a q ∧ ¬ o.Succeeds G w.publish q) :
    o.Advances G w w' := by
  have hkeeps : ∀ q ∈ o.waiting w.publish, o.Succeeds G w.publish q →
      q.publicationId ∈ w.publish.delivery.remaining →
      q.publicationId ∈ w'.publish.delivery.remaining := by
    intro q hq hsucceeds hid
    rw [hat.remaining] at hid
    rcases List.mem_cons.mp hid with hid | hid
    · obtain ⟨p, hheld, hnot⟩ := hfails (h.own_of_id hat.attempt hq hid)
      rw [h.held hheld ⟨hq, hid⟩] at hsucceeds
      exact absurd hsucceeds hnot
    · rw [hrest]
      exact hid
  have hsublist : w'.publish.delivery.remaining.Sublist w.publish.delivery.remaining := by
    rw [hrest, hat.remaining]
    exact List.sublist_cons_self ..
  refine ⟨hview.effect hsublist.subset hkeeps, fun hrooted => h.next hrooted
    (sameEntries_of_queue hqueue) (fun b' hb' => ?_) (fun c hc => ?_) (fun b' hb' hown => ?_)
    hidle hsublist⟩
  · rcases hplace with ⟨ids, hd⟩ | ⟨b, error, hd, hinitial⟩
    · rw [hd] at hb'
      cases hb'
    · rw [hd] at hb'
      obtain rfl := Option.some.inj hb'
      exact ⟨a, hat.attempt, hinitial⟩
  · rcases hplace with ⟨ids, hd⟩ | ⟨b, error, hd, -⟩
    · rw [hd] at hc
      cases hc
    · rw [hd] at hc
      cases hc
  · rcases hplace with ⟨ids, hd⟩ | ⟨b, error, hd, hinitial⟩
    · rw [hd] at hb'
      cases hb'
    · rw [hd] at hb' ⊢
      obtain rfl := Option.some.inj hb'
      rw [hinitial] at hown
      obtain ⟨q, ⟨hwaiting, hid⟩, hnot⟩ := hfails hown
      refine ⟨q, hview.holds.mpr ⟨hwaiting, hid.trans (by rw [hinitial])⟩, fun hsucceeds => ?_⟩
      exact hnot ((hview.succeeds q).mp hsucceeds)

/-- The pass is between two attempts. -/
theorem Passing.between (h : o.Passing G w) (hview : o.SameView w.publish u)
    (hqueue : u.queue = w.publish.queue)
    (hattempt : u.delivery.attempt = none) (hcurrent : u.delivery.current = none)
    (hrest : u.delivery.remaining.Sublist w.publish.delivery.remaining)
    (hkeeps : ∀ q ∈ o.waiting w.publish, o.Succeeds G w.publish q →
      q.publicationId ∈ w.publish.delivery.remaining → q.publicationId ∈ u.delivery.remaining)
    (hidle : w.reconciling none = .idle) : o.Advances G w (w.setPublish u) := by
  refine ⟨hview.effect hrest.subset hkeeps, fun hrooted => h.next hrooted
    (sameEntries_of_queue hqueue) (fun b hb => ?_) (fun c hc => ?_) (fun b hb => ?_)
    (fun _ => hidle) hrest⟩
  · change b ∈ u.delivery.attempt at hb
    rw [hattempt] at hb
    cases hb
  · change c ∈ u.delivery.current at hc
    rw [hcurrent] at hc
    cases hc
  · change b ∈ u.delivery.attempt at hb
    rw [hattempt] at hb
    cases hb

/-- The place belongs to an attempt of which the pass has not decided, and no
reconciliation runs there. -/
structure Open (d : Delivery Oid) (a : Attempt Oid) : Prop where
  attempt : d.attempt = some a
  remaining : d.remaining = a.initial.publicationId :: a.rest
  plain : d.isReconciling = false

/-- The attempt fails; one for the branch only where it cannot succeed. -/
theorem Passing.fails (h : o.Passing G w) {d : Delivery Oid} (hplace : w.publish.delivery = d)
    (hopen : Open d a) {b : Attempt Oid} (hinitial : b.initial = a.initial)
    (hrest : b.rest = a.rest) {error : String}
    (hfails : o.owns a.initial = true → o.OwnStage G w d →
      ∃ q, o.Holds w.publish a q ∧ ¬ o.Succeeds G w.publish q) :
    o.Advances G w (w.setPublish (w.publish.setDelivery (.failing b error))) :=
  h.drop (sameView_setDelivery _ _) rfl (.of hplace hopen.attempt hopen.remaining) hrest
    (fun _ => h.idleAt hplace hopen.plain) (Or.inr ⟨b, error, rfl, hinitial⟩) fun hown =>
      hfails hown (h.stageAt hplace hopen.attempt hown)

/-- The attempt goes on with its copy. -/
theorem Passing.goes (h : o.Passing G w) {d d' : Delivery Oid} (hplace : w.publish.delivery = d)
    (hopen : Open d a) {p p' : Publication Oid} (hp : d.current = some (a, p))
    (hattempt : d'.attempt = some a) (hrest : d'.remaining = a.initial.publicationId :: a.rest)
    (hp' : d'.current = some (a, p')) (hid : p'.publicationId = p.publicationId)
    (howns : o.owns p' = o.owns p)
    (hstage : o.owns p = true → o.OwnStage G w d →
      o.OwnStage G (w.setPublish (w.publish.setDelivery d')) d') :
    o.Advances G w (w.setPublish (w.publish.setDelivery d')) := by
  obtain ⟨hpid, hpowns⟩ := h.copyAt hplace hp
  refine h.place (sameView_setDelivery _ _) rfl (.of hplace hopen.attempt hopen.remaining)
    (fun _ => h.idleAt hplace hopen.plain) hattempt rfl hrest (fun c hc => ?_) fun hown => ?_
  · obtain rfl := Option.some.inj (hp'.symm.trans hc)
    exact ⟨rfl, hid.trans hpid, howns.trans hpowns⟩
  · exact hstage (hpowns.trans hown) (h.stageAt hplace hopen.attempt hown)

theorem Passing.deliverNext (h : o.Passing G w) (hs : w.publish.deliver G .next = some u) :
    o.Advances G w (w.setPublish u) := by
  cases PublishWorld.deliveryStep_of_deliver hs with
  | ends place =>
    refine h.between (sameView_setDelivery _ _) rfl rfl rfl (List.nil_sublist _) (fun q _ _ hq => ?_)
      (h.idleAt place rfl)
    rw [place] at hq
    cases hq
  | @takes id ids p place found =>
    obtain ⟨hqueue, hid, hpending⟩ := PublicationQueue.findPending_eq_some found
    have hview : o.SameView w.publish (w.publish.setDelivery (.reading ⟨ids, p, 5⟩)) :=
      sameView_setDelivery _ _
    have hrest : (Delivery.reading ⟨ids, p, 5⟩).remaining = w.publish.delivery.remaining := by
      rw [place, ← hid]
      rfl
    refine ⟨hview.effect (by rw [← hrest]; exact List.Subset.refl _) fun q _ _ hq => ?_,
      fun hrooted => ⟨hrooted, fun a ha q hq hqid => ?_, fun c hc => (by cases hc),
        fun a ha hown => ?_, fun _ => h.idleAt place rfl, ?_⟩⟩
    · rw [← hrest] at hq
      exact hq
    · obtain rfl := Option.some.inj ha
      rw [h.rooted.ids.unique hq hqueue hqid]
    · obtain rfl := Option.some.inj ha
      exact ⟨p, ⟨mem_waiting.mpr ⟨hqueue, hpending, hown⟩, rfl⟩, Or.inl rfl⟩
    · have hsorted := h.sorted
      rw [Sorted, ← hrest] at hsorted
      exact hsorted
  | skips place none =>
    refine h.between (sameView_setDelivery _ _) rfl rfl rfl ?_ (fun q hq _ hid => ?_)
      (h.idleAt place rfl)
    · rw [place]
      exact List.sublist_cons_self ..
    · rw [place] at hid
      rcases List.mem_cons.mp hid with hid | hid
      · -- a waiting publication would have been found
        obtain ⟨hqueue, hpending, -⟩ := mem_waiting.mp hq
        have hnot := List.find?_eq_none.mp none q hqueue
        rw [hid, hpending, beq_self_eq_true] at hnot
        exact absurd rfl hnot
      · exact hid

theorem Passing.load (h : o.Passing G w) (hs : w.publish.deliver G .load = some u) :
    o.Advances G w (w.setPublish u) := by
  cases PublishWorld.deliveryStep_of_deliver hs with
  | losesRace place left =>
    refine h.fails place ⟨rfl, rfl, rfl⟩ rfl rfl fun _ hstage => ?_
    obtain ⟨q, -, hq | hq⟩ := hstage <;> omega
  | disappears place left none =>
    refine h.fails place ⟨rfl, rfl, rfl⟩ (by rfl) (by rfl) fun _ hstage => ?_
    obtain ⟨q, ⟨hq, hid⟩, -⟩ := hstage
    have hnot := List.find?_eq_none.mp none q (mem_waiting.mp hq).1
    rw [hid, beq_self_eq_true] at hnot
    exact absurd rfl hnot
  | @loads a n p place left found pending =>
    have hat : Undecided w.publish a := .of place rfl rfl
    obtain ⟨hqueue, hid⟩ := PublicationQueue.find_eq_some found
    refine h.place (sameView_setDelivery _ _) rfl hat (fun _ => h.idleAt place rfl) rfl rfl rfl
      (fun c hc => ?_) fun hown => ?_
    · obtain rfl := Option.some.inj hc
      exact ⟨rfl, hid, h.names a hat.attempt p hqueue hid⟩
    · obtain ⟨q, hq, hleft⟩ := h.stageAt place rfl hown
      obtain rfl := h.rooted.ids.unique (mem_waiting.mp hq.1).1 hqueue (hq.2.trans hid.symm)
      refine ⟨hq, hleft.imp (fun heq => ?_) fun heq => ⟨?_, heq.2⟩⟩
      · exact Nat.succ.inj (left.symm.trans heq)
      · exact Nat.succ.inj (left.symm.trans heq.1)
  | isDone place left found pending =>
    obtain ⟨hqueue, hid⟩ := PublicationQueue.find_eq_some found
    refine h.drop (sameView_setDelivery _ _) rfl (.of place rfl rfl) rfl
      (fun _ => h.idleAt place rfl) (Or.inl ⟨_, rfl⟩) fun hown => ?_
    obtain ⟨q, hq, -⟩ := h.stageAt place rfl hown
    obtain rfl := h.rooted.ids.unique (mem_waiting.mp hq.1).1 hqueue (hq.2.trans hid.symm)
    exact absurd (mem_waiting.mp hq.1).2.1 pending

/-- The project of the branch is known, and not paused. -/
theorem Passing.ready (h : o.Passing G w) (hok : o.answers w.publish .project = true)
    {p : Publication Oid} (hplace : w.publish.delivery = .loaded a p) (hown : o.owns p = true) :
    ∃ project, findProject w.publish.catalog p.projectId = some project ∧
      project.state ≠ .conflicted ∧ project.localPath = o.path ∧ project.remoteUrl = o.url := by
  obtain ⟨project, hproject, hpath, hurl⟩ := h.rooted.known
  simp only [answers, hplace, hown, Bool.not_true, Bool.false_or, hproject,
    Option.any_some, bne_iff_ne] at hok
  rw [(owns_iff.mp hown).1]
  exact ⟨project, hproject, hok, hpath, hurl⟩

theorem Passing.project (h : o.Passing G w) (hok : o.answers w.publish .project = true)
    (hs : w.publish.deliver G .project = some u) : o.Advances G w (w.setPublish u) := by
  cases PublishWorld.deliveryStep_of_deliver hs with
  | misses place none =>
    refine h.fails place ⟨rfl, rfl, rfl⟩ rfl rfl fun hown _ => ?_
    obtain ⟨project, hproject, -⟩ := h.ready hok place ((h.copyAt place rfl).2.trans hown)
    rw [hproject] at none
    cases none
  | isPaused place found state =>
    refine h.fails place ⟨rfl, rfl, rfl⟩ rfl rfl fun hown _ => ?_
    obtain ⟨project, hproject, hstate, -⟩ := h.ready hok place ((h.copyAt place rfl).2.trans hown)
    obtain rfl := Option.some.inj (found.symm.trans hproject)
    exact absurd state hstate
  | projects place found =>
    refine h.goes place ⟨rfl, rfl, rfl⟩ rfl rfl rfl rfl rfl rfl fun hown hstage => ?_
    obtain ⟨project, hproject, -, hpath, hurl⟩ := h.ready hok place hown
    obtain rfl := Option.some.inj (found.symm.trans hproject)
    exact ⟨hstage.1, hstage.2, hpath, hurl⟩

omit [DecidableEq Oid] in
/-- The hosted branch of a publication of the branch is that of the branch. -/
theorem hosted_of_owns {p : Publication Oid} {project : LocalProject Oid}
    (hown : o.owns p = true) (hurl : project.remoteUrl = o.url) :
    w.publish.hosted project.remoteUrl p.branch = o.hostedHead w.publish := by
  rw [hurl, (owns_iff.mp hown).2]
  rfl

theorem Passing.fetch (h : o.Passing G w) (hs : w.publish.deliver G .fetch = some u) :
    o.Advances G w (w.setPublish u) := by
  cases PublishWorld.deliveryStep_of_deliver hs with
  | fetchesCandidate place reached =>
    refine h.goes place ⟨rfl, rfl, rfl⟩ rfl rfl rfl rfl rfl rfl fun hown hstage => ?_
    obtain ⟨hheld, -, -, hurl⟩ := hstage
    rw [hosted_of_owns hown hurl] at reached
    obtain ⟨r, hr, hancestor⟩ := (Option.any_eq_true ..).mp reached
    exact ⟨hheld, hurl, r, hr, (G.isAncestor_iff _ _).mp hancestor⟩
  | fetchesExpected place reached expected =>
    refine h.goes place ⟨rfl, rfl, rfl⟩ rfl rfl rfl rfl rfl rfl fun hown hstage => ?_
    obtain ⟨hheld, -, -, hurl⟩ := hstage
    rw [hosted_of_owns hown hurl] at expected
    exact ⟨hheld, expected, hurl⟩
  | fetchesOther place reached expected =>
    refine h.goes place ⟨rfl, rfl, rfl⟩ rfl rfl rfl rfl rfl rfl fun hown hstage => ?_
    obtain ⟨hheld, hleft, hpath, hurl⟩ := hstage
    have hhead := hosted_of_owns (w := w) hown hurl
    rw [hhead] at reached expected
    -- in the second round the hosted branch would be as expected
    have hfirst := hleft.resolve_right fun hsecond => expected hsecond.2
    refine ⟨hheld, hfirst, hhead, ?_, hpath⟩
    rintro (⟨r, hr, hancestor⟩ | hexpected)
    · refine reached ((Option.any_eq_true ..).mpr ⟨r, hr, ?_⟩)
      exact (G.isAncestor_iff _ _).mpr hancestor
    · exact expected hexpected

theorem Passing.checkBranch (h : o.Passing G w)
    (hs : w.publish.deliver G .checkBranch = some u) : o.Advances G w (w.setPublish u) := by
  cases PublishWorld.deliveryStep_of_deliver hs with
  | @isInactive a p project remoteHead place inactive =>
    refine h.fails place ⟨rfl, rfl, rfl⟩ rfl rfl fun hown hstage => ?_
    obtain ⟨hheld, -, -, hnot, hpath⟩ := hstage
    rw [← (h.copyAt place rfl).2] at hown
    refine ⟨p, hheld, ?_⟩
    rintro (hchecked | hdeliverable)
    · rw [hpath, (owns_iff.mp hown).2] at inactive
      exact inactive hchecked
    · exact hnot hdeliverable
  | missesChecked place active none =>
    refine h.fails place ⟨rfl, rfl, rfl⟩ rfl rfl fun hown _ => ?_
    obtain ⟨project, hproject, -⟩ := h.find ((h.copyAt place rfl).2.trans hown)
    rw [hproject] at none
    cases none
  | @checks a p project known remoteHead place active found =>
    obtain ⟨hid, howns⟩ := h.copyAt place rfl
    have hidle := h.idleAt place rfl
    have hview : o.SameView w.publish ((w.publish.setProject p.projectId fun q => { q with
        advertisedHeads := Function.update q.advertisedHeads p.branch
          remoteHead }).setDelivery (.reconciling a p remoteHead)) := ⟨rfl, rfl, rfl⟩
    refine h.place hview rfl (.of place rfl rfl) (fun _ => hidle) rfl rfl rfl (fun c hc => ?_)
      fun hown => ?_
    · obtain rfl := Option.some.inj hc
      exact ⟨rfl, hid, howns⟩
    · obtain ⟨hheld, hfirst, hhead, -, hpath⟩ := h.stageAt place rfl hown
      rw [← howns] at hown
      obtain ⟨hproject, hbranch⟩ := owns_iff.mp hown
      have hchecked : o.checkedOut w.publish := by
        rw [hpath, hbranch] at active
        exact not_not.mp active
      refine ⟨hheld, hfirst, hhead, hchecked, { known with
        advertisedHeads := Function.update known.advertisedHeads p.branch remoteHead }, ?_, ?_⟩
      · rw [hproject] at found
        change findProject (updateProject w.publish.catalog p.projectId _) o.projectId = _
        rw [hproject]
        refine find?_modifyFirst_of_find found ?_
        have hnamed : known.named o.projectId = true := by
          simpa only using List.find?_some found
        exact hnamed
      · change o.FindsNothing _ _ (w.reconciling none)
        rw [hidle]
        change Function.update _ p.branch _ o.branch = _
        rw [hbranch, Function.update_self]

theorem Passing.readHead (h : o.Passing G w) (hs : w.publish.deliver G .readHead = some u) :
    o.Advances G w (w.setPublish u) := by
  cases PublishWorld.deliveryStep_of_deliver hs with
  | missesReconciled place none =>
    refine h.fails place ⟨rfl, rfl, rfl⟩ rfl rfl fun hown _ => ?_
    obtain ⟨project, hproject, -⟩ := h.find ((h.copyAt place rfl).2.trans hown)
    rw [hproject] at none
    cases none
  | readsHead place =>
    exact h.goes place ⟨rfl, rfl, rfl⟩ rfl rfl rfl rfl rfl rfl fun _ hstage => hstage

theorem Passing.retarget (h : o.Passing G w) {now : ℕ}
    (hs : w.publish.deliver G (.retarget now) = some u) : o.Advances G w (w.setPublish u) := by
  cases PublishWorld.deliveryStep_of_deliver hs with
  | @disappearsReconciled a p remoteHead head now place none =>
    refine h.fails place ⟨rfl, rfl, rfl⟩ rfl rfl fun _ hstage => ?_
    obtain ⟨hheld, -⟩ := hstage
    have hnot := List.find?_eq_none.mp none p (mem_waiting.mp hheld.1).1
    rw [beq_self_eq_true] at hnot
    exact absurd rfl hnot
  | @retargets a p x remoteHead head now place =>
    have hat : Undecided w.publish a := .of place rfl rfl
    have hstage := h.stageAt place rfl
    obtain ⟨hid, howns⟩ := h.copyAt place rfl
    have hrest : (Delivery.reading a).remaining = w.publish.delivery.remaining :=
      hat.remaining.symm
    have hwaiting : (PublicationQueue.modify (·.retarget now head remoteHead) p.publicationId
        w.publish.queue).filter (fun q => q.pending && o.owns q) =
        (o.waiting w.publish).map fun q =>
          if q.publicationId = p.publicationId then q.retarget now head remoteHead else q :=
      filter_modify h.rooted.ids.ids fun _ _ _ => rfl
    refine h.stays (.carries _ hwaiting (fun q hq => ⟨?_, ?_, ?_⟩) (by
      change (Delivery.reading a).remaining ⊆ _
      rw [hrest]
      exact List.Subset.refl _) fun q _ _ hq => ?_)
      (sameEntries_modify (f := (·.retarget now head remoteHead)) (fun _ => ⟨rfl, rfl, rfl⟩) rfl)
      hat.attempt (fun _ => h.idleAt place rfl) rfl rfl
      (by
        change (Delivery.reading a).remaining.Sublist _
        rw [hrest]) (fun c hc => by cases hc) fun hown => ?_
    · split <;> rfl
    · split <;> rfl
    · split
      · next hsame =>
        obtain ⟨-, -, -, hchecked⟩ := hstage (h.own_of_id hat.attempt hq (hsame.trans hid))
        exact ⟨fun _ => Or.inl hchecked, fun _ => Or.inl hchecked⟩
      · exact Iff.rfl
    · change q.publicationId ∈ (Delivery.reading a).remaining
      rw [hrest]
      exact hq
    · obtain ⟨⟨hheld, -⟩, hfirst, hhead, -⟩ := hstage hown
      refine ⟨p.retarget now head remoteHead, ⟨?_, hid⟩, Or.inr ⟨hfirst, hhead.symm⟩⟩
      change _ ∈ (PublicationQueue.modify _ _ _).filter _
      rw [hwaiting]
      exact List.mem_map.mpr ⟨p, hheld, if_pos rfl⟩

theorem Passing.validate (h : o.Passing G w) (hs : w.publish.deliver G .validate = some u) :
    o.Advances G w (w.setPublish u) := by
  cases PublishWorld.deliveryStep_of_deliver hs with
  | validates place =>
    exact h.goes place ⟨rfl, rfl, rfl⟩ rfl rfl rfl rfl rfl rfl fun _ hstage => hstage

/-- The push moves the branch to the publication at hand, or another branch. -/
theorem Passing.push (h : o.Passing G w) {answered : Bool}
    (hok : o.answers w.publish (.push answered) = true)
    (hother : ∀ a p project, w.publish.delivery = .validated a p project → o.owns p = false →
      o.hostedHead u = o.hostedHead w.publish)
    (hs : w.publish.deliver G (.push answered) = some u) : o.Advances G w (w.setPublish u) := by
  cases PublishWorld.deliveryStep_of_deliver hs with
  | @pushes a p project answered place expected =>
    have hat : Undecided w.publish a := .of place rfl rfl
    have hidle := h.idleAt place rfl
    obtain ⟨hid, howns⟩ := h.copyAt place rfl
    have hcopy : ∀ c ∈ (Delivery.delivered a p project).current, c.1 = a ∧
        c.2.publicationId = a.initial.publicationId ∧ o.owns c.2 = o.owns a.initial := by
      intro c hc
      obtain rfl := Option.some.inj hc
      exact ⟨rfl, hid, howns⟩
    by_cases hown : o.owns p = true
    · simp only [answers, place, hown, Bool.not_true, Bool.false_or] at hok
      subst hok
      obtain ⟨⟨hheld, hheldId⟩, hexpected, hurl⟩ := h.stageAt place rfl (howns.symm.trans hown)
      have hmoved : (w.publish.setHosted project.remoteUrl p.branch p.candidateCommitOid).hosted
          o.url o.branch = some p.candidateCommitOid := by
        rw [hurl, (owns_iff.mp hown).2]
        change Function.update w.publish.hosted o.url (Function.update (w.publish.hosted o.url)
          o.branch (some _)) o.url o.branch = _
        rw [Function.update_self, Function.update_self]
      have hdelivered : ∃ r ∈ (w.publish.setHosted project.remoteUrl p.branch
          p.candidateCommitOid).hosted o.url o.branch, G.Ancestor p.candidateCommitOid r :=
        ⟨_, hmoved, CommitGraph.Ancestor.refl _⟩
      refine h.stays (.pushes p a.rest hheld (Or.inr (Or.inr hexpected))
        (Or.inr (Or.inl hdelivered)) rfl ?_ ?_) (sameEntries_of_queue rfl) hat.attempt
        (fun _ => hidle) rfl rfl ?_ hcopy fun _ => ⟨⟨hheld, hheldId⟩, hurl, hdelivered⟩
      · rw [hid]
        exact hat.remaining
      · rw [hid]
        rfl
      · rw [hat.remaining]
        exact List.Sublist.refl _
    · rw [Bool.not_eq_true] at hown
      have hfalse : o.owns a.initial ≠ true := by
        rw [← howns, hown]
        exact Bool.false_ne_true
      have hview : o.SameView w.publish ((w.publish.setHosted project.remoteUrl p.branch
          p.candidateCommitOid).setDelivery
            (if answered then .delivered a p project else .failing a "push failed")) :=
        ⟨rfl, hother a p project place hown, rfl⟩
      cases answered with
      | false =>
        exact h.drop hview rfl hat rfl (fun _ => hidle) (Or.inr ⟨a, _, rfl, rfl⟩)
          fun hown => absurd hown hfalse
      | true =>
        exact h.place hview rfl hat (fun _ => hidle) rfl rfl rfl hcopy
          fun hown => absurd hown hfalse
  | isStale place stale =>
    refine h.fails place ⟨rfl, rfl, rfl⟩ rfl rfl fun hown hstage => ?_
    obtain ⟨-, hexpected, hurl⟩ := hstage
    rw [hurl, (owns_iff.mp ((h.copyAt place rfl).2.trans hown)).2] at stale
    exact absurd hexpected stale

theorem Passing.confirm (h : o.Passing G w) (hs : w.publish.deliver G .confirm = some u) :
    o.Advances G w (w.setPublish u) := by
  -- the branch has the candidate since the fetch or the push
  have hreached : ∀ {a p project}, w.publish.delivery = .delivered a p project →
      o.owns a.initial = true → ∃ r, w.publish.hosted project.remoteUrl p.branch = some r ∧
        G.Ancestor p.candidateCommitOid r := by
    intro a p project place hown
    obtain ⟨-, hurl, r, hr, hancestor⟩ := h.stageAt place rfl hown
    rw [hosted_of_owns ((h.copyAt place rfl).2.trans hown) hurl]
    exact ⟨r, hr, hancestor⟩
  cases PublishWorld.deliveryStep_of_deliver hs with
  | missesBranch place none =>
    refine h.fails place ⟨rfl, rfl, rfl⟩ rfl rfl fun hown _ => ?_
    obtain ⟨r, hr, -⟩ := hreached place hown
    rw [hr] at none
    cases none
  | confirms place =>
    refine h.goes place ⟨rfl, rfl, rfl⟩ rfl rfl rfl rfl rfl rfl fun _ hstage => ?_
    obtain ⟨hheld, -, hdeliverable⟩ := hstage
    exact ⟨hheld, Or.inl hdeliverable⟩
  | isUnreachable place hosted reachable =>
    refine h.fails place ⟨rfl, rfl, rfl⟩ rfl rfl fun hown _ => ?_
    obtain ⟨r, hr, hancestor⟩ := hreached place hown
    obtain rfl := Option.some.inj (hosted.symm.trans hr)
    exact absurd ((G.isAncestor_iff _ _).mpr hancestor) reachable

theorem Passing.acknowledge (h : o.Passing G w) {now : ℕ} {answer : ProviderAnswer Oid}
    (hok : o.answers w.publish (.acknowledge now answer) = true)
    (hs : w.publish.deliver G (.acknowledge now answer) = some u) :
    o.Advances G w (w.setPublish u) := by
  -- a provider refuses a publication of another branch only
  have hfailing : ∀ {a p project head error}, w.publish.delivery = .confirmed a p project head →
      o.owns p = false →
        o.Advances G w (w.setPublish (w.publish.setDelivery (.failing a error))) := by
    intro a p project head error place hnot
    refine h.fails place ⟨rfl, rfl, rfl⟩ rfl rfl fun hown _ => ?_
    rw [← (h.copyAt place rfl).2, hnot] at hown
    cases hown
  cases PublishWorld.deliveryStep_of_deliver hs with
  | @acknowledges a p _ _ _ _ place | @acknowledgesOwn a p _ _ _ _ place =>
    refine h.goes place ⟨rfl, rfl, rfl⟩ rfl rfl rfl rfl rfl rfl fun _ hstage => ?_
    obtain ⟨hheld, hdeliverable⟩ := hstage
    exact ⟨p, hheld, rfl, hdeliverable⟩
  | refuses place service accepts =>
    simp only [answers, place, Bool.or_eq_true, Bool.not_eq_true'] at hok
    exact hfailing place (hok.resolve_right accepts)
  | isAdvanced place =>
    simp only [answers, place, Bool.not_eq_true'] at hok
    exact hfailing place hok

theorem Passing.complete (h : o.Passing G w) {now : ℕ}
    (hs : w.publish.deliver G (.complete now) = some u) : o.Advances G w (w.setPublish u) := by
  cases PublishWorld.deliveryStep_of_deliver hs with
  | @completes a p ack now place =>
    have hat : Undecided w.publish a := .of place rfl rfl
    obtain ⟨hid, howns⟩ := h.copyAt place rfl
    have hwaiting : (PublicationQueue.complete now p ack w.publish.queue).filter
        (fun q => q.pending && o.owns q) =
          (o.waiting w.publish).filter fun q => !p.completes q :=
      filter_complete (fun q hq => (Bool.and_eq_true_iff.mp hq).1) now p ack _
    have hback : ∀ q ∈ PublicationQueue.complete now p ack w.publish.queue,
        ∃ r ∈ w.publish.queue, r.publicationId = q.publicationId ∧ r.createdAt = q.createdAt ∧
          o.owns r = o.owns q := by
      intro q hq
      obtain ⟨r, hr, hrq⟩ := List.mem_map.mp ((PublicationQueue.compact_sublist _).subset hq)
      refine ⟨r, hr, ?_⟩
      rw [← hrq]
      split <;> exact ⟨rfl, rfl, rfl⟩
    refine h.stays ?_ hback hat.attempt (fun _ => h.idleAt place rfl) rfl rfl ?_ (fun c hc => ?_)
      fun _ => trivial
    · by_cases hown : o.owns p = true
      · obtain ⟨q, ⟨hq, hqid⟩, hcreated, hdeliverable⟩ :=
          h.stageAt place rfl (howns.symm.trans hown)
        refine .completes q a.rest hq (Or.inr hdeliverable) ?_ (by rw [hqid]; exact hat.remaining)
          rfl
        change (PublicationQueue.complete now p ack w.publish.queue).filter _ = _
        rw [hwaiting]
        -- of the branch, all that is not younger is completed
        refine List.filter_congr fun r hr => congrArg not ?_
        obtain ⟨-, hpending, hrown⟩ := mem_waiting.mp hr
        obtain ⟨hproject, hbranch⟩ := owns_iff.mp hown
        obtain ⟨hrproject, hrbranch⟩ := owns_iff.mp hrown
        rw [hcreated, Publication.completes, hpending, hproject, hbranch, hrproject, hrbranch,
          beq_self_eq_true, beq_self_eq_true]
        simp only [Bool.true_and]
      · refine .carries (fun q => q) ?_ (fun q _ => ⟨rfl, rfl, Iff.rfl⟩) ?_ fun q hq _ hqid => ?_
        · change (PublicationQueue.complete now p ack w.publish.queue).filter _ = _
          rw [hwaiting, List.map_id', List.filter_eq_self]
          intro r hr
          obtain ⟨hrproject, hrbranch⟩ := owns_iff.mp (mem_waiting.mp hr).2.2
          rw [Bool.not_eq_true', Bool.eq_false_iff]
          intro hcompletes
          obtain ⟨-, hproject, hbranch, -⟩ := Publication.completes_iff.mp hcompletes
          exact hown (owns_iff.mpr ⟨hproject ▸ hrproject, hbranch ▸ hrbranch⟩)
        · rw [hat.remaining]
          exact List.subset_cons_self ..
        · rw [hat.remaining] at hqid
          rcases List.mem_cons.mp hqid with hqid | hqid
          · exact absurd (howns.trans (h.own_of_id hat.attempt hq hqid)) hown
          · exact hqid
    · rw [hat.remaining]
      exact List.sublist_cons_self ..
    · obtain rfl := Option.some.inj hc
      exact ⟨rfl, hid, howns⟩

/-- A step after the decision leaves the branch as it is. -/
theorem Passing.after (h : o.Passing G w) (hview : o.SameView w.publish u)
    (hqueue : u.queue = w.publish.queue) (ha : w.publish.delivery.attempt = some a)
    (hidle : w.reconciling none = .idle) (hb : u.delivery.attempt = some a)
    (hrest : u.delivery.remaining = w.publish.delivery.remaining)
    (hcopy : u.delivery.current = none)
    (hstage : o.owns a.initial = true → o.OwnStage G (w.setPublish u) u.delivery) :
    o.Advances G w (w.setPublish u) := by
  refine h.stays (hview.effect (by rw [hrest]; exact List.Subset.refl _) fun q _ _ hq => ?_)
    (sameEntries_of_queue hqueue) ha (fun _ => hidle) hb rfl (by
      change u.delivery.remaining.Sublist _
      rw [hrest]) (fun c hc => ?_) hstage
  · rw [hrest]
    exact hq
  · change c ∈ u.delivery.current at hc
    rw [hcopy] at hc
    cases hc

theorem Passing.recordCompletion (h : o.Passing G w)
    (hs : w.publish.deliver G .recordCompletion = some u) : o.Advances G w (w.setPublish u) := by
  cases PublishWorld.deliveryStep_of_deliver hs with
  | @missesCompleted a p ack completed hasPending place none =>
    have ha : w.publish.delivery.attempt = some a := by rw [place]; rfl
    have hrest : w.publish.delivery.remaining = a.rest := by rw [place]; rfl
    refine h.after (sameView_setDelivery _ _) rfl ha (h.idleAt place rfl) rfl hrest.symm rfl
      fun hown => ?_
    obtain ⟨project, hproject, -⟩ := h.find ((h.copyAt place rfl).2.trans hown)
    rw [hproject] at none
    cases none
  | @records a p ack completed hasPending project place =>
    have ha : w.publish.delivery.attempt = some a := by rw [place]; rfl
    have hrest : w.publish.delivery.remaining = a.rest := by rw [place]; rfl
    exact h.after ⟨rfl, rfl, rfl⟩ rfl ha (h.idleAt place rfl) rfl hrest.symm rfl fun _ => trivial

theorem Passing.deleteRef (h : o.Passing G w) (hs : w.publish.deliver G .deleteRef = some u) :
    o.Advances G w (w.setPublish u) := by
  cases PublishWorld.deliveryStep_of_deliver hs with
  | @isDelivered a path place =>
    have hrest : w.publish.delivery.remaining = a.rest := by rw [place]; rfl
    refine h.between (sameView_setDelivery _ _) rfl rfl rfl ?_ (fun q _ _ hq => ?_)
      (h.idleAt place rfl)
    · rw [hrest]
      exact List.Sublist.refl _
    · rw [hrest] at hq
      exact hq
  | @deletes a path id ids place =>
    have ha : w.publish.delivery.attempt = some a := by rw [place]; rfl
    have hrest : w.publish.delivery.remaining = a.rest := by rw [place]; rfl
    refine h.after ⟨rfl, rfl, ?_⟩ rfl ha (h.idleAt place rfl) rfl hrest.symm rfl fun _ => trivial
    change (Function.update w.publish.checkouts path _ o.path).head = _
    by_cases hpath : o.path = path
    · rw [hpath, Function.update_self]
      rfl
    · rw [Function.update_of_ne hpath]

omit [DecidableEq Oid] in
theorem undecided_of_fallible {w : PublishWorld Oid Task} (h : w.delivery.fallible = some a) :
    Undecided w a := by
  unfold Delivery.fallible at h
  split at h
  all_goals first
    | next hplace =>
      obtain rfl := Option.some.inj h
      exact .of hplace rfl rfl
    | cases h

theorem Passing.fail (h : o.Passing G w) {error : String}
    (hok : o.answers w.publish (.fail error) = true)
    (hs : w.publish.deliver G (.fail error) = some u) : o.Advances G w (w.setPublish u) := by
  obtain ⟨a, hfallible, rfl⟩ := Option.map_eq_some_iff.mp hs
  have hat := undecided_of_fallible hfallible
  simp only [answers, hat.attempt, Option.all_some, Bool.and_eq_true, Bool.not_eq_true'] at hok
  refine h.drop (sameView_setDelivery _ _) rfl hat rfl (fun _ => h.idle hok.1)
    (Or.inr ⟨a, _, rfl, rfl⟩) fun hown => ?_
  rw [hok.2] at hown
  cases hown

theorem Passing.recordFailure (h : o.Passing G w) {now : ℕ}
    (hs : w.publish.deliver G (.recordFailure now) = some u) : o.Advances G w (w.setPublish u) := by
  cases PublishWorld.deliveryStep_of_deliver hs with
  | @recordsFailure a error now place =>
    have hstage := h.stageAt place rfl
    have ha : w.publish.delivery.attempt = some a := by rw [place]; rfl
    have hrest : w.publish.delivery.remaining = a.rest := by rw [place]; rfl
    have hwaiting : (PublicationQueue.modify (·.recordFailure now error) a.initial.publicationId
        w.publish.queue).filter (fun q => q.pending && o.owns q) =
        (o.waiting w.publish).map fun q =>
          if q.publicationId = a.initial.publicationId then q.recordFailure now error else q := by
      apply filter_modify h.rooted.ids.ids
      intro q hq hid
      have howns := h.names a ha q hq hid
      change (true && o.owns q) = (q.pending && o.owns q)
      by_cases hown : o.owns q = true
      · -- what fails was waiting
        obtain ⟨r, hheld, -⟩ := hstage (howns ▸ hown)
        have hrq : q = r :=
          h.rooted.ids.unique hq (mem_waiting.mp hheld.1).1 (hid.trans hheld.2.symm)
        rw [hrq, (mem_waiting.mp hheld.1).2.1]
      · rw [Bool.eq_false_iff.mpr hown, Bool.and_false, Bool.and_false]
    refine h.stays (.carries _ hwaiting (fun q _ => ⟨?_, ?_, ?_⟩) ?_ fun q _ _ hq => ?_)
      (sameEntries_modify (f := (·.recordFailure now error)) (fun _ => ⟨rfl, rfl, rfl⟩) rfl) ha
      (fun _ => h.idleAt place rfl) rfl rfl ?_ (fun c hc => by cases hc) fun _ => trivial
    · split <;> rfl
    · split <;> rfl
    · split <;> exact Iff.rfl
    · rw [hrest]
      exact List.Subset.refl _
    · rw [hrest] at hq
      exact hq
    · rw [hrest]
      exact List.Sublist.refl _

theorem Passing.noteFailure (h : o.Passing G w)
    (hs : w.publish.deliver G .noteFailure = some u) : o.Advances G w (w.setPublish u) := by
  cases PublishWorld.deliveryStep_of_deliver hs with
  | @notesFailure a error place =>
    have hrest : w.publish.delivery.remaining = a.rest := by rw [place]; rfl
    refine h.between ⟨rfl, rfl, rfl⟩ rfl rfl rfl ?_ (fun q _ _ hq => ?_) (h.idleAt place rfl)
    · rw [hrest]
      exact List.Sublist.refl _
    · rw [hrest] at hq
      exact hq

/-- Where the hosted head is in the branch that is checked out, a reconciliation has
nothing to do. -/
theorem prepare_current {project : LocalProject Oid} {b : Branch} {head : Option Oid}
    (h : ∀ target ∈ project.advertisedHeads b, ∃ c ∈ head, G.Ancestor target c)
    (rebase : Rebase Oid) :
    ∃ staged result expected target,
      prepareProjectReconciliation G (rebase.answers b head true) project =
        some (.complete staged result expected b target) ∧
      result.outcome = .current ∧ expected = project.workspaceGeneration ∧
      target = project.advertisedHeads b := by
  unfold prepareProjectReconciliation
  simp only [Rebase.answers, Option.bind_eq_bind, Option.bind_some]
  cases htarget : project.advertisedHeads b with
  | none => exact ⟨_, _, _, _, rfl, rfl, rfl, rfl⟩
  | some target =>
    obtain ⟨c, hc, hancestor⟩ := h target htarget
    have hcurrent : c = target ∨ G.isAncestor target c = true :=
      Or.inr ((G.isAncestor_iff _ _).mpr hancestor)
    rw [Option.mem_def] at hc
    simp only [hc, Option.bind_some, if_pos hcurrent, ↓reduceIte]
    exact ⟨_, _, _, _, rfl, rfl, rfl, rfl⟩

end Steps

section Reconciliations

variable {o} [DecidableEq Oid] [DecidableEq Task] {G : CommitGraph Oid}
  {w w' : DaemonWorld Oid Task} {a : Attempt Oid} {p : Publication Oid}
  {remoteHead : Option Oid}

/-- A reconciliation that the delivery has called is under way. -/
theorem Passing.reconciling_of_step (h : o.Passing G w) {e : ReconcileEvent Oid}
    (hs : w.reconcile G none e = some w') :
    ∃ a p remoteHead, w.publish.delivery = .reconciling a p remoteHead := by
  cases hplace : w.publish.delivery with
  | reconciling a p remoteHead => exact ⟨a, p, remoteHead, rfl⟩
  | _ =>
    have hidle := h.idleAt hplace rfl
    cases DaemonWorld.reconcileStep_of_reconcile hs with
    | requests own | starts own => exact absurd rfl own
    | calls _ _ delivery => cases hplace.symm.trans delivery
    | isRefreshed place | losesRefresh place | stages place | stagesUnknown place
    | locates place | isDetached place | failsPreparation place | completes place
    | prepares place | mergesUnknown place | merges place | isOutdated place
    | installsUnknown place | isUnwanted place | failsInstallation place | installs place
    | retries place | ends place | notes place | delivers place | failsDelivery place
    | returns place => cases hidle.symm.trans place

/-- The reconciliation for a publication of the branch goes on to answer that there is
nothing to do. -/
theorem Passing.reconciles_step (h : o.Passing G w) (hown : o.owns p = true)
    (hplace : w.publish.delivery = .reconciling a p remoteHead) {e : ReconcileEvent Oid}
    (hok : o.inPass w (.reconcile none e) = true) (hanswer : ∀ error, e ≠ .answer error)
    (hs : w.reconcile G none e = some w') : o.Reconciles w' remoteHead := by
  obtain ⟨-, howns⟩ := h.copyAt hplace rfl
  obtain ⟨-, -, hhead, hchecked, project, hproject, hfinds⟩ :=
    h.stageAt hplace rfl (howns.symm.trans hown)
  have hpath : project.localPath = o.path := by
    obtain ⟨known, hknown, hpath, -⟩ := h.rooted.known
    obtain rfl := Option.some.inj (hproject.symm.trans hknown)
    exact hpath
  -- The reconciliation goes on over the same project.
  have hplaced : ∀ r, o.FindsNothing project remoteHead r → o.Reconciles (w.place none r)
      remoteHead := fun r hr => ⟨project, hproject, by
    change o.FindsNothing project remoteHead (Function.update w.reconciling none r none)
    rw [Function.update_self]
    exact hr⟩
  -- HEAD is past the hosted head, so the preparation finds nothing to do.
  have hprepares : ∀ {caller : Caller} {name : String} {staged : LocalProject Oid}
      {branch : Branch} (rebase : Rebase Oid),
      w.reconciling none = .located caller name staged branch →
      ∃ record result expected target,
        prepareProjectReconciliation G (rebase.answers branch
          (w.publish.checkouts staged.localPath).headCommit true) staged =
            some (.complete record result expected o.branch target) ∧
        o.Reconciles (w.place none (.complete caller name record result expected o.branch target))
          remoteHead := by
    intro caller name staged branch rebase heq
    rw [heq] at hfinds
    obtain ⟨hadvertised, rfl, rfl, rfl, rfl⟩ := hfinds
    have hcovered : ∀ target ∈ staged.advertisedHeads o.branch,
        ∃ c ∈ (w.publish.checkouts staged.localPath).headCommit, G.Ancestor target c := by
      intro target htarget
      rw [hadvertised, hhead] at htarget
      obtain ⟨c, hc, hancestor⟩ := h.rooted.hosted target htarget
      refine ⟨c, ?_, hancestor⟩
      rw [hpath, Option.mem_def, LocalRefs.headCommit]
      rw [checkedOut, LocalRefs.headBranch] at hchecked
      split at hchecked
      · rw [Option.some.inj hchecked]
        exact hc
      · cases hchecked
    obtain ⟨record, result, expected, target, hprepare, hcurrent, hexpected, htarget⟩ :=
      prepare_current hcovered rebase
    refine ⟨record, result, expected, target, hprepare, hplaced _ ⟨rfl, rfl, hcurrent, ?_⟩⟩
    rw [DaemonWorld.stillComplete, hexpected, htarget, beq_self_eq_true, beq_self_eq_true]
    rfl
  have hcleared : ∀ cleared rebase, e = .prepare cleared rebase → cleared = true := by
    rintro cleared rebase rfl
    simpa only [inPass, hplace, hown, Bool.not_true, Bool.false_or] using hok
  cases DaemonWorld.reconcileStep_of_reconcile hs with
  | requests own | starts own => exact absurd rfl own
  | isRefreshed place | losesRefresh place | installsUnknown place | isUnwanted place
  | failsInstallation place | installs place =>
    rw [place] at hfinds
    cases hfinds
  | calls _ place delivery =>
    obtain ⟨-, rfl, -⟩ := Delivery.reconciling.inj (hplace.symm.trans delivery)
    rw [place] at hfinds
    exact hplaced _ ⟨hfinds, rfl, (owns_iff.mp hown).1⟩
  | stages place found =>
    rw [place] at hfinds
    obtain ⟨hadvertised, rfl, rfl⟩ := hfinds
    obtain rfl := Option.some.inj (hproject.symm.trans found)
    exact hplaced _ ⟨hadvertised, rfl, rfl, rfl⟩
  | stagesUnknown place unknown =>
    rw [place] at hfinds
    obtain ⟨-, rfl, rfl⟩ := hfinds
    cases hproject.symm.trans unknown
  | locates place head =>
    rw [place] at hfinds
    obtain ⟨hadvertised, rfl, rfl, rfl⟩ := hfinds
    rw [hpath] at head
    obtain rfl := Option.some.inj (hchecked.symm.trans head)
    exact hplaced _ ⟨hadvertised, rfl, rfl, rfl, rfl⟩
  | isDetached place head =>
    rw [place] at hfinds
    obtain ⟨-, rfl, rfl, rfl⟩ := hfinds
    rw [hpath] at head
    cases hchecked.symm.trans head
  | @failsPreparation _ _ _ _ cleared rebase place prepared =>
    obtain rfl := hcleared cleared rebase rfl
    obtain ⟨_, _, _, _, hprepare, -⟩ := hprepares rebase place
    cases hprepare.symm.trans prepared
  | @completes _ _ _ _ _ _ cleared rebase _ _ _ place prepared =>
    obtain rfl := hcleared cleared rebase rfl
    obtain ⟨_, _, _, _, hprepare, hgoes⟩ := hprepares rebase place
    cases hprepare.symm.trans prepared
    exact hgoes
  | @prepares _ _ _ _ _ _ cleared candidate _ _ place prepared =>
    obtain rfl := hcleared cleared (.ready candidate) rfl
    obtain ⟨_, _, _, _, hprepare, -⟩ := hprepares (.ready candidate) place
    cases hprepare.symm.trans prepared
  | mergesUnknown place unknown =>
    rw [place] at hfinds
    obtain ⟨rfl, rfl, -⟩ := hfinds
    cases hproject.symm.trans unknown
  | @merges _ _ record _ _ _ _ _ persisted place found =>
    rw [place] at hfinds
    obtain ⟨rfl, rfl, hcurrent, -⟩ := hfinds
    have hpersisted : persisted = true := by
      simpa only [inPass, hplace, hown, Bool.not_true, Bool.false_or] using hok
    subst hpersisted
    have hcatalog : SameProjects w.publish.catalog (w.publish.setProject o.projectId
        (mergeReconciliationState · record)).catalog :=
      sameProjects_updateProject w.publish.catalog o.projectId fun _ _ => rfl
    obtain ⟨known, hknown, -⟩ := h.rooted.known.step hcatalog
    refine ⟨known, hknown, ?_⟩
    change o.FindsNothing _ _ (Function.update w.reconciling none _ none)
    rw [Function.update_self]
    exact ⟨rfl, congrArg some hcurrent⟩
  | isOutdated place found still =>
    rw [place] at hfinds
    obtain ⟨rfl, rfl, -, hstill⟩ := hfinds
    obtain rfl := Option.some.inj (hproject.symm.trans found)
    exact absurd hstill still
  | retries | ends | notes | delivers | failsDelivery | returns => exact absurd rfl (hanswer _)

/-- What a reconciliation leaves alone, up to its answer. -/
theorem Passing.reconcile_stays (h : o.Passing G w)
    (hplace : w.publish.delivery = .reconciling a p remoteHead) {e : ReconcileEvent Oid}
    (hok : o.inPass w (.reconcile none e) = true) (hs : w.reconcile G none e = some w')
    (hdelivery : w'.publish.delivery = w.publish.delivery) (hanswer : ∀ error, e ≠ .answer error) :
    o.Advances G w w' := by
  have hat : Undecided w.publish a := .of hplace rfl rfl
  have hframe := DaemonWorld.reconcile_keeps hs
  have hview : o.SameView w.publish w'.publish := by
    refine ⟨?_, ?_, hframe.head o.path⟩
    · rw [waiting, hframe.queue.queue, waiting]
    · rw [hostedHead, hframe.hosted, hostedHead]
  obtain ⟨hid, howns⟩ := h.copyAt hplace rfl
  rw [hplace] at hdelivery
  refine h.place hview hframe.queue.queue hat (fun hnot => ?_) (by rw [hdelivery]; rfl) rfl
    (by rw [hdelivery]; rfl) (fun c hc => ?_) fun hown => ?_
  · rw [hdelivery] at hnot
    cases hnot
  · rw [hdelivery] at hc
    obtain rfl := Option.some.inj hc
    exact ⟨rfl, hid, howns⟩
  · obtain ⟨hheld, hfirst, hhead, hchecked, -⟩ := h.stageAt hplace rfl hown
    rw [hdelivery]
    refine ⟨hview.holds.mpr hheld, hfirst, hhead.trans hview.hosted.symm,
      hview.checkedOut.mpr hchecked, ?_⟩
    exact h.reconciles_step (howns.trans hown) hplace hok hanswer hs

/-- The answer of a reconciliation: for the branch, that there is nothing to do. -/
theorem Passing.answer (h : o.Passing G w)
    (hplace : w.publish.delivery = .reconciling a p remoteHead) {error : String}
    (hs : w.reconcile G none (.answer error) = some w') : o.Advances G w w' := by
  have hat : Undecided w.publish a := .of hplace rfl rfl
  obtain ⟨hid, howns⟩ := h.copyAt hplace rfl
  have hstage := h.stageAt hplace rfl
  have hcalled : o.owns a.initial = true → ∀ caller name outcome,
      w.reconciling none = .answered caller name outcome →
        caller = .delivery ∧ outcome = some .current := by
    intro hown caller name outcome heq
    obtain ⟨-, -, -, -, project, -, hfinds⟩ := hstage hown
    rw [heq] at hfinds
    exact hfinds
  -- a caller other than the delivery has nothing to do with the branch
  have hother : o.owns a.initial = false → ∀ v : DaemonWorld Oid Task,
      v.publish.queue = w.publish.queue → v.publish.hosted = w.publish.hosted →
      v.publish.checkouts = w.publish.checkouts → v.publish.delivery = w.publish.delivery →
      o.Advances G w v := by
    intro hnot v hqueue hhosted hcheckouts hdelivery
    rw [hplace] at hdelivery
    have hview : o.SameView w.publish v.publish := by
      refine ⟨?_, ?_, by rw [hcheckouts]⟩
      · rw [waiting, hqueue, waiting]
      · rw [hostedHead, hhosted, hostedHead]
    refine h.place hview hqueue hat (fun hplain => ?_) (by rw [hdelivery]; rfl) rfl
      (by rw [hdelivery]; rfl) (fun c hc => ?_) fun hown => ?_
    · rw [hdelivery] at hplain
      cases hplain
    · rw [hdelivery] at hc
      obtain rfl := Option.some.inj hc
      exact ⟨rfl, hid, howns⟩
    · rw [hnot] at hown
      cases hown
  have hidle : ∀ v : PublishWorld Oid Task,
      ((w.setPublish v).place none .idle).reconciling none = .idle := by
    intro v
    change Function.update w.reconciling none _ none = _
    exact Function.update_self ..
  have hfailing : ∀ (publish : PublishWorld Oid Task) (error : String),
      publish = w.publish.setDelivery (.failing a error) → o.owns a.initial = false →
      o.Advances G w ((w.setPublish publish).place none .idle) := by
    rintro publish error rfl hnot
    refine h.drop ⟨rfl, rfl, rfl⟩ rfl hat rfl (fun _ => hidle _) (Or.inr ⟨a, error, rfl, rfl⟩)
      fun hown => ?_
    rw [hnot] at hown
    cases hown
  have hnotOwn : ∀ {caller : Caller} {name : String} {outcome : Option Outcome},
      w.reconciling none = .answered caller name outcome →
      ¬ (caller = .delivery ∧ outcome = some .current) → o.owns a.initial = false := by
    intro caller name outcome heq hnot
    rw [Bool.eq_false_iff]
    exact fun hown => hnot (hcalled hown _ _ _ heq)
  cases DaemonWorld.reconcileStep_of_reconcile hs with
  | retries place | ends place | notes place | returns place =>
    exact hother (hnotOwn place fun hd => by cases hd.1) _ rfl rfl rfl rfl
  | failsDelivery place step =>
    obtain ⟨b, hb, rfl⟩ := Option.map_eq_some_iff.mp step
    rw [hplace] at hb
    obtain rfl := Option.some.inj hb
    exact hfailing _ _ rfl (hnotOwn place fun hd => by cases hd.2)
  | @delivers name _ outcome publish answered step =>
    have hcurrent : o.owns a.initial = true → outcome = .current := fun hown =>
      Option.some.inj (hcalled hown _ _ _ answered).2
    cases PublishWorld.deliveryStep_of_deliver step with
    | isBlocked place conflict =>
      obtain ⟨rfl, rfl, rfl⟩ := Delivery.reconciling.inj (hplace.symm.trans place)
      refine hfailing _ _ rfl ?_
      rw [Bool.eq_false_iff]
      intro hown
      rw [hcurrent hown] at conflict
      exact absurd conflict (by decide)
    | retries place conflict retry =>
      obtain ⟨rfl, rfl, rfl⟩ := Delivery.reconciling.inj (hplace.symm.trans place)
      refine h.place ⟨rfl, rfl, rfl⟩ rfl hat (fun _ => hidle _) rfl rfl rfl
        (fun c hc => by cases hc) fun hown => ?_
      rw [hcurrent hown] at retry
      exact absurd retry (by decide)
    | reconciles place =>
      obtain ⟨rfl, rfl, rfl⟩ := Delivery.reconciling.inj (hplace.symm.trans place)
      refine h.place ⟨rfl, rfl, rfl⟩ rfl hat (fun _ => hidle _) rfl rfl rfl
        (fun c hc => ?_) fun hown => ?_
      · obtain rfl := Option.some.inj hc
        exact ⟨rfl, hid, howns⟩
      · obtain ⟨hheld, hfirst, hhead, hchecked, -⟩ := hstage hown
        exact ⟨hheld, hfirst, hhead, hchecked⟩

/-- Up to its answer a reconciliation leaves the delivery where it is. -/
theorem reconcile_delivery {e : ReconcileEvent Oid} (hanswer : ∀ error, e ≠ .answer error)
    (hs : w.reconcile G none e = some w') : w'.publish.delivery = w.publish.delivery := by
  cases DaemonWorld.reconcile_publish hs with
  | stays same | merges _ same => exact congrArg (·.delivery) same
  | installs _ moves => exact moves.delivery
  | installsResult _ moves _ same => exact (congrArg (·.delivery) same).trans moves.delivery
  | notes event | answers event => exact absurd event (hanswer _)

omit [DecidableEq Task] in
theorem Passing.deliver (h : o.Passing G w) {e : DeliveryEvent Oid}
    (hok : o.answers w.publish e = true) (hanswer : ∀ outcome, e ≠ .reconcile outcome)
    {u : PublishWorld Oid Task}
    (hother : o.pushes w (.publish (.deliver e)) = false →
      o.hostedHead u = o.hostedHead w.publish)
    (hs : w.publish.deliver G e = some u) : o.Advances G w (w.setPublish u) := by
  cases e with
  | start force now => cases hok
  | next => exact h.deliverNext hs
  | load => exact h.load hs
  | project => exact h.project hok hs
  | fetch => exact h.fetch hs
  | checkBranch => exact h.checkBranch hs
  | reconcile outcome => exact absurd rfl (hanswer outcome)
  | readHead => exact h.readHead hs
  | retarget now => exact h.retarget hs
  | validate => exact h.validate hs
  | push answered =>
    refine h.push hok (fun a p project hplace hnot => hother ?_) hs
    simp only [pushes, hplace]
    exact hnot
  | confirm => exact h.confirm hs
  | acknowledge now answer => exact h.acknowledge hok hs
  | complete now => exact h.complete hs
  | recordCompletion => exact h.recordCompletion hs
  | deleteRef => exact h.deleteRef hs
  | fail error => exact h.fail hok hs
  | recordFailure now => exact h.recordFailure hs
  | noteFailure => exact h.noteFailure hs

/-- Every step of a pass does one thing for the branch, and the pass goes on. -/
theorem Passing.step (h : o.Passing G w) {e : DaemonEvent Oid Task}
    (hok : o.inPass w e = true) (htop : o.OnTop G w e) (hs : w.step G e = some w') :
    o.PassEffect G w.publish w'.publish ∧ o.Passing G w' := by
  have hrooted := h.rooted.step htop hs
  obtain ⟨-, -, hpush⟩ := htop w' hs
  have hadvances : o.Advances G w w' := by
    cases e with
    | reconcile task e =>
      cases task with
      | some task => cases hok
      | none =>
        obtain ⟨a, p, remoteHead, hplace⟩ := h.reconciling_of_step hs
        by_cases hanswer : ∃ error, e = .answer error
        · obtain ⟨error, rfl⟩ := hanswer
          exact h.answer hplace hs
        · have hnot : ∀ error, e ≠ .answer error := fun error heq => hanswer ⟨error, heq⟩
          exact h.reconcile_stays hplace hok hs (reconcile_delivery hnot hs) hnot
    | publish e =>
      cases e with
      | deliver e =>
        by_cases hanswer : ∃ outcome, e = .reconcile outcome
        · obtain ⟨outcome, rfl⟩ := hanswer
          cases hs
        · obtain ⟨u, hu, rfl⟩ : ∃ u, w.publish.deliver G e = some u ∧ w.setPublish u = w' := by
            cases e with
            | reconcile outcome => exact absurd ⟨outcome, rfl⟩ hanswer
            | _ => exact Option.map_eq_some_iff.mp hs
          refine h.deliver hok (fun outcome heq => hanswer ⟨outcome, heq⟩) (fun hnot => ?_) hu
          by_contra hmoved
          rw [hpush hmoved] at hnot
          cases hnot
      | _ => cases hok
  exact ⟨hadvances.1, hadvances.2 hrooted⟩

end Reconciliations

end OwnBranch

end Resync
