import Resync.HostedForward

/-! A completed delivery acknowledges every pending publication of its branch
that is not younger. That is sound as long as age follows history: among the
pending publications of one branch the younger descends from the older. -/
namespace Resync

variable {Oid Task : Type}

/-- The same publication with the same candidate. -/
structure Publication.Twin (p q : Publication Oid) : Prop where
  id : p.publicationId = q.publicationId
  project : p.projectId = q.projectId
  branch : p.branch = q.branch
  age : p.createdAt = q.createdAt
  candidate : p.candidateCommitOid = q.candidateCommitOid

theorem Publication.Twin.refl (p : Publication Oid) : p.Twin p := ⟨rfl, rfl, rfl, rfl, rfl⟩

theorem Publication.Twin.symm {p q : Publication Oid} (h : p.Twin q) : q.Twin p :=
  ⟨h.id.symm, h.project.symm, h.branch.symm, h.age.symm, h.candidate.symm⟩

theorem Publication.Twin.trans {p q r : Publication Oid} (h : p.Twin q) (h' : q.Twin r) :
    p.Twin r :=
  ⟨h.id.trans h'.id, h.project.trans h'.project, h.branch.trans h'.branch, h.age.trans h'.age,
    h.candidate.trans h'.candidate⟩

/-- Among the pending publications of one branch the younger descends from the
older. -/
def Ordered (G : CommitGraph Oid) (queue : List (Publication Oid)) : Prop :=
  ∀ p ∈ queue, ∀ q ∈ queue, p.pending = true → q.pending = true → p.projectId = q.projectId →
    p.branch = q.branch → p.createdAt ≤ q.createdAt →
      G.Ancestor p.candidateCommitOid q.candidateCommitOid

/-- What is pending in the second queue is pending in the first. -/
theorem Ordered.of_twins {G : CommitGraph Oid} {queue queue' : List (Publication Oid)}
    (h : Ordered G queue)
    (hsub : ∀ p ∈ queue', p.pending = true → ∃ q ∈ queue, q.pending = true ∧ p.Twin q) :
    Ordered G queue' := by
  intro p hp q hq hpp hqp hproject hbranch hage
  obtain ⟨p', hp', hpp', hpt⟩ := hsub p hp hpp
  obtain ⟨q', hq', hqp', hqt⟩ := hsub q hq hqp
  rw [hpt.candidate, hqt.candidate]
  refine h p' hp' q' hq' hpp' hqp' ?_ ?_ ?_
  · rw [← hpt.project, ← hqt.project]
    exact hproject
  · rw [← hpt.branch, ← hqt.branch]
    exact hbranch
  · rw [← hpt.age, ← hqt.age]
    exact hage

namespace PublishWorld

/-- A commit has been on the hosted branch of a project. -/
def OnHosted (G : CommitGraph Oid) (w : PublishWorld Oid Task) (p : Publication Oid) : Prop :=
  ∃ project, findProject w.catalog p.projectId = some project ∧
    ∃ h ∈ w.hostedLog project.remoteUrl p.branch, G.Ancestor p.candidateCommitOid h

/-- The ACK names a head of the hosted branch that has the candidate in its
history. -/
def Proves (G : CommitGraph Oid) (w : PublishWorld Oid Task) (p : Publication Oid)
    (ack : PublicationAck Oid) : Prop :=
  G.Ancestor p.candidateCommitOid ack.remoteHead ∧
    ∃ project, findProject w.catalog p.projectId = some project ∧
      ack.remoteHead ∈ w.hostedLog project.remoteUrl p.branch

theorem Proves.onHosted {G : CommitGraph Oid} {w : PublishWorld Oid Task} {p : Publication Oid}
    {ack : PublicationAck Oid} (h : Proves G w p ack) : OnHosted G w p := by
  obtain ⟨hancestor, project, hproject, hlog⟩ := h
  exact ⟨project, hproject, ack.remoteHead, hlog, hancestor⟩

/-- The project that a delivery has cloned is still the one of the publication. -/
def Known (w : PublishWorld Oid Task) (p : Publication Oid) (project : LocalProject Oid) : Prop :=
  ∃ q, findProject w.catalog p.projectId = some q ∧ q.identity = project.identity

/-- The queued publication that a delivery has in hand is pending. -/
def InHand (w : PublishWorld Oid Task) (p : Publication Oid) : Prop :=
  ∃ q ∈ w.queue, q.pending = true ∧ p.Twin q

/-- An attempt that fails has not been completed. -/
def Waiting (w : PublishWorld Oid Task) (a : Attempt Oid) : Prop :=
  ∀ q ∈ w.queue, q.publicationId = a.initial.publicationId → q.pending = true

def Marked (w : PublishWorld Oid Task) (id : String) : Prop :=
  ∃ m ∈ w.acknowledged, m.publicationId = id

/-- What holds where the delivery stands. -/
def Stage (G : CommitGraph Oid) (w : PublishWorld Oid Task) : Delivery Oid → Prop
  | .idle | .pass _ | .failed _ _ => True
  | .reading a | .failing a _ => Waiting w a
  | .loaded a p | .reconciling a p _ | .reconciled a p _ | .headRead a p _ _ =>
    Waiting w a ∧ InHand w p
  | .projected a p project | .behind a p project _ | .validating a p project
  | .validated a p project | .delivered a p project => Waiting w a ∧ InHand w p ∧ Known w p project
  | .confirmed a p project head => Waiting w a ∧ InHand w p ∧ Known w p project ∧
      G.Ancestor p.candidateCommitOid head ∧ head ∈ w.hostedLog project.remoteUrl p.branch
  | .acked a p ack => Waiting w a ∧ InHand w p ∧ Proves G w p ack
  | .completing _ p _ completed _ =>
    (∃ project, findProject w.catalog p.projectId = some project) ∧ ∀ id ∈ completed, Marked w id
  | .deleting _ _ completed => ∀ id ∈ completed, Marked w id

/-- A new publication has an ID of its own, and its ref is written. -/
structure Fresh (w : PublishWorld Oid Task) (p : Publication Oid) : Prop where
  pending : p.pending = true
  issued : p.publicationId ∈ w.issued
  unqueued : ∀ q ∈ w.queue, q.publicationId ≠ p.publicationId
  unmarked : ¬ Marked w p.publicationId
  ref : ∃ path, (w.checkouts path).publications p.publicationId = some p.candidateCommitOid

/-- The publications of the queue and those that were in it. -/
structure Accounted (G : CommitGraph Oid) (w : PublishWorld Oid Task) : Prop where
  log : ∀ url b h, w.hosted url b = some h → h ∈ w.hostedLog url b
  ids : (w.queue.map (·.publicationId)).Nodup
  issued : ∀ q ∈ w.queue, q.publicationId ∈ w.issued
  created : ∀ task name p next, w.calls task = .created name p next → Fresh w p
  apart : ∀ task task' name name' p p' next next', w.calls task = .created name p next →
    w.calls task' = .created name' p' next' → p.publicationId = p'.publicationId → task = task'
  ordered : Ordered G w.queue
  stage : Stage G w w.delivery
  acknowledged : ∀ m ∈ w.acknowledged, ∃ ack, m.ack = some ack ∧ Proves G w m ack
  closed : ∀ q ∈ w.queue, q.pending = false → q ∈ w.acknowledged
  spent : ∀ m ∈ w.acknowledged, m.publicationId ∈ w.issued
  unmarked : ∀ q ∈ w.queue, q.pending = true → ¬ Marked w q.publicationId
  recorded : ∀ p ∈ w.recorded, (∃ q ∈ w.queue, q.pending = true ∧ p.Twin q) ∨
    ∃ m ∈ w.acknowledged, p.Twin m
  drawn : ∀ p ∈ w.recorded, p.publicationId ∈ w.issued
  refs : ∀ p ∈ w.recorded,
    (∃ path, (w.checkouts path).publications p.publicationId = some p.candidateCommitOid) ∨
      Marked w p.publicationId

/-- The condition on the steps that queue a publication: it descends from the
pending ones of its branch that are not younger, and the others descend from it. -/
def RecordsInOrder (G : CommitGraph Oid) (w : PublishWorld Oid Task) :
    PublishEvent Oid Task → Prop
  | .call task .push =>
    match w.calls task with
    | .created _ p _ => ∀ q ∈ w.queue, q.pending = true → q.projectId = p.projectId →
        q.branch = p.branch →
          (q.createdAt ≤ p.createdAt → G.Ancestor q.candidateCommitOid p.candidateCommitOid) ∧
          (p.createdAt ≤ q.createdAt → G.Ancestor p.candidateCommitOid q.candidateCommitOid)
    | _ => True
  | _ => True

/-- No reconciliation rewrites a candidate. -/
def KeepsCandidates (w : PublishWorld Oid Task) : PublishEvent Oid Task → Prop
  | .deliver (.retarget _) =>
    match w.delivery with
    | .headRead _ p _ head => head = p.candidateCommitOid
    | _ => True
  | _ => True

/-- The provider acknowledges what is reachable from a head that the hosted
branch has had. -/
def HonestProvider [DecidableEq Oid] (G : CommitGraph Oid) (w : PublishWorld Oid Task) :
    PublishEvent Oid Task → Prop
  | .deliver (.acknowledge now (.acknowledged ack)) =>
    match w.delivery with
    | .confirmed _ p project _ => { p with lastAttemptAt := some now }.accepts ack = true →
        G.Ancestor ack.acceptedOid ack.remoteHead ∧
          ack.remoteHead ∈ w.hostedLog project.remoteUrl p.branch
    | _ => True
  | _ => True

/-- The second state has seen at least what the first has. -/
structure Later (w w' : PublishWorld Oid Task) : Prop where
  catalog : SameProjects w.catalog w'.catalog
  hostedLog : ∀ url b, ∀ h ∈ w.hostedLog url b, h ∈ w'.hostedLog url b
  acknowledged : ∀ m ∈ w.acknowledged, m ∈ w'.acknowledged

variable {G : CommitGraph Oid} {w w' : PublishWorld Oid Task}

theorem Start.accounted (h : Start w) : Accounted G w where
  log := h.hostedLog
  ids := by
    rw [h.queue]
    exact List.nodup_nil
  issued q hq := by
    rw [h.queue] at hq
    cases hq
  created task name p next hc := by
    rw [h.calls task] at hc
    cases hc
  apart task task' name name' p p' next next' hc := by
    rw [h.calls task] at hc
    cases hc
  ordered p hp := by
    rw [h.queue] at hp
    cases hp
  stage := by
    rw [h.delivery]
    trivial
  acknowledged m hm := by
    rw [h.acknowledged] at hm
    cases hm
  closed q hq := by
    rw [h.queue] at hq
    cases hq
  spent m hm := by
    rw [h.acknowledged] at hm
    cases hm
  unmarked q hq := by
    rw [h.queue] at hq
    cases hq
  recorded p hp := by
    rw [h.recorded] at hp
    cases hp
  drawn p hp := by
    rw [h.recorded] at hp
    cases hp
  refs p hp := by
    rw [h.recorded] at hp
    cases hp

namespace Later

theorem proves (h : Later w w') {p : Publication Oid} {ack : PublicationAck Oid}
    (hp : Proves G w p ack) : Proves G w' p ack := by
  obtain ⟨hancestor, project, hproject, hlog⟩ := hp
  obtain ⟨q, hq, hid⟩ := h.catalog.find hproject
  refine ⟨hancestor, q, hq, ?_⟩
  rw [identity_remoteUrl hid]
  exact h.hostedLog _ _ _ hlog

theorem known (h : Later w w') {p : Publication Oid} {project : LocalProject Oid}
    (hp : Known w p project) : Known w' p project := by
  obtain ⟨q, hq, hid⟩ := hp
  obtain ⟨r, hr, hrid⟩ := h.catalog.find hq
  exact ⟨r, hr, hrid.trans hid⟩

theorem marked (h : Later w w') {id : String} (hid : Marked w id) : Marked w' id := by
  obtain ⟨m, hm, hmid⟩ := hid
  exact ⟨m, h.acknowledged m hm, hmid⟩

/-- Where the delivery stands nothing is lost when the queue only grows. -/
theorem stage (h : Later w w') (hwaiting : ∀ a, Waiting w a → Waiting w' a)
    (hinHand : ∀ p, InHand w p → InHand w' p) {d : Delivery Oid} (hd : Stage G w d) :
    Stage G w' d := by
  cases d with
  | idle => trivial
  | pass ids => trivial
  | failed a error => trivial
  | reading a => exact hwaiting a hd
  | failing a error => exact hwaiting a hd
  | loaded a p => exact ⟨hwaiting a hd.1, hinHand p hd.2⟩
  | reconciling a p head => exact ⟨hwaiting a hd.1, hinHand p hd.2⟩
  | reconciled a p head => exact ⟨hwaiting a hd.1, hinHand p hd.2⟩
  | headRead a p remote head => exact ⟨hwaiting a hd.1, hinHand p hd.2⟩
  | projected a p project => exact ⟨hwaiting a hd.1, hinHand p hd.2.1, h.known hd.2.2⟩
  | behind a p project head => exact ⟨hwaiting a hd.1, hinHand p hd.2.1, h.known hd.2.2⟩
  | validating a p project => exact ⟨hwaiting a hd.1, hinHand p hd.2.1, h.known hd.2.2⟩
  | validated a p project => exact ⟨hwaiting a hd.1, hinHand p hd.2.1, h.known hd.2.2⟩
  | delivered a p project => exact ⟨hwaiting a hd.1, hinHand p hd.2.1, h.known hd.2.2⟩
  | confirmed a p project head =>
    obtain ⟨hw, hp, hknown, hancestor, hlog⟩ := hd
    exact ⟨hwaiting a hw, hinHand p hp, h.known hknown, hancestor, h.hostedLog _ _ _ hlog⟩
  | acked a p ack => exact ⟨hwaiting a hd.1, hinHand p hd.2.1, h.proves hd.2.2⟩
  | completing a p ack completed hasPending =>
    obtain ⟨⟨project, hproject⟩, hmarked⟩ := hd
    obtain ⟨q, hq, -⟩ := h.catalog.find hproject
    exact ⟨⟨q, hq⟩, fun id hid => h.marked (hmarked id hid)⟩
  | deleting a path completed => exact fun id hid => h.marked (hd id hid)

end Later

theorem waiting_of_queue (h : w'.queue = w.queue) {a : Attempt Oid} (ha : Waiting w a) :
    Waiting w' a := by
  intro q hq
  exact ha q (h ▸ hq)

theorem inHand_of_queue (h : w'.queue = w.queue) {p : Publication Oid} (hp : InHand w p) :
    InHand w' p := by
  obtain ⟨q, hq, hqp⟩ := hp
  exact ⟨q, h ▸ hq, hqp⟩

theorem later_setDelivery (w : PublishWorld Oid Task) (d : Delivery Oid) :
    Later w (w.setDelivery d) :=
  ⟨SameProjects.refl _, fun _ _ _ h => h, fun _ h => h⟩

/-- The hosted log has seen every head that a branch moves to. -/
theorem later_of_moves {allowed : String → Branch → Oid → Prop} (h : HostedMoves allowed w w')
    (hcatalog : SameProjects w.catalog w'.catalog) (hacknowledged : w'.acknowledged = w.acknowledged)
    (hlog : ∀ url b x, w.hosted url b = some x → x ∈ w.hostedLog url b) :
    Later w w' ∧ ∀ url b x, w'.hosted url b = some x → x ∈ w'.hostedLog url b := by
  have hmarked : ∀ m ∈ w.acknowledged, m ∈ w'.acknowledged := fun m hm => hacknowledged ▸ hm
  rcases h with ⟨hhosted, hsame⟩ | ⟨url', b', c, -, hhosted, hmoved⟩
  · refine ⟨⟨hcatalog, fun url b x hx => hsame ▸ hx, hmarked⟩, fun url b x hx => ?_⟩
    rw [hhosted] at hx
    rw [hsame]
    exact hlog url b x hx
  · rw [setHosted] at hhosted hmoved
    dsimp only at hhosted hmoved
    refine ⟨⟨hcatalog, fun url b x hx => ?_, hmarked⟩, fun url b x hx => ?_⟩
    · rw [hmoved]
      by_cases hurl : url = url'
      · subst hurl
        rw [Function.update_self]
        by_cases hb : b = b'
        · subst hb
          rw [Function.update_self]
          exact List.mem_cons_of_mem c hx
        · rwa [Function.update_of_ne hb]
      · rwa [Function.update_of_ne hurl]
    · rw [hhosted] at hx
      rw [hmoved]
      by_cases hurl : url = url'
      · subst hurl
        rw [Function.update_self] at hx ⊢
        by_cases hb : b = b'
        · subst hb
          rw [Function.update_self] at hx ⊢
          rw [← Option.some.inj hx]
          exact List.mem_cons_self
        · rw [Function.update_of_ne hb] at hx ⊢
          exact hlog url b x hx
      · rw [Function.update_of_ne hurl] at hx ⊢
        exact hlog url b x hx

theorem CallFrame.later [DecidableEq Task] {task : Task} (h : CallFrame task w w') :
    Later w w' := by
  refine ⟨h.catalog, fun url b x hx => ?_, fun m hm => ?_⟩
  · rw [h.hostedLog]
    exact hx
  · rw [h.acknowledged]
    exact hm

namespace Accounted

/-- In the queue an ID names one publication. -/
theorem unique (h : Accounted G w) {p q : Publication Oid} (hp : p ∈ w.queue) (hq : q ∈ w.queue)
    (hid : p.publicationId = q.publicationId) : p = q :=
  List.inj_on_of_nodup_map h.ids hp hq hid

/-- A step that leaves the queue and the publication refs alone. -/
theorem keep (h : Accounted G w) (hlater : Later w w') (hqueue : SameQueue w w')
    (hlog : ∀ url b x, w'.hosted url b = some x → x ∈ w'.hostedLog url b)
    (hcalls : ∀ task name p next, w'.calls task = .created name p next →
      w.calls task = .created name p next)
    (hrefs : ∀ path, (w'.checkouts path).publications = (w.checkouts path).publications)
    (hstage : Stage G w' w'.delivery) : Accounted G w' where
  log := hlog
  ids := by
    rw [hqueue.queue]
    exact h.ids
  issued q hq := by
    rw [hqueue.queue] at hq
    rw [hqueue.issued]
    exact h.issued q hq
  created task name p next hc := by
    have hfresh := h.created task name p next (hcalls task name p next hc)
    obtain ⟨path, hpath⟩ := hfresh.ref
    refine ⟨hfresh.pending, ?_, fun q hq => ?_, fun hmarked => ?_, path, ?_⟩
    · rw [hqueue.issued]
      exact hfresh.issued
    · rw [hqueue.queue] at hq
      exact hfresh.unqueued q hq
    · rw [Marked, hqueue.acknowledged] at hmarked
      exact hfresh.unmarked hmarked
    · rw [hrefs path]
      exact hpath
  apart task task' name name' p p' next next' hc hc' :=
    h.apart task task' name name' p p' next next' (hcalls _ _ _ _ hc) (hcalls _ _ _ _ hc')
  ordered := by
    rw [hqueue.queue]
    exact h.ordered
  stage := hstage
  acknowledged m hm := by
    rw [hqueue.acknowledged] at hm
    obtain ⟨ack, hack, hproves⟩ := h.acknowledged m hm
    exact ⟨ack, hack, hlater.proves hproves⟩
  closed q hq := by
    rw [hqueue.queue] at hq
    rw [hqueue.acknowledged]
    exact h.closed q hq
  spent m hm := by
    rw [hqueue.acknowledged] at hm
    rw [hqueue.issued]
    exact h.spent m hm
  unmarked q hq := by
    rw [hqueue.queue] at hq
    rw [Marked, hqueue.acknowledged]
    exact h.unmarked q hq
  recorded p hp := by
    rw [hqueue.recorded] at hp
    rw [hqueue.queue, hqueue.acknowledged]
    exact h.recorded p hp
  drawn p hp := by
    rw [hqueue.recorded] at hp
    rw [hqueue.issued]
    exact h.drawn p hp
  refs p hp := by
    rw [hqueue.recorded] at hp
    rcases h.refs p hp with ⟨path, hpath⟩ | hmarked
    · refine Or.inl ⟨path, ?_⟩
      rw [hrefs path]
      exact hpath
    · exact Or.inr (hlater.marked hmarked)

/-- The delivery goes to another place. -/
theorem place (h : Accounted G w) {d : Delivery Oid} (hd : Stage G w d) :
    Accounted G (w.setDelivery d) :=
  h.keep (later_setDelivery w d) ⟨rfl, rfl, rfl, rfl⟩ h.log (fun _ _ _ _ hc => hc) (fun _ => rfl)
    ((later_setDelivery w d).stage (fun _ ha => ha) (fun _ hp => hp) hd)

/-- The delivery writes a record of the same project and goes to another place. -/
theorem placeProject (h : Accounted G w) {d : Delivery Oid} (hd : Stage G w d) {name : String}
    {f : LocalProject Oid → LocalProject Oid}
    (hf : ∀ p, findProject w.catalog name = some p → (f p).identity = p.identity) :
    Accounted G ((w.setProject name f).setDelivery d) := by
  have hlater : Later w ((w.setProject name f).setDelivery d) :=
    ⟨sameProjects_updateProject w.catalog name hf, fun _ _ _ h => h, fun _ h => h⟩
  exact h.keep hlater ⟨rfl, rfl, rfl, rfl⟩ h.log (fun _ _ _ _ hc => hc) (fun _ => rfl)
    (hlater.stage (fun _ ha => ha) (fun _ hp => hp) hd)

theorem user [DecidableEq Task] [DecidableEq Oid] (h : Accounted G w) {e : UserEvent Oid Task}
    (hs : w.user G e = some w') : Accounted G w' := by
  obtain ⟨hframe, hmoves⟩ := user_frame hs
  have hcatalog : SameProjects w.catalog w'.catalog := by
    rw [hframe.catalog]
    exact SameProjects.refl _
  obtain ⟨hlater, hlog⟩ := later_of_moves hmoves hcatalog hframe.queue.acknowledged h.log
  refine h.keep hlater hframe.queue hlog (fun task name p next hc => ?_) hframe.publications ?_
  · rcases hframe.calls task with hsame | ⟨_, _, _, _, hhook⟩
    · exact hsame.symm.trans hc
    · rw [hhook] at hc
      cases hc
  · rw [hframe.delivery]
    exact hlater.stage (fun _ => waiting_of_queue hframe.queue.queue)
      (fun _ => inHand_of_queue hframe.queue.queue) h.stage

section Calls

variable [DecidableEq Task] [DecidableEq Oid] {task : Task} {e : CallEvent Oid}

/-- A new publication with the ref that was written for it. -/
theorem creates (h : Accounted G w) (hframe : CallFrame task w w') {name : String}
    {project : LocalProject Oid} {b : Branch} {c : Oid} {next : Next} {p : Publication Oid}
    (hc : CallCreates task e w w' name project b c next p) : Accounted G w' := by
  obtain ⟨id, now, -, hfresh, hissued, hp⟩ := hc.publication
  have hid : p.publicationId = id := by rw [hp, Publication.new]
  have hcandidate : p.candidateCommitOid = c := by rw [hp, Publication.new]
  have hsub : ∀ i ∈ w.issued, i ∈ w'.issued := by
    intro i hi
    rw [hissued]
    exact List.mem_cons_of_mem id hi
  -- a ref that was written for an ID drawn before stays as it is
  have hrefs : ∀ path i, i ∈ w.issued →
      (w'.checkouts path).publications i = (w.checkouts path).publications i := by
    intro path i hi
    have hne : i ≠ p.publicationId := by
      rintro rfl
      exact hfresh (hid ▸ hi)
    rw [hc.checkouts]
    by_cases hpath : path = project.localPath
    · subst hpath
      rw [Function.update_self, LocalRefs.setPublication]
      exact Function.update_of_ne hne ..
    · rw [Function.update_of_ne hpath]
  have hlater := hframe.later
  have hown : ∀ name' q next', w'.calls task = .created name' q next' → q = p := by
    intro name' q next' hq
    exact (Call.created.inj (hc.created.symm.trans hq)).2.1.symm
  have hothers : ∀ t name' q next', t ≠ task → w'.calls t = .created name' q next' →
      w.calls t = .created name' q next' := fun t name' q next' ht hq =>
    (hframe.calls t ht).symm.trans hq
  constructor
  case log =>
    rw [hframe.hosted, hframe.hostedLog]
    exact h.log
  case ids =>
    rw [hc.queue]
    exact h.ids
  case issued =>
    rw [hc.queue]
    exact fun q hq => hsub _ (h.issued q hq)
  case created =>
    intro t name' q next' hq
    by_cases ht : t = task
    · subst ht
      obtain rfl := hown name' q next' hq
      refine ⟨by rw [hp, Publication.pending_new], ?_, fun r hr => ?_, ?_, project.localPath, ?_⟩
      · rw [hissued, hid]
        exact List.mem_cons_self
      · rw [hc.queue] at hr
        intro hsame
        exact hfresh (hid ▸ hsame ▸ h.issued r hr)
      · rw [Marked, hframe.acknowledged]
        rintro ⟨m, hm, hsame⟩
        exact hfresh (hid ▸ hsame ▸ h.spent m hm)
      · rw [hc.checkouts, Function.update_self, LocalRefs.setPublication, hcandidate]
        exact Function.update_self ..
    · have hold := h.created t name' q next' (hothers t name' q next' ht hq)
      obtain ⟨path, hpath⟩ := hold.ref
      refine ⟨hold.pending, hsub _ hold.issued, ?_, ?_, path, ?_⟩
      · rw [hc.queue]
        exact hold.unqueued
      · rw [Marked, hframe.acknowledged]
        exact hold.unmarked
      · rw [hrefs path _ hold.issued]
        exact hpath
  case apart =>
    have hnew : ∀ t name' q next', t ≠ task → w'.calls t = .created name' q next' →
        q.publicationId ≠ p.publicationId := by
      intro t name' q next' ht hq hsame
      have hold := h.created t name' q next' (hothers t name' q next' ht hq)
      exact hfresh (hid ▸ hsame ▸ hold.issued)
    intro t t' n n' q q' m m' hq hq' hsame
    by_cases ht : t = task
    · by_cases ht' : t' = task
      · exact ht.trans ht'.symm
      · subst ht
        obtain rfl := hown n q m hq
        exact absurd hsame.symm (hnew t' n' q' m' ht' hq')
    · by_cases ht' : t' = task
      · subst ht'
        obtain rfl := hown n' q' m' hq'
        exact absurd hsame (hnew t n q m ht hq)
      · exact h.apart t t' n n' q q' m m' (hothers t n q m ht hq) (hothers t' n' q' m' ht' hq') hsame
  case ordered =>
    rw [hc.queue]
    exact h.ordered
  case stage =>
    rw [hframe.delivery]
    exact hlater.stage (fun _ => waiting_of_queue hc.queue) (fun _ => inHand_of_queue hc.queue)
      h.stage
  case acknowledged =>
    intro m hm
    rw [hframe.acknowledged] at hm
    obtain ⟨ack, hack, hproves⟩ := h.acknowledged m hm
    exact ⟨ack, hack, hlater.proves hproves⟩
  case closed =>
    rw [hc.queue, hframe.acknowledged]
    exact h.closed
  case spent =>
    rw [hframe.acknowledged]
    exact fun m hm => hsub _ (h.spent m hm)
  case unmarked =>
    intro q hq
    rw [hc.queue] at hq
    rw [Marked, hframe.acknowledged]
    exact h.unmarked q hq
  case recorded =>
    rw [hc.recorded, hc.queue, hframe.acknowledged]
    exact h.recorded
  case drawn =>
    rw [hc.recorded]
    exact fun q hq => hsub _ (h.drawn q hq)
  case refs =>
    intro q hq
    rw [hc.recorded] at hq
    rcases h.refs q hq with ⟨path, hpath⟩ | hmarked
    · refine Or.inl ⟨path, ?_⟩
      rw [hrefs path _ (h.drawn q hq)]
      exact hpath
    · exact Or.inr (hlater.marked hmarked)

omit [DecidableEq Oid] in
/-- A publication that is queued in order. -/
theorem pushes (h : Accounted G w) (hframe : CallFrame task w w') {p : Publication Oid}
    (hc : CallPushes task e w w' p)
    (horder : ∀ q ∈ w.queue, q.pending = true → q.projectId = p.projectId → q.branch = p.branch →
      (q.createdAt ≤ p.createdAt → G.Ancestor q.candidateCommitOid p.candidateCommitOid) ∧
      (p.createdAt ≤ q.createdAt → G.Ancestor p.candidateCommitOid q.candidateCommitOid)) :
    Accounted G w' := by
  obtain ⟨name, next, hcreated, hqueued⟩ := hc.created
  have hfresh := h.created task name p next hcreated
  -- The queue grows by `p` at its end, and no other call changes.
  have hmem : ∀ q ∈ w'.queue, q ∈ w.queue ∨ q = p := by
    intro q hq
    rw [hc.queue] at hq
    exact (List.mem_append.mp hq).imp_right List.mem_singleton.mp
  have hsub : ∀ q ∈ w.queue, q ∈ w'.queue := by
    intro q hq
    rw [hc.queue]
    exact List.mem_append_left [p] hq
  have hlast : p ∈ w'.queue := by
    rw [hc.queue]
    exact List.mem_append_right w.queue (List.mem_singleton_self p)
  have hlater := hframe.later
  have hothers : ∀ t name' q next', w'.calls t = .created name' q next' →
      t ≠ task ∧ w.calls t = .created name' q next' := by
    intro t name' q next' hq
    by_cases ht : t = task
    · subst ht
      rw [hqueued] at hq
      cases hq
    · exact ⟨ht, (hframe.calls t ht).symm.trans hq⟩
  constructor
  case log =>
    rw [hframe.hosted, hframe.hostedLog]
    exact h.log
  case ids =>
    rw [hc.queue, List.map_append, List.map_singleton, List.nodup_append]
    refine ⟨h.ids, List.nodup_singleton _, fun i hi j hj => ?_⟩
    obtain ⟨q, hq, rfl⟩ := List.mem_map.mp hi
    rw [List.mem_singleton.mp hj]
    exact hfresh.unqueued q hq
  case issued =>
    intro q hq
    rw [hc.issued]
    rcases hmem q hq with hq | rfl
    · exact h.issued q hq
    · exact hfresh.issued
  case created =>
    intro t name' q next' hq
    obtain ⟨ht, hold⟩ := hothers t name' q next' hq
    have hqfresh := h.created t name' q next' hold
    refine ⟨hqfresh.pending, ?_, fun r hr => ?_, ?_, ?_⟩
    · rw [hc.issued]
      exact hqfresh.issued
    · rcases hmem r hr with hr | rfl
      · exact hqfresh.unqueued r hr
      · exact fun hsame => ht (h.apart task t _ _ _ _ _ _ hcreated hold hsame).symm
    · rw [Marked, hframe.acknowledged]
      exact hqfresh.unmarked
    · rw [hc.checkouts]
      exact hqfresh.ref
  case apart =>
    intro t t' n n' q q' m m' hq hq' hsame
    exact h.apart t t' n n' q q' m m' (hothers t n q m hq).2 (hothers t' n' q' m' hq').2 hsame
  -- Against what was queued before, `p` is ordered by `horder`, once from each side.
  case ordered =>
    intro q hq r hr hqp hrp hproject hbranch hage
    rcases hmem q hq with hq | rfl
    · rcases hmem r hr with hr | rfl
      · exact h.ordered q hq r hr hqp hrp hproject hbranch hage
      · exact (horder q hq hqp hproject hbranch).1 hage
    · rcases hmem r hr with hr | rfl
      · exact (horder r hr hrp hproject.symm hbranch.symm).2 hage
      · exact CommitGraph.Ancestor.refl _
  case stage =>
    -- A delivery that waits for the id of `p` still waits, since `p` is pending.
    rw [hframe.delivery]
    refine hlater.stage (fun a ha q hq hid => ?_) (fun q hq => ?_) h.stage
    · rcases hmem q hq with hq | rfl
      · exact ha q hq hid
      · exact hfresh.pending
    · obtain ⟨r, hr, hrq⟩ := hq
      exact ⟨r, hsub r hr, hrq⟩
  case acknowledged =>
    intro m hm
    rw [hframe.acknowledged] at hm
    obtain ⟨ack, hack, hproves⟩ := h.acknowledged m hm
    exact ⟨ack, hack, hlater.proves hproves⟩
  case closed =>
    intro q hq hdone
    rw [hframe.acknowledged]
    rcases hmem q hq with hq | rfl
    · exact h.closed q hq hdone
    · rw [hfresh.pending] at hdone
      cases hdone
  case spent =>
    rw [hframe.acknowledged, hc.issued]
    exact h.spent
  case unmarked =>
    intro q hq hpending
    rw [Marked, hframe.acknowledged]
    rcases hmem q hq with hq | rfl
    · exact h.unmarked q hq hpending
    · exact hfresh.unmarked
  case recorded =>
    intro q hq
    rw [hc.recorded] at hq
    rw [hframe.acknowledged]
    -- What was recorded before is accounted for as before; `p` itself is now in the
    -- queue.
    rcases List.mem_append.mp hq with hq | hq
    · rcases h.recorded q hq with ⟨r, hr, hrq⟩ | hmarked
      · exact Or.inl ⟨r, hsub r hr, hrq⟩
      · exact Or.inr hmarked
    · rw [List.mem_singleton.mp hq]
      exact Or.inl ⟨p, hlast, hfresh.pending, Publication.Twin.refl p⟩
  case drawn =>
    intro q hq
    rw [hc.recorded] at hq
    rw [hc.issued]
    rcases List.mem_append.mp hq with hq | hq
    · exact h.drawn q hq
    · rw [List.mem_singleton.mp hq]
      exact hfresh.issued
  case refs =>
    intro q hq
    rw [hc.recorded] at hq
    rw [hc.checkouts]
    rcases List.mem_append.mp hq with hq | hq
    · exact (h.refs q hq).imp_right hlater.marked
    · rw [List.mem_singleton.mp hq]
      exact Or.inl hfresh.ref

theorem call (h : Accounted G w) (hok : RecordsInOrder G w (.call task e))
    (hs : w.call G task e = some w') : Accounted G w' := by
  obtain ⟨hframe, hcases⟩ := call_cases hs
  rcases hcases with hquiet | ⟨name, project, b, c, next, p, hcreates⟩ | ⟨p, hpushes⟩
  · have hlater := hframe.later
    refine h.keep hlater hquiet.queue ?_ (fun t name p next hc => ?_) (fun path => ?_) ?_
    · rw [hframe.hosted, hframe.hostedLog]
      exact h.log
    · by_cases ht : t = task
      · subst ht
        have hnot := hquiet.notCreated
        rw [hc] at hnot
        exact absurd trivial hnot
      · exact (hframe.calls t ht).symm.trans hc
    · rw [hquiet.checkouts]
    · rw [hframe.delivery]
      exact hlater.stage (fun _ => waiting_of_queue hquiet.queue.queue)
        (fun _ => inHand_of_queue hquiet.queue.queue) h.stage
  · exact h.creates hframe hcreates
  · obtain ⟨name, next, hcreated, -⟩ := hpushes.created
    obtain rfl := hpushes.event
    simp only [RecordsInOrder, hcreated] at hok
    exact h.pushes hframe hpushes hok

end Calls

end Accounted

end PublishWorld

end Resync
