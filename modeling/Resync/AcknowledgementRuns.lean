import Resync.Acknowledgement

/-! The delivery keeps account of the queue, and so do whole runs: what has left
the queue has been on the hosted branch. -/
namespace Resync

variable {Oid Task : Type}

namespace PublishWorld

variable {G : CommitGraph Oid} {w w' : PublishWorld Oid Task}

/-- What a failure leaves behind has not been completed. -/
theorem stage_fallible {d : Delivery Oid} {a : Attempt Oid} (hd : Stage G w d)
    (ha : d.fallible = some a) : Waiting w a := by
  cases d with
  | projected | behind | reconciling | reconciled | headRead | validating | validated
  | delivered | confirmed =>
    obtain rfl := Option.some.inj ha
    exact hd.1
  | _ => cases ha

/-- The time of the attempt does not matter. -/
theorem InHand.attempted {p : Publication Oid} (h : InHand w p) (now : ℕ) :
    InHand w { p with lastAttemptAt := some now } := by
  obtain ⟨q, hq, hpending, htwin⟩ := h
  exact ⟨q, hq, hpending, htwin.id, htwin.project, htwin.branch, htwin.age, htwin.candidate⟩

namespace Accounted

/-- The delivery rewrites the queue: every pending publication stays pending or
is marked with an ACK that proves it. -/
theorem rewrite (h : Accounted G w) (marked : List (Publication Oid))
    {queue : List (Publication Oid)} {d : Delivery Oid}
    (hids : (queue.map (·.publicationId)).Sublist (w.queue.map (·.publicationId)))
    (hback : ∀ q ∈ queue, q.pending = true → ∃ r ∈ w.queue, r.pending = true ∧ q.Twin r)
    (hstay : ∀ r ∈ w.queue, r.pending = true →
      (∃ q ∈ queue, q.pending = true ∧ r.Twin q) ∨ ∃ m ∈ marked, r.Twin m)
    (hmarked : ∀ m ∈ marked, m.publicationId ∈ w.queue.map (·.publicationId) ∧
      ∃ ack, m.ack = some ack ∧ Proves G w m ack)
    (hleft : ∀ q ∈ queue, q.pending = true → ∀ m ∈ marked, m.publicationId ≠ q.publicationId)
    (hclosed : ∀ q ∈ queue, q.pending = false → q ∈ w.queue ∨ q ∈ marked)
    (hstage : Stage G { w.setDelivery d with
      queue := queue, acknowledged := w.acknowledged ++ marked } d) :
    Accounted G { w.setDelivery d with
      queue := queue, acknowledged := w.acknowledged ++ marked } := by
  have hqueue : ∀ q ∈ queue, ∃ r ∈ w.queue, r.publicationId = q.publicationId := by
    intro q hq
    obtain ⟨r, hr, hid⟩ := List.mem_map.mp (hids.subset (List.mem_map_of_mem hq))
    exact ⟨r, hr, hid⟩
  have hlater : Later w { w.setDelivery d with
      queue := queue, acknowledged := w.acknowledged ++ marked } :=
    ⟨SameProjects.refl _, fun _ _ _ h => h, fun m hm => List.mem_append_left marked hm⟩
  refine ⟨h.log, h.ids.sublist hids, ?_, ?_, h.apart, h.ordered.of_twins hback, hstage, ?_, ?_, ?_,
    ?_, ?_, h.drawn, ?_⟩
  · intro q hq
    obtain ⟨r, hr, hid⟩ := hqueue q hq
    exact hid ▸ h.issued r hr
  · intro task name p next hc
    have hfresh := h.created task name p next hc
    refine ⟨hfresh.pending, hfresh.issued, fun q hq hid => ?_, ?_, hfresh.ref⟩
    · obtain ⟨r, hr, hrid⟩ := hqueue q hq
      exact hfresh.unqueued r hr (hrid.trans hid)
    -- A publication that is not queued yet has an id that no marked publication has.
    · rintro ⟨m, hm, hid⟩
      rcases List.mem_append.mp hm with hm | hm
      · exact hfresh.unmarked ⟨m, hm, hid⟩
      · obtain ⟨r, hr, hrid⟩ := List.mem_map.mp (hmarked m hm).1
        exact hfresh.unqueued r hr (hrid.trans hid)
  · intro m hm
    rcases List.mem_append.mp hm with hm | hm
    · obtain ⟨ack, hack, hproves⟩ := h.acknowledged m hm
      exact ⟨ack, hack, hlater.proves hproves⟩
    · obtain ⟨ack, hack, hproves⟩ := (hmarked m hm).2
      exact ⟨ack, hack, hlater.proves hproves⟩
  · intro q hq hdone
    rcases hclosed q hq hdone with hq | hq
    · exact List.mem_append_left marked (h.closed q hq hdone)
    · exact List.mem_append_right w.acknowledged hq
  · intro m hm
    rcases List.mem_append.mp hm with hm | hm
    · exact h.spent m hm
    · obtain ⟨r, hr, hrid⟩ := List.mem_map.mp (hmarked m hm).1
      exact hrid ▸ h.issued r hr
  · rintro q hq hpending ⟨m, hm, hid⟩
    rcases List.mem_append.mp hm with hm | hm
    · obtain ⟨r, hr, hrp, htwin⟩ := hback q hq hpending
      exact h.unmarked r hr hrp ⟨m, hm, hid.trans htwin.id⟩
    · exact hleft q hq hpending m hm hid
  · intro p hp
    -- A recorded publication was in the queue, where it stays or is marked, or it was
    -- marked before.
    rcases h.recorded p hp with ⟨r, hr, hpending, htwin⟩ | ⟨m, hm, htwin⟩
    · rcases hstay r hr hpending with ⟨q, hq, hqp, hrq⟩ | ⟨m, hm, hrm⟩
      · exact Or.inl ⟨q, hq, hqp, htwin.trans hrq⟩
      · exact Or.inr ⟨m, List.mem_append_right w.acknowledged hm, htwin.trans hrm⟩
    · exact Or.inr ⟨m, List.mem_append_left marked hm, htwin⟩
  · intro p hp
    exact (h.refs p hp).imp_right hlater.marked

/-- The delivery rewrites one publication of the queue, which is pending before
and after. -/
theorem modify (h : Accounted G w) {f : Publication Oid → Publication Oid} {id : String}
    {a : Attempt Oid} {d : Delivery Oid}
    (hf : ∀ x, PublicationQueue.find w.queue id = some x →
      x.pending = true ∧ (f x).pending = true ∧ x.Twin (f x))
    (hd : ∀ u : PublishWorld Oid Task, Waiting u a → Stage G u d) (ha : Waiting w a) :
    Accounted G { w.setDelivery d with queue := PublicationQueue.modify f id w.queue } := by
  have hids : (PublicationQueue.modify f id w.queue).map (·.publicationId) =
      w.queue.map (·.publicationId) :=
    map_modifyFirst _ w.queue fun x hx => (hf x hx).2.2.id.symm
  have hback : ∀ q ∈ PublicationQueue.modify f id w.queue, q.pending = true →
      ∃ r ∈ w.queue, r.pending = true ∧ q.Twin r := by
    intro q hq hpending
    rcases mem_modifyFirst hq with hq | ⟨x, hx, rfl⟩
    · exact ⟨q, hq, hpending, Publication.Twin.refl q⟩
    · obtain ⟨hxp, -, htwin⟩ := hf x hx
      exact ⟨x, List.mem_of_find?_eq_some hx, hxp, htwin.symm⟩
  have hstay : ∀ r ∈ w.queue, r.pending = true →
      (∃ q ∈ PublicationQueue.modify f id w.queue, q.pending = true ∧ r.Twin q) ∨
        ∃ m ∈ ([] : List (Publication Oid)), r.Twin m := by
    intro r hr hpending
    rcases mem_or_mem_modifyFirst hr with hr | ⟨hx, hr⟩
    · exact Or.inl ⟨r, hr, hpending, Publication.Twin.refl r⟩
    · obtain ⟨-, hfp, htwin⟩ := hf r hx
      exact Or.inl ⟨f r, hr, hfp, htwin⟩
  have hwaiting : Waiting { w.setDelivery d with
      queue := PublicationQueue.modify f id w.queue, acknowledged := w.acknowledged ++ [] } a := by
    intro q hq hid
    rcases mem_modifyFirst hq with hq | ⟨x, hx, rfl⟩
    · exact ha q hq hid
    · exact (hf x hx).2.1
  have hclosed : ∀ q ∈ PublicationQueue.modify f id w.queue, q.pending = false →
      q ∈ w.queue ∨ q ∈ ([] : List (Publication Oid)) := by
    intro q hq hdone
    rcases mem_modifyFirst hq with hq | ⟨x, hx, rfl⟩
    · exact Or.inl hq
    · rw [(hf x hx).2.1] at hdone
      cases hdone
  have hrewrite := h.rewrite [] (hids ▸ List.Sublist.refl _) hback hstay
    (fun m hm => absurd hm List.not_mem_nil) (fun _ _ _ m hm => absurd hm List.not_mem_nil)
    hclosed (hd _ hwaiting)
  rwa [List.append_nil] at hrewrite

/-- A completed delivery: the order of the queue carries the ACK from the
publication that was delivered to those that are not younger. -/
theorem complete (h : Accounted G w) {a : Attempt Oid} {p : Publication Oid}
    {ack : PublicationAck Oid} (hinHand : InHand w p) (hproves : Proves G w p ack) (now : ℕ)
    (hasPending : Bool) :
    Accounted G { w.setDelivery (.completing a p ack
        ((PublicationQueue.marked now p ack w.queue).map (·.publicationId)) hasPending) with
      queue := PublicationQueue.complete now p ack w.queue
      acknowledged := w.acknowledged ++ PublicationQueue.marked now p ack w.queue } := by
  obtain ⟨r, hr, hrp, htwin⟩ := hinHand
  obtain ⟨hancestor, project, hproject, hlog⟩ := hproves
  apply h.rewrite
  · exact PublicationQueue.complete_ids now p ack w.queue
  · intro q hq hpending
    have hmem := (PublicationQueue.pending_of_mem_complete hq hpending).1
    exact ⟨q, hmem, hpending, Publication.Twin.refl q⟩
  · intro q hq hpending
    rcases PublicationQueue.mem_complete now ack hq hpending with hstay | hmarked
    · exact Or.inl ⟨q, hstay, hpending, Publication.Twin.refl q⟩
    · exact Or.inr ⟨q.acknowledge now ack, hmarked, rfl, rfl, rfl, rfl, rfl⟩
  -- What is marked is not younger than `p`, so the order of the queue puts its commit
  -- below that of `p`.
  · intro m hm
    obtain ⟨q, hq, rfl⟩ := List.mem_map.mp hm
    obtain ⟨hq, hcompletes⟩ := List.mem_filter.mp hq
    obtain ⟨hqp, hqproject, hqbranch, hqage⟩ := Publication.completes_iff.mp hcompletes
    have hbelow : G.Ancestor q.candidateCommitOid p.candidateCommitOid := by
      rw [htwin.candidate]
      apply h.ordered q hq r hr hqp hrp
      · exact hqproject.trans htwin.project
      · exact hqbranch.trans htwin.branch
      · exact htwin.age ▸ hqage
    refine ⟨List.mem_map.mpr ⟨q, hq, rfl⟩, ack, rfl, hbelow.trans hancestor, project, ?_, ?_⟩
    · change findProject w.catalog q.projectId = some project
      rw [hqproject]
      exact hproject
    · change ack.remoteHead ∈ w.hostedLog project.remoteUrl q.branch
      rw [hqbranch]
      exact hlog
  · intro q hq hpending m hm hid
    obtain ⟨hmem, hnot⟩ := PublicationQueue.pending_of_mem_complete hq hpending
    obtain ⟨s, hs, rfl⟩ := List.mem_map.mp hm
    obtain ⟨hs, hcompletes⟩ := List.mem_filter.mp hs
    -- The publication that is left and the one that is marked would be the same, by their
    -- id.
    obtain rfl := h.unique hs hmem hid
    rw [hcompletes] at hnot
    cases hnot
  · intro q hq hdone
    obtain ⟨s, hs, hsq⟩ := List.mem_map.mp ((PublicationQueue.compact_sublist _).subset hq)
    by_cases hcompletes : p.completes s = true
    · rw [if_pos hcompletes] at hsq
      rw [← hsq]
      exact Or.inr (List.mem_map_of_mem (List.mem_filter.mpr ⟨hs, hcompletes⟩))
    · rw [if_neg hcompletes] at hsq
      exact Or.inl (hsq ▸ hs)
  · refine ⟨⟨project, hproject⟩, fun id hid => ?_⟩
    obtain ⟨m, hm, rfl⟩ := List.mem_map.mp hid
    exact ⟨m, List.mem_append_right w.acknowledged hm, rfl⟩

/-- A publication ref goes once its publication is marked. -/
theorem deleteRef (h : Accounted G w) {a : Attempt Oid} {path id : String} {ids : List String}
    (hid : Marked w id) (hids : ∀ i ∈ ids, Marked w i) :
    Accounted G ((w.setCheckout path ((w.checkouts path).setPublication id none)).setDelivery
      (.deleting a path ids)) := by
  have hrefs : ∀ p i, i ≠ id → (((w.setCheckout path
      ((w.checkouts path).setPublication id none)).setDelivery
        (.deleting a path ids)).checkouts p).publications i = (w.checkouts p).publications i := by
    intro p i hi
    change (Function.update w.checkouts path _ p).publications i = _
    by_cases hp : p = path
    · subst hp
      rw [Function.update_self]
      exact Function.update_of_ne hi ..
    · rw [Function.update_of_ne hp]
  refine ⟨h.log, h.ids, h.issued, ?_, h.apart, h.ordered, hids, h.acknowledged, h.closed, h.spent,
    h.unmarked, h.recorded, h.drawn, ?_⟩
  · intro task name p next hc
    have hfresh := h.created task name p next hc
    obtain ⟨q, hq⟩ := hfresh.ref
    have hne : p.publicationId ≠ id := by
      rintro rfl
      exact hfresh.unmarked hid
    refine ⟨hfresh.pending, hfresh.issued, hfresh.unqueued, hfresh.unmarked, q, ?_⟩
    rw [hrefs q _ hne]
    exact hq
  · intro p hp
    by_cases hne : p.publicationId = id
    · rw [hne]
      exact Or.inr hid
    · rcases h.refs p hp with ⟨q, hq⟩ | hmarked
      · refine Or.inl ⟨q, ?_⟩
        rw [hrefs q _ hne]
        exact hq
      · exact Or.inr hmarked

/-- A push: the hosted branch moves to the candidate. -/
theorem push (h : Accounted G w) {a : Attempt Oid} {p : Publication Oid}
    {project : LocalProject Oid} (hstage : Waiting w a ∧ InHand w p ∧ Known w p project)
    (answered : Bool) :
    Accounted G ((w.setHosted project.remoteUrl p.branch p.candidateCommitOid).setDelivery
      (if answered then .delivered a p project else .failing a "push failed")) := by
  have hmoves : HostedMoves (fun _ _ _ => True) w
      ((w.setHosted project.remoteUrl p.branch p.candidateCommitOid).setDelivery
        (if answered then .delivered a p project else .failing a "push failed")) :=
    Or.inr ⟨project.remoteUrl, p.branch, p.candidateCommitOid, trivial, rfl, rfl⟩
  obtain ⟨hlater, hlog⟩ := later_of_moves hmoves (SameProjects.refl _) rfl h.log
  refine h.keep hlater ⟨rfl, rfl, rfl, rfl⟩ hlog (fun _ _ _ _ hc => hc) (fun _ => rfl) ?_
  cases answered with
  | true => exact ⟨hstage.1, hstage.2.1, hlater.known hstage.2.2⟩
  | false => exact hstage.1

variable [DecidableEq Oid]

/-- One step of a delivery. -/
theorem deliver (h : Accounted G w) {e : DeliveryEvent Oid}
    (hkeeps : KeepsCandidates w (.deliver e : PublishEvent Oid Task))
    (hprovider : HonestProvider G w (.deliver e : PublishEvent Oid Task))
    (hs : w.deliver G e = some w') : Accounted G w' := by
  have hstage := h.stage
  cases deliveryStep_of_deliver hs with
  | takes place found =>
    obtain ⟨hmem, -, hpending⟩ := PublicationQueue.findPending_eq_some found
    apply h.place
    intro q hq hid
    exact h.unique hq hmem hid ▸ hpending
  | losesRace place | disappears place =>
    rw [place] at hstage
    exact h.place hstage
  | @loads a n p place left found pending =>
    rw [place] at hstage
    have hmem := (PublicationQueue.find_eq_some found).1
    exact h.place ⟨hstage, p, hmem, pending, Publication.Twin.refl p⟩
  | @projects a p project place found =>
    rw [place] at hstage
    exact h.place ⟨hstage.1, hstage.2, project, found, rfl⟩
  | misses place | isPaused place | isInactive place | missesChecked place | isBlocked place
  | retries place | missesReconciled place | disappearsReconciled place | isStale place
  | missesBranch place | isUnreachable place | refuses place | isAdvanced place =>
    -- the attempt fails, or starts its next round
    rw [place] at hstage
    exact h.place hstage.1
  | fetchesCandidate place | fetchesExpected place | fetchesOther place | reconciles place
  | readsHead place | validates place =>
    rw [place] at hstage
    exact h.place hstage
  | @checks a p project known remoteHead place =>
    rw [place] at hstage
    have hd : Stage G w (.reconciling a p remoteHead) := ⟨hstage.1, hstage.2.1⟩
    exact h.placeProject hd fun _ _ => rfl
  | retargets place =>
    rw [place] at hstage
    simp only [KeepsCandidates, place] at hkeeps
    obtain ⟨hwaiting, q, hq, hpending, htwin⟩ := hstage
    refine h.modify (fun x hx => ?_) (fun _ hu => hu) hwaiting
    -- the publication in hand is the one that is found, with the candidate that HEAD is at
    obtain ⟨hmem, hid⟩ := PublicationQueue.find_eq_some hx
    obtain rfl := h.unique hmem hq (hid.trans htwin.id)
    exact ⟨hpending, hpending, rfl, rfl, rfl, rfl, (hkeeps.trans htwin.candidate).symm⟩
  | @pushes a p project answered place =>
    rw [place] at hstage
    exact h.push hstage answered
  | confirms place hosted reachable =>
    rw [place] at hstage
    exact h.place ⟨hstage.1, hstage.2.1, hstage.2.2, (G.isAncestor_iff ..).mp reachable,
      h.log _ _ _ hosted⟩
  | @acknowledges a p project head now ack place service accepts =>
    rw [place] at hstage
    obtain ⟨hwaiting, hinHand, ⟨known, hknown, hid⟩, -, -⟩ := hstage
    simp only [HonestProvider, place] at hprovider
    obtain ⟨haccepted, hseen⟩ := hprovider accepts
    have hoid : ack.acceptedOid = p.candidateCommitOid := by
      simp only [Publication.accepts, Bool.and_eq_true, beq_iff_eq] at accepts
      exact accepts.2
    exact h.place ⟨hwaiting, hinHand.attempted now, hoid ▸ haccepted, known, hknown,
      identity_remoteUrl hid ▸ hseen⟩
  | @acknowledgesOwn a p project head now answer place =>
    rw [place] at hstage
    obtain ⟨hwaiting, hinHand, ⟨known, hknown, hid⟩, hancestor, hlog⟩ := hstage
    exact h.place ⟨hwaiting, hinHand.attempted now, hancestor, known, hknown,
      identity_remoteUrl hid ▸ hlog⟩
  | @completes a p ack now place =>
    rw [place] at hstage
    exact h.complete hstage.2.1 hstage.2.2 now _
  | missesCompleted place none =>
    rw [place] at hstage
    obtain ⟨⟨project, hproject⟩, -⟩ := hstage
    rw [hproject] at none
    cases none
  | @records a p ack completed hasPending project place =>
    rw [place] at hstage
    have hd : Stage G w (.deleting a project.localPath completed) := hstage.2
    exact h.placeProject hd fun _ _ => rfl
  | @deletes a path id ids place =>
    rw [place] at hstage
    exact h.deleteRef (hstage id List.mem_cons_self) fun i hi =>
      hstage i (List.mem_cons_of_mem id hi)
  | fails place => exact h.place (stage_fallible hstage place)
  | recordsFailure place =>
    rw [place] at hstage
    refine h.modify (fun x hx => ?_) (fun _ _ => trivial) hstage
    obtain ⟨hmem, hid⟩ := PublicationQueue.find_eq_some hx
    exact ⟨hstage x hmem hid, rfl, rfl, rfl, rfl, rfl, rfl⟩
  | @notesFailure a error =>
    have hd : Stage G w (.pass a.rest) := trivial
    exact h.placeProject hd fun _ _ => rfl
  | starts | ends | skips | isDone | isDelivered => exact h.place trivial

section Steps

variable [DecidableEq Task]

theorem step (h : Accounted G w) {e : PublishEvent Oid Task} (hkeeps : KeepsCandidates w e)
    (hprovider : HonestProvider G w e) (horder : RecordsInOrder G w e)
    (hs : w.step G e = some w') : Accounted G w' := by
  cases e with
  | user e => exact h.user hs
  | call task e => exact h.call horder hs
  | deliver e => exact h.deliver hkeeps hprovider hs
  | writeProject name record =>
    obtain ⟨rfl, hsame⟩ := writeProject_eq_some hs
    have hlater : Later w (w.setProject name fun _ => record) :=
      ⟨hsame, fun _ _ _ h => h, fun _ h => h⟩
    exact h.keep hlater ⟨rfl, rfl, rfl, rfl⟩ h.log (fun _ _ _ _ hc => hc) (fun _ => rfl)
      (hlater.stage (fun _ ha => ha) (fun _ hp => hp) h.stage)
  | install path b new old =>
    obtain rfl := install_eq_some hs
    have hlater : Later w (w.setCheckout path ((w.checkouts path).setHead b new)) :=
      ⟨SameProjects.refl _, fun _ _ _ h => h, fun _ h => h⟩
    exact h.keep hlater ⟨rfl, rfl, rfl, rfl⟩ h.log (fun _ _ _ _ hc => hc)
      (publications_setCheckout w path rfl)
      (hlater.stage (fun _ ha => ha) (fun _ hp => hp) h.stage)
  | restart =>
    obtain rfl := Option.some.inj hs
    refine h.keep ⟨SameProjects.refl _, fun _ _ _ h => h, fun _ h => h⟩ ⟨rfl, rfl, rfl, rfl⟩ h.log
      (fun task name p next hc => ?_) (fun _ => rfl) trivial
    have hnot := afterRestart_not_created (w.calls task)
    have hc : (w.calls task).afterRestart = .created name p next := hc
    rw [hc] at hnot
    exact absurd trivial hnot

end Steps

omit [DecidableEq Oid] in
/-- What was put in the queue and has not been on its hosted branch is still
pending there, and its ref is there too. -/
theorem pending_or_hosted (h : Accounted G w) {p : Publication Oid} (hp : p ∈ w.recorded)
    (hnot : ¬ OnHosted G w p) :
    (∃ q ∈ w.queue, q.pending = true ∧ p.Twin q) ∧
      ∃ path, (w.checkouts path).publications p.publicationId = some p.candidateCommitOid := by
  rcases h.recorded p hp with ⟨q, hq, hpending, htwin⟩ | ⟨m, hm, htwin⟩
  · refine ⟨⟨q, hq, hpending, htwin⟩, ?_⟩
    rcases h.refs p hp with href | hmarked
    · exact href
    · exact absurd (htwin.id ▸ hmarked) (h.unmarked q hq hpending)
  · obtain ⟨ack, -, hproves⟩ := h.acknowledged m hm
    obtain ⟨project, hproject, x, hx, hancestor⟩ := hproves.onHosted
    refine absurd ⟨project, ?_, x, ?_, ?_⟩ hnot
    · rw [htwin.project]
      exact hproject
    · rw [htwin.branch]
      exact hx
    · rw [htwin.candidate]
      exact hancestor

end Accounted

variable [DecidableEq Oid] [DecidableEq Task]

/-- In every run in which publications are queued in the order of the history,
every publication that is marked as acknowledged, in the queue or dropped from
it, has its candidate in the history of the head in its ACK; and a publication
that was queued stays pending with its ref, until its candidate has been on the
hosted branch. -/
theorem acknowledged_are_hosted (h0 : Start w) {es : List (PublishEvent Oid Task)}
    (hkeeps : Runs.Steps (step G) KeepsCandidates w es)
    (hprovider : Runs.Steps (step G) (HonestProvider G) w es)
    (horder : Runs.Steps (step G) (RecordsInOrder G) w es)
    (hr : Runs.run (step G) w es = some w') :
    (∀ m, m ∈ w'.acknowledged ∨ m ∈ w'.queue ∧ m.pending = false →
      ∃ ack, m.ack = some ack ∧ G.Ancestor m.candidateCommitOid ack.remoteHead) ∧
    ∀ p ∈ w'.recorded, ¬ OnHosted G w' p → (∃ q ∈ w'.queue, q.pending = true ∧ p.Twin q) ∧
      ∃ path, (w'.checkouts path).publications p.publicationId = some p.candidateCommitOid := by
  have hstep : ∀ (s : PublishWorld Oid Task) (e : PublishEvent Oid Task) t, Accounted G s →
      (KeepsCandidates s e ∧ HonestProvider G s e) ∧ RecordsInOrder G s e →
      step G s e = some t → Accounted G t :=
    fun _ _ _ h hok hs => h.step hok.1.1 hok.1.2 hok.2 hs
  have hall : Accounted G w' :=
    Runs.run_invariant hstep h0.accounted ((hkeeps.and hprovider).and horder) hr
  refine ⟨fun m hm => ?_, fun p hp hnot => hall.pending_or_hosted hp hnot⟩
  have hmarked : m ∈ w'.acknowledged := by
    rcases hm with hm | ⟨hm, hdone⟩
    · exact hm
    · exact hall.closed m hm hdone
  obtain ⟨ack, hack, hproves⟩ := hall.acknowledged m hmarked
  exact ⟨ack, hack, hproves.1⟩

end PublishWorld

section TwoCommits

instance (w : PublishWorld Oid Task) [DecidableEq Oid] (e : PublishEvent Oid Task) :
    Decidable (w.KeepsCandidates e) := by
  delta PublishWorld.KeepsCandidates
  rcases e with _ | _ | e | _ | _ | _
  case deliver =>
    generalize w.delivery = d
    rcases e <;> rcases d <;> infer_instance
  all_goals infer_instance

instance (G : CommitGraph Oid) [DecidableEq Oid] (w : PublishWorld Oid Task)
    (e : PublishEvent Oid Task) : Decidable (w.HonestProvider G e) := by
  delta PublishWorld.HonestProvider
  rcases e with _ | _ | e | _ | _ | _
  case deliver =>
    generalize w.delivery = d
    rcases e
    case acknowledge now answer => rcases answer <;> rcases d <;> infer_instance
    all_goals infer_instance
  all_goals infer_instance

instance (G : CommitGraph Oid) [DecidableEq Oid] (w : PublishWorld Oid Task)
    (e : PublishEvent Oid Task) : Decidable (w.RecordsInOrder G e) := by
  delta PublishWorld.RecordsInOrder
  rcases e with _ | ⟨task, e⟩ | _ | _ | _ | _
  case call =>
    rcases e
    case push =>
      dsimp only
      generalize w.calls task = c
      rcases c <;> infer_instance
    all_goals infer_instance
  all_goals infer_instance

/-- Two commits are queued before one pass over the queue: `3`, and then `next`. -/
def twoCommits (next : UserEvent ℕ (Fin 2)) (first second : Fin 2) :
    List (PublishEvent ℕ (Fin 2)) :=
  .user (.commit "/work" 3) :: reportHead first "first" 5 ++ .user next ::
    reportHead second "second" 6 ++ deliverYoungest 7

/-- The candidate and the acknowledged head of every marked publication. -/
def acknowledgedHeads (w : PublishWorld ℕ (Fin 2)) : List (ℕ × Option ℕ) :=
  w.acknowledged.map fun m => (m.candidateCommitOid, m.ack.map (·.remoteHead))

/-- A second commit on top of the first. -/
theorem acknowledged_are_hosted_two :
    ((Runs.run (PublishWorld.step pairGraph) currentMain
      (twoCommits (.commit "/work" 7) 0 1)).map acknowledgedHeads) = some [(3, some 7), (7, some 7)] ∧
    ∀ v, Runs.run (PublishWorld.step pairGraph) currentMain
        (twoCommits (.commit "/work" 7) 0 1) = some v →
      ∀ m ∈ v.acknowledged, ∃ ack, m.ack = some ack ∧
        pairGraph.Ancestor m.candidateCommitOid ack.remoteHead := by
  refine ⟨by decide +kernel, fun v hv m hm => ?_⟩
  have hall := PublishWorld.acknowledged_are_hosted start_currentMain (by decide +kernel)
    (by decide +kernel) (by decide +kernel) hv
  exact hall.1 m (Or.inl hm)

/-- The first commit is amended before it is pushed; the delivery of the second
acknowledges it, and it has never been on the hosted branch. -/
theorem amended_commit_is_acknowledged : currentMain.Start ∧
    Runs.Steps (PublishWorld.step pairGraph) PublishWorld.KeepsCandidates currentMain
      (twoCommits (.rewrite "/work" "main" 4) 0 1) ∧
    Runs.Steps (PublishWorld.step pairGraph) (PublishWorld.HonestProvider pairGraph) currentMain
      (twoCommits (.rewrite "/work" "main" 4) 0 1) ∧
    ((Runs.run (PublishWorld.step pairGraph) currentMain
      (twoCommits (.rewrite "/work" "main" 4) 0 1)).map acknowledgedHeads) =
        some [(3, some 4), (4, some 4)] ∧ ¬ pairGraph.Ancestor 3 4 :=
  ⟨start_currentMain, by decide +kernel, by decide +kernel, by decide +kernel, by decide +kernel⟩

end TwoCommits

end Resync
