import Mathlib.Data.Prod.Lex
import Resync.RetryTimes

/-! How long a pass of the queue takes. Its loops read what users, other clients and the provider
change at any time, and still the steps of a pass are bounded by the queue alone. -/
namespace Resync

variable {Oid Task : Type}

def PublishEvent.isDelivery : PublishEvent Oid Task → Bool
  | .deliver _ => true
  | _ => false

/-- A publication is put in the queue. -/
def PublishEvent.isPush : PublishEvent Oid Task → Bool
  | .call _ .push => true
  | _ => false

/-- The end of the daemon or the beginning of another pass. -/
def PublishEvent.beginsPass : PublishEvent Oid Task → Bool
  | .deliver (.start _ _) | .restart => true
  | _ => false

namespace Delivery

/-- What a pass goes through after the publication that it has in hand. -/
def rest : Delivery Oid → List String
  | .idle => []
  | .pass ids => ids
  | .reading a | .loaded a _ | .projected a _ _ | .behind a _ _ _ | .reconciling a _ _
  | .reconciled a _ _ | .headRead a _ _ _ | .validating a _ _ | .validated a _ _
  | .delivered a _ _ | .confirmed a _ _ _ | .acked a _ _ | .completing a _ _ _ _
  | .deleting a _ _ | .failing a _ | .failed a _ => a.rest

/-- The steps that are left for the publication in hand, in a queue of `n`. A round of the loop
has seven steps, and each publication that is completed has one. -/
def steps (n : ℕ) : Delivery Oid → ℕ
  | .idle => 0
  | .pass _ => 1
  | .reading a => 7 * a.left + n + 13
  | .loaded a _ => 7 * a.left + n + 19
  | .projected a _ _ => 7 * a.left + n + 18
  | .behind a _ _ _ => 7 * a.left + n + 17
  | .reconciling a _ _ => 7 * a.left + n + 16
  | .reconciled a _ _ => 7 * a.left + n + 15
  | .headRead a _ _ _ => 7 * a.left + n + 14
  | .validating _ _ _ => n + 9
  | .validated _ _ _ => n + 8
  | .delivered _ _ _ => n + 7
  | .confirmed _ _ _ _ => n + 6
  | .acked _ _ _ => n + 5
  | .completing _ _ _ completed _ => completed.length + 4
  | .deleting _ _ completed => completed.length + 2
  | .failing _ _ => 3
  | .failed _ _ => 2

/-- The steps of a whole publication are those of its five rounds and of its completion. -/
def cost (n : ℕ) (d : Delivery Oid) : ℕ := d.rest.length * (n + 49) + d.steps n

end Delivery

namespace PublishWorld

/-- A bound on the steps that are left of the pass. -/
def passCost (w : PublishWorld Oid Task) : ℕ := w.delivery.cost w.queue.length

theorem passCost_congr {w w' : PublishWorld Oid Task} (hdelivery : w'.delivery = w.delivery)
    (hqueue : w'.queue = w.queue) : w'.passCost = w.passCost := by
  rw [passCost, passCost, hdelivery, hqueue]

theorem steps_mono {n m : ℕ} (h : n ≤ m) (d : Delivery Oid) : d.steps n ≤ d.steps m := by
  cases d <;> simp only [Delivery.steps] <;> omega

theorem cost_mono {n m : ℕ} (h : n ≤ m) (d : Delivery Oid) : d.cost n ≤ d.cost m :=
  Nat.add_le_add (Nat.mul_le_mul_left _ (Nat.add_le_add_right h 49)) (steps_mono h d)

theorem cost_succ_le (n : ℕ) (d : Delivery Oid) :
    d.cost (n + 1) ≤ d.cost n + d.rest.length + 1 := by
  have hsteps : d.steps (n + 1) ≤ d.steps n + 1 := by
    cases d <;> simp only [Delivery.steps] <;> omega
  calc d.cost (n + 1) = d.rest.length * (n + 49) + d.rest.length + d.steps (n + 1) := by
        rw [Delivery.cost, ← Nat.mul_succ]
      _ ≤ d.cost n + d.rest.length + 1 := by
        rw [Delivery.cost]
        omega

theorem length_modify (f : Publication Oid → Publication Oid) (id : String)
    (queue : List (Publication Oid)) :
    (PublicationQueue.modify f id queue).length = queue.length := by
  induction queue with
  | nil => rfl
  | cons p queue ih =>
    change (if (p.publicationId == id) = true then f p :: queue
      else p :: PublicationQueue.modify f id queue).length = _
    split
    · rfl
    · rw [List.length_cons, List.length_cons, ih]

theorem length_complete_le (now : ℕ) (d : Publication Oid) (ack : PublicationAck Oid)
    (queue : List (Publication Oid)) :
    (PublicationQueue.complete now d ack queue).length ≤ queue.length := by
  have hlength := (PublicationQueue.compact_sublist
    (queue.map fun q => if d.completes q then q.acknowledge now ack else q)).length_le
  rwa [List.length_map] at hlength

theorem length_marked_le (now : ℕ) (d : Publication Oid) (ack : PublicationAck Oid)
    (queue : List (Publication Oid)) :
    ((PublicationQueue.marked now d ack queue).map (·.publicationId)).length ≤ queue.length := by
  rw [List.length_map, PublicationQueue.marked, List.length_map]
  exact List.length_filter_le _ _

/-- What may fail has more steps left than the failure. -/
theorem fallible_steps {d : Delivery Oid} {a : Attempt Oid} (n : ℕ) (h : d.fallible = some a) :
    d.rest = a.rest ∧ 3 < d.steps n := by
  cases d <;> cases h <;> refine ⟨rfl, ?_⟩ <;> simp only [Delivery.steps] <;> omega

section Steps

variable {w w' : PublishWorld Oid Task}

/-- What a step of a pass does to what is left of it. -/
def Shrinks (w w' : PublishWorld Oid Task) : Prop :=
  w'.delivery.rest.length ≤ w.delivery.rest.length ∧ w'.passCost < w.passCost

/-- A step to another place, in a queue that is not longer. -/
theorem Shrinks.of_place {d d' : Delivery Oid} (hplace : w.delivery = d)
    (hplace' : w'.delivery = d') (hqueue : w'.queue.length ≤ w.queue.length)
    (hrest : d'.rest = d.rest) (hsteps : d'.steps w.queue.length < d.steps w.queue.length) :
    Shrinks w w' := by
  have hcost : d'.cost w'.queue.length ≤ d'.cost w.queue.length := cost_mono hqueue d'
  have hlt : d'.cost w.queue.length < d.cost w.queue.length := by
    rw [Delivery.cost, Delivery.cost, hrest]
    exact Nat.add_lt_add_left hsteps _
  constructor
  · rw [hplace', hplace, hrest]
  · rw [passCost, passCost, hplace', hplace]
    exact lt_of_le_of_lt hcost hlt

theorem Shrinks.setDelivery {u : PublishWorld Oid Task} {d d' : Delivery Oid}
    (hplace : w.delivery = d) (hqueue : u.queue = w.queue) (hrest : d'.rest = d.rest)
    (hsteps : d'.steps w.queue.length < d.steps w.queue.length) : Shrinks w (u.setDelivery d') :=
  .of_place hplace rfl (congrArg List.length hqueue).le hrest hsteps

variable [DecidableEq Oid] {G : CommitGraph Oid}

/-- Each step of a pass shortens it, whatever the catalog, the checkouts and the provider are. -/
theorem Shrinks.deliver {e : DeliveryEvent Oid} (hs : w.deliver G e = some w')
    (hstart : ∀ force now, e ≠ .start force now) : Shrinks w w' := by
  cases deliveryStep_of_deliver hs with
  | @starts force now place => exact absurd rfl (hstart force now)
  | ends place => exact .setDelivery place rfl rfl Nat.zero_lt_one
  -- an attempt costs less than its ID counted before
  | @takes id ids p place found =>
    constructor
    · rw [place]
      exact Nat.le_succ ids.length
    · rw [passCost, passCost, place]
      have hrest := Nat.succ_mul ids.length (w.queue.length + 49)
      calc ids.length * (w.queue.length + 49) + (7 * 5 + w.queue.length + 13)
        _ < ids.length * (w.queue.length + 49) + (w.queue.length + 49) + 1 := by omega
        _ = (ids.length + 1) * (w.queue.length + 49) + 1 := by rw [hrest]
  | @skips id ids place none =>
    constructor
    · rw [place]
      exact Nat.le_succ ids.length
    · rw [passCost, passCost, place]
      have hrest := Nat.succ_mul ids.length (w.queue.length + 49)
      calc ids.length * (w.queue.length + 49) + 1
        _ < ids.length * (w.queue.length + 49) + (w.queue.length + 49) + 1 := by omega
        _ = (ids.length + 1) * (w.queue.length + 49) + 1 := by rw [hrest]
  | @loads a n p place left found pending | @isDone a n p place left found pending
  | @disappears a n place left none =>
    refine .setDelivery place rfl rfl ?_
    simp only [Delivery.steps, left]
    omega
  | @pushes a p project answered place expected =>
    cases answered with
    | true => exact .setDelivery place rfl rfl (Nat.lt_succ_self (w.queue.length + 7))
    | false =>
      have hsteps : (Delivery.failing a "push failed").steps w.queue.length <
          w.queue.length + 8 := by
        simp only [Delivery.steps]
        omega
      exact .setDelivery place rfl rfl hsteps
  | @retargets a p q remoteHead head now place found =>
    have hsteps : (Delivery.reading a).steps w.queue.length <
        (Delivery.headRead a p remoteHead head).steps w.queue.length := by
      simp only [Delivery.steps]
      omega
    exact .of_place place rfl (length_modify _ _ _).le rfl hsteps
  | @completes a p ack now place =>
    refine .of_place place rfl (length_complete_le _ _ _ _) rfl ?_
    have hmarked := length_marked_le now p ack w.queue
    calc ((PublicationQueue.marked now p ack w.queue).map (·.publicationId)).length + 4
      _ ≤ w.queue.length + 4 := Nat.add_le_add_right hmarked 4
      _ < w.queue.length + 5 := Nat.lt_succ_self _
  | recordsFailure place =>
    exact .of_place place rfl (length_modify _ _ _).le rfl (Nat.lt_succ_self 2)
  | @fails a error place =>
    obtain ⟨hrest, hsteps⟩ := fallible_steps w.queue.length place
    exact .setDelivery rfl rfl hrest.symm hsteps
  | losesRace place | misses place | isPaused place | projects place | fetchesCandidate place
  | fetchesExpected place | fetchesOther place | isInactive place | missesChecked place
  | checks place | isBlocked place | retries place | reconciles place | missesReconciled place
  | readsHead place | disappearsReconciled place | validates place | isStale place
  | missesBranch place | confirms place | isUnreachable place | acknowledges place
  | refuses place | isAdvanced place | acknowledgesOwn place | missesCompleted place
  | records place | isDelivered place | deletes place | notesFailure place =>
    refine .setDelivery place rfl rfl ?_
    simp only [Delivery.steps, List.length_cons, List.length_nil]
    omega

variable [DecidableEq Task] {es : List (PublishEvent Oid Task)}

/-- What is left of a pass that had `n` publications before it and the bound `c`, after the events
`es`: each delivery step takes one from the bound, and each new publication adds to it. -/
def Within (n c : ℕ) (es : List (PublishEvent Oid Task)) (w : PublishWorld Oid Task) : Prop :=
  w.delivery.rest.length ≤ n ∧
    es.countP (·.isDelivery) + w.passCost ≤ c + es.countP (·.isPush) * (n + 1)

omit [DecidableEq Oid] [DecidableEq Task] in
theorem Within.shrinks {n c : ℕ} (h : Within n c es w) (hs : Shrinks w w') (e : DeliveryEvent Oid) :
    Within n c (es ++ [.deliver e]) w' := by
  refine ⟨hs.1.trans h.1, ?_⟩
  rw [List.countP_append, List.countP_append]
  calc es.countP (·.isDelivery) + 1 + w'.passCost
    _ ≤ es.countP (·.isDelivery) + w.passCost := by
      rw [Nat.add_assoc, Nat.add_comm 1]
      exact Nat.add_le_add_left hs.2 _
    _ ≤ c + es.countP (·.isPush) * (n + 1) := h.2

omit [DecidableEq Oid] [DecidableEq Task] in
theorem Within.stays {n c : ℕ} {e : PublishEvent Oid Task} (h : Within n c es w)
    (he : e.isDelivery = false) (hqueue : w'.queue = w.queue)
    (hdelivery : w'.delivery = w.delivery) : Within n c (es ++ [e]) w' := by
  have hcost : w'.passCost = w.passCost := by rw [passCost, passCost, hqueue, hdelivery]
  refine ⟨hdelivery ▸ h.1, ?_⟩
  rw [hcost, List.countP_append, List.countP_append, List.countP_singleton,
    if_neg (by rw [he]; decide)]
  calc es.countP (·.isDelivery) + 0 + w.passCost
    _ ≤ c + es.countP (·.isPush) * (n + 1) := h.2
    _ ≤ c + (es.countP (·.isPush) + [e].countP (·.isPush)) * (n + 1) :=
      Nat.add_le_add_left (Nat.mul_le_mul_right _ (Nat.le_add_right _ _)) c

theorem Within.step {n c : ℕ} {e : PublishEvent Oid Task} (h : Within n c es w)
    (he : e.beginsPass = false) (hs : w.step G e = some w') : Within n c (es ++ [e]) w' := by
  cases e with
  | user e =>
    have hframe := (user_frame hs).1
    exact h.stays rfl hframe.queue.queue hframe.delivery
  | call task e =>
    obtain ⟨hframe, hcases⟩ := call_cases hs
    rcases hcases with hquiet | ⟨_, _, _, _, _, _, hcreates⟩ | ⟨p, hpushes⟩
    · exact h.stays rfl hquiet.queue.queue hframe.delivery
    · exact h.stays rfl hcreates.queue hframe.delivery
    · have hlength : w'.queue.length = w.queue.length + 1 := by
        rw [hpushes.queue, List.length_append, List.length_singleton]
      have hcost : w'.passCost ≤ w.passCost + w.delivery.rest.length + 1 := by
        rw [passCost, passCost, hframe.delivery, hlength]
        exact cost_succ_le _ _
      refine ⟨hframe.delivery ▸ h.1, ?_⟩
      rw [hpushes.event, List.countP_append, List.countP_append]
      change es.countP (·.isDelivery) + 0 + w'.passCost ≤
        c + (es.countP (·.isPush) + 1) * (n + 1)
      have hrest := h.1
      have hold := h.2
      rw [Nat.succ_mul]
      omega
  | deliver e =>
    refine h.shrinks (Shrinks.deliver hs fun force now hstart => ?_) e
    rw [hstart] at he
    cases he
  | writeProject name record =>
    rw [(writeProject_eq_some hs).1]
    exact h.stays rfl rfl rfl
  | install path b new old =>
    rw [install_eq_some hs]
    exact h.stays rfl rfl rfl
  | restart => cases he

omit [DecidableEq Task] in
/-- A pass that is not over has a step that it can take, which is a failure only where the commit
of the checkout's HEAD cannot be read. -/
theorem delivery_goes_on (G : CommitGraph Oid) (h : w.delivery ≠ .idle) :
    ∃ e v, (∀ force now, e ≠ .start force now) ∧
      (∀ error, e = .fail error → ∃ path, (w.checkouts path).headCommit = none) ∧
      w.deliver G e = some v := by
  have hstep {e : DeliveryEvent Oid} (hstart : ∀ force now, e ≠ .start force now)
      (hfail : ∀ error, e ≠ .fail error) (hs : (w.deliver G e).isSome = true) :
      ∃ e v, (∀ force now, e ≠ .start force now) ∧
        (∀ error, e = .fail error → ∃ path, (w.checkouts path).headCommit = none) ∧
        w.deliver G e = some v :=
    ⟨e, _, hstart, fun error he => absurd he (hfail error), (Option.some_get hs).symm⟩
  cases hd : w.delivery with
  | idle => exact absurd hd h
  | pass ids =>
    refine hstep (e := .next) (by simp) (by simp) ?_
    cases ids <;> simp only [deliver, hd] <;> first | rfl | (split <;> rfl)
  | reading a =>
    refine hstep (e := .load) (by simp) (by simp) ?_
    simp only [deliver, hd]
    repeat' split
    all_goals rfl
  | loaded a p =>
    refine hstep (e := .project) (by simp) (by simp) ?_
    simp only [deliver, hd]
    repeat' split
    all_goals rfl
  | projected a p project =>
    refine hstep (e := .fetch) (by simp) (by simp) ?_
    simp only [deliver, hd]
    repeat' split
    all_goals rfl
  | behind a p project remoteHead =>
    refine hstep (e := .checkBranch) (by simp) (by simp) ?_
    simp only [deliver, hd]
    repeat' split
    all_goals rfl
  | reconciling a p remoteHead =>
    refine hstep (e := .reconcile "conflict") (by simp) (by simp) ?_
    simp only [deliver, hd, if_true, Option.isSome_some]
  | reconciled a p remoteHead =>
    by_cases hunread : ∃ path, (w.checkouts path).headCommit = none
    · refine ⟨.fail "", w.setDelivery (.failing a ""), by simp, fun _ _ => hunread, ?_⟩
      simp only [deliver, hd, Delivery.fallible, Option.map_some]
    · refine hstep (e := .readHead) (by simp) (by simp) ?_
      simp only [deliver, hd]
      split
      · rfl
      · rw [Option.isSome_map]
        exact Option.isSome_iff_ne_none.mpr fun hnone => hunread ⟨_, hnone⟩
  | headRead a p remoteHead head =>
    refine hstep (e := .retarget 0) (by simp) (by simp) ?_
    simp only [deliver, hd]
    split <;> rfl
  | validating a p project =>
    refine hstep (e := .validate) (by simp) (by simp) ?_
    simp only [deliver, hd, Option.isSome_some]
  | validated a p project =>
    refine hstep (e := .push true) (by simp) (by simp) ?_
    simp only [deliver, hd]
    split <;> rfl
  | delivered a p project =>
    refine hstep (e := .confirm) (by simp) (by simp) ?_
    simp only [deliver, hd]
    repeat' split
    all_goals rfl
  | confirmed a p project head =>
    refine hstep (e := .acknowledge 0 (.remoteAdvanced "")) (by simp) (by simp) ?_
    simp only [deliver, hd]
    split <;> rfl
  | acked a p ack =>
    refine hstep (e := .complete 0) (by simp) (by simp) ?_
    simp only [deliver, hd, Option.isSome_some]
  | completing a p ack completed hasPending =>
    refine hstep (e := .recordCompletion) (by simp) (by simp) ?_
    simp only [deliver, hd]
    split <;> rfl
  | deleting a path ids =>
    refine hstep (e := .deleteRef) (by simp) (by simp) ?_
    cases ids <;> simp only [deliver, hd, Option.isSome_some]
  | failing a error =>
    refine hstep (e := .recordFailure 0) (by simp) (by simp) ?_
    simp only [deliver, hd, Option.isSome_some]
  | failed a error =>
    refine hstep (e := .noteFailure) (by simp) (by simp) ?_
    simp only [deliver, hd, Option.isSome_some]

/-- A pass comes to its end: in every run after its start its steps are bounded by the
publications that it goes through, the length of the queue, and the publications that are queued
in the meantime, and until it is over it has a step that it can take. -/
theorem pass_ends {force : Bool} {now : ℕ} (hs : w.step G (.deliver (.start force now)) = some w')
    {u : PublishWorld Oid Task} (hes : ∀ e ∈ es, e.beginsPass = false)
    (hr : Runs.run (step G) w' es = some u) :
    es.countP (·.isDelivery) ≤
      (PublicationQueue.toProcess force now w.queue).length * (w.queue.length + 49) + 1 +
        es.countP (·.isPush) * ((PublicationQueue.toProcess force now w.queue).length + 1) ∧
    (u.delivery ≠ .idle → ∃ e v, (∀ force now, e ≠ .start force now) ∧
      (∀ error, e = .fail error → ∃ path, (u.checkouts path).headCommit = none) ∧
      u.step G (.deliver e) = some v) := by
  have hstart : Within (PublicationQueue.toProcess force now w.queue).length
      ((PublicationQueue.toProcess force now w.queue).length * (w.queue.length + 49) + 1) []
        w' := by
    have hstep : w.deliver G (.start force now) = some w' := hs
    cases deliveryStep_of_deliver hstep with
    | starts place =>
      refine ⟨le_rfl, ?_⟩
      simp only [List.countP_nil, Nat.zero_add, Nat.zero_mul, Nat.add_zero]
      exact le_rfl
  have hend := Runs.run_history (fun _ _ _ _ h he hs => Within.step h he hs) hstart
    (Runs.Steps.of_forall (fun e he _ => hes e he) _) hr
  exact ⟨(Nat.le_add_right _ _).trans hend.2, delivery_goes_on G⟩

/-- A pass over one publication, which fails; another commit is reported in the meantime. -/
theorem pass_ends_after_failure :
    let fs : List (PublishEvent ℕ (Fin 2)) :=
      [.deliver .next, .deliver .load, .user (.commit "/work" 7)] ++ reportHead 1 "other" 7 ++
        [.project, .fail "offline", .recordFailure 7].map .deliver
    ∃ w u, Runs.run (step pairGraph) currentMain
        (.user (.commit "/work" 3) :: reportHead 0 "pub" 5) = some w ∧
      Runs.run (step pairGraph) w (.deliver (.start true 6) :: fs) = some u ∧
      fs.countP (·.isDelivery) ≤
        (PublicationQueue.toProcess true 6 w.queue).length * (w.queue.length + 49) + 1 +
          fs.countP (·.isPush) * ((PublicationQueue.toProcess true 6 w.queue).length + 1) ∧
      (u.delivery ≠ .idle → ∃ e v, (∀ force now, e ≠ .start force now) ∧
        (∀ error, e = .fail error → ∃ path, (u.checkouts path).headCommit = none) ∧
        u.step pairGraph (.deliver e) = some v) := by
  intro fs
  have hrun : ∃ u, Runs.run (step pairGraph) currentMain
      ((.user (.commit "/work" 3) :: reportHead 0 "pub" 5) ++ .deliver (.start true 6) :: fs) =
        some u :=
    Option.isSome_iff_exists.mp (by decide +kernel)
  obtain ⟨u, hu⟩ := hrun
  obtain ⟨w, hw, hpass⟩ := (Runs.run_append_eq_some _).mp hu
  obtain ⟨w', hs, hr⟩ := (Runs.run_cons_eq_some _).mp hpass
  exact ⟨w, u, hw, hpass, pass_ends hs (by decide) hr⟩

end Steps

end PublishWorld

section Termination

/-- The steps that a call of `reconcile_exclusive` can still make. -/
def Reconciliation.stepsLeft : Reconciliation Oid → ℕ
  | .refreshing _ => 7
  | .idle => 6
  | .called .. => 5
  | .staged .. => 4
  | .located .. => 3
  | .complete .. | .prepared .. => 2
  | .answered .. => 1

def Reconciliation.caller : Reconciliation Oid → Option Caller
  | .idle => none
  | .refreshing _ => some .sync
  | .called caller _ | .staged caller _ _ | .located caller _ _ _ | .complete caller _ _ _ _ _ _
  | .prepared caller _ _ _ | .answered caller _ _ => some caller

variable [DecidableEq Oid] [DecidableEq Task] {G : CommitGraph Oid} {w w' : DaemonWorld Oid Task}

/-- Who calls `reconcile_exclusive` at the place of the delivery is the delivery. -/
def DaemonWorld.CalledByDelivery (w : DaemonWorld Oid Task) : Prop :=
  ∀ caller ∈ (w.reconciling none).caller, caller = .delivery

omit [DecidableEq Oid] in
theorem place_none (w : DaemonWorld Oid Task) (r : Reconciliation Oid) :
    (w.place none r).reconciling none = r := by
  change Function.update w.reconciling none r none = r
  exact Function.update_self ..

/-- A step of the delivery's own reconciliation goes on, or lets the delivery go on. -/
theorem reconcile_shortens {e : ReconcileEvent Oid} (hcaller : w.CalledByDelivery)
    (hs : w.reconcile G none e = some w') :
    w'.publish.passCost < w.publish.passCost ∨
      w'.publish.passCost = w.publish.passCost ∧
        (w'.reconciling none).stepsLeft < (w.reconciling none).stepsLeft := by
  -- Only the answer moves the delivery; every other step takes the reconciliation on.
  cases DaemonWorld.reconcileStep_of_reconcile hs with
  | delivers _ step | failsDelivery _ step =>
    exact Or.inl (PublishWorld.Shrinks.deliver step fun force now heq => by cases heq).2
  | retries place | ends place | notes place | returns place =>
    rw [DaemonWorld.CalledByDelivery, place] at hcaller
    cases hcaller _ rfl
  | requests own | starts own => exact absurd rfl own
  | isRefreshed place =>
    refine Or.inr ⟨rfl, ?_⟩
    rw [place_none, place]
    exact (by decide : 5 < 7)
  | losesRefresh place =>
    refine Or.inr ⟨rfl, ?_⟩
    rw [place_none, place]
    exact (by decide : 6 < 7)
  | failsInstallation place found wanted moved | installs place found wanted moved =>
    have hmoves := DaemonWorld.installMoves_of_moved place found wanted moved
    refine Or.inr ⟨PublishWorld.passCost_congr hmoves.delivery hmoves.queue, ?_⟩
    rw [place_none, place]
    simp only [Reconciliation.stepsLeft]
    omega
  | _ =>
    refine Or.inr ⟨rfl, ?_⟩
    simp only [place_none, Reconciliation.stepsLeft, *]
    omega

/-- A step of the delivery or of the reconciliation that it has called. -/
def DaemonEvent.ofPass : DaemonEvent Oid Task → Bool
  | .publish (.deliver (.start ..)) => false
  | .publish (.deliver _) => true
  | .reconcile none _ => true
  | _ => false

/-- Every pass comes to its end, whatever its commands answer: between two steps of the delivery
the reconciliation that it has called makes a few steps of its own. -/
theorem passes_end : WellFounded fun w' w : DaemonWorld Oid Task =>
    w.CalledByDelivery ∧ ∃ e : DaemonEvent Oid Task, e.ofPass = true ∧ w.step G e = some w' := by
  let rank := fun w : DaemonWorld Oid Task =>
    toLex (w.publish.passCost, (w.reconciling none).stepsLeft)
  refine Subrelation.wf ?_ (InvImage.wf rank (wellFounded_lt))
  rintro w' w ⟨hcaller, e, he, hs⟩
  change toLex (_, _) < toLex (_, _)
  cases e with
  | publish e =>
    cases e with
    | deliver e =>
      have hdeliver : w.publish.deliver G e = some w'.publish :=
        (DaemonWorld.publishes_step (show w.publishes G (.deliver e) = some w' from hs)).1
      refine Prod.Lex.left _ _ (PublishWorld.Shrinks.deliver hdeliver fun force now heq => ?_).2
      rw [heq] at he
      cases he
    | _ => cases he
  | reconcile task e =>
    cases task with
    | some task => cases he
    | none =>
      rcases reconcile_shortens hcaller hs with h | ⟨hsame, h⟩
      · exact Prod.Lex.left _ _ h
      · rw [hsame]
        exact Prod.Lex.right _ h

/-- A pass that is not over can go on. -/
theorem pass_goes_on (h : w.publish.delivery ≠ .idle) :
    ∃ (e : DaemonEvent Oid Task) (w' : DaemonWorld Oid Task),
      e.ofPass = true ∧ w.step G e = some w' := by
  obtain ⟨e, u, hstart, -, hs⟩ := PublishWorld.delivery_goes_on G h
  by_cases hreconcile : ∃ outcome, e = .reconcile outcome
  · obtain ⟨outcome, rfl⟩ := hreconcile
    -- the daemon reconciles in steps of its own, which can end in an error
    cases PublishWorld.deliveryStep_of_deliver hs with
    | @isBlocked a _ _ _ place | @retries a _ _ _ place | @reconciles a _ _ _ place =>
      refine ⟨.publish (.deliver (.fail "")), w.setPublish (w.publish.setDelivery (.failing a "")),
        rfl, Option.map_eq_some_iff.mpr ⟨_, ?_, rfl⟩⟩
      simp only [PublishWorld.step, PublishWorld.deliver, place, Delivery.fallible, Option.map_some]
  · refine ⟨.publish (.deliver e), w.setPublish u, ?_, ?_⟩
    · cases e with
      | start force now => exact absurd rfl (hstart force now)
      | _ => rfl
    · cases e with
      | reconcile outcome => exact absurd ⟨outcome, rfl⟩ hreconcile
      | _ => exact Option.map_eq_some_iff.mpr ⟨u, hs, rfl⟩

end Termination

end Resync
