import Resync.HostedForward
import Resync.PassOutcome

/-! The times at which the queue is delivered. A publication that has failed is left alone for one
minute and never parked for longer. -/
namespace Resync

variable {Oid Task : Type}

/-- The delay that `process_publications` passes to `record_failure`. -/
def retryDelay : ℕ := 60000000000

/-- The clock that an event reads. -/
def PublishEvent.reading : PublishEvent Oid Task → Option ℕ
  | .call _ (.create _ now) => some now
  | .deliver (.start _ now) | .deliver (.retarget now) | .deliver (.acknowledge now _)
  | .deliver (.complete now) | .deliver (.recordFailure now) => some now
  | _ => none

/-- The next attempt is not far off, and a retry is one delay after the failure. -/
structure Publication.Timed (T : ℕ) (p : Publication Oid) : Prop where
  soon : ∀ t ∈ p.nextAttemptAt, t ≤ T + retryDelay
  spaced : ∀ error ∈ p.lastError, ∃ t, p.lastAttemptAt = some t ∧
    p.nextAttemptAt = some (t + retryDelay)

namespace PublishWorld

/-- The forms in which a step leaves the queue. -/
inductive QueueStep (w : PublishWorld Oid Task) :
    PublishEvent Oid Task → List (Publication Oid) → Prop
  | stays {e : PublishEvent Oid Task} : QueueStep w e w.queue
  | pushes {task : Task} {name : String} {p : Publication Oid} {next : Next}
      (place : w.calls task = .created name p next) :
      QueueStep w (.call task .push) (w.queue ++ [p])
  | retargets {a : Attempt Oid} {p : Publication Oid} {remoteHead : Option Oid} {head : Oid}
      {now : ℕ} (place : w.delivery = .headRead a p remoteHead head) :
      QueueStep w (.deliver (.retarget now))
        (PublicationQueue.modify (·.retarget now head remoteHead) p.publicationId w.queue)
  | completes {a : Attempt Oid} {p : Publication Oid} {ack : PublicationAck Oid} {now : ℕ}
      (place : w.delivery = .acked a p ack) :
      QueueStep w (.deliver (.complete now)) (PublicationQueue.complete now p ack w.queue)
  | fails {a : Attempt Oid} {error : String} {now : ℕ} (place : w.delivery = .failing a error) :
      QueueStep w (.deliver (.recordFailure now))
        (PublicationQueue.modify (·.recordFailure now error) a.initial.publicationId w.queue)

section Steps

variable [DecidableEq Oid] [DecidableEq Task] {G : CommitGraph Oid} {w w' : PublishWorld Oid Task}
  {e : PublishEvent Oid Task}

theorem queueStep_of_step (h : w.step G e = some w') : QueueStep w e w'.queue := by
  cases e with
  | user e =>
    rw [(user_frame h).1.queue.queue]
    exact .stays
  | call task e =>
    rcases (call_cases h).2 with hquiet | ⟨_, _, _, _, _, _, hcreates⟩ | ⟨p, hpushes⟩
    · rw [hquiet.queue.queue]
      exact .stays
    · rw [hcreates.queue]
      exact .stays
    · obtain ⟨name, next, hplace, -⟩ := hpushes.created
      rw [hpushes.queue, hpushes.event]
      exact .pushes hplace
  | deliver e =>
    cases deliveryStep_of_deliver h with
    | retargets place => exact .retargets place
    | completes place => exact .completes place
    | recordsFailure place => exact .fails place
    | _ => exact .stays
  | writeProject name record =>
    rw [(writeProject_eq_some h).1]
    exact .stays
  | install path b new old =>
    rw [install_eq_some h]
    exact .stays
  | restart =>
    obtain rfl := Option.some.inj h
    exact .stays

/-- What is under way to the queue, with what the queue holds. -/
def Everywhere (P : Publication Oid → Prop) (w : PublishWorld Oid Task) : Prop :=
  (∀ p ∈ w.queue, P p) ∧
    ∀ task name p next, w.calls task = .created name p next → P p

/-- A step that makes no new publication keeps those that were under way. -/
theorem created_of_step {task : Task} {name : String} {p : Publication Oid} {next : Next}
    (h : w.step G e = some w') (hp : w'.calls task = .created name p next) :
    w.calls task = .created name p next ∨
      ∃ id now projectId checkoutId b c head, e = .call task (.create id now) ∧ id ∉ w.issued ∧
        p = .new id now projectId checkoutId b c head := by
  cases e with
  | user e =>
    rcases (user_frame h).1.calls task with hsame | ⟨_, _, _, _, hhook⟩
    · exact .inl (hsame ▸ hp)
    · rw [hhook] at hp
      cases hp
  | call task' e =>
    obtain ⟨hframe, hcases⟩ := call_cases h
    by_cases heq : task = task'
    · subst heq
      rcases hcases with hquiet | ⟨_, _, _, _, _, p', hcreates⟩ | ⟨_, hpushes⟩
      · refine absurd ?_ hquiet.notCreated
        rw [hp]
        trivial
      · obtain ⟨id, now, rfl, hfresh, -, rfl⟩ := hcreates.publication
        cases hp.symm.trans hcreates.created
        exact .inr ⟨id, now, _, _, _, _, _, rfl, hfresh, rfl⟩
      · obtain ⟨_, _, -, hqueued⟩ := hpushes.created
        cases hp.symm.trans hqueued
    · exact .inl (hframe.calls task heq ▸ hp)
  | deliver e => exact .inl ((deliver_frame h).calls ▸ hp)
  | writeProject name record =>
    rw [(writeProject_eq_some h).1] at hp
    exact .inl hp
  | install path b new old =>
    rw [install_eq_some h] at hp
    exact .inl hp
  | restart =>
    obtain rfl := Option.some.inj h
    refine absurd ?_ (afterRestart_not_created (w.calls task))
    rw [show (w.calls task).afterRestart = _ from hp]
    trivial

end Steps

section Times

open PublicationQueue

theorem timed_modify {T : ℕ} {queue : List (Publication Oid)}
    {f : Publication Oid → Publication Oid} {id : String} (h : ∀ p ∈ queue, p.Timed T)
    (hf : ∀ p, (f p).Timed T) :
    ∀ p ∈ modify f id queue, p.Timed T := by
  intro p hp
  rcases mem_modifyFirst hp with hp | ⟨q, -, rfl⟩
  · exact h p hp
  · exact hf q

theorem timed_complete {T now : ℕ} {queue : List (Publication Oid)} {d : Publication Oid}
    {ack : PublicationAck Oid} (h : ∀ p ∈ queue, p.Timed T) :
    ∀ p ∈ complete now d ack queue, p.Timed T := by
  intro p hp
  obtain ⟨q, hq, rfl⟩ := List.mem_map.mp ((compact_sublist _).subset hp)
  split
  · exact ⟨fun _ ht => (by cases ht), fun _ herror => by cases herror⟩
  · exact h q hq

variable [DecidableEq Oid] [DecidableEq Task] {G : CommitGraph Oid} {w w' : PublishWorld Oid Task}
  {e : PublishEvent Oid Task} {T : ℕ}

theorem Everywhere.timed_step (h : Everywhere (Publication.Timed T) w)
    (he : ∀ now ∈ e.reading, now ≤ T) (hs : w.step G e = some w') :
    Everywhere (Publication.Timed T) w' := by
  constructor
  · have hqueue := queueStep_of_step hs
    generalize w'.queue = queue at hqueue ⊢
    cases hqueue with
    | stays => exact h.1
    | pushes place =>
      exact List.forall_mem_append.mpr ⟨h.1, List.forall_mem_singleton.mpr (h.2 _ _ _ _ place)⟩
    | @retargets a p remoteHead head now place =>
      have hnow : now ≤ T := he now rfl
      refine timed_modify h.1 fun q => ⟨fun t ht => ?_, fun _ herror => by cases herror⟩
      obtain rfl := Option.some.inj ht
      exact Nat.le_add_right_of_le hnow
    | completes place => exact timed_complete h.1
    | @fails a error now place =>
      have hnow : now ≤ T := he now rfl
      refine timed_modify h.1 fun q => ⟨fun t ht => ?_, fun _ _ => ⟨now, rfl, rfl⟩⟩
      obtain rfl := Option.some.inj ht
      exact Nat.add_le_add_right hnow retryDelay
  · intro task name p next hp
    rcases created_of_step hs hp with hold | ⟨id, now, _, _, _, _, _, rfl, -, rfl⟩
    · exact h.2 task name p next hold
    · have hnow : now ≤ T := he now rfl
      refine ⟨fun t ht => ?_, fun _ herror => by cases herror⟩
      obtain rfl := Option.some.inj ht
      exact Nat.le_add_right_of_le hnow

omit [DecidableEq Oid] in
/-- One delay after the last reading of the clock, everything that is pending is due. -/
theorem toProcess_of_timed {queue : List (Publication Oid)} (h : ∀ p ∈ queue, p.Timed T)
    {now : ℕ} (hnow : T + retryDelay ≤ now) :
    toProcess false now queue = toProcess true now queue := by
  have hdue : ∀ p ∈ queue,
      (p.pending && (false || p.due now)) = (p.pending && (true || p.due now)) := by
    intro p hp
    have hall : p.nextAttemptAt.all (· ≤ now) = true := by
      rw [Option.all_eq_true]
      exact fun t ht => decide_eq_true (((h p hp).soon t ht).trans hnow)
    rw [Publication.due, hall, Bool.and_true, Bool.false_or, Bool.true_or, Bool.and_self,
      Bool.and_true]
  rw [toProcess, toProcess, List.filter_congr hdue]

omit [DecidableEq Oid] in
theorem mem_toProcess {force : Bool} {now : ℕ} {queue : List (Publication Oid)} {id : String} :
    id ∈ toProcess force now queue ↔
      ∃ p ∈ queue, p.publicationId = id ∧ p.pending = true ∧ (force = true ∨ p.due now = true) := by
  simp only [toProcess, List.mem_map, List.mem_insertionSort, List.mem_filter, Bool.and_eq_true,
    Bool.or_eq_true]
  constructor
  · rintro ⟨_, ⟨p, ⟨hp, hpending, hdue⟩, rfl⟩, rfl⟩
    exact ⟨p, hp, rfl, hpending, hdue⟩
  · rintro ⟨p, hp, rfl, hpending, hdue⟩
    exact ⟨_, ⟨p, ⟨hp, hpending, hdue⟩, rfl⟩, rfl⟩

omit [DecidableEq Oid] [DecidableEq Task] in
theorem Start.timed (h : Start w) (T : ℕ) : Everywhere (Publication.Timed T) w := by
  constructor
  · intro p hp
    rw [h.queue] at hp
    cases hp
  · intro task name p next hp
    rw [h.calls] at hp
    cases hp

/-- In every run, a publication that has failed is not attempted again by an ordinary pass before
one delay is over, and one delay after the last reading of the clock an ordinary pass goes through
everything that is pending. -/
theorem retries_are_timed {es : List (PublishEvent Oid Task)} (h0 : Start w)
    (hes : ∀ e ∈ es, ∀ now ∈ e.reading, now ≤ T) (hr : Runs.run (step G) w es = some w') :
    (∀ now, T + retryDelay ≤ now →
      toProcess false now w'.queue = toProcess true now w'.queue) ∧
    ∀ now, ∀ id ∈ toProcess false now w'.queue, ∃ p ∈ w'.queue, p.publicationId = id ∧
      ∀ error ∈ p.lastError, ∃ t, p.lastAttemptAt = some t ∧ t + retryDelay ≤ now := by
  have htimed : Everywhere (Publication.Timed T) w' :=
    Runs.run_invariant (fun _ _ _ h he hs => Everywhere.timed_step h he hs) (h0.timed T)
      (Runs.Steps.of_forall (fun e he _ => hes e he) _) hr
  refine ⟨fun now hnow => toProcess_of_timed htimed.1 hnow, fun now id hid => ?_⟩
  obtain ⟨p, hp, hpid, -, hdue⟩ := mem_toProcess.mp hid
  refine ⟨p, hp, hpid, fun error herror => ?_⟩
  obtain ⟨t, hlast, hnext⟩ := (htimed.1 p hp).spaced error herror
  rcases hdue with hforce | hdue
  · cases hforce
  · rw [Publication.due, hnext, Bool.and_eq_true, Option.all_some, decide_eq_true_eq] at hdue
    exact ⟨t, hlast, hdue.2⟩

/-- A commit is reported, and its delivery fails. -/
def failedDelivery (task : Fin 2) : List (PublishEvent ℕ (Fin 2)) :=
  .user (.commit "/work" 3) :: reportHead task "pub" 5 ++
    [.start true 6, .next, .load, .project, .fail "offline", .recordFailure 7, .noteFailure,
      .next].map .deliver

theorem retries_are_timed_after_failure :
    ∃ w, Runs.run (step pairGraph) currentMain (failedDelivery 0) = some w ∧
      (∀ now, 7 + retryDelay ≤ now →
        toProcess false now w.queue = toProcess true now w.queue) ∧
      ∀ now, ∀ id ∈ toProcess false now w.queue, ∃ p ∈ w.queue, p.publicationId = id ∧
        ∀ error ∈ p.lastError, ∃ t, p.lastAttemptAt = some t ∧ t + retryDelay ≤ now := by
  have hr : ∃ w, Runs.run (step pairGraph) currentMain (failedDelivery 0) = some w :=
    Option.isSome_iff_exists.mp (by decide +kernel)
  obtain ⟨w, hr⟩ := hr
  exact ⟨w, hr, retries_are_timed start_currentMain (by decide) hr⟩

end Times

end PublishWorld

end Resync
