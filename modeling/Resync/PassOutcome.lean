import Mathlib.Data.Fintype.Option
import Resync.PassSteps

/-! What a forced pass leaves of a branch: nothing, exactly when the branch is checked
out or one of its youngest publications can be delivered as it was queued. -/
namespace Resync

variable {Oid Task : Type}

namespace OwnBranch

variable {o : OwnBranch}

section Start

variable {w : PublishWorld Oid Task}

theorem mem_toProcess (now : ℕ) {q : Publication Oid} (hq : q ∈ w.queue)
    (hpending : q.pending = true) :
    q.publicationId ∈ PublicationQueue.toProcess true now w.queue := by
  refine List.mem_map.mpr ⟨(q.createdAt, q.publicationId), ?_, rfl⟩
  rw [List.mem_insertionSort]
  refine List.mem_map.mpr ⟨q, List.mem_filter.mpr ⟨hq, ?_⟩, rfl⟩
  rw [hpending]
  rfl

/-- The pass goes from the youngest publications to the oldest. -/
theorem sorted_toProcess (hids : w.DistinctIds) (now : ℕ) :
    (PublicationQueue.toProcess true now w.queue).Pairwise fun i j =>
      ∀ p ∈ w.queue, ∀ q ∈ w.queue, p.publicationId = i → q.publicationId = j →
        q.createdAt ≤ p.createdAt := by
  have htotal : Std.Total fun l r : ℕ × String => r.1 ≤ l.1 := ⟨fun l r => Nat.le_total r.1 l.1⟩
  have htrans : IsTrans (ℕ × String) fun l r => r.1 ≤ l.1 := ⟨fun _ _ _ h h' => h'.trans h⟩
  have hsort := List.pairwise_insertionSort (fun l r : ℕ × String => r.1 ≤ l.1)
    ((w.queue.filter fun p => p.pending && (true || p.due now)).map fun p =>
      (p.createdAt, p.publicationId))
  rw [PublicationQueue.toProcess, List.pairwise_map]
  refine hsort.imp_of_mem fun {x y} hx hy hle p hp q hq hpid hqid => ?_
  have hcreated : ∀ z ∈ ((w.queue.filter fun p => p.pending && (true || p.due now)).map fun p =>
      (p.createdAt, p.publicationId)), ∀ r ∈ w.queue, r.publicationId = z.2 →
        r.createdAt = z.1 := by
    intro z hz r hr hrz
    obtain ⟨s, hs, rfl⟩ := List.mem_map.mp hz
    rw [hids.unique hr (List.mem_filter.mp hs).1 hrz]
  rw [List.mem_insertionSort] at hx hy
  rw [hcreated x hx p hp hpid, hcreated y hy q hq hqid]
  exact hle

end Start

section Pass

variable [DecidableEq Oid] [DecidableEq Task] {G : CommitGraph Oid}
  {w v w' : DaemonWorld Oid Task}

/-- No operation is in progress. -/
structure Quiet (w : DaemonWorld Oid Task) : Prop where
  delivery : w.publish.delivery = .idle
  calls : ∀ task, w.publish.calls task = .idle
  reconciling : ∀ task, w.reconciling task = .idle

theorem start_eq_some {now : ℕ} (h : Quiet w)
    (hs : w.step G (.publish (.deliver (.start true now))) = some v) :
    v = w.setPublish (w.publish.setDelivery
      (.pass (PublicationQueue.toProcess true now w.publish.queue))) := by
  obtain ⟨u, hu, rfl⟩ : ∃ u, w.publish.deliver G (.start true now) = some u ∧
      w.setPublish u = v := Option.map_eq_some_iff.mp hs
  simp only [PublishWorld.deliver, h.delivery] at hu
  rw [← Option.some.inj hu]

theorem Passing.start {now : ℕ} (h : Quiet w) (hrooted : o.Rooted G w.publish)
    (hs : w.step G (.publish (.deliver (.start true now))) = some v) : o.Passing G v := by
  obtain rfl := start_eq_some h hs
  refine ⟨⟨⟨hrooted.ids.ids, hrooted.ids.issued, hrooted.ids.created, hrooted.ids.apart⟩,
    hrooted.known, hrooted.hosted, hrooted.queue, fun p hp => (by cases hp)⟩,
    fun a ha => (by cases ha), fun c hc => (by cases hc), fun a ha => (by cases ha),
    fun _ => h.reconciling none, sorted_toProcess hrooted.ids now⟩

/-- What the pass is about to do, when it has started. -/
theorem start_hopes {now : ℕ} (h : Quiet w)
    (hs : w.step G (.publish (.deliver (.start true now))) = some v) :
    (o.Ready G w.publish → o.Hopes G v.publish) ∧
      (¬ o.Ready G w.publish → o.Stuck G v.publish) := by
  obtain rfl := start_eq_some h hs
  constructor
  · rintro (hnone | ⟨q, hyoungest, hsucceeds⟩)
    · exact Or.inl hnone
    · obtain ⟨hqueue, hpending, -⟩ := mem_waiting.mp hyoungest.1
      exact Or.inr ⟨q, hyoungest, hsucceeds, mem_toProcess now hqueue hpending⟩
  · intro hnot
    have hsome : o.waiting w.publish ≠ [] := fun hnone => hnot (Or.inl hnone)
    refine ⟨youngest_of_waiting hsome, fun q hyoungest _ hsucceeds => ?_⟩
    exact hnot (Or.inr ⟨q, hyoungest, hsucceeds⟩)

/-- What a pass keeps from its start to its end. -/
theorem pass_invariant {P : PublishWorld Oid Task → Prop}
    (hP : ∀ u u', u.DistinctIds → Sorted u → o.PassEffect G u u' → P u → P u')
    {ps : List (DaemonEvent Oid Task)} (h : o.Passing G v) (hv : P v.publish)
    (hok : Runs.Steps (DaemonWorld.step G) (fun w e => o.inPass w e = true) v ps)
    (htop : Runs.Steps (DaemonWorld.step G) (o.OnTop G) v ps)
    (hr : Runs.run (DaemonWorld.step G) v ps = some w') : P w'.publish := by
  have hstep : ∀ (w : DaemonWorld Oid Task) e w', (o.Passing G w ∧ P w.publish) →
      (o.inPass w e = true ∧ o.OnTop G w e) → w.step G e = some w' →
      o.Passing G w' ∧ P w'.publish := by
    rintro w e w' ⟨hpassing, hw⟩ ⟨hok, htop⟩ hs
    obtain ⟨heffect, hnext⟩ := hpassing.step hok htop hs
    exact ⟨hnext, hP _ _ hpassing.rooted.ids hpassing.sorted heffect hw⟩
  exact (Runs.run_invariant hstep ⟨h, hv⟩ (hok.and htop) hr).2

/-- Where a branch is only advanced by the queue of its checkout, a forced pass that is
over has left nothing of it pending, exactly when the branch is checked out or one of
its youngest publications can be delivered as it was queued. -/
theorem forced_pass_empties_branch_iff {publish : PublishWorld Oid Task} (hstart : publish.Start)
    (hknown : o.Known publish) (hhosted : ∀ r ∈ o.hostedHead publish, o.Covers G publish r)
    {es ps : List (DaemonEvent Oid Task)} {now : ℕ}
    (htop : Runs.Steps (DaemonWorld.step G) (o.OnTop G) (.initial publish) es)
    (hr : Runs.run (DaemonWorld.step G) (.initial publish) es = some w) (hquiet : Quiet w)
    (hs : w.step G (.publish (.deliver (.start true now))) = some v)
    (htop' : Runs.Steps (DaemonWorld.step G) (o.OnTop G) v ps)
    (hok : Runs.Steps (DaemonWorld.step G) (fun w e => o.inPass w e = true) v ps)
    (hr' : Runs.run (DaemonWorld.step G) v ps = some w')
    (hend : w'.publish.delivery = .idle) :
    (∀ q ∈ w'.publish.queue, o.owns q = true → q.pending = false) ↔ o.Ready G w.publish := by
  have hstep : ∀ (w : DaemonWorld Oid Task) e w', o.Rooted G w.publish → o.OnTop G w e →
      w.step G e = some w' → o.Rooted G w'.publish := fun w e w' h htop hs => h.step htop hs
  have hrooted : o.Rooted G w.publish :=
    Runs.run_invariant hstep (rooted_start hstart hknown hhosted) htop hr
  have hpassing : o.Passing G v := Passing.start hquiet hrooted hs
  obtain ⟨hhopes, hstuck⟩ := start_hopes (o := o) hquiet hs
  have hempty : (∀ q ∈ w'.publish.queue, o.owns q = true → q.pending = false) ↔
      o.waiting w'.publish = [] := by
    rw [waiting, List.filter_eq_nil_iff]
    refine forall₂_congr fun q _ => ?_
    rw [Bool.and_eq_true, not_and, Bool.not_eq_true]
    cases q.pending <;> cases o.owns q <;> decide
  rw [hempty]
  constructor
  · intro hnone
    by_contra hnot
    have hleft : o.Stuck G w'.publish :=
      pass_invariant (fun _ _ hids hsorted heffect h => h.step hids hsorted heffect) hpassing
        (hstuck hnot) hok htop' hr'
    obtain ⟨⟨q, hq, -⟩, -⟩ := hleft
    rw [hnone] at hq
    cases hq
  · intro hready
    have hleft : o.Hopes G w'.publish :=
      pass_invariant (fun _ _ hids hsorted heffect h => h.step hids hsorted heffect) hpassing
        (hhopes hready) hok htop' hr'
    rcases hleft with hnone | ⟨q, -, -, hid⟩
    · exact hnone
    · rw [hend] at hid
      cases hid

end Pass

end OwnBranch

section Idle

def Delivery.isIdle : Delivery Oid → Bool
  | .idle => true
  | _ => false

def Call.isIdle : Call Oid → Bool
  | .idle => true
  | _ => false

def Reconciliation.isIdle : Reconciliation Oid → Bool
  | .idle => true
  | _ => false

theorem Delivery.eq_idle {d : Delivery Oid} (h : d.isIdle = true) : d = .idle := by
  cases d with
  | idle => rfl
  | _ => cases h

theorem Call.eq_idle {c : Call Oid} (h : c.isIdle = true) : c = .idle := by
  cases c with
  | idle => rfl
  | _ => cases h

theorem Reconciliation.eq_idle {r : Reconciliation Oid} (h : r.isIdle = true) : r = .idle := by
  cases r with
  | idle => rfl
  | _ => cases h

/-- `OwnBranch.Quiet` as a test. -/
def DaemonWorld.IsQuiet (w : DaemonWorld Oid Task) : Prop :=
  w.publish.delivery.isIdle = true ∧ (∀ task, (w.publish.calls task).isIdle = true) ∧
    ∀ task, (w.reconciling task).isIdle = true

instance [Fintype Task] (w : DaemonWorld Oid Task) : Decidable w.IsQuiet :=
  inferInstanceAs (Decidable (_ ∧ _ ∧ _))

theorem DaemonWorld.IsQuiet.quiet {w : DaemonWorld Oid Task} (h : w.IsQuiet) :
    OwnBranch.Quiet w where
  delivery := Delivery.eq_idle h.1
  calls task := Call.eq_idle (h.2.1 task)
  reconciling task := Reconciliation.eq_idle (h.2.2 task)

end Idle

section OneProject

open OwnBranch

def mainBranch : OwnBranch := ⟨"prj", "/work", "host/prj", "main"⟩

def ackOf (id : String) (attempt accepted : ℕ) : PublicationAck ℕ :=
  ⟨id, attempt, "prj", "main", accepted, accepted, 0, true⟩

/-- The first commit is pushed by a pass that ends after the second one is queued, so
that the second publication expects a head that the branch no longer has. -/
def overtaken (task : Fin 2) : List (PublishEvent ℕ (Fin 2)) :=
  .user (.commit "/work" 3) :: reportHead task "pub" 5 ++ .deliver (.start false 5) ::
    .user (.commit "/work" 7) :: reportHead task "next" 6 ++ [.deliver .next, .deliver .load,
      .deliver .project, .deliver .fetch, .deliver .validate, .deliver (.push true),
      .deliver .confirm, .deliver (.acknowledge 7 (.acknowledged (ackOf "pub" 1 3))),
      .deliver (.complete 7), .deliver .recordCompletion, .deliver .deleteRef,
      .deliver .deleteRef, .deliver .next]

def overtakenQueue (task : Fin 2) : List (DaemonEvent ℕ (Fin 2)) :=
  (overtaken task).map .publish

/-- The rest of a forced pass in which the delivery stops at the inactive branch. -/
def inactiveDelivery (now : ℕ) : List (DeliveryEvent ℕ) :=
  [.next, .load, .project, .fetch, .checkBranch, .recordFailure now, .noteFailure, .next]

def inactivePass (now : ℕ) : List (DaemonEvent ℕ (Fin 2)) :=
  (inactiveDelivery now).map fun e => .publish (.deliver e)

def behindDelivery : List (DeliveryEvent ℕ) := [.next, .load, .project, .fetch, .checkBranch]

def refreshed : List (ReconcileEvent ℕ) :=
  [.deliver, .stage, .locate, .prepare true .failed, .merge true, .answer ""]

def retargetedDelivery (now : ℕ) : List (DeliveryEvent ℕ) :=
  [.readHead, .retarget now, .load, .project, .fetch, .validate, .push true, .confirm,
    .acknowledge now (.acknowledged (ackOf "next" 2 7)), .complete now, .recordCompletion,
    .deleteRef, .deleteRef, .next]

/-- The rest of a forced pass that targets the branch anew. -/
def activePass (now : ℕ) : List (DaemonEvent ℕ (Fin 2)) :=
  (behindDelivery.map fun e => .publish (.deliver e)) ++ refreshed.map (.reconcile none) ++
    (retargetedDelivery now).map fun e => .publish (.deliver e)

theorem known_currentMain : mainBranch.Known currentMain :=
  ⟨currentProject, rfl, rfl, rfl⟩

theorem hosted_currentMain :
    ∀ r ∈ mainBranch.hostedHead currentMain, mainBranch.Covers pairGraph currentMain r := by
  decide +kernel

/-- What the two runs are tested for: a quiet state, the start of a forced pass, and
whether the rest of the pass ends with a publication of the branch that waits. -/
def Passes (waits : Bool) (ps : List (DaemonEvent ℕ (Fin 2))) (w : DaemonWorld ℕ (Fin 2)) : Prop :=
  w.IsQuiet ∧ ∃ v ∈ w.step pairGraph (.publish (.deliver (.start true 9))),
    Runs.Steps (DaemonWorld.step pairGraph) (mainBranch.OnTop pairGraph) v ps ∧
    Runs.Steps (DaemonWorld.step pairGraph) (fun w e => mainBranch.inPass w e = true) v ps ∧
    ∃ w' ∈ Runs.run (DaemonWorld.step pairGraph) v ps, w'.publish.delivery.isIdle = true ∧
      (w'.publish.queue.any fun q => mainBranch.owns q && q.pending) = waits

instance (waits : Bool) (ps : List (DaemonEvent ℕ (Fin 2))) (w : DaemonWorld ℕ (Fin 2)) :
    Decidable (Passes waits ps w) :=
  inferInstanceAs (Decidable (_ ∧ ∃ v ∈ w.step pairGraph _, _ ∧ _ ∧ ∃ w' ∈ _, _ ∧ _))

/-- The local branch is left after the commits are queued. -/
def switchedQueue (task : Fin 2) : List (DaemonEvent ℕ (Fin 2)) :=
  overtakenQueue task ++ [.publish (.user (.switch "/work" "topic" none))]

/-- Each commit is on top of the last and only the queue moves the hosted branch, but
the forced pass leaves the second commit in the queue. -/
theorem inactive_branch_stays_pending : currentMain.Start ∧ mainBranch.Known currentMain ∧
    (∀ r ∈ mainBranch.hostedHead currentMain, mainBranch.Covers pairGraph currentMain r) ∧
    Runs.Steps (DaemonWorld.step pairGraph) (mainBranch.OnTop pairGraph) (.initial currentMain)
      (switchedQueue 0) ∧
    ∃ w v w', Runs.run (DaemonWorld.step pairGraph) (.initial currentMain) (switchedQueue 0) =
        some w ∧ Quiet w ∧
      w.step pairGraph (.publish (.deliver (.start true 9))) = some v ∧
      Runs.Steps (DaemonWorld.step pairGraph) (mainBranch.OnTop pairGraph) v (inactivePass 9) ∧
      Runs.Steps (DaemonWorld.step pairGraph) (fun w e => mainBranch.inPass w e = true) v
        (inactivePass 9) ∧
      Runs.run (DaemonWorld.step pairGraph) v (inactivePass 9) = some w' ∧
      w'.publish.delivery = .idle ∧
      ∃ q ∈ w'.publish.queue, mainBranch.owns q = true ∧ q.pending = true := by
  refine ⟨start_currentMain, known_currentMain, hosted_currentMain, by decide +kernel, ?_⟩
  have htest : ∃ w ∈ Runs.run (DaemonWorld.step pairGraph) (.initial currentMain)
      (switchedQueue 0), Passes true (inactivePass 9) w := by decide +kernel
  obtain ⟨w, hw, hquiet, v, hv, htop, hok, w', hw', hidle, hleft⟩ := htest
  obtain ⟨q, hq, hkept⟩ := List.any_eq_true.mp hleft
  rw [Bool.and_eq_true] at hkept
  exact ⟨w, v, w', hw, hquiet.quiet, hv, htop, hok, hw', Delivery.eq_idle hidle, q, hq, hkept⟩

theorem forced_pass_empties_branch_one : ∃ w v w',
    Runs.run (DaemonWorld.step pairGraph) (.initial currentMain) (overtakenQueue 0) = some w ∧
    w.step pairGraph (.publish (.deliver (.start true 9))) = some v ∧
    Runs.run (DaemonWorld.step pairGraph) v (activePass 9) = some w' ∧
    (∀ q ∈ w'.publish.queue, mainBranch.owns q = true → q.pending = false) ∧
    ((∀ q ∈ w'.publish.queue, mainBranch.owns q = true → q.pending = false) ↔
      mainBranch.Ready pairGraph w.publish) := by
  have htest : ∃ w ∈ Runs.run (DaemonWorld.step pairGraph) (.initial currentMain)
      (overtakenQueue 0), Passes false (activePass 9) w := by decide +kernel
  obtain ⟨w, hw, hquiet, v, hv, htop, hok, w', hw', hidle, hleft⟩ := htest
  refine ⟨w, v, w', hw, hv, hw', fun q hq hown => ?_, ?_⟩
  · have hkept := List.any_eq_false.mp hleft q hq
    rw [hown, Bool.true_and, Bool.not_eq_true] at hkept
    exact hkept
  · exact forced_pass_empties_branch_iff start_currentMain known_currentMain hosted_currentMain
      (by decide +kernel) hw hquiet.quiet hv htop hok hw' (Delivery.eq_idle hidle)

end OneProject

end Resync
