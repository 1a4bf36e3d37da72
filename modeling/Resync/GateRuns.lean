import Resync.LeaseGate
import Resync.Lib.Runs

/-! Any number of tasks at one `LeaseGate`. Tickets are drawn and granted in
separate critical sections, and leases come and go between them. -/
namespace Resync

/-- Where a task stands in `begin_exclusive` and `end_exclusive`. -/
inductive Place where
  | outside
  | waiting (ticket : UInt64)
  | owner
deriving DecidableEq

structure Gate (Task : Type) where
  state : GateState
  place : Task → Place

inductive GateEvent (Task : Type) where
  | draw (task : Task)
  | enter (task : Task)
  | finish (task : Task)
  | activity (metadata : LeaseMetadata) (fresh : String)
  | release (id : String)
  | expire (id : String)

namespace Gate

variable {Task : Type}

def initial : Gate Task := ⟨.initial, fun _ => .outside⟩

/-- The tasks that drew a ticket, in the order of the draws. -/
def draws (es : List (GateEvent Task)) : List Task :=
  es.filterMap fun | .draw task => some task | _ => none

/-- The tasks that were granted ownership, in the order of the grants. -/
def grants (es : List (GateEvent Task)) : List Task :=
  es.filterMap fun | .enter task => some task | _ => none

/-- `ws` are the waiting tasks in queue order; the first of them drew the
ticket with number `first`, counted without wrapping. -/
structure Queued (g : Gate Task) (first : ℕ) (ws : List Task) : Prop where
  queue : g.state.exclusiveQueue =
    (List.range ws.length).map fun i => UInt64.ofNat (first + i)
  next : g.state.nextExclusive = UInt64.ofNat (first + ws.length)
  place : ∀ i (h : i < ws.length), g.place ws[i] = .waiting (UInt64.ofNat (first + i))
  only : ∀ task ticket, g.place task = .waiting ticket → task ∈ ws
  nodup : ws.Nodup
  bound : ws.length ≤ 2^64

/-- The flag is up exactly while one task owns the gate, and then no lease is
live. -/
structure Owned (g : Gate Task) : Prop where
  free : g.state.exclusive = false → ∀ task, g.place task ≠ .owner
  held : g.state.exclusive = true →
    g.state.leases = ∅ ∧ ∃! task, g.place task = .owner

theorem queued_initial : Queued (initial : Gate Task) 0 [] where
  queue := rfl
  next := rfl
  place i h := absurd h (Nat.not_lt_zero i)
  only task ticket h := by cases h
  nodup := List.nodup_nil
  bound := Nat.zero_le _

theorem owned_initial : Owned (initial : Gate Task) where
  free _ task h := by cases h
  held h := by cases h

/-- Ticket numbers that are less than `2^64` apart wrap to different tickets. -/
theorem ticket_injective (first : ℕ) {i j : ℕ} (hi : i < 2^64) (hj : j < 2^64)
    (h : UInt64.ofNat (first + i) = UInt64.ofNat (first + j)) : i = j := by
  have hn := congrArg UInt64.toNat h
  simp only [UInt64.toNat_ofNat'] at hn
  omega

/-- Steps that leave the queue and the places alone keep the waiting tasks. -/
theorem Queued.congr {g g' : Gate Task} {first : ℕ} {ws : List Task} (h : Queued g first ws)
    (hq : g'.state.exclusiveQueue = g.state.exclusiveQueue)
    (hn : g'.state.nextExclusive = g.state.nextExclusive)
    (hp : ∀ task ticket, g'.place task = .waiting ticket ↔ g.place task = .waiting ticket) :
    Queued g' first ws where
  queue := hq.trans h.queue
  next := hn.trans h.next
  place i hi := (hp _ _).mpr (h.place i hi)
  only task ticket ht := h.only task ticket ((hp task ticket).mp ht)
  nodup := h.nodup
  bound := h.bound

theorem Queued.not_mem {g : Gate Task} {first : ℕ} {ws : List Task} (h : Queued g first ws)
    {task : Task} (ht : ∀ ticket, g.place task ≠ .waiting ticket) : task ∉ ws := by
  intro hm
  obtain ⟨i, hi, rfl⟩ := List.getElem_of_mem hm
  exact ht _ (h.place i hi)

/-- The task that finds its ticket at the front is the one that waits longest. -/
theorem Queued.head {g : Gate Task} {first : ℕ} {ws : List Task} (h : Queued g first ws)
    {task : Task} {ticket : UInt64} (ht : g.place task = .waiting ticket)
    (hf : g.state.exclusiveQueue.head? = some ticket) : ∃ rest, ws = task :: rest := by
  obtain ⟨i, hi, he⟩ := List.getElem_of_mem (h.only task ticket ht)
  have hticket : UInt64.ofNat (first + i) = ticket := by
    have hp := h.place i hi
    rw [he, ht] at hp
    exact (Place.waiting.inj hp).symm
  cases ws with
  | nil => exact absurd hi (Nat.not_lt_zero i)
  | cons w rest =>
    have hfront : UInt64.ofNat (first + 0) = ticket := by
      rw [h.queue] at hf
      simpa only [List.length_cons, List.range_succ_eq_map, List.map_cons, List.head?_cons,
        Option.some.injEq] using hf
    have hb := h.bound
    have hzero : i = 0 :=
      ticket_injective first (by omega) (by decide) (hticket.trans hfront.symm)
    subst hzero
    exact ⟨rest, by rw [← he, List.getElem_cons_zero]⟩

theorem Owned.congr {g g' : Gate Task} (h : Owned g)
    (hx : g'.state.exclusive = g.state.exclusive)
    (hl : g.state.exclusive = true → g.state.leases = ∅ → g'.state.leases = ∅)
    (hp : ∀ task, g'.place task = .owner ↔ g.place task = .owner) : Owned g' where
  free hf task ht := h.free (hx.symm.trans hf) task ((hp task).mp ht)
  held he := by
    have hg : g.state.exclusive = true := hx.symm.trans he
    obtain ⟨hempty, hown⟩ := h.held hg
    refine ⟨hl hg hempty, ?_⟩
    simpa only [hp] using hown

/-- The grants so far are the first draws, and the remaining draws are the
waiting tasks in queue order. -/
def Ordered (es : List (GateEvent Task)) (g : Gate Task) : Prop :=
  ∃ ws, draws es = grants es ++ ws ∧ Queued g (grants es).length ws

/-- Events other than a draw and a grant leave both histories as they are. -/
theorem Ordered.of_quiet {es : List (GateEvent Task)} {e : GateEvent Task} {g g' : Gate Task}
    (h : Ordered es g) (hd : draws [e] = []) (hg : grants [e] = [])
    (hq : g'.state.exclusiveQueue = g.state.exclusiveQueue)
    (hn : g'.state.nextExclusive = g.state.nextExclusive)
    (hp : ∀ task ticket, g'.place task = .waiting ticket ↔ g.place task = .waiting ticket) :
    Ordered (es ++ [e]) g' := by
  obtain ⟨ws, hws, hqueued⟩ := h
  have hd' : draws (es ++ [e]) = draws es := by
    rw [draws, List.filterMap_append, ← draws, ← draws, hd, List.append_nil]
  have hg' : grants (es ++ [e]) = grants es := by
    rw [grants, List.filterMap_append, ← grants, ← grants, hg, List.append_nil]
  refine ⟨ws, ?_, ?_⟩
  · rw [hd', hg', hws]
  · rw [hg']
    exact hqueued.congr hq hn hp

theorem owned_activity {g : Gate Task} {metadata : LeaseMetadata} {fresh id : String}
    {s : GateState} (h : Owned g) (hs : g.state.activity metadata fresh = some (id, s)) :
    Owned ⟨s, g.place⟩ := by
  obtain ⟨hx, hx', -⟩ := GateState.activity_eq_some hs
  refine h.congr (hx'.trans hx.symm) (fun hf => ?_) fun _ => Iff.rfl
  rw [hx] at hf
  cases hf

theorem owned_release {g : Gate Task} (id : String) (h : Owned g) :
    Owned ⟨(g.state.release id).2, g.place⟩ :=
  h.congr (GateState.release_exclusive ..) (fun _ hl => GateState.release_leases_empty id hl)
    fun _ => Iff.rfl

variable [DecidableEq Task]

/-- One critical section of one task, or the firing of an expiry timer. -/
def step (g : Gate Task) : GateEvent Task → Option (Gate Task)
  | .draw task =>
    match g.place task with
    | .outside => some ⟨g.state.drawTicket,
        Function.update g.place task (.waiting g.state.nextExclusive)⟩
    | _ => none
  | .enter task =>
    match g.place task with
    | .waiting ticket =>
      (g.state.admitExclusive ticket).map fun s => ⟨s, Function.update g.place task .owner⟩
    | _ => none
  | .finish task =>
    match g.place task with
    | .owner => some ⟨g.state.endExclusive, Function.update g.place task .outside⟩
    | _ => none
  | .activity metadata fresh =>
    (g.state.activity metadata fresh).map fun r => ⟨r.2, g.place⟩
  | .release id => some ⟨(g.state.release id).2, g.place⟩
  | .expire id => some ⟨(g.state.release id).2, g.place⟩

theorem Queued.draw {g : Gate Task} {first : ℕ} {ws : List Task} (h : Queued g first ws)
    {task : Task} (ht : g.place task = .outside) (hb : g.state.exclusiveQueue.length < 2^64) :
    Queued ⟨g.state.drawTicket,
      Function.update g.place task (.waiting g.state.nextExclusive)⟩ first (ws ++ [task]) := by
  have hnew : task ∉ ws := h.not_mem fun ticket hw => by rw [ht] at hw; cases hw
  constructor
  · simp only [GateState.drawTicket, List.length_append, List.length_singleton,
      List.range_succ, List.map_append, List.map_singleton, h.queue, h.next]
  · simp only [GateState.drawTicket, List.length_append, List.length_singleton, h.next]
    rw [← Nat.add_assoc, UInt64.ofNat_add, UInt64.ofNat_add, UInt64.ofNat_add]
    rfl
  · intro i hi
    by_cases hlt : i < ws.length
    · have hne : ws[i] ≠ task := fun he => hnew (he ▸ List.getElem_mem hlt)
      simp only [List.getElem_append_left hlt, Function.update_of_ne hne, h.place i hlt]
    · have hi' : i = ws.length := by
        rw [List.length_append, List.length_singleton] at hi
        omega
      subst hi'
      simp only [List.getElem_concat_length, Function.update_self, h.next]
  · intro t ticket hw
    by_cases he : t = task
    · exact List.mem_append_right _ (List.mem_singleton.mpr he)
    · have hw' : g.place t = .waiting ticket := by simpa only [Function.update_of_ne he] using hw
      exact List.mem_append_left _ (h.only t ticket hw')
  · exact List.nodup_append.mpr ⟨h.nodup, List.nodup_singleton _, fun a ha b hb he => by
      rw [List.mem_singleton.mp hb] at he
      exact hnew (he ▸ ha)⟩
  · rw [h.queue, List.length_map, List.length_range] at hb
    rw [List.length_append, List.length_singleton]
    omega

theorem Queued.grant {g : Gate Task} {first : ℕ} {task : Task} {rest : List Task}
    (h : Queued g first (task :: rest)) :
    Queued ⟨{ g.state with exclusiveQueue := g.state.exclusiveQueue.tail, exclusive := true },
      Function.update g.place task .owner⟩ (first + 1) rest := by
  have hnew : task ∉ rest := (List.nodup_cons.mp h.nodup).1
  constructor
  · rw [h.queue, List.length_cons, List.range_succ_eq_map, List.map_cons, List.tail_cons,
      List.map_map]
    refine List.map_congr_left fun i _ => ?_
    simp only [Function.comp_apply, Nat.succ_eq_add_one]
    congr 1
    omega
  · rw [h.next, List.length_cons]
    congr 1
    omega
  · intro i hi
    have hne : rest[i] ≠ task := fun he => hnew (he ▸ List.getElem_mem hi)
    have hp := h.place (i + 1) (by rw [List.length_cons]; omega)
    rw [List.getElem_cons_succ] at hp
    simp only [Function.update_of_ne hne, hp]
    congr 2
    omega
  · intro t ticket hw
    by_cases he : t = task
    · simp only [he, Function.update_self] at hw
      cases hw
    · simp only [Function.update_of_ne he] at hw
      exact (List.mem_cons.mp (h.only t ticket hw)).resolve_left he
  · exact (List.nodup_cons.mp h.nodup).2
  · have hb := h.bound
    rw [List.length_cons] at hb
    omega

theorem owned_draw {g : Gate Task} {task : Task} (h : Owned g) (ht : g.place task = .outside) :
    Owned ⟨g.state.drawTicket,
      Function.update g.place task (.waiting g.state.nextExclusive)⟩ := by
  refine h.congr rfl (fun _ hl => hl) fun t => ?_
  by_cases he : t = task
  · subst he
    simp only [Function.update_self, ht, reduceCtorEq]
  · simp only [Function.update_of_ne he]

theorem owned_grant {g : Gate Task} {task : Task} {ticket : UInt64} {s : GateState}
    (h : Owned g) (hs : g.state.admitExclusive ticket = some s) :
    Owned ⟨s, Function.update g.place task .owner⟩ := by
  obtain ⟨hfree, hempty, -, rfl⟩ := GateState.admitExclusive_eq_some hs
  constructor
  · intro hf
    cases hf
  · intro _
    refine ⟨hempty, task, Function.update_self .., fun t hown => ?_⟩
    by_contra hne
    simp only [Function.update_of_ne hne] at hown
    exact h.free hfree t hown

theorem owned_finish {g : Gate Task} {task : Task} (h : Owned g) (ht : g.place task = .owner) :
    Owned ⟨g.state.endExclusive, Function.update g.place task .outside⟩ := by
  have hx : g.state.exclusive = true := by
    by_contra hf
    exact h.free (by simpa only [Bool.not_eq_true] using hf) task ht
  obtain ⟨-, hunique⟩ := h.held hx
  constructor
  · intro _ t hown
    by_cases he : t = task
    · subst he
      simp only [Function.update_self, reduceCtorEq] at hown
    · simp only [Function.update_of_ne he] at hown
      exact he (hunique.unique hown ht)
  · intro hf
    cases hf

/-- Every critical section keeps the meaning of the flag. -/
theorem owned_step {g g' : Gate Task} {e : GateEvent Task} (h : Owned g)
    (hs : g.step e = some g') : Owned g' := by
  cases e with
  | draw task =>
    simp only [step] at hs
    split at hs
    · next ht =>
      obtain rfl := Option.some.inj hs
      exact owned_draw h ht
    · cases hs
  | enter task =>
    simp only [step] at hs
    split at hs
    · obtain ⟨s, hadmit, rfl⟩ := Option.map_eq_some_iff.mp hs
      exact owned_grant h hadmit
    · cases hs
  | finish task =>
    simp only [step] at hs
    split at hs
    · next ht =>
      obtain rfl := Option.some.inj hs
      exact owned_finish h ht
    · cases hs
  | activity metadata fresh =>
    obtain ⟨⟨id, s⟩, hadmit, rfl⟩ := Option.map_eq_some_iff.mp hs
    exact owned_activity h hadmit
  | release id =>
    obtain rfl := Option.some.inj hs
    exact owned_release id h
  | expire id =>
    obtain rfl := Option.some.inj hs
    exact owned_release id h

theorem ordered_draw {es : List (GateEvent Task)} {g : Gate Task} {task : Task}
    (h : Ordered es g) (ht : g.place task = .outside)
    (hb : g.state.exclusiveQueue.length < 2^64) :
    Ordered (es ++ [.draw task]) ⟨g.state.drawTicket,
      Function.update g.place task (.waiting g.state.nextExclusive)⟩ := by
  obtain ⟨ws, hws, hqueued⟩ := h
  have hg : grants (es ++ [GateEvent.draw task]) = grants es := by
    simp only [grants, List.filterMap_append, List.filterMap_cons, List.filterMap_nil,
      List.append_nil]
  refine ⟨ws ++ [task], ?_, ?_⟩
  · simp only [draws, grants, List.filterMap_append] at hws ⊢
    simp only [hws, List.filterMap_cons, List.filterMap_nil, List.append_nil, List.append_assoc]
  · rw [hg]
    exact hqueued.draw ht hb

theorem ordered_grant {es : List (GateEvent Task)} {g : Gate Task} {task : Task}
    {ticket : UInt64} {s : GateState} (h : Ordered es g) (ht : g.place task = .waiting ticket)
    (hs : g.state.admitExclusive ticket = some s) :
    Ordered (es ++ [.enter task]) ⟨s, Function.update g.place task .owner⟩ := by
  obtain ⟨ws, hws, hqueued⟩ := h
  obtain ⟨-, -, hfront, rfl⟩ := GateState.admitExclusive_eq_some hs
  obtain ⟨rest, rfl⟩ := hqueued.head ht hfront
  have hd : draws (es ++ [GateEvent.enter task]) = draws es := by
    simp only [draws, List.filterMap_append, List.filterMap_cons, List.filterMap_nil,
      List.append_nil]
  have hg : grants (es ++ [GateEvent.enter task]) = grants es ++ [task] := by
    simp only [grants, List.filterMap_append, List.filterMap_cons, List.filterMap_nil]
  refine ⟨rest, ?_, ?_⟩
  · rw [hd, hg, hws, List.append_assoc, List.singleton_append]
  · rw [hg, List.length_append, List.length_singleton]
    exact hqueued.grant

/-- Every critical section keeps the order of the queue. -/
theorem ordered_step {es : List (GateEvent Task)} {g g' : Gate Task} {e : GateEvent Task}
    (h : Ordered es g) (hb : g.state.exclusiveQueue.length < 2^64) (hs : g.step e = some g') :
    Ordered (es ++ [e]) g' := by
  cases e with
  | draw task =>
    simp only [step] at hs
    split at hs
    · next ht =>
      obtain rfl := Option.some.inj hs
      exact ordered_draw h ht hb
    · cases hs
  | enter task =>
    simp only [step] at hs
    split at hs
    · next ticket ht =>
      obtain ⟨s, hadmit, rfl⟩ := Option.map_eq_some_iff.mp hs
      exact ordered_grant h ht hadmit
    · cases hs
  | finish task =>
    simp only [step] at hs
    split at hs
    · next ht =>
      obtain rfl := Option.some.inj hs
      refine h.of_quiet rfl rfl rfl rfl fun t ticket => ?_
      by_cases he : t = task
      · subst he
        simp only [Function.update_self, ht, reduceCtorEq]
      · simp only [Function.update_of_ne he]
    · cases hs
  | activity metadata fresh =>
    obtain ⟨⟨id, s⟩, hadmit, rfl⟩ := Option.map_eq_some_iff.mp hs
    obtain ⟨-, -, hn, hq, -⟩ := GateState.activity_eq_some hadmit
    exact h.of_quiet rfl rfl hq hn fun _ _ => Iff.rfl
  | release id =>
    obtain rfl := Option.some.inj hs
    exact h.of_quiet rfl rfl (GateState.release_exclusiveQueue ..)
      (GateState.release_nextExclusive ..) fun _ _ => Iff.rfl
  | expire id =>
    obtain rfl := Option.some.inj hs
    exact h.of_quiet rfl rfl (GateState.release_exclusiveQueue ..)
      (GateState.release_nextExclusive ..) fun _ _ => Iff.rfl

theorem ordered_of_run {es : List (GateEvent Task)} {g : Gate Task}
    (hfew : Runs.Steps step (fun g _ => g.state.exclusiveQueue.length < 2^64) initial es)
    (hrun : Runs.run step initial es = some g) : Ordered es g := by
  have hstep : ∀ es (g : Gate Task) e g', Ordered es g →
      g.state.exclusiveQueue.length < 2^64 → step g e = some g' → Ordered (es ++ [e]) g' :=
    fun es g e g' h hb hs => ordered_step h hb hs
  exact Runs.run_history hstep ⟨[], rfl, queued_initial⟩ hfew hrun

theorem owned_of_run {es : List (GateEvent Task)} {g : Gate Task}
    (hfew : Runs.Steps step (fun g _ => g.state.exclusiveQueue.length < 2^64) initial es)
    (hrun : Runs.run step initial es = some g) : Owned g :=
  Runs.run_invariant (fun _ _ _ h _ hs => owned_step h hs) owned_initial hfew hrun

/-- Exclusive ownership is granted in the order of the tickets, each ticket
once and none skipped: the grants are the first draws and the other draws are
exactly the tasks that still wait. While the flag is up no lease is live and
exactly one granted owner has not ended. The ticket counter may wrap. -/
theorem exclusive_owners_are_serialized (es : List (GateEvent Task)) (g : Gate Task)
    (hfew : Runs.Steps step (fun g _ => g.state.exclusiveQueue.length < 2^64) initial es)
    (hrun : Runs.run step initial es = some g) :
    (g.state.exclusive = true → g.state.leases = ∅ ∧ ∃! task, g.place task = .owner) ∧
    ∃ waiting : List Task, draws es = grants es ++ waiting ∧ waiting.Nodup ∧
      ∀ task, task ∈ waiting ↔ ∃ ticket, g.place task = .waiting ticket := by
  obtain ⟨ws, hws, hqueued⟩ := ordered_of_run hfew hrun
  refine ⟨(owned_of_run hfew hrun).held, ws, hws, hqueued.nodup, fun task => ⟨fun hm => ?_, ?_⟩⟩
  · obtain ⟨i, hi, rfl⟩ := List.getElem_of_mem hm
    exact ⟨_, hqueued.place i hi⟩
  · rintro ⟨ticket, ht⟩
    exact hqueued.only task ticket ht

/-- Two tasks draw tickets behind a live lease; the first one owns the gate
after the lease ended. -/
theorem exclusive_owners_are_serialized_two :
    let es : List (GateEvent ℕ) := [.activity ⟨none, none⟩ "lease", .draw 0, .draw 1,
      .release "lease", .enter 0]
    ∃ g, Runs.run step initial es = some g ∧ g.state.exclusive = true ∧
      (g.state.leases = ∅ ∧ ∃! task, g.place task = .owner) ∧
      ∃ waiting : List ℕ, draws es = grants es ++ waiting ∧ waiting.Nodup ∧
        ∀ task, task ∈ waiting ↔ ∃ ticket, g.place task = .waiting ticket := by
  intro es
  refine ⟨_, rfl, rfl, ?_⟩
  have h := exclusive_owners_are_serialized es _ (by decide) rfl
  exact ⟨h.1 rfl, h.2⟩

end Gate

end Resync
