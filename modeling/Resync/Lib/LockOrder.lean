import Mathlib.Algebra.BigOperators.Group.Finset.Basic
import Mathlib.Algebra.Order.BigOperators.Group.Finset
import Mathlib.Data.Finset.Max
import Resync.Lib.Runs

/-! Tasks that hold locks for the time of a block. Where every task takes its locks in the order
of their ranks, some task can always go on, and in the end all of them are done. -/
namespace Locks

variable {L Task : Type}

/-- What a task does to the locks. -/
inductive Op (L : Type) where
  | acquire (l : L)
  | release (l : L)
  /-- The task waits until nobody holds the lock. If the share is new, then the lock can not be
  held until it is over, and that is not up to the task. -/
  | share (l : L) (fresh : Bool)
deriving DecidableEq

/-- The locks of a program whose commands may fail. -/
inductive Program (L : Type) where
  | skip
  | hold (l : L) (body : Program L)
  | share (l : L) (fresh : Bool)
  | seq (p q : Program L)
  | choice (p q : Program L)
  | loop (p : Program L)
  | rescue (p handler : Program L)

/-- What an execution does to the locks, and whether it succeeds. A failure leaves all blocks up
to the next `rescue`, and a block gives its lock back however it is left. -/
inductive Exec : Program L → List (Op L) → Bool → Prop
  | skip : Exec .skip [] true
  | fails (p : Program L) : Exec p [] false
  | hold {l : L} {p : Program L} {ops : List (Op L)} {ok : Bool} (body : Exec p ops ok) :
      Exec (.hold l p) (.acquire l :: (ops ++ [.release l])) ok
  | share (l : L) (fresh : Bool) : Exec (.share l fresh) [.share l fresh] true
  | seq {p q : Program L} {ops rest : List (Op L)} {ok : Bool} (first : Exec p ops true)
      (second : Exec q rest ok) : Exec (.seq p q) (ops ++ rest) ok
  | seqFails {p q : Program L} {ops : List (Op L)} (first : Exec p ops false) :
      Exec (.seq p q) ops false
  | left {p q : Program L} {ops : List (Op L)} {ok : Bool} (chosen : Exec p ops ok) :
      Exec (.choice p q) ops ok
  | right {p q : Program L} {ops : List (Op L)} {ok : Bool} (chosen : Exec q ops ok) :
      Exec (.choice p q) ops ok
  | stops (p : Program L) : Exec (.loop p) [] true
  | again {p : Program L} {ops rest : List (Op L)} {ok : Bool} (first : Exec p ops true)
      (others : Exec (.loop p) rest ok) : Exec (.loop p) (ops ++ rest) ok
  | loopFails {p : Program L} {ops : List (Op L)} (first : Exec p ops false) :
      Exec (.loop p) ops false
  | succeeds {p handler : Program L} {ops : List (Op L)} (body : Exec p ops true) :
      Exec (.rescue p handler) ops true
  | rescued {p handler : Program L} {ops rest : List (Op L)} {ok : Bool}
      (body : Exec p ops false) (after : Exec handler rest ok) :
      Exec (.rescue p handler) (ops ++ rest) ok

section Order

variable (rank : L → ℕ)

/-- The locks that are taken have at least the rank `above`, and inside a block more than that of
the block. -/
def Program.ordered : ℕ → Program L → Bool
  | _, .skip => true
  | above, .hold l body => above ≤ rank l && body.ordered (rank l + 1)
  | above, .share l _ => above ≤ rank l
  | above, .seq p q => p.ordered above && q.ordered above
  | above, .choice p q => p.ordered above && q.ordered above
  | above, .loop p => p.ordered above
  | above, .rescue p handler => p.ordered above && handler.ordered above

/-- From the locks that are held, the last one first: what is taken or waited for ranks above
them, what is given back is the last one, and in the end there is none. -/
def Balanced : List L → List (Op L) → Prop
  | held, [] => held = []
  | held, .acquire l :: ops => (∀ k ∈ held, rank k < rank l) ∧ Balanced (l :: held) ops
  | held, .release l :: ops => ∃ rest, held = l :: rest ∧ Balanced rest ops
  | held, .share l _ :: ops => (∀ k ∈ held, rank k < rank l) ∧ Balanced held ops

variable {rank}

/-- An ordered program between any two balanced parts. -/
theorem Balanced.append {p : Program L} {ops rest : List (Op L)} {ok : Bool} {above : ℕ}
    {held : List L} (hexec : Exec p ops ok) (hordered : p.ordered rank above = true)
    (hheld : ∀ k ∈ held, rank k < above) (hrest : Balanced rank held rest) :
    Balanced rank held (ops ++ rest) := by
  induction hexec generalizing above held rest with
  | skip => exact hrest
  | fails p => exact hrest
  | @hold l p ops ok body ih =>
    rw [Program.ordered, Bool.and_eq_true, decide_eq_true_eq] at hordered
    have hbelow : ∀ k ∈ held, rank k < rank l := fun k hk => by
      have hk := hheld k hk
      omega
    have hinside : ∀ k ∈ l :: held, rank k < rank l + 1 := by
      intro k hk
      rcases List.mem_cons.mp hk with rfl | hk
      · omega
      · have hk := hbelow k hk
        omega
    -- the body has given back what it took, so the lock of the block is the last one
    have hback : Balanced rank (l :: held) (.release l :: rest) := ⟨held, rfl, hrest⟩
    have hbody := ih hordered.2 hinside hback
    rw [List.cons_append, List.append_assoc, List.singleton_append]
    exact ⟨hbelow, hbody⟩
  | share l fresh =>
    rw [Program.ordered, decide_eq_true_eq] at hordered
    refine ⟨fun k hk => ?_, hrest⟩
    have hk := hheld k hk
    omega
  | seq first second ihFirst ihSecond =>
    rw [Program.ordered, Bool.and_eq_true] at hordered
    rw [List.append_assoc]
    exact ihFirst hordered.1 hheld (ihSecond hordered.2 hheld hrest)
  | seqFails first ih =>
    rw [Program.ordered, Bool.and_eq_true] at hordered
    exact ih hordered.1 hheld hrest
  | left chosen ih =>
    rw [Program.ordered, Bool.and_eq_true] at hordered
    exact ih hordered.1 hheld hrest
  | right chosen ih =>
    rw [Program.ordered, Bool.and_eq_true] at hordered
    exact ih hordered.2 hheld hrest
  | stops p => exact hrest
  | again first others ihFirst ihOthers =>
    have hp := hordered
    rw [Program.ordered] at hp
    rw [List.append_assoc]
    exact ihFirst hp hheld (ihOthers hordered hheld hrest)
  | loopFails first ih =>
    rw [Program.ordered] at hordered
    exact ih hordered hheld hrest
  | succeeds body ih =>
    rw [Program.ordered, Bool.and_eq_true] at hordered
    exact ih hordered.1 hheld hrest
  | rescued body after ihBody ihAfter =>
    rw [Program.ordered, Bool.and_eq_true] at hordered
    rw [List.append_assoc]
    exact ihBody hordered.1 hheld (ihAfter hordered.2 hheld hrest)

/-- What an ordered program does to the locks, on its own. -/
theorem Exec.balanced {p : Program L} {ops : List (Op L)} {ok : Bool} (h : Exec p ops ok)
    (hordered : p.ordered rank 0 = true) : Balanced rank [] ops := by
  have hnone : ∀ k ∈ ([] : List L), rank k < 0 := fun k hk => absurd hk List.not_mem_nil
  have hnil : Balanced rank [] [] := rfl
  have hops := Balanced.append h hordered hnone hnil
  rwa [List.append_nil] at hops

end Order

section Operations

variable {ok : Op L → Bool}

/-- All that a program does to the locks is `ok`. -/
def Program.all (ok : Op L → Bool) : Program L → Bool
  | .skip => true
  | .hold l body => ok (.acquire l) && ok (.release l) && body.all ok
  | .share l fresh => ok (.share l fresh)
  | .seq p q => p.all ok && q.all ok
  | .choice p q => p.all ok && q.all ok
  | .loop p => p.all ok
  | .rescue p handler => p.all ok && handler.all ok

theorem Exec.all {p : Program L} {ops : List (Op L)} {success : Bool} (h : Exec p ops success)
    (hall : p.all ok = true) : ∀ op ∈ ops, ok op = true := by
  induction h with
  | skip => simp
  | fails p => simp
  | @hold l p ops success body ih =>
    simp only [Program.all, Bool.and_eq_true] at hall
    intro op hop
    rcases List.mem_cons.mp hop with rfl | hop
    · exact hall.1.1
    · rcases List.mem_append.mp hop with hop | hop
      · exact ih hall.2 op hop
      · obtain rfl := List.mem_singleton.mp hop
        exact hall.1.2
  | share l fresh =>
    intro op hop
    obtain rfl := List.mem_singleton.mp hop
    exact hall
  | seq first second ihFirst ihSecond =>
    rw [Program.all, Bool.and_eq_true] at hall
    exact List.forall_mem_append.mpr ⟨ihFirst hall.1, ihSecond hall.2⟩
  | seqFails first ih =>
    rw [Program.all, Bool.and_eq_true] at hall
    exact ih hall.1
  | left chosen ih =>
    rw [Program.all, Bool.and_eq_true] at hall
    exact ih hall.1
  | right chosen ih =>
    rw [Program.all, Bool.and_eq_true] at hall
    exact ih hall.2
  | stops p => simp
  | again first others ihFirst ihOthers =>
    have hp := hall
    rw [Program.all] at hp
    exact List.forall_mem_append.mpr ⟨ihFirst hp, ihOthers hall⟩
  | loopFails first ih =>
    rw [Program.all] at hall
    exact ih hall
  | succeeds body ih =>
    rw [Program.all, Bool.and_eq_true] at hall
    exact ih hall.1
  | rescued body after ihBody ihAfter =>
    rw [Program.all, Bool.and_eq_true] at hall
    exact List.forall_mem_append.mpr ⟨ihBody hall.1, ihAfter hall.2⟩

/-- One of several programs, or none of them. -/
def Program.any : List (Program L) → Program L
  | [] => .skip
  | p :: ps => .choice p (Program.any ps)

/-- One program after the other. -/
def Program.each : List (Program L) → Program L
  | [] => .skip
  | p :: ps => .seq p (Program.each ps)

theorem Program.ordered_any {rank : L → ℕ} {above : ℕ} {ps : List (Program L)}
    (h : ∀ p ∈ ps, p.ordered rank above = true) : (Program.any ps).ordered rank above = true := by
  induction ps with
  | nil => rfl
  | cons p ps ih =>
    rw [Program.any, Program.ordered, h p List.mem_cons_self, Bool.true_and]
    exact ih fun q hq => h q (List.mem_cons_of_mem p hq)

theorem Program.ordered_each {rank : L → ℕ} {above : ℕ} {ps : List (Program L)}
    (h : ∀ p ∈ ps, p.ordered rank above = true) : (Program.each ps).ordered rank above = true := by
  induction ps with
  | nil => rfl
  | cons p ps ih =>
    rw [Program.each, Program.ordered, h p List.mem_cons_self, Bool.true_and]
    exact ih fun q hq => h q (List.mem_cons_of_mem p hq)

theorem Program.all_any {ps : List (Program L)} (h : ∀ p ∈ ps, p.all ok = true) :
    (Program.any ps).all ok = true := by
  induction ps with
  | nil => rfl
  | cons p ps ih =>
    rw [Program.any, Program.all, h p List.mem_cons_self, Bool.true_and]
    exact ih fun q hq => h q (List.mem_cons_of_mem p hq)

theorem Program.all_each {ps : List (Program L)} (h : ∀ p ∈ ps, p.all ok = true) :
    (Program.each ps).all ok = true := by
  induction ps with
  | nil => rfl
  | cons p ps ih =>
    rw [Program.each, Program.all, h p List.mem_cons_self, Bool.true_and]
    exact ih fun q hq => h q (List.mem_cons_of_mem p hq)

end Operations

/-- How a lock chooses among the tasks that wait for it: some task can always have it. -/
structure Policy (Task L : Type) where
  admits : L → List Task → Task → Bool
  exists_admitted : ∀ l waiting, waiting ≠ [] → ∃ t ∈ waiting, admits l waiting t = true

structure State (Task L : Type) where
  started : Finset Task
  todo : Task → List (Op L)
  waiting : L → List Task
  holder : L → Option Task
  shares : List L

inductive Event (Task L : Type) where
  | start (t : Task) (ops : List (Op L))
  | request (t : Task)
  | acquire (t : Task)
  | release (t : Task)
  | share (t : Task)
  | expire (l : L)

def Event.isStart : Event Task L → Bool
  | .start _ _ => true
  | _ => false

def Event.isExpire : Event Task L → Bool
  | .expire _ => true
  | _ => false

def initial : State Task L where
  started := ∅
  todo _ := []
  waiting _ := []
  holder _ := none
  shares := []

section System

variable [DecidableEq Task] [DecidableEq L]

def step (policy : Policy Task L) (s : State Task L) :
    Event Task L → Option (State Task L)
  | .start t ops =>
    if t ∈ s.started then none
    else some { s with started := insert t s.started, todo := Function.update s.todo t ops }
  | .request t =>
    match s.todo t with
    | .acquire l :: _ =>
      if t ∈ s.waiting l then none
      else some { s with waiting := Function.update s.waiting l (s.waiting l ++ [t]) }
    | _ => none
  | .acquire t =>
    match s.todo t with
    | .acquire l :: ops =>
      if t ∈ s.waiting l ∧ s.holder l = none ∧ l ∉ s.shares ∧
          policy.admits l (s.waiting l) t = true then
        some { s with
          todo := Function.update s.todo t ops
          waiting := Function.update s.waiting l ((s.waiting l).filter (· ≠ t))
          holder := Function.update s.holder l (some t) }
      else none
    | _ => none
  | .release t =>
    match s.todo t with
    | .release l :: ops =>
      some { s with
        todo := Function.update s.todo t ops, holder := Function.update s.holder l none }
    | _ => none
  | .share t =>
    match s.todo t with
    | .share l fresh :: ops =>
      if s.holder l = none then
        some { s with
          todo := Function.update s.todo t ops
          shares := if fresh then l :: s.shares else s.shares }
      else none
    | _ => none
  | .expire l => if l ∈ s.shares then some { s with shares := s.shares.erase l } else none

/-- The forms of a step. -/
inductive Step (policy : Policy Task L) (s : State Task L) :
    Event Task L → State Task L → Prop
  | start {t : Task} {ops : List (Op L)} (new : t ∉ s.started) :
      Step policy s (.start t ops)
        { s with started := insert t s.started, todo := Function.update s.todo t ops }
  | request {t : Task} {l : L} {ops : List (Op L)} (todo : s.todo t = .acquire l :: ops)
      (new : t ∉ s.waiting l) :
      Step policy s (.request t)
        { s with waiting := Function.update s.waiting l (s.waiting l ++ [t]) }
  | acquire {t : Task} {l : L} {ops : List (Op L)} (todo : s.todo t = .acquire l :: ops)
      (waiting : t ∈ s.waiting l) (free : s.holder l = none) :
      Step policy s (.acquire t)
        { s with
          todo := Function.update s.todo t ops
          waiting := Function.update s.waiting l ((s.waiting l).filter (· ≠ t))
          holder := Function.update s.holder l (some t) }
  | release {t : Task} {l : L} {ops : List (Op L)} (todo : s.todo t = .release l :: ops) :
      Step policy s (.release t)
        { s with
          todo := Function.update s.todo t ops, holder := Function.update s.holder l none }
  | share {t : Task} {l : L} {fresh : Bool} {ops : List (Op L)}
      (todo : s.todo t = .share l fresh :: ops) :
      Step policy s (.share t)
        { s with
          todo := Function.update s.todo t ops
          shares := if fresh then l :: s.shares else s.shares }
  | expire {l : L} (shared : l ∈ s.shares) :
      Step policy s (.expire l) { s with shares := s.shares.erase l }

variable {policy : Policy Task L} {s s' : State Task L} {e : Event Task L} {rank : L → ℕ}

theorem step_cases (h : step policy s e = some s') : Step policy s e s' := by
  cases e with
  | start t ops =>
    simp only [step] at h
    split at h
    · cases h
    · next hnew => exact Option.some.inj h ▸ .start hnew
  | request t =>
    simp only [step] at h
    split at h
    · next htodo =>
      split at h
      · cases h
      · next hnew => exact Option.some.inj h ▸ .request htodo hnew
    · cases h
  | acquire t =>
    simp only [step] at h
    split at h
    · next htodo =>
      split at h
      · next hfree => exact Option.some.inj h ▸ .acquire htodo hfree.1 hfree.2.1
      · cases h
    · cases h
  | release t =>
    simp only [step] at h
    split at h
    · next htodo => exact Option.some.inj h ▸ .release htodo
    · cases h
  | share t =>
    simp only [step] at h
    split at h
    · next htodo =>
      split at h
      · exact Option.some.inj h ▸ .share htodo
      · cases h
    · cases h
  | expire l =>
    simp only [step] at h
    split at h
    · next hshared => exact Option.some.inj h ▸ .expire hshared
    · cases h

section Invariant

/-- The locks of a task, the last one first, fit what it has yet to do. -/
def Fits (rank : L → ℕ) (holder : L → Option Task) (t : Task) (todo : List (Op L)) : Prop :=
  ∃ held : List L, held.Nodup ∧ (∀ l, holder l = some t ↔ l ∈ held) ∧ Balanced rank held todo

structure Ordered (rank : L → ℕ) (s : State Task L) : Prop where
  unstarted : ∀ t, t ∉ s.started → s.todo t = []
  waiting : ∀ l, ∀ t ∈ s.waiting l, ∃ ops, s.todo t = .acquire l :: ops
  fits : ∀ t, Fits rank s.holder t (s.todo t)

omit [DecidableEq Task] [DecidableEq L] in
theorem ordered_initial (rank : L → ℕ) : Ordered rank (initial : State Task L) where
  unstarted _ _ := rfl
  waiting _ t ht := absurd ht List.not_mem_nil
  fits _ := ⟨[], List.nodup_nil, fun l => iff_of_false (fun h => (by cases h)) List.not_mem_nil, rfl⟩

/-- The program of a new task takes its locks in order. -/
def Starts (rank : L → ℕ) : Event Task L → Prop
  | .start _ ops => Balanced rank [] ops
  | _ => True

section Updates

variable {t u : Task} {l : L} {op : Op L} {ops : List (Op L)}

omit [DecidableEq L] in
theorem Ordered.update_unstarted (h : Ordered rank s) (htodo : s.todo t = op :: ops)
    (hu : u ∉ s.started) : Function.update s.todo t ops u = [] := by
  have hne : u ≠ t := by
    rintro rfl
    rw [h.unstarted u hu] at htodo
    cases htodo
  rw [Function.update_of_ne hne]
  exact h.unstarted u hu

omit [DecidableEq L] in
/-- A task that goes on without a lock that it waits for does not wait for one. -/
theorem Ordered.update_waiting (h : Ordered rank s) (htodo : s.todo t = op :: ops)
    (hop : op ≠ .acquire l ∨ u ≠ t) (hu : u ∈ s.waiting l) :
    ∃ rest, Function.update s.todo t ops u = .acquire l :: rest := by
  obtain ⟨rest, hrest⟩ := h.waiting l u hu
  have hne : u ≠ t := by
    rintro rfl
    rw [htodo] at hrest
    cases hrest
    exact hop.elim (fun hop => hop rfl) fun hne => hne rfl
  exact ⟨rest, by rw [Function.update_of_ne hne]; exact hrest⟩

omit [DecidableEq L] in
/-- A task that goes on with the same locks. -/
theorem Fits.update {holder : L → Option Task} (h : Fits rank holder u (s.todo u))
    (hself : u = t → Fits rank holder u ops) :
    Fits rank holder u (Function.update s.todo t ops u) := by
  by_cases heq : u = t
  · rw [heq, Function.update_self, ← heq]
    exact hself heq
  · rw [Function.update_of_ne heq]
    exact h

omit [DecidableEq Task] in
theorem Fits.acquire {holder : L → Option Task} {todo : List (Op L)}
    (h : Fits rank holder u todo) (hfree : holder l = none) (hne : u ≠ t) :
    Fits rank (Function.update holder l (some t)) u todo := by
  obtain ⟨held, hnodup, hheld, hbalanced⟩ := h
  refine ⟨held, hnodup, fun k => ?_, hbalanced⟩
  by_cases hk : k = l
  · subst hk
    rw [Function.update_self]
    refine iff_of_false (fun hsome => hne (Option.some.inj hsome).symm) fun hmem => ?_
    have hholds := (hheld k).mpr hmem
    rw [hfree] at hholds
    cases hholds
  · rw [Function.update_of_ne hk]
    exact hheld k

omit [DecidableEq Task] in
theorem Fits.acquires {holder : L → Option Task} (h : Fits rank holder t (.acquire l :: ops))
    (hfree : holder l = none) : Fits rank (Function.update holder l (some t)) t ops := by
  obtain ⟨held, hnodup, hheld, -, hbalanced⟩ := h
  have hnot : l ∉ held := fun hmem => by
    have hholds := (hheld l).mpr hmem
    rw [hfree] at hholds
    cases hholds
  refine ⟨l :: held, List.nodup_cons.mpr ⟨hnot, hnodup⟩, fun k => ?_, hbalanced⟩
  by_cases hk : k = l
  · subst hk
    rw [Function.update_self]
    exact iff_of_true rfl List.mem_cons_self
  · rw [Function.update_of_ne hk, hheld, List.mem_cons, or_iff_right hk]

omit [DecidableEq Task] [DecidableEq L] in
theorem Fits.holds {holder : L → Option Task} (h : Fits rank holder t (.release l :: ops)) :
    holder l = some t := by
  obtain ⟨held, -, hheld, rest, rfl, -⟩ := h
  exact (hheld l).mpr List.mem_cons_self

omit [DecidableEq Task] in
theorem Fits.release {holder : L → Option Task} {todo : List (Op L)}
    (h : Fits rank holder u todo) (hholder : holder l = some t) (hne : u ≠ t) :
    Fits rank (Function.update holder l none) u todo := by
  obtain ⟨held, hnodup, hheld, hbalanced⟩ := h
  refine ⟨held, hnodup, fun k => ?_, hbalanced⟩
  by_cases hk : k = l
  · subst hk
    rw [Function.update_self]
    refine iff_of_false (fun hnone => by cases hnone) fun hmem => ?_
    have hholds := (hheld k).mpr hmem
    rw [hholder] at hholds
    exact hne (Option.some.inj hholds).symm
  · rw [Function.update_of_ne hk]
    exact hheld k

omit [DecidableEq Task] in
theorem Fits.releases {holder : L → Option Task} (h : Fits rank holder t (.release l :: ops)) :
    Fits rank (Function.update holder l none) t ops := by
  obtain ⟨held, hnodup, hheld, rest, rfl, hrest⟩ := h
  have hnodup := List.nodup_cons.mp hnodup
  refine ⟨rest, hnodup.2, fun k => ?_, hrest⟩
  by_cases hk : k = l
  · subst hk
    rw [Function.update_self]
    exact iff_of_false (fun hnone => by cases hnone) hnodup.1
  · rw [Function.update_of_ne hk, hheld, List.mem_cons, or_iff_right hk]

omit [DecidableEq Task] [DecidableEq L] in
theorem Fits.shares {holder : L → Option Task} {fresh : Bool}
    (h : Fits rank holder t (.share l fresh :: ops)) : Fits rank holder t ops := by
  obtain ⟨held, hnodup, hheld, -, hbalanced⟩ := h
  exact ⟨held, hnodup, hheld, hbalanced⟩

end Updates

theorem Ordered.step (h : Ordered rank s) (hstart : Starts rank e)
    (hs : step policy s e = some s') : Ordered rank s' := by
  cases step_cases hs with
  | @start t ops hnew =>
    have hempty := h.unstarted t hnew
    refine ⟨fun u hu => ?_, fun l u hu => ?_, fun u => ?_⟩
    · have hne : u ≠ t := fun heq => hu (heq ▸ Finset.mem_insert_self t s.started)
      have hu' : u ∉ s.started := fun hmem => hu (Finset.mem_insert_of_mem hmem)
      exact (Function.update_of_ne hne ops s.todo).trans (h.unstarted u hu')
    · obtain ⟨rest, hrest⟩ := h.waiting l u hu
      have hne : u ≠ t := by
        rintro rfl
        rw [hempty] at hrest
        cases hrest
      exact ⟨rest, (Function.update_of_ne hne ops s.todo).trans hrest⟩
    · refine (h.fits u).update fun heq => ?_
      subst heq
      -- a task that has not started holds nothing
      obtain ⟨held, hnodup, hheld, hbalanced⟩ := h.fits u
      rw [hempty] at hbalanced
      obtain rfl : held = [] := hbalanced
      exact ⟨[], hnodup, hheld, hstart⟩
  | @request t l ops htodo hnew =>
    refine ⟨h.unstarted, fun k u hu => ?_, h.fits⟩
    change u ∈ Function.update s.waiting l (s.waiting l ++ [t]) k at hu
    have hmem : u ∈ s.waiting k ∨ k = l ∧ u = t := by
      by_cases heq : k = l
      · subst heq
        have hu : u ∈ s.waiting k ++ [t] := by rwa [Function.update_self] at hu
        exact (List.mem_append.mp hu).imp_right fun hu => ⟨rfl, List.mem_singleton.mp hu⟩
      · exact Or.inl (by rwa [Function.update_of_ne heq] at hu)
    rcases hmem with hmem | ⟨rfl, rfl⟩
    · exact h.waiting k u hmem
    · exact ⟨ops, htodo⟩
  | @acquire t l ops htodo hwaiting hfree =>
    refine ⟨fun u hu => h.update_unstarted htodo hu, fun k u hu => ?_, fun u => ?_⟩
    · change u ∈ Function.update s.waiting l ((s.waiting l).filter (· ≠ t)) k at hu
      have hmem : u ∈ s.waiting k ∧ (k = l → u ≠ t) := by
        by_cases heq : k = l
        · subst heq
          have hu : u ∈ (s.waiting k).filter (· ≠ t) := by rwa [Function.update_self] at hu
          have hu := List.mem_filter.mp hu
          exact ⟨hu.1, fun _ => by simpa using hu.2⟩
        · exact ⟨by rwa [Function.update_of_ne heq] at hu, fun hk => absurd hk heq⟩
      refine h.update_waiting htodo ?_ hmem.1
      by_cases heq : k = l
      · exact Or.inr (hmem.2 heq)
      · exact Or.inl fun hop => heq (Op.acquire.inj hop).symm
    · by_cases heq : u = t
      · subst heq
        have hfits := h.fits u
        rw [htodo] at hfits
        have hnext := hfits.acquires hfree
        rwa [← Function.update_self u ops s.todo] at hnext
      · have hnext := (h.fits u).acquire hfree heq
        rwa [← Function.update_of_ne heq ops s.todo] at hnext
  | @release t l ops htodo =>
    have hfits := h.fits t
    rw [htodo] at hfits
    refine ⟨fun u hu => h.update_unstarted htodo hu,
      fun k u hu => h.update_waiting htodo (Or.inl fun hop => by cases hop) hu, fun u => ?_⟩
    by_cases heq : u = t
    · subst heq
      have hnext := hfits.releases
      rwa [← Function.update_self u ops s.todo] at hnext
    · have hnext := (h.fits u).release hfits.holds heq
      rwa [← Function.update_of_ne heq ops s.todo] at hnext
  | @share t l fresh ops htodo =>
    refine ⟨fun u hu => h.update_unstarted htodo hu,
      fun k u hu => h.update_waiting htodo (Or.inl fun hop => by cases hop) hu, fun u => ?_⟩
    refine (h.fits u).update fun heq => ?_
    have hfits := h.fits u
    rw [heq, htodo] at hfits
    rw [heq]
    exact hfits.shares
  | expire hshared => exact ⟨h.unstarted, h.waiting, h.fits⟩

/-- The tasks take their locks in order, whatever the run. -/
theorem ordered_of_run {es : List (Event Task L)} (hstarts : ∀ e ∈ es, Starts rank e)
    (hr : Runs.run (Locks.step policy) initial es = some s) : Ordered rank s :=
  Runs.run_invariant (fun _ _ _ h hstart hs => h.step hstart hs) (ordered_initial rank)
    (Runs.Steps.of_forall (fun e he _ => hstarts e he) _) hr

end Invariant

section Progress

/-- The lock that the next operation waits for. -/
def Op.awaited : Op L → Option L
  | .acquire l => some l
  | .share l _ => some l
  | .release _ => none

/-- No task can go on, unless a share ends. -/
def Stuck (policy : Policy Task L) (s : State Task L) : Prop :=
  ∀ e : Event Task L, e.isStart = false → e.isExpire = false → step policy s e = none

omit [DecidableEq Task] [DecidableEq L] in
/-- What a task waits for ranks above what it holds. -/
theorem Fits.below {holder : L → Option Task} {t : Task} {op : Op L} {ops : List (Op L)} {l k : L}
    (h : Fits rank holder t (op :: ops)) (hop : op.awaited = some l) (hk : holder k = some t) :
    rank k < rank l := by
  obtain ⟨held, -, hheld, hbalanced⟩ := h
  have hmem := (hheld k).mp hk
  cases op with
  | acquire l' =>
    cases hop
    exact hbalanced.1 k hmem
  | share l' fresh =>
    cases hop
    exact hbalanced.1 k hmem
  | release l' => cases hop

omit [DecidableEq Task] [DecidableEq L] in
/-- A task that is done holds nothing. -/
theorem Ordered.not_done (h : Ordered rank s) {t : Task} {l : L} (hholder : s.holder l = some t) :
    s.todo t ≠ [] := by
  intro hempty
  obtain ⟨held, -, hheld, hbalanced⟩ := h.fits t
  rw [hempty] at hbalanced
  obtain rfl : held = [] := hbalanced
  exact List.not_mem_nil ((hheld l).mp hholder)

/-- Where nothing can go on, a task that is not done waits for a lock, and another one holds it,
unless there are shares of it. -/
theorem Ordered.awaits (h : Ordered rank s) (hstuck : Stuck policy s) {t : Task} {op : Op L}
    {ops : List (Op L)} (htodo : s.todo t = op :: ops) :
    ∃ l, op.awaited = some l ∧ (op = .acquire l → l ∉ s.shares → ∃ u, s.holder l = some u) ∧
      (op ≠ .acquire l → ∃ u, s.holder l = some u) := by
  cases op with
  | release l =>
    have hrelease := hstuck (.release t) rfl rfl
    simp only [Locks.step, htodo] at hrelease
    cases hrelease
  | share l fresh =>
    refine ⟨l, rfl, fun hop => (by cases hop), fun _ => ?_⟩
    cases hholder : s.holder l with
    | some u => exact ⟨u, rfl⟩
    | none =>
      have hshare := hstuck (.share t) rfl rfl
      simp only [Locks.step, htodo, hholder, if_true] at hshare
      cases hshare
  | acquire l =>
    refine ⟨l, rfl, fun _ hshares => ?_, fun hop => absurd rfl hop⟩
    cases hholder : s.holder l with
    | some u => exact ⟨u, rfl⟩
    | none =>
      have hwaits : t ∈ s.waiting l := by
        by_contra hnot
        have hrequest := hstuck (.request t) rfl rfl
        simp only [Locks.step, htodo, if_neg hnot] at hrequest
        cases hrequest
      -- the lock is free, so it admits one of the tasks that wait for it
      obtain ⟨u, hu, hadmits⟩ :=
        policy.exists_admitted l (s.waiting l) (List.ne_nil_of_mem hwaits)
      obtain ⟨rest, hrest⟩ := h.waiting l u hu
      have hacquire := hstuck (.acquire u) rfl rfl
      have hfree : u ∈ s.waiting l ∧ s.holder l = none ∧ l ∉ s.shares ∧
          policy.admits l (s.waiting l) u = true := ⟨hu, hholder, hshares, hadmits⟩
      simp only [Locks.step, hrest, if_pos hfree] at hacquire
      cases hacquire

def awaitedRank (rank : L → ℕ) (ops : List (Op L)) : ℕ :=
  ((ops.head?.bind Op.awaited).map rank).getD 0

/-- The operation waits for no lock that may be shared below the rank `level`. -/
def Op.Above (rank : L → ℕ) (level : ℕ) : Op L → Prop
  | .acquire l => level ≤ rank l
  | .share l _ => level ≤ rank l + 1
  | .release _ => True

/-- A task that is not done and waits for a task that is not done. -/
def Blocked (rank : L → ℕ) (s : State Task L) (level : ℕ) (t : Task) : Prop :=
  ∃ op ops l u, s.todo t = op :: ops ∧ op.awaited = some l ∧ s.holder l = some u ∧
    level ≤ rank l + 1

theorem Ordered.blocked (h : Ordered rank s) (hstuck : Stuck policy s) {level : ℕ}
    (hshares : ∀ l ∈ s.shares, rank l < level) {t : Task} {op : Op L} {ops : List (Op L)}
    (htodo : s.todo t = op :: ops) (habove : op.Above rank level) : Blocked rank s level t := by
  obtain ⟨l, hawaited, hacquire, hother⟩ := h.awaits hstuck htodo
  cases op with
  | acquire k =>
    obtain rfl : k = l := Option.some.inj hawaited
    have hnot : k ∉ s.shares := fun hmem => by
      have hlt := hshares k hmem
      have hle : level ≤ rank k := habove
      omega
    obtain ⟨u, hu⟩ := hacquire rfl hnot
    exact ⟨_, _, k, u, htodo, rfl, hu, Nat.le_succ_of_le habove⟩
  | share k fresh =>
    obtain rfl : k = l := Option.some.inj hawaited
    obtain ⟨u, hu⟩ := hother fun hop => by cases hop
    exact ⟨_, _, k, u, htodo, rfl, hu, habove⟩
  | release k => cases hawaited

/-- There is no deadlock: where nothing can go on, the tasks that wait for no lock with shares are
done. -/
theorem Ordered.done_of_stuck (h : Ordered rank s) (hstuck : Stuck policy s) {level : ℕ}
    (hshares : ∀ l ∈ s.shares, rank l < level) {t : Task}
    (habove : ∀ op ∈ s.todo t, op.Above rank level) : s.todo t = [] := by
  classical
  by_contra htodo
  obtain ⟨op, ops, hops⟩ := List.exists_cons_of_ne_nil htodo
  have ht : Blocked rank s level t :=
    h.blocked hstuck hshares hops (habove op (by rw [hops]; exact List.mem_cons_self))
  let blocked := s.started.filter fun u => Blocked rank s level u
  have hblocked : ∀ u, Blocked rank s level u → u ∈ blocked := by
    intro u hu
    refine Finset.mem_filter.mpr ⟨by_contra fun hnot => ?_, hu⟩
    obtain ⟨op, ops, -, -, hu, -⟩ := hu
    rw [h.unstarted u hnot] at hu
    cases hu
  -- of the blocked tasks, one that waits for a lock of the highest rank
  obtain ⟨u, hu, hmax⟩ :=
    blocked.exists_max_image (fun u => awaitedRank rank (s.todo u)) ⟨t, hblocked t ht⟩
  obtain ⟨op, ops, l, v, hops, hawaited, hholder, hlevel⟩ := (Finset.mem_filter.mp hu).2
  -- the task that holds the lock is not done, and waits for a lock of a higher rank
  obtain ⟨op', ops', hops'⟩ := List.exists_cons_of_ne_nil (h.not_done hholder)
  obtain ⟨l', hawaited', -⟩ := h.awaits hstuck hops'
  have hfits := h.fits v
  rw [hops'] at hfits
  have hlt : rank l < rank l' := hfits.below hawaited' hholder
  have habove' : op'.Above rank level := by
    cases op' with
    | acquire k =>
      obtain rfl : k = l' := Option.some.inj hawaited'
      change level ≤ rank k
      omega
    | share k fresh =>
      obtain rfl : k = l' := Option.some.inj hawaited'
      change level ≤ rank k + 1
      omega
    | release k => trivial
  have hle := hmax v (hblocked v (h.blocked hstuck hshares hops' habove'))
  simp only [awaitedRank, hops, hops', List.head?_cons, Option.bind_some, hawaited, hawaited',
    Option.map_some, Option.getD_some] at hle
  omega

end Progress

section Completion

/-- The operations that are left, each with its request and with the end of its share. -/
def weight (s : State Task L) (t : Task) : ℕ :=
  3 * (s.todo t).length -
    match s.todo t with
    | .acquire l :: _ => if t ∈ s.waiting l then 1 else 0
    | _ => 0

def remaining (s : State Task L) : ℕ := ∑ t ∈ s.started, weight s t + s.shares.length

omit [DecidableEq L] in
theorem weight_congr {t : Task} (htodo : s'.todo t = s.todo t)
    (hwaiting : ∀ l, t ∈ s'.waiting l ↔ t ∈ s.waiting l) : weight s' t = weight s t := by
  rw [weight, weight, htodo]
  split
  · next l _ _ => rw [if_congr (hwaiting l) rfl rfl]
  · rfl

omit [DecidableEq L] in
/-- A task that goes on has at least two fewer to do, whatever it waits for next. -/
theorem weight_update {t : Task} {op : Op L} {ops : List (Op L)} (htodo : s.todo t = op :: ops)
    (htodo' : s'.todo t = ops) : weight s' t + 2 ≤ weight s t := by
  have hbefore : 3 * ops.length + 2 ≤ weight s t := by
    rw [weight, htodo, List.length_cons]
    split
    · split <;> omega
    · omega
  have hafter : weight s' t ≤ 3 * ops.length := by
    rw [weight, htodo']
    exact Nat.sub_le _ _
  omega

omit [DecidableEq L] in
theorem remaining_lt {t : Task} (ht : t ∈ s.started) (hstarted : s'.started = s.started)
    (hothers : ∀ u ≠ t, weight s' u = weight s u)
    (hself : weight s' t + s'.shares.length < weight s t + s.shares.length) :
    remaining s' < remaining s := by
  have hsame : ∑ u ∈ s.started.erase t, weight s' u = ∑ u ∈ s.started.erase t, weight s u :=
    Finset.sum_congr rfl fun u hu => hothers u (Finset.ne_of_mem_erase hu)
  rw [remaining, remaining, hstarted, ← Finset.add_sum_erase _ _ ht,
    ← Finset.add_sum_erase _ _ ht, hsame]
  omega

omit [DecidableEq L] in
/-- A task goes on, and what it leaves behind is at most one share. -/
theorem remaining_lt_of_update {t : Task} {op : Op L} {ops : List (Op L)} (ht : t ∈ s.started)
    (htodo : s.todo t = op :: ops) (hstarted : s'.started = s.started)
    (hupdate : s'.todo = Function.update s.todo t ops)
    (hwaiting : ∀ u ≠ t, ∀ l, u ∈ s'.waiting l ↔ u ∈ s.waiting l)
    (hshares : s'.shares.length ≤ s.shares.length + 1) : remaining s' < remaining s := by
  have hself : s'.todo t = ops := by rw [hupdate, Function.update_self]
  refine remaining_lt ht hstarted (fun u hu => ?_) ?_
  · have hother : s'.todo u = s.todo u := by rw [hupdate, Function.update_of_ne hu]
    exact weight_congr hother (hwaiting u hu)
  · have hweight := weight_update htodo hself
    omega

/-- Every step but a start leaves less to do. -/
theorem Ordered.remaining_lt (h : Ordered rank s) (hquiet : e.isStart = false)
    (hs : Locks.step policy s e = some s') : remaining s' < remaining s := by
  have hstarted {t : Task} {op : Op L} {ops : List (Op L)} (htodo : s.todo t = op :: ops) :
      t ∈ s.started := by
    by_contra hnot
    rw [h.unstarted t hnot] at htodo
    cases htodo
  cases step_cases hs with
  | start => cases hquiet
  | @request t l ops htodo hnew =>
    refine Locks.remaining_lt (hstarted htodo) rfl (fun u hu => weight_congr rfl fun k => ?_) ?_
    · change u ∈ Function.update s.waiting l (s.waiting l ++ [t]) k ↔ _
      by_cases heq : k = l
      · subst heq
        rw [Function.update_self, List.mem_append, List.mem_singleton, or_iff_left hu]
      · rw [Function.update_of_ne heq]
    · have hmem : t ∈ Function.update s.waiting l (s.waiting l ++ [t]) l := by
        rw [Function.update_self]
        exact List.mem_append_right _ (List.mem_singleton_self t)
      simp only [weight, htodo, if_neg hnew, if_pos hmem, List.length_cons]
      omega
  | @acquire t l ops htodo hwaiting hfree =>
    refine remaining_lt_of_update (hstarted htodo) htodo rfl rfl (fun u hu k => ?_)
      (Nat.le_succ _)
    change u ∈ Function.update s.waiting l ((s.waiting l).filter (· ≠ t)) k ↔ _
    by_cases heq : k = l
    · subst heq
      rw [Function.update_self, List.mem_filter, decide_eq_true_eq, and_iff_left hu]
    · rw [Function.update_of_ne heq]
  | release htodo =>
    exact remaining_lt_of_update (hstarted htodo) htodo rfl rfl (fun _ _ _ => Iff.rfl)
      (Nat.le_succ _)
  | @share t l fresh ops htodo =>
    refine remaining_lt_of_update (hstarted htodo) htodo rfl rfl (fun _ _ _ => Iff.rfl) ?_
    cases fresh with
    | true => exact Nat.le_refl _
    | false => exact Nat.le_succ _
  | @expire l hshared =>
    have hweights : ∑ t ∈ s.started, weight { s with shares := s.shares.erase l } t =
        ∑ t ∈ s.started, weight s t :=
      Finset.sum_congr rfl fun t _ => weight_congr rfl fun _ => Iff.rfl
    have hlength := List.length_erase_of_mem hshared
    have hpositive := List.length_pos_of_mem hshared
    rw [remaining, remaining]
    change ∑ t ∈ s.started, weight _ t + (s.shares.erase l).length < _
    omega

/-- Every run without a start is finite. -/
theorem Ordered.length_le (h : Ordered rank s) {es : List (Event Task L)}
    (hquiet : ∀ e ∈ es, e.isStart = false) (hr : Runs.run (Locks.step policy) s es = some s') :
    Ordered rank s' ∧ es.length + remaining s' ≤ remaining s := by
  induction es generalizing s with
  | nil =>
    cases hr
    exact ⟨h, by rw [List.length_nil, Nat.zero_add]⟩
  | cons e es ih =>
    obtain ⟨u, hu, hr⟩ := (Runs.run_cons_eq_some _).mp hr
    have hlt := h.remaining_lt (hquiet e List.mem_cons_self) hu
    have hstart : Starts rank e := by
      have hno := hquiet e List.mem_cons_self
      cases e with
      | start => cases hno
      | _ => trivial
    obtain ⟨hs', hle⟩ :=
      ih (h.step hstart hu) (fun f hf => hquiet f (List.mem_cons_of_mem e hf)) hr
    refine ⟨hs', ?_⟩
    rw [List.length_cons]
    omega

/-- What is left of a task's operations, after steps that start no task. -/
theorem todo_suffix (hquiet : e.isStart = false) (hs : Locks.step policy s e = some s') (t : Task) :
    s'.todo t <:+ s.todo t := by
  have hupdate {u : Task} {op : Op L} {ops : List (Op L)} (htodo : s.todo u = op :: ops) :
      Function.update s.todo u ops t <:+ s.todo t := by
    by_cases heq : t = u
    · rw [heq, Function.update_self, htodo]
      exact List.suffix_cons op ops
    · rw [Function.update_of_ne heq]
  cases step_cases hs with
  | start => cases hquiet
  | acquire htodo => exact hupdate htodo
  | release htodo => exact hupdate htodo
  | share htodo => exact hupdate htodo
  | _ => exact List.suffix_rfl

theorem todo_suffix_of_run {es : List (Event Task L)} (hquiet : ∀ e ∈ es, e.isStart = false)
    (hr : Runs.run (Locks.step policy) s es = some s') (t : Task) : s'.todo t <:+ s.todo t := by
  induction es generalizing s with
  | nil =>
    cases hr
    exact List.suffix_rfl
  | cons e es ih =>
    obtain ⟨u, hu, hr⟩ := (Runs.run_cons_eq_some _).mp hr
    have hrest := ih (fun f hf => hquiet f (List.mem_cons_of_mem e hf)) hr
    exact hrest.trans (todo_suffix (hquiet e List.mem_cons_self) hu t)

/-- The tasks that were started go through their operations. -/
def Going (es : List (Event Task L)) (s : State Task L) : Prop :=
  ∀ t ops, .start t ops ∈ es → t ∈ s.started ∧ s.todo t <:+ ops

theorem Going.step {es : List (Event Task L)} (h : Going es s)
    (hs : Locks.step policy s e = some s') : Going (es ++ [e]) s' := by
  intro t ops hmem
  have hcases : .start t ops ∈ es ∨ e = .start t ops := by
    rw [List.mem_append, List.mem_singleton] at hmem
    exact hmem.imp_right Eq.symm
  have hquiet {started : Finset Task} (hstarted : s.started = started)
      (hno : e.isStart = false) : t ∈ started ∧ s'.todo t <:+ ops := by
    rcases hcases with hold | rfl
    · obtain ⟨hmem, hsuffix⟩ := h t ops hold
      exact ⟨hstarted ▸ hmem, (todo_suffix hno hs t).trans hsuffix⟩
    · cases hno
  cases step_cases hs with
  | @start u opsU hnew =>
    rcases hcases with hold | heq
    · obtain ⟨hstarted, hsuffix⟩ := h t ops hold
      have hne : t ≠ u := fun heq => hnew (heq ▸ hstarted)
      refine ⟨Finset.mem_insert_of_mem hstarted, ?_⟩
      change Function.update s.todo u opsU t <:+ ops
      rwa [Function.update_of_ne hne]
    · cases heq
      refine ⟨Finset.mem_insert_self _ _, ?_⟩
      change Function.update s.todo t ops t <:+ ops
      rw [Function.update_self]
  | _ => exact hquiet rfl rfl

theorem todo_of_start {es : List (Event Task L)} {t : Task} {ops : List (Op L)}
    (hr : Runs.run (Locks.step policy) initial es = some s) (hmem : .start t ops ∈ es) :
    s.todo t <:+ ops := by
  have hnone : Going [] (initial : State Task L) := fun _ _ hmem => absurd hmem List.not_mem_nil
  have hgoing : Going es s :=
    Runs.run_history (fun _ _ _ _ h _ hs => h.step hs) hnone
      (Runs.Steps.of_forall (fun _ _ _ => trivial) _) hr
  exact (hgoing t ops hmem).2

end Completion

section Shares

variable {ok : Op L → Prop}

/-- All operations that are left are `ok`, and so were those that left the shares. -/
def All (ok : Op L → Prop) (s : State Task L) : Prop :=
  (∀ t, ∀ op ∈ s.todo t, ok op) ∧ ∀ l ∈ s.shares, ok (.share l true)

theorem All.step (h : All ok s) (hstart : ∀ t ops, e = .start t ops → ∀ op ∈ ops, ok op)
    (hs : Locks.step policy s e = some s') : All ok s' := by
  have hupdate {t : Task} {op : Op L} {ops : List (Op L)} (htodo : s.todo t = op :: ops) (u : Task) :
      ∀ op ∈ Function.update s.todo t ops u, ok op := by
    intro op' hop
    by_cases heq : u = t
    · rw [heq, Function.update_self] at hop
      exact h.1 t op' (by rw [htodo]; exact List.mem_cons_of_mem op hop)
    · rw [Function.update_of_ne heq] at hop
      exact h.1 u op' hop
  cases step_cases hs with
  | @start t ops hnew =>
    refine ⟨fun u op hop => ?_, h.2⟩
    change op ∈ Function.update s.todo t ops u at hop
    by_cases heq : u = t
    · rw [heq, Function.update_self] at hop
      exact hstart t ops rfl op hop
    · rw [Function.update_of_ne heq] at hop
      exact h.1 u op hop
  | request => exact h
  | acquire htodo => exact ⟨hupdate htodo, h.2⟩
  | release htodo => exact ⟨hupdate htodo, h.2⟩
  | @share t l fresh ops htodo =>
    refine ⟨hupdate htodo, fun k hk => ?_⟩
    cases fresh with
    | false => exact h.2 k hk
    | true =>
      rcases List.mem_cons.mp hk with rfl | hk
      · exact h.1 t _ (by rw [htodo]; exact List.mem_cons_self)
      · exact h.2 k hk
  | expire => exact ⟨h.1, fun k hk => h.2 k (List.mem_of_mem_erase hk)⟩

theorem all_of_run {es : List (Event Task L)}
    (hstarts : ∀ t ops, .start t ops ∈ es → ∀ op ∈ ops, ok op)
    (hr : Runs.run (Locks.step policy) initial es = some s) : All ok s := by
  have hsteps : Runs.Steps (Locks.step policy)
      (fun _ e => ∀ t ops, e = .start t ops → ∀ op ∈ ops, ok op) initial es := by
    apply Runs.Steps.of_forall
    rintro e he - t ops rfl
    exact hstarts t ops he
  refine Runs.run_invariant (fun _ _ _ h hstart hs => h.step hstart hs) ?_ hsteps hr
  exact ⟨fun t op hop => absurd hop List.not_mem_nil, fun l hl => absurd hl List.not_mem_nil⟩

end Shares

end System

end Locks
