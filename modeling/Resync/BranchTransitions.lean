import Resync.ActiveBranch

/-! `acquireAccess` and its `ensure_branch_transition` (`daemon.rs`), among users
who commit and switch branches: what becomes of the head of a branch that was
recorded as the active one. -/
namespace Resync

variable {Oid Task : Type}

/-- Where an `acquireAccess` request stands. -/
inductive Access where
  | idle
  /-- `ensure_branch_transition` is under way. -/
  | transition (name : String)
  /-- The refresh that follows a recorded transition. -/
  | refreshing (name : String)
  | granting (name : String)

/-- The daemon with its `acquireAccess` requests. The other fields only look
back: the outgoing commit that a task has read for its branch, the head at which
the user has left a branch and has not come back to it, and the active branches
that the catalog has recorded of a project. -/
structure TransitionWorld (Oid Task : Type) where
  daemon : DaemonWorld Oid Task
  access : Task → Access
  outgoing : Task → Option (Branch × Oid)
  left : String → Branch → Option Oid
  actives : ℕ → List Branch

inductive TransitionEvent (Oid Task : Type) where
  | daemon (e : DaemonEvent Oid Task)
  | acquire (task : Task) (name : String)
  | refreshed (task : Task) (ok : Bool)
  | grant (task : Task)

/-- The outgoing commit of a task, after a step that has led to this place. -/
def Call.outgoing (before : Option (Branch × Oid)) : Call Oid → Option (Branch × Oid)
  | .requested _ b c _ => some (b, c)
  | .cloned .. | .created .. | .queued .. | .activating .. => before
  | _ => none

/-- A user's step that takes HEAD of a checkout to a branch, or detaches it. -/
def DaemonEvent.headTo : DaemonEvent Oid Task → Option (String × Option Branch)
  | .publish (.user (.switch path b _)) => some (path, some b)
  | .publish (.user (.detach path _ _)) => some (path, none)
  | _ => none

/-- A push or a completion of the delivery. -/
def DaemonEvent.delivers : DaemonEvent Oid Task → Bool
  | .publish (.deliver (.push _)) | .publish (.deliver (.complete _)) => true
  | _ => false

/-- The branch that the user leaves, with its head. -/
def DaemonWorld.leaves (w : DaemonWorld Oid Task) (e : DaemonEvent Oid Task) :
    Option (String × Branch × Oid) :=
  match e.headTo with
  | some (path, new) =>
    (w.publish.checkouts path).headBranch.bind fun b =>
      if new = some b then none else ((w.publish.checkouts path).heads b).map fun c => (path, b, c)
  | none => none

namespace TransitionWorld

/-- The active branches so far, with those of the catalog. -/
def seen (actives : ℕ → List Branch) (catalog : LocalCatalog Oid) (i : ℕ) : List Branch :=
  ((catalog.projects[i]?).bind (·.activeBranch)).toList ++ actives i

/-- A daemon with no request yet. -/
def initial (publish : PublishWorld Oid Task) : TransitionWorld Oid Task where
  daemon := .initial { publish with calls := fun _ => .idle, delivery := .idle }
  access _ := .idle
  outgoing _ := none
  left _ _ := none
  actives := seen (fun _ => []) publish.catalog

/-- A request whose transition has ended refreshes, is granted, or fails. -/
def accessAfter (w : DaemonWorld Oid Task) (task : Task) (place : Call Oid) : Access → Access
  | .transition name =>
    match place with
    | .idle =>
      match w.publish.calls task with
      | .activating .. => .refreshing name
      | .transition _ project =>
        if (w.publish.checkouts project.localPath).headBranch.isSome then .granting name
        else .idle
      | _ => .idle
    | _ => .transition name
  | a => a

def leftAfter (w : TransitionWorld Oid Task) (e : DaemonEvent Oid Task) (path : String)
    (b : Branch) : Option Oid :=
  match w.daemon.leaves e with
  | some (path', b', c) =>
    if path = path' ∧ b = b' then some c
    else if e.headTo = some (path, some b) then none else w.left path b
  | none => if e.headTo = some (path, some b) then none else w.left path b

/-- What a step of the daemon or of a user makes of the world. -/
def after (w : TransitionWorld Oid Task) (e : DaemonEvent Oid Task) (d : DaemonWorld Oid Task) :
    TransitionWorld Oid Task where
  daemon := d
  access task := match e with
    | .publish .restart => .idle
    | _ => accessAfter w.daemon task (d.publish.calls task) (w.access task)
  outgoing task := (d.publish.calls task).outgoing (w.outgoing task)
  left := w.leftAfter e
  actives := seen w.actives d.publish.catalog

/-- The project and the branch on which `acquireAccess` grants access. -/
def grants (w : TransitionWorld Oid Task) (task : Task) : Option (String × Branch) :=
  match w.access task with
  | .granting name =>
    (findProject w.daemon.publish.catalog name).bind fun project =>
      (w.daemon.publish.checkouts project.localPath).headCommit.map fun _ =>
        (name, project.activeBranch.getD project.defaultBranch)
  | _ => none

section Steps

variable [DecidableEq Oid] [DecidableEq Task] (G : CommitGraph Oid)

def setAccess (w : TransitionWorld Oid Task) (task : Task) (a : Access) :
    TransitionWorld Oid Task :=
  { w with access := Function.update w.access task a }

def advance (w : TransitionWorld Oid Task) (e : DaemonEvent Oid Task) :
    Option (TransitionWorld Oid Task) :=
  (w.daemon.step G e).map (w.after e)

/-- `ensure_branch_transition` is a part of `acquireAccess`. -/
def step (w : TransitionWorld Oid Task) :
    TransitionEvent Oid Task → Option (TransitionWorld Oid Task)
  | .daemon e =>
    match e with
    | .publish (.call _ (.transition _)) => none
    | e => w.advance G e
  | .acquire task name =>
    match w.access task with
    | .idle =>
      (w.advance G (.publish (.call task (.transition name)))).map
        (·.setAccess task (.transition name))
    | _ => none
  | .refreshed task ok =>
    match w.access task with
    | .refreshing name => some (w.setAccess task (if ok then .granting name else .idle))
    | _ => none
  | .grant task =>
    match w.access task with
    | .granting _ => some (w.setAccess task .idle)
    | _ => none

/-- Access is granted on a branch only if every other branch that was recorded as
the active one, and that the user has left, has its head on the hosted branch or
in the queue. -/
def GrantsQueued (w : TransitionWorld Oid Task) : TransitionEvent Oid Task → Prop
  | .grant task =>
    ∀ (name : String) (granted : Branch), w.grants task = some (name, granted) →
      ∀ (i : ℕ) (p : LocalProject Oid), w.daemon.position name = some i →
        w.daemon.publish.catalog.projects[i]? = some p →
          ∀ b ∈ w.actives i, b ≠ granted → ∀ c, w.left p.localPath b = some c →
            w.daemon.publish.Kept G p b c
  | _ => True

/-- The branch and the commit that the task has read which now records the branch
that HEAD is on. -/
def read (w : TransitionWorld Oid Task) : DaemonEvent Oid Task → Option (Branch × Oid)
  | .publish (.call task .activate) => w.outgoing task
  | _ => none

/-- The condition on a step of the daemon or of a user. -/
structure KeepsOutgoing (w : TransitionWorld Oid Task) (e : DaemonEvent Oid Task) : Prop where
  /-- The active branch is overwritten with another one only when the head at
  which the user has left it was read by this task, or is kept already. -/
  overwrites : ∀ name new, w.daemon.activates e = some (name, new) →
    ∀ p, findProject w.daemon.publish.catalog name = some p →
      ∀ b, p.activeBranch = some b → new ≠ some b → ∀ c, w.left p.localPath b = some c →
        w.read e = some (b, c) ∨ w.daemon.publish.Kept G p b c
  /-- A branch that was the active one, and no longer is, is left at a head that
  is kept. -/
  leaves : ∀ path b c, w.daemon.leaves e = some (path, b, c) →
    ∀ (i : ℕ) p, w.daemon.publish.catalog.projects[i]? = some p → p.localPath = path →
      b ∈ w.actives i → p.activeBranch ≠ some b → w.daemon.publish.Kept G p b c
  keeps : w.daemon.KeepsQueued G e

def QueuesOutgoing (w : TransitionWorld Oid Task) : TransitionEvent Oid Task → Prop
  | .daemon e => w.KeepsOutgoing G e
  | _ => True

end Steps

/-- What a task has read is on its way to the queue, and is kept once the task
has come to record the new branch. -/
def Promised [DecidableEq Oid] (G : CommitGraph Oid) (d : DaemonWorld Oid Task)
    (outgoing : Option (Branch × Oid)) : Call Oid → Prop
  | .requested _ b c _ => outgoing = some (b, c)
  | .cloned name project b c _ => outgoing = some (b, c) ∧
      ∀ p, findProject d.publish.catalog name = some p → project.projectId = p.projectId
  | .created name q _ => outgoing = some (q.branch, q.sourceCommitOid) ∧
      ∀ p, findProject d.publish.catalog name = some p → q.projectId = p.projectId
  | .queued name _ | .activating name _ => ∀ b c, outgoing = some (b, c) →
      ∀ p, findProject d.publish.catalog name = some p → d.publish.Kept G p b c
  | _ => outgoing = none

/-- What was left of a branch that is no longer the active one is kept. -/
structure Queues [DecidableEq Oid] (G : CommitGraph Oid) (w : TransitionWorld Oid Task) :
    Prop where
  past : ∀ (i : ℕ) p, w.daemon.publish.catalog.projects[i]? = some p → ∀ b ∈ w.actives i,
    p.activeBranch ≠ some b → ∀ c, w.left p.localPath b = some c → w.daemon.publish.Kept G p b c
  calls : ∀ task, Promised G w.daemon (w.outgoing task) (w.daemon.publish.calls task)

section Runs

variable {w w' : TransitionWorld Oid Task}

theorem mem_seen {actives : ℕ → List Branch} {catalog : LocalCatalog Oid} {i : ℕ}
    {p : LocalProject Oid} (hp : catalog.projects[i]? = some p) {b : Branch}
    (hb : p.activeBranch ≠ some b) (h : b ∈ seen actives catalog i) : b ∈ actives i := by
  rw [seen, hp] at h
  rcases List.mem_append.mp h with h | h
  · exact absurd (Option.mem_toList.mp h) hb
  · exact h

theorem leftAfter_eq_some {e : DaemonEvent Oid Task} {path : String} {b : Branch} {c : Oid}
    (h : w.leftAfter e path b = some c) :
    w.left path b = some c ∨ w.daemon.leaves e = some (path, b, c) := by
  have hreturned : (if e.headTo = some (path, some b) then none else w.left path b) = some c →
      w.left path b = some c := by
    intro h
    split at h
    · cases h
    · exact h
  unfold leftAfter at h
  split at h
  · next path' b' c' hleaves =>
    split at h
    · next hsame =>
      rw [hleaves, hsame.1, hsame.2, Option.some.inj h]
      exact Or.inr rfl
    · exact Or.inl (hreturned h)
  · exact Or.inl (hreturned h)

variable [DecidableEq Oid] {G : CommitGraph Oid}

theorem queues_initial (publish : PublishWorld Oid Task) : Queues G (initial publish) where
  past _ _ _ _ _ _ _ hc := by cases hc
  calls _ := rfl

/-- Users leave branches, the daemon does not. -/
theorem activates_of_leaves {d : DaemonWorld Oid Task} {e : DaemonEvent Oid Task}
    {x : String × Branch × Oid} (h : d.leaves e = some x) : d.activates e = none := by
  cases e with
  | reconcile task e => cases h
  | publish e =>
    cases e with
    | user e => rfl
    | _ => cases h

variable [DecidableEq Task] {d : DaemonWorld Oid Task} {e : DaemonEvent Oid Task}

theorem find_back {d' : DaemonWorld Oid Task} (hs : d.step G e = some d') {name : String}
    {q : LocalProject Oid} (hq : findProject d'.publish.catalog name = some q) :
    ∃ p, findProject d.publish.catalog name = some p ∧ p ∈ d.publish.catalog.projects ∧
      q.identity = p.identity := by
  obtain ⟨i, hi, hget⟩ := findProject_eq_some.mp hq
  obtain ⟨p, hp, hstep⟩ := (DaemonWorld.step_active hs).record_back
    (fun i p => DaemonWorld.ActiveStep.refl i p) hget
  have hposition : d.position name = some i := (DaemonWorld.step_position hs name).symm.trans hi
  exact ⟨p, findProject_of_position hposition hp, List.mem_of_getElem? hp, hstep.1⟩

/-- What is promised of a place stays so while the task is there. -/
theorem Promised.stays {d' : DaemonWorld Oid Task} {outgoing : Option (Branch × Oid)}
    {call : Call Oid} (h : Promised G d outgoing call) (hok : d.KeepsQueued G e)
    (hs : d.step G e = some d') : Promised G d' (call.outgoing outgoing) call := by
  have hkept : ∀ {name : String}, (∀ b c, outgoing = some (b, c) →
      ∀ p, findProject d.publish.catalog name = some p → d.publish.Kept G p b c) →
      ∀ b c, outgoing = some (b, c) →
        ∀ q, findProject d'.publish.catalog name = some q → d'.publish.Kept G q b c := by
    intro name h b c houtgoing q hq
    obtain ⟨p, hp, hmem, hid⟩ := find_back hs hq
    exact hok.kept hs hmem hid (h b c houtgoing p hp)
  have hids : ∀ {name id : String},
      (∀ p, findProject d.publish.catalog name = some p → id = p.projectId) →
        ∀ q, findProject d'.publish.catalog name = some q → id = q.projectId := by
    intro name id h q hq
    obtain ⟨p, hp, -, hid⟩ := find_back hs hq
    exact (h p hp).trans (identity_projectId hid).symm
  cases call with
  | requested => rfl
  | cloned | created => exact ⟨h.1, hids h.2⟩
  | queued | activating => exact hkept h
  | _ => rfl

/-- A task promises what it has read, up to the end of its way. -/
theorem Promised.moves {d' : DaemonWorld Oid Task} {task : Task} {e : CallEvent Oid}
    {outgoing : Option (Branch × Oid)} {c : Call Oid}
    (h : Promised G d outgoing (d.publish.calls task))
    (hok : d.KeepsQueued G (.publish (.call task e)))
    (hs : d.step G (.publish (.call task e)) = some d')
    (hm : d.publish.CallMoves d'.publish task e c) : Promised G d' (c.outgoing outgoing) c := by
  have hnothing : ∀ {name : String} {b : Branch}, outgoing = none →
      Promised G d' ((Call.activating name b).outgoing outgoing) (.activating name b) := by
    intro name b hnone b' c' houtgoing
    rw [hnone] at houtgoing
    cases houtgoing
  cases hm with
  | rests hrests =>
    cases c with
    | cloned | created | queued | activating => cases hrests
    | _ => rfl
  | clones hcall hproject =>
    rw [hcall] at h
    refine ⟨h, fun q hq => ?_⟩
    obtain ⟨p, hp, -, hid⟩ := find_back hs hq
    obtain rfl := Option.some.inj (hproject.symm.trans hp)
    exact (identity_projectId hid).symm
  | @finds name project b c next hcall hqueued =>
    rw [hcall] at h
    cases next with
    | done => rfl
    | activate new =>
      have hfound : Promised G d outgoing (.activating name new) := by
        intro b' c' houtgoing p hp
        obtain ⟨rfl, rfl⟩ := Prod.mk.inj (Option.some.inj (h.1.symm.trans houtgoing))
        rw [h.2 p hp] at hqueued
        exact Or.inr hqueued
      exact hfound.stays hok hs
  | @creates name project b c next p hcall hsource =>
    rw [hcall] at h
    obtain ⟨hid, hsource⟩ := Prod.mk.inj hsource
    refine ⟨h.1.trans (congrArg some hsource.symm), fun q hq => ?_⟩
    obtain ⟨r, hr, -, hrid⟩ := find_back hs hq
    rw [hid, h.2 r hr, identity_projectId hrid]
  | @pushes name p next hcall hqueued =>
    rw [hcall] at h
    intro b c houtgoing q hq
    obtain ⟨rfl, rfl⟩ := Prod.mk.inj (Option.some.inj (h.1.symm.trans houtgoing))
    obtain ⟨r, hr, -, hrid⟩ := find_back hs hq
    rw [Publication.source, h.2 r hr, ← identity_projectId hrid] at hqueued
    exact Or.inr hqueued
  | @records name next hcall =>
    rw [hcall] at h
    cases next with
    | done => rfl
    | activate new =>
      have hpast : Promised G d outgoing (.activating name new) := h
      exact hpast.stays hok hs
  | reports hcall =>
    rw [hcall] at h
    exact hnothing h
  | transitions hcall =>
    rw [hcall] at h
    exact hnothing h

/-- A task goes on from its place, or a hook starts in it, or the daemon restarts. -/
theorem Promised.step {d' : DaemonWorld Oid Task} {task : Task}
    {outgoing : Option (Branch × Oid)} (h : Promised G d outgoing (d.publish.calls task))
    (hok : d.KeepsQueued G e) (hs : d.step G e = some d') :
    Promised G d' ((d'.publish.calls task).outgoing outgoing) (d'.publish.calls task) := by
  have hsame : d'.publish.calls task = d.publish.calls task →
      Promised G d' ((d'.publish.calls task).outgoing outgoing) (d'.publish.calls task) := by
    intro heq
    rw [heq]
    exact h.stays hok hs
  cases e with
  | reconcile other e => exact hsame (congrFun (DaemonWorld.reconcile_frame hs).calls task)
  | publish e =>
    have hstep := (DaemonWorld.publishes_step hs).1
    cases e with
    | user e =>
      rcases (PublishWorld.user_frame hstep).1.calls task with heq | ⟨_, _, _, _, hhook⟩
      · exact hsame heq
      · rw [hhook]
        rfl
    | call other e =>
      by_cases htask : task = other
      · subst htask
        exact h.moves hok hs (PublishWorld.call_moves hstep)
      · exact hsame ((PublishWorld.call_cases hstep).1.calls task htask)
    | deliver e => exact hsame (congrFun (PublishWorld.deliver_frame hstep).calls task)
    | writeProject | install => cases hs
    | restart =>
      have hrestarted : d'.publish.calls task = (d.publish.calls task).afterRestart :=
        congrArg (fun u => u.calls task) (Option.some.inj hstep).symm
      rw [hrestarted]
      cases d.publish.calls task <;> rfl

/-- The step lemma: what a step leaves behind is kept, because the step has found
it so or because the task that recorded the new branch has queued it. -/
theorem Queues.advance (h : Queues G w) (hok : w.KeepsOutgoing G e)
    (hs : w.advance G e = some w') : Queues G w' := by
  obtain ⟨d', hd, rfl⟩ := Option.map_eq_some_iff.mp hs
  refine ⟨fun i q hq b hb hactive c hc => ?_, fun task => (h.calls task).step hok.keeps hd⟩
  obtain ⟨p, hp, hid, hwrites⟩ := (DaemonWorld.step_active hd).record_back
    (fun i p => DaemonWorld.ActiveStep.refl i p) hq
  have hmem : p ∈ w.daemon.publish.catalog.projects := List.mem_of_getElem? hp
  have hseen : b ∈ w.actives i := mem_seen hq hactive hb
  apply hok.keeps.kept hd hmem hid
  rw [identity_localPath hid] at hc
  rcases leftAfter_eq_some hc with hc | hleaves
  · rcases hwrites with hsame | ⟨name, hwrites, hposition⟩
    · rw [hsame] at hactive
      exact h.past i p hp b hseen hactive c hc
    · by_cases hold : p.activeBranch = some b
      · have hproject := findProject_of_position hposition hp
        rcases hok.overwrites name _ hwrites p hproject b hold hactive c hc with hread | hkept
        · -- only the end of a transition or of a checkout report has read a commit
          unfold read at hread
          split at hread
          · next task =>
            simp only [DaemonWorld.activates] at hwrites
            split at hwrites
            · next name' new hcall =>
              obtain ⟨rfl, -⟩ := Prod.mk.inj (Option.some.inj hwrites)
              have hpromised := h.calls task
              rw [hcall] at hpromised
              exact hpromised b c hread p hproject
            · cases hwrites
          · cases hread
        · exact hkept
      · exact h.past i p hp b hseen hold c hc
  · rcases hwrites with hsame | ⟨name, hwrites, -⟩
    · rw [hsame] at hactive
      exact hok.leaves _ b c hleaves i p hp rfl hseen hactive
    · rw [activates_of_leaves hleaves] at hwrites
      cases hwrites

theorem Queues.setAccess (h : Queues G w) (task : Task) (a : Access) :
    Queues G (w.setAccess task a) := ⟨h.past, h.calls⟩

omit [DecidableEq Task] in
/-- `ensure_branch_transition` begins with a clone of the record. -/
theorem keepsOutgoing_transition (w : TransitionWorld Oid Task) (task : Task) (name : String) :
    w.KeepsOutgoing G (.publish (.call task (.transition name))) where
  overwrites _ _ hwrites := by cases hwrites
  leaves _ _ _ hleaves := by cases hleaves
  keeps := trivial

theorem Queues.step {e : TransitionEvent Oid Task} (h : Queues G w) (hok : w.QueuesOutgoing G e)
    (hs : w.step G e = some w') : Queues G w' := by
  cases e with
  | daemon e =>
    simp only [TransitionWorld.step] at hs
    split at hs
    · cases hs
    · exact h.advance hok hs
  | acquire task name =>
    simp only [TransitionWorld.step] at hs
    split at hs
    · obtain ⟨u, hu, rfl⟩ := Option.map_eq_some_iff.mp hs
      exact (h.advance (keepsOutgoing_transition w task name) hu).setAccess task _
    · cases hs
  | refreshed task ok =>
    simp only [TransitionWorld.step] at hs
    split at hs
    · exact Option.some.inj hs ▸ h.setAccess task _
    · cases hs
  | grant task =>
    simp only [TransitionWorld.step] at hs
    split at hs
    · exact Option.some.inj hs ▸ h.setAccess task _
    · cases hs

omit [DecidableEq Task] in
/-- The branch of a grant is the active one, so the others are past. -/
theorem Queues.grants (h : Queues G w) (e : TransitionEvent Oid Task) : w.GrantsQueued G e := by
  cases e with
  | grant task =>
    intro name granted hgrants i p hi hp b hb hne c hc
    refine h.past i p hp b hb (fun hactive => hne ?_) c hc
    unfold TransitionWorld.grants at hgrants
    split at hgrants
    · next name' _ =>
      obtain ⟨project, hproject, hgrants⟩ := Option.bind_eq_some_iff.mp hgrants
      obtain ⟨-, -, hgrants⟩ := Option.map_eq_some_iff.mp hgrants
      cases hgrants
      obtain rfl := Option.some.inj ((findProject_of_position hi hp).symm.trans hproject)
      rw [hactive]
      rfl
    · cases hgrants
  | _ => trivial

section Main

variable (G)

/-- In every run in which no step overwrites the active branch with its left head
neither read by the step's task nor kept, and no step leaves or loses such a head
otherwise, every grant finds the heads of the earlier active branches hosted or
queued. -/
theorem outgoing_heads_are_queued (publish : PublishWorld Oid Task)
    (es : List (TransitionEvent Oid Task))
    (hok : Runs.Steps (step G) (QueuesOutgoing G) (initial publish) es) :
    Runs.Steps (step G) (GrantsQueued G) (initial publish) es :=
  hok.of_invariant (fun _ _ _ h hok hs => h.step hok hs) (fun _ e h _ => h.grants e)
    (queues_initial publish)

end Main

end Runs

section Undisturbed

variable [DecidableEq Oid]

/-- No push and no completion, every branch is left while it is the active one,
and an active branch with a left head is overwritten by the task that has read it. -/
def Undisturbed (w : TransitionWorld Oid Task) : TransitionEvent Oid Task → Prop
  | .daemon e =>
    (∀ x ∈ w.daemon.activates e, ∀ p ∈ findProject w.daemon.publish.catalog x.1,
      ∀ b ∈ p.activeBranch, x.2 ≠ some b →
        ∀ c ∈ w.left p.localPath b, w.read e = some (b, c)) ∧
    (∀ x ∈ w.daemon.leaves e, ∀ p ∈ w.daemon.publish.catalog.projects, p.localPath = x.1 →
      p.activeBranch = some x.2.1) ∧
    e.delivers = false
  | _ => True

instance (w : TransitionWorld Oid Task) (e : TransitionEvent Oid Task) :
    Decidable (w.Undisturbed e) :=
  match e with
  | .daemon _ => inferInstanceAs (Decidable (_ ∧ _))
  | .acquire .. | .refreshed .. | .grant .. => inferInstanceAs (Decidable True)

theorem Undisturbed.queues (G : CommitGraph Oid) {w : TransitionWorld Oid Task}
    {e : TransitionEvent Oid Task} (h : w.Undisturbed e) : w.QueuesOutgoing G e := by
  cases e with
  | daemon e =>
    obtain ⟨hwrites, hleaves, hdelivers⟩ := h
    refine ⟨fun name new hnew p hp b hb hne c hc => ?_, fun path b c hleft i p hp hpath _ hpast =>
      ?_, ?_⟩
    · exact Or.inl (hwrites (name, new) hnew p hp b hb hne c hc)
    · exact absurd (hleaves (path, b, c) hleft p (List.mem_of_getElem? hp) hpath) hpast
    · cases e with
      | reconcile task e => trivial
      | publish e =>
        cases e with
        | deliver e =>
          cases e with
          | push | complete => cases hdelivers
          | _ => trivial
        | _ => trivial
  | _ => trivial

end Undisturbed

end TransitionWorld

section OneProject

/-- A commit and a switch of which the daemon hears nothing. -/
def commitAndLeave (c : ℕ) : List (TransitionEvent ℕ (Fin 2)) :=
  [.daemon (.publish (.user (.commit "/work" c))),
    .daemon (.publish (.user (.switch "/work" "topic" none)))]

/-- A request on `topic` whose transition queues the head of `main`. -/
def acquireQueues (task : Fin 2) : List (TransitionEvent ℕ (Fin 2)) :=
  .acquire task "prj" :: [.transitionBranch, .clone, .create "pub" 5, .push, .record, .activate].map
    (fun e => .daemon (.publish (.call task e))) ++ [.refreshed task true, .grant task]

/-- A request that finds the branch of HEAD recorded, up to its grant. -/
def acquireAtOnce (task : Fin 2) : List (TransitionEvent ℕ (Fin 2)) :=
  [.acquire task "prj", .daemon (.publish (.call task .transitionBranch))]

/-- A refresh that runs to its end: it finds `topic` and queues its head. -/
def refreshTopic (task : Fin 2) : List (TransitionEvent ℕ (Fin 2)) :=
  [.refreshBranch "prj", .refreshHead (.online 1 none), .clone, .create "pub" 5, .push,
    .record].map fun e => .daemon (.publish (.call task e))

theorem outgoing_heads_are_queued_main :
    (∃ w, Runs.run (TransitionWorld.step pairGraph) (.initial currentMain)
        (commitAndLeave 3 ++ acquireQueues 0) = some w ∧
      ("prj", "main", 3) ∈ w.daemon.publish.queue.map (·.source)) ∧
    Runs.Steps (TransitionWorld.step pairGraph) (TransitionWorld.GrantsQueued pairGraph)
      (.initial currentMain) (commitAndLeave 3 ++ acquireQueues 0) := by
  have htest : ((Runs.run (TransitionWorld.step pairGraph) (.initial currentMain)
      (commitAndLeave 3 ++ acquireQueues 0)).map fun w =>
        decide (("prj", "main", 3) ∈ w.daemon.publish.queue.map (·.source))) = some true := by
    decide +kernel
  have hundisturbed : Runs.Steps (TransitionWorld.step pairGraph) TransitionWorld.Undisturbed
      (.initial currentMain) (commitAndLeave 3 ++ acquireQueues 0) := by decide +kernel
  obtain ⟨w, hw, hqueued⟩ := Option.map_eq_some_iff.mp htest
  refine ⟨⟨w, hw, of_decide_eq_true hqueued⟩, ?_⟩
  exact TransitionWorld.outgoing_heads_are_queued pairGraph currentMain _
    (hundisturbed.mono fun _ _ h => h.queues pairGraph)

/-- The refresh finds `topic` and records it as the active branch, so the request
does not see that `main` was left at `3`, which is neither hosted nor queued for
`main`. -/
theorem refresh_loses_outgoing_head :
    ¬ Runs.Steps (TransitionWorld.step pairGraph) (TransitionWorld.GrantsQueued pairGraph)
      (.initial currentMain)
      ((commitAndLeave 3 ++ refreshTopic 0 ++ acquireAtOnce 1) ++ [.grant 1]) := by
  have htest : ((Runs.run (TransitionWorld.step pairGraph) (.initial currentMain)
      (commitAndLeave 3 ++ refreshTopic 0 ++ acquireAtOnce 1)).map fun w =>
        (w.grants 1, w.daemon.position "prj", w.left "/work" "main",
          decide ("main" ∈ w.actives 0))) =
      some (some ("prj", "topic"), some 0, some 3, true) := by decide +kernel
  have hstate : ((Runs.run (TransitionWorld.step pairGraph) (.initial currentMain)
      (commitAndLeave 3 ++ refreshTopic 0 ++ acquireAtOnce 1)).map fun w =>
        (w.daemon.publish.hosted "host/prj" "main", w.daemon.publish.queue.map (·.source),
          decide ((w.daemon.publish.catalog.projects[0]?).map (·.identity) =
            some ("prj", "/work", "host/prj")))) =
      some (some 1, [("prj", "topic", 3)], true) := by decide +kernel
  intro hqueued
  obtain ⟨w, hw, hfields⟩ := Option.map_eq_some_iff.mp htest
  rw [hw, Option.map_some, Option.some.injEq] at hstate
  simp only [Prod.mk.injEq, decide_eq_true_eq] at hfields hstate
  obtain ⟨hgrants, hposition, hleft, hseen⟩ := hfields
  obtain ⟨hhosted, hsources, hproject⟩ := hstate
  obtain ⟨p, hp, hid⟩ := Option.map_eq_some_iff.mp hproject
  obtain ⟨hprojectId, hpath, hurl⟩ : p.projectId = "prj" ∧ p.localPath = "/work" ∧
      p.remoteUrl = "host/prj" := by
    simpa only [LocalProject.identity, Prod.mk.injEq] using hid
  have hgrant := (hqueued.of_append.2 w hw).1
  rw [← hpath] at hleft
  rcases hgrant "prj" "topic" hgrants 0 p hposition hp "main" hseen (by decide) 3 hleft with
    ⟨head, hhead, hancestor⟩ | hmem
  · rw [hurl, hhosted] at hhead
    obtain rfl := Option.some.inj hhead
    exact absurd hancestor (by decide +kernel)
  · rw [hsources, hprojectId] at hmem
    exact absurd hmem (by decide)

end OneProject

end Resync
