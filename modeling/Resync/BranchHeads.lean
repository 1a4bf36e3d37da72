import Mathlib.Data.Fintype.Basic
import Mathlib.Data.List.Nodup
import Resync.HostedForward

/-! A publication names a branch and carries a commit. The two are read at
different times, the branch partly from the catalog, and the checkout may have
moved in between. What is recorded is on the local branch if every read sees
the branch that it is reported for. -/
namespace Resync

variable {Oid Task : Type}

/-- Project IDs are unique, as `registerProject` keeps them, and no ID is the
path of a checkout. -/
structure UniqueIds (c : LocalCatalog Oid) : Prop where
  ids : (c.projects.map (·.projectId)).Nodup
  paths : ∀ p ∈ c.projects, ∀ q ∈ c.projects, p.localPath ≠ q.projectId

theorem UniqueIds.find {c : LocalCatalog Oid} (h : UniqueIds c) {p : LocalProject Oid}
    (hp : p ∈ c.projects) : findProject c p.projectId = some p := by
  have hnamed : p.named p.projectId = true := by
    rw [LocalProject.named, BEq.rfl, Bool.true_or]
  have hsome : (findProject c p.projectId).isSome := List.find?_isSome.mpr ⟨p, hp, hnamed⟩
  obtain ⟨q, hq⟩ := Option.isSome_iff_exists.mp hsome
  have hqc : q ∈ c.projects := findProject_mem hq
  rcases findProject_named hq with hid | hpath
  · rw [hq, List.inj_on_of_nodup_map h.ids hqc hp hid]
  · exact absurd hpath (h.paths q hqc p hp)

theorem LocalRefs.headCommit_of_headBranch {r : LocalRefs Oid} {b : Branch}
    (h : r.headBranch = some b) : r.headCommit = r.heads b := by
  rw [LocalRefs.headBranch] at h
  rw [LocalRefs.headCommit]
  cases hhead : r.head with
  | attached b' =>
    rw [hhead] at h
    rw [← Option.some.inj h]
  | detached c =>
    rw [hhead] at h
    cases h

/-- The commit that a hook or a task carries, with its project and with the
branch at which it was read. -/
def Call.carries : Call Oid → Option (String × Branch × Oid)
  | .hookCommit name _ c (some b) => some (name, b, c)
  | .hookCheckout name _ (some c) (some b) => some (name, b, c)
  | .checkoutReport name _ _ (some c) (some b) => some (name, b, c)
  | .requested name b c _ => some (name, b, c)
  | .cloned _ project b c _ => some (project.projectId, b, c)
  | .created _ p _ => some (p.projectId, p.branch, p.candidateCommitOid)
  | _ => none

def Delivery.carries : Delivery Oid → Option (String × Branch × Oid)
  | .headRead _ p _ head => some (p.projectId, p.branch, head)
  | _ => none

namespace PublishWorld

/-- The publication that a step writes into the queue with a commit that was
read in the checkout. -/
def recordedBy (w : PublishWorld Oid Task) : PublishEvent Oid Task → Option (Publication Oid)
  | .call task .push =>
    match w.calls task with
    | .created _ p _ => some p
    | _ => none
  | .deliver (.retarget now) =>
    match w.delivery with
    | .headRead _ p remoteHead head =>
      (PublicationQueue.find w.queue p.publicationId).map (·.retarget now head remoteHead)
    | _ => none
  | _ => none

variable (G : CommitGraph Oid)

/-- The commit is the tip of the branch in the project's checkout, or an
ancestor of it. -/
def OnBranch (w : PublishWorld Oid Task) (name : String) (b : Branch) (c : Oid) : Prop :=
  ∃ path tip, w.path name = some path ∧ (w.checkouts path).heads b = some tip ∧ G.Ancestor c tip

def RecordsOnBranch (w : PublishWorld Oid Task) (e : PublishEvent Oid Task) : Prop :=
  ∀ q ∈ w.recordedBy e, OnBranch G w q.projectId q.branch q.candidateCommitOid

/-- The users commit, switch and detach. A branch that they set from elsewhere
is new or moves forward. -/
def KeepsHistory (w : PublishWorld Oid Task) : PublishEvent Oid Task → Prop
  | .user (.rewrite path b c) => ∀ h ∈ (w.checkouts path).heads b, G.Ancestor h c
  | _ => True

/-- If the carried commit is of this branch, `new` has it in its history. -/
def CoveredBy (w : PublishWorld Oid Task) (path : String) (b : Branch) (new : Oid)
    (x : String × Branch × Oid) : Prop :=
  w.path x.1 = some path → x.2.1 = b → G.Ancestor x.2.2 new

/-- The condition on the steps that read a commit and on those that move a
branch: the post-commit hook finds HEAD at the branch of the commit, the
branch that was left is the active one of the catalog, HEAD is at the branch
of the refresh and of the delivery when they read it, and a reconciliation
keeps the commits that are on their way to the queue. -/
def ReadsOwnBranch [DecidableEq Oid] (w : PublishWorld Oid Task) :
    PublishEvent Oid Task → Prop
  | .call task .hookBranch =>
    match w.calls task with
    | .hookCommit _ path _ on => ∀ b ∈ (w.checkouts path).headBranch, on = some b
    | _ => True
  | .call task .reportCheckout =>
    match w.calls task with
    | .checkoutReport name _ newBranch (some _) left =>
      ∀ project ∈ findProject w.catalog name, ∀ b ∈ project.activeBranch,
        b ≠ newBranch → left = some b
    | _ => True
  | .call task (.refreshHead (.online generation head)) =>
    match w.calls task with
    | .refreshing name branch =>
      ∀ project ∈ findProject w.catalog name,
        ∀ c ∈ (w.checkouts project.localPath).headCommit,
          (refreshed G (w.advertise project branch generation head) branch c).2 = true →
            (w.checkouts project.localPath).headBranch = some branch
    | _ => True
  | .deliver .readHead =>
    match w.delivery with
    | .reconciled _ p _ =>
      ∀ project ∈ findProject w.catalog p.projectId,
        (w.checkouts project.localPath).headBranch = some p.branch
    | _ => True
  | .install path b new _ =>
    (∀ task, ∀ x ∈ (w.calls task).carries, CoveredBy G w path b new x) ∧
      ∀ x ∈ w.delivery.carries, CoveredBy G w path b new x
  | _ => True

/-- The publications that are queued, under way to the queue, or being
delivered. -/
def InSight (w : PublishWorld Oid Task) (p : Publication Oid) : Prop :=
  p ∈ w.queue ∨ p ∈ w.delivery.copy ∨ ∃ task name next, w.calls task = .created name p next

/-- An ID belongs to one project and one branch. -/
structure Identified (w : PublishWorld Oid Task) : Prop where
  issued : ∀ p, w.InSight p → p.publicationId ∈ w.issued
  same : ∀ p q, w.InSight p → w.InSight q → p.publicationId = q.publicationId → p.target = q.target

/-- What a task carries is on its branch, and the record that it has cloned is
of the right checkout. -/
structure Reads (w : PublishWorld Oid Task) (call : Call Oid) : Prop where
  carried : ∀ name b c, call.carries = some (name, b, c) → OnBranch G w name b c
  cloned : ∀ name project, call = .transition name project → w.path name = some project.localPath

structure Tracked (w : PublishWorld Oid Task) : Prop where
  ids : ∀ name p, findProject w.catalog name = some p → w.path p.projectId = some p.localPath
  calls : ∀ task, Reads G w (w.calls task)
  delivery : ∀ name b c, w.delivery.carries = some (name, b, c) → OnBranch G w name b c

variable {G} {w w' : PublishWorld Oid Task}

theorem target_projectId {p q : Publication Oid} (h : p.target = q.target) :
    p.projectId = q.projectId := congrArg (fun t => t.2.1) h

theorem target_branch {p q : Publication Oid} (h : p.target = q.target) :
    p.branch = q.branch := congrArg (fun t => t.2.2) h

/-- The projects are at the same paths, and no local branch loses a commit. -/
structure HeadsGrow (G : CommitGraph Oid) (w w' : PublishWorld Oid Task) : Prop where
  catalog : SameProjects w.catalog w'.catalog
  heads : ∀ path b tip, (w.checkouts path).heads b = some tip →
    ∃ tip', (w'.checkouts path).heads b = some tip' ∧ G.Ancestor tip tip'

theorem path_of_sameProjects (h : SameProjects w.catalog w'.catalog) (name : String) :
    w'.path name = w.path name := by
  have hname := congrArg (Option.map fun i : String × String × String => i.2.1) (h name)
  rw [Option.map_map, Option.map_map] at hname
  exact hname

theorem headsGrow_of_heads (hcatalog : SameProjects w.catalog w'.catalog)
    (hheads : ∀ path, (w'.checkouts path).heads = (w.checkouts path).heads) : HeadsGrow G w w' := by
  refine ⟨hcatalog, fun path b tip htip => ?_⟩
  rw [hheads path]
  exact ⟨tip, htip, CommitGraph.Ancestor.refl tip⟩

/-- Setting a branch, which is new or goes forward, in one checkout. -/
theorem headsGrow_setHead (w : PublishWorld Oid Task) {path : String} {b : Branch} {c : Oid}
    (h : ∀ x ∈ (w.checkouts path).heads b, G.Ancestor x c) (r : LocalRefs Oid)
    (hr : r.heads = ((w.checkouts path).setHead b c).heads) :
    HeadsGrow G w (w.setCheckout path r) := by
  refine ⟨SameProjects.refl _, fun path' b' tip htip => ?_⟩
  change ∃ tip', (Function.update w.checkouts path r path').heads b' = some tip' ∧ _
  by_cases hpath : path' = path
  · subst hpath
    rw [Function.update_self, hr, LocalRefs.setHead]
    by_cases hb : b' = b
    · subst hb
      exact ⟨c, Function.update_self .., h tip htip⟩
    · exact ⟨tip, (Function.update_of_ne hb ..).trans htip, CommitGraph.Ancestor.refl tip⟩
  · rw [Function.update_of_ne hpath]
    exact ⟨tip, htip, CommitGraph.Ancestor.refl tip⟩

/-- HEAD or the publication refs of one checkout change. -/
theorem headsGrow_setCheckout (w : PublishWorld Oid Task) (path : String) (r : LocalRefs Oid)
    (hr : r.heads = (w.checkouts path).heads) : HeadsGrow G w (w.setCheckout path r) := by
  refine headsGrow_of_heads (SameProjects.refl w.catalog) fun path' => ?_
  change (Function.update w.checkouts path r path').heads = _
  by_cases hpath : path' = path
  · subst hpath
    rw [Function.update_self, hr]
  · rw [Function.update_of_ne hpath]

theorem HeadsGrow.onBranch (h : HeadsGrow G w w') {name : String} {b : Branch} {c : Oid}
    (hon : OnBranch G w name b c) : OnBranch G w' name b c := by
  obtain ⟨path, tip, hpath, htip, hc⟩ := hon
  obtain ⟨tip', htip', hgrow⟩ := h.heads path b tip htip
  exact ⟨path, tip', (path_of_sameProjects h.catalog name).trans hpath, htip', hc.trans hgrow⟩

theorem Reads.grow (hgrow : HeadsGrow G w w') {call : Call Oid} (h : Reads G w call) :
    Reads G w' call where
  carried name b c hc := hgrow.onBranch (h.carried name b c hc)
  cloned name project hc :=
    (path_of_sameProjects hgrow.catalog name).trans (h.cloned name project hc)

/-- A step keeps the invariant if no branch loses a commit, and what a task or
the delivery has newly read is on its branch. -/
theorem Tracked.grow (h : Tracked G w) (hgrow : HeadsGrow G w w')
    (hcalls : ∀ task, w'.calls task = w.calls task ∨ Reads G w' (w'.calls task))
    (hdelivery : ∀ name b c, w'.delivery.carries = some (name, b, c) →
      w.delivery.carries = some (name, b, c) ∨ OnBranch G w' name b c) : Tracked G w' where
  ids name p hp := by
    obtain ⟨q, hq, hid⟩ := hgrow.catalog.find_back hp
    rw [path_of_sameProjects hgrow.catalog, ← identity_projectId hid, ← identity_localPath hid]
    exact h.ids name q hq
  calls task := by
    rcases hcalls task with hsame | hnew
    · rw [hsame]
      exact (h.calls task).grow hgrow
    · exact hnew
  delivery name b c hc := by
    rcases hdelivery name b c hc with hold | hnew
    · exact hgrow.onBranch (h.delivery name b c hold)
    · exact hnew

/-- A task that carries nothing. -/
theorem reads_nothing {call : Call Oid} (hcarries : call.carries = none)
    (htransition : ∀ name project, call ≠ .transition name project) : Reads G w call where
  carried name b c hc := by
    rw [hcarries] at hc
    cases hc
  cloned name project hc := absurd hc (htransition name project)

theorem reads_idle : Reads G w (.idle : Call Oid) := reads_nothing rfl fun _ _ h => by cases h

theorem reads_next (name : String) (next : Next) : Reads G w (next.call name : Call Oid) := by
  cases next with
  | done => exact reads_idle
  | activate branch => exact reads_nothing rfl fun _ _ h => by cases h

theorem reads_requested {name : String} {b : Branch} {c : Oid} (next : Next)
    (h : OnBranch G w name b c) : Reads G w (.requested name b c next) where
  carried name' b' c' hc := by
    cases hc
    exact h
  cloned name' project hc := by cases hc

theorem Reads.afterRestart {call : Call Oid} (h : Reads G w call) :
    Reads G w call.afterRestart := by
  cases call with
  | hookCommit | hookCheckout | checkoutReport => exact h
  | _ => exact reads_idle

/-- What is recorded is on its branch, as the invariants have it. -/
theorem Tracked.records (h : Tracked G w) (hid : Identified w) (e : PublishEvent Oid Task) :
    RecordsOnBranch G w e := by
  intro q hq
  cases e with
  | call task e =>
    cases e with
    | push =>
      simp only [recordedBy] at hq
      split at hq
      · next name p next hcreated =>
        obtain rfl := Option.mem_some.mp hq
        apply (h.calls task).carried
        rw [hcreated]
        rfl
      · cases hq
    | _ => cases hq
  | deliver e =>
    cases e with
    | retarget now =>
      simp only [recordedBy] at hq
      split at hq
      · next a p remoteHead head hplace =>
        obtain ⟨x, hx, rfl⟩ := Option.map_eq_some_iff.mp hq
        obtain ⟨hmem, hxid⟩ := PublicationQueue.find_eq_some hx
        have hp : w.InSight p := by
          refine Or.inr (Or.inl ?_)
          rw [hplace]
          exact Option.mem_some_self p
        have htarget : x.target = p.target := hid.same x p (Or.inl hmem) hp hxid
        have hon : OnBranch G w p.projectId p.branch head := by
          apply h.delivery
          rw [hplace]
          rfl
        rw [← target_projectId htarget, ← target_branch htarget] at hon
        exact hon
      · cases hq
    | _ => cases hq
  | _ => cases hq

theorem Start.tracked (h : Start w) (hids : UniqueIds w.catalog) : Tracked G w where
  ids name p hp := by
    rw [path, hids.find (findProject_mem hp)]
    rfl
  calls task := by
    rw [h.calls task]
    exact reads_idle
  delivery name b c hc := by
    rw [h.delivery] at hc
    cases hc

namespace Tracked

section Steps

variable [DecidableEq Task]

/-- The hook that a switch starts carries the head that was left, at the branch
that was left. -/
theorem startHook {u : PublishWorld Oid Task} (h : Tracked G w) {path : String}
    {previous : Option Oid} {left : Option Branch} {hook : Option (Task × String)}
    (hs : u.startHook path previous left hook = some w') (hgrow : HeadsGrow G w u)
    (hframe : u.calls = w.calls ∧ u.delivery = w.delivery)
    (hleft : ∀ b c, left = some b → previous = some c → (u.checkouts path).heads b = some c) :
    Tracked G w' := by
  have hu : Tracked G u := by
    apply h.grow hgrow
    · intro task
      rw [hframe.1]
      exact Or.inl rfl
    · intro name b c hc
      rw [hframe.2] at hc
      exact Or.inl hc
  cases hook with
  | none =>
    obtain rfl := Option.some.inj hs
    exact hu
  | some hook =>
    obtain ⟨task, name⟩ := hook
    simp only [PublishWorld.startHook] at hs
    split at hs
    · split at hs
      · next hpath =>
        obtain rfl := Option.some.inj hs
        refine hu.grow (headsGrow_of_heads (SameProjects.refl _) fun _ => rfl) (fun t => ?_)
          fun name b c hc => Or.inl hc
        -- The call of the hook is the only one that changes: it carries `previous` at the
        -- branch `left`.
        by_cases ht : t = task
        · subst ht
          rw [calls_setCall]
          refine Or.inr ⟨fun name' b c hc => ?_, fun name' project hc => ?_⟩
          · cases previous with
            | none => cases hc
            | some commit =>
              cases left with
              | none => cases hc
              | some branch =>
                cases hc
                exact ⟨path, c, hpath, hleft b c rfl rfl, CommitGraph.Ancestor.refl c⟩
          · cases hc
        · exact Or.inl (calls_setCall_of_ne u _ ht)
      · cases hs
    · cases hs

variable [DecidableEq Oid]

/-- The users keep the invariant if they keep the history of the branches. -/
theorem user (h : Tracked G w) {e : UserEvent Oid Task} (hok : KeepsHistory G w (.user e))
    (hs : w.user G e = some w') : Tracked G w' := by
  have hsame : ∀ {u : PublishWorld Oid Task}, HeadsGrow G w u → u.calls = w.calls →
      u.delivery = w.delivery → Tracked G u := by
    intro u hgrow hcalls hdelivery
    apply h.grow hgrow
    · intro task
      rw [hcalls]
      exact Or.inl rfl
    · intro name b c hc
      rw [hdelivery] at hc
      exact Or.inl hc
  cases e with
  | commit path c =>
    simp only [PublishWorld.user] at hs
    split at hs
    · next hforward =>
      split at hs
      · next b hhead =>
        obtain rfl := Option.some.inj hs
        refine hsame (headsGrow_setHead w (fun x hx => hforward x ?_) _ rfl) rfl rfl
        rw [LocalRefs.headCommit, hhead]
        exact hx
      · obtain rfl := Option.some.inj hs
        exact hsame (headsGrow_setCheckout w path _ rfl) rfl rfl
    · cases hs
  | rewrite path b c =>
    obtain rfl := Option.some.inj hs
    exact hsame (headsGrow_setHead w hok _ rfl) rfl rfl
  | switch path b hook =>
    simp only [PublishWorld.user] at hs
    split at hs
    · refine h.startHook hs (headsGrow_setCheckout w path _ rfl) ⟨rfl, rfl⟩ fun b' c hb' hc => ?_
      change (Function.update w.checkouts path _ path).heads b' = some c
      rw [Function.update_self]
      exact (LocalRefs.headCommit_of_headBranch hb').symm.trans hc
    · next c hnew hcommit =>
      refine h.startHook hs (headsGrow_setHead w ?_ _ rfl) ⟨rfl, rfl⟩ fun b' c' hb' hc' => ?_
      · intro x hx
        rw [hnew] at hx
        cases hx
      · have hold : (w.checkouts path).heads b' = some c' := by
          rw [← LocalRefs.headCommit_of_headBranch hb', hcommit, hc']
        -- The branch that was left is there, so it is not the one that is made.
        have hne : b' ≠ b := by
          rintro rfl
          rw [hnew] at hold
          cases hold
        change (Function.update w.checkouts path _ path).heads b' = some c'
        rw [Function.update_self]
        exact (Function.update_of_ne hne ..).trans hold
    · cases hs
  | detach path c hook =>
    simp only [PublishWorld.user] at hs
    refine h.startHook hs (headsGrow_setCheckout w path _ rfl) ⟨rfl, rfl⟩ fun b' c' hb' hc' => ?_
    change (Function.update w.checkouts path _ path).heads b' = some c'
    rw [Function.update_self]
    exact (LocalRefs.headCommit_of_headBranch hb').symm.trans hc'
  | otherPush url b c =>
    simp only [PublishWorld.user] at hs
    split at hs
    · obtain rfl := Option.some.inj hs
      exact hsame (headsGrow_of_heads (SameProjects.refl _) fun _ => rfl) rfl rfl
    · cases hs

/-- A task leaves the local branches alone. -/
theorem call_headsGrow {task : Task} {e : CallEvent Oid} (hs : w.call G task e = some w') :
    HeadsGrow G w w' := by
  obtain ⟨hframe, hcases⟩ := call_cases hs
  apply headsGrow_of_heads hframe.catalog
  intro path
  rcases hcases with hquiet | ⟨name, project, b, c, next, p, hcreates⟩ | ⟨p, hpushes⟩
  · rw [hquiet.checkouts]
  · rw [hcreates.checkouts]
    by_cases hpath : path = project.localPath
    · subst hpath
      rw [Function.update_self, LocalRefs.setPublication]
    · rw [Function.update_of_ne hpath]
  · rw [hpushes.checkouts]

/-- What a task reads in a checkout is on the branch that it is read for. -/
theorem call_reads (h : Tracked G w) {task : Task} {e : CallEvent Oid}
    (hok : ReadsOwnBranch G w (.call task e)) (hs : w.call G task e = some w') :
    Reads G w (w'.calls task) := by
  have hread : ∀ {name : String} {b : Branch} {c : Oid} {path : String}, w.path name = some path →
      (w.checkouts path).heads b = some c → OnBranch G w name b c :=
    fun hpath hc => ⟨_, _, hpath, hc, CommitGraph.Ancestor.refl _⟩
  have hcarried := (h.calls task).carried
  cases callStep_of_call hs with
  | @commits name path c place known head =>
    rw [calls_setCall]
    refine ⟨fun name' b c' hcarries => ?_, fun _ _ h => by cases h⟩
    cases hbranch : (w.checkouts path).headBranch with
    | none =>
      rw [hbranch] at hcarries
      cases hcarries
    | some branch =>
      rw [hbranch] at hcarries
      cases hcarries
      exact hread known ((LocalRefs.headCommit_of_headBranch hbranch).symm.trans head)
  | @readsCommitted name path c on b place branch =>
    have hon : on = some b := by
      simp only [ReadsOwnBranch, place] at hok
      exact hok b branch
    subst hon
    rw [place] at hcarried
    rw [calls_setCall]
    exact reads_requested _ (hcarried name b c rfl)
  | @readsCheckedOut name path previous left b place =>
    rw [place] at hcarried
    rw [calls_setCall]
    refine ⟨fun name' b c' hcarries => hcarried name' b c' ?_, fun _ _ h => by cases h⟩
    cases previous with
    | none => cases hcarries
    | some commit =>
      cases left with
      | none => cases hcarries
      | some branch => exact hcarries
  | @reportsOther name path b previousBranch c left project place found active other =>
    have hleft : left = some previousBranch := by
      simp only [ReadsOwnBranch, place] at hok
      exact hok project found previousBranch active other
    rw [place, hleft] at hcarried
    rw [calls_setCall]
    exact reads_requested _ (hcarried name previousBranch c rfl)
  | @transitions name project place found =>
    rw [calls_setCall]
    refine ⟨fun _ _ _ hc => (by cases hc), fun name' project' hcall => ?_⟩
    cases hcall
    rw [PublishWorld.path, found]
    rfl
  | @leaves name project actual previous c place branch active other head =>
    rw [calls_setCall]
    exact reads_requested _ (hread ((h.calls task).cloned name project place) head)
  | @refreshes name branch project generation head localHead result place found headCommit decides =>
    rw [calls_setCall]
    split
    · next hpublish =>
      have hbranch : (w.checkouts project.localPath).headBranch = some branch := by
        simp only [ReadsOwnBranch, place] at hok
        exact hok project found localHead headCommit (decides ▸ hpublish)
      exact reads_requested _ (hread (h.ids name project found)
        ((LocalRefs.headCommit_of_headBranch hbranch).symm.trans headCommit))
    · exact reads_idle
  | publishes place known head =>
    rw [calls_setCall]
    exact reads_requested _ (hread known head)
  | @clones name b c next project place found =>
    rw [calls_setCall]
    refine ⟨fun name' b' c' hcarries => ?_, fun _ _ h => by cases h⟩
    cases hcarries
    rw [place] at hcarried
    obtain ⟨path, tip, hpath, htip, hc⟩ : OnBranch G w name b c := hcarried name b c rfl
    have hsame : path = project.localPath := by
      rw [PublishWorld.path, found] at hpath
      exact (Option.some.inj hpath).symm
    exact ⟨path, tip, hsame ▸ h.ids name project found, htip, hc⟩
  | finds =>
    rw [calls_setCall]
    exact reads_next _ _
  | creates place =>
    rw [place] at hcarried
    refine ⟨fun name' b' c' hcarries => hcarried name' b' c' ?_, fun name' project' hcall' => ?_⟩
    · rw [calls_setCall] at hcarries
      exact hcarries
    · rw [calls_setCall] at hcall'
      cases hcall'
  | records =>
    rw [calls_setCall]
    exact reads_next _ _
  | reportsSame | reportsFirst | hasNoActive | leavesDeleted | queues =>
    rw [calls_setCall]
    exact reads_nothing rfl fun _ _ h => by cases h
  | refreshesBranch =>
    rw [calls_setCall]
    exact reads_nothing rfl fun _ _ h => by cases h
  | _ =>
    -- the task is done
    rw [calls_setCall]
    exact reads_idle

theorem call (h : Tracked G w) {task : Task} {e : CallEvent Oid}
    (hok : ReadsOwnBranch G w (.call task e)) (hs : w.call G task e = some w') :
    Tracked G w' := by
  have hframe := (call_cases hs).1
  have hgrow := call_headsGrow hs
  apply h.grow hgrow
  · intro t
    by_cases ht : t = task
    · subst ht
      exact Or.inr ((h.call_reads hok hs).grow hgrow)
    · exact Or.inl (hframe.calls t ht)
  · intro name b c hc
    rw [hframe.delivery] at hc
    exact Or.inl hc

omit [DecidableEq Task] in
/-- The delivery carries a HEAD only after it has read one. -/
theorem deliver_carries {e : DeliveryEvent Oid} (hs : w.deliver G e = some w') {name : String}
    {b : Branch} {c : Oid} (hc : w'.delivery.carries = some (name, b, c)) :
    ∃ a p remoteHead, e = .readHead ∧ w.delivery = .reconciled a p remoteHead ∧
      w'.delivery = .headRead a p remoteHead c ∧ name = p.projectId ∧ b = p.branch ∧
      ∃ project, findProject w.catalog p.projectId = some project ∧
        (w.checkouts project.localPath).headCommit = some c := by
  cases deliveryStep_of_deliver hs with
  | readsHead place found headCommit =>
    cases hc
    exact ⟨_, _, _, rfl, place, rfl, rfl, rfl, _, found, headCommit⟩
  | @pushes a p project answered => cases answered <;> cases hc
  | _ => cases hc

omit [DecidableEq Task] in
theorem deliver (h : Tracked G w) {e : DeliveryEvent Oid}
    (hok : ReadsOwnBranch G w (.deliver e : PublishEvent Oid Task))
    (hs : w.deliver G e = some w') : Tracked G w' := by
  have hframe := deliver_frame hs
  have hgrow : HeadsGrow G w w' :=
    headsGrow_of_heads hframe.catalog fun path => (hframe.heads path).2
  apply h.grow hgrow
  · intro task
    rw [hframe.calls]
    exact Or.inl rfl
  · intro name b c hc
    obtain ⟨a, p, remoteHead, rfl, hplace, -, rfl, rfl, project, hproject, hhead⟩ :=
      deliver_carries hs hc
    have hbranch : (w.checkouts project.localPath).headBranch = some p.branch := by
      simp only [ReadsOwnBranch, hplace] at hok
      exact hok project hproject
    refine Or.inr (hgrow.onBranch ⟨project.localPath, c, ?_, ?_, CommitGraph.Ancestor.refl c⟩)
    · rw [PublishWorld.path, hproject]
      rfl
    · exact (LocalRefs.headCommit_of_headBranch hbranch).symm.trans hhead

theorem step (h : Tracked G w) {e : PublishEvent Oid Task} (hkeeps : KeepsHistory G w e)
    (hok : ReadsOwnBranch G w e) (hs : w.step G e = some w') : Tracked G w' := by
  cases e with
  | user e => exact h.user hkeeps hs
  | call task e => exact h.call hok hs
  | deliver e => exact h.deliver hok hs
  | writeProject name record =>
    obtain ⟨rfl, hsame⟩ := writeProject_eq_some hs
    exact h.grow (headsGrow_of_heads hsame fun _ => rfl) (fun _ => Or.inl rfl)
      fun _ _ _ hc => Or.inl hc
  | install path b new old =>
    obtain rfl := install_eq_some hs
    have hinstalled : ∀ {name : String} {b' : Branch} {c : Oid},
        CoveredBy G w path b new (name, b', c) → OnBranch G w name b' c →
        OnBranch G (w.setCheckout path ((w.checkouts path).setHead b new)) name b' c := by
      rintro name b' c hcovered ⟨path', tip, hpath, htip, hc⟩
      by_cases hsame : path' = path ∧ b' = b
      · obtain ⟨rfl, rfl⟩ := hsame
        refine ⟨path', new, hpath, ?_, hcovered hpath rfl⟩
        change (Function.update w.checkouts path' _ path').heads b' = some new
        rw [Function.update_self]
        exact Function.update_self ..
      · refine ⟨path', tip, hpath, ?_, hc⟩
        change (Function.update w.checkouts path _ path').heads b' = some tip
        by_cases hpath' : path' = path
        · subst hpath'
          rw [Function.update_self]
          exact (Function.update_of_ne (fun hb => hsame ⟨rfl, hb⟩) ..).trans htip
        · rw [Function.update_of_ne hpath']
          exact htip
    refine ⟨h.ids, fun task => ⟨fun name b' c hc => ?_, (h.calls task).cloned⟩,
      fun name b' c hc => ?_⟩
    · exact hinstalled (hok.1 task _ hc) ((h.calls task).carried name b' c hc)
    · exact hinstalled (hok.2 _ hc) (h.delivery name b' c hc)
  | restart =>
    obtain rfl := Option.some.inj hs
    refine ⟨h.ids, fun task => ?_, fun name b c hc => by cases hc⟩
    have hread := (h.calls task).afterRestart
    exact ⟨hread.carried, hread.cloned⟩

end Steps

end Tracked

namespace Identified

/-- A step keeps the invariant if it makes no new publication. -/
theorem of_known (h : Identified w) (hissued : ∀ id ∈ w.issued, id ∈ w'.issued)
    (hknown : ∀ q, w'.InSight q → ∃ p, w.InSight p ∧ q.target = p.target) : Identified w' where
  issued q hq := by
    obtain ⟨p, hp, htarget⟩ := hknown q hq
    have hid : q.publicationId = p.publicationId := congrArg Prod.fst htarget
    rw [hid]
    exact hissued _ (h.issued p hp)
  same q r hq hr hid := by
    obtain ⟨p, hp, hqp⟩ := hknown q hq
    obtain ⟨s, hs, hrs⟩ := hknown r hr
    have hps : p.publicationId = s.publicationId :=
      (congrArg Prod.fst hqp).symm.trans (hid.trans (congrArg Prod.fst hrs))
    exact hqp.trans ((h.same p s hp hs hps).trans hrs.symm)

theorem of_start (h : Start w) : Identified w := by
  have hnone : ∀ p, ¬ w.InSight p := by
    rintro p (hp | hp | ⟨task, name, next, hp⟩)
    · rw [h.queue] at hp
      cases hp
    · rw [h.delivery] at hp
      cases hp
    · rw [h.calls task] at hp
      cases hp
  exact ⟨fun p hp => absurd hp (hnone p), fun p _ hp => absurd hp (hnone p)⟩

variable [DecidableEq Task] [DecidableEq Oid]

theorem call (h : Identified w) {task : Task} {e : CallEvent Oid}
    (hs : w.call G task e = some w') : Identified w' := by
  obtain ⟨hframe, hcases⟩ := call_cases hs
  have hothers : ∀ {t name q next}, t ≠ task → w'.calls t = .created name q next →
      ∃ p, w.InSight p ∧ q.target = p.target := by
    intro t name q next ht hc
    rw [hframe.calls t ht] at hc
    exact ⟨q, Or.inr (Or.inr ⟨t, name, next, hc⟩), rfl⟩
  have hcopy : ∀ {q}, q ∈ w'.delivery.copy → ∃ p, w.InSight p ∧ q.target = p.target := by
    intro q hq
    rw [hframe.delivery] at hq
    exact ⟨q, Or.inr (Or.inl hq), rfl⟩
  rcases hcases with hquiet | ⟨name, project, b, c, next, p, hcreates⟩ | ⟨p, hpushes⟩
  · apply h.of_known
    · rw [hquiet.queue.issued]
      exact fun _ hid => hid
    · rintro q (hq | hq | ⟨t, name, next, hc⟩)
      · rw [hquiet.queue.queue] at hq
        exact ⟨q, Or.inl hq, rfl⟩
      · exact hcopy hq
      · by_cases ht : t = task
        · subst ht
          have hnot := hquiet.notCreated
          rw [hc] at hnot
          exact absurd trivial hnot
        · exact hothers ht hc
  · obtain ⟨id, now, -, hfresh, hissued, hp⟩ := hcreates.publication
    -- A known publication was known before, or it is the new one with its fresh ID.
    have hknown : ∀ q, w'.InSight q → q = p ∨ w.InSight q := by
      rintro q (hq | hq | ⟨t, name', next', hc⟩)
      · rw [hcreates.queue] at hq
        exact Or.inr (Or.inl hq)
      · rw [hframe.delivery] at hq
        exact Or.inr (Or.inr (Or.inl hq))
      · by_cases ht : t = task
        · subst ht
          rw [hcreates.created] at hc
          cases hc
          exact Or.inl rfl
        · rw [hframe.calls t ht] at hc
          exact Or.inr (Or.inr (Or.inr ⟨t, name', next', hc⟩))
    have hid : p.publicationId = id := by rw [hp, Publication.new]
    have hold : ∀ q, w.InSight q → q.publicationId ≠ p.publicationId := by
      intro q hq heq
      rw [hid] at heq
      exact hfresh (heq ▸ h.issued q hq)
    refine ⟨fun q hq => ?_, fun q r hq hr heq => ?_⟩
    · rw [hissued]
      rcases hknown q hq with rfl | hq
      · rw [hid]
        exact List.mem_cons_self
      · exact List.mem_cons_of_mem id (h.issued q hq)
    · rcases hknown q hq with rfl | hq
      · rcases hknown r hr with rfl | hr
        · rfl
        · exact absurd heq.symm (hold r hr)
      · rcases hknown r hr with rfl | hr
        · exact absurd heq (hold q hq)
        · exact h.same q r hq hr heq
  · obtain ⟨name, next, hcreated, hqueued⟩ := hpushes.created
    apply h.of_known
    · rw [hpushes.issued]
      exact fun _ hid => hid
    · rintro q (hq | hq | ⟨t, name', next', hc⟩)
      · rw [hpushes.queue] at hq
        rcases List.mem_append.mp hq with hq | hq
        · exact ⟨q, Or.inl hq, rfl⟩
        · rw [List.mem_singleton.mp hq]
          exact ⟨p, Or.inr (Or.inr ⟨task, name, next, hcreated⟩), rfl⟩
      · exact hcopy hq
      · by_cases ht : t = task
        · subst ht
          rw [hqueued] at hc
          cases hc
        · exact hothers ht hc

omit [DecidableEq Task] in
theorem deliver (h : Identified w) {e : DeliveryEvent Oid} (hs : w.deliver G e = some w') :
    Identified w' := by
  have hframe := deliver_frame hs
  apply h.of_known
  · rw [hframe.issued]
    exact fun _ hid => hid
  · rintro q (hq | hq | ⟨t, name, next, hc⟩)
    · rcases hframe.queue q hq with ⟨p, hp, htarget, -⟩ |
        ⟨now, a, p, remoteHead, head, x, -, -, hx, rfl⟩
      · exact ⟨p, Or.inl hp, htarget⟩
      · exact ⟨x, Or.inl (PublicationQueue.find_eq_some hx).1, rfl⟩
    · rcases hframe.copy q hq with hq | hq
      · exact ⟨q, Or.inr (Or.inl hq), rfl⟩
      · exact ⟨q, Or.inl hq, rfl⟩
    · rw [hframe.calls] at hc
      exact ⟨q, Or.inr (Or.inr ⟨t, name, next, hc⟩), rfl⟩

theorem step (h : Identified w) {e : PublishEvent Oid Task} (hs : w.step G e = some w') :
    Identified w' := by
  cases e with
  | user e =>
    obtain ⟨hframe, -⟩ := user_frame hs
    apply h.of_known
    · rw [hframe.queue.issued]
      exact fun _ hid => hid
    · rintro q (hq | hq | ⟨t, name, next, hc⟩)
      · rw [hframe.queue.queue] at hq
        exact ⟨q, Or.inl hq, rfl⟩
      · rw [hframe.delivery] at hq
        exact ⟨q, Or.inr (Or.inl hq), rfl⟩
      · rcases hframe.calls t with hsame | ⟨_, _, _, _, hhook⟩
        · rw [hsame] at hc
          exact ⟨q, Or.inr (Or.inr ⟨t, name, next, hc⟩), rfl⟩
        · rw [hhook] at hc
          cases hc
  | call task e => exact h.call hs
  | deliver e => exact h.deliver hs
  | writeProject name record =>
    obtain ⟨rfl, -⟩ := writeProject_eq_some hs
    exact ⟨h.issued, h.same⟩
  | install path b new old =>
    obtain rfl := install_eq_some hs
    exact ⟨h.issued, h.same⟩
  | restart =>
    obtain rfl := Option.some.inj hs
    refine h.of_known (fun _ hid => hid) ?_
    rintro q (hq | hq | ⟨t, name, next, hc⟩)
    · exact ⟨q, Or.inl hq, rfl⟩
    · cases hq
    · have hnot := afterRestart_not_created (w.calls t)
      have hc : (w.calls t).afterRestart = .created name q next := hc
      rw [hc] at hnot
      exact absurd trivial hnot

end Identified

variable [DecidableEq Task] [DecidableEq Oid]

/-- What is in the queue after a step was there before with the same commit, or
the step has recorded it. -/
theorem queue_of_step {e : PublishEvent Oid Task} (hs : w.step G e = some w')
    {q : Publication Oid} (hq : q ∈ w'.queue) :
    q ∈ w.recordedBy e ∨
      ∃ p ∈ w.queue, q.target = p.target ∧ q.candidateCommitOid = p.candidateCommitOid := by
  cases e with
  | user e =>
    rw [(user_frame hs).1.queue.queue] at hq
    exact Or.inr ⟨q, hq, rfl, rfl⟩
  | call task e =>
    obtain ⟨-, hquiet | ⟨name, project, b, c, next, p, hcreates⟩ | ⟨p, hpushes⟩⟩ := call_cases hs
    · rw [hquiet.queue.queue] at hq
      exact Or.inr ⟨q, hq, rfl, rfl⟩
    · rw [hcreates.queue] at hq
      exact Or.inr ⟨q, hq, rfl, rfl⟩
    · obtain ⟨name, next, hcreated, -⟩ := hpushes.created
      obtain rfl := hpushes.event
      rw [hpushes.queue] at hq
      rcases List.mem_append.mp hq with hq | hq
      · exact Or.inr ⟨q, hq, rfl, rfl⟩
      · refine Or.inl ?_
        simp only [recordedBy, hcreated]
        exact Option.mem_some.mpr (List.mem_singleton.mp hq).symm
  | deliver e =>
    rcases (deliver_frame hs).queue q hq with
      ⟨p, hp, htarget, hcandidate, -⟩ | ⟨now, a, p, remoteHead, head, x, rfl, hplace, hx, rfl⟩
    · exact Or.inr ⟨p, hp, htarget, hcandidate⟩
    · refine Or.inl ?_
      simp only [recordedBy, hplace, hx]
      rfl
  | writeProject name record =>
    obtain ⟨rfl, -⟩ := writeProject_eq_some hs
    exact Or.inr ⟨q, hq, rfl, rfl⟩
  | install path b new old =>
    obtain rfl := install_eq_some hs
    exact Or.inr ⟨q, hq, rfl, rfl⟩
  | restart =>
    obtain rfl := Option.some.inj hs
    exact Or.inr ⟨q, hq, rfl, rfl⟩

/-- What is in the queue after a run was there before it, or a step of the run has
recorded it. -/
theorem queue_of_run {es : List (PublishEvent Oid Task)} (hr : Runs.run (step G) w es = some w')
    {q : Publication Oid} (hq : q ∈ w'.queue) :
    (∃ p ∈ w.queue, q.target = p.target ∧ q.candidateCommitOid = p.candidateCommitOid) ∨
      ∃ fs e gs v, es = fs ++ e :: gs ∧ Runs.run (step G) w fs = some v ∧
        ∃ p ∈ v.recordedBy e,
          q.target = p.target ∧ q.candidateCommitOid = p.candidateCommitOid := by
  induction es using List.reverseRecOn generalizing w' q with
  | nil =>
    obtain rfl := Option.some.inj hr
    exact Or.inl ⟨q, hq, rfl, rfl⟩
  | append_singleton es e ih =>
    obtain ⟨v, hv, hlast⟩ := (Runs.run_append_eq_some _).mp hr
    obtain ⟨u, hs, hu⟩ := (Runs.run_cons_eq_some _).mp hlast
    obtain rfl := Option.some.inj hu
    rcases queue_of_step hs hq with hq | ⟨p, hp, htarget, hcandidate⟩
    · exact Or.inr ⟨es, e, [], v, rfl, hv, q, hq, rfl, rfl⟩
    · rcases ih hv hp with ⟨r, hr, hrtarget, hrcandidate⟩ |
        ⟨fs, f, gs, x, rfl, hx, r, hr, hrtarget, hrcandidate⟩
      · exact Or.inl ⟨r, hr, htarget.trans hrtarget, hcandidate.trans hrcandidate⟩
      · refine Or.inr ⟨fs, f, gs ++ [e], x, ?_, hx, r, hr, htarget.trans hrtarget,
          hcandidate.trans hrcandidate⟩
        rw [List.append_assoc, List.cons_append]

/-- In every run in which the commits are read at the branches that they are
reported for, everything that is recorded in the queue is on its local branch
at that moment. -/
theorem recorded_on_branch (h0 : Start w) (hids : UniqueIds w.catalog)
    {es : List (PublishEvent Oid Task)} (hkeeps : Runs.Steps (step G) (KeepsHistory G) w es)
    (hreads : Runs.Steps (step G) (ReadsOwnBranch G) w es) :
    Runs.Steps (step G) (RecordsOnBranch G) w es := by
  have hstep : ∀ (s : PublishWorld Oid Task) (e : PublishEvent Oid Task) t,
      Tracked G s ∧ Identified s → KeepsHistory G s e ∧ ReadsOwnBranch G s e →
      step G s e = some t → Tracked G t ∧ Identified t :=
    fun _ _ _ h hok hs => ⟨h.1.step hok.1 hok.2 hs, h.2.step hs⟩
  exact Runs.Steps.of_invariant hstep (fun _ e h _ => h.1.records h.2 e)
    ⟨h0.tracked hids, .of_start h0⟩ (hkeeps.and hreads)

end PublishWorld

section TwoBranches

instance (G : CommitGraph Oid) [DecidableEq Oid] (w : PublishWorld Oid Task)
    (e : PublishEvent Oid Task) : Decidable (w.KeepsHistory G e) := by
  delta PublishWorld.KeepsHistory
  rcases e with e | _ | _ | _ | _ | _
  case user => rcases e <;> infer_instance
  all_goals infer_instance

instance (G : CommitGraph Oid) [DecidableEq Oid] (w : PublishWorld Oid Task) (path : String)
    (b : Branch) (new : Oid) (x : String × Branch × Oid) :
    Decidable (w.CoveredBy G path b new x) :=
  inferInstanceAs (Decidable (_ → _ → _))

instance (G : CommitGraph Oid) [DecidableEq Oid] [Fintype Task] (w : PublishWorld Oid Task)
    (e : PublishEvent Oid Task) : Decidable (w.ReadsOwnBranch G e) := by
  delta PublishWorld.ReadsOwnBranch
  rcases e with _ | ⟨task, e⟩ | e | _ | _ | _
  case call =>
    rcases e
    case hookBranch =>
      dsimp only
      generalize w.calls task = c
      rcases c <;> infer_instance
    case reportCheckout =>
      dsimp only
      generalize w.calls task = c
      rcases c
      case checkoutReport name path newBranch previous left =>
        rcases previous <;> infer_instance
      all_goals infer_instance
    case refreshHead answer =>
      rcases answer
      case online generation head =>
        dsimp only
        generalize w.calls task = c
        rcases c <;> infer_instance
      all_goals infer_instance
    all_goals infer_instance
  case deliver =>
    generalize w.delivery = d
    rcases e <;> rcases d <;> infer_instance
  all_goals infer_instance

theorem uniqueIds_currentMain : UniqueIds currentMain.catalog where
  ids := by decide
  paths := by decide

instance (G : CommitGraph Oid) [DecidableEq Oid] (w : PublishWorld Oid Task) (name : String)
    (b : Branch) (c : Oid) : Decidable (w.OnBranch G name b c) :=
  decidable_of_iff (∃ tip ∈ (w.path name).bind fun path => (w.checkouts path).heads b,
    G.Ancestor c tip) (by
      constructor
      · rintro ⟨tip, htip, hc⟩
        obtain ⟨path, hpath, hhead⟩ := Option.bind_eq_some_iff.mp htip
        exact ⟨path, tip, hpath, hhead, hc⟩
      · rintro ⟨path, tip, hpath, hhead, hc⟩
        exact ⟨tip, Option.bind_eq_some_iff.mpr ⟨path, hpath, hhead⟩, hc⟩)

instance (G : CommitGraph Oid) [DecidableEq Oid] (w : PublishWorld Oid Task)
    (e : PublishEvent Oid Task) : Decidable (w.RecordsOnBranch G e) :=
  inferInstanceAs (Decidable (∀ q ∈ w.recordedBy e, _))

/-- A commit and its report, a push by another client, and a delivery that
reconciles and attempts the publication again with the new head. -/
def commitAndRetry (task : Fin 2) : List (PublishEvent ℕ (Fin 2)) :=
  .user (.commit "/work" 3) :: reportHead task "pub" 5 ++ .user (.otherPush "host/prj" "main" 4) ::
    [.start true 6, .next, .load, .project, .fetch, .checkBranch].map .deliver ++
    .install "/work" "main" 9 3 ::
    [.reconcile "applied", .readHead, .retarget 7].map .deliver

theorem recorded_on_branch_two :
    (∃ v, Runs.run (PublishWorld.step pairGraph) currentMain (commitAndRetry 0) = some v ∧
      v.queue.map (fun p => (p.branch, p.candidateCommitOid, p.attempt)) = [("main", 9, 2)]) ∧
    Runs.Steps (PublishWorld.step pairGraph) (PublishWorld.RecordsOnBranch pairGraph) currentMain
      (commitAndRetry 0) := by
  refine ⟨?_, PublishWorld.recorded_on_branch start_currentMain uniqueIds_currentMain
    (by decide +kernel) (by decide +kernel)⟩
  have htest : ((Runs.run (PublishWorld.step pairGraph) currentMain (commitAndRetry 0)).map fun v =>
      v.queue.map fun p => (p.branch, p.candidateCommitOid, p.attempt)) =
        some [("main", 9, 2)] := by decide +kernel
  obtain ⟨v, hv, hqueue⟩ := Option.map_eq_some_iff.mp htest
  exact ⟨v, hv, hqueue⟩

/-- A commit on another branch of which the daemon hears nothing, and then a
switch to a third branch that is reported. -/
def missedSwitch (task : Fin 2) : List (PublishEvent ℕ (Fin 2)) :=
  [.user (.switch "/work" "topic" none), .user (.commit "/work" 3),
    .user (.switch "/work" "other" (some (task, "prj"))),
    .call task .hookBranch, .call task .reportCheckout, .call task .clone,
    .call task (.create "pub" 5)]

/-- The user switches and commits while a delivery reconciles, so the delivery
reads the head of another branch. -/
def switchDuringDelivery (task : Fin 2) : List (PublishEvent ℕ (Fin 2)) :=
  .user (.commit "/work" 3) :: reportHead task "pub" 5 ++ .user (.otherPush "host/prj" "main" 4) ::
    [.start true 6, .next, .load, .project, .fetch, .checkBranch].map .deliver ++
    .user (.switch "/work" "topic" none) :: .user (.commit "/work" 7) ::
    [.reconcile "applied", .readHead].map .deliver

/-- The report of the switch queues `3`, the head of `topic`, for `main`, which
is at `1`; and the delivery attempts `main`, which is at `3`, with the head of
`topic`, `7`. -/
theorem other_branch_is_recorded :
    currentMain.Start ∧ UniqueIds currentMain.catalog ∧
    (∃ u q, Runs.run (PublishWorld.step pairGraph) currentMain (missedSwitch 0) = some u ∧
      Runs.Steps (PublishWorld.step pairGraph) (PublishWorld.KeepsHistory pairGraph) currentMain
        (missedSwitch 0) ∧
      u.recordedBy (.call 0 .push) = some q ∧ q.branch = "main" ∧ q.candidateCommitOid = 3 ∧
      ¬ u.OnBranch pairGraph q.projectId q.branch q.candidateCommitOid) ∧
    ∃ u q, Runs.run (PublishWorld.step pairGraph) currentMain (switchDuringDelivery 0) = some u ∧
      Runs.Steps (PublishWorld.step pairGraph) (PublishWorld.KeepsHistory pairGraph) currentMain
        (switchDuringDelivery 0) ∧
      u.recordedBy (.deliver (.retarget 7)) = some q ∧ q.branch = "main" ∧
      q.candidateCommitOid = 7 ∧
      ¬ u.OnBranch pairGraph q.projectId q.branch q.candidateCommitOid := by
  have hrecorded : ∀ (es : List (PublishEvent ℕ (Fin 2))) (e : PublishEvent ℕ (Fin 2)) (c : ℕ),
      ((Runs.run (PublishWorld.step pairGraph) currentMain es).any fun u =>
        (u.recordedBy e).any fun q => decide (q.branch = "main" ∧ q.candidateCommitOid = c ∧
          ¬ u.OnBranch pairGraph q.projectId q.branch q.candidateCommitOid)) = true →
      ∃ u q, Runs.run (PublishWorld.step pairGraph) currentMain es = some u ∧
        u.recordedBy e = some q ∧ q.branch = "main" ∧ q.candidateCommitOid = c ∧
        ¬ u.OnBranch pairGraph q.projectId q.branch q.candidateCommitOid := by
    intro es e c h
    obtain ⟨u, hu, h⟩ := (Option.any_eq_true _ _).mp h
    obtain ⟨q, hq, h⟩ := (Option.any_eq_true _ _).mp h
    exact ⟨u, q, hu, hq, of_decide_eq_true h⟩
  refine ⟨start_currentMain, uniqueIds_currentMain, ?_, ?_⟩
  · obtain ⟨u, q, hu, hq, hmain, hc, hoff⟩ := hrecorded (missedSwitch 0) (.call 0 .push) 3
      (by decide +kernel)
    exact ⟨u, q, hu, by decide +kernel, hq, hmain, hc, hoff⟩
  · obtain ⟨u, q, hu, hq, hmain, hc, hoff⟩ := hrecorded (switchDuringDelivery 0)
      (.deliver (.retarget 7)) 7 (by decide +kernel)
    exact ⟨u, q, hu, by decide +kernel, hq, hmain, hc, hoff⟩

end TwoBranches

end Resync
