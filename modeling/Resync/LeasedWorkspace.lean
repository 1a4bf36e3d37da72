import Mathlib.Data.List.Nodup
import Resync.Admission
import Resync.Lib.Runs

/-! When all requests name a project by one string, one gate separates the
leases of the project from the installations into its checkout. -/
namespace Resync

variable {Oid Task : Type}

/-- Project IDs are unique, and the name of `id`, if it has one, finds no other
project. -/
structure CatalogNames (nameOf : String → Option String) (c : LocalCatalog Oid) : Prop where
  ids : (c.projects.map (·.projectId)).Nodup
  finds : ∀ id name, nameOf id = some name →
    ∀ p, findProject c name = some p → p.projectId = id

section Catalog

variable {nameOf : String → Option String} {c : LocalCatalog Oid}

theorem CatalogNames.unique (h : CatalogNames nameOf c) {p q : LocalProject Oid}
    (hp : p ∈ c.projects) (hq : q ∈ c.projects) (hid : p.projectId = q.projectId) : p = q :=
  List.inj_on_of_nodup_map h.ids hp hq hid

theorem CatalogNames.find (h : CatalogNames nameOf c) {name : String}
    (hn : some name ∈ Set.range nameOf) {p : LocalProject Oid} (hp : findProject c name = some p) :
    nameOf p.projectId = some name := by
  obtain ⟨id, hid⟩ := hn
  rw [h.finds id name hid p hp, hid]

theorem CatalogNames.update (h : CatalogNames nameOf c) {name : String}
    {f : LocalProject Oid → LocalProject Oid}
    (hid : ∀ p, findProject c name = some p → (f p).projectId = p.projectId)
    (hpath : ∀ p, findProject c name = some p → (f p).localPath = p.localPath) :
    CatalogNames nameOf (updateProject c name f) where
  ids := by
    change ((modifyFirst (·.named name) f c.projects).map _).Nodup
    rw [map_modifyFirst _ c.projects hid]
    exact h.ids
  finds id other hname p hp := by
    have hfind := find_modifyFirst (·.projectId) (·.named other) c.projects fun p hp =>
      ⟨by rw [LocalProject.named, LocalProject.named, hid p hp, hpath p hp], hid p hp⟩
    have hmap : (findProject c other).map (·.projectId) = some p.projectId :=
      hfind.symm.trans (congrArg (Option.map (·.projectId)) hp)
    obtain ⟨q, hq, hqid⟩ := Option.map_eq_some_iff.mp hmap
    rw [← hqid]
    exact h.finds id other hname q hq

end Catalog

/-- A task's request uses a name of `nameOf`, its staged record has the expected
generation, and its lease identifier was issued. -/
def AccessTask.Ok (nameOf : String → Option String) (issued : List String) : AccessTask Oid → Prop
  | .idle => True
  | .acquiring name _ => some name ∈ Set.range nameOf
  | .leasing name _ => some name ∈ Set.range nameOf
  | .leased name leaseId => some name ∈ Set.range nameOf ∧ ∀ id ∈ leaseId, id ∈ issued
  | .staged name _ => some name ∈ Set.range nameOf
  | .complete name record _ expected _ _ =>
    some name ∈ Set.range nameOf ∧ record.workspaceGeneration = expected
  | .prepared name p =>
    some name ∈ Set.range nameOf ∧ p.staged.workspaceGeneration = p.expectedGeneration
  | .waiting name _ p =>
    some name ∈ Set.range nameOf ∧ p.staged.workspaceGeneration = p.expectedGeneration
  | .exclusive name p =>
    some name ∈ Set.range nameOf ∧ p.staged.workspaceGeneration = p.expectedGeneration
  | .ending name => some name ∈ Set.range nameOf

theorem AccessTask.Ok.mono {nameOf : String → Option String} {issued issued' : List String}
    (hsub : ∀ id ∈ issued, id ∈ issued') {t : AccessTask Oid} (h : t.Ok nameOf issued) :
    t.Ok nameOf issued' := by
  cases t with
  | leased name leaseId => exact ⟨h.1, fun id hid => hsub id (h.2 id hid)⟩
  | _ => exact h

namespace AccessWorld

/-- The record agrees with every live lease: it has the generation of a lease on
its project, and the leased checkout is of no other project. -/
def KeepsGrants (w : AccessWorld Oid Task) (record : LocalProject Oid) : Prop :=
  ∀ g ∈ w.grants, w.Live g →
    (g.projectId = record.projectId → record.workspaceGeneration = g.generation) ∧
    (g.localPath = record.localPath → g.projectId = record.projectId)

/-- No record of another project is of the checkout. -/
def SoleRecord (c : LocalCatalog Oid) (project : LocalProject Oid) : Prop :=
  ∀ p ∈ c.projects, p.localPath = project.localPath → p.projectId = project.projectId

/-- The condition on the requests: all of them name a project by one string. A
lease is granted on a checkout of which there is one record, and a registered or
reloaded record keeps the generation of a leased project and takes no leased
checkout for another project. -/
def NamedBy (nameOf : String → Option String) (w : AccessWorld Oid Task) :
    AccessEvent Oid Task → Prop
  | .acquire _ name _ => some name ∈ Set.range nameOf
  | .reconcile _ name => some name ∈ Set.range nameOf
  | .acquireAnswer task _ =>
    match w.tasks task with
    | .leased name (some _) => ∀ p ∈ findProject w.catalog name, SoleRecord w.catalog p
    | _ => True
  | .register record generation =>
    CatalogNames nameOf (registerProject w.catalog record generation) ∧ w.KeepsGrants record
  | .reload catalog =>
    CatalogNames nameOf catalog ∧ ∀ record ∈ catalog.projects, w.KeepsGrants record
  | _ => True

structure Leased (nameOf : String → Option String) (w : AccessWorld Oid Task) : Prop where
  names : CatalogNames nameOf w.catalog
  owned : ∀ name, (w.gate name).Owned
  tasks : ∀ task, (w.tasks task).Ok nameOf w.issued
  leases : ∀ name, ∀ id ∈ (w.gates name).leases, id ∈ w.issued
  grants : ∀ g ∈ w.grants, nameOf g.projectId = some g.name ∧ g.leaseId ∈ w.issued
  stable : ∀ p ∈ w.catalog.projects, w.KeepsGrants p

theorem leased_initial {nameOf : String → Option String} {catalog : LocalCatalog Oid}
    (h : CatalogNames nameOf catalog) : (initial catalog : AccessWorld Oid Task).Leased nameOf where
  names := h
  owned _ := Gate.owned_initial
  tasks _ := trivial
  leases _ id hid := absurd hid (AList.notMem_empty id)
  grants g hg := by cases hg
  stable p hp g hg := by cases hg

section Frames

variable {nameOf : String → Option String} {w : AccessWorld Oid Task}

/-- A write to the catalog that keeps the names and the leased generations. -/
theorem Leased.setCatalog (h : w.Leased nameOf) {c : LocalCatalog Oid}
    (hc : CatalogNames nameOf c) (hs : ∀ p ∈ c.projects, w.KeepsGrants p) :
    Leased nameOf { w with catalog := c } :=
  ⟨hc, h.owned, h.tasks, h.leases, h.grants, hs⟩

theorem Leased.addGrant (h : w.Leased nameOf) {g : AccessGrant}
    (hn : nameOf g.projectId = some g.name) (hi : g.leaseId ∈ w.issued)
    (hg : ∀ p ∈ w.catalog.projects,
      (g.projectId = p.projectId → p.workspaceGeneration = g.generation) ∧
      (g.localPath = p.localPath → g.projectId = p.projectId)) :
    Leased nameOf { w with grants := g :: w.grants } where
  names := h.names
  owned := h.owned
  tasks := h.tasks
  leases := h.leases
  grants k hk := by
    rcases List.mem_cons.mp hk with rfl | hk
    · exact ⟨hn, hi⟩
    · exact h.grants k hk
  stable p hp k hk hlive := by
    rcases List.mem_cons.mp hk with rfl | hk
    · exact hg p hp
    · exact h.stable p hp k hk hlive

/-- A release or an expiry at the gate of `name`. -/
theorem Leased.release (h : w.Leased nameOf) (name leaseId : String) :
    (w.setGate name ((w.gates name).release leaseId).2).Leased nameOf where
  names := h.names
  owned n := by
    by_cases hn : n = name
    · subst hn
      have hown := Gate.owned_release leaseId (h.owned n)
      convert hown using 1
      exact congrArg₂ Gate.mk (Function.update_self ..) rfl
    · convert h.owned n using 1
      exact congrArg₂ Gate.mk (Function.update_of_ne hn ..) rfl
  tasks := h.tasks
  leases n id hid := by
    by_cases hn : n = name
    · subst hn
      simp only [AccessWorld.setGate, Function.update_self] at hid
      exact h.leases n id ((GateState.mem_leases_release ..).mp hid).2
    · simp only [AccessWorld.setGate, Function.update_of_ne hn] at hid
      exact h.leases n id hid
  grants := h.grants
  stable p hp g hg hlive := by
    refine h.stable p hp g hg ?_
    by_cases hn : g.name = name
    · simp only [Live, AccessWorld.setGate, hn, Function.update_self] at hlive ⊢
      exact ((GateState.mem_leases_release ..).mp hlive).2
    · simpa only [Live, AccessWorld.setGate, Function.update_of_ne hn] using hlive

variable [DecidableEq Task]

/-- A task that moves without a change of its place at any gate. -/
theorem Leased.setTask (h : w.Leased nameOf) {task : Task} {t : AccessTask Oid}
    (hplace : ∀ name, t.place name = (w.tasks task).place name) (ht : t.Ok nameOf w.issued) :
    (w.setTask task t).Leased nameOf where
  names := h.names
  owned name := by
    have hgate : (w.setTask task t).gate name = w.gate name := by
      refine congrArg (Gate.mk _) (funext fun u => ?_)
      by_cases hu : u = task
      · subst hu
        simp only [AccessWorld.setTask, Function.update_self, hplace]
      · simp only [AccessWorld.setTask, Function.update_of_ne hu]
    rw [hgate]
    exact h.owned name
  tasks u := by
    by_cases hu : u = task
    · subst hu
      simpa only [AccessWorld.setTask, Function.update_self] using ht
    · simpa only [AccessWorld.setTask, Function.update_of_ne hu] using h.tasks u
  leases := h.leases
  grants := h.grants
  stable := h.stable

/-- A critical section at the gate of `name`. No identifier issued before
becomes live by it. -/
theorem Leased.gateStep (h : w.Leased nameOf) {name : String} {s : GateState} {task : Task}
    {t : AccessTask Oid} {issued : List String} (hsub : ∀ id ∈ w.issued, id ∈ issued)
    (howned : Gate.Owned
      ⟨s, Function.update (fun u => (w.tasks u).place name) task (t.place name)⟩)
    (hother : ∀ n, n ≠ name → t.place n = (w.tasks task).place n)
    (ht : t.Ok nameOf issued) (hnew : ∀ id ∈ s.leases, id ∈ issued)
    (hold : ∀ id ∈ s.leases, id ∈ w.issued → id ∈ (w.gates name).leases) :
    Leased nameOf { (w.setGate name s).setTask task t with issued := issued } where
  names := h.names
  owned n := by
    by_cases hn : n = name
    · subst hn
      convert howned using 1
      refine congrArg₂ Gate.mk (Function.update_self ..) (funext fun u => ?_)
      by_cases hu : u = task
      · subst hu
        simp only [AccessWorld.setTask, Function.update_self]
      · simp only [AccessWorld.setTask, AccessWorld.setGate, Function.update_of_ne hu]
    · convert h.owned n using 1
      refine congrArg₂ Gate.mk (Function.update_of_ne hn ..) (funext fun u => ?_)
      by_cases hu : u = task
      · subst hu
        simp only [AccessWorld.setTask, Function.update_self, hother n hn]
      · simp only [AccessWorld.setTask, AccessWorld.setGate, Function.update_of_ne hu]
  tasks u := by
    by_cases hu : u = task
    · subst hu
      simpa only [AccessWorld.setTask, Function.update_self] using ht
    · simpa only [AccessWorld.setTask, AccessWorld.setGate, Function.update_of_ne hu]
        using (h.tasks u).mono hsub
  leases n id hid := by
    by_cases hn : n = name
    · subst hn
      simp only [AccessWorld.setTask, AccessWorld.setGate, Function.update_self] at hid
      exact hnew id hid
    · simp only [AccessWorld.setTask, AccessWorld.setGate, Function.update_of_ne hn] at hid
      exact hsub id (h.leases n id hid)
  grants g hg := ⟨(h.grants g hg).1, hsub _ (h.grants g hg).2⟩
  stable p hp g hg hlive := by
    refine h.stable p hp g hg ?_
    by_cases hn : g.name = name
    · simp only [Live, AccessWorld.setTask, AccessWorld.setGate, hn, Function.update_self] at hlive ⊢
      exact hold g.leaseId hlive (h.grants g hg).2
    · simpa only [Live, AccessWorld.setTask, AccessWorld.setGate, Function.update_of_ne hn]
        using hlive

end Frames

section Steps

variable {nameOf : String → Option String} {w w' : AccessWorld Oid Task}

/-- While a task owns the gate of `name`, no lease on the project is live. -/
theorem Leased.no_live_grant (h : w.Leased nameOf) {task : Task} {name : String}
    {p : PreparedProject Oid} (ht : w.tasks task = .exclusive name p)
    {project : LocalProject Oid} (hp : findProject w.catalog name = some project)
    {g : AccessGrant} (hg : g ∈ w.grants) (hid : g.projectId = project.projectId) :
    ¬ w.Live g := by
  have hok := h.tasks task
  rw [ht] at hok
  have hplace : (w.gate name).place task = .owner := by
    simp only [gate, ht, AccessTask.place_exclusive]
  have hx : (w.gate name).state.exclusive = true := by
    by_contra hf
    exact (h.owned name).free (by simpa only [Bool.not_eq_true] using hf) task hplace
  have hempty : (w.gates name).leases = ∅ := ((h.owned name).held hx).1
  have hname : g.name = name := by
    have hg' := (h.grants g hg).1
    rw [hid, h.names.find hok.1 hp] at hg'
    exact (Option.some.inj hg').symm
  intro hlive
  rw [Live, hname, hempty] at hlive
  exact AList.notMem_empty _ hlive

/-- A merge of a staged record into the record that the name finds. -/
theorem Leased.mergeState (h : w.Leased nameOf) {name : String} {staged : LocalProject Oid}
    (hk : ∀ p, findProject w.catalog name = some p →
      w.KeepsGrants (mergeReconciliationState p staged)) :
    Leased nameOf { w with
      catalog := updateProject w.catalog name (mergeReconciliationState · staged) } := by
  refine h.setCatalog (h.names.update (fun _ _ => rfl) fun _ _ => rfl) fun p hp => ?_
  rcases mem_updateProject hp with hp | ⟨q, hq, rfl⟩
  · exact h.stable p hp
  · exact hk q hq

variable [DecidableEq Task]

theorem Leased.acquireMode (h : w.Leased nameOf) {task : Task}
    (hs : w.acquireMode task = some w') : w'.Leased nameOf := by
  unfold AccessWorld.acquireMode at hs
  split at hs
  · next name metadata ht =>
    have hok := h.tasks task
    rw [ht] at hok
    split at hs
    · obtain rfl := Option.some.inj hs
      exact h.setTask (fun n => by rw [ht]; rfl) trivial
    · split at hs
      · obtain rfl := Option.some.inj hs
        exact h.setTask (fun n => by rw [ht]; rfl) ⟨hok, fun _ hid => by cases hid⟩
      · obtain rfl := Option.some.inj hs
        exact h.setTask (fun n => by rw [ht]; rfl) hok
  · cases hs

theorem Leased.acquireActivity (h : w.Leased nameOf) {task : Task} {fresh : String}
    (hs : w.acquireActivity task fresh = some w') : w'.Leased nameOf := by
  unfold AccessWorld.acquireActivity at hs
  split at hs
  · next name metadata ht =>
    have hok := h.tasks task
    rw [ht] at hok
    split at hs
    · cases hs
    · next hfresh =>
      obtain ⟨⟨id, s⟩, hadmit, rfl⟩ := Option.map_eq_some_iff.mp hs
      obtain ⟨-, -, -, -, -, hmem, hid⟩ := GateState.activity_eq_some hadmit
      have hissued : id ∈ fresh :: w.issued := by
        rcases hid with ⟨hlive, -⟩ | rfl
        · exact List.mem_cons_of_mem _ (h.leases name id hlive)
        · exact List.mem_cons_self
      refine h.gateStep (fun _ => List.mem_cons_of_mem _) ?_ (fun n _ => by rw [ht]; rfl)
        ⟨hok, fun k hk => ?_⟩ (fun k hk => ?_) (fun k hk hold => ?_)
      · refine (Gate.owned_activity (h.owned name) hadmit).congr rfl (fun _ hl => hl) fun t => ?_
        by_cases he : t = task
        · subst he
          simp only [Function.update_self, gate, ht, AccessTask.place]
        · simp only [Function.update_of_ne he, gate]
      · obtain rfl := Option.some.inj hk
        exact hissued
      · rcases (hmem k).mp hk with rfl | hk
        · exact hissued
        · exact List.mem_cons_of_mem _ (h.leases name k hk)
      · rcases (hmem k).mp hk with rfl | hk
        · rcases hid with ⟨hlive, -⟩ | rfl
          · exact hlive
          · exact absurd hold hfresh
        · exact hk
  · cases hs

theorem Leased.acquireAnswer (h : w.Leased nameOf) {task : Task} {head : Option Oid}
    (hnamed : w.NamedBy nameOf (.acquireAnswer task head))
    (hs : w.acquireAnswer task head = some w') : w'.Leased nameOf := by
  unfold AccessWorld.acquireAnswer at hs
  split at hs
  · next name leaseId ht =>
    have hok := h.tasks task
    rw [ht] at hok
    have hidle : (w.setTask task .idle).Leased nameOf :=
      h.setTask (fun n => by rw [ht]; rfl) trivial
    split at hs
    · next id project _ hp =>
      obtain rfl := Option.some.inj hs
      rw [NamedBy, ht] at hnamed
      refine hidle.addGrant (h.names.find hok.1 hp) (hok.2 id rfl) fun p hmem => ⟨?_, ?_⟩
      · intro hid
        rw [h.names.unique (findProject_mem hp) hmem hid]
      · exact fun hpath => (hnamed project hp p hmem hpath.symm).symm
    · obtain rfl := Option.some.inj hs
      exact hidle
  · cases hs

variable [DecidableEq Oid]

theorem Leased.mergeComplete (h : w.Leased nameOf) {task : Task}
    (hs : w.mergeComplete task = some w') : w'.Leased nameOf := by
  unfold AccessWorld.mergeComplete at hs
  split at hs
  · next name staged result expected branch target ht =>
    have hok := h.tasks task
    rw [ht] at hok
    have hidle : (w.setTask task .idle).Leased nameOf :=
      h.setTask (fun n => by rw [ht]; rfl) trivial
    split at hs
    · obtain rfl := Option.some.inj hs
      exact hidle
    · next project hp =>
      split at hs
      · obtain rfl := Option.some.inj hs
        exact hidle
      · next hsame =>
        obtain rfl := Option.some.inj hs
        obtain ⟨hgen, -⟩ := not_or.mp hsame
        refine hidle.mergeState fun q hq g hg hlive => ?_
        obtain rfl := Option.some.inj (hp.symm.trans hq)
        have hkept := h.stable project (findProject_mem hp) g hg hlive
        exact ⟨fun hid => (hok.2.trans (not_not.mp hgen).symm).trans (hkept.1 hid), hkept.2⟩
  · cases hs

theorem Leased.install (h : w.Leased nameOf) {task : Task} {current : Option Branch}
    {installed : Option (ReconcileResult Oid)} {cleared : Bool}
    (hs : w.install task current installed cleared = some w') : w'.Leased nameOf := by
  unfold AccessWorld.install at hs
  split at hs
  · next name p ht =>
    have hok := h.tasks task
    rw [ht] at hok
    have hended : (w.setTask task (.ending name)).Leased nameOf :=
      h.setTask (fun n => by rw [ht]; rfl) hok.1
    dsimp only at hs
    split at hs
    · obtain rfl := Option.some.inj hs
      exact hended
    · split at hs
      · split at hs
        · obtain rfl := Option.some.inj hs
          exact hended
        · obtain rfl := Option.some.inj hs
          -- the generation moves, but no grant on this project is live
          refine hended.mergeState fun q hq g hg hlive => ⟨fun hid => ?_, ?_⟩
          · exact absurd hlive (h.no_live_grant ht hq hg hid)
          · exact (h.stable q (findProject_mem hq) g hg hlive).2
      · obtain rfl := Option.some.inj hs
        exact hended
  · cases hs

variable (G : CommitGraph Oid)

theorem Leased.prepare (h : w.Leased nameOf) {task : Task} {answers : PreparationAnswers Oid}
    (hs : w.prepare G task answers = some w') : w'.Leased nameOf := by
  unfold AccessWorld.prepare at hs
  split at hs
  · next name project ht =>
    have hok := h.tasks task
    rw [ht] at hok
    split at hs
    · obtain rfl := Option.some.inj hs
      exact h.setTask (fun n => by rw [ht]; rfl) trivial
    · next hprep =>
      obtain rfl := Option.some.inj hs
      have hgen := prepareProjectReconciliation_generation G hprep
      exact h.setTask (fun n => by rw [ht]; rfl) ⟨hok, hgen.2⟩
    · next hprep =>
      obtain rfl := Option.some.inj hs
      have hgen := prepareProjectReconciliation_generation G hprep
      exact h.setTask (fun n => by rw [ht]; rfl) ⟨hok, hgen.2⟩
  · cases hs

/-- What one step of the system preserves when its requests agree on the names
of the projects. -/
theorem leased_step {e : AccessEvent Oid Task} (h : w.Leased nameOf)
    (hnamed : w.NamedBy nameOf e) (hs : w.step G e = some w') : w'.Leased nameOf := by
  cases e with
  | acquire task name metadata =>
    simp only [step] at hs
    split at hs
    · next ht =>
      obtain rfl := Option.some.inj hs
      exact h.setTask (fun n => by rw [ht]; rfl) hnamed
    · cases hs
  | acquireMode task => exact h.acquireMode hs
  | acquireActivity task fresh => exact h.acquireActivity hs
  | acquireAnswer task head => exact h.acquireAnswer hnamed hs
  | reconcile task name =>
    simp only [step] at hs
    split at hs
    · next ht _ =>
      obtain rfl := Option.some.inj hs
      exact h.setTask (fun n => by rw [ht]; rfl) hnamed
    · cases hs
  | prepare task answers => exact h.prepare G hs
  | mergeComplete task => exact h.mergeComplete hs
  | drawTicket task =>
    simp only [step] at hs
    split at hs
    · next name p ht =>
      obtain rfl := Option.some.inj hs
      have hok := h.tasks task
      have hout : (w.gate name).place task = .outside := by simp only [gate, ht, AccessTask.place]
      rw [ht] at hok
      refine h.gateStep (fun _ hid => hid) ?_ (fun n hn => ?_) hok (h.leases name)
        fun _ hid _ => hid
      · rw [AccessTask.place_waiting]
        exact Gate.owned_draw (h.owned name) hout
      · rw [ht]
        simp only [AccessTask.place, if_neg hn.symm]
    · cases hs
  | enter task =>
    simp only [step] at hs
    split at hs
    · next name ticket p ht =>
      obtain ⟨s, hadmit, rfl⟩ := Option.map_eq_some_iff.mp hs
      have hok := h.tasks task
      rw [ht] at hok
      obtain ⟨-, hempty, -, hseq⟩ := GateState.admitExclusive_eq_some hadmit
      have hleases : s.leases = (w.gates name).leases := by rw [hseq]
      refine h.gateStep (fun _ hid => hid) ?_ (fun n hn => ?_) hok (fun id hid => ?_)
        fun id hid _ => ?_
      · rw [AccessTask.place_exclusive]
        exact Gate.owned_grant (h.owned name) hadmit
      · rw [ht]
        simp only [AccessTask.place, if_neg hn.symm]
      · exact h.leases name id (hleases ▸ hid)
      · exact hleases ▸ hid
    · cases hs
  | install task current installed cleared => exact h.install hs
  | endExclusive task =>
    simp only [step] at hs
    split at hs
    · next name ht =>
      obtain rfl := Option.some.inj hs
      have hown : (w.gate name).place task = .owner := by
        simp only [gate, ht, AccessTask.place_ending]
      refine h.gateStep (fun _ hid => hid) ?_ (fun n hn => ?_) trivial (h.leases name)
        fun _ hid _ => hid
      · exact Gate.owned_finish (h.owned name) hown
      · rw [ht]
        simp only [AccessTask.place, if_neg hn.symm]
    · cases hs
  | releaseAccess name leaseId =>
    obtain rfl := Option.some.inj hs
    exact h.release name leaseId
  | expire name leaseId =>
    obtain rfl := Option.some.inj hs
    exact h.release name leaseId
  | update name record =>
    simp only [step] at hs
    split at hs
    · next project hp =>
      split at hs
      · next hkeep =>
        obtain rfl := Option.some.inj hs
        obtain ⟨hid, hpath, hgen⟩ := hkeep
        have hsame : ∀ q, findProject w.catalog name = some q → q = project :=
          fun q hq => Option.some.inj (hq.symm.trans hp)
        refine h.setCatalog (h.names.update (fun q hq => ?_) fun q hq => ?_) fun q hq => ?_
        · rw [hsame q hq, hid]
        · rw [hsame q hq, hpath]
        · rcases mem_updateProject hq with hq | ⟨r, hr, rfl⟩
          · exact h.stable q hq
          · intro g hg hlive
            obtain ⟨hgeneration, hcheckout⟩ := h.stable project (findProject_mem hp) g hg hlive
            rw [hgen, hid, hpath]
            exact ⟨hgeneration, hcheckout⟩
      · cases hs
    · cases hs
  | register record generation =>
    obtain rfl := Option.some.inj hs
    refine h.setCatalog hnamed.1 fun q hq => ?_
    rcases mem_registerProject hq with rfl | ⟨hq, -⟩
    · exact hnamed.2
    · exact h.stable q hq
  | reload catalog =>
    obtain rfl := Option.some.inj hs
    exact h.setCatalog hnamed.1 hnamed.2

theorem leased_of_run {catalog : LocalCatalog Oid} (hc : CatalogNames nameOf catalog)
    {es : List (AccessEvent Oid Task)}
    (hnamed : Runs.Steps (step G) (NamedBy nameOf) (initial catalog) es)
    (hrun : Runs.run (step G) (initial catalog) es = some w) : w.Leased nameOf :=
  Runs.run_invariant (fun _ _ _ h hok hs => leased_step G h hok hs) (leased_initial hc) hnamed hrun

end Steps

section TwoNames

/-- Commit 1 is upstream of commit 0. -/
def twoCommits : CommitGraph ℕ where
  parents c := if c = 1 then [0] else []
  depth c := c
  depth_lt c p h := by
    split at h
    · rw [List.mem_singleton.mp h]
      omega
    · cases h

/-- Project `p` at `/w`, behind its hosted branch by one commit. -/
def behindCatalog : LocalCatalog ℕ where
  catalogGeneration := 0
  projects := [{
    projectId := "p", localPath := "/w", remoteUrl := "r", remoteName := "origin",
    defaultBranch := "main", serverGeneration := 0,
    advertisedHeads := fun b => if b = "main" then some 1 else none,
    lastAppliedHeads := fun b => if b = "main" then some 0 else none,
    activeBranch := some "main", workspaceGeneration := 3, state := .remoteAhead,
    durability := .remotelyDurable, conflict := none, lastError := none, service := none,
    checkoutId := none }]

/-- Task 0 holds a lease that it asked for under `name`, and task 1 has
prepared a background reconciliation of `p`. -/
def leaseThenReconcile (name : String) : List (AccessEvent ℕ ℕ) :=
  [.acquire 0 name ⟨none, none⟩, .acquireMode 0, .acquireActivity 0 "lease",
    .acquireAnswer 0 (some 0), .reconcile 1 "p",
    .prepare 1 ⟨some "main", some 0, true, fun _ _ => some none⟩, .drawTicket 1]

def applyInstall : AccessEvent ℕ ℕ := .install 1 (some "main") (some { outcome := .applied }) true

end TwoNames

end AccessWorld

end Resync
