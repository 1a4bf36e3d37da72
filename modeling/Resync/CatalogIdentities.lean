import Resync.LeavingProject
import Resync.QueueDurability

/-! One record for each project and each checkout. The daemon's catalog, the file, the copies that
`reload` and `resync project leave` have read, and whatever order their writes come in: a name never
stands for two records. -/
namespace Resync

variable {Oid Task : Type}

/-- The checkout has an absolute path, and the ID is none. -/
structure LocalProject.WellNamed (p : LocalProject Oid) : Prop where
  path : p.localPath.toList.head? = some '/'
  id : p.projectId.toList.head? ≠ some '/'

/-- No project and no checkout has two records; `names` is asked of the names of each. -/
structure SeparateRecords (names : LocalProject Oid → Prop) (projects : List (LocalProject Oid)) :
    Prop where
  ids : (projects.map (·.projectId)).Nodup
  paths : (projects.map (·.localPath)).Nodup
  named : ∀ p ∈ projects, names p

/-- What is asked of a record is asked of its project and its checkout only. -/
def OfNames (names : LocalProject Oid → Prop) : Prop :=
  ∀ p q : LocalProject Oid, p.identity = q.identity → names p → names q

/-- Commands that leave a project come one after another, each with the project of its own. -/
inductive CatalogEvent (Oid Task : Type) where
  | during (id : String) (e : LeaveEvent Oid Task)
  | nextCommand

def CatalogEvent.registers : CatalogEvent Oid Task → Option (LocalProject Oid)
  | .during _ (.register project _) => some project
  | _ => none

namespace SeparateRecords

variable {names : LocalProject Oid → Prop} {projects : List (LocalProject Oid)}
  {p q : LocalProject Oid}

theorem sublist {rest : List (LocalProject Oid)} (h : SeparateRecords names projects)
    (hrest : rest.Sublist projects) : SeparateRecords names rest where
  ids := h.ids.sublist (hrest.map _)
  paths := h.paths.sublist (hrest.map _)
  named p hp := h.named p (hrest.subset hp)

theorem of_identities {others : List (LocalProject Oid)} (hnames : OfNames names)
    (h : SeparateRecords names projects)
    (hsame : others.map (·.identity) = projects.map (·.identity)) :
    SeparateRecords names others := by
  have hids : others.map (·.projectId) = projects.map (·.projectId) := by
    have hmap := congrArg (List.map Prod.fst) hsame
    rwa [List.map_map, List.map_map] at hmap
  have hpaths : others.map (·.localPath) = projects.map (·.localPath) := by
    have hmap := congrArg (List.map fun i => i.2.1) hsame
    rwa [List.map_map, List.map_map] at hmap
  refine ⟨hids ▸ h.ids, hpaths ▸ h.paths, fun p hp => ?_⟩
  obtain ⟨q, hq, hqp⟩ := List.mem_map.mp (hsame ▸ List.mem_map_of_mem hp)
  exact hnames q p hqp (h.named q hq)

theorem register {c : LocalCatalog Oid} (h : SeparateRecords names c.projects) (hp : names p)
    (generation : Option ℕ) : SeparateRecords names (registerProject c p generation).projects := by
  have hrest := h.sublist (List.filter_sublist
    (p := fun item => item.projectId != p.projectId && item.localPath != p.localPath))
  have hother : ∀ q ∈ c.projects.filter (fun item =>
      item.projectId != p.projectId && item.localPath != p.localPath),
      q.projectId ≠ p.projectId ∧ q.localPath ≠ p.localPath := by
    intro q hq
    have hne := (List.mem_filter.mp hq).2
    rwa [Bool.and_eq_true, bne_iff_ne, bne_iff_ne] at hne
  constructor
  · change (List.map _ (_ ++ [p])).Nodup
    rw [List.map_append, List.map_singleton]
    refine List.Nodup.append hrest.ids (List.nodup_singleton _) ?_
    intro id hid hp
    obtain ⟨q, hq, rfl⟩ := List.mem_map.mp hid
    exact (hother q hq).1 (List.mem_singleton.mp hp)
  · change (List.map _ (_ ++ [p])).Nodup
    rw [List.map_append, List.map_singleton]
    refine List.Nodup.append hrest.paths (List.nodup_singleton _) ?_
    intro path hpath hp
    obtain ⟨q, hq, rfl⟩ := List.mem_map.mp hpath
    exact (hother q hq).2 (List.mem_singleton.mp hp)
  · intro q hq
    rcases List.mem_append.mp hq with hq | hq
    · exact hrest.named q hq
    · exact List.mem_singleton.mp hq ▸ hp

theorem uniqueIds {c : LocalCatalog Oid}
    (h : SeparateRecords LocalProject.WellNamed c.projects) : UniqueIds c where
  ids := h.ids
  paths p hp q hq heq := by
    have hpath := (h.named p hp).path
    rw [heq] at hpath
    exact (h.named q hq).id hpath

/-- A record is found by its own two names and by no other. -/
theorem find_iff {c : LocalCatalog Oid} (h : SeparateRecords LocalProject.WellNamed c.projects)
    (hp : p ∈ c.projects) (name : String) :
    findProject c name = some p ↔ name = p.projectId ∨ name = p.localPath := by
  constructor
  · intro hfind
    exact (findProject_named hfind).imp Eq.symm Eq.symm
  · intro hname
    have hnamed : p.named name = true := by
      rw [LocalProject.named, Bool.or_eq_true, beq_iff_eq, beq_iff_eq]
      exact hname.imp Eq.symm Eq.symm
    obtain ⟨q, hfind⟩ : ∃ q, findProject c name = some q :=
      Option.isSome_iff_exists.mp (List.find?_isSome.mpr ⟨p, hp, hnamed⟩)
    have hq := findProject_mem hfind
    have hpaths := h.uniqueIds.paths
    have hsame : q = p := by
      rcases hname with rfl | rfl
      · rcases findProject_named hfind with hid | hpath
        · exact List.inj_on_of_nodup_map h.ids hq hp hid
        · exact absurd hpath (hpaths q hq p hp)
      · rcases findProject_named hfind with hid | hpath
        · exact absurd hid.symm (hpaths p hp q hq)
        · exact List.inj_on_of_nodup_map h.paths hq hp hpath
    rw [hfind, hsame]

end SeparateRecords

namespace LeaveWorld

/-- Every copy of the catalog that may still be written somewhere. -/
structure Separated (names : LocalProject Oid → Prop) (w : LeaveWorld Oid Task) : Prop where
  file : SeparateRecords names w.file
  memory : SeparateRecords names w.daemon.publish.catalog.projects
  loaded : ∀ projects, w.loaded = some projects → SeparateRecords names projects
  leave : ∀ projects, w.leave = .read projects → SeparateRecords names projects

variable [DecidableEq Oid] [DecidableEq Task] (G : CommitGraph Oid)

def catalogStep (w : LeaveWorld Oid Task) : CatalogEvent Oid Task → Option (LeaveWorld Oid Task)
  | .during id e => w.step G id e
  | .nextCommand => some { w with leave := .idle }

variable {G} {names : LocalProject Oid → Prop} {w w' : LeaveWorld Oid Task}

theorem separate_daemon {d d' : DaemonWorld Oid Task} {e : DaemonEvent Oid Task}
    (hnames : OfNames names) (h : SeparateRecords names d.publish.catalog.projects)
    (hs : d.step G e = some d') : SeparateRecords names d'.publish.catalog.projects := by
  refine h.of_identities hnames ?_
  rcases DaemonWorld.step_writes hs with hsame | ⟨name, f, hcatalog, hf⟩
  · rw [hsame]
  · rw [hcatalog]
    refine map_modifyFirst _ _ fun p hp => ?_
    obtain ⟨i, hi, hget⟩ := findProject_eq_some.mp hp
    exact (hf i p hi hget).identity

theorem Separated.during (hnames : OfNames names) (h : Separated names w) {id : String}
    {e : LeaveEvent Oid Task} (he : ∀ p ∈ (CatalogEvent.during id e).registers, names p)
    (hs : w.step G id e = some w') : Separated names w' := by
  cases e with
  | daemon e =>
    simp only [LeaveWorld.step] at hs
    split at hs
    · obtain ⟨d, hd, rfl⟩ := Option.map_eq_some_iff.mp hs
      exact ⟨h.file, separate_daemon hnames h.memory hd, h.loaded, h.leave⟩
    · cases hs
  | persist =>
    simp only [LeaveWorld.step] at hs
    split at hs
    · obtain rfl := Option.some.inj hs
      exact ⟨h.memory, h.memory, h.loaded, h.leave⟩
    · cases hs
  | register project generation =>
    simp only [LeaveWorld.step] at hs
    split at hs
    · obtain rfl := Option.some.inj hs
      exact ⟨h.file, h.memory.register (he project rfl) generation, h.loaded, h.leave⟩
    · cases hs
  | load =>
    simp only [LeaveWorld.step] at hs
    split at hs
    · obtain rfl := Option.some.inj hs
      refine ⟨h.file, h.memory, fun projects hl => ?_, h.leave⟩
      exact Option.some.inj hl ▸ h.file
    · cases hs
  | takeOver =>
    simp only [LeaveWorld.step] at hs
    split at hs
    · cases hs
    · next projects hl =>
      have hprojects := h.loaded projects hl
      split at hs
      · obtain rfl := Option.some.inj hs
        exact ⟨h.file, hprojects, fun _ hnone => (by cases hnone), h.leave⟩
      · obtain rfl := Option.some.inj hs
        exact ⟨hprojects, hprojects, fun _ hnone => (by cases hnone), h.leave⟩
  | stop =>
    simp only [LeaveWorld.step] at hs
    split at hs
    · obtain rfl := Option.some.inj hs
      exact ⟨h.file, h.memory, fun _ hnone => (by cases hnone), h.leave⟩
    · cases hs
  | readCatalog =>
    simp only [LeaveWorld.step] at hs
    split at hs
    · obtain rfl := Option.some.inj hs
      refine ⟨h.file, h.memory, h.loaded, fun projects hread => ?_⟩
      exact LeavePlace.read.inj hread ▸ h.file
    · cases hs
  | leave =>
    simp only [LeaveWorld.step] at hs
    split at hs
    · next projects hread =>
      split at hs
      · obtain rfl := Option.some.inj hs
        have hrest := (h.leave projects hread).sublist
          (List.filter_sublist (p := fun p => p.projectId != id))
        exact ⟨hrest, h.memory, h.loaded, fun _ hleft => by cases hleft⟩
      · obtain rfl := Option.some.inj hs
        exact ⟨h.file, h.memory, h.loaded, fun _ hidle => by cases hidle⟩
    · cases hs

theorem Separated.step (hnames : OfNames names) (h : Separated names w)
    {e : CatalogEvent Oid Task} (he : ∀ p ∈ e.registers, names p)
    (hs : w.catalogStep G e = some w') : Separated names w' := by
  cases e with
  | during id e => exact h.during hnames he hs
  | nextCommand =>
    obtain rfl := Option.some.inj hs
    exact ⟨h.file, h.memory, h.loaded, fun _ hidle => by cases hidle⟩

/-- The run lemma, for whatever is asked of the names of the registered records. -/
theorem Separated.run (hnames : OfNames names) {es : List (CatalogEvent Oid Task)}
    (h0 : Separated names w) (hes : ∀ e ∈ es, ∀ p ∈ e.registers, names p)
    (hr : Runs.run (catalogStep G) w es = some w') : Separated names w' :=
  Runs.run_invariant (fun _ _ _ h he hs => Separated.step hnames h he hs) h0
    (Runs.Steps.of_forall (fun e he _ => hes e he) _) hr

/-- In every run of the daemon with its registrations, reloads and restarts, and with commands that
leave projects, no project and no checkout has two records, in the daemon's catalog and in the file.
If the registered records have absolute paths, and IDs that are none, every record is found by its
ID and by its path, and by no other name. -/
theorem records_are_separate {es : List (CatalogEvent Oid Task)}
    (h0 : Separated (fun _ => True) w) (hr : Runs.run (catalogStep G) w es = some w') :
    (w'.daemon.publish.catalog.projects.map (·.projectId)).Nodup ∧
    (w'.daemon.publish.catalog.projects.map (·.localPath)).Nodup ∧
    (w'.file.map (·.projectId)).Nodup ∧ (w'.file.map (·.localPath)).Nodup ∧
    (Separated LocalProject.WellNamed w → (∀ e ∈ es, ∀ p ∈ e.registers, p.WellNamed) →
      UniqueIds w'.daemon.publish.catalog ∧
      (∀ p ∈ w'.daemon.publish.catalog.projects, ∀ name,
        findProject w'.daemon.publish.catalog name = some p ↔
          name = p.projectId ∨ name = p.localPath) ∧
      ∀ p ∈ w'.file, ∀ name, w'.file.find? (·.named name) = some p ↔
        name = p.projectId ∨ name = p.localPath) := by
  have h := h0.run (fun _ _ _ htrue => htrue) (fun _ _ _ _ => trivial) hr
  refine ⟨h.memory.ids, h.memory.paths, h.file.ids, h.file.paths, fun hnamed hes => ?_⟩
  have hwell : OfNames (@LocalProject.WellNamed Oid) := by
    rintro p q hpq ⟨hpath, hid⟩
    rw [identity_localPath hpq] at hpath
    rw [identity_projectId hpq] at hid
    exact ⟨hpath, hid⟩
  have h := hnamed.run hwell hes hr
  refine ⟨h.memory.uniqueIds, fun p hp => h.memory.find_iff hp, fun p hp => ?_⟩
  exact SeparateRecords.find_iff (c := ⟨0, w'.file⟩) h.file hp

section Main

theorem separated_catalogMain {names : LocalProject ℕ → Prop} (running : Bool)
    (hnames : names currentProject) : Separated names (catalogMain running) := by
  have hcurrent : SeparateRecords names [currentProject] := by
    refine ⟨List.nodup_singleton _, List.nodup_singleton _, fun p hp => ?_⟩
    rw [List.mem_singleton.mp hp]
    exact hnames
  exact ⟨hcurrent, hcurrent, fun _ hnone => (by cases hnone), fun _ hidle => by cases hidle⟩

/-- The checkout of `prj` is registered for another project while `prj` leaves. -/
theorem records_are_separate_after_leave :
    let other : LocalProject ℕ := { currentProject with projectId := "other" }
    let es : List (CatalogEvent ℕ (Fin 2)) := [.during "prj" .readCatalog,
      .during "prj" (.register other none), .during "prj" .persist, .during "prj" .leave,
      .nextCommand, .during "prj" .load, .during "prj" .takeOver]
    ∃ w, Runs.run (catalogStep pairGraph) (catalogMain true) es = some w ∧
      (w.file.map (·.projectId)).Nodup ∧ UniqueIds w.daemon.publish.catalog := by
  intro other es
  have hes : ∀ e ∈ es, ∀ p ∈ e.registers, p.WellNamed := by
    intro e he p hp
    have hcases : e.registers = none ∨ e.registers = some other := by
      simp only [es, List.mem_cons, List.not_mem_nil, or_false] at he
      rcases he with rfl | rfl | rfl | rfl | rfl | rfl | rfl <;>
        first | exact .inl rfl | exact .inr rfl
    rcases hcases with hnone | hother
    · rw [hnone] at hp
      cases hp
    · obtain rfl := Option.some.inj (hother.symm.trans hp)
      exact ⟨by decide, by decide⟩
  have hr : ∃ w, Runs.run (catalogStep pairGraph) (catalogMain true) es = some w := ⟨_, rfl⟩
  obtain ⟨w, hr⟩ := hr
  obtain ⟨-, -, hids, -, hfound⟩ := records_are_separate (separated_catalogMain true trivial) hr
  exact ⟨w, hr, hids,
    (hfound (separated_catalogMain true ⟨by decide, by decide⟩) hes).1⟩

end Main

end LeaveWorld

end Resync
