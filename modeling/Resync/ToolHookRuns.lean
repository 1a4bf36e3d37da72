import Mathlib.Data.Set.Basic
import Resync.ToolHooks

/-! Every `PostToolUse` releases the lease of its own `PreToolUse`, and no other, in all
runs of a set of tool uses exactly if the names of their files are apart. -/
namespace Resync

namespace GateState

variable {s s' : GateState} {id k fresh : String} {call : LeaseCall} {metadata : LeaseMetadata}

theorem lookup_of_release (h : (s.release id).2.leasesByCall.lookup call = some k) :
    s.leasesByCall.lookup call = some k := by
  unfold release at h
  split at h
  · exact h
  · split at h
    · next own _ =>
      split at h
      · by_cases hown : call = own
        · rw [hown, AList.lookup_erase] at h
          cases h
        · rwa [AList.lookup_erase_ne hown] at h
      · exact h
    · exact h

theorem lookup_of_perform {op : GateOperation} (hs : s.perform op = some s')
    (h : s'.leasesByCall.lookup call = some k) : s.leasesByCall.lookup call = some k := by
  cases op with
  | drawTicket =>
    obtain rfl := Option.some.inj hs
    exact h
  | admitExclusive ticket =>
    obtain ⟨-, -, -, rfl⟩ := admitExclusive_eq_some hs
    exact h
  | endExclusive =>
    obtain rfl := Option.some.inj hs
    exact h
  | expire id =>
    obtain rfl := Option.some.inj hs
    exact lookup_of_release h

theorem leaseOfCall_eq_some (h : s.leaseOfCall metadata = some id) :
    ∃ call, leaseCall metadata = some call ∧ s.leasesByCall.lookup call = some id := by
  simp only [leaseOfCall, Option.bind_eq_bind, Option.bind_eq_some_iff] at h
  obtain ⟨call, hcall, found, hfound, hid⟩ := h
  split at hid
  · obtain rfl := Option.some.inj hid
    exact ⟨call, hcall, hfound⟩
  · cases hid

/-- The lease of an admission is that of the index, or a new one with its entry. -/
theorem activity_cases (h : s.activity metadata fresh = some (id, s')) :
    (∃ call, leaseCall metadata = some call ∧ s.leasesByCall.lookup call = some id ∧ s' = s) ∨
      id = fresh ∧ ∀ call k, s'.leasesByCall.lookup call = some k →
        s.leasesByCall.lookup call = some k ∨ leaseCall metadata = some call := by
  unfold activity at h
  split at h
  · cases h
  · split at h
    · next found hfound =>
      obtain ⟨rfl, rfl⟩ := Prod.mk.inj (Option.some.inj h)
      obtain ⟨call, hcall, hentry⟩ := leaseOfCall_eq_some hfound
      exact Or.inl ⟨call, hcall, hentry, rfl⟩
    · obtain ⟨rfl, rfl⟩ := Prod.mk.inj (Option.some.inj h)
      refine Or.inr ⟨rfl, fun call k hk => ?_⟩
      cases hown : leaseCall metadata with
      | none =>
        rw [hown] at hk
        exact Or.inl hk
      | some own =>
        rw [hown] at hk
        by_cases hcall : call = own
        · exact Or.inr (congrArg some hcall.symm)
        · exact Or.inl ((AList.lookup_insert_ne hcall).symm.trans hk)

end GateState

namespace ToolUse

/-- A file in the directory is not the directory. -/
theorem directory_ne (u : ToolUse) (name : String) : u.directory ++ [name] ≠ u.directory := by
  intro h
  have hlength := congrArg List.length h
  rw [List.length_append, List.length_singleton] at hlength
  omega

/-- The lease file of a tool use and its legacy name always differ. -/
theorem leasePath_ne_legacy (u : ToolUse) : u.leasePath ≠ u.legacyLeasePath := by
  intro h
  have hname := (List.cons.inj (List.append_cancel_left h)).1
  have hlength := congrArg String.length hname
  simp only [String.length_append] at hlength
  have hdash : "-".length = 1 := rfl
  omega

end ToolUse

/-- The triples of session ID, project ID and tool-use ID are pairwise distinct. -/
def DistinctTriples (T : Set ToolUse) : Prop := ∀ u ∈ T, ∀ v ∈ T, u.triple = v.triple → u = v

/-- The condition on the names. Whoever may get a lease looks for it. No other tool use
looks where its lease file is, and no marker is there. The file can be written: its name is
short enough, no directory has it, and no marker has the name of its directory. -/
structure Apart (T : Set ToolUse) : Prop where
  looks : ∀ u ∈ T, u.acquires = true → u.looks = true
  lease : ∀ u ∈ T, ∀ v ∈ T, u ≠ v → u.acquires = true → v.looks = true →
    v.leasePath ≠ u.leasePath
  legacy : ∀ u ∈ T, ∀ v ∈ T, u ≠ v → u.acquires = true → v.looks = true →
    v.legacyLeasePath ≠ u.leasePath
  marker : ∀ u ∈ T, ∀ v ∈ T, u.acquires = true → v.reconciliationMarker ≠ u.leasePath
  fits : ∀ u ∈ T, u.acquires = true → ∀ pid ≤ pidMax,
    (u.temporaryName pid).length ≤ nameMax
  directory : ∀ u ∈ T, ∀ v ∈ T, u.acquires = true →
    v.directory ≠ u.leasePath ∧ ∀ pid ≤ pidMax, v.directory ≠ u.temporaryPath pid
  markerDirectory : ∀ u ∈ T, ∀ v ∈ T, u.acquires = true → v.reconciliationMarker ≠ u.directory

/-- The hooks of the event belong to tool uses of the set. -/
def HookEvent.Within (T : Set ToolUse) : HookEvent → Prop
  | .start pid _ call projects => pid ≤ pidMax ∧ ∀ p ∈ projects, ToolUse.mk call p ∈ T
  | _ => True

namespace HookWorld

/-- What a `PostToolUse` releases is the lease that the `PreToolUse` of the same tool use
was granted, and it is released if no hook of the tool use fails. No other tool use was
granted it. -/
structure ReleasesOwn (T : Set ToolUse) (w : HookWorld) : Prop where
  own : ∀ u ∈ T, ∀ id ∈ w.released u, w.granted u = some id
  all : ∀ u ∈ T, w.places u = .ended → u ∉ w.failed → w.released u = (w.granted u).toList
  apart : ∀ u ∈ T, ∀ v ∈ T, ∀ id, w.granted u = some id → w.granted v = some id → u = v

/-- The lease is in its file, unless a hook has failed. -/
structure Recorded (w : HookWorld) (u : ToolUse) : Prop where
  acquires : ∀ id, w.granted u = some id → u.acquires = true
  file : u ∉ w.failed → ∀ id, w.granted u = some id → w.files u.leasePath = some (.lease id)

/-- `PostToolUse` reads its lease from here. -/
def Reads (u : ToolUse) (path : List String) : Prop :=
  u.looks = true ∧ (path = u.leasePath ∨ path = u.legacyLeasePath)

/-- What is known of a tool use at each place. -/
def Stage (w : HookWorld) (u : ToolUse) : HookPlace → Prop
  | .untouched | .preStarted | .postMessages _ => w.granted u = none ∧ w.released u = []
  | .answered lease => w.granted u = lease ∧ w.released u = [] ∧ u.acquires = true
  | .preMessages _ | .between | .postStarted => w.Recorded u ∧ w.released u = []
  | .found path => w.Recorded u ∧ w.released u = [] ∧ Reads u path ∧
      (path = u.leasePath ∨ w.granted u = none ∨ u ∈ w.failed)
  | .opened path id => w.granted u = some id ∧ w.released u = [] ∧ Reads u path
  | .released path => w.released u = (w.granted u).toList ∧ Reads u path
  | .ended => w.released u = (w.granted u).toList ∨ u ∈ w.failed ∧ w.released u = []

/-- The invariant. -/
structure Kept (T : Set ToolUse) (w : HookWorld) : Prop where
  members : ∀ pid, ∀ u ∈ w.processes pid, u ∈ T
  index : ∀ project call id, (w.gates project).leasesByCall.lookup call = some id →
    ∃ u ∈ T, u.projectId = project ∧ leaseCall u.metadata = some call ∧
      (w.places u).asked = true
  issued : ∀ u id, w.granted u = some id → id ∈ w.issued
  apart : ∀ u v id, w.granted u = some id → w.granted v = some id → u = v
  stage : ∀ u ∈ T, w.Stage u (w.places u)
  lease : ∀ u ∈ T, u.looks = true → ∀ id, w.files u.leasePath = some (.lease id) →
    w.granted u = some id
  legacy : ∀ u ∈ T, u.looks = true → ∀ id, w.files u.legacyLeasePath ≠ some (.lease id)
  pids : ∀ pid, ∀ u ∈ w.processes pid, pid ≤ pidMax
  directories : ∀ d ∈ w.directories, ∃ u ∈ T, d = u.directory
  files : ∀ path file, w.files path = some file →
    (∃ u ∈ T, u.acquires = true ∧ path = u.leasePath) ∨ ∃ u ∈ T, path = u.reconciliationMarker

variable {T : Set ToolUse} {w w' : HookWorld} {u v : ToolUse}

theorem kept_initial (T : Set ToolUse) : Kept T initial where
  members pid u hu := by cases hu
  index project call id h := by cases h
  issued u id h := by cases h
  apart u v id h := by cases h
  stage u hu := ⟨rfl, rfl⟩
  lease u hu hlooks id h := by cases h
  legacy u hu hlooks id h := by cases h
  pids pid u hu := by cases hu
  directories d hd := by cases hd
  files path file h := by cases h

theorem Recorded.frame (h : w.Recorded u) (hgranted : w'.granted u = w.granted u)
    (hfailed : u ∈ w.failed → u ∈ w'.failed)
    (hfiles : u.acquires = true → w'.files u.leasePath = w.files u.leasePath) :
    w'.Recorded u where
  acquires id hid := h.acquires id (hgranted ▸ hid)
  file hok id hid := by
    have hid' : w.granted u = some id := hgranted ▸ hid
    rw [hfiles (h.acquires id hid')]
    exact h.file (fun hf => hok (hfailed hf)) id hid'

/-- What another tool use does changes nothing that is known of this one. -/
theorem Stage.frame {place : HookPlace} (h : w.Stage u place)
    (hgranted : w'.granted u = w.granted u) (hreleased : w'.released u = w.released u)
    (hfailed : u ∈ w.failed → u ∈ w'.failed)
    (hfiles : u.acquires = true → w'.files u.leasePath = w.files u.leasePath) :
    w'.Stage u place := by
  cases place with
  | untouched | preStarted | postMessages =>
    rw [Stage, hgranted, hreleased]
    exact h
  | answered lease =>
    rw [Stage, hgranted, hreleased]
    exact h
  | preMessages | between | postStarted =>
    exact ⟨h.1.frame hgranted hfailed hfiles, hreleased.trans h.2⟩
  | found path =>
    refine ⟨h.1.frame hgranted hfailed hfiles, hreleased.trans h.2.1, h.2.2.1, ?_⟩
    rw [hgranted]
    exact h.2.2.2.imp_right fun hor => hor.imp_right hfailed
  | opened path id =>
    rw [Stage, hgranted, hreleased]
    exact h
  | released path =>
    rw [Stage, hgranted, hreleased]
    exact h
  | ended =>
    rw [Stage, hgranted, hreleased]
    rcases h with h | ⟨hf, hr⟩
    · exact Or.inl h
    · exact Or.inr ⟨hfailed hf, hr⟩

theorem current_eq_some {pid : ℕ} {place : HookPlace} (h : w.current pid = some (u, place)) :
    u ∈ w.processes pid ∧ w.places u = place := by
  obtain ⟨v, hv, hpair⟩ := Option.map_eq_some_iff.mp h
  obtain ⟨rfl, rfl⟩ := Prod.mk.inj hpair
  exact ⟨List.mem_of_head? hv, rfl⟩

/-- The tool use goes to another place, where it no longer asks for a lease. -/
theorem Kept.goTo (h : Kept T w) {place : HookPlace} (hasked : place.asked = true)
    (hstage : w.Stage u place) : Kept T (w.goTo u place) where
  members := h.members
  index project call id hid := by
    obtain ⟨v, hv, hproject, hcall, hplace⟩ := h.index project call id hid
    refine ⟨v, hv, hproject, hcall, ?_⟩
    change (Function.update w.places u place v).asked = true
    by_cases hvu : v = u
    · rw [hvu, Function.update_self]
      exact hasked
    · rw [Function.update_of_ne hvu]
      exact hplace
  issued := h.issued
  apart := h.apart
  stage v hv := by
    change Stage _ v (Function.update w.places u place v)
    by_cases hvu : v = u
    · rw [hvu, Function.update_self]
      exact hstage.frame rfl rfl (fun hf => hf) fun _ => rfl
    · rw [Function.update_of_ne hvu]
      exact (h.stage v hv).frame rfl rfl (fun hf => hf) fun _ => rfl
  lease := h.lease
  legacy := h.legacy
  pids := h.pids
  directories := h.directories
  files := h.files

/-- The process goes on to its next tool use. -/
theorem Kept.pop (h : Kept T w) (pid : ℕ) :
    Kept T { w with processes := Function.update w.processes pid (w.processes pid).tail } := by
  have hmem : ∀ p, ∀ v ∈ Function.update w.processes pid (w.processes pid).tail p,
      v ∈ w.processes p := by
    intro p v hv
    by_cases hp : p = pid
    · rw [hp, Function.update_self] at hv
      exact hp ▸ List.mem_of_mem_tail hv
    · rwa [Function.update_of_ne hp] at hv
  refine ⟨fun p v hv => h.members p v (hmem p v hv), h.index, h.issued, h.apart, fun v hv => ?_,
    h.lease, h.legacy, fun p v hv => h.pids p v (hmem p v hv), h.directories, h.files⟩
  exact (h.stage v hv).frame rfl rfl (fun hf => hf) fun _ => rfl

theorem Kept.leave (h : Kept T w) (pid : ℕ) {place : HookPlace} (hasked : place.asked = true)
    (hstage : w.Stage u place) : Kept T (w.leave pid u place) :=
  (h.goTo hasked hstage).pop pid

/-- A hook of the tool use fails. -/
theorem Kept.fail (h : Kept T w) (pid : ℕ) {place : HookPlace} (hasked : place.asked = true)
    (hstage : Stage { w with failed := u :: w.failed } u place) :
    Kept T (w.fail pid u place) := by
  have hfailed : Kept T { w with failed := u :: w.failed } := by
    refine ⟨h.members, h.index, h.issued, h.apart, fun v hv => ?_, h.lease, h.legacy, h.pids,
      h.directories, h.files⟩
    exact (h.stage v hv).frame rfl rfl (fun hf => List.mem_cons_of_mem u hf) fun _ => rfl
  exact hfailed.leave pid hasked hstage

theorem files_setFile (w : HookWorld) (path : List String) (file : Option HookFile) :
    (w.setFile path file).files path = file := by
  dsimp only [HookWorld.setFile]
  rw [Function.update_self]

theorem files_setFile_of_ne (w : HookWorld) {path other : List String} (file : Option HookFile)
    (hne : other ≠ path) : (w.setFile path file).files other = w.files other := by
  dsimp only [HookWorld.setFile]
  rw [Function.update_of_ne hne]

theorem files_leave (w : HookWorld) (pid : ℕ) (u : ToolUse) (place : HookPlace)
    (path : List String) :
    (w.leave pid u place).files path = w.files path := rfl

theorem pathExists_eq_false {path : List String} :
    w.pathExists path = false ↔ w.files path = none ∧ path ∉ w.directories := by
  rw [pathExists, Bool.or_eq_false_iff, Option.isSome_eq_false_iff, Option.isNone_iff_eq_none,
    List.contains_eq_mem, decide_eq_false_iff_not]

theorem canWrite_iff {pid : ℕ} : w.canWrite u pid = true ↔
    (u.temporaryName pid).length ≤ nameMax ∧ u.temporaryPath pid ∉ w.directories ∧
      u.leasePath ∉ w.directories := by
  rw [canWrite, Bool.and_eq_true, Bool.and_eq_true, decide_eq_true_eq, Bool.not_eq_true',
    Bool.not_eq_true', List.contains_eq_mem, List.contains_eq_mem, decide_eq_false_iff_not,
    decide_eq_false_iff_not, and_assoc]

/-- Nothing is in the way of the directory, and of the lease file in it. -/
structure Free (w : HookWorld) (pid : ℕ) (u : ToolUse) : Prop where
  directory : w.files u.directory = none
  lease : u.acquires = true →
    ({ w with directories := u.directory :: w.directories } : HookWorld).canWrite u pid = true

theorem Free.congr {pid : ℕ} (h : w.Free pid u) (hfiles : w'.files = w.files)
    (hdirectories : w'.directories = w.directories) : w'.Free pid u where
  directory := hfiles ▸ h.directory
  lease hacquires := by
    have hwrite := h.lease hacquires
    rw [canWrite_iff] at hwrite ⊢
    dsimp only at hwrite ⊢
    rwa [hdirectories]

theorem Free.createDirectory {pid : ℕ} (h : w.Free pid u) :
    w.createDirectory u = some { w with directories := u.directory :: w.directories } := by
  rw [HookWorld.createDirectory, h.directory]
  rfl

theorem Free.record_none {pid : ℕ} (h : w.Free pid u) :
    w.record pid u none = ({ w with directories := u.directory :: w.directories }, true) := by
  unfold HookWorld.record
  rw [h.createDirectory]

theorem Free.record {pid : ℕ} (h : w.Free pid u) (hacquires : u.acquires = true) (id : String) :
    w.record pid u (some id) =
      (({ w with directories := u.directory :: w.directories } : HookWorld).setFile u.leasePath
        (some (.lease id)), true) := by
  unfold HookWorld.record
  rw [h.createDirectory]
  dsimp only
  rw [if_pos (h.lease hacquires)]

/-- The directory changes. -/
theorem Kept.setFile (h : Kept T w) (hT : Apart T) {path : List String} {file : Option HookFile}
    (hstage : ∀ v ∈ T, (w.setFile path file).Stage v (w.places v))
    (hlease : ∀ id, file = some (.lease id) →
      ∃ u ∈ T, u.acquires = true ∧ path = u.leasePath ∧ w.granted u = some id)
    (hmarker : file = some .marker → ∃ u ∈ T, path = u.reconciliationMarker) :
    Kept T (w.setFile path file) where
  members := h.members
  index := h.index
  issued := h.issued
  apart := h.apart
  stage := hstage
  lease v hv hlooks id hid := by
    by_cases hpath : v.leasePath = path
    · rw [hpath, files_setFile] at hid
      obtain ⟨u, hu, hacquires, hown, hgranted⟩ := hlease id hid
      -- only the tool use that has been granted the lease writes it there
      by_cases huv : u = v
      · rw [← huv]
        exact hgranted
      · exact absurd (hpath.trans hown) (hT.lease u hu v hv huv hacquires hlooks)
    · rw [files_setFile_of_ne w file hpath] at hid
      exact h.lease v hv hlooks id hid
  legacy v hv hlooks id hid := by
    by_cases hpath : v.legacyLeasePath = path
    · rw [hpath, files_setFile] at hid
      obtain ⟨u, hu, hacquires, hown, -⟩ := hlease id hid
      by_cases huv : u = v
      · rw [huv] at hown
        exact v.leasePath_ne_legacy (hpath.trans hown).symm
      · exact hT.legacy u hu v hv huv hacquires hlooks (hpath.trans hown)
    · rw [files_setFile_of_ne w file hpath] at hid
      exact h.legacy v hv hlooks id hid
  pids := h.pids
  directories := h.directories
  files other found hfound := by
    by_cases hpath : other = path
    · rw [hpath, files_setFile] at hfound
      rw [hpath]
      cases found with
      | lease id =>
        obtain ⟨u, hu, hacquires, hown, -⟩ := hlease id hfound
        exact Or.inl ⟨u, hu, hacquires, hown⟩
      | marker => exact Or.inr (hmarker hfound)
    · rw [files_setFile_of_ne w file hpath] at hfound
      exact h.files other found hfound

/-- A directory is created. -/
theorem Kept.createDirectory (h : Kept T w) (hu : u ∈ T) :
    Kept T { w with directories := u.directory :: w.directories } := by
  refine ⟨h.members, h.index, h.issued, h.apart, fun v hv => ?_, h.lease, h.legacy, h.pids,
    fun d hd => ?_, h.files⟩
  · exact (h.stage v hv).frame rfl rfl (fun hf => hf) fun _ => rfl
  · rcases List.mem_cons.mp hd with rfl | hd
    · exact ⟨u, hu, rfl⟩
    · exact h.directories d hd

/-- A file at which no lease of another tool use can be. -/
theorem Kept.stage_setFile (h : Kept T w) {path : List String} (file : Option HookFile)
    (hv : v ∈ T) (hpath : v.acquires = true → v.leasePath ≠ path) :
    (w.setFile path file).Stage v (w.places v) :=
  (h.stage v hv).frame rfl rfl (fun hf => hf) fun hacquires =>
    files_setFile_of_ne w file (hpath hacquires)

theorem setMarker_places (w : HookWorld) (u : ToolUse) (active : Bool) :
    (w.setMarker u active).places = w.places := by
  unfold HookWorld.setMarker
  split
  · rfl
  · split
    · split <;> rfl
    · rfl

theorem Kept.setMarker (h : Kept T w) (hT : Apart T) (hu : u ∈ T) (active : Bool) :
    Kept T (w.setMarker u active) := by
  have hmarker : ∀ file : Option HookFile, (∀ id, file ≠ some (.lease id)) →
      Kept T (w.setFile u.reconciliationMarker file) := by
    intro file hfile
    apply h.setFile hT
    · intro v hv
      exact h.stage_setFile file hv fun hacquires => (hT.marker v hv u hu hacquires).symm
    · intro id hid
      exact absurd hid (hfile id)
    · exact fun _ => ⟨u, hu, rfl⟩
  unfold HookWorld.setMarker
  split
  · exact h
  · split
    · split
      · exact h
      · exact hmarker _ fun _ hid => by cases hid
    · exact hmarker _ fun _ hid => by cases hid

/-- The lease file is removed after the release. -/
theorem Kept.removeLease (h : Kept T w) (hT : Apart T) (hu : u ∈ T) {path : List String}
    (hplace : w.places u = .released path) : Kept T (w.setFile path none) := by
  have hstage := h.stage u hu
  rw [hplace] at hstage
  obtain ⟨-, hlooks, hpath⟩ := hstage
  apply h.setFile hT
  · intro v hv
    by_cases hvu : v = u
    · rw [hvu, hplace]
      have hown := h.stage u hu
      rw [hplace] at hown
      exact hown
    · apply h.stage_setFile none hv
      intro hacquires
      rcases hpath with rfl | rfl
      · exact (hT.lease v hv u hu hvu hacquires hlooks).symm
      · exact (hT.legacy v hv u hu hvu hacquires hlooks).symm
  · intro id hid
    cases hid
  · intro hfile
    cases hfile

/-- The lease is written to its file. -/
theorem Kept.writeLease (h : Kept T w) (hT : Apart T) (hu : u ∈ T) {id : String}
    (hplace : w.places u = .answered (some id)) :
    Kept T (w.setFile u.leasePath (some (.lease id))) := by
  have hstage := h.stage u hu
  rw [hplace] at hstage
  obtain ⟨hgranted, hreleased, hacquires⟩ := hstage
  apply h.setFile hT
  · intro v hv
    by_cases hvu : v = u
    · rw [hvu, hplace]
      exact ⟨hgranted, hreleased, hacquires⟩
    · apply h.stage_setFile _ hv
      intro hv'
      exact hT.lease u hu v hv (Ne.symm hvu) hacquires (hT.looks v hv hv')
  · intro k hk
    obtain rfl := HookFile.lease.inj (Option.some.inj hk)
    exact ⟨u, hu, hacquires, rfl, hgranted⟩
  · intro hfile
    cases hfile

/-- Where the names are apart, nothing is in the way of a lease file. -/
theorem Kept.free (h : Kept T w) (hT : Apart T) {pid : ℕ} (hmem : u ∈ w.processes pid)
    (hacquires : u.acquires = true) : w.Free pid u := by
  have hu := h.members pid u hmem
  have hpid := h.pids pid u hmem
  have hfree : ∀ path, (∀ v ∈ T, v.directory ≠ path) → path ∉ u.directory :: w.directories := by
    intro path hpath hd
    rcases List.mem_cons.mp hd with hown | hd
    · exact hpath u hu hown.symm
    · obtain ⟨v, hv, hother⟩ := h.directories path hd
      exact hpath v hv hother.symm
  refine ⟨?_, fun _ => canWrite_iff.mpr ⟨hT.fits u hu hacquires pid hpid, ?_, ?_⟩⟩
  · cases hfile : w.files u.directory with
    | none => rfl
    | some file =>
      rcases h.files _ file hfile with ⟨v, hv, hv', hpath⟩ | ⟨v, hv, hpath⟩
      · exact absurd hpath (hT.directory v hv u hu hv').1
      · exact absurd hpath.symm (hT.markerDirectory u hu v hv hacquires)
  · exact hfree _ fun v hv => (hT.directory u hu v hv hacquires).2 pid hpid
  · exact hfree _ fun v hv => (hT.directory u hu v hv hacquires).1

/-- Without a lease the hook creates its directory at most. -/
theorem Kept.record_none (h : Kept T w) (hu : u ∈ T) (pid : ℕ) :
    Kept T (w.record pid u none).1 ∧ (w.record pid u none).1.granted = w.granted ∧
      (w.record pid u none).1.released = w.released := by
  unfold HookWorld.record
  cases hcreated : w.createDirectory u with
  | none => exact ⟨h, rfl, rfl⟩
  | some created =>
    rw [HookWorld.createDirectory] at hcreated
    split at hcreated
    · cases hcreated
    · obtain rfl := Option.some.inj hcreated
      exact ⟨h.createDirectory hu, rfl, rfl⟩

/-- The gates lose entries of their index at most. -/
theorem Kept.setGates (h : Kept T w) {gates : String → GateState}
    (hindex : ∀ project call id, (gates project).leasesByCall.lookup call = some id →
      (w.gates project).leasesByCall.lookup call = some id) :
    Kept T { w with gates := gates } :=
  ⟨h.members, fun project call id hid => h.index project call id (hindex project call id hid),
    h.issued, h.apart, fun v hv => (h.stage v hv).frame rfl rfl (fun hf => hf) fun _ => rfl,
    h.lease, h.legacy, h.pids, h.directories, h.files⟩

/-- The daemon releases the lease that the hook has read. -/
theorem Kept.releaseAccess (h : Kept T w) (hu : u ∈ T) {path : List String} {id : String}
    (hplace : w.places u = .opened path id) :
    Kept T ((w.releaseAccess u id).goTo u (.released path)) := by
  have hgates : Kept T { w with gates := fun project => ((w.gates project).release id).2 } :=
    h.setGates fun _ _ _ hk => GateState.lookup_of_release hk
  have hstage := h.stage u hu
  rw [hplace] at hstage
  obtain ⟨hgranted, hreleased, hreads⟩ := hstage
  have hopened : Kept T (({ w with gates := fun project => ((w.gates project).release id).2 } :
      HookWorld).goTo u (.opened path id)) := hgates.goTo rfl ⟨hgranted, hreleased, hreads⟩
  refine ⟨h.members, fun project call k hk => ?_, h.issued, h.apart, fun v hv => ?_, h.lease,
    h.legacy, h.pids, h.directories, h.files⟩
  · obtain ⟨v, hv, hproject, hcall, hasked⟩ := hopened.index project call k hk
    refine ⟨v, hv, hproject, hcall, ?_⟩
    change (Function.update w.places u (.opened path id) v).asked = true at hasked
    change (Function.update w.places u (.released path) v).asked = true
    by_cases hvu : v = u
    · rw [hvu, Function.update_self]
      rfl
    · rw [Function.update_of_ne hvu] at hasked ⊢
      exact hasked
  · change Stage _ v (Function.update w.places u (.released path) v)
    by_cases hvu : v = u
    · subst hvu
      rw [Function.update_self]
      refine ⟨?_, hreads⟩
      change Function.update w.released v (id :: w.released v) v = (w.granted v).toList
      rw [Function.update_self, hreleased, hgranted]
      rfl
    · rw [Function.update_of_ne hvu]
      exact (h.stage v hv).frame rfl (Function.update_of_ne hvu ..) (fun hf => hf) fun _ => rfl

/-- No other tool use has the triple, so the index has no lease for it, and has a new
entry for it at most. -/
theorem Kept.activity (h : Kept T w) (hT : DistinctTriples T) (hu : u ∈ T) {fresh id : String}
    {gate : GateState} (hplace : w.places u = .preStarted)
    (hactivity : (w.gates u.projectId).activity u.metadata fresh = some (id, gate)) :
    id = fresh ∧ ∀ project call k,
      (Function.update w.gates u.projectId gate project).leasesByCall.lookup call = some k →
        (w.gates project).leasesByCall.lookup call = some k ∨
          project = u.projectId ∧ leaseCall u.metadata = some call := by
  rcases GateState.activity_cases hactivity with ⟨call, hcall, hentry, -⟩ | ⟨hid, hnew⟩
  · exfalso
    obtain ⟨v, hv, hproject, hcall', hasked⟩ := h.index u.projectId call id hentry
    have hids : ∀ x : ToolUse, leaseCall x.metadata = some call →
        x.triple = (some call.sessionId, x.projectId, some call.callId) := by
      intro x hx
      simp only [leaseCall, Option.bind_eq_bind, Option.bind_eq_some_iff] at hx
      obtain ⟨s, hs, c, hc, hpair⟩ := hx
      obtain rfl := Option.some.inj hpair
      exact Prod.ext hs (Prod.ext rfl hc)
    have hsame : v = u := by
      apply hT v hv u hu
      rw [hids v hcall', hids u hcall, hproject]
    rw [hsame, hplace] at hasked
    cases hasked
  · refine ⟨hid, fun project call k hk => ?_⟩
    by_cases hproject : project = u.projectId
    · rw [hproject, Function.update_self] at hk
      rcases hnew call k hk with hold | hown
      · rw [hproject]
        exact Or.inl hold
      · exact Or.inr ⟨hproject, hown⟩
    · rw [Function.update_of_ne hproject] at hk
      exact Or.inl hk

/-- The daemon grants a lease, of which the hook is not told. -/
theorem Kept.grant (h : Kept T w) (hT : DistinctTriples T) (hu : u ∈ T) {fresh id : String}
    {gate : GateState} (hplace : w.places u = .preStarted)
    (hactivity : (w.gates u.projectId).activity u.metadata fresh = some (id, gate))
    {place : HookPlace} (hasked : place.asked = true) (hstage : w.Stage u place) :
    Kept T ((w.grant u fresh gate).goTo u place) := by
  have hgo := h.goTo hasked hstage
  refine ⟨h.members, fun project call k hk => ?_, fun v k hk => ?_, h.apart, fun v hv => ?_,
    h.lease, h.legacy, h.pids, h.directories, h.files⟩
  · rcases (h.activity hT hu hplace hactivity).2 project call k hk with hold | ⟨hproject, hown⟩
    · exact hgo.index project call k hold
    · refine ⟨u, hu, hproject.symm, hown, ?_⟩
      change (Function.update w.places u place u).asked = true
      rw [Function.update_self]
      exact hasked
  · exact List.mem_cons_of_mem fresh (h.issued v k hk)
  · exact (hgo.stage v hv).frame rfl rfl (fun hf => hf) fun _ => rfl

/-- The hook is told of a lease that no hook has been told of. -/
theorem Kept.tell (h : Kept T (w.goTo u (.answered none))) (hu : u ∈ T) {id : String}
    (hissued : id ∈ w.issued) (hfresh : ∀ v, w.granted v ≠ some id) :
    Kept T { w.goTo u (.answered (some id)) with
      granted := Function.update w.granted u (some id) } := by
  have hstage := h.stage u hu
  change Stage _ u (Function.update w.places u (.answered none) u) at hstage
  rw [Function.update_self] at hstage
  obtain ⟨hnone, hreleased, hacquires⟩ := hstage
  have hnone : w.granted u = none := hnone
  have hgranted : ∀ v k, Function.update w.granted u (some id) v = some k →
      v = u ∧ k = id ∨ v ≠ u ∧ w.granted v = some k := by
    intro v k hk
    by_cases hvu : v = u
    · rw [hvu, Function.update_self] at hk
      exact Or.inl ⟨hvu, (Option.some.inj hk).symm⟩
    · rw [Function.update_of_ne hvu] at hk
      exact Or.inr ⟨hvu, hk⟩
  refine ⟨h.members, fun project call k hk => ?_, fun v k hk => ?_, fun v v' k hk hk' => ?_,
    fun v hv => ?_, fun v hv hlooks k hk => ?_, h.legacy, h.pids, h.directories, h.files⟩
  · obtain ⟨v, hv, hproject, hcall, hasked⟩ := h.index project call k hk
    refine ⟨v, hv, hproject, hcall, ?_⟩
    change (Function.update w.places u (.answered none) v).asked = true at hasked
    change (Function.update w.places u (.answered (some id)) v).asked = true
    by_cases hvu : v = u
    · rw [hvu, Function.update_self]
      rfl
    · rw [Function.update_of_ne hvu] at hasked ⊢
      exact hasked
  · rcases hgranted v k hk with ⟨-, rfl⟩ | ⟨-, hold⟩
    · exact hissued
    · exact h.issued v k hold
  · rcases hgranted v k hk with ⟨rfl, rfl⟩ | ⟨-, hold⟩
    · rcases hgranted v' k hk' with ⟨rfl, -⟩ | ⟨-, hold'⟩
      · rfl
      · exact absurd hold' (hfresh v')
    · rcases hgranted v' k hk' with ⟨-, rfl⟩ | ⟨-, hold'⟩
      · exact absurd hold (hfresh v)
      · exact h.apart v v' k hold hold'
  · change Stage _ v (Function.update w.places u (.answered (some id)) v)
    by_cases hvu : v = u
    · subst hvu
      rw [Function.update_self]
      exact ⟨Function.update_self .., hreleased, hacquires⟩
    · have hold := h.stage v hv
      change Stage _ v (Function.update w.places u (.answered none) v) at hold
      rw [Function.update_of_ne hvu] at hold ⊢
      exact hold.frame (Function.update_of_ne hvu ..) rfl (fun hf => hf) fun _ => rfl
  · have hold : w.granted v = some k := h.lease v hv hlooks k hk
    have hvu : v ≠ u := by
      rintro rfl
      rw [hnone] at hold
      cases hold
    exact (Function.update_of_ne hvu ..).trans hold

/-- A hook process starts. -/
theorem Kept.start (h : Kept T w) {event : ToolEvent} {uses : List ToolUse}
    {processes : ℕ → List ToolUse}
    (hmembers : ∀ pid, ∀ u ∈ processes pid, u ∈ T ∧ pid ≤ pidMax)
    (hawaits : ∀ u ∈ uses, (w.places u).awaits event = true) :
    Kept T { w with
      processes := processes,
      places := fun u => if u ∈ uses then event.start else w.places u } := by
  refine ⟨fun pid v hv => (hmembers pid v hv).1, fun project call id hid => ?_, h.issued, h.apart,
    fun v hv => ?_, h.lease, h.legacy, fun pid v hv => (hmembers pid v hv).2, h.directories,
    h.files⟩
  · obtain ⟨v, hv, hproject, hcall, hasked⟩ := h.index project call id hid
    refine ⟨v, hv, hproject, hcall, ?_⟩
    change (if v ∈ uses then event.start else w.places v).asked = true
    split
    · next hmem =>
      -- an `untouched` tool use has not asked, so this is its `PostToolUse`
      have hplace := hawaits v hmem
      cases event with
      | postToolUse => rfl
      | preToolUse =>
        cases hp : w.places v with
        | untouched =>
          rw [hp] at hasked
          cases hasked
        | _ =>
          rw [hp] at hplace
          cases hplace
    · exact hasked
  · change Stage _ v (if v ∈ uses then event.start else w.places v)
    have hold : Stage { w with
        processes := processes,
        places := fun u => if u ∈ uses then event.start else w.places u } v (w.places v) :=
      (h.stage v hv).frame rfl rfl (fun hf => hf) fun _ => rfl
    split
    · next hmem =>
      have hplace := hawaits v hmem
      cases hp : w.places v with
      | untouched =>
        rw [hp] at hold
        obtain ⟨hnone, hreleased⟩ := hold
        cases event with
        | preToolUse => exact ⟨hnone, hreleased⟩
        | postToolUse =>
          refine ⟨⟨fun id hid => ?_, fun _ id hid => ?_⟩, hreleased⟩
          · rw [hnone] at hid
            cases hid
          · rw [hnone] at hid
            cases hid
      | between =>
        rw [hp] at hold hplace
        cases event with
        | preToolUse => cases hplace
        | postToolUse => exact hold
      | _ =>
        rw [hp] at hplace
        cases event <;> cases hplace
    · exact hold

/-- What a failed hook leaves. -/
theorem stage_afterFailure {place next : HookPlace} (h : w.Stage u place)
    (hnext : place.afterFailure = some next) :
    Stage { w with failed := u :: w.failed } u next := by
  have hfailed : u ∈ u :: w.failed := List.mem_cons_self
  have hrecorded : (∀ id, w.granted u = some id → u.acquires = true) →
      Recorded { w with failed := u :: w.failed } u :=
    fun hacquires => ⟨hacquires, fun hok => absurd hfailed hok⟩
  cases place with
  | untouched => cases hnext
  | between => cases hnext
  | ended => cases hnext
  | preStarted =>
    obtain rfl := Option.some.inj hnext
    refine ⟨hrecorded fun id hid => ?_, h.2⟩
    have hnone : w.granted u = none := h.1
    rw [hnone] at hid
    cases hid
  | answered lease =>
    obtain rfl := Option.some.inj hnext
    exact ⟨hrecorded fun _ _ => h.2.2, h.2.1⟩
  | preMessages active =>
    obtain rfl := Option.some.inj hnext
    exact ⟨hrecorded h.1.acquires, h.2⟩
  | postStarted =>
    obtain rfl := Option.some.inj hnext
    exact Or.inr ⟨hfailed, h.2⟩
  | found path =>
    obtain rfl := Option.some.inj hnext
    exact Or.inr ⟨hfailed, h.2.1⟩
  | opened path id =>
    obtain rfl := Option.some.inj hnext
    exact Or.inr ⟨hfailed, h.2.1⟩
  | released path =>
    obtain rfl := Option.some.inj hnext
    exact Or.inl h.1
  | postMessages active =>
    obtain rfl := Option.some.inj hnext
    exact Or.inr ⟨hfailed, h.2⟩

theorem afterFailure_asked {place next : HookPlace} (h : place.afterFailure = some next) :
    next.asked = true := by
  cases place <;> cases h <;> rfl

/-- A tool use without a lease. -/
theorem Recorded.of_none (h : w.granted u = none) : w.Recorded u where
  acquires id hid := by
    rw [h] at hid
    cases hid
  file _ id hid := by
    rw [h] at hid
    cases hid

/-- The step lemma. -/
theorem Kept.step (h : Kept T w) (hdistinct : DistinctTriples T) (hT : Apart T) {e : HookEvent}
    (hwithin : e.Within T) (hs : w.step e = some w') : Kept T w' := by
  cases e with
  | start pid event call projects =>
    simp only [HookWorld.step] at hs
    split at hs
    · next hc =>
      obtain rfl := Option.some.inj hs
      apply h.start
      · intro p v hv
        by_cases hp : p = pid
        · rw [hp, Function.update_self] at hv
          have hmem : v ∈ projects.map (ToolUse.mk call) := by
            cases event with
            | preToolUse => exact hv
            | postToolUse => exact List.mem_reverse.mp hv
          obtain ⟨project, hproject, rfl⟩ := List.mem_map.mp hmem
          exact ⟨hwithin.2 project hproject, hp ▸ hwithin.1⟩
        · rw [Function.update_of_ne hp] at hv
          exact ⟨h.members p v hv, h.pids p v hv⟩
      · exact hc.2.2
    · cases hs
  | acquire pid fresh answer =>
    simp only [HookWorld.step] at hs
    split at hs
    · next u hcurrent =>
      obtain ⟨hmem, hplace⟩ := current_eq_some hcurrent
      have hu := h.members pid u hmem
      have hstage := h.stage u hu
      rw [hplace] at hstage
      obtain ⟨hnone, hreleased⟩ := hstage
      split at hs
      · next hacquires =>
        cases answer with
        | error =>
          obtain rfl := Option.some.inj hs
          exact h.leave pid rfl ⟨.of_none hnone, hreleased⟩
        | reconciling =>
          obtain rfl := Option.some.inj hs
          exact h.goTo rfl ⟨hnone, hreleased, hacquires⟩
        | lease answered =>
          dsimp only at hs
          split at hs
          · cases hs
          · next hfresh =>
            split at hs
            · cases hs
            · next id gate hactivity =>
              obtain ⟨rfl, -⟩ := h.activity hdistinct hu hplace hactivity
              cases answered with
              | true =>
                obtain rfl := Option.some.inj hs
                have htold : Kept T ((w.grant u id gate).goTo u (.answered none)) :=
                  h.grant hdistinct hu hplace hactivity rfl ⟨hnone, hreleased, hacquires⟩
                exact htold.tell hu List.mem_cons_self fun v hv => hfresh (h.issued v _ hv)
              | false =>
                obtain rfl := Option.some.inj hs
                have hgo : Kept T ((w.grant u id gate).goTo u .between) :=
                  h.grant hdistinct hu hplace hactivity rfl ⟨.of_none hnone, hreleased⟩
                exact hgo.pop pid
      · cases hs
    · cases hs
  | accessState pid answer =>
    simp only [HookWorld.step] at hs
    split at hs
    · next u hcurrent =>
      obtain ⟨hmem, hplace⟩ := current_eq_some hcurrent
      have hstage := h.stage u (h.members pid u hmem)
      rw [hplace] at hstage
      obtain ⟨hnone, hreleased⟩ := hstage
      split at hs
      · cases hs
      · cases answer with
        | some active =>
          obtain ⟨hkept, hgranted, hreleased'⟩ := h.record_none (h.members pid u hmem) pid
          dsimp only at hs
          split at hs
          · next recorded heq =>
            rw [heq] at hkept hgranted hreleased'
            obtain rfl := Option.some.inj hs
            exact hkept.goTo rfl ⟨.of_none (congrFun hgranted u ▸ hnone),
              (congrFun hreleased' u).trans hreleased⟩
          · next recorded heq =>
            rw [heq] at hkept hgranted hreleased'
            obtain rfl := Option.some.inj hs
            exact hkept.leave pid rfl ⟨.of_none (congrFun hgranted u ▸ hnone),
              (congrFun hreleased' u).trans hreleased⟩
        | none =>
          obtain rfl := Option.some.inj hs
          exact h.leave pid rfl ⟨.of_none hnone, hreleased⟩
    · next u hcurrent =>
      obtain ⟨hmem, hplace⟩ := current_eq_some hcurrent
      have hu := h.members pid u hmem
      have hstage := h.stage u hu
      rw [hplace] at hstage
      obtain ⟨hrecorded, hreleased⟩ := hstage
      split at hs
      · cases hs
      · next hlooks =>
        -- whoever does not look for a lease has not been granted one
        have hnone : w.granted u = none := by
          cases hgranted : w.granted u with
          | none => rfl
          | some id => exact absurd (hT.looks u hu (hrecorded.acquires id hgranted)) hlooks
        cases answer with
        | some active =>
          obtain rfl := Option.some.inj hs
          exact h.goTo rfl ⟨hnone, hreleased⟩
        | none =>
          obtain rfl := Option.some.inj hs
          refine h.leave pid rfl (Or.inl ?_)
          rw [hreleased, hnone]
          rfl
    · cases hs
  | write pid =>
    simp only [HookWorld.step] at hs
    split at hs
    · next u lease hcurrent =>
      obtain ⟨hmem, hplace⟩ := current_eq_some hcurrent
      have hu := h.members pid u hmem
      have hstage := h.stage u hu
      rw [hplace] at hstage
      obtain ⟨hgranted, hreleased, hacquires⟩ := hstage
      cases lease with
      | some id =>
        rw [(h.free hT hmem hacquires).record hacquires id] at hs
        obtain rfl := Option.some.inj hs
        apply ((h.createDirectory hu).writeLease hT hu hplace).goTo rfl
        refine ⟨⟨fun _ _ => hacquires, fun _ k hk => ?_⟩, hreleased⟩
        obtain rfl := Option.some.inj (hgranted.symm.trans hk)
        exact files_setFile _ u.leasePath _
      | none =>
        obtain ⟨hkept, hgranted', hreleased'⟩ := h.record_none hu pid
        split at hs
        · next recorded heq =>
          rw [heq] at hkept hgranted' hreleased'
          obtain rfl := Option.some.inj hs
          exact hkept.goTo rfl ⟨.of_none (congrFun hgranted' u ▸ hgranted),
            (congrFun hreleased' u).trans hreleased⟩
        · next recorded heq =>
          rw [heq] at hkept hgranted' hreleased'
          obtain rfl := Option.some.inj hs
          exact hkept.leave pid rfl ⟨.of_none (congrFun hgranted' u ▸ hgranted),
            (congrFun hreleased' u).trans hreleased⟩
    · cases hs
  | messages pid =>
    simp only [HookWorld.step] at hs
    split at hs
    · next u active hcurrent =>
      obtain ⟨hmem, hplace⟩ := current_eq_some hcurrent
      have hu := h.members pid u hmem
      have hmarked := h.setMarker hT hu active
      have hstage := hmarked.stage u hu
      obtain rfl := Option.some.inj hs
      have hplace' : (w.setMarker u active).places u = .preMessages active := by
        rw [setMarker_places, hplace]
      rw [hplace'] at hstage
      exact hmarked.leave pid rfl hstage
    · next u active hcurrent =>
      obtain ⟨hmem, hplace⟩ := current_eq_some hcurrent
      have hu := h.members pid u hmem
      have hmarked := h.setMarker hT hu active
      have hstage := hmarked.stage u hu
      obtain rfl := Option.some.inj hs
      have hplace' : (w.setMarker u active).places u = .postMessages active := by
        rw [setMarker_places, hplace]
      rw [hplace'] at hstage
      refine hmarked.leave pid rfl (Or.inl ?_)
      rw [hstage.1, hstage.2]
      rfl
    · cases hs
  | look pid =>
    simp only [HookWorld.step] at hs
    split at hs
    · next u hcurrent =>
      obtain ⟨hmem, hplace⟩ := current_eq_some hcurrent
      have hu := h.members pid u hmem
      have hstage := h.stage u hu
      rw [hplace] at hstage
      obtain ⟨hrecorded, hreleased⟩ := hstage
      split at hs
      · next hlooks =>
        split at hs
        · obtain rfl := Option.some.inj hs
          exact h.goTo rfl ⟨hrecorded, hreleased, ⟨hlooks, Or.inl rfl⟩, Or.inl rfl⟩
        · next hnofile =>
          -- a lease that was granted would be in the file, unless a hook has failed
          have hlost : w.granted u = none ∨ u ∈ w.failed := by
            by_cases hf : u ∈ w.failed
            · exact Or.inr hf
            · left
              cases hgranted : w.granted u with
              | none => rfl
              | some id =>
                rw [pathExists, hrecorded.file hf id hgranted] at hnofile
                exact absurd rfl hnofile
          split at hs
          · obtain rfl := Option.some.inj hs
            exact h.goTo rfl ⟨hrecorded, hreleased, ⟨hlooks, Or.inr rfl⟩, Or.inr hlost⟩
          · obtain rfl := Option.some.inj hs
            apply h.leave pid rfl
            rcases hlost with hnone | hf
            · left
              rw [hreleased, hnone]
              rfl
            · exact Or.inr ⟨hf, hreleased⟩
      · cases hs
    · cases hs
  | read pid =>
    simp only [HookWorld.step] at hs
    split at hs
    · next u path hcurrent =>
      obtain ⟨hmem, hplace⟩ := current_eq_some hcurrent
      have hu := h.members pid u hmem
      have hstage := h.stage u hu
      rw [hplace] at hstage
      obtain ⟨hrecorded, hreleased, ⟨hlooks, hpath⟩, hlost⟩ := hstage
      split at hs
      · next id hfile =>
        obtain rfl := Option.some.inj hs
        refine h.goTo rfl ⟨?_, hreleased, hlooks, hpath⟩
        rcases hpath with rfl | rfl
        · exact h.lease u hu hlooks id hfile
        · exact absurd hfile (h.legacy u hu hlooks id)
      · split at hs
        · next hdirectory =>
          obtain rfl := Option.some.inj hs
          apply h.leave pid rfl
          rcases hlost with rfl | hnone | hf
          · left
            cases hgranted : w.granted u with
            | none => exact hreleased
            | some id =>
              -- no directory has the name of the lease file of a tool use with a lease
              rw [List.contains_eq_mem, decide_eq_true_eq] at hdirectory
              obtain ⟨v, hv, hsame⟩ := h.directories _ hdirectory
              have hother := (hT.directory u hu v hv (hrecorded.acquires id hgranted)).1
              exact absurd hsame.symm hother
          · left
            rw [hreleased, hnone]
            rfl
          · exact Or.inr ⟨hf, hreleased⟩
        · obtain rfl := Option.some.inj hs
          exact h.fail pid rfl (Or.inr ⟨List.mem_cons_self, hreleased⟩)
    · cases hs
  | release pid =>
    simp only [HookWorld.step] at hs
    split at hs
    · next u path id hcurrent =>
      obtain ⟨hmem, hplace⟩ := current_eq_some hcurrent
      obtain rfl := Option.some.inj hs
      exact h.releaseAccess (h.members pid u hmem) hplace
    · cases hs
  | remove pid =>
    simp only [HookWorld.step] at hs
    split at hs
    · next u path hcurrent =>
      obtain ⟨hmem, hplace⟩ := current_eq_some hcurrent
      have hu := h.members pid u hmem
      have hstage := h.stage u hu
      rw [hplace] at hstage
      split at hs
      · obtain rfl := Option.some.inj hs
        exact (h.removeLease hT hu hplace).leave pid rfl (Or.inl hstage.1)
      · obtain rfl := Option.some.inj hs
        exact h.fail pid rfl (Or.inl hstage.1)
    · cases hs
  | fail pid =>
    simp only [HookWorld.step] at hs
    split at hs
    · next u place hcurrent =>
      obtain ⟨hmem, hplace⟩ := current_eq_some hcurrent
      obtain ⟨next, hnext, rfl⟩ := Option.map_eq_some_iff.mp hs
      have hstage := h.stage u (h.members pid u hmem)
      rw [hplace] at hstage
      exact h.fail pid (afterFailure_asked hnext) (stage_afterFailure hstage hnext)
    · cases hs
  | gate project operation =>
    obtain ⟨gate, hgate, rfl⟩ := Option.map_eq_some_iff.mp hs
    apply h.setGates
    intro p call id hid
    by_cases hp : p = project
    · rw [hp, Function.update_self] at hid
      rw [hp]
      exact GateState.lookup_of_perform hgate hid
    · rw [Function.update_of_ne hp] at hid
      exact hid
  | restart =>
    obtain rfl := Option.some.inj hs
    apply h.setGates
    intro p call id hid
    cases hid

theorem Kept.releasesOwn (h : Kept T w) : w.ReleasesOwn T where
  own u hu id hid := by
    have hstage := h.stage u hu
    have hall : w.released u = (w.granted u).toList ∨ w.released u = [] := by
      cases hplace : w.places u with
      | untouched | preStarted | postMessages =>
        rw [hplace] at hstage
        exact Or.inr hstage.2
      | answered lease =>
        rw [hplace] at hstage
        exact Or.inr hstage.2.1
      | preMessages | between | postStarted =>
        rw [hplace] at hstage
        exact Or.inr hstage.2
      | found path =>
        rw [hplace] at hstage
        exact Or.inr hstage.2.1
      | opened path lease =>
        rw [hplace] at hstage
        exact Or.inr hstage.2.1
      | released path =>
        rw [hplace] at hstage
        exact Or.inl hstage.1
      | ended =>
        rw [hplace] at hstage
        exact hstage.imp (fun hown => hown) And.right
    rcases hall with hall | hall
    · rw [hall] at hid
      exact Option.mem_toList.mp hid
    · rw [hall] at hid
      cases hid
  all u hu hplace hok := by
    have hstage := h.stage u hu
    rw [hplace] at hstage
    rcases hstage with hall | ⟨hf, -⟩
    · exact hall
    · exact absurd hf hok
  apart u hu v hv id := h.apart u v id

/-- The run lemma. -/
theorem releasesOwn_of_run (hdistinct : DistinctTriples T) (hT : Apart T) {es : List HookEvent}
    (hwithin : ∀ e ∈ es, e.Within T) (hr : Runs.run step initial es = some w) :
    w.ReleasesOwn T := by
  have hall : Runs.Steps step (fun _ e => e.Within T) initial es :=
    Runs.Steps.of_forall (fun e he _ => hwithin e he) initial
  have hkept : Kept T w :=
    Runs.run_invariant (fun _ _ _ h hok hs => h.step hdistinct hT hok hs) (kept_initial T) hall hr
  exact hkept.releasesOwn

end HookWorld

end Resync
