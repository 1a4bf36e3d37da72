import Resync.ToolHookRuns

/-! The names of the lease files, which keep 160 characters of an ID and none but
letters, digits, dots, underscores and dashes. Two tool uses with one name mix up their
leases, in the order of events that is played here for each kind of collision. -/
namespace Resync

theorem GateState.activity_initial (metadata : LeaseMetadata) (fresh : String) :
    ∃ gate, GateState.initial.activity metadata fresh = some (fresh, gate) := by
  have hnone : GateState.initial.leaseOfCall metadata = none := by
    rw [GateState.leaseOfCall]
    cases leaseCall metadata <;> rfl
  rw [GateState.activity, hnone]
  exact ⟨_, rfl⟩

namespace HookWorld

/-- The daemon has just started, and the process is free. -/
structure Ready (w : HookWorld) (pid : ℕ) : Prop where
  gates : w.gates = fun _ => .initial
  process : w.processes pid = []

/-- `PreToolUse` up to its lease file. -/
def recordEvents (pid : ℕ) (u : ToolUse) (id : String) : List HookEvent :=
  [.start pid .preToolUse u.call [u.projectId], .acquire pid id (.lease true), .write pid]

/-- `PostToolUse` up to the release. -/
def releaseEvents (pid : ℕ) (u : ToolUse) : List HookEvent :=
  [.start pid .postToolUse u.call [u.projectId], .look pid, .read pid, .release pid]

/-- What the first part of `PreToolUse` does. -/
structure Records (w w' : HookWorld) (pid : ℕ) (u : ToolUse) (id : String) : Prop where
  processes : w'.processes = Function.update w.processes pid [u]
  place : w'.places u = .preMessages false
  others : ∀ v, v ≠ u → w'.places v = w.places v
  files : w'.files = Function.update w.files u.leasePath (some (.lease id))
  directories : w'.directories = u.directory :: w.directories
  granted : w'.granted = Function.update w.granted u (some id)
  released : w'.released = w.released
  failed : w'.failed = w.failed
  issued : w'.issued = id :: w.issued

variable {T : Set ToolUse} {w w' : HookWorld} {u v : ToolUse} {pid : ℕ} {id : String}

/-- The hook of the tool use has started in the process. -/
def started (w : HookWorld) (pid : ℕ) (event : ToolEvent) (u : ToolUse) : HookWorld :=
  { w with
    processes := Function.update w.processes pid [u],
    places := fun x => if x = u then event.start else w.places x }

theorem step_start {event : ToolEvent} (hprocess : w.processes pid = [])
    (hplace : (w.places u).awaits event = true) :
    w.step (.start pid event u.call [u.projectId]) = some (w.started pid event u) := by
  have hself : ToolUse.mk u.call u.projectId = u := rfl
  simp only [step, List.map_cons, List.map_nil, hself, hprocess, List.nodup_singleton,
    List.mem_singleton, forall_eq, hplace, and_true, if_true, started]
  cases event <;> rfl

theorem current_of_process {place : HookPlace} (hprocess : w.processes pid = [u])
    (hplace : w.places u = place) : w.current pid = some (u, place) := by
  rw [current, hprocess, List.head?_cons, Option.map_some, hplace]

theorem current_started (w : HookWorld) (pid : ℕ) (event : ToolEvent) (u : ToolUse) :
    (w.started pid event u).current pid = some (u, event.start) :=
  current_of_process (Function.update_self ..) (if_pos rfl)

theorem goTo_self (w : HookWorld) (u : ToolUse) (place : HookPlace) :
    (w.goTo u place).places u = place := by
  rw [goTo]
  exact Function.update_self ..

theorem goTo_of_ne {place : HookPlace} (h : v ≠ u) : (w.goTo u place).places v = w.places v := by
  rw [goTo]
  exact Function.update_of_ne h ..

theorem current_goTo {place : HookPlace} (hprocess : w.processes pid = [u]) :
    (w.goTo u place).current pid = some (u, place) :=
  current_of_process hprocess (goTo_self w u place)

/-- `PreToolUse` is granted a lease. -/
theorem step_grants (h : w.Ready pid) (hu : u.acquires = true) (hplace : w.places u = .untouched)
    (hid : id ∉ w.issued) :
    ∃ w₁ : HookWorld, Runs.run step w
        [.start pid .preToolUse u.call [u.projectId], .acquire pid id (.lease true)] = some w₁ ∧
      w₁.processes = Function.update w.processes pid [u] ∧ w₁.places u = .answered (some id) ∧
      (∀ v, v ≠ u → w₁.places v = w.places v) ∧ w₁.files = w.files ∧
      w₁.directories = w.directories ∧ w₁.granted = Function.update w.granted u (some id) ∧
      w₁.released = w.released ∧ w₁.failed = w.failed ∧ w₁.issued = id :: w.issued := by
  obtain ⟨gate, hgate⟩ := GateState.activity_initial u.metadata id
  have hawaits : (w.places u).awaits .preToolUse = true := by
    rw [hplace]
    rfl
  have hprocess : (w.started pid .preToolUse u).processes pid = [u] := Function.update_self ..
  let w₁ : HookWorld := { (w.started pid .preToolUse u).grant u id gate with
    granted := Function.update w.granted u (some id) }
  have hacquire : (w.started pid .preToolUse u).step (.acquire pid id (.lease true)) =
      some (w₁.goTo u (.answered (some id))) := by
    have hgates : (w.started pid .preToolUse u).gates u.projectId = .initial :=
      congrFun h.gates u.projectId
    have hissued : id ∉ (w.started pid .preToolUse u).issued := hid
    simp only [step, current_started, ToolEvent.start, hu, if_true, hissued, if_false, hgates,
      hgate]
    rfl
  refine ⟨w₁.goTo u (.answered (some id)), ?_, rfl, goTo_self .., fun x hx => ?_, rfl, rfl, rfl, rfl,
    rfl, rfl⟩
  · rw [Runs.run_cons, step_start h.process hawaits, Option.bind_some, Runs.run_cons, hacquire,
      Option.bind_some, Runs.run_nil]
  · have hstarted : w₁.places x = w.places x := if_neg hx
    exact (goTo_of_ne hx).trans hstarted

theorem run_records (h : w.Ready pid) (hu : u.acquires = true) (hplace : w.places u = .untouched)
    (hid : id ∉ w.issued) (hfree : w.Free pid u) :
    ∃ w', Runs.run step w (recordEvents pid u id) = some w' ∧ Records w w' pid u id := by
  obtain ⟨w₁, hr, hprocesses, hplace₁, hothers, hfiles, hdirectories, hgranted, hreleased, hfailed,
    hissued⟩ := step_grants h hu hplace hid
  let w₂ := ({ w₁ with directories := u.directory :: w₁.directories } : HookWorld).setFile
    u.leasePath (some (.lease id))
  have hwrite : w₁.step (.write pid) = some (w₂.goTo u (.preMessages false)) := by
    have hcurrent : w₁.current pid = some (u, .answered (some id)) :=
      current_of_process (by rw [hprocesses, Function.update_self]) hplace₁
    have hrecord := (hfree.congr hfiles hdirectories).record hu id
    simp only [step, hcurrent, hrecord]
    rfl
  refine ⟨w₂.goTo u (.preMessages false), ?_, hprocesses, goTo_self .., fun x hx => ?_, ?_, ?_,
    hgranted, hreleased, hfailed, hissued⟩
  · have hevents : recordEvents pid u id =
        [.start pid .preToolUse u.call [u.projectId], .acquire pid id (.lease true)] ++
          [.write pid] := rfl
    rw [hevents]
    refine (Runs.run_append_eq_some step).mpr ⟨w₁, hr, ?_⟩
    rw [Runs.run_cons, hwrite, Option.bind_some, Runs.run_nil]
  · exact (goTo_of_ne hx).trans (hothers x hx)
  · rw [← hfiles]
    rfl
  · rw [← hdirectories]
    rfl

/-- Where the lease file cannot be written, the hook ends with a lease that is nowhere. -/
theorem run_cannot_record (h : w.Ready pid) (hu : u.acquires = true)
    (hplace : w.places u = .untouched) (hid : id ∉ w.issued)
    (hrecord : ∀ w₁ : HookWorld, w₁.files = w.files → w₁.directories = w.directories →
      (w₁.record pid u (some id)).2 = false) :
    ∃ w', Runs.run step w (recordEvents pid u id) = some w' ∧
      w'.processes = Function.update w.processes pid [] ∧ w'.places u = .between ∧
      w'.files = w.files ∧ w'.granted u = some id ∧ w'.released = w.released ∧
      w'.failed = w.failed := by
  obtain ⟨w₁, hr, hprocesses, hplace₁, hothers, hfiles, hdirectories, hgranted, hreleased, hfailed,
    hissued⟩ := step_grants h hu hplace hid
  have hfails := hrecord w₁ hfiles hdirectories
  obtain ⟨w₂, hrecorded, hsame⟩ : ∃ w₂, w₁.record pid u (some id) = (w₂, false) ∧
      (w₂ = w₁ ∨ w₂ = { w₁ with directories := u.directory :: w₁.directories }) := by
    refine ⟨(w₁.record pid u (some id)).1, Prod.ext rfl hfails, ?_⟩
    unfold HookWorld.record at hfails ⊢
    cases hcreated : w₁.createDirectory u with
    | none => exact Or.inl rfl
    | some created =>
      rw [hcreated] at hfails
      dsimp only at hfails ⊢
      have hcreated' : created = { w₁ with directories := u.directory :: w₁.directories } := by
        rw [createDirectory] at hcreated
        split at hcreated
        · cases hcreated
        · exact (Option.some.inj hcreated).symm
      split at hfails
      · cases hfails
      · next hcannot =>
        rw [if_neg hcannot]
        exact Or.inr hcreated'
  have hwrite : w₁.step (.write pid) = some (w₂.leave pid u .between) := by
    have hcurrent : w₁.current pid = some (u, .answered (some id)) :=
      current_of_process (by rw [hprocesses, Function.update_self]) hplace₁
    simp only [step, hcurrent, hrecorded]
  have hrun : Runs.run step w (recordEvents pid u id) = some (w₂.leave pid u .between) := by
    have hevents : recordEvents pid u id =
        [.start pid .preToolUse u.call [u.projectId], .acquire pid id (.lease true)] ++
          [.write pid] := rfl
    rw [hevents]
    refine (Runs.run_append_eq_some step).mpr ⟨w₁, hr, ?_⟩
    rw [Runs.run_cons, hwrite, Option.bind_some, Runs.run_nil]
  have htail : Function.update w₁.processes pid (w₁.processes pid).tail =
      Function.update w.processes pid [] := by
    rw [hprocesses, Function.update_self, Function.update_idem]
    rfl
  have hgranted' : w₁.granted u = some id := by rw [hgranted, Function.update_self]
  rcases hsame with rfl | rfl
  · exact ⟨_, hrun, htail, goTo_self .., hfiles, hgranted', hreleased, hfailed⟩
  · exact ⟨_, hrun, htail, goTo_self .., hfiles, hgranted', hreleased, hfailed⟩

/-- `PreToolUse` ends outside reconciliation mode, and a marker is removed. -/
theorem run_messages (hprocess : w.processes pid = [u]) (hplace : w.places u = .preMessages false)
    (hmarker : u.reconciliationMarker ∉ w.directories) :
    Runs.run step w [.messages pid] =
      some ((w.setFile u.reconciliationMarker none).leave pid u .between) := by
  have hcurrent := current_of_process hprocess hplace
  have hnone : w.directories.contains u.reconciliationMarker = false := by
    rw [List.contains_eq_mem, decide_eq_false_iff_not]
    exact hmarker
  simp only [Runs.run_cons, step, hcurrent, setMarker, hnone, Bool.false_eq_true, if_false,
    Option.bind_some, Runs.run_nil]

/-- A `PostToolUse` releases the lease in the file that it finds first. -/
theorem run_releases {path : List String} (hprocess : w.processes pid = [])
    (hplace : (w.places u).awaits .postToolUse = true) (hlooks : u.looks = true)
    (hpath : path = u.leasePath ∨ w.pathExists u.leasePath = false ∧ path = u.legacyLeasePath)
    (hfile : w.files path = some (.lease id)) :
    ∃ w', Runs.run step w (releaseEvents pid u) = some w' ∧
      w'.released u = id :: w.released u ∧ w'.granted = w.granted := by
  let w₁ := w.started pid .postToolUse u
  have hself : w₁.processes pid = [u] := Function.update_self ..
  have hlook : w₁.step (.look pid) = some (w₁.goTo u (.found path)) := by
    have hcurrent : w₁.current pid = some (u, .postStarted) := current_started w pid .postToolUse u
    simp only [step, hcurrent, hlooks, if_true]
    have hexists : w₁.pathExists path = true := by
      have hfile' : w₁.files path = some (.lease id) := hfile
      rw [pathExists, hfile']
      rfl
    rcases hpath with rfl | ⟨hnone, rfl⟩
    · rw [if_pos hexists]
    · have hnone' : w₁.pathExists u.leasePath = false := hnone
      rw [hnone', if_neg Bool.false_ne_true, if_pos hexists]
  have hread : (w₁.goTo u (.found path)).step (.read pid) =
      some ((w₁.goTo u (.found path)).goTo u (.opened path id)) := by
    have hcurrent : (w₁.goTo u (.found path)).current pid = some (u, .found path) :=
      current_goTo hself
    have hfile' : (w₁.goTo u (.found path)).files path = some (.lease id) := hfile
    simp only [step, hcurrent, hfile']
  let w₂ := (w₁.goTo u (.found path)).goTo u (.opened path id)
  have hrelease : w₂.step (.release pid) =
      some ((w₂.releaseAccess u id).goTo u (.released path)) := by
    have hcurrent : w₂.current pid = some (u, .opened path id) := current_goTo hself
    simp only [step, hcurrent]
  have hreleased : (w₂.releaseAccess u id).released u = id :: w.released u := by
    rw [releaseAccess]
    exact Function.update_self ..
  refine ⟨(w₂.releaseAccess u id).goTo u (.released path), ?_, hreleased, rfl⟩
  rw [releaseEvents, Runs.run_cons, step_start hprocess hplace, Option.bind_some, Runs.run_cons,
    hlook, Option.bind_some, Runs.run_cons, hread, Option.bind_some, Runs.run_cons, hrelease,
    Option.bind_some, Runs.run_nil]

/-- A file that is a directory is found, and not read. -/
theorem run_read_directory {path : List String} (hprocess : w.processes pid = [u])
    (hplace : w.places u = .found path) (hnofile : w.files path = none)
    (hdirectory : path ∈ w.directories) : w.step (.read pid) = some (w.leave pid u .ended) := by
  have hcurrent := current_of_process hprocess hplace
  have hcontains : w.directories.contains path = true := by
    rw [List.contains_eq_mem, decide_eq_true_eq]
    exact hdirectory
  simp only [step, hcurrent, hnofile, hcontains, if_true]

/-- A `PostToolUse` that finds no file, or that does not look for one, ends without a
release. -/
theorem run_misses (hprocess : w.processes pid = [])
    (hplace : (w.places u).awaits .postToolUse = true)
    (hfiles : u.looks = true → w.files u.leasePath = none ∧ w.files u.legacyLeasePath = none) :
    ∃ es : List HookEvent, (∀ T, ∀ e ∈ es, e.Within T) ∧ ∃ w',
      Runs.run step w (.start pid .postToolUse u.call [u.projectId] :: es) = some w' ∧
      w'.places u = .ended ∧ w'.released = w.released ∧ w'.granted = w.granted ∧
      w'.failed = w.failed := by
  let w₁ := w.started pid .postToolUse u
  have hcurrent : w₁.current pid = some (u, .postStarted) := current_started w pid .postToolUse u
  have hself : w₁.processes pid = [u] := Function.update_self ..
  -- one event ends the hook
  have hone : ∀ e : HookEvent, (∀ T, e.Within T) → w₁.step e = some (w₁.leave pid u .ended) →
      ∃ es : List HookEvent, (∀ T, ∀ e ∈ es, HookEvent.Within T e) ∧
        ∃ w', Runs.run step w₁ es = some w' ∧ w'.places u = .ended ∧ w'.released = w.released ∧
          w'.granted = w.granted ∧ w'.failed = w.failed := by
    intro e hwithin he
    refine ⟨[e], fun T x hx => ?_, w₁.leave pid u .ended, ?_, goTo_self .., rfl, rfl, rfl⟩
    · exact List.mem_singleton.mp hx ▸ hwithin T
    · rw [Runs.run_cons, he, Option.bind_some, Runs.run_nil]
  -- or it takes a directory for the file
  have htwo : ∀ path, w₁.step (.look pid) = some (w₁.goTo u (.found path)) →
      w.files path = none → path ∈ w.directories →
      ∃ es : List HookEvent, (∀ T, ∀ e ∈ es, HookEvent.Within T e) ∧
        ∃ w', Runs.run step w₁ es = some w' ∧ w'.places u = .ended ∧ w'.released = w.released ∧
          w'.granted = w.granted ∧ w'.failed = w.failed := by
    intro path hlook hnofile hdirectory
    have hread : (w₁.goTo u (.found path)).step (.read pid) =
        some ((w₁.goTo u (.found path)).leave pid u .ended) :=
      run_read_directory hself (goTo_self ..) hnofile hdirectory
    refine ⟨[.look pid, .read pid], fun T e he => ?_, (w₁.goTo u (.found path)).leave pid u .ended,
      ?_, goTo_self .., rfl, rfl, rfl⟩
    · simp only [List.mem_cons, List.not_mem_nil, or_false] at he
      rcases he with rfl | rfl
      · trivial
      · trivial
    · rw [Runs.run_cons, hlook, Option.bind_some, Runs.run_cons, hread, Option.bind_some,
        Runs.run_nil]
  have hends : ∃ es : List HookEvent, (∀ T, ∀ e ∈ es, HookEvent.Within T e) ∧
      ∃ w', Runs.run step w₁ es = some w' ∧ w'.places u = .ended ∧ w'.released = w.released ∧
        w'.granted = w.granted ∧ w'.failed = w.failed := by
    cases hlooks : u.looks with
    | false =>
      apply hone (.accessState pid none) fun _ => trivial
      simp only [step, hcurrent, hlooks, Bool.false_eq_true, if_false]
    | true =>
      obtain ⟨hnone, hlegacy⟩ := hfiles hlooks
      have hstep : w₁.step (.look pid) = if w.pathExists u.leasePath then
            some (w₁.goTo u (.found u.leasePath))
          else if w.pathExists u.legacyLeasePath then
            some (w₁.goTo u (.found u.legacyLeasePath))
          else some (w₁.leave pid u .ended) := by
        simp only [step, hcurrent, hlooks, if_true]
        rfl
      have hdirectory : ∀ {path : List String}, w.pathExists path = true → w.files path = none →
          path ∈ w.directories := by
        intro path hexists hnofile
        by_contra hnot
        rw [pathExists_eq_false.mpr ⟨hnofile, hnot⟩] at hexists
        cases hexists
      split at hstep
      · next hexists => exact htwo _ hstep hnone (hdirectory hexists hnone)
      · split at hstep
        · next hexists => exact htwo _ hstep hlegacy (hdirectory hexists hlegacy)
        · exact hone (.look pid) (fun _ => trivial) hstep
  obtain ⟨es, hwithin, w', hr, hended⟩ := hends
  refine ⟨es, hwithin, w', ?_, hended⟩
  rw [Runs.run_cons, step_start hprocess hplace, Option.bind_some]
  exact hr

/-- What a `PreToolUse` outside reconciliation mode leaves. -/
structure Clears (w w' : HookWorld) (pid : ℕ) (v : ToolUse) : Prop where
  processes : ∀ p, p ≠ pid → w'.processes p = w.processes p
  places : ∀ x, x ≠ v → w'.places x = w.places x
  granted : ∀ x, x ≠ v → w'.granted x = w.granted x
  released : w'.released = w.released
  failed : w'.failed = w.failed
  marker : w'.files v.reconciliationMarker = none
  files : ∀ path, (v.acquires = true → path ≠ v.leasePath) → w.files path = none →
    w'.files path = none

theorem run_clears (h : w.Ready pid) (hplace : w.places v = .untouched) (hid : id ∉ w.issued)
    (hpid : pid ≤ pidMax) (hfree : w.Free pid v)
    (hmarker : v.reconciliationMarker ∉ v.directory :: w.directories) :
    ∃ es, (∀ T, v ∈ T → ∀ e ∈ es, e.Within T) ∧ ∃ w', Runs.run step w es = some w' ∧
      Clears w w' pid v := by
  have hwithin : ∀ T : Set ToolUse, v ∈ T → HookEvent.Within T
      (.start pid .preToolUse v.call [v.projectId]) := by
    refine fun T hv => ⟨hpid, fun p hp => ?_⟩
    obtain rfl := List.mem_singleton.mp hp
    exact hv
  -- the end of both cases
  have hleave : ∀ w₁ : HookWorld, w₁.processes pid = [v] → w₁.places v = .preMessages false →
      w₁.directories = v.directory :: w.directories →
      (∀ p, p ≠ pid → w₁.processes p = w.processes p) →
      (∀ x, x ≠ v → w₁.places x = w.places x) → (∀ x, x ≠ v → w₁.granted x = w.granted x) →
      w₁.released = w.released → w₁.failed = w.failed →
      (∀ path, (v.acquires = true → path ≠ v.leasePath) → w.files path = none →
        w₁.files path = none) →
      ∃ w', Runs.run step w₁ [.messages pid] = some w' ∧ Clears w w' pid v := by
    intro w₁ hprocess hplace' hdirectories hprocesses hplaces hgranted hreleased hfailed hfiles
    refine ⟨_, run_messages hprocess hplace' (hdirectories ▸ hmarker), ?_, fun x hx => ?_,
      hgranted, hreleased, hfailed, ?_, fun path hpath hnone => ?_⟩
    · intro p hp
      exact (Function.update_of_ne hp ..).trans (hprocesses p hp)
    · exact (goTo_of_ne hx).trans (hplaces x hx)
    · rw [files_leave, files_setFile]
    · rw [files_leave]
      by_cases hown : path = v.reconciliationMarker
      · rw [hown, files_setFile]
      · rw [files_setFile_of_ne w₁ none hown]
        exact hfiles path hpath hnone
  cases hacquires : v.acquires with
  | true =>
    obtain ⟨w₁, hr, hrecords⟩ := run_records h hacquires hplace hid hfree
    obtain ⟨w', hr', hclears⟩ := hleave w₁ (by rw [hrecords.processes, Function.update_self])
      hrecords.place hrecords.directories
      (fun p hp => by rw [hrecords.processes, Function.update_of_ne hp])
      hrecords.others (fun x hx => by rw [hrecords.granted, Function.update_of_ne hx])
      hrecords.released hrecords.failed fun path hpath hnone => by
        rw [hrecords.files, Function.update_of_ne (hpath hacquires)]
        exact hnone
    refine ⟨recordEvents pid v id ++ [.messages pid], fun T hv e he => ?_, w', ?_, hclears⟩
    · rcases List.mem_append.mp he with he | he
      · simp only [recordEvents, List.mem_cons, List.not_mem_nil, or_false] at he
        rcases he with rfl | rfl | rfl
        · exact hwithin T hv
        · trivial
        · trivial
      · obtain rfl := List.mem_singleton.mp he
        trivial
    · exact (Runs.run_append_eq_some step).mpr ⟨w₁, hr, hr'⟩
  | false =>
    have hawaits : (w.places v).awaits .preToolUse = true := by
      rw [hplace]
      rfl
    let w₁ := w.started pid .preToolUse v
    have hself : w₁.processes pid = [v] := Function.update_self ..
    let w₂ : HookWorld := { w₁ with directories := v.directory :: w₁.directories }
    have hstate : w₁.step (.accessState pid (some false)) =
        some (w₂.goTo v (.preMessages false)) := by
      have hcurrent : w₁.current pid = some (v, .preStarted) :=
        current_started w pid .preToolUse v
      have hfree₁ : w₁.Free pid v := hfree.congr rfl rfl
      simp only [step, hcurrent, hacquires, Bool.false_eq_true, if_false, hfree₁.record_none]
      rfl
    obtain ⟨w', hr', hclears⟩ := hleave (w₂.goTo v (.preMessages false)) hself (goTo_self ..) rfl
      (fun p hp => Function.update_of_ne hp ..)
      (fun x hx => (goTo_of_ne hx).trans (if_neg hx)) (fun _ _ => rfl) rfl rfl
      fun _ _ hnone => hnone
    refine ⟨[.start pid .preToolUse v.call [v.projectId], .accessState pid (some false),
      .messages pid], fun T hv e he => ?_, w', ?_, hclears⟩
    · simp only [List.mem_cons, List.not_mem_nil, or_false] at he
      rcases he with rfl | rfl | rfl
      · exact hwithin T hv
      · trivial
      · trivial
    · rw [Runs.run_cons, step_start h.process hawaits, Option.bind_some, Runs.run_cons, hstate,
        Option.bind_some]
      exact hr'

theorem recordEvents_within (hu : u ∈ T) (hpid : pid ≤ pidMax) :
    ∀ e ∈ recordEvents pid u id, e.Within T := by
  intro e he
  simp only [recordEvents, List.mem_cons, List.not_mem_nil, or_false] at he
  rcases he with rfl | rfl | rfl
  · refine ⟨hpid, fun p hp => ?_⟩
    obtain rfl := List.mem_singleton.mp hp
    exact hu
  · trivial
  · trivial

/-- All runs of the tool uses are right. -/
def AllReleaseOwn (T : Set ToolUse) : Prop :=
  ∀ es w, (∀ e ∈ es, e.Within T) → Runs.run step initial es = some w → w.ReleasesOwn T

theorem ready_initial (pid : ℕ) : initial.Ready pid := ⟨rfl, rfl⟩

/-- Alone a hook can write its lease file, if the name is short enough. -/
theorem free_initial (hfits : u.acquires = true → (u.temporaryName pid).length ≤ nameMax) :
    initial.Free pid u := by
  refine ⟨rfl, fun hacquires => canWrite_iff.mpr ⟨hfits hacquires, ?_, ?_⟩⟩
  · exact List.mem_singleton.not.mpr (u.directory_ne _)
  · exact List.mem_singleton.not.mpr (u.directory_ne _)

/-- A `PostToolUse` does not miss a lease that was granted. -/
theorem AllReleaseOwn.no_miss (h : AllReleaseOwn T) {es : List HookEvent}
    (hwithin : ∀ e ∈ es, e.Within T) (hr : Runs.run step initial es = some w) (hu : u ∈ T)
    (hpid : pid ≤ pidMax) (hprocess : w.processes pid = []) (hplace : w.places u = .between)
    (hgranted : w.granted u = some id) (hreleased : w.released u = []) (hfailed : u ∉ w.failed) :
    ¬ (u.looks = true → w.files u.leasePath = none ∧ w.files u.legacyLeasePath = none) := by
  intro hfiles
  have hawaits : (w.places u).awaits .postToolUse = true := by
    rw [hplace]
    rfl
  obtain ⟨fs, hfs, w', hr', hended, hsame, hgranted', hfailed'⟩ :=
    run_misses hprocess hawaits hfiles
  have hown := h (es ++ .start pid .postToolUse u.call [u.projectId] :: fs) w' ?_
    ((Runs.run_append_eq_some step).mpr ⟨w, hr, hr'⟩)
  · have hall := hown.all u hu hended (hfailed' ▸ hfailed)
    rw [hsame, hreleased, hgranted', hgranted] at hall
    cases hall
  · intro x hx
    rcases List.mem_append.mp hx with hx | hx
    · exact hwithin x hx
    · rcases List.mem_cons.mp hx with rfl | hx
      · refine ⟨hpid, fun p hp => ?_⟩
        obtain rfl := List.mem_singleton.mp hp
        exact hu
      · exact hfs T x hx

/-- Wherever the runs of the tool uses have come, the lease file of another one can be written. -/
theorem AllReleaseOwn.records (h : AllReleaseOwn T) {es : List HookEvent}
    (hwithin : ∀ e ∈ es, e.Within T) (hr : Runs.run step initial es = some w) (hu : u ∈ T)
    (hacquires : u.acquires = true) (hpid : pid ≤ pidMax) (hready : w.Ready pid)
    (hplace : w.places u = .untouched) (hid : id ∉ w.issued) (hreleased : w.released u = [])
    (hfailed : u ∉ w.failed) (hnofile : w.files u.leasePath = none)
    (hnolegacy : w.files u.legacyLeasePath = none) :
    ¬ ∀ w₁ : HookWorld, w₁.files = w.files → w₁.directories = w.directories →
      (w₁.record pid u (some id)).2 = false := by
  intro hrecord
  obtain ⟨w', hr', hprocesses, hplace', hfiles, hgranted, hsame, hfailed'⟩ :=
    run_cannot_record hready hacquires hplace hid hrecord
  have hprocess : w'.processes pid = [] := by rw [hprocesses, Function.update_self]
  refine h.no_miss (fun e he => ?_) ((Runs.run_append_eq_some step).mpr ⟨w, hr, hr'⟩) hu hpid
    hprocess hplace' hgranted ((congrFun hsame u).trans hreleased) (hfailed' ▸ hfailed)
    fun _ => ⟨hfiles ▸ hnofile, hfiles ▸ hnolegacy⟩
  rcases List.mem_append.mp he with he | he
  · exact hwithin e he
  · exact recordEvents_within hu hpid e he

/-- A file that cannot be written is not recorded. -/
theorem record_of_cannot {id : String}
    (h : ¬ ({ w with directories := u.directory :: w.directories } : HookWorld).canWrite u pid =
      true) : (w.record pid u (some id)).2 = false := by
  unfold HookWorld.record
  cases hcreated : w.createDirectory u with
  | none => rfl
  | some created =>
    rw [createDirectory] at hcreated
    split at hcreated
    · cases hcreated
    · obtain rfl := Option.some.inj hcreated
      dsimp only
      rw [if_neg h]

/-- The name of a lease file is short enough. -/
theorem AllReleaseOwn.fits (h : AllReleaseOwn T) (hu : u ∈ T) (hacquires : u.acquires = true)
    (hpid : pid ≤ pidMax) : (u.temporaryName pid).length ≤ nameMax := by
  by_contra hlong
  have hnone : ∀ e ∈ ([] : List HookEvent), e.Within T := fun e he => by cases he
  exact h.records hnone (Runs.run_nil step initial) hu hacquires hpid (ready_initial pid) rfl
    (List.not_mem_nil : "lease" ∉ initial.issued) rfl List.not_mem_nil rfl rfl
    fun w₁ _ _ => record_of_cannot fun hwrite => hlong (canWrite_iff.mp hwrite).1

/-- A `PreToolUse` has created its directory, in reconciliation mode. -/
theorem run_creates (hv : v ∈ T) (hpid : pid ≤ pidMax) :
    ∃ es w, (∀ e ∈ es, HookEvent.Within T e) ∧ Runs.run step initial es = some w ∧
      w.processes = Function.update (fun _ => []) pid [v] ∧ w.places v = .preMessages true ∧
      (∀ x, x ≠ v → w.places x = .untouched) ∧ (w.gates = fun _ => .initial) ∧
      (w.files = fun _ => none) ∧ w.directories = [v.directory] ∧ w.issued = [] ∧
      (w.released = fun _ => []) ∧ w.failed = [] := by
  have hwithin : HookEvent.Within T (.start pid .preToolUse v.call [v.projectId]) := by
    refine ⟨hpid, fun p hp => ?_⟩
    obtain rfl := List.mem_singleton.mp hp
    exact hv
  let w₁ := initial.started pid .preToolUse v
  have hself : w₁.processes pid = [v] := Function.update_self ..
  have hstart : Runs.run step initial [.start pid .preToolUse v.call [v.projectId]] = some w₁ := by
    rw [Runs.run_cons, step_start rfl rfl, Option.bind_some, Runs.run_nil]
  have hcurrent : w₁.current pid = some (v, .preStarted) := current_started initial pid _ v
  have huntouched : ∀ x, x ≠ v → w₁.places x = .untouched := fun x hx => if_neg hx
  cases hacquires : v.acquires with
  | false =>
    let w₂ : HookWorld := { w₁ with directories := [v.directory] }
    have hstate : w₁.step (.accessState pid (some true)) = some (w₂.goTo v (.preMessages true)) := by
      have hrecord : w₁.record pid v none = (w₂, true) := rfl
      simp only [step, hcurrent, hacquires, Bool.false_eq_true, if_false, hrecord]
    refine ⟨[.start pid .preToolUse v.call [v.projectId]] ++ [.accessState pid (some true)],
      w₂.goTo v (.preMessages true), fun e he => ?_,
      (Runs.run_append_eq_some step).mpr ⟨w₁, hstart, ?_⟩, rfl, goTo_self ..,
      fun x hx => (goTo_of_ne hx).trans (huntouched x hx), rfl, rfl, rfl, rfl, rfl, rfl⟩
    · rcases List.mem_append.mp he with he | he
      · exact List.mem_singleton.mp he ▸ hwithin
      · exact List.mem_singleton.mp he ▸ trivial
    · rw [Runs.run_cons, hstate, Option.bind_some, Runs.run_nil]
  | true =>
    let w₂ := w₁.goTo v (.answered none)
    let w₃ : HookWorld := { w₂ with directories := [v.directory] }
    have hacquire : w₁.step (.acquire pid "" .reconciling) = some w₂ := by
      simp only [step, hcurrent, hacquires, if_true]
      rfl
    have hwrite : w₂.step (.write pid) = some (w₃.goTo v (.preMessages true)) := by
      have hcurrent₂ : w₂.current pid = some (v, .answered none) := current_goTo hself
      have hrecord : w₂.record pid v none = (w₃, true) := rfl
      simp only [step, hcurrent₂, hrecord]
      rfl
    have hplaces : ∀ x, x ≠ v → w₂.places x = w₁.places x := fun x hx => goTo_of_ne hx
    refine ⟨[.start pid .preToolUse v.call [v.projectId]] ++
        [.acquire pid "" .reconciling, .write pid], w₃.goTo v (.preMessages true), fun e he => ?_,
      (Runs.run_append_eq_some step).mpr ⟨w₁, hstart, ?_⟩, rfl, goTo_self ..,
      fun x hx => ((goTo_of_ne hx).trans (hplaces x hx)).trans (huntouched x hx), rfl, rfl, rfl,
      rfl, rfl, rfl⟩
    · rcases List.mem_append.mp he with he | he
      · exact List.mem_singleton.mp he ▸ hwithin
      · simp only [List.mem_cons, List.not_mem_nil, or_false] at he
        rcases he with rfl | rfl
        · trivial
        · trivial
    · rw [Runs.run_cons, hacquire, Option.bind_some, Runs.run_cons, hwrite, Option.bind_some,
        Runs.run_nil]

/-- No directory has the name of a lease file, or of the file that becomes one. -/
theorem AllReleaseOwn.directory (h : AllReleaseOwn T) (hu : u ∈ T) (hv : v ∈ T)
    (hacquires : u.acquires = true) (hpid : pid ≤ pidMax) :
    v.directory ≠ u.leasePath ∧ v.directory ≠ u.temporaryPath pid := by
  rw [← not_or]
  intro hsame
  have hne : u ≠ v := by
    rintro rfl
    rcases hsame with hsame | hsame
    · exact u.directory_ne _ hsame.symm
    · exact u.directory_ne _ hsame.symm
  -- another process creates the directory
  obtain ⟨other, hother, hpidne⟩ : ∃ other, other ≤ pidMax ∧ pid ≠ other := by
    by_cases hzero : pid = 0
    · exact ⟨1, by decide, by omega⟩
    · exact ⟨0, by decide, hzero⟩
  obtain ⟨es, w, hwithin, hr, hprocesses, -, huntouched, hgates, hfiles, hdirectories, hissued,
    hreleased, hfailed⟩ := run_creates hv hother
  have hprocess : w.processes pid = [] := by rw [hprocesses, Function.update_of_ne hpidne]
  refine h.records hwithin hr hu hacquires hpid ⟨hgates, hprocess⟩ (huntouched u hne)
    (by rw [hissued]; exact (List.not_mem_nil : "lease" ∉ [])) (congrFun hreleased u)
    (by rw [hfailed]; exact List.not_mem_nil) (congrFun hfiles _) (congrFun hfiles _)
    fun w₁ _ hsame₁ => record_of_cannot fun hwrite => ?_
  obtain ⟨-, htemporary, hlease⟩ := canWrite_iff.mp hwrite
  have hmem : v.directory ∈ u.directory :: w₁.directories := by
    rw [hsame₁, hdirectories]
    exact List.mem_cons_of_mem _ List.mem_cons_self
  rcases hsame with hsame | hsame
  · exact hlease (hsame ▸ hmem)
  · exact htemporary (hsame ▸ hmem)

/-- No marker has the name of the directory of a lease file. -/
theorem AllReleaseOwn.markerDirectory (h : AllReleaseOwn T) (hu : u ∈ T) (hv : v ∈ T)
    (hacquires : u.acquires = true) : v.reconciliationMarker ≠ u.directory := by
  intro hsame
  have hne : u ≠ v := by
    rintro rfl
    exact u.directory_ne _ hsame
  have hzero : 0 ≤ pidMax := Nat.zero_le _
  obtain ⟨es, w, hwithin, hr, hprocesses, hplace, huntouched, hgates, hfiles, hdirectories,
    hissued, hreleased, hfailed⟩ := run_creates hv hzero
  let w₁ := (w.setFile v.reconciliationMarker (some .marker)).leave 0 v .between
  have hmessages : Runs.run step w [.messages 0] = some w₁ := by
    have hcurrent : w.current 0 = some (v, .preMessages true) :=
      current_of_process (by rw [hprocesses, Function.update_self]) hplace
    have hnodirectory : w.directories.contains v.reconciliationMarker = false := by
      rw [hdirectories, List.contains_eq_mem, decide_eq_false_iff_not, List.mem_singleton]
      exact v.directory_ne _
    have hnofile : (w.files v.reconciliationMarker).isSome = false := by
      rw [hfiles]
      rfl
    simp only [Runs.run_cons, step, hcurrent, setMarker, hnodirectory, hnofile, if_true,
      Bool.false_eq_true, if_false, Option.bind_some, Runs.run_nil]
    rfl
  have hprocess : w₁.processes 0 = [] := by
    change Function.update w.processes 0 (w.processes 0).tail 0 = []
    rw [Function.update_self, hprocesses, Function.update_self]
    rfl
  have hfile : ∀ name, w₁.files (u.directory ++ [name]) = none := by
    intro name
    rw [files_leave, files_setFile_of_ne _ _ (hsame ▸ u.directory_ne name), hfiles]
  have hfresh : "lease" ∉ w₁.issued := by
    change "lease" ∉ w.issued
    rw [hissued]
    exact List.not_mem_nil
  refine h.records (fun e he => ?_) ((Runs.run_append_eq_some step).mpr ⟨w, hr, hmessages⟩) hu
    hacquires hzero ⟨hgates, hprocess⟩ ((goTo_of_ne hne).trans (huntouched u hne)) hfresh
    (congrFun hreleased u) (by change u ∉ w.failed; rw [hfailed]; exact List.not_mem_nil)
    (hfile _) (hfile _) fun w₂ hsame₂ _ => ?_
  · rcases List.mem_append.mp he with he | he
    · exact hwithin e he
    · exact List.mem_singleton.mp he ▸ trivial
  · have hmarker : (w₂.files u.directory).isSome = true := by
      rw [hsame₂, files_leave, ← hsame, files_setFile]
      rfl
    unfold HookWorld.record
    rw [createDirectory, if_pos hmarker]

/-- Where another tool use looks, there is no lease file. -/
theorem AllReleaseOwn.no_collision (h : AllReleaseOwn T) (hu : u ∈ T) (hv : v ∈ T) (hne : u ≠ v)
    (hacquires : u.acquires = true) (hlooks : v.looks = true) {path : List String}
    (hpath : path = v.leasePath ∨ v.leasePath ≠ u.leasePath ∧ path = v.legacyLeasePath) :
    path ≠ u.leasePath := by
  intro hsame
  have hzero : 0 ≤ pidMax := Nat.zero_le _
  obtain ⟨w₁, hr, hrecords⟩ := run_records (ready_initial 0) hacquires rfl
    (List.not_mem_nil : "lease" ∉ initial.issued)
    (free_initial fun _ => h.fits hu hacquires hzero)
  have hprocess : w₁.processes 1 = [] := by
    rw [hrecords.processes]
    rfl
  have hplace : (w₁.places v).awaits .postToolUse = true := by
    rw [hrecords.others v hne.symm]
    rfl
  have hpath' : path = v.leasePath ∨
      w₁.pathExists v.leasePath = false ∧ path = v.legacyLeasePath := by
    refine hpath.imp (fun hown => hown) fun ⟨hother, hlegacy⟩ => ⟨?_, hlegacy⟩
    -- both files are in one directory
    have hboth : v.legacyLeasePath = u.leasePath := hlegacy.symm.trans hsame
    rw [ToolUse.legacyLeasePath, ToolUse.leasePath] at hboth
    have hdirectory : v.directory = u.directory :=
      List.append_inj_left' hboth (by rw [List.length_singleton, List.length_singleton])
    refine pathExists_eq_false.mpr ⟨?_, ?_⟩
    · rw [hrecords.files, Function.update_of_ne hother]
      rfl
    · rw [hrecords.directories, ← hdirectory]
      exact List.mem_singleton.not.mpr (v.directory_ne _)
  have hfile : w₁.files path = some (.lease "lease") := by
    rw [hrecords.files, hsame, Function.update_self]
  obtain ⟨w₂, hr', hreleased, hgranted⟩ := run_releases hprocess hplace hlooks hpath' hfile
  have hown := h (recordEvents 0 u "lease" ++ releaseEvents 1 v) w₂ ?_
    ((Runs.run_append_eq_some step).mpr ⟨w₁, hr, hr'⟩)
  · -- the lease was granted to `u`, and `v` has released it
    have hv' : w₂.granted v = some "lease" :=
      hown.own v hv "lease" (hreleased ▸ List.mem_cons_self)
    rw [hgranted, hrecords.granted, Function.update_of_ne hne.symm] at hv'
    cases hv'
  · intro e he
    rcases List.mem_append.mp he with he | he
    · exact recordEvents_within hu hzero e he
    · simp only [releaseEvents, List.mem_cons, List.not_mem_nil, or_false] at he
      rcases he with rfl | rfl | rfl | rfl
      · refine ⟨by decide, fun p hp => ?_⟩
        obtain rfl := List.mem_singleton.mp hp
        exact hv
      · trivial
      · trivial
      · trivial

/-- The `PreToolUse` of the tool use has run alone. -/
theorem run_grants (hu : u ∈ T) (hacquires : u.acquires = true)
    (hfits : (u.temporaryName 0).length ≤ nameMax) :
    ∃ es w, (∀ e ∈ es, HookEvent.Within T e) ∧ Runs.run step initial es = some w ∧
      w.processes = (fun _ => []) ∧ w.places u = .between ∧
      (∀ v, v ≠ u → w.places v = .untouched) ∧ w.granted u = some "lease" ∧
      (w.released = fun _ => []) ∧ w.failed = [] ∧ w.issued = ["lease"] ∧
      w.directories = [u.directory] ∧ w.files u.reconciliationMarker = none ∧
      ∀ path, path ≠ u.leasePath → w.files path = none := by
  obtain ⟨w₁, hr, hrecords⟩ := run_records (ready_initial 0) hacquires rfl
    (List.not_mem_nil : "lease" ∉ initial.issued) (free_initial fun _ => hfits)
  have hprocess : w₁.processes 0 = [u] := by rw [hrecords.processes, Function.update_self]
  have hnomarker : u.reconciliationMarker ∉ w₁.directories := by
    rw [hrecords.directories]
    exact List.mem_singleton.not.mpr (u.directory_ne _)
  refine ⟨recordEvents 0 u "lease" ++ [.messages 0],
    (w₁.setFile u.reconciliationMarker none).leave 0 u .between, fun e he => ?_,
    (Runs.run_append_eq_some step).mpr ⟨w₁, hr, run_messages hprocess hrecords.place hnomarker⟩,
    ?_, goTo_self .., fun v hv => ?_, ?_, hrecords.released, hrecords.failed, hrecords.issued,
    hrecords.directories, (files_leave ..).trans (files_setFile ..), fun path hpath => ?_⟩
  · rcases List.mem_append.mp he with he | he
    · exact recordEvents_within hu (Nat.zero_le _) e he
    · obtain rfl := List.mem_singleton.mp he
      trivial
  · change Function.update w₁.processes 0 (w₁.processes 0).tail = fun _ => []
    rw [hprocess, hrecords.processes, Function.update_idem]
    exact Function.update_eq_self ..
  · exact (goTo_of_ne hv).trans (hrecords.others v hv)
  · change w₁.granted u = some "lease"
    rw [hrecords.granted, Function.update_self]
  · rw [files_leave]
    by_cases hmarker : path = u.reconciliationMarker
    · rw [hmarker, files_setFile]
    · rw [files_setFile_of_ne w₁ none hmarker, hrecords.files, Function.update_of_ne hpath]
      rfl

/-- No marker is at a lease file: the hook that removes it would remove the lease. -/
theorem AllReleaseOwn.no_marker (h : AllReleaseOwn T)
    (hlegacy : ∀ v ∈ T, v ≠ u → v.acquires = true → u.legacyLeasePath ≠ v.leasePath)
    (hu : u ∈ T) (hv : v ∈ T) (hacquires : u.acquires = true) :
    v.reconciliationMarker ≠ u.leasePath := by
  intro hmarker
  have hzero : 0 ≤ pidMax := Nat.zero_le _
  have hone : 1 ≤ pidMax := by decide
  obtain ⟨es₁, w₁, hwithin₁, hr₁, hprocesses, hplace, hothers, hgranted, hreleased, hfailed,
    hissued, hdirectories, hcleared, hfiles⟩ := run_grants hu hacquires (h.fits hu hacquires hzero)
  have hlegacy₁ : w₁.files u.legacyLeasePath = none := hfiles _ u.leasePath_ne_legacy.symm
  by_cases hvu : v = u
  · -- its own `PreToolUse` removes the file
    subst hvu
    rw [hmarker] at hcleared
    exact h.no_miss hwithin₁ hr₁ hu hone (congrFun hprocesses 1) hplace hgranted
      (congrFun hreleased v) (by rw [hfailed]; exact List.not_mem_nil)
      fun _ => ⟨hcleared, hlegacy₁⟩
  · let w₂ : HookWorld := { w₁ with gates := fun _ => .initial }
    have hready : w₂.Ready 1 := ⟨rfl, congrFun hprocesses 1⟩
    have hfresh : "other" ∉ w₂.issued := by
      change "other" ∉ w₁.issued
      rw [hissued]
      decide
    have hnew : ∀ path, path ≠ v.directory → path ≠ u.directory →
        path ∉ v.directory :: w₂.directories := by
      intro path hown hother hmem
      change path ∈ v.directory :: w₁.directories at hmem
      rw [hdirectories] at hmem
      rcases List.mem_cons.mp hmem with hmem | hmem
      · exact hown hmem
      · exact hother (List.mem_singleton.mp hmem)
    have hfree : w₂.Free 1 v := by
      refine ⟨hfiles _ (h.directory hu hv hacquires hone).1, fun hv' => canWrite_iff.mpr
        ⟨h.fits hv hv' hone, ?_, ?_⟩⟩
      · exact hnew _ (v.directory_ne _) (h.directory hv hu hv' hone).2.symm
      · exact hnew _ (v.directory_ne _) (h.directory hv hu hv' hone).1.symm
    have hfree' : v.reconciliationMarker ∉ v.directory :: w₂.directories :=
      hnew _ (v.directory_ne _) (h.markerDirectory hu hv hacquires)
    obtain ⟨es₂, hwithin₂, w₃, hr₂, hclears⟩ :=
      run_clears hready (hothers v hvu) hfresh hone hfree hfree'
    have hr₃ : Runs.run step initial (es₁ ++ .restart :: es₂) = some w₃ := by
      refine (Runs.run_append_eq_some step).mpr ⟨w₁, hr₁, ?_⟩
      exact (Runs.run_cons_eq_some step).mpr ⟨w₂, rfl, hr₂⟩
    have hne : u ≠ v := Ne.symm hvu
    have hprocess₃ : w₃.processes 0 = [] :=
      (hclears.processes 0 Nat.zero_ne_one).trans (congrFun hprocesses 0)
    have hgranted₃ : w₃.granted u = some "lease" := (hclears.granted u hne).trans hgranted
    refine h.no_miss ?_ hr₃ hu hzero hprocess₃ ?_ hgranted₃ ?_ ?_ fun _ => ⟨?_, ?_⟩
    · intro e he
      rcases List.mem_append.mp he with he | he
      · exact hwithin₁ e he
      · rcases List.mem_cons.mp he with rfl | he
        · trivial
        · exact hwithin₂ T hv e he
    · exact (hclears.places u hne).trans hplace
    · rw [hclears.released]
      exact congrFun hreleased u
    · rw [hclears.failed]
      change u ∉ w₁.failed
      rw [hfailed]
      exact List.not_mem_nil
    · rw [← hmarker]
      exact hclears.marker
    · exact hclears.files _ (fun hv' => hlegacy v hv hvu hv') hlegacy₁

/-- The names have to be apart. -/
theorem AllReleaseOwn.apart (h : AllReleaseOwn T) : Apart T := by
  have hzero : 0 ≤ pidMax := Nat.zero_le _
  have hlooks : ∀ u ∈ T, u.acquires = true → u.looks = true := by
    intro u hu hacquires
    by_contra hignores
    obtain ⟨es, w, hwithin, hr, hprocesses, hplace, -, hgranted, hreleased, hfailed, -⟩ :=
      run_grants hu hacquires (h.fits hu hacquires hzero)
    exact h.no_miss hwithin hr hu hzero (congrFun hprocesses 0) hplace hgranted
      (congrFun hreleased u) (by rw [hfailed]; exact List.not_mem_nil)
      fun hl => absurd hl hignores
  have hlease : ∀ u ∈ T, ∀ v ∈ T, u ≠ v → u.acquires = true → v.looks = true →
      v.leasePath ≠ u.leasePath := fun u hu v hv hne hacquires hl =>
    h.no_collision hu hv hne hacquires hl (Or.inl rfl)
  have hlegacy : ∀ u ∈ T, ∀ v ∈ T, u ≠ v → u.acquires = true → v.looks = true →
      v.legacyLeasePath ≠ u.leasePath := fun u hu v hv hne hacquires hl =>
    h.no_collision hu hv hne hacquires hl (Or.inr ⟨hlease u hu v hv hne hacquires hl, rfl⟩)
  refine ⟨hlooks, hlease, hlegacy, fun u hu v hv hacquires => ?_,
    fun u hu hacquires pid hpid => h.fits hu hacquires hpid,
    fun u hu v hv hacquires => ⟨(h.directory hu hv hacquires hzero).1,
      fun pid hpid => (h.directory hu hv hacquires hpid).2⟩,
    fun u hu v hv hacquires => h.markerDirectory hu hv hacquires⟩
  have hl := hlooks u hu hacquires
  exact h.no_marker (fun x hx hxu hx' => hlegacy x hx u hu hxu hx' hl) hu hv hacquires

/-- For tool uses with distinct triples, every `PostToolUse` releases its own lease in
all runs exactly if the names of their files are apart. -/
theorem releases_own_lease_iff (hdistinct : DistinctTriples T) : AllReleaseOwn T ↔ Apart T :=
  ⟨fun h => h.apart, fun hT _ _ hwithin hr => releasesOwn_of_run hdistinct hT hwithin hr⟩

end HookWorld

/-- IDs as they are commonly made: they are kept in the names as they are, the ID of the
session is no name of a directory of its own, project and tool use have no dash in theirs, and
the two are not too long for one name. -/
structure ToolUse.Plain (u : ToolUse) : Prop where
  session : ∃ s, u.call.sessionId = some s ∧ safeHookPart (some s) = s ∧
    s ∉ ["", ".", ".."]
  project : safeHookPart (some u.projectId) = u.projectId ∧ '-' ∉ u.projectId.toList ∧
    u.projectId ≠ "reconciliation"
  toolUse : ∃ t, u.call.toolUseId = some t ∧ safeHookPart (some t) = t ∧ '-' ∉ t.toList ∧
    u.projectId.length + t.length ≤ 242
  looks : u.acquires = true → u.looks = true

/-- A name with one dash tells what is before the dash and what is after it. -/
theorem dash_inj {p q t s : String} (hp : '-' ∉ p.toList) (ht : '-' ∉ t.toList)
    (h : p ++ "-" ++ t ++ ".json" = q ++ "-" ++ s ++ ".json") : p = q ∧ t = s := by
  have hlists : p.toList ++ '-' :: (t ++ ".json").toList =
      q.toList ++ '-' :: (s ++ ".json").toList := by
    have hboth := congrArg String.toList h
    have hdash : "-".toList = ['-'] := rfl
    simpa only [String.toList_append, List.append_assoc, hdash, List.cons_append,
      List.nil_append] using hboth
  have hafter : '-' ∉ (t ++ ".json").toList := by
    rw [String.toList_append, List.mem_append, not_or]
    exact ⟨ht, by decide⟩
  obtain ⟨hbefore, -, hrest⟩ := (List.append_cons_inj_of_notMem hp hafter).mp hlists
  exact ⟨String.toList_inj.mp hbefore, (String.append_left_inj _).mp (String.toList_inj.mp hrest)⟩

namespace ToolUse

variable {u v : ToolUse}

theorem Plain.directory (h : u.Plain) {s : String} (hs : u.call.sessionId = some s) :
    u.directory = ["codex-leases", s] := by
  obtain ⟨s', hs', hsafe, hspecial⟩ := h.session
  obtain rfl := Option.some.inj (hs.symm.trans hs')
  simp only [List.mem_cons, List.not_mem_nil, or_false, not_or] at hspecial
  obtain ⟨hempty, hdot, hdots⟩ := hspecial
  have hcurrent : ¬ (s = "" ∨ s = ".") := not_or.mpr ⟨hempty, hdot⟩
  rw [ToolUse.directory, hs]
  simp only [hsafe, if_neg hcurrent, if_neg hdots]

theorem Plain.length_directory (h : u.Plain) : u.directory.length = 2 := by
  obtain ⟨s, hs, -⟩ := h.session
  rw [h.directory hs]
  rfl

/-- Two files of one name in the directories of their sessions are in one session. -/
theorem Plain.same_session (hu : u.Plain) (hv : v.Plain) {m n : String}
    (h : v.directory ++ [m] = u.directory ++ [n]) :
    u.call.sessionId = v.call.sessionId ∧ m = n := by
  obtain ⟨s, hs, -⟩ := hu.session
  obtain ⟨t, ht, -⟩ := hv.session
  rw [hu.directory hs, hv.directory ht] at h
  simp only [List.cons_append, List.nil_append, List.cons.injEq, and_true, true_and] at h
  obtain ⟨rfl, hname⟩ := h
  exact ⟨hs.trans ht.symm, hname⟩

end ToolUse

/-- Tool uses with plain IDs are kept apart by their names. -/
theorem apart_of_plain {T : Set ToolUse} (hdistinct : DistinctTriples T)
    (hplain : ∀ u ∈ T, u.Plain) : Apart T where
  looks u hu := (hplain u hu).looks
  lease u hu v hv hne hacquires hlooks h := by
    obtain ⟨hsession, hname⟩ := (hplain u hu).same_session (hplain v hv) h
    obtain ⟨tu, htu, hsafeu, hdashu, -⟩ := (hplain u hu).toolUse
    obtain ⟨tv, htv, hsafev, hdashv, -⟩ := (hplain v hv).toolUse
    rw [htu, htv, hsafeu, hsafev, (hplain u hu).project.1, (hplain v hv).project.1] at hname
    obtain ⟨hproject, htool⟩ := dash_inj (hplain v hv).project.2.1 hdashv hname
    apply hne
    apply hdistinct u hu v hv
    rw [ToolUse.triple, ToolUse.triple, hsession, hproject, htu, htv, htool]
  legacy u hu v hv hne hacquires hlooks h := by
    obtain ⟨-, hname⟩ := (hplain u hu).same_session (hplain v hv) h
    obtain ⟨tv, htv, hsafev, hdashv, -⟩ := (hplain v hv).toolUse
    rw [htv, hsafev] at hname
    -- the legacy name of `v` has no dash
    have hnodash : '-' ∉ (tv ++ ".json").toList := by
      rw [String.toList_append, List.mem_append, not_or]
      exact ⟨hdashv, by decide⟩
    apply hnodash
    rw [hname]
    simp
  marker u hu v hv hacquires h := by
    obtain ⟨-, hname⟩ := (hplain u hu).same_session (hplain v hv) h
    obtain ⟨tu, htu, hsafeu, hdashu, -⟩ := (hplain u hu).toolUse
    rw [htu, hsafeu, (hplain u hu).project.1, (hplain v hv).project.1] at hname
    have hsplit : "reconciliation" ++ "-" ++ v.projectId ++ ".json" =
        u.projectId ++ "-" ++ tu ++ ".json" := hname
    have hword : '-' ∉ "reconciliation".toList := by decide
    obtain ⟨hproject, -⟩ := dash_inj hword (hplain v hv).project.2.1 hsplit
    exact (hplain u hu).project.2.2 hproject.symm
  fits u hu hacquires pid hpid := by
    obtain ⟨t, ht, hsafe, -, hlength⟩ := (hplain u hu).toolUse
    have hdigits : (toString pid).length ≤ 7 :=
      (Nat.length_repr_le_iff (by decide)).mpr (Nat.lt_of_le_of_lt hpid (by decide))
    have hseparators : "-".length = 1 ∧ ".".length = 1 ∧ ".tmp".length = 4 := ⟨rfl, rfl, rfl⟩
    obtain ⟨hdash, hdot, htmp⟩ := hseparators
    rw [ToolUse.temporaryName, ht, hsafe, (hplain u hu).project.1, String.length_append,
      String.length_append, String.length_append, String.length_append, String.length_append,
      hdash, hdot, htmp, nameMax]
    omega
  directory u hu v hv hacquires := by
    have hlength : ∀ name, v.directory ≠ u.directory ++ [name] := by
      intro name h
      have hlengths := congrArg List.length h
      rw [List.length_append, (hplain u hu).length_directory, (hplain v hv).length_directory]
        at hlengths
      cases hlengths
    exact ⟨hlength _, fun _ _ => hlength _⟩
  markerDirectory u hu v hv hacquires h := by
    have hlengths := congrArg List.length h
    rw [ToolUse.reconciliationMarker, List.length_append, (hplain u hu).length_directory,
      (hplain v hv).length_directory] at hlengths
    cases hlengths

section OneProject

def editCall (toolUseId : String) : ToolCall where
  sessionId := some "session"
  toolUseId := some toolUseId
  pre := ⟨some "Edit", none⟩
  post := ⟨some "Edit", none⟩

/-- Both calls of one session write to `prj-call_1.json`, and the first of them finds the
lease of the second. -/
def collidingCalls : List HookEvent :=
  [.start 0 .preToolUse (editCall "call/1") ["prj"], .acquire 0 "first" (.lease true), .write 0,
    .messages 0, .start 1 .preToolUse (editCall "call_1") ["prj"],
    .acquire 1 "second" (.lease true), .write 1, .messages 1,
    .start 2 .postToolUse (editCall "call/1") ["prj"], .look 2, .read 2, .release 2, .remove 2]

theorem hook_releases_foreign_lease :
    (ToolUse.mk (editCall "call/1") "prj").triple ≠ (ToolUse.mk (editCall "call_1") "prj").triple ∧
    ∃ w, Runs.run HookWorld.step .initial collidingCalls = some w ∧
      w.granted ⟨editCall "call/1", "prj"⟩ = some "first" ∧
      w.granted ⟨editCall "call_1", "prj"⟩ = some "second" ∧
      w.released ⟨editCall "call/1", "prj"⟩ = ["second"] ∧ w.failed = [] := by
  have htest : (Runs.run HookWorld.step .initial collidingCalls).map (fun w =>
      (w.granted ⟨editCall "call/1", "prj"⟩, w.granted ⟨editCall "call_1", "prj"⟩,
        w.released ⟨editCall "call/1", "prj"⟩, w.failed)) =
      some (some "first", some "second", ["second"], []) := by decide +kernel
  obtain ⟨w, hw, hfacts⟩ := Option.map_eq_some_iff.mp htest
  simp only [Prod.mk.injEq] at hfacts
  exact ⟨by decide, w, hw, hfacts⟩

/-- Two calls of one session. -/
def twoCalls : Set ToolUse :=
  {⟨editCall "call_1", "prj"⟩, ⟨editCall "call_2", "prj"⟩}

theorem releases_own_lease_two :
    (HookWorld.AllReleaseOwn twoCalls ↔ Apart twoCalls) ∧ Apart twoCalls := by
  have hdistinct : DistinctTriples twoCalls := by
    intro u hu v hv h
    rcases hu with rfl | rfl <;> rcases hv with rfl | rfl
    · rfl
    · exact absurd h (by decide)
    · exact absurd h (by decide)
    · rfl
  have hplain : ∀ t : String, safeHookPart (some t) = t → '-' ∉ t.toList → t.length ≤ 6 →
      (ToolUse.mk (editCall t) "prj").Plain := by
    intro t hsafe hdash hlength
    have hshort : "prj".length + t.length ≤ 242 := by
      have hprj : "prj".length = 3 := rfl
      omega
    have hsession : safeHookPart (some "session") = "session" := by decide +kernel
    have hproject : safeHookPart (some "prj") = "prj" := by decide +kernel
    have hprj : '-' ∉ "prj".toList ∧ "prj" ≠ "reconciliation" := by decide
    exact ⟨⟨"session", rfl, hsession, by decide⟩, ⟨hproject, hprj⟩, ⟨t, rfl, hsafe, hdash, hshort⟩,
      fun h => h⟩
  refine ⟨HookWorld.releases_own_lease_iff hdistinct, apart_of_plain hdistinct ?_⟩
  intro u hu
  rcases hu with rfl | rfl
  · exact hplain "call_1" (by decide +kernel) (by decide) (by decide)
  · exact hplain "call_2" (by decide +kernel) (by decide) (by decide)

end OneProject

end Resync
