import Resync.HookFiles

/-! The adapter repair at the start of the daemon (`daemon.rs`): it installs the hooks of every
managed project before the daemon listens. -/
namespace Resync

/-- The message of a failed installation, under the ID of its project. -/
def installFailure (project : String × HookCheckout) : Completion (Option String) :=
  match installProjectAdaptersInState project.2 with
  | .ok _ => .ok none
  | .error message => .ok (some (project.1 ++ ": " ++ message))
  | .panicked => .panicked

/-- `repair_adapters_for_build`: `installed` is the build in `adapter-build.json`, where that can
be read, and `written` the outcome of writing it. -/
def repairAdaptersForBuild (installed : Option String) (buildId : String)
    (projects : List (String × HookCheckout)) (written : Except String Unit) : Completion Bool := do
  if installed = some buildId then
    return false
  else
    let failures ← projects.mapM installFailure
    if failures.reduceOption ≠ [] then
      .error ("could not refresh every managed checkout: " ++
        String.intercalate "; " failures.reduceOption)
    else
      .ofExcept written
      return true

/-- The repair in `run_daemon`: what is printed, if the daemon goes on at all. -/
def repairAtStart (installed : Option String) (buildId : Except String String)
    (projects : List (String × HookCheckout)) (written : Except String Unit) :
    Completion (Option String) :=
  match (Completion.ofExcept buildId).bind
    (fun buildId => repairAdaptersForBuild installed buildId projects written) with
  | .ok _ => .ok none
  | .error message => .ok (some ("daemon adapter repair failed: " ++ message))
  | .panicked => .panicked

section Indexing

/-- A document that takes `["hooks"]` and then the name of an event mutably. -/
def Indexable (document : Json) : Prop :=
  document = .null ∨ ∃ members, document = .obj members ∧
    (Json.lookup "hooks" members = none ∨ Json.lookup "hooks" members = some .null ∨
      ∃ hooks, Json.lookup "hooks" members = some (.obj hooks))

variable {document : Json}

/-- An empty array for an event, put into an indexable document. -/
theorem indexEvent_empty (h : Indexable document) (event : String) :
    ∃ changed members, indexEvent event (fun _ => .ok (.arr [])) document = .ok changed ∧
      changed.get "hooks" = some (.obj members) ∧ eventOf changed event = some (.arr []) := by
  have hfresh (outer : List (String × Json)) :
      (Json.obj (Json.insert "hooks" (.obj [(event, .arr [])]) outer)).get "hooks" =
        some (.obj [(event, .arr [])]) := Json.lookup_insert_self
  have hthere : (Json.obj [(event, Json.arr [])]).get event = some (.arr []) := if_pos rfl
  rcases h with rfl | ⟨outer, rfl, hnone | hnull | ⟨hooks, hhooks⟩⟩
  · exact ⟨.obj [("hooks", .obj [(event, .arr [])])], [(event, .arr [])], rfl, rfl, hthere⟩
  · refine ⟨.obj (Json.insert "hooks" (.obj [(event, .arr [])]) outer), _, ?_, hfresh outer, ?_⟩
    · rw [indexEvent, indexMut, hnone]
      rfl
    · rw [eventOf, hfresh]
      exact hthere
  · refine ⟨.obj (Json.insert "hooks" (.obj [(event, .arr [])]) outer), _, ?_, hfresh outer, ?_⟩
    · rw [indexEvent, indexMut, hnull]
      rfl
    · rw [eventOf, hfresh]
      exact hthere
  · have hget : (Json.obj outer).get "hooks" = some (.obj hooks) := hhooks
    refine ⟨withGroups (.obj outer) event [], _, ?_, get_withGroups hget event [], ?_⟩
    · rw [indexEvent_eq hget, withGroups, hget]
      rfl
    · rw [eventOf_withGroups hget, if_pos rfl]

/-- An event of an indexable document is installed, and the document stays indexable. -/
theorem installEvent_indexable (h : Indexable document) (kind : HookKind) (marker event : String) :
    ∃ installed, installEvent kind marker document event = .ok installed ∧ Indexable installed := by
  have hindexable {changed : Json} {members : List (String × Json)}
      (hget : changed.get "hooks" = some (.obj members)) : Indexable changed := by
    cases changed with
    | obj outer => exact Or.inr ⟨outer, rfl, Or.inr (Or.inr ⟨members, hget⟩)⟩
    | _ => cases hget
  have hupdate {changed : Json} {members : List (String × Json)} {groups : List Json}
      (hget : changed.get "hooks" = some (.obj members))
      (hgroups : eventOf changed event = some (.arr groups)) :
      ∃ installed, updateEvent kind marker event changed = .ok installed ∧ Indexable installed :=
    ⟨_, updateEvent_eq hget hgroups kind marker, hindexable (get_withGroups hget event _)⟩
  rw [installEvent_def]
  cases hgroups : (eventOf document event).bind Json.asArr with
  | none =>
    obtain ⟨changed, members, hchanged, hget, hempty⟩ := indexEvent_empty h event
    rw [hchanged]
    exact hupdate hget hempty
  | some groups =>
    -- a member of `hooks` that is an array: both are objects
    obtain ⟨value, hvalue, harr⟩ := Option.bind_eq_some_iff.mp hgroups
    have hvalues : value = .arr groups := by
      cases value with
      | arr items => exact congrArg Json.arr (Option.some.inj harr)
      | _ => cases harr
    obtain ⟨hooks, hhooks, hevent⟩ := Option.bind_eq_some_iff.mp hvalue
    cases hooks with
    | obj members =>
      rw [hvalues] at hvalue
      exact hupdate hhooks hvalue
    | _ => cases hevent

/-- What is not indexable panics. -/
theorem installEvent_panicked (h : ¬ Indexable document) (kind : HookKind)
    (marker event : String) : installEvent kind marker document event = .panicked := by
  rw [Indexable, not_or] at h
  have hgroups : (eventOf document event).bind Json.asArr = none := by
    rw [eventOf]
    cases document with
    | obj members =>
      cases hlookup : Json.lookup "hooks" members with
      | none =>
        have hget : (Json.obj members).get "hooks" = none := hlookup
        rw [hget]
        rfl
      | some hooks =>
        have hget : (Json.obj members).get "hooks" = some hooks := hlookup
        rw [hget]
        cases hooks with
        | obj inner =>
          exact absurd ⟨members, rfl, Or.inr (Or.inr ⟨inner, hlookup⟩)⟩ h.2
        | _ => rfl
    | _ => rfl
  rw [installEvent_def, hgroups]
  have hpanics : indexEvent event (fun _ => .ok (.arr [])) document = .panicked := by
    cases document with
    | null => exact absurd rfl h.1
    | obj members =>
      rw [indexEvent, indexMut]
      cases hlookup : Json.lookup "hooks" members with
      | none => exact absurd ⟨members, rfl, Or.inl hlookup⟩ h.2
      | some hooks =>
        cases hooks with
        | null => exact absurd ⟨members, rfl, Or.inr (Or.inl hlookup)⟩ h.2
        | obj inner => exact absurd ⟨members, rfl, Or.inr (Or.inr ⟨inner, hlookup⟩)⟩ h.2
        | _ => rfl
    | _ => rfl
  rw [hpanics]
  rfl

end Indexing

section Panics

/-- What `hooks.json` may hold: nothing is asked where it cannot be read, or the dispatcher not
be written. -/
def HookCheckout.Safe (checkout : HookCheckout) : Prop :=
  ∀ existing marker, checkout.hooks = .ok existing → checkout.dispatcher = .ok marker →
    Indexable (existing.getD (newDocument projectHooks))

theorem installProject_panicked_iff (checkout : HookCheckout) :
    installProjectAdaptersInState checkout = .panicked ↔ ¬ checkout.Safe := by
  have hdef : installProjectAdaptersInState checkout =
      (Completion.ofExcept checkout.hooks).bind fun existing =>
        (Completion.ofExcept checkout.dispatcher).bind fun marker =>
          (hookEvents.foldlM (installEvent projectHooks marker)
            (existing.getD (newDocument projectHooks))).bind fun document =>
            (Completion.ofExcept checkout.finish).bind fun _ =>
              .ok (document, existing.isNone ||
                document ≠ existing.getD (newDocument projectHooks)) := rfl
  rw [hdef]
  cases hhooks : checkout.hooks with
  | error message =>
    have hsafe : checkout.Safe := by
      intro existing marker h
      rw [hhooks] at h
      cases h
    exact iff_of_false (fun h => by cases h) (not_not.mpr hsafe)
  | ok existing =>
    cases hdispatcher : checkout.dispatcher with
    | error message =>
      have hsafe : checkout.Safe := by
        intro existing marker _ h
        rw [hdispatcher] at h
        cases h
      exact iff_of_false (fun h => by cases h) (not_not.mpr hsafe)
    | ok marker =>
      by_cases hindexable : Indexable (existing.getD (newDocument projectHooks))
      · have hsafe : checkout.Safe := by
          intro existing' marker' h _
          rw [hhooks] at h
          rw [← Except.ok.inj h]
          exact hindexable
        -- The first event leaves the document indexable for the second.
        obtain ⟨first, hfirst, hindexable⟩ :=
          installEvent_indexable hindexable projectHooks marker "PreToolUse"
        obtain ⟨second, hsecond, -⟩ :=
          installEvent_indexable hindexable projectHooks marker "PostToolUse"
        have hevents : hookEvents.foldlM (installEvent projectHooks marker)
            (existing.getD (newDocument projectHooks)) = .ok second := by
          rw [hookEvents, List.foldlM_cons, hfirst, Completion.ok_bind, List.foldlM_cons, hsecond]
          rfl
        refine iff_of_false (fun h => ?_) (not_not.mpr hsafe)
        simp only [Completion.ofExcept, Completion.bind, hevents] at h
        cases hfinish : checkout.finish with
        | error message =>
          rw [hfinish] at h
          cases h
        | ok _ =>
          rw [hfinish] at h
          cases h
      -- A document that is not indexable ends the loop at the first event.
      · have hevents : hookEvents.foldlM (installEvent projectHooks marker)
            (existing.getD (newDocument projectHooks)) = .panicked := by
          rw [hookEvents, List.foldlM_cons, installEvent_panicked hindexable]
          rfl
        refine iff_of_true ?_ fun hsafe => hindexable (hsafe existing marker hhooks hdispatcher)
        simp only [Completion.ofExcept, Completion.bind, hevents]

theorem installFailure_panicked_iff (project : String × HookCheckout) :
    installFailure project = .panicked ↔ ¬ project.2.Safe := by
  rw [← installProject_panicked_iff, installFailure]
  cases installProjectAdaptersInState project.2 with
  | ok result => exact iff_of_false (fun h => by cases h) (fun h => by cases h)
  | error message => exact iff_of_false (fun h => by cases h) (fun h => by cases h)
  | panicked => exact iff_of_true rfl rfl

/-- The installations end in a list of failures, unless one of them panics. -/
theorem mapM_installFailure (projects : List (String × HookCheckout)) :
    ((∃ project ∈ projects, ¬ project.2.Safe) ∧ projects.mapM installFailure = .panicked) ∨
      ((∀ project ∈ projects, project.2.Safe) ∧
        ∃ failures, projects.mapM installFailure = .ok failures) := by
  induction projects with
  | nil => exact Or.inr ⟨fun project h => (by cases h), [], rfl⟩
  | cons project projects ih =>
    rw [List.mapM_cons]
    by_cases hsafe : project.2.Safe
    · obtain ⟨failure, hfailure⟩ : ∃ failure, installFailure project = .ok failure := by
        have hno := mt (installFailure_panicked_iff project).mp (not_not.mpr hsafe)
        rw [installFailure] at hno ⊢
        cases hinstall : installProjectAdaptersInState project.2 with
        | ok result => exact ⟨none, rfl⟩
        | error message => exact ⟨_, rfl⟩
        | panicked =>
          rw [hinstall] at hno
          exact absurd rfl hno
      rw [hfailure, Completion.ok_bind]
      rcases ih with ⟨⟨other, hother, hrisky⟩, hrest⟩ | ⟨hall, failures, hrest⟩
      · refine Or.inl ⟨⟨other, List.mem_cons_of_mem _ hother, hrisky⟩, ?_⟩
        rw [hrest]
        rfl
      · refine Or.inr ⟨fun other hother => ?_, failure :: failures, ?_⟩
        · rcases List.mem_cons.mp hother with rfl | hother
          · exact hsafe
          · exact hall other hother
        · rw [hrest]
          rfl
    · refine Or.inl ⟨⟨project, List.mem_cons_self, hsafe⟩, ?_⟩
      rw [(installFailure_panicked_iff project).mpr hsafe]
      rfl

theorem repairAtStart_panicked_iff (installed : Option String) (buildId : Except String String)
    (projects : List (String × HookCheckout)) (written : Except String Unit) :
    repairAtStart installed buildId projects written = .panicked ↔
      (∃ build, buildId = .ok build ∧ installed ≠ some build) ∧
        ∃ project ∈ projects, ¬ project.2.Safe := by
  cases buildId with
  | error message =>
    refine iff_of_false (fun h => by cases h) fun h => ?_
    obtain ⟨⟨build, hbuild, -⟩, -⟩ := h
    cases hbuild
  | ok build =>
    by_cases hsame : installed = some build
    · have hrepair : repairAdaptersForBuild installed build projects written = .ok false :=
        if_pos hsame
      refine iff_of_false (fun h => ?_) fun h => ?_
      · simp only [repairAtStart, Completion.ofExcept, Completion.bind, hrepair] at h
        cases h
      · obtain ⟨⟨build', hbuild, hne⟩, -⟩ := h
        rw [← Except.ok.inj hbuild] at hne
        exact hne hsame
    · have hrepair : repairAdaptersForBuild installed build projects written =
          (projects.mapM installFailure).bind fun failures =>
            if failures.reduceOption ≠ [] then
              .error ("could not refresh every managed checkout: " ++
                String.intercalate "; " failures.reduceOption)
            else (Completion.ofExcept written).bind fun _ => .ok true := if_neg hsame
      -- One checkout that is not safe ends the repair; otherwise each has a result, which
      -- is never a panic.
      rcases mapM_installFailure projects with ⟨hrisky, hpanicked⟩ | ⟨hall, failures, hok⟩
      · refine iff_of_true ?_ ⟨⟨build, rfl, hsame⟩, hrisky⟩
        simp only [repairAtStart, Completion.ofExcept, Completion.bind, hrepair, hpanicked]
      · refine iff_of_false (fun h => ?_) fun h => ?_
        · simp only [repairAtStart, Completion.ofExcept, Completion.bind, hrepair, hok] at h
          split at h
          · cases h
          · cases h
          · next hend =>
            split at hend
            · cases hend
            · cases written with
              | ok _ => cases hend
              | error message => cases hend
        · obtain ⟨-, project, hproject, hrisky⟩ := h
          exact hrisky (hall project hproject)

/-- No installation and no start of the daemon panics, exactly where every `hooks.json` that is
reached is null or an object whose `hooks` are absent, null or an object. -/
theorem repair_never_panics_iff (checkout : HookCheckout) (installed : Option String)
    (buildId : Except String String) (projects : List (String × HookCheckout))
    (written : Except String Unit) :
    (installProjectAdaptersInState checkout ≠ .panicked ↔ checkout.Safe) ∧
      (repairAtStart installed buildId projects written ≠ .panicked ↔
        ((∃ build, buildId = .ok build ∧ installed ≠ some build) →
          ∀ project ∈ projects, project.2.Safe)) := by
  constructor
  · rw [ne_eq, installProject_panicked_iff, not_not]
  · rw [ne_eq, repairAtStart_panicked_iff, not_and]
    constructor
    · intro h hbuild project hproject
      by_contra hrisky
      exact h hbuild ⟨project, hproject, hrisky⟩
    · rintro h hbuild ⟨project, hproject, hrisky⟩
      exact hrisky (h hbuild project hproject)

/-- A checkout whose `hooks.json` is a list keeps the daemon from starting. -/
theorem list_keeps_the_daemon_down :
    installProjectAdaptersInState ⟨"/repo/.codex/hooks.json", .ok (some (.arr [])),
      .ok "'/state/hook-dispatchers/codex-0'", .ok ()⟩ = .panicked ∧
    repairAtStart none (.ok "1")
      [("prj_one", ⟨"/repo/.codex/hooks.json", .ok (some (.arr [])),
        .ok "'/state/hook-dispatchers/codex-0'", .ok ()⟩)] (.ok ()) = .panicked := by
  constructor
  · rfl
  · rfl

end Panics

end Resync
