import Resync.HookCommands
import Resync.Lib.Json
import Resync.Lib.Retain

/-! The installers of the hooks (`cli.rs`, `workspace.rs`): the document of a `hooks.json` goes
through them with whatever else a user has put there. -/
namespace Resync

/-- How a call ends. -/
inductive Completion (α : Type) where
  | ok (value : α)
  | error (message : String)
  | panicked
deriving DecidableEq

namespace Completion

def bind {α β : Type} (completion : Completion α) (next : α → Completion β) : Completion β :=
  match completion with
  | .ok value => next value
  | .error message => .error message
  | .panicked => .panicked

instance : Monad Completion where
  pure := .ok
  bind := bind

instance : LawfulMonad Completion :=
  LawfulMonad.mk' Completion
    (by
      intro α completion
      cases completion with
      | ok value => rfl
      | error message => rfl
      | panicked => rfl)
    (fun _ _ => rfl)
    (by
      intro α β γ completion first second
      cases completion with
      | ok value => rfl
      | error message => rfl
      | panicked => rfl)

/-- The operator `?`. -/
def ofExcept {α : Type} (result : Except String α) : Completion α :=
  match result with
  | .ok value => .ok value
  | .error message => .error message

@[simp] theorem ok_bind {α β : Type} (value : α) (next : α → Completion β) :
    (Completion.ok value >>= next) = next value := rfl

end Completion

/-- `json[key]`, taken mutably and changed: a null becomes an object, and a member that is not
there a null; other values have no members. -/
def indexMut (json : Json) (key : String) (change : Json → Completion Json) : Completion Json :=
  match json with
  | .null => do
    let value ← change .null
    return .obj [(key, value)]
  | .obj members => do
    let value ← change ((Json.lookup key members).getD .null)
    return .obj (Json.insert key value members)
  | _ => .panicked

/-- `as_array_mut().unwrap()`, changed. -/
def arrayMut (change : List Json → List Json) (json : Json) : Completion Json :=
  json.asArr.elim .panicked fun items => .ok (.arr (change items))

/-- The texts and the test in which the two installers differ. -/
structure HookKind where
  description : String
  refreshing : String
  releasing : String
  isForm : List Char → Bool

/-- What `install_project_adapters_in_state` writes. -/
def projectHooks : HookKind where
  description := "RepoSync cooperative workspace leases"
  refreshing := "Refreshing RepoSync workspace"
  releasing := "Releasing RepoSync workspace"
  isForm := isReposyncProjectCommand

/-- What `install_hooks` writes. -/
def workspaceHooks : HookKind where
  description := "RepoSync multi-project workspace leases"
  refreshing := "Refreshing RepoSync workspace projects"
  releasing := "Releasing RepoSync workspace projects"
  isForm := isReposyncWorkspaceCommand

def hookEvents : List String := ["PreToolUse", "PostToolUse"]

section Groups

/-- The command of a handler. -/
def commandOf (handler : Json) : Option String := (handler.get "command").bind Json.asStr

/-- The handlers of a group. -/
def handlersOf (group : Json) : Option (List Json) := (group.get "hooks").bind Json.asArr

/-- Which handlers stay; the state is `marker_found`. -/
def keepHandler (kind : HookKind) (marker : String) (found : Bool) (handler : Json) :
    Bool × Option Json :=
  (commandOf handler).elim (found, some handler) fun command =>
    if command = marker then (true, if found then none else some handler)
    else (found, if kind.isForm command.toList then none else some handler)

/-- Which groups stay, and what of them. -/
def keepGroup (kind : HookKind) (marker : String) (found : Bool) (group : Json) :
    Bool × Option Json :=
  (handlersOf group).elim (found, some group) fun handlers =>
    let kept := Retain.retain (keepHandler kind marker) found handlers
    (kept.1, if kept.2.isEmpty then none else some (group.set "hooks" (.arr kept.2)))

def newHandler (kind : HookKind) (marker event : String) : Json :=
  .obj [("command", .str marker),
    ("statusMessage", .str (if event = "PreToolUse" then kind.refreshing else kind.releasing)),
    ("timeout", .num (.posInt 3600)),
    ("type", .str "command")]

/-- The group that is added where the marker has not been found. -/
def newGroup (kind : HookKind) (marker event : String) : Json :=
  .obj [("hooks", .arr [newHandler kind marker event]), ("matcher", .str "*")]

def updateGroups (kind : HookKind) (marker event : String) (groups : List Json) : List Json :=
  let kept := Retain.retain (keepGroup kind marker) false groups
  if kept.1 then kept.2 else kept.2 ++ [newGroup kind marker event]

end Groups

section Documents

/-- The document of a checkout without one. -/
def newDocument (kind : HookKind) : Json :=
  .obj [("description", .str kind.description), ("hooks", .obj [])]

/-- `hooks["hooks"][event]`, changed. -/
def indexEvent (event : String) (change : Json → Completion Json) (document : Json) :
    Completion Json :=
  indexMut document "hooks" fun hooks => indexMut hooks event change

/-- What follows for an event when its groups are an array. -/
def updateEvent (kind : HookKind) (marker event : String) (document : Json) : Completion Json :=
  indexEvent event (arrayMut (updateGroups kind marker event)) document

/-- One event: groups that are not an array are replaced first. -/
def installEvent (kind : HookKind) (marker : String) (document : Json) (event : String) :
    Completion Json := do
  let groups := ((document.get "hooks").bind fun hooks => hooks.get event).bind Json.asArr
  let document ←
    if groups.isNone then indexEvent event (fun _ => .ok (.arr [])) document else pure document
  updateEvent kind marker event document

/-- What `install_hooks` makes sure of before it looks at the events. -/
def normalizeHooks (hooksPath : String) (document : Json) : Completion Json :=
  if document.isObj = false then .error (hooksPath ++ " must contain a JSON object")
  else .ok (if (document.get "hooks").any Json.isObj then document
    else document.set "hooks" (.obj []))

end Documents

/-- A checkout as an installer meets it: what reading `hooks.json` yields (nothing where the file
is not there), the command of the dispatcher, and how the rest of the files goes. -/
structure HookCheckout where
  hooksPath : String
  hooks : Except String (Option Json)
  dispatcher : Except String String
  finish : Except String Unit

/-- The document that the file holds in the end, and `requires_codex_trust_review`. -/
def HookCheckout.install (checkout : HookCheckout) (kind : HookKind)
    (prepare : Json → Completion Json) : Completion (Json × Bool) := do
  let existing ← .ofExcept checkout.hooks
  let original ← prepare (existing.getD (newDocument kind))
  let marker ← .ofExcept checkout.dispatcher
  let document ← hookEvents.foldlM (installEvent kind marker) original
  .ofExcept checkout.finish
  return (document, existing.isNone || document ≠ original)

def installProjectAdaptersInState (checkout : HookCheckout) : Completion (Json × Bool) :=
  checkout.install projectHooks pure

def installHooks (checkout : HookCheckout) : Completion (Json × Bool) :=
  checkout.install workspaceHooks (normalizeHooks checkout.hooksPath)

section Kept

/-- A handler that the installer of this kind replaces. -/
def isFormHandler (kind : HookKind) (handler : Json) : Bool :=
  (commandOf handler).any fun command => kind.isForm command.toList

def userHandlers (kind : HookKind) (handler : Json) : List Json :=
  if isFormHandler kind handler then [] else [handler]

/-- A group without the handlers of this kind; a group that has no others is left out. -/
def userGroup (kind : HookKind) (group : Json) : List Json :=
  (handlersOf group).elim [group] fun handlers =>
    let kept := handlers.flatMap (userHandlers kind)
    if kept.isEmpty then [] else [group.set "hooks" (.arr kept)]

/-- How many handlers of a group have this command. -/
def commandCount (command : String) (group : Json) : ℕ :=
  ((handlersOf group).getD []).countP fun handler => commandOf handler = some command

variable {kind : HookKind} {marker : String}

theorem keepHandler_user (hmarker : kind.isForm marker.toList = true) (found : Bool)
    (handler : Json) :
    (keepHandler kind marker found handler).2.toList.flatMap (userHandlers kind) =
      userHandlers kind handler := by
  cases hcommand : commandOf handler with
  | none =>
    rw [keepHandler, hcommand]
    exact List.append_nil _
  | some command =>
    have hform : isFormHandler kind handler = kind.isForm command.toList := by
      rw [isFormHandler, hcommand]
      rfl
    rw [keepHandler, hcommand, Option.elim_some]
    by_cases hcase : command = marker
    · -- the command of the dispatcher is itself one of this kind
      subst hcase
      have hnone : userHandlers kind handler = [] := by
        rw [userHandlers, hform, hmarker, if_pos rfl]
      rw [if_pos rfl]
      cases found with
      | true => exact hnone.symm
      | false =>
        show userHandlers kind handler ++ [] = userHandlers kind handler
        rw [List.append_nil]
    · rw [if_neg hcase]
      by_cases hisForm : kind.isForm command.toList = true
      · rw [if_pos hisForm, userHandlers, hform, if_pos hisForm]
        rfl
      · rw [if_neg hisForm]
        exact List.append_nil _

theorem keepHandler_count (kind : HookKind) (marker : String) (found : Bool) (handler : Json) :
    ((keepHandler kind marker found handler).2.toList.map fun handler =>
      if commandOf handler = some marker then 1 else 0).sum + found.toNat =
      (keepHandler kind marker found handler).1.toNat := by
  cases hcommand : commandOf handler with
  | none =>
    rw [keepHandler, hcommand, Option.elim_none, Option.toList_some, List.map_singleton, hcommand,
      List.sum_singleton]
    exact Nat.zero_add _
  | some command =>
    rw [keepHandler, hcommand, Option.elim_some]
    by_cases hcase : command = marker
    · rw [if_pos hcase]
      cases found with
      | true => rfl
      | false =>
        rw [if_neg Bool.false_ne_true, Option.toList_some, List.map_singleton, hcommand, hcase,
          if_pos rfl, List.sum_singleton]
        rfl
    · rw [if_neg hcase]
      by_cases hisForm : kind.isForm command.toList = true
      · rw [if_pos hisForm]
        exact Nat.zero_add _
      · have hne : some command ≠ some marker := fun h => hcase (Option.some.inj h)
        rw [if_neg hisForm, Option.toList_some, List.map_singleton, hcommand, if_neg hne,
          List.sum_singleton]
        exact Nat.zero_add _

/-- A handler stays as it is, or goes without a trace in the state. -/
theorem keepHandler_cases (kind : HookKind) (marker : String) (found : Bool) (handler : Json) :
    (keepHandler kind marker found handler).2 = some handler ∨
      keepHandler kind marker found handler = (found, none) := by
  cases hcommand : commandOf handler with
  | none =>
    left
    rw [keepHandler, hcommand]
    rfl
  | some command =>
    rw [keepHandler, hcommand, Option.elim_some]
    by_cases hcase : command = marker
    · rw [if_pos hcase]
      cases found with
      | true => exact Or.inr rfl
      | false => exact Or.inl rfl
    · rw [if_neg hcase]
      by_cases hisForm : kind.isForm command.toList = true
      · rw [if_pos hisForm]
        exact Or.inr rfl
      · rw [if_neg hisForm]
        exact Or.inl rfl

theorem keepHandler_again (kind : HookKind) (marker : String) (found : Bool) (handler : Json) :
    Retain.retain (keepHandler kind marker) found (keepHandler kind marker found handler).2.toList =
      ((keepHandler kind marker found handler).1,
        (keepHandler kind marker found handler).2.toList) := by
  rcases keepHandler_cases kind marker found handler with hkept | hgone
  · rw [hkept, Option.toList_some, Retain.retain_cons, hkept]
    rfl
  · rw [hgone]
    rfl

theorem handlersOf_set {group : Json} {handlers : List Json} (h : handlersOf group = some handlers)
    (kept : List Json) : handlersOf (group.set "hooks" (.arr kept)) = some kept := by
  have hobj : group.isObj = true := by
    cases hget : group.get "hooks" with
    | none =>
      rw [handlersOf, hget] at h
      cases h
    | some value => exact Json.isObj_of_get hget
  rw [handlersOf, Json.get_set hobj, if_pos rfl]
  rfl

section Handlers

variable {group : Json} {handlers : List Json}

theorem keepGroup_of_none (found : Bool) (h : handlersOf group = none) :
    keepGroup kind marker found group = (found, some group) := by
  rw [keepGroup, h]
  rfl

theorem keepGroup_of_empty {found found' : Bool} (h : handlersOf group = some handlers)
    (hkept : Retain.retain (keepHandler kind marker) found handlers = (found', [])) :
    keepGroup kind marker found group = (found', none) := by
  rw [keepGroup, h, Option.elim_some, hkept]
  rfl

theorem keepGroup_of_cons {found found' : Bool} {first : Json} {kept : List Json}
    (h : handlersOf group = some handlers)
    (hkept : Retain.retain (keepHandler kind marker) found handlers = (found', first :: kept)) :
    keepGroup kind marker found group =
      (found', some (group.set "hooks" (.arr (first :: kept)))) := by
  rw [keepGroup, h, Option.elim_some, hkept]
  rfl

theorem userGroup_of_some (h : handlersOf group = some handlers) : userGroup kind group =
    if (handlers.flatMap (userHandlers kind)).isEmpty then []
    else [group.set "hooks" (.arr (handlers.flatMap (userHandlers kind)))] := by
  rw [userGroup, h]
  rfl

end Handlers

/-- What a user has in a group stays. -/
theorem keepGroup_user (hmarker : kind.isForm marker.toList = true) (found : Bool) (group : Json) :
    (keepGroup kind marker found group).2.toList.flatMap (userGroup kind) =
      userGroup kind group := by
  cases hhandlers : handlersOf group with
  | none =>
    rw [keepGroup_of_none found hhandlers]
    exact List.append_nil _
  | some handlers =>
    have huser := Retain.flatMap_retain (keepHandler_user hmarker) found handlers
    cases hkept : Retain.retain (keepHandler kind marker) found handlers with
    | mk found' kept =>
      rw [hkept] at huser
      cases kept with
      | nil =>
        rw [keepGroup_of_empty hhandlers hkept, userGroup_of_some hhandlers, ← huser]
        rfl
      | cons first kept =>
        rw [keepGroup_of_cons hhandlers hkept, Option.toList_some, List.flatMap_singleton,
          userGroup_of_some (handlersOf_set hhandlers _), userGroup_of_some hhandlers, huser,
          Json.set_set]

theorem countP_command (command : String) (handlers : List Json) :
    handlers.countP (fun handler => commandOf handler = some command) =
      (handlers.map fun handler => if commandOf handler = some command then 1 else 0).sum := by
  induction handlers with
  | nil => rfl
  | cons handler handlers ih =>
    rw [List.map_cons, List.sum_cons, List.countP_cons, Nat.add_comm, ih]
    simp only [decide_eq_true_eq]

theorem commandCount_of_some {command : String} {group : Json} {handlers : List Json}
    (h : handlersOf group = some handlers) : commandCount command group =
      (handlers.map fun handler => if commandOf handler = some command then 1 else 0).sum := by
  rw [commandCount, h]
  exact countP_command command handlers

/-- A kept handler with the marker is the first one. -/
theorem keepGroup_count (kind : HookKind) (marker : String) (found : Bool) (group : Json) :
    ((keepGroup kind marker found group).2.toList.map (commandCount marker)).sum + found.toNat =
      (keepGroup kind marker found group).1.toNat := by
  cases hhandlers : handlersOf group with
  | none =>
    have hzero : commandCount marker group = 0 := by
      rw [commandCount, hhandlers]
      rfl
    rw [keepGroup_of_none found hhandlers, Option.toList_some, List.map_singleton,
      List.sum_singleton, hzero, Nat.zero_add]
  | some handlers =>
    have hcount := Retain.sum_retain Bool.toNat (keepHandler_count kind marker) found handlers
    cases hkept : Retain.retain (keepHandler kind marker) found handlers with
    | mk found' kept =>
      rw [hkept] at hcount
      cases kept with
      | nil =>
        rw [keepGroup_of_empty hhandlers hkept]
        exact hcount
      | cons first kept =>
        rw [keepGroup_of_cons hhandlers hkept, Option.toList_some, List.map_singleton,
          List.sum_singleton, commandCount_of_some (handlersOf_set hhandlers _)]
        exact hcount

theorem keepGroup_again (kind : HookKind) (marker : String) (found : Bool) (group : Json) :
    Retain.retain (keepGroup kind marker) found (keepGroup kind marker found group).2.toList =
      ((keepGroup kind marker found group).1, (keepGroup kind marker found group).2.toList) := by
  cases hhandlers : handlersOf group with
  | none =>
    rw [keepGroup_of_none found hhandlers, Option.toList_some, Retain.retain_cons,
      keepGroup_of_none found hhandlers]
    rfl
  | some handlers =>
    have hagain := Retain.retain_retain (keepHandler_again kind marker) found handlers
    cases hkept : Retain.retain (keepHandler kind marker) found handlers with
    | mk found' kept =>
      rw [hkept] at hagain
      cases kept with
      | nil =>
        rw [keepGroup_of_empty hhandlers hkept]
        have hfound : found = found' := (Prod.mk.inj hagain).1
        rw [hfound]
        rfl
      | cons first kept =>
        rw [keepGroup_of_cons hhandlers hkept, Option.toList_some, Retain.retain_cons,
          keepGroup_of_cons (handlersOf_set hhandlers _) hagain, Json.set_set]
        rfl

theorem handlersOf_newGroup (kind : HookKind) (marker event : String) :
    handlersOf (newGroup kind marker event) = some [newHandler kind marker event] := rfl

theorem commandOf_newHandler (kind : HookKind) (marker event : String) :
    commandOf (newHandler kind marker event) = some marker := rfl

/-- What `updateGroups` does for every array of groups. -/
theorem updateGroups_spec (hmarker : kind.isForm marker.toList = true) (event : String)
    (groups : List Json) :
    (updateGroups kind marker event groups).flatMap (userGroup kind) =
        groups.flatMap (userGroup kind) ∧
      ((updateGroups kind marker event groups).map (commandCount marker)).sum = 1 ∧
      updateGroups kind marker event (updateGroups kind marker event groups) =
        updateGroups kind marker event groups := by
  have huser := Retain.flatMap_retain (keepGroup_user hmarker) false groups
  have hcount := Retain.sum_retain Bool.toNat (keepGroup_count kind marker) false groups
  have hagain := Retain.retain_retain (keepGroup_again kind marker) false groups
  have hupdate : updateGroups kind marker event groups =
      if (Retain.retain (keepGroup kind marker) false groups).1 then
        (Retain.retain (keepGroup kind marker) false groups).2
      else (Retain.retain (keepGroup kind marker) false groups).2 ++
        [newGroup kind marker event] := rfl
  cases hkept : Retain.retain (keepGroup kind marker) false groups with
  | mk found kept =>
    rw [hkept] at huser hcount hagain hupdate
    cases found with
    | true =>
      have hupdated : updateGroups kind marker event groups = kept := hupdate
      rw [hupdated]
      refine ⟨huser, hcount, ?_⟩
      rw [updateGroups, hagain]
      rfl
    | false =>
      have hupdated : updateGroups kind marker event groups =
          kept ++ [newGroup kind marker event] := hupdate
      -- the new group holds the marker, and nothing of a user
      have hhandlers := handlersOf_newGroup kind marker event
      have hcommand := commandOf_newHandler kind marker event
      have hnewUser : userGroup kind (newGroup kind marker event) = [] := by
        have hform : isFormHandler kind (newHandler kind marker event) = true := by
          rw [isFormHandler, hcommand]
          exact hmarker
        rw [userGroup_of_some hhandlers, List.flatMap_singleton, userHandlers, if_pos hform]
        rfl
      have hnewCount : commandCount marker (newGroup kind marker event) = 1 := by
        rw [commandCount_of_some hhandlers, List.map_singleton, hcommand, if_pos rfl]
        rfl
      have hnewKept : Retain.retain (keepGroup kind marker) false [newGroup kind marker event] =
          (true, [newGroup kind marker event]) := by
        have hkeep : Retain.retain (keepHandler kind marker) false [newHandler kind marker event] =
            (true, [newHandler kind marker event]) := by
          rw [Retain.retain_cons, keepHandler, hcommand, Option.elim_some, if_pos rfl]
          rfl
        have hsame : (newGroup kind marker event).set "hooks"
            (.arr [newHandler kind marker event]) = newGroup kind marker event :=
          Json.set_same rfl
        rw [Retain.retain_cons, keepGroup_of_cons hhandlers hkeep, hsame]
        rfl
      rw [hupdated]
      refine ⟨?_, ?_, ?_⟩
      · rw [List.flatMap_append, huser, List.flatMap_singleton, hnewUser, List.append_nil]
      · rw [List.map_append, List.sum_append, List.map_singleton, List.sum_singleton, hnewCount]
        have hzero : (kept.map (commandCount marker)).sum + 0 = 0 := hcount
        omega
      · rw [updateGroups, Retain.retain_append, hagain, hnewKept]
        rfl

end Kept

section Shape

/-- `hooks[event]` of a document, where it is there. -/
def eventOf (document : Json) (event : String) : Option Json :=
  (document.get "hooks").bind fun hooks => hooks.get event

def groupsOf (document : Json) (event : String) : List Json :=
  ((eventOf document event).bind Json.asArr).getD []

/-- An object whose `hooks` are an object with arrays, or nothing, at the two events. -/
structure WellShaped (document : Json) : Prop where
  hooks : ∃ members, document.get "hooks" = some (.obj members)
  events : ∀ event ∈ hookEvents, eventOf document event = none ∨
    ∃ groups, eventOf document event = some (.arr groups)

/-- The document with these groups for an event. -/
def withGroups (document : Json) (event : String) (groups : List Json) : Json :=
  document.set "hooks" (((document.get "hooks").getD .null).set event (.arr groups))

variable {document : Json} {members : List (String × Json)} {event other : String}

theorem get_withGroups (hhooks : document.get "hooks" = some (.obj members)) (event : String)
    (groups : List Json) : (withGroups document event groups).get "hooks" =
      some (.obj (Json.insert event (.arr groups) members)) := by
  rw [withGroups, hhooks, Json.get_set (Json.isObj_of_get hhooks), if_pos rfl]
  rfl

theorem get_withGroups_of_ne (hhooks : document.get "hooks" = some (.obj members)) (event : String)
    (groups : List Json) {key : String} (hkey : key ≠ "hooks") :
    (withGroups document event groups).get key = document.get key := by
  rw [withGroups, Json.get_set (Json.isObj_of_get hhooks), if_neg hkey]

theorem eventOf_withGroups (hhooks : document.get "hooks" = some (.obj members)) (event : String)
    (groups : List Json) (other : String) : eventOf (withGroups document event groups) other =
      if other = event then some (.arr groups) else eventOf document other := by
  rw [eventOf, get_withGroups hhooks, eventOf, hhooks]
  exact Json.lookup_insert event (.arr groups) members other

theorem withGroups_withGroups (hhooks : document.get "hooks" = some (.obj members))
    (event : String) (first second : List Json) :
    withGroups (withGroups document event first) event second =
      withGroups document event second := by
  have hget := get_withGroups hhooks event first
  have hfirst : withGroups document event first =
      document.set "hooks" (.obj (Json.insert event (.arr first) members)) := by
    rw [withGroups, hhooks]
    rfl
  rw [withGroups, hget, hfirst, Json.set_set, withGroups, hhooks]
  exact congrArg (fun members => document.set "hooks" (.obj members))
    (Json.insert_insert (.arr first) (.arr second))

theorem withGroups_same (hhooks : document.get "hooks" = some (.obj members)) {groups : List Json}
    (h : eventOf document event = some (.arr groups)) :
    withGroups document event groups = document := by
  have hlookup : (Json.obj members).get event = some (.arr groups) := by
    rw [eventOf, hhooks] at h
    exact h
  rw [withGroups, hhooks, Option.getD_some, Json.set_same hlookup]
  exact Json.set_same hhooks

theorem WellShaped.withGroups (h : WellShaped document) (event : String) (groups : List Json) :
    WellShaped (withGroups document event groups) := by
  obtain ⟨members, hhooks⟩ := h.hooks
  refine ⟨⟨_, get_withGroups hhooks event groups⟩, fun other hother => ?_⟩
  rw [eventOf_withGroups hhooks]
  split
  · exact Or.inr ⟨groups, rfl⟩
  · exact h.events other hother

/-- Taking an event mutably where `hooks` is an object. -/
theorem indexEvent_eq (hhooks : document.get "hooks" = some (.obj members)) (event : String)
    (change : Json → Completion Json) : indexEvent event change document =
      (change ((Json.lookup event members).getD .null)).bind fun value =>
        .ok (document.set "hooks" (.obj (Json.insert event value members))) := by
  cases document with
  | obj outer =>
    have hlookup : Json.lookup "hooks" outer = some (.obj members) := hhooks
    rw [indexEvent, indexMut, hlookup, Option.getD_some, indexMut]
    cases change ((Json.lookup event members).getD .null) with
    | ok value => rfl
    | error message => rfl
    | panicked => rfl
  | _ => cases hhooks

theorem updateEvent_eq (hhooks : document.get "hooks" = some (.obj members)) {groups : List Json}
    (h : eventOf document event = some (.arr groups)) (kind : HookKind) (marker : String) :
    updateEvent kind marker event document =
      .ok (withGroups document event (updateGroups kind marker event groups)) := by
  have hlookup : Json.lookup event members = some (.arr groups) := by
    rw [eventOf, hhooks] at h
    exact h
  rw [updateEvent, indexEvent_eq hhooks, hlookup, withGroups, hhooks]
  rfl

theorem installEvent_def (kind : HookKind) (marker : String) (document : Json) (event : String) :
    installEvent kind marker document event =
      if ((eventOf document event).bind Json.asArr).isNone then
        (indexEvent event (fun _ => .ok (.arr [])) document).bind (updateEvent kind marker event)
      else updateEvent kind marker event document := rfl

/-- One event of a well-shaped document. -/
theorem installEvent_eq (h : WellShaped document) (hevent : event ∈ hookEvents) (kind : HookKind)
    (marker : String) : installEvent kind marker document event =
      .ok (withGroups document event
        (updateGroups kind marker event (groupsOf document event))) := by
  obtain ⟨members, hhooks⟩ := h.hooks
  rcases h.events event hevent with hnone | ⟨groups, hgroups⟩
  · have hempty : groupsOf document event = [] := by rw [groupsOf, hnone]; rfl
    have hset : indexEvent event (fun _ => .ok (.arr [])) document =
        .ok (withGroups document event []) := by
      rw [indexEvent_eq hhooks, withGroups, hhooks]
      rfl
    have hthere : eventOf (withGroups document event []) event = some (.arr []) := by
      rw [eventOf_withGroups hhooks, if_pos rfl]
    have hupdate := updateEvent_eq (get_withGroups hhooks event []) hthere kind marker
    rw [withGroups_withGroups hhooks] at hupdate
    rw [installEvent_def, hnone, hempty, hset]
    exact hupdate
  · have hgroupsOf : groupsOf document event = groups := by rw [groupsOf, hgroups]; rfl
    rw [installEvent_def, hgroups, hgroupsOf]
    exact updateEvent_eq hhooks hgroups kind marker

end Shape

section Installing

variable {kind : HookKind} {marker : String} {document : Json} {events : List String}

/-- All events in turn: each gets its groups from those it had. -/
theorem installEvents_eq (kind : HookKind) (marker : String) (hevents : events ⊆ hookEvents)
    (hnodup : events.Nodup) (h : WellShaped document) :
    ∃ installed, events.foldlM (installEvent kind marker) document = .ok installed ∧
      WellShaped installed ∧
      (∀ event ∈ events, eventOf installed event =
        some (.arr (updateGroups kind marker event (groupsOf document event)))) ∧
      (∀ event, event ∉ events → eventOf installed event = eventOf document event) ∧
      ∀ key, key ≠ "hooks" → installed.get key = document.get key := by
  induction events generalizing document with
  | nil =>
    exact ⟨document, rfl, h, fun event hevent => (by cases hevent), fun _ _ => rfl, fun _ _ => rfl⟩
  | cons event events ih =>
    obtain ⟨hnot, hnodup⟩ := List.nodup_cons.mp hnodup
    have hevent : event ∈ hookEvents := hevents List.mem_cons_self
    have hrest : events ⊆ hookEvents := fun other hother => hevents (List.mem_cons_of_mem _ hother)
    have hstep := installEvent_eq h hevent kind marker
    obtain ⟨members, hhooks⟩ := h.hooks
    set groups := updateGroups kind marker event (groupsOf document event)
    obtain ⟨installed, hrun, hshape, hdone, hothers, hkeys⟩ :=
      ih hrest hnodup (h.withGroups event groups)
    have hframe (other : String) (hne : other ≠ event) :
        eventOf (withGroups document event groups) other = eventOf document other := by
      rw [eventOf_withGroups hhooks, if_neg hne]
    refine ⟨installed, ?_, hshape, ?_, ?_, ?_⟩
    · rw [List.foldlM_cons, hstep, Completion.ok_bind, hrun]
    · intro other hother
      rcases List.mem_cons.mp hother with rfl | hother
      · rw [hothers other hnot, eventOf_withGroups hhooks, if_pos rfl]
      · have hne : other ≠ event := fun he => hnot (he ▸ hother)
        rw [hdone other hother, groupsOf, hframe other hne, groupsOf]
    · intro other hother
      rw [List.mem_cons, not_or] at hother
      rw [hothers other hother.2, hframe other hother.1]
    · intro key hkey
      rw [hkeys key hkey, get_withGroups_of_ne hhooks event groups hkey]

/-- Events that are settled stay as they are. -/
theorem installEvents_settled (hevents : events ⊆ hookEvents) (h : WellShaped document)
    (hsettled : ∀ event ∈ events, ∃ groups, eventOf document event = some (.arr groups) ∧
      updateGroups kind marker event groups = groups) :
    events.foldlM (installEvent kind marker) document = .ok document := by
  induction events with
  | nil => rfl
  | cons event events ih =>
    obtain ⟨groups, hgroups, hsame⟩ := hsettled event List.mem_cons_self
    obtain ⟨members, hhooks⟩ := h.hooks
    have hthere : groupsOf document event = groups := by rw [groupsOf, hgroups]; rfl
    have hstep := installEvent_eq h (hevents List.mem_cons_self) kind marker
    rw [hthere, hsame, withGroups_same hhooks hgroups] at hstep
    rw [List.foldlM_cons, hstep, Completion.ok_bind]
    exact ih (fun other hother => hevents (List.mem_cons_of_mem _ hother))
      fun other hother => hsettled other (List.mem_cons_of_mem _ hother)

/-- An installer's run on a document: one handler with the marker for each event, all that is not
of the kind as it was, and nothing to do for a second run. -/
def Installs (kind : HookKind) (marker : String) (run : Json → Completion (Json × Bool))
    (document : Json) : Prop :=
  ∃ installed review, run document = .ok (installed, review) ∧
    (∀ event ∈ hookEvents,
      ((groupsOf installed event).map (commandCount marker)).sum = 1 ∧
      (groupsOf installed event).flatMap (userGroup kind) =
        (groupsOf document event).flatMap (userGroup kind)) ∧
    (∀ event, event ∉ hookEvents → eventOf installed event = eventOf document event) ∧
    (∀ key, key ≠ "hooks" → installed.get key = document.get key) ∧
    run installed = .ok (installed, false)

theorem installs_of_wellShaped (hmarker : kind.isForm marker.toList = true)
    {prepare : Json → Completion Json}
    (hprepare : ∀ document, WellShaped document → prepare document = .ok document)
    (hooksPath : String) (h : WellShaped document) :
    Installs kind marker (fun document =>
      HookCheckout.install ⟨hooksPath, .ok (some document), .ok marker, .ok ()⟩ kind prepare)
      document := by
  have hrun (document installed : Json) (h : WellShaped document)
      (hevents : hookEvents.foldlM (installEvent kind marker) document = .ok installed) :
      HookCheckout.install ⟨hooksPath, .ok (some document), .ok marker, .ok ()⟩ kind prepare =
        .ok (installed, decide (installed ≠ document)) := by
    show (prepare document).bind (fun original =>
      (hookEvents.foldlM (installEvent kind marker) original).bind fun installed =>
        .ok (installed, false || decide (installed ≠ original))) = _
    rw [hprepare document h, Completion.bind, hevents, Completion.bind, Bool.false_or]
  have hnodup : hookEvents.Nodup := by decide
  obtain ⟨installed, hevents, hshape, hdone, hothers, hkeys⟩ :=
    installEvents_eq kind marker (List.Subset.refl _) hnodup h
  have hgroups (event : String) (hevent : event ∈ hookEvents) : groupsOf installed event =
      updateGroups kind marker event (groupsOf document event) := by
    rw [groupsOf, hdone event hevent]
    rfl
  have hsettled : hookEvents.foldlM (installEvent kind marker) installed = .ok installed := by
    apply installEvents_settled (List.Subset.refl _) hshape
    intro event hevent
    exact ⟨_, hdone event hevent, (updateGroups_spec hmarker event (groupsOf document event)).2.2⟩
  refine ⟨installed, _, hrun document installed h hevents, fun event hevent => ?_, hothers, hkeys,
    ?_⟩
  · obtain ⟨huser, hcount, -⟩ := updateGroups_spec hmarker event (groupsOf document event)
    rw [hgroups event hevent]
    exact ⟨hcount, huser⟩
  · have hsecond := hrun installed installed hshape hsettled
    rw [decide_eq_false (not_not.mpr rfl)] at hsecond
    exact hsecond

theorem normalizeHooks_wellShaped (hooksPath : String) (h : WellShaped document) :
    normalizeHooks hooksPath document = .ok document := by
  obtain ⟨members, hhooks⟩ := h.hooks
  have hobj : document.isObj = true := Json.isObj_of_get hhooks
  rw [normalizeHooks, hobj, hhooks, if_neg (by decide)]
  rfl

/-- The dispatcher commands of two state roots without white space are of their own kind only. -/
theorem isForm_dispatcher (sha : Sha256) {root : List Char} (hroot : OneWord root)
    (identity : List UInt8) :
    (projectHooks.isForm (dispatcherCommand sha root "codex".toList identity) = true ∧
      workspaceHooks.isForm (dispatcherCommand sha root "codex".toList identity) = false) ∧
    (workspaceHooks.isForm (dispatcherCommand sha root "codex-workspace".toList identity) = true ∧
      projectHooks.isForm (dispatcherCommand sha root "codex-workspace".toList identity) =
        false) := by
  have hproject : projectHooks.isForm = isReposyncProjectCommand := rfl
  have hworkspace : workspaceHooks.isForm = isReposyncWorkspaceCommand := rfl
  have honlyProject := (onlyProject_dispatcher sha root identity).mpr (not_invokesItself hroot _)
  have honlyWorkspace :=
    (onlyWorkspace_dispatcher sha root identity).mpr (not_invokesItself hroot _)
  rw [OnlyProject] at honlyProject
  rw [OnlyWorkspace] at honlyWorkspace
  rw [hproject, hworkspace]
  exact ⟨honlyProject, honlyWorkspace⟩

/-- Both installers, on any well-shaped `hooks.json` and for any state root without white space:
each leaves one handler with its dispatcher's command for each event, keeps every handler that is
not of its kind, the other one's dispatcher among them, and changes nothing a second time. -/
theorem installers_keep_user_hooks (sha : Sha256) {root : List Char} (hroot : OneWord root)
    (projectId manifestPath : List UInt8) (hooksPath : String) {document : Json}
    (hdocument : WellShaped document) :
    let project := String.ofList (dispatcherCommand sha root "codex".toList projectId)
    let workspace :=
      String.ofList (dispatcherCommand sha root "codex-workspace".toList manifestPath)
    Installs projectHooks project (fun document => installProjectAdaptersInState
        ⟨hooksPath, .ok (some document), .ok project, .ok ()⟩) document ∧
      Installs workspaceHooks workspace (fun document => installHooks
        ⟨hooksPath, .ok (some document), .ok workspace, .ok ()⟩) document ∧
      projectHooks.isForm workspace.toList = false ∧
      workspaceHooks.isForm project.toList = false := by
  intro project workspace
  obtain ⟨⟨hproject, hnotWorkspace⟩, -⟩ := isForm_dispatcher sha hroot projectId
  obtain ⟨-, hworkspace, hnotProject⟩ := isForm_dispatcher sha hroot manifestPath
  have hprojectList : project.toList = dispatcherCommand sha root "codex".toList projectId :=
    String.toList_ofList
  have hworkspaceList : workspace.toList =
      dispatcherCommand sha root "codex-workspace".toList manifestPath := String.toList_ofList
  rw [← hprojectList] at hproject hnotWorkspace
  rw [← hworkspaceList] at hworkspace hnotProject
  refine ⟨?_, ?_, hnotProject, hnotWorkspace⟩
  · exact installs_of_wellShaped hproject (fun _ _ => rfl) hooksPath hdocument
  · exact installs_of_wellShaped hworkspace
      (fun document h => normalizeHooks_wellShaped hooksPath h) hooksPath hdocument

/-- A document in which a user has a hook for one event. -/
def sampleHooks : Json :=
  .obj [("hooks", .obj [("PreToolUse", .arr [.obj [
    ("hooks", .arr [.obj [("command", .str "echo first"), ("type", .str "command")]]),
    ("matcher", .str "*")]])])]

theorem sampleHooks_wellShaped : WellShaped sampleHooks where
  hooks := ⟨_, rfl⟩
  events := by
    intro event hevent
    rcases List.mem_cons.mp hevent with rfl | hevent
    · exact Or.inr ⟨_, rfl⟩
    · rw [List.mem_singleton.mp hevent]
      exact Or.inl rfl

theorem sampleHooks_installs :
    Installs projectHooks
      (String.ofList (dispatcherCommand sampleSha "/state".toList "codex".toList
        (digestInput ["../../holder"])))
      (fun document => installProjectAdaptersInState ⟨"/repo/.codex/hooks.json",
        .ok (some document),
        .ok (String.ofList (dispatcherCommand sampleSha "/state".toList "codex".toList
          (digestInput ["../../holder"]))), .ok ()⟩) sampleHooks := by
  have hroot : OneWord "/state".toList := oneWord_of_all (by decide)
  exact (installers_keep_user_hooks sampleSha hroot (digestInput ["../../holder"])
    (digestInput ["https://provider.example"]) "/repo/.codex/hooks.json"
    sampleHooks_wellShaped).1

end Installing

end Resync
