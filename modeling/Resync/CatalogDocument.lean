import Resync.Lib.Json
import Mathlib.Data.Option.Basic

/-! The hosted catalog (`protocol.rs`): `Catalog::from_value` with its migration of the preview
shape, and the document that a catalog is written as. -/
namespace Resync

namespace CatalogDocument

def protocolVersion : String := "resync.v1"

structure AdvertisedHead where
  name : String
  oid : String
deriving DecidableEq

structure CatalogProject where
  projectId : String
  name : String
  remoteUrl : String
  defaultBranch : String
  advertisedHeads : List AdvertisedHead
  projectGeneration : ℕ
  extra : List (String × Json)
deriving DecidableEq

structure Catalog where
  protocol : String
  catalogGeneration : ℕ
  projects : List CatalogProject
deriving DecidableEq

/-- A text of `from_value` or `validate`, or an error of the decoder. -/
inductive CatalogError where
  | bail (message : String)
  | decode
deriving DecidableEq

section Decoder

/-- An object, or the two values in the order of the fields. -/
def decodeHead : Json → Option AdvertisedHead
  | .obj members =>
    ((Json.lookup "name" members).bind Json.asStr).bind fun name =>
      ((Json.lookup "oid" members).bind Json.asStr).map fun oid => ⟨name, oid⟩
  | .arr [name, oid] => name.asStr.bind fun name => oid.asStr.map fun oid => ⟨name, oid⟩
  | _ => none

/-- A field with `#[serde(default)]`. -/
def defaulted {α : Type} (decode : Json → Option α) (default : α) (value : Option Json) :
    Option α :=
  value.elim (some default) decode

def decodeHeads (value : Json) : Option (List AdvertisedHead) :=
  value.asArr.bind fun items => items.mapM decodeHead

def isField (key : String) : Bool :=
  key = "project_id" || key = "name" || key = "remote_url" || key = "default_branch" ||
    key = "advertised_heads" || key = "project_generation"

/-- The members that `#[serde(flatten)]` leaves for `extra`. -/
def flattened (item : List (String × Json)) : List (String × Json) :=
  item.filter fun member => !isField member.1

def decodeItem (item : List (String × Json)) : Option CatalogProject :=
  ((Json.lookup "project_id" item).bind Json.asStr).bind fun projectId =>
    (defaulted Json.asStr "" (Json.lookup "name" item)).bind fun name =>
      ((Json.lookup "remote_url" item).bind Json.asStr).bind fun remoteUrl =>
        (defaulted Json.asStr "" (Json.lookup "default_branch" item)).bind fun defaultBranch =>
          (defaulted decodeHeads [] (Json.lookup "advertised_heads" item)).bind fun heads =>
            (defaulted Json.asU64 0 (Json.lookup "project_generation" item)).map fun generation =>
              ⟨projectId, name, remoteUrl, defaultBranch, heads, generation, flattened item⟩

def decodeProject : Json → Option CatalogProject
  | .obj item => decodeItem item
  | _ => none

/-- `serde_json::from_value`. -/
def decodeCatalog (object : List (String × Json)) : Option Catalog :=
  ((Json.lookup "protocol" object).bind Json.asStr).bind fun protocol =>
    ((Json.lookup "catalog_generation" object).bind Json.asU64).bind fun generation =>
      ((Json.lookup "projects" object).bind Json.asArr).bind fun projects =>
        (projects.mapM decodeProject).map fun projects => ⟨protocol, generation, projects⟩

end Decoder

section Migration

/-- `is_none_or`: the branch is not there, no text or the empty one. -/
def lacksBranch (item : List (String × Json)) : Bool :=
  (Json.lookup "default_branch" item).all fun value => value.asStr.all (· = "")

def migrateBranch (item : List (String × Json)) : List (String × Json) :=
  if lacksBranch item then
    (Json.lookup "sync_branch" item).elim item fun value =>
      Json.insert "default_branch" value item
  else item

def headValue (name oid : Json) : Json := .obj [("name", name), ("oid", oid)]

def migrateHeads (item : List (String × Json)) : List (String × Json) :=
  if (Json.lookup "advertised_heads" item).isSome then item
  else
    let heads := ((Json.lookup "advertised_head_oid" item).bind Json.asStr).elim [] fun oid =>
      let name := ((Json.lookup "default_branch" item).bind Json.asStr).getD ""
      [headValue (.str name) (.str oid)]
    Json.insert "advertised_heads" (.arr heads) item

/-- The body of the loop over the projects. -/
def migrateItem (item : List (String × Json)) : List (String × Json) :=
  Json.remove "advertised_head_oid" (Json.remove "sync_branch" (migrateHeads (migrateBranch item)))

def migrateProject : Json → Except CatalogError Json
  | .obj item => .ok (.obj (migrateItem item))
  | _ => .error (.bail "catalog project must be an object")

end Migration

section Validation

/-- `^[0-9a-f]{40,64}$`. -/
def isOid (oid : String) : Bool :=
  40 ≤ oid.length && oid.length ≤ 64 &&
    oid.toList.all fun c => ('0' ≤ c && c ≤ '9') || ('a' ≤ c && c ≤ 'f')

def validateHeads : List AdvertisedHead → List String → Except CatalogError Unit
  | [], _ => .ok ()
  | head :: heads, names =>
    if head.name = "" ∨ head.name ∈ names then
      .error (.bail "catalog project has an invalid or duplicate branch name")
    else if isOid head.oid = false then
      .error (.bail "catalog project has an invalid advertised head OID")
    else validateHeads heads (head.name :: names)

def validateProject (project : CatalogProject) : Except CatalogError Unit :=
  let fields := [("project_id", project.projectId), ("remote_url", project.remoteUrl),
    ("default_branch", project.defaultBranch)]
  (fields.find? fun field => field.2 = "").elim (validateHeads project.advertisedHeads [])
    fun field => .error (.bail ("catalog project is missing " ++ field.1))

/-- `Catalog::validate`. -/
def validate : List CatalogProject → Except CatalogError Unit
  | [] => .ok ()
  | project :: projects => (validateProject project).bind fun _ => validate projects

end Validation

/-- `Catalog::from_value`. -/
def fromValue : Json → Except CatalogError Catalog
  | .obj object =>
    if (Json.lookup "protocol" object).bind Json.asStr ≠ some protocolVersion ∨
        ((Json.lookup "catalog_generation" object).bind Json.asU64).isNone then
      .error (.bail "server returned an incompatible catalog")
    else
      ((Json.lookup "projects" object).bind Json.asArr).elim
        (.error (.bail "catalog.projects must be an array"))
        fun projects => (projects.mapM migrateProject).bind fun migrated =>
          (decodeCatalog (Json.insert "projects" (.arr migrated) object)).elim (.error .decode)
            fun catalog => (validate catalog.projects).map fun _ => catalog
  | _ => .error (.bail "server returned an incompatible catalog")

section Serializer

def serializeHead (head : AdvertisedHead) : Json := headValue (.str head.name) (.str head.oid)

def fieldsOf (project : CatalogProject) : List (String × Json) :=
  [("project_id", .str project.projectId), ("name", .str project.name),
    ("remote_url", .str project.remoteUrl), ("default_branch", .str project.defaultBranch),
    ("advertised_heads", .arr (project.advertisedHeads.map serializeHead)),
    ("project_generation", .num (.posInt project.projectGeneration))]

/-- The fields and the members of `extra` in one map. -/
def serializeItem (project : CatalogProject) : List (String × Json) :=
  (fieldsOf project).foldl Json.orInsert project.extra

def serializeProject (project : CatalogProject) : Json := .obj (serializeItem project)

/-- `serde_json::to_value`. -/
def toValue (catalog : Catalog) : Json :=
  .obj [("catalog_generation", .num (.posInt catalog.catalogGeneration)),
    ("projects", .arr (catalog.projects.map serializeProject)),
    ("protocol", .str catalog.protocol)]

end Serializer

section Modern

/-- The default branch in the modern shape: the preview's one, where the modern one names none. -/
def modernBranch (item : List (String × Json)) : Option Json :=
  if lacksBranch item then
    (Json.lookup "sync_branch" item).or (Json.lookup "default_branch" item)
  else Json.lookup "default_branch" item

/-- The heads in the modern shape: the preview's object ID is the head of the default branch, and
no text is no head. -/
def modernHeads (item : List (String × Json)) : Json :=
  (Json.lookup "advertised_heads" item).getD <| .arr <|
    ((Json.lookup "advertised_head_oid" item).bind Json.asStr).elim [] fun oid =>
      [headValue ((modernBranch item).getD (.str "")) (.str oid)]

/-- A project in the modern shape: no member of the preview is left. -/
def modernItem (item : List (String × Json)) : List (String × Json) :=
  let rest := Json.remove "sync_branch" (Json.remove "advertised_head_oid" item)
  Json.insert "advertised_heads" (modernHeads item) <|
    (modernBranch item).elim rest fun branch => Json.insert "default_branch" branch rest

def modernProject : Json → Json
  | .obj item => .obj (modernItem item)
  | value => value

/-- A document with all its projects in the modern shape. -/
def modernDocument : Json → Json
  | .obj object =>
    ((Json.lookup "projects" object).bind Json.asArr).elim (.obj object) fun projects =>
      .obj (Json.insert "projects" (.arr (projects.map modernProject)) object)
  | value => value

end Modern

section Lookups

variable {item : List (String × Json)}

theorem modernBranch_of_none (h : modernBranch item = none) :
    Json.lookup "default_branch" item = none := by
  rw [modernBranch] at h
  split at h
  · exact (Option.or_eq_none_iff.mp h).2
  · exact h

theorem lookup_migrateBranch (key : String) :
    Json.lookup key (migrateBranch item) =
      if key = "default_branch" then modernBranch item else Json.lookup key item := by
  rw [migrateBranch, modernBranch]
  split
  · cases hsync : Json.lookup "sync_branch" item with
    | none =>
      rw [Option.elim_none, Option.none_or]
      split
      · next hkey => rw [hkey]
      · rfl
    | some value => rw [Option.elim_some, Option.some_or, Json.lookup_insert]
  · split
    · next hkey => rw [hkey]
    · rfl

/-- The heads behind the migration. -/
def migratedHeads (item : List (String × Json)) : Json :=
  (Json.lookup "advertised_heads" item).getD <| .arr <|
    ((Json.lookup "advertised_head_oid" item).bind Json.asStr).elim [] fun oid =>
      [headValue (.str (((modernBranch item).bind Json.asStr).getD "")) (.str oid)]

theorem lookup_migrateHeads (key : String) :
    Json.lookup key (migrateHeads (migrateBranch item)) =
      if key = "advertised_heads" then some (migratedHeads item)
      else Json.lookup key (migrateBranch item) := by
  have hheads : Json.lookup "advertised_heads" (migrateBranch item) =
      Json.lookup "advertised_heads" item := by
    rw [lookup_migrateBranch, if_neg (by decide)]
  have hoid : Json.lookup "advertised_head_oid" (migrateBranch item) =
      Json.lookup "advertised_head_oid" item := by
    rw [lookup_migrateBranch, if_neg (by decide)]
  have hbranch : Json.lookup "default_branch" (migrateBranch item) = modernBranch item := by
    rw [lookup_migrateBranch, if_pos rfl]
  rw [migrateHeads, migratedHeads, hheads, hoid, hbranch]
  cases hthere : Json.lookup "advertised_heads" item with
  | none =>
    rw [Option.isSome_none, if_neg Bool.false_ne_true, Json.lookup_insert]
    rfl
  | some heads =>
    rw [Option.isSome_some, if_pos rfl]
    split
    · next hkey =>
      subst hkey
      rw [hheads, hthere]
      rfl
    · rfl

/-- What stands under a key behind the migration. -/
theorem lookup_migrateItem (key : String) :
    Json.lookup key (migrateItem item) =
      if key = "advertised_head_oid" then none else if key = "sync_branch" then none
      else if key = "advertised_heads" then some (migratedHeads item)
      else if key = "default_branch" then modernBranch item else Json.lookup key item := by
  rw [migrateItem, Json.lookup_remove, Json.lookup_remove, lookup_migrateHeads,
    lookup_migrateBranch]

theorem lookup_modernItem (key : String) :
    Json.lookup key (modernItem item) =
      if key = "advertised_heads" then some (modernHeads item)
      else if key = "default_branch" then modernBranch item
      else if key = "sync_branch" then none else if key = "advertised_head_oid" then none
      else Json.lookup key item := by
  rw [modernItem, Json.lookup_insert]
  cases hbranch : modernBranch item with
  | none =>
    rw [Option.elim_none, Json.lookup_remove, Json.lookup_remove]
    by_cases hkey : key = "default_branch"
    · subst hkey
      rw [if_neg (by decide), if_neg (by decide), if_pos rfl, if_neg (by decide),
        if_neg (by decide)]
      exact modernBranch_of_none hbranch
    · rw [if_neg hkey]
  | some branch =>
    rw [Option.elim_some, Json.lookup_insert, Json.lookup_remove, Json.lookup_remove]

/-- A project in the modern shape has the branch of the preview. -/
theorem modernBranch_modernItem : modernBranch (modernItem item) = modernBranch item := by
  have hdefault : Json.lookup "default_branch" (modernItem item) = modernBranch item := by
    rw [lookup_modernItem, if_neg (by decide), if_pos rfl]
  have hsync : Json.lookup "sync_branch" (modernItem item) = none := by
    rw [lookup_modernItem, if_neg (by decide), if_neg (by decide), if_pos rfl]
  rw [modernBranch, hdefault, hsync, Option.none_or, ite_self]

theorem migratedHeads_modernItem : migratedHeads (modernItem item) = modernHeads item := by
  have hheads : Json.lookup "advertised_heads" (modernItem item) = some (modernHeads item) := by
    rw [lookup_modernItem, if_pos rfl]
  rw [migratedHeads, hheads, Option.getD_some]

end Lookups

section Flattened

variable {item : List (String × Json)}

/-- No field and no member of the preview. -/
def isExtra (key : String) : Bool :=
  !isField key && key ≠ "sync_branch" && key ≠ "advertised_head_oid"

/-- The fields of today have none of the old names. -/
theorem ne_old_of_isField {key : String} (h : isField key = true) :
    key ≠ "sync_branch" ∧ key ≠ "advertised_head_oid" := by
  constructor
  · rintro rfl
    cases h
  · rintro rfl
    cases h

def extras (item : List (String × Json)) : List (String × Json) :=
  item.filter fun member => isExtra member.1

theorem extras_migrateItem : extras (migrateItem item) = extras item := by
  have hheads : extras (migrateHeads (migrateBranch item)) = extras (migrateBranch item) := by
    rw [migrateHeads]
    split
    · rfl
    · exact Json.filter_insert isExtra (by decide) _ _
  have hbranch : extras (migrateBranch item) = extras item := by
    rw [migrateBranch]
    split
    · cases Json.lookup "sync_branch" item with
      | none => rfl
      | some value => exact Json.filter_insert isExtra (by decide) _ _
    · rfl
  calc extras (migrateItem item)
      = extras (Json.remove "sync_branch" (migrateHeads (migrateBranch item))) :=
        Json.filter_remove isExtra (by decide) _
    _ = extras (migrateHeads (migrateBranch item)) := Json.filter_remove isExtra (by decide) _
    _ = extras item := hheads.trans hbranch

theorem extras_modernItem : extras (modernItem item) = extras item := by
  have hrest : extras (Json.remove "sync_branch" (Json.remove "advertised_head_oid" item)) =
      extras item :=
    (Json.filter_remove isExtra (by decide) _).trans
      (Json.filter_remove isExtra (by decide) _)
  have hheads (rest : List (String × Json)) :
      extras (Json.insert "advertised_heads" (modernHeads item) rest) = extras rest :=
    Json.filter_insert isExtra (by decide) _ _
  rw [modernItem, hheads]
  cases modernBranch item with
  | none => exact hrest
  | some branch =>
    exact (Json.filter_insert isExtra (by decide) _ _).trans hrest

/-- What is flattened behind the migration. -/
theorem flattened_migrateItem : flattened (migrateItem item) = extras item := by
  rw [← extras_migrateItem, flattened, extras]
  refine List.filter_congr fun member hmember => ?_
  have hsome : (Json.lookup member.1 (migrateItem item)).isSome = true :=
    Json.lookup_of_mem hmember
  have hsync : member.1 ≠ "sync_branch" := by
    intro hkey
    rw [hkey, lookup_migrateItem, if_neg (by decide), if_pos rfl] at hsome
    cases hsome
  have hoid : member.1 ≠ "advertised_head_oid" := by
    intro hkey
    rw [hkey, lookup_migrateItem, if_pos rfl] at hsome
    cases hsome
  rw [isExtra, decide_eq_true hsync, decide_eq_true hoid, Bool.and_true, Bool.and_true]

end Flattened

section Rewriting

theorem decodeItem_congr {a b : List (String × Json)}
    (hlook : ∀ key, isField key = true → Json.lookup key a = Json.lookup key b)
    (hflat : flattened a = flattened b) : decodeItem a = decodeItem b := by
  rw [decodeItem, decodeItem, hlook "project_id" rfl, hlook "name" rfl, hlook "remote_url" rfl,
    hlook "default_branch" rfl, hlook "advertised_heads" rfl, hlook "project_generation" rfl, hflat]

theorem decodeItem_of_branch {item : List (String × Json)} {branch : Json}
    (hbranch : Json.lookup "default_branch" item = some branch) (hno : branch.asStr = none) :
    decodeItem item = none := by
  have hnone : defaulted Json.asStr "" (Json.lookup "default_branch" item) = none := by
    rw [hbranch, defaulted, Option.elim_some, hno]
  rw [decodeItem, hnone]
  simp only [Option.bind_none, Option.bind_fun_none]

/-- The migration takes a project and its modern rewriting to the same. -/
theorem decode_migrateItem_modernItem (item : List (String × Json)) :
    decodeItem (migrateItem (modernItem item)) = decodeItem (migrateItem item) := by
  have hbranch (other : List (String × Json)) :
      Json.lookup "default_branch" (migrateItem other) = modernBranch other := by
    rw [lookup_migrateItem, if_neg (by decide), if_neg (by decide), if_neg (by decide), if_pos rfl]
  have hflat : flattened (migrateItem (modernItem item)) = flattened (migrateItem item) := by
    rw [flattened_migrateItem, flattened_migrateItem, extras_modernItem]
  by_cases hheads : modernHeads item = migratedHeads item
  · refine decodeItem_congr (fun key hkey => ?_) hflat
    obtain ⟨hsync, hoid⟩ := ne_old_of_isField hkey
    rw [lookup_migrateItem, lookup_migrateItem, if_neg hoid, if_neg hsync, if_neg hoid,
      if_neg hsync, migratedHeads_modernItem, modernBranch_modernItem, hheads, lookup_modernItem,
      if_neg hsync, if_neg hoid]
    by_cases hkey : key = "advertised_heads"
    · rw [if_pos hkey, if_pos hkey]
    · rw [if_neg hkey, if_neg hkey, if_neg hkey]
      by_cases hkey : key = "default_branch"
      · rw [if_pos hkey, if_pos hkey]
      · rw [if_neg hkey, if_neg hkey]
  · -- the heads differ only where the branch is no text, and there neither is decoded
    cases hmodern : modernBranch item with
    | none =>
      refine absurd ?_ hheads
      rw [modernHeads, migratedHeads, hmodern]
      rfl
    | some branch =>
      cases htext : branch.asStr with
      | some text =>
        refine absurd ?_ hheads
        rw [modernHeads, migratedHeads, hmodern, Option.bind_some, htext,
          Json.asStr_eq_some.mp htext]
        rfl
      | none =>
        rw [decodeItem_of_branch ((hbranch _).trans (modernBranch_modernItem.trans hmodern)) htext,
          decodeItem_of_branch ((hbranch _).trans hmodern) htext]

end Rewriting

section Documents

/-- The projects behind the migration, decoded. -/
def readProjects (projects : List Json) : Except CatalogError (Option (List CatalogProject)) :=
  (projects.mapM migrateProject).map fun migrated => migrated.mapM decodeProject

theorem readProjects_cons (project : Json) (projects : List Json) :
    readProjects (project :: projects) = (migrateProject project).bind fun migrated =>
      (readProjects projects).map fun rest =>
        (decodeProject migrated).bind fun first => rest.map (first :: ·) := by
  rw [readProjects, readProjects, List.mapM_cons]
  cases migrateProject project with
  | error e => rfl
  | ok migrated =>
    cases projects.mapM migrateProject with
    | error e => rfl
    | ok rest =>
      change Except.ok ((migrated :: rest).mapM decodeProject) =
        Except.ok ((decodeProject migrated).bind fun first =>
          (rest.mapM decodeProject).map (first :: ·))
      rw [List.mapM_cons]
      refine congrArg Except.ok ?_
      cases decodeProject migrated with
      | none => rfl
      | some first =>
        cases rest.mapM decodeProject with
        | none => rfl
        | some rest => rfl

/-- The catalog that the decoded projects give, checked. -/
def finish (object : List (String × Json)) (projects : Option (List CatalogProject)) :
    Except CatalogError Catalog :=
  let catalog := ((Json.lookup "protocol" object).bind Json.asStr).bind fun protocol =>
    ((Json.lookup "catalog_generation" object).bind Json.asU64).bind fun generation =>
      projects.map fun projects => (⟨protocol, generation, projects⟩ : Catalog)
  catalog.elim (.error .decode) fun catalog => (validate catalog.projects).map fun _ => catalog

theorem fromValue_obj (object : List (String × Json)) :
    fromValue (.obj object) =
      if (Json.lookup "protocol" object).bind Json.asStr ≠ some protocolVersion ∨
          ((Json.lookup "catalog_generation" object).bind Json.asU64).isNone then
        .error (.bail "server returned an incompatible catalog")
      else
        ((Json.lookup "projects" object).bind Json.asArr).elim
          (.error (.bail "catalog.projects must be an array"))
          fun projects => (readProjects projects).bind (finish object) := by
  rw [fromValue]
  split
  · rfl
  · cases (Json.lookup "projects" object).bind Json.asArr with
    | none => rfl
    | some projects =>
      rw [Option.elim_some, Option.elim_some, readProjects]
      cases projects.mapM migrateProject with
      | error e => rfl
      | ok migrated =>
        have hprotocol : Json.lookup "protocol" (Json.insert "projects" (.arr migrated) object) =
            Json.lookup "protocol" object := Json.lookup_insert_of_ne (by decide)
        have hgeneration : Json.lookup "catalog_generation"
            (Json.insert "projects" (.arr migrated) object) =
            Json.lookup "catalog_generation" object := Json.lookup_insert_of_ne (by decide)
        change (decodeCatalog (Json.insert "projects" (.arr migrated) object)).elim _ _ =
          finish object (migrated.mapM decodeProject)
        rw [decodeCatalog, hprotocol, hgeneration, Json.lookup_insert_self]
        rfl

theorem readProjects_modern (projects : List Json) :
    readProjects (projects.map modernProject) = readProjects projects := by
  induction projects with
  | nil => rfl
  | cons project projects ih =>
    rw [List.map_cons, readProjects_cons, readProjects_cons, ih]
    cases project with
    | obj item =>
      change (readProjects projects).map (fun rest =>
          (decodeItem (migrateItem (modernItem item))).bind fun first => rest.map (first :: ·)) =
        (readProjects projects).map fun rest =>
          (decodeItem (migrateItem item)).bind fun first => rest.map (first :: ·)
      rw [decode_migrateItem_modernItem]
    | _ => rfl

/-- A document and its modern rewriting are the same catalog, or the same error. -/
theorem fromValue_modernDocument (v : Json) : fromValue (modernDocument v) = fromValue v := by
  cases v with
  | obj object =>
    rw [modernDocument]
    cases hprojects : (Json.lookup "projects" object).bind Json.asArr with
    | none => rfl
    | some projects =>
      rw [Option.elim_some]
      have hkeep (key : String) (hkey : key ≠ "projects") :
          Json.lookup key (Json.insert "projects" (.arr (projects.map modernProject)) object) =
            Json.lookup key object := Json.lookup_insert_of_ne hkey
      have hfinish : finish (Json.insert "projects" (.arr (projects.map modernProject)) object) =
          finish object := by
        funext decoded
        rw [finish, finish, hkeep "protocol" (by decide), hkeep "catalog_generation" (by decide)]
      rw [fromValue_obj, fromValue_obj, hkeep "protocol" (by decide),
        hkeep "catalog_generation" (by decide), hprojects, Json.lookup_insert_self, hfinish]
      simp only [Option.bind_some, Json.asArr, Option.elim_some, readProjects_modern]
  | _ => rfl

end Documents

section Roundtrip

variable {c : Catalog}

/-- What `from_value` returns. -/
structure WellFormed (c : Catalog) : Prop where
  protocol : c.protocol = protocolVersion
  extra : ∀ project ∈ c.projects, ∀ member ∈ project.extra, isExtra member.1 = true
  valid : validate c.projects = .ok ()

theorem extra_of_decodeItem {item : List (String × Json)} {project : CatalogProject}
    (h : decodeItem item = some project) : project.extra = flattened item := by
  rw [decodeItem] at h
  obtain ⟨_, _, h⟩ := Option.bind_eq_some_iff.mp h
  obtain ⟨_, _, h⟩ := Option.bind_eq_some_iff.mp h
  obtain ⟨_, _, h⟩ := Option.bind_eq_some_iff.mp h
  obtain ⟨_, _, h⟩ := Option.bind_eq_some_iff.mp h
  obtain ⟨_, _, h⟩ := Option.bind_eq_some_iff.mp h
  obtain ⟨_, _, rfl⟩ := Option.map_eq_some_iff.mp h
  rfl

theorem extra_of_readProjects {projects : List Json} {read : List CatalogProject}
    (h : readProjects projects = .ok (some read)) :
    ∀ project ∈ read, ∀ member ∈ project.extra, isExtra member.1 = true := by
  induction projects generalizing read with
  | nil =>
    cases h
    exact fun project hproject => absurd hproject List.not_mem_nil
  | cons value projects ih =>
    rw [readProjects_cons] at h
    cases value with
    | obj item =>
      cases hrest : readProjects projects with
      | error e =>
        rw [hrest] at h
        cases h
      | ok rest =>
        rw [hrest] at h
        obtain ⟨first, hfirst, hread⟩ := Option.bind_eq_some_iff.mp (Except.ok.inj h)
        obtain ⟨others, hothers, rfl⟩ := Option.map_eq_some_iff.mp hread
        rw [hothers] at hrest
        intro project hproject member hmember
        rcases List.mem_cons.mp hproject with rfl | hproject
        · rw [extra_of_decodeItem hfirst, flattened_migrateItem] at hmember
          exact (List.mem_filter.mp hmember).2
        · exact ih hrest project hproject member hmember
    | _ => cases h

theorem wellFormed_of_fromValue {v : Json} (h : fromValue v = .ok c) : WellFormed c := by
  cases v with
  -- A reading that fails ends the parse, so in `h` every one of them succeeds.
  | obj object =>
    rw [fromValue_obj] at h
    split at h
    · cases h
    · next hcompatible =>
      rw [not_or, not_not] at hcompatible
      cases hprojects : (Json.lookup "projects" object).bind Json.asArr with
      | none =>
        rw [hprojects] at h
        cases h
      | some projects =>
        rw [hprojects, Option.elim_some] at h
        cases hread : readProjects projects with
        | error e =>
          rw [hread] at h
          cases h
        | ok decoded =>
          rw [hread] at h
          change finish object decoded = .ok c at h
          rw [finish, hcompatible.1, Option.bind_some] at h
          cases hgeneration : (Json.lookup "catalog_generation" object).bind Json.asU64 with
          | none =>
            rw [hgeneration] at h
            cases h
          | some generation =>
            cases decoded with
            | none =>
              rw [hgeneration] at h
              cases h
            | some decoded =>
              rw [hgeneration] at h
              change (validate decoded).map (fun _ => _) = .ok c at h
              cases hvalid : validate decoded with
              | error e =>
                rw [hvalid] at h
                cases h
              | ok checked =>
                rw [hvalid] at h
                cases h
                exact ⟨rfl, extra_of_readProjects hread, hvalid⟩
  | _ => cases h

theorem decodeHeads_serialize (heads : List AdvertisedHead) :
    decodeHeads (.arr (heads.map serializeHead)) = some heads := by
  change (heads.map serializeHead).mapM decodeHead = some heads
  induction heads with
  | nil => rfl
  | cons head heads ih =>
    have hhead : decodeHead (serializeHead head) = some head := by
      simp [decodeHead, serializeHead, headValue, Json.lookup, Json.asStr]
    rw [List.map_cons, List.mapM_cons, hhead, ih]
    rfl

theorem branch_of_validate {projects : List CatalogProject} (h : validate projects = .ok ()) :
    ∀ project ∈ projects, project.defaultBranch ≠ "" := by
  induction projects with
  | nil => exact fun project hproject => absurd hproject List.not_mem_nil
  | cons first projects ih =>
    rw [validate] at h
    cases hfirst : validateProject first with
    | error e =>
      rw [hfirst] at h
      cases h
    | ok checked =>
      rw [hfirst] at h
      intro project hproject hempty
      rcases List.mem_cons.mp hproject with rfl | hproject
      · rw [validateProject] at hfirst
        cases hfind : [("project_id", project.projectId), ("remote_url", project.remoteUrl),
            ("default_branch", project.defaultBranch)].find? fun field => field.2 = "" with
        | none =>
          have hnot := List.find?_eq_none.mp hfind ("default_branch", project.defaultBranch)
            (List.mem_cons_of_mem _ (List.mem_cons_of_mem _ List.mem_cons_self))
          exact hnot (decide_eq_true hempty)
        | some field =>
          rw [hfind] at hfirst
          cases hfirst
      · exact ih h project hproject hempty

theorem fieldsOf_not_extra (project : CatalogProject) :
    ∀ field ∈ fieldsOf project, isExtra field.1 = false := by
  intro field hfield
  have hkey : field.1 ∈ (fieldsOf project).map Prod.fst := List.mem_map_of_mem hfield
  have hall : ∀ key ∈ ["project_id", "name", "remote_url", "default_branch", "advertised_heads",
      "project_generation"], isExtra key = false := by decide
  exact hall field.1 hkey

theorem lookup_fieldsOf (project : CatalogProject) :
    Json.lookup "project_id" (fieldsOf project) = some (.str project.projectId) ∧
    Json.lookup "name" (fieldsOf project) = some (.str project.name) ∧
    Json.lookup "remote_url" (fieldsOf project) = some (.str project.remoteUrl) ∧
    Json.lookup "default_branch" (fieldsOf project) = some (.str project.defaultBranch) ∧
    Json.lookup "advertised_heads" (fieldsOf project) =
      some (.arr (project.advertisedHeads.map serializeHead)) ∧
    Json.lookup "project_generation" (fieldsOf project) =
      some (.num (.posInt project.projectGeneration)) := by
  simp [fieldsOf, Json.lookup]

/-- A project is read back as it was written. -/
theorem decode_serializeItem {project : CatalogProject}
    (hextra : ∀ member ∈ project.extra, isExtra member.1 = true)
    (hbranch : project.defaultBranch ≠ "") :
    decodeItem (migrateItem (serializeItem project)) = some project := by
  -- No extra member has the name of a field, so a field is looked up among the fields.
  have hlook (key : String) (hkey : isField key = true) :
      Json.lookup key (serializeItem project) = Json.lookup key (fieldsOf project) := by
    have hnone : Json.lookup key project.extra = none := by
      by_contra hsome
      obtain ⟨value, hvalue⟩ := Option.ne_none_iff_exists'.mp hsome
      have hmember := hextra (key, value) (Json.mem_of_lookup hvalue)
      rw [isExtra, hkey] at hmember
      cases hmember
    rw [serializeItem, Json.lookup_foldl_orInsert, hnone, Option.none_or]
  have hflat : flattened (migrateItem (serializeItem project)) = project.extra := by
    rw [flattened_migrateItem, extras, serializeItem,
      Json.filter_foldl_orInsert isExtra (fieldsOf_not_extra project)]
    exact List.filter_eq_self.mpr hextra
  obtain ⟨hid, hname, hurl, hbranches, hadvertised, hgeneration⟩ := lookup_fieldsOf project
  have hdefault : Json.lookup "default_branch" (serializeItem project) =
      some (.str project.defaultBranch) := by rw [hlook _ rfl, hbranches]
  have hmodern : modernBranch (serializeItem project) = some (.str project.defaultBranch) := by
    have hhas : lacksBranch (serializeItem project) = false := by
      rw [lacksBranch, hdefault]
      exact decide_eq_false hbranch
    rw [modernBranch, hhas, if_neg Bool.false_ne_true, hdefault]
  have hheads : migratedHeads (serializeItem project) =
      .arr (project.advertisedHeads.map serializeHead) := by
    rw [migratedHeads, hlook _ rfl, hadvertised, Option.getD_some]
  -- The migration of the old fields leaves a document without them alone.
  have hfield (key : String) (hkey : isField key = true) (hne : key ≠ "advertised_heads")
      (hother : key ≠ "default_branch") :
      Json.lookup key (migrateItem (serializeItem project)) =
        Json.lookup key (fieldsOf project) := by
    obtain ⟨hsync, hoid⟩ := ne_old_of_isField hkey
    rw [lookup_migrateItem, if_neg hoid, if_neg hsync, if_neg hne, if_neg hother, hlook key hkey]
  have hwritten : Json.lookup "advertised_heads" (migrateItem (serializeItem project)) =
      some (.arr (project.advertisedHeads.map serializeHead)) := by
    rw [lookup_migrateItem, if_neg (by decide), if_neg (by decide), if_pos rfl, hheads]
  have hnamed : Json.lookup "default_branch" (migrateItem (serializeItem project)) =
      some (.str project.defaultBranch) := by
    rw [lookup_migrateItem, if_neg (by decide), if_neg (by decide), if_neg (by decide), if_pos rfl,
      hmodern]
  rw [decodeItem, hflat, hwritten, hnamed, hfield "project_id" rfl (by decide) (by decide),
    hfield "name" rfl (by decide) (by decide), hfield "remote_url" rfl (by decide) (by decide),
    hfield "project_generation" rfl (by decide) (by decide), hid, hname, hurl, hgeneration]
  have hdecoded := decodeHeads_serialize project.advertisedHeads
  simp only [defaulted, Option.elim_some, Option.bind_some, hdecoded]
  rfl

theorem readProjects_serialize {projects : List CatalogProject}
    (hextra : ∀ project ∈ projects, ∀ member ∈ project.extra, isExtra member.1 = true)
    (hbranch : ∀ project ∈ projects, project.defaultBranch ≠ "") :
    readProjects (projects.map serializeProject) = .ok (some projects) := by
  induction projects with
  | nil => rfl
  | cons project projects ih =>
    have hrest := ih (fun p hp => hextra p (List.mem_cons_of_mem _ hp))
      fun p hp => hbranch p (List.mem_cons_of_mem _ hp)
    have hfirst := decode_serializeItem (hextra project List.mem_cons_self)
      (hbranch project List.mem_cons_self)
    rw [List.map_cons, readProjects_cons, hrest]
    change Except.ok ((decodeItem (migrateItem (serializeItem project))).bind _) = _
    rw [hfirst]
    rfl

/-- A catalog is decoded from its own document. -/
theorem fromValue_toValue (h : WellFormed c) : fromValue (toValue c) = .ok c := by
  obtain ⟨protocol, generation, projects⟩ := c
  obtain ⟨hprotocol, hextra, hvalid⟩ := h
  dsimp only at hprotocol hextra hvalid
  subst hprotocol
  have hread := readProjects_serialize hextra (branch_of_validate hvalid)
  rw [toValue]
  dsimp only
  have hversion : Json.lookup "protocol" [("catalog_generation", .num (.posInt generation)),
      ("projects", .arr (projects.map serializeProject)), ("protocol", .str protocolVersion)] =
      some (.str protocolVersion) := by simp [Json.lookup]
  have hgeneration : Json.lookup "catalog_generation"
      [("catalog_generation", .num (.posInt generation)),
        ("projects", .arr (projects.map serializeProject)), ("protocol", .str protocolVersion)] =
      some (.num (.posInt generation)) := by simp [Json.lookup]
  have hprojects : Json.lookup "projects" [("catalog_generation", .num (.posInt generation)),
      ("projects", .arr (projects.map serializeProject)), ("protocol", .str protocolVersion)] =
      some (.arr (projects.map serializeProject)) := by simp [Json.lookup]
  have hcompatible : ¬ ((some (Json.str protocolVersion)).bind Json.asStr ≠ some protocolVersion ∨
      ((some (Json.num (.posInt generation))).bind Json.asU64).isNone) := by
    rintro (hne | hnone)
    · exact hne rfl
    · cases hnone
  rw [fromValue_obj, hversion, hgeneration, hprojects, if_neg hcompatible]
  change (readProjects (projects.map serializeProject)).bind _ = _
  rw [hread]
  rw [Except.bind, finish, hversion, hgeneration]
  dsimp only [Option.bind_some, Json.asStr, Json.asU64, Option.map_some, Option.elim_some]
  rw [hvalid]
  rfl

end Roundtrip

/-- What `from_value` accepts is read back from what it is written as, and a document with members
of the preview is taken as its modern rewriting is. -/
theorem catalog_roundtrip_and_migration (v : Json) :
    (∀ c, fromValue v = .ok c → fromValue (toValue c) = .ok c) ∧
      fromValue (modernDocument v) = fromValue v :=
  ⟨fun _ h => fromValue_toValue (wellFormed_of_fromValue h), fromValue_modernDocument v⟩

/-- A document of the preview with one project. -/
def previewDocument : Json :=
  .obj [("catalog_generation", .num (.posInt 2)), ("projects", .arr [.obj [
    ("advertised_head_oid", .str "aaaaaaaaaaaaaaaaaaaaaaaaaaaaaaaaaaaaaaaa"),
    ("project_id", .str "prj_x"), ("remote_url", .str "https://example.invalid/x.git"),
    ("sync_branch", .str "main")]]), ("protocol", .str "resync.v1")]

def previewCatalog : Catalog :=
  ⟨"resync.v1", 2, [⟨"prj_x", "", "https://example.invalid/x.git", "main",
    [⟨"main", "aaaaaaaaaaaaaaaaaaaaaaaaaaaaaaaaaaaaaaaa"⟩], 0, []⟩]⟩

theorem preview_document_roundtrips :
    fromValue previewDocument = .ok previewCatalog ∧
      fromValue (toValue previewCatalog) = .ok previewCatalog := by
  have haccepted : fromValue previewDocument = .ok previewCatalog := by decide
  exact ⟨haccepted, (catalog_roundtrip_and_migration previewDocument).1 previewCatalog haccepted⟩

end CatalogDocument

end Resync
