import Mathlib.Data.List.Basic

/-! JSON values. An object is the list of its members in the order of their keys; what is said
about members is said through look-up. -/

/-- A number as it is kept: a natural number, a negative integer, or the bits of a float. -/
inductive JsonNumber where
  | posInt (n : ℕ)
  | negInt (n : ℕ)
  | float (bits : UInt64)
deriving DecidableEq

inductive Json where
  | null
  | bool (b : Bool)
  | num (n : JsonNumber)
  | str (s : String)
  | arr (items : List Json)
  | obj (members : List (String × Json))

namespace Json

section Equality

mutual

def beq : Json → Json → Bool
  | .null, .null => true
  | .bool a, .bool b => a == b
  | .num a, .num b => a = b
  | .str a, .str b => a == b
  | .arr a, .arr b => beqItems a b
  | .obj a, .obj b => beqMembers a b
  | _, _ => false

def beqItems : List Json → List Json → Bool
  | [], [] => true
  | a :: as, b :: bs => beq a b && beqItems as bs
  | _, _ => false

def beqMembers : List (String × Json) → List (String × Json) → Bool
  | [], [] => true
  | (k, a) :: as, (l, b) :: bs => k == l && beq a b && beqMembers as bs
  | _, _ => false

end

mutual

theorem beq_self : (a : Json) → beq a a = true
  | .null => rfl
  | .bool _ => beq_self_eq_true _
  | .num _ => decide_eq_true rfl
  | .str _ => beq_self_eq_true _
  | .arr items => beqItems_self items
  | .obj members => beqMembers_self members

theorem beqItems_self : (items : List Json) → beqItems items items = true
  | [] => rfl
  | a :: as => by rw [beqItems, beq_self a, beqItems_self as, Bool.and_self]

theorem beqMembers_self : (members : List (String × Json)) → beqMembers members members = true
  | [] => rfl
  | (k, a) :: as => by
    rw [beqMembers, beq_self a, beqMembers_self as, beq_self_eq_true, Bool.and_self, Bool.and_self]

end

mutual

theorem eq_of_beq : (a b : Json) → beq a b = true → a = b
  | .null, b, h => by
    cases b with
    | null => rfl
    | _ => cases h
  | .bool a, b, h => by
    cases b with
    | bool b => exact congrArg Json.bool (beq_iff_eq.mp h)
    | _ => cases h
  | .num a, b, h => by
    cases b with
    | num b => exact congrArg Json.num (of_decide_eq_true h)
    | _ => cases h
  | .str a, b, h => by
    cases b with
    | str b => exact congrArg Json.str (beq_iff_eq.mp h)
    | _ => cases h
  | .arr a, b, h => by
    cases b with
    | arr b => exact congrArg Json.arr (eq_of_beqItems a b h)
    | _ => cases h
  | .obj a, b, h => by
    cases b with
    | obj b => exact congrArg Json.obj (eq_of_beqMembers a b h)
    | _ => cases h

theorem eq_of_beqItems : (a b : List Json) → beqItems a b = true → a = b
  | [], [], _ => rfl
  | [], _ :: _, h => by cases h
  | _ :: _, [], h => by cases h
  | a :: as, b :: bs, h => by
    rw [beqItems, Bool.and_eq_true] at h
    rw [eq_of_beq a b h.1, eq_of_beqItems as bs h.2]

theorem eq_of_beqMembers : (a b : List (String × Json)) → beqMembers a b = true → a = b
  | [], [], _ => rfl
  | [], _ :: _, h => by cases h
  | _ :: _, [], h => by cases h
  | (k, a) :: as, (l, b) :: bs, h => by
    rw [beqMembers, Bool.and_eq_true, Bool.and_eq_true, beq_iff_eq] at h
    rw [h.1.1, eq_of_beq a b h.1.2, eq_of_beqMembers as bs h.2]

end

instance : DecidableEq Json := fun a b =>
  decidable_of_iff (beq a b = true) ⟨eq_of_beq a b, fun h => h ▸ beq_self a⟩

end Equality

section Members

/-- The value of a member. -/
def lookup (key : String) : List (String × Json) → Option Json
  | [] => none
  | (k, v) :: members => if k = key then some v else lookup key members

/-- A member that is not there, put where its key stands in the order. -/
def insertNew (key : String) (value : Json) : List (String × Json) → List (String × Json)
  | [] => [(key, value)]
  | (k, v) :: members =>
    if key < k then (key, value) :: (k, v) :: members
    else (k, v) :: insertNew key value members

/-- The value of a member that is there, overwritten. -/
def replace (key : String) (value : Json) : List (String × Json) → List (String × Json)
  | [] => []
  | (k, v) :: members =>
    if k = key then (k, value) :: members else (k, v) :: replace key value members

/-- `Map::insert`. -/
def insert (key : String) (value : Json) (members : List (String × Json)) :
    List (String × Json) :=
  if (lookup key members).isSome then replace key value members
  else insertNew key value members

/-- `Map::remove`. -/
def remove (key : String) (members : List (String × Json)) : List (String × Json) :=
  members.filter fun member => member.1 ≠ key

variable {key other : String} {value : Json} {members : List (String × Json)}

theorem lookup_insertNew (key : String) (value : Json) (members : List (String × Json))
    (other : String) (h : lookup key members = none) :
    lookup other (insertNew key value members) =
      if other = key then some value else lookup other members := by
  induction members with
  | nil =>
    simp only [insertNew, lookup]
    by_cases hk : key = other
    · rw [if_pos hk, if_pos hk.symm]
    · rw [if_neg hk, if_neg (Ne.symm hk)]
  | cons member members ih =>
    obtain ⟨k, v⟩ := member
    have hne : k ≠ key := by
      rintro rfl
      rw [lookup, if_pos rfl] at h
      cases h
    rw [lookup, if_neg hne] at h
    rw [insertNew]
    split
    · simp only [lookup]
      by_cases hk : key = other
      · rw [if_pos hk, if_pos hk.symm]
      · rw [if_neg hk, if_neg (Ne.symm hk)]
    · simp only [lookup]
      rw [ih h]
      by_cases hk : k = other
      · rw [if_pos hk, if_pos hk, if_neg]
        rintro rfl
        exact hne hk
      · rw [if_neg hk, if_neg hk]

theorem lookup_replace (h : (lookup key members).isSome = true) :
    lookup other (replace key value members) =
      if other = key then some value else lookup other members := by
  induction members with
  | nil => cases h
  | cons member members ih =>
    obtain ⟨k, v⟩ := member
    rw [replace]
    by_cases hk : k = key
    · subst hk
      rw [if_pos rfl]
      simp only [lookup]
      by_cases hother : k = other
      · rw [if_pos hother, if_pos hother.symm]
      · rw [if_neg hother, if_neg (Ne.symm hother), if_neg hother]
    · rw [lookup, if_neg hk] at h
      rw [if_neg hk]
      simp only [lookup]
      rw [ih h]
      by_cases hother : k = other
      · rw [if_pos hother, if_pos hother, if_neg]
        rintro rfl
        exact hk hother
      · rw [if_neg hother, if_neg hother]

/-- What an insertion leaves at a key. -/
theorem lookup_insert (key : String) (value : Json) (members : List (String × Json))
    (other : String) : lookup other (insert key value members) =
      if other = key then some value else lookup other members := by
  rw [insert]
  by_cases h : (lookup key members).isSome = true
  · rw [if_pos h]
    exact lookup_replace h
  · rw [if_neg h]
    rw [Option.isSome_iff_ne_none, not_not] at h
    exact lookup_insertNew key value members other h

@[simp] theorem lookup_insert_self : lookup key (insert key value members) = some value := by
  rw [lookup_insert, if_pos rfl]

theorem lookup_insert_of_ne (h : other ≠ key) :
    lookup other (insert key value members) = lookup other members := by
  rw [lookup_insert, if_neg h]

/-- The key of a member is found. -/
theorem lookup_of_mem {member : String × Json} (h : member ∈ members) :
    (lookup member.1 members).isSome = true := by
  induction members with
  | nil => exact absurd h List.not_mem_nil
  | cons first members ih =>
    obtain ⟨k, v⟩ := first
    rw [lookup]
    split
    · rfl
    · next hne =>
      rcases List.mem_cons.mp h with rfl | h
      · exact absurd rfl hne
      · exact ih h

/-- What is found is a member. -/
theorem mem_of_lookup (h : lookup key members = some value) : (key, value) ∈ members := by
  induction members with
  | nil => cases h
  | cons first members ih =>
    obtain ⟨k, v⟩ := first
    rw [lookup] at h
    split at h
    · next hk =>
      rw [← hk, ← Option.some.inj h]
      exact List.mem_cons_self
    · exact List.mem_cons_of_mem _ (ih h)

/-- Inserting what is there changes nothing. -/
theorem insert_same (h : lookup key members = some value) : insert key value members = members := by
  have hsome : (lookup key members).isSome = true := by rw [h]; rfl
  rw [insert, if_pos hsome]
  clear hsome
  induction members with
  | nil => rfl
  | cons member members ih =>
    obtain ⟨k, v⟩ := member
    rw [lookup] at h
    rw [replace]
    by_cases hk : k = key
    · rw [if_pos hk] at h
      rw [if_pos hk, Option.some.inj h]
    · rw [if_neg hk] at h
      rw [if_neg hk, ih h]

theorem replace_replace (first second : Json) :
    replace key second (replace key first members) = replace key second members := by
  induction members with
  | nil => rfl
  | cons member members ih =>
    obtain ⟨k, v⟩ := member
    by_cases hk : k = key
    · simp only [replace, hk, if_true]
    · simp only [replace, hk, if_false, ih]

theorem replace_insertNew (first second : Json) (h : lookup key members = none) :
    replace key second (insertNew key first members) = insertNew key second members := by
  induction members with
  | nil => simp only [insertNew, replace, if_true]
  | cons member members ih =>
    obtain ⟨k, v⟩ := member
    have hne : k ≠ key := by
      rintro rfl
      rw [lookup, if_pos rfl] at h
      cases h
    rw [lookup, if_neg hne] at h
    rw [insertNew, insertNew]
    split
    · simp only [replace, if_true]
    · simp only [replace, hne, if_false, ih h]

/-- The later of two insertions at a key counts. -/
theorem insert_insert (first second : Json) :
    insert key second (insert key first members) = insert key second members := by
  have hsome : (lookup key (insert key first members)).isSome = true := by
    rw [lookup_insert_self]
    rfl
  rw [insert, if_pos hsome]
  by_cases h : (lookup key members).isSome = true
  · rw [insert, if_pos h, insert, if_pos h, replace_replace]
  · rw [insert, if_neg h, insert, if_neg h]
    rw [Option.isSome_iff_ne_none, not_not] at h
    exact replace_insertNew first second h

theorem remove_cons (key k : String) (v : Json) (members : List (String × Json)) :
    remove key ((k, v) :: members) =
      if k = key then remove key members else (k, v) :: remove key members := by
  simp only [remove, List.filter_cons, ne_eq, decide_not, Bool.not_eq_true',
    decide_eq_false_iff_not, ite_not]

theorem lookup_remove (key : String) (members : List (String × Json)) (other : String) :
    lookup other (remove key members) = if other = key then none else lookup other members := by
  induction members with
  | nil => exact (ite_self none).symm
  | cons member members ih =>
    obtain ⟨k, v⟩ := member
    rw [remove_cons, lookup]
    by_cases hk : k = key
    · rw [if_pos hk, ih]
      by_cases hother : other = key
      · rw [if_pos hother, if_pos hother]
      · rw [if_neg hother, if_neg hother, if_neg]
        rintro rfl
        exact hother hk
    · rw [if_neg hk, lookup, ih]
      by_cases hother : k = other
      · rw [if_pos hother, if_pos hother, if_neg]
        rintro rfl
        exact hk hother
      · rw [if_neg hother, if_neg hother]

/-- The members whose keys are chosen, where the inserted key is not. -/
theorem filter_insert (chosen : String → Bool) (hkey : chosen key = false) (value : Json)
    (members : List (String × Json)) :
    (insert key value members).filter (fun member => chosen member.1) =
      members.filter fun member => chosen member.1 := by
  have hskip (v : Json) (rest : List (String × Json)) :
      ((key, v) :: rest).filter (fun member => chosen member.1) =
        rest.filter fun member => chosen member.1 :=
    List.filter_cons_of_neg (by rw [hkey]; exact Bool.false_ne_true)
  rw [insert]
  split
  · induction members with
    | nil => rfl
    | cons member members ih =>
      obtain ⟨k, v⟩ := member
      rw [replace]
      split
      · next hk =>
        subst hk
        rw [hskip, hskip]
      · next hne hk =>
        rw [lookup, if_neg hk] at hne
        rw [List.filter_cons, List.filter_cons, ih hne]
  · clear * - hskip
    induction members with
    | nil => exact hskip value []
    | cons member members ih =>
      obtain ⟨k, v⟩ := member
      rw [insertNew]
      split
      · rw [hskip]
      · rw [List.filter_cons, List.filter_cons, ih]

theorem filter_remove (chosen : String → Bool) (hkey : chosen key = false)
    (members : List (String × Json)) :
    (remove key members).filter (fun member => chosen member.1) =
      members.filter fun member => chosen member.1 := by
  rw [remove, List.filter_filter]
  refine List.filter_congr fun member _ => ?_
  by_cases hk : member.1 = key
  · rw [hk, hkey, Bool.false_and]
  · rw [decide_eq_true hk, Bool.and_true]

/-- `entry(key).or_insert(value)`. -/
def orInsert (members : List (String × Json)) (field : String × Json) : List (String × Json) :=
  if (lookup field.1 members).isSome then members else insert field.1 field.2 members

/-- Fields put into a map leave its members as they are. -/
theorem lookup_foldl_orInsert (fields members : List (String × Json)) (other : String) :
    lookup other (fields.foldl orInsert members) =
      (lookup other members).or (lookup other fields) := by
  induction fields generalizing members with
  | nil => exact (Option.or_none).symm
  | cons field fields ih =>
    obtain ⟨k, v⟩ := field
    rw [List.foldl_cons, ih, orInsert, lookup]
    split
    · next hsome =>
      obtain ⟨w, hw⟩ := Option.isSome_iff_exists.mp hsome
      by_cases hk : k = other
      · subst hk
        rw [hw, Option.some_or, Option.some_or]
      · rw [if_neg hk]
    · next hnone =>
      rw [Option.isSome_iff_ne_none, not_not] at hnone
      rw [lookup_insert]
      by_cases hk : k = other
      · subst hk
        rw [if_pos rfl, if_pos rfl, hnone, Option.some_or, Option.none_or]
      · rw [if_neg hk, if_neg (Ne.symm hk)]

theorem filter_foldl_orInsert (chosen : String → Bool) {fields : List (String × Json)}
    (hfields : ∀ field ∈ fields, chosen field.1 = false) (members : List (String × Json)) :
    (fields.foldl orInsert members).filter (fun member => chosen member.1) =
      members.filter fun member => chosen member.1 := by
  induction fields generalizing members with
  | nil => rfl
  | cons field fields ih =>
    have hrest := ih (fun f hf => hfields f (List.mem_cons_of_mem _ hf)) (orInsert members field)
    rw [List.foldl_cons, hrest, orInsert]
    split
    · rfl
    · exact filter_insert chosen (hfields field List.mem_cons_self) _ _

end Members

section Access

/-- `Value::get` with a key. -/
def get (json : Json) (key : String) : Option Json :=
  match json with
  | .obj members => lookup key members
  | _ => none

/-- The views of `serde_json`: none where the value is of another kind. -/
def asArr : Json → Option (List Json)
  | .arr items => some items
  | _ => none

def asStr : Json → Option String
  | .str s => some s
  | _ => none

def asU64 : Json → Option ℕ
  | .num (.posInt n) => some n
  | _ => none

theorem asStr_eq_some {json : Json} {s : String} : json.asStr = some s ↔ json = .str s := by
  cases json with
  | str t => exact ⟨fun h => congrArg Json.str (Option.some.inj h), fun h => by rw [h]; rfl⟩
  | _ => exact ⟨fun h => (by cases h), fun h => (by cases h)⟩

/-- A member of an object, overwritten or added. -/
def set (json : Json) (key : String) (value : Json) : Json :=
  match json with
  | .obj members => .obj (insert key value members)
  | _ => json

def isObj : Json → Bool
  | .obj _ => true
  | _ => false

variable {json value : Json} {key other : String}

theorem get_set (h : json.isObj = true) (key : String) (value : Json) (other : String) :
    (json.set key value).get other = if other = key then some value else json.get other := by
  cases json with
  | obj members => exact lookup_insert key value members other
  | _ => cases h

theorem set_same (h : json.get key = some value) : json.set key value = json := by
  cases json with
  | obj members => exact congrArg Json.obj (insert_same h)
  | _ => rfl

/-- The last of two writes of a key counts. -/
theorem set_set (key : String) (first second : Json) :
    (json.set key first).set key second = json.set key second := by
  cases json with
  | obj members => exact congrArg Json.obj (insert_insert first second)
  | _ => rfl

theorem isObj_of_get (h : json.get key = some value) : json.isObj = true := by
  cases json with
  | obj members => rfl
  | _ => cases h

end Access

end Json
