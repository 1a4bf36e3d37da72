import Mathlib.Data.List.Infix

/-! Paths as texts: their components, by which two of them are compared, and how a name is
joined to a directory. -/
namespace PathText

/-- What a path begins with besides its names: the root, or the current directory. -/
def lead (path : List Char) : List (List Char) :=
  if path.head? = some '/' then [['/']]
  else if (path.splitOn '/').head? = some ['.'] then [['.']]
  else []

/-- A part that is left out: an empty one, and `.` behind the first. -/
def isName (part : List Char) : Bool := part ≠ [] && part ≠ ['.']

/-- The names in a path. -/
def names (path : List Char) : List (List Char) := (path.splitOn '/').filter isName

/-- `Path::components`. -/
def components (path : List Char) : List (List Char) := lead path ++ names path

/-- `Path::file_name`. -/
def fileName (path : List Char) : Option (List Char) :=
  (names path).getLast?.filter fun name => name ≠ ['.', '.']

/-- `Path::file_name` of `Path::parent`. -/
def parentFileName (path : List Char) : Option (List Char) :=
  (names path).dropLast.getLast?.filter fun name => name ≠ ['.', '.']

/-- `Path::join`. -/
def join (directory name : List Char) : List Char :=
  if name.head? = some '/' then name
  else if directory = [] ∨ directory.getLast? = some '/' then directory ++ name
  else directory ++ '/' :: name

theorem head?_splitOn_append (d x : List Char) :
    ((d ++ '/' :: x).splitOn '/').head? = (d.splitOn '/').head? := by
  rw [List.splitOn_append_cons_self]
  cases hd : d.splitOn '/' with
  | nil => exact absurd hd (List.splitOn_ne_nil '/' d)
  | cons part parts => rfl

theorem lead_append {d : List Char} (hd : d ≠ []) (x : List Char) :
    lead (d ++ '/' :: x) = lead d := by
  have hhead : (d ++ '/' :: x).head? = d.head? := by
    cases d with
    | nil => exact absurd rfl hd
    | cons c d => rfl
  rw [lead, hhead, head?_splitOn_append, lead]

/-- Behind a slash the lead does not depend on what follows. -/
theorem lead_append_slash (d x : List Char) : lead (d ++ '/' :: x) = lead (d ++ ['/']) := by
  cases d with
  | nil => rfl
  | cons c d => rw [lead_append (List.cons_ne_nil c d), lead_append (List.cons_ne_nil c d)]

/-- The names on both sides of a slash. -/
theorem names_append (d x : List Char) : names (d ++ '/' :: x) = names d ++ names x := by
  rw [names, List.splitOn_append_cons_self, List.filter_append]
  rfl

theorem names_of_not_mem {x : List Char} (hslash : '/' ∉ x) (hname : isName x = true) :
    names x = [x] := by
  rw [names, List.splitOn_eq_singleton hslash]
  exact List.filter_cons_of_pos hname

section Join

variable {name : List Char}

/-- Joining one name adds it to the components. -/
theorem components_join (directory : List Char) (hname : isName name = true)
    (hslash : '/' ∉ name) : components (join directory name) = components directory ++ [name] := by
  have hhead : name.head? ≠ some '/' := by
    intro h
    obtain ⟨rest, rfl⟩ := List.head?_eq_some_iff.mp h
    exact hslash List.mem_cons_self
  have hnames : names name = [name] := names_of_not_mem hslash hname
  rw [join, if_neg hhead]
  by_cases hdirectory : directory = [] ∨ directory.getLast? = some '/'
  · rw [if_pos hdirectory]
    rcases hdirectory with rfl | hlast
    · have hlead : lead name = [] := by
        have hdot : ([name] : List (List Char)).head? ≠ some ['.'] := by
          intro h
          rw [Option.some.inj h] at hname
          exact absurd hname (by decide)
        rw [lead, if_neg hhead, List.splitOn_eq_singleton hslash, if_neg hdot]
      rw [List.nil_append, components, hlead, hnames]
      rfl
    · obtain ⟨d, rfl⟩ := List.getLast?_eq_some_iff.mp hlast
      have hempty : names [] = [] := rfl
      rw [List.append_assoc, List.singleton_append, components, components, lead_append_slash,
        names_append, names_append, hnames, hempty, List.append_nil, List.append_assoc]
  · rw [if_neg hdirectory]
    rw [not_or] at hdirectory
    rw [components, components, lead_append hdirectory.1, names_append, hnames, List.append_assoc]

end Join

end PathText
