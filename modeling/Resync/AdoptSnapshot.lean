import Resync.CandidateLayers

/-! `adopt_exact_snapshot` (`remote.rs`): a directory without Git metadata becomes a checkout of
the hosted commit that its tracked files are those of. -/
namespace Resync

namespace Adoption

variable {β : Type}

/-- The history behind the fetch: the tips of the branches, and what
`rev-list --topo-order --all` lists. -/
structure History (β : Type) where
  tips : List (Commit (Tree β))
  revisions : List (Commit (Tree β))
  mem_revisions : ∀ c, c ∈ revisions ↔ ∃ tip ∈ tips, Commit.Ancestor c tip

/-- A directory. `link` tells the contents that are symbolic links. A path is denied where
`symlink_metadata` fails with another error than `NotFound`, as it does below a regular file. -/
structure Folder (β : Type) (link : β → Bool) where
  disk : Disk β
  denied : Path → Bool
  notDirectory : ∀ file content p, disk.files.get file = some content → link content = false →
    file <+: p → file ≠ p → disk.through p = none ∧ denied p = true
  through_above : ∀ p q, disk.through p ≠ none → q <+: p → disk.through q ≠ none

/-- What the adoption writes below `.git`. -/
structure GitDir (β : Type) where
  headRef : Branch
  heads : Branch → Option (Commit (Tree β))
  index : Tree β
  fetched : List (Commit (Tree β))
  upstream : Option Branch

structure Directory (β : Type) (link : β → Bool) where
  folder : Folder β link
  metadata : Option (GitDir β)

/-- The Git commands past `git init`. -/
inductive GitStep (β : Type) where
  | configureRemote | fetch | revList | log
  | readTree (oid : Commit (Tree β))
  | diff (oid : Commit (Tree β))
  | lsTree (oid : Commit (Tree β))
  | isAncestor (baseline head : Commit (Tree β))
  | symbolicRef | updateRef | reset | configRemote | configMerge

/-- What the surroundings answer: whether `git init` works and what it leaves else, which commands
cannot be run, for which commits `diff` ends with an error, whether `.git` can be removed, and
the texts of object IDs. -/
structure Answers (β : Type) where
  inits : Bool
  leftover : Option (GitDir β)
  fails : GitStep β → Bool
  diffErrors : Commit (Tree β) → Bool
  oidText : Commit (Tree β) → String

/-- What the adoption uses of the `CatalogProject` and of its arguments. -/
structure Project (β : Type) where
  destination : String
  defaultBranch : Branch
  advertisedHeads : List (Branch × Commit (Tree β))

section Adopt

variable [DecidableEq β]

/-- What `log --name-only` lists of a commit: the paths that it changes against its only parent,
all of them for a first commit, and nothing for a merge. Of a renamed file both names are
taken as listed, of which rename detection leaves the old one out. -/
def changedPaths (c : Commit (Tree β)) : Finset Path :=
  match c.parents with
  | [] => c.tree.keys
  | [parent] =>
    (c.tree.keys ∪ parent.tree.keys).filter fun p => c.tree.get p ≠ parent.tree.get p
  | _ => ∅

variable {link : β → Bool} (history : History β) (read : Path → Path)

/-- `diff --quiet` against the index finds nothing. -/
def Folder.matches (folder : Folder β link) (index : Tree β) : Bool :=
  decide (∀ p ∈ index.keys, folder.disk.files.get p = index.get p)

/-- `symlink_metadata` does not fail with `NotFound`. -/
def Folder.probe (folder : Folder β link) (p : Path) : Bool :=
  (folder.disk.lstat p).isSome || folder.denied p

/-- `has_historical_extras`; `read` is the path that the program makes of a name in Git's output. -/
def hasHistoricalExtras (folder : Folder β link) (tree : Tree β) : Bool :=
  decide (∃ c ∈ history.revisions, ∃ q ∈ changedPaths c,
    read q ∉ tree.keys.image read ∧ folder.probe (read q) = true)

variable (answers : Answers β) (project : Project β)

/-- The loop over the revisions. -/
def scan (folder : Folder β link) :
    List (Commit (Tree β)) → GitDir β → GitDir β × Except Failure (Option (Commit (Tree β)))
  | [], g => (g, .ok none)
  | oid :: rest, g =>
    if answers.fails (.readTree oid) then (g, .error .command)
    else
      let g := { g with index := oid.tree }
      if answers.fails (.diff oid) then (g, .error .command)
      else if answers.diffErrors oid || !folder.matches g.index then scan folder rest g
      else if answers.fails (.lsTree oid) then (g, .error .command)
      else if hasHistoricalExtras history read folder oid.tree then scan folder rest g
      else (g, .ok (some oid))

/-- `is_ancestor`: no commit is an ancestor of one that was not fetched. -/
def isAncestor (baseline head : Commit (Tree β)) : Except Failure Bool :=
  if answers.fails (.isAncestor baseline head) then .error .command
  else .ok (decide (head ∈ history.revisions ∧ Commit.Ancestor baseline head))

def firstBranch (baseline : Commit (Tree β)) :
    List (Branch × Commit (Tree β)) → Except Failure (Option Branch)
  | [] => .ok none
  | head :: rest => (isAncestor history answers baseline head.2).bind fun below =>
    if below then .ok (some head.1) else firstBranch baseline rest

/-- The branch of the baseline: the default one, if its head has the baseline below it. -/
def selectBranch (baseline : Commit (Tree β)) : Except Failure (Option Branch) :=
  ((project.advertisedHeads.find? fun head => head.1 = project.defaultBranch).elim (.ok false)
    fun head => isAncestor history answers baseline head.2).bind fun below =>
      if below then .ok (some project.defaultBranch)
      else firstBranch history answers baseline project.advertisedHeads

/-- What follows the choice of a branch. -/
def attach (branch : Branch) (baseline : Commit (Tree β)) (g : GitDir β) :
    GitDir β × Except Failure (Commit (Tree β)) :=
  if answers.fails .symbolicRef then (g, .error .command)
  else
    let g := { g with headRef := branch }
    if answers.fails .updateRef then (g, .error .command)
    else
      let g := { g with heads := Function.update g.heads branch (some baseline) }
      if answers.fails .reset then (g, .error .command)
      else
        let g := { g with index := baseline.tree }
        if answers.fails .configRemote || answers.fails .configMerge then (g, .error .command)
        else ({ g with upstream := some branch }, .ok baseline)

/-- The closure past `git init`, with the baseline that it has chosen. -/
def adoptInside (folder : Folder β link) (g : GitDir β) :
    GitDir β × Except Failure (Commit (Tree β)) :=
  if answers.fails .configureRemote || answers.fails .fetch then (g, .error .command)
  else
    let g := { g with fetched := history.tips }
    if answers.fails .revList || answers.fails .log then (g, .error .command)
    else
      let found := scan history read answers folder history.revisions g
      match found.2 with
      | .error e => (found.1, .error e)
      | .ok none => (found.1, .error (.bail (project.destination ++ " does not exactly match " ++
          "the tracked files of any hosted commit; refusing to adopt it")))
      | .ok (some baseline) =>
        match selectBranch history answers project baseline with
        | .error e => (found.1, .error e)
        | .ok none => (found.1, .error (.bail ("matching commit " ++ answers.oidText baseline ++
            " is not reachable from an advertised hosted branch")))
        | .ok (some branch) => attach answers branch baseline found.1

/-- `adopt_exact_snapshot`; `removes` says whether `remove_dir_all` removes the `.git` of a failed
adoption. -/
def adoptExactSnapshot (removes : Bool) (d : Directory β link) :
    Directory β link × Except Failure (Commit (Tree β)) :=
  if d.metadata.isSome then
    (d, .error (.bail (project.destination ++
      " contains Git metadata but is not a valid worktree")))
  else if answers.inits = false then ({ d with metadata := answers.leftover }, .error .command)
  else
    let fresh : GitDir β := ⟨project.defaultBranch, fun _ => none, .empty, [], none⟩
    let done := adoptInside history read answers project d.folder fresh
    ({ d with metadata := if !done.2.isOk && removes then none else some done.1 }, done.2)

end Adopt

section Steps

variable [DecidableEq β] {link : β → Bool} {history : History β} {read : Path → Path}
  {answers : Answers β} {project : Project β} {folder : Folder β link} {removes : Bool}

/-- What the scan stops at has the files of the directory and no extras. -/
theorem scan_sound {revisions : List (Commit (Tree β))} {g : GitDir β} {b : Commit (Tree β)}
    (h : (scan history read answers folder revisions g).2 = .ok (some b)) :
    b ∈ revisions ∧ folder.matches b.tree = true ∧
      hasHistoricalExtras history read folder b.tree = false := by
  induction revisions generalizing g with
  | nil => cases h
  | cons oid rest ih =>
    -- a commit that is passed over leaves everything to the rest
    have hrest : ∀ g', (scan history read answers folder rest g').2 = .ok (some b) →
        b ∈ oid :: rest ∧ folder.matches b.tree = true ∧
          hasHistoricalExtras history read folder b.tree = false :=
      fun g' h' => ⟨List.mem_cons_of_mem oid (ih h').1, (ih h').2⟩
    rw [scan] at h
    dsimp only at h
    split_ifs at h with hread hdiff hmatch htree hextra
    · exact hrest _ h
    · exact hrest _ h
    · obtain rfl : oid = b := Option.some.inj (Except.ok.inj h)
      rw [Bool.or_eq_true, not_or, Bool.not_eq_true', Bool.not_eq_false] at hmatch
      exact ⟨List.mem_cons_self, hmatch.2, Bool.eq_false_of_not_eq_true hextra⟩

/-- Where no command fails, the scan stops at some commit if one is as the directory is. -/
theorem scan_complete (hfails : ∀ step, answers.fails step = false)
    (hdiff : ∀ c, answers.diffErrors c = false) {revisions : List (Commit (Tree β))}
    {b : Commit (Tree β)} (hb : b ∈ revisions) (hmatch : folder.matches b.tree = true)
    (hextra : hasHistoricalExtras history read folder b.tree = false) (g : GitDir β) :
    ∃ c, (scan history read answers folder revisions g).2 = .ok (some c) := by
  induction revisions generalizing g with
  | nil => cases hb
  | cons oid rest ih =>
    have hrest : oid ≠ b → b ∈ rest := fun hne =>
      (List.mem_cons.mp hb).resolve_left (Ne.symm hne)
    rw [scan, if_neg (by rw [hfails]; exact Bool.false_ne_true)]
    dsimp only
    rw [if_neg (by rw [hfails]; exact Bool.false_ne_true), hdiff, Bool.false_or]
    -- the scan may stop here already, before it comes to `b`
    by_cases hm : folder.matches oid.tree = true
    · rw [hm, Bool.not_true, if_neg Bool.false_ne_true,
        if_neg (by rw [hfails]; exact Bool.false_ne_true)]
      by_cases he : hasHistoricalExtras history read folder oid.tree = true
      · rw [if_pos he]
        refine ih (hrest fun h => ?_) _
        rw [← h, he] at hextra
        cases hextra
      · rw [if_neg he]
        exact ⟨oid, rfl⟩
    · rw [Bool.eq_false_of_not_eq_true hm, Bool.not_false, if_pos rfl]
      refine ih (hrest fun h => ?_) _
      rw [h] at hm
      exact hm hmatch

omit [DecidableEq β] in
theorem attach_ok {branch : Branch} {baseline b : Commit (Tree β)} {g : GitDir β}
    (h : (attach answers branch baseline g).2 = .ok b) : b = baseline := by
  unfold attach at h
  split_ifs at h
  exact (Except.ok.inj h).symm

omit [DecidableEq β] in
theorem attach_complete (hfails : ∀ step, answers.fails step = false) (branch : Branch)
    (baseline : Commit (Tree β)) (g : GitDir β) :
    (attach answers branch baseline g).2 = .ok baseline := by
  simp only [attach, hfails, Bool.or_self, Bool.false_eq_true, if_false]

/-- A fetched commit that is advertised has a branch. -/
theorem selectBranch_complete (hfails : ∀ step, answers.fails step = false) {name : Branch}
    {baseline : Commit (Tree β)} (hmem : baseline ∈ history.revisions)
    (hhead : (name, baseline) ∈ project.advertisedHeads) :
    ∃ branch, selectBranch history answers project baseline = .ok (some branch) := by
  have hanc : ∀ head, isAncestor history answers baseline head =
      .ok (decide (head ∈ history.revisions ∧ Commit.Ancestor baseline head)) := by
    intro head
    rw [isAncestor, hfails, if_neg Bool.false_ne_true]
  have hfirst : ∀ heads : List (Branch × Commit (Tree β)), (name, baseline) ∈ heads →
      ∃ branch, firstBranch history answers baseline heads = .ok (some branch) := by
    intro heads hheads
    induction heads with
    | nil => cases hheads
    | cons head rest ih =>
      rw [firstBranch, hanc]
      by_cases hbelow : head.2 ∈ history.revisions ∧ Commit.Ancestor baseline head.2
      · exact ⟨head.1, by rw [Except.bind, decide_eq_true hbelow]; rfl⟩
      · rcases List.mem_cons.mp hheads with rfl | hrest
        · exact absurd ⟨hmem, CommitGraph.Ancestor.refl _⟩ hbelow
        · obtain ⟨branch, hbranch⟩ := ih hrest
          exact ⟨branch, by rw [Except.bind, decide_eq_false hbelow]; exact hbranch⟩
  obtain ⟨branch, hbranch⟩ := hfirst _ hhead
  rw [selectBranch]
  cases project.advertisedHeads.find? fun head => head.1 = project.defaultBranch with
  | none => exact ⟨branch, hbranch⟩
  | some head =>
    rw [Option.elim, hanc, Except.bind]
    by_cases hbelow : head.2 ∈ history.revisions ∧ Commit.Ancestor baseline head.2
    · exact ⟨project.defaultBranch, by rw [decide_eq_true hbelow]; rfl⟩
    · exact ⟨branch, by rw [decide_eq_false hbelow]; exact hbranch⟩

theorem adoptInside_sound {g : GitDir β} {b : Commit (Tree β)}
    (h : (adoptInside history read answers project folder g).2 = .ok b) :
    b ∈ history.revisions ∧ folder.matches b.tree = true ∧
      hasHistoricalExtras history read folder b.tree = false := by
  unfold adoptInside at h
  split_ifs at h
  dsimp only at h
  split at h
  · cases h
  · cases h
  · next baseline hscan =>
    split at h
    · cases h
    · cases h
    · next branch hbranch =>
      obtain rfl := attach_ok h
      exact scan_sound hscan

theorem adoptInside_complete (hfails : ∀ step, answers.fails step = false)
    (hdiff : ∀ c, answers.diffErrors c = false)
    (hheads : ∀ c ∈ history.revisions, ∃ name, (name, c) ∈ project.advertisedHeads)
    {b : Commit (Tree β)} (hb : b ∈ history.revisions) (hmatch : folder.matches b.tree = true)
    (hextra : hasHistoricalExtras history read folder b.tree = false) (g : GitDir β) :
    ∃ c, (adoptInside history read answers project folder g).2 = .ok c := by
  obtain ⟨c, hc⟩ := scan_complete hfails hdiff hb hmatch hextra { g with fetched := history.tips }
  obtain ⟨name, hname⟩ := hheads c (scan_sound hc).1
  obtain ⟨branch, hbranch⟩ :=
    selectBranch_complete hfails (scan_sound hc).1 hname
  refine ⟨c, ?_⟩
  simp only [adoptInside, hfails, Bool.or_self, Bool.false_eq_true, if_false, hc, hbranch]
  exact attach_complete hfails branch c _

/-- An adopted commit was fetched; the directory has its files and no extras. -/
theorem adopt_sound {d : Directory β link} {b : Commit (Tree β)}
    (h : (adoptExactSnapshot history read answers project removes d).2 = .ok b) :
    b ∈ history.revisions ∧ d.folder.matches b.tree = true ∧
      hasHistoricalExtras history read d.folder b.tree = false := by
  unfold adoptExactSnapshot at h
  split at h
  · cases h
  · split at h
    · cases h
    · exact adoptInside_sound h

/-- No step writes outside `.git`. -/
theorem adopt_folder (d : Directory β link) :
    (adoptExactSnapshot history read answers project removes d).1.folder = d.folder := by
  unfold adoptExactSnapshot
  split
  · rfl
  · split
    · rfl
    · rfl

/-- The directory after `git init` has worked. -/
theorem adopt_of_init (history : History β) (read : Path → Path) (project : Project β)
    (folder : Folder β link) (removes : Bool) (hinit : answers.inits = true) :
    ∃ g, let done := adoptInside history read answers project folder g
      adoptExactSnapshot history read answers project removes ⟨folder, none⟩ =
        (⟨folder, if !done.2.isOk && removes then none else some done.1⟩, done.2) := by
  have hinits : ¬ answers.inits = false := by
    rw [hinit]
    exact Bool.true_eq_false_eq_False
  refine ⟨⟨project.defaultBranch, fun _ => none, .empty, [], none⟩, ?_⟩
  unfold adoptExactSnapshot
  rw [if_neg (show ¬ (none : Option (GitDir β)).isSome = true from Bool.false_ne_true),
    if_neg hinits]

end Steps

section Standing

variable {link : β → Bool} {folder : Folder β link}

theorem lstat_ne_none_iff {disk : Disk β} {p : Path} : disk.lstat p ≠ none ↔
    (∃ f ∈ disk.files.keys, p <+: f) ∨ (∃ e ∈ disk.emptyDirs, p <+: e) ∨
      ((∃ f ∈ disk.files.keys, f <+: p) ∧ disk.through p ≠ none) := by
  constructor
  · intro h
    unfold Disk.lstat at h
    split_ifs at h with hfile hbelow habove
    · exact Or.inl ⟨p, (disk.files.mem_keys p).mpr (Option.isSome_iff_ne_none.mp hfile),
        List.prefix_rfl⟩
    · rcases hbelow with ⟨f, hf, hpf, -⟩ | hempty
      · exact Or.inl ⟨f, hf, hpf⟩
      · exact Or.inr (Or.inl hempty)
    · exact Or.inr (Or.inr ⟨habove, h⟩)
    · exact absurd rfl h
  · intro h
    by_cases hfile : disk.files.get p = none
    · rw [Disk.lstat, if_neg (by rw [hfile]; exact Bool.false_ne_true)]
      by_cases hdir : disk.files.HasBelow p ∨ ∃ e ∈ disk.emptyDirs, p <+: e
      · rw [if_pos hdir]
        exact Option.some_ne_none _
      · rcases h with ⟨f, hf, hpf⟩ | hempty | ⟨habove, hthrough⟩
        · refine absurd (Or.inl ⟨f, hf, hpf, ?_⟩) hdir
          rintro rfl
          exact (disk.files.mem_keys p).mp hf hfile
        · exact absurd (Or.inr hempty) hdir
        · rw [if_neg hdir, if_pos habove]
          exact hthrough
    · rw [Disk.lstat_of_file hfile]
      exact Option.some_ne_none _

/-- What lies above something lies on disk too. -/
theorem lstat_above {p q : Path} (h : folder.disk.lstat p ≠ none) (hq : q <+: p) :
    folder.disk.lstat q ≠ none := by
  rw [lstat_ne_none_iff] at h ⊢
  rcases h with ⟨f, hf, hpf⟩ | ⟨e, he, hpe⟩ | ⟨⟨f, hf, hfp⟩, hthrough⟩
  · exact Or.inl ⟨f, hf, hq.trans hpf⟩
  · exact Or.inr (Or.inl ⟨e, he, hq.trans hpe⟩)
  · -- behind a link, or at the link and above it
    rcases List.prefix_or_prefix_of_prefix hfp hq with hfq | hqf
    · exact Or.inr (Or.inr ⟨⟨f, hf, hfq⟩, folder.through_above p q hthrough hq⟩)
    · exact Or.inl ⟨f, hf, hqf⟩

/-- Nothing stands below a regular file. -/
theorem lstat_below {f p : Path} {content : β} (hf : folder.disk.files.get f = some content)
    (hlink : link content = false) (hfp : f <+: p) (hne : f ≠ p) : folder.disk.lstat p = none := by
  have hfile : folder.disk.files.get f ≠ none := by
    rw [hf]
    exact Option.some_ne_none content
  by_contra hp
  rcases lstat_ne_none_iff.mp hp with ⟨k, hk, hpk⟩ | ⟨e, he, hpe⟩ | ⟨-, hthrough⟩
  · obtain rfl := folder.disk.files.prefix_free f k hfile ((folder.disk.files.mem_keys k).mp hk)
      (hfp.trans hpk)
    exact hne (hfp.eq_of_length_le hpk.length_le)
  · exact folder.disk.empty e he f ((folder.disk.files.mem_keys f).mpr hfile)
      (Or.inr (hfp.trans hpe))
  · exact hthrough (folder.notDirectory f content p hf hlink hfp hne).1

end Standing

section Exactness

variable [DecidableEq β] (history : History β) (read : Path → Path) (link : β → Bool)

/-- The directory has the tracked files of the commit, and nothing that is tracked elsewhere. -/
structure Exact {link : β → Bool} (folder : Folder β link) (b : Commit (Tree β)) : Prop where
  tracked : ∀ p ∈ b.tree.keys, folder.disk.files.get p = b.tree.get p
  others : ∀ c ∈ history.revisions, ∀ p ∈ c.tree.keys, p ∉ b.tree.keys →
    folder.disk.lstat p = none

/-- What an adoption should do with every directory, whatever its surroundings answer. -/
def AdoptsExactly (removes : Bool) : Prop :=
  ∀ (folder : Folder β link) (answers : Answers β) (project : Project β),
    let out := adoptExactSnapshot history read answers project removes ⟨folder, none⟩
    (∀ b, out.2 = .ok b → Exact history folder b) ∧ out.1.folder = folder ∧
      (answers.inits = true → (∀ b, out.2 ≠ .ok b) → out.1.metadata = none)

/-- The tree has a file there that is no symbolic link. -/
def IsRegular (t : Tree β) (f : Path) : Prop :=
  ∃ content, t.get f = some content ∧ link content = false

/-- A path can be on disk beside the files of the commit: no regular one is above it. -/
def CanStand (b : Commit (Tree β)) (p : Path) : Prop :=
  ∀ f ∈ b.tree.keys, f <+: p → ¬ IsRegular link b.tree f

/-- With the path on disk beside the files of the commit, the scan finds an extra: a listed name
that the commit does not have is at or above the path or one of the files, or below a regular
file. -/
def Refused (b : Commit (Tree β)) (p : Path) : Prop :=
  ∃ c ∈ history.revisions, ∃ q ∈ changedPaths c, read q ∉ b.tree.keys.image read ∧
    (read q <+: p ∨ (∃ f ∈ b.tree.keys, read q <+: f) ∨
      ∃ f, IsRegular link b.tree f ∧ f <+: read q ∧ f ≠ read q)

/-- What is tracked in one commit and not in another is found by the scan of the other. -/
def HistoryIsSeen : Prop :=
  ∀ b ∈ history.revisions, ∀ c ∈ history.revisions, ∀ p ∈ c.tree.keys, p ∉ b.tree.keys →
    CanStand link b p → Refused history read link b p

/-- The files of the commit, and the path. -/
def beside (b : Commit (Tree β)) (p : Path) (h : CanStand link b p) : Folder β link where
  disk :=
    { files := b.tree
      emptyDirs := if ∃ f ∈ b.tree.keys, Comparable p f then ∅ else {p}
      through := fun q => if q <+: p then some .directory else none
      empty := fun e he f hf hcomp => by
        split at he
        · exact Finset.notMem_empty e he
        · next hnone =>
          rw [Finset.mem_singleton.mp he] at hcomp
          exact hnone ⟨f, hf, hcomp⟩ }
  denied q := decide (∃ f ∈ b.tree.keys,
    (b.tree.get f).any (fun content => !link content) = true ∧ f <+: q ∧ f ≠ q)
  notDirectory file content q hfile hlink hpre hne := by
    refine ⟨if_neg fun hq => ?_, ?_⟩
    · exact h file ((b.tree.mem_keys file).mpr (by rw [hfile]; exact Option.some_ne_none _))
        (hpre.trans hq) ⟨content, hfile, hlink⟩
    · refine decide_eq_true ⟨file, (b.tree.mem_keys file).mpr ?_, ?_, hpre, hne⟩
      · rw [hfile]
        exact Option.some_ne_none _
      · rw [hfile, Option.any_some, hlink, Bool.not_false]
  through_above q r hq hr := by
    dsimp only at hq ⊢
    by_cases hqp : q <+: p
    · rw [if_pos (hr.trans hqp)]
      exact Option.some_ne_none _
    · rw [if_neg hqp] at hq
      exact absurd rfl hq

variable {history : History β} {read : Path → Path} {link : β → Bool}

theorem matches_iff {folder : Folder β link} {t : Tree β} :
    folder.matches t = true ↔ ∀ p ∈ t.keys, folder.disk.files.get p = t.get p := decide_eq_true_iff

theorem hasHistoricalExtras_iff {folder : Folder β link} {t : Tree β} :
    hasHistoricalExtras history read folder t = true ↔ ∃ c ∈ history.revisions,
      ∃ q ∈ changedPaths c, read q ∉ t.keys.image read ∧
        (folder.disk.lstat (read q) ≠ none ∨ folder.denied (read q) = true) := by
  simp only [hasHistoricalExtras, Folder.probe, decide_eq_true_iff, Bool.or_eq_true,
    Option.isSome_iff_ne_none]

omit [DecidableEq β] in
theorem lstat_beside {b : Commit (Tree β)} {p : Path} (h : CanStand link b p) (q : Path) :
    (beside link b p h).disk.lstat q ≠ none ↔ q <+: p ∨ ∃ f ∈ b.tree.keys, q <+: f := by
  rw [lstat_ne_none_iff]
  constructor
  · rintro (hfile | ⟨e, he, hqe⟩ | ⟨-, hthrough⟩)
    · exact Or.inr hfile
    · left
      dsimp only [beside] at he
      split at he
      · exact absurd he (Finset.notMem_empty e)
      · rwa [← Finset.mem_singleton.mp he]
    · left
      by_contra hq
      exact hthrough (if_neg hq)
  · rintro (hq | hfile)
    · by_cases hcomp : ∃ f ∈ b.tree.keys, Comparable p f
      · obtain ⟨f, hf, hpf | hfp⟩ := hcomp
        · exact Or.inl ⟨f, hf, hq.trans hpf⟩
        · rcases List.prefix_or_prefix_of_prefix hfp hq with hfq | hqf
          · refine Or.inr (Or.inr ⟨⟨f, hf, hfq⟩, ?_⟩)
            exact ne_of_eq_of_ne (if_pos hq) (Option.some_ne_none _)
          · exact Or.inl ⟨f, hf, hqf⟩
      · refine Or.inr (Or.inl ⟨p, ?_, hq⟩)
        dsimp only [beside]
        rw [if_neg hcomp]
        exact Finset.mem_singleton_self p
    · exact Or.inl hfile

omit [DecidableEq β] in
theorem denied_beside {b : Commit (Tree β)} {p : Path} (h : CanStand link b p) {q : Path}
    (hq : (beside link b p h).denied q = true) :
    ∃ f, IsRegular link b.tree f ∧ f <+: q ∧ f ≠ q := by
  obtain ⟨f, hf, hany, hpre, hne⟩ := of_decide_eq_true hq
  obtain ⟨content, hget, hlink⟩ := (Option.any_eq_true _ _).mp hany
  exact ⟨f, ⟨content, hget, Bool.not_eq_true' _ ▸ hlink⟩, hpre, hne⟩

/-- The directory with the files of the commit and the path has extras only if the commit is
refused there. -/
theorem refused_of_extras {b : Commit (Tree β)} {p : Path} (h : CanStand link b p)
    (hextra : hasHistoricalExtras history read (beside link b p h) b.tree = true) :
    Refused history read link b p := by
  obtain ⟨c, hc, q, hq, hnew, hprobe⟩ := hasHistoricalExtras_iff.mp hextra
  refine ⟨c, hc, q, hq, hnew, ?_⟩
  rcases hprobe with hstat | hdenied
  · rcases (lstat_beside h (read q)).mp hstat with hqp | hfile
    · exact Or.inl hqp
    · exact Or.inr (Or.inl hfile)
  · exact Or.inr (Or.inr (denied_beside h hdenied))

/-- A commit is refused wherever its files and the path stand. -/
theorem extras_of_refused {folder : Folder β link} {b : Commit (Tree β)} {p : Path}
    (hmatch : folder.matches b.tree = true) (hp : folder.disk.lstat p ≠ none)
    (hrefused : Refused history read link b p) :
    hasHistoricalExtras history read folder b.tree = true := by
  obtain ⟨c, hc, q, hq, hnew, hplace⟩ := hrefused
  refine hasHistoricalExtras_iff.mpr ⟨c, hc, q, hq, hnew, ?_⟩
  rcases hplace with hqp | ⟨f, hf, hqf⟩ | ⟨f, ⟨content, hget, hlink⟩, hfq, hne⟩
  · exact Or.inl (lstat_above hp hqp)
  · left
    have hdisk : folder.disk.files.get f ≠ none := by
      rw [matches_iff.mp hmatch f hf]
      exact (b.tree.mem_keys f).mp hf
    exact lstat_ne_none_iff.mpr (Or.inl ⟨f, (folder.disk.files.mem_keys f).mpr hdisk, hqf⟩)
  · right
    have hf : f ∈ b.tree.keys := (b.tree.mem_keys f).mpr (by rw [hget]; exact Option.some_ne_none _)
    exact (folder.notDirectory f content (read q) ((matches_iff.mp hmatch f hf).trans hget) hlink
      hfq hne).2

theorem canStand_of_lstat {folder : Folder β link} {b : Commit (Tree β)} {p : Path}
    (hmatch : folder.matches b.tree = true) (hnew : p ∉ b.tree.keys)
    (hp : folder.disk.lstat p ≠ none) : CanStand link b p := by
  rintro f hf hfp ⟨content, hget, hlink⟩
  have hne : f ≠ p := by
    rintro rfl
    exact hnew hf
  exact hp (lstat_below ((matches_iff.mp hmatch f hf).trans hget) hlink hfp hne)

/-- In a seen history the adopted commit is exact. -/
theorem exact_of_seen (hseen : HistoryIsSeen history read link) {folder : Folder β link}
    {b : Commit (Tree β)} (hb : b ∈ history.revisions) (hmatch : folder.matches b.tree = true)
    (hextra : hasHistoricalExtras history read folder b.tree = false) :
    Exact history folder b where
  tracked := matches_iff.mp hmatch
  others c hc p hp hnew := by
    by_contra hstat
    have hrefused := hseen b hb c hc p hp hnew (canStand_of_lstat hmatch hnew hstat)
    rw [extras_of_refused hmatch hstat hrefused] at hextra
    cases hextra

/-- Surroundings in which nothing fails, and in which each fetched commit is advertised. -/
def willing : Answers β := ⟨true, none, fun _ => false, fun _ => false, fun _ => ""⟩

def advertising (history : History β) : Project β :=
  ⟨"", "main", history.revisions.map fun c => ("main", c)⟩

/-- A commit that is not refused with an untracked path beside it makes the adoption take some
commit whose files are among its own, and the path stands there untracked. -/
theorem seen_of_exact {removes : Bool} (h : AdoptsExactly history read link removes) :
    HistoryIsSeen history read link := by
  intro b hb c hc p hp hnew hstand
  by_contra hrefused
  have hmatch : (beside link b p hstand).matches b.tree = true := matches_iff.mpr fun _ _ => rfl
  have hextra : hasHistoricalExtras history read (beside link b p hstand) b.tree = false :=
    Bool.eq_false_of_not_eq_true fun hextra => hrefused (refused_of_extras hstand hextra)
  have hinit : (willing : Answers β).inits = true := rfl
  have hfails : ∀ step : GitStep β, willing.fails step = false := fun _ => rfl
  have hheads : ∀ c ∈ history.revisions, ∃ name,
      (name, c) ∈ (advertising history).advertisedHeads :=
    fun c hc => ⟨"main", List.mem_map_of_mem hc⟩
  obtain ⟨g, hrun⟩ := adopt_of_init history read (advertising history) (beside link b p hstand)
    removes hinit
  obtain ⟨taken, htaken⟩ :=
    adoptInside_complete hfails (fun _ => rfl) hheads hb hmatch hextra g
  have hok : (adoptExactSnapshot history read willing (advertising history) removes
      ⟨beside link b p hstand, none⟩).2 = .ok taken := (congrArg Prod.snd hrun).trans htaken
  have hexact := (h (beside link b p hstand) willing (advertising history)).1 taken hok
  -- the commit that is taken may be another than `b`, but it has none of the files that `b` lacks
  have hfewer : p ∉ taken.tree.keys := by
    intro hpt
    have hget : b.tree.get p = taken.tree.get p := hexact.tracked p hpt
    rw [(b.tree.get_eq_none_iff p).mpr hnew] at hget
    exact (taken.tree.mem_keys p).mp hpt hget.symm
  exact (lstat_beside hstand p).mpr (Or.inl List.prefix_rfl) (hexact.others c hc p hp hfewer)

/-- No file, and no commands past `git init`. -/
theorem removes_of_exact {removes : Bool} (h : AdoptsExactly history read link removes) :
    removes = true := by
  let folder : Folder β link :=
    ⟨⟨.empty, ∅, fun _ => none, fun _ h => absurd h (Finset.notMem_empty _)⟩, fun _ => false,
      fun _ _ _ h => absurd h.symm (Option.some_ne_none _), fun _ _ h => absurd rfl h⟩
  let answers : Answers β := { willing with fails := fun _ => true }
  have hinit : answers.inits = true := rfl
  obtain ⟨g, hrun⟩ := adopt_of_init history read (advertising history) folder removes hinit
  have hdone : adoptInside history read answers (advertising history) folder g =
      (g, .error .command) := if_pos rfl
  rw [hdone] at hrun
  have hnone := (h folder answers (advertising history)).2.2 rfl
  rw [hrun] at hnone
  by_contra hkeeps
  rw [Bool.eq_false_of_not_eq_true hkeeps] at hnone
  have hgone := hnone fun b hb => by cases hb
  cases hgone

/-- The adoption is exact in every directory and whatever fails, just if `.git` can be removed and
the history is seen. -/
theorem adopts_exactly_iff (history : History β) (read : Path → Path) (link : β → Bool)
    (removes : Bool) :
    AdoptsExactly history read link removes ↔
      removes = true ∧ HistoryIsSeen history read link := by
  constructor
  · intro h
    exact ⟨removes_of_exact h, seen_of_exact h⟩
  · rintro ⟨hremoves, hseen⟩ folder answers project
    refine ⟨fun b hb => ?_, adopt_folder _, fun hinit hfails => ?_⟩
    · obtain ⟨hmem, hmatch, hextra⟩ := adopt_sound hb
      exact exact_of_seen hseen hmem hmatch hextra
    · obtain ⟨g, hrun⟩ := adopt_of_init history read project folder removes hinit
      rw [hrun] at hfails ⊢
      have herror : (adoptInside history read answers project folder g).2.isOk = false := by
        cases hdone : (adoptInside history read answers project folder g).2 with
        | ok b => exact absurd hdone (hfails b)
        | error e => rfl
      dsimp only
      rw [herror, hremoves]
      rfl

omit [DecidableEq β] in
theorem parent_mem_revisions {c parent : Commit (Tree β)} (hc : c ∈ history.revisions)
    (hparent : parent ∈ c.parents) : parent ∈ history.revisions := by
  obtain ⟨tip, htip, hanc⟩ := (history.mem_revisions c).mp hc
  exact (history.mem_revisions parent).mpr
    ⟨tip, htip, (CommitGraph.ancestor_of_mem_parents hparent).trans hanc⟩

/-- Where every merge takes its paths from its parents, each path is listed for the commit that
adds it. -/
theorem listed_of_plain_merges (hmerges : ∀ c ∈ history.revisions, 2 ≤ c.parents.length →
      ∀ p ∈ c.tree.keys, ∃ parent ∈ c.parents, p ∈ parent.tree.keys)
    {c : Commit (Tree β)} (hc : c ∈ history.revisions) {p : Path} (hp : p ∈ c.tree.keys) :
    ∃ d ∈ history.revisions, p ∈ changedPaths d := by
  induction hdepth : c.depth using Nat.strong_induction_on generalizing c with
  | _ depth ih =>
    have hinherit : ∀ parent ∈ c.parents, p ∈ parent.tree.keys →
        ∃ d ∈ history.revisions, p ∈ changedPaths d := fun parent hparent hpp =>
      ih parent.depth (hdepth ▸ (Commit.graph _).depth_lt c parent hparent)
        (parent_mem_revisions hc hparent) hpp rfl
    -- a first commit lists all its paths, an ordinary one those that are new to its parent
    rcases hparents : c.parents with _ | ⟨parent, _ | ⟨other, rest⟩⟩
    · exact ⟨c, hc, by rw [changedPaths, hparents]; exact hp⟩
    · by_cases hpp : p ∈ parent.tree.keys
      · exact hinherit parent (by rw [hparents]; exact List.mem_singleton_self parent) hpp
      · refine ⟨c, hc, ?_⟩
        rw [changedPaths, hparents]
        refine Finset.mem_filter.mpr ⟨Finset.mem_union_left _ hp, fun hget => ?_⟩
        rw [(parent.tree.get_eq_none_iff p).mpr hpp] at hget
        exact (c.tree.mem_keys p).mp hp hget
    · obtain ⟨source, hsource, hps⟩ := hmerges c hc
        (by rw [hparents, List.length_cons, List.length_cons]; omega) p hp
      exact hinherit source hsource hps

/-- Such a history is seen, if the program reads Git's names as they are. -/
theorem seen_of_plain_merges (hmerges : ∀ c ∈ history.revisions, 2 ≤ c.parents.length →
      ∀ p ∈ c.tree.keys, ∃ parent ∈ c.parents, p ∈ parent.tree.keys) :
    HistoryIsSeen history id link := by
  intro b _ c hc p hp hnew _
  obtain ⟨d, hd, hlisted⟩ := listed_of_plain_merges hmerges hc hp
  refine ⟨d, hd, p, hlisted, ?_, Or.inl List.prefix_rfl⟩
  rwa [Finset.image_id, id_eq]

end Exactness

section EvilMerge

def firstCommit : Commit (Tree ℕ) := .mk [] (filesOf [(["f"], 0)]) plainInfo

def changesFile : Commit (Tree ℕ) := .mk [firstCommit] (filesOf [(["f"], 1)]) plainInfo

def addsOther : Commit (Tree ℕ) :=
  .mk [firstCommit] (filesOf [(["f"], 0), (["g"], 0)]) plainInfo

/-- A merge that adds a path of its own. -/
def addingMerge : Commit (Tree ℕ) :=
  .mk [changesFile, addsOther] (filesOf [(["f"], 1), (["g"], 0), (["evil"], 0)]) plainInfo

def mergedHistory : History ℕ where
  tips := [addingMerge]
  revisions := addingMerge.reachable
  mem_revisions c := by
    rw [Commit.mem_reachable]
    exact ⟨fun h => ⟨addingMerge, List.mem_singleton_self _, h⟩, fun ⟨tip, htip, h⟩ =>
      List.mem_singleton.mp htip ▸ h⟩

/-- The files of the first commit, with other content at the path that the merge adds. -/
def oldCopy : Folder ℕ fun _ => false where
  disk := ⟨filesOf [(["f"], 0), (["evil"], 9)], ∅, fun _ => none,
    fun _ h => absurd h (Finset.notMem_empty _)⟩
  denied p := decide (∃ f ∈ (filesOf [(["f"], 0), (["evil"], 9)]).keys, f <+: p ∧ f ≠ p)
  notDirectory file content p hfile _ hpre hne := ⟨rfl, decide_eq_true
    ⟨file, (FiniteMap.mem_keys _ file).mpr (by rw [hfile]; exact Option.some_ne_none _), hpre, hne⟩⟩
  through_above _ _ h := absurd rfl h

/-- The directory is adopted at the first commit, where `evil` is not tracked. -/
theorem merge_path_is_missed :
    (adoptExactSnapshot mergedHistory id willing (advertising mergedHistory) true
        ⟨oldCopy, none⟩).2 = .ok firstCommit ∧
      addingMerge ∈ mergedHistory.revisions ∧ ["evil"] ∈ addingMerge.tree.keys ∧
      ["evil"] ∉ firstCommit.tree.keys ∧ oldCopy.disk.lstat ["evil"] = some .other ∧
      ¬ AdoptsExactly mergedHistory id (fun _ : ℕ => false) true := by
  have hrun : (adoptExactSnapshot mergedHistory id willing (advertising mergedHistory) true
      ⟨oldCopy, none⟩).2 = .ok firstCommit := by decide
  have hmerge : addingMerge ∈ mergedHistory.revisions := by decide
  have htracked : ["evil"] ∈ addingMerge.tree.keys := by decide
  have hnew : ["evil"] ∉ firstCommit.tree.keys := by decide
  have hstat : oldCopy.disk.lstat ["evil"] = some .other := by decide
  refine ⟨hrun, hmerge, htracked, hnew, hstat, fun h => ?_⟩
  have hexact := (h oldCopy willing (advertising mergedHistory)).1 firstCommit hrun
  have hnone := hexact.others addingMerge hmerge _ htracked hnew
  rw [hstat] at hnone
  cases hnone

end EvilMerge

end Adoption

end Resync
