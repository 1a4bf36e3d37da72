import Resync.Git.Repository
import Resync.Lib.Splitting
import Resync.Lib.Utf8
import Mathlib.Data.Finset.Insert

/-! The names that `tree_paths` and `find_untracked_collisions` (`git_state.rs`) read in Git's
`-z` output, which `run` (`process.rs`) has decoded, and the files that they stand for. -/
namespace Resync

namespace DecodedPaths

/-- Paths as Git stores them. -/
structure GitPaths where
  paths : List (List UInt8)
  distinct : paths.Nodup
  nonempty : ∀ p ∈ paths, p ≠ []
  noNul : ∀ p ∈ paths, 0 ∉ p

/-- What Git writes for paths with `-z`. -/
def terminated (paths : List (List UInt8)) : List UInt8 := paths.flatMap (· ++ [0])

/-- The field `stdout` that `run` returns. -/
def stdout (output : List UInt8) : List Char := Utf8.decodeLossy output

/-- The parts between NUL characters that are not empty. -/
def names (output : List UInt8) : List (List Char) :=
  ((stdout output).splitOn (Char.ofNat 0)).filter (· ≠ [])

/-- `tree_paths`, on what `ls-tree -r --name-only -z` writes. -/
def treePaths (lsTree : Option (List UInt8)) : Option (List (List Char)) := lsTree.map names

/-- What the search learns of a checkout: the outputs of `ls-files --cached -z` and, for a
candidate, of `ls-files --others -z`, and what `symlink_metadata` finds at a path. -/
structure Checkout where
  cached : Option (List UInt8)
  others : List Char → Option (List UInt8)
  kind : List UInt8 → Option FileKind

def ancestors (candidate : List Char) : List (List Char) :=
  let pieces := candidate.splitOn '/'
  (List.range' 1 (pieces.length - 1)).map fun index => ['/'].intercalate (pieces.take index)

variable (w : Checkout) (tracked : List (List Char))

/-- The first ancestor that is no directory and is not tracked. -/
def ancestorCollision (candidate : List Char) : Option (List Char) :=
  (ancestors candidate).find? fun ancestor =>
    w.kind (Utf8.encode ancestor) = some .other ∧ ancestor ∉ tracked

/-- What the loop inserts for a candidate; `none` outside when `ls-files` fails. -/
def candidateCollision (candidate : List Char) : Option (Option (List Char)) :=
  (ancestorCollision w tracked candidate).elim
    (if candidate ∈ tracked then some none
    else (w.kind (Utf8.encode candidate)).elim (some none) fun kind =>
      if kind ≠ .directory then some (some candidate)
      else if tracked.any (fun path => (candidate ++ ['/']).isPrefixOf path) then
        (w.others candidate).map fun untracked =>
          if stdout untracked ≠ [] then some candidate else none
      else some (some candidate))
    fun ancestor => some (some ancestor)

def collisionLoop : List (List Char) → Finset (List Char) → Option (Finset (List Char))
  | [], collisions => some collisions
  | candidate :: rest, collisions =>
    (candidateCollision w tracked candidate).bind fun found =>
      collisionLoop rest (found.elim collisions (insert · collisions))

/-- `find_untracked_collisions`. -/
def findUntrackedCollisions (candidateTracked : List (List Char)) :
    Option (Finset (List Char)) :=
  w.cached.bind fun current => collisionLoop w (names current) candidateTracked ∅

/-- The collisions for which `install_candidate` refuses to go on; it goes on with none. -/
def installCollisions (lsTree : Option (List UInt8)) : Option (Finset (List Char)) :=
  (treePaths lsTree).bind (findUntrackedCollisions w)

section Decoding

variable {paths : List (List UInt8)}

theorem stdout_terminated_cons {p : List UInt8} (hp : 0 ∉ p) :
    stdout (terminated (p :: paths)) =
      Utf8.decodeLossy p ++ Char.ofNat 0 :: stdout (terminated paths) := by
  have hcons : terminated (p :: paths) = p ++ 0 :: terminated paths := by
    rw [terminated, List.flatMap_cons, List.append_assoc]
    rfl
  rw [stdout, hcons, Utf8.decodeLossy_append_zero hp]
  rfl

/-- One name for each path: its bytes, decoded. -/
theorem names_terminated (hne : ∀ p ∈ paths, p ≠ []) (hnul : ∀ p ∈ paths, 0 ∉ p) :
    names (terminated paths) = paths.map Utf8.decodeLossy := by
  induction paths with
  | nil => rfl
  | cons p paths ih =>
    have hp := hnul p List.mem_cons_self
    have hrest := ih (fun q hq => hne q (List.mem_cons_of_mem p hq))
      fun q hq => hnul q (List.mem_cons_of_mem p hq)
    have hname : Utf8.decodeLossy p ≠ [] := Utf8.decodeLossy_ne_nil (hne p List.mem_cons_self)
    have hone : (Utf8.decodeLossy p).splitOn (Char.ofNat 0) = [Utf8.decodeLossy p] :=
      List.splitOn_eq_singleton (Utf8.nul_not_mem_decodeLossy hp)
    have hkeep (rest : List (List Char)) :
        (Utf8.decodeLossy p :: rest).filter (· ≠ []) =
          Utf8.decodeLossy p :: rest.filter (· ≠ []) :=
      List.filter_cons_of_pos (decide_eq_true hname)
    rw [names, stdout_terminated_cons hp, List.splitOn_append_cons_self, hone,
      List.singleton_append, hkeep, List.map_cons, ← hrest]
    rfl

theorem names_gitPaths (git : GitPaths) :
    names (terminated git.paths) = git.paths.map Utf8.decodeLossy :=
  names_terminated git.nonempty git.noNul

/-- The names stand for the listed paths, in their order. -/
def Denote (git : GitPaths) : Prop := (names (terminated git.paths)).map Utf8.encode = git.paths

instance (git : GitPaths) : Decidable (Denote git) := inferInstanceAs (Decidable (_ = _))

theorem isSome_decode_iff {p : List UInt8} :
    (Utf8.decode p).isSome ↔ Utf8.encode (Utf8.decodeLossy p) = p := by
  rw [Utf8.encode_decodeLossy_iff, Option.isSome_iff_exists]
  simp only [Utf8.decode_eq_some_iff]

theorem denote_iff (git : GitPaths) :
    Denote git ↔ ∀ p ∈ git.paths, (Utf8.decode p).isSome := by
  rw [Denote, names_gitPaths, List.map_map]
  constructor
  · intro h p hp
    have hself : git.paths.map (Utf8.encode ∘ Utf8.decodeLossy) = git.paths.map id := by
      rw [h, List.map_id]
    exact isSome_decode_iff.mpr (List.map_inj_left.mp hself p hp)
  · intro h
    have hself : git.paths.map (Utf8.encode ∘ Utf8.decodeLossy) = git.paths.map id :=
      List.map_inj_left.mpr fun p hp => isSome_decode_iff.mp (h p hp)
    rw [hself, List.map_id]

end Decoding

section Search

variable {w : Checkout} {tracked : List (List Char)}

theorem ancestor_prefix {candidate ancestor : List Char} (h : ancestor ∈ ancestors candidate) :
    ancestor ++ ['/'] <+: candidate := by
  obtain ⟨index, hindex, rfl⟩ := List.mem_map.mp h
  obtain ⟨hlow, hhigh⟩ := List.mem_range'_1.mp hindex
  have hpieces := List.splitOn_ne_nil '/' candidate
  have hfront : (candidate.splitOn '/').take index ≠ [] := by
    intro hnil
    rcases List.take_eq_nil_iff.mp hnil with hzero | hnone
    · omega
    · exact hpieces hnone
  have hback : (candidate.splitOn '/').drop index ≠ [] := by
    intro hnil
    have hlength := List.drop_eq_nil_iff.mp hnil
    omega
  have hwhole := Splitting.intercalate_append (a := '/') hback _ hfront
  rw [List.take_append_drop, List.intercalate_splitOn] at hwhole
  exact ⟨_, hwhole.symm⟩

/-- What the loop finds stays among the collisions. -/
theorem collisionLoop_sound {candidates : List (List Char)} {before after : Finset (List Char)}
    (h : collisionLoop w tracked candidates before = some after) :
    before ⊆ after ∧ ∀ c ∈ candidates, ∀ name,
      candidateCollision w tracked c = some (some name) → name ∈ after := by
  induction candidates generalizing before with
  | nil =>
    rw [collisionLoop] at h
    cases h
    exact ⟨Finset.Subset.refl _, fun c hc => absurd hc List.not_mem_nil⟩
  | cons candidate rest ih =>
    rw [collisionLoop] at h
    obtain ⟨found, hfound, hrest⟩ := Option.bind_eq_some_iff.mp h
    obtain ⟨hkeep, hmem⟩ := ih hrest
    cases found with
    | none =>
      refine ⟨hkeep, fun c hc name hname => ?_⟩
      rcases List.mem_cons.mp hc with rfl | hc
      · rw [hfound] at hname
        cases hname
      · exact hmem c hc name hname
    | some first =>
      have hfirst : first ∈ after := hkeep (Finset.mem_insert_self first before)
      refine ⟨fun x hx => hkeep (Finset.mem_insert_of_mem hx), fun c hc name hname => ?_⟩
      rcases List.mem_cons.mp hc with rfl | hc
      · rw [hfound] at hname
        rw [← Option.some.inj (Option.some.inj hname)]
        exact hfirst
      · exact hmem c hc name hname

/-- A file stands in the way of a path: at the path or above it. -/
def InTheWay (w : Checkout) (p q : List UInt8) : Prop :=
  q = p ∨ q ++ [47] <+: p ∧ w.kind q = some .other

theorem candidateCollision_of_file {candidate : List Char} (huntracked : candidate ∉ tracked)
    (hkind : w.kind (Utf8.encode candidate) = some .other) :
    ∃ name, candidateCollision w tracked candidate = some (some name) ∧
      InTheWay w (Utf8.encode candidate) (Utf8.encode name) := by
  rw [candidateCollision]
  cases hfind : ancestorCollision w tracked candidate with
  | some ancestor =>
    have hmem := List.mem_of_find?_eq_some hfind
    have hfound : w.kind (Utf8.encode ancestor) = some .other ∧ ancestor ∉ tracked :=
      of_decide_eq_true (List.find?_some (p := fun ancestor => decide
        (w.kind (Utf8.encode ancestor) = some .other ∧ ancestor ∉ tracked)) hfind)
    obtain ⟨rest, hrest⟩ := ancestor_prefix hmem
    refine ⟨ancestor, rfl, Or.inr ⟨⟨Utf8.encode rest, ?_⟩, hfound.1⟩⟩
    rw [← hrest, Utf8.encode_append, Utf8.encode_append]
    rfl
  | none =>
    have hother : FileKind.other ≠ .directory := by decide
    rw [Option.elim_none, if_neg huntracked, hkind, Option.elim_some, if_pos hother]
    exact ⟨candidate, rfl, Or.inl rfl⟩

end Search

/-- A file that stands at a candidate path and is not tracked is reported, unless the search
fails: the installation does not go on. -/
def Guarded (candidates tracked : GitPaths) : Prop :=
  ∀ w : Checkout, w.cached = some (terminated tracked.paths) →
    ∀ p ∈ candidates.paths, p ∉ tracked.paths → w.kind p = some .other →
      ∀ collisions, installCollisions w (some (terminated candidates.paths)) = some collisions →
        ∃ name ∈ collisions, InTheWay w p (Utf8.encode name)

theorem guarded_of_denote {candidates tracked : GitPaths} (hc : Denote candidates)
    (ht : Denote tracked) : Guarded candidates tracked := by
  intro w hcached p hp huntracked hkind collisions hfound
  -- the name of the path is the path's own
  obtain ⟨candidate, hmem, rfl⟩ : ∃ c ∈ names (terminated candidates.paths), Utf8.encode c = p :=
    List.mem_map.mp (by rw [hc]; exact hp)
  have hnot : candidate ∉ names (terminated tracked.paths) := by
    intro htracked
    have himage : Utf8.encode candidate ∈ (names (terminated tracked.paths)).map Utf8.encode :=
      List.mem_map_of_mem htracked
    rw [ht] at himage
    exact huntracked himage
  rw [installCollisions, treePaths, Option.map_some, Option.bind_some, findUntrackedCollisions,
    hcached, Option.bind_some] at hfound
  obtain ⟨name, hname, hway⟩ := candidateCollision_of_file hnot hkind
  exact ⟨name, (collisionLoop_sound hfound).2 candidate hmem name hname, hway⟩

/-- The names denote the files, and the guard sees every file in the way, exactly when all the
paths are UTF-8. -/
theorem names_denote_and_guard_iff (candidates tracked : GitPaths) :
    ((Denote candidates ∧ Denote tracked) ∧ Guarded candidates tracked) ↔
      ∀ p ∈ candidates.paths ++ tracked.paths, (Utf8.decode p).isSome := by
  constructor
  · rintro ⟨⟨hc, ht⟩, -⟩ p hp
    rcases List.mem_append.mp hp with hp | hp
    · exact (denote_iff candidates).mp hc p hp
    · exact (denote_iff tracked).mp ht p hp
  · intro h
    have hc : Denote candidates :=
      (denote_iff candidates).mpr fun p hp => h p (List.mem_append_left _ hp)
    have ht : Denote tracked :=
      (denote_iff tracked).mpr fun p hp => h p (List.mem_append_right _ hp)
    exact ⟨⟨hc, ht⟩, guarded_of_denote hc ht⟩

/-- One path whose only byte is no UTF-8. -/
def bytePath : GitPaths where
  paths := [[0xFF]]
  distinct := List.nodup_singleton _
  nonempty := by decide
  noNul := by decide

def noPaths : GitPaths where
  paths := []
  distinct := List.nodup_nil
  nonempty := by decide
  noNul := by decide

/-- A checkout with one file, at that path, that is not tracked. -/
def byteCheckout : Checkout where
  cached := some []
  others := fun _ => some []
  kind := fun p => if p = [0xFF] then some .other else none

theorem byte_path_is_overwritten :
    ¬ Denote bytePath ∧ installCollisions byteCheckout (some (terminated bytePath.paths)) = some ∅ ∧
      ¬ Guarded bytePath noPaths := by
  have hnone : installCollisions byteCheckout (some (terminated bytePath.paths)) = some ∅ := by
    decide
  refine ⟨by decide, hnone, fun h => ?_⟩
  obtain ⟨name, hname, -⟩ :=
    h byteCheckout rfl [0xFF] List.mem_cons_self List.not_mem_nil rfl ∅ hnone
  exact Finset.notMem_empty name hname

end DecodedPaths

end Resync
