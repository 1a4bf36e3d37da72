import Resync.Lib.CommitGraph

/-! Git commits and the ranges of them that `rev-list` lists. The identifier of
a commit is a hash of its content, so here the content stands for it. -/
namespace Resync

/-- An author or committer line. -/
structure Signature where
  name : String
  email : String
  time : ℕ
deriving DecidableEq

/-- The author, the committer and the message. -/
structure CommitInfo where
  author : Signature
  committer : Signature
  message : String
deriving DecidableEq

/-- A commit is what its object ID is the hash of: the parents, the tree and the rest. -/
inductive Commit (τ : Type) where
  | mk (parents : List (Commit τ)) (tree : τ) (info : CommitInfo)

namespace Commit

variable {τ : Type}

def parents : Commit τ → List (Commit τ)
  | mk ps _ _ => ps

def tree : Commit τ → τ
  | mk _ t _ => t

def info : Commit τ → CommitInfo
  | mk _ _ i => i

@[simp] theorem parents_mk (ps : List (Commit τ)) (t : τ) (i : CommitInfo) :
    (mk ps t i).parents = ps := rfl

mutual

/-- The length of the longest path to a root. -/
def depth : Commit τ → ℕ
  | mk ps _ _ => depthOf ps + 1

def depthOf : List (Commit τ) → ℕ
  | [] => 0
  | c :: cs => max c.depth (depthOf cs)

end

mutual

/-- The commit and its history, first parents first. -/
def reachable : Commit τ → List (Commit τ)
  | mk ps t i => mk ps t i :: reachableOf ps

def reachableOf : List (Commit τ) → List (Commit τ)
  | [] => []
  | c :: cs => c.reachable ++ reachableOf cs

end

mutual

def decEq [DecidableEq τ] : (a b : Commit τ) → Decidable (a = b)
  | mk ps t i, mk qs u j =>
    match decEqOf ps qs, (inferInstance : Decidable (t = u)), (inferInstance : Decidable (i = j)) with
    | .isTrue h, .isTrue ht, .isTrue hi => .isTrue (by rw [h, ht, hi])
    | .isFalse h, _, _ => .isFalse fun he => h (mk.inj he).1
    | _, .isFalse h, _ => .isFalse fun he => h (mk.inj he).2.1
    | _, _, .isFalse h => .isFalse fun he => h (mk.inj he).2.2

def decEqOf [DecidableEq τ] : (as bs : List (Commit τ)) → Decidable (as = bs)
  | [], [] => .isTrue rfl
  | [], _ :: _ => .isFalse (by simp)
  | _ :: _, [] => .isFalse (by simp)
  | a :: as, b :: bs =>
    match decEq a b, decEqOf as bs with
    | .isTrue h, .isTrue hs => .isTrue (by rw [h, hs])
    | .isFalse h, _ => .isFalse fun he => h (List.cons.inj he).1
    | _, .isFalse h => .isFalse fun he => h (List.cons.inj he).2

end

instance [DecidableEq τ] : DecidableEq (Commit τ) := decEq

theorem depth_le_depthOf {p : Commit τ} {ps : List (Commit τ)} (h : p ∈ ps) :
    p.depth ≤ depthOf ps := by
  induction ps with
  | nil => cases h
  | cons c cs ih =>
    rw [depthOf]
    rcases List.mem_cons.mp h with rfl | h
    · exact Nat.le_max_left ..
    · exact (ih h).trans (Nat.le_max_right ..)

/-- The history as a graph of parent links. -/
def graph (τ : Type) : CommitGraph (Commit τ) where
  parents := parents
  depth := depth
  depth_lt c p h := by
    obtain ⟨ps, t, i⟩ := c
    have hle := depth_le_depthOf (show p ∈ ps from h)
    rw [depth]
    omega

/-- `a` is `b` or is reachable from it. -/
abbrev Ancestor (a b : Commit τ) : Prop := (graph τ).Ancestor a b

theorem mem_reachableOf {a : Commit τ} {cs : List (Commit τ)} :
    a ∈ reachableOf cs ↔ ∃ c ∈ cs, a ∈ c.reachable := by
  induction cs with
  | nil => simp only [reachableOf, List.not_mem_nil, false_and, exists_false]
  | cons c cs ih =>
    rw [reachableOf, List.mem_append, ih, List.exists_mem_cons_iff]

theorem reachable_eq (c : Commit τ) : c.reachable = c :: reachableOf c.parents := by
  obtain ⟨ps, t, i⟩ := c
  rw [reachable, parents_mk]

@[simp] theorem mem_reachable {a c : Commit τ} : a ∈ c.reachable ↔ Ancestor a c := by
  have h : ∀ n, ∀ c : Commit τ, c.depth ≤ n → (a ∈ c.reachable ↔ Ancestor a c) := by
    intro n
    induction n with
    | zero =>
      intro c hc
      obtain ⟨ps, t, i⟩ := c
      rw [depth] at hc
      omega
    | succ n ih =>
      intro c hc
      rw [reachable_eq, List.mem_cons, mem_reachableOf]
      refine Iff.trans ?_ (CommitGraph.ancestor_iff (G := graph τ)).symm
      refine or_congr Iff.rfl (exists_congr fun p => and_congr_right fun hp => ih p ?_)
      have hlt := (graph τ).depth_lt c p hp
      change p.depth < c.depth at hlt
      omega
  exact h c.depth c le_rfl

section Range

variable [DecidableEq τ]

/-- `rev-list base..tip`, newest first. -/
def revList (base tip : Commit τ) : List (Commit τ) :=
  tip.reachable.filter fun c => !(graph τ).isAncestor c base

/-- `rev-list --merges base..tip`. -/
def merges (base tip : Commit τ) : List (Commit τ) :=
  (revList base tip).filter fun c => 2 ≤ c.parents.length

/-- The range holds what is reachable from the tip and not from the base. -/
theorem mem_revList {base tip c : Commit τ} :
    c ∈ revList base tip ↔ Ancestor c tip ∧ ¬ Ancestor c base := by
  rw [revList, List.mem_filter, mem_reachable, Bool.not_eq_true',
    CommitGraph.isAncestor_eq_false_iff]

theorem revList_self (base : Commit τ) : revList base base = [] := by
  refine List.eq_nil_iff_forall_not_mem.mpr fun c hc => ?_
  obtain ⟨h, hn⟩ := mem_revList.mp hc
  exact hn h

/-- A child of one parent adds itself to the range. -/
theorem revList_child {base parent : Commit τ} (t : τ) (i : CommitInfo)
    (h : Ancestor base parent) :
    revList base (mk [parent] t i) = mk [parent] t i :: revList base parent := by
  have hnew : ¬ Ancestor (mk [parent] t i) base := by
    intro hc
    exact CommitGraph.not_ancestor_parent (G := graph τ) (p := parent) (List.mem_singleton_self _)
      (hc.trans h)
  have hbool : (!(graph τ).isAncestor (mk [parent] t i) base) = true := by
    rw [(CommitGraph.isAncestor_eq_false_iff ..).mpr hnew, Bool.not_false]
  rw [revList, reachable_eq, List.filter_cons, if_pos hbool, parents_mk, reachableOf, reachableOf,
    List.append_nil]
  rfl

end Range

/-- `tip` is `base` followed by the commits of the list, oldest first, each on
the one before it as its only parent. -/
inductive Chain (base : Commit τ) : List (Commit τ) → Commit τ → Prop where
  | nil : Chain base [] base
  | snoc {cs : List (Commit τ)} {tip : Commit τ} (h : Chain base cs tip) (t : τ) (i : CommitInfo) :
      Chain base (cs ++ [mk [tip] t i]) (mk [tip] t i)

/-- Where local history has no merges, `base..tip` is a chain from `base` to
`tip`. -/
theorem chain_revList [DecidableEq τ] {base tip : Commit τ} (h : Ancestor base tip)
    (hm : merges base tip = []) : Chain base (revList base tip).reverse tip := by
  have hgen : ∀ n, ∀ tip : Commit τ, tip.depth ≤ n → Ancestor base tip → merges base tip = [] →
      Chain base (revList base tip).reverse tip := by
    intro n
    induction n with
    | zero =>
      intro tip hd
      obtain ⟨ps, t, i⟩ := tip
      rw [depth] at hd
      omega
    | succ n ih =>
      intro tip hd h hm
      rcases CommitGraph.ancestor_iff.mp h with rfl | ⟨p, hp, hbase⟩
      · rw [revList_self]
        exact Chain.nil
      · have hlt := (graph τ).depth_lt tip p hp
        change p.depth < tip.depth at hlt
        have htip : tip ∈ revList base tip :=
          mem_revList.mpr ⟨CommitGraph.Ancestor.refl tip, fun hc =>
            CommitGraph.not_ancestor_parent hp (hc.trans hbase)⟩
        have hone : ¬ 2 ≤ tip.parents.length := by
          simpa using List.filter_eq_nil_iff.mp hm tip htip
        obtain ⟨ps, t, i⟩ := tip
        change p ∈ ps at hp
        rw [parents_mk] at hone
        obtain rfl : ps = [p] := by
          match ps, hp, hone with
          | [q], hp, _ => rw [List.mem_singleton.mp hp]
          | q :: r :: rs, _, hone => exact absurd (by simp) hone
        have hmerges : merges base p = [] := by
          rw [merges, revList_child t i hbase, List.filter_cons_of_neg (by simp)] at hm
          exact hm
        rw [revList_child t i hbase, List.reverse_cons]
        exact (ih p (by omega) hbase hmerges).snoc t i
  exact hgen tip.depth tip le_rfl h hm

end Commit

end Resync
