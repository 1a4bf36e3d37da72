import Mathlib.Data.List.Induction
import Resync.Git.Commit

/-! `rebase --keep-empty --onto target base`: the commits of `base..tip` are
replayed on the target, oldest first, each by a three-way merge. A commit that
is empty from the start is kept, one that becomes empty is dropped, one that
sits on the tip already is kept as it is, and the first conflict fails. -/
namespace Resync

variable {τ : Type} [DecidableEq τ] (merge : τ → τ → τ → Option τ)
  (stamp : CommitInfo → CommitInfo)

/-- The tree of a change from `base` to `theirs` on top of `ours`. -/
def mergedTree (base ours theirs : τ) : Option τ :=
  if theirs = base then some ours else merge base ours theirs

/-- There is a change from `base` to `theirs`, and `ours` contains it. -/
def Contained (base ours theirs : τ) : Prop :=
  theirs ≠ base ∧ merge base ours theirs = some ours

instance (base ours theirs : τ) : Decidable (Contained merge base ours theirs) :=
  inferInstanceAs (Decidable (_ ∧ _))

/-- The committer and the times of an image. A commit on the tip is fast-forwarded to and keeps
its own. -/
def imageInfo (tip parent : Commit τ) (i : CommitInfo) : CommitInfo :=
  if parent = tip then i else stamp i

/-- One commit replayed on `tip`. -/
def replayCommit (tip c : Commit τ) : Option (Commit τ) :=
  match c.parents with
  | [] => none
  | parent :: _ =>
    if c.tree = parent.tree then some (.mk [tip] tip.tree (imageInfo stamp tip parent c.info))
    else match merge parent.tree tip.tree c.tree with
      | none => none
      | some t =>
        if t = tip.tree then some tip
        else some (.mk [tip] t (imageInfo stamp tip parent c.info))

def replay (tip : Commit τ) (cs : List (Commit τ)) : Option (Commit τ) :=
  cs.foldlM (replayCommit merge stamp) tip

def rebaseOnto (target base tip : Commit τ) : Option (Commit τ) :=
  replay merge stamp target (Commit.revList base tip).reverse

variable {merge stamp}

theorem replayCommit_mk (tip parent : Commit τ) (t : τ) (i : CommitInfo) :
    replayCommit merge stamp tip (.mk [parent] t i) =
      if t = parent.tree then some (.mk [tip] tip.tree (imageInfo stamp tip parent i))
      else match merge parent.tree tip.tree t with
        | none => none
        | some u =>
          if u = tip.tree then some tip
          else some (.mk [tip] u (imageInfo stamp tip parent i)) := rfl

/-- A commit on the tip is the tip of the new history, itself and not a copy. -/
theorem replayCommit_on_tip (htheirs : ∀ b t : τ, merge b b t = some t) (tip : Commit τ) (t : τ)
    (i : CommitInfo) : replayCommit merge stamp tip (.mk [tip] t i) = some (.mk [tip] t i) := by
  rw [replayCommit_mk, imageInfo, if_pos rfl]
  split
  · next hempty => rw [hempty]
  · next hempty =>
    rw [htheirs]
    exact if_neg hempty

/-- What replaying one commit does: it drops a change that the tip contains,
and else adds one commit with the merged tree. -/
theorem replayCommit_eq_some {tip parent r : Commit τ} {t : τ} {i : CommitInfo}
    (h : replayCommit merge stamp tip (.mk [parent] t i) = some r) :
    (Contained merge parent.tree tip.tree t ∧ r = tip) ∨
    (¬ Contained merge parent.tree tip.tree t ∧ ∃ u,
      mergedTree merge parent.tree tip.tree t = some u ∧
        r = .mk [tip] u (imageInfo stamp tip parent i)) := by
  rw [replayCommit_mk] at h
  split at h
  · next hempty =>
    exact Or.inr ⟨fun hc => hc.1 hempty, tip.tree, if_pos hempty, (Option.some.inj h).symm⟩
  · next hempty =>
    split at h
    · cases h
    · next u hu =>
      split at h
      · next hsame =>
        exact Or.inl ⟨⟨hempty, hsame ▸ hu⟩, (Option.some.inj h).symm⟩
      · next hsame =>
        refine Or.inr ⟨fun hc => hsame ?_, u, (if_neg hempty).trans hu, (Option.some.inj h).symm⟩
        exact Option.some.inj (hu.symm.trans hc.2)

/-- Dropped or not, the tip has the merged tree. -/
theorem replayCommit_tree {tip parent r : Commit τ} {t : τ} {i : CommitInfo}
    (h : replayCommit merge stamp tip (.mk [parent] t i) = some r) :
    mergedTree merge parent.tree tip.tree t = some r.tree := by
  rcases replayCommit_eq_some h with ⟨⟨hne, hc⟩, rfl⟩ | ⟨-, u, hu, rfl⟩
  · exact (if_neg hne).trans hc
  · exact hu

theorem replayCommit_ancestor {tip c r : Commit τ}
    (h : replayCommit merge stamp tip c = some r) : Commit.Ancestor tip r := by
  have hchild : ∀ t i, Commit.Ancestor tip (.mk [tip] t i) := fun t i =>
    CommitGraph.ancestor_of_mem_parents (G := Commit.graph τ) (List.mem_singleton_self tip)
  unfold replayCommit at h
  split at h
  · cases h
  · split at h
    · obtain rfl := Option.some.inj h
      exact hchild _ _
    · split at h
      · cases h
      · split at h
        · obtain rfl := Option.some.inj h
          exact CommitGraph.Ancestor.refl tip
        · obtain rfl := Option.some.inj h
          exact hchild _ _

theorem replay_append (tip : Commit τ) (cs ds : List (Commit τ)) :
    replay merge stamp tip (cs ++ ds) =
      (replay merge stamp tip cs).bind fun r => replay merge stamp r ds :=
  List.foldlM_append

theorem replay_singleton (tip c : Commit τ) :
    replay merge stamp tip [c] = replayCommit merge stamp tip c := by
  rw [replay, List.foldlM_cons]
  exact bind_pure _

theorem replay_concat_eq_some {tip c r : Commit τ} {cs : List (Commit τ)} :
    replay merge stamp tip (cs ++ [c]) = some r ↔
      ∃ t, replay merge stamp tip cs = some t ∧ replayCommit merge stamp t c = some r := by
  rw [replay_append, Option.bind_eq_some_iff]
  simp only [replay_singleton]

theorem replay_ancestor {tip r : Commit τ} {cs : List (Commit τ)}
    (h : replay merge stamp tip cs = some r) : Commit.Ancestor tip r := by
  induction cs using List.reverseRecOn generalizing r with
  | nil =>
    obtain rfl := Option.some.inj h
    exact CommitGraph.Ancestor.refl tip
  | append_singleton cs c ih =>
    obtain ⟨t, ht, hc⟩ := replay_concat_eq_some.mp h
    exact (ih ht).trans (replayCommit_ancestor hc)

/-- Every commit of the range was replayed on a tip of the new history, and
its image is in the new history. -/
theorem replay_mem {tip r c : Commit τ} {cs : List (Commit τ)}
    (h : replay merge stamp tip cs = some r) (hc : c ∈ cs) :
    ∃ before after, replayCommit merge stamp before c = some after ∧
      Commit.Ancestor tip before ∧ Commit.Ancestor after r := by
  induction cs using List.reverseRecOn generalizing r with
  | nil => cases hc
  | append_singleton cs d ih =>
    obtain ⟨t, ht, hd⟩ := replay_concat_eq_some.mp h
    rcases List.mem_append.mp hc with hc | hc
    · obtain ⟨before, after, hrep, hb, ha⟩ := ih ht hc
      exact ⟨before, after, hrep, hb, ha.trans (replayCommit_ancestor hd)⟩
    · obtain rfl := List.mem_singleton.mp hc
      exact ⟨t, r, hd, replay_ancestor ht, CommitGraph.Ancestor.refl r⟩

/-- A chain that sits on the tip is replayed to itself. -/
theorem replay_chain (htheirs : ∀ b t : τ, merge b b t = some t) {base tip : Commit τ}
    {cs : List (Commit τ)} (h : Commit.Chain base cs tip) :
    replay merge stamp base cs = some tip := by
  induction h with
  | nil => rfl
  | snoc _ t i ih => exact replay_concat_eq_some.mpr ⟨_, ih, replayCommit_on_tip htheirs _ t i⟩

end Resync
