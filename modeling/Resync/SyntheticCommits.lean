import Resync.CandidateLayers

/-! The synthetic commits carry an author of their own, which a replay keeps.
A candidate's real head has none of them in its history, also where the rebase
drops one of them. -/
namespace Resync

variable {β : Type}

/-- The commit carries the author of `create_synthetic_chain`. -/
def Synthetic (c : Commit (Tree β)) : Prop :=
  c.info.author.name = "RepoSync Recovery" ∧ c.info.author.email = "recovery@reposync.local"

instance (c : Commit (Tree β)) : Decidable (Synthetic c) := inferInstanceAs (Decidable (_ ∧ _))

/-- No synthetic commit is reachable. -/
def Clean (c : Commit (Tree β)) : Prop := ∀ a, Commit.Ancestor a c → ¬ Synthetic a

instance (c : Commit (Tree β)) : Decidable (Clean c) :=
  decidable_of_iff (∀ a ∈ c.reachable, ¬ Synthetic a)
    (forall_congr' fun _ => imp_congr Commit.mem_reachable Iff.rfl)

theorem synthetic_of_author {ps : List (Commit (Tree β))} {t : Tree β} {i : CommitInfo}
    {c : Commit (Tree β)} (h : i.author = c.info.author) :
    Synthetic (.mk ps t i) ↔ Synthetic c := by
  change i.author.name = _ ∧ i.author.email = _ ↔ _
  rw [h, Synthetic]

theorem Clean.ancestor {a c : Commit (Tree β)} (h : Clean c) (ha : Commit.Ancestor a c) :
    Clean a := fun b hb => h b (hb.trans ha)

theorem clean_child {tip : Commit (Tree β)} {t : Tree β} {i : CommitInfo} (h : Clean tip)
    (hi : ¬ Synthetic (.mk [tip] t i)) : Clean (.mk [tip] t i) := by
  intro a ha
  rcases CommitGraph.ancestor_iff.mp ha with rfl | ⟨p, hp, hap⟩
  · exact hi
  · obtain rfl : p = tip := List.mem_singleton.mp hp
    exact h a hap

theorem createSyntheticChain_synthetic (now : ℕ) (snapshot : WorkspaceSnapshot β) :
    Synthetic (createSyntheticChain now snapshot).indexCommit ∧
      Synthetic (createSyntheticChain now snapshot).workingCommit :=
  ⟨⟨rfl, rfl⟩, ⟨rfl, rfl⟩⟩

section Replay

variable [DecidableEq β] {merge : Tree β → Tree β → Tree β → Option (Tree β)} {now : ℕ}

/-- A replayed commit is dropped, or its image is a child of the tip with the
author that it had. -/
theorem replayCommit_image {tip c r : Commit (Tree β)}
    (h : replayCommit merge (reconcilerStamp now) tip c = some r) :
    r = tip ∨ ∃ t i, r = .mk [tip] t i ∧ i.author = c.info.author := by
  have hauthor : ∀ parent : Commit (Tree β),
      (imageInfo (reconcilerStamp now) tip parent c.info).author = c.info.author := by
    intro parent
    unfold imageInfo
    split <;> rfl
  unfold replayCommit at h
  split at h
  · cases h
  · split at h
    · exact Or.inr ⟨tip.tree, _, (Option.some.inj h).symm, hauthor _⟩
    · split at h
      · cases h
      · next t ht =>
        split at h
        · exact Or.inl (Option.some.inj h).symm
        · exact Or.inr ⟨t, _, (Option.some.inj h).symm, hauthor _⟩

theorem replayCommit_clean {tip c r : Commit (Tree β)} (htip : Clean tip) (hc : ¬ Synthetic c)
    (h : replayCommit merge (reconcilerStamp now) tip c = some r) : Clean r := by
  rcases replayCommit_image h with rfl | ⟨t, i, rfl, hi⟩
  · exact htip
  · exact clean_child htip fun himage => hc ((synthetic_of_author hi).mp himage)

theorem replay_clean {tip r : Commit (Tree β)} {cs : List (Commit (Tree β))} (htip : Clean tip)
    (hcs : ∀ c ∈ cs, ¬ Synthetic c)
    (h : replay merge (reconcilerStamp now) tip cs = some r) : Clean r := by
  induction cs using List.reverseRecOn generalizing r with
  | nil =>
    obtain rfl := Option.some.inj h
    exact htip
  | append_singleton cs c ih =>
    obtain ⟨t, ht, hc⟩ := replay_concat_eq_some.mp h
    have hclean : Clean t := ih (fun d hd => hcs d (List.mem_append_left [c] hd)) ht
    exact replayCommit_clean hclean (hcs c (List.mem_append_right cs List.mem_cons_self)) hc

end Replay

section Candidates

variable [DecidableEq β] {env : Env β} {previous target head : Commit (Tree β)}
  {snapshot : WorkspaceSnapshot β}

/-- The rebased branch without its synthetic commits is clean, and `HEAD^^` is
in its history wherever the two stand. -/
theorem rebaseSynthetic_clean (h : Commit.Ancestor previous snapshot.head)
    (hhead : Clean snapshot.head) (htarget : Clean target)
    (hrebase : rebaseSynthetic env previous target snapshot = some head) :
    (Clean head ∨ Synthetic head) ∧
      ∀ candidate, candidateOf head = some candidate → Clean candidate.realHead := by
  obtain ⟨real, index, hreal, hindex, hworking⟩ := rebaseSynthetic_tips h hrebase
  have hlocal : ∀ c ∈ localCommits previous snapshot, ¬ Synthetic c := by
    intro c hc
    have hmem := Commit.mem_revList.mp (List.mem_reverse.mp hc)
    exact hhead c hmem.1
  have hclean : Clean real := replay_clean htarget hlocal hreal
  have hsynthetic := createSyntheticChain_synthetic env.now snapshot
  rcases replayCommit_image hindex with rfl | ⟨ti, i, rfl, hi⟩
  · rcases replayCommit_image hworking with rfl | ⟨tw, j, rfl, hj⟩
    · -- both are dropped: `HEAD^^` is two links below the real tip
      refine ⟨Or.inl hclean, fun candidate hc => ?_⟩
      obtain ⟨hi, hr, -⟩ := candidateOf_eq_some hc
      have hindexClean := hclean.ancestor (CommitGraph.ancestor_of_mem_parents hi)
      exact hindexClean.ancestor (CommitGraph.ancestor_of_mem_parents hr)
    · refine ⟨Or.inr ((synthetic_of_author hj).mpr hsynthetic.2), fun candidate hc => ?_⟩
      obtain ⟨hi, hr, -⟩ := candidateOf_eq_some hc
      rw [List.mem_singleton.mp hi] at hr
      exact hclean.ancestor (CommitGraph.ancestor_of_mem_parents hr)
  · rcases replayCommit_image hworking with rfl | ⟨tw, j, rfl, hj⟩
    · refine ⟨Or.inr ((synthetic_of_author hi).mpr hsynthetic.1), fun candidate hc => ?_⟩
      obtain ⟨hi, hr, -⟩ := candidateOf_eq_some hc
      rw [List.mem_singleton.mp hi] at hr
      exact hclean.ancestor (CommitGraph.ancestor_of_mem_parents hr)
    · -- both survive: `HEAD^^` is the real tip itself
      refine ⟨Or.inr ((synthetic_of_author hj).mpr hsynthetic.2), fun candidate hc => ?_⟩
      obtain ⟨hi, hr, -⟩ := candidateOf_eq_some hc
      rw [List.mem_singleton.mp hi] at hr
      rw [List.mem_singleton.mp hr]
      exact hclean

/-- What a preparation offers for installation has no synthetic commit in the
history of its real head. -/
theorem prepareReconciliation_clean {r : Repository β} {t : Transaction β}
    {candidate : Candidate β} (hhead : ∀ c, r.headCommit = some c → Clean c)
    (htarget : Clean target)
    (h : prepareReconciliation env r previous target = .ok (.ready t))
    (hc : t.candidate = some candidate) : Clean candidate.realHead := by
  obtain ⟨snapshot, headRef, head, found, -, hcapture, -, hlocal, -, -, hrebase, hfound, rfl⟩ :=
    prepareReconciliation_ready h
  obtain rfl : found = candidate := Option.some.inj hc
  have hsnapshot : Clean snapshot.head := hhead _ (captureWorkspace_eq_some.mp hcapture).1
  exact (rebaseSynthetic_clean hlocal hsnapshot htarget hrebase).2 found hfound

end Candidates

end Resync
