import Resync.Materialize

/-! Runs in which preparations stop at any command while `materialize_project`
is at work. Synthetic commits stay in candidate branches and recovery refs, so
a push that carries no candidate branch publishes none of them. -/
namespace Resync

variable {β : Type}

/-- A preparation writes to candidate branches only, and leaves at them what is
clean or synthetic at its tip. -/
def SafeUpdate : RefUpdate β → Prop
  | (.branch b, c) => IsCandidate b ∧ ∀ x ∈ c, Clean x ∨ Synthetic x
  | (.recovery _ _, _) => True

structure Preparation.Safe (p : Preparation β) : Prop where
  updates : ∀ u ∈ p.updates, SafeUpdate u
  result : ∀ t candidate, p.result = .ok (.ready t) → t.candidate = some candidate →
    Clean candidate.realHead

/-- The second checkout has the same HEAD, and its branches are where they were
or have moved to clean commits. -/
structure MovesClean (c c' : Checkout β) : Prop where
  head : c'.repo.head = c.repo.head
  branch : ∀ b, c'.repo.refs (.branch b) = c.repo.refs (.branch b) ∨
    c.repo.refs (.branch b) ≠ none ∧ ∃ x, c'.repo.refs (.branch b) = some x ∧ Clean x

namespace MovesClean

variable {c c' c'' : Checkout β}

theorem refl (c : Checkout β) : MovesClean c c := ⟨rfl, fun _ => Or.inl rfl⟩

theorem of_same (h : SameWorkspace c.repo c'.repo) : MovesClean c c' :=
  ⟨h.head, fun b => Or.inl (h.branches b)⟩

theorem trans (h : MovesClean c c') (h' : MovesClean c' c'') : MovesClean c c'' := by
  refine ⟨h'.head.trans h.head, fun b => ?_⟩
  rcases h'.branch b with hsame | ⟨hne, hmoved⟩
  · rw [hsame]
    exact h.branch b
  · refine Or.inr ⟨?_, hmoved⟩
    rcases h.branch b with hsame | ⟨hne', -⟩
    · rwa [hsame] at hne
    · exact hne'

end MovesClean

section Execution

variable [DecidableEq β] {env : Env β} {retention : TransactionRetention} {t : Transaction β}

theorem perform_movesClean {c c' : Checkout β} {a : Action β}
    (ha : ∀ b new old, a = .updateRef b new old → Clean new) (h : c.perform a = some c') :
    MovesClean c c' := by
  cases a with
  | writeJournal t =>
    obtain rfl := Option.some.inj h
    exact ⟨rfl, fun _ => Or.inl rfl⟩
  | removeJournal id =>
    obtain rfl := Option.some.inj h
    exact ⟨rfl, fun _ => Or.inl rfl⟩
  | readTreeReset tree =>
    obtain rfl := Option.some.inj h
    exact ⟨rfl, fun _ => Or.inl rfl⟩
  | readTree tree =>
    obtain rfl := Option.some.inj h
    exact ⟨rfl, fun _ => Or.inl rfl⟩
  | deleteRecovery name slot =>
    obtain rfl := Option.some.inj h
    exact MovesClean.of_same (SameWorkspace.setRecovery c.repo name slot none)
  | updateRef branch new old =>
    have hnew : Clean new := ha branch new old rfl
    obtain ⟨r, hr, rfl⟩ := Option.map_eq_some_iff.mp h
    unfold Repository.updateRef at hr
    split at hr
    · next hold =>
      obtain rfl := Option.some.inj hr
      refine ⟨rfl, fun b => ?_⟩
      by_cases hb : b = branch
      · subst hb
        refine Or.inr ⟨?_, new, Function.update_self .., hnew⟩
        rw [hold]
        exact Option.some_ne_none old
      · have hne : Ref.branch b ≠ Ref.branch branch := fun h => hb (Ref.branch.inj h)
        exact Or.inl (Function.update_of_ne hne ..)
    · cases hr

theorem execute_movesClean (c : Checkout β) {as : List (Action β)}
    (has : ∀ b new old, .updateRef b new old ∈ as → Clean new) :
    MovesClean c (c.execute as).1 := by
  induction as generalizing c with
  | nil => exact MovesClean.refl c
  | cons a as ih =>
    rw [Checkout.execute]
    cases h : c.perform a with
    | none => exact MovesClean.refl c
    | some c' =>
      have hfirst : MovesClean c c' := by
        apply perform_movesClean _ h
        rintro b new old rfl
        exact has b new old List.mem_cons_self
      have hrest : MovesClean c' (c'.execute as).1 := by
        apply ih
        intro b new old hmem
        exact has b new old (List.mem_cons_of_mem a hmem)
      exact hfirst.trans hrest

omit [DecidableEq β] in
theorem Action.Bookkeeping.not_updateRef {b : Branch} {new old : Commit (Tree β)}
    (h : (Action.updateRef b new old).Bookkeeping) : False := h

omit [DecidableEq β] in
/-- The only branch that an installation moves goes to the real head. -/
theorem installActions_clean {candidate : Candidate β} (h : Clean candidate.realHead)
    {b : Branch} {new old : Commit (Tree β)}
    (hmem : .updateRef b new old ∈ installActions env retention t candidate) : Clean new := by
  rcases List.mem_append.mp hmem with hmem | hmem
  · simp only [List.mem_cons, reduceCtorEq, Action.updateRef.injEq, List.not_mem_nil,
      false_or, or_false] at hmem
    rw [hmem.2.1]
    exact h
  · exact (finalizeTransaction_bookkeeping env retention _ _ hmem).not_updateRef.elim

theorem installUpTo_movesClean {candidate : Candidate β} (h : Clean candidate.realHead) (n : ℕ)
    (c : Checkout β) : MovesClean c (installUpTo env retention t candidate n c) := by
  unfold installUpTo
  split
  · apply execute_movesClean
    intro b new old hmem
    exact installActions_clean h (List.mem_of_mem_take hmem)
  · exact MovesClean.refl c

theorem installCandidate_movesClean {candidate : Candidate β} (h : Clean candidate.realHead)
    (c : Checkout β) : MovesClean c (c.installCandidate env retention t candidate).1 := by
  unfold Checkout.installCandidate Checkout.installCandidateBy
  split
  · exact MovesClean.refl c
  · split
    · exact MovesClean.refl c
    · split
      · exact MovesClean.refl c
      · split
        · exact MovesClean.refl c
        · apply execute_movesClean
          intro b new old hmem
          exact installActions_clean h hmem

theorem bookkeeping_movesClean (c : Checkout β) {as : List (Action β)}
    (has : ∀ a ∈ as, a.Bookkeeping) : MovesClean c (c.execute as).1 :=
  MovesClean.of_same (c.execute_bookkeeping has).2

theorem installPreparedReconciliation_movesClean
    (h : ∀ candidate, t.candidate = some candidate → Clean candidate.realHead) (c : Checkout β) :
    MovesClean c (Checkout.installPreparedReconciliation env retention (.ready t) c).1 := by
  unfold Checkout.installPreparedReconciliation Checkout.installPreparedBy
  dsimp only
  split
  · exact MovesClean.refl c
  · next candidate hc =>
    have hinstall : MovesClean c
        (Checkout.installCandidateBy (fun c => c) Checkout.execute env retention t candidate c).1 :=
      installCandidate_movesClean (h candidate hc) c
    split
    · next c' e heq =>
      rw [heq] at hinstall
      exact hinstall
    · next c' conflict heq =>
      rw [heq] at hinstall
      split
      · exact hinstall.trans
          (bookkeeping_movesClean c' (finalizeTransaction_bookkeeping env retention _))
      · exact hinstall.trans (bookkeeping_movesClean c' (writeJournal_bookkeeping _))
    · next c' heq =>
      rw [heq] at hinstall
      exact hinstall

/-- A recovery moves no branch. -/
theorem recoverActions_not_updateRef {c : Checkout β} {id : String} {actions : List (Action β)}
    {result : Transaction β} (h : c.recoverActions env retention id = .ok (actions, result))
    (b : Branch) (new old : Commit (Tree β)) : .updateRef b new old ∉ actions := by
  have hfinal : ∀ t, Action.updateRef b new old ∉ finalizeTransaction env retention t :=
    fun t hmem => (finalizeTransaction_bookkeeping env retention t _ hmem).not_updateRef
  unfold Checkout.recoverActions at h
  split at h
  · cases h
  · split at h
    · obtain ⟨rfl, -⟩ := Prod.mk.inj (Except.ok.inj h)
      exact List.not_mem_nil
    · obtain ⟨rfl, -⟩ := Prod.mk.inj (Except.ok.inj h)
      exact List.not_mem_nil
    · obtain ⟨rfl, -⟩ := Prod.mk.inj (Except.ok.inj h)
      exact hfinal _
    · obtain ⟨rfl, -⟩ := Prod.mk.inj (Except.ok.inj h)
      exact hfinal _
    · cases h
    · split at h
      · cases h
      · split at h
        · cases h
        · dsimp only at h
          split at h
          · obtain ⟨rfl, -⟩ := Prod.mk.inj (Except.ok.inj h)
            exact hfinal _
          · split at h
            · obtain ⟨rfl, -⟩ := Prod.mk.inj (Except.ok.inj h)
              intro hmem
              rcases List.mem_append.mp hmem with hmem | hmem
              · simp only [List.mem_cons, reduceCtorEq, List.not_mem_nil, or_self] at hmem
              · exact hfinal _ hmem
            · cases h

theorem recoverUpTo_movesClean (id : String) (n : ℕ) (c : Checkout β) :
    MovesClean c (c.recoverUpTo env retention id n) := by
  unfold Checkout.recoverUpTo
  cases h : c.recoverActions env retention id with
  | error e => exact MovesClean.refl c
  | ok found =>
    apply execute_movesClean
    intro b new old hmem
    exact absurd (List.mem_of_mem_take hmem) (recoverActions_not_updateRef h b new old)

end Execution

section Preparations

variable [DecidableEq β] {env : Env β} {retention : TransactionRetention}

omit [DecidableEq β] in
theorem failedUpdates_safe (retention : TransactionRetention) (id : String) :
    ∀ u ∈ (failedUpdates retention id : List (RefUpdate β)), SafeUpdate u := by
  have hbranch : SafeUpdate ((.branch (candidateBranch id), none) : RefUpdate β) :=
    ⟨isCandidate_candidateBranch id, fun x hx => absurd hx (Option.not_mem_none x)⟩
  intro u hu
  rcases List.mem_cons.mp hu with rfl | hu
  · exact hbranch
  · split at hu
    · exact absurd hu List.not_mem_nil
    · simp only [List.mem_cons, List.not_mem_nil, or_false] at hu
      rcases hu with rfl | rfl | rfl | rfl <;> trivial

theorem candidateUpdates_safe {previous target : Commit (Tree β)} {snapshot : WorkspaceSnapshot β}
    (h : Commit.Ancestor previous snapshot.head) (hhead : Clean snapshot.head)
    (htarget : Clean target) :
    ∀ u ∈ candidateUpdates env retention previous target snapshot, SafeUpdate u := by
  have hname := isCandidate_candidateBranch env.id
  have hdelete : SafeUpdate ((.branch (candidateBranch env.id), none) : RefUpdate β) :=
    ⟨hname, fun x hx => absurd hx (Option.not_mem_none x)⟩
  have hworking : SafeUpdate (.branch (candidateBranch env.id),
      some (createSyntheticChain env.now snapshot).workingCommit) := by
    refine ⟨hname, fun x hx => Or.inr ?_⟩
    obtain rfl := Option.mem_some.mp hx
    exact (createSyntheticChain_synthetic env.now snapshot).2
  intro u hu
  rcases List.mem_append.mp hu with hu | hu
  · simp only [List.mem_cons, List.not_mem_nil, or_false] at hu
    rcases hu with rfl | rfl | rfl | rfl
    · trivial
    · trivial
    · trivial
    · exact hworking
  · split at hu
    · rw [List.mem_singleton.mp hu]
      exact hdelete
    · next head hrebase =>
      rcases List.mem_cons.mp hu with rfl | hu
      · refine ⟨hname, fun x hx => ?_⟩
        obtain rfl := Option.mem_some.mp hx
        exact (rebaseSynthetic_clean h hhead htarget hrebase).1
      · split at hu
        · exact failedUpdates_safe retention env.id u hu
        · simp only [List.mem_cons, List.not_mem_nil, or_false] at hu
          rcases hu with rfl | rfl
          · trivial
          · exact hdelete

theorem Preparation.begin_safe {r : Repository β} {previous target : Commit (Tree β)}
    (hhead : ∀ c, r.headCommit = some c → Clean c) (htarget : Clean target) :
    (Preparation.begin env retention r previous target).Safe := by
  refine ⟨?_, fun t candidate ht hc => prepareReconciliation_clean hhead htarget ht hc⟩
  intro u hu
  unfold Preparation.begin at hu
  dsimp only at hu
  split at hu
  · exact absurd hu List.not_mem_nil
  · next snapshot hcapture =>
    split at hu
    · next hchecks =>
      have hsnapshot : Clean snapshot.head := hhead _ (captureWorkspace_eq_some.mp hcapture).1
      obtain ⟨-, -, -, hlocal, -, -⟩ := hchecks
      exact candidateUpdates_safe hlocal hsnapshot htarget u hu
    · exact absurd hu List.not_mem_nil

omit [DecidableEq β] in
theorem Preparation.Safe.fail {p p' : Preparation β} (h : p.Safe) (hp : p.fail = some p') :
    p'.Safe := by
  have herror : ∀ (t : Transaction β) (candidate : Candidate β),
      (.error .command : Except Failure (PreparedReconciliation β)) = .ok (.ready t) →
      t.candidate = some candidate → Clean candidate.realHead := by
    intro t candidate ht
    cases ht
  have hnone : ∀ u ∈ ([] : List (RefUpdate β)), SafeUpdate u :=
    fun u hu => absurd hu List.not_mem_nil
  unfold Preparation.fail at hp
  split at hp
  · cases hp
  · next b rest hu =>
    obtain rfl := Option.some.inj hp
    refine ⟨fun u hmem => h.updates u ?_, h.result⟩
    rw [hu]
    exact List.mem_cons_of_mem _ hmem
  · obtain rfl := Option.some.inj hp
    exact ⟨hnone, h.result⟩
  · obtain rfl := Option.some.inj hp
    refine ⟨?_, herror⟩
    dsimp only
    split
    · exact failedUpdates_safe p.retention p.id
    · exact hnone
  · obtain rfl := Option.some.inj hp
    exact ⟨failedUpdates_safe p.retention p.id, herror⟩

end Preparations

namespace HostedCheckout

/-- Nothing that is pushed but a candidate branch has a synthetic commit in its
history, and a candidate branch has one only if it is at one. -/
structure Kept (w : HostedCheckout β) : Prop where
  hosted : ∀ b c, w.hosted.get b = some c → Clean c
  tracking : ∀ b c, w.tracking.get b = some c → Clean c
  branches : ∀ b c, w.branch b = some c → Clean c ∨ IsCandidate b ∧ Synthetic c
  head : UserHead w.checkout.repo.head
  queue : ∀ b c, (b, c) ∈ w.queue → Clean c
  preparing : ∀ process p, w.preparing process = some p → p.Safe
  listed : ∀ b, w.branch b ≠ none → b ∈ w.branches

/-- The state in which nothing is in progress and nothing is left over. -/
structure Start (w : HostedCheckout β) : Prop where
  hosted : ∀ b c, w.hosted.get b = some c → Clean c
  tracking : ∀ b c, w.tracking.get b = some c → Clean c
  branches : ∀ b c, w.branch b = some c → Clean c
  head : UserHead w.checkout.repo.head
  queue : w.queue = []
  preparing : ∀ process, w.preparing process = none
  listed : ∀ b, w.branch b ≠ none → b ∈ w.branches

/-- No synthetic commit is reachable from a hosted branch. -/
def HostedClean (w : HostedCheckout β) : Prop :=
  ∀ b c, w.hosted.get b = some c → ∀ a, Commit.Ancestor a c → ¬ Synthetic a

variable {w : HostedCheckout β}

theorem Start.kept (h : Start w) : Kept w where
  hosted := h.hosted
  tracking := h.tracking
  branches b c hb := Or.inl (h.branches b c hb)
  head := h.head
  queue b c hq := by
    rw [h.queue] at hq
    cases hq
  preparing process p hp := by
    rw [h.preparing process] at hp
    cases hp
  listed := h.listed

namespace Kept

/-- HEAD is never at a synthetic commit. -/
theorem headCommit (h : Kept w) {c : Commit (Tree β)}
    (hc : w.checkout.repo.headCommit = some c) : Clean c := by
  have huser := h.head
  unfold Repository.headCommit at hc
  split at hc
  · next b hb =>
    rw [hb] at huser
    rcases h.branches b c hc with hclean | ⟨hname, -⟩
    · exact hclean
    · exact absurd hname huser
  · next d hd =>
    rw [hd] at huser
    obtain rfl := Option.some.inj hc
    exact huser

theorem checkout (h : Kept w) {c : Checkout β} (hc : MovesClean w.checkout c) :
    Kept { w with checkout := c } where
  hosted := h.hosted
  tracking := h.tracking
  branches b x hx := by
    rcases hc.branch b with hsame | ⟨-, y, hy, hclean⟩
    · exact h.branches b x (hsame.symm.trans hx)
    · obtain rfl : x = y := Option.some.inj (hx.symm.trans hy)
      exact Or.inl hclean
  head := by
    change UserHead c.repo.head
    rw [hc.head]
    exact h.head
  queue := h.queue
  preparing := h.preparing
  listed b hb := by
    rcases hc.branch b with hsame | ⟨hne, -⟩
    · exact h.listed b fun hnone => hb (hsame.trans hnone)
    · exact h.listed b hne

theorem setPreparing (h : Kept w) (process : ℕ) {p : Option (Preparation β)}
    (hp : ∀ x ∈ p, x.Safe) :
    Kept { w with preparing := Function.update w.preparing process p } where
  hosted := h.hosted
  tracking := h.tracking
  branches := h.branches
  head := h.head
  queue := h.queue
  preparing k x hx := by
    change Function.update w.preparing process p k = some x at hx
    by_cases hk : k = process
    · subst hk
      rw [Function.update_self] at hx
      exact hp x hx
    · rw [Function.update_of_ne hk] at hx
      exact h.preparing k x hx
  listed := h.listed

theorem setMaterializing (h : Kept w) (m : ℕ → Option (Materialization β)) :
    Kept { w with materializing := m } :=
  ⟨h.hosted, h.tracking, h.branches, h.head, h.queue, h.preparing, h.listed⟩

theorem fetch (h : Kept w) : Kept { w with tracking := w.hosted } :=
  ⟨h.hosted, h.hosted, h.branches, h.head, h.queue, h.preparing, h.listed⟩

theorem setHosted (h : Kept w) (b : Branch) {c : Commit (Tree β)} (hc : Clean c) :
    Kept { w with hosted := w.hosted.set b (some c) } where
  hosted k x hx := by
    rw [FiniteMap.get_set] at hx
    by_cases hk : k = b
    · subst hk
      rw [Function.update_self] at hx
      rwa [← Option.some.inj hx]
    · rw [Function.update_of_ne hk] at hx
      exact h.hosted k x hx
  tracking := h.tracking
  branches := h.branches
  head := h.head
  queue := h.queue
  preparing := h.preparing
  listed := h.listed

theorem enqueue (h : Kept w) (b : Branch) {c : Commit (Tree β)} (hc : Clean c) :
    Kept { w with queue := w.queue ++ [(b, c)] } where
  hosted := h.hosted
  tracking := h.tracking
  branches := h.branches
  head := h.head
  queue k x hx := by
    rcases List.mem_append.mp hx with hx | hx
    · exact h.queue k x hx
    · obtain ⟨-, rfl⟩ := Prod.mk.inj (List.mem_singleton.mp hx)
      exact hc
  preparing := h.preparing
  listed := h.listed

theorem setRef (h : Kept w) (ref : Ref) (c : Option (Commit (Tree β)))
    (hsafe : ∀ b, ref = .branch b → ∀ x ∈ c, Clean x ∨ IsCandidate b ∧ Synthetic x) :
    Kept (w.setRef ref c) where
  hosted := h.hosted
  tracking := h.tracking
  branches b x hx := by
    change Function.update w.checkout.repo.refs ref c (.branch b) = some x at hx
    by_cases hb : Ref.branch b = ref
    · subst hb
      rw [Function.update_self] at hx
      exact hsafe b rfl x hx
    · rw [Function.update_of_ne hb] at hx
      exact h.branches b x hx
  head := h.head
  queue := h.queue
  preparing := h.preparing
  listed b hb := by
    change Function.update w.checkout.repo.refs ref c (.branch b) ≠ none at hb
    by_cases href : Ref.branch b = ref
    · subst href
      exact Finset.mem_insert_self b w.branches
    · rw [Function.update_of_ne href] at hb
      have hmem : b ∈ w.branches := h.listed b hb
      cases ref with
      | branch name => exact Finset.mem_insert_of_mem hmem
      | recovery id slot => exact hmem

end Kept

section Pushes

variable [DecidableEq β]

theorem get_pushTo (w : HostedCheckout β) (m : Materialization β) (b : Branch) :
    (w.pushTo m).get b = if b ∈ w.accepted m then w.branch b else w.hosted.get b := by
  refine FiniteMap.get_collect_of_subset (fun k hk => ?_) b
  by_cases hmem : k ∈ w.accepted m
  · exact Finset.mem_union_right _ hmem
  · rw [if_neg hmem] at hk
    exact Finset.mem_union_left _ ((w.hosted.mem_keys k).mpr hk)

/-- A push of `materialize_project` moves no hosted branch to a candidate
branch that is at a synthetic commit. -/
def PublishesNoCandidate (w : HostedCheckout β) : HostedEvent β → Prop
  | .push process => ∀ m ∈ w.materializing process, ∀ b ∈ w.accepted m, IsCandidate b →
      ∀ c ∈ w.branch b, ¬ Synthetic c
  | _ => True

theorem Kept.push (h : Kept w) {process : ℕ} {m : Materialization β}
    (hm : w.materializing process = some m) (hok : w.PublishesNoCandidate (.push process)) :
    Kept { w with
      hosted := w.pushTo m
      tracking := w.pushTo m
      materializing := Function.update w.materializing process none } := by
  have hpushed : ∀ b c, (w.pushTo m).get b = some c → Clean c := by
    intro b c hc
    rw [get_pushTo] at hc
    split at hc
    · next hmem =>
      rcases h.branches b c hc with hclean | ⟨hname, hsynthetic⟩
      · exact hclean
      · exact absurd hsynthetic (hok m hm b hmem hname c hc)
    · exact h.hosted b c hc
  exact ⟨hpushed, hpushed, h.branches, h.head, h.queue, h.preparing, h.listed⟩

/-- One step, of the users or of the program. -/
theorem Kept.step {w' : HostedCheckout β} {e : HostedEvent β} (h : Kept w)
    (hok : w.PublishesNoCandidate e) (hs : w.step e = some w') : Kept w' := by
  cases e with
  | edit index unmerged disk =>
    obtain rfl := Option.some.inj hs
    exact h.checkout ⟨rfl, fun _ => Or.inl rfl⟩
  | moveBranch b c =>
    simp only [HostedCheckout.step] at hs
    split at hs
    · next hguard =>
      obtain rfl := Option.some.inj hs
      exact h.setRef _ c fun _ _ x hx => Or.inl (hguard.2 x hx)
    · cases hs
  | switch head =>
    simp only [HostedCheckout.step] at hs
    split at hs
    · next hguard =>
      obtain rfl := Option.some.inj hs
      exact ⟨h.hosted, h.tracking, h.branches, hguard, h.queue, h.preparing, h.listed⟩
    · cases hs
  | otherPush b c =>
    simp only [HostedCheckout.step] at hs
    split at hs
    · next hguard =>
      obtain rfl := Option.some.inj hs
      exact h.setHosted b hguard.1
    · cases hs
  | fetch =>
    obtain rfl := Option.some.inj hs
    exact h.fetch
  | enqueue b source =>
    cases source with
    | none =>
      obtain ⟨c, hc, rfl⟩ := Option.map_eq_some_iff.mp hs
      exact h.enqueue b (h.headCommit hc)
    | some name =>
      simp only [HostedCheckout.step] at hs
      split at hs
      · cases hs
      · next hname =>
        obtain ⟨c, hc, rfl⟩ := Option.map_eq_some_iff.mp hs
        rcases h.branches name c hc with hclean | ⟨hcandidate, -⟩
        · exact h.enqueue b hclean
        · exact absurd hcandidate hname
  | deliver b c =>
    simp only [HostedCheckout.step] at hs
    split at hs
    · next hmem =>
      obtain rfl := Option.some.inj hs
      exact h.setHosted b (h.queue b c hmem)
    · cases hs
  | begin process env retention previous b =>
    simp only [HostedCheckout.step] at hs
    split at hs
    · next target htarget _ _ =>
      obtain rfl := Option.some.inj hs
      apply h.setPreparing
      intro p hp
      obtain rfl := Option.mem_some.mp hp
      exact Preparation.begin_safe (fun c => h.headCommit) (h.tracking b target htarget)
    · cases hs
  | «continue» process =>
    simp only [HostedCheckout.step] at hs
    split at hs
    · next id retention result ref c rest hp =>
      obtain rfl := Option.some.inj hs
      have hsafe := h.preparing process _ hp
      -- A preparation writes no branch but its candidate's.
      have href : ∀ b, ref = .branch b → ∀ x ∈ c, Clean x ∨ IsCandidate b ∧ Synthetic x := by
        rintro b rfl x hx
        have hfirst := hsafe.updates (.branch b, c) List.mem_cons_self
        rcases hfirst.2 x hx with hclean | hsynthetic
        · exact Or.inl hclean
        · exact Or.inr ⟨hfirst.1, hsynthetic⟩
      refine (h.setRef ref c href).setPreparing process fun p hp => ?_
      obtain rfl := Option.mem_some.mp hp
      exact ⟨fun u hu => hsafe.updates u (List.mem_cons_of_mem _ hu), hsafe.result⟩
    · cases hs
  | fail process =>
    obtain ⟨p', hp', rfl⟩ := Option.map_eq_some_iff.mp hs
    obtain ⟨p, hp, hfail⟩ := Option.bind_eq_some_iff.mp hp'
    apply h.setPreparing
    intro x hx
    obtain rfl := Option.mem_some.mp hx
    exact (h.preparing process p hp).fail hfail
  | stop process =>
    obtain rfl := Option.some.inj hs
    have hnone : ∀ x ∈ (none : Option (Preparation β)), x.Safe :=
      fun x hx => absurd hx (Option.not_mem_none x)
    exact (h.setPreparing process hnone).setMaterializing _
  | install process env cut =>
    simp only [HostedCheckout.step] at hs
    split at hs
    · next id retention t hp =>
      obtain rfl := Option.some.inj hs
      have hcandidate : ∀ candidate, t.candidate = some candidate → Clean candidate.realHead :=
        fun candidate hc => (h.preparing process _ hp).result t candidate rfl hc
      have hmoves : MovesClean w.checkout (w.installed env retention t cut) := by
        unfold installed
        split
        · exact installPreparedReconciliation_movesClean hcandidate w.checkout
        · next n =>
          split
          · exact MovesClean.refl w.checkout
          · next candidate hc => exact installUpTo_movesClean (hcandidate candidate hc) n w.checkout
      refine (h.checkout hmoves).setPreparing process fun x hx => ?_
      exact absurd hx (Option.not_mem_none x)
    · cases hs
  | recover env retention id cut =>
    obtain rfl := Option.some.inj hs
    exact h.checkout (recoverUpTo_movesClean id cut w.checkout)
  | materialize process =>
    obtain rfl := Option.some.inj hs
    exact h.fetch.setMaterializing _
  | select process =>
    simp only [HostedCheckout.step] at hs
    split at hs
    · obtain rfl := Option.some.inj hs
      exact h.setMaterializing _
    · cases hs
  | push process =>
    simp only [HostedCheckout.step] at hs
    split at hs
    · next m hm =>
      obtain rfl := Option.some.inj hs
      exact h.push hm hok
    · cases hs

/-- Only a push that carries no candidate at a synthetic commit leaves the
hosted repository clean. -/
theorem publishesNoCandidate_of_hostedClean {e : HostedEvent β}
    (h : ∀ w', w.step e = some w' → HostedClean w') : w.PublishesNoCandidate e := by
  cases e with
  | push process =>
    intro m hm b hb _ c hc
    have hstep : w.step (.push process) = some { w with
        hosted := w.pushTo m
        tracking := w.pushTo m
        materializing := Function.update w.materializing process none } := by
      have hm : w.materializing process = some m := hm
      simp only [HostedCheckout.step, hm]
    have hget : (w.pushTo m).get b = some c := by
      rw [get_pushTo, if_pos hb]
      exact hc
    exact h _ hstep b c hget c (CommitGraph.Ancestor.refl c)
  | _ => trivial

instance (w : HostedCheckout β) (e : HostedEvent β) : Decidable (w.PublishesNoCandidate e) :=
  match e with
  | .push process => inferInstanceAs (Decidable (∀ m ∈ w.materializing process, _))
  | .edit .. | .moveBranch .. | .switch .. | .otherPush .. | .fetch | .enqueue .. | .deliver ..
  | .begin .. | .continue .. | .fail .. | .stop .. | .install .. | .recover .. | .materialize ..
  | .select .. => .isTrue trivial

/-- In every run, wherever preparations and installations stop, the hosted
branches are clean in every state reached exactly when no push of
`materialize_project` in the run carries a candidate branch at a synthetic
commit. -/
theorem hosted_stays_clean_iff (h0 : Start w) (es : List (HostedEvent β)) :
    Runs.Steps step PublishesNoCandidate w es ↔
      ∀ done rest u, es = done ++ rest → Runs.run step w done = some u → HostedClean u :=
  Runs.steps_iff_forall_reached (fun _ _ _ h hok hs => h.step hok hs)
    (fun _ h b c hc => h.hosted b c hc) (fun _ _ _ h => publishesNoCandidate_of_hostedClean h)
    h0.kept

end Pushes

section Shared

/-- A checkout of `main`, behind a hosted `main`, with nothing in progress. -/
def sharedMain (head : Commit (Tree ℕ)) (index files : Tree ℕ) : HostedCheckout ℕ where
  checkout := ⟨mainAt head index files, fun _ => none⟩
  branches := {"main"}
  hosted := FiniteMap.empty.set "main" (some newRevision)
  tracking := FiniteMap.empty.set "main" (some newRevision)
  preparing _ := none
  materializing _ := none
  queue := []

theorem start_sharedMain {head : Commit (Tree ℕ)} (h : Clean head) (index files : Tree ℕ) :
    Start (sharedMain head index files) := by
  have hhosted : ∀ b c, (FiniteMap.empty.set "main" (some newRevision)).get b = some c →
      Clean c := by
    intro b c hc
    rw [FiniteMap.get_set] at hc
    by_cases hb : b = "main"
    · subst hb
      rw [Function.update_self] at hc
      obtain rfl := Option.some.inj hc
      decide
    · rw [Function.update_of_ne hb] at hc
      cases hc
  have hbranch : ∀ b, (sharedMain head index files).branch b =
      if Ref.branch b = .branch "main" then some head else none := fun _ => rfl
  refine ⟨hhosted, hhosted, fun b c hc => ?_, ?_, rfl, fun _ => rfl, fun b hb => ?_⟩
  · rw [hbranch] at hc
    split at hc
    · obtain rfl := Option.some.inj hc
      exact h
    · cases hc
  · change ¬ IsCandidate "main"
    decide
  · rw [hbranch] at hb
    split at hb
    · next hmain => exact Finset.mem_singleton.mpr (Ref.branch.inj hmain)
    · exact absurd rfl hb

/-- A local commit on the old revision. -/
def localRevision : Commit (Tree ℕ) :=
  .mk [oldRevision] (filesOf [(["x"], 0), (["m"], 7)]) plainInfo

/-- Behind upstream, with a staged file that has an unstaged change. -/
def behindMain : HostedCheckout ℕ :=
  sharedMain oldRevision (filesOf [(["x"], 0), (["n"], 5)]) (filesOf [(["x"], 0), (["n"], 6)])

/-- The same with a local commit. -/
def divergedMain : HostedCheckout ℕ :=
  sharedMain localRevision (filesOf [(["x"], 0), (["m"], 7), (["n"], 5)])
    (filesOf [(["x"], 0), (["m"], 7), (["n"], 6)])

/-- A whole reconciliation, and then `materialize_project`. -/
def reconcileAndJoin : List (HostedEvent ℕ) :=
  .begin 0 plainEnv noRetention oldRevision "main" :: List.replicate 7 (.continue 0) ++
    [.install 0 plainEnv none, .materialize 1, .select 1, .push 1]

/-- A preparation that stops before the rebase, and then `materialize_project`. -/
def stopAndJoin : List (HostedEvent ℕ) :=
  .begin 0 plainEnv noRetention oldRevision "main" :: List.replicate 4 (.continue 0) ++
    [.stop 0, .materialize 1, .select 1, .push 1]

/-- The run that is carried through publishes the replayed commit. -/
theorem hosted_stays_clean_two :
    (∃ w c, Runs.run step divergedMain reconcileAndJoin = some w ∧
      w.hosted.get "main" = some c ∧ c.parents = [newRevision]) ∧
    ∀ done rest u, reconcileAndJoin = done ++ rest → Runs.run step divergedMain done = some u →
      HostedClean u := by
  refine ⟨?_, (hosted_stays_clean_iff (start_sharedMain (by decide) _ _) _).mp
    (by decide +kernel)⟩
  have htest : (((Runs.run step divergedMain reconcileAndJoin).bind fun w =>
      w.hosted.get "main").map fun c => c.parents) = some [newRevision] := by decide +kernel
  obtain ⟨c, hc, hparents⟩ := Option.map_eq_some_iff.mp htest
  obtain ⟨w, hw, hget⟩ := Option.bind_eq_some_iff.mp hc
  exact ⟨w, c, hw, hget, hparents⟩

/-- The branch that the stopped preparation has left is pushed, and a synthetic
commit is reachable from it. -/
theorem stopped_preparation_is_published : Start behindMain ∧
    ∃ w c, Runs.run step behindMain stopAndJoin = some w ∧
      w.hosted.get "resync-candidate-t" = some c ∧ Synthetic c ∧ ¬ HostedClean w := by
  refine ⟨start_sharedMain (by decide) _ _, ?_⟩
  have htest : ((Runs.run step behindMain stopAndJoin).bind fun w =>
      w.hosted.get "resync-candidate-t").any (fun c => decide (Synthetic c)) = true := by
    decide +kernel
  obtain ⟨c, hc, hsynthetic⟩ := (Option.any_eq_true _ _).mp htest
  obtain ⟨w, hw, hget⟩ := Option.bind_eq_some_iff.mp hc
  have hc : Synthetic c := of_decide_eq_true hsynthetic
  exact ⟨w, c, hw, hget, hc, fun h => h _ c hget c (CommitGraph.Ancestor.refl c) hc⟩

end Shared

end HostedCheckout

end Resync
