import Resync.Lib.Runs
import Resync.PublishingSteps

/-! A push goes through when the hosted branch is at the head that the
publication expects; whether the candidate descends from that head is never
tested. The push is a fast-forward if the publication was recorded so. -/
namespace Resync

variable {Oid Task : Type}

/-- The candidate has the expected hosted head, if there is one, in its history. -/
def Publication.Descends (G : CommitGraph Oid) (p : Publication Oid) : Prop :=
  ∀ x ∈ p.expectedRemoteOid, G.Ancestor x p.candidateCommitOid

namespace PublishWorld

/-- A daemon that starts with an empty queue. -/
structure Start (w : PublishWorld Oid Task) : Prop where
  queue : w.queue = []
  calls : ∀ task, w.calls task = .idle
  delivery : w.delivery = .idle
  hostedLog : ∀ url b h, w.hosted url b = some h → h ∈ w.hostedLog url b
  recorded : w.recorded = []
  acknowledged : w.acknowledged = []

/-- Every publication that is queued or under way descends from the hosted head
that it expects. -/
structure Forward (G : CommitGraph Oid) (w : PublishWorld Oid Task) : Prop where
  queue : ∀ p ∈ w.queue, p.Descends G
  calls : ∀ task name p next, w.calls task = .created name p next → p.Descends G
  delivery : ∀ p ∈ w.delivery.copy, p.Descends G

variable {G : CommitGraph Oid} {w w' : PublishWorld Oid Task}

theorem Start.forward (h : Start w) : Forward G w where
  queue p hp := by
    rw [h.queue] at hp
    cases hp
  calls task name p next hc := by
    rw [h.calls task] at hc
    cases hc
  delivery p hp := by
    rw [h.delivery] at hp
    cases hp

variable [DecidableEq Oid] (G)

/-- The condition on the steps that record a publication: a new one is of a
commit that has the advertised head, if any, in its history, and a repeated one
is of a HEAD that has the fetched head in its history. -/
def RecordsDescendants (w : PublishWorld Oid Task) : PublishEvent Oid Task → Prop
  | .call task (.create _ _) =>
    match w.calls task with
    | .cloned _ project b c _ =>
      PublicationQueue.existing w.queue project.projectId b c = none →
        ∀ x ∈ project.advertisedHeads b, G.Ancestor x c
    | _ => True
  | .deliver (.retarget _) =>
    match w.delivery with
    | .headRead _ _ remoteHead head => ∀ x ∈ remoteHead, G.Ancestor x head
    | _ => True
  | _ => True

/-- No hosted branch goes away or loses a commit. -/
def HostedGrows (w w' : PublishWorld Oid Task) : Prop :=
  ∀ url b x, w.hosted url b = some x → ∃ y, w'.hosted url b = some y ∧ G.Ancestor x y

variable {G}

omit [DecidableEq Oid] in
theorem hostedGrows_refl (w : PublishWorld Oid Task) : HostedGrows G w w :=
  fun _ _ x hx => ⟨x, hx, CommitGraph.Ancestor.refl x⟩

omit [DecidableEq Oid] in
theorem HostedGrows.trans {u : PublishWorld Oid Task} (h : HostedGrows G w w')
    (h' : HostedGrows G w' u) : HostedGrows G w u := by
  intro url b x hx
  obtain ⟨y, hy, hxy⟩ := h url b x hx
  obtain ⟨z, hz, hyz⟩ := h' url b y hy
  exact ⟨z, hz, hxy.trans hyz⟩

omit [DecidableEq Oid] in
theorem hostedGrows_of_moves {allowed : String → Branch → Oid → Prop}
    (h : HostedMoves allowed w w')
    (hforward : ∀ url b c, allowed url b c → ∀ x ∈ w.hosted url b, G.Ancestor x c) :
    HostedGrows G w w' := by
  intro url b x hx
  rcases h with ⟨hsame, -⟩ | ⟨url', b', c, hallowed, hmoved, -⟩
  · rw [hsame]
    exact ⟨x, hx, CommitGraph.Ancestor.refl x⟩
  · have hget : w'.hosted url b =
        Function.update w.hosted url' (Function.update (w.hosted url') b' (some c)) url b := by
      rw [hmoved, setHosted]
    rw [hget]
    by_cases hurl : url = url'
    · subst hurl
      rw [Function.update_self]
      by_cases hb : b = b'
      · subst hb
        rw [Function.update_self]
        exact ⟨c, rfl, hforward url b c hallowed x hx⟩
      · rw [Function.update_of_ne hb]
        exact ⟨x, hx, CommitGraph.Ancestor.refl x⟩
    · rw [Function.update_of_ne hurl]
      exact ⟨x, hx, CommitGraph.Ancestor.refl x⟩

namespace Forward

omit [DecidableEq Oid] in
theorem of_frame (h : Forward G w) (hframe : UserFrame w w') : Forward G w' where
  queue p hp := h.queue p (hframe.queue.queue ▸ hp)
  calls task name p next hc := by
    rcases hframe.calls task with hsame | ⟨_, _, _, _, hhook⟩
    · exact h.calls task name p next (hsame.symm.trans hc)
    · rw [hhook] at hc
      cases hc
  delivery p hp := h.delivery p (hframe.delivery ▸ hp)

variable [DecidableEq Task]

/-- A task keeps the invariant if what it records descends from the hosted head
that was advertised. -/
theorem call (h : Forward G w) {task : Task} {e : CallEvent Oid}
    (hok : RecordsDescendants G w (.call task e)) (hs : w.call G task e = some w') :
    Forward G w' := by
  obtain ⟨hframe, hcases⟩ := call_cases hs
  have hcalls : (∀ name p next, w'.calls task = .created name p next → p.Descends G) →
      ∀ t name p next, w'.calls t = .created name p next → p.Descends G := by
    intro hown t name p next hc
    by_cases ht : t = task
    · exact hown name p next (ht ▸ hc)
    · exact h.calls t name p next ((hframe.calls t ht).symm.trans hc)
  have hdelivery : ∀ p ∈ w'.delivery.copy, p.Descends G := by
    rw [hframe.delivery]
    exact h.delivery
  rcases hcases with hquiet | ⟨name, project, b, c, next, p, hcreates⟩ | ⟨p, hpushes⟩
  · refine ⟨fun p hp => h.queue p (hquiet.queue.queue ▸ hp), hcalls ?_, hdelivery⟩
    intro name p next hc
    have hnot := hquiet.notCreated
    rw [hc] at hnot
    exact absurd trivial hnot
  · refine ⟨fun p hp => h.queue p (hcreates.queue ▸ hp), hcalls ?_, hdelivery⟩
    intro name' q next' hc
    obtain ⟨-, rfl, -⟩ := Call.created.inj (hcreates.created.symm.trans hc)
    obtain ⟨id, now, rfl, -, -, rfl⟩ := hcreates.publication
    simp only [RecordsDescendants, hcreates.cloned] at hok
    exact hok hcreates.first
  · obtain ⟨name, next, hcreated, hqueued⟩ := hpushes.created
    refine ⟨fun q hq => ?_, hcalls ?_, hdelivery⟩
    · rw [hpushes.queue] at hq
      rcases List.mem_append.mp hq with hq | hq
      · exact h.queue q hq
      · obtain rfl := List.mem_singleton.mp hq
        exact h.calls task name q next hcreated
    · intro name' q next' hc
      rw [hqueued] at hc
      cases hc

omit [DecidableEq Task] in
theorem deliver (h : Forward G w) {e : DeliveryEvent Oid}
    (hok : RecordsDescendants G w (.deliver e : PublishEvent Oid Task))
    (hs : w.deliver G e = some w') : Forward G w' := by
  have hframe := deliver_frame hs
  refine ⟨fun q hq => ?_, fun task name p next hc => ?_, fun p hp => ?_⟩
  · rcases hframe.queue q hq with ⟨p, hp, -, hcandidate, hexpected⟩ |
      ⟨now, a, p, remoteHead, head, x, rfl, hplace, -, rfl⟩
    · have hdescends := h.queue p hp
      rw [Publication.Descends, hcandidate, hexpected]
      exact hdescends
    · simp only [RecordsDescendants, hplace] at hok
      exact hok
  · rw [hframe.calls] at hc
    exact h.calls task name p next hc
  · rcases hframe.copy p hp with hp | hp
    · exact h.delivery p hp
    · exact h.queue p hp

theorem step (h : Forward G w) {e : PublishEvent Oid Task} (hok : RecordsDescendants G w e)
    (hs : w.step G e = some w') : Forward G w' := by
  cases e with
  | user e => exact h.of_frame (user_frame hs).1
  | call task e => exact h.call hok hs
  | deliver e => exact h.deliver hok hs
  | writeProject name record =>
    obtain ⟨rfl, -⟩ := writeProject_eq_some hs
    exact ⟨h.queue, h.calls, h.delivery⟩
  | install path b new old =>
    obtain rfl := install_eq_some hs
    exact ⟨h.queue, h.calls, h.delivery⟩
  | restart =>
    obtain rfl := Option.some.inj hs
    refine ⟨h.queue, fun task name p next hc => ?_, fun p hp => ?_⟩
    · have hnot := afterRestart_not_created (w.calls task)
      have hc : (w.calls task).afterRestart = .created name p next := hc
      rw [hc] at hnot
      exact absurd trivial hnot
    · cases hp

end Forward

variable [DecidableEq Task]

/-- Under the invariant every step keeps what is reachable from the hosted
branches: a push of the daemon replaces the head that it expects. -/
theorem Forward.grows (h : Forward G w) {e : PublishEvent Oid Task} (hs : w.step G e = some w') :
    HostedGrows G w w' := by
  cases e with
  | user e => exact hostedGrows_of_moves (user_frame hs).2 fun _ _ _ hc => hc
  | call task e =>
    intro url b x hx
    rw [(call_cases hs).1.hosted]
    exact ⟨x, hx, CommitGraph.Ancestor.refl x⟩
  | deliver e =>
    apply hostedGrows_of_moves (deliver_frame hs).hosted
    rintro url b c ⟨p, hp, rfl, hexpected⟩ x hx
    rw [hexpected] at hx
    exact h.delivery p hp x hx
  | writeProject name record =>
    obtain ⟨rfl, -⟩ := writeProject_eq_some hs
    exact hostedGrows_refl w
  | install path b new old =>
    obtain rfl := install_eq_some hs
    exact hostedGrows_refl w
  | restart =>
    obtain rfl := Option.some.inj hs
    exact hostedGrows_refl w

/-- In every run in which what is recorded descends from the hosted head that
it expects, every step, so every push, leaves each hosted branch at a commit
with the one before in its history, and so does every part of the run. -/
theorem hosted_moves_forward (h0 : Start w) {done more : List (PublishEvent Oid Task)}
    {u v : PublishWorld Oid Task}
    (hok : Runs.Steps (step G) (RecordsDescendants G) w (done ++ more))
    (hdone : Runs.run (step G) w done = some u) (hmore : Runs.run (step G) u more = some v)
    {url : String} {b : Branch} {x : Oid} (hx : u.hosted url b = some x) :
    ∃ y, v.hosted url b = some y ∧ G.Ancestor x y := by
  obtain ⟨hok₁, hok₂⟩ := hok.of_append
  have hstep : ∀ (s : PublishWorld Oid Task) (e : PublishEvent Oid Task) t, Forward G s →
      RecordsDescendants G s e → step G s e = some t → Forward G t :=
    fun _ _ _ h hok hs => h.step hok hs
  have hforward : Forward G u := Runs.run_invariant hstep h0.forward hok₁ hdone
  have hrefl : ∀ s : PublishWorld Oid Task, HostedGrows G s s := hostedGrows_refl
  have htrans : ∀ s t v : PublishWorld Oid Task, HostedGrows G s t → HostedGrows G t v →
      HostedGrows G s v := fun _ _ _ h h' => h.trans h'
  have hgrows : HostedGrows G u v := Runs.run_relation hrefl htrans hstep
    (fun _ _ _ h _ hs => h.grows hs) hforward (hok₂ u hdone) hmore
  exact hgrows url b x hx

end PublishWorld

section OneProject

instance (G : CommitGraph Oid) [DecidableEq Oid] (w : PublishWorld Oid Task)
    (e : PublishEvent Oid Task) : Decidable (w.RecordsDescendants G e) := by
  unfold PublishWorld.RecordsDescendants
  split
  · split <;> infer_instance
  · split <;> infer_instance
  · infer_instance

/-- Commit `n + 1` is a child of commit `n / 2`, so `1` and `2` amend each
other, and so do `3` and `4` on top of `1`. -/
def pairGraph : CommitGraph ℕ where
  parents n := if n = 0 then [] else [(n - 1) / 2]
  depth n := n
  depth_lt c p h := by
    by_cases hc : c = 0
    · rw [if_pos hc] at h
      cases h
    · rw [if_neg hc, List.mem_singleton] at h
      omega

def currentProject : LocalProject ℕ where
  projectId := "prj"
  localPath := "/work"
  remoteUrl := "host/prj"
  remoteName := "resync"
  defaultBranch := "main"
  serverGeneration := 0
  advertisedHeads b := if b = "main" then some 1 else none
  lastAppliedHeads b := if b = "main" then some 1 else none
  activeBranch := some "main"
  workspaceGeneration := 1
  state := .current
  durability := .remotelyDurable
  conflict := none
  lastError := none
  service := none
  checkoutId := none

/-- One project, whose checked out and hosted `main` is at commit `1`. -/
def currentMain : PublishWorld ℕ (Fin 2) where
  token := false
  catalog := ⟨0, [currentProject]⟩
  queue := []
  checkouts _ := ⟨.attached "main", fun b => if b = "main" then some 1 else none, fun _ => none⟩
  hosted url b := if url = "host/prj" ∧ b = "main" then some 1 else none
  calls _ := .idle
  delivery := .idle
  hostedLog url b := if url = "host/prj" ∧ b = "main" then [1] else []
  recorded := []
  acknowledged := []
  issued := []

theorem start_currentMain : currentMain.Start where
  queue := rfl
  calls _ := rfl
  delivery := rfl
  hostedLog url b h hh := by
    simp only [currentMain] at hh ⊢
    split at hh
    · next hmain =>
      rw [if_pos hmain, Option.some.inj hh]
      exact List.mem_singleton_self h
    · cases hh
  recorded := rfl
  acknowledged := rfl

/-- The post-commit hook in a task, up to the queue. -/
def reportHead (task : Fin 2) (id : String) (now : ℕ) : List (PublishEvent ℕ (Fin 2)) :=
  [.call task (.hookCommit "prj"), .call task .hookBranch, .call task .clone,
    .call task (.create id now), .call task .push, .call task .record]

/-- One pass over the queue that pushes its youngest publication. -/
def deliverYoungest (now : ℕ) : List (PublishEvent ℕ (Fin 2)) :=
  [.start true now, .next, .load, .project, .fetch, .validate, .push true, .confirm,
    .acknowledge now (.remoteAdvanced ""), .complete now].map .deliver

theorem hosted_moves_forward_two :
    (∃ v, Runs.run (PublishWorld.step pairGraph) currentMain
        (.user (.commit "/work" 3) :: reportHead 0 "pub" 5 ++ deliverYoungest 6) = some v ∧
      v.hosted "host/prj" "main" = some 3) ∧
    ∀ v, Runs.run (PublishWorld.step pairGraph) currentMain
        (.user (.commit "/work" 3) :: reportHead 0 "pub" 5 ++ deliverYoungest 6) = some v →
      ∃ y, v.hosted "host/prj" "main" = some y ∧ pairGraph.Ancestor 1 y := by
  refine ⟨?_, fun v hv => PublishWorld.hosted_moves_forward start_currentMain
    (by decide +kernel : Runs.Steps _ _ _ ([] ++ _)) rfl hv rfl⟩
  have htest : ((Runs.run (PublishWorld.step pairGraph) currentMain
      (.user (.commit "/work" 3) :: reportHead 0 "pub" 5 ++ deliverYoungest 6)).bind fun v =>
        v.hosted "host/prj" "main") = some 3 := by decide +kernel
  obtain ⟨v, hv, hhosted⟩ := Option.bind_eq_some_iff.mp htest
  exact ⟨v, hv, hhosted⟩

/-- The hosted commit `1` is amended to `2`, and the push of `2` drops `1` from
the hosted branch. -/
theorem amend_drops_hosted_commit : currentMain.Start ∧
    currentMain.hosted "host/prj" "main" = some 1 ∧
    ∃ v, Runs.run (PublishWorld.step pairGraph) currentMain
        (.user (.rewrite "/work" "main" 2) :: reportHead 0 "pub" 5 ++ deliverYoungest 6) = some v ∧
      v.hosted "host/prj" "main" = some 2 ∧ ¬ pairGraph.Ancestor 1 2 := by
  refine ⟨start_currentMain, rfl, ?_⟩
  have htest : ((Runs.run (PublishWorld.step pairGraph) currentMain
      (.user (.rewrite "/work" "main" 2) :: reportHead 0 "pub" 5 ++ deliverYoungest 6)).bind
        fun v => v.hosted "host/prj" "main") = some 2 := by decide +kernel
  obtain ⟨v, hv, hhosted⟩ := Option.bind_eq_some_iff.mp htest
  exact ⟨v, hv, hhosted, by decide +kernel⟩

end OneProject

end Resync
