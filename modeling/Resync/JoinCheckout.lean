import Resync.CandidateLayers
import Resync.Installation
import Resync.Materialize
import Resync.Registration

/-! `materialize_project` (`remote.rs`) on a checkout that exists, with no other writer: the
publication of the local branches, the join of the current one, and the record. -/
namespace Resync

namespace Joining

variable {β : Type}

/-- The checkout and the heads of the hosted repository. `listed` is what `for-each-ref` gives. -/
structure Join (β : Type) where
  checkout : Checkout β
  hosted : FiniteMap Branch (Commit (Tree β))
  listed : List Branch
  mem_listed : ∀ b, b ∈ listed ↔ checkout.repo.refs (.branch b) ≠ none

def localHead (checkout : Checkout β) (b : Branch) : Option (Commit (Tree β)) :=
  checkout.repo.refs (.branch b)

/-- The commands that can fail. `compare` is one of the two `merge-base` of the loop over the
branches, and `baseOf` that of the record. -/
inductive JoinStep where
  | configureRemote | canonicalize | fetch | localHeads
  | compare (name : Branch) (localIsBase : Bool)
  | push | refetch | isBehind | localHeadsAgain
  | baseOf (name : Branch)

/-- What the surroundings answer: what fails, which branches the host moves at a push, and what a
reconciliation is given. -/
structure JoinAnswers (β : Type) where
  fails : JoinStep → Bool
  accepts : Branch → Bool
  env : Env β
  retention : TransactionRetention

/-- What `materialize_project` is called with, and the path of the checkout. -/
structure JoinArguments where
  projectId : String
  catalogProject : CatalogProject
  localPath : String
  remoteName : String

/-- What a call leaves and returns. -/
structure JoinOutcome (β : Type) where
  checkout : Checkout β
  hosted : FiniteMap Branch (Commit (Tree β))
  result : Except Failure (LocalProject (Commit (Tree β)))

section Functions

variable [DecidableEq β]

/-- One turn of the loop: whether the branch is published. -/
def comparesTo (answers : JoinAnswers β) (name : Branch) (mine theirs : Commit (Tree β)) :
    Except Failure Bool :=
  if mine = theirs then .ok false
  else if answers.fails (.compare name false) || answers.fails (.compare name true) then
    .error .command
  else if ¬ Commit.Ancestor theirs mine ∧ ¬ Commit.Ancestor mine theirs then
    .error (.bail ("local and hosted histories for branch " ++ name ++ " diverge; RepoSync will " ++
      "not choose a project identity or overwrite either history"))
  else .ok (decide (Commit.Ancestor theirs mine))

/-- The loop over the local heads. A branch that is not hosted is published. -/
def toPublish (j : Join β) (answers : JoinAnswers β) : List Branch → Except Failure (List Branch)
  | [] => .ok []
  | name :: rest =>
    ((localHead j.checkout name).elim (.ok false) fun mine =>
      (j.hosted.get name).elim (.ok true) (comparesTo answers name mine)).bind fun publishes =>
        (toPublish j answers rest).map fun names => if publishes then name :: names else names

/-- The branches that a push without force moves. -/
def Moves (j : Join β) (answers : JoinAnswers β) (names : List Branch) (b : Branch) : Prop :=
  b ∈ names ∧ answers.accepts b = true ∧
    HostedCheckout.FastForwards (j.hosted.get b) (localHead j.checkout b)

instance (j : Join β) (answers : JoinAnswers β) (names : List Branch) :
    DecidablePred (Moves j answers names) := fun _ => inferInstanceAs (Decidable (_ ∧ _))

def pushed (j : Join β) (answers : JoinAnswers β) (names : List Branch) :
    FiniteMap Branch (Commit (Tree β)) :=
  .collect (j.hosted.keys ∪ names.toFinset) fun b =>
    if Moves j answers names b then localHead j.checkout b else j.hosted.get b

/-- The push, which fails when a branch of it is rejected, and the fetch after it. -/
def publish (j : Join β) (answers : JoinAnswers β) (names : List Branch) :
    FiniteMap Branch (Commit (Tree β)) × Except Failure Unit :=
  if names = [] then (j.hosted, .ok ())
  else (pushed j answers names,
    if answers.fails .push || !decide (∀ b ∈ names, Moves j answers names b) ||
        answers.fails .refetch then .error .command
    else .ok ())

/-- `reconcile_workspace`. -/
def reconcileWorkspace (answers : JoinAnswers β) (checkout : Checkout β)
    (previous target : Commit (Tree β)) :
    Checkout β × Except Failure (ReconcileResult (Commit (Tree β))) :=
  match prepareReconciliation answers.env checkout.repo previous target with
  | .error e => (checkout, .error e)
  | .ok prepared => checkout.installPreparedReconciliation answers.env answers.retention prepared

/-- The heads of the current branch, where they differ. -/
def currentHeads (checkout : Checkout β) (hosted : FiniteMap Branch (Commit (Tree β))) :
    Option (Commit (Tree β) × Commit (Tree β)) :=
  checkout.repo.headBranch.bind fun branch => (localHead checkout branch).bind fun mine =>
    (hosted.get branch).bind fun theirs => if mine = theirs then none else some (mine, theirs)

/-- The current branch joins the hosted one when it is behind. -/
def joinBranch (answers : JoinAnswers β) (checkout : Checkout β)
    (hosted : FiniteMap Branch (Commit (Tree β))) : Checkout β × Except Failure Unit :=
  (currentHeads checkout hosted).elim (checkout, .ok ()) fun heads =>
    if answers.fails .isBehind then (checkout, .error .command)
    else if Commit.Ancestor heads.1 heads.2 then
      let done := reconcileWorkspace answers checkout heads.1 heads.2
      (done.1, done.2.bind fun result =>
        if result.outcome ≠ .applied then
          .error (.bail ("joining the hosted project conflicts: " ++
            result.detail.getD result.outcome.text))
        else if answers.fails .localHeadsAgain then .error .command
        else .ok ())
    else (checkout, .ok ())

/-- The record of the project as the checkout is now; the branch was read before. -/
def record (arguments : JoinArguments) (answers : JoinAnswers β) (branch : Option Branch)
    (checkout : Checkout β) (hosted : FiniteMap Branch (Commit (Tree β))) :
    Except Failure (LocalProject (Commit (Tree β))) :=
  if ∃ b ∈ hosted.keys, answers.fails (.baseOf b) = true ∧ localHead checkout b ≠ none ∧
      localHead checkout b ≠ hosted.get b then .error .command
  else .ok { materializedProject (Commit.graph (Tree β)) arguments.projectId arguments.localPath
    arguments.catalogProject hosted (localHead checkout) branch with
      remoteName := arguments.remoteName }

/-- `materialize_project` from `configure_remote` on. -/
def materializeProject (arguments : JoinArguments) (answers : JoinAnswers β) (j : Join β) :
    JoinOutcome β :=
  let branch := j.checkout.repo.headBranch
  -- a refspec with a wildcard is never answered by a missing ref, so a fetch lists or fails
  if answers.fails .configureRemote || answers.fails .canonicalize || answers.fails .fetch ||
      answers.fails .localHeads then ⟨j.checkout, j.hosted, .error .command⟩
  else if j.hosted.keys = ∅ then
    let published := publish j answers j.listed
    ⟨j.checkout, published.1,
      published.2.bind fun _ => record arguments answers branch j.checkout published.1⟩
  else
    match toPublish j answers j.listed with
    | .error e => ⟨j.checkout, j.hosted, .error e⟩
    | .ok names =>
      let published := publish j answers names
      match published.2 with
      | .error e => ⟨j.checkout, published.1, .error e⟩
      | .ok _ =>
        let joined := joinBranch answers j.checkout published.1
        ⟨joined.1, published.1,
          joined.2.bind fun _ => record arguments answers branch joined.1 published.1⟩

end Functions

section Results

variable {ε α γ : Type}

theorem bind_ok {x : Except ε α} {f : α → Except ε γ} {c : γ} (h : x.bind f = .ok c) :
    ∃ a, x = .ok a ∧ f a = .ok c := by
  cases x with
  | error e => cases h
  | ok a => exact ⟨a, rfl, h⟩

theorem map_ok {x : Except ε α} {f : α → γ} {c : γ} (h : x.map f = .ok c) :
    ∃ a, x = .ok a ∧ f a = c := by
  cases x with
  | error e => cases h
  | ok a => exact ⟨a, rfl, Except.ok.inj h⟩

end Results

section Publication

variable [DecidableEq β] {j : Join β} {answers : JoinAnswers β}

/-- The local and the hosted history of some branch diverge. -/
def Diverges (j : Join β) : Prop :=
  ∃ b, ∃ mine ∈ localHead j.checkout b, ∃ theirs ∈ j.hosted.get b,
    ¬ Commit.Ancestor theirs mine ∧ ¬ Commit.Ancestor mine theirs

/-- A push without force moves the branch. -/
def IsAhead (j : Join β) (b : Branch) : Prop :=
  HostedCheckout.FastForwards (j.hosted.get b) (localHead j.checkout b)

omit [DecidableEq β] in
theorem Moves.isAhead {names : List Branch} {b : Branch} (h : Moves j answers names b) :
    IsAhead j b := h.2.2

omit [DecidableEq β] in
/-- A branch that is ahead has a local head, which the hosted one is below. -/
theorem IsAhead.heads {b : Branch} (h : IsAhead j b) : ∃ mine, localHead j.checkout b = some mine ∧
    ∀ theirs ∈ j.hosted.get b, theirs ≠ mine ∧ Commit.Ancestor theirs mine := by
  unfold IsAhead at h
  cases hmine : localHead j.checkout b with
  | none =>
    rw [hmine] at h
    cases hosted : j.hosted.get b with
    | none => rw [hosted] at h; exact h.elim
    | some theirs => rw [hosted] at h; exact h.elim
  | some mine =>
    refine ⟨mine, rfl, fun theirs htheirs => ?_⟩
    rw [hmine, Option.mem_def.mp htheirs] at h
    exact h

/-- A turn of the loop that goes on has found the histories comparable. -/
theorem comparesTo_ok {name : Branch} {mine theirs : Commit (Tree β)} {publishes : Bool}
    (h : comparesTo answers name mine theirs = .ok publishes) :
    (Commit.Ancestor theirs mine ∨ Commit.Ancestor mine theirs) ∧
      (publishes = true ↔ theirs ≠ mine ∧ Commit.Ancestor theirs mine) := by
  unfold comparesTo at h
  split_ifs at h with hsame hfails hdiverge
  · obtain rfl := Except.ok.inj h
    refine ⟨Or.inl (hsame ▸ CommitGraph.Ancestor.refl mine), ?_, fun hne => ?_⟩
    · intro hfalse
      cases hfalse
    · exact absurd hsame.symm hne.1
  · obtain rfl := Except.ok.inj h
    refine ⟨?_, fun hbase => ⟨Ne.symm hsame, of_decide_eq_true hbase⟩,
      fun hbase => decide_eq_true hbase.2⟩
    by_contra hnone
    exact hdiverge (not_or.mp hnone)

/-- The turn for one listed name. -/
theorem turn_ok {name : Branch} {publishes : Bool}
    (h : ((localHead j.checkout name).elim (.ok false) fun mine =>
      (j.hosted.get name).elim (.ok true) (comparesTo answers name mine)) = .ok publishes) :
    (publishes = true ↔ IsAhead j name) ∧
      ∀ mine ∈ localHead j.checkout name, ∀ theirs ∈ j.hosted.get name,
        Commit.Ancestor theirs mine ∨ Commit.Ancestor mine theirs := by
  unfold IsAhead
  cases hmine : localHead j.checkout name with
  | none =>
    rw [hmine] at h
    obtain rfl := Except.ok.inj h
    refine ⟨?_, fun mine hmem => by cases hmem⟩
    cases j.hosted.get name with
    | none => exact ⟨fun hfalse => (by cases hfalse), False.elim⟩
    | some theirs => exact ⟨fun hfalse => (by cases hfalse), False.elim⟩
  | some mine =>
    rw [hmine, Option.elim_some] at h
    cases htheirs : j.hosted.get name with
    | none =>
      rw [htheirs] at h
      obtain rfl := Except.ok.inj h
      exact ⟨⟨fun _ => trivial, fun _ => rfl⟩, fun _ _ theirs hmem => by cases hmem⟩
    | some theirs =>
      rw [htheirs, Option.elim_some] at h
      obtain ⟨hcomparable, hpublishes⟩ := comparesTo_ok h
      refine ⟨hpublishes, fun mine' hmem theirs' hmem' => ?_⟩
      obtain rfl := Option.some.inj hmem
      obtain rfl := Option.some.inj hmem'
      exact hcomparable

/-- The loop names the branches that are ahead, and goes through only if none diverges. -/
theorem toPublish_ok {listed names : List Branch} (h : toPublish j answers listed = .ok names) :
    (∀ b, b ∈ names ↔ b ∈ listed ∧ IsAhead j b) ∧
      ∀ b ∈ listed, ∀ mine ∈ localHead j.checkout b, ∀ theirs ∈ j.hosted.get b,
        Commit.Ancestor theirs mine ∨ Commit.Ancestor mine theirs := by
  induction listed generalizing names with
  | nil =>
    obtain rfl := Except.ok.inj h
    refine ⟨fun b => ?_, fun b hb => absurd hb List.not_mem_nil⟩
    exact ⟨fun hb => absurd hb List.not_mem_nil, fun hb => absurd hb.1 List.not_mem_nil⟩
  | cons name rest ih =>
    rw [toPublish] at h
    obtain ⟨publishes, hturn, h⟩ := bind_ok h
    obtain ⟨later, hrest, hnames⟩ := map_ok h
    obtain ⟨hahead, hcomparable⟩ := turn_ok hturn
    obtain ⟨hmem, hall⟩ := ih hrest
    refine ⟨fun b => ?_, fun b hb => ?_⟩
    · have hhead : b = name → (b ∈ names ↔ IsAhead j b) := by
        rintro rfl
        rw [← hahead, ← hnames]
        cases publishes with
        | true => exact ⟨fun _ => rfl, fun _ => List.mem_cons_self⟩
        | false =>
          rw [if_neg Bool.false_ne_true, hmem]
          exact ⟨fun hin => hahead.mpr hin.2, fun hfalse => by cases hfalse⟩
      have htail : b ≠ name → (b ∈ names ↔ b ∈ later) := by
        intro hne
        rw [← hnames]
        cases publishes with
        | true =>
          rw [if_pos rfl, List.mem_cons]
          exact ⟨fun hin => hin.resolve_left hne, Or.inr⟩
        | false => rw [if_neg Bool.false_ne_true]
      by_cases hb : b = name
      · rw [hhead hb, hb]
        exact ⟨fun hin => ⟨List.mem_cons_self, hin⟩, fun hin => hin.2⟩
      · rw [htail hb, hmem, List.mem_cons]
        exact and_congr_left fun _ => ⟨Or.inr, fun hin => hin.resolve_left hb⟩
    · rcases List.mem_cons.mp hb with rfl | hb
      · exact hcomparable
      · exact hall b hb

theorem get_publish (names : List Branch) (b : Branch) :
    (publish j answers names).1.get b =
      if Moves j answers names b then localHead j.checkout b else j.hosted.get b := by
  unfold publish
  split
  · next hnone =>
    rw [if_neg]
    rintro ⟨hin, -⟩
    rw [hnone] at hin
    exact absurd hin List.not_mem_nil
  · refine FiniteMap.get_collect_of_subset (fun k hk => ?_) b
    by_cases hmoved : Moves j answers names k
    · exact Finset.mem_union_right _ (List.mem_toFinset.mpr hmoved.1)
    · rw [if_neg hmoved] at hk
      exact Finset.mem_union_left _ ((j.hosted.mem_keys k).mpr hk)

theorem publish_ok {names : List Branch} (h : (publish j answers names).2 = .ok ()) {b : Branch}
    (hb : b ∈ names) : Moves j answers names b := by
  unfold publish at h
  split at h
  · next hnone =>
    rw [hnone] at hb
    exact absurd hb List.not_mem_nil
  · dsimp only at h
    split at h
    · cases h
    · next hfails =>
      rw [Bool.or_eq_true, Bool.or_eq_true, not_or, not_or, Bool.not_eq_true',
        Bool.not_eq_false] at hfails
      exact of_decide_eq_true hfails.1.2 b hb

/-- No push without force takes a hosted head back. -/
theorem publish_forward (names : List Branch) {b : Branch} {theirs : Commit (Tree β)}
    (h : j.hosted.get b = some theirs) :
    ∃ head, (publish j answers names).1.get b = some head ∧ Commit.Ancestor theirs head := by
  rw [get_publish]
  by_cases hmoved : Moves j answers names b
  · obtain ⟨mine, hmine, hbelow⟩ := hmoved.isAhead.heads
    exact ⟨mine, by rw [if_pos hmoved, hmine], (hbelow theirs h).2⟩
  · exact ⟨theirs, by rw [if_neg hmoved, h], CommitGraph.Ancestor.refl theirs⟩

theorem publish_others (names : List Branch) {b : Branch} (h : localHead j.checkout b = none) :
    (publish j answers names).1.get b = j.hosted.get b := by
  rw [get_publish]
  refine if_neg fun hmoved => ?_
  obtain ⟨mine, hmine, -⟩ := hmoved.isAhead.heads
  rw [h] at hmine
  cases hmine

/-- Each local branch has the later of its two heads as the hosted one. -/
def HostsLater (j : Join β) (hosted : FiniteMap Branch (Commit (Tree β))) : Prop :=
  ∀ b mine, localHead j.checkout b = some mine → ∃ head, hosted.get b = some head ∧
    (head = mine ∨ j.hosted.get b = some head) ∧ Commit.Ancestor mine head ∧
    ∀ theirs ∈ j.hosted.get b, Commit.Ancestor theirs head

/-- Where no branch diverges, a push that moves every branch that is ahead brings them there. -/
theorem publish_later {names : List Branch}
    (hall : ∀ b, IsAhead j b → Moves j answers names b)
    (hcomparable : ∀ b, ∀ mine ∈ localHead j.checkout b, ∀ theirs ∈ j.hosted.get b,
      Commit.Ancestor theirs mine ∨ Commit.Ancestor mine theirs) :
    HostsLater j (publish j answers names).1 := by
  intro b mine hmine
  rw [get_publish]
  by_cases hmoved : Moves j answers names b
  · obtain ⟨mine', hmine', hbelow⟩ := hmoved.isAhead.heads
    obtain rfl : mine = mine' := Option.some.inj (hmine.symm.trans hmine')
    refine ⟨mine, by rw [if_pos hmoved, hmine], Or.inl rfl, CommitGraph.Ancestor.refl mine, ?_⟩
    exact fun theirs htheirs => (hbelow theirs htheirs).2
  · have hbehind : ¬ IsAhead j b := fun hahead => hmoved (hall b hahead)
    rw [if_neg hmoved]
    unfold IsAhead at hbehind
    rw [hmine] at hbehind
    cases htheirs : j.hosted.get b with
    | none =>
      rw [htheirs] at hbehind
      exact absurd trivial hbehind
    | some theirs =>
      rw [htheirs] at hbehind
      -- the branch is not ahead and does not diverge, so it is behind
      have hbelow : Commit.Ancestor mine theirs := by
        rcases hcomparable b mine hmine theirs htheirs with hbase | hbase
        · by_cases hsame : theirs = mine
          · exact hsame ▸ CommitGraph.Ancestor.refl theirs
          · exact absurd ⟨hsame, hbase⟩ hbehind
        · exact hbase
      refine ⟨theirs, rfl, Or.inr rfl, hbelow, fun theirs' htheirs' => ?_⟩
      obtain rfl := Option.some.inj htheirs'
      exact CommitGraph.Ancestor.refl theirs

end Publication

section Reconciliation

variable [DecidableEq β] {env : Env β} {previous target : Commit (Tree β)}
  {snapshot : WorkspaceSnapshot β}

/-- A preparation that is complete at once has applied nothing. -/
theorem complete_ne_applied {r : Repository β}
    {result : ReconcileResult (Commit (Tree β))}
    (h : prepareReconciliation env r previous target = .ok (.complete result)) :
    result.outcome ≠ .applied := by
  unfold prepareReconciliation at h
  split at h
  · cases h
  · split at h
    · cases h
    · split at h
      · cases h
      · split_ifs at h
        · cases h
          exact fun hfalse => by cases hfalse
        · dsimp only at h
          split at h
          · cases h
            exact fun hfalse => by cases hfalse
          · split at h
            · cases h
            · cases h

/-- A replayed synthetic commit is one link above the tip, or dropped. -/
theorem replayCommit_parents {stamp : CommitInfo → CommitInfo}
    {merge : Tree β → Tree β → Tree β → Option (Tree β)}
    {tip parent r : Commit (Tree β)} {t : Tree β} {i : CommitInfo}
    (h : replayCommit merge stamp tip (.mk [parent] t i) = some r) :
    r = tip ∨ r.parents = [tip] := by
  rcases replayCommit_eq_some h with ⟨-, rfl⟩ | ⟨-, u, -, rfl⟩
  · exact Or.inl rfl
  · exact Or.inr rfl

/-- Without local commits, what is read off as the real head lies in the history of the target,
also where a synthetic commit is dropped. -/
theorem realHead_below_target {head : Commit (Tree β)} {candidate : Candidate β}
    (hbehind : snapshot.head = previous)
    (hrebase : rebaseSynthetic env previous target snapshot = some head)
    (hof : candidateOf head = some candidate) :
    Commit.Ancestor candidate.realHead target := by
  have hlocal : Commit.Ancestor previous snapshot.head :=
    hbehind ▸ CommitGraph.Ancestor.refl snapshot.head
  obtain ⟨real, index, hreal, hindex, hworking⟩ := rebaseSynthetic_tips hlocal hrebase
  have hnone : localCommits previous snapshot = [] := by
    rw [localCommits, hbehind, Commit.revList_self, List.reverse_nil]
  rw [hnone] at hreal
  obtain rfl : target = real := Option.some.inj hreal
  obtain ⟨hindexCommit, hrealHead, -⟩ := candidateOf_eq_some hof
  have hparent : ∀ {p c : Commit (Tree β)}, p ∈ c.parents → Commit.Ancestor p c :=
    fun hp => CommitGraph.ancestor_of_mem_parents hp
  -- each synthetic commit is there or dropped; each one that is dropped lowers what is read off
  rcases replayCommit_parents hworking with rfl | hworkingParents
  · rcases replayCommit_parents hindex with rfl | hindexParents
    · exact (hparent hrealHead).trans (hparent hindexCommit)
    · rw [hindexParents] at hindexCommit
      obtain rfl := List.mem_singleton.mp hindexCommit
      exact hparent hrealHead
  · rw [hworkingParents] at hindexCommit
    obtain hsame := List.mem_singleton.mp hindexCommit
    rw [hsame] at hrealHead
    rcases replayCommit_parents hindex with rfl | hindexParents
    · exact hparent hrealHead
    · rw [hindexParents] at hrealHead
      obtain rfl := List.mem_singleton.mp hrealHead
      exact CommitGraph.Ancestor.refl _

/-- A reconciliation of the current branch from its own head moves no other branch, and this one
into the history of the target. -/
theorem reconcile_applied {answers : JoinAnswers β} {checkout checkout' : Checkout β}
    {branch : Branch} {result : ReconcileResult (Commit (Tree β))}
    (hbranch : checkout.repo.headBranch = some branch)
    (hprevious : localHead checkout branch = some previous)
    (h : reconcileWorkspace answers checkout previous target = (checkout', .ok result))
    (happlied : result.outcome = .applied) :
    (∀ b, b ≠ branch → localHead checkout' b = localHead checkout b) ∧
      ∃ real, localHead checkout' branch = some real ∧ Commit.Ancestor real target := by
  unfold reconcileWorkspace at h
  split at h
  · cases h
  · next prepared hprepared =>
    cases prepared with
    | complete result' =>
      obtain ⟨-, hresult⟩ := Prod.mk.inj h
      obtain rfl := Except.ok.inj hresult
      exact absurd happlied (complete_ne_applied hprepared)
    | ready t =>
      obtain ⟨snapshot, headRef, head, candidate, hheadRef, hcapture, -, -, -, -, hrebase, hof,
        rfl⟩ := prepareReconciliation_ready hprepared
      obtain rfl : branch = headRef := Option.some.inj (hbranch.symm.trans hheadRef)
      rcases installPreparedReconciliation_ok rfl h with
        ⟨-, -, -, hsame⟩ | ⟨hrejected, -⟩
      · have hhead : snapshot.head = previous := by
          have hcommit := (captureWorkspace_eq_some.mp hcapture).1
          rw [headCommit_of_headBranch hbranch] at hcommit
          exact Option.some.inj (hcommit.symm.trans hprevious)
        refine ⟨fun b hb => ?_, candidate.realHead, ?_, realHead_below_target hhead hrebase hof⟩
        · exact (hsame.branches b).trans
            (Function.update_of_ne (fun href => hb (Ref.branch.inj href)) ..)
        · exact (hsame.branches branch).trans (Function.update_self ..)
      · rw [happlied] at hrejected
        rcases hrejected with hretry | hconflict
        · cases hretry
        · cases hconflict

/-- The join leaves each branch where it was, or in the history of the hosted head. -/
theorem joinBranch_ok {answers : JoinAnswers β} {checkout checkout' : Checkout β}
    {hosted : FiniteMap Branch (Commit (Tree β))}
    (h : joinBranch answers checkout hosted = (checkout', .ok ())) (b : Branch) :
    localHead checkout' b = localHead checkout b ∨ ∃ real head, localHead checkout' b = some real ∧
      hosted.get b = some head ∧ Commit.Ancestor real head := by
  unfold joinBranch at h
  cases hheads : currentHeads checkout hosted with
  | none =>
    rw [hheads] at h
    obtain ⟨rfl, -⟩ := Prod.mk.inj h
    exact Or.inl rfl
  | some heads =>
    obtain ⟨branch, hbranch, hlocal⟩ := Option.bind_eq_some_iff.mp hheads
    obtain ⟨mine, hmine, hremote⟩ := Option.bind_eq_some_iff.mp hlocal
    obtain ⟨theirs, htheirs, hdiffer⟩ := Option.bind_eq_some_iff.mp hremote
    rw [hheads, Option.elim_some] at h
    split at hdiffer
    · cases hdiffer
    · obtain rfl := Option.some.inj hdiffer
      split at h
      · cases h
      · split at h
        · obtain ⟨rfl, hdone⟩ := Prod.mk.inj h
          obtain ⟨result, hresult, houtcome⟩ := bind_ok hdone
          have happlied : result.outcome = .applied := by
            by_contra hother
            rw [if_pos hother] at houtcome
            cases houtcome
          obtain ⟨hother, real, hreal, hbelow⟩ :=
            reconcile_applied hbranch hmine (Prod.ext rfl hresult) happlied
          by_cases hb : b = branch
          · subst hb
            exact Or.inr ⟨real, theirs, hreal, htheirs, hbelow⟩
          · exact Or.inl (hother b hb)
        · obtain ⟨rfl, -⟩ := Prod.mk.inj h
          exact Or.inl rfl

end Reconciliation

section Record

variable [DecidableEq β] {arguments : JoinArguments} {answers : JoinAnswers β}
  {branch : Option Branch} {checkout : Checkout β} {hosted : FiniteMap Branch (Commit (Tree β))}
  {p : LocalProject (Commit (Tree β))}

/-- The bases of the record fit its advertised heads and the branches of the checkout. -/
structure BasesFit (p : LocalProject (Commit (Tree β))) (checkout : Checkout β)
    (hosted : FiniteMap Branch (Commit (Tree β))) : Prop where
  advertised : p.advertisedHeads = hosted.get
  below : ∀ b base, p.lastAppliedHeads b = some base →
    (∃ head, p.advertisedHeads b = some head ∧ Commit.Ancestor base head) ∧
      ∀ mine, localHead checkout b = some mine → Commit.Ancestor base mine

/-- Where no local branch is ahead, the record takes a base below both heads. -/
theorem record_ok (hbehind : ∀ b mine head, localHead checkout b = some mine →
      hosted.get b = some head → Commit.Ancestor mine head)
    (h : record arguments answers branch checkout hosted = .ok p) : BasesFit p checkout hosted := by
  unfold record at h
  split at h
  · cases h
  · obtain rfl := Except.ok.inj h
    refine ⟨rfl, fun b base hbase => ?_⟩
    obtain ⟨head, hhead, hselected⟩ := Option.map_eq_some_iff.mp hbase
    have hrefl : ∀ c : Commit (Tree β), Commit.Ancestor c c := CommitGraph.Ancestor.refl
    unfold selectedHead at hselected
    cases hmine : localHead checkout b with
    | none =>
      rw [hmine] at hselected
      obtain rfl : head = base := hselected
      exact ⟨⟨head, hhead, hrefl head⟩, fun mine hnone => by cases hnone⟩
    | some mine =>
      have hbelow := hbehind b mine head hmine hhead
      rw [hmine] at hselected
      -- no branch is ahead, so the hosted head is only taken where it is the local one
      have hbase : base = mine := by
        dsimp only at hselected
        split at hselected
        · exact hselected.symm
        · next hneither =>
          have hsame : mine = head := by
            by_contra hne
            exact hneither ⟨hne, (CommitGraph.isAncestor_iff ..).mpr hbelow⟩
          exact hselected.symm.trans hsame.symm
      subst hbase
      refine ⟨⟨head, hhead, hbelow⟩, fun mine' hmine' => ?_⟩
      obtain rfl := Option.some.inj hmine'
      exact hrefl base

end Record

section Main

variable [DecidableEq β]

/-- What a call keeps, and what it promises when it succeeds. -/
structure JoinsSafely (j : Join β) (out : JoinOutcome β) : Prop where
  diverged : Diverges j → out.hosted = j.hosted ∧ ∀ p, out.result ≠ .ok p
  later : ∀ p, out.result = .ok p → HostsLater j out.hosted
  others : ∀ b, localHead j.checkout b = none → out.hosted.get b = j.hosted.get b
  forward : ∀ b theirs, j.hosted.get b = some theirs →
    ∃ head, out.hosted.get b = some head ∧ Commit.Ancestor theirs head
  bases : ∀ p, out.result = .ok p → BasesFit p out.checkout out.hosted

variable {answers : JoinAnswers β} {j : Join β}

omit [DecidableEq β] in
/-- A call that stops before its push. -/
theorem joinsSafely_of_error (e : Failure) : JoinsSafely j ⟨j.checkout, j.hosted, .error e⟩ where
  diverged _ := ⟨rfl, fun p h => by cases h⟩
  later p h := by cases h
  others b _ := rfl
  forward b theirs h := ⟨theirs, h, CommitGraph.Ancestor.refl theirs⟩
  bases p h := by cases h

/-- A call that gets to its push finds no branch that diverges. After the push each local branch
is at its hosted head or behind it, and the join leaves it so. -/
theorem joinsSafely_of_publish (arguments : JoinArguments) (names : List Branch)
    {out : JoinOutcome β} (hhosted : out.hosted = (publish j answers names).1)
    (hnone : ¬ Diverges j)
    (hok : ∀ p, out.result = .ok p → (∀ b, IsAhead j b → Moves j answers names b) ∧
      (∀ b, localHead out.checkout b = localHead j.checkout b ∨ ∃ real head,
        localHead out.checkout b = some real ∧ out.hosted.get b = some head ∧
          Commit.Ancestor real head) ∧
      ∃ branch, record arguments answers branch out.checkout out.hosted = .ok p) :
    JoinsSafely j out := by
  have hlater : ∀ p, out.result = .ok p → HostsLater j out.hosted := by
    intro p hp
    rw [hhosted]
    refine publish_later (hok p hp).1 fun b mine hmine theirs htheirs => ?_
    by_contra hneither
    exact hnone ⟨b, mine, hmine, theirs, htheirs, not_or.mp hneither⟩
  refine ⟨fun h => absurd h hnone, hlater, fun b hb => ?_, fun b theirs h => ?_, fun p hp => ?_⟩
  · rw [hhosted, publish_others names hb]
  · exact hhosted ▸ publish_forward names h
  · obtain ⟨-, hjoined, branch, hrecord⟩ := hok p hp
    refine record_ok (fun b mine head hmine hhead => ?_) hrecord
    -- what the join has moved is below the hosted head by itself
    rcases hjoined b with hsame | ⟨real, head', hreal, hhead', hbelow⟩
    · obtain ⟨head', hhead', -, hbelow, -⟩ := hlater p hp b mine (hsame.symm.trans hmine)
      obtain rfl := Option.some.inj (hhead.symm.trans hhead')
      exact hbelow
    · obtain rfl := Option.some.inj (hmine.symm.trans hreal)
      obtain rfl := Option.some.inj (hhead.symm.trans hhead')
      exact hbelow

omit [DecidableEq β] in
theorem mem_listed_of_isAhead {b : Branch} (h : IsAhead j b) : b ∈ j.listed := by
  obtain ⟨mine, hmine, -⟩ := h.heads
  exact (j.mem_listed b).mpr (ne_of_eq_of_ne hmine (Option.some_ne_none mine))

/-- Whatever fails and whatever the host accepts: a call publishes nothing if a branch has
diverged, takes no hosted head back, and on success leaves the later heads and fitting bases. -/
theorem materialize_joins_safely (arguments : JoinArguments) (answers : JoinAnswers β)
    (j : Join β) : JoinsSafely j (materializeProject arguments answers j) := by
  unfold materializeProject
  dsimp only
  split
  · exact joinsSafely_of_error .command
  · split
    · next hempty =>
      have hnone : ∀ b, j.hosted.get b = none := fun b => by
        rw [FiniteMap.get_eq_none_iff, hempty]
        exact Finset.notMem_empty b
      -- nothing is hosted yet, and all branches are pushed
      refine joinsSafely_of_publish arguments j.listed rfl ?_ fun p hp => ?_
      · rintro ⟨b, mine, -, theirs, htheirs, -⟩
        rw [Option.mem_def, hnone b] at htheirs
        cases htheirs
      · obtain ⟨_, hpublished, hrecord⟩ := bind_ok hp
        exact ⟨fun b hb => publish_ok hpublished (mem_listed_of_isAhead hb), fun b => Or.inl rfl,
          _, hrecord⟩
    · split
      · next e _ => exact joinsSafely_of_error e
      · next names hnames =>
        obtain ⟨hmem, hcomparable⟩ := toPublish_ok hnames
        have hnone : ¬ Diverges j := by
          rintro ⟨b, mine, hmine, theirs, htheirs, hneither⟩
          have hlisted : b ∈ j.listed := (j.mem_listed b).mpr
            (ne_of_eq_of_ne hmine (Option.some_ne_none mine))
          exact not_or.mpr hneither (hcomparable b hlisted mine hmine theirs htheirs)
        split
        · refine joinsSafely_of_publish arguments names rfl hnone fun p hp => ?_
          cases hp
        · next hpublished =>
          refine joinsSafely_of_publish arguments names rfl hnone fun p hp => ?_
          obtain ⟨_, hjoined, hrecord⟩ := bind_ok hp
          refine ⟨fun b hb => ?_, joinBranch_ok (Prod.ext rfl hjoined), _, hrecord⟩
          exact publish_ok hpublished ((hmem b).mpr ⟨mem_listed_of_isAhead hb, hb⟩)

end Main

end Joining

end Resync
