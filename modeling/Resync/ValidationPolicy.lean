import Resync.HostedForward

/-! The validation of a candidate before its push (`validate_candidate`,
`read_project_config`). The commands come from `.resync.toml` in the working tree
of the checkout; they run in a detached worktree of the candidate. -/
namespace Resync

variable {Oid Task : Type}

/-- What TOML has read: the `command` of each `[[validation]]`. -/
structure ProjectDocument where
  validation : List (List String)

structure ProjectConfig where
  validations : List (List String)
  deriving DecidableEq

/-- `.resync.toml` in one tree. -/
inductive PolicyFile where
  | absent
  | unreadable
  | content (text : String)

/-- `read_project_config`; `parse` is `toml::from_str`. -/
def readProjectConfig (parse : String → Option ProjectDocument) :
    PolicyFile → Option ProjectConfig
  | .absent => some ⟨[]⟩
  | .unreadable => none
  | .content text =>
    (parse text).map fun document => ⟨document.validation.filter fun command => !command.isEmpty⟩

/-- Where `validate_candidate` stands. -/
inductive Validation (Oid : Type) where
  | idle
  /-- There are commands to run, and the worktree is to be added. -/
  | planned (todo : List (List String))
  | running (worktree : Oid) (todo : List (List String)) (passed : List (Oid × List String))
  | succeeded (passed : List (Oid × List String))

/-- The configuration that a validation has read. -/
structure ValidationRecord (Oid : Type) where
  candidate : Oid
  configuration : Option ProjectConfig
  deriving DecidableEq

/-- A push, with the commands that have passed before it and the commit on which
each of them did. -/
structure PushRecord (Oid : Type) where
  candidate : Oid
  passed : List (Oid × List String)
  deriving DecidableEq

/-- `policyFiles` is `.resync.toml` in the working tree of each checkout.
`validations` and `pushes` only look back. -/
structure ValidatingWorld (Oid Task : Type) where
  publish : PublishWorld Oid Task
  policyFiles : String → PolicyFile
  validation : Validation Oid
  validations : List (ValidationRecord Oid)
  pushes : List (PushRecord Oid)

inductive ValidatingEvent (Oid Task : Type) where
  | publish (e : PublishEvent Oid Task)
  /-- An edit, or the checkout of another commit. -/
  | editPolicy (path : String) (file : PolicyFile)
  /-- `validate_candidate` reads the configuration; `error` is the text if it cannot. -/
  | readPolicy (error : String)
  /-- `git worktree add --detach`. -/
  | addWorktree
  | runCommand (code : ℤ) (error : String)
  /-- `git worktree remove`, and the return. -/
  | finishValidation

/-- The candidate that a place of the delivery validates or pushes. -/
def Delivery.candidate : Delivery Oid → Option Oid
  | .validating _ p _ | .validated _ p _ => some p.candidateCommitOid
  | _ => none

def Delivery.isValidated : Delivery Oid → Prop
  | .validated .. => True
  | _ => False

namespace ValidatingWorld

def initial (publish : PublishWorld Oid Task) (policyFiles : String → PolicyFile) :
    ValidatingWorld Oid Task :=
  ⟨publish, policyFiles, .idle, [], []⟩

section Steps

variable [DecidableEq Oid] [DecidableEq Task] (G : CommitGraph Oid)
  (parse : String → Option ProjectDocument)

def fails (w : ValidatingWorld Oid Task) (error : String) : Option (ValidatingWorld Oid Task) :=
  (w.publish.deliver G (.fail error)).map fun publish =>
    { w with publish := publish, validation := .idle }

def validates (w : ValidatingWorld Oid Task) (passed : List (Oid × List String)) :
    Option (ValidatingWorld Oid Task) :=
  (w.publish.deliver G .validate).map fun publish =>
    { w with publish := publish, validation := .succeeded passed }

def record (w : ValidatingWorld Oid Task) (candidate : Oid)
    (configuration : Option ProjectConfig) : ValidatingWorld Oid Task :=
  { w with validations := w.validations ++ [⟨candidate, configuration⟩] }

/-- `validate_candidate` once it has tried to read the configuration. -/
def plans (w : ValidatingWorld Oid Task) (candidate : Oid) (error : String)
    (configuration : Option ProjectConfig) : Option (ValidatingWorld Oid Task) :=
  match configuration with
  | none => (w.record candidate configuration).fails G error
  | some ⟨[]⟩ => (w.record candidate configuration).validates G []
  | some ⟨validations⟩ =>
    some { w.record candidate configuration with validation := .planned validations }

/-- A step outside of `validate_candidate`. The push carries the candidate that was
validated. -/
def publishes (w : ValidatingWorld Oid Task) (e : PublishEvent Oid Task) :
    Option (ValidatingWorld Oid Task) :=
  match e with
  | .deliver .validate => none
  | .deliver (.push answered) =>
    match w.validation, w.publish.delivery with
    | .succeeded passed, .validated _ p _ =>
      (w.publish.deliver G (.push answered)).map fun publish => { w with
        publish := publish,
        validation := .idle,
        pushes := w.pushes ++ [⟨p.candidateCommitOid, passed⟩] }
    | _, _ => none
  | .deliver (.fail error) => w.fails G error
  | .restart => (w.publish.step G .restart).map fun publish =>
      { w with publish := publish, validation := .idle }
  | e => (w.publish.step G e).map fun publish => { w with publish := publish }

def step (w : ValidatingWorld Oid Task) :
    ValidatingEvent Oid Task → Option (ValidatingWorld Oid Task)
  | .publish e => w.publishes G e
  | .editPolicy path file =>
    some { w with policyFiles := Function.update w.policyFiles path file }
  | .readPolicy error =>
    match w.validation, w.publish.delivery with
    | .idle, .validating _ p project =>
      w.plans G p.candidateCommitOid error
        (readProjectConfig parse (w.policyFiles project.localPath))
    | _, _ => none
  | .addWorktree =>
    match w.validation, w.publish.delivery with
    | .planned todo, .validating _ p _ =>
      some { w with validation := .running p.candidateCommitOid todo [] }
    | _, _ => none
  | .runCommand code error =>
    match w.validation with
    | .running worktree (command :: todo) passed =>
      if code = 0 then
        some { w with validation := .running worktree todo (passed ++ [(worktree, command)]) }
      else w.fails G error
    | _ => none
  | .finishValidation =>
    match w.validation with
    | .running _ [] passed => w.validates G passed
    | _ => none

end Steps

/-- Where `validate_candidate` stands agrees with the place of the delivery and
with the configuration that was read for the candidate. -/
def Follows (validations : List (ValidationRecord Oid)) :
    Delivery Oid → Validation Oid → Prop
  | .validating _ p _, .planned todo =>
    ⟨p.candidateCommitOid, some ⟨todo⟩⟩ ∈ validations
  | .validating _ p _, .running worktree todo passed =>
    worktree = p.candidateCommitOid ∧ ∃ commands,
      passed = commands.map (fun command => (p.candidateCommitOid, command)) ∧
      ⟨p.candidateCommitOid, some ⟨commands ++ todo⟩⟩ ∈ validations
  | .validated _ p _, .succeeded passed =>
    ∃ commands, passed = commands.map (fun command => (p.candidateCommitOid, command)) ∧
      ⟨p.candidateCommitOid, some ⟨commands⟩⟩ ∈ validations
  | .validated .., _ => False
  | _, validation => validation = .idle

/-- All the commands that were read have passed on the commit that is pushed. -/
structure Sound (w : ValidatingWorld Oid Task) : Prop where
  follows : Follows w.validations w.publish.delivery w.validation
  pushes : ∀ push ∈ w.pushes, ∃ commands,
    push.passed = commands.map (fun command => (push.candidate, command)) ∧
    ⟨push.candidate, some ⟨commands⟩⟩ ∈ w.validations

section Policies

variable (parse : String → Option ProjectDocument) (tree : Oid → PolicyFile)

/-- Each validation has read the commands of its candidate's own `.resync.toml`. -/
def ReadsCandidates (w : ValidatingWorld Oid Task) : Prop :=
  ∀ v ∈ w.validations, v.configuration = readProjectConfig parse (tree v.candidate)

/-- Each validation has read the commands of its candidate's own `.resync.toml`,
and all of these have passed on the candidate before each push of it. -/
structure AppliesPolicy (w : ValidatingWorld Oid Task) : Prop where
  reads : w.ReadsCandidates parse tree
  passes : ∀ push ∈ w.pushes, ∃ config,
    readProjectConfig parse (tree push.candidate) = some config ∧
    push.passed = config.validations.map fun command => (push.candidate, command)

/-- The file that a step reads, and the candidate that it is read for. -/
def reading (w : ValidatingWorld Oid Task) : ValidatingEvent Oid Task → Option (PolicyFile × Oid)
  | .readPolicy _ =>
    match w.validation, w.publish.delivery with
    | .idle, .validating _ p project =>
      some (w.policyFiles project.localPath, p.candidateCommitOid)
    | _, _ => none
  | _ => none

/-- Where the configuration is read, the working tree of the checkout declares the
same commands as the candidate. -/
def ReadsAsCommitted (w : ValidatingWorld Oid Task) (e : ValidatingEvent Oid Task) : Prop :=
  ∀ r ∈ w.reading e, readProjectConfig parse r.1 = readProjectConfig parse (tree r.2)

instance (w : ValidatingWorld Oid Task) (e : ValidatingEvent Oid Task) :
    Decidable (w.ReadsAsCommitted parse tree e) :=
  inferInstanceAs (Decidable (∀ r ∈ w.reading e, _))

end Policies

section Invariant

variable {log log' : List (ValidationRecord Oid)} {d : Delivery Oid} {v : Validation Oid}

theorem follows_idle (h : ¬ d.isValidated) : Follows log d .idle := by
  cases d with
  | validated a p project => exact absurd trivial h
  | _ => rfl

theorem Follows.idle (h : Follows log d v) (hd : d.candidate = none) : v = .idle := by
  cases d with
  | validating a p project => cases hd
  | validated a p project => cases hd
  | _ => exact h

variable [DecidableEq Oid] {G : CommitGraph Oid}

/-- A delivery step without a part in the validation starts outside of it, and
does not end past it. -/
theorem deliver_outside {w w' : PublishWorld Oid Task} {e : DeliveryEvent Oid}
    (h : w.deliver G e = some w') (hvalidate : e ≠ .validate)
    (hpush : ∀ answered, e ≠ .push answered) (hfail : ∀ error, e ≠ .fail error) :
    w.delivery.candidate = none ∧ ¬ w'.delivery.isValidated := by
  cases PublishWorld.deliveryStep_of_deliver h with
  | validates => exact absurd rfl hvalidate
  | pushes | isStale => exact absurd rfl (hpush _)
  | fails => exact absurd rfl (hfail _)
  | _ => exact ⟨by simp only [Delivery.candidate, *], id⟩

end Invariant

section Runs

variable [DecidableEq Oid] [DecidableEq Task] {G : CommitGraph Oid}
  {parse : String → Option ProjectDocument} {tree : Oid → PolicyFile}
  {w w' : ValidatingWorld Oid Task}

omit [DecidableEq Oid] [DecidableEq Task] in
theorem sound_initial (publish : PublishWorld Oid Task) (policyFiles : String → PolicyFile)
    (h : publish.delivery = .idle) : (initial publish policyFiles).Sound := by
  refine ⟨?_, fun push hpush => by cases hpush⟩
  change Follows [] publish.delivery .idle
  rw [h]
  rfl

omit [DecidableEq Task] in
theorem fails_eq_some {error : String} (h : w.fails G error = some w') :
    w'.validation = .idle ∧ ¬ w'.publish.delivery.isValidated ∧
      w'.validations = w.validations ∧ w'.pushes = w.pushes := by
  obtain ⟨publish, hpublish, rfl⟩ := Option.map_eq_some_iff.mp h
  obtain ⟨a, -, rfl⟩ := Option.map_eq_some_iff.mp hpublish
  exact ⟨rfl, id, rfl, rfl⟩

omit [DecidableEq Task] in
theorem validates_eq_some {passed : List (Oid × List String)} (h : w.validates G passed = some w') :
    ∃ a p project, w.publish.delivery = .validating a p project ∧
      w'.publish.delivery = .validated a p project ∧ w'.validation = .succeeded passed ∧
      w'.validations = w.validations ∧ w'.pushes = w.pushes := by
  obtain ⟨publish, hpublish, rfl⟩ := Option.map_eq_some_iff.mp h
  cases PublishWorld.deliveryStep_of_deliver hpublish with
  | validates place => exact ⟨_, _, _, place, rfl, rfl, rfl, rfl⟩

omit [DecidableEq Task] in
theorem plans_validations {candidate : Oid} {error : String} {config : Option ProjectConfig}
    (h : w.plans G candidate error config = some w') :
    w'.validations = w.validations ++ [⟨candidate, config⟩] ∧ w'.pushes = w.pushes := by
  unfold plans at h
  split at h
  · obtain ⟨-, -, hvalidations, hpushes⟩ := fails_eq_some h
    exact ⟨hvalidations, hpushes⟩
  · obtain ⟨-, -, -, -, -, -, hvalidations, hpushes⟩ := validates_eq_some h
    exact ⟨hvalidations, hpushes⟩
  · obtain rfl := Option.some.inj h
    exact ⟨rfl, rfl⟩

/-- Only the reading of the configuration adds to what was read. -/
theorem publishes_validations {e : PublishEvent Oid Task} (h : w.publishes G e = some w') :
    w'.validations = w.validations := by
  unfold publishes at h
  split at h
  · cases h
  · split at h
    · obtain ⟨publish, -, rfl⟩ := Option.map_eq_some_iff.mp h
      rfl
    · cases h
  · exact (fails_eq_some h).2.2.1
  · obtain ⟨publish, -, rfl⟩ := Option.map_eq_some_iff.mp h
    rfl
  · obtain ⟨publish, -, rfl⟩ := Option.map_eq_some_iff.mp h
    rfl

omit [DecidableEq Oid] [DecidableEq Task] in
/-- What every push has passed is kept as the log of the validations grows. -/
theorem Sound.pushes_mono (h : w.Sound) (hpushes : w'.pushes = w.pushes)
    (hsub : w.validations ⊆ w'.validations) : ∀ push ∈ w'.pushes, ∃ commands,
      push.passed = commands.map (fun command => (push.candidate, command)) ∧
      ⟨push.candidate, some ⟨commands⟩⟩ ∈ w'.validations := by
  intro push hpush
  rw [hpushes] at hpush
  obtain ⟨commands, hpassed, hread⟩ := h.pushes push hpush
  exact ⟨commands, hpassed, hsub hread⟩

omit [DecidableEq Task] in
theorem Sound.fails {error : String} (h : w.Sound) (hs : w.fails G error = some w') :
    w'.Sound := by
  obtain ⟨hidle, hplace, hvalidations, hpushes⟩ := fails_eq_some hs
  refine ⟨?_, h.pushes_mono hpushes fun v hv => hvalidations.symm ▸ hv⟩
  rw [hidle]
  exact follows_idle hplace

/-- A step of the rest of the daemon, of a user or of another client leaves the
delivery where it is. -/
theorem step_delivery {w w' : PublishWorld Oid Task} {e : PublishEvent Oid Task}
    (h : w.step G e = some w') (hdeliver : ∀ f, e ≠ .deliver f) (hrestart : e ≠ .restart) :
    w'.delivery = w.delivery := by
  cases e with
  | user e => exact (PublishWorld.user_frame h).1.delivery
  | call task e => exact (PublishWorld.call_cases h).1.delivery
  | deliver e => exact absurd rfl (hdeliver e)
  | writeProject name record =>
    obtain ⟨rfl, -⟩ := PublishWorld.writeProject_eq_some h
    rfl
  | install path b new old =>
    obtain rfl := PublishWorld.install_eq_some h
    rfl
  | restart => exact absurd rfl hrestart

theorem Sound.publishes {e : PublishEvent Oid Task} (h : w.Sound)
    (hs : w.publishes G e = some w') : w'.Sound := by
  have hfollows := h.follows
  unfold ValidatingWorld.publishes at hs
  split at hs
  · cases hs
  · next answered =>
    split at hs
    · next passed a p project hvalidation hplace =>
      obtain ⟨publish, hpublish, rfl⟩ := Option.map_eq_some_iff.mp hs
      rw [hvalidation, hplace] at hfollows
      refine ⟨follows_idle ?_, ?_⟩
      · -- the push ends the validation, whether the host takes it or not
        simp only [PublishWorld.deliver, hplace] at hpublish
        split at hpublish
        · obtain rfl := Option.some.inj hpublish
          cases answered <;> exact id
        · obtain rfl := Option.some.inj hpublish
          exact id
      · intro push hpush
        rcases List.mem_append.mp hpush with hpush | hpush
        · exact h.pushes push hpush
        · obtain rfl := List.mem_singleton.mp hpush
          exact hfollows
    · cases hs
  · exact h.fails hs
  · obtain ⟨publish, hpublish, rfl⟩ := Option.map_eq_some_iff.mp hs
    obtain rfl := Option.some.inj hpublish
    exact ⟨rfl, h.pushes⟩
  · next hvalidate hpush hfail hrestart =>
    obtain ⟨publish, hpublish, rfl⟩ := Option.map_eq_some_iff.mp hs
    refine ⟨?_, h.pushes⟩
    by_cases hdeliver : ∃ f, e = .deliver f
    · obtain ⟨f, rfl⟩ := hdeliver
      obtain ⟨houtside, hend⟩ := deliver_outside hpublish
        (fun heq => hvalidate (by rw [heq])) (fun answered heq => hpush answered (by rw [heq]))
        (fun error heq => hfail error (by rw [heq]))
      have hidle : w.validation = .idle := hfollows.idle houtside
      change Follows _ _ w.validation
      rw [hidle]
      exact follows_idle hend
    · have hsame : publish.delivery = w.publish.delivery :=
        step_delivery hpublish (fun f hf => hdeliver ⟨f, hf⟩) hrestart
      change Follows _ publish.delivery _
      rw [hsame]
      exact hfollows

omit [DecidableEq Task] in
theorem Sound.plans {a : Attempt Oid} {p : Publication Oid} {project : LocalProject Oid}
    (h : w.Sound) (hplace : w.publish.delivery = .validating a p project) {error : String}
    {config : Option ProjectConfig}
    (hs : w.plans G p.candidateCommitOid error config = some w') : w'.Sound := by
  obtain ⟨hvalidations, hpushes⟩ := plans_validations hs
  refine ⟨?_, h.pushes_mono hpushes (by rw [hvalidations]; exact List.subset_append_left ..)⟩
  have hread : ⟨p.candidateCommitOid, config⟩ ∈ w'.validations := by
    rw [hvalidations]
    exact List.mem_append_right _ (List.mem_singleton_self _)
  unfold ValidatingWorld.plans at hs
  split at hs
  · obtain ⟨hidle, hend, -, -⟩ := fails_eq_some hs
    rw [hidle]
    exact follows_idle hend
  · obtain ⟨b, q, r, hq, hend, hvalidation, -, -⟩ := validates_eq_some hs
    obtain ⟨rfl, rfl, rfl⟩ := Delivery.validating.inj (hplace.symm.trans hq)
    rw [hend, hvalidation]
    exact ⟨[], rfl, hread⟩
  · obtain rfl := Option.some.inj hs
    change Follows _ w.publish.delivery _
    rw [hplace]
    exact hread

/-- What was read, and what has passed on the worktree, stays known up to the push. -/
theorem Sound.step {e : ValidatingEvent Oid Task} (h : w.Sound)
    (hs : w.step G parse e = some w') : w'.Sound := by
  have hfollows := h.follows
  cases e with
  | publish e => exact h.publishes hs
  | editPolicy path file =>
    obtain rfl := Option.some.inj hs
    exact ⟨h.follows, h.pushes⟩
  | readPolicy error =>
    simp only [ValidatingWorld.step] at hs
    split at hs
    · next a p project _ hplace => exact h.plans hplace hs
    · cases hs
  | addWorktree =>
    simp only [ValidatingWorld.step] at hs
    split at hs
    · next todo a p project hvalidation hplace =>
      obtain rfl := Option.some.inj hs
      rw [hvalidation, hplace] at hfollows
      refine ⟨?_, h.pushes⟩
      change Follows _ w.publish.delivery _
      rw [hplace]
      exact ⟨rfl, [], rfl, hfollows⟩
    · cases hs
  | runCommand code error =>
    simp only [ValidatingWorld.step] at hs
    split at hs
    · next worktree command todo passed hvalidation =>
      split at hs
      · obtain rfl := Option.some.inj hs
        refine ⟨?_, h.pushes⟩
        change Follows _ w.publish.delivery (.running ..)
        rw [hvalidation] at hfollows
        cases hplace : w.publish.delivery with
        | validating a p project =>
          rw [hplace] at hfollows
          obtain ⟨rfl, commands, rfl, hread⟩ := hfollows
          refine ⟨rfl, commands ++ [command], by rw [List.map_append]; rfl, ?_⟩
          rw [List.append_assoc]
          exact hread
        | _ =>
          rw [hplace] at hfollows
          cases hfollows
      · exact h.fails hs
    · cases hs
  | finishValidation =>
    simp only [ValidatingWorld.step] at hs
    split at hs
    · next worktree passed hvalidation =>
      obtain ⟨a, p, project, hplace, hend, hlast, hvalidations, hpushes⟩ := validates_eq_some hs
      refine ⟨?_, h.pushes_mono hpushes fun v hv => hvalidations.symm ▸ hv⟩
      rw [hvalidation, hplace] at hfollows
      rw [hend, hlast, hvalidations]
      obtain ⟨-, commands, hpassed, hread⟩ := hfollows
      rw [List.append_nil] at hread
      exact ⟨commands, hpassed, hread⟩
    · cases hs

/-- A step adds at most what it reads to the log, and reads the candidate's policy
where the working tree declares it. -/
theorem ReadsCandidates.step {e : ValidatingEvent Oid Task} (h : w.ReadsCandidates parse tree)
    (hok : w.ReadsAsCommitted parse tree e) (hs : w.step G parse e = some w') :
    w'.ReadsCandidates parse tree := by
  cases e with
  | publish e =>
    intro v hv
    rw [publishes_validations hs] at hv
    exact h v hv
  | editPolicy path file =>
    obtain rfl := Option.some.inj hs
    exact h
  | readPolicy error =>
    simp only [ValidatingWorld.step] at hs
    split at hs
    · next a p project hvalidation hplace =>
      have hread : w.reading (.readPolicy error) =
          some (w.policyFiles project.localPath, p.candidateCommitOid) := by
        simp only [reading, hvalidation, hplace]
      intro v hv
      rw [(plans_validations hs).1] at hv
      rcases List.mem_append.mp hv with hv | hv
      · exact h v hv
      · obtain rfl := List.mem_singleton.mp hv
        exact hok _ hread
    · cases hs
  | addWorktree =>
    simp only [ValidatingWorld.step] at hs
    split at hs
    · obtain rfl := Option.some.inj hs
      exact h
    · cases hs
  | runCommand code error =>
    simp only [ValidatingWorld.step] at hs
    split at hs
    · split at hs
      · obtain rfl := Option.some.inj hs
        exact h
      · intro v hv
        rw [(fails_eq_some hs).2.2.1] at hv
        exact h v hv
    · cases hs
  | finishValidation =>
    simp only [ValidatingWorld.step] at hs
    split at hs
    · obtain ⟨a, p, project, -, -, -, hvalidations, -⟩ := validates_eq_some hs
      intro v hv
      rw [hvalidations] at hv
      exact h v hv
    · cases hs

omit [DecidableEq Oid] [DecidableEq Task] in
theorem Sound.appliesPolicy (h : w.Sound) (hreads : w.ReadsCandidates parse tree) :
    w.AppliesPolicy parse tree := by
  refine ⟨hreads, fun push hpush => ?_⟩
  obtain ⟨commands, hpassed, hread⟩ := h.pushes push hpush
  have hpolicy := hreads _ hread
  exact ⟨⟨commands⟩, hpolicy.symm, hpassed⟩

/-- The reading of the configuration always goes on, if only to a failure. -/
theorem step_reading {e : ValidatingEvent Oid Task} {r : PolicyFile × Oid}
    (h : w.reading e = some r) : ∃ w', w.step G parse e = some w' ∧
      w'.validations = w.validations ++ [⟨r.2, readProjectConfig parse r.1⟩] := by
  cases e with
  | readPolicy error =>
    simp only [reading] at h
    split at h
    · next a p project hvalidation hplace =>
      obtain rfl := Option.some.inj h
      simp only [ValidatingWorld.step, hvalidation, hplace]
      have hplans : ∃ w', w.plans G p.candidateCommitOid error
          (readProjectConfig parse (w.policyFiles project.localPath)) = some w' := by
        unfold ValidatingWorld.plans
        split
        · simp only [ValidatingWorld.fails, record, PublishWorld.deliver, hplace,
            Delivery.fallible, Option.map_some, Option.some.injEq, exists_eq']
        · simp only [ValidatingWorld.validates, record, PublishWorld.deliver, hplace,
            Option.map_some, Option.some.injEq, exists_eq']
        · exact ⟨_, rfl⟩
      obtain ⟨w', hw'⟩ := hplans
      exact ⟨w', hw', (plans_validations hw').1⟩
    · cases h
  | _ => cases h

/-- The validations of a run apply the policies of their candidates, and every push
comes after all the commands of its candidate's policy have passed on it, exactly
when the working tree declares that policy each time it is read. -/
theorem candidate_policy_is_applied_iff (publish : PublishWorld Oid Task)
    (policyFiles : String → PolicyFile) (hdelivery : publish.delivery = .idle)
    (es : List (ValidatingEvent Oid Task)) :
    Runs.Steps (ValidatingWorld.step G parse) (ReadsAsCommitted parse tree)
        (initial publish policyFiles) es ↔
      ∀ done rest w, es = done ++ rest →
        Runs.run (ValidatingWorld.step G parse) (initial publish policyFiles) done = some w →
        w.AppliesPolicy parse tree := by
  have hfirst : (initial publish policyFiles).Sound ∧
      (initial publish policyFiles).ReadsCandidates parse tree :=
    ⟨sound_initial publish policyFiles hdelivery, fun v hv => by cases hv⟩
  have hstep : ∀ (w : ValidatingWorld Oid Task) e w',
      (w.Sound ∧ w.ReadsCandidates parse tree) → ReadsAsCommitted parse tree w e →
      w.step G parse e = some w' → w'.Sound ∧ w'.ReadsCandidates parse tree := by
    intro w e w' h hok hs
    exact ⟨h.1.step hs, h.2.step hok hs⟩
  apply Runs.steps_iff_forall_reached hstep
  · intro w h
    exact h.1.appliesPolicy h.2
  · intro w e _ hnext r hr
    obtain ⟨w', hs, hvalidations⟩ : ∃ w', w.step G parse e = some w' ∧
        w'.validations = w.validations ++ [⟨r.2, readProjectConfig parse r.1⟩] := step_reading hr
    have hreads := (hnext w' hs).reads
    apply hreads ⟨r.2, readProjectConfig parse r.1⟩
    rw [hvalidations]
    exact List.mem_append_right _ (List.mem_singleton_self _)
  · exact hfirst

end Runs

end ValidatingWorld

section OneProject

open ValidatingWorld

def cargoTest : String := "[[validation]]\ncommand = [\"cargo\", \"test\"]\n"

def parseCargoTest (text : String) : Option ProjectDocument :=
  if text = cargoTest then some ⟨[["cargo", "test"]]⟩ else none

def cargoTestFiles : String → PolicyFile := fun _ => .content cargoTest

/-- The commit `3` requires `cargo test`. -/
def cargoTestTree : ℕ → PolicyFile := fun c => if c = 3 then .content cargoTest else .absent

def candidateEvents (task : Fin 2) : List (PublishEvent ℕ (Fin 2)) :=
  .user (.commit "/work" 3) :: reportHead task "pub" 5 ++ [.deliver (.start true 6),
    .deliver .next, .deliver .load, .deliver .project, .deliver .fetch]

/-- The commit `3` is queued, and `cargo test` passes on it before its push. -/
def pushTested (task : Fin 2) : List (ValidatingEvent ℕ (Fin 2)) :=
  (candidateEvents task).map .publish ++ [.readPolicy "", .addWorktree, .runCommand 0 "",
    .finishValidation, .publish (.deliver (.push true))]

/-- The file is removed from the working tree before it is read. -/
def pushUntested (task : Fin 2) : List (ValidatingEvent ℕ (Fin 2)) :=
  (candidateEvents task).map .publish ++ [.editPolicy "/work" .absent, .readPolicy "",
    .publish (.deliver (.push true))]

/-- The same candidate is pushed with its test and without. -/
theorem removed_policy_is_not_applied :
    readProjectConfig parseCargoTest (cargoTestTree 3) = some ⟨[["cargo", "test"]]⟩ ∧
    (∃ w : ValidatingWorld ℕ (Fin 2), Runs.run (ValidatingWorld.step pairGraph parseCargoTest)
      (.initial currentMain cargoTestFiles) (pushTested 0) = some w ∧
      w.validations = [⟨3, some ⟨[["cargo", "test"]]⟩⟩] ∧
      w.pushes = [⟨3, [(3, ["cargo", "test"])]⟩]) ∧
    ∃ w : ValidatingWorld ℕ (Fin 2), Runs.run (ValidatingWorld.step pairGraph parseCargoTest)
      (.initial currentMain cargoTestFiles) (pushUntested 0) = some w ∧
      w.validations = [⟨3, some ⟨[]⟩⟩] ∧ w.pushes = [⟨3, []⟩] ∧
      ¬ w.AppliesPolicy parseCargoTest cargoTestTree := by
  have htested : ((Runs.run (ValidatingWorld.step pairGraph parseCargoTest)
      (.initial currentMain cargoTestFiles : ValidatingWorld ℕ (Fin 2)) (pushTested 0)).map
        fun w => (w.validations, w.pushes)) =
      some ([⟨3, some ⟨[["cargo", "test"]]⟩⟩], [⟨3, [(3, ["cargo", "test"])]⟩]) := by
    decide +kernel
  have huntested : ((Runs.run (ValidatingWorld.step pairGraph parseCargoTest)
      (.initial currentMain cargoTestFiles : ValidatingWorld ℕ (Fin 2)) (pushUntested 0)).map
        fun w => (w.validations, w.pushes)) =
      some ([⟨3, some ⟨[]⟩⟩], [⟨3, []⟩]) := by decide +kernel
  refine ⟨by decide +kernel, ?_, ?_⟩
  · obtain ⟨w, hw, hfacts⟩ := Option.map_eq_some_iff.mp htested
    exact ⟨w, hw, Prod.mk.inj hfacts⟩
  · obtain ⟨w, hw, hfacts⟩ := Option.map_eq_some_iff.mp huntested
    obtain ⟨hvalidations, hpushes⟩ := Prod.mk.inj hfacts
    refine ⟨w, hw, hvalidations, hpushes, fun h => ?_⟩
    have hread := h.reads ⟨3, some ⟨[]⟩⟩ (by
      rw [hvalidations]
      exact List.mem_singleton_self _)
    revert hread
    decide +kernel

theorem candidate_policy_is_applied_one :
    (∃ w : ValidatingWorld ℕ (Fin 2), Runs.run (ValidatingWorld.step pairGraph parseCargoTest)
      (.initial currentMain cargoTestFiles) (pushTested 0) = some w ∧
      w.pushes = [⟨3, [(3, ["cargo", "test"])]⟩]) ∧
    ∀ done rest w, pushTested 0 = done ++ rest →
      Runs.run (ValidatingWorld.step pairGraph parseCargoTest)
        (.initial currentMain cargoTestFiles) done = some w →
      w.AppliesPolicy parseCargoTest cargoTestTree := by
  have htest : ((Runs.run (ValidatingWorld.step pairGraph parseCargoTest)
      (.initial currentMain cargoTestFiles : ValidatingWorld ℕ (Fin 2)) (pushTested 0)).map
        fun w => w.pushes) = some [⟨3, [(3, ["cargo", "test"])]⟩] := by decide +kernel
  refine ⟨Option.map_eq_some_iff.mp htest, ?_⟩
  exact (candidate_policy_is_applied_iff currentMain cargoTestFiles rfl (pushTested 0)).mp
    (by decide +kernel)

end OneProject

end Resync
