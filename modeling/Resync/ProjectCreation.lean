import Resync.Lib.Runs
import Resync.Lib.Splitting
import Resync.Lib.Utf8
import Resync.ReceiptPaths

/-! `resync project init` and `resync project fork` (`project_create` of `cli.rs`), with a provider
that repeats its answer for an `idempotency_key`. Any step may fail, an answer may be lost, and a
process may die between two steps. -/
namespace Resync

/-- What a command creates a project for: `origin` is that of the provider. -/
structure CreationIntent where
  origin : String
  root : String
  fork : Bool
deriving DecidableEq

/-- Neither text holds the character that separates them. -/
def CreationIntent.Plain (i : CreationIntent) : Prop :=
  Char.ofNat 0 ∉ i.origin.toList ∧ Char.ofNat 0 ∉ i.root.toList

def creationMode (fork : Bool) : String := if fork then "fork" else "init"

def creationText (i : CreationIntent) : List Char :=
  i.origin.toList ++ Char.ofNat 0 :: (i.root.toList ++ Char.ofNat 0 :: (creationMode i.fork).toList)

/-- The name of the file below `project-creations`. -/
def creationName (sha : Sha256) (i : CreationIntent) : List Char :=
  sha.hex (Utf8.encode (creationText i))

/-- `resync.service` and `resync.projectId` in the configuration of a checkout. -/
structure CheckoutIdentity where
  service : Option String
  projectId : Option String

/-- Where a command stands. -/
inductive Creation where
  | idle
  /-- The checkout is to have a project of its own. -/
  | begun (i : CreationIntent)
  | keyed (i : CreationIntent) (key : String)
  | saved (i : CreationIntent) (key : String)
  | created (i : CreationIntent) (key project : String)
  | materialized (i : CreationIntent) (key project : String)
  | serviced (i : CreationIntent) (key project : String)
  | identified (i : CreationIntent) (key project : String)
  | registered (i : CreationIntent) (key project : String)

def Creation.intent : Creation → Option CreationIntent
  | .idle => none
  | .begun i | .keyed i _ | .saved i _ | .created i _ _ | .materialized i _ _ | .serviced i _ _
  | .identified i _ _ | .registered i _ _ => some i

/-- The last three fields only look back: the projects that the requests were answered with since
the file was last removed, those of the commands that have removed the file, and the keys that were
given out. -/
structure CreationWorld where
  /-- `idempotencyKey` of the files below `project-creations`. -/
  creations : List Char → Option String
  identities : String → CheckoutIdentity
  /-- The provider's projects by the key of the request that created them. -/
  projects : String → Option String
  commands : ℕ → Creation
  since : List Char → List String
  finished : List Char → List String
  issued : List String

inductive CreationEvent where
  /-- The command reads the identity of the checkout. -/
  | begin (i : CreationIntent)
  /-- The key of the file, or else a new one. -/
  | readKey (fresh : String)
  /-- `write_json`, which may fail when the file is in its place. -/
  | save (late : Bool)
  /-- The provider handles the request; `project` is a new ID. -/
  | post (project : String) (answered : Bool)
  | materialize
  | writeService
  | writeProject
  | register
  | remove
  /-- A call fails, or the process dies. -/
  | stop

namespace CreationWorld

def setCommand (w : CreationWorld) (pid : ℕ) (c : Creation) : CreationWorld :=
  { w with commands := Function.update w.commands pid c }

/-- The file of a creation is written, or removed. -/
def setKey (w : CreationWorld) (file : List Char) (key : Option String) : CreationWorld :=
  { w with creations := Function.update w.creations file key }

/-- A request of the file's series is answered with a project. -/
def answer (w : CreationWorld) (file : List Char) (project : String) : CreationWorld :=
  { w with since := Function.update w.since file (project :: w.since file) }

/-- The series of the file has come to its end. -/
def complete (w : CreationWorld) (file : List Char) (project : String) : CreationWorld :=
  { w with
    creations := Function.update w.creations file none
    since := Function.update w.since file []
    finished := Function.update w.finished file (project :: w.finished file) }

/-- A project that no request has created before. -/
def Fresh (w : CreationWorld) (project : String) : Prop :=
  ∀ key ∈ w.issued, w.projects key ≠ some project

instance (w : CreationWorld) (project : String) : Decidable (w.Fresh project) :=
  inferInstanceAs (Decidable (∀ key ∈ w.issued, w.projects key ≠ some project))

/-- The provider creates a project for a key that it does not know. -/
def provide (w : CreationWorld) (key project : String) : CreationWorld × String :=
  match w.projects key with
  | some known => (w, known)
  | none => ({ w with projects := Function.update w.projects key (some project) }, project)

variable (sha : Sha256)

def step (w : CreationWorld) (pid : ℕ) : CreationEvent → Option CreationWorld
  | .begin i =>
    match w.commands pid with
    | .idle =>
      let identity := w.identities i.root
      -- "incomplete RepoSync identity in local Git configuration"
      if identity.service.isSome ≠ identity.projectId.isSome then some w
      -- the subscription of the checkout is repaired, and nothing is created
      else if identity.projectId.isSome ∧ ¬ i.fork then some w
      else some (w.setCommand pid (.begun i))
    | _ => none
  | .readKey fresh =>
    match w.commands pid with
    | .begun i =>
      match w.creations (creationName sha i) with
      -- an earlier attempt has left its key, and may have sent a request with it
      | some key => some (w.setCommand pid (.keyed i key))
      | none =>
        if fresh ∈ w.issued then none
        else some { w.setCommand pid (.keyed i fresh) with issued := fresh :: w.issued }
    | _ => none
  | .save late =>
    match w.commands pid with
    | .keyed i key =>
      -- a late failure has written the file all the same
      some ((w.setKey (creationName sha i) (some key)).setCommand pid
        (if late then .idle else .saved i key))
    | _ => none
  | .post project answered =>
    match w.commands pid with
    | .saved i key =>
      if w.Fresh project then
        -- the provider has handled the request, also where its answer is lost
        let (provided, id) := w.provide key project
        some ((provided.answer (creationName sha i) id).setCommand pid
          (if answered then .created i key id else .idle))
      else none
    | _ => none
  | .materialize =>
    match w.commands pid with
    | .created i key project => some (w.setCommand pid (.materialized i key project))
    | _ => none
  | .writeService =>
    match w.commands pid with
    -- `write_identity` sets two values, one after the other
    | .materialized i key project => some { w.setCommand pid (.serviced i key project) with
        identities := Function.update w.identities i.root
          { w.identities i.root with service := some i.origin } }
    | _ => none
  | .writeProject =>
    match w.commands pid with
    | .serviced i key project => some { w.setCommand pid (.identified i key project) with
        identities := Function.update w.identities i.root
          { w.identities i.root with projectId := some project } }
    | _ => none
  | .register =>
    match w.commands pid with
    | .identified i key project => some (w.setCommand pid (.registered i key project))
    | _ => none
  | .remove =>
    match w.commands pid with
    | .registered i _ project =>
      -- the next command for the file draws a key of its own
      some ((w.complete (creationName sha i) project).setCommand pid .idle)
    | _ => none
  | .stop => some (w.setCommand pid .idle)

/-- The steps of all commands. -/
def creationStep (w : CreationWorld) (e : ℕ × CreationEvent) : Option CreationWorld :=
  w.step sha e.1 e.2

/-- A command does not begin while another one is at the same file. -/
def NoOverlap (w : CreationWorld) (e : ℕ × CreationEvent) : Prop :=
  ∀ i, e.2 = .begin i → ∀ pid, pid ≠ e.1 → ∀ j, (w.commands pid).intent = some j →
    creationName sha j ≠ creationName sha i

/-- The file has the key, or a command is about to write it there. -/
def Holds (w : CreationWorld) (file : List Char) (key : String) : Prop :=
  w.creations file = some key ∨
    ∃ pid i, w.commands pid = .keyed i key ∧ creationName sha i = file

/-- What a command has found and written. -/
def Place (w : CreationWorld) : Creation → Prop
  | .keyed i key => ∀ k, w.creations (creationName sha i) = some k → k = key
  | .saved i key => w.creations (creationName sha i) = some key
  | .created i key project | .materialized i key project | .serviced i key project
  | .identified i key project | .registered i key project =>
    w.creations (creationName sha i) = some key ∧ w.projects key = some project
  | _ => True

structure Once (w : CreationWorld) : Prop where
  apart : ∀ pid pid' i j, (w.commands pid).intent = some i → (w.commands pid').intent = some j →
    creationName sha i = creationName sha j → pid = pid'
  keys : ∀ f g key, Holds sha w f key → Holds sha w g key → f = g
  issued : ∀ f key, Holds sha w f key → key ∈ w.issued
  known : ∀ key project, w.projects key = some project → key ∈ w.issued
  provider : ∀ key key' project, w.projects key = some project → w.projects key' = some project →
    key = key'
  place : ∀ pid, Place sha w (w.commands pid)
  since : ∀ f, ∀ p ∈ w.since f, ∃ key, w.creations f = some key ∧ w.projects key = some p
  finished : ∀ f, ∀ p ∈ w.finished f, ∃ key, (∀ g, ¬ Holds sha w g key) ∧
    key ∈ w.issued ∧ w.projects key = some p

section Once

variable {sha} {w w' : CreationWorld} {pid : ℕ} {e : CreationEvent}

theorem Place.mono {c : Creation} (h : Place sha w c)
    (hcreations : ∀ i, c.intent = some i →
      w'.creations (creationName sha i) = w.creations (creationName sha i))
    (hprojects : ∀ key project, w.projects key = some project →
      w'.projects key = some project) : Place sha w' c := by
  cases c with
  | idle | begun => trivial
  | keyed i key =>
    intro k hk
    exact h k ((hcreations i rfl).symm.trans hk)
  | saved i key => exact (hcreations i rfl).trans h
  | created i key p | materialized i key p | serviced i key p | identified i key p
  | registered i key p => exact ⟨(hcreations i rfl).trans h.1, hprojects key p h.2⟩

/-- The commands with one of them at another place. -/
theorem Once.apart_update (h : Once sha w) {c : Creation}
    (hcommands : w'.commands = Function.update w.commands pid c)
    (hintent : ∀ i, c.intent = some i → ∀ other, other ≠ pid → ∀ j,
      (w.commands other).intent = some j → creationName sha j ≠ creationName sha i) :
    ∀ pid pid' i j, (w'.commands pid).intent = some i → (w'.commands pid').intent = some j →
      creationName sha i = creationName sha j → pid = pid' := by
  intro p q i j hi hj hname
  rw [hcommands, Function.update_apply] at hi hj
  split at hi <;> split at hj
  · next hp hq => exact hp.trans hq.symm
  · next hp hq => exact absurd hname.symm (hintent i hi q hq j hj)
  · next hp hq => exact absurd hname (hintent j hj p hp i hi)
  · exact h.apart p q i j hi hj hname

/-- A command that goes on with its intent is still apart from the others. -/
theorem Once.others (h : Once sha w) {i : CreationIntent} (hi : (w.commands pid).intent = some i)
    {other : ℕ} (hne : other ≠ pid) {j : CreationIntent} (hj : (w.commands other).intent = some j) :
    creationName sha j ≠ creationName sha i :=
  fun hname => hne (h.apart other pid j i hj hi hname)

/-- A step to a place without a new key, which leaves everything but identities as it is. -/
theorem Once.moves (h : Once sha w) {c : Creation}
    (hcommands : w'.commands = Function.update w.commands pid c)
    (hcreations : w'.creations = w.creations) (hprojects : w'.projects = w.projects)
    (hsince : w'.since = w.since) (hfinished : w'.finished = w.finished)
    (hissued : w'.issued = w.issued)
    (hkeyed : ∀ i key, c = .keyed i key → w.creations (creationName sha i) = some key)
    (hintent : ∀ i, c.intent = some i → ∀ other, other ≠ pid → ∀ j,
      (w.commands other).intent = some j → creationName sha j ≠ creationName sha i)
    (hplace : Place sha w c) : Once sha w' := by
  have hholds : ∀ f key, Holds sha w' f key → Holds sha w f key := by
    rintro f key (hfile | ⟨p, i, hp, hf⟩)
    · exact .inl (hcreations ▸ hfile)
    · rw [hcommands, Function.update_apply] at hp
      split at hp
      · exact .inl (hf ▸ hkeyed i key hp)
      · exact .inr ⟨p, i, hp, hf⟩
  refine ⟨h.apart_update hcommands hintent, fun f g key hf hg => h.keys f g key (hholds f key hf)
    (hholds g key hg), fun f key hf => hissued ▸ h.issued f key (hholds f key hf), ?_, ?_, ?_, ?_, ?_⟩
  · rw [hprojects, hissued]
    exact h.known
  · rw [hprojects]
    exact h.provider
  · intro p
    have hmono {d : Creation} (hd : Place sha w d) : Place sha w' d :=
      hd.mono (fun i _ => by rw [hcreations]) fun key project hp => by rw [hprojects, hp]
    rw [hcommands, Function.update_apply]
    split
    · exact hmono hplace
    · exact hmono (h.place p)
  · rw [hsince, hcreations, hprojects]
    exact h.since
  · rw [hfinished, hissued, hprojects]
    intro f p hp
    obtain ⟨key, hno, hrest⟩ := h.finished f p hp
    exact ⟨key, fun g hg => hno g (hholds g key hg), hrest⟩

theorem Once.draws (h : Once sha w) {i : CreationIntent} {fresh : String}
    (hplace : w.commands pid = .begun i) (hnone : w.creations (creationName sha i) = none)
    (hfresh : fresh ∉ w.issued) :
    Once sha { w.setCommand pid (.keyed i fresh) with issued := fresh :: w.issued } := by
  have hintent : (w.commands pid).intent = some i := congrArg Creation.intent hplace
  have hholds : ∀ f key, Holds sha { w.setCommand pid (.keyed i fresh) with
      issued := fresh :: w.issued } f key →
      Holds sha w f key ∨ f = creationName sha i ∧ key = fresh := by
    rintro f key (hfile | ⟨p, j, hp, hf⟩)
    · exact .inl (.inl hfile)
    · change Function.update w.commands pid _ p = _ at hp
      rw [Function.update_apply] at hp
      split at hp
      · obtain ⟨rfl, rfl⟩ := Creation.keyed.inj hp
        exact .inr ⟨hf.symm, rfl⟩
      · exact .inl (.inr ⟨p, j, hp, hf⟩)
  refine ⟨h.apart_update rfl fun j hj other hne k hk => ?_, fun f g key hf hg => ?_,
    fun f key hf => ?_, fun key project hp => List.mem_cons_of_mem _ (h.known key project hp),
    h.provider, fun p => ?_, h.since, fun f p hp => ?_⟩
  · obtain rfl := Option.some.inj hj
    exact h.others hintent hne hk
  · rcases hholds f key hf with hf | ⟨rfl, rfl⟩ <;> rcases hholds g key hg with hg | ⟨rfl, hkey⟩
    · exact h.keys f g key hf hg
    -- a key that a file holds was issued before, and the new one was not
    · exact absurd (hkey ▸ h.issued f key hf) hfresh
    · exact absurd (h.issued g _ hg) hfresh
    · rfl
  · rcases hholds f key hf with hf | ⟨-, rfl⟩
    · exact List.mem_cons_of_mem _ (h.issued f key hf)
    · exact List.mem_cons_self
  · change Place sha _ (Function.update w.commands pid _ p)
    rw [Function.update_apply]
    split
    · intro k hk
      exact absurd (hnone.symm.trans hk) (Option.some_ne_none k).symm
    · exact (h.place p).mono (fun _ _ => rfl) fun _ _ => id
  · obtain ⟨key, hno, hissued, hproject⟩ := h.finished f p hp
    refine ⟨key, fun g hg => ?_, List.mem_cons_of_mem _ hissued, hproject⟩
    rcases hholds g key hg with hg | ⟨-, rfl⟩
    · exact hno g hg
    · exact hfresh hissued

theorem Once.saves (h : Once sha w) {i : CreationIntent} {key : String} {c : Creation}
    (hplace : w.commands pid = .keyed i key) (hc : c = .idle ∨ c = .saved i key) :
    Once sha ((w.setKey (creationName sha i) (some key)).setCommand pid c) := by
  have hintent : (w.commands pid).intent = some i := congrArg Creation.intent hplace
  have hown : ∀ k, w.creations (creationName sha i) = some k → k = key := by
    have hkeyed := h.place pid
    rw [hplace] at hkeyed
    exact hkeyed
  have hholds : ∀ f k, Holds sha ((w.setKey (creationName sha i) (some key)).setCommand pid c) f k →
      Holds sha w f k := by
    rintro f k (hfile | ⟨p, j, hp, hf⟩)
    · change Function.update w.creations _ _ f = _ at hfile
      rw [Function.update_apply] at hfile
      split at hfile
      · next hf =>
        obtain rfl := Option.some.inj hfile
        exact .inr ⟨pid, i, hplace, hf.symm⟩
      · exact .inl hfile
    · change Function.update w.commands pid _ p = _ at hp
      rw [Function.update_apply] at hp
      split at hp
      · rcases hc with rfl | rfl <;> cases hp
      · exact .inr ⟨p, j, hp, hf⟩
  refine ⟨h.apart_update rfl fun j hj other hne k hk => ?_, fun f g k hf hg =>
    h.keys f g k (hholds f k hf) (hholds g k hg), fun f k hf => h.issued f k (hholds f k hf),
    h.known, h.provider, fun p => ?_, fun f p hp => ?_, fun f p hp => ?_⟩
  · have hsame : i = j := by
      rcases hc with rfl | rfl
      · cases hj
      · exact Option.some.inj hj
    exact hsame ▸ h.others hintent hne hk
  · change Place sha _ (Function.update w.commands pid _ p)
    rw [Function.update_apply]
    split
    · rcases hc with rfl | rfl
      · trivial
      · exact Function.update_self ..
    · next hne =>
      refine (h.place p).mono (fun j hj => ?_) fun _ _ => id
      exact Function.update_of_ne (h.others hintent hne hj) _ _
  · obtain ⟨k, hk, hproject⟩ := h.since f p hp
    refine ⟨k, ?_, hproject⟩
    change Function.update w.creations _ _ f = _
    rw [Function.update_apply]
    split
    · next hf => rw [hown k (hf ▸ hk)]
    · exact hk
  · obtain ⟨k, hno, hrest⟩ := h.finished f p hp
    exact ⟨k, fun g hg => hno g (hholds g k hg), hrest⟩

/-- What the provider has for a key, after a request with it. -/
theorem provide_spec (h : Once sha w) {key project : String} (hkey : key ∈ w.issued)
    (hfresh : w.Fresh project) :
    ∃ projects id, w.provide key project = ({ w with projects := projects }, id) ∧
      projects key = some id ∧ (∀ k p, w.projects k = some p → projects k = some p) ∧
      (∀ k p, projects k = some p → k ∈ w.issued) ∧
      ∀ k k' p, projects k = some p → projects k' = some p → k = k' := by
  cases hknown : w.projects key with
  | some known =>
    refine ⟨w.projects, known, ?_, hknown, fun _ _ => id, h.known, h.provider⟩
    rw [provide, hknown]
  | none =>
    have hnew : ∀ k, w.projects k ≠ some project := fun k hk => hfresh k (h.known k project hk) hk
    refine ⟨Function.update w.projects key (some project), project, ?_, Function.update_self ..,
      fun k p hp => ?_, fun k p hp => ?_, fun k k' p hk hk' => ?_⟩
    · rw [provide, hknown]
    · rw [Function.update_of_ne (fun heq => by rw [heq, hknown] at hp; cases hp)]
      exact hp
    · rw [Function.update_apply] at hp
      split at hp
      · next heq => exact heq ▸ hkey
      · exact h.known k p hp
    · rw [Function.update_apply] at hk hk'
      split at hk <;> split at hk'
      · next heq heq' => exact heq.trans heq'.symm
      -- the new project belongs to no other key
      · exact absurd (hk ▸ hk') (hnew k')
      · exact absurd (hk' ▸ hk) (hnew k)
      · exact h.provider k k' p hk hk'

theorem Once.posts (h : Once sha w) {i : CreationIntent} {key id : String} {c : Creation}
    {projects : String → Option String} (hplace : w.commands pid = .saved i key)
    (hc : c = .idle ∨ c = .created i key id) (hid : projects key = some id)
    (hkeep : ∀ k p, w.projects k = some p → projects k = some p)
    (hknown : ∀ k p, projects k = some p → k ∈ w.issued)
    (hprovider : ∀ k k' p, projects k = some p → projects k' = some p → k = k') :
    Once sha ((({ w with projects := projects } : CreationWorld).answer (creationName sha i)
      id).setCommand pid c) := by
  have hintent : (w.commands pid).intent = some i := congrArg Creation.intent hplace
  have hfile : w.creations (creationName sha i) = some key := by
    have hsaved := h.place pid
    rw [hplace] at hsaved
    exact hsaved
  have hholds : ∀ f k, Holds sha ((({ w with projects := projects } : CreationWorld).answer
      (creationName sha i) id).setCommand pid c) f k → Holds sha w f k := by
    rintro f k (hf | ⟨p, j, hp, hf⟩)
    · exact .inl hf
    · change Function.update w.commands pid _ p = _ at hp
      rw [Function.update_apply] at hp
      split at hp
      · rcases hc with rfl | rfl <;> cases hp
      · exact .inr ⟨p, j, hp, hf⟩
  refine ⟨h.apart_update rfl fun j hj other hne k hk => ?_, fun f g k hf hg =>
    h.keys f g k (hholds f k hf) (hholds g k hg), fun f k hf => h.issued f k (hholds f k hf),
    hknown, hprovider, fun p => ?_, fun f p hp => ?_, fun f p hp => ?_⟩
  · have hsame : i = j := by
      rcases hc with rfl | rfl
      · cases hj
      · exact Option.some.inj hj
    exact hsame ▸ h.others hintent hne hk
  · change Place sha _ (Function.update w.commands pid _ p)
    rw [Function.update_apply]
    split
    · rcases hc with rfl | rfl
      · trivial
      · exact ⟨hfile, hid⟩
    · exact (h.place p).mono (fun _ _ => rfl) hkeep
  · change p ∈ Function.update w.since _ _ f at hp
    rw [Function.update_apply] at hp
    split at hp
    · next hf =>
      rcases List.mem_cons.mp hp with rfl | hp
      · exact ⟨key, hf ▸ hfile, hid⟩
      · obtain ⟨k, hk, hproject⟩ := h.since _ p hp
        exact ⟨k, hf ▸ hk, hkeep k p hproject⟩
    · obtain ⟨k, hk, hproject⟩ := h.since f p hp
      exact ⟨k, hk, hkeep k p hproject⟩
  · obtain ⟨k, hno, hissued, hproject⟩ := h.finished f p hp
    exact ⟨k, fun g hg => hno g (hholds g k hg), hissued, hkeep k p hproject⟩

theorem Once.removes (h : Once sha w) {i : CreationIntent} {key project : String}
    (hplace : w.commands pid = .registered i key project) :
    Once sha ((w.complete (creationName sha i) project).setCommand pid .idle) := by
  have hintent : (w.commands pid).intent = some i := congrArg Creation.intent hplace
  obtain ⟨hfile, hproject⟩ : w.creations (creationName sha i) = some key ∧
      w.projects key = some project := by
    have hregistered := h.place pid
    rw [hplace] at hregistered
    exact hregistered
  have hholds : ∀ f k,
      Holds sha ((w.complete (creationName sha i) project).setCommand pid .idle) f k →
        Holds sha w f k ∧ f ≠ creationName sha i := by
    rintro f k (hf | ⟨p, j, hp, hf⟩)
    · change Function.update w.creations _ _ f = _ at hf
      rw [Function.update_apply] at hf
      split at hf
      · cases hf
      · next hne => exact ⟨.inl hf, hne⟩
    · change Function.update w.commands pid _ p = _ at hp
      rw [Function.update_apply] at hp
      split at hp
      · cases hp
      · next hne =>
        exact ⟨.inr ⟨p, j, hp, hf⟩,
          hf ▸ h.others hintent hne (congrArg Creation.intent hp)⟩
  refine ⟨h.apart_update rfl fun j hj => (by cases hj), fun f g k hf hg =>
    h.keys f g k (hholds f k hf).1 (hholds g k hg).1, fun f k hf => h.issued f k (hholds f k hf).1,
    h.known, h.provider, fun p => ?_, fun f p hp => ?_, fun f p hp => ?_⟩
  · change Place sha _ (Function.update w.commands pid _ p)
    rw [Function.update_apply]
    split
    · trivial
    · next hne =>
      refine (h.place p).mono (fun j hj => ?_) fun _ _ => id
      exact Function.update_of_ne (h.others hintent hne hj) _ _
  · change p ∈ Function.update w.since _ _ f at hp
    rw [Function.update_apply] at hp
    split at hp
    · cases hp
    · next hne =>
      obtain ⟨k, hk, hp⟩ := h.since f p hp
      exact ⟨k, (Function.update_of_ne hne _ _).trans hk, hp⟩
  · have hold : ∀ f, ∀ q ∈ w.finished f, ∃ k, (∀ g, ¬ Holds sha w g k) ∧ k ∈ w.issued ∧
        w.projects k = some q := h.finished
    change p ∈ Function.update w.finished _ _ f at hp
    rw [Function.update_apply] at hp
    have hcases : p = project ∨ ∃ g, p ∈ w.finished g := by
      split at hp
      · exact (List.mem_cons.mp hp).imp_right fun hp => ⟨_, hp⟩
      · exact .inr ⟨f, hp⟩
    rcases hcases with rfl | ⟨g, hp⟩
    -- the key of the completed command was in no other file, and is in this one no more
    · refine ⟨key, fun g hg => ?_, h.issued _ key (.inl hfile), hproject⟩
      exact (hholds g key hg).2 (h.keys g _ key (hholds g key hg).1 (.inl hfile))
    · obtain ⟨k, hno, hrest⟩ := hold g p hp
      exact ⟨k, fun g hg => hno g (hholds g k hg).1, hrest⟩

theorem Once.step (h : Once sha w) (hoverlap : NoOverlap sha w (pid, e))
    (hs : w.step sha pid e = some w') : Once sha w' := by
  -- a command goes on with the intent that it has
  have hon {i : CreationIntent} {c : Creation} {u : CreationWorld}
      (hintent : (w.commands pid).intent = some i) (hc : c.intent = some i)
      (hcommands : u.commands = Function.update w.commands pid c)
      (hcreations : u.creations = w.creations) (hprojects : u.projects = w.projects)
      (hsince : u.since = w.since) (hfinished : u.finished = w.finished)
      (hissued : u.issued = w.issued)
      (hkeyed : ∀ i key, c = .keyed i key → w.creations (creationName sha i) = some key)
      (hplace : Place sha w c) : Once sha u :=
    h.moves hcommands hcreations hprojects hsince hfinished hissued hkeyed
      (fun j hj other hne k hk => Option.some.inj (hc.symm.trans hj) ▸ h.others hintent hne hk)
      hplace
  have hplace := h.place pid
  cases e with
  | begin i =>
    simp only [CreationWorld.step] at hs
    split at hs
    · split at hs
      · exact Option.some.inj hs ▸ h
      · split at hs
        · exact Option.some.inj hs ▸ h
        · refine Option.some.inj hs ▸ h.moves rfl rfl rfl rfl rfl rfl
            (fun _ _ hc => Creation.noConfusion hc) (fun j hj => ?_) trivial
          exact Option.some.inj hj ▸ hoverlap i rfl
    · cases hs
  | readKey fresh =>
    simp only [CreationWorld.step] at hs
    split at hs
    · next i hbegun =>
      have hintent : (w.commands pid).intent = some i := congrArg Creation.intent hbegun
      split at hs
      · next key hkey =>
        refine Option.some.inj hs ▸ hon hintent rfl rfl rfl rfl rfl rfl rfl (fun j k hc => ?_)
          fun k hk => ?_
        · obtain ⟨rfl, rfl⟩ := Creation.keyed.inj hc
          exact hkey
        · exact Option.some.inj (hk.symm.trans hkey)
      · next hnone =>
        split at hs
        · cases hs
        · next hfresh => exact Option.some.inj hs ▸ h.draws hbegun hnone hfresh
    · cases hs
  | save late =>
    simp only [CreationWorld.step] at hs
    split at hs
    · next i key hkeyed =>
      refine Option.some.inj hs ▸ h.saves hkeyed ?_
      cases late
      · exact .inr rfl
      · exact .inl rfl
    · cases hs
  | post project answered =>
    simp only [CreationWorld.step] at hs
    split at hs
    · next i key hsaved =>
      split at hs
      · next hfresh =>
        rw [hsaved] at hplace
        obtain ⟨projects, id, hprovide, hid, hkeep, hknown, hprovider⟩ :=
          provide_spec h (h.issued _ key (.inl hplace)) hfresh
        rw [hprovide] at hs
        refine Option.some.inj hs ▸ h.posts hsaved ?_ hid hkeep hknown hprovider
        cases answered
        · exact .inl rfl
        · exact .inr rfl
      · cases hs
    · cases hs
  | materialize | writeService | writeProject | register =>
    simp only [CreationWorld.step] at hs
    split at hs
    · next i key project hbefore =>
      rw [hbefore] at hplace
      exact Option.some.inj hs ▸ hon (congrArg Creation.intent hbefore) rfl rfl rfl rfl rfl rfl rfl
        (fun _ _ hc => Creation.noConfusion hc) hplace
    · cases hs
  | remove =>
    simp only [CreationWorld.step] at hs
    split at hs
    · next hregistered => exact Option.some.inj hs ▸ h.removes hregistered
    · cases hs
  | stop =>
    obtain rfl := Option.some.inj hs
    exact h.moves rfl rfl rfl rfl rfl rfl (fun _ _ hc => Creation.noConfusion hc)
      (fun _ hj => by cases hj) trivial

end Once

theorem creationName_injective {sha : Sha256} {i j : CreationIntent} (hi : i.Plain) (hj : j.Plain)
    (h : creationName sha i = creationName sha j) : i = j := by
  have htext : creationText i = creationText j := Utf8.encode_injective (sha.injective h)
  obtain ⟨horigin, hrest⟩ := Splitting.append_separator_inj hi.1 hj.1 htext
  obtain ⟨hroot, hmode⟩ := Splitting.append_separator_inj hi.2 hj.2 hrest
  have hfork : i.fork = j.fork := by
    have hne : (creationMode true).toList ≠ (creationMode false).toList := by decide
    cases hif : i.fork <;> cases hjf : j.fork <;> rw [hif, hjf] at hmode
    · exact absurd hmode.symm hne
    · exact absurd hmode hne
  obtain ⟨io, ir, ifork⟩ := i
  obtain ⟨jo, jr, jfork⟩ := j
  rw [CreationIntent.mk.injEq]
  exact ⟨String.toList_inj.mp horigin, String.toList_inj.mp hroot, hfork⟩

/-- Nothing has been created, whatever identities the checkouts have. -/
structure Start (w : CreationWorld) : Prop where
  creations : ∀ f, w.creations f = none
  projects : ∀ key, w.projects key = none
  commands : ∀ pid, w.commands pid = .idle
  since : ∀ f, w.since f = []
  finished : ∀ f, w.finished f = []

theorem Start.once {sha : Sha256} {w : CreationWorld} (h : Start w) : Once sha w := by
  have hholds : ∀ f key, ¬ Holds sha w f key := by
    rintro f key (hf | ⟨pid, i, hp, -⟩)
    · cases (h.creations f).symm.trans hf
    · cases (h.commands pid).symm.trans hp
  refine ⟨fun pid _ i _ hi => ?_, fun f _ key hf => absurd hf (hholds f key),
    fun f key hf => absurd hf (hholds f key), fun key project hp => ?_,
    fun key _ project hp => ?_, fun pid => ?_, fun f p hp => ?_, fun f p hp => ?_⟩
  · rw [h.commands pid] at hi
    cases hi
  · cases (h.projects key).symm.trans hp
  · cases (h.projects key).symm.trans hp
  · rw [h.commands pid]
    trivial
  · rw [h.since f] at hp
    cases hp
  · rw [h.finished f] at hp
    cases hp

/-- Wherever commands fail or die and whichever answers are lost: the requests of one intent since
its last completed command all stand for one project, which is no other intent's, and of no command
that has completed before. -/
theorem attempts_share_a_project {sha : Sha256} {w w' : CreationWorld}
    {es : List (ℕ × CreationEvent)} (h0 : Start w)
    (hes : Runs.Steps (creationStep sha) (NoOverlap sha) w es)
    (hr : Runs.run (creationStep sha) w es = some w') {i : CreationIntent} (hi : i.Plain)
    {p : String} (hp : p ∈ w'.since (creationName sha i)) :
    (∀ q ∈ w'.since (creationName sha i), q = p) ∧
    (∀ j : CreationIntent, j.Plain → p ∈ w'.since (creationName sha j) → j = i) ∧
    ∀ j, p ∉ w'.finished (creationName sha j) := by
  have h : Once sha w' :=
    Runs.run_invariant (fun _ _ _ h hok hs => Once.step h hok hs) h0.once hes hr
  obtain ⟨key, hfile, hkey⟩ := h.since _ p hp
  refine ⟨fun q hq => ?_, fun j hj hpj => ?_, fun j hpj => ?_⟩
  · obtain ⟨other, hother, hq⟩ := h.since _ q hq
    obtain rfl := Option.some.inj (hfile.symm.trans hother)
    exact Option.some.inj (hq.symm.trans hkey)
  · obtain ⟨other, hother, hpj⟩ := h.since _ p hpj
    obtain rfl := h.provider other key p hpj hkey
    exact creationName_injective hj hi (h.keys _ _ other (.inl hother) (.inl hfile))
  · obtain ⟨other, hno, -, hpj⟩ := h.finished _ p hpj
    obtain rfl := h.provider other key p hpj hkey
    exact hno _ (.inl hfile)

theorem provide_commands (w : CreationWorld) (key project : String) :
    (w.provide key project).1.commands = w.commands := by
  rw [provide]
  split <;> rfl

theorem commands_other {sha : Sha256} {w w' : CreationWorld} {pid other : ℕ} {e : CreationEvent}
    (hs : w.step sha pid e = some w') (hne : other ≠ pid) :
    w'.commands other = w.commands other := by
  have hupdate {c : Creation} : Function.update w.commands pid c other = w.commands other :=
    Function.update_of_ne hne _ _
  cases e with
  | post project answered =>
    simp only [CreationWorld.step] at hs
    split at hs
    · split at hs
      · obtain rfl := Option.some.inj hs
        change Function.update (w.provide _ project).1.commands pid _ other = _
        rw [provide_commands]
        exact hupdate
      · cases hs
    · cases hs
  | stop => exact Option.some.inj hs ▸ hupdate
  | _ =>
    simp only [CreationWorld.step] at hs
    repeat' split at hs
    all_goals
      first
      | (cases hs; done)
      | exact Option.some.inj hs ▸ hupdate
      | exact Option.some.inj hs ▸ rfl

/-- Commands that run one after another do not overlap. -/
theorem noOverlap_of_pid {sha : Sha256} {w : CreationWorld} {es : List (ℕ × CreationEvent)}
    {pid : ℕ} (hidle : ∀ other, other ≠ pid → w.commands other = .idle)
    (hes : ∀ e ∈ es, e.1 = pid) : Runs.Steps (creationStep sha) (NoOverlap sha) w es := by
  have hstep : ∀ v e u, (∀ other, other ≠ pid → v.commands other = .idle) → e.1 = pid →
      creationStep sha v e = some u → ∀ other, other ≠ pid → u.commands other = .idle := by
    intro v e u hv he hs other hne
    rw [commands_other hs (he ▸ hne)]
    exact hv other hne
  refine Runs.Steps.of_invariant hstep (fun v e hv he i _ other hne j hj => ?_) hidle
    (Runs.Steps.of_forall (fun e he _ => hes e he) w)
  rw [hv other (he ▸ hne)] at hj
  cases hj

/-- The answer of the first request is lost, and the second request is answered. -/
theorem attempts_share_a_project_after_loss :
    let fork : CreationIntent := ⟨"host", "/work", true⟩
    let es : List (ℕ × CreationEvent) := [.begin fork, .readKey "k", .save false, .post "prj" false,
      .begin fork, .readKey "l", .save false, .post "other" true, .materialize].map (1, ·)
    let w : CreationWorld := ⟨fun _ => none, fun _ => ⟨none, none⟩, fun _ => none, fun _ => .idle,
      fun _ => [], fun _ => [], []⟩
    ∃ u, Runs.run (creationStep sampleSha) w es = some u ∧
      (∀ q ∈ u.since (creationName sampleSha fork), q = "prj") ∧
      (∀ j : CreationIntent, j.Plain → "prj" ∈ u.since (creationName sampleSha j) → j = fork) ∧
      ∀ j, "prj" ∉ u.finished (creationName sampleSha j) := by
  intro fork es w
  have htest : ((Runs.run (creationStep sampleSha) w es).any fun u =>
      "prj" ∈ u.since (creationName sampleSha fork)) = true := by
    decide +kernel
  have hstart : Start w := ⟨fun _ => rfl, fun _ => rfl, fun _ => rfl, fun _ => rfl, fun _ => rfl⟩
  have hpid : ∀ e ∈ es, e.1 = 1 := by decide
  obtain ⟨u, hr, hp⟩ := (Option.any_eq_true _ _).mp htest
  exact ⟨u, hr, attempts_share_a_project hstart (noOverlap_of_pid (fun _ _ => rfl) hpid) hr
    ⟨by decide, by decide⟩ (of_decide_eq_true hp)⟩

end CreationWorld

end Resync
