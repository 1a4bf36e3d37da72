import Mathlib.Data.Finset.Card
import Resync.Lib.FiniteMap
import Resync.Lib.Runs
import Resync.ReceiptPaths

/-! `resync upgrade` (`cli.rs`): a build is staged beside the others, the launcher is switched to
it, and the activation prunes what is obsolete. Every file operation is a step of its own, any of
them may fail, and a process may die between two of them. -/
namespace Resync

/-- A directory of `share/resync/bin`; a process writes the temporary file of its own PID. -/
structure BuildDirectory where
  executable : Option (List UInt8)
  temporaries : ℕ → Option (List UInt8)

/-- The launcher is a link to the executable of a build, and so are the files in `links`, which
take its place. -/
structure InstallRoot where
  builds : FiniteMap (List Char) BuildDirectory
  launcher : Option (List Char)
  links : ℕ → Option (List Char)
  /-- Whether the npm package has its manifest under `lib/node_modules`. -/
  package : Bool

/-- What `stage_managed_build` has read of the executable that it stages. `current` is the build
whose executable runs `activate_upgrade`. -/
structure Staging where
  version : String
  fingerprint : List Char
  current : Option (List Char)
deriving DecidableEq

def buildId (version : String) (fingerprint : List Char) : List Char :=
  version.toList ++ '-' :: fingerprint.take 16

def Staging.buildId (s : Staging) : List Char := Resync.buildId s.version s.fingerprint

/-- Where a process stands in `stage_managed_build`, and an activation in `activate_upgrade`. -/
inductive Upgrade where
  | idle
  | fingerprinted (s : Staging)
  | created (s : Staging)
  /-- The executable is not there, or it is another. -/
  | replacing (s : Staging)
  | copying (s : Staging)
  | copied (s : Staging)
  | validated (s : Staging)
  | staged (s : Staging)
  | linked (s : Staging)
  | activated (s : Staging)
  | checked (s : Staging)
  | unpackaged (s : Staging)
  | relinked (s : Staging)
  | relaunched (s : Staging)
  | observed (s : Staging) (running : List (List Char))
  | pruning (s : Staging) (obsolete : List (List Char))
  | done (s : Staging)
deriving DecidableEq

structure UpgradeWorld where
  root : InstallRoot
  upgrades : ℕ → Upgrade

inductive UpgradeEvent where
  /-- A program of any place reads itself, for `upgrade_command`. -/
  | begin (version : String) (bytes : List UInt8)
  /-- The executable of a build reads itself, for `activate_upgrade`. -/
  | beginActivation (version : String) (current : List Char)
  | createDirectory
  | compare
  | removeTemporary
  /-- `fs::copy` has written so much; the disk and whoever changes the source decide what. -/
  | copy (bytes : List UInt8)
  | finishCopy
  | validate
  | rename
  | link
  | launch
  /-- The canonical paths, the daemon, the adapters and the package installations of NVM. -/
  | check
  /-- What `npm uninstall` removes under the install root: the command of the package stands where
  the launcher does. -/
  | npm (command package : Bool)
  /-- The package is gone, and so is that of Vite Plus. -/
  | uninstalled
  | relink
  | relaunch
  /-- The builds whose executables `/proc` shows. -/
  | observe (running : List (List Char))
  /-- The directory is read: in order, the paths of the entries that could be read. -/
  | list (obsolete : List (List Char))
  /-- `remove_dir_all` comes to the executable. -/
  | removeExecutable
  | removeDirectory
  | finish
  /-- A call fails, or the process dies. -/
  | stop

namespace UpgradeWorld

def setUpgrade (w : UpgradeWorld) (pid : ℕ) (u : Upgrade) : UpgradeWorld :=
  { w with upgrades := Function.update w.upgrades pid u }

def setBuild (w : UpgradeWorld) (id : List Char) (b : Option BuildDirectory) : UpgradeWorld :=
  { w with root := { w.root with builds := w.root.builds.set id b } }

def setTemporary (b : BuildDirectory) (pid : ℕ) (bytes : Option (List UInt8)) : BuildDirectory :=
  { b with temporaries := Function.update b.temporaries pid bytes }

def step (sha : Sha256) (w : UpgradeWorld) (pid : ℕ) : UpgradeEvent → Option UpgradeWorld
  | .begin version bytes =>
    match w.upgrades pid with
    | .idle => some (w.setUpgrade pid (.fingerprinted ⟨version, sha.hex bytes, none⟩))
    | _ => none
  | .beginActivation version current =>
    match w.upgrades pid with
    | .idle =>
      ((w.root.builds.get current).bind (·.executable)).map fun bytes =>
        w.setUpgrade pid (.fingerprinted ⟨version, sha.hex bytes, some current⟩)
    | _ => none
  | .createDirectory =>
    match w.upgrades pid with
    | .fingerprinted s =>
      -- `create_dir_all` leaves a directory as it is
      let build := (w.root.builds.get s.buildId).getD ⟨none, fun _ => none⟩
      some ((w.setBuild s.buildId (some build)).setUpgrade pid (.created s))
    | _ => none
  | .compare =>
    match w.upgrades pid with
    | .created s =>
      if ((w.root.builds.get s.buildId).bind (·.executable)).map sha.hex = some s.fingerprint then
        -- the executable is there, and is not copied again
        some (w.setUpgrade pid (.staged s))
      else some (w.setUpgrade pid (.replacing s))
    | _ => none
  | .removeTemporary =>
    match w.upgrades pid with
    | .replacing s =>
      (w.root.builds.get s.buildId).map fun build =>
        (w.setBuild s.buildId (some (setTemporary build pid none))).setUpgrade pid (.copying s)
    | _ => none
  | .copy bytes =>
    match w.upgrades pid with
    | .copying s =>
      (w.root.builds.get s.buildId).map fun build =>
        -- whole or not: `validate` reads it again
        w.setBuild s.buildId (some (setTemporary build pid (some bytes)))
    | _ => none
  | .finishCopy =>
    match w.upgrades pid with
    | .copying s => some (w.setUpgrade pid (.copied s))
    | _ => none
  | .validate =>
    match w.upgrades pid with
    | .copied s =>
      ((w.root.builds.get s.buildId).bind (·.temporaries pid)).map fun bytes =>
        if sha.hex bytes = s.fingerprint then w.setUpgrade pid (.validated s)
        -- "staged RepoSync build failed fingerprint validation"
        else w.setUpgrade pid .idle
    | _ => none
  | .rename =>
    match w.upgrades pid with
    | .validated s =>
      (w.root.builds.get s.buildId).bind fun build =>
        (build.temporaries pid).map fun bytes =>
          (w.setBuild s.buildId (some { setTemporary build pid none with
            executable := some bytes })).setUpgrade pid (.staged s)
    | _ => none
  | .link =>
    match w.upgrades pid with
    | .staged s => some { w.setUpgrade pid (.linked s) with
        root := { w.root with links := Function.update w.root.links pid (some s.buildId) } }
    | _ => none
  | .launch =>
    match w.upgrades pid with
    | .linked s =>
      (w.root.links pid).map fun id => { w.setUpgrade pid
          -- `upgrade_command` has the new executable run the activation and waits
          (if s.current = none then .idle else .activated s) with
        root := { w.root with
          launcher := some id, links := Function.update w.root.links pid none } }
    | _ => none
  | .check =>
    match w.upgrades pid with
    | .activated s =>
      if s.current = some s.buildId then some (w.setUpgrade pid (.checked s))
      -- "upgrade activation must run from the staged canonical build"
      else some (w.setUpgrade pid .idle)
    | _ => none
  | .npm command package =>
    match w.upgrades pid with
    | .checked _ =>
      if w.root.package then
        some { w with root := { w.root with
          launcher := if command then none else w.root.launcher, package := !package } }
      else none
    | _ => none
  | .uninstalled =>
    match w.upgrades pid with
    | .checked s =>
      -- "could not remove obsolete npm RepoSync installation"
      if w.root.package then some (w.setUpgrade pid .idle)
      else some (w.setUpgrade pid (.unpackaged s))
    | _ => none
  | .relink =>
    match w.upgrades pid with
    | .unpackaged s => some { w.setUpgrade pid (.relinked s) with
        root := { w.root with links := Function.update w.root.links pid (some s.buildId) } }
    | _ => none
  | .relaunch =>
    match w.upgrades pid with
    | .relinked s =>
      (w.root.links pid).map fun id => { w.setUpgrade pid (.relaunched s) with
        root := { w.root with
          launcher := some id, links := Function.update w.root.links pid none } }
    | _ => none
  | .observe running =>
    match w.upgrades pid with
    | .relaunched s => some (w.setUpgrade pid (.observed s running))
    | _ => none
  | .list obsolete =>
    match w.upgrades pid with
    | .observed s running =>
      if obsolete.Pairwise (· < ·) ∧ obsolete.toFinset ⊆ w.root.builds.keys.erase s.buildId then
        -- a build that is still referenced ends the activation before anything is removed
        if obsolete.any running.contains then some (w.setUpgrade pid .idle)
        else some (w.setUpgrade pid (.pruning s obsolete))
      else none
    | _ => none
  | .removeExecutable =>
    match w.upgrades pid with
    | .pruning _ (id :: _) =>
      (w.root.builds.get id).map fun build =>
        w.setBuild id (some { build with executable := none })
    | _ => none
  | .removeDirectory =>
    match w.upgrades pid with
    | .pruning s (id :: ids) =>
      (w.root.builds.get id).map fun _ => (w.setBuild id none).setUpgrade pid (.pruning s ids)
    | _ => none
  | .finish =>
    match w.upgrades pid with
    | .pruning s [] => some (w.setUpgrade pid (.done s))
    | _ => none
  | .stop => some (w.setUpgrade pid .idle)

/-- What a step can do, with its guards. -/
inductive UpgradeStep (sha : Sha256) (w : UpgradeWorld) (pid : ℕ) :
    UpgradeEvent → UpgradeWorld → Prop
  | begins {version : String} {bytes : List UInt8} (place : w.upgrades pid = .idle) :
      UpgradeStep sha w pid (.begin version bytes)
        (w.setUpgrade pid (.fingerprinted ⟨version, sha.hex bytes, none⟩))
  | beginsActivation {version : String} {current : List Char} {bytes : List UInt8}
      (place : w.upgrades pid = .idle) :
      UpgradeStep sha w pid (.beginActivation version current)
        (w.setUpgrade pid (.fingerprinted ⟨version, sha.hex bytes, some current⟩))
  | createsDirectory {s : Staging} (place : w.upgrades pid = .fingerprinted s) :
      UpgradeStep sha w pid .createDirectory ((w.setBuild s.buildId
        (some ((w.root.builds.get s.buildId).getD ⟨none, fun _ => none⟩))).setUpgrade pid
          (.created s))
  | isStaged {s : Staging} {build : BuildDirectory} {bytes : List UInt8}
      (place : w.upgrades pid = .created s) (found : w.root.builds.get s.buildId = some build)
      (executable : build.executable = some bytes) (same : sha.hex bytes = s.fingerprint) :
      UpgradeStep sha w pid .compare (w.setUpgrade pid (.staged s))
  | differs {s : Staging} (place : w.upgrades pid = .created s) :
      UpgradeStep sha w pid .compare (w.setUpgrade pid (.replacing s))
  | removesTemporary {s : Staging} {build : BuildDirectory}
      (place : w.upgrades pid = .replacing s)
      (found : w.root.builds.get s.buildId = some build) :
      UpgradeStep sha w pid .removeTemporary ((w.setBuild s.buildId
        (some (setTemporary build pid none))).setUpgrade pid (.copying s))
  | copies {s : Staging} {build : BuildDirectory} {bytes : List UInt8}
      (place : w.upgrades pid = .copying s) (found : w.root.builds.get s.buildId = some build) :
      UpgradeStep sha w pid (.copy bytes)
        (w.setBuild s.buildId (some (setTemporary build pid (some bytes))))
  | finishesCopy {s : Staging} (place : w.upgrades pid = .copying s) :
      UpgradeStep sha w pid .finishCopy (w.setUpgrade pid (.copied s))
  | validates {s : Staging} {build : BuildDirectory} {bytes : List UInt8}
      (place : w.upgrades pid = .copied s) (found : w.root.builds.get s.buildId = some build)
      (temporary : build.temporaries pid = some bytes) (same : sha.hex bytes = s.fingerprint) :
      UpgradeStep sha w pid .validate (w.setUpgrade pid (.validated s))
  | isDamaged : UpgradeStep sha w pid .validate (w.setUpgrade pid .idle)
  | renames {s : Staging} {build : BuildDirectory} {bytes : List UInt8}
      (place : w.upgrades pid = .validated s) (found : w.root.builds.get s.buildId = some build)
      (temporary : build.temporaries pid = some bytes) :
      UpgradeStep sha w pid .rename ((w.setBuild s.buildId
        (some { setTemporary build pid none with executable := some bytes })).setUpgrade pid
          (.staged s))
  | links {s : Staging} (place : w.upgrades pid = .staged s) :
      UpgradeStep sha w pid .link { w.setUpgrade pid (.linked s) with
        root := { w.root with links := Function.update w.root.links pid (some s.buildId) } }
  | launches {s : Staging} {id : List Char} (place : w.upgrades pid = .linked s)
      (link : w.root.links pid = some id) :
      UpgradeStep sha w pid .launch { w.setUpgrade pid
          (if s.current = none then .idle else .activated s) with
        root := { w.root with
          launcher := some id, links := Function.update w.root.links pid none } }
  | checks {s : Staging} (place : w.upgrades pid = .activated s)
      (current : s.current = some s.buildId) :
      UpgradeStep sha w pid .check (w.setUpgrade pid (.checked s))
  | runsElsewhere : UpgradeStep sha w pid .check (w.setUpgrade pid .idle)
  | npms {s : Staging} {command package : Bool} (place : w.upgrades pid = .checked s)
      (packaged : w.root.package = true) :
      UpgradeStep sha w pid (.npm command package) { w with root := { w.root with
        launcher := if command then none else w.root.launcher, package := !package } }
  | keepsPackage : UpgradeStep sha w pid .uninstalled (w.setUpgrade pid .idle)
  | uninstalls {s : Staging} (place : w.upgrades pid = .checked s)
      (gone : w.root.package = false) :
      UpgradeStep sha w pid .uninstalled (w.setUpgrade pid (.unpackaged s))
  | relinks {s : Staging} (place : w.upgrades pid = .unpackaged s) :
      UpgradeStep sha w pid .relink { w.setUpgrade pid (.relinked s) with
        root := { w.root with links := Function.update w.root.links pid (some s.buildId) } }
  | relaunches {s : Staging} {id : List Char} (place : w.upgrades pid = .relinked s)
      (link : w.root.links pid = some id) :
      UpgradeStep sha w pid .relaunch { w.setUpgrade pid (.relaunched s) with
        root := { w.root with
          launcher := some id, links := Function.update w.root.links pid none } }
  | observes {s : Staging} {running : List (List Char)} (place : w.upgrades pid = .relaunched s) :
      UpgradeStep sha w pid (.observe running) (w.setUpgrade pid (.observed s running))
  | lists {s : Staging} {running obsolete : List (List Char)}
      (place : w.upgrades pid = .observed s running)
      (others : obsolete.toFinset ⊆ w.root.builds.keys.erase s.buildId)
      (unused : ∀ id ∈ obsolete, id ∉ running) :
      UpgradeStep sha w pid (.list obsolete) (w.setUpgrade pid (.pruning s obsolete))
  | isReferenced {obsolete : List (List Char)} :
      UpgradeStep sha w pid (.list obsolete) (w.setUpgrade pid .idle)
  | removesExecutable {s : Staging} {id : List Char} {ids : List (List Char)}
      {build : BuildDirectory} (place : w.upgrades pid = .pruning s (id :: ids))
      (found : w.root.builds.get id = some build) :
      UpgradeStep sha w pid .removeExecutable
        (w.setBuild id (some { build with executable := none }))
  | removesDirectory {s : Staging} {id : List Char} {ids : List (List Char)}
      (place : w.upgrades pid = .pruning s (id :: ids)) :
      UpgradeStep sha w pid .removeDirectory ((w.setBuild id none).setUpgrade pid (.pruning s ids))
  | finishes {s : Staging} (place : w.upgrades pid = .pruning s []) :
      UpgradeStep sha w pid .finish (w.setUpgrade pid (.done s))
  | stops : UpgradeStep sha w pid .stop (w.setUpgrade pid .idle)

theorem upgradeStep_of_step {sha : Sha256} {w w' : UpgradeWorld} {pid : ℕ} {e : UpgradeEvent}
    (h : w.step sha pid e = some w') : UpgradeStep sha w pid e w' := by
  cases e with
  | begin version bytes =>
    simp only [step] at h
    split at h
    · next hplace => exact Option.some.inj h ▸ .begins hplace
    · cases h
  | beginActivation version current =>
    simp only [step] at h
    split at h
    · next hplace =>
      obtain ⟨bytes, -, rfl⟩ := Option.map_eq_some_iff.mp h
      exact .beginsActivation hplace
    · cases h
  | createDirectory =>
    simp only [step] at h
    split at h
    · next hplace => exact Option.some.inj h ▸ .createsDirectory hplace
    · cases h
  | compare =>
    simp only [step] at h
    split at h
    · next hplace =>
      split at h
      · next hsame =>
        obtain ⟨bytes, hbytes, hhex⟩ := Option.map_eq_some_iff.mp hsame
        obtain ⟨build, hfound, hexecutable⟩ := Option.bind_eq_some_iff.mp hbytes
        exact Option.some.inj h ▸ .isStaged hplace hfound hexecutable hhex
      · exact Option.some.inj h ▸ .differs hplace
    · cases h
  | removeTemporary =>
    simp only [step] at h
    split at h
    · next hplace =>
      obtain ⟨build, hfound, rfl⟩ := Option.map_eq_some_iff.mp h
      exact .removesTemporary hplace hfound
    · cases h
  | copy bytes =>
    simp only [step] at h
    split at h
    · next hplace =>
      obtain ⟨build, hfound, rfl⟩ := Option.map_eq_some_iff.mp h
      exact .copies hplace hfound
    · cases h
  | finishCopy =>
    simp only [step] at h
    split at h
    · next hplace => exact Option.some.inj h ▸ .finishesCopy hplace
    · cases h
  | validate =>
    simp only [step] at h
    split at h
    · next hplace =>
      obtain ⟨bytes, hbytes, rfl⟩ := Option.map_eq_some_iff.mp h
      obtain ⟨build, hfound, htemporary⟩ := Option.bind_eq_some_iff.mp hbytes
      split
      · next hsame => exact .validates hplace hfound htemporary hsame
      · exact .isDamaged
    · cases h
  | rename =>
    simp only [step] at h
    split at h
    · next hplace =>
      obtain ⟨build, hfound, hrest⟩ := Option.bind_eq_some_iff.mp h
      obtain ⟨bytes, htemporary, rfl⟩ := Option.map_eq_some_iff.mp hrest
      exact .renames hplace hfound htemporary
    · cases h
  | link =>
    simp only [step] at h
    split at h
    · next hplace => exact Option.some.inj h ▸ .links hplace
    · cases h
  | launch =>
    simp only [step] at h
    split at h
    · next hplace =>
      obtain ⟨id, hlink, rfl⟩ := Option.map_eq_some_iff.mp h
      exact .launches hplace hlink
    · cases h
  | check =>
    simp only [step] at h
    split at h
    · next hplace =>
      split at h
      · next hcurrent => exact Option.some.inj h ▸ .checks hplace hcurrent
      · exact Option.some.inj h ▸ .runsElsewhere
    · cases h
  | npm command package =>
    simp only [step] at h
    split at h
    · next hplace =>
      split at h
      · next hpackaged => exact Option.some.inj h ▸ .npms hplace hpackaged
      · cases h
    · cases h
  | uninstalled =>
    simp only [step] at h
    split at h
    · next hplace =>
      split at h
      · exact Option.some.inj h ▸ .keepsPackage
      · next hgone => exact Option.some.inj h ▸ .uninstalls hplace (Bool.not_eq_true _ ▸ hgone)
    · cases h
  | relink =>
    simp only [step] at h
    split at h
    · next hplace => exact Option.some.inj h ▸ .relinks hplace
    · cases h
  | relaunch =>
    simp only [step] at h
    split at h
    · next hplace =>
      obtain ⟨id, hlink, rfl⟩ := Option.map_eq_some_iff.mp h
      exact .relaunches hplace hlink
    · cases h
  | observe running =>
    simp only [step] at h
    split at h
    · next hplace => exact Option.some.inj h ▸ .observes hplace
    · cases h
  | list obsolete =>
    simp only [step] at h
    split at h
    · next hplace =>
      split at h
      · next hlisted =>
        split at h
        · exact Option.some.inj h ▸ .isReferenced
        · next hunused =>
          refine Option.some.inj h ▸ .lists hplace hlisted.2 fun id hid hrunning => ?_
          exact hunused (List.any_eq_true.mpr ⟨id, hid, List.contains_iff_mem.mpr hrunning⟩)
      · cases h
    · cases h
  | removeExecutable =>
    simp only [step] at h
    split at h
    · next hplace =>
      obtain ⟨build, hfound, rfl⟩ := Option.map_eq_some_iff.mp h
      exact .removesExecutable hplace hfound
    · cases h
  | removeDirectory =>
    simp only [step] at h
    split at h
    · next hplace =>
      obtain ⟨build, -, rfl⟩ := Option.map_eq_some_iff.mp h
      exact .removesDirectory hplace
    · cases h
  | finish =>
    simp only [step] at h
    split at h
    · next hplace => exact Option.some.inj h ▸ .finishes hplace
    · cases h
  | stop => exact Option.some.inj h ▸ .stops

@[simp] theorem setUpgrade_root (w : UpgradeWorld) (pid : ℕ) (u : Upgrade) :
    (w.setUpgrade pid u).root = w.root := rfl

@[simp] theorem setBuild_upgrades (w : UpgradeWorld) (id : List Char) (b : Option BuildDirectory) :
    (w.setBuild id b).upgrades = w.upgrades := rfl

theorem get_setBuild (w : UpgradeWorld) (id : List Char) (b : Option BuildDirectory) :
    (w.setBuild id b).root.builds.get = Function.update w.root.builds.get id b :=
  FiniteMap.get_set _ _ _

/-- The steps of all processes. -/
def upgradeStep (sha : Sha256) (w : UpgradeWorld) (e : ℕ × UpgradeEvent) : Option UpgradeWorld :=
  w.step sha e.1 e.2

/-- Every executable of the store is the whole of the build that its directory is named after. -/
def Executables (sha : Sha256) (root : InstallRoot) : Prop :=
  ∀ id build bytes, root.builds.get id = some build → build.executable = some bytes →
    ∃ version, id = buildId version (sha.hex bytes)

structure Whole (sha : Sha256) (w : UpgradeWorld) : Prop where
  executables : Executables sha w.root
  validated : ∀ pid s build bytes, w.upgrades pid = .validated s →
    w.root.builds.get s.buildId = some build → build.temporaries pid = some bytes →
      sha.hex bytes = s.fingerprint

section Whole

variable {sha : Sha256} {w w' : UpgradeWorld} {pid : ℕ} {e : UpgradeEvent}

/-- A step that leaves the store as it is. -/
theorem Whole.place (h : Whole sha w) {u : Upgrade} (hbuilds : w'.root.builds = w.root.builds)
    (hupgrades : w'.upgrades = Function.update w.upgrades pid u)
    (hvalidated : ∀ s build bytes, u = .validated s → w.root.builds.get s.buildId = some build →
      build.temporaries pid = some bytes → sha.hex bytes = s.fingerprint) : Whole sha w' := by
  refine ⟨fun id build bytes hbuild => ?_, fun other s build bytes hplace hbuild => ?_⟩
  · rw [hbuilds] at hbuild
    exact h.executables id build bytes hbuild
  · rw [hbuilds] at hbuild
    rw [hupgrades, Function.update_apply] at hplace
    split at hplace
    · next hother => exact hother ▸ hvalidated s build bytes hplace hbuild
    · exact h.validated other s build bytes hplace hbuild

/-- A step that writes one build, and in it no temporary file of another process. -/
theorem Whole.write (h : Whole sha w) {id : List Char} {new : Option BuildDirectory}
    (hbuilds : w'.root.builds.get = Function.update w.root.builds.get id new)
    (hothers : ∀ other, other ≠ pid → w'.upgrades other = w.upgrades other)
    (hplace : ∀ s, w'.upgrades pid ≠ .validated s)
    (hexecutable : ∀ build bytes, new = some build → build.executable = some bytes →
      ∃ version, id = buildId version (sha.hex bytes))
    (htemporaries : ∀ build, new = some build → ∀ other, other ≠ pid →
      ∀ bytes, build.temporaries other = some bytes →
        ∃ old, w.root.builds.get id = some old ∧ old.temporaries other = some bytes) :
    Whole sha w' := by
  constructor
  · intro id' build bytes hbuild
    rw [hbuilds, Function.update_apply] at hbuild
    split at hbuild
    · next hid => exact hid ▸ hexecutable build bytes hbuild
    · exact h.executables id' build bytes hbuild
  · intro other s build bytes hother hbuild htemporary
    have hne : other ≠ pid := fun heq => hplace s (heq ▸ hother)
    rw [hothers other hne] at hother
    rw [hbuilds, Function.update_apply] at hbuild
    split at hbuild
    · next hid =>
      obtain ⟨old, hold, hbytes⟩ := htemporaries build hbuild other hne bytes htemporary
      exact h.validated other s old bytes hother (hid ▸ hold) hbytes
    · exact h.validated other s build bytes hother hbuild htemporary

theorem setTemporary_other (build : BuildDirectory) (bytes : Option (List UInt8)) {other : ℕ}
    (h : other ≠ pid) :
    (setTemporary build pid bytes).temporaries other = build.temporaries other :=
  Function.update_of_ne h _ _

theorem setUpgrade_other (w : UpgradeWorld) (u : Upgrade) {other : ℕ} (h : other ≠ pid) :
    (w.setUpgrade pid u).upgrades other = w.upgrades other := Function.update_of_ne h _ _

theorem setUpgrade_self (w : UpgradeWorld) (u : Upgrade) :
    (w.setUpgrade pid u).upgrades pid = u := Function.update_self ..

/-- A temporary file is written, and the executable stays. -/
theorem Whole.temporary (h : Whole sha w) {id : List Char} {build : BuildDirectory}
    {bytes : Option (List UInt8)} (hbuild : w.root.builds.get id = some build)
    (hbuilds : w'.root.builds.get =
      Function.update w.root.builds.get id (some (setTemporary build pid bytes)))
    (hothers : ∀ other, other ≠ pid → w'.upgrades other = w.upgrades other)
    (hplace : ∀ s, w'.upgrades pid ≠ .validated s) : Whole sha w' := by
  refine h.write hbuilds hothers hplace (fun new content hnew hcontent => ?_) ?_
  · obtain rfl := Option.some.inj hnew
    exact h.executables id build content hbuild hcontent
  · intro new hnew other hne content hcontent
    obtain rfl := Option.some.inj hnew
    rw [setTemporary_other build bytes hne] at hcontent
    exact ⟨build, hbuild, hcontent⟩

theorem Whole.step (h : Whole sha w) (hs : w.step sha pid e = some w') : Whole sha w' := by
  have hno {u : Upgrade} (hu : ∀ s, u ≠ .validated s) : ∀ s build bytes, u = .validated s →
      w.root.builds.get s.buildId = some build → build.temporaries pid = some bytes →
        sha.hex bytes = s.fingerprint := fun s _ _ hplace => absurd hplace (hu s)
  cases upgradeStep_of_step hs with
  | @validates s build bytes place found temporary same =>
    refine h.place rfl rfl fun s' build' bytes' hplace hbuild hbytes => ?_
    obtain rfl := Upgrade.validated.inj hplace
    obtain rfl := Option.some.inj (found.symm.trans hbuild)
    obtain rfl := Option.some.inj (temporary.symm.trans hbytes)
    exact same
  | @createsDirectory s place =>
    refine h.write (get_setBuild w _ _) (fun other hne => setUpgrade_other _ _ hne)
      (fun s' hplace => ?_) (fun build bytes hnew hbytes => ?_)
      fun build hnew other hne bytes hbytes => ?_
    · rw [setUpgrade_self] at hplace
      cases hplace
    · obtain rfl := Option.some.inj hnew
      cases hfound : w.root.builds.get s.buildId with
      | none =>
        rw [hfound] at hbytes
        cases hbytes
      | some old =>
        rw [hfound] at hbytes
        exact h.executables _ old bytes hfound hbytes
    · obtain rfl := Option.some.inj hnew
      cases hfound : w.root.builds.get s.buildId with
      | none =>
        rw [hfound] at hbytes
        cases hbytes
      | some old =>
        rw [hfound] at hbytes
        exact ⟨old, rfl, hbytes⟩
  | removesTemporary place found =>
    refine h.temporary found (get_setBuild w _ _) (fun other hne => setUpgrade_other _ _ hne)
      fun s' hplace => ?_
    rw [setUpgrade_self] at hplace
    cases hplace
  | copies place found =>
    refine h.temporary found (get_setBuild w _ _) (fun _ _ => rfl) fun s' hplace => ?_
    cases place.symm.trans hplace
  | @renames s build bytes place found temporary =>
    have hsame := h.validated pid s build bytes place found temporary
    refine h.write (get_setBuild w _ _) (fun other hne => setUpgrade_other _ _ hne)
      (fun s' hplace => ?_) (fun new content hnew hcontent => ?_)
      fun new hnew other hne content hcontent => ?_
    · rw [setUpgrade_self] at hplace
      cases hplace
    · obtain rfl := Option.some.inj hnew
      obtain rfl := Option.some.inj hcontent
      exact ⟨s.version, by rw [hsame, Staging.buildId]⟩
    · obtain rfl := Option.some.inj hnew
      have hold : build.temporaries other = some content :=
        (setTemporary_other build none hne).symm.trans hcontent
      exact ⟨build, found, hold⟩
  | @removesExecutable s id ids build place found =>
    have hplace : ∀ s', w.upgrades pid ≠ .validated s' := fun s' hplace => by
      cases place.symm.trans hplace
    refine h.write (get_setBuild w _ _) (fun _ _ => rfl) hplace
      (fun new content hnew hcontent => ?_) fun new hnew other hne content hcontent => ?_
    · obtain rfl := Option.some.inj hnew
      cases hcontent
    · obtain rfl := Option.some.inj hnew
      exact ⟨build, found, hcontent⟩
  | removesDirectory place =>
    refine h.write (get_setBuild w _ _) (fun other hne => setUpgrade_other _ _ hne)
      (fun s' hplace => ?_) (fun new content hnew => ?_) fun new hnew => ?_
    · rw [setUpgrade_self] at hplace
      cases hplace
    · cases hnew
    · cases hnew
  | @launches s id place link =>
    refine h.place rfl rfl (hno fun s' => ?_)
    split
    · exact Upgrade.noConfusion
    · exact Upgrade.noConfusion
  | npms place packaged =>
    refine h.place rfl (Function.update_eq_self pid w.upgrades).symm (hno fun s' => ?_)
    rw [place]
    exact Upgrade.noConfusion
  | begins | beginsActivation | isStaged | differs | finishesCopy | isDamaged | links | checks
  | runsElsewhere | keepsPackage | uninstalls | relinks | relaunches | observes | lists
  | isReferenced | finishes | stops =>
    exact h.place rfl rfl (hno fun s' => Upgrade.noConfusion)

/-- However upgrades overlap, and wherever they fail or die, what stands in the store as the
executable of a build is the whole of it. -/
theorem managed_builds_are_whole {es : List (ℕ × UpgradeEvent)} (h0 : Executables sha w.root)
    (hidle : ∀ pid, w.upgrades pid = .idle)
    (hr : Runs.run (upgradeStep sha) w es = some w') : Executables sha w'.root := by
  have hstart : Whole sha w := by
    refine ⟨h0, fun pid s build bytes hplace => ?_⟩
    rw [hidle] at hplace
    cases hplace
  exact (Runs.run_invariant (fun _ _ _ h _ hs => Whole.step h hs) hstart
    (Runs.Steps.of_forall (fun _ _ _ => trivial) _) hr).executables

/-- A store with one build, which the launcher names. -/
def oldStore : UpgradeWorld where
  root := ⟨FiniteMap.empty.set "0-030".toList (some ⟨some [3], fun _ => none⟩),
    some "0-030".toList, fun _ => none, true⟩
  upgrades _ := .idle

theorem executables_oldStore : Executables sampleSha oldStore.root := by
  intro id build bytes hbuild hbytes
  have hget : oldStore.root.builds.get =
      Function.update (fun _ => none) "0-030".toList (some ⟨some [3], fun _ => none⟩) :=
    FiniteMap.get_set _ _ _
  rw [hget, Function.update_apply] at hbuild
  split at hbuild
  · next hid =>
    obtain rfl := Option.some.inj hbuild
    obtain rfl := Option.some.inj hbytes
    exact ⟨"0", hid.trans (by decide)⟩
  · cases hbuild

/-- Two processes stage the same program at once, and the first one dies. -/
theorem managed_builds_are_whole_of_two :
    let es : List (ℕ × UpgradeEvent) := [(1, .begin "1" [7]), (2, .begin "1" [7]),
      (1, .createDirectory), (1, .compare), (2, .createDirectory), (2, .compare),
      (1, .removeTemporary), (1, .copy [7]), (2, .removeTemporary), (1, .stop), (2, .copy [7]),
      (2, .finishCopy), (2, .validate), (2, .rename)]
    ∃ w, Runs.run (upgradeStep sampleSha) oldStore es = some w ∧ Executables sampleSha w.root := by
  intro es
  have hr : ∃ w, Runs.run (upgradeStep sampleSha) oldStore es = some w :=
    Option.isSome_iff_exists.mp (by decide +kernel)
  obtain ⟨w, hr⟩ := hr
  exact ⟨w, hr, managed_builds_are_whole executables_oldStore (fun _ => rfl) hr⟩

end Whole

/-- No other process is at an upgrade. -/
def Alone (w : UpgradeWorld) (pid : ℕ) : Prop := ∀ other, other ≠ pid → w.upgrades other = .idle

def HasExecutable (root : InstallRoot) (id : List Char) : Prop :=
  ∃ build bytes, root.builds.get id = some build ∧ build.executable = some bytes

/-- The launcher, where there is one, names an executable. -/
def Resolves (root : InstallRoot) : Prop := ∀ id, root.launcher = some id → HasExecutable root id

/-- What an upgrade that is alone has done where it stands. -/
def Stage (w : UpgradeWorld) (pid : ℕ) : Upgrade → Prop
  | .staged s | .checked s | .unpackaged s => HasExecutable w.root s.buildId
  | .linked s | .relinked s => HasExecutable w.root s.buildId ∧ w.root.links pid = some s.buildId
  | .activated s | .relaunched s | .observed s _ | .done s =>
    w.root.launcher = some s.buildId
  | .pruning s ids => w.root.launcher = some s.buildId ∧ s.buildId ∉ ids
  | _ => True

structure Sound (sha : Sha256) (w : UpgradeWorld) : Prop where
  whole : Whole sha w
  resolves : Resolves w.root
  stage : ∀ pid, Stage w pid (w.upgrades pid)

/-- The directory of the builds is read without a failure. -/
def listsAll (w : UpgradeWorld) (pid : ℕ) : UpgradeEvent → Bool
  | .list obsolete =>
    match w.upgrades pid with
    | .observed s _ => obsolete.toFinset = w.root.builds.keys.erase s.buildId
    | _ => true
  | _ => true

/-- What is left beside the build of an activation that prunes. -/
def Cleared (w : UpgradeWorld) : Upgrade → Prop
  | .pruning s ids => w.root.builds.keys ⊆ insert s.buildId ids.toFinset
  | .done s => w.root.builds.keys ⊆ {s.buildId}
  | _ => True

/-- The activation has come past the package under the install root. -/
def PastPackage : Upgrade → Bool
  | .unpackaged _ | .relinked _ | .relaunched _ | .observed _ _ | .pruning _ _ | .done _ => true
  | _ => false

/-- The checks of `single_build_health` on the install root, for the build that runs it. -/
def singleBuildHealth (root : InstallRoot) (current : List Char) : Prop :=
  root.launcher = some current ∧ HasExecutable root current ∧ root.package = false ∧
    (root.builds.keys.filter fun id => ((root.builds.get id).bind (·.executable)).isSome).card = 1

section Alone

variable {sha : Sha256} {w w' : UpgradeWorld} {pid : ℕ} {e : UpgradeEvent}

theorem HasExecutable.write {root root' : InstallRoot} {id other : List Char}
    {new : Option BuildDirectory}
    (h : HasExecutable root id)
    (hbuilds : root'.builds.get = Function.update root.builds.get other new)
    (hnew : other = id → ∃ build bytes, new = some build ∧ build.executable = some bytes) :
    HasExecutable root' id := by
  by_cases hid : id = other
  · obtain ⟨build, bytes, hbuild, hbytes⟩ := hnew hid.symm
    refine ⟨build, bytes, ?_, hbytes⟩
    rw [hbuilds, hid, Function.update_self]
    exact hbuild
  · obtain ⟨build, bytes, hbuild, hbytes⟩ := h
    refine ⟨build, bytes, ?_, hbytes⟩
    rw [hbuilds, Function.update_of_ne hid]
    exact hbuild

theorem Resolves.write {root root' : InstallRoot} {other : List Char}
    {new : Option BuildDirectory} (h : Resolves root) (hlauncher : root'.launcher = root.launcher)
    (hbuilds : root'.builds.get = Function.update root.builds.get other new)
    (hnew : HasExecutable root other →
      ∃ build bytes, new = some build ∧ build.executable = some bytes) : Resolves root' := by
  intro id hid
  have hold := h id (hlauncher ▸ hid)
  exact hold.write hbuilds fun heq => hnew (heq ▸ hold)

/-- A build that the launcher does not name is removed. -/
theorem Resolves.remove {root root' : InstallRoot} {id other : List Char}
    {new : Option BuildDirectory} (h : Resolves root) (hlauncher : root.launcher = some id)
    (hne : id ≠ other) (hlauncher' : root'.launcher = root.launcher)
    (hbuilds : root'.builds.get = Function.update root.builds.get other new) : Resolves root' := by
  intro id' hid'
  obtain rfl := Option.some.inj (hlauncher.symm.trans (hlauncher' ▸ hid'))
  exact (h id hlauncher).write hbuilds fun heq => absurd heq.symm hne

theorem upgrades_other (hs : w.step sha pid e = some w') {other : ℕ} (hne : other ≠ pid) :
    w'.upgrades other = w.upgrades other := by
  cases upgradeStep_of_step hs with
  | copies | npms | removesExecutable => rfl
  | _ => exact Function.update_of_ne hne _ _

theorem Sound.of_alone (h : Sound sha w) (halone : w.Alone pid) (hs : w.step sha pid e = some w')
    (hresolves : Resolves w'.root) (hstage : Stage w' pid (w'.upgrades pid)) : Sound sha w' := by
  refine ⟨h.whole.step hs, hresolves, fun other => ?_⟩
  by_cases hother : other = pid
  · exact hother ▸ hstage
  · rw [upgrades_other hs hother, halone other hother]
    trivial

/-- A step to another place that leaves the files as they are. -/
theorem Sound.goesOn (h : Sound sha w) (halone : w.Alone pid) {u : Upgrade}
    (hs : w.step sha pid e = some (w.setUpgrade pid u)) (hstage : Stage w pid u) :
    Sound sha (w.setUpgrade pid u) := by
  refine h.of_alone halone hs h.resolves ?_
  rw [setUpgrade_self]
  cases u <;> exact hstage

theorem Sound.step (h : Sound sha w) (halone : w.Alone pid) (hs : w.step sha pid e = some w') :
    Sound sha w' := by
  have hstage := h.stage pid
  cases upgradeStep_of_step hs with
  | begins | beginsActivation | differs | finishesCopy | validates | isDamaged | runsElsewhere
  | keepsPackage | isReferenced | stops =>
    exact h.goesOn halone hs trivial
  | isStaged place found executable same =>
    exact h.goesOn halone hs ⟨_, _, found, executable⟩
  | uninstalls place | observes place =>
    rw [place] at hstage
    exact h.goesOn halone hs hstage
  | checks place =>
    rw [place] at hstage
    exact h.goesOn halone hs (h.resolves _ hstage)
  | @npms s command package place packaged =>
    rw [place] at hstage
    refine h.of_alone halone hs (fun id hid => ?_) ?_
    · cases command with
      | true => cases hid
      | false => exact h.resolves id hid
    · change Stage _ pid (w.upgrades pid)
      rw [place]
      exact hstage
  | @lists s running obsolete place others unused =>
    rw [place] at hstage
    refine h.goesOn halone hs ⟨hstage, fun hmem => ?_⟩
    exact (Finset.mem_erase.mp (others (List.mem_toFinset.mpr hmem))).1 rfl
  | finishes place =>
    rw [place] at hstage
    exact h.goesOn halone hs hstage.1
  | @createsDirectory s place =>
    refine h.of_alone halone hs ?_ ?_
    · refine h.resolves.write rfl (get_setBuild w _ _) fun hold => ?_
      obtain ⟨build, bytes, hbuild, hbytes⟩ := hold
      exact ⟨build, bytes, by rw [hbuild, Option.getD_some], hbytes⟩
    · rw [setUpgrade_self]
      trivial
  | @removesTemporary s build place found =>
    refine h.of_alone halone hs ?_ ?_
    · refine h.resolves.write rfl (get_setBuild w _ _) fun hold => ?_
      obtain ⟨old, bytes, hbuild, hbytes⟩ := hold
      obtain rfl := Option.some.inj (found.symm.trans hbuild)
      exact ⟨_, bytes, rfl, hbytes⟩
    · rw [setUpgrade_self]
      trivial
  | @copies s build content place found =>
    refine h.of_alone halone hs ?_ ?_
    · refine h.resolves.write rfl (get_setBuild w _ _) fun hold => ?_
      obtain ⟨old, bytes, hbuild, hbytes⟩ := hold
      obtain rfl := Option.some.inj (found.symm.trans hbuild)
      exact ⟨_, bytes, rfl, hbytes⟩
    · rw [setBuild_upgrades, place]
      trivial
  | @renames s build bytes place found temporary =>
    refine h.of_alone halone hs ?_ ?_
    · exact h.resolves.write rfl (get_setBuild w _ _) fun _ => ⟨_, bytes, rfl, rfl⟩
    · rw [setUpgrade_self]
      refine ⟨{ setTemporary build pid none with executable := some bytes }, bytes, ?_, rfl⟩
      rw [setUpgrade_root, get_setBuild, Function.update_self]
  | @links s place =>
    rw [place] at hstage
    refine h.of_alone halone hs h.resolves ?_
    change Stage _ pid ((w.setUpgrade pid (.linked s)).upgrades pid)
    rw [setUpgrade_self]
    exact ⟨hstage, Function.update_self ..⟩
  | @relinks s place =>
    rw [place] at hstage
    refine h.of_alone halone hs h.resolves ?_
    change Stage _ pid ((w.setUpgrade pid (.relinked s)).upgrades pid)
    rw [setUpgrade_self]
    exact ⟨hstage, Function.update_self ..⟩
  | @launches s id place link =>
    rw [place] at hstage
    -- the link still leads to the build that this upgrade has staged, since it is alone
    obtain rfl := Option.some.inj (link.symm.trans hstage.2)
    refine h.of_alone halone hs ?_ ?_
    · intro id hid
      obtain rfl := Option.some.inj hid
      exact hstage.1
    · change Stage _ pid ((w.setUpgrade pid _).upgrades pid)
      rw [setUpgrade_self]
      split
      · trivial
      · rfl
  | @relaunches s id place link =>
    rw [place] at hstage
    obtain rfl := Option.some.inj (link.symm.trans hstage.2)
    refine h.of_alone halone hs ?_ ?_
    · intro id hid
      obtain rfl := Option.some.inj hid
      exact hstage.1
    · change Stage _ pid ((w.setUpgrade pid _).upgrades pid)
      rw [setUpgrade_self]
      rfl
  | @removesExecutable s id ids build place found =>
    rw [place] at hstage
    refine h.of_alone halone hs ?_ ?_
    -- what is pruned is not the build that the launcher names
    · exact h.resolves.remove hstage.1 (List.ne_of_not_mem_cons hstage.2) rfl
        (get_setBuild w _ _)
    · rw [setBuild_upgrades, place]
      exact hstage
  | @removesDirectory s id ids place =>
    rw [place] at hstage
    refine h.of_alone halone hs ?_ ?_
    · exact h.resolves.remove hstage.1 (List.ne_of_not_mem_cons hstage.2) rfl
        (get_setBuild w _ _)
    · rw [setUpgrade_self]
      exact ⟨hstage.1, List.not_mem_of_not_mem_cons hstage.2⟩

/-- Nothing brings the package back. -/
theorem package_of_step (hs : w.step sha pid e = some w') (h : w.root.package = false) :
    w'.root.package = false := by
  cases upgradeStep_of_step hs with
  | npms place packaged =>
    rw [h] at packaged
    cases packaged
  | _ => exact h

/-- Only the removal of the package takes the launcher away. -/
theorem launcher_of_step (hs : w.step sha pid e = some w') (hgone : w.root.package = false)
    (h : w.root.launcher.isSome = true) : w'.root.launcher.isSome = true := by
  cases upgradeStep_of_step hs with
  | launches | relaunches => rfl
  | npms place packaged =>
    rw [hgone] at packaged
    cases packaged
  | _ => exact h

theorem pastPackage_step (h : ∀ pid, PastPackage (w.upgrades pid) = true → w.root.package = false)
    (hs : w.step sha pid e = some w') :
    ∀ pid, PastPackage (w'.upgrades pid) = true → w'.root.package = false := by
  intro other hpast
  by_cases hother : other = pid
  · subst hother
    have hkeeps : PastPackage (w.upgrades other) = true → w'.root.package = false :=
      fun hold => package_of_step hs (h other hold)
    cases upgradeStep_of_step hs with
    | uninstalls place gone => exact gone
    | relinks place | relaunches place | observes place | lists place | removesExecutable place
    | removesDirectory place | finishes place => exact hkeeps (by rw [place]; rfl)
    | copies place | npms place =>
      have hsame : PastPackage (w.upgrades other) = true := hpast
      exact hkeeps hsame
    | launches place link =>
      change PastPackage ((w.setUpgrade other _).upgrades other) = true at hpast
      rw [setUpgrade_self] at hpast
      split at hpast <;> cases hpast
    | _ =>
      change PastPackage (Function.update w.upgrades other _ other) = true at hpast
      rw [Function.update_self] at hpast
      cases hpast
  · rw [upgrades_other hs hother] at hpast
    exact package_of_step hs (h other hpast)

/-- Only the processes that take part can be at an upgrade. -/
theorem alone_of_pids {pids : List ℕ} {es : List (ℕ × UpgradeEvent)} {ok : UpgradeWorld →
    ℕ × UpgradeEvent → Prop} (hpids : ∀ e ∈ es, e.1 ∈ pids)
    (hidle : ∀ pid, w.upgrades pid = .idle) (hes : Runs.Steps (upgradeStep sha)
      (fun w e => (∀ pid ∈ pids, pid ≠ e.1 → w.upgrades pid = .idle) ∧ ok w e) w es) :
    Runs.Steps (upgradeStep sha) (fun w e => w.Alone e.1 ∧ ok w e) w es := by
  have hstep : ∀ v e u, (∀ pid, pid ∉ pids → v.upgrades pid = .idle) →
      (e.1 ∈ pids ∧ ((∀ pid ∈ pids, pid ≠ e.1 → v.upgrades pid = .idle) ∧ ok v e)) →
      upgradeStep sha v e = some u → ∀ pid, pid ∉ pids → u.upgrades pid = .idle := by
    intro v e u hv hok hs pid hpid
    have hne : pid ≠ e.1 := fun heq => hpid (heq ▸ hok.1)
    rw [upgrades_other hs hne]
    exact hv pid hpid
  refine Runs.Steps.of_invariant hstep (fun v e hv hok => ⟨fun pid hne => ?_, hok.2.2⟩)
    (fun pid _ => hidle pid) ((Runs.Steps.of_forall (fun e he _ => hpids e he) w).and hes)
  by_cases hpid : pid ∈ pids
  · exact hok.2.1 pid hpid hne
  · exact hv pid hpid

/-- Upgrades that do not overlap, each of which may fail or die at any of its steps: the launcher,
where there is one, always names the executable of a build, and the executable is whole. Without an
npm package under the install root, whose command stands in its place, it never goes away. -/
theorem launcher_resolves {es : List (ℕ × UpgradeEvent)} (h0 : Executables sha w.root)
    (hresolves : Resolves w.root) (hidle : ∀ pid, w.upgrades pid = .idle)
    (hes : Runs.Steps (upgradeStep sha) (fun w e => w.Alone e.1) w es)
    (hr : Runs.run (upgradeStep sha) w es = some w') :
    (w.root.package = false → w.root.launcher.isSome = true →
      w'.root.launcher.isSome = true) ∧
    ∀ id, w'.root.launcher = some id → ∃ build bytes version, w'.root.builds.get id = some build ∧
      build.executable = some bytes ∧ id = buildId version (sha.hex bytes) := by
  have hstart : Sound sha w ∧ (w.root.package = false → w.root.launcher.isSome = true →
      w.root.package = false ∧ w.root.launcher.isSome = true) := by
    refine ⟨⟨⟨h0, fun pid s build bytes hplace => ?_⟩, hresolves, fun pid => ?_⟩,
      fun hgone hold => ⟨hgone, hold⟩⟩
    · rw [hidle] at hplace
      cases hplace
    · rw [hidle]
      trivial
  have hstep : ∀ v e u, (Sound sha v ∧ (w.root.package = false → w.root.launcher.isSome = true →
      v.root.package = false ∧ v.root.launcher.isSome = true)) → v.Alone e.1 →
      upgradeStep sha v e = some u → Sound sha u ∧ (w.root.package = false →
        w.root.launcher.isSome = true → u.root.package = false ∧
          u.root.launcher.isSome = true) := by
    intro v e u h halone hs
    refine ⟨h.1.step halone hs, fun hgone hold => ?_⟩
    obtain ⟨hstill, hthere⟩ := h.2 hgone hold
    exact ⟨package_of_step hs hstill, launcher_of_step hs hstill hthere⟩
  have hend := Runs.run_invariant hstep hstart hes hr
  refine ⟨fun hgone hold => (hend.2 hgone hold).2, fun id hid => ?_⟩
  obtain ⟨build, bytes, hbuild, hbytes⟩ := hend.1.resolves id hid
  obtain ⟨version, hversion⟩ := hend.1.whole.executables id build bytes hbuild hbytes
  exact ⟨build, bytes, version, hbuild, hbytes, hversion⟩

theorem resolves_oldStore : Resolves oldStore.root := by
  intro id hid
  obtain rfl := Option.some.inj hid
  have hget : oldStore.root.builds.get =
      Function.update (fun _ => none) "0-030".toList (some ⟨some [3], fun _ => none⟩) :=
    FiniteMap.get_set _ _ _
  exact ⟨⟨some [3], fun _ => none⟩, [3], by rw [hget, Function.update_self], rfl⟩

/-- An upgrade that dies while it copies itself, and one that goes on to its end. -/
def twoUpgrades (pid : ℕ) : List (ℕ × UpgradeEvent) :=
  [.begin "1" [7], .createDirectory, .compare, .removeTemporary, .copy [], .stop,
    .begin "1" [7], .createDirectory, .compare, .removeTemporary, .copy [7], .finishCopy, .validate,
    .rename, .link, .launch].map (pid, ·)

/-- The activation that the second upgrade runs. -/
def activation (pid : ℕ) : List (ℕ × UpgradeEvent) :=
  [.beginActivation "1" "1-070".toList, .createDirectory, .compare, .link, .launch, .check,
    .npm true true, .uninstalled, .relink, .relaunch, .observe ["1-070".toList],
    .list ["0-030".toList], .removeExecutable, .removeDirectory, .finish].map (pid, ·)

/-- The activation dies between the executable and the directory of the build that it prunes. -/
theorem launcher_resolves_after_deaths :
    ∃ w, Runs.run (upgradeStep sampleSha) oldStore
        (twoUpgrades 1 ++ (activation 2).take 13 ++ [(2, .stop)]) = some w ∧
      (oldStore.root.package = false → oldStore.root.launcher.isSome = true →
        w.root.launcher.isSome = true) ∧
      ∀ id, w.root.launcher = some id → ∃ build bytes version, w.root.builds.get id = some build ∧
        build.executable = some bytes ∧ id = buildId version (sampleSha.hex bytes) := by
  have hr : ∃ w, Runs.run (upgradeStep sampleSha) oldStore
      (twoUpgrades 1 ++ (activation 2).take 13 ++ [(2, .stop)]) = some w :=
    Option.isSome_iff_exists.mp (by decide +kernel)
  have hes : Runs.Steps (upgradeStep sampleSha) (fun w e =>
      (∀ pid ∈ [1, 2], pid ≠ e.1 → w.upgrades pid = .idle) ∧ True) oldStore
      (twoUpgrades 1 ++ (activation 2).take 13 ++ [(2, .stop)]) := by
    decide +kernel
  obtain ⟨w, hr⟩ := hr
  exact ⟨w, hr, launcher_resolves executables_oldStore resolves_oldStore (fun _ => rfl)
    ((alone_of_pids (by decide) (fun _ => rfl) hes).mono fun _ _ h => h.1) hr⟩

/-- An activation that another upgrade overlaps prunes the build that the launcher names. -/
example : ((Runs.run (upgradeStep sampleSha) oldStore (twoUpgrades 1 ++ (activation 2).take 11 ++
    [.begin "1" [8], .createDirectory, .compare, .removeTemporary, .copy [8], .finishCopy,
      .validate, .rename, .link, .launch].map (3, ·) ++
    [.list ["0-030".toList, "1-080".toList], .removeDirectory, .removeDirectory].map (2, ·))).any
      fun w => w.root.launcher = some "1-080".toList &&
        (w.root.builds.get "1-080".toList).isNone) = true := by
  decide +kernel

theorem mem_keys_setBuild {id other : List Char} {new : Option BuildDirectory} :
    other ∈ (w.setBuild id new).root.builds.keys ↔
      Function.update w.root.builds.get id new other ≠ none := by
  rw [FiniteMap.mem_keys, get_setBuild]

theorem cleared_step (h : ∀ pid, Cleared w (w.upgrades pid)) (halone : w.Alone pid)
    (hlists : w.listsAll pid e = true) (hs : w.step sha pid e = some w') :
    ∀ pid, Cleared w' (w'.upgrades pid) := by
  -- the other processes are idle, and stay so
  have hof {u : UpgradeWorld} {d : Upgrade}
      (hupgrades : u.upgrades = Function.update w.upgrades pid d) (hcleared : Cleared u d) :
      ∀ pid, Cleared u (u.upgrades pid) := by
    intro other
    rw [hupgrades, Function.update_apply]
    split
    · exact hcleared
    · next hother =>
      rw [halone other hother]
      trivial
  have hplace := h pid
  cases upgradeStep_of_step hs with
  | @lists s running obsolete place others unused =>
    refine hof rfl ?_
    have hall : obsolete.toFinset = w.root.builds.keys.erase s.buildId := by
      rw [listsAll, place] at hlists
      exact of_decide_eq_true hlists
    change w.root.builds.keys ⊆ insert s.buildId obsolete.toFinset
    rw [hall]
    intro id hid
    by_cases hkeep : id = s.buildId
    · exact hkeep ▸ Finset.mem_insert_self ..
    · exact Finset.mem_insert_of_mem (Finset.mem_erase.mpr ⟨hkeep, hid⟩)
  | @removesExecutable s id ids build place found =>
    rw [place] at hplace
    refine hof (Function.update_eq_self pid w.upgrades).symm ?_
    rw [place]
    intro other hother
    rw [mem_keys_setBuild, Function.update_apply] at hother
    refine hplace ((FiniteMap.mem_keys ..).mpr ?_)
    split at hother
    · next hid =>
      rw [hid, found]
      exact Option.some_ne_none build
    · exact hother
  | @removesDirectory s id ids place =>
    rw [place] at hplace
    refine hof rfl fun other hother => ?_
    rw [setUpgrade_root, mem_keys_setBuild, Function.update_apply] at hother
    split at hother
    · exact absurd rfl hother
    · next hne =>
      have hold := hplace ((FiniteMap.mem_keys ..).mpr hother)
      rw [List.toFinset_cons, Finset.mem_insert, Finset.mem_insert] at hold
      exact Finset.mem_insert.mpr (hold.imp_right fun hmem => hmem.resolve_left hne)
  | @finishes s place =>
    rw [place] at hplace
    exact hof rfl hplace
  | @copies s build content place found =>
    refine hof (Function.update_eq_self pid w.upgrades).symm ?_
    rw [place]
    trivial
  | @launches s id place link =>
    refine hof rfl ?_
    split <;> trivial
  | npms place packaged =>
    refine hof (Function.update_eq_self pid w.upgrades).symm ?_
    rw [place]
    trivial
  | begins | beginsActivation | createsDirectory | isStaged | differs | removesTemporary
  | finishesCopy | validates | isDamaged | renames | links | checks | runsElsewhere | keepsPackage
  | uninstalls | relinks | relaunches | observes | isReferenced | stops =>
    exact hof rfl trivial

/-- Where an activation that no other upgrade overlaps has returned, the store has one build, whole,
and the launcher names it: `single_build_health` finds nothing wrong with the install root. -/
theorem upgrade_leaves_one_build {es : List (ℕ × UpgradeEvent)} {s : Staging}
    (h0 : Executables sha w.root) (hresolves : Resolves w.root)
    (hidle : ∀ pid, w.upgrades pid = .idle)
    (hes : Runs.Steps (upgradeStep sha) (fun w e => w.Alone e.1 ∧ w.listsAll e.1 e.2 = true) w es)
    (hr : Runs.run (upgradeStep sha) w es = some w') (hdone : w'.upgrades pid = .done s) :
    w'.root.builds.keys = {s.buildId} ∧ singleBuildHealth w'.root s.buildId := by
  have hstart : Sound sha w ∧ (∀ pid, Cleared w (w.upgrades pid)) ∧
      ∀ pid, PastPackage (w.upgrades pid) = true → w.root.package = false := by
    refine ⟨⟨⟨h0, fun pid s build bytes hplace => ?_⟩, hresolves, fun pid => ?_⟩, fun pid => ?_,
      fun pid hpast => ?_⟩
    · rw [hidle] at hplace
      cases hplace
    · rw [hidle]
      trivial
    · rw [hidle]
      trivial
    · rw [hidle] at hpast
      cases hpast
  have hstep : ∀ v e u, (Sound sha v ∧ (∀ pid, Cleared v (v.upgrades pid)) ∧
      ∀ pid, PastPackage (v.upgrades pid) = true → v.root.package = false) →
      (v.Alone e.1 ∧ v.listsAll e.1 e.2 = true) → upgradeStep sha v e = some u →
      Sound sha u ∧ (∀ pid, Cleared u (u.upgrades pid)) ∧
        ∀ pid, PastPackage (u.upgrades pid) = true → u.root.package = false :=
    fun v e u h hok hs => ⟨h.1.step hok.1 hs, cleared_step h.2.1 hok.1 hok.2 hs,
      pastPackage_step h.2.2 hs⟩
  have hend := Runs.run_invariant hstep hstart hes hr
  have hlauncher := hend.1.stage pid
  have hcleared := hend.2.1 pid
  have hpackage := hend.2.2 pid
  rw [hdone] at hlauncher hcleared hpackage
  obtain ⟨build, bytes, hbuild, hbytes⟩ := hend.1.resolves s.buildId hlauncher
  have hmem : s.buildId ∈ w'.root.builds.keys := by
    rw [FiniteMap.mem_keys, hbuild]
    exact Option.some_ne_none build
  have hkeys : w'.root.builds.keys = {s.buildId} :=
    Finset.Subset.antisymm hcleared (Finset.singleton_subset_iff.mpr hmem)
  refine ⟨hkeys, hlauncher, ⟨build, bytes, hbuild, hbytes⟩, hpackage rfl, ?_⟩
  rw [hkeys, Finset.filter_singleton, hbuild, Option.bind_some, hbytes, if_pos Option.isSome_some,
    Finset.card_singleton]

theorem upgrade_leaves_one_build_of_two :
    ∃ w s, Runs.run (upgradeStep sampleSha) oldStore (twoUpgrades 1 ++ activation 2) = some w ∧
      w.upgrades 2 = .done s ∧
      w.root.builds.keys = {s.buildId} ∧ singleBuildHealth w.root s.buildId := by
  have htest : ((Runs.run (upgradeStep sampleSha) oldStore (twoUpgrades 1 ++ activation 2)).any
      fun w => w.upgrades 2 = .done ⟨"1", "070".toList, some "1-070".toList⟩) = true := by
    decide +kernel
  have hes : Runs.Steps (upgradeStep sampleSha) (fun w e =>
      (∀ pid ∈ [1, 2], pid ≠ e.1 → w.upgrades pid = .idle) ∧ w.listsAll e.1 e.2 = true) oldStore
      (twoUpgrades 1 ++ activation 2) := by
    decide +kernel
  obtain ⟨w, hr, hdone⟩ := (Option.any_eq_true _ _).mp htest
  exact ⟨w, _, hr, of_decide_eq_true hdone, upgrade_leaves_one_build executables_oldStore
    resolves_oldStore (fun _ => rfl) (alone_of_pids (by decide) (fun _ => rfl) hes) hr
    (of_decide_eq_true hdone)⟩

end Alone

end UpgradeWorld

end Resync
