import Mathlib.Data.Finset.Sort
import Mathlib.Data.String.Basic
import Resync.Lib.FiniteMap
import Resync.Lib.Runs
import Resync.ServiceRequests

/-! Logins and logouts (`provider.rs`, `credentials.rs`, `peer.rs`, `cli.rs`). The credentials and
the configuration are two files, which a command reads, changes in its memory and writes back, and
nothing keeps two commands apart. Every operation on a file is a step of its own, any of them may
fail, and a process may die between two of them. -/
namespace Resync

/-- `publicKeyPath` is the path as a text. -/
structure ProviderConfig where
  origin : String
  serviceId : Option String
  deviceId : Option String
  deviceName : Option String
  publicKeyPath : Option (List Char)
  loggedInAt : Option ℕ
deriving DecidableEq

/-- `config.json` -/
structure ConfigFile extends Config where
  providers : FiniteMap String ProviderConfig

/-- What `store_provider_login` is given, and when. -/
structure Login where
  origin : String
  serviceId : String
  token : String
  deviceId : Option String
  deviceName : Option String
  publicKeyPath : List Char
  now : ℕ
deriving DecidableEq

/-- Where `AuthCommand::Logout` stands: the configuration so far, all the origins and those that
are left. -/
structure Logout where
  config : ConfigFile
  origins : List String
  rest : List String

/-- The keys in the order of a `BTreeMap`. -/
def orderedKeys {κ β : Type} [LinearOrder κ] (m : FiniteMap κ β) : List κ :=
  m.keys.sort (· ≤ ·)

namespace ConfigFile

variable (urls : Urls)

/-- `load_config_raw` -/
def load (c : ConfigFile) : Option ConfigFile :=
  match c.activeProvider, c.server with
  | none, some server =>
    (urls.http server).map fun origin =>
      { c with
        activeProvider := some origin
        providers := c.providers.set origin
          (some ⟨origin, none, none, some "legacy device", none, none⟩) }
  | _, _ => some c

/-- What `store_provider_login` makes of the configuration. -/
def login (c : ConfigFile) (l : Login) : ConfigFile where
  activeProvider := some l.origin
  server := none
  token := none
  providers := c.providers.set l.origin
    (some ⟨l.origin, some l.serviceId, l.deviceId, l.deviceName, some l.publicKeyPath, some l.now⟩)

/-- `config.providers.keys()` -/
def origins (c : ConfigFile) : List String := orderedKeys c.providers

/-- The origins that a logout is for. -/
def logoutOrigins (c : ConfigFile) (all : Bool) (provider : Option String) (fallback : String) :
    Option (List String) :=
  if all then some c.origins
  else (urls.canonical ((provider.or c.activeProvider).getD fallback)).map ([·])

/-- What a logout makes of the configuration once the providers are removed. -/
def logout (c : ConfigFile) (origins : List String) : ConfigFile :=
  { c with
    activeProvider := if c.activeProvider.any (· ∈ origins) then c.origins.head?
      else c.activeProvider
    server := none
    token := none }

def remove (c : ConfigFile) (origin : String) : ConfigFile :=
  { c with providers := c.providers.set origin none }

end ConfigFile

/-- The logout has removed everything of its first origin. -/
def Logout.next (l : Logout) : Logout :=
  match l.rest with
  | [] => l
  | origin :: rest => ⟨l.config.remove origin, l.origins, rest⟩

def publicKeyFile (key : List Char) : List Char := key ++ ".pub.pem".toList

def privateKeyFile (key : List Char) : List Char := key ++ ".pem".toList

/-- The private key that `remove_device_identity` finds for a public one. -/
def privateKeyOf (publicKeyPath : List Char) : Option (List Char) :=
  if ".pub.pem".toList.isSuffixOf publicKeyPath then
    some (privateKeyFile (publicKeyPath.take (publicKeyPath.length - 8)))
  else none

/-- Where a process stands. `key` is the path of the new key without its extension, and `at` the
canonical origin that a credential is stored under. -/
inductive LoginPlace where
  | idle
  | privateKey (key : List Char)
  /-- Both keys are written, and the provider is asked. -/
  | keys (key : List Char)
  /-- The provider has reused the device, so the new keys are removed. -/
  | discarding (key : List Char)
  | discardingPrivate (key : List Char)
  | storing (origin : String) (l : Login)
  | holding (origin : String) (l : Login) (file : FiniteMap String String)
  | configuring (l : Login)
  | configured (l : Login) (config : ConfigFile)
  | leaving (l : Logout)
  | leavingWith (origin : String) (l : Logout) (file : FiniteMap String String)
  /-- The credential is erased. -/
  | unkeying (l : Logout)
  | unkeyingPrivate (l : Logout) (publicKeyPath : List Char)

/-- `credentials` are the tokens of `credentials.json`, and `stored` is what `store_credential` was
ever called with, under which origin. -/
structure LoginWorld where
  config : ConfigFile
  credentials : FiniteMap String String
  keyFiles : Finset (List Char)
  places : ℕ → LoginPlace
  stored : List (String × String)

inductive LoginEvent where
  | writePrivateKey (key : List Char)
  | writePublicKey
  /-- The provider answers with a token for the device. -/
  | enrolled (l : Login)
  /-- The provider answers that the device keeps its token. -/
  | reused
  /-- `RESYNC_CREDENTIAL_HELPER` stores or erases the credential. -/
  | helper
  | readCredentials
  /-- The new file is there, but `write_json` may still report an error. -/
  | writeCredentials (reported : Bool)
  | readConfig
  | writeConfig
  | logout (all : Bool) (provider : Option String) (fallback : String)
  | removePublicKey
  | removePrivateKey
  /-- A call fails, or the process dies. -/
  | stop

/-- The operations of a logout between its first one and its last one, without a helper. -/
def LoginEvent.erases : LoginEvent → Bool
  | .readCredentials => true
  | .writeCredentials _ => true
  | .removePublicKey => true
  | .removePrivateKey => true
  | .stop => true
  | _ => false

namespace LoginWorld

variable (urls : Urls)

def setPlace (w : LoginWorld) (pid : ℕ) (place : LoginPlace) : LoginWorld :=
  { w with places := Function.update w.places pid place }

def step (w : LoginWorld) (pid : ℕ) : LoginEvent → Option LoginWorld
  | .writePrivateKey key =>
    match w.places pid with
    | .idle =>
      some ({ w with keyFiles := insert (privateKeyFile key) w.keyFiles }.setPlace pid
        (.privateKey key))
    | _ => none
  | .writePublicKey =>
    match w.places pid with
    | .privateKey key =>
      some ({ w with keyFiles := insert (publicKeyFile key) w.keyFiles }.setPlace pid (.keys key))
    | _ => none
  | .enrolled l =>
    match w.places pid with
    | .keys key =>
      -- "cannot store an empty credential"
      if l.publicKeyPath = publicKeyFile key ∧ l.token ≠ "" then
        (urls.canonical l.origin).map fun origin =>
          { w with stored := w.stored ++ [(origin, l.token)] }.setPlace pid (.storing origin l)
      else none
    | _ => none
  | .reused =>
    match w.places pid with
    | .keys key => some (w.setPlace pid (.discarding key))
    | _ => none
  | .helper =>
    match w.places pid with
    -- with a helper the file is neither read nor written
    | .storing _ l => some (w.setPlace pid (.configuring l))
    | .leaving l => if l.rest = [] then none else some (w.setPlace pid (.unkeying l))
    | _ => none
  | .readCredentials =>
    match w.places pid with
    | .storing origin l => some (w.setPlace pid (.holding origin l w.credentials))
    | .leaving l =>
      (l.rest.head?.bind urls.canonical).map fun origin =>
        w.setPlace pid (.leavingWith origin l w.credentials)
    | _ => none
  | .writeCredentials reported =>
    match w.places pid with
    -- what others have written since the file was read is lost
    | .holding origin l file =>
      some ({ w with credentials := file.set origin (some l.token) }.setPlace pid
        (if reported then .configuring l else .idle))
    | .leavingWith origin l file =>
      some ({ w with credentials := file.set origin none }.setPlace pid
        (if reported then .unkeying l else .idle))
    | _ => none
  | .readConfig =>
    match w.places pid with
    | .configuring l => (w.config.load urls).map fun c => w.setPlace pid (.configured l c)
    | _ => none
  | .writeConfig =>
    match w.places pid with
    | .configured l c => some ({ w with config := c.login l }.setPlace pid .idle)
    | .leaving l =>
      if l.rest = [] then some ({ w with config := l.config.logout l.origins }.setPlace pid .idle)
      else none
    | _ => none
  | .logout all provider fallback =>
    match w.places pid with
    | .idle =>
      (w.config.load urls).bind fun c =>
        (c.logoutOrigins urls all provider fallback).map fun origins =>
          w.setPlace pid (.leaving ⟨c, origins, origins⟩)
    | _ => none
  | .removePublicKey =>
    match w.places pid with
    | .discarding key =>
      some ({ w with keyFiles := w.keyFiles.erase (publicKeyFile key) }.setPlace pid
        (.discardingPrivate key))
    | .unkeying l =>
      match l.rest.head?.bind fun origin =>
          (l.config.providers.get origin).bind (·.publicKeyPath) with
      -- no key was registered for the origin
      | none => some (w.setPlace pid (.leaving l.next))
      | some path =>
        some ({ w with keyFiles := w.keyFiles.erase path }.setPlace pid (.unkeyingPrivate l path))
    | _ => none
  | .removePrivateKey =>
    match w.places pid with
    | .discardingPrivate key =>
      some ({ w with keyFiles := w.keyFiles.erase (privateKeyFile key) }.setPlace pid .idle)
    | .unkeyingPrivate l path =>
      some ({ w with
        keyFiles := (privateKeyOf path).elim w.keyFiles w.keyFiles.erase }.setPlace pid
          (.leaving l.next))
    | _ => none
  | .stop => some (w.setPlace pid .idle)

/-- The key that a logout removes for its first origin. -/
def keyOfFirst (l : Logout) : Option (List Char) :=
  l.rest.head?.bind fun origin => (l.config.providers.get origin).bind (·.publicKeyPath)

/-- What a step can do, with its guards. -/
inductive LoginStep (w : LoginWorld) (pid : ℕ) : LoginEvent → LoginWorld → Prop
  | writesPrivateKey {key : List Char} (place : w.places pid = .idle) :
      LoginStep w pid (.writePrivateKey key) ({ w with
        keyFiles := insert (privateKeyFile key) w.keyFiles }.setPlace pid (.privateKey key))
  | writesPublicKey {key : List Char} (place : w.places pid = .privateKey key) :
      LoginStep w pid .writePublicKey ({ w with
        keyFiles := insert (publicKeyFile key) w.keyFiles }.setPlace pid (.keys key))
  | enrolls {key : List Char} {l : Login} {origin : String} (place : w.places pid = .keys key)
      (canonical : urls.canonical l.origin = some origin) :
      LoginStep w pid (.enrolled l) ({ w with
        stored := w.stored ++ [(origin, l.token)] }.setPlace pid (.storing origin l))
  | reuses {key : List Char} (place : w.places pid = .keys key) :
      LoginStep w pid .reused (w.setPlace pid (.discarding key))
  | helperStores {origin : String} {l : Login} (place : w.places pid = .storing origin l) :
      LoginStep w pid .helper (w.setPlace pid (.configuring l))
  | helperErases {l : Logout} (place : w.places pid = .leaving l) :
      LoginStep w pid .helper (w.setPlace pid (.unkeying l))
  | readsToStore {origin : String} {l : Login} (place : w.places pid = .storing origin l) :
      LoginStep w pid .readCredentials (w.setPlace pid (.holding origin l w.credentials))
  | readsToErase {l : Logout} {o k : String} {rest : List String}
      (place : w.places pid = .leaving l) (first : l.rest = o :: rest)
      (canonical : urls.canonical o = some k) :
      LoginStep w pid .readCredentials (w.setPlace pid (.leavingWith k l w.credentials))
  | storesToken {origin : String} {l : Login} {file : FiniteMap String String} {reported : Bool}
      (place : w.places pid = .holding origin l file) :
      LoginStep w pid (.writeCredentials reported) ({ w with
        credentials := file.set origin (some l.token) }.setPlace pid
          (if reported then .configuring l else .idle))
  | erasesToken {origin : String} {l : Logout} {file : FiniteMap String String} {reported : Bool}
      (place : w.places pid = .leavingWith origin l file) :
      LoginStep w pid (.writeCredentials reported) ({ w with
        credentials := file.set origin none }.setPlace pid
          (if reported then .unkeying l else .idle))
  | readsConfig {l : Login} {c : ConfigFile} (place : w.places pid = .configuring l)
      (loaded : w.config.load urls = some c) :
      LoginStep w pid .readConfig (w.setPlace pid (.configured l c))
  | writesLogin {l : Login} {c : ConfigFile} (place : w.places pid = .configured l c) :
      LoginStep w pid .writeConfig ({ w with config := c.login l }.setPlace pid .idle)
  | writesLogout {l : Logout} (place : w.places pid = .leaving l) (finished : l.rest = []) :
      LoginStep w pid .writeConfig
        ({ w with config := l.config.logout l.origins }.setPlace pid .idle)
  | logsOut {all : Bool} {provider : Option String} {fallback : String} {c : ConfigFile}
      {origins : List String} (place : w.places pid = .idle) (loaded : w.config.load urls = some c)
      (chosen : c.logoutOrigins urls all provider fallback = some origins) :
      LoginStep w pid (.logout all provider fallback)
        (w.setPlace pid (.leaving ⟨c, origins, origins⟩))
  | discards {key : List Char} (place : w.places pid = .discarding key) :
      LoginStep w pid .removePublicKey ({ w with
        keyFiles := w.keyFiles.erase (publicKeyFile key) }.setPlace pid (.discardingPrivate key))
  | hasNoKey {l : Logout} (place : w.places pid = .unkeying l) (key : keyOfFirst l = none) :
      LoginStep w pid .removePublicKey (w.setPlace pid (.leaving l.next))
  | removesPublicKey {l : Logout} {path : List Char} (place : w.places pid = .unkeying l)
      (key : keyOfFirst l = some path) :
      LoginStep w pid .removePublicKey
        ({ w with keyFiles := w.keyFiles.erase path }.setPlace pid (.unkeyingPrivate l path))
  | discardsPrivate {key : List Char} (place : w.places pid = .discardingPrivate key) :
      LoginStep w pid .removePrivateKey
        ({ w with keyFiles := w.keyFiles.erase (privateKeyFile key) }.setPlace pid .idle)
  | removesPrivateKey {l : Logout} {path : List Char}
      (place : w.places pid = .unkeyingPrivate l path) :
      LoginStep w pid .removePrivateKey ({ w with
        keyFiles := (privateKeyOf path).elim w.keyFiles w.keyFiles.erase }.setPlace pid
          (.leaving l.next))
  | stops : LoginStep w pid .stop (w.setPlace pid .idle)

variable {urls}

theorem setPlace_self (w : LoginWorld) (pid : ℕ) (place : LoginPlace) :
    (w.setPlace pid place).places pid = place := Function.update_self ..

theorem loginStep_of_step {w w' : LoginWorld} {pid : ℕ} {e : LoginEvent}
    (hs : w.step urls pid e = some w') : LoginStep urls w pid e w' := by
  cases e with
  | writePrivateKey key =>
    simp only [step] at hs
    split at hs
    · next hplace => exact Option.some.inj hs ▸ .writesPrivateKey hplace
    · cases hs
  | writePublicKey =>
    simp only [step] at hs
    split at hs
    · next hplace => exact Option.some.inj hs ▸ .writesPublicKey hplace
    · cases hs
  | enrolled l =>
    simp only [step] at hs
    split at hs
    · next hplace =>
      split_ifs at hs
      obtain ⟨origin, hcanonical, rfl⟩ := Option.map_eq_some_iff.mp hs
      exact .enrolls hplace hcanonical
    · cases hs
  | reused =>
    simp only [step] at hs
    split at hs
    · next hplace => exact Option.some.inj hs ▸ .reuses hplace
    · cases hs
  | helper =>
    simp only [step] at hs
    split at hs
    · next hplace => exact Option.some.inj hs ▸ .helperStores hplace
    · next hplace =>
      split_ifs at hs
      exact Option.some.inj hs ▸ .helperErases hplace
    · cases hs
  | readCredentials =>
    simp only [step] at hs
    split at hs
    · next hplace => exact Option.some.inj hs ▸ .readsToStore hplace
    · next hplace =>
      obtain ⟨k, hk, rfl⟩ := Option.map_eq_some_iff.mp hs
      obtain ⟨o, ho, hcanonical⟩ := Option.bind_eq_some_iff.mp hk
      obtain ⟨rest, hrest⟩ := List.head?_eq_some_iff.mp ho
      exact .readsToErase hplace hrest hcanonical
    · cases hs
  | writeCredentials reported =>
    simp only [step] at hs
    split at hs
    · next hplace => exact Option.some.inj hs ▸ .storesToken hplace
    · next hplace => exact Option.some.inj hs ▸ .erasesToken hplace
    · cases hs
  | readConfig =>
    simp only [step] at hs
    split at hs
    · next hplace =>
      obtain ⟨c, hc, rfl⟩ := Option.map_eq_some_iff.mp hs
      exact .readsConfig hplace hc
    · cases hs
  | writeConfig =>
    simp only [step] at hs
    split at hs
    · next hplace => exact Option.some.inj hs ▸ .writesLogin hplace
    · next hplace =>
      split_ifs at hs with hrest
      exact Option.some.inj hs ▸ .writesLogout hplace hrest
    · cases hs
  | logout all provider fallback =>
    simp only [step] at hs
    split at hs
    · next hplace =>
      obtain ⟨c, hc, hs⟩ := Option.bind_eq_some_iff.mp hs
      obtain ⟨origins, horigins, rfl⟩ := Option.map_eq_some_iff.mp hs
      exact .logsOut hplace hc horigins
    · cases hs
  | removePublicKey =>
    simp only [step] at hs
    split at hs
    · next hplace => exact Option.some.inj hs ▸ .discards hplace
    · next hplace =>
      split at hs
      · next hkey => exact Option.some.inj hs ▸ .hasNoKey hplace hkey
      · next hkey => exact Option.some.inj hs ▸ .removesPublicKey hplace hkey
    · cases hs
  | removePrivateKey =>
    simp only [step] at hs
    split at hs
    · next hplace => exact Option.some.inj hs ▸ .discardsPrivate hplace
    · next hplace => exact Option.some.inj hs ▸ .removesPrivateKey hplace
    · cases hs
  | stop => exact Option.some.inj hs ▸ .stops

end LoginWorld

/-- Every token of a credentials file was stored under its origin. -/
def Sourced (stored : List (String × String)) (file : FiniteMap String String) : Prop :=
  ∀ origin token, file.get origin = some token → (origin, token) ∈ stored

namespace Sourced

variable {stored more : List (String × String)} {file : FiniteMap String String}

theorem mono (h : Sourced stored file) : Sourced (stored ++ more) file :=
  fun origin token hget => List.mem_append_left _ (h origin token hget)

theorem set (h : Sourced stored file) {origin : String} {value : Option String}
    (hvalue : ∀ token ∈ value, (origin, token) ∈ stored) :
    Sourced stored (file.set origin value) := by
  intro o token hget
  rw [FiniteMap.get_set] at hget
  by_cases ho : o = origin
  · rw [ho, Function.update_self] at hget
    exact ho ▸ hvalue token hget
  · rw [Function.update_of_ne ho] at hget
    exact h o token hget

end Sourced

namespace ConfigFile

/-- The active provider is there, and every provider stands under its origin. -/
structure Consistent (c : ConfigFile) : Prop where
  active : ∀ origin ∈ c.activeProvider, (c.providers.get origin).isSome
  named : ∀ origin p, c.providers.get origin = some p → p.origin = origin

/-- A configuration that a command has written. -/
structure Settled (c : ConfigFile) : Prop extends Consistent c where
  server : c.server = none
  token : c.token = none

variable {urls : Urls} {c : ConfigFile}

theorem Consistent.load (h : c.Consistent) {c' : ConfigFile} (hload : c.load urls = some c') :
    c'.Consistent := by
  unfold ConfigFile.load at hload
  split at hload
  · obtain ⟨origin, -, rfl⟩ := Option.map_eq_some_iff.mp hload
    constructor
    · intro o ho
      obtain rfl := Option.some.inj ho
      simp only [FiniteMap.get_set, Function.update_self, Option.isSome_some]
    · intro o p hp
      rw [FiniteMap.get_set] at hp
      by_cases ho : o = origin
      · rw [ho, Function.update_self] at hp
        rw [← Option.some.inj hp, ho]
      · rw [Function.update_of_ne ho] at hp
        exact h.named o p hp
  · obtain rfl := Option.some.inj hload
    exact h

theorem Consistent.login (h : c.Consistent) (l : Login) : (c.login l).Settled where
  active := by
    intro o ho
    obtain rfl := Option.some.inj ho
    simp only [ConfigFile.login, FiniteMap.get_set, Function.update_self, Option.isSome_some]
  named := by
    intro o p hp
    simp only [ConfigFile.login, FiniteMap.get_set] at hp
    by_cases ho : o = l.origin
    · rw [ho, Function.update_self] at hp
      rw [← Option.some.inj hp, ho]
    · rw [Function.update_of_ne ho] at hp
      exact h.named o p hp
  server := rfl
  token := rfl

theorem mem_origins {origin : String} : origin ∈ c.origins ↔ (c.providers.get origin).isSome := by
  rw [origins, orderedKeys, Finset.mem_sort, c.providers.mem_keys, Option.isSome_iff_ne_none]

end ConfigFile

/-- The active provider of a logout is still there, or it is one that the logout is for. -/
structure Logout.Sound (l : Logout) : Prop where
  active : ∀ origin ∈ l.config.activeProvider,
    (l.config.providers.get origin).isSome ∨ origin ∈ l.origins
  named : ∀ origin p, l.config.providers.get origin = some p → p.origin = origin
  rest : ∀ origin ∈ l.rest, origin ∈ l.origins

namespace Logout.Sound

variable {l : Logout}

theorem next (h : l.Sound) : l.next.Sound := by
  unfold Logout.next
  split
  · exact h
  · next origin rest hrest =>
    have hget (o : String) : (l.config.remove origin).providers.get o =
        if o = origin then none else l.config.providers.get o := by
      rw [ConfigFile.remove, FiniteMap.get_set, Function.update_apply]
    have hmem : ∀ o ∈ origin :: rest, o ∈ l.origins := hrest ▸ h.rest
    constructor
    · intro o ho
      by_cases heq : o = origin
      · exact Or.inr (hmem o (heq ▸ List.mem_cons_self))
      · rw [hget, if_neg heq]
        exact h.active o ho
    · intro o p hp
      rw [hget] at hp
      split_ifs at hp with heq
      exact h.named o p hp
    · exact fun o ho => hmem o (List.mem_cons_of_mem origin ho)

/-- What a logout writes. -/
theorem settled (h : l.Sound) : (l.config.logout l.origins).Settled where
  active := by
    intro o ho
    simp only [ConfigFile.logout] at ho ⊢
    split_ifs at ho with hgone
    · exact ConfigFile.mem_origins.mp (List.mem_of_mem_head? ho)
    · rcases h.active o ho with hthere | hmem
      · exact hthere
      · have hany : l.config.activeProvider.any (· ∈ l.origins) = true :=
          (Option.any_eq_true _ _).mpr ⟨o, ho, decide_eq_true hmem⟩
        exact absurd hany hgone
  named := h.named
  server := rfl
  token := rfl

end Logout.Sound

/-- A process works on tokens that were stored, and on a configuration that names its providers. -/
def LoginPlace.Sound (stored : List (String × String)) : LoginPlace → Prop
  | .storing origin l => (origin, l.token) ∈ stored
  | .holding origin l file => (origin, l.token) ∈ stored ∧ Sourced stored file
  | .configured _ c => c.Consistent
  | .leaving l => l.Sound
  | .leavingWith _ l file => l.Sound ∧ Sourced stored file
  | .unkeying l => l.Sound
  | .unkeyingPrivate l _ => l.Sound
  | _ => True

theorem LoginPlace.Sound.mono {place : LoginPlace} {stored more : List (String × String)}
    (h : place.Sound stored) : place.Sound (stored ++ more) := by
  cases place with
  | storing origin l => exact List.mem_append_left _ h
  | holding origin l file => exact ⟨List.mem_append_left _ h.1, h.2.mono⟩
  | leavingWith origin l file => exact ⟨h.1, h.2.mono⟩
  | idle | privateKey | keys | discarding | discardingPrivate | configuring => trivial
  | configured l c => exact h
  | leaving l => exact h
  | unkeying l => exact h
  | unkeyingPrivate l path => exact h

namespace LoginWorld

/-- `first` is the configuration before the first command. -/
structure Separate (first : ConfigFile) (w : LoginWorld) : Prop where
  credentials : Sourced w.stored w.credentials
  config : w.config = first ∨ w.config.Settled
  places : ∀ pid, (w.places pid).Sound w.stored

variable {urls : Urls} {first : ConfigFile} {w w' : LoginWorld} {pid : ℕ}

namespace Separate

theorem consistent (h : Separate first w) (hfirst : first.Consistent) : w.config.Consistent := by
  rcases h.config with hconfig | hsettled
  · exact hconfig ▸ hfirst
  · exact hsettled.toConsistent

theorem setPlace (h : Separate first w) {place : LoginPlace} (hplace : place.Sound w.stored) :
    Separate first (w.setPlace pid place) where
  credentials := h.credentials
  config := h.config
  places := by
    intro q
    simp only [LoginWorld.setPlace]
    by_cases hq : q = pid
    · rw [hq, Function.update_self]
      exact hplace
    · rw [Function.update_of_ne hq]
      exact h.places q

theorem setKeyFiles (h : Separate first w) (files : Finset (List Char)) :
    Separate first { w with keyFiles := files } :=
  ⟨h.credentials, h.config, h.places⟩

theorem setCredentials (h : Separate first w) {file : FiniteMap String String}
    (hfile : Sourced w.stored file) : Separate first { w with credentials := file } :=
  ⟨hfile, h.config, h.places⟩

theorem setConfig (h : Separate first w) {c : ConfigFile} (hc : c.Settled) :
    Separate first { w with config := c } :=
  ⟨h.credentials, Or.inr hc, h.places⟩

theorem store (h : Separate first w) (origin token : String) :
    Separate first { w with stored := w.stored ++ [(origin, token)] } :=
  ⟨h.credentials.mono, h.config, fun q => (h.places q).mono⟩

/-- Whatever the other commands do, a step keeps tokens and providers apart. -/
theorem step (h : Separate first w) (hfirst : first.Consistent) {e : LoginEvent}
    (hs : w.step urls pid e = some w') : Separate first w' := by
  have hplace := h.places pid
  cases loginStep_of_step hs with
  | writesPrivateKey | writesPublicKey | discards | discardsPrivate =>
    exact (h.setKeyFiles _).setPlace trivial
  | reuses | helperStores | stops => exact h.setPlace trivial
  | @enrolls key l origin =>
    have hmem : (origin, l.token) ∈ w.stored ++ [(origin, l.token)] :=
      List.mem_append_right _ List.mem_cons_self
    exact (h.store origin l.token).setPlace hmem
  | helperErases place =>
    rw [place] at hplace
    exact h.setPlace hplace
  | readsToStore place | readsToErase place =>
    -- the file that the process holds from now on may be overwritten before it is used
    rw [place] at hplace
    exact h.setPlace ⟨hplace, h.credentials⟩
  | @storesToken origin l file reported place =>
    rw [place] at hplace
    have hfile : Sourced w.stored (file.set origin (some l.token)) := by
      refine hplace.2.set fun token htoken => ?_
      rw [← Option.some.inj htoken]
      exact hplace.1
    refine (h.setCredentials hfile).setPlace ?_
    split <;> trivial
  | @erasesToken origin l file reported place =>
    rw [place] at hplace
    have hfile : Sourced w.stored (file.set origin none) :=
      hplace.2.set fun token htoken => by cases htoken
    refine (h.setCredentials hfile).setPlace ?_
    split
    · exact hplace.1
    · trivial
  | readsConfig _ loaded => exact h.setPlace ((h.consistent hfirst).load loaded)
  | @writesLogin l c place =>
    rw [place] at hplace
    have hc : c.Consistent := hplace
    exact (h.setConfig (hc.login l)).setPlace trivial
  | @writesLogout l place =>
    rw [place] at hplace
    have hl : l.Sound := hplace
    exact (h.setConfig hl.settled).setPlace trivial
  | @logsOut _ _ _ c origins _ loaded =>
    have hconsistent := (h.consistent hfirst).load loaded
    have hl : (⟨c, origins, origins⟩ : Logout).Sound :=
      ⟨fun o ho => Or.inl (hconsistent.active o ho), hconsistent.named, fun _ ho => ho⟩
    exact h.setPlace hl
  | @hasNoKey l place =>
    rw [place] at hplace
    have hl : l.Sound := hplace
    exact h.setPlace hl.next
  | @removesPublicKey l path place =>
    rw [place] at hplace
    have hl : l.Sound := hplace
    exact (h.setKeyFiles _).setPlace hl
  | @removesPrivateKey l path place =>
    rw [place] at hplace
    have hl : l.Sound := hplace
    exact (h.setKeyFiles _).setPlace hl.next

end Separate

section Tokens

/-- Where a token for an origin may come from: the helper, `RESYNC_TOKEN` unless `RESYNC_PROVIDER`
names another origin, or a login at this origin. -/
def TokenFor (urls : Urls) (c : Credentials) (stored : List (String × String))
    (origin token : String) : Prop :=
  c.helper origin = some (some token) ∨
    (c.token = some token ∧ ∀ p ∈ c.provider, urls.canonical p = some origin) ∨
    (origin, token) ∈ stored

/-- Before the first command. -/
def initial (config : ConfigFile) (credentials : FiniteMap String String)
    (keyFiles : Finset (List Char)) (stored : List (String × String)) : LoginWorld :=
  ⟨config, credentials, keyFiles, fun _ => .idle, stored⟩

theorem separate_initial {stored : List (String × String)} {file : FiniteMap String String}
    (h : Sourced stored file) (first : ConfigFile) (keyFiles : Finset (List Char)) :
    Separate first (initial first file keyFiles stored) :=
  ⟨h, Or.inl rfl, fun _ => trivial⟩

theorem tokenFor_of_load {c : Credentials} {stored : List (String × String)}
    {file : FiniteMap String String} (hfile : Sourced stored file)
    (hc : c.file = some file.get) {provider token : String}
    (h : loadCredential urls c provider = some (some token)) :
    ∃ origin, urls.canonical provider = some origin ∧ TokenFor urls c stored origin token := by
  obtain ⟨origin, horigin, h⟩ := Option.bind_eq_some_iff.mp h
  obtain ⟨answer, hanswer, h⟩ := Option.bind_eq_some_iff.mp h
  refine ⟨origin, horigin, ?_⟩
  have hread (h : c.file.map (fun file => file origin) = some (some token)) :
      (origin, token) ∈ stored := by
    rw [hc, Option.map_some] at h
    exact hfile origin token (Option.some.inj h)
  rcases answer with _ | external
  · cases htoken : c.token with
    | none =>
      rw [htoken] at h
      exact Or.inr (Or.inr (hread h))
    | some env =>
      rw [htoken] at h
      simp only at h
      split at h
      · next hprovider =>
        refine Or.inr (Or.inl ⟨?_, fun p hp => ?_⟩)
        · rw [htoken, Option.some.inj h]
        · rw [hprovider] at hp
          cases hp
      · next name hprovider =>
        obtain ⟨only, honly, h⟩ := Option.bind_eq_some_iff.mp h
        split_ifs at h with heq
        · refine Or.inr (Or.inl ⟨?_, fun p hp => ?_⟩)
          · rw [htoken, Option.some.inj h]
          · rw [hprovider] at hp
            obtain rfl := Option.some.inj hp
            exact heq ▸ honly
        · exact Or.inr (Or.inr (hread h))
  · left
    simp only [Option.some.injEq] at h
    split_ifs at h
    rw [hanswer, Option.some.inj h]

/-- What the daemon reads of the configuration. -/
theorem load_toConfig (c : ConfigFile) :
    loadConfigRaw urls c.toConfig = (c.load urls).map ConfigFile.toConfig := by
  obtain ⟨⟨active, server, token⟩, providers⟩ := c
  cases active with
  | some origin => rfl
  | none =>
    cases server with
    | none => rfl
    | some server =>
      simp only [loadConfigRaw, ConfigFile.load, Option.map_map]
      rfl

theorem load_token {c c' : ConfigFile} (h : c.load urls = some c') : c'.token = c.token := by
  unfold ConfigFile.load at h
  split at h
  · obtain ⟨origin, -, rfl⟩ := Option.map_eq_some_iff.mp h
    rfl
  · rw [← Option.some.inj h]

/-- In every interleaving of logins, enrollments by ticket and logouts, with failures and deaths
anywhere: `config.json` is as it was before the first of them, or its active provider is one of its
providers, each of which stands under its own origin; and the program never pairs a provider with
the token of another one. Only a token that was in `config.json` itself is used for the server that
this file names. -/
theorem tokens_keep_to_their_provider {first : ConfigFile} (hfirst : first.Consistent)
    {stored : List (String × String)} {file : FiniteMap String String} (hfile : Sourced stored file)
    {keyFiles : Finset (List Char)} {es : List (ℕ × LoginEvent)}
    (hr : Runs.run (fun w (e : ℕ × LoginEvent) => w.step urls e.1 e.2)
      (initial first file keyFiles stored) es = some w) :
    (w.config = first ∨ w.config.Settled) ∧
      ∀ (c : Credentials) (config : Config) (token : String), c.file = some w.credentials.get →
        resolvedConfig urls w.config.toConfig c = some config → config.token = some token →
          (∃ provider origin, config.server = some provider ∧
            urls.canonical provider = some origin ∧ TokenFor urls c w.stored origin token) ∨
          (w.config = first ∧ first.token = some token) := by
  have hall : ∀ e ∈ es, ∀ s : LoginWorld, (fun _ _ => True : LoginWorld → ℕ × LoginEvent → Prop)
      s e := fun _ _ _ => trivial
  have h : Separate first w := Runs.run_invariant
    (fun s e t (h : Separate first s) _ hs => h.step hfirst hs)
    (separate_initial hfile first keyFiles) (Runs.Steps.of_forall hall _) hr
  refine ⟨h.config, fun c config token hc hresolved htoken => ?_⟩
  -- the token of the file itself
  have hown (hown : w.config.token = some token) : w.config = first ∧ first.token = some token := by
    rcases h.config with hsame | hsettled
    · exact ⟨hsame, hsame ▸ hown⟩
    · rw [hsettled.token] at hown
      cases hown
  rw [resolvedConfig, load_toConfig] at hresolved
  obtain ⟨raw, hraw, hresolved⟩ := Option.bind_eq_some_iff.mp hresolved
  obtain ⟨loadedConfig, hload, rfl⟩ := Option.map_eq_some_iff.mp hraw
  have hrawToken := load_token hload
  split at hresolved
  · obtain rfl := Option.some.inj hresolved
    exact Or.inr (hown (hrawToken ▸ htoken))
  · next provider hactive =>
    obtain ⟨loaded, hloaded, rfl⟩ := Option.map_eq_some_iff.mp hresolved
    rcases Option.or_eq_some_iff.mp htoken with hsome | ⟨-, hraw⟩
    · rw [hsome] at hloaded
      obtain ⟨origin, horigin, hfor⟩ := tokenFor_of_load h.credentials hc hloaded
      exact Or.inl ⟨provider, origin, rfl, horigin, hfor⟩
    · exact Or.inr (hown (hrawToken ▸ hraw))

def sampleUrls : Urls := ⟨some, some, fun _ _ _ => rfl, fun _ _ h => h⟩

def sampleLogin (origin token : String) : Login :=
  ⟨origin, "service", token, none, none, publicKeyFile [], 0⟩

/-- Two logins at once, the second of which dies before it comes to the configuration. -/
def crossedLogins : List (ℕ × LoginEvent) :=
  [(1, .writePrivateKey []), (1, .writePublicKey), (2, .writePrivateKey []), (2, .writePublicKey),
    (1, .enrolled (sampleLogin "https://a" "x")), (2, .enrolled (sampleLogin "https://b" "y")),
    (1, .readCredentials), (2, .readCredentials), (1, .writeCredentials true),
    (2, .writeCredentials true), (1, .readConfig), (1, .writeConfig), (2, .stop)]

theorem tokens_keep_to_their_provider_of_two :
    ConfigFile.Consistent ⟨⟨none, none, none⟩, .empty⟩ ∧ Sourced [] .empty ∧
      ∃ w, Runs.run (fun w (e : ℕ × LoginEvent) => LoginWorld.step sampleUrls w e.1 e.2)
          (initial ⟨⟨none, none, none⟩, .empty⟩ .empty ∅ []) crossedLogins = some w ∧
        w.config.Settled ∧ w.config.activeProvider = some "https://a" := by
  have hfirst : ConfigFile.Consistent ⟨⟨none, none, none⟩, .empty⟩ :=
    ⟨(fun _ h => by cases h), fun _ _ h => by cases h⟩
  have hfile : Sourced [] .empty := fun _ _ h => by cases h
  obtain ⟨w, hr, hactive⟩ : ∃ w, Runs.run
      (fun w (e : ℕ × LoginEvent) => LoginWorld.step sampleUrls w e.1 e.2)
      (initial ⟨⟨none, none, none⟩, .empty⟩ .empty ∅ []) crossedLogins = some w ∧
        w.config.activeProvider = some "https://a" := ⟨_, rfl, rfl⟩
  refine ⟨hfirst, hfile, w, hr, ?_, hactive⟩
  rcases (tokens_keep_to_their_provider hfirst hfile hr).1 with hsame | hsettled
  · rw [hsame] at hactive
    cases hactive
  · exact hsettled

end Tokens

/-- The path of the public key that was registered for an origin. -/
def publicKeyOf (c : ConfigFile) (origin : String) : Option (List Char) :=
  (c.providers.get origin).bind (·.publicKeyPath)

/-- The credentials of some origins are erased. -/
def Erased (urls : Urls) (origins : List String) (before after : FiniteMap String String) : Prop :=
  ∀ k, after.get k =
    if ∃ origin ∈ origins, urls.canonical origin = some k then none else before.get k

/-- The keys of some origins are removed. -/
def Unkeyed (c : ConfigFile) (origins : List String) (before after : Finset (List Char)) : Prop :=
  ∀ f, f ∈ after ↔ f ∈ before ∧ ∀ origin ∈ origins, ∀ path, publicKeyOf c origin = some path →
    f ≠ path ∧ privateKeyOf path ≠ some f

/-- A logout has removed the providers `gone` from the configuration `c` that it has read. -/
structure LogoutAt (c : ConfigFile) (origins gone : List String) (l : Logout) : Prop where
  all : l.origins = origins
  split : origins = gone ++ l.rest
  active : l.config.activeProvider = c.activeProvider
  providers : ∀ o, l.config.providers.get o = if o ∈ gone then none else c.providers.get o

/-- How far the logout has come: the credential, the public key and the private key of an origin are
removed one after the other. -/
def LogoutStage (urls : Urls) (c : ConfigFile) (origins : List String) (v w : LoginWorld) :
    LoginPlace → Prop
  | .leaving l => ∃ gone, LogoutAt c origins gone l ∧
      Erased urls gone v.credentials w.credentials ∧ Unkeyed c gone v.keyFiles w.keyFiles
  | .leavingWith k l file => ∃ gone o rest, LogoutAt c origins gone l ∧ l.rest = o :: rest ∧
      urls.canonical o = some k ∧ Erased urls gone v.credentials file ∧
      Unkeyed c gone v.keyFiles w.keyFiles
  | .unkeying l => ∃ gone o rest, LogoutAt c origins gone l ∧ l.rest = o :: rest ∧
      Erased urls (gone ++ [o]) v.credentials w.credentials ∧ Unkeyed c gone v.keyFiles w.keyFiles
  | .unkeyingPrivate l path => ∃ gone o rest, LogoutAt c origins gone l ∧ l.rest = o :: rest ∧
      publicKeyOf l.config o = some path ∧
      Erased urls (gone ++ [o]) v.credentials w.credentials ∧
      ∃ files, Unkeyed c gone v.keyFiles files ∧ w.keyFiles = files.erase path
  | .idle => True
  | _ => False

section Forgetting

variable {c : ConfigFile} {origins gone : List String} {l : Logout} {o : String}
  {rest : List String}

theorem Erased.append {before after : FiniteMap String String} {k : String}
    (h : Erased urls gone before after) (hk : urls.canonical o = some k) :
    Erased urls (gone ++ [o]) before (after.set k none) := by
  intro j
  rw [FiniteMap.get_set]
  by_cases hj : j = k
  · have hsome : ∃ origin ∈ gone ++ [o], urls.canonical origin = some j :=
      ⟨o, List.mem_append_right _ List.mem_cons_self, hj ▸ hk⟩
    rw [if_pos hsome, hj, Function.update_self]
  · have hiff : (∃ origin ∈ gone ++ [o], urls.canonical origin = some j) ↔
        ∃ origin ∈ gone, urls.canonical origin = some j := by
      constructor
      · rintro ⟨origin, hmem, hcanonical⟩
        rcases List.mem_append.mp hmem with hmem | hmem
        · exact ⟨origin, hmem, hcanonical⟩
        · rw [List.mem_singleton.mp hmem, hk] at hcanonical
          exact absurd (Option.some.inj hcanonical).symm hj
      · rintro ⟨origin, hmem, hcanonical⟩
        exact ⟨origin, List.mem_append_left _ hmem, hcanonical⟩
    rw [Function.update_of_ne hj, h j]
    simp only [hiff]

/-- The configuration names the key of an origin that the logout has come to. -/
theorem LogoutAt.publicKeyOf (h : LogoutAt c origins gone l) (o : String) :
    LoginWorld.publicKeyOf l.config o = if o ∈ gone then none else LoginWorld.publicKeyOf c o := by
  rw [LoginWorld.publicKeyOf, h.providers o, LoginWorld.publicKeyOf]
  split_ifs <;> rfl

theorem LogoutAt.next (h : LogoutAt c origins gone l) (hrest : l.rest = o :: rest) :
    LogoutAt c origins (gone ++ [o]) l.next := by
  have hnext : l.next = ⟨l.config.remove o, l.origins, rest⟩ := by
    unfold Logout.next
    rw [hrest]
  rw [hnext]
  refine ⟨h.all, ?_, h.active, fun p => ?_⟩
  · rw [h.split, hrest, List.append_assoc]
    rfl
  · simp only [ConfigFile.remove, FiniteMap.get_set]
    by_cases hp : p = o
    · rw [hp, Function.update_self, if_pos (List.mem_append_right _ List.mem_cons_self)]
    · rw [Function.update_of_ne hp, h.providers p]
      simp only [List.mem_append, List.mem_singleton, hp, or_false]

theorem Unkeyed.append {before after files : Finset (List Char)} (h : Unkeyed c gone before files)
    (hafter : ∀ f, f ∈ after ↔ f ∈ files ∧ ∀ path, publicKeyOf c o = some path →
      f ≠ path ∧ privateKeyOf path ≠ some f) : Unkeyed c (gone ++ [o]) before after := by
  intro f
  rw [hafter f, h f]
  constructor
  · rintro ⟨⟨hbefore, hgone⟩, hlast⟩
    refine ⟨hbefore, fun origin hmem => ?_⟩
    rcases List.mem_append.mp hmem with hmem | hmem
    · exact hgone origin hmem
    · rw [List.mem_singleton.mp hmem]
      exact hlast
  · rintro ⟨hbefore, hall⟩
    exact ⟨⟨hbefore, fun origin hmem => hall origin (List.mem_append_left _ hmem)⟩,
      hall o (List.mem_append_right _ List.mem_cons_self)⟩

theorem LogoutStage.begin (urls : Urls) (c : ConfigFile) (origins : List String) (v : LoginWorld)
    (pid : ℕ) : LogoutStage urls c origins v (v.setPlace pid (.leaving ⟨c, origins, origins⟩))
      ((v.setPlace pid (.leaving ⟨c, origins, origins⟩)).places pid) := by
  rw [setPlace_self]
  refine ⟨[], ⟨rfl, rfl, rfl, fun o => ?_⟩, fun k => ?_, fun f => ?_⟩
  · rw [if_neg List.not_mem_nil]
  · have hnone : ¬∃ origin ∈ ([] : List String), urls.canonical origin = some k := by
      rintro ⟨origin, hmem, -⟩
      exact List.not_mem_nil hmem
    rw [if_neg hnone]
    rfl
  · exact ⟨fun hf => ⟨hf, fun origin hmem => absurd hmem List.not_mem_nil⟩, And.left⟩

theorem mem_removed_privateKey (files : Finset (List Char)) (path f : List Char) :
    f ∈ (privateKeyOf path).elim (files.erase path) (files.erase path).erase ↔
      f ∈ files ∧ f ≠ path ∧ privateKeyOf path ≠ some f := by
  cases privateKeyOf path with
  | none =>
    simp only [Option.elim_none, Finset.mem_erase, ne_eq, reduceCtorEq, not_false_eq_true, and_true]
    exact and_comm
  | some key =>
    simp only [Option.elim_some, Finset.mem_erase, ne_eq, Option.some.injEq]
    constructor
    · rintro ⟨hkey, hpath, hf⟩
      exact ⟨hf, hpath, fun heq => hkey heq.symm⟩
    · rintro ⟨hf, hpath, hkey⟩
      exact ⟨fun heq => hkey heq.symm, hpath, hf⟩

theorem keyOfFirst_of_rest (hrest : l.rest = o :: rest) :
    keyOfFirst l = LoginWorld.publicKeyOf l.config o := by
  rw [keyOfFirst, hrest]
  rfl

/-- One operation of a logout. -/
theorem LogoutStage.step {v w w' : LoginWorld} {pid : ℕ}
    (h : LogoutStage urls c origins v w (w.places pid)) {e : LoginEvent} (he : e.erases = true)
    (hs : w.step urls pid e = some w') : LogoutStage urls c origins v w' (w'.places pid) := by
  cases loginStep_of_step hs with
  | readsToStore place | storesToken place | discards place | discardsPrivate place =>
    -- these are the operations of a login
    rw [place] at h
    exact h.elim
  | @readsToErase l o k rest place first canonical =>
    rw [place] at h
    obtain ⟨gone, hat, herased, hunkeyed⟩ := h
    rw [setPlace_self]
    exact ⟨gone, o, rest, hat, first, canonical, herased, hunkeyed⟩
  | @erasesToken k l file reported place =>
    rw [place] at h
    obtain ⟨gone, o, rest, hat, hrest, hcanonical, herased, hunkeyed⟩ := h
    rw [setPlace_self]
    split
    · exact ⟨gone, o, rest, hat, hrest, herased.append hcanonical, hunkeyed⟩
    · trivial
  | @hasNoKey l place key =>
    rw [place] at h
    obtain ⟨gone, o, rest, hat, hrest, herased, hunkeyed⟩ := h
    rw [keyOfFirst_of_rest hrest, hat.publicKeyOf] at key
    rw [setPlace_self]
    refine ⟨gone ++ [o], hat.next hrest, herased, hunkeyed.append fun f => ?_⟩
    refine ⟨fun hf => ⟨hf, fun path hpath => ?_⟩, And.left⟩
    -- an origin that is named twice has lost its entry the first time
    split_ifs at key with hgone
    · exact ((hunkeyed f).mp hf).2 o hgone path hpath
    · rw [hpath] at key
      cases key
  | @removesPublicKey l path place key =>
    rw [place] at h
    obtain ⟨gone, o, rest, hat, hrest, herased, hunkeyed⟩ := h
    rw [keyOfFirst_of_rest hrest] at key
    rw [setPlace_self]
    exact ⟨gone, o, rest, hat, hrest, key, herased, w.keyFiles, hunkeyed, rfl⟩
  | @removesPrivateKey l path place =>
    rw [place] at h
    obtain ⟨gone, o, rest, hat, hrest, hpath, herased, files, hunkeyed, hfiles⟩ := h
    have hown : LoginWorld.publicKeyOf c o = some path := by
      rw [hat.publicKeyOf] at hpath
      split_ifs at hpath
      exact hpath
    rw [setPlace_self]
    refine ⟨gone ++ [o], hat.next hrest, herased, hunkeyed.append fun f => ?_⟩
    rw [setPlace, hfiles, mem_removed_privateKey, hown]
    simp only [Option.some.injEq, forall_eq']
  | stops =>
    rw [setPlace_self]
    trivial
  | writesPrivateKey | writesPublicKey | enrolls | reuses | helperStores | helperErases
  | readsConfig | writesLogin | writesLogout | logsOut => cases he

/-- What a logout leaves of `v`, where it has read the configuration `c`. -/
structure Forgets (urls : Urls) (c : ConfigFile) (origins : List String) (v w : LoginWorld) :
    Prop where
  credentials : Erased urls origins v.credentials w.credentials
  keyFiles : Unkeyed c origins v.keyFiles w.keyFiles
  providers : ∀ o, w.config.providers.get o = if o ∈ origins then none else c.providers.get o
  active : w.config.activeProvider =
    if c.activeProvider.any (· ∈ origins) then w.config.origins.head? else c.activeProvider
  server : w.config.server = none
  token : w.config.token = none

/-- A logout that no other command interferes with and that comes to its end, from whatever state:
the credentials, the keys and the entries of its origins are gone, everything of the others is as it
was, and the active provider is the first one that is left where it was among them. -/
theorem logout_forgets {v w : LoginWorld} {pid : ℕ} {all : Bool} {provider : Option String}
    {fallback : String} {es : List LoginEvent} (hes : ∀ e ∈ es, e.erases = true)
    (hr : Runs.run (fun w e => w.step urls pid e) v
      (.logout all provider fallback :: es ++ [.writeConfig]) = some w) :
    ∃ c origins, v.config.load urls = some c ∧
      c.logoutOrigins urls all provider fallback = some origins ∧ Forgets urls c origins v w := by
  obtain ⟨u, hfirst, hr⟩ := (Runs.run_cons_eq_some _).mp hr
  obtain ⟨t, hmiddle, hr⟩ := (Runs.run_append_eq_some _).mp hr
  obtain ⟨w', hlast, hr⟩ := (Runs.run_cons_eq_some _).mp hr
  obtain rfl := Option.some.inj hr
  cases loginStep_of_step hfirst with
  | @logsOut _ _ _ c origins _ loaded chosen =>
    refine ⟨c, origins, loaded, chosen, ?_⟩
    have hstage : LogoutStage urls c origins v t (t.places pid) := by
      have hok : Runs.Steps (fun w e => LoginWorld.step urls w pid e)
          (fun _ e => e.erases = true) (v.setPlace pid (.leaving ⟨c, origins, origins⟩)) es :=
        Runs.Steps.of_forall (fun e he _ => hes e he) _
      have hstep (s : LoginWorld) (e : LoginEvent) (s' : LoginWorld)
          (h : LogoutStage urls c origins v s (s.places pid)) (he : e.erases = true)
          (hs : s.step urls pid e = some s') : LogoutStage urls c origins v s' (s'.places pid) :=
        h.step he hs
      exact Runs.run_invariant hstep (LogoutStage.begin urls c origins v pid) hok hmiddle
    cases loginStep_of_step hlast with
    | writesLogin place =>
      rw [place] at hstage
      exact hstage.elim
    | writesLogout place finished =>
      rw [place] at hstage
      obtain ⟨gone, hat, herased, hunkeyed⟩ := hstage
      have hgone : gone = origins := by
        rw [hat.split, finished, List.append_nil]
      subst hgone
      refine ⟨herased, hunkeyed, hat.providers, ?_, rfl, rfl⟩
      simp only [setPlace, ConfigFile.logout, hat.active, hat.all]
      rfl

/-- Two providers, the first of which has a key on this device. -/
def twoProviders : ConfigFile :=
  ⟨⟨some "https://a", none, none⟩, (FiniteMap.empty.set "https://a"
    (some ⟨"https://a", none, none, none, some (publicKeyFile ['k']), none⟩)).set "https://b"
      (some ⟨"https://b", none, none, none, none, none⟩)⟩

def twoTokens : FiniteMap String String :=
  (FiniteMap.empty.set "https://a" (some "x")).set "https://b" (some "y")

def eraseOperations : List LoginEvent :=
  [.readCredentials, .writeCredentials true, .removePublicKey, .removePrivateKey]

theorem logout_forgets_of_two : ∃ w c origins,
    Runs.run (fun w e => LoginWorld.step sampleUrls w 1 e)
      (initial twoProviders twoTokens {publicKeyFile ['k'], privateKeyFile ['k']} [])
      (.logout false (some "https://a") "" :: eraseOperations ++ [.writeConfig]) = some w ∧
    origins = ["https://a"] ∧ Forgets sampleUrls c origins
      (initial twoProviders twoTokens {publicKeyFile ['k'], privateKeyFile ['k']} []) w := by
  have hes : ∀ e ∈ eraseOperations, e.erases = true := by
    intro e he
    simp only [eraseOperations, List.mem_cons, List.not_mem_nil, or_false] at he
    rcases he with rfl | rfl | rfl | rfl <;> rfl
  obtain ⟨w, hr⟩ : ∃ w, Runs.run (fun w e => LoginWorld.step sampleUrls w 1 e)
      (initial twoProviders twoTokens {publicKeyFile ['k'], privateKeyFile ['k']} [])
      (.logout false (some "https://a") "" :: eraseOperations ++ [.writeConfig]) = some w :=
    ⟨_, rfl⟩
  obtain ⟨c, origins, -, horigins, hforgets⟩ := logout_forgets hes hr
  exact ⟨w, c, origins, hr, (Option.some.inj horigins).symm, hforgets⟩

end Forgetting

end LoginWorld

end Resync
