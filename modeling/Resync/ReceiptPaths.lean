import Resync.ResourceKeys
import Resync.Lib.Framing
import Resync.Lib.PathText

/-! Where the receipts of named leases are stored, as texts: each receipt has a file of its own
in the directory of its provider and project, whatever its holder and its resource are called. -/
namespace Resync

/-- SHA-256 in lower-case hexadecimal digits, taken to be free of collisions. -/
structure Sha256 where
  hex : List UInt8 → List Char
  nonempty : ∀ bytes, hex bytes ≠ []
  lowerHex : ∀ bytes, ∀ c ∈ hex bytes, c.isDigit = true ∨ ('a' ≤ c ∧ c ≤ 'f')
  injective : Function.Injective hex

/-- The bytes that `hash` feeds to the digest: each field behind its length, a `usize`. -/
def digestInput (fields : List String) : List UInt8 := Framing.frame 8 (fields.map bytesOf)

/-- `hash`, as text. -/
def hashText (sha : Sha256) (fields : List String) : List Char := sha.hex (digestInput fields)

/-- `root` is `state_paths().named_lease_receipts`. -/
def receiptProjectDirectory (sha : Sha256) (root : List Char) (providerOrigin projectId : String) :
    List Char :=
  PathText.join (PathText.join root (hashText sha [providerOrigin])) projectId.toList

def pendingReceiptPath (sha : Sha256) (directory : List Char) (receipt : NamedLeaseReceipt) :
    List Char :=
  PathText.join directory ("pending-".toList ++
    hashText sha [receipt.projectId, receipt.resourceKey, receipt.holderId] ++ ".json".toList)

def activeReceiptPath (sha : Sha256) (directory : List Char) (leaseId holderId : String) :
    List Char :=
  PathText.join directory (leaseId.toList ++ '-' :: hashText sha [holderId] ++ ".json".toList)

section Identities

/-- A project as `resolve_discovered_project` returns it; the length of its origin fits the
`usize` that it is written with. -/
structure CheckedProject where
  providerOrigin : String
  projectId : String
  originFits : providerOrigin.utf8ByteSize < 256 ^ 8
  projectValid : validateIdentifier projectId "project" "prj_" = .ok ()

/-- A pending receipt as `acquire` writes it. -/
structure CheckedPending where
  project : CheckedProject
  receipt : NamedLeaseReceipt
  sameProject : receipt.projectId = project.projectId
  resourceValid : validateResourceKey receipt.resourceKey = .ok ()
  holderValid : validateHolderId receipt.holderId = .ok ()

/-- The lease and the holder of an active receipt. -/
structure CheckedActive where
  project : CheckedProject
  leaseId : String
  holderId : String
  leaseValid : validateIdentifier leaseId "lease" "nls_" = .ok ()
  holderValid : validateHolderId holderId = .ok ()

def CheckedProject.directory (project : CheckedProject) (sha : Sha256) (root : List Char) :
    List Char :=
  receiptProjectDirectory sha root project.providerOrigin project.projectId

def CheckedPending.path (pending : CheckedPending) (sha : Sha256) (root : List Char) : List Char :=
  pendingReceiptPath sha (pending.project.directory sha root) pending.receipt

def CheckedActive.path (active : CheckedActive) (sha : Sha256) (root : List Char) : List Char :=
  activeReceiptPath sha (active.project.directory sha root) active.leaseId active.holderId

/-- The path is that of a file in the directory. -/
def DirectlyIn (path directory : List Char) : Prop :=
  ∃ name, name ≠ [] ∧ '/' ∉ name ∧ name ≠ ['.'] ∧ name ≠ ['.', '.'] ∧
    PathText.components path = PathText.components directory ++ [name]

end Identities

section Digests

/-- The digest's input determines the fields. -/
theorem digestInput_injective {fields others : List String}
    (hfields : ∀ field ∈ fields, field.utf8ByteSize < 256 ^ 8)
    (hothers : ∀ field ∈ others, field.utf8ByteSize < 256 ^ 8)
    (h : digestInput fields = digestInput others) : fields = others := by
  have hfits : ∀ list : List String, (∀ field ∈ list, field.utf8ByteSize < 256 ^ 8) →
      ∀ bytes ∈ list.map bytesOf, bytes.length < 256 ^ 8 := by
    intro list hlist bytes hbytes
    obtain ⟨field, hfield, rfl⟩ := List.mem_map.mp hbytes
    rw [bytesOf, Utf8.length_encode]
    exact hlist field hfield
  have hbytes := Framing.frame_injective (by decide) (hfits fields hfields) (hfits others hothers) h
  exact List.map_injective_iff.mpr (fun s t hst => Utf8.encode_eq_iff.mp hst) hbytes

theorem hashText_injective (sha : Sha256) {fields others : List String}
    (hfields : ∀ field ∈ fields, field.utf8ByteSize < 256 ^ 8)
    (hothers : ∀ field ∈ others, field.utf8ByteSize < 256 ^ 8)
    (h : hashText sha fields = hashText sha others) : fields = others :=
  digestInput_injective hfields hothers (sha.injective h)

theorem slash_not_mem_hashText (sha : Sha256) (fields : List String) :
    '/' ∉ hashText sha fields := by
  intro h
  rcases sha.lowerHex _ _ h with hdigit | hletter
  · exact absurd hdigit (by decide)
  · exact absurd hletter (by decide)

theorem isName_hashText (sha : Sha256) (fields : List String) :
    PathText.isName (hashText sha fields) = true := by
  have hdot : hashText sha fields ≠ ['.'] := by
    intro h
    have hmem : '.' ∈ hashText sha fields := h ▸ List.mem_singleton_self _
    rcases sha.lowerHex _ _ hmem with hdigit | hletter
    · exact absurd hdigit (by decide)
    · exact absurd hletter (by decide)
  simp only [PathText.isName, Bool.and_eq_true, decide_eq_true_eq]
  exact ⟨sha.nonempty _, hdot⟩

end Digests

section Validated

/-- What the test of an identifier says of its text. -/
structure Identifier (value : String) (start : List Char) : Prop where
  begins : start <+: value.toList
  short : value.utf8ByteSize ≤ 100
  word : ∀ c ∈ value.toList, c.isAlphanum = true ∨ c = '_'

theorem validateIdentifier_ok {value field start : String}
    (h : validateIdentifier value field start = .ok ()) : Identifier value start.toList := by
  obtain ⟨hbegins, hshort, hword⟩ := ensure_eq_ok.mp h
  refine ⟨List.isPrefixOf_iff_prefix.mp hbegins, hshort, fun c hc => ?_⟩
  have hchar := List.all_eq_true.mp hword c hc
  rw [Bool.or_eq_true, decide_eq_true_eq] at hchar
  exact hchar

theorem Identifier.not_mem {value : String} {start : List Char} (h : Identifier value start)
    {c : Char} (hc : c.isAlphanum = false ∧ c ≠ '_') : c ∉ value.toList := by
  intro hmem
  rcases h.word c hmem with hword | hword
  · rw [hc.1] at hword
    cases hword
  · exact hc.2 hword

theorem Identifier.isName {value : String} {c : Char} {start : List Char}
    (h : Identifier value (c :: start)) : PathText.isName value.toList = true := by
  have hne : value.toList ≠ [] := by
    intro he
    have hbegins := h.begins
    rw [he] at hbegins
    exact List.cons_ne_nil c start (List.prefix_nil.mp hbegins)
  have hdot : value.toList ≠ ['.'] := by
    intro he
    exact h.not_mem (by decide) (he ▸ List.mem_singleton_self '.')
  simp only [PathText.isName, Bool.and_eq_true, decide_eq_true_eq]
  exact ⟨hne, hdot⟩

theorem CheckedProject.identifier (project : CheckedProject) :
    Identifier project.projectId "prj_".toList := validateIdentifier_ok project.projectValid

theorem CheckedActive.identifier (active : CheckedActive) :
    Identifier active.leaseId "nls_".toList := validateIdentifier_ok active.leaseValid

theorem holder_fits {holderId : String} (h : validateHolderId holderId = .ok ()) :
    holderId.utf8ByteSize < 256 ^ 8 := by
  obtain ⟨-, hshort, -⟩ := ensure_eq_ok.mp h
  omega

end Validated

section Components

variable (sha : Sha256) (root : List Char)

/-- The directory of a project is two names below the root. -/
theorem CheckedProject.components_directory (project : CheckedProject) :
    PathText.components (project.directory sha root) = PathText.components root ++
      [hashText sha [project.providerOrigin], project.projectId.toList] := by
  have hproject := project.identifier
  rw [CheckedProject.directory, receiptProjectDirectory,
    PathText.components_join _ hproject.isName (hproject.not_mem (by decide)),
    PathText.components_join root (isName_hashText sha _) (slash_not_mem_hashText sha _),
    List.append_assoc]
  rfl

/-- A name with a hyphen, a digest behind it and `.json` is a proper name. -/
theorem receipt_name (front : List Char) (hfront : '/' ∉ front) (fields : List String) :
    let name := front ++ '-' :: hashText sha fields ++ ".json".toList
    PathText.isName name = true ∧ '/' ∉ name ∧ name ≠ ['.', '.'] := by
  intro name
  have hhyphen : '-' ∈ name :=
    List.mem_append_left _ (List.mem_append_right _ List.mem_cons_self)
  have hne : name ≠ [] := List.ne_nil_of_mem hhyphen
  have hdot : name ≠ ['.'] := by
    intro he
    rw [he] at hhyphen
    exact absurd hhyphen (by decide)
  have hdots : name ≠ ['.', '.'] := by
    intro he
    rw [he] at hhyphen
    exact absurd hhyphen (by decide)
  have hslash : '/' ∉ name := by
    intro h
    rcases List.mem_append.mp h with h | h
    · rcases List.mem_append.mp h with h | h
      · exact hfront h
      · rcases List.mem_cons.mp h with h | h
        · exact absurd h (by decide)
        · exact slash_not_mem_hashText sha fields h
    · exact absurd h (by decide)
  simp only [PathText.isName, Bool.and_eq_true, decide_eq_true_eq]
  exact ⟨⟨hne, hdot⟩, hslash, hdots⟩

/-- The file name of a pending receipt. -/
def pendingName (receipt : NamedLeaseReceipt) : List Char :=
  "pending".toList ++ '-' :: hashText sha [receipt.projectId, receipt.resourceKey,
    receipt.holderId] ++ ".json".toList

/-- The file name of an active receipt. -/
def activeName (leaseId holderId : String) : List Char :=
  leaseId.toList ++ '-' :: hashText sha [holderId] ++ ".json".toList

theorem CheckedPending.components_path (pending : CheckedPending) :
    PathText.components (pending.path sha root) = PathText.components root ++
      [hashText sha [pending.project.providerOrigin], pending.project.projectId.toList,
        pendingName sha pending.receipt] := by
  obtain ⟨hname, hslash, -⟩ := receipt_name sha "pending".toList (by decide)
    [pending.receipt.projectId, pending.receipt.resourceKey, pending.receipt.holderId]
  have hfront : "pending-".toList ++ hashText sha [pending.receipt.projectId,
      pending.receipt.resourceKey, pending.receipt.holderId] ++ ".json".toList =
      pendingName sha pending.receipt := by
    have hhyphen : "pending-".toList = "pending".toList ++ ['-'] := by decide
    have hjoin : ∀ p q x j : List Char, p = q ++ ['-'] → p ++ x ++ j = q ++ '-' :: x ++ j := by
      intro p q x j hp
      rw [hp, List.append_assoc q, List.singleton_append]
    exact hjoin _ _ _ _ hhyphen
  have hcomponents := PathText.components_join (pending.project.directory sha root) hname hslash
  rw [pending.project.components_directory] at hcomponents
  rw [CheckedPending.path, pendingReceiptPath, hfront]
  exact hcomponents.trans (List.append_assoc _ _ _)

theorem CheckedActive.components_path (active : CheckedActive) :
    PathText.components (active.path sha root) = PathText.components root ++
      [hashText sha [active.project.providerOrigin], active.project.projectId.toList,
        activeName sha active.leaseId active.holderId] := by
  obtain ⟨hname, hslash, -⟩ := receipt_name sha active.leaseId.toList
    (active.identifier.not_mem (by decide)) [active.holderId]
  have hcomponents := PathText.components_join (active.project.directory sha root) hname hslash
  rw [active.project.components_directory] at hcomponents
  exact hcomponents.trans (List.append_assoc _ _ _)

end Components

section Distinct

variable {sha : Sha256} {root : List Char}

/-- A path of three names below the root determines them. -/
theorem names_inj {a b c a' b' c' : List Char}
    (h : PathText.components root ++ [a, b, c] = PathText.components root ++ [a', b', c']) :
    a = a' ∧ b = b' ∧ c = c' := by
  have hnames := List.append_cancel_left h
  simp only [List.cons.injEq, and_true] at hnames
  exact hnames

/-- Projects with the same two names are the same. -/
theorem CheckedProject.same {project other : CheckedProject}
    (horigin : hashText sha [project.providerOrigin] = hashText sha [other.providerOrigin])
    (hproject : project.projectId.toList = other.projectId.toList) :
    project.providerOrigin = other.providerOrigin ∧ project.projectId = other.projectId := by
  have hfits : ∀ p : CheckedProject, ∀ field ∈ [p.providerOrigin],
      field.utf8ByteSize < 256 ^ 8 := by
    intro p field hfield
    rw [List.mem_singleton.mp hfield]
    exact p.originFits
  have hfields := hashText_injective sha (hfits project) (hfits other) horigin
  exact ⟨(List.cons.inj hfields).1, String.toList_inj.mp hproject⟩

/-- A front without a hyphen is read back from the file name, and so is the digest. -/
theorem receipt_name_inj {front front' : List Char} (h : '-' ∉ front) (h' : '-' ∉ front')
    {fields fields' : List String}
    (he : front ++ '-' :: hashText sha fields ++ ".json".toList =
      front' ++ '-' :: hashText sha fields' ++ ".json".toList) :
    front = front' ∧ hashText sha fields = hashText sha fields' := by
  have hstem := List.append_cancel_right he
  exact Splitting.append_separator_inj h h' hstem

theorem CheckedActive.same {active other : CheckedActive}
    (h : PathText.components (active.path sha root) = PathText.components (other.path sha root)) :
    active.project.providerOrigin = other.project.providerOrigin ∧
      active.project.projectId = other.project.projectId ∧ active.leaseId = other.leaseId ∧
      active.holderId = other.holderId := by
  rw [active.components_path, other.components_path] at h
  obtain ⟨horigin, hproject, hname⟩ := names_inj h
  obtain ⟨hlease, hdigest⟩ := receipt_name_inj (active.identifier.not_mem (by decide))
    (other.identifier.not_mem (by decide)) hname
  have hfits : ∀ a : CheckedActive, ∀ field ∈ [a.holderId], field.utf8ByteSize < 256 ^ 8 := by
    intro a field hfield
    rw [List.mem_singleton.mp hfield]
    exact holder_fits a.holderValid
  have hholder := hashText_injective sha (hfits active) (hfits other) hdigest
  obtain ⟨hsame, hid⟩ := CheckedProject.same horigin hproject
  exact ⟨hsame, hid, String.toList_inj.mp hlease, (List.cons.inj hholder).1⟩

theorem CheckedPending.same {pending other : CheckedPending}
    (h : PathText.components (pending.path sha root) = PathText.components (other.path sha root)) :
    pending.project.providerOrigin = other.project.providerOrigin ∧
      pending.project.projectId = other.project.projectId ∧
      pending.receipt.resourceKey = other.receipt.resourceKey ∧
      pending.receipt.holderId = other.receipt.holderId := by
  rw [pending.components_path, other.components_path] at h
  obtain ⟨horigin, hproject, hname⟩ := names_inj h
  obtain ⟨-, hdigest⟩ := receipt_name_inj (by decide) (by decide) hname
  have hfits : ∀ p : CheckedPending, ∀ field ∈ [p.receipt.projectId, p.receipt.resourceKey,
      p.receipt.holderId], field.utf8ByteSize < 256 ^ 8 := by
    intro p field hfield
    have hresource : p.receipt.resourceKey.utf8ByteSize ≤ 255 :=
      (ensure_eq_ok.mp p.resourceValid).2.1
    have hid := p.project.identifier.short
    rw [← p.sameProject] at hid
    simp only [List.mem_cons, List.not_mem_nil, or_false] at hfield
    rcases hfield with rfl | rfl | rfl
    · omega
    · omega
    · exact holder_fits p.holderValid
  have hfields := hashText_injective sha (hfits pending) (hfits other) hdigest
  simp only [List.cons.injEq, and_true] at hfields
  obtain ⟨hsame, hid⟩ := CheckedProject.same horigin hproject
  exact ⟨hsame, hid, hfields.2⟩

/-- A lease ID begins with `nls_`, and no pending receipt's name does. -/
theorem pending_ne_active (pending : CheckedPending) (active : CheckedActive) :
    PathText.components (pending.path sha root) ≠ PathText.components (active.path sha root) := by
  intro h
  rw [pending.components_path, active.components_path] at h
  obtain ⟨-, -, hname⟩ := names_inj h
  obtain ⟨hfront, -⟩ := receipt_name_inj (by decide) (active.identifier.not_mem (by decide)) hname
  have hbegins := active.identifier.begins
  rw [← hfront] at hbegins
  exact absurd hbegins (by decide)

/-- The files of the lease store are told apart by their origins, identifiers and digests. So they
are told apart by the texts of their paths. -/
theorem CheckedActive.path_iff (active other : CheckedActive) :
    PathText.components (active.path sha root) = PathText.components (other.path sha root) ↔
      receiptPath active.project.providerOrigin active.project.projectId
          (activeReceiptFile active.leaseId active.holderId) =
        receiptPath other.project.providerOrigin other.project.projectId
          (activeReceiptFile other.leaseId other.holderId) := by
  constructor
  · intro h
    obtain ⟨horigin, hproject, hlease, hholder⟩ := CheckedActive.same h
    rw [horigin, hproject, hlease, hholder]
  · intro h
    simp only [receiptPath, activeReceiptFile, hash, ReceiptPath.mk.injEq, Digest.mk.injEq,
      ReceiptFile.active.injEq, List.cons.injEq, and_true] at h
    obtain ⟨horigin, hproject, hlease, hholder⟩ := h
    rw [active.components_path, other.components_path, horigin, hproject, hlease, hholder]

theorem CheckedPending.path_iff (pending other : CheckedPending) :
    PathText.components (pending.path sha root) = PathText.components (other.path sha root) ↔
      receiptPath pending.project.providerOrigin pending.project.projectId
          (pendingReceiptFile pending.receipt) =
        receiptPath other.project.providerOrigin other.project.projectId
          (pendingReceiptFile other.receipt) := by
  constructor
  · intro h
    obtain ⟨horigin, hproject, hresource, hholder⟩ := CheckedPending.same h
    rw [pendingReceiptFile, pendingReceiptFile, pending.sameProject, other.sameProject, horigin,
      hproject, hresource, hholder]
  · intro h
    simp only [receiptPath, pendingReceiptFile, hash, ReceiptPath.mk.injEq, Digest.mk.injEq,
      ReceiptFile.pending.injEq, List.cons.injEq, and_true] at h
    obtain ⟨horigin, hproject, hid, hresource, hholder⟩ := h
    have hname : pendingName sha pending.receipt = pendingName sha other.receipt := by
      have hdigest : hashText sha [pending.receipt.projectId, pending.receipt.resourceKey,
          pending.receipt.holderId] = hashText sha [other.receipt.projectId,
          other.receipt.resourceKey, other.receipt.holderId] := by
        rw [hid, hresource, hholder]
      exact congrArg (fun digest => "pending".toList ++ '-' :: digest ++ ".json".toList) hdigest
    rw [pending.components_path, other.components_path, horigin, hproject, hname]

end Distinct

/-- Each receipt has a path of its own directly in its project's directory. -/
theorem receipt_paths (sha : Sha256) (root : List Char) :
    (∀ pending : CheckedPending,
      DirectlyIn (pending.path sha root) (pending.project.directory sha root)) ∧
    (∀ active : CheckedActive,
      DirectlyIn (active.path sha root) (active.project.directory sha root)) ∧
    (∀ (pending : CheckedPending) (active : CheckedActive),
      PathText.components (pending.path sha root) ≠ PathText.components (active.path sha root)) ∧
    (∀ active other : CheckedActive,
      PathText.components (active.path sha root) = PathText.components (other.path sha root) →
      active.project.providerOrigin = other.project.providerOrigin ∧
        active.project.projectId = other.project.projectId ∧ active.leaseId = other.leaseId ∧
        active.holderId = other.holderId) ∧
    (∀ pending other : CheckedPending,
      PathText.components (pending.path sha root) = PathText.components (other.path sha root) →
      pending.project.providerOrigin = other.project.providerOrigin ∧
        pending.project.projectId = other.project.projectId ∧
        pending.receipt.resourceKey = other.receipt.resourceKey ∧
        pending.receipt.holderId = other.receipt.holderId) ∧
    ∀ fields others : List String, (∀ field ∈ fields, field.utf8ByteSize < 256 ^ 8) →
      (∀ field ∈ others, field.utf8ByteSize < 256 ^ 8) →
      digestInput fields = digestInput others → fields = others := by
  refine ⟨fun pending => ?_, fun active => ?_, pending_ne_active, fun _ _ => CheckedActive.same,
    fun _ _ => CheckedPending.same, fun _ _ => digestInput_injective⟩
  · obtain ⟨hname, hslash, hdots⟩ := receipt_name sha "pending".toList (by decide)
      [pending.receipt.projectId, pending.receipt.resourceKey, pending.receipt.holderId]
    simp only [PathText.isName, Bool.and_eq_true, decide_eq_true_eq] at hname
    refine ⟨pendingName sha pending.receipt, hname.1, hslash, hname.2, hdots, ?_⟩
    rw [pending.components_path, pending.project.components_directory, List.append_assoc]
    rfl
  · obtain ⟨hname, hslash, hdots⟩ := receipt_name sha active.leaseId.toList
      (active.identifier.not_mem (by decide)) [active.holderId]
    simp only [PathText.isName, Bool.and_eq_true, decide_eq_true_eq] at hname
    refine ⟨activeName sha active.leaseId active.holderId, hname.1, hslash, hname.2, hdots, ?_⟩
    rw [active.components_path, active.project.components_directory, List.append_assoc]
    rfl

section Sample

/-- Two hexadecimal digits for each byte. -/
def hexDigit (n : ℕ) : Char := Char.ofNat (if n < 10 then 48 + n else 87 + n)

def hexBytes (bytes : List UInt8) : List Char :=
  bytes.flatMap fun b => [hexDigit (b.toNat / 16), hexDigit (b.toNat % 16)]

theorem hexDigit_lower {n : ℕ} (h : n < 16) :
    (hexDigit n).isDigit = true ∨ ('a' ≤ hexDigit n ∧ hexDigit n ≤ 'f') := by
  have hall : ∀ n < 16, (hexDigit n).isDigit = true ∨ ('a' ≤ hexDigit n ∧ hexDigit n ≤ 'f') := by
    decide
  exact hall n h

theorem hexDigit_injective {m n : ℕ} (hm : m < 16) (hn : n < 16) (h : hexDigit m = hexDigit n) :
    m = n := by
  have hall : ∀ m < 16, ∀ n < 16, hexDigit m = hexDigit n → m = n := by decide
  exact hall m hm n hn h

theorem hexBytes_cons (b : UInt8) (bytes : List UInt8) : hexBytes (b :: bytes) =
    hexDigit (b.toNat / 16) :: hexDigit (b.toNat % 16) :: hexBytes bytes := rfl

theorem length_hexBytes (bytes : List UInt8) : (hexBytes bytes).length = 2 * bytes.length := by
  induction bytes with
  | nil => rfl
  | cons b bytes ih =>
    rw [hexBytes_cons, List.length_cons, List.length_cons, ih, List.length_cons]
    omega

theorem hexBytes_injective : Function.Injective hexBytes := by
  intro bytes
  induction bytes with
  | nil =>
    intro others h
    cases others with
    | nil => rfl
    | cons d others => cases h
  | cons b bytes ih =>
    intro others h
    cases others with
    | nil => cases h
    | cons d others =>
      rw [hexBytes_cons, hexBytes_cons] at h
      obtain ⟨hhigh, hrest⟩ := List.cons.inj h
      obtain ⟨hlow, htail⟩ := List.cons.inj hrest
      have hb := b.toNat_lt
      have hd := d.toNat_lt
      have hhigh' := hexDigit_injective (by omega) (by omega) hhigh
      have hlow' := hexDigit_injective (by omega) (by omega) hlow
      have hbyte : b = d := UInt8.toNat_inj.mp (by omega)
      rw [hbyte, ih htail]

theorem hexBytes_lower {bytes : List UInt8} {c : Char} (h : c ∈ hexBytes bytes) :
    c.isDigit = true ∨ ('a' ≤ c ∧ c ≤ 'f') := by
  obtain ⟨b, -, hc⟩ := List.mem_flatMap.mp h
  have hb := b.toNat_lt
  simp only [List.mem_cons, List.not_mem_nil, or_false] at hc
  rcases hc with rfl | rfl
  · exact hexDigit_lower (by omega)
  · exact hexDigit_lower (by omega)

/-- The digests of the repository's own example. -/
def originDigest : List Char :=
  "54bb53c9c955443b96cddb52bab9a8aced89c27361aa5d63765cb521f62b8e01".toList

def holderDigest : List Char :=
  "ce10296f36b7c2009e987248163832f0b01295a0cf9e17a2b10e7dddda9413d0".toList

/-- A digest that is SHA-256's for the example's provider and holder; elsewhere the bytes
themselves in hexadecimal, with one digit more, so that the length tells them apart. -/
def sampleHex (bytes : List UInt8) : List Char :=
  if bytes = digestInput ["https://provider.example"] then originDigest
  else if bytes = digestInput ["../../holder"] then holderDigest
  else hexBytes bytes ++ ['0']

theorem sampleHex_cases (bytes : List UInt8) :
    (bytes = digestInput ["https://provider.example"] ∧ sampleHex bytes = originDigest) ∨
    (bytes = digestInput ["../../holder"] ∧ sampleHex bytes = holderDigest) ∨
    sampleHex bytes = hexBytes bytes ++ ['0'] := by
  unfold sampleHex
  split
  · next h => exact Or.inl ⟨h, rfl⟩
  · split
    · next h => exact Or.inr (Or.inl ⟨h, rfl⟩)
    · exact Or.inr (Or.inr rfl)

def sampleSha : Sha256 where
  hex := sampleHex
  nonempty := by
    intro bytes h
    rcases sampleHex_cases bytes with ⟨-, he⟩ | ⟨-, he⟩ | he
    · exact absurd (he.symm.trans h) (by decide)
    · exact absurd (he.symm.trans h) (by decide)
    · exact absurd (he.symm.trans h) (by simp)
  lowerHex := by
    intro bytes c hc
    rcases sampleHex_cases bytes with ⟨-, he⟩ | ⟨-, he⟩ | he
    · have hall : (originDigest.all fun c => c.isDigit = true ∨ ('a' ≤ c ∧ c ≤ 'f')) = true := by
        decide
      exact of_decide_eq_true (List.all_eq_true.mp hall c (he ▸ hc))
    · have hall : (holderDigest.all fun c => c.isDigit = true ∨ ('a' ≤ c ∧ c ≤ 'f')) = true := by
        decide
      exact of_decide_eq_true (List.all_eq_true.mp hall c (he ▸ hc))
    · rw [he] at hc
      rcases List.mem_append.mp hc with hc | hc
      · exact hexBytes_lower hc
      · rw [List.mem_singleton.mp hc]
        exact Or.inl (by decide)
  injective := by
    -- Two of the digests have 64 digits, and all others an odd number of them.
    have horigin : originDigest.length = 64 := by decide
    have hholder : holderDigest.length = 64 := by decide
    have hodd : ∀ bytes, (hexBytes bytes ++ ['0']).length = 2 * bytes.length + 1 := by
      intro bytes
      rw [List.length_append, length_hexBytes, List.length_singleton]
    intro bytes others h
    have hlength := congrArg List.length h
    rcases sampleHex_cases bytes with ⟨rfl, he⟩ | ⟨rfl, he⟩ | he
    · rcases sampleHex_cases others with ⟨rfl, he'⟩ | ⟨rfl, he'⟩ | he'
      · rfl
      · exact absurd (he.symm.trans (h.trans he')) (by decide)
      · rw [he, he', hodd, horigin] at hlength
        omega
    · rcases sampleHex_cases others with ⟨rfl, he'⟩ | ⟨rfl, he'⟩ | he'
      · exact absurd (he.symm.trans (h.trans he')) (by decide)
      · rfl
      · rw [he, he', hodd, hholder] at hlength
        omega
    · rcases sampleHex_cases others with ⟨rfl, he'⟩ | ⟨rfl, he'⟩ | he'
      · rw [he, he', hodd, horigin] at hlength
        omega
      · rw [he, he', hodd, hholder] at hlength
        omega
      · rw [he, he'] at h
        exact hexBytes_injective (List.append_cancel_right h)

/-- The example's project, and a holder that looks like a path. -/
def sampleActive : CheckedActive where
  project := {
    providerOrigin := "https://provider.example"
    projectId := "prj_example"
    originFits := by decide
    projectValid := by decide +kernel }
  leaseId := "nls_example"
  holderId := "../../holder"
  leaseValid := by decide +kernel
  holderValid := by decide +kernel

theorem receipt_paths_holder :
    DirectlyIn (sampleActive.path sampleSha "/state/named-leases".toList)
      (sampleActive.project.directory sampleSha "/state/named-leases".toList) :=
  (receipt_paths sampleSha "/state/named-leases".toList).2.1 sampleActive

end Sample

end Resync
