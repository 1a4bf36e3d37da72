import Resync.NamedLease
import Resync.Lib.Utf8

/-! The resource keys of named leases and the prefixes they are listed by. The validators
accept exactly a grammar of bytes, and the byte test of a listing is the order of segment lists. -/
namespace Resync

def bytesOf (value : String) : List UInt8 := Utf8.encode value.toList

/-- `validate_resource_prefix`. -/
def validateResourcePrefix (value : String) : Except LeaseError Unit :=
  if value.toList.getLast? = some '/' then do
    ensure (value.utf8ByteSize ≤ 255) "named-lease prefix is too long"
    validateResourceKey (.ofList value.toList.dropLast)
  else .error (.bail "named-lease prefix must end at a slash boundary")

/-- `str::starts_with`, which compares bytes. -/
def startsWith (value start : String) : Bool := (bytesOf start).isPrefixOf (bytesOf value)

/-- `NamedLeaseListResponse::validate_for_project`, with the identifiers and the keys that it
has come across. -/
def validateListed (projectId : String) (leaseIds resourceKeys : List String) :
    List NamedLease → Except LeaseError Unit
  | [] => .ok ()
  | lease :: leases => do
    lease.validate
    ensure (lease.projectId = projectId) "provider returned a named lease for a different project"
    ensure (lease.leaseId ∉ leaseIds ∧ lease.resourceKey ∉ resourceKeys)
      "provider returned duplicate live named leases"
    validateListed projectId (lease.leaseId :: leaseIds) (lease.resourceKey :: resourceKeys) leases

/-- `list`, with the leases of the answer, where it parses. -/
def list (project : NamedLeaseProject) (start : String) (answer : Option (List NamedLease)) :
    Except LeaseError (List NamedLease) := do
  validateResourcePrefix start
  match answer with
  | none => .error .transport
  | some leases =>
    validateListed project.projectId [] [] leases
    ensure ((leases.any fun lease => !startsWith lease.resourceKey start) = false)
      "provider returned a named lease outside the requested prefix"
    return leases

section Grammar

/-- The byte of a slash. -/
def slash : UInt8 := 47

/-- `[a-z0-9]`. -/
def SegmentStart (b : UInt8) : Prop :=
  (97 ≤ b.toNat ∧ b.toNat ≤ 122) ∨ (48 ≤ b.toNat ∧ b.toNat ≤ 57)

/-- `[a-z0-9._-]`. -/
def SegmentByte (b : UInt8) : Prop :=
  SegmentStart b ∨ b.toNat = 46 ∨ b.toNat = 95 ∨ b.toNat = 45

/-- `[a-z0-9][a-z0-9._-]*`, of at most 63 bytes. -/
def IsSegment (bytes : List UInt8) : Prop :=
  bytes.length ≤ 63 ∧
    ∃ first rest, bytes = first :: rest ∧ SegmentStart first ∧ ∀ b ∈ rest, SegmentByte b

/-- 1 to 255 bytes of segments with slashes between them. -/
def IsResourceKey (value : String) : Prop :=
  1 ≤ (bytesOf value).length ∧ (bytesOf value).length ≤ 255 ∧
    ∃ segments, segments ≠ [] ∧ bytesOf value = [slash].intercalate segments ∧
      ∀ segment ∈ segments, IsSegment segment

/-- The segments of a key. -/
def segmentsOf (value : String) : List (List UInt8) := (bytesOf value).splitOn slash

/-- The segments before the slash that a prefix ends with. -/
def prefixSegments (value : String) : List (List UInt8) :=
  (bytesOf (.ofList value.toList.dropLast)).splitOn slash

end Grammar

section Segments

theorem segmentStart_lt {b : UInt8} (h : SegmentStart b) : b.toNat < 128 := by
  rcases h with h | h
  · omega
  · omega

theorem segmentByte_lt {b : UInt8} (h : SegmentByte b) : b.toNat < 128 := by
  rcases h with h | h
  · exact segmentStart_lt h
  · omega

theorem segmentStart_iff {c : Char} :
    (c.isLower || c.isDigit) = true ↔ c.toNat < 128 ∧ SegmentStart (UInt8.ofNat c.toNat) := by
  have hlower : c.isLower = true ↔ 97 ≤ c.toNat ∧ c.toNat ≤ 122 := by
    show (decide ('a'.val ≤ c.val) && decide (c.val ≤ 'z'.val)) = true ↔ _
    rw [Bool.and_eq_true, decide_eq_true_eq, decide_eq_true_eq]
    exact Iff.rfl
  have hdigit : c.isDigit = true ↔ 48 ≤ c.toNat ∧ c.toNat ≤ 57 := by
    show (decide ('0'.val ≤ c.val) && decide (c.val ≤ '9'.val)) = true ↔ _
    rw [Bool.and_eq_true, decide_eq_true_eq, decide_eq_true_eq]
    exact Iff.rfl
  rw [Bool.or_eq_true, hlower, hdigit, SegmentStart, UInt8.toNat_ofNat']
  omega

theorem toNat_eq_iff {c d : Char} : c = d ↔ c.toNat = d.toNat := by
  constructor
  · intro h
    rw [h]
  · exact Utf8.char_eq_of_toNat

theorem segmentByte_iff {c : Char} :
    (c.isLower || c.isDigit || c = '.' || c = '_' || c = '-') = true ↔
      c.toNat < 128 ∧ SegmentByte (UInt8.ofNat c.toNat) := by
  have hstart := segmentStart_iff (c := c)
  have hdot : '.'.toNat = 46 := rfl
  have hunderscore : '_'.toNat = 95 := rfl
  have hhyphen : '-'.toNat = 45 := rfl
  have hchar : (c.isLower || c.isDigit || c = '.' || c = '_' || c = '-') = true ↔
      (c.isLower || c.isDigit) = true ∨ c.toNat = 46 ∨ c.toNat = 95 ∨ c.toNat = 45 := by
    simp only [Bool.or_eq_true, decide_eq_true_eq, toNat_eq_iff (c := c), hdot, hunderscore,
      hhyphen, or_assoc]
  rw [hchar, hstart, SegmentByte, SegmentStart, UInt8.toNat_ofNat']
  omega

/-- The test of a segment is the grammar's, on the bytes. -/
theorem validResourceSegment_iff (segment : List Char) :
    validResourceSegment (.ofList segment) = true ↔ IsSegment (Utf8.encode segment) := by
  have hsize : (String.ofList segment).utf8ByteSize = (Utf8.encode segment).length := by
    rw [← Utf8.length_encode, String.toList_ofList]
  have hall : (segment.all fun c => c.isLower || c.isDigit || c = '.' || c = '_' || c = '-') =
      true ↔ ∀ b ∈ Utf8.encode segment, SegmentByte b := by
    rw [Utf8.forall_mem_encode fun b => segmentByte_lt, List.all_eq_true]
    exact forall₂_congr fun c _ => segmentByte_iff
  constructor
  · intro h
    simp only [validResourceSegment, Bool.and_eq_true, decide_eq_true_eq, String.toList_ofList,
      hsize, ne_eq] at h
    obtain ⟨⟨⟨⟨⟨hne, hshort⟩, -⟩, -⟩, hhead⟩, hbytes⟩ := h
    cases segment with
    | nil => exact absurd rfl hne
    | cons c rest =>
      obtain ⟨hascii, hstart⟩ := segmentStart_iff.mp hhead
      have hrest := hall.mp hbytes
      rw [Utf8.encode_cons, Utf8.encodeChar_ascii hascii] at hrest ⊢
      rw [Utf8.encode_cons, Utf8.encodeChar_ascii hascii] at hshort
      exact ⟨hshort, _, _, rfl, hstart, fun b hb => hrest b (List.mem_cons_of_mem _ hb)⟩
  · rintro ⟨hshort, first, rest, hbytes, hfirst, hrest⟩
    have hsegment : ∀ b ∈ Utf8.encode segment, SegmentByte b := by
      intro b hb
      rw [hbytes] at hb
      rcases List.mem_cons.mp hb with rfl | hb
      · exact Or.inl hfirst
      · exact hrest b hb
    have hchars := hall.mpr hsegment
    cases segment with
    | nil => cases hbytes
    | cons c rest' =>
      have hc := List.all_eq_true.mp hchars c List.mem_cons_self
      obtain ⟨hascii, -⟩ := segmentByte_iff.mp hc
      rw [Utf8.encode_cons, Utf8.encodeChar_ascii hascii] at hbytes
      have hhead : UInt8.ofNat c.toNat = first := (List.cons.inj hbytes).1
      have hstart := segmentStart_iff.mpr ⟨hascii, hhead.symm ▸ hfirst⟩
      -- a segment that begins with a letter or a digit is neither `.` nor `..`
      have hdots : ∀ tail : List Char, c :: rest' ≠ '.' :: tail := by
        intro tail he
        rw [(List.cons.inj he).1] at hstart
        exact absurd hstart (by decide)
      have hdot : String.ofList (c :: rest') ≠ "." := fun he =>
        hdots [] (by rw [← String.toList_ofList (l := c :: rest'), he]; rfl)
      have hdotdot : String.ofList (c :: rest') ≠ ".." := fun he =>
        hdots ['.'] (by rw [← String.toList_ofList (l := c :: rest'), he]; rfl)
      simp only [validResourceSegment, Bool.and_eq_true, decide_eq_true_eq, String.toList_ofList,
        hsize, ne_eq]
      exact ⟨⟨⟨⟨⟨List.cons_ne_nil _ _, hshort⟩, hdot⟩, hdotdot⟩, hstart⟩, hchars⟩

end Segments

section Keys

theorem segmentsOf_eq (value : String) :
    segmentsOf value = (value.toList.splitOn '/').map Utf8.encode := by
  have hslash : slash = UInt8.ofNat '/'.toNat := rfl
  rw [segmentsOf, bytesOf, hslash]
  exact Utf8.splitOn_encode (by decide) value.toList

theorem slash_not_mem_segment {segment : List UInt8} (h : IsSegment segment) : slash ∉ segment := by
  obtain ⟨-, first, rest, rfl, hfirst, hrest⟩ := h
  intro hmem
  have hslash : slash.toNat = 47 := rfl
  have hbyte : SegmentByte slash := by
    rcases List.mem_cons.mp hmem with he | hmem
    · exact Or.inl (he ▸ hfirst)
    · exact hrest slash hmem
  rw [SegmentByte, SegmentStart, hslash] at hbyte
  omega

/-- A key is one whose segments are all well formed, and that is not too long. -/
theorem isResourceKey_iff (value : String) :
    IsResourceKey value ↔ 1 ≤ (bytesOf value).length ∧ (bytesOf value).length ≤ 255 ∧
      ∀ segment ∈ segmentsOf value, IsSegment segment := by
  constructor
  · rintro ⟨hpositive, hshort, segments, hne, hbytes, hsegments⟩
    have hsplit : segmentsOf value = segments := by
      rw [segmentsOf, hbytes]
      exact List.splitOn_intercalate slash
        (fun segment hmem => slash_not_mem_segment (hsegments segment hmem)) hne
    exact ⟨hpositive, hshort, hsplit.symm ▸ hsegments⟩
  · rintro ⟨hpositive, hshort, hsegments⟩
    exact ⟨hpositive, hshort, segmentsOf value, List.splitOn_ne_nil _ _,
      (List.intercalate_splitOn slash).symm, hsegments⟩

theorem not_isSegment_nil : ¬ IsSegment [] := by
  rintro ⟨-, first, rest, h, -⟩
  cases h

/-- `validate_resource_key` accepts exactly the keys. -/
theorem validateResourceKey_iff (value : String) :
    validateResourceKey value = .ok () ↔ IsResourceKey value := by
  have hall : ((value.toList.splitOn '/').all fun segment =>
      validResourceSegment (.ofList segment)) = true ↔
      ∀ segment ∈ segmentsOf value, IsSegment segment := by
    rw [List.all_eq_true, segmentsOf_eq, List.forall_mem_map]
    exact forall₂_congr fun segment _ => validResourceSegment_iff segment
  have hsize : (bytesOf value).length = value.utf8ByteSize := Utf8.length_encode value
  rw [validateResourceKey, ensure_eq_ok, hall, isResourceKey_iff, hsize]
  constructor
  · rintro ⟨hne, hshort, -, -, hsegments⟩
    have hpositive : 1 ≤ value.utf8ByteSize := by
      by_contra hzero
      have hempty : value.utf8ByteSize = 0 := by omega
      rw [String.utf8ByteSize_eq_zero_iff.mp hempty] at hne
      exact hne rfl
    exact ⟨hpositive, hshort, hsegments⟩
  · rintro ⟨hpositive, hshort, hsegments⟩
    rw [segmentsOf_eq, List.forall_mem_map] at hsegments
    have hnil : [] ∉ value.toList.splitOn '/' := fun hmem =>
      not_isSegment_nil (hsegments [] hmem)
    have hne : value.toList ≠ [] := by
      intro he
      rw [he] at hnil
      exact hnil (List.mem_singleton_self [])
    refine ⟨hne, hshort, fun hhead => ?_, fun hlast => ?_, by rwa [segmentsOf_eq,
      List.forall_mem_map]⟩
    -- a slash at either end makes an empty segment
    · obtain ⟨rest, hrest⟩ := List.head?_eq_some_iff.mp hhead
      have hsplit : value.toList.splitOn '/' = [] :: rest.splitOn '/' := by
        rw [hrest]
        exact List.splitOn_append_cons_self [] rest
      exact hnil (hsplit ▸ List.mem_cons_self)
    · obtain ⟨rest, hrest⟩ := List.getLast?_eq_some_iff.mp hlast
      have hsplit : value.toList.splitOn '/' = rest.splitOn '/' ++ [[]] := by
        rw [hrest]
        exact List.splitOn_append_cons_self rest []
      exact hnil (hsplit ▸ List.mem_append_right _ (List.mem_singleton_self []))

/-- `validate_resource_prefix` accepts exactly a key and one slash, of at most 255 bytes. -/
theorem validateResourcePrefix_iff (value : String) :
    validateResourcePrefix value = .ok () ↔
      (bytesOf value).length ≤ 255 ∧ ∃ key, IsResourceKey key ∧ value = key ++ "/" := by
  have hsize : (bytesOf value).length = value.utf8ByteSize := Utf8.length_encode value
  rw [validateResourcePrefix, hsize]
  by_cases hlast : value.toList.getLast? = some '/'
  · obtain ⟨rest, hrest⟩ := List.getLast?_eq_some_iff.mp hlast
    have hvalue : value = .ofList rest ++ "/" := by
      rw [← String.toList_inj, hrest, String.toList_append, String.toList_ofList]
      rfl
    have hkey : ∀ key, value = key ++ "/" → key = .ofList rest := by
      intro key he
      rw [hvalue] at he
      exact (String.append_left_inj _).mp he.symm
    rw [if_pos hlast, bind_eq_ok, hrest, List.dropLast_concat]
    constructor
    · rintro ⟨_, hshort, hvalid⟩
      exact ⟨ensure_eq_ok.mp hshort, .ofList rest, (validateResourceKey_iff _).mp hvalid, hvalue⟩
    · rintro ⟨hshort, key, hvalid, he⟩
      rw [hkey key he] at hvalid
      exact ⟨(), ensure_eq_ok.mpr hshort, (validateResourceKey_iff _).mpr hvalid⟩
  · rw [if_neg hlast]
    refine iff_of_false (fun h => by cases h) ?_
    rintro ⟨-, key, -, rfl⟩
    apply hlast
    rw [String.toList_append]
    exact List.getLast?_concat

/-- The byte test of a listing. -/
theorem startsWith_iff {start : String} (h : validateResourcePrefix start = .ok ())
    (key : String) : startsWith key start = true ↔
      prefixSegments start <+: segmentsOf key ∧ prefixSegments start ≠ segmentsOf key := by
  obtain ⟨-, first, -, rfl⟩ := (validateResourcePrefix_iff start).mp h
  have hbytes : bytesOf (first ++ "/") = bytesOf first ++ [slash] := by
    rw [bytesOf, String.toList_append, Utf8.encode_append]
    rfl
  have hsegments : prefixSegments (first ++ "/") = (bytesOf first).splitOn slash := by
    have hdrop : (first ++ "/").toList.dropLast = first.toList := by
      rw [String.toList_append]
      exact List.dropLast_concat
    rw [prefixSegments, hdrop, String.ofList_toList]
  rw [startsWith, List.isPrefixOf_iff_prefix, hbytes, hsegments]
  exact Splitting.append_separator_prefix

/-- The keys, the prefixes, and the test between them. -/
theorem resource_keys_and_prefixes :
    (∀ value, validateResourceKey value = .ok () ↔ IsResourceKey value) ∧
    (∀ value, validateResourcePrefix value = .ok () ↔
      (bytesOf value).length ≤ 255 ∧ ∃ key, IsResourceKey key ∧ value = key ++ "/") ∧
    ∀ start key, validateResourcePrefix start = .ok () → validateResourceKey key = .ok () →
      (startsWith key start = true ↔
        prefixSegments start <+: segmentsOf key ∧ prefixSegments start ≠ segmentsOf key) :=
  ⟨validateResourceKey_iff, validateResourcePrefix_iff, fun _ key hstart _ =>
    startsWith_iff hstart key⟩

/-- The prefix `maps/` covers the key `maps/a`, and not `maps2/a`. -/
theorem resource_prefix_maps :
    (prefixSegments "maps/" <+: segmentsOf "maps/a" ∧
      prefixSegments "maps/" ≠ segmentsOf "maps/a") ∧
    ¬ (prefixSegments "maps/" <+: segmentsOf "maps2/a" ∧
      prefixSegments "maps/" ≠ segmentsOf "maps2/a") := by
  have hmaps : validateResourcePrefix "maps/" = .ok () := by decide +kernel
  have hinside := resource_keys_and_prefixes.2.2 "maps/" "maps/a" hmaps (by decide +kernel)
  have houtside := resource_keys_and_prefixes.2.2 "maps/" "maps2/a" hmaps (by decide +kernel)
  refine ⟨hinside.mp (by decide +kernel), fun h => ?_⟩
  exact absurd (houtside.mpr h) (by decide +kernel)

end Keys

section Listing

variable {project : NamedLeaseProject} {start : String} {answer : Option (List NamedLease)}
  {leases : List NamedLease}

/-- The checked leases are valid, of the project, and apart in identifier and key. -/
theorem validateListed_ok {projectId : String} {leaseIds resourceKeys : List String} {u : Unit}
    (h : validateListed projectId leaseIds resourceKeys leases = .ok u) :
    (∀ lease ∈ leases, lease.Proper projectId ∧ lease.leaseId ∉ leaseIds ∧
      lease.resourceKey ∉ resourceKeys) ∧
    leases.Pairwise fun l r => l.leaseId ≠ r.leaseId ∧ l.resourceKey ≠ r.resourceKey := by
  induction leases generalizing leaseIds resourceKeys with
  | nil => exact ⟨fun lease hlease => absurd hlease List.not_mem_nil, List.Pairwise.nil⟩
  | cons lease leases ih =>
    obtain ⟨_, hvalid, h⟩ := bind_eq_ok.mp h
    obtain ⟨_, hproject, h⟩ := bind_eq_ok.mp h
    obtain ⟨_, hfresh, h⟩ := bind_eq_ok.mp h
    obtain ⟨hgeneration, hlifetime⟩ := NamedLease.validate_ok hvalid
    obtain ⟨hall, hpairwise⟩ := ih h
    have hproper : lease.Proper projectId := ⟨ensure_eq_ok.mp hproject, hgeneration, hlifetime⟩
    refine ⟨fun other hother => ?_, List.pairwise_cons.mpr ⟨fun other hother => ?_, hpairwise⟩⟩
    · rcases List.mem_cons.mp hother with rfl | hother
      · exact ⟨hproper, ensure_eq_ok.mp hfresh⟩
      · obtain ⟨hproper', hid, hkey⟩ := hall other hother
        exact ⟨hproper', fun hmem => hid (List.mem_cons_of_mem _ hmem),
          fun hmem => hkey (List.mem_cons_of_mem _ hmem)⟩
    · obtain ⟨-, hid, hkey⟩ := hall other hother
      exact ⟨fun he => hid (he ▸ List.mem_cons_self), fun he => hkey (he ▸ List.mem_cons_self)⟩

/-- A listing returns leases of the project whose keys lie below the prefix, each once. -/
theorem list_below (h : list project start answer = .ok leases) :
    (∀ lease ∈ leases, lease.Proper project.projectId ∧
      prefixSegments start <+: segmentsOf lease.resourceKey ∧
      prefixSegments start ≠ segmentsOf lease.resourceKey) ∧
    leases.Pairwise fun l r => l.leaseId ≠ r.leaseId ∧ l.resourceKey ≠ r.resourceKey := by
  obtain ⟨_, hstart, h⟩ := bind_eq_ok.mp h
  cases answer with
  | none => cases h
  | some found =>
    obtain ⟨_, hlisted, h⟩ := bind_eq_ok.mp h
    obtain ⟨_, hinside, h⟩ := bind_eq_ok.mp h
    obtain rfl := Except.ok.inj h
    obtain ⟨hall, hpairwise⟩ := validateListed_ok hlisted
    refine ⟨fun lease hlease => ?_, hpairwise⟩
    have hbelow : startsWith lease.resourceKey start = true := by
      have hnot := List.any_eq_false.mp (ensure_eq_ok.mp hinside) lease hlease
      rw [Bool.not_eq_true, Bool.not_eq_false'] at hnot
      exact hnot
    exact ⟨(hall lease hlease).1, (startsWith_iff hstart lease.resourceKey).mp hbelow⟩

end Listing

end Resync
