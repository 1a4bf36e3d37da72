import Mathlib.Algebra.Order.Ring.Int
import Resync.Lib.Utf8

/-! When a held lease is renewed (`next_renewal_at`): after a third of the lifetime that was
left when it was observed, and a jitter that the lease ID determines. chrono has leap seconds, and
an expiry in one of them may come before the renewal. -/
namespace Resync

/-- The first and the last second of chrono's range, counted from 1970. -/
def minSecs : ℤ := -8334601228800

def maxSecs : ℤ := 8210266876799

/-- A `DateTime<Utc>`, ordered by the second and the nanoseconds in it. A leap second has no number
of its own: its nanoseconds go on after those of the second before. -/
structure DateTime where
  secs : ℤ
  frac : ℤ
  inRange : minSecs ≤ secs ∧ secs ≤ maxSecs
  fraction : 0 ≤ frac ∧ frac < 2000000000
  atMinute : 1000000000 ≤ frac → secs % 60 = 59
deriving DecidableEq

instance : LT DateTime := ⟨fun s t => s.secs < t.secs ∨ s.secs = t.secs ∧ s.frac < t.frac⟩

instance : LE DateTime := ⟨fun s t => s.secs < t.secs ∨ s.secs = t.secs ∧ s.frac ≤ t.frac⟩

theorem DateTime.lt_iff {s t : DateTime} :
    s < t ↔ s.secs < t.secs ∨ s.secs = t.secs ∧ s.frac < t.frac := Iff.rfl

theorem DateTime.le_iff {s t : DateTime} :
    s ≤ t ↔ s.secs < t.secs ∨ s.secs = t.secs ∧ s.frac ≤ t.frac := Iff.rfl

/-- What `next_renewal_at` reads of a receipt's lease. -/
structure ObservedLease where
  leaseId : String
  expiresAt : DateTime

structure ObservedReceipt where
  lease : Option ObservedLease
  authorityRecordedAt : Option DateTime

inductive RenewalError where
  | noLease | noObservationTime
  /-- An overflow, or a remainder by zero. -/
  | panic
deriving DecidableEq

section Arithmetic

/-- The result of an `i64` operation. -/
def checkedI64 (x : ℤ) : Except RenewalError ℤ :=
  if -9223372036854775808 ≤ x ∧ x ≤ 9223372036854775807 then .ok x else .error .panic

/-- `u64::try_from`. -/
def u64TryFrom (x : ℤ) : Option ℕ :=
  if 0 ≤ x ∧ x ≤ 18446744073709551615 then some x.toNat else none

/-- `i64::try_from`. -/
def i64TryFrom (n : ℕ) : Option ℤ :=
  if n ≤ 9223372036854775807 then some (n : ℤ) else none

def checkedRem (a b : ℕ) : Except RenewalError ℕ :=
  if b = 0 then .error .panic else .ok (a % b)

def fromBeBytes (bytes : List UInt8) : ℕ := bytes.foldl (fun n b => 256 * n + b.toNat) 0

/-- The moment in a second, if the second is in chrono's range. -/
def DateTime.ofParts (secs frac : ℤ) : Except RenewalError DateTime :=
  if h : (minSecs ≤ secs ∧ secs ≤ maxSecs) ∧ (0 ≤ frac ∧ frac < 2000000000) ∧
      (1000000000 ≤ frac → secs % 60 = 59) then
    .ok ⟨secs, frac, h.1, h.2.1, h.2.2⟩
  else .error .panic

/-- `DateTime + TimeDelta`, where the duration is of whole milliseconds. A sum that leaves a leap
second goes on in the second after it. -/
def DateTime.addMilliseconds (t : DateTime) (millis : ℤ) : Except RenewalError DateTime :=
  let secsToAdd := millis.tdiv 1000
  let fracToAdd := millis.tmod 1000 * 1000000
  if 1000000000 ≤ t.frac ∧ secsToAdd = 0 ∧ t.frac + fracToAdd < 2000000000 then
    ofParts t.secs (t.frac + fracToAdd)
  else
    let secs := if 1000000000 ≤ t.frac ∧ secsToAdd < 0 then t.secs + 1 else t.secs
    let frac := (if 1000000000 ≤ t.frac then t.frac - 1000000000 else t.frac) + fracToAdd
    ofParts (secs + secsToAdd + frac / 1000000000) (frac % 1000000000)

def DateTime.timeOfDay (t : DateTime) : ℤ := t.secs % 86400

/-- The leap second between two times of day, if the one that comes first is in it. -/
def leapBetween (t s : DateTime) : ℤ :=
  if s.timeOfDay < t.timeOfDay ∧ 1000000000 ≤ s.frac then 1
  else if t.timeOfDay < s.timeOfDay ∧ 1000000000 ≤ t.frac then -1
  else 0

/-- `signed_duration_since`, in nanoseconds. -/
def DateTime.since (t s : DateTime) : ℤ :=
  (t.secs - s.secs + leapBetween t s) * 1000000000 + (t.frac - s.frac)

/-- `TimeDelta::num_milliseconds` of a difference, rounded towards zero. -/
def numMilliseconds (nanos : ℤ) : ℤ := nanos.tdiv 1000000

end Arithmetic

def lifetimeMillis (expiresAt observedAt : DateTime) : ℤ :=
  max (numMilliseconds (expiresAt.since observedAt)) 1

def jitterWindow (lifetimeMillis : ℤ) : ℤ := max (lifetimeMillis.tdiv 15) 1

/-- The number that the first eight bytes of the digest make. -/
def jitterSample (sha256 : List UInt8 → Vector UInt8 32) (leaseId : String) : ℕ :=
  fromBeBytes ((sha256 (Utf8.encode leaseId.toList)).toList.take 8)

def nextRenewalAt (sha256 : List UInt8 → Vector UInt8 32) (receipt : ObservedReceipt) :
    Except RenewalError DateTime := do
  let lease ← receipt.lease.elim (.error .noLease) .ok
  let observedAt ← receipt.authorityRecordedAt.elim (.error .noObservationTime) .ok
  let millis ← checkedI64 (numMilliseconds (lease.expiresAt.since observedAt))
  let lifetime := max millis 1
  let rest ← checkedRem (jitterSample sha256 lease.leaseId)
    ((u64TryFrom (jitterWindow lifetime)).getD 1)
  let jitter := (i64TryFrom rest).getD 0
  let delay ← checkedI64 (lifetime.tdiv 3 + jitter)
  observedAt.addMilliseconds delay

section Bounds

theorem checkedI64_ok {x : ℤ} (h : -9223372036854775808 ≤ x ∧ x ≤ 9223372036854775807) :
    checkedI64 x = .ok x := if_pos h

theorem u64TryFrom_some {x : ℤ} (h : 0 ≤ x ∧ x ≤ 18446744073709551615) :
    u64TryFrom x = some x.toNat := if_pos h

theorem i64TryFrom_some {n : ℕ} (h : n ≤ 9223372036854775807) :
    i64TryFrom n = some (n : ℤ) := if_pos h

theorem checkedRem_ok {a b : ℕ} (h : b ≠ 0) : checkedRem a b = .ok (a % b) := if_neg h

theorem numMilliseconds_eq (nanos : ℤ) :
    numMilliseconds nanos = if 0 ≤ nanos then nanos / 1000000 else -(-nanos / 1000000) := by
  split
  · next h => exact Int.tdiv_eq_ediv_of_nonneg h
  · next h =>
    rw [numMilliseconds, ← Int.tdiv_eq_ediv_of_nonneg (by omega), Int.neg_tdiv, neg_neg]

/-- Two times are less than 2^54 milliseconds apart, and a lifetime has no more milliseconds than
the duration. -/
theorem lifetime_bounds (observedAt expiresAt : DateTime) :
    1 ≤ lifetimeMillis expiresAt observedAt ∧
      lifetimeMillis expiresAt observedAt ≤ 18014398509481984 ∧
      -18014398509481984 ≤ numMilliseconds (expiresAt.since observedAt) ∧
      (lifetimeMillis expiresAt observedAt = 1 ∨
        lifetimeMillis expiresAt observedAt * 1000000 ≤ expiresAt.since observedAt) := by
  have hexpires := expiresAt.inRange
  have hobserved := observedAt.inRange
  have hfrac := expiresAt.fraction
  have hfrac' := observedAt.fraction
  have hmin : minSecs = -8334601228800 := rfl
  have hmax : maxSecs = 8210266876799 := rfl
  have hleap : -1 ≤ leapBetween expiresAt observedAt ∧ leapBetween expiresAt observedAt ≤ 1 := by
    unfold leapBetween
    split
    · omega
    · split <;> omega
  have hsince : expiresAt.since observedAt =
      (expiresAt.secs - observedAt.secs + leapBetween expiresAt observedAt) * 1000000000 +
        (expiresAt.frac - observedAt.frac) := rfl
  rw [lifetimeMillis, numMilliseconds_eq]
  split <;> omega

/-- The duration up to a later time does not exceed the seconds between the two, where a leap
second counts as a second more. -/
theorem since_le (observedAt expiresAt : DateTime) :
    (observedAt.secs = expiresAt.secs →
      expiresAt.since observedAt = expiresAt.frac - observedAt.frac) ∧
    (observedAt.secs < expiresAt.secs → observedAt.frac < 1000000000 →
      expiresAt.since observedAt ≤
        (expiresAt.secs - observedAt.secs) * 1000000000 + (expiresAt.frac - observedAt.frac)) ∧
    (observedAt.secs < expiresAt.secs → 1000000000 ≤ observedAt.frac →
      expiresAt.since observedAt ≤
        (expiresAt.secs - observedAt.secs + 1) * 1000000000 +
          (expiresAt.frac - observedAt.frac)) := by
  unfold DateTime.since leapBetween DateTime.timeOfDay
  refine ⟨fun hsecs => ?_, fun hsecs hfrac => ?_, fun hsecs hfrac => ?_⟩
  · rw [hsecs, if_neg (by omega), if_neg (by omega)]
    omega
  · rw [if_neg (by omega)]
    split <;> omega
  · split
    · omega
    · split <;> omega

/-- A sum with a delay that is not negative: it stays in its leap second, or it is the sum of a
time without leap seconds. -/
theorem DateTime.addMilliseconds_eq (t : DateTime) {millis : ℤ} (h : 0 ≤ millis) :
    t.addMilliseconds millis =
      if 1000000000 ≤ t.frac ∧ t.frac + millis * 1000000 < 2000000000 then
        ofParts t.secs (t.frac + millis * 1000000)
      else
        ofParts (t.secs + ((if 1000000000 ≤ t.frac then t.frac - 1000000000 else t.frac) +
            millis * 1000000) / 1000000000)
          (((if 1000000000 ≤ t.frac then t.frac - 1000000000 else t.frac) +
            millis * 1000000) % 1000000000) := by
  have hdiv : millis.tdiv 1000 = millis / 1000 := Int.tdiv_eq_ediv_of_nonneg h
  have hmod : millis.tmod 1000 = millis % 1000 := Int.tmod_eq_emod_of_nonneg h
  unfold DateTime.addMilliseconds
  simp only [hdiv, hmod]
  by_cases hstay : 1000000000 ≤ t.frac ∧ t.frac + millis * 1000000 < 2000000000
  · have hshort : millis / 1000 = 0 ∧ millis % 1000 = millis := by omega
    rw [if_pos hstay, if_pos ⟨hstay.1, hshort.1, by omega⟩, hshort.2]
  · rw [if_neg hstay, if_neg (fun hs => hstay ⟨hs.1, by omega⟩),
      if_neg (show ¬(1000000000 ≤ t.frac ∧ millis / 1000 < 0) by omega)]
    congr 1 <;> omega

theorem DateTime.ofParts_ok {secs frac : ℤ} (hsecs : minSecs ≤ secs ∧ secs ≤ maxSecs)
    (hfrac : 0 ≤ frac ∧ frac < 2000000000) (hminute : 1000000000 ≤ frac → secs % 60 = 59) :
    ofParts secs frac = .ok ⟨secs, frac, hsecs, hfrac, hminute⟩ := dif_pos ⟨hsecs, hfrac, hminute⟩

theorem DateTime.ofParts_eq_ok {secs frac : ℤ} {t : DateTime} (h : ofParts secs frac = .ok t) :
    t.secs = secs ∧ t.frac = frac := by
  unfold ofParts at h
  split at h
  · obtain rfl := Except.ok.inj h
    exact ⟨rfl, rfl⟩
  · cases h

/-- The jitter is below a fifteenth of the lifetime. -/
theorem jitter_bounds {lifetime : ℤ} (h : 1 ≤ lifetime) (jitter : ℕ)
    (hjitter : (jitter : ℤ) < jitterWindow lifetime) :
    15 * (jitter : ℤ) ≤ lifetime ∧ 5 * (lifetime.tdiv 3 + jitter) ≤ 2 * lifetime := by
  have hwindow : jitterWindow lifetime = max (lifetime / 15) 1 := by
    rw [jitterWindow, Int.tdiv_eq_ediv_of_nonneg (by omega)]
  have hthird : lifetime.tdiv 3 = lifetime / 3 := Int.tdiv_eq_ediv_of_nonneg (by omega)
  rw [hwindow] at hjitter
  rw [hthird]
  omega

/-- A delay of at most two fifths of the lifetime ends before the later time, unless that is in a
leap second and the delay goes on past the second before it. -/
theorem addMilliseconds_before {observedAt expiresAt : DateTime} (h : observedAt < expiresAt)
    {delay : ℤ} (hdelay : 0 ≤ delay)
    (hfifths : 5 * delay ≤ 2 * lifetimeMillis expiresAt observedAt) :
    (∃ renewal, observedAt.addMilliseconds delay = .ok renewal ∧ observedAt ≤ renewal ∧
      renewal < expiresAt) ↔
    ¬ (observedAt.secs = expiresAt.secs ∧ observedAt.frac < 1000000000 ∧
      1000000000 ≤ observedAt.frac + delay * 1000000) := by
  obtain ⟨hone, -, -, hlength⟩ := lifetime_bounds observedAt expiresAt
  obtain ⟨hsame, hplain, hleap⟩ := since_le observedAt expiresAt
  have hfrac := observedAt.fraction
  have hminute := observedAt.atMinute
  have hexpires := expiresAt.fraction
  have hminute' := expiresAt.atMinute
  rw [DateTime.lt_iff] at h
  rw [DateTime.addMilliseconds_eq observedAt hdelay]
  constructor
  · rintro ⟨renewal, hrenewal, -, hbefore⟩ ⟨hsecs, hnormal, hpast⟩
    rw [if_neg (by omega), if_neg (by omega)] at hrenewal
    obtain ⟨hr, hrfrac⟩ := DateTime.ofParts_eq_ok hrenewal
    rw [DateTime.lt_iff] at hbefore
    omega
  · intro hstays
    have hrange := observedAt.inRange
    have hrange' := expiresAt.inRange
    split
    · refine ⟨_, DateTime.ofParts_ok hrange (by omega) (fun _ => hminute (by omega)), ?_, ?_⟩
      · exact Or.inr ⟨rfl, by show _ ≤ observedAt.frac + delay * 1000000; omega⟩
      · rw [DateTime.lt_iff]
        show observedAt.secs < _ ∨ observedAt.secs = _ ∧ observedAt.frac + delay * 1000000 < _
        omega
    · next hleaves =>
      set start := if 1000000000 ≤ observedAt.frac then observedAt.frac - 1000000000
        else observedAt.frac with hstart
      have hnormal : 0 ≤ start ∧ start < 1000000000 := by omega
      have hsecs : observedAt.secs + (start + delay * 1000000) / 1000000000 ≤ expiresAt.secs := by
        omega
      refine ⟨_, DateTime.ofParts_ok (by omega) (by omega) (by omega), ?_, ?_⟩
      · rw [DateTime.le_iff]
        dsimp only
        omega
      · rw [DateTime.lt_iff]
        dsimp only
        omega

/-- What `next_renewal_at` computes: the sum of the observation and of a delay between a third and
two fifths of the lifetime. No conversion on the way to it fails. -/
theorem nextRenewalAt_eq (sha256 : List UInt8 → Vector UInt8 32) {receipt : ObservedReceipt}
    {lease : ObservedLease} {observedAt : DateTime} (hlease : receipt.lease = some lease)
    (hobserved : receipt.authorityRecordedAt = some observedAt) :
    ∃ window : ℕ, u64TryFrom (jitterWindow (lifetimeMillis lease.expiresAt observedAt)) =
        some window ∧ 0 < window ∧
      i64TryFrom (jitterSample sha256 lease.leaseId % window) =
        some ((jitterSample sha256 lease.leaseId % window : ℕ) : ℤ) ∧
      (window : ℤ) = jitterWindow (lifetimeMillis lease.expiresAt observedAt) ∧
      nextRenewalAt sha256 receipt =
        observedAt.addMilliseconds ((lifetimeMillis lease.expiresAt observedAt).tdiv 3 +
          (jitterSample sha256 lease.leaseId % window : ℕ)) := by
  obtain ⟨hone, hmax, hmin, -⟩ := lifetime_bounds observedAt lease.expiresAt
  have hmillis : max (numMilliseconds (lease.expiresAt.since observedAt)) 1 =
      lifetimeMillis lease.expiresAt observedAt := rfl
  set lifetime := lifetimeMillis lease.expiresAt observedAt
  have hthird : lifetime.tdiv 3 = lifetime / 3 := Int.tdiv_eq_ediv_of_nonneg (by omega)
  have hwindow : 1 ≤ jitterWindow lifetime ∧ jitterWindow lifetime ≤ lifetime := by
    rw [jitterWindow, Int.tdiv_eq_ediv_of_nonneg (by omega)]
    omega
  set window := (jitterWindow lifetime).toNat with hw
  have hcast : (window : ℤ) = jitterWindow lifetime := Int.toNat_of_nonneg (by omega)
  have hpos : 0 < window := by omega
  set jitter := jitterSample sha256 lease.leaseId % window with hj
  have hbelow : jitter < window := Nat.mod_lt _ hpos
  have hu64 : u64TryFrom (jitterWindow lifetime) = some window := u64TryFrom_some (by omega)
  have hi64 : i64TryFrom jitter = some (jitter : ℤ) := i64TryFrom_some (by omega)
  refine ⟨window, hu64, hpos, hi64, hcast, ?_⟩
  have hchecked : checkedI64 (numMilliseconds (lease.expiresAt.since observedAt)) =
      .ok (numMilliseconds (lease.expiresAt.since observedAt)) := checkedI64_ok (by omega)
  have hrem : checkedRem (jitterSample sha256 lease.leaseId)
      ((u64TryFrom (jitterWindow lifetime)).getD 1) = .ok jitter := by
    rw [hu64]
    exact checkedRem_ok (by show window ≠ 0; omega)
  have hsum : checkedI64 (lifetime.tdiv 3 + jitter) = .ok (lifetime.tdiv 3 + jitter) :=
    checkedI64_ok (by omega)
  calc
    nextRenewalAt sha256 receipt
    _ = (checkedI64 (numMilliseconds (lease.expiresAt.since observedAt))).bind
          fun millis => (checkedRem (jitterSample sha256 lease.leaseId)
            ((u64TryFrom (jitterWindow (max millis 1))).getD 1)).bind fun rest =>
              (checkedI64 ((max millis 1).tdiv 3 + (i64TryFrom rest).getD 0)).bind
                observedAt.addMilliseconds := by
      rw [nextRenewalAt, hlease, hobserved]
      rfl
    _ = (checkedRem (jitterSample sha256 lease.leaseId)
          ((u64TryFrom (jitterWindow lifetime)).getD 1)).bind fun rest =>
            (checkedI64 (lifetime.tdiv 3 + (i64TryFrom rest).getD 0)).bind
              observedAt.addMilliseconds := by
      rw [hchecked, ← hmillis]
      rfl
    _ = (checkedI64 (lifetime.tdiv 3 + jitter)).bind observedAt.addMilliseconds := by
      rw [hrem]
      show (checkedI64 (lifetime.tdiv 3 + (i64TryFrom jitter).getD 0)).bind _ = _
      rw [hi64]
      rfl
    _ = observedAt.addMilliseconds (lifetime.tdiv 3 + jitter) := by
      rw [hsum]
      rfl

end Bounds

/-- The expiry is in a leap second, the lease was observed in the second before it, and a third of
the lifetime with the jitter of the lease ID goes on past the end of that second. -/
def RenewsPastLeapSecond (sha256 : List UInt8 → Vector UInt8 32) (lease : ObservedLease)
    (observedAt : DateTime) : Prop :=
  let lifetime := max 1 ((lease.expiresAt.frac - observedAt.frac) / 1000000)
  1000000000 ≤ lease.expiresAt.frac ∧ observedAt.secs = lease.expiresAt.secs ∧
    observedAt.frac < 1000000000 ∧
    1000000000 ≤ observedAt.frac + (lifetime / 3 +
      jitterSample sha256 lease.leaseId % max (lifetime / 15) 1) * 1000000

/-- A renewal is not refused for the clock's arithmetic, comes between a third and two fifths of
the lifetime and before the expiry, also where that is less than a millisecond away, exactly
unless the expiry is in a leap second that the renewal passes. -/
theorem next_renewal_before_expiry_iff (sha256 : List UInt8 → Vector UInt8 32)
    {receipt : ObservedReceipt} {lease : ObservedLease} {observedAt : DateTime}
    (hlease : receipt.lease = some lease) (hobserved : receipt.authorityRecordedAt = some observedAt)
    (hexpires : observedAt < lease.expiresAt) :
    let lifetime := max 1 (numMilliseconds (lease.expiresAt.since observedAt))
    (∃ renewal window jitter, nextRenewalAt sha256 receipt = .ok renewal ∧
      u64TryFrom (jitterWindow lifetime) = some window ∧
      i64TryFrom (jitterSample sha256 lease.leaseId % window) = some jitter ∧
      observedAt.addMilliseconds (lifetime / 3 + jitter) = .ok renewal ∧
      0 ≤ jitter ∧ 5 * (lifetime / 3 + jitter) ≤ 2 * lifetime ∧
      observedAt ≤ renewal ∧ renewal < lease.expiresAt) ↔
    ¬ RenewsPastLeapSecond sha256 lease observedAt := by
  intro lifetime
  have hlifetime : lifetimeMillis lease.expiresAt observedAt = lifetime := max_comm _ _
  obtain ⟨window, hu64, hpos, hi64, hcast, hrenewal⟩ := nextRenewalAt_eq sha256 hlease hobserved
  obtain ⟨hone, -, -, hlength⟩ := lifetime_bounds observedAt lease.expiresAt
  rw [hlifetime] at hu64 hcast hrenewal hone
  set jitter := jitterSample sha256 lease.leaseId % window with hj
  have hbelow : jitter < window := Nat.mod_lt _ hpos
  have hthird : lifetime.tdiv 3 = lifetime / 3 := Int.tdiv_eq_ediv_of_nonneg (by omega)
  have hfifths : 5 * (lifetime / 3 + jitter) ≤ 2 * lifetime := by
    rw [← hthird]
    exact (jitter_bounds hone jitter (by omega)).2
  rw [hthird] at hrenewal
  have hdelay : 0 ≤ lifetime / 3 + (jitter : ℤ) := by omega
  have hbefore := addMilliseconds_before hexpires hdelay (hlifetime ▸ hfifths)
  -- the delay passes the second in which the lease was observed only towards a leap second
  have hpast : RenewsPastLeapSecond sha256 lease observedAt ↔
      observedAt.secs = lease.expiresAt.secs ∧ observedAt.frac < 1000000000 ∧
        1000000000 ≤ observedAt.frac + (lifetime / 3 + jitter) * 1000000 := by
    have hsame : observedAt.secs = lease.expiresAt.secs →
        max 1 ((lease.expiresAt.frac - observedAt.frac) / 1000000) = lifetime := by
      intro hsecs
      have hsince := (since_le observedAt lease.expiresAt).1 hsecs
      have hlater : 0 ≤ lease.expiresAt.frac - observedAt.frac := by
        rw [DateTime.lt_iff] at hexpires
        omega
      rw [← hlifetime, lifetimeMillis, hsince, numMilliseconds_eq, if_pos hlater, max_comm]
    have hjitter : (jitter : ℤ) = jitterSample sha256 lease.leaseId % max (lifetime / 15) 1 := by
      rw [hj, Int.natCast_emod, hcast, jitterWindow, Int.tdiv_eq_ediv_of_nonneg (by omega)]
    have hleap : observedAt.secs = lease.expiresAt.secs → observedAt.frac < 1000000000 →
        1000000000 ≤ observedAt.frac + (lifetime / 3 + jitter) * 1000000 →
          1000000000 ≤ lease.expiresAt.frac := by
      intro hsecs hnormal hpast
      have hsince := (since_le observedAt lease.expiresAt).1 hsecs
      rw [hlifetime, hsince] at hlength
      omega
    rw [RenewsPastLeapSecond]
    constructor
    · rintro ⟨-, hsecs, hnormal, hpast⟩
      rw [hsame hsecs, ← hjitter] at hpast
      exact ⟨hsecs, hnormal, hpast⟩
    · rintro ⟨hsecs, hnormal, hpast⟩
      refine ⟨hleap hsecs hnormal hpast, hsecs, hnormal, ?_⟩
      rw [hsame hsecs, ← hjitter]
      exact hpast
  rw [hpast, ← hbefore]
  constructor
  · rintro ⟨renewal, window', jitter', hok, -, -, -, -, -, hafter, hlt⟩
    exact ⟨renewal, hrenewal.symm.trans hok, hafter, hlt⟩
  · rintro ⟨renewal, hok, hafter, hlt⟩
    exact ⟨renewal, window, jitter, hrenewal.trans hok, hu64, hi64, hok, by omega, hfifths, hafter,
      hlt⟩

/-- The receipt of the repository's own test: a lease for a quarter of an hour, observed a
second after it was acquired. -/
def observedReceipt : ObservedReceipt where
  lease := some ⟨"nls_example", ⟨1785716100, 0, by decide, by decide, by decide⟩⟩
  authorityRecordedAt := some ⟨1785715201, 0, by decide, by decide, by decide⟩

/-- The SHA-256 digest of its lease ID. -/
def observedDigest : Vector UInt8 32 :=
  #v[45, 155, 61, 58, 90, 148, 94, 34, 182, 43, 66, 69, 85, 147, 167, 103,
    223, 44, 219, 1, 179, 114, 99, 95, 134, 67, 249, 121, 182, 171, 24, 226]

theorem next_renewal_example :
    ∃ renewal, nextRenewalAt (fun _ => observedDigest) observedReceipt = .ok renewal ∧
      ⟨1785715201, 0, by decide, by decide, by decide⟩ ≤ renewal ∧
      renewal < ⟨1785716100, 0, by decide, by decide, by decide⟩ := by
  have hordinary : ¬ RenewsPastLeapSecond (fun _ => observedDigest)
      ⟨"nls_example", ⟨1785716100, 0, by decide, by decide, by decide⟩⟩
      ⟨1785715201, 0, by decide, by decide, by decide⟩ := fun h => absurd h.1 (by decide)
  obtain ⟨renewal, -, -, hrenewal, -, -, -, -, -, hafter, hbefore⟩ :=
    (@next_renewal_before_expiry_iff (fun _ => observedDigest) observedReceipt _ _ rfl rfl
      (Or.inl (by decide))).mpr hordinary
  exact ⟨renewal, hrenewal, hafter, hbefore⟩

/-- The lease expires in the leap second at the end of 2016, nine tenths into it, and was observed
a second before. -/
def leapSecondReceipt : ObservedReceipt where
  lease := some ⟨"nls_example", ⟨1483228799, 1900000000, by decide, by decide, by decide⟩⟩
  authorityRecordedAt := some ⟨1483228799, 900000000, by decide, by decide, by decide⟩

/-- The renewal falls into the new year. -/
theorem renewal_after_leap_second : ∃ lease observedAt renewal,
    leapSecondReceipt.lease = some lease ∧
    leapSecondReceipt.authorityRecordedAt = some observedAt ∧ observedAt < lease.expiresAt ∧
    nextRenewalAt (fun _ => observedDigest) leapSecondReceipt = .ok renewal ∧
    lease.expiresAt < renewal :=
  ⟨_, _, ⟨1483228800, 249000000, by decide, by decide, by decide⟩, rfl, rfl,
    Or.inr (by decide), by decide +kernel, Or.inl (by decide)⟩

end Resync
