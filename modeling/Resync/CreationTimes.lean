import Resync.GcTransactions
import Resync.Lib.Calendar
import Resync.Lib.Decimals
import Resync.Lib.Utf8
import Resync.Publication

/-! The texts in `created_at` (`publication.rs`, `transaction.rs`): what `to_rfc3339` writes for an
instant, in the order of its bytes, and what the comparisons of these texts decide. -/
namespace Resync

/-- An instant of UTC in the years 0 to 9999, without leap seconds. -/
structure Instant where
  date : Calendar.Date
  hour : ℕ
  minute : ℕ
  second : ℕ
  nano : ℕ
  year_le : date.year ≤ 9999
  hour_lt : hour < 24
  minute_lt : minute < 60
  second_lt : second < 60
  nano_lt : nano < 1000000000

namespace Instant

/-- The time since the beginning of the first of the counted days. -/
def nanos (t : Instant) : ℕ :=
  (((t.date.number * 24 + t.hour) * 60 + t.minute) * 60 + t.second) * 1000000000 + t.nano

/-- `SecondsFormat::AutoSi`: no fraction, or the shortest exact one of 3, 6 or 9 digits. -/
def fraction (nano : ℕ) : List Char :=
  if nano = 0 then []
  else if nano % 1000000 = 0 then '.' :: Decimals.digits 3 (nano / 1000000)
  else if nano % 1000 = 0 then '.' :: Decimals.digits 6 (nano / 1000)
  else '.' :: Decimals.digits 9 nano

def offset : List Char := ['+', '0', '0', ':', '0', '0']

/-- `DateTime::to_rfc3339`. -/
def toRfc3339 (t : Instant) : List Char :=
  Decimals.digits 4 t.date.year ++ '-' :: (Decimals.digits 2 t.date.month ++
    '-' :: (Decimals.digits 2 t.date.day ++ 'T' :: (Decimals.digits 2 t.hour ++
      ':' :: (Decimals.digits 2 t.minute ++ ':' :: (Decimals.digits 2 t.second ++
        (fraction t.nano ++ offset))))))

/-- The field `created_at`. -/
def createdAt (t : Instant) : String := String.ofList t.toRfc3339

section Fractions

/-- The digits that are left of a fraction, by threes, and the offset. -/
def thousands : List ℕ → List Char
  | [] => offset
  | g :: groups =>
    if g = 0 ∧ ∀ n ∈ groups, n = 0 then offset else Decimals.digits 3 g ++ thousands groups

theorem offset_lt_digits (n : ℕ) (s : List Char) : offset < Decimals.digits 3 n ++ s :=
  Decimals.lt_digits_append (by decide) n _ s

/-- The digits by threes are in the order of the numbers. -/
theorem thousands_lt {g h : List ℕ} (hlength : g.length = h.length) (hlt : g < h)
    (hbound : ∀ n ∈ h, n < 1000) : thousands g < thousands h := by
  induction g generalizing h with
  | nil =>
    rw [List.length_eq_zero_iff.mp hlength.symm] at hlt
    cases hlt
  | cons m g ih =>
    cases h with
    | nil => cases hlength
    | cons n h =>
      have hpos : ¬ (n = 0 ∧ ∀ k ∈ h, k = 0) := by
        rintro ⟨hn, hzero⟩
        obtain ⟨k, hk, hne⟩ := Decimals.exists_pos_of_lt hlength hlt
        rcases List.mem_cons.mp hk with rfl | hk
        · exact hne hn
        · exact hne (hzero k hk)
      rw [thousands, thousands, if_neg hpos]
      split
      · exact offset_lt_digits n _
      · refine Decimals.digits_append_lt (hbound n List.mem_cons_self) ?_
        rcases List.cons_lt_cons_iff.mp hlt with hmn | ⟨hmn, hgh⟩
        · exact Or.inl hmn
        · exact Or.inr ⟨hmn, ih (Nat.succ.inj hlength) hgh
            fun k hk => hbound k (List.mem_cons_of_mem n hk)⟩

/-- A fraction is cut off behind its last group of digits that is not zero. -/
theorem fraction_append_offset {nano : ℕ} (hpos : nano ≠ 0) :
    fraction nano ++ offset =
      '.' :: (Decimals.digits 3 (nano / 1000000) ++
        thousands [nano / 1000 % 1000, nano % 1000]) := by
  have hsix : Decimals.digits 6 (nano / 1000) =
      Decimals.digits 3 (nano / 1000000) ++ Decimals.digits 3 (nano / 1000 % 1000) := by
    have hsplit := Decimals.digits_append 3 3 (nano / 1000)
    rw [Nat.div_div_eq_div_mul] at hsplit
    exact hsplit
  have hnine : Decimals.digits 9 nano =
      Decimals.digits 6 (nano / 1000) ++ Decimals.digits 3 (nano % 1000) :=
    Decimals.digits_append 6 3 nano
  rw [fraction, if_neg hpos]
  by_cases hmilli : nano % 1000000 = 0
  · have hzero : nano / 1000 % 1000 = 0 ∧ ∀ n ∈ [nano % 1000], n = 0 := by
      refine ⟨by omega, fun n hn => ?_⟩
      rw [List.mem_singleton.mp hn]
      omega
    rw [if_pos hmilli, thousands, if_pos hzero, List.cons_append]
  · rw [if_neg hmilli]
    by_cases hmicro : nano % 1000 = 0
    · have hfirst : ¬ (nano / 1000 % 1000 = 0 ∧ ∀ n ∈ [nano % 1000], n = 0) := by
        rintro ⟨hgroup, -⟩
        omega
      have hsecond : nano % 1000 = 0 ∧ ∀ n ∈ ([] : List ℕ), n = 0 :=
        ⟨hmicro, fun n hn => absurd hn List.not_mem_nil⟩
      rw [if_pos hmicro, thousands, if_neg hfirst, thousands, if_pos hsecond, hsix,
        List.cons_append, List.append_assoc]
    · have hfirst : ¬ (nano / 1000 % 1000 = 0 ∧ ∀ n ∈ [nano % 1000], n = 0) := fun h =>
        hmicro (h.2 _ List.mem_cons_self)
      have hsecond : ¬ (nano % 1000 = 0 ∧ ∀ n ∈ ([] : List ℕ), n = 0) := fun h => hmicro h.1
      rw [if_neg hmicro, thousands, if_neg hfirst, thousands, if_neg hsecond, thousands, hnine,
        hsix, List.cons_append, List.append_assoc, List.append_assoc]

/-- Fractions of different lengths are in the order of the nanoseconds, too. -/
theorem fraction_lt {m n : ℕ} (hn : n < 1000000000) (h : m < n) :
    fraction m ++ offset < fraction n ++ offset := by
  rw [fraction_append_offset (Nat.ne_of_gt (Nat.zero_lt_of_lt h))]
  by_cases hm : m = 0
  · subst hm
    exact List.cons_lt_cons_iff.mpr (Or.inl (by decide))
  · rw [fraction_append_offset hm]
    refine List.cons_lt_cons_iff.mpr (Or.inr ⟨rfl, ?_⟩)
    have hhigh : n / 1000000 < 10 ^ 3 := by omega
    refine Decimals.digits_append_lt hhigh ?_
    rcases Nat.lt_or_ge (m / 1000000) (n / 1000000) with hlt | hge
    · exact Or.inl hlt
    · refine Or.inr ⟨by omega, thousands_lt rfl ?_ ?_⟩
      · rw [List.cons_lt_cons_iff, List.cons_lt_cons_iff]
        omega
      · intro k hk
        rcases List.mem_cons.mp hk with rfl | hk
        · omega
        · rw [List.mem_singleton.mp hk]
          omega

end Fractions

section Order

/-- The parts of an instant, the longest first. -/
def parts (t : Instant) : List ℕ :=
  [t.date.year, t.date.month, t.date.day, t.hour, t.minute, t.second, t.nano]

variable {a b : Instant}

/-- One field of the text and its separator. -/
theorem field_lt {m n : ℕ} {width : ℕ} (hn : n < 10 ^ width) (sep : Char) {s t : List Char}
    (h : m < n ∨ m = n ∧ s < t) :
    Decimals.digits width m ++ sep :: s < Decimals.digits width n ++ sep :: t := by
  refine Decimals.digits_append_lt hn ?_
  rcases h with h | ⟨h, hst⟩
  · exact Or.inl h
  · exact Or.inr ⟨h, List.cons_lt_cons_iff.mpr (Or.inr ⟨rfl, hst⟩)⟩

theorem daysIn_le (leap : Bool) (month : ℕ) : Calendar.daysIn leap month ≤ 31 := by
  rw [Calendar.daysIn]
  split_ifs <;> omega

theorem toRfc3339_lt (h : a.parts < b.parts) : a.toRfc3339 < b.toRfc3339 := by
  simp only [parts, List.cons_lt_cons_iff, List.lt_irrefl, and_false, or_false] at h
  have hyear : b.date.year < 10 ^ 4 := Nat.lt_succ_of_le b.year_le
  have hmonth : b.date.month < 10 ^ 2 := Nat.lt_of_le_of_lt b.date.month_le (by decide)
  have hday : b.date.day < 10 ^ 2 :=
    Nat.lt_of_le_of_lt (b.date.day_le.trans (daysIn_le _ _)) (by decide)
  have hhour : b.hour < 10 ^ 2 := Nat.lt_trans b.hour_lt (by decide)
  have hminute : b.minute < 10 ^ 2 := Nat.lt_trans b.minute_lt (by decide)
  have hsecond : b.second < 10 ^ 2 := Nat.lt_trans b.second_lt (by decide)
  refine field_lt hyear '-' (h.imp_right fun h => ⟨h.1, ?_⟩)
  refine field_lt hmonth '-' (h.2.imp_right fun h => ⟨h.1, ?_⟩)
  refine field_lt hday 'T' (h.2.imp_right fun h => ⟨h.1, ?_⟩)
  refine field_lt hhour ':' (h.2.imp_right fun h => ⟨h.1, ?_⟩)
  refine field_lt hminute ':' (h.2.imp_right fun h => ⟨h.1, ?_⟩)
  refine Decimals.digits_append_lt hsecond (h.2.imp_right fun h => ⟨h.1, ?_⟩)
  exact fraction_lt b.nano_lt h.2

theorem nanos_lt (h : a.parts < b.parts) : a.nanos < b.nanos := by
  simp only [parts, List.cons_lt_cons_iff, List.lt_irrefl, and_false, or_false] at h
  have ha := a.hour_lt
  have ha' := a.minute_lt
  have ha'' := a.second_lt
  have ha''' := a.nano_lt
  have hdate : a.date.number < b.date.number ∨ a.date.number = b.date.number ∧
      (a.hour < b.hour ∨ a.hour = b.hour ∧ (a.minute < b.minute ∨ a.minute = b.minute ∧
        (a.second < b.second ∨ a.second = b.second ∧ a.nano < b.nano))) := by
    rcases h with h | ⟨hyear, h | ⟨hmonth, h | ⟨hday, h⟩⟩⟩
    · exact Or.inl (Calendar.Date.number_lt (Or.inl h))
    · exact Or.inl (Calendar.Date.number_lt (Or.inr ⟨hyear, Or.inl h⟩))
    · exact Or.inl (Calendar.Date.number_lt (Or.inr ⟨hyear, Or.inr ⟨hmonth, h⟩⟩))
    · refine Or.inr ⟨?_, h⟩
      rw [Calendar.Date.number, Calendar.Date.number, hyear, hmonth, hday]
  rw [nanos, nanos]
  omega

/-- The texts are in the order of the times. -/
theorem toRfc3339_lt_iff : a.toRfc3339 < b.toRfc3339 ↔ a.nanos < b.nanos := by
  rcases lt_trichotomy a.parts b.parts with h | h | h
  · exact iff_of_true (toRfc3339_lt h) (nanos_lt h)
  · obtain ⟨⟨_, _, _, _, _, _⟩, _, _, _, _, _, _, _, _, _⟩ := a
    obtain ⟨⟨_, _, _, _, _, _⟩, _, _, _, _, _, _, _, _, _⟩ := b
    simp only [parts, List.cons.injEq, and_true] at h
    obtain ⟨rfl, rfl, rfl, rfl, rfl, rfl, rfl⟩ := h
    exact iff_of_false (lt_irrefl _) (lt_irrefl _)
  · exact iff_of_false (lt_asymm (toRfc3339_lt h)) (lt_asymm (nanos_lt h))

/-- A text of ASCII characters only. -/
theorem ascii_of_mem {t : Instant} {c : Char} (h : c ∈ t.toRfc3339) : c.toNat < 128 := by
  have hall : (offset.all fun c => decide (c.toNat < 128)) = true := by decide
  have hoffset : ∀ c ∈ offset, c.toNat < 128 := fun c hc =>
    of_decide_eq_true (List.all_eq_true.mp hall c hc)
  have hfraction : ∀ c ∈ fraction t.nano, c.toNat < 128 := by
    intro c hc
    rw [fraction] at hc
    split_ifs at hc
    · exact absurd hc List.not_mem_nil
    all_goals
      rcases List.mem_cons.mp hc with rfl | hc
      · decide
      · exact Decimals.ascii_of_mem_digits hc
  simp only [toRfc3339, List.mem_append, List.mem_cons] at h
  rcases h with h | rfl | h | rfl | h | rfl | h | rfl | h | rfl | h | h | h
  · exact Decimals.ascii_of_mem_digits h
  · decide
  · exact Decimals.ascii_of_mem_digits h
  · decide
  · exact Decimals.ascii_of_mem_digits h
  · decide
  · exact Decimals.ascii_of_mem_digits h
  · decide
  · exact Decimals.ascii_of_mem_digits h
  · decide
  · exact Decimals.ascii_of_mem_digits h
  · exact hfraction c h
  · exact hoffset c h

/-- The bytes of the texts are in the order of the times. -/
theorem bytes_lt_iff :
    Utf8.encode a.createdAt.toList < Utf8.encode b.createdAt.toList ↔ a.nanos < b.nanos := by
  rw [createdAt, createdAt, String.toList_ofList, String.toList_ofList,
    Utf8.encode_lt_iff (fun _ => ascii_of_mem) (fun _ => ascii_of_mem), toRfc3339_lt_iff]

theorem createdAt_le_iff : a.createdAt ≤ b.createdAt ↔ a.nanos ≤ b.nanos := by
  rw [← not_lt, ← not_lt, String.lt_iff, createdAt, createdAt, String.toList_ofList,
    String.toList_ofList, toRfc3339_lt_iff]

end Order

end Instant

/-- A publication whose time is known as an instant. -/
structure StampedPublication (Oid : Type) where
  publication : Publication Oid
  created : Instant
  same : publication.createdAt = created.nanos

namespace StampedPublication

variable {Oid : Type}

/-- The IDs that `process_publications` goes through, sorted by the texts. -/
def toProcess (force : Bool) (now : ℕ) (queue : List (StampedPublication Oid)) : List String :=
  (((queue.filter fun p => p.publication.pending && (force || p.publication.due now)).map fun p =>
    (p.created.createdAt, p.publication.publicationId)).insertionSort fun l r =>
      r.1 ≤ l.1).map (·.2)

/-- What `complete_publication` marks, with the texts compared. -/
def completes (p q : StampedPublication Oid) : Bool :=
  q.publication.pending && q.publication.projectId == p.publication.projectId &&
    q.publication.branch == p.publication.branch && q.created.createdAt ≤ p.created.createdAt

theorem toProcess_eq (force : Bool) (now : ℕ) (queue : List (StampedPublication Oid)) :
    toProcess force now queue =
      PublicationQueue.toProcess force now (queue.map (·.publication)) := by
  have hfilter : (queue.map (·.publication)).filter (fun p => p.pending && (force || p.due now)) =
      (queue.filter fun p => p.publication.pending && (force || p.publication.due now)).map
        (·.publication) := List.filter_map
  rw [toProcess, PublicationQueue.toProcess, hfilter, List.map_map]
  have htexts := List.map_insertionSort (fun l r => r.created.nanos ≤ l.created.nanos)
    (fun l r : String × String => r.1 ≤ l.1)
    (fun p : StampedPublication Oid => (p.created.createdAt, p.publication.publicationId))
    (queue.filter fun p => p.publication.pending && (force || p.publication.due now))
    fun _ _ _ _ => Instant.createdAt_le_iff.symm
  have htimes := List.map_insertionSort (fun l r => r.created.nanos ≤ l.created.nanos)
    (fun l r : ℕ × String => r.1 ≤ l.1)
    ((fun p : Publication Oid => (p.createdAt, p.publicationId)) ∘
      fun p : StampedPublication Oid => p.publication)
    (queue.filter fun p => p.publication.pending && (force || p.publication.due now))
    fun l _ r _ => by
      show _ ↔ r.publication.createdAt ≤ l.publication.createdAt
      rw [r.same, l.same]
  rw [← htexts, ← htimes, List.map_map, List.map_map]
  rfl

theorem completes_eq (p q : StampedPublication Oid) :
    completes p q = p.publication.completes q.publication := by
  have htimes : decide (q.created.createdAt ≤ p.created.createdAt) =
      decide (q.publication.createdAt ≤ p.publication.createdAt) := by
    rw [q.same, p.same]
    exact decide_eq_decide.mpr Instant.createdAt_le_iff
  rw [completes, Publication.completes, htimes]

end StampedPublication

/-- A record of the collection whose time is known as an instant. -/
structure StampedEntry (P ρ : Type) where
  entry : Gc.Entry P ρ
  created : Instant
  written : entry.transaction.createdAt = created.createdAt

/-- The history of `gc_transactions` has the latest records first. -/
theorem historyOf_stamped {P ρ : Type} (entries : List (StampedEntry P ρ)) :
    Gc.historyOf (entries.map (·.entry)) =
      ((entries.filter fun e => !e.entry.retain).mergeSort fun l r =>
        decide (r.created.nanos ≤ l.created.nanos)).map (·.entry) := by
  have hfilter : (entries.map (·.entry)).filter (fun entry => !entry.retain) =
      (entries.filter fun e => !e.entry.retain).map (·.entry) := List.filter_map
  rw [Gc.historyOf, hfilter]
  refine (List.map_mergeSort fun l _ r _ => ?_).symm
  rw [l.written, r.written]
  exact decide_eq_decide.mpr Instant.createdAt_le_iff.symm

/-- The bytes of the texts are in the order of the times, and what the program sorts and selects by
the texts is sorted and selected by the times. -/
theorem created_at_texts_compare_times {Oid P ρ : Type} :
    (∀ a b : Instant,
      Utf8.encode a.createdAt.toList < Utf8.encode b.createdAt.toList ↔ a.nanos < b.nanos) ∧
    (∀ (force : Bool) (now : ℕ) (queue : List (StampedPublication Oid)),
      StampedPublication.toProcess force now queue =
        PublicationQueue.toProcess force now (queue.map (·.publication))) ∧
    (∀ p q : StampedPublication Oid,
      StampedPublication.completes p q = p.publication.completes q.publication) ∧
    ∀ entries : List (StampedEntry P ρ),
      Gc.historyOf (entries.map (·.entry)) =
        ((entries.filter fun e => !e.entry.retain).mergeSort fun l r =>
          decide (r.created.nanos ≤ l.created.nanos)).map (·.entry) :=
  ⟨fun _ _ => Instant.bytes_lt_iff, StampedPublication.toProcess_eq,
    StampedPublication.completes_eq, historyOf_stamped⟩

end Resync
