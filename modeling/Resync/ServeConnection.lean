import Resync.Lib.JsonCuts
import Resync.LocalExcludes

/-! A connection to the daemon: `serve_connection` (`daemon.rs`) and `rpc` (`rpc.rs`). What
`handle` answers a request is left open, and how many requests the connection had before it. -/
namespace Resync

open Utf8 (isWhitespace)

namespace Connection

open JsonText

/-- What the parser of JSON does with fractions, and the texts of the errors on the way. -/
structure Texts where
  floats : Floats
  /-- The parser's message for a line that is no value. -/
  error : List Char → String
  /-- The message for a line that is not UTF-8. -/
  invalidUtf8 : String

def newline : UInt8 := UInt8.ofNat '\n'.toNat

/-- What the calls of `read_line` yield one after the other. -/
def lines : List UInt8 → List (List UInt8)
  | [] => []
  | b :: rest =>
    if b = newline then [b] :: lines rest
    else match lines rest with
      | [] => [[b]]
      | line :: more => (b :: line) :: more

inductive Ending where
  /-- `Ok(())`, at the end of the stream. -/
  | closed
  | invalidUtf8
  /-- `daemon request exceeds 1 MiB` -/
  | exceeds
  | writeFailed
deriving DecidableEq

structure Served where
  /-- The requests that `handle` was called with. -/
  requests : List Json
  output : List UInt8
  ending : Ending

/-- The answer that cannot be written, and how many bytes of its line come through. -/
structure WriteFailure where
  answer : ℕ
  bytes : ℕ

/-- A line is written, and the connection goes on if that succeeds. -/
def Served.answer (failure : Option WriteFailure) (line : List UInt8)
    (rest : Option WriteFailure → Served) : Served :=
  match failure with
  | some ⟨0, bytes⟩ => ⟨[], line.take bytes, .writeFailed⟩
  | some ⟨n + 1, bytes⟩ =>
    let served := rest (some ⟨n, bytes⟩)
    { served with output := line ++ served.output }
  | none =>
    let served := rest none
    { served with output := line ++ served.output }

variable (T : Texts)

def response : Except String Json → Json
  | .ok result => .obj [("ok", .bool true), ("result", result)]
  | .error error => .obj [("error", .str error), ("ok", .bool false)]

/-- A value on a line of its own. -/
def writeLine (value : Json) : List UInt8 :=
  Utf8.encode (write T.floats compact 0 value ++ ['\n'])

/-- `serve_connection`, with the lines that the client still sends. -/
def serveLines (handle : ℕ → Json → Except String Json) :
    ℕ → Option WriteFailure → List (List UInt8) → Served
  | _, _, [] => ⟨[], [], .closed⟩
  | count, failure, bytes :: rest =>
    match Utf8.decode bytes with
    -- `read_line` fails, and the connection ends without an answer
    | none => ⟨[], [], .invalidUtf8⟩
    | some line =>
      if bytes.length > 1024 * 1024 then ⟨[], [], .exceeds⟩
      -- a blank line is no request and has no answer
      else if LocalExcludes.trim line = [] then serveLines handle count failure rest
      else match read T.floats line with
        | some request =>
          let served := Served.answer failure (writeLine T (response (handle count request)))
            fun failure => serveLines handle (count + 1) failure rest
          { served with requests := request :: served.requests }
        | none =>
          -- `handle` is not asked, and the connection goes on
          Served.answer failure (writeLine T (response (.error (T.error line))))
            fun failure => serveLines handle count failure rest

def serveConnection (handle : ℕ → Json → Except String Json) (failure : Option WriteFailure)
    (input : List UInt8) : Served :=
  serveLines T handle 0 failure (lines input)

/-- `rpc`, with a line that it received. -/
def rpcResult (bytes : List UInt8) : Except String Json :=
  match Utf8.decode bytes with
  | none => .error T.invalidUtf8
  | some line =>
    match read T.floats line with
    | none => .error (T.error line)
    | some response =>
      if response.get "ok" = some (.bool true) then .ok ((response.get "result").getD .null)
      else .error (((response.get "error").bind Json.asStr).getD "daemon request failed")

/-- `rpc`, on a stream that the daemon serves and that takes the answer. -/
def rpc (handle : ℕ → Json → Except String Json) (request : Json) : Except String Json :=
  rpcResult T ((lines (serveConnection T handle none (writeLine T request)).output).headD [])

section Lines

variable {T}

theorem lines_of_not_mem {bytes : List UInt8} (hne : bytes ≠ []) (h : newline ∉ bytes) :
    lines bytes = [bytes] := by
  induction bytes with
  | nil => exact absurd rfl hne
  | cons b rest ih =>
    have hb : b ≠ newline := fun he => h (he ▸ List.mem_cons_self)
    have hrest : newline ∉ rest := fun hmem => h (List.mem_cons_of_mem b hmem)
    rw [lines, if_neg hb]
    cases rest with
    | nil => rfl
    | cons c rest => rw [ih (List.cons_ne_nil c rest) hrest]

theorem lines_append {bytes : List UInt8} (h : newline ∉ bytes) (rest : List UInt8) :
    lines (bytes ++ newline :: rest) = (bytes ++ [newline]) :: lines rest := by
  induction bytes with
  | nil => rw [List.nil_append, lines, if_pos rfl, List.nil_append]
  | cons b bytes ih =>
    have hb : b ≠ newline := fun he => h (he ▸ List.mem_cons_self)
    rw [List.cons_append, lines, if_neg hb, ih fun hmem => h (List.mem_cons_of_mem b hmem)]
    rfl

theorem newline_mem_encode {text : List Char} : newline ∈ Utf8.encode text ↔ '\n' ∈ text := by
  have hchar : ∀ c, newline ∈ String.utf8EncodeChar c ↔ c = '\n' := fun c =>
    Utf8.mem_encodeChar_ascii (by decide)
  constructor
  · intro h
    obtain ⟨c, hc, hmem⟩ := List.mem_flatMap.mp h
    exact (hchar c).mp hmem ▸ hc
  · intro h
    exact List.mem_flatMap.mpr ⟨'\n', h, (hchar '\n').mpr rfl⟩

theorem writeLine_eq (value : Json) :
    writeLine T value = Utf8.encode (write T.floats compact 0 value) ++ [newline] := by
  rw [writeLine, Utf8.encode_append]
  rfl

theorem newline_not_mem_text {value : Json} (h : fits 127 value = true) :
    newline ∉ Utf8.encode (write T.floats compact 0 value) := fun hmem =>
  newline_not_mem_write T.floats value 127 0 h (newline_mem_encode.mp hmem)

theorem lines_writeLine {value : Json} (h : fits 127 value = true) (rest : List UInt8) :
    lines (writeLine T value ++ rest) = writeLine T value :: lines rest := by
  rw [writeLine_eq, List.append_assoc, List.singleton_append,
    lines_append (newline_not_mem_text h)]

theorem decode_writeLine (value : Json) :
    Utf8.decode (writeLine T value) = some (write T.floats compact 0 value ++ ['\n']) :=
  Utf8.decode_eq_some_iff.mpr rfl

theorem read_line {value : Json} (h : fits 127 value = true) :
    read T.floats (write T.floats compact 0 value ++ ['\n']) = some value := by
  apply read_write T.floats compact h
  intro c hc
  rw [List.mem_singleton.mp hc]
  rfl

end Lines

section Answers

variable {T}

theorem fits_response {result : Except String Json}
    (h : ∀ value, result = .ok value → fits 126 value = true) :
    fits 127 (response result) = true := by
  have hsorted (a b : String) (hlt : a < b) (x y : Json) :
      ([(a, x), (b, y)] : List (String × Json)).Pairwise fun a b => a.1 < b.1 :=
    List.pairwise_pair.mpr hlt
  cases result with
  | error error =>
    simp only [response, fits, fitsMembers, hsorted "error" "ok" (by decide +kernel), decide_true,
      Bool.and_self]
  | ok value =>
    simp only [response, fits, fitsMembers, hsorted "ok" "result" (by decide +kernel), h value rfl,
      decide_true, Bool.and_self]

/-- The client learns exactly what `handle` returned. -/
theorem rpcResult_response {result : Except String Json}
    (h : ∀ value, result = .ok value → fits 126 value = true) :
    rpcResult T (writeLine T (response result)) = result := by
  rw [rpcResult, decode_writeLine]
  simp only [read_line (fits_response h)]
  cases result with
  | ok value => rfl
  | error error => rfl

/-- What the lines of a client ask for, up to one that ends the connection. -/
def asked (T : Texts) : List (List UInt8) → List (Except String Json)
  | [] => []
  | bytes :: rest =>
    match Utf8.decode bytes with
    | none => []
    | some line =>
      if bytes.length > 1024 * 1024 then []
      else if LocalExcludes.trim line = [] then asked T rest
      else (match read T.floats line with
        | some request => .ok request
        | none => .error (T.error line)) :: asked T rest

def answers (handle : ℕ → Json → Except String Json) :
    ℕ → List (Except String Json) → List (Except String Json)
  | _, [] => []
  | count, .ok request :: rest => handle count request :: answers handle (count + 1) rest
  | count, .error error :: rest => .error error :: answers handle count rest

variable {handle : ℕ → Json → Except String Json}

/-- The number of answers that are written whole. -/
def WriteFailure.whole (failure : Option WriteFailure) (length : ℕ) : ℕ :=
  (failure.map (·.answer)).getD length

/-- What is written: the lines of the first answers, and of the next one a part. -/
structure Written (T : Texts) (results : List (Except String Json)) (whole : ℕ)
    (output : List UInt8) : Prop where
  parts : ∃ sent tail, output = sent ++ tail ∧ (lines sent).map (rpcResult T) = results.take whole ∧
    (results.length ≤ whole → tail = []) ∧
    ∀ result ∈ results[whole]?, tail <+: writeLine T (response result)

/-- A line of an answer before what the rest of the connection writes. -/
theorem Written.cons {result : Except String Json} {results : List (Except String Json)}
    {whole : ℕ} {output : List UInt8} (h : Written T results whole output)
    (hresult : ∀ value, result = .ok value → fits 126 value = true) :
    Written T (result :: results) (whole + 1) (writeLine T (response result) ++ output) := by
  obtain ⟨sent, tail, rfl, hlines, hall, htail⟩ := h.parts
  refine ⟨writeLine T (response result) ++ sent, tail, (List.append_assoc _ _ _).symm, ?_,
    fun hle => hall (Nat.le_of_succ_le_succ hle), htail⟩
  rw [lines_writeLine (fits_response hresult), List.map_cons, rpcResult_response hresult, hlines]
  rfl

/-- One more answer: it is written whole and the connection goes on, or its write fails. -/
theorem written_answer {result : Except String Json} {results : List (Except String Json)}
    (hresult : ∀ value, result = .ok value → fits 126 value = true)
    {asks : List (Except String Json)} {rest : Option WriteFailure → Served}
    (hrest : ∀ failure, (rest failure).requests =
        (asks.take (WriteFailure.whole failure results.length + 1)).filterMap Except.toOption ∧
      Written T results (WriteFailure.whole failure results.length) (rest failure).output)
    (failure : Option WriteFailure) :
    (Served.answer failure (writeLine T (response result)) rest).requests =
        (asks.take (WriteFailure.whole failure (results.length + 1))).filterMap Except.toOption ∧
      Written T (result :: results) (WriteFailure.whole failure (results.length + 1))
        (Served.answer failure (writeLine T (response result)) rest).output := by
  match failure with
  | none =>
    obtain ⟨hrequests, hwritten⟩ := hrest none
    exact ⟨hrequests, hwritten.cons hresult⟩
  | some ⟨0, bytes⟩ =>
    refine ⟨rfl, [], (writeLine T (response result)).take bytes, rfl, rfl,
      fun hle => absurd hle (Nat.not_succ_le_zero _), fun other hother => ?_⟩
    obtain rfl := Option.some.inj hother
    exact List.take_prefix _ _
  | some ⟨n + 1, bytes⟩ =>
    obtain ⟨hrequests, hwritten⟩ := hrest (some ⟨n, bytes⟩)
    exact ⟨hrequests, hwritten.cons hresult⟩

/-- Every line that is not blank is answered with one line, up to one that ends the connection or
to a write that fails. -/
theorem serveLines_answers
    (hfits : ∀ count request value, handle count request = .ok value → fits 126 value = true)
    (count : ℕ) (failure : Option WriteFailure) (input : List (List UInt8)) :
    (serveLines T handle count failure input).requests =
        ((asked T input).take (WriteFailure.whole failure
          (answers handle count (asked T input)).length + 1)).filterMap Except.toOption ∧
      Written T (answers handle count (asked T input)) (WriteFailure.whole failure
        (answers handle count (asked T input)).length)
          (serveLines T handle count failure input).output := by
  have hnothing (failure : Option WriteFailure) :
      Written T [] (WriteFailure.whole failure 0) [] := by
    refine ⟨[], [], rfl, ?_, fun _ => rfl, fun _ hnone => by cases hnone⟩
    rw [List.take_nil]
    rfl
  induction input generalizing count failure with
  | nil => exact ⟨by rw [asked, List.take_nil]; rfl, hnothing failure⟩
  | cons bytes rest ih =>
    rw [serveLines, asked]
    cases Utf8.decode bytes with
    | none => exact ⟨by rw [List.take_nil]; rfl, hnothing failure⟩
    | some line =>
      simp only
      split_ifs with hlong hblank
      · exact ⟨by rw [List.take_nil]; rfl, hnothing failure⟩
      · exact ih count failure
      · cases read T.floats line with
        | some request =>
          have hanswer := written_answer (hfits count request) (ih (count + 1)) failure
          exact ⟨congrArg (request :: ·) hanswer.1, hanswer.2⟩
        | none =>
          have hfails : ∀ value, (.error (T.error line) : Except String Json) = .ok value →
              fits 126 value = true := fun _ he => by cases he
          exact written_answer hfails (ih count) failure

theorem answers_map (count : ℕ) (requests : List Json) (rest : List (Except String Json)) :
    answers handle count (requests.map .ok ++ rest) =
      requests.mapIdx (fun i request => handle (count + i) request) ++
        answers handle (count + requests.length) rest := by
  induction requests generalizing count with
  | nil => rfl
  | cons request requests ih =>
    rw [List.map_cons, List.cons_append, answers, ih, List.mapIdx_cons, List.length_cons,
      List.cons_append]
    simp only [Nat.add_zero, Nat.add_assoc, Nat.add_comm 1]

theorem answers_errors (count : ℕ) (errors : List (List Char)) :
    answers handle count (errors.map fun line => .error (T.error line)) =
      errors.map fun line => .error (T.error line) := by
  induction errors with
  | nil => rfl
  | cons line errors ih => exact congrArg (.error (T.error line) :: ·) ih

end Answers

section Requests

variable {T}

/-- A request that the daemon takes: a value that is no number, on a line of at most 1 MiB. -/
structure Sendable (T : Texts) (request : Json) : Prop where
  fits : fits 127 request = true
  closed : closed request = true
  short : (writeLine T request).length ≤ 1024 * 1024

theorem isWhitespace_of_first {c : Char}
    (h : c.isDigit = true ∨ c ∈ ['-', 'n', 't', 'f', '"', '[', '\x7b']) :
    isWhitespace c = false := by
  rcases h with hdigit | hmem
  · have hrange : 48 ≤ c.toNat ∧ c.toNat ≤ 57 := by
      simpa [Char.isDigit, UInt32.le_iff_toNat_le] using hdigit
    simp only [isWhitespace, List.mem_cons, List.not_mem_nil, or_false, Bool.or_eq_false_iff,
      Bool.and_eq_false_iff, decide_eq_false_iff_not]
    omega
  · have hall : ['-', 'n', 't', 'f', '"', '[', '\x7b'].all fun d => !isWhitespace d := by
      decide
    exact Bool.not_eq_true' _ ▸ List.all_eq_true.mp hall c hmem

theorem trim_ne_nil {c : Char} (h : isWhitespace c = false) (rest : List Char) :
    LocalExcludes.trim (c :: rest) ≠ [] := by
  have hc : ¬isWhitespace c = true := by simp [h]
  rw [LocalExcludes.trim, trimMatches, List.dropWhile_cons_of_neg hc]
  intro hnil
  rw [List.rdropWhile_eq_nil_iff] at hnil
  exact hc (hnil c List.mem_cons_self)

theorem trim_line {request : Json} (h : fits 127 request = true) (more : List Char) :
    LocalExcludes.trim (write T.floats compact 0 request ++ more) ≠ [] := by
  obtain ⟨c, tail, hc, hfirst⟩ := first_write T.floats compact h 0
  rw [hc, List.cons_append]
  exact trim_ne_nil (isWhitespace_of_first hfirst) _

theorem asked_writeLine {request : Json} (h : Sendable T request) (rest : List (List UInt8)) :
    asked T (writeLine T request :: rest) = .ok request :: asked T rest := by
  rw [asked, decode_writeLine]
  simp only [Nat.not_lt.mpr h.short, ↓reduceIte, trim_line h.fits, read_line h.fits]

/-- What is asked by a line that was cut off: at most the request itself, of which only the
newline is missing, and otherwise nothing that `handle` gets to see. -/
theorem asked_part {request : Json} (h : Sendable T request) {part : List UInt8}
    (hpart : part <+: Utf8.encode (write T.floats compact 0 request)) :
    (part = Utf8.encode (write T.floats compact 0 request) ∧
      asked T (lines part) = [.ok request]) ∨
    (part ≠ Utf8.encode (write T.floats compact 0 request) ∧
      ∃ errors : List (List Char), errors.length ≤ 1 ∧
        asked T (lines part) = errors.map fun line => .error (T.error line)) := by
  have hnewline : newline ∉ part := fun hmem => newline_not_mem_text h.fits (hpart.subset hmem)
  have hshort : ¬part.length > 1024 * 1024 := by
    have hle := hpart.length_le
    have hline := h.short
    rw [writeLine_eq, List.length_append] at hline
    omega
  by_cases hwhole : part = Utf8.encode (write T.floats compact 0 request)
  · have htrim := trim_line (T := T) h.fits []
    have hnone : ∀ c ∈ ([] : List Char), blank c = true := fun _ hc => by cases hc
    have hread := read_write T.floats compact h.fits hnone
    rw [List.append_nil] at htrim hread
    have hdecode : Utf8.decode part = some (write T.floats compact 0 request) :=
      Utf8.decode_eq_some_iff.mpr hwhole.symm
    have hne : part ≠ [] := by
      rintro rfl
      have hnil : write T.floats compact 0 request = [] := (Option.some.inj hdecode).symm
      rw [hnil] at htrim
      exact htrim rfl
    refine Or.inl ⟨hwhole, ?_⟩
    rw [lines_of_not_mem hne hnewline, asked, asked, hdecode]
    simp only [hshort, ↓reduceIte, if_neg htrim, hread]
  · refine Or.inr ⟨hwhole, ?_⟩
    by_cases hne : part = []
    · exact ⟨[], Nat.zero_le 1, by rw [hne]; rfl⟩
    rw [lines_of_not_mem hne hnewline, asked, asked]
    cases hdecode : Utf8.decode part with
    | none => exact ⟨[], Nat.zero_le 1, rfl⟩
    | some line =>
      have hbytes := Utf8.decode_eq_some_iff.mp hdecode
      have hcut : line ≠ write T.floats compact 0 request := by
        rintro rfl
        exact hwhole hbytes.symm
      rw [← hbytes] at hpart
      have hline := Utf8.encode_prefix.mp hpart
      simp only [hshort, ↓reduceIte]
      split_ifs with hblank
      · exact ⟨[], Nat.zero_le 1, rfl⟩
      · rw [read_of_cut T.floats compact h.fits h.closed hline hcut]
        exact ⟨[line], Nat.le_refl 1, rfl⟩

/-- The first `n` requests have arrived whole, up to the newline of the last one, and no more. -/
structure Arrived (T : Texts) (requests : List Json) (cut : List UInt8) (n : ℕ) : Prop where
  length : n ≤ requests.length
  iff : ∀ k ≤ requests.length,
    (requests.take k).flatMap (writeLine T) <+: cut ++ [newline] ↔ k ≤ n

theorem Arrived.cons {request : Json} {requests : List Json} {cut : List UInt8} {n : ℕ}
    (h : Arrived T requests cut n) :
    Arrived T (request :: requests) (writeLine T request ++ cut) (n + 1) where
  length := Nat.succ_le_succ h.length
  iff k hk := by
    cases k with
    | zero => exact iff_of_true List.nil_prefix (Nat.zero_le _)
    | succ k =>
      rw [List.take_succ_cons, List.flatMap_cons, List.append_assoc,
        List.prefix_append_right_inj, h.iff k (Nat.le_of_succ_le_succ hk), Nat.succ_le_succ_iff]

/-- The stream ends within the line of a request. -/
theorem arrived_part {request : Json} {requests : List Json} {part : List UInt8}
    (hpart : part <+: Utf8.encode (write T.floats compact 0 request)) :
    Arrived T (request :: requests) part
      (if part = Utf8.encode (write T.floats compact 0 request) then 1 else 0) where
  length := by
    rw [List.length_cons]
    split <;> omega
  iff k hk := by
    have hlength (value : Json) : 0 < (writeLine T value).length := by
      rw [writeLine_eq, List.length_append, List.length_singleton]
      omega
    have hle := hpart.length_le
    match k with
    | 0 => exact iff_of_true List.nil_prefix (Nat.zero_le _)
    | 1 =>
      rw [List.take_succ_cons, List.take_zero, List.flatMap_cons, List.flatMap_nil,
        List.append_nil, writeLine_eq]
      split
      · next hwhole =>
        rw [hwhole]
        exact iff_of_true List.prefix_rfl le_rfl
      · next hcut =>
        refine iff_of_false (fun hprefix => hcut ?_) (by omega)
        have hlong := hprefix.length_le
        rw [List.length_append, List.length_append] at hlong
        exact hpart.eq_of_length (by omega)
    | k + 2 =>
      refine iff_of_false (fun hprefix => ?_) (by split <;> omega)
      have hlong := hprefix.length_le
      obtain ⟨other, rest, rfl⟩ : ∃ other rest, requests = other :: rest := by
        cases requests with
        | nil => rw [List.length_singleton] at hk; omega
        | cons other rest => exact ⟨other, rest, rfl⟩
      rw [List.take_succ_cons, List.take_succ_cons, List.flatMap_cons, List.flatMap_cons,
        List.length_append, List.length_append, List.length_append, List.length_singleton] at hlong
      have hother := hlength other
      have hfirst : (writeLine T request).length =
          (Utf8.encode (write T.floats compact 0 request)).length + 1 := by
        rw [writeLine_eq, List.length_append, List.length_singleton]
      omega

theorem asked_cut {requests : List Json} (h : ∀ request ∈ requests, Sendable T request)
    {cut : List UInt8} (hcut : cut <+: requests.flatMap (writeLine T)) :
    ∃ (n : ℕ) (errors : List (List Char)), errors.length ≤ 1 ∧ Arrived T requests cut n ∧
      asked T (lines cut) =
        (requests.take n).map .ok ++ errors.map (fun line => .error (T.error line)) ∧
      (cut = requests.flatMap (writeLine T) → n = requests.length ∧ errors = []) := by
  induction requests generalizing cut with
  | nil =>
    rw [List.flatMap_nil, List.prefix_nil] at hcut
    subst hcut
    refine ⟨0, [], Nat.zero_le 1, ⟨le_rfl, fun k hk => ?_⟩, rfl, fun _ => ⟨rfl, rfl⟩⟩
    rw [List.take_nil]
    exact iff_of_true List.nil_prefix hk
  | cons request requests ih =>
    have hrequest := h request List.mem_cons_self
    rw [List.flatMap_cons] at hcut ⊢
    by_cases hlong : writeLine T request <+: cut
    · obtain ⟨rest, rfl⟩ := hlong
      rw [List.prefix_append_right_inj] at hcut
      obtain ⟨n, errors, hone, harrived, hasked, hall⟩ :=
        ih (fun other hmem => h other (List.mem_cons_of_mem request hmem)) hcut
      refine ⟨n + 1, errors, hone, harrived.cons, ?_, ?_⟩
      · rw [lines_writeLine hrequest.fits, asked_writeLine hrequest, hasked]
        rfl
      · intro heq
        obtain ⟨hlength, hnone⟩ := hall (List.append_cancel_left heq)
        exact ⟨congrArg (· + 1) hlength, hnone⟩
    · -- the stream ends within the line of this request
      have hpart : cut <+: Utf8.encode (write T.floats compact 0 request) := by
        have hshort := (List.prefix_or_prefix_of_prefix hcut (List.prefix_append _ _)).resolve_right
          hlong
        rw [writeLine_eq, List.prefix_concat_iff, ← writeLine_eq] at hshort
        exact hshort.resolve_left fun heq => hlong (heq ▸ List.prefix_rfl)
      have hnot : cut ≠ writeLine T request ++ requests.flatMap (writeLine T) := by
        rintro rfl
        exact hlong (List.prefix_append _ _)
      have harrived : Arrived T (request :: requests) cut _ := arrived_part hpart
      rcases asked_part hrequest hpart with ⟨hwhole, hasked⟩ | ⟨hwhole, errors, hone, hasked⟩
      · rw [if_pos hwhole] at harrived
        exact ⟨1, [], Nat.zero_le 1, harrived, hasked, fun heq => absurd heq hnot⟩
      · rw [if_neg hwhole] at harrived
        exact ⟨0, errors, hone, harrived, hasked, fun heq => absurd heq hnot⟩

variable {handle : ℕ → Json → Except String Json}

/-- Clients may send any number of requests on a connection before they read an answer, and may
stop at any byte, and the write of any answer may fail. With `n` requests arrived whole, and at
most one error for what was cut off: `handle` gets those, in their order and no others, up to the
one whose answer cannot be written, and each is answered on a line of its own. -/
theorem requests_are_answered {requests : List Json}
    (hrequests : ∀ request ∈ requests, Sendable T request)
    (hfits : ∀ count request value, handle count request = .ok value → fits 126 value = true)
    {cut : List UInt8} (hcut : cut <+: requests.flatMap (writeLine T))
    (failure : Option WriteFailure) :
    ∃ (n : ℕ) (errors : List (List Char)), errors.length ≤ 1 ∧ Arrived T requests cut n ∧
      (serveConnection T handle failure cut).requests =
        (requests.take n).take (WriteFailure.whole failure (n + errors.length) + 1) ∧
      Written T ((requests.take n).mapIdx handle ++ errors.map fun line => .error (T.error line))
        (WriteFailure.whole failure (n + errors.length))
        (serveConnection T handle failure cut).output ∧
      (cut = requests.flatMap (writeLine T) → n = requests.length ∧ errors = []) := by
  obtain ⟨n, errors, hone, harrived, hasked, hall⟩ := asked_cut hrequests hcut
  obtain ⟨hcalls, hwritten⟩ := serveLines_answers hfits 0 failure (lines cut)
  have hanswers : answers handle 0 (asked T (lines cut)) =
      (requests.take n).mapIdx handle ++ errors.map fun line => .error (T.error line) := by
    rw [hasked, answers_map, answers_errors]
    simp only [Nat.zero_add]
  have hlength : (answers handle 0 (asked T (lines cut))).length = n + errors.length := by
    rw [hanswers, List.length_append, List.length_mapIdx, List.length_map, List.length_take,
      Nat.min_eq_left harrived.length]
  rw [hlength] at hcalls hwritten
  rw [hanswers] at hwritten
  refine ⟨n, errors, hone, harrived, ?_, hwritten, hall⟩
  have hsent (sent : List Json) :
      sent.filterMap (Except.toOption ∘ Except.ok (ε := String)) = sent := List.filterMap_some
  have hnone (lost : List (List Char)) :
      lost.filterMap (Except.toOption ∘ fun line => Except.error (T.error line)) =
        ([] : List Json) := by
    rw [List.filterMap_eq_nil_iff]
    exact fun _ _ => rfl
  rw [serveConnection, hcalls, hasked, List.take_append, List.filterMap_append, ← List.map_take,
    ← List.map_take, List.filterMap_map, List.filterMap_map, hsent, hnone, List.append_nil]

def sampleTexts : Texts where
  floats := ⟨fun _ => ['0', '.', '0'], fun _ => none⟩
  error _ := "EOF while parsing a value at line 1 column 0"
  invalidUtf8 := "stream did not contain valid UTF-8"

def pingRequest : Json := .obj [("method", .str "ping")]

theorem sendable_pingRequest : Sendable sampleTexts pingRequest :=
  ⟨rfl, rfl, by decide +kernel⟩

/-- Three requests, of which the last one was cut off behind its second byte. -/
def sampleCut : List UInt8 :=
  ([pingRequest, pingRequest].flatMap (writeLine sampleTexts)) ++
    (writeLine sampleTexts pingRequest).take 2

theorem requests_are_answered_of_three :
    ∃ (n : ℕ) (errors : List (List Char)), errors.length ≤ 1 ∧
      Arrived sampleTexts (List.replicate 3 pingRequest) sampleCut n ∧
      (serveConnection sampleTexts (fun count _ => .ok (.num (.posInt (count % 10))))
        (some ⟨1, 4⟩) sampleCut).requests = ((List.replicate 3 pingRequest).take n).take 2 := by
  have hrequests : ∀ request ∈ List.replicate 3 pingRequest, Sendable sampleTexts request := by
    intro request hmem
    rw [List.eq_of_mem_replicate hmem]
    exact sendable_pingRequest
  have hfits : ∀ count (_ : Json) value, (Except.ok (.num (.posInt (count % 10))) :
      Except String Json) = .ok value → fits 126 value = true := by
    intro count _ value hvalue
    obtain rfl := Except.ok.inj hvalue
    have hlt : count % 10 < 2 ^ 64 := by omega
    simp only [fits, fitsNumber, hlt, decide_true]
  have hcut : sampleCut <+: (List.replicate 3 pingRequest).flatMap (writeLine sampleTexts) := by
    decide +kernel
  obtain ⟨n, errors, hone, harrived, hcalls, -⟩ :=
    requests_are_answered hrequests hfits hcut (some ⟨1, 4⟩)
  exact ⟨n, errors, hone, harrived, hcalls⟩

/-- The command gets exactly what the daemon's `handle` returned for its request, which is called
once; a request on a line of more than 1 MiB is not handled, and the command fails. -/
theorem rpc_is_handle {request : Json} (hrequest : fits 127 request = true)
    (hfits : ∀ count request value, handle count request = .ok value → fits 126 value = true) :
    if (writeLine T request).length ≤ 1024 * 1024 then
      rpc T handle request = handle 0 request ∧
        (serveConnection T handle none (writeLine T request)).requests = [request]
    else
      rpc T handle request = .error (T.error []) ∧
        (serveConnection T handle none (writeLine T request)).requests = [] ∧
        (serveConnection T handle none (writeLine T request)).ending = .exceeds := by
  have hline : lines (writeLine T request) = [writeLine T request] := by
    have hlines := lines_writeLine (T := T) hrequest []
    rwa [List.append_nil] at hlines
  have hread := read_line (T := T) hrequest
  have htrim := trim_line (T := T) hrequest ['\n']
  split_ifs with hshort
  · have hserved : serveConnection T handle none (writeLine T request) =
        ⟨[request], writeLine T (response (handle 0 request)), .closed⟩ := by
      rw [serveConnection, hline, serveLines, decode_writeLine]
      simp only [Nat.not_lt.mpr hshort, ↓reduceIte, htrim, hread, serveLines, Served.answer,
        List.append_nil]
    have hresult := hfits 0 request
    have houtput := lines_writeLine (T := T) (fits_response hresult) []
    rw [List.append_nil] at houtput
    rw [rpc, hserved]
    simp only
    rw [houtput, List.headD_cons, rpcResult_response hresult]
    exact ⟨rfl, trivial⟩
  · have hserved : serveConnection T handle none (writeLine T request) = ⟨[], [], .exceeds⟩ := by
      rw [serveConnection, hline, serveLines, decode_writeLine]
      simp only [Nat.lt_of_not_le hshort, ↓reduceIte]
    rw [rpc, hserved]
    exact ⟨rfl, rfl, rfl⟩

theorem rpc_is_handle_of_ping :
    if (writeLine sampleTexts pingRequest).length ≤ 1024 * 1024 then
      rpc sampleTexts (fun _ _ => .error "unknown project") pingRequest = .error "unknown project" ∧
        (serveConnection sampleTexts (fun _ _ => .error "unknown project") none
          (writeLine sampleTexts pingRequest)).requests = [pingRequest]
    else
      rpc sampleTexts (fun _ _ => .error "unknown project") pingRequest =
          .error (sampleTexts.error []) ∧
        (serveConnection sampleTexts (fun _ _ => .error "unknown project") none
          (writeLine sampleTexts pingRequest)).requests = [] ∧
        (serveConnection sampleTexts (fun _ _ => .error "unknown project") none
          (writeLine sampleTexts pingRequest)).ending = .exceeds :=
  rpc_is_handle sendable_pingRequest.fits fun _ _ _ h => by cases h

end Requests

end Connection

end Resync
