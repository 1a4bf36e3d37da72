import Resync.Lib.CrashDisk
import Resync.Lib.Runs
import Resync.Lib.Splitting
import Resync.QueueFile

/-! `write_json` and `read_json` (`state.rs`) on the files of one directory, in any number of
processes. Each system call is a step of its own, any of them may fail, a process may die between
two of them, and the machine may lose its power. A process has at most one call at a time for each
document. -/
namespace Resync

variable {V : Type}

/-- The name of a document without its extension `json`. -/
@[ext] structure DocumentName where
  stem : List Char
  nonempty : stem ≠ []
deriving DecidableEq

namespace DocumentName

def fileName (doc : DocumentName) : List Char := doc.stem ++ ".json".toList

end DocumentName

/-- `Path::file_stem`, for the name of a file. -/
def fileStem (name : List Char) : List Char :=
  match name.reverse.dropWhile (· ≠ '.') with
  | _ :: c :: rest => (c :: rest).reverse
  | _ => name

/-- `Path::with_extension`, for the name of a file and an extension that is not empty. -/
def withExtension (name extension : List Char) : List Char := fileStem name ++ '.' :: extension

/-- The file that the process `pid` writes before it takes the place of the document. -/
def temporaryName (doc : DocumentName) (pid : ℕ) : List Char :=
  withExtension doc.fileName ((Nat.repr pid).toList ++ ".tmp".toList)

/-- Where a call of `write_json` stands. -/
inductive DocumentWrite (V : Type) where
  | idle
  | called (value : V)
  /-- The file is open, and `rest` is still to be written. -/
  | writing (value : V) (file : ℕ) (rest : List UInt8)
  | synced (value : V)
  /-- The file has its mode. -/
  | permitted (value : V)
  /-- The document is replaced, and its directory is not synced yet. -/
  | replaced (value : V)

structure DocumentWorld (V : Type) where
  disk : CrashDisk.Disk (List Char) UInt8
  writes : ℕ → DocumentName → DocumentWrite V

inductive DocumentEvent (V : Type) where
  | call (pid : ℕ) (doc : DocumentName) (value : V)
  | openFile (pid : ℕ) (doc : DocumentName)
  | write (pid : ℕ) (doc : DocumentName) (count : ℕ)
  | syncFile (pid : ℕ) (doc : DocumentName)
  | setMode (pid : ℕ) (doc : DocumentName)
  | rename (pid : ℕ) (doc : DocumentName)
  /-- The last step, after which the call returns `Ok(())`. -/
  | syncParent (pid : ℕ) (doc : DocumentName)
  | fail (pid : ℕ) (doc : DocumentName)
  | die (pid : ℕ)
  | losePower (view : ℕ) (left : ℕ → List UInt8)

namespace DocumentWorld

def setWrite (w : DocumentWorld V) (pid : ℕ) (doc : DocumentName) (c : DocumentWrite V) :
    ℕ → DocumentName → DocumentWrite V :=
  Function.update w.writes pid (Function.update (w.writes pid) doc c)

/-- `text` is what `to_writer_pretty` writes of a value, with the newline after it. -/
def step (text : V → List UInt8) (w : DocumentWorld V) :
    DocumentEvent V → Option (DocumentWorld V)
  | .call pid doc value =>
    match w.writes pid doc with
    | .idle => some { w with writes := w.setWrite pid doc (.called value) }
    | _ => none
  | .openFile pid doc =>
    match w.writes pid doc with
    | .called value =>
      -- an earlier process with the same PID may have left the file; it is emptied
      let (file, disk) := w.disk.truncate (temporaryName doc pid)
      some ⟨disk, w.setWrite pid doc (.writing value file (text value))⟩
    | _ => none
  | .write pid doc count =>
    match w.writes pid doc with
    | .writing value file rest =>
      -- any part of the text, so that a process may die anywhere in it
      some ⟨w.disk.append file (rest.take count),
        w.setWrite pid doc (.writing value file (rest.drop count))⟩
    | _ => none
  | .syncFile pid doc =>
    match w.writes pid doc with
    | .writing value file [] => some ⟨w.disk.sync file, w.setWrite pid doc (.synced value)⟩
    | _ => none
  | .setMode pid doc =>
    match w.writes pid doc with
    | .synced value => some { w with writes := w.setWrite pid doc (.permitted value) }
    | _ => none
  | .rename pid doc =>
    match w.writes pid doc with
    | .permitted value =>
      -- from here on the new document is read, whatever the call returns
      (w.disk.rename (temporaryName doc pid) doc.fileName).map fun disk =>
        ⟨disk, w.setWrite pid doc (.replaced value)⟩
    | _ => none
  | .syncParent pid doc =>
    match w.writes pid doc with
    | .replaced _ => some ⟨w.disk.syncNames, w.setWrite pid doc .idle⟩
    | _ => none
  | .fail pid doc => some { w with writes := w.setWrite pid doc .idle }
  -- the temporary files of the process stay
  | .die pid => some { w with writes := Function.update w.writes pid fun _ => .idle }
  | .losePower view left => some ⟨w.disk.losePower view left, fun _ _ => .idle⟩

/-- `read_json`. -/
def readJson (parse : List UInt8 → Option V) (w : DocumentWorld V) (doc : DocumentName)
    (fallback : V) : Except String V :=
  match w.disk.read doc.fileName with
  | none => .ok fallback
  | some bytes =>
    match parse bytes with
    | some value => .ok value
    | none => .error ("invalid JSON in " ++ String.ofList doc.fileName)

end DocumentWorld

section Names

theorem fileStem_fileName (doc : DocumentName) : fileStem doc.fileName = doc.stem := by
  obtain ⟨c, rest, hstem⟩ := List.exists_cons_of_ne_nil
    (fun h => doc.nonempty (List.reverse_eq_nil_iff.mp h))
  have hdrop : doc.fileName.reverse.dropWhile (· ≠ '.') = '.' :: c :: rest := by
    rw [DocumentName.fileName, List.reverse_append, hstem]
    rfl
  rw [fileStem, hdrop]
  change (c :: rest).reverse = doc.stem
  rw [← hstem, List.reverse_reverse]

theorem temporaryName_eq (doc : DocumentName) (pid : ℕ) : temporaryName doc pid =
    doc.stem ++ '.' :: ((Nat.repr pid).toList ++ ".tmp".toList) := by
  rw [temporaryName, withExtension, fileStem_fileName]

theorem dot_not_mem_repr (pid : ℕ) : '.' ∉ (Nat.repr pid).toList := by
  intro h
  rw [Nat.toList_repr] at h
  have hdigit := Nat.isDigit_of_mem_toDigits (by decide) (by decide) h
  exact absurd hdigit (by decide)

/-- No two calls share a file. -/
theorem temporaryName_inj {doc doc' : DocumentName} {pid pid' : ℕ}
    (h : temporaryName doc pid = temporaryName doc' pid') : doc = doc' ∧ pid = pid' := by
  rw [temporaryName_eq, temporaryName_eq] at h
  have hcut : doc.stem ++ '.' :: (Nat.repr pid).toList =
      doc'.stem ++ '.' :: (Nat.repr pid').toList := by
    rw [← List.cons_append, ← List.cons_append, ← List.append_assoc, ← List.append_assoc] at h
    exact List.append_cancel_right h
  have hreverse := congrArg List.reverse hcut
  simp only [List.reverse_append, List.reverse_cons, List.append_assoc,
    List.singleton_append] at hreverse
  have hdot (pid : ℕ) : '.' ∉ (Nat.repr pid).toList.reverse := fun hmem =>
    dot_not_mem_repr pid (List.mem_reverse.mp hmem)
  obtain ⟨hpid, hstem⟩ := Splitting.append_separator_inj (hdot pid) (hdot pid') hreverse
  have hstem : doc.stem = doc'.stem := List.reverse_injective hstem
  have hdigits := List.reverse_injective hpid
  rw [Nat.toList_repr, Nat.toList_repr] at hdigits
  have hvalue := congrArg (fun cs => Nat.ofDigitChars 10 cs 0) hdigits
  simp only [Nat.ofDigitChars_ten_toDigits] at hvalue
  exact ⟨DocumentName.ext hstem, hvalue⟩

theorem fileName_inj {doc doc' : DocumentName} (h : doc.fileName = doc'.fileName) :
    doc = doc' := by
  have hstem : doc.stem = doc'.stem := List.append_cancel_right h
  exact DocumentName.ext hstem

def IsDocument (name : List Char) : Prop := ∃ doc : DocumentName, doc.fileName = name

theorem isDocument_fileName (doc : DocumentName) : IsDocument doc.fileName := ⟨doc, rfl⟩

theorem not_isDocument_temporaryName (doc : DocumentName) (pid : ℕ) :
    ¬ IsDocument (temporaryName doc pid) := by
  rintro ⟨doc', h⟩
  have hlast := congrArg List.getLast? h
  rw [temporaryName_eq, DocumentName.fileName, List.getLast?_append, ← List.cons_append,
    ← List.append_assoc, List.getLast?_append] at hlast
  change some 'n' = some 'p' at hlast
  exact absurd hlast (by decide)

theorem temporaryName_ne_fileName (doc doc' : DocumentName) (pid : ℕ) :
    doc'.fileName ≠ temporaryName doc pid := fun h =>
  not_isDocument_temporaryName doc pid ⟨doc', h⟩

end Names

open CrashDisk

section Steps

variable {text : V → List UInt8} {w w' : DocumentWorld V} {e : DocumentEvent V}
  {pid pid' : ℕ} {doc doc' : DocumentName}

/-- The forms of a step. -/
inductive DocumentStep (text : V → List UInt8) (w : DocumentWorld V) :
    DocumentEvent V → DocumentWorld V → Prop
  | call {pid : ℕ} {doc : DocumentName} {value : V} :
      DocumentStep text w (.call pid doc value)
        { w with writes := w.setWrite pid doc (.called value) }
  | openFile {pid : ℕ} {doc : DocumentName} {value : V} (stage : w.writes pid doc = .called value) :
      DocumentStep text w (.openFile pid doc)
        ⟨(w.disk.truncate (temporaryName doc pid)).2, w.setWrite pid doc
          (.writing value (w.disk.truncate (temporaryName doc pid)).1 (text value))⟩
  | write {pid : ℕ} {doc : DocumentName} {value : V} {file : ℕ} {rest : List UInt8} (count : ℕ)
      (stage : w.writes pid doc = .writing value file rest) :
      DocumentStep text w (.write pid doc count)
        ⟨w.disk.append file (rest.take count),
          w.setWrite pid doc (.writing value file (rest.drop count))⟩
  | syncFile {pid : ℕ} {doc : DocumentName} {value : V} {file : ℕ}
      (stage : w.writes pid doc = .writing value file []) :
      DocumentStep text w (.syncFile pid doc)
        ⟨w.disk.sync file, w.setWrite pid doc (.synced value)⟩
  | setMode {pid : ℕ} {doc : DocumentName} {value : V} (stage : w.writes pid doc = .synced value) :
      DocumentStep text w (.setMode pid doc)
        { w with writes := w.setWrite pid doc (.permitted value) }
  | rename {pid : ℕ} {doc : DocumentName} {value : V} {disk : CrashDisk.Disk (List Char) UInt8}
      (stage : w.writes pid doc = .permitted value)
      (renamed : w.disk.rename (temporaryName doc pid) doc.fileName = some disk) :
      DocumentStep text w (.rename pid doc) ⟨disk, w.setWrite pid doc (.replaced value)⟩
  | syncParent {pid : ℕ} {doc : DocumentName} {value : V}
      (stage : w.writes pid doc = .replaced value) :
      DocumentStep text w (.syncParent pid doc) ⟨w.disk.syncNames, w.setWrite pid doc .idle⟩
  | fail {pid : ℕ} {doc : DocumentName} :
      DocumentStep text w (.fail pid doc) { w with writes := w.setWrite pid doc .idle }
  | die {pid : ℕ} :
      DocumentStep text w (.die pid)
        { w with writes := Function.update w.writes pid fun _ => .idle }
  | losePower {view : ℕ} {left : ℕ → List UInt8} :
      DocumentStep text w (.losePower view left) ⟨w.disk.losePower view left, fun _ _ => .idle⟩

theorem documentStep_of_step (h : w.step text e = some w') : DocumentStep text w e w' := by
  cases e with
  | call pid doc value =>
    simp only [DocumentWorld.step] at h
    split at h
    · exact Option.some.inj h ▸ .call
    · cases h
  | openFile pid doc =>
    simp only [DocumentWorld.step] at h
    split at h
    · next hstage => exact Option.some.inj h ▸ .openFile hstage
    · cases h
  | write pid doc count =>
    simp only [DocumentWorld.step] at h
    split at h
    · next hstage => exact Option.some.inj h ▸ .write count hstage
    · cases h
  | syncFile pid doc =>
    simp only [DocumentWorld.step] at h
    split at h
    · next hstage => exact Option.some.inj h ▸ .syncFile hstage
    · cases h
  | setMode pid doc =>
    simp only [DocumentWorld.step] at h
    split at h
    · next hstage => exact Option.some.inj h ▸ .setMode hstage
    · cases h
  | rename pid doc =>
    simp only [DocumentWorld.step] at h
    split at h
    · next hstage =>
      obtain ⟨disk, hdisk, heq⟩ := Option.map_eq_some_iff.mp h
      exact heq ▸ .rename hstage hdisk
    · cases h
  | syncParent pid doc =>
    simp only [DocumentWorld.step] at h
    split at h
    · next hstage => exact Option.some.inj h ▸ .syncParent hstage
    · cases h
  | fail pid doc => exact Option.some.inj h ▸ .fail
  | die pid => exact Option.some.inj h ▸ .die
  | losePower view left => exact Option.some.inj h ▸ .losePower

theorem setWrite_self (w : DocumentWorld V) (pid : ℕ) (doc : DocumentName) (c : DocumentWrite V) :
    w.setWrite pid doc c pid doc = c := by
  rw [DocumentWorld.setWrite, Function.update_self, Function.update_self]

theorem setWrite_of_ne (w : DocumentWorld V) (c : DocumentWrite V)
    (h : (pid', doc') ≠ (pid, doc)) : w.setWrite pid doc c pid' doc' = w.writes pid' doc' := by
  rw [DocumentWorld.setWrite]
  by_cases hpid : pid' = pid
  · have hdoc : doc' ≠ doc := fun heq => h (by rw [hpid, heq])
    rw [hpid, Function.update_self, Function.update_of_ne hdoc]
  · rw [Function.update_of_ne hpid]

end Steps

/-- What the file of a call holds. -/
def Holds (text : V → List UInt8) (d : CrashDisk.Disk (List Char) UInt8) (pid : ℕ)
    (doc : DocumentName) : DocumentWrite V → Prop
  | .writing value file rest =>
    d.names (temporaryName doc pid) = some file ∧ d.content file ++ rest = text value
  | .synced value | .permitted value =>
    ∃ file, d.names (temporaryName doc pid) = some file ∧ d.content file = text value ∧
      d.synced file = true
  | _ => True

/-- The disk between its calls: each document is a file that is replaced as a whole. -/
structure Tracked (text : V → List UInt8) (w : DocumentWorld V)
    (files : DocumentName → AtomicFile (Option V)) : Prop where
  sound : Sound IsDocument w.disk
  shows : ∀ doc, Shows text w.disk doc.fileName (files doc)
  holds : ∀ pid doc, Holds text w.disk pid doc (w.writes pid doc)

/-- What a step does to a document: only a rename replaces it. -/
inductive Effect (w : DocumentWorld V) (doc : DocumentName) :
    DocumentEvent V → List (AtomicFile.Event (Option V)) → Prop
  | replace {pid : ℕ} {value : V} (stage : w.writes pid doc = .permitted value) :
      Effect w doc (.rename pid doc) [.replace (some value)]
  | rename {pid : ℕ} {doc' : DocumentName} (other : doc ≠ doc') : Effect w doc (.rename pid doc') []
  | settle {pid : ℕ} {doc' : DocumentName} : Effect w doc (.syncParent pid doc') [.settle]
  | losePower {view : ℕ} {left : ℕ → List UInt8} (x : Option V) :
      Effect w doc (.losePower view left) [.losePower x]
  | call {pid : ℕ} {doc' : DocumentName} {value : V} : Effect w doc (.call pid doc' value) []
  | openFile {pid : ℕ} {doc' : DocumentName} : Effect w doc (.openFile pid doc') []
  | write {pid : ℕ} {doc' : DocumentName} {count : ℕ} : Effect w doc (.write pid doc' count) []
  | syncFile {pid : ℕ} {doc' : DocumentName} : Effect w doc (.syncFile pid doc') []
  | setMode {pid : ℕ} {doc' : DocumentName} : Effect w doc (.setMode pid doc') []
  | fail {pid : ℕ} {doc' : DocumentName} : Effect w doc (.fail pid doc') []
  | die {pid : ℕ} : Effect w doc (.die pid) []

section Tracking

variable {text : V → List UInt8} {w w' : DocumentWorld V} {e : DocumentEvent V}
  {pid pid' : ℕ} {doc doc' : DocumentName} {files : DocumentName → AtomicFile (Option V)}
  {d d' : CrashDisk.Disk (List Char) UInt8} {c : DocumentWrite V}

theorem Holds.keep (h : Holds text d pid doc c) (hkeep : Keeps d d' (temporaryName doc pid)) :
    Holds text d' pid doc c := by
  cases c with
  | writing value file rest =>
    obtain ⟨hname, hcontent, -⟩ := hkeep file h.1
    exact ⟨hname, hcontent ▸ h.2⟩
  | synced value | permitted value =>
    obtain ⟨file, hname, hcontent, hsynced⟩ := h
    obtain ⟨hname', hcontent', hsynced'⟩ := hkeep file hname
    exact ⟨file, hname', hcontent'.trans hcontent, hsynced' hsynced⟩
  | _ => trivial

/-- One call goes on, and the files of the other calls stay. -/
theorem Tracked.holds_set (h : Tracked text w files) (hself : Holds text d pid doc c)
    (hkeep : ∀ name, name ≠ temporaryName doc pid → ¬ IsDocument name → Keeps w.disk d name)
    (pid' : ℕ) (doc' : DocumentName) : Holds text d pid' doc' (w.setWrite pid doc c pid' doc') := by
  by_cases heq : (pid', doc') = (pid, doc)
  · obtain ⟨rfl, rfl⟩ := Prod.mk.inj heq
    rwa [setWrite_self]
  · have hne : temporaryName doc' pid' ≠ temporaryName doc pid := fun hname => by
      obtain ⟨rfl, rfl⟩ := temporaryName_inj hname
      exact heq rfl
    rw [setWrite_of_ne w c heq]
    exact (h.holds pid' doc').keep (hkeep _ hne (not_isDocument_temporaryName doc' pid'))

/-- A step that leaves the disk alone. -/
theorem Tracked.set (h : Tracked text w files) (hself : Holds text w.disk pid doc c) :
    Tracked text { w with writes := w.setWrite pid doc c } files where
  sound := h.sound
  shows := h.shows
  holds := h.holds_set hself fun name _ _ => Keeps.refl w.disk name

theorem Tracked.openFile (h : Tracked text w files) (pid : ℕ) (doc : DocumentName) (value : V) :
    Tracked text ⟨(w.disk.truncate (temporaryName doc pid)).2, w.setWrite pid doc
      (.writing value (w.disk.truncate (temporaryName doc pid)).1 (text value))⟩ files := by
  have hnot := not_isDocument_temporaryName doc pid
  have hself : Holds text (w.disk.truncate (temporaryName doc pid)).2 pid doc
      (.writing value (w.disk.truncate (temporaryName doc pid)).1 (text value)) := by
    refine ⟨names_truncate _ _, ?_⟩
    rw [content_truncate, List.nil_append]
  exact
    { sound := h.sound.truncate hnot
      shows := fun doc' => (h.shows doc').truncate h.sound (isDocument_fileName doc') hnot
      holds := h.holds_set hself fun _ hne _ => Keeps.truncate h.sound hne }

theorem Tracked.write (h : Tracked text w files) {value : V} {file : ℕ} {rest : List UInt8}
    (count : ℕ) (hstage : w.writes pid doc = .writing value file rest) :
    Tracked text ⟨w.disk.append file (rest.take count),
      w.setWrite pid doc (.writing value file (rest.drop count))⟩ files := by
  have hnot := not_isDocument_temporaryName doc pid
  have hholds := h.holds pid doc
  rw [hstage] at hholds
  obtain ⟨hname, hcontent⟩ := hholds
  have hself : Holds text (w.disk.append file (rest.take count)) pid doc
      (.writing value file (rest.drop count)) := by
    refine ⟨hname, ?_⟩
    change Function.update w.disk.content file (w.disk.content file ++ rest.take count) file ++ _ = _
    rw [Function.update_self, List.append_assoc, List.take_append_drop, hcontent]
  exact
    { sound := h.sound.append hnot hname _
      shows := fun doc' =>
        (h.shows doc').append h.sound (isDocument_fileName doc') hnot hname _
      holds := h.holds_set hself fun _ hne _ => Keeps.write h.sound hne hname rfl rfl }

theorem Tracked.syncFile (h : Tracked text w files) {value : V} {file : ℕ}
    (hstage : w.writes pid doc = .writing value file []) :
    Tracked text ⟨w.disk.sync file, w.setWrite pid doc (.synced value)⟩ files := by
  have hholds := h.holds pid doc
  rw [hstage] at hholds
  obtain ⟨hname, hcontent⟩ := hholds
  rw [List.append_nil] at hcontent
  have hself : Holds text (w.disk.sync file) pid doc (.synced value) :=
    ⟨file, hname, hcontent, Function.update_self ..⟩
  exact
    { sound := h.sound.sync file
      shows := fun doc' => (h.shows doc').sync file
      holds := h.holds_set hself fun _ hne _ =>
        Keeps.write h.sound hne hname (Function.update_eq_self file w.disk.content).symm rfl }

theorem Tracked.rename (h : Tracked text w files) {value : V}
    (hstage : w.writes pid doc = .permitted value)
    (hrenamed : w.disk.rename (temporaryName doc pid) doc.fileName = some d) :
    Tracked text ⟨d, w.setWrite pid doc (.replaced value)⟩
      (Function.update files doc ((files doc).replace (some value))) := by
  have hholds := h.holds pid doc
  rw [hstage] at hholds
  obtain ⟨file, hname, hcontent, hsynced⟩ := hholds
  have hself : Holds text d pid doc (.replaced value) := trivial
  exact
    { sound := h.sound.rename (isDocument_fileName doc) hname hsynced hrenamed
      shows := fun doc' => by
        by_cases heq : doc' = doc
        · rw [heq, Function.update_self]
          exact (h.shows doc).rename hname hcontent hrenamed
        · rw [Function.update_of_ne heq]
          refine (h.shows doc').rename_of_ne (temporaryName_ne_fileName doc doc' pid) ?_ hrenamed
          exact fun hfile => heq (fileName_inj hfile)
      holds := h.holds_set hself fun name hne hnot =>
        Keeps.rename hne (fun hfile => hnot (hfile ▸ isDocument_fileName doc)) hrenamed }

theorem Tracked.syncParent (h : Tracked text w files) (pid : ℕ) (doc : DocumentName) :
    Tracked text ⟨w.disk.syncNames, w.setWrite pid doc .idle⟩ fun doc' => (files doc').settle where
  sound := h.sound.syncNames
  shows doc' := (h.shows doc').syncNames
  holds := h.holds_set trivial fun name _ _ => Keeps.refl w.disk name

theorem Tracked.die (h : Tracked text w files) (pid : ℕ) :
    Tracked text { w with writes := Function.update w.writes pid fun _ => .idle } files where
  sound := h.sound
  shows := h.shows
  holds pid' doc := by
    change Holds text w.disk pid' doc (Function.update w.writes pid (fun _ => .idle) pid' doc)
    by_cases heq : pid' = pid
    · rw [heq, Function.update_self]
      trivial
    · rw [Function.update_of_ne heq]
      exact h.holds pid' doc

/-- Every step is one of files that are replaced as a whole. -/
theorem Tracked.step (h : Tracked text w files) (hs : w.step text e = some w') :
    ∃ files', Tracked text w' files' ∧
      ∀ doc, ∃ ops, Effect w doc e ops ∧ AtomicFile.Run (files doc) ops (files' doc) := by
  cases documentStep_of_step hs with
  | call => exact ⟨files, h.set trivial, fun _ => ⟨[], .call, .nil _⟩⟩
  | openFile hstage => exact ⟨files, h.openFile _ _ _, fun _ => ⟨[], .openFile, .nil _⟩⟩
  | write count hstage => exact ⟨files, h.write count hstage, fun _ => ⟨[], .write, .nil _⟩⟩
  | syncFile hstage => exact ⟨files, h.syncFile hstage, fun _ => ⟨[], .syncFile, .nil _⟩⟩
  | @setMode pid doc value hstage =>
    have hholds := h.holds pid doc
    rw [hstage] at hholds
    exact ⟨files, h.set hholds, fun _ => ⟨[], .setMode, .nil _⟩⟩
  | @rename pid doc value disk hstage hrenamed =>
    refine ⟨_, h.rename hstage hrenamed, fun doc' => ?_⟩
    by_cases heq : doc' = doc
    · subst heq
      rw [Function.update_self]
      exact ⟨_, .replace hstage, .cons (.replace (some value)) (.nil _)⟩
    · rw [Function.update_of_ne heq]
      exact ⟨[], .rename heq, .nil _⟩
  | syncParent hstage =>
    exact ⟨_, h.syncParent _ _, fun _ => ⟨_, .settle, .cons .settle (.nil _)⟩⟩
  | fail => exact ⟨files, h.set trivial, fun _ => ⟨[], .fail, .nil _⟩⟩
  | die => exact ⟨files, h.die _, fun _ => ⟨[], .die, .nil _⟩⟩
  | @losePower view left =>
    have hleft := fun doc => (h.shows doc).losePower h.sound (isDocument_fileName doc) view left
    choose x hx hshows using hleft
    refine ⟨fun doc => ⟨x doc, []⟩, ⟨h.sound.losePower view left, hshows, fun _ _ => trivial⟩, ?_⟩
    exact fun doc => ⟨_, .losePower (x doc), .cons (.losePower (hx doc)) (.nil _)⟩

end Tracking

section Runs

variable {text : V → List UInt8} {parse : List UInt8 → Option V}
  {known : DocumentName → Option V → Prop} {w u w' : DocumentWorld V}
  {es fs : List (DocumentEvent V)} {e : DocumentEvent V} {pid : ℕ} {doc : DocumentName}
  {files : DocumentName → AtomicFile (Option V)} {value : V}

/-- No call runs, and all that is on the disk of the documents is known; `none` stands for a
document that is not there. -/
structure DocumentWorld.Initial (text : V → List UInt8) (known : DocumentName → Option V → Prop)
    (w : DocumentWorld V) : Prop where
  sound : Sound IsDocument w.disk
  whole : ∀ doc, ∀ view ∈ w.disk.views,
    ∃ x, known doc x ∧ w.disk.held view doc.fileName = x.map text
  idle : ∀ pid doc, w.writes pid doc = .idle

/-- The document was known, or a call was asked to write it. -/
def Written (known : DocumentName → Option V → Prop) (es : List (DocumentEvent V))
    (doc : DocumentName) (x : Option V) : Prop :=
  known doc x ∨ ∃ pid value, x = some value ∧ .call pid doc value ∈ es

theorem Written.append {x : Option V} (h : Written known es doc x) (fs : List (DocumentEvent V)) :
    Written known (es ++ fs) doc x :=
  h.imp_right fun ⟨pid, value, hx, hcall⟩ => ⟨pid, value, hx, List.mem_append_left fs hcall⟩

def DocumentWrite.value? : DocumentWrite V → Option V
  | .idle => none
  | .called value | .writing value _ _ | .synced value | .permitted value | .replaced value =>
    some value

/-- The calls write what they were asked to write. -/
def Asked (es : List (DocumentEvent V)) (w : DocumentWorld V) : Prop :=
  ∀ pid doc value, (w.writes pid doc).value? = some value → .call pid doc value ∈ es

theorem Asked.set {c : DocumentWrite V} (h : Asked es w)
    (hc : ∀ value, c.value? = some value → .call pid doc value ∈ es ++ [e]) :
    ∀ pid' doc' value, (w.setWrite pid doc c pid' doc').value? = some value →
      .call pid' doc' value ∈ es ++ [e] := by
  intro pid' doc' value hvalue
  by_cases heq : (pid', doc') = (pid, doc)
  · obtain ⟨rfl, rfl⟩ := Prod.mk.inj heq
    rw [setWrite_self] at hvalue
    exact hc value hvalue
  · rw [setWrite_of_ne w c heq] at hvalue
    exact List.mem_append_left _ (h pid' doc' value hvalue)

theorem Asked.step (h : Asked es w) (hs : w.step text e = some w') : Asked (es ++ [e]) w' := by
  have hsame {pid : ℕ} {doc : DocumentName} {c c' : DocumentWrite V}
      (hstage : w.writes pid doc = c) (hvalue : c'.value? = c.value?) :
      ∀ value, c'.value? = some value → .call pid doc value ∈ es ++ [e] := by
    intro value hc
    rw [hvalue, ← hstage] at hc
    exact List.mem_append_left _ (h pid doc value hc)
  have hidle {pid : ℕ} {doc : DocumentName} : ∀ value,
      (DocumentWrite.idle : DocumentWrite V).value? = some value →
        .call pid doc value ∈ es ++ [e] := fun _ hvalue => by cases hvalue
  cases documentStep_of_step hs with
  | @call pid doc value =>
    refine h.set fun value' hvalue => ?_
    obtain rfl := Option.some.inj hvalue
    exact List.mem_append_right es (List.mem_singleton_self _)
  | openFile hstage => exact h.set (hsame hstage rfl)
  | write count hstage => exact h.set (hsame hstage rfl)
  | syncFile hstage => exact h.set (hsame hstage rfl)
  | setMode hstage => exact h.set (hsame hstage rfl)
  | rename hstage => exact h.set (hsame hstage rfl)
  | syncParent hstage => exact h.set hidle
  | fail => exact h.set hidle
  | @die pid =>
    intro pid' doc' value hvalue
    change (Function.update w.writes pid (fun _ => .idle) pid' doc').value? = some value at hvalue
    by_cases heq : pid' = pid
    · rw [heq, Function.update_self] at hvalue
      cases hvalue
    · rw [Function.update_of_ne heq] at hvalue
      exact List.mem_append_left _ (h pid' doc' value hvalue)
  | losePower => exact fun _ _ _ hvalue => by cases hvalue

/-- The documents are files that are replaced as a whole, by what calls were asked to write. -/
def Followed (text : V → List UInt8) (known : DocumentName → Option V → Prop)
    (es : List (DocumentEvent V)) (w : DocumentWorld V) : Prop :=
  ∃ files, Tracked text w files ∧ Asked es w ∧
    ∀ doc, AtomicFile.All (Written known es doc) (files doc)

theorem DocumentWorld.Initial.followed (h : w.Initial text known) : Followed text known [] w := by
  choose! held hknown hheld using h.whole
  refine ⟨fun doc => ⟨held doc w.disk.names, w.disk.earlier.map (held doc)⟩, ?_, ?_, ?_⟩
  · refine ⟨h.sound, fun doc => ⟨hheld doc _ List.mem_cons_self, fun view hview => ?_⟩, ?_⟩
    · have hmem : held doc view ∈ w.disk.earlier.map (held doc) := List.mem_map_of_mem hview
      exact ⟨_, List.mem_cons_of_mem _ hmem, hheld doc view (List.mem_cons_of_mem _ hview)⟩
    · intro pid doc
      rw [h.idle]
      trivial
  · intro pid doc value hvalue
    rw [h.idle] at hvalue
    cases hvalue
  · intro doc
    refine List.forall_mem_cons.mpr ⟨.inl (hknown doc _ List.mem_cons_self), fun x hx => ?_⟩
    obtain ⟨view, hview, rfl⟩ := List.mem_map.mp hx
    exact .inl (hknown doc view (List.mem_cons_of_mem _ hview))

theorem Followed.step (h : Followed text known es w) (hs : w.step text e = some w') :
    Followed text known (es ++ [e]) w' := by
  obtain ⟨files, htracked, hasked, hall⟩ := h
  obtain ⟨files', htracked', heffect⟩ := htracked.step hs
  refine ⟨files', htracked', hasked.step hs, fun doc => ?_⟩
  obtain ⟨ops, hops, hrun⟩ := heffect doc
  have hmono : AtomicFile.All (Written known (es ++ [e]) doc) (files doc) := fun x hx =>
    (hall doc x hx).append [e]
  refine hmono.run hrun fun x hx => ?_
  cases hops with
  | @replace pid value hstage =>
    obtain rfl : x = some value := by
      cases List.mem_singleton.mp hx
      rfl
    refine .inr ⟨pid, value, rfl, List.mem_append_left _ (hasked pid doc value ?_)⟩
    rw [hstage]
    rfl
  | settle | losePower => cases List.mem_singleton.mp hx
  | _ => cases hx

theorem followed_of_run (h : w.Initial text known)
    (hr : Runs.run (DocumentWorld.step text) w es = some w') : Followed text known es w' :=
  Runs.run_history (fun _ _ _ _ h _ hs => h.step hs) h.followed
    (Runs.Steps.of_forall (fun _ _ _ => trivial) _) hr

/-- What `to_writer_pretty` writes of a boolean, with the newline after it. -/
def boolText : Bool → List UInt8
  | true => [116, 114, 117, 101, 10]
  | false => [102, 97, 108, 115, 101, 10]

def parseBool (bytes : List UInt8) : Option Bool :=
  if bytes = boolText true then some true
  else if bytes = boolText false then some false
  else none

theorem parseBool_boolText (value : Bool) : parseBool (boolText value) = some value := by
  cases value <;> rfl

def configDocument : DocumentName := ⟨"config".toList, by decide⟩

def emptyDirectory : DocumentWorld Bool :=
  ⟨⟨fun _ => none, [], fun _ => [], fun _ => true, 0⟩, fun _ _ => .idle⟩

theorem emptyDirectory_initial : emptyDirectory.Initial boolText fun _ x => x = none where
  sound :=
    { fresh := fun v hv n i hi => by
        obtain rfl := List.mem_singleton.mp hv
        cases hi
      single := fun v hv m n i hi => by
        obtain rfl := List.mem_singleton.mp hv
        cases hi
      synced := fun v hv n i _ hi => by
        obtain rfl := List.mem_singleton.mp hv
        cases hi
      apart := fun n i _ hi => by cases hi }
  whole doc view hview := by
    obtain rfl := List.mem_singleton.mp hview
    exact ⟨none, rfl, rfl⟩
  idle _ _ := rfl

/-- The steps of a call up to the rename. -/
def writeFile (pid : ℕ) (doc : DocumentName) : List (DocumentEvent Bool) :=
  [.openFile pid doc, .write pid doc 6, .syncFile pid doc, .setMode pid doc]

/-- Whatever failed, died or lost its power in between, `read_json` finds the document as it was,
or as a call was asked to write it, and never a part of it. -/
theorem documents_are_whole (hparse : ∀ value, parse (text value) = some value)
    (h : w.Initial text known) (hr : Runs.run (DocumentWorld.step text) w es = some w')
    (doc : DocumentName) (fallback : V) :
    ∃ x, Written known es doc x ∧ w'.readJson parse doc fallback = .ok (x.getD fallback) := by
  obtain ⟨files, htracked, -, hall⟩ := followed_of_run h hr
  refine ⟨(files doc).current, hall doc _ List.mem_cons_self, ?_⟩
  rw [DocumentWorld.readJson, (htracked.shows doc).current]
  cases (files doc).current with
  | none => rfl
  | some value =>
    rw [Option.map_some]
    simp only [hparse value]
    rfl

/-- A write is cut off by a power loss after its rename, which the disk has not seen. -/
theorem documents_are_whole_after_power_loss :
    let es := .call 7 configDocument true :: (writeFile 7 configDocument ++
      [.rename 7 configDocument, .losePower 1 fun _ => []])
    ∃ w x, Runs.run (DocumentWorld.step boolText) emptyDirectory es = some w ∧
      Written (fun _ x => x = none) es configDocument x ∧
      w.readJson parseBool configDocument false = .ok (x.getD false) := by
  intro es
  have hr : ∃ w, Runs.run (DocumentWorld.step boolText) emptyDirectory es = some w := ⟨_, rfl⟩
  obtain ⟨w, hr⟩ := hr
  obtain ⟨x, hx⟩ :=
    documents_are_whole parseBool_boolText emptyDirectory_initial hr configDocument false
  exact ⟨w, x, hr, hx⟩

def DocumentEvent.renames (doc : DocumentName) : DocumentEvent V → Bool
  | .rename _ doc' => doc = doc'
  | _ => false

def DocumentEvent.isPowerLoss : DocumentEvent V → Bool
  | .losePower _ _ => true
  | _ => false

theorem Effect.not_replace {ops : List (AtomicFile.Event (Option V))} (h : Effect w doc e ops)
    (he : e.renames doc = false) : ∀ op ∈ ops, op.isReplace = false := by
  intro op hop
  cases h with
  | replace => exact absurd he (by simp [DocumentEvent.renames])
  | settle | losePower =>
    obtain rfl := List.mem_singleton.mp hop
    rfl
  | _ => cases hop

theorem Effect.current {ops : List (AtomicFile.Event (Option V))} {f g : AtomicFile (Option V)}
    (h : Effect w doc e ops) (he : e.renames doc = false) (hpower : e.isPowerLoss = false)
    (hr : AtomicFile.Run f ops g) : g.current = f.current := by
  cases h with
  | replace => exact absurd he (by simp [DocumentEvent.renames])
  | losePower => cases hpower
  | settle =>
    cases hr with
    | cons first rest =>
      cases first
      cases rest
      rfl
  | _ =>
    cases hr
    rfl

/-- What is on the disk for good stays there until the document is renamed to again. -/
theorem Tracked.settled_run (h : Tracked text w files) (hfile : files doc = ⟨some value, []⟩)
    (hes : ∀ e ∈ es, e.renames doc = false) (hr : Runs.run (DocumentWorld.step text) w es = some w') :
    w'.disk.read doc.fileName = some (text value) := by
  have hinv : ∃ files, Tracked text w' files ∧ files doc = ⟨some value, []⟩ := by
    have hstay : ∀ w e w', (∃ files, Tracked text w files ∧ files doc = ⟨some value, []⟩) →
        e.renames doc = false → w.step text e = some w' →
        ∃ files, Tracked text w' files ∧ files doc = ⟨some value, []⟩ := by
      rintro w e w' ⟨files, htracked, hfile⟩ he hs
      obtain ⟨files', htracked', heffect⟩ := htracked.step hs
      obtain ⟨ops, hops, hrun⟩ := heffect doc
      rw [hfile] at hrun
      exact ⟨files', htracked', AtomicFile.settled_run rfl hrun (hops.not_replace he)⟩
    exact Runs.run_invariant hstay ⟨files, h, hfile⟩
      (Runs.Steps.of_forall (fun e he _ => hes e he) _) hr
  obtain ⟨files, htracked, hfile⟩ := hinv
  rw [(htracked.shows doc).current, hfile]
  rfl

theorem setWrite_eq {pid' : ℕ} {doc' : DocumentName} {c c' : DocumentWrite V}
    (h : w.setWrite pid' doc' c pid doc = c') :
    pid = pid' ∧ doc = doc' ∧ c = c' ∨ w.writes pid doc = c' := by
  by_cases heq : (pid, doc) = (pid', doc')
  · obtain ⟨rfl, rfl⟩ := Prod.mk.inj heq
    exact .inl ⟨rfl, rfl, (setWrite_self ..).symm.trans h⟩
  · exact .inr ((setWrite_of_ne w c heq).symm.trans h)

/-- A call that has replaced its document did so by a rename, with the power on since. -/
theorem replaced_of_step (he : e.renames doc = false) (hs : w.step text e = some w')
    (hstage : w'.writes pid doc = .replaced value) :
    w.writes pid doc = .replaced value ∧ e.isPowerLoss = false := by
  have hset {pid' : ℕ} {doc' : DocumentName} {c : DocumentWrite V}
      (hwrites : w.setWrite pid' doc' c pid doc = .replaced value)
      (hc : doc = doc' → c ≠ .replaced value) : w.writes pid doc = .replaced value := by
    rcases setWrite_eq hwrites with ⟨-, hdoc, heq⟩ | hold
    · exact absurd heq (hc hdoc)
    · exact hold
  cases documentStep_of_step hs with
  | rename =>
    refine ⟨hset hstage fun hdoc => ?_, rfl⟩
    exact absurd he (by simp [DocumentEvent.renames, hdoc])
  | @die pid' =>
    change Function.update w.writes pid' (fun _ => .idle) pid doc = .replaced value at hstage
    by_cases heq : pid = pid'
    · rw [heq, Function.update_self] at hstage
      cases hstage
    · rw [Function.update_of_ne heq] at hstage
      exact ⟨hstage, rfl⟩
  | losePower => cases hstage
  | _ => exact ⟨hset hstage (fun _ hc => by cases hc), rfl⟩

/-- If the call has not lost its power, died or failed since, its document is what it wrote. -/
def Replaced (text : V → List UInt8) (pid : ℕ) (doc : DocumentName) (value : V)
    (w : DocumentWorld V) : Prop :=
  ∃ files, Tracked text w files ∧
    ∀ v, w.writes pid doc = .replaced v → v = value ∧ (files doc).current = some value

theorem Tracked.replaced (h : Tracked text w files) (hstage : w.writes pid doc = .permitted value)
    (hs : w.step text (.rename pid doc) = some w') : Replaced text pid doc value w' := by
  cases documentStep_of_step hs with
  | rename hstage' hdisk =>
    cases hstage.symm.trans hstage'
    refine ⟨_, h.rename hstage hdisk, fun v hv => ?_⟩
    change w.setWrite pid doc _ pid doc = _ at hv
    rw [setWrite_self] at hv
    cases hv
    rw [Function.update_self]
    exact ⟨rfl, rfl⟩

theorem Replaced.step (h : Replaced text pid doc value w) (he : e.renames doc = false)
    (hs : w.step text e = some w') : Replaced text pid doc value w' := by
  obtain ⟨files, htracked, hcurrent⟩ := h
  obtain ⟨files', htracked', heffect⟩ := htracked.step hs
  refine ⟨files', htracked', fun v hv => ?_⟩
  obtain ⟨hold, hpower⟩ := replaced_of_step he hs hv
  obtain ⟨ops, hops, hrun⟩ := heffect doc
  rw [hops.current he hpower hrun]
  exact hcurrent v hold

/-- Where a call has returned `Ok(())`, its document is there after every power loss, until the
document is replaced again. -/
theorem write_json_lasts {gs : List (DocumentEvent V)} (h : w.Initial text known)
    (hr : Runs.run (DocumentWorld.step text) w es = some u)
    (hstage : u.writes pid doc = .permitted value)
    (hothers : ∀ e ∈ fs ++ gs, e.renames doc = false)
    (hr' : Runs.run (DocumentWorld.step text) u
      (.rename pid doc :: (fs ++ .syncParent pid doc :: gs)) = some w') :
    w'.disk.read doc.fileName = some (text value) := by
  obtain ⟨files, htracked, -⟩ := followed_of_run h hr
  obtain ⟨u₁, hrename, hr'⟩ := (Runs.run_cons_eq_some _).mp hr'
  obtain ⟨u₂, hfs, hr'⟩ := (Runs.run_append_eq_some _).mp hr'
  obtain ⟨u₃, hsync, hgs⟩ := (Runs.run_cons_eq_some _).mp hr'
  have hreplaced : Replaced text pid doc value u₂ :=
    Runs.run_invariant (fun _ _ _ h he hs => Replaced.step h he hs)
      (htracked.replaced hstage hrename)
      (Runs.Steps.of_forall (fun e he _ => hothers e (List.mem_append_left gs he)) _) hfs
  obtain ⟨files₂, htracked₂, hcurrent⟩ := hreplaced
  cases documentStep_of_step hsync with
  | syncParent hstage' =>
    have hfile : (files₂ doc).settle = ⟨some value, []⟩ := by
      rw [AtomicFile.settle, (hcurrent _ hstage').2]
    exact (htracked₂.syncParent pid doc).settled_run hfile
      (fun e he => hothers e (List.mem_append_right fs he)) hgs

/-- A power loss in the middle of the next write. -/
theorem write_json_lasts_after_power_loss :
    ∃ w, Runs.run (DocumentWorld.step boolText) emptyDirectory
        ((.call 7 configDocument true :: writeFile 7 configDocument) ++
          (.rename 7 configDocument :: ([] ++ .syncParent 7 configDocument ::
            [.call 8 configDocument false, .openFile 8 configDocument,
              .losePower 1 fun _ => []]))) = some w ∧
      w.disk.read configDocument.fileName = some (boolText true) := by
  have hfirst : ∃ u, Runs.run (DocumentWorld.step boolText) emptyDirectory
      (.call 7 configDocument true :: writeFile 7 configDocument) = some u ∧
        u.writes 7 configDocument = .permitted true := ⟨_, rfl, rfl⟩
  have hall : ∃ w, Runs.run (DocumentWorld.step boolText) emptyDirectory
      ((.call 7 configDocument true :: writeFile 7 configDocument) ++
        (.rename 7 configDocument :: ([] ++ .syncParent 7 configDocument ::
          [.call 8 configDocument false, .openFile 8 configDocument,
            .losePower 1 fun _ => []]))) = some w := ⟨_, rfl⟩
  obtain ⟨u, hr, hstage⟩ := hfirst
  obtain ⟨w, hw⟩ := hall
  obtain ⟨u', hu', hr'⟩ := (Runs.run_append_eq_some _).mp hw
  obtain rfl := Option.some.inj (hr.symm.trans hu')
  refine ⟨w, hw, write_json_lasts emptyDirectory_initial hr hstage (fun e he => ?_) hr'⟩
  simp only [List.nil_append, List.mem_cons, List.not_mem_nil, or_false] at he
  rcases he with rfl | rfl | rfl <;> rfl

/-- What a call may be up to, with what its document holds. -/
def Underway (old : Option V) (value : V) : DocumentWrite V → Option V → Prop
  | .idle, x => x = old ∨ x = some value
  | .replaced v, x => v = value ∧ x = some value
  | .called v, x | .writing v _ _, x | .synced v, x | .permitted v, x => v = value ∧ x = old

theorem Underway.to_idle {old x : Option V} {c : DocumentWrite V} (h : Underway old value c x) :
    Underway old value .idle x := by
  cases c with
  | idle => exact h
  | replaced v => exact .inr h.2
  | _ => exact .inl h.2

theorem Underway.set {old x : Option V} {pid' : ℕ} {doc' : DocumentName} {c : DocumentWrite V}
    (h : Underway old value (w.writes pid doc) x)
    (hc : pid = pid' → doc = doc' → Underway old value c x) :
    Underway old value (w.setWrite pid' doc' c pid doc) x := by
  rcases setWrite_eq (w := w) (c := c) rfl with ⟨hpid, hdoc, heq⟩ | heq
  · rw [← heq]
    exact hc hpid hdoc
  · rwa [← heq]

/-- The power stays on, and nobody else replaces the document or asks the process to. -/
def DocumentEvent.Leaves (pid : ℕ) (doc : DocumentName) : DocumentEvent V → Prop
  | .losePower _ _ => False
  | .call pid' doc' _ => doc' = doc → pid' ≠ pid
  | .rename pid' doc' => doc' = doc → pid' = pid
  | _ => True

theorem Underway.step (h : Tracked text w files) (he : e.Leaves pid doc)
    (hs : w.step text e = some w') :
    ∃ files', Tracked text w' files' ∧
      ∀ old, Underway old value (w.writes pid doc) (files doc).current →
        Underway old value (w'.writes pid doc) (files' doc).current := by
  have hset {pid' : ℕ} {doc' : DocumentName} {c c' : DocumentWrite V} {old : Option V}
      (hcall : Underway old value (w.writes pid doc) (files doc).current)
      (hstage : w.writes pid' doc' = c)
      (hc : ∀ x, Underway old value c x → Underway old value c' x) :
      Underway old value (w.setWrite pid' doc' c' pid doc) (files doc).current := by
    refine hcall.set ?_
    rintro rfl rfl
    rw [hstage] at hcall
    exact hc _ hcall
  cases documentStep_of_step hs with
  | call =>
    refine ⟨files, h.set trivial, fun _ hcall => hcall.set fun hpid hdoc => ?_⟩
    exact absurd hpid.symm (he hdoc.symm)
  | openFile hstage => exact ⟨files, h.openFile _ _ _, fun _ hcall => hset hcall hstage fun _ => id⟩
  | write count hstage =>
    exact ⟨files, h.write count hstage, fun _ hcall => hset hcall hstage fun _ => id⟩
  | syncFile hstage => exact ⟨files, h.syncFile hstage, fun _ hcall => hset hcall hstage fun _ => id⟩
  | @setMode pid' doc' value hstage =>
    have hholds := h.holds pid' doc'
    rw [hstage] at hholds
    exact ⟨files, h.set hholds, fun _ hcall => hset hcall hstage fun _ => id⟩
  | @rename pid' doc' value' disk hstage hrenamed =>
    refine ⟨_, h.rename hstage hrenamed, fun old hcall => ?_⟩
    by_cases heq : doc = doc'
    · subst heq
      obtain rfl : pid' = pid := he rfl
      rw [hstage] at hcall
      change Underway old value (w.setWrite pid' doc _ pid' doc) _
      rw [setWrite_self, Function.update_self]
      obtain rfl := hcall.1
      exact ⟨rfl, rfl⟩
    · rw [Function.update_of_ne heq]
      exact hcall.set fun _ hdoc => absurd hdoc heq
  | syncParent hstage =>
    exact ⟨_, h.syncParent _ _, fun _ hcall => hset hcall hstage fun _ => Underway.to_idle⟩
  | fail => exact ⟨files, h.set trivial, fun _ hcall => hset hcall rfl fun _ => Underway.to_idle⟩
  | @die pid' =>
    refine ⟨files, h.die _, fun old hcall => ?_⟩
    change Underway old value (Function.update w.writes pid' (fun _ => .idle) pid doc) _
    by_cases heq : pid = pid'
    · rw [heq, Function.update_self]
      exact hcall.to_idle
    · rwa [Function.update_of_ne heq]
  | losePower => exact absurd he id

/-- A call and what it has done so far. -/
def Watched (text : V → List UInt8) (pid : ℕ) (doc : DocumentName) (old : Option V) (value : V)
    (es : List (DocumentEvent V)) (w : DocumentWorld V) : Prop :=
  ∃ files, Tracked text w files ∧ Underway old value (w.writes pid doc) (files doc).current ∧
    (.syncParent pid doc ∈ es → Underway (some value) value (w.writes pid doc) (files doc).current)

theorem Watched.step {old : Option V} (h : Watched text pid doc old value es w)
    (he : e.Leaves pid doc) (hs : w.step text e = some w') :
    Watched text pid doc old value (es ++ [e]) w' := by
  obtain ⟨files, htracked, hcall, hsynced⟩ := h
  obtain ⟨files', htracked', hstep⟩ := Underway.step htracked he hs
  refine ⟨files', htracked', hstep old hcall, fun hmem => hstep _ ?_⟩
  rcases List.mem_append.mp hmem with hold | hnew
  · exact hsynced hold
  · -- the call has replaced its document, so it does not matter what was there before
    obtain rfl := List.mem_singleton.mp hnew
    cases documentStep_of_step hs with
    | syncParent hstage =>
      rw [hstage] at hcall ⊢
      exact hcall

/-- With the power on, a call that is the only one to replace its document is a `FileWrite`: the
file is replaced as a whole or not at all, and it is replaced if the call returns `Ok(())`. -/
theorem write_json_outcome (h : w.Initial text known)
    (hr : Runs.run (DocumentWorld.step text) w es = some u)
    (hr' : Runs.run (DocumentWorld.step text) u (.call pid doc value :: fs) = some w')
    (hleaves : ∀ e ∈ fs, e.Leaves pid doc) (hidle : w'.writes pid doc = .idle) :
    ∃ write : FileWrite,
      w'.disk.read doc.fileName =
          (if write.replaces then some (text value) else u.disk.read doc.fileName) ∧
        (write = .written ↔ .syncParent pid doc ∈ fs) := by
  obtain ⟨files, htracked, -⟩ := followed_of_run h hr
  obtain ⟨u₁, hcall, hfs⟩ := (Runs.run_cons_eq_some _).mp hr'
  have hstart : Watched text pid doc (files doc).current value [] u₁ := by
    cases documentStep_of_step hcall with
    | call =>
      refine ⟨files, htracked.set trivial, ?_, fun hmem => by cases hmem⟩
      change Underway _ value (u.setWrite pid doc (.called value) pid doc) _
      rw [setWrite_self]
      exact ⟨rfl, rfl⟩
  obtain ⟨files', htracked', hcall', hsynced⟩ :=
    Runs.run_history (fun _ _ _ _ h he hs => Watched.step h he hs) hstart
      (Runs.Steps.of_forall (fun e he _ => hleaves e he) _) hfs
  have hread : w'.disk.read doc.fileName = (files' doc).current.map text :=
    (htracked'.shows doc).current
  have hbefore : u.disk.read doc.fileName = (files doc).current.map text :=
    (htracked.shows doc).current
  rw [hidle] at hcall' hsynced
  by_cases hmem : .syncParent pid doc ∈ fs
  · refine ⟨.written, ?_, fun _ => hmem, fun _ => rfl⟩
    rw [hread, or_self_iff.mp (hsynced hmem)]
    rfl
  · rcases hcall' with hold | hnew
    · refine ⟨.failed false, ?_, fun hwrite => ?_, fun hsync => absurd hsync hmem⟩
      · rw [hread, hold, hbefore]
        rfl
      · cases hwrite
    · refine ⟨.failed true, ?_, fun hwrite => ?_, fun hsync => absurd hsync hmem⟩
      · rw [hread, hnew]
        rfl
      · cases hwrite

/-- A call that fails after its rename. -/
theorem write_json_outcome_of_late_failure :
    ∃ w write, Runs.run (DocumentWorld.step boolText) emptyDirectory
        (.call 7 configDocument true :: (writeFile 7 configDocument ++
          [.rename 7 configDocument, .fail 7 configDocument])) = some w ∧
      w.disk.read configDocument.fileName =
        (if FileWrite.replaces write then some (boolText true) else none) ∧
      (write = .written ↔ .syncParent 7 configDocument ∈ writeFile 7 configDocument ++
          [.rename 7 configDocument, .fail 7 configDocument]) := by
  have hr : ∃ w, Runs.run (DocumentWorld.step boolText) emptyDirectory
      (.call 7 configDocument true :: (writeFile 7 configDocument ++
        [.rename 7 configDocument, .fail 7 configDocument])) = some w ∧
        w.writes 7 configDocument = .idle := ⟨_, rfl, rfl⟩
  obtain ⟨w, hr, hidle⟩ := hr
  have hnone : Runs.run (DocumentWorld.step boolText) emptyDirectory [] = some emptyDirectory := rfl
  have hleaves : ∀ e ∈ writeFile 7 configDocument ++
      [.rename 7 configDocument, .fail 7 configDocument], e.Leaves 7 configDocument := by
    intro e he
    simp only [writeFile, List.cons_append, List.nil_append, List.mem_cons, List.not_mem_nil,
      or_false] at he
    rcases he with rfl | rfl | rfl | rfl | rfl | rfl
    · trivial
    · trivial
    · trivial
    · trivial
    · exact fun _ => rfl
    · trivial
  obtain ⟨write, hwrite⟩ := write_json_outcome emptyDirectory_initial hnone hr hleaves hidle
  exact ⟨w, write, hr, hwrite⟩

/-- The steps of a call up to the rename, if none of them fails. -/
def replaceSteps (text : V → List UInt8) (pid : ℕ) (doc : DocumentName) (value : V) :
    List (DocumentEvent V) :=
  [.openFile pid doc, .write pid doc (text value).length, .syncFile pid doc, .setMode pid doc,
    .rename pid doc]

theorem run_replaceSteps (text : V → List UInt8) (u : DocumentWorld V) {pid : ℕ}
    {doc : DocumentName} (value : V) (hidle : u.writes pid doc = .idle) :
    ∃ w', Runs.run (DocumentWorld.step text) u
        (.call pid doc value :: replaceSteps text pid doc value) = some w' ∧
      w'.writes pid doc = .replaced value ∧ w'.disk.read doc.fileName = some (text value) := by
  obtain ⟨hname, hempty⟩ := Disk.truncate_names u.disk (temporaryName doc pid)
  simp only [replaceSteps, Runs.run_cons, Runs.run_nil, DocumentWorld.step, hidle, setWrite_self,
    Option.bind_some, List.take_length, List.drop_length, Disk.rename, Disk.append, Disk.sync,
    hname, Option.map_some]
  refine ⟨_, rfl, setWrite_self .., ?_⟩
  simp only [Disk.read, Disk.held, Function.update_self, hempty, Option.map_some, List.nil_append]

/-- Each of the three outcomes arises, whatever is on the disk. -/
theorem write_json_outcomes_arise (u : DocumentWorld V) {pid : ℕ} {doc : DocumentName} (value : V)
    (hidle : u.writes pid doc = .idle) (write : FileWrite) :
    ∃ fs w', Runs.run (DocumentWorld.step text) u (.call pid doc value :: fs) = some w' ∧
      (∀ e ∈ fs, e.Leaves pid doc) ∧ w'.writes pid doc = .idle ∧
      w'.disk.read doc.fileName =
        (if write.replaces then some (text value) else u.disk.read doc.fileName) ∧
      (write = .written ↔ .syncParent pid doc ∈ fs) := by
  have hleaves : ∀ e ∈ replaceSteps text pid doc value, e.Leaves pid doc := by
    intro e he
    simp only [replaceSteps, List.mem_cons, List.not_mem_nil, or_false] at he
    rcases he with rfl | rfl | rfl | rfl | rfl
    · trivial
    · trivial
    · trivial
    · trivial
    · exact fun _ => rfl
  have hsteps : .syncParent pid doc ∉ replaceSteps text pid doc value := by
    simp only [replaceSteps, List.mem_cons, List.not_mem_nil, reduceCtorEq, or_self,
      not_false_eq_true]
  obtain ⟨v, hrun, hplace, hread⟩ := run_replaceSteps text u value hidle
  cases write with
  | written =>
    refine ⟨replaceSteps text pid doc value ++ [.syncParent pid doc],
      ⟨v.disk.syncNames, v.setWrite pid doc .idle⟩, ?_, ?_, setWrite_self .., hread, ?_⟩
    · rw [← List.cons_append, Runs.run_append, hrun, Option.bind_some, Runs.run_cons,
        DocumentWorld.step, hplace]
      rfl
    · exact List.forall_mem_append.mpr ⟨hleaves, List.forall_mem_singleton.mpr trivial⟩
    · exact iff_of_true rfl (List.mem_append_right _ (List.mem_singleton_self _))
  | failed replaced =>
    cases replaced with
    | true =>
      refine ⟨replaceSteps text pid doc value ++ [.fail pid doc],
        { v with writes := v.setWrite pid doc .idle }, ?_, ?_, setWrite_self .., hread, ?_⟩
      · rw [← List.cons_append, Runs.run_append, hrun, Option.bind_some]
        rfl
      · exact List.forall_mem_append.mpr ⟨hleaves, List.forall_mem_singleton.mpr trivial⟩
      · refine iff_of_false (fun h => by cases h) fun h => ?_
        rcases List.mem_append.mp h with h | h
        · exact hsteps h
        · cases List.mem_singleton.mp h
    | false =>
      let called : DocumentWorld V := { u with writes := u.setWrite pid doc (.called value) }
      refine ⟨[.fail pid doc], { called with writes := called.setWrite pid doc .idle }, ?_, ?_,
        setWrite_self .., rfl, ?_⟩
      · simp only [Runs.run_cons, Runs.run_nil, DocumentWorld.step, hidle, Option.bind_some]
        rfl
      · exact List.forall_mem_singleton.mpr trivial
      · exact iff_of_false (fun h => by cases h) fun h => by cases List.mem_singleton.mp h

end Runs

end Resync
