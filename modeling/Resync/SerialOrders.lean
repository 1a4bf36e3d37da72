import Resync.PreparedDecision

/-! Whether a call of `reconcile_exclusive` and another operation on the same
record end as if one had come after the other. The recheck before the merge looks
at two of the things that the other operation may have written, and the merge
copies five fields. -/
namespace Resync

variable {Oid : Type}

/-- Git's answers let a call come to its merge. -/
def RecordAnswers.Merges (env : RecordAnswers Oid) : Decision Oid → Prop
  | .failed => False
  | .current _ | .conflicted .. => True
  | .ready candidate _ =>
    match env.install candidate with
    | .failed _ => False
    | .applied _ => env.installCleared = true
    | .retry _ | .conflict .. => True

/-- The call finds HEAD at the advertised head, or its candidate is installed. -/
def RecordAnswers.Records (env : RecordAnswers Oid) : Decision Oid → Prop
  | .current _ => True
  | .ready candidate _ => ∃ changedPaths, env.install candidate = .applied changedPaths
  | _ => False

/-- The last section of the other operation before a merge of the branch is not
lost: the merge writes the same, or the rest of the operation writes it again.
HEAD is on `current`, and the merge records the advertised head if `recorded`. -/
def RecordWrite.Kept (record : LocalProject Oid) (branch : Branch) (recorded : Prop)
    (current : Option Branch) (rest : List (RecordWrite Oid)) : RecordWrite Oid → Prop
  | .complete d ack _ =>
    record.lastAppliedHeads d.branch = some ack.remoteHead ∨ d.branch = branch ∧ recorded
  | .activate b => current = some branch ∨ b = branch ∨ rest ≠ []
  | .refresh _ => current = some branch

namespace RecordWorld

section Orders

variable [DecidableEq Oid] (G : CommitGraph Oid) (env : RecordAnswers Oid) (w : RecordWorld Oid)
  (switched : Option Branch) (before after : List (RecordWrite Oid))

/-- A call has prepared its result in `w`; the user has switched to another
branch, and some sections of the other operation have run. -/
def beforeMerge : RecordWorld Oid := (w.switchTo switched).write G env before

/-- The call comes back with its result. -/
def afterMerge : RecordWorld Oid × CallReply :=
  (w.beforeMerge G env switched before).finish env (w.prepare G env)

def interleaved : RecordWorld Oid :=
  (w.afterMerge G env switched before).1.write G env after

def reconcileFirst : RecordWorld Oid :=
  ((w.reconcile G env).1.switchTo switched).write G env (before ++ after)

def otherFirst : RecordWorld Oid :=
  (((w.switchTo switched).write G env (before ++ after)).reconcile G env).1

/-- The call is sent away and leaves everything as it finds it, or the merged
fields are those of one of the serial orders. -/
def Serializable : Prop :=
  ((w.afterMerge G env switched before).2 = .retry ∨
      (w.afterMerge G env switched before).2 = .failed) ∧
    (w.afterMerge G env switched before).1 = w.beforeMerge G env switched before ∨
  SameMerged (w.interleaved G env switched before after).record
    (w.reconcileFirst G env switched before after).record ∨
  SameMerged (w.interleaved G env switched before after).record
    (w.otherFirst G env switched before after).record

/-- If the call comes to its merge, and the advertised head of its branch is the
one that it has prepared and HEAD is there for an installation, then the last
write before the merge is kept. -/
def KeepsOther : Prop :=
  ∀ branch, w.refs.headBranch = some branch →
    let d := env.decision G w.refs branch w.record
    env.Merges d →
    (w.beforeMerge G env switched before).record.advertisedHeads branch =
      w.record.advertisedHeads branch →
    ((∃ candidate target, d = .ready candidate target) →
      (w.switchTo switched).refs.headBranch = some branch) →
    ∀ x ∈ before.getLast?,
      x.Kept w.record branch (env.Records d) (w.switchTo switched).refs.headBranch after

/-- The same, in terms of the recheck and of what is merged. -/
def MergeKeeps : Prop :=
  (w.prepare G env).wanted (w.beforeMerge G env switched before) = true →
    ∀ m ∈ (w.prepare G env).back env, ∀ x ∈ before.getLast?,
      x.Kept w.record m.branch (m.outcome = .applied ∨ m.outcome = .current)
        (w.switchTo switched).refs.headBranch after

variable {G env w switched before after}

omit [DecidableEq Oid] in
@[simp] theorem switchTo_record : (w.switchTo switched).record = w.record := by
  cases switched <;> rfl

omit [DecidableEq Oid] in
/-- A switch of HEAD does not meet an installation. -/
theorem switchTo_moved (record : LocalProject Oid) (pending : Pending Oid) :
    (RecordWorld.mk record (pending.moved env w.refs)).switchTo switched =
      ⟨record, pending.moved env (w.switchTo switched).refs⟩ := by
  cases switched with
  | none => rfl
  | some branch =>
    cases pending with
    | prepared p candidate =>
      simp only [switchTo, Pending.moved]
      split <;> rfl
    | _ => rfl

/-- The record after the call has come back and the other operation has ended. -/
theorem interleaved_record (after : List (RecordWrite Oid))
    (h : (w.prepare G env).wanted (w.beforeMerge G env switched before) = true) :
    (w.interleaved G env switched before after).record =
      after.foldl (fun p x => x.apply G env ((w.prepare G env).moved env (w.switchTo switched).refs) p)
        (mergeIn (w.beforeMerge G env switched before).record ((w.prepare G env).back env)) := by
  rw [interleaved, afterMerge, finish_wanted h]
  rfl

theorem reconcileFirst_record (G : CommitGraph Oid) (env : RecordAnswers Oid) (w : RecordWorld Oid)
    (switched : Option Branch) (before after : List (RecordWrite Oid)) :
    (w.reconcileFirst G env switched before after).record =
    (before ++ after).foldl
      (fun p x => x.apply G env ((w.prepare G env).moved env (w.switchTo switched).refs) p)
      (mergeIn w.record ((w.prepare G env).back env)) := by
  rw [reconcileFirst, reconcile_eq, switchTo_moved]
  rfl

theorem otherFirst_record : (w.otherFirst G env switched before after).record =
    mergeIn ((w.switchTo switched).write G env (before ++ after)).record
      ((((w.switchTo switched).write G env (before ++ after)).prepare G env).back env) := by
  rw [otherFirst, reconcile_eq]

omit [DecidableEq Oid] in
/-- Of a decision that Git's answers let be merged, something is merged. -/
theorem back_of_merges {d : Decision Oid} (h : env.Merges d) (record : LocalProject Oid)
    (branch : Branch) : ∃ m, (d.pending record branch).back env = some m := by
  cases d with
  | failed => cases h
  | current target | conflicted _ _ target => exact ⟨_, rfl⟩
  | ready candidate target =>
    simp only [RecordAnswers.Merges] at h
    simp only [Decision.pending, Pending.back, PreparedProject.back]
    cases hinstall : env.install candidate with
    | failed moved =>
      rw [hinstall] at h
      cases h
    | applied changedPaths =>
      rw [hinstall] at h
      rw [show env.installCleared = true from h]
      exact ⟨_, rfl⟩
    | retry detail | conflict detail => exact ⟨_, rfl⟩

omit [DecidableEq Oid] in
/-- What is merged is what Git's answers let be merged, with the outcome that
they give. -/
theorem merges_of_back {d : Decision Oid} {record : LocalProject Oid} {branch : Branch}
    {m : MergeBack Oid} (hm : (d.pending record branch).back env = some m) :
    env.Merges d ∧ ((m.outcome = .applied ∨ m.outcome = .current) ↔ env.Records d) := by
  cases d with
  | failed => cases hm
  | current target =>
    obtain rfl := Option.some.inj hm
    exact ⟨trivial, iff_of_true (Or.inr rfl) trivial⟩
  | conflicted conflict result target =>
    obtain rfl := Option.some.inj hm
    refine ⟨trivial, iff_of_false ?_ id⟩
    rintro (h | h) <;> cases h
  | ready candidate target =>
    simp only [Decision.pending, Pending.back, PreparedProject.back] at hm
    simp only [RecordAnswers.Merges, RecordAnswers.Records]
    cases hinstall : env.install candidate with
    | failed moved =>
      rw [hinstall] at hm
      cases hm
    | applied changedPaths =>
      rw [hinstall] at hm
      cases hcleared : env.installCleared with
      | false =>
        rw [hcleared] at hm
        cases hm
      | true =>
        rw [hcleared] at hm
        obtain rfl := Option.some.inj hm
        exact ⟨rfl, iff_of_true (Or.inl rfl) ⟨changedPaths, rfl⟩⟩
    | retry detail | conflict detail =>
      rw [hinstall] at hm
      obtain rfl := Option.some.inj hm
      refine ⟨trivial, iff_of_false ?_ ?_⟩
      · rintro (h | h) <;> cases h
      · rintro ⟨changedPaths, h⟩
        cases h

/-- No section of another operation writes the generation. -/
theorem write_workspaceGeneration :
    (w.write G env before).record.workspaceGeneration = w.record.workspaceGeneration := by
  have hfold : ∀ p : LocalProject Oid,
      (before.foldl (fun p x => x.apply G env w.refs p) p).workspaceGeneration =
        p.workspaceGeneration := by
    induction before with
    | nil => exact fun p => rfl
    | cons x xs ih =>
      intro p
      rw [List.foldl_cons, ih]
      cases x with
      | refresh answer => exact (refreshInto_spec env.hosted w.refs _ answer _).1
      | _ => rfl
  exact hfold w.record

theorem keepsOther_iff :
    w.KeepsOther G env switched before after ↔ w.MergeKeeps G env switched before after := by
  cases hbranch : w.refs.headBranch with
  | none =>
    refine iff_of_true (fun branch h => ?_) fun _ m hm => ?_
    · rw [hbranch] at h
      cases h
    · rw [prepare_of_detached hbranch] at hm
      cases hm
  | some branch =>
    have habout := decision_about G env branch w.refs w.record
    have hgen : (w.beforeMerge G env switched before).record.workspaceGeneration =
        w.record.workspaceGeneration := by
      rw [beforeMerge, write_workspaceGeneration, switchTo_record]
    rw [MergeKeeps, prepare_eq hbranch]
    constructor
    · intro hkeeps hwanted m hm x hx
      obtain ⟨hmbranch, -⟩ := back_spec habout hm
      obtain ⟨hmerges, hrecords⟩ := merges_of_back hm
      rw [hmbranch, hrecords]
      rcases wanted_pending habout hwanted with hfailed | ⟨-, hadvertised, hready⟩
      · rw [hfailed] at hmerges
        cases hmerges
      · exact hkeeps branch hbranch hmerges hadvertised hready x hx
    · intro hkeeps b hb d hmerges hadvertised hready x hx
      obtain rfl := Option.some.inj (hbranch.symm.trans hb)
      obtain ⟨m, hm⟩ := back_of_merges hmerges w.record branch
      have hwanted := wanted_decision habout hgen hadvertised hready
      have hkept := hkeeps hwanted m hm x hx
      rw [(back_spec habout hm).1, (merges_of_back hm).2] at hkept
      exact hkept

/-- A call that is sent away changes nothing. -/
theorem serializable_of_unwanted
    (h : ¬ (w.prepare G env).wanted (w.beforeMerge G env switched before) = true) :
    w.Serializable G env switched before after := by
  obtain ⟨hsame, hreply⟩ : (w.afterMerge G env switched before).1 = _ ∧ _ := finish_unwanted h
  exact Or.inl ⟨hreply, hsame⟩

/-- A call whose preparation has failed changes nothing. -/
theorem serializable_of_failed (h : w.prepare G env = .failed) :
    w.Serializable G env switched before after := by
  refine Or.inl ?_
  rw [afterMerge, h]
  exact ⟨Or.inr rfl, rfl⟩

/-- The other operation comes after the merge. -/
theorem serializable_of_after : w.Serializable G env switched [] after := by
  by_cases h : (w.prepare G env).wanted (w.beforeMerge G env switched []) = true
  · refine Or.inr (Or.inl ?_)
    rw [interleaved_record _ h, reconcileFirst_record, List.nil_append, beforeMerge]
    have hrecord : ((w.switchTo switched).write G env []).record = w.record := switchTo_record
    rw [hrecord]
    exact .refl _
  · exact serializable_of_unwanted h

/-- Without an answer that sends it away, a call merges. -/
theorem not_sent_away {m : MergeBack Oid} (hm : (w.prepare G env).back env = some m)
    (h : (w.prepare G env).wanted (w.beforeMerge G env switched before) = true) :
    ¬ ((w.afterMerge G env switched before).2 = .retry ∨
      (w.afterMerge G env switched before).2 = .failed) := by
  rw [afterMerge, finish_wanted h, hm]
  rintro (hreply | hreply) <;> cases hreply

section Completion

variable {d : Publication Oid} {ack : PublicationAck Oid} {hasPending : Bool}

omit [DecidableEq Oid] in
/-- A merge over a completed publication is as one before it if it leaves the
head that the completion records. -/
theorem complete_mergeIn_iff {record : LocalProject Oid} {m : MergeBack Oid} :
    SameMerged (mergeIn (PublishWorld.completionRecord d ack hasPending record) (some m))
        (PublishWorld.completionRecord d ack hasPending (mergeIn record (some m))) ↔
      m.staged.lastAppliedHeads d.branch = some ack.remoteHead := by
  constructor
  · intro h
    have hheads : m.staged.lastAppliedHeads =
        Function.update m.staged.lastAppliedHeads d.branch (some ack.remoteHead) :=
      h.lastAppliedHeads
    rw [hheads, Function.update_self]
  · intro h
    refine ⟨rfl, ?_, rfl, rfl, rfl⟩
    change m.staged.lastAppliedHeads =
      Function.update m.staged.lastAppliedHeads d.branch (some ack.remoteHead)
    rw [← h, Function.update_eq_self]

/-- What a merge after a completion leaves of the recorded head. -/
theorem complete_kept_iff {m : MergeBack Oid} (hm : (w.prepare G env).back env = some m)
    (h : (w.prepare G env).wanted
      (w.beforeMerge G env switched [.complete d ack hasPending]) = true) :
    m.staged.lastAppliedHeads d.branch = some ack.remoteHead ↔
      w.record.lastAppliedHeads d.branch = some ack.remoteHead ∨
        d.branch = m.branch ∧ (m.outcome = .applied ∨ m.outcome = .current) := by
  obtain ⟨-, -, hheads⟩ := prepare_back hm
  rw [hheads]
  by_cases hb : d.branch = m.branch
  · -- the recheck has found the head that the completion advertises
    have htarget := (wanted_prepare hm h).2
    have hadvertised : (w.beforeMerge G env switched
        [.complete d ack hasPending]).record.advertisedHeads m.branch = some ack.remoteHead := by
      rw [← hb]
      exact Function.update_self ..
    rw [hb, ← htarget, hadvertised, recorded_self]
    simp only [true_and]
  · rw [recorded_of_ne hb]
    simp only [hb, false_and, or_false]

/-- A call after a completion leaves the head that is recorded. -/
theorem reconcile_keeps_recorded {b : Branch} {c : Oid}
    (hadvertised : w.record.advertisedHeads b = some c)
    (hrecorded : w.record.lastAppliedHeads b = some c) :
    (mergeIn w.record ((w.prepare G env).back env)).lastAppliedHeads b = some c := by
  cases hm : (w.prepare G env).back env with
  | none => exact hrecorded
  | some m =>
    obtain ⟨-, -, hheads⟩ := prepare_back hm
    change m.staged.lastAppliedHeads b = some c
    rw [hheads]
    by_cases hb : b = m.branch
    · rw [← hb, hadvertised, recorded_self]
      exact Or.inl hrecorded
    · rw [recorded_of_ne hb]
      exact hrecorded

theorem serializable_complete : w.Serializable G env switched [.complete d ack hasPending] [] ↔
    w.MergeKeeps G env switched [.complete d ack hasPending] [] := by
  by_cases h : (w.prepare G env).wanted
      (w.beforeMerge G env switched [.complete d ack hasPending]) = true
  · have hbefore : (w.beforeMerge G env switched [.complete d ack hasPending]).record =
        PublishWorld.completionRecord d ack hasPending w.record := by
      simp only [beforeMerge, write, List.foldl_cons, List.foldl_nil, switchTo_record,
        RecordWrite.apply]
    have hinterleaved := interleaved_record [] h
    have hfirst := reconcileFirst_record G env w switched [.complete d ack hasPending] []
    rw [hbefore] at hinterleaved
    simp only [List.foldl_nil] at hinterleaved
    simp only [List.append_nil, List.foldl_cons, List.foldl_nil, RecordWrite.apply] at hfirst
    cases hm : (w.prepare G env).back env with
    | none =>
      refine iff_of_true (Or.inr (Or.inl ?_)) fun _ m hback => ?_
      · rw [hinterleaved, hfirst, hm]
        exact .refl _
      · rw [hm] at hback
        cases hback
    | some m =>
      rw [hm] at hinterleaved hfirst
      have hkept := complete_kept_iff hm h
      constructor
      · intro hserial _ m' hm' x hx
        obtain rfl := Option.some.inj (hm.symm.trans hm')
        obtain rfl := Option.some.inj hx
        apply hkept.mp
        rcases hserial with ⟨hreply, -⟩ | hsame | hsame
        · exact absurd hreply (not_sent_away hm h)
        · rw [hinterleaved, hfirst] at hsame
          exact complete_mergeIn_iff.mp hsame
        · have hheads := hsame.lastAppliedHeads
          rw [hinterleaved, otherFirst_record] at hheads
          have hlast := congrFun hheads d.branch
          rw [reconcile_keeps_recorded (Function.update_self ..) (Function.update_self ..)] at hlast
          exact hlast
      · intro hkeeps
        refine Or.inr (Or.inl ?_)
        rw [hinterleaved, hfirst]
        exact complete_mergeIn_iff.mpr (hkept.mpr (hkeeps h m hm _ rfl))
  · exact iff_of_true (serializable_of_unwanted h) fun hwanted => absurd hwanted h

end Completion

section Checkout

variable {branch : Branch} {answer : RefreshAnswer Oid}

theorem mergeKeeps_of_failed (h : w.prepare G env = .failed) :
    w.MergeKeeps G env switched before after := by
  intro _ m hm
  rw [h] at hm
  cases hm

omit [DecidableEq Oid] in
/-- A switch to the branch that HEAD is on changes nothing. -/
theorem switchTo_same (h : w.refs.headBranch = some branch)
    (h' : (w.switchTo switched).refs.headBranch = some branch) : w.switchTo switched = w := by
  cases switched with
  | none => rfl
  | some b =>
    obtain rfl : b = branch := Option.some.inj h'
    obtain ⟨record, head, heads, publications⟩ := w
    cases head with
    | attached b' =>
      obtain rfl : b' = b := Option.some.inj h
      rfl
    | detached c => cases h

/-- If HEAD stays where it is and the other operation leaves what the call reads,
the call merges what it would merge after the operation. -/
theorem otherFirst_same (hbranch : w.refs.headBranch = some branch)
    (hstays : (w.switchTo switched).refs.headBranch = some branch)
    (hinputs : SameInputs w.refs branch w.record (w.write G env before).record)
    (h : (w.prepare G env).wanted (w.beforeMerge G env switched before) = true) :
    SameMerged (w.interleaved G env switched before []).record
      (w.otherFirst G env switched before []).record := by
  have hsame := switchTo_same hbranch hstays
  have hwrite : (w.write G env before).refs.headBranch = some branch := hbranch
  rw [interleaved_record _ h, otherFirst_record, beforeMerge, hsame, List.append_nil,
    List.foldl_nil, prepare_eq hbranch, prepare_eq hwrite]
  exact (mergeIn_same (back_same hinputs)).symm

theorem serializable_activate : w.Serializable G env switched [.activate branch] [] ↔
    w.MergeKeeps G env switched [.activate branch] [] := by
  by_cases h : (w.prepare G env).wanted (w.beforeMerge G env switched [.activate branch]) = true
  · have hinterleaved := interleaved_record [] h
    have hfirst := reconcileFirst_record G env w switched [.activate branch] []
    have hbefore : (w.beforeMerge G env switched [.activate branch]).record =
        { w.record with activeBranch := some branch } := by
      simp only [beforeMerge, write, List.foldl_cons, List.foldl_nil, switchTo_record,
        RecordWrite.apply]
    rw [hbefore, List.foldl_nil] at hinterleaved
    simp only [List.append_nil, List.foldl_cons, List.foldl_nil, RecordWrite.apply] at hfirst
    cases hm : (w.prepare G env).back env with
    | none =>
      refine iff_of_true (Or.inr (Or.inl ?_)) fun _ m hback => ?_
      · rw [hinterleaved, hfirst, hm]
        exact .refl _
      · rw [hm] at hback
        cases hback
    | some m =>
      obtain ⟨hbranch, hactive, -⟩ := prepare_back hm
      rw [hm] at hinterleaved hfirst
      have hinterleavedActive :
          (w.interleaved G env switched [.activate branch] []).record.activeBranch =
            some m.branch := by
        rw [hinterleaved]
        exact hactive
      constructor
      · intro hserial _ m' hm' x hx
        obtain rfl := Option.some.inj (hm.symm.trans hm')
        obtain rfl := Option.some.inj hx
        rcases hserial with ⟨hreply, -⟩ | hsame | hsame
        · exact absurd hreply (not_sent_away hm h)
        · have hlast := hinterleavedActive.symm.trans hsame.activeBranch
          rw [hfirst] at hlast
          exact Or.inr (Or.inl (Option.some.inj hlast).symm)
        · have hlast := hinterleavedActive.symm.trans hsame.activeBranch
          rw [otherFirst_record] at hlast
          rcases reconcile_activeBranch G env
            ((w.switchTo switched).write G env ([.activate branch] ++ [])) with hkept | hread
          · exact Or.inr (Or.inl (Option.some.inj (hlast.trans hkept)).symm)
          · exact Or.inl (hlast.trans hread).symm
      · intro hkeeps
        rcases hkeeps h m hm _ rfl with hstays | hreported | hrest
        · refine Or.inr (Or.inr (otherFirst_same hbranch hstays ?_ h))
          exact ⟨rfl, rfl, Or.inl rfl⟩
        · refine Or.inr (Or.inl ?_)
          rw [hinterleaved, hfirst, hreported]
          exact ⟨hactive, rfl, rfl, rfl, rfl⟩
        · exact absurd rfl hrest
  · exact iff_of_true (serializable_of_unwanted h) fun hwanted => absurd hwanted h

theorem apply_refresh {refs : LocalRefs Oid} {p : LocalProject Oid}
    (h : refs.headBranch = some branch) :
    (RecordWrite.refresh answer).apply G env refs p =
      refreshInto G env.hosted refs branch answer { p with activeBranch := some branch } := by
  rw [RecordWrite.apply, h]
  rfl

/-- The refresh after a report writes the active branch again. -/
theorem serializable_report :
    w.Serializable G env switched [.activate branch] [.refresh answer] := by
  by_cases h : (w.prepare G env).wanted (w.beforeMerge G env switched [.activate branch]) = true
  · cases hcurrent : (w.switchTo switched).refs.headBranch with
    | none =>
      cases switched with
      | none => exact serializable_of_failed (prepare_of_detached hcurrent)
      | some b => cases hcurrent
    | some current =>
      refine Or.inr (Or.inl ?_)
      have hmoved : ((w.prepare G env).moved env (w.switchTo switched).refs).headBranch =
          some current := by
        rw [moved_headBranch, hcurrent]
      rw [interleaved_record _ h, reconcileFirst_record]
      simp only [beforeMerge, write, List.cons_append, List.nil_append, List.foldl_cons,
        List.foldl_nil, switchTo_record, apply_refresh hmoved]
      have hsame : ∀ back : Option (MergeBack Oid),
          { mergeIn { w.record with activeBranch := some branch } back with
            activeBranch := some current } =
          { mergeIn w.record back with activeBranch := some current } := by
        intro back
        cases back <;> rfl
      have hactivate : (RecordWrite.activate branch).apply G env (w.switchTo switched).refs w.record =
          { w.record with activeBranch := some branch } := rfl
      rw [hactivate, hsame]
      exact .refl _
  · exact serializable_of_unwanted h

/-- With HEAD on the branch that the call has prepared, a refresh that does not
send the call away could as well have come before it. -/
theorem refresh_first (hbranch : w.refs.headBranch = some branch)
    (hstays : (w.switchTo switched).refs.headBranch = some branch)
    (h : (w.prepare G env).wanted (w.beforeMerge G env switched [.refresh answer]) = true) :
    w.Serializable G env switched [.refresh answer] [] := by
  have hrecord : (w.beforeMerge G env switched [.refresh answer]).record =
      refreshInto G env.hosted w.refs branch answer
        { w.record with activeBranch := some branch } := by
    rw [beforeMerge, switchTo_same hbranch hstays]
    exact apply_refresh hbranch
  have hwanted := h
  rw [prepare_eq hbranch] at hwanted
  rcases wanted_pending (decision_about G env _ w.refs w.record) hwanted with
    hfailed | ⟨-, hadvertised, -⟩
  · apply serializable_of_failed
    rw [prepare_eq hbranch, hfailed]
    rfl
  · have hinputs : SameInputs w.refs branch w.record
        (w.beforeMerge G env switched [.refresh answer]).record := by
      rw [hrecord] at hadvertised ⊢
      have hread := refreshInto_inputs (p := { w.record with activeBranch := some branch })
        hadvertised
      exact ⟨hread.workspaceGeneration, hread.advertised, hread.lastAppliedHeads⟩
    rw [beforeMerge, switchTo_same hbranch hstays] at hinputs
    exact Or.inr (Or.inr (otherFirst_same hbranch hstays hinputs h))

/-- A refresh ends with the branch of HEAD as the active branch. -/
theorem write_refresh_active {current : Branch} (h : w.refs.headBranch = some current) :
    (w.write G env [.refresh answer]).record.activeBranch = some current := by
  change ((RecordWrite.refresh answer).apply G env w.refs w.record).activeBranch = some current
  rw [apply_refresh h]
  exact (refreshInto_spec env.hosted w.refs _ answer _).2.1

theorem serializable_refresh : w.Serializable G env switched [.refresh answer] [] ↔
    w.MergeKeeps G env switched [.refresh answer] [] := by
  by_cases h : (w.prepare G env).wanted (w.beforeMerge G env switched [.refresh answer]) = true
  · cases hbranch : w.refs.headBranch with
    | none =>
      have hfailed : w.prepare G env = .failed := prepare_of_detached hbranch
      exact iff_of_true (serializable_of_failed hfailed) (mergeKeeps_of_failed hfailed)
    | some branch =>
      by_cases hstays : (w.switchTo switched).refs.headBranch = some branch
      · refine iff_of_true (refresh_first hbranch hstays h) fun _ m hm x hx => ?_
        obtain rfl := Option.some.inj hx
        have hprepared := (prepare_back hm).1
        rw [hbranch] at hprepared
        exact hstays.trans hprepared
      · -- HEAD has left the branch, so the call has nothing to install
        obtain ⟨current, hcurrent⟩ : ∃ current,
            (w.switchTo switched).refs.headBranch = some current := by
          cases switched with
          | none => exact absurd hbranch hstays
          | some b => exact ⟨b, rfl⟩
        cases hm : (w.prepare G env).back env with
        | none =>
          rcases wanted_back_none hbranch hm h with hfailed | hinstalls
          · exact iff_of_true (serializable_of_failed hfailed) (mergeKeeps_of_failed hfailed)
          · exact absurd hinstalls hstays
        | some m =>
          obtain ⟨hprepared, hactive, -⟩ := prepare_back hm
          have hinterleaved :
              (w.interleaved G env switched [.refresh answer] []).record.activeBranch =
                some m.branch := by
            rw [interleaved_record _ h, hm]
            exact hactive
          have hleft : ¬ some m.branch = (w.switchTo switched).refs.headBranch := by
            rw [← hprepared, hbranch]
            exact fun heq => hstays heq.symm
          refine iff_of_false ?_ fun hkeeps => hleft (hkeeps h m hm _ rfl).symm
          rintro (⟨hreply, -⟩ | hsame | hsame)
          · exact not_sent_away hm h hreply
          · apply hleft
            rw [hcurrent, ← hinterleaved, hsame.activeBranch, reconcileFirst_record, hm]
            have hmoved : ((w.prepare G env).moved env (w.switchTo switched).refs).headBranch =
                some current := by
              rw [moved_headBranch, hcurrent]
            exact write_refresh_active (w := ⟨_, _⟩) hmoved
          · apply hleft
            have hwritten : ((w.switchTo switched).write G env [.refresh answer]).record.activeBranch
                = (w.switchTo switched).refs.headBranch :=
              (write_refresh_active hcurrent).trans hcurrent.symm
            rw [← hinterleaved, hsame.activeBranch, otherFirst_record, List.append_nil]
            rcases reconcile_activeBranch G env
              ((w.switchTo switched).write G env [.refresh answer]) with hkept | hread
            · exact hkept.trans hwritten
            · exact hread
  · exact iff_of_true (serializable_of_unwanted h) fun hwanted => absurd hwanted h

/-- A report and its refresh write what the refresh alone writes. -/
theorem write_report (h : w.refs.headBranch.isSome = true) :
    w.write G env [.activate branch, .refresh answer] = w.write G env [.refresh answer] := by
  obtain ⟨current, hcurrent⟩ := Option.isSome_iff_exists.mp h
  simp only [write, List.foldl_cons, List.foldl_nil, apply_refresh hcurrent]
  rfl

theorem serializable_report_refresh :
    w.Serializable G env switched [.activate branch, .refresh answer] [] ↔
      w.MergeKeeps G env switched [.activate branch, .refresh answer] [] := by
  cases hcurrent : (w.switchTo switched).refs.headBranch with
  | none =>
    have hfailed : w.prepare G env = .failed := by
      cases switched with
      | none => exact prepare_of_detached hcurrent
      | some b => cases hcurrent
    exact iff_of_true (serializable_of_failed hfailed) (mergeKeeps_of_failed hfailed)
  | some current =>
    have hsome : (w.switchTo switched).refs.headBranch.isSome = true := by
      rw [hcurrent]
      rfl
    have hbefore : w.beforeMerge G env switched [.activate branch, .refresh answer] =
        w.beforeMerge G env switched [.refresh answer] := write_report hsome
    have hafter : w.afterMerge G env switched [.activate branch, .refresh answer] =
        w.afterMerge G env switched [.refresh answer] := by
      rw [afterMerge, afterMerge, hbefore]
    have hinterleaved : w.interleaved G env switched [.activate branch, .refresh answer] [] =
        w.interleaved G env switched [.refresh answer] [] := by
      rw [interleaved, interleaved, hafter]
    have hother : w.otherFirst G env switched [.activate branch, .refresh answer] [] =
        w.otherFirst G env switched [.refresh answer] [] := by
      rw [otherFirst, otherFirst, List.append_nil, List.append_nil, write_report hsome]
    have hfirst : w.reconcileFirst G env switched [.activate branch, .refresh answer] [] =
        w.reconcileFirst G env switched [.refresh answer] [] := by
      rw [reconcileFirst, reconcileFirst, reconcile_eq, switchTo_moved, List.append_nil,
        List.append_nil]
      apply write_report
      rw [moved_headBranch]
      exact hsome
    have hkeeps : w.MergeKeeps G env switched [.activate branch, .refresh answer] [] ↔
        w.MergeKeeps G env switched [.refresh answer] [] := by
      rw [MergeKeeps, MergeKeeps, hbefore]
      rfl
    rw [hkeeps, ← serializable_refresh, Serializable, Serializable, hafter, hbefore, hinterleaved,
      hfirst, hother]

end Checkout

end Orders

section Main

variable [DecidableEq Oid] (G : CommitGraph Oid) (env : RecordAnswers Oid) (w : RecordWorld Oid)
  (switched : Option Branch)

/-- A call that is interrupted by another operation ends as in one of the serial
orders, or is sent away, exactly if its merge keeps what the operation has
written before it. -/
theorem serializable_iff (o : OtherOperation Oid) (k : ℕ) :
    w.Serializable G env switched (o.writes.take k) (o.writes.drop k) ↔
      w.KeepsOther G env switched (o.writes.take k) (o.writes.drop k) := by
  rw [keepsOther_iff]
  have hafter : ∀ writes, w.MergeKeeps G env switched [] writes :=
    fun writes _ m _ x hx => by cases hx
  cases k with
  | zero => exact iff_of_true serializable_of_after (hafter _)
  | succ k =>
    cases o with
    | completePublication d ack hasPending =>
      simp only [OtherOperation.writes, List.take_succ_cons, List.take_nil, List.drop_succ_cons,
        List.drop_nil]
      exact serializable_complete
    | refresh answer =>
      simp only [OtherOperation.writes, List.take_succ_cons, List.take_nil, List.drop_succ_cons,
        List.drop_nil]
      exact serializable_refresh
    | reportCheckout branch refreshed =>
      cases refreshed with
      | none =>
        simp only [OtherOperation.writes, List.take_succ_cons, List.take_nil, List.drop_succ_cons,
          List.drop_nil]
        exact serializable_activate
      | some answer =>
        cases k with
        | zero =>
          refine iff_of_true serializable_report ?_
          intro _ m _ x hx
          obtain rfl := Option.some.inj hx
          exact Or.inr (Or.inr (List.cons_ne_nil _ _))
        | succ k =>
          simp only [OtherOperation.writes, List.take_succ_cons, List.take_nil,
            List.drop_succ_cons, List.drop_nil]
          exact serializable_report_refresh

end Main

end RecordWorld

section OneProject

/-- The hosted `main` is one commit ahead of the checkout. -/
def aheadMain : RecordWorld ℕ where
  record := { currentProject with
    advertisedHeads := fun b => if b = "main" then some 3 else none }
  refs := ⟨.attached "main", fun b => if b = "main" then some 1 else none, fun _ => none⟩

def installsCandidate : RecordAnswers ℕ where
  hosted b := if b = "main" then some 3 else none
  cleared := true
  rebase _ _ target := .ready ⟨"main", 1, target⟩
  install _ := .applied []
  installCleared := true
  discarded := true

/-- A publication of `topic` is acknowledged. -/
def completeTopic : OtherOperation ℕ :=
  .completePublication (.new "pub-1" 5 "prj" none "topic" 4 none)
    ⟨"pub-1", 1, "prj", "topic", 4, 4, 2, true⟩ false

/-- The installation of `main` takes back the last-applied head of `topic`. -/
theorem topic_is_overwritten :
    ¬ aheadMain.Serializable pairGraph installsCandidate none
      (completeTopic.writes.take 1) (completeTopic.writes.drop 1) := by
  rintro (⟨hreply, -⟩ | hfirst | hother)
  · rcases hreply with hreply | hreply <;> cases hreply
  · have htopic := congrFun hfirst.lastAppliedHeads "topic"
    revert htopic
    decide +kernel
  · have htopic := congrFun hother.lastAppliedHeads "topic"
    revert htopic
    decide +kernel

end OneProject

end Resync
