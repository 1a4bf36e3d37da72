import Mathlib.Logic.Relation

/-! Runs of a system whose step is a partial function of the state and of an
event. All the choices of the environment are in the event, so a run is
determined by its first state and its list of events. -/
namespace Runs

variable {S E : Type*} (step : S → E → Option S)

/-- The state after a list of events, if each of them was enabled. -/
def run : S → List E → Option S
  | s, [] => some s
  | s, e :: es => (step s e).bind fun t => run t es

/-- Every event of the list meets `ok` in the state in which it happens. -/
def Steps (ok : S → E → Prop) : S → List E → Prop
  | _, [] => True
  | s, e :: es => ok s e ∧ ∀ t, step s e = some t → Steps ok t es

@[simp] theorem run_nil (s : S) : run step s [] = some s := rfl

theorem run_cons (s : S) (e : E) (es : List E) :
    run step s (e :: es) = (step s e).bind fun t => run step t es := rfl

theorem run_cons_eq_some {s u : S} {e : E} {es : List E} :
    run step s (e :: es) = some u ↔ ∃ t, step s e = some t ∧ run step t es = some u := by
  simp only [run_cons, Option.bind_eq_some_iff]

theorem run_append (s : S) (es fs : List E) :
    run step s (es ++ fs) = (run step s es).bind fun t => run step t fs := by
  induction es generalizing s with
  | nil => rfl
  | cons e es ih =>
    simp only [List.cons_append, run_cons, Option.bind_assoc]
    exact congrArg _ (funext fun t => ih t)

theorem run_append_eq_some {s u : S} {es fs : List E} :
    run step s (es ++ fs) = some u ↔ ∃ t, run step s es = some t ∧ run step t fs = some u := by
  rw [run_append, Option.bind_eq_some_iff]

variable {step}

theorem Steps.of_append {ok : S → E → Prop} {s : S} {es fs : List E}
    (h : Steps step ok s (es ++ fs)) :
    Steps step ok s es ∧ ∀ t, run step s es = some t → Steps step ok t fs := by
  induction es generalizing s with
  | nil => exact ⟨trivial, fun t ht => by cases ht; exact h⟩
  | cons e es ih =>
    refine ⟨⟨h.1, fun t ht => (ih (h.2 t ht)).1⟩, ?_⟩
    intro u hu
    obtain ⟨t, ht, hr⟩ := (run_cons_eq_some step).mp hu
    exact (ih (h.2 t ht)).2 u hr

theorem Steps.cons {ok : S → E → Prop} {s t : S} {e : E} {es : List E} (hok : ok s e)
    (hs : step s e = some t) (h : Steps step ok t es) : Steps step ok s (e :: es) := by
  refine ⟨hok, fun u hu => ?_⟩
  obtain rfl := Option.some.inj (hs.symm.trans hu)
  exact h

theorem Steps.and {ok ok' : S → E → Prop} {s : S} {es : List E} (h : Steps step ok s es)
    (h' : Steps step ok' s es) : Steps step (fun s e => ok s e ∧ ok' s e) s es := by
  induction es generalizing s with
  | nil => trivial
  | cons e es ih => exact ⟨⟨h.1, h'.1⟩, fun t ht => ih (h.2 t ht) (h'.2 t ht)⟩

theorem Steps.of_forall {ok : S → E → Prop} {es : List E} (h : ∀ e ∈ es, ∀ s, ok s e) (s : S) :
    Steps step ok s es := by
  induction es generalizing s with
  | nil => trivial
  | cons e es ih =>
    exact ⟨h e List.mem_cons_self s, fun t _ =>
      ih (fun f hf => h f (List.mem_cons_of_mem e hf)) t⟩

theorem Steps.mono {ok ok' : S → E → Prop} (hok : ∀ s e, ok s e → ok' s e) {s : S} {es : List E}
    (h : Steps step ok s es) : Steps step ok' s es := by
  induction es generalizing s with
  | nil => trivial
  | cons e es ih => exact ⟨hok s e h.1, fun t ht => ih (h.2 t ht)⟩

instance Steps.decidable (ok : S → E → Prop) [∀ s e, Decidable (ok s e)] :
    ∀ (s : S) (es : List E), Decidable (Steps step ok s es)
  | _, [] => .isTrue trivial
  | s, e :: es =>
    match h : step s e with
    | none => decidable_of_iff (ok s e)
        ⟨fun ho => ⟨ho, fun t ht => by rw [h] at ht; cases ht⟩, And.left⟩
    | some u =>
      have := Steps.decidable ok u es
      decidable_of_iff (ok s e ∧ Steps step ok u es)
        ⟨fun ho => ⟨ho.1, fun t ht => by rw [h] at ht; cases ht; exact ho.2⟩,
          fun ho => ⟨ho.1, ho.2 u h⟩⟩

/-- The invariant rule: what every allowed step preserves holds after every
run whose steps are allowed. -/
theorem run_invariant {Inv : S → Prop} {ok : S → E → Prop}
    (hstep : ∀ s e t, Inv s → ok s e → step s e = some t → Inv t)
    {s t : S} {es : List E} (h0 : Inv s) (hok : Steps step ok s es)
    (hr : run step s es = some t) : Inv t := by
  induction es generalizing s with
  | nil => cases hr; exact h0
  | cons e es ih =>
    obtain ⟨u, hu, hr⟩ := (run_cons_eq_some step).mp hr
    exact ih (hstep s e u h0 hok.1 hu) (hok.2 u hu) hr

/-- The guarantee rule: where the allowed steps keep an invariant, and the
invariant guarantees `ok'` of every allowed step, all steps of an allowed run
meet `ok'`. -/
theorem Steps.of_invariant {Inv : S → Prop} {ok ok' : S → E → Prop}
    (hstep : ∀ s e t, Inv s → ok s e → step s e = some t → Inv t)
    (hok' : ∀ s e, Inv s → ok s e → ok' s e)
    {s : S} {es : List E} (h0 : Inv s) (h : Steps step ok s es) : Steps step ok' s es := by
  induction es generalizing s with
  | nil => trivial
  | cons e es ih => exact ⟨hok' s e h0 h.1, fun t ht => ih (hstep s e t h0 h.1 ht) (h.2 t ht)⟩

/-- The history rule: an invariant may also speak about the events so far. -/
theorem run_history {Inv : List E → S → Prop} {ok : S → E → Prop}
    (hstep : ∀ es s e t, Inv es s → ok s e → step s e = some t → Inv (es ++ [e]) t)
    {s t : S} {es : List E} (h0 : Inv [] s) (hok : Steps step ok s es)
    (hr : run step s es = some t) : Inv es t := by
  have hgen : ∀ (fs : List E) (s : S), Inv fs s → Steps step ok s es →
      run step s es = some t → Inv (fs ++ es) t := by
    clear h0 hok hr
    induction es with
    | nil =>
      intro fs s h0 _ hr
      cases hr
      simpa only [List.append_nil] using h0
    | cons e es ih =>
      intro fs s h0 hok hr
      obtain ⟨u, hu, hr⟩ := (run_cons_eq_some step).mp hr
      have hnext := ih (fs ++ [e]) u (hstep fs s e u h0 hok.1 hu) (hok.2 u hu) hr
      simpa only [List.append_assoc, List.singleton_append] using hnext
  exact hgen [] s h0 hok hr

/-- The relation rule: a reflexive and transitive relation between the two
ends of every allowed step relates the two ends of every allowed run. -/
theorem run_relation {Inv : S → Prop} {ok : S → E → Prop} {R : S → S → Prop}
    (hrefl : ∀ s, R s s) (htrans : ∀ s t u, R s t → R t u → R s u)
    (hinv : ∀ s e t, Inv s → ok s e → step s e = some t → Inv t)
    (hstep : ∀ s e t, Inv s → ok s e → step s e = some t → R s t)
    {s t : S} {es : List E} (h0 : Inv s) (hok : Steps step ok s es)
    (hr : run step s es = some t) : R s t := by
  induction es generalizing s with
  | nil => cases hr; exact hrefl _
  | cons e es ih =>
    obtain ⟨u, hu, hr⟩ := (run_cons_eq_some step).mp hr
    exact htrans s u t (hstep s e u h0 hok.1 hu) (ih (hinv s e u h0 hok.1 hu) (hok.2 u hu) hr)

/-- The exactness rule: where the allowed steps keep an invariant that implies
`P`, and only allowed steps lead to `P`, a run is allowed exactly when `P`
holds in every state that it reaches. -/
theorem steps_iff_forall_reached {Inv P : S → Prop} {ok : S → E → Prop}
    (hinv : ∀ s e t, Inv s → ok s e → step s e = some t → Inv t)
    (hP : ∀ s, Inv s → P s)
    (hback : ∀ s e, Inv s → (∀ t, step s e = some t → P t) → ok s e)
    {s : S} {es : List E} (h0 : Inv s) :
    Steps step ok s es ↔
      ∀ done rest u, es = done ++ rest → run step s done = some u → P u := by
  constructor
  · rintro hok done rest u rfl hu
    exact hP u (run_invariant hinv h0 hok.of_append.1 hu)
  · intro h
    induction es generalizing s with
    | nil => trivial
    | cons e es ih =>
      have hok : ok s e := by
        apply hback s e h0
        intro t ht
        exact h [e] es t rfl ((run_cons_eq_some step).mpr ⟨t, ht, rfl⟩)
      refine ⟨hok, fun t ht => ih (hinv s e t h0 hok ht) ?_⟩
      intro done rest u heq hu
      exact h (e :: done) rest u (congrArg (e :: ·) heq) ((run_cons_eq_some step).mpr ⟨t, ht, hu⟩)

/-- The spoiling rule: where a step that is not allowed spoils the state for good,
a run that does not end spoiled is allowed. -/
theorem steps_of_unspoiled {Inv Bad : S → Prop} {ok : S → E → Prop}
    (hinv : ∀ s e t, Inv s → ok s e → step s e = some t → Inv t)
    (hspoil : ∀ s e t, Inv s → ¬ ok s e → step s e = some t → Bad t)
    (hbad : ∀ s e t, Bad s → step s e = some t → Bad t)
    {s t : S} {es : List E} (h0 : Inv s) (hr : run step s es = some t) (ht : ¬ Bad t) :
    Steps step ok s es := by
  induction es generalizing s with
  | nil => trivial
  | cons e es ih =>
    obtain ⟨u, hu, hr⟩ := (run_cons_eq_some step).mp hr
    by_cases hok : ok s e
    · exact Steps.cons hok hu (ih (hinv s e u h0 hok hu) hr)
    · have hall : Steps step (fun _ _ => True) u es := Steps.of_forall (fun _ _ _ => trivial) u
      have hend : Bad t :=
        run_invariant (fun s e t h _ hs => hbad s e t h hs) (hspoil s e u h0 hok hu) hall hr
      exact absurd hend ht

end Runs
