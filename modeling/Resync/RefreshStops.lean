import Resync.RefreshSeparation

/-! When one refresh does for each project what it does for the project alone, and
an error leaves the catalog as it is on disk. It depends on where the refresh
stops: at a HEAD that can not be read, at the write of the catalog, or at a
publication that can not be queued. -/
namespace Resync

variable {Oid : Type} [DecidableEq Oid]

/-- Every project ends as if it were alone, and after an error the catalog in
memory is the one on disk. -/
def RefreshWorld.Separate (w : RefreshWorld Oid) (x : RefreshInputs Oid) : Prop :=
  (∀ p ∈ w.catalog.projects, (w.refresh x).1.view p.projectId =
    ((w.alone p).refresh (x.alone p)).1.view p.projectId) ∧
  ((w.refresh x).2 = false → (w.refresh x).1.catalog = (w.refresh x).1.disk)

section Condition

variable (x : RefreshInputs Oid)

/-- How the publication after a visit is queued, if there is one. -/
def Visit.queueing (v : Visit Oid) (queue : List (Publication Oid)) : Option Queueing :=
  v.publication.map fun r => Resync.queueing x queue v.record r.1 r.2

variable (remote : List (HeartbeatProject Oid)) (w : RefreshWorld Oid) (p : LocalProject Oid)

/-- The publication of the project meets an error. -/
def Fails : Prop :=
  ∃ k ∈ (visit x remote p).queueing x w.queue, k.succeeds = false

/-- A publication of the project is put in the queue. -/
def Adds : Prop :=
  ∃ k ∈ (visit x remote p).queueing x w.queue, k.adds = true

/-- A reconciliation of the project is scheduled. -/
def Schedules : Prop :=
  (visit x remote p).reconciles = true ∧ p.projectId ∉ w.reconciling

/-- The durability of the project changes in memory only. -/
def Unwritten : Prop :=
  (visit x remote p).queueing x w.queue = some (.added (some .writeCatalog)) ∧
    (visit x remote p).record.durability ≠ .committedUnpublished

instance : Decidable (Errs x remote p) :=
  inferInstanceAs (Decidable (_ = none))

instance : Decidable (Fails x remote w p) :=
  inferInstanceAs (Decidable (∃ _ ∈ Visit.queueing .., _))

instance : Decidable (Adds x remote w p) :=
  inferInstanceAs (Decidable (∃ _ ∈ Visit.queueing .., _))

instance : Decidable (Schedules x remote w p) :=
  inferInstanceAs (Decidable (_ ∧ _))

instance : Decidable (Unwritten x remote w p) :=
  inferInstanceAs (Decidable (_ ∧ _))

/-- Where the refresh stops, it has written nothing and leaves nothing undone. -/
structure Harmless : Prop where
  records : (x.persisted = false ∨ ∃ p ∈ w.catalog.projects, Errs x remote p) →
    ∀ p ∈ w.catalog.projects, (visit x remote p).record = p
  visits : x.persisted = true → (∃ p ∈ w.catalog.projects, Errs x remote p) →
    ∀ p ∈ w.catalog.projects, ¬ Adds x remote w p ∧ ¬ Schedules x remote w p
  publications : x.persisted = true → (¬ ∃ p ∈ w.catalog.projects, Errs x remote p) →
    w.catalog.projects.Pairwise fun p q => Fails x remote w p → ¬ Adds x remote w q
  reconciliations : x.persisted = true → (¬ ∃ p ∈ w.catalog.projects, Errs x remote p) →
    (∃ p ∈ w.catalog.projects, Fails x remote w p) →
      ∀ q ∈ w.catalog.projects, ¬ Schedules x remote w q
  written : x.persisted = true → (¬ ∃ p ∈ w.catalog.projects, Errs x remote p) →
    ∀ p ∈ w.catalog.projects, ¬ Unwritten x remote w p

end Condition

namespace RefreshWorld

variable {x : RefreshInputs Oid} {remote : List (HeartbeatProject Oid)} {w : RefreshWorld Oid}
  {p : LocalProject Oid}

/-- A project whose visit meets an error has no publication. -/
theorem publication_of_errs (h : Errs x remote p) :
    (visit x remote p).publication = none ∧ (visit x remote p).reconciles = false := by
  have hnext : (visit x remote p).next = none := h
  rw [Visit.publication, Visit.reconciles, hnext]
  exact ⟨rfl, rfl⟩

omit [DecidableEq Oid] in
/-- A visit is followed by a publication or by a reconciliation, not by both. -/
theorem publication_of_reconciles {v : Visit Oid} (h : v.reconciles = true) :
    v.publication = none := by
  unfold Visit.reconciles at h
  unfold Visit.publication
  split at h
  · next hnext => rw [hnext]
  · cases h

theorem not_adds_of_none (h : (visit x remote p).publication = none) : ¬ Adds x remote w p := by
  rintro ⟨k, hk, -⟩
  rw [Visit.queueing, h] at hk
  cases hk

theorem adds_iff {r : Branch × Oid} (h : (visit x remote p).publication = some r) :
    Adds x remote w p ↔ (queueing x w.queue (visit x remote p).record r.1 r.2).adds = true := by
  simp only [Adds, Visit.queueing, h, Option.map_some, Option.mem_some_iff, exists_eq_left']

theorem fails_iff {r : Branch × Oid} (h : (visit x remote p).publication = some r) :
    Fails x remote w p ↔
      (queueing x w.queue (visit x remote p).record r.1 r.2).succeeds = false := by
  simp only [Fails, Visit.queueing, h, Option.map_some, Option.mem_some_iff, exists_eq_left']

/-- Nothing is added exactly where the queue stays as it is. -/
theorem published_queue_iff :
    ((visitedView x remote w p).published x (visit x remote p)).queue =
      (visitedView x remote w p).queue ↔ ¬ Adds x remote w p := by
  cases hpub : (visit x remote p).publication with
  | none =>
    refine ⟨fun _ => not_adds_of_none hpub, fun _ => ?_⟩
    rw [ProjectView.published, hpub]
  | some r =>
    have hqueue : queueing x (visitedView x remote w p).queue (visit x remote p).record r.1 r.2 =
        queueing x w.queue (visit x remote p).record r.1 r.2 := by
      change queueing x (w.queue.filter (·.projectId == p.projectId)) _ _ _ = _
      rw [← visit_projectId x remote p, queueing_filter]
    rw [ProjectView.published, hpub]
    simp only
    rw [queued_queue_iff, hqueue, adds_iff hpub, Bool.not_eq_true]

theorem published_eq_self (h : ¬ Adds x remote w p) :
    (visitedView x remote w p).published x (visit x remote p) = visitedView x remote w p := by
  have hsame := published_queue_iff.mpr h
  unfold ProjectView.published at hsame ⊢
  cases hpub : (visit x remote p).publication with
  | none => rfl
  | some r =>
    rw [hpub] at hsame
    exact queued_eq_self (queued_queue_iff.mp hsame)

theorem follow_queue (u : ProjectView Oid) (v : Visit Oid) :
    (u.follow x v).queue = (u.published x v).queue := by
  unfold ProjectView.follow
  split <;> rfl

theorem published_reconciling (u : ProjectView Oid) (v : Visit Oid) :
    (u.published x v).reconciling = u.reconciling := by
  unfold ProjectView.published
  split
  · unfold ProjectView.queued
    split <;> rfl
  · rfl

/-- Nothing is scheduled exactly where the mark stays as it is. -/
theorem follow_reconciling_iff :
    ((visitedView x remote w p).follow x (visit x remote p)).reconciling =
      (visitedView x remote w p).reconciling ↔ ¬ Schedules x remote w p := by
  unfold ProjectView.follow Schedules
  split
  · next hreconciles =>
    change true = decide (p.projectId ∈ w.reconciling) ↔ _
    rw [eq_comm, decide_eq_true_eq]
    exact ⟨fun h hs => hs.2 h, fun h => by_contra fun hidle => h ⟨hreconciles, hidle⟩⟩
  · next hreconciles =>
    exact ⟨fun _ hs => hreconciles hs.1, fun _ => published_reconciling ..⟩

theorem follow_eq_published (h : ¬ Schedules x remote w p) :
    (visitedView x remote w p).follow x (visit x remote p) =
      (visitedView x remote w p).published x (visit x remote p) := by
  have hsame := follow_reconciling_iff.mpr h
  unfold ProjectView.follow at hsame ⊢
  split at hsame
  · next hreconciles =>
    have hnone := publication_of_reconciles hreconciles
    rw [if_pos hreconciles, ProjectView.published, hnone]
    simp only
    change true = (visitedView x remote w p).reconciling at hsame
    rw [hsame]
  · next hreconciles => rw [if_neg hreconciles]

/-- What was left undone for a project was nothing. -/
theorem follow_eq_self_iff :
    (visitedView x remote w p).follow x (visit x remote p) = visitedView x remote w p ↔
      ¬ Adds x remote w p ∧ ¬ Schedules x remote w p := by
  constructor
  · intro h
    refine ⟨published_queue_iff.mp ?_, follow_reconciling_iff.mp ?_⟩
    · rw [← follow_queue, h]
    · rw [h]
  · rintro ⟨hadds, hschedules⟩
    rw [follow_eq_published hschedules, published_eq_self hadds]

/-- The publication of one project meets an error, and the ones of the projects
before it did not. -/
structure Stopped (x : RefreshInputs Oid) (remote : List (HeartbeatProject Oid))
    (w : RefreshWorld Oid) (before : List (LocalProject Oid)) (p : LocalProject Oid)
    (after : List (LocalProject Oid)) : Prop where
  split : w.catalog.projects = before ++ p :: after
  none_before : ¬ ∃ q ∈ before, Fails x remote w q
  fails : Fails x remote w p

theorem publication_of_fails (h : Fails x remote w p) :
    ∃ r, (visit x remote p).publication = some r := by
  obtain ⟨k, hk, -⟩ := h
  obtain ⟨r, hr, -⟩ := Option.map_eq_some_iff.mp hk
  exact ⟨r, hr⟩

/-- The publications that a part of the catalog misses. -/
theorem mem_missing {ps : List (LocalProject Oid)} {m : Missing Oid}
    (h : m ∈ ps.filterMap fun p => (visit x remote p).missing) :
    ∃ q ∈ ps, ∃ r, (visit x remote q).publication = some r ∧
      m = ⟨(visit x remote q).record, r.1, r.2⟩ := by
  obtain ⟨q, hq, hm⟩ := List.mem_filterMap.mp h
  obtain ⟨r, hr, hm⟩ := Option.map_eq_some_iff.mp hm
  exact ⟨q, hq, r, hr, hm.symm⟩

/-- They are in the order of the catalog, at most one for each project. -/
theorem missing_sublist (ps : List (LocalProject Oid)) :
    ((ps.filterMap fun p => (visit x remote p).missing).map (·.record.projectId)).Sublist
      (ps.map (·.projectId)) := by
  induction ps with
  | nil => exact List.Sublist.refl _
  | cons p ps ih =>
    cases hm : (visit x remote p).missing with
    | none =>
      rw [List.filterMap_cons_none (f := fun p => (visit x remote p).missing) hm]
      exact ih.cons _
    | some m =>
      rw [List.filterMap_cons_some (f := fun p => (visit x remote p).missing) hm, List.map_cons,
        List.map_cons]
      obtain ⟨r, -, rfl⟩ := Option.map_eq_some_iff.mp hm
      have hid : (visit x remote p).record.projectId = p.projectId := visit_projectId x remote p
      simp only [hid]
      exact ih.cons_cons _

/-- As long as no publication meets an error, each project of a part of the catalog
gets its own. -/
theorem enqueueAll_of_not_fails (hids : UniqueIds w.catalog) {ps : List (LocalProject Oid)}
    (hps : ps.Sublist w.catalog.projects) (hfails : ¬ ∃ q ∈ ps, Fails x remote w q) :
    AllEnqueued x (visitedWorld x remote w) (ps.filterMap fun p => (visit x remote p).missing)
      ((visitedWorld x remote w).enqueueAll x
        ((ps.filterMap fun p => (visit x remote p).missing).map (·.request))) := by
  apply enqueueAll_of_succeeds ((visited_sameIds x remote w).unique hids)
  · intro m hm
    obtain ⟨q, hq, r, -, rfl⟩ := mem_missing hm
    exact List.mem_map_of_mem (hps.subset hq)
  · exact ((missing_sublist ps).trans (hps.map _)).nodup hids.ids
  · intro m hm
    obtain ⟨q, hq, r, hr, rfl⟩ := mem_missing hm
    have hok : ¬ Fails x remote w q := fun hf => hfails ⟨q, hq, hf⟩
    rw [fails_iff hr, Bool.not_eq_false] at hok
    exact hok

section Queued

variable {ps : List (LocalProject Oid)} {r : RefreshWorld Oid × Bool} {q : LocalProject Oid}

/-- No publication of these projects is of another one. -/
theorem not_mem_missing (hids : UniqueIds w.catalog) (hps : ps.Sublist w.catalog.projects)
    (hq : q ∈ w.catalog.projects) (h : q ∈ ps → (visit x remote q).publication = none) :
    (visit x remote q).record.projectId ∉
      (ps.filterMap fun p => (visit x remote p).missing).map (·.record.projectId) := by
  intro hmem
  obtain ⟨m, hm, hid⟩ := List.mem_map.mp hmem
  obtain ⟨q', hq', s, hs, rfl⟩ := mem_missing hm
  have hsame : q'.projectId = q.projectId := by
    rw [← visit_projectId x remote q', ← visit_projectId x remote q]
    exact hid
  obtain rfl := List.inj_on_of_nodup_map hids.ids (hps.subset hq') hq hsame
  rw [h hq'] at hs
  cases hs

theorem view_of_queued (hids : UniqueIds w.catalog) (hps : ps.Sublist w.catalog.projects)
    (h : AllEnqueued x (visitedWorld x remote w)
      (ps.filterMap fun p => (visit x remote p).missing) r) (hq : q ∈ ps) :
    r.1.view q.projectId = (visitedView x remote w q).published x (visit x remote q) := by
  have hqc : q ∈ w.catalog.projects := hps.subset hq
  have hview : (visitedWorld x remote w).view q.projectId = visitedView x remote w q :=
    visitedWorld_view hids hqc
  cases hpub : (visit x remote q).publication with
  | none =>
    have hsame := (h.others _ (List.mem_map_of_mem hqc)
      (not_mem_missing hids hps hqc fun _ => hpub)).2
    rw [visit_projectId, hview] at hsame
    rw [hsame, ProjectView.published, hpub]
  | some s =>
    have hm : (⟨(visit x remote q).record, s.1, s.2⟩ : Missing Oid) ∈
        ps.filterMap fun p => (visit x remote p).missing := by
      refine List.mem_filterMap.mpr ⟨q, hq, ?_⟩
      rw [Visit.missing, hpub]
      rfl
    have hown := h.own _ hm
    rw [visit_projectId, hview] at hown
    rw [hown, ProjectView.published, hpub]

theorem view_of_not_queued (hids : UniqueIds w.catalog) (hps : ps.Sublist w.catalog.projects)
    (h : AllEnqueued x (visitedWorld x remote w)
      (ps.filterMap fun p => (visit x remote p).missing) r) (hq : q ∈ w.catalog.projects)
    (hout : q ∉ ps) :
    (visit x remote q).record ∈ r.1.catalog.projects ∧
      r.1.view q.projectId = visitedView x remote w q := by
  obtain ⟨hmem, hsame⟩ := h.others _ (List.mem_map_of_mem hq)
    (not_mem_missing hids hps hq fun hin => absurd hin hout)
  rw [visit_projectId, visitedWorld_view hids hq] at hsame
  exact ⟨hmem, hsame⟩

end Queued

theorem enqueueAll_append (u : RefreshWorld Oid) (as bs : List (String × Branch × Oid))
    (h : (u.enqueueAll x as).2 = true) :
    u.enqueueAll x (as ++ bs) = (u.enqueueAll x as).1.enqueueAll x bs := by
  induction as generalizing u with
  | nil => rfl
  | cons a as ih =>
    simp only [List.cons_append, enqueueAll] at h ⊢
    split at h
    · next hok =>
      rw [if_pos hok, if_pos hok]
      exact ih _ h
    · cases h

/-- The end of a refresh at a publication that meets an error. -/
theorem refresh_of_stopped (hids : UniqueIds w.catalog) (hconf : x.configured = true)
    (hheart : x.heartbeat = some remote)
    (herr : ¬ ∃ q ∈ w.catalog.projects, Errs x remote q) (hpersisted : x.persisted = true)
    {before after : List (LocalProject Oid)} (hs : Stopped x remote w before p after) :
    ∃ u, w.refresh x = (u, false) ∧
      (∀ q ∈ before ++ [p], u.view q.projectId =
        (visitedView x remote w q).published x (visit x remote q)) ∧
      (∀ q ∈ after, u.view q.projectId = visitedView x remote w q) ∧
      (u.catalog = u.disk ↔ ¬ Unwritten x remote w p) := by
  obtain ⟨s, hpub⟩ := publication_of_fails hs.fails
  have hbefore : before.Sublist w.catalog.projects := by
    rw [hs.split]
    exact List.sublist_append_left before _
  have hp : p ∈ w.catalog.projects := by
    rw [hs.split]
    exact List.mem_append_right before List.mem_cons_self
  have hnodup : (before ++ p :: after).Nodup := by
    rw [← hs.split]
    exact List.Nodup.of_map _ hids.ids
  have hp_before : p ∉ before := fun hin =>
    (List.nodup_append.mp hnodup).2.2 p hin p List.mem_cons_self rfl
  let u₁ := (visitedWorld x remote w).enqueueAll x
    ((before.filterMap fun p => (visit x remote p).missing).map (·.request))
  have hall : AllEnqueued x (visitedWorld x remote w)
      (before.filterMap fun p => (visit x remote p).missing) u₁ :=
    enqueueAll_of_not_fails hids hbefore hs.none_before
  have hsame : SameIds w.catalog u₁.1.catalog := hall.ids.trans (visited_sameIds x remote w)
  have hids₁ : UniqueIds u₁.1.catalog := hsame.unique hids
  obtain ⟨hrecord, hview⟩ := view_of_not_queued hids hbefore hall hp hp_before
  let u₂ := u₁.1.enqueue x (visit x remote p).record.projectId s.1 s.2
  have hlast : Enqueued x u₁.1 (visit x remote p).record s.1 s.2 u₂ :=
    enqueue_spec hids₁ hrecord s.1 s.2
  -- the queue has the same publications of the project as before the first call
  have hqueueing : queueing x u₁.1.queue (visit x remote p).record s.1 s.2 =
      queueing x w.queue (visit x remote p).record s.1 s.2 := by
    have hqueue : u₁.1.queue.filter (·.projectId == p.projectId) =
        w.queue.filter (·.projectId == p.projectId) := congrArg ProjectView.queue hview
    rw [← queueing_filter u₁.1.queue, ← queueing_filter w.queue, visit_projectId, hqueue]
  have hfails : u₂.2 = false := by
    rw [hlast.succeeds, hqueueing]
    exact (fails_iff hpub).mp hs.fails
  refine ⟨u₂.1, ?_, ?_, ?_, ?_⟩
  · have hmissing : allMissing x remote w =
        (before.filterMap fun p => (visit x remote p).missing) ++
          ⟨(visit x remote p).record, s.1, s.2⟩ ::
            after.filterMap fun p => (visit x remote p).missing := by
      have hm : (visit x remote p).missing = some ⟨(visit x remote p).record, s.1, s.2⟩ := by
        rw [Visit.missing, hpub]
        rfl
      rw [allMissing, hs.split, List.filterMap_append,
        List.filterMap_cons_some (f := fun p => (visit x remote p).missing) hm]
    have hstop : (visitedWorld x remote w).enqueueAll x
        ((allMissing x remote w).map (·.request)) = (u₂.1, false) := by
      rw [hmissing, List.map_append, enqueueAll_append _ _ _ hall.succeeds, List.map_cons,
        enqueueAll]
      exact if_neg (by rw [Bool.not_eq_true]; exact hfails)
    rw [refresh_of_written hconf hheart herr hpersisted, hstop]
    rfl
  · intro q hq
    rcases List.mem_append.mp hq with hq | hq
    · have hother : u₂.1.view q.projectId = u₁.1.view q.projectId := by
        apply hlast.view_other hsame (hbefore.subset hq)
        rw [visit_projectId]
        exact fun hid => hp_before
          (List.inj_on_of_nodup_map hids.ids (hbefore.subset hq) hp hid ▸ hq)
      rw [hother]
      exact view_of_queued hids hbefore hall hq
    · obtain rfl := List.mem_singleton.mp hq
      have hown := hlast.own
      rw [visit_projectId, hview] at hown
      rw [hown, ProjectView.published, hpub]
  · intro q hq
    have hqc : q ∈ w.catalog.projects := by
      rw [hs.split]
      exact List.mem_append_right before (List.mem_cons_of_mem p hq)
    have hne : q ≠ p := fun heq =>
      (List.nodup_cons.mp (List.nodup_append.mp hnodup).2.1).1 (heq ▸ hq)
    have hout : q ∉ before := fun hin =>
      (List.nodup_append.mp hnodup).2.2 q hin q (List.mem_cons_of_mem p hq) rfl
    have hother : u₂.1.view q.projectId = u₁.1.view q.projectId := by
      apply hlast.view_other hsame hqc
      rw [visit_projectId]
      exact fun hid => hne (List.inj_on_of_nodup_map hids.ids hqc hp hid)
    rw [hother]
    exact (view_of_not_queued hids hbefore hall hqc hout).2
  · rw [hlast.written (hall.written rfl), hqueueing, Unwritten, Visit.queueing, hpub]
    exact not_congr (and_congr_left' ⟨fun h => congrArg some h, fun h => Option.some.inj h⟩)

section Cases

omit [DecidableEq Oid] in
/-- A project of a catalog of which a part was visited. -/
theorem view_of_record {projects : List (LocalProject Oid)}
    (hsame : projects.map (·.identity) = w.catalog.projects.map (·.identity))
    (hids : UniqueIds w.catalog) {q : LocalProject Oid} (hq : q ∈ projects) :
    ({ w with catalog := { w.catalog with projects := projects } } : RefreshWorld Oid).view
      q.projectId = { w.view q.projectId with record := some q } := by
  have hcatalog : SameIds w.catalog { w.catalog with projects := projects } := hsame
  have hfind : findProject { w.catalog with projects := projects } q.projectId = some q :=
    (hcatalog.unique hids).find hq
  rw [view, hfind]
  rfl

/-- The other projects, by the part of the catalog that the error leaves. -/
theorem separate_of_error (hids : UniqueIds w.catalog) (hdisk : w.catalog = w.disk)
    (hconf : x.configured = true) (hheart : x.heartbeat = some remote)
    (hex : ∃ p ∈ w.catalog.projects, Errs x remote p) :
    w.Separate x ↔ (∀ p ∈ w.catalog.projects, (visit x remote p).record = p) ∧
      (x.persisted = true → ∀ p ∈ w.catalog.projects,
        ¬ Adds x remote w p ∧ ¬ Schedules x remote w p) := by
  obtain ⟨before, k, after, hsplit, hbefore, hk⟩ := exists_first hex
  have hrefresh := refresh_of_error (w := w) hconf hheart hsplit hbefore hk
  have halone : ∀ p ∈ w.catalog.projects, x.persisted = true → ¬ Errs x remote p →
      ((w.alone p).refresh (x.alone p)).1.view p.projectId =
        (visitedView x remote w p).follow x (visit x remote p) := fun p hp hpersisted herr =>
    alone_of_follow hids hp hconf hheart hpersisted herr
  have herrs : ∀ p, Errs x remote p → ¬ Adds x remote w p ∧ ¬ Schedules x remote w p := by
    intro p he
    obtain ⟨hpub, hreconciles⟩ := publication_of_errs he
    refine ⟨not_adds_of_none hpub, fun hs => ?_⟩
    rw [Schedules, hreconciles] at hs
    cases hs.1
  rw [Separate, hrefresh]
  constructor
  · rintro ⟨hviews, hsync⟩
    have hsame : ((before.map fun q => (visit x remote q).record) ++
        (visit x remote k).record :: after).map (·.identity) =
          w.catalog.projects.map (·.identity) := by
      rw [hsplit, List.map_append, List.map_append, List.map_map, List.map_cons, List.map_cons,
        visit_identity]
      exact congrArg (· ++ _) (List.map_congr_left fun q _ => visit_identity x remote q)
    -- the projects up to the error are in memory as they were visited
    have hvisited : ∀ p, p ∈ before ∨ p = k → (visit x remote p).record = p := by
      have hprojects : (before.map fun q => (visit x remote q).record) ++
          (visit x remote k).record :: after = before ++ k :: after := by
        have hcatalog := (hsync rfl).trans hdisk.symm
        exact (congrArg LocalCatalog.projects hcatalog).trans hsplit
      obtain ⟨hmap, hlast⟩ := List.append_inj hprojects (List.length_map _)
      rintro p (hp | rfl)
      · have hid : (before.map fun q => (visit x remote q).record) = before.map id := by
          rw [hmap, List.map_id]
        exact List.map_inj_left.mp hid p hp
      · exact (List.cons.inj hlast).1
    have hown : ∀ p ∈ w.catalog.projects, (visit x remote p).record = p ∧
        (x.persisted = true → ¬ Adds x remote w p ∧ ¬ Schedules x remote w p) := by
      intro p hp
      have hview := hviews p hp
      have hmem : p ∈ before ++ k :: after := hsplit ▸ hp
      have hplace : (p ∈ before ∨ p = k) ∨ p ∈ after := by
        rcases List.mem_append.mp hmem with h | h
        · exact Or.inl (Or.inl h)
        · exact (List.mem_cons.mp h).imp_left Or.inr
      have hself : (visit x remote p).record = p → w.view p.projectId =
          visitedView x remote w p := by
        intro hrecord
        rw [visitedView, hrecord, ← hids.find hp]
        rfl
      rcases hplace with hvisit | hafter
      · have hrecord := hvisited p hvisit
        have hin : p ∈ (before.map fun q => (visit x remote q).record) ++
            (visit x remote k).record :: after := by
          rcases hvisit with h | rfl
          · exact List.mem_append_left _ (List.mem_map.mpr ⟨p, h, hrecord⟩)
          · refine List.mem_append_right _ ?_
            rw [hrecord]
            exact List.mem_cons_self
        refine ⟨hrecord, fun hpersisted => ?_⟩
        by_cases he : Errs x remote p
        · exact herrs p he
        · rw [halone p hp hpersisted he, view_of_record hsame hids hin] at hview
          refine follow_eq_self_iff.mp (hview.symm.trans ?_)
          rw [visitedView, hrecord]
      · have hin : p ∈ (before.map fun q => (visit x remote q).record) ++
            (visit x remote k).record :: after :=
          List.mem_append_right _ (List.mem_cons_of_mem _ hafter)
        rw [view_of_record hsame hids hin] at hview
        by_cases he : Errs x remote p ∨ x.persisted = false
        · rw [alone_of_visit hids hp hconf hheart he] at hview
          refine ⟨(Option.some.inj (congrArg ProjectView.record hview)).symm, fun hpersisted => ?_⟩
          rcases he with he | he
          · exact herrs p he
          · rw [hpersisted] at he
            cases he
        · rw [not_or, Bool.not_eq_false] at he
          rw [halone p hp he.2 he.1] at hview
          have hadds : ¬ Adds x remote w p := by
            apply published_queue_iff.mp
            rw [← follow_queue, ← hview]
            rfl
          have hschedules : ¬ Schedules x remote w p := by
            apply follow_reconciling_iff.mp
            rw [← hview]
            rfl
          rw [follow_eq_self_iff.mpr ⟨hadds, hschedules⟩] at hview
          exact ⟨(Option.some.inj (congrArg ProjectView.record hview)).symm,
            fun _ => ⟨hadds, hschedules⟩⟩
    exact ⟨fun p hp => (hown p hp).1, fun hpersisted p hp => (hown p hp).2 hpersisted⟩
  · rintro ⟨hrecords, hnone⟩
    have hprojects : (before.map fun q => (visit x remote q).record) ++
        (visit x remote k).record :: after = w.catalog.projects := by
      have hmap : (before.map fun q => (visit x remote q).record) = before.map id :=
        List.map_congr_left fun q hq => hrecords q (by
          rw [hsplit]
          exact List.mem_append_left _ hq)
      rw [hmap, List.map_id, hrecords k (by
        rw [hsplit]
        exact List.mem_append_right before List.mem_cons_self), hsplit]
    rw [hprojects]
    refine ⟨fun p hp => ?_, fun _ => hdisk⟩
    have hview : w.view p.projectId = visitedView x remote w p := by
      rw [visitedView, hrecords p hp, ← hids.find hp]
      rfl
    have hgoal : visitedView x remote w p =
        ((w.alone p).refresh (x.alone p)).1.view p.projectId := by
      by_cases hvisit : Errs x remote p ∨ x.persisted = false
      · exact (alone_of_visit hids hp hconf hheart hvisit).symm
      · rw [not_or, Bool.not_eq_false] at hvisit
        rw [halone p hp hvisit.2 hvisit.1]
        exact (follow_eq_self_iff.mpr (hnone hvisit.2 p hp)).symm
    exact hview.trans hgoal

/-- A refresh whose catalog is not written. -/
theorem separate_of_unwritten (hids : UniqueIds w.catalog) (hdisk : w.catalog = w.disk)
    (hconf : x.configured = true) (hheart : x.heartbeat = some remote)
    (herr : ¬ ∃ p ∈ w.catalog.projects, Errs x remote p) (hpersisted : x.persisted = false) :
    w.Separate x ↔ ∀ p ∈ w.catalog.projects, (visit x remote p).record = p := by
  rw [Separate, refresh_of_unwritten hconf hheart herr hpersisted]
  have hviews : ∀ p ∈ w.catalog.projects,
      ({ visitedWorld x remote w with disk := w.disk } : RefreshWorld Oid).view p.projectId =
        ((w.alone p).refresh (x.alone p)).1.view p.projectId := by
    intro p hp
    rw [alone_of_visit hids hp hconf hheart (Or.inr hpersisted)]
    exact visitedWorld_view hids hp
  constructor
  · rintro ⟨-, hsync⟩ p hp
    have hcatalog := (hsync rfl).trans hdisk.symm
    have hmap : w.catalog.projects.map (fun p => (visit x remote p).record) =
        w.catalog.projects.map id := by
      rw [List.map_id]
      exact congrArg LocalCatalog.projects hcatalog
    exact List.map_inj_left.mp hmap p hp
  · intro hrecords
    refine ⟨hviews, fun _ => ?_⟩
    have hmap : w.catalog.projects.map (fun p => (visit x remote p).record) =
        w.catalog.projects := by
      rw [List.map_congr_left hrecords, List.map_id']
    change ({ w.catalog with
      projects := w.catalog.projects.map fun p => (visit x remote p).record } :
        LocalCatalog Oid) = w.disk
    rw [hmap, ← hdisk]

/-- A refresh whose publications are all queued. -/
theorem separate_of_not_fails (hids : UniqueIds w.catalog)
    (hconf : x.configured = true) (hheart : x.heartbeat = some remote)
    (herr : ¬ ∃ p ∈ w.catalog.projects, Errs x remote p) (hpersisted : x.persisted = true)
    (hfails : ¬ ∃ p ∈ w.catalog.projects, Fails x remote w p) : w.Separate x := by
  have hall : AllEnqueued x (visitedWorld x remote w) (allMissing x remote w)
      ((visitedWorld x remote w).enqueueAll x ((allMissing x remote w).map (·.request))) :=
    enqueueAll_of_not_fails hids (List.Sublist.refl _) hfails
  have hrefresh := refresh_of_written hconf hheart herr hpersisted
  rw [if_pos hall.succeeds] at hrefresh
  rw [Separate, hrefresh]
  refine ⟨fun p hp => ?_, fun h => by cases h⟩
  have herr' : ¬ Errs x remote p := fun he => herr ⟨p, hp, he⟩
  rw [alone_of_follow hids hp hconf hheart hpersisted herr']
  have hview := view_of_queued hids (List.Sublist.refl _) hall hp
  obtain ⟨hcatalog, -, hqueue, hreconciling⟩ := foldl_schedule
    ((visitedWorld x remote w).enqueueAll x ((allMissing x remote w).map (·.request))).1
    (allReconciling x remote w)
  have hmember : p.projectId ∈ allReconciling x remote w ↔
      (visit x remote p).reconciles = true := by
    rw [allReconciling, mem_pendingReconciliation]
    constructor
    · rintro ⟨q, hq, hreconciles, hid⟩
      obtain rfl := List.inj_on_of_nodup_map hids.ids hq hp hid
      exact hreconciles
    · exact fun hreconciles => ⟨p, hp, hreconciles, rfl⟩
  have hmark := hreconciling p.projectId
  rw [hmember, hall.reconciling] at hmark
  have hfinal : ((allReconciling x remote w).foldl schedule
      ((visitedWorld x remote w).enqueueAll x
        ((allMissing x remote w).map (·.request))).1).view p.projectId =
      { (visitedView x remote w p).published x (visit x remote p) with
        reconciling := decide ((visit x remote p).reconciles = true ∨
          p.projectId ∈ w.reconciling) } := by
    rw [← hview]
    simp only [view, hcatalog, hqueue, hmark]
    rfl
  change ((allReconciling x remote w).foldl schedule _).view p.projectId = _
  rw [hfinal, ProjectView.follow]
  by_cases hreconciles : (visit x remote p).reconciles = true
  · simp only [hreconciles, true_or, decide_true, if_true]
  · have hown : ((visitedView x remote w p).published x (visit x remote p)).reconciling =
        decide (p.projectId ∈ w.reconciling) := published_reconciling ..
    rw [if_neg hreconciles]
    simp only [hreconciles, Bool.false_eq_true, false_or]
    rw [← hown]

/-- A refresh that stops at a publication. -/
theorem separate_of_stopped (hids : UniqueIds w.catalog)
    (hconf : x.configured = true) (hheart : x.heartbeat = some remote)
    (herr : ¬ ∃ p ∈ w.catalog.projects, Errs x remote p) (hpersisted : x.persisted = true)
    {before after : List (LocalProject Oid)} (hs : Stopped x remote w before p after) :
    w.Separate x ↔ (∀ q ∈ after, ¬ Adds x remote w q) ∧
      (∀ q ∈ w.catalog.projects, ¬ Schedules x remote w q) ∧ ¬ Unwritten x remote w p := by
  obtain ⟨u, hrefresh, hdone, hleft, hwritten⟩ :=
    refresh_of_stopped hids hconf hheart herr hpersisted hs
  have hmem : ∀ q, q ∈ w.catalog.projects ↔ q ∈ before ++ [p] ∨ q ∈ after := by
    intro q
    rw [hs.split, List.append_cons, List.mem_append]
  have halone : ∀ q ∈ w.catalog.projects,
      ((w.alone q).refresh (x.alone q)).1.view q.projectId =
        (visitedView x remote w q).follow x (visit x remote q) := fun q hq =>
    alone_of_follow hids hq hconf hheart hpersisted fun he => herr ⟨q, hq, he⟩
  rw [Separate, hrefresh]
  constructor
  · rintro ⟨hviews, hsync⟩
    have hundone : ∀ q ∈ after, ¬ Adds x remote w q ∧ ¬ Schedules x remote w q := by
      intro q hq
      have hqc := (hmem q).mpr (Or.inr hq)
      exact follow_eq_self_iff.mp
        ((halone q hqc).symm.trans ((hviews q hqc).symm.trans (hleft q hq)))
    refine ⟨fun q hq => (hundone q hq).1, fun q hq => ?_, hwritten.mp (hsync rfl)⟩
    rcases (hmem q).mp hq with hin | hin
    · have hsame : (visitedView x remote w q).follow x (visit x remote q) =
          (visitedView x remote w q).published x (visit x remote q) :=
        (halone q hq).symm.trans ((hviews q hq).symm.trans (hdone q hin))
      apply follow_reconciling_iff.mp
      rw [hsame, published_reconciling]
    · exact (hundone q hin).2
  · rintro ⟨hadds, hschedules, hnote⟩
    refine ⟨fun q hq => ?_, fun _ => hwritten.mpr hnote⟩
    rw [halone q hq]
    rcases (hmem q).mp hq with hin | hin
    · exact (hdone q hin).trans (follow_eq_published (hschedules q hq)).symm
    · exact (hleft q hin).trans (follow_eq_self_iff.mpr ⟨hadds q hin, hschedules q hq⟩).symm

end Cases

/-- A publication that meets an error has not been noted on disk. -/
theorem fails_of_unwritten (h : Unwritten x remote w p) : Fails x remote w p ∧ Adds x remote w p :=
  ⟨⟨_, h.1, rfl⟩, ⟨_, h.1, rfl⟩⟩

/-- The end at a publication, for the whole catalog. -/
theorem harmless_of_stopped (herr : ¬ ∃ p ∈ w.catalog.projects, Errs x remote p)
    (hpersisted : x.persisted = true) {before after : List (LocalProject Oid)}
    (hs : Stopped x remote w before p after) :
    Harmless x remote w ↔ (∀ q ∈ after, ¬ Adds x remote w q) ∧
      (∀ q ∈ w.catalog.projects, ¬ Schedules x remote w q) ∧ ¬ Unwritten x remote w p := by
  have hp : p ∈ w.catalog.projects := by
    rw [hs.split]
    exact List.mem_append_right before List.mem_cons_self
  constructor
  · intro h
    refine ⟨fun q hq => ?_, h.reconciliations hpersisted herr ⟨p, hp, hs.fails⟩,
      h.written hpersisted herr p hp⟩
    have hpairs := h.publications hpersisted herr
    rw [hs.split, List.pairwise_append] at hpairs
    exact (List.pairwise_cons.mp hpairs.2.1).1 q hq hs.fails
  · rintro ⟨hadds, hschedules, hnote⟩
    have hnone : ∀ q ∈ before, ¬ Fails x remote w q := fun q hq hf => hs.none_before ⟨q, hq, hf⟩
    refine ⟨fun h => ?_, fun _ h => absurd h herr, fun _ _ => ?_, fun _ _ _ => hschedules,
      fun _ _ q hq hu => ?_⟩
    · rcases h with h | h
      · rw [hpersisted] at h
        cases h
      · exact absurd h herr
    · rw [hs.split, List.pairwise_append, List.pairwise_cons]
      refine ⟨?_, ⟨fun q hq _ => hadds q hq, ?_⟩, fun a ha b _ hf => absurd hf (hnone a ha)⟩
      · exact List.pairwise_of_forall_mem_list fun a ha b _ hf => absurd hf (hnone a ha)
      · exact List.pairwise_of_forall_mem_list fun a _ b hb _ => hadds b hb
    · rw [hs.split] at hq
      rcases List.mem_append.mp hq with hq | hq
      · exact hnone q hq (fails_of_unwritten hu).1
      · rcases List.mem_cons.mp hq with rfl | hq
        · exact hnote hu
        · exact hadds q hq (fails_of_unwritten hu).2

end RefreshWorld

open RefreshWorld

/-- One refresh does for every project what it does for the project alone, and errs
with the catalog of the disk in memory, exactly where it stops without harm. -/
theorem refresh_is_separate_iff (catalog : LocalCatalog Oid) (queue : List (Publication Oid))
    (reconciling : List String) (x : RefreshInputs Oid) (hids : UniqueIds catalog) :
    (start catalog queue reconciling).Separate x ↔
      (x.configured = true → ∀ remote ∈ x.heartbeat,
        Harmless x remote (start catalog queue reconciling)) := by
  let w := start catalog queue reconciling
  by_cases hconf : x.configured = true
  · cases hheart : x.heartbeat with
    -- Without a heartbeat the refresh errs for each project alone as well.
    | none =>
      have hrefresh : w.refresh x = (w, false) := by rw [refresh, if_pos hconf, hheart]
      refine ⟨fun _ _ remote hremote => (by cases hremote), fun _ => ?_⟩
      change w.Separate x
      rw [Separate, hrefresh]
      refine ⟨fun p hp => ?_, fun _ => rfl⟩
      have halone : (w.alone p).refresh (x.alone p) = (w.alone p, false) := by
        have hnone : (x.alone p).heartbeat = none := by
          rw [RefreshInputs.alone, hheart]
          rfl
        have hconf' : (x.alone p).configured = true := hconf
        rw [refresh, if_pos hconf', hnone]
      rw [halone]
      exact (alone_view hids hp).symm
    | some remote =>
      have hiff : w.Separate x ↔ Harmless x remote w := by
        -- An error in the loop, a catalog that cannot be written, or a follow-up that
        -- fails.
        by_cases herr : ∃ p ∈ w.catalog.projects, Errs x remote p
        · rw [separate_of_error hids rfl hconf hheart herr]
          refine ⟨fun h => ⟨fun _ => h.1, fun hpersisted _ => h.2 hpersisted,
            fun _ hnone => absurd herr hnone, fun _ hnone => absurd herr hnone,
            fun _ hnone => absurd herr hnone⟩, fun h => ?_⟩
          exact ⟨h.records (Or.inr herr), fun hpersisted => h.visits hpersisted herr⟩
        · cases hpersisted : x.persisted with
          | false =>
            rw [separate_of_unwritten hids rfl hconf hheart herr hpersisted]
            have hfalse : x.persisted ≠ true := by
              rw [hpersisted]
              exact Bool.false_ne_true
            exact ⟨fun h => ⟨fun _ => h, fun ht => absurd ht hfalse, fun ht => absurd ht hfalse,
              fun ht => absurd ht hfalse, fun ht => absurd ht hfalse⟩,
              fun h => h.records (Or.inl hpersisted)⟩
          | true =>
            by_cases hfails : ∃ p ∈ w.catalog.projects, Fails x remote w p
            · obtain ⟨before, p, after, hsplit, hnone, hp⟩ := exists_first hfails
              have hs : Stopped x remote w before p after := ⟨hsplit, hnone, hp⟩
              rw [separate_of_stopped hids hconf hheart herr hpersisted hs,
                harmless_of_stopped herr hpersisted hs]
            · refine iff_of_true (separate_of_not_fails hids hconf hheart herr hpersisted hfails) ?_
              have hnone : ∀ p ∈ w.catalog.projects, ¬ Fails x remote w p :=
                fun p hp hf => hfails ⟨p, hp, hf⟩
              refine ⟨fun h => ?_, fun _ h => absurd h herr, fun _ _ => ?_,
                fun _ _ h => absurd h hfails, fun _ _ p hp hu => hnone p hp (fails_of_unwritten hu).1⟩
              · rcases h with h | h
                · rw [hpersisted] at h
                  cases h
                · exact absurd h herr
              · exact List.pairwise_of_forall_mem_list fun a ha b _ hf => absurd hf (hnone a ha)
      refine hiff.trans ⟨fun h _ r hr => ?_, fun h => h hconf remote rfl⟩
      obtain rfl := Option.mem_some.mp hr
      exact h
  -- Without a configured service the refresh does nothing.
  · have hrefresh : w.refresh x = (w, true) := by rw [refresh, if_neg hconf]
    refine ⟨fun _ h => absurd h hconf, fun _ => ?_⟩
    change w.Separate x
    rw [Separate, hrefresh]
    refine ⟨fun p hp => ?_, fun h => by cases h⟩
    have halone : (w.alone p).refresh (x.alone p) = (w.alone p, true) := by
      have hconf' : ¬ (x.alone p).configured = true := hconf
      rw [refresh, if_neg hconf']
    rw [halone]
    exact (alone_view hids hp).symm

section TwoProjects

/-- The first project has a branch without a commit, and the second one is behind
its hosted branch. -/
def unbornProject : LocalProject ℕ :=
  { currentProject with projectId := "unborn", localPath := "/unborn" }

def behindProject : LocalProject ℕ :=
  { currentProject with projectId := "behind", localPath := "/behind" }

def aheadProject : LocalProject ℕ :=
  { currentProject with projectId := "ahead", localPath := "/ahead" }

/-- The answers of Git: commit `2` is not below commit `1`, and `1` is below `3`. -/
def answersOf (path : String) : CheckoutAnswers ℕ where
  branch := some "main"
  fetched := if path = "/unborn" then .ok none else if path = "/behind" then .ok (some 2)
    else .ok (some 1)
  head := if path = "/unborn" then none else if path = "/behind" then some 1 else some 3
  isAncestor a b := some (decide (a < b))
  verifies _ := true

def refreshOf (ids : List String) : RefreshInputs ℕ where
  configured := true
  heartbeat := some (ids.map fun id => ⟨id, "ACTIVE", none, 1⟩)
  answers := answersOf
  persisted := true
  publicationId id := "publication-" ++ id
  now _ := 5
  fault _ := none

/-- The unborn branch of one project keeps the other from being reconciled. -/
theorem unborn_head_stops_others :
    ((start ⟨0, [unbornProject, behindProject]⟩ [] []).refresh
      (refreshOf ["unborn", "behind"])).1.reconciling = [] ∧
    ((start ⟨0, [behindProject]⟩ [] []).refresh
      (refreshOf ["unborn", "behind"])).1.reconciling = ["behind"] ∧
    ¬ (start ⟨0, [unbornProject, behindProject]⟩ [] []).Separate
      (refreshOf ["unborn", "behind"]) := by
  refine ⟨by decide, by decide, fun h => ?_⟩
  have hview := h.1 behindProject (List.mem_cons_of_mem _ List.mem_cons_self)
  have hmark := congrArg ProjectView.reconciling hview
  have htogether : behindProject.projectId ∉ ((start ⟨0, [unbornProject, behindProject]⟩ [] []).refresh
      (refreshOf ["unborn", "behind"])).1.reconciling := by decide
  have halone : behindProject.projectId ∈ (((start ⟨0, [unbornProject, behindProject]⟩ [] []).alone
      behindProject).refresh ((refreshOf ["unborn", "behind"]).alone
        behindProject)).1.reconciling := by decide
  simp only [view] at hmark
  rw [decide_eq_false htogether, decide_eq_true halone] at hmark
  cases hmark

theorem uniqueIds_twoProjects : UniqueIds (⟨0, [behindProject, aheadProject]⟩ : LocalCatalog ℕ) where
  ids := by decide
  paths := by decide

theorem refresh_is_separate_two :
    (start ⟨0, [behindProject, aheadProject]⟩ [] []).Separate (refreshOf ["behind", "ahead"]) := by
  have hiff := refresh_is_separate_iff ⟨0, [behindProject, aheadProject]⟩ [] []
    (refreshOf ["behind", "ahead"]) uniqueIds_twoProjects
  refine hiff.mpr fun _ remote hremote => ?_
  obtain rfl := Option.mem_some.mp hremote
  refine ⟨fun h => ?_, fun _ h => absurd h ?_, fun _ _ => ?_, fun _ _ h => absurd h ?_, fun _ _ => ?_⟩
  · exact absurd h (by decide)
  · decide
  · decide
  · decide
  · decide

end TwoProjects

end Resync
