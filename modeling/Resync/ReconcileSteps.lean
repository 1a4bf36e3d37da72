import Resync.Daemon

/-! The forms of the steps of a call of `reconcile_exclusive`. What such a step preserves
is proved over them, and only their own proof takes the step function apart. -/
namespace Resync.DaemonWorld

variable {Oid Task : Type} [DecidableEq Oid] [DecidableEq Task] {G : CommitGraph Oid}
  {w w' : DaemonWorld Oid Task} {task : Option Task}

/-- What a step of a call can do, with its guards. -/
inductive ReconcileStep (G : CommitGraph Oid) (w : DaemonWorld Oid Task) (task : Option Task) :
    ReconcileEvent Oid → DaemonWorld Oid Task → Prop
  | requests {name : String} (own : task ≠ none) (place : w.reconciling task = .idle) :
      ReconcileStep G w task (.sync name) (w.place task (.refreshing name))
  | isRefreshed {name : String} (place : w.reconciling task = .refreshing name) :
      ReconcileStep G w task (.refreshed true) (w.place task (.called .sync name))
  | losesRefresh {name : String} (place : w.reconciling task = .refreshing name) :
      ReconcileStep G w task (.refreshed false) (w.place task .idle)
  | starts {name : String} (own : task ≠ none) (place : w.reconciling task = .idle) :
      ReconcileStep G w task (.background name) (w.place task (.called .background name))
  | calls {a : Attempt Oid} {p : Publication Oid} {remoteHead : Option Oid} (own : task = none)
      (place : w.reconciling task = .idle)
      (delivery : w.publish.delivery = .reconciling a p remoteHead) :
      ReconcileStep G w task .deliver (w.place task (.called .delivery p.projectId))
  | stages {caller : Caller} {name : String} {project : LocalProject Oid}
      (place : w.reconciling task = .called caller name)
      (found : findProject w.publish.catalog name = some project) :
      ReconcileStep G w task .stage (w.place task (.staged caller name project))
  | stagesUnknown {caller : Caller} {name : String}
      (place : w.reconciling task = .called caller name)
      (unknown : findProject w.publish.catalog name = none) :
      ReconcileStep G w task .stage (w.place task (.answered caller name none))
  | locates {caller : Caller} {name : String} {project : LocalProject Oid} {branch : Branch}
      (place : w.reconciling task = .staged caller name project)
      (head : (w.publish.checkouts project.localPath).headBranch = some branch) :
      ReconcileStep G w task .locate (w.place task (.located caller name project branch))
  | isDetached {caller : Caller} {name : String} {project : LocalProject Oid}
      (place : w.reconciling task = .staged caller name project)
      (head : (w.publish.checkouts project.localPath).headBranch = none) :
      ReconcileStep G w task .locate (w.place task (.answered caller name none))
  | failsPreparation {caller : Caller} {name : String} {project : LocalProject Oid}
      {branch : Branch} {cleared : Bool} {rebase : Rebase Oid}
      (place : w.reconciling task = .located caller name project branch)
      (prepared : prepareProjectReconciliation G (rebase.answers branch
        (w.publish.checkouts project.localPath).headCommit cleared) project = none) :
      ReconcileStep G w task (.prepare cleared rebase)
        (w.place task (.answered caller name none))
  | completes {caller : Caller} {name : String} {project staged : LocalProject Oid}
      {branch actual : Branch} {cleared : Bool} {rebase : Rebase Oid}
      {result : ReconcileResult Oid} {expected : ℕ} {target : Option Oid}
      (place : w.reconciling task = .located caller name project branch)
      (prepared : prepareProjectReconciliation G (rebase.answers branch
        (w.publish.checkouts project.localPath).headCommit cleared) project =
          some (.complete staged result expected actual target)) :
      ReconcileStep G w task (.prepare cleared rebase)
        (w.place task (.complete caller name staged result expected actual target))
  | prepares {caller : Caller} {name : String} {project staged : LocalProject Oid}
      {branch actual : Branch} {cleared : Bool} {candidate : PreparedInstall Oid}
      {expected : ℕ} {target : Oid}
      (place : w.reconciling task = .located caller name project branch)
      (prepared : prepareProjectReconciliation G (Rebase.answers (.ready candidate) branch
        (w.publish.checkouts project.localPath).headCommit cleared) project =
          some (.prepared staged expected actual target)) :
      ReconcileStep G w task (.prepare cleared (.ready candidate))
        (w.place task (.prepared caller name ⟨staged, expected, actual, target⟩ candidate))
  | mergesUnknown {caller : Caller} {name : String} {staged : LocalProject Oid}
      {result : ReconcileResult Oid} {expected : ℕ} {branch : Branch} {target : Option Oid}
      {persisted : Bool}
      (place : w.reconciling task = .complete caller name staged result expected branch target)
      (unknown : findProject w.publish.catalog name = none) :
      ReconcileStep G w task (.merge persisted) (w.place task (.answered caller name none))
  | merges {caller : Caller} {name : String} {staged project : LocalProject Oid}
      {result : ReconcileResult Oid} {expected : ℕ} {branch : Branch} {target : Option Oid}
      {persisted : Bool}
      (place : w.reconciling task = .complete caller name staged result expected branch target)
      (found : findProject w.publish.catalog name = some project)
      (still : stillComplete project expected branch target = true) :
      ReconcileStep G w task (.merge persisted)
        ((w.setPublish (w.publish.setProject name (mergeReconciliationState · staged))).place
          task (.answered caller name (if persisted then some result.outcome else none)))
  | isOutdated {caller : Caller} {name : String} {staged project : LocalProject Oid}
      {result : ReconcileResult Oid} {expected : ℕ} {branch : Branch} {target : Option Oid}
      {persisted : Bool}
      (place : w.reconciling task = .complete caller name staged result expected branch target)
      (found : findProject w.publish.catalog name = some project)
      (still : ¬ stillComplete project expected branch target = true) :
      ReconcileStep G w task (.merge persisted)
        (w.place task (.answered caller name (some .retry)))
  | installsUnknown {caller : Caller} {name : String} {p : PreparedProject Oid}
      {candidate : PreparedInstall Oid} {installed : Installed} {cleared persisted : Bool}
      (place : w.reconciling task = .prepared caller name p candidate)
      (unknown : findProject w.publish.catalog name = none) :
      ReconcileStep G w task (.install installed cleared persisted)
        (w.place task (.answered caller name none))
  | isUnwanted {caller : Caller} {name : String} {p : PreparedProject Oid}
      {candidate : PreparedInstall Oid} {project : LocalProject Oid} {installed : Installed}
      {cleared persisted : Bool} (place : w.reconciling task = .prepared caller name p candidate)
      (found : findProject w.publish.catalog name = some project)
      (wanted : ¬ AccessWorld.stillWanted project p
        (w.publish.checkouts project.localPath).headBranch = true) :
      ReconcileStep G w task (.install installed cleared persisted)
        (w.place task (.answered caller name (if cleared then some .retry else none)))
  | failsInstallation {caller : Caller} {name : String} {p : PreparedProject Oid}
      {candidate : PreparedInstall Oid} {project : LocalProject Oid} {installed : Installed}
      {cleared persisted : Bool} {publish : PublishWorld Oid Task}
      (place : w.reconciling task = .prepared caller name p candidate)
      (found : findProject w.publish.catalog name = some project)
      (wanted : AccessWorld.stillWanted project p
        (w.publish.checkouts project.localPath).headBranch = true)
      (moved : (if installed.moves then w.publish.step G (.install project.localPath
        candidate.headRef candidate.new candidate.old) else some w.publish) = some publish)
      (result : ((installed.result candidate).bind fun r =>
        (applyReconciliationResult p.staged p.branch p.target r cleared).map
          fun staged => (staged, r.outcome)) = none) :
      ReconcileStep G w task (.install installed cleared persisted)
        ((w.setPublish publish).place task (.answered caller name none))
  | installs {caller : Caller} {name : String} {p : PreparedProject Oid}
      {candidate : PreparedInstall Oid} {project staged : LocalProject Oid}
      {installed : Installed} {cleared persisted : Bool} {publish : PublishWorld Oid Task}
      {outcome : Outcome} (place : w.reconciling task = .prepared caller name p candidate)
      (found : findProject w.publish.catalog name = some project)
      (wanted : AccessWorld.stillWanted project p
        (w.publish.checkouts project.localPath).headBranch = true)
      (moved : (if installed.moves then w.publish.step G (.install project.localPath
        candidate.headRef candidate.new candidate.old) else some w.publish) = some publish)
      (result : ((installed.result candidate).bind fun r =>
        (applyReconciliationResult p.staged p.branch p.target r cleared).map
          fun staged => (staged, r.outcome)) = some (staged, outcome)) :
      ReconcileStep G w task (.install installed cleared persisted)
        ((w.setPublish (publish.setProject name (mergeReconciliationState · staged))).place
          task (.answered caller name (if persisted then some outcome else none)))
  | retries {name error : String}
      (place : w.reconciling task = .answered .background name (some .retry)) :
      ReconcileStep G w task (.answer error) (w.place task (.called .background name))
  | ends {name error : String} {outcome : Outcome}
      (place : w.reconciling task = .answered .background name (some outcome)) :
      ReconcileStep G w task (.answer error) (w.place task .idle)
  | notes {name error : String} (place : w.reconciling task = .answered .background name none) :
      ReconcileStep G w task (.answer error)
        ((w.setPublish (w.publish.setProject name fun p =>
          { p with
            state := if p.state = .reconciling then .remoteAhead else p.state,
            lastError := some error })).place task .idle)
  | delivers {name error : String} {outcome : Outcome} {publish : PublishWorld Oid Task}
      (place : w.reconciling task = .answered .delivery name (some outcome))
      (step : w.publish.deliver G (.reconcile outcome.text) = some publish) :
      ReconcileStep G w task (.answer error) ((w.setPublish publish).place task .idle)
  | failsDelivery {name error : String} {publish : PublishWorld Oid Task}
      (place : w.reconciling task = .answered .delivery name none)
      (step : w.publish.deliver G (.fail error) = some publish) :
      ReconcileStep G w task (.answer error) ((w.setPublish publish).place task .idle)
  | returns {name error : String} {outcome : Option Outcome}
      (place : w.reconciling task = .answered .sync name outcome) :
      ReconcileStep G w task (.answer error) (w.place task .idle)

theorem reconcileStep_of_reconcile {e : ReconcileEvent Oid}
    (h : w.reconcile G task e = some w') : ReconcileStep G w task e w' := by
  cases e with
  | sync name =>
    simp only [reconcile] at h
    split at h
    · next hplace => exact Option.some.inj h ▸ .requests (Option.some_ne_none _) hplace
    · cases h
  | refreshed ok =>
    simp only [reconcile] at h
    split at h
    · next hplace =>
      cases ok with
      | true => exact Option.some.inj h ▸ .isRefreshed hplace
      | false => exact Option.some.inj h ▸ .losesRefresh hplace
    · cases h
  | background name =>
    simp only [reconcile] at h
    split at h
    · next hplace => exact Option.some.inj h ▸ .starts (Option.some_ne_none _) hplace
    · cases h
  | deliver =>
    simp only [reconcile] at h
    split at h
    · next hdelivery hplace => exact Option.some.inj h ▸ .calls rfl hplace hdelivery
    · cases h
  | stage =>
    simp only [reconcile] at h
    split at h
    · next hplace =>
      split at h
      · next hfound => exact Option.some.inj h ▸ .stages hplace hfound
      · next hnone => exact Option.some.inj h ▸ .stagesUnknown hplace hnone
    · cases h
  | locate =>
    simp only [reconcile] at h
    split at h
    · next hplace =>
      split at h
      · next hhead => exact Option.some.inj h ▸ .locates hplace hhead
      · next hhead => exact Option.some.inj h ▸ .isDetached hplace hhead
    · cases h
  | prepare cleared rebase =>
    simp only [reconcile, prepare] at h
    split at h
    · next hplace =>
      split at h
      · next hprepared => exact Option.some.inj h ▸ .failsPreparation hplace hprepared
      · next hprepared => exact Option.some.inj h ▸ .completes hplace hprepared
      · next hprepared =>
        split at h
        · exact Option.some.inj h ▸ .prepares hplace hprepared
        · cases h
    · cases h
  | merge persisted =>
    simp only [reconcile, merge] at h
    split at h
    · next hplace =>
      split at h
      · next hnone => exact Option.some.inj h ▸ .mergesUnknown hplace hnone
      · next hfound =>
        split at h
        · next hstill => exact Option.some.inj h ▸ .merges hplace hfound hstill
        · next hstill => exact Option.some.inj h ▸ .isOutdated hplace hfound hstill
    · cases h
  | install installed cleared persisted =>
    simp only [reconcile, install] at h
    split at h
    · next hplace =>
      split at h
      · next hnone => exact Option.some.inj h ▸ .installsUnknown hplace hnone
      · next hfound =>
        split at h
        · next hwanted =>
          obtain ⟨publish, hmoved, hw⟩ := Option.map_eq_some_iff.mp h
          split at hw
          · next hresult => exact hw ▸ .failsInstallation hplace hfound hwanted hmoved hresult
          · next hresult => exact hw ▸ .installs hplace hfound hwanted hmoved hresult
        · next hwanted => exact Option.some.inj h ▸ .isUnwanted hplace hfound hwanted
    · cases h
  | answer error =>
    simp only [reconcile, answer] at h
    split at h
    · next hplace =>
      split at h
      · exact Option.some.inj h ▸ .retries hplace
      · exact Option.some.inj h ▸ .ends hplace
      · exact Option.some.inj h ▸ .notes hplace
    · next outcome hplace =>
      obtain ⟨publish, hstep, rfl⟩ := Option.map_eq_some_iff.mp h
      cases outcome with
      | some outcome => exact .delivers hplace hstep
      | none => exact .failsDelivery hplace hstep
    · next hplace => exact Option.some.inj h ▸ .returns hplace
    · cases h

end Resync.DaemonWorld
