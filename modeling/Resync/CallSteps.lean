import Resync.Publishing

/-! The forms of the steps of a task that queues publications. What such a step preserves
is proved over them, and only their own proof takes the step function apart. -/
namespace Resync.PublishWorld

variable {Oid Task : Type} [DecidableEq Oid] [DecidableEq Task] {G : CommitGraph Oid}
  {w w' : PublishWorld Oid Task} {task : Task}

/-- What a step of a task can do, with its guards. -/
inductive CallStep (G : CommitGraph Oid) (w : PublishWorld Oid Task) (task : Task) :
    CallEvent Oid → PublishWorld Oid Task → Prop
  | commits {name path : String} {c : Oid} (place : w.calls task = .idle)
      (known : w.path name = some path) (head : (w.checkouts path).headCommit = some c) :
      CallStep G w task (.hookCommit name)
        (w.setCall task (.hookCommit name path c (w.checkouts path).headBranch))
  | readsCommitted {name path : String} {c : Oid} {on : Option Branch} {b : Branch}
      (place : w.calls task = .hookCommit name path c on)
      (branch : (w.checkouts path).headBranch = some b) :
      CallStep G w task .hookBranch (w.setCall task (.requested name b c .done))
  | readsNoCommitted {name path : String} {c : Oid} {on : Option Branch}
      (place : w.calls task = .hookCommit name path c on)
      (branch : (w.checkouts path).headBranch = none) :
      CallStep G w task .hookBranch (w.setCall task .idle)
  | readsCheckedOut {name path : String} {previous : Option Oid} {left : Option Branch}
      {b : Branch} (place : w.calls task = .hookCheckout name path previous left)
      (branch : (w.checkouts path).headBranch = some b) :
      CallStep G w task .hookBranch (w.setCall task (.checkoutReport name path b previous left))
  | readsNoCheckedOut {name path : String} {previous : Option Oid} {left : Option Branch}
      (place : w.calls task = .hookCheckout name path previous left)
      (branch : (w.checkouts path).headBranch = none) :
      CallStep G w task .hookBranch (w.setCall task .idle)
  | loses (place : w.calls task ≠ .idle) : CallStep G w task .lose (w.setCall task .idle)
  | reportsUnknown {name path : String} {b : Branch} {previous : Option Oid} {left : Option Branch}
      (place : w.calls task = .checkoutReport name path b previous left)
      (none : findProject w.catalog name = none) :
      CallStep G w task .reportCheckout (w.setCall task .idle)
  | reportsSame {name path : String} {b : Branch} {c : Oid} {left : Option Branch}
      {project : LocalProject Oid}
      (place : w.calls task = .checkoutReport name path b (some c) left)
      (found : findProject w.catalog name = some project) (active : project.activeBranch = some b) :
      CallStep G w task .reportCheckout (w.setCall task (.activating name b))
  | reportsOther {name path : String} {b previousBranch : Branch} {c : Oid} {left : Option Branch}
      {project : LocalProject Oid}
      (place : w.calls task = .checkoutReport name path b (some c) left)
      (found : findProject w.catalog name = some project)
      (active : project.activeBranch = some previousBranch) (other : ¬ previousBranch = b) :
      CallStep G w task .reportCheckout
        (w.setCall task (.requested name previousBranch c (.activate b)))
  | reportsFirst {name path : String} {b : Branch} {previous : Option Oid} {left : Option Branch}
      {project : LocalProject Oid}
      (place : w.calls task = .checkoutReport name path b previous left)
      (found : findProject w.catalog name = some project)
      (first : ∀ b c, project.activeBranch = some b → previous = some c → False) :
      CallStep G w task .reportCheckout (w.setCall task (.activating name b))
  | transitions {name : String} {project : LocalProject Oid} (place : w.calls task = .idle)
      (found : findProject w.catalog name = some project) :
      CallStep G w task (.transition name) (w.setCall task (.transition name project))
  | isDetached {name : String} {project : LocalProject Oid}
      (place : w.calls task = .transition name project)
      (branch : (w.checkouts project.localPath).headBranch = none) :
      CallStep G w task .transitionBranch (w.setCall task .idle)
  | hasNoActive {name : String} {project : LocalProject Oid} {actual : Branch}
      (place : w.calls task = .transition name project)
      (branch : (w.checkouts project.localPath).headBranch = some actual)
      (active : project.activeBranch = none) :
      CallStep G w task .transitionBranch (w.setCall task (.activating name actual))
  | isActive {name : String} {project : LocalProject Oid} {actual : Branch}
      (place : w.calls task = .transition name project)
      (branch : (w.checkouts project.localPath).headBranch = some actual)
      (active : project.activeBranch = some actual) :
      CallStep G w task .transitionBranch (w.setCall task .idle)
  | leaves {name : String} {project : LocalProject Oid} {actual previous : Branch} {c : Oid}
      (place : w.calls task = .transition name project)
      (branch : (w.checkouts project.localPath).headBranch = some actual)
      (active : project.activeBranch = some previous) (other : ¬ previous = actual)
      (head : (w.checkouts project.localPath).heads previous = some c) :
      CallStep G w task .transitionBranch
        (w.setCall task (.requested name previous c (.activate actual)))
  | leavesDeleted {name : String} {project : LocalProject Oid} {actual previous : Branch}
      (place : w.calls task = .transition name project)
      (branch : (w.checkouts project.localPath).headBranch = some actual)
      (active : project.activeBranch = some previous) (other : ¬ previous = actual)
      (head : (w.checkouts project.localPath).heads previous = none) :
      CallStep G w task .transitionBranch (w.setCall task (.activating name actual))
  | refreshesBranch {name : String} {project : LocalProject Oid} {actual : Branch}
      (place : w.calls task = .idle) (found : findProject w.catalog name = some project)
      (branch : actual = (((w.checkouts project.localPath).headBranch.or
        project.activeBranch).getD project.defaultBranch)) :
      CallStep G w task (.refreshBranch name)
        ((w.setProject name fun p => { p with activeBranch := some actual }).setCall task
          (.refreshing name actual))
  | refreshesUnknown {name : String} {branch : Branch} {answer : RefreshAnswer Oid}
      (place : w.calls task = .refreshing name branch)
      (none : findProject w.catalog name = none) :
      CallStep G w task (.refreshHead answer) (w.setCall task .idle)
  | losesAccess {name error : String} {branch : Branch} {project : LocalProject Oid}
      (place : w.calls task = .refreshing name branch)
      (found : findProject w.catalog name = some project) :
      CallStep G w task (.refreshHead (.accessLost error))
        ((w.setProject name fun p =>
          { p with state := .accessLost, lastError := some error }).setCall task .idle)
  | isOffline {name error : String} {branch : Branch} {project : LocalProject Oid}
      {generation : ℕ} (place : w.calls task = .refreshing name branch)
      (found : findProject w.catalog name = some project) :
      CallStep G w task (.refreshHead (.offline generation error))
        ((w.setProject name fun p => { p with
          serverGeneration := generation, state := .offline, lastError := some error }).setCall
            task .idle)
  | advertises {name : String} {branch : Branch} {project : LocalProject Oid} {generation : ℕ}
      {head : Option Oid} (place : w.calls task = .refreshing name branch)
      (found : findProject w.catalog name = some project)
      (headCommit : (w.checkouts project.localPath).headCommit = none) :
      CallStep G w task (.refreshHead (.online generation head))
        ((w.setProject name fun _ => w.advertise project branch generation head).setCall task .idle)
  | refreshes {name : String} {branch : Branch} {project : LocalProject Oid} {generation : ℕ}
      {head : Option Oid} {localHead : Oid} {result : LocalProject Oid × Bool}
      (place : w.calls task = .refreshing name branch)
      (found : findProject w.catalog name = some project)
      (headCommit : (w.checkouts project.localPath).headCommit = some localHead)
      (decides : result = refreshed G (w.advertise project branch generation head) branch
        localHead) :
      CallStep G w task (.refreshHead (.online generation head))
        ((w.setProject name fun _ => if result.1.durability = .remotelyDurable then
          { result.1 with lastError := none } else result.1).setCall task
            (if result.2 then .requested project.projectId branch localHead .done else .idle))
  | publishes {name path : String} {b : Branch} {c : Oid} (place : w.calls task = .idle)
      (known : w.path name = some path) (head : (w.checkouts path).heads b = some c) :
      CallStep G w task (.publish name b) (w.setCall task (.requested name b c .done))
  | clones {name : String} {b : Branch} {c : Oid} {next : Next} {project : LocalProject Oid}
      (place : w.calls task = .requested name b c next)
      (found : findProject w.catalog name = some project) :
      CallStep G w task .clone (w.setCall task (.cloned name project b c next))
  | clonesUnknown {name : String} {b : Branch} {c : Oid} {next : Next}
      (place : w.calls task = .requested name b c next)
      (none : findProject w.catalog name = none) :
      CallStep G w task .clone (w.setCall task .idle)
  | finds {name id : String} {now : ℕ} {project : LocalProject Oid} {b : Branch} {c : Oid}
      {next : Next} {p : Publication Oid} (place : w.calls task = .cloned name project b c next)
      (found : PublicationQueue.existing w.queue project.projectId b c = some p) :
      CallStep G w task (.create id now) (w.setCall task (next.call name))
  | creates {name id : String} {now : ℕ} {project : LocalProject Oid} {b : Branch} {c : Oid}
      {next : Next} (place : w.calls task = .cloned name project b c next)
      (none : PublicationQueue.existing w.queue project.projectId b c = none)
      (fresh : ¬ id ∈ w.issued) :
      CallStep G w task (.create id now) { (w.setCheckout project.localPath
        ((w.checkouts project.localPath).setPublication id (some c))).setCall task
          (.created name (Publication.new id now project.projectId project.checkoutId b c
            (project.advertisedHeads b)) next) with issued := id :: w.issued }
  | queues {name : String} {p : Publication Oid} {next : Next}
      (place : w.calls task = .created name p next) :
      CallStep G w task .push { w.setCall task (.queued name next) with
        queue := w.queue ++ [p],
        recorded := w.recorded ++ [p] }
  | recordsUnknown {name : String} {next : Next} (place : w.calls task = .queued name next)
      (none : findProject w.catalog name = none) :
      CallStep G w task .record (w.setCall task .idle)
  | records {name : String} {next : Next} {project : LocalProject Oid}
      (place : w.calls task = .queued name next)
      (found : findProject w.catalog name = some project) :
      CallStep G w task .record
        ((w.setProject name fun p => { p with durability := .committedUnpublished }).setCall
          task (next.call name))
  | activates {name : String} {b : Branch} (place : w.calls task = .activating name b) :
      CallStep G w task .activate
        ((w.setProject name fun p => { p with activeBranch := some b }).setCall task .idle)

theorem callStep_of_call {e : CallEvent Oid} (h : w.call G task e = some w') :
    CallStep G w task e w' := by
  cases e with
  | hookCommit name =>
    simp only [call] at h
    split at h
    · next hplace hknown =>
      obtain ⟨c, hhead, rfl⟩ := Option.map_eq_some_iff.mp h
      exact .commits hplace hknown hhead
    · cases h
  | hookBranch =>
    simp only [call] at h
    split at h
    · next hplace =>
      split at h
      · next hbranch => exact Option.some.inj h ▸ .readsCommitted hplace hbranch
      · next hbranch => exact Option.some.inj h ▸ .readsNoCommitted hplace hbranch
    · next hplace =>
      split at h
      · next hbranch => exact Option.some.inj h ▸ .readsCheckedOut hplace hbranch
      · next hbranch => exact Option.some.inj h ▸ .readsNoCheckedOut hplace hbranch
    · cases h
  | lose =>
    simp only [call] at h
    split at h
    all_goals first
      | next hplace => exact Option.some.inj h ▸ .loses (by rw [hplace]; intro heq; cases heq)
      | cases h
  | reportCheckout =>
    simp only [call] at h
    split at h
    · next hplace =>
      split at h
      · next hnone => exact Option.some.inj h ▸ .reportsUnknown hplace hnone
      · next hfound =>
        split at h
        · next hactive =>
          split at h
          · next hsame => exact Option.some.inj h ▸ .reportsSame hplace hfound (hsame ▸ hactive)
          · next hother => exact Option.some.inj h ▸ .reportsOther hplace hfound hactive hother
        · next hfirst => exact Option.some.inj h ▸ .reportsFirst hplace hfound hfirst
    · cases h
  | transition name =>
    simp only [call] at h
    split at h
    · next hplace hfound => exact Option.some.inj h ▸ .transitions hplace hfound
    · cases h
  | transitionBranch =>
    simp only [call] at h
    split at h
    · next hplace =>
      split at h
      · next hbranch => exact Option.some.inj h ▸ .isDetached hplace hbranch
      · next hbranch =>
        split at h
        · next hactive => exact Option.some.inj h ▸ .hasNoActive hplace hbranch hactive
        · next hactive =>
          split at h
          · next hsame => exact Option.some.inj h ▸ .isActive hplace hbranch (hsame ▸ hactive)
          · next hother =>
            split at h
            · next hhead => exact Option.some.inj h ▸ .leaves hplace hbranch hactive hother hhead
            · next hhead =>
              exact Option.some.inj h ▸ .leavesDeleted hplace hbranch hactive hother hhead
    · cases h
  | refreshBranch name =>
    simp only [call] at h
    split at h
    · next hplace hfound => exact Option.some.inj h ▸ .refreshesBranch hplace hfound rfl
    · cases h
  | refreshHead answer =>
    simp only [call] at h
    split at h
    · next hplace =>
      split at h
      · next hnone => exact Option.some.inj h ▸ .refreshesUnknown hplace hnone
      · next hfound =>
        split at h
        · exact Option.some.inj h ▸ .losesAccess hplace hfound
        · exact Option.some.inj h ▸ .isOffline hplace hfound
        · split at h
          · next hhead => exact Option.some.inj h ▸ .advertises hplace hfound hhead
          · next hhead => exact Option.some.inj h ▸ .refreshes hplace hfound hhead rfl
    · cases h
  | publish name b =>
    simp only [call] at h
    split at h
    · next hplace hknown =>
      obtain ⟨c, hhead, rfl⟩ := Option.map_eq_some_iff.mp h
      exact .publishes hplace hknown hhead
    · cases h
  | clone =>
    simp only [call] at h
    split at h
    · next hplace =>
      split at h
      · next hfound => exact Option.some.inj h ▸ .clones hplace hfound
      · next hnone => exact Option.some.inj h ▸ .clonesUnknown hplace hnone
    · cases h
  | create id now =>
    simp only [call] at h
    split at h
    · next hplace =>
      split at h
      · next hfound => exact Option.some.inj h ▸ .finds hplace hfound
      · next hnone =>
        split at h
        · cases h
        · next hfresh => exact Option.some.inj h ▸ .creates hplace hnone hfresh
    · cases h
  | push =>
    simp only [call] at h
    split at h
    · next hplace => exact Option.some.inj h ▸ .queues hplace
    · cases h
  | record =>
    simp only [call] at h
    split at h
    · next hplace =>
      split at h
      · next hnone => exact Option.some.inj h ▸ .recordsUnknown hplace hnone
      · next hfound => exact Option.some.inj h ▸ .records hplace hfound
    · cases h
  | activate =>
    simp only [call] at h
    split at h
    · next hplace => exact Option.some.inj h ▸ .activates hplace
    · cases h

end Resync.PublishWorld
