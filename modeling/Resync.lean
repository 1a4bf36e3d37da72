import Resync.AccessFindings
import Resync.Acknowledgement
import Resync.AcknowledgementRuns
import Resync.ActiveBranch
import Resync.AdapterRepair
import Resync.Admission
import Resync.AdoptSnapshot
import Resync.AdvertisedHeads
import Resync.BranchHeads
import Resync.BranchTransitions
import Resync.CallSteps
import Resync.CandidateLayers
import Resync.CatalogDocument
import Resync.CatalogIdentities
import Resync.CollectionRace
import Resync.CompleteResults
import Resync.ConcurrentCallRuns
import Resync.ConcurrentCalls
import Resync.ConflictRecords
import Resync.ConflictRuns
import Resync.CreationTimes
import Resync.Daemon
import Resync.DaemonLocks
import Resync.DaemonStart
import Resync.DaemonSteps
import Resync.DeadLeases
import Resync.DebugHistory
import Resync.DecodedPaths
import Resync.Delivery
import Resync.DeliverySteps
import Resync.DeliveryViews
import Resync.EngineRecords
import Resync.ForcedPass
import Resync.GateRuns
import Resync.GateWakeups
import Resync.GcReport
import Resync.GcTransactions
import Resync.GeneratedScripts
import Resync.Git.Commit
import Resync.Git.Rebase
import Resync.Git.Repository
import Resync.GitState
import Resync.HookCommands
import Resync.HookFiles
import Resync.HostedForward
import Resync.ImmutableAttempts
import Resync.InstallFrame
import Resync.Installation
import Resync.JoinCheckout
import Resync.LastApplied
import Resync.LastAppliedRuns
import Resync.LeaseGate
import Resync.LeaseIndex
import Resync.LeaseProofs
import Resync.LeaseRequests
import Resync.LeaseStore
import Resync.LeasedWorkspace
import Resync.LeavingProject
import Resync.Lib.CommitGraph
import Resync.Lib.CrashDisk
import Resync.Lib.FiniteMap
import Resync.Lib.Framing
import Resync.Lib.Json
import Resync.Lib.JsonCuts
import Resync.Lib.JsonText
import Resync.Lib.LockOrder
import Resync.Lib.ModifyFirst
import Resync.Lib.PathText
import Resync.Lib.PathTree
import Resync.Lib.Retain
import Resync.Lib.Runs
import Resync.Lib.Shell
import Resync.Lib.Splitting
import Resync.Lib.Utf8
import Resync.LocalExcludes
import Resync.Logins
import Resync.ManagedBuilds
import Resync.Materialize
import Resync.MaterializeRuns
import Resync.NamedLease
import Resync.NamedLeaseCalls
import Resync.OwnBranch
import Resync.OneProvider
import Resync.PassLength
import Resync.PassOutcome
import Resync.PassSteps
import Resync.PathLaws
import Resync.PeerBootstrap
import Resync.PendingMutations
import Resync.PreparedDecision
import Resync.ProcessLock
import Resync.Project
import Resync.ProjectCreation
import Resync.ProjectRefresh
import Resync.Publication
import Resync.Publishing
import Resync.PublishingSteps
import Resync.QueueCompaction
import Resync.QueueDaemon
import Resync.QueueDuplicates
import Resync.QueueDurability
import Resync.QueueFile
import Resync.QueuePasses
import Resync.QueueRefRuns
import Resync.QueueRefs
import Resync.ReceiptPaths
import Resync.Reconcile
import Resync.ReconcileSteps
import Resync.ReconciliationMode
import Resync.RecordCalls
import Resync.RecordViews
import Resync.RecordedInstalls
import Resync.RecoverAll
import Resync.Recovery
import Resync.RecoveryRace
import Resync.RefreshSeparation
import Resync.RefreshStops
import Resync.Registration
import Resync.RenewalTimes
import Resync.RequiredRefs
import Resync.ResourceKeys
import Resync.RetryTimes
import Resync.SerialOrders
import Resync.ServeConnection
import Resync.ServiceRequests
import Resync.ShellQuoting
import Resync.StateDocuments
import Resync.StoredRecovery
import Resync.SyncCommands
import Resync.SyntheticCommits
import Resync.ToolHookNames
import Resync.ToolHookRuns
import Resync.ToolHooks
import Resync.Transaction
import Resync.TransactionsDirectory
import Resync.ValidationPolicy
import Resync.WorkingCopy
