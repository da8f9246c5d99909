import AetherVault.Lib.Dict
import AetherVault.Lib.Search
import AetherVault.Lib.Program
import AetherVault.Lib.Encoding
import AetherVault.Lib.JsonText
import AetherVault.Lib.Datetime
import AetherVault.Objects
import AetherVault.Cdc
import AetherVault.Safetensors
import AetherVault.Index
import AetherVault.Staging
import AetherVault.World
import AetherVault.Client
import AetherVault.RoundTrip
import AetherVault.Push
import AetherVault.Restore
import AetherVault.Commands
import AetherVault.Merge
import AetherVault.Footprint
import AetherVault.Vetting
import AetherVault.RefUpdates
import AetherVault.Queueing
import AetherVault.Delivery
import AetherVault.PendingQueue
import AetherVault.CrashSafety
import AetherVault.Alone
import AetherVault.Deliverable
import AetherVault.Registry
import AetherVault.Handlers
import AetherVault.TreeRows
import AetherVault.Merkle
import AetherVault.TreeStore
import AetherVault.Collection
import AetherVault.ObjectFiles
import AetherVault.FilterSoundness
import AetherVault.Signing
import AetherVault.CommitRows
import AetherVault.CommitListing
import AetherVault.SignedCommits
import AetherVault.SignatureSurvival
import AetherVault.Pull
import AetherVault.Pulling
import AetherVault.PullHistory
import AetherVault.PullCompleteness
import AetherVault.MergeLaws
import AetherVault.Lib.HashChain
import AetherVault.AuditChain
import AetherVault.Lib.CursorPage
import AetherVault.AuditLog
import AetherVault.EventFeed
import AetherVault.Restored
import AetherVault.CloneCompleteness
import AetherVault.MergeHistory
import AetherVault.LocalRefs
import AetherVault.Policies
import AetherVault.PolicyGate
import AetherVault.LocalBranches
import AetherVault.EventRetention
import AetherVault.Lib.ReadCommit
import AetherVault.ChangeSets
import AetherVault.EvalSuites
import AetherVault.EvalResults
import AetherVault.PolicyPacks
import AetherVault.Lib.Double
import AetherVault.Budgets
import AetherVault.Webhooks
import AetherVault.Fanout
import AetherVault.Lib.OwnedRows
import AetherVault.Tenancy
import AetherVault.Marking
import AetherVault.SharedTrees
import AetherVault.Solo
import AetherVault.StagedFlags
import AetherVault.Lib.JsonReader
import AetherVault.Daemon
import AetherVault.DaemonClient
import AetherVault.DaemonSurvival
import AetherVault.DaemonEnvironment
import AetherVault.DaemonOnce
import AetherVault.Lib.Runs
import AetherVault.Improvers
import AetherVault.AppliedOnce
import AetherVault.PromotionGate
import AetherVault.PromotionSafety
import AetherVault.Artifacts
import AetherVault.ArtifactRetention
import AetherVault.Lib.JsonIndent
import AetherVault.LocalObjects
import AetherVault.LocalCas
import AetherVault.Lib.OffsetPages
import AetherVault.Lib.Resumable
import AetherVault.RegistryArchive
import AetherVault.RestoreSoundness
import AetherVault.RegistryRoundTrip
import AetherVault.Lib.Chunking
import AetherVault.ChunkLaws
import AetherVault.DeviceFlow
import AetherVault.Identity
import AetherVault.TokenScopes
import AetherVault.SsoLogin
import AetherVault.Deprovisioning
import AetherVault.ProjectFreeze
import AetherVault.Lib.PyString
import AetherVault.Ignores
import AetherVault.FrontEnds
import AetherVault.ScopedCommits
import AetherVault.WorkTrees
import AetherVault.CheckoutRollback
import AetherVault.CheckoutResult
import AetherVault.Lib.FixedWindow
import AetherVault.RateLimit
import AetherVault.FusedStaging
import AetherVault.LayerBounds
import AetherVault.Lib.PagedWalk
import AetherVault.Lineage
import AetherVault.Lib.CodePoints
import AetherVault.Pointers
import AetherVault.Lib.SetOrder
import AetherVault.TreeDiffs
import AetherVault.Lib.JsonRoundTrip
import AetherVault.IndexFile
import AetherVault.TreeResolution
import AetherVault.Lib.BreadthFirst
import AetherVault.MergeBase
import AetherVault.ConcurrentStaging
import AetherVault.Lib.SecureHash
import AetherVault.Sha256
import AetherVault.Lib.ShaExtensions
import AetherVault.StreamingDigest
import AetherVault.ShaNi
import AetherVault.AuthCache
import AetherVault.Lib.Worklist
import AetherVault.AncestorTests
import AetherVault.IgnoreMatching
import AetherVault.Lib.GlobPath
import AetherVault.ToolManifest
import AetherVault.EnvReplay
import AetherVault.Lib.FileTree
import AetherVault.Doctor
import AetherVault.DoctorFiles
import AetherVault.DoctorRepairs
import AetherVault.Lib.Mutex
import AetherVault.RepoLock
import AetherVault.RepoLockLaws
import AetherVault.Publishing
import AetherVault.AuthSpikes
import AetherVault.Lib.UrlText
import AetherVault.Lib.KeysetWalk
import AetherVault.AuditPaging
import AetherVault.RunPaging
import AetherVault.Lib.TextLines
import AetherVault.EnvFile
import AetherVault.AccessTokens
import AetherVault.AccessGrants
import AetherVault.Lib.TaskPool
import AetherVault.ParallelHashing
import AetherVault.SelectiveFetch
import AetherVault.BranchGraph
import AetherVault.Watch
import AetherVault.WatchedFiles
