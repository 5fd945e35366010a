import Yocto.ListSearch
import Yocto.Places
import Yocto.Runs
import Yocto.WorkerFraming
import Yocto.EventRelay
import Yocto.TaskIds
import Yocto.Raising
import Yocto.SigGen
import Yocto.StampHash
import Yocto.TaskGraph
import Yocto.OrderedDict
import Yocto.SceneQueue
import Yocto.SceneCollapse
import Yocto.RunQueueScene
import Yocto.RunQueueExecute
import Yocto.RunQueueSteps
import Yocto.TaskSafety
import Yocto.SceneOutcomes
import Yocto.LiveTasks
import Yocto.StampGuards
import Yocto.DependencyHash
import Yocto.SigDump
import Yocto.DataSmart
import Yocto.Dependencies
import Yocto.FreshKeys
import Yocto.Globs
import Yocto.DependencyStrings
import Yocto.MetadataEditing
import Yocto.VirtualNames
import Yocto.RecipeInfoStreams
import Yocto.UnusedHashes
import Yocto.HashLookups
import Yocto.ExportedValues
import Yocto.PercentCodes
import Yocto.Backtracking
import Yocto.DecodedUrls
import Yocto.MirrorUris
import Yocto.ProviderFailure
import Yocto.ProviderSoundness
import Yocto.UniqueTable
import Yocto.DateTimes
import Yocto.HashTables
import Yocto.HashServer
import Yocto.HashRecords
import Yocto.HashCollection
import Yocto.HashAnswers
import Yocto.HashConvergence
import Yocto.HashBackends
import Yocto.HighWater
import Yocto.PrTable
import Yocto.PrValues
import Yocto.PrExport
import Yocto.PrServer
import Yocto.AssignedLists
import Yocto.Assignments
import Yocto.Json
import Yocto.MessageChunks
import Yocto.UserAccess
import Yocto.StreamBatch
import Yocto.OutputHash
import Yocto.Triples
import Yocto.Fetch
import Yocto.Extents
import Yocto.WicLayout
import Yocto.WicNumbers
import Yocto.WicSectors
import Yocto.PosixPath
import Yocto.RealPath
import Yocto.Overwrite
import Yocto.FileMap
import Yocto.CText
import Yocto.SddpTraffic
import Yocto.SparseFiles
import Yocto.PackageData
import Yocto.Deferral
import Yocto.SstateIndex
import Yocto.OverrideChoice
import Yocto.OverrideRounds
import Yocto.RemovedWords
import Yocto.SetThenGet
import Yocto.Deletion
import Yocto.PathRelocation
import Yocto.Versions
import Yocto.RuntimeProviders
import Yocto.InsertAfter
import Yocto.CompletionOrder
import Yocto.ConfStatements
import Yocto.BblayersGrammar
import Yocto.BblayersConf
import Yocto.BblayersScan
import Yocto.BblayersEdits
import Yocto.Schedulers
import Yocto.TaskWeights
import Yocto.Frontier
import Yocto.Rehash
import Yocto.RunTaskEntries
import Yocto.TaskPruning
import Yocto.Saturation
import Yocto.RecursiveDepends
import Yocto.Halting
import Yocto.Undecided
import Yocto.PreferredVersions
import Yocto.ClientPool
import Yocto.ChecksumCache
import Yocto.ChecksumLists
import Yocto.StableSort
import Yocto.FileChecksums
import Yocto.TaskHashes
import Yocto.MarkedPaths
import Yocto.LicenseTrees
import Yocto.LicenseManifests
import Yocto.LicenseChoice
import Yocto.RenamedDependencies
import Yocto.PathComponents
import Yocto.RelativeLinks
import Yocto.SddpBuffers
import Yocto.SddpUrls
import Yocto.SddpHeap
import Yocto.AddTask
import Yocto.EventHandlers
import Yocto.Substitution
import Yocto.SourceRevisions
import Yocto.TaskEdges
import Yocto.LineJoiners
import Yocto.PatchedFiles
import Yocto.Doubles
import Yocto.CveVersions
import Yocto.SstateNames
import Yocto.MarkedCodes
import Yocto.FileDependencies
import Yocto.GitNames
import Yocto.LayerPriorities
import Yocto.TaskOutcome
import Yocto.FallibleMaps
import Yocto.PackageFiles
import Yocto.Replacing
import Yocto.StampCleaning
import Yocto.ProcessPool
import Yocto.Elimination
import Yocto.SysrootDependencies
import Yocto.BuildOutcome
import Yocto.VariantNames
import Yocto.HashOrigin
