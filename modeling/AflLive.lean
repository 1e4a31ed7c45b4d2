import AflLive.Library.Bytes
import AflLive.Libgen.Types
import AflLive.Library.Clamp
import AflLive.Libgen.BuffUtils
import AflLive.Libgen.ConstraintFactory
import AflLive.Libgen.Populate
import AflLive.Libgen.Serialize
import AflLive.Libgen.GenValues
import AflLive.Library.Topological
import AflLive.Libgen.Arguments
import AflLive.Libgen.Enforcement
import AflLive.Libgen.BulkCopy
import AflLive.Libgen.Value
import AflLive.Libgen.Rebuild
import AflLive.Libgen.Replay
import AflLive.Fuzz.Targets
import AflLive.Libgen.Stream
import AflLive.Fuzz.Seeds
import AflLive.Fuzz.Retry
import AflLive.Fuzz.FileNames
import AflLive.Fuzz.Sync
import AflLive.Fuzz.Attribution
import AflLive.Fuzz.QueueNames
import AflLive.Fuzz.Handshake
import AflLive.Instrumentation.Pass
import AflLive.Instrumentation.TypeInfo
import AflLive.Libgen.MakeType
import AflLive.Instrumentation.TypeFile
import AflLive.Instrumentation.TypeGraph
import AflLive.Fuzz.Rotation
import AflLive.Fuzz.Pending
import AflLive.Libgen.Shadow
import AflLive.Fuzz.CleanUp
import AflLive.Library.Text
import AflLive.Testamp.FuzzLog
import AflLive.Libgen.Codec
import AflLive.Libgen.Bounds
import AflLive.Libgen.Deref
import AflLive.Libgen.Wrap
import AflLive.Libgen.RecordEnds
import AflLive.Libgen.PopulateEnds
import AflLive.Libgen.FaultPath
import AflLive.Instrumentation.Codec
import AflLive.Fuzz.Rollback
import AflLive.Fuzz.ArgMap
import AflLive.Fuzz.Culprit
import AflLive.Fuzz.Calibrate
import AflLive.Fuzz.Duplicates
import AflLive.Fuzz.DryRun
import AflLive.Libgen.Equality
import AflLive.ConfigGenerator.ConstraintListParser
import AflLive.Libgen.SetupOrder
import AflLive.ConfigGenerator.SkipParams
import AflLive.Library.Binary64
import AflLive.Testamp.Campaigns
import AflLive.Instrumentation.Harness
import AflLive.Libgen.Fields
import AflLive.Fuzz.Selection
import AflLive.Fuzz.Scoring
import AflLive.ConfigGenerator.DeriveConstraints
import AflLive.ConfigGenerator.Matching
import AflLive.ConfigGenerator.Coverage
import AflLive.Testamp.Signatures
import AflLive.Testamp.CommandLine
import AflLive.Library.Footprint
import AflLive.Fuzz.ForkServer
import AflLive.Testamp.LogLock
import AflLive.Library.Cells
import AflLive.Testamp.LineArray
import AflLive.Library.Bits
import AflLive.Fuzz.TopRated
import AflLive.Library.Lanes
import AflLive.Fuzz.WordCoverage
import AflLive.Fuzz.SaveIfInteresting
import AflLive.Library.Blocks
import AflLive.Instrumentation.HarnessMain
import AflLive.Libgen.Passes
