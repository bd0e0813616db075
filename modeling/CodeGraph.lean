import CodeGraph.Budget.Correct.Fill
import CodeGraph.Budget.Correct.NextCommand
import CodeGraph.Budget.Interleave
import CodeGraph.Cli.Correct.Paths
import CodeGraph.Domain.Correct.TestFilter
import CodeGraph.Graph.Correct.Boundaries
import CodeGraph.Graph.Correct.Centrality
import CodeGraph.Graph.Correct.CycleCut
import CodeGraph.Graph.Correct.Cycles
import CodeGraph.Graph.Correct.Query
import CodeGraph.Graph.Correct.ShortestCycle
import CodeGraph.Graph.Correct.Src
import CodeGraph.Indexer.Correct.PathKey
import CodeGraph.Lib.Determined
import CodeGraph.Lib.EditDistance
import CodeGraph.Lib.EmptyMatch
import CodeGraph.Lib.Lines
import CodeGraph.Lib.MatchAll
import CodeGraph.Outcome.Correct.Score
import CodeGraph.Parser.Correct.CppReceiver
import CodeGraph.Parser.Correct.JsExportEntries
import CodeGraph.Parser.Correct.JsReceiver
import CodeGraph.Parser.Correct.Python
import CodeGraph.Parser.Correct.Receiver
import CodeGraph.Parser.Correct.RustReceiver
import CodeGraph.Parser.CppReceiver
import CodeGraph.Parser.JsReceiver
import CodeGraph.Parser.RustReceiver
import CodeGraph.Pipeline.Chunks
import CodeGraph.Pipeline.Correct.CargoNames
import CodeGraph.Pipeline.Correct.ClassDrift
import CodeGraph.Pipeline.Correct.Classify
import CodeGraph.Pipeline.Correct.Context
import CodeGraph.Pipeline.Correct.DeadIds
import CodeGraph.Pipeline.Correct.Embed
import CodeGraph.Pipeline.Correct.FileRun
import CodeGraph.Pipeline.Correct.Hierarchy
import CodeGraph.Pipeline.Correct.ImportFanout
import CodeGraph.Pipeline.Correct.InFlight
import CodeGraph.Pipeline.Correct.Inbound
import CodeGraph.Pipeline.Correct.Incremental
import CodeGraph.Pipeline.Correct.IndexFiles
import CodeGraph.Pipeline.Correct.JsFanOut
import CodeGraph.Pipeline.Correct.PostPasses
import CodeGraph.Pipeline.Correct.PythonModules
import CodeGraph.Pipeline.Correct.Reexports
import CodeGraph.Pipeline.Correct.RustCrates
import CodeGraph.Pipeline.Correct.RustShapes
import CodeGraph.Pipeline.Correct.ScopedPasses
import CodeGraph.Pipeline.Correct.SettleReexports
import CodeGraph.Plugin.Correct.Adopt
import CodeGraph.Plugin.Correct.Definitions
import CodeGraph.Plugin.Correct.EmptyMatch
import CodeGraph.Plugin.Correct.Hooks
import CodeGraph.Plugin.Correct.McpStub
import CodeGraph.Plugin.Correct.Patterns
import CodeGraph.Plugin.Correct.Portable
import CodeGraph.Plugin.Correct.ShellReaders
import CodeGraph.Plugin.Correct.Statusline
import CodeGraph.Plugin.Correct.StopImpact
import CodeGraph.Plugin.Definitions
import CodeGraph.Plugin.EmptyMatch
import CodeGraph.Plugin.McpStub
import CodeGraph.Resolve.Correct.Spelling
import CodeGraph.Search.Correct.FtsSearch
import CodeGraph.Search.Correct.FuzzyNames
import CodeGraph.Search.Correct.Rankings
import CodeGraph.Search.FtsSearch
import CodeGraph.Search.FuzzyNames
import CodeGraph.Server.Correct.Backfill
import CodeGraph.Server.Correct.Watcher
import CodeGraph.Server.Correct.WritePath
import CodeGraph.Snapshot.Correct.Install
import CodeGraph.Storage.Correct.Imports
import CodeGraph.Storage.Correct.IndexVersion
import CodeGraph.Storage.Correct.ModuleExports
import CodeGraph.Storage.Correct.PathUnder
import CodeGraph.Storage.Correct.UnembeddedQueue
import CodeGraph.Utils.Correct.Tokenizer
import CodeGraph.Utils.Tokenizer
