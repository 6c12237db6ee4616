import FusionPipeline.Library.Interleaving
import FusionPipeline.Library.Text
import FusionPipeline.Library.Search
import FusionPipeline.Settling
import FusionPipeline.WalkTraces
import FusionPipeline.Accounting
import FusionPipeline.RoutedWalks
import FusionPipeline.DagValid
import FusionPipeline.DedupeRedelivery
import FusionPipeline.DedupeChain
import FusionPipeline.DeadLetters
import FusionPipeline.StateIsolation
import FusionPipeline.SampleCounts
import FusionPipeline.Hops
import FusionPipeline.IgnoredHeaders
import FusionPipeline.RegexScanning
import FusionPipeline.LuaScripts
import FusionPipeline.ConditionPrinting
import FusionPipeline.BracketHints
import FusionPipeline.PathLaws
import FusionPipeline.Redaction
import FusionPipeline.ConditionSlices
import FusionPipeline.Extraction
import FusionPipeline.EditMoves
import FusionPipeline.KeyTexts
import FusionPipeline.SpanIds
import FusionPipeline.SubjectPatterns
import FusionPipeline.LuaAccepting
import FusionPipeline.LuaBudget
import FusionPipeline.Canary
import FusionPipeline.ConditionMeaning
import FusionPipeline.VerdictCounts
import FusionPipeline.Follow
import FusionPipeline.PlanLag
import FusionPipeline.LuaRoundTrip
import FusionPipeline.EngineThreads
import FusionPipeline.RegexLoading
import FusionPipeline.MemoryStore
import FusionPipeline.DragonflyRuns
import FusionPipeline.NatsSink
import FusionPipeline.AckedStored
