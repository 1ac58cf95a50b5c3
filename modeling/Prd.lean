import Prd.Foundation.Dict
import Prd.Foundation.OrderedDict
import Prd.Foundation.Summary
import Prd.Foundation.Gossip
import Prd.Foundation.LateGossip
import Prd.Foundation.Digraph
import Prd.Foundation.Relay
import Prd.Foundation.BreadthFirst
import Prd.Foundation.Numerals
import Prd.Foundation.FirstMatch
import Prd.Foundation.Queries
import Prd.Pycprd.Basic
import Prd.Pycprd.VectorClock
import Prd.Pycprd.EpochObjects
import Prd.Pycprd.ClockObjects
import Prd.Pycprd.ClockCalls
import Prd.Pycprd.PersistedClocks
import Prd.Pycprd.ClockQueries
import Prd.Pycprd.Nodes
import Prd.Pycprd.DaisyChain
import Prd.Pycprd.DirtyVector
import Prd.Pycprd.EagerDirtyVector
import Prd.Pycprd.DirtyVectorRuns
import Prd.Pycprd.Hbg
import Prd.Pycprd.HbgWellFormed
import Prd.Pycprd.Pdg
import Prd.Pycprd.Races
import Prd.Pycprd.Detector
import Prd.Pycprd.HappensAfter
import Prd.Pycprd.FindBugs
import Prd.Pycprd.Spreading
import Prd.Pycprd.FastSweep
import Prd.Pycprd.PlainSweep
import Prd.Pycprd.RunReports
import Prd.Pycprd.Exactness
import Prd.Pycprd.SweepsAgree
import Prd.Pycprd.PyString
import Prd.Pycprd.TraceParser
import Prd.Pycprd.LineNumbers
import Prd.Pycprd.ForeignLines
import Prd.Runtime.Cprd
import Prd.Runtime.SlotArray
import Prd.Runtime.UnorderedCollection
import Prd.Runtime.CollectionCalls
import Prd.Runtime.PmRegions
import Prd.Runtime.PmTracking
import Prd.Runtime.MappingLengths
import Prd.Runtime.FlushTracing
import Prd.Runtime.MemoryAccess
import Prd.Runtime.Printf
import Prd.Runtime.PendingReads
import Prd.Runtime.PendingSlots
import Prd.Runtime.PendingBound
import Prd.Runtime.DataFlowLabels
import Prd.Runtime.DataFlowReports
import Prd.Runtime.TraceLines
import Prd.Runtime.EventLines
import Prd.Runtime.ThreadLines
import Prd.Runtime.ForeignTraces
import Prd.Runtime.PendingLives
import Prd.Runtime.FreshLabels
import Prd.Runtime.TraceReadBack
import Prd.Pycprd.VolatileFilter
import Prd.Pycprd.BuilderCalls
import Prd.Pycprd.PdgBuild
import Prd.Pycprd.RunCompletes
import Prd.Pycprd.FirstDependants
import Prd.Pycprd.PdgDistance
import Prd.Pycprd.TraceGraphs
import Prd.Pycprd.AfterClocks
import Prd.Pycprd.Ablation
import Prd.Pycprd.CachelineSize
import Prd.Pycprd.Validator
import Prd.Pycprd.RaceGroups
import Prd.Pycprd.RaceIndexes
import Prd.Pass.TsanPass
import Prd.Pass.OmittedReads
import Prd.Runtime.ClockOrder
import Prd.Runtime.MutexOrder
import Prd.Runtime.ThreadOrder
import Prd.Runtime.AtomicOrder
import Prd.Runtime.OrderSources
import Prd.Runtime.RunRaces
import Prd.Runtime.RegistryRuns
