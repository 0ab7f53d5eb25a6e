import CgrJni.SortedIndex
import CgrJni.IntervalIndex
import CgrJni.Runs
import CgrJni.RedBlack
import CgrJni.LinkedTree
import CgrJni.Smrbt
import CgrJni.SmrbtMoves
import CgrJni.SmrbtOrder
import CgrJni.SmrbtInsert
import CgrJni.SmrbtDelete
import CgrJni.SmrbtSearch
import CgrJni.SmrbtRuns
import CgrJni.SmrbtDestroy
import CgrJni.IonDb
import CgrJni.Rfx
import CgrJni.RfxContacts
import CgrJni.RfxRanges
import CgrJni.RangeRemoval
import CgrJni.RangeInsertion
import CgrJni.Timeline
import CgrJni.RfxStart
import CgrJni.PlanOrder
import CgrJni.PlanReload
import CgrJni.EarliestArrival
import CgrJni.Libcgr
import CgrJni.Dijkstra
import CgrJni.DijkstraCorrect
import CgrJni.Scalar
import CgrJni.RouteLists
import CgrJni.Forward
import CgrJni.RouteWalk
import CgrJni.Process
import CgrJni.PlanAhead
import CgrJni.Freshness
import CgrJni.Isolation
import CgrJni.Router
import CgrJni.RouterQueues
import CgrJni.OverdueMessages
import CgrJni.Interface
import CgrJni.Reports
import CgrJni.Lifetime
import CgrJni.Platform
import CgrJni.Ionadmin
import CgrJni.LineReading
import CgrJni.ContactPlanCreator
import CgrJni.ReferenceTime
import CgrJni.OnwardHops
import CgrJni.RouteSeries
import CgrJni.InitialContacts
import CgrJni.WalkEnds
import CgrJni.EarlyStop
import CgrJni.Fallible
import CgrJni.Psm
import CgrJni.Smlist
import CgrJni.SmlistOps
import CgrJni.SmlistRuns
import CgrJni.OutductList
import CgrJni.Snapshots
import CgrJni.ContactRecords
import CgrJni.Journeys
import CgrJni.Projection
import CgrJni.ProjectedArrival
import CgrJni.BestCase
import CgrJni.Overbooking
import CgrJni.SdrList
import CgrJni.OverbookedQueues
import CgrJni.RouteLoading
import CgrJni.LimitContacts
import CgrJni.Detours
import CgrJni.FirstRoutes
import CgrJni.BestNeighbor
import CgrJni.ApplicableRange
import CgrJni.Words
import CgrJni.CommandLines
import CgrJni.ScalarSteps
import CgrJni.Narrowing
import CgrJni.ContactRemoval
import CgrJni.RangeUndo
import CgrJni.RouteRestarts
import CgrJni.SearchOrder
import CgrJni.PreferredRoutes
import CgrJni.RecomputedRoutes
import CgrJni.RecordIndex
import CgrJni.WorkingMemory
import CgrJni.ReleasedRecords
import CgrJni.FailedInsertion
import CgrJni.SimpleTrails
import CgrJni.SimpleRoutes
import CgrJni.Numerals
import CgrJni.PlanText
import CgrJni.PlanFromLog
import CgrJni.Simulation
import CgrJni.CyclicOrder
import CgrJni.RoundRobin
import CgrJni.Network
import CgrJni.RepeatedCalls
import CgrJni.OutductCalls
import CgrJni.PlanGrowth
import CgrJni.Calendar
import CgrJni.Timestamps
import CgrJni.Embargoes
import CgrJni.Lysts
import CgrJni.NeighborLists
