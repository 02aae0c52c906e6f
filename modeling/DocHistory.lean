import DocHistory.Graph.Wire
import DocHistory.Program
import DocHistory.Store
import DocHistory.Proofs.MapLookup
import DocHistory.Proofs.Past
import DocHistory.Proofs.Placement
import DocHistory.Proofs.MergeHeads
import DocHistory.Proofs.PathContest
import DocHistory.Proofs.ResolvedState
import DocHistory.Proofs.SweepLaws
import DocHistory.Proofs.CacheCoherence
import DocHistory.Proofs.ReadDepth
import DocHistory.Proofs.ConcurrentWrites
import DocHistory.Proofs.ConflictRecord
import DocHistory.Proofs.LastWriter
import DocHistory.Proofs.EmptyMerge
import DocHistory.Proofs.Dominance
import DocHistory.Proofs.LoserOrder
import DocHistory.Proofs.BareNodes
import DocHistory.Proofs.MaximalNodes
import DocHistory.Proofs.TrackedHeads
import DocHistory.Proofs.LayeredStore
import DocHistory.Proofs.Chronicle
import DocHistory.Proofs.Lineage
import DocHistory.Proofs.CacheTransparency
import DocHistory.Proofs.Likeness
import DocHistory.Proofs.CommitOrder
import DocHistory.Proofs.TimeTravel
import DocHistory.Proofs.CommitParts
import DocHistory.Proofs.BatchFaults
import DocHistory.Proofs.BranchCover
import DocHistory.Proofs.CommitOutcome
import DocHistory.Proofs.ReloadedGraphs
import DocHistory.Proofs.PublishedVersions
import DocHistory.Proofs.DocumentOutline
import DocHistory.Proofs.FlatDocument
import DocHistory.Proofs.DocumentLikeness
import DocHistory.Proofs.LeafPaths
import DocHistory.Proofs.DocumentChanges
import DocHistory.Proofs.BranchWrites
import DocHistory.Proofs.DocumentRoundTrip
import DocHistory.Proofs.LinearBranches
import DocHistory.Proofs.SingleWriter
import DocHistory.Proofs.BranchFrontier
import DocHistory.Proofs.PoolAdmission
import DocHistory.Proofs.CacheBudget
import DocHistory.Proofs.LineageBudget
import DocHistory.Proofs.RecentNodes
import DocHistory.Proofs.NumeralText
import DocHistory.Proofs.IdentifierText
import DocHistory.Proofs.PathSpelling
import DocHistory.Proofs.PathText
import DocHistory.Proofs.NumberText
import DocHistory.Proofs.WireText
import DocHistory.Proofs.VersionWire
import DocHistory.Proofs.StoreDump
import DocHistory.Proofs.DescentOrder
import DocHistory.Proofs.DocumentLeaves
import DocHistory.Proofs.LeastChanges
import DocHistory.Proofs.PathForks
import DocHistory.Proofs.AssembledShape
import DocHistory.Proofs.ClockRuns
import DocHistory.Proofs.MergeWire
import DocHistory.Proofs.SerializedForms
import DocHistory.Proofs.RevisionSpelling
import DocHistory.Proofs.RevisionOrder
import DocHistory.Proofs.StoreRuns
import DocHistory.Proofs.SweepStack
import DocHistory.Proofs.SweepOrder
