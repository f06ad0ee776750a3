import IronMem.Text
import IronMem.Value
import IronMem.Governance
import IronMem.Influence
import IronMem.Assertion
import IronMem.Checkpoint
import IronMem.Json
import IronMem.CheckpointDelta
import IronMem.Purpose
import IronMem.Lib.ReplayCache
import IronMem.Lib.Proc
import IronMem.Database
import IronMem.Egress
import IronMem.Gate
import IronMem.SingleUse
import IronMem.Statements
import IronMem.Deletion
import IronMem.Remember
import IronMem.Visibility
import IronMem.Schema
import IronMem.Capture
import IronMem.Validation
import IronMem.Snapshot
import IronMem.Restore
import IronMem.CaptureSpec
import IronMem.WellFormed
import IronMem.RestoreSpec
import IronMem.RestoreMerge
import IronMem.Restored
import IronMem.RestorePolicy
import IronMem.Permissiveness
import IronMem.RestoreDecision
import IronMem.Lib.KeysetPaging
import IronMem.Sync
import IronMem.Lib.HashChain
import IronMem.JsonLossless
import IronMem.Ledger
import IronMem.LedgerChain
import IronMem.LedgerEpoch
import IronMem.Lib.Numbered
import IronMem.AssertionHistory
import IronMem.Replicas
import IronMem.Lib.GuardedRuns
import IronMem.Handles
import IronMem.GraphEdges
import IronMem.GraphRaces
import IronMem.GraphFailure
import IronMem.GraphCuration
import IronMem.Lib.ParentLinks
import IronMem.Lineage
import IronMem.EvidenceBackfill
import IronMem.AssertionQuery
import IronMem.Lib.Debts
import IronMem.Contradictions
import IronMem.Resolutions
import IronMem.Originals
import IronMem.Reclaim
import IronMem.Lib.Pick
import IronMem.Quotas
import IronMem.Lib.Words
import IronMem.Lib.Newest
import IronMem.GraphReconcile
import IronMem.Lib.Dates
import IronMem.GraphTimeline
import IronMem.ClaimKeys
import IronMem.Deliveries
import IronMem.ChunkedObjects
import IronMem.ChunkedAgreement
import IronMem.TaskTypes
import IronMem.Lib.Tiling
import IronMem.Lib.Versioned
import IronMem.PolicyUpdates
import IronMem.PolicyStorage
import IronMem.PolicyRuns
import IronMem.Lib.Base64
import IronMem.Confirmations
import IronMem.Lib.RankFusion
import IronMem.Retrieval
import IronMem.Reranking
import IronMem.Lib.Bisect
import IronMem.ByteText
import IronMem.Injection
import IronMem.InjectedLines
import IronMem.TaskVocabulary
import IronMem.CodeAnchors
import IronMem.Lib.Clusters
import IronMem.Lib.Collected
import IronMem.Reflection
import IronMem.LocalExtractor
import IronMem.ExtractedItems
import IronMem.Lib.Utf8
import IronMem.Transcript
import IronMem.SourceSpans
import IronMem.ChunkExpansion
import IronMem.Lib.Offers
import IronMem.WorkingSet
import IronMem.OriginalStore
import IronMem.CheckpointChains
import IronMem.SnapshotRuns
import IronMem.Lib.Actions
import IronMem.GeneratedContext
import IronMem.GeneratedContextRuns
import IronMem.SessionSweeps
import IronMem.SweepLeases
import IronMem.OriginalCounts
import IronMem.Reclamation
import IronMem.Lib.FaultyRuns
import IronMem.OriginalKeeping
