import ReplicatedLog.Main
import ReplicatedLog.Subsets
import ReplicatedLog.Wire.Frame
import ReplicatedLog.Proofs.Roles
import ReplicatedLog.Proofs.World
import ReplicatedLog.Proofs.Replicas
import ReplicatedLog.Proofs.Voting
import ReplicatedLog.Proofs.Records
import ReplicatedLog.Proofs.AcceptorRuns
import ReplicatedLog.Proofs.Proposing
import ReplicatedLog.Proofs.Leading
import ReplicatedLog.Proofs.ProposerRuns
import ReplicatedLog.Proofs.Learning
import ReplicatedLog.Proofs.LearnerRuns
import ReplicatedLog.Proofs.Tallies
import ReplicatedLog.Proofs.Acceptors
import ReplicatedLog.Proofs.Proposers
import ReplicatedLog.Proofs.Learners
import ReplicatedLog.Proofs.Choices
import ReplicatedLog.Proofs.Deliveries
import ReplicatedLog.Proofs.Agreement
import ReplicatedLog.Proofs.Eviction
import ReplicatedLog.Proofs.Votes
import ReplicatedLog.Proofs.Validity
import ReplicatedLog.Proofs.Ordering
import ReplicatedLog.Proofs.SingleLeader
import ReplicatedLog.Proofs.ConflictFree
import ReplicatedLog.Proofs.ValidQuorum
import ReplicatedLog.Proofs.Pacing
import ReplicatedLog.Proofs.Mandate
import ReplicatedLog.Proofs.FullPipeline
import ReplicatedLog.Proofs.Pipeline
import ReplicatedLog.Proofs.Owning
import ReplicatedLog.Proofs.Conservation
import ReplicatedLog.Proofs.RoundTrip
import ReplicatedLog.Proofs.Retention
import ReplicatedLog.Proofs.Sendable
import ReplicatedLog.Proofs.Calm
import ReplicatedLog.Proofs.CalmLeader
import ReplicatedLog.Proofs.CalmLearner
import ReplicatedLog.Proofs.CalmEffects
import ReplicatedLog.Proofs.Completion
import ReplicatedLog.Proofs.Extent
import ReplicatedLog.Proofs.CalmProgress
import ReplicatedLog.Proofs.Handover
import ReplicatedLog.Proofs.CatchUp
import ReplicatedLog.Proofs.FirstQuorum
import ReplicatedLog.Proofs.VoteOrder
import ReplicatedLog.Proofs.Readers
import ReplicatedLog.Proofs.Encodings
import ReplicatedLog.Proofs.Frames
import ReplicatedLog.Proofs.Erasure
import ReplicatedLog.Proofs.Modes
import ReplicatedLog.Proofs.Seeding
import ReplicatedLog.Proofs.Enumeration
import ReplicatedLog.Proofs.Resending
import ReplicatedLog.Proofs.Batching
import ReplicatedLog.Proofs.Joining
import ReplicatedLog.Proofs.LowMark
import ReplicatedLog.Proofs.Declining
import ReplicatedLog.Proofs.Headroom
import ReplicatedLog.Proofs.Gaps
import ReplicatedLog.Proofs.PromiseAlarm
import ReplicatedLog.Proofs.Asking
import ReplicatedLog.Proofs.Pausing
import ReplicatedLog.Proofs.SparseMap
import ReplicatedLog.Proofs.Counting
import ReplicatedLog.Proofs.InWords
import ReplicatedLog.Proofs.Clusters
