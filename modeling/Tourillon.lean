import Tourillon.AntiEntropy.Handoff
import Tourillon.Store.Causality
import Tourillon.Store.WriteCoverage
import Tourillon.Store.QuorumIntersection
import Tourillon.Gossip.Convergence
import Tourillon.Gossip.Fingerprint
import Tourillon.Gossip.Updates
import Tourillon.Gossip.Reconciliation
import Tourillon.Lifecycle.Refusal
import Tourillon.Lifecycle.Tokens
import Tourillon.AntiEntropy.Sweep
import Tourillon.Store.Barrier
import Tourillon.AntiEntropy.Backlog
import Tourillon.Store.PreferenceLists
import Tourillon.Collector.DryRun
import Tourillon.AntiEntropy.Checkpoints
import Tourillon.Gossip.EpidemicBound
import Tourillon.Store.RepairCopies
import Tourillon.Schema.EncodingLaws
import Tourillon.Store.ClockRuns
import Tourillon.Store.RecordCodec
import Tourillon.Store.TokenCanonical
import Tourillon.AntiEntropy.ViewHash
import Tourillon.Transport.MalformedFrames
import Tourillon.Storage.BatchedIteration
import Tourillon.AntiEntropy.ExactPaging
import Tourillon.Store.Partitions
import Tourillon.Peer.Reaper
import Tourillon.AntiEntropy.Batching
