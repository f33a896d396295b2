import PaxosOdin.Wire.RoundTrip
import PaxosOdin.Bridge.Guard
import PaxosOdin.Bridge.Receipts
import PaxosOdin.Session.Receiving
import PaxosOdin.Storage.HistoryRun
import PaxosOdin.Storage.FileHistory
import PaxosOdin.Storage.JournalRun
import PaxosOdin.Storage.FileJournal
import PaxosOdin.Storage.Framing
import PaxosOdin.Storage.Pack
import PaxosOdin.Cluster.Progress
import PaxosOdin.Cluster.Provenance
import PaxosOdin.Cluster.Agreement
import PaxosOdin.Cluster.Terms
import PaxosOdin.Cluster.Recovery
import PaxosOdin.Cluster.Answers
import PaxosOdin.Cluster.Campaigns
import PaxosOdin.Cluster.Acceptors
import PaxosOdin.Cluster.Decisions
import PaxosOdin.Replicated.OwnEffects
import PaxosOdin.Replicated.Log
import PaxosOdin.Lifetime.Suggesting
import PaxosOdin.Lifetime.Reporting
import PaxosOdin.Lifetime.Resolving
import PaxosOdin.Lifetime.Leading
import PaxosOdin.Lifetime.Authority
import PaxosOdin.Lifetime.Inheriting
import PaxosOdin.Lifetime.Candidacy
import PaxosOdin.Lifetime.Admission
import PaxosOdin.Lifetime.CatchUp
import PaxosOdin.Lifetime.Bitmaps
import PaxosOdin.Lifetime.Validity
import PaxosOdin.Lifetime.Values
import PaxosOdin.Lifetime.Fidelity
import PaxosOdin.Lifetime.Capacity
import PaxosOdin.Lifetime.Window
import PaxosOdin.Lifetime.Tenure
import PaxosOdin.Lifetime.Delivery
import PaxosOdin.Lifetime.Operations
import PaxosOdin.Acceptor.Restart
import PaxosOdin.Acceptor.Sound
import PaxosOdin.Acceptor.Memory
import PaxosOdin.Acceptor.Fold
import PaxosOdin.Acceptor.Strict
import PaxosOdin.Acceptor.Representation
import PaxosOdin.Transition.Calls
import PaxosOdin.Transition.Owning
import PaxosOdin.Transition.Probing
import PaxosOdin.Lifetime.Midway
import PaxosOdin.Lifetime.Overwriting
import PaxosOdin.Lifetime.Stability
import PaxosOdin.Lifetime.References
import PaxosOdin.Transition.Resending
import PaxosOdin.Transition.Sending
import PaxosOdin.Transition.Incarnation
import PaxosOdin.Transition.Accepting
import PaxosOdin.Transition.Recovering
import PaxosOdin.Transition.Proposing
import PaxosOdin.Transition.Learning
import PaxosOdin.Transition.Micro
import PaxosOdin.Synod.Quorums
import PaxosOdin.Learner.Window
import PaxosOdin.Core.BitSet
import PaxosOdin.Core.Quorums
import PaxosOdin.Cluster.Applied
import PaxosOdin.Synod.Safety
