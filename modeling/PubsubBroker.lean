import PubsubBroker.Access.Effect
import PubsubBroker.Access.Handlers
import PubsubBroker.Access.Isolation
import PubsubBroker.Access.Letters
import PubsubBroker.Access.Recreation
import PubsubBroker.Auth.Authenticator
import PubsubBroker.Auth.Legacy
import PubsubBroker.Client.Authenticate
import PubsubBroker.Client.Close
import PubsubBroker.Client.Requests
import PubsubBroker.Client.Subscribe
import PubsubBroker.Cluster.Election
import PubsubBroker.Configuration.HotReload
import PubsubBroker.Configuration.Patch
import PubsubBroker.Configuration.RetentionArithmetic
import PubsubBroker.Consumers.Assignment
import PubsubBroker.Consumers.Backlog
import PubsubBroker.Consumers.DeadLetters
import PubsubBroker.Consumers.Delivery
import PubsubBroker.Consumers.Departure
import PubsubBroker.Consumers.Group
import PubsubBroker.Consumers.Pull
import PubsubBroker.Consumers.Push
import PubsubBroker.Consumers.Resume
import PubsubBroker.Consumers.Seek
import PubsubBroker.Explorer.Codec
import PubsubBroker.Explorer.Conservation
import PubsubBroker.Explorer.Session
import PubsubBroker.Explorer.WebSocket
import PubsubBroker.Offsets.Checkpoint
import PubsubBroker.Offsets.Durability
import PubsubBroker.Offsets.Snapshot
import PubsubBroker.Offsets.Store
import PubsubBroker.Protocol.Frame
import PubsubBroker.Protocol.PythonReader
import PubsubBroker.Publish.Backpressure
import PubsubBroker.Publish.Balance
import PubsubBroker.Publish.Broker
import PubsubBroker.Publish.ExactlyOnce
import PubsubBroker.Publish.Idempotence
import PubsubBroker.Publish.Isolation
import PubsubBroker.Publish.Recovery
import PubsubBroker.Publish.Rejection
import PubsubBroker.Publish.Retry
import PubsubBroker.Publish.RoundTrip
import PubsubBroker.Publish.Sequential
import PubsubBroker.Raft.Apply
import PubsubBroker.Raft.Ballots
import PubsubBroker.Raft.CatchUp
import PubsubBroker.Raft.Cluster
import PubsubBroker.Raft.Commitment
import PubsubBroker.Raft.ElectionSafety
import PubsubBroker.Raft.LogMatching
import PubsubBroker.Raft.Machine
import PubsubBroker.Raft.Merge
import PubsubBroker.Raft.Node
import PubsubBroker.Raft.Propose
import PubsubBroker.Raft.Protocol
import PubsubBroker.Raft.Refinement
import PubsubBroker.Raft.Replication
import PubsubBroker.Raft.Safety
import PubsubBroker.Raft.Simulation
import PubsubBroker.Raft.Staleness
import PubsubBroker.Raft.StateFile
import PubsubBroker.Raft.StateMachineSafety
import PubsubBroker.Raft.VoteDurability
import PubsubBroker.Raft.Wiring
import PubsubBroker.Replica.Isr
import PubsubBroker.Replica.Replicator
import PubsubBroker.Replica.Transport
import PubsubBroker.Storage.Compactor
import PubsubBroker.Storage.Effectiveness
import PubsubBroker.Storage.Eviction
import PubsubBroker.Storage.KeyCompaction
import PubsubBroker.Storage.PartitionLog
import PubsubBroker.Storage.Record
import PubsubBroker.Storage.Refinement
import PubsubBroker.Storage.Retention
import PubsubBroker.Storage.Rewrite
import PubsubBroker.Storage.Segment
import PubsubBroker.Storage.TornTail
import PubsubBroker.Storage.Transfer
import PubsubBroker.Storage.Version
import PubsubBroker.Telemetry.Audit
import PubsubBroker.Telemetry.Histogram
import PubsubBroker.Theory.Attribution
import PubsubBroker.Theory.Bytes
import PubsubBroker.Theory.Circular
import PubsubBroker.Theory.Framed
import PubsubBroker.Theory.Ledger
import PubsubBroker.Theory.Quorum
import PubsubBroker.Theory.RoundRobin
import PubsubBroker.Theory.Transition
import PubsubBroker.Topics.Registry
import PubsubBroker.Wal.Log
import PubsubBroker.Wal.Recovery
import PubsubBroker.Wal.Replacement
