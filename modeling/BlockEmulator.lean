import BlockEmulator.Chain.BlockChain
import BlockEmulator.Chain.Book
import BlockEmulator.Chain.Conservation
import BlockEmulator.Chain.Crash
import BlockEmulator.Chain.Execute
import BlockEmulator.Chain.History
import BlockEmulator.Chain.Process
import BlockEmulator.Chain.Proofs
import BlockEmulator.Chain.Propose
import BlockEmulator.Chain.Refusals
import BlockEmulator.Chain.Restart
import BlockEmulator.Chain.Runs
import BlockEmulator.Chain.Settlements
import BlockEmulator.Chain.Solvency
import BlockEmulator.Chain.Transfers
import BlockEmulator.Chain.Validity
import BlockEmulator.Core
import BlockEmulator.Hashing
import BlockEmulator.Lib.Channel
import BlockEmulator.Lib.Counting
import BlockEmulator.Lib.FiniteMap
import BlockEmulator.Lib.Lines
import BlockEmulator.Lib.Loop
import BlockEmulator.Lib.Multigraph
import BlockEmulator.Lib.Numerals
import BlockEmulator.Lib.Run
import BlockEmulator.Lib.Scatter
import BlockEmulator.Lib.Tally
import BlockEmulator.Network.Bandwidth
import BlockEmulator.Network.Messages
import BlockEmulator.Pbft.Agreement
import BlockEmulator.Pbft.CatchUp
import BlockEmulator.Pbft.Lockstep
import BlockEmulator.Pbft.Modules
import BlockEmulator.Pbft.Node
import BlockEmulator.Pbft.Quorum
import BlockEmulator.Pbft.Replay
import BlockEmulator.Pbft.Replication
import BlockEmulator.Pbft.Rounds
import BlockEmulator.Pbft.SequenceLock
import BlockEmulator.Pbft.Settling
import BlockEmulator.Pbft.SingleView
import BlockEmulator.Pbft.Stage
import BlockEmulator.Pbft.ViewChange
import BlockEmulator.Pbft.World
import BlockEmulator.Shard.Announcements
import BlockEmulator.Shard.Barrier
import BlockEmulator.Shard.Bets
import BlockEmulator.Shard.BrokerLeader
import BlockEmulator.Shard.BrokerPool
import BlockEmulator.Shard.ClpaLedger
import BlockEmulator.Shard.Cluster
import BlockEmulator.Shard.ClusterLedger
import BlockEmulator.Shard.Custody
import BlockEmulator.Shard.Homes
import BlockEmulator.Shard.Leader
import BlockEmulator.Shard.Ledger
import BlockEmulator.Shard.Migration
import BlockEmulator.Shard.Ownership
import BlockEmulator.Shard.PartitionMaps
import BlockEmulator.Shard.Readiness
import BlockEmulator.Shard.Relay
import BlockEmulator.Shard.RelayProof
import BlockEmulator.Shard.Settlement
import BlockEmulator.Shard.Static
import BlockEmulator.Shard.ToolFuncs
import BlockEmulator.Shard.Whereabouts
import BlockEmulator.Shard.World
import BlockEmulator.Supervisor.Balances
import BlockEmulator.Supervisor.BrokerCommittee
import BlockEmulator.Supervisor.BrokerModule
import BlockEmulator.Supervisor.BrokerProtocol
import BlockEmulator.Supervisor.BrokerWorld
import BlockEmulator.Supervisor.ClpaCommittee
import BlockEmulator.Supervisor.ClpaCounts
import BlockEmulator.Supervisor.Injection
import BlockEmulator.Supervisor.Latency
import BlockEmulator.Supervisor.Partition
import BlockEmulator.Supervisor.PartitionCounts
import BlockEmulator.Supervisor.PartitionPopulation
import BlockEmulator.Supervisor.PartitionScores
import BlockEmulator.Supervisor.RawBroker
import BlockEmulator.Supervisor.RawBrokerRuns
import BlockEmulator.Supervisor.RelayCommittee
import BlockEmulator.Supervisor.TxNumCount
