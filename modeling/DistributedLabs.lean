import DistributedLabs.DemuxAnswers
import DistributedLabs.DemuxCalls
import DistributedLabs.DemuxClient
import DistributedLabs.DemuxTransport
import DistributedLabs.FileSystem
import DistributedLabs.FramedPipes
import DistributedLabs.KvAtMostOnce
import DistributedLabs.KvClerks
import DistributedLabs.KvExecution
import DistributedLabs.KvFreshReads
import DistributedLabs.KvHistory
import DistributedLabs.KvLinearizability
import DistributedLabs.KvLinearization
import DistributedLabs.KvServer
import DistributedLabs.KvTraffic
import DistributedLabs.KvVersions
import DistributedLabs.KvsrvChecker
import DistributedLabs.KvsrvClerks
import DistributedLabs.KvsrvDefinite
import DistributedLabs.KvsrvLinearizability
import DistributedLabs.KvsrvServer
import DistributedLabs.LabrpcCalls
import DistributedLabs.LabrpcNetwork
import DistributedLabs.LabrpcReliable
import DistributedLabs.Linearizability
import DistributedLabs.LoadBalancing
import DistributedLabs.LockClients
import DistributedLabs.LockOwnership
import DistributedLabs.LockProgress
import DistributedLabs.LockRelease
import DistributedLabs.LockSafety
import DistributedLabs.LogPrefixes
import DistributedLabs.MajorityQuorums
import DistributedLabs.MapReduceAssignments
import DistributedLabs.MapReduceCoordinator
import DistributedLabs.MapReduceCrashes
import DistributedLabs.MapReduceFiles
import DistributedLabs.MapReduceNames
import DistributedLabs.MapReduceProgress
import DistributedLabs.MapReduceSequential
import DistributedLabs.MapReduceTasks
import DistributedLabs.MapReduceWorkers
import DistributedLabs.OneShotCalls
import DistributedLabs.RaftAppendOnly
import DistributedLabs.RaftAppendSteps
import DistributedLabs.RaftApplyOrder
import DistributedLabs.RaftAvailability
import DistributedLabs.RaftBackup
import DistributedLabs.RaftCampaigns
import DistributedLabs.RaftCatchUp
import DistributedLabs.RaftCluster
import DistributedLabs.RaftCompaction
import DistributedLabs.RaftDurability
import DistributedLabs.RaftElectionSteps
import DistributedLabs.RaftHandlers
import DistributedLabs.RaftIndices
import DistributedLabs.RaftIntegrity
import DistributedLabs.RaftLeader
import DistributedLabs.RaftLeaderProgress
import DistributedLabs.RaftLogView
import DistributedLabs.RaftNetworkSteps
import DistributedLabs.RaftPeer
import DistributedLabs.RaftPeerBounds
import DistributedLabs.RaftPeerSteps
import DistributedLabs.RaftPersistence
import DistributedLabs.RaftQuorumCommit
import DistributedLabs.RaftRefinement
import DistributedLabs.RaftRefinementFrame
import DistributedLabs.RaftReordering
import DistributedLabs.RaftReplicationSteps
import DistributedLabs.RaftRounds
import DistributedLabs.RaftRunBounds
import DistributedLabs.RaftSafety
import DistributedLabs.RaftService
import DistributedLabs.RaftServiceSteps
import DistributedLabs.RaftSimulation
import DistributedLabs.RaftSnapshotSteps
import DistributedLabs.RaftStepCases
import DistributedLabs.RaftTermRule
import DistributedLabs.RaftTester
import DistributedLabs.RaftTesterChecks
import DistributedLabs.RaftUncompacted
import DistributedLabs.RaftVoteSteps
import DistributedLabs.RaftYielding
import DistributedLabs.RsmCluster
import DistributedLabs.RsmIndexReplies
import DistributedLabs.RsmLocalSteps
import DistributedLabs.RsmReplay
import DistributedLabs.RsmReplies
import DistributedLabs.RsmServer
import DistributedLabs.RsmWaiters
import DistributedLabs.ServerGroups
import DistributedLabs.ServerPartitions
import DistributedLabs.ShardChecks
import DistributedLabs.ShardConfig
import DistributedLabs.ShardMembership
import DistributedLabs.SockRpc
import DistributedLabs.SockRpcCalls
import DistributedLabs.SockRpcExecutions
import DistributedLabs.SortedRuns
import DistributedLabs.TermLogCommitment
import DistributedLabs.TermLogCompleteness
import DistributedLabs.TermLogCreation
import DistributedLabs.TermLogLedger
import DistributedLabs.TermLogMatching
import DistributedLabs.TermLogProtocol
import DistributedLabs.TransitionRuns
