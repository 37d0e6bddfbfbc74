import DistributedLabs.RaftCluster
import DistributedLabs.RaftLogView
import DistributedLabs.TermLogCommitment

/-!
# How a cluster state stands for a state of the protocol

The protocol's term, vote and log of a member are what the peer has saved; its log is
never compacted. A peer in memory may run ahead of what it has saved only by a term it
has followed without voting in it. Everything a peer holds in a snapshot, counts as
committed or hands to its service is a chosen prefix of the protocol.
-/

namespace DistributedLabs.RaftRefinement

open RaftPeer RaftCluster RaftLogView TermLogProtocol TransitionRuns Relation

variable {n : ℕ} {C : Type*}

abbrev Proto (n : ℕ) (C : Type*) := State (Fin n) (LogValue C)

/-- `votedFor` of a peer whose recorded vote is the given one. -/
def voteCode : Option (Fin n) → ℤ
  | none => -1
  | some c => ((c : ℕ) : ℤ)

def items (l : List (LogValue C)) : List C := l.map LogValue.item

abbrev Chosen (a : Proto n C) (T : ℤ) (l : List (LogValue C)) : Prop :=
  TermLogProtocol.Chosen LogValue.term a T l

/-- What `Make` falls back to when nothing was saved. -/
def blank [Inhabited C] : Saved C where
  log := [dummy (-1)]
  currentTerm := 0
  votedFor := -1
  lastIncludedIndex := 0
  lastIncludedTerm := 0
  snapshot := []

def onDisk [Inhabited C] (ps : Persister C) : Saved C := ps.saves.head?.getD blank

/-- The saved state is the protocol's state of the peer. -/
structure DiskRel (a : Proto n C) (p : Fin n) (d : Saved C) : Prop where
  view : Represents (a.log p) d.log d.lastIncludedIndex d.lastIncludedTerm
  term : d.currentTerm = a.term p
  vote : d.votedFor = voteCode (a.vote p)
  snapshot : d.snapshot = items ((a.log p).take d.lastIncludedIndex.toNat)
  chosen : Chosen a (a.term p) ((a.log p).take d.lastIncludedIndex.toNat)

/-- A leader's view: it was elected, and every match index above its snapshot is backed
by an acknowledgement. -/
structure LeaderRel (a : Proto n C) (p : Fin n) (rf : Raft n C) : Prop where
  term : rf.currentTerm = a.term p
  elected : a.leader (a.term p) = some p
  ownAck : (p, a.term p, (a.log p).length) ∈ a.acks
  next : ∀ q, 1 ≤ rf.nextIndex q ∧ rf.nextIndex q ≤ (a.log p).length + 1
  matched : ∀ q, rf.matchIndex q ≤ rf.lastIncludedIndex ∨
    ∃ k : ℕ, rf.matchIndex q ≤ k ∧ (q, a.term p, k) ∈ a.acks

/-- The Raft fields of a peer in memory, its term and vote apart. -/
structure MemRel (a : Proto n C) (p : Fin n) (rf : Raft n C) : Prop where
  me : rf.me = p
  view : Represents (a.log p) rf.log rf.lastIncludedIndex rf.lastIncludedTerm
  snapshot : rf.curSnapshot = items ((a.log p).take rf.lastIncludedIndex.toNat)
  commit_ge : rf.lastIncludedIndex ≤ rf.commitIndex
  commit_le : rf.commitIndex ≤ (a.log p).length
  chosen : Chosen a (a.term p) ((a.log p).take rf.commitIndex.toNat)
  applied_nonneg : 0 ≤ rf.lastApplied
  applied_le : rf.lastApplied ≤ rf.commitIndex
  leads : rf.currentRole = .leader → LeaderRel a p rf

structure PeerRel [Inhabited C] (a : Proto n C) (p : Fin n) (rf : Raft n C) : Prop
    extends MemRel a p rf where
  disk : DiskRel a p (onDisk rf.persister)
  standing : (rf.currentTerm = a.term p ∧ rf.votedFor = voteCode (a.vote p)) ∨
    (a.term p < rf.currentTerm ∧ rf.votedFor = -1 ∧ rf.currentRole = .follower)

/-- The call asks for a vote in the election of term `T`. -/
def VoteCall (call : Call n C) (T : ℤ) : Prop :=
  call.savedTerm = T ∧ ∃ args, call.req = .requestVote args

/-- A candidate's view: the counted votes were cast, and no call that may still bring a
vote goes to a peer whose vote is counted. -/
structure CandidateRel (a : Proto n C) (p : Fin n) (pr : Process n C) : Prop where
  term : pr.rf.currentTerm = a.term p
  notElected : a.leader (a.term p) ≠ some p
  stands : ∃ l, (a.term p, p, l) ∈ a.candidacies ∧ (a.log p = l ∨ a.leader (a.term p) ≠ none)
  counted : ∃ S : Finset (Fin n), S.card = pr.numVotes (a.term p) ∧
    (∀ q ∈ S, (q, a.term p, p) ∈ a.votes) ∧
    ∀ call ∈ pr.calls, VoteCall call (a.term p) → call.server ∉ S
  distinct : ∀ call ∈ pr.calls, ∀ call' ∈ pr.calls, VoteCall call (a.term p) →
    VoteCall call' (a.term p) → call.server = call'.server → call.id = call'.id

/-- The commands `st` are the chosen ones at the indices up to `i`. -/
def Applied (a : Proto n C) (i : ℤ) (st : List C) : Prop :=
  ∃ T l, Chosen a T l ∧ (l.length : ℤ) = i ∧ st = items l

/-- The messages continue the deliveries after index `i` and end with index `j`. -/
def Pending (a : Proto n C) : ℤ → List (ApplyMsg C) → ℤ → Prop
  | i, [], j => i = j
  | i, .command index command :: rest, j =>
    index = i + 1 ∧ (∃ st, Applied a index (st ++ [command])) ∧ Pending a index rest j
  | i, .snapshot index _ data :: rest, j =>
    i < index ∧ Applied a index data ∧ Pending a index rest j

/-- What the service has received and what `Apply` is about to send. -/
structure ServiceRel (a : Proto n C) (pr : Process n C) : Prop where
  delivered : ∀ d ∈ pr.delivered, Applied a d.1 d.2 ∧ d.1 ≤ pr.rf.lastApplied
  pending : ∃ i st rest, pr.delivered = (i, st) :: rest ∧
    Pending a i pr.applying pr.rf.lastApplied

/-- What the arguments remembered by a waiting goroutine still mean. -/
def CallRel (a : Proto n C) (rf : Raft n C) (call : Call n C) : Prop :=
  call.savedTerm ≤ rf.currentTerm ∧
  match call.req with
  | .requestVote args => args.term = call.savedTerm
  | .appendEntries args => args.term = call.savedTerm ∧ 0 ≤ args.prevLogIndex ∧
      args.prevLogIndex + args.entries.length ≤ (a.leaderLog args.term).length
  | .installSnapshot args => args.term = call.savedTerm ∧ 0 ≤ args.lastIncludedIndex ∧
      args.lastIncludedIndex ≤ rf.lastIncludedIndex

structure ProcRel [Inhabited C] (a : Proto n C) (p : Fin n) (pr : Process n C) : Prop where
  peer : PeerRel a p pr.rf
  stands : pr.rf.currentRole = .candidate → CandidateRel a p pr
  service : ServiceRel a pr
  calls : ∀ call ∈ pr.calls, CallRel a pr.rf call

/-- What a request in flight says about its sender. -/
def RequestRel (a : Proto n C) (src dst : Fin n) : Request C → Prop
  | .requestVote args => args.candidateId = (src : ℕ) ∧ ∃ l, (args.term, src, l) ∈ a.candidacies ∧
      args.lastLogIndex = l.length ∧ args.lastLogTerm = lastTerm LogValue.term l
  | .appendEntries args => src ≠ dst ∧ a.leader args.term = some src ∧ 0 ≤ args.prevLogIndex ∧
      args.prevLogIndex ≤ (a.leaderLog args.term).length ∧
      args.entries <+: (a.leaderLog args.term).drop args.prevLogIndex.toNat ∧
      (0 < args.prevLogIndex → ∀ v,
        (a.leaderLog args.term)[(args.prevLogIndex - 1).toNat]? = some v →
        v.term = args.prevLogTerm) ∧
      0 ≤ args.leaderCommit ∧ args.leaderCommit ≤ args.prevLogIndex + args.entries.length ∧
      Chosen a args.term ((a.leaderLog args.term).take args.leaderCommit.toNat)
  | .installSnapshot args => src ≠ dst ∧ a.leader args.term = some src ∧
      0 < args.lastIncludedIndex ∧ args.lastIncludedIndex ≤ (a.leaderLog args.term).length ∧
      args.lastIncludedTerm =
        lastTerm LogValue.term ((a.leaderLog args.term).take args.lastIncludedIndex.toNat) ∧
      args.data = items ((a.leaderLog args.term).take args.lastIncludedIndex.toNat) ∧
      Chosen a args.term ((a.leaderLog args.term).take args.lastIncludedIndex.toNat)

/-- What a reply says to the call of `p` that it answers. -/
def ReplyRel (a : Proto n C) (p : Fin n) (call : Call n C) (rep : Reply) : Prop :=
  match call.req, rep with
  | .requestVote args, .requestVote reply =>
    reply.voteGranted = true → (call.server, args.term, p) ∈ a.votes
  | .appendEntries args, .appendEntries reply =>
    (reply.success = true →
      (call.server, args.term, (args.prevLogIndex + args.entries.length).toNat) ∈ a.acks) ∧
    (reply.success = false → reply.xTerm = -1 → 1 ≤ reply.xLen ∧ reply.xLen ≤ args.prevLogIndex) ∧
    (reply.success = false → reply.xTerm ≠ -1 →
      0 ≤ reply.xIndex ∧ reply.xIndex ≤ args.prevLogIndex)
  | .installSnapshot _, .installSnapshot _ => True
  | _, _ => False

def packetId : Packet n C → ℕ
  | .request id _ _ _ => id
  | .reply id _ _ => id

/-- The packets in flight and the calls that wait for them. -/
structure NetRel (a : Proto n C) (s : Cluster n C) : Prop where
  request : ∀ {id src dst req}, .request id src dst req ∈ s.net → RequestRel a src dst req
  fresh : ∀ pkt ∈ s.net, packetId pkt < s.nextCall
  freshCall : ∀ p, ∀ call ∈ (s.procs p).calls, call.id < s.nextCall
  asked : ∀ {id src dst req}, .request id src dst req ∈ s.net →
    ∀ call ∈ (s.procs src).calls, call.id = id → call.server = dst ∧ call.req = req
  answered : ∀ {id dst rep}, .reply id dst rep ∈ s.net →
    ∀ call ∈ (s.procs dst).calls, call.id = id → ReplyRel a dst call rep

/-- The cluster state stands for a state that the protocol reaches. -/
structure Related [Inhabited C] (s : Cluster n C) (a : Proto n C) : Prop where
  reached : TermLogProtocol.Reached LogValue.term a
  proc : ∀ p, ProcRel a p (s.procs p)
  net : NetRel a s

end DistributedLabs.RaftRefinement
