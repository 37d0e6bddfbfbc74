import DistributedLabs.RaftHandlers
import Mathlib.Data.List.Sort
import Mathlib.Data.List.OfFn

/-!
# Elections and replication from the sender's side

The election that `ticker` starts and the treatment of its replies, the requests that
one pass of `AppendEntriesRoutine` builds, and the two reply handlers that move
`nextIndex`, `matchIndex` and `commitIndex`.
-/

namespace DistributedLabs.RaftPeer

variable {n : ℕ} {C : Type*}

inductive Request (C : Type*) where
  | requestVote (args : RequestVoteArgs)
  | appendEntries (args : AppendEntriesRequest C)
  | installSnapshot (args : InstallSnapshotRequest C)
  deriving DecidableEq, Repr

/-- What `ticker` does on an election timeout before it releases the lock. -/
def startElection (rf : Raft n C) : Raft n C × RequestVoteArgs :=
  let rf := Raft.persist { rf with
    votedFor := (rf.me : ℕ)
    currentTerm := rf.currentTerm + 1
    currentRole := .candidate }
  (rf, {
    term := rf.currentTerm
    candidateId := (rf.me : ℕ)
    lastLogIndex := rf.lastLogIndex
    lastLogTerm := rf.lastLogTerm })

/-- Follow a term that a reply has announced. -/
def Raft.stepDown (rf : Raft n C) (term : ℤ) : Raft n C :=
  Raft.persist { rf with currentRole := .follower, currentTerm := term, votedFor := -1 }

def Raft.becomeLeader (rf : Raft n C) : Raft n C :=
  Raft.persist { rf with
    currentRole := .leader
    matchIndex := fun i => if i = rf.me then rf.lastIncludedIndex + rf.log.length - 1 else 0
    nextIndex := fun _ => rf.lastIncludedIndex + rf.log.length }

/-- The rest of the vote goroutine once `sendRequestVote` has returned. The election's
`numVotes` is shared by the goroutines of the election, which was started in `curTerm`. -/
def voteReply (rf : Raft n C) (numVotes : ℕ) (curTerm : ℤ) (reply : RequestVoteReply) :
    Raft n C × ℕ :=
  if rf.currentTerm < reply.term then (rf.stepDown reply.term, numVotes)
  else if rf.currentTerm ≠ curTerm ∨ rf.currentRole ≠ .candidate then (rf, numVotes)
  else
    let numVotes := if reply.voteGranted then numVotes + 1 else numVotes
    if n / 2 + 1 ≤ numVotes then (rf.becomeLeader, numVotes) else (rf, numVotes)

/-- The request for one other peer in a pass of `AppendEntriesRoutine`. -/
def routineRequest (rf : Raft n C) (ind : Fin n) : Option (Request C) :=
  if rf.nextIndex ind ≤ rf.lastIncludedIndex then
    some (.installSnapshot {
      term := rf.currentTerm
      leaderId := (rf.me : ℕ)
      lastIncludedIndex := rf.lastIncludedIndex
      lastIncludedTerm := rf.lastIncludedTerm
      data := rf.curSnapshot
      done := true })
  else
    let physicalLowerBound := rf.convertLogicalToPhysical (rf.nextIndex ind)
    let prevLogIndex := rf.nextIndex ind - 1
    let prevLogTerm := if 0 ≤ prevLogIndex then
        (at? rf.log (rf.convertLogicalToPhysical prevLogIndex)).map LogValue.term
      else some (-1)
    prevLogTerm.map fun prevLogTerm => .appendEntries {
      term := rf.currentTerm
      leaderId := (rf.me : ℕ)
      prevLogIndex := prevLogIndex
      prevLogTerm := prevLogTerm
      entries := rf.log.drop physicalLowerBound.toNat
      leaderCommit := rf.commitIndex }

def installReply (rf : Raft n C) (curIndex : Fin n) (savedTerm : ℤ)
    (snapArgs : InstallSnapshotRequest C) (snapResp : InstallSnapshotResponse) : Raft n C :=
  if rf.currentRole ≠ .leader then rf
  else if savedTerm ≠ rf.currentTerm then rf
  else if rf.currentTerm < snapResp.term then rf.stepDown snapResp.term
  else
    { rf with
      nextIndex := Function.update rf.nextIndex curIndex (snapArgs.lastIncludedIndex + 1)
      matchIndex := Function.update rf.matchIndex curIndex snapArgs.lastIncludedIndex }

/-- The median of the match indices, in a sorted copy. -/
def Raft.toCommit (rf : Raft n C) : ℤ :=
  ((List.ofFn rf.matchIndex).insertionSort (· ≤ ·)).getD ((n - 1) / 2) 0

def Raft.advanceCommit (rf : Raft n C) : Option (Raft n C) :=
  if rf.toCommit ≤ rf.lastIncludedIndex then some rf
  else
    (at? rf.log (rf.convertLogicalToPhysical rf.toCommit)).map fun v =>
      if v.term = rf.currentTerm ∧ rf.commitIndex < rf.toCommit then
        { rf with commitIndex := rf.toCommit }
      else rf

/-- The loop for the last physical index above zero with the given term. -/
def lastWithTerm (term : ℤ) : ℕ → List (LogValue C) → ℤ → ℤ
  | _, [], tempInd => tempInd
  | curInd, val :: rest, tempInd =>
    lastWithTerm term (curInd + 1) rest
      (if curInd ≠ 0 ∧ val.term = term then (curInd : ℤ) else tempInd)

/-- The new `nextIndex` after a rejected `AppendEntries`. -/
def Raft.backUp (rf : Raft n C) (resp : AppendEntriesResponse) : ℤ :=
  if resp.xTerm = -1 then resp.xLen
  else if rf.getTermFirstEntry resp.xTerm = -1 then
    if resp.xIndex ≠ 0 then resp.xIndex else 1
  else
    let tempInd := lastWithTerm resp.xTerm 0 rf.log (-1)
    if tempInd ≠ -1 then rf.lastIncludedIndex + tempInd + 1 else resp.xIndex

def appendReply (rf : Raft n C) (serverId : Fin n) (savedTerm : ℤ)
    (args : AppendEntriesRequest C) (resp : AppendEntriesResponse) : Option (Raft n C) :=
  if rf.currentRole ≠ .leader then some rf
  else if savedTerm ≠ rf.currentTerm then some rf
  else if rf.currentTerm < resp.term then some (rf.stepDown resp.term)
  else if resp.success then
    let matched := max (rf.matchIndex serverId) (args.prevLogIndex + args.entries.length)
    Raft.advanceCommit { rf with
      nextIndex := Function.update rf.nextIndex serverId (matched + 1)
      matchIndex := Function.update (Function.update rf.matchIndex serverId matched) rf.me
        (rf.lastIncludedIndex + (rf.log.length - 1)) }
  else some { rf with nextIndex := Function.update rf.nextIndex serverId (rf.backUp resp) }

end DistributedLabs.RaftPeer
