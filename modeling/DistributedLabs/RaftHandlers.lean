import DistributedLabs.RaftPeer

/-!
# The remote calls of a Raft peer

The three handlers that run at the receiver of a request, under its lock from entry
to return.
-/

namespace DistributedLabs.RaftPeer

structure RequestVoteArgs where
  term : ℤ
  candidateId : ℤ
  lastLogIndex : ℤ
  lastLogTerm : ℤ
  deriving DecidableEq, Repr

structure RequestVoteReply where
  term : ℤ := 0
  voteGranted : Bool := false
  deriving DecidableEq, Repr

structure AppendEntriesRequest (C : Type*) where
  term : ℤ
  leaderId : ℤ
  prevLogIndex : ℤ
  prevLogTerm : ℤ
  entries : List (LogValue C)
  leaderCommit : ℤ
  deriving DecidableEq, Repr

structure AppendEntriesResponse where
  term : ℤ := 0
  success : Bool := false
  xTerm : ℤ := 0
  xIndex : ℤ := 0
  xLen : ℤ := 0
  deriving DecidableEq, Repr

structure InstallSnapshotRequest (C : Type*) where
  term : ℤ
  leaderId : ℤ
  lastIncludedIndex : ℤ
  lastIncludedTerm : ℤ
  data : List C
  done : Bool
  deriving DecidableEq, Repr

structure InstallSnapshotResponse where
  term : ℤ := 0
  deriving DecidableEq, Repr

variable {n : ℕ} {C : Type*}

/-- Term of the last log entry; the snapshot's term when only the dummy is left. -/
def Raft.lastLogTerm (rf : Raft n C) : ℤ :=
  if 1 < rf.log.length then rf.termAt (rf.log.length - 1) else rf.lastIncludedTerm

def Raft.lastLogIndex (rf : Raft n C) : ℤ := rf.lastIncludedIndex + rf.log.length - 1

/-- Logical index of the first entry above the dummy with the given term, `-1` without one. -/
def Raft.getTermFirstEntry (rf : Raft n C) (term : ℤ) : ℤ :=
  match (rf.log.drop 1).findIdx? (fun v => v.term == term) with
  | some i => (i + 1 : ℕ) + rf.lastIncludedIndex
  | none => -1

def requestVote (rf : Raft n C) (args : RequestVoteArgs) : Raft n C × RequestVoteReply :=
  let reply : RequestVoteReply := { term := rf.currentTerm }
  if args.term < rf.currentTerm then (rf, reply)
  else
    let rf := if rf.currentTerm < args.term then
        Raft.persist { rf with currentRole := .follower, currentTerm := args.term, votedFor := -1 }
      else rf
    if rf.votedFor ≠ -1 ∧ rf.votedFor ≠ args.candidateId then (rf, reply)
    else if args.lastLogTerm < rf.lastLogTerm then (rf, reply)
    else if args.lastLogTerm = rf.lastLogTerm ∧ args.lastLogIndex < rf.lastLogIndex then (rf, reply)
    else
      (Raft.persist { rf with votedFor := args.candidateId, currentRole := .follower },
        { reply with voteGranted := true })

/-- The loop over `args.Entries` from physical index `logIdx` on: append what is beyond
the log, or cut the log at the first entry of another term and append there. -/
def mergeEntries (log : List (LogValue C)) (logIdx : ℕ) : List (LogValue C) → List (LogValue C)
  | [] => log
  | e :: rest =>
    match log[logIdx]? with
    | none => log ++ e :: rest
    | some v => if e.term ≠ v.term then log.take logIdx ++ e :: rest
        else mergeEntries log (logIdx + 1) rest

/-- The peer after the term rule at the head of `AppendEntries`. This is not persisted here. -/
def Raft.observeTerm (rf : Raft n C) (term : ℤ) : Raft n C :=
  if rf.currentTerm < term then
    { rf with currentTerm := term, votedFor := -1, currentRole := .follower }
  else rf

def appendEntries (rf : Raft n C) (args : AppendEntriesRequest C) :
    Raft n C × AppendEntriesResponse :=
  if args.term < rf.currentTerm then (rf, { term := rf.currentTerm })
  else
    let prevInd := rf.convertLogicalToPhysical args.prevLogIndex
    let rf := rf.observeTerm args.term
    if args.prevLogIndex < rf.lastIncludedIndex then (rf, { term := rf.currentTerm })
    else if (rf.log.length : ℤ) ≤ prevInd then
      (rf, {
        term := rf.currentTerm
        xTerm := -1
        xIndex := -1
        xLen := rf.log.length + rf.lastIncludedIndex })
    else if 0 < prevInd ∧ args.prevLogTerm ≠ rf.termAt prevInd then
      (rf, {
        term := rf.currentTerm
        xTerm := rf.termAt prevInd
        xIndex := rf.getTermFirstEntry (rf.termAt prevInd)
        xLen := rf.log.length + rf.lastIncludedIndex })
    else
      let rf := { rf with log := mergeEntries rf.log (prevInd.toNat + 1) args.entries }
      let lastNew := (rf.log.length : ℤ) - 1 + rf.lastIncludedIndex
      let rf := if rf.commitIndex < args.leaderCommit then
          { rf with commitIndex := min args.leaderCommit lastNew }
        else rf
      (rf.persist, { term := rf.currentTerm, success := true })

/-- The entries behind the one the snapshot ends with, searched from physical index `ind`. -/
def suffixAfter (args : InstallSnapshotRequest C) (lastIncludedIndex : ℤ) :
    ℕ → List (LogValue C) → List (LogValue C)
  | _, [] => []
  | ind, val :: rest =>
    if val.term = args.lastIncludedTerm ∧ args.lastIncludedIndex = lastIncludedIndex + ind then rest
    else suffixAfter args lastIncludedIndex (ind + 1) rest

variable [Inhabited C]

def installSnapshotHandler (rf : Raft n C) (args : InstallSnapshotRequest C) :
    Raft n C × InstallSnapshotResponse :=
  if args.term < rf.currentTerm ∨ args.lastIncludedIndex < rf.lastIncludedIndex then
    (rf, { term := rf.currentTerm })
  else
    let rf := if rf.currentTerm < args.term then
        Raft.persist { rf with currentTerm := args.term, votedFor := -1, currentRole := .follower }
      else rf
    (Raft.persist { rf with
      currentRole := .follower
      curSnapshot := args.data
      log := dummy args.lastIncludedTerm :: suffixAfter args rf.lastIncludedIndex 0 rf.log
      lastIncludedIndex := args.lastIncludedIndex
      lastIncludedTerm := args.lastIncludedTerm
      commitIndex := max rf.commitIndex args.lastIncludedIndex }, {})

end DistributedLabs.RaftPeer
