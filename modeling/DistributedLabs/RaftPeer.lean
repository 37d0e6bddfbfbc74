import Mathlib.Data.Int.Basic
import Mathlib.Data.List.Basic
import Mathlib.Data.Fin.Basic
import Mathlib.Logic.Function.Basic
import Mathlib.Order.Lattice

/-!
# One Raft peer: state, persistence and the calls of its service

The fields of the peer, what `persist` saves and what `Make` reads back, and the
operations the service calls: `Start`, `Snapshot` and the `Apply` loop. Timers and the
wake-up channel of the leader only decide when a step happens, so every step below may
happen at any time.

Indices and terms are integers without bounds here and of type `int` in the source.
`RaftRunBounds` shows that none of them is above the number of events of the run, but for
the index behind the log, so that below `2 ^ 63 - 1` events the arithmetic is that of `int`.

A snapshot is a byte string for the peer. Here it is the list of the commands it
covers, which is what the service of the tests encodes in it and what the state of
any other service is computed from.

An operation that would index a slice out of range returns `none`.
-/

namespace DistributedLabs.RaftPeer

inductive Role where
  | leader | follower | candidate
  deriving DecidableEq, Repr

structure LogValue (C : Type*) where
  term : ℤ
  item : C
  deriving DecidableEq, Repr

/-- The decoded contents of one `persister.Save`. -/
structure Saved (C : Type*) where
  log : List (LogValue C)
  currentTerm : ℤ
  votedFor : ℤ
  lastIncludedIndex : ℤ
  lastIncludedTerm : ℤ
  snapshot : List C
  deriving DecidableEq, Repr

/-- All contents ever saved, the latest first. Only the latest can be read back; the
others are what a crash in the middle of an operation may leave behind. -/
structure Persister (C : Type*) where
  saves : List (Saved C)

def Persister.save {C : Type*} (ps : Persister C) (d : Saved C) : Persister C := ⟨d :: ps.saves⟩

inductive ApplyMsg (C : Type*) where
  | command (commandIndex : ℤ) (command : C)
  | snapshot (snapshotIndex snapshotTerm : ℤ) (snapshot : List C)
  deriving DecidableEq, Repr

/-- The fields of a peer; for the range of its integers see `RaftBounds.run_numbers`. -/
structure Raft (n : ℕ) (C : Type*) where
  persister : Persister C
  me : Fin n
  currentTerm : ℤ
  votedFor : ℤ
  currentRole : Role
  log : List (LogValue C)
  commitIndex : ℤ
  lastApplied : ℤ
  nextIndex : Fin n → ℤ
  matchIndex : Fin n → ℤ
  lastIncludedIndex : ℤ
  lastIncludedTerm : ℤ
  curSnapshot : List C

variable {n : ℕ} {C : Type*}

/-- The entry at an index of a slice, if the index is in range. -/
def at? {α : Type*} (l : List α) (i : ℤ) : Option α := if 0 ≤ i then l[i.toNat]? else none

def Raft.termAt (rf : Raft n C) (i : ℤ) : ℤ := ((rf.log[i.toNat]?).map LogValue.term).getD 0

def Raft.convertLogicalToPhysical (rf : Raft n C) (logicalIndex : ℤ) : ℤ :=
  logicalIndex - rf.lastIncludedIndex

def Raft.persist (rf : Raft n C) : Raft n C :=
  { rf with
    persister := rf.persister.save {
      log := rf.log
      currentTerm := rf.currentTerm
      votedFor := rf.votedFor
      lastIncludedIndex := rf.lastIncludedIndex
      lastIncludedTerm := rf.lastIncludedTerm
      snapshot := rf.curSnapshot } }

/-- Nothing is restored when nothing was ever saved. -/
def Raft.readPersist (rf : Raft n C) (data : Option (Saved C)) : Raft n C :=
  match data with
  | none => rf
  | some d =>
    { rf with
      log := d.log
      currentTerm := d.currentTerm
      votedFor := d.votedFor
      lastIncludedIndex := d.lastIncludedIndex
      lastIncludedTerm := d.lastIncludedTerm }

section Service

variable [Inhabited C]

/-- The placeholder at physical index zero; `default` stands for the item `"dummy"`. -/
def dummy (term : ℤ) : LogValue C := ⟨term, default⟩

def make (me : Fin n) (persister : Persister C) : Raft n C :=
  let rf : Raft n C := {
    persister := persister
    me := me
    currentTerm := 0
    votedFor := -1
    currentRole := .follower
    log := [dummy (-1)]
    commitIndex := 0
    lastApplied := 0
    nextIndex := fun _ => 0
    matchIndex := fun _ => 0
    lastIncludedIndex := 0
    lastIncludedTerm := 0
    curSnapshot := [] }
  let rf := rf.readPersist persister.saves.head?
  { rf with
    commitIndex := rf.lastIncludedIndex
    lastApplied := rf.lastIncludedIndex
    curSnapshot := (persister.saves.head?.map Saved.snapshot).getD [] }

/-- Log compaction up to `index`, for which the service has made the snapshot. -/
def snapshot (rf : Raft n C) (index : ℤ) (snapshot : List C) : Option (Raft n C) :=
  if index ≤ rf.lastIncludedIndex then some rf
  else
    let physicalInd := rf.convertLogicalToPhysical index
    (at? rf.log physicalInd).map fun v =>
      Raft.persist { rf with
        lastIncludedIndex := index
        lastIncludedTerm := v.term
        log := dummy v.term :: rf.log.drop (physicalInd.toNat + 1)
        commitIndex := max rf.commitIndex index
        lastApplied := max rf.lastApplied index
        curSnapshot := snapshot }

end Service

/-- Append a command at the leader; the index, the term, and whether this is a leader. -/
def start (rf : Raft n C) (command : C) : Raft n C × ℤ × ℤ × Bool :=
  if rf.currentRole ≠ .leader then (rf, -1, -1, false)
  else
    let index := rf.lastIncludedIndex + rf.log.length
    let term := rf.currentTerm
    (Raft.persist { rf with log := rf.log ++ [⟨rf.currentTerm, command⟩] }, index, term, true)

/-- The messages for the entries of one batch, numbered from `logicalStart`. -/
def commandMsgs (logicalStart : ℤ) : List (LogValue C) → List (ApplyMsg C)
  | [] => []
  | val :: rest => .command logicalStart val.item :: commandMsgs (logicalStart + 1) rest

/-- One pass of `Apply` under the lock: the messages it will send on `applyCh`. -/
def apply (rf : Raft n C) : Option (Raft n C × List (ApplyMsg C)) :=
  if rf.lastApplied < rf.lastIncludedIndex then
    some ({ rf with lastApplied := rf.lastIncludedIndex },
      [.snapshot rf.lastIncludedIndex rf.lastIncludedTerm rf.curSnapshot])
  else if rf.lastApplied < rf.commitIndex then
    let logicalStart := rf.lastApplied + 1
    let first := rf.convertLogicalToPhysical (rf.lastApplied + 1)
    let last := rf.convertLogicalToPhysical rf.commitIndex
    if 0 ≤ first ∧ last < rf.log.length then
      let toApply := (rf.log.drop first.toNat).take (last - first + 1).toNat
      some ({ rf with lastApplied := rf.commitIndex }, commandMsgs logicalStart toApply)
    else none
  else some (rf, [])

end DistributedLabs.RaftPeer
