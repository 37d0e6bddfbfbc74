import DistributedLabs.RaftCluster

/-!
# The servers of the Raft tests and the tester that watches them

A server of the tests is a process with a Raft peer. It reads the messages of the peer, reports
each command to the tester, and, when it runs with snapshots, makes a snapshot at every tenth
index. The tester keeps a copy of what every server has reported and compares the copies.

The cluster keeps the commands that a snapshot covers in the place of the bytes that encode
them; a server that handed other bytes to `Snapshot` than those of its commands would go
astray. Calls from a server to the tester do not fail.
-/

namespace DistributedLabs.RaftTester

open RaftPeer RaftCluster TransitionRuns

variable {n : ℕ} {C B : Type*}

/-- A map from indices to values of type `any`: a command, or nil. -/
abbrev LogMap (C : Type*) := ℤ → Option (Option C)

/-- How `%v` prints a value. -/
def sprint [ToString C] : Option C → String
  | none => "<nil>"
  | some command => toString command

section Tester

structure RaftServer (C : Type*) where
  applyErr : String
  logs : LogMap C

structure Test (n : ℕ) (C : Type*) where
  srvs : Fin n → RaftServer C
  maxIndex : ℤ

def Test.entry (ts : Test n C) (srv : Fin n) (index : ℤ) : Option (Option C) :=
  (ts.srvs srv).logs index

variable [DecidableEq C] [ToString C]

/-- The error that `CheckLogs` ends with: that of the last server with another value. -/
def Test.mismatch (ts : Test n C) (i : Fin n) (index : ℤ) (command : C) : String :=
  (List.finRange n).foldl (fun errMsg j => match ts.entry j index with
    | some old =>
      if old ≠ some command then
        let value := sprint (some command)
        let other := sprint old
        s!"commit index={index} server={i} {value} != server={j} {other}"
      else errMsg
    | none => errMsg) ""

/-- The error, whether the server has reported the index before, and the tester after it. -/
def Test.checkLogs (ts : Test n C) (i : Fin n) (index : ℤ) (command : C) :
    String × Bool × Test n C :=
  (ts.mismatch i index command, (ts.entry i (index - 1)).isSome,
    { srvs := Function.update ts.srvs i { ts.srvs i with
        logs := Function.update (ts.srvs i).logs index (some (some command)) }
      maxIndex := if ts.maxIndex < index then index else ts.maxIndex })

def Test.ingestLog (ts : Test n C) (i : Fin n) (xlog : LogMap C) : Test n C :=
  { ts with srvs := Function.update ts.srvs i { ts.srvs i with logs := xlog } }

def Test.recordErr (ts : Test n C) (i : Fin n) (err : String) : Test n C :=
  { ts with srvs := Function.update ts.srvs i { ts.srvs i with applyErr := err } }

end Tester

section Server

/-- The two values that a snapshot encodes. -/
structure Image (C : Type*) where
  lastIncludedIndex : ℤ
  xlog : List (Option C)
  deriving DecidableEq

/-- An encoding of the two values that can be read back, in bytes that are not looked into. -/
structure Codec (C B : Type*) where
  nil : B
  encode : Image C → B
  decode : B → Option (Image C)
  decode_encode : ∀ image, decode (encode image) = some image
  encode_ne_nil : ∀ image, encode image ≠ nil

/-- The bytes that stand for the commands up to an index; before any snapshot there are none. -/
def Codec.bytes (codec : Codec C B) (index : ℤ) (commands : List C) : B :=
  if index = 0 then codec.nil else codec.encode ⟨index, none :: commands.map some⟩

inductive Phase (C B : Type*) where
  | starting (sn : B)
  | idle
  | checking (index : ℤ) (command : C)
  | ingesting (index : ℤ) (snapshot : B)
  | snapshotting (index : ℤ) (snapshot : B) (errMsg : String)
  | reporting (errMsg : String)
  | exited
  | astray

structure Rfsrv (C B : Type*) where
  phase : Phase C B
  lastApplied : ℤ
  log : LogMap C

/-- A server as `newRfsrv` makes it, with the snapshot that its persister holds. -/
def newRfsrv (sn : B) : Rfsrv C B where
  phase := .starting sn
  lastApplied := 0
  log _ := none

/-- `-1` stands for a snapshot that comes without an index. -/
def Rfsrv.ingestSnap [DecidableEq B] (rs : Rfsrv C B) (codec : Codec C B) (me : Fin n)
    (snapshot : B) (index : ℤ) : String × Rfsrv C B :=
  if snapshot = codec.nil then ("nil snapshot", rs)
  else match codec.decode snapshot with
    | none => ("failed to decode snapshot", rs)
    | some image =>
      if index ≠ -1 ∧ index ≠ image.lastIncludedIndex then
        (s!"server {me} snapshot doesn't match m.SnapshotIndex", rs)
      else ("", { rs with
        log := fun j => if j < 0 then none else image.xlog[j.toNat]?
        lastApplied := image.lastIncludedIndex })

/-- What the server encodes after the command at `index`. -/
def Rfsrv.image (rs : Rfsrv C B) (index : ℤ) : Image C :=
  ⟨index, (List.range (index + 1).toNat).map fun j : ℕ => (rs.log (j : ℤ)).join⟩

def snapShotInterval : ℤ := 10

end Server

structure System (n : ℕ) (C B : Type*) where
  cluster : Cluster n C
  servers : Fin n → Rfsrv C B
  test : Test n C

def makeTest [Inhabited C] (codec : Codec C B) : System n C B where
  cluster := RaftCluster.initial
  servers _ := newRfsrv codec.nil
  test := { srvs := fun _ => ⟨"", fun _ => none⟩, maxIndex := 0 }

/-- What can happen next: an event of the peers and the network, or the next move of the
goroutine of a server. -/
inductive Event (n : ℕ) (C : Type*) where
  | raft (e : RaftCluster.Event n C)
  | start (p : Fin n)
  | receive (p : Fin n)
  | checkLogs (p : Fin n)
  | ingestSnap (p : Fin n)
  | snapshot (p : Fin n)
  | report (p : Fin n)

def System.setServer (sys : System n C B) (p : Fin n) (rs : Rfsrv C B) : System n C B :=
  { sys with servers := Function.update sys.servers p rs }

/-- The bytes that server `p` hands to `Snapshot` are those of its newest commands. -/
def System.faithful [DecidableEq B] (sys : System n C B) (codec : Codec C B) (p : Fin n) : Bool :=
  match (sys.servers p).phase, (sys.cluster.procs p).delivered with
  | .snapshotting index data _, (i, commands) :: _ => i == index && codec.bytes i commands == data
  | _, _ => false

/-- Messages are taken and snapshots made by the goroutine of the server only. -/
def System.admits [DecidableEq B] (sys : System n C B) (codec : Codec C B) :
    RaftCluster.Event n C → Bool
  | .receive _ | .snapshot _ _ | .crashIn (.receive _) _ => false
  | .crashIn (.snapshot p k) _ => k == 0 && sys.faithful codec p
  | _ => true

/-- The process that an event restarts. -/
def restarted (s : Cluster n C) : RaftCluster.Event n C → Option (Fin n)
  | .crash p => some p
  | .crashIn e _ => s.actor e
  | _ => none

section Steps

variable [DecidableEq C] [DecidableEq B] [Inhabited C] [ToString C] (codec : Codec C B)
  (snapshot : Bool)

def System.start (sys : System n C B) (p : Fin n) : Option (System n C B) :=
  match (sys.servers p).phase with
  | .starting sn =>
    if snapshot ∧ sn ≠ codec.nil then
      let (err, rs) := (sys.servers p).ingestSnap codec p sn (-1)
      if err ≠ "" then
        some { sys.setServer p { rs with phase := .exited } with test := sys.test.recordErr p err }
      else some { sys.setServer p { rs with phase := .idle } with
        test := sys.test.ingestLog p rs.log }
    else some (sys.setServer p { sys.servers p with phase := .idle })
  | _ => none

/-- The server takes the next message; without snapshots it drops those that are no commands. -/
def System.receive (sys : System n C B) (p : Fin n) : Option (System n C B) :=
  match (sys.servers p).phase, (sys.cluster.procs p).applying with
  | .idle, msg :: _ => (sys.cluster.step? (.receive p)).map fun t =>
    let phase := match msg with
      | .command index command => .checking index command
      | .snapshot index _ data =>
        if snapshot then .ingesting index (codec.bytes index data) else .idle
    { sys.setServer p { sys.servers p with phase := phase } with cluster := t }
  | _, _ => none

def System.checkLogs (sys : System n C B) (p : Fin n) : Option (System n C B) :=
  match (sys.servers p).phase with
  | .checking index command =>
    let rs := sys.servers p
    let next := rs.lastApplied + 1
    if snapshot ∧ index ≠ next then
      let errMsg := s!"server {p} apply out of order, expected index {next}, got {index}"
      some (sys.setServer p (record rs index command errMsg))
    else
      let (errMsg, prevok, test) := sys.test.checkLogs p index command
      let errMsg := if 1 < index ∧ prevok = false then s!"server {p} apply out of order {index}"
        else errMsg
      let rs := if snapshot then record rs index command errMsg
        else { rs with phase := .reporting errMsg }
      some { sys.setServer p rs with test := test }
  | _ => none
where
  /-- The command goes to the server's own log, and to a snapshot at every tenth index. -/
  record (rs : Rfsrv C B) (index : ℤ) (command : C) (errMsg : String) : Rfsrv C B :=
    let rs := { rs with
      log := Function.update rs.log index (some (some command))
      lastApplied := index }
    { rs with phase :=
        if (index + 1) % snapShotInterval = 0 then
          .snapshotting index (codec.encode (rs.image index)) errMsg
        else .reporting errMsg }

def System.ingestSnap (sys : System n C B) (p : Fin n) : Option (System n C B) :=
  match (sys.servers p).phase with
  | .ingesting index data =>
    let (errMsg, rs) := (sys.servers p).ingestSnap codec p data index
    some { sys.setServer p { rs with phase := .reporting errMsg } with
      test := sys.test.ingestLog p rs.log }
  | _ => none

def System.makeSnapshot (sys : System n C B) (p : Fin n) : Option (System n C B) :=
  match (sys.servers p).phase with
  | .snapshotting _ _ errMsg =>
    if sys.faithful codec p then
      (sys.cluster.step? (.snapshot p 0)).map fun t =>
        { sys.setServer p { sys.servers p with phase := .reporting errMsg } with cluster := t }
    else some (sys.setServer p { sys.servers p with phase := .astray })
  | _ => none

def System.report (sys : System n C B) (p : Fin n) : Option (System n C B) :=
  match (sys.servers p).phase with
  | .reporting errMsg => some { sys.setServer p { sys.servers p with phase := .idle } with
      test := if errMsg ≠ "" then sys.test.recordErr p errMsg else sys.test }
  | _ => none

/-- One step of the tests; `none` when the event cannot happen. A process that restarts reads
the snapshot of its persister first. -/
def System.step? (sys : System n C B) : Event n C → Option (System n C B)
  | .raft e =>
    if sys.admits codec e then
      (sys.cluster.step? e).map fun t => match restarted sys.cluster e with
        | some p => { sys.setServer p (newRfsrv (codec.bytes (t.procs p).rf.lastIncludedIndex
            (t.procs p).rf.curSnapshot)) with cluster := t }
        | none => { sys with cluster := t }
    else none
  | .start p => sys.start codec snapshot p
  | .receive p => sys.receive codec snapshot p
  | .checkLogs p => sys.checkLogs codec snapshot p
  | .ingestSnap p => sys.ingestSnap codec p
  | .snapshot p => sys.makeSnapshot codec p
  | .report p => sys.report p

def Step (sys sys' : System n C B) : Prop := ∃ e, sys.step? codec snapshot e = some sys'

def Reached (sys : System n C B) : Prop := Reachable (· = makeTest codec) (Step codec snapshot) sys

end Steps

end DistributedLabs.RaftTester
