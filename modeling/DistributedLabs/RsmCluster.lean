import DistributedLabs.RaftCluster
import DistributedLabs.RsmServer

/-!
# Replicated state machines over a Raft cluster

Every server runs a Raft peer and the layer above it. The peers are those of the cluster
model, where a snapshot is the list of the commands that it stands for; the bytes which
`Snapshot` was given for that list are kept aside in `images`, and any of them may come
back where Raft hands the snapshot to the service. An event is one section under a lock,
one message taken from `applyCh`, one send or receive on a channel, or a crash.
-/

namespace DistributedLabs.RsmCluster

open RaftCluster Rsm TransitionRuns

variable {n : ℕ} {Req Rep St B : Type*}

/-- `started` lists the commands that `Start` has accepted anywhere, in order. -/
structure System (n : ℕ) (Req Rep St B : Type*) where
  raft : Cluster n (Command Req)
  servers : Fin n → Server Req Rep St B
  images : List (List (Command Req) × List B)
  started : List (Command Req)

/-- What can happen next. The last argument of `take`, `crash` and `crashIn` says which
of the recorded images a snapshot is read back as; `full` is whether the saved Raft
state has outgrown its limit. -/
inductive Event (n : ℕ) (Req : Type*) where
  | raft (e : RaftCluster.Event n (Command Req))
  | start (p : Fin n) (x : ℕ)
  | submit (p : Fin n) (id : ℤ) (req : Req)
  | take (p : Fin n) (k : ℕ)
  | handle (p : Fin n) (full : Bool)
  | send (p : Fin n)
  | receive (p : Fin n) (i : ℕ)
  | tick (p : Fin n) (i : ℕ)
  | check (p : Fin n) (i : ℕ)
  | crash (p : Fin n) (k : ℕ)
  | crashIn (e : RaftCluster.Event n (Command Req)) (j k : ℕ)

/-- The events of Raft that do not involve the service above it. -/
def internal {C : Type*} : RaftCluster.Event n C → Bool
  | .ticker _ | .appendEntriesRoutine _ | .deliver _ | .callFails _ _ | .lose _ | .apply _ => true
  | _ => false

def System.setServer (s : System n Req Rep St B) (p : Fin n) (srv : Server Req Rep St B) :
    System n Req Rep St B :=
  { s with servers := Function.update s.servers p srv }

/-- `Start` of peer `p`: the cluster after it, and whether the command was accepted. -/
def System.start (s : System n Req Rep St B) (p : Fin n) (command : Command Req) :
    Option (System n Req Rep St B) :=
  (s.raft.step? (.start p command)).map fun raft =>
    { s with
      raft := raft
      started := if (RaftPeer.start (s.raft.procs p).rf command).2.2.2 then
          s.started ++ [command]
        else s.started }

/-- `GetState`: the current term, and whether the peer takes itself for the leader. -/
def getState (rf : RaftPeer.Raft n (Command Req)) : ℤ × Bool :=
  (rf.currentTerm, rf.currentRole = .leader)

variable [DecidableEq Req]

/-- The bytes that were handed to `Snapshot` for the given commands. Where no snapshot was
taken yet there are none. -/
def System.image (s : System n Req Rep St B) (commands : List (Command Req)) (k : ℕ) :
    Option (List B) :=
  if commands = [] then some []
  else s.images[k]?.bind fun img => if img.1 = commands then some img.2 else none

def System.message (s : System n Req Rep St B) (k : ℕ) :
    RaftPeer.ApplyMsg (Command Req) → Option (Msg Req B)
  | .command index command => some (.command index command)
  | .snapshot index _ commands => (s.image commands k).map (.snapshot index)

def System.take (s : System n Req Rep St B) (p : Fin n) (k : ℕ) :
    Option (System n Req Rep St B) :=
  let srv := s.servers p
  if srv.inbox.isSome || srv.sending.isSome then none
  else (s.raft.procs p).applying.head?.bind fun msg =>
    (s.message k msg).bind fun msg =>
      (s.raft.step? (.receive p)).map fun raft =>
        { s.setServer p { srv with inbox := some msg } with raft := raft }

/-- `rf.Snapshot(index, data)`, for an index that was delivered. -/
def System.snapshot (s : System n Req Rep St B) (p : Fin n) (index : ℤ) (data : List B) :
    Option (System n Req Rep St B) :=
  ((s.raft.procs p).delivered.findIdx? fun d => d.1 = index).bind fun k =>
    (s.raft.procs p).delivered[k]?.bind fun d =>
      (s.raft.step? (.snapshot p k)).map fun raft =>
        { s with raft := raft, images := (d.2, data) :: s.images }

variable (m : StateMachine Req Rep St B)

def System.handle (s : System n Req Rep St B) (p : Fin n) (full : Bool) :
    Option (System n Req Rep St B) :=
  let srv := s.servers p
  srv.inbox.bind fun msg =>
    let turn := srv.rsm.reader m (s.raft.procs p).rf.lastIncludedIndex full msg
    let s := s.setServer p { srv with
      rsm := turn.rsm, inbox := none, sending := turn.send, trace := msg.mark :: srv.trace }
    match turn.snapshot with
    | none => some s
    | some call => s.snapshot p call.1 call.2

/-- The process of `p` starts anew on the disk that the cluster `raft` has for it. -/
def System.restart (s : System n Req Rep St B) (raft : Cluster n (Command Req)) (p : Fin n)
    (k : ℕ) : Option (System n Req Rep St B) :=
  (s.image (raft.procs p).rf.curSnapshot k).map fun data =>
    { s.setServer p (Server.boot m data) with raft := raft }

def System.step? (s : System n Req Rep St B) : Event n Req → Option (System n Req Rep St B)
  | .raft e => if internal e then (s.raft.step? e).map fun raft => { s with raft := raft } else none
  | .start p x => s.start p (.other x)
  | .submit p id req =>
    let op : Op Req := ⟨p, id, req⟩
    let ret := (RaftPeer.start (s.raft.procs p).rf (.op op)).2
    (s.start p (.op op)).map fun t =>
      t.setServer p ((s.servers p).submit op ret.1 ret.2.1 ret.2.2)
  | .take p k => s.take p k
  | .handle p full => s.handle m p full
  | .send p => (s.servers p).send.map (s.setServer p)
  | .receive p i => ((s.servers p).receive i).map (s.setServer p)
  | .tick p i => ((s.servers p).tick i).map (s.setServer p)
  | .check p i =>
    let state := getState (s.raft.procs p).rf
    ((s.servers p).check i state.1 state.2).map (s.setServer p)
  | .crash p k => (s.raft.step? (.crash p)).bind fun raft => s.restart m raft p k
  | .crashIn e j k =>
    if internal e then
      (s.raft.actor e).bind fun p =>
        (s.raft.step? (.crashIn e j)).bind fun raft => s.restart m raft p k
    else none

def System.restarted (s : System n Req Rep St B) : Event n Req → Option (Fin n)
  | .crash p _ => some p
  | .crashIn e _ _ => s.raft.actor e
  | _ => none

def initial : System n Req Rep St B where
  raft := RaftCluster.initial
  servers _ := Server.boot m []
  images := []
  started := []

def Step (ok : System n Req Rep St B → Event n Req → Prop) (s t : System n Req Rep St B) : Prop :=
  ∃ e, ok s e ∧ s.step? m e = some t

def anyEvent (_ : System n Req Rep St B) (_ : Event n Req) : Prop := True

def Reached (ok : System n Req Rep St B → Event n Req → Prop) (s : System n Req Rep St B) : Prop :=
  Reachable (· = initial m) (Step m ok) s

instance (s : System n Req Rep St B) (e : Event n Req) : Decidable (anyEvent s e) := .isTrue trivial

section Runs

variable (ok : System n Req Rep St B → Event n Req → Prop) [∀ s e, Decidable (ok s e)]

def System.run (s : System n Req Rep St B) (es : List (Event n Req)) :
    Option (System n Req Rep St B) :=
  exec (fun s e => if ok s e then s.step? m e else none) s es

variable {m ok} {s : System n Req Rep St B}

/-- A run that ends as a test says. -/
theorem System.exists_of_run {es : List (Event n Req)} {test : System n Req Rep St B → Bool}
    (h : (s.run m ok es).any test = true) :
    ∃ t, Relation.ReflTransGen (Step m ok) s t ∧ test t = true := by
  refine exists_of_exec (fun s e t he => ?_) h
  split_ifs at he with hok
  exact ⟨e, hok, he⟩

end Runs

end DistributedLabs.RsmCluster
