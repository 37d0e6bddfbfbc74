import DistributedLabs.KvServer
import DistributedLabs.Linearizability

/-!
# Clerks of the key/value service

A clerk makes one call at a time and repeats it at the next server until it has an answer.
A remote call begins to execute at a server only while its clerk still waits for it; it may
go on executing after the clerk has given it up. What the clerks see is recorded with the
times of calls and returns, to be compared with the sequential model of the store.
-/

namespace DistributedLabs.KvClerks

open KvServer Rsm RsmCluster Linearizability TransitionRuns

section Model

inductive KvOp where
  | get
  | put
  deriving DecidableEq, Repr

structure KvInput where
  op : KvOp
  key : String
  value : String
  version : UInt64
  deriving DecidableEq, Repr

structure KvOutput where
  value : String
  version : UInt64
  err : Err
  deriving DecidableEq, Repr

structure KvState where
  value : String
  version : UInt64
  deriving DecidableEq, Repr

/-- `KvModel.Step`: whether the output is right, and the next state. -/
def KvState.step (st : KvState) (inp : KvInput) (out : KvOutput) : Bool × KvState :=
  match inp.op with
  | .get => (out.value = st.value, st)
  | .put =>
    if st.version = inp.version then
      (out.err = .ok || out.err = .errMaybe, ⟨inp.value, st.version + 1⟩)
    else (out.err = .errVersion || out.err = .errMaybe, st)

/-- `KvModel` for all keys together, where the model itself is checked key by key. -/
def kvStep (st : String → KvState) (inp : KvInput) (out : KvOutput) : Bool × (String → KvState) :=
  let result := (st inp.key).step inp out
  (result.1, Function.update st inp.key result.2)

def kvInit : String → KvState := fun _ => ⟨"", 0⟩

end Model

/-- Where a remote call stands: on its way, executing as a `Submit` of a server, answered
with the answer on its way, or cut off by a crash of the server. -/
inductive Rpc (n : ℕ) where
  | sent
  | running (p : Fin n) (channel : ℕ)
  | replied (reply : Reply)
  | lost
  deriving DecidableEq, Repr

/-- The call that a clerk is in; `number` is its position in the history. -/
structure Pending (n : ℕ) where
  number : ℕ
  input : KvInput
  isRetry : Bool
  rpc : Rpc n
  deriving DecidableEq, Repr

structure Clerk (n : ℕ) where
  leader : ℕ
  pending : Option (Pending n)
  deriving DecidableEq, Repr

def request (clerkId : Int64) (inp : KvInput) : Request :=
  match inp.op with
  | .get => .get ⟨inp.key⟩
  | .put => .put ⟨inp.key, inp.value, inp.version, clerkId⟩

/-- The end of the handler `KVServer.Get`. -/
def getHandler : Result Reply → GetReply
  | .errWrongLeader => ⟨"", 0, .errWrongLeader⟩
  | .ok (.get resp) => resp
  | .ok _ => ⟨"", 0, .errWrongLeader⟩

/-- The end of the handler `KVServer.Put`. -/
def putHandler : Result Reply → PutReply
  | .errWrongLeader => ⟨.errWrongLeader⟩
  | .ok (.put resp) => resp
  | .ok _ => ⟨.errWrongLeader⟩

def handler (inp : KvInput) (result : Result Reply) : Reply :=
  match inp.op with
  | .get => .get (getHandler result)
  | .put => .put (putHandler result)

/-- One turn of the loop of `Clerk.Get`: what it returns, or `none` to go on. A failed call
leaves the reply zero. -/
def getTurn : Option Reply → Option KvOutput
  | some (.get reply) =>
    if reply.err = .errNoKey then some ⟨"", 0, .errNoKey⟩
    else if reply.err = .ok then some ⟨reply.value, reply.version, reply.err⟩
    else none
  | _ => none

/-- One turn of the loop of `Clerk.Put`. -/
def putTurn (isRetry : Bool) : Option Reply → Option KvOutput
  | some (.put reply) =>
    if isRetry = false ∧ reply.err = .errVersion then some ⟨"", 0, .errVersion⟩
    else if isRetry = true ∧ reply.err = .errVersion then some ⟨"", 0, .errMaybe⟩
    else if reply.err = .ok then some ⟨"", 0, reply.err⟩
    else none
  | _ => none

def turn (inp : KvInput) (isRetry : Bool) (reply : Option Reply) : Option KvOutput :=
  match inp.op with
  | .get => getTurn reply
  | .put => putTurn isRetry reply

structure Setup (n c : ℕ) (B : Type*) where
  codec : Codec B
  servers : List (Fin n)
  clerkId : Fin c → Int64

structure Setup.Lawful {n c : ℕ} {B : Type*} (cfg : Setup n c B) : Prop where
  codec : cfg.codec.Lawful
  clerkId : Function.Injective cfg.clerkId

/-- The servers, the clerks, and what they have seen. `origin` says for which call the
operation with a given id was made. -/
structure Service (n c : ℕ) (B : Type*) where
  sys : KvSystem n B
  clerks : Fin c → Clerk n
  history : List (Operation (Fin c) KvInput KvOutput)
  clock : ℕ
  origin : ℤ → Option ℕ

inductive Event (n c : ℕ) where
  | sys (e : RsmCluster.Event n Request)
  | invoke (k : Fin c) (input : KvInput)
  | begin (k : Fin c) (id : ℤ)
  | answer (k : Fin c)
  | reply (k : Fin c)
  | fail (k : Fin c)

variable {n c : ℕ} {B : Type*}

/-- A handler dies with its process. -/
def Rpc.restart (restarted : Option (Fin n)) : Rpc n → Rpc n
  | .running p channel => if restarted = some p then .lost else .running p channel
  | rpc => rpc

def Clerk.restart (ck : Clerk n) (restarted : Option (Fin n)) : Clerk n :=
  { ck with pending := ck.pending.map fun pend => { pend with rpc := pend.rpc.restart restarted } }

def Service.setClerk (s : Service n c B) (k : Fin c) (ck : Clerk n) : Service n c B :=
  { s with clerks := Function.update s.clerks k ck }

def Service.invoke (s : Service n c B) (k : Fin c) (input : KvInput) : Service n c B :=
  { s.setClerk k { s.clerks k with pending := some ⟨s.history.length, input, false, .sent⟩ } with
    history := s.history ++ [⟨k, input, s.clock, none⟩]
    clock := s.clock + 1 }

/-- The remote call of a clerk begins to execute at server `p`, which leaves the servers as
`sys`, with an operation that has the given id. -/
def Service.begin (s : Service n c B) (k : Fin c) (pend : Pending n) (id : ℤ) (p : Fin n)
    (sys : KvSystem n B) : Service n c B :=
  { s.setClerk k { s.clerks k with
      pending := some { pend with rpc := .running p (s.sys.servers p).submits.length } } with
    sys := sys
    origin := Function.update s.origin id (some pend.number) }

def Service.return (s : Service n c B) (k : Fin c) (pend : Pending n) (output : KvOutput) :
    Service n c B :=
  { s.setClerk k { s.clerks k with pending := none } with
    history := s.history.modify pend.number fun op => { op with result := some (output, s.clock) }
    clock := s.clock + 1 }

variable (cfg : Setup n c B)

def Service.resume (s : Service n c B) (k : Fin c) (pend : Pending n) (reply : Option Reply) :
    Service n c B :=
  match turn pend.input pend.isRetry reply with
  | some output => s.return k pend output
  | none =>
    s.setClerk k {
      leader := ((s.clerks k).leader + 1) % cfg.servers.length
      pending := some { pend with isRetry := true, rpc := .sent } }

def Service.stepServers (s : Service n c B) (e : RsmCluster.Event n Request) :
    Option (Service n c B) :=
  (s.sys.step? (machine cfg.codec) e).map fun sys =>
    { s with sys := sys, clerks := fun k => (s.clerks k).restart (s.sys.restarted e) }

def Service.step? (s : Service n c B) : Event n c → Option (Service n c B)
  | .sys (.submit _ _ _) => none
  | .sys e => s.stepServers cfg e
  | .invoke k input =>
    match (s.clerks k).pending with
    | some _ => none
    | none => some (s.invoke k input)
  | .begin k id =>
    (s.clerks k).pending.bind fun pend =>
      match pend.rpc with
      | .sent =>
        cfg.servers[(s.clerks k).leader]?.bind fun p =>
          (s.sys.step? (machine cfg.codec) (.submit p id (request (cfg.clerkId k) pend.input))).map
            fun sys => s.begin k pend id p sys
      | _ => none
  | .answer k =>
    (s.clerks k).pending.bind fun pend =>
      match pend.rpc with
      | .running p channel =>
        (s.sys.servers p).submits[channel]?.bind fun sub =>
          match sub.stage with
          | .returned result =>
            some (s.setClerk k { s.clerks k with
              pending := some { pend with rpc := .replied (handler pend.input result) } })
          | _ => none
      | _ => none
  | .reply k =>
    (s.clerks k).pending.bind fun pend =>
      match pend.rpc with
      | .replied reply => some (s.resume cfg k pend (some reply))
      | _ => none
  | .fail k => (s.clerks k).pending.map fun pend => s.resume cfg k pend none

def Step (ok : Service n c B → Event n c → Prop) (s t : Service n c B) : Prop :=
  ∃ e, ok s e ∧ s.step? cfg e = some t

def initial : Service n c B where
  sys := RsmCluster.initial (machine cfg.codec)
  clerks _ := ⟨0, none⟩
  history := []
  clock := 0
  origin _ := none

def Reached (ok : Service n c B → Event n c → Prop) (s : Service n c B) : Prop :=
  Reachable (· = initial cfg) (Step cfg ok) s

def DistinctOpIds (s : Service n c B) : Event n c → Prop
  | .begin _ id => s.origin id = none
  | _ => True

def StoredPut (k : Fin c) (key : String) (op : Operation (Fin c) KvInput KvOutput) : Prop :=
  op.client = k ∧ op.input.op = .put ∧ op.input.key = key ∧ ∃ r ∈ op.result, r.1.err = .ok

instance (k : Fin c) (key : String) (op : Operation (Fin c) KvInput KvOutput) :
    Decidable (StoredPut k key op) :=
  inferInstanceAs (Decidable (_ ∧ _ ∧ _ ∧ _))

/-- The last `Put` of a key that has returned `OK` to a clerk. -/
def lastStoredPut (h : List (Operation (Fin c) KvInput KvOutput)) (k : Fin c) (key : String) :
    Option (Operation (Fin c) KvInput KvOutput) :=
  h.reverse.find? fun op => StoredPut k key op

/-- No clerk puts a key with the version of its own last `Put` of the key that returned `OK`. -/
def FreshVersion (s : Service n c B) : Event n c → Prop
  | .invoke k input => input.op = .put →
    ∀ op ∈ lastStoredPut s.history k input.key, op.input.version ≠ input.version
  | _ => True

instance (s : Service n c B) : (e : Event n c) → Decidable (DistinctOpIds s e)
  | .begin _ id => inferInstanceAs (Decidable (s.origin id = none))
  | .sys _ | .invoke _ _ | .answer _ | .reply _ | .fail _ => .isTrue trivial

instance (s : Service n c B) : (e : Event n c) → Decidable (FreshVersion s e)
  | .invoke k input => inferInstanceAs (Decidable (input.op = .put →
      ∀ op ∈ lastStoredPut s.history k input.key, op.input.version ≠ input.version))
  | .sys _ | .begin _ _ | .answer _ | .reply _ | .fail _ => .isTrue trivial

section Runs

variable (ok : Service n c B → Event n c → Prop) [∀ s e, Decidable (ok s e)]

def Service.run (s : Service n c B) (es : List (Event n c)) : Option (Service n c B) :=
  exec (fun s e => if ok s e then s.step? cfg e else none) s es

variable {cfg ok} {s : Service n c B}

/-- A run that ends as a test says. -/
theorem Service.exists_of_run {es : List (Event n c)} {test : Service n c B → Bool}
    (h : (s.run cfg ok es).any test = true) :
    ∃ t, Relation.ReflTransGen (Step cfg ok) s t ∧ test t = true := by
  refine exists_of_exec (fun s e t he => ?_) h
  split_ifs at he with hok
  exact ⟨e, hok, he⟩

end Runs

end DistributedLabs.KvClerks
