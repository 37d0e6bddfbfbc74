import DistributedLabs.DemuxAnswers
import DistributedLabs.DemuxTransport

/-!
# Calls to a process over sockets

The `sockrpc` package. Any number of clients have a connection to one server. A connection is a pipe
of bytes in each direction. At the client end is a `DemuxClnt`, whose state is the one of the
multiplexed calls with the pipes in place of its lists of requests and replies. At the server end is
a `DemuxSrv`: its reader takes requests off the pipe and starts a goroutine for each, which runs
`ServeRequest` and writes the reply. The service behind `Dispatch` is shared by all connections.

A connection can go down at any time and in the middle of a message. The process of the server ends
where it calls `log.Fatalf`.
-/

namespace DistributedLabs.SockRpc

open Relation TransitionRuns FramedPipes Demux

structure RPCArgs where
  method : String
  args : Bytes
  deriving DecidableEq, Repr

/-- The encodings, the service that handles what is dispatched, and the names of the clients. For
`none` in place of a reply `Dispatch` ends the process. The first message of a client and the
replies of the service are not too long for the transport. -/
structure Setup (K σ : Type*) where
  msgs : Codec Msg
  inits : Codec String
  requests : Codec RPCArgs
  sock : String
  dispatch : σ → (srv svcMeth clnt : String) → Bytes → Option ((Bytes × Bool) × σ)
  start : σ
  names : K → String
  init_fits : ∀ k, Fits msgs ⟨0, inits.marshall (names k), true⟩
  reply_fits : ∀ {s srv svcMeth clnt b rep ok s'},
    dispatch s srv svcMeth clnt b = some ((rep, ok), s') → ∀ tag, Fits msgs ⟨tag, rep, ok⟩

inductive Fatal where
  | newDemuxSrv
  | unmarshall
  | dispatch
  deriving DecidableEq, Repr

variable {K σ : Type*}

def Setup.serveRequest (setup : Setup K σ) (state : σ) (clntEnd : String) (b : Bytes) :
    Except Fatal ((Bytes × Bool) × σ) :=
  match setup.requests.unmarshall b with
  | none => .error .unmarshall
  | some req => match setup.dispatch state setup.sock req.method clntEnd req.args with
    | none => .error .dispatch
    | some result => .ok result

theorem serveRequest_error {setup : Setup K σ} {state : σ} {clntEnd : String} {b : Bytes}
    (h : setup.serveRequest state clntEnd b = .error .unmarshall) :
    setup.requests.unmarshall b = none := by
  cases hreq : setup.requests.unmarshall b with
  | none => rfl
  | some req =>
    simp only [Setup.serveRequest, hreq] at h
    split at h <;> cases h

theorem serveRequest_ok {setup : Setup K σ} {state : σ} {clntEnd : String} {b : Bytes}
    {result : (Bytes × Bool) × σ} (h : setup.serveRequest state clntEnd b = .ok result) :
    ∃ req, setup.requests.unmarshall b = some req ∧
      setup.dispatch state setup.sock req.method clntEnd req.args = some result := by
  cases hreq : setup.requests.unmarshall b with
  | none =>
    simp only [Setup.serveRequest, hreq] at h
    cases h
  | some req =>
    simp only [Setup.serveRequest, hreq] at h
    split at h
    · cases h
    · next hdispatch => exact ⟨req, rfl, Except.ok.inj h ▸ hdispatch⟩

/-- A goroutine for a request, with the reply of `ServeRequest` once it has returned. -/
structure Goroutine where
  tag : Ttag
  req : Bytes
  reply : Option (Bytes × Bool)
  deriving DecidableEq, Repr

/-- Where the server's end of a connection is: in `NewDemuxSrv`, in the loop of `reader`, or past
it. -/
inductive SrvReader where
  | accepting
  | reading
  | stopped
  deriving DecidableEq, Repr

structure DemuxSrv where
  clntEnd : String
  closed : Bool
  reader : SrvReader
  serving : List Goroutine

/-- A connection with its two ends. The process of the client has exited if `Unmarshall` has ended
it. -/
structure Conn where
  clnt : Demux.State
  exited : Bool
  up : Pipe UInt8
  down : Pipe UInt8
  srv : DemuxSrv

/-- The message with which `NewDemuxClnt` names the client. -/
def Setup.initMsg (setup : Setup K σ) (k : K) : Msg :=
  ⟨0, setup.inits.marshall (setup.names k), true⟩

/-- A connection for which `NewDemuxClnt` has returned. -/
def Setup.newConn (setup : Setup K σ) (k : K) : Conn where
  clnt := newDemuxClnt
  exited := false
  up := Pipe.empty.write (frame setup.msgs (setup.initMsg k))
    (frame setup.msgs (setup.initMsg k)).length
  down := Pipe.empty
  srv := ⟨"", false, .accepting, []⟩

structure Execution (K : Type*) where
  conn : K
  tag : Ttag
  clntEnd : String
  req : Bytes
  rep : Bytes
  ok : Bool

/-- The connections and the process of the server, with a record of what it has executed, latest
first. -/
structure System (K σ : Type*) where
  conns : K → Conn
  state : σ
  executions : List (Execution K)
  fatal : Option Fatal

def Setup.initial (setup : Setup K σ) : System K σ where
  conns := setup.newConn
  state := setup.start
  executions := []
  fatal := none

/-- The steps of a client that do not concern the connection. -/
def ownStep : Demux.Event → Bool
  | .put _ | .wrote _ | .readFails | .closeReader | .outstanding _ | .drain | .remove | .send
  | .closeMap => true
  | _ => false

inductive Event where
  -- `RPC` calls `SendReceive`
  | rpc (req : RPCArgs)
  | clnt (e : Demux.Event)
  -- the bytes of a request that get through
  | write (c k : ℕ)
  | read
  | close
  | arriveUp (k : ℕ)
  | arriveDown (k : ℕ)
  -- the connection goes down
  | cut
  -- `NewDemuxSrv` reads the name of the client
  | accept
  | acceptFails
  -- the reader of the server reads a request and starts a goroutine
  | request
  -- it comes to the end of the stream
  | requestEnds
  -- another error of `ReadCall`
  | requestFails
  | serve (i : ℕ)
  | respond (i k : ℕ)
  | closeSrv

def Event.Small (setup : Setup K σ) : Event → Prop
  | .rpc req => ∀ tag, Fits setup.msgs ⟨tag, setup.requests.marshall req, true⟩
  | _ => True

def Conn.shut (conn : Conn) : Conn := { conn with up := conn.up.shut, down := conn.down.shut }

/-- What happens at the end of the client and on the pipes. -/
def Conn.step? (setup : Setup K σ) (conn : Conn) : Event → Option Conn
  | .rpc req => (conn.clnt.step? (.sendReceive (setup.requests.marshall req))).map
      fun clnt => { conn with clnt := clnt }
  | .clnt e =>
    if ownStep e then (conn.clnt.step? e).map fun clnt => { conn with clnt := clnt } else none
  | .write c k => (conn.clnt.step? (.write c false)).map fun clnt => { conn with
      clnt := clnt
      up := conn.up.write
        (frame setup.msgs ⟨(conn.clnt.calls c).tag, (conn.clnt.calls c).req, true⟩) k }
  | .read =>
    if conn.clnt.reader = .reading then
      match readCall setup.msgs conn.down.here with
      | .message m rest => some { conn with
          clnt := { conn.clnt with reader := .replying m.tag m.reply none }
          down := { conn.down with here := rest } }
      | .fatal => some { conn with exited := true }
      | .short _ => none
    else none
  | .close =>
    if conn.clnt.callmap.isClosed then some conn
    else (conn.clnt.step? .close).map fun clnt => { conn.shut with clnt := clnt }
  | .arriveUp k => some { conn with up := conn.up.arrive k }
  | .arriveDown k => some { conn with down := conn.down.arrive k }
  | .cut => some conn.shut
  | _ => none

section Step

variable [DecidableEq K]

def System.setConn (sys : System K σ) (k : K) (conn : Conn) : System K σ :=
  { sys with conns := Function.update sys.conns k conn }

def System.setSrv (sys : System K σ) (k : K) (srv : DemuxSrv) : System K σ :=
  sys.setConn k { sys.conns k with srv := srv }

/-- `ReadCall` at the server has returned a message. -/
def System.take (sys : System K σ) (k : K) (rest : Bytes) (srv : DemuxSrv) : System K σ :=
  sys.setConn k { sys.conns k with up := { (sys.conns k).up with here := rest }, srv := srv }

/-- What happens at the end of the server. -/
def System.serverStep? (setup : Setup K σ) (sys : System K σ) (k : K) : Event → Option (System K σ)
  | .accept =>
    if (sys.conns k).srv.reader = .accepting then
      match readCall setup.msgs (sys.conns k).up.here with
      | .message m rest => match setup.inits.unmarshall m.data with
        | some clnt => some (sys.take k rest
            { (sys.conns k).srv with clntEnd := clnt, reader := .reading })
        | none => some { sys with fatal := some .unmarshall }
      | .fatal => some { sys with fatal := some .unmarshall }
      | .short _ => none
    else none
  | .acceptFails =>
    if (sys.conns k).srv.reader = .accepting then some { sys with fatal := some .newDemuxSrv }
    else none
  | .request =>
    if (sys.conns k).srv.reader = .reading then
      match readCall setup.msgs (sys.conns k).up.here with
      | .message m rest => some (sys.take k rest { (sys.conns k).srv with
          serving := ⟨m.tag, m.data, none⟩ :: (sys.conns k).srv.serving })
      | .fatal => some { sys with fatal := some .unmarshall }
      | .short _ => none
    else none
  | .requestEnds =>
    if (sys.conns k).srv.reader = .reading ∧ (sys.conns k).up.broken = true ∧
        (sys.conns k).up.flight = [] then
      match readCall setup.msgs (sys.conns k).up.here with
      | .short err => some (sys.setSrv k { (sys.conns k).srv with
          closed := (sys.conns k).srv.closed || err == .eof
          reader := .stopped })
      | _ => none
    else none
  | .requestFails =>
    if (sys.conns k).srv.reader = .reading then
      some (sys.setSrv k { (sys.conns k).srv with reader := .stopped })
    else none
  | .serve i => (sys.conns k).srv.serving[i]?.bind fun g =>
    if g.reply = none then
      match setup.serveRequest sys.state (sys.conns k).srv.clntEnd g.req with
      | .error fatal => some { sys with fatal := some fatal }
      | .ok ((rep, ok), state) => some { sys.setSrv k { (sys.conns k).srv with
            serving := (sys.conns k).srv.serving.set i { g with reply := some (rep, ok) } } with
          state := state
          executions := ⟨k, g.tag, (sys.conns k).srv.clntEnd, g.req, rep, ok⟩ :: sys.executions }
    else none
  | .respond i n => (sys.conns k).srv.serving[i]?.bind fun g => g.reply.map fun r =>
      sys.setConn k { sys.conns k with
        down := (sys.conns k).down.write (frame setup.msgs ⟨g.tag, r.1, r.2⟩) n
        srv := { (sys.conns k).srv with serving := (sys.conns k).srv.serving.eraseIdx i } }
  | .closeSrv =>
    if (sys.conns k).srv.closed then some sys
    else some (sys.setConn k { (sys.conns k).shut with
      srv := { (sys.conns k).srv with closed := true } })
  | _ => none

/-- A client moves as long as its process lives, the server as long as its own does. -/
def System.step? (setup : Setup K σ) (sys : System K σ) (k : K) (e : Event) : Option (System K σ) :=
  match e with
  | .arriveUp _ | .arriveDown _ | .cut =>
    ((sys.conns k).step? setup e).map (sys.setConn k)
  | .rpc _ | .clnt _ | .write _ _ | .read | .close =>
    if (sys.conns k).exited then none else ((sys.conns k).step? setup e).map (sys.setConn k)
  | _ => if sys.fatal = none then sys.serverStep? setup k e else none

def Step (setup : Setup K σ) (sys sys' : System K σ) : Prop :=
  ∃ k e, Event.Small setup e ∧ sys.step? setup k e = some sys'

def Reached (setup : Setup K σ) (sys : System K σ) : Prop :=
  Reachable (· = setup.initial) (Step setup) sys

inductive Action (setup : Setup K σ) (sys : System K σ) (k : K) : System K σ → Prop
  | rpc {req : RPCArgs} {clnt : Demux.State}
    (hsmall : ∀ tag, Fits setup.msgs ⟨tag, setup.requests.marshall req, true⟩)
    (hclnt : (sys.conns k).clnt.step? (.sendReceive (setup.requests.marshall req)) = some clnt) :
    Action setup sys k (sys.setConn k { sys.conns k with clnt := clnt })
  | clnt {e : Demux.Event} {clnt : Demux.State} (hown : ownStep e = true)
    (hclnt : (sys.conns k).clnt.step? e = some clnt) :
    Action setup sys k (sys.setConn k { sys.conns k with clnt := clnt })
  | write {c : ℕ} {clnt : Demux.State} (n : ℕ)
    (hclnt : (sys.conns k).clnt.step? (.write c false) = some clnt) :
    Action setup sys k (sys.setConn k { sys.conns k with
      clnt := clnt
      up := (sys.conns k).up.write (frame setup.msgs
        ⟨((sys.conns k).clnt.calls c).tag, ((sys.conns k).clnt.calls c).req, true⟩) n })
  | read {m : Msg} {rest : Bytes} (hreader : (sys.conns k).clnt.reader = .reading)
    (hread : readCall setup.msgs (sys.conns k).down.here = .message m rest) :
    Action setup sys k (sys.setConn k { sys.conns k with
      clnt := { (sys.conns k).clnt with reader := .replying m.tag m.reply none }
      down := { (sys.conns k).down with here := rest } })
  | exit (hread : readCall setup.msgs (sys.conns k).down.here = .fatal) :
    Action setup sys k (sys.setConn k { sys.conns k with exited := true })
  | close {clnt : Demux.State} (hclnt : (sys.conns k).clnt.step? .close = some clnt) :
    Action setup sys k (sys.setConn k { (sys.conns k).shut with clnt := clnt })
  | arriveUp (n : ℕ) :
    Action setup sys k (sys.setConn k { sys.conns k with up := (sys.conns k).up.arrive n })
  | arriveDown (n : ℕ) :
    Action setup sys k (sys.setConn k { sys.conns k with down := (sys.conns k).down.arrive n })
  | cut : Action setup sys k (sys.setConn k (sys.conns k).shut)
  | accept {m : Msg} {rest : Bytes} {name : String}
    (hreader : (sys.conns k).srv.reader = .accepting)
    (hread : readCall setup.msgs (sys.conns k).up.here = .message m rest)
    (hname : setup.inits.unmarshall m.data = some name) :
    Action setup sys k (sys.take k rest
      { (sys.conns k).srv with clntEnd := name, reader := .reading })
  | request {m : Msg} {rest : Bytes} (hreader : (sys.conns k).srv.reader = .reading)
    (hread : readCall setup.msgs (sys.conns k).up.here = .message m rest) :
    Action setup sys k (sys.take k rest { (sys.conns k).srv with
      serving := ⟨m.tag, m.data, none⟩ :: (sys.conns k).srv.serving })
  | stop (closed : Bool) (hreader : (sys.conns k).srv.reader = .reading) :
    Action setup sys k
      (sys.setSrv k { (sys.conns k).srv with closed := closed, reader := .stopped })
  | serve {i : ℕ} {g : Goroutine} {rep : Bytes} {ok : Bool} {state : σ}
    (hg : (sys.conns k).srv.serving[i]? = some g) (hreply : g.reply = none)
    (hserve : setup.serveRequest sys.state (sys.conns k).srv.clntEnd g.req =
      .ok ((rep, ok), state)) :
    Action setup sys k { sys.setSrv k { (sys.conns k).srv with
          serving := (sys.conns k).srv.serving.set i { g with reply := some (rep, ok) } } with
        state := state
        executions := ⟨k, g.tag, (sys.conns k).srv.clntEnd, g.req, rep, ok⟩ :: sys.executions }
  | respond {i : ℕ} {g : Goroutine} {r : Bytes × Bool} (n : ℕ)
    (hg : (sys.conns k).srv.serving[i]? = some g) (hreply : g.reply = some r) :
    Action setup sys k (sys.setConn k { sys.conns k with
      down := (sys.conns k).down.write (frame setup.msgs ⟨g.tag, r.1, r.2⟩) n
      srv := { (sys.conns k).srv with serving := (sys.conns k).srv.serving.eraseIdx i } })
  | closeSrv : Action setup sys k (sys.setConn k { (sys.conns k).shut with
      srv := { (sys.conns k).srv with closed := true } })
  | idle : Action setup sys k sys
  -- the process of the server ends
  | fatal {f : Fatal} (hf : f = .unmarshall →
      (sys.conns k).srv.reader = .accepting ∧
        (∃ m rest, readCall setup.msgs (sys.conns k).up.here = .message m rest ∧
          setup.inits.unmarshall m.data = none) ∨
      readCall setup.msgs (sys.conns k).up.here = .fatal ∨
      ∃ g ∈ (sys.conns k).srv.serving, g.reply = none ∧ setup.requests.unmarshall g.req = none) :
    Action setup sys k { sys with fatal := some f }

variable {setup : Setup K σ} {sys sys' : System K σ} {k : K}

theorem action_of_connStep {e : Event} {conn : Conn} (hsmall : e.Small setup)
    (h : (sys.conns k).step? setup e = some conn) : Action setup sys k (sys.setConn k conn) := by
  cases e with
  | rpc req =>
    obtain ⟨clnt, hclnt, rfl⟩ := Option.map_eq_some_iff.mp h
    exact .rpc hsmall hclnt
  | clnt e =>
    simp only [Conn.step?] at h
    split_ifs at h with hown
    obtain ⟨clnt, hclnt, rfl⟩ := Option.map_eq_some_iff.mp h
    exact .clnt hown hclnt
  | write c n =>
    obtain ⟨clnt, hclnt, rfl⟩ := Option.map_eq_some_iff.mp h
    exact .write n hclnt
  | read =>
    simp only [Conn.step?] at h
    split_ifs at h with hreader
    split at h
    · next m rest hread => exact Option.some.inj h ▸ .read hreader hread
    · next hread => exact Option.some.inj h ▸ .exit hread
    · cases h
  | close =>
    simp only [Conn.step?] at h
    split_ifs at h with hclosed
    · obtain rfl := Option.some.inj h
      rw [System.setConn, Function.update_eq_self]
      exact .idle
    · obtain ⟨clnt, hclnt, rfl⟩ := Option.map_eq_some_iff.mp h
      exact .close hclnt
  | arriveUp n => exact Option.some.inj h ▸ .arriveUp n
  | arriveDown n => exact Option.some.inj h ▸ .arriveDown n
  | cut => exact Option.some.inj h ▸ .cut
  | _ => cases h

theorem action_of_serverStep {e : Event} (h : sys.serverStep? setup k e = some sys') :
    Action setup sys k sys' := by
  cases e with
  | accept =>
    simp only [System.serverStep?] at h
    split_ifs at h with hreader
    split at h
    · next m rest hread =>
      split at h
      · next name hname => exact Option.some.inj h ▸ .accept hreader hread hname
      · next hname =>
        exact Option.some.inj h ▸ .fatal fun _ => .inl ⟨hreader, m, rest, hread, hname⟩
    · next hread => exact Option.some.inj h ▸ .fatal fun _ => .inr (.inl hread)
    · cases h
  | acceptFails =>
    simp only [System.serverStep?] at h
    split_ifs at h
    refine Option.some.inj h ▸ .fatal ?_
    intro hf
    cases hf
  | request =>
    simp only [System.serverStep?] at h
    split_ifs at h with hreader
    split at h
    · next m rest hread => exact Option.some.inj h ▸ .request hreader hread
    · next hread => exact Option.some.inj h ▸ .fatal fun _ => .inr (.inl hread)
    · cases h
  | requestEnds =>
    simp only [System.serverStep?] at h
    split_ifs at h with hcond
    split at h
    · exact Option.some.inj h ▸ .stop _ hcond.1
    · cases h
  | requestFails =>
    simp only [System.serverStep?] at h
    split_ifs at h with hreader
    exact Option.some.inj h ▸ .stop (sys.conns k).srv.closed hreader
  | serve i =>
    obtain ⟨g, hg, h⟩ := Option.bind_eq_some_iff.mp h
    split_ifs at h with hreply
    split at h
    · next f hserve =>
      refine Option.some.inj h ▸ .fatal ?_
      rintro rfl
      exact .inr (.inr ⟨g, List.mem_of_getElem? hg, hreply, serveRequest_error hserve⟩)
    · next hserve => exact Option.some.inj h ▸ .serve hg hreply hserve
  | respond i n =>
    obtain ⟨g, hg, h⟩ := Option.bind_eq_some_iff.mp h
    obtain ⟨r, hreply, rfl⟩ := Option.map_eq_some_iff.mp h
    exact .respond n hg hreply
  | closeSrv =>
    simp only [System.serverStep?] at h
    split_ifs at h
    · exact Option.some.inj h ▸ .idle
    · exact Option.some.inj h ▸ .closeSrv
  | _ => cases h

theorem action_of_step (h : Step setup sys sys') : ∃ k, Action setup sys k sys' := by
  obtain ⟨k, e, hsmall, h⟩ := h
  refine ⟨k, ?_⟩
  cases e with
  | arriveUp | arriveDown | cut =>
    simp only [System.step?] at h
    obtain ⟨conn, hconn, rfl⟩ := Option.map_eq_some_iff.mp h
    exact action_of_connStep hsmall hconn
  | rpc | clnt | write | read | close =>
    simp only [System.step?] at h
    split_ifs at h
    obtain ⟨conn, hconn, rfl⟩ := Option.map_eq_some_iff.mp h
    exact action_of_connStep hsmall hconn
  | accept | acceptFails | request | requestEnds | requestFails | serve | respond | closeSrv =>
    simp only [System.step?] at h
    split_ifs at h
    exact action_of_serverStep h

end Step

end DistributedLabs.SockRpc
