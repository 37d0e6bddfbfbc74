import DistributedLabs.LogPrefixes
import DistributedLabs.TransitionRuns
import Mathlib.Logic.Function.Basic

/-!
# The simulated network that carries the calls between clients and servers

Every call has a goroutine of `processReq` and, once the request is handed to the server, a
second one that runs the handler. Ends are connected, enabled and disabled, and servers are
added and deleted, while calls are under way. Delays are not modelled: a goroutine may take
any time for its next step.

A server is known by the requests it has executed, each with the reply it gave. Which replies it
may give after those before is a parameter, so a server whose replies depend on more than the
requests, such as a Raft peer, is an instance. Servers are numbered in the order in which they are
made, like the pointers that `processReq` compares.
-/

namespace DistributedLabs.Labrpc

open TransitionRuns

variable {E N A R : Type*}

structure ReqMsg (E A : Type*) where
  endname : E
  svcMeth : String
  args : A
  deriving DecidableEq, Repr

structure ReplyMsg (R : Type*) where
  ok : Bool
  reply : Option R
  deriving DecidableEq, Repr

/-- The answer of a call that timed out. -/
def ReplyMsg.failure : ReplyMsg R := ⟨false, none⟩

/-- What `readEndnameInfo` finds for an end that is enabled and has a server. -/
structure EndnameInfo (N : Type*) where
  servername : N
  server : ℕ
  reliable : Bool
  deriving DecidableEq, Repr

inductive Phase (N R : Type*) where
  | sending
  | taken
  | refused
  | delaying (info : EndnameInfo N)
  | waiting (info : EndnameInfo N)
  | returned (info : EndnameInfo N) (reply : ReplyMsg R)
  | gaveUp (info : EndnameInfo N)
  | replying (reply : ReplyMsg R)
  | done (reply : ReplyMsg R)
  deriving DecidableEq, Repr

inductive Dispatch (R : Type*) where
  | none
  | started (server : ℕ)
  | finished (server : ℕ) (reply : ReplyMsg R)
  | collected
  deriving DecidableEq, Repr

structure Call (E N A R : Type*) where
  req : ReqMsg E A
  phase : Phase N R
  dispatch : Dispatch R
  deriving DecidableEq, Repr

/-- The run of a handler, for the numbered call. -/
structure Execution (E A R : Type*) where
  call : ℕ
  req : ReqMsg E A
  reply : ReplyMsg R
  deriving DecidableEq, Repr

/-- A server: what it had behind it when it was made, and what it has executed since. -/
structure Server (E A R : Type*) where
  base : List (Execution E A R)
  executed : List (Execution E A R)

def Server.history (sv : Server E A R) : List (Execution E A R) := sv.base ++ sv.executed

structure Network (E N A R : Type*) where
  reliable : Bool
  ends : E → Bool
  enabled : E → Bool
  connections : E → Option N
  servers : N → Option ℕ
  made : List (Server E A R)
  calls : List (Call E N A R)
  closed : Bool

def makeNetwork : Network E N A R where
  reliable := true
  ends _ := false
  enabled _ := false
  connections _ := none
  servers _ := none
  made := []
  calls := []
  closed := false

inductive Event (E N A R : Type*) where
  | call (req : ReqMsg E A)
  | abandon (c : ℕ)
  | take (c : ℕ)
  | readEndnameInfo (c : ℕ)
  | timeout (c : ℕ)
  | dropRequest (c : ℕ)
  | dispatch (c : ℕ)
  | execute (c : ℕ) (reply : ReplyMsg R)
  | executeFails (c : ℕ)
  | replyLost (c : ℕ)
  | collect (c : ℕ)
  | poll (c : ℕ)
  | drain (c : ℕ)
  | lastCheck (c : ℕ) (drop : Bool)
  | reply (c : ℕ)
  | setReliable (yes : Bool)
  | makeEnd (endname : E)
  | deleteEnd (endname : E)
  | connect (endname : E) (servername : N)
  | enable (endname : E) (enabled : Bool)
  | makeServer (base : List (Execution E A R))
  | addServer (servername : N) (server : ℕ)
  | deleteServer (servername : N)
  | cleanup

def Network.setCall (rn : Network E N A R) (c : ℕ) (call : Call E N A R) : Network E N A R :=
  { rn with calls := rn.calls.set c call }

/-- The end is usable: it is enabled, connected, and its server is there. -/
def Network.readEndnameInfo (rn : Network E N A R) (endname : E) : Option (EndnameInfo N) :=
  if rn.enabled endname then
    (rn.connections endname).bind fun servername =>
      (rn.servers servername).map fun server => ⟨servername, server, rn.reliable⟩
  else none

def Network.isServerDead (rn : Network E N A R) (endname : E) (info : EndnameInfo N) : Bool :=
  !rn.enabled endname || rn.servers info.servername != some info.server

def Network.advance (rn : Network E N A R) (c : ℕ)
    (next : Call E N A R → Option (Call E N A R)) : Option (Network E N A R) :=
  rn.calls[c]?.bind fun call => (next call).map (rn.setCall c)

section Steps

variable [DecidableEq E] [DecidableEq N]
  (serve : List (Execution E A R) → ReqMsg E A → ReplyMsg R → Bool)

/-- What the tester does to the ends and to the names of the servers. -/
def Network.configure (rn : Network E N A R) : Event E N A R → Option (Network E N A R)
  | .setReliable yes => some { rn with reliable := yes }
  | .makeEnd endname =>
    if rn.ends endname then none
    else some { rn with
      ends := Function.update rn.ends endname true
      enabled := Function.update rn.enabled endname false
      connections := Function.update rn.connections endname none }
  | .deleteEnd endname =>
    if rn.ends endname then some { rn with
      ends := Function.update rn.ends endname false
      enabled := Function.update rn.enabled endname false
      connections := Function.update rn.connections endname none }
    else none
  | .connect endname servername =>
    some { rn with connections := Function.update rn.connections endname (some servername) }
  | .enable endname enabled =>
    some { rn with enabled := Function.update rn.enabled endname enabled }
  | .addServer servername server =>
    if server < rn.made.length then
      some { rn with servers := Function.update rn.servers servername (some server) }
    else none
  | .deleteServer servername =>
    some { rn with servers := Function.update rn.servers servername none }
  | .cleanup => some { rn with closed := true }
  | _ => none

def Network.ran (rn : Network E N A R) (c : ℕ) (call : Call E N A R) (server : ℕ)
    (sv : Server E A R) (reply : ReplyMsg R) : Network E N A R :=
  { rn.setCall c { call with dispatch := .finished server reply } with
    made := rn.made.set server { sv with executed := sv.executed ++ [⟨c, call.req, reply⟩] } }

def Network.execute (rn : Network E N A R) (c : ℕ) (reply : ReplyMsg R) :
    Option (Network E N A R) :=
  rn.calls[c]?.bind fun call =>
    match call.dispatch with
    | .started server => rn.made[server]?.bind fun sv =>
      if serve sv.history call.req reply then some (rn.ran c call server sv reply) else none
    | _ => none

/-- One step of the network; `none` when the event cannot happen. After `Cleanup` the
goroutine that takes the requests may take some more before it stops. The call of
`dispatch` fails where the server is a process that is gone, with the request executed or
not. -/
def Network.step? (rn : Network E N A R) : Event E N A R → Option (Network E N A R)
  | .call req =>
    some { rn with calls := rn.calls ++ [{ req := req, phase := .sending, dispatch := .none }] }
  | .abandon c => rn.advance c fun call => match call.phase with
    | .sending => if rn.closed then some { call with phase := .done .failure } else none
    | _ => none
  | .take c => rn.advance c fun call => match call.phase with
    | .sending => some { call with phase := .taken }
    | _ => none
  | .readEndnameInfo c => rn.advance c fun call => match call.phase with
    | .taken => some { call with phase := match rn.readEndnameInfo call.req.endname with
      | some info => .delaying info
      | none => .refused }
    | _ => none
  | .timeout c => rn.advance c fun call => match call.phase with
    | .refused => some { call with phase := .replying .failure }
    | _ => none
  | .dropRequest c => rn.advance c fun call => match call.phase with
    | .delaying info =>
      if info.reliable then none else some { call with phase := .replying .failure }
    | _ => none
  | .dispatch c => rn.advance c fun call => match call.phase with
    | .delaying info => some { call with phase := .waiting info, dispatch := .started info.server }
    | _ => none
  | .execute c reply => rn.execute serve c reply
  | .executeFails c => rn.advance c fun call => match call.dispatch with
    | .started server => some { call with dispatch := .finished server .failure }
    | _ => none
  | .replyLost c => rn.advance c fun call => match call.dispatch with
    | .finished server _ => some { call with dispatch := .finished server .failure }
    | _ => none
  | .collect c => rn.advance c fun call => match call.phase, call.dispatch with
    | .waiting info, .finished _ reply =>
      some { call with phase := .returned info reply, dispatch := .collected }
    | _, _ => none
  | .poll c => rn.advance c fun call => match call.phase with
    | .waiting info =>
      if rn.isServerDead call.req.endname info then some { call with phase := .gaveUp info }
      else some call
    | _ => none
  | .drain c => rn.advance c fun call => match call.phase, call.dispatch with
    | .waiting _, _ => none
    | _, .finished _ _ => some { call with dispatch := .collected }
    | _, _ => none
  | .lastCheck c drop => rn.advance c fun call => match call.phase with
    | .returned info reply =>
      if rn.isServerDead call.req.endname info then some { call with phase := .replying .failure }
      else if drop then
        if info.reliable then none else some { call with phase := .replying .failure }
      else some { call with phase := .replying reply }
    | .gaveUp _ => some { call with phase := .replying .failure }
    | _ => none
  | .reply c => rn.advance c fun call => match call.phase with
    | .replying reply => some { call with phase := .done reply }
    | _ => none
  | .makeServer base => some { rn with made := rn.made ++ [⟨base, []⟩] }
  | e => rn.configure e

def Step (rn rn' : Network E N A R) : Prop := ∃ e, rn.step? serve e = some rn'

def Reached (rn : Network E N A R) : Prop := Reachable (· = makeNetwork) (Step serve) rn

variable {serve}

inductive Network.Goes (rn : Network E N A R) (c : ℕ) (call : Call E N A R) :
    Event E N A R → Call E N A R → Prop
  | abandon (hphase : call.phase = .sending) (hclosed : rn.closed = true) :
    Goes rn c call (.abandon c) { call with phase := .done .failure }
  | take (hphase : call.phase = .sending) : Goes rn c call (.take c) { call with phase := .taken }
  | found {info : EndnameInfo N} (hphase : call.phase = .taken)
    (hinfo : rn.readEndnameInfo call.req.endname = some info) :
    Goes rn c call (.readEndnameInfo c) { call with phase := .delaying info }
  | refused (hphase : call.phase = .taken)
    (hinfo : rn.readEndnameInfo call.req.endname = none) :
    Goes rn c call (.readEndnameInfo c) { call with phase := .refused }
  | timeout (hphase : call.phase = .refused) :
    Goes rn c call (.timeout c) { call with phase := .replying .failure }
  | dropRequest {info : EndnameInfo N} (hphase : call.phase = .delaying info)
    (hunreliable : info.reliable = false) :
    Goes rn c call (.dropRequest c) { call with phase := .replying .failure }
  | dispatch {info : EndnameInfo N} (hphase : call.phase = .delaying info) :
    Goes rn c call (.dispatch c)
      { call with phase := .waiting info, dispatch := .started info.server }
  | executeFails {server : ℕ} (hdispatch : call.dispatch = .started server) :
    Goes rn c call (.executeFails c) { call with dispatch := .finished server .failure }
  | replyLost {server : ℕ} {reply : ReplyMsg R}
    (hdispatch : call.dispatch = .finished server reply) :
    Goes rn c call (.replyLost c) { call with dispatch := .finished server .failure }
  | collect {info : EndnameInfo N} {server : ℕ} {reply : ReplyMsg R}
    (hphase : call.phase = .waiting info) (hdispatch : call.dispatch = .finished server reply) :
    Goes rn c call (.collect c) { call with phase := .returned info reply, dispatch := .collected }
  | alive {info : EndnameInfo N} (hphase : call.phase = .waiting info)
    (halive : rn.isServerDead call.req.endname info = false) : Goes rn c call (.poll c) call
  | gaveUp {info : EndnameInfo N} (hphase : call.phase = .waiting info)
    (hdead : rn.isServerDead call.req.endname info = true) :
    Goes rn c call (.poll c) { call with phase := .gaveUp info }
  | drain {server : ℕ} {reply : ReplyMsg R} (hphase : ∀ info, call.phase ≠ .waiting info)
    (hdispatch : call.dispatch = .finished server reply) :
    Goes rn c call (.drain c) { call with dispatch := .collected }
  | dead (drop : Bool) {info : EndnameInfo N} {reply : ReplyMsg R}
    (hphase : call.phase = .returned info reply)
    (hdead : rn.isServerDead call.req.endname info = true) :
    Goes rn c call (.lastCheck c drop) { call with phase := .replying .failure }
  | dropReply {info : EndnameInfo N} {reply : ReplyMsg R}
    (hphase : call.phase = .returned info reply) (hunreliable : info.reliable = false) :
    Goes rn c call (.lastCheck c true) { call with phase := .replying .failure }
  | passed {info : EndnameInfo N} {reply : ReplyMsg R} (hphase : call.phase = .returned info reply)
    (halive : rn.isServerDead call.req.endname info = false) :
    Goes rn c call (.lastCheck c false) { call with phase := .replying reply }
  | failed (drop : Bool) {info : EndnameInfo N} (hphase : call.phase = .gaveUp info) :
    Goes rn c call (.lastCheck c drop) { call with phase := .replying .failure }
  | reply {reply : ReplyMsg R} (hphase : call.phase = .replying reply) :
    Goes rn c call (.reply c) { call with phase := .done reply }

inductive Network.Action (serve : List (Execution E A R) → ReqMsg E A → ReplyMsg R → Bool)
    (rn : Network E N A R) : Event E N A R → Network E N A R → Prop
  | call (req : ReqMsg E A) : Action serve rn (.call req)
    { rn with calls := rn.calls ++ [{ req := req, phase := .sending, dispatch := .none }] }
  | goes {e : Event E N A R} {c : ℕ} {call call' : Call E N A R} (hcall : rn.calls[c]? = some call)
    (hgoes : rn.Goes c call e call') : Action serve rn e (rn.setCall c call')
  | execute {c server : ℕ} {call : Call E N A R} {sv : Server E A R} {reply : ReplyMsg R}
    (hcall : rn.calls[c]? = some call) (hdispatch : call.dispatch = .started server)
    (hsv : rn.made[server]? = some sv) (hserve : serve sv.history call.req reply = true) :
    Action serve rn (.execute c reply) (rn.ran c call server sv reply)
  | makeServer (base : List (Execution E A R)) :
    Action serve rn (.makeServer base) { rn with made := rn.made ++ [⟨base, []⟩] }
  | configure {e : Event E N A R} {rn' : Network E N A R}
    (hconfigure : rn.configure e = some rn') : Action serve rn e rn'

theorem Network.configure_same {rn rn' : Network E N A R} {e : Event E N A R}
    (h : rn.configure e = some rn') : rn'.made = rn.made ∧ rn'.calls = rn.calls := by
  unfold Network.configure at h
  split at h <;> try split_ifs at h
  all_goals cases h
  all_goals exact ⟨rfl, rfl⟩

theorem Network.action_of_advance {rn rn' : Network E N A R} {e : Event E N A R} {c : ℕ}
    {next : Call E N A R → Option (Call E N A R)} (h : rn.advance c next = some rn')
    (hnext : ∀ call call', next call = some call' → rn.Goes c call e call') :
    rn.Action serve e rn' := by
  obtain ⟨call, hcall, h⟩ := Option.bind_eq_some_iff.mp h
  obtain ⟨call', hcall', rfl⟩ := Option.map_eq_some_iff.mp h
  exact .goes hcall (hnext call call' hcall')

theorem Network.action_of_step {rn rn' : Network E N A R} {e : Event E N A R}
    (h : rn.step? serve e = some rn') : rn.Action serve e rn' := by
  cases e with
  | call req => exact Option.some.inj h ▸ .call req
  | abandon c =>
    refine action_of_advance h fun call call' hnext => ?_
    split at hnext
    · next hphase =>
      split_ifs at hnext with hclosed
      exact Option.some.inj hnext ▸ .abandon hphase hclosed
    · cases hnext
  | take c =>
    refine action_of_advance h fun call call' hnext => ?_
    split at hnext
    · next hphase => exact Option.some.inj hnext ▸ .take hphase
    · cases hnext
  | readEndnameInfo c =>
    refine action_of_advance h fun call call' hnext => ?_
    split at hnext
    · next hphase =>
      obtain rfl := Option.some.inj hnext
      cases hinfo : rn.readEndnameInfo call.req.endname with
      | none => exact .refused hphase hinfo
      | some info => exact .found hphase hinfo
    · cases hnext
  | timeout c =>
    refine action_of_advance h fun call call' hnext => ?_
    split at hnext
    · next hphase => exact Option.some.inj hnext ▸ .timeout hphase
    · cases hnext
  | dropRequest c =>
    refine action_of_advance h fun call call' hnext => ?_
    split at hnext
    · next info hphase =>
      split_ifs at hnext with hreliable
      exact Option.some.inj hnext ▸ .dropRequest hphase (eq_false_of_ne_true hreliable)
    · cases hnext
  | dispatch c =>
    refine action_of_advance h fun call call' hnext => ?_
    split at hnext
    · next info hphase => exact Option.some.inj hnext ▸ .dispatch hphase
    · cases hnext
  | execute c reply =>
    obtain ⟨call, hcall, h⟩ := Option.bind_eq_some_iff.mp h
    split at h
    · next server hdispatch =>
      obtain ⟨sv, hsv, h⟩ := Option.bind_eq_some_iff.mp h
      split_ifs at h with hserve
      exact Option.some.inj h ▸ .execute hcall hdispatch hsv hserve
    · cases h
  | executeFails c =>
    refine action_of_advance h fun call call' hnext => ?_
    split at hnext
    · next server hdispatch => exact Option.some.inj hnext ▸ .executeFails hdispatch
    · cases hnext
  | replyLost c =>
    refine action_of_advance h fun call call' hnext => ?_
    split at hnext
    · next server reply hdispatch => exact Option.some.inj hnext ▸ .replyLost hdispatch
    · cases hnext
  | collect c =>
    refine action_of_advance h fun call call' hnext => ?_
    split at hnext
    · next info server reply hphase hdispatch =>
      exact Option.some.inj hnext ▸ .collect hphase hdispatch
    · cases hnext
  | poll c =>
    refine action_of_advance h fun call call' hnext => ?_
    split at hnext
    · next info hphase =>
      split_ifs at hnext with hdead
      · exact Option.some.inj hnext ▸ .gaveUp hphase hdead
      · exact Option.some.inj hnext ▸ .alive hphase (eq_false_of_ne_true hdead)
    · cases hnext
  | drain c =>
    refine action_of_advance h fun call call' hnext => ?_
    split at hnext
    · cases hnext
    · next server reply hdispatch hphase =>
      exact Option.some.inj hnext ▸ .drain hphase hdispatch
    · cases hnext
  | lastCheck c drop =>
    refine action_of_advance h fun call call' hnext => ?_
    split at hnext
    · next info reply hphase =>
      split_ifs at hnext with hdead hdrop hreliable
      · exact Option.some.inj hnext ▸ .dead drop hphase hdead
      · subst hdrop
        exact Option.some.inj hnext ▸ .dropReply hphase (eq_false_of_ne_true hreliable)
      · obtain rfl := eq_false_of_ne_true hdrop
        exact Option.some.inj hnext ▸ .passed hphase (eq_false_of_ne_true hdead)
    · next info hphase => exact Option.some.inj hnext ▸ .failed drop hphase
    · cases hnext
  | reply c =>
    refine action_of_advance h fun call call' hnext => ?_
    split at hnext
    · next reply hphase => exact Option.some.inj hnext ▸ .reply hphase
    · cases hnext
  | makeServer base => exact Option.some.inj h ▸ .makeServer base
  | setReliable yes => exact .configure h
  | makeEnd endname => exact .configure h
  | deleteEnd endname => exact .configure h
  | connect endname servername => exact .configure h
  | enable endname enabled => exact .configure h
  | addServer servername server => exact .configure h
  | deleteServer servername => exact .configure h
  | cleanup => exact .configure h

end Steps

end DistributedLabs.Labrpc
