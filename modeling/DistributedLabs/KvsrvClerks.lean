import DistributedLabs.KvsrvServer

/-!
# Clerks of the single key/value server

The remote calls between clerks and the server, and clerks that make any calls they like,
one at a time, with what they see recorded in a history.
-/

namespace DistributedLabs.Kvsrv

open KvServer (Err Tversion PutArgs GetArgs PutReply GetReply)
open KvClerks (KvOp KvInput KvOutput KvState)
open Linearizability TransitionRuns

/-- A remote call is on its way, or executed with the answer on its way. -/
inductive Rpc where
  | sent
  | replied (reply : Reply)
  deriving DecidableEq, Repr

/-- The call of `Get` or `Put` that a clerk is in; `firstPut` is of no use in a `Get`. -/
structure Pending where
  request : Request
  firstPut : Bool
  rpc : Rpc
  deriving DecidableEq, Repr

/-- The server and the calls of the clerks; `late` are the requests that were given up
before they were executed. -/
structure Net (c : ℕ) where
  server : KVServer
  pending : Fin c → Option Pending
  late : List Request

inductive Net.Event (c : ℕ) where
  | execute (k : Fin c)
  | fail (k : Fin c)
  | late (i : ℕ)
  deriving DecidableEq, Repr

section Network

variable {c : ℕ}

def Net.initial : Net c := ⟨KVServer.empty, fun _ => none, []⟩

def Net.setPending (net : Net c) (k : Fin c) (pend : Option Pending) : Net c :=
  { net with pending := Function.update net.pending k pend }

def Net.call (net : Net c) (k : Fin c) (inp : KvInput) : Net c :=
  net.setPending k (some ⟨Kvsrv.request inp, true, .sent⟩)

/-- What `Call` returning true makes a clerk return. -/
def Net.answer (net : Net c) (k : Fin c) : Option KvOutput :=
  (net.pending k).bind fun pend =>
    match pend.rpc with
    | .replied reply => some (output pend.firstPut reply)
    | .sent => none

def Net.executes (net : Net c) : Net.Event c → Option Request
  | .execute k => (net.pending k).bind fun pend =>
      if pend.rpc = .sent then some pend.request else none
  | .late i => net.late[i]?
  | .fail _ => none

def Net.step? (net : Net c) : Net.Event c → Option (Net c)
  | .execute k =>
    (net.pending k).bind fun pend =>
      match pend.rpc with
      | .sent =>
        some { net.setPending k
            (some { pend with rpc := .replied (net.server.handle pend.request).2 })
          with server := (net.server.handle pend.request).1 }
      | .replied _ => none
  | .fail k =>
    (net.pending k).map fun pend =>
      { net.setPending k (some { pend with firstPut := false, rpc := .sent }) with
        late := match pend.rpc with
          | .sent => net.late ++ [pend.request]
          | .replied _ => net.late }
  | .late i =>
    net.late[i]?.map fun req =>
      { net with server := (net.server.handle req).1, late := net.late.eraseIdx i }

def Net.NoWrap (net : Net c) (e : Net.Event c) : Prop :=
  ∀ req ∈ net.executes e, ¬ net.server.Wraps req

instance (net : Net c) (e : Net.Event c) : Decidable (net.NoWrap e) :=
  inferInstanceAs (Decidable (∀ req ∈ net.executes e, ¬ net.server.Wraps req))

theorem Net.setPending_cases {net : Net c} {k k' : Fin c} {p : Option Pending} {pend : Pending}
    (h : (net.setPending k p).pending k' = some pend) :
    (k' = k ∧ p = some pend) ∨ (k' ≠ k ∧ net.pending k' = some pend) := by
  simp only [Net.setPending, Function.update_apply] at h
  split_ifs at h with hk
  · exact .inl ⟨hk, h⟩
  · exact .inr ⟨hk, h⟩

inductive Net.Action (net : Net c) : Net.Event c → Net c → Prop
  | execute {k : Fin c} {pend : Pending} (hpend : net.pending k = some pend)
      (hrpc : pend.rpc = .sent) : Net.Action net (.execute k)
        { net.setPending k (some { pend with rpc := .replied (net.server.handle pend.request).2 })
          with server := (net.server.handle pend.request).1 }
  | fail {k : Fin c} {pend : Pending} (hpend : net.pending k = some pend) :
      Net.Action net (.fail k)
        { net.setPending k (some { pend with firstPut := false, rpc := .sent }) with
          late := match pend.rpc with
            | .sent => net.late ++ [pend.request]
            | .replied _ => net.late }
  | late {i : ℕ} {req : Request} (hreq : net.late[i]? = some req) : Net.Action net (.late i)
        { net with server := (net.server.handle req).1, late := net.late.eraseIdx i }

theorem Net.step_action {net net' : Net c} {e : Net.Event c} (h : net.step? e = some net') :
    net.Action e net' := by
  cases e with
  | execute k =>
    obtain ⟨pend, hpend, hsome⟩ := Option.bind_eq_some_iff.mp h
    cases hrpc : pend.rpc with
    | replied reply => simp [hrpc] at hsome
    | sent =>
      rw [hrpc] at hsome
      obtain rfl := Option.some.inj hsome
      exact .execute hpend hrpc
  | fail k =>
    obtain ⟨pend, hpend, rfl⟩ := Option.map_eq_some_iff.mp h
    exact .fail hpend
  | late i =>
    obtain ⟨req, hreq, rfl⟩ := Option.map_eq_some_iff.mp h
    exact .late hreq

theorem Net.executes_of_sent {net : Net c} {k : Fin c} {pend : Pending}
    (hpend : net.pending k = some pend) (hrpc : pend.rpc = .sent) :
    net.executes (.execute k) = some pend.request := by
  simp [Net.executes, hpend, hrpc]

end Network

/-- The network with clerks that make any calls; `number` is the position in the history of
the latest call of a clerk. -/
structure Service (c : ℕ) where
  net : Net c
  number : Fin c → ℕ
  history : List (Operation (Fin c) KvInput KvOutput)
  clock : ℕ

inductive Event (c : ℕ) where
  | net (e : Net.Event c)
  | invoke (k : Fin c) (input : KvInput)
  | reply (k : Fin c)
  deriving DecidableEq, Repr

variable {c : ℕ}

def Service.invoke (s : Service c) (k : Fin c) (input : KvInput) : Service c where
  net := s.net.call k input
  number := Function.update s.number k s.history.length
  history := s.history ++ [⟨k, input, s.clock, none⟩]
  clock := s.clock + 1

def Service.return (s : Service c) (k : Fin c) (output : KvOutput) : Service c where
  net := s.net.setPending k none
  number := s.number
  history := s.history.modify (s.number k) fun op => { op with result := some (output, s.clock) }
  clock := s.clock + 1

def Service.step? (s : Service c) : Event c → Option (Service c)
  | .net e => (s.net.step? e).map fun net => { s with net := net }
  | .invoke k input =>
    match s.net.pending k with
    | some _ => none
    | none => some (s.invoke k input)
  | .reply k => (s.net.answer k).map fun output => s.return k output

inductive Action (s : Service c) : Event c → Service c → Prop
  | net {e : Net.Event c} {net : Net c} (h : s.net.Action e net) :
      Action s (.net e) { s with net := net }
  | invoke {k : Fin c} {input : KvInput} (hidle : s.net.pending k = none) :
      Action s (.invoke k input) (s.invoke k input)
  | reply {k : Fin c} {pend : Pending} {reply : Reply} (hpend : s.net.pending k = some pend)
      (hrpc : pend.rpc = .replied reply) :
      Action s (.reply k) (s.return k (output pend.firstPut reply))

theorem step_action {s t : Service c} {e : Event c} (h : s.step? e = some t) : Action s e t := by
  cases e with
  | net e =>
    obtain ⟨net, hnet, rfl⟩ := Option.map_eq_some_iff.mp h
    exact .net (Net.step_action hnet)
  | invoke k input =>
    cases hidle : s.net.pending k with
    | some pend => simp [Service.step?, hidle] at h
    | none =>
      obtain rfl : s.invoke k input = t := by simpa [Service.step?, hidle] using h
      exact .invoke hidle
  | reply k =>
    obtain ⟨out, hans, rfl⟩ := Option.map_eq_some_iff.mp h
    obtain ⟨pend, hpend, hout⟩ := Option.bind_eq_some_iff.mp hans
    cases hrpc : pend.rpc with
    | sent => simp [hrpc] at hout
    | replied reply =>
      obtain rfl : output pend.firstPut reply = out := by simpa [hrpc] using hout
      exact .reply hpend hrpc

def Step (ok : Service c → Event c → Prop) (s t : Service c) : Prop :=
  ∃ e, ok s e ∧ s.step? e = some t

def initial : Service c := ⟨Net.initial, fun _ => 0, [], 0⟩

def Reached (ok : Service c → Event c → Prop) (s : Service c) : Prop :=
  Reachable (· = initial) (Step ok) s

/-- A remote call whose `Call` returned false was executed before that, or never. -/
def Prompt (_ : Service c) : Event c → Prop
  | .net (.late _) => False
  | _ => True

def NoWrap (s : Service c) : Event c → Prop
  | .net e => s.net.NoWrap e
  | _ => True

instance (s : Service c) : (e : Event c) → Decidable (Prompt s e)
  | .net (.late _) => .isFalse id
  | .net (.execute _) | .net (.fail _) | .invoke _ _ | .reply _ => .isTrue trivial

instance (s : Service c) : (e : Event c) → Decidable (NoWrap s e)
  | .net e => inferInstanceAs (Decidable (s.net.NoWrap e))
  | .invoke _ _ | .reply _ => .isTrue trivial

section Runs

variable (ok : Service c → Event c → Prop) [∀ s e, Decidable (ok s e)]

def Service.run (s : Service c) (es : List (Event c)) : Option (Service c) :=
  exec (fun s e => if ok s e then s.step? e else none) s es

variable {ok} {s t : Service c}

theorem Service.steps_of_run {es : List (Event c)} (h : s.run ok es = some t) :
    Relation.ReflTransGen (Step ok) s t := by
  refine steps_of_exec (fun s e t he => ?_) h
  split_ifs at he with hok
  exact ⟨e, hok, he⟩

/-- A run that ends as a test says. -/
theorem Service.exists_of_run {es : List (Event c)} {test : Service c → Bool}
    (h : (s.run ok es).any test = true) :
    ∃ t, Relation.ReflTransGen (Step ok) s t ∧ test t = true := by
  refine exists_of_exec (fun s e t he => ?_) h
  split_ifs at he with hok
  exact ⟨e, hok, he⟩

end Runs

end DistributedLabs.Kvsrv
