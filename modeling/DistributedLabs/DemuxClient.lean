import DistributedLabs.TransitionRuns
import Mathlib.Data.List.AList

/-!
# Calls multiplexed over one connection

The client side of the `demux` package. Any number of goroutines are in `SendReceive`, one is in
`reader`, and any number are in `Close`. Between two operations under a lock, and wherever a
goroutine blocks, any other may go on. The connection and the server at its other end are left
open: a write may fail or get lost, the server may answer what it has received at any time or
never, and a read may fail at any moment.
-/

namespace DistributedLabs.Demux

open Relation TransitionRuns

abbrev Ttag := UInt32

abbrev Bytes := List UInt8

structure Reply where
  rep : Bytes
  ok : Bool
  err : Option String
  deriving DecidableEq, Repr

structure Msg where
  tag : Ttag
  data : Bytes
  ok : Bool
  deriving DecidableEq, Repr

/-- The outstanding calls by their tags. A channel is named by the number of the call that made
it. -/
structure CallMap where
  closed : Bool
  calls : AList fun _ : Ttag => ℕ

def newCallMap : CallMap := ⟨false, ∅⟩

def CallMap.close (cm : CallMap) : CallMap := { cm with closed := true }

def CallMap.isClosed (cm : CallMap) : Bool := cm.closed

def CallMap.put (cm : CallMap) (tag : Ttag) (ch : ℕ) : Except String CallMap :=
  if cm.closed then .error "conn closed" else .ok { cm with calls := cm.calls.insert tag ch }

def CallMap.remove (cm : CallMap) (tag : Ttag) : Option (ℕ × CallMap) :=
  (cm.calls.lookup tag).map fun ch => (ch, { cm with calls := cm.calls.erase tag })

/-- The list has the tags of the outstanding calls, in the order in which Go iterates. -/
def CallMap.IsOutstanding (cm : CallMap) (ts : List Ttag) : Prop := ts.Perm cm.calls.keys

instance decidableIsOutstanding (cm : CallMap) (ts : List Ttag) :
    Decidable (cm.IsOutstanding ts) := List.decidablePerm ts cm.calls.keys

inductive Phase where
  | idle
  -- it has its tag and its channel
  | tagged
  -- `put` has returned an error, and so has the call
  | refused (err : String)
  | registered
  -- it is in `WriteCall` and holds the mutex
  | writing
  -- it receives from its channel
  | waiting
  | returned (rep : Reply)
  deriving DecidableEq, Repr

/-- A call of `SendReceive`, with what was sent on its channel so far. -/
structure Call where
  tag : Ttag
  req : Bytes
  phase : Phase
  sent : List Reply

/-- Where `reader` is. In `reply` it also has what it goes on with: `none` for the next read, or
the tags of the outstanding calls that are still to be failed. -/
inductive Reader where
  -- it is in `ReadCall`
  | reading
  -- it is in `reply` and looks up the tag
  | replying (tag : Ttag) (rep : Reply) (rest : Option (List Ttag))
  -- it sends on a channel
  | sending (ch : ℕ) (rep : Reply) (rest : Option (List Ttag))
  -- `ReadCall` has returned an error
  | failed
  -- it has closed the call map
  | closed
  | draining (ts : List Ttag)
  | finished
  -- no matching request
  | fatal (tag : Ttag) (rep : Reply)
  deriving DecidableEq, Repr

/-- The loop that `reply` returns to. -/
def Reader.resume : Option (List Ttag) → Reader
  | none => .reading
  | some ts => .draining ts

def failure : Reply := ⟨[], false, some "reader reply fail"⟩

def Msg.reply (m : Msg) : Reply := ⟨m.data, m.ok, none⟩

/-- The client, the requests that the server has received and not answered, and the answers on
their way. `mu` is the call that holds the mutex during its write, `count` the number of calls of
`SendReceive` so far, and `closing` the number of calls of `Close` that have found the map open.
`answered` records everything that the server has answered. -/
structure State where
  nextTag : Ttag
  callmap : CallMap
  mu : Option ℕ
  calls : ℕ → Call
  count : ℕ
  reader : Reader
  closing : ℕ
  received : List (Ttag × Bytes)
  replies : List Msg
  answered : List Msg

def State.tag (s : State) : Ttag × State := (s.nextTag, { s with nextTag := s.nextTag + 1 })

/-- The client with which `NewDemuxClnt` starts the reader. The first tag goes to the message that
names the client, which the server does not answer. -/
def newDemuxClnt : State :=
  (State.tag {
    nextTag := 0
    callmap := newCallMap
    mu := none
    calls := fun _ => ⟨0, [], .idle, []⟩
    count := 0
    reader := .reading
    closing := 0
    received := []
    replies := []
    answered := [] }).2

def State.setCall (s : State) (c : ℕ) (call : Call) : State :=
  { s with calls := Function.update s.calls c call }

def State.setPhase (s : State) (c : ℕ) (phase : Phase) : State :=
  s.setCall c { s.calls c with phase := phase }

def State.reply (s : State) (tag : Ttag) (rep : Reply) (rest : Option (List Ttag)) : State :=
  match s.callmap.remove tag with
  | some (ch, cm) =>
    { s.setCall ch { s.calls ch with sent := rep :: (s.calls ch).sent } with
      callmap := cm
      reader := .sending ch rep rest }
  | none => { s with reader := .fatal tag rep }

inductive Event where
  -- `SendReceive` begins: a tag and a channel
  | sendReceive (b : Bytes)
  | put (c : ℕ)
  -- the write begins; the server receives the request or not
  | write (c : ℕ) (reaches : Bool)
  -- the write returns, with an error or without
  | wrote (c : ℕ)
  | answer (i : ℕ) (b : Bytes) (ok : Bool)
  | read (i : ℕ)
  | readFails
  | closeReader
  | outstanding (ts : List Ttag)
  -- the loop over the outstanding tags
  | drain
  | remove
  -- a call receives what the reader sends on its channel
  | send
  | close
  -- `Close` has closed the connection and closes the map
  | closeMap

def State.step? (s : State) : Event → Option State
  | .sendReceive b =>
    if s.mu = none then
      let (t, s) := s.tag
      some { s.setCall s.count ⟨t, b, .tagged, []⟩ with count := s.count + 1 }
    else none
  | .put c =>
    if (s.calls c).phase = .tagged then
      match s.callmap.put (s.calls c).tag c with
      | .error err => some (s.setPhase c (.refused err))
      | .ok cm => some { s.setPhase c .registered with callmap := cm }
    else none
  | .write c reaches =>
    if (s.calls c).phase = .registered ∧ s.mu = none then
      some { s.setPhase c .writing with
        mu := some c
        received :=
          if reaches then ((s.calls c).tag, (s.calls c).req) :: s.received else s.received }
    else none
  | .wrote c =>
    if (s.calls c).phase = .writing then some { s.setPhase c .waiting with mu := none } else none
  | .answer i b ok =>
    s.received[i]?.map fun r => { s with
      received := s.received.eraseIdx i
      replies := ⟨r.1, b, ok⟩ :: s.replies
      answered := ⟨r.1, b, ok⟩ :: s.answered }
  | .read i =>
    if s.reader = .reading then
      s.replies[i]?.map fun m => { s with
        replies := s.replies.eraseIdx i
        reader := .replying m.tag m.reply none }
    else none
  | .readFails => if s.reader = .reading then some { s with reader := .failed } else none
  | .closeReader =>
    if s.reader = .failed then
      some { s with callmap := s.callmap.close, reader := .closed }
    else none
  | .outstanding ts =>
    if s.reader = .closed ∧ s.callmap.IsOutstanding ts then some { s with reader := .draining ts }
    else none
  | .drain => match s.reader with
    | .draining [] => some { s with reader := .finished }
    | .draining (t :: ts) => some { s with reader := .replying t failure (some ts) }
    | _ => none
  | .remove => match s.reader with
    | .replying tag rep rest => some (s.reply tag rep rest)
    | _ => none
  | .send => match s.reader with
    | .sending ch rep rest =>
      if (s.calls ch).phase = .waiting then
        some { s.setPhase ch (.returned rep) with reader := .resume rest }
      else none
    | _ => none
  | .close => if s.callmap.isClosed then some s else some { s with closing := s.closing + 1 }
  | .closeMap =>
    if 0 < s.closing then some { s with closing := s.closing - 1, callmap := s.callmap.close }
    else none

def Step (s t : State) : Prop := ∃ e, s.step? e = some t

def Reached (s : State) : Prop := Reachable (· = newDemuxClnt) Step s

def State.run (s : State) (es : List Event) : Option State := exec State.step? s es

/-- A run that ends as a test says. -/
theorem exists_of_run {s : State} {es : List Event} {test : State → Bool}
    (h : (s.run es).any test = true) : ∃ t, ReflTransGen Step s t ∧ test t = true :=
  exists_of_exec (fun _ e _ he => ⟨e, he⟩) h

variable {s t : State} {c : ℕ}

inductive Action (s : State) : State → Prop
  | sendReceive (b : Bytes) (hmu : s.mu = none) :
    Action s { s.setCall s.count ⟨s.nextTag, b, .tagged, []⟩ with
      nextTag := s.nextTag + 1
      count := s.count + 1 }
  | refuse {c : ℕ} (hphase : (s.calls c).phase = .tagged) (hclosed : s.callmap.closed = true) :
    Action s (s.setPhase c (.refused "conn closed"))
  | register {c : ℕ} (hphase : (s.calls c).phase = .tagged) (hopen : s.callmap.closed = false) :
    Action s { s.setPhase c .registered with
      callmap := { s.callmap with calls := s.callmap.calls.insert (s.calls c).tag c } }
  | write {c : ℕ} (reaches : Bool) (hphase : (s.calls c).phase = .registered) (hmu : s.mu = none) :
    Action s { s.setPhase c .writing with
      mu := some c
      received := if reaches then ((s.calls c).tag, (s.calls c).req) :: s.received else s.received }
  | wrote {c : ℕ} (hphase : (s.calls c).phase = .writing) :
    Action s { s.setPhase c .waiting with mu := none }
  | answer {i : ℕ} {r : Ttag × Bytes} (b : Bytes) (ok : Bool) (hr : s.received[i]? = some r) :
    Action s { s with
      received := s.received.eraseIdx i
      replies := ⟨r.1, b, ok⟩ :: s.replies
      answered := ⟨r.1, b, ok⟩ :: s.answered }
  | read {i : ℕ} {m : Msg} (hreader : s.reader = .reading) (hm : s.replies[i]? = some m) :
    Action s { s with
      replies := s.replies.eraseIdx i
      reader := .replying m.tag m.reply none }
  | readFails (hreader : s.reader = .reading) : Action s { s with reader := .failed }
  | closeReader (hreader : s.reader = .failed) :
    Action s { s with callmap := s.callmap.close, reader := .closed }
  | outstanding {ts : List Ttag} (hreader : s.reader = .closed) (hts : s.callmap.IsOutstanding ts) :
    Action s { s with reader := .draining ts }
  | drain {tag : Ttag} {ts : List Ttag} (hreader : s.reader = .draining (tag :: ts)) :
    Action s { s with reader := .replying tag failure (some ts) }
  | finish (hreader : s.reader = .draining []) : Action s { s with reader := .finished }
  | remove {tag : Ttag} {rep : Reply} {rest : Option (List Ttag)} {ch : ℕ}
    (hreader : s.reader = .replying tag rep rest) (hch : s.callmap.calls.lookup tag = some ch) :
    Action s { s.setCall ch { s.calls ch with sent := rep :: (s.calls ch).sent } with
      callmap := { s.callmap with calls := s.callmap.calls.erase tag }
      reader := .sending ch rep rest }
  | fatal {tag : Ttag} {rep : Reply} {rest : Option (List Ttag)}
    (hreader : s.reader = .replying tag rep rest) (hch : s.callmap.calls.lookup tag = none) :
    Action s { s with reader := .fatal tag rep }
  | send {ch : ℕ} {rep : Reply} {rest : Option (List Ttag)}
    (hreader : s.reader = .sending ch rep rest) (hphase : (s.calls ch).phase = .waiting) :
    Action s { s.setPhase ch (.returned rep) with reader := .resume rest }
  | close (k : ℕ) : Action s { s with closing := k }
  | closeMap (k : ℕ) : Action s { s with closing := k, callmap := s.callmap.close }

theorem action_of_step {e : Event} (h : s.step? e = some t) : Action s t := by
  cases e with
  | sendReceive b =>
    simp only [State.step?, State.tag] at h
    split_ifs at h with hmu
    obtain rfl := Option.some.inj h
    exact .sendReceive b hmu
  | put c =>
    simp only [State.step?, CallMap.put] at h
    split_ifs at h with hphase hclosed
    · obtain rfl := Option.some.inj h
      exact .refuse hphase hclosed
    · obtain rfl := Option.some.inj h
      exact .register hphase (by simpa using hclosed)
  | write c reaches =>
    simp only [State.step?] at h
    split_ifs at h with hcond
    all_goals obtain rfl := Option.some.inj h
    · exact .write true hcond.1 hcond.2
    · exact .write false hcond.1 hcond.2
  | wrote c =>
    simp only [State.step?] at h
    split_ifs at h with hphase
    obtain rfl := Option.some.inj h
    exact .wrote hphase
  | answer i b ok =>
    obtain ⟨r, hr, rfl⟩ := Option.map_eq_some_iff.mp h
    exact .answer b ok hr
  | read i =>
    simp only [State.step?] at h
    split_ifs at h with hreader
    obtain ⟨m, hm, rfl⟩ := Option.map_eq_some_iff.mp h
    exact .read hreader hm
  | readFails =>
    simp only [State.step?] at h
    split_ifs at h with hreader
    obtain rfl := Option.some.inj h
    exact .readFails hreader
  | closeReader =>
    simp only [State.step?] at h
    split_ifs at h with hreader
    obtain rfl := Option.some.inj h
    exact .closeReader hreader
  | outstanding ts =>
    simp only [State.step?] at h
    split_ifs at h with hcond
    obtain rfl := Option.some.inj h
    exact .outstanding hcond.1 hcond.2
  | drain =>
    simp only [State.step?] at h
    split at h
    · next hreader =>
      obtain rfl := Option.some.inj h
      exact .finish hreader
    · next hreader =>
      obtain rfl := Option.some.inj h
      exact .drain hreader
    · cases h
  | remove =>
    simp only [State.step?] at h
    split at h
    · next tag rep rest hreader =>
      obtain rfl := Option.some.inj h
      cases hch : s.callmap.calls.lookup tag with
      | none =>
        simp only [State.reply, CallMap.remove, hch, Option.map_none]
        exact .fatal hreader hch
      | some ch =>
        simp only [State.reply, CallMap.remove, hch, Option.map_some]
        exact .remove hreader hch
    · cases h
  | send =>
    simp only [State.step?] at h
    split at h
    · next ch rep rest hreader =>
      split_ifs at h with hphase
      obtain rfl := Option.some.inj h
      exact .send hreader hphase
    · cases h
  | close =>
    simp only [State.step?] at h
    split_ifs at h with hclosed
    · obtain rfl := Option.some.inj h
      exact .close s.closing
    · obtain rfl := Option.some.inj h
      exact .close _
  | closeMap =>
    simp only [State.step?] at h
    split_ifs at h with hclosing
    obtain rfl := Option.some.inj h
    exact .closeMap _

end DistributedLabs.Demux
