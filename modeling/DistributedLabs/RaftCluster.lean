import DistributedLabs.RaftLeader
import DistributedLabs.TransitionRuns
import Mathlib.Data.List.FinRange

/-!
# A cluster of Raft peers over a lossy network

Each peer is a process: its Raft state, the goroutines that wait for a reply, the
messages that `Apply` has taken but not yet sent, and the states its service has been
through. The network holds requests and replies in flight. A packet is removed when it
is delivered, so it is delivered at most once, in any order, or never. A process may
crash between two operations or inside one, after any of the operation's saves, and
restarts with `Make` from what was saved last.
-/

namespace DistributedLabs.RaftCluster

open RaftPeer TransitionRuns

variable {n : ℕ} {C : Type*}

inductive Reply where
  | requestVote (reply : RequestVoteReply)
  | appendEntries (reply : AppendEntriesResponse)
  | installSnapshot (reply : InstallSnapshotResponse)
  deriving DecidableEq, Repr

/-- A goroutine waiting in `Call`, with what its closure remembers: the peer called, the
term in which the call was made, and the arguments. -/
structure Call (n : ℕ) (C : Type*) where
  id : ℕ
  server : Fin n
  savedTerm : ℤ
  req : Request C
  deriving DecidableEq, Repr

inductive Packet (n : ℕ) (C : Type*) where
  | request (id : ℕ) (src dst : Fin n) (req : Request C)
  | reply (id : ℕ) (dst : Fin n) (rep : Reply)
  deriving DecidableEq, Repr

/-- One server process. `numVotes` holds the counter of each election by the term in
which it was started. `delivered` lists the indices the service has received since the
process started, each with the commands the service had applied then, latest first. -/
structure Process (n : ℕ) (C : Type*) where
  rf : Raft n C
  numVotes : ℤ → ℕ
  calls : List (Call n C)
  applying : List (ApplyMsg C)
  delivered : List (ℤ × List C)

structure Cluster (n : ℕ) (C : Type*) where
  procs : Fin n → Process n C
  net : List (Packet n C)
  nextCall : ℕ

/-- The service starts from the saved snapshot. -/
def Process.boot [Inhabited C] (me : Fin n) (persister : Persister C) : Process n C :=
  let rf := make me persister
  { rf := rf
    numVotes := fun _ => 0
    calls := []
    applying := []
    delivered := [(rf.lastIncludedIndex, rf.curSnapshot)] }

def Process.serviceState (pr : Process n C) : List C :=
  (pr.delivered.head?.map Prod.snd).getD []

def Process.receive (pr : Process n C) : ApplyMsg C → Process n C
  | .command index command =>
    { pr with delivered := (index, pr.serviceState ++ [command]) :: pr.delivered }
  | .snapshot index _ data => { pr with delivered := (index, data) :: pr.delivered }

def Process.handle [Inhabited C] (pr : Process n C) : Request C → Process n C × Reply
  | .requestVote args =>
    ({ pr with rf := (requestVote pr.rf args).1 }, .requestVote (requestVote pr.rf args).2)
  | .appendEntries args =>
    ({ pr with rf := (appendEntries pr.rf args).1 }, .appendEntries (appendEntries pr.rf args).2)
  | .installSnapshot args =>
    ({ pr with rf := (installSnapshotHandler pr.rf args).1 },
      .installSnapshot (installSnapshotHandler pr.rf args).2)

/-- The vote goroutine goes on; it ignores whether the call succeeded, and a call without
an answer leaves the reply zero. -/
def Process.resumeVote (pr : Process n C) (call : Call n C) (reply : RequestVoteReply) :
    Process n C :=
  let result := voteReply pr.rf (pr.numVotes call.savedTerm) call.savedTerm reply
  { pr with
    rf := result.1
    numVotes := Function.update pr.numVotes call.savedTerm result.2 }

def Process.resume (pr : Process n C) (call : Call n C) : Option Reply → Option (Process n C)
  | none => match call.req with
    | .requestVote _ => some (pr.resumeVote call {})
    | .appendEntries _ => some pr
    | .installSnapshot _ => some pr
  | some rep => match call.req, rep with
    | .requestVote _, .requestVote reply => some (pr.resumeVote call reply)
    | .appendEntries args, .appendEntries reply =>
      (appendReply pr.rf call.server call.savedTerm args reply).map fun rf => { pr with rf := rf }
    | .installSnapshot args, .installSnapshot reply =>
      some { pr with rf := installReply pr.rf call.server call.savedTerm args reply }
    | _, _ => none

inductive Process.Resumed (pr : Process n C) (call : Call n C) : Option Reply → Process n C → Prop
  | vote {rep : Option Reply} (reply : RequestVoteReply) :
    Resumed pr call rep (pr.resumeVote call reply)
  | nothing : Resumed pr call none pr
  | append {args : AppendEntriesRequest C} {reply : AppendEntriesResponse} {rf : Raft n C} :
    call.req = .appendEntries args →
    appendReply pr.rf call.server call.savedTerm args reply = some rf →
    Resumed pr call (some (.appendEntries reply)) { pr with rf := rf }
  | install {args : InstallSnapshotRequest C} {reply : InstallSnapshotResponse} :
    call.req = .installSnapshot args →
    Resumed pr call (some (.installSnapshot reply))
      { pr with rf := installReply pr.rf call.server call.savedTerm args reply }

theorem Process.resumed {pr pr' : Process n C} {call : Call n C} {rep : Option Reply}
    (h : pr.resume call rep = some pr') : pr.Resumed call rep pr' := by
  obtain ⟨id, server, savedTerm, req⟩ := call
  cases rep with
  | none =>
    cases req <;> obtain rfl := Option.some.inj h
    · exact .vote {}
    · exact .nothing
    · exact .nothing
  | some rep =>
    cases req with
    | requestVote args => cases rep with
      | requestVote reply =>
        obtain rfl := Option.some.inj h
        exact .vote reply
      | appendEntries reply => cases h
      | installSnapshot reply => cases h
    | appendEntries args => cases rep with
      | requestVote reply => cases h
      | appendEntries reply =>
        obtain ⟨rf, hrf, rfl⟩ := Option.map_eq_some_iff.mp h
        exact .append rfl hrf
      | installSnapshot reply => cases h
    | installSnapshot args => cases rep with
      | requestVote reply => cases h
      | appendEntries reply => cases h
      | installSnapshot reply =>
        obtain rfl := Option.some.inj h
        exact .install rfl

def Process.awaiting (pr : Process n C) (id : ℕ) : Option (Call n C) :=
  pr.calls.find? (fun call => call.id == id)

def Process.finish (pr : Process n C) (id : ℕ) : Process n C :=
  { pr with calls := pr.calls.filter (fun call => call.id != id) }

def Cluster.set (s : Cluster n C) (p : Fin n) (pr : Process n C) : Cluster n C :=
  { s with procs := Function.update s.procs p pr }

/-- A new goroutine of `p` calls `dst`. -/
def Cluster.spawn (s : Cluster n C) (p dst : Fin n) (req : Request C) : Cluster n C :=
  let pr := s.procs p
  let call : Call n C := ⟨s.nextCall, dst, pr.rf.currentTerm, req⟩
  { procs := Function.update s.procs p { pr with calls := call :: pr.calls }
    net := .request s.nextCall p dst req :: s.net
    nextCall := s.nextCall + 1 }

def Cluster.spawnAll (s : Cluster n C) (p : Fin n) : List (Fin n × Request C) → Cluster n C
  | [] => s
  | (dst, req) :: rest => (s.spawn p dst req).spawnAll p rest

def others (p : Fin n) : List (Fin n) := (List.finRange n).filter (fun q => q ≠ p)

/-- The requests of one pass of `AppendEntriesRoutine`. -/
def routineRequests (rf : Raft n C) : List (Fin n) → Option (List (Fin n × Request C))
  | [] => some []
  | ind :: rest => do
    let req ← routineRequest rf ind
    let reqs ← routineRequests rf rest
    some ((ind, req) :: reqs)

/-- What can happen next. `deliver` and `lose` name a packet by its position in the
network, `snapshot` names a delivered index by its position in `delivered`, and
`crashIn e k` is a crash inside the operation `e`, after the first `k` of its saves. -/
inductive Event (n : ℕ) (C : Type*) where
  | ticker (p : Fin n)
  | appendEntriesRoutine (p : Fin n)
  | deliver (i : ℕ)
  | callFails (p : Fin n) (id : ℕ)
  | lose (i : ℕ)
  | start (p : Fin n) (command : C)
  | snapshot (p : Fin n) (k : ℕ)
  | apply (p : Fin n)
  | receive (p : Fin n)
  | crash (p : Fin n)
  | crashIn (e : Event n C) (k : ℕ)

def Cluster.actor (s : Cluster n C) : Event n C → Option (Fin n)
  | .ticker p | .appendEntriesRoutine p | .callFails p _ | .start p _ | .snapshot p _
  | .apply p | .receive p | .crash p => some p
  | .deliver i => match s.net[i]? with
    | some (.request _ _ dst _) => some dst
    | some (.reply _ dst _) => some dst
    | none => none
  | .lose _ | .crashIn _ _ => none

/-- The network after an event that does not get to send anything. -/
def Cluster.consume (s : Cluster n C) : Event n C → List (Packet n C)
  | .deliver i => s.net.eraseIdx i
  | _ => s.net

variable [Inhabited C]

def Cluster.deliver (s : Cluster n C) (i : ℕ) : Option (Cluster n C) :=
  match s.net[i]? with
  | none => none
  | some (.request id src dst req) =>
    let result := (s.procs dst).handle req
    some { s.set dst result.1 with net := .reply id src result.2 :: s.net.eraseIdx i }
  | some (.reply id dst rep) =>
    ((s.procs dst).awaiting id).bind fun call =>
      (((s.procs dst).finish id).resume call (some rep)).map fun pr =>
        { s.set dst pr with net := s.net.eraseIdx i }

def Cluster.step? (s : Cluster n C) : Event n C → Option (Cluster n C)
  | .ticker p =>
    let pr := s.procs p
    if pr.rf.currentRole = .leader then none
    else
      let result := startElection pr.rf
      let pr := { pr with
        rf := result.1
        numVotes := Function.update pr.numVotes result.1.currentTerm 1 }
      some ((s.set p pr).spawnAll p ((others p).map fun q => (q, .requestVote result.2)))
  | .appendEntriesRoutine p =>
    let rf := (s.procs p).rf
    if rf.currentRole = .leader then (routineRequests rf (others p)).map (s.spawnAll p) else none
  | .deliver i => s.deliver i
  | .callFails p id =>
    ((s.procs p).awaiting id).bind fun call =>
      (((s.procs p).finish id).resume call none).map (s.set p)
  | .lose i => if i < s.net.length then some { s with net := s.net.eraseIdx i } else none
  | .start p command =>
    let pr := s.procs p
    some (s.set p { pr with rf := (start pr.rf command).1 })
  | .snapshot p k =>
    let pr := s.procs p
    pr.delivered[k]?.bind fun d =>
      (snapshot pr.rf d.1 d.2).map fun rf => s.set p { pr with rf := rf }
  | .apply p =>
    let pr := s.procs p
    if pr.applying.isEmpty then
      (apply pr.rf).map fun result => s.set p { pr with rf := result.1, applying := result.2 }
    else none
  | .receive p =>
    let pr := s.procs p
    match pr.applying with
    | [] => none
    | msg :: rest => some (s.set p ({ pr with applying := rest }.receive msg))
  | .crash p => some (s.set p (Process.boot p (s.procs p).rf.persister))
  | .crashIn e k =>
    (s.actor e).bind fun p =>
      (s.step? e).map fun t =>
        let before := (s.procs p).rf.persister.saves
        let after := (t.procs p).rf.persister.saves
        { s.set p (Process.boot p ⟨after.drop (after.length - before.length - k)⟩) with
          net := s.consume e }

omit [Inhabited C] in
theorem mem_of_awaiting {pr : Process n C} {id : ℕ} {call : Call n C}
    (h : pr.awaiting id = some call) : call ∈ pr.calls ∧ call.id = id := by
  refine ⟨List.mem_of_find?_eq_some h, ?_⟩
  simpa using List.find?_some h

inductive Cluster.Action (s : Cluster n C) : Event n C → Cluster n C → Prop
  | ticker (p : Fin n) (hrole : (s.procs p).rf.currentRole ≠ .leader) :
    Action s (.ticker p) ((s.set p { s.procs p with
      rf := (startElection (s.procs p).rf).1
      numVotes := Function.update (s.procs p).numVotes
        (startElection (s.procs p).rf).1.currentTerm 1 }).spawnAll p
      ((others p).map fun q => (q, .requestVote (startElection (s.procs p).rf).2)))
  | routine {p : Fin n} {reqs : List (Fin n × Request C)}
    (hrole : (s.procs p).rf.currentRole = .leader)
    (hreqs : routineRequests (s.procs p).rf (others p) = some reqs) :
    Action s (.appendEntriesRoutine p) (s.spawnAll p reqs)
  | request {i id : ℕ} {src dst : Fin n} {req : Request C}
    (hpkt : s.net[i]? = some (.request id src dst req)) :
    Action s (.deliver i) { s.set dst ((s.procs dst).handle req).1 with
      net := .reply id src ((s.procs dst).handle req).2 :: s.net.eraseIdx i }
  | reply {i : ℕ} {dst : Fin n} {call : Call n C} {rep : Reply} {pr : Process n C}
    (hpkt : s.net[i]? = some (.reply call.id dst rep)) (hcall : call ∈ (s.procs dst).calls)
    (hres : ((s.procs dst).finish call.id).resume call (some rep) = some pr) :
    Action s (.deliver i) { s.set dst pr with net := s.net.eraseIdx i }
  | callFails {p : Fin n} {call : Call n C} {pr : Process n C} (hcall : call ∈ (s.procs p).calls)
    (hres : ((s.procs p).finish call.id).resume call none = some pr) :
    Action s (.callFails p call.id) (s.set p pr)
  | lose (i : ℕ) : Action s (.lose i) { s with net := s.net.eraseIdx i }
  | start (p : Fin n) (command : C) :
    Action s (.start p command)
      (s.set p { s.procs p with rf := (start (s.procs p).rf command).1 })
  | snapshot {p : Fin n} {k : ℕ} {d : ℤ × List C} {rf : Raft n C}
    (hd : (s.procs p).delivered[k]? = some d) (hrf : snapshot (s.procs p).rf d.1 d.2 = some rf) :
    Action s (.snapshot p k) (s.set p { s.procs p with rf := rf })
  | apply {p : Fin n} {result : Raft n C × List (ApplyMsg C)} (hidle : (s.procs p).applying = [])
    (hresult : apply (s.procs p).rf = some result) :
    Action s (.apply p) (s.set p { s.procs p with rf := result.1, applying := result.2 })
  | receive {p : Fin n} {msg : ApplyMsg C} {rest : List (ApplyMsg C)}
    (hmsgs : (s.procs p).applying = msg :: rest) :
    Action s (.receive p) (s.set p ({ s.procs p with applying := rest }.receive msg))
  | crash (p : Fin n) : Action s (.crash p) (s.set p (Process.boot p (s.procs p).rf.persister))
  | crashIn {e : Event n C} {p : Fin n} {t : Cluster n C} (k : ℕ) (hact : s.actor e = some p)
    (ht : s.step? e = some t) (ps : Persister C)
    (hps : ps = ⟨(t.procs p).rf.persister.saves.drop ((t.procs p).rf.persister.saves.length -
      (s.procs p).rf.persister.saves.length - k)⟩) :
    Action s (.crashIn e k) { s.set p (Process.boot p ps) with net := s.consume e }

theorem Cluster.action_of_deliver {s t : Cluster n C} {i : ℕ} (h : s.deliver i = some t) :
    s.Action (.deliver i) t := by
  unfold Cluster.deliver at h
  cases hpkt : s.net[i]? with
  | none => simp [hpkt] at h
  | some pkt =>
    cases pkt with
    | request id src dst req =>
      simp only [hpkt, Option.some.injEq] at h
      subst h
      exact .request hpkt
    | reply id dst rep =>
      simp only [hpkt] at h
      obtain ⟨call, hawait, h⟩ := Option.bind_eq_some_iff.mp h
      obtain ⟨pr, hres, rfl⟩ := Option.map_eq_some_iff.mp h
      obtain ⟨hcall, rfl⟩ := mem_of_awaiting hawait
      exact .reply hpkt hcall hres

theorem Cluster.action_of_step {s t : Cluster n C} {e : Event n C} (h : s.step? e = some t) :
    s.Action e t := by
  cases e with
  | ticker p =>
    simp only [Cluster.step?] at h
    split_ifs at h with hrole
    obtain rfl := Option.some.inj h
    exact .ticker p hrole
  | appendEntriesRoutine p =>
    simp only [Cluster.step?] at h
    split_ifs at h with hrole
    obtain ⟨reqs, hreqs, rfl⟩ := Option.map_eq_some_iff.mp h
    exact .routine hrole hreqs
  | deliver i => exact Cluster.action_of_deliver h
  | callFails p id =>
    obtain ⟨call, hawait, h⟩ := Option.bind_eq_some_iff.mp h
    obtain ⟨pr, hres, rfl⟩ := Option.map_eq_some_iff.mp h
    obtain ⟨hcall, rfl⟩ := mem_of_awaiting hawait
    exact .callFails hcall hres
  | lose i =>
    simp only [Cluster.step?] at h
    split_ifs at h
    obtain rfl := Option.some.inj h
    exact .lose i
  | start p command =>
    obtain rfl := Option.some.inj h
    exact .start p command
  | snapshot p k =>
    obtain ⟨d, hd, h⟩ := Option.bind_eq_some_iff.mp h
    obtain ⟨rf, hrf, rfl⟩ := Option.map_eq_some_iff.mp h
    exact .snapshot hd hrf
  | apply p =>
    simp only [Cluster.step?] at h
    split_ifs at h with hidle
    obtain ⟨result, hresult, rfl⟩ := Option.map_eq_some_iff.mp h
    exact .apply (List.isEmpty_iff.mp hidle) hresult
  | receive p =>
    simp only [Cluster.step?] at h
    split at h
    · cases h
    · next msg rest hmsgs =>
      obtain rfl := Option.some.inj h
      exact .receive hmsgs
  | crash p =>
    obtain rfl := Option.some.inj h
    exact .crash p
  | crashIn e k =>
    obtain ⟨p, hact, h⟩ := Option.bind_eq_some_iff.mp h
    obtain ⟨t, ht, rfl⟩ := Option.map_eq_some_iff.mp h
    exact .crashIn k hact ht _ rfl

/-- A delivered request is handled. -/
theorem Cluster.deliver_request {s t : Cluster n C} {i id : ℕ} {src p : Fin n} {req : Request C}
    (hpkt : s.net[i]? = some (.request id src p req)) (hstep : s.step? (.deliver i) = some t) :
    t.procs p = ((s.procs p).handle req).1 := by
  simp only [Cluster.step?, Cluster.deliver, hpkt, Option.some.injEq] at hstep
  rw [← hstep]
  exact Function.update_self _ _ _

/-- The goroutine that waits for a delivered reply goes on with it. -/
theorem Cluster.deliver_reply {s t : Cluster n C} {i id : ℕ} {p : Fin n} {rep : Reply}
    (hpkt : s.net[i]? = some (.reply id p rep)) (hstep : s.step? (.deliver i) = some t) :
    ∃ call ∈ (s.procs p).calls, call.id = id ∧
      ((s.procs p).finish id).resume call (some rep) = some (t.procs p) := by
  simp only [Cluster.step?, Cluster.deliver, hpkt] at hstep
  obtain ⟨call, hawait, hstep⟩ := Option.bind_eq_some_iff.mp hstep
  obtain ⟨pr, hres, rfl⟩ := Option.map_eq_some_iff.mp hstep
  obtain ⟨hcall, hid⟩ := mem_of_awaiting hawait
  refine ⟨call, hcall, hid, ?_⟩
  simpa only [Cluster.set, Function.update_self] using hres

def Step (s t : Cluster n C) : Prop := ∃ e, s.step? e = some t

def initial : Cluster n C where
  procs p := Process.boot p ⟨[]⟩
  net := []
  nextCall := 0

def Reached (s : Cluster n C) : Prop := Reachable (· = initial) Step s

def Cluster.run (s : Cluster n C) (es : List (Event n C)) : Option (Cluster n C) :=
  exec Cluster.step? s es

/-- A run that ends as a test says. -/
theorem Cluster.exists_of_run {s : Cluster n C} {es : List (Event n C)} {test : Cluster n C → Bool}
    (h : (s.run es).any test = true) : ∃ t, Relation.ReflTransGen Step s t ∧ test t = true :=
  exists_of_exec (fun _ e _ he => ⟨e, he⟩) h

end DistributedLabs.RaftCluster
