import DistributedLabs.KvExecution

/-!
# Requests that begin late

A `Call` may return to its clerk before the server has begun with the request, for example
when the clerk is cut off while the handler waits for a lock. Such a request may still begin
at any later time, also when the clerk has long returned. Together with the service we keep
the requests that may still begin so, and for every call the places in the log that `Start`
has given to its operations.
-/

namespace DistributedLabs.KvTraffic

open KvServer KvClerks Rsm RsmCluster Linearizability TransitionRuns

variable {n c : ℕ} {B : Type*}

/-- A request that its clerk has given up before it began. -/
structure Stray (n : ℕ) where
  call : ℕ
  server : Fin n
  req : Request
  deriving DecidableEq

/-- `Start` has put an operation for the call with the given number at the index. -/
structure Placement where
  call : ℕ
  index : ℤ
  op : Op Request
  deriving DecidableEq

structure Traffic (n c : ℕ) (B : Type*) where
  service : Service n c B
  strays : List (Stray n)
  placed : List Placement

inductive Event (n c : ℕ) where
  | service (e : KvClerks.Event n c)
  | late (i : ℕ) (id : ℤ)

def placements (s : Service n c B) (call : ℕ) (p : Fin n) (op : Op Request) : List Placement :=
  let ret := (RaftPeer.start (s.sys.raft.procs p).rf (.op op)).2
  if ret.2.2 then [⟨call, ret.1, op⟩] else []

variable (cfg : Setup n c B)

def givenUp (s : Service n c B) : KvClerks.Event n c → List (Stray n)
  | .fail k =>
    match (s.clerks k).pending, cfg.servers[(s.clerks k).leader]? with
    | some pend, some p =>
      if pend.rpc = .sent then [⟨pend.number, p, request (cfg.clerkId k) pend.input⟩] else []
    | _, _ => []
  | _ => []

def begun (s : Service n c B) : KvClerks.Event n c → List Placement
  | .begin k id =>
    match (s.clerks k).pending, cfg.servers[(s.clerks k).leader]? with
    | some pend, some p =>
      placements s pend.number p ⟨p, id, request (cfg.clerkId k) pend.input⟩
    | _, _ => []
  | _ => []

def Traffic.beginLate (x : Traffic n c B) (i : ℕ) (r : Stray n) (id : ℤ) (sys : KvSystem n B) :
    Traffic n c B where
  service := { x.service with
    sys := sys
    origin := Function.update x.service.origin id (some r.call) }
  strays := x.strays.eraseIdx i
  placed := x.placed ++ placements x.service r.call r.server ⟨r.server, id, r.req⟩

def Traffic.step? (x : Traffic n c B) : Event n c → Option (Traffic n c B)
  | .service e => (x.service.step? cfg e).map fun s =>
      ⟨s, x.strays ++ givenUp cfg x.service e, x.placed ++ begun cfg x.service e⟩
  | .late i id => x.strays[i]?.bind fun r =>
      (x.service.sys.step? (machine cfg.codec) (.submit r.server id r.req)).map
        (x.beginLate i r id)

def Step (ok : Traffic n c B → Event n c → Prop) (x y : Traffic n c B) : Prop :=
  ∃ e, ok x e ∧ x.step? cfg e = some y

def initial : Traffic n c B := ⟨KvClerks.initial cfg, [], []⟩

def Reached (ok : Traffic n c B → Event n c → Prop) (x : Traffic n c B) : Prop :=
  Reachable (· = initial cfg) (Step cfg ok) x

def anyEvent (_ : Traffic n c B) (_ : Event n c) : Prop := True

def DistinctIds (x : Traffic n c B) : Event n c → Prop
  | .service e => DistinctOpIds x.service e
  | .late _ id => x.service.origin id = none

instance (x : Traffic n c B) (e : Event n c) : Decidable (anyEvent x e) := .isTrue trivial

instance (x : Traffic n c B) : (e : Event n c) → Decidable (DistinctIds x e)
  | .service e => inferInstanceAs (Decidable (DistinctOpIds x.service e))
  | .late _ id => inferInstanceAs (Decidable (x.service.origin id = none))

section Runs

variable (ok : Traffic n c B → Event n c → Prop) [∀ x e, Decidable (ok x e)]

def Traffic.run (x : Traffic n c B) (es : List (Event n c)) : Option (Traffic n c B) :=
  exec (fun x e => if ok x e then x.step? cfg e else none) x es

variable {cfg ok} {x : Traffic n c B}

/-- A run that ends as a test says. -/
theorem Traffic.exists_of_run {es : List (Event n c)} {test : Traffic n c B → Bool}
    (h : (x.run cfg ok es).any test = true) :
    ∃ y, Relation.ReflTransGen (Step cfg ok) x y ∧ test y = true := by
  refine exists_of_exec (fun x e y he => ?_) h
  split_ifs at he with hok
  exact ⟨e, hok, he⟩

end Runs

section Actions

inductive Action (x : Traffic n c B) : Event n c → Traffic n c B → Prop
  | servers {e : RsmCluster.Event n Request} {sys : KvSystem n B}
      (hno : ∀ p id req, e ≠ .submit p id req)
      (h : x.service.sys.step? (machine cfg.codec) e = some sys) :
      Action x (.service (.sys e)) ⟨{ x.service with
        sys := sys
        clerks := fun k => (x.service.clerks k).restart (x.service.sys.restarted e) },
        x.strays, x.placed⟩
  | invoke {k : Fin c} {input : KvInput} (hidle : (x.service.clerks k).pending = none) :
      Action x (.service (.invoke k input)) ⟨x.service.invoke k input, x.strays, x.placed⟩
  | begin {k : Fin c} {id : ℤ} {pend : Pending n} {p : Fin n} {sys : KvSystem n B}
      (hpend : (x.service.clerks k).pending = some pend) (hrpc : pend.rpc = .sent)
      (h : x.service.sys.step? (machine cfg.codec)
        (.submit p id (request (cfg.clerkId k) pend.input)) = some sys) :
      Action x (.service (.begin k id)) ⟨x.service.begin k pend id p sys, x.strays,
        x.placed ++ placements x.service pend.number p
          ⟨p, id, request (cfg.clerkId k) pend.input⟩⟩
  | answer {k : Fin c} {pend : Pending n} {p : Fin n} {channel : ℕ}
      {sub : Submit Request Reply} {result : Result Reply}
      (hpend : (x.service.clerks k).pending = some pend) (hrpc : pend.rpc = .running p channel)
      (hsub : (x.service.sys.servers p).submits[channel]? = some sub)
      (hstage : sub.stage = .returned result) :
      Action x (.service (.answer k)) ⟨x.service.setClerk k { x.service.clerks k with
        pending := some { pend with rpc := .replied (handler pend.input result) } },
        x.strays, x.placed⟩
  | returns {k : Fin c} {pend : Pending n} {reply : Reply} {output : KvOutput}
      (hpend : (x.service.clerks k).pending = some pend) (hrpc : pend.rpc = .replied reply)
      (hturn : turn pend.input pend.isRetry (some reply) = some output) :
      Action x (.service (.reply k)) ⟨x.service.return k pend output, x.strays, x.placed⟩
  | retries {e : KvClerks.Event n c} {k : Fin c} {pend : Pending n} {leader : ℕ}
      {strays : List (Stray n)} (hpend : (x.service.clerks k).pending = some pend)
      (hstrays : ∀ r ∈ strays, r.call = pend.number ∧
        r.req = request (cfg.clerkId k) pend.input) :
      Action x (.service e) ⟨x.service.setClerk k {
        leader := leader, pending := some { pend with isRetry := true, rpc := .sent } },
        x.strays ++ strays, x.placed⟩
  | late {i : ℕ} {r : Stray n} {id : ℤ} {sys : KvSystem n B} (hr : x.strays[i]? = some r)
      (h : x.service.sys.step? (machine cfg.codec) (.submit r.server id r.req) = some sys) :
      Action x (.late i id) (x.beginLate i r id sys)

variable {cfg} {x y : Traffic n c B}

theorem givenUp_fail {s : Service n c B} {k : Fin c} {pend : Pending n}
    (hpend : (s.clerks k).pending = some pend) :
    ∀ r ∈ givenUp cfg s (.fail k), r.call = pend.number ∧
      r.req = request (cfg.clerkId k) pend.input := by
  intro r hr
  simp only [givenUp, hpend] at hr
  split at hr
  · next hsome hp =>
    obtain rfl := Option.some.inj hsome
    split_ifs at hr
    · obtain rfl := List.mem_singleton.mp hr
      exact ⟨rfl, rfl⟩
    · cases hr
  · cases hr

/-- Every step is an action. -/
theorem step_action {e : Event n c} (h : x.step? cfg e = some y) : Action cfg x e y := by
  cases e with
  | late i id =>
    obtain ⟨r, hr, h⟩ := Option.bind_eq_some_iff.mp h
    obtain ⟨sys, hsys, rfl⟩ := Option.map_eq_some_iff.mp h
    exact .late hr hsys
  | service e =>
    obtain ⟨s, hs, rfl⟩ := Option.map_eq_some_iff.mp h
    cases e with
    | sys e =>
      have hno : ∀ p id req, e ≠ .submit p id req := by
        rintro p id req rfl
        cases hs
      have hstep : x.service.stepServers cfg e = some s := by
        cases e <;> first | exact hs | exact absurd rfl (hno _ _ _)
      obtain ⟨sys, hsys, rfl⟩ := Option.map_eq_some_iff.mp hstep
      simpa [givenUp, begun] using Action.servers hno hsys
    | invoke k input =>
      simp only [Service.step?] at hs
      split at hs
      · cases hs
      · next hidle =>
        obtain rfl := Option.some.inj hs
        simpa [givenUp, begun] using Action.invoke hidle
    | begin k id =>
      obtain ⟨pend, hpend, hs⟩ := Option.bind_eq_some_iff.mp hs
      split at hs
      · next hrpc =>
        obtain ⟨p, hp, hs⟩ := Option.bind_eq_some_iff.mp hs
        obtain ⟨sys, hsys, rfl⟩ := Option.map_eq_some_iff.mp hs
        simpa [givenUp, begun, hpend, hp] using Action.begin hpend hrpc hsys
      · cases hs
    | answer k =>
      obtain ⟨pend, hpend, hs⟩ := Option.bind_eq_some_iff.mp hs
      split at hs
      · next p channel hrpc =>
        obtain ⟨sub, hsub, hs⟩ := Option.bind_eq_some_iff.mp hs
        split at hs
        · next result hstage =>
          obtain rfl := Option.some.inj hs
          simpa [givenUp, begun] using Action.answer hpend hrpc hsub hstage
        · cases hs
      · cases hs
    | reply k =>
      obtain ⟨pend, hpend, hs⟩ := Option.bind_eq_some_iff.mp hs
      split at hs
      · next reply hrpc =>
        obtain rfl := Option.some.inj hs
        unfold Service.resume
        split
        · next output hturn => simpa [givenUp, begun] using Action.returns hpend hrpc hturn
        · have hnone : ∀ r ∈ givenUp cfg x.service (.reply k), r.call = pend.number ∧
              r.req = request (cfg.clerkId k) pend.input := by
            intro r hr
            cases hr
          simpa [begun] using Action.retries hpend hnone
      · cases hs
    | fail k =>
      obtain ⟨pend, hpend, rfl⟩ := Option.map_eq_some_iff.mp hs
      unfold Service.resume
      rw [turn_none]
      simpa [begun] using Action.retries hpend (givenUp_fail hpend)

/-- The call that a clerk is in is recorded, and it is open. -/
def Calls (s : Service n c B) : Prop :=
  ∀ k i input, (s.clerks k).call = some (i, input) →
    ∃ op, s.history[i]? = some op ∧ op.client = k ∧ op.input = input ∧ op.result = none

theorem Calls.pending {s : Service n c B} (hs : Calls s) {k : Fin c} {pend : Pending n}
    (hpend : (s.clerks k).pending = some pend) : ∃ op, s.history[pend.number]? = some op ∧
      op.client = k ∧ op.input = pend.input ∧ op.result = none :=
  hs k _ _ (Clerk.call_of_pending hpend)

/-- Clerks are in different calls. -/
theorem Calls.number_ne {s : Service n c B} (hs : Calls s) {j k : Fin c} {pend pend' : Pending n}
    (hpend : (s.clerks j).pending = some pend) (hpend' : (s.clerks k).pending = some pend')
    (hjk : j ≠ k) : pend.number ≠ pend'.number := by
  intro heq
  obtain ⟨op, hop, hclient, -⟩ := hs.pending hpend
  obtain ⟨op', hop', hclient', -⟩ := hs.pending hpend'
  rw [heq] at hop
  obtain rfl := Option.some.inj (hop.symm.trans hop')
  exact hjk (hclient.symm.trans hclient')

theorem Calls.congr {s t : Service n c B} (hs : Calls s) (hhistory : t.history = s.history)
    (hcall : ∀ k, (t.clerks k).call = (s.clerks k).call) : Calls t := by
  simpa only [Calls, hhistory, hcall] using hs

/-- Calls stay in the history, with what they have returned. -/
theorem Action.history {e : Event n c} (ha : Action cfg x e y) (hs : Calls x.service) {i : ℕ}
    {op : Operation (Fin c) KvInput KvOutput} (hop : x.service.history[i]? = some op) :
    ∃ op', y.service.history[i]? = some op' ∧ op'.client = op.client ∧ op'.input = op.input ∧
      (op.result = none ∨ op' = op) := by
  cases ha with
  | invoke hidle =>
    refine ⟨op, ?_, rfl, rfl, Or.inr rfl⟩
    simpa only [Service.invoke_history,
      List.getElem?_append_left (List.getElem?_eq_some_iff.mp hop).1] using hop
  | @returns k pend reply output hpend hrpc hturn =>
    by_cases hi : i = pend.number
    · subst hi
      obtain ⟨op₀, hop₀, -, -, hres⟩ := hs.pending hpend
      obtain rfl := Option.some.inj (hop.symm.trans hop₀)
      exact ⟨{ op with result := some (output, x.service.clock) }, getElem?_return_self hop, rfl,
        rfl, Or.inl hres⟩
    · exact ⟨op, (getElem?_return_of_ne hi).trans hop, rfl, rfl, Or.inr rfl⟩
  | servers hno h => exact ⟨op, hop, rfl, rfl, Or.inr rfl⟩
  | begin hpend hrpc h => exact ⟨op, hop, rfl, rfl, Or.inr rfl⟩
  | answer hpend hrpc hsub hstage => exact ⟨op, hop, rfl, rfl, Or.inr rfl⟩
  | retries hpend hstrays => exact ⟨op, hop, rfl, rfl, Or.inr rfl⟩
  | late hr h => exact ⟨op, hop, rfl, rfl, Or.inr rfl⟩

/-- Every action keeps the calls recorded. -/
theorem Action.calls {e : Event n c} (ha : Action cfg x e y) (hs : Calls x.service) :
    Calls y.service := by
  cases ha with
  | servers hno h => exact hs.congr rfl fun k => Clerk.restart_call _ _
  | begin hpend hrpc h => exact hs.congr rfl (setClerk_call hpend rfl rfl)
  | answer hpend hrpc hsub hstage => exact hs.congr rfl (setClerk_call hpend rfl rfl)
  | retries hpend hstrays => exact hs.congr rfl (setClerk_call hpend rfl rfl)
  | late hr h => exact hs
  | @invoke k input hidle =>
    intro j i inp hj
    rw [Service.invoke_call] at hj
    split_ifs at hj with hjk
    · subst hjk
      obtain ⟨rfl, rfl⟩ := Prod.mk.inj (Option.some.inj hj)
      exact ⟨_, List.getElem?_concat_length, rfl, rfl, rfl⟩
    · obtain ⟨op, hop, hrest⟩ := hs j i inp hj
      refine ⟨op, ?_, hrest⟩
      rwa [Service.invoke_history,
        List.getElem?_append_left (List.getElem?_eq_some_iff.mp hop).1]
  | @returns k pend reply output hpend hrpc hturn =>
    intro j i inp hj
    rw [Service.return_call] at hj
    split_ifs at hj with hjk
    obtain ⟨op, hop, hclient, hrest⟩ := hs j i inp hj
    refine ⟨op, (getElem?_return_of_ne ?_).trans hop, hclient, hrest⟩
    rintro rfl
    obtain ⟨op', hop', hclient', -⟩ := hs.pending hpend
    obtain rfl := Option.some.inj (hop.symm.trans hop')
    exact hjk (hclient.symm.trans hclient')

theorem calls_initial : Calls (KvClerks.initial cfg) := nofun

end Actions

end DistributedLabs.KvTraffic
