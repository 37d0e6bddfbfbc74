import DistributedLabs.KvLinearizability
import DistributedLabs.KvTraffic
import DistributedLabs.KvVersions
import DistributedLabs.RsmIndexReplies

/-!
# A `Put` is applied at most once

All operations of a call carry the same request, and the versions of a key are written once
each, so at most one of them is stored. A call that returns `ErrVersion` was sent once. Its
only operation has an index, and the reply comes from what was executed there, whether or
not that is this operation.
-/

namespace DistributedLabs.KvTraffic

open KvServer KvClerks KvVersions Rsm RsmCluster RaftRefinement TermLogProtocol Linearizability
  TransitionRuns LogPrefixes

variable {n c : ℕ} {B : Type*} {cfg : Setup n c B} {x y z : Traffic n c B}
  {a b : Proto n (Command Request)}

def Refused (cfg : Setup n c B) (a : Proto n (Command Request)) (i : ℤ) : Prop :=
  ∃ l o, Applied a i (l ++ [.op o]) ∧
    ((machine cfg.codec).doOp (replay (machine cfg.codec) l) o.req).2 = .put ⟨.errVersion⟩

/-- Nothing of the call may still begin, and where its operations were put, the executed ones
were refused. -/
structure Clean (cfg : Setup n c B) (x : Traffic n c B) (a : Proto n (Command Request)) (j : ℕ) :
    Prop where
  strays : ∀ r ∈ x.strays, r.call ≠ j
  placed : ∀ pl ∈ x.placed, pl.call = j → Refused cfg a pl.index

def Attempt (cfg : Setup n c B) (x : Traffic n c B) (a : Proto n (Command Request))
    (pend : Pending n) : Prop :=
  match pend.rpc with
  | .sent => ∀ pl ∈ x.placed, pl.call ≠ pend.number
  | .running p channel => ∃ sub, (x.service.sys.servers p).submits[channel]? = some sub ∧
      ∀ pl ∈ x.placed, pl.call = pend.number → pl.index = sub.commitIndex
  | .replied reply => reply = .put ⟨.errVersion⟩ →
      ∀ pl ∈ x.placed, pl.call = pend.number → Refused cfg a pl.index
  | .lost => True

def Belongs (cfg : Setup n c B) (s : Service n c B) (j : ℕ) (req : Request) : Prop :=
  ∃ op, s.history[j]? = some op ∧ req = request (cfg.clerkId op.client) op.input

/-- Operations are put in the log for calls, and calls that were sent once are clean when they
return `ErrVersion`. -/
structure Once (cfg : Setup n c B) (x : Traffic n c B) (a : Proto n (Command Request)) : Prop where
  calls : Calls x.service
  hearing : Hearing (machine cfg.codec) x.service.sys a
  placed : ∀ pl ∈ x.placed, Belongs cfg x.service pl.call pl.op.req
  strays : ∀ r ∈ x.strays, Belongs cfg x.service r.call r.req
  first : ∀ k pend, (x.service.clerks k).pending = some pend → pend.isRetry = false →
    (∀ r ∈ x.strays, r.call ≠ pend.number) ∧ Attempt cfg x a pend
  refused : ∀ j op r, x.service.history[j]? = some op → op.result = some r →
    r.1.err = .errVersion → Clean cfg x a j

section Extension

theorem Refused.grows {i : ℤ} (h : Refused cfg a i) (hg : Grows a b) : Refused cfg b i := by
  obtain ⟨l, o, happ, hrep⟩ := h
  exact ⟨l, o, happ.grows hg, hrep⟩

structure Unmoved (x y : Traffic n c B) (j : ℕ) : Prop where
  strays : ∀ r ∈ y.strays, r.call = j → r ∈ x.strays
  placed : ∀ pl ∈ y.placed, pl.call = j → pl ∈ x.placed

theorem Clean.extend {j : ℕ} (h : Clean cfg x a j) (hu : Unmoved x y j) (hg : Grows a b) :
    Clean cfg y b j where
  strays r hr hj := h.strays r (hu.strays r hr hj) hj
  placed pl hpl hj := (h.placed pl (hu.placed pl hpl hj) hj).grows hg

theorem Attempt.extend {pend : Pending n} (h : Attempt cfg x a pend)
    (hu : Unmoved x y pend.number) (hg : Grows a b) (restarted : Option (Fin n))
    (hkept : ∀ p (k : ℕ) sub, restarted ≠ some p →
      (x.service.sys.servers p).submits[k]? = some sub →
      ∃ sub', (y.service.sys.servers p).submits[k]? = some sub' ∧ sub'.op = sub.op ∧
        sub'.commitIndex = sub.commitIndex) :
    Attempt cfg y b { pend with rpc := pend.rpc.restart restarted } := by
  obtain ⟨number, input, isRetry, rpc⟩ := pend
  cases rpc with
  | sent => exact fun pl hpl hj => h pl (hu.placed pl hpl hj) hj
  | lost => trivial
  | running p channel =>
    simp only [Rpc.restart]
    split_ifs with hp
    · trivial
    · obtain ⟨sub, hsub, hplaced⟩ := h
      obtain ⟨sub', hsub', -, hindex⟩ := hkept p channel sub hp hsub
      refine ⟨sub', hsub', fun pl hpl hj => ?_⟩
      rw [hindex]
      exact hplaced pl (hu.placed pl hpl hj) hj
  | replied reply =>
    exact fun hrep pl hpl hj => (h hrep pl (hu.placed pl hpl hj) hj).grows hg

/-- Where nothing restarts. -/
theorem Attempt.extend_running {pend : Pending n} (h : Attempt cfg x a pend)
    (hu : Unmoved x y pend.number) (hg : Grows a b)
    (hkept : ∀ p (k : ℕ) sub, (x.service.sys.servers p).submits[k]? = some sub →
      ∃ sub', (y.service.sys.servers p).submits[k]? = some sub' ∧ sub'.op = sub.op ∧
        sub'.commitIndex = sub.commitIndex) :
    Attempt cfg y b pend := by
  have := h.extend hu hg none fun p k sub _ => hkept p k sub
  rwa [Rpc.restart_none] at this

theorem Belongs.extend {e : Event n c} {j : ℕ} {req : Request} (h : Belongs cfg x.service j req)
    (ha : Action cfg x e y) (hs : Calls x.service) : Belongs cfg y.service j req := by
  obtain ⟨op, hop, hreq⟩ := h
  obtain ⟨op', hop', hclient, hinput, -⟩ := ha.history hs hop
  exact ⟨op', hop', by rw [hclient, hinput, hreq]⟩

theorem Belongs.lt {j : ℕ} {req : Request} {s : Service n c B} (h : Belongs cfg s j req) :
    j < s.history.length := by
  obtain ⟨op, hop, -⟩ := h
  exact (List.getElem?_eq_some_iff.mp hop).1

/-- A call that has returned is not one that a clerk is in. -/
theorem number_ne_of_result {s : Service n c B} (hs : Calls s) {k : Fin c} {pend : Pending n}
    (hpend : (s.clerks k).pending = some pend) {j : ℕ} {op : Operation (Fin c) KvInput KvOutput}
    {r : KvOutput × ℕ} (hop : s.history[j]? = some op) (hr : op.result = some r) :
    j ≠ pend.number := by
  rintro rfl
  obtain ⟨op', hop', -, -, hnone⟩ := hs.pending hpend
  obtain rfl := Option.some.inj (hop.symm.trans hop')
  rw [hr] at hnone
  cases hnone

end Extension

section Steps

/-- The requests on their way and the operations in the log go on belonging to their calls. -/
theorem Once.belongs {e : Event n c} (hs : Once cfg x a) (ha : Action cfg x e y)
    (hplaced : ∀ pl ∈ y.placed, pl ∈ x.placed ∨ Belongs cfg x.service pl.call pl.op.req)
    (hstrays : ∀ r ∈ y.strays, r ∈ x.strays ∨ Belongs cfg x.service r.call r.req) :
    (∀ pl ∈ y.placed, Belongs cfg y.service pl.call pl.op.req) ∧
      ∀ r ∈ y.strays, Belongs cfg y.service r.call r.req := by
  constructor
  · intro pl hpl
    rcases hplaced pl hpl with hold | hnew
    · exact (hs.placed pl hold).extend ha hs.calls
    · exact hnew.extend ha hs.calls
  · intro r hr
    rcases hstrays r hr with hold | hnew
    · exact (hs.strays r hold).extend ha hs.calls
    · exact hnew.extend ha hs.calls

theorem unmoved_of_service (x : Traffic n c B) (s : Service n c B) (j : ℕ) :
    Unmoved x ⟨s, x.strays, x.placed⟩ j where
  strays _ hr _ := hr
  placed _ hpl _ := hpl

theorem Once.servers (hcodec : cfg.codec.Lawful) (hs : Once cfg x a)
    {e : RsmCluster.Event n Request} {sys : KvSystem n B}
    (hno : ∀ p id req, e ≠ .submit p id req)
    (h : x.service.sys.step? (machine cfg.codec) e = some sys) :
    ∃ b, Once cfg ⟨{ x.service with
      sys := sys
      clerks := fun k => (x.service.clerks k).restart (x.service.sys.restarted e) },
      x.strays, x.placed⟩ b ∧ Grows a b := by
  obtain ⟨b, hb, hg⟩ := hs.hearing.step (machine_lawful hcodec) h
  have ha : Action cfg x (.service (.sys e)) _ := .servers hno h
  obtain ⟨hplaced, hstrays⟩ := hs.belongs ha (fun _ => Or.inl) (fun _ => Or.inl)
  refine ⟨b, ⟨ha.calls hs.calls, hb, hplaced, hstrays, fun k pend hpend hfirst => ?_,
    fun j op r hop hr herr => (hs.refused j op r hop hr herr).extend (unmoved_of_service x _ j) hg⟩,
    hg⟩
  obtain ⟨pend₀, hpend₀, rfl⟩ := Option.map_eq_some_iff.mp hpend
  obtain ⟨hstray, hattempt⟩ := hs.first k pend₀ hpend₀ hfirst
  exact ⟨hstray, hattempt.extend (unmoved_of_service x _ _) hg _
    fun p k sub hp => step_submit_kept h hp⟩

theorem Once.invoke (hs : Once cfg x a) {k : Fin c} {input : KvInput}
    (hidle : (x.service.clerks k).pending = none) :
    Once cfg ⟨x.service.invoke k input, x.strays, x.placed⟩ a := by
  have ha : Action cfg x (.service (.invoke k input)) _ := .invoke hidle
  obtain ⟨hplaced, hstrays⟩ := hs.belongs ha (fun _ => Or.inl) (fun _ => Or.inl)
  refine ⟨ha.calls hs.calls, hs.hearing, hplaced, hstrays, fun j pend hpend hfirst => ?_,
    fun j op r hop hr herr => ?_⟩
  · rcases setClerk_pending hpend with ⟨-, hpend⟩ | ⟨-, hpend⟩
    · obtain rfl := Option.some.inj hpend
      exact ⟨fun r hr => (hs.strays r hr).lt.ne, fun pl hpl => (hs.placed pl hpl).lt.ne⟩
    · obtain ⟨hstray, hattempt⟩ := hs.first j pend hpend hfirst
      exact ⟨hstray, hattempt.extend_running (unmoved_of_service x _ _) (Grows.refl a)
        fun p k sub hsub => ⟨sub, hsub, rfl, rfl⟩⟩
  · rcases getElem?_concat_cases hop with ⟨-, rfl⟩ | hold
    · cases hr
    · exact (hs.refused j op r hold hr herr).extend (unmoved_of_service x _ j) (Grows.refl a)

/-- What `Start` adds is the given operation for the given call, at the index it returns. -/
theorem mem_placements {s : Service n c B} {call : ℕ} {p : Fin n} {op : Op Request}
    {pl : Placement} (h : pl ∈ placements s call p op) : pl.call = call ∧ pl.op = op ∧
      pl.index = (RaftPeer.start (s.sys.raft.procs p).rf (.op op)).2.1 := by
  simp only [placements] at h
  split_ifs at h
  · obtain rfl := List.mem_singleton.mp h
    exact ⟨rfl, rfl, rfl⟩
  · cases h

theorem Once.begin (hcodec : cfg.codec.Lawful) (hs : Once cfg x a) {k : Fin c} {id : ℤ}
    {pend : Pending n} {p : Fin n} {sys : KvSystem n B}
    (hpend : (x.service.clerks k).pending = some pend) (hrpc : pend.rpc = .sent)
    (h : x.service.sys.step? (machine cfg.codec)
      (.submit p id (request (cfg.clerkId k) pend.input)) = some sys) :
    ∃ b, Once cfg ⟨x.service.begin k pend id p sys, x.strays, x.placed ++
      placements x.service pend.number p ⟨p, id, request (cfg.clerkId k) pend.input⟩⟩ b ∧
      Grows a b := by
  obtain ⟨b, hb, hg⟩ := hs.hearing.step (machine_lawful hcodec) h
  have ha := Action.begin hpend hrpc h
  obtain ⟨op₀, hop₀, hclient, hinput, -⟩ := hs.calls.pending hpend
  obtain ⟨hplaced, hstrays⟩ := hs.belongs ha
    (fun pl hpl => (List.mem_append.mp hpl).imp_right fun hnew => by
      obtain ⟨hcall, hop, -⟩ := mem_placements hnew
      exact ⟨op₀, by rw [hcall]; exact hop₀, by rw [hop, hclient, hinput]⟩)
    (fun _ => Or.inl)
  have hunmoved : ∀ j, j ≠ pend.number → Unmoved x ⟨x.service.begin k pend id p sys, x.strays,
      x.placed ++ placements x.service pend.number p
        ⟨p, id, request (cfg.clerkId k) pend.input⟩⟩ j := by
    intro j hj
    refine ⟨fun r hr _ => hr, fun pl hpl hcall => (List.mem_append.mp hpl).resolve_right ?_⟩
    exact fun hnew => hj (hcall.symm.trans (mem_placements hnew).1)
  refine ⟨b, ⟨ha.calls hs.calls, hb, hplaced, hstrays, fun j pj hpj hfirst => ?_,
    fun j op r hop hr herr => ?_⟩, hg⟩
  · rcases setClerk_pending hpj with ⟨-, hpj⟩ | ⟨hj, hpj⟩
    · obtain rfl := Option.some.inj hpj
      obtain ⟨hstray, hattempt⟩ := hs.first k pend hpend hfirst
      simp only [Attempt, hrpc] at hattempt
      obtain ⟨sub, hsub, -, hindex⟩ := step_submit_last h
      refine ⟨hstray, sub, hsub, fun pl hpl hcall => ?_⟩
      rcases List.mem_append.mp hpl with hold | hnew
      · exact absurd hcall (hattempt pl hold)
      · rw [hindex, (mem_placements hnew).2.2]
    · obtain ⟨hstray, hattempt⟩ := hs.first j pj hpj hfirst
      exact ⟨hstray, hattempt.extend_running (hunmoved _ (hs.calls.number_ne hpj hpend hj)) hg
        fun q i sub => step_submit_kept h (by simp [System.restarted])⟩
  · exact (hs.refused j op r hop hr herr).extend
      (hunmoved j (number_ne_of_result hs.calls hpend hop hr)) hg

/-- A clerk goes on with its call, and requests of this call may be left behind. -/
theorem Once.proceed (hs : Once cfg x a) {e : Event n c} {k : Fin c} {pend pend' : Pending n}
    {leader : ℕ} {strays : List (Stray n)}
    (ha : Action cfg x e ⟨x.service.setClerk k ⟨leader, some pend'⟩, x.strays ++ strays, x.placed⟩)
    (hpend : (x.service.clerks k).pending = some pend)
    (hstrays : ∀ r ∈ strays, r.call = pend.number ∧ r.req = request (cfg.clerkId k) pend.input)
    (hnew : pend'.isRetry = false →
      (∀ r ∈ x.strays ++ strays, r.call ≠ pend'.number) ∧ Attempt cfg x a pend') :
    Once cfg ⟨x.service.setClerk k ⟨leader, some pend'⟩, x.strays ++ strays, x.placed⟩ a := by
  obtain ⟨op₀, hop₀, hclient, hinput, -⟩ := hs.calls.pending hpend
  obtain ⟨hplaced, hbelongs⟩ := hs.belongs ha (fun _ => Or.inl)
    (fun r hr => (List.mem_append.mp hr).imp_right fun hnew => by
      obtain ⟨hcall, hreq⟩ := hstrays r hnew
      exact ⟨op₀, by rw [hcall]; exact hop₀, by rw [hreq, hclient, hinput]⟩)
  have hunmoved : ∀ j, j ≠ pend.number → Unmoved x
      ⟨x.service.setClerk k ⟨leader, some pend'⟩, x.strays ++ strays, x.placed⟩ j := by
    intro j hj
    refine ⟨fun r hr hcall => (List.mem_append.mp hr).resolve_right ?_, fun _ hpl _ => hpl⟩
    exact fun hnew => hj (hcall.symm.trans (hstrays r hnew).1)
  refine ⟨ha.calls hs.calls, hs.hearing, hplaced, hbelongs, fun j pj hpj hfirst => ?_,
    fun j op r hop hr herr => ?_⟩
  · rcases setClerk_pending hpj with ⟨-, hpj⟩ | ⟨hj, hpj⟩
    · obtain rfl := Option.some.inj hpj
      exact hnew hfirst
    · obtain ⟨hstray, hattempt⟩ := hs.first j pj hpj hfirst
      have hu := hunmoved _ (hs.calls.number_ne hpj hpend hj)
      exact ⟨fun r hr hcall => hstray r (hu.strays r hr hcall) hcall,
        hattempt.extend_running hu (Grows.refl a) fun p k sub hsub => ⟨sub, hsub, rfl, rfl⟩⟩
  · exact (hs.refused j op r hop hr herr).extend
      (hunmoved j (number_ne_of_result hs.calls hpend hop hr)) (Grows.refl a)

theorem errVersion_of_handler {inp : KvInput} {result : Result Reply}
    (h : handler inp result = .put ⟨.errVersion⟩) : result = .ok (.put ⟨.errVersion⟩) := by
  unfold handler at h
  cases hop : inp.op with
  | get => simp [hop] at h
  | put =>
    simp only [hop, Reply.put.injEq] at h
    match result, h with
    | .ok (.put resp), h => rw [show resp = ⟨.errVersion⟩ from h]

/-- What a `Submit` has returned comes from its index. -/
theorem Once.answered (hs : Once cfg x a) {k : Fin c} {pend : Pending n} {p : Fin n} {channel : ℕ}
    {sub : Submit Request Reply} {result : Result Reply}
    (hpend : (x.service.clerks k).pending = some pend) (hrpc : pend.rpc = .running p channel)
    (hsub : (x.service.sys.servers p).submits[channel]? = some sub)
    (hstage : sub.stage = .returned result) (hfirst : pend.isRetry = false) :
    (∀ r ∈ x.strays, r.call ≠ pend.number) ∧
      Attempt cfg x a { pend with rpc := .replied (handler pend.input result) } := by
  obtain ⟨hstray, hattempt⟩ := hs.first k pend hpend hfirst
  simp only [Attempt, hrpc] at hattempt
  obtain ⟨sub', hsub', hindex⟩ := hattempt
  obtain rfl := Option.some.inj (hsub.symm.trans hsub')
  refine ⟨hstray, fun hrep pl hpl hcall => ?_⟩
  rw [errVersion_of_handler hrep] at hstage
  obtain ⟨l, o, hl, heq⟩ := (hs.hearing.heard p).returned channel sub _ hsub hstage
  rw [hindex pl hpl hcall]
  exact ⟨l, o, (hs.hearing.related.delivered_mem hl).1, heq.symm⟩

/-- A clerk returns `ErrVersion` for this reply to its first request only. -/
theorem turn_errVersion {inp : KvInput} {isRetry : Bool} {reply : Reply} {out : KvOutput}
    (h : turn inp isRetry (some reply) = some out) (herr : out.err = .errVersion) :
    isRetry = false ∧ reply = .put ⟨.errVersion⟩ := by
  unfold turn at h
  cases hop : inp.op with
  | get =>
    cases reply with
    | get reply =>
      simp only [hop, getTurn] at h
      split_ifs at h with hno hok
      · rw [← Option.some.inj h] at herr
        cases herr
      · rw [← Option.some.inj h, hok] at herr
        cases herr
    | put reply => simp [hop, getTurn] at h
    | error text => simp [hop, getTurn] at h
  | put =>
    cases reply with
    | put reply =>
      obtain ⟨err⟩ := reply
      simp only [hop, putTurn] at h
      split_ifs at h with hfirst hlater hok
      · exact ⟨hfirst.1, by rw [hfirst.2]⟩
      · rw [← Option.some.inj h] at herr
        cases herr
      · rw [← Option.some.inj h, hok] at herr
        cases herr
    | get reply => simp [hop, putTurn] at h
    | error text => simp [hop, putTurn] at h

theorem Once.return (hs : Once cfg x a) {k : Fin c} {pend : Pending n} {reply : Reply}
    {output : KvOutput} (hpend : (x.service.clerks k).pending = some pend)
    (hrpc : pend.rpc = .replied reply)
    (hturn : turn pend.input pend.isRetry (some reply) = some output) :
    Once cfg ⟨x.service.return k pend output, x.strays, x.placed⟩ a := by
  have ha : Action cfg x (.service (.reply k)) _ := .returns hpend hrpc hturn
  obtain ⟨hplaced, hstrays⟩ := hs.belongs ha (fun _ => Or.inl) (fun _ => Or.inl)
  refine ⟨ha.calls hs.calls, hs.hearing, hplaced, hstrays, fun j pj hpj hfirst => ?_,
    fun j op' r hop' hr herr => ?_⟩
  · rcases setClerk_pending hpj with ⟨-, hpj⟩ | ⟨-, hpj⟩
    · cases hpj
    · obtain ⟨hstray, hattempt⟩ := hs.first j pj hpj hfirst
      exact ⟨hstray, hattempt.extend_running (unmoved_of_service x _ _) (Grows.refl a)
        fun p k sub hsub => ⟨sub, hsub, rfl, rfl⟩⟩
  · refine Clean.extend ?_ (unmoved_of_service x _ j) (Grows.refl a)
    obtain ⟨op, hop, -, -, -, ⟨rfl, hres⟩ | ⟨-, rfl⟩⟩ := getElem?_return_cases hop'
    · obtain rfl := Option.some.inj (hres.symm.trans hr)
      obtain ⟨hfirst, rfl⟩ := turn_errVersion hturn herr
      obtain ⟨hstray, hattempt⟩ := hs.first k pend hpend hfirst
      simp only [Attempt, hrpc] at hattempt
      exact ⟨hstray, hattempt trivial⟩
    · exact hs.refused j op' r hop hr herr

/-- A stray request begins. Its call was sent again since, so it is not one whose first reply
counts. -/
theorem Once.late (hcodec : cfg.codec.Lawful) (hs : Once cfg x a) {i : ℕ} {r : Stray n} {id : ℤ}
    {sys : KvSystem n B} (hr : x.strays[i]? = some r)
    (h : x.service.sys.step? (machine cfg.codec) (.submit r.server id r.req) = some sys) :
    ∃ b, Once cfg (x.beginLate i r id sys) b ∧ Grows a b := by
  obtain ⟨b, hb, hg⟩ := hs.hearing.step (machine_lawful hcodec) h
  have ha : Action cfg x (.late i id) _ := .late hr h
  have hmem : r ∈ x.strays := List.mem_of_getElem? hr
  have hsub : ∀ r' ∈ (x.beginLate i r id sys).strays, r' ∈ x.strays :=
    fun r' hr' => (List.eraseIdx_sublist _ _).subset hr'
  obtain ⟨hplaced, hstrays⟩ := hs.belongs ha
    (fun pl hpl => (List.mem_append.mp hpl).imp_right fun hnew => by
      obtain ⟨hcall, hop, -⟩ := mem_placements hnew
      rw [hcall, hop]
      exact hs.strays r hmem)
    (fun r' hr' => Or.inl (hsub r' hr'))
  have hunmoved : ∀ j, (∀ r ∈ x.strays, r.call ≠ j) → Unmoved x (x.beginLate i r id sys) j := by
    intro j hj
    refine ⟨fun r' hr' _ => hsub r' hr',
      fun pl hpl hcall => (List.mem_append.mp hpl).resolve_right ?_⟩
    exact fun hnew => hj r hmem ((mem_placements hnew).1.symm.trans hcall)
  refine ⟨b, ⟨ha.calls hs.calls, hb, hplaced, hstrays, fun k pend hpend hfirst => ?_,
    fun j op r hop hr herr => ?_⟩, hg⟩
  · obtain ⟨hstray, hattempt⟩ := hs.first k pend hpend hfirst
    exact ⟨fun r' hr' => hstray r' (hsub r' hr'), hattempt.extend_running (hunmoved _ hstray) hg
      fun p k sub => step_submit_kept h (by simp [System.restarted])⟩
  · have hclean := hs.refused j op r hop hr herr
    exact hclean.extend (hunmoved j hclean.strays) hg

/-- Every action keeps the invariant. -/
theorem Once.step (hcodec : cfg.codec.Lawful) (hs : Once cfg x a) {e : Event n c}
    (ha : Action cfg x e y) : ∃ b, Once cfg y b ∧ Grows a b := by
  cases id ha with
  | servers hno h => exact hs.servers hcodec hno h
  | invoke hidle => exact ⟨a, hs.invoke hidle, Grows.refl a⟩
  | begin hpend hrpc h => exact hs.begin hcodec hpend hrpc h
  | answer hpend hrpc hsub hstage =>
    refine ⟨a, ?_, Grows.refl a⟩
    rw [← List.append_nil x.strays] at ha ⊢
    refine hs.proceed ha hpend nofun fun hfirst => ?_
    have hanswered := hs.answered hpend hrpc hsub hstage hfirst
    rwa [List.append_nil]
  | returns hpend hrpc hturn => exact ⟨a, hs.return hpend hrpc hturn, Grows.refl a⟩
  | retries hpend hstrays => exact ⟨a, hs.proceed ha hpend hstrays nofun, Grows.refl a⟩
  | late hr h => exact hs.late hcodec hr h

theorem once_initial : Once cfg (initial cfg) TermLogProtocol.initial where
  calls := calls_initial
  hearing := hearing_initial
  placed := nofun
  strays := nofun
  first := nofun
  refused := nofun

theorem Once.run (hcodec : cfg.codec.Lawful) {ok : Traffic n c B → Event n c → Prop}
    (hs : Once cfg x a) (hst : Relation.ReflTransGen (Step cfg ok) x y) :
    ∃ b, Once cfg y b ∧ Grows a b := by
  induction hst with
  | refl => exact ⟨a, hs, Grows.refl a⟩
  | tail _ hstep ih =>
    obtain ⟨b, hb, hab⟩ := ih
    obtain ⟨e, -, he⟩ := hstep
    obtain ⟨d, hd, hbd⟩ := hb.step hcodec (step_action he)
    exact ⟨d, hd, hab.trans hbd⟩

theorem Reached.once (hcodec : cfg.codec.Lawful) {ok : Traffic n c B → Event n c → Prop}
    (hx : Reached cfg ok x) : ∃ a, Once cfg x a := by
  obtain ⟨x₀, rfl, hr⟩ := hx
  obtain ⟨a, ha, -⟩ := once_initial.run hcodec hr
  exact ⟨a, ha⟩

end Steps

section Store

/-- Some server has received the operation at the index, and executing it there changes the
store. -/
def ChangesAt (cfg : Setup n c B) (x : Traffic n c B) (i : ℤ) (o : Op Request) : Prop :=
  ∃ q l, (i, l ++ [.op o]) ∈ (x.service.sys.raft.procs q).delivered ∧
    ((replay (machine cfg.codec) l).doOp o.req).1.kvStore ≠ (replay (machine cfg.codec) l).kvStore

/-- A reply `ErrVersion` means that nothing has changed. -/
theorem doOp_of_errVersion {kv : KVServer} {req : Request}
    (h : (kv.doOp req).2 = .put ⟨.errVersion⟩) : (kv.doOp req).1 = kv := by
  cases req with
  | get r => rfl
  | unknown u => rfl
  | put r =>
    refine put_fst_of_not_stores fun hst => ?_
    simp [KVServer.doOp, put_of_stores hst] at h

/-- The store changes where a `Put` is stored. -/
theorem changes_of_kvStore_ne {kv : KVServer} {req : Request}
    (h : (kv.doOp req).1.kvStore ≠ kv.kvStore) : ∃ r, req = .put r ∧ Changes r.key kv req := by
  cases req with
  | get r => exact absurd rfl h
  | unknown u => exact absurd rfl h
  | put r =>
    refine ⟨r, rfl, changes_iff.mpr ⟨r, rfl, rfl, ?_⟩⟩
    by_contra hst
    exact h (by rw [KVServer.doOp, put_fst_of_not_stores hst])

/-- Of two operations with one request in one log, only one changes the store. -/
theorem eq_of_initial {codec : Codec B} {l l' : List (Command Request)} {o o' : Op Request}
    (hinit : l ++ [.op o] <+: l' ++ [.op o']) (hreq : o'.req = o.req)
    (hc : ((replay (machine codec) l).doOp o.req).1.kvStore ≠ (replay (machine codec) l).kvStore)
    (hc' : ((replay (machine codec) l').doOp o'.req).1.kvStore ≠
      (replay (machine codec) l').kvStore)
    (hlength : l'.length < 2 ^ 64) : l ++ [.op o] = l' ++ [.op o'] := by
  obtain ⟨r, hr, hch⟩ := changes_of_kvStore_ne hc
  obtain ⟨r', hr', hch'⟩ := changes_of_kvStore_ne hc'
  obtain rfl : r' = r := KvServer.Request.put.inj (hr'.symm.trans (hreq.trans hr))
  have hpre : ops (l ++ [.op o]) <+: ops (l' ++ [.op o']) := hinit.filterMap Command.op?
  have hfew : changes r'.key (ops (l' ++ [.op o'])) ≤ 2 ^ 64 := by
    refine (changes_le_length _ _).trans ((List.length_filterMap_le _ _).trans ?_)
    rw [List.length_append]
    exact hlength
  simp only [ops_append, ops_cons_op, ops_nil] at hpre hfew
  have hm : (ops l' ++ [o'])[(ops l).length]? = some o := by
    obtain ⟨rest, hrest⟩ := hpre
    rw [← hrest]
    simp
  have htake : (ops l' ++ [o']).take (ops l).length = ops l := by
    obtain ⟨rest, hrest⟩ := hpre
    rw [← hrest]
    simp
  have hlen : (ops l).length = (ops l').length :=
    eq_of_same_version hm (by simp) hr hr' rfl rfl (by rw [before, htake]; exact hch)
      (by rw [before, List.take_left']; exacts [hch', rfl]) hfew
  rcases List.prefix_concat_iff.mp hinit with heq | hlt
  · exact heq
  · have hshort : ops (l ++ [.op o]) <+: ops l' := hlt.filterMap Command.op?
    have hle := hshort.length_le
    simp [hlen] at hle

end Store

/-- A `Put` is applied at most once, and never after a definite failure. The number of a committed
command is an `int`, so a committed sequence has fewer than `2 ^ 63` operations. In every such
sequence the version of a key is the number of operations that changed the key, every version is
written by exactly one of them, and the deduplication table names operations that were stored. Of
all operations that were put in the log for one call, at most one changes the store. If the call
has returned `ErrVersion`, none of them does, at any time in the run. -/
theorem put_at_most_once (hcodec : cfg.codec.Lawful) (hx : Reached cfg anyEvent x)
    (hxy : Relation.ReflTransGen (Step cfg anyEvent) x y)
    (hyz : Relation.ReflTransGen (Step cfg anyEvent) y z) :
    (∀ key l, l.length < 2 ^ 63 → Versioned key l) ∧
    (∀ j i i' o o', ⟨j, i, o⟩ ∈ z.placed → ⟨j, i', o'⟩ ∈ z.placed → i < 2 ^ 63 → i' < 2 ^ 63 →
      ChangesAt cfg x i o → ChangesAt cfg y i' o' → i = i' ∧ o = o') ∧
    ∀ j i o op r, ⟨j, i, o⟩ ∈ z.placed → z.service.history[j]? = some op → op.result = some r →
      r.1.err = .errVersion → ¬ ChangesAt cfg x i o := by
  obtain ⟨a, ha⟩ := Reached.once hcodec hx
  obtain ⟨b, hb, hab⟩ := ha.run hcodec hxy
  obtain ⟨d, hd, hbd⟩ := hb.run hcodec hyz
  have hreach := hd.hearing.related.reached
  refine ⟨fun key l hl => versioned ((changes_le_length key l).trans_lt hl), ?_, ?_⟩
  · rintro j i i' o o' hpl hpl' hi hi' ⟨q, l, hl, hc⟩ ⟨q', l', hl', hc'⟩
    have happ := ((ha.hearing.related.delivered_mem hl).1.grows hab).grows hbd
    have happ' := (hb.hearing.related.delivered_mem hl').1.grows hbd
    obtain ⟨op, hop, hreq⟩ := hd.placed _ hpl
    obtain ⟨op', hop', hreq'⟩ := hd.placed _ hpl'
    obtain rfl := Option.some.inj (hop.symm.trans hop')
    have hindex : (l ++ [Command.op o]).length = i := happ.length
    have hindex' : (l' ++ [Command.op o']).length = i' := happ'.length
    have hsame : l ++ [.op o] = l' ++ [.op o'] := by
      rcases le_total i i' with hle | hle
      · refine eq_of_initial (happ.initial hreach happ' hle) (hreq'.trans hreq.symm) hc hc' ?_
        rw [List.length_append] at hindex'
        omega
      · refine (eq_of_initial (happ'.initial hreach happ hle)
          (hreq.trans hreq'.symm) hc' hc ?_).symm
        rw [List.length_append] at hindex
        omega
    rw [hsame] at hindex
    obtain ⟨-, hop⟩ := List.append_inj' hsame rfl
    exact ⟨hindex.symm.trans hindex', Command.op.inj (List.singleton_inj.mp hop)⟩
  · rintro j i o op r hpl hop hr herr ⟨q, l, hl, hc⟩
    have happ := ((ha.hearing.related.delivered_mem hl).1.grows hab).grows hbd
    obtain ⟨l₀, o₀, happ₀, hrep⟩ := (hd.refused j op r hop hr herr).placed _ hpl rfl
    obtain ⟨rfl, ho⟩ := List.append_inj' (happ.unique hreach happ₀) rfl
    obtain rfl := Command.op.inj (List.singleton_inj.mp ho)
    exact hc (congrArg KVServer.kvStore (doOp_of_errVersion hrep))

section Stray

def putOp (id : ℤ) (value : String) (version : Tversion) : Op Request :=
  ⟨0, id, .put ⟨"k", value, version, 9⟩⟩

def commitRun (channel : ℕ) : List (KvClerks.Event 2 1) :=
  [.sys (.raft (.appendEntriesRoutine 0)), .sys (.raft (.deliver 0)), .sys (.raft (.deliver 0)),
    .sys (.raft (.apply 0)), .sys (.take 0 0), .sys (.handle 0 false), .sys (.send 0),
    .sys (.receive 0 channel)]

def giveUpRun : List (KvClerks.Event 2 1) :=
  electRun ++ [.invoke 0 ⟨.put, "k", "a", 0⟩, .fail 0, .begin 0 4, .answer 0, .reply 0,
    .begin 0 5] ++ commitRun 0 ++ [.answer 0, .reply 0]

/-- The first request begins after all and is committed too, and then a `Put` of a version that
does not exist returns `ErrVersion`. -/
def strayRun : List (Event 2 1) :=
  giveUpRun.map .service ++ .late 0 6 ::
    (commitRun 1 ++ callRun ⟨.put, "k", "b", 5⟩ 7 2).map .service

theorem put_at_most_once_stray : oneClerk.Lawful ∧ ∃ z : Traffic 2 1 (Store × Dedup),
    Reached oneClerk anyEvent z ∧
    z.service.history = [⟨0, ⟨.put, "k", "a", 0⟩, 0, some (⟨"", 0, .ok⟩, 1)⟩,
      ⟨0, ⟨.put, "k", "b", 5⟩, 2, some (⟨"", 0, .errVersion⟩, 3)⟩] ∧
    z.placed = [⟨0, 1, putOp 5 "a" 0⟩, ⟨0, 2, putOp 6 "a" 0⟩, ⟨1, 3, putOp 7 "b" 5⟩] ∧
    Versioned "k" [putOp 5 "a" 0, putOp 6 "a" 0] ∧
    ChangesAt oneClerk z 1 (putOp 5 "a" 0) ∧ ¬ ChangesAt oneClerk z 2 (putOp 6 "a" 0) ∧
    ¬ ChangesAt oneClerk z 3 (putOp 7 "b" 5) := by
  obtain ⟨z, hz, htest⟩ := Traffic.exists_of_run
    (show ((initial oneClerk).run oneClerk anyEvent strayRun).any (fun z => decide
      (z.service.history = [⟨0, ⟨.put, "k", "a", 0⟩, 0, some (⟨"", 0, .ok⟩, 1)⟩,
        ⟨0, ⟨.put, "k", "b", 5⟩, 2, some (⟨"", 0, .errVersion⟩, 3)⟩] ∧
      z.placed = [⟨0, 1, putOp 5 "a" 0⟩, ⟨0, 2, putOp 6 "a" 0⟩, ⟨1, 3, putOp 7 "b" 5⟩] ∧
      (1, [.op (putOp 5 "a" 0)]) ∈ (z.service.sys.raft.procs 0).delivered)) = true by
      decide +kernel)
  obtain ⟨hhistory, hplaced, hdelivered⟩ := of_decide_eq_true htest
  have hz : Reached oneClerk anyEvent z := ⟨_, rfl, hz⟩
  have hchanges : ChangesAt oneClerk z 1 (putOp 5 "a" 0) := by
    refine ⟨0, [], hdelivered, fun h => ?_⟩
    exact absurd (congrArg (Finmap.lookup "k") h) (by decide +kernel)
  obtain ⟨hversioned, honce, hrefused⟩ :=
    put_at_most_once oneClerk_lawful.codec hz .refl .refl
  refine ⟨oneClerk_lawful, z, hz, hhistory, hplaced, hversioned _ _ (by simp), hchanges,
    fun h => ?_, ?_⟩
  · have := (honce 0 1 2 _ _ (by simp [hplaced]) (by simp [hplaced]) (by norm_num) (by norm_num)
      hchanges h).1
    omega
  · exact hrefused 1 3 _ _ _ (by simp [hplaced]) (by rw [hhistory]; rfl) rfl rfl

end Stray

end DistributedLabs.KvTraffic
