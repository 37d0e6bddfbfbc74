import Mathlib.Data.Int.Interval
import DistributedLabs.KvAtMostOnce

/-!
# Reads are not stale

A `Get` is answered from an operation of its own call in the committed log. What other calls
were answered from before it was made is in the log in front of that operation, whichever
server the request went to first, so the number of changes that the `Get` sees is not lower
than what those calls have seen.
-/

namespace DistributedLabs.KvTraffic

open KvServer KvClerks KvVersions Rsm RsmCluster RaftRefinement TermLogProtocol Linearizability
  TransitionRuns LogPrefixes

variable {n c : ℕ} {B : Type*} {cfg : Setup n c B} {key : String} {x y : Traffic n c B}
  {a b : Proto n (Command Request)}

def Event.drawn? : Event n c → Option ℤ
  | .service (.begin _ id) | .late _ id => some id
  | _ => none

/-- The ids that the `Submit` calls draw are distinct values of `rand.Uint32`. -/
def DrawnIds (x : Traffic n c B) (e : Event n c) : Prop :=
  DistinctIds x e ∧ ∀ id ∈ e.drawn?, 0 ≤ id ∧ id < 2 ^ 32

instance (x : Traffic n c B) (e : Event n c) : Decidable (DrawnIds x e) :=
  inferInstanceAs (Decidable (_ ∧ _))

/-- The reply comes from the execution of an operation that was made for call number `j`. -/
structure Served (cfg : Setup n c B) (s : Service n c B)
    (a : Proto n (Command Request)) (j : ℕ) (k : Fin c) (inp : KvInput) (reply : Reply)
    (o : Op Request) (l : List (Command Request)) : Prop where
  origin : s.origin o.id = some j
  req : o.req = request (cfg.clerkId k) inp
  applied : ∃ i, Applied a i (l ++ [.op o])
  reply : reply = handler inp (.ok ((replay (machine cfg.codec) l).doOp o.req).2)

def Pursued (cfg : Setup n c B) (s : Service n c B) (a : Proto n (Command Request))
    (k : Fin c) (pend : Pending n) : Prop :=
  match pend.rpc with
  | .running p channel => ∃ sub, (s.sys.servers p).submits[channel]? = some sub ∧
      s.origin sub.op.id = some pend.number ∧ sub.op.req = request (cfg.clerkId k) pend.input
  | .replied reply => reply = handler pend.input .errWrongLeader ∨
      ∃ o l, Served cfg s a pend.number k pend.input reply o l
  | .sent | .lost => True

/-- Operations are made for calls, and calls return what was executed for them. -/
structure Reads (cfg : Setup n c B) (x : Traffic n c B)
    (a : Proto n (Command Request)) : Prop where
  calls : Calls x.service
  answering : Answering (machine cfg.codec) x.service.sys a
  labels : ∀ o ∈ ops x.service.sys.started,
    ∃ j < x.service.history.length, x.service.origin o.id = some j
  drawn : ∀ o ∈ ops x.service.sys.started, 0 ≤ o.id ∧ o.id < 2 ^ 32
  strays : ∀ r ∈ x.strays, r.call < x.service.history.length
  rpc : ∀ k pend, (x.service.clerks k).pending = some pend → Pursued cfg x.service a k pend
  returned : ∀ (j : ℕ) op r, x.service.history[j]? = some op → op.result = some r →
    ∃ isRetry reply o l, Served cfg x.service a j op.client op.input reply o l ∧
      turn op.input isRetry (some reply) = some r.1

section Extension

def Keeps (s t : Service n c B) : Prop := ∀ id j, s.origin id = some j → t.origin id = some j

theorem keeps_of_eq {s t : Service n c B} (h : t.origin = s.origin) : Keeps s t := by
  intro id j hj
  rwa [h]

theorem keeps_update {s : Service n c B} {t : Service n c B} {id : ℤ} {j : ℕ}
    (hid : s.origin id = none) (ht : t.origin = Function.update s.origin id (some j)) :
    Keeps s t := by
  intro id' i hi
  have hne : id' ≠ id := by
    rintro rfl
    rw [hid] at hi
    cases hi
  rwa [ht, Function.update_of_ne hne]

variable {s t : Service n c B} {k : Fin c}

theorem Served.extend {j : ℕ} {inp : KvInput} {reply : Reply} {o : Op Request}
    {l : List (Command Request)} (h : Served cfg s a j k inp reply o l) (hk : Keeps s t)
    (hg : Grows a b) : Served cfg t b j k inp reply o l := by
  obtain ⟨i, happ⟩ := h.applied
  exact ⟨hk _ _ h.origin, h.req, ⟨i, happ.grows hg⟩, h.reply⟩

theorem Pursued.extend {pend : Pending n} (h : Pursued cfg s a k pend) (hk : Keeps s t)
    (hg : Grows a b) (restarted : Option (Fin n))
    (hkept : ∀ p (i : ℕ) sub, restarted ≠ some p → (s.sys.servers p).submits[i]? = some sub →
      ∃ sub', (t.sys.servers p).submits[i]? = some sub' ∧ sub'.op = sub.op) :
    Pursued cfg t b k { pend with rpc := pend.rpc.restart restarted } := by
  obtain ⟨number, input, isRetry, rpc⟩ := pend
  cases rpc with
  | sent => trivial
  | lost => trivial
  | running p channel =>
    simp only [Rpc.restart]
    split_ifs with hp
    · trivial
    · obtain ⟨sub, hsub, horigin, hreq⟩ := h
      obtain ⟨sub', hsub', hop⟩ := hkept p channel sub hp hsub
      exact ⟨sub', hsub', by rw [hop]; exact hk _ _ horigin, by rw [hop]; exact hreq⟩
  | replied reply =>
    rcases h with h | ⟨o, l, h⟩
    · exact Or.inl h
    · exact Or.inr ⟨o, l, h.extend hk hg⟩

/-- Where nothing restarts. -/
theorem Pursued.extend_running {pend : Pending n} (h : Pursued cfg s a k pend)
    (hk : Keeps s t) (hg : Grows a b)
    (hkept : ∀ p (i : ℕ) sub, (s.sys.servers p).submits[i]? = some sub →
      ∃ sub', (t.sys.servers p).submits[i]? = some sub' ∧ sub'.op = sub.op) :
    Pursued cfg t b k pend := by
  have := h.extend hk hg none fun p i sub _ => hkept p i sub
  rwa [Rpc.restart_none] at this

/-- Calls that had returned go on having been served. -/
theorem Reads.returned_extend (hs : Reads cfg x a) (hk : Keeps x.service t) (hg : Grows a b)
    {j : ℕ} {op : Operation (Fin c) KvInput KvOutput} {r : KvOutput × ℕ}
    (hop : x.service.history[j]? = some op) (hr : op.result = some r) :
    ∃ isRetry reply o l, Served cfg t b j op.client op.input reply o l ∧
      turn op.input isRetry (some reply) = some r.1 := by
  obtain ⟨isRetry, reply, o, l, hserved, hturn⟩ := hs.returned j op r hop hr
  exact ⟨isRetry, reply, o, l, hserved.extend hk hg, hturn⟩

/-- The labels of what was accepted before, when nothing is forgotten. -/
theorem Reads.labels_extend (hs : Reads cfg x a) (hk : Keeps x.service t)
    (hlength : x.service.history.length ≤ t.history.length) :
    ∀ o ∈ ops x.service.sys.started, ∃ j < t.history.length, t.origin o.id = some j := by
  intro o ho
  obtain ⟨j, hj, horigin⟩ := hs.labels o ho
  exact ⟨j, hj.trans_le hlength, hk _ _ horigin⟩

end Extension

section Steps

theorem Reads.freshId (hs : Reads cfg x a) {id : ℤ} (hid : x.service.origin id = none) :
    ∀ o ∈ ops x.service.sys.started, o.id ≠ id := by
  rintro o ho rfl
  obtain ⟨j, -, horigin⟩ := hs.labels o ho
  rw [hid] at horigin
  cases horigin

theorem Reads.servers (hcodec : cfg.codec.Lawful) (hs : Reads cfg x a)
    {e : RsmCluster.Event n Request} {sys : KvSystem n B}
    (hno : ∀ p id req, e ≠ .submit p id req)
    (h : x.service.sys.step? (machine cfg.codec) e = some sys) :
    ∃ b, Reads cfg ⟨{ x.service with
      sys := sys
      clerks := fun k => (x.service.clerks k).restart (x.service.sys.restarted e) },
      x.strays, x.placed⟩ b ∧ Grows a b := by
  obtain ⟨b, hb, hg⟩ := hs.answering.step (machine_lawful hcodec) (freshId_of_no_submit hno) h
  have ha : Action cfg x (.service (.sys e)) _ := .servers hno h
  have hstarted : ops sys.started = ops x.service.sys.started := by
    rw [(step_raft h).1, ops_append, ops_accepted_of_no_submit hno, List.append_nil]
  refine ⟨b, ⟨ha.calls hs.calls, hb, ?_, ?_, hs.strays, fun k pend hpend => ?_,
    fun j op r hop hr => hs.returned_extend (keeps_of_eq (by rfl)) hg hop hr⟩, hg⟩
  · rw [hstarted]
    exact hs.labels
  · rw [hstarted]
    exact hs.drawn
  · obtain ⟨pend₀, hpend₀, rfl⟩ := Option.map_eq_some_iff.mp hpend
    exact (hs.rpc k pend₀ hpend₀).extend (keeps_of_eq (by rfl)) hg _
      fun p i sub hp => step_op_kept h hp

theorem Reads.invoke (hs : Reads cfg x a) {k : Fin c} {input : KvInput}
    (hidle : (x.service.clerks k).pending = none) :
    Reads cfg ⟨x.service.invoke k input, x.strays, x.placed⟩ a := by
  have ha : Action cfg x (.service (.invoke k input)) _ := .invoke hidle
  have hlength : x.service.history.length ≤ (x.service.invoke k input).history.length := by simp
  refine ⟨ha.calls hs.calls, hs.answering, hs.labels_extend (keeps_of_eq (by rfl)) hlength,
    hs.drawn, fun r hr => (hs.strays r hr).trans_le hlength, fun j pend hpend => ?_,
    fun j op r hop hr => ?_⟩
  · rcases setClerk_pending hpend with ⟨-, hpend⟩ | ⟨-, hpend⟩
    · obtain rfl := Option.some.inj hpend
      trivial
    · exact (hs.rpc j pend hpend).extend_running (keeps_of_eq (by rfl)) (Grows.refl a)
        fun p i sub hsub => ⟨sub, hsub, rfl⟩
  · rcases getElem?_concat_cases hop with ⟨-, rfl⟩ | hold
    · cases hr
    · exact hs.returned_extend (keeps_of_eq (by rfl)) (Grows.refl a) hold hr

/-- An operation is accepted for a call that was made. -/
theorem Reads.labels_submit (hs : Reads cfg x a) {id : ℤ} {p : Fin n} {req : Request}
    {sys : KvSystem n B} {j : ℕ} (hid : x.service.origin id = none)
    (h : x.service.sys.step? (machine cfg.codec) (.submit p id req) = some sys)
    (hj : j < x.service.history.length) :
    ∀ o ∈ ops sys.started, ∃ i < x.service.history.length,
      Function.update x.service.origin id (some j) o.id = some i := by
  obtain ⟨new, hnew, hstarted⟩ := step_submit_started h
  intro o ho
  rw [hstarted] at ho
  rcases List.mem_append.mp ho with hold | ho
  · obtain ⟨i, hi, horigin⟩ := hs.labels o hold
    refine ⟨i, hi, ?_⟩
    rwa [Function.update_of_ne (hs.freshId hid o hold)]
  · rcases hnew with rfl | rfl
    · cases ho
    · obtain rfl := List.mem_singleton.mp ho
      exact ⟨j, hj, Function.update_self _ _ _⟩

theorem Reads.drawn_submit (hs : Reads cfg x a) {id : ℤ} {p : Fin n} {req : Request}
    {sys : KvSystem n B} (hrange : 0 ≤ id ∧ id < 2 ^ 32)
    (h : x.service.sys.step? (machine cfg.codec) (.submit p id req) = some sys) :
    ∀ o ∈ ops sys.started, 0 ≤ o.id ∧ o.id < 2 ^ 32 := by
  obtain ⟨new, hnew, hstarted⟩ := step_submit_started h
  intro o ho
  rw [hstarted] at ho
  rcases List.mem_append.mp ho with hold | ho
  · exact hs.drawn o hold
  · rcases hnew with rfl | rfl
    · cases ho
    · obtain rfl := List.mem_singleton.mp ho
      exact hrange

theorem Reads.begin (hcodec : cfg.codec.Lawful) (hs : Reads cfg x a) {k : Fin c} {id : ℤ}
    {pend : Pending n} {p : Fin n} {sys : KvSystem n B} (hid : x.service.origin id = none)
    (hrange : 0 ≤ id ∧ id < 2 ^ 32) (hpend : (x.service.clerks k).pending = some pend)
    (hrpc : pend.rpc = .sent)
    (h : x.service.sys.step? (machine cfg.codec)
      (.submit p id (request (cfg.clerkId k) pend.input)) = some sys) (placed : List Placement) :
    ∃ b, Reads cfg ⟨x.service.begin k pend id p sys, x.strays, placed⟩ b ∧ Grows a b := by
  obtain ⟨b, hb, hg⟩ := hs.answering.step (machine_lawful hcodec)
    (e := .submit p id (request (cfg.clerkId k) pend.input)) (hs.freshId hid) h
  have ha := Action.begin hpend hrpc h
  have hkeeps : Keeps x.service (x.service.begin k pend id p sys) := keeps_update hid rfl
  obtain ⟨op₀, hop₀, -⟩ := hs.calls.pending hpend
  refine ⟨b, ⟨ha.calls hs.calls, hb,
    hs.labels_submit hid h (List.getElem?_eq_some_iff.mp hop₀).1, hs.drawn_submit hrange h,
    hs.strays, fun j pj hpj => ?_, fun j op r hop hr => hs.returned_extend hkeeps hg hop hr⟩, hg⟩
  rcases setClerk_pending hpj with ⟨rfl, hpj⟩ | ⟨-, hpj⟩
  · obtain rfl := Option.some.inj hpj
    obtain ⟨sub, hsub, hop, -⟩ := step_submit_last h
    refine ⟨sub, hsub, ?_, by rw [hop]⟩
    rw [hop]
    exact Function.update_self _ _ _
  · exact (hs.rpc j pj hpj).extend_running hkeeps hg
      fun q i sub => step_op_kept h (by simp [System.restarted])

theorem Reads.late (hcodec : cfg.codec.Lawful) (hs : Reads cfg x a) {i : ℕ} {r : Stray n}
    {id : ℤ} {sys : KvSystem n B} (hid : x.service.origin id = none)
    (hrange : 0 ≤ id ∧ id < 2 ^ 32) (hr : x.strays[i]? = some r)
    (h : x.service.sys.step? (machine cfg.codec) (.submit r.server id r.req) = some sys) :
    ∃ b, Reads cfg (x.beginLate i r id sys) b ∧ Grows a b := by
  obtain ⟨b, hb, hg⟩ := hs.answering.step (machine_lawful hcodec)
    (e := .submit r.server id r.req) (hs.freshId hid) h
  have hkeeps : Keeps x.service (x.beginLate i r id sys).service := keeps_update hid rfl
  refine ⟨b, ⟨hs.calls, hb, hs.labels_submit hid h (hs.strays r (List.mem_of_getElem? hr)),
    hs.drawn_submit hrange h, fun r' hr' => hs.strays r' ((List.eraseIdx_sublist _ _).subset hr'),
    fun k pend hpend => ?_,
    fun j op r hop hr => hs.returned_extend hkeeps hg hop hr⟩, hg⟩
  exact (hs.rpc k pend hpend).extend_running hkeeps hg
    fun q i sub => step_op_kept h (by simp [System.restarted])

/-- A clerk goes on with its call, and requests of this call may be left behind. -/
theorem Reads.proceed (hs : Reads cfg x a) {e : Event n c} {k : Fin c}
    {pend pend' : Pending n} {leader : ℕ} {strays : List (Stray n)}
    (ha : Action cfg x e ⟨x.service.setClerk k ⟨leader, some pend'⟩, x.strays ++ strays, x.placed⟩)
    (hpend : (x.service.clerks k).pending = some pend)
    (hstrays : ∀ r ∈ strays, r.call = pend.number ∧ r.req = request (cfg.clerkId k) pend.input)
    (hnew : Pursued cfg x.service a k pend') :
    Reads cfg ⟨x.service.setClerk k ⟨leader, some pend'⟩, x.strays ++ strays, x.placed⟩ a := by
  refine ⟨ha.calls hs.calls, hs.answering, hs.labels, hs.drawn, fun r hr => ?_, fun j pj hpj => ?_,
    fun j op r hop hr => hs.returned_extend (keeps_of_eq (by rfl)) (Grows.refl a) hop hr⟩
  · rcases List.mem_append.mp hr with hold | hnew
    · exact hs.strays r hold
    · obtain ⟨op, hop, -⟩ := hs.calls.pending hpend
      rw [(hstrays r hnew).1]
      exact (List.getElem?_eq_some_iff.mp hop).1
  · have hpursued : Pursued cfg x.service a j pj := by
      rcases setClerk_pending hpj with ⟨rfl, hsame⟩ | ⟨-, hother⟩
      · exact Option.some.inj hsame ▸ hnew
      · exact hs.rpc j pj hother
    exact hpursued.extend_running (keeps_of_eq (by rfl)) (Grows.refl a)
      fun p i sub hsub => ⟨sub, hsub, rfl⟩

/-- What a `Submit` has returned is the error, or comes from an execution. -/
theorem Reads.answered (hs : Reads cfg x a) {k : Fin c} {pend : Pending n} {p : Fin n}
    {channel : ℕ} {sub : Submit Request Reply} {result : Result Reply}
    (hpend : (x.service.clerks k).pending = some pend) (hrpc : pend.rpc = .running p channel)
    (hsub : (x.service.sys.servers p).submits[channel]? = some sub)
    (hstage : sub.stage = .returned result) :
    Pursued cfg x.service a k
      { pend with rpc := .replied (handler pend.input result) } := by
  have hpursued := hs.rpc k pend hpend
  simp only [Pursued, hrpc] at hpursued
  obtain ⟨sub', hsub', horigin, hreq⟩ := hpursued
  obtain rfl := Option.some.inj (hsub.symm.trans hsub')
  cases result with
  | errWrongLeader => exact Or.inl rfl
  | ok rep =>
    obtain ⟨l, hl, hrep, -⟩ := (hs.answering.sound p).returned channel sub rep hsub hstage
    exact Or.inr ⟨sub.op, l, horigin, hreq, ⟨_, (hs.answering.related.delivered_mem hl).1⟩,
      by rw [hrep]; rfl⟩

theorem Reads.return (hs : Reads cfg x a) {k : Fin c} {pend : Pending n} {reply : Reply}
    {output : KvOutput} (hpend : (x.service.clerks k).pending = some pend)
    (hrpc : pend.rpc = .replied reply)
    (hturn : turn pend.input pend.isRetry (some reply) = some output) :
    Reads cfg ⟨x.service.return k pend output, x.strays, x.placed⟩ a := by
  have ha : Action cfg x (.service (.reply k)) _ := .returns hpend hrpc hturn
  have hlength : x.service.history.length ≤ (x.service.return k pend output).history.length := by
    simp [Service.return]
  refine ⟨ha.calls hs.calls, hs.answering, hs.labels_extend (keeps_of_eq (by rfl)) hlength,
    hs.drawn, fun r hr => (hs.strays r hr).trans_le hlength, fun j pj hpj => ?_,
    fun j op' r hop' hr => ?_⟩
  · rcases setClerk_pending hpj with ⟨-, hpj⟩ | ⟨-, hpj⟩
    · cases hpj
    · exact (hs.rpc j pj hpj).extend_running (keeps_of_eq (by rfl)) (Grows.refl a)
        fun p i sub hsub => ⟨sub, hsub, rfl⟩
  · obtain ⟨op, hop, hclient, hinput, -, ⟨rfl, hres⟩ | ⟨-, rfl⟩⟩ := getElem?_return_cases hop'
    · obtain rfl := Option.some.inj (hres.symm.trans hr)
      obtain ⟨op₀, hop₀, hclient₀, hinput₀, -⟩ := hs.calls.pending hpend
      obtain rfl := Option.some.inj (hop.symm.trans hop₀)
      have hpursued := hs.rpc k pend hpend
      simp only [Pursued, hrpc] at hpursued
      rcases hpursued with rfl | ⟨o, l, hserved⟩
      · rw [turn_errWrongLeader] at hturn
        cases hturn
      · rw [hclient, hinput, hclient₀, hinput₀]
        exact ⟨pend.isRetry, reply, o, l,
          hserved.extend (keeps_of_eq (by rfl)) (Grows.refl a), hturn⟩
    · exact hs.returned_extend (keeps_of_eq (by rfl)) (Grows.refl a) hop hr

/-- Every action keeps the invariant, and the labels. -/
theorem Reads.step (hcodec : cfg.codec.Lawful) (hs : Reads cfg x a) {e : Event n c}
    (hok : DrawnIds x e) (ha : Action cfg x e y) :
    ∃ b, Reads cfg y b ∧ Grows a b ∧ Keeps x.service y.service := by
  cases id ha with
  | servers hno h =>
    obtain ⟨b, hb, hg⟩ := hs.servers hcodec hno h
    exact ⟨b, hb, hg, keeps_of_eq rfl⟩
  | invoke hidle => exact ⟨a, hs.invoke hidle, Grows.refl a, keeps_of_eq rfl⟩
  | begin hpend hrpc h =>
    obtain ⟨b, hb, hg⟩ := hs.begin hcodec hok.1 (hok.2 _ rfl) hpend hrpc h _
    exact ⟨b, hb, hg, keeps_update hok.1 rfl⟩
  | answer hpend hrpc hsub hstage =>
    have hanswered := hs.answered hpend hrpc hsub hstage
    refine ⟨a, ?_, Grows.refl a, keeps_of_eq rfl⟩
    rw [← List.append_nil x.strays] at ha ⊢
    exact hs.proceed ha hpend nofun hanswered
  | returns hpend hrpc hturn =>
    exact ⟨a, hs.return hpend hrpc hturn, Grows.refl a, keeps_of_eq rfl⟩
  | retries hpend hstrays =>
    exact ⟨a, hs.proceed ha hpend hstrays trivial, Grows.refl a, keeps_of_eq rfl⟩
  | late hr h =>
    obtain ⟨b, hb, hg⟩ := hs.late hcodec hok.1 (hok.2 _ rfl) hr h
    exact ⟨b, hb, hg, keeps_update hok.1 rfl⟩

theorem reads_initial : Reads cfg (initial cfg) TermLogProtocol.initial where
  calls := calls_initial
  answering := answering_initial
  labels := nofun
  drawn := nofun
  strays := nofun
  rpc := nofun
  returned := nofun

theorem Reads.run (hcodec : cfg.codec.Lawful) (hs : Reads cfg x a)
    (hst : Relation.ReflTransGen (Step cfg DrawnIds) x y) :
    ∃ b, Reads cfg y b ∧ Grows a b ∧ Keeps x.service y.service := by
  induction hst with
  | refl => exact ⟨a, hs, Grows.refl a, keeps_of_eq rfl⟩
  | tail _ hstep ih =>
    obtain ⟨b, hb, hab, hkeeps⟩ := ih
    obtain ⟨e, hok, he⟩ := hstep
    obtain ⟨d, hd, hbd, hkeeps'⟩ := hb.step hcodec hok (step_action he)
    exact ⟨d, hd, hab.trans hbd, fun id j hj => hkeeps' id j (hkeeps id j hj)⟩

end Steps

section Versions

variable {s : Service n c B} {j : ℕ} {k : Fin c} {inp : KvInput} {reply : Reply} {o : Op Request}
  {l : List (Command Request)} {isRetry : Bool} {out : KvOutput}

/-- The accepted operations have distinct ids of 32 bits, so the version of a key does not wrap. -/
theorem Reads.few (hs : Reads cfg x a) (h : Served cfg x.service a j k inp reply o l)
    (key : String) : changes key (ops l ++ [o]) < 2 ^ 64 := by
  obtain ⟨i, happ⟩ := h.applied
  have hsub : (ops l ++ [o]).Sublist (ops x.service.sys.started) := by
    have hlog := (happ.sublist hs.answering.related.reached).filterMap Command.op?
    rwa [hs.answering.created, List.filterMap_append] at hlog
  have hids : ((ops x.service.sys.started).map Op.id).toFinset ⊆ Finset.Ico 0 (2 ^ 32) := by
    intro id hid
    obtain ⟨o', ho', rfl⟩ := List.mem_map.mp (List.mem_toFinset.mp hid)
    exact Finset.mem_Ico.mpr (hs.drawn o' ho')
  have hcard := Finset.card_le_card hids
  rw [List.toFinset_card_of_nodup hs.answering.distinct, List.length_map, Int.card_Ico] at hcard
  have hchanges := changes_le_length key (ops l ++ [o])
  have hlength := hsub.length_le
  omega

/-- A `Get` returns the number of changes of the key, which is in the store if there are any. -/
theorem Served.get_eq (h : Served cfg s a j k inp reply o l)
    (hfew : changes key (ops l ++ [o]) < 2 ^ 64) (hget : inp.op = .get) (hkey : inp.key = key)
    (hturn : turn inp isRetry (some reply) = some out) :
    (changes key (ops l) = 0 ∧ out.err = .errNoKey) ∨ (0 < changes key (ops l) ∧ out.err = .ok ∧
      out.version.toNat = changes key (ops l)) := by
  have hreq : o.req = .get ⟨inp.key⟩ := by rw [h.req, request, hget]
  rw [h.reply, hreq] at hturn
  have hle := changes_append_le key (ops l) [o]
  have hout := Option.some.inj
    (hturn.symm.trans (turn_get (replay (machine cfg.codec) l) hget isRetry))
  have hkv : replay (machine cfg.codec) l = after KVServer.empty (ops l) := rfl
  rw [hkv, hkey] at hout
  rcases get_reply key (ops l) with ⟨hzero, hreply⟩ | ⟨hpos, value, hreply⟩
  · exact Or.inl ⟨hzero, by rw [hout, hreply]⟩
  · refine Or.inr ⟨hpos, by rw [hout, hreply], ?_⟩
    rw [hout, hreply, UInt64.toNat_ofNat', Nat.mod_eq_of_lt (by omega)]

/-- The version of a `Put` that returns `OK` is below the number of changes, also where the
answer comes from the deduplication table. -/
theorem Served.put_lt (h : Served cfg s a j k inp reply o l)
    (hfew : changes key (ops l ++ [o]) < 2 ^ 64) (hput : inp.op = .put) (hkey : inp.key = key)
    (hturn : turn inp isRetry (some reply) = some out)
    (hok : out.err = .ok) : inp.version.toNat < changes key (ops l ++ [o]) := by
  subst hkey
  have hreq : o.req = .put ⟨inp.key, inp.value, inp.version, cfg.clerkId k⟩ := by
    rw [h.req, request, hput]
  have hle := changes_append_le inp.key (ops l) [o]
  rw [h.reply, hreq] at hturn
  have hreply : ((after KVServer.empty (ops l)).put
      ⟨inp.key, inp.value, inp.version, cfg.clerkId k⟩).2.err = .ok := by
    rcases turn_put hput hturn with ⟨hrep, -⟩ | ⟨-, hout⟩
    · exact hrep
    · rw [hok] at hout
      rcases hout with hout | hout <;> cases hout
  cases hcached : (after KVServer.empty (ops l)).cached
      ⟨inp.key, inp.value, inp.version, cfg.clerkId k⟩ with
  | some err =>
    obtain ⟨ve, hve, hver, -⟩ := cached_eq_some.mp hcached
    obtain ⟨-, m, o', -, hm, hc, -, -, hversion⟩ := exists_tracked (ops l) hve
    have hlt : changes inp.key ((ops l).take m) < changes inp.key (ops l) := changes_take_lt hm hc
    simp only [hversion, ← UInt64.toInt64_ofNat', UInt64.toUInt64_toInt64] at hver
    rw [hver, UInt64.toNat_ofNat', Nat.mod_eq_of_lt (by omega)]
    omega
  | none =>
    by_cases hst : (after KVServer.empty (ops l)).Stores
        ⟨inp.key, inp.value, inp.version, cfg.clerkId k⟩
    · have hc : Changes inp.key (after KVServer.empty (ops l)) o.req :=
        changes_iff.mpr ⟨_, hreq, rfl, hst⟩
      have hver : inp.version = UInt64.ofNat (changes inp.key (ops l)) :=
        version_of_changes hreq hc
      rw [hver, UInt64.toNat_ofNat', Nat.mod_eq_of_lt (by omega), changes_concat, if_pos hc]
      omega
    · rw [put_of_rejects hcached hst] at hreply
      cases hreply

/-- What was executed for a call is in the log in front of what is executed for a call that is
made after it. -/
theorem Reads.initial_of_later (hx : Reads cfg x a) (hy : Reads cfg y b)
    (hg : Grows a b) (hkeeps : Keeps x.service y.service) {i : ℕ} {inp inp' : KvInput}
    {k k' : Fin c} {reply reply' : Reply} {o o' : Op Request} {l l' : List (Command Request)}
    (h : Served cfg x.service a i k inp reply o l)
    (h' : Served cfg y.service b j k' inp' reply' o' l')
    (hj : x.service.history.length ≤ j) : l ++ [.op o] <+: l' := by
  obtain ⟨m, happ⟩ := h.applied
  obtain ⟨m', happ'⟩ := h'.applied
  have hreach := hy.answering.related.reached
  have hnew : .op o' ∉ l ++ [.op o] := by
    intro hmem
    have hstarted : .op o' ∈ x.service.sys.started := by
      rw [← hx.answering.created]
      exact (happ.sublist hx.answering.related.reached).subset hmem
    obtain ⟨i', hi', horigin⟩ := hx.labels o' (mem_ops.mpr hstarted)
    have heq := (hkeeps _ _ horigin).symm.trans h'.origin
    have := Option.some.inj heq
    omega
  rcases le_total m m' with hle | hle
  · rcases List.prefix_concat_iff.mp ((happ.grows hg).initial hreach happ' hle) with heq | hpre
    · exact absurd (by rw [heq]; simp) hnew
    · exact hpre
  · have hpre := happ'.initial hreach (happ.grows hg) hle
    exact absurd (hpre.subset (by simp)) hnew

end Versions

/-- No stale reads. In every run in which `Submit` draws distinct ids, a `Get` that starts after a
`Get` of the key by any clerk has returned a version returns `OK` with a version that is not lower,
and one that starts after a `Put` of the key by any clerk has returned `OK` returns `OK` with a
higher version than the `Put` named. -/
theorem no_stale_read (hcodec : cfg.codec.Lawful) (hx : Reached cfg DrawnIds x)
    (hxy : Relation.ReflTransGen (Step cfg DrawnIds) x y) {i j : ℕ}
    {op op' : Operation (Fin c) KvInput KvOutput} {r r' : KvOutput × ℕ}
    (hop : x.service.history[i]? = some op) (hkey : op.input.key = key)
    (hr : op.result = some r) (hok : r.1.err = .ok) (hj : x.service.history.length ≤ j)
    (hop' : y.service.history[j]? = some op') (hget : op'.input.op = .get)
    (hkey' : op'.input.key = key) (hr' : op'.result = some r') :
    r'.1.err = .ok ∧ (op.input.op = .get → r.1.version ≤ r'.1.version) ∧
      (op.input.op = .put → op.input.version.toNat + 1 ≤ r'.1.version.toNat) := by
  obtain ⟨x₀, rfl, hrun⟩ := hx
  obtain ⟨a, ha, -⟩ := reads_initial.run hcodec hrun
  obtain ⟨b, hb, hg, hkeeps⟩ := ha.run hcodec hxy
  obtain ⟨isRetry, reply, o, l, hserved, hturn⟩ := ha.returned i op r hop hr
  obtain ⟨isRetry', reply', o', l', hserved', hturn'⟩ := hb.returned j op' r' hop' hr'
  have hpre : ops l ++ [o] <+: ops l' := by
    have := (ha.initial_of_later hb hg hkeeps hserved hserved' hj).filterMap Command.op?
    rwa [List.filterMap_append] at this
  obtain ⟨rest, hrest⟩ := hpre
  have hle : changes key (ops l ++ [o]) ≤ changes key (ops l') :=
    hrest ▸ changes_append_le key _ rest
  have hstep := changes_append_le key (ops l) [o]
  have hread := hserved'.get_eq (hb.few hserved' key) hget hkey' hturn'
  cases hop : op.input.op with
  | get =>
    rcases hserved.get_eq (ha.few hserved key) hop hkey hturn with ⟨-, herr⟩ | ⟨hpos, -, hversion⟩
    · rw [hok] at herr
      cases herr
    · obtain ⟨-, hok', hversion'⟩ := hread.resolve_left fun h => by omega
      refine ⟨hok', fun _ => ?_, nofun⟩
      rw [UInt64.le_iff_toNat_le]
      omega
  | put =>
    have hlt := hserved.put_lt (ha.few hserved key) hop hkey hturn hok
    obtain ⟨-, hok', hversion'⟩ := hread.resolve_left fun h => by omega
    exact ⟨hok', nofun, fun _ => by omega⟩

section Deposed

def threeServers : Setup 3 2 (Store × Dedup) :=
  ⟨pairCodec, [0, 1, 2], fun k => if k = 0 then 7 else 8⟩

def majorityRun (p : Fin 3) : List (KvClerks.Event 3 2) :=
  [.sys (.raft (.ticker p)), .sys (.raft (.deliver 0)), .sys (.raft (.deliver 0)),
    .sys (.raft (.lose 0))]

def roundRun (p : Fin 3) : List (KvClerks.Event 3 2) :=
  [.sys (.raft (.appendEntriesRoutine p)), .sys (.raft (.deliver 0)), .sys (.raft (.deliver 0)),
    .sys (.raft (.lose 0))]

def executeRun (p : Fin 3) : List (KvClerks.Event 3 2) := [.sys (.take p 0), .sys (.handle p false)]

def respondRun (p : Fin 3) (channel : ℕ) (k : Fin 2) : List (KvClerks.Event 3 2) :=
  [.sys (.send p), .sys (.receive p channel), .answer k, .reply k]

/-- A `Put` at server 0, and another one after server 2 has become the leader of a later term.
Server 0 does not hear of that. -/
def putsRun : List (KvClerks.Event 3 2) :=
  majorityRun 0 ++ [.invoke 0 ⟨.put, "k", "a", 0⟩, .begin 0 1] ++ roundRun 0 ++
    .sys (.raft (.apply 0)) :: executeRun 0 ++ respondRun 0 0 0 ++ majorityRun 2 ++ roundRun 2 ++
    [.invoke 1 ⟨.put, "k", "b", 1⟩, .fail 1, .begin 1 2, .answer 1, .reply 1, .begin 1 3] ++
    roundRun 2 ++ .sys (.raft (.apply 2)) :: executeRun 2 ++ executeRun 2 ++ respondRun 2 0 1

/-- A `Get` that is sent to server 0 first, which accepts it as the leader it still is in its
own eyes. -/
def getRun : List (KvClerks.Event 3 2) :=
  [.invoke 0 ⟨.get, "k", "", 0⟩, .begin 0 4, .fail 0, .begin 0 5, .answer 0, .reply 0,
    .begin 0 6] ++
    roundRun 2 ++ .sys (.raft (.apply 2)) :: executeRun 2 ++ respondRun 2 1 0

theorem no_stale_read_deposed : ∃ x y : Traffic 3 2 (Store × Dedup),
    Reached threeServers DrawnIds x ∧
    Relation.ReflTransGen (Step threeServers DrawnIds) x y ∧
    x.service.history = [⟨0, ⟨.put, "k", "a", 0⟩, 0, some (⟨"", 0, .ok⟩, 1)⟩,
      ⟨1, ⟨.put, "k", "b", 1⟩, 2, some (⟨"", 0, .ok⟩, 3)⟩] ∧
    (x.service.sys.raft.procs 0).rf.currentRole = .leader ∧
    ∃ r : KvOutput, y.service.history[2]? = some ⟨0, ⟨.get, "k", "", 0⟩, 4, some (r, 5)⟩ ∧
      r.err = .ok ∧ 2 ≤ r.version.toNat := by
  obtain ⟨x, hx, htest⟩ := Traffic.exists_of_run
    (show ((initial threeServers).run threeServers DrawnIds (putsRun.map .service)).any
      (fun x => decide (x.service.history = [⟨0, ⟨.put, "k", "a", 0⟩, 0, some (⟨"", 0, .ok⟩, 1)⟩,
          ⟨1, ⟨.put, "k", "b", 1⟩, 2, some (⟨"", 0, .ok⟩, 3)⟩] ∧
        (x.service.sys.raft.procs 0).rf.currentRole = .leader) &&
      (x.run threeServers DrawnIds (getRun.map .service)).any fun y =>
        decide (y.service.history[2]? = some ⟨0, ⟨.get, "k", "", 0⟩, 4,
          some (⟨"b", 2, .ok⟩, 5)⟩)) = true by decide +kernel)
  obtain ⟨htest, hrest⟩ := Bool.and_eq_true_iff.mp htest
  obtain ⟨hhistory, hrole⟩ := of_decide_eq_true htest
  obtain ⟨y, hxy, htest⟩ := Traffic.exists_of_run hrest
  have hget := of_decide_eq_true htest
  have hx : Reached threeServers DrawnIds x := ⟨_, rfl, hx⟩
  have hput : x.service.history[1]? =
      some ⟨1, ⟨.put, "k", "b", 1⟩, 2, some (⟨"", 0, .ok⟩, 3)⟩ := by rw [hhistory]; rfl
  obtain ⟨hok, -, hversion⟩ := no_stale_read pairCodec_lawful hx hxy hput rfl rfl rfl
    (by rw [hhistory]; rfl) hget rfl rfl rfl
  exact ⟨x, y, hx, hxy, hhistory, hrole, _, hget, hok, hversion rfl⟩

end Deposed

end DistributedLabs.KvTraffic
