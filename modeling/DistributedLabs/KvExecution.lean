import DistributedLabs.KvHistory

/-!
# What is executed for the calls

The operations that servers accept carry the number of the call they were made for. An
operation is made for a call only while the call is open, so operations are accepted in an
order that fits the history, and the one that a clerk gets its answer from is the last one
made for its call.
-/

namespace DistributedLabs.KvClerks

open KvServer Rsm RsmCluster RaftRefinement TermLogProtocol Linearizability LogPrefixes

variable {n c : ℕ} {B : Type*} {cfg : Setup n c B} {s t : Service n c B}
  {a b : Proto n (Command Request)} {call : Option ℕ}

section Extension

/-- The calls of `h` are in `h'`, and those that have returned since did so at `time` or later. -/
def Evolves (time : ℕ) (h h' : List (Operation (Fin c) KvInput KvOutput)) : Prop :=
  ∀ (i : ℕ) op, h[i]? = some op → ∃ op', h'[i]? = some op' ∧ op'.client = op.client ∧
    op'.input = op.input ∧ op'.call = op.call ∧
    (op'.result = op.result ∨ (op.result = none ∧ ∀ r ∈ op'.result, time ≤ r.2))

/-- A step keeps the calls, the labels and the accepted operations. Operations that it adds
are for the given call, which is open. -/
structure Extends (cfg : Setup n c B) (s t : Service n c B) (call : Option ℕ) : Prop where
  calls : Evolves s.clock s.history t.history
  origin : ∀ id i, s.origin id = some i → t.origin id = some i
  started : ∃ new, ops t.sys.started = ops s.sys.started ++ new ∧ ∀ o ∈ new, ∃ i op,
    call = some i ∧ Copy cfg t.history t.origin o i op ∧ op.result = none

theorem Evolves.refl (time : ℕ) (h : List (Operation (Fin c) KvInput KvOutput)) :
    Evolves time h h := fun _ op hop => ⟨op, hop, rfl, rfl, rfl, Or.inl rfl⟩

theorem Extends.of_calls (hcalls : Evolves s.clock s.history t.history)
    (horigin : t.origin = s.origin) (hstarted : ops t.sys.started = ops s.sys.started) :
    Extends cfg s t none where
  calls := hcalls
  origin id i hi := by rwa [horigin]
  started := ⟨[], by rw [hstarted, List.append_nil], fun o ho => by cases ho⟩

theorem Copy.extend {o : Op Request} {i : ℕ} {op op' : Operation (Fin c) KvInput KvOutput}
    (hc : Copy cfg s.history s.origin o i op) (hx : Extends cfg s t call)
    (hop' : t.history[i]? = some op') : Copy cfg t.history t.origin o i op' := by
  obtain ⟨op'', hop'', hclient, hinput, -⟩ := hx.calls i op hc.call
  obtain rfl := Option.some.inj (hop'.symm.trans hop'')
  exact ⟨hx.origin _ _ hc.origin, hop', by rw [hclient, hinput, hc.req]⟩

end Extension

section Labels

/-- Every accepted operation was made for a call, and the order in which they were accepted
respects real time. -/
structure Labelled (cfg : Setup n c B) (s : Service n c B) : Prop where
  copies : ∀ o ∈ ops s.sys.started, ∃ i op, Copy cfg s.history s.origin o i op
  ordered : (ops s.sys.started).Pairwise fun x y => ∀ i j op op', s.origin x.id = some i →
    s.origin y.id = some j → s.history[i]? = some op → s.history[j]? = some op' →
    ¬ op'.Precedes op

theorem Labelled.extend (hl : Labelled cfg s) (hs : Recorded s) (hx : Extends cfg s t call) :
    Labelled cfg t := by
  obtain ⟨new, hstarted, hnew⟩ := hx.started
  refine ⟨fun o ho => ?_, ?_⟩
  · rw [hstarted] at ho
    rcases List.mem_append.mp ho with ho | ho
    · obtain ⟨i, op, hc⟩ := hl.copies o ho
      obtain ⟨op', hop', -⟩ := hx.calls i op hc.call
      exact ⟨i, op', hc.extend hx hop'⟩
    · obtain ⟨i, op, -, hc, -⟩ := hnew o ho
      exact ⟨i, op, hc⟩
  have hopen : ∀ y ∈ new, ∀ j op' op, t.origin y.id = some j → t.history[j]? = some op' →
      ¬ op'.Precedes op := by
    rintro y hy j op' op hj hop' ⟨r, hr, -⟩
    obtain ⟨i, op'', -, hc, hres⟩ := hnew y hy
    obtain rfl := Option.some.inj (hj.symm.trans hc.origin)
    obtain rfl := Option.some.inj (hop'.symm.trans hc.call)
    rw [hres] at hr
    cases hr
  rw [hstarted, List.pairwise_append]
  refine ⟨?_, ?_, ?_⟩
  · refine hl.ordered.imp_of_mem fun {x y} hxm hym hxy i j op₁ op₁' hi hj hop₁ hop₁' => ?_
    obtain ⟨i', op, hcx⟩ := hl.copies x hxm
    obtain ⟨j', op', hcy⟩ := hl.copies y hym
    obtain rfl := Option.some.inj (hi.symm.trans (hx.origin _ _ hcx.origin))
    obtain rfl := Option.some.inj (hj.symm.trans (hx.origin _ _ hcy.origin))
    obtain ⟨op₂, hop₂, -, -, hcall, -⟩ := hx.calls i op hcx.call
    obtain rfl := Option.some.inj (hop₁.symm.trans hop₂)
    obtain ⟨op₂', hop₂', -, -, -, hres⟩ := hx.calls j op' hcy.call
    obtain rfl := Option.some.inj (hop₁'.symm.trans hop₂')
    rintro ⟨r, hr, hlt⟩
    rw [hcall] at hlt
    rcases hres with hres | ⟨-, hlate⟩
    · exact hxy i j op op' hcx.origin hcy.origin hcx.call hcy.call ⟨r, hres ▸ hr, hlt⟩
    · exact absurd ((hlate r hr).trans_lt hlt) (hs.called i op hcx.call).asymm
  · exact List.pairwise_of_forall_mem_list fun x hxm y hym i j op op' _ hj _ hop' =>
      hopen y hym j op' op hj hop'
  · exact fun x hxm y hym i j op op' _ hj _ hop' => hopen y hym j op' op hj hop'

end Labels

section Service

/-- The operation was made for call number `i`, and no later one was accepted for it. -/
structure Serves (cfg : Setup n c B) (s : Service n c B) (o : Op Request) (i : ℕ)
    (op : Operation (Fin c) KvInput KvOutput) : Prop
    extends Copy cfg s.history s.origin o i op where
  last : LastCopy s.origin (ops s.sys.started) o i

/-- The reply comes from the execution of an operation that serves the call. -/
def Executed (cfg : Setup n c B) (s : Service n c B) (a : Proto n (Command Request)) (i : ℕ)
    (op : Operation (Fin c) KvInput KvOutput) (reply : Reply) : Prop :=
  ∃ o j l, Serves cfg s o i op ∧ Applied a j (l ++ [.op o]) ∧ reply = handler op.input
    (.ok ((machine cfg.codec).doOp (replay (machine cfg.codec) l) o.req).2)

variable {i : ℕ} {op op' : Operation (Fin c) KvInput KvOutput}

/-- An operation goes on serving its call unless one is added for the same call. -/
theorem Serves.extend {o : Op Request} (h : Serves cfg s o i op) (hl : Labelled cfg s)
    (hx : Extends cfg s t call) (hi : call ≠ some i) (hop' : t.history[i]? = some op') :
    Serves cfg t o i op' := by
  refine ⟨h.toCopy.extend hx hop', ?_⟩
  obtain ⟨new, hstarted, hnew⟩ := hx.started
  have hother : ∀ y ∈ new, t.origin y.id ≠ some i := by
    intro y hy hyi
    obtain ⟨j, op'', hj, hc, -⟩ := hnew y hy
    obtain rfl := Option.some.inj (hyi.symm.trans hc.origin)
    exact hi hj
  rw [LastCopy, hstarted, List.pairwise_append]
  refine ⟨?_, List.pairwise_of_forall_mem_list fun x _ y hy _ => hother y hy,
    fun x _ y hy _ => hother y hy⟩
  refine h.last.imp_of_mem fun {x y} _ hy hxy hxo hyi => ?_
  obtain ⟨j, op'', hc⟩ := hl.copies y hy
  obtain rfl := Option.some.inj (hyi.symm.trans (hx.origin _ _ hc.origin))
  exact hxy hxo hc.origin

theorem Executed.extend {reply : Reply} (h : Executed cfg s a i op reply) (hl : Labelled cfg s)
    (hx : Extends cfg s t call) (hi : call ≠ some i) (hg : Grows a b)
    (hop' : t.history[i]? = some op') : Executed cfg t b i op' reply := by
  obtain ⟨o, j, l, hs, happ, rfl⟩ := h
  obtain ⟨op'', hop'', -, hinput, -⟩ := hx.calls i op hs.call
  obtain rfl := Option.some.inj (hop'.symm.trans hop'')
  exact ⟨o, j, l, hs.extend hl hx hi hop', happ.grows hg, by rw [hinput]⟩

def Tracks (cfg : Setup n c B) (s : Service n c B) (a : Proto n (Command Request))
    (pend : Pending n) : Prop :=
  match pend.rpc with
  | .running p channel => ∃ sub op, (s.sys.servers p).submits[channel]? = some sub ∧
      Serves cfg s sub.op pend.number op
  | .replied reply => reply = handler pend.input .errWrongLeader ∨
      ∃ op, Executed cfg s a pend.number op reply
  | .sent | .lost => True

/-- The servers answer as the log says, and so do the clerks. -/
structure Tracked (cfg : Setup n c B) (s : Service n c B) (a : Proto n (Command Request)) : Prop
    extends Recorded s, Labelled cfg s where
  answering : Answering (machine cfg.codec) s.sys a
  rpc : ∀ k pend, (s.clerks k).pending = some pend → Tracks cfg s a pend
  executed : ∀ (i : ℕ) op r, s.history[i]? = some op → op.result = some r →
    ∃ isRetry reply, Executed cfg s a i op reply ∧ turn op.input isRetry (some reply) = some r.1

/-- A remote call is tracked further when its server has not restarted, or it is cut off. -/
theorem Tracks.extend {pend : Pending n} (h : Tracks cfg s a pend) (hl : Labelled cfg s)
    (hx : Extends cfg s t call) (hi : call ≠ some pend.number) (hg : Grows a b)
    (restarted : Option (Fin n))
    (hkept : ∀ p (k : ℕ) sub, restarted ≠ some p → (s.sys.servers p).submits[k]? = some sub →
      ∃ sub', (t.sys.servers p).submits[k]? = some sub' ∧ sub'.op = sub.op) :
    Tracks cfg t b { pend with rpc := pend.rpc.restart restarted } := by
  obtain ⟨number, input, isRetry, rpc⟩ := pend
  cases rpc with
  | sent => trivial
  | lost => trivial
  | running p channel =>
    simp only [Rpc.restart]
    split_ifs with hp
    · trivial
    · obtain ⟨sub, op, hsub, hserves⟩ := h
      obtain ⟨sub', hsub', hop⟩ := hkept p channel sub hp hsub
      obtain ⟨op', hop', -⟩ := hx.calls _ op hserves.call
      exact ⟨sub', op', hsub', hop ▸ hserves.extend hl hx hi hop'⟩
  | replied reply =>
    rcases h with h | ⟨op, hex⟩
    · exact Or.inl h
    · obtain ⟨o, -, -, hserves, -⟩ := id hex
      obtain ⟨op', hop', -⟩ := hx.calls _ op hserves.call
      exact Or.inr ⟨op', hex.extend hl hx hi hg hop'⟩

theorem Rpc.restart_none (rpc : Rpc n) : rpc.restart none = rpc := by
  cases rpc <;> rfl

/-- Where nothing restarts. -/
theorem Tracks.extend_running {pend : Pending n} (h : Tracks cfg s a pend) (hl : Labelled cfg s)
    (hx : Extends cfg s t call) (hi : call ≠ some pend.number) (hg : Grows a b)
    (hkept : ∀ p (k : ℕ) sub, (s.sys.servers p).submits[k]? = some sub →
      ∃ sub', (t.sys.servers p).submits[k]? = some sub' ∧ sub'.op = sub.op) :
    Tracks cfg t b pend := by
  have := h.extend hl hx hi hg none fun p k sub _ => hkept p k sub
  rwa [Rpc.restart_none] at this

/-- Calls that have returned before a step keep what they returned. -/
theorem Tracked.executed_extend (hs : Tracked cfg s a) (hx : Extends cfg s t call)
    (hopen : ∀ i, call = some i → ∃ op, s.history[i]? = some op ∧ op.result = none)
    (hg : Grows a b) {r : KvOutput × ℕ} (hop : s.history[i]? = some op) (hr : op.result = some r)
    (hop' : t.history[i]? = some op') : ∃ isRetry reply, Executed cfg t b i op' reply ∧
      turn op'.input isRetry (some reply) = some r.1 := by
  obtain ⟨isRetry, reply, hex, hturn⟩ := hs.executed i op r hop hr
  have hi : call ≠ some i := by
    intro hi
    obtain ⟨op₀, hop₀, hres⟩ := hopen i hi
    rw [Option.some.inj (hop.symm.trans hop₀), hres] at hr
    cases hr
  obtain ⟨op'', hop'', -, hinput, -⟩ := hx.calls i op hop
  obtain rfl := Option.some.inj (hop'.symm.trans hop'')
  exact ⟨isRetry, reply, hex.extend hs.toLabelled hx hi hg hop', by rwa [hinput]⟩

end Service

section Actions

theorem setClerk_pending {k j : Fin c} {ck : Clerk n} {pend : Pending n}
    (h : ((s.setClerk k ck).clerks j).pending = some pend) :
    (j = k ∧ ck.pending = some pend) ∨ (j ≠ k ∧ (s.clerks j).pending = some pend) := by
  by_cases hj : j = k
  · subst hj
    exact Or.inl ⟨rfl, by simpa [Service.setClerk] using h⟩
  · exact Or.inr ⟨hj, by simpa [Service.setClerk, hj] using h⟩

theorem ops_accepted_of_no_submit {sys : KvSystem n B} {e : RsmCluster.Event n Request}
    (hno : ∀ p id req, e ≠ .submit p id req) : ops (sys.accepted e) = [] := by
  rcases accepted_cases sys e with hacc | ⟨x, hacc⟩ | ⟨p, id, req, he, -⟩
  · simp [hacc]
  · simp [hacc]
  · exact absurd he (hno p id req)

theorem freshId_of_no_submit {sys : KvSystem n B} {e : RsmCluster.Event n Request}
    (hno : ∀ p id req, e ≠ .submit p id req) : FreshId sys e := by
  cases e with
  | submit p id req => exact absurd rfl (hno p id req)
  | _ => trivial

theorem Tracked.servers (hcodec : cfg.codec.Lawful) (hs : Tracked cfg s a)
    {e : RsmCluster.Event n Request} {sys : KvSystem n B}
    (hno : ∀ p id req, e ≠ .submit p id req)
    (h : s.sys.step? (machine cfg.codec) e = some sys) : ∃ b, Tracked cfg { s with
      sys := sys, clerks := fun k => (s.clerks k).restart (s.sys.restarted e) } b := by
  obtain ⟨b, hb, hg⟩ := hs.answering.step (machine_lawful hcodec) (freshId_of_no_submit hno) h
  have hx : Extends cfg s { s with
      sys := sys, clerks := fun k => (s.clerks k).restart (s.sys.restarted e) } none :=
    .of_calls (Evolves.refl _ _) rfl (by
      rw [(step_raft h).1, ops_append, ops_accepted_of_no_submit hno, List.append_nil])
  refine ⟨b, (Action.servers hno h).recorded hs.toRecorded, hs.toLabelled.extend hs.toRecorded hx,
    hb, fun k pend hpend => ?_, fun i op r hop hr => ?_⟩
  · obtain ⟨pend₀, hpend₀, rfl⟩ := Option.map_eq_some_iff.mp hpend
    exact (hs.rpc k pend₀ hpend₀).extend hs.toLabelled hx (by simp) hg _
      fun p k sub hp => step_op_kept h hp
  · exact hs.executed_extend hx (fun i hi => by cases hi) hg hop hr hop

theorem Tracked.invoke (hs : Tracked cfg s a) {k : Fin c} {input : KvInput}
    (hidle : (s.clerks k).pending = none) (hfresh : FreshVersion s (.invoke k input)) :
    Tracked cfg (s.invoke k input) a := by
  have hx : Extends cfg s (s.invoke k input) none := by
    refine .of_calls (fun i op hop => ⟨op, ?_, rfl, rfl, rfl, Or.inl rfl⟩) rfl rfl
    rwa [Service.invoke, List.getElem?_append_left (List.getElem?_eq_some_iff.mp hop).1]
  refine ⟨hs.toRecorded.invoke hidle hfresh, hs.toLabelled.extend hs.toRecorded hx, hs.answering,
    fun j pend hpend => ?_, fun i op r hop hr => ?_⟩
  · rcases setClerk_pending hpend with ⟨-, hpend⟩ | ⟨-, hpend⟩
    · obtain rfl := Option.some.inj hpend
      trivial
    · exact (hs.rpc j pend hpend).extend_running hs.toLabelled hx (by simp) (Grows.refl a)
        fun p k sub hsub => ⟨sub, hsub, rfl⟩
  · rcases getElem?_concat_cases hop with ⟨-, rfl⟩ | hold
    · cases hr
    · exact hs.executed_extend hx (fun i hi => by cases hi) (Grows.refl a) hold hr hop

/-- A clerk goes on with its call, and nothing else changes. -/
theorem Tracked.proceed (hs : Tracked cfg s a) {k : Fin c} {pend pend' : Pending n} {leader : ℕ}
    (hpend : (s.clerks k).pending = some pend) (hnumber : pend'.number = pend.number)
    (hinput : pend'.input = pend.input) (hnew : Tracks cfg s a pend') :
    Tracked cfg (s.setClerk k ⟨leader, some pend'⟩) a := by
  have hx : Extends cfg s (s.setClerk k ⟨leader, some pend'⟩) none :=
    .of_calls (Evolves.refl _ _) rfl rfl
  refine ⟨hs.toRecorded.congr rfl rfl (setClerk_call hpend hnumber hinput),
    hs.toLabelled.extend hs.toRecorded hx, hs.answering, fun j pj hpj => ?_,
    fun i op r hop hr => ?_⟩
  · have htracks : Tracks cfg s a pj := by
      rcases setClerk_pending hpj with ⟨-, hpj⟩ | ⟨-, hpj⟩
      · exact Option.some.inj hpj ▸ hnew
      · exact hs.rpc j pj hpj
    exact htracks.extend_running hs.toLabelled hx (by simp) (Grows.refl a)
      fun p k sub hsub => ⟨sub, hsub, rfl⟩
  · exact hs.executed_extend hx (fun i hi => by cases hi) (Grows.refl a) hop hr hop

/-- What a `Submit` has returned is the error, or comes from an execution. -/
theorem Tracked.answer (hs : Tracked cfg s a) {k : Fin c} {pend : Pending n} {p : Fin n}
    {channel : ℕ} {sub : Submit Request Reply} {result : Result Reply}
    (hpend : (s.clerks k).pending = some pend) (hrpc : pend.rpc = .running p channel)
    (hsub : (s.sys.servers p).submits[channel]? = some sub)
    (hstage : sub.stage = .returned result) :
    Tracks cfg s a { pend with rpc := .replied (handler pend.input result) } := by
  have htracks := hs.rpc k pend hpend
  simp only [Tracks, hrpc] at htracks
  obtain ⟨sub', op, hsub', hserves⟩ := htracks
  obtain rfl := Option.some.inj (hsub.symm.trans hsub')
  cases result with
  | errWrongLeader => exact Or.inl rfl
  | ok rep =>
    obtain ⟨l, hl, hrep, -⟩ := (hs.answering.sound p).returned channel sub rep hsub hstage
    obtain ⟨op', hop', -, hinput, -⟩ := hs.pending k _ _ (Clerk.call_of_pending hpend)
    obtain rfl := Option.some.inj (hop'.symm.trans hserves.call)
    exact Or.inr ⟨op', sub.op, sub.commitIndex, l, hserves,
      (hs.answering.related.delivered_mem hl).1, by rw [hinput, hrep]⟩

/-- A clerk returns nothing for the error. -/
theorem turn_errWrongLeader (inp : KvInput) (isRetry : Bool) :
    turn inp isRetry (some (handler inp .errWrongLeader)) = none := by
  cases hop : inp.op <;> simp [turn, handler, hop, getTurn, putTurn, getHandler, putHandler]

theorem Tracked.return (hs : Tracked cfg s a) {k : Fin c} {pend : Pending n} {reply : Reply}
    {output : KvOutput} (hpend : (s.clerks k).pending = some pend)
    (hrpc : pend.rpc = .replied reply)
    (hturn : turn pend.input pend.isRetry (some reply) = some output) :
    Tracked cfg (s.return k pend output) a := by
  obtain ⟨op₀, hop₀, -, hinput₀, hres₀⟩ := hs.pending k _ _ (Clerk.call_of_pending hpend)
  have hx : Extends cfg s (s.return k pend output) none := by
    refine .of_calls (fun i op hop => ?_) rfl rfl
    by_cases hi : i = pend.number
    · subst hi
      obtain rfl := Option.some.inj (hop.symm.trans hop₀)
      refine ⟨{ op with result := some (output, s.clock) }, ?_, rfl, rfl, rfl,
        Or.inr ⟨hres₀, fun r hr => ?_⟩⟩
      · simp [Service.return, hop]
      · rw [← Option.some.inj hr]
    · exact ⟨op, (getElem?_return_of_ne hi).trans hop, rfl, rfl, rfl, Or.inl rfl⟩
  refine ⟨hs.toRecorded.return hpend, hs.toLabelled.extend hs.toRecorded hx, hs.answering,
    fun j pj hpj => ?_, fun i op' r hop' hr => ?_⟩
  · rcases setClerk_pending hpj with ⟨-, hpj⟩ | ⟨-, hpj⟩
    · cases hpj
    · exact (hs.rpc j pj hpj).extend_running hs.toLabelled hx (by simp) (Grows.refl a)
        fun p k sub hsub => ⟨sub, hsub, rfl⟩
  · obtain ⟨op, hop, -, hinput, -, ⟨rfl, hres⟩ | ⟨-, rfl⟩⟩ := getElem?_return_cases hop'
    · obtain rfl := Option.some.inj (hres.symm.trans hr)
      obtain rfl := Option.some.inj (hop.symm.trans hop₀)
      have htracks := hs.rpc k pend hpend
      simp only [Tracks, hrpc] at htracks
      rcases htracks with rfl | ⟨op₁, hex⟩
      · rw [turn_errWrongLeader] at hturn
        cases hturn
      · exact ⟨pend.isRetry, reply, hex.extend hs.toLabelled hx (by simp) (Grows.refl a) hop',
          by rw [hinput, hinput₀, hturn]⟩
    · exact hs.executed_extend hx (fun i hi => by cases hi) (Grows.refl a) hop hr hop'

/-- An operation that is new and comes last serves its call. -/
theorem lastCopy_of_fresh {origin : ℤ → Option ℕ} {l new : List (Op Request)} {o : Op Request}
    (hl : ∀ x ∈ l, x ≠ o) (hnew : new = [] ∨ new = [o]) (i : ℕ) :
    LastCopy origin (l ++ new) o i := by
  refine List.pairwise_append.mpr ⟨?_, ?_, fun x hx y _ hxo => absurd hxo (hl x hx)⟩
  · exact List.pairwise_of_forall_mem_list fun x hx y _ hxo => absurd hxo (hl x hx)
  · rcases hnew with rfl | rfl
    · exact List.Pairwise.nil
    · exact List.pairwise_singleton _ _

theorem id_ne_of_origin (hs : Labelled cfg s) {id : ℤ} (hid : s.origin id = none) :
    ∀ x ∈ ops s.sys.started, x.id ≠ id := by
  rintro x hx rfl
  obtain ⟨i, op, hc⟩ := hs.copies x hx
  rw [hc.origin] at hid
  cases hid

section Begin

variable {k : Fin c} {id : ℤ} {pend : Pending n} {p : Fin n} {sys : KvSystem n B}

theorem begin_copy (hs : Recorded s) (hpend : (s.clerks k).pending = some pend) (id : ℤ)
    (p : Fin n) (sys : KvSystem n B) :
    ∃ op, op.result = none ∧ op.client = k ∧
      Copy cfg (s.begin k pend id p sys).history (s.begin k pend id p sys).origin
        ⟨p, id, request (cfg.clerkId k) pend.input⟩ pend.number op := by
  obtain ⟨op, hop, hclient, hinput, hres⟩ := hs.pending k _ _ (Clerk.call_of_pending hpend)
  exact ⟨op, hres, hclient, Function.update_self _ _ _, hop, by rw [hclient, hinput]⟩

theorem begin_extends (hs : Recorded s) (hpend : (s.clerks k).pending = some pend)
    (hid : s.origin id = none) (h : s.sys.step? (machine cfg.codec)
      (.submit p id (request (cfg.clerkId k) pend.input)) = some sys) :
    Extends cfg s (s.begin k pend id p sys) (some pend.number) := by
  obtain ⟨new, hnew, hstarted⟩ := step_submit_started h
  refine ⟨Evolves.refl _ _, fun id' i hi => ?_, new, hstarted, fun x hx => ?_⟩
  · have hne : id' ≠ id := by
      rintro rfl
      rw [hid] at hi
      cases hi
    exact (Function.update_of_ne hne _ _).trans hi
  · obtain ⟨op, hres, -, hcopy⟩ := begin_copy hs hpend id p sys
    rcases hnew with rfl | rfl
    · cases hx
    · obtain rfl := List.mem_singleton.mp hx
      exact ⟨_, op, rfl, hcopy, hres⟩

theorem Tracked.begin (hcodec : cfg.codec.Lawful) (hs : Tracked cfg s a)
    (hpend : (s.clerks k).pending = some pend) (hid : s.origin id = none)
    (h : s.sys.step? (machine cfg.codec)
      (.submit p id (request (cfg.clerkId k) pend.input)) = some sys) :
    ∃ b, Tracked cfg (s.begin k pend id p sys) b := by
  have hids := id_ne_of_origin hs.toLabelled hid
  obtain ⟨op₀, hres₀, hclient₀, hcopy⟩ := begin_copy hs.toRecorded hpend id p sys
  obtain ⟨b, hb, hg⟩ := hs.answering.step (machine_lawful hcodec)
    (e := .submit p id (request (cfg.clerkId k) pend.input)) hids h
  have hx := begin_extends hs.toRecorded hpend hid h
  refine ⟨b, (Action.begin hpend hid h).recorded hs.toRecorded,
    hs.toLabelled.extend hs.toRecorded hx, hb, fun j pj hpj => ?_, fun i op r hop hr => ?_⟩
  · rcases setClerk_pending hpj with ⟨-, hpj⟩ | ⟨hj, hpj⟩
    · obtain rfl := Option.some.inj hpj
      obtain ⟨sub, hsub, hop, -⟩ := step_submit_last h
      obtain ⟨new, hnew, hstarted⟩ := step_submit_started h
      refine ⟨sub, op₀, hsub, ?_⟩
      rw [hop]
      refine ⟨hcopy, ?_⟩
      rw [show ops (s.begin k pend id p sys).sys.started = _ from hstarted]
      exact lastCopy_of_fresh (fun x hx hxo => hids x hx (by rw [hxo])) hnew _
    · refine (hs.rpc j pj hpj).extend_running hs.toLabelled hx (fun hnum => ?_) hg
        fun q k sub => step_op_kept h (by simp [System.restarted])
      obtain ⟨op, hop, hclient, -⟩ := hs.pending j _ _ (Clerk.call_of_pending hpj)
      rw [← Option.some.inj hnum] at hop
      obtain rfl := Option.some.inj (hop.symm.trans hcopy.call)
      exact hj (hclient.symm.trans hclient₀)
  · refine hs.executed_extend hx (fun i hi => ?_) hg hop hr hop
    obtain rfl := Option.some.inj hi
    exact ⟨op₀, hcopy.call, hres₀⟩

end Begin

/-- Every action keeps track of the calls. -/
theorem Tracked.step (hcodec : cfg.codec.Lawful) (hs : Tracked cfg s a) (ha : Action cfg s t) :
    ∃ b, Tracked cfg t b := by
  cases ha with
  | servers hno h => exact hs.servers hcodec hno h
  | invoke hidle hfresh => exact ⟨a, hs.invoke hidle hfresh⟩
  | begin hpend hid h => exact hs.begin hcodec hpend hid h
  | answer hpend hrpc hsub hstage =>
    exact ⟨a, hs.proceed hpend rfl rfl (hs.answer hpend hrpc hsub hstage)⟩
  | returns hpend hrpc hturn => exact ⟨a, hs.return hpend hrpc hturn⟩
  | retries hpend => exact ⟨a, hs.proceed hpend rfl rfl trivial⟩

theorem tracked_initial : Tracked cfg (initial cfg) TermLogProtocol.initial where
  toRecorded := recorded_initial
  copies o ho := by cases ho
  ordered := List.Pairwise.nil
  answering := answering_initial
  rpc k pend h := by cases h
  executed i op r h := by cases h

/-- The service in every run with distinct ids and fresh versions. -/
theorem Reached.tracked (hcodec : cfg.codec.Lawful)
    (hs : Reached cfg (fun s e => DistinctOpIds s e ∧ FreshVersion s e) s) :
    ∃ a, Tracked cfg s a := by
  refine TransitionRuns.Reachable.invariant (I := fun s => ∃ a, Tracked cfg s a) hs ?_ ?_
  · rintro _ rfl
    exact ⟨_, tracked_initial⟩
  · rintro s t - ⟨a, ha⟩ ⟨e, ⟨hid, hfresh⟩, h⟩
    exact ha.step hcodec (step_action hid hfresh h)

end Actions

end DistributedLabs.KvClerks
