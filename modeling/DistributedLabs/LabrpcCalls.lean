import DistributedLabs.LabrpcNetwork

/-!
# What a call over the network amounts to

Whatever happens to the ends and to the servers in the meantime, the handler of a call runs
at most once, and a call that returns true has been executed and returns the reply of that
execution.
-/

namespace DistributedLabs.Labrpc

open LogPrefixes TransitionRuns Relation

variable {E N A R : Type*} {serve : List (Execution E A R) → ReqMsg E A → ReplyMsg R → Bool}
  {rn rn' : Network E N A R} {e : Event E N A R} {c server : ℕ} {call call' : Call E N A R}
  {req : ReqMsg E A} {reply : ReplyMsg R}

/-- The `k`-th request that server `i` has executed is that of call `c`. -/
def Ran (rn : Network E N A R) (c i k : ℕ) : Prop :=
  ∃ sv req reply, rn.made[i]? = some sv ∧ sv.executed[k]? = some ⟨c, req, reply⟩

def Executed (serve : List (Execution E A R) → ReqMsg E A → ReplyMsg R → Bool)
    (rn : Network E N A R) (c server : ℕ) (req : ReqMsg E A) (reply : ReplyMsg R) : Prop :=
  ∃ sv before after, rn.made[server]? = some sv ∧
    sv.executed = before ++ ⟨c, req, reply⟩ :: after ∧ serve (sv.base ++ before) req reply = true

def Extends (rn rn' : Network E N A R) : Prop :=
  ∀ (i : ℕ) (sv : Server E A R), rn.made[i]? = some sv →
    ∃ new, rn'.made[i]? = some { sv with executed := sv.executed ++ new }

theorem Executed.mono (h : Executed serve rn c server req reply) (hext : Extends rn rn') :
    Executed serve rn' c server req reply := by
  obtain ⟨sv, before, after, hsv, hexec, hreply⟩ := h
  obtain ⟨new, hnew⟩ := hext server sv hsv
  exact ⟨_, before, after ++ new, hnew, by simp [hexec], hreply⟩

theorem getElem?_made_set {sv : Server E A R} (hsv : rn.made[server]? = some sv)
    (new : Server E A R) (i : ℕ) :
    (rn.made.set server new)[i]? = if i = server then some new else rn.made[i]? := by
  have hlt := (List.getElem?_eq_some_iff.mp hsv).1
  rw [List.getElem?_set]
  split_ifs with h₁ h₂ h₃ <;> first | rfl | omega

theorem executed_ran {sv : Server E A R} (hsv : rn.made[server]? = some sv)
    (hserve : serve sv.history call.req reply = true) :
    Executed serve (rn.ran c call server sv reply) c server call.req reply := by
  refine ⟨{ sv with executed := sv.executed ++ [⟨c, call.req, reply⟩] }, sv.executed, [], ?_, rfl,
    hserve⟩
  rw [Network.ran, List.getElem?_set_self (List.getElem?_eq_some_iff.mp hsv).1]

theorem goes_req (h : rn.Goes c call e call') : call'.req = call.req := by
  cases h <;> rfl

/-- What the goroutine of `processReq` knows about the execution of its call. -/
def PhaseSound (serve : List (Execution E A R) → ReqMsg E A → ReplyMsg R → Bool)
    (rn : Network E N A R) (c : ℕ) (call : Call E N A R) : Prop :=
  match call.phase with
  | .sending | .taken | .refused | .delaying _ => call.dispatch = .none
  | .waiting info =>
    call.dispatch = .started info.server ∨ ∃ reply, call.dispatch = .finished info.server reply
  | .returned info reply => call.dispatch = .collected ∧
    (reply.ok = true → Executed serve rn c info.server call.req reply)
  | .gaveUp _ => True
  | .replying reply | .done reply =>
    reply.ok = true → ∃ server, Executed serve rn c server call.req reply

structure CallSound (serve : List (Execution E A R) → ReqMsg E A → ReplyMsg R → Bool)
    (rn : Network E N A R) (c : ℕ) (call : Call E N A R) : Prop where
  phase : PhaseSound serve rn c call
  idle : call.dispatch = .none ∨ (∃ server, call.dispatch = .started server) →
    ∀ i k, ¬ Ran rn c i k
  finished : ∀ server reply, call.dispatch = .finished server reply → reply.ok = true →
    Executed serve rn c server call.req reply

theorem PhaseSound.mono (h : PhaseSound serve rn c call) (hext : Extends rn rn') :
    PhaseSound serve rn' c call := by
  unfold PhaseSound at h ⊢
  split at h
  case h_6 => exact ⟨h.1, fun hok => (h.2 hok).mono hext⟩
  case h_8 | h_9 => exact fun hok => (h hok).imp fun _ hexec => hexec.mono hext
  all_goals exact h

/-- The goroutine that runs the handler reports. -/
theorem PhaseSound.report (h : PhaseSound serve rn c call)
    (hdispatch : call.dispatch = .started server ∨ ∃ reply, call.dispatch = .finished server reply)
    (reply : ReplyMsg R) :
    PhaseSound serve rn c { call with dispatch := .finished server reply } := by
  unfold PhaseSound at h ⊢
  rcases hdispatch with hd | ⟨reply, hd⟩ <;> rw [hd] at h <;> split at h <;> simp_all

theorem CallSound.mono (h : CallSound serve rn c call) (hext : Extends rn rn')
    (hran : ∀ i k, Ran rn' c i k → Ran rn c i k) : CallSound serve rn' c call where
  phase := h.phase.mono hext
  idle hidle i k hk := h.idle hidle i k (hran i k hk)
  finished server reply hdispatch hok := (h.finished server reply hdispatch hok).mono hext

theorem CallSound.fails (h : CallSound serve rn c call)
    (hdispatch : call.dispatch = .started server ∨
      ∃ reply, call.dispatch = .finished server reply) :
    CallSound serve rn c { call with dispatch := .finished server .failure } where
  phase := h.phase.report hdispatch _
  idle hidle := by rcases hidle with hd | ⟨_, hd⟩ <;> cases hd
  finished := by
    rintro _ _ ⟨⟩ ⟨⟩

/-- The goroutines of a call lose no track of its execution. -/
theorem CallSound.goes (h : CallSound serve rn c call) (hgoes : rn.Goes c call e call') :
    CallSound serve rn c call' := by
  have hphase := h.phase
  cases hgoes with
  | abandon hp hclosed => exact ⟨by simp [PhaseSound, ReplyMsg.failure], h.idle, h.finished⟩
  | take hp => exact ⟨by simpa [PhaseSound, hp] using hphase, h.idle, h.finished⟩
  | found hp hinfo => exact ⟨by simpa [PhaseSound, hp] using hphase, h.idle, h.finished⟩
  | refused hp hinfo => exact ⟨by simpa [PhaseSound, hp] using hphase, h.idle, h.finished⟩
  | timeout hp => exact ⟨by simp [PhaseSound, ReplyMsg.failure], h.idle, h.finished⟩
  | dropRequest hp hunreliable => exact ⟨by simp [PhaseSound, ReplyMsg.failure], h.idle, h.finished⟩
  | dispatch hp =>
    have hnone : call.dispatch = .none := by simpa [PhaseSound, hp] using hphase
    exact ⟨Or.inl rfl, fun _ => h.idle (Or.inl hnone), nofun⟩
  | executeFails hdispatch => exact h.fails (Or.inl hdispatch)
  | replyLost hdispatch => exact h.fails (Or.inr ⟨_, hdispatch⟩)
  | @collect info server reply hp hdispatch =>
    have hserver : server = info.server := by simpa [PhaseSound, hp, hdispatch] using hphase
    refine ⟨⟨rfl, fun hok => hserver ▸ h.finished server reply hdispatch hok⟩, ?_, nofun⟩
    rintro (hd | ⟨_, hd⟩) <;> cases hd
  | alive hp halive => exact h
  | gaveUp hp hdead => exact ⟨trivial, h.idle, h.finished⟩
  | drain hp hdispatch =>
    refine ⟨?_, ?_, nofun⟩
    · unfold PhaseSound at hphase ⊢
      rw [hdispatch] at hphase
      split at hphase <;> simp_all
    · rintro (hd | ⟨_, hd⟩) <;> cases hd
  | dead drop hp hdead => exact ⟨by simp [PhaseSound, ReplyMsg.failure], h.idle, h.finished⟩
  | dropReply hp hunreliable => exact ⟨by simp [PhaseSound, ReplyMsg.failure], h.idle, h.finished⟩
  | @passed info reply hp halive =>
    have hreturned : reply.ok = true → Executed serve rn c info.server call.req reply :=
      (by simpa [PhaseSound, hp] using hphase : _ ∧ _).2
    exact ⟨fun hok => ⟨info.server, hreturned hok⟩, h.idle, h.finished⟩
  | failed drop hp => exact ⟨by simp [PhaseSound, ReplyMsg.failure], h.idle, h.finished⟩
  | reply hp => exact ⟨by simpa [PhaseSound, hp] using hphase, h.idle, h.finished⟩

/-- Every execution belongs to one call, and every call has at most one. -/
structure Sound (serve : List (Execution E A R) → ReqMsg E A → ReplyMsg R → Bool)
    (rn : Network E N A R) : Prop where
  call : ∀ (c : ℕ) (call : Call E N A R), rn.calls[c]? = some call → CallSound serve rn c call
  known : ∀ c i k, Ran rn c i k → c < rn.calls.length
  once : ∀ c i k j l, Ran rn c i k → Ran rn c j l → i = j ∧ k = l

theorem sound_makeNetwork : Sound serve (makeNetwork : Network E N A R) where
  call := nofun
  known := by rintro c i k ⟨sv, req, reply, ⟨⟩, -⟩
  once := by rintro c i k j l ⟨sv, req, reply, ⟨⟩, -⟩

section Actions

variable [DecidableEq E] [DecidableEq N]

theorem extends_of_action (h : rn.Action serve e rn') : Extends rn rn' := by
  intro i sv hsv
  have hsame : rn'.made = rn.made → ∃ new,
      rn'.made[i]? = some { sv with executed := sv.executed ++ new } := by
    intro hmade
    exact ⟨[], by rw [hmade, hsv, List.append_nil]⟩
  cases h with
  | call req => exact hsame rfl
  | goes hcall hgoes => exact hsame rfl
  | @execute c server call sv' reply hcall hdispatch hsv' hserve =>
    rw [Network.ran, getElem?_made_set hsv']
    split_ifs with hi
    · obtain rfl : sv' = sv := by
        rw [hi, hsv'] at hsv
        exact Option.some.inj hsv
      exact ⟨_, rfl⟩
    · exact ⟨[], by rw [hsv, List.append_nil]⟩
  | makeServer base =>
    refine ⟨[], ?_⟩
    dsimp only
    rw [List.getElem?_append_left (List.getElem?_eq_some_iff.mp hsv).1, hsv, List.append_nil]
  | configure hconfigure => exact hsame (Network.configure_same hconfigure).1

/-- A handler runs only where the server executes its call. -/
theorem ran_of_action (h : rn.Action serve e rn') {i k : ℕ} (hran : Ran rn' c i k) :
    Ran rn c i k ∨ ∃ call sv reply, e = .execute c reply ∧ rn.calls[c]? = some call ∧
      call.dispatch = .started i ∧ rn.made[i]? = some sv ∧ k = sv.executed.length := by
  obtain ⟨sv, req, reply, hsv, hk⟩ := hran
  cases h with
  | call req => exact Or.inl ⟨sv, _, _, hsv, hk⟩
  | goes hcall hgoes => exact Or.inl ⟨sv, _, _, hsv, hk⟩
  | @execute c' server call sv' reply' hcall hdispatch hsv' hserve =>
    rw [Network.ran, getElem?_made_set hsv'] at hsv
    split_ifs at hsv with hi
    · obtain rfl := Option.some.inj hsv
      rcases getElem?_concat_cases hk with ⟨rfl, heq⟩ | hold
      · obtain ⟨rfl, -, -⟩ := Execution.mk.inj heq
        exact Or.inr ⟨call, sv', reply', rfl, hcall, hi ▸ hdispatch, hi ▸ hsv', rfl⟩
      · exact Or.inl ⟨sv', req, reply, hi ▸ hsv', hold⟩
    · exact Or.inl ⟨sv, req, reply, hsv, hk⟩
  | makeServer base =>
    rcases getElem?_concat_cases hsv with ⟨-, rfl⟩ | hold
    · cases hk
    · exact Or.inl ⟨sv, req, reply, hold, hk⟩
  | configure hconfigure =>
    exact Or.inl ⟨sv, req, reply, (Network.configure_same hconfigure).1 ▸ hsv, hk⟩

theorem Sound.execute (h : Sound serve rn) {sv : Server E A R} (hcall : rn.calls[c]? = some call)
    (hdispatch : call.dispatch = .started server) (hsv : rn.made[server]? = some sv)
    (hserve : serve sv.history call.req reply = true) :
    CallSound serve (rn.ran c call server sv reply) c
      { call with dispatch := .finished server reply } where
  phase := ((h.call c call hcall).phase.report (Or.inl hdispatch) _).mono
    (extends_of_action (.execute hcall hdispatch hsv hserve))
  idle hidle := by rcases hidle with hd | ⟨_, hd⟩ <;> cases hd
  finished := by
    rintro _ _ ⟨⟩ -
    exact executed_ran hsv hserve

theorem length_calls_of_action (h : rn.Action serve e rn') :
    rn.calls.length ≤ rn'.calls.length := by
  cases h with
  | call req => simp
  | goes hcall hgoes => simp [Network.setCall]
  | execute hcall hdispatch hsv hserve => simp [Network.ran, Network.setCall]
  | makeServer base => exact le_rfl
  | configure hconfigure => rw [(Network.configure_same hconfigure).2]

theorem Sound.calls_of_action (h : Sound serve rn) (haction : rn.Action serve e rn')
    (hcall : rn'.calls[c]? = some call) : CallSound serve rn' c call := by
  have hext := extends_of_action haction
  have hold : rn.calls[c]? = some call → (∀ reply, e ≠ .execute c reply) →
      CallSound serve rn' c call := by
    intro hcall hne
    refine (h.call c call hcall).mono hext fun i k hran => ?_
    rcases ran_of_action haction hran with hran | ⟨-, -, reply, heq, -⟩
    · exact hran
    · exact absurd heq (hne reply)
  cases haction with
  | call req =>
    rcases getElem?_concat_cases hcall with ⟨rfl, rfl⟩ | hcall
    · refine ⟨rfl, fun _ i k hran => ?_, nofun⟩
      exact absurd (h.known _ i k hran) (lt_irrefl _)
    · exact hold hcall nofun
  | @goes e c' before after hbefore hgoes =>
    have hsame : ∀ i k, Ran (rn.setCall c' after) c i k → Ran rn c i k := fun i k hran => hran
    rcases getElem?_set_cases hcall with ⟨rfl, rfl⟩ | ⟨-, hcall⟩
    · exact ((h.call c before hbefore).goes hgoes).mono hext hsame
    · exact (h.call c call hcall).mono hext hsame
  | @execute c' server before sv reply hbefore hdispatch hsv hserve =>
    rcases getElem?_set_cases hcall with ⟨rfl, rfl⟩ | ⟨hne, hcall⟩
    · exact h.execute hbefore hdispatch hsv hserve
    · exact hold hcall fun reply' heq => hne (Event.execute.inj heq).1.symm
  | makeServer base => exact hold hcall nofun
  | configure hconfigure =>
    obtain ⟨hmade, hcalls⟩ := Network.configure_same hconfigure
    refine (h.call c call (hcalls ▸ hcall)).mono hext ?_
    rintro i k ⟨sv, req, reply, hsv, hk⟩
    exact ⟨sv, req, reply, hmade ▸ hsv, hk⟩

theorem Sound.step (h : Sound serve rn) (haction : rn.Action serve e rn') : Sound serve rn' where
  call c call := h.calls_of_action haction
  known c i k hran := by
    refine lt_of_lt_of_le ?_ (length_calls_of_action haction)
    rcases ran_of_action haction hran with hran | ⟨call, -, -, -, hcall, -⟩
    · exact h.known c i k hran
    · exact (List.getElem?_eq_some_iff.mp hcall).1
  once c i k j l hik hjl := by
    rcases ran_of_action haction hik with hold | ⟨call, sv, -, -, hcall, hdispatch, hsv, rfl⟩ <;>
      rcases ran_of_action haction hjl with
        hold' | ⟨call', sv', -, -, hcall', hdispatch', hsv', rfl⟩
    · exact h.once c i k j l hold hold'
    · exact absurd hold ((h.call c call' hcall').idle (Or.inr ⟨j, hdispatch'⟩) i k)
    · exact absurd hold' ((h.call c call hcall).idle (Or.inr ⟨i, hdispatch⟩) j l)
    · obtain rfl := Option.some.inj (hcall.symm.trans hcall')
      obtain rfl := Dispatch.started.inj (hdispatch.symm.trans hdispatch')
      obtain rfl := Option.some.inj (hsv.symm.trans hsv')
      exact ⟨rfl, rfl⟩

theorem sound_of_reached (h : Reached serve rn) : Sound serve rn :=
  h.invariant (fun _ hinit => hinit ▸ sound_makeNetwork)
    fun _ _ _ hsound ⟨_, hstep⟩ => hsound.step (Network.action_of_step hstep)

/-- Whatever the tester does to the network while calls are under way, the handler of a call
runs at most once and at one server, and a call that has returned true has been executed,
with the reply that it returned. -/
theorem call_executed_once (h : Reached serve rn) (hcall : rn.calls[c]? = some call) :
    (∀ i k j l, Ran rn c i k → Ran rn c j l → i = j ∧ k = l) ∧
      ∀ reply, call.phase = .done reply → reply.ok = true →
        ∃ server, Executed serve rn c server call.req reply := by
  have hsound := sound_of_reached h
  refine ⟨hsound.once c, fun reply hphase hok => ?_⟩
  have hdone := (hsound.call c call hcall).phase
  rw [PhaseSound, hphase] at hdone
  exact hdone hok

end Actions

section Example

def counting (history : List (Execution ℕ ℕ ℕ)) (req : ReqMsg ℕ ℕ) (reply : ReplyMsg ℕ) : Bool :=
  reply == ⟨true, some (history.length + req.args)⟩

def firstEnd : ReqMsg ℕ ℕ := ⟨7, "Server.Count", 5⟩

/-- A call whose reply is dropped, and the same request again. -/
def retried : List (Event ℕ ℕ ℕ ℕ) :=
  [.makeServer [], .addServer 0 0, .makeEnd 7, .connect 7 0, .enable 7 true, .setReliable false,
    .call firstEnd, .take 0, .readEndnameInfo 0, .dispatch 0, .execute 0 ⟨true, some 5⟩,
    .collect 0, .lastCheck 0 true, .reply 0, .call firstEnd, .take 1, .readEndnameInfo 1,
    .dispatch 1, .execute 1 ⟨true, some 6⟩, .collect 1, .lastCheck 1 false, .reply 1]

/-- The request is executed for both calls, and the second one returns the reply to its own. -/
theorem call_executed_once_retried : ∃ rn : Network ℕ ℕ ℕ ℕ, Reached counting rn ∧
    rn.calls[0]?.map Call.phase = some (.done .failure) ∧ Ran rn 0 0 0 ∧
    ∃ server, Executed counting rn 1 server firstEnd ⟨true, some 6⟩ := by
  let test := fun rn : Network ℕ ℕ ℕ ℕ => decide
    (rn.calls[0]?.map Call.phase = some (.done .failure) ∧
      rn.calls[1]? = some ⟨firstEnd, .done ⟨true, some 6⟩, .collected⟩ ∧
      rn.made[0]?.map (fun sv => sv.executed[0]?) = some (some ⟨0, firstEnd, ⟨true, some 5⟩⟩))
  have htest : (exec (Network.step? counting) makeNetwork retried).any test = true := by
    decide +kernel
  obtain ⟨rn, hrun, htest⟩ : ∃ rn, ReflTransGen (Step counting) makeNetwork rn ∧ test rn = true :=
    exists_of_exec (fun _ e _ he => ⟨e, he⟩) htest
  obtain ⟨hfirst, hsecond, hran⟩ := of_decide_eq_true htest
  obtain ⟨sv, hsv, hran⟩ := Option.map_eq_some_iff.mp hran
  have hreached : Reached counting rn := ⟨_, rfl, hrun⟩
  exact ⟨rn, hreached, hfirst, ⟨sv, firstEnd, _, hsv, hran⟩,
    (call_executed_once hreached hsecond).2 _ rfl rfl⟩

end Example

end DistributedLabs.Labrpc
