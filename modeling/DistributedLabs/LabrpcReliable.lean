import DistributedLabs.LabrpcCalls

/-!
# Calls over a reliable network

While an end stays enabled and connected, its server stays, and the server answers, a call
through that end is executed exactly once and returns the reply, whatever the other calls and
the rest of the network do. Nothing that happens meanwhile can keep it from returning.
-/

namespace DistributedLabs.Labrpc

open LogPrefixes TransitionRuns Relation

variable {E N A R : Type*} [DecidableEq E] [DecidableEq N]
  {serve : List (Execution E A R) → ReqMsg E A → ReplyMsg R → Bool}
  {rn rn' : Network E N A R} {e : Event E N A R} {c : ℕ} {call call' : Call E N A R}
  {endname : E} {info : EndnameInfo N} {req : ReqMsg E A}

structure Usable (rn : Network E N A R) (endname : E) (info : EndnameInfo N) : Prop where
  reliable : rn.reliable = true ∧ info.reliable = true
  enabled : rn.enabled endname = true
  connected : rn.connections endname = some info.servername
  registered : rn.servers info.servername = some info.server
  present : info.server < rn.made.length
  running : rn.closed = false

/-- Events that leave call `c` through the end alone. -/
def Steady (c : ℕ) (endname : E) (servername : N) : Event E N A R → Bool
  | .executeFails c' | .replyLost c' => c' != c
  | .setReliable yes => yes
  | .makeEnd endname' | .deleteEnd endname' => endname' != endname
  | .connect endname' servername' => endname' != endname || servername' == servername
  | .enable endname' enabled => endname' != endname || enabled
  | .addServer servername' _ | .deleteServer servername' => servername' != servername
  | .cleanup => false
  | _ => true

def SteadyStep (serve : List (Execution E A R) → ReqMsg E A → ReplyMsg R → Bool) (c : ℕ)
    (endname : E) (servername : N) (rn rn' : Network E N A R) : Prop :=
  ∃ e, Steady c endname servername e = true ∧ rn.step? serve e = some rn'

theorem Usable.configure (h : Usable rn endname info)
    (hsteady : Steady c endname info.servername e = true) (hstep : rn.configure e = some rn') :
    Usable rn' endname info := by
  cases e with
  | setReliable yes =>
    obtain rfl := Option.some.inj hstep
    exact { h with reliable := ⟨hsteady, h.reliable.2⟩ }
  | makeEnd endname' =>
    simp only [Network.configure] at hstep
    split_ifs at hstep
    obtain rfl := Option.some.inj hstep
    have hne : endname ≠ endname' := fun heq => by simp [Steady, heq] at hsteady
    exact { h with enabled := by simp [hne, h.enabled], connected := by simp [hne, h.connected] }
  | deleteEnd endname' =>
    simp only [Network.configure] at hstep
    split_ifs at hstep
    obtain rfl := Option.some.inj hstep
    have hne : endname ≠ endname' := fun heq => by simp [Steady, heq] at hsteady
    exact { h with enabled := by simp [hne, h.enabled], connected := by simp [hne, h.connected] }
  | connect endname' servername' =>
    obtain rfl := Option.some.inj hstep
    refine { h with connected := ?_ }
    by_cases heq : endname = endname'
    · simp [Steady, heq] at hsteady
      simp [heq, hsteady]
    · simp [heq, h.connected]
  | enable endname' enabled =>
    obtain rfl := Option.some.inj hstep
    refine { h with enabled := ?_ }
    by_cases heq : endname = endname'
    · simp [Steady, heq] at hsteady
      simp [heq, hsteady]
    · simp [heq, h.enabled]
  | addServer servername' server =>
    simp only [Network.configure] at hstep
    split_ifs at hstep
    obtain rfl := Option.some.inj hstep
    have hne : info.servername ≠ servername' := fun heq => by simp [Steady, heq] at hsteady
    exact { h with registered := by simp [hne, h.registered] }
  | deleteServer servername' =>
    obtain rfl := Option.some.inj hstep
    have hne : info.servername ≠ servername' := fun heq => by simp [Steady, heq] at hsteady
    exact { h with registered := by simp [hne, h.registered] }
  | cleanup => cases hsteady
  | _ => cases hstep

theorem Usable.step (h : Usable rn endname info)
    (hsteady : Steady c endname info.servername e = true) (haction : rn.Action serve e rn') :
    Usable rn' endname info := by
  cases haction with
  | call req => exact { h with }
  | goes hcall hgoes => exact { h with }
  | execute hcall hdispatch hsv hserve =>
    exact { h with present := by simpa [Network.ran] using h.present }
  | makeServer base => exact { h with present := by have := h.present; simp; omega }
  | configure hconfigure => exact h.configure hsteady hconfigure

/-- Call `c` has not failed, and what it has been told is true. -/
def OnItsWay (serve : List (Execution E A R) → ReqMsg E A → ReplyMsg R → Bool)
    (rn : Network E N A R) (c : ℕ) (info : EndnameInfo N) (call : Call E N A R) : Prop :=
  match call.phase with
  | .sending | .taken => True
  | .delaying info' => info' = info
  | .waiting info' => info' = info ∧ (call.dispatch = .started info.server ∨
    ∃ reply, call.dispatch = .finished info.server reply ∧
      Executed serve rn c info.server call.req reply)
  | .returned info' reply => info' = info ∧ Executed serve rn c info.server call.req reply
  | .replying reply | .done reply => Executed serve rn c info.server call.req reply
  | .refused | .gaveUp _ => False

omit [DecidableEq E] [DecidableEq N] in
theorem OnItsWay.mono (h : OnItsWay serve rn c info call) (hext : Extends rn rn') :
    OnItsWay serve rn' c info call := by
  unfold OnItsWay at h ⊢
  split at h
  case h_4 =>
    exact ⟨h.1, h.2.imp_right fun ⟨reply, hd, hexec⟩ => ⟨reply, hd, hexec.mono hext⟩⟩
  case h_5 => exact ⟨h.1, h.2.mono hext⟩
  case h_6 | h_7 => exact h.mono hext
  all_goals exact h

omit [DecidableEq E] [DecidableEq N] in
theorem Usable.readEndnameInfo (h : Usable rn endname info) :
    rn.readEndnameInfo endname = some info := by
  obtain ⟨servername, server, reliable⟩ := info
  obtain ⟨hrn, rfl⟩ := h.reliable
  simp [Network.readEndnameInfo, h.enabled, h.connected, h.registered, hrn]

omit [DecidableEq E] [DecidableEq N] in
theorem Usable.isServerDead (h : Usable rn endname info) :
    rn.isServerDead endname info = false := by
  simp [Network.isServerDead, h.enabled, h.registered]

/-- Where the call is executed, its handler reports the reply of that execution. -/
theorem OnItsWay.goes (h : OnItsWay serve rn c info call) (huse : Usable rn call.req.endname info)
    (hgoes : rn.Goes c call e call')
    (hsteady : Steady c call.req.endname info.servername e = true) :
    OnItsWay serve rn c info call' := by
  have hread := huse.readEndnameInfo
  have halive := huse.isServerDead
  cases hgoes with
  | abandon hp hclosed => rw [huse.running] at hclosed; cases hclosed
  | take hp => simp [OnItsWay]
  | found hp hinfo => simpa [OnItsWay] using Option.some.inj (hinfo.symm.trans hread)
  | refused hp hinfo => rw [hread] at hinfo; cases hinfo
  | timeout hp => simp [OnItsWay, hp] at h
  | dropRequest hp hunreliable =>
    simp only [OnItsWay, hp] at h
    rw [h, huse.reliable.2] at hunreliable
    cases hunreliable
  | dispatch hp =>
    simp only [OnItsWay, hp] at h
    exact ⟨h, Or.inl (h ▸ rfl)⟩
  | executeFails hdispatch => simp [Steady] at hsteady
  | replyLost hdispatch => simp [Steady] at hsteady
  | collect hp hdispatch =>
    simp only [OnItsWay, hp, hdispatch] at h
    obtain ⟨rfl, hstarted | ⟨reply', hfinished, hexec⟩⟩ := h
    · cases hstarted
    · cases hfinished
      exact ⟨rfl, hexec⟩
  | alive hp halive => exact h
  | gaveUp hp hdead =>
    simp only [OnItsWay, hp] at h
    rw [h.1, halive] at hdead
    cases hdead
  | drain hp hdispatch =>
    unfold OnItsWay at h ⊢
    split at h <;> simp_all
  | dead drop hp hdead =>
    simp only [OnItsWay, hp] at h
    rw [h.1, halive] at hdead
    cases hdead
  | dropReply hp hunreliable =>
    simp only [OnItsWay, hp] at h
    rw [h.1, huse.reliable.2] at hunreliable
    cases hunreliable
  | passed hp halive =>
    simp only [OnItsWay, hp] at h
    exact h.2
  | failed drop hp => simp [OnItsWay, hp] at h
  | reply hp => simpa [OnItsWay, hp] using h

omit [DecidableEq E] [DecidableEq N] in
theorem OnItsWay.executed {server : ℕ} {reply : ReplyMsg R} (h : OnItsWay serve rn c info call)
    (hdispatch : call.dispatch = .started server)
    (hexec : Executed serve rn c server call.req reply) :
    OnItsWay serve rn c info { call with dispatch := .finished server reply } := by
  obtain ⟨req, phase, dispatch⟩ := call
  cases phase with
  | waiting info' =>
    obtain ⟨rfl, hstarted | ⟨reply', hfinished, -⟩⟩ := h
    · obtain rfl := Dispatch.started.inj (hdispatch.symm.trans hstarted)
      exact ⟨rfl, Or.inr ⟨reply, rfl, hexec⟩⟩
    · cases hdispatch.symm.trans hfinished
  | _ => exact h

/-- Call `c` with the given request is on its way to the server that `info` names. -/
def Underway (serve : List (Execution E A R) → ReqMsg E A → ReplyMsg R → Bool) (c : ℕ)
    (req : ReqMsg E A) (info : EndnameInfo N) (rn : Network E N A R) : Prop :=
  Usable rn req.endname info ∧
    ∃ call, rn.calls[c]? = some call ∧ call.req = req ∧ OnItsWay serve rn c info call

theorem Underway.step (h : Underway serve c req info rn)
    (hstep : SteadyStep serve c req.endname info.servername rn rn') :
    Underway serve c req info rn' := by
  obtain ⟨e, hsteady, hstep⟩ := hstep
  obtain ⟨huse, call, hcall, rfl, hway⟩ := h
  have haction := Network.action_of_step hstep
  have hext := extends_of_action haction
  refine ⟨huse.step hsteady haction, ?_⟩
  cases haction with
  | call req =>
    have hlt := (List.getElem?_eq_some_iff.mp hcall).1
    exact ⟨call, (List.getElem?_append_left hlt).trans hcall, rfl, hway.mono hext⟩
  | @goes e c' before after hbefore hgoes =>
    by_cases hc : c' = c
    · subst hc
      obtain rfl := Option.some.inj (hbefore.symm.trans hcall)
      have hlt := (List.getElem?_eq_some_iff.mp hcall).1
      exact ⟨after, List.getElem?_set_self hlt, goes_req hgoes,
        (hway.goes huse hgoes hsteady).mono hext⟩
    · exact ⟨call, (List.getElem?_set_ne hc).trans hcall, rfl, hway.mono hext⟩
  | @execute c' server before sv reply hbefore hdispatch hsv hserve =>
    by_cases hc : c' = c
    · subst hc
      obtain rfl := Option.some.inj (hbefore.symm.trans hcall)
      have hlt := (List.getElem?_eq_some_iff.mp hcall).1
      refine ⟨_, List.getElem?_set_self hlt, rfl, ?_⟩
      exact (hway.mono hext).executed hdispatch (executed_ran hsv hserve)
    · exact ⟨call, (List.getElem?_set_ne hc).trans hcall, rfl, hway.mono hext⟩
  | makeServer base => exact ⟨call, hcall, rfl, hway.mono hext⟩
  | configure hconfigure =>
    exact ⟨call, (Network.configure_same hconfigure).2 ▸ hcall, rfl, hway.mono hext⟩

def remaining (call : Call E N A R) : ℕ :=
  match call.phase, call.dispatch with
  | .sending, _ => 7
  | .taken, _ => 6
  | .refused, _ | .delaying _, _ => 5
  | .waiting _, .finished _ _ => 3
  | .waiting _, _ => 4
  | .returned _ _, _ | .gaveUp _, _ => 2
  | .replying _, _ => 1
  | .done _, _ => 0

omit [DecidableEq E] [DecidableEq N] in
theorem advance_eq {next : Call E N A R → Option (Call E N A R)}
    (hcall : rn.calls[c]? = some call) (hnext : next call = some call') :
    rn.advance c next = some (rn.setCall c call') := by
  simp [Network.advance, hcall, hnext]

omit [DecidableEq E] [DecidableEq N] in
theorem execute_eq {server : ℕ} {sv : Server E A R} {reply : ReplyMsg R}
    (hcall : rn.calls[c]? = some call) (hdispatch : call.dispatch = .started server)
    (hsv : rn.made[server]? = some sv) (hserve : serve sv.history call.req reply = true) :
    rn.execute serve c reply = some (rn.ran c call server sv reply) := by
  simp [Network.execute, hcall, hdispatch, hsv, hserve]

omit [DecidableEq E] [DecidableEq N] in
theorem getElem?_setCall (hcall : rn.calls[c]? = some call) :
    (rn.setCall c call').calls[c]? = some call' :=
  List.getElem?_set_self (List.getElem?_eq_some_iff.mp hcall).1

/-- A call on its way that has not returned can make its next move. -/
theorem Underway.progress (h : Underway serve c req info rn)
    (hserve : ∀ history, ∃ reply, serve history req reply = true)
    (hcall : rn.calls[c]? = some call)
    (hdone : ∀ reply, call.phase ≠ .done reply) :
    ∃ rn' call', SteadyStep serve c req.endname info.servername rn rn' ∧
      rn'.calls[c]? = some call' ∧ remaining call' < remaining call := by
  obtain ⟨huse, call', hcall', rfl, hway⟩ := h
  obtain rfl := Option.some.inj (hcall.symm.trans hcall')
  have moves : ∀ (e : Event E N A R) (call' : Call E N A R),
      Steady c call.req.endname info.servername e = true →
      rn.step? serve e = some (rn.setCall c call') → remaining call' < remaining call →
      ∃ rn' call', SteadyStep serve c call.req.endname info.servername rn rn' ∧
        rn'.calls[c]? = some call' ∧ remaining call' < remaining call :=
    fun e call' hsteady hstep hlt => ⟨_, call', ⟨e, hsteady, hstep⟩, getElem?_setCall hcall, hlt⟩
  obtain ⟨req, phase, dispatch⟩ := call
  cases phase with
  | sending => exact moves (.take c) _ rfl (advance_eq hcall rfl) (by simp [remaining])
  | taken =>
    refine moves (.readEndnameInfo c) ⟨req, .delaying info, dispatch⟩ rfl
      (advance_eq hcall ?_) (by simp [remaining])
    simp only [huse.readEndnameInfo]
  | delaying info' => exact moves (.dispatch c) _ rfl (advance_eq hcall rfl) (by simp [remaining])
  | waiting info' =>
    obtain ⟨rfl, hdispatch | ⟨reply, hdispatch, -⟩⟩ := hway
    · obtain ⟨sv, hsv⟩ : ∃ sv, rn.made[info'.server]? = some sv :=
        ⟨_, List.getElem?_eq_getElem huse.present⟩
      obtain ⟨reply, hreply⟩ := hserve sv.history
      cases hdispatch
      exact ⟨_, _, ⟨.execute c reply, rfl, execute_eq hcall rfl hsv hreply⟩,
        getElem?_setCall hcall, by simp [remaining]⟩
    · cases hdispatch
      exact moves (.collect c) _ rfl (advance_eq hcall rfl) (by simp [remaining])
  | returned info' reply =>
    obtain ⟨rfl, -⟩ := hway
    refine moves (.lastCheck c false) ⟨req, .replying reply, dispatch⟩ rfl
      (advance_eq hcall ?_) (by simp [remaining])
    simp [huse.isServerDead]
  | replying reply => exact moves (.reply c) _ rfl (advance_eq hcall rfl) (by simp [remaining])
  | done reply => exact absurd rfl (hdone reply)
  | refused => exact hway.elim
  | gaveUp info' => exact hway.elim

theorem Underway.run (h : Underway serve c req info rn)
    (hrun : ReflTransGen (SteadyStep serve c req.endname info.servername) rn rn') :
    Underway serve c req info rn' :=
  run_preserves (fun _ _ hway hstep => hway.step hstep) h hrun

theorem Underway.returns (h : Underway serve c req info rn)
    (hserve : ∀ history, ∃ reply, serve history req reply = true) :
    ∃ rn' reply, ReflTransGen (SteadyStep serve c req.endname info.servername) rn rn' ∧
      rn'.calls[c]?.map Call.phase = some (.done reply) := by
  let goal := fun rn : Network E N A R => ∃ reply, rn.calls[c]?.map Call.phase = some (.done reply)
  have hprogress : ∀ rn, Underway serve c req info rn → ¬ goal rn →
      ∃ rn', SteadyStep serve c req.endname info.servername rn rn' ∧
        Underway serve c req info rn' ∧
        (rn'.calls[c]?.map remaining).getD 0 < (rn.calls[c]?.map remaining).getD 0 := by
    intro rn hway hgoal
    obtain ⟨-, call, hcall, -⟩ := id hway
    obtain ⟨rn', call', hstep, hcall', hlt⟩ := hway.progress hserve hcall fun reply hphase =>
      hgoal ⟨reply, by rw [hcall, Option.map_some, hphase]⟩
    exact ⟨rn', hstep, hway.step hstep, by simpa [hcall, hcall'] using hlt⟩
  obtain ⟨rn', hrun, -, reply, hdone⟩ := exists_run_of_rank Nat.lt_wfRel.wf _ hprogress h
  exact ⟨rn', reply, hrun, hdone⟩

/-- A call made through a usable end of a reliable network, while nothing is done to that end
or to its server, and the network is not cleaned up: whenever it has returned, the server has
executed the request once and the reply is that of the execution, and until then, if the server
has a reply to the request whatever it has executed, it can still return. -/
theorem reliable_call_returns (h : Reached serve rn) (huse : Usable rn req.endname info)
    (hmade : rn.step? serve (.call req) = some rn')
    {after : Network E N A R}
    (hrun : ReflTransGen (SteadyStep serve rn.calls.length req.endname info.servername) rn' after) :
    (∀ reply, after.calls[rn.calls.length]?.map Call.phase = some (.done reply) →
      Executed serve after rn.calls.length info.server req reply ∧
        ∀ i k j l, Ran after rn.calls.length i k → Ran after rn.calls.length j l → i = j ∧ k = l) ∧
    ((∀ history, ∃ reply, serve history req reply = true) → ∃ last reply,
      ReflTransGen (SteadyStep serve rn.calls.length req.endname info.servername) after last ∧
        last.calls[rn.calls.length]?.map Call.phase = some (.done reply)) := by
  have hstart : Underway serve rn.calls.length req info rn' := by
    obtain rfl := Option.some.inj hmade
    exact ⟨{ huse with }, _, List.getElem?_concat_length, rfl, trivial⟩
  have hway := hstart.run hrun
  refine ⟨fun reply hdone => ⟨?_, ?_⟩, hway.returns⟩
  · obtain ⟨-, call, hcall, rfl, hway⟩ := hway
    rw [hcall, Option.map_some, Option.some.injEq] at hdone
    simpa only [OnItsWay, hdone] using hway
  · have hreached : Reached serve after :=
      (h.tail ⟨_, hmade⟩).trans (ReflTransGen.mono (fun _ _ ⟨e, _, hstep⟩ => ⟨e, hstep⟩) _ _ hrun)
    exact (sound_of_reached hreached).once _

section Example

def twoServers : List (Event ℕ ℕ ℕ ℕ) :=
  [.makeServer [], .addServer 0 0, .makeServer [], .addServer 1 1, .makeEnd 7, .connect 7 0,
    .enable 7 true, .makeEnd 8, .connect 8 1, .enable 8 true, .call ⟨8, "Server.Count", 3⟩,
    .take 0, .readEndnameInfo 0, .dispatch 0]

def besides : List (Event ℕ ℕ ℕ ℕ) :=
  [.take 1, .readEndnameInfo 1, .deleteServer 1, .execute 0 ⟨true, some 3⟩, .dispatch 1, .poll 0,
    .execute 1 ⟨true, some 5⟩, .collect 1, .lastCheck 1 false, .reply 1]

def steadyStep? (rn : Network ℕ ℕ ℕ ℕ) (e : Event ℕ ℕ ℕ ℕ) : Option (Network ℕ ℕ ℕ ℕ) :=
  if Steady 1 7 0 e then rn.step? counting e else none

theorem steady_of_exec {rn : Network ℕ ℕ ℕ ℕ} {events : List (Event ℕ ℕ ℕ ℕ)}
    {test : Network ℕ ℕ ℕ ℕ → Bool} (h : (exec steadyStep? rn events).any test = true) :
    ∃ after, ReflTransGen (SteadyStep counting 1 7 0) rn after ∧ test after = true := by
  refine exists_of_exec (fun rn e t he => ?_) h
  unfold steadyStep? at he
  split_ifs at he with hsteady
  exact ⟨e, hsteady, he⟩

/-- The second of two calls returns while the first one is lost with its server. -/
theorem reliable_call_returns_besides : ∃ rn after : Network ℕ ℕ ℕ ℕ,
    Reached counting rn ∧ rn.calls.length = 1 ∧
      Executed counting after 1 0 firstEnd ⟨true, some 5⟩ := by
  let test := fun rn : Network ℕ ℕ ℕ ℕ => decide
    ((rn.reliable = true ∧ true = true) ∧ rn.enabled 7 = true ∧ rn.connections 7 = some 0 ∧
      rn.servers 0 = some 0 ∧ 0 < rn.made.length ∧ rn.closed = false ∧ rn.calls.length = 1) &&
    (exec steadyStep? { rn with calls := rn.calls ++ [⟨firstEnd, .sending, .none⟩] } besides).any
      fun after => decide (after.calls[1]?.map Call.phase = some (.done ⟨true, some 5⟩))
  have htest : (exec (Network.step? counting) makeNetwork twoServers).any test = true := by
    decide +kernel
  obtain ⟨rn, hrun, htest⟩ : ∃ rn, ReflTransGen (Step counting) makeNetwork rn ∧ test rn = true :=
    exists_of_exec (fun _ e _ he => ⟨e, he⟩) htest
  obtain ⟨hshape, hend⟩ := Bool.and_eq_true_iff.mp htest
  obtain ⟨h₁, h₂, h₃, h₄, h₅, h₆, hlen⟩ := of_decide_eq_true hshape
  obtain ⟨after, hafter, hdone⟩ := steady_of_exec hend
  have hreached : Reached counting rn := ⟨_, rfl, hrun⟩
  have husable : Usable rn firstEnd.endname ⟨0, 0, true⟩ := ⟨h₁, h₂, h₃, h₄, h₅, h₆⟩
  have hsteady : ReflTransGen (SteadyStep counting rn.calls.length firstEnd.endname 0)
      { rn with calls := rn.calls ++ [⟨firstEnd, .sending, .none⟩] } after := by
    rw [hlen]
    exact hafter
  have hcall := reliable_call_returns hreached husable rfl hsteady
  rw [hlen] at hcall
  exact ⟨rn, after, hreached, hlen, (hcall.1 _ (of_decide_eq_true hdone)).1⟩

end Example

end DistributedLabs.Labrpc
