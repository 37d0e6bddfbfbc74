import DistributedLabs.DemuxCalls

/-!
# The multiplexed calls as a table of calls that are settled once

A call is accepted by `put`, resolved when the reader sends on its channel, and refused once the
map is closed. Every reply that is sent is the failure reply or an answer of the server with the
tag of the call. When the reader has finished, every accepted call has returned, and from every
state the reader can come to its end.
-/

namespace DistributedLabs.Demux

open Relation TransitionRuns

variable {s t : State} {c : ℕ}

section Origins

/-- The reply is the failure reply, or an answer of the server with the given tag. -/
def Own (answered : List Msg) (tag : Ttag) (rep : Reply) : Prop :=
  rep = failure ∨ ∃ m ∈ answered, m.tag = tag ∧ rep = m.reply

structure Genuine (s : State) : Prop where
  replies : ∀ m ∈ s.replies, m ∈ s.answered
  hand : ∀ {tag rep rest}, s.reader = .replying tag rep rest → Own s.answered tag rep
  sent : ∀ c, ∀ rep ∈ (s.calls c).sent, Own s.answered (s.calls c).tag rep

theorem Own.cons {answered : List Msg} {tag : Ttag} {rep : Reply} (h : Own answered tag rep)
    (m : Msg) : Own (m :: answered) tag rep := by
  rcases h with hfail | ⟨m', hm', htag, hrep⟩
  · exact Or.inl hfail
  · exact Or.inr ⟨m', List.mem_cons_of_mem m hm', htag, hrep⟩

/-- A step in which nothing is sent on a channel. -/
theorem Genuine.goOn (h : Genuine s)
    (hcalls : ∀ c, (t.calls c).sent = (s.calls c).sent ∧ (t.calls c).tag = (s.calls c).tag)
    (hreplies : t.replies ⊆ s.replies)
    (hanswered : t.answered = s.answered)
    (hhand : ∀ {tag rep rest}, t.reader = .replying tag rep rest → Own s.answered tag rep) :
    Genuine t where
  replies := by
    rw [hanswered]
    exact fun m hm => h.replies m (hreplies hm)
  hand := by
    rw [hanswered]
    exact hhand
  sent c := by
    rw [(hcalls c).1, (hcalls c).2, hanswered]
    exact h.sent c

theorem setPhase_kept (s : State) (c : ℕ) (phase : Phase) (c' : ℕ) :
    ((s.setPhase c phase).calls c').sent = (s.calls c').sent ∧
      ((s.setPhase c phase).calls c').tag = (s.calls c').tag := by
  simp only [State.setPhase, State.setCall, Function.update_apply]
  split_ifs with hc
  · rw [hc]
    exact ⟨rfl, rfl⟩
  · exact ⟨rfl, rfl⟩

theorem Genuine.sendReceive (h : Genuine s) (b : Bytes) :
    Genuine { s.setCall s.count ⟨s.nextTag, b, .tagged, []⟩ with
      nextTag := s.nextTag + 1
      count := s.count + 1 } where
  replies := h.replies
  hand := h.hand
  sent c := by
    simp only [State.setCall, Function.update_apply]
    split_ifs with hc
    · intro rep hrep
      cases hrep
    · exact h.sent c

theorem Genuine.answer (h : Genuine s) (i : ℕ) (m : Msg) :
    Genuine { s with
      received := s.received.eraseIdx i
      replies := m :: s.replies
      answered := m :: s.answered } where
  replies m' hm' := by
    rcases List.mem_cons.mp hm' with rfl | hold
    · exact List.mem_cons_self
    · exact List.mem_cons_of_mem m (h.replies m' hold)
  hand heq := (h.hand heq).cons m
  sent c rep hrep := (h.sent c rep hrep).cons m

theorem Genuine.remove (h : Genuine s) (hs : Sound s) {tag : Ttag} {rep : Reply}
    {rest : Option (List Ttag)} {ch : ℕ} (hreader : s.reader = .replying tag rep rest)
    (hch : s.callmap.calls.lookup tag = some ch) :
    Genuine { s.setCall ch { s.calls ch with sent := rep :: (s.calls ch).sent } with
      callmap := { s.callmap with calls := s.callmap.calls.erase tag }
      reader := .sending ch rep rest } where
  replies := h.replies
  hand heq := by cases heq
  sent c := by
    simp only [State.setCall, Function.update_apply]
    split_ifs with hc
    · intro rep' hrep'
      rcases List.mem_cons.mp hrep' with rfl | hold
      · rw [((hs.settles ch).entry hch).1]
        exact h.hand hreader
      · exact h.sent ch rep' hold
    · exact h.sent c

theorem genuine_of_action (hs : Sound s) (h : Genuine s) (ha : Action s t) : Genuine t := by
  have hkept : ∀ c, (s.calls c).sent = (s.calls c).sent ∧ (s.calls c).tag = (s.calls c).tag :=
    fun _ => ⟨rfl, rfl⟩
  cases ha with
  | sendReceive b hmu => exact h.sendReceive b
  | refuse hphase hclosed => exact h.goOn (setPhase_kept s _ _) (List.Subset.refl _) rfl h.hand
  | register hphase hopen => exact h.goOn (setPhase_kept s _ _) (List.Subset.refl _) rfl h.hand
  | write reaches hphase hmu => exact h.goOn (setPhase_kept s _ _) (List.Subset.refl _) rfl h.hand
  | wrote hphase => exact h.goOn (setPhase_kept s _ _) (List.Subset.refl _) rfl h.hand
  | @answer i r b ok hr => exact h.answer i ⟨r.1, b, ok⟩
  | @read i m hreader hm =>
    refine h.goOn hkept (fun _ => List.mem_of_mem_eraseIdx) rfl fun heq => ?_
    obtain ⟨rfl, rfl, -⟩ := Reader.replying.inj heq
    exact Or.inr ⟨m, h.replies m (List.mem_of_getElem? hm), rfl, rfl⟩
  | readFails hreader => exact h.goOn hkept (List.Subset.refl _) rfl Reader.noConfusion
  | closeReader hreader => exact h.goOn hkept (List.Subset.refl _) rfl Reader.noConfusion
  | outstanding hreader hts => exact h.goOn hkept (List.Subset.refl _) rfl Reader.noConfusion
  | drain hreader =>
    refine h.goOn hkept (List.Subset.refl _) rfl fun heq => ?_
    obtain ⟨-, rfl, -⟩ := Reader.replying.inj heq
    exact Or.inl rfl
  | finish hreader => exact h.goOn hkept (List.Subset.refl _) rfl Reader.noConfusion
  | remove hreader hch => exact h.remove hs hreader hch
  | fatal hreader hch => exact h.goOn hkept (List.Subset.refl _) rfl Reader.noConfusion
  | @send ch rep rest hreader hphase =>
    refine h.goOn (setPhase_kept s _ _) (List.Subset.refl _) rfl ?_
    cases rest <;> exact Reader.noConfusion
  | close k => exact h.goOn hkept (List.Subset.refl _) rfl h.hand
  | closeMap k => exact h.goOn hkept (List.Subset.refl _) rfl h.hand

end Origins

section Invariants

structure Invariant (s : State) : Prop where
  sound : Sound s
  matched : s.reader.inLoop = true → Matched s
  drains : Drains s
  genuine : Genuine s
  mutex : ∀ {c}, s.mu = some c → (s.calls c).phase = .writing
  refused : ∀ {c err}, (s.calls c).phase = .refused err → err = "conn closed"

theorem mutex_of_action (h : ∀ {c}, s.mu = some c → (s.calls c).phase = .writing)
    (ha : Action s t) {c : ℕ} (hmu : t.mu = some c) : (t.calls c).phase = .writing := by
  have hother : ∀ {c' : ℕ} {phase : Phase}, (s.calls c').phase ≠ .writing → s.mu = some c →
      ((s.setPhase c' phase).calls c).phase = .writing := by
    intro c' phase hc' hc
    have hne : c ≠ c' := by
      rintro rfl
      exact hc' (h hc)
    simp only [State.setPhase, State.setCall, Function.update_of_ne hne]
    exact h hc
  cases ha with
  | sendReceive b hfree =>
    cases hfree.symm.trans hmu
  | refuse hphase hclosed => exact hother (by rw [hphase]; exact Phase.noConfusion) hmu
  | register hphase hopen => exact hother (by rw [hphase]; exact Phase.noConfusion) hmu
  | write reaches hphase hfree =>
    obtain rfl := Option.some.inj hmu
    simp only [State.setPhase, State.setCall, Function.update_self]
  | wrote hphase => cases hmu
  | remove hreader hch =>
    simp only [State.setCall, Function.update_apply]
    split_ifs with hc
    · exact hc ▸ h hmu
    · exact h hmu
  | send hreader hphase => exact hother (by rw [hphase]; exact Phase.noConfusion) hmu
  | _ => exact h hmu

theorem refused_of_action
    (h : ∀ {c err}, (s.calls c).phase = .refused err → err = "conn closed") (ha : Action s t)
    {c : ℕ} {err : String} (hc : (t.calls c).phase = .refused err) : err = "conn closed" := by
  have hset : ∀ {c' : ℕ} {phase : Phase}, (∀ err, phase = .refused err → err = "conn closed") →
      ((s.setPhase c' phase).calls c).phase = .refused err → err = "conn closed" := by
    intro c' phase hphase hc
    simp only [State.setPhase, State.setCall, Function.update_apply] at hc
    split_ifs at hc
    · exact hphase err hc
    · exact h hc
  cases ha with
  | sendReceive b hmu =>
    simp only [State.setCall, Function.update_apply] at hc
    split_ifs at hc
    exact h hc
  | refuse hphase hclosed => exact hset (fun err herr => (Phase.refused.inj herr).symm) hc
  | register hphase hopen => exact hset (fun _ => Phase.noConfusion) hc
  | write reaches hphase hmu => exact hset (fun _ => Phase.noConfusion) hc
  | wrote hphase => exact hset (fun _ => Phase.noConfusion) hc
  | remove hreader hch =>
    simp only [State.setCall, Function.update_apply] at hc
    split_ifs at hc
    · exact h hc
    · exact h hc
  | send hreader hphase => exact hset (fun _ => Phase.noConfusion) hc
  | _ => exact h hc

theorem invariant_newDemuxClnt : Invariant newDemuxClnt where
  sound := sound_newDemuxClnt
  matched _ := by
    refine ⟨List.nodup_nil, fun tag htag => ?_, fun htarget => ?_⟩
    · cases htag
    · cases htarget
  drains := drains_of_early rfl fun _ _ => Reader.noConfusion
  genuine := by
    refine ⟨fun m hm => ?_, fun heq => ?_, fun c rep hrep => ?_⟩
    · cases hm
    · cases heq
    · cases hrep
  mutex hmu := by cases hmu
  refused hc := by cases hc

theorem invariant_of_action (h : Invariant s) (hcount : s.count < 2 ^ 32) (ha : Action s t) :
    Invariant t where
  sound := sound_of_action h.sound hcount ha
  matched := matched_of_action h.sound hcount h.matched ha
  drains := drains_of_action h.drains h.matched ha
  genuine := genuine_of_action h.sound h.genuine ha
  mutex := mutex_of_action h.mutex ha
  refused := refused_of_action h.refused ha

theorem count_le_of_action (ha : Action s t) : s.count ≤ t.count := by
  cases ha with
  | sendReceive b hmu => exact Nat.le_succ _
  | _ => exact le_rfl

theorem invariant_of_reached (hs : Reached s) (hcount : s.count < 2 ^ 32) : Invariant s := by
  refine Reachable.invariant (I := fun s => s.count < 2 ^ 32 → Invariant s) hs ?_ ?_ hcount
  · rintro _ rfl _
    exact invariant_newDemuxClnt
  · rintro u v - ih ⟨e, he⟩ hv
    have ha := action_of_step he
    have hu := lt_of_le_of_lt (count_le_of_action ha) hv
    exact invariant_of_action (ih hu) hu ha

end Invariants

section Refinement

def Call.status (call : Call) : OneShotCalls.Status Reply :=
  match call.phase with
  | .idle | .tagged => .fresh
  | .refused _ => .refused
  | .registered | .writing | .waiting => match call.sent with
    | [] => .pending
    | rep :: _ => .resolved rep
  | .returned rep => .resolved rep

def State.table (s : State) : OneShotCalls.Table ℕ Reply :=
  ⟨fun c => (s.calls c).status, !s.callmap.closed⟩

theorem status_of_pending {call : Call} (h : call.phase.pending = true) :
    call.status = match call.sent with
      | [] => .pending
      | rep :: _ => .resolved rep := by
  unfold Call.status
  cases hphase : call.phase <;> rw [hphase] at h <;> first | rfl | cases h

theorem table_setCall (s : State) (c : ℕ) (call : Call) : (s.setCall c call).table =
    { s.table with status := Function.update s.table.status c call.status } := by
  simp only [State.table, State.setCall, OneShotCalls.Table.mk.injEq, and_true]
  funext c'
  by_cases hc : c' = c
  · subst hc
    rw [Function.update_self, Function.update_self]
  · rw [Function.update_of_ne hc, Function.update_of_ne hc]

/-- A step of a call that leaves its status as it is. -/
theorem table_setCall_of_eq {call : Call} (h : call.status = (s.calls c).status) :
    (s.setCall c call).table = s.table := by
  rw [table_setCall, h]
  exact congrArg (OneShotCalls.Table.mk · _) (Function.update_eq_self c s.table.status)

theorem table_setPhase_of_pending {phase : Phase} (hold : (s.calls c).phase.pending = true)
    (hnew : phase.pending = true) : (s.setPhase c phase).table = s.table := by
  apply table_setCall_of_eq
  rw [status_of_pending hold, status_of_pending hnew]

/-- A step of a call that the table takes as well. -/
theorem step_setCall {call : Call} {x : OneShotCalls.Status Reply} (hx : call.status = x)
    (h : OneShotCalls.Step s.table
      { s.table with status := Function.update s.table.status c x }) :
    OneShotCalls.Step s.table (s.setCall c call).table := by
  rwa [table_setCall, hx]

/-- Every step leaves the table alone or is a step of it. -/
theorem table_of_action (h : Sound s) (ha : Action s t) :
    t.table = s.table ∨ OneShotCalls.Step s.table t.table := by
  cases ha with
  | sendReceive b hmu =>
    left
    apply table_setCall_of_eq
    rw [Call.status, Call.status, h.idle _ le_rfl]
  | @refuse c hphase hclosed =>
    right
    have hfresh : (s.calls c).status = .fresh := by rw [Call.status, hphase]
    exact step_setCall rfl (.refuse (by simp [State.table, hclosed]) hfresh)
  | @register c hphase hopen =>
    right
    have hfresh : (s.calls c).status = .fresh := by rw [Call.status, hphase]
    have hsent : (s.calls c).sent = [] := by
      apply (h.settles c).unsent <;> rw [hphase] <;> rfl
    have hpending : Call.status { s.calls c with phase := .registered } = .pending := by
      rw [status_of_pending rfl, hsent]
    exact step_setCall hpending (.accept (by simp [State.table, hopen]) hfresh)
  | write reaches hphase hmu =>
    exact Or.inl (table_setPhase_of_pending (by rw [hphase]; rfl) rfl)
  | wrote hphase => exact Or.inl (table_setPhase_of_pending (by rw [hphase]; rfl) rfl)
  | closeReader hreader => exact Or.inr .close
  | closeMap k => exact Or.inr .close
  | @remove tag rep rest ch hreader hch =>
    right
    obtain ⟨-, hp, hsent⟩ := (h.settles ch).entry hch
    have hpending : (s.calls ch).status = .pending := by rw [status_of_pending hp, hsent]
    exact step_setCall (status_of_pending hp) (.resolve rep hpending)
  | @send ch rep rest hreader hphase =>
    left
    obtain ⟨hp, hsent⟩ := (h.settles ch).target (show s.reader.target = some (ch, rep) by
      rw [hreader]; rfl)
    apply table_setCall_of_eq
    rw [status_of_pending hp, hsent]
    rfl
  | _ => exact Or.inl rfl

/-- A step of a run with fewer calls than there are tags. -/
def ShortStep (s t : State) : Prop := Step s t ∧ t.count < 2 ^ 32

theorem shortSteps_of_run (h : ReflTransGen Step s t) (hcount : t.count < 2 ^ 32) :
    ReflTransGen ShortStep s t := by
  induction h with
  | refl => exact .refl
  | tail _ hstep ih =>
    obtain ⟨e, he⟩ := hstep
    exact (ih (lt_of_le_of_lt (count_le_of_action (action_of_step he)) hcount)).tail
      ⟨⟨e, he⟩, hcount⟩

/-- The multiplexed calls are a table of calls that are settled once. -/
theorem simulation : Simulation (· = newDemuxClnt) ShortStep (· = OneShotCalls.Table.empty)
    OneShotCalls.Step fun s a => (Invariant s ∧ s.count < 2 ^ 32) ∧ a = s.table where
  start := by
    rintro _ rfl
    exact ⟨_, rfl, ⟨invariant_newDemuxClnt, by decide⟩, rfl⟩
  forward := by
    rintro s t _ ⟨⟨h, hcount⟩, rfl⟩ ⟨⟨e, he⟩, hcount'⟩
    have ha := action_of_step he
    refine ⟨t.table, ?_, ⟨invariant_of_action h hcount ha, hcount'⟩, rfl⟩
    rcases table_of_action h.sound ha with hsame | hstep
    · rw [hsame]
    · exact .single hstep

theorem count_le_of_run (h : ReflTransGen Step s t) : s.count ≤ t.count := by
  induction h with
  | refl => exact le_rfl
  | tail _ hstep ih =>
    obtain ⟨e, he⟩ := hstep
    exact Nat.le_trans ih (count_le_of_action (action_of_step he))

theorem later_of_run (hs : Reached s) (h : ReflTransGen Step s t) (hcount : t.count < 2 ^ 32) :
    OneShotCalls.Later s.table t.table := by
  have hcount' := lt_of_le_of_lt (count_le_of_run h) hcount
  obtain ⟨b, hb, -, rfl⟩ := simulation.run ⟨⟨invariant_of_reached hs hcount', hcount'⟩, rfl⟩
    (shortSteps_of_run h hcount)
  exact OneShotCalls.later_of_run hb

end Refinement

section Progress

def CanReach (s : State) (P : State → Prop) : Prop :=
  ∃ t, ReflTransGen Step s t ∧ t.count = s.count ∧ P t

theorem CanReach.here {P : State → Prop} (h : P s) : CanReach s P := ⟨s, .refl, rfl, h⟩

theorem CanReach.step {P : State → Prop} {e : Event} (he : s.step? e = some t)
    (hcount : t.count = s.count) (h : CanReach t P) : CanReach s P := by
  obtain ⟨u, hrun, hu, hP⟩ := h
  exact ⟨u, .head ⟨e, he⟩ hrun, hu.trans hcount, hP⟩

theorem CanReach.trans {P Q : State → Prop} (h : CanReach s P)
    (h' : ∀ t, ReflTransGen Step s t → t.count = s.count → P t → CanReach t Q) : CanReach s Q := by
  obtain ⟨t, hrun, ht, hP⟩ := h
  obtain ⟨u, hrun', hu, hQ⟩ := h' t hrun ht hP
  exact ⟨u, hrun.trans hrun', hu.trans ht, hQ⟩

theorem wrote_step (h : (s.calls c).phase = .writing) :
    s.step? (.wrote c) = some { s.setPhase c .waiting with mu := none } := by
  rw [State.step?, if_pos h]

theorem calls_setPhase_self (s : State) (c : ℕ) (phase : Phase) :
    ((s.setPhase c phase).calls c).phase = phase := by
  simp only [State.setPhase, State.setCall, Function.update_self]

/-- A call that is registered comes to wait for its reply, whatever the reader does. -/
theorem canReach_waiting (h : Invariant s) (hp : (s.calls c).phase.pending = true) :
    CanReach s fun t => (t.calls c).phase = .waiting ∧ t.reader = s.reader := by
  have hwrote : ∀ u : State, (u.calls c).phase = .writing → u.reader = s.reader →
      CanReach u fun t => (t.calls c).phase = .waiting ∧ t.reader = s.reader := by
    intro u hu hreader
    exact .step (wrote_step hu) rfl (.here ⟨calls_setPhase_self u c .waiting, hreader⟩)
  have hwrite : ∀ u : State, (u.calls c).phase = .registered → u.mu = none → u.reader = s.reader →
      CanReach u fun t => (t.calls c).phase = .waiting ∧ t.reader = s.reader := by
    intro u hu hmu hreader
    have he : u.step? (.write c false) = some { u.setPhase c .writing with mu := some c } := by
      rw [State.step?, if_pos ⟨hu, hmu⟩]
      rfl
    exact .step he rfl (hwrote _ (calls_setPhase_self u c .writing) hreader)
  cases hphase : (s.calls c).phase with
  | registered =>
    cases hmu : s.mu with
    | none => exact hwrite s hphase hmu rfl
    | some c' =>
      have hc' := h.mutex hmu
      refine .step (wrote_step hc') rfl (hwrite _ ?_ rfl rfl)
      have hne : c ≠ c' := by
        rintro rfl
        rw [hphase] at hc'
        cases hc'
      simp only [State.setPhase, State.setCall, Function.update_of_ne hne]
      exact hphase
  | writing => exact hwrote s hphase rfl
  | waiting => exact .here ⟨hphase, rfl⟩
  | _ =>
    rw [hphase] at hp
    cases hp

/-- A send comes to its end. -/
theorem canReach_resume (h : Invariant s) {ch : ℕ} {rep : Reply} {rest : Option (List Ttag)}
    (hreader : s.reader = .sending ch rep rest) :
    CanReach s fun t => t.reader = .resume rest := by
  have hp := ((h.sound.settles ch).target (show s.reader.target = some (ch, rep) by
    rw [hreader]; rfl)).1
  refine (canReach_waiting h hp).trans fun t _ _ ht => ?_
  have he : t.step? .send = some { t.setPhase ch (.returned rep) with reader := .resume rest } := by
    simp only [State.step?, ht.2, hreader, if_pos ht.1]
  exact .step he rfl (.here rfl)

/-- And so does a reply, since its tag has an entry. -/
theorem canReach_of_replying (hs : Reached s) (hcount : s.count < 2 ^ 32) {tag : Ttag} {rep : Reply}
    {rest : Option (List Ttag)} (hreader : s.reader = .replying tag rep rest) :
    CanReach s fun t => t.reader = .resume rest := by
  have he : s.step? .remove = some (s.reply tag rep rest) := by simp only [State.step?, hreader]
  cases hch : s.callmap.calls.lookup tag with
  | none =>
    have hfatal : s.reply tag rep rest = { s with reader := .fatal tag rep } := by
      simp only [State.reply, CallMap.remove, hch, Option.map_none]
    rw [hfatal] at he
    exact absurd rfl ((invariant_of_reached (hs.tail ⟨_, he⟩) hcount).drains.alive tag rep)
  | some ch =>
    have hsend : s.reply tag rep rest =
        { s.setCall ch { s.calls ch with sent := rep :: (s.calls ch).sent } with
          callmap := { s.callmap with calls := s.callmap.calls.erase tag }
          reader := .sending ch rep rest } := by
      simp only [State.reply, CallMap.remove, hch, Option.map_some]
    rw [hsend] at he
    exact .step he rfl (canReach_resume (invariant_of_reached (hs.tail ⟨_, he⟩) hcount) rfl)

theorem canReach_of_draining {ts : List Ttag} (hs : Reached s) (hcount : s.count < 2 ^ 32)
    (hreader : s.reader = .draining ts) : CanReach s fun t => t.reader = .finished := by
  induction ts generalizing s with
  | nil =>
    have he : s.step? .drain = some { s with reader := .finished } := by
      simp only [State.step?, hreader]
    exact .step he rfl (.here rfl)
  | cons tag ts ih =>
    have he : s.step? .drain = some { s with reader := .replying tag failure (some ts) } := by
      simp only [State.step?, hreader]
    have hnext := hs.tail ⟨_, he⟩
    refine .step he rfl ((canReach_of_replying hnext hcount rfl).trans fun t hrun ht hdrain => ?_)
    exact ih (hnext.trans hrun) (lt_of_eq_of_lt ht hcount) hdrain

/-- From every state the reader can come to its end. -/
theorem canReach_finished (hs : Reached s) (hcount : s.count < 2 ^ 32) :
    CanReach s fun t => t.reader = .finished := by
  have hclosed : ∀ u : State, Reached u → u.count < 2 ^ 32 → u.reader = .closed →
      CanReach u fun t => t.reader = .finished := by
    intro u hu hc hreader
    have he : u.step? (.outstanding u.callmap.calls.keys) =
        some { u with reader := .draining u.callmap.calls.keys } := by
      rw [State.step?, if_pos ⟨hreader, List.Perm.refl _⟩]
    exact .step he rfl (canReach_of_draining (hu.tail ⟨_, he⟩) hc rfl)
  have hfailed : ∀ u : State, Reached u → u.count < 2 ^ 32 → u.reader = .failed →
      CanReach u fun t => t.reader = .finished := by
    intro u hu hc hreader
    have he : u.step? .closeReader =
        some { u with callmap := u.callmap.close, reader := .closed } := by
      rw [State.step?, if_pos hreader]
    exact .step he rfl (hclosed _ (hu.tail ⟨_, he⟩) hc rfl)
  have hresume : ∀ (rest : Option (List Ttag)) (u : State), Reached u → u.count < 2 ^ 32 →
      u.reader = .resume rest → CanReach u fun t => t.reader = .finished := by
    intro rest u hu hc hreader
    cases rest with
    | none =>
      have he : u.step? .readFails = some { u with reader := .failed } := by
        rw [State.step?, if_pos (show u.reader = .reading from hreader)]
      exact .step he rfl (hfailed _ (hu.tail ⟨_, he⟩) hc rfl)
    | some ts => exact canReach_of_draining hu hc hreader
  cases hreader : s.reader with
  | reading => exact hresume none s hs hcount hreader
  | replying tag rep rest =>
    refine (canReach_of_replying hs hcount hreader).trans fun t hrun ht hnext => ?_
    exact hresume rest t (hs.trans hrun) (lt_of_eq_of_lt ht hcount) hnext
  | sending ch rep rest =>
    refine (canReach_resume (invariant_of_reached hs hcount) hreader).trans
      fun t hrun ht hnext => ?_
    exact hresume rest t (hs.trans hrun) (lt_of_eq_of_lt ht hcount) hnext
  | failed => exact hfailed s hs hcount hreader
  | closed => exact hclosed s hs hcount hreader
  | draining ts => exact canReach_of_draining hs hcount hreader
  | finished => exact .here hreader
  | fatal tag rep => exact absurd hreader ((invariant_of_reached hs hcount).drains.alive tag rep)

end Progress

section Answers

def Phase.accepted : Phase → Bool
  | .registered | .writing | .waiting | .returned _ => true
  | _ => false

theorem pending_or_returned {phase : Phase} (h : phase.accepted = true) :
    phase.pending = true ∨ ∃ rep, phase = .returned rep := by
  cases phase with
  | returned rep => exact Or.inr ⟨rep, rfl⟩
  | registered => exact Or.inl rfl
  | writing => exact Or.inl rfl
  | waiting => exact Or.inl rfl
  | _ => cases h

/-- A call is resolved in the table when its one reply was sent. -/
theorem Sound.status_resolved (h : Sound s) {rep : Reply} :
    (s.calls c).status = .resolved rep ↔ (s.calls c).sent = [rep] := by
  have hcall := h.settles c
  by_cases hp : (s.calls c).phase.pending = true
  · rw [status_of_pending hp]
    rcases hcall.pending hp with hentry | ⟨rep', htarget⟩
    · simp [(hcall.entry hentry).2.2]
    · simp [(hcall.target htarget).2]
  cases hphase : (s.calls c).phase with
  | returned rep' =>
    have hsent := hcall.returned (by rw [hphase]; rfl)
    simp [Call.status, hphase, hsent]
  | registered => exact absurd (by rw [hphase]; rfl) hp
  | writing => exact absurd (by rw [hphase]; rfl) hp
  | waiting => exact absurd (by rw [hphase]; rfl) hp
  | _ =>
    have hsent : (s.calls c).sent = [] := by
      apply hcall.unsent <;> rw [hphase] <;> rfl
    simp [Call.status, hphase, hsent]

theorem phase_of_fresh {call : Call} :
    call.status = .fresh ↔ call.phase = .idle ∨ call.phase = .tagged := by
  unfold Call.status
  cases hphase : call.phase with
  | registered => cases call.sent <;> simp
  | writing => cases call.sent <;> simp
  | waiting => cases call.sent <;> simp
  | _ => simp

theorem phase_of_refused {call : Call} (h : call.status = .refused) :
    ∃ err, call.phase = .refused err := by
  unfold Call.status at h
  cases hphase : call.phase with
  | refused err => exact ⟨err, rfl⟩
  | registered => cases hsent : call.sent <;> simp [hphase, hsent] at h
  | writing => cases hsent : call.sent <;> simp [hphase, hsent] at h
  | waiting => cases hsent : call.sent <;> simp [hphase, hsent] at h
  | _ => simp [hphase] at h

/-- An accepted call is in the map and nothing was sent to it, or one reply was sent to it. -/
theorem Invariant.accepted (h : Invariant s) (hc : (s.calls c).phase.accepted = true) :
    ((s.calls c).sent = [] ∧ s.callmap.calls.lookup (s.calls c).tag = some c) ∨
      ∃ rep, (s.calls c).sent = [rep] ∧ Own s.answered (s.calls c).tag rep := by
  have hcall := h.sound.settles c
  have hone : ∀ {rep}, (s.calls c).sent = [rep] →
      ∃ rep, (s.calls c).sent = [rep] ∧ Own s.answered (s.calls c).tag rep := by
    intro rep hsent
    exact ⟨rep, hsent, h.genuine.sent c rep (by rw [hsent]; exact List.mem_singleton_self rep)⟩
  rcases pending_or_returned hc with hp | ⟨rep, hrep⟩
  · rcases hcall.pending hp with hentry | ⟨rep, htarget⟩
    · exact Or.inl ⟨(hcall.entry hentry).2.2, hentry⟩
    · exact Or.inr (hone (hcall.target htarget).2)
  · exact Or.inr (hone (hcall.returned (by rw [hrep]; rfl)))

/-- When the reader has finished, the map is closed and empty. -/
theorem Drains.finished (h : Drains s) (hreader : s.reader = .finished) :
    s.callmap.closed = true ∧ s.callmap.calls = ∅ := by
  refine ⟨h.closed (by rw [hreader]; rfl), ?_⟩
  have hperm := h.left (show s.reader.left = some [] by rw [hreader]; rfl)
  have hkeys := List.Perm.eq_nil hperm.symm
  exact AList.ext (List.map_eq_nil_iff.mp hkeys)

/-- Then every accepted call has returned. -/
theorem Invariant.returned (h : Invariant s) (hreader : s.reader = .finished)
    (hc : (s.calls c).phase.accepted = true) :
    ∃ rep, (s.calls c).sent = [rep] ∧ (s.calls c).phase = .returned rep := by
  have hcall := h.sound.settles c
  rcases pending_or_returned hc with hp | ⟨rep, hrep⟩
  · rcases hcall.pending hp with hentry | ⟨rep, htarget⟩
    · rw [(h.drains.finished hreader).2, AList.lookup_empty] at hentry
      cases hentry
    · rw [hreader] at htarget
      cases htarget
  · exact ⟨rep, hcall.returned (by rw [hrep]; rfl), hrep⟩

/-- A call that comes when the map is closed gets the error. -/
theorem refused_of_late (hs : Reached s) (hclosed : s.callmap.closed = true)
    (hc : (s.calls c).phase = .idle ∨ (s.calls c).phase = .tagged) (hrun : ReflTransGen Step s t)
    (hcount : t.count < 2 ^ 32) : (t.calls c).phase = .idle ∨ (t.calls c).phase = .tagged ∨
      (t.calls c).phase = .refused "conn closed" := by
  have hleads := (later_of_run hs hrun hcount).status c
  have hlate : s.table.isOpen = false := by simp [State.table, hclosed]
  have hfresh : s.table.status c = .fresh := phase_of_fresh.mpr hc
  rw [hlate, hfresh] at hleads
  generalize hx : t.table.status c = x at hleads
  cases hleads with
  | same => exact (phase_of_fresh.mp hx).imp_right Or.inl
  | accepted hearly => cases hearly
  | answered hearly rep => cases hearly
  | refused =>
    obtain ⟨err, herr⟩ := phase_of_refused hx
    have hinv := invariant_of_reached (hs.trans hrun) hcount
    rw [hinv.refused herr] at herr
    exact Or.inr (Or.inr herr)

end Answers

/-- Multiplexed calls are answered once. In every state with fewer than `2 ^ 32` calls so far,
every call that `put` has accepted is in the map and nothing was sent to it, or exactly one reply
was sent to it, an answer of the server with its own tag or the failure reply, and this stays so in
every later state. When the reader has finished, every accepted call has returned with its reply,
the map is closed and no call is left in it. A call that comes to `put` when the map is closed gets
the error. The reader never finds a tag without a call, and from every state it can come to its
end. -/
theorem calls_answered_once (hs : Reached s) (hcount : s.count < 2 ^ 32) :
    (∀ c, (s.calls c).phase.accepted = true →
      ((s.calls c).sent = [] ∧ s.callmap.calls.lookup (s.calls c).tag = some c ∨
        ∃ rep, (s.calls c).sent = [rep] ∧ Own s.answered (s.calls c).tag rep ∧
          ∀ t, ReflTransGen Step s t → t.count < 2 ^ 32 → (t.calls c).sent = [rep]) ∧
      (s.reader = .finished →
        ∃ rep, (s.calls c).sent = [rep] ∧ (s.calls c).phase = .returned rep)) ∧
    (s.callmap.closed = true → ∀ c, (s.calls c).phase = .idle ∨ (s.calls c).phase = .tagged →
      ((s.calls c).phase = .tagged →
        s.step? (.put c) = some (s.setPhase c (.refused "conn closed"))) ∧
      ∀ t, ReflTransGen Step s t → t.count < 2 ^ 32 → (t.calls c).phase = .idle ∨
        (t.calls c).phase = .tagged ∨ (t.calls c).phase = .refused "conn closed") ∧
    (s.reader = .finished → s.callmap.closed = true ∧ s.callmap.calls = ∅) ∧
    (∀ tag rep, s.reader ≠ .fatal tag rep) ∧
    CanReach s fun t => t.reader = .finished := by
  have h := invariant_of_reached hs hcount
  refine ⟨fun c hc => ⟨?_, fun hreader => h.returned hreader hc⟩, fun hclosed c hc => ⟨?_, ?_⟩,
    h.drains.finished, h.drains.alive, canReach_finished hs hcount⟩
  · refine (h.accepted hc).imp_right fun ⟨rep, hsent, hown⟩ => ⟨rep, hsent, hown, ?_⟩
    intro t hrun hcount'
    have hleads := (later_of_run hs hrun hcount').status c
    have hresolved : s.table.status c = .resolved rep := h.sound.status_resolved.mpr hsent
    rw [hresolved] at hleads
    generalize hx : t.table.status c = x at hleads
    cases hleads
    exact (invariant_of_reached (hs.trans hrun) hcount').sound.status_resolved.mp hx
  · intro hphase
    simp only [State.step?, if_pos hphase, CallMap.put, if_pos hclosed]
  · intro t hrun hcount'
    exact refused_of_late hs hclosed hc hrun hcount'

/-- Two calls are registered, and the request of the second is lost. The first gets its answer. Then
a read fails and the reader fails the second. A third call comes too late. -/
def threeCalls : List Event :=
  [.sendReceive [1], .put 0, .write 0 true, .wrote 0, .sendReceive [2], .put 1, .write 1 false,
    .wrote 1, .answer 0 [9] true, .read 0, .remove, .send, .readFails, .closeReader,
    .outstanding [2], .drain, .remove, .send, .drain, .sendReceive [3], .put 2]

theorem calls_answered_once_three : ∃ s, Reached s ∧ s.reader = .finished ∧
    (s.calls 0).phase = .returned ⟨[9], true, none⟩ ∧ (s.calls 1).phase = .returned failure ∧
    (s.calls 2).phase = .refused "conn closed" ∧ s.callmap.calls = ∅ ∧
    ∀ t, ReflTransGen Step s t → t.count < 2 ^ 32 → (t.calls 0).sent = [⟨[9], true, none⟩] := by
  obtain ⟨s, hrun, htest⟩ := exists_of_run
    (show (newDemuxClnt.run threeCalls).any (fun s => decide (s.count < 2 ^ 32 ∧
        s.reader = .finished ∧ (s.calls 0).phase = .returned ⟨[9], true, none⟩ ∧
        (s.calls 0).sent = [⟨[9], true, none⟩] ∧ (s.calls 1).phase = .returned failure ∧
        (s.calls 2).phase = .refused "conn closed")) = true by decide +kernel)
  obtain ⟨hcount, hreader, h0, hsent, h1, h2⟩ := of_decide_eq_true htest
  have hs : Reached s := ⟨newDemuxClnt, rfl, hrun⟩
  have h := calls_answered_once hs hcount
  refine ⟨s, hs, hreader, h0, h1, h2, (h.2.2.1 hreader).2, ?_⟩
  have haccepted : (s.calls 0).phase.accepted = true := by rw [h0]; rfl
  rcases (h.1 0 haccepted).1 with ⟨hnone, -⟩ | ⟨rep, hrep, -, hlater⟩
  · rw [hsent] at hnone
    cases hnone
  · rw [hsent] at hrep
    obtain rfl : _ = rep := List.singleton_injective hrep
    exact hlater

end DistributedLabs.Demux
