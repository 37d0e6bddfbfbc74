import DistributedLabs.RaftNetworkSteps
import DistributedLabs.RaftReplicationSteps
import DistributedLabs.RaftServiceSteps
import DistributedLabs.RaftSnapshotSteps

/-!
# The cluster refines the term-log protocol

Every event of the cluster is an operation of one process that the protocol answers, or
the loss of a packet. Crashes between and inside operations are covered, because the
protocol also answers what each single save leaves on disk.
-/

namespace DistributedLabs.RaftRefinement

open RaftPeer RaftCluster RaftLogView TermLogProtocol TransitionRuns Relation

variable {n : ℕ} {C : Type*} [Inhabited C] {a b : Proto n C} {p : Fin n} {s t : Cluster n C}

/-- The cluster goes from `s` to `t` by an operation of `p`, and the protocol from `a` to `b`,
with the entries `es` created on the way. -/
structure Effect (p : Fin n) (es : List (LogValue C)) (a b : Proto n C) (s t : Cluster n C) :
    Prop where
  answers : Answers p es a b (s.procs p) (t.procs p)
  others : ∀ q ≠ p, t.procs q = s.procs q
  net : NetRel b t

theorem Effect.related {es : List (LogValue C)} (h : Effect p es a b s t) (hs : Related s a) :
    Related t b where
  reached := h.answers.moves.reached hs.reached
  proc q := by
    by_cases hq : q = p
    · subst hq
      exact h.answers.proc
    · rw [h.others q hq]
      exact (hs.proc q).frame (h.answers.moves.grows hs.reached) (h.answers.moves.untouched hq)
  net := h.net

/-- An operation that starts no call and sends no packet. -/
theorem Effect.quiet (hs : Related s a) {es : List (LogValue C)} {pr : Process n C}
    {net : List (Packet n C)} (h : Answers p es a b (s.procs p) pr)
    (hcalls : ∀ call ∈ pr.calls, call ∈ (s.procs p).calls)
    (hnet : ∀ pkt ∈ net, pkt ∈ s.net) : Effect p es a b s { s.set p pr with net := net } where
  answers := by
    simp only [Cluster.set, Function.update_self]
    exact h
  others q hq := by simp [Cluster.set, hq]
  net := hs.net.set (h.moves.grows hs.reached) hcalls hnet

omit [Inhabited C] in
theorem finish_calls {pr : Process n C} {id : ℕ} :
    ∀ call ∈ (pr.finish id).calls, call ∈ pr.calls :=
  fun _ hcall => (List.mem_filter.mp hcall).1

omit [Inhabited C] in
theorem eraseIdx_net {net : List (Packet n C)} {i : ℕ} : ∀ pkt ∈ net.eraseIdx i, pkt ∈ net :=
  fun _ hpkt => List.mem_of_mem_eraseIdx hpkt

/-- A handled request is answered, and its reply means what it says. -/
theorem handle_answers (hr : TermLogProtocol.Reached LogValue.term a) {pr : Process n C}
    (h : ProcRel a p pr) {src : Fin n} {req : Request C} (hreq : RequestRel a src p req) :
    ∃ b, Answers p [] a b pr (pr.handle req).1 ∧ (pr.handle req).1.calls = pr.calls ∧
      ∀ id saved, ReplyRel b src ⟨id, p, saved, req⟩ (pr.handle req).2 := by
  cases req with
  | requestVote args =>
    obtain ⟨b, hb, hvote⟩ := requestVote_answers hr h hreq
    exact ⟨b, hb, rfl, fun _ _ => hvote⟩
  | appendEntries args =>
    obtain ⟨b, hb, hrep⟩ := appendEntries_answers hr h hreq
    exact ⟨b, hb, rfl, hrep⟩
  | installSnapshot args =>
    obtain ⟨b, hb⟩ := installSnapshotHandler_answers hr h hreq
    exact ⟨b, hb, rfl, fun _ _ => trivial⟩

/-- A goroutine that goes on with a reply, or without one, is answered. -/
theorem resume_answers (hr : TermLogProtocol.Reached LogValue.term a) {pr pr' : Process n C}
    (h : ProcRel a p pr) {call : Call n C} (hcall : call ∈ pr.calls) {rep : Option Reply}
    (hrep : ∀ r, rep = some r → ReplyRel a p call r)
    (hres : (pr.finish call.id).resume call rep = some pr') :
    (∃ b, Answers p [] a b pr pr') ∧ pr'.calls = (pr.finish call.id).calls := by
  have hidle : Answers p [] a a pr (pr.finish call.id) := Answers.idle h (h.finish call.id) rfl
  obtain ⟨id, server, saved, req⟩ := call
  cases rep with
  | none =>
    cases req with
    | requestVote args =>
      obtain rfl := Option.some.inj hres
      exact ⟨resumeVote_answers hr h hcall rfl (fun hgr => by simp at hgr), rfl⟩
    | appendEntries args =>
      obtain rfl := Option.some.inj hres
      exact ⟨⟨a, hidle⟩, rfl⟩
    | installSnapshot args =>
      obtain rfl := Option.some.inj hres
      exact ⟨⟨a, hidle⟩, rfl⟩
  | some rep =>
    have hrep := hrep rep rfl
    cases req with
    | requestVote args =>
      cases rep with
      | requestVote reply =>
        obtain rfl := Option.some.inj hres
        exact ⟨resumeVote_answers hr h hcall rfl hrep, rfl⟩
      | appendEntries reply => exact False.elim hrep
      | installSnapshot reply => exact False.elim hrep
    | appendEntries args =>
      cases rep with
      | requestVote reply => exact False.elim hrep
      | appendEntries reply =>
        obtain ⟨rf, hrf, rfl⟩ := Option.map_eq_some_iff.mp hres
        exact ⟨appendReply_answers hr h hcall rfl hrep hrf, rfl⟩
      | installSnapshot reply => exact False.elim hrep
    | installSnapshot args =>
      cases rep with
      | requestVote reply => exact False.elim hrep
      | appendEntries reply => exact False.elim hrep
      | installSnapshot reply =>
        obtain rfl := Option.some.inj hres
        exact ⟨installReply_answers hr h hcall reply rfl, rfl⟩

/-- A request is delivered and its reply is sent. -/
theorem request_effect (hs : Related s a) {i id : ℕ} {src : Fin n} {req : Request C}
    (hpkt : s.net[i]? = some (.request id src p req)) (hstep : s.deliver i = some t) :
    ∃ b, Effect p [] a b s t ∧ RequestRel a src p req ∧
      ∀ id saved, ReplyRel b src ⟨id, p, saved, req⟩ ((s.procs p).handle req).2 := by
  have hmem : Packet.request id src p req ∈ s.net := List.mem_of_getElem? hpkt
  have hreq := hs.net.request hmem
  rw [Cluster.deliver, hpkt] at hstep
  obtain rfl := Option.some.inj hstep
  obtain ⟨b, hb, hcalls, hrep⟩ := handle_answers hs.reached (hs.proc p) hreq
  have hquiet := Effect.quiet hs hb (fun call hcall => hcalls ▸ hcall) (@eraseIdx_net n C s.net i)
  refine ⟨b, ⟨hquiet.answers, hquiet.others, hquiet.net.reply (hs.net.fresh _ hmem) ?_⟩, hreq, hrep⟩
  intro call hcall hid
  have hold : call ∈ (s.procs src).calls := by
    simp only [Cluster.set, Function.update_apply] at hcall
    split_ifs at hcall with hsrc
    · exact hsrc ▸ hcalls ▸ hcall
    · exact hcall
  obtain ⟨hserver, hcreq⟩ := hs.net.asked hmem call hold hid
  obtain ⟨cid, server, saved, creq⟩ := call
  simp only at hserver hcreq
  subst hserver hcreq
  exact hrep cid saved

/-- A goroutine goes on, with a reply that was in flight or without one. -/
theorem resume_effect (hs : Related s a) {call : Call n C} (hcall : call ∈ (s.procs p).calls)
    {rep : Option Reply} (hrep : ∀ r, rep = some r → .reply call.id p r ∈ s.net)
    {pr : Process n C} (hres : ((s.procs p).finish call.id).resume call rep = some pr)
    {net : List (Packet n C)} (hnet : ∀ pkt ∈ net, pkt ∈ s.net) :
    ∃ b, Effect p [] a b s { s.set p pr with net := net } := by
  have hmeans : ∀ r, rep = some r → ReplyRel a p call r := by
    intro r hr
    exact hs.net.answered (hrep r hr) call hcall rfl
  obtain ⟨⟨b, hb⟩, hcalls⟩ := resume_answers hs.reached (hs.proc p) hcall hmeans hres
  exact ⟨b, Effect.quiet hs hb (fun c hc => finish_calls c (hcalls ▸ hc)) hnet⟩

omit [Inhabited C] in
theorem mem_others {q : Fin n} : q ∈ others p ↔ q ≠ p := by simp [others]

omit [Inhabited C] in
theorem others_nodup : (others p).Nodup := (List.nodup_finRange n).filter _

/-- An election timeout. -/
theorem ticker_effect (hs : Related s a) (hstep : s.step? (.ticker p) = some t) :
    ∃ b, Effect p [] a b s t := by
  obtain ⟨-, -⟩ := Cluster.action_of_step hstep
  set pr := { s.procs p with
    rf := (startElection (s.procs p).rf).1
    numVotes :=
      Function.update (s.procs p).numVotes (startElection (s.procs p).rf).1.currentTerm 1 }
    with hpr
  set reqs := (others p).map fun q =>
    (q, (Request.requestVote (startElection (s.procs p).rf).2 : Request C)) with hreqs
  have hfst : (reqs.map Prod.fst).Nodup := by
    rw [hreqs, List.map_map]
    simpa [Function.comp_def] using others_nodup
  have hself : (s.set p pr).procs p = pr := Function.update_self _ _ _
  have hcalls : ∀ call ∈ spawned s.nextCall pr.rf.currentTerm reqs,
      call.savedTerm = (s.procs p).rf.currentTerm + 1 ∧
      call.req = .requestVote (startElection (s.procs p).rf).2 ∧ call.server ≠ p := by
    intro call hcall
    obtain ⟨-, -, hT, hmem⟩ := mem_spawned hcall
    obtain ⟨q, hq, heq⟩ := List.mem_map.mp hmem
    obtain ⟨hserver, hreq⟩ := Prod.mk.inj heq
    exact ⟨hT, hreq.symm, hserver ▸ mem_others.mp hq⟩
  obtain ⟨b, hb, hreq⟩ := startElection_answers hs.reached (hs.proc p) hcalls
    (fun call hcall call' hcall' hserver =>
      congrArg Call.id (spawned_eq_of_server hfst hcall hcall' hserver))
  have hset : NetRel b (s.set p pr) :=
    hs.net.set (hb.moves.grows hs.reached) (fun call hcall => hcall) (fun pkt hpkt => hpkt)
  refine ⟨b, ?_, ?_, hset.spawnAll ?_⟩
  · rw [spawnAll_eq, hself]
    simp only [Function.update_self]
    exact hb
  · intro q hq
    rw [spawnAll_eq]
    simp [Cluster.set, hq]
  · intro r hr
    obtain ⟨q, -, rfl⟩ := List.mem_map.mp hr
    exact hreq q

omit [Inhabited C] in
theorem mem_routineRequests {rf : Raft n C} {inds : List (Fin n)} {reqs : List (Fin n × Request C)}
    (h : routineRequests rf inds = some reqs) {r : Fin n × Request C} (hr : r ∈ reqs) :
    r.1 ∈ inds ∧ routineRequest rf r.1 = some r.2 := by
  induction inds generalizing reqs with
  | nil =>
    obtain rfl := Option.some.inj h
    cases hr
  | cons ind rest ih =>
    obtain ⟨req, hreq, h⟩ := Option.bind_eq_some_iff.mp h
    obtain ⟨more, hmore, h⟩ := Option.bind_eq_some_iff.mp h
    obtain rfl := Option.some.inj h
    rcases List.mem_cons.mp hr with rfl | hr
    · exact ⟨List.mem_cons_self, hreq⟩
    · exact ⟨List.mem_cons_of_mem _ (ih hmore hr).1, (ih hmore hr).2⟩

/-- A pass of `AppendEntriesRoutine`. -/
theorem routine_effect (hs : Related s a) (hstep : s.step? (.appendEntriesRoutine p) = some t) :
    ∃ b, Effect p [] a b s t := by
  obtain _ | @⟨_, reqs, hrole, hreqs⟩ := Cluster.action_of_step hstep
  have h := hs.proc p
  have hrel : ∀ r ∈ reqs, ∀ id, RequestRel a p r.1 r.2 ∧
      CallRel a (s.procs p).rf ⟨id, r.1, (s.procs p).rf.currentTerm, r.2⟩ := by
    intro r hr id
    obtain ⟨hind, hreq⟩ := mem_routineRequests hreqs hr
    exact routineRequest_rel hs.reached h.peer.toMemRel hrole (mem_others.mp hind) hreq id
  refine ⟨a, Answers.idle h ?_ ?_, ?_, hs.net.spawnAll fun r hr => (hrel r hr 0).1⟩
  · rw [spawnAll_eq]
    simp only [Function.update_self]
    refine ⟨h.peer, (fun hcand => by cases hrole.symm.trans hcand),
      ⟨h.service.delivered, h.service.pending⟩, fun call hcall => ?_⟩
    rcases List.mem_append.mp hcall with hin | hin
    · obtain ⟨-, -, hT, hmem⟩ := mem_spawned hin
      have := (hrel _ hmem call.id).2
      rwa [← hT] at this
    · exact h.calls call hin
  · rw [spawnAll_eq]
    simp only [Function.update_self]
  · intro q hq
    rw [spawnAll_eq]
    simp [hq]

/-- A process that restarts from what some save has left on its disk. -/
theorem boot_answers (h : ProcRel a p (s.procs p)) :
    Answers p [] a a (s.procs p) (Process.boot p (s.procs p).rf.persister) :=
  Answers.idle h h.peer.disk.boot (by simp [Process.boot, make_eq])

def created (s : Cluster n C) : Event n C → List (LogValue C)
  | .start p command => startEntries (s.procs p).rf command
  | .crashIn e _ => created s e
  | _ => []

/-- Every event that an operation of a process causes. -/
theorem step_effect (hs : Related s a) {e : Event n C} (hstep : s.step? e = some t)
    (hact : s.actor e = some p) : ∃ b, Effect p (created s e) a b s t := by
  have hnet : ∀ pkt ∈ s.net, pkt ∈ s.net := fun _ hpkt => hpkt
  cases Cluster.action_of_step hstep with
  | ticker q hrole =>
    obtain rfl := Option.some.inj hact
    exact ticker_effect hs hstep
  | routine hrole hreqs =>
    obtain rfl := Option.some.inj hact
    exact routine_effect hs hstep
  | request hpkt =>
    simp only [Cluster.actor, hpkt] at hact
    obtain rfl := Option.some.inj hact
    obtain ⟨b, hb, -⟩ := request_effect hs hpkt hstep
    exact ⟨b, hb⟩
  | reply hpkt hcall hres =>
    simp only [Cluster.actor, hpkt] at hact
    obtain rfl := Option.some.inj hact
    refine resume_effect hs hcall ?_ hres eraseIdx_net
    rintro r ⟨⟩
    exact List.mem_of_getElem? hpkt
  | callFails hcall hres =>
    obtain rfl := Option.some.inj hact
    refine resume_effect hs hcall ?_ hres hnet
    rintro r ⟨⟩
  | lose i => cases hact
  | start q command =>
    obtain rfl := Option.some.inj hact
    obtain ⟨b, hb⟩ := start_answers hs.reached (hs.proc q) command
    exact ⟨b, Effect.quiet hs hb (fun _ hc => hc) hnet⟩
  | @snapshot q k d rf hd hrf =>
    obtain rfl := Option.some.inj hact
    obtain ⟨b, hb⟩ := snapshot_answers hs.reached (hs.proc q) (List.mem_of_getElem? hd) hrf
    exact ⟨b, Effect.quiet hs hb (fun _ hc => hc) hnet⟩
  | @apply q result hidle hresult =>
    obtain rfl := Option.some.inj hact
    have hb := apply_answers (hs.proc q) hidle hresult
    exact ⟨a, Effect.quiet hs hb (fun _ hc => hc) hnet⟩
  | @receive q msg rest hmsgs =>
    obtain rfl := Option.some.inj hact
    have hb := receive_answers hs.reached (hs.proc q) hmsgs
    refine ⟨a, Effect.quiet hs hb (fun c hc => ?_) hnet⟩
    cases msg <;> exact hc
  | crash q =>
    obtain rfl := Option.some.inj hact
    exact ⟨a, Effect.quiet hs (boot_answers (hs.proc q)) (fun _ hc => by cases hc) hnet⟩
  | crashIn k hact' ht ps hps => cases hact

/-- A crash inside an operation leaves one of the operation's saves on disk. -/
theorem crashIn_effect (hs : Related s a) {e : Event n C} {k : ℕ}
    (hstep : s.step? (.crashIn e k) = some t) :
    ∃ p b es, es <+: created s e ∧ Moves p es a b ∧ Related t b := by
  obtain ⟨p, hact, hmap⟩ := Option.bind_eq_some_iff.mp hstep
  obtain ⟨u, hu, rfl⟩ := Option.map_eq_some_iff.mp hmap
  obtain ⟨b, heff⟩ := step_effect hs hu hact
  obtain ⟨hsuf, hdur⟩ := heff.answers.durable
  set before := (s.procs p).rf.persister.saves with hbefore
  set after := (u.procs p).rf.persister.saves with hafter
  have hlow : before <:+ after.drop (after.length - before.length - k) := by
    have := List.drop_suffix_drop_left after
      (show after.length - before.length - k ≤ after.length - before.length by omega)
    rwa [← List.suffix_iff_eq_drop.mp hsuf] at this
  obtain ⟨c, es, hes, hac, hdisk⟩ := hdur _ hlow (List.drop_suffix _ _)
  have hg := hac.grows hs.reached
  refine ⟨p, c, es, hes, hac, hac.reached hs.reached, fun q => ?_, hs.net.set hg ?_ ?_⟩
  · by_cases hq : q = p
    · subst hq
      simp only [Cluster.set, Function.update_self]
      exact hdisk.boot
    · simp only [Cluster.set, Function.update_of_ne hq]
      exact (hs.proc q).frame hg (hac.untouched hq)
  · intro call hcall
    cases hcall
  · intro pkt hpkt
    cases e <;> simp only [Cluster.consume] at hpkt
    all_goals first | exact hpkt | exact eraseIdx_net pkt hpkt

/-- Every event is answered by a run of the protocol that creates the entries of the
event, or some of them where a crash cuts the event short. -/
theorem step_related (hs : Related s a) {e : Event n C} (hstep : s.step? e = some t) :
    ∃ b es, (es = created s e ∨ ∃ e' k, e = .crashIn e' k ∧ es <+: created s e') ∧
      b.created = a.created ++ es ∧ Related t b ∧
      ReflTransGen (fun a b => ∃ p, Step LogValue.term p a b) a b := by
  cases hact : s.actor e with
  | some p =>
    obtain ⟨b, hb⟩ := step_effect hs hstep hact
    exact ⟨b, _, Or.inl rfl, hb.answers.moves.created, hb.related hs, hb.answers.moves.run⟩
  | none =>
    cases Cluster.action_of_step hstep with
    | lose i =>
      exact ⟨a, [], Or.inl rfl, (List.append_nil _).symm, ⟨hs.reached, hs.proc,
        fun h => hs.net.request (eraseIdx_net _ h),
        fun pkt h => hs.net.fresh pkt (eraseIdx_net _ h),
        hs.net.freshCall, fun h => hs.net.asked (eraseIdx_net _ h),
        fun h => hs.net.answered (eraseIdx_net _ h)⟩, .refl⟩
    | @crashIn e p u k hact' hu ps hps =>
      obtain ⟨p, b, es, hes, hab, hb⟩ := crashIn_effect hs hstep
      exact ⟨b, es, Or.inr ⟨e, k, rfl, hes⟩, hab.created, hb, hab.run⟩
    | request hpkt => simp [Cluster.actor, hpkt] at hact
    | reply hpkt hcall hres => simp [Cluster.actor, hpkt] at hact
    | _ => cases hact

theorem related_initial : Related (RaftCluster.initial : Cluster n C) TermLogProtocol.initial where
  reached := Reachable.of_init rfl
  proc p := DiskRel.boot {
    view := represents_initial
    term := rfl
    vote := rfl
    snapshot := rfl
    chosen := chosen_nil }
  net := {
    request := fun h => by cases h
    fresh := fun _ h => by cases h
    freshCall := fun _ _ h => by cases h
    asked := fun h => by cases h
    answered := fun h => by cases h }

/-- The cluster refines the term-log protocol. -/
theorem simulation : Simulation (· = (RaftCluster.initial : Cluster n C)) RaftCluster.Step
    (· = TermLogProtocol.initial) (fun a b => ∃ p, Step LogValue.term p a b) Related where
  start _ hs := ⟨TermLogProtocol.initial, rfl, hs ▸ related_initial⟩
  forward _ _ _ hs := fun ⟨_, he⟩ => by
    obtain ⟨b, -, -, -, hb, hab⟩ := step_related hs he
    exact ⟨b, hab, hb⟩

end DistributedLabs.RaftRefinement
