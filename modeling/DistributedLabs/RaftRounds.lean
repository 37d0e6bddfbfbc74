import DistributedLabs.RaftIndices
import DistributedLabs.RaftStepCases

/-!
# Lossless rounds between a leader and one peer

In a round the leader builds its request for the peer, the peer handles it, and the leader
goes on with the reply. A round is a run of the cluster, so whatever holds in all states of
the cluster holds after every round.
-/

namespace DistributedLabs.RaftRounds

open RaftPeer RaftCluster RaftRefinement RaftIndices RaftStepCases TermLogProtocol TransitionRuns
  Relation

variable {n : ℕ} {C : Type*} [Inhabited C]

/-- No process crashes in the event, no packet is lost and no call fails. -/
def Faultless : Event n C → Bool
  | .callFails _ _ | .lose _ | .crash _ | .crashIn _ _ => false
  | _ => true

def CalmStep (s t : Cluster n C) : Prop := ∃ e, Faultless e = true ∧ s.step? e = some t

theorem run_of_calm {s t : Cluster n C} (h : ReflTransGen CalmStep s t) :
    ReflTransGen RaftCluster.Step s t :=
  ReflTransGen.mono (fun _ _ ⟨e, _, he⟩ => ⟨e, he⟩) _ _ h

/-- The leader and the peer `ind` after a round, and the reply that was given in it. -/
def exchange (ind : Fin n) (leader peer : Raft n C) : Option (Raft n C × Raft n C × Reply) :=
  (routineRequest leader ind).bind fun req =>
    match req with
    | .requestVote _ => none
    | .appendEntries args =>
      let result := appendEntries peer args
      (appendReply leader ind leader.currentTerm args result.2).map fun rf =>
        (rf, result.1, .appendEntries result.2)
    | .installSnapshot args =>
      let result := installSnapshotHandler peer args
      some (installReply leader ind leader.currentTerm args result.2, result.1,
        .installSnapshot result.2)

def exchanges (ind : Fin n) : ℕ → Raft n C → Raft n C → Option (Raft n C × Raft n C)
  | 0, leader, peer => some (leader, peer)
  | k + 1, leader, peer => (exchange ind leader peer).bind fun r => exchanges ind k r.1 r.2.1

/-- After finitely many rounds the peer answers with success, and its match index is the
leader's last index. -/
def Converges (ind : Fin n) (leader peer : Raft n C) : Prop :=
  ∃ (k : ℕ) (l f l' f' : Raft n C) (resp : AppendEntriesResponse),
    exchanges ind k leader peer = some (l, f) ∧
      exchange ind l f = some (l', f', .appendEntries resp) ∧
    resp.success = true ∧ l'.matchIndex ind = l'.lastLogIndex

theorem Converges.head {ind : Fin n} {l f l' f' : Raft n C} {rep : Reply}
    (hround : exchange ind l f = some (l', f', rep)) (h : Converges ind l' f') :
    Converges ind l f := by
  obtain ⟨k, l₁, f₁, l₂, f₂, resp, hk, hlast, hsucc, hmatch⟩ := h
  refine ⟨k + 1, l₁, f₁, l₂, f₂, resp, ?_, hlast, hsucc, hmatch⟩
  simpa [exchanges, hround] using hk

section Run

variable {s : Cluster n C} {a : Proto n C} {p q : Fin n}

omit [Inhabited C] in
theorem mem_of_routineRequests {rf : Raft n C} {inds : List (Fin n)}
    {reqs : List (Fin n × Request C)} (h : routineRequests rf inds = some reqs) {ind : Fin n}
    (hind : ind ∈ inds) {req : Request C} (hreq : routineRequest rf ind = some req) :
    (ind, req) ∈ reqs := by
  induction inds generalizing reqs with
  | nil => cases hind
  | cons head rest ih =>
    simp only [routineRequests, Option.bind_eq_bind, Option.bind_eq_some_iff] at h
    obtain ⟨first, hfirst, later, hlater, hcons⟩ := h
    obtain rfl := Option.some.inj hcons
    rcases List.mem_cons.mp hind with rfl | hrest
    · obtain rfl := Option.some.inj (hfirst.symm.trans hreq)
      exact List.mem_cons_self
    · exact List.mem_cons_of_mem _ (ih hlater hrest)

omit [Inhabited C] in
theorem exists_spawned (next : ℕ) (T : ℤ) {reqs : List (Fin n × Request C)} {dst : Fin n}
    {req : Request C} (h : (dst, req) ∈ reqs) : ∃ id, ⟨id, dst, T, req⟩ ∈ spawned next T reqs := by
  induction reqs generalizing next with
  | nil => cases h
  | cons head rest ih =>
    rcases List.mem_cons.mp h with rfl | hrest
    · exact ⟨next, List.mem_append_right _ List.mem_cons_self⟩
    · obtain ⟨id, hid⟩ := ih (next + 1) hrest
      exact ⟨id, List.mem_append_left _ hid⟩

omit [Inhabited C] in
theorem awaiting_of_mem {pr : Process n C} {call : Call n C} (h : call ∈ pr.calls)
    (hunique : ∀ c ∈ pr.calls, c.id = call.id → c = call) : pr.awaiting call.id = some call := by
  unfold Process.awaiting
  cases hfind : pr.calls.find? (fun c => c.id == call.id) with
  | none =>
    have := List.find?_eq_none.mp hfind call h
    simp at this
  | some c =>
    obtain ⟨hc, hid⟩ := mem_of_awaiting hfind
    rw [hunique c hc hid]

/-- The request of a leader's pass is sent, with a call of its own that waits for the reply. -/
theorem routine_sends (hs : Related s a) (hrole : (s.procs p).rf.currentRole = .leader)
    (hq : q ≠ p) {req : Request C} (hreq : routineRequest (s.procs p).rf q = some req) :
    ∃ (t : Cluster n C) (i id : ℕ), s.step? (.appendEntriesRoutine p) = some t ∧
      t.net[i]? = some (.request id p q req) ∧ (t.procs p).rf = (s.procs p).rf ∧
      (t.procs q).rf = (s.procs q).rf ∧ (∀ r ≠ p, t.procs r = s.procs r) ∧
      (t.procs p).awaiting id = some ⟨id, q, (s.procs p).rf.currentTerm, req⟩ := by
  obtain ⟨reqs, hreqs⟩ := Option.isSome_iff_exists.mp
    ((bounded_of_rel hs.reached (hs.proc p).peer).routineRequests_isSome hrole (others p))
  have hmem := mem_of_routineRequests hreqs (mem_others.mpr hq) hreq
  obtain ⟨id, hid⟩ := exists_spawned s.nextCall (s.procs p).rf.currentTerm hmem
  refine ⟨s.spawnAll p reqs, ?_⟩
  have hstep : s.step? (.appendEntriesRoutine p) = some (s.spawnAll p reqs) := by
    simp [Cluster.step?, hrole, hreqs]
  rw [spawnAll_eq] at hstep ⊢
  obtain ⟨i, hi⟩ := List.mem_iff_getElem?.mp
    (List.mem_append_left s.net (List.mem_map_of_mem (f := Call.packet p) hid))
  refine ⟨i, id, hstep, hi, by simp, by simp [hq], fun r hr => by simp [hr], ?_⟩
  refine @awaiting_of_mem n C _ ⟨id, q, (s.procs p).rf.currentTerm, req⟩ ?_ ?_
  · simpa using Or.inl hid
  · intro c hc hcid
    simp only [Function.update_self, List.mem_append] at hc
    rcases hc with hnew | hold
    · exact spawned_eq_of_id hnew hid hcid
    · have hlt := hs.net.freshCall p c hold
      have hge := (mem_spawned hid).1
      simp only at hcid hge
      omega

theorem exchange_eq (pr pr' : Process n C) {req : Request C}
    (hreq : routineRequest pr.rf q = some req)
    {l f : Raft n C} {rep : Reply} (h : exchange q pr.rf pr'.rf = some (l, f, rep)) (id : ℕ) :
    (pr'.handle req).1.rf = f ∧ (pr'.handle req).2 = rep ∧
      ∃ result, pr.resume ⟨id, q, pr.rf.currentTerm, req⟩ (some rep) = some result ∧
        result.rf = l := by
  rw [exchange, hreq, Option.bind_some] at h
  cases req with
  | requestVote args => cases h
  | appendEntries args =>
    obtain ⟨rf, hrf, heq⟩ := Option.map_eq_some_iff.mp h
    obtain ⟨rfl, rfl, rfl⟩ : rf = l ∧ _ = f ∧ _ = rep := by simpa using heq
    exact ⟨rfl, rfl, { pr with rf := rf }, by simp [Process.resume, hrf], rfl⟩
  | installSnapshot args =>
    obtain ⟨rfl, rfl, rfl⟩ : _ = l ∧ _ = f ∧ _ = rep := by simpa using h
    exact ⟨rfl, rfl, _, rfl, rfl⟩

/-- A round is a run of the cluster, in which nothing fails and no third process changes. -/
theorem exchange_calm (hs : Related s a) (hrole : (s.procs p).rf.currentRole = .leader) (hq : q ≠ p)
    {l f : Raft n C} {rep : Reply}
    (h : exchange q (s.procs p).rf (s.procs q).rf = some (l, f, rep)) :
    ∃ t, ReflTransGen CalmStep s t ∧ (t.procs p).rf = l ∧ (t.procs q).rf = f ∧
      ∀ r, r ≠ p → r ≠ q → t.procs r = s.procs r := by
  obtain ⟨req, hreq, -⟩ := Option.bind_eq_some_iff.mp h
  obtain ⟨t, i, id, hstep, hpkt, hp, hqf, hrest, hawait⟩ := routine_sends hs hrole hq hreq
  rw [← hp] at hreq hawait
  rw [← hp, ← hqf] at h
  obtain ⟨hf, hrep, result, hres, hl⟩ := exchange_eq ((t.procs p).finish id) (t.procs q) hreq h id
  have hres : ((t.procs p).finish id).resume ⟨id, q, (t.procs p).rf.currentTerm, req⟩ (some rep) =
    some result := hres
  let u : Cluster n C := { t.set q ((t.procs q).handle req).1 with
    net := .reply id p rep :: t.net.eraseIdx i }
  have hu : t.step? (.deliver i) = some u := by simp [Cluster.step?, Cluster.deliver, hpkt, hrep, u]
  have hup : u.procs p = t.procs p := by simp [u, Cluster.set, hq.symm]
  have hv : u.step? (.deliver 0) = some { u.set p result with net := u.net.eraseIdx 0 } := by
    have hhead : u.net[0]? = some (.reply id p rep) := rfl
    simp [Cluster.step?, Cluster.deliver, hhead, hup, hawait, hres]
  refine ⟨_, ((ReflTransGen.single ⟨_, rfl, hstep⟩).tail ⟨_, rfl, hu⟩).tail ⟨_, rfl, hv⟩,
    ?_, ?_, ?_⟩
  · simpa [Cluster.set] using hl
  · simpa [u, Cluster.set, hq] using hf
  · intro r hrp hrq
    rw [← hrest r hrp]
    simp [u, Cluster.set, hrp, hrq]

/-- A round is a run of the cluster. -/
theorem exchange_run (hs : Related s a) (hrole : (s.procs p).rf.currentRole = .leader) (hq : q ≠ p)
    {l f : Raft n C} {rep : Reply}
    (h : exchange q (s.procs p).rf (s.procs q).rf = some (l, f, rep)) :
    ∃ t, ReflTransGen RaftCluster.Step s t ∧ (t.procs p).rf = l ∧ (t.procs q).rf = f := by
  obtain ⟨t, hrun, hp, hq, -⟩ := exchange_calm hs hrole hq h
  exact ⟨t, run_of_calm hrun, hp, hq⟩

end Run

end DistributedLabs.RaftRounds
