import DistributedLabs.RaftRefinementFrame

/-!
# Packets and waiting calls

What the network and the waiting calls say stays true when packets disappear, when a
process changes and when a reply or a batch of new requests is sent.
-/

namespace DistributedLabs.RaftRefinement

open RaftPeer RaftCluster RaftLogView TermLogProtocol TransitionRuns Relation

variable {n : ℕ} {C : Type*} {a b : Proto n C} {p : Fin n} {s : Cluster n C}

/-- A process changes without new calls, and packets disappear. -/
theorem NetRel.set (h : NetRel a s) (hg : Grows a b) {pr : Process n C} {net : List (Packet n C)}
    (hcalls : ∀ call ∈ pr.calls, call ∈ (s.procs p).calls) (hnet : ∀ pkt ∈ net, pkt ∈ s.net) :
    NetRel b { s.set p pr with net := net } := by
  have hsub : ∀ q, ∀ call ∈ ((s.set p pr).procs q).calls, call ∈ (s.procs q).calls := by
    intro q call hcall
    simp only [Cluster.set, Function.update_apply] at hcall
    split_ifs at hcall with hq
    · exact hq ▸ hcalls call hcall
    · exact hcall
  exact {
    request := fun hpkt => (h.request (hnet _ hpkt)).grows hg
    fresh := fun pkt hpkt => h.fresh pkt (hnet pkt hpkt)
    freshCall := fun q call hcall => h.freshCall q call (hsub q call hcall)
    asked := fun hpkt call hcall => h.asked (hnet _ hpkt) call (hsub _ call hcall)
    answered := fun hpkt call hcall hid =>
      (h.answered (hnet _ hpkt) call (hsub _ call hcall) hid).grows hg }

/-- A reply is sent. -/
theorem NetRel.reply (h : NetRel a s) {id : ℕ} {dst : Fin n} {rep : Reply} (hid : id < s.nextCall)
    (hrep : ∀ call ∈ (s.procs dst).calls, call.id = id → ReplyRel a dst call rep) :
    NetRel a { s with net := .reply id dst rep :: s.net } where
  request hpkt := h.request ((List.mem_cons.mp hpkt).resolve_left (by simp))
  fresh pkt hpkt := by
    rcases List.mem_cons.mp hpkt with rfl | hpkt
    · exact hid
    · exact h.fresh pkt hpkt
  freshCall := h.freshCall
  asked hpkt := h.asked ((List.mem_cons.mp hpkt).resolve_left (by simp))
  answered hpkt := by
    rcases List.mem_cons.mp hpkt with heq | hpkt
    · obtain ⟨rfl, rfl, rfl⟩ := Packet.reply.inj heq
      exact hrep
    · exact h.answered hpkt

/-- The calls that a batch of requests starts, numbered from `next`. -/
def spawned (next : ℕ) (T : ℤ) : List (Fin n × Request C) → List (Call n C)
  | [] => []
  | (dst, req) :: rest => spawned (next + 1) T rest ++ [⟨next, dst, T, req⟩]

def Call.packet (p : Fin n) (call : Call n C) : Packet n C :=
  .request call.id p call.server call.req

theorem spawnAll_eq (s : Cluster n C) (p : Fin n) (reqs : List (Fin n × Request C)) :
    s.spawnAll p reqs = {
      procs := Function.update s.procs p { s.procs p with
        calls := spawned s.nextCall (s.procs p).rf.currentTerm reqs ++ (s.procs p).calls }
      net := (spawned s.nextCall (s.procs p).rf.currentTerm reqs).map (Call.packet p) ++ s.net
      nextCall := s.nextCall + reqs.length } := by
  induction reqs generalizing s with
  | nil => simp [Cluster.spawnAll, spawned]
  | cons head rest ih =>
    obtain ⟨dst, req⟩ := head
    rw [Cluster.spawnAll, ih]
    simp only [Cluster.spawn, Function.update_self, Function.update_idem, spawned,
      List.append_assoc, List.singleton_append, List.map_append, List.map_cons, List.map_nil,
      Call.packet, List.length_cons]
    congr 1
    omega

theorem mem_spawned {next : ℕ} {T : ℤ} {reqs : List (Fin n × Request C)} {call : Call n C}
    (h : call ∈ spawned next T reqs) : next ≤ call.id ∧ call.id < next + reqs.length ∧
      call.savedTerm = T ∧ (call.server, call.req) ∈ reqs := by
  induction reqs generalizing next with
  | nil => simp [spawned] at h
  | cons head rest ih =>
    rcases List.mem_append.mp h with hin | hin
    · obtain ⟨hlow, hhigh, hT, hmem⟩ := ih hin
      rw [List.length_cons]
      exact ⟨by omega, by omega, hT, List.mem_cons_of_mem _ hmem⟩
    · rw [List.mem_singleton.mp hin, List.length_cons]
      exact ⟨le_rfl, by simp only; omega, rfl, List.mem_cons_self⟩

theorem spawned_eq_of_id {next : ℕ} {T : ℤ} {reqs : List (Fin n × Request C)}
    {call call' : Call n C}
    (h : call ∈ spawned next T reqs) (h' : call' ∈ spawned next T reqs) (hid : call.id = call'.id) :
    call = call' := by
  induction reqs generalizing next with
  | nil => simp [spawned] at h
  | cons head rest ih =>
    rcases List.mem_append.mp h with hin | hin <;> rcases List.mem_append.mp h' with hin' | hin'
    · exact ih hin hin'
    · have := (mem_spawned hin).1
      rw [List.mem_singleton.mp hin'] at hid
      simp only at hid
      omega
    · have := (mem_spawned hin').1
      rw [List.mem_singleton.mp hin] at hid
      simp only at hid
      omega
    · rw [List.mem_singleton.mp hin, List.mem_singleton.mp hin']

/-- A batch with one request for each peer starts one call for each peer. -/
theorem spawned_eq_of_server {next : ℕ} {T : ℤ} {reqs : List (Fin n × Request C)}
    (hnodup : (reqs.map Prod.fst).Nodup) {call call' : Call n C} (h : call ∈ spawned next T reqs)
    (h' : call' ∈ spawned next T reqs) (hserver : call.server = call'.server) : call = call' := by
  induction reqs generalizing next with
  | nil => simp [spawned] at h
  | cons head rest ih =>
    obtain ⟨hnot, hrest⟩ := List.nodup_cons.mp hnodup
    have hfirst : ∀ c ∈ spawned (next + 1) T rest, c.server ≠ head.1 := by
      intro c hc heq
      exact hnot (heq ▸ List.mem_map_of_mem (mem_spawned hc).2.2.2)
    rcases List.mem_append.mp h with hin | hin <;> rcases List.mem_append.mp h' with hin' | hin'
    · exact ih hrest hin hin'
    · rw [List.mem_singleton.mp hin'] at hserver
      exact absurd hserver (hfirst call hin)
    · rw [List.mem_singleton.mp hin] at hserver
      exact absurd hserver.symm (hfirst call' hin')
    · rw [List.mem_singleton.mp hin, List.mem_singleton.mp hin']

/-- A batch of requests is sent. -/
theorem NetRel.spawnAll (h : NetRel a s) {reqs : List (Fin n × Request C)}
    (hreqs : ∀ r ∈ reqs, RequestRel a p r.1 r.2) : NetRel a (s.spawnAll p reqs) := by
  rw [spawnAll_eq]
  set calls := spawned s.nextCall (s.procs p).rf.currentTerm reqs with hcalls
  have hpkt : ∀ pkt ∈ calls.map (Call.packet p) ++ s.net,
      (∃ call ∈ calls, pkt = Call.packet p call) ∨ pkt ∈ s.net := by
    intro pkt hmem
    rcases List.mem_append.mp hmem with hin | hin
    · obtain ⟨call, hcall, rfl⟩ := List.mem_map.mp hin
      exact Or.inl ⟨call, hcall, rfl⟩
    · exact Or.inr hin
  have hcall : ∀ q, ∀ call ∈ (Function.update s.procs p { s.procs p with
      calls := calls ++ (s.procs p).calls } q).calls,
      (q = p ∧ call ∈ calls) ∨ call ∈ (s.procs q).calls := by
    intro q call hmem
    rw [Function.update_apply] at hmem
    split_ifs at hmem with hq
    · rcases List.mem_append.mp hmem with hin | hin
      · exact Or.inl ⟨hq, hin⟩
      · exact Or.inr (hq ▸ hin)
    · exact Or.inr hmem
  refine ⟨fun hmem => ?_, fun pkt hmem => ?_, fun q call hmem => ?_,
    fun hmem call hc hid => ?_, fun hmem call hc hid => ?_⟩
  · rcases hpkt _ hmem with ⟨call, hin, heq⟩ | hin
    · obtain ⟨rfl, rfl, rfl, rfl⟩ := Packet.request.inj heq
      exact hreqs _ (mem_spawned hin).2.2.2
    · exact h.request hin
  · rcases hpkt _ hmem with ⟨call, hin, rfl⟩ | hin
    · exact (mem_spawned hin).2.1
    · exact Nat.lt_add_right _ (h.fresh pkt hin)
  · rcases hcall q call hmem with ⟨-, hin⟩ | hin
    · exact (mem_spawned hin).2.1
    · exact Nat.lt_add_right _ (h.freshCall q call hin)
  · rcases hpkt _ hmem with ⟨call', hin', heq⟩ | hin' <;>
      rcases hcall _ call hc with ⟨hsrc, hin⟩ | hin
    · obtain ⟨rfl, rfl, rfl, rfl⟩ := Packet.request.inj heq
      rw [spawned_eq_of_id hin hin' hid]
      exact ⟨rfl, rfl⟩
    · obtain ⟨rfl, rfl, rfl, rfl⟩ := Packet.request.inj heq
      have := h.freshCall _ call hin
      have := (mem_spawned hin').1
      omega
    · have := h.fresh _ hin'
      have := (mem_spawned hin).1
      simp only [packetId] at *
      omega
    · exact h.asked hin' call hin hid
  · rcases hpkt _ hmem with ⟨call', hin', heq⟩ | hin'
    · cases heq
    · rcases hcall _ call hc with ⟨hdst, hin⟩ | hin
      · have := h.fresh _ hin'
        have := (mem_spawned hin).1
        simp only [packetId] at *
        omega
      · exact h.answered hin' call hin hid

end DistributedLabs.RaftRefinement
