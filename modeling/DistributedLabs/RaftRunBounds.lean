import DistributedLabs.RaftPeerBounds

/-!
# Terms and indices are bounded by the number of events

Terms grow only when an election starts and logs only when a leader accepts a command, by one
each. So after `N` events no term and no index that a peer holds, has saved or has sent is above
`N`, and none is below `-1`; the positions right behind a log may be `N + 1`. In a run of fewer than
`2 ^ 63 - 1` events the integers of the model are therefore values of the source's `int`, and the
arithmetic of the two is the same.
-/

namespace DistributedLabs.RaftBounds

open RaftPeer RaftCluster TransitionRuns

variable {n : ℕ} {C : Type*} {N x : ℤ}

structure ProcessWithin (N : ℤ) (pr : Process n C) : Prop where
  peer : PeerWithin N pr.rf
  calls : ∀ call ∈ pr.calls, Within N call.savedTerm ∧ RequestWithin N call.req
  applying : ∀ msg ∈ pr.applying, MsgWithin N msg
  delivered : ∀ d ∈ pr.delivered, Within N d.1

def PacketWithin (N : ℤ) : Packet n C → Prop
  | .request _ _ _ req => RequestWithin N req
  | .reply _ _ rep => ReplyWithin N rep

structure ClusterWithin (N : ℤ) (s : Cluster n C) : Prop where
  procs : ∀ p, ProcessWithin N (s.procs p)
  net : ∀ pkt ∈ s.net, PacketWithin N pkt

theorem ClusterWithin.mono {M : ℤ} {s : Cluster n C} (h : ClusterWithin N s) (hle : N ≤ M) :
    ClusterWithin M s where
  procs p := {
    peer := (h.procs p).peer.mono hle
    calls := fun call hcall => ((h.procs p).calls call hcall).imp (·.mono hle) (·.mono hle)
    applying := fun msg hmsg => ((h.procs p).applying msg hmsg).mono hle
    delivered := fun d hd => ((h.procs p).delivered d hd).mono hle }
  net pkt hpkt := by
    have hold := h.net pkt hpkt
    cases pkt with
    | request id src dst req => exact RequestWithin.mono hold hle
    | reply id dst rep => exact ReplyWithin.mono hold hle

section Steps

variable [Inhabited C] {s t : Cluster n C} {p : Fin n} {pr pr' : Process n C}

theorem handle_within (hN : 0 ≤ N) (h : ProcessWithin N pr) {req : Request C}
    (hreq : RequestWithin N req) :
    ProcessWithin N (pr.handle req).1 ∧ ReplyWithin N (pr.handle req).2 := by
  cases req with
  | requestVote args =>
    obtain ⟨hpeer, hreply⟩ := requestVote_within h.peer hreq.1
    exact ⟨{ h with peer := hpeer }, hreply⟩
  | appendEntries args =>
    obtain ⟨hpeer, hreply⟩ := appendEntries_within hN h.peer hreq
    exact ⟨{ h with peer := hpeer }, hreply⟩
  | installSnapshot args =>
    obtain ⟨hpeer, hreply⟩ := installSnapshotHandler_within hN h.peer hreq
    exact ⟨{ h with peer := hpeer }, hreply⟩

omit [Inhabited C] in
theorem resume_within (hN : 0 ≤ N) (h : ProcessWithin N pr) {call : Call n C} {rep : Option Reply}
    (hcall : RequestWithin N call.req) (hrep : ∀ r ∈ rep, ReplyWithin N r)
    (hres : pr.resume call rep = some pr') : ProcessWithin N pr' := by
  have hvote : ∀ reply : RequestVoteReply, Within N reply.term →
      ProcessWithin N (pr.resumeVote call reply) := fun reply hreply =>
    { h with peer := voteReply_within hN h.peer _ _ hreply }
  obtain ⟨id, server, savedTerm, req⟩ := call
  cases rep with
  | none =>
    cases req <;> obtain rfl := Option.some.inj hres
    · exact hvote {} (.zero hN)
    · exact h
    · exact h
  | some rep =>
    have hreply := hrep rep rfl
    cases req <;> cases rep <;> try cases hres
    · exact hvote _ hreply
    · obtain ⟨rf, hrf, rfl⟩ := Option.map_eq_some_iff.mp hres
      exact { h with peer := appendReply_within hN h.peer hcall hreply hrf }
    · exact { h with peer := installReply_within h.peer _ _ hcall hreply }

omit [Inhabited C] in
theorem finish_within (h : ProcessWithin N pr) (id : ℕ) : ProcessWithin N (pr.finish id) :=
  { h with calls := fun call hcall => h.calls call (List.mem_of_mem_filter hcall) }

theorem boot_within (hN : 0 ≤ N) (me : Fin n) {ps : Persister C}
    (hps : ∀ d ∈ ps.saves, SavedWithin N d) : ProcessWithin N (Process.boot me ps) := by
  have hpeer := make_within hN me hps
  refine ⟨hpeer, nofun, nofun, fun d hd => ?_⟩
  obtain rfl := List.mem_singleton.mp hd
  exact hpeer.log.index

omit [Inhabited C] in
theorem ClusterWithin.set (h : ClusterWithin N s) (hpr : ProcessWithin N pr) :
    ClusterWithin N (s.set p pr) := by
  refine ⟨fun q => ?_, h.net⟩
  simp only [Cluster.set, Function.update_apply]
  split_ifs
  · exact hpr
  · exact h.procs q

omit [Inhabited C] in
theorem ClusterWithin.deliver (h : ClusterWithin N s) (i : ℕ) :
    ClusterWithin N { s with net := s.net.eraseIdx i } :=
  ⟨h.procs, fun pkt hpkt => h.net pkt (List.mem_of_mem_eraseIdx hpkt)⟩

omit [Inhabited C] in
theorem ClusterWithin.spawnAll (h : ClusterWithin N s) {reqs : List (Fin n × Request C)}
    (hreqs : ∀ x ∈ reqs, RequestWithin N x.2) : ClusterWithin N (s.spawnAll p reqs) := by
  induction reqs generalizing s with
  | nil => exact h
  | cons x rest ih =>
    obtain ⟨dst, req⟩ := x
    have hreq : RequestWithin N req := hreqs _ List.mem_cons_self
    refine ih ⟨fun q => ?_, fun pkt hpkt => ?_⟩ fun y hy => hreqs y (List.mem_cons_of_mem _ hy)
    · simp only [Cluster.spawn, Function.update_apply]
      split_ifs
      · refine { h.procs p with calls := fun call hcall => ?_ }
        rcases List.mem_cons.mp hcall with rfl | hold
        · exact ⟨(h.procs p).peer.term, hreq⟩
        · exact (h.procs p).calls call hold
      · exact h.procs q
    · rcases List.mem_cons.mp hpkt with rfl | hold
      · exact hreq
      · exact h.net pkt hold

omit [Inhabited C] in
theorem routineRequests_within {rf : Raft n C} (h : PeerWithin N rf) {inds : List (Fin n)}
    {reqs : List (Fin n × Request C)} (hreqs : routineRequests rf inds = some reqs) :
    ∀ x ∈ reqs, RequestWithin N x.2 := by
  induction inds generalizing reqs with
  | nil =>
    obtain rfl := Option.some.inj hreqs
    nofun
  | cons ind rest ih =>
    simp only [routineRequests, Option.bind_eq_bind, Option.bind_eq_some_iff] at hreqs
    obtain ⟨req, hreq, tail, htail, heq⟩ := hreqs
    obtain rfl := Option.some.inj heq
    intro x hx
    rcases List.mem_cons.mp hx with rfl | hx
    · exact routineRequest_within h hreq
    · exact ih htail x hx

omit [Inhabited C] in
theorem ProcessWithin.deliver (h : ProcessWithin N pr) {i : ℤ} (hi : Within N i) (st : List C) :
    ProcessWithin N { pr with delivered := (i, st) :: pr.delivered } := by
  refine { h with delivered := fun d hd => ?_ }
  rcases List.mem_cons.mp hd with rfl | hold
  · exact hi
  · exact h.delivered d hold

omit [Inhabited C] in
theorem receive_within (h : ProcessWithin N pr) {msg : ApplyMsg C} (hmsg : MsgWithin N msg) :
    ProcessWithin N (pr.receive msg) := by
  cases msg with
  | command index command => exact h.deliver hmsg _
  | snapshot index term data => exact h.deliver hmsg.1 _

/-- A crash inside an operation leaves some of what the operation would have saved. -/
theorem action_within (hN : 0 ≤ N) (h : ClusterWithin N s) {e : Event n C} (haction : s.Action e t)
    (hinside : ∀ e' k u, e = .crashIn e' k → s.step? e' = some u → ClusterWithin (N + 1) u) :
    ClusterWithin (N + 1) t := by
  have hN' : 0 ≤ N + 1 := by omega
  have hup := h.mono (show N ≤ N + 1 by omega)
  cases haction with
  | ticker p hrole =>
    obtain ⟨hpeer, hargs⟩ := startElection_within hN (h.procs p).peer
    have hset : ClusterWithin (N + 1) (s.set p { s.procs p with
        rf := (startElection (s.procs p).rf).1
        numVotes := Function.update (s.procs p).numVotes
          (startElection (s.procs p).rf).1.currentTerm 1 }) :=
      hup.set { hup.procs p with peer := hpeer }
    refine hset.spawnAll fun x hx => ?_
    obtain ⟨q, -, rfl⟩ := List.mem_map.mp hx
    exact hargs
  | routine hrole hreqs => exact hup.spawnAll (routineRequests_within (hup.procs _).peer hreqs)
  | @request i id src dst req hpkt =>
    obtain ⟨hpr, hreply⟩ := handle_within hN' (hup.procs dst)
      (hup.net _ (List.mem_of_getElem? hpkt))
    have hset := (hup.deliver i).set (p := dst) hpr
    refine ⟨hset.procs, fun pkt hmem => ?_⟩
    rcases List.mem_cons.mp hmem with rfl | hold
    · exact hreply
    · exact hset.net pkt hold
  | @reply i dst call rep pr hpkt hcall hres =>
    refine (hup.deliver i).set (resume_within hN' (finish_within (hup.procs dst) call.id)
      ((hup.procs dst).calls call hcall).2 (fun r hr => ?_) hres)
    obtain rfl := Option.some.inj hr
    exact hup.net _ (List.mem_of_getElem? hpkt)
  | @callFails p call pr hcall hres =>
    exact hup.set (resume_within hN' (finish_within (hup.procs p) call.id)
      ((hup.procs p).calls call hcall).2 (fun r hr => by cases hr) hres)
  | lose i => exact hup.deliver i
  | start p command =>
    exact hup.set { hup.procs p with peer := start_within (h.procs p).peer command }
  | @snapshot p k d rf hd hrf =>
    exact hup.set { hup.procs p with peer := snapshot_within (hup.procs p).peer hrf }
  | @apply p result hidle hresult =>
    obtain ⟨hpeer, hmsgs⟩ := apply_within (hup.procs p).peer hresult
    exact hup.set { hup.procs p with peer := hpeer, applying := hmsgs }
  | @receive p msg rest hmsgs =>
    have happlying := hmsgs ▸ (hup.procs p).applying
    have hrest : ProcessWithin (N + 1) { s.procs p with applying := rest } :=
      { hup.procs p with applying := fun m hm => happlying m (List.mem_cons_of_mem _ hm) }
    exact hup.set (receive_within hrest (happlying msg List.mem_cons_self))
  | crash p => exact hup.set (boot_within hN' p (hup.procs p).peer.saves)
  | @crashIn e p u k hact ht ps hps =>
    have hpeer := ((hinside e k u rfl ht).procs p).peer
    have hset : ClusterWithin (N + 1) (s.set p (Process.boot p ps)) := by
      refine hup.set (boot_within hN' p fun d hd => hpeer.saves d ?_)
      rw [hps] at hd
      exact List.mem_of_mem_drop hd
    refine ⟨hset.procs, fun pkt hpkt => ?_⟩
    cases e with
    | deliver i => exact hup.net pkt (List.mem_of_mem_eraseIdx hpkt)
    | _ => exact hup.net pkt hpkt

/-- An event adds at most one to the largest term and to the largest index. -/
theorem step_within (hN : 0 ≤ N) (h : ClusterWithin N s) {e : Event n C}
    (he : s.step? e = some t) : ClusterWithin (N + 1) t := by
  induction e generalizing t with
  | crashIn e k ih =>
    refine action_within hN h (Cluster.action_of_step he) fun e' k' u heq hu => ?_
    obtain ⟨rfl, rfl⟩ := Event.crashIn.inj heq
    exact ih hu
  | _ => exact action_within hN h (Cluster.action_of_step he) nofun

theorem initial_within : ClusterWithin 0 (initial : Cluster n C) :=
  ⟨fun p => boot_within le_rfl p nofun, nofun⟩

/-- After a number of events no term and no index is larger than that number, nor smaller than
`-1`. -/
theorem run_within {es : List (Event n C)} (h : (initial : Cluster n C).run es = some t) :
    ClusterWithin es.length t := by
  have hlast := exec_counted (I := fun k s => ClusterWithin (k : ℤ) s)
    (fun k s e t hs ht => by
      rw [Nat.cast_add_one]
      exact step_within (Int.natCast_nonneg k) hs ht)
    initial_within h
  rwa [Nat.zero_add] at hlast

/-- Such a number is a value of `int`. -/
theorem Within.toInt_ofInt (h : Within N x) (hN : N < 2 ^ 63) : (Int64.ofInt x).toInt = x := by
  obtain ⟨hlow, hhigh⟩ := h
  exact Int64.toInt_ofInt_of_le (by omega) (by omega)

/-- The terms of a peer, its indices, and the one that its next entry gets. -/
def numbers (rf : Raft n C) : List ℤ :=
  [rf.currentTerm, rf.commitIndex, rf.lastApplied, rf.lastIncludedIndex, rf.lastIncludedTerm,
    rf.lastIncludedIndex + rf.log.length] ++ rf.log.map LogValue.term ++ List.ofFn rf.nextIndex ++
    List.ofFn rf.matchIndex

omit [Inhabited C] in
theorem PeerWithin.numbers {rf : Raft n C} (h : PeerWithin N rf) :
    ∀ x ∈ numbers rf, Within (N + 1) x := by
  have hup := h.mono (show N ≤ N + 1 by omega)
  intro x hx
  simp only [RaftBounds.numbers, List.mem_append, List.mem_cons, List.not_mem_nil, or_false,
    List.mem_map, List.mem_ofFn] at hx
  rcases hx with (((rfl | rfl | rfl | rfl | rfl | rfl) | ⟨v, hv, rfl⟩) | ⟨q, rfl⟩) | ⟨q, rfl⟩
  · exact hup.term
  · exact hup.commit
  · exact hup.applied
  · exact hup.log.index
  · exact hup.log.term
  · exact h.log.behind
  · exact hup.log.terms v hv
  · exact h.next q
  · exact hup.matched q

/-- In a run of fewer than `2 ^ 63 - 1` events all these are values of `int`. -/
theorem run_numbers {es : List (Event n C)} (h : (initial : Cluster n C).run es = some t)
    (hlength : es.length + 1 < 2 ^ 63) (p : Fin n) :
    ∀ x ∈ numbers (t.procs p).rf, (Int64.ofInt x).toInt = x := by
  intro x hx
  exact (((run_within h).procs p).peer.numbers x hx).toInt_ofInt (by omega)

end Steps

end DistributedLabs.RaftBounds
