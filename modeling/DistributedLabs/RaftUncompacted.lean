import DistributedLabs.RaftPersistence

/-!
# A cluster whose services make no snapshots

Nothing is ever compacted then: no peer has a snapshot in memory or on disk, none is in
flight, and a service receives commands only.
-/

namespace DistributedLabs.RaftUncompacted

open RaftPeer RaftCluster RaftRefinement RaftPeerSteps

variable {n : ℕ} {C : Type*}

/-- The peer has no snapshot, and has never saved one. -/
structure Flat (rf : Raft n C) : Prop where
  index : rf.lastIncludedIndex = 0
  saves : ∀ d ∈ rf.persister.saves, d.lastIncludedIndex = 0

section Peer

variable {rf rf' : Raft n C}

theorem Flat.of_eq (h : Flat rf) (hindex : rf'.lastIncludedIndex = rf.lastIncludedIndex)
    (hsaves : rf'.persister = rf.persister) : Flat rf' :=
  ⟨hindex.trans h.index, hsaves ▸ h.saves⟩

theorem Flat.persist (h : Flat rf) (hindex : rf'.lastIncludedIndex = rf.lastIncludedIndex)
    (hsaves : rf'.persister = rf.persister) : Flat rf'.persist := by
  refine ⟨hindex.trans h.index, fun d hd => ?_⟩
  rcases List.mem_cons.mp hd with rfl | hd
  · exact hindex.trans h.index
  · exact h.saves d (hsaves ▸ hd)

theorem Flat.castVote (h : Flat rf) (args : RequestVoteArgs) (reply : RequestVoteReply) :
    Flat (castVote rf args reply).1 := by
  unfold RaftRefinement.castVote
  split_ifs
  all_goals first | exact h | exact h.persist rfl rfl

theorem Flat.requestVote (h : Flat rf) (args : RequestVoteArgs) :
    Flat (requestVote rf args).1 := by
  rw [requestVote_eq]
  split_ifs
  · exact h
  · refine Flat.castVote ?_ args _
    exact h.persist rfl rfl
  · exact h.castVote args _

theorem Flat.appendEntries (h : Flat rf) (args : AppendEntriesRequest C) :
    Flat (appendEntries rf args).1 := by
  have hobserve : Flat (rf.observeTerm args.term) := by
    unfold Raft.observeTerm
    split_ifs
    · exact h.of_eq rfl rfl
    · exact h
  unfold RaftPeer.appendEntries
  dsimp only
  split_ifs
  · exact h
  · exact hobserve
  · exact hobserve
  · exact hobserve
  · exact hobserve.persist rfl rfl
  · exact hobserve.persist rfl rfl

theorem Flat.voteReply (h : Flat rf) (numVotes : ℕ) (curTerm : ℤ) (reply : RequestVoteReply) :
    Flat (voteReply rf numVotes curTerm reply).1 := by
  unfold RaftPeer.voteReply
  dsimp only
  split_ifs
  all_goals first | exact h | exact h.persist rfl rfl

theorem Flat.installReply (h : Flat rf) (server : Fin n) (saved : ℤ)
    (args : InstallSnapshotRequest C) (resp : InstallSnapshotResponse) :
    Flat (installReply rf server saved args resp) := by
  unfold RaftPeer.installReply
  split_ifs
  all_goals first | exact h | exact h.persist rfl rfl | exact h.of_eq rfl rfl

theorem Flat.appendReply (h : Flat rf) {server : Fin n} {saved : ℤ}
    {args : AppendEntriesRequest C} {resp : AppendEntriesResponse}
    (hres : appendReply rf server saved args resp = some rf') : Flat rf' := by
  unfold RaftPeer.appendReply at hres
  split_ifs at hres
  · exact Option.some.inj hres ▸ h
  · exact Option.some.inj hres ▸ h
  · exact Option.some.inj hres ▸ h.persist rfl rfl
  · obtain ⟨c, rfl⟩ := advanceCommit_eq hres
    exact h.of_eq rfl rfl
  · exact Option.some.inj hres ▸ h.of_eq rfl rfl

theorem Flat.start (h : Flat rf) (command : C) : Flat (start rf command).1 := by
  unfold RaftPeer.start
  dsimp only
  split_ifs
  · exact h
  · exact h.persist rfl rfl

theorem Flat.apply (h : Flat rf) {result : Raft n C × List (ApplyMsg C)}
    (hresult : apply rf = some result) : Flat result.1 := by
  unfold RaftPeer.apply at hresult
  dsimp only at hresult
  split_ifs at hresult <;> exact Option.some.inj hresult ▸ h.of_eq rfl rfl

theorem flat_make [Inhabited C] (me : Fin n) {ps : Persister C}
    (h : ∀ d ∈ ps.saves, d.lastIncludedIndex = 0) : Flat (make me ps) := by
  cases hsaves : ps.saves with
  | nil =>
      exact ⟨by simp [make, Raft.readPersist, hsaves], by simp [make, Raft.readPersist, hsaves]⟩
  | cons d rest =>
    rw [hsaves] at h
    exact ⟨by simpa [make, Raft.readPersist, hsaves] using h d List.mem_cons_self,
      by simpa [make, Raft.readPersist, hsaves] using h⟩

end Peer

def snapshotFree : Event n C → Bool
  | .snapshot _ _ => false
  | .crashIn e _ => snapshotFree e
  | _ => true

structure Uncompacted (s : Cluster n C) : Prop where
  flat : ∀ p, Flat (s.procs p).rf
  commands : ∀ p, ∀ msg ∈ (s.procs p).applying, ∃ index command, msg = .command index command
  requests : ∀ id src dst args, Packet.request id src dst (.installSnapshot args) ∉ s.net

section Cluster

variable [Inhabited C] {s t : Cluster n C} {a : Proto n C} {e : Event n C}

omit [Inhabited C] in
theorem Uncompacted.update (h : Uncompacted s) {p : Fin n} {pr : Process n C}
    (hprocs : t.procs = Function.update s.procs p pr) (hflat : Flat pr.rf)
    (hcommands : ∀ msg ∈ pr.applying, ∃ index command, msg = .command index command)
    (hnet : ∀ id src dst args, Packet.request id src dst (.installSnapshot args) ∉ t.net) :
    Uncompacted t where
  flat q := by
    rw [hprocs]
    by_cases hq : q = p
    · subst hq
      simpa using hflat
    · simpa [hq] using h.flat q
  commands q := by
    rw [hprocs]
    by_cases hq : q = p
    · subst hq
      simpa using hcommands
    · simpa [hq] using h.commands q
  requests := hnet

omit [Inhabited C] in
theorem Uncompacted.spawnAll (h : Uncompacted s) (p : Fin n) {reqs : List (Fin n × Request C)}
    (hreqs : ∀ dst args, (dst, Request.installSnapshot args) ∉ reqs) :
    Uncompacted (s.spawnAll p reqs) := by
  have hnet : ∀ id src dst args, Packet.request id src dst (.installSnapshot args) ∉
      (spawned s.nextCall (s.procs p).rf.currentTerm reqs).map (Call.packet p) ++ s.net := by
    intro id src dst args hmem
    rcases List.mem_append.mp hmem with hnew | hold
    · obtain ⟨call, hcall, heq⟩ := List.mem_map.mp hnew
      obtain ⟨-, -, -, hreq⟩ := Packet.request.inj heq
      exact hreqs call.server args (hreq ▸ (mem_spawned hcall).2.2.2)
    · exact h.requests id src dst args hold
  rw [spawnAll_eq]
  exact h.update rfl (h.flat p) (h.commands p) hnet

omit [Inhabited C] in
theorem mem_commandMsgs {i : ℤ} {entries : List (LogValue C)} {msg : ApplyMsg C}
    (h : msg ∈ commandMsgs i entries) : ∃ index command, msg = .command index command := by
  induction entries generalizing i with
  | nil => cases h
  | cons entry entries ih =>
    rcases List.mem_cons.mp h with rfl | h
    · exact ⟨i, entry.item, rfl⟩
    · exact ih h

omit [Inhabited C] in
theorem commands_of_apply {rf : Raft n C} {result : Raft n C × List (ApplyMsg C)}
    (happlied : rf.lastIncludedIndex ≤ rf.lastApplied) (hresult : apply rf = some result) :
    ∀ msg ∈ result.2, ∃ index command, msg = .command index command := by
  unfold apply at hresult
  rw [if_neg (not_lt.mpr happlied)] at hresult
  dsimp only at hresult
  split_ifs at hresult
  · obtain rfl := Option.some.inj hresult
    exact fun msg hmsg => mem_commandMsgs hmsg
  · obtain rfl := Option.some.inj hresult
    exact nofun

theorem Uncompacted.handle (h : Uncompacted s) {i id : ℕ} {src dst : Fin n} {req : Request C}
    (hpkt : s.net[i]? = some (.request id src dst req)) : Flat ((s.procs dst).handle req).1.rf := by
  cases req with
  | requestVote args => exact (h.flat dst).requestVote args
  | appendEntries args => exact (h.flat dst).appendEntries args
  | installSnapshot args =>
    exact absurd (List.mem_of_getElem? hpkt) (h.requests id src dst args)

omit [Inhabited C] in
theorem flat_resume {pr pr' : Process n C} {call : Call n C} {rep : Option Reply}
    (h : Flat pr.rf) (hres : pr.resume call rep = some pr') : Flat pr'.rf := by
  cases Process.resumed hres with
  | vote reply => exact h.voteReply _ _ reply
  | nothing => exact h
  | append hreq hrf => exact h.appendReply hrf
  | install hreq => exact h.installReply _ _ _ _

omit [Inhabited C] in
theorem resume_applying {pr pr' : Process n C} {call : Call n C} {rep : Option Reply}
    (h : pr.resume call rep = some pr') : pr'.applying = pr.applying := by
  cases Process.resumed h <;> rfl

/-- A leader that has no snapshot sends none. -/
theorem routine_requests (h : Uncompacted s) (hs : Related s a) {p : Fin n}
    (hrole : (s.procs p).rf.currentRole = .leader) {reqs : List (Fin n × Request C)}
    (hreqs : routineRequests (s.procs p).rf (others p) = some reqs) (dst : Fin n)
    (args : InstallSnapshotRequest C) : (dst, Request.installSnapshot args) ∉ reqs := by
  intro hmem
  have hreq : routineRequest (s.procs p).rf dst = some (.installSnapshot args) :=
    (mem_routineRequests hreqs hmem).2
  have hnext := (((hs.proc p).peer.leads hrole).next dst).1
  unfold routineRequest at hreq
  rw [if_neg (by rw [(h.flat p).index]; omega)] at hreq
  obtain ⟨prevLogTerm, -, heq⟩ := Option.map_eq_some_iff.mp hreq
  cases heq

theorem Uncompacted.action (h : Uncompacted s) (hs : Related s a) (haction : s.Action e t)
    (hfree : snapshotFree e = true)
    (hcut : ∀ e' k u, e = .crashIn e' k → s.step? e' = some u → Uncompacted u) :
    Uncompacted t := by
  have herase : ∀ i id src dst args,
      Packet.request id src dst (.installSnapshot args) ∉ s.net.eraseIdx i :=
    fun i id src dst args hmem => h.requests id src dst args (List.mem_of_mem_eraseIdx hmem)
  cases haction with
  | ticker p hrole =>
    refine Uncompacted.spawnAll ?_ p fun dst args hmem => ?_
    · exact h.update rfl ((h.flat p).persist rfl rfl) (h.commands p) h.requests
    · obtain ⟨q, -, heq⟩ := List.mem_map.mp hmem
      cases heq
  | routine hrole hreqs => exact h.spawnAll _ (routine_requests h hs hrole hreqs)
  | @request i id src dst req hpkt =>
    refine h.update rfl (h.handle hpkt) ?_ ?_
    · have hsame : ((s.procs dst).handle req).1.applying = (s.procs dst).applying := by
        cases req <;> rfl
      exact hsame ▸ h.commands dst
    · intro id src dst args hmem
      rcases List.mem_cons.mp hmem with heq | hold
      · cases heq
      · exact herase i id src dst args hold
  | @reply i dst call rep pr hpkt hcall hres =>
    have hflat : Flat ((s.procs dst).finish call.id).rf := h.flat dst
    exact h.update rfl (flat_resume hflat hres)
      (resume_applying hres ▸ h.commands dst) (herase i)
  | @callFails p call pr hcall hres =>
    have hflat : Flat ((s.procs p).finish call.id).rf := h.flat p
    exact h.update rfl (flat_resume hflat hres)
      (resume_applying hres ▸ h.commands p) h.requests
  | lose i => exact { h with requests := herase i }
  | start p command => exact h.update rfl ((h.flat p).start command) (h.commands p) h.requests
  | snapshot hd hrf => cases hfree
  | @apply p result hidle hresult =>
    refine h.update rfl ((h.flat p).apply hresult) (commands_of_apply ?_ hresult) h.requests
    rw [(h.flat p).index]
    exact (hs.proc p).peer.applied_nonneg
  | @receive p msg rest hmsgs =>
    have hrest : ∀ msg ∈ rest, ∃ index command, msg = .command index command := fun msg' hmsg' =>
      h.commands p msg' (hmsgs ▸ List.mem_cons_of_mem _ hmsg')
    cases msg with
    | command index command => exact h.update rfl (h.flat p) hrest h.requests
    | snapshot index term data => exact h.update rfl (h.flat p) hrest h.requests
  | crash p => exact h.update rfl (flat_make p (h.flat p).saves) nofun h.requests
  | @crashIn e p u k hact hu ps hps =>
    refine h.update rfl (flat_make p fun d hd => ?_) nofun ?_
    · subst hps
      exact ((hcut e k u rfl hu).flat p).saves d (List.mem_of_mem_drop hd)
    · cases e with
      | deliver i => exact herase i
      | _ => exact h.requests

/-- Without snapshots of the services, the peers make none either. -/
theorem Uncompacted.step (h : Uncompacted s) (hs : Related s a) (hstep : s.step? e = some t)
    (hfree : snapshotFree e = true) : Uncompacted t := by
  induction e generalizing t with
  | crashIn e k ih =>
    refine h.action hs (Cluster.action_of_step hstep) hfree fun e' k' u heq hu => ?_
    obtain ⟨rfl, rfl⟩ := Event.crashIn.inj heq
    exact ih hu hfree
  | _ => exact h.action hs (Cluster.action_of_step hstep) hfree nofun

theorem uncompacted_initial : Uncompacted (RaftCluster.initial : Cluster n C) where
  flat p := flat_make p nofun
  commands := nofun
  requests := nofun

end Cluster

end DistributedLabs.RaftUncompacted
