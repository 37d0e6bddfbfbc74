import DistributedLabs.RaftSimulation

/-!
# What an event does to the Raft fields of one peer

Every event leaves the fields of a peer as they are, or it is one of the operations listed in
`Change`. An invariant of a peer has to look at nothing else. For the indices that a leader keeps
there are only the cases of `Leads`: they change when it is elected and when it goes on with a
reply.
-/

namespace DistributedLabs.RaftPeerSteps

open RaftPeer RaftCluster RaftRefinement

variable {n : ℕ} {C : Type*} [Inhabited C] {s t : Cluster n C} {e : Event n C} {p q : Fin n}

/-- The Raft fields of peer `p` after the event `e` in state `s`. -/
inductive Change (s : Cluster n C) (e : Event n C) (p : Fin n) : Raft n C → Prop
  | same : Change s e p (s.procs p).rf
  | ticker (hrole : (s.procs p).rf.currentRole ≠ .leader) :
    Change s e p (startElection (s.procs p).rf).1
  | handle {i id : ℕ} {src : Fin n} {req : Request C} (he : e = .deliver i)
    (hpkt : s.net[i]? = some (.request id src p req)) : Change s e p ((s.procs p).handle req).1.rf
  | vote (call : Call n C) (reply : RequestVoteReply) :
    Change s e p
      (voteReply (s.procs p).rf ((s.procs p).numVotes call.savedTerm) call.savedTerm reply).1
  | append {i : ℕ} {call : Call n C} {args : AppendEntriesRequest C} {resp : AppendEntriesResponse}
    {rf : Raft n C} (he : e = .deliver i)
    (hpkt : s.net[i]? = some (.reply call.id p (.appendEntries resp)))
    (hcall : call ∈ (s.procs p).calls) (hreq : call.req = .appendEntries args)
    (hrf : appendReply (s.procs p).rf call.server call.savedTerm args resp = some rf) :
    Change s e p rf
  | install {i : ℕ} {call : Call n C} {args : InstallSnapshotRequest C}
    {resp : InstallSnapshotResponse} (he : e = .deliver i)
    (hpkt : s.net[i]? = some (.reply call.id p (.installSnapshot resp)))
    (hcall : call ∈ (s.procs p).calls) (hreq : call.req = .installSnapshot args) :
    Change s e p (installReply (s.procs p).rf call.server call.savedTerm args resp)
  | start (command : C) : Change s e p (start (s.procs p).rf command).1
  | snapshot {i : ℤ} {data : List C} {rf : Raft n C}
    (hrf : snapshot (s.procs p).rf i data = some rf) : Change s e p rf
  | apply {result : Raft n C × List (ApplyMsg C)} (hresult : apply (s.procs p).rf = some result) :
    Change s e p result.1
  | boot (ps : Persister C) : Change s e p (make p ps)

theorem change_set {pr : Process n C} (h : Change s e q pr.rf) (p : Fin n) :
    Change s e p ((s.set q pr).procs p).rf := by
  by_cases hp : p = q
  · subst hp
    simpa only [Cluster.set, Function.update_self] using h
  · simp only [Cluster.set, Function.update_of_ne hp]
    exact .same

omit [Inhabited C] in
theorem spawnAll_rf (s : Cluster n C) (reqs : List (Fin n × Request C)) (q : Fin n) :
    ((s.spawnAll p reqs).procs q).rf = (s.procs q).rf := by
  rw [spawnAll_eq]
  simp only [Function.update_apply]
  split_ifs with hq
  · rw [hq]
  · rfl

theorem change_of_action (h : s.Action e t) (p : Fin n) : Change s e p (t.procs p).rf := by
  cases h with
  | ticker q hrole =>
    rw [spawnAll_rf]
    exact change_set (.ticker hrole) p
  | routine hrole hreqs =>
    rw [spawnAll_rf]
    exact .same
  | request hpkt => exact change_set (.handle rfl hpkt) p
  | @reply i dst call rep pr hpkt hcall hres =>
    refine change_set (show Change s (.deliver i) dst pr.rf from ?_) p
    cases Process.resumed hres with
    | vote reply => exact .vote call reply
    | append hreq hrf => exact .append rfl hpkt hcall hreq hrf
    | install hreq => exact .install rfl hpkt hcall hreq
  | @callFails q call pr hcall hres =>
    apply change_set
    cases Process.resumed hres with
    | vote reply => exact .vote call reply
    | nothing => exact .same
  | lose i => exact .same
  | start q command => exact change_set (.start command) p
  | snapshot hd hrf => exact change_set (.snapshot hrf) p
  | apply hidle hresult => exact change_set (.apply hresult) p
  | @receive q msg rest hmsgs =>
    apply change_set
    cases msg <;> exact .same
  | crash q => exact change_set (.boot _) p
  | crashIn k hact ht ps hps => exact change_set (.boot _) p

theorem step_change (h : s.step? e = some t) (p : Fin n) : Change s e p (t.procs p).rf :=
  change_of_action (Cluster.action_of_step h) p

section Leaders

omit [Inhabited C]

theorem requestVote_leader {rf : Raft n C} {args : RequestVoteArgs}
    (h : (requestVote rf args).1.currentRole = .leader) : (requestVote rf args).1 = rf := by
  rw [requestVote_eq] at h ⊢
  unfold castVote at h ⊢
  split_ifs at h ⊢ <;> first | rfl | cases h

theorem observeTerm_leader {rf : Raft n C} {term : ℤ}
    (h : (rf.observeTerm term).currentRole = .leader) : rf.observeTerm term = rf := by
  unfold Raft.observeTerm at h ⊢
  split_ifs at h ⊢
  rfl

theorem appendEntries_leader {rf : Raft n C} {args : AppendEntriesRequest C}
    (h : (appendEntries rf args).1.currentRole = .leader) :
    rf.currentRole = .leader ∧ (appendEntries rf args).1.currentTerm = rf.currentTerm ∧
      (appendEntries rf args).1.matchIndex = rf.matchIndex ∧
      (appendEntries rf args).1.nextIndex = rf.nextIndex := by
  rw [appendEntries_eq] at h ⊢
  split_ifs at h ⊢ with hstale
  · exact ⟨h, rfl, rfl, rfl⟩
  · obtain ⟨-, hterm, hrole, hmatch, hnext, -⟩ :=
      answerEntries_standing (rf.observeTerm args.term) args
    rw [hrole] at h
    rw [hterm, hmatch, hnext, observeTerm_leader h]
    rw [observeTerm_leader h] at h
    exact ⟨h, rfl, rfl, rfl⟩

theorem advanceCommit_eq {rf rf' : Raft n C} (h : rf.advanceCommit = some rf') :
    ∃ c, rf' = { rf with commitIndex := c } := by
  unfold Raft.advanceCommit at h
  split_ifs at h
  · exact ⟨rf.commitIndex, (Option.some.inj h).symm⟩
  · obtain ⟨v, -, rfl⟩ := Option.map_eq_some_iff.mp h
    split_ifs
    · exact ⟨rf.toCommit, rfl⟩
    · exact ⟨rf.commitIndex, rfl⟩

theorem apply_standing {rf : Raft n C} {result : Raft n C × List (ApplyMsg C)}
    (h : apply rf = some result) : result.1.currentRole = rf.currentRole ∧
      result.1.currentTerm = rf.currentTerm ∧ result.1.matchIndex = rf.matchIndex ∧
      result.1.nextIndex = rf.nextIndex := by
  unfold apply at h
  dsimp only at h
  split_ifs at h <;> obtain rfl := Option.some.inj h <;> exact ⟨rfl, rfl, rfl, rfl⟩

/-- How the leader with fields `rf` at peer `p` comes out of the event `e` in state `s`. -/
inductive Leads (s : Cluster n C) (e : Event n C) (p : Fin n) (rf : Raft n C) : Prop
  | kept (hrole : (s.procs p).rf.currentRole = .leader)
    (hterm : rf.currentTerm = (s.procs p).rf.currentTerm)
    (hmatch : rf.matchIndex = (s.procs p).rf.matchIndex)
    (hnext : rf.nextIndex = (s.procs p).rf.nextIndex)
  | elected (hrole : (s.procs p).rf.currentRole ≠ .leader)
    (hmatch : ∀ q ≠ (s.procs p).rf.me, rf.matchIndex q = 0)
  | installed {i : ℕ} {call : Call n C} {args : InstallSnapshotRequest C}
    {resp : InstallSnapshotResponse} (he : e = .deliver i)
    (hpkt : s.net[i]? = some (.reply call.id p (.installSnapshot resp)))
    (hcall : call ∈ (s.procs p).calls) (hreq : call.req = .installSnapshot args)
    (hrole : (s.procs p).rf.currentRole = .leader)
    (hsaved : call.savedTerm = (s.procs p).rf.currentTerm)
    (hresp : resp.term ≤ (s.procs p).rf.currentTerm)
    (hterm : rf.currentTerm = (s.procs p).rf.currentTerm)
    (hmatch : rf.matchIndex =
      Function.update (s.procs p).rf.matchIndex call.server args.lastIncludedIndex)
    (hnext : rf.nextIndex =
      Function.update (s.procs p).rf.nextIndex call.server (args.lastIncludedIndex + 1))
  | appended {i : ℕ} {call : Call n C} {args : AppendEntriesRequest C}
    {resp : AppendEntriesResponse} (matched : ℤ) (he : e = .deliver i)
    (hpkt : s.net[i]? = some (.reply call.id p (.appendEntries resp)))
    (hcall : call ∈ (s.procs p).calls) (hreq : call.req = .appendEntries args)
    (hrole : (s.procs p).rf.currentRole = .leader)
    (hsaved : call.savedTerm = (s.procs p).rf.currentTerm) (hsucc : resp.success = true)
    (hterm : rf.currentTerm = (s.procs p).rf.currentTerm)
    (hmatched : matched = max ((s.procs p).rf.matchIndex call.server)
      (args.prevLogIndex + args.entries.length))
    (hmatch : ∀ q ≠ (s.procs p).rf.me, rf.matchIndex q =
      Function.update (s.procs p).rf.matchIndex call.server matched q)
    (hnext : rf.nextIndex = Function.update (s.procs p).rf.nextIndex call.server (matched + 1))
  | rejected {i : ℕ} {call : Call n C} {args : AppendEntriesRequest C}
    {resp : AppendEntriesResponse} (he : e = .deliver i)
    (hpkt : s.net[i]? = some (.reply call.id p (.appendEntries resp)))
    (hcall : call ∈ (s.procs p).calls) (hreq : call.req = .appendEntries args)
    (hrole : (s.procs p).rf.currentRole = .leader)
    (hsaved : call.savedTerm = (s.procs p).rf.currentTerm)
    (hresp : resp.term ≤ (s.procs p).rf.currentTerm) (hfail : resp.success = false)
    (hterm : rf.currentTerm = (s.procs p).rf.currentTerm)
    (hmatch : rf.matchIndex = (s.procs p).rf.matchIndex)
    (hnext : rf.nextIndex =
      Function.update (s.procs p).rf.nextIndex call.server ((s.procs p).rf.backUp resp))

variable {rf : Raft n C}

theorem leads_of_eq (h : rf = (s.procs p).rf) (hrole : rf.currentRole = .leader) :
    Leads s e p rf := by
  subst h
  exact .kept hrole rfl rfl rfl

/-- A vote goroutine goes on. -/
theorem leads_vote {votes : ℕ} {saved : ℤ} {reply : RequestVoteReply}
    (hrole : (voteReply (s.procs p).rf votes saved reply).1.currentRole = .leader) :
    Leads s e p (voteReply (s.procs p).rf votes saved reply).1 := by
  unfold voteReply at hrole ⊢
  dsimp only at hrole ⊢
  split_ifs at hrole ⊢ with hterm hlate hgrant hmaj
  · cases hrole
  · exact leads_of_eq rfl hrole
  all_goals first
    | exact leads_of_eq rfl hrole
    | exact .elected (fun hlead => hlate (Or.inr (by rw [hlead]; decide))) fun q hq => if_neg hq

/-- The goroutine of an `AppendEntries` call goes on with its reply. -/
theorem leads_append {i : ℕ} {call : Call n C} {args : AppendEntriesRequest C}
    {resp : AppendEntriesResponse} (he : e = .deliver i)
    (hpkt : s.net[i]? = some (.reply call.id p (.appendEntries resp)))
    (hcall : call ∈ (s.procs p).calls) (hreq : call.req = .appendEntries args)
    (hrf : appendReply (s.procs p).rf call.server call.savedTerm args resp = some rf)
    (hrole : rf.currentRole = .leader) : Leads s e p rf := by
  unfold appendReply at hrf
  split_ifs at hrf with hlead hsaved hresp hsucc
  · exact leads_of_eq (Option.some.inj hrf).symm hrole
  · exact leads_of_eq (Option.some.inj hrf).symm hrole
  · obtain rfl := Option.some.inj hrf
    cases hrole
  · obtain ⟨c, rfl⟩ := advanceCommit_eq hrf
    refine .appended _ he hpkt hcall hreq (not_not.mp hlead)
      (not_not.mp hsaved) hsucc rfl rfl ?_ rfl
    intro q hq
    exact Function.update_of_ne hq _ _
  · obtain rfl := Option.some.inj hrf
    exact .rejected he hpkt hcall hreq (not_not.mp hlead) (not_not.mp hsaved) (not_lt.mp hresp)
      (by simpa using hsucc) rfl rfl rfl

/-- The goroutine of an `InstallSnapshot` call goes on with its reply. -/
theorem leads_install {i : ℕ} {call : Call n C} {args : InstallSnapshotRequest C}
    {resp : InstallSnapshotResponse} (he : e = .deliver i)
    (hpkt : s.net[i]? = some (.reply call.id p (.installSnapshot resp)))
    (hcall : call ∈ (s.procs p).calls) (hreq : call.req = .installSnapshot args)
    (hrole : (installReply (s.procs p).rf call.server call.savedTerm args resp).currentRole =
      .leader) :
    Leads s e p (installReply (s.procs p).rf call.server call.savedTerm args resp) := by
  unfold installReply at hrole ⊢
  split_ifs at hrole ⊢ with hlead hsaved hresp
  · exact leads_of_eq rfl hrole
  · exact leads_of_eq rfl hrole
  · cases hrole
  · exact .installed he hpkt hcall hreq (not_not.mp hlead) (not_not.mp hsaved) (not_lt.mp hresp)
      rfl rfl rfl

variable [Inhabited C]

theorem installSnapshotHandler_leader {args : InstallSnapshotRequest C}
    (h : (installSnapshotHandler rf args).1.currentRole = .leader) :
    (installSnapshotHandler rf args).1 = rf := by
  rw [installSnapshotHandler_eq] at h ⊢
  split_ifs at h ⊢
  · rfl
  · cases h
  · cases h

/-- A leader that handles a request and still leads has kept its term and its indices. -/
theorem leads_handle {req : Request C}
    (hrole : ((s.procs p).handle req).1.rf.currentRole = .leader) :
    Leads s e p ((s.procs p).handle req).1.rf := by
  cases req with
  | requestVote args => exact leads_of_eq (requestVote_leader hrole) hrole
  | appendEntries args =>
    obtain ⟨hlead, hterm, hmatch, hnext⟩ := appendEntries_leader hrole
    exact .kept hlead hterm hmatch hnext
  | installSnapshot args => exact leads_of_eq (installSnapshotHandler_leader hrole) hrole

theorem leads_of_change (h : Change s e p rf) (hrole : rf.currentRole = .leader) :
    Leads s e p rf := by
  cases h with
  | same => exact leads_of_eq rfl hrole
  | ticker _ => cases hrole
  | handle he hpkt => exact leads_handle hrole
  | vote call reply => exact leads_vote hrole
  | append he hpkt hcall hreq hrf => exact leads_append he hpkt hcall hreq hrf hrole
  | install he hpkt hcall hreq => exact leads_install he hpkt hcall hreq hrole
  | start command =>
    unfold start at hrole ⊢
    split_ifs at hrole ⊢ with hlead
    · exact leads_of_eq rfl hrole
    · exact .kept (not_not.mp hlead) rfl rfl rfl
  | snapshot hrf =>
    unfold snapshot at hrf
    split_ifs at hrf
    · exact leads_of_eq (Option.some.inj hrf).symm hrole
    · obtain ⟨v, -, rfl⟩ := Option.map_eq_some_iff.mp hrf
      exact .kept hrole rfl rfl rfl
  | apply hresult =>
    obtain ⟨hlead, hterm, hmatch, hnext⟩ := apply_standing hresult
    exact .kept (hlead.symm.trans hrole) hterm hmatch hnext
  | boot ps =>
    rw [make_eq] at hrole
    cases hrole

end Leaders

end DistributedLabs.RaftPeerSteps
