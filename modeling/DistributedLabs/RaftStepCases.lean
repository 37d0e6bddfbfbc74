import DistributedLabs.RaftPeerSteps

/-!
# What an event does to packets, calls and a leader's indices

Replies appear only where a request is delivered, calls only with new numbers, and a
leader's match indices change only when it is elected or goes on with a reply.
-/

namespace DistributedLabs.RaftStepCases

open RaftPeer RaftCluster RaftRefinement RaftPeerSteps

variable {n : ℕ} {C : Type*}

/-- How the leader with fields `rf` at peer `p` comes out of an event in state `s`. -/
inductive Tally (s : Cluster n C) (p : Fin n) (rf : Raft n C) : Prop
  | same (hrole : (s.procs p).rf.currentRole = .leader)
      (hterm : rf.currentTerm = (s.procs p).rf.currentTerm)
      (hmatch : rf.matchIndex = (s.procs p).rf.matchIndex)
  | elected (hmatch : ∀ q ≠ (s.procs p).rf.me, rf.matchIndex q = 0)
  | installed {call : Call n C} {args : InstallSnapshotRequest C} {resp : InstallSnapshotResponse}
      (hpkt : .reply call.id p (.installSnapshot resp) ∈ s.net) (hcall : call ∈ (s.procs p).calls)
      (hreq : call.req = .installSnapshot args) (hrole : (s.procs p).rf.currentRole = .leader)
      (hsaved : call.savedTerm = (s.procs p).rf.currentTerm)
      (hresp : resp.term ≤ (s.procs p).rf.currentTerm)
      (hterm : rf.currentTerm = (s.procs p).rf.currentTerm)
      (hmatch : rf.matchIndex =
        Function.update (s.procs p).rf.matchIndex call.server args.lastIncludedIndex)
  | appended {call : Call n C} {args : AppendEntriesRequest C} {resp : AppendEntriesResponse}
      (hpkt : .reply call.id p (.appendEntries resp) ∈ s.net) (hcall : call ∈ (s.procs p).calls)
      (hreq : call.req = .appendEntries args) (hrole : (s.procs p).rf.currentRole = .leader)
      (hsaved : call.savedTerm = (s.procs p).rf.currentTerm) (hsucc : resp.success = true)
      (hterm : rf.currentTerm = (s.procs p).rf.currentTerm)
      (hmatch : ∀ q ≠ (s.procs p).rf.me, rf.matchIndex q =
        Function.update (s.procs p).rf.matchIndex call.server
          (max ((s.procs p).rf.matchIndex call.server)
            (args.prevLogIndex + args.entries.length)) q)

theorem tally_of_leads {s : Cluster n C} {e : Event n C} {p : Fin n} {rf : Raft n C}
    (h : Leads s e p rf) : Tally s p rf := by
  cases h with
  | kept hrole hterm hmatch hnext => exact .same hrole hterm hmatch
  | elected hrole hmatch => exact .elected hmatch
  | installed he hpkt hcall hreq hrole hsaved hresp hterm hmatch hnext =>
    exact .installed (List.mem_of_getElem? hpkt) hcall hreq hrole hsaved hresp hterm hmatch
  | appended matched he hpkt hcall hreq hrole hsaved hsucc hterm hmatched hmatch hnext =>
    exact .appended (List.mem_of_getElem? hpkt) hcall hreq hrole hsaved hsucc hterm
      (hmatched ▸ hmatch)
  | rejected he hpkt hcall hreq hrole hsaved hresp hfail hterm hmatch hnext =>
    exact .same hrole hterm hmatch

variable [Inhabited C] {s t : Cluster n C} {e : Event n C} {p : Fin n}

structure Outcome (s : Cluster n C) (e : Event n C) (t : Cluster n C) : Prop where
  replies : ∀ {id dst rep}, .reply id dst rep ∈ t.net → .reply id dst rep ∈ s.net ∨
    ∃ i q req, e = .deliver i ∧ s.net[i]? = some (.request id dst q req) ∧
      rep = ((s.procs q).handle req).2
  calls : ∀ {p call}, call ∈ (t.procs p).calls → call ∈ (s.procs p).calls ∨ s.nextCall ≤ call.id
  leads : ∀ p, (t.procs p).rf.currentRole = .leader → Tally s p (t.procs p).rf

omit [Inhabited C] in
theorem resume_calls {pr pr' : Process n C} {call : Call n C} {rep : Option Reply}
    (h : pr.resume call rep = some pr') : pr'.calls = pr.calls := by
  cases Process.resumed h <;> rfl

omit [Inhabited C] in
/-- Calls that a process keeps were there before. -/
theorem calls_of_set {pr : Process n C} {q : Fin n} {call : Call n C}
    (hcall : call ∈ ((s.set p pr).procs q).calls)
    (h : ∀ call ∈ pr.calls, call ∈ (s.procs p).calls) : call ∈ (s.procs q).calls := by
  simp only [Cluster.set, Function.update_apply] at hcall
  split_ifs at hcall with hq
  · subst hq
    exact h call hcall
  · exact hcall

omit [Inhabited C] in
/-- New calls have new numbers. -/
theorem calls_of_spawnAll {reqs : List (Fin n × Request C)} {q : Fin n} {call : Call n C}
    (hcall : call ∈ ((s.spawnAll p reqs).procs q).calls) :
    call ∈ (s.procs q).calls ∨ s.nextCall ≤ call.id := by
  rw [spawnAll_eq] at hcall
  simp only [Function.update_apply] at hcall
  split_ifs at hcall with hq
  · subst hq
    rcases List.mem_append.mp hcall with hnew | hold
    · exact Or.inr (mem_spawned hnew).1
    · exact Or.inl hold
  · exact Or.inl hcall

theorem calls_of_action (h : s.Action e t) {q : Fin n} {call : Call n C}
    (hcall : call ∈ (t.procs q).calls) : call ∈ (s.procs q).calls ∨ s.nextCall ≤ call.id := by
  cases h with
  | ticker p hrole =>
    refine (calls_of_spawnAll hcall).imp_left fun hold => ?_
    exact calls_of_set hold fun _ hc => hc
  | routine hrole hreqs => exact calls_of_spawnAll hcall
  | @request i id src dst req hpkt =>
    have hkept : ((s.procs dst).handle req).1.calls = (s.procs dst).calls := by cases req <;> rfl
    exact Or.inl (calls_of_set hcall fun _ hc => hkept ▸ hc)
  | reply hpkt hmem hres =>
    exact Or.inl (calls_of_set hcall fun c hc => finish_calls c (resume_calls hres ▸ hc))
  | callFails hmem hres =>
    exact Or.inl (calls_of_set hcall fun c hc => finish_calls c (resume_calls hres ▸ hc))
  | lose i => exact Or.inl hcall
  | start p command => exact Or.inl (calls_of_set hcall fun _ hc => hc)
  | snapshot hd hrf => exact Or.inl (calls_of_set hcall fun _ hc => hc)
  | apply hidle hresult => exact Or.inl (calls_of_set hcall fun _ hc => hc)
  | @receive p msg rest hmsgs =>
    refine Or.inl (calls_of_set hcall fun c hc => ?_)
    cases msg <;> exact hc
  | crash p => exact Or.inl (calls_of_set hcall fun c hc => by cases hc)
  | crashIn k hact ht ps hps => exact Or.inl (calls_of_set hcall fun c hc => by cases hc)

omit [Inhabited C] in
theorem replies_of_spawnAll {reqs : List (Fin n × Request C)} {id : ℕ} {dst : Fin n} {rep : Reply}
    (hpkt : .reply id dst rep ∈ (s.spawnAll p reqs).net) : .reply id dst rep ∈ s.net := by
  rw [spawnAll_eq] at hpkt
  rcases List.mem_append.mp hpkt with hnew | hold
  · obtain ⟨call, -, hcall⟩ := List.mem_map.mp hnew
    cases hcall
  · exact hold

theorem replies_of_action (h : s.Action e t) {id : ℕ} {dst : Fin n} {rep : Reply}
    (hmem : .reply id dst rep ∈ t.net) : .reply id dst rep ∈ s.net ∨
      ∃ i q req, e = .deliver i ∧ s.net[i]? = some (.request id dst q req) ∧
        rep = ((s.procs q).handle req).2 := by
  cases h with
  | ticker p hrole =>
    have hold := replies_of_spawnAll hmem
    exact Or.inl hold
  | routine hrole hreqs => exact Or.inl (replies_of_spawnAll hmem)
  | @request i id src q req hpkt =>
    rcases List.mem_cons.mp hmem with heq | hold
    · obtain ⟨rfl, rfl, rfl⟩ := Packet.reply.inj heq
      exact Or.inr ⟨i, q, req, rfl, hpkt, rfl⟩
    · exact Or.inl (List.mem_of_mem_eraseIdx hold)
  | reply hpkt hcall hres => exact Or.inl (List.mem_of_mem_eraseIdx hmem)
  | lose i => exact Or.inl (List.mem_of_mem_eraseIdx hmem)
  | @crashIn e p u k hact ht ps hps =>
    left
    cases e with
    | deliver i => exact List.mem_of_mem_eraseIdx hmem
    | _ => exact hmem
  | _ => exact Or.inl hmem

theorem step_outcome (h : s.step? e = some t) : Outcome s e t where
  replies := replies_of_action (Cluster.action_of_step h)
  calls := calls_of_action (Cluster.action_of_step h)
  leads p hrole := tally_of_leads (leads_of_change (step_change h p) hrole)

theorem nextCall_le_step (h : s.step? e = some t) : s.nextCall ≤ t.nextCall := by
  cases Cluster.action_of_step h with
  | ticker p hrole =>
    rw [spawnAll_eq]
    exact Nat.le_add_right _ _
  | routine hrole hreqs =>
    rw [spawnAll_eq]
    exact Nat.le_add_right _ _
  | _ => exact le_rfl

end DistributedLabs.RaftStepCases
