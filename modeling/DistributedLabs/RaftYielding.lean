import DistributedLabs.RaftPeerSteps
import DistributedLabs.RaftTermRule

/-!
# Whether a candidate yields to the elected leader

A peer that learns of a new term becomes a follower, and `InstallSnapshotHandler` makes it one
whenever it takes the snapshot. `AppendEntries` looks only at the term: a candidate of the same
term appends the entries of the elected leader and stays a candidate. Whoever is a follower in a
term remains one until the term ends.
-/

namespace DistributedLabs.RaftYielding

open RaftPeer RaftCluster RaftRefinement RaftSafety RaftPeerSteps RaftTermRule
  TransitionRuns Relation

variable {n : ℕ} {C : Type*} {rf : Raft n C}

def fromLeader : Request C → Bool
  | .requestVote _ => false
  | .appendEntries _ => true
  | .installSnapshot _ => true

/-- The peer is a candidate in the term of the request, and the request brings entries, or a
snapshot that ends before the peer's own. -/
def StaysCandidate (rf : Raft n C) : Request C → Prop
  | .requestVote _ => False
  | .appendEntries args => rf.currentRole = .candidate ∧ args.term = rf.currentTerm
  | .installSnapshot args => rf.currentRole = .candidate ∧ args.term = rf.currentTerm ∧
      args.lastIncludedIndex < rf.lastIncludedIndex

section Roles

def KeepsRole (before after : Raft n C) : Prop :=
  after.currentRole = before.currentRole ∨ after.currentRole = .follower

theorem KeepsRole.follower {rf' : Raft n C} (h : KeepsRole rf rf')
    (hrole : rf.currentRole = .follower) : rf'.currentRole = .follower :=
  h.elim (fun hsame => hsame.trans hrole) id

theorem keepsRole_castVote {mid : Raft n C} (h : KeepsRole rf mid) (args : RequestVoteArgs)
    (reply : RequestVoteReply) : KeepsRole rf (castVote mid args reply).1 := by
  unfold castVote
  split_ifs
  · exact h
  · exact h
  · exact h
  · exact Or.inr rfl

theorem keepsRole_requestVote (rf : Raft n C) (args : RequestVoteArgs) :
    KeepsRole rf (requestVote rf args).1 := by
  rw [requestVote_eq]
  split_ifs
  · exact Or.inl rfl
  · exact keepsRole_castVote (Or.inr rfl) args _
  · exact keepsRole_castVote (Or.inl rfl) args _

theorem observeTerm_role (rf : Raft n C) (T : ℤ) : (rf.observeTerm T).currentRole =
    if rf.currentTerm < T then .follower else rf.currentRole := by
  unfold Raft.observeTerm
  split_ifs <;> rfl

theorem appendEntries_role {args : AppendEntriesRequest C} (h : rf.currentTerm ≤ args.term) :
    (appendEntries rf args).1.currentRole =
      if rf.currentTerm < args.term then .follower else rf.currentRole := by
  obtain ⟨-, -, hrole, -⟩ := answerEntries_standing (rf.observeTerm args.term) args
  rw [appendEntries_eq, if_neg (not_lt.mpr h), hrole, observeTerm_role]

theorem keepsRole_appendEntries (rf : Raft n C) (args : AppendEntriesRequest C) :
    KeepsRole rf (appendEntries rf args).1 := by
  rcases lt_or_ge args.term rf.currentTerm with hstale | hle
  · rw [appendEntries_eq, if_pos hstale]
    exact Or.inl rfl
  · unfold KeepsRole
    rw [appendEntries_role hle]
    split_ifs
    · exact Or.inr rfl
    · exact Or.inl rfl

variable [Inhabited C]

theorem installSnapshotHandler_role {args : InstallSnapshotRequest C}
    (h : ¬ args.term < rf.currentTerm) : (installSnapshotHandler rf args).1.currentRole =
      if args.lastIncludedIndex < rf.lastIncludedIndex then rf.currentRole else .follower := by
  rw [installSnapshotHandler_eq]
  by_cases hless : args.lastIncludedIndex < rf.lastIncludedIndex
  · rw [if_pos (Or.inr hless), if_pos hless]
  · rw [if_neg (not_or.mpr ⟨h, hless⟩), if_neg hless]
    split_ifs <;> rfl

theorem keepsRole_handle (pr : Process n C) (req : Request C) :
    KeepsRole pr.rf (pr.handle req).1.rf := by
  cases req with
  | requestVote args => exact keepsRole_requestVote pr.rf args
  | appendEntries args => exact keepsRole_appendEntries pr.rf args
  | installSnapshot args =>
    change KeepsRole pr.rf (installSnapshotHandler pr.rf args).1
    rw [installSnapshotHandler_eq]
    split_ifs
    · exact Or.inl rfl
    · exact Or.inr rfl
    · exact Or.inr rfl

end Roles

variable [Inhabited C] {s t u : Cluster n C} {e : Event n C} {p src : Fin n} {i id : ℕ}
  {req : Request C}

section Steps

/-- A follower stays one as long as its term does. -/
theorem follower_of_change (h : Change s e p rf) (hrole : (s.procs p).rf.currentRole = .follower)
    (hterm : rf.currentTerm = (s.procs p).rf.currentTerm) : rf.currentRole = .follower := by
  cases h with
  | same => exact hrole
  | ticker _ =>
    change (s.procs p).rf.currentTerm + 1 = (s.procs p).rf.currentTerm at hterm
    omega
  | handle he hpkt => exact (keepsRole_handle (s.procs p) _).follower hrole
  | vote call reply =>
    unfold voteReply
    split_ifs with hnew hlate
    · rfl
    · exact hrole
    all_goals exact absurd (Or.inr (by rw [hrole]; decide)) hlate
  | append he hpkt hcall hreq hrf =>
    rw [appendReply, if_pos (by rw [hrole]; decide)] at hrf
    rw [← Option.some.inj hrf]
    exact hrole
  | install he hpkt hcall hreq =>
    rw [installReply, if_pos (by rw [hrole]; decide)]
    exact hrole
  | start command =>
    rw [start, if_pos (by rw [hrole]; decide)]
    exact hrole
  | snapshot hrf =>
    unfold snapshot at hrf
    split_ifs at hrf
    · rw [← Option.some.inj hrf]
      exact hrole
    · obtain ⟨v, -, rfl⟩ := Option.map_eq_some_iff.mp hrf
      exact hrole
  | apply hresult => exact (apply_standing hresult).1.trans hrole
  | boot ps => rw [make_eq]

def StepInTerm (p : Fin n) (T : ℤ) (s t : Cluster n C) : Prop :=
  RaftCluster.Step s t ∧ (t.procs p).rf.currentTerm = T

theorem follower_of_run {T : ℤ} (hterm : (s.procs p).rf.currentTerm = T)
    (hrole : (s.procs p).rf.currentRole = .follower) (hrun : ReflTransGen (StepInTerm p T) s t) :
    (t.procs p).rf.currentRole = .follower := by
  induction hrun using ReflTransGen.head_induction_on with
  | refl => exact hrole
  | head hstep _ ih =>
    obtain ⟨⟨e, he⟩, hterm'⟩ := hstep
    exact ih hterm' (follower_of_change (step_change he p) hrole (hterm'.trans hterm.symm))

end Steps

/-- The receiver of a leader's request does not lead in its term. -/
theorem not_leader_of_request (hs : RaftCluster.Reached s)
    (hpkt : .request id src p req ∈ s.net) (hreq : fromLeader req = true)
    (hterm : (s.procs p).rf.currentTerm = requestTerm req) :
    (s.procs p).rf.currentRole ≠ .leader := by
  intro hrole
  obtain ⟨a, -, ha⟩ := simulation.reachable hs
  have hleads := (ha.proc p).peer.leads hrole
  have hsent := ha.net.request hpkt
  have helected := hleads.elected
  rw [← hleads.term, hterm] at helected
  cases req with
  | requestVote args => cases hreq
  | appendEntries args => exact hsent.1 (Option.some.inj (hsent.2.1.symm.trans helected))
  | installSnapshot args => exact hsent.1 (Option.some.inj (hsent.2.1.symm.trans helected))

omit [Inhabited C] in
theorem follower_of_ne (hlead : rf.currentRole ≠ .leader) (hcand : rf.currentRole ≠ .candidate) :
    rf.currentRole = .follower := by
  cases hrole : rf.currentRole with
  | follower => rfl
  | candidate => exact absurd hrole hcand
  | leader => exact absurd hrole hlead

/-- The role of a peer that has handled a leader's request and is in its term. -/
theorem handle_role {pr : Process n C} (hreq : fromLeader req = true)
    (hstale : ¬ requestTerm req < pr.rf.currentTerm)
    (hlead : pr.rf.currentTerm = requestTerm req → pr.rf.currentRole ≠ .leader)
    (hterm : (pr.handle req).1.rf.currentTerm = requestTerm req) :
    (StaysCandidate pr.rf req → (pr.handle req).1.rf.currentRole = .candidate) ∧
      (¬ StaysCandidate pr.rf req → (pr.handle req).1.rf.currentRole = .follower) := by
  cases req with
  | requestVote args => cases hreq
  | appendEntries args =>
    change ¬ args.term < pr.rf.currentTerm at hstale
    dsimp only [Process.handle]
    rw [appendEntries_role (not_lt.mp hstale)]
    split_ifs with hnew
    · exact ⟨fun hstay => absurd hstay.2 hnew.ne', fun _ => rfl⟩
    · have heq : args.term = pr.rf.currentTerm := le_antisymm (not_lt.mp hnew) (not_lt.mp hstale)
      exact ⟨fun hstay => hstay.1, fun hyield =>
        follower_of_ne (hlead heq.symm) fun hcand => hyield ⟨hcand, heq⟩⟩
  | installSnapshot args =>
    change ¬ args.term < pr.rf.currentTerm at hstale
    dsimp only [Process.handle] at hterm ⊢
    rw [installSnapshotHandler_role hstale]
    split_ifs with hless
    · rw [installSnapshotHandler_eq, if_pos (Or.inr hless)] at hterm
      exact ⟨fun hstay => hstay.1, fun hyield =>
        follower_of_ne (hlead hterm) fun hcand => hyield ⟨hcand, hterm.symm, hless⟩⟩
    · exact ⟨fun hstay => absurd hstay.2.2 hless, fun _ => rfl⟩

/-- Yielding to the elected leader. A peer handles a request of the leader of a term that is not
stale to it, and is then in that term. It is then a follower, except when it was a candidate of
that term and the request brought entries, or a snapshot behind its own: then it is still a
candidate. From then on a follower remains one as long as it is in that term. -/
theorem yields_to_leader (hs : RaftCluster.Reached s)
    (hpkt : s.net[i]? = some (.request id src p req)) (hreq : fromLeader req = true)
    (hstep : s.step? (.deliver i) = some t)
    (hstale : ¬ requestTerm req < (s.procs p).rf.currentTerm)
    (hterm : (t.procs p).rf.currentTerm = requestTerm req) :
    (StaysCandidate (s.procs p).rf req → (t.procs p).rf.currentRole = .candidate) ∧
    (¬ StaysCandidate (s.procs p).rf req →
      ∀ u, ReflTransGen (StepInTerm p (requestTerm req)) t u →
        (u.procs p).rf.currentRole = .follower) := by
  have hproc := Cluster.deliver_request hpkt hstep
  have hlead := not_leader_of_request hs (List.mem_of_getElem? hpkt) hreq
  obtain ⟨hstays, hyields⟩ := handle_role hreq hstale hlead (hproc ▸ hterm)
  rw [← hproc] at hstays hyields
  exact ⟨hstays, fun hcond u hrun => follower_of_run hterm (hyields hcond) hrun⟩

/-- Peers 0 and 1 of three are candidates of term one, peer 2 votes for peer 0, and its first
request is in flight to peer 1. -/
def splitElectionRun : List (Event 3 ℕ) :=
  [.ticker 0, .ticker 1, .deliver 2, .deliver 0, .start 0 7, .appendEntriesRoutine 0]

theorem yields_to_leader_voter : ∃ s t : Cluster 3 ℕ, RaftCluster.Reached s ∧
    s.net[0]? = some (.request 5 0 2 (.appendEntries ⟨1, 0, 0, -1, [⟨1, 7⟩], 0⟩)) ∧
    s.step? (.deliver 0) = some t ∧ (t.procs 2).rf.currentTerm = 1 ∧
    (t.procs 2).rf.currentRole = .follower := by
  obtain ⟨s, hs, htest⟩ := Cluster.exists_of_run
    (show ((initial : Cluster 3 ℕ).run splitElectionRun).any (fun s => decide
      (s.net[0]? = some (.request 5 0 2 (.appendEntries ⟨1, 0, 0, -1, [⟨1, 7⟩], 0⟩)) ∧
        ¬ (1 : ℤ) < (s.procs 2).rf.currentTerm ∧ (s.procs 2).rf.currentRole = .follower) &&
      (s.step? (.deliver 0)).any fun t => decide ((t.procs 2).rf.currentTerm = 1)) = true by
      decide +kernel)
  obtain ⟨hleft, hrest⟩ := Bool.and_eq_true_iff.mp htest
  obtain ⟨hpkt, hstale, hrole⟩ := of_decide_eq_true hleft
  obtain ⟨t, ht, hterm⟩ := (Option.any_eq_true _ _).mp hrest
  have hyields := (yields_to_leader (reached_of_steps hs) hpkt rfl ht hstale
    (of_decide_eq_true hterm)).2
  refine ⟨s, t, reached_of_steps hs, hpkt, ht, of_decide_eq_true hterm, hyields ?_ t .refl⟩
  rintro ⟨hcand, -⟩
  cases hrole.symm.trans hcand

/-- A candidate acknowledges an entry of the leader of its term, and is still a candidate. -/
theorem candidate_acknowledges : ∃ s t : Cluster 3 ℕ, RaftCluster.Reached s ∧
    (s.procs 0).rf.currentRole = .leader ∧ (s.procs 0).rf.currentTerm = 1 ∧
    s.net[1]? = some (.request 4 0 1 (.appendEntries ⟨1, 0, 0, -1, [⟨1, 7⟩], 0⟩)) ∧
    s.step? (.deliver 1) = some t ∧
    (appendEntries (s.procs 1).rf ⟨1, 0, 0, -1, [⟨1, 7⟩], 0⟩).2.success = true ∧
    (t.procs 1).rf.currentTerm = 1 ∧ (t.procs 1).rf.currentRole = .candidate := by
  obtain ⟨s, hs, htest⟩ := Cluster.exists_of_run
    (show ((initial : Cluster 3 ℕ).run splitElectionRun).any (fun s => decide
      (((s.procs 0).rf.currentRole = .leader ∧ (s.procs 0).rf.currentTerm = 1) ∧
        s.net[1]? = some (.request 4 0 1 (.appendEntries ⟨1, 0, 0, -1, [⟨1, 7⟩], 0⟩)) ∧
        (appendEntries (s.procs 1).rf ⟨1, 0, 0, -1, [⟨1, 7⟩], 0⟩).2.success = true) &&
      (s.step? (.deliver 1)).any fun t => decide ((t.procs 1).rf.currentTerm = 1 ∧
        (t.procs 1).rf.currentRole = .candidate)) = true by decide +kernel)
  obtain ⟨hleft, hrest⟩ := Bool.and_eq_true_iff.mp htest
  obtain ⟨⟨hrole, hterm⟩, hpkt, hsucc⟩ := of_decide_eq_true hleft
  obtain ⟨t, ht, hright⟩ := (Option.any_eq_true _ _).mp hrest
  exact ⟨s, t, reached_of_steps hs, hrole, hterm, hpkt, ht, hsucc, of_decide_eq_true hright⟩

end DistributedLabs.RaftYielding
