import DistributedLabs.RaftPeerSteps
import DistributedLabs.RaftSafety

/-!
# When the disk is up to date

Every operation saves what it changes, with one exception: `AppendEntries` raises the
term and clears the vote before its checks and returns from a failed check without a save.
As long as no request of a higher term is rejected, the saved state equals the state in
memory between any two operations.
-/

namespace DistributedLabs.RaftPersistence

open RaftPeer RaftCluster RaftRefinement RaftPeerSteps RaftSafety TransitionRuns Relation

variable {n : ℕ} {C : Type*}

/-- The persistent fields, as `persist` encodes them. -/
def persistent (rf : Raft n C) : Saved C where
  log := rf.log
  currentTerm := rf.currentTerm
  votedFor := rf.votedFor
  lastIncludedIndex := rf.lastIncludedIndex
  lastIncludedTerm := rf.lastIncludedTerm
  snapshot := rf.curSnapshot

/-- The term that a reply announces. -/
def announced : Reply → ℤ
  | .requestVote reply => reply.term
  | .appendEntries reply => reply.term
  | .installSnapshot reply => reply.term

/-- The request fails one of the checks that `AppendEntries` makes in the request's term. -/
def FailsCheck (rf : Raft n C) (args : AppendEntriesRequest C) : Prop :=
  args.prevLogIndex < rf.lastIncludedIndex ∨
    (rf.log.length : ℤ) ≤ rf.convertLogicalToPhysical args.prevLogIndex ∨
    (0 < rf.convertLogicalToPhysical args.prevLogIndex ∧
      args.prevLogTerm ≠ rf.termAt (rf.convertLogicalToPhysical args.prevLogIndex))

theorem failsCheck_observeTerm (rf : Raft n C) (T : ℤ) (args : AppendEntriesRequest C) :
    FailsCheck (rf.observeTerm T) args ↔ FailsCheck rf args := by
  unfold Raft.observeTerm
  split_ifs <;> exact Iff.rfl

/-- A failed check leaves the peer as it is, and a request that passes ends with a save. -/
theorem answerEntries_cases (rf : Raft n C) (args : AppendEntriesRequest C) :
    (FailsCheck rf args ∧ (answerEntries rf args).1 = rf ∧
      (answerEntries rf args).2.success = false) ∨
    (¬ FailsCheck rf args ∧ (answerEntries rf args).1 = (acceptEntries rf args).persist ∧
      (answerEntries rf args).2.success = true) := by
  unfold answerEntries FailsCheck
  dsimp only
  split_ifs with hlow hhigh hcheck
  · exact Or.inl ⟨Or.inl hlow, rfl, rfl⟩
  · exact Or.inl ⟨Or.inr (Or.inl hhigh), rfl, rfl⟩
  · exact Or.inl ⟨Or.inr (Or.inr hcheck), rfl, rfl⟩
  · refine Or.inr ⟨?_, rfl, rfl⟩
    rintro (h | h | h)
    · exact hlow h
    · exact hhigh h
    · exact hcheck h

theorem appendEntries_success_iff {rf : Raft n C} {args : AppendEntriesRequest C} :
    (appendEntries rf args).2.success = true ↔
      ¬ args.term < rf.currentTerm ∧ ¬ FailsCheck rf args := by
  rw [appendEntries_eq]
  split_ifs with hstale
  · exact iff_of_false not_false fun h => h.1 hstale
  · rw [and_iff_right hstale, ← failsCheck_observeTerm rf args.term args]
    rcases answerEntries_cases (rf.observeTerm args.term) args with
      ⟨hfails, -, hsucc⟩ | ⟨hpasses, -, hsucc⟩
    · exact iff_of_false (hsucc ▸ Bool.false_ne_true) (not_not.mpr hfails)
    · exact iff_of_true hsucc hpasses

theorem appendEntries_of_success {rf : Raft n C} {args : AppendEntriesRequest C}
    (h : (appendEntries rf args).2.success = true) :
    (appendEntries rf args).1 = (acceptEntries (rf.observeTerm args.term) args).persist := by
  obtain ⟨hstale, hcheck⟩ := appendEntries_success_iff.mp h
  rw [appendEntries_eq, if_neg hstale]
  rcases answerEntries_cases (rf.observeTerm args.term) args with ⟨hfails, -⟩ | ⟨-, heq, -⟩
  · exact absurd ((failsCheck_observeTerm rf args.term args).mp hfails) hcheck
  · exact heq

variable [Inhabited C]

def Fresh (rf : Raft n C) : Prop := onDisk rf.persister = persistent rf

instance [DecidableEq C] (rf : Raft n C) : Decidable (Fresh rf) :=
  inferInstanceAs (Decidable (_ = _))

theorem fresh_persist (rf : Raft n C) : Fresh rf.persist := rfl

theorem fresh_make (p : Fin n) (ps : Persister C) : Fresh (make p ps) := by
  rw [Fresh, make_eq]
  rfl

theorem fresh_castVote {rf : Raft n C} (h : Fresh rf) (args : RequestVoteArgs)
    (reply : RequestVoteReply) : Fresh (castVote rf args reply).1 := by
  unfold castVote
  split_ifs <;> first | exact h | exact fresh_persist _

theorem fresh_requestVote {rf : Raft n C} (h : Fresh rf) (args : RequestVoteArgs) :
    Fresh (requestVote rf args).1 := by
  rw [requestVote_eq]
  split_ifs
  · exact h
  · exact fresh_castVote (fresh_persist _) args _
  · exact fresh_castVote h args _

theorem fresh_installSnapshotHandler {rf : Raft n C} (h : Fresh rf)
    (args : InstallSnapshotRequest C) : Fresh (installSnapshotHandler rf args).1 := by
  rw [installSnapshotHandler_eq]
  split_ifs
  · exact h
  · exact fresh_persist _
  · exact fresh_persist _

/-- A rejection in the receiver's own term, and every success, leaves the disk up to date. -/
theorem fresh_appendEntries {rf : Raft n C} (h : Fresh rf) {args : AppendEntriesRequest C}
    (hcond : ¬ (rf.currentTerm < args.term ∧ FailsCheck rf args)) :
    Fresh (appendEntries rf args).1 := by
  rw [appendEntries_eq]
  split_ifs with hstale
  · exact h
  rcases answerEntries_cases (rf.observeTerm args.term) args with ⟨hfails, heq, -⟩ | ⟨-, heq, -⟩
  · have hown : ¬ rf.currentTerm < args.term := fun hlt =>
      hcond ⟨hlt, (failsCheck_observeTerm rf args.term args).mp hfails⟩
    rw [heq, Raft.observeTerm, if_neg hown]
    exact h
  · rw [heq]
    exact fresh_persist _

theorem fresh_voteReply {rf : Raft n C} (h : Fresh rf) (numVotes : ℕ) (curTerm : ℤ)
    (reply : RequestVoteReply) : Fresh (voteReply rf numVotes curTerm reply).1 := by
  unfold voteReply
  dsimp only
  split_ifs <;> first | exact h | exact fresh_persist _

theorem fresh_installReply {rf : Raft n C} (h : Fresh rf) (server : Fin n) (saved : ℤ)
    (args : InstallSnapshotRequest C) (resp : InstallSnapshotResponse) :
    Fresh (installReply rf server saved args resp) := by
  unfold installReply
  split_ifs <;> first | exact h | exact fresh_persist _

theorem fresh_advanceCommit {rf rf' : Raft n C} (h : Fresh rf)
    (hres : rf.advanceCommit = some rf') :
    Fresh rf' := by
  unfold Raft.advanceCommit at hres
  split_ifs at hres
  · obtain rfl := Option.some.inj hres
    exact h
  · obtain ⟨v, -, rfl⟩ := Option.map_eq_some_iff.mp hres
    split_ifs <;> exact h

theorem fresh_appendReply {rf rf' : Raft n C} (h : Fresh rf) {server : Fin n} {saved : ℤ}
    {args : AppendEntriesRequest C} {resp : AppendEntriesResponse}
    (hres : appendReply rf server saved args resp = some rf') : Fresh rf' := by
  unfold appendReply at hres
  dsimp only at hres
  split_ifs at hres
  · exact Option.some.inj hres ▸ h
  · exact Option.some.inj hres ▸ h
  · exact Option.some.inj hres ▸ fresh_persist _
  · exact fresh_advanceCommit (by exact h) hres
  · exact Option.some.inj hres ▸ (show Fresh { rf with nextIndex := _ } from h)

theorem fresh_start {rf : Raft n C} (h : Fresh rf) (command : C) : Fresh (start rf command).1 := by
  unfold start
  split_ifs <;> first | exact h | exact fresh_persist _

theorem fresh_snapshot {rf rf' : Raft n C} (h : Fresh rf) {index : ℤ} {data : List C}
    (hres : snapshot rf index data = some rf') : Fresh rf' := by
  unfold snapshot at hres
  split_ifs at hres
  · exact Option.some.inj hres ▸ h
  · obtain ⟨v, -, rfl⟩ := Option.map_eq_some_iff.mp hres
    exact fresh_persist _

theorem fresh_apply {rf : Raft n C} (h : Fresh rf) {result : Raft n C × List (ApplyMsg C)}
    (hres : apply rf = some result) : Fresh result.1 := by
  unfold apply at hres
  dsimp only at hres
  split_ifs at hres <;> obtain rfl := Option.some.inj hres <;> exact h

/-- The event delivers an `AppendEntries` of a higher term that fails the receiver's checks. -/
def RejectsHigherTerm (s : Cluster n C) (e : Event n C) : Prop :=
  ∃ (i id : ℕ) (src p : Fin n) (args : AppendEntriesRequest C), e = .deliver i ∧
    s.net[i]? = some (.request id src p (.appendEntries args)) ∧
    (s.procs p).rf.currentTerm < args.term ∧ FailsCheck (s.procs p).rf args

def SavingStep (s t : Cluster n C) : Prop := ∃ e, s.step? e = some t ∧ ¬ RejectsHigherTerm s e

theorem SavingStep.step {s t : Cluster n C} (h : SavingStep s t) : RaftCluster.Step s t := by
  obtain ⟨e, he, -⟩ := h
  exact ⟨e, he⟩

theorem fresh_handle {pr : Process n C} (h : Fresh pr.rf) {req : Request C}
    (hcond : ∀ args, req = .appendEntries args →
      ¬ (pr.rf.currentTerm < args.term ∧ FailsCheck pr.rf args)) : Fresh (pr.handle req).1.rf := by
  cases req with
  | requestVote args => exact fresh_requestVote h args
  | appendEntries args => exact fresh_appendEntries h (hcond args rfl)
  | installSnapshot args => exact fresh_installSnapshotHandler h args

theorem fresh_of_change {s : Cluster n C} {e : Event n C} {p : Fin n} {rf : Raft n C}
    (h : Fresh (s.procs p).rf) (hcond : ¬ RejectsHigherTerm s e) (hchange : Change s e p rf) :
    Fresh rf := by
  cases hchange with
  | same => exact h
  | ticker hrole => exact fresh_persist _
  | @handle i id src req he hpkt =>
    refine fresh_handle h fun args hreq hrej => hcond ?_
    exact ⟨i, id, src, p, args, he, hreq ▸ hpkt, hrej⟩
  | vote call reply => exact fresh_voteReply h _ _ _
  | append he hpkt hcall hreq hrf => exact fresh_appendReply h hrf
  | install he hpkt hcall hreq => exact fresh_installReply h _ _ _ _
  | start command => exact fresh_start h command
  | snapshot hrf => exact fresh_snapshot h hrf
  | apply hresult => exact fresh_apply h hresult
  | boot ps => exact fresh_make p ps

/-- Every other step leaves all disks up to date. -/
theorem fresh_step {s t : Cluster n C} (h : ∀ p, Fresh (s.procs p).rf) (hstep : SavingStep s t)
    (p : Fin n) : Fresh (t.procs p).rf := by
  obtain ⟨e, he, hcond⟩ := hstep
  exact fresh_of_change (h p) hcond (step_change he p)

omit [Inhabited C] in
theorem currentTerm_castVote (rf : Raft n C) (args : RequestVoteArgs) (reply : RequestVoteReply) :
    (castVote rf args reply).1.currentTerm = rf.currentTerm ∧
      (castVote rf args reply).2.term = reply.term := by
  unfold castVote
  split_ifs <;> exact ⟨rfl, rfl⟩

/-- No reply announces more than the term its sender has in memory. -/
theorem announced_le {pr : Process n C} (h0 : 0 ≤ pr.rf.currentTerm) (req : Request C) :
    announced (pr.handle req).2 ≤ (pr.handle req).1.rf.currentTerm := by
  cases req with
  | requestVote args =>
    simp only [Process.handle, announced]
    rw [requestVote_eq]
    split_ifs with hstale hhigher
    · exact le_rfl
    · rw [(currentTerm_castVote _ _ _).1, (currentTerm_castVote _ _ _).2]
      exact hhigher.le
    · rw [(currentTerm_castVote _ _ _).1, (currentTerm_castVote _ _ _).2]
  | appendEntries args =>
    simp only [Process.handle, announced]
    rw [appendEntries_eq]
    split_ifs
    · exact le_rfl
    · unfold answerEntries
      dsimp only
      split_ifs <;> exact le_rfl
  | installSnapshot args =>
    simp only [Process.handle, announced]
    unfold installSnapshotHandler
    split_ifs with hstale hhigher
    · exact le_rfl
    · exact h0.trans hhigher.le
    · exact h0

/-- What is saved as the term never goes down. -/
theorem onDisk_term_mono {s t : Cluster n C} (h : RaftCluster.Reached s)
    (hst : ReflTransGen RaftCluster.Step s t) (p : Fin n) :
    (onDisk (s.procs p).rf.persister).currentTerm ≤
        (onDisk (t.procs p).rf.persister).currentTerm := by
  obtain ⟨a, b, ha, hb, hg⟩ := related_run h hst
  rw [(ha.proc p).peer.disk.term, (hb.proc p).peer.disk.term]
  exact hg.term p

/-- The disk is never stale: in every run that rejects no `AppendEntries` of a higher term,
what each peer saved last equals what it has in memory, and no restart goes back behind a
term that the peer has announced. -/
theorem persisted_never_stale {s : Cluster n C} (h : ReflTransGen SavingStep initial s) :
    (∀ p, Fresh (s.procs p).rf) ∧
    ∀ (i id : ℕ) (src p : Fin n) (req : Request C), s.net[i]? = some (.request id src p req) →
      ¬ RejectsHigherTerm s (.deliver i) → ∀ t, s.step? (.deliver i) = some t →
        ∀ u, ReflTransGen SavingStep t u →
          announced ((s.procs p).handle req).2 ≤ (make p (u.procs p).rf.persister).currentTerm := by
  have hfresh : ∀ p, Fresh (s.procs p).rf :=
    run_preserves (I := fun s : Cluster n C => ∀ p, Fresh (s.procs p).rf)
      (fun _ _ hs hst => fresh_step hs hst) (fun p => fresh_make p _) h
  refine ⟨hfresh, fun i id src p req hpkt hcond t ht u htu => ?_⟩
  have hreach : RaftCluster.Reached s :=
    reached_of_steps (ReflTransGen.mono (fun _ _ hst => hst.step) _ _ h)
  obtain ⟨a, -, ha⟩ := simulation.reachable hreach
  have h0 : 0 ≤ (s.procs p).rf.currentTerm :=
    (ha.reached.ledger.term_nonneg p).trans (ha.proc p).peer.term_le
  have hproc := Cluster.deliver_request hpkt ht
  have hdisk : (onDisk (t.procs p).rf.persister).currentTerm = (t.procs p).rf.currentTerm :=
    congrArg Saved.currentTerm (fresh_step hfresh ⟨_, ht, hcond⟩ p)
  calc announced ((s.procs p).handle req).2
      ≤ ((s.procs p).handle req).1.rf.currentTerm := announced_le h0 req
    _ = (onDisk (t.procs p).rf.persister).currentTerm := by rw [hdisk, hproc]
    _ ≤ (onDisk (u.procs p).rf.persister).currentTerm :=
      onDisk_term_mono (hreach.tail ⟨_, ht⟩) (ReflTransGen.mono (fun _ _ hst => hst.step) _ _ htu) p
    _ = (make p (u.procs p).rf.persister).currentTerm := by rw [make_eq]

/-- Peer 0 of three is elected, appends, crashes and is elected again; peer 2 has seen none
of it when the first heartbeat of term 2 is sent to it. -/
def rejectRun : List (Event 3 ℕ) :=
  [.ticker 0, .deliver 1, .deliver 0, .start 0 5, .crash 0, .ticker 0, .deliver 1, .deliver 0,
    .appendEntriesRoutine 0]

theorem persisted_never_stale_election : ∃ s : Cluster 2 ℕ, ReflTransGen SavingStep initial s ∧
    (s.procs 0).rf.currentTerm = 1 ∧ Fresh (s.procs 0).rf := by
  cases hs : (initial : Cluster 2 ℕ).step? (.ticker 0) with
  | none => exact absurd hs (by decide +kernel)
  | some s =>
    have htest : ((initial : Cluster 2 ℕ).step? (.ticker 0)).any
        (fun s => decide ((s.procs 0).rf.currentTerm = 1)) = true := by decide +kernel
    rw [hs] at htest
    have hsteps : ReflTransGen SavingStep initial s :=
      .single ⟨.ticker 0, hs, by rintro ⟨i, id, src, p, args, he, -⟩; cases he⟩
    exact ⟨s, hsteps, of_decide_eq_true htest, (persisted_never_stale hsteps).1 0⟩

/-- A peer that answers with term 2 has still term 0 on its disk, and restarts with it. -/
theorem announced_term_lost : ∃ s t u : Cluster 3 ℕ, RaftCluster.Reached s ∧
    s.net[0]? = some (.request 5 0 2 (.appendEntries ⟨2, 0, 1, 1, [], 0⟩)) ∧
    s.step? (.deliver 0) = some t ∧ t.step? (.crash 2) = some u ∧
    announced ((s.procs 2).handle (.appendEntries ⟨2, 0, 1, 1, [], 0⟩)).2 = 2 ∧
    ¬ Fresh (t.procs 2).rf ∧ (u.procs 2).rf.currentTerm = 0 := by
  obtain ⟨s, hs, htest⟩ := Cluster.exists_of_run
    (show ((initial : Cluster 3 ℕ).run rejectRun).any (fun s => decide
      (s.net[0]? = some (.request 5 0 2 (.appendEntries ⟨2, 0, 1, 1, [], 0⟩)) ∧
        announced ((s.procs 2).handle (.appendEntries ⟨2, 0, 1, 1, [], 0⟩)).2 = 2) &&
      (s.step? (.deliver 0)).any fun t => decide (¬ Fresh (t.procs 2).rf) &&
        (t.step? (.crash 2)).any fun u => decide ((u.procs 2).rf.currentTerm = 0)) = true by
      decide +kernel)
  obtain ⟨hleft, hrest⟩ := Bool.and_eq_true_iff.mp htest
  obtain ⟨hpkt, hann⟩ := of_decide_eq_true hleft
  cases ht : s.step? (.deliver 0) with
  | none =>
    rw [ht] at hrest
    cases hrest
  | some t =>
    rw [ht] at hrest
    obtain ⟨hstale, hrest⟩ := Bool.and_eq_true_iff.mp hrest
    exact ⟨s, t, _, reached_of_steps hs, hpkt, ht, rfl, hann, of_decide_eq_true hstale,
      of_decide_eq_true hrest⟩

end DistributedLabs.RaftPersistence
