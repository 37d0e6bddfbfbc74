import DistributedLabs.RaftRefinementFrame

/-!
# Elections are answered by the protocol

Following a higher term, voting, standing for election, counting votes and taking
office, each with the durable state after each of its saves.
-/

namespace DistributedLabs.RaftRefinement

open RaftPeer RaftCluster RaftLogView TermLogProtocol TransitionRuns Relation MajorityQuorums

variable {n : ℕ} {C : Type*} [Inhabited C] {a b : Proto n C} {p : Fin n} {pr : Process n C}

omit [Inhabited C] in
theorem voteCode_injective : Function.Injective (voteCode (n := n)) := by
  intro x y h
  cases x with
  | none => cases y with
    | none => rfl
    | some d =>
      simp only [voteCode] at h
      omega
  | some c => cases y with
    | none =>
      simp only [voteCode] at h
      omega
    | some d =>
      simp only [voteCode, Nat.cast_inj] at h
      exact congrArg some (Fin.ext h)

omit [Inhabited C] in
/-- Changes of the term, the vote and the role leave the log part of a peer alone. -/
theorem MemRel.transfer {rf : Raft n C} (h : MemRel a p rf) (hg : Grows a b)
    (hlog : b.log p = a.log p) {T v : ℤ} {role : Role}
    (hleads : role = .leader →
      LeaderRel b p { rf with currentTerm := T, votedFor := v, currentRole := role }) :
    MemRel b p { rf with currentTerm := T, votedFor := v, currentRole := role } where
  me := h.me
  view := hlog ▸ h.view
  snapshot := hlog ▸ h.snapshot
  commit_ge := h.commit_ge
  commit_le := hlog ▸ h.commit_le
  chosen := by
    rw [hlog]
    exact Chosen.mono (Chosen.grows h.chosen hg) (hg.term p)
  applied_nonneg := h.applied_nonneg
  applied_le := h.applied_le
  leads := hleads

/-- A peer follows a term above its own, and saves it. -/
theorem follow_answers (hr : TermLogProtocol.Reached LogValue.term a) (h : ProcRel a p pr) {T : ℤ}
    (hT : pr.rf.currentTerm < T) :
    Answers p [] a (a.advance p T) pr { pr with
      rf := Raft.persist
        { pr.rf with currentTerm := T, votedFor := -1, currentRole := .follower } } := by
  have hstep : Step LogValue.term p a (a.advance p T) :=
    .advance (lt_of_le_of_lt h.peer.term_le hT)
  have hg := hstep.grows hr.ledger
  have hmem : MemRel (a.advance p T) p
      { pr.rf with currentTerm := T, votedFor := -1, currentRole := .follower } :=
    h.peer.toMemRel.transfer hg rfl (fun hrole => by cases hrole)
  have hpeer := hmem.persist (by rw [advance_term, if_pos rfl])
    (by rw [advance_vote, if_pos rfl]; rfl)
  exact Answers.saved h (Moves.single hstep rfl)
    (h.update hg hpeer (fun hrole => by cases hrole) hT.le rfl le_rfl) rfl

/-- A peer follows a term above its own without saving it. -/
theorem observe_rel (h : ProcRel a p pr) {T : ℤ} (hT : pr.rf.currentTerm < T) :
    ProcRel a p { pr with
      rf := { pr.rf with currentTerm := T, votedFor := -1, currentRole := .follower } } := by
  have hmem :
      MemRel a p { pr.rf with currentTerm := T, votedFor := -1, currentRole := .follower } :=
    h.peer.toMemRel.transfer (Grows.refl a) rfl (fun hrole => by cases hrole)
  refine h.update (Grows.refl a) ⟨hmem, h.peer.disk, Or.inr ⟨?_, rfl, rfl⟩⟩
    (fun hrole => by cases hrole) hT.le rfl le_rfl
  exact lt_of_le_of_lt h.peer.term_le hT

/-- The protocol can always be moved to the peer's own term. -/
theorem settle (hr : TermLogProtocol.Reached LogValue.term a) (h : ProcRel a p pr) :
    ∃ b, Moves p [] a b ∧ MemRel b p pr.rf ∧ b.term p = pr.rf.currentTerm ∧
      pr.rf.votedFor = voteCode (b.vote p) ∧
      (pr.rf.currentRole = .candidate → CandidateRel b p pr) := by
  rcases h.peer.standing with ⟨hterm, hvote⟩ | ⟨hterm, hvote, hrole⟩
  · exact ⟨a, Moves.refl, h.peer.toMemRel, hterm.symm, hvote, h.stands⟩
  · have hstep : Step LogValue.term p a (a.advance p pr.rf.currentTerm) := .advance hterm
    refine ⟨_, Moves.single hstep rfl, ?_, ?_, ?_, ?_⟩
    · exact h.peer.toMemRel.transfer (hstep.grows hr.ledger) rfl
        (fun hlead => by rw [hrole] at hlead; cases hlead)
    · rw [advance_term, if_pos rfl]
    · rw [advance_vote, if_pos rfl]
      exact hvote
    · intro hcand
      rw [hrole] at hcand
      cases hcand

/-- `RequestVote` from the check of `votedFor` on. -/
def castVote (rf : Raft n C) (args : RequestVoteArgs) (reply : RequestVoteReply) :
    Raft n C × RequestVoteReply :=
  if rf.votedFor ≠ -1 ∧ rf.votedFor ≠ args.candidateId then (rf, reply)
  else if args.lastLogTerm < rf.lastLogTerm then (rf, reply)
  else if args.lastLogTerm = rf.lastLogTerm ∧ args.lastLogIndex < rf.lastLogIndex then (rf, reply)
  else
    (Raft.persist { rf with votedFor := args.candidateId, currentRole := .follower },
      { reply with voteGranted := true })

omit [Inhabited C] in
theorem requestVote_eq (rf : Raft n C) (args : RequestVoteArgs) : requestVote rf args =
    if args.term < rf.currentTerm then (rf, { term := rf.currentTerm })
    else if rf.currentTerm < args.term then
      castVote (Raft.persist { rf with
        currentTerm := args.term, votedFor := -1, currentRole := .follower }) args
        { term := rf.currentTerm }
    else castVote rf args { term := rf.currentTerm } := by
  unfold requestVote
  split_ifs <;> rfl

/-- A vote is granted only to an up-to-date candidate of the voter's term. -/
theorem castVote_answers (hr : TermLogProtocol.Reached LogValue.term a) (h : ProcRel a p pr)
    {src : Fin n} {args : RequestVoteArgs} (reply : RequestVoteReply)
    (hreq : RequestRel a src p (.requestVote args)) (hterm : pr.rf.currentTerm = args.term)
    (hreply : reply.voteGranted = false) :
    ∃ b, Answers p [] a b pr { pr with rf := (castVote pr.rf args reply).1 } ∧
      ((castVote pr.rf args reply).2.voteGranted = true → (p, args.term, src) ∈ b.votes) := by
  have hdeny : ∃ b, Answers p [] a b pr pr ∧
      (reply.voteGranted = true → (p, args.term, src) ∈ b.votes) :=
    ⟨a, Answers.idle h h rfl, fun hgr => by rw [hreply] at hgr; cases hgr⟩
  unfold castVote
  split_ifs with hvoted hold hshort
  · exact hdeny
  · exact hdeny
  · exact hdeny
  obtain ⟨c, hac, hmem, hcterm, hcvote, -⟩ := settle hr h
  obtain ⟨hid, l, hl, hindex, hlast⟩ := hreq.grows (hac.grows hr)
  have hview := hmem.view
  rw [hview.lastLogTerm, hlast] at hold hshort
  rw [hview.lastLogIndex, hindex] at hshort
  have hup : UpToDate LogValue.term l (c.log p) := by
    rw [UpToDate]
    rcases lt_or_eq_of_le (not_lt.mp hold) with hlt | heq
    · exact Or.inl hlt
    · have := not_and.mp hshort heq.symm
      exact Or.inr ⟨heq, by omega⟩
  have hfree : c.vote p = none ∨ c.vote p = some src := by
    by_cases hnone : pr.rf.votedFor = -1
    · exact Or.inl (voteCode_injective (hcvote.symm.trans hnone))
    · have := (not_and_not_right.mp hvoted) hnone
      exact Or.inr (voteCode_injective (hcvote.symm.trans (this.trans hid)))
  have hcand : (c.term p, src, l) ∈ c.candidacies := by
    rw [hcterm, hterm]
    exact hl
  have hstep : Step LogValue.term p c (c.grant p src) := .grant hfree hcand hup
  have hmoves : Moves p [] a (c.grant p src) := hac.trans (Moves.single hstep rfl)
  have hg := hmoves.grows hr
  have hmem' : MemRel (c.grant p src) p
      { pr.rf with
        currentTerm := pr.rf.currentTerm, votedFor := args.candidateId,
        currentRole := .follower } :=
    hmem.transfer (hstep.grows (hac.reached hr).ledger) rfl (fun hrole => by cases hrole)
  have hpeer := hmem'.persist hcterm.symm (by rw [grant_vote, if_pos rfl]; exact hid)
  refine ⟨c.grant p src, Answers.saved h hmoves
    (h.update hg hpeer (fun hrole => by cases hrole) le_rfl rfl le_rfl) rfl, fun _ => ?_⟩
  exact Or.inl (by rw [hcterm, hterm])

/-- `RequestVote` is answered by a change of term, a vote, both, or nothing. -/
theorem requestVote_answers (hr : TermLogProtocol.Reached LogValue.term a) (h : ProcRel a p pr)
    {src : Fin n} {args : RequestVoteArgs} (hreq : RequestRel a src p (.requestVote args)) :
    ∃ b, Answers p [] a b pr { pr with rf := (requestVote pr.rf args).1 } ∧
      ((requestVote pr.rf args).2.voteGranted = true → (p, args.term, src) ∈ b.votes) := by
  rw [requestVote_eq]
  split_ifs with hstale hhigher
  · exact ⟨a, Answers.idle h h rfl, fun hgr => by cases hgr⟩
  · have hfollow := follow_answers hr h hhigher
    obtain ⟨b, hb, hgr⟩ := castVote_answers (hfollow.moves.reached hr) hfollow.proc
      { term := pr.rf.currentTerm } (hreq.grows (hfollow.moves.grows hr)) rfl rfl
    exact ⟨b, hfollow.trans hb, hgr⟩
  · exact castVote_answers hr h _ hreq (by omega) rfl

end DistributedLabs.RaftRefinement
