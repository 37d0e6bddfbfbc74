import DistributedLabs.RaftVoteSteps

/-!
# Candidacies, counted votes and taking office

An election timeout is a candidacy of the protocol. A reply to a vote request makes the
candidate follow a higher term, or is counted; no peer is counted twice, because each has
at most one call of the election. A majority of counted votes is an election.
-/

namespace DistributedLabs.RaftRefinement

open RaftPeer RaftCluster RaftLogView TermLogProtocol TransitionRuns Relation MajorityQuorums

variable {n : ℕ} {C : Type*} [Inhabited C] {a b : Proto n C} {p : Fin n} {pr : Process n C}

/-- The peer's own candidacy, with the calls that ask the others for their votes. -/
theorem startElection_answers (hr : TermLogProtocol.Reached LogValue.term a) (h : ProcRel a p pr)
    {calls : List (Call n C)}
    (hcalls : ∀ call ∈ calls, call.savedTerm = pr.rf.currentTerm + 1 ∧
      call.req = .requestVote (startElection pr.rf).2 ∧ call.server ≠ p)
    (hdist : ∀ call ∈ calls, ∀ call' ∈ calls, call.server = call'.server → call.id = call'.id) :
    ∃ b, Answers p [] a b pr { pr with
        rf := (startElection pr.rf).1
        numVotes := Function.update pr.numVotes (pr.rf.currentTerm + 1) 1
        calls := calls ++ pr.calls } ∧
      ∀ q, RequestRel b p q (.requestVote (startElection pr.rf).2) := by
  have hT : a.term p < pr.rf.currentTerm + 1 := Int.lt_add_one_of_le h.peer.term_le
  have hstep : Step LogValue.term p a (a.campaign p (pr.rf.currentTerm + 1)) := .campaign hT
  have hg := hstep.grows hr.ledger
  have hterm : (a.campaign p (pr.rf.currentTerm + 1)).term p = pr.rf.currentTerm + 1 := by
    rw [campaign_term, if_pos rfl]
  have hmem : MemRel (a.campaign p (pr.rf.currentTerm + 1)) p { pr.rf with
      currentTerm := pr.rf.currentTerm + 1, votedFor := (pr.rf.me : ℕ),
      currentRole := .candidate } :=
    h.peer.toMemRel.transfer hg rfl (fun hrole => by cases hrole)
  have hpeer := hmem.persist hterm.symm
    (by rw [campaign_vote, if_pos rfl]; exact congrArg (fun q : Fin n => ((q : ℕ) : ℤ)) h.peer.me)
  have hold : ∀ call ∈ pr.calls, ¬ VoteCall call (pr.rf.currentTerm + 1) := by
    rintro call hcall ⟨hsaved, -⟩
    have := (h.calls call hcall).1
    omega
  have hnew : ∀ call ∈ calls ++ pr.calls, VoteCall call (pr.rf.currentTerm + 1) → call ∈ calls := by
    intro call hcall hvc
    exact (List.mem_append.mp hcall).resolve_right fun hin => hold call hin hvc
  refine ⟨_, Answers.saved h (Moves.single hstep rfl) ⟨hpeer, fun _ => ?_, ?_, ?_⟩ rfl, fun q => ?_⟩
  · refine ⟨hterm.symm, ?_, ⟨a.log p, ?_, Or.inl rfl⟩, ⟨{p}, ?_, ?_, ?_⟩, ?_⟩ <;> rw [hterm]
    · intro hlead
      have := hr.ledger.leader_le hlead
      omega
    · exact Or.inl rfl
    · simp
    · intro q hq
      rw [Finset.mem_singleton.mp hq]
      exact Or.inl rfl
    · intro call hcall hvc
      rw [Finset.mem_singleton]
      exact (hcalls call (hnew call hcall hvc)).2.2
    · intro call hcall call' hcall' hvc hvc'
      exact hdist call (hnew call hcall hvc) call' (hnew call' hcall' hvc')
  · exact ⟨(h.service.grows hg).delivered, (h.service.grows hg).pending⟩
  · intro call hcall
    rcases List.mem_append.mp hcall with hin | hin
    · obtain ⟨hsaved, hreq, -⟩ := hcalls call hin
      refine ⟨hsaved.le, ?_⟩
      rw [hreq]
      exact hsaved.symm
    · exact (h.calls call hin).grows hg (Int.le_add_one le_rfl) le_rfl
  · refine ⟨congrArg (fun q : Fin n => ((q : ℕ) : ℤ)) h.peer.me, a.log p, Or.inl rfl, ?_, ?_⟩
    · exact h.peer.view.lastLogIndex
    · exact h.peer.view.lastLogTerm

/-- A finished call is no longer waited for. -/
theorem ProcRel.finish (h : ProcRel a p pr) (id : ℕ) : ProcRel a p (pr.finish id) := by
  have hsub : ∀ call ∈ (pr.finish id).calls, call ∈ pr.calls :=
    fun call hcall => (List.mem_filter.mp hcall).1
  refine ⟨h.peer, fun hrole => ?_, ⟨h.service.delivered, h.service.pending⟩,
    fun call hcall => h.calls call (hsub call hcall)⟩
  obtain ⟨hterm, hne, hst, ⟨S, hS, hvotes, hfresh⟩, hdist⟩ := h.stands hrole
  exact ⟨hterm, hne, hst, ⟨S, hS, hvotes, fun call hcall => hfresh call (hsub call hcall)⟩,
    fun call hcall call' hcall' => hdist call (hsub call hcall) call' (hsub call' hcall')⟩

omit [Inhabited C] in
/-- The vote that a finished call brought is counted. -/
theorem CandidateRel.count (h : CandidateRel a p pr) {call : Call n C} (hcall : call ∈ pr.calls)
    (hvc : VoteCall call (a.term p)) {granted : Bool}
    (hvote : granted = true → (call.server, a.term p, p) ∈ a.votes) :
    CandidateRel a p { pr.finish call.id with
      numVotes := Function.update pr.numVotes (a.term p)
        (if granted then pr.numVotes (a.term p) + 1 else pr.numVotes (a.term p)) } := by
  obtain ⟨hterm, hne, hst, ⟨S, hS, hvotes, hfresh⟩, hdist⟩ := h
  have hsub : ∀ other ∈ (pr.finish call.id).calls, other ∈ pr.calls ∧ other.id ≠ call.id :=
    fun other hother =>
      ⟨(List.mem_filter.mp hother).1, by simpa using (List.mem_filter.mp hother).2⟩
  refine ⟨hterm, hne, hst, ?_,
    fun c hc c' hc' => hdist c (hsub c hc).1 c' (hsub c' hc').1⟩
  simp only [Function.update_self]
  cases granted with
  | false => exact ⟨S, hS, hvotes, fun other hother => hfresh other (hsub other hother).1⟩
  | true =>
    refine ⟨insert call.server S, ?_, ?_, ?_⟩
    · rw [Finset.card_insert_of_notMem (hfresh call hcall hvc), hS]
      rfl
    · intro q hq
      rcases Finset.mem_insert.mp hq with rfl | hq
      · exact hvote rfl
      · exact hvotes q hq
    · intro other hother hovc hin
      obtain ⟨hmem, hid⟩ := hsub other hother
      rcases Finset.mem_insert.mp hin with heq | hin
      · exact hid (hdist other hmem call hcall hovc hvc heq)
      · exact hfresh other hmem hovc hin

/-- A candidate that counts a majority of votes is elected in the protocol. -/
theorem becomeLeader_answers (hr : TermLogProtocol.Reached LogValue.term a) (h : ProcRel a p pr)
    (hrole : pr.rf.currentRole = .candidate) (hmaj : n / 2 + 1 ≤ pr.numVotes (a.term p)) :
    Answers p [] a (a.elect p) pr { pr with rf := pr.rf.becomeLeader } := by
  obtain ⟨hterm, hne, ⟨l, hl, hlog⟩, ⟨S, hS, hvotes, -⟩, -⟩ := h.stands hrole
  have hQ : Majority S := by
    rw [Majority, Fintype.card_fin, hS]
    exact hmaj
  have hnone : a.leader (a.term p) = none := by
    cases hlead : a.leader (a.term p) with
    | none => rfl
    | some d =>
      have := winner_unique hr.ledger hr.custody hQ hvotes hlead
      exact absurd (this ▸ hlead) hne
  rw [hnone] at hlog
  have hlog : a.log p = l := hlog.resolve_right (fun h => h rfl)
  have hstep : Step LogValue.term p a (a.elect p) := .elect (hlog ▸ hl) hnone hQ hvotes
  have hg := hstep.grows hr.ledger
  have hlen := h.peer.view.length
  have hnn := h.peer.view.nonneg
  have hvote : pr.rf.votedFor = voteCode (a.vote p) := by
    rcases h.peer.standing with ⟨-, hv⟩ | ⟨-, -, hf⟩
    · exact hv
    · rw [hrole] at hf
      cases hf
  have hleads : LeaderRel (a.elect p) p { pr.rf with
      currentRole := .leader
      matchIndex := fun i =>
        if i = pr.rf.me then pr.rf.lastIncludedIndex + pr.rf.log.length - 1 else 0
      nextIndex := fun _ => pr.rf.lastIncludedIndex + pr.rf.log.length } := by
    refine ⟨hterm, ?_, Or.inl rfl, fun q => ?_, fun q => ?_⟩
    · exact elect_leader.trans (if_pos rfl)
    · change 1 ≤ pr.rf.lastIncludedIndex + pr.rf.log.length ∧
        pr.rf.lastIncludedIndex + pr.rf.log.length ≤ ((a.log p).length : ℤ) + 1
      omega
    · simp only [h.peer.me]
      split_ifs with hq
      · subst hq
        exact Or.inr ⟨(a.log q).length, by omega, Or.inl rfl⟩
      · exact Or.inl hnn
  have hmem : MemRel (a.elect p) p { pr.rf with
      currentRole := .leader
      matchIndex := fun i =>
        if i = pr.rf.me then pr.rf.lastIncludedIndex + pr.rf.log.length - 1 else 0
      nextIndex := fun _ => pr.rf.lastIncludedIndex + pr.rf.log.length } :=
    { h.peer.toMemRel with chosen := Chosen.grows h.peer.chosen hg, leads := fun _ => hleads }
  exact Answers.saved h (Moves.single hstep rfl)
    (h.update hg (hmem.persist hterm hvote) (fun hrole => by cases hrole) le_rfl rfl le_rfl) rfl

/-- The goroutine of a vote request goes on with a reply, or with the zero reply. -/
theorem resumeVote_answers (hr : TermLogProtocol.Reached LogValue.term a) (h : ProcRel a p pr)
    {call : Call n C} {args : RequestVoteArgs} {reply : RequestVoteReply} (hcall : call ∈ pr.calls)
    (hreq : call.req = .requestVote args)
    (hvote : reply.voteGranted = true → (call.server, args.term, p) ∈ a.votes) :
    ∃ b, Answers p [] a b pr ((pr.finish call.id).resumeVote call reply) := by
  have hargs : args.term = call.savedTerm := by
    have := (h.calls call hcall).2
    rwa [hreq] at this
  have hfin := h.finish call.id
  have hsame : Answers p [] a a pr (pr.finish call.id) := Answers.idle h hfin rfl
  unfold Process.resumeVote voteReply
  by_cases hhigher : (pr.finish call.id).rf.currentTerm < reply.term
  · simp only [if_pos hhigher, Function.update_eq_self]
    exact ⟨_, hsame.trans (follow_answers hr hfin hhigher)⟩
  by_cases hchanged : (pr.finish call.id).rf.currentTerm ≠ call.savedTerm ∨
      (pr.finish call.id).rf.currentRole ≠ .candidate
  · simp only [if_neg hhigher, if_pos hchanged, Function.update_eq_self]
    exact ⟨a, hsame⟩
  simp only [if_neg hhigher, if_neg hchanged]
  obtain ⟨hcur, hrole⟩ := not_or.mp hchanged
  have hrole : pr.rf.currentRole = .candidate := not_not.mp hrole
  have hcand := h.stands hrole
  have hterm : call.savedTerm = a.term p := (not_not.mp hcur).symm.trans hcand.term
  have hcount := hcand.count hcall ⟨hterm, args, hreq⟩
    (fun hgr => by rw [← hterm, ← hargs]; exact hvote hgr)
  have hcounted : ProcRel a p { pr.finish call.id with
      numVotes := Function.update pr.numVotes (a.term p)
        (if reply.voteGranted then pr.numVotes (a.term p) + 1 else pr.numVotes (a.term p)) } :=
    ⟨h.peer, fun _ => hcount, ⟨h.service.delivered, h.service.pending⟩, hfin.calls⟩
  have hidle := Answers.idle h hcounted rfl
  rw [hterm]
  by_cases hmaj : n / 2 + 1 ≤ if reply.voteGranted then (pr.finish call.id).numVotes (a.term p) + 1
      else (pr.finish call.id).numVotes (a.term p)
  · simp only [if_pos hmaj]
    exact ⟨a.elect p, hidle.trans (becomeLeader_answers hr hcounted hrole
      (by simp only [Function.update_self]; exact hmaj))⟩
  · simp only [if_neg hmaj]
    exact ⟨a, hidle⟩

end DistributedLabs.RaftRefinement
