import DistributedLabs.RaftVoteSteps

/-!
# Received entries are replicated in the protocol

`AppendEntries` leaves the protocol alone on its reject paths, where it may raise the
peer's term in memory only. On its success path it replicates the leader's log up to the
last entry it was sent.
-/

namespace DistributedLabs.RaftRefinement

open RaftPeer RaftCluster RaftLogView TermLogProtocol TransitionRuns Relation LogPrefixes

variable {n : ℕ} {C : Type*} [Inhabited C] {a b : Proto n C} {p : Fin n} {pr : Process n C}
  {T : ℤ}

omit [Inhabited C] in
theorem observeTerm_currentTerm {rf : Raft n C} (hT : rf.currentTerm ≤ T) :
    (rf.observeTerm T).currentTerm = T := by
  unfold Raft.observeTerm
  split_ifs with h
  · rfl
  · omega

omit [Inhabited C] in
theorem observeTerm_log (rf : Raft n C) (T : ℤ) : (rf.observeTerm T).log = rf.log := by
  unfold Raft.observeTerm
  split_ifs <;> rfl

omit [Inhabited C] in
theorem observeTerm_lastIncludedIndex (rf : Raft n C) (T : ℤ) :
    (rf.observeTerm T).lastIncludedIndex = rf.lastIncludedIndex := by
  unfold Raft.observeTerm
  split_ifs <;> rfl

theorem observeTerm_rel (h : ProcRel a p pr) :
    ProcRel a p { pr with rf := pr.rf.observeTerm T } := by
  unfold Raft.observeTerm
  split_ifs with hT
  · exact observe_rel h hT
  · exact h

/-- A peer in term `T` has the vote that replication in term `T` leaves to it. -/
theorem PeerRel.replicate_vote {rf : Raft n C} (h : PeerRel a p rf) (hT : rf.currentTerm = T)
    (m : ℕ) : rf.votedFor = voteCode ((a.replicate p T m).vote p) := by
  rw [TermLogProtocol.replicate_vote, if_pos rfl]
  rcases h.standing with ⟨hterm, hvote⟩ | ⟨hterm, hvote, -⟩
  · rw [if_neg (by omega)]
    exact hvote
  · rw [if_pos (by omega)]
    exact hvote

/-- Only a leader of the term sends entries, so the receiver leads no term of theirs. -/
theorem PeerRel.not_leader {rf : Raft n C} {src : Fin n} (h : PeerRel a p rf)
    (hT : rf.currentTerm = T) (hne : src ≠ p) (hlead : a.leader T = some src) :
    rf.currentRole ≠ .leader := by
  intro hrole
  obtain ⟨hterm, helected, -⟩ := h.leads hrole
  rw [← hterm, hT, hlead] at helected
  exact hne (Option.some.inj helected)

omit [Inhabited C] in
theorem matches_leaderLog (hr : TermLogProtocol.Reached LogValue.term a) (p : Fin n) (T : ℤ) :
    Matches (a.log p) (a.leaderLog T) := by
  intro i v w hv hw hterm
  exact (hr.roots.log p).matching (hr.roots.leaderLog T) hv hw hterm

omit [Inhabited C] in
/-- What a peer counts as committed stays in place when it adopts from a leader. -/
theorem MemRel.take_adopt {rf : Raft n C} (h : MemRel a p rf)
    (hr : TermLogProtocol.Reached LogValue.term a) (hlead : a.leader T ≠ none)
    (hT : a.term p ≤ T) (m : ℕ) {k : ℤ} (hk : k ≤ rf.commitIndex) :
    (adopt (a.log p) ((a.leaderLog T).take m)).take k.toNat = (a.log p).take k.toNat := by
  have hle := h.commit_le
  have hpre := Chosen.prefix_adopt h.chosen hr.roots hr.custody (List.take_prefix _ _) hT hlead m
  have hkk : k.toNat ≤ rf.commitIndex.toNat := Int.toNat_le_toNat hk
  rw [← take_eq_take_of_initial hpre (by rw [List.length_take]; omega), List.take_take,
    Nat.min_eq_left hkk]

omit [Inhabited C] in
theorem MemRel.le_length_adopt {rf : Raft n C} (h : MemRel a p rf)
    (hr : TermLogProtocol.Reached LogValue.term a) (hlead : a.leader T ≠ none)
    (hT : a.term p ≤ T) (m : ℕ) :
    rf.commitIndex ≤ (adopt (a.log p) ((a.leaderLog T).take m)).length := by
  have hle := h.commit_le
  have hpre := Chosen.prefix_adopt h.chosen hr.roots hr.custody (List.take_prefix _ _) hT hlead m
  have := hpre.length_le
  rw [List.length_take] at this
  omega

omit [Inhabited C] in
/-- A candidate that takes entries from the leader of its term remains a candidate. -/
theorem CandidateRel.replicate (h : CandidateRel a p pr) (hT : a.term p = T)
    (hlead : a.leader T ≠ none) (m : ℕ) {rf : Raft n C} (hterm : rf.currentTerm = T) :
    CandidateRel (a.replicate p T m) p { pr with rf := rf } := by
  have hTb : (a.replicate p T m).term p = T := by rw [replicate_term, if_pos rfl]
  obtain ⟨-, hne, ⟨l, hl, -⟩, ⟨S, hS, hvotes, hfresh⟩, hdist⟩ := h
  rw [hT] at hne hl hS hvotes hfresh hdist
  refine ⟨hterm.trans hTb.symm, ?_, ⟨l, ?_, Or.inr ?_⟩, ⟨S, ?_, ?_, ?_⟩, ?_⟩ <;> rw [hTb]
  · exact hne
  · exact hl
  · exact hlead
  · exact hS
  · exact hvotes
  · exact hfresh
  · exact hdist

/-- The fields that the success path of `AppendEntries` sets before it saves. -/
def acceptEntries (rf : Raft n C) (args : AppendEntriesRequest C) : Raft n C :=
  let prevInd := rf.convertLogicalToPhysical args.prevLogIndex
  let rf := { rf with log := mergeEntries rf.log (prevInd.toNat + 1) args.entries }
  let lastNew := (rf.log.length : ℤ) - 1 + rf.lastIncludedIndex
  if rf.commitIndex < args.leaderCommit then
    { rf with commitIndex := min args.leaderCommit lastNew }
  else rf

omit [Inhabited C] in
/-- The check of `PrevLogIndex` and `PrevLogTerm` makes the logs agree up to there. -/
theorem agree_prev (hr : TermLogProtocol.Reached LogValue.term a) {rf : Raft n C}
    (h : MemRel a p rf) (hT : a.term p ≤ T) (hlead : a.leader T ≠ none) {prev : ℤ}
    {prevLogTerm : ℤ} (hle : prev ≤ (a.leaderLog T).length)
    (hprevTerm : 0 < prev → ∀ v, (a.leaderLog T)[(prev - 1).toNat]? = some v →
      v.term = prevLogTerm)
    (hlow : rf.lastIncludedIndex ≤ prev) (hhigh : prev - rf.lastIncludedIndex < rf.log.length)
    (hcheck : ¬ (0 < prev - rf.lastIncludedIndex ∧
      prevLogTerm ≠ rf.termAt (prev - rf.lastIncludedIndex))) :
    (a.log p).take prev.toNat = (a.leaderLog T).take prev.toNat := by
  have hnn := h.view.nonneg
  have hlen := h.view.length
  rcases lt_or_eq_of_le hlow with hlt | heq
  · obtain ⟨v, hv⟩ : ∃ v, (a.log p)[(prev - 1).toNat]? = some v :=
      ⟨_, List.getElem?_eq_getElem (by omega)⟩
    obtain ⟨w, hw⟩ : ∃ w, (a.leaderLog T)[(prev - 1).toNat]? = some w :=
      ⟨_, List.getElem?_eq_getElem (by omega)⟩
    have hvt : rf.termAt (prev - rf.lastIncludedIndex) = v.term := by
      have := h.view.term_at hlow (by omega) hv
      rw [Raft.termAt, this]
      rfl
    have hpt : prevLogTerm = v.term := by
      rw [← hvt]
      exact not_not.mp fun hne => hcheck ⟨by omega, hne⟩
    have := matches_leaderLog hr p T _ v w hv hw (hpt.symm.trans (hprevTerm (by omega) w hw).symm)
    rwa [show (prev - 1).toNat + 1 = prev.toNat by omega] at this
  · have hchosen := Chosen.initial h.chosen
      (take_prefix_take (Int.toNat_le_toNat (heq ▸ h.commit_ge)) : (a.log p).take prev.toNat <+: _)
    have hpre := Chosen.prefix_leaderLog hchosen hr.roots hr.custody hT hlead
    have hpl := List.prefix_iff_eq_take.mp hpre
    rwa [List.length_take, Nat.min_eq_left (by omega)] at hpl

/-- The success path of `AppendEntries` replicates the leader's log. -/
theorem acceptEntries_answers (hr : TermLogProtocol.Reached LogValue.term a) (h : ProcRel a p pr)
    {src : Fin n} {args : AppendEntriesRequest C} (hterm : pr.rf.currentTerm = args.term)
    (hreq : RequestRel a src p (.appendEntries args))
    (hlow : pr.rf.lastIncludedIndex ≤ args.prevLogIndex)
    (hhigh : args.prevLogIndex - pr.rf.lastIncludedIndex < pr.rf.log.length)
    (hcheck : ¬ (0 < args.prevLogIndex - pr.rf.lastIncludedIndex ∧
      args.prevLogTerm ≠ pr.rf.termAt (args.prevLogIndex - pr.rf.lastIncludedIndex))) :
    Answers p [] a (a.replicate p args.term (args.prevLogIndex + args.entries.length).toNat) pr
      { pr with rf := (acceptEntries pr.rf args).persist } := by
  obtain ⟨hne, hlead, hprev0, hprevle, hes, hprevTerm, hc0, hcle, hchosen⟩ := hreq
  have hlead' : a.leader args.term ≠ none := by
    rw [hlead]
    exact Option.some_ne_none src
  have hT : a.term p ≤ args.term := hterm ▸ h.peer.term_le
  have hmem := h.peer.toMemRel
  have hnn := hmem.view.nonneg
  have hlen := hmem.view.length
  have heslen := hes.length_le
  rw [List.length_drop] at heslen
  set m := (args.prevLogIndex + args.entries.length).toNat with hm
  have hagree := agree_prev hr hmem hT hlead' hprevle hprevTerm hlow hhigh hcheck
  have hview : Represents (adopt (a.log p) ((a.leaderLog args.term).take m))
      (mergeEntries pr.rf.log
        ((pr.rf.convertLogicalToPhysical args.prevLogIndex).toNat + 1) args.entries)
      pr.rf.lastIncludedIndex pr.rf.lastIncludedTerm := by
    have := hmem.view.merge (matches_leaderLog hr p args.term) args.entries
      (by omega) (by omega) hagree hes
    rwa [show args.prevLogIndex.toNat + args.entries.length = m by omega,
      show args.prevLogIndex.toNat - pr.rf.lastIncludedIndex.toNat =
        (pr.rf.convertLogicalToPhysical args.prevLogIndex).toNat by
          simp only [Raft.convertLogicalToPhysical]; omega] at this
  have hstep : Step LogValue.term p a (a.replicate p args.term m) :=
    .replicate hlead' hT (by omega)
  have hg := hstep.grows hr.ledger
  have hlog : (a.replicate p args.term m).log p =
      adopt (a.log p) ((a.leaderLog args.term).take m) := by rw [replicate_log, if_pos rfl]
  have hTb : (a.replicate p args.term m).term p = args.term := by rw [replicate_term, if_pos rfl]
  have hadopt : (a.leaderLog args.term).take m <+:
      adopt (a.log p) ((a.leaderLog args.term).take m) := prefix_adopt _ _
  have hadoptlen := hadopt.length_le
  rw [List.length_take, Nat.min_eq_left (by omega)] at hadoptlen
  have hnot := h.peer.not_leader hterm hne hlead
  have hcommit : pr.rf.commitIndex ≤ (acceptEntries pr.rf args).commitIndex ∧
      ((acceptEntries pr.rf args).commitIndex = pr.rf.commitIndex ∨
        (acceptEntries pr.rf args).commitIndex = args.leaderCommit) := by
    have := hview.length
    unfold acceptEntries
    simp only
    split_ifs with hlt
    · simp only
      omega
    · exact ⟨le_rfl, Or.inl rfl⟩
  have hfields : (acceptEntries pr.rf args) = { pr.rf with
      log := mergeEntries pr.rf.log
        ((pr.rf.convertLogicalToPhysical args.prevLogIndex).toNat + 1) args.entries
      commitIndex := (acceptEntries pr.rf args).commitIndex } := by
    unfold acceptEntries
    simp only
    split_ifs <;> rfl
  generalize (acceptEntries pr.rf args).commitIndex = c at hcommit hfields
  rw [hfields]
  have hcle' : c ≤ (adopt (a.log p) ((a.leaderLog args.term).take m)).length := by
    rcases hcommit.2 with rfl | rfl
    · exact hmem.le_length_adopt hr hlead' hT m
    · omega
  have hmem' : MemRel (a.replicate p args.term m) p { pr.rf with
      log := mergeEntries pr.rf.log
        ((pr.rf.convertLogicalToPhysical args.prevLogIndex).toNat + 1) args.entries
      commitIndex := c } := {
    me := hmem.me
    view := hlog ▸ hview
    snapshot := by
      rw [hlog, hmem.take_adopt hr hlead' hT m hmem.commit_ge]
      exact hmem.snapshot
    commit_ge := hmem.commit_ge.trans hcommit.1
    commit_le := hlog ▸ hcle'
    chosen := by
      rw [hlog, hTb]
      rcases hcommit.2 with hc | hc <;> simp only [hc]
      · rw [hmem.take_adopt hr hlead' hT m le_rfl]
        exact (Chosen.grows hmem.chosen hg).mono hT
      · rw [← take_eq_take_of_initial hadopt (by rw [List.length_take]; omega), List.take_take,
          Nat.min_eq_left (by omega)]
        exact Chosen.grows hchosen hg
    applied_nonneg := hmem.applied_nonneg
    applied_le := hmem.applied_le.trans hcommit.1
    leads := fun hrole => absurd hrole hnot }
  refine Answers.saved h (Moves.single hstep rfl) (h.update hg
    (hmem'.persist (hterm.trans hTb.symm) (h.peer.replicate_vote hterm m)) ?_ le_rfl rfl le_rfl) rfl
  intro hrole
  have hcand := h.stands hrole
  exact hcand.replicate (hcand.term.symm.trans hterm) hlead' m hterm

omit [Inhabited C] in
/-- The first entry of a term that some entry above the dummy has is not behind that entry. -/
theorem getTermFirstEntry_le {rf : Raft n C} {i : ℕ} {v : LogValue C}
    (hv : rf.log[i + 1]? = some v) : rf.lastIncludedIndex < rf.getTermFirstEntry v.term ∧
      rf.getTermFirstEntry v.term ≤ rf.lastIncludedIndex + (i + 1) := by
  have hdrop : (rf.log.drop 1)[i]? = some v := by
    rw [List.getElem?_drop, Nat.add_comm]
    exact hv
  obtain ⟨hi, hval⟩ := List.getElem?_eq_some_iff.mp hdrop
  unfold Raft.getTermFirstEntry
  cases hfind : (rf.log.drop 1).findIdx? (fun w => w.term == v.term) with
  | none =>
    rw [List.findIdx?_eq_none_iff] at hfind
    have := hfind v (List.mem_of_getElem? hdrop)
    simp at this
  | some k =>
    obtain ⟨hk, -, hmin⟩ := List.findIdx?_eq_some_iff_getElem.mp hfind
    have hki : k ≤ i := by
      by_contra hlt
      have := hmin i (by omega)
      rw [hval] at this
      simp at this
    simp only
    omega

omit [Inhabited C] in
/-- What the rejections of `AppendEntries` in the receiver's term tell the leader. -/
theorem reject_reply (hr : TermLogProtocol.Reached LogValue.term a) {rf : Raft n C}
    (h : MemRel a p rf) (prev : ℤ) :
    ((rf.log.length : ℤ) ≤ prev - rf.lastIncludedIndex →
      1 ≤ rf.log.length + rf.lastIncludedIndex ∧ rf.log.length + rf.lastIncludedIndex ≤ prev) ∧
    (prev - rf.lastIncludedIndex < rf.log.length → 0 < prev - rf.lastIncludedIndex →
      rf.termAt (prev - rf.lastIncludedIndex) ≠ -1 ∧
      0 ≤ rf.getTermFirstEntry (rf.termAt (prev - rf.lastIncludedIndex)) ∧
      rf.getTermFirstEntry (rf.termAt (prev - rf.lastIncludedIndex)) ≤ prev) := by
  have hnn := h.view.nonneg
  have hlen := h.view.length
  refine ⟨fun hlong => by omega, fun hshort hpos => ?_⟩
  obtain ⟨i, hi⟩ : ∃ i : ℕ, (prev - rf.lastIncludedIndex).toNat = i + 1 :=
    ⟨(prev - rf.lastIncludedIndex).toNat - 1, by omega⟩
  obtain ⟨v, hv⟩ : ∃ v, rf.log[i + 1]? = some v := ⟨_, List.getElem?_eq_getElem (by omega)⟩
  have hterm : rf.termAt (prev - rf.lastIncludedIndex) = v.term := by
    rw [Raft.termAt, hi, hv]
    rfl
  have hfirst := getTermFirstEntry_le hv
  have hvpos : 0 < v.term := by
    rw [h.view.getElem?_succ] at hv
    exact hr.ledger.leader_pos (hr.roots.log p _ v hv).1
  rw [hterm]
  omega

/-- `AppendEntries` once the peer is in the term of the request. -/
def answerEntries (rf : Raft n C) (args : AppendEntriesRequest C) :
    Raft n C × AppendEntriesResponse :=
  let prevInd := rf.convertLogicalToPhysical args.prevLogIndex
  if args.prevLogIndex < rf.lastIncludedIndex then (rf, { term := rf.currentTerm })
  else if (rf.log.length : ℤ) ≤ prevInd then
    (rf, {
      term := rf.currentTerm
      xTerm := -1
      xIndex := -1
      xLen := rf.log.length + rf.lastIncludedIndex })
  else if 0 < prevInd ∧ args.prevLogTerm ≠ rf.termAt prevInd then
    (rf, {
      term := rf.currentTerm
      xTerm := rf.termAt prevInd
      xIndex := rf.getTermFirstEntry (rf.termAt prevInd)
      xLen := rf.log.length + rf.lastIncludedIndex })
  else ((acceptEntries rf args).persist,
    { term := (acceptEntries rf args).currentTerm, success := true })

omit [Inhabited C] in
theorem appendEntries_eq (rf : Raft n C) (args : AppendEntriesRequest C) :
    appendEntries rf args = if args.term < rf.currentTerm then (rf, { term := rf.currentTerm })
      else answerEntries (rf.observeTerm args.term) args := by
  unfold appendEntries Raft.observeTerm
  split_ifs <;> rfl

omit [Inhabited C] in
/-- Answering entries changes no more than the log and the commit index. -/
theorem answerEntries_standing (rf : Raft n C) (args : AppendEntriesRequest C) :
    (answerEntries rf args).2.term = rf.currentTerm ∧
      (answerEntries rf args).1.currentTerm = rf.currentTerm ∧
      (answerEntries rf args).1.currentRole = rf.currentRole ∧
      (answerEntries rf args).1.matchIndex = rf.matchIndex ∧
      (answerEntries rf args).1.nextIndex = rf.nextIndex ∧
      (answerEntries rf args).1.lastIncludedIndex = rf.lastIncludedIndex := by
  unfold answerEntries acceptEntries
  dsimp only
  split_ifs <;> exact ⟨rfl, rfl, rfl, rfl, rfl, rfl⟩

/-- In the term of the request, entries are replicated or the protocol is left alone. -/
theorem answerEntries_answers (hr : TermLogProtocol.Reached LogValue.term a) (h : ProcRel a p pr)
    {src : Fin n} {args : AppendEntriesRequest C} (hterm : pr.rf.currentTerm = args.term)
    (hreq : RequestRel a src p (.appendEntries args)) :
    ∃ b, Answers p [] a b pr { pr with rf := (answerEntries pr.rf args).1 } ∧
      ∀ id saved, ReplyRel b src ⟨id, p, saved, .appendEntries args⟩
        (.appendEntries (answerEntries pr.rf args).2) := by
  have hidle := Answers.idle h h rfl
  obtain ⟨hlong, hconflict⟩ := reject_reply hr h.peer.toMemRel args.prevLogIndex
  unfold answerEntries Raft.convertLogicalToPhysical
  dsimp only
  by_cases hlow : args.prevLogIndex < pr.rf.lastIncludedIndex
  · simp only [if_pos hlow]
    exact ⟨a, hidle, fun _ _ => ⟨by simp, by simp, fun _ _ => ⟨le_rfl, hreq.2.2.1⟩⟩⟩
  by_cases hhigh : (pr.rf.log.length : ℤ) ≤ args.prevLogIndex - pr.rf.lastIncludedIndex
  · simp only [if_neg hlow, if_pos hhigh]
    exact ⟨a, hidle, fun _ _ => ⟨by simp, fun _ _ => hlong hhigh, fun _ hx => absurd rfl hx⟩⟩
  by_cases hcheck : 0 < args.prevLogIndex - pr.rf.lastIncludedIndex ∧
      args.prevLogTerm ≠ pr.rf.termAt (args.prevLogIndex - pr.rf.lastIncludedIndex)
  · simp only [if_neg hlow, if_neg hhigh, if_pos hcheck]
    obtain ⟨hx, hbounds⟩ := hconflict (not_le.mp hhigh) hcheck.1
    exact ⟨a, hidle, fun _ _ => ⟨by simp, fun _ hx' => absurd hx' hx, fun _ _ => hbounds⟩⟩
  · simp only [if_neg hlow, if_neg hhigh, if_neg hcheck]
    have haccept := acceptEntries_answers hr h hterm hreq (not_lt.mp hlow) (not_le.mp hhigh) hcheck
    exact ⟨_, haccept, fun _ _ => ⟨fun _ => Or.inl rfl, by simp, by simp⟩⟩

/-- `AppendEntries` replicates entries or leaves the protocol alone. -/
theorem appendEntries_answers (hr : TermLogProtocol.Reached LogValue.term a) (h : ProcRel a p pr)
    {src : Fin n} {args : AppendEntriesRequest C}
    (hreq : RequestRel a src p (.appendEntries args)) :
    ∃ b, Answers p [] a b pr { pr with rf := (appendEntries pr.rf args).1 } ∧
      ∀ id saved, ReplyRel b src ⟨id, p, saved, .appendEntries args⟩
        (.appendEntries (appendEntries pr.rf args).2) := by
  rw [appendEntries_eq]
  split_ifs with hstale
  · exact ⟨a, Answers.idle h h rfl,
      fun _ _ => ⟨by simp, by simp, fun _ _ => ⟨le_rfl, hreq.2.2.1⟩⟩⟩
  · have hobs : ProcRel a p { pr with rf := pr.rf.observeTerm args.term } := observeTerm_rel h
    have hps : (pr.rf.observeTerm args.term).persister = pr.rf.persister := by
      unfold Raft.observeTerm
      split_ifs <;> rfl
    obtain ⟨b, hb, hrep⟩ :=
      answerEntries_answers hr hobs (observeTerm_currentTerm (not_lt.mp hstale)) hreq
    exact ⟨b, (Answers.idle h hobs hps).trans hb, hrep⟩

end DistributedLabs.RaftRefinement
