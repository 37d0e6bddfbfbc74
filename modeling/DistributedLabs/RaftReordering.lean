import DistributedLabs.RaftPersistence
import Mathlib.Data.List.MinMax

/-!
# Requests of one leader in any order

All entries that the leader of a term sends come from one log that only grows. So a follower
that accepts several of its requests has adopted the longest of the prefixes that they reach,
and its commit index is the largest that they announce, whatever their order and however often
one of them is repeated.
-/

namespace DistributedLabs.RaftReordering

open RaftPeer RaftCluster RaftRefinement RaftLogView RaftSafety RaftPersistence TermLogProtocol
  TransitionRuns Relation LogPrefixes

variable {n : ℕ} {C : Type*}

section Sequences

/-- The peer after it has handled the requests one after the other. -/
def appendAll (rf : Raft n C) : List (AppendEntriesRequest C) → Raft n C
  | [] => rf
  | m :: ms => appendAll (appendEntries rf m).1 ms

/-- Each of the requests is answered with success when its turn comes. -/
def AllAccepted (rf : Raft n C) : List (AppendEntriesRequest C) → Prop
  | [] => True
  | m :: ms => (appendEntries rf m).2.success = true ∧ AllAccepted (appendEntries rf m).1 ms

instance decidableAllAccepted (rf : Raft n C) :
    (ms : List (AppendEntriesRequest C)) → Decidable (AllAccepted rf ms)
  | [] => isTrue trivial
  | m :: ms =>
    have := decidableAllAccepted (appendEntries rf m).1 ms
    inferInstanceAs (Decidable (_ ∧ _))

def lastNew (m : AppendEntriesRequest C) : ℤ := m.prevLogIndex + m.entries.length

def reach (ms : List (AppendEntriesRequest C)) : ℕ :=
  (ms.map fun m => (lastNew m).toNat).foldr max 0

/-- The largest commit index in the requests. -/
def announced (ms : List (AppendEntriesRequest C)) : ℤ :=
  (ms.map fun m => m.leaderCommit).foldr max 0

def SameLog (rf rf' : Raft n C) : Prop := rf'.log = rf.log ∧ rf'.commitIndex = rf.commitIndex

variable {rf : Raft n C} {m : AppendEntriesRequest C} {ms : List (AppendEntriesRequest C)}

theorem appendAll_concat (rf : Raft n C) (ms : List (AppendEntriesRequest C))
    (m : AppendEntriesRequest C) :
    appendAll rf (ms ++ [m]) = (appendEntries (appendAll rf ms) m).1 := by
  induction ms generalizing rf with
  | nil => rfl
  | cons m' ms ih => exact ih (appendEntries rf m').1

theorem allAccepted_concat : AllAccepted rf (ms ++ [m]) ↔
    AllAccepted rf ms ∧ (appendEntries (appendAll rf ms) m).2.success = true := by
  induction ms generalizing rf with
  | nil => exact and_comm
  | cons m' ms ih =>
    simp only [List.cons_append, AllAccepted, appendAll, ih, and_assoc]

theorem foldr_max_concat {α : Type*} [LinearOrder α] (l : List α) (a x : α) :
    (l ++ [x]).foldr max a = max (l.foldr max a) x := by
  induction l with
  | nil => exact max_comm x a
  | cons y l ih => rw [List.cons_append, List.foldr_cons, ih, List.foldr_cons, max_assoc]

theorem reach_concat (ms : List (AppendEntriesRequest C)) (m : AppendEntriesRequest C) :
    reach (ms ++ [m]) = max (reach ms) (lastNew m).toNat := by
  rw [reach, List.map_append, List.map_singleton, foldr_max_concat]
  rfl

theorem announced_concat (ms : List (AppendEntriesRequest C)) (m : AppendEntriesRequest C) :
    announced (ms ++ [m]) = max (announced ms) m.leaderCommit := by
  rw [announced, List.map_append, List.map_singleton, foldr_max_concat]
  rfl

theorem le_reach (h : m ∈ ms) : (lastNew m).toNat ≤ reach ms :=
  List.le_max_of_le' 0 (List.mem_map_of_mem h) le_rfl

theorem le_announced (h : m ∈ ms) : m.leaderCommit ≤ announced ms :=
  List.le_max_of_le' 0 (List.mem_map_of_mem h) le_rfl

/-- A peer in the term of the request that rejects it stays as it is. -/
theorem appendEntries_eq_self (hterm : rf.currentTerm = m.term)
    (hfail : (appendEntries rf m).2.success ≠ true) : (appendEntries rf m).1 = rf := by
  have hobserve : rf.observeTerm m.term = rf := by
    rw [Raft.observeTerm, if_neg (not_lt.mpr hterm.ge)]
  rw [appendEntries_eq, if_neg (not_lt.mpr hterm.le), hobserve] at hfail ⊢
  rcases answerEntries_cases rf m with ⟨-, heq, -⟩ | ⟨-, -, hsucc⟩
  · exact heq
  · exact absurd hsucc hfail

theorem mergeEntries_head (log : List (LogValue C)) (i : ℕ) (es : List (LogValue C))
    (hlog : log ≠ []) : (mergeEntries log (i + 1) es).take 1 = log.take 1 := by
  induction es generalizing i with
  | nil => rfl
  | cons e rest ih =>
    obtain ⟨v, log, rfl⟩ := List.exists_cons_of_ne_nil hlog
    rw [mergeEntries]
    cases (v :: log)[i + 1]? with
    | none => rfl
    | some w =>
      by_cases hterm : e.term = w.term
      · simp only [ne_eq, hterm, not_true_eq_false, if_false]
        exact ih (i + 1)
      · simp [hterm]

end Sequences

section Followers

variable [Inhabited C] {a : Proto n C} {p src : Fin n} {pr : Process n C}
  {m : AppendEntriesRequest C} {ms : List (AppendEntriesRequest C)} {T : ℤ}

/-- An accepted request of the leader is replicated up to its last entry, and the commit index
follows the leader's. -/
theorem accepted_rel (hr : TermLogProtocol.Reached LogValue.term a) (h : ProcRel a p pr)
    (hterm : pr.rf.currentTerm = m.term) (hreq : RequestRel a src p (.appendEntries m))
    (hsucc : (appendEntries pr.rf m).2.success = true) :
    Moves p [] a (a.replicate p m.term (lastNew m).toNat) ∧
      ProcRel (a.replicate p m.term (lastNew m).toNat) p
        { pr with rf := (appendEntries pr.rf m).1 } ∧
      (appendEntries pr.rf m).1.currentTerm = pr.rf.currentTerm ∧
      (appendEntries pr.rf m).1.lastIncludedIndex = pr.rf.lastIncludedIndex ∧
      (appendEntries pr.rf m).1.log.take 1 = pr.rf.log.take 1 ∧
      (appendEntries pr.rf m).1.commitIndex = max pr.rf.commitIndex m.leaderCommit := by
  have hobserve : pr.rf.observeTerm m.term = pr.rf := by
    rw [Raft.observeTerm, if_neg (not_lt.mpr hterm.ge)]
  obtain ⟨-, hcheck⟩ := appendEntries_success_iff.mp hsucc
  rw [FailsCheck, not_or, not_or, Raft.convertLogicalToPhysical] at hcheck
  obtain ⟨hlow, hhigh, hcheck⟩ := hcheck
  have heq := appendEntries_of_success hsucc
  rw [hobserve] at heq
  have hanswers := acceptEntries_answers hr h hterm hreq (not_lt.mp hlow) (not_le.mp hhigh) hcheck
  rw [← heq] at hanswers
  change Answers p [] a (a.replicate p m.term (lastNew m).toNat) pr _ at hanswers
  refine ⟨hanswers.moves, hanswers.proc, ?_⟩
  have hlen : m.leaderCommit ≤
      ((appendEntries pr.rf m).1.log.length : ℤ) - 1 +
          (appendEntries pr.rf m).1.lastIncludedIndex := by
    have hview := hanswers.proc.peer.view.length
    have hpre := (prefix_adopt (a.log p) ((a.leaderLog m.term).take (lastNew m).toNat)).length_le
    have hends := hreq.2.2.2.2.1.length_le
    have hcommit : m.leaderCommit ≤ lastNew m := hreq.2.2.2.2.2.2.2.1
    have hprev := hreq.2.2.1
    have hprev' := hreq.2.2.2.1
    have hlog : (a.replicate p m.term (lastNew m).toNat).log p =
        adopt (a.log p) ((a.leaderLog m.term).take (lastNew m).toNat) := by
      rw [replicate_log, if_pos rfl]
    rw [List.length_take] at hpre
    rw [List.length_drop] at hends
    rw [hlog] at hview
    dsimp only at hview
    unfold lastNew at hview hpre hcommit
    omega
  have hne : pr.rf.log ≠ [] := by
    obtain ⟨v, hv, -⟩ := h.peer.view.split
    rw [hv]
    exact List.cons_ne_nil _ _
  have hhead := mergeEntries_head pr.rf.log
    (pr.rf.convertLogicalToPhysical m.prevLogIndex).toNat m.entries hne
  rw [heq] at hlen ⊢
  unfold acceptEntries at hlen ⊢
  dsimp only at hlen ⊢
  split_ifs at hlen ⊢ with hcommit
  · refine ⟨rfl, rfl, hhead, ?_⟩
    rw [max_eq_right hcommit.le]
    exact min_eq_left hlen
  · exact ⟨rfl, rfl, hhead, (max_eq_left (not_lt.mp hcommit)).symm⟩

/-- The log and the commit index after any accepted requests of the leader of the term. -/
theorem appendAll_spec (hr : TermLogProtocol.Reached LogValue.term a) (h : ProcRel a p pr)
    (hterm : pr.rf.currentTerm = T)
    (hms : ∀ m ∈ ms, m.term = T ∧ ∃ src, RequestRel a src p (.appendEntries m))
    (hacc : AllAccepted pr.rf ms) :
    (appendAll pr.rf ms).log = pr.rf.log.take 1 ++
        (adopt (a.log p) ((a.leaderLog T).take (reach ms))).drop pr.rf.lastIncludedIndex.toNat ∧
      (appendAll pr.rf ms).commitIndex = max pr.rf.commitIndex (announced ms) ∧
      (appendAll pr.rf ms).currentTerm = T := by
  induction ms generalizing a pr with
  | nil =>
    have hnn := h.peer.view.nonneg
    have hge := h.peer.commit_ge
    obtain ⟨v, hv, -⟩ := h.peer.view.split
    refine ⟨?_, (max_eq_left (hnn.trans hge)).symm, hterm⟩
    rw [reach, List.map_nil, List.foldr_nil, List.take_zero, adopt_eq_left List.nil_prefix]
    simp [appendAll, hv]
  | cons m ms ih =>
    obtain ⟨⟨rfl, src, hreq⟩, hms⟩ := List.forall_mem_cons.mp hms
    obtain ⟨hmoves, hproc, hterm', hlii, hhead, hcommit⟩ := accepted_rel hr h hterm hreq hacc.1
    have hg := hmoves.grows hr
    obtain ⟨hlog, hcommits, hlast⟩ := ih (hmoves.reached hr) hproc (hterm'.trans hterm)
      (fun m' hm' => ⟨(hms m' hm').1, (hms m' hm').2.imp fun _ hsrc => hsrc.grows hg⟩) hacc.2
    have hfull : (a.replicate p m.term (lastNew m).toNat).log p =
        adopt (a.log p) ((a.leaderLog m.term).take (lastNew m).toNat) := by
      rw [replicate_log, if_pos rfl]
    refine ⟨?_, ?_, hlast⟩
    · dsimp only at hlog
      rw [appendAll, hlog, hhead, hlii, hfull]
      congr 2
      exact adopt_adopt_take _ _ _ _
    · dsimp only at hcommits
      rw [appendAll, hcommits, hcommit, max_assoc]
      rfl

/-- Accepted requests that reach equally far and announce the same have the same effect. -/
theorem sameLog_of_reach (hr : TermLogProtocol.Reached LogValue.term a) (h : ProcRel a p pr)
    (hterm : pr.rf.currentTerm = T) {ms' : List (AppendEntriesRequest C)}
    (hms : ∀ m ∈ ms, m.term = T ∧ ∃ src, RequestRel a src p (.appendEntries m))
    (hms' : ∀ m ∈ ms', m.term = T ∧ ∃ src, RequestRel a src p (.appendEntries m))
    (hacc : AllAccepted pr.rf ms) (hacc' : AllAccepted pr.rf ms') (hreach : reach ms' = reach ms)
    (hannounced : RaftReordering.announced ms' = RaftReordering.announced ms) :
    SameLog (appendAll pr.rf ms) (appendAll pr.rf ms') := by
  obtain ⟨hlog, hcommit, -⟩ := appendAll_spec hr h hterm hms hacc
  obtain ⟨hlog', hcommit', -⟩ := appendAll_spec hr h hterm hms' hacc'
  rw [SameLog, hlog, hlog', hcommit, hcommit', hreach, hannounced]
  exact ⟨rfl, rfl⟩

/-- One more request, accepted or not. It leaves the log as it is unless it reaches farther than
the others, and it never lowers the commit index. -/
theorem appendAll_concat_spec (hr : TermLogProtocol.Reached LogValue.term a) (h : ProcRel a p pr)
    (hterm : pr.rf.currentTerm = T)
    (hms : ∀ m ∈ ms, m.term = T ∧ ∃ src, RequestRel a src p (.appendEntries m))
    (hacc : AllAccepted pr.rf ms) (hm : m.term = T ∧ ∃ src, RequestRel a src p (.appendEntries m)) :
    ((lastNew m).toNat ≤ reach ms →
      (appendAll pr.rf (ms ++ [m])).log = (appendAll pr.rf ms).log) ∧
    (appendAll pr.rf ms).commitIndex ≤ (appendAll pr.rf (ms ++ [m])).commitIndex ∧
    (m.leaderCommit ≤ RaftReordering.announced ms →
      (appendAll pr.rf (ms ++ [m])).commitIndex = (appendAll pr.rf ms).commitIndex) := by
  obtain ⟨hlog, hcommit, hlast⟩ := appendAll_spec hr h hterm hms hacc
  by_cases hsucc : (appendEntries (appendAll pr.rf ms) m).2.success = true
  · obtain ⟨hlog', hcommit', -⟩ := appendAll_spec hr h hterm
      (List.forall_mem_append.mpr ⟨hms, List.forall_mem_singleton.mpr hm⟩)
      (allAccepted_concat.mpr ⟨hacc, hsucc⟩)
    rw [reach_concat] at hlog'
    rw [announced_concat] at hcommit'
    refine ⟨fun hle => ?_, ?_, fun hle => ?_⟩
    · rw [hlog, hlog', max_eq_left hle]
    · rw [hcommit, hcommit']
      exact max_le_max_left _ (le_max_left _ _)
    · rw [hcommit, hcommit', max_eq_left hle]
  · rw [appendAll_concat, appendEntries_eq_self (hlast.trans hm.1.symm) hsucc]
    exact ⟨fun _ => rfl, le_rfl, fun _ => rfl⟩

theorem sameLog_again (hr : TermLogProtocol.Reached LogValue.term a) (h : ProcRel a p pr)
    (hterm : pr.rf.currentTerm = T)
    (hms : ∀ m ∈ ms, m.term = T ∧ ∃ src, RequestRel a src p (.appendEntries m))
    (hacc : AllAccepted pr.rf ms) (hm : m ∈ ms) :
    SameLog (appendAll pr.rf ms) (appendAll pr.rf (ms ++ [m])) := by
  obtain ⟨hlog, -, hcommit⟩ := appendAll_concat_spec hr h hterm hms hacc (hms m hm)
  exact ⟨hlog (le_reach hm), hcommit (le_announced hm)⟩

end Followers

variable [Inhabited C] {s₁ s₂ s : Cluster n C} {q src₁ src₂ : Fin n} {id₁ id₂ : ℕ}
  {m₁ m₂ : AppendEntriesRequest C}

/-- `AppendEntries` of one leader in any order. Two requests were sent to a peer in the term it
is in, one at `s₁` and the other at the same time or later, and the peer accepts both whichever
comes first. Then both orders lead to the same log and commit index, a repetition of either
changes nothing, right away or after both, and the commit index never goes down. A request that
reaches no farther than the one handled before it leaves the log as it is. -/
theorem append_entries_reordered (h₁ : RaftCluster.Reached s₁)
    (h₁₂ : ReflTransGen RaftCluster.Step s₁ s₂) (h₂ : ReflTransGen RaftCluster.Step s₂ s)
    (hsent₁ : .request id₁ src₁ q (.appendEntries m₁) ∈ s₁.net)
    (hsent₂ : .request id₂ src₂ q (.appendEntries m₂) ∈ s₂.net)
    (hterm₁ : m₁.term = (s.procs q).rf.currentTerm) (hterm₂ : m₂.term = (s.procs q).rf.currentTerm)
    (hacc : AllAccepted (s.procs q).rf [m₁, m₂]) (hacc' : AllAccepted (s.procs q).rf [m₂, m₁]) :
    SameLog (appendAll (s.procs q).rf [m₁, m₂]) (appendAll (s.procs q).rf [m₂, m₁]) ∧
    (∀ m ∈ [m₁, m₂], SameLog (appendAll (s.procs q).rf [m]) (appendAll (s.procs q).rf [m, m]) ∧
      SameLog (appendAll (s.procs q).rf [m₁, m₂]) (appendAll (s.procs q).rf [m₁, m₂, m]) ∧
      SameLog (appendAll (s.procs q).rf [m₂, m₁]) (appendAll (s.procs q).rf [m₂, m₁, m])) ∧
    ∀ m ∈ [m₁, m₂], ∀ m' ∈ [m₁, m₂],
      (lastNew m' ≤ lastNew m →
        (appendAll (s.procs q).rf [m, m']).log = (appendAll (s.procs q).rf [m]).log) ∧
      (appendAll (s.procs q).rf [m]).commitIndex ≤
          (appendAll (s.procs q).rf [m, m']).commitIndex := by
  obtain ⟨a₁, b, ha₁, hb, hg₁⟩ := related_run h₁ h₁₂
  obtain ⟨a, hrun, ha⟩ := simulation.run hb h₂
  have hg := run_grows hrun hb.reached
  have hproc := ha.proc q
  have hreq : ∀ m ∈ [m₁, m₂], m.term = (s.procs q).rf.currentTerm ∧
      ∃ src, RequestRel a src q (.appendEntries m) := by
    intro m hm
    rcases List.mem_pair.mp hm with rfl | rfl
    · exact ⟨hterm₁, src₁, ((ha₁.net.request hsent₁).grows hg₁).grows hg⟩
    · exact ⟨hterm₂, src₂, (hb.net.request hsent₂).grows hg⟩
  have hswap : ∀ m ∈ [m₂, m₁], m.term = (s.procs q).rf.currentTerm ∧
      ∃ src, RequestRel a src q (.appendEntries m) :=
    fun m hm => hreq m (by simpa [or_comm] using hm)
  have hone : ∀ m ∈ [m₁, m₂], AllAccepted (s.procs q).rf [m] := by
    intro m hm
    rcases List.mem_pair.mp hm with rfl | rfl
    · exact ⟨hacc.1, trivial⟩
    · exact ⟨hacc'.1, trivial⟩
  refine ⟨?_, fun m hm => ⟨?_, ?_, ?_⟩, fun m hm m' hm' => ?_⟩
  · apply sameLog_of_reach ha.reached hproc rfl hreq hswap hacc hacc'
    · exact max_left_comm _ _ _
    · exact max_left_comm _ _ _
  · exact sameLog_again ha.reached hproc rfl (List.forall_mem_singleton.mpr (hreq m hm))
      (hone m hm) (List.mem_singleton_self m)
  · exact sameLog_again ha.reached hproc rfl hreq hacc hm
  · exact sameLog_again ha.reached hproc rfl hswap hacc' (by simpa [or_comm] using hm)
  · obtain ⟨hlog, hcommit, -⟩ := appendAll_concat_spec ha.reached hproc rfl
      (List.forall_mem_singleton.mpr (hreq m hm)) (hone m hm) (hreq m' hm')
    refine ⟨fun hle => hlog ?_, hcommit⟩
    exact (Int.toNat_le_toNat hle).trans (le_reach (List.mem_singleton_self m))

/-- Peer 0 of two is elected and sends its first command, and then the first again with a
second one. -/
def twoRequests : List (Event 2 ℕ) :=
  [.ticker 0, .deliver 0, .deliver 0, .start 0 7, .appendEntriesRoutine 0, .start 0 8,
    .appendEntriesRoutine 0]

theorem append_entries_reordered_first : ∃ s : Cluster 2 ℕ, RaftCluster.Reached s ∧
    .request 1 0 1 (.appendEntries ⟨1, 0, 0, -1, [⟨1, 7⟩], 0⟩) ∈ s.net ∧
    .request 2 0 1 (.appendEntries ⟨1, 0, 0, -1, [⟨1, 7⟩, ⟨1, 8⟩], 0⟩) ∈ s.net ∧
    (appendAll (s.procs 1).rf [⟨1, 0, 0, -1, [⟨1, 7⟩], 0⟩]).log.length = 2 ∧
    (appendAll (s.procs 1).rf [⟨1, 0, 0, -1, [⟨1, 7⟩, ⟨1, 8⟩], 0⟩]).log.length = 3 ∧
    SameLog
      (appendAll (s.procs 1).rf
        [⟨1, 0, 0, -1, [⟨1, 7⟩], 0⟩, ⟨1, 0, 0, -1, [⟨1, 7⟩, ⟨1, 8⟩], 0⟩])
      (appendAll (s.procs 1).rf
        [⟨1, 0, 0, -1, [⟨1, 7⟩, ⟨1, 8⟩], 0⟩, ⟨1, 0, 0, -1, [⟨1, 7⟩], 0⟩]) := by
  obtain ⟨s, hs, htest⟩ := Cluster.exists_of_run
    (show ((initial : Cluster 2 ℕ).run twoRequests).any (fun s => decide
      ((.request 1 0 1 (.appendEntries ⟨1, 0, 0, -1, [⟨1, 7⟩], 0⟩) ∈ s.net ∧
        .request 2 0 1 (.appendEntries ⟨1, 0, 0, -1, [⟨1, 7⟩, ⟨1, 8⟩], 0⟩) ∈ s.net) ∧
      ((appendAll (s.procs 1).rf [⟨1, 0, 0, -1, [⟨1, 7⟩], 0⟩]).log.length = 2 ∧
        (appendAll (s.procs 1).rf [⟨1, 0, 0, -1, [⟨1, 7⟩, ⟨1, 8⟩], 0⟩]).log.length = 3) ∧
      1 = (s.procs 1).rf.currentTerm ∧
      AllAccepted (s.procs 1).rf
        [⟨1, 0, 0, -1, [⟨1, 7⟩], 0⟩, ⟨1, 0, 0, -1, [⟨1, 7⟩, ⟨1, 8⟩], 0⟩] ∧
      AllAccepted (s.procs 1).rf
        [⟨1, 0, 0, -1, [⟨1, 7⟩, ⟨1, 8⟩], 0⟩, ⟨1, 0, 0, -1, [⟨1, 7⟩], 0⟩])) = true by
      decide +kernel)
  obtain ⟨⟨hsent₁, hsent₂⟩, ⟨hlen₁, hlen₂⟩, hterm, hacc, hacc'⟩ := of_decide_eq_true htest
  exact ⟨s, reached_of_steps hs, hsent₁, hsent₂, hlen₁, hlen₂,
    (append_entries_reordered (reached_of_steps hs) .refl .refl hsent₁ hsent₂ hterm hterm hacc
      hacc').1⟩

end DistributedLabs.RaftReordering
