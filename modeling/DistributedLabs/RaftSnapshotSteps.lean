import DistributedLabs.RaftAppendSteps

/-!
# Snapshots do not move the protocol

Compacting the log behind a snapshot changes how a peer stores its log and not the log.
`InstallSnapshotHandler` follows the sender's term, saves, then replicates the sender's
log up to the snapshot's index and saves again with the snapshot.
-/

namespace DistributedLabs.RaftRefinement

open RaftPeer RaftCluster RaftLogView TermLogProtocol TransitionRuns Relation LogPrefixes

variable {n : ℕ} {C : Type*} [Inhabited C] {a b : Proto n C} {p : Fin n} {pr : Process n C}

/-- The fields that `InstallSnapshotHandler` sets before its last save. -/
def installFields (rf : Raft n C) (args : InstallSnapshotRequest C) : Raft n C :=
  { rf with
    currentRole := .follower
    curSnapshot := args.data
    log := dummy args.lastIncludedTerm :: suffixAfter args rf.lastIncludedIndex 0 rf.log
    lastIncludedIndex := args.lastIncludedIndex
    lastIncludedTerm := args.lastIncludedTerm
    commitIndex := max rf.commitIndex args.lastIncludedIndex }

theorem installSnapshotHandler_eq (rf : Raft n C) (args : InstallSnapshotRequest C) :
    (installSnapshotHandler rf args).1 =
      if args.term < rf.currentTerm ∨ args.lastIncludedIndex < rf.lastIncludedIndex then rf
      else if rf.currentTerm < args.term then (installFields (Raft.persist { rf with
        currentTerm := args.term, votedFor := -1, currentRole := .follower }) args).persist
      else (installFields rf args).persist := by
  unfold installSnapshotHandler
  split_ifs <;> rfl

/-- Taking over a snapshot replicates the log of the leader that sent it. -/
theorem installFields_answers (hr : TermLogProtocol.Reached LogValue.term a) (h : ProcRel a p pr)
    {src : Fin n} {args : InstallSnapshotRequest C} (hterm : pr.rf.currentTerm = args.term)
    (hreq : RequestRel a src p (.installSnapshot args))
    (hlow : pr.rf.lastIncludedIndex ≤ args.lastIncludedIndex) :
    Answers p [] a (a.replicate p args.term args.lastIncludedIndex.toNat) pr
      { pr with rf := (installFields pr.rf args).persist } := by
  obtain ⟨hne, hlead, hpos, hle, hlast, hdata, hchosen⟩ := hreq
  have hlead' : a.leader args.term ≠ none := by
    rw [hlead]
    exact Option.some_ne_none src
  have hT : a.term p ≤ args.term := hterm ▸ h.peer.term_le
  have hmem := h.peer.toMemRel
  have hnn := hmem.view.nonneg
  have hvle := hmem.view.le
  set k := args.lastIncludedIndex.toNat with hk
  have hsame : (a.log p).take pr.rf.lastIncludedIndex.toNat =
      (a.leaderLog args.term).take pr.rf.lastIncludedIndex.toNat := by
    have hsnap := Chosen.initial hmem.chosen (take_prefix_take (Int.toNat_le_toNat hmem.commit_ge))
    have hpl := List.prefix_iff_eq_take.mp
      (Chosen.prefix_leaderLog hsnap hr.roots hr.custody hT hlead')
    rwa [List.length_take, Nat.min_eq_left (by omega)] at hpl
  have hview := hmem.view.install (matches_leaderLog hr p args.term) args hlow hpos hle hlast hsame
  rw [← hk] at hview
  have hstep : Step LogValue.term p a (a.replicate p args.term k) :=
    .replicate hlead' hT (by omega)
  have hg := hstep.grows hr.ledger
  have hlog : (a.replicate p args.term k).log p =
      adopt (a.log p) ((a.leaderLog args.term).take k) := by rw [replicate_log, if_pos rfl]
  have hTb : (a.replicate p args.term k).term p = args.term := by rw [replicate_term, if_pos rfl]
  have hadopt : (adopt (a.log p) ((a.leaderLog args.term).take k)).take k =
      (a.leaderLog args.term).take k := by
    have hpre := prefix_adopt (a.log p) ((a.leaderLog args.term).take k)
    rw [← take_eq_take_of_initial hpre (by rw [List.length_take]; omega), List.take_take,
      Nat.min_self]
  have hmem' : MemRel (a.replicate p args.term k) p (installFields pr.rf args) := {
    me := hmem.me
    view := hlog ▸ hview
    snapshot := by
      rw [hlog]
      change args.data = items (List.take k _)
      rw [hadopt]
      exact hdata
    commit_ge := le_max_right _ _
    commit_le := by
      rw [hlog]
      exact max_le (hmem.le_length_adopt hr hlead' hT k) hview.le
    chosen := by
      rw [hlog, hTb]
      change TermLogProtocol.Chosen _ _ _
        (List.take (max pr.rf.commitIndex args.lastIncludedIndex).toNat _)
      rcases max_choice pr.rf.commitIndex args.lastIncludedIndex with hc | hc <;> rw [hc]
      · rw [hmem.take_adopt hr hlead' hT k le_rfl]
        exact (Chosen.grows hmem.chosen hg).mono hT
      · rw [← hk, hadopt]
        exact Chosen.grows hchosen hg
    applied_nonneg := hmem.applied_nonneg
    applied_le := hmem.applied_le.trans (le_max_left _ _)
    leads := fun hrole => by cases hrole }
  exact Answers.saved h (Moves.single hstep rfl) (h.update hg
    (hmem'.persist (hterm.trans hTb.symm) (h.peer.replicate_vote hterm k))
    (fun hrole => by cases hrole) le_rfl rfl hlow) rfl

/-- `InstallSnapshotHandler` is answered by a change of term and a replication. -/
theorem installSnapshotHandler_answers (hr : TermLogProtocol.Reached LogValue.term a)
    (h : ProcRel a p pr) {src : Fin n} {args : InstallSnapshotRequest C}
    (hreq : RequestRel a src p (.installSnapshot args)) :
    ∃ b, Answers p [] a b pr { pr with rf := (installSnapshotHandler pr.rf args).1 } := by
  rw [installSnapshotHandler_eq]
  split_ifs with hstale hhigher
  · exact ⟨a, Answers.idle h h rfl⟩
  · have hfollow := follow_answers hr h hhigher
    have hinstall := installFields_answers (hfollow.moves.reached hr) hfollow.proc rfl
      (hreq.grows (hfollow.moves.grows hr)) (not_lt.mp (not_or.mp hstale).2)
    exact ⟨_, hfollow.trans hinstall⟩
  · have hterm : pr.rf.currentTerm = args.term :=
      le_antisymm (not_lt.mp (not_or.mp hstale).1) (not_lt.mp hhigher)
    exact ⟨_, installFields_answers hr h hterm hreq (not_lt.mp (not_or.mp hstale).2)⟩

end DistributedLabs.RaftRefinement
