import DistributedLabs.RaftSafety

/-!
# The indices of a compacted log stay in range

The bounds between the snapshot's index, the commit index, the applied index, the length
of the log and a leader's indices hold in every state, since every commit index stands
for a chosen prefix that no truncation touches. From the bounds follows that no operation
indexes the log out of range.
-/

namespace DistributedLabs.RaftIndices

open RaftPeer RaftCluster RaftRefinement RaftLogView RaftSafety TermLogProtocol TransitionRuns
  Relation

variable {n : ℕ} {C : Type*}

structure Bounded (rf : Raft n C) : Prop where
  log_pos : 1 ≤ rf.log.length
  commit_ge : rf.lastIncludedIndex ≤ rf.commitIndex
  commit_le : rf.commitIndex ≤ rf.lastIncludedIndex + rf.log.length - 1
  applied_le : rf.lastApplied ≤ rf.commitIndex
  ascending : ∀ {i j : ℕ} {v w : LogValue C}, 1 ≤ i → i ≤ j → rf.log[i]? = some v →
    rf.log[j]? = some w → v.term ≤ w.term
  term_le : ∀ {i : ℕ} {v : LogValue C}, 1 ≤ i → rf.log[i]? = some v → v.term ≤ rf.currentTerm
  next : rf.currentRole = .leader → ∀ q, 1 ≤ rf.nextIndex q ∧
    rf.nextIndex q ≤ rf.lastIncludedIndex + rf.log.length
  matched : rf.currentRole = .leader → ∀ q,
    rf.matchIndex q ≤ rf.lastIncludedIndex + rf.log.length - 1

theorem at?_isSome {α : Type*} {l : List α} {i : ℤ} (h0 : 0 ≤ i) (hi : i < l.length) :
    (at? l i).isSome := by
  rw [at?, if_pos h0, List.getElem?_eq_getElem (by omega)]
  rfl

section Entries

/-- The loop of `AppendEntries` with its index expressions checked. -/
def mergeEntries? (log : List (LogValue C)) (logIdx : ℤ) :
    List (LogValue C) → Option (List (LogValue C))
  | [] => some log
  | e :: rest =>
    if (log.length : ℤ) ≤ logIdx then some (log ++ e :: rest)
    else (at? log logIdx).bind fun v =>
      if e.term ≠ v.term then some (log.take logIdx.toNat ++ e :: rest)
      else mergeEntries? log (logIdx + 1) rest

theorem mergeEntries?_eq (log es : List (LogValue C)) {logIdx : ℤ} (h : 0 ≤ logIdx) :
    mergeEntries? log logIdx es = some (mergeEntries log logIdx.toNat es) := by
  induction es generalizing logIdx with
  | nil => rfl
  | cons e rest ih =>
    rw [mergeEntries?, mergeEntries]
    split_ifs with hend
    · rw [List.getElem?_eq_none_iff.mpr (by omega)]
    · rw [at?, if_pos h, List.getElem?_eq_getElem (by omega), Option.bind_some, ih (by omega),
        show (logIdx + 1).toNat = logIdx.toNat + 1 by omega]
      dsimp only
      split_ifs <;> rfl

/-- `AppendEntries` reads its own log in range, whatever the request says: past the checks
of `PrevLogIndex`, the entry there exists, and the loop finds every entry it compares. -/
theorem appendEntries_reads (rf : Raft n C) (args : AppendEntriesRequest C)
    (hlow : rf.lastIncludedIndex ≤ args.prevLogIndex)
    (hhigh : rf.convertLogicalToPhysical args.prevLogIndex < rf.log.length) :
    (at? rf.log (rf.convertLogicalToPhysical args.prevLogIndex)).isSome ∧
      mergeEntries? rf.log (rf.convertLogicalToPhysical args.prevLogIndex + 1) args.entries =
        some (mergeEntries rf.log ((rf.convertLogicalToPhysical args.prevLogIndex).toNat + 1)
          args.entries) := by
  have h0 : 0 ≤ rf.convertLogicalToPhysical args.prevLogIndex := Int.sub_nonneg_of_le hlow
  refine ⟨at?_isSome h0 hhigh, ?_⟩
  rw [mergeEntries?_eq _ _ (by omega), Int.toNat_add h0 (by decide)]
  rfl

end Entries

section Bounds

variable {a : Proto n C} {p : Fin n} {rf : Raft n C}

theorem log_term_le (hr : TermLogProtocol.Reached LogValue.term a) (h : MemRel a p rf)
    {i : ℕ} {v : LogValue C} (hi : 1 ≤ i) (hv : rf.log[i]? = some v) : v.term ≤ a.term p := by
  obtain ⟨k, rfl⟩ : ∃ k, i = k + 1 := ⟨i - 1, by omega⟩
  rw [h.view.getElem?_succ] at hv
  exact hr.ledger.log_le (List.mem_of_getElem? hv)

theorem log_ascending (hr : TermLogProtocol.Reached LogValue.term a) (h : MemRel a p rf)
    {i j : ℕ} {v w : LogValue C} (hi : 1 ≤ i) (hij : i ≤ j) (hv : rf.log[i]? = some v)
    (hw : rf.log[j]? = some w) : v.term ≤ w.term := by
  obtain ⟨k, rfl⟩ : ∃ k, i = k + 1 := ⟨i - 1, by omega⟩
  obtain ⟨m, rfl⟩ : ∃ m, j = m + 1 := ⟨j - 1, by omega⟩
  rw [h.view.getElem?_succ] at hv hw
  exact hr.roots.term_le (hr.roots.log p) hv hw (by omega)

variable [Inhabited C]

/-- The bounds are those of the full log, seen through the compacted one. -/
theorem bounded_of_rel (hr : TermLogProtocol.Reached LogValue.term a) (h : PeerRel a p rf) :
    Bounded rf := by
  have hlen := h.view.length
  have hle := h.view.le
  have hcommit := h.commit_le
  constructor
  · omega
  · exact h.commit_ge
  · omega
  · exact h.applied_le
  · intro i j v w hi hij hv hw
    exact log_ascending hr h.toMemRel hi hij hv hw
  · intro i v hi hv
    exact (log_term_le hr h.toMemRel hi hv).trans h.term_le
  · intro hrole q
    have := (h.leads hrole).next q
    omega
  · intro hrole q
    have := (h.leads hrole).match_le h.toMemRel hr q
    omega

end Bounds

section Reads

variable {rf : Raft n C}

theorem Bounded.apply_isSome (h : Bounded rf) : (apply rf).isSome := by
  have hge := h.commit_ge
  have hle := h.commit_le
  unfold apply Raft.convertLogicalToPhysical
  dsimp only
  split_ifs with hsnap hnew hrange
  · rfl
  · rfl
  · exact absurd ⟨by omega, by omega⟩ hrange
  · rfl

/-- A snapshot at an index that was applied before. -/
theorem Bounded.snapshot_isSome [Inhabited C] (h : Bounded rf) {index : ℤ}
    (hindex : index ≤ rf.lastApplied) (data : List C) : (snapshot rf index data).isSome := by
  have happlied := h.applied_le
  have hle := h.commit_le
  unfold snapshot Raft.convertLogicalToPhysical
  split_ifs with hold
  · rfl
  · rw [Option.isSome_map]
    exact at?_isSome (by omega) (by omega)

theorem Bounded.routineRequest_isSome (h : Bounded rf) (hrole : rf.currentRole = .leader)
    (ind : Fin n) : (routineRequest rf ind).isSome := by
  have hnext := h.next hrole ind
  unfold routineRequest Raft.convertLogicalToPhysical
  dsimp only
  split_ifs with hsnap hprev
  · rfl
  · rw [Option.isSome_map, Option.isSome_map]
    exact at?_isSome (by omega) (by omega)
  · rfl

theorem Bounded.routineRequests_isSome (h : Bounded rf) (hrole : rf.currentRole = .leader)
    (inds : List (Fin n)) : (routineRequests rf inds).isSome := by
  induction inds with
  | nil => rfl
  | cons ind rest ih =>
    obtain ⟨req, hreq⟩ := Option.isSome_iff_exists.mp (h.routineRequest_isSome hrole ind)
    obtain ⟨reqs, hreqs⟩ := Option.isSome_iff_exists.mp ih
    simp [routineRequests, hreq, hreqs]

theorem toCommit_mem (hn : 0 < n) (rf : Raft n C) : ∃ q, rf.toCommit = rf.matchIndex q := by
  have hk : (n - 1) / 2 < ((List.ofFn rf.matchIndex).insertionSort (· ≤ ·)).length := by
    rw [List.length_insertionSort, List.length_ofFn]
    omega
  have hmem : rf.toCommit ∈ (List.ofFn rf.matchIndex).insertionSort (· ≤ ·) := by
    rw [Raft.toCommit, List.getD_eq_getElem?_getD, List.getElem?_eq_getElem hk]
    exact List.getElem_mem hk
  rw [List.mem_insertionSort, List.mem_ofFn] at hmem
  obtain ⟨q, hq⟩ := hmem
  exact ⟨q, hq.symm⟩

/-- The commit check reads the entry at one of the match indices. -/
theorem advanceCommit_isSome (hn : 0 < n)
    (hmatched : ∀ q, rf.matchIndex q ≤ rf.lastIncludedIndex + rf.log.length - 1) :
    rf.advanceCommit.isSome := by
  obtain ⟨q, hq⟩ := toCommit_mem hn rf
  have := hmatched q
  unfold Raft.advanceCommit Raft.convertLogicalToPhysical
  split_ifs with hlow
  · rfl
  · rw [Option.isSome_map]
    exact at?_isSome (by omega) (by omega)

theorem Bounded.appendReply_isSome (h : Bounded rf) (server : Fin n) {saved : ℤ}
    {args : AppendEntriesRequest C} (resp : AppendEntriesResponse)
    (hargs : rf.currentRole = .leader → saved = rf.currentTerm →
      args.prevLogIndex + args.entries.length ≤ rf.lastIncludedIndex + rf.log.length - 1) :
    (appendReply rf server saved args resp).isSome := by
  unfold appendReply
  dsimp only
  split_ifs with hrole hsaved hterm hsucc
  · rfl
  · rfl
  · rfl
  · have hrole := not_not.mp hrole
    have hnew := hargs hrole (not_not.mp hsaved)
    apply advanceCommit_isSome server.pos
    intro q
    simp only [Function.update_apply]
    split_ifs
    · omega
    · exact max_le (h.matched hrole server) hnew
    · exact h.matched hrole q
  · rfl

end Reads

variable [Inhabited C] {s : Cluster n C} {p : Fin n}

/-- A goroutine that has its reply goes on. -/
theorem resume_isSome {a : Proto n C} (hr : TermLogProtocol.Reached LogValue.term a)
    {pr : Process n C} (h : ProcRel a p pr) {call : Call n C} (hcall : call ∈ pr.calls)
    {rep : Reply} (hrep : ReplyRel a p call rep) :
    ((pr.finish call.id).resume call (some rep)).isSome := by
  obtain ⟨id, server, saved, req⟩ := call
  have hcalled := h.calls _ hcall
  cases req with
  | requestVote args => cases rep with
    | requestVote reply => rfl
    | appendEntries reply => exact hrep.elim
    | installSnapshot reply => exact hrep.elim
  | installSnapshot args => cases rep with
    | requestVote reply => exact hrep.elim
    | appendEntries reply => exact hrep.elim
    | installSnapshot reply => rfl
  | appendEntries args => cases rep with
    | requestVote reply => exact hrep.elim
    | installSnapshot reply => exact hrep.elim
    | appendEntries reply =>
      simp only [Process.resume, Option.isSome_map]
      apply (bounded_of_rel hr h.peer).appendReply_isSome
      intro hrole hsaved
      obtain ⟨-, hterm, -, hlast⟩ := hcalled
      have hleads := h.peer.leads hrole
      have hlen := h.peer.view.length
      rw [hterm.trans hsaved, hleads.leaderLog hr] at hlast
      change _ ≤ pr.rf.lastIncludedIndex + (pr.rf.log.length : ℤ) - 1
      omega

theorem deliver_reply_isSome {a : Proto n C} (h : Related s a) {i id : ℕ} {rep : Reply}
    {call : Call n C} (hpkt : s.net[i]? = some (.reply id p rep))
    (hcall : (s.procs p).awaiting id = some call) : (s.deliver i).isSome := by
  obtain ⟨hmem, rfl⟩ := mem_of_awaiting hcall
  have hrep := h.net.answered (List.mem_of_getElem? hpkt) call hmem rfl
  have hres := resume_isSome h.reached (h.proc p) hmem hrep
  simpa [Cluster.deliver, hpkt, hcall] using hres

/-- Index safety. In every state of every run the indices of a peer are within their bounds,
and no operation indexes the log out of range: not `Snapshot` at a delivered index, not
`AppendEntries` on any request, not a pass of `AppendEntriesRoutine` or the treatment of a
reply, and not `Apply`. -/
theorem index_safety (h : RaftCluster.Reached s) (p : Fin n) :
    Bounded (s.procs p).rf ∧
    (∀ k < (s.procs p).delivered.length, (s.step? (.snapshot p k)).isSome) ∧
    (∀ args : AppendEntriesRequest C, (s.procs p).rf.lastIncludedIndex ≤ args.prevLogIndex →
      (s.procs p).rf.convertLogicalToPhysical args.prevLogIndex < (s.procs p).rf.log.length →
      (at? (s.procs p).rf.log
        ((s.procs p).rf.convertLogicalToPhysical args.prevLogIndex)).isSome ∧
      mergeEntries? (s.procs p).rf.log
          ((s.procs p).rf.convertLogicalToPhysical args.prevLogIndex + 1) args.entries =
        some (mergeEntries (s.procs p).rf.log
          (((s.procs p).rf.convertLogicalToPhysical args.prevLogIndex).toNat + 1) args.entries)) ∧
    ((s.procs p).rf.currentRole = .leader → (s.step? (.appendEntriesRoutine p)).isSome) ∧
    (∀ (i id : ℕ) (rep : Reply) (call : Call n C), s.net[i]? = some (.reply id p rep) →
      (s.procs p).awaiting id = some call → (s.step? (.deliver i)).isSome) ∧
    ((s.procs p).applying = [] → (s.step? (.apply p)).isSome) := by
  obtain ⟨a, -, ha⟩ := simulation.reachable h
  have hproc := ha.proc p
  have hb := bounded_of_rel ha.reached hproc.peer
  refine ⟨hb, fun k hk => ?_, fun args => appendEntries_reads _ args, fun hrole => ?_,
    fun i id rep call hpkt hcall => deliver_reply_isSome ha hpkt hcall, fun hidle => ?_⟩
  · have hd := List.getElem?_eq_getElem hk
    have hle := (hproc.service.delivered _ (List.mem_of_getElem? hd)).2
    simpa [Cluster.step?, hd] using hb.snapshot_isSome hle _
  · simpa [Cluster.step?, hrole] using hb.routineRequests_isSome hrole (others p)
  · simpa [Cluster.step?, hidle] using hb.apply_isSome

theorem index_safety_compacted : ∃ s : Cluster 2 ℕ, RaftCluster.Reached s ∧
    (s.procs 0).rf.lastIncludedIndex = 1 ∧ (s.procs 0).rf.currentRole = .leader ∧
    Bounded (s.procs 0).rf ∧ (s.step? (.appendEntriesRoutine 0)).isSome := by
  obtain ⟨s, hs, htest⟩ := Cluster.exists_of_run
    (show ((initial : Cluster 2 ℕ).run compactRun).any (fun s => decide
      ((s.procs 0).rf.lastIncludedIndex = 1 ∧ (s.procs 0).rf.currentRole = .leader)) = true by
      decide +kernel)
  obtain ⟨hlii, hrole⟩ := of_decide_eq_true htest
  obtain ⟨hb, -, -, hroutine, -⟩ := index_safety (reached_of_steps hs) 0
  exact ⟨s, reached_of_steps hs, hlii, hrole, hb, hroutine hrole⟩

section Commitment

omit [Inhabited C] in
theorem commitIndex_observeTerm (rf : Raft n C) (term : ℤ) :
    (rf.observeTerm term).commitIndex = rf.commitIndex := by
  unfold Raft.observeTerm
  split_ifs <;> rfl

omit [Inhabited C] in
/-- `AppendEntries` commits at most what the request says is committed. -/
theorem appendEntries_commitIndex_le (rf : Raft n C) (args : AppendEntriesRequest C) :
    (appendEntries rf args).1.commitIndex ≤ max rf.commitIndex args.leaderCommit := by
  have hobserve := commitIndex_observeTerm rf args.term
  unfold appendEntries
  dsimp only
  split_ifs with hstale hsnap hmissing hconflict hcommit
  · exact le_max_left _ _
  · exact hobserve.le.trans (le_max_left _ _)
  · exact hobserve.le.trans (le_max_left _ _)
  · exact hobserve.le.trans (le_max_left _ _)
  · exact (min_le_left _ _).trans (le_max_right _ _)
  · exact hobserve.le.trans (le_max_left _ _)

/-- No request asks a follower to commit more than it verifies: the commit index in it is at
most the index of its last entry. So a follower, whatever it answers, has then committed no
more than that, or no more than before. -/
theorem commit_within_request (h : RaftCluster.Reached s) :
    (∀ (id : ℕ) (src dst : Fin n) (args : AppendEntriesRequest C),
      .request id src dst (.appendEntries args) ∈ s.net →
      args.leaderCommit ≤ args.prevLogIndex + args.entries.length) ∧
    ∀ (i id : ℕ) (src dst : Fin n) (args : AppendEntriesRequest C) (t : Cluster n C),
      s.net[i]? = some (.request id src dst (.appendEntries args)) →
      s.step? (.deliver i) = some t → (t.procs dst).rf.commitIndex ≤
        max (s.procs dst).rf.commitIndex (args.prevLogIndex + args.entries.length) := by
  obtain ⟨a, -, ha⟩ := simulation.reachable h
  have hbound : ∀ (id : ℕ) (src dst : Fin n) (args : AppendEntriesRequest C),
      .request id src dst (.appendEntries args) ∈ s.net →
      args.leaderCommit ≤ args.prevLogIndex + args.entries.length := by
    intro id src dst args hpkt
    obtain ⟨-, -, -, -, -, -, -, hle, -⟩ := ha.net.request hpkt
    exact hle
  refine ⟨hbound, fun i id src dst args t hpkt hstep => ?_⟩
  have hrf : (t.procs dst).rf = (appendEntries (s.procs dst).rf args).1 :=
    congrArg Process.rf (Cluster.deliver_request hpkt hstep)
  rw [hrf]
  calc (appendEntries (s.procs dst).rf args).1.commitIndex
      ≤ max (s.procs dst).rf.commitIndex args.leaderCommit := appendEntries_commitIndex_le _ args
    _ ≤ max (s.procs dst).rf.commitIndex (args.prevLogIndex + args.entries.length) :=
      max_le_max_left _ (hbound id src dst args (List.mem_of_getElem? hpkt))

def verifiedRun : List (Event 2 ℕ) :=
  [.ticker 0, .deliver 0, .deliver 0, .start 0 7, .appendEntriesRoutine 0, .deliver 0,
    .deliver 0, .start 0 8, .appendEntriesRoutine 0]

def secondRequest : AppendEntriesRequest ℕ where
  term := 1
  leaderId := 0
  prevLogIndex := 1
  prevLogTerm := 1
  entries := [⟨1, 8⟩]
  leaderCommit := 1

theorem commit_within_request_second : ∃ s t : Cluster 2 ℕ, RaftCluster.Reached s ∧
    s.net[0]? = some (.request 2 0 1 (.appendEntries secondRequest)) ∧
    s.step? (.deliver 0) = some t ∧ (appendEntries (s.procs 1).rf secondRequest).2.success = true ∧
    (s.procs 1).rf.commitIndex = 0 ∧ (t.procs 1).rf.commitIndex = 1 ∧
    (t.procs 1).rf.commitIndex ≤ max (s.procs 1).rf.commitIndex (1 + 1) := by
  obtain ⟨s, hs, htest⟩ := Cluster.exists_of_run
    (show ((initial : Cluster 2 ℕ).run verifiedRun).any (fun s => decide
      (s.net[0]? = some (.request 2 0 1 (.appendEntries secondRequest)) ∧
        (appendEntries (s.procs 1).rf secondRequest).2.success = true ∧
        (s.procs 1).rf.commitIndex = 0) &&
      (s.step? (.deliver 0)).any fun t => decide ((t.procs 1).rf.commitIndex = 1)) = true by
      decide +kernel)
  obtain ⟨htest, hrest⟩ := Bool.and_eq_true_iff.mp htest
  obtain ⟨hpkt, hsuccess, hbefore⟩ := of_decide_eq_true htest
  obtain ⟨t, hstep, hafter⟩ := (Option.any_eq_true _ _).mp hrest
  have hle := (commit_within_request (reached_of_steps hs)).2 0 2 0 1 secondRequest t hpkt hstep
  exact ⟨s, t, reached_of_steps hs, hpkt, hstep, hsuccess, hbefore, of_decide_eq_true hafter, hle⟩

end Commitment

end DistributedLabs.RaftIndices
