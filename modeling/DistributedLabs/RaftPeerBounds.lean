import DistributedLabs.RaftPeerSteps

/-!
# Bounds on the terms and indices of one peer

No operation of a peer brings forth a term or an index above those that it has before and those of
the message it handles, except that an election goes to the next term and an accepted command
lengthens the log by one.
-/

namespace DistributedLabs.RaftBounds

open RaftPeer RaftCluster RaftRefinement TransitionRuns

variable {n : ℕ} {C : Type*} {N x : ℤ}

def Within (N x : ℤ) : Prop := -1 ≤ x ∧ x ≤ N

theorem Within.mono {M : ℤ} (h : Within N x) (hle : N ≤ M) : Within M x := ⟨h.1, h.2.trans hle⟩

structure LogWithin (N : ℤ) (log : List (LogValue C)) (lastIncludedIndex lastIncludedTerm : ℤ) :
    Prop where
  pos : 1 ≤ log.length
  last : lastIncludedIndex + log.length ≤ N + 1
  terms : ∀ v ∈ log, Within N v.term
  index : Within N lastIncludedIndex
  term : Within N lastIncludedTerm

structure SavedWithin (N : ℤ) (d : Saved C) : Prop where
  log : LogWithin N d.log d.lastIncludedIndex d.lastIncludedTerm
  term : Within N d.currentTerm

structure PeerWithin (N : ℤ) (rf : Raft n C) : Prop where
  log : LogWithin N rf.log rf.lastIncludedIndex rf.lastIncludedTerm
  term : Within N rf.currentTerm
  commit : Within N rf.commitIndex
  applied : Within N rf.lastApplied
  next : ∀ q, Within (N + 1) (rf.nextIndex q)
  matched : ∀ q, Within N (rf.matchIndex q)
  saves : ∀ d ∈ rf.persister.saves, SavedWithin N d

structure EntriesWithin (N : ℤ) (args : AppendEntriesRequest C) : Prop where
  term : Within N args.term
  prev : Within N args.prevLogIndex
  prevTerm : Within N args.prevLogTerm
  last : args.prevLogIndex + args.entries.length ≤ N
  terms : ∀ v ∈ args.entries, Within N v.term
  commit : Within N args.leaderCommit

def RequestWithin (N : ℤ) : Request C → Prop
  | .requestVote args =>
    Within N args.term ∧ Within N args.lastLogIndex ∧ Within N args.lastLogTerm
  | .appendEntries args => EntriesWithin N args
  | .installSnapshot args =>
    Within N args.term ∧ Within N args.lastIncludedIndex ∧ Within N args.lastIncludedTerm

def ReplyWithin (N : ℤ) : Reply → Prop
  | .requestVote reply => Within N reply.term
  | .appendEntries reply => Within N reply.term ∧ Within N reply.xTerm ∧ Within N reply.xIndex ∧
      Within (N + 1) reply.xLen
  | .installSnapshot reply => Within N reply.term

def MsgWithin (N : ℤ) : ApplyMsg C → Prop
  | .command index _ => Within N index
  | .snapshot index term _ => Within N index ∧ Within N term

section Monotonicity

variable {M : ℤ}

theorem LogWithin.mono {log : List (LogValue C)} {lii lit : ℤ} (h : LogWithin N log lii lit)
    (hle : N ≤ M) : LogWithin M log lii lit where
  pos := h.pos
  last := h.last.trans (by omega)
  terms v hv := (h.terms v hv).mono hle
  index := h.index.mono hle
  term := h.term.mono hle

theorem PeerWithin.mono {rf : Raft n C} (h : PeerWithin N rf) (hle : N ≤ M) : PeerWithin M rf where
  log := h.log.mono hle
  term := h.term.mono hle
  commit := h.commit.mono hle
  applied := h.applied.mono hle
  next q := (h.next q).mono (by omega)
  matched q := (h.matched q).mono hle
  saves d hd := ⟨(h.saves d hd).log.mono hle, (h.saves d hd).term.mono hle⟩

theorem RequestWithin.mono {req : Request C} (h : RequestWithin N req) (hle : N ≤ M) :
    RequestWithin M req := by
  cases req with
  | requestVote args => exact ⟨h.1.mono hle, h.2.1.mono hle, h.2.2.mono hle⟩
  | appendEntries args =>
    exact ⟨h.term.mono hle, h.prev.mono hle, h.prevTerm.mono hle, h.last.trans hle,
      fun v hv => (h.terms v hv).mono hle, h.commit.mono hle⟩
  | installSnapshot args => exact ⟨h.1.mono hle, h.2.1.mono hle, h.2.2.mono hle⟩

theorem ReplyWithin.mono {rep : Reply} (h : ReplyWithin N rep) (hle : N ≤ M) :
    ReplyWithin M rep := by
  cases rep with
  | requestVote reply => exact Within.mono h hle
  | appendEntries reply =>
    exact ⟨h.1.mono hle, h.2.1.mono hle, h.2.2.1.mono hle, h.2.2.2.mono (by omega)⟩
  | installSnapshot reply => exact Within.mono h hle

theorem MsgWithin.mono {msg : ApplyMsg C} (h : MsgWithin N msg) (hle : N ≤ M) :
    MsgWithin M msg := by
  cases msg with
  | command index command => exact Within.mono h hle
  | snapshot index term data => exact ⟨h.1.mono hle, h.2.mono hle⟩

end Monotonicity

section Peers

variable {rf : Raft n C}

theorem Within.max {y : ℤ} (hx : Within N x) (hy : Within N y) : Within N (max x y) :=
  ⟨hx.1.trans (le_max_left _ _), max_le hx.2 hy.2⟩

theorem Within.zero (hN : 0 ≤ N) : Within N 0 := ⟨by omega, hN⟩

theorem Within.update {f : Fin n → ℤ} (hf : ∀ q, Within N (f q)) (p : Fin n) (hx : Within N x)
    (q : Fin n) : Within N (Function.update f p x q) := by
  rw [Function.update_apply]
  split_ifs
  · exact hx
  · exact hf q

/-- The index that the next entry gets. -/
theorem LogWithin.behind {log : List (LogValue C)} {lii lit : ℤ} (h : LogWithin N log lii lit) :
    Within (N + 1) (lii + log.length) := by
  have hlast := h.last
  have hindex := h.index.1
  exact ⟨by omega, by omega⟩

theorem PeerWithin.persist (h : PeerWithin N rf) : PeerWithin N rf.persist := by
  refine { h with saves := fun d hd => ?_ }
  rcases List.mem_cons.mp hd with rfl | hold
  · exact ⟨h.log, h.term⟩
  · exact h.saves d hold

/-- Terms, votes and roles are independent of the rest. -/
theorem PeerWithin.follow (h : PeerWithin N rf) {term : ℤ} (hterm : Within N term) (votedFor : ℤ)
    (role : Role) : PeerWithin N { rf with
      currentTerm := term, votedFor := votedFor, currentRole := role } :=
  { h with term := hterm }

theorem PeerWithin.lastLogIndex (h : PeerWithin N rf) : Within N rf.lastLogIndex := by
  have hpos := h.log.pos
  have hlast := h.log.last
  have hindex := h.log.index.1
  rw [Raft.lastLogIndex]
  exact ⟨by omega, by omega⟩

theorem PeerWithin.termAt (hN : 0 ≤ N) (h : PeerWithin N rf) (i : ℤ) : Within N (rf.termAt i) := by
  unfold Raft.termAt
  cases hv : rf.log[i.toNat]? with
  | none => exact .zero hN
  | some v => exact h.log.terms v (List.mem_of_getElem? hv)

theorem PeerWithin.lastLogTerm (hN : 0 ≤ N) (h : PeerWithin N rf) : Within N rf.lastLogTerm := by
  unfold Raft.lastLogTerm
  split_ifs
  · exact h.termAt hN _
  · exact h.log.term

theorem PeerWithin.getTermFirstEntry (h : PeerWithin N rf) (term : ℤ) :
    Within N (rf.getTermFirstEntry term) := by
  have hlast := h.log.last
  have hindex := h.log.index
  unfold Raft.getTermFirstEntry
  split
  · next i hi =>
    obtain ⟨hlt, -⟩ := List.findIdx?_eq_some_iff_getElem.mp hi
    rw [List.length_drop] at hlt
    have := hindex.1
    exact ⟨by omega, by omega⟩
  · exact ⟨le_rfl, by have := hindex.1; have := hindex.2; omega⟩

/-- The election is for the next term. -/
theorem startElection_within (hN : 0 ≤ N) (h : PeerWithin N rf) :
    PeerWithin (N + 1) (startElection rf).1 ∧
      RequestWithin (C := C) (N + 1) (.requestVote (startElection rf).2) := by
  have hnext : Within (N + 1) (rf.currentTerm + 1) := by
    have := h.term.1
    have := h.term.2
    exact ⟨by omega, by omega⟩
  have hmono := h.mono (show N ≤ N + 1 by omega)
  have hpeer := (hmono.follow hnext (rf.me : ℕ) .candidate).persist
  exact ⟨hpeer, hnext, hpeer.lastLogIndex, hpeer.lastLogTerm (by omega)⟩

theorem start_within (h : PeerWithin N rf) (command : C) :
    PeerWithin (N + 1) (start rf command).1 := by
  have hmono := h.mono (show N ≤ N + 1 by omega)
  unfold start
  split_ifs with hrole
  · exact hmono
  · refine PeerWithin.persist
      { hmono with log := { hmono.log with pos := ?_, last := ?_, terms := ?_ } }
    · simp
    · have := h.log.last
      simp only [List.length_append, List.length_singleton]
      push_cast
      omega
    · intro v hv
      rcases List.mem_append.mp hv with hold | hnew
      · exact hmono.log.terms v hold
      · obtain rfl := List.mem_singleton.mp hnew
        exact hmono.term

theorem at?_bounds {α : Type*} {l : List α} {i : ℤ} {v : α} (h : at? l i = some v) :
    0 ≤ i ∧ i < l.length ∧ v ∈ l := by
  unfold at? at h
  split_ifs at h with hi
  have := (List.getElem?_eq_some_iff.mp h).1
  exact ⟨hi, by omega, List.mem_of_getElem? h⟩

theorem commandMsgs_within {first : ℤ} {l : List (LogValue C)} (hfirst : -1 ≤ first)
    (hlast : first + l.length ≤ N + 1) : ∀ msg ∈ commandMsgs first l, MsgWithin N msg := by
  induction l generalizing first with
  | nil => nofun
  | cons v rest ih =>
    rw [List.length_cons, Nat.cast_add_one] at hlast
    intro msg hmsg
    rcases List.mem_cons.mp hmsg with rfl | hrest
    · exact ⟨hfirst, by omega⟩
    · exact ih (by omega) (by omega) msg hrest

theorem apply_within (h : PeerWithin N rf) {result : Raft n C × List (ApplyMsg C)}
    (hresult : apply rf = some result) :
    PeerWithin N result.1 ∧ ∀ msg ∈ result.2, MsgWithin N msg := by
  unfold apply at hresult
  dsimp only at hresult
  split_ifs at hresult with hsnap hnew hrange <;> obtain rfl := Option.some.inj hresult
  · refine ⟨{ h with applied := h.log.index }, fun msg hmsg => ?_⟩
    obtain rfl := List.mem_singleton.mp hmsg
    exact ⟨h.log.index, h.log.term⟩
  · have happlied := h.applied.1
    have hcommit := h.commit.2
    refine ⟨{ h with applied := h.commit }, commandMsgs_within (by omega) ?_⟩
    rw [List.length_take]
    unfold Raft.convertLogicalToPhysical
    omega
  · exact ⟨h, nofun⟩

theorem snapshot_within [Inhabited C] (h : PeerWithin N rf) {index : ℤ} {data : List C}
    {rf' : Raft n C} (hrf : snapshot rf index data = some rf') : PeerWithin N rf' := by
  unfold snapshot Raft.convertLogicalToPhysical at hrf
  split_ifs at hrf with hold
  · obtain rfl := Option.some.inj hrf
    exact h
  · obtain ⟨v, hv, rfl⟩ := Option.map_eq_some_iff.mp hrf
    obtain ⟨hlow, hhigh, hmem⟩ := at?_bounds hv
    have hlast := h.log.last
    have hlii := h.log.index.1
    have hindex : Within N index := ⟨by omega, by omega⟩
    have hterm := h.log.terms v hmem
    refine PeerWithin.persist { h with
      log := ⟨by simp, ?_, ?_, hindex, hterm⟩
      commit := h.commit.max hindex
      applied := h.applied.max hindex }
    · simp only [List.length_cons, List.length_drop]
      omega
    · intro w hw
      rcases List.mem_cons.mp hw with rfl | hw
      · exact hterm
      · exact h.log.terms w (List.mem_of_mem_drop hw)

theorem PeerWithin.stepDown (h : PeerWithin N rf) {term : ℤ} (hterm : Within N term) :
    PeerWithin N (rf.stepDown term) := (h.follow hterm _ _).persist

theorem PeerWithin.becomeLeader (hN : 0 ≤ N) (h : PeerWithin N rf) :
    PeerWithin N rf.becomeLeader := by
  refine PeerWithin.persist { h with next := fun _ => h.log.behind, matched := fun q => ?_ }
  dsimp only
  split_ifs
  · exact h.lastLogIndex
  · exact .zero hN

theorem voteReply_within (hN : 0 ≤ N) (h : PeerWithin N rf) (numVotes : ℕ) (curTerm : ℤ)
    {reply : RequestVoteReply} (hreply : Within N reply.term) :
    PeerWithin N (voteReply rf numVotes curTerm reply).1 := by
  unfold voteReply
  dsimp only
  split_ifs
  · exact h.stepDown hreply
  · exact h
  · exact h.becomeLeader hN
  · exact h
  · exact h.becomeLeader hN
  · exact h

theorem routineRequest_within (h : PeerWithin N rf) {ind : Fin n} {req : Request C}
    (hreq : routineRequest rf ind = some req) : RequestWithin N req := by
  unfold routineRequest at hreq
  split_ifs at hreq with hsnap
  · obtain rfl := Option.some.inj hreq
    exact ⟨h.term, h.log.index, h.log.term⟩
  · have hnext := h.next ind
    have hlast := h.log.last
    have hindex := h.log.index.1
    have hlow := hnext.1
    have hhigh := hnext.2
    obtain ⟨prevLogTerm, hprev, rfl⟩ := Option.map_eq_some_iff.mp hreq
    have hprevious : Within N (rf.nextIndex ind - 1) := ⟨by omega, by omega⟩
    refine ⟨h.term, hprevious, ?_, ?_, ?_, h.commit⟩
    · split_ifs at hprev
      · obtain ⟨v, hv, rfl⟩ := Option.map_eq_some_iff.mp hprev
        exact h.log.terms v (at?_bounds hv).2.2
      · obtain rfl := Option.some.inj hprev
        exact ⟨le_rfl, hprevious.1.trans hprevious.2⟩
    · simp only [List.length_drop, Raft.convertLogicalToPhysical]
      omega
    · exact fun v hv => h.log.terms v (List.mem_of_mem_drop hv)

theorem installReply_within (h : PeerWithin N rf) (curIndex : Fin n) (savedTerm : ℤ)
    {args : InstallSnapshotRequest C} {resp : InstallSnapshotResponse}
    (hargs : RequestWithin N (.installSnapshot args)) (hresp : Within N resp.term) :
    PeerWithin N (installReply rf curIndex savedTerm args resp) := by
  obtain ⟨-, hindex, -⟩ := hargs
  unfold installReply
  split_ifs
  · exact h
  · exact h
  · exact h.stepDown hresp
  · have hnext : Within (N + 1) (args.lastIncludedIndex + 1) :=
      ⟨by have := hindex.1; omega, by have := hindex.2; omega⟩
    exact { h with
      next := Within.update h.next curIndex hnext
      matched := Within.update h.matched curIndex hindex }

theorem advanceCommit_within (h : PeerWithin N rf) {rf' : Raft n C}
    (hrf : rf.advanceCommit = some rf') : PeerWithin N rf' := by
  unfold Raft.advanceCommit Raft.convertLogicalToPhysical at hrf
  split_ifs at hrf with hlow
  · obtain rfl := Option.some.inj hrf
    exact h
  · obtain ⟨v, hv, rfl⟩ := Option.map_eq_some_iff.mp hrf
    obtain ⟨hge, hlt, -⟩ := at?_bounds hv
    have hlast := h.log.last
    have hlii := h.log.index.1
    have hcommit : Within N rf.toCommit := ⟨by omega, by omega⟩
    split_ifs
    · exact { h with commit := hcommit }
    · exact h

theorem backUp_within (hN : 0 ≤ N) (h : PeerWithin N rf) {resp : AppendEntriesResponse}
    (hresp : ReplyWithin N (.appendEntries resp)) : Within (N + 1) (rf.backUp resp) := by
  obtain ⟨-, -, hindex, hlen⟩ := hresp
  unfold Raft.backUp
  dsimp only
  split_ifs with hterm hnone hzero hfound
  · exact hlen
  · exact hindex.mono (by omega)
  · exact ⟨by omega, by omega⟩
  · have hlast := h.log.last
    have hlii := h.log.index.1
    rcases lastWithTerm_spec resp.xTerm 0 rf.log (-1) with ⟨heq, -⟩ | ⟨i, w, hw, -, -, heq, -⟩
    · exact absurd heq hfound
    · have := (List.getElem?_eq_some_iff.mp hw).1
      rw [heq]
      exact ⟨by omega, by omega⟩
  · exact hindex.mono (by omega)

theorem appendReply_within (hN : 0 ≤ N) (h : PeerWithin N rf) {serverId : Fin n} {savedTerm : ℤ}
    {args : AppendEntriesRequest C} {resp : AppendEntriesResponse} {rf' : Raft n C}
    (hargs : EntriesWithin N args) (hresp : ReplyWithin N (.appendEntries resp))
    (hrf : appendReply rf serverId savedTerm args resp = some rf') : PeerWithin N rf' := by
  unfold appendReply at hrf
  split_ifs at hrf
  · exact Option.some.inj hrf ▸ h
  · exact Option.some.inj hrf ▸ h
  · exact Option.some.inj hrf ▸ h.stepDown hresp.1
  · have hmatched : Within N (max (rf.matchIndex serverId)
        (args.prevLogIndex + args.entries.length)) := by
      have := hargs.prev.1
      exact (h.matched serverId).max ⟨by omega, hargs.last⟩
    have hnext : Within (N + 1) (max (rf.matchIndex serverId)
        (args.prevLogIndex + args.entries.length) + 1) :=
      ⟨by have := hmatched.1; omega, by have := hmatched.2; omega⟩
    have hown := h.lastLogIndex
    rw [Raft.lastLogIndex, add_sub_assoc] at hown
    refine advanceCommit_within ?_ hrf
    exact { h with
      next := Within.update h.next serverId hnext
      matched := Within.update (Within.update h.matched serverId hmatched) rf.me hown }
  · obtain rfl := Option.some.inj hrf
    exact { h with next := Within.update h.next serverId (backUp_within hN h hresp) }

end Peers

section Handlers

variable {rf : Raft n C}

theorem castVote_within (h : PeerWithin N rf) (args : RequestVoteArgs) {reply : RequestVoteReply}
    (hreply : Within N reply.term) : PeerWithin N (castVote rf args reply).1 ∧
      Within N (castVote rf args reply).2.term := by
  unfold castVote
  split_ifs
  · exact ⟨h, hreply⟩
  · exact ⟨h, hreply⟩
  · exact ⟨h, hreply⟩
  · exact ⟨(h.follow h.term _ _).persist, hreply⟩

theorem requestVote_within (h : PeerWithin N rf) {args : RequestVoteArgs}
    (hargs : Within N args.term) :
    PeerWithin N (requestVote rf args).1 ∧ Within N (requestVote rf args).2.term := by
  rw [requestVote_eq]
  split_ifs
  · exact ⟨h, h.term⟩
  · exact castVote_within (h.follow hargs _ _).persist args h.term
  · exact castVote_within h args h.term

/-- What the merged log is made of. -/
theorem mergeEntries_within (log es : List (LogValue C)) (i : ℕ) (hlog : 1 ≤ log.length) :
    1 ≤ (mergeEntries log i es).length ∧
      (mergeEntries log i es).length ≤ max log.length (i + es.length) ∧
      ∀ v ∈ mergeEntries log i es, v ∈ log ∨ v ∈ es := by
  induction es generalizing i with
  | nil => exact ⟨hlog, le_max_left _ _, fun v hv => Or.inl hv⟩
  | cons e rest ih =>
    rw [mergeEntries]
    cases hv : log[i]? with
    | none =>
      have hle := List.getElem?_eq_none_iff.mp hv
      refine ⟨?_, ?_, fun v hv => List.mem_append.mp hv⟩ <;>
        rw [List.length_append, List.length_cons] <;> omega
    | some w =>
      have hlt := (List.getElem?_eq_some_iff.mp hv).1
      dsimp only
      split_ifs
      · refine ⟨?_, ?_, fun v hv => (List.mem_append.mp hv).imp_left List.mem_of_mem_take⟩ <;>
          rw [List.length_append, List.length_take, List.length_cons] <;> omega
      · obtain ⟨hpos, hlen, hmem⟩ := ih (i + 1)
        refine ⟨hpos, by rw [List.length_cons]; omega, fun v hv => ?_⟩
        exact (hmem v hv).imp_right (List.mem_cons_of_mem _)

theorem acceptEntries_within (h : PeerWithin N rf) {args : AppendEntriesRequest C}
    (hargs : EntriesWithin N args) (hlow : rf.lastIncludedIndex ≤ args.prevLogIndex) :
    PeerWithin N (acceptEntries rf args) := by
  obtain ⟨hpos, hlen, hmem⟩ := mergeEntries_within rf.log args.entries
    ((rf.convertLogicalToPhysical args.prevLogIndex).toNat + 1) h.log.pos
  unfold Raft.convertLogicalToPhysical at hpos hlen hmem
  have hlast := h.log.last
  have hlast' := hargs.last
  have hlog : LogWithin N
      (mergeEntries rf.log ((args.prevLogIndex - rf.lastIncludedIndex).toNat + 1) args.entries)
      rf.lastIncludedIndex rf.lastIncludedTerm := by
    refine ⟨hpos, by omega, fun v hv => ?_, h.log.index, h.log.term⟩
    exact (hmem v hv).elim (h.log.terms v) (hargs.terms v)
  have hpeer : PeerWithin N { rf with
      log := mergeEntries rf.log ((args.prevLogIndex - rf.lastIncludedIndex).toNat + 1)
        args.entries } := { h with log := hlog }
  unfold acceptEntries Raft.convertLogicalToPhysical
  dsimp only
  split_ifs
  · have hindex := h.log.index.1
    have hcommit := hargs.commit
    exact { hpeer with commit := ⟨le_min hcommit.1 (by omega), (min_le_left _ _).trans hcommit.2⟩ }
  · exact hpeer

theorem appendEntries_within (hN : 0 ≤ N) (h : PeerWithin N rf) {args : AppendEntriesRequest C}
    (hargs : EntriesWithin N args) : PeerWithin N (appendEntries rf args).1 ∧
      ReplyWithin N (.appendEntries (appendEntries rf args).2) := by
  have hzero : Within N 0 := .zero hN
  rw [appendEntries_eq]
  split_ifs with hstale
  · exact ⟨h, h.term, hzero, hzero, hzero.mono (by omega)⟩
  · have hseen : PeerWithin N (rf.observeTerm args.term) := by
      unfold Raft.observeTerm
      split_ifs
      · exact h.follow hargs.term _ _
      · exact h
    have hminus : Within N (-1) := ⟨le_rfl, by omega⟩
    have hend := hseen.log.behind
    rw [add_comm (rf.observeTerm args.term).lastIncludedIndex] at hend
    unfold answerEntries
    dsimp only
    split_ifs with hlow hhigh hcheck
    · exact ⟨hseen, hseen.term, hzero, hzero, hzero.mono (by omega)⟩
    · exact ⟨hseen, hseen.term, hminus, hminus, hend⟩
    · exact ⟨hseen, hseen.term, hseen.termAt hN _, hseen.getTermFirstEntry _, hend⟩
    · have haccept := acceptEntries_within hseen hargs (not_lt.mp hlow)
      exact ⟨haccept.persist, haccept.term, hzero, hzero, hzero.mono (by omega)⟩

/-- What is kept behind a snapshot was there, at the same indices. -/
theorem suffixAfter_within (args : InstallSnapshotRequest C) (lii : ℤ) (ind : ℕ)
    (log : List (LogValue C)) :
    (suffixAfter args lii ind log = [] ∨
      args.lastIncludedIndex + (suffixAfter args lii ind log).length + 1 = lii + ind + log.length) ∧
      ∀ v ∈ suffixAfter args lii ind log, v ∈ log := by
  induction log generalizing ind with
  | nil => exact ⟨Or.inl rfl, fun v hv => hv⟩
  | cons w rest ih =>
    rw [suffixAfter]
    split_ifs with hfound
    · refine ⟨Or.inr ?_, fun v hv => List.mem_cons_of_mem _ hv⟩
      rw [hfound.2, List.length_cons]
      push_cast
      omega
    · obtain ⟨hlen, hmem⟩ := ih (ind + 1)
      refine ⟨hlen.imp_right fun heq => ?_, fun v hv => List.mem_cons_of_mem _ (hmem v hv)⟩
      rw [heq, List.length_cons]
      push_cast
      omega

variable [Inhabited C]

theorem installFields_within (h : PeerWithin N rf) {args : InstallSnapshotRequest C}
    (hargs : RequestWithin N (.installSnapshot args)) : PeerWithin N (installFields rf args) := by
  obtain ⟨-, hindex, hterm⟩ := hargs
  obtain ⟨hlen, hmem⟩ := suffixAfter_within args rf.lastIncludedIndex 0 rf.log
  refine { h with
    log := ⟨by simp [installFields], ?_, ?_, hindex, hterm⟩
    commit := h.commit.max hindex }
  · have hlast := h.log.last
    have hhigh := hindex.2
    simp only [installFields, List.length_cons]
    rcases hlen with hnil | heq
    · simp [hnil]
      omega
    · push_cast
      omega
  · intro v hv
    rcases List.mem_cons.mp hv with rfl | hv
    · exact hterm
    · exact h.log.terms v (hmem v hv)

theorem installSnapshotHandler_within (hN : 0 ≤ N) (h : PeerWithin N rf)
    {args : InstallSnapshotRequest C} (hargs : RequestWithin N (.installSnapshot args)) :
    PeerWithin N (installSnapshotHandler rf args).1 ∧
      Within N (installSnapshotHandler rf args).2.term := by
  constructor
  · rw [installSnapshotHandler_eq]
    split_ifs
    · exact h
    · exact (installFields_within (h.follow hargs.1 _ _).persist hargs).persist
    · exact (installFields_within h hargs).persist
  · unfold installSnapshotHandler
    split_ifs
    · exact h.term
    · exact .zero hN
    · exact .zero hN

theorem make_within (hN : 0 ≤ N) (me : Fin n) {ps : Persister C}
    (hps : ∀ d ∈ ps.saves, SavedWithin N d) : PeerWithin N (make me ps) := by
  have hzero : Within N 0 := .zero hN
  have hdisk : SavedWithin N (onDisk ps) := by
    cases hsaves : ps.saves with
    | nil =>
      have hminus : Within N (-1) := ⟨le_rfl, by omega⟩
      rw [onDisk, hsaves]
      refine ⟨⟨le_rfl, by simp [blank]; omega, fun v hv => ?_, hzero, hzero⟩, hzero⟩
      obtain rfl := List.mem_singleton.mp hv
      exact hminus
    | cons d rest =>
      rw [onDisk, hsaves]
      exact hps d (hsaves ▸ List.mem_cons_self)
  rw [make_eq]
  exact ⟨hdisk.log, hdisk.term, hdisk.log.index, hdisk.log.index, fun _ => hzero.mono (by omega),
    fun _ => hzero, hps⟩

end Handlers

end DistributedLabs.RaftBounds
