import DistributedLabs.RaftElectionSteps

/-!
# The leader's requests and what it makes of the replies

A pass of `AppendEntriesRoutine` sends parts of the leader's log or its snapshot. The
replies move `nextIndex` within the log, back every `matchIndex` above the snapshot by an
acknowledgement, and advance `commitIndex` to committed prefixes only.
-/

namespace DistributedLabs.RaftRefinement

open RaftPeer RaftCluster RaftLogView TermLogProtocol TransitionRuns Relation LogPrefixes
  MajorityQuorums

variable {n : ℕ} {C : Type*} {a b : Proto n C} {p : Fin n} {pr : Process n C}

/-- A leader's log is the protocol's log of its term. -/
theorem LeaderRel.leaderLog {rf : Raft n C} (h : LeaderRel a p rf)
    (hr : TermLogProtocol.Reached LogValue.term a) : a.leaderLog rf.currentTerm = a.log p := by
  rw [h.term]
  exact (hr.ledger.leader_log h.elected rfl).symm

/-- The term that a leader reads at the index before the entries it sends. -/
theorem prevLogTerm_eq {full log : List (LogValue C)} {lii lit prev : ℤ}
    (h : Represents full log lii lit) (hlow : lii ≤ prev) {t : ℤ}
    (ht : (at? log (prev - lii)).map LogValue.term = some t) (hpos : 0 < prev) {v : LogValue C}
    (hv : full[(prev - 1).toNat]? = some v) : v.term = t := by
  have hat := h.term_at hlow hpos hv
  rw [at?, if_pos (by omega), hat] at ht
  exact Option.some.inj ht

/-- The requests of `AppendEntriesRoutine` say what the protocol's leader would say. -/
theorem routineRequest_rel (hr : TermLogProtocol.Reached LogValue.term a) {rf : Raft n C}
    (h : MemRel a p rf) (hrole : rf.currentRole = .leader) {ind : Fin n} (hind : ind ≠ p)
    {req : Request C} (hreq : routineRequest rf ind = some req) (id : ℕ) :
    RequestRel a p ind req ∧ CallRel a rf ⟨id, ind, rf.currentTerm, req⟩ := by
  have hleads := h.leads hrole
  have hlog := hleads.leaderLog hr
  have hterm := hleads.term
  have helected : a.leader rf.currentTerm = some p := hterm ▸ hleads.elected
  obtain ⟨hnext1, hnext2⟩ := hleads.next ind
  have hnn := h.view.nonneg
  have hvle := h.view.le
  unfold routineRequest at hreq
  by_cases hsnap : rf.nextIndex ind ≤ rf.lastIncludedIndex
  · rw [if_pos hsnap, Option.some.injEq] at hreq
    subst hreq
    have hpos : 0 < rf.lastIncludedIndex := by omega
    refine ⟨⟨hind.symm, helected, hpos, ?_, ?_, ?_, ?_⟩, le_rfl, rfl, hnn, le_rfl⟩ <;>
      simp only [hlog]
    · exact hvle
    · exact h.view.term
    · exact h.snapshot
    · rw [hterm]
      exact Chosen.initial h.chosen (take_prefix_take (Int.toNat_le_toNat h.commit_ge))
  · rw [if_neg hsnap] at hreq
    obtain ⟨t, ht, rfl⟩ := Option.map_eq_some_iff.mp hreq
    have hprev : 0 ≤ rf.nextIndex ind - 1 := by omega
    rw [if_pos hprev] at ht
    have hentries : rf.log.drop (rf.convertLogicalToPhysical (rf.nextIndex ind)).toNat =
        (a.log p).drop (rf.nextIndex ind - 1).toNat := by
      obtain ⟨v, hv, -⟩ := h.view.split
      rw [hv, Raft.convertLogicalToPhysical, show (rf.nextIndex ind - rf.lastIncludedIndex).toNat =
        (rf.nextIndex ind - 1 - rf.lastIncludedIndex).toNat + 1 by omega, List.drop_succ_cons,
        List.drop_drop]
      congr 1
      omega
    have hsum : rf.nextIndex ind - 1 +
        ((rf.log.drop (rf.convertLogicalToPhysical (rf.nextIndex ind)).toNat).length : ℤ) =
        (a.log p).length := by
      rw [hentries, List.length_drop]
      omega
    refine ⟨⟨hind.symm, helected, hprev, ?_, ?_, ?_, ?_, ?_, ?_⟩, le_rfl, rfl, hprev, ?_⟩ <;>
      simp only [hlog]
    · omega
    · rw [hentries]
    · intro hpos v hv
      exact prevLogTerm_eq h.view (by omega) ht hpos hv
    · exact hnn.trans h.commit_ge
    · rw [hsum]
      exact h.commit_le
    · rw [hterm]
      exact h.chosen
    · exact hsum.le

/-- Match indices never exceed the leader's log. -/
theorem LeaderRel.match_le {rf : Raft n C} (h : LeaderRel a p rf) (hm : MemRel a p rf)
    (hr : TermLogProtocol.Reached LogValue.term a) (q : Fin n) :
    rf.matchIndex q ≤ (a.log p).length := by
  rcases h.matched q with hle | ⟨k, hk, hack⟩
  · exact hle.trans hm.view.le
  · have := hr.ledger.ack_length hack
    rw [← hr.ledger.leader_log h.elected rfl] at this
    omega

/-- The indices a leader keeps for the others may be set to any that are backed. -/
theorem LeaderRel.withIndices {rf : Raft n C} (h : LeaderRel a p rf) (next matched : Fin n → ℤ)
    (hnext : ∀ q, 1 ≤ next q ∧ next q ≤ (a.log p).length + 1)
    (hmatched : ∀ q, matched q ≤ rf.lastIncludedIndex ∨
      ∃ k : ℕ, matched q ≤ k ∧ (q, a.term p, k) ∈ a.acks) :
    LeaderRel a p { rf with nextIndex := next, matchIndex := matched } :=
  ⟨h.term, h.elected, h.ownAck, hnext, hmatched⟩

variable [Inhabited C]

theorem ProcRel.withIndices (h : ProcRel a p pr) (hrole : pr.rf.currentRole = .leader)
    {next matched : Fin n → ℤ} (hleads : LeaderRel a p
      { pr.rf with nextIndex := next, matchIndex := matched }) :
    ProcRel a p { pr with rf := { pr.rf with nextIndex := next, matchIndex := matched } } :=
  h.update (Grows.refl a) { h.peer with leads := fun _ => hleads }
    (fun hcand => by cases hrole.symm.trans hcand) le_rfl rfl le_rfl

omit [Inhabited C] in
/-- The median of the match indices is committed once its entry is of the leader's term. -/
theorem committed_toCommit (hr : TermLogProtocol.Reached LogValue.term a) {rf : Raft n C}
    (h : MemRel a p rf) (hleads : LeaderRel a p rf) (hlow : rf.lastIncludedIndex < rf.toCommit)
    {v : LogValue C} (hv : (a.log p)[(rf.toCommit - 1).toNat]? = some v)
    (hterm : v.term = rf.currentTerm) :
    Committed LogValue.term a (a.term p) rf.toCommit.toNat := by
  have hnn := h.view.nonneg
  refine ⟨⟨by omega, v, ?_, hterm.trans hleads.term⟩, _, majority_median p.pos rf.matchIndex, ?_⟩
  · rw [← hr.ledger.leader_log hleads.elected rfl, ← hv]
    congr 1
    omega
  · intro q hq
    have hreach : rf.toCommit ≤ rf.matchIndex q := (Finset.mem_filter.mp hq).2
    obtain ⟨k, hk, hack⟩ := (hleads.matched q).resolve_left (by omega)
    exact ⟨k, by omega, hack⟩

/-- The commit rule advances to a chosen prefix. -/
theorem advanceCommit_rel (hr : TermLogProtocol.Reached LogValue.term a) (h : ProcRel a p pr)
    (hrole : pr.rf.currentRole = .leader) {rf : Raft n C} (hadv : pr.rf.advanceCommit = some rf) :
    ProcRel a p { pr with rf := rf } ∧ rf.persister = pr.rf.persister := by
  unfold Raft.advanceCommit at hadv
  by_cases hlow : pr.rf.toCommit ≤ pr.rf.lastIncludedIndex
  · rw [if_pos hlow, Option.some.injEq] at hadv
    subst hadv
    exact ⟨h, rfl⟩
  rw [if_neg hlow] at hadv
  obtain ⟨v, hv, rfl⟩ := Option.map_eq_some_iff.mp hadv
  have hmem := h.peer.toMemRel
  have hleads := hmem.leads hrole
  rw [Raft.convertLogicalToPhysical, hmem.view.at? (not_le.mp hlow)] at hv
  split_ifs with hrule
  · have hnn := hmem.view.nonneg
    have hlen := (List.getElem?_eq_some_iff.mp hv).1
    have hcom := committed_toCommit hr hmem hleads (not_le.mp hlow) hv hrule.1
    have hmem' : MemRel a p { pr.rf with commitIndex := pr.rf.toCommit } :=
      { hmem with
        commit_ge := (not_le.mp hlow).le
        commit_le := by simp only; omega
        chosen := by
          refine Or.inr ⟨_, _, le_rfl, hcom, ?_⟩
          rw [hr.ledger.leader_log hleads.elected rfl]
        applied_le := hmem.applied_le.trans hrule.2.le
        leads :=
          fun _ => ⟨hleads.term, hleads.elected, hleads.ownAck, hleads.next, hleads.matched⟩ }
    exact ⟨h.update (Grows.refl a) ⟨hmem', h.peer.disk, h.peer.standing⟩
      (fun hcand => by cases hrole.symm.trans hcand) le_rfl rfl le_rfl, rfl⟩
  · exact ⟨h, rfl⟩

omit [Inhabited C] in
/-- What the loop for the last entry of a term finds. -/
theorem lastWithTerm_spec (term : ℤ) (cur : ℕ) (log : List (LogValue C)) (init : ℤ) :
    (lastWithTerm term cur log init = init ∧
      ∀ (i : ℕ) (v : LogValue C), log[i]? = some v → cur + i ≠ 0 → v.term ≠ term) ∨
    ∃ (i : ℕ) (w : LogValue C), log[i]? = some w ∧ w.term = term ∧ cur + i ≠ 0 ∧
      lastWithTerm term cur log init = (cur + i : ℕ) ∧
      ∀ (j : ℕ) (v : LogValue C), log[j]? = some v → i < j → v.term ≠ term := by
  induction log generalizing cur init with
  | nil => exact Or.inl ⟨rfl, fun i v hv => by simp at hv⟩
  | cons w rest ih =>
    rw [lastWithTerm]
    rcases ih (cur + 1) (if cur ≠ 0 ∧ w.term = term then (cur : ℤ) else init) with
      ⟨heq, hnone⟩ | ⟨i, u, hu, hterm, -, heq, hlast⟩
    · rw [heq]
      split_ifs with hw
      · refine Or.inr ⟨0, w, rfl, hw.2, hw.1, by simp, fun j v hv hj => ?_⟩
        obtain ⟨j, rfl⟩ : ∃ m, j = m + 1 := ⟨j - 1, by omega⟩
        exact hnone j v hv (by omega)
      · refine Or.inl ⟨rfl, fun i v hv hne => ?_⟩
        cases i with
        | zero =>
          simp only [List.getElem?_cons_zero, Option.some.injEq] at hv
          subst hv
          exact fun hterm => hw ⟨hne, hterm⟩
        | succ i =>
          rw [List.getElem?_cons_succ] at hv
          exact hnone i v hv (by omega)
    · refine Or.inr ⟨i + 1, u, hu, hterm, by omega, ?_, fun j v hv hj => ?_⟩
      · rw [heq, show cur + 1 + i = cur + (i + 1) by omega]
      · obtain ⟨j, rfl⟩ : ∃ m, j = m + 1 := ⟨j - 1, by omega⟩
        exact hlast j v hv (by omega)

omit [Inhabited C] in
/-- The term of the first entry found is a term of some entry above the dummy. -/
theorem exists_of_getTermFirstEntry {rf : Raft n C} {term : ℤ}
    (h : rf.getTermFirstEntry term ≠ -1) :
    ∃ (i : ℕ) (v : LogValue C), rf.log[i]? = some v ∧ i ≠ 0 ∧ v.term = term := by
  unfold Raft.getTermFirstEntry at h
  cases hfind : (rf.log.drop 1).findIdx? (fun w => w.term == term) with
  | none =>
    rw [hfind] at h
    exact absurd rfl h
  | some k =>
    obtain ⟨hk, hterm, -⟩ := List.findIdx?_eq_some_iff_getElem.mp hfind
    refine ⟨k + 1, (rf.log.drop 1)[k], ?_, by omega, by simpa using hterm⟩
    rw [← List.getElem?_eq_getElem hk, List.getElem?_drop, Nat.add_comm]

omit [Inhabited C] in
/-- After a rejection `nextIndex` is set back within the leader's log. -/
theorem backUp_bounds {rf : Raft n C} (h : MemRel a p rf) {resp : AppendEntriesResponse} {prev : ℤ}
    (hprev : prev ≤ (a.log p).length)
    (hlong : resp.xTerm = -1 → 1 ≤ resp.xLen ∧ resp.xLen ≤ prev)
    (hconflict : resp.xTerm ≠ -1 → 0 ≤ resp.xIndex ∧ resp.xIndex ≤ prev) :
    1 ≤ rf.backUp resp ∧ rf.backUp resp ≤ (a.log p).length + 1 := by
  have hnn := h.view.nonneg
  have hlen := h.view.length
  unfold Raft.backUp
  by_cases hx : resp.xTerm = -1
  · rw [if_pos hx]
    have := hlong hx
    omega
  have hbounds := hconflict hx
  rw [if_neg hx]
  by_cases hfirst : rf.getTermFirstEntry resp.xTerm = -1
  · rw [if_pos hfirst]
    split_ifs <;> omega
  rw [if_neg hfirst]
  rcases lastWithTerm_spec resp.xTerm 0 rf.log (-1) with ⟨-, hnone⟩ | ⟨i, w, hw, -, hne, heq, -⟩
  · obtain ⟨i, v, hv, hi, hterm⟩ := exists_of_getTermFirstEntry hfirst
    exact absurd hterm (hnone i v hv (by omega))
  · have hi := (List.getElem?_eq_some_iff.mp hw).1
    simp only [heq]
    rw [if_pos (by omega)]
    push_cast
    omega

/-- A reply to `AppendEntries` at a leader in the term of the call. -/
theorem appendReply_leader_rel (hr : TermLogProtocol.Reached LogValue.term a) (h : ProcRel a p pr)
    (hrole : pr.rf.currentRole = .leader) {call : Call n C} {args : AppendEntriesRequest C}
    {resp : AppendEntriesResponse} (hreq : call.req = .appendEntries args)
    (hcall : CallRel a pr.rf call) (hsaved : call.savedTerm = pr.rf.currentTerm)
    (hrep : ReplyRel a p call (.appendEntries resp)) (hterm : ¬ pr.rf.currentTerm < resp.term)
    {rf : Raft n C} (hres : appendReply pr.rf call.server call.savedTerm args resp = some rf) :
    ProcRel a p { pr with rf := rf } ∧ rf.persister = pr.rf.persister := by
  obtain ⟨id, server, saved, req⟩ := call
  subst hreq
  obtain ⟨-, hargs, hprev, hlast⟩ := hcall
  obtain ⟨hsucc, hlong, hconflict⟩ := hrep
  have hmem := h.peer.toMemRel
  have hleads := hmem.leads hrole
  simp only at hsaved
  rw [hargs, hsaved, hleads.leaderLog hr] at hlast
  rw [hargs, hsaved, hleads.term] at hsucc
  have hmatch := hleads.match_le hmem hr
  unfold appendReply at hres
  rw [if_neg (not_not.mpr hrole), if_neg (not_not.mpr hsaved), if_neg hterm] at hres
  by_cases hs : resp.success = true
  · rw [if_pos hs] at hres
    have hleads' := hleads.withIndices
      (Function.update pr.rf.nextIndex server
        (max (pr.rf.matchIndex server) (args.prevLogIndex + args.entries.length) + 1))
      (Function.update (Function.update pr.rf.matchIndex server
        (max (pr.rf.matchIndex server) (args.prevLogIndex + args.entries.length))) pr.rf.me
        (pr.rf.lastIncludedIndex + (pr.rf.log.length - 1))) ?_ ?_
    · exact advanceCommit_rel hr (h.withIndices hrole hleads') hrole hres
    · intro q
      rw [Function.update_apply]
      have := hmatch server
      split_ifs
      · omega
      · exact hleads.next q
    · intro q
      rw [Function.update_apply, Function.update_apply, hmem.me]
      have hlen := hmem.view.length
      split_ifs with hme hserver
      · subst hme
        exact Or.inr ⟨_, by omega, hleads.ownAck⟩
      · subst hserver
        rcases le_total (args.prevLogIndex + args.entries.length) (pr.rf.matchIndex q) with
          hle | hle
        · rw [max_eq_left hle]
          exact hleads.matched q
        · rw [max_eq_right hle]
          exact Or.inr ⟨_, by omega, hsucc hs⟩
      · exact hleads.matched q
  · rw [if_neg hs, Option.some.injEq] at hres
    subst hres
    have hf : resp.success = false := by simpa using hs
    have hback := backUp_bounds hmem (show args.prevLogIndex ≤ _ by omega) (hlong hf) (hconflict hf)
    refine ⟨h.withIndices hrole
      (hleads.withIndices _ pr.rf.matchIndex (fun q => ?_) hleads.matched), rfl⟩
    rw [Function.update_apply]
    split_ifs
    · exact hback
    · exact hleads.next q

/-- The goroutine of an `AppendEntries` call goes on with the reply. -/
theorem appendReply_answers (hr : TermLogProtocol.Reached LogValue.term a) (h : ProcRel a p pr)
    {call : Call n C} (hmem : call ∈ pr.calls) {args : AppendEntriesRequest C}
    {resp : AppendEntriesResponse} (hreq : call.req = .appendEntries args)
    (hrep : ReplyRel a p call (.appendEntries resp)) {rf : Raft n C}
    (hres : appendReply pr.rf call.server call.savedTerm args resp = some rf) :
    ∃ b, Answers p [] a b pr { pr.finish call.id with rf := rf } := by
  have hfin := h.finish call.id
  have hidle : Answers p [] a a pr (pr.finish call.id) := Answers.idle h hfin rfl
  by_cases hrole : pr.rf.currentRole = .leader
  · by_cases hsaved : call.savedTerm = pr.rf.currentTerm
    · by_cases hterm : pr.rf.currentTerm < resp.term
      · rw [appendReply, if_neg (not_not.mpr hrole), if_neg (not_not.mpr hsaved), if_pos hterm,
          Option.some.injEq] at hres
        subst hres
        exact ⟨_, hidle.trans (follow_answers hr hfin hterm)⟩
      · obtain ⟨hproc, hps⟩ := appendReply_leader_rel hr hfin hrole hreq (h.calls call hmem) hsaved
          hrep hterm hres
        exact ⟨a, Answers.idle h hproc hps⟩
    · rw [appendReply, if_neg (not_not.mpr hrole), if_pos hsaved, Option.some.injEq] at hres
      subst hres
      exact ⟨a, hidle⟩
  · rw [appendReply, if_pos hrole, Option.some.injEq] at hres
    subst hres
    exact ⟨a, hidle⟩

/-- The goroutine of an `InstallSnapshot` call goes on with the reply. -/
theorem installReply_answers (hr : TermLogProtocol.Reached LogValue.term a) (h : ProcRel a p pr)
    {call : Call n C} (hmem : call ∈ pr.calls) {args : InstallSnapshotRequest C}
    (resp : InstallSnapshotResponse) (hreq : call.req = .installSnapshot args) :
    ∃ b, Answers p [] a b pr { pr.finish call.id with
      rf := installReply pr.rf call.server call.savedTerm args resp } := by
  have hfin := h.finish call.id
  have hidle : Answers p [] a a pr (pr.finish call.id) := Answers.idle h hfin rfl
  unfold installReply
  split_ifs with hrole hsaved hterm
  · exact ⟨a, hidle⟩
  · exact ⟨a, hidle⟩
  · exact ⟨_, hidle.trans (follow_answers hr hfin hterm)⟩
  · have hrole := not_not.mp hrole
    have hleads := h.peer.leads hrole
    have hvle := h.peer.view.le
    obtain ⟨-, hcall⟩ := h.calls call hmem
    rw [hreq] at hcall
    obtain ⟨-, hnn, hle⟩ := hcall
    refine ⟨a, Answers.idle h (hfin.withIndices hrole
      (hleads.withIndices _ _ (fun q => ?_) (fun q => ?_))) rfl⟩
    · rw [Function.update_apply]
      split_ifs
      · omega
      · exact hleads.next q
    · rw [Function.update_apply]
      split_ifs
      · exact Or.inl hle
      · exact hleads.matched q

end DistributedLabs.RaftRefinement
