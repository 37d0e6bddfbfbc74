import DistributedLabs.RaftIndices
import DistributedLabs.RaftPersistence

/-!
# Compaction is transparent

`Snapshot` moves the dummy of a log to a later index. Every handler computes its positions
from `lastIncludedIndex`, so a compacted peer reads the same entries above the snapshot, and
it votes, starts commands and answers `AppendEntries` as it would have before. The dummy has
the term of the entry it replaces, which the last log term needs when nothing else is left.
-/

namespace DistributedLabs.RaftCompaction

open RaftPeer RaftCluster RaftRefinement RaftSafety RaftIndices RaftPersistence TransitionRuns
  Relation

variable {n : ℕ} {C : Type*}

section Cutting

/-- The slice `log'` is `log` with a new dummy in the place of the first `k + 1` entries. -/
def Cut (k : ℕ) (log log' : List (LogValue C)) : Prop :=
  k < log.length ∧ ∃ d, log' = d :: log.drop (k + 1)

variable {k : ℕ} {log log' : List (LogValue C)}

theorem Cut.length (h : Cut k log log') : log'.length + k = log.length := by
  obtain ⟨hk, d, rfl⟩ := h
  simp only [List.length_cons, List.length_drop]
  omega

theorem Cut.getElem? (h : Cut k log log') {m : ℕ} (hm : 0 < m) : log'[m]? = log[k + m]? := by
  obtain ⟨-, d, rfl⟩ := h
  obtain ⟨m, rfl⟩ : ∃ m', m = m' + 1 := ⟨m - 1, by omega⟩
  rw [List.getElem?_cons_succ, List.getElem?_drop]
  congr 1
  omega

theorem Cut.append (h : Cut k log log') (es : List (LogValue C)) :
    Cut k (log ++ es) (log' ++ es) := by
  obtain ⟨hk, d, rfl⟩ := h
  refine ⟨by rw [List.length_append]; omega, d, ?_⟩
  rw [List.drop_append_of_le_length hk]
  rfl

theorem Cut.take (h : Cut k log log') (m : ℕ) :
    Cut k (log.take (k + m + 1)) (log'.take (m + 1)) := by
  obtain ⟨hk, d, rfl⟩ := h
  refine ⟨by rw [List.length_take]; omega, d, ?_⟩
  rw [List.take_succ_cons, List.drop_take]
  congr 2
  omega

/-- The loop of `AppendEntries` does not see what was cut off. -/
theorem Cut.merge (h : Cut k log log') (es : List (LogValue C)) (m : ℕ) :
    Cut k (mergeEntries log (k + m + 1) es) (mergeEntries log' (m + 1) es) := by
  induction es generalizing m with
  | nil => exact h
  | cons e rest ih =>
    have hread : log'[m + 1]? = log[k + m + 1]? := h.getElem? m.succ_pos
    rw [mergeEntries, mergeEntries, hread]
    cases hv : log[k + m + 1]? with
    | none => exact h.append (e :: rest)
    | some v =>
      by_cases hterm : e.term = v.term
      · simp only [ne_eq, hterm, not_true_eq_false, if_false]
        exact ih (m + 1)
      · simp only [ne_eq, hterm, not_false_eq_true, if_true]
        exact (h.take m).append (e :: rest)

end Cutting

section Peers

/-- The peer `rf'` is `rf` with `k` more entries below its snapshot. -/
structure Compacted (k : ℕ) (rf rf' : Raft n C) : Prop where
  pos : 0 < k
  cut : Cut k rf.log rf'.log
  lii : rf'.lastIncludedIndex = rf.lastIncludedIndex + k
  lit : rf'.lastIncludedTerm = rf.termAt k
  term : rf'.currentTerm = rf.currentTerm
  vote : rf'.votedFor = rf.votedFor
  role : rf'.currentRole = rf.currentRole
  commit : rf'.commitIndex = rf.commitIndex

def AgreeAbove (i : ℤ) (rf rf' : Raft n C) : Prop :=
  ∀ j > i, ∀ v, Holds rf' j v ↔ Holds rf j v

variable {k : ℕ} {rf rf' : Raft n C}

theorem agreeAbove_of_cut (hcut : Cut k rf.log rf'.log)
    (hlii : rf'.lastIncludedIndex = rf.lastIncludedIndex + k) {i : ℤ}
    (hi : rf'.lastIncludedIndex = i) : AgreeAbove i rf rf' := by
  subst hi
  intro j hj v
  have hread := hcut.getElem? (m := (j - rf'.lastIncludedIndex).toNat) (by omega)
  rw [show k + (j - rf'.lastIncludedIndex).toNat =
    (j - rf.lastIncludedIndex).toNat by omega] at hread
  unfold Holds Raft.convertLogicalToPhysical at?
  rw [if_pos (by omega), if_pos (by omega), hread]
  exact and_congr_left' ⟨fun _ => by omega, fun _ => hj⟩

namespace Compacted

variable (h : Compacted k rf rf')

include h

theorem termAt {i : ℤ} (hi : 0 < i) : rf'.termAt i = rf.termAt (i + k) := by
  unfold Raft.termAt
  rw [h.cut.getElem? (by omega), show k + i.toNat = (i + k).toNat by omega]

theorem lastLogIndex : rf'.lastLogIndex = rf.lastLogIndex := by
  have hlen := h.cut.length
  have hlii := h.lii
  unfold Raft.lastLogIndex
  omega

/-- When nothing is left above the snapshot, its term is that of the last entry. -/
theorem lastLogTerm : rf'.lastLogTerm = rf.lastLogTerm := by
  have hlen := h.cut.length
  have hk := h.cut.1
  have hpos := h.pos
  unfold Raft.lastLogTerm
  rw [if_pos (show 1 < rf.log.length by omega)]
  split_ifs with hlong
  · rw [h.termAt (by omega)]
    congr 1
    omega
  · rw [h.lit]
    congr 1
    omega

theorem requestVote (args : RequestVoteArgs) :
    (RaftPeer.requestVote rf' args).2 = (RaftPeer.requestVote rf args).2 ∧
      (RaftPeer.requestVote rf' args).1.currentTerm = (RaftPeer.requestVote rf args).1.currentTerm ∧
      (RaftPeer.requestVote rf' args).1.votedFor = (RaftPeer.requestVote rf args).1.votedFor := by
  have hindex := h.lastLogIndex
  have hterm := h.lastLogTerm
  have hcast : ∀ (r r' : Raft n C) (reply : RequestVoteReply), r'.votedFor = r.votedFor →
      r'.currentTerm = r.currentTerm → r'.lastLogTerm = r.lastLogTerm →
      r'.lastLogIndex = r.lastLogIndex →
      (castVote r' args reply).2 = (castVote r args reply).2 ∧
        (castVote r' args reply).1.currentTerm = (castVote r args reply).1.currentTerm ∧
        (castVote r' args reply).1.votedFor = (castVote r args reply).1.votedFor := by
    intro r r' reply hv ht hlt hli
    unfold castVote
    rw [hv, hlt, hli]
    split_ifs
    · exact ⟨rfl, ht, hv⟩
    · exact ⟨rfl, ht, hv⟩
    · exact ⟨rfl, ht, hv⟩
    · exact ⟨rfl, ht, rfl⟩
  rw [requestVote_eq, requestVote_eq, h.term]
  split_ifs
  · exact ⟨rfl, h.term, h.vote⟩
  · exact hcast _ _ _ rfl rfl hterm hindex
  · exact hcast _ _ _ h.vote h.term hterm hindex

theorem start (command : C) :
    (RaftPeer.start rf' command).2 = (RaftPeer.start rf command).2 := by
  have hlen := h.cut.length
  have hlii := h.lii
  unfold RaftPeer.start
  rw [h.role, h.term]
  split_ifs
  · rfl
  · simp only [Prod.mk.injEq, and_true]
    omega

theorem observeTerm (T : ℤ) : Compacted k (rf.observeTerm T) (rf'.observeTerm T) := by
  unfold Raft.observeTerm
  rw [h.term]
  split_ifs
  · exact ⟨h.pos, h.cut, h.lii, h.lit, rfl, rfl, rfl, h.commit⟩
  · exact h

/-- Above the snapshot the checks of `AppendEntries` come out the same. At its own index the
compacted peer makes none. -/
theorem failsCheck {args : AppendEntriesRequest C}
    (hprev : rf'.lastIncludedIndex ≤ args.prevLogIndex) :
    (FailsCheck rf' args → FailsCheck rf args) ∧
      (rf'.lastIncludedIndex < args.prevLogIndex → FailsCheck rf args → FailsCheck rf' args) := by
  have hlen := h.cut.length
  have hlii := h.lii
  unfold FailsCheck Raft.convertLogicalToPhysical
  have hterm : rf'.lastIncludedIndex < args.prevLogIndex →
      rf'.termAt (args.prevLogIndex - rf'.lastIncludedIndex) =
        rf.termAt (args.prevLogIndex - rf.lastIncludedIndex) := by
    intro hlt
    rw [h.termAt (by omega)]
    congr 1
    omega
  constructor
  · rintro (hlow | hlong | ⟨hpos, hne⟩)
    · omega
    · exact Or.inr (Or.inl (by omega))
    · exact Or.inr (Or.inr ⟨by omega, hterm (by omega) ▸ hne⟩)
  · rintro hlt (hlow | hlong | ⟨hpos, hne⟩)
    · omega
    · exact Or.inr (Or.inl (by omega))
    · exact Or.inr (Or.inr ⟨by omega, (hterm hlt).symm ▸ hne⟩)

/-- Accepted entries end up in the same places. -/
theorem acceptEntries {args : AppendEntriesRequest C}
    (hprev : rf'.lastIncludedIndex ≤ args.prevLogIndex) :
    AgreeAbove rf'.lastIncludedIndex (RaftRefinement.acceptEntries rf args)
      (RaftRefinement.acceptEntries rf' args) ∧
    (RaftRefinement.acceptEntries rf' args).commitIndex =
      (RaftRefinement.acceptEntries rf args).commitIndex := by
  have hlii := h.lii
  have hcut := h.cut.merge args.entries (args.prevLogIndex - rf'.lastIncludedIndex).toNat
  rw [show k + (args.prevLogIndex - rf'.lastIncludedIndex).toNat + 1 =
    (args.prevLogIndex - rf.lastIncludedIndex).toNat + 1 by omega] at hcut
  have hlen := hcut.length
  unfold RaftRefinement.acceptEntries Raft.convertLogicalToPhysical
  dsimp only
  rw [h.commit]
  refine ⟨?_, ?_⟩
  · split_ifs
    · refine agreeAbove_of_cut (k := k) ?_ ?_ rfl
      · exact hcut
      · exact hlii
    · refine agreeAbove_of_cut (k := k) ?_ ?_ rfl
      · exact hcut
      · exact hlii
  · split_ifs
    · dsimp only
      congr 1
      omega
    · rfl

end Compacted

/-- What is accepted before the compaction is accepted after it, with the same result. -/
theorem Compacted.appendEntries_success (h : Compacted k rf rf') {args : AppendEntriesRequest C}
    (hprev : rf'.lastIncludedIndex ≤ args.prevLogIndex)
    (hsucc : (appendEntries rf args).2.success = true) :
    (appendEntries rf' args).2.success = true ∧
      AgreeAbove rf'.lastIncludedIndex (appendEntries rf args).1 (appendEntries rf' args).1 ∧
      (appendEntries rf' args).1.commitIndex = (appendEntries rf args).1.commitIndex := by
  obtain ⟨hstale, hcheck⟩ := appendEntries_success_iff.mp hsucc
  have hsucc' : (appendEntries rf' args).2.success = true :=
    appendEntries_success_iff.mpr
      ⟨h.term ▸ hstale, fun hfails => hcheck ((h.failsCheck hprev).1 hfails)⟩
  have hobserved := observeTerm_lastIncludedIndex rf' args.term
  obtain ⟨hagree, hcommit⟩ := (h.observeTerm args.term).acceptEntries (hobserved.symm ▸ hprev)
  rw [hobserved] at hagree
  rw [appendEntries_of_success hsucc, appendEntries_of_success hsucc']
  exact ⟨hsucc', hagree, hcommit⟩

theorem Compacted.appendEntries_rejects (h : Compacted k rf rf') {args : AppendEntriesRequest C}
    (hprev : rf'.lastIncludedIndex < args.prevLogIndex)
    (hfail : (appendEntries rf args).2.success = false) :
    (appendEntries rf' args).2.success = false := by
  rw [← Bool.not_eq_true, appendEntries_success_iff] at hfail ⊢
  rintro ⟨hstale, hcheck⟩
  exact hfail ⟨h.term ▸ hstale, fun hfails => hcheck ((h.failsCheck hprev.le).2 hprev hfails)⟩

end Peers

variable [Inhabited C]

/-- `Snapshot` at an index that was applied compacts the log. -/
theorem snapshot_compacts {rf : Raft n C} (hb : Bounded rf) {i : ℤ}
    (hlow : rf.lastIncludedIndex < i) (hhigh : i ≤ rf.lastApplied) (data : List C) :
    ∃ rf', snapshot rf i data = some rf' ∧ Compacted (i - rf.lastIncludedIndex).toNat rf rf' ∧
      rf'.lastIncludedIndex = i ∧ rf'.lastApplied = rf.lastApplied ∧
      ∃ v, Holds rf i v ∧ v.term = rf'.lastIncludedTerm := by
  have happlied := hb.applied_le
  have hcommit := hb.commit_le
  obtain ⟨v, hv⟩ := Option.isSome_iff_exists.mp
    (at?_isSome (l := rf.log) (i := i - rf.lastIncludedIndex) (by omega) (by omega))
  have hget : rf.log[(i - rf.lastIncludedIndex).toNat]? = some v := by
    rwa [at?, if_pos (by omega)] at hv
  refine ⟨_, by
      simp only [snapshot, if_neg (not_le.mpr hlow), Raft.convertLogicalToPhysical, hv]; rfl,
    ?_, rfl, max_eq_left hhigh, v, ⟨hlow, hv⟩, rfl⟩
  refine ⟨by omega, ⟨by omega, _, rfl⟩, ?_, ?_, rfl, rfl, rfl, max_eq_left (hhigh.trans happlied)⟩
  · change i = _
    omega
  · change v.term = _
    rw [Raft.termAt, Int.toNat_natCast, hget]
    rfl

/-- Compaction is transparent. `Snapshot` at an index that was applied keeps every entry above
it, the commit index and the applied index. Afterwards every `RequestVote` is answered the same
and leaves the same term and vote, `Start` returns the same, and every `AppendEntries` that
starts above the snapshot is answered the same, and, where it starts at the snapshot's own
index, is accepted if it was before. Accepted entries have the same effect above the snapshot. -/
theorem compaction_transparent {s : Cluster n C} (hs : RaftCluster.Reached s) (p : Fin n) {i : ℤ}
    (hlow : (s.procs p).rf.lastIncludedIndex < i) (hhigh : i ≤ (s.procs p).rf.lastApplied)
    (data : List C) :
    ∃ rf', snapshot (s.procs p).rf i data = some rf' ∧ AgreeAbove i (s.procs p).rf rf' ∧
      (∃ v, Holds (s.procs p).rf i v ∧ v.term = rf'.lastIncludedTerm) ∧
      rf'.commitIndex = (s.procs p).rf.commitIndex ∧ rf'.lastApplied = (s.procs p).rf.lastApplied ∧
      (∀ args, (requestVote rf' args).2 = (requestVote (s.procs p).rf args).2 ∧
        (requestVote rf' args).1.currentTerm = (requestVote (s.procs p).rf args).1.currentTerm ∧
        (requestVote rf' args).1.votedFor = (requestVote (s.procs p).rf args).1.votedFor) ∧
      (∀ command, (start rf' command).2 = (start (s.procs p).rf command).2) ∧
      (∀ args, i ≤ args.prevLogIndex → (appendEntries (s.procs p).rf args).2.success = true →
        (appendEntries rf' args).2.success = true ∧
        AgreeAbove i (appendEntries (s.procs p).rf args).1 (appendEntries rf' args).1 ∧
        (appendEntries rf' args).1.commitIndex =
          (appendEntries (s.procs p).rf args).1.commitIndex) ∧
      ∀ args, i < args.prevLogIndex → (appendEntries (s.procs p).rf args).2.success = false →
        (appendEntries rf' args).2.success = false := by
  obtain ⟨a, -, ha⟩ := simulation.reachable hs
  have hb := bounded_of_rel ha.reached (ha.proc p).peer
  obtain ⟨rf', hsnap, hc, rfl, happlied, hterm⟩ := snapshot_compacts hb hlow hhigh data
  exact ⟨rf', hsnap, agreeAbove_of_cut hc.cut hc.lii rfl, hterm, hc.commit, happlied,
    hc.requestVote,
    hc.start, fun args => hc.appendEntries_success, fun args => hc.appendEntries_rejects⟩

theorem compaction_transparent_first : ∃ s : Cluster 2 ℕ, RaftCluster.Reached s ∧
    (s.procs 0).rf.lastIncludedIndex = 0 ∧ (s.procs 0).rf.lastApplied = 2 ∧
    (s.procs 0).rf.commitIndex = 2 ∧ ∃ rf', snapshot (s.procs 0).rf 1 [7] = some rf' ∧
      rf'.commitIndex = 2 ∧ AgreeAbove 1 (s.procs 0).rf rf' ∧
      ∀ command, (start rf' command).2 = (start (s.procs 0).rf command).2 := by
  obtain ⟨s, hs, htest⟩ := Cluster.exists_of_run
    (show ((initial : Cluster 2 ℕ).run commitRun).any (fun s => decide
      ((s.procs 0).rf.lastIncludedIndex = 0 ∧ (s.procs 0).rf.lastApplied = 2 ∧
        (s.procs 0).rf.commitIndex = 2)) = true by decide +kernel)
  obtain ⟨hlii, happlied, hcommit⟩ := of_decide_eq_true htest
  obtain ⟨rf', hsnap, hagree, -, hcommit', -, -, hstart, -⟩ :=
    compaction_transparent (reached_of_steps hs) 0 (i := 1) (by omega) (by omega) [7]
  exact ⟨s, reached_of_steps hs, hlii, happlied, hcommit, rf', hsnap,
    hcommit'.trans hcommit, hagree,
    hstart⟩

end DistributedLabs.RaftCompaction
