import DistributedLabs.RaftBackup
import DistributedLabs.RaftRounds

/-!
# Whether a follower catches up

A rejected `AppendEntries` sets `nextIndex` back, and never behind the follower's snapshot,
as long as it started in front of it. From there every round makes progress until one
succeeds. Once `nextIndex` is behind a snapshot that the leader does not have, the rounds
go in a circle: the follower rejects the entries as stale and an older snapshot as well,
and the leader learns nothing from either.
-/

namespace DistributedLabs.RaftCatchUp

open RaftPeer RaftCluster RaftRefinement RaftLogView RaftSafety RaftIndices RaftRounds
  RaftPeerSteps RaftBackup TermLogProtocol TransitionRuns Relation LogPrefixes

variable {n : ℕ} {C : Type*} {a : Proto n C} {p q : Fin n} {l f : Raft n C}

inductive Progress (q : Fin n) (l f l' f' : Raft n C) : Reply → Prop
  | success {resp : AppendEntriesResponse} (hsucc : resp.success = true)
      (hfront : f.lastIncludedIndex < l.nextIndex q)
      (hmatch : l'.matchIndex q = l'.lastLogIndex) : Progress q l f l' f' (.appendEntries resp)
  | rejected {resp : AppendEntriesResponse} (hfail : resp.success = false)
      (hfront : f.lastIncludedIndex < l.nextIndex q)
      (hkept : f'.lastIncludedIndex = f.lastIncludedIndex)
      (hlow : f.lastIncludedIndex < l'.nextIndex q) (hback : l'.nextIndex q < l.nextIndex q) :
      Progress q l f l' f' (.appendEntries resp)
  | stale {resp : AppendEntriesResponse} (hfail : resp.success = false)
      (habove : l.lastIncludedIndex < l.nextIndex q)
      (hbehind : l.nextIndex q ≤ f.lastIncludedIndex)
      (hkept : f'.lastIncludedIndex = f.lastIncludedIndex) (hnext : l'.nextIndex q = 1) :
      Progress q l f l' f' (.appendEntries resp)
  | installed {resp : InstallSnapshotResponse}
      (hle : f.lastIncludedIndex ≤ l.lastIncludedIndex)
      (hbehind : l.nextIndex q ≤ l.lastIncludedIndex)
      (hlii : f'.lastIncludedIndex = l.lastIncludedIndex)
      (hnext : l'.nextIndex q = l.lastIncludedIndex + 1) :
      Progress q l f l' f' (.installSnapshot resp)
  | ignored {resp : InstallSnapshotResponse} (hlt : l.lastIncludedIndex < f.lastIncludedIndex)
      (hbehind : l.nextIndex q ≤ l.lastIncludedIndex)
      (hkept : f'.lastIncludedIndex = f.lastIncludedIndex)
      (hnext : l'.nextIndex q = l.lastIncludedIndex + 1) :
      Progress q l f l' f' (.installSnapshot resp)

structure Steady (l f l' f' : Raft n C) : Prop where
  role : l'.currentRole = l.currentRole
  term : l'.currentTerm = l.currentTerm
  lii : l'.lastIncludedIndex = l.lastIncludedIndex
  peer : f.currentTerm ≤ l.currentTerm → f'.currentTerm ≤ l.currentTerm

section Install

variable [Inhabited C]

/-- The reply to a snapshot never announces a term above both. -/
theorem installSnapshotHandler_reply (f : Raft n C) (args : InstallSnapshotRequest C) {T : ℤ}
    (hf : f.currentTerm ≤ T) (hT : 0 ≤ T) : (installSnapshotHandler f args).2.term ≤ T := by
  unfold installSnapshotHandler
  split_ifs
  · exact hf
  · exact hT
  · exact hT

theorem installSnapshotHandler_term (f : Raft n C) (args : InstallSnapshotRequest C)
    (hf : f.currentTerm ≤ args.term) :
    (installSnapshotHandler f args).1.currentTerm ≤ args.term := by
  rw [installSnapshotHandler_eq]
  split_ifs
  · exact hf
  · exact le_rfl
  · exact hf

omit [Inhabited C] in
theorem installReply_accepts {args : InstallSnapshotRequest C} {resp : InstallSnapshotResponse}
    (hrole : l.currentRole = .leader) (hresp : resp.term ≤ l.currentTerm) :
    installReply l q l.currentTerm args resp = { l with
      nextIndex := Function.update l.nextIndex q (args.lastIncludedIndex + 1)
      matchIndex := Function.update l.matchIndex q args.lastIncludedIndex } := by
  rw [installReply, if_neg (not_not.mpr hrole), if_neg (not_not.mpr rfl), if_neg (not_lt.mpr hresp)]

/-- A round in which the leader offers its snapshot. -/
theorem exchange_install (hrole : l.currentRole = .leader) (hT : 0 ≤ l.currentTerm)
    (hf : f.currentTerm ≤ l.currentTerm) (hnext : l.nextIndex q ≤ l.lastIncludedIndex) :
    ∃ l' f' rep, exchange q l f = some (l', f', rep) ∧ Steady l f l' f' ∧
      Progress q l f l' f' rep := by
  obtain ⟨args, hreq, hterm, hlii⟩ : ∃ args : InstallSnapshotRequest C,
      routineRequest l q = some (.installSnapshot args) ∧ args.term = l.currentTerm ∧
        args.lastIncludedIndex = l.lastIncludedIndex := by
    rw [routineRequest, if_pos hnext]
    exact ⟨_, rfl, rfl, rfl⟩
  have hreply := installSnapshotHandler_reply f args hf hT
  refine ⟨_, _, _, by rw [exchange, hreq, Option.bind_some], ?_, ?_⟩
  · rw [installReply_accepts hrole hreply]
    exact ⟨rfl, rfl, rfl, fun _ => hterm ▸ installSnapshotHandler_term f args (hterm ▸ hf)⟩
  · rw [installReply_accepts hrole hreply]
    rcases lt_or_ge l.lastIncludedIndex f.lastIncludedIndex with hlt | hge
    · refine .ignored hlt hnext ?_ ?_
      · rw [installSnapshotHandler_eq, if_pos (Or.inr (hlii ▸ hlt))]
      · rw [← hlii]
        exact Function.update_self _ _ _
    · refine .installed hge hnext ?_ ?_
      · rw [installSnapshotHandler_eq, if_neg (by rw [hterm, hlii]; omega), ← hlii]
        split_ifs <;> rfl
      · rw [← hlii]
        exact Function.update_self _ _ _

end Install

section Append

theorem appendEntries_success {args : AppendEntriesRequest C}
    (h : (appendEntries f args).2.success = true) : f.lastIncludedIndex ≤ args.prevLogIndex := by
  rw [appendEntries_eq] at h
  unfold answerEntries at h
  dsimp only at h
  split_ifs at h with hstale hlow
  rw [← observeTerm_lastIncludedIndex f args.term]
  exact not_lt.mp hlow

/-- Success brings the match index to the end of the batch, which is the end of the log. -/
theorem appendReply_success (hb : Bounded l) (hq : q ≠ l.me) {args : AppendEntriesRequest C}
    {resp : AppendEntriesResponse} (hrole : l.currentRole = .leader)
    (hresp : resp.term = l.currentTerm) (hsucc : resp.success = true)
    (hend : args.prevLogIndex + args.entries.length = l.lastLogIndex) :
    ∃ l', appendReply l q l.currentTerm args resp = some l' ∧ l'.currentRole = l.currentRole ∧
      l'.currentTerm = l.currentTerm ∧ l'.lastIncludedIndex = l.lastIncludedIndex ∧
      l'.matchIndex q = l'.lastLogIndex := by
  have hmatched := hb.matched hrole q
  obtain ⟨l', hl'⟩ := Option.isSome_iff_exists.mp
    (hb.appendReply_isSome q resp fun _ (_ : l.currentTerm = l.currentTerm) => hend.le)
  refine ⟨l', hl', ?_⟩
  rw [appendReply, if_neg (not_not.mpr hrole), if_neg (not_not.mpr rfl), if_neg (by omega),
    if_pos hsucc] at hl'
  obtain ⟨c, rfl⟩ := advanceCommit_eq hl'
  refine ⟨rfl, rfl, rfl, ?_⟩
  change Function.update (Function.update l.matchIndex q _) l.me _ q = l.lastLogIndex
  rw [Function.update_of_ne hq, Function.update_self, hend]
  exact max_eq_right hmatched

/-- The leader's request for a peer, as long as it has the entries. -/
theorem routineRequest_append (hr : TermLogProtocol.Reached LogValue.term a) (h : MemRel a p l)
    (hrole : l.currentRole = .leader) (hq : q ≠ p) (hnext : l.lastIncludedIndex < l.nextIndex q) :
    ∃ args : AppendEntriesRequest C, routineRequest l q = some (.appendEntries args) ∧
      args.term = l.currentTerm ∧ args.prevLogIndex = l.nextIndex q - 1 ∧
      args.prevLogIndex + args.entries.length = l.lastLogIndex ∧
      (0 < args.prevLogIndex → ∀ v, (a.log p)[(args.prevLogIndex - 1).toNat]? = some v →
        v.term = args.prevLogTerm) := by
  have hleads := h.leads hrole
  obtain ⟨hnext1, hnext2⟩ := hleads.next q
  have hlen := h.view.length
  have hnn := h.view.nonneg
  obtain ⟨t, ht⟩ := Option.isSome_iff_exists.mp
    (at?_isSome (l := l.log) (i := l.nextIndex q - 1 - l.lastIncludedIndex) (by omega) (by omega))
  have hreq : routineRequest l q = some (.appendEntries {
      term := l.currentTerm
      leaderId := (l.me : ℕ)
      prevLogIndex := l.nextIndex q - 1
      prevLogTerm := t.term
      entries := l.log.drop (l.nextIndex q - l.lastIncludedIndex).toNat
      leaderCommit := l.commitIndex }) := by
    simp [routineRequest, Raft.convertLogicalToPhysical, not_le.mpr hnext, hnext1, ht]
  refine ⟨_, hreq, rfl, rfl, ?_, ?_⟩
  · dsimp only
    rw [Raft.lastLogIndex, List.length_drop]
    omega
  · obtain ⟨hrel, -⟩ := routineRequest_rel hr h hrole hq hreq 0
    obtain ⟨-, -, -, -, -, hterm, -⟩ := hrel
    rwa [hleads.leaderLog hr] at hterm

variable [Inhabited C]

/-- A round that ends in a rejection. -/
theorem exchange_rejected {args : AppendEntriesRequest C}
    (hreq : routineRequest l q = some (.appendEntries args)) (hrole : l.currentRole = .leader)
    (hterm : args.term = l.currentTerm) (hf : f.currentTerm ≤ args.term)
    (hfail : (appendEntries f args).2.success = false) :
    ∃ l', exchange q l f =
        some (l', (appendEntries f args).1, .appendEntries (appendEntries f args).2) ∧
      Steady l f l' (appendEntries f args).1 ∧
      l'.nextIndex q = l.backUp (appendEntries f args).2 := by
  obtain ⟨hresp, hpeer, -⟩ := appendEntries_standing hf
  refine ⟨{ l with nextIndex := Function.update l.nextIndex q (l.backUp (appendEntries f args).2) },
    ?_, ⟨rfl, rfl, rfl, fun _ => (hpeer.trans hterm).le⟩, Function.update_self _ _ _⟩
  simp [exchange, hreq, appendReply_rejected hrole (hresp.trans hterm) hfail]

/-- A round in which the leader sends entries. -/
theorem exchange_append (hr : TermLogProtocol.Reached LogValue.term a) (h : PeerRel a p l)
    (hrole : l.currentRole = .leader) (hfrel : PeerRel a q f) (hq : q ≠ p)
    (hf : f.currentTerm ≤ l.currentTerm) (hnext : l.lastIncludedIndex < l.nextIndex q) :
    ∃ l' f' rep, exchange q l f = some (l', f', rep) ∧ Steady l f l' f' ∧
      Progress q l f l' f' rep := by
  have hleads := h.leads hrole
  obtain ⟨args, hreq, hterm, hprev, hend, hprevTerm⟩ :=
    routineRequest_append hr h.toMemRel hrole hq hnext
  have hfT : f.currentTerm ≤ args.term := hterm ▸ hf
  obtain ⟨hresp, hpeer, hkept⟩ := appendEntries_standing hfT
  have hnn := hfrel.view.nonneg
  have hlen := hfrel.view.length
  have hle := hfrel.view.le
  by_cases hsucc : (appendEntries f args).2.success = true
  · obtain ⟨l', hl', hrole', hterm', hlii', hmatch⟩ := appendReply_success
      (bounded_of_rel hr h) (h.me.symm ▸ hq) hrole (hresp.trans hterm) hsucc hend
    have hlow := appendEntries_success hsucc
    refine ⟨l', (appendEntries f args).1, _, ?_, ⟨hrole', hterm', hlii', ?_⟩,
      .success hsucc (by omega) hmatch⟩
    · simp [exchange, hreq, hl']
    · exact fun _ => (hpeer.trans hterm).le
  have hfail : (appendEntries f args).2.success = false := by simpa using hsucc
  obtain ⟨l', hround, hsteady, hback⟩ := exchange_rejected hreq hrole hterm hfT hfail
  refine ⟨l', _, _, hround, hsteady, ?_⟩
  have hprevLe : args.prevLogIndex ≤ (a.log p).length := by
    have := (hleads.next q).2
    omega
  rcases backUp_rejected hr hr (Grows.refl a) h.toMemRel hleads hfrel hterm hprevLe hprevTerm hfT
    hfail with ⟨hlow, heq⟩ | ⟨hlow, hhint, hfloor, hback'⟩
  · refine .stale hfail hnext (by omega) hkept ?_
    rw [hback, heq]
    exact backUp_stale hr h.toMemRel _
  · exact .rejected hfail (by omega) hkept (by omega) (by omega)

end Append

variable [Inhabited C] {s : Cluster n C}

/-- The leader `p` of a reachable state, and a peer that has not seen a later term. -/
structure Linked (p q : Fin n) (s : Cluster n C) : Prop where
  reached : RaftCluster.Reached s
  role : (s.procs p).rf.currentRole = .leader
  term : (s.procs q).rf.currentTerm ≤ (s.procs p).rf.currentTerm

/-- Every round happens, and leads to such a state again. -/
theorem Linked.next (h : Linked p q s) (hq : q ≠ p) :
    ∃ t rep, exchange q (s.procs p).rf (s.procs q).rf =
        some ((t.procs p).rf, (t.procs q).rf, rep) ∧ Linked p q t ∧
      (t.procs p).rf.lastIncludedIndex = (s.procs p).rf.lastIncludedIndex ∧
      Progress q (s.procs p).rf (s.procs q).rf (t.procs p).rf (t.procs q).rf rep := by
  obtain ⟨a, -, ha⟩ := simulation.reachable h.reached
  have hpeer := (ha.proc p).peer
  have hT : 0 ≤ (s.procs p).rf.currentTerm := (ha.reached.ledger.term_nonneg p).trans hpeer.term_le
  obtain ⟨l', f', rep, hround, hsteady, hprogress⟩ : ∃ l' f' rep,
      exchange q (s.procs p).rf (s.procs q).rf = some (l', f', rep) ∧
        Steady (s.procs p).rf (s.procs q).rf l' f' ∧
        Progress q (s.procs p).rf (s.procs q).rf l' f' rep := by
    rcases le_or_gt ((s.procs p).rf.nextIndex q) (s.procs p).rf.lastIncludedIndex with hle | hgt
    · exact exchange_install h.role hT h.term hle
    · exact exchange_append ha.reached hpeer h.role (ha.proc q).peer hq h.term hgt
  obtain ⟨t, hrun, rfl, rfl⟩ := exchange_run ha h.role hq hround
  refine ⟨t, rep, hround, ⟨Reachable.trans h.reached hrun, hsteady.role.trans h.role, ?_⟩,
    hsteady.lii, hprogress⟩
  rw [hsteady.term]
  exact hsteady.peer h.term

/-- The leader can reach the peer: its snapshot is not older than the peer's, or its next
index for the peer is in front of the peer's snapshot. -/
def InFront (q : Fin n) (l f : Raft n C) : Prop :=
  f.lastIncludedIndex ≤ l.lastIncludedIndex ∨ f.lastIncludedIndex < l.nextIndex q

theorem converges_of_success {l f l' f' : Raft n C} {resp : AppendEntriesResponse}
    (hround : exchange q l f = some (l', f', .appendEntries resp))
    (hsucc : resp.success = true) (hmatch : l'.matchIndex q = l'.lastLogIndex) :
    Converges q l f := ⟨0, l, f, l', f', resp, rfl, hround, hsucc, hmatch⟩

/-- Once the snapshots are at one index and the next index is behind it, the next round
succeeds. -/
theorem converges_of_level (hq : q ≠ p) (h : Linked p q s)
    (hlii : (s.procs q).rf.lastIncludedIndex = (s.procs p).rf.lastIncludedIndex)
    (hnext : (s.procs p).rf.nextIndex q = (s.procs p).rf.lastIncludedIndex + 1) :
    Converges q (s.procs p).rf (s.procs q).rf := by
  obtain ⟨t, rep, hround, -, -, hprogress⟩ := h.next hq
  cases hprogress with
  | success hsucc hbefore hmatch => exact converges_of_success hround hsucc hmatch
  | rejected hfail hfront hkept hlow hback => omega
  | stale hfail habove hbehind hkept hnext' => omega
  | installed hle hbehind hlii' hnext' => omega
  | ignored hlt hbehind hkept hnext' => omega

theorem Linked.next_pos (h : Linked p q s) : 1 ≤ (s.procs p).rf.nextIndex q := by
  obtain ⟨a, -, ha⟩ := simulation.reachable h.reached
  exact (((ha.proc p).peer.leads h.role).next q).1

/-- With the next index in front of the peer's snapshot, every round that fails moves it
back and keeps it there, unless the leader comes to its own snapshot. -/
theorem converges_of_inFront (hq : q ≠ p) (h : Linked p q s)
    (hfront : InFront q (s.procs p).rf (s.procs q).rf) :
    Converges q (s.procs p).rf (s.procs q).rf := by
  -- strong induction on the next index
  induction hk : ((s.procs p).rf.nextIndex q).toNat using Nat.strong_induction_on
    generalizing s with
  | _ k ih =>
    obtain ⟨t, rep, hround, ht, hlii, hprogress⟩ := h.next hq
    have hpos := ht.next_pos
    unfold InFront at hfront
    cases hprogress with
    | success hsucc hbefore hmatch => exact converges_of_success hround hsucc hmatch
    | rejected hfail hbefore hkept hlow hback =>
      exact (ih _ (by omega) ht (Or.inr (hkept ▸ hlow)) rfl).head hround
    | stale hfail habove hbehind hkept hnext => omega
    | installed hle hbehind hlii' hnext =>
      exact (converges_of_level hq ht (hlii'.trans hlii.symm) (hlii ▸ hnext)).head hround
    | ignored hlt hbehind hkept hnext => omega

/-- Behind a snapshot that the leader does not have, a round changes nothing for good. -/
theorem Linked.stuck (h : Linked p q s) (hq : q ≠ p)
    (hbehind : ¬ InFront q (s.procs p).rf (s.procs q).rf) :
    ∃ t rep, exchange q (s.procs p).rf (s.procs q).rf =
        some ((t.procs p).rf, (t.procs q).rf, rep) ∧ Linked p q t ∧
      ¬ InFront q (t.procs p).rf (t.procs q).rf ∧
      ∀ resp, rep = .appendEntries resp → resp.success = false := by
  obtain ⟨t, rep, hround, ht, hlii, hprogress⟩ := h.next hq
  unfold InFront at hbehind
  have hstays : (t.procs q).rf.lastIncludedIndex = (s.procs q).rf.lastIncludedIndex →
      (t.procs p).rf.nextIndex q ≤ (s.procs q).rf.lastIncludedIndex →
      ¬ InFront q (t.procs p).rf (t.procs q).rf := by
    unfold InFront
    omega
  have hnn := h.next_pos
  cases hprogress with
  | success hsucc hbefore hmatch => omega
  | rejected hfail hbefore hkept hlow hback => omega
  | stale hfail habove hbehind' hkept hnext =>
    refine ⟨t, _, hround, ht, hstays hkept (by omega), ?_⟩
    rintro resp ⟨rfl⟩
    exact hfail
  | installed hle hbehind' hlii' hnext => omega
  | ignored hlt hbehind' hkept hnext =>
    refine ⟨t, _, hround, ht, hstays hkept (by omega), ?_⟩
    rintro resp ⟨⟩

/-- And so does any number of rounds. -/
theorem Linked.stuck_exchanges (h : Linked p q s) (hq : q ≠ p)
    (hbehind : ¬ InFront q (s.procs p).rf (s.procs q).rf) {k : ℕ} {l f : Raft n C}
    (hk : exchanges q k (s.procs p).rf (s.procs q).rf = some (l, f)) :
    ∃ t, (t.procs p).rf = l ∧ (t.procs q).rf = f ∧ Linked p q t ∧
      ¬ InFront q (t.procs p).rf (t.procs q).rf := by
  induction k generalizing s with
  | zero =>
    obtain ⟨rfl, rfl⟩ : (s.procs p).rf = l ∧ (s.procs q).rf = f := by simpa [exchanges] using hk
    exact ⟨s, rfl, rfl, h, hbehind⟩
  | succ k ih =>
    obtain ⟨t, rep, hround, ht, hstill, -⟩ := h.stuck hq hbehind
    rw [exchanges, hround, Option.bind_some] at hk
    exact ih ht hstill hk

theorem not_converges (hq : q ≠ p) (h : Linked p q s)
    (hbehind : ¬ InFront q (s.procs p).rf (s.procs q).rf) :
    ¬ Converges q (s.procs p).rf (s.procs q).rf := by
  rintro ⟨k, l, f, l', f', resp, hk, hlast, hsucc, -⟩
  obtain ⟨t, rfl, rfl, ht, hstill⟩ := h.stuck_exchanges hq hbehind hk
  obtain ⟨u, rep, hround, -, -, hfail⟩ := ht.stuck hq hstill
  rw [hround, Option.some.injEq, Prod.mk.injEq, Prod.mk.injEq] at hlast
  obtain ⟨-, -, rfl⟩ := hlast
  rw [hfail resp rfl] at hsucc
  cases hsucc

/-- Follower catch-up. From every reachable state with a leader `p` and a peer `q` that has
seen no later term, lossless rounds bring the peer to the end of the leader's log exactly
if the peer's snapshot is not ahead of the leader's, or the leader's next index for the
peer is in front of that snapshot. -/
theorem catch_up_iff (h : RaftCluster.Reached s) (hq : q ≠ p)
    (hrole : (s.procs p).rf.currentRole = .leader)
    (hterm : (s.procs q).rf.currentTerm ≤ (s.procs p).rf.currentTerm) :
    Converges q (s.procs p).rf (s.procs q).rf ↔
      ((s.procs q).rf.lastIncludedIndex ≤ (s.procs p).rf.lastIncludedIndex ∨
        (s.procs q).rf.lastIncludedIndex < (s.procs p).rf.nextIndex q) := by
  have hlinked : Linked p q s := ⟨h, hrole, hterm⟩
  constructor
  · intro hconv
    by_contra hbehind
    exact not_converges hq hlinked hbehind hconv
  · exact converges_of_inFront hq hlinked

/-- Peer 0 of two leads in term two with an entry of term one, and has learned from one of
two rejections that peer 1 has nothing; the other is still in flight. -/
def backedUpRun : List (Event 2 ℕ) :=
  [.ticker 0, .deliver 0, .deliver 0, .start 0 7, .crash 0, .ticker 0, .deliver 0, .deliver 0,
    .appendEntriesRoutine 0, .deliver 0, .appendEntriesRoutine 0, .deliver 0, .deliver 0]

/-- Peer 1 catches up and takes a snapshot. Then the other rejection arrives, and one more
command. -/
def lateRejectionRun : List (Event 2 ℕ) :=
  [.start 0 8, .appendEntriesRoutine 0, .deliver 0, .deliver 0, .appendEntriesRoutine 0,
    .deliver 0, .deliver 0, .apply 1, .receive 1, .receive 1, .snapshot 1 0, .deliver 0, .start 0 9]

theorem catch_up_iff_backed_up : ∃ s : Cluster 2 ℕ, RaftCluster.Reached s ∧
    (s.procs 0).rf.currentRole = .leader ∧
    (s.procs 1).rf.currentTerm ≤ (s.procs 0).rf.currentTerm ∧ (s.procs 1).rf.log.length = 1 ∧
    (s.procs 0).rf.lastLogIndex = 1 ∧ Converges 1 (s.procs 0).rf (s.procs 1).rf := by
  obtain ⟨s, hs, htest⟩ := Cluster.exists_of_run
    (show ((initial : Cluster 2 ℕ).run backedUpRun).any (fun s => decide
      ((s.procs 0).rf.currentRole = .leader ∧
        (s.procs 1).rf.currentTerm ≤ (s.procs 0).rf.currentTerm ∧
        (s.procs 1).rf.log.length = 1 ∧ (s.procs 0).rf.lastLogIndex = 1 ∧
        (s.procs 1).rf.lastIncludedIndex ≤ (s.procs 0).rf.lastIncludedIndex)) = true by
      decide +kernel)
  obtain ⟨hrole, hterm, hlog, hlast, hlii⟩ := of_decide_eq_true htest
  refine ⟨s, reached_of_steps hs, hrole, hterm, hlog, hlast, ?_⟩
  exact (catch_up_iff (reached_of_steps hs) (by decide) hrole hterm).mpr (Or.inl hlii)

/-- A late rejection leaves a follower behind for the rest of the term. -/
theorem follower_left_behind : ∃ s : Cluster 2 ℕ, RaftCluster.Reached s ∧
    (s.procs 0).rf.currentRole = .leader ∧
    (s.procs 1).rf.currentTerm ≤ (s.procs 0).rf.currentTerm ∧
    (s.procs 0).rf.lastLogIndex = 3 ∧ (s.procs 0).rf.matchIndex 1 = 2 ∧
    ¬ Converges 1 (s.procs 0).rf (s.procs 1).rf := by
  obtain ⟨s, hs, htest⟩ := Cluster.exists_of_run
    (show ((initial : Cluster 2 ℕ).run (backedUpRun ++ lateRejectionRun)).any (fun s => decide
      ((s.procs 0).rf.currentRole = .leader ∧
        (s.procs 1).rf.currentTerm ≤ (s.procs 0).rf.currentTerm ∧
        (s.procs 0).rf.lastLogIndex = 3 ∧ (s.procs 0).rf.matchIndex 1 = 2 ∧
        ¬ ((s.procs 1).rf.lastIncludedIndex ≤ (s.procs 0).rf.lastIncludedIndex ∨
          (s.procs 1).rf.lastIncludedIndex < (s.procs 0).rf.nextIndex 1))) = true by
      decide +kernel)
  obtain ⟨hrole, hterm, hlast, hmatch, hbehind⟩ := of_decide_eq_true htest
  refine ⟨s, reached_of_steps hs, hrole, hterm, hlast, hmatch, ?_⟩
  exact not_converges (by decide) ⟨reached_of_steps hs, hrole, hterm⟩ hbehind

end DistributedLabs.RaftCatchUp
