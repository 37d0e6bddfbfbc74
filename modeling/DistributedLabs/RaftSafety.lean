import DistributedLabs.RaftSimulation

/-!
# Safety of the cluster

Election safety, log matching, leader completeness with snapshots and state machine
safety, for every cluster size and over every run: packets lost, delayed and reordered,
snapshots taken and installed at any time, and peers crashing at any moment. Each result
is the corresponding fact of the protocol, read through the refinement.
-/

namespace DistributedLabs.RaftSafety

open RaftPeer RaftCluster RaftRefinement RaftLogView TermLogProtocol TransitionRuns Relation
  LogPrefixes

variable {n : ℕ} {C : Type*}

/-- The log holds entry `v` at logical index `i`, which lies above the snapshot. -/
def Holds (rf : Raft n C) (i : ℤ) (v : LogValue C) : Prop :=
  rf.lastIncludedIndex < i ∧ at? rf.log (rf.convertLogicalToPhysical i) = some v

/-- The snapshot covers index `i` and includes the command of `v` there. -/
def SnapshotHolds (rf : Raft n C) (i : ℤ) (v : LogValue C) : Prop :=
  0 < i ∧ i ≤ rf.lastIncludedIndex ∧ rf.curSnapshot[(i - 1).toNat]? = some v.item

/-- The next message on `applyCh` of peer `p` is the command `x` with index `i`. -/
def Delivers (s : Cluster n C) (p : Fin n) (i : ℤ) (x : C) : Prop :=
  (s.procs p).applying.head? = some (.command i x)

instance [DecidableEq C] (s : Cluster n C) (p : Fin n) (i : ℤ) (x : C) :
    Decidable (Delivers s p i x) := inferInstanceAs (Decidable (_ = _))

instance [DecidableEq C] (rf : Raft n C) (i : ℤ) (v : LogValue C) : Decidable (Holds rf i v) :=
  inferInstanceAs (Decidable (_ ∧ _))

theorem holds_iff {a : Proto n C} {p : Fin n} {rf : Raft n C} (h : MemRel a p rf) {i : ℤ}
    {v : LogValue C} :
    Holds rf i v ↔ rf.lastIncludedIndex < i ∧ (a.log p)[(i - 1).toNat]? = some v := by
  constructor
  · rintro ⟨hi, hv⟩
    rw [Raft.convertLogicalToPhysical, h.view.at? hi] at hv
    exact ⟨hi, hv⟩
  · rintro ⟨hi, hv⟩
    refine ⟨hi, ?_⟩
    rw [Raft.convertLogicalToPhysical, h.view.at? hi]
    exact hv

/-- An entry of the full log is in the stored log or in the snapshot. -/
theorem holds_or_snapshotHolds {a : Proto n C} {p : Fin n} {rf : Raft n C} (h : MemRel a p rf)
    {i : ℤ} {v : LogValue C} (h0 : 0 < i) (hv : (a.log p)[(i - 1).toNat]? = some v) :
    Holds rf i v ∨ SnapshotHolds rf i v := by
  rcases lt_or_ge rf.lastIncludedIndex i with hi | hi
  · exact Or.inl ((holds_iff h).mpr ⟨hi, hv⟩)
  · refine Or.inr ⟨h0, hi, ?_⟩
    rw [h.snapshot, items, List.getElem?_map, List.getElem?_take_of_lt (by omega), hv]
    rfl

/-- A leader has what is chosen below its term since its election. -/
theorem prefix_electionLog {a : Proto n C} (hr : TermLogProtocol.Reached LogValue.term a)
    {T U : ℤ} {l : List (LogValue C)} (h : RaftRefinement.Chosen a T l) (hTU : T < U)
    (hU : a.leader U ≠ none) : l <+: a.electionLog U := by
  rcases h with rfl | ⟨V, m, hV, hcm, hl⟩
  · exact List.nil_prefix
  · exact hl.trans (hcm.prefix_electionLog hr.custody (by omega) hU)

variable [Inhabited C]

/-- The two ends of a run are answered by the two ends of a run of the protocol. -/
theorem related_run {s₁ s₂ : Cluster n C} (h₁ : RaftCluster.Reached s₁)
    (h₁₂ : ReflTransGen RaftCluster.Step s₁ s₂) :
    ∃ a b, Related s₁ a ∧ Related s₂ b ∧ Grows a b := by
  obtain ⟨a, -, ha⟩ := simulation.reachable h₁
  obtain ⟨b, hab, hb⟩ := simulation.run ha h₁₂
  exact ⟨a, b, ha, hb, run_grows hab ha.reached⟩

/-- A queued command is the last one of an applied prefix. -/
theorem applied_of_delivers {s : Cluster n C} {a : Proto n C} (h : Related s a) {p : Fin n}
    {i : ℤ} {x : C} (hx : Delivers s p i x) : ∃ st, Applied a i (st ++ [x]) := by
  obtain ⟨j, st, rest, -, hp⟩ := (h.proc p).service.pending
  obtain ⟨tail, htail⟩ := List.head?_eq_some_iff.mp hx
  rw [htail] at hp
  exact hp.2.1

/-- Peer 0 of two is elected, and commits and takes two commands. -/
def commitRun : List (Event 2 ℕ) :=
  [.ticker 0, .deliver 0, .deliver 0, .start 0 7, .start 0 8, .appendEntriesRoutine 0,
    .deliver 0, .deliver 0, .apply 0]

def compactRun : List (Event 2 ℕ) := commitRun ++ [.receive 0, .snapshot 0 0]

def followRun : List (Event 2 ℕ) :=
  [.receive 0, .appendEntriesRoutine 0, .deliver 0, .apply 1]

def nextLeaderRun : List (Event 2 ℕ) := [.ticker 1, .deliver 0, .deliver 0]

theorem reached_of_steps {s : Cluster n C} (h : ReflTransGen RaftCluster.Step initial s) :
    RaftCluster.Reached s := ⟨initial, rfl, h⟩

/-- State machine safety: at one index, every peer delivers the same command, at any two
moments of a run, before and after restarts. -/
theorem state_machine_safety {s₁ s₂ : Cluster n C} (h₁ : RaftCluster.Reached s₁)
    (h₁₂ : ReflTransGen RaftCluster.Step s₁ s₂) {p q : Fin n} {i : ℤ} {x y : C}
    (hx : Delivers s₁ p i x) (hy : Delivers s₂ q i y) : x = y := by
  obtain ⟨a, b, ha, hb, hg⟩ := related_run h₁ h₁₂
  obtain ⟨st, hst⟩ := applied_of_delivers ha hx
  obtain ⟨st', hst'⟩ := applied_of_delivers hb hy
  have := (hst.grows hg).unique hb.reached hst'
  simpa using (List.append_inj' this rfl).2

theorem state_machine_safety_two_peers : ∃ s₁ s₂ : Cluster 2 ℕ, RaftCluster.Reached s₁ ∧
    ReflTransGen RaftCluster.Step s₁ s₂ ∧ Delivers s₁ 0 1 7 ∧ Delivers s₂ 1 1 7 ∧
    ∀ y, Delivers s₂ 1 1 y → 7 = y := by
  obtain ⟨s₁, h₁, htest⟩ := Cluster.exists_of_run
    (show ((initial : Cluster 2 ℕ).run commitRun).any (fun s => decide (Delivers s 0 1 7) &&
      (s.run followRun).any fun u => decide (Delivers u 1 1 7)) = true by decide +kernel)
  obtain ⟨hx, hrest⟩ := Bool.and_eq_true_iff.mp htest
  obtain ⟨s₂, h₂, hy⟩ := Cluster.exists_of_run hrest
  have hx := of_decide_eq_true hx
  exact ⟨s₁, s₂, reached_of_steps h₁, h₂, hx, of_decide_eq_true hy,
    fun y hy => state_machine_safety (reached_of_steps h₁) h₂ hx hy⟩

/-- Election safety: a term has at most one leader, over all moments of a run. -/
theorem election_safety {s₁ s₂ : Cluster n C} (h₁ : RaftCluster.Reached s₁)
    (h₁₂ : ReflTransGen RaftCluster.Step s₁ s₂) {p q : Fin n}
    (hp : (s₁.procs p).rf.currentRole = .leader) (hq : (s₂.procs q).rf.currentRole = .leader)
    (hterm : (s₁.procs p).rf.currentTerm = (s₂.procs q).rf.currentTerm) : p = q := by
  obtain ⟨a, b, ha, hb, hg⟩ := related_run h₁ h₁₂
  have hlp := (ha.proc p).peer.leads hp
  have hlq := (hb.proc q).peer.leads hq
  have helected := hg.leader hlp.elected
  rw [← hlp.term, hterm, hlq.term, hlq.elected] at helected
  exact (Option.some.inj helected).symm

theorem election_safety_two_peers : ∃ s₁ s₂ : Cluster 2 ℕ, RaftCluster.Reached s₁ ∧
    ReflTransGen RaftCluster.Step s₁ s₂ ∧ (s₁.procs 0).rf.currentRole = .leader ∧
    (s₁.procs 0).rf.currentTerm = 1 ∧ ∀ q, (s₂.procs q).rf.currentRole = .leader →
      (s₂.procs q).rf.currentTerm = 1 → 0 = q := by
  obtain ⟨s₁, h₁, htest⟩ := Cluster.exists_of_run
    (show ((initial : Cluster 2 ℕ).run commitRun).any
      (fun s => decide ((s.procs 0).rf.currentRole = .leader ∧ (s.procs 0).rf.currentTerm = 1) &&
        (s.run nextLeaderRun).any fun _ => true) = true by decide +kernel)
  obtain ⟨hlead, hrest⟩ := Bool.and_eq_true_iff.mp htest
  obtain ⟨s₂, h₂, -⟩ := Cluster.exists_of_run hrest
  obtain ⟨hrole, hterm⟩ := of_decide_eq_true hlead
  exact ⟨s₁, s₂, reached_of_steps h₁, h₂, hrole, hterm, fun q hq hqt =>
    election_safety (reached_of_steps h₁) h₂ hrole hq (hterm.trans hqt.symm)⟩

/-- Log matching: logs with an entry of one term at one index agree on all entries up to
there that both still store. -/
theorem log_matching {s : Cluster n C} (h : RaftCluster.Reached s) {p q : Fin n} {i j : ℤ}
    {v w : LogValue C} (hp : Holds (s.procs p).rf i v) (hq : Holds (s.procs q).rf i w)
    (hterm : v.term = w.term) (hji : j ≤ i) (hjp : (s.procs p).rf.lastIncludedIndex < j)
    (hjq : (s.procs q).rf.lastIncludedIndex < j) :
    ∃ u, Holds (s.procs p).rf j u ∧ Holds (s.procs q).rf j u := by
  obtain ⟨a, -, ha⟩ := simulation.reachable h
  have hmp := (ha.proc p).peer.toMemRel
  have hmq := (ha.proc q).peer.toMemRel
  have hv := ((holds_iff hmp).mp hp).2
  have hw := ((holds_iff hmq).mp hq).2
  have hsame := (ha.reached.roots.log p).matching (ha.reached.roots.log q) hv hw hterm
  have hnn := hmp.view.nonneg
  have hlen := (List.getElem?_eq_some_iff.mp hv).1
  obtain ⟨u, hu⟩ : ∃ u, (a.log p)[(j - 1).toNat]? = some u :=
    ⟨_, List.getElem?_eq_getElem (by omega)⟩
  have hu' : (a.log q)[(j - 1).toNat]? = some u := by
    rw [← hu, ← List.getElem?_take_of_lt (show (j - 1).toNat < (i - 1).toNat + 1 by omega), ← hsame,
      List.getElem?_take_of_lt (by omega)]
  exact ⟨u, (holds_iff hmp).mpr ⟨hjp, hu⟩, (holds_iff hmq).mpr ⟨hjq, hu'⟩⟩

theorem log_matching_two_peers : ∃ s : Cluster 2 ℕ, RaftCluster.Reached s ∧
    Holds (s.procs 0).rf 2 ⟨1, 8⟩ ∧ Holds (s.procs 1).rf 2 ⟨1, 8⟩ ∧
    ∃ u, Holds (s.procs 0).rf 1 u ∧ Holds (s.procs 1).rf 1 u := by
  obtain ⟨s, hs, htest⟩ := Cluster.exists_of_run
    (show ((initial : Cluster 2 ℕ).run commitRun).any (fun s => decide
      (Holds (s.procs 0).rf 2 ⟨1, 8⟩ ∧ Holds (s.procs 1).rf 2 ⟨1, 8⟩ ∧
        (s.procs 0).rf.lastIncludedIndex < 1 ∧ (s.procs 1).rf.lastIncludedIndex < 1)) = true by
      decide +kernel)
  obtain ⟨h0, h1, hl0, hl1⟩ := of_decide_eq_true htest
  exact ⟨s, reached_of_steps hs, h0, h1,
    log_matching (reached_of_steps hs) h0 h1 rfl (by decide) hl0 hl1⟩

/-- Leader completeness: what a leader of term `T` counts as committed at index `i` is in
the log or the snapshot of each leader of a later term, at any moment of the run before or
after. In particular this holds for what the leader's commit rule has just added. -/
theorem leader_completeness {s₁ s₂ : Cluster n C} (h₁ : RaftCluster.Reached s₁)
    (h₂ : RaftCluster.Reached s₂)
    (hrun : ReflTransGen RaftCluster.Step s₁ s₂ ∨ ReflTransGen RaftCluster.Step s₂ s₁)
    {p q : Fin n} (hp : (s₁.procs p).rf.currentRole = .leader)
    (hq : (s₂.procs q).rf.currentRole = .leader)
    (hterm : (s₁.procs p).rf.currentTerm < (s₂.procs q).rf.currentTerm) {i : ℤ} {v : LogValue C}
    (hi : i ≤ (s₁.procs p).rf.commitIndex) (hv : Holds (s₁.procs p).rf i v) :
    Holds (s₂.procs q).rf i v ∨ SnapshotHolds (s₂.procs q).rf i v := by
  suffices hmain : ∃ a b, Related s₁ a ∧ Related s₂ b ∧ ∀ l,
      RaftRefinement.Chosen a (s₁.procs p).rf.currentTerm l →
        l <+: b.leaderLog (s₂.procs q).rf.currentTerm by
    obtain ⟨a, b, ha, hb, hall⟩ := hmain
    have hmp := (ha.proc p).peer.toMemRel
    have hmq := (hb.proc q).peer.toMemRel
    have hpre := hall _ ((hmp.leads hp).term ▸ hmp.chosen)
    rw [(hmq.leads hq).leaderLog hb.reached] at hpre
    have hnn := hmp.view.nonneg
    obtain ⟨hlow, hentry⟩ := (holds_iff hmp).mp hv
    refine holds_or_snapshotHolds hmq (by omega) (getElem?_of_initial hpre ?_)
    rw [List.getElem?_take_of_lt (by omega), hentry]
  rcases hrun with hrun | hrun
  · obtain ⟨a, b, ha, hb, hg⟩ := related_run h₁ hrun
    refine ⟨a, b, ha, hb, fun l hl => ?_⟩
    have hlead := ((hb.proc q).peer.leads hq)
    exact Chosen.prefix_leaderLog (Chosen.grows hl hg) hb.reached.roots hb.reached.custody
      hterm.le (by rw [hlead.term, hlead.elected]; exact Option.some_ne_none q)
  · -- the later leader was elected before the commit, and already with all of it
    obtain ⟨b, a, hb, ha, hg⟩ := related_run h₂ hrun
    refine ⟨a, b, ha, hb, fun l hl => ?_⟩
    have hlead := ((hb.proc q).peer.leads hq)
    have hne : b.leader (s₂.procs q).rf.currentTerm ≠ none := by
      rw [hlead.term, hlead.elected]
      exact Option.some_ne_none q
    have hpre := prefix_electionLog ha.reached hl hterm (hg.leader_ne_none hne)
    rw [hg.electionLog hne] at hpre
    exact hpre.trans (hb.reached.roots.election _)

theorem leader_completeness_two_peers : ∃ s₁ s₂ : Cluster 2 ℕ, RaftCluster.Reached s₁ ∧
    ReflTransGen RaftCluster.Step s₁ s₂ ∧ (s₁.procs 0).rf.commitIndex = 2 ∧
    (s₁.procs 0).rf.currentTerm = 1 ∧ (s₂.procs 1).rf.currentTerm = 2 ∧
    (Holds (s₂.procs 1).rf 2 ⟨1, 8⟩ ∨ SnapshotHolds (s₂.procs 1).rf 2 ⟨1, 8⟩) := by
  obtain ⟨s₁, h₁, htest⟩ := Cluster.exists_of_run
    (show ((initial : Cluster 2 ℕ).run commitRun).any
      (fun s => decide ((s.procs 0).rf.currentRole = .leader ∧ (s.procs 0).rf.currentTerm = 1 ∧
          (s.procs 0).rf.commitIndex = 2 ∧ Holds (s.procs 0).rf 2 ⟨1, 8⟩) &&
        (s.run nextLeaderRun).any fun u => decide
          ((u.procs 1).rf.currentRole = .leader ∧ (u.procs 1).rf.currentTerm = 2)) = true by
      decide +kernel)
  obtain ⟨hleft, hrest⟩ := Bool.and_eq_true_iff.mp htest
  obtain ⟨s₂, h₂, hright⟩ := Cluster.exists_of_run hrest
  obtain ⟨hp, hpt, hc, hv⟩ := of_decide_eq_true hleft
  obtain ⟨hq, hqt⟩ := of_decide_eq_true hright
  have hr := reached_of_steps h₁
  exact ⟨s₁, s₂, hr, h₂, hc, hpt, hqt, leader_completeness hr (hr.trans h₂) (Or.inl h₂) hp hq
    (by rw [hpt, hqt]; decide) hc.ge hv⟩

end DistributedLabs.RaftSafety
