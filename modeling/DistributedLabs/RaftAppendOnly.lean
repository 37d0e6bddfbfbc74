import DistributedLabs.RaftSafety

/-!
# A leader only appends to its log

The handlers do not look at the role of the receiver when the terms are equal. A leader's log
is safe from them all the same: whoever leads the term is the only sender of entries and
snapshots in it, and never calls itself. So the log of a leader is the protocol's log of its
term, which only grows, and an entry of that term can have come from nowhere else.
-/

namespace DistributedLabs.RaftAppendOnly

open RaftPeer RaftCluster RaftRefinement RaftSafety TermLogProtocol TransitionRuns Relation
  LogPrefixes

variable {n : ℕ} {C : Type*}

section Logs

variable {a b : Proto n C} {p q : Fin n} {T : ℤ}

/-- An entry of term `T` in any log is the entry of that term's leader at its index. -/
theorem getElem?_leaderLog (hr : TermLogProtocol.Reached LogValue.term a) {i : ℕ} {v : LogValue C}
    (hv : (a.log q)[i]? = some v) (hterm : v.term = T) : (a.leaderLog T)[i]? = some v := by
  obtain ⟨-, hpre⟩ := hr.roots.log q i v hv
  rw [hterm] at hpre
  apply getElem?_of_initial hpre
  rwa [List.getElem?_take_of_lt i.lt_succ_self]

/-- What the logical log of a peer has is in the log that the protocol has for it. -/
theorem exists_of_snapshotHolds {rf : Raft n C} (h : MemRel a p rf) {i : ℤ} {v : LogValue C}
    (hv : SnapshotHolds rf i v) : ∃ w, (a.log p)[(i - 1).toNat]? = some w ∧ w.item = v.item := by
  obtain ⟨hpos, hle, hitem⟩ := hv
  rw [h.snapshot, items, List.getElem?_map, List.getElem?_take_of_lt (by omega)] at hitem
  exact Option.map_eq_some_iff.mp hitem

end Logs

variable [Inhabited C] {s t : Cluster n C} {p : Fin n}

/-- A leader's log at one moment is the start of its log at a later moment of the same term. -/
theorem log_initial_of_leads {a b : Proto n C} (hs : Related s a) (ht : Related t b)
    (hg : Grows a b) (hrole : (s.procs p).rf.currentRole = .leader)
    (hrole' : (t.procs p).rf.currentRole = .leader)
    (hterm : (t.procs p).rf.currentTerm = (s.procs p).rf.currentTerm) : a.log p <+: b.log p := by
  have hlog := ((hs.proc p).peer.leads hrole).leaderLog hs.reached
  have hlog' := ((ht.proc p).peer.leads hrole').leaderLog ht.reached
  rw [← hlog, ← hlog', hterm]
  exact hg.leaderLog _

/-- `Start` puts the command at the index that it returns, behind all that is there. -/
theorem start_holds {a : Proto n C} (ha : Related s a) {command : C} {i T : ℤ}
    (hstart : (start (s.procs p).rf command).2 = (i, T, true)) :
    (s.procs p).rf.currentRole = .leader ∧ (s.procs p).rf.currentTerm = T ∧
      i = (a.log p).length + 1 ∧
      Holds (start (s.procs p).rf command).1 i ⟨T, command⟩ ∧
      (start (s.procs p).rf command).1.currentRole = .leader ∧
      (start (s.procs p).rf command).1.currentTerm = T := by
  have hlen := (ha.proc p).peer.view.length
  have hnn := (ha.proc p).peer.view.nonneg
  have hle := (ha.proc p).peer.view.le
  unfold start at hstart ⊢
  split_ifs at hstart ⊢ with hrole
  · simp at hstart
  · have hrole := not_not.mp hrole
    obtain ⟨rfl, hrest⟩ := Prod.mk.inj hstart
    obtain ⟨rfl, -⟩ := Prod.mk.inj hrest
    refine ⟨hrole, rfl, by omega, ⟨?_, ?_⟩, hrole, rfl⟩
    · change (s.procs p).rf.lastIncludedIndex < _
      omega
    · simp [Raft.convertLogicalToPhysical, Raft.persist, at?]

/-- Leader append-only. What a leader has in its log or below it at one moment it has at every
later moment at which it leads the same term. And when `Start` has returned an index and a
term for a command, every entry of that term at that index, in the log of any peer and at any
moment of the run before or after, has this command. -/
theorem leader_append_only (hs : RaftCluster.Reached s) (p : Fin n) :
    (∀ t : Cluster n C, ReflTransGen RaftCluster.Step s t →
      (s.procs p).rf.currentRole = .leader → (t.procs p).rf.currentRole = .leader →
      (t.procs p).rf.currentTerm = (s.procs p).rf.currentTerm → ∀ (i : ℤ) (v : LogValue C),
        (Holds (s.procs p).rf i v → Holds (t.procs p).rf i v ∨ SnapshotHolds (t.procs p).rf i v) ∧
        (SnapshotHolds (s.procs p).rf i v →
          (∃ w, Holds (t.procs p).rf i w ∧ w.item = v.item) ∨ SnapshotHolds (t.procs p).rf i v)) ∧
    ∀ (command : C) (i T : ℤ) (t : Cluster n C),
      (start (s.procs p).rf command).2 = (i, T, true) → s.step? (.start p command) = some t →
      ∀ u : Cluster n C, (ReflTransGen RaftCluster.Step t u ∨
        RaftCluster.Reached u ∧ ReflTransGen RaftCluster.Step u s) →
      ∀ (q : Fin n) (v : LogValue C), Holds (u.procs q).rf i v → v.term = T → v.item = command := by
  refine ⟨fun t hrun hrole hrole' hterm i v => ?_,
    fun command i T t hstart hstep u hu q v hv hterm => ?_⟩
  · obtain ⟨a, b, ha, hb, hg⟩ := related_run hs hrun
    have hmem := (ha.proc p).peer.toMemRel
    have hmem' := (hb.proc p).peer.toMemRel
    have hpre := log_initial_of_leads ha hb hg hrole hrole' hterm
    have hnn := hmem.view.nonneg
    constructor
    · intro hv
      obtain ⟨hlow, hentry⟩ := (holds_iff hmem).mp hv
      exact holds_or_snapshotHolds hmem' (by omega) (getElem?_of_initial hpre hentry)
    · intro hv
      obtain ⟨w, hw, hitem⟩ := exists_of_snapshotHolds hmem hv
      rcases holds_or_snapshotHolds hmem' hv.1 (getElem?_of_initial hpre hw) with hin | hin
      · exact Or.inl ⟨w, hin, hitem⟩
      · exact Or.inr ⟨hin.1, hin.2.1, hitem ▸ hin.2.2⟩
  · rcases hu with hrun | ⟨hu, hrun⟩
    · have hst : RaftCluster.Step s t := ⟨_, hstep⟩
      obtain ⟨b, d, hb, hd, hg⟩ := related_run (hs.tail hst) hrun
      obtain ⟨a, -, ha⟩ := simulation.reachable hs
      obtain ⟨-, -, -, hholds, hrole, hT⟩ := start_holds ha hstart
      obtain rfl := Option.some.inj hstep
      have hrf : ((s.set p { s.procs p with rf := (start (s.procs p).rf command).1 }).procs p).rf =
          (start (s.procs p).rf command).1 := by simp [Cluster.set]
      have hmem := (hb.proc p).peer.toMemRel
      rw [← hrf] at hholds hrole hT
      have hlog := (hmem.leads hrole).leaderLog hb.reached
      have hin := ((holds_iff hmem).mp hholds).2
      rw [← hlog, hT] at hin
      have hv' :=
        getElem?_leaderLog hd.reached ((holds_iff (hd.proc q).peer.toMemRel).mp hv).2 hterm
      rw [getElem?_of_initial (hg.leaderLog T) hin, Option.some.injEq] at hv'
      rw [← hv']
    · obtain ⟨d, a, hd, ha, hg⟩ := related_run hu hrun
      obtain ⟨hrole, hT, hi, -⟩ := start_holds ha hstart
      have hlog := ((ha.proc p).peer.leads hrole).leaderLog ha.reached
      have hv' :=
        getElem?_leaderLog hd.reached ((holds_iff (hd.proc q).peer.toMemRel).mp hv).2 hterm
      have hlen := (List.getElem?_eq_some_iff.mp (getElem?_of_initial (hg.leaderLog T) hv')).1
      rw [← hT, hlog] at hlen
      omega

def firstCommand : List (Event 2 ℕ) := [.ticker 0, .deliver 0, .deliver 0, .start 0 7]

/-- Peer 1 takes both commands, and peer 0 applies them and takes a snapshot at the first. -/
def compacted : List (Event 2 ℕ) :=
  [.appendEntriesRoutine 0, .deliver 0, .deliver 0, .apply 0, .receive 0, .snapshot 0 0]

theorem leader_append_only_compacted : ∃ s t u : Cluster 2 ℕ, RaftCluster.Reached s ∧
    s.step? (.start 0 8) = some t ∧ ReflTransGen RaftCluster.Step t u ∧
    (s.procs 0).rf.currentRole = .leader ∧ (u.procs 0).rf.currentRole = .leader ∧
    Holds (s.procs 0).rf 1 ⟨1, 7⟩ ∧ (u.procs 0).rf.lastIncludedIndex = 1 ∧
    (Holds (u.procs 0).rf 1 ⟨1, 7⟩ ∨ SnapshotHolds (u.procs 0).rf 1 ⟨1, 7⟩) ∧
    Holds (u.procs 1).rf 2 ⟨1, 8⟩ ∧
    ∀ v, Holds (u.procs 1).rf 2 v → v.term = 1 → v.item = 8 := by
  obtain ⟨s, hs, htest⟩ := Cluster.exists_of_run
    (show ((initial : Cluster 2 ℕ).run firstCommand).any (fun s => decide
      ((s.procs 0).rf.currentRole = .leader ∧ (s.procs 0).rf.currentTerm = 1 ∧
        Holds (s.procs 0).rf 1 ⟨1, 7⟩ ∧ (start (s.procs 0).rf 8).2 = (2, 1, true)) &&
      (s.step? (.start 0 8)).any fun t => (t.run compacted).any fun u => decide
        ((u.procs 0).rf.currentRole = .leader ∧ (u.procs 0).rf.currentTerm = 1 ∧
          (u.procs 0).rf.lastIncludedIndex = 1 ∧ Holds (u.procs 1).rf 2 ⟨1, 8⟩)) = true by
      decide +kernel)
  obtain ⟨hleft, hrest⟩ := Bool.and_eq_true_iff.mp htest
  obtain ⟨hrole, hterm, hholds, hstart⟩ := of_decide_eq_true hleft
  obtain ⟨t, hstep, hrest⟩ := (Option.any_eq_true _ _).mp hrest
  obtain ⟨u, hrun, hright⟩ := Cluster.exists_of_run hrest
  obtain ⟨hrole', hterm', hlii, hother⟩ := of_decide_eq_true hright
  obtain ⟨hkept, hunique⟩ := leader_append_only (reached_of_steps hs) 0
  have hfrom : ReflTransGen RaftCluster.Step s u := .head ⟨_, hstep⟩ hrun
  exact ⟨s, t, u, reached_of_steps hs, hstep, hrun, hrole, hrole', hholds, hlii,
    (hkept u hfrom hrole hrole' (hterm'.trans hterm.symm) 1 _).1 hholds, hother,
    fun v => hunique 8 2 1 t hstart hstep u (Or.inl hrun) 1 v⟩

end DistributedLabs.RaftAppendOnly
