import DistributedLabs.RaftSafety

/-!
# The term rule of the three handlers

A peer that handles a request follows a higher term before it looks at anything else in
the request, with one exception: `InstallSnapshotHandler` compares the index of the
offered snapshot with its own in the same test as the terms, and returns before it has
followed the term.
-/

namespace DistributedLabs.RaftTermRule

open RaftPeer RaftCluster RaftRefinement RaftSafety TransitionRuns Relation

variable {n : ℕ} {C : Type*}

def requestTerm : Request C → ℤ
  | .requestVote args => args.term
  | .appendEntries args => args.term
  | .installSnapshot args => args.term

/-- After a request of the given term a peer is in the higher of the two terms, and it is a
follower if the term was new to it. -/
def CatchesUp (before after : Raft n C) (term : ℤ) : Prop :=
  after.currentTerm = max before.currentTerm term ∧
    (before.currentTerm < term → after.currentRole = .follower)

instance (before after : Raft n C) (term : ℤ) : Decidable (CatchesUp before after term) :=
  inferInstanceAs (Decidable (_ ∧ _))

/-- The request offers a snapshot that ends before the peer's own, in a higher term. -/
def OffersLess (rf : Raft n C) : Request C → Prop
  | .installSnapshot args =>
    rf.currentTerm < args.term ∧ args.lastIncludedIndex < rf.lastIncludedIndex
  | _ => False

theorem catchesUp_of_le {rf : Raft n C} {term : ℤ} (h : term ≤ rf.currentTerm) :
    CatchesUp rf rf term :=
  ⟨(max_eq_left h).symm, fun hlt => absurd hlt (not_lt.mpr h)⟩

theorem not_catchesUp_of_lt {rf : Raft n C} {term : ℤ} (h : rf.currentTerm < term) :
    ¬ CatchesUp rf rf term := by
  rintro ⟨hterm, -⟩
  rw [max_eq_right h.le] at hterm
  exact absurd hterm h.ne

/-- What follows the term rule may change the role of the peer only to follower. -/
theorem CatchesUp.then {rf mid after : Raft n C} {term : ℤ} (h : CatchesUp rf mid term)
    (hterm : after.currentTerm = mid.currentTerm)
    (hrole : after.currentRole = mid.currentRole ∨ after.currentRole = .follower) :
    CatchesUp rf after term := by
  refine ⟨hterm.trans h.1, fun hlt => ?_⟩
  rcases hrole with hrole | hrole
  · exact hrole.trans (h.2 hlt)
  · exact hrole

theorem catchesUp_observeTerm (rf : Raft n C) (term : ℤ) :
    CatchesUp rf (rf.observeTerm term) term := by
  unfold Raft.observeTerm
  split_ifs with h
  · exact ⟨(max_eq_right h.le).symm, fun _ => rfl⟩
  · exact catchesUp_of_le (not_lt.mp h)

theorem catchesUp_castVote {rf mid : Raft n C} {term : ℤ} (h : CatchesUp rf mid term)
    (args : RequestVoteArgs) (reply : RequestVoteReply) :
    CatchesUp rf (castVote mid args reply).1 term := by
  unfold castVote
  split_ifs
  · exact h
  · exact h
  · exact h
  · exact h.then rfl (Or.inr rfl)

theorem catchesUp_requestVote (rf : Raft n C) (args : RequestVoteArgs) :
    CatchesUp rf (requestVote rf args).1 args.term := by
  rw [requestVote_eq]
  split_ifs with hstale hnew
  · exact catchesUp_of_le hstale.le
  · exact catchesUp_castVote ⟨(max_eq_right hnew.le).symm, fun _ => rfl⟩ args _
  · exact catchesUp_castVote (catchesUp_of_le (not_lt.mp hnew)) args _

/-- The rejections of `AppendEntries` come after the term rule. -/
theorem catchesUp_appendEntries (rf : Raft n C) (args : AppendEntriesRequest C) :
    CatchesUp rf (appendEntries rf args).1 args.term := by
  rw [appendEntries_eq]
  split_ifs with hstale
  · exact catchesUp_of_le hstale.le
  · have hobserved := catchesUp_observeTerm rf args.term
    obtain ⟨-, hterm, hrole, -⟩ := answerEntries_standing (rf.observeTerm args.term) args
    exact hobserved.then hterm (Or.inl hrole)

variable [Inhabited C]

theorem catchesUp_installSnapshotHandler (rf : Raft n C) (args : InstallSnapshotRequest C) :
    CatchesUp rf (installSnapshotHandler rf args).1 args.term ↔
      ¬ (rf.currentTerm < args.term ∧ args.lastIncludedIndex < rf.lastIncludedIndex) := by
  rw [installSnapshotHandler_eq]
  split_ifs with hreject hnew
  · constructor
    · rintro hcatch ⟨hlt, -⟩
      exact not_catchesUp_of_lt hlt hcatch
    · intro hcond
      apply catchesUp_of_le
      rcases hreject with hstale | hless
      · exact hstale.le
      · exact not_lt.mp fun hlt => hcond ⟨hlt, hless⟩
  · exact iff_of_true ⟨(max_eq_right hnew.le).symm, fun _ => rfl⟩ fun h => hreject (Or.inr h.2)
  · exact iff_of_true ((catchesUp_of_le (not_lt.mp hnew)).then rfl (Or.inr rfl))
      fun h => hnew h.1

/-- Term catch-up: whatever a request says and whatever state the peer is in, the peer ends
in the higher of the two terms, and as a follower of a new one, except when the request
offers a snapshot behind the peer's own. -/
theorem term_catch_up_iff (pr : Process n C) (req : Request C) :
    CatchesUp pr.rf (pr.handle req).1.rf (requestTerm req) ↔ ¬ OffersLess pr.rf req := by
  cases req with
  | requestVote args => exact iff_of_true (catchesUp_requestVote pr.rf args) id
  | appendEntries args => exact iff_of_true (catchesUp_appendEntries pr.rf args) id
  | installSnapshot args => exact catchesUp_installSnapshotHandler pr.rf args

/-- A leader with a snapshot is told of term five, and goes on leading in term one. -/
theorem leader_ignores_higher_term : ∃ s : Cluster 2 ℕ, RaftCluster.Reached s ∧
    (s.procs 0).rf.currentRole = .leader ∧ (s.procs 0).rf.currentTerm = 1 ∧
    (((s.procs 0).handle (.installSnapshot ⟨5, 1, 0, 0, [], true⟩)).1.rf.currentRole = .leader ∧
      ((s.procs 0).handle (.installSnapshot ⟨5, 1, 0, 0, [], true⟩)).1.rf.currentTerm = 1) ∧
    ¬ CatchesUp (s.procs 0).rf
      ((s.procs 0).handle (.installSnapshot ⟨5, 1, 0, 0, [], true⟩)).1.rf 5 := by
  obtain ⟨s, hs, htest⟩ := Cluster.exists_of_run
    (show ((initial : Cluster 2 ℕ).run compactRun).any (fun s => decide
      ((s.procs 0).rf.currentRole = .leader ∧ (s.procs 0).rf.currentTerm = 1 ∧
        (((s.procs 0).handle (.installSnapshot ⟨5, 1, 0, 0, [], true⟩)).1.rf.currentRole = .leader ∧
          ((s.procs 0).handle (.installSnapshot ⟨5, 1, 0, 0, [], true⟩)).1.rf.currentTerm = 1) ∧
        ¬ CatchesUp (s.procs 0).rf
          ((s.procs 0).handle (.installSnapshot ⟨5, 1, 0, 0, [], true⟩)).1.rf 5)) = true by
      decide +kernel)
  exact ⟨s, reached_of_steps hs, of_decide_eq_true htest⟩

end DistributedLabs.RaftTermRule
