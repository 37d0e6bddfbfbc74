import DistributedLabs.RaftCampaigns
import DistributedLabs.RaftCatchUp
import DistributedLabs.RaftService

/-!
# A new command can always be committed

From every state a leader can be elected, and a leader that has just been elected can
reach every peer. So it can bring all peers to the end of its log, commit a new command
and tell everybody, and all services receive it. In particular no run leads into a state
from which the cluster cannot recover.
-/

namespace DistributedLabs.RaftAvailability

open RaftPeer RaftCluster RaftRefinement RaftLogView RaftSafety RaftIndices RaftRounds RaftCampaigns
  RaftPeerSteps RaftBackup RaftCatchUp TermLogProtocol TransitionRuns Relation LogPrefixes

variable {n : ℕ} {C : Type*} {c p q : Fin n} {l f l' f' : Raft n C}

structure Kept (q : Fin n) (l l' : Raft n C) : Prop where
  me : l'.me = l.me
  log : SameLog l l'
  term : l'.currentTerm = l.currentTerm
  commit : l.commitIndex ≤ l'.commitIndex
  next : ∀ r ≠ q, l'.nextIndex r = l.nextIndex r
  acked : ∀ r ≠ q, r ≠ l.me → l'.matchIndex r = l.matchIndex r

theorem Kept.refl (q : Fin n) (l : Raft n C) : Kept q l l :=
  ⟨rfl, .refl l, rfl, le_rfl, fun _ _ => rfl, fun _ _ _ => rfl⟩

theorem Kept.trans {l'' : Raft n C} (h : Kept q l l') (h' : Kept q l' l'') : Kept q l l'' where
  me := h'.me.trans h.me
  log := h.log.trans h'.log
  term := h'.term.trans h.term
  commit := h.commit.trans h'.commit
  next r hr := (h'.next r hr).trans (h.next r hr)
  acked r hr hme := (h'.acked r hr (h.me ▸ hme)).trans (h.acked r hr hme)

theorem advanceCommit_le (h : l.advanceCommit = some l') :
    l.commitIndex ≤ l'.commitIndex := by
  unfold Raft.advanceCommit at h
  split_ifs at h
  · rw [Option.some.inj h]
  · obtain ⟨v, -, rfl⟩ := Option.map_eq_some_iff.mp h
    split_ifs with hcommit
    · exact hcommit.2.le
    · exact le_rfl

/-- A leader that still leads after a reply about entries has moved its indices for the
peer, and maybe its commit index. -/
theorem appendReply_kept {args : AppendEntriesRequest C} {resp : AppendEntriesResponse} {saved : ℤ}
    (h : appendReply l q saved args resp = some l') (hrole : l'.currentRole = .leader) :
    Kept q l l' := by
  unfold appendReply at h
  split_ifs at h
  · exact Option.some.inj h ▸ .refl q l
  · exact Option.some.inj h ▸ .refl q l
  · obtain rfl := Option.some.inj h
    cases hrole
  · have hle := advanceCommit_le h
    obtain ⟨i, rfl⟩ := advanceCommit_eq h
    refine ⟨rfl, ⟨rfl, rfl, rfl⟩, rfl, hle, fun r hr => ?_, fun r hr hme => ?_⟩
    · exact Function.update_of_ne hr _ _
    · exact (Function.update_of_ne hme _ _).trans (Function.update_of_ne hr _ _)
  · obtain rfl := Option.some.inj h
    exact ⟨rfl, ⟨rfl, rfl, rfl⟩, rfl, le_rfl, fun r hr => Function.update_of_ne hr _ _,
      fun _ _ _ => rfl⟩

theorem installReply_kept {args : InstallSnapshotRequest C} {resp : InstallSnapshotResponse}
    {saved : ℤ} (hrole : (installReply l q saved args resp).currentRole = .leader) :
    Kept q l (installReply l q saved args resp) := by
  unfold installReply at hrole ⊢
  split_ifs at hrole ⊢
  · exact .refl q l
  · exact .refl q l
  · cases hrole
  · exact ⟨rfl, ⟨rfl, rfl, rfl⟩, rfl, le_rfl, fun r hr => Function.update_of_ne hr _ _,
      fun r hr _ => Function.update_of_ne hr _ _⟩

variable [Inhabited C]

theorem exchange_kept {rep : Reply} (h : exchange q l f = some (l', f', rep))
    (hrole : l'.currentRole = .leader) : Kept q l l' := by
  obtain ⟨req, -, h⟩ := Option.bind_eq_some_iff.mp h
  cases req with
  | requestVote args => cases h
  | appendEntries args =>
    obtain ⟨rf, hrf, heq⟩ := Option.map_eq_some_iff.mp h
    obtain ⟨rfl, -, -⟩ : rf = l' ∧ _ = f' ∧ _ = rep := by simpa using heq
    exact appendReply_kept hrf hrole
  | installSnapshot args =>
    obtain ⟨rfl, -, -⟩ : _ = l' ∧ _ = f' ∧ _ = rep := by simpa using h
    exact installReply_kept hrole

/-- The round of a reply about entries. -/
theorem exchange_appended {resp : AppendEntriesResponse}
    (h : exchange q l f = some (l', f', .appendEntries resp)) :
    ∃ args, routineRequest l q = some (.appendEntries args) ∧
      appendReply l q l.currentTerm args resp = some l' ∧ f' = (appendEntries f args).1 ∧
      resp = (appendEntries f args).2 := by
  obtain ⟨req, hreq, h⟩ := Option.bind_eq_some_iff.mp h
  cases req with
  | requestVote args => cases h
  | appendEntries args =>
    obtain ⟨rf, hrf, heq⟩ := Option.map_eq_some_iff.mp h
    obtain ⟨rfl, rfl, rfl⟩ : rf = l' ∧ _ = f' ∧ _ = resp := by simpa using heq
    exact ⟨args, hreq, hrf, rfl, rfl⟩
  | installSnapshot args => simp at h

section Rounds

variable {s : Cluster n C}

/-- A round is a run without faults that leads to such a state again. -/
theorem linked_round (h : Linked c q s) (hq : q ≠ c) {rep : Reply}
    (hround : exchange q (s.procs c).rf (s.procs q).rf = some (l', f', rep)) :
    ∃ t, ReflTransGen CalmStep s t ∧ (t.procs c).rf = l' ∧ (t.procs q).rf = f' ∧ Linked c q t ∧
      Kept q (s.procs c).rf l' ∧ ∀ r, r ≠ c → r ≠ q → t.procs r = s.procs r := by
  obtain ⟨a, -, ha⟩ := simulation.reachable h.reached
  obtain ⟨t, hrun, rfl, rfl, hrest⟩ := exchange_calm ha h.role hq hround
  obtain ⟨u, rep', hround', hu, -, -⟩ := h.next hq
  rw [hround, Option.some.injEq, Prod.mk.injEq, Prod.mk.injEq] at hround'
  obtain ⟨hl, hf, -⟩ := hround'
  have hrole : (t.procs c).rf.currentRole = .leader := hl ▸ hu.role
  refine ⟨t, hrun, rfl, rfl, ⟨h.reached.trans (run_of_calm hrun), hrole, ?_⟩,
    exchange_kept hround hrole, hrest⟩
  rw [hl, hf]
  exact hu.term

theorem linked_rounds (h : Linked c q s) (hq : q ≠ c) {k : ℕ}
    (hk : exchanges q k (s.procs c).rf (s.procs q).rf = some (l', f')) :
    ∃ t, ReflTransGen CalmStep s t ∧ (t.procs c).rf = l' ∧ (t.procs q).rf = f' ∧ Linked c q t ∧
      Kept q (s.procs c).rf l' ∧ ∀ r, r ≠ c → r ≠ q → t.procs r = s.procs r := by
  induction k generalizing s with
  | zero =>
    obtain ⟨rfl, rfl⟩ : (s.procs c).rf = l' ∧ (s.procs q).rf = f' := by simpa [exchanges] using hk
    exact ⟨s, .refl, rfl, rfl, h, .refl q _, fun _ _ _ => rfl⟩
  | succ k ih =>
    obtain ⟨⟨l₁, f₁, rep⟩, hround, hk⟩ := Option.bind_eq_some_iff.mp hk
    obtain ⟨t, hst, rfl, rfl, ht, hkept, hrest⟩ := linked_round h hq hround
    obtain ⟨u, htu, hl, hf, hu, hkept', hrest'⟩ := ih ht hk
    refine ⟨u, hst.trans htu, hl, hf, hu, hkept.trans hkept', fun r hrc hrq => ?_⟩
    rw [hrest' r hrc hrq, hrest r hrc hrq]

omit [Inhabited C] in
theorem le_length_mergeEntries (log es : List (LogValue C)) {k : ℕ} (hk : k ≤ log.length) :
    k + es.length ≤ (mergeEntries log k es).length := by
  induction es generalizing k with
  | nil => exact hk
  | cons e rest ih =>
    unfold mergeEntries
    cases hv : log[k]? with
    | none =>
      rw [List.length_append]
      omega
    | some v =>
      have hlt := (List.getElem?_eq_some_iff.mp hv).1
      dsimp only
      split_ifs
      · rw [List.length_append, List.length_take]
        omega
      · have := ih (k := k + 1) (by omega)
        rw [List.length_cons]
        omega

omit [Inhabited C] in
/-- A peer that accepts entries learns the leader's commit index, as far as the entries go. -/
theorem appendEntries_commit {args : AppendEntriesRequest C}
    (hsucc : (appendEntries f args).2.success = true)
    (hle : args.leaderCommit ≤ args.prevLogIndex + args.entries.length) :
    args.leaderCommit ≤ (appendEntries f args).1.commitIndex := by
  rw [appendEntries_eq] at hsucc ⊢
  unfold answerEntries at hsucc ⊢
  dsimp only at hsucc ⊢
  split_ifs at hsucc ⊢ with hstale hlow hhigh hcheck
  change _ ≤ (acceptEntries (f.observeTerm args.term) args).commitIndex
  generalize f.observeTerm args.term = g at *
  unfold Raft.convertLogicalToPhysical at hhigh
  have hmerge := le_length_mergeEntries g.log args.entries
    (k := (args.prevLogIndex - g.lastIncludedIndex).toNat + 1) (by omega)
  unfold acceptEntries Raft.convertLogicalToPhysical
  dsimp only
  split_ifs with hcommit
  · refine le_min le_rfl ?_
    omega
  · exact not_lt.mp hcommit

omit [Inhabited C] in
/-- A request for entries goes to the end of the log. -/
theorem routineRequest_end (hb : Bounded l) (hrole : l.currentRole = .leader)
    {args : AppendEntriesRequest C} (h : routineRequest l q = some (.appendEntries args)) :
    args.prevLogIndex + args.entries.length = l.lastLogIndex ∧
      args.leaderCommit = l.commitIndex := by
  have hnext := hb.next hrole q
  unfold routineRequest at h
  dsimp only at h
  split_ifs at h with hbehind hprev
  · cases h
  all_goals
    obtain ⟨T, -, heq⟩ := Option.map_eq_some_iff.mp h
    obtain rfl := Request.appendEntries.inj heq
    refine ⟨?_, rfl⟩
    simp only [Raft.convertLogicalToPhysical, Raft.lastLogIndex, List.length_drop]
    omega

/-- The last entry of the log is the command `x`, from the peer's present term. -/
def EndsWith (x : C) (rf : Raft n C) : Prop :=
  ∃ rest, rest ≠ [] ∧ rf.log = rest ++ [⟨rf.currentTerm, x⟩]

omit [Inhabited C] in
theorem EndsWith.at? {x : C} (h : EndsWith x l) :
    l.lastIncludedIndex < l.lastLogIndex ∧
      at? l.log (l.convertLogicalToPhysical l.lastLogIndex) = some ⟨l.currentTerm, x⟩ := by
  obtain ⟨rest, hrest, hlog⟩ := h
  have hpos := List.length_pos_iff.mpr hrest
  have hlen : l.log.length = rest.length + 1 := by simp [hlog]
  unfold Raft.lastLogIndex Raft.convertLogicalToPhysical RaftPeer.at?
  refine ⟨by omega, ?_⟩
  rw [if_pos (by omega), show (l.lastIncludedIndex + (l.log.length : ℤ) - 1 -
    l.lastIncludedIndex).toNat = rest.length by omega, hlog]
  exact List.getElem?_concat_length

omit [Inhabited C] in
/-- Once all peers have the end of the log, which is of the present term, it is committed. -/
theorem advanceCommit_all {x : C} (hall : ∀ r, l.matchIndex r = l.lastLogIndex)
    (hends : EndsWith x l) (h : l.advanceCommit = some l') : l.lastLogIndex ≤ l'.commitIndex := by
  obtain ⟨r, hr⟩ := toCommit_mem (Fin.pos l.me) l
  rw [hall r] at hr
  obtain ⟨hlow, hlast⟩ := hends.at?
  unfold Raft.advanceCommit at h
  rw [hr, if_neg (not_le.mpr hlow), hlast] at h
  obtain rfl := Option.some.inj h
  dsimp only
  split_ifs with hcommit
  · exact le_rfl
  · exact not_lt.mp fun hlt => hcommit ⟨rfl, hlt⟩

omit [Inhabited C] in
/-- What a success tells the leader. -/
theorem appendReply_success_end (hb : Bounded l) (hq : q ≠ l.me) {args : AppendEntriesRequest C}
    {resp : AppendEntriesResponse} (hrole : l.currentRole = .leader)
    (hend : args.prevLogIndex + args.entries.length = l.lastLogIndex) (hsucc : resp.success = true)
    (h : appendReply l q l.currentTerm args resp = some l') (hrole' : l'.currentRole = .leader) :
    l'.matchIndex q = l.lastLogIndex ∧ l'.nextIndex q = l.lastLogIndex + 1 ∧
      ∀ x, EndsWith x l → (∀ r ≠ q, r ≠ l.me → l.matchIndex r = l.lastLogIndex) →
        l.lastLogIndex ≤ l'.commitIndex := by
  have hmatched := hb.matched hrole q
  have hmax : max (l.matchIndex q) (args.prevLogIndex + args.entries.length) = l.lastLogIndex := by
    rw [hend]
    exact max_eq_right hmatched
  rw [appendReply, if_neg (not_not.mpr hrole), if_neg (not_not.mpr rfl)] at h
  split_ifs at h
  · obtain rfl := Option.some.inj h
    cases hrole'
  · rw [hmax] at h
    let m : Raft n C := { l with
      nextIndex := Function.update l.nextIndex q (l.lastLogIndex + 1)
      matchIndex := Function.update (Function.update l.matchIndex q l.lastLogIndex) l.me
        (l.lastIncludedIndex + (l.log.length - 1)) }
    refine ⟨?_, ?_, fun x hends hothers =>
      advanceCommit_all (l := m) (x := x) (fun r => ?_) hends h⟩
    · obtain ⟨i, rfl⟩ := advanceCommit_eq h
      exact (Function.update_of_ne hq _ _).trans (Function.update_self _ _ _)
    · obtain ⟨i, rfl⟩ := advanceCommit_eq h
      exact Function.update_self _ _ _
    · change Function.update (Function.update l.matchIndex q l.lastLogIndex) l.me _ r =
        l.lastLogIndex
      by_cases hme : r = l.me
      · rw [hme, Function.update_self, Raft.lastLogIndex, add_sub_assoc]
      · rw [Function.update_of_ne hme]
        by_cases hrq : r = q
        · rw [hrq, Function.update_self]
        · rw [Function.update_of_ne hrq, hothers r hrq hme]

end Rounds

section CatchUp

variable {s t : Cluster n C}

/-- A leader that no peer is ahead of and that can reach every peer. -/
structure Ready (c : Fin n) (s : Cluster n C) : Prop where
  reached : RaftCluster.Reached s
  role : (s.procs c).rf.currentRole = .leader
  term : ∀ r, (s.procs r).rf.currentTerm ≤ (s.procs c).rf.currentTerm
  front : ∀ r ≠ c, InFront r (s.procs c).rf (s.procs r).rf

theorem Ready.linked (h : Ready c s) (q : Fin n) : Linked c q s := ⟨h.reached, h.role, h.term q⟩

/-- A next index at the end of the leader's log is in front of every snapshot. -/
theorem inFront_of_next (h : Linked c q s)
    (hnext : (s.procs c).rf.nextIndex q = (s.procs c).rf.lastLogIndex + 1) :
    InFront q (s.procs c).rf (s.procs q).rf := by
  obtain ⟨a, -, ha⟩ := simulation.reachable h.reached
  have hc := (ha.proc c).peer
  have hq := (ha.proc q).peer
  have hleads := hc.leads h.role
  have hterm : a.term q ≤ a.term c := by
    have hle := hq.term_le
    have hlink := h.term
    have hown := hleads.term
    omega
  have hin := (snapshot_initial ha.reached (Grows.refl a) hleads hq.toMemRel hterm).length_le
  have hle := hq.view.le
  have hnn := hq.view.nonneg
  have hlast := hc.view.lastLogIndex
  rw [List.length_take] at hin
  right
  omega

/-- The leader `c` has brought the peer `q` to the end of its log. -/
structure Caught (c q : Fin n) (s t : Cluster n C) : Prop where
  kept : Kept q (s.procs c).rf (t.procs c).rf
  others : ∀ r, r ≠ c → r ≠ q → t.procs r = s.procs r
  acked : (t.procs c).rf.matchIndex q = (s.procs c).rf.lastLogIndex
  commits : ∀ x, EndsWith x (s.procs c).rf →
    (∀ r ≠ q, r ≠ c → (s.procs c).rf.matchIndex r = (s.procs c).rf.lastLogIndex) →
    (s.procs c).rf.lastLogIndex ≤ (t.procs c).rf.commitIndex
  told : (s.procs c).rf.commitIndex ≤ (t.procs q).rf.commitIndex

omit [Inhabited C] in
theorem EndsWith.kept {x : C} (h : EndsWith x l) (hkept : Kept q l l') : EndsWith x l' := by
  obtain ⟨rest, hrest, hlog⟩ := h
  exact ⟨rest, hrest, by rw [hkept.log.log, hkept.term, hlog]⟩

theorem Ready.catchUp (h : Ready c s) (hq : q ≠ c) :
    ∃ t, ReflTransGen CalmStep s t ∧ Ready c t ∧ Caught c q s t := by
  obtain ⟨k, l, f, l', f', resp, hk, hlast, hsucc, -⟩ :=
    converges_of_inFront hq (h.linked q) (h.front q hq)
  obtain ⟨t, hst, rfl, rfl, ht, hkept, hrest⟩ := linked_rounds (h.linked q) hq hk
  obtain ⟨u, htu, rfl, rfl, hu, hkept', hrest'⟩ := linked_round ht hq hlast
  obtain ⟨a, -, ha⟩ := simulation.reachable ht.reached
  have hb := bounded_of_rel ha.reached (ha.proc c).peer
  have hme : (t.procs c).rf.me = c := (ha.proc c).peer.me
  have hlog := hkept.log.lastLogIndex
  obtain ⟨args, hreq, hrf, hf, hresp⟩ := exchange_appended hlast
  obtain ⟨hend, hcommit⟩ := routineRequest_end hb ht.role hreq
  obtain ⟨hacked, hnext, hcommits⟩ :=
    appendReply_success_end hb (hme.symm ▸ hq) ht.role hend hsucc hrf hu.role
  have htold := appendEntries_commit (hresp ▸ hsucc) (by
    rw [hcommit, hend]
    exact hb.commit_le)
  have hothers : ∀ r, r ≠ c → r ≠ q → u.procs r = s.procs r := fun r hrc hrq =>
    (hrest' r hrc hrq).trans (hrest r hrc hrq)
  have hall := hkept.trans hkept'
  refine ⟨u, hst.trans htu, ⟨hu.reached, hu.role, fun r => ?_, fun r hr => ?_⟩, hall, hothers,
    hacked.trans hlog, fun x hends hmatched => ?_, ?_⟩
  · by_cases hrc : r = c
    · rw [hrc]
    by_cases hrq : r = q
    · exact hrq ▸ hu.term
    · rw [hothers r hrc hrq, hall.term]
      exact h.term r
  · by_cases hrq : r = q
    · rw [hrq]
      exact inFront_of_next hu (by rw [hnext, hkept'.log.lastLogIndex])
    · have hfront := h.front r hr
      unfold InFront at hfront ⊢
      rwa [hothers r hr hrq, hall.log.index, hall.next r hrq]
  · rw [← hlog]
    refine hcommits x (hends.kept hkept) fun r hrq hrme => ?_
    rw [hkept.acked r hrq (hkept.me ▸ hrme), hmatched r hrq (hme ▸ hrme), hlog]
  · rw [hf]
    exact (hkept.commit.trans hcommit.ge).trans htold

/-- The leader brings one peer after the other to the end of its log. What it brings each
peer to is kept while it goes on with the others. -/
theorem Ready.catchAll {I : Cluster n C → Prop} {P : Fin n → Cluster n C → Prop}
    (hI : ∀ {s t q}, I s → Caught c q s t → I t) (hP : ∀ {s t q}, I s → Caught c q s t → P q t)
    (hkeep : ∀ {s t q r}, I s → r ≠ c → r ≠ q → Caught c q s t → P r s → P r t)
    (h : Ready c s) (hs : I s) (rs : List (Fin n)) (hrs : ∀ r ∈ rs, r ≠ c) :
    ∃ t, ReflTransGen CalmStep s t ∧ Ready c t ∧ I t ∧ ∀ r ∈ rs, P r t := by
  induction rs with
  | nil => exact ⟨s, .refl, h, hs, by simp⟩
  | cons q rs ih =>
    obtain ⟨t, hst, ht, hIt, hPt⟩ := ih fun r hr => hrs r (List.mem_cons_of_mem _ hr)
    obtain ⟨u, htu, hu, hcaught⟩ := ht.catchUp (hrs q List.mem_cons_self)
    refine ⟨u, hst.trans htu, hu, hI hIt hcaught, fun r hr => ?_⟩
    by_cases hrq : r = q
    · exact hrq ▸ hP hIt hcaught
    · have hmem := (List.mem_cons.mp hr).resolve_left hrq
      exact hkeep hIt (hrs r hr) hrq hcaught (hPt r hmem)

structure Holding (c : Fin n) (x : C) (i : ℤ) (s : Cluster n C) : Prop where
  me : (s.procs c).rf.me = c
  ends : EndsWith x (s.procs c).rf
  last : (s.procs c).rf.lastLogIndex = i

omit [Inhabited C] in
theorem Holding.caught {x : C} {i : ℤ} (h : Holding c x i s) (hcaught : Caught c q s t) :
    Holding c x i t :=
  ⟨hcaught.kept.me.trans h.me, h.ends.kept hcaught.kept,
    hcaught.kept.log.lastLogIndex.trans h.last⟩

/-- The leader commits the end of its log, and all peers learn it. -/
theorem Ready.commit (hn : 2 ≤ n) (h : Ready c s) {x : C} {i : ℤ} (hs : Holding c x i s) :
    ∃ t, ReflTransGen CalmStep s t ∧ Ready c t ∧ Holding c x i t ∧
      ∀ r, i ≤ (t.procs r).rf.commitIndex := by
  have hothers : ∀ r ∈ others c, r ≠ c := fun r hr => mem_others.mp hr
  obtain ⟨t, hst, ht, hholding, hacked⟩ := h.catchAll (I := Holding c x i)
    (P := fun r s => (s.procs c).rf.matchIndex r = i) Holding.caught
    (fun hs hcaught => hcaught.acked.trans hs.last)
    (fun hs hrc hrq hcaught hr => (hcaught.kept.acked _ hrq (hs.me.symm ▸ hrc)).trans hr)
    hs (others c) hothers
  obtain ⟨q, hq⟩ : ∃ q, q ≠ c := by
    have : Nontrivial (Fin n) := Fin.nontrivial_iff_two_le.mpr hn
    exact exists_ne c
  obtain ⟨u, htu, hu, hcaught⟩ := ht.catchUp hq
  have hcommit : i ≤ (u.procs c).rf.commitIndex := by
    rw [← hholding.last]
    refine hcaught.commits x hholding.ends fun r _ hrc => ?_
    rw [hholding.last]
    exact hacked r (mem_others.mpr hrc)
  obtain ⟨v, huv, hv, ⟨hholding', hcommit'⟩, htold⟩ := hu.catchAll
    (I := fun s => Holding c x i s ∧ i ≤ (s.procs c).rf.commitIndex)
    (P := fun r s => i ≤ (s.procs r).rf.commitIndex)
    (fun hs hcaught => ⟨hs.1.caught hcaught, hs.2.trans hcaught.kept.commit⟩)
    (fun hs hcaught => hs.2.trans hcaught.told)
    (fun hs hrc hrq hcaught hr => by rwa [hcaught.others _ hrc hrq])
    ⟨hholding.caught hcaught, hcommit⟩ (others c) hothers
  refine ⟨v, (hst.trans htu).trans huv, hv, hholding', fun r => ?_⟩
  by_cases hr : r = c
  · exact hr ▸ hcommit'
  · exact htold r (mem_others.mpr hr)

end CatchUp

section Services

variable {s t : Cluster n C}

/-- The service of `p` receives all that `Apply` has taken. -/
theorem receiveAll (s : Cluster n C) (p : Fin n) :
    ∃ t, ReflTransGen CalmStep s t ∧ (t.procs p).rf = (s.procs p).rf ∧
      (t.procs p).applying = [] ∧ ∀ r ≠ p, t.procs r = s.procs r := by
  generalize hmsgs : (s.procs p).applying = msgs
  induction msgs generalizing s with
  | nil => exact ⟨s, .refl, rfl, hmsgs, fun _ _ => rfl⟩
  | cons msg rest ih =>
    let t := s.set p ({ s.procs p with applying := rest }.receive msg)
    have hst : s.step? (.receive p) = some t := by simp [Cluster.step?, hmsgs, t]
    have htp : (t.procs p).rf = (s.procs p).rf ∧ (t.procs p).applying = rest := by
      cases msg <;> simp [t, Cluster.set, Process.receive]
    obtain ⟨u, htu, hrf, hidle, hothers⟩ := ih t htp.2
    refine ⟨u, .head ⟨_, rfl, hst⟩ htu, hrf.trans htp.1, hidle, fun r hr => ?_⟩
    rw [hothers r hr]
    simp [t, Cluster.set, hr]

omit [Inhabited C] in
/-- A pass of `Apply` takes the snapshot, or all that is committed. -/
theorem apply_lastApplied {rf : Raft n C} {result : Raft n C × List (ApplyMsg C)}
    (hle : rf.lastApplied ≤ rf.commitIndex) (h : apply rf = some result) :
    result.1 = { rf with
      lastApplied := if rf.lastApplied < rf.lastIncludedIndex then rf.lastIncludedIndex
        else rf.commitIndex } := by
  unfold apply at h
  dsimp only at h
  split_ifs at h ⊢ with hsnap hcommit
  · rw [← Option.some.inj h]
  · rw [← Option.some.inj h]
  · rw [← Option.some.inj h]
    exact congrArg (fun i => { rf with lastApplied := i }) (le_antisymm hle (not_lt.mp hcommit))

theorem applyPass (hs : RaftCluster.Reached s) (p : Fin n) :
    ∃ t, ReflTransGen CalmStep s t ∧ (t.procs p).rf = { (s.procs p).rf with
        lastApplied := if (s.procs p).rf.lastApplied < (s.procs p).rf.lastIncludedIndex then
          (s.procs p).rf.lastIncludedIndex else (s.procs p).rf.commitIndex } ∧
      (t.procs p).applying = [] ∧ ∀ r ≠ p, t.procs r = s.procs r := by
  obtain ⟨t, hst, hrf, hidle, hothers⟩ := receiveAll s p
  obtain ⟨a, -, ha⟩ := simulation.reachable (hs.trans (run_of_calm hst))
  have hb := bounded_of_rel ha.reached (ha.proc p).peer
  obtain ⟨result, hresult⟩ := Option.isSome_iff_exists.mp hb.apply_isSome
  let u := t.set p { t.procs p with rf := result.1, applying := result.2 }
  have htu : t.step? (.apply p) = some u := by simp [Cluster.step?, hidle, hresult, u]
  obtain ⟨v, huv, hrf', hidle', hothers'⟩ := receiveAll u p
  refine ⟨v, (hst.tail ⟨_, rfl, htu⟩).trans huv, ?_, hidle', fun r hr => ?_⟩
  · rw [hrf', ← hrf, ← apply_lastApplied hb.applied_le hresult]
    simp [u, Cluster.set]
  · rw [hothers' r hr, ← hothers r hr]
    simp [u, Cluster.set, hr]

/-- The service of `p` has received all that is committed. -/
def Settled (s : Cluster n C) (p : Fin n) : Prop :=
  (s.procs p).applying = [] ∧ (s.procs p).rf.lastApplied = (s.procs p).rf.commitIndex

/-- Two passes of `Apply` are enough. -/
theorem settle (hs : RaftCluster.Reached s) (p : Fin n) :
    ∃ t, ReflTransGen CalmStep s t ∧ Settled t p ∧
      (∃ i, (t.procs p).rf = { (s.procs p).rf with lastApplied := i }) ∧
      ∀ r ≠ p, t.procs r = s.procs r := by
  obtain ⟨t, hst, hrf, -, hothers⟩ := applyPass hs p
  obtain ⟨u, htu, hrf', hidle, hothers'⟩ := applyPass (hs.trans (run_of_calm hst)) p
  obtain ⟨a, -, ha⟩ := simulation.reachable hs
  have hge := (ha.proc p).peer.commit_ge
  refine ⟨u, hst.trans htu, ⟨hidle, ?_⟩, ⟨_, by rw [hrf', hrf]⟩, fun r hr => ?_⟩
  · rw [hrf', hrf]
    dsimp only
    split_ifs <;> omega
  · rw [hothers' r hr, hothers r hr]

theorem settleAll (hs : RaftCluster.Reached s) (ps : List (Fin n)) :
    ∃ t, ReflTransGen CalmStep s t ∧ (∀ p ∈ ps, Settled t p) ∧
      ∀ r, ∃ i, (t.procs r).rf = { (s.procs r).rf with lastApplied := i } := by
  induction ps with
  | nil => exact ⟨s, .refl, by simp, fun r => ⟨_, rfl⟩⟩
  | cons p ps ih =>
    obtain ⟨t, hst, hsettled, hrf⟩ := ih
    obtain ⟨u, htu, hp, ⟨i, hi⟩, hothers⟩ := settle (hs.trans (run_of_calm hst)) p
    refine ⟨u, hst.trans htu, fun r hr => ?_, fun r => ?_⟩
    · by_cases hrp : r = p
      · exact hrp ▸ hp
      · have hold := hsettled r ((List.mem_cons.mp hr).resolve_left hrp)
        unfold Settled
        rwa [hothers r hrp]
    · by_cases hrp : r = p
      · obtain ⟨j, hj⟩ := hrf p
        exact ⟨i, by rw [hrp, hi, hj]⟩
      · exact hothers r hrp ▸ hrf r

omit [Inhabited C] in
/-- What is chosen is in the log of a leader that no member is ahead of. -/
theorem chosen_prefix_leader {a : Proto n C}
    (hr : TermLogProtocol.Reached LogValue.term a) {T U : ℤ}
    {es : List (LogValue C)} (h : RaftRefinement.Chosen a T es) (hU : ∀ r, a.term r ≤ U)
    (hlead : a.leader U ≠ none) : es <+: a.leaderLog U := by
  rcases h with rfl | ⟨V, m, hV, hcommitted, hes⟩
  · exact List.nil_prefix
  · obtain ⟨-, Q, hQ, hacks⟩ := id hcommitted
    obtain ⟨r, hr', -⟩ := hQ.inter hQ
    obtain ⟨k, -, hack⟩ := hacks r hr'
    have hVU : V ≤ U := (hr.ledger.ack_le hack).trans (hU r)
    exact hes.trans (hcommitted.prefix_leaderLog hr.roots hr.custody hVU hlead)

/-- Nothing is applied beyond the log of a leader that no peer is ahead of. -/
theorem Ready.applied_le {a : Proto n C} (h : Ready c s) (ha : Related s a) {i : ℤ} {st : List C}
    (hst : Applied a i st) : i ≤ (s.procs c).rf.lastLogIndex := by
  obtain ⟨T, es, hchosen, hi, -⟩ := hst
  have hc := (ha.proc c).peer
  have hleads := hc.leads h.role
  have hterms : ∀ r, a.term r ≤ a.term c := fun r =>
    ((ha.proc r).peer.term_le.trans (h.term r)).trans hleads.term.le
  have hin := (chosen_prefix_leader ha.reached hchosen hterms
    (by rw [hleads.elected]; exact Option.some_ne_none c)).length_le
  rw [← ha.reached.ledger.leader_log hleads.elected rfl] at hin
  rw [hc.view.lastLogIndex]
  omega

/-- The service of a settled peer is at the peer's commit index. -/
theorem Settled.delivered {a : Proto n C} (h : Settled s p) (ha : Related s a) :
    ∃ st, (s.procs p).delivered.head? = some ((s.procs p).rf.commitIndex, st) ∧
      Applied a (s.procs p).rf.commitIndex st := by
  obtain ⟨i, st, rest, hd, hp⟩ := (ha.proc p).service.pending
  rw [h.1] at hp
  have hi : i = (s.procs p).rf.commitIndex := hp.trans h.2
  refine ⟨st, by rw [hd, hi]; rfl, ?_⟩
  exact hi ▸ ((ha.proc p).service.delivered (i, st) (hd ▸ List.mem_cons_self)).1

theorem Elected.ready (h : RaftCampaigns.Elected c s) (hs : RaftCluster.Reached s) : Ready c s := by
  have hlinked : ∀ r, Linked c r s := fun r => ⟨hs, h.role, (h.term r).le⟩
  exact ⟨hs, h.role, fun r => (h.term r).le, fun r _ => inFront_of_next (hlinked r) (h.next r)⟩

/-- The leader takes a command from its service. -/
theorem Ready.start (h : Ready c s) (x : C) :
    ∃ t, CalmStep s t ∧ Ready c t ∧ Holding c x ((s.procs c).rf.lastLogIndex + 1) t := by
  obtain ⟨a, -, ha⟩ := simulation.reachable h.reached
  have hb := bounded_of_rel ha.reached (ha.proc c).peer
  let rf : Raft n C := Raft.persist
    { (s.procs c).rf with log := (s.procs c).rf.log ++ [⟨(s.procs c).rf.currentTerm, x⟩] }
  have hstart : (RaftPeer.start (s.procs c).rf x).1 = rf := by simp [RaftPeer.start, h.role, rf]
  let t := s.set c { s.procs c with rf := rf }
  have hst : CalmStep s t := ⟨.start c x, rfl, by simp [Cluster.step?, hstart, t]⟩
  have htc : (t.procs c).rf = rf := by simp [t, Cluster.set]
  have hothers : ∀ r ≠ c, t.procs r = s.procs r := fun r hr => by simp [t, Cluster.set, hr]
  refine ⟨t, hst, ⟨h.reached.trans (run_of_calm (.single hst)), htc ▸ h.role, fun r => ?_,
    fun r hr => ?_⟩, ?_, ?_, ?_⟩
  · by_cases hr : r = c
    · rw [hr]
    · rw [hothers r hr, htc]
      exact h.term r
  · rw [htc, hothers r hr]
    exact h.front r hr
  · rw [htc]
    exact (ha.proc c).peer.me
  · rw [htc]
    refine ⟨(s.procs c).rf.log, fun hnil => ?_, rfl⟩
    have := hb.log_pos
    simp [hnil] at this
  · rw [htc]
    simp only [rf, Raft.persist, Raft.lastLogIndex, List.length_append, List.length_singleton]
    omega

/-- A log that holds an entry at its last index ends with it. -/
theorem eq_take_concat {α : Type*} {es : List α} {k : ℕ} {v : α} (hlen : es.length = k + 1)
    (hv : es[k]? = some v) : es = es.take k ++ [v] := by
  obtain ⟨hlt, rfl⟩ := List.getElem?_eq_some_iff.mp hv
  rw [List.take_append_getElem hlt, ← hlen, List.take_length]

/-- Once the leader has committed its log, the last applied command is the one it ends with. -/
theorem Holding.applied {a : Proto n C} {x : C} {i : ℤ} (h : Holding c x (i + 1) s)
    (ha : Related s a) (hcommit : (s.procs c).rf.commitIndex = i + 1) :
    ∃ st, Applied a (i + 1) (st ++ [x]) := by
  have hc := (ha.proc c).peer
  obtain ⟨hlow, hlast⟩ := h.ends.at?
  have hlen := hc.view.lastLogIndex
  have hnn := hc.view.nonneg
  rw [Raft.convertLogicalToPhysical, hc.view.at? hlow, h.last] at hlast
  rw [h.last] at hlen hlow
  have happlied := hc.applied_take (show 0 ≤ i + 1 by omega) hcommit.ge
  rw [List.take_of_length_le (by omega),
    eq_take_concat (k := (i + 1 - 1).toNat) (by omega) hlast, items, List.map_append] at happlied
  exact ⟨_, happlied⟩

/-- The cluster never gets stuck. From every reachable state, whatever was lost and whoever
crashed before, there is a run without further faults in which the command `x` is committed
behind everything that any service has received, and all services receive it. -/
theorem commit_possible (hn : 2 ≤ n) (hs : RaftCluster.Reached s) (x : C) :
    ∃ t i st, ReflTransGen CalmStep s t ∧ (∀ p, (s.procs p).serviceState <+: st) ∧
      ∀ p, (t.procs p).delivered.head? = some (i, st ++ [x]) := by
  obtain ⟨t, c, hst, helected⟩ := exists_elected hn hs
  have ht := Elected.ready helected (hs.trans (run_of_calm hst))
  obtain ⟨u, htu, hu, hholding⟩ := ht.start x
  obtain ⟨v, huv, hv, hholding', hcommit⟩ := hu.commit hn hholding
  obtain ⟨w, hvw, hsettled, hrf⟩ := settleAll hv.reached (List.finRange n)
  obtain ⟨a, -, ha⟩ := simulation.reachable hs
  obtain ⟨b, hab, hb⟩ := simulation.run ha (run_of_calm hst)
  obtain ⟨d, hbd, hd⟩ := simulation.run hb (run_of_calm ((huv.head htu).trans hvw))
  set i := (t.procs c).rf.lastLogIndex with hi
  have hcommits : ∀ p, (w.procs p).rf.commitIndex = i + 1 := by
    intro p
    obtain ⟨j, hj⟩ := hrf p
    rw [hj]
    obtain ⟨e, -, he⟩ := simulation.reachable hv.reached
    have hpeer := (he.proc p).peer
    refine le_antisymm ?_ (hcommit p)
    rw [← hholding'.last]
    exact hv.applied_le he (hpeer.applied_take
      (hpeer.view.nonneg.trans hpeer.commit_ge) le_rfl)
  have hholding'' : Holding c x (i + 1) w := by
    obtain ⟨j, hj⟩ := hrf c
    refine ⟨by rw [hj]; exact hholding'.me, ?_, by rw [hj]; exact hholding'.last⟩
    rw [hj]
    exact hholding'.ends
  obtain ⟨st, hlast⟩ := hholding''.applied hd (hcommits c)
  refine ⟨w, i + 1, st, (hst.trans (huv.head htu)).trans hvw, fun p => ?_, fun p => ?_⟩
  · obtain ⟨j, st₀, rest, hdel, -⟩ := (ha.proc p).service.pending
    have happlied := ((ha.proc p).service.delivered (j, st₀) (hdel ▸ List.mem_cons_self)).1
    have hbound := ht.applied_le hb (happlied.grows (run_grows hab ha.reached))
    have hstate : (s.procs p).serviceState = st₀ := by simp [Process.serviceState, hdel]
    rw [hstate]
    exact (happlied.grows (run_grows (hab.trans hbd) ha.reached)).initial hd.reached
      hlast.of_concat hbound
  · obtain ⟨st', hhead, happlied⟩ := (hsettled p (List.mem_finRange p)).delivered hd
    rw [hcommits p] at hhead happlied
    rw [hhead, happlied.unique hd.reached hlast]

/-- The cluster recovers also when a late rejection has left a follower behind. -/
theorem commit_possible_left_behind : ∃ s : Cluster 2 ℕ, RaftCluster.Reached s ∧
    (s.procs 0).rf.currentRole = .leader ∧ ¬ InFront 1 (s.procs 0).rf (s.procs 1).rf ∧
    ∃ t i st, ReflTransGen CalmStep s t ∧ (∀ p, (s.procs p).serviceState <+: st) ∧
      ∀ p, (t.procs p).delivered.head? = some (i, st ++ [5]) := by
  obtain ⟨s, hs, htest⟩ := Cluster.exists_of_run
    (show ((RaftCluster.initial : Cluster 2 ℕ).run (backedUpRun ++ lateRejectionRun)).any
      (fun s => decide ((s.procs 0).rf.currentRole = .leader ∧
        ¬ ((s.procs 1).rf.lastIncludedIndex ≤ (s.procs 0).rf.lastIncludedIndex ∨
          (s.procs 1).rf.lastIncludedIndex < (s.procs 0).rf.nextIndex 1))) = true by
      decide +kernel)
  obtain ⟨hrole, hbehind⟩ := of_decide_eq_true htest
  exact ⟨s, reached_of_steps hs, hrole, hbehind, commit_possible le_rfl (reached_of_steps hs) 5⟩

end Services

end DistributedLabs.RaftAvailability
