import DistributedLabs.RaftBackup

/-!
# What a leader knows about a follower

A leader keeps two indices for every other peer. A success raises `matchIndex` and puts
`nextIndex` behind it. The other two replies assign without looking at what is already known:
the reply to a snapshot sets both indices to the end of that snapshot, and a rejection sets
`nextIndex` alone. So a reply that was overtaken by a later one takes back what the later one
had brought. Without such replies `matchIndex` only grows, and `nextIndex` stays above it.
-/

namespace DistributedLabs.RaftLeaderProgress

open RaftPeer RaftCluster RaftRefinement RaftLogView RaftSafety RaftStepCases RaftPeerSteps
  RaftBackup TermLogProtocol TransitionRuns Relation

variable {n : ℕ} {C : Type*} {s₀ s t : Cluster n C} {e : Event n C} {p q : Fin n}
  {rf : Raft n C}

section Indices

/-- How an event in state `s` leaves the indices that the leader `p` keeps for `q`. -/
inductive Moved (s : Cluster n C) (e : Event n C) (p q : Fin n) (rf : Raft n C) : Prop
  | kept (hrole : (s.procs p).rf.currentRole = .leader)
    (hmatch : rf.matchIndex q = (s.procs p).rf.matchIndex q)
    (hnext : rf.nextIndex q = (s.procs p).rf.nextIndex q)
  | elected (hrole : (s.procs p).rf.currentRole ≠ .leader) (hmatch : rf.matchIndex q = 0)
  | matched (hrole : (s.procs p).rf.currentRole = .leader)
    (hmatch : (s.procs p).rf.matchIndex q ≤ rf.matchIndex q)
    (hnext : rf.nextIndex q = rf.matchIndex q + 1)
  | installed {i : ℕ} {call : Call n C} {args : InstallSnapshotRequest C}
    {resp : InstallSnapshotResponse} (he : e = .deliver i)
    (hpkt : s.net[i]? = some (.reply call.id p (.installSnapshot resp)))
    (hcall : call ∈ (s.procs p).calls) (hserver : call.server = q)
    (hreq : call.req = .installSnapshot args) (hrole : (s.procs p).rf.currentRole = .leader)
    (hsaved : call.savedTerm = (s.procs p).rf.currentTerm)
    (hterm : resp.term ≤ (s.procs p).rf.currentTerm)
    (hmatch : rf.matchIndex q = args.lastIncludedIndex)
    (hnext : rf.nextIndex q = args.lastIncludedIndex + 1)
  | rejected {i : ℕ} {call : Call n C} {args : AppendEntriesRequest C}
    {resp : AppendEntriesResponse} (he : e = .deliver i)
    (hpkt : s.net[i]? = some (.reply call.id p (.appendEntries resp)))
    (hcall : call ∈ (s.procs p).calls) (hserver : call.server = q)
    (hreq : call.req = .appendEntries args) (hrole : (s.procs p).rf.currentRole = .leader)
    (hsaved : call.savedTerm = (s.procs p).rf.currentTerm)
    (hterm : resp.term ≤ (s.procs p).rf.currentTerm) (hfail : resp.success = false)
    (hmatch : rf.matchIndex q = (s.procs p).rf.matchIndex q)
    (hnext : rf.nextIndex q = (s.procs p).rf.backUp resp)

theorem moved_of_leads (h : Leads s e p rf) (hq : q ≠ (s.procs p).rf.me) : Moved s e p q rf := by
  cases h with
  | kept hrole hterm hmatch hnext => exact .kept hrole (congrFun hmatch q) (congrFun hnext q)
  | elected hrole hmatch => exact .elected hrole (hmatch q hq)
  | @installed i call args resp he hpkt hcall hreq hrole hsaved hresp hterm hmatch hnext =>
    by_cases hserver : call.server = q
    · refine .installed he hpkt hcall hserver hreq hrole hsaved hresp ?_ ?_
      · rw [hmatch, hserver, Function.update_self]
      · rw [hnext, hserver, Function.update_self]
    · refine .kept hrole ?_ ?_
      · rw [hmatch, Function.update_of_ne (Ne.symm hserver)]
      · rw [hnext, Function.update_of_ne (Ne.symm hserver)]
  | @appended i call args resp matched he hpkt hcall hreq hrole hsaved hsucc hterm hmatched hmatch
      hnext =>
    by_cases hserver : call.server = q
    · have hq' : rf.matchIndex q = matched := by rw [hmatch q hq, hserver, Function.update_self]
      refine .matched hrole ?_ ?_
      · rw [hq', hmatched, hserver]
        exact le_max_left _ _
      · rw [hnext, hq', hserver, Function.update_self]
    · refine .kept hrole ?_ ?_
      · rw [hmatch q hq, Function.update_of_ne (Ne.symm hserver)]
      · rw [hnext, Function.update_of_ne (Ne.symm hserver)]
  | @rejected i call args resp he hpkt hcall hreq hrole hsaved hresp hfail hterm hmatch hnext =>
    by_cases hserver : call.server = q
    · refine .rejected he hpkt hcall hserver hreq hrole hsaved hresp hfail (congrFun hmatch q) ?_
      rw [hnext, hserver, Function.update_self]
    · refine .kept hrole (congrFun hmatch q) ?_
      rw [hnext, Function.update_of_ne (Ne.symm hserver)]

end Indices

variable [Inhabited C]

section Origins

/-- A reply in flight was given by its sender in an earlier state, to a request in flight then. -/
theorem reply_origin (hs : RaftCluster.Reached s) {id : ℕ} {rep : Reply}
    (hpkt : .reply id p rep ∈ s.net) : ∃ s₀ r req, RaftCluster.Reached s₀ ∧
      ReflTransGen RaftCluster.Step s₀ s ∧ .request id p r req ∈ s₀.net ∧
      rep = ((s₀.procs r).handle req).2 := by
  obtain ⟨x, rfl, hrun⟩ := hs
  induction hrun with
  | refl => cases hpkt
  | @tail u v hrun hstep ih =>
    obtain ⟨e, he⟩ := hstep
    rcases (step_outcome he).replies hpkt with hold | ⟨i, r, req, -, hreq, hrep⟩
    · obtain ⟨s₀, r, req, h₀, hto, hfrom⟩ := ih hold
      exact ⟨s₀, r, req, h₀, hto.tail ⟨e, he⟩, hfrom⟩
    · exact ⟨u, r, req, reached_of_steps hrun, .single ⟨e, he⟩, List.mem_of_getElem? hreq, hrep⟩

/-- A rejection that the leader accepts for its term tells nothing, or the leader goes to the
index that it points to, or above. -/
theorem hint_le_backUp (hs : RaftCluster.Reached s) {call : Call n C}
    {args : AppendEntriesRequest C} {resp : AppendEntriesResponse}
    (hpkt : .reply call.id p (.appendEntries resp) ∈ s.net) (hcall : call ∈ (s.procs p).calls)
    (hreq : call.req = .appendEntries args) (hrole : (s.procs p).rf.currentRole = .leader)
    (hsaved : call.savedTerm = (s.procs p).rf.currentTerm)
    (hterm : resp.term ≤ (s.procs p).rf.currentTerm) (hfail : resp.success = false) :
    hint resp = 0 ∨ hint resp ≤ (s.procs p).rf.backUp resp := by
  obtain ⟨s₀, r, req, h₀, hrun, hsent, hrep⟩ := reply_origin hs hpkt
  obtain ⟨-, hsame⟩ := call_of_request h₀ hrun hsent hcall rfl
  obtain rfl := hsame.symm.trans hreq
  obtain rfl := Reply.appendEntries.inj hrep
  obtain ⟨a, -, ha⟩ := simulation.reachable hs
  have hargs : (s.procs p).rf.currentTerm = args.term := by
    have hrel := ((ha.proc p).calls call hcall).2
    rw [hreq] at hrel
    exact hsaved.symm.trans hrel.1.symm
  have hf : (s₀.procs r).rf.currentTerm ≤ args.term := by
    by_contra hstale
    rw [appendEntries, if_pos (not_le.mp hstale)] at hterm
    exact hstale (hterm.trans hargs.le)
  rcases backUp_rejected_run h₀ hrun hsent hrole hargs hf hfail with ⟨-, heq⟩ | ⟨-, -, hback, -⟩
  · left
    rw [heq]
    rfl
  · exact Or.inr hback

end Origins

section Overtaken

/-- The reply to a call tells the leader less than it knows about the peer: a snapshot that ends
below `matchIndex` was installed, or entries were rejected with an index up to `matchIndex`. A
reply of a higher term is not one of these, for with it the leader only steps down. -/
def saysLess (rf : Raft n C) (call : Call n C) (rep : Reply) : Bool :=
  match call.req, rep with
  | .installSnapshot args, .installSnapshot resp =>
    decide (resp.term ≤ rf.currentTerm ∧ args.lastIncludedIndex < rf.matchIndex call.server)
  | .appendEntries _, .appendEntries resp =>
    !resp.success && decide (resp.term ≤ rf.currentTerm ∧ 0 < rf.matchIndex call.server ∧
      hint resp ≤ rf.matchIndex call.server)
  | _, _ => false

/-- In the event the leader `p` handles a reply of `q`, in the term of the call, that says less
than `p` knows. -/
def overtaken (p q : Fin n) (s : Cluster n C) : Event n C → Bool
  | .deliver i => match s.net[i]? with
    | some (.reply id dst rep) =>
      decide (dst = p ∧ (s.procs p).rf.currentRole = .leader) && (s.procs p).calls.any fun call =>
        decide (call.id = id ∧ call.server = q ∧ call.savedTerm = (s.procs p).rf.currentTerm) &&
          saysLess (s.procs p).rf call rep
    | _ => false
  | _ => false

omit [Inhabited C] in
theorem overtaken_of_reply {i : ℕ} {call : Call n C} {rep : Reply}
    (hpkt : s.net[i]? = some (.reply call.id p rep)) (hcall : call ∈ (s.procs p).calls)
    (hserver : call.server = q) (hrole : (s.procs p).rf.currentRole = .leader)
    (hsaved : call.savedTerm = (s.procs p).rf.currentTerm)
    (hless : saysLess (s.procs p).rf call rep = true) : overtaken p q s (.deliver i) = true := by
  simp only [overtaken, hpkt, Bool.and_eq_true, decide_eq_true_eq, List.any_eq_true]
  exact ⟨⟨trivial, hrole⟩, call, hcall, ⟨rfl, hserver, hsaved⟩, hless⟩

/-- A step in which `p` handles no overtaken reply of `q`. -/
def OrderlyStep (p q : Fin n) (s t : Cluster n C) : Prop :=
  ∃ e, s.step? e = some t ∧ overtaken p q s e = false

def LeadingStep (p q : Fin n) (s t : Cluster n C) : Prop :=
  OrderlyStep p q s t ∧ (t.procs p).rf.currentRole = .leader

theorem OrderlyStep.step (h : OrderlyStep p q s t) : RaftCluster.Step s t :=
  h.imp fun _ he => he.1

/-- The next index of a leader is within its log or right behind it. -/
theorem next_bounds (hs : RaftCluster.Reached s) (hrole : (s.procs p).rf.currentRole = .leader)
    (q : Fin n) : 1 ≤ (s.procs p).rf.nextIndex q ∧
      (s.procs p).rf.nextIndex q ≤ (s.procs p).rf.lastLogIndex + 1 := by
  obtain ⟨a, -, ha⟩ := simulation.reachable hs
  have hmem := (ha.proc p).peer.toMemRel
  have hnext := (hmem.leads hrole).next q
  have hlen := hmem.view.length
  rw [Raft.lastLogIndex]
  omega

/-- One orderly step of a leader. -/
theorem progress_step (hs : RaftCluster.Reached s) (hq : q ≠ p) (h : OrderlyStep p q s t)
    (hinv : (s.procs p).rf.currentRole = .leader →
      (s.procs p).rf.matchIndex q < (s.procs p).rf.nextIndex q)
    (hrole : (t.procs p).rf.currentRole = .leader) :
    (t.procs p).rf.matchIndex q < (t.procs p).rf.nextIndex q ∧
      ((s.procs p).rf.currentRole = .leader →
        (s.procs p).rf.matchIndex q ≤ (t.procs p).rf.matchIndex q) := by
  obtain ⟨hpos, -⟩ := next_bounds (hs.tail h.step) hrole q
  obtain ⟨e, he, horder⟩ := h
  obtain ⟨a, -, ha⟩ := simulation.reachable hs
  have hme := (ha.proc p).peer.me
  cases moved_of_leads (leads_of_change (step_change he p) hrole) (hme.symm ▸ hq) with
  | kept hlead hmatch hnext =>
    rw [hmatch, hnext]
    exact ⟨hinv hlead, fun _ => le_rfl⟩
  | elected hlead hmatch => exact ⟨by omega, fun hlead' => absurd hlead' hlead⟩
  | matched hlead hmatch hnext => exact ⟨by omega, fun _ => hmatch⟩
  | installed hdeliver hpkt hcall hserver hreq hlead hsaved hterm hmatch hnext =>
    subst hdeliver
    refine ⟨by omega, fun _ => ?_⟩
    by_contra hless
    have hover := overtaken_of_reply hpkt hcall hserver hlead hsaved (by
      simp only [saysLess, hreq, hserver, decide_eq_true_eq]
      exact ⟨hterm, not_le.mp fun hle => hless (hle.trans hmatch.ge)⟩)
    exact Bool.false_ne_true (horder.symm.trans hover)
  | rejected hdeliver hpkt hcall hserver hreq hlead hsaved hterm hfail hmatch hnext =>
    subst hdeliver
    refine ⟨?_, fun _ => hmatch.ge⟩
    by_contra hless
    have hhint := hint_le_backUp hs (List.mem_of_getElem? hpkt) hcall hreq hlead hsaved hterm hfail
    have hover := overtaken_of_reply hpkt hcall hserver hlead hsaved (by
      simp only [saysLess, hreq, hserver, hfail, Bool.not_false, Bool.true_and, decide_eq_true_eq]
      exact ⟨hterm, by omega⟩)
    exact Bool.false_ne_true (horder.symm.trans hover)

theorem reached_of_orderly (h₀ : RaftCluster.Reached s₀)
    (hrun : ReflTransGen (OrderlyStep p q) s₀ s) : RaftCluster.Reached s := by
  induction hrun with
  | refl => exact h₀
  | tail _ hstep ih => exact ih.tail hstep.step

/-- From a state in which `p` does not lead, as long as the steps are orderly, the next index of a
leader is above the match index. -/
theorem match_lt_next (hq : q ≠ p) (h₀ : RaftCluster.Reached s₀)
    (hrole₀ : (s₀.procs p).rf.currentRole ≠ .leader) (hs : ReflTransGen (OrderlyStep p q) s₀ s)
    (hrole : (s.procs p).rf.currentRole = .leader) :
    (s.procs p).rf.matchIndex q < (s.procs p).rf.nextIndex q := by
  induction hs with
  | refl => exact absurd hrole hrole₀
  | tail hrun hstep ih =>
    exact (progress_step (reached_of_orderly h₀ hrun) hq hstep ih hrole).1

end Overtaken

/-- Leader progress. From a reachable state in which `p` does not lead, let `p` handle no overtaken
reply of `q`. Take any state then in which `p` leads, and any later one up to which it has led all
the time. Then `matchIndex` of `q` has not decreased, it is below `nextIndex`, and `nextIndex` is at
most the last index plus one. -/
theorem leader_progress (hq : q ≠ p) (h₀ : RaftCluster.Reached s₀)
    (hrole₀ : (s₀.procs p).rf.currentRole ≠ .leader) (hs : ReflTransGen (OrderlyStep p q) s₀ s)
    (hrole : (s.procs p).rf.currentRole = .leader)
    (hrun : ReflTransGen (LeadingStep p q) s t) :
    (s.procs p).rf.matchIndex q ≤ (t.procs p).rf.matchIndex q ∧
      (t.procs p).rf.matchIndex q < (t.procs p).rf.nextIndex q ∧
      (t.procs p).rf.nextIndex q ≤ (t.procs p).rf.lastLogIndex + 1 := by
  have hall : ReflTransGen (OrderlyStep p q) s₀ t ∧ (t.procs p).rf.currentRole = .leader ∧
      (s.procs p).rf.matchIndex q ≤ (t.procs p).rf.matchIndex q := by
    induction hrun with
    | refl => exact ⟨hs, hrole, le_rfl⟩
    | tail _ hstep ih =>
      obtain ⟨hto, hlead, hle⟩ := ih
      have hmono := (progress_step (reached_of_orderly h₀ hto) hq hstep.1
        (match_lt_next hq h₀ hrole₀ hto) hstep.2).2 hlead
      exact ⟨hto.tail hstep.1, hstep.2, hle.trans hmono⟩
  obtain ⟨hto, hlead, hle⟩ := hall
  exact ⟨hle, match_lt_next hq h₀ hrole₀ hto hlead,
    (next_bounds (reached_of_orderly h₀ hto) hlead q).2⟩

def orderlyStep? (p q : Fin n) (test : Raft n C → Bool) (s : Cluster n C) (e : Event n C) :
    Option (Cluster n C) :=
  if overtaken p q s e then none else (s.step? e).filter fun t => test (t.procs p).rf

theorem orderly_of_step? {test : Raft n C → Bool} (h : orderlyStep? p q test s e = some t) :
    OrderlyStep p q s t ∧ test (t.procs p).rf = true := by
  unfold orderlyStep? at h
  split_ifs at h with hover
  obtain ⟨hstep, htest⟩ := Option.filter_eq_some_iff.mp h
  exact ⟨⟨e, hstep, by simpa using hover⟩, htest⟩

def electedRun : List (Event 3 ℕ) := [.ticker 0, .deliver 1, .deliver 0]

/-- Peer 0 commits a command with peer 1, takes a snapshot and sends it twice to peer 2. With the
reply to the second it learns that peer 2 has the snapshot, and then brings it one more command.
The reply to the first is still in flight. -/
def installedTwiceRun : List (Event 3 ℕ) :=
  [.start 0 7, .appendEntriesRoutine 0, .deliver 1, .deliver 0, .apply 0, .receive 0,
    .snapshot 0 0, .lose 0, .lose 0, .appendEntriesRoutine 0, .appendEntriesRoutine 0, .deliver 2,
    .deliver 1, .deliver 0, .start 0 8, .appendEntriesRoutine 0, .deliver 0, .deliver 0]

theorem leader_progress_installed : ∃ s t : Cluster 3 ℕ, RaftCluster.Reached s ∧
    ReflTransGen RaftCluster.Step s t ∧ (s.procs 0).rf.matchIndex 2 = 0 ∧
    (t.procs 0).rf.matchIndex 2 = 2 ∧
    (s.procs 0).rf.matchIndex 2 ≤ (t.procs 0).rf.matchIndex 2 ∧
    (t.procs 0).rf.matchIndex 2 < (t.procs 0).rf.nextIndex 2 ∧
    (t.procs 0).rf.nextIndex 2 ≤ (t.procs 0).rf.lastLogIndex + 1 := by
  obtain ⟨s, hs, htest⟩ : ∃ s : Cluster 3 ℕ, ReflTransGen (OrderlyStep 0 2) initial s ∧
      (decide ((s.procs 0).rf.currentRole = .leader ∧ (s.procs 0).rf.matchIndex 2 = 0) &&
        (exec (orderlyStep? 0 2 fun rf => decide (rf.currentRole = .leader)) s
          installedTwiceRun).any fun t => decide ((t.procs 0).rf.matchIndex 2 = 2)) = true := by
    apply exists_of_exec (fun u e v h => (orderly_of_step? h).1)
    show (exec (orderlyStep? 0 2 fun _ => true) (initial : Cluster 3 ℕ) electedRun).any _ = true
    decide +kernel
  obtain ⟨hleft, hrest⟩ := Bool.and_eq_true_iff.mp htest
  obtain ⟨hrole, hzero⟩ := of_decide_eq_true hleft
  obtain ⟨t, hrun, htwo⟩ : ∃ t, ReflTransGen (LeadingStep 0 2) s t ∧ _ :=
    exists_of_exec (fun u e v h => (orderly_of_step? h).imp_right of_decide_eq_true) hrest
  have hstart : RaftCluster.Reached (initial : Cluster 3 ℕ) := reached_of_steps .refl
  exact ⟨s, t, reached_of_orderly hstart hs,
    ReflTransGen.mono (fun _ _ hst => hst.1.step) _ _ hrun, hzero,
    of_decide_eq_true htwo, leader_progress (by decide) hstart nofun hs hrole hrun⟩

/-- Peer 0 of two leads in term two with an entry of term one that peer 1 does not have, and has
it rejected twice. After one rejection it brings the entry to peer 1, and then handles the other. -/
def rejectedTwiceRun : List (Event 2 ℕ) :=
  missingRun ++ [.deliver 0, .appendEntriesRoutine 0, .deliver 0, .deliver 0,
    .appendEntriesRoutine 0, .deliver 0, .deliver 0, .deliver 0]

/-- What a leader has learned is taken back. The late reply to a snapshot lowers the match index
of a follower, and a late rejection puts the next index of a follower below the match index. -/
theorem progress_taken_back :
    (∃ s t : Cluster 3 ℕ, RaftCluster.Reached s ∧ s.step? (.deliver 1) = some t ∧
      (s.procs 0).rf.currentRole = .leader ∧ (t.procs 0).rf.currentRole = .leader ∧
      (t.procs 0).rf.currentTerm = (s.procs 0).rf.currentTerm ∧
      (s.procs 0).rf.matchIndex 2 = 2 ∧ (t.procs 0).rf.matchIndex 2 = 1) ∧
    ∃ s : Cluster 2 ℕ, RaftCluster.Reached s ∧ (s.procs 0).rf.currentRole = .leader ∧
      (s.procs 0).rf.matchIndex 1 = 1 ∧ (s.procs 0).rf.nextIndex 1 = 1 := by
  constructor
  · obtain ⟨s, hs, htest⟩ := Cluster.exists_of_run
      (show ((initial : Cluster 3 ℕ).run (electedRun ++ installedTwiceRun)).any (fun s => decide
        ((s.procs 0).rf.currentRole = .leader ∧ (s.procs 0).rf.matchIndex 2 = 2) &&
        (s.step? (.deliver 1)).any fun t => decide ((t.procs 0).rf.currentRole = .leader ∧
          (t.procs 0).rf.currentTerm = (s.procs 0).rf.currentTerm ∧
          (t.procs 0).rf.matchIndex 2 = 1)) = true by decide +kernel)
    obtain ⟨hleft, hrest⟩ := Bool.and_eq_true_iff.mp htest
    obtain ⟨hrole, htwo⟩ := of_decide_eq_true hleft
    obtain ⟨t, ht, hright⟩ := (Option.any_eq_true _ _).mp hrest
    obtain ⟨hrole', hterm, hone⟩ := of_decide_eq_true hright
    exact ⟨s, t, reached_of_steps hs, ht, hrole, hrole', hterm, htwo, hone⟩
  · obtain ⟨s, hs, htest⟩ := Cluster.exists_of_run
      (show ((initial : Cluster 2 ℕ).run rejectedTwiceRun).any (fun s => decide
        ((s.procs 0).rf.currentRole = .leader ∧ (s.procs 0).rf.matchIndex 1 = 1 ∧
          (s.procs 0).rf.nextIndex 1 = 1)) = true by decide +kernel)
    exact ⟨s, reached_of_steps hs, of_decide_eq_true htest⟩

end DistributedLabs.RaftLeaderProgress
