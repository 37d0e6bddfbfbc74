import DistributedLabs.RaftSafety

/-!
# Positive replies are backed by the disk

A granted vote and an acknowledged batch of entries stay on the disk of the peer that
sent the reply until it has saved a higher term. The saved snapshot is at every moment the
state of the service at the saved index. A crash inside an operation is an event of the
cluster, so "every later state" includes what each single save leaves behind.
-/

namespace DistributedLabs.RaftSafety

open RaftPeer RaftCluster RaftRefinement RaftLogView TermLogProtocol TransitionRuns Relation
  LogPrefixes

variable {n : ℕ} {C : Type*}

/-- What was saved has entry `v` at index `i`, in the log or below the snapshot. -/
def SavedHolds (d : Saved C) (i : ℤ) (v : LogValue C) : Prop :=
  (d.lastIncludedIndex < i ∧ at? d.log (i - d.lastIncludedIndex) = some v) ∨
    (0 < i ∧ i ≤ d.lastIncludedIndex ∧ d.snapshot[(i - 1).toNat]? = some v.item)

/-- The promise that a positive reply makes is kept by what is saved. -/
def Backed (d : Saved C) : Request C → Reply → Prop
  | .requestVote args, .requestVote reply => reply.voteGranted = true →
    args.term < d.currentTerm ∨ (d.currentTerm = args.term ∧ d.votedFor = args.candidateId)
  | .appendEntries args, .appendEntries reply => reply.success = true →
    args.term < d.currentTerm ∨
      ((0 < args.prevLogIndex → d.lastIncludedIndex ≤ args.prevLogIndex →
          (at? d.log (args.prevLogIndex - d.lastIncludedIndex)).map LogValue.term =
            some args.prevLogTerm) ∧
        ∀ (j : ℕ) (v : LogValue C), args.entries[j]? = some v →
          SavedHolds d (args.prevLogIndex + 1 + j) v)
  | _, _ => True

theorem savedHolds_of_log {a : Proto n C} {p : Fin n} {d : Saved C} (h : DiskRel a p d) {i : ℤ}
    {v : LogValue C} (h0 : 0 < i) (hv : (a.log p)[(i - 1).toNat]? = some v) : SavedHolds d i v := by
  rcases lt_or_ge d.lastIncludedIndex i with hi | hi
  · refine Or.inl ⟨hi, ?_⟩
    rw [h.view.at? hi]
    exact hv
  · refine Or.inr ⟨h0, hi, ?_⟩
    rw [h.snapshot, items, List.getElem?_map, List.getElem?_take_of_lt (by omega), hv]
    rfl

/-- A vote of the protocol is on disk until the term has passed. -/
theorem backed_vote {a : Proto n C} (hr : TermLogProtocol.Reached LogValue.term a) {p src : Fin n}
    {T : ℤ} (hvote : (p, T, src) ∈ a.votes) {d : Saved C} (hd : DiskRel a p d) :
    T < d.currentTerm ∨ (d.currentTerm = T ∧ d.votedFor = (src : ℕ)) := by
  rw [hd.term, hd.vote]
  rcases lt_or_eq_of_le (hr.ledger.vote_le hvote) with hlt | rfl
  · exact Or.inl hlt
  · refine Or.inr ⟨rfl, ?_⟩
    rw [hr.ledger.vote_current hvote]
    rfl

/-- Acknowledged entries are on disk until the term has passed. -/
theorem backed_ack {a : Proto n C} (hr : TermLogProtocol.Reached LogValue.term a) {p src : Fin n}
    {args : AppendEntriesRequest C} (hreq : RequestRel a src p (.appendEntries args))
    (hack : (p, args.term, (args.prevLogIndex + args.entries.length).toNat) ∈ a.acks)
    {d : Saved C} (hd : DiskRel a p d) : args.term < d.currentTerm ∨
      ((0 < args.prevLogIndex → d.lastIncludedIndex ≤ args.prevLogIndex →
          (at? d.log (args.prevLogIndex - d.lastIncludedIndex)).map LogValue.term =
            some args.prevLogTerm) ∧
        ∀ (j : ℕ) (v : LogValue C), args.entries[j]? = some v →
          SavedHolds d (args.prevLogIndex + 1 + j) v) := by
  rw [hd.term]
  obtain ⟨-, -, hprev0, hprevle, hes, hprevTerm, -⟩ := hreq
  rcases lt_or_eq_of_le (hr.ledger.ack_le hack) with hlt | heq
  · exact Or.inl hlt
  have hpre := (hr.custody.retains p).of_ack hack heq.ge
  refine Or.inr ⟨fun hpos hlow => ?_, fun j v hv => ?_⟩
  · obtain ⟨w, hw⟩ : ∃ w, (a.leaderLog args.term)[(args.prevLogIndex - 1).toNat]? = some w :=
      ⟨_, List.getElem?_eq_getElem (by omega)⟩
    have hin := getElem?_of_initial hpre (i := (args.prevLogIndex - 1).toNat)
      (by rw [List.getElem?_take_of_lt (by omega)]; exact hw)
    rw [at?, if_pos (by omega), hd.view.term_at hlow hpos hin, hprevTerm hpos w hw]
  · have hlen := (List.getElem?_eq_some_iff.mp hv).1
    have hlead := getElem?_of_initial hes hv
    rw [List.getElem?_drop] at hlead
    refine savedHolds_of_log hd (by omega) (getElem?_of_initial hpre ?_)
    rw [List.getElem?_take_of_lt (by omega), ← hlead]
    congr 1
    omega

/-- The commands at the indices of an applied prefix are those of any longer one. -/
theorem Applied.getElem? {a : Proto n C} (hr : TermLogProtocol.Reached LogValue.term a) {i k : ℤ}
    {st full : List C} {x : C} (h : Applied a i (st ++ [x])) (hfull : Applied a k full)
    (hik : i ≤ k) : full[(i - 1).toNat]? = some x := by
  obtain ⟨T, l, hl, hi, hst⟩ := h
  obtain ⟨U, l', hl', hk, rfl⟩ := hfull
  have hpre : l <+: l' := by
    rcases Chosen.comparable hl hl' hr.ledger hr.roots hr.custody with hp | hp
    · exact hp
    · exact (hp.eq_of_length_le (by omega)) ▸ List.prefix_rfl
  have hlen : st.length + 1 = l.length := by
    rw [← items_length l, ← hst, List.length_append, List.length_singleton]
  apply getElem?_of_initial (hpre.map LogValue.item)
  change (items l)[(i - 1).toNat]? = some x
  rw [← hst, show (i - 1).toNat = st.length by omega]
  simp

variable [Inhabited C]

/-- Durable promises. Every positive reply that a peer sends is backed by its disk at every
later moment of the run, and the saved snapshot holds exactly the commands that are
delivered, anywhere in the run, at the indices through the saved one. -/
theorem durable_promises {s : Cluster n C} (h : RaftCluster.Reached s) :
    (∀ (i id : ℕ) (src p : Fin n) (req : Request C), s.net[i]? = some (.request id src p req) →
      ∀ t, s.step? (.deliver i) = some t → ∀ u, ReflTransGen RaftCluster.Step t u →
        Backed (onDisk (u.procs p).rf.persister) req ((s.procs p).handle req).2) ∧
    ∀ p, ((onDisk (s.procs p).rf.persister).snapshot.length : ℤ) =
        (onDisk (s.procs p).rf.persister).lastIncludedIndex ∧
      ∀ u, RaftCluster.Reached u →
        (ReflTransGen RaftCluster.Step s u ∨ ReflTransGen RaftCluster.Step u s) →
        ∀ (q : Fin n) (i : ℤ) (x : C), Delivers u q i x →
          i ≤ (onDisk (s.procs p).rf.persister).lastIncludedIndex →
          (onDisk (s.procs p).rf.persister).snapshot[(i - 1).toNat]? = some x := by
  refine ⟨fun i id src p req hpkt t ht u hu => ?_, fun p => ⟨?_, fun u hur hrun q i x hx hi => ?_⟩⟩
  · obtain ⟨a, -, ha⟩ := simulation.reachable h
    obtain ⟨b, heff, hreq, hrep⟩ := request_effect ha hpkt ht
    have hb := heff.related ha
    obtain ⟨c, hbc, hc⟩ := simulation.run hb hu
    have hg := run_grows hbc hb.reached
    have hd := (hc.proc p).peer.disk
    have hreq := (hreq.grows (heff.answers.moves.grows ha.reached)).grows hg
    have hrep := (hrep id 0).grows hg
    cases req with
    | requestVote args =>
      intro hgr
      rw [hreq.1]
      exact backed_vote hc.reached (hrep hgr) hd
    | appendEntries args => exact fun hok => backed_ack hc.reached hreq (hrep.1 hok) hd
    | installSnapshot args => trivial
  · obtain ⟨a, -, ha⟩ := simulation.reachable h
    obtain ⟨T, l, -, hl, hst⟩ := (ha.proc p).peer.disk.applied
    rw [hst, items_length]
    exact hl
  · rcases hrun with hrun | hrun
    · obtain ⟨a, b, ha, hb, hg⟩ := related_run h hrun
      obtain ⟨st, hst⟩ := applied_of_delivers hb hx
      exact Applied.getElem? hb.reached hst ((ha.proc p).peer.disk.applied.grows hg) hi
    · obtain ⟨b, a, hb, ha, hg⟩ := related_run hur hrun
      obtain ⟨st, hst⟩ := applied_of_delivers hb hx
      exact Applied.getElem? ha.reached (hst.grows hg) (ha.proc p).peer.disk.applied hi

theorem durable_promises_first_vote : ∃ s t u : Cluster 2 ℕ, RaftCluster.Reached s ∧
    s.step? (.deliver 0) = some t ∧ ReflTransGen RaftCluster.Step t u ∧
    ((s.procs 1).handle (.requestVote ⟨1, 0, 0, 0⟩)).2 = .requestVote ⟨0, true⟩ ∧
    (1 < (onDisk (u.procs 1).rf.persister).currentTerm ∨
      ((onDisk (u.procs 1).rf.persister).currentTerm = 1 ∧
        (onDisk (u.procs 1).rf.persister).votedFor = 0)) := by
  obtain ⟨s, hs, htest⟩ := Cluster.exists_of_run
    (show ((initial : Cluster 2 ℕ).run [.ticker 0]).any (fun s => decide
      (s.net[0]? = some (.request 0 0 1 (.requestVote ⟨1, 0, 0, 0⟩)) ∧
        ((s.procs 1).handle (.requestVote ⟨1, 0, 0, 0⟩)).2 = .requestVote ⟨0, true⟩) &&
      (s.step? (.deliver 0)).any fun t =>
        (t.run [.deliver 0, .crash 1]).any fun _ => true) = true by
      decide +kernel)
  obtain ⟨hleft, hrest⟩ := Bool.and_eq_true_iff.mp htest
  obtain ⟨hpkt, hgrant⟩ := of_decide_eq_true hleft
  cases ht : s.step? (.deliver 0) with
  | none =>
    rw [ht] at hrest
    cases hrest
  | some t =>
    rw [ht] at hrest
    obtain ⟨u, hu, -⟩ := Cluster.exists_of_run hrest
    refine ⟨s, t, u, reached_of_steps hs, ht, hu, hgrant, ?_⟩
    have hbacked := (durable_promises (reached_of_steps hs)).1 0 0 0 1 _ hpkt t ht u hu
    rw [hgrant] at hbacked
    exact hbacked rfl

end DistributedLabs.RaftSafety
