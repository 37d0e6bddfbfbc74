import DistributedLabs.RaftDurability
import DistributedLabs.RaftStepCases

/-!
# A commit index is backed by a majority of disks

A match index that comes from an acknowledged batch is backed by the acknowledgement. One
that comes from the answer to `InstallSnapshot` is backed by a chosen prefix: the peer has
installed the snapshot, or has ignored it because its own snapshot reaches further.
-/

namespace DistributedLabs.RaftQuorumCommit

open RaftPeer RaftCluster RaftRefinement RaftLogView RaftSafety RaftStepCases TermLogProtocol
  TransitionRuns Relation LogPrefixes MajorityQuorums

variable {n : ℕ} {C : Type*} {a b : Proto n C} {p q : Fin n} {T i : ℤ}

/-- Peer `q` keeps the entries of term `T`'s leader through index `i`, or has acknowledged
them in that term. -/
def Backing (a : Proto n C) (T : ℤ) (q : Fin n) (i : ℤ) : Prop :=
  ∃ k : ℕ, i ≤ k ∧ k ≤ (a.leaderLog T).length ∧
    (Keeps LogValue.term a q ((a.leaderLog T).take k) ∨ (q, T, k) ∈ a.acks)

theorem backing_of_nonpos (hi : i ≤ 0) : Backing a T q i :=
  ⟨0, hi, Nat.zero_le _, Or.inl keeps_nil⟩

theorem backing_of_ack (hr : TermLogProtocol.Reached LogValue.term a) {k : ℕ}
    (hack : (q, T, k) ∈ a.acks) (hi : i ≤ k) : Backing a T q i :=
  ⟨k, hi, hr.ledger.ack_length hack, Or.inr hack⟩

theorem Backing.run (h : Backing a T q i)
    (hab : ReflTransGen (fun a b => ∃ p, Step LogValue.term p a b) a b)
    (ha : TermLogProtocol.Reached LogValue.term a) : Backing b T q i := by
  obtain ⟨k, hik, hk, hback⟩ := h
  have hg := run_grows hab ha
  refine ⟨k, hik, hk.trans (hg.leaderLog T).length_le, ?_⟩
  rcases hback with hkeeps | hack
  · left
    rw [hg.take_leaderLog hk]
    exact run_keeps hab ha hkeeps
  · exact Or.inr (hg.acks hack)

/-- A peer whose snapshot reaches as far as an offered one has all that the offer covers. -/
theorem backing_of_offer (hr : TermLogProtocol.Reached LogValue.term a) {rf : Raft n C}
    (h : MemRel a p rf) {src : Fin n} {args : InstallSnapshotRequest C}
    (hreq : RequestRel a src p (.installSnapshot args))
    (hle : args.lastIncludedIndex ≤ rf.lastIncludedIndex) :
    Backing a args.term p args.lastIncludedIndex := by
  obtain ⟨-, -, hpos, hlen, -, -, hoffer⟩ := hreq
  have hview := h.view.le
  have hcommit := h.commit_ge
  have hown : Chosen a (a.term p) ((a.log p).take rf.lastIncludedIndex.toNat) :=
    h.chosen.initial (take_prefix_take (by omega))
  have hinitial : (a.leaderLog args.term).take args.lastIncludedIndex.toNat <+:
      (a.log p).take rf.lastIncludedIndex.toNat := by
    rcases Chosen.comparable hoffer hown hr.ledger hr.roots hr.custody with hp | hp
    · exact hp
    · rw [hp.eq_of_length_le (by simp only [List.length_take]; omega)]
  refine ⟨args.lastIncludedIndex.toNat, by omega, by omega, Or.inl ⟨hown.initial hinitial, ?_⟩⟩
  exact hinitial.trans (List.take_prefix _ _)

section Replies

variable [Inhabited C] {s t : Cluster n C}

/-- A reply that does not announce a later term comes from a peer whose snapshot reaches as
far as the offered one. -/
theorem offer_le_of_reply {rf : Raft n C} {args : InstallSnapshotRequest C}
    (h : (installSnapshotHandler rf args).2.term ≤ args.term) :
    args.lastIncludedIndex ≤ (installSnapshotHandler rf args).1.lastIncludedIndex := by
  rw [installSnapshotHandler_eq]
  split_ifs with hreject hnew
  · rcases hreject with hstale | hless
    · have hreply : (installSnapshotHandler rf args).2.term = rf.currentTerm := by
        rw [installSnapshotHandler, if_pos (Or.inl hstale)]
      omega
    · exact hless.le
  · exact le_rfl
  · exact le_rfl

/-- The replies to `InstallSnapshot` and the match indices of leaders are backed. -/
structure Sound (s : Cluster n C) (a : Proto n C) : Prop where
  replies : ∀ {id p resp}, .reply id p (.installSnapshot resp) ∈ s.net →
    ∀ call ∈ (s.procs p).calls, call.id = id → ∀ args, call.req = .installSnapshot args →
      resp.term ≤ args.term → Backing a args.term call.server args.lastIncludedIndex
  matched : ∀ p, (s.procs p).rf.currentRole = .leader → ∀ q,
    Backing a (s.procs p).rf.currentTerm q ((s.procs p).rf.matchIndex q)

theorem sound_initial : Sound (initial : Cluster n C) TermLogProtocol.initial where
  replies h := by cases h
  matched p h := by
    have hfollower : ((initial : Cluster n C).procs p).rf.currentRole = .follower := rfl
    cases hfollower.symm.trans h

/-- A peer has just answered an offered snapshot. -/
theorem backing_of_answer (hs : Related s a) (ht : Related t b) (hg : Grows a b) {i id : ℕ}
    {src : Fin n} {args : InstallSnapshotRequest C} {resp : InstallSnapshotResponse}
    (hpkt : s.net[i]? = some (.request id src p (.installSnapshot args)))
    (hstep : s.step? (.deliver i) = some t)
    (hrep : Reply.installSnapshot resp = ((s.procs p).handle (.installSnapshot args)).2)
    (hresp : resp.term ≤ args.term) : Backing b args.term p args.lastIncludedIndex := by
  have hreq := (hs.net.request (List.mem_of_getElem? hpkt)).grows hg
  have hrf : (t.procs p).rf = (installSnapshotHandler (s.procs p).rf args).1 :=
    congrArg Process.rf (Cluster.deliver_request hpkt hstep)
  apply backing_of_offer ht.reached (ht.proc p).peer.toMemRel hreq
  rw [hrf]
  apply offer_le_of_reply
  obtain rfl : resp = (installSnapshotHandler (s.procs p).rf args).2 :=
    Reply.installSnapshot.inj hrep
  exact hresp

theorem Sound.step_replies (h : Sound s a) (hs : Related s a) (ht : Related t b)
    (hab : ReflTransGen (fun a b => ∃ p, Step LogValue.term p a b) a b) {e : Event n C}
    (hstep : s.step? e = some t) {id : ℕ} {resp : InstallSnapshotResponse}
    (hpkt : .reply id p (.installSnapshot resp) ∈ t.net) {call : Call n C}
    (hcall : call ∈ (t.procs p).calls) (hid : call.id = id) {args : InstallSnapshotRequest C}
    (hreq : call.req = .installSnapshot args) (hresp : resp.term ≤ args.term) :
    Backing b args.term call.server args.lastIncludedIndex := by
  have hout := step_outcome hstep
  rcases hout.replies hpkt with hold | ⟨i, q, req, rfl, hi, hrep⟩
  · rcases hout.calls hcall with hcall | hnew
    · exact (h.replies hold call hcall hid args hreq hresp).run hab hs.reached
    · have hlt : id < s.nextCall := hs.net.fresh _ hold
      omega
  · have hmem := List.mem_of_getElem? hi
    rcases hout.calls hcall with hcall | hnew
    · obtain ⟨rfl, hsame⟩ := hs.net.asked hmem call hcall hid
      obtain rfl := hsame.symm.trans hreq
      exact backing_of_answer hs ht (run_grows hab hs.reached) hi hstep hrep hresp
    · have hlt : id < s.nextCall := hs.net.fresh _ hmem
      omega

/-- A leader counts itself by its own log. -/
theorem backing_self (ht : Related t b) (hrole : (t.procs p).rf.currentRole = .leader) :
    Backing b (t.procs p).rf.currentTerm p ((t.procs p).rf.matchIndex p) := by
  have hleads := (ht.proc p).peer.leads hrole
  rw [hleads.term]
  exact backing_of_ack ht.reached hleads.ownAck
    (hleads.match_le (ht.proc p).peer.toMemRel ht.reached p)

theorem Sound.step_matched (h : Sound s a) (hs : Related s a) (ht : Related t b)
    (hab : ReflTransGen (fun a b => ∃ p, Step LogValue.term p a b) a b) {e : Event n C}
    (hstep : s.step? e = some t) (hrole : (t.procs p).rf.currentRole = .leader) (q : Fin n) :
    Backing b (t.procs p).rf.currentTerm q ((t.procs p).rf.matchIndex q) := by
  by_cases hq : q = p
  · subst hq
    exact backing_self ht hrole
  have hme : q ≠ (s.procs p).rf.me := (hs.proc p).peer.me.symm ▸ hq
  have hold : (s.procs p).rf.currentRole = .leader →
      Backing b (s.procs p).rf.currentTerm q ((s.procs p).rf.matchIndex q) :=
    fun hlead => (h.matched p hlead q).run hab hs.reached
  cases (step_outcome hstep).leads p hrole with
  | same hlead hterm hmatch =>
    rw [hterm, hmatch]
    exact hold hlead
  | elected hmatch =>
    rw [hmatch q hme]
    exact backing_of_nonpos le_rfl
  | @installed call args resp hpkt hcall hreq hlead hsaved hresp hterm hmatch =>
    rw [hterm, hmatch, Function.update_apply]
    split_ifs with hserver
    · have hcalled := (hs.proc p).calls call hcall
      rw [CallRel, hreq] at hcalled
      have hargs : args.term = (s.procs p).rf.currentTerm := hcalled.2.1.trans hsaved
      rw [← hargs, hserver]
      exact (h.replies hpkt call hcall rfl args hreq (hargs ▸ hresp)).run hab hs.reached
    · exact hold hlead
  | @appended call args resp hpkt hcall hreq hlead hsaved hsucc hterm hmatch =>
    rw [hterm, hmatch q hme, Function.update_apply]
    split_ifs with hserver
    · have hcalled := (hs.proc p).calls call hcall
      have hrep := hs.net.answered hpkt call hcall rfl
      rw [CallRel, hreq] at hcalled
      simp only [ReplyRel, hreq] at hrep
      have hack := hrep.1 hsucc
      rw [hcalled.2.1.trans hsaved, ← hserver] at hack
      rw [← hserver]
      rcases le_total (args.prevLogIndex + args.entries.length) ((s.procs p).rf.matchIndex q)
        with hle | hle
      · rw [max_eq_left hle]
        exact hold hlead
      · rw [max_eq_right hle]
        exact (backing_of_ack hs.reached hack (by omega)).run hab hs.reached
    · exact hold hlead

/-- The refinement, with match indices accounted for. -/
theorem soundSimulation : Simulation (· = (initial : Cluster n C)) RaftCluster.Step
    (· = TermLogProtocol.initial) (fun a b => ∃ p, Step LogValue.term p a b)
    (fun s a => Related s a ∧ Sound s a) where
  start _ hs := ⟨TermLogProtocol.initial, rfl, hs ▸ related_initial, hs ▸ sound_initial⟩
  forward _ _ _ := by
    rintro ⟨hs, h⟩ ⟨e, hstep⟩
    obtain ⟨b, -, -, -, ht, hab⟩ := step_related hs hstep
    refine ⟨b, hab, ht, ?_, fun p hrole => h.step_matched hs ht hab hstep hrole⟩
    intro id p resp hpkt call hcall hid args hreq hresp
    exact h.step_replies hs ht hab hstep hpkt hcall hid hreq hresp

end Replies

section Disks

/-- What was saved includes the entries of the peer `rf` through index `i`; of an entry that
`rf` has only in its snapshot, the command. -/
def HoldsThrough (rf : Raft n C) (d : Saved C) (i : ℤ) : Prop :=
  ∀ j v, j ≤ i → (Holds rf j v → SavedHolds d j v) ∧
    (SnapshotHolds rf j v → ∃ w : LogValue C, w.item = v.item ∧ SavedHolds d j w)

theorem holdsThrough_of_initial {rf : Raft n C} (h : MemRel a p rf) {d : Saved C}
    (hd : DiskRel a q d) {k : ℕ} (hinitial : (a.log p).take k <+: a.log q) (hi : i ≤ k) :
    HoldsThrough rf d i := by
  have hnn := h.view.nonneg
  have hsaved : ∀ j v, 0 < j → j ≤ i → (a.log p)[(j - 1).toNat]? = some v → SavedHolds d j v := by
    intro j v hpos hj hv
    apply savedHolds_of_log hd hpos
    apply getElem?_of_initial hinitial
    rwa [List.getElem?_take_of_lt (by omega)]
  intro j v hj
  constructor
  · intro hv
    obtain ⟨hlow, hv⟩ := (holds_iff h).mp hv
    exact hsaved j v (by omega) hj hv
  · rintro ⟨hpos, hlow, hv⟩
    rw [h.snapshot, items, List.getElem?_map, List.getElem?_take_of_lt (by omega)] at hv
    obtain ⟨w, hw, hitem⟩ := Option.map_eq_some_iff.mp hv
    exact ⟨w, hitem, hsaved j w hpos hj hw⟩

/-- A backed index is on disk, as long as the peer has not saved a later term. -/
theorem Backing.initial (h : Backing a T q i) (hr : TermLogProtocol.Reached LogValue.term a)
    (hterm : a.term q ≤ T) : ∃ k : ℕ, i ≤ k ∧ (a.leaderLog T).take k <+: a.log q := by
  obtain ⟨k, hi, -, hkeeps | hack⟩ := h
  · exact ⟨k, hi, hkeeps.2⟩
  · exact ⟨k, hi, (hr.custody.retains q).of_ack hack hterm⟩

/-- Up to a committed index, a backed index is on disk for good. -/
theorem Backing.initial_committed (h : Backing a T q i)
    (hr : TermLogProtocol.Reached LogValue.term a) {m : ℕ}
    (hm : Committed LogValue.term a T m) :
    ∃ k : ℕ, min i m ≤ k ∧ (a.leaderLog T).take k <+: a.log q := by
  obtain ⟨k, hi, -, hkeeps | hack⟩ := h
  · exact ⟨k, by omega, hkeeps.2⟩
  · exact ⟨min k m, by omega, hm.prefix_log hr.custody hack (min_le_left _ _) (min_le_right _ _)⟩

end Disks

section Raise

structure Raised (rf : Raft n C) : Prop where
  role : rf.currentRole = .leader
  median : rf.commitIndex = rf.toCommit
  above : rf.lastIncludedIndex < rf.commitIndex
  entry : ∃ v, at? rf.log (rf.convertLogicalToPhysical rf.commitIndex) = some v ∧
    v.term = rf.currentTerm
  self : rf.matchIndex rf.me = rf.lastIncludedIndex + (rf.log.length - 1)

theorem advanceCommit_raised {rf rf' : Raft n C} (h : rf.advanceCommit = some rf')
    (hraise : rf.commitIndex < rf'.commitIndex) (hrole : rf.currentRole = .leader)
    (hself : rf.matchIndex rf.me = rf.lastIncludedIndex + (rf.log.length - 1)) : Raised rf' := by
  unfold Raft.advanceCommit at h
  split_ifs at h with hlow
  · obtain rfl := Option.some.inj h
    exact absurd hraise (lt_irrefl _)
  · obtain ⟨v, hv, rfl⟩ := Option.map_eq_some_iff.mp h
    split_ifs at hraise ⊢ with hrule
    · exact ⟨hrole, rfl, not_le.mp hlow, ⟨v, hv, hrule.1⟩, hself⟩
    · exact absurd hraise (lt_irrefl _)

theorem appendReply_raised {rf rf' : Raft n C} {server : Fin n} {saved : ℤ}
    {args : AppendEntriesRequest C} {resp : AppendEntriesResponse}
    (h : appendReply rf server saved args resp = some rf')
    (hraise : rf.commitIndex < rf'.commitIndex) : Raised rf' := by
  unfold appendReply at h
  split_ifs at h with hrole hsaved hresp hsucc
  · obtain rfl := Option.some.inj h
    exact absurd hraise (lt_irrefl _)
  · obtain rfl := Option.some.inj h
    exact absurd hraise (lt_irrefl _)
  · obtain rfl := Option.some.inj h
    exact absurd hraise (lt_irrefl _)
  · exact advanceCommit_raised h hraise (not_not.mp hrole) (Function.update_self _ _ _)
  · obtain rfl := Option.some.inj h
    exact absurd hraise (lt_irrefl _)

theorem resumeVote_commitIndex (pr : Process n C) (call : Call n C) (reply : RequestVoteReply) :
    (pr.resumeVote call reply).rf.commitIndex = pr.rf.commitIndex := by
  unfold Process.resumeVote voteReply
  dsimp only
  split_ifs <;> rfl

theorem installReply_commitIndex (rf : Raft n C) (server : Fin n) (saved : ℤ)
    (args : InstallSnapshotRequest C) (resp : InstallSnapshotResponse) :
    (installReply rf server saved args resp).commitIndex = rf.commitIndex := by
  unfold installReply
  split_ifs <;> rfl

theorem resume_raised {pr pr' : Process n C} {call : Call n C} {rep : Reply}
    (h : pr.resume call (some rep) = some pr') (hraise : pr.rf.commitIndex < pr'.rf.commitIndex) :
    Raised pr'.rf := by
  cases Process.resumed h with
  | vote reply => exact absurd hraise (resumeVote_commitIndex pr call reply ▸ lt_irrefl _)
  | append hreq hrf => exact appendReply_raised hrf hraise
  | install hreq => exact absurd hraise (by simp [installReply_commitIndex])

variable [Inhabited C] {s t : Cluster n C}

theorem deliver_raised {i id : ℕ} {rep : Reply} (hpkt : s.net[i]? = some (.reply id p rep))
    (hstep : s.step? (.deliver i) = some t)
    (hraise : (s.procs p).rf.commitIndex < (t.procs p).rf.commitIndex) : Raised (t.procs p).rf := by
  obtain ⟨call, -, -, hres⟩ := Cluster.deliver_reply hpkt hstep
  exact resume_raised hres hraise

end Raise

variable [Inhabited C] {s t : Cluster n C}

/-- Match indices are sound: through `matchIndex q`, the entries of a leader are on the disk
of `q`, unless `q` has saved a later term. -/
theorem match_sound (hs : Related s a) (h : Sound s a)
    (hrole : (s.procs p).rf.currentRole = .leader) (q : Fin n)
    (hterm : (onDisk (s.procs q).rf.persister).currentTerm ≤ (s.procs p).rf.currentTerm) :
    HoldsThrough (s.procs p).rf (onDisk (s.procs q).rf.persister)
      ((s.procs p).rf.matchIndex q) := by
  have hleads := (hs.proc p).peer.leads hrole
  have hd := (hs.proc q).peer.disk
  rw [hd.term] at hterm
  obtain ⟨k, hk, hinitial⟩ := (h.matched p hrole q).initial hs.reached hterm
  rw [hleads.leaderLog hs.reached] at hinitial
  exact holdsThrough_of_initial (hs.proc p).peer.toMemRel hd hinitial hk

/-- A raised commit index is committed in the protocol. -/
theorem raised_committed (hs : Related s a) (h : Raised (s.procs p).rf) :
    Committed LogValue.term a (s.procs p).rf.currentTerm (s.procs p).rf.commitIndex.toNat := by
  have hmem := (hs.proc p).peer.toMemRel
  have hleads := hmem.leads h.role
  obtain ⟨v, hv, hterm⟩ := h.entry
  rw [Raft.convertLogicalToPhysical, hmem.view.at? h.above, h.median] at hv
  rw [hleads.term, h.median]
  exact committed_toCommit hs.reached hmem hleads (h.median ▸ h.above) hv hterm

/-- The peers whose match index reaches the commit index are a majority with the leader. -/
theorem raised_majority (hs : Related s a) (h : Raised (s.procs p).rf) :
    ∃ Q : Finset (Fin n), n / 2 + 1 ≤ Q.card ∧ p ∈ Q ∧
      ∀ q ∈ Q, (s.procs p).rf.commitIndex ≤ (s.procs p).rf.matchIndex q := by
  have hmem := (hs.proc p).peer.toMemRel
  have hmajority := majority_median p.pos (s.procs p).rf.matchIndex
  rw [Majority, Fintype.card_fin] at hmajority
  refine ⟨_, hmajority, ?_, ?_⟩
  · have hself := h.self
    have hlen := hmem.view.length
    have hcommit := hmem.commit_le
    have hmedian : median (s.procs p).rf.matchIndex = (s.procs p).rf.commitIndex := h.median.symm
    rw [hmem.me] at hself
    rw [Finset.mem_filter, hmedian]
    exact ⟨Finset.mem_univ p, by omega⟩
  · intro q hq
    rw [h.median]
    exact (Finset.mem_filter.mp hq).2

/-- Quorum commit. Match indices are sound in every state. When a reply raises the commit
index of a peer, the peer leads, the entry there is of its term, the index is the median of
the match indices, and a majority that includes the leader has the leader's entries up to it
on disk; and every other peer has them up to its match index, as far as they are committed. -/
theorem quorum_commit (h : RaftCluster.Reached s) :
    (∀ p, (s.procs p).rf.currentRole = .leader → ∀ q,
      (onDisk (s.procs q).rf.persister).currentTerm ≤ (s.procs p).rf.currentTerm →
      HoldsThrough (s.procs p).rf (onDisk (s.procs q).rf.persister)
        ((s.procs p).rf.matchIndex q)) ∧
    ∀ (i id : ℕ) (p : Fin n) (rep : Reply) (t : Cluster n C),
      s.net[i]? = some (.reply id p rep) → s.step? (.deliver i) = some t →
      (s.procs p).rf.commitIndex < (t.procs p).rf.commitIndex →
      (t.procs p).rf.currentRole = .leader ∧
      (∃ v, Holds (t.procs p).rf (t.procs p).rf.commitIndex v ∧
        v.term = (t.procs p).rf.currentTerm) ∧
      (t.procs p).rf.commitIndex = (t.procs p).rf.toCommit ∧
      (∃ Q : Finset (Fin n), n / 2 + 1 ≤ Q.card ∧ p ∈ Q ∧ ∀ q ∈ Q,
        (t.procs p).rf.commitIndex ≤ (t.procs p).rf.matchIndex q ∧
        HoldsThrough (t.procs p).rf (onDisk (t.procs q).rf.persister)
          (t.procs p).rf.commitIndex) ∧
      ∀ q, HoldsThrough (t.procs p).rf (onDisk (t.procs q).rf.persister)
        (min ((t.procs p).rf.matchIndex q) (t.procs p).rf.commitIndex) := by
  obtain ⟨a, -, hs, hsound⟩ := soundSimulation.reachable h
  refine ⟨fun p hrole q => match_sound hs hsound hrole q, fun i id p rep t hpkt hstep hraise => ?_⟩
  obtain ⟨b, -, ht, hsound'⟩ := soundSimulation.run ⟨hs, hsound⟩ (.single ⟨_, hstep⟩)
  have hraised := deliver_raised hpkt hstep hraise
  have hmem := (ht.proc p).peer.toMemRel
  have hcommitted := raised_committed ht hraised
  have hnn := hmem.view.nonneg
  have habove := hraised.above
  have hthrough : ∀ q, HoldsThrough (t.procs p).rf (onDisk (t.procs q).rf.persister)
      (min ((t.procs p).rf.matchIndex q) (t.procs p).rf.commitIndex) := by
    intro q
    obtain ⟨k, hk, hinitial⟩ :=
      (hsound'.matched p hraised.role q).initial_committed ht.reached hcommitted
    rw [(hmem.leads hraised.role).leaderLog ht.reached] at hinitial
    exact holdsThrough_of_initial hmem (ht.proc q).peer.disk hinitial (by omega)
  obtain ⟨v, hv, hterm⟩ := hraised.entry
  obtain ⟨Q, hcard, hp, hQ⟩ := raised_majority ht hraised
  refine ⟨hraised.role, ⟨v, ⟨habove, hv⟩, hterm⟩, hraised.median, ⟨Q, hcard, hp, fun q hq => ?_⟩,
    hthrough⟩
  have hreach := hQ q hq
  have hholds := hthrough q
  rw [min_eq_right hreach] at hholds
  exact ⟨hreach, hholds⟩

/-- The first commit of two peers. -/
theorem quorum_commit_first : ∃ s t : Cluster 2 ℕ, RaftCluster.Reached s ∧
    s.net[0]? = some (.reply 1 0 (.appendEntries { term := 1, success := true })) ∧
    s.step? (.deliver 0) = some t ∧ (s.procs 0).rf.commitIndex < (t.procs 0).rf.commitIndex ∧
    ∃ Q : Finset (Fin 2), 2 ≤ Q.card ∧ 0 ∈ Q ∧ ∀ q ∈ Q,
      (t.procs 0).rf.commitIndex ≤ (t.procs 0).rf.matchIndex q ∧
      HoldsThrough (t.procs 0).rf (onDisk (t.procs q).rf.persister)
        (t.procs 0).rf.commitIndex := by
  obtain ⟨s, hs, htest⟩ := Cluster.exists_of_run
    (show ((initial : Cluster 2 ℕ).run (commitRun.take 7)).any (fun s => decide
      (s.net[0]? = some (.reply 1 0 (.appendEntries { term := 1, success := true }))) &&
      (s.step? (.deliver 0)).any fun t => decide
        ((s.procs 0).rf.commitIndex < (t.procs 0).rf.commitIndex)) = true by decide +kernel)
  obtain ⟨hpkt, hrest⟩ := Bool.and_eq_true_iff.mp htest
  cases ht : s.step? (.deliver 0) with
  | none =>
    rw [ht] at hrest
    cases hrest
  | some t =>
    rw [ht] at hrest
    have hraise := of_decide_eq_true hrest
    obtain ⟨-, -, -, hQ, -⟩ := (quorum_commit (reached_of_steps hs)).2 0 1 0 _ t
      (of_decide_eq_true hpkt) ht hraise
    exact ⟨s, t, reached_of_steps hs, of_decide_eq_true hpkt, ht, hraise, hQ⟩

end DistributedLabs.RaftQuorumCommit
