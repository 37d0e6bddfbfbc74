import DistributedLabs.RaftSafety
import DistributedLabs.RaftStepCases

/-!
# Fast log backup

A rejection points the leader to an index from which the follower can be brought up to date.
The reply may have been under way for any time: what it says about the follower's log then is
still about entries that the leaders of their terms have created for good, so the leader's own
log, grown and compacted meanwhile, answers to it. The new `nextIndex` lies between the index
pointed to and the `PrevLogIndex` that was rejected.
-/

namespace DistributedLabs.RaftBackup

open RaftPeer RaftCluster RaftRefinement RaftLogView RaftSafety RaftStepCases TermLogProtocol
  TransitionRuns Relation LogPrefixes

variable {n : ℕ} {C : Type*} {a₀ a : Proto n C} {p q : Fin n} {l f : Raft n C}

def hint (resp : AppendEntriesResponse) : ℤ := if resp.xTerm = -1 then resp.xLen else resp.xIndex

section Logs

variable (hr₀ : TermLogProtocol.Reached LogValue.term a₀)
  (hr : TermLogProtocol.Reached LogValue.term a)

include hr in
theorem term_pos {i : ℕ} {v : LogValue C} (hv : (a.log p)[i]? = some v) : 0 < v.term :=
  hr.ledger.leader_pos (hr.roots.log p i v hv).1

include hr₀ hr in
/-- A log of an earlier state and one of a later state agree up to the lower of two positions
with one term. -/
theorem agree_of_term (hg : Grows a₀ a) {i j k : ℕ} {v w : LogValue C}
    (hv : (a₀.log q)[i]? = some v) (hw : (a.log p)[j]? = some w) (hterm : v.term = w.term)
    (hi : k ≤ i) (hj : k ≤ j) : (a₀.log q)[k]? = (a.log p)[k]? := by
  have hq := (hr₀.roots.log q i v hv).2.trans (hg.leaderLog v.term)
  have hp := (hr.roots.log p j w hw).2
  have hilen := (List.getElem?_eq_some_iff.mp hv).1
  have hjlen := (List.getElem?_eq_some_iff.mp hw).1
  have hqk := getElem?_eq_of_initial hq (i := k) (by rw [List.length_take]; omega)
  have hpk := getElem?_eq_of_initial hp (i := k) (by rw [List.length_take]; omega)
  rw [List.getElem?_take_of_lt (by omega)] at hqk hpk
  rw [← hqk, ← hpk, hterm]

include hr in
theorem getTermFirstEntry_zero (h : MemRel a p l) : l.getTermFirstEntry 0 = -1 := by
  by_contra hfirst
  obtain ⟨i, v, hv, hi, hterm⟩ := exists_of_getTermFirstEntry hfirst
  obtain ⟨k, rfl⟩ : ∃ k, i = k + 1 := ⟨i - 1, by omega⟩
  rw [h.view.getElem?_succ] at hv
  exact (term_pos hr hv).ne' hterm

include hr in
/-- The answer to a stale `PrevLogIndex` says nothing, and the leader starts from one. -/
theorem backUp_stale (h : MemRel a p l) (T : ℤ) : l.backUp { term := T } = 1 := by
  simp [Raft.backUp, getTermFirstEntry_zero hr h]

include hr in
/-- A leader has what was in the snapshot of a peer that had not saved a later term. -/
theorem snapshot_initial (hg : Grows a₀ a) (hleads : LeaderRel a p l) (hf : MemRel a₀ q f)
    (hterm : a₀.term q ≤ a.term p) : (a₀.log q).take f.lastIncludedIndex.toNat <+: a.log p := by
  have hchosen : Chosen a (a₀.term q) ((a₀.log q).take f.lastIncludedIndex.toNat) :=
    (Chosen.initial hf.chosen (take_prefix_take (Int.toNat_le_toNat hf.commit_ge))).grows hg
  have hin := Chosen.prefix_leaderLog hchosen hr.roots hr.custody hterm
    (by rw [hleads.elected]; exact Option.some_ne_none p)
  rwa [← hr.ledger.leader_log hleads.elected rfl] at hin

/-- The first index with a term is above the snapshot and not above any such index. -/
theorem getTermFirstEntry_spec (hf : MemRel a q f) {j : ℤ} (hlow : f.lastIncludedIndex < j)
    {v : LogValue C} (hv : (a.log q)[(j - 1).toNat]? = some v) :
    f.lastIncludedIndex < f.getTermFirstEntry v.term ∧ f.getTermFirstEntry v.term ≤ j := by
  have hnn := hf.view.nonneg
  have hphys := hf.view.getElem?_succ (j - 1 - f.lastIncludedIndex).toNat
  rw [show f.lastIncludedIndex.toNat + (j - 1 - f.lastIncludedIndex).toNat = (j - 1).toNat by omega,
    hv] at hphys
  have := getTermFirstEntry_le hphys
  omega

/-- The leader goes to the index pointed to, or behind its own last entry of the term. -/
theorem backUp_cases (h : MemRel a p l) {resp : AppendEntriesResponse} (hx : resp.xTerm ≠ -1)
    (hindex : 0 < resp.xIndex) : l.backUp resp = resp.xIndex ∨
      ∃ (m : ℤ) (u : LogValue C), l.lastIncludedIndex < m ∧ (a.log p)[(m - 1).toNat]? = some u ∧
        u.term = resp.xTerm ∧ l.backUp resp = m + 1 ∧
        ∀ (j : ℤ) (v : LogValue C), m < j → (a.log p)[(j - 1).toNat]? = some v →
          v.term ≠ resp.xTerm := by
  have hnn := h.view.nonneg
  rw [Raft.backUp, if_neg hx]
  split_ifs with hnone hzero
  · exact Or.inl rfl
  · omega
  dsimp only
  rcases lastWithTerm_spec resp.xTerm 0 l.log (-1) with
    ⟨-, habsent⟩ | ⟨m, u, hu, hut, hm, heq, hlast⟩
  · obtain ⟨i, x, hx, hi, hxt⟩ := exists_of_getTermFirstEntry hnone
    exact absurd hxt (habsent i x hx (by omega))
  obtain ⟨k, rfl⟩ : ∃ k, m = k + 1 := ⟨m - 1, by omega⟩
  rw [h.view.getElem?_succ] at hu
  refine Or.inr ⟨l.lastIncludedIndex + (k + 1), u, by omega, ?_, hut, ?_, fun j v hj hv => ?_⟩
  · rwa [show (l.lastIncludedIndex + (k + 1) - 1).toNat = l.lastIncludedIndex.toNat + k by omega]
  · rw [heq, if_pos (by omega)]
    push_cast
    omega
  · have hphys := h.view.getElem?_succ (j - 1 - l.lastIncludedIndex).toNat
    rw [show l.lastIncludedIndex.toNat + (j - 1 - l.lastIncludedIndex).toNat =
      (j - 1).toNat by omega,
      hv] at hphys
    exact hlast _ v hphys (by omega)

include hr₀ hr in
/-- After a conflict the next index goes back, but not behind the index pointed to, which is in
front of the peer's snapshot. -/
theorem backUp_conflict (hg : Grows a₀ a) (h : MemRel a p l) (hleads : LeaderRel a p l)
    (hf : MemRel a₀ q f) (hterm : a₀.term q ≤ a.term p) {prev : ℤ}
    (hlow : f.lastIncludedIndex < prev) {v w : LogValue C}
    (hv : (a₀.log q)[(prev - 1).toNat]? = some v) (hw : (a.log p)[(prev - 1).toNat]? = some w)
    (hne : w.term ≠ v.term) {resp : AppendEntriesResponse} (hx : resp.xTerm = v.term)
    (hindex : resp.xIndex = f.getTermFirstEntry v.term) :
    f.lastIncludedIndex < resp.xIndex ∧ resp.xIndex ≤ l.backUp resp ∧ l.backUp resp ≤ prev := by
  have hnn := h.view.nonneg
  have hnn' := hf.view.nonneg
  have hpos := term_pos hr₀ hv
  have hfirst := getTermFirstEntry_spec hf hlow hv
  rw [← hindex] at hfirst
  rcases backUp_cases h (show resp.xTerm ≠ -1 by omega) (by omega) with
    heq | ⟨m, u, hm, hu, hut, heq, hlast⟩
  · rw [heq]
    exact ⟨hfirst.1, le_rfl, hfirst.2⟩
  rw [hx] at hut hlast
  have hbelow : m < prev := by
    by_contra hge
    have hsame := agree_of_term hr₀ hr hg hv hu hut.symm le_rfl (by omega)
    rw [hv, hw, Option.some.injEq] at hsame
    exact hne (hsame ▸ rfl)
  refine ⟨hfirst.1, ?_, by omega⟩
  rw [heq]
  have huq := (agree_of_term hr₀ hr hg hv hu hut.symm (by omega) le_rfl).trans hu
  rcases lt_or_ge f.lastIncludedIndex m with hin | hout
  · have hlater := getTermFirstEntry_spec hf hin huq
    rw [hut, ← hindex] at hlater
    omega
  have hall : ∀ (j : ℤ) (x : LogValue C), m ≤ j → j ≤ prev →
      (a₀.log q)[(j - 1).toNat]? = some x → x.term = v.term := by
    intro j x hmj hjp hxq
    have hux := hr₀.roots.term_le (hr₀.roots.log q) huq hxq (by omega)
    have hxv := hr₀.roots.term_le (hr₀.roots.log q) hxq hv (by omega)
    omega
  have hplen := (List.getElem?_eq_some_iff.mp hv).1
  have hsome : ∀ j : ℤ, 0 < j → j ≤ prev → ∃ x, (a₀.log q)[(j - 1).toNat]? = some x :=
    fun j hj hjp => ⟨_, List.getElem?_eq_getElem (by omega)⟩
  have hlevel : m = f.lastIncludedIndex := by
    by_contra hlt
    obtain ⟨x, hxq⟩ := hsome f.lastIncludedIndex (by omega) (by omega)
    have hxp : (a.log p)[(f.lastIncludedIndex - 1).toNat]? = some x := by
      apply getElem?_of_initial (snapshot_initial hr hg hleads hf hterm)
      rwa [List.getElem?_take_of_lt (by omega)]
    exact hlast _ x (by omega) hxp (hall _ x hout (by omega) hxq)
  obtain ⟨x, hxq⟩ := hsome (m + 1) (by omega) (by omega)
  have hafter := getTermFirstEntry_spec hf (by omega) hxq
  rw [hall _ x (by omega) (by omega) hxq, ← hindex] at hafter
  exact hafter.2

end Logs

section Rejections

/-- A peer that is not ahead answers in the leader's term, and keeps its snapshot. -/
theorem appendEntries_standing {args : AppendEntriesRequest C} (hf : f.currentTerm ≤ args.term) :
    (appendEntries f args).2.term = args.term ∧ (appendEntries f args).1.currentTerm = args.term ∧
      (appendEntries f args).1.lastIncludedIndex = f.lastIncludedIndex := by
  have hobserved := observeTerm_currentTerm hf
  obtain ⟨hreply, hterm, -, -, -, hlii⟩ := answerEntries_standing (f.observeTerm args.term) args
  rw [appendEntries_eq, if_neg (not_lt.mpr hf)]
  exact ⟨hreply.trans hobserved, hterm.trans hobserved,
    hlii.trans (observeTerm_lastIncludedIndex f args.term)⟩

/-- The three ways in which a peer that is not ahead rejects entries. -/
theorem appendEntries_rejects {args : AppendEntriesRequest C} (hf : f.currentTerm ≤ args.term)
    (hfail : (appendEntries f args).2.success = false) :
    (args.prevLogIndex < f.lastIncludedIndex ∧ (appendEntries f args).2 = { term := args.term }) ∨
    (f.lastIncludedIndex ≤ args.prevLogIndex ∧
      (f.log.length : ℤ) ≤ args.prevLogIndex - f.lastIncludedIndex ∧
      (appendEntries f args).2.xTerm = -1 ∧
      (appendEntries f args).2.xLen = f.log.length + f.lastIncludedIndex) ∨
    (f.lastIncludedIndex < args.prevLogIndex ∧
      args.prevLogIndex - f.lastIncludedIndex < f.log.length ∧
      args.prevLogTerm ≠ f.termAt (args.prevLogIndex - f.lastIncludedIndex) ∧
      (appendEntries f args).2.xTerm = f.termAt (args.prevLogIndex - f.lastIncludedIndex) ∧
      (appendEntries f args).2.xIndex =
        f.getTermFirstEntry (f.termAt (args.prevLogIndex - f.lastIncludedIndex))) := by
  have hlog := observeTerm_log f args.term
  have hlii := observeTerm_lastIncludedIndex f args.term
  have hfirst : ∀ T, (f.observeTerm args.term).getTermFirstEntry T = f.getTermFirstEntry T := by
    intro T
    rw [Raft.getTermFirstEntry, Raft.getTermFirstEntry, hlog, hlii]
  rw [appendEntries_eq, if_neg (not_lt.mpr hf)] at hfail ⊢
  unfold answerEntries at hfail ⊢
  simp only [Raft.convertLogicalToPhysical, Raft.termAt, hlog, hlii, hfirst,
    observeTerm_currentTerm hf] at hfail ⊢
  split_ifs at hfail ⊢ with hlow hhigh hcheck
  · exact Or.inl ⟨hlow, rfl⟩
  · exact Or.inr (Or.inl ⟨not_lt.mp hlow, hhigh, rfl, rfl⟩)
  · exact Or.inr (Or.inr ⟨by omega, not_le.mp hhigh, hcheck.2, rfl, rfl⟩)

theorem appendReply_rejected {args : AppendEntriesRequest C} {resp : AppendEntriesResponse}
    (hrole : l.currentRole = .leader) (hresp : resp.term = l.currentTerm)
    (hfail : resp.success = false) : appendReply l q l.currentTerm args resp =
      some { l with nextIndex := Function.update l.nextIndex q (l.backUp resp) } := by
  rw [appendReply, if_neg (not_not.mpr hrole), if_neg (not_not.mpr rfl), if_neg (by omega),
    if_neg (by simp [hfail])]

/-- What a rejection makes of the leader's next index: it tells nothing, or the leader goes to the
index pointed to or above, and to the rejected `PrevLogIndex` at most. -/
theorem backUp_rejected (hr₀ : TermLogProtocol.Reached LogValue.term a₀)
    (hr : TermLogProtocol.Reached LogValue.term a) (hg : Grows a₀ a) [Inhabited C]
    (h : MemRel a p l) (hleads : LeaderRel a p l) (hfrel : PeerRel a₀ q f)
    {args : AppendEntriesRequest C} (hterm : args.term = l.currentTerm)
    (hprev : args.prevLogIndex ≤ (a.log p).length)
    (hprevTerm : 0 < args.prevLogIndex → ∀ v,
      (a.log p)[(args.prevLogIndex - 1).toNat]? = some v → v.term = args.prevLogTerm)
    (hf : f.currentTerm ≤ args.term) (hfail : (appendEntries f args).2.success = false) :
    (args.prevLogIndex < f.lastIncludedIndex ∧ (appendEntries f args).2 = { term := args.term }) ∨
    (f.lastIncludedIndex ≤ args.prevLogIndex ∧
      f.lastIncludedIndex < hint (appendEntries f args).2 ∧
      hint (appendEntries f args).2 ≤ l.backUp (appendEntries f args).2 ∧
      l.backUp (appendEntries f args).2 ≤ args.prevLogIndex) := by
  have hnn := hfrel.view.nonneg
  have hlen := hfrel.view.length
  have hle := hfrel.view.le
  rcases appendEntries_rejects hf hfail with hstale | ⟨hlow, hhigh, hx, hxlen⟩ |
    ⟨hlow, hhigh, hne, hx, hxindex⟩
  · exact Or.inl hstale
  · refine Or.inr ⟨hlow, ?_⟩
    rw [hint, Raft.backUp, if_pos hx, if_pos hx, hxlen]
    omega
  · refine Or.inr ⟨hlow.le, ?_⟩
    obtain ⟨v, hv⟩ : ∃ v, (a₀.log q)[(args.prevLogIndex - 1).toNat]? = some v :=
      ⟨_, List.getElem?_eq_getElem (by omega)⟩
    obtain ⟨w, hw⟩ : ∃ w, (a.log p)[(args.prevLogIndex - 1).toNat]? = some w :=
      ⟨_, List.getElem?_eq_getElem (by omega)⟩
    have hread : f.termAt (args.prevLogIndex - f.lastIncludedIndex) = v.term := by
      rw [Raft.termAt, hfrel.view.term_at hlow.le (by omega) hv]
      rfl
    rw [hread] at hne hx hxindex
    have hmismatch : w.term ≠ v.term := (hprevTerm (by omega) w hw).symm ▸ hne
    have hpos := term_pos hr₀ hv
    rw [hint, if_neg (by omega)]
    exact backUp_conflict hr₀ hr hg h hleads hfrel.toMemRel
      (hfrel.term_le.trans (hf.trans (hterm.trans hleads.term).le)) hlow hv hw hmismatch hx hxindex

end Rejections

variable [Inhabited C] {s₀ s₁ s t : Cluster n C} {i j id : ℕ} {args : AppendEntriesRequest C}

section Calls

/-- The calls of a peer were there before, or have later numbers. -/
theorem calls_of_run (h : ReflTransGen RaftCluster.Step s₀ s) : s₀.nextCall ≤ s.nextCall ∧
    ∀ p, ∀ call ∈ (s.procs p).calls, call ∈ (s₀.procs p).calls ∨ s₀.nextCall ≤ call.id := by
  induction h with
  | refl => exact ⟨le_rfl, fun p call hcall => Or.inl hcall⟩
  | tail hrun hstep ih =>
    obtain ⟨e, he⟩ := hstep
    refine ⟨ih.1.trans (nextCall_le_step he), fun p call hcall => ?_⟩
    rcases (step_outcome he).calls hcall with hold | hnew
    · exact ih.2 p call hold
    · exact Or.inr (ih.1.trans hnew)

/-- A call that waits under the number of a request of an earlier state is the call that sent
the request. -/
theorem call_of_request (h₀ : RaftCluster.Reached s₀) (hrun : ReflTransGen RaftCluster.Step s₀ s)
    {req : Request C} (hpkt : .request id p q req ∈ s₀.net) {call : Call n C}
    (hcall : call ∈ (s.procs p).calls) (hid : call.id = id) : call.server = q ∧ call.req = req := by
  obtain ⟨a₀, -, ha₀⟩ := simulation.reachable h₀
  have hfresh := ha₀.net.fresh _ hpkt
  rcases (calls_of_run hrun).2 p call hcall with hold | hnew
  · exact ha₀.net.asked hpkt call hold hid
  · dsimp only [packetId] at hfresh
    omega

end Calls

/-- What the leader makes of a rejection that a peer has given earlier. -/
theorem backUp_rejected_run (h₀ : RaftCluster.Reached s₀)
    (hrun : ReflTransGen RaftCluster.Step s₀ s)
    (hpkt : .request id p q (.appendEntries args) ∈ s₀.net)
    (hrole : (s.procs p).rf.currentRole = .leader) (hterm : (s.procs p).rf.currentTerm = args.term)
    (hf : (s₀.procs q).rf.currentTerm ≤ args.term)
    (hfail : (appendEntries (s₀.procs q).rf args).2.success = false) :
    (args.prevLogIndex < (s₀.procs q).rf.lastIncludedIndex ∧
      (appendEntries (s₀.procs q).rf args).2 = { term := args.term }) ∨
    ((s₀.procs q).rf.lastIncludedIndex ≤ args.prevLogIndex ∧
      (s₀.procs q).rf.lastIncludedIndex < hint (appendEntries (s₀.procs q).rf args).2 ∧
      hint (appendEntries (s₀.procs q).rf args).2 ≤
        (s.procs p).rf.backUp (appendEntries (s₀.procs q).rf args).2 ∧
      (s.procs p).rf.backUp (appendEntries (s₀.procs q).rf args).2 ≤ args.prevLogIndex) := by
  obtain ⟨a₀, a, ha₀, ha, hg⟩ := related_run h₀ hrun
  have hmem := (ha.proc p).peer.toMemRel
  have hleads := hmem.leads hrole
  obtain ⟨-, -, -, hprev, -, hprevTerm, -⟩ := (ha₀.net.request hpkt).grows hg
  rw [← hterm, hleads.leaderLog ha.reached] at hprev hprevTerm
  exact backUp_rejected ha₀.reached ha.reached hg hmem hleads (ha₀.proc q).peer hterm.symm hprev
    hprevTerm hf hfail

/-- The reply to a stale term names no entry. -/
theorem term_le_of_names (hr : TermLogProtocol.Reached LogValue.term a) (hf : PeerRel a q f)
    (hnames : (appendEntries f args).2.xTerm = -1 ∨ f.lastIncludedIndex < args.prevLogIndex ∧
      args.prevLogIndex ≤ f.lastLogIndex ∧
      (appendEntries f args).2.xTerm = f.termAt (args.prevLogIndex - f.lastIncludedIndex)) :
    f.currentTerm ≤ args.term := by
  by_contra hstale
  have hlen := hf.view.length
  have hnn := hf.view.nonneg
  rw [appendEntries, if_pos (not_le.mp hstale)] at hnames
  rcases hnames with hx | ⟨hlow, hhigh, hx⟩
  · cases hx
  · rw [Raft.lastLogIndex] at hhigh
    obtain ⟨v, hv⟩ : ∃ v, (a.log q)[(args.prevLogIndex - 1).toNat]? = some v :=
      ⟨_, List.getElem?_eq_getElem (by omega)⟩
    rw [Raft.termAt, hf.view.term_at hlow.le (by omega) hv] at hx
    exact (term_pos hr hv).ne hx

/-- Fast log backup. Peer `q` handles an `AppendEntries` request of `p` in state `s₀` and rejects
it: it has no entry at `PrevLogIndex`, or an entry of another term, which it names in the reply.
Any steps follow. If `p` is then the leader of the same term and handles the reply, it assigns to
`nextIndex` of `q` an index of at least one that is lower than the one the request was built
from. -/
theorem backup_progress {resp : AppendEntriesResponse} (h₀ : RaftCluster.Reached s₀)
    (hpkt : s₀.net[i]? = some (.request id p q (.appendEntries args)))
    (h₀₁ : s₀.step? (.deliver i) = some s₁) (hrun : ReflTransGen RaftCluster.Step s₁ s)
    (hresp : resp = (appendEntries (s₀.procs q).rf args).2) (hfail : resp.success = false)
    (hcause : resp.xTerm = -1 ∨ (s₀.procs q).rf.lastIncludedIndex < args.prevLogIndex ∧
      args.prevLogIndex ≤ (s₀.procs q).rf.lastLogIndex ∧
      resp.xTerm = (s₀.procs q).rf.termAt (args.prevLogIndex - (s₀.procs q).rf.lastIncludedIndex))
    (hreply : s.net[j]? = some (.reply id p (.appendEntries resp)))
    (hstep : s.step? (.deliver j) = some t) (hrole : (s.procs p).rf.currentRole = .leader)
    (hterm : (s.procs p).rf.currentTerm = args.term) :
    1 ≤ (t.procs p).rf.nextIndex q ∧ (t.procs p).rf.nextIndex q < args.prevLogIndex + 1 := by
  subst hresp
  have hmem := List.mem_of_getElem? hpkt
  have hrun₀ : ReflTransGen RaftCluster.Step s₀ s := .head ⟨_, h₀₁⟩ hrun
  obtain ⟨a₀, a, ha₀, ha, -⟩ := related_run h₀ hrun₀
  have hnn := (ha₀.proc q).peer.view.nonneg
  have hf := term_le_of_names ha₀.reached (ha₀.proc q).peer hcause
  obtain ⟨call, hcall, hid, hres⟩ := Cluster.deliver_reply hreply hstep
  obtain ⟨hserver, hreq⟩ := call_of_request h₀ hrun₀ hmem hcall hid
  have hsaved : call.savedTerm = (s.procs p).rf.currentTerm := by
    have hrel := ((ha.proc p).calls call hcall).2
    rw [hreq] at hrel
    exact hrel.1.symm.trans hterm.symm
  have hanswer := (appendEntries_standing hf).1
  simp only [Process.resume, hreq, Process.finish] at hres
  rw [hserver, hsaved, appendReply_rejected hrole (hanswer.trans hterm.symm) hfail, Option.map_some,
    Option.some.injEq] at hres
  simp only [← hres, Function.update_self]
  rcases backUp_rejected_run h₀ hrun₀ hmem hrole hterm hf hfail with ⟨hlow, heq⟩ |
    ⟨-, hfront, hback, hprev⟩
  · rw [heq] at hcause
    rcases hcause with hx | ⟨hlow', -, -⟩
    · cases hx
    · omega
  · omega

/-- Peer 0 of two leads in term two with an entry of term one that peer 1 does not have, and
sends its first request. -/
def missingRun : List (Event 2 ℕ) :=
  [.ticker 0, .deliver 0, .deliver 0, .start 0 7, .crash 0, .ticker 0, .deliver 0, .deliver 0,
    .appendEntriesRoutine 0]

theorem backup_progress_missing : ∃ s₀ s₁ s t : Cluster 2 ℕ, RaftCluster.Reached s₀ ∧
    s₀.net[0]? = some (.request 2 0 1 (.appendEntries ⟨2, 0, 1, 1, [], 0⟩)) ∧
    s₀.step? (.deliver 0) = some s₁ ∧ s₁.step? (.start 0 8) = some s ∧
    s.step? (.deliver 0) = some t ∧ (s.procs 0).rf.nextIndex 1 = 2 ∧
    (s.procs 0).rf.lastLogIndex = 2 ∧
    1 ≤ (t.procs 0).rf.nextIndex 1 ∧ (t.procs 0).rf.nextIndex 1 < 2 := by
  obtain ⟨s₀, hs₀, htest⟩ := Cluster.exists_of_run
    (show ((initial : Cluster 2 ℕ).run missingRun).any (fun s₀ => decide
      (s₀.net[0]? = some (.request 2 0 1 (.appendEntries ⟨2, 0, 1, 1, [], 0⟩)) ∧
        (appendEntries (s₀.procs 1).rf ⟨2, 0, 1, 1, [], 0⟩).2 = ⟨2, false, -1, -1, 1⟩) &&
      (s₀.step? (.deliver 0)).any fun s₁ => (s₁.step? (.start 0 8)).any fun s => decide
        (s.net[0]? = some (.reply 2 0 (.appendEntries ⟨2, false, -1, -1, 1⟩)) ∧
          (s.procs 0).rf.currentRole = .leader ∧ (s.procs 0).rf.currentTerm = 2 ∧
          (s.procs 0).rf.nextIndex 1 = 2 ∧ (s.procs 0).rf.lastLogIndex = 2) &&
        (s.step? (.deliver 0)).isSome) = true by decide +kernel)
  obtain ⟨hleft, hrest⟩ := Bool.and_eq_true_iff.mp htest
  obtain ⟨hpkt, hresp⟩ := of_decide_eq_true hleft
  obtain ⟨s₁, hs₁, hrest⟩ := (Option.any_eq_true _ _).mp hrest
  obtain ⟨s, hs, hrest⟩ := (Option.any_eq_true _ _).mp hrest
  obtain ⟨hright, hsome⟩ := Bool.and_eq_true_iff.mp hrest
  obtain ⟨hreply, hrole, hterm, hnext, hlast⟩ := of_decide_eq_true hright
  obtain ⟨t, ht⟩ := Option.isSome_iff_exists.mp hsome
  exact ⟨s₀, s₁, s, t, reached_of_steps hs₀, hpkt, hs₁, hs, ht, hnext, hlast,
    backup_progress (reached_of_steps hs₀) hpkt hs₁ (.single ⟨_, hs⟩) hresp.symm rfl (Or.inl rfl)
      hreply ht hrole hterm⟩

end DistributedLabs.RaftBackup
