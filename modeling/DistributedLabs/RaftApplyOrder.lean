import DistributedLabs.RaftService
import DistributedLabs.RaftDurability

/-!
# The order of the messages on `applyCh`

`Apply` raises `lastApplied` before it sends a batch, and between two sends anything may
happen to the peer: a snapshot is installed, the log is compacted, the commit index moves.
The messages that leave a process since its `Make` still continue each other.
-/

namespace DistributedLabs.RaftApplyOrder

open RaftPeer RaftCluster RaftRefinement RaftSafety TermLogProtocol TransitionRuns Relation

variable {n : ℕ} {C : Type*}

/-- What an event takes from the `applyCh` of peer `p`. -/
def sent (s : Cluster n C) (p : Fin n) : Event n C → List (ApplyMsg C)
  | .receive q => if q = p then (s.procs p).applying.head?.toList else []
  | _ => []

/-- The messages lead from index `i` to index `j`, each continuing the one before, and every
snapshot satisfies `P`. -/
def InOrder (P : ℤ → List C → Prop) : ℤ → List (ApplyMsg C) → ℤ → Prop
  | i, [], j => i = j
  | i, .command index _ :: rest, j => index = i + 1 ∧ InOrder P index rest j
  | i, .snapshot index _ data :: rest, j => i < index ∧ P index data ∧ InOrder P index rest j

theorem InOrder.mono {P Q : ℤ → List C → Prop} {i j : ℤ} {msgs : List (ApplyMsg C)}
    (h : InOrder P i msgs j) (hPQ : ∀ index data, P index data → Q index data) :
    InOrder Q i msgs j := by
  induction msgs generalizing i with
  | nil => exact h
  | cons msg msgs ih =>
    cases msg with
    | command index command => exact ⟨h.1, ih h.2⟩
    | snapshot index term data => exact ⟨h.1, hPQ index data h.2.1, ih h.2.2⟩

theorem InOrder.append {P : ℤ → List C → Prop} {i j k : ℤ} {msgs rest : List (ApplyMsg C)}
    (h : InOrder P i msgs j) (hrest : InOrder P j rest k) : InOrder P i (msgs ++ rest) k := by
  induction msgs generalizing i with
  | nil =>
    obtain rfl : i = j := h
    exact hrest
  | cons msg msgs ih =>
    cases msg with
    | command index command => exact ⟨h.1, ih h.2⟩
    | snapshot index term data => exact ⟨h.1, h.2.1, ih h.2.2⟩

variable [Inhabited C]

/-- A run in which process `p` does not restart, with the messages it sends. -/
inductive Sends (p : Fin n) (s : Cluster n C) : List (ApplyMsg C) → Cluster n C → Prop
  | refl : Sends p s [] s
  | tail {msgs t e u} (run : Sends p s msgs t) (step : t.step? e = some u)
      (live : ¬ Restarts t p e) : Sends p s (msgs ++ sent t p e) u

/-- The snapshot covers the indices up to `index`, and holds for each of them the command that
is delivered there by any peer at any moment of the run through `t`. -/
def Belongs (t : Cluster n C) (index : ℤ) (data : List C) : Prop :=
  (data.length : ℤ) = index ∧
    ∀ u, RaftCluster.Reached u →
      (ReflTransGen RaftCluster.Step t u ∨ ReflTransGen RaftCluster.Step u t) →
      ∀ (q : Fin n) (i : ℤ) (x : C), Delivers u q i x → i ≤ index →
        data[(i - 1).toNat]? = some x

variable {p : Fin n} {s t u : Cluster n C} {msgs : List (ApplyMsg C)}

/-- What the service has received belongs to its index. -/
theorem belongs_of_delivered (ht : RaftCluster.Reached t) {index : ℤ} {data : List C}
    (h : (index, data) ∈ (t.procs p).delivered) : Belongs t index data := by
  refine ⟨?_, fun u hu hrun q i x hx hi => ?_⟩
  · obtain ⟨a, -, ha⟩ := simulation.reachable ht
    exact (ha.delivered_mem h).1.length
  · rcases hrun with hrun | hrun
    · obtain ⟨a, b, ha, hb, hg⟩ := related_run ht hrun
      obtain ⟨st, hst⟩ := applied_of_delivers hb hx
      exact Applied.getElem? hb.reached hst ((ha.delivered_mem h).1.grows hg) hi
    · obtain ⟨b, a, hb, ha, hg⟩ := related_run hu hrun
      obtain ⟨st, hst⟩ := applied_of_delivers hb hx
      exact Applied.getElem? ha.reached (hst.grows hg) (ha.delivered_mem h).1 hi

/-- What was sent leads from the index of `Make` to the last one the service has received,
and the service remembers every snapshot. -/
def Continues (p : Fin n) (i : ℤ) (msgs : List (ApplyMsg C)) (t : Cluster n C) : Prop :=
  ∃ j st rest, (t.procs p).delivered = (j, st) :: rest ∧
    InOrder (fun index data => (index, data) ∈ (t.procs p).delivered) i msgs j

/-- The next message is taken. -/
theorem continues_receive (ht : RaftCluster.Reached t) {i : ℤ} (h : Continues p i msgs t)
    (hstep : t.step? (.receive p) = some u) :
    Continues p i (msgs ++ sent t p (.receive p)) u := by
  obtain ⟨j, st, rest, hd, hsent⟩ := h
  simp only [Cluster.step?] at hstep
  cases happlying : (t.procs p).applying with
  | nil => simp [happlying] at hstep
  | cons msg later =>
    obtain ⟨a, -, ha⟩ := simulation.reachable ht
    obtain ⟨j', st', rest', hd', hfollows⟩ :=
      ha.next (show (t.procs p).applying.head? = some msg by rw [happlying]; rfl)
    obtain rfl : j = j' := by
      rw [hd, List.cons.injEq, Prod.mk.injEq] at hd'
      exact hd'.1.1
    simp only [happlying, Option.some.injEq] at hstep
    subst hstep
    simp only [sent, if_true, happlying, List.head?_cons, Option.toList_some]
    cases msg with
    | command index command =>
      refine ⟨index, _, (t.procs p).delivered, by simp [Cluster.set, Process.receive]; rfl, ?_⟩
      refine (hsent.mono fun _ _ hmem => ?_).append ⟨hfollows, rfl⟩
      simpa [Cluster.set, Process.receive] using Or.inr hmem
    | snapshot index term data =>
      refine ⟨index, data, (t.procs p).delivered, by simp [Cluster.set, Process.receive], ?_⟩
      refine (hsent.mono fun _ _ hmem => ?_).append ⟨hfollows.1, ?_, rfl⟩
      · simpa [Cluster.set, Process.receive] using Or.inr hmem
      · simp [Cluster.set, Process.receive]

omit [Inhabited C] in
theorem sent_eq_nil {e : Event n C} (h : e ≠ .receive p) : sent t p e = [] := by
  cases e with
  | receive q =>
    apply if_neg
    rintro rfl
    exact h rfl
  | _ => rfl

/-- The run lemma, by induction on the run. -/
theorem sends_continues (h : Sends p s msgs t) (hs : RaftCluster.Reached s) {i : ℤ} {st : List C}
    (hstart : (s.procs p).delivered = [(i, st)]) :
    RaftCluster.Reached t ∧ Continues p i msgs t := by
  induction h with
  | refl => exact ⟨hs, i, st, [], hstart, rfl⟩
  | @tail msgs t e u _ hstep hlive ih =>
    obtain ⟨ht, hcont⟩ := ih
    refine ⟨Reachable.trans ht (.single ⟨e, hstep⟩), ?_⟩
    by_cases hrecv : e = .receive p
    · subst hrecv
      exact continues_receive ht hcont hstep
    · obtain ⟨j, st, rest, hd, hsent⟩ := hcont
      have hkept := step_delivered hstep hrecv hlive
      rw [sent_eq_nil hrecv, List.append_nil]
      exact ⟨j, st, rest, hkept.trans hd, hkept ▸ hsent⟩

/-- Apply order. From `Make` on, the messages that a peer sends on `applyCh` lead from the
restored index to the last one its service has received, with no gap, no repetition and no
step back, and the data of every snapshot sent belong to its index. -/
theorem apply_order (hs : RaftCluster.Reached s)
    (hboot : s.procs p = Process.boot p (s.procs p).rf.persister) (hrun : Sends p s msgs t) :
    ∃ j, ((t.procs p).delivered.head?).map Prod.fst = some j ∧
      InOrder (Belongs t) (s.procs p).rf.lastIncludedIndex msgs j := by
  have hstart : (s.procs p).delivered =
      [((s.procs p).rf.lastIncludedIndex, (s.procs p).rf.curSnapshot)] := by
    rw [hboot]
    rfl
  obtain ⟨ht, j, st, rest, hd, hsent⟩ := sends_continues hrun hs hstart
  refine ⟨j, by rw [hd]; rfl, hsent.mono fun index data h => belongs_of_delivered ht h⟩

def sentBy (p : Fin n) : Cluster n C → List (Event n C) → List (ApplyMsg C)
  | _, [] => []
  | s, e :: es => sent s p e ++ ((s.step? e).map fun t => sentBy p t es).getD []

omit [Inhabited C] in
def restartFree : Event n C → Bool
  | .crash _ | .crashIn _ _ => false
  | _ => true

omit [Inhabited C] in
theorem not_restarts {e : Event n C} (h : restartFree e = true) : ¬ Restarts s p e := by
  cases e with
  | crash q => cases h
  | crashIn e k => cases h
  | _ => exact id

theorem sends_of_run {es : List (Event n C)} (hlive : es.all restartFree = true)
    (h : t.run es = some u) (hst : Sends p s msgs t) : Sends p s (msgs ++ sentBy p t es) u := by
  induction es generalizing t msgs with
  | nil =>
    obtain rfl := Option.some.inj h
    simpa [sentBy] using hst
  | cons e es ih =>
    obtain ⟨v, hv, hrest⟩ := Option.bind_eq_some_iff.mp h
    simp only [List.all_cons, Bool.and_eq_true] at hlive
    have := ih hlive.2 hrest (hst.tail hv (not_restarts hlive.1))
    simpa [sentBy, hv] using this

/-- Of three peers, peer 2 misses two entries, installs a snapshot that covers the first,
and takes the second from the log. -/
def installRun : List (Event 3 ℕ) :=
  [.ticker 0, .deliver 0, .deliver 0, .start 0 7, .start 0 8, .lose 0, .appendEntriesRoutine 0,
    .lose 0, .deliver 0, .deliver 0, .apply 0, .receive 0, .snapshot 0 0,
    .appendEntriesRoutine 0, .deliver 0, .deliver 0, .apply 2, .receive 2,
    .appendEntriesRoutine 0, .deliver 0, .apply 2, .receive 2]

theorem apply_order_installed : ∃ t : Cluster 3 ℕ,
    Sends 2 initial [.snapshot 1 1 [7], .command 2 8] t ∧
    InOrder (Belongs t) 0 [.snapshot 1 1 [7], .command 2 8] 2 := by
  have hsent : sentBy 2 (initial : Cluster 3 ℕ) installRun = [.snapshot 1 1 [7], .command 2 8] := by
    decide +kernel
  have hrun : ((initial : Cluster 3 ℕ).run installRun).any (fun t => decide
      (((t.procs 2).delivered.head?).map Prod.fst = some 2)) = true := by decide +kernel
  cases ht : (initial : Cluster 3 ℕ).run installRun with
  | none =>
    rw [ht] at hrun
    cases hrun
  | some t =>
    rw [ht] at hrun
    have hsends := sends_of_run (p := 2) (s := initial) rfl ht .refl
    rw [hsent] at hsends
    obtain ⟨j, hj, horder⟩ := apply_order (Reachable.of_init rfl) rfl hsends
    obtain rfl : 2 = j := Option.some.inj ((of_decide_eq_true hrun).symm.trans hj)
    exact ⟨t, hsends, horder⟩

end DistributedLabs.RaftApplyOrder
