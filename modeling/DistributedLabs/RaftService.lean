import DistributedLabs.RaftSimulation

/-!
# What a cluster is to the services above it

The indices arrive in order and without gaps, what arrives at an index is the same at all
servers and times, it is part of the committed log, and commands are committed in the
order in which leaders have accepted them.
-/

namespace DistributedLabs.RaftRefinement

open RaftPeer RaftCluster RaftLogView TermLogProtocol TransitionRuns Relation LogPrefixes

variable {n : ℕ} {C : Type*} {a b : Proto n C} {p : Fin n}

/-- The committed commands of a peer: those of its snapshot, then those of its log. -/
def committedLog (rf : Raft n C) : List C :=
  (rf.curSnapshot ++ items (rf.log.drop 1)).take rf.commitIndex.toNat

theorem committedLog_eq {rf : Raft n C} (h : MemRel a p rf) :
    committedLog rf = items ((a.log p).take rf.commitIndex.toNat) := by
  obtain ⟨v, hlog, -⟩ := h.view.split
  rw [committedLog, h.snapshot, hlog, items, items, items, List.drop_one, List.tail_cons,
    ← List.map_append, List.take_append_drop, List.map_take]

theorem Applied.length {i : ℤ} {st : List C} (h : Applied a i st) : (st.length : ℤ) = i := by
  obtain ⟨T, l, -, hi, rfl⟩ := h
  rw [items_length, hi]

/-- What is applied at a lower index is the beginning of what is applied at a higher one. -/
theorem Applied.initial (hr : TermLogProtocol.Reached LogValue.term a) {i j : ℤ} {st st' : List C}
    (h : Applied a i st) (h' : Applied a j st') (hij : i ≤ j) : st <+: st' := by
  obtain ⟨T, l, hl, hi, rfl⟩ := h
  obtain ⟨T', l', hl', hj, rfl⟩ := h'
  rcases Chosen.comparable hl hl' hr.ledger hr.roots hr.custody with hp | hp
  · exact hp.map _
  · have := hp.length_le
    rw [hp.eq_of_length (by omega)]

/-- Commands are applied in the order in which they were accepted. -/
theorem Applied.sublist (hr : TermLogProtocol.Reached LogValue.term a) {i : ℤ} {st : List C}
    (h : Applied a i st) : st.Sublist (items a.created) := by
  obtain ⟨T, l, hl, -, rfl⟩ := h
  exact (Chosen.sublist_created hl hr).map _

theorem applied_nil : Applied a 0 [] := ⟨0, [], chosen_nil, rfl, rfl⟩

/-- Finitely many applied prefixes of the log lie in a common one. -/
theorem exists_applied {α : Type*} {P : α → List C → Prop}
    (hr : TermLogProtocol.Reached LogValue.term a) (xs : List α)
    (h : ∀ x ∈ xs, ∃ j st, Applied a j st ∧ P x st) :
    ∃ j st, Applied a j st ∧ ∀ x ∈ xs, ∃ st', st' <+: st ∧ P x st' := by
  induction xs with
  | nil => exact ⟨0, [], applied_nil, fun x hx => by cases hx⟩
  | cons x xs ih =>
    obtain ⟨j, st, hst, hP⟩ := h x List.mem_cons_self
    obtain ⟨j', st', hst', hall⟩ := ih fun y hy => h y (List.mem_cons_of_mem _ hy)
    rcases le_total j j' with hj | hj
    · refine ⟨j', st', hst', fun y hy => ?_⟩
      rcases List.mem_cons.mp hy with rfl | hy
      · exact ⟨st, hst.initial hr hst' hj, hP⟩
      · exact hall y hy
    · refine ⟨j, st, hst, fun y hy => ?_⟩
      rcases List.mem_cons.mp hy with rfl | hy
      · exact ⟨st, List.prefix_rfl, hP⟩
      · obtain ⟨st₁, hinitial, hy⟩ := hall y hy
        exact ⟨st₁, hinitial.trans (hst'.initial hr hst hj), hy⟩

variable [Inhabited C] {s t : Cluster n C}

/-- An event is answered by the protocol, which creates what the event hands to a leader.
Where a crash cuts an operation short, the operation must not be a `Start`. -/
theorem Related.step (hs : Related s a) {e : Event n C} (h : s.step? e = some t)
    (hcut : ∀ e' k, e = .crashIn e' k → created s e' = []) :
    ∃ b, Related t b ∧ Grows a b ∧ items b.created = items a.created ++ items (created s e) := by
  obtain ⟨b, es, hes, hc, hb, hab⟩ := step_related hs h
  refine ⟨b, hb, run_grows hab hs.reached, ?_⟩
  have : es = created s e := by
    rcases hes with hes | ⟨e', k, rfl, hes⟩
    · exact hes
    · rw [hcut e' k rfl, List.prefix_nil] at hes
      rw [hes]
      exact (hcut e' k rfl).symm
  rw [hc, this, items, List.map_append, ← items, ← items]

/-- What the service has received is part of the committed log. -/
theorem Related.delivered_mem (hs : Related s a) {d : ℤ × List C}
    (hd : d ∈ (s.procs p).delivered) : Applied a d.1 d.2 ∧ 0 ≤ d.1 ∧
      d.1 ≤ (s.procs p).rf.commitIndex ∧ d.2 = (committedLog (s.procs p).rf).take d.1.toNat := by
  have h := hs.proc p
  obtain ⟨happ, hle⟩ := h.service.delivered d hd
  have hlen := happ.length
  have hcommit : d.1 ≤ (s.procs p).rf.commitIndex := hle.trans h.peer.applied_le
  refine ⟨happ, by omega, hcommit, ?_⟩
  rw [committedLog_eq h.peer.toMemRel, items, ← List.map_take, List.take_take,
    min_eq_left (Int.toNat_le_toNat hcommit)]
  exact happ.unique hs.reached (h.peer.applied_take (by omega) hcommit)

/-- The message continues what was received up to index `i`. -/
def Follows (i : ℤ) : ApplyMsg C → Prop
  | .command index _ => index = i + 1
  | .snapshot index _ data => i < index ∧ (data.length : ℤ) = index

theorem Related.next (hs : Related s a) {msg : ApplyMsg C}
    (hmsg : (s.procs p).applying.head? = some msg) :
    ∃ i st rest, (s.procs p).delivered = (i, st) :: rest ∧ Follows i msg := by
  obtain ⟨i, st, rest, hd, hp⟩ := (hs.proc p).service.pending
  obtain ⟨tail, htail⟩ := List.head?_eq_some_iff.mp hmsg
  rw [htail] at hp
  refine ⟨i, st, rest, hd, ?_⟩
  cases msg with
  | command index command => exact hp.1
  | snapshot index term data => exact ⟨hp.1, hp.2.1.length⟩

theorem handle_delivered (pr : Process n C) (req : Request C) :
    (pr.handle req).1.delivered = pr.delivered := by
  cases req <;> rfl

omit [Inhabited C] in
theorem resume_delivered {pr pr' : Process n C} {call : Call n C} {rep : Option Reply}
    (h : pr.resume call rep = some pr') : pr'.delivered = pr.delivered := by
  cases Process.resumed h <;> rfl

omit [Inhabited C] in
theorem set_delivered {p : Fin n} {pr : Process n C}
    (h : pr.delivered = (s.procs p).delivered) (q : Fin n) :
    ((s.set p pr).procs q).delivered = (s.procs q).delivered := by
  by_cases hq : q = p
  · subst hq
    simpa [Cluster.set] using h
  · simp [Cluster.set, hq]

omit [Inhabited C] in
theorem spawnAll_delivered (s : Cluster n C) (p q : Fin n) (reqs : List (Fin n × Request C)) :
    ((s.spawnAll p reqs).procs q).delivered = (s.procs q).delivered := by
  rw [spawnAll_eq]
  by_cases hq : q = p
  · subst hq
    simp
  · simp [hq]

omit [Inhabited C] in
def Restarts (s : Cluster n C) (p : Fin n) : Event n C → Prop
  | .crash q => q = p
  | .crashIn e _ => s.actor e = some p
  | _ => False

/-- Between two restarts, the service of `q` sees nothing but what it receives. -/
theorem step_delivered {e : Event n C} {q : Fin n} (h : s.step? e = some t)
    (hrecv : e ≠ .receive q) (hlive : ¬ Restarts s q e) :
    (t.procs q).delivered = (s.procs q).delivered := by
  cases Cluster.action_of_step h with
  | ticker p hrole =>
    rw [spawnAll_delivered]
    apply set_delivered
    rfl
  | @routine p reqs hrole hreqs => exact spawnAll_delivered s p q reqs
  | @request i id src dst req hpkt => exact set_delivered (handle_delivered _ req) q
  | reply hpkt hcall hres => exact set_delivered ((resume_delivered hres).trans rfl) q
  | callFails hcall hres => exact set_delivered ((resume_delivered hres).trans rfl) q
  | lose i => rfl
  | start p command =>
    apply set_delivered
    rfl
  | snapshot hd hrf =>
    apply set_delivered
    rfl
  | apply hidle hresult =>
    apply set_delivered
    rfl
  | @receive p msg rest hmsgs =>
    have hp : q ≠ p := fun hq => hrecv (hq ▸ rfl)
    simp [Cluster.set, hp]
  | crash p =>
    have hp : q ≠ p := fun hq => hlive hq.symm
    simp [Cluster.set, hp]
  | @crashIn e p u k hact ht ps hps =>
    have hp : q ≠ p := fun hq => hlive (hq ▸ hact)
    simp [Cluster.set, hp]

end DistributedLabs.RaftRefinement
