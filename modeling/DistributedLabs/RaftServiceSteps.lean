import DistributedLabs.RaftVoteSteps

/-!
# The service's side of a peer

`Start` appends to the leader's log. `Snapshot` and `Apply` leave the protocol alone:
the one changes how a chosen prefix is stored, the other hands chosen commands over, in
the order of their indices and without a gap.
-/

namespace DistributedLabs.RaftRefinement

open RaftPeer RaftCluster RaftLogView TermLogProtocol TransitionRuns Relation LogPrefixes

variable {n : ℕ} {C : Type*} {a b : Proto n C} {p : Fin n} {pr : Process n C}

theorem items_length (l : List (LogValue C)) : (items l).length = l.length := List.length_map _

/-- Two states of the service at one index are equal. -/
theorem Applied.unique (hr : TermLogProtocol.Reached LogValue.term a) {i : ℤ} {st st' : List C}
    (h : Applied a i st) (h' : Applied a i st') : st = st' := by
  obtain ⟨T, l, hl, hi, rfl⟩ := h
  obtain ⟨T', l', hl', hi', rfl⟩ := h'
  have := Chosen.eq_of_length hl hl' hr.ledger hr.roots hr.custody (by omega)
  rw [this]

/-- The commands before the last applied one were applied too. -/
theorem Applied.of_concat {i : ℤ} {st : List C} {c : C} (h : Applied a (i + 1) (st ++ [c])) :
    Applied a i st := by
  obtain ⟨T, l, hl, hi, hst⟩ := h
  have hlen : st.length + 1 = l.length := by
    rw [← items_length l, ← hst, List.length_append, List.length_singleton]
  refine ⟨T, l.take st.length, Chosen.initial hl (List.take_prefix _ _), ?_, ?_⟩
  · rw [List.length_take]
    omega
  · rw [items, List.map_take, ← items, ← hst, List.take_left]

theorem MemRel.applied_take {rf : Raft n C} (h : MemRel a p rf) {i : ℤ} (h0 : 0 ≤ i)
    (hi : i ≤ rf.commitIndex) : Applied a i (items ((a.log p).take i.toNat)) := by
  have hle := h.commit_le
  refine ⟨_, _, Chosen.initial h.chosen (take_prefix_take (Int.toNat_le_toNat hi)), ?_, rfl⟩
  rw [List.length_take]
  omega

/-- The messages for entries behind an applied prefix continue the deliveries. -/
theorem pending_commandMsgs {i : ℤ} {pre es : List (LogValue C)} (hi : (pre.length : ℤ) = i)
    {T : ℤ} (hch : Chosen a T (pre ++ es)) :
    Pending a i (commandMsgs (i + 1) es) (i + es.length) := by
  induction es generalizing i pre with
  | nil => simp [commandMsgs, Pending]
  | cons e rest ih =>
    have hone : (pre ++ [e]) ++ rest = pre ++ e :: rest := by simp
    refine ⟨rfl, ⟨items pre, T, pre ++ [e], ?_, ?_, ?_⟩, ?_⟩
    · exact Chosen.initial hch ⟨rest, hone⟩
    · rw [List.length_append, List.length_singleton]
      omega
    · simp [items]
    · have := @ih (i + 1) (pre ++ [e]) (by simp; omega) (hone ▸ hch)
      rwa [show i + ((e :: rest).length : ℤ) = i + 1 + rest.length by simp; omega]

theorem Pending.le {i j : ℤ} {msgs : List (ApplyMsg C)} (h : Pending a i msgs j) : i ≤ j := by
  induction msgs generalizing i with
  | nil => exact le_of_eq h
  | cons msg rest ih =>
    cases msg with
    | command index command =>
      have := ih h.2.2
      have := h.1
      omega
    | snapshot index term data =>
      have := ih h.2.2
      have := h.1
      omega

variable [Inhabited C]

/-- The fields of a peer other than `lastApplied` are left alone. -/
theorem PeerRel.withApplied {rf : Raft n C} (h : PeerRel a p rf) {i : ℤ} (h0 : 0 ≤ i)
    (hi : i ≤ rf.commitIndex) : PeerRel a p { rf with lastApplied := i } :=
  { h with
    applied_nonneg := h0
    applied_le := hi
    leads := fun hrole => ⟨(h.leads hrole).term, (h.leads hrole).elected, (h.leads hrole).ownAck,
      (h.leads hrole).next, (h.leads hrole).matched⟩ }

/-- `Apply` takes messages from a peer whose earlier messages have all been sent. -/
theorem ProcRel.takeMsgs (h : ProcRel a p pr) (hempty : pr.applying = []) {i : ℤ}
    {msgs : List (ApplyMsg C)} (hi : i ≤ pr.rf.commitIndex)
    (hmsgs : Pending a pr.rf.lastApplied msgs i) :
    ProcRel a p { pr with rf := { pr.rf with lastApplied := i }, applying := msgs } := by
  have hle := hmsgs.le
  have h0 := h.peer.applied_nonneg
  refine ⟨h.peer.withApplied (h0.trans hle) hi, fun hrole => ?_, ⟨?_, ?_⟩, fun call hcall => ?_⟩
  · obtain ⟨hterm, hne, hst, hcount, hdist⟩ := h.stands hrole
    exact ⟨hterm, hne, hst, hcount, hdist⟩
  · exact fun d hd => ⟨(h.service.delivered d hd).1, (h.service.delivered d hd).2.trans hle⟩
  · obtain ⟨j, st, rest, hd, hp⟩ := h.service.pending
    rw [hempty] at hp
    have hj : j = pr.rf.lastApplied := hp
    exact ⟨j, st, rest, hd, hj ▸ hmsgs⟩
  · exact (h.calls call hcall).grows (Grows.refl a) le_rfl le_rfl

theorem apply_answers (h : ProcRel a p pr) (hempty : pr.applying = []) {rf : Raft n C}
    {msgs : List (ApplyMsg C)} (happly : apply pr.rf = some (rf, msgs)) :
    Answers p [] a a pr { pr with rf := rf, applying := msgs } := by
  have hmem := h.peer.toMemRel
  have hnn := hmem.view.nonneg
  have hge := hmem.commit_ge
  have hcle := hmem.commit_le
  have h0 := hmem.applied_nonneg
  have hlen := hmem.view.length
  unfold apply at happly
  dsimp only at happly
  split_ifs at happly with hsnap hcmd hrange <;>
    simp only [Option.some.injEq, Prod.mk.injEq] at happly
  · obtain ⟨rfl, rfl⟩ := happly
    refine Answers.idle h (h.takeMsgs hempty hge ⟨hsnap, ?_, rfl⟩) rfl
    rw [hmem.snapshot]
    exact hmem.applied_take hnn hge
  · obtain ⟨rfl, rfl⟩ := happly
    refine Answers.idle h (h.takeMsgs hempty le_rfl ?_) rfl
    obtain ⟨v, hlog, -⟩ := hmem.view.split
    have hbatch :
        (pr.rf.log.drop (pr.rf.convertLogicalToPhysical (pr.rf.lastApplied + 1)).toNat).take
        (pr.rf.convertLogicalToPhysical pr.rf.commitIndex -
          pr.rf.convertLogicalToPhysical (pr.rf.lastApplied + 1) + 1).toNat =
        ((a.log p).drop pr.rf.lastApplied.toNat).take
          (pr.rf.commitIndex - pr.rf.lastApplied).toNat := by
      simp only [Raft.convertLogicalToPhysical]
      rw [hlog, show (pr.rf.lastApplied + 1 - pr.rf.lastIncludedIndex).toNat =
        (pr.rf.lastApplied - pr.rf.lastIncludedIndex).toNat + 1 by omega, List.drop_succ_cons,
        List.drop_drop]
      congr 2 <;> omega
    have hsplit : (a.log p).take pr.rf.lastApplied.toNat ++
        ((a.log p).drop pr.rf.lastApplied.toNat).take
            (pr.rf.commitIndex - pr.rf.lastApplied).toNat =
        (a.log p).take pr.rf.commitIndex.toNat := by
      rw [← List.take_add]
      congr 1
      omega
    have hpend := pending_commandMsgs (i := pr.rf.lastApplied) (by rw [List.length_take]; omega)
      (hsplit ▸ hmem.chosen)
    rw [hbatch]
    rwa [List.length_take, List.length_drop, show pr.rf.lastApplied +
      ((min (pr.rf.commitIndex - pr.rf.lastApplied).toNat
        ((a.log p).length - pr.rf.lastApplied.toNat) : ℕ) : ℤ) =
            pr.rf.commitIndex by omega] at hpend
  · obtain ⟨rfl, rfl⟩ := happly
    exact Answers.idle h (h.takeMsgs hempty hmem.applied_le rfl) rfl

/-- The service receives the next message. -/
theorem receive_answers (hr : TermLogProtocol.Reached LogValue.term a) (h : ProcRel a p pr)
    {msg : ApplyMsg C} {rest : List (ApplyMsg C)} (hmsg : pr.applying = msg :: rest) :
    Answers p [] a a pr ({ pr with applying := rest }.receive msg) := by
  obtain ⟨i, st, before, hd, hp⟩ := h.service.pending
  rw [hmsg] at hp
  have hst : Applied a i st := (h.service.delivered (i, st) (hd ▸ List.mem_cons_self)).1
  have hkeep : ∀ (j : ℤ) (st' : List C), Applied a j st' → Pending a j rest pr.rf.lastApplied →
      ProcRel a p { pr with applying := rest, delivered := (j, st') :: pr.delivered } := by
    intro j st' hst' hrest
    refine ⟨h.peer, fun hrole => ?_, ⟨fun d hd' => ?_, ⟨j, st', pr.delivered, rfl, hrest⟩⟩, h.calls⟩
    · obtain ⟨hterm, hne, hstands, hcount, hdist⟩ := h.stands hrole
      exact ⟨hterm, hne, hstands, hcount, hdist⟩
    · rcases List.mem_cons.mp hd' with rfl | hd'
      · exact ⟨hst', hrest.le⟩
      · exact h.service.delivered d hd'
  cases msg with
  | command index command =>
    obtain ⟨rfl, ⟨st', hst'⟩, hrest⟩ := hp
    have hsame : st' = st := hst'.of_concat.unique hr hst
    have hstate : ({ pr with applying := rest } : Process n C).serviceState = st := by
      rw [Process.serviceState]
      change (pr.delivered.head?.map Prod.snd).getD [] = st
      rw [hd]
      rfl
    refine Answers.idle h ?_ rfl
    rw [Process.receive, hstate]
    exact hkeep (i + 1) _ (hsame ▸ hst') hrest
  | snapshot index term data =>
    obtain ⟨-, hdata, hrest⟩ := hp
    exact Answers.idle h (hkeep index data hdata hrest) rfl

def startEntries (rf : Raft n C) (command : C) : List (LogValue C) :=
  if rf.currentRole = .leader then [⟨rf.currentTerm, command⟩] else []

/-- `Start` appends at a leader and does nothing elsewhere. -/
theorem start_answers (hr : TermLogProtocol.Reached LogValue.term a) (h : ProcRel a p pr)
    (command : C) : ∃ b, Answers p (startEntries pr.rf command) a b pr
      { pr with rf := (start pr.rf command).1 } := by
  unfold start startEntries
  by_cases hrole : pr.rf.currentRole = .leader
  swap
  · simp only [if_pos (show pr.rf.currentRole ≠ .leader from hrole), if_neg hrole]
    exact ⟨a, Answers.idle h h rfl⟩
  simp only [if_neg (not_not.mpr hrole), if_pos hrole]
  have hmem := h.peer.toMemRel
  have hleads := hmem.leads hrole
  have hvote : pr.rf.votedFor = voteCode (a.vote p) := by
    rcases h.peer.standing with ⟨-, hv⟩ | ⟨-, -, hf⟩
    · exact hv
    · rw [hrole] at hf
      cases hf
  have hstep : Step LogValue.term p a (a.append p ⟨pr.rf.currentTerm, command⟩) :=
    .append hleads.elected hleads.term
  have hg := hstep.grows hr.ledger
  have hlog : (a.append p ⟨pr.rf.currentTerm, command⟩).log p =
      a.log p ++ [⟨pr.rf.currentTerm, command⟩] := by rw [append_log, if_pos rfl]
  have hcle := hmem.commit_le
  have hvle := hmem.view.le
  have htake : ∀ {k : ℤ}, k ≤ (a.log p).length →
      (a.log p ++ [(⟨pr.rf.currentTerm, command⟩ : LogValue C)]).take k.toNat =
        (a.log p).take k.toNat :=
    fun hk => List.take_append_of_le_length (by omega)
  have hmem' : MemRel (a.append p ⟨pr.rf.currentTerm, command⟩) p
      { pr.rf with log := pr.rf.log ++ [⟨pr.rf.currentTerm, command⟩] } := {
    me := hmem.me
    view := hlog ▸ hmem.view.append _
    snapshot := by
      rw [hlog, htake hvle]
      exact hmem.snapshot
    commit_ge := hmem.commit_ge
    commit_le := by
      rw [hlog, List.length_append]
      push_cast
      exact hcle.trans (by simp)
    chosen := by
      rw [hlog, htake hcle]
      exact Chosen.grows hmem.chosen hg
    applied_nonneg := hmem.applied_nonneg
    applied_le := hmem.applied_le
    leads := fun _ => {
      term := hleads.term
      elected := hleads.elected
      ownAck := by
        rw [hlog, List.length_append]
        exact Or.inl rfl
      next := fun q => by
        have := hleads.next q
        rw [hlog, List.length_append]
        simp only [List.length_singleton, Nat.cast_add, Nat.cast_one]
        omega
      matched :=
        fun q => (hleads.matched q).imp_right fun ⟨k, hk, hack⟩ => ⟨k, hk, hg.acks hack⟩ } }
  exact ⟨_, Answers.saved h ⟨.single hstep, rfl⟩
    (h.update hg (hmem'.persist hleads.term hvote)
      (fun hcand => by cases hrole.symm.trans hcand)
      le_rfl rfl le_rfl) rfl⟩

omit [Inhabited C] in
theorem LeaderRel.compact {rf rf' : Raft n C} (h : LeaderRel a p rf)
    (hterm : rf'.currentTerm = rf.currentTerm) (hnext : rf'.nextIndex = rf.nextIndex)
    (hmatch : rf'.matchIndex = rf.matchIndex)
    (hlii : rf.lastIncludedIndex ≤ rf'.lastIncludedIndex) : LeaderRel a p rf' where
  term := hterm.trans h.term
  elected := h.elected
  ownAck := h.ownAck
  next := hnext ▸ h.next
  matched q := by
    rw [hmatch]
    exact (h.matched q).imp_left fun hle => hle.trans hlii

/-- `Snapshot` at a delivered index stores a chosen prefix in another way. -/
theorem snapshot_answers (hr : TermLogProtocol.Reached LogValue.term a) (h : ProcRel a p pr)
    {d : ℤ × List C} (hd : d ∈ pr.delivered) {rf : Raft n C}
    (hsnap : snapshot pr.rf d.1 d.2 = some rf) : ∃ b, Answers p [] a b pr { pr with rf := rf } := by
  unfold snapshot at hsnap
  by_cases hold : d.1 ≤ pr.rf.lastIncludedIndex
  · rw [if_pos hold, Option.some.injEq] at hsnap
    subst hsnap
    exact ⟨a, Answers.idle h h rfl⟩
  rw [if_neg hold] at hsnap
  obtain ⟨v, hv, rfl⟩ := Option.map_eq_some_iff.mp hsnap
  obtain ⟨b, hab, hmem, hterm, hvote, hcand⟩ := settle hr h
  obtain ⟨happlied, hdle⟩ := h.service.delivered d hd
  have hg := hab.grows hr
  have hnn := hmem.view.nonneg
  have hdc : d.1 ≤ pr.rf.commitIndex := hdle.trans hmem.applied_le
  rw [Raft.convertLogicalToPhysical, hmem.view.at? (not_le.mp hold)] at hv
  have hstate : d.2 = items ((b.log p).take d.1.toNat) :=
    (happlied.grows hg).unique (hab.reached hr) (hmem.applied_take (by omega) hdc)
  have hmem' : MemRel b p { pr.rf with
      lastIncludedIndex := d.1
      lastIncludedTerm := v.term
      log := dummy v.term :: pr.rf.log.drop
        ((pr.rf.convertLogicalToPhysical d.1).toNat + 1)
      commitIndex := max pr.rf.commitIndex d.1
      lastApplied := max pr.rf.lastApplied d.1
      curSnapshot := d.2 } := by
    rw [max_eq_left hdc, max_eq_left hdle]
    exact { hmem with
      view := hmem.view.compact (not_le.mp hold) hv
      snapshot := hstate
      commit_ge := hdc
      leads := fun hrole => (hmem.leads hrole).compact rfl rfl rfl (not_le.mp hold).le }
  refine ⟨b, Answers.saved h hab (h.update hg (hmem'.persist hterm.symm hvote) (fun hrole => ?_)
    le_rfl (max_eq_left hdle) (not_le.mp hold).le) rfl⟩
  obtain ⟨ht, hne, hst, hcount, hdist⟩ := hcand hrole
  exact ⟨ht, hne, hst, hcount, hdist⟩

end DistributedLabs.RaftRefinement
