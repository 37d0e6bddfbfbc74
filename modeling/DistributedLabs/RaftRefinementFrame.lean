import DistributedLabs.RaftRefinement

/-!
# What the steps of one peer leave alone, and restarts

The relations of a peer survive every step another peer takes, and those of packets
survive every step. A restart needs nothing but the saved state, so an operation is safe
under crashes as soon as each of its saves stands for a state the protocol reaches.
-/

namespace DistributedLabs.RaftRefinement

open RaftPeer RaftCluster RaftLogView TermLogProtocol TransitionRuns Relation

variable {n : ℕ} {C : Type*} {a b c : Proto n C} {p : Fin n}

/-- The protocol moves from `a` to `b` by steps of `p` alone, which create the entries `es`. -/
structure Moves (p : Fin n) (es : List (LogValue C)) (a b : Proto n C) : Prop where
  steps : ReflTransGen (Step LogValue.term p) a b
  created : b.created = a.created ++ es

theorem Moves.refl : Moves p [] a a := ⟨.refl, (List.append_nil _).symm⟩

theorem Moves.trans {es es' : List (LogValue C)} (h : Moves p es a b) (h' : Moves p es' b c) :
    Moves p (es ++ es') a c :=
  ⟨h.steps.trans h'.steps, by rw [h'.created, h.created, List.append_assoc]⟩

/-- One step that creates no entry. -/
theorem Moves.single (h : Step LogValue.term p a b) (hc : b.created = a.created) :
    Moves p [] a b := ⟨.single h, by rw [hc, List.append_nil]⟩

variable {es : List (LogValue C)}

theorem Moves.run (h : Moves p es a b) :
    ReflTransGen (fun s t => ∃ q, Step LogValue.term q s t) a b :=
  ReflTransGen.mono (fun _ _ hst => ⟨p, hst⟩) _ _ h.steps

theorem Moves.reached (h : Moves p es a b) (ha : TermLogProtocol.Reached LogValue.term a) :
    TermLogProtocol.Reached LogValue.term b := Reachable.trans ha h.run

theorem Moves.grows (h : Moves p es a b) (ha : TermLogProtocol.Reached LogValue.term a) :
    Grows a b := run_grows h.run ha

theorem Moves.untouched (h : Moves p es a b) {q : Fin n} (hq : q ≠ p) : Untouched q a b := by
  obtain ⟨hsteps, -⟩ := h
  induction hsteps with
  | refl => exact Untouched.refl q a
  | tail _ hst ih => exact ih.trans (hst.untouched hq)

theorem DiskRel.frame {d : Saved C} (h : DiskRel a p d) (hg : Grows a b)
    (hu : Untouched p a b) : DiskRel b p d where
  view := hu.log ▸ h.view
  term := hu.term ▸ h.term
  vote := hu.vote ▸ h.vote
  snapshot := hu.log ▸ h.snapshot
  chosen := by
    rw [hu.log, hu.term]
    exact Chosen.grows h.chosen hg

theorem LeaderRel.frame {rf : Raft n C} (h : LeaderRel a p rf) (hg : Grows a b)
    (hu : Untouched p a b) : LeaderRel b p rf where
  term := hu.term ▸ h.term
  elected := hu.term ▸ hg.leader h.elected
  ownAck := by
    rw [hu.term, hu.log]
    exact hg.acks h.ownAck
  next := hu.log ▸ h.next
  matched q := by
    rw [hu.term]
    exact (h.matched q).imp_right fun ⟨k, hk, hack⟩ => ⟨k, hk, hg.acks hack⟩

theorem CandidateRel.frame {pr : Process n C} (h : CandidateRel a p pr) (hg : Grows a b)
    (hu : Untouched p a b) : CandidateRel b p pr where
  term := hu.term ▸ h.term
  notElected := by
    rw [hu.term]
    exact fun hlead => h.notElected (hu.leader hlead)
  stands := by
    obtain ⟨l, hl, hlog⟩ := h.stands
    rw [hu.term, hu.log]
    exact ⟨l, hg.candidacies hl, hlog.imp_right hg.leader_ne_none⟩
  counted := by
    obtain ⟨S, hS, hvotes, hcalls⟩ := h.counted
    rw [hu.term]
    exact ⟨S, hS, fun q hq => hg.votes (hvotes q hq), hcalls⟩
  distinct := hu.term ▸ h.distinct

theorem Applied.grows {i : ℤ} {st : List C} (h : Applied a i st) (hg : Grows a b) :
    Applied b i st := by
  obtain ⟨T, l, hl, hi, hst⟩ := h
  exact ⟨T, l, Chosen.grows hl hg, hi, hst⟩

theorem Pending.grows {i j : ℤ} {msgs : List (ApplyMsg C)} (h : Pending a i msgs j)
    (hg : Grows a b) : Pending b i msgs j := by
  induction msgs generalizing i with
  | nil => exact h
  | cons msg rest ih =>
    cases msg with
    | command index command =>
      obtain ⟨hi, ⟨st, hst⟩, hrest⟩ := h
      exact ⟨hi, ⟨st, hst.grows hg⟩, ih hrest⟩
    | snapshot index term data =>
      obtain ⟨hi, hdata, hrest⟩ := h
      exact ⟨hi, hdata.grows hg, ih hrest⟩

theorem ServiceRel.grows {pr : Process n C} (h : ServiceRel a pr) (hg : Grows a b) :
    ServiceRel b pr where
  delivered d hd := ⟨(h.delivered d hd).1.grows hg, (h.delivered d hd).2⟩
  pending := by
    obtain ⟨i, st, rest, hd, hp⟩ := h.pending
    exact ⟨i, st, rest, hd, hp.grows hg⟩

theorem CallRel.grows {rf rf' : Raft n C} {call : Call n C} (h : CallRel a rf call)
    (hg : Grows a b) (hterm : rf.currentTerm ≤ rf'.currentTerm)
    (hlii : rf.lastIncludedIndex ≤ rf'.lastIncludedIndex) : CallRel b rf' call := by
  obtain ⟨id, server, savedTerm, req⟩ := call
  refine ⟨h.1.trans hterm, ?_⟩
  cases req with
  | requestVote args => exact h.2
  | appendEntries args =>
    refine ⟨h.2.1, h.2.2.1, h.2.2.2.trans ?_⟩
    exact_mod_cast (hg.leaderLog args.term).length_le
  | installSnapshot args => exact ⟨h.2.1, h.2.2.1, h.2.2.2.trans hlii⟩

theorem RequestRel.grows {src dst : Fin n} {req : Request C} (h : RequestRel a src dst req)
    (hg : Grows a b) : RequestRel b src dst req := by
  cases req with
  | requestVote args =>
    obtain ⟨hid, l, hl, hindex, hterm⟩ := h
    exact ⟨hid, l, hg.candidacies hl, hindex, hterm⟩
  | appendEntries args =>
    obtain ⟨hne, hlead, hnn, hle, hes, hprev, hc0, hc, hch⟩ := h
    have hlen := (hg.leaderLog args.term).length_le
    refine ⟨hne, hg.leader hlead, hnn, by omega, ?_, ?_, hc0, hc, ?_⟩
    · obtain ⟨t, ht⟩ := hg.leaderLog args.term
      rw [← ht, List.drop_append_of_le_length (by omega)]
      exact hes.trans (List.prefix_append _ _)
    · intro hpos v hv
      refine hprev hpos v ?_
      rwa [← LogPrefixes.getElem?_eq_of_initial (hg.leaderLog args.term) (by omega)]
    · have hce := hes.length_le
      rw [List.length_drop] at hce
      rw [hg.take_leaderLog (by omega)]
      exact Chosen.grows hch hg
  | installSnapshot args =>
    obtain ⟨hne, hlead, hpos, hle, hterm, hdata, hch⟩ := h
    have hlen := (hg.leaderLog args.term).length_le
    refine ⟨hne, hg.leader hlead, hpos, by omega, ?_, ?_, ?_⟩ <;>
      rw [hg.take_leaderLog (by omega)]
    · exact hterm
    · exact hdata
    · exact Chosen.grows hch hg

theorem ReplyRel.grows {call : Call n C} {rep : Reply} (h : ReplyRel a p call rep)
    (hg : Grows a b) : ReplyRel b p call rep := by
  obtain ⟨id, server, savedTerm, req⟩ := call
  cases req <;> cases rep <;> simp only [ReplyRel] at h ⊢
  · exact fun hgr => hg.votes (h hgr)
  · exact ⟨fun hok => hg.acks (h.1 hok), h.2⟩

section Restart

variable [Inhabited C]

omit [Inhabited C] in
theorem MemRel.frame {rf : Raft n C} (h : MemRel a p rf) (hg : Grows a b)
    (hu : Untouched p a b) : MemRel b p rf where
  me := h.me
  view := hu.log ▸ h.view
  snapshot := hu.log ▸ h.snapshot
  commit_ge := h.commit_ge
  commit_le := hu.log ▸ h.commit_le
  chosen := by
    rw [hu.log, hu.term]
    exact Chosen.grows h.chosen hg
  applied_nonneg := h.applied_nonneg
  applied_le := h.applied_le
  leads hrole := (h.leads hrole).frame hg hu

theorem PeerRel.frame {rf : Raft n C} (h : PeerRel a p rf) (hg : Grows a b)
    (hu : Untouched p a b) : PeerRel b p rf where
  toMemRel := h.toMemRel.frame hg hu
  disk := h.disk.frame hg hu
  standing := by
    rw [hu.term, hu.vote]
    exact h.standing

/-- The protocol never runs ahead of the peer's own term. -/
theorem PeerRel.term_le {rf : Raft n C} (h : PeerRel a p rf) : a.term p ≤ rf.currentTerm := by
  rcases h.standing with ⟨ht, -⟩ | ⟨ht, -⟩
  · exact ht.ge
  · exact ht.le

/-- Saving makes a peer whose term and vote are the protocol's ones durable. -/
theorem MemRel.persist {rf : Raft n C} (h : MemRel a p rf) (hterm : rf.currentTerm = a.term p)
    (hvote : rf.votedFor = voteCode (a.vote p)) : PeerRel a p rf.persist where
  me := h.me
  view := h.view
  snapshot := h.snapshot
  commit_ge := h.commit_ge
  commit_le := h.commit_le
  chosen := h.chosen
  applied_nonneg := h.applied_nonneg
  applied_le := h.applied_le
  leads hrole := ⟨(h.leads hrole).term, (h.leads hrole).elected, (h.leads hrole).ownAck,
    (h.leads hrole).next, (h.leads hrole).matched⟩
  disk := {
    view := h.view
    term := hterm
    vote := hvote
    snapshot := h.snapshot
    chosen := by
      have hle := h.commit_ge
      have hnn := h.view.nonneg
      exact Chosen.initial h.chosen (LogPrefixes.take_prefix_take
        (show rf.lastIncludedIndex.toNat ≤ rf.commitIndex.toNat by omega)) }
  standing := Or.inl ⟨hterm, hvote⟩

theorem ProcRel.frame {pr : Process n C} (h : ProcRel a p pr) (hg : Grows a b)
    (hu : Untouched p a b) : ProcRel b p pr where
  peer := h.peer.frame hg hu
  stands hrole := (h.stands hrole).frame hg hu
  service := h.service.grows hg
  calls call hcall := (h.calls call hcall).grows hg le_rfl le_rfl

/-- What `Make` puts in memory is what was saved last. -/
theorem make_eq (ps : Persister C) : make p ps = {
    persister := ps
    me := p
    currentTerm := (onDisk ps).currentTerm
    votedFor := (onDisk ps).votedFor
    currentRole := .follower
    log := (onDisk ps).log
    commitIndex := (onDisk ps).lastIncludedIndex
    lastApplied := (onDisk ps).lastIncludedIndex
    nextIndex := fun _ => 0
    matchIndex := fun _ => 0
    lastIncludedIndex := (onDisk ps).lastIncludedIndex
    lastIncludedTerm := (onDisk ps).lastIncludedTerm
    curSnapshot := (onDisk ps).snapshot } := by
  unfold make onDisk Raft.readPersist
  cases ps.saves.head? <;> rfl

theorem DiskRel.make {ps : Persister C} (h : DiskRel a p (onDisk ps)) :
    PeerRel a p (make p ps) := by
  rw [make_eq]
  exact {
    me := rfl
    view := h.view
    snapshot := h.snapshot
    commit_ge := le_rfl
    commit_le := h.view.le
    chosen := h.chosen
    applied_nonneg := h.view.nonneg
    applied_le := le_rfl
    leads := fun hrole => by cases hrole
    disk := h
    standing := Or.inl ⟨h.term, h.vote⟩ }

omit [Inhabited C] in
theorem DiskRel.applied {d : Saved C} (h : DiskRel a p d) :
    Applied a d.lastIncludedIndex d.snapshot := by
  refine ⟨a.term p, _, h.chosen, ?_, h.snapshot⟩
  have := h.view.le
  have := h.view.nonneg
  rw [List.length_take]
  omega

/-- A restarted process needs only its saved state. -/
theorem DiskRel.boot {ps : Persister C} (h : DiskRel a p (onDisk ps)) :
    ProcRel a p (Process.boot p ps) := by
  have hpeer := h.make
  refine ⟨hpeer, ?_, ⟨?_, ?_⟩, ?_⟩
  · intro hrole
    simp [Process.boot, make_eq] at hrole
  · intro d hd
    obtain rfl :
        d = ((RaftPeer.make p ps).lastIncludedIndex, (RaftPeer.make p ps).curSnapshot) := by
      simpa [Process.boot] using hd
    simp only [Process.boot, make_eq]
    exact ⟨h.applied, le_rfl⟩
  · exact ⟨_, _, [], rfl, by simp [Process.boot, make_eq, Pending]⟩
  · intro call hcall
    simp [Process.boot] at hcall

/-- Every state of the disk between two states of the persister stands for a state that
the protocol reaches by steps of `p`, with some of the entries `es` created. -/
def Durable (p : Fin n) (es : List (LogValue C)) (a : Proto n C) (before after : Persister C) :
    Prop :=
  before.saves <:+ after.saves ∧ ∀ sv, before.saves <:+ sv → sv <:+ after.saves →
    ∃ b es', es' <+: es ∧ Moves p es' a b ∧ DiskRel b p (onDisk ⟨sv⟩)

theorem Durable.refl {ps : Persister C} (h : DiskRel a p (onDisk ps)) :
    Durable p es a ps ps := by
  refine ⟨List.suffix_rfl, fun sv hle hge => ⟨a, [], List.nil_prefix, Moves.refl, ?_⟩⟩
  have hsv := hle.eq_of_length_le hge.length_le
  rwa [← hsv]

theorem Durable.save {ps : Persister C} {d : Saved C} (h : DiskRel a p (onDisk ps))
    (hab : Moves p es a b) (hb : DiskRel b p d) : Durable p es a ps (ps.save d) := by
  refine ⟨List.suffix_cons _ _, fun sv hle hge => ?_⟩
  rcases List.suffix_cons_iff.mp hge with rfl | hge
  · exact ⟨b, es, List.prefix_rfl, hab, hb⟩
  · have hsv := hle.eq_of_length_le hge.length_le
    exact ⟨a, [], List.nil_prefix, Moves.refl, by rwa [← hsv]⟩

theorem Durable.trans {es' : List (LogValue C)} {ps ps' ps'' : Persister C}
    (h : Durable p es a ps ps') (hab : Moves p es a b) (h' : Durable p es' b ps' ps'') :
    Durable p (es ++ es') a ps ps'' := by
  refine ⟨h.1.trans h'.1, fun sv hle hge => ?_⟩
  rcases List.suffix_or_suffix_of_suffix h'.1 hge with hmid | hmid
  · obtain ⟨c, es'', hes, hbc, hc⟩ := h'.2 sv hmid hge
    exact ⟨c, es ++ es'', (List.prefix_append_right_inj es).mpr hes, hab.trans hbc, hc⟩
  · obtain ⟨c, es'', hes, hac, hc⟩ := h.2 sv hle hmid
    exact ⟨c, es'', hes.trans (List.prefix_append _ _), hac, hc⟩

/-- An operation of `p` in the cluster is answered by the protocol, which creates the
entries `es`, and so is a crash after any of its saves. -/
structure Answers (p : Fin n) (es : List (LogValue C)) (a b : Proto n C) (pr pr' : Process n C) :
    Prop where
  moves : Moves p es a b
  proc : ProcRel b p pr'
  durable : Durable p es a pr.rf.persister pr'.rf.persister

theorem Answers.trans {es' : List (LogValue C)} {pr pr' pr'' : Process n C}
    (h : Answers p es a b pr pr') (h' : Answers p es' b c pr' pr'') :
    Answers p (es ++ es') a c pr pr'' :=
  ⟨h.moves.trans h'.moves, h'.proc, h.durable.trans h.moves h'.durable⟩

/-- An operation that neither moves the protocol nor saves anything. -/
theorem Answers.idle {pr pr' : Process n C} (h : ProcRel a p pr) (h' : ProcRel a p pr')
    (hps : pr'.rf.persister = pr.rf.persister) : Answers p [] a a pr pr' := by
  refine ⟨Moves.refl, h', ?_⟩
  rw [hps]
  exact Durable.refl h.peer.disk

/-- An operation that saves once, at its end. -/
theorem Answers.saved {pr pr' : Process n C} {d : Saved C} (h : ProcRel a p pr)
    (hm : Moves p es a b) (h' : ProcRel b p pr')
    (hps : pr'.rf.persister = pr.rf.persister.save d) : Answers p es a b pr pr' := by
  refine ⟨hm, h', ?_⟩
  have hdisk := h'.peer.disk
  rw [hps] at hdisk ⊢
  exact Durable.save h.peer.disk hm hdisk

/-- The parts of a process that an operation on the Raft fields does not touch. -/
theorem ProcRel.update {pr : Process n C} {rf : Raft n C} (h : ProcRel a p pr) (hg : Grows a b)
    (hpeer : PeerRel b p rf)
    (hcand : rf.currentRole = .candidate → CandidateRel b p { pr with rf := rf })
    (hterm : pr.rf.currentTerm ≤ rf.currentTerm) (happ : rf.lastApplied = pr.rf.lastApplied)
    (hlii : pr.rf.lastIncludedIndex ≤ rf.lastIncludedIndex) : ProcRel b p { pr with rf := rf } where
  peer := hpeer
  stands := hcand
  service := by
    have hs := h.service.grows hg
    refine ⟨?_, ?_⟩
    · rw [happ]
      exact hs.delivered
    · rw [happ]
      exact hs.pending
  calls call hcall := (h.calls call hcall).grows hg hterm hlii

end Restart

end DistributedLabs.RaftRefinement
