import DistributedLabs.RaftRounds
import Mathlib.Data.Finset.Max
import Mathlib.Data.Prod.Lex

/-!
# A leader can always be elected

A peer that is not a leader may time out until its term is above all others, and its
requests and their answers may all arrive. Then every other peer follows it into its term,
and the peer with the most recent log gets all votes. So from every state of a cluster of
at least two peers, a leader can be elected without a crash or a lost packet. A single
peer never leads, because it counts its votes only when a reply comes in.
-/

namespace DistributedLabs.RaftCampaigns

open RaftPeer RaftCluster RaftRefinement RaftRounds RaftPeerSteps RaftStepCases TermLogProtocol
  MajorityQuorums TransitionRuns Relation

variable {n : ℕ} {C : Type*}

structure SameLog (rf rf' : Raft n C) : Prop where
  log : rf'.log = rf.log
  index : rf'.lastIncludedIndex = rf.lastIncludedIndex
  term : rf'.lastIncludedTerm = rf.lastIncludedTerm

theorem SameLog.refl (rf : Raft n C) : SameLog rf rf := ⟨rfl, rfl, rfl⟩

theorem SameLog.trans {rf rf' rf'' : Raft n C} (h : SameLog rf rf') (h' : SameLog rf' rf'') :
    SameLog rf rf'' :=
  ⟨h'.log.trans h.log, h'.index.trans h.index, h'.term.trans h.term⟩

theorem SameLog.lastLogIndex {rf rf' : Raft n C} (h : SameLog rf rf') :
    rf'.lastLogIndex = rf.lastLogIndex := by
  rw [Raft.lastLogIndex, Raft.lastLogIndex, h.log, h.index]

theorem SameLog.lastLogTerm {rf rf' : Raft n C} (h : SameLog rf rf') :
    rf'.lastLogTerm = rf.lastLogTerm := by
  simp only [Raft.lastLogTerm, Raft.termAt, h.log, h.term]

section Vote

/-- The log that the candidate describes is at least as recent as the voter's. -/
def AsRecent (args : RequestVoteArgs) (rf : Raft n C) : Prop :=
  rf.lastLogTerm < args.lastLogTerm ∨
    (rf.lastLogTerm = args.lastLogTerm ∧ rf.lastLogIndex ≤ args.lastLogIndex)

/-- A peer of an earlier term follows the candidate, whether or not it votes for it. Its
reply names the term it was in. -/
theorem requestVote_later {rf : Raft n C} {args : RequestVoteArgs}
    (h : rf.currentTerm < args.term) :
    (requestVote rf args).1.currentTerm = args.term ∧
      (requestVote rf args).1.currentRole = .follower ∧ SameLog rf (requestVote rf args).1 ∧
      (requestVote rf args).2.term = rf.currentTerm := by
  unfold requestVote
  simp only [not_lt.mpr h.le, h, if_true, if_false]
  split_ifs <;> exact ⟨rfl, rfl, ⟨rfl, rfl, rfl⟩, rfl⟩

theorem requestVote_granted {rf : Raft n C} {args : RequestVoteArgs}
    (h : rf.currentTerm < args.term) (hrecent : AsRecent args rf) :
    (requestVote rf args).2.voteGranted = true := by
  have hfollower : SameLog rf
      (Raft.persist
        { rf with currentRole := .follower, currentTerm := args.term, votedFor := -1 }) :=
    ⟨rfl, rfl, rfl⟩
  have hterm : ¬ args.lastLogTerm < rf.lastLogTerm := by
    rcases hrecent with hlt | ⟨heq, -⟩ <;> omega
  have hindex : ¬ (args.lastLogTerm = rf.lastLogTerm ∧ args.lastLogIndex < rf.lastLogIndex) := by
    rintro ⟨heq, hlt⟩
    rcases hrecent with hlt' | ⟨-, hle⟩ <;> omega
  unfold requestVote
  simp only [not_lt.mpr h.le, h, if_true, if_false, hfollower.lastLogTerm, hfollower.lastLogIndex,
    hterm, hindex]
  rfl

end Vote

section Count

/-- The candidate that stood as `rf` has `votes` votes and needs more, or it has won. -/
def Counted (rf : Raft n C) (votes : ℕ) (pr : Process n C) : Prop :=
  pr.rf = rf.becomeLeader ∨
    (pr.rf = rf ∧ pr.numVotes rf.currentTerm = votes ∧ votes < n / 2 + 1)

theorem Counted.resumeVote {rf : Raft n C} {votes : ℕ} {pr : Process n C}
    (h : Counted rf votes pr) (hrole : rf.currentRole = .candidate) {call : Call n C}
    (hsaved : call.savedTerm = rf.currentTerm) {reply : RequestVoteReply}
    (hreply : reply.term ≤ rf.currentTerm) :
    Counted rf (votes + reply.voteGranted.toNat) (pr.resumeVote call reply) := by
  rcases h with hwon | ⟨hrf, hvotes, hless⟩
  · left
    have hterm : ¬ pr.rf.currentTerm < reply.term := by
      rw [hwon]
      exact not_lt.mpr hreply
    have hleads : pr.rf.currentRole ≠ .candidate := by
      rw [hwon]
      exact fun hcand => by cases hcand
    have hkept : (pr.resumeVote call reply).rf = pr.rf := by
      simp [Process.resumeVote, voteReply, hterm, hleads]
    exact hkept.trans hwon
  · have hcount : (if reply.voteGranted then votes + 1 else votes) =
        votes + reply.voteGranted.toNat := by
      cases reply.voteGranted <;> rfl
    simp only [Process.resumeVote, voteReply, hrf, hsaved, hvotes, not_lt.mpr hreply, hrole,
      hcount, ne_eq, not_true_eq_false, or_self, if_false]
    split_ifs with hwon
    · exact Or.inl rfl
    · exact Or.inr ⟨rfl, Function.update_self _ _ _, not_le.mp hwon⟩

end Count

section Canvass

variable {c : Fin n} {rf : Raft n C} {args : RequestVoteArgs} {votes : ℕ}

/-- The candidate `c` waits for the answers to `calls`, whose requests are the newest
packets. None of the peers asked has been in its term. -/
structure Canvass (c : Fin n) (rf : Raft n C) (args : RequestVoteArgs) (votes : ℕ)
    (calls : List (Call n C)) (s : Cluster n C) : Prop where
  net : ∃ rest, s.net = calls.map (Call.packet c) ++ rest
  asks : ∀ call ∈ calls, call.savedTerm = rf.currentTerm ∧ call.req = .requestVote args
  servers : (c :: calls.map Call.server).Nodup
  ids : (calls.map Call.id).Nodup
  waits : ∀ call ∈ calls, call ∈ (s.procs c).calls ∧
    ∀ other ∈ (s.procs c).calls, other.id = call.id → other = call
  counted : Counted rf votes (s.procs c)
  earlier : ∀ call ∈ calls, (s.procs call.server).rf.currentTerm < rf.currentTerm

variable [Inhabited C] {s : Cluster n C} {call : Call n C} {calls : List (Call n C)}

/-- The next request is answered, and the candidate counts the answer. -/
theorem Canvass.ask (h : Canvass c rf args votes (call :: calls) s)
    (hrole : rf.currentRole = .candidate) (hargs : args.term = rf.currentTerm) :
    ∃ t, ReflTransGen CalmStep s t ∧
      Canvass c rf args
        (votes + (requestVote (s.procs call.server).rf args).2.voteGranted.toNat) calls t ∧
      (t.procs call.server).rf = (requestVote (s.procs call.server).rf args).1 ∧
      ∀ r, r ≠ c → r ≠ call.server → t.procs r = s.procs r := by
  obtain ⟨rest, hnet⟩ := h.net
  obtain ⟨hsaved, hreq⟩ := h.asks call List.mem_cons_self
  obtain ⟨hcall, hunique⟩ := h.waits call List.mem_cons_self
  have hearlier := h.earlier call List.mem_cons_self
  obtain ⟨hc, hservers⟩ := List.nodup_cons.mp h.servers
  have hne : c ≠ call.server := fun heq => hc (heq ▸ List.mem_cons_self)
  obtain ⟨hserver, hservers⟩ := List.nodup_cons.mp hservers
  obtain ⟨hid, hids⟩ := List.nodup_cons.mp h.ids
  set voter := (s.procs call.server).rf with hvoter
  have hbehind : voter.currentTerm < args.term := hargs ▸ hearlier
  have hlater := requestVote_later hbehind
  let pr := ((s.procs c).finish call.id).resumeVote call (requestVote voter args).2
  let t : Cluster n C := {
    s.set call.server { s.procs call.server with rf := (requestVote voter args).1 } with
    net := .reply call.id c (.requestVote (requestVote voter args).2) ::
      (calls.map (Call.packet c) ++ rest) }
  have hst : s.step? (.deliver 0) = some t := by
    simp [Cluster.step?, Cluster.deliver, hnet, Call.packet, hreq, Process.handle, t, hvoter]
  have htc : t.procs c = s.procs c := by simp [t, Cluster.set, hne]
  have htu : t.step? (.deliver 0) =
      some { t.set c pr with net := calls.map (Call.packet c) ++ rest } := by
    have hawait := awaiting_of_mem hcall hunique
    have hhead : t.net[0]? =
      some (.reply call.id c (.requestVote (requestVote voter args).2)) := rfl
    simp [Cluster.step?, Cluster.deliver, hhead, htc, hawait, Process.resume, hreq, pr]
    rfl
  refine ⟨_, (ReflTransGen.single ⟨_, rfl, hst⟩).tail ⟨_, rfl, htu⟩, ?_, ?_, ?_⟩
  · have huc : ∀ net, ({ t.set c pr with net := net } : Cluster n C).procs c = pr := by
      simp [Cluster.set]
    have hothers : ∀ other ∈ calls, other ∈ call :: calls := fun other => List.mem_cons_of_mem _
    refine ⟨⟨rest, rfl⟩, fun other hother => h.asks other (hothers other hother), ?_, hids, ?_, ?_,
      ?_⟩
    · exact List.nodup_cons.mpr ⟨fun hmem => hc (List.mem_cons_of_mem _ hmem), hservers⟩
    · intro other hother
      obtain ⟨hmem, honly⟩ := h.waits other (hothers other hother)
      rw [huc]
      refine ⟨List.mem_filter.mpr ⟨hmem, ?_⟩, fun x hx => honly x (List.mem_of_mem_filter hx)⟩
      exact bne_iff_ne.mpr fun heq => hid (heq ▸ List.mem_map_of_mem hother)
    · rw [huc]
      have hcounted : Counted rf votes ((s.procs c).finish call.id) := h.counted
      exact hcounted.resumeVote hrole hsaved (hlater.2.2.2 ▸ hearlier.le)
    · intro other hother
      have hother_c : other.server ≠ c := fun heq =>
        hc (heq ▸ List.mem_map_of_mem (hothers other hother))
      have hother_s : other.server ≠ call.server := fun heq =>
        hserver (heq ▸ List.mem_map_of_mem hother)
      simpa [Cluster.set, t, hother_c, hother_s] using h.earlier other (hothers other hother)
  · simp [Cluster.set, t, hne.symm]
  · intro r hrc hrs
    simp [Cluster.set, t, hrc, hrs]

/-- All requests are answered. -/
theorem Canvass.run (h : Canvass c rf args votes calls s) (hrole : rf.currentRole = .candidate)
    (hargs : args.term = rf.currentTerm) :
    ∃ t, ReflTransGen CalmStep s t ∧
      Counted rf (votes + calls.countP fun call =>
        (requestVote (s.procs call.server).rf args).2.voteGranted) (t.procs c) ∧
      (∀ call ∈ calls, (t.procs call.server).rf = (requestVote (s.procs call.server).rf args).1) ∧
      ∀ r, r ≠ c → r ∉ calls.map Call.server → t.procs r = s.procs r := by
  induction calls generalizing s votes with
  | nil => exact ⟨s, .refl, h.counted, by simp, fun _ _ _ => rfl⟩
  | cons call calls ih =>
    obtain ⟨t, hst, ht, hasked, hkept⟩ := h.ask hrole hargs
    obtain ⟨u, htu, hcounted, hrest, hkept'⟩ := ih ht
    obtain ⟨hc, hservers⟩ := List.nodup_cons.mp h.servers
    obtain ⟨hserver, -⟩ := List.nodup_cons.mp hservers
    have hsame : ∀ other ∈ calls, t.procs other.server = s.procs other.server := by
      intro other hother
      refine hkept _ (fun heq => hc ?_) (fun heq => hserver ?_)
      · exact heq ▸ List.mem_cons_of_mem _ (List.mem_map_of_mem hother)
      · exact heq ▸ List.mem_map_of_mem hother
    refine ⟨u, hst.trans htu, ?_, ?_, ?_⟩
    · rw [List.countP_congr fun other hother => by rw [hsame other hother]] at hcounted
      rw [List.countP_cons]
      convert hcounted using 1
      cases (requestVote (s.procs call.server).rf args).2.voteGranted <;> simp [add_assoc, add_comm]
    · intro other hother
      rcases List.mem_cons.mp hother with rfl | hother
      · rw [hkept' _ (fun heq => hc (heq ▸ List.mem_cons_self)) hserver, hasked]
      · rw [hrest other hother, hsame other hother]
    · intro r hrc hr
      rw [List.map_cons, List.mem_cons, not_or] at hr
      rw [hkept' r hrc hr.2, hkept r hrc hr.1]

end Canvass

section Campaign

theorem length_others (c : Fin n) : (others c).length + 1 = n := by
  have herase : others c = (List.finRange n).erase c := by
    rw [(List.nodup_finRange n).erase_eq_filter, others]
    exact List.filter_congr fun q _ => by by_cases hq : q = c <;> simp [hq]
  have hpos := Fin.pos c
  rw [herase, List.length_erase_of_mem (List.mem_finRange c), List.length_finRange]
  omega

theorem spawned_servers (next : ℕ) (T : ℤ) (reqs : List (Fin n × Request C)) :
    (spawned next T reqs).map Call.server = (reqs.map Prod.fst).reverse := by
  induction reqs generalizing next with
  | nil => rfl
  | cons head rest ih => simp [spawned, ih]

theorem spawned_ids (next : ℕ) (T : ℤ) (reqs : List (Fin n × Request C)) :
    (spawned next T reqs).map Call.id = (List.range' next reqs.length).reverse := by
  induction reqs generalizing next with
  | nil => rfl
  | cons head rest ih => simp [spawned, ih, List.range'_succ]

variable [Inhabited C] {s : Cluster n C} {a : Proto n C} {c : Fin n}

structure Campaigned (c : Fin n) (s t : Cluster n C) : Prop where
  term : ∀ r, (t.procs r).rf.currentTerm = (s.procs c).rf.currentTerm + 1
  follows : ∀ r ≠ c, (t.procs r).rf.currentRole = .follower
  logs : ∀ r, SameLog (s.procs r).rf (t.procs r).rf
  stands : (t.procs c).rf = (startElection (s.procs c).rf).1 ∨
    (t.procs c).rf = (startElection (s.procs c).rf).1.becomeLeader
  wins : (∀ r ≠ c, AsRecent (startElection (s.procs c).rf).2 (s.procs r).rf) →
    (t.procs c).rf = (startElection (s.procs c).rf).1.becomeLeader

/-- The peer `c` times out in the state `s`, in which no other peer has a later term. -/
theorem canvass_of_ticker (hn : 2 ≤ n) (hs : Related s a)
    (hrole : (s.procs c).rf.currentRole ≠ .leader)
    (hterm : ∀ r, (s.procs r).rf.currentTerm ≤ (s.procs c).rf.currentTerm) :
    ∃ t calls, s.step? (.ticker c) = some t ∧
      Canvass c (startElection (s.procs c).rf).1 (startElection (s.procs c).rf).2 1 calls t ∧
      calls.map Call.server = (others c).reverse ∧ ∀ r ≠ c, t.procs r = s.procs r := by
  set rf := (startElection (s.procs c).rf).1 with hrf
  set args := (startElection (s.procs c).rf).2 with hargs
  let reqs : List (Fin n × Request C) := (others c).map fun q => (q, .requestVote args)
  let calls := spawned s.nextCall rf.currentTerm reqs
  have hfst : reqs.map Prod.fst = others c := by simp [reqs, Function.comp_def]
  have hservers : calls.map Call.server = (others c).reverse := by
    rw [spawned_servers, hfst]
  refine ⟨_, calls, by simp only [Cluster.step?, if_neg hrole, spawnAll_eq]; rfl, ?_, hservers, ?_⟩
  · refine ⟨⟨s.net, ?_⟩, ?_, ?_, ?_, ?_, ?_, ?_⟩
    · simp [calls, reqs, Cluster.set, hrf, hargs]
    · intro call hcall
      obtain ⟨-, -, hT, hmem⟩ := mem_spawned hcall
      obtain ⟨q, -, heq⟩ := List.mem_map.mp hmem
      exact ⟨hT, (Prod.mk.inj heq).2.symm⟩
    · rw [hservers, List.nodup_cons, List.mem_reverse, List.nodup_reverse]
      exact ⟨fun hmem => mem_others.mp hmem rfl, (List.nodup_finRange n).filter _⟩
    · rw [spawned_ids, List.nodup_reverse]
      exact List.nodup_range'
    · intro call hcall
      simp only [Cluster.set, Function.update_self]
      refine ⟨List.mem_append_left _ hcall, fun other hother hid => ?_⟩
      rcases List.mem_append.mp hother with hnew | hold
      · exact spawned_eq_of_id hnew hcall hid
      · have hlt := hs.net.freshCall c other hold
        have hge := (mem_spawned hcall).1
        omega
    · refine Or.inr ⟨by simp [Cluster.set, hrf], by simp [Cluster.set, hrf], ?_⟩
      omega
    · intro call hcall
      have hmem : call.server ∈ others c := by
        rw [← List.mem_reverse, ← hservers]
        exact List.mem_map_of_mem hcall
      have hne := mem_others.mp hmem
      have hle := hterm call.server
      simp only [Cluster.set, Function.update_of_ne hne]
      exact lt_of_le_of_lt hle (Int.lt_succ _)
  · intro r hr
    simp [Cluster.set, hr]

/-- The whole campaign. -/
theorem campaign (hn : 2 ≤ n) (hs : RaftCluster.Reached s)
    (hrole : (s.procs c).rf.currentRole ≠ .leader)
    (hterm : ∀ r, (s.procs r).rf.currentTerm ≤ (s.procs c).rf.currentTerm) :
    ∃ t, ReflTransGen CalmStep s t ∧ Campaigned c s t := by
  obtain ⟨a, -, ha⟩ := simulation.reachable hs
  obtain ⟨t, calls, hst, hcanvass, hservers, hsame⟩ := canvass_of_ticker hn ha hrole hterm
  obtain ⟨u, htu, hcounted, hasked, -⟩ := hcanvass.run rfl rfl
  refine ⟨u, .head ⟨_, rfl, hst⟩ htu, ?_⟩
  set rf := (startElection (s.procs c).rf).1 with hrf
  set args := (startElection (s.procs c).rf).2 with hargs
  have hstands : (u.procs c).rf = rf ∨ (u.procs c).rf = rf.becomeLeader := by
    rcases hcounted with hwon | ⟨hrest, -, -⟩
    · exact Or.inr hwon
    · exact Or.inl hrest
  have hown : (u.procs c).rf.currentTerm = (s.procs c).rf.currentTerm + 1 ∧
      SameLog (s.procs c).rf (u.procs c).rf := by
    rcases hstands with heq | heq <;> rw [heq] <;> exact ⟨rfl, rfl, rfl, rfl⟩
  have hlt : ∀ r, (s.procs r).rf.currentTerm < args.term := fun r =>
    lt_of_le_of_lt (hterm r) (Int.lt_succ _)
  have hvoter : ∀ r ≠ c, (u.procs r).rf = (requestVote (s.procs r).rf args).1 := by
    intro r hr
    obtain ⟨call, hcall, rfl⟩ : ∃ call ∈ calls, call.server = r := by
      rw [← List.mem_map, hservers, List.mem_reverse]
      exact mem_others.mpr hr
    rw [hasked call hcall, hsame _ hr]
  refine ⟨fun r => ?_, fun r hr => ?_, fun r => ?_, hstands, fun hrecent => ?_⟩
  · by_cases hr : r = c
    · exact hr ▸ hown.1
    · rw [hvoter r hr]
      exact (requestVote_later (hlt r)).1
  · rw [hvoter r hr]
    exact (requestVote_later (hlt r)).2.1
  · by_cases hr : r = c
    · exact hr ▸ hown.2
    · rw [hvoter r hr]
      exact (requestVote_later (hlt r)).2.2.1
  · have hall : (calls.countP fun call =>
        (requestVote (t.procs call.server).rf args).2.voteGranted) = calls.length := by
      rw [List.countP_eq_length]
      intro call hcall
      have hne : call.server ≠ c := by
        rw [← mem_others, ← List.mem_reverse, ← hservers]
        exact List.mem_map_of_mem hcall
      rw [hsame _ hne]
      exact requestVote_granted (hlt _) (hrecent _ hne)
    have hlength : calls.length + 1 = n := by
      rw [← List.length_map (f := Call.server), hservers, List.length_reverse, length_others]
    rcases hcounted with hwon | ⟨-, -, hless⟩
    · exact hwon
    · rw [hall] at hless
      omega

/-- A peer may time out any number of times. -/
theorem timeouts (hrole : (s.procs c).rf.currentRole ≠ .leader) (k : ℕ) :
    ∃ t, ReflTransGen CalmStep s t ∧ (t.procs c).rf.currentRole ≠ .leader ∧
      (t.procs c).rf.currentTerm = (s.procs c).rf.currentTerm + k ∧
      ∀ r ≠ c, t.procs r = s.procs r := by
  induction k with
  | zero => exact ⟨s, .refl, hrole, by simp, fun _ _ => rfl⟩
  | succ k ih =>
    obtain ⟨t, hst, hrole', hterm, hsame⟩ := ih
    refine ⟨_, hst.tail ⟨.ticker c, rfl, by simp only [Cluster.step?, if_neg hrole']; rfl⟩,
      ?_, ?_, ?_⟩
    · simp [spawnAll_eq, Cluster.set, startElection, Raft.persist]
    · simp [spawnAll_eq, Cluster.set, startElection, Raft.persist, hterm, add_assoc]
    · intro r hr
      simpa [spawnAll_eq, Cluster.set, hr] using hsame r hr

omit [Inhabited C] in
theorem exists_largest {α : Type*} [LinearOrder α] (hn : 0 < n) (f : Fin n → α) :
    ∃ p, ∀ r, f r ≤ f p := by
  obtain ⟨p, -, hmax⟩ := Finset.exists_max_image Finset.univ f ⟨⟨0, hn⟩, Finset.mem_univ _⟩
  exact ⟨p, fun r => hmax r (Finset.mem_univ r)⟩

/-- Some peer has voted for the leader of the latest term, and does not lead itself. -/
theorem exists_not_leader (hn : 2 ≤ n) (hs : RaftCluster.Reached s) :
    ∃ c, (s.procs c).rf.currentRole ≠ .leader := by
  by_contra hall
  simp only [ne_eq, not_exists, not_not] at hall
  obtain ⟨a, -, ha⟩ := simulation.reachable hs
  obtain ⟨p, hmax⟩ := exists_largest (by omega) fun r => (s.procs r).rf.currentTerm
  have hp := (ha.proc p).peer.leads (hall p)
  obtain ⟨Q, hQ, hvotes⟩ := ha.reached.custody.elected hp.elected
  have hcard : 1 < Q.card := by
    unfold Majority at hQ
    rw [Fintype.card_fin] at hQ
    omega
  obtain ⟨q, hqQ, hqp⟩ := Finset.exists_mem_ne hcard p
  have hq := (ha.proc q).peer.leads (hall q)
  have hle := ha.reached.ledger.vote_le (hvotes q hqQ).1
  have hge := hmax q
  have hsame : a.term q = a.term p := by
    rw [hp.term, hq.term] at hge
    omega
  have helected := hq.elected
  rw [hsame, hp.elected] at helected
  exact hqp (Option.some.inj helected).symm

/-- A leader that has just been elected, with every other peer in its term. -/
structure Elected (c : Fin n) (s : Cluster n C) : Prop where
  role : (s.procs c).rf.currentRole = .leader
  term : ∀ r, (s.procs r).rf.currentTerm = (s.procs c).rf.currentTerm
  next : ∀ r, (s.procs c).rf.nextIndex r = (s.procs c).rf.lastLogIndex + 1

omit [Inhabited C] in
theorem Campaigned.elected {t : Cluster n C} (h : Campaigned c s t)
    (hwon : (t.procs c).rf = (startElection (s.procs c).rf).1.becomeLeader) : Elected c t where
  role := by rw [hwon]; rfl
  term r := (h.term r).trans (h.term c).symm
  next r := by
    rw [hwon]
    exact (sub_add_cancel _ _).symm

omit [Inhabited C] in
/-- The peer with the most recent log. -/
theorem exists_most_recent (hn : 0 < n) (s : Cluster n C) :
    ∃ c, ∀ r, AsRecent (startElection (s.procs c).rf).2 (s.procs r).rf := by
  obtain ⟨c, hmax⟩ := exists_largest hn fun r =>
    toLex ((s.procs r).rf.lastLogTerm, (s.procs r).rf.lastLogIndex)
  refine ⟨c, fun r => ?_⟩
  have hle := Prod.Lex.toLex_le_toLex.mp (hmax r)
  have hsame : SameLog (s.procs c).rf (startElection (s.procs c).rf).1 := ⟨rfl, rfl, rfl⟩
  unfold AsRecent
  rw [show (startElection (s.procs c).rf).2.lastLogTerm = (s.procs c).rf.lastLogTerm from
    hsame.lastLogTerm, show (startElection (s.procs c).rf).2.lastLogIndex =
    (s.procs c).rf.lastLogIndex from hsame.lastLogIndex]
  exact hle

/-- From every state of a cluster of at least two peers, a leader can be elected. -/
theorem exists_elected (hn : 2 ≤ n) (hs : RaftCluster.Reached s) :
    ∃ t c, ReflTransGen CalmStep s t ∧ Elected c t := by
  obtain ⟨c₀, hrole⟩ := exists_not_leader hn hs
  obtain ⟨m, hm⟩ := exists_largest (by omega) fun r => (s.procs r).rf.currentTerm
  obtain ⟨t, hst, hrole', hterm, hsame⟩ := timeouts hrole
    ((s.procs m).rf.currentTerm - (s.procs c₀).rf.currentTerm).toNat
  have hbound : ∀ r, (t.procs r).rf.currentTerm ≤ (t.procs c₀).rf.currentTerm := by
    intro r
    have hr := hm r
    by_cases heq : r = c₀
    · rw [heq]
    · rw [hsame r heq, hterm]
      omega
  obtain ⟨u, htu, hu⟩ := campaign hn (Reachable.trans hs (run_of_calm hst)) hrole' hbound
  rcases hu.stands with hlost | hwon
  · have hnobody : ∀ r, (u.procs r).rf.currentRole ≠ .leader := by
      intro r
      by_cases hr : r = c₀
      · rw [hr, hlost]
        exact fun hcand => by cases hcand
      · rw [hu.follows r hr]
        exact fun hfollows => by cases hfollows
    obtain ⟨c, hc⟩ := exists_most_recent (by omega) u
    obtain ⟨v, huv, hv⟩ := campaign (c := c) hn
      (Reachable.trans hs (run_of_calm (hst.trans htu))) (hnobody c)
      (fun r => (hu.term r).trans_le (hu.term c).ge)
    exact ⟨v, c, (hst.trans htu).trans huv, hv.elected (hv.wins fun r _ => hc r)⟩
  · exact ⟨u, c₀, hst.trans htu, hu.elected hwon⟩

end Campaign

section Alone

variable [Inhabited C] {s t : Cluster n C} {e : Event n C}

def Alone (s : Cluster n C) : Prop :=
  ∀ p, (s.procs p).rf.currentRole ≠ .leader ∧ (s.procs p).calls = []

omit [Inhabited C] in
theorem Alone.set (h : Alone s) {p : Fin n} {pr : Process n C} {net : List (Packet n C)}
    (hrole : pr.rf.currentRole ≠ .leader) (hcalls : pr.calls = []) :
    Alone { s.set p pr with net := net } := by
  intro q
  simp only [Cluster.set, Function.update_apply]
  split_ifs
  · exact ⟨hrole, hcalls⟩
  · exact h q

theorem handle_not_leader {pr : Process n C} (req : Request C)
    (h : pr.rf.currentRole ≠ .leader) : (pr.handle req).1.rf.currentRole ≠ .leader := by
  intro hleads
  cases req with
  | requestVote args => exact h (requestVote_leader hleads ▸ hleads)
  | appendEntries args => exact h (appendEntries_leader hleads).1
  | installSnapshot args => exact h (installSnapshotHandler_leader hleads ▸ hleads)

/-- A peer without others sends nothing, so it never counts its own vote. -/
theorem alone_of_action (hn : n < 2) (hs : Alone s) (h : s.Action e t) : Alone t := by
  have hothers : ∀ p : Fin n, others p = [] := by
    intro p
    have hlength := length_others p
    exact List.length_eq_zero_iff.mp (by omega)
  cases h with
  | ticker p hrole =>
    rw [hothers p]
    exact hs.set (fun hcand => by cases hcand) (hs p).2
  | routine hrole hreqs => exact absurd hrole (hs _).1
  | @request i id src dst req hpkt =>
    refine hs.set (handle_not_leader req (hs dst).1) ?_
    cases req <;> exact (hs dst).2
  | @reply i dst call rep pr hpkt hcall hres =>
    rw [(hs dst).2] at hcall
    cases hcall
  | @callFails p call pr hcall hres =>
    rw [(hs p).2] at hcall
    cases hcall
  | lose i => exact hs
  | start p command =>
    refine hs.set ?_ (hs p).2
    rw [start, if_pos (hs p).1]
    exact (hs p).1
  | @snapshot p k d rf hd hrf =>
    refine hs.set ?_ (hs p).2
    unfold snapshot at hrf
    split_ifs at hrf
    · exact Option.some.inj hrf ▸ (hs p).1
    · obtain ⟨v, -, rfl⟩ := Option.map_eq_some_iff.mp hrf
      exact (hs p).1
  | @apply p result hidle hresult =>
    exact hs.set ((apply_standing hresult).1 ▸ (hs p).1) (hs p).2
  | @receive p msg rest hmsgs => cases msg <;> exact hs.set (hs p).1 (hs p).2
  | crash p =>
    refine hs.set ?_ rfl
    simp [Process.boot, make_eq]
  | crashIn k hact ht ps hps =>
    refine hs.set ?_ rfl
    simp [Process.boot, make_eq]

theorem alone_of_reached (hn : n < 2) (hs : RaftCluster.Reached s) : Alone s := by
  refine hs.invariant ?_ ?_
  · rintro _ rfl p
    exact ⟨by simp [RaftCluster.initial, Process.boot, make_eq], rfl⟩
  · rintro s t - hs ⟨e, he⟩
    exact alone_of_action hn hs (Cluster.action_of_step he)

/-- Elections are always possible, exactly in a cluster of at least two peers. From every
reachable state, whatever was lost and whoever crashed before, there is a run without
further faults to a state with a leader and with all peers in its term. -/
theorem election_possible_iff : (∀ s : Cluster n C, RaftCluster.Reached s →
    ∃ t p, ReflTransGen CalmStep s t ∧ (t.procs p).rf.currentRole = .leader ∧
      ∀ q, (t.procs q).rf.currentTerm = (t.procs p).rf.currentTerm) ↔ 2 ≤ n := by
  constructor
  · intro hall
    by_contra hn
    obtain ⟨t, p, hrun, hrole, -⟩ := hall RaftCluster.initial (.of_init rfl)
    have ht : RaftCluster.Reached t := ⟨_, rfl, run_of_calm hrun⟩
    exact (alone_of_reached (not_le.mp hn) ht p).1 hrole
  · intro hn s hs
    obtain ⟨t, c, hrun, helected⟩ := exists_elected hn hs
    exact ⟨t, c, hrun, helected.role, helected.term⟩

end Alone

end DistributedLabs.RaftCampaigns
