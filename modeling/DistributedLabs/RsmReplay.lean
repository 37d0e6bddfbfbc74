import DistributedLabs.KvServer
import DistributedLabs.RsmLocalSteps

/-!
# Every replica is a replay of the committed log

Four ways lead to a state: executing a command, the server's own snapshot after a restart,
a snapshot from another server, and the start on an empty disk. In all of them the state
machine is what the operations of the committed log give, up to the last index handled.
-/

namespace DistributedLabs.RsmCluster

open RaftPeer RaftCluster RaftRefinement Rsm TermLogProtocol TransitionRuns Relation

variable {n : ℕ} {Req Rep St B : Type*} {m : StateMachine Req Rep St B}

def execute (m : StateMachine Req Rep St B) (st : St) : Command Req → St
  | .op op => (m.doOp st op.req).1
  | .other _ => st

/-- The fold of `DoOp` over the operations of a log, from the initial state. -/
def replay (m : StateMachine Req Rep St B) (l : List (Command Req)) : St :=
  (ops l).foldl (fun st op => (m.doOp st op.req).1) m.init

theorem replay_concat (l : List (Command Req)) (c : Command Req) :
    replay m (l ++ [c]) = execute m (replay m l) c := by
  cases c <;> simp [replay, execute]

/-- The state machine is the replay of what was delivered, without the message that is
still to be handled. -/
def Replays (m : StateMachine Req Rep St B) (srv : Server Req Rep St B)
    (delivered : List (ℤ × List (Command Req))) : Prop :=
  match srv.inbox with
  | none => ∃ i l rest, delivered = (i, l) :: rest ∧ srv.rsm.sm = replay m l
  | some (.command i c) => ∃ l rest, delivered = (i, l ++ [c]) :: rest ∧ srv.rsm.sm = replay m l
  | some (.snapshot i data) => ∃ l rest, delivered = (i, l) :: rest ∧ data = m.snapshot (replay m l)

/-- The system stands for a state of the protocol, its images are images of replays, and
its servers replay the log. -/
structure Consistent (m : StateMachine Req Rep St B) (s : System n Req Rep St B)
    (a : Proto n (Command Req)) : Prop where
  related : Related s.raft a
  created : items a.created = s.started
  images : ∀ img ∈ s.images, img.2 = m.snapshot (replay m img.1)
  replays : ∀ p, Replays m (s.servers p) (s.raft.procs p).delivered

/-- `Reader` leaves the state machine at the replay that includes its message. -/
theorem reader_sm (hm : m.Lawful) {srv : Server Req Rep St B} {msg : Msg Req B}
    {d : List (ℤ × List (Command Req))} (h : Replays m srv d) (hin : srv.inbox = some msg)
    (lii : ℤ) (full : Bool) : ∃ i l rest, d = (i, l) :: rest ∧
      (srv.rsm.reader m lii full msg).rsm.sm = replay m l := by
  simp only [Replays, hin] at h
  cases msg with
  | snapshot i data =>
    obtain ⟨l, rest, hd, rfl⟩ := h
    exact ⟨i, l, rest, hd, hm.restore_snapshot _ _⟩
  | command i c =>
    obtain ⟨l, rest, hd, hsm⟩ := h
    refine ⟨i, l ++ [c], rest, hd, ?_⟩
    rw [replay_concat, ← hsm]
    cases c with
    | other x => rfl
    | op op =>
      simp only [RSM.reader, RSM.answer]
      split <;> rfl

/-- The image of a snapshot that `Reader` takes is the image of the replay it is filed for. -/
theorem reader_image {srv : Server Req Rep St B} {msg : Msg Req B}
    {d : List (ℤ × List (Command Req))} (h : Replays m srv d) (hin : srv.inbox = some msg)
    {lii index : ℤ} {full : Bool} {data : List B}
    (hsnap : (srv.rsm.reader m lii full msg).snapshot = some (index, data)) :
    ∃ l rest, d = (index, l) :: rest ∧ data = m.snapshot (replay m l) := by
  simp only [Replays, hin] at h
  cases msg with
  | snapshot i data => cases hsnap
  | command i c =>
    obtain ⟨l, rest, hd, hsm⟩ := h
    cases c with
    | other x => cases hsnap
    | op op =>
      simp only [RSM.reader] at hsnap
      split_ifs at hsnap with hfull
      obtain ⟨rfl, rfl⟩ := Prod.mk.inj (Option.some.inj hsnap)
      refine ⟨_, rest, hd, ?_⟩
      rw [replay_concat, ← hsm]
      rfl

/-- Only the inbox and the state machine matter. -/
theorem Replays.congr {srv srv' : Server Req Rep St B} {d : List (ℤ × List (Command Req))}
    (h : Replays m srv d) (hin : srv'.inbox = srv.inbox) (hsm : srv'.rsm.sm = srv.rsm.sm) :
    Replays m srv' d := by
  simpa only [Replays, hin, hsm] using h

/-- Operations at a server keep it a replay. -/
theorem Local.replays (hm : m.Lawful) {images : List (List (Command Req) × List B)}
    {started : List (Command Req)} {G : ℕ → ℤ → Bool → Prop} {R : Prop}
    {pr pr' : Process n (Command Req)}
    {srv srv' : Server Req Rep St B} (h : Local m images started G R pr pr' srv srv')
    (himages : ∀ img ∈ images, img.2 = m.snapshot (replay m img.1))
    (hnext : ∀ index term commands, pr.applying.head? = some (.snapshot index term commands) →
      commands ≠ [])
    (hr : Replays m srv pr.delivered) : Replays m srv' pr'.delivered := by
  cases h with
  | raft hd =>
    rw [hd]
    exact hr
  | submit hd hlead =>
    rw [hd]
    apply hr.congr <;> unfold Server.submit <;> split <;> rfl
  | takeCommand hin hsend hmsg hd =>
    simp only [Replays, hin] at hr
    obtain ⟨i, l, rest, hdel, hsm⟩ := hr
    refine ⟨l, pr.delivered, ?_, hsm⟩
    rw [hd, Process.serviceState, hdel]
    rfl
  | @takeSnapshot index term commands data hin hsend hmsg hd himg =>
    refine ⟨commands, pr.delivered, hd, ?_⟩
    rcases himg with ⟨hnil, -⟩ | himg
    · exact absurd hnil (hnext _ _ _ hmsg)
    · exact himages _ himg
  | handle hin hd =>
    rw [hd]
    exact reader_sm hm hr hin _ _
  | send hd h =>
    obtain ⟨k, v, sub, -, -, -, rfl⟩ := Server.send_cases h
    rw [hd]
    exact hr.congr rfl rfl
  | receive hd h =>
    obtain ⟨sub, v, -, -, -, rfl⟩ := Server.receive_cases h
    rw [hd]
    exact hr.congr rfl rfl
  | tick hd h =>
    obtain ⟨sub, -, -, rfl⟩ := Server.tick_cases h
    rw [hd]
    exact hr.congr rfl rfl
  | check hd hG h =>
    obtain ⟨sub, -, -, ⟨-, rfl⟩ | ⟨-, rfl⟩⟩ := Server.check_cases h <;> rw [hd] <;>
      exact hr.congr rfl rfl
  | @boot index commands data hR hd himg =>
    refine ⟨index, commands, [], hd, ?_⟩
    rcases himg with ⟨rfl, rfl⟩ | himg
    · rfl
    · have hdata := himages _ himg
      simp only at hdata
      subst hdata
      have hpos := List.length_pos_iff.mpr (hm.snapshot_ne (replay m commands))
      simp only [Server.boot, makeRSM, if_pos hpos]
      exact hm.restore_snapshot _ _

variable [DecidableEq Req] {s t : System n Req Rep St B}

/-- Only `Reader` hands out images, of the commands delivered at the index it names. -/
theorem step_images {e : Event n Req} (h : s.step? m e = some t) :
    t.images = s.images ∨ ∃ p msg lii full index data k d,
      (s.servers p).inbox = some msg ∧
      ((s.servers p).rsm.reader m lii full msg).snapshot = some (index, data) ∧
      (s.raft.procs p).delivered.findIdx? (fun d => d.1 = index) = some k ∧
      (s.raft.procs p).delivered[k]? = some d ∧ t.images = (d.2, data) :: s.images := by
  cases e with
  | raft e =>
    simp only [System.step?] at h
    split_ifs at h with hi
    obtain ⟨raft, -, rfl⟩ := Option.map_eq_some_iff.mp h
    exact Or.inl rfl
  | start q x => exact Or.inl (start_eq h).2.1
  | submit q id req =>
    simp only [System.step?] at h
    obtain ⟨u, hu, rfl⟩ := Option.map_eq_some_iff.mp h
    exact Or.inl (start_eq hu).2.1
  | take q k =>
    simp only [System.step?, System.take] at h
    split_ifs at h with hbusy
    obtain ⟨raw, -, h⟩ := Option.bind_eq_some_iff.mp h
    obtain ⟨msg, -, h⟩ := Option.bind_eq_some_iff.mp h
    obtain ⟨raft, -, rfl⟩ := Option.map_eq_some_iff.mp h
    exact Or.inl rfl
  | handle q full =>
    obtain ⟨msg, hmsg, h⟩ := Option.bind_eq_some_iff.mp h
    dsimp only at h
    split at h
    · obtain rfl := Option.some.inj h
      exact Or.inl rfl
    · next call hcall =>
      obtain ⟨-, -, k, d, -, himages, hk, hd⟩ := snapshot_eq h
      exact Or.inr ⟨q, msg, _, full, call.1, call.2, k, d, hmsg, hcall, hk, hd, himages⟩
  | send q =>
    obtain ⟨srv, -, rfl⟩ := Option.map_eq_some_iff.mp h
    exact Or.inl rfl
  | receive q i =>
    obtain ⟨srv, -, rfl⟩ := Option.map_eq_some_iff.mp h
    exact Or.inl rfl
  | tick q i =>
    obtain ⟨srv, -, rfl⟩ := Option.map_eq_some_iff.mp h
    exact Or.inl rfl
  | check q i =>
    obtain ⟨srv, -, rfl⟩ := Option.map_eq_some_iff.mp h
    exact Or.inl rfl
  | crash q k =>
    simp only [System.step?] at h
    obtain ⟨raft, -, h⟩ := Option.bind_eq_some_iff.mp h
    obtain ⟨data, -, rfl⟩ := Option.map_eq_some_iff.mp h
    exact Or.inl rfl
  | crashIn e j k =>
    simp only [System.step?] at h
    split_ifs at h with hi
    obtain ⟨q, -, h⟩ := Option.bind_eq_some_iff.mp h
    obtain ⟨raft, -, h⟩ := Option.bind_eq_some_iff.mp h
    obtain ⟨data, -, rfl⟩ := Option.map_eq_some_iff.mp h
    exact Or.inl rfl

theorem Consistent.images_step {a : Proto n (Command Req)} (hs : Consistent m s a)
    {e : Event n Req} (h : s.step? m e = some t) :
    ∀ img ∈ t.images, img.2 = m.snapshot (replay m img.1) := by
  rcases step_images h with himg | ⟨p, msg, lii, full, index, data, k, d, hin, hsnap, hk, hd, himg⟩
  · rw [himg]
    exact hs.images
  · obtain ⟨l, rest, hdel, rfl⟩ := reader_image (hs.replays p) hin hsnap
    rw [hdel, List.findIdx?_cons, decide_eq_true rfl, if_pos rfl] at hk
    obtain rfl := Option.some.inj hk
    rw [hdel] at hd
    obtain rfl := Option.some.inj hd
    intro img hmem
    rw [himg] at hmem
    rcases List.mem_cons.mp hmem with rfl | hmem
    · rfl
    · exact hs.images img hmem

/-- A step keeps the system consistent, with a later state of the protocol. -/
theorem Consistent.step (hm : m.Lawful) {a : Proto n (Command Req)} (hs : Consistent m s a)
    {e : Event n Req} (h : s.step? m e = some t) : ∃ b, Consistent m t b ∧ Grows a b := by
  have himages := hs.images_step h
  have hreplays : ∀ p, Replays m (t.servers p) (t.raft.procs p).delivered := by
    intro p
    refine (step_local (G := fun _ _ _ => True) h fun _ _ => trivial).replays hm hs.images ?_
      (hs.replays p)
    intro index term commands hmsg hnil
    obtain ⟨i, st, rest, hd, hlt, hlen⟩ := hs.related.next hmsg
    have hi := (hs.related.delivered_mem (p := p) (d := (i, st)) (by simp [hd])).2.1
    rw [hnil, List.length_nil] at hlen
    omega
  obtain ⟨hstarted, ⟨hraft, hnil⟩ | ⟨re, hre, hcut, haccepted⟩⟩ := step_raft h
  · rw [hnil, List.append_nil] at hstarted
    exact ⟨a, ⟨hraft ▸ hs.related, hs.created.trans hstarted.symm, himages, hreplays⟩, Grows.refl a⟩
  · obtain ⟨b, hb, hg, hc⟩ := hs.related.step hre hcut
    exact ⟨b, ⟨hb, by rw [hc, hs.created, hstarted, haccepted], himages, hreplays⟩, hg⟩

omit [DecidableEq Req] in
theorem consistent_initial : Consistent m (initial m : System n Req Rep St B)
    TermLogProtocol.initial where
  related := related_initial
  created := rfl
  images img himg := by cases himg
  replays p :=
    ⟨0, [], [], by simp [initial, RaftCluster.initial, Process.boot, make_eq, onDisk, blank],
    rfl⟩

variable {ok : System n Req Rep St B → Event n Req → Prop}

theorem Consistent.run (hm : m.Lawful) {a : Proto n (Command Req)} (hs : Consistent m s a)
    (hst : ReflTransGen (Step m ok) s t) : ∃ b, Consistent m t b ∧ Grows a b := by
  induction hst with
  | refl => exact ⟨a, hs, Grows.refl a⟩
  | tail _ hstep ih =>
    obtain ⟨b, hb, hab⟩ := ih
    obtain ⟨e, -, he⟩ := hstep
    obtain ⟨c, hc, hbc⟩ := hb.step hm he
    exact ⟨c, hc, hab.trans hbc⟩

theorem Reached.consistent (hm : m.Lawful) (hs : Reached m ok s) : ∃ a, Consistent m s a := by
  obtain ⟨s₀, rfl, hr⟩ := hs
  obtain ⟨a, ha, -⟩ := consistent_initial.run hm hr
  exact ⟨a, ha⟩

/-- The index of the last message that `Reader` has taken, or of the snapshot that the
process has started from. -/
def System.index (s : System n Req Rep St B) (p : Fin n) : ℤ :=
  ((s.raft.procs p).delivered.head?.map Prod.fst).getD 0

omit [DecidableEq Req] in
/-- A server that has handled what it has taken is the replay of the committed log. -/
theorem Consistent.sm_eq {a : Proto n (Command Req)} (hs : Consistent m s a) {p : Fin n}
    (hin : (s.servers p).inbox = none) : ∃ l, Applied a (s.index p) l ∧ 0 ≤ s.index p ∧
      s.index p ≤ (s.raft.procs p).rf.commitIndex ∧
      l = (committedLog (s.raft.procs p).rf).take (s.index p).toNat ∧
      (s.servers p).rsm.sm = replay m l := by
  have hr := hs.replays p
  simp only [Replays, hin] at hr
  obtain ⟨i, l, rest, hd, hsm⟩ := hr
  obtain ⟨happ, h0, hle, heq⟩ := hs.related.delivered_mem (p := p) (d := (i, l)) (by simp [hd])
  have hindex : s.index p = i := by simp [System.index, hd]
  rw [hindex]
  exact ⟨l, happ, h0, hle, heq, hsm⟩

section KeyValue

open KvServer

/-- Replica state equals log replay. When a server of a key/value service has handled the
message with index `i`, its store and its deduplication table are the fold of `DoOp` over
the operations of the committed log at the indices `1..i`. At any two moments of a run and
at any two servers the committed logs agree, so equal indices mean equal states. -/
theorem replica_eq_replay {codec : Codec B} (hcodec : codec.Lawful)
    {s t : KvSystem n B} (hs : Reached (machine codec) anyEvent s)
    (hst : ReflTransGen (Step (machine codec) anyEvent) s t) {p q : Fin n}
    (hp : (s.servers p).inbox = none) (hq : (t.servers q).inbox = none) :
    (0 ≤ s.index p ∧ s.index p ≤ (s.raft.procs p).rf.commitIndex ∧
      (s.servers p).rsm.sm =
        (ops ((committedLog (s.raft.procs p).rf).take (s.index p).toNat)).foldl
          (fun kv op => (kv.doOp op.req).1) KVServer.empty) ∧
    (s.index p ≤ t.index q → (committedLog (s.raft.procs p).rf).take (s.index p).toNat <+:
      (committedLog (t.raft.procs q).rf).take (t.index q).toNat) ∧
    (s.index p = t.index q → (s.servers p).rsm.sm = (t.servers q).rsm.sm) := by
  have hm := machine_lawful hcodec
  obtain ⟨a, ha⟩ := Reached.consistent hm hs
  obtain ⟨b, hb, hab⟩ := ha.run hm hst
  obtain ⟨l, happ, h0, hle, hl, hsm⟩ := ha.sm_eq hp
  obtain ⟨l', happ', -, -, hl', hsm'⟩ := hb.sm_eq hq
  have happ := happ.grows hab
  refine ⟨⟨h0, hle, ?_⟩, fun hij => ?_, fun hij => ?_⟩
  · rw [hsm, hl]
    rfl
  · rw [← hl, ← hl']
    exact happ.initial hb.related.reached happ' hij
  · rw [hij] at happ
    rw [hsm, hsm', happ.unique hb.related.reached happ']

/-- Server 0 of two is elected, commits a `Put`, executes it and takes a snapshot. -/
def putRun : List (Event 2 KvServer.Request) :=
  [.raft (.ticker 0), .raft (.deliver 0), .raft (.deliver 0),
    .submit 0 5 (.put ⟨"k", "a", 0, 9⟩), .raft (.appendEntriesRoutine 0), .raft (.deliver 0),
    .raft (.deliver 0), .raft (.apply 0), .take 0 0, .handle 0 true]

/-- Server 1 executes the `Put` too, and server 0 restarts from its snapshot. -/
def catchUpRun : List (Event 2 KvServer.Request) :=
  [.raft (.appendEntriesRoutine 0), .raft (.deliver 0), .raft (.apply 1), .take 1 0,
    .handle 1 false, .crash 0 0]

theorem replica_eq_replay_after_restart :
    ∃ s t : KvSystem 2 (Store × Dedup),
      Reached (machine pairCodec) anyEvent s ∧
      ReflTransGen (Step (machine pairCodec) anyEvent) s t ∧
      s.index 0 = 1 ∧ t.index 0 = 1 ∧ t.index 1 = 1 ∧
      (s.servers 0).rsm.sm.current "k" = ⟨"a", 1⟩ ∧
      (s.servers 0).rsm.sm = (t.servers 1).rsm.sm ∧
          (s.servers 0).rsm.sm = (t.servers 0).rsm.sm := by
  obtain ⟨s, hs, htest⟩ := System.exists_of_run
    (show ((initial (machine pairCodec) : KvSystem 2 (Store × Dedup)).run
      (machine pairCodec) anyEvent putRun).any
        (fun s => decide ((s.servers 0).inbox = none ∧ s.index 0 = 1 ∧
        (s.servers 0).rsm.sm.current "k" = ⟨"a", 1⟩) &&
      (s.run (machine pairCodec) anyEvent catchUpRun).any fun t =>
        decide ((t.servers 0).inbox = none ∧
        (t.servers 1).inbox = none ∧ t.index 0 = 1 ∧ t.index 1 = 1)) = true by decide +kernel)
  obtain ⟨htest, hrest⟩ := Bool.and_eq_true_iff.mp htest
  obtain ⟨hin, hindex, hvalue⟩ := of_decide_eq_true htest
  obtain ⟨t, hst, htest⟩ := System.exists_of_run hrest
  obtain ⟨hin0, hin1, hindex0, hindex1⟩ := of_decide_eq_true htest
  have hs : Reached (machine pairCodec) anyEvent s := ⟨_, rfl, hs⟩
  exact ⟨s, t, hs, hst, hindex, hindex0, hindex1, hvalue,
    (replica_eq_replay pairCodec_lawful hs hst hin hin1).2.2 (hindex.trans hindex1.symm),
    (replica_eq_replay pairCodec_lawful hs hst hin hin0).2.2 (hindex.trans hindex0.symm)⟩

end KeyValue

end DistributedLabs.RsmCluster
