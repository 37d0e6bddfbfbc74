import DistributedLabs.RaftService
import DistributedLabs.RsmCluster

/-!
# What a step of the system does at one server

Every event leaves a server alone, as far as the layer above Raft can see, or is one of
the operations listed in `Local`. The invariants of the following modules only have to
look at these.
-/

namespace DistributedLabs.RsmCluster

open RaftPeer RaftCluster RaftRefinement Rsm

variable {n : ℕ} {C Req Rep St B : Type*}

section Delivered

variable [Inhabited C] {s t : Cluster n C}

/-- The service sees nothing of what Raft does on its own. -/
theorem internal_delivered {e : RaftCluster.Event n C} (hi : internal e = true)
    (h : s.step? e = some t) (q : Fin n) : (t.procs q).delivered = (s.procs q).delivered := by
  apply step_delivered h
  · rintro rfl
    cases hi
  · cases e with
    | crash p => cases hi
    | crashIn e k => cases hi
    | _ => exact id

theorem start_delivered {p : Fin n} {command : C} (h : s.step? (.start p command) = some t)
    (q : Fin n) : (t.procs q).delivered = (s.procs q).delivered :=
  step_delivered h (by simp) id

theorem snapshot_delivered {p : Fin n} {k : ℕ} (h : s.step? (.snapshot p k) = some t)
    (q : Fin n) : (t.procs q).delivered = (s.procs q).delivered :=
  step_delivered h (by simp) id

/-- A crash leaves the other processes alone and starts `p` from a saved snapshot. -/
theorem crash_delivered {p q : Fin n} (h : s.step? (.crash p) = some t) :
    (t.procs q).delivered = if q = p then
      [((t.procs p).rf.lastIncludedIndex, (t.procs p).rf.curSnapshot)]
      else (s.procs q).delivered := by
  obtain rfl := Option.some.inj h
  by_cases hq : q = p
  · subst hq
    simp [Cluster.set, Process.boot]
  · simp [Cluster.set, hq]

theorem crashIn_delivered {p q : Fin n} {e : RaftCluster.Event n C} {j : ℕ}
    (h : s.step? (.crashIn e j) = some t) (hp : s.actor e = some p) :
    (t.procs q).delivered = if q = p then
      [((t.procs p).rf.lastIncludedIndex, (t.procs p).rf.curSnapshot)]
      else (s.procs q).delivered := by
  obtain ⟨p', hp', h⟩ := Option.bind_eq_some_iff.mp h
  obtain rfl := Option.some.inj (hp.symm.trans hp')
  obtain ⟨u, -, rfl⟩ := Option.map_eq_some_iff.mp h
  by_cases hq : q = p
  · subst hq
    simp [Cluster.set, Process.boot]
  · simp [Cluster.set, hq]

end Delivered

def ImageOf (images : List (List (Command Req) × List B)) (commands : List (Command Req))
    (data : List B) : Prop :=
  (commands = [] ∧ data = []) ∨ (commands, data) ∈ images

/-- What happens at one server. `G` is what is known when a `Submit` checks on its leader,
of its channel and of what `GetState` returns, and `R` is what is known when the process
starts anew. -/
inductive Local (m : StateMachine Req Rep St B) (images : List (List (Command Req) × List B))
    (started : List (Command Req)) (G : ℕ → ℤ → Bool → Prop) (R : Prop)
    (pr pr' : Process n (Command Req)) (srv : Server Req Rep St B) : Server Req Rep St B → Prop
  | raft (hd : pr'.delivered = pr.delivered) : Local m images started G R pr pr' srv srv
  | submit {op index term lead} (hd : pr'.delivered = pr.delivered)
      (hlead : lead = true → .op op ∈ started) :
      Local m images started G R pr pr' srv (srv.submit op index term lead)
  | takeCommand {index command} (hin : srv.inbox = none) (hsend : srv.sending = none)
      (hmsg : pr.applying.head? = some (.command index command))
      (hd : pr'.delivered = (index, pr.serviceState ++ [command]) :: pr.delivered) :
      Local m images started G R pr pr' srv { srv with inbox := some (.command index command) }
  | takeSnapshot {index term commands data} (hin : srv.inbox = none) (hsend : srv.sending = none)
      (hmsg : pr.applying.head? = some (.snapshot index term commands))
      (hd : pr'.delivered = (index, commands) :: pr.delivered)
      (himg : ImageOf images commands data) :
      Local m images started G R pr pr' srv { srv with inbox := some (.snapshot index data) }
  | handle {msg lii full} (hin : srv.inbox = some msg) (hd : pr'.delivered = pr.delivered) :
      Local m images started G R pr pr' srv { srv with
        rsm := (srv.rsm.reader m lii full msg).rsm
        inbox := none
        sending := (srv.rsm.reader m lii full msg).send
        trace := msg.mark :: srv.trace }
  | send {srv'} (hd : pr'.delivered = pr.delivered) (h : srv.send = some srv') :
      Local m images started G R pr pr' srv srv'
  | receive {i srv'} (hd : pr'.delivered = pr.delivered) (h : srv.receive i = some srv') :
      Local m images started G R pr pr' srv srv'
  | tick {i srv'} (hd : pr'.delivered = pr.delivered) (h : srv.tick i = some srv') :
      Local m images started G R pr pr' srv srv'
  | check {i term lead srv'} (hd : pr'.delivered = pr.delivered) (hG : G i term lead)
      (h : srv.check i term lead = some srv') : Local m images started G R pr pr' srv srv'
  | boot {index commands data} (hR : R) (hd : pr'.delivered = [(index, commands)])
      (himg : ImageOf images commands data) :
      Local m images started G R pr pr' srv (Server.boot m data)

section Steps

variable {m : StateMachine Req Rep St B} {images : List (List (Command Req) × List B)}
  {started : List (Command Req)} {G : ℕ → ℤ → Bool → Prop} {R : Prop} {s t : System n Req Rep St B}
  {p q : Fin n}

theorem setServer_self (srv : Server Req Rep St B) : (s.setServer p srv).servers p = srv :=
  Function.update_self _ _ _

theorem setServer_of_ne (hp : p ≠ q) (srv : Server Req Rep St B) :
    (s.setServer q srv).servers p = s.servers p := Function.update_of_ne hp _ _

theorem Local.others {raft : Cluster n (Command Req)}
    (hd : (raft.procs p).delivered = (s.raft.procs p).delivered) (hp : p ≠ q)
    (srv : Server Req Rep St B) : Local m images started G R (s.raft.procs p) (raft.procs p)
      (s.servers p) ((s.setServer q srv).servers p) := by
  rw [setServer_of_ne hp]
  exact .raft hd

/-- An operation that does not involve Raft. -/
theorem Local.of_setServer {srv : Server Req Rep St B}
    (h : p = q → Local m images started G R (s.raft.procs p) (s.raft.procs p) (s.servers p) srv) :
    Local m images started G R (s.raft.procs p) (s.raft.procs p) (s.servers p)
      ((s.setServer q srv).servers p) := by
  by_cases hp : p = q
  · subst hp
    rw [setServer_self]
    exact h rfl
  · exact Local.others rfl hp srv

theorem start_eq {command : Command Req} (h : s.start p command = some t) :
    t.servers = s.servers ∧ t.images = s.images ∧
      s.raft.step? (.start p command) = some t.raft ∧
      t.started = s.started ++ items (startEntries (s.raft.procs p).rf command) ∧
      ((RaftPeer.start (s.raft.procs p).rf command).2.2.2 = true → command ∈ t.started) := by
  obtain ⟨raft, hraft, rfl⟩ := Option.map_eq_some_iff.mp h
  refine ⟨rfl, rfl, hraft, ?_, fun hlead => ?_⟩
  · unfold startEntries RaftPeer.start
    by_cases hrole : (s.raft.procs p).rf.currentRole = .leader
    · simp [hrole, items]
    · simp [hrole, items]
  · simp [hlead]

theorem snapshot_eq {index : ℤ} {data : List B} (h : s.snapshot p index data = some t) :
    t.servers = s.servers ∧ t.started = s.started ∧ ∃ k d,
      s.raft.step? (.snapshot p k) = some t.raft ∧ t.images = (d.2, data) :: s.images ∧
      (s.raft.procs p).delivered.findIdx? (fun d => d.1 = index) = some k ∧
      (s.raft.procs p).delivered[k]? = some d := by
  obtain ⟨k, hk, h⟩ := Option.bind_eq_some_iff.mp h
  obtain ⟨d, hd, h⟩ := Option.bind_eq_some_iff.mp h
  obtain ⟨raft, hraft, rfl⟩ := Option.map_eq_some_iff.mp h
  exact ⟨rfl, rfl, k, d, hraft, rfl, hk, hd⟩

/-- What a turn of `Reader` leaves at the servers. -/
theorem handle_servers {full : Bool} (h : s.handle m p full = some t) :
    ∃ msg, (s.servers p).inbox = some msg ∧
      let turn := (s.servers p).rsm.reader m (s.raft.procs p).rf.lastIncludedIndex full msg
      t.servers = (s.setServer p { s.servers p with
        rsm := turn.rsm, inbox := none, sending := turn.send,
        trace := msg.mark :: (s.servers p).trace }).servers ∧
      ∀ q, (t.raft.procs q).delivered = (s.raft.procs q).delivered := by
  obtain ⟨msg, hmsg, h⟩ := Option.bind_eq_some_iff.mp h
  refine ⟨msg, hmsg, ?_⟩
  dsimp only at h ⊢
  split at h
  · obtain rfl := Option.some.inj h
    exact ⟨rfl, fun q => rfl⟩
  · obtain ⟨hservers, -, k, d, hraft, -⟩ := snapshot_eq h
    exact ⟨hservers, snapshot_delivered hraft⟩

theorem handle_local {full : Bool} (h : s.handle m q full = some t) :
    Local m images started G R (s.raft.procs p) (t.raft.procs p) (s.servers p) (t.servers p) := by
  obtain ⟨msg, hmsg, hservers, hd⟩ := handle_servers h
  rw [hservers]
  by_cases hp : p = q
  · subst hp
    rw [setServer_self]
    exact .handle hmsg (hd p)
  · exact Local.others (hd p) hp _

variable [DecidableEq Req]

theorem imageOf_image {commands : List (Command Req)} {k : ℕ} {data : List B}
    (h : s.image commands k = some data) : ImageOf s.images commands data := by
  unfold System.image at h
  split_ifs at h with hnil
  · exact Or.inl ⟨hnil, (Option.some.inj h).symm⟩
  · obtain ⟨img, himg, h⟩ := Option.bind_eq_some_iff.mp h
    split_ifs at h with heq
    obtain rfl := Option.some.inj h
    exact Or.inr (heq ▸ List.mem_of_getElem? himg)

theorem take_local {k : ℕ} (h : s.take q k = some t) :
    Local m s.images started G R (s.raft.procs p) (t.raft.procs p) (s.servers p) (t.servers p) := by
  simp only [System.take] at h
  split_ifs at h with hbusy
  simp only [Bool.or_eq_true, not_or, Option.not_isSome_iff_eq_none] at hbusy
  obtain ⟨raw, hraw, h⟩ := Option.bind_eq_some_iff.mp h
  obtain ⟨msg, hmsg, h⟩ := Option.bind_eq_some_iff.mp h
  obtain ⟨raft, hraft, rfl⟩ := Option.map_eq_some_iff.mp h
  obtain ⟨rest, hrest⟩ := List.head?_eq_some_iff.mp hraw
  simp only [Cluster.step?, hrest, Option.some.injEq] at hraft
  subst hraft
  by_cases hp : p = q
  · subst hp
    simp only [setServer_self]
    cases raw with
    | command index command =>
      obtain rfl := Option.some.inj hmsg
      refine .takeCommand hbusy.1 hbusy.2 hraw ?_
      simp [Cluster.set, Process.receive, Process.serviceState]
    | snapshot index term commands =>
      obtain ⟨data, hdata, rfl⟩ := Option.map_eq_some_iff.mp hmsg
      refine .takeSnapshot hbusy.1 hbusy.2 hraw ?_ (imageOf_image hdata)
      simp [Cluster.set, Process.receive]
  · refine Local.others ?_ hp _
    simp [Cluster.set, hp]

theorem restart_local {raft : Cluster n (Command Req)} {k : ℕ}
    (h : s.restart m raft q k = some t) (hR : p = q → R)
    (hd : (raft.procs p).delivered = if p = q then
      [((raft.procs q).rf.lastIncludedIndex, (raft.procs q).rf.curSnapshot)]
      else (s.raft.procs p).delivered) :
    Local m s.images started G R (s.raft.procs p) (t.raft.procs p) (s.servers p) (t.servers p) := by
  obtain ⟨data, hdata, rfl⟩ := Option.map_eq_some_iff.mp h
  by_cases hp : p = q
  · subst hp
    rw [if_pos rfl] at hd
    simp only [setServer_self]
    exact .boot (hR rfl) hd (imageOf_image hdata)
  · rw [if_neg hp] at hd
    exact Local.others hd hp _

/-- Every step of the system is an operation of `Local` at every server. -/
theorem step_local {e : Event n Req} (h : s.step? m e = some t)
    (hG : ∀ i, e = .check p i →
      G i (getState (s.raft.procs p).rf).1 (getState (s.raft.procs p).rf).2) :
    Local m s.images t.started G (s.restarted e = some p) (s.raft.procs p) (t.raft.procs p)
      (s.servers p) (t.servers p) := by
  cases e with
  | raft e =>
    simp only [System.step?] at h
    split_ifs at h with hi
    obtain ⟨raft, hraft, rfl⟩ := Option.map_eq_some_iff.mp h
    exact .raft (internal_delivered hi hraft p)
  | start q x =>
    obtain ⟨hservers, -, hraft, -⟩ := start_eq h
    rw [hservers]
    exact .raft (start_delivered hraft p)
  | submit q id req =>
    simp only [System.step?] at h
    obtain ⟨u, hu, rfl⟩ := Option.map_eq_some_iff.mp h
    obtain ⟨hservers, -, hraft, -, hlead⟩ := start_eq hu
    by_cases hp : p = q
    · subst hp
      rw [setServer_self]
      exact .submit (start_delivered hraft p) hlead
    · rw [setServer_of_ne hp, hservers]
      exact .raft (start_delivered hraft p)
  | take q k => exact take_local h
  | handle q full => exact handle_local h
  | send q =>
    obtain ⟨srv, hsrv, rfl⟩ := Option.map_eq_some_iff.mp h
    exact Local.of_setServer fun hp => .send rfl (hp ▸ hsrv)
  | receive q i =>
    obtain ⟨srv, hsrv, rfl⟩ := Option.map_eq_some_iff.mp h
    exact Local.of_setServer fun hp => .receive rfl (hp ▸ hsrv)
  | tick q i =>
    obtain ⟨srv, hsrv, rfl⟩ := Option.map_eq_some_iff.mp h
    exact Local.of_setServer fun hp => .tick rfl (hp ▸ hsrv)
  | check q i =>
    obtain ⟨srv, hsrv, rfl⟩ := Option.map_eq_some_iff.mp h
    refine Local.of_setServer fun hp => ?_
    subst hp
    exact .check rfl (hG i rfl) hsrv
  | crash q k =>
    simp only [System.step?] at h
    obtain ⟨raft, hraft, h⟩ := Option.bind_eq_some_iff.mp h
    exact restart_local h (fun hp => hp ▸ rfl) (crash_delivered hraft)
  | crashIn e j k =>
    simp only [System.step?] at h
    split_ifs at h with hi
    obtain ⟨q, hq, h⟩ := Option.bind_eq_some_iff.mp h
    obtain ⟨raft, hraft, h⟩ := Option.bind_eq_some_iff.mp h
    exact restart_local h (fun hp => hp ▸ hq) (crashIn_delivered hraft hq)

theorem created_internal {C : Type*} (s : Cluster n C) {e : RaftCluster.Event n C}
    (hi : internal e = true) : created s e = [] := by
  cases e <;> first | rfl | cases hi

def System.accepted (s : System n Req Rep St B) : Event n Req → List (Command Req)
  | .start p x => items (startEntries (s.raft.procs p).rf (.other x))
  | .submit p id req => items (startEntries (s.raft.procs p).rf (.op ⟨p, id, req⟩))
  | _ => []

/-- What a step is for Raft, and which commands it adds to those accepted. -/
theorem step_raft {e : Event n Req} (h : s.step? m e = some t) :
    t.started = s.started ++ s.accepted e ∧
    ((t.raft = s.raft ∧ s.accepted e = []) ∨ ∃ re, s.raft.step? re = some t.raft ∧
      (∀ e' k, re = .crashIn e' k → created s.raft e' = []) ∧
      items (created s.raft re) = s.accepted e) := by
  cases e with
  | raft e =>
    simp only [System.step?] at h
    split_ifs at h with hi
    obtain ⟨raft, hraft, rfl⟩ := Option.map_eq_some_iff.mp h
    refine ⟨(List.append_nil _).symm, Or.inr ⟨e, hraft, fun e' k he => ?_, ?_⟩⟩
    · rw [he] at hi
      cases hi
    · rw [created_internal _ hi]
      rfl
  | start q x =>
    obtain ⟨-, -, hraft, hstarted, -⟩ := start_eq h
    exact ⟨hstarted, Or.inr ⟨_, hraft, (fun e' k he => by cases he), rfl⟩⟩
  | submit q id req =>
    simp only [System.step?] at h
    obtain ⟨u, hu, rfl⟩ := Option.map_eq_some_iff.mp h
    obtain ⟨-, -, hraft, hstarted, -⟩ := start_eq hu
    exact ⟨hstarted, Or.inr ⟨_, hraft, (fun e' k he => by cases he), rfl⟩⟩
  | take q k =>
    simp only [System.step?, System.take] at h
    split_ifs at h with hbusy
    obtain ⟨raw, -, h⟩ := Option.bind_eq_some_iff.mp h
    obtain ⟨msg, -, h⟩ := Option.bind_eq_some_iff.mp h
    obtain ⟨raft, hraft, rfl⟩ := Option.map_eq_some_iff.mp h
    exact ⟨(List.append_nil _).symm, Or.inr ⟨_, hraft, (fun e' k he => by cases he), rfl⟩⟩
  | handle q full =>
    obtain ⟨msg, -, h⟩ := Option.bind_eq_some_iff.mp h
    dsimp only at h
    split at h
    · obtain rfl := Option.some.inj h
      exact ⟨(List.append_nil _).symm, Or.inl ⟨rfl, rfl⟩⟩
    · obtain ⟨-, hstarted, k, d, hraft, -⟩ := snapshot_eq h
      exact ⟨hstarted.trans (List.append_nil _).symm,
        Or.inr ⟨_, hraft, (fun e' k he => by cases he), rfl⟩⟩
  | send q =>
    obtain ⟨srv, -, rfl⟩ := Option.map_eq_some_iff.mp h
    exact ⟨(List.append_nil _).symm, Or.inl ⟨rfl, rfl⟩⟩
  | receive q i =>
    obtain ⟨srv, -, rfl⟩ := Option.map_eq_some_iff.mp h
    exact ⟨(List.append_nil _).symm, Or.inl ⟨rfl, rfl⟩⟩
  | tick q i =>
    obtain ⟨srv, -, rfl⟩ := Option.map_eq_some_iff.mp h
    exact ⟨(List.append_nil _).symm, Or.inl ⟨rfl, rfl⟩⟩
  | check q i =>
    obtain ⟨srv, -, rfl⟩ := Option.map_eq_some_iff.mp h
    exact ⟨(List.append_nil _).symm, Or.inl ⟨rfl, rfl⟩⟩
  | crash q k =>
    simp only [System.step?] at h
    obtain ⟨raft, hraft, h⟩ := Option.bind_eq_some_iff.mp h
    obtain ⟨data, -, rfl⟩ := Option.map_eq_some_iff.mp h
    exact ⟨(List.append_nil _).symm, Or.inr ⟨_, hraft, (fun e' k he => by cases he), rfl⟩⟩
  | crashIn e j k =>
    simp only [System.step?] at h
    split_ifs at h with hi
    obtain ⟨q, -, h⟩ := Option.bind_eq_some_iff.mp h
    obtain ⟨raft, hraft, h⟩ := Option.bind_eq_some_iff.mp h
    obtain ⟨data, -, rfl⟩ := Option.map_eq_some_iff.mp h
    have hnil : created s.raft e = [] := created_internal _ hi
    refine ⟨(List.append_nil _).symm, Or.inr ⟨_, hraft, fun e' k he => ?_, ?_⟩⟩
    · cases he
      exact hnil
    · rw [created, hnil]
      rfl

end Steps

section Submits

variable {m : StateMachine Req Rep St B} {s t : System n Req Rep St B} {p : Fin n}
  {srv : Server Req Rep St B} {k : ℕ} {sub : Submit Req Rep}

theorem submit_kept_set {submits : List (Submit Req Rep)} {i : ℕ} {old : Submit Req Rep}
    (new : Submit Req Rep) (hold : submits[i]? = some old) (hop : new.op = old.op)
    (hindex : new.commitIndex = old.commitIndex) (hsub : submits[k]? = some sub) :
    ∃ sub', (submits.set i new)[k]? = some sub' ∧ sub'.op = sub.op ∧
      sub'.commitIndex = sub.commitIndex := by
  rw [List.getElem?_set]
  by_cases hi : i = k
  · subst hi
    obtain rfl := Option.some.inj (hold.symm.trans hsub)
    rw [if_pos rfl, if_pos (List.getElem?_eq_some_iff.mp hold).1]
    exact ⟨new, rfl, hop, hindex⟩
  · rw [if_neg hi]
    exact ⟨sub, hsub, rfl, rfl⟩

/-- A `Submit` keeps its place, its operation and its index as long as its process runs. -/
theorem Local.submit_kept {images : List (List (Command Req) × List B)}
    {started : List (Command Req)}
    {G : ℕ → ℤ → Bool → Prop} {R : Prop} {pr pr' : Process n (Command Req)}
    {srv' : Server Req Rep St B} (h : Local m images started G R pr pr' srv srv') (hR : ¬ R)
    (hsub : srv.submits[k]? = some sub) :
    ∃ sub', srv'.submits[k]? = some sub' ∧ sub'.op = sub.op ∧
      sub'.commitIndex = sub.commitIndex := by
  cases h with
  | raft hd => exact ⟨sub, hsub, rfl, rfl⟩
  | submit hd hlead =>
    refine ⟨sub, ?_, rfl, rfl⟩
    unfold Server.submit
    split <;> simpa only [List.getElem?_append_left (List.getElem?_eq_some_iff.mp hsub).1]
      using hsub
  | takeCommand hin hsend hmsg hd => exact ⟨sub, hsub, rfl, rfl⟩
  | takeSnapshot hin hsend hmsg hd himg => exact ⟨sub, hsub, rfl, rfl⟩
  | handle hin hd => exact ⟨sub, hsub, rfl, rfl⟩
  | send hd h =>
    obtain ⟨i, v, old, -, hold, -, rfl⟩ := Server.send_cases h
    exact submit_kept_set _ hold rfl rfl hsub
  | receive hd h =>
    obtain ⟨old, v, hold, -, -, rfl⟩ := Server.receive_cases h
    exact submit_kept_set _ hold rfl rfl hsub
  | tick hd h =>
    obtain ⟨old, hold, -, rfl⟩ := Server.tick_cases h
    exact submit_kept_set _ hold rfl rfl hsub
  | check hd hG h =>
    obtain ⟨old, hold, -, ⟨-, rfl⟩ | ⟨-, rfl⟩⟩ := Server.check_cases h
    · exact submit_kept_set _ hold rfl rfl hsub
    · exact submit_kept_set _ hold rfl rfl hsub
  | boot hR' hd himg => exact absurd hR' hR

variable [DecidableEq Req]

theorem step_submit_kept {e : Event n Req} (h : s.step? m e = some t)
    (hr : s.restarted e ≠ some p) (hsub : (s.servers p).submits[k]? = some sub) :
    ∃ sub', (t.servers p).submits[k]? = some sub' ∧ sub'.op = sub.op ∧
      sub'.commitIndex = sub.commitIndex :=
  (step_local (G := fun _ _ _ => True) h fun _ _ => trivial).submit_kept hr hsub

theorem step_op_kept {e : Event n Req} (h : s.step? m e = some t) (hr : s.restarted e ≠ some p)
    (hsub : (s.servers p).submits[k]? = some sub) :
    ∃ sub', (t.servers p).submits[k]? = some sub' ∧ sub'.op = sub.op := by
  obtain ⟨sub', hsub', hop, -⟩ := step_submit_kept h hr hsub
  exact ⟨sub', hsub', hop⟩

/-- A new `Submit` comes behind the others. -/
theorem step_submit_last {id : ℤ} {req : Req} (h : s.step? m (.submit p id req) = some t) :
    ∃ sub, (t.servers p).submits[(s.servers p).submits.length]? = some sub ∧
      sub.op = ⟨p, id, req⟩ ∧
      sub.commitIndex = (RaftPeer.start (s.raft.procs p).rf (.op ⟨p, id, req⟩)).2.1 := by
  simp only [System.step?] at h
  obtain ⟨u, -, rfl⟩ := Option.map_eq_some_iff.mp h
  rw [setServer_self, Server.submit]
  split
  · exact ⟨_, List.getElem?_concat_length, rfl, rfl⟩
  · exact ⟨_, List.getElem?_concat_length, rfl, rfl⟩

/-- `Start` accepts the operation of a `Submit`, or nothing. -/
theorem step_submit_started {id : ℤ} {req : Req} (h : s.step? m (.submit p id req) = some t) :
    ∃ new, (new = [] ∨ new = [⟨p, id, req⟩]) ∧ ops t.started = ops s.started ++ new := by
  rw [(step_raft h).1, ops_append]
  refine ⟨_, ?_, rfl⟩
  simp only [System.accepted, startEntries]
  split
  · exact Or.inr rfl
  · exact Or.inl rfl

end Submits

end DistributedLabs.RsmCluster
