import DistributedLabs.RsmReplay

/-!
# What goes through a channel was executed at its index

Whatever the ids of the operations are, a reply that a `Submit` receives is the result of
the operation that was executed at the index under which the channel was filed.
-/

namespace DistributedLabs.RsmCluster

open RaftPeer RaftCluster RaftRefinement Rsm TermLogProtocol LogPrefixes

variable {n : ℕ} {Req Rep St B : Type*} {m : StateMachine Req Rep St B}

/-- `rep` is what executing the operation that was delivered at the index gave. -/
def RepliedAt (m : StateMachine Req Rep St B) (delivered : List (ℤ × List (Command Req)))
    (index : ℤ) (rep : Rep) : Prop :=
  ∃ l op, (index, l ++ [.op op]) ∈ delivered ∧ rep = (m.doOp (replay m l) op.req).2

/-- The channels of a server are filed under their indices, and the replies in them come
from there. -/
structure Heard (m : StateMachine Req Rep St B) (delivered : List (ℤ × List (Command Req)))
    (srv : Server Req Rep St B) : Prop where
  entry : ∀ i v, srv.rsm.db i = some v →
    ∃ sub, srv.submits[v.readerSignal]? = some sub ∧ sub.commitIndex = i
  sending : ∀ k rep, srv.sending = some (k, .reply rep) →
    ∃ sub, srv.submits[k]? = some sub ∧ RepliedAt m delivered sub.commitIndex rep
  chan : ∀ (k : ℕ) sub rep, srv.submits[k]? = some sub → sub.cmdChan = some (.reply rep) →
    RepliedAt m delivered sub.commitIndex rep
  returned : ∀ (k : ℕ) sub rep, srv.submits[k]? = some sub → sub.stage = .returned (.ok rep) →
    RepliedAt m delivered sub.commitIndex rep

variable {d d' : List (ℤ × List (Command Req))} {srv srv' : Server Req Rep St B}

theorem RepliedAt.mono {index : ℤ} {rep : Rep} (h : RepliedAt m d index rep) (hd : d ⊆ d') :
    RepliedAt m d' index rep := by
  obtain ⟨l, op, hl, hrep⟩ := h
  exact ⟨l, op, hd hl, hrep⟩

theorem Heard.boot (data : List B) : Heard m d (Server.boot m data) where
  entry i v h := by cases h
  sending k rep h := by cases h
  chan k sub rep h := by cases h
  returned k sub rep h := by cases h

theorem Heard.mono (h : Heard m d srv) (hd : d ⊆ d') : Heard m d' srv where
  entry := h.entry
  sending k rep hk := by
    obtain ⟨sub, hsub, hrep⟩ := h.sending k rep hk
    exact ⟨sub, hsub, hrep.mono hd⟩
  chan k sub rep hsub hchan := (h.chan k sub rep hsub hchan).mono hd
  returned k sub rep hsub hstage := (h.returned k sub rep hsub hstage).mono hd

/-- A `Submit` moves on, with a reply for its index or without one. -/
theorem Heard.set (h : Heard m d srv) {k : ℕ} {old : Submit Req Rep} (new : Submit Req Rep)
    (hold : srv.submits[k]? = some old) (hindex : new.commitIndex = old.commitIndex)
    (hchan : ∀ rep, new.cmdChan = some (.reply rep) → RepliedAt m d old.commitIndex rep)
    (hret : ∀ rep, new.stage = .returned (.ok rep) → RepliedAt m d old.commitIndex rep) :
    Heard m d { srv with submits := srv.submits.set k new } := by
  have hget : ∀ (j : ℕ) sub, srv.submits[j]? = some sub →
      ∃ sub', (srv.submits.set k new)[j]? = some sub' ∧ sub'.commitIndex = sub.commitIndex := by
    intro j sub hsub
    by_cases hj : k = j
    · subst hj
      obtain rfl := Option.some.inj (hold.symm.trans hsub)
      exact ⟨new, by simp [(List.getElem?_eq_some_iff.mp hold).1], hindex⟩
    · exact ⟨sub, by rwa [List.getElem?_set_ne hj], rfl⟩
  refine ⟨?_, ?_, ?_, ?_⟩
  · intro i v hv
    obtain ⟨sub, hsub, rfl⟩ := h.entry i v hv
    exact hget _ sub hsub
  · intro j rep hj
    obtain ⟨sub, hsub, hrep⟩ := h.sending j rep hj
    obtain ⟨sub', hsub', heq⟩ := hget j sub hsub
    exact ⟨sub', hsub', heq ▸ hrep⟩
  · intro j sub rep hsub hrep
    rcases getElem?_set_cases hsub with ⟨-, rfl⟩ | ⟨-, hsub⟩
    · exact hindex ▸ hchan rep hrep
    · exact h.chan j sub rep hsub hrep
  · intro j sub rep hsub hrep
    rcases getElem?_set_cases hsub with ⟨-, rfl⟩ | ⟨-, hsub⟩
    · exact hindex ▸ hret rep hrep
    · exact h.returned j sub rep hsub hrep

/-- Entries disappear from `db`. -/
theorem Heard.forget (h : Heard m d srv) (db : ℤ → Option (MapValue Req))
    (hdb : ∀ i v, db i = some v → srv.rsm.db i = some v) :
    Heard m d { srv with rsm := { srv.rsm with db := db } } :=
  { h with entry := fun i v hv => h.entry i v (hdb i v hv) }

/-- A new `Submit`, behind all others, that has received nothing. -/
theorem Heard.concat (h : Heard m d srv) (new : Submit Req Rep) (hchan : new.cmdChan = none)
    (hstage : ∀ rep, new.stage ≠ .returned (.ok rep)) :
    Heard m d { srv with submits := srv.submits ++ [new] } := by
  have hget : ∀ {k : ℕ} {sub : Submit Req Rep},
      srv.submits[k]? = some sub → (srv.submits ++ [new])[k]? = some sub := by
    intro k sub hsub
    rwa [List.getElem?_append_left (List.getElem?_eq_some_iff.mp hsub).1]
  refine ⟨?_, ?_, ?_, ?_⟩
  · intro i v hv
    obtain ⟨sub, hsub, hi⟩ := h.entry i v hv
    exact ⟨sub, hget hsub, hi⟩
  · intro k rep hk
    obtain ⟨sub, hsub, hrep⟩ := h.sending k rep hk
    exact ⟨sub, hget hsub, hrep⟩
  · intro k sub rep hsub hrep
    rcases getElem?_concat_cases hsub with ⟨-, rfl⟩ | hsub
    · rw [hchan] at hrep
      cases hrep
    · exact h.chan k sub rep hsub hrep
  · intro k sub rep hsub hrep
    rcases getElem?_concat_cases hsub with ⟨-, rfl⟩ | hsub
    · exact absurd hrep (hstage rep)
    · exact h.returned k sub rep hsub hrep

theorem Heard.submit (h : Heard m d srv) (op : Op Req) (index term : ℤ) (lead : Bool) :
    Heard m d (srv.submit op index term lead) := by
  cases lead with
  | false => exact h.concat _ rfl (fun rep hr => by cases hr)
  | true =>
    have hnew := h.concat ⟨op, index, term, none, 0, .waiting⟩ rfl (fun rep hr => by cases hr)
    refine { hnew with entry := fun i v hv => ?_ }
    simp only [Server.submit, if_true, Function.update_apply] at hv
    split_ifs at hv with hi
    · obtain rfl := Option.some.inj hv
      exact ⟨_, List.getElem?_concat_length, hi.symm⟩
    · exact hnew.entry i v hv

/-- `Reader` executes an operation and answers the `Submit` that is filed at its index. -/
theorem Heard.execute (h : Heard m d srv) (hr : Replays m srv d) {j : ℤ} {op : Op Req}
    (hin : srv.inbox = some (.command j (.op op))) (lii : ℤ) (full : Bool) (trace : List Mark) :
    let turn := srv.rsm.reader m lii full (.command j (.op op))
    Heard m d
      { srv with rsm := turn.rsm, inbox := none, sending := turn.send, trace := trace } := by
  simp only [Replays, hin] at hr
  obtain ⟨l, rest, rfl, hsm⟩ := hr
  refine ⟨?_, ?_, h.chan, h.returned⟩
  · intro i v hv
    simp only [RSM.reader, RSM.answer_db] at hv
    split_ifs at hv with hi
    exact h.entry i v hv
  · intro k rep hk
    simp only [RSM.reader, RSM.answer_send] at hk
    obtain ⟨w, hw, heq⟩ := Option.map_eq_some_iff.mp hk
    obtain ⟨rfl, hsig⟩ := Prod.mk.inj heq
    split_ifs at hsig with hid
    obtain rfl := Signal.reply.inj hsig
    obtain ⟨sub, hsub, rfl⟩ := h.entry j w hw
    exact ⟨sub, hsub, l, op, List.mem_cons_self, by rw [hsm]⟩

/-- `Reader` handles a message without executing anything. -/
theorem Heard.pass (h : Heard m d srv) (rsm : RSM Req St) (hdb : rsm.db = srv.rsm.db)
    (trace : List Mark) :
    Heard m d { srv with rsm := rsm, inbox := none, sending := none, trace := trace } where
  entry i v hv := h.entry i v (hdb ▸ hv)
  sending k rep hk := by cases hk
  chan := h.chan
  returned := h.returned

/-- Operations at a server keep its channels true to their indices. -/
theorem Local.heard {images : List (List (Command Req) × List B)} {started : List (Command Req)}
    {G : ℕ → ℤ → Bool → Prop} {R : Prop} {pr pr' : Process n (Command Req)}
    (h : Local m images started G R pr pr' srv srv') (hs : Heard m pr.delivered srv)
    (hr : Replays m srv pr.delivered) : Heard m pr'.delivered srv' := by
  cases h with
  | raft hd => exact hd ▸ hs
  | submit hd hlead => exact hd ▸ hs.submit _ _ _ _
  | takeCommand hin hsend hmsg hd =>
    rw [hd]
    exact { hs.mono (List.subset_cons_self _ _) with }
  | takeSnapshot hin hsend hmsg hd himg =>
    rw [hd]
    exact { hs.mono (List.subset_cons_self _ _) with }
  | @handle msg lii full hin hd =>
    rw [hd]
    rcases msg with ⟨j, op | x⟩ | ⟨j, data⟩
    · exact hs.execute hr hin lii full _
    · exact hs.pass _ rfl _
    · exact hs.pass { srv.rsm with sm := m.restore srv.rsm.sm data, lastApplied := j } rfl _
  | send hd h =>
    obtain ⟨k, v, sub, hk, hsub, -, rfl⟩ := Server.send_cases h
    rw [hd]
    have hset := hs.set { sub with cmdChan := some v, sent := sub.sent + 1 } hsub rfl
      (fun rep hrep => by
        obtain rfl := Option.some.inj hrep
        obtain ⟨sub', hsub', hrep⟩ := hs.sending k rep hk
        obtain rfl := Option.some.inj (hsub.symm.trans hsub')
        exact hrep)
      (fun rep hrep => hs.returned k sub rep hsub hrep)
    exact { hset with sending := fun _ _ h => by cases h }
  | receive hd h =>
    obtain ⟨sub, v, hsub, -, hchan, rfl⟩ := Server.receive_cases h
    rw [hd]
    refine hs.set { sub with cmdChan := none, stage := .returned v.result } hsub rfl
      (fun rep hrep => by cases hrep) fun rep hrep => hs.chan _ sub rep hsub ?_
    cases v with
    | errNotLeader => cases hrep
    | reply r =>
      obtain rfl : r = rep := by simpa [Signal.result] using hrep
      exact hchan
  | tick hd h =>
    obtain ⟨sub, hsub, -, rfl⟩ := Server.tick_cases h
    rw [hd]
    exact hs.set { sub with stage := .checking } hsub rfl (fun rep => hs.chan _ sub rep hsub)
      (fun rep hrep => by cases hrep)
  | check hd hG h =>
    rw [hd]
    obtain ⟨sub, hsub, -, ⟨-, rfl⟩ | ⟨-, rfl⟩⟩ := Server.check_cases h
    · have hforget := hs.forget (Function.update srv.rsm.db sub.commitIndex none)
        fun i v hv => by
          simp only [Function.update_apply] at hv
          split_ifs at hv
          exact hv
      exact hforget.set { sub with stage := .returned .errWrongLeader } hsub rfl
        (fun rep => hs.chan _ sub rep hsub) (fun rep hrep => by cases hrep)
    · exact hs.set { sub with stage := .waiting } hsub rfl (fun rep => hs.chan _ sub rep hsub)
        (fun rep hrep => by cases hrep)
  | boot hR hd himg => exact Heard.boot _

section Runs

variable [DecidableEq Req] {s t : System n Req Rep St B}

structure Hearing (m : StateMachine Req Rep St B) (s : System n Req Rep St B)
    (a : Proto n (Command Req)) : Prop extends Consistent m s a where
  heard : ∀ p, Heard m (s.raft.procs p).delivered (s.servers p)

theorem Hearing.step (hm : m.Lawful) {a : Proto n (Command Req)} (hs : Hearing m s a)
    {e : Event n Req} (he : s.step? m e = some t) : ∃ b, Hearing m t b ∧ Grows a b := by
  obtain ⟨b, hb, hg⟩ := hs.toConsistent.step hm he
  exact ⟨b, ⟨hb, fun p => (step_local (G := fun _ _ _ => True) he fun _ _ => trivial).heard
    (hs.heard p) (hs.replays p)⟩, hg⟩

omit [DecidableEq Req] in
theorem hearing_initial : Hearing m (initial m : System n Req Rep St B)
    TermLogProtocol.initial where
  toConsistent := consistent_initial
  heard _ := Heard.boot []

end Runs

end DistributedLabs.RsmCluster
