import DistributedLabs.RsmReplay

/-!
# Waiters are not lost

`db` is keyed by log index alone, and an index is used again when the log of a deposed
leader is cut and it is elected once more. The old `Submit` for that index may then remove
the entry of the new one, which is never signalled. Where no cleanup meets the entry of
another `Submit`, every waiter keeps its entry until its index is handled.
-/

namespace DistributedLabs.RsmCluster

open RaftPeer RaftCluster RaftRefinement Rsm TermLogProtocol TransitionRuns Relation LogPrefixes

variable {n : ℕ} {Req Rep St B : Type*} {m : StateMachine Req Rep St B}

section Kept

variable {images : List (List (Command Req) × List B)} {started : List (Command Req)}
  {pr pr' : Process n (Command Req)} {srv srv' : Server Req Rep St B}

/-- A waiting `Submit` has its entry in `db` as long as its `Start` is the last thing that
has happened to its index. -/
def Kept (srv : Server Req Rep St B) : Prop :=
  ∀ k sub, srv.submits[k]? = some sub → sub.Waiting →
    lastMark srv.trace sub.commitIndex = some (.started k sub.commitIndex) →
    srv.rsm.db sub.commitIndex = some ⟨k, sub.op⟩

/-- A `Submit` that finds itself deposed does not find the entry of another one. -/
def OwnEntry (srv : Server Req Rep St B) (i : ℕ) (term : ℤ) (lead : Bool) : Prop :=
  ∀ sub ∈ srv.submits[i]?, sub.Deposed term lead →
    ∀ v ∈ srv.rsm.db sub.commitIndex, v.readerSignal = i

instance (srv : Server Req Rep St B) (i : ℕ) (term : ℤ) (lead : Bool) :
    Decidable (OwnEntry srv i term lead) :=
  inferInstanceAs (Decidable (∀ sub ∈ srv.submits[i]?, sub.Deposed term lead →
    ∀ v ∈ srv.rsm.db sub.commitIndex, v.readerSignal = i))

theorem lastMark_cons (x : Mark) (trace : List Mark) (i : ℤ) :
    lastMark (x :: trace) i = if x.index = i then some x else lastMark trace i := by
  by_cases hx : x.index = i <;> simp [lastMark, hx]

theorem Kept.submit (h : Kept srv) (op : Op Req) (index term : ℤ) (lead : Bool) :
    Kept (srv.submit op index term lead) := by
  intro k sub hsub hwait hlast
  cases lead with
  | false =>
    rcases getElem?_concat_cases hsub with ⟨-, rfl⟩ | hsub
    · exact absurd rfl (hwait _)
    · exact h k sub hsub hwait hlast
  | true =>
    simp only [Server.submit, if_true, lastMark_cons] at hsub hlast ⊢
    rcases getElem?_concat_cases hsub with ⟨rfl, rfl⟩ | hold
    · simp
    · split_ifs at hlast with hi
      · have hk : k < srv.submits.length := (List.getElem?_eq_some_iff.mp hold).1
        simp only [Option.some.injEq, Mark.started.injEq] at hlast
        omega
      · have hne : sub.commitIndex ≠ index := fun he => hi he.symm
        rw [Function.update_of_ne hne]
        exact h k sub hold hwait hlast

theorem Kept.handle (h : Kept srv) (msg : Msg Req B) (lii : ℤ) (full : Bool) :
    Kept ({ srv with
      rsm := (srv.rsm.reader m lii full msg).rsm
      inbox := none
      sending := (srv.rsm.reader m lii full msg).send
      trace := msg.mark :: srv.trace } : Server Req Rep St B) := by
  intro k sub hsub hwait hlast
  simp only [lastMark_cons] at hlast
  split_ifs at hlast with hi
  · rcases msg with ⟨index, _ | _⟩ | ⟨index, data⟩ <;> cases hlast
  · have hold := h k sub hsub hwait hlast
    rcases msg with ⟨index, op | x⟩ | ⟨index, data⟩
    · have hne : sub.commitIndex ≠ index := fun he => hi he.symm
      simpa only [RSM.reader, RSM.answer_db, if_neg hne] using hold
    · exact hold
    · exact hold

/-- Replacing a `Submit` by one with the same operation and index, that waits only if the
old one did. -/
theorem Kept.set (h : Kept srv) {i : ℕ} {old new : Submit Req Rep}
    (hold : srv.submits[i]? = some old) (hop : new.op = old.op)
    (hindex : new.commitIndex = old.commitIndex) (hwait : new.Waiting → old.Waiting) :
    Kept { srv with submits := srv.submits.set i new } := by
  intro k sub hsub hw hlast
  rcases getElem?_set_cases hsub with ⟨rfl, rfl⟩ | ⟨-, hsub⟩
  · rw [hindex] at hlast ⊢
    rw [hop]
    exact h k old hold (hwait hw) hlast
  · exact h k sub hsub hw hlast

/-- The cleanup of a `Submit` takes no other waiter's entry. -/
theorem Kept.cleanup (h : Kept srv) {i : ℕ} {term : ℤ} {lead : Bool} {old : Submit Req Rep}
    (hown : OwnEntry srv i term lead) (hold : srv.submits[i]? = some old)
    (hdep : old.Deposed term lead) {result : Result Rep} : Kept { srv with
      rsm := { srv.rsm with db := Function.update srv.rsm.db old.commitIndex none }
      submits := srv.submits.set i { old with stage := .returned result } } := by
  intro k sub hsub hw hlast
  rcases getElem?_set_cases hsub with ⟨-, rfl⟩ | ⟨hki, hsub⟩
  · exact absurd rfl (hw _)
  · have hentry := h k sub hsub hw hlast
    have hne : sub.commitIndex ≠ old.commitIndex := by
      intro he
      rw [he] at hentry
      exact hki (hown old hold hdep _ hentry)
    simpa only [Function.update_of_ne hne] using hentry

theorem Local.kept {R : Prop} (h : Local m images started (OwnEntry srv) R pr pr' srv srv')
    (hk : Kept srv) :
    Kept srv' := by
  cases h with
  | raft hd => exact hk
  | submit hd hlead => exact hk.submit _ _ _ _
  | takeCommand hin hsend hmsg hd => exact hk
  | takeSnapshot hin hsend hmsg hd himg => exact hk
  | handle hin hd => exact hk.handle _ _ _
  | send hd h =>
    obtain ⟨i, v, sub, -, hsub, -, rfl⟩ := Server.send_cases h
    exact hk.set hsub rfl rfl id
  | receive hd h =>
    obtain ⟨sub, v, hsub, -, -, rfl⟩ := Server.receive_cases h
    exact hk.set hsub rfl rfl fun hw => absurd rfl (hw _)
  | tick hd h =>
    obtain ⟨sub, hsub, hstage, rfl⟩ := Server.tick_cases h
    refine hk.set hsub rfl rfl fun _ result hr => ?_
    rw [hstage] at hr
    cases hr
  | check hd hown h =>
    obtain ⟨sub, hsub, hstage, ⟨hdep, rfl⟩ | ⟨-, rfl⟩⟩ := Server.check_cases h
    · exact hk.cleanup hown hsub hdep
    · refine hk.set hsub rfl rfl fun _ result hr => ?_
      rw [hstage] at hr
      cases hr
  | boot hR hd himg =>
    intro k sub hsub
    cases hsub

end Kept

section Runs

variable [DecidableEq Req] {s t : System n Req Rep St B}

def TidyCleanup (s : System n Req Rep St B) : Event n Req → Prop
  | .check p i => OwnEntry (s.servers p) i (getState (s.raft.procs p).rf).1
      (getState (s.raft.procs p).rf).2
  | _ => True

instance (s : System n Req Rep St B) : (e : Event n Req) → Decidable (TidyCleanup s e)
  | .check _ _ => inferInstanceAs (Decidable (OwnEntry _ _ _ _))
  | .raft _ | .start _ _ | .submit _ _ _ | .take _ _ | .handle _ _ | .send _ | .receive _ _
  | .tick _ _ | .crash _ _ | .crashIn _ _ _ => .isTrue trivial

theorem Reached.kept (hs : Reached m TidyCleanup s) (p : Fin n) : Kept (s.servers p) := by
  refine hs.invariant (I := fun s => ∀ p, Kept (s.servers p)) ?_ ?_ p
  · rintro _ rfl p k sub hsub
    cases hsub
  · rintro s t - hk ⟨e, htidy, he⟩ p
    refine (step_local he fun i hi => ?_).kept (hk p)
    subst hi
    exact htidy

/-- No lost waiter, in runs where no cleanup meets the entry of another `Submit`. A `Submit`
that waits, with nothing handled at its index and no other `Start` there since its own,
has its own channel in `db`; and if the message being handled is its operation at its
index, `Reader` goes on to send it the result. -/
theorem no_lost_waiter (hs : Reached m TidyCleanup s) {p : Fin n} {k : ℕ} {sub : Submit Req Rep}
    (hsub : (s.servers p).submits[k]? = some sub) (hwait : sub.Waiting)
    (hlast : lastMark (s.servers p).trace sub.commitIndex = some (.started k sub.commitIndex)) :
    (s.servers p).rsm.db sub.commitIndex = some ⟨k, sub.op⟩ ∧
    ∀ full t, (s.servers p).inbox = some (.command sub.commitIndex (.op sub.op)) →
      s.step? m (.handle p full) = some t →
      (t.servers p).sending = some (k, .reply (m.doOp (s.servers p).rsm.sm sub.op.req).2) := by
  have hentry := Reached.kept hs p k sub hsub hwait hlast
  refine ⟨hentry, fun full t hin ht => ?_⟩
  obtain ⟨msg, hmsg, hservers, -⟩ := handle_servers ht
  obtain rfl := Option.some.inj (hin.symm.trans hmsg)
  simp [hservers, setServer_self, RSM.reader, RSM.answer_send, hentry]

end Runs

section KeyValue

open KvServer

def waitRun : List (Event 2 KvServer.Request) :=
  [.raft (.ticker 0), .raft (.deliver 0), .raft (.deliver 0),
    .submit 0 5 (.put ⟨"k", "a", 0, 9⟩), .raft (.appendEntriesRoutine 0), .raft (.deliver 0),
    .raft (.deliver 0), .raft (.apply 0), .take 0 0]

theorem no_lost_waiter_put : ∃ s t : KvSystem 2 (Store × Dedup),
    Reached (machine pairCodec) TidyCleanup s ∧
    (s.servers 0).rsm.db 1 = some ⟨0, ⟨0, 5, .put ⟨"k", "a", 0, 9⟩⟩⟩ ∧
    s.step? (machine pairCodec) (.handle 0 false) = some t ∧
    (t.servers 0).sending = some (0, .reply
      ((machine pairCodec).doOp (s.servers 0).rsm.sm (.put ⟨"k", "a", 0, 9⟩)).2) := by
  obtain ⟨s, hs, htest⟩ := System.exists_of_run
    (show ((initial (machine pairCodec) : KvSystem 2 (Store × Dedup)).run
      (machine pairCodec) TidyCleanup waitRun).any (fun s => decide (
        (s.servers 0).submits[0]? = some ⟨⟨0, 5, .put ⟨"k", "a", 0, 9⟩⟩, 1, 1, none, 0, .waiting⟩ ∧
        lastMark (s.servers 0).trace 1 = some (.started 0 1) ∧
        (s.servers 0).inbox = some (.command 1 (.op ⟨0, 5, .put ⟨"k", "a", 0, 9⟩⟩))) &&
      (s.step? (machine pairCodec) (.handle 0 false)).isSome) = true by decide +kernel)
  obtain ⟨htest, hsome⟩ := Bool.and_eq_true_iff.mp htest
  obtain ⟨hsub, hlast, hin⟩ := of_decide_eq_true htest
  obtain ⟨t, ht⟩ := Option.isSome_iff_exists.mp hsome
  have hwait : (⟨⟨0, 5, .put ⟨"k", "a", 0, 9⟩⟩, 1, 1, none, 0, .waiting⟩ :
      Submit KvServer.Request KvServer.Reply).Waiting := fun result hr => by cases hr
  have hresult := no_lost_waiter ⟨_, rfl, hs⟩ hsub hwait hlast
  exact ⟨s, t, ⟨_, rfl, hs⟩, hresult.1, ht, hresult.2 false t hin ht⟩

/-- Server 0 leads in term 1 and starts two operations that stay its own. Server 1 leads
in term 2 and puts its operation at index 1 of server 0. Server 0 leads in term 3 and
starts an operation at index 2, where the `Submit` of term 1 cleans up. The new operation
is committed, and `Reader` takes it. -/
def lostWaiterRun : List (Event 3 KvServer.Request) :=
  [.raft (.ticker 0), .raft (.deliver 1), .raft (.deliver 0),
    .submit 0 1 (.get ⟨"a"⟩), .submit 0 2 (.get ⟨"b"⟩),
    .raft (.ticker 1), .raft (.deliver 0), .raft (.deliver 0),
    .submit 1 3 (.get ⟨"c"⟩), .raft (.appendEntriesRoutine 1), .raft (.deliver 1),
    .raft (.deliver 0),
    .raft (.ticker 0), .raft (.deliver 1), .raft (.deliver 0),
    .submit 0 4 (.get ⟨"d"⟩), .tick 0 1, .check 0 1,
    .raft (.appendEntriesRoutine 0), .raft (.deliver 1), .raft (.deliver 0), .raft (.apply 0),
    .take 0 0, .handle 0 false, .send 0, .take 0 0]

/-- The operation of a waiting `Submit` is executed at its index, and nobody tells it. -/
theorem waiter_lost : ∃ s t : KvSystem 3 (Store × Dedup), ∃ sub,
    Reached (machine pairCodec) anyEvent s ∧ (s.servers 0).submits[2]? = some sub ∧
    sub.stage = .waiting ∧ sub.commitIndex = 2 ∧
    lastMark (s.servers 0).trace 2 = some (.started 2 2) ∧
    (s.servers 0).rsm.db 2 = none ∧ (s.servers 0).inbox = some (.command 2 (.op sub.op)) ∧
    s.step? (machine pairCodec) (.handle 0 false) = some t ∧ (t.servers 0).sending = none := by
  obtain ⟨s, hs, htest⟩ := System.exists_of_run
    (show ((initial (machine pairCodec) : KvSystem 3 (Store × Dedup)).run
      (machine pairCodec) anyEvent lostWaiterRun).any (fun s => decide (
        (s.servers 0).submits[2]? = some ⟨⟨0, 4, .get ⟨"d"⟩⟩, 2, 3, none, 0, .waiting⟩ ∧
        lastMark (s.servers 0).trace 2 = some (.started 2 2) ∧ (s.servers 0).rsm.db 2 = none ∧
        (s.servers 0).inbox = some (.command 2 (.op ⟨0, 4, .get ⟨"d"⟩⟩))) &&
      (s.step? (machine pairCodec) (.handle 0 false)).any fun t =>
        decide ((t.servers 0).sending = none)) = true by decide +kernel)
  obtain ⟨htest, hany⟩ := Bool.and_eq_true_iff.mp htest
  obtain ⟨hsub, hlast, hdb, hin⟩ := of_decide_eq_true htest
  cases ht : s.step? (machine pairCodec) (.handle 0 false) with
  | none =>
    rw [ht] at hany
    cases hany
  | some t =>
    rw [ht] at hany
    exact ⟨s, t, _, ⟨_, rfl, hs⟩, hsub, rfl, rfl, hlast, hdb, hin, ht, of_decide_eq_true hany⟩

end KeyValue

end DistributedLabs.RsmCluster
