import DistributedLabs.KvExecution

/-!
# Linearizability of the key/value service

The operations of the committed log, up to the last one that a clerk has an answer from,
explain the history as long as no clerk uses the version of its own last stored `Put` of a
key again. Where a clerk does, the deduplication table answers `OK` for a `Put` that is not
stored.
-/

namespace DistributedLabs.KvClerks

open KvServer Rsm RsmCluster RaftRefinement TermLogProtocol Linearizability

variable {n c : ℕ} {B : Type*} {cfg : Setup n c B} {s : Service n c B}
  {a : Proto n (Command Request)}

/-- The log ends with an operation from which call number `i` has its answer. -/
def AnswerAt (cfg : Setup n c B) (s : Service n c B) (i : ℕ) (st : List (Command Request)) : Prop :=
  ∀ op r, s.history[i]? = some op → op.result = some r → ∃ o l isRetry, st = l ++ [.op o] ∧
    Serves cfg s o i op ∧ turn op.input isRetry (some (handler op.input
      (.ok ((machine cfg.codec).doOp (replay (machine cfg.codec) l) o.req).2))) = some r.1

theorem Tracked.answerAt (hs : Tracked cfg s a) (i : ℕ) :
    ∃ j st, Applied a j st ∧ AnswerAt cfg s i st := by
  by_cases h : ∃ op r, s.history[i]? = some op ∧ op.result = some r
  · obtain ⟨op, r, hop, hr⟩ := h
    obtain ⟨isRetry, reply, ⟨o, j, l, hserves, happ, rfl⟩, hturn⟩ := hs.executed i op r hop hr
    refine ⟨j, _, happ, fun op' r' hop' hr' => ⟨o, l, isRetry, rfl, ?_⟩⟩
    obtain rfl := Option.some.inj (hop.symm.trans hop')
    obtain rfl := Option.some.inj (hr.symm.trans hr')
    exact ⟨hserves, hturn⟩
  · exact ⟨0, [], applied_nil, fun op r hop hr => absurd ⟨op, r, hop, hr⟩ h⟩

/-- A part of the committed log explains what the clerks have seen. -/
theorem Tracked.explains (hcfg : cfg.Lawful) (hs : Tracked cfg s a) :
    ∃ l, Explains cfg s.history s.origin l := by
  have hreach := hs.answering.related.reached
  obtain ⟨j, st, hst, hall⟩ := exists_applied hreach (List.range s.history.length)
    fun i _ => hs.answerAt i
  have hsub : (ops st).Sublist (ops s.sys.started) := by
    rw [← hs.answering.created]
    exact (hst.sublist hreach).filterMap _
  refine ⟨ops st, hcfg.clerkId, fun o ho => hs.copies o (hsub.subset ho), hs.ordered.sublist hsub,
    hs.sequential, fun i op r hop hr => ?_, hs.fresh⟩
  obtain ⟨st', ⟨rest, hsplit⟩, hanswer⟩ := hall i
    (List.mem_range.mpr (List.getElem?_eq_some_iff.mp hop).1)
  obtain ⟨o, l, isRetry, rfl, hserves, hturn⟩ := hanswer op r hop hr
  refine ⟨ops l, o, ops rest, isRetry, ?_, hserves.toCopy, hserves.last.sublist hsub, hturn⟩
  rw [← hsplit]
  simp

/-- The service is linearizable for the sequential model, in every run in which no clerk
puts a key with the version of its own last `Put` of that key that returned `OK`. -/
theorem kv_linearizable (hcfg : cfg.Lawful)
    (hs : Reached cfg (fun s e => DistinctOpIds s e ∧ FreshVersion s e) s) :
    Linearizable kvStep kvInit s.history := by
  obtain ⟨a, ha⟩ := Reached.tracked hcfg.codec hs
  obtain ⟨l, hl⟩ := ha.explains hcfg
  exact hl.linearizable

section Duplicate

def oneClerk : Setup 2 1 (Store × Dedup) := ⟨pairCodec, [0, 1], fun _ => 9⟩

theorem oneClerk_lawful : oneClerk.Lawful := ⟨pairCodec_lawful, fun _ _ _ => Subsingleton.elim _ _⟩

def electRun : List (Event 2 1) :=
  [.sys (.raft (.ticker 0)), .sys (.raft (.deliver 0)), .sys (.raft (.deliver 0))]

def callRun (input : KvInput) (id : ℤ) (channel : ℕ) : List (Event 2 1) :=
  [.invoke 0 input, .begin 0 id, .sys (.raft (.appendEntriesRoutine 0)), .sys (.raft (.deliver 0)),
    .sys (.raft (.deliver 0)), .sys (.raft (.apply 0)), .sys (.take 0 0), .sys (.handle 0 false),
    .sys (.send 0), .sys (.receive 0 channel), .answer 0, .reply 0]

theorem kv_linearizable_put_get : oneClerk.Lawful ∧ ∃ s : Service 2 1 (Store × Dedup),
    Reached oneClerk (fun s e => DistinctOpIds s e ∧ FreshVersion s e) s ∧
    s.history = [⟨0, ⟨.put, "k", "a", 0⟩, 0, some (⟨"", 0, .ok⟩, 1)⟩,
      ⟨0, ⟨.get, "k", "", 0⟩, 2, some (⟨"a", 1, .ok⟩, 3)⟩] ∧
    Linearizable kvStep kvInit s.history := by
  obtain ⟨s, hs, htest⟩ := Service.exists_of_run
    (show ((initial oneClerk).run oneClerk (fun s e => DistinctOpIds s e ∧ FreshVersion s e)
      (electRun ++ callRun ⟨.put, "k", "a", 0⟩ 5 0 ++ callRun ⟨.get, "k", "", 0⟩ 6 1)).any
      (fun s => decide (s.history = [⟨0, ⟨.put, "k", "a", 0⟩, 0, some (⟨"", 0, .ok⟩, 1)⟩,
        ⟨0, ⟨.get, "k", "", 0⟩, 2, some (⟨"a", 1, .ok⟩, 3)⟩])) = true by decide +kernel)
  have hs : Reached oneClerk (fun s e => DistinctOpIds s e ∧ FreshVersion s e) s := ⟨_, rfl, hs⟩
  exact ⟨oneClerk_lawful, s, hs, of_decide_eq_true htest, kv_linearizable oneClerk_lawful hs⟩

/-- Two calls that put one key with its initial version cannot both find it unchanged. -/
theorem length_le_one_of_linearizable {h : List (Operation (Fin c) KvInput KvOutput)} (key : String)
    (hput : ∀ op ∈ h, op.input.op = .put ∧ op.input.key = key ∧ op.input.version = 0 ∧
      ∃ r, op.result = some r ∧ r.1.err = .ok)
    (hlin : Linearizable kvStep kvInit h) : h.length ≤ 1 := by
  obtain ⟨order, hl⟩ := hlin
  have hall : ∀ i < h.length, i ∈ order.map Prod.fst := by
    intro i hi
    obtain ⟨-, -, -, r, hr, -⟩ := hput h[i] (List.getElem_mem hi)
    exact hl.returned i h[i] (List.getElem?_eq_getElem hi) (by rw [hr]; rfl)
  have hmade : ∀ x ∈ order, x.2.1.op = .put ∧ x.2.1.key = key ∧ x.2.1.version = 0 ∧
      x.2.2.err = .ok := by
    intro x hx
    obtain ⟨op, hop, hinput, hres⟩ := hl.made x hx
    obtain ⟨hop', hkey, hver, r, hr, hok⟩ := hput op (List.mem_of_getElem? hop)
    exact hinput ▸ ⟨hop', hkey, hver, hres r hr ▸ hok⟩
  have hlength : order.length ≤ 1 := by
    have hlegal := hl.legal
    rcases order with - | ⟨x, - | ⟨y, rest⟩⟩
    · simp
    · simp
    · obtain ⟨hxop, hxkey, hxver, -⟩ := hmade x (by simp)
      obtain ⟨hyop, hykey, hyver, hyok⟩ := hmade y (by simp)
      simp [Legal, kvStep, KvState.step, kvInit, hxop, hxkey, hxver, hyop, hykey, hyver, hyok]
        at hlegal
  by_contra hlt
  have h0 := hall 0 (by omega)
  have h1 := hall 1 (by omega)
  obtain hnil | ⟨x, hone⟩ := Nat.le_one_iff_eq_zero_or_eq_one.mp hlength |>.imp
    List.eq_nil_of_length_eq_zero List.length_eq_one_iff.mp
  · simp [hnil] at h0
  · simp only [hone, List.map_cons, List.map_nil, List.mem_singleton] at h0 h1
    omega

/-- One clerk puts a key twice with version 0 and gets `OK` both times: the second operation
is answered from the deduplication table, and its value is not stored. -/
theorem reused_version_not_linearizable : oneClerk.Lawful ∧
    ∃ s : Service 2 1 (Store × Dedup), Reached oneClerk DistinctOpIds s ∧
      s.history = [⟨0, ⟨.put, "k", "a", 0⟩, 0, some (⟨"", 0, .ok⟩, 1)⟩,
        ⟨0, ⟨.put, "k", "b", 0⟩, 2, some (⟨"", 0, .ok⟩, 3)⟩] ∧
      ¬ Linearizable kvStep kvInit s.history := by
  obtain ⟨s, hs, htest⟩ := Service.exists_of_run
    (show ((initial oneClerk).run oneClerk DistinctOpIds
      (electRun ++ callRun ⟨.put, "k", "a", 0⟩ 5 0 ++ callRun ⟨.put, "k", "b", 0⟩ 6 1)).any
      (fun s => decide (s.history = [⟨0, ⟨.put, "k", "a", 0⟩, 0, some (⟨"", 0, .ok⟩, 1)⟩,
        ⟨0, ⟨.put, "k", "b", 0⟩, 2, some (⟨"", 0, .ok⟩, 3)⟩])) = true by decide +kernel)
  have hhistory := of_decide_eq_true htest
  refine ⟨oneClerk_lawful, s, ⟨_, rfl, hs⟩, hhistory, fun hlin => ?_⟩
  rw [hhistory] at hlin
  have := length_le_one_of_linearizable "k" (by simp) hlin
  simp at this

end Duplicate

end DistributedLabs.KvClerks
