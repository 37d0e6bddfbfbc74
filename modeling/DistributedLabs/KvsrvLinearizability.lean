import DistributedLabs.KvsrvClerks
import DistributedLabs.LogPrefixes

/-!
# Linearizability of the single key/value server

Every call takes effect at one of the requests that were executed for it: a `Put` that is
stored, at the request that stores it, and any other call at the last request executed for
it. The versions make sure that a `Put` is stored once, as long as they do not wrap.
-/

namespace DistributedLabs.Kvsrv

open KvServer (Err Tversion PutArgs GetArgs PutReply GetReply)
open KvClerks (KvOp KvInput KvOutput KvState)
open Linearizability LogPrefixes TransitionRuns Relation

section Contract

/-- The versioned store of the server's contract: whether an output is right, and the next
store. -/
def storeStep (st : String → Option KvState) (inp : KvInput) (out : KvOutput) :
    Bool × (String → Option KvState) :=
  match inp.op with
  | .get =>
    match st inp.key with
    | some cur => (out = ⟨cur.value, cur.version, .ok⟩, st)
    | none => (out = ⟨"", 0, .errNoKey⟩, st)
  | .put =>
    match st inp.key with
    | some cur =>
      if cur.version = inp.version then
        (out.err = .ok || out.err = .errMaybe,
          Function.update st inp.key (some ⟨inp.value, inp.version + 1⟩))
      else (out.err = .errVersion || out.err = .errMaybe, st)
    | none =>
      if inp.version = 0 then
        (out.err = .ok || out.err = .errMaybe,
          Function.update st inp.key (some ⟨inp.value, inp.version + 1⟩))
      else (out.err = .errNoKey, st)

def storeInit : String → Option KvState := fun _ => none

def storeView (kv : KVServer) : String → Option KvState :=
  fun key => (kv.store.lookup key).map fun val => ⟨val.value, val.versionNo.toUInt64⟩

variable {kv : KVServer} {inp : KvInput} {out : KvOutput}

theorem storeView_empty : storeView KVServer.empty = storeInit := by
  funext key
  simp [storeView, KVServer.empty, storeInit]

def putArgs (inp : KvInput) : PutArgs := ⟨inp.key, inp.value, inp.version, 0⟩

theorem request_put (hop : inp.op = .put) : request inp = .put (putArgs inp) := by
  rw [request, hop]
  rfl

theorem request_get (hop : inp.op = .get) : request inp = .get ⟨inp.key⟩ := by
  rw [request, hop]

theorem storeStep_get (hop : inp.op = .get) (firstPut : Bool) :
    storeStep (storeView kv) inp (output firstPut (kv.handle (request inp)).2) =
      (true, storeView kv) := by
  rw [request_get hop]
  cases hval : kv.store.lookup inp.key <;>
    simp [storeStep, hop, storeView, hval, output, KVServer.handle, KVServer.get]

theorem storeView_of_stores (hst : kv.Stores (putArgs inp)) :
    storeView (kv.put (putArgs inp)).1 =
      Function.update (storeView kv) inp.key (some ⟨inp.value, inp.version + 1⟩) := by
  funext key
  by_cases hk : key = inp.key
  · subst hk
    have hlook := lookup_put_self hst
    simp only [putArgs] at hlook
    simp only [storeView, putArgs, hlook, Option.map_some, toUInt64_succ, Function.update_self]
  · have hlook : (kv.put (putArgs inp)).1.store.lookup key = kv.store.lookup key :=
      lookup_put_of_ne hk
    simp [storeView, hlook, hk]

theorem storeStep_of_stores (hop : inp.op = .put) (hst : kv.Stores (putArgs inp))
    (hout : out.err = .ok ∨ out.err = .errMaybe) :
    storeStep (storeView kv) inp out = (true, storeView (kv.handle (request inp)).1) := by
  rw [request_put hop]
  change _ = (true, storeView (kv.put (putArgs inp)).1)
  rw [storeView_of_stores hst]
  have hver : inp.version = kv.version inp.key := hst
  unfold KVServer.version at hver
  cases hval : kv.store.lookup inp.key with
  | none =>
    rw [hval] at hver
    simp only [Option.map_none, Option.getD_none] at hver
    simp [storeStep, hop, storeView, hval, hver, hout]
  | some val =>
    rw [hval] at hver
    simp only [Option.map_some, Option.getD_some] at hver
    simp [storeStep, hop, storeView, hval, hver, hout]

theorem storeStep_of_not_stores (hop : inp.op = .put) (hst : ¬ kv.Stores (putArgs inp))
    (firstPut : Bool) :
    storeStep (storeView kv) inp (output firstPut (kv.handle (request inp)).2) =
      (true, storeView (kv.handle (request inp)).1) := by
  rw [request_put hop]
  simp only [KVServer.handle, put_of_not_stores hst, output]
  have hver : ¬ inp.version = kv.version inp.key := hst
  unfold KVServer.version at hver
  cases hval : kv.store.lookup inp.key with
  | none =>
    rw [hval] at hver
    simp only [Option.map_none, Option.getD_none] at hver
    simp [storeStep, hop, storeView, putArgs, hval, hver]
  | some val =>
    rw [hval] at hver
    simp only [Option.map_some, Option.getD_some] at hver
    cases firstPut <;> simp [storeStep, hop, storeView, putArgs, hval, Ne.symm hver]

end Contract

section Executions

/-- The server after a list of executed requests, each with the number of its call. -/
def replay (log : List (ℕ × KvInput)) : KVServer :=
  log.foldl (fun kv x => (kv.handle (request x.2)).1) KVServer.empty

variable {log : List (ℕ × KvInput)} {x : ℕ × KvInput} {i m : ℕ}

theorem replay_concat (log : List (ℕ × KvInput)) (x : ℕ × KvInput) :
    replay (log ++ [x]) = ((replay log).handle (request x.2)).1 := by
  simp [replay]

theorem replay_take_succ (h : log[m]? = some x) :
    replay (log.take (m + 1)) = ((replay (log.take m)).handle (request x.2)).1 := by
  rw [take_succ_of_getElem? h]
  exact replay_concat _ _

def NeverWraps (log : List (ℕ × KvInput)) : Prop :=
  ∀ (m : ℕ) x, log[m]? = some x → ¬ (replay (log.take m)).Wraps (request x.2)

def StoredAt (log : List (ℕ × KvInput)) (m : ℕ) (x : ℕ × KvInput) : Prop :=
  log[m]? = some x ∧ x.2.op = .put ∧ (replay (log.take m)).Stores (putArgs x.2)

theorem NeverWraps.version_le (hw : NeverWraps log) (key : String) {m m' : ℕ} (hm : m ≤ m') :
    (replay (log.take m)).version key ≤ (replay (log.take m')).version key := by
  induction hm with
  | refl => exact UInt64.le_refl _
  | @step m' hm ih =>
    cases hx : log[m']? with
    | none =>
      have hlen := List.getElem?_eq_none_iff.mp hx
      rw [List.take_of_length_le hlen] at ih
      rw [List.take_of_length_le (Nat.le_succ_of_le hlen)]
      exact ih
    | some x =>
      rw [replay_take_succ hx]
      exact UInt64.le_trans ih (version_le_handle (hw m' x hx) key)

/-- After a `Put` was stored, its version is below the version of its key. -/
theorem NeverWraps.version_lt (hw : NeverWraps log) (hst : StoredAt log m x) {m' : ℕ}
    (hm : m < m') : x.2.version < (replay (log.take m')).version x.2.key := by
  have hwrap := hw m x hst.1
  have hle := hw.version_le x.2.key (show m + 1 ≤ m' from hm)
  rw [request_put hst.2.1] at hwrap
  rw [replay_take_succ hst.1, request_put hst.2.1] at hle
  have hnew : ((replay (log.take m)).put (putArgs x.2)).1.version x.2.key = x.2.version + 1 :=
    version_put_self hst.2.2
  have hlt : x.2.version < x.2.version + 1 := lt_succ_of_ne_zero fun hz => hwrap ⟨hst.2.2, hz⟩
  rw [← hnew] at hlt
  exact UInt64.lt_of_lt_of_le hlt hle

/-- A `Put` is not stored again, and its key is present then. -/
theorem NeverWraps.stored_once (hw : NeverWraps log) (hst : StoredAt log m x) {m' : ℕ}
    (hm : m < m') : ¬ (replay (log.take m')).Stores (putArgs x.2) ∧
      ((replay (log.take m')).store.lookup x.2.key).isSome := by
  have hlt := hw.version_lt hst hm
  constructor
  · intro heq
    rw [← show x.2.version = (replay (log.take m')).version x.2.key from heq] at hlt
    exact UInt64.lt_irrefl _ hlt
  · by_contra hnone
    rw [Option.not_isSome_iff_eq_none] at hnone
    rw [KVServer.version, hnone] at hlt
    exact UInt64.not_lt_zero hlt

/-- The last request executed for call number `i` got this reply; it is the only one if
`firstPut` still holds. -/
def Answered (log : List (ℕ × KvInput)) (i : ℕ) (inp : KvInput) (firstPut : Bool)
    (reply : Reply) : Prop :=
  ∃ m, log[m]? = some (i, inp) ∧ (∀ m' x, m < m' → log[m']? = some x → x.1 ≠ i) ∧
    (firstPut = true → ∀ m' x, m' < m → log[m']? = some x → x.1 ≠ i) ∧
    reply = ((replay (log.take m)).handle (request inp)).2

theorem Answered.concat {inp : KvInput} {firstPut : Bool} {reply : Reply}
    (h : Answered log i inp firstPut reply) (hx : x.1 ≠ i) :
    Answered (log ++ [x]) i inp firstPut reply := by
  obtain ⟨m, hm, hlast, hfirst, hreply⟩ := h
  have hlt : m < log.length := (List.getElem?_eq_some_iff.mp hm).1
  refine ⟨m, by rwa [List.getElem?_append_left hlt],
    fun m' y hmm hy => ?_, fun hf m' y hmm hy => ?_, ?_⟩
  · rcases getElem?_concat_cases hy with ⟨-, rfl⟩ | hy
    · exact hx
    · exact hlast m' y hmm hy
  · rw [List.getElem?_append_left (by omega)] at hy
    exact hfirst hf m' y hmm hy
  · rw [List.take_append_of_le_length hlt.le]
    exact hreply

theorem answered_new (log : List (ℕ × KvInput)) (i : ℕ) (inp : KvInput) {firstPut : Bool}
    (hf : firstPut = true → ∀ x ∈ log, x.1 ≠ i) :
    Answered (log ++ [(i, inp)]) i inp firstPut ((replay log).handle (request inp)).2 := by
  refine ⟨log.length, List.getElem?_concat_length .., fun m' y hmm hy => ?_,
    fun h m' y hmm hy => ?_, ?_⟩
  · have := (List.getElem?_eq_some_iff.mp hy).1
    simp at this
    omega
  · rw [List.getElem?_append_left hmm] at hy
    exact hf h y (List.mem_of_getElem? hy)
  · rw [List.take_left]

end Executions

section Records

variable {c : ℕ} {s : Service c} {log : List (ℕ × KvInput)}

/-- How far the call of a clerk is: nothing was executed for it before its first failure, and
the answer that is on its way is that to its last request. -/
def Progress (log : List (ℕ × KvInput)) (i : ℕ) (inp : KvInput) (pend : Pending) : Prop :=
  match pend.rpc with
  | .sent => pend.firstPut = true → ∀ x ∈ log, x.1 ≠ i
  | .replied reply => Answered log i inp pend.firstPut reply

structure InCall (s : Service c) (log : List (ℕ × KvInput)) (k : Fin c) (pend : Pending)
    (op : Operation (Fin c) KvInput KvOutput) : Prop where
  call : s.history[s.number k]? = some op
  client : op.client = k
  result : op.result = none
  request : pend.request = request op.input
  progress : Progress log (s.number k) op.input pend

/-- The requests executed so far, in order, and what they have to do with the history. -/
structure Records (s : Service c) (log : List (ℕ × KvInput)) : Prop where
  server : s.net.server = replay log
  noWrap : NeverWraps log
  made : ∀ x ∈ log, ∃ op, s.history[x.1]? = some op ∧ op.input = x.2
  ordered : log.Pairwise fun x y =>
    ∀ op ∈ s.history[x.1]?, ∀ op' ∈ s.history[y.1]?, ¬ op'.Precedes op
  called : ∀ op ∈ s.history, op.call < s.clock
  pending : ∀ k pend, s.net.pending k = some pend → ∃ op, InCall s log k pend op
  returned : ∀ (i : ℕ) op r, s.history[i]? = some op → op.result = some r →
    ∃ firstPut reply, Answered log i op.input firstPut reply ∧ r.1 = output firstPut reply

theorem records_initial : Records (initial : Service c) [] := by
  refine ⟨rfl, fun m x hx => ?_, fun x hx => ?_, .nil, fun op hop => ?_, fun k pend hp => ?_,
    fun i op r hop => ?_⟩
  · simp at hx
  · simp at hx
  · simp [initial] at hop
  · simp [initial, Net.initial] at hp
  · simp [initial] at hop

/-- Two clerks are never in the same call. -/
theorem InCall.number_ne {k k' : Fin c} {pend pend' : Pending}
    {op op' : Operation (Fin c) KvInput KvOutput} (hk : InCall s log k pend op)
    (hk' : InCall s log k' pend' op') (hne : k' ≠ k) : s.number k' ≠ s.number k := by
  intro heq
  have hcall := hk'.call
  rw [heq, hk.call] at hcall
  obtain rfl := Option.some.inj hcall
  exact hne (hk'.client.symm.trans hk.client)

theorem Progress.concat {i : ℕ} {inp : KvInput} {pend : Pending} {x : ℕ × KvInput}
    (h : Progress log i inp pend) (hx : x.1 ≠ i) : Progress (log ++ [x]) i inp pend := by
  unfold Progress at h ⊢
  split
  · rename_i hrpc
    rw [hrpc] at h
    intro hf y hy
    rcases List.mem_append.mp hy with hy | hy
    · exact h hf y hy
    · rw [List.mem_singleton.mp hy]
      exact hx
  · rename_i reply hrpc
    rw [hrpc] at h
    exact Answered.concat h hx

theorem Records.lt_length (hr : Records s log) {x : ℕ × KvInput} (hx : x ∈ log) :
    x.1 < s.history.length := by
  obtain ⟨op, hop, -⟩ := hr.made x hx
  exact (List.getElem?_eq_some_iff.mp hop).1

theorem Records.invoke (hr : Records s log) (k : Fin c) (input : KvInput)
    (hk : s.net.pending k = none) : Records (s.invoke k input) log := by
  have hold : ∀ {i : ℕ}, i < s.history.length →
      (s.invoke k input).history[i]? = s.history[i]? := fun hi => List.getElem?_append_left hi
  refine ⟨hr.server, hr.noWrap, fun x hx => ?_, hr.ordered.imp_of_mem ?_, fun op hop => ?_,
    fun k' pend hp => ?_, fun i op r hop hres => ?_⟩
  · rw [hold (hr.lt_length hx)]
    exact hr.made x hx
  · intro x y hx hy hxy
    rw [hold (hr.lt_length hx), hold (hr.lt_length hy)]
    exact hxy
  · rcases List.mem_append.mp hop with hop | hop
    · exact Nat.lt_succ_of_lt (hr.called op hop)
    · rw [List.mem_singleton.mp hop]
      exact Nat.lt_succ_self _
  · by_cases hkk : k' = k
    · subst hkk
      obtain rfl : _ = pend := Option.some.inj (by
        simpa [Service.invoke, Net.call, Net.setPending] using hp)
      refine ⟨⟨k', input, s.clock, none⟩, ?_, rfl, rfl, rfl, ?_⟩
      · simp [Service.invoke]
      · intro _ x hx
        simpa [Service.invoke] using (hr.lt_length hx).ne
    · obtain ⟨op, hcall⟩ := hr.pending k' pend (by
        simpa [Service.invoke, Net.call, Net.setPending, hkk] using hp)
      have hnum : (s.invoke k input).number k' = s.number k' := by simp [Service.invoke, hkk]
      refine ⟨op, ?_, hcall.client, hcall.result, hcall.request, hnum ▸ hcall.progress⟩
      rw [hnum, hold (List.getElem?_eq_some_iff.mp hcall.call).1]
      exact hcall.call
  · rcases getElem?_concat_cases hop with ⟨-, rfl⟩ | hop
    · cases hres
    · exact hr.returned i op r hop hres

theorem Records.execute (hr : Records s log) {k : Fin c} {pend : Pending}
    (hk : s.net.pending k = some pend) (hsent : pend.rpc = .sent)
    (hw : ¬ s.net.server.Wraps pend.request) :
    ∃ op, Records { s with net :=
      { s.net.setPending k (some { pend with rpc := .replied (s.net.server.handle pend.request).2 })
        with server := (s.net.server.handle pend.request).1 } }
      (log ++ [(s.number k, op)]) := by
  obtain ⟨op, hin⟩ := hr.pending k pend hk
  have hprog := hin.progress
  rw [Progress, hsent] at hprog
  rw [hin.request, hr.server] at hw ⊢
  refine ⟨op.input, (replay_concat log (s.number k, op.input)).symm, fun m x hx => ?_,
    fun x hx => ?_, ?_, hr.called,
    fun k' pend' hp => ?_, fun i op' r hop hres => ?_⟩
  · rcases getElem?_concat_cases hx with ⟨rfl, rfl⟩ | hx
    · rw [List.take_left]
      exact hw
    · have hm := (List.getElem?_eq_some_iff.mp hx).1
      rw [List.take_append_of_le_length hm.le]
      exact hr.noWrap m x hx
  · rcases List.mem_append.mp hx with hx | hx
    · exact hr.made x hx
    · rw [List.mem_singleton.mp hx]
      exact ⟨op, hin.call, rfl⟩
  · refine List.pairwise_append.mpr ⟨hr.ordered, List.pairwise_singleton _ _, fun x _ y hy => ?_⟩
    rintro op₁ - op₂ hop₂ ⟨r, hres, -⟩
    rw [List.mem_singleton.mp hy] at hop₂
    obtain rfl := Option.some.inj (hin.call.symm.trans hop₂)
    rw [hin.result] at hres
    cases hres
  · by_cases hkk : k' = k
    · subst hkk
      obtain rfl : _ = pend' := Option.some.inj (by simpa [Net.setPending] using hp)
      exact ⟨op, hin.call, hin.client, hin.result, rfl, answered_new log _ op.input hprog⟩
    · obtain ⟨op', hin'⟩ := hr.pending k' pend' (by simpa [Net.setPending, hkk] using hp)
      exact ⟨op', hin'.call, hin'.client, hin'.result, hin'.request,
        hin'.progress.concat (hin.number_ne hin' hkk).symm⟩
  · obtain ⟨firstPut, reply, hans, hout⟩ := hr.returned i op' r hop hres
    refine ⟨firstPut, reply, hans.concat ?_, hout⟩
    rintro rfl
    obtain rfl := Option.some.inj (hin.call.symm.trans hop)
    rw [hin.result] at hres
    cases hres

theorem Records.fail (hr : Records s log) {k : Fin c} {pend : Pending}
    (hk : s.net.pending k = some pend) (late : List Request) :
    Records { s with net :=
      { s.net.setPending k (some { pend with firstPut := false, rpc := .sent }) with
        late := late } } log := by
  refine ⟨hr.server, hr.noWrap, hr.made, hr.ordered, hr.called, fun k' pend' hp => ?_, hr.returned⟩
  by_cases hkk : k' = k
  · subst hkk
    obtain ⟨op, hin⟩ := hr.pending k' pend hk
    obtain rfl : _ = pend' := Option.some.inj (by simpa [Net.setPending] using hp)
    exact ⟨op, hin.call, hin.client, hin.result, hin.request, fun hf => by cases hf⟩
  · obtain ⟨op, hin⟩ := hr.pending k' pend' (by simpa [Net.setPending, hkk] using hp)
    exact ⟨op, hin.call, hin.client, hin.result, hin.request, hin.progress⟩

theorem Records.return (hr : Records s log) {k : Fin c} {pend : Pending} {reply : Reply}
    (hk : s.net.pending k = some pend) (hrep : pend.rpc = .replied reply) :
    Records (s.return k (output pend.firstPut reply)) log := by
  obtain ⟨op, hin⟩ := hr.pending k pend hk
  have hprog := hin.progress
  rw [Progress, hrep] at hprog
  refine ⟨hr.server, hr.noWrap, fun x hx => ?_, hr.ordered.imp ?_, fun op' hop => ?_,
    fun k' pend' hp => ?_, fun i op' r hop hres => ?_⟩
  · obtain ⟨op', hop, hinp⟩ := hr.made x hx
    by_cases hi : x.1 = s.number k
    · rw [hi] at hop ⊢
      exact ⟨_, getElem?_return_self hop, hinp⟩
    · exact ⟨op', (getElem?_return_of_ne hi).trans hop, hinp⟩
  · rintro x y hxy op₁ hop₁ op₂ hop₂ ⟨r, hres, hlt⟩
    obtain ⟨op₁', hop₁', -, -, hcall, -⟩ := getElem?_return_cases hop₁
    obtain ⟨op₂', hop₂', -, -, -, ⟨-, hnew⟩ | ⟨-, rfl⟩⟩ := getElem?_return_cases hop₂
    · have hclock := hr.called op₁' (List.mem_of_getElem? hop₁')
      obtain rfl := Option.some.inj (hnew.symm.trans hres)
      rw [hcall] at hlt
      exact absurd hlt (by simpa using hclock.le)
    · exact hxy op₁' hop₁' op₂ hop₂' ⟨r, hres, hcall ▸ hlt⟩
  · obtain ⟨i, hi⟩ := List.mem_iff_getElem?.mp hop
    obtain ⟨op₁, hop₁, -, -, hcall, -⟩ := getElem?_return_cases hi
    rw [hcall]
    exact Nat.lt_succ_of_lt (hr.called op₁ (List.mem_of_getElem? hop₁))
  · have hkk : k' ≠ k := by
      rintro rfl
      simp [Service.return, Net.setPending] at hp
    obtain ⟨op', hin'⟩ := hr.pending k' pend' (by
      simpa [Service.return, Net.setPending, hkk] using hp)
    exact ⟨op', (getElem?_return_of_ne (hin.number_ne hin' hkk)).trans hin'.call, hin'.client,
      hin'.result, hin'.request, hin'.progress⟩
  · obtain ⟨op₁, hop₁, -, hinp, -, ⟨rfl, hnew⟩ | ⟨-, rfl⟩⟩ := getElem?_return_cases hop
    · obtain rfl := Option.some.inj (hin.call.symm.trans hop₁)
      obtain rfl := Option.some.inj (hnew.symm.trans hres)
      exact ⟨pend.firstPut, reply, hinp ▸ hprog, rfl⟩
    · exact hr.returned i op' r hop₁ hres

/-- A step executes at most one more request. -/
theorem Records.step {t : Service c} (hr : Records s log) {e : Event c} (hprompt : Prompt s e)
    (hw : NoWrap s e) (h : s.step? e = some t) : ∃ log', Records t log' := by
  cases step_action h with
  | invoke hidle => exact ⟨log, hr.invoke _ _ hidle⟩
  | reply hpend hrpc => exact ⟨log, hr.return hpend hrpc⟩
  | net hnet => cases hnet with
    | late => exact hprompt.elim
    | fail hpend => exact ⟨log, hr.fail hpend _⟩
    | execute hpend hrpc =>
      obtain ⟨inp, hrec⟩ := hr.execute hpend hrpc (hw _ (Net.executes_of_sent hpend hrpc))
      exact ⟨_, hrec⟩

theorem exists_records (hs : Reached (fun s e => Prompt s e ∧ NoWrap s e) s) :
    ∃ log, Records s log := by
  refine Reachable.invariant (I := fun s => ∃ log, Records s log) hs (fun s hs => ?_) ?_
  · rw [hs]
    exact ⟨[], records_initial⟩
  · rintro s t - ⟨log, hr⟩ ⟨e, ⟨hprompt, hw⟩, hstep⟩
    exact hr.step hprompt hw hstep

end Records

section Points

variable {c : ℕ} {s : Service c} {log : List (ℕ × KvInput)}

/-- The call that the request at position `m` belongs to takes effect there: the request is
stored, or it is the last one of a call that has returned and was never stored. -/
def IsPoint (h : List (Operation (Fin c) KvInput KvOutput)) (log : List (ℕ × KvInput)) (m : ℕ)
    (x : ℕ × KvInput) : Prop :=
  StoredAt log m x ∨ (log[m]? = some x ∧ (∃ op ∈ h[x.1]?, op.result.isSome) ∧
    (∀ m' y, m < m' → log[m']? = some y → y.1 ≠ x.1) ∧ ∀ m', ¬ StoredAt log m' x)

/-- What a call returned; a call that has not returned counts as `OK`. -/
def outcome (h : List (Operation (Fin c) KvInput KvOutput)) (i : ℕ) : KvOutput :=
  ((h[i]?.bind Operation.result).map Prod.fst).getD ⟨"", 0, .ok⟩

open Classical in
noncomputable def effect (h : List (Operation (Fin c) KvInput KvOutput)) (log : List (ℕ × KvInput))
    (m : ℕ) : Option (ℕ × KvInput × KvOutput) :=
  log[m]?.bind fun x => if IsPoint h log m x then some (x.1, x.2, outcome h x.1) else none

theorem effect_eq_some {h : List (Operation (Fin c) KvInput KvOutput)} {m : ℕ}
    {y : ℕ × KvInput × KvOutput} : effect h log m = some y ↔
      ∃ x, IsPoint h log m x ∧ log[m]? = some x ∧ y = (x.1, x.2, outcome h x.1) := by
  simp only [effect, Option.bind_eq_some_iff, Option.ite_none_right_eq_some, Option.some.injEq]
  constructor
  · rintro ⟨x, hx, hpoint, rfl⟩
    exact ⟨x, hpoint, hx, rfl⟩
  · rintro ⟨x, hpoint, hx, rfl⟩
    exact ⟨x, hx, hpoint, rfl⟩

theorem outcome_eq {h : List (Operation (Fin c) KvInput KvOutput)} {i : ℕ}
    {op : Operation (Fin c) KvInput KvOutput} {r : KvOutput × ℕ} (hop : h[i]? = some op)
    (hres : op.result = some r) : outcome h i = r.1 := by
  simp [outcome, hop, hres]

/-- Requests of one call have the same input. -/
theorem Records.input_eq (hr : Records s log) {x y : ℕ × KvInput} (hx : x ∈ log) (hy : y ∈ log)
    (heq : x.1 = y.1) : x = y := by
  obtain ⟨op, hop, hinp⟩ := hr.made x hx
  obtain ⟨op', hop', hinp'⟩ := hr.made y hy
  rw [heq, hop'] at hop
  obtain rfl := Option.some.inj hop
  exact Prod.ext heq (hinp.symm.trans hinp')

theorem Records.point_once (hr : Records s log) {m m' : ℕ} {x y : ℕ × KvInput} (hmm : m < m')
    (hx : IsPoint s.history log m x) (hy : IsPoint s.history log m' y) (hmx : log[m]? = some x)
    (hmy : log[m']? = some y) : x.1 ≠ y.1 := by
  intro heq
  obtain rfl := hr.input_eq (List.mem_of_getElem? hmx) (List.mem_of_getElem? hmy) heq
  rcases hx with hx | ⟨-, -, hlast, -⟩
  · rcases hy with hy | ⟨-, -, -, hnone⟩
    · exact (hr.noWrap.stored_once hx hmm).1 hy.2.2
    · exact hnone m hx
  · exact hlast m' x hmm hmy rfl

/-- A call that has returned takes effect somewhere. -/
theorem Records.exists_point (hr : Records s log) {i : ℕ}
    {op : Operation (Fin c) KvInput KvOutput} (hop : s.history[i]? = some op)
    (hres : op.result.isSome) : ∃ m, IsPoint s.history log m (i, op.input) := by
  by_cases hst : ∃ m, StoredAt log m (i, op.input)
  · obtain ⟨m, hm⟩ := hst
    exact ⟨m, .inl hm⟩
  · obtain ⟨r, hr'⟩ := Option.isSome_iff_exists.mp hres
    obtain ⟨-, -, ⟨m, hm, hlast, -⟩, -⟩ := hr.returned i op r hop hr'
    exact ⟨m, .inr ⟨hm, ⟨op, hop, hres⟩, hlast, not_exists.mp hst⟩⟩

theorem output_put_err (firstPut : Bool) (rsp : PutReply) : (output firstPut (.put rsp)).err =
    if !firstPut && rsp.err = .errVersion then .errMaybe else rsp.err := rfl

/-- A `Put` that was stored returns `OK` or `ErrMaybe`, if it returns. -/
theorem Records.outcome_of_stored (hr : Records s log) {m : ℕ} {x : ℕ × KvInput}
    (hst : StoredAt log m x) : (outcome s.history x.1).err = .ok ∨
      (outcome s.history x.1).err = .errMaybe := by
  obtain ⟨op, hop, hinp⟩ := hr.made x (List.mem_of_getElem? hst.1)
  cases hres : op.result with
  | none => exact .inl (by simp [outcome, hop, hres])
  | some r =>
    obtain ⟨firstPut, reply, ⟨m₀, hm₀, hlast, hfirst, rfl⟩, hout⟩ := hr.returned x.1 op r hop hres
    rw [outcome_eq hop hres, hout, hinp, request_put hst.2.1]
    rcases Nat.lt_trichotomy m m₀ with hm | rfl | hm
    · obtain ⟨hnot, hsome⟩ := hr.noWrap.stored_once hst hm
      have hretry : firstPut = false :=
        Bool.eq_false_of_not_eq_true fun hf => hfirst hf m x hm hst.1 rfl
      right
      rw [KVServer.handle, put_of_not_stores hnot, output_put_err]
      simp [putArgs, hsome, hretry]
    · left
      rw [KVServer.handle, put_of_stores hst.2.2, output_put_err]
      simp
    · exact absurd rfl (hlast m x hm hst.1)

/-- Where a call takes effect, the contract accepts what it returned. -/
theorem Records.point_step (hr : Records s log) {m : ℕ} {x : ℕ × KvInput}
    (hm : log[m]? = some x) (hx : IsPoint s.history log m x) :
    storeStep (storeView (replay (log.take m))) x.2 (outcome s.history x.1) =
      (true, storeView (replay (log.take (m + 1)))) := by
  rw [replay_take_succ hm]
  rcases hx with hst | ⟨-, ⟨op, hop, hsome⟩, hlast, hnone⟩
  · exact storeStep_of_stores hst.2.1 hst.2.2 (hr.outcome_of_stored hst)
  · obtain ⟨r, hres⟩ := Option.isSome_iff_exists.mp hsome
    obtain ⟨firstPut, reply, ⟨m₀, hm₀, hlast₀, -, rfl⟩, hout⟩ := hr.returned x.1 op r hop hres
    obtain ⟨i, inp⟩ := x
    obtain rfl : op.input = inp := congrArg Prod.snd (hr.input_eq (List.mem_of_getElem? hm₀)
      (List.mem_of_getElem? hm) rfl)
    obtain rfl : m = m₀ := by
      rcases Nat.lt_trichotomy m m₀ with h | h | h
      · exact absurd rfl (hlast m₀ _ h hm₀)
      · exact h
      · exact absurd rfl (hlast₀ m _ h hm)
    rw [outcome_eq hop hres, hout]
    cases hinp : op.input.op with
    | get =>
      rw [storeStep_get hinp firstPut, request_get hinp]
      rfl
    | put => exact storeStep_of_not_stores hinp (fun hst => hnone m ⟨hm, hinp, hst⟩) firstPut

/-- Elsewhere the store stays the same. -/
theorem replay_of_not_stored {m : ℕ} {x : ℕ × KvInput} (hm : log[m]? = some x)
    (hx : ¬ StoredAt log m x) : replay (log.take (m + 1)) = replay (log.take m) := by
  rw [replay_take_succ hm]
  cases hinp : x.2.op with
  | get => rw [request_get hinp, KVServer.handle]
  | put => rw [request_put hinp, KVServer.handle, put_of_not_stores fun hst => hx ⟨hm, hinp, hst⟩]

/-- Up to every position, the calls that took effect explain the store. -/
theorem Records.legal (hr : Records s log) (m : ℕ) (hm : m ≤ log.length) :
    Legal storeStep storeInit
        (((List.range m).filterMap (effect s.history log)).map Prod.snd) ∧
      finalState storeStep storeInit
        (((List.range m).filterMap (effect s.history log)).map Prod.snd) =
        storeView (replay (log.take m)) := by
  induction m with
  | zero => exact ⟨trivial, storeView_empty.symm⟩
  | succ m ih =>
    obtain ⟨hlegal, hfinal⟩ := ih (Nat.le_of_succ_le hm)
    have hx : log[m]? = some log[m] := List.getElem?_eq_getElem hm
    rw [List.range_succ, List.filterMap_append, List.map_append]
    by_cases hpoint : IsPoint s.history log m log[m]
    · have heff : effect s.history log m = some _ := effect_eq_some.mpr ⟨_, hpoint, hx, rfl⟩
      have hstep := hr.point_step hx hpoint
      rw [← hfinal] at hstep
      simp only [List.filterMap_cons_some heff, List.filterMap_nil, List.map_cons, List.map_nil]
      rw [legal_append, finalState_append]
      simp only [Legal, finalState, List.foldl_cons, List.foldl_nil] at hstep ⊢
      rw [hstep]
      exact ⟨⟨hlegal, rfl, trivial⟩, rfl⟩
    · have heff : effect s.history log m = none := by
        simp [effect, hx, hpoint]
      rw [List.filterMap_cons_none heff, List.filterMap_nil, List.map_nil, List.append_nil,
        replay_of_not_stored hx fun hst => hpoint (.inl hst)]
      exact ⟨hlegal, hfinal⟩

theorem Records.linearization (hr : Records s log) :
    Linearization storeStep storeInit s.history
      ((List.range log.length).filterMap (effect s.history log)) := by
  refine Linearization.of_points _ _ ?_ ?_ ?_ ?_ (hr.legal _ le_rfl).1
  · refine List.pairwise_lt_range.imp fun {m m'} hmm x hx y hy => ?_
    obtain ⟨x', hpx, hmx, rfl⟩ := effect_eq_some.mp hx
    obtain ⟨y', hpy, hmy, rfl⟩ := effect_eq_some.mp hy
    exact hr.point_once hmm hpx hpy hmx hmy
  · rintro m - y hy
    obtain ⟨x, -, hmx, rfl⟩ := effect_eq_some.mp hy
    obtain ⟨op, hop, hinp⟩ := hr.made x (List.mem_of_getElem? hmx)
    exact ⟨op, hop, hinp, fun r hres => (outcome_eq hop hres).symm⟩
  · intro i op hop hres
    obtain ⟨m, hm⟩ := hr.exists_point hop hres
    have hmx : log[m]? = some (i, op.input) := hm.elim (fun h => h.1) (fun h => h.1)
    exact ⟨m, List.mem_range.mpr (List.getElem?_eq_some_iff.mp hmx).1, _,
      effect_eq_some.mpr ⟨_, hm, hmx, rfl⟩, rfl⟩
  · refine List.pairwise_lt_range.imp fun {m m'} hmm x hx y hy => ?_
    obtain ⟨x', -, hmx, rfl⟩ := effect_eq_some.mp hx
    obtain ⟨y', -, hmy, rfl⟩ := effect_eq_some.mp hy
    obtain ⟨hi, rfl⟩ := List.getElem?_eq_some_iff.mp hmx
    obtain ⟨hj, rfl⟩ := List.getElem?_eq_some_iff.mp hmy
    exact List.pairwise_iff_getElem.mp hr.ordered m m' hi hj hmm

/-- In every run in which no version wraps, the history is linearizable for the server's
contract, in an order that ends with what is in the store. -/
theorem kvsrv_linearizable {c : ℕ} {s : Service c}
    (hs : Reached (fun s e => Prompt s e ∧ NoWrap s e) s) :
    ∃ order, Linearization storeStep storeInit s.history order ∧
      finalState storeStep storeInit (order.map Prod.snd) = storeView s.net.server := by
  obtain ⟨log, hr⟩ := exists_records hs
  refine ⟨_, hr.linearization, ?_⟩
  rw [(hr.legal _ le_rfl).2, List.take_length, hr.server]

def retriedRun : List (Event 2) :=
  [.invoke 0 ⟨.put, "k", "x", 0⟩, .net (.execute 0), .net (.fail 0), .invoke 1 ⟨.get, "k", "", 0⟩,
    .net (.execute 1), .reply 1, .net (.execute 0), .reply 0]

theorem kvsrv_linearizable_retried : ∃ s : Service 2,
    Reached (fun s e => Prompt s e ∧ NoWrap s e) s ∧
    s.history.map Operation.result =
      [some (⟨"", 0, .errMaybe⟩, 3), some (⟨"x", 1, .ok⟩, 2)] ∧
    ∃ order, Linearization storeStep storeInit s.history order ∧
      finalState storeStep storeInit (order.map Prod.snd) = storeView s.net.server := by
  have hrun : ((initial : Service 2).run (fun s e => Prompt s e ∧ NoWrap s e) retriedRun).any
      (fun s => s.history.map Operation.result =
        [some (⟨"", 0, .errMaybe⟩, 3), some (⟨"x", 1, .ok⟩, 2)]) = true := by
    decide +kernel
  obtain ⟨s, hsteps, htest⟩ := Service.exists_of_run hrun
  have hs : Reached (fun s e => Prompt s e ∧ NoWrap s e) s := ⟨_, rfl, hsteps⟩
  exact ⟨s, hs, of_decide_eq_true htest, kvsrv_linearizable hs⟩

end Points

section Wrapping

variable {c : ℕ}

def Service.called (s : Service c) (k : Fin c) (inp : KvInput) : Service c where
  net := { s.net with server := (s.net.server.handle (request inp)).1 }
  number := Function.update s.number k s.history.length
  history := s.history ++
    [⟨k, inp, s.clock, some (output true (s.net.server.handle (request inp)).2, s.clock + 1)⟩]
  clock := s.clock + 2

theorem Service.call_at_once (s : Service c) {k : Fin c} (inp : KvInput)
    (hk : s.net.pending k = none) : ReflTransGen (Step Prompt) s (s.called k inp) := by
  have hpend : Function.update s.net.pending k none = s.net.pending := by
    rw [← hk, Function.update_eq_self]
  have hrun :
      s.run Prompt [.invoke k inp, .net (.execute k), .reply k] = some (s.called k inp) := by
    simp [Service.run, exec, Prompt, Service.step?, hk, Service.invoke, Net.call, Net.step?,
      Net.setPending, Net.answer, Service.return, Service.called, hpend, modify_concat_length]
  exact Service.steps_of_run hrun

def putK (value : String) (version : Tversion) : KvInput := ⟨.put, "k", value, version⟩

def getK : KvInput := ⟨.get, "k", "", 0⟩

theorem handle_single_put (value value' : String) (version : Tversion) :
    (single "k" value version).handle (request (putK value' version)) =
      (single "k" value' (version + 1), .put ⟨.ok⟩) := by
  have hput := put_single "k" value value' version 0
  change (((single "k" value version).put ⟨"k", value', version, 0⟩).1,
    Reply.put ((single "k" value version).put ⟨"k", value', version, 0⟩).2) = _
  rw [hput]

theorem handle_single_get (value : String) (version : Tversion) :
    (single "k" value version).handle (request getK) =
      (single "k" value version, .get ⟨value, version, .ok⟩) := by
  change (single "k" value version, Reply.get ((single "k" value version).get ⟨"k"⟩)) = _
  rw [get_single]

/-- Clerk 0 is sending its `Put` with version zero again; clerk 1 is idle. -/
def waiting (kv : KVServer) : Net 2 :=
  ⟨kv, Function.update (fun _ => none) 0 (some ⟨request (putK "x" 0), false, .sent⟩), []⟩

def overwritten : List (Operation (Fin 2) KvInput KvOutput) :=
  [⟨0, putK "x" 0, 0, none⟩, ⟨1, getK, 1, some (⟨"x", 1, .ok⟩, 2)⟩,
    ⟨1, putK "y" 1, 3, some (⟨"", 0, .ok⟩, 4)⟩]

/-- Clerk 1 has brought the key to some version, and only the first call has value `x`. -/
structure Overwritten (version : Tversion) (s : Service 2) : Prop where
  reached : Reached Prompt s
  net : s.net = waiting (single "k" "y" version)
  clock : 4 < s.clock
  starts : overwritten <+: s.history
  writer : ∀ (i : ℕ) op, s.history[i]? = some op → op.input.value = "x" → i = 0

theorem writer_overwritten {i : ℕ} {op : Operation (Fin 2) KvInput KvOutput}
    (hop : overwritten[i]? = some op) (hx : op.input.value = "x") : i = 0 := by
  match i with
  | 0 => rfl
  | 1 | 2 =>
    obtain rfl := Option.some.inj hop
    exact absurd hx (by decide)
  | i + 3 => cases hop

def cutOff : List (Event 2) := [.invoke 0 (putK "x" 0), .net (.execute 0), .net (.fail 0)]

theorem reached_cutOff : Reached Prompt
    (⟨waiting (single "k" "x" 1), fun _ => 0, [⟨0, putK "x" 0, 0, none⟩], 1⟩ : Service 2) := by
  have hput : KVServer.empty.handle (request (putK "x" 0)) = (single "k" "x" 1, .put ⟨.ok⟩) := by
    rfl
  have hrun : initial.run Prompt cutOff =
      some ⟨waiting (single "k" "x" 1), fun _ => 0, [⟨0, putK "x" 0, 0, none⟩], 1⟩ := by
    simp [cutOff, Service.run, exec, Prompt, initial, Net.initial, Service.step?, Service.invoke,
      Net.call, Net.step?, Net.setPending, hput, waiting]
  exact ⟨_, rfl, Service.steps_of_run hrun⟩

theorem exists_overwritten : ∃ s, Overwritten 2 s := by
  have hget := reached_cutOff.trans (Service.call_at_once (k := 1) _ getK rfl)
  have hput := hget.trans (Service.call_at_once (k := 1) _ (putK "y" 1) rfl)
  refine ⟨_, hput, ?_, ?_, List.prefix_rfl, ?_⟩
  · simp only [Service.called, waiting, handle_single_get, handle_single_put]
    rfl
  · simp [Service.called]
  · intro i op hop hx
    exact writer_overwritten hop hx

theorem Overwritten.next {version : Tversion} {s : Service 2} (hs : Overwritten version s) :
    ∃ t, Overwritten (version + 1) t := by
  have hserver : s.net.server = single "k" "y" version := by rw [hs.net]; rfl
  refine ⟨s.called 1 (putK "y" version), hs.reached.trans (s.call_at_once _ ?_), ?_,
    Nat.lt_add_right 2 hs.clock, hs.starts.trans (List.prefix_append _ _), fun i op hop hx => ?_⟩
  · rw [hs.net]
    rfl
  · simp only [Service.called, hserver, handle_single_put]
    rw [hs.net]
    rfl
  · rcases getElem?_concat_cases hop with ⟨-, rfl⟩ | hop
    · exact absurd hx (show "y" ≠ "x" by decide)
    · exact hs.writer i op hop hx

/-- Versions wrap. -/
theorem exists_wrapped : ∃ s, Overwritten 0 s := by
  have hall : ∀ j : ℕ, ∃ s, Overwritten (2 + UInt64.ofNat j) s := by
    intro j
    induction j with
    | zero => exact exists_overwritten
    | succ j ih =>
      obtain ⟨s, hs⟩ := ih
      rw [UInt64.ofNat_add, ← UInt64.add_assoc]
      exact hs.next
  exact hall (2 ^ 64 - 2)

theorem storeStep_cases (st : String → Option KvState) (inp : KvInput) (out : KvOutput) :
    (storeStep st inp out).2 = st ∨
      (storeStep st inp out).2 =
        Function.update st inp.key (some ⟨inp.value, inp.version + 1⟩) := by
  unfold storeStep
  split
  · split <;> exact .inl rfl
  · split <;> split <;> simp

/-- A value that is in the store at the end was put there. -/
theorem exists_writer {st : String → Option KvState} {l : List (KvInput × KvOutput)}
    {key value : String} {version : Tversion}
    (hend : finalState storeStep st l key = some ⟨value, version⟩)
    (hst : ∀ version, st key ≠ some ⟨value, version⟩) : ∃ x ∈ l, x.1.value = value := by
  induction l generalizing st with
  | nil => exact absurd hend (hst version)
  | cons x rest ih =>
    by_cases hx : x.1.value = value
    · exact ⟨x, List.mem_cons_self, hx⟩
    · have hnext : ∀ version, (storeStep st x.1 x.2).2 key ≠ some ⟨value, version⟩ := by
        intro version
        rcases storeStep_cases st x.1 x.2 with h | h
        · rw [h]
          exact hst version
        · rw [h, Function.update_apply]
          split_ifs
          · exact fun heq => hx (KvState.mk.inj (Option.some.inj heq)).1
          · exact hst version
      obtain ⟨y, hy, hval⟩ := ih hend hnext
      exact ⟨y, List.mem_cons_of_mem _ hy, hval⟩

theorem state_of_get {st : String → Option KvState} {value : String} {version : Tversion}
    (h : (storeStep st getK ⟨value, version, .ok⟩).1 = true) : st "k" = some ⟨value, version⟩ := by
  cases hst : st "k" with
  | none => simp [storeStep, getK, hst] at h
  | some cur =>
    obtain ⟨rfl, rfl⟩ : value = cur.value ∧ version = cur.version := by
      simpa [storeStep, getK, hst] using h
    rfl

theorem state_of_put {st : String → Option KvState} {value : String} {version : Tversion}
    {out : KvOutput} (hok : out.err = .ok) (h : (storeStep st (putK value version) out).1 = true) :
    (storeStep st (putK value version) out).2 "k" = some ⟨value, version + 1⟩ := by
  cases hst : st "k" with
  | none =>
    by_cases hv : version = 0
    · simp [storeStep, putK, hst, hv]
    · simp [storeStep, putK, hst, hv, hok] at h
  | some cur =>
    by_cases hv : cur.version = version
    · simp [storeStep, putK, hst, hv]
    · simp [storeStep, putK, hst, hv, hok] at h

/-- The value of the first call cannot come back after it was overwritten. -/
theorem not_linearizable {h : List (Operation (Fin 2) KvInput KvOutput)} {t r : ℕ}
    (hstarts : overwritten <+: h) (ht : 4 < t)
    (hwriter : ∀ (i : ℕ) op, h[i]? = some op → op.input.value = "x" → i = 0) :
    ¬ Linearizable storeStep storeInit
      (h ++ [⟨1, getK, t, some (⟨"x", 1, .ok⟩, r)⟩]) := by
  rintro ⟨order, hlin⟩
  have hlen : 3 ≤ h.length := hstarts.length_le
  have hold : ∀ {i : ℕ}, i < 3 → (h ++ [⟨1, getK, t, some (⟨"x", 1, .ok⟩, r)⟩])[i]? =
      overwritten[i]? := fun hi => by
    rw [List.getElem?_append_left (by omega), getElem?_eq_of_initial hstarts hi]
  have hfirst : ∀ x ∈ order, x.2.1.value = "x" → x.1 = 0 := by
    intro x hx hval
    obtain ⟨op, hop, hinp, -⟩ := hlin.made x hx
    rw [← hinp] at hval
    rcases getElem?_concat_cases hop with ⟨-, rfl⟩ | hop
    · exact absurd hval (show getK.value ≠ "x" by decide)
    · exact hwriter x.1 op hop hval
  obtain ⟨l₁, l₂, rfl⟩ := List.append_of_mem
    (hlin.mem_of_returned List.getElem?_concat_length rfl)
  obtain ⟨l₃, l₄, rfl⟩ := List.append_of_mem (hlin.mem_of_precedes (hold (show 2 < 3 by decide)) rfl
    List.getElem?_concat_length (by simp; omega) ht)
  rw [List.append_assoc, List.cons_append] at hlin hfirst
  obtain ⟨l₅, l₆, rfl⟩ := List.append_of_mem (hlin.mem_of_precedes (hold (show 1 < 3 by decide)) rfl
    (hold (show 2 < 3 by decide)) (by decide) (by decide))
  have hlegal := hlin.legal
  simp only [List.map_append, List.map_cons, legal_append, Legal] at hlegal
  obtain ⟨⟨-, hget, -⟩, hput, -, hlast, -⟩ := hlegal
  obtain ⟨x, hx, hxval⟩ := exists_writer (state_of_get hget) fun version => by simp [storeInit]
  obtain ⟨y, hy, hyval⟩ := exists_writer (state_of_get hlast) fun version => by
    rw [state_of_put rfl hput]
    simp
  obtain ⟨x, hxl, rfl⟩ := List.mem_map.mp hx
  obtain ⟨y, hyl, rfl⟩ := List.mem_map.mp hy
  have hx0 := hfirst x (by simp [hxl]) hxval
  have hy0 := hfirst y (by simp [hyl]) hyval
  have hnodup := (List.pairwise_append.mp (List.pairwise_map.mp hlin.nodup)).2.2
  exact hnodup x (by simp [hxl]) y (by simp [hyl]) (hx0.trans hy0.symm)

/-- A `Put` whose first request is answered into the void, while another clerk puts the key
so often that the version is zero again, is stored twice. -/
theorem kvsrv_not_linearizable : ∃ s : Service 2, Reached Prompt s ∧
    ¬ Linearizable storeStep storeInit s.history := by
  obtain ⟨s, hs⟩ := exists_wrapped
  have hexec : Step Prompt s { s with net := ⟨single "k" "x" 1,
      Function.update (fun _ => none) 0
        (some ⟨request (putK "x" 0), false, .replied (.put ⟨.ok⟩)⟩), []⟩ } := by
    refine ⟨.net (.execute 0), trivial, ?_⟩
    simp [Service.step?, hs.net, waiting, Net.step?, Net.setPending, handle_single_put]
  have hget := Service.call_at_once (k := 1) { s with net := ⟨single "k" "x" 1,
      Function.update (fun _ => none) 0
        (some ⟨request (putK "x" 0), false, .replied (.put ⟨.ok⟩)⟩), []⟩ } getK rfl
  refine ⟨_, (hs.reached.tail hexec).trans hget, ?_⟩
  simp only [Service.called, handle_single_get]
  exact not_linearizable hs.starts hs.clock hs.writer

end Wrapping

end DistributedLabs.Kvsrv
