import DistributedLabs.KvsrvClerks

/-!
# The model of the linearizability checker

The checker judges the calls on each key by a model of its own, in which a key that is absent
has the empty value and version zero. The model follows the server in every state, and accepts
what the server replies, with one exception.
-/

namespace DistributedLabs.Kvsrv

open KvServer (Err Tversion PutArgs GetArgs PutReply GetReply)
open KvClerks (KvOp KvInput KvOutput KvState)
open Linearizability

def KVServer.keyState (kv : KVServer) (key : String) : KvState :=
  ((kv.store.lookup key).map fun val => ⟨val.value, val.versionNo.toUInt64⟩).getD ⟨"", 0⟩

def KVServer.next (kv : KVServer) (inp : KvInput) : KVServer := (kv.handle (request inp)).1

/-- What a clerk returns whose first request is answered. -/
def KVServer.answer (kv : KVServer) (inp : KvInput) : KvOutput :=
  output true (kv.handle (request inp)).2

/-- A `Put` that names a version of a key that is absent. -/
def KVServer.Unmatched (kv : KVServer) (inp : KvInput) : Prop :=
  inp.op = .put ∧ inp.version ≠ 0 ∧ kv.store.lookup inp.key = none

instance (kv : KVServer) (inp : KvInput) : Decidable (kv.Unmatched inp) :=
  inferInstanceAs (Decidable (_ ∧ _ ∧ _))

def KVServer.sequential (kv : KVServer) : List KvInput → List (KvInput × KvOutput)
  | [] => []
  | inp :: rest => (inp, kv.answer inp) :: (kv.next inp).sequential rest

def KVServer.AllMatched (kv : KVServer) : List KvInput → Prop
  | [] => True
  | inp :: rest => ¬ kv.Unmatched inp ∧ (kv.next inp).AllMatched rest

def onKey (key : String) (h : List (KvInput × KvOutput)) : List (KvInput × KvOutput) :=
  h.filter fun x => x.1.key = key

section Simulation

variable {kv : KVServer} {inp : KvInput} {key : String}

theorem keyState_version (kv : KVServer) (key : String) :
    (kv.keyState key).version = kv.version key := by
  simp only [KVServer.keyState, KVServer.version]
  cases kv.store.lookup key <;> rfl

theorem keyState_next_of_ne (hkey : key ≠ inp.key) :
    (kv.next inp).keyState key = kv.keyState key := by
  cases hop : inp.op with
  | get => simp [KVServer.next, request, hop, KVServer.handle]
  | put =>
    have hlook : (kv.next inp).store.lookup key = kv.store.lookup key := by
      simp only [KVServer.next, request, hop, KVServer.handle]
      exact lookup_put_of_ne hkey
    simp only [KVServer.keyState, hlook]

theorem step_get (hop : inp.op = .get) : (kv.keyState inp.key).step inp (kv.answer inp) =
    (true, (kv.next inp).keyState inp.key) := by
  simp only [KvState.step, hop, KVServer.next, KVServer.answer, request, KVServer.handle, output,
    KVServer.get, KVServer.keyState]
  cases kv.store.lookup inp.key <;> simp

/-- A `Put` that is stored. -/
theorem step_of_stores (hop : inp.op = .put)
    (hst : kv.Stores ⟨inp.key, inp.value, inp.version, 0⟩) :
    (kv.keyState inp.key).step inp (kv.answer inp) = (true, (kv.next inp).keyState inp.key) := by
  have hversion : (kv.keyState inp.key).version = inp.version :=
    (keyState_version kv _).trans hst.symm
  have hanswer : (kv.answer inp).err = .ok := by
    simp [KVServer.answer, request, hop, KVServer.handle, put_of_stores hst, output]
  have hnext : (kv.next inp).keyState inp.key = ⟨inp.value, inp.version + 1⟩ := by
    simp only [KVServer.keyState, KVServer.next, request, hop, KVServer.handle, lookup_put_self hst,
      Option.map_some, Option.getD_some, toUInt64_succ]
  simp [KvState.step, hop, hversion, hanswer, hnext]

/-- A `Put` that is refused leaves the store as it is. -/
theorem step_of_not_stores (hop : inp.op = .put)
    (hst : ¬ kv.Stores ⟨inp.key, inp.value, inp.version, 0⟩) :
    (kv.keyState inp.key).step inp (kv.answer inp) =
      ((kv.store.lookup inp.key).isSome, (kv.next inp).keyState inp.key) := by
  have hversion : (kv.keyState inp.key).version ≠ inp.version := by
    rw [keyState_version]
    exact Ne.symm hst
  have hanswer : (kv.answer inp).err =
      if (kv.store.lookup inp.key).isSome then .errVersion else .errNoKey := by
    simp [KVServer.answer, request, hop, KVServer.handle, put_of_not_stores hst, output]
  have hnext : kv.next inp = kv := by
    simp only [KVServer.next, request, hop, KVServer.handle, put_of_not_stores hst]
  simp only [KvState.step, hop, hversion, if_false, hanswer, hnext]
  cases (kv.store.lookup inp.key).isSome <;> rfl

/-- The model follows the server. -/
theorem step_snd (kv : KVServer) (inp : KvInput) :
    ((kv.keyState inp.key).step inp (kv.answer inp)).2 = (kv.next inp).keyState inp.key := by
  cases hop : inp.op with
  | get => rw [step_get hop]
  | put =>
    by_cases hst : kv.Stores ⟨inp.key, inp.value, inp.version, 0⟩
    · rw [step_of_stores hop hst]
    · rw [step_of_not_stores hop hst]

/-- The model accepts the answer to a call that is not unmatched. -/
theorem step_fst :
    ((kv.keyState inp.key).step inp (kv.answer inp)).1 = true ↔ ¬ kv.Unmatched inp := by
  cases hop : inp.op with
  | get =>
    rw [step_get hop]
    exact iff_of_true rfl fun h => nomatch hop.symm.trans h.1
  | put =>
    by_cases hst : kv.Stores ⟨inp.key, inp.value, inp.version, 0⟩
    · rw [step_of_stores hop hst]
      refine iff_of_true rfl fun ⟨_, hversion, hnone⟩ => hversion ?_
      simpa [KVServer.Stores, KVServer.version, hnone] using hst
    · rw [step_of_not_stores hop hst, Option.isSome_iff_ne_none]
      refine not_congr ⟨fun hnone => ⟨hop, fun hzero => hst ?_, hnone⟩, fun h => h.2.2⟩
      simp [KVServer.Stores, KVServer.version, hnone, hzero]

/-- One call of a sequential history. -/
theorem legal_sequential_cons (kv : KVServer) (inp : KvInput) (rest : List KvInput) (key : String) :
    Legal KvState.step (kv.keyState key) (onKey key (kv.sequential (inp :: rest))) ↔
      (inp.key = key → ¬ kv.Unmatched inp) ∧
        Legal KvState.step ((kv.next inp).keyState key)
          (onKey key ((kv.next inp).sequential rest)) := by
  by_cases hkey : inp.key = key
  · subst hkey
    have hcons : onKey inp.key (kv.sequential (inp :: rest)) =
        (inp, kv.answer inp) :: onKey inp.key ((kv.next inp).sequential rest) := by
      simp [onKey, KVServer.sequential]
    rw [hcons, Legal, step_fst, step_snd]
    simp
  · have hskip : onKey key (kv.sequential (inp :: rest)) =
        onKey key ((kv.next inp).sequential rest) := by
      simp [onKey, KVServer.sequential, hkey]
    rw [hskip, keyState_next_of_ne (Ne.symm hkey)]
    simp [hkey]

theorem legal_sequential (kv : KVServer) (inps : List KvInput) :
    (∀ key, Legal KvState.step (kv.keyState key) (onKey key (kv.sequential inps))) ↔
      kv.AllMatched inps := by
  induction inps generalizing kv with
  | nil => exact iff_of_true (fun _ => trivial) trivial
  | cons inp rest ih =>
    simp only [legal_sequential_cons, forall_and, ih, KVServer.AllMatched, forall_eq']

end Simulation

/-- The model of the checker follows the server from any store: its next state is that of the
requested key, and other keys stay as they are. It accepts the answer unless a `Put` names a
version of an absent key. So it accepts, key by key, exactly the sequential histories without
such a `Put`. -/
theorem checker_simulates (kv : KVServer) (inp : KvInput) (inps : List KvInput) :
    ((kv.keyState inp.key).step inp (kv.answer inp)).2 = (kv.next inp).keyState inp.key ∧
    (∀ key, key ≠ inp.key → (kv.next inp).keyState key = kv.keyState key) ∧
    (((kv.keyState inp.key).step inp (kv.answer inp)).1 = true ↔ ¬ kv.Unmatched inp) ∧
    ((∀ key, Legal KvState.step ⟨"", 0⟩ (onKey key (KVServer.empty.sequential inps))) ↔
      KVServer.empty.AllMatched inps) := by
  have hempty (key : String) : KVServer.empty.keyState key = ⟨"", 0⟩ := by
    simp [KVServer.keyState, KVServer.empty]
  refine ⟨step_snd kv inp, fun key => keyState_next_of_ne, step_fst, ?_⟩
  simpa only [hempty] using legal_sequential KVServer.empty inps

def matchedCalls : List KvInput :=
  [⟨.get, "k", "", 0⟩, ⟨.put, "k", "a", 0⟩, ⟨.put, "j", "b", 0⟩, ⟨.put, "k", "c", 5⟩,
    ⟨.put, "k", "d", 1⟩, ⟨.get, "k", "", 0⟩]

theorem checker_simulates_matched : KVServer.empty.AllMatched matchedCalls ∧
    onKey "j" (KVServer.empty.sequential matchedCalls) = [(⟨.put, "j", "b", 0⟩, ⟨"", 0, .ok⟩)] ∧
    Legal KvState.step ⟨"", 0⟩ (onKey "k" (KVServer.empty.sequential matchedCalls)) := by
  have hmatched : KVServer.empty.AllMatched matchedCalls := by
    simp only [matchedCalls, KVServer.AllMatched]
    decide +kernel
  exact ⟨hmatched, by decide +kernel, (checker_simulates .empty
      ⟨.get, "k", "", 0⟩ matchedCalls).2.2.2.mpr hmatched "k"⟩

/-- The server refuses the first call of all with `ErrNoKey`, and the model does not expect it. -/
theorem checker_rejects_errNoKey :
    (KVServer.empty.answer ⟨.put, "k", "v", 1⟩).err = .errNoKey ∧
    ((KVServer.empty.keyState "k").step ⟨.put, "k", "v", 1⟩
      (KVServer.empty.answer ⟨.put, "k", "v", 1⟩)).1 = false ∧
    ¬ Legal KvState.step ⟨"", 0⟩
      (onKey "k" (KVServer.empty.sequential [⟨.put, "k", "v", 1⟩])) := by
  refine ⟨by decide +kernel, by decide +kernel, fun h => ?_⟩
  have hfirst : ¬ (KvState.step ⟨"", 0⟩ ⟨.put, "k", "v", 1⟩
    (KVServer.empty.answer ⟨.put, "k", "v", 1⟩)).1 = true := by decide +kernel
  exact hfirst h.1

end DistributedLabs.Kvsrv
