import DistributedLabs.LockClients

/-!
# Mutual exclusion of locks

A `Put` with the version of its key was sent by a lock that has seen the content the key
still has: by an `Acquire` that found it free, or by the `Release` of the lock whose value it
is. Hence nothing changes the key while a lock holds it, however late a request is executed.
-/

namespace DistributedLabs.LockClients

open KvServer (Err Tversion PutArgs GetArgs PutReply GetReply)
open KvClerks (KvInput KvOutput)
open Kvsrv TransitionRuns

variable {n : ℕ} {cfg : Setup n}

section Predicates

def Lock.putArgs (lk : Lock) (value : String) (version : Tversion) : PutArgs :=
  ⟨lk.curKey, value, version, 0⟩

/-- The `Put` may be stored now: it takes a free key, or the key of a lock that is in its
`Release`. -/
def Due (clients : Fin n → Client) (kv : KVServer) (args : PutArgs) : Prop :=
  ∀ val, kv.store.lookup args.key = some val →
    (args.value ≠ released ∧ val.value = released) ∨
    (args.value = released ∧ ∃ i, (clients i).lock.curKey = args.key ∧
      (clients i).running = some .releasing ∧
      (clients i).lock.version.toUInt64 = args.version ∧ val.value = (clients i).lock.value)

/-- A `Put` that has not been executed has an old version, or may be stored. -/
structure Fence (clients : Fin n → Client) (kv : KVServer) (args : PutArgs) : Prop where
  old : args.version ≤ kv.version args.key
  due : args.version = kv.version args.key → Due clients kv args

/-- The version of the lock cannot be the version of its key any more, or the key was never
put. -/
def Spent (kv : KVServer) (lk : Lock) : Prop :=
  lk.version.toUInt64 < kv.version lk.curKey ∨ (kv.store.lookup lk.curKey = none ∧ lk.version = 0)

def Owned (kv : KVServer) (lk : Lock) : Prop :=
  kv.store.lookup lk.curKey = some ⟨lk.version, lk.value⟩

/-- The answer to a `Get` is what the server would answer now, or it is out of date and did
not show the lock's own value. -/
def Seen (kv : KVServer) (cl : Client) (rep : GetReply) : Prop :=
  rep = kv.get ⟨cl.lock.curKey⟩ ∨ (rep.version < kv.version cl.lock.curKey ∧
    (rep.err = .ok → rep.value ≠ cl.lock.value) ∧ cl.holds = false)

def Reads (kv : KVServer) (cl : Client) (pend : Pending) : Prop :=
  pend.request = .get ⟨cl.lock.curKey⟩ ∧
    ∀ reply, pend.rpc = .replied reply → ∃ rep, reply = .get rep ∧ Seen kv cl rep

def Writes (clients : Fin n → Client) (kv : KVServer) (args : PutArgs) (pend : Pending) : Prop :=
  pend.request = .put args ∧
    match pend.rpc with
    | .sent => Fence clients kv args
    | .replied reply => (∃ rsp, reply = .put rsp) ∧ args.version < kv.version args.key

def Waits (clients : Fin n → Client) (kv : KVServer) (cl : Client) (pend : Pending) : Phase → Prop
  | .getting => Reads kv cl pend
  | .putting version => cl.holds = false ∧
    Writes clients kv (cl.lock.putArgs cl.lock.value version) pend ∧
    (pend.rpc = .replied (.put ⟨.ok⟩) →
      kv.store.lookup cl.lock.curKey = some ⟨version.toInt64 + 1, cl.lock.value⟩)
  | .checking => cl.holds = false ∧ Reads kv cl pend ∧
    (kv.store.lookup cl.lock.curKey).isSome ∧
    ∀ rep, pend.rpc = .replied (.get rep) → rep.err = .ok
  | .releasing => cl.holds = false ∧
    Writes clients kv (cl.lock.putArgs released cl.lock.version.toUInt64) pend

structure Standing (clients : Fin n → Client) (kv : KVServer) (cl : Client)
    (pend : Option Pending) : Prop where
  owned : cl.holds = true → Owned kv cl.lock
  spent : cl.holds = false → cl.running ≠ some .releasing → Spent kv cl.lock
  idle : cl.running = none → pend = none
  waits : ∀ phase, cl.running = some phase → ∃ p, pend = some p ∧ Waits clients kv cl p phase

structure Safe (cfg : Setup n) (s : System n) : Prop where
  made : ∀ i, (s.clients i).lock.curKey = cfg.name i ∧ (s.clients i).lock.value = cfg.value i
  counted : s.net.server.Counted
  late : ∀ args, .put args ∈ s.net.late → Fence s.clients s.net.server args
  standing : ∀ i, Standing s.clients s.net.server (s.clients i) (s.net.pending i)

end Predicates

theorem safe_initial (cfg : Setup n) : Safe cfg (initial cfg) := by
  refine ⟨fun i => ⟨rfl, rfl⟩, counted_empty, fun args h => ?_, fun i => ⟨?_, ?_, fun _ => rfl, ?_⟩⟩
  · simp [initial, Net.initial] at h
  · simp [initial]
  · intro _ _
    exact .inr ⟨Finmap.lookup_empty _, rfl⟩
  · simp [initial]

theorem Standing.not_releasing {clients : Fin n → Client} {kv : KVServer} {cl : Client}
    {pend : Option Pending} (h : Standing clients kv cl pend) (hh : cl.holds = true) :
    cl.running ≠ some .releasing := by
  intro hrun
  obtain ⟨p, -, hfalse, -⟩ := h.waits _ hrun
  rw [hh] at hfalse
  cases hfalse

section Server

variable {clients : Fin n → Client} {kv : KVServer} {args : PutArgs} {key : String}

theorem get_version (kv : KVServer) (key : String) : (kv.get ⟨key⟩).version = kv.version key := by
  cases h : kv.store.lookup key <;> simp [KVServer.get, KVServer.version, h]

theorem get_congr {kv' : KVServer} (h : kv'.store.lookup key = kv.store.lookup key) :
    kv'.get ⟨key⟩ = kv.get ⟨key⟩ := by
  simp only [KVServer.get, h]

theorem version_congr {kv' : KVServer} (h : kv'.store.lookup key = kv.store.lookup key) :
    kv'.version key = kv.version key := by
  simp only [KVServer.version, h]

/-- What the execution of a `Put` that was fenced does to a key. -/
theorem Fence.put_cases (hf : Fence clients kv args) (hw : ¬ kv.Wraps (.put args)) (key : String) :
    (kv.put args).1.store.lookup key = kv.store.lookup key ∨
      (key = args.key ∧ kv.Stores args ∧ Due clients kv args ∧
        kv.version key < (kv.put args).1.version key) := by
  by_cases hk : key = args.key
  · by_cases hst : kv.Stores args
    · right
      refine ⟨hk, hst, hf.due hst, ?_⟩
      rw [hk, version_put_self hst, ← show args.version = kv.version args.key from hst]
      exact lt_succ_of_ne_zero fun hz => hw ⟨hst, hz⟩
    · left
      rw [put_of_not_stores hst]
  · exact .inl (lookup_put_of_ne hk)

/-- After it was executed, a `Put` has an old version. -/
theorem Fence.executed (hf : Fence clients kv args) (hw : ¬ kv.Wraps (.put args)) :
    args.version < (kv.put args).1.version args.key := by
  by_cases hst : kv.Stores args
  · rw [version_put_self hst]
    exact lt_succ_of_ne_zero fun hz => hw ⟨hst, hz⟩
  · rw [put_of_not_stores hst]
    exact UInt64.lt_of_le_of_ne hf.old hst

/-- Another `Put` stays fenced. -/
theorem Fence.put {args' : PutArgs} (hf' : Fence clients kv args') (hf : Fence clients kv args)
    (hw : ¬ kv.Wraps (.put args)) : Fence clients (kv.put args).1 args' := by
  rcases hf.put_cases hw args'.key with h | ⟨-, -, -, hlt⟩
  · have hver := version_congr h
    refine ⟨hver ▸ hf'.old, fun heq val hval => ?_⟩
    exact hf'.due (heq.trans hver) val (h ▸ hval)
  · have hnew := UInt64.lt_of_le_of_lt hf'.old hlt
    refine ⟨UInt64.le_of_lt hnew, fun heq => ?_⟩
    rw [← heq] at hnew
    exact absurd hnew (UInt64.lt_irrefl _)

theorem Spent.put {lk : Lock} (h : Spent kv lk) (hf : Fence clients kv args)
    (hw : ¬ kv.Wraps (.put args)) : Spent (kv.put args).1 lk := by
  rcases hf.put_cases hw lk.curKey with hsame | ⟨-, -, -, hlt⟩
  · unfold Spent
    rwa [version_congr hsame, hsame]
  · left
    rcases h with h | ⟨hnone, hz⟩
    · exact UInt64.lt_trans h hlt
    · have hver : kv.version lk.curKey = 0 := by simp [KVServer.version, hnone]
      rw [hver] at hlt
      rwa [hz]

/-- Locks of one name are told apart by their values. -/
structure Apart (clients : Fin n → Client) : Prop where
  value : ∀ i j, (clients i).lock.curKey = (clients j).lock.curKey →
    (clients i).lock.value = (clients j).lock.value → i = j
  released : ∀ i, (clients i).lock.value ≠ released

/-- While the key has the value of a lock that is not in its `Release`, it does not change. -/
theorem Fence.put_keeps (hf : Fence clients kv args) (hap : Apart clients)
    (hw : ¬ kv.Wraps (.put args)) {i : Fin n} {val : VersionValue}
    (hrun : (clients i).running ≠ some .releasing)
    (hval : kv.store.lookup (clients i).lock.curKey = some val)
    (hown : val.value = (clients i).lock.value) :
    (kv.put args).1.store.lookup (clients i).lock.curKey =
      kv.store.lookup (clients i).lock.curKey := by
  rcases hf.put_cases hw (clients i).lock.curKey with h | ⟨hk, -, hdue, -⟩
  · exact h
  · exfalso
    rcases hdue val (hk ▸ hval) with ⟨-, hfree⟩ | ⟨-, j, hkey, hrel, -, hj⟩
    · exact hap.released i (hown.symm.trans hfree)
    · obtain rfl := hap.value i j (hk.trans hkey.symm) (hown.symm.trans hj)
      exact hrun hrel

theorem Owned.put {i : Fin n} (h : Owned kv (clients i).lock) (hf : Fence clients kv args)
    (hap : Apart clients) (hw : ¬ kv.Wraps (.put args))
    (hrun : (clients i).running ≠ some .releasing) : Owned (kv.put args).1 (clients i).lock :=
  (hf.put_keeps hap hw hrun h rfl).trans h

theorem Seen.put {i : Fin n} {rep : GetReply} (h : Seen kv (clients i) rep)
    (hf : Fence clients kv args) (hap : Apart clients) (hw : ¬ kv.Wraps (.put args))
    (hrun : (clients i).running ≠ some .releasing)
    (hown : (clients i).holds = true → Owned kv (clients i).lock) :
    Seen (kv.put args).1 (clients i) rep := by
  rcases hf.put_cases hw (clients i).lock.curKey with hsame | ⟨-, -, -, hlt⟩
  · unfold Seen
    rwa [get_congr hsame, version_congr hsame]
  rcases h with rfl | ⟨hver, hval, hholds⟩
  · by_cases hsame : (kv.put args).1.store.lookup (clients i).lock.curKey =
        kv.store.lookup (clients i).lock.curKey
    · exact .inl (get_congr hsame).symm
    · refine .inr ⟨(get_version kv _).symm ▸ hlt, fun hok heq => hsame ?_, ?_⟩
      · cases hval : kv.store.lookup (clients i).lock.curKey with
        | none => simp [KVServer.get, hval] at hok
        | some val =>
          refine (hf.put_keeps hap hw hrun hval ?_).trans hval
          simpa [KVServer.get, hval] using heq
      · refine Bool.eq_false_of_not_eq_true fun hh => hsame ?_
        exact hf.put_keeps hap hw hrun (hown hh) rfl
  · exact .inr ⟨UInt64.lt_trans hver hlt, hval, hholds⟩

theorem Writes.put {args' : PutArgs} {pend : Pending} (h : Writes clients kv args' pend)
    (hf : Fence clients kv args) (hw : ¬ kv.Wraps (.put args)) :
    Writes clients (kv.put args).1 args' pend := by
  refine ⟨h.1, ?_⟩
  have hrest := h.2
  cases hrpc : pend.rpc with
  | sent =>
    rw [hrpc] at hrest
    exact Fence.put hrest hf hw
  | replied reply =>
    rw [hrpc] at hrest
    exact ⟨hrest.1, UInt64.lt_of_lt_of_le hrest.2 (version_le_handle hw args'.key)⟩

theorem Reads.put {i : Fin n} {pend : Pending} (h : Reads kv (clients i) pend)
    (hf : Fence clients kv args) (hap : Apart clients) (hw : ¬ kv.Wraps (.put args))
    (hrun : (clients i).running ≠ some .releasing)
    (hown : (clients i).holds = true → Owned kv (clients i).lock) :
    Reads (kv.put args).1 (clients i) pend := by
  refine ⟨h.1, fun reply hrep => ?_⟩
  obtain ⟨rep, rfl, hseen⟩ := h.2 reply hrep
  exact ⟨rep, rfl, hseen.put hf hap hw hrun hown⟩

/-- The execution of a fenced `Put` leaves a lock that waits where it stands. -/
theorem Standing.put {i : Fin n} {pend : Option Pending} (h : Standing clients kv (clients i) pend)
    (hf : Fence clients kv args) (hap : Apart clients) (hw : ¬ kv.Wraps (.put args)) :
    Standing clients (kv.put args).1 (clients i) pend := by
  refine ⟨fun hh => (h.owned hh).put hf hap hw (h.not_releasing hh),
    fun hh hrun => (h.spent hh hrun).put hf hw, h.idle, fun phase hphase => ?_⟩
  obtain ⟨p, hp, hwait⟩ := h.waits phase hphase
  refine ⟨p, hp, ?_⟩
  cases phase with
  | getting => exact Reads.put hwait hf hap hw (by simp [hphase]) h.owned
  | putting version =>
    refine ⟨hwait.1, hwait.2.1.put hf hw, fun hok => ?_⟩
    have hval := hwait.2.2 hok
    exact (hf.put_keeps hap hw (by simp [hphase]) hval rfl).trans hval
  | checking =>
    exact ⟨hwait.1, hwait.2.1.put hf hap hw (by simp [hphase]) h.owned, isSome_put hwait.2.2.1,
      hwait.2.2.2⟩
  | releasing => exact ⟨hwait.1, hwait.2.put hf hw⟩

end Server

section Clients

variable {clients : Fin n → Client} {kv : KVServer} {args : PutArgs} {i : Fin n} {cl : Client}

/-- A lock that is in its `Release` leaves it only with an old version. -/
def Leaves (clients : Fin n → Client) (kv : KVServer) (i : Fin n) : Prop :=
  (clients i).running = some .releasing →
    (clients i).lock.version.toUInt64 < kv.version (clients i).lock.curKey

theorem Fence.update (hf : Fence clients kv args) (hleave : Leaves clients kv i) :
    Fence (Function.update clients i cl) kv args := by
  refine ⟨hf.old, fun heq val hval => ?_⟩
  rcases hf.due heq val hval with h | ⟨hrel, j, hkey, hrun, hver, hj⟩
  · exact .inl h
  · refine .inr ⟨hrel, j, ?_⟩
    have hji : j ≠ i := by
      rintro rfl
      have hlt := hleave hrun
      rw [hver, heq, hkey] at hlt
      exact UInt64.lt_irrefl _ hlt
    rw [Function.update_of_ne hji]
    exact ⟨hkey, hrun, hver, hj⟩

theorem Writes.update {pend : Pending} (h : Writes clients kv args pend)
    (hleave : Leaves clients kv i) : Writes (Function.update clients i cl) kv args pend := by
  refine ⟨h.1, ?_⟩
  have hrest := h.2
  cases hrpc : pend.rpc with
  | sent =>
    rw [hrpc] at hrest
    exact Fence.update hrest hleave
  | replied reply =>
    rw [hrpc] at hrest
    exact hrest

theorem Waits.update {cl' : Client} {pend : Pending} {phase : Phase}
    (h : Waits clients kv cl' pend phase) (hleave : Leaves clients kv i) :
    Waits (Function.update clients i cl) kv cl' pend phase := by
  cases phase with
  | getting => exact h
  | putting version => exact ⟨h.1, h.2.1.update hleave, h.2.2⟩
  | checking => exact h
  | releasing => exact ⟨h.1, h.2.update hleave⟩

theorem Standing.update {cl' : Client} {pend : Option Pending} (h : Standing clients kv cl' pend)
    (hleave : Leaves clients kv i) : Standing (Function.update clients i cl) kv cl' pend := by
  refine ⟨h.owned, h.spent, h.idle, fun phase hphase => ?_⟩
  obtain ⟨p, hp, hwait⟩ := h.waits phase hphase
  exact ⟨p, hp, hwait.update hleave⟩

end Clients

section Requests

variable {clients : Fin n → Client} {kv : KVServer} {req : Request} {i : Fin n}

/-- A request that has not been executed is a `Get`, or it is fenced. -/
def Fenced (clients : Fin n → Client) (kv : KVServer) (req : Request) : Prop :=
  ∀ args, req = .put args → Fence clients kv args

theorem Fence.handle {args : PutArgs} (hf : Fence clients kv args) (hreq : Fenced clients kv req)
    (hw : ¬ kv.Wraps req) : Fence clients (kv.handle req).1 args := by
  cases req with
  | get args' => exact hf
  | put args' => exact hf.put (hreq args' rfl) hw

theorem Standing.handle {pend : Option Pending} (h : Standing clients kv (clients i) pend)
    (hreq : Fenced clients kv req) (hap : Apart clients) (hw : ¬ kv.Wraps req) :
    Standing clients (kv.handle req).1 (clients i) pend := by
  cases req with
  | get args => exact h
  | put args => exact h.put (hreq args rfl) hap hw

theorem Reads.fenced {cl : Client} {pend : Pending} (h : Reads kv cl pend) :
    Fenced clients kv pend.request := by
  intro args hargs
  rw [h.1] at hargs
  cases hargs

theorem Writes.fenced {args : PutArgs} {pend : Pending} (h : Writes clients kv args pend)
    (hsent : pend.rpc = .sent) : Fenced clients kv pend.request := by
  intro args' hargs
  obtain ⟨hreq, hrest⟩ := h
  rw [hreq] at hargs
  cases hargs
  rwa [hsent] at hrest

/-- The request of a lock that waits is fenced until it is executed. -/
theorem Waits.fenced {cl : Client} {pend : Pending} {phase : Phase}
    (h : Waits clients kv cl pend phase) (hsent : pend.rpc = .sent) :
    Fenced clients kv pend.request := by
  cases phase with
  | getting => exact Reads.fenced h
  | putting version => exact h.2.1.fenced hsent
  | checking => exact h.2.1.fenced
  | releasing => exact h.2.fenced hsent

theorem Reads.execute {cl : Client} {pend : Pending} (h : Reads kv cl pend) :
    Reads (kv.handle pend.request).1 cl
      { pend with rpc := .replied (kv.handle pend.request).2 } := by
  refine ⟨h.1, fun reply hreply => ?_⟩
  obtain rfl := Rpc.replied.inj hreply
  rw [h.1]
  exact ⟨_, rfl, .inl rfl⟩

theorem Writes.execute {args : PutArgs} {pend : Pending} (h : Writes clients kv args pend)
    (hsent : pend.rpc = .sent) (hw : ¬ kv.Wraps pend.request) :
    Writes clients (kv.handle pend.request).1 args
      { pend with rpc := .replied (kv.handle pend.request).2 } := by
  have hf := h.fenced hsent args h.1
  rw [h.1] at hw ⊢
  exact ⟨rfl, ⟨_, rfl⟩, hf.executed hw⟩

theorem Standing.fenced {pend : Pending} (h : Standing clients kv (clients i) (some pend))
    (hsent : pend.rpc = .sent) : Fenced clients kv pend.request := by
  cases hrun : (clients i).running with
  | none => cases h.idle hrun
  | some phase =>
    obtain ⟨p, hp, hwait⟩ := h.waits phase hrun
    obtain rfl := Option.some.inj hp
    exact hwait.fenced hsent

/-- The lock whose request is executed. -/
theorem Standing.execute {pend : Pending} (h : Standing clients kv (clients i) (some pend))
    (hsent : pend.rpc = .sent) (hap : Apart clients) (hw : ¬ kv.Wraps pend.request) :
    Standing clients (kv.handle pend.request).1 (clients i)
      (some { pend with rpc := .replied (kv.handle pend.request).2 }) := by
  cases hrun : (clients i).running with
  | none => cases h.idle hrun
  | some phase =>
    obtain ⟨p, hp, hwait⟩ := h.waits phase hrun
    obtain rfl := Option.some.inj hp
    have hnext := h.handle (hwait.fenced hsent) hap hw
    refine ⟨hnext.owned, hnext.spent, fun hnone => ?_, fun phase' hphase' => ⟨_, rfl, ?_⟩⟩
    · rw [hrun] at hnone
      cases hnone
    · obtain rfl := Option.some.inj (hrun.symm.trans hphase')
      cases phase with
      | getting => exact Reads.execute hwait
      | putting version =>
        refine ⟨hwait.1, hwait.2.1.execute hsent hw, fun hok => ?_⟩
        rw [hwait.2.1.1] at hok ⊢
        exact lookup_put_self (stores_of_ok (Reply.put.inj (Rpc.replied.inj hok)))
      | checking =>
        obtain ⟨hholds, hreads, hsome, -⟩ := hwait
        refine ⟨hholds, hreads.execute, ?_, fun rep hrep => ?_⟩
        · rw [hreads.1]
          exact hsome
        · obtain ⟨val, hval⟩ := Option.isSome_iff_exists.mp hsome
          rw [hreads.1] at hrep
          rw [← Reply.get.inj (Rpc.replied.inj hrep), KVServer.get, hval]
      | releasing => exact ⟨hwait.1, hwait.2.execute hsent hw⟩

/-- A lock whose `Call` returned false sends its request again. -/
theorem Writes.resend {args : PutArgs} {pend : Pending} (h : Writes clients kv args pend) :
    Writes clients kv args { pend with firstPut := false, rpc := .sent } := by
  refine ⟨h.1, ?_⟩
  have hrest := h.2
  cases hrpc : pend.rpc with
  | sent =>
    rw [hrpc] at hrest
    exact hrest
  | replied reply =>
    rw [hrpc] at hrest
    refine ⟨UInt64.le_of_lt hrest.2, fun heq => ?_⟩
    exact absurd (heq ▸ hrest.2) (UInt64.lt_irrefl _)

theorem Standing.resend {pend : Pending} (h : Standing clients kv (clients i) (some pend)) :
    Standing clients kv (clients i) (some { pend with firstPut := false, rpc := .sent }) := by
  refine ⟨h.owned, h.spent, fun hnone => (Option.some_ne_none _ (h.idle hnone)).elim,
    fun phase hphase => ⟨_, rfl, ?_⟩⟩
  obtain ⟨p, hp, hwait⟩ := h.waits phase hphase
  obtain rfl := Option.some.inj hp
  cases phase with
  | getting => exact ⟨hwait.1, nofun⟩
  | putting version => exact ⟨hwait.1, hwait.2.1.resend, nofun⟩
  | checking => exact ⟨hwait.1, ⟨hwait.2.1.1, nofun⟩, hwait.2.2.1, nofun⟩
  | releasing => exact ⟨hwait.1, hwait.2.resend⟩

end Requests

section Steps

variable {s t : System n}

theorem Safe.apart (hs : Safe cfg s) (hd : cfg.Distinct) : Apart s.clients := by
  refine ⟨fun i j hkey hval => ?_, fun i => ?_⟩
  · rw [(hs.made i).1, (hs.made j).1] at hkey
    rw [(hs.made i).2, (hs.made j).2] at hval
    exact hd.value i j hkey hval
  · rw [(hs.made i).2]
    exact hd.released i

theorem Safe.execute (hs : Safe cfg s) (hd : cfg.Distinct) {k : Fin n} {pend : Pending}
    (hk : s.net.pending k = some pend) (hsent : pend.rpc = .sent)
    (hw : ¬ s.net.server.Wraps pend.request) :
    Safe cfg { s with net :=
      { s.net.setPending k (some { pend with rpc := .replied (s.net.server.handle pend.request).2 })
        with server := (s.net.server.handle pend.request).1 } } := by
  have hstand := hs.standing k
  rw [hk] at hstand
  have hreq := hstand.fenced hsent
  refine ⟨hs.made, hs.counted.handle hw, fun args hargs => (hs.late args hargs).handle hreq hw,
    fun i => ?_⟩
  change Standing _ _ _ (Function.update s.net.pending k _ i)
  by_cases hik : i = k
  · subst hik
    rw [Function.update_self]
    exact hstand.execute hsent (hs.apart hd) hw
  · rw [Function.update_of_ne hik]
    exact (hs.standing i).handle hreq (hs.apart hd) hw

theorem Safe.late_execute (hs : Safe cfg s) (hd : cfg.Distinct) {i : ℕ} {req : Request}
    (hi : s.net.late[i]? = some req) (hw : ¬ s.net.server.Wraps req) :
    Safe cfg { s with net :=
      { s.net with server := (s.net.server.handle req).1, late := s.net.late.eraseIdx i } } := by
  have hreq : Fenced s.clients s.net.server req := fun args hargs =>
    hs.late args (hargs ▸ List.mem_of_getElem? hi)
  refine ⟨hs.made, hs.counted.handle hw, fun args hargs => ?_,
    fun j => (hs.standing j).handle hreq (hs.apart hd) hw⟩
  exact (hs.late args (List.mem_of_mem_eraseIdx hargs)).handle hreq hw

theorem Safe.fail (hs : Safe cfg s) {k : Fin n} {pend : Pending}
    (hk : s.net.pending k = some pend) :
    Safe cfg { s with net :=
      { s.net.setPending k (some { pend with firstPut := false, rpc := .sent }) with
        late := match pend.rpc with
          | .sent => s.net.late ++ [pend.request]
          | .replied _ => s.net.late } } := by
  have hstand := hs.standing k
  rw [hk] at hstand
  refine ⟨hs.made, hs.counted, fun args hargs => ?_, fun i => ?_⟩
  · cases hrpc : pend.rpc with
    | replied reply =>
      simp only [hrpc] at hargs
      exact hs.late args hargs
    | sent =>
      simp only [hrpc] at hargs
      rcases List.mem_append.mp hargs with hargs | hargs
      · exact hs.late args hargs
      · exact hstand.fenced hrpc args (List.mem_singleton.mp hargs).symm
  · change Standing _ _ _ (Function.update s.net.pending k _ i)
    by_cases hik : i = k
    · subst hik
      rw [Function.update_self]
      exact hstand.resend
    · rw [Function.update_of_ne hik]
      exact hs.standing i

/-- A lock goes on; the server and the other locks stay as they are. -/
theorem Safe.move (hs : Safe cfg s) {i : Fin n} {cl : Client} {pend : Option Pending}
    (hkey : cl.lock.curKey = (s.clients i).lock.curKey)
    (hval : cl.lock.value = (s.clients i).lock.value)
    (hleave : Leaves s.clients s.net.server i)
    (hnew : Standing (Function.update s.clients i cl) s.net.server cl pend) :
    Safe cfg ⟨s.net.setPending i pend, Function.update s.clients i cl⟩ := by
  refine ⟨fun j => ?_, hs.counted, fun args hargs => (hs.late args hargs).update hleave,
    fun j => ?_⟩
  · change (Function.update s.clients i cl j).lock.curKey = _ ∧
      (Function.update s.clients i cl j).lock.value = _
    by_cases hji : j = i
    · subst hji
      rw [Function.update_self, hkey, hval]
      exact hs.made j
    · rw [Function.update_of_ne hji]
      exact hs.made j
  · change Standing _ _ (Function.update s.clients i cl j) (Function.update s.net.pending i pend j)
    by_cases hji : j = i
    · subst hji
      rw [Function.update_self, Function.update_self]
      exact hnew
    · rw [Function.update_of_ne hji, Function.update_of_ne hji]
      exact (hs.standing j).update hleave

theorem Safe.get (hs : Safe cfg s) {i : Fin n} {holds : Bool}
    (howned : holds = true → Owned s.net.server (s.clients i).lock)
    (hspent : holds = false → Spent s.net.server (s.clients i).lock)
    (hleave : Leaves s.clients s.net.server i) :
    Safe cfg (s.send i .getting holds (s.clients i).lock.get) := by
  refine hs.move rfl rfl hleave
    ⟨howned, fun hh _ => hspent hh, nofun, fun phase hphase => ⟨_, rfl, ?_⟩⟩
  obtain rfl := Option.some.inj hphase
  exact ⟨rfl, nofun⟩

theorem Safe.acquire (hs : Safe cfg s) {i : Fin n} (hrun : (s.clients i).running = none) :
    Safe cfg (s.send i .getting (s.clients i).holds (s.clients i).lock.get) :=
  hs.get (hs.standing i).owned (fun hh => (hs.standing i).spent hh (by simp [hrun]))
    (fun h => by simp [hrun] at h)

/-- The `Put` of a `Release` is fenced, whether the lock holds or not. -/
theorem Safe.release (hs : Safe cfg s) {i : Fin n} (hrun : (s.clients i).running = none) :
    Safe cfg (s.send i .releasing false
      ((s.clients i).lock.put released (s.clients i).lock.version.toUInt64)) := by
  refine hs.move rfl rfl (fun h => by simp [hrun] at h)
    ⟨nofun, fun _ h => absurd rfl h, nofun, fun phase hphase => ⟨_, rfl, ?_⟩⟩
  obtain rfl := Option.some.inj hphase
  refine ⟨rfl, rfl, ?_⟩
  cases hh : (s.clients i).holds with
  | true =>
    have hown : Owned s.net.server (s.clients i).lock := (hs.standing i).owned hh
    have hver : s.net.server.version (s.clients i).lock.curKey =
        (s.clients i).lock.version.toUInt64 := by
      rw [KVServer.version, hown]
      rfl
    refine ⟨UInt64.le_of_eq hver.symm, fun _ val hval => .inr ⟨rfl, i, ?_⟩⟩
    rw [Function.update_self]
    obtain rfl := Option.some.inj (hown.symm.trans hval)
    exact ⟨rfl, rfl, rfl, rfl⟩
  | false =>
    rcases (hs.standing i).spent hh (by simp [hrun]) with hlt | ⟨hnone, hzero⟩
    · refine ⟨UInt64.le_of_lt hlt, fun heq => ?_⟩
      change (s.clients i).lock.version.toUInt64 = _ at heq
      rw [heq] at hlt
      exact absurd hlt (UInt64.lt_irrefl _)
    · refine ⟨?_, fun _ val hval => ?_⟩
      · change (s.clients i).lock.version.toUInt64 ≤ _
        rw [hzero]
        exact UInt64.zero_le
      · cases show none = some val from hnone.symm.trans hval

/-- `Acquire` has its lock. -/
theorem Safe.acquired (hs : Safe cfg s) {i : Fin n} {version : Int64}
    (hleave : Leaves s.clients s.net.server i)
    (hown : s.net.server.store.lookup (s.clients i).lock.curKey =
      some ⟨version, (s.clients i).lock.value⟩) : Safe cfg (s.return i version true) :=
  hs.move rfl rfl hleave ⟨fun _ => hown, nofun, fun _ => rfl, nofun⟩

section Resume

variable {i : Fin n} {version : Tversion} {out : KvOutput}

theorem resume_free (h : out.err = .errNoKey ∨ out.value = released) : s.resume i .getting out =
    s.send i (.putting out.version) (s.clients i).holds
      ((s.clients i).lock.put (s.clients i).lock.value out.version) := if_pos h

theorem resume_taken (h : ¬ (out.err = .errNoKey ∨ out.value = released)) :
    s.resume i .getting out = s.send i .getting (s.clients i).holds (s.clients i).lock.get :=
  if_neg h

theorem resume_ok (h : out.err = .ok) :
    s.resume i (.putting version) out = s.return i (version.toInt64 + 1) true := if_pos h

theorem resume_maybe (h : out.err = .errMaybe) : s.resume i (.putting version) out =
    s.send i .checking (s.clients i).holds (s.clients i).lock.get :=
  (if_neg (by rw [h]; decide)).trans (if_pos h)

theorem resume_lost (h : out.err ≠ .ok) (h' : out.err ≠ .errMaybe) :
    s.resume i (.putting version) out =
      s.send i .getting (s.clients i).holds (s.clients i).lock.get :=
  (if_neg h).trans (if_neg h')

theorem resume_own (h : out.value = (s.clients i).lock.value) :
    s.resume i .checking out = s.return i out.version.toInt64 true := if_pos h

theorem resume_other (h : out.value ≠ (s.clients i).lock.value) : s.resume i .checking out =
    s.send i .getting (s.clients i).holds (s.clients i).lock.get := if_neg h

end Resume

/-- A lock that holds reads its own value. -/
theorem Seen.own {kv : KVServer} {cl : Client} {rep : GetReply} (h : Seen kv cl rep)
    (hholds : cl.holds = true) (hown : Owned kv cl.lock) :
    rep.err = .ok ∧ rep.value = cl.lock.value := by
  rcases h with rfl | ⟨-, -, hfalse⟩
  · rw [KVServer.get, hown]
    exact ⟨rfl, rfl⟩
  · rw [hholds] at hfalse
    cases hfalse

/-- The `Put` after a `Get` that found the key free is fenced. -/
theorem Seen.fence {clients : Fin n → Client} {kv : KVServer} {cl : Client} {rep : GetReply}
    (h : Seen kv cl rep) (hfree : rep.err = .errNoKey ∨ rep.value = released)
    (hne : cl.lock.value ≠ released) :
    Fence clients kv (cl.lock.putArgs cl.lock.value rep.version) := by
  rcases h with rfl | ⟨hlt, -, -⟩
  · refine ⟨UInt64.le_of_eq (get_version kv _), fun _ val hval => .inl ⟨hne, ?_⟩⟩
    rw [KVServer.get, show kv.store.lookup cl.lock.curKey = some val from hval] at hfree
    rcases hfree with herr | hrel
    · cases herr
    · exact hrel
  · refine ⟨UInt64.le_of_lt hlt, fun heq => ?_⟩
    rw [show rep.version = kv.version cl.lock.curKey from heq] at hlt
    exact absurd hlt (UInt64.lt_irrefl _)

theorem Safe.reply_getting (hs : Safe cfg s) (hd : cfg.Distinct) {i : Fin n}
    {rep : GetReply} (hrun : (s.clients i).running = some .getting)
    (hseen : Seen s.net.server (s.clients i) rep) (firstPut : Bool) :
    Safe cfg (s.resume i .getting (output firstPut (.get rep))) := by
  have hleave : Leaves s.clients s.net.server i := fun h => by simp [hrun] at h
  have hstand := hs.standing i
  have hspent : (s.clients i).holds = false → Spent s.net.server (s.clients i).lock :=
    fun hh => hstand.spent hh (by simp [hrun])
  by_cases hfree : rep.err = .errNoKey ∨ rep.value = released
  · have hne := (hs.apart hd).released i
    have hholds : (s.clients i).holds = false := by
      refine Bool.eq_false_of_not_eq_true fun hh => ?_
      obtain ⟨hok, hval⟩ := hseen.own hh (hstand.owned hh)
      rcases hfree with herr | hrel
      · rw [hok] at herr
        cases herr
      · exact hne (hval.symm.trans hrel)
    rw [resume_free hfree]
    refine hs.move rfl rfl hleave
      ⟨hstand.owned, fun hh _ => hspent hh, nofun, fun phase hphase => ⟨_, rfl, ?_⟩⟩
    obtain rfl := Option.some.inj hphase
    exact ⟨hholds, ⟨rfl, (hseen.fence hfree hne).update hleave⟩, nofun⟩
  · rw [resume_taken hfree]
    exact hs.get hstand.owned hspent hleave

theorem eq_ok_of_output {firstPut : Bool} {rsp : PutReply}
    (h : (output firstPut (.put rsp)).err = .ok) : rsp = ⟨.ok⟩ := by
  simp only [output] at h
  split_ifs at h
  rw [← h]

theorem isSome_of_lt_version {kv : KVServer} {key : String} {version : Tversion}
    (h : version < kv.version key) : (kv.store.lookup key).isSome := by
  cases hval : kv.store.lookup key with
  | some val => rfl
  | none =>
    rw [KVServer.version, hval] at h
    exact absurd h UInt64.not_lt_zero

theorem Safe.reply_putting (hs : Safe cfg s) {i : Fin n} {pend : Pending}
    {version : Tversion} {reply : Reply} (hrun : (s.clients i).running = some (.putting version))
    (hwait : Waits s.clients s.net.server (s.clients i) pend (.putting version))
    (hrep : pend.rpc = .replied reply) :
    Safe cfg (s.resume i (.putting version) (output pend.firstPut reply)) := by
  have hleave : Leaves s.clients s.net.server i := fun h => by simp [hrun] at h
  have hstand := hs.standing i
  have hspent : (s.clients i).holds = false → Spent s.net.server (s.clients i).lock :=
    fun hh => hstand.spent hh (by simp [hrun])
  have hrest := hwait.2.1.2
  rw [hrep] at hrest
  obtain ⟨⟨rsp, rfl⟩, hlt⟩ := hrest
  by_cases hok : (output pend.firstPut (.put rsp)).err = .ok
  · rw [resume_ok hok]
    exact hs.acquired hleave (hwait.2.2 (by rw [hrep, eq_ok_of_output hok]))
  by_cases hmaybe : (output pend.firstPut (.put rsp)).err = .errMaybe
  · rw [resume_maybe hmaybe]
    refine hs.move rfl rfl hleave
      ⟨hstand.owned, fun hh _ => hspent hh, nofun, fun phase hphase => ⟨_, rfl, ?_⟩⟩
    obtain rfl := Option.some.inj hphase
    exact ⟨hwait.1, ⟨rfl, nofun⟩, isSome_of_lt_version hlt, nofun⟩
  · rw [resume_lost hok hmaybe]
    exact hs.get hstand.owned hspent hleave

theorem Safe.reply_checking (hs : Safe cfg s) {i : Fin n} {pend : Pending} {reply : Reply}
    (hrun : (s.clients i).running = some .checking)
    (hwait : Waits s.clients s.net.server (s.clients i) pend .checking)
    (hrep : pend.rpc = .replied reply) :
    Safe cfg (s.resume i .checking (output pend.firstPut reply)) := by
  have hleave : Leaves s.clients s.net.server i := fun h => by simp [hrun] at h
  have hstand := hs.standing i
  obtain ⟨hholds, hreads, hsome, herr⟩ := hwait
  obtain ⟨rep, rfl, hseen⟩ := hreads.2 reply hrep
  by_cases hval : rep.value = (s.clients i).lock.value
  · rw [resume_own hval]
    refine hs.acquired hleave ?_
    obtain ⟨val, hlook⟩ := Option.isSome_iff_exists.mp hsome
    rcases hseen with rfl | ⟨-, hother, -⟩
    · simp only [KVServer.get, hlook] at hval
      simp only [KVServer.get, hlook, output, ← hval, Int64.toInt64_toUInt64]
    · exact absurd hval (hother (herr rep hrep))
  · rw [resume_other hval]
    exact hs.get hstand.owned (fun hh => hstand.spent hh (by simp [hrun])) hleave

theorem Safe.reply_releasing (hs : Safe cfg s) {i : Fin n} {pend : Pending} {reply : Reply}
    (hwait : Waits s.clients s.net.server (s.clients i) pend .releasing)
    (hrep : pend.rpc = .replied reply) (out : KvOutput) :
    Safe cfg (s.resume i .releasing out) := by
  have hrest := hwait.2.2
  rw [hrep] at hrest
  change Safe cfg (s.return i (s.clients i).lock.version (s.clients i).holds)
  refine hs.move rfl rfl (fun _ => hrest.2)
    ⟨fun hh => ?_, fun _ _ => .inl hrest.2, fun _ => rfl, nofun⟩
  exact (hs.standing i).owned hh

/-- A lock goes on with an answer. -/
theorem Safe.reply (hs : Safe cfg s) (hd : cfg.Distinct) {i : Fin n} {out : KvOutput}
    {phase : Phase} (hans : s.net.answer i = some out)
    (hrun : (s.clients i).running = some phase) : Safe cfg (s.resume i phase out) := by
  obtain ⟨pend, hpend, hout⟩ := Option.bind_eq_some_iff.mp hans
  obtain ⟨p, hp, hwait⟩ := (hs.standing i).waits phase hrun
  obtain rfl := Option.some.inj (hpend.symm.trans hp)
  cases hrep : pend.rpc with
  | sent => simp [hrep] at hout
  | replied reply =>
    obtain rfl : output pend.firstPut reply = out := by simpa [hrep] using hout
    cases phase with
    | getting =>
      obtain ⟨rep, rfl, hseen⟩ := hwait.2 reply hrep
      exact hs.reply_getting hd hrun hseen _
    | putting version => exact hs.reply_putting hrun hwait hrep
    | checking => exact hs.reply_checking hrun hwait hrep
    | releasing => exact hs.reply_releasing hwait hrep _

theorem Safe.step (hs : Safe cfg s) (hd : cfg.Distinct) {e : Event n} (hw : NoWrap s e)
    (h : s.step? e = some t) : Safe cfg t := by
  cases step_action h with
  | acquire hrun => exact hs.acquire hrun
  | release hrun => exact hs.release hrun
  | reply hans hrun => exact hs.reply hd hans hrun
  | net hnet => cases hnet with
    | execute hpend hrpc =>
      exact hs.execute hd hpend hrpc (hw _ (Net.executes_of_sent hpend hrpc))
    | fail hpend => exact hs.fail hpend
    | late hreq => exact hs.late_execute hd hreq (hw _ hreq)

theorem safe_of_reached (hd : cfg.Distinct) (hs : Reached cfg NoWrap s) : Safe cfg s := by
  refine Reachable.invariant (I := Safe cfg) hs (fun s hs => ?_) ?_
  · rw [hs]
    exact safe_initial cfg
  · rintro s t - ih ⟨e, hw, hstep⟩
    exact ih.step hd hw hstep

end Steps

/-- As long as no version wraps, at most one lock of a name is between the return of its
`Acquire` and the start of its `Release`. -/
theorem mutual_exclusion {n : ℕ} {cfg : Setup n} (hd : cfg.Distinct) {s : System n}
    (hs : Reached cfg NoWrap s) (name : String) :
    {i | cfg.name i = name ∧ (s.clients i).holds = true}.Subsingleton := by
  rintro i ⟨hi, hholds⟩ j ⟨hj, hholds'⟩
  have hsafe := safe_of_reached hd hs
  have hown : Owned s.net.server (s.clients i).lock := (hsafe.standing i).owned hholds
  have hown' : Owned s.net.server (s.clients j).lock := (hsafe.standing j).owned hholds'
  unfold Owned at hown hown'
  rw [(hsafe.made i).1, (hsafe.made i).2, hi] at hown
  rw [(hsafe.made j).1, (hsafe.made j).2, hj, hown] at hown'
  exact hd.value i j (hi.trans hj.symm) (VersionValue.mk.inj (Option.some.inj hown')).2

def twoLocks : Setup 2 := ⟨fun _ => "l", fun i => if i = 0 then "a" else "b"⟩

theorem twoLocks_distinct : twoLocks.Distinct := ⟨by decide +kernel, by decide +kernel⟩

/-- Both locks find the key absent. The first one loses a request and then an answer, and
finds out by reading that it has the key; the lost request is executed last. -/
def contendedRun : List (Event 2) :=
  [.acquire 0, .acquire 1, .net (.execute 0), .reply 0, .net (.execute 1), .reply 1,
    .net (.fail 0), .net (.execute 0), .net (.fail 0), .net (.execute 0), .reply 0,
    .net (.execute 1), .reply 1, .net (.execute 0), .reply 0, .net (.late 0)]

theorem mutual_exclusion_contended : ∃ s, Reached twoLocks NoWrap s ∧
    (s.clients 0).holds = true ∧ (s.clients 1).running = some .getting ∧
    {i | twoLocks.name i = "l" ∧ (s.clients i).holds = true}.Subsingleton := by
  have hrun : ((initial twoLocks).run NoWrap contendedRun).any
      (fun s => (s.clients 0).holds ∧ (s.clients 1).running = some .getting) = true := by
    decide +kernel
  obtain ⟨s, hsteps, htest⟩ := System.exists_of_run hrun
  have hs : Reached twoLocks NoWrap s := ⟨_, rfl, hsteps⟩
  obtain ⟨hholds, hgetting⟩ := of_decide_eq_true htest
  exact ⟨s, hs, hholds, hgetting, mutual_exclusion twoLocks_distinct hs "l"⟩

section AtOnce

open Relation

variable {s : System n} {i : Fin n}

def System.taken (s : System n) (i : Fin n) : System n where
  net := { s.net with server := (s.net.server.put ((s.clients i).lock.putArgs
    (s.clients i).lock.value (s.net.server.version (s.clients i).lock.curKey))).1 }
  clients := Function.update s.clients i ⟨{ (s.clients i).lock with
    version := (s.net.server.version (s.clients i).lock.curKey).toInt64 + 1 }, none, true⟩

def System.given (s : System n) (i : Fin n) : System n where
  net := { s.net with server := (s.net.server.put ((s.clients i).lock.putArgs released
    (s.clients i).lock.version.toUInt64)).1 }
  clients := Function.update s.clients i ⟨(s.clients i).lock, none, false⟩

theorem acquire_at_once (hfree : (s.net.server.get ⟨(s.clients i).lock.curKey⟩).err = .errNoKey ∨
      (s.net.server.get ⟨(s.clients i).lock.curKey⟩).value = released)
    (hrun : (s.clients i).running = none) (hpend : s.net.pending i = none) :
    ReflTransGen (Step AnyEvent) s (s.taken i) := by
  have hidle : Function.update s.net.pending i none = s.net.pending := by
    rw [← hpend, Function.update_eq_self]
  have hstores : s.net.server.Stores ⟨(s.clients i).lock.curKey, (s.clients i).lock.value,
      s.net.server.version (s.clients i).lock.curKey, 0⟩ := rfl
  have hput := put_of_stores hstores
  have hsteps : s.run AnyEvent [.acquire i, .net (.execute i), .reply i, .net (.execute i),
      .reply i] = some (s.taken i) := by
    simp only [System.run, exec, AnyEvent, System.step?, hrun, System.send, Net.call, Net.step?,
      Net.setPending, Net.answer, System.resume, System.return, hidle, request, Lock.get,
      Lock.put, KVServer.handle, output, System.taken, Lock.putArgs, Function.update_self,
      Function.update_idem, Option.bind_some, Option.map_some, if_true, hfree, get_version, hput]
    rfl
  exact System.steps_of_run hsteps

theorem release_run (hrun : (s.clients i).running = none) (hpend : s.net.pending i = none) :
    s.run AnyEvent [.release i, .net (.execute i), .reply i] = some (s.given i) := by
  have hidle : Function.update s.net.pending i none = s.net.pending := by
    rw [← hpend, Function.update_eq_self]
  simp only [System.run, exec, AnyEvent, System.step?, hrun, System.send, Net.call, Net.step?,
    Net.setPending, Net.answer, System.resume, System.return, hidle, request, Lock.put,
    KVServer.handle, output, System.given, Lock.putArgs, Function.update_self,
    Function.update_idem, Option.bind_some, Option.map_some, if_true]

theorem release_at_once (hrun : (s.clients i).running = none) (hpend : s.net.pending i = none) :
    ReflTransGen (Step AnyEvent) s (s.given i) := System.steps_of_run (release_run hrun hpend)

end AtOnce

section Wrapping

open Relation

variable {first : Client} {late : List Request} {version : Tversion}

/-- The key is free at some version, the second lock is in no method, and the first lock and
the requests on their way are as given. -/
structure Turned (first : Client) (late : List Request) (version : Tversion) (s : System 2) :
    Prop where
  reached : Reached twoLocks AnyEvent s
  net : s.net = ⟨single "l" released version, fun _ => none, late⟩
  first : s.clients 0 = first
  second : (s.clients 1).lock.curKey = "l" ∧ (s.clients 1).running = none

def givenAgain : List (Event 2) := [.release 0, .net (.fail 0), .net (.execute 0), .reply 0]

theorem exists_turned :
    ∃ s, Turned ⟨⟨"l", 1, "a"⟩, none, false⟩ [.put ⟨"l", released, 1, 0⟩] 2 s := by
  have hacq := acquire_at_once (s := initial twoLocks) (i := 0) (.inl rfl) rfl rfl
  have htaken : (initial twoLocks).taken 0 = ⟨⟨single "l" "a" 1, fun _ => none, []⟩,
      Function.update (initial twoLocks).clients 0 ⟨⟨"l", 1, "a"⟩, none, true⟩⟩ := rfl
  have hrel : ((initial twoLocks).taken 0).run AnyEvent givenAgain =
      some ⟨⟨single "l" released 2, fun _ => none, [.put ⟨"l", released, 1, 0⟩]⟩,
        Function.update (initial twoLocks).clients 0 ⟨⟨"l", 1, "a"⟩, none, false⟩⟩ := by
    have hput := put_single "l" "a" released 1 0
    rw [htaken]
    simp [givenAgain, System.run, exec, AnyEvent, System.step?, System.send, Net.call, Net.step?,
      Net.setPending, Net.answer, System.resume, System.return, request, Lock.put,
      KVServer.handle, output]
    exact ⟨congrArg Prod.fst hput, rfl⟩
  exact ⟨_, ⟨_, rfl, hacq.trans (System.steps_of_run hrel)⟩, rfl, rfl, rfl, rfl⟩

/-- The second lock takes the key and gives it back. -/
theorem Turned.next {s : System 2} (hs : Turned first late version s) :
    ∃ t, Turned first late (version + 2) t := by
  obtain ⟨hkey, hrun⟩ := hs.second
  have hacq := acquire_at_once (s := s) (i := 1) (.inr (by rw [hs.net, hkey, get_single])) hrun
    (by rw [hs.net])
  have hrel := release_at_once (s := s.taken 1) (i := 1) (by simp [System.taken])
    (by simp [System.taken, hs.net])
  refine ⟨_, hs.reached.trans (hacq.trans hrel), ?_, ?_, ?_⟩
  · simp only [System.given, System.taken, Function.update_self, toUInt64_succ, hs.net, hkey,
      Lock.putArgs, version_single, put_single, UInt64.add_assoc]
    rfl
  · simp [System.given, System.taken, hs.first]
  · simp [System.given, System.taken, hkey]

/-- The version runs through every other number. -/
theorem Turned.iterate {s : System 2} (hs : Turned first late version s) (j : ℕ) :
    ∃ t, Turned first late (version + UInt64.ofNat (2 * j)) t := by
  induction j with
  | zero => exact ⟨s, by simpa using hs⟩
  | succ j ih =>
    obtain ⟨t, ht⟩ := ih
    rw [Nat.mul_succ, UInt64.ofNat_add, ← UInt64.add_assoc]
    exact ht.next

/-- After `2 ^ 64` changes of the key, the lost request of the first `Release` frees the key
while the other lock holds it. -/
theorem two_holders : ∃ s, Reached twoLocks AnyEvent s ∧ twoLocks.Distinct ∧
    (s.clients 0).holds = true ∧ (s.clients 1).holds = true := by
  obtain ⟨s₀, hs₀⟩ := exists_turned
  obtain ⟨s, hs⟩ := hs₀.iterate (2 ^ 63 - 1)
  have hnet : s.net = ⟨single "l" released 0, fun _ => none, [.put ⟨"l", released, 1, 0⟩]⟩ := hs.net
  obtain ⟨hkey, hrun⟩ := hs.second
  have hacq := acquire_at_once (s := s) (i := 1) (.inr (by rw [hnet, hkey, get_single])) hrun
    (by rw [hnet])
  have hlate : Step AnyEvent (s.taken 1) ⟨⟨single "l" released 2, fun _ => none, []⟩,
      (s.taken 1).clients⟩ := by
    refine ⟨.net (.late 0), trivial, ?_⟩
    simp [System.step?, Net.step?, System.taken, hnet, hkey, KVServer.handle, Lock.putArgs,
      version_single, put_single]
  have hacq' := acquire_at_once (s := ⟨⟨single "l" released 2, fun _ => none, []⟩,
    (s.taken 1).clients⟩) (i := 0) (.inr (by simp [System.taken, hs.first, get_single]))
    (by simp [System.taken, hs.first]) rfl
  refine ⟨_, hs.reached.trans ((hacq.tail hlate).trans hacq'), twoLocks_distinct, ?_, ?_⟩
  · simp [System.taken]
  · simp [System.taken]

end Wrapping

end DistributedLabs.LockClients
