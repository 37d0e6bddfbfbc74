import DistributedLabs.KvClerks

/-!
# The single key/value server

A versioned store, and clerks that repeat a remote call until it is answered. A remote call
whose `Call` returned false may have been executed, or may still be on its way and be
executed once at any later time, or never. Versions travel as `uint64` and are kept as
`int`, so that the version after `2 ^ 64 - 1` is zero.
-/

namespace DistributedLabs.Kvsrv

open KvServer (Err Tversion PutArgs GetArgs PutReply GetReply)
open KvClerks (KvOp KvInput KvOutput)

structure VersionValue where
  versionNo : Int64
  value : String
  deriving DecidableEq, Repr

structure KVServer where
  store : Finmap fun _ : String => VersionValue

def KVServer.empty : KVServer := ⟨∅⟩

def KVServer.get (kv : KVServer) (args : GetArgs) : GetReply :=
  match kv.store.lookup args.key with
  | some val => ⟨val.value, val.versionNo.toUInt64, .ok⟩
  | none => ⟨"", 0, .errNoKey⟩

def KVServer.put (kv : KVServer) (args : PutArgs) : KVServer × PutReply :=
  match kv.store.lookup args.key with
  | some val =>
    if val.versionNo ≠ args.version.toInt64 then (kv, ⟨.errVersion⟩)
    else (⟨kv.store.insert args.key ⟨args.version.toInt64 + 1, args.value⟩⟩, ⟨.ok⟩)
  | none =>
    if args.version = 0 then
      (⟨kv.store.insert args.key ⟨args.version.toInt64 + 1, args.value⟩⟩, ⟨.ok⟩)
    else (kv, ⟨.errNoKey⟩)

inductive Request where
  | get (args : GetArgs)
  | put (args : PutArgs)
  deriving DecidableEq, Repr

inductive Reply where
  | get (reply : GetReply)
  | put (reply : PutReply)
  deriving DecidableEq, Repr

def KVServer.handle (kv : KVServer) : Request → KVServer × Reply
  | .get args => (kv, .get (kv.get args))
  | .put args => ((kv.put args).1, .put (kv.put args).2)

/-- The arguments that `Clerk.Get` and `Clerk.Put` send; `ClerkId` is left zero. -/
def request (inp : KvInput) : Request :=
  match inp.op with
  | .get => .get ⟨inp.key⟩
  | .put => .put ⟨inp.key, inp.value, inp.version, 0⟩

/-- What `Clerk.Get` or `Clerk.Put` returns when its remote call is answered. -/
def output (firstPut : Bool) : Reply → KvOutput
  | .get reply => ⟨reply.value, reply.version, reply.err⟩
  | .put rsp => ⟨"", 0, if !firstPut && rsp.err = .errVersion then .errMaybe else rsp.err⟩

section Server

variable {kv : KVServer} {args : PutArgs}

def KVServer.version (kv : KVServer) (key : String) : Tversion :=
  ((kv.store.lookup key).map fun val => val.versionNo.toUInt64).getD 0

/-- The `Put` is stored: it has the version of its key, or version zero for an absent key. -/
def KVServer.Stores (kv : KVServer) (args : PutArgs) : Prop := args.version = kv.version args.key

instance (kv : KVServer) (args : PutArgs) : Decidable (kv.Stores args) :=
  inferInstanceAs (Decidable (_ = _))

/-- The request gives its key the version after `2 ^ 64 - 1`, which is zero. -/
def KVServer.Wraps (kv : KVServer) : Request → Prop
  | .get _ => False
  | .put args => kv.Stores args ∧ args.version + 1 = 0

instance (kv : KVServer) : (req : Request) → Decidable (kv.Wraps req)
  | .get _ => .isFalse id
  | .put args => inferInstanceAs (Decidable (kv.Stores args ∧ args.version + 1 = 0))

theorem toUInt64_succ (x : Tversion) : (x.toInt64 + 1).toUInt64 = x + 1 := by
  rw [Int64.toUInt64_add, UInt64.toUInt64_toInt64]
  rfl

theorem put_of_stores (h : kv.Stores args) : kv.put args =
    (⟨kv.store.insert args.key ⟨args.version.toInt64 + 1, args.value⟩⟩, ⟨.ok⟩) := by
  unfold KVServer.Stores KVServer.version at h
  unfold KVServer.put
  cases hval : kv.store.lookup args.key with
  | none =>
    rw [hval] at h
    exact if_pos h
  | some val =>
    rw [hval] at h
    exact if_neg (not_not.mpr (KvServer.toInt64_eq_iff.mpr h).symm)

theorem put_of_not_stores (h : ¬ kv.Stores args) : kv.put args =
    (kv, ⟨if (kv.store.lookup args.key).isSome then .errVersion else .errNoKey⟩) := by
  unfold KVServer.Stores KVServer.version at h
  unfold KVServer.put
  cases hval : kv.store.lookup args.key with
  | none =>
    rw [hval] at h
    exact if_neg h
  | some val =>
    rw [hval] at h
    exact if_pos fun hv => h (KvServer.toInt64_eq_iff.mp hv.symm)

theorem stores_of_ok (h : (kv.put args).2 = ⟨.ok⟩) : kv.Stores args := by
  by_contra hst
  rw [put_of_not_stores hst] at h
  split_ifs at h <;> cases h

theorem lookup_put_self (h : kv.Stores args) : (kv.put args).1.store.lookup args.key =
    some ⟨args.version.toInt64 + 1, args.value⟩ := by
  rw [put_of_stores h]
  exact Finmap.lookup_insert _

theorem lookup_put_of_ne {key : String} (hk : key ≠ args.key) :
    (kv.put args).1.store.lookup key = kv.store.lookup key := by
  by_cases h : kv.Stores args
  · rw [put_of_stores h]
    exact Finmap.lookup_insert_of_ne _ hk
  · rw [put_of_not_stores h]

theorem isSome_put {key : String} (h : (kv.store.lookup key).isSome) :
    ((kv.put args).1.store.lookup key).isSome := by
  by_cases hst : kv.Stores args
  · by_cases hk : key = args.key
    · rw [hk, lookup_put_self hst]
      rfl
    · rwa [lookup_put_of_ne hk]
  · rwa [put_of_not_stores hst]

theorem version_put_self (h : kv.Stores args) :
    (kv.put args).1.version args.key = args.version + 1 := by
  rw [KVServer.version, lookup_put_self h]
  exact toUInt64_succ _

theorem version_put_of_ne {key : String} (hk : key ≠ args.key) :
    (kv.put args).1.version key = kv.version key := by
  rw [KVServer.version, lookup_put_of_ne hk, KVServer.version]

theorem lt_succ_of_ne_zero {x : Tversion} (h : x + 1 ≠ 0) : x < x + 1 := by
  have hx := x.toNat_lt
  have hne : (x + 1).toNat ≠ 0 := fun hz => h (UInt64.toNat_inj.mp hz)
  rw [UInt64.toNat_add] at hne
  rw [UInt64.lt_iff_toNat_lt, UInt64.toNat_add]
  change (x.toNat + 1) % 2 ^ 64 ≠ 0 at hne
  change x.toNat < (x.toNat + 1) % 2 ^ 64
  omega

end Server

section Single

def single (key value : String) (version : Tversion) : KVServer :=
  ⟨(∅ : Finmap fun _ : String => VersionValue).insert key ⟨version.toInt64, value⟩⟩

theorem lookup_single (key value : String) (version : Tversion) :
    (single key value version).store.lookup key = some ⟨version.toInt64, value⟩ :=
  Finmap.lookup_insert _

theorem version_single (key value : String) (version : Tversion) :
    (single key value version).version key = version := by
  simp [KVServer.version, lookup_single]

theorem put_single (key value value' : String) (version : Tversion) (clerkId : Int64) :
    (single key value version).put ⟨key, value', version, clerkId⟩ =
      (single key value' (version + 1), ⟨.ok⟩) := by
  have hst : (single key value version).Stores ⟨key, value', version, clerkId⟩ :=
    (version_single key value version).symm
  rw [put_of_stores hst, single, Finmap.insert_insert, single, UInt64.toInt64_add]
  rfl

theorem get_single (key value : String) (version : Tversion) :
    (single key value version).get ⟨key⟩ = ⟨value, version, .ok⟩ := by
  simp [KVServer.get, lookup_single]

end Single

section Versions

variable {kv : KVServer} {req : Request} {key : String}

/-- A key that is present has a version other than zero. -/
def KVServer.Counted (kv : KVServer) : Prop :=
  ∀ key, (kv.store.lookup key).isSome → kv.version key ≠ 0

theorem counted_empty : KVServer.empty.Counted := fun key h => by
  simp [KVServer.empty] at h

/-- As long as no version wraps, the keys that are present are those with a version. -/
theorem KVServer.Counted.handle (hc : kv.Counted) (hw : ¬ kv.Wraps req) :
    (kv.handle req).1.Counted := by
  cases req with
  | get args => exact hc
  | put args =>
    intro key hsome
    change (kv.put args).1.version key ≠ 0
    by_cases hst : kv.Stores args
    · by_cases hk : key = args.key
      · subst hk
        rw [version_put_self hst]
        exact fun hz => hw ⟨hst, hz⟩
      · rw [version_put_of_ne hk]
        refine hc key ?_
        rwa [← lookup_put_of_ne hk]
    · simp only [KVServer.handle, put_of_not_stores hst] at hsome ⊢
      exact hc key hsome

/-- As long as no version wraps, versions do not decrease, and the content of a key changes
only together with its version. -/
theorem handle_version (hw : ¬ kv.Wraps req) (key : String) :
    kv.version key < (kv.handle req).1.version key ∨
      (kv.handle req).1.store.lookup key = kv.store.lookup key := by
  cases req with
  | get args => exact .inr rfl
  | put args =>
    by_cases hk : key = args.key
    · subst hk
      by_cases hst : kv.Stores args
      · left
        change kv.version args.key < (kv.put args).1.version args.key
        rw [version_put_self hst, ← hst]
        exact lt_succ_of_ne_zero fun hz => hw ⟨hst, hz⟩
      · right
        rw [KVServer.handle, put_of_not_stores hst]
    · exact .inr (lookup_put_of_ne hk)

theorem version_le_handle (hw : ¬ kv.Wraps req) (key : String) :
    kv.version key ≤ (kv.handle req).1.version key := by
  rcases handle_version hw key with h | h
  · exact UInt64.le_of_lt h
  · rw [KVServer.version, KVServer.version, h]
    exact UInt64.le_refl _

end Versions

end DistributedLabs.Kvsrv
