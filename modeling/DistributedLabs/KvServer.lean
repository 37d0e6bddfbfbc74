import DistributedLabs.RsmCluster
import Mathlib.Data.Finmap

/-!
# The key/value server

The state machine that is replicated: a versioned store, and for every key and clerk the
version of the clerk's last `Put` that was stored. Versions travel as `uint64` and are
kept as `int`.
-/

namespace DistributedLabs.KvServer

open Rsm

inductive Err where
  | ok
  | errNoKey
  | errVersion
  | errMaybe
  | errWrongLeader
  | errWrongGroup
  deriving DecidableEq, Repr

abbrev Tversion := UInt64

structure PutArgs where
  key : String
  value : String
  version : Tversion
  clerkId : Int64
  deriving DecidableEq, Repr

structure GetArgs where
  key : String
  deriving DecidableEq, Repr

/-- The `any` that `DoOp` switches on. -/
inductive Request where
  | put (args : PutArgs)
  | get (args : GetArgs)
  | unknown (x : ℕ)
  deriving DecidableEq, Repr

structure PutReply where
  err : Err
  deriving DecidableEq, Repr

structure GetReply where
  value : String
  version : Tversion
  err : Err
  deriving DecidableEq, Repr

inductive Reply where
  | put (reply : PutReply)
  | get (reply : GetReply)
  | error (text : String)
  deriving DecidableEq, Repr

structure FilterKey where
  key : String
  clientId : Int64
  deriving DecidableEq, Repr

structure VersionErr where
  versionNo : Int64
  err : Err
  deriving DecidableEq, Repr

structure ValueVersion where
  value : String
  versionNo : Int64
  deriving DecidableEq, Repr

abbrev Store := Finmap fun _ : String => ValueVersion

abbrev Dedup := Finmap fun _ : FilterKey => VersionErr

structure KVServer where
  dedupTracker : Dedup
  kvStore : Store

def KVServer.empty : KVServer := ⟨∅, ∅⟩

/-- What the map lookup of an absent key gives. -/
def zeroValue : ValueVersion := ⟨"", 0⟩

def KVServer.current (kv : KVServer) (key : String) : ValueVersion :=
  (kv.kvStore.lookup key).getD zeroValue

/-- The cached result for a `Put` with the version of the clerk's last stored one. -/
def KVServer.cached (kv : KVServer) (r : PutArgs) : Option Err :=
  (kv.dedupTracker.lookup ⟨r.key, r.clerkId⟩).bind fun dedupCheck =>
    if r.version = dedupCheck.versionNo.toUInt64 then some dedupCheck.err else none

def KVServer.put (kv : KVServer) (r : PutArgs) : KVServer × PutReply :=
  match kv.cached r with
  | some err => (kv, ⟨err⟩)
  | none =>
    if r.version.toInt64 = (kv.current r.key).versionNo then
      ({ dedupTracker := kv.dedupTracker.insert ⟨r.key, r.clerkId⟩ ⟨r.version.toInt64, .ok⟩
         kvStore := kv.kvStore.insert r.key ⟨r.value, (r.version + 1).toInt64⟩ }, ⟨.ok⟩)
    else (kv, ⟨.errVersion⟩)

def KVServer.get (kv : KVServer) (r : GetArgs) : GetReply :=
  match kv.kvStore.lookup r.key with
  | some val => ⟨val.value, val.versionNo.toUInt64, .ok⟩
  | none => ⟨"", 0, .errNoKey⟩

def KVServer.doOp (kv : KVServer) : Request → KVServer × Reply
  | .put r => ((kv.put r).1, .put (kv.put r).2)
  | .get r => (kv, .get (kv.get r))
  | .unknown _ => (kv, .error "Doop args not recognized unfortunately")

section Put

variable {kv : KVServer} {r : PutArgs}

/-- The `Put` is neither a duplicate nor of another version. -/
def KVServer.Stores (kv : KVServer) (r : PutArgs) : Prop :=
  kv.cached r = none ∧ r.version.toInt64 = (kv.current r.key).versionNo

theorem toInt64_eq_iff {x : UInt64} {y : Int64} : x.toInt64 = y ↔ x = y.toUInt64 := by
  constructor
  · rintro rfl
    exact x.toUInt64_toInt64.symm
  · rintro rfl
    exact y.toInt64_toUInt64

theorem add_one_ne (x : UInt64) : x + 1 ≠ x := by
  intro h
  have h := congrArg UInt64.toBitVec h
  simp only [UInt64.toBitVec_add] at h
  have h1 : (1 : UInt64).toBitVec = 1#64 := rfl
  rw [h1] at h
  bv_omega

theorem put_of_cached {err : Err} (h : kv.cached r = some err) : kv.put r = (kv, ⟨err⟩) := by
  rw [KVServer.put, h]

theorem put_of_stores (h : kv.Stores r) : kv.put r =
    ({ dedupTracker := kv.dedupTracker.insert ⟨r.key, r.clerkId⟩ ⟨r.version.toInt64, .ok⟩
       kvStore := kv.kvStore.insert r.key ⟨r.value, (r.version + 1).toInt64⟩ }, ⟨.ok⟩) := by
  rw [KVServer.put, h.1]
  exact if_pos h.2

theorem put_of_rejects (hc : kv.cached r = none) (h : ¬ kv.Stores r) :
    kv.put r = (kv, ⟨.errVersion⟩) := by
  rw [KVServer.put, hc]
  exact if_neg fun hv => h ⟨hc, hv⟩

theorem put_fst_of_not_stores (h : ¬ kv.Stores r) : (kv.put r).1 = kv := by
  cases hc : kv.cached r with
  | none => rw [put_of_rejects hc h]
  | some err => rw [put_of_cached hc]

end Put

/-- The encoder of the two maps and its decoder, over bytes of type `B`. -/
structure Codec (B : Type*) where
  encode : Store → Dedup → List B
  decode : List B → Option (Store × Dedup)

structure Codec.Lawful {B : Type*} (codec : Codec B) : Prop where
  decode_encode : ∀ store dedup, codec.decode (codec.encode store dedup) = some (store, dedup)
  encode_ne : ∀ store dedup, codec.encode store dedup ≠ []

variable {B : Type*} (codec : Codec B)

def KVServer.snapshot (kv : KVServer) : List B := codec.encode kv.kvStore kv.dedupTracker

def KVServer.restore (kv : KVServer) (data : List B) : KVServer :=
  if data.length < 1 then kv
  else match codec.decode data with
    | none => kv
    | some (tempStore, tempDedup) => { dedupTracker := tempDedup, kvStore := tempStore }

def machine : StateMachine Request Reply KVServer B where
  init := KVServer.empty
  doOp := KVServer.doOp
  snapshot := KVServer.snapshot codec
  restore := KVServer.restore codec

abbrev KvSystem (n : ℕ) (B : Type*) := RsmCluster.System n Request Reply KVServer B

variable {codec}

theorem restore_snapshot (h : codec.Lawful) (kv kv' : KVServer) :
    kv.restore codec (kv'.snapshot codec) = kv' := by
  have hlen : ¬ (kv'.snapshot codec).length < 1 := by
    have := List.length_pos_iff.mpr (h.encode_ne kv'.kvStore kv'.dedupTracker)
    simp only [KVServer.snapshot]
    omega
  rw [KVServer.restore, if_neg hlen, KVServer.snapshot, h.decode_encode]

theorem machine_lawful (h : codec.Lawful) : (machine codec).Lawful where
  snapshot_ne kv := h.encode_ne kv.kvStore kv.dedupTracker
  restore_snapshot := restore_snapshot h

/-- A codec whose single "byte" is the encoded pair. -/
def pairCodec : Codec (Store × Dedup) where
  encode store dedup := [(store, dedup)]
  decode
    | [x] => some x
    | _ => none

theorem pairCodec_lawful : pairCodec.Lawful := ⟨fun _ _ => rfl, fun _ _ => by simp [pairCodec]⟩

end DistributedLabs.KvServer
