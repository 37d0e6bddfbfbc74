import DistributedLabs.MapReduceTasks
import Mathlib.Data.List.Nodup
import Mathlib.Data.List.Perm.Lattice
import Mathlib.Data.List.Sort

/-!
# The distributed program computes what the sequential one does

Every key goes to one bucket, so that a reduce task sees all the pairs with a key or none of
them. Both programs call the reduce function once for each key, on the same values up to their
order.
-/

namespace DistributedLabs.MapReduce

open SortedRuns

variable {app : App} {inputs : List (GoString × GoString)} {nReduce b : ℕ} {l : List KeyValue}
  {calls : List (GoString × List GoString)}

/-- The values of a key, in the order in which they were emitted. -/
def valuesOf (k : GoString) (l : List KeyValue) : List GoString :=
  (l.filter fun kv => kv.key = k).map KeyValue.value

/-- Calls that reduce each key of the pairs once, with all its values. -/
structure Reduces (l : List KeyValue) (calls : List (GoString × List GoString)) : Prop where
  nodup : (calls.map Prod.fst).Nodup
  keys : ∀ k, k ∈ calls.map Prod.fst ↔ ∃ kv ∈ l, kv.key = k
  values : ∀ call ∈ calls, call.2.Perm (valuesOf call.1 l)

section Runs

theorem pairwise_reduceCalls (sorter : Sorter) (l : List KeyValue) :
    ((reduceCalls (sorter.sort l) 0).map Prod.fst).Pairwise (· < ·) := by
  rw [reduceCalls_eq, List.drop_zero, List.map_map]
  exact (runs_spec (sorter.sorted l)).1

theorem reduces_reduceCalls (sorter : Sorter) (l : List KeyValue) :
    Reduces l (reduceCalls (sorter.sort l) 0) := by
  have hperm := sorter.perm l
  obtain ⟨-, hmem, hval⟩ := runs_spec (sorter.sorted l)
  constructor
  · exact (pairwise_reduceCalls sorter l).imp fun h => h.ne
  · intro k
    rw [reduceCalls_eq, List.drop_zero, List.map_map]
    refine (hmem k).trans (exists_congr fun kv => ?_)
    rw [hperm.mem_iff]
  · intro call hcall
    rw [reduceCalls_eq, List.drop_zero] at hcall
    obtain ⟨r, hr, rfl⟩ := List.mem_map.mp hcall
    rw [hval r hr]
    exact (hperm.filter _).map _

end Runs

section Buckets

theorem filter_ofBucket {k : GoString} (hk : ihash k % nReduce = b) (l : List KeyValue) :
    valuesOf k (ofBucket nReduce b l) = valuesOf k l := by
  rw [valuesOf, ofBucket, List.filter_filter, valuesOf]
  congr 1
  refine List.filter_congr fun kv _ => ?_
  by_cases hkv : kv.key = k
  · simp [hkv, hk]
  · simp [hkv]

/-- A reduce task reads the pairs of its bucket. -/
theorem flatMap_bucket (hb : b < nReduce)
    (hjson : ∀ kv ∈ app.emitted inputs, app.codec.Inverts kv) :
    (app.bucket inputs nReduce b).flatMap app.codec.decodeAll =
      ofBucket nReduce b (app.emitted inputs) := by
  induction inputs with
  | nil => rfl
  | cons x inputs ih =>
    rw [App.emitted, List.flatMap_cons] at hjson
    have hrest := ih fun kv hkv => hjson kv (List.mem_append_right _ hkv)
    have hfirst : app.codec.decodeAll ((app.mapTask nReduce x.1 x.2).getD b []) =
        ofBucket nReduce b (app.mapf x.1 x.2) := by
      rw [mapTask_getD hb]
      refine decodeAll_flatMap fun kv hkv => hjson kv (List.mem_append_left _ ?_)
      exact List.mem_of_mem_filter hkv
    rw [App.bucket, List.map_cons, List.flatMap_cons, hfirst, ← App.bucket, hrest]
    rw [App.emitted, App.emitted, List.flatMap_cons, ofBucket, ofBucket, ofBucket,
      List.filter_append]

theorem reduces_bucket (hb : b < nReduce)
    (hjson : ∀ kv ∈ app.emitted inputs, app.codec.Inverts kv) :
    Reduces (ofBucket nReduce b (app.emitted inputs))
      (app.reduceTask (app.bucket inputs nReduce b)) := by
  rw [App.reduceTask, flatMap_bucket hb hjson]
  exact reduces_reduceCalls _ _

/-- The key of a call of a reduce task hashes to its bucket. -/
theorem ihash_of_mem {k : GoString} (h : Reduces (ofBucket nReduce b l) calls)
    (hk : k ∈ calls.map Prod.fst) : ihash k % nReduce = b := by
  obtain ⟨kv, hkv, rfl⟩ := (h.keys k).mp hk
  simpa using (List.mem_filter.mp hkv).2

theorem reduces_distributed (hn : 1 ≤ nReduce)
    (hjson : ∀ kv ∈ app.emitted inputs, app.codec.Inverts kv) :
    Reduces (app.emitted inputs) (app.distributed inputs nReduce) := by
  have hbucket {b : ℕ} (hb : b ∈ List.range nReduce) := reduces_bucket (List.mem_range.mp hb) hjson
  constructor
  · rw [App.distributed, List.map_flatMap, List.nodup_flatMap]
    refine ⟨fun b hb => (hbucket hb).nodup, ?_⟩
    refine List.nodup_range.imp_of_mem fun {b b'} hb hb' hne k hk hk' => hne ?_
    rw [← ihash_of_mem (hbucket hb) hk, ← ihash_of_mem (hbucket hb') hk']
  · intro k
    rw [App.distributed, List.map_flatMap, List.mem_flatMap]
    constructor
    · rintro ⟨b, hb, hk⟩
      obtain ⟨kv, hkv, rfl⟩ := ((hbucket hb).keys k).mp hk
      exact ⟨kv, List.mem_of_mem_filter hkv, rfl⟩
    · rintro ⟨kv, hkv, rfl⟩
      have hb : ihash kv.key % nReduce ∈ List.range nReduce := List.mem_range.mpr (Nat.mod_lt _ hn)
      exact ⟨_, hb, ((hbucket hb).keys _).mpr ⟨kv, List.mem_filter.mpr ⟨hkv, by simp⟩, rfl⟩⟩
  · intro call hcall
    obtain ⟨b, hb, hcall⟩ := List.mem_flatMap.mp hcall
    have hkey := ihash_of_mem (hbucket hb) (List.mem_map_of_mem hcall)
    rw [← filter_ofBucket hkey]
    exact (hbucket hb).values call hcall

end Buckets

/-- The lines depend on the pairs only. -/
theorem Reduces.lines (h : Reduces l calls)
    (horder : ∀ k vs vs', List.Perm vs vs' → app.reducef k vs = app.reducef k vs') :
    calls.map app.line = (calls.map Prod.fst).map fun k => app.line (k, valuesOf k l) := by
  rw [List.map_map]
  refine List.map_congr_left fun call hcall => ?_
  simp only [Function.comp_apply, App.line, horder _ _ _ (h.values call hcall)]

/-- The distributed program reduces every key once, with all its values, and writes the lines of
the sequential program. -/
theorem distributed_eq_sequential (app : App) (inputs : List (GoString × GoString)) (nReduce : ℕ)
    (hn : 1 ≤ nReduce) (hjson : ∀ kv ∈ app.emitted inputs, app.codec.Inverts kv)
    (horder : ∀ k vs vs', List.Perm vs vs' → app.reducef k vs = app.reducef k vs') :
    ((app.distributed inputs nReduce).map Prod.fst).Nodup ∧
    (∀ k, k ∈ (app.distributed inputs nReduce).map Prod.fst ↔
      ∃ kv ∈ app.emitted inputs, kv.key = k) ∧
    (∀ call ∈ app.distributed inputs nReduce, call.2.Perm (valuesOf call.1 (app.emitted inputs))) ∧
    ((app.distributed inputs nReduce).map app.line).Perm ((app.sequential inputs).map app.line) ∧
    ∀ b, ((app.reduceTask (app.bucket inputs nReduce b)).map Prod.fst).Pairwise (· < ·) := by
  have hdist := reduces_distributed hn hjson
  have hseq : Reduces (app.emitted inputs) (app.sequential inputs) := reduces_reduceCalls _ _
  refine ⟨hdist.nodup, hdist.keys, hdist.values, ?_, fun b => pairwise_reduceCalls _ _⟩
  rw [hdist.lines horder, hseq.lines horder]
  refine List.Perm.map _ ((List.perm_ext_iff_of_nodup hdist.nodup hseq.nodup).mpr fun k => ?_)
  rw [hdist.keys, hseq.keys]

section Counting

def escape : GoString → GoString
  | [] => [0]
  | c :: s => 1 :: c :: escape s

def unescape : GoString → Option (GoString × GoString)
  | 0 :: rest => some ([], rest)
  | 1 :: c :: rest => (unescape rest).map fun x => (c :: x.1, x.2)
  | _ => none

theorem unescape_escape (s rest : GoString) : unescape (escape s ++ rest) = some (s, rest) := by
  induction s with
  | nil => rfl
  | cons c s ih => simp [escape, unescape, ih]

theorem length_unescape {input s rest : GoString} (h : unescape input = some (s, rest)) :
    rest.length < input.length := by
  induction input using unescape.induct generalizing s with
  | case1 rest' =>
    simp only [unescape, Option.some.injEq, Prod.mk.injEq] at h
    simp [h.2]
  | case2 c rest' ih =>
    obtain ⟨x, hx, heq⟩ := Option.map_eq_some_iff.mp h
    have hlt := ih (s := x.1) (by rw [hx, ← (Prod.mk.inj heq).2])
    simp only [List.length_cons]
    omega
  | case3 input h₀ h₁ =>
    rw [unescape] at h
    · cases h
    · exact h₀
    · exact h₁

/-- An encoding that is simpler than the JSON of the source, for the runs on fixed inputs. -/
def escapeCodec : Codec where
  encode kv := escape kv.key ++ escape kv.value
  decode input := (unescape input).bind fun x => (unescape x.2).map fun y => (⟨x.1, y.1⟩, y.2)
  consumes h := by
    obtain ⟨x, hx, h⟩ := Option.bind_eq_some_iff.mp h
    obtain ⟨y, hy, heq⟩ := Option.map_eq_some_iff.mp h
    have hlt := length_unescape hx
    have hlt' := length_unescape hy
    rw [← (Prod.mk.inj heq).2]
    omega

theorem escapeCodec_inverts (kv : KeyValue) : escapeCodec.Inverts kv := by
  intro rest
  exact ⟨rest, by simp [escapeCodec, List.append_assoc, unescape_escape], rfl⟩

def insertionSorter : Sorter where
  sort := List.insertionSort fun x y => x.key ≤ y.key
  perm := List.perm_insertionSort _
  sorted l := by
    have : Std.Total fun x y : KeyValue => x.key ≤ y.key := ⟨fun x y => le_total x.key y.key⟩
    have : IsTrans KeyValue fun x y => x.key ≤ y.key := ⟨fun _ _ _ => le_trans⟩
    exact List.pairwise_insertionSort _ l

def countBytes : App where
  mapf _ content := content.map fun c => ⟨[c], [49]⟩
  reducef _ values := [48 + UInt8.ofNat values.length]
  codec := escapeCodec
  sorter := insertionSorter

theorem distributed_eq_sequential_count :
    (countBytes.distributed [([1], [97, 98, 97]), ([2], [98, 97])] 2).length = 2 ∧
    ((countBytes.distributed [([1], [97, 98, 97]), ([2], [98, 97])] 2).map countBytes.line).Perm
      ((countBytes.sequential [([1], [97, 98, 97]), ([2], [98, 97])]).map countBytes.line) := by
  refine ⟨by decide +kernel, ?_⟩
  refine (distributed_eq_sequential countBytes _ 2 (by decide) (fun kv _ => escapeCodec_inverts kv)
    fun k vs vs' h => ?_).2.2.2.1
  simp only [countBytes, h.length_eq]

end Counting

end DistributedLabs.MapReduce
