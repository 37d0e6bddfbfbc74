import DistributedLabs.MapReduceCoordinator
import DistributedLabs.SortedRuns
import Mathlib.Data.List.Lex
import Mathlib.Data.UInt

/-!
# Map and reduce tasks

What `MapTask` and `ReduceTask` compute, and the sequential program that they are compared to.
A map task splits the pairs of one input into one file for each reduce task. A reduce task reads
the files that are meant for it, sorts the pairs by their keys and calls the reduce function on
each run of equal keys. The packages for JSON and for sorting are parameters.
-/

namespace DistributedLabs.MapReduce

open SortedRuns

/-- Strings are compared byte by byte. -/
instance instLinearOrderUInt8 : LinearOrder UInt8 where
  le_refl _ := UInt8.le_refl _
  le_trans _ _ _ := UInt8.le_trans
  le_antisymm _ _ := UInt8.le_antisymm
  le_total := UInt8.le_total
  lt_iff_le_not_ge _ _ := by rw [UInt8.not_le, and_iff_right_of_imp UInt8.le_of_lt]
  toDecidableLE := inferInstance
  toDecidableLT := inferInstance
  toDecidableEq := inferInstance

structure KeyValue where
  key : GoString
  value : GoString
  deriving DecidableEq, Repr

/-- The FNV-1a hash of 32 bits, without its sign. -/
def ihash (key : GoString) : ℕ :=
  let sum := key.foldl (fun (h : UInt32) b => (h ^^^ b.toUInt32) * 16777619) 2166136261
  (sum &&& 0x7fffffff).toNat

/-- The package for JSON. `Decode` returns a pair with what is left of its input, or fails. -/
structure Codec where
  encode : KeyValue → GoString
  decode : GoString → Option (KeyValue × GoString)
  consumes : ∀ {input kv rest}, decode input = some (kv, rest) → rest.length < input.length

/-- Decoding inverts encoding on a pair. The newline after a pair may be left to the next call. -/
def Codec.Inverts (codec : Codec) (kv : KeyValue) : Prop :=
  ∀ rest, ∃ left, codec.decode (codec.encode kv ++ rest) = some (kv, left) ∧
    codec.decode left = codec.decode rest

/-- `sort.Sort` on pairs; equal keys may come in any order. -/
structure Sorter where
  sort : List KeyValue → List KeyValue
  perm : ∀ l, (sort l).Perm l
  sorted : ∀ l, SortedByKey KeyValue.key (sort l)

structure App where
  mapf : GoString → GoString → List KeyValue
  reducef : GoString → List GoString → GoString
  codec : Codec
  sorter : Sorter

/-- One turn of the loop of `MapTask`: a pair is written to the file of its bucket. -/
def App.writePair (app : App) (nreduce : ℕ) (buckets : List GoString) (pair : KeyValue) :
    List GoString :=
  buckets.modify (ihash pair.key % nreduce) fun content => content ++ app.codec.encode pair

/-- The contents of the files that `MapTask` writes. -/
def App.mapTask (app : App) (nreduce : ℕ) (filename content : GoString) : List GoString :=
  (app.mapf filename content).foldl (app.writePair nreduce) (List.replicate nreduce [])

/-- The loop of `ReduceTask` that decodes a file until `Decode` fails. -/
def Codec.decodeAll (codec : Codec) (input : GoString) : List KeyValue :=
  match _h : codec.decode input with
  | none => []
  | some (kv, rest) => kv :: codec.decodeAll rest
termination_by input.length
decreasing_by exact codec.consumes _h

/-- The inner loop over a run of equal keys; `j` is where it stands. -/
def runEnd (kvList : List KeyValue) (key : GoString) (j : ℕ) : ℕ :=
  if h : j < kvList.length then
    if kvList[j].key = key then runEnd kvList key (j + 1) else j
  else j
termination_by kvList.length - j

theorem le_runEnd (kvList : List KeyValue) (key : GoString) (j : ℕ) : j ≤ runEnd kvList key j := by
  induction j using runEnd.induct kvList key with
  | case1 j hlt hkey ih =>
    rw [runEnd, dif_pos hlt, if_pos hkey]
    omega
  | case2 j hlt hkey => rw [runEnd, dif_pos hlt, if_neg hkey]
  | case3 j hlt => rw [runEnd, dif_neg hlt]

/-- The calls that the loop over the sorted pairs makes to the reduce function. `ReduceTask` and
the sequential program have the same loop. -/
def reduceCalls (kvList : List KeyValue) (i : ℕ) : List (GoString × List GoString) :=
  if h : i < kvList.length then
    let j := runEnd kvList kvList[i].key (i + 1)
    (kvList[i].key, (kvList.extract i j).map KeyValue.value) :: reduceCalls kvList j
  else []
termination_by kvList.length - i
decreasing_by
  have := le_runEnd kvList kvList[i].key (i + 1)
  omega

/-- The line that is written for a call, in the format `"%v %v\n"`. -/
def App.line (app : App) (call : GoString × List GoString) : GoString :=
  call.1 ++ [32] ++ app.reducef call.1 call.2 ++ [10]

/-- The calls of a `ReduceTask` that reads files with the given contents. -/
def App.reduceTask (app : App) (contents : List GoString) : List (GoString × List GoString) :=
  reduceCalls (app.sorter.sort (contents.flatMap app.codec.decodeAll)) 0

/-- The pairs of all inputs, in order; each input is the name of a file with its content. -/
def App.emitted (app : App) (inputs : List (GoString × GoString)) : List KeyValue :=
  inputs.flatMap fun x => app.mapf x.1 x.2

/-- The calls of `mrsequential`. -/
def App.sequential (app : App) (inputs : List (GoString × GoString)) :
    List (GoString × List GoString) :=
  reduceCalls (app.sorter.sort (app.emitted inputs)) 0

def App.bucket (app : App) (inputs : List (GoString × GoString)) (nReduce b : ℕ) : List GoString :=
  inputs.map fun x => (app.mapTask nReduce x.1 x.2).getD b []

/-- The calls of all reduce tasks, after all map tasks. -/
def App.distributed (app : App) (inputs : List (GoString × GoString)) (nReduce : ℕ) :
    List (GoString × List GoString) :=
  (List.range nReduce).flatMap fun b => app.reduceTask (app.bucket inputs nReduce b)

section Loops

variable {app : App} {codec : Codec} {kvs : List KeyValue} {nreduce b : ℕ}

theorem runEnd_eq (kvList : List KeyValue) (key : GoString) (j : ℕ) :
    runEnd kvList key j = j + ((kvList.drop j).takeWhile fun kv => kv.key = key).length := by
  induction j using runEnd.induct kvList key with
  | case1 j hlt hkey ih =>
    rw [runEnd, dif_pos hlt, if_pos hkey, ih, List.drop_eq_getElem_cons hlt,
      List.takeWhile_cons_of_pos (by simpa using hkey), List.length_cons]
    omega
  | case2 j hlt hkey =>
    rw [runEnd, dif_pos hlt, if_neg hkey, List.drop_eq_getElem_cons hlt,
      List.takeWhile_cons_of_neg (by simpa using hkey), List.length_nil, Nat.add_zero]
  | case3 j hlt =>
    rw [runEnd, dif_neg hlt, List.drop_of_length_le (Nat.le_of_not_lt hlt)]
    rfl

/-- The loop makes one call for each run. -/
theorem reduceCalls_eq (kvList : List KeyValue) (i : ℕ) :
    reduceCalls kvList i =
      (runs KeyValue.key (kvList.drop i)).map fun r => (r.1, r.2.map KeyValue.value) := by
  induction i using reduceCalls.induct kvList with
  | case1 i hlt j ih =>
    have hcons := List.drop_eq_getElem_cons hlt
    have hj :
        j = i + 1 + ((kvList.drop (i + 1)).takeWhile fun kv => kv.key = kvList[i].key).length :=
      runEnd_eq kvList kvList[i].key (i + 1)
    have hextract : kvList.extract i j =
        kvList[i] :: (kvList.drop (i + 1)).takeWhile fun kv => kv.key = kvList[i].key := by
      have hlen :
          j - i =
            ((kvList.drop (i + 1)).takeWhile fun kv => kv.key = kvList[i].key).length + 1 := by
        omega
      rw [List.extract, hcons, hlen, List.take_succ_cons, take_length_takeWhile]
    have hdrop : kvList.drop j =
        (kvList.drop (i + 1)).dropWhile fun kv => kv.key = kvList[i].key := by
      rw [hj, ← List.drop_drop, drop_length_takeWhile]
    rw [reduceCalls, dif_pos hlt, hcons, runs_cons, List.map_cons, ← hdrop, ← ih, ← hextract]
  | case2 i hlt =>
    rw [reduceCalls, dif_neg hlt, List.drop_of_length_le (Nat.le_of_not_lt hlt), runs_nil]
    rfl

theorem decodeAll_of_none {input : GoString} (h : codec.decode input = none) :
    codec.decodeAll input = [] := by
  rw [Codec.decodeAll]
  split
  · rfl
  · simp_all

theorem decodeAll_of_some {input rest : GoString} {kv : KeyValue}
    (h : codec.decode input = some (kv, rest)) :
    codec.decodeAll input = kv :: codec.decodeAll rest := by
  rw [Codec.decodeAll]
  split
  · simp_all
  · simp_all

theorem decodeAll_congr {input left : GoString} (h : codec.decode left = codec.decode input) :
    codec.decodeAll left = codec.decodeAll input := by
  cases hdecode : codec.decode input with
  | none => rw [decodeAll_of_none hdecode, decodeAll_of_none (h.trans hdecode)]
  | some x => rw [decodeAll_of_some hdecode, decodeAll_of_some (h.trans hdecode)]

/-- A complete file is decoded to the pairs that were written. -/
theorem decodeAll_flatMap (h : ∀ kv ∈ kvs, codec.Inverts kv) :
    codec.decodeAll (kvs.flatMap codec.encode) = kvs := by
  induction kvs with
  | nil =>
    refine decodeAll_of_none ?_
    cases hdecode : codec.decode ([].flatMap codec.encode) with
    | none => rfl
    | some x => exact absurd (codec.consumes hdecode) (Nat.not_lt_zero _)
  | cons kv kvs ih =>
    obtain ⟨left, hdecode, hleft⟩ := h kv List.mem_cons_self (kvs.flatMap codec.encode)
    rw [List.flatMap_cons, decodeAll_of_some hdecode, decodeAll_congr hleft]
    rw [ih fun kv' hkv' => h kv' (List.mem_cons_of_mem kv hkv')]

def ofBucket (nreduce b : ℕ) (kvs : List KeyValue) : List KeyValue :=
  kvs.filter fun kv => ihash kv.key % nreduce = b

theorem getElem?_foldl_writePair (kvs : List KeyValue) (buckets : List GoString) (b : ℕ) :
    (kvs.foldl (app.writePair nreduce) buckets)[b]? =
      buckets[b]?.map (· ++ (ofBucket nreduce b kvs).flatMap app.codec.encode) := by
  induction kvs generalizing buckets with
  | nil => simp [ofBucket]
  | cons kv kvs ih =>
    rw [List.foldl_cons, ih, App.writePair, List.getElem?_modify]
    by_cases hb : ihash kv.key % nreduce = b
    · simp [ofBucket, hb, Function.comp_def]
    · simp [ofBucket, hb]

theorem mapTask_getD (hb : b < nreduce) (filename content : GoString) :
    (app.mapTask nreduce filename content).getD b [] =
      (ofBucket nreduce b (app.mapf filename content)).flatMap app.codec.encode := by
  rw [App.mapTask, List.getD_eq_getElem?_getD, getElem?_foldl_writePair]
  simp [hb]

end Loops

end DistributedLabs.MapReduce
