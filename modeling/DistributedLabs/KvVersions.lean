import DistributedLabs.KvLinearization
import DistributedLabs.LogPrefixes

/-!
# Versions count changes

The version of a key goes up by one with every operation that changes the key, and never
otherwise. As long as the counter does not overflow, every version is written once, and
the deduplication table names `Put`s that have been stored.
-/

namespace DistributedLabs.KvVersions

open KvServer KvClerks Rsm LogPrefixes

variable {kv : KVServer} {key : String} {l : List (Op Request)} {o : Op Request} {m : ℕ}

/-- Executing the request changes what is stored for the key. -/
def Changes (key : String) (kv : KVServer) (req : Request) : Prop :=
  (kv.doOp req).1.kvStore.lookup key ≠ kv.kvStore.lookup key

instance (key : String) (kv : KVServer) (req : Request) : Decidable (Changes key kv req) :=
  inferInstanceAs (Decidable (_ ≠ _))

def before (l : List (Op Request)) (m : ℕ) : KVServer := after KVServer.empty (l.take m)

def changes (key : String) (l : List (Op Request)) : ℕ :=
  (annotate KVServer.empty l).countP fun x => Changes key x.1 x.2.req

/-- Operation number `m` of the log changes the key, to the given version. -/
structure Writes (key : String) (l : List (Op Request)) (m : ℕ) (o : Op Request) (version : ℤ) :
    Prop where
  op : l[m]? = some o
  changes : Changes key (before l m) o.req
  version : ((before l (m + 1)).current key).versionNo.toInt = version

/-- The version of a key is the number of operations that changed it, every version was
written by exactly one of them, and an entry of the deduplication table belongs to an
operation of its clerk that was stored. -/
structure Versioned (key : String) (l : List (Op Request)) : Prop where
  count : ((after KVServer.empty l).current key).versionNo.toInt = changes key l
  writer : ∀ v : ℕ, 1 ≤ v → v ≤ changes key l → ∃! m, ∃ o, Writes key l m o v
  tracked : ∀ c ve, (after KVServer.empty l).dedupTracker.lookup ⟨key, c⟩ = some ve →
    ve.err = .ok ∧ ve.versionNo.toInt < ((after KVServer.empty l).current key).versionNo.toInt ∧
    ∃ m o r, Writes key l m o (ve.versionNo.toInt + 1) ∧ o.req = .put r ∧ r.clerkId = c

section Counting

/-- Only a `Put` of the key that is stored changes it. -/
theorem changes_iff {req : Request} :
    Changes key kv req ↔ ∃ r, req = .put r ∧ r.key = key ∧ kv.Stores r := by
  constructor
  · intro h
    cases req with
    | get r => exact absurd rfl h
    | unknown x => exact absurd rfl h
    | put r =>
      by_cases hst : kv.Stores r
      · refine ⟨r, rfl, ?_, hst⟩
        by_contra hkey
        refine h ?_
        simp only [KVServer.doOp, put_of_stores hst]
        exact Finmap.lookup_insert_of_ne _ fun he => hkey he.symm
      · refine absurd ?_ h
        simp only [KVServer.doOp, put_fst_of_not_stores hst]
  · rintro ⟨r, rfl, rfl, hst⟩ heq
    simp only [KVServer.doOp, put_of_stores hst, Finmap.lookup_insert] at heq
    have hver := hst.2
    rw [KVServer.current, ← heq, Option.getD_some, toInt64_eq_iff, UInt64.toUInt64_toInt64] at hver
    exact add_one_ne _ hver.symm

theorem changes_append_le (key : String) (l l' : List (Op Request)) :
    changes key l ≤ changes key (l ++ l') := by
  rw [changes, changes, annotate_append, List.countP_append]
  exact Nat.le_add_right _ _

theorem changes_le_length (key : String) (l : List (Op Request)) : changes key l ≤ l.length := by
  have hlength : (annotate KVServer.empty l).length = l.length := by
    rw [← List.length_map Prod.snd, map_snd_annotate]
  exact hlength ▸ List.countP_le_length

theorem changes_concat (key : String) (l : List (Op Request)) (o : Op Request) :
    changes key (l ++ [o]) =
      changes key l + if Changes key (after KVServer.empty l) o.req then 1 else 0 := by
  simp [changes, annotate_append, annotate, List.countP_cons]

theorem changes_take_le (key : String) (l : List (Op Request)) (m : ℕ) :
    changes key (l.take m) ≤ changes key l := by
  conv_rhs => rw [← List.take_append_drop m l]
  exact changes_append_le _ _ _

/-- What is stored for a key after one more operation. -/
theorem current_concat (key : String) (l : List (Op Request)) (o : Op Request) :
    (¬ Changes key (after KVServer.empty l) o.req ∧
      (after KVServer.empty (l ++ [o])).current key = (after KVServer.empty l).current key) ∨
    ∃ r, o.req = .put r ∧ r.key = key ∧ (after KVServer.empty l).Stores r ∧
      Changes key (after KVServer.empty l) o.req ∧
      (after KVServer.empty (l ++ [o])).current key = ⟨r.value, (r.version + 1).toInt64⟩ := by
  rw [after_concat]
  by_cases h : Changes key (after KVServer.empty l) o.req
  · obtain ⟨r, hreq, rfl, hst⟩ := changes_iff.mp h
    refine Or.inr ⟨r, hreq, rfl, hst, h, ?_⟩
    simp only [hreq, KVServer.doOp, put_of_stores hst, KVServer.current, Finmap.lookup_insert,
      Option.getD_some]
  · refine Or.inl ⟨h, ?_⟩
    rw [KVServer.current, KVServer.current, not_not.mp h]

/-- The version of a key counts the operations that changed it, modulo the word size. -/
theorem version_eq (key : String) (l : List (Op Request)) :
    ((after KVServer.empty l).current key).versionNo.toUInt64 = UInt64.ofNat (changes key l) := by
  induction l using List.reverseRecOn with
  | nil => rfl
  | append_singleton l o ih =>
    rw [changes_concat]
    rcases current_concat key l o with ⟨hno, hsame⟩ | ⟨r, -, rfl, hst, hyes, hnew⟩
    · rw [hsame, if_neg hno, ih, Nat.add_zero]
    · rw [hnew, if_pos hyes, UInt64.toUInt64_toInt64, toInt64_eq_iff.mp hst.2, ih, UInt64.ofNat_add]
      rfl

theorem versionNo_eq (key : String) (l : List (Op Request)) :
    ((after KVServer.empty l).current key).versionNo = Int64.ofNat (changes key l) := by
  rw [← UInt64.toInt64_ofNat', ← version_eq, Int64.toInt64_toUInt64]

/-- A `Put` that is stored names the number of changes before it. -/
theorem version_of_changes {r : PutArgs} (hreq : o.req = .put r)
    (h : Changes r.key (after KVServer.empty l) o.req) :
    r.version = UInt64.ofNat (changes r.key l) := by
  obtain ⟨r', hr', -, hst⟩ := changes_iff.mp h
  obtain rfl := KvServer.Request.put.inj (hreq.symm.trans hr')
  rw [toInt64_eq_iff.mp hst.2, version_eq]

theorem changes_take_succ (h : l[m]? = some o) (hc : Changes key (before l m) o.req) :
    changes key (l.take (m + 1)) = changes key (l.take m) + 1 := by
  rw [take_succ_of_getElem? h, changes_concat]
  exact congrArg _ (if_pos hc)

theorem changes_take_mono {m m' : ℕ} (h : m ≤ m') (key : String) (l : List (Op Request)) :
    changes key (l.take m) ≤ changes key (l.take m') := by
  have := changes_take_le key (l.take m') m
  rwa [List.take_take, min_eq_left h] at this

/-- Two operations that change a key do so after different numbers of changes. -/
theorem eq_of_changes_take_eq {m m' : ℕ} {o' : Op Request} (hm : l[m]? = some o)
    (hm' : l[m']? = some o') (hc : Changes key (before l m) o.req)
    (hc' : Changes key (before l m') o'.req)
    (heq : changes key (l.take m) = changes key (l.take m')) : m = m' := by
  have hsucc := changes_take_succ hm hc
  have hsucc' := changes_take_succ hm' hc'
  rcases lt_trichotomy m m' with hlt | rfl | hlt
  · have := changes_take_mono (show m + 1 ≤ m' from hlt) key l
    omega
  · rfl
  · have := changes_take_mono (show m' + 1 ≤ m from hlt) key l
    omega

/-- Of all operations that put a key with one version, at most one changes the store, as
long as the version has not come round. -/
theorem eq_of_same_version {m m' : ℕ} {o' : Op Request} {r r' : PutArgs} (hm : l[m]? = some o)
    (hm' : l[m']? = some o') (hr : o.req = .put r) (hr' : o'.req = .put r') (hkey : r'.key = r.key)
    (hversion : r'.version = r.version) (hc : Changes r.key (before l m) o.req)
    (hc' : Changes r.key (before l m') o'.req) (hfew : changes r.key l ≤ 2 ^ 64) : m = m' := by
  refine eq_of_changes_take_eq hm hm' hc hc' ?_
  have hv := version_of_changes hr hc
  have hv' := version_of_changes hr' (hkey ▸ hc')
  have hlt := changes_take_succ hm hc
  have hlt' := changes_take_succ hm' hc'
  have hle := changes_take_le r.key l (m + 1)
  have hle' := changes_take_le r.key l (m' + 1)
  rw [hversion, hv, hkey, UInt64.ofNat_eq_iff_mod_eq_toNat, UInt64.toNat_ofNat'] at hv'
  rwa [Nat.mod_eq_of_lt (by omega), Nat.mod_eq_of_lt (by omega)] at hv'

end Counting

section Invariant

/-- What one operation writes is the number of changes with it. -/
theorem version_of_writes {v : ℤ} (h : Writes key l m o v) (hfew : changes key l < 2 ^ 63) :
    v = changes key (l.take m) + 1 := by
  have hle := changes_take_le key l (m + 1)
  rw [← h.version, before, versionNo_eq, Int64.toInt_ofNat_of_lt (by omega),
    changes_take_succ h.op h.changes]
  rfl

/-- An operation that changes a key writes the next version of it. -/
theorem writes_of_changes (hm : l[m]? = some o) (hc : Changes key (before l m) o.req)
    (hfew : changes key l < 2 ^ 63) : Writes key l m o (changes key (l.take m) + 1) := by
  refine ⟨hm, hc, ?_⟩
  have hle := changes_take_le key l (m + 1)
  rw [before, versionNo_eq, Int64.toInt_ofNat_of_lt (by omega), changes_take_succ hm hc]
  rfl

/-- What operation number `m` has done stays done when the log grows. -/
theorem changes_of_append {l' : List (Op Request)} (hm : l[m]? = some o)
    (hc : Changes key (before l m) o.req) : (l ++ l')[m]? = some o ∧
      Changes key (before (l ++ l') m) o.req ∧ (l ++ l').take m = l.take m := by
  have hlt : m < l.length := (List.getElem?_eq_some_iff.mp hm).1
  have htake : (l ++ l').take m = l.take m := List.take_append_of_le_length hlt.le
  refine ⟨by rw [List.getElem?_append_left hlt, hm], ?_, htake⟩
  rw [before, htake]
  exact hc

/-- The last operation of a log, where it changes the key. -/
theorem changes_of_last (hc : Changes key (after KVServer.empty l) o.req) :
    (l ++ [o])[l.length]? = some o ∧ Changes key (before (l ++ [o]) l.length) o.req ∧
      (l ++ [o]).take l.length = l := by
  have htake : (l ++ [o]).take l.length = l := List.take_left
  refine ⟨List.getElem?_concat_length, ?_, htake⟩
  rw [before, htake]
  exact hc

/-- Every number up to that of the changes is reached by an operation. -/
theorem exists_writer (l : List (Op Request)) {v : ℕ} (h1 : 1 ≤ v) (hv : v ≤ changes key l) :
    ∃ m o, l[m]? = some o ∧ Changes key (before l m) o.req ∧ changes key (l.take m) + 1 = v := by
  induction l using List.reverseRecOn with
  | nil => exact absurd (h1.trans hv) (by simp [changes, annotate])
  | append_singleton l o ih =>
    by_cases hold : v ≤ changes key l
    · obtain ⟨m, o', hm, hc, hcount⟩ := ih hold
      obtain ⟨hm', hc', htake⟩ := changes_of_append hm hc
      exact ⟨m, o', hm', hc', by rw [htake, hcount]⟩
    · have hconcat := changes_concat key l o
      split_ifs at hconcat with hc
      · obtain ⟨hm, hc', htake⟩ := changes_of_last hc
        exact ⟨l.length, o, hm, hc', by rw [htake]; omega⟩
      · omega

/-- The table after one more operation: the entry of a `Put` that was stored just now, or an
entry from before. -/
theorem lookup_concat {fk : FilterKey} {ve : VersionErr}
    (h : (after KVServer.empty (l ++ [o])).dedupTracker.lookup fk = some ve) :
    (after KVServer.empty l).dedupTracker.lookup fk = some ve ∨
    ∃ r, o.req = .put r ∧ (after KVServer.empty l).Stores r ∧ fk = ⟨r.key, r.clerkId⟩ ∧
      ve = ⟨r.version.toInt64, .ok⟩ := by
  rw [after_concat] at h
  cases hreq : o.req with
  | get r => exact Or.inl (by rwa [hreq] at h)
  | unknown x => exact Or.inl (by rwa [hreq] at h)
  | put r =>
    simp only [hreq, KVServer.doOp] at h
    by_cases hst : (after KVServer.empty l).Stores r
    · rw [put_of_stores hst] at h
      by_cases hfk : fk = ⟨r.key, r.clerkId⟩
      · subst hfk
        rw [Finmap.lookup_insert] at h
        exact Or.inr ⟨r, rfl, hst, rfl, (Option.some.inj h).symm⟩
      · rw [Finmap.lookup_insert_of_ne _ hfk] at h
        exact Or.inl h
    · rw [put_fst_of_not_stores hst] at h
      exact Or.inl h

/-- An entry of the table holds the number of changes before an operation of its clerk that
changed its key. -/
theorem exists_tracked (l : List (Op Request)) {c : Int64} {ve : VersionErr}
    (h : (after KVServer.empty l).dedupTracker.lookup ⟨key, c⟩ = some ve) :
    ve.err = .ok ∧ ∃ m o r, l[m]? = some o ∧ Changes key (before l m) o.req ∧ o.req = .put r ∧
      r.clerkId = c ∧ ve.versionNo = Int64.ofNat (changes key (l.take m)) := by
  induction l using List.reverseRecOn with
  | nil => simp [after, KVServer.empty] at h
  | append_singleton l o ih =>
    rcases lookup_concat h with hold | ⟨r, hreq, hst, hfk, rfl⟩
    · obtain ⟨hok, m, o', r, hm, hc, hr, hclerk, hversion⟩ := ih hold
      obtain ⟨hm', hc', htake⟩ := changes_of_append hm hc
      exact ⟨hok, m, o', r, hm', hc', hr, hclerk, by rw [htake, hversion]⟩
    · obtain ⟨rfl, rfl⟩ := FilterKey.mk.inj hfk
      obtain ⟨hm, hc, htake⟩ := changes_of_last (changes_iff.mpr ⟨r, hreq, rfl, hst⟩)
      refine ⟨rfl, l.length, o, r, hm, hc, hreq, rfl, ?_⟩
      rw [htake, hst.2, versionNo_eq]

/-- The number of changes that an operation finds is below that of all changes. -/
theorem changes_take_lt (hm : l[m]? = some o) (hc : Changes key (before l m) o.req) :
    changes key (l.take m) < changes key l := by
  have hsucc := changes_take_succ hm hc
  have hle := changes_take_le key l (m + 1)
  omega

/-- The invariant holds of every log that has changed the key fewer than `2 ^ 63` times. -/
theorem versioned (hfew : changes key l < 2 ^ 63) : Versioned key l := by
  have hcount : ((after KVServer.empty l).current key).versionNo.toInt = changes key l := by
    rw [versionNo_eq, Int64.toInt_ofNat_of_lt hfew]
  refine ⟨hcount, fun v h1 hv => ?_, fun c ve hve => ?_⟩
  · obtain ⟨m, o, hm, hc, rfl⟩ := exists_writer l h1 hv
    refine ⟨m, ⟨o, by exact_mod_cast writes_of_changes hm hc hfew⟩, ?_⟩
    rintro m' ⟨o', hw⟩
    have heq := version_of_writes hw hfew
    exact eq_of_changes_take_eq hw.op hm hw.changes hc (by omega)
  · obtain ⟨hok, m, o, r, hm, hc, hr, hclerk, hversion⟩ := exists_tracked l hve
    have hlt := changes_take_lt hm hc
    have htoInt : ve.versionNo.toInt = changes key (l.take m) := by
      rw [hversion, Int64.toInt_ofNat_of_lt (by omega)]
    refine ⟨hok, by omega, m, o, r, ?_, hr, hclerk⟩
    rw [htoInt]
    exact writes_of_changes hm hc hfew

/-- A key is in the store exactly if it was changed. -/
theorem lookup_eq_none_iff (key : String) (l : List (Op Request)) :
    (after KVServer.empty l).kvStore.lookup key = none ↔ changes key l = 0 := by
  induction l using List.reverseRecOn with
  | nil => simp [after, KVServer.empty, changes, annotate]
  | append_singleton l o ih =>
    rw [changes_concat, after_concat]
    by_cases hc : Changes key (after KVServer.empty l) o.req
    · obtain ⟨r, hreq, rfl, hst⟩ := changes_iff.mp hc
      rw [if_pos hc]
      simp [hreq, KVServer.doOp, put_of_stores hst, Finmap.lookup_insert]
    · rw [if_neg hc, not_not.mp hc, ih, Nat.add_zero]

/-- What `Get` replies. -/
theorem get_reply (key : String) (l : List (Op Request)) :
    (changes key l = 0 ∧ (after KVServer.empty l).get ⟨key⟩ = ⟨"", 0, .errNoKey⟩) ∨
    0 < changes key l ∧
      ∃ value, (after KVServer.empty l).get ⟨key⟩ = ⟨value, UInt64.ofNat (changes key l), .ok⟩ := by
  have hnone := lookup_eq_none_iff key l
  have hversion := version_eq key l
  rw [KVServer.current] at hversion
  rw [KVServer.get]
  cases hval : (after KVServer.empty l).kvStore.lookup key with
  | none => exact Or.inl ⟨hnone.mp hval, rfl⟩
  | some val =>
    rw [hval, Option.getD_some] at hversion
    refine Or.inr ⟨Nat.pos_of_ne_zero fun hzero => ?_, val.value, by rw [← hversion]⟩
    rw [hnone.mpr hzero] at hval
    cases hval

end Invariant

end DistributedLabs.KvVersions
