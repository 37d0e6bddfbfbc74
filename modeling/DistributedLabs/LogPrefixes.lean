import Mathlib.Data.List.Basic
import Mathlib.Data.List.Infix

/-!
# Adopting a prefix of another log

A replica that receives a copy `x` of part of another log keeps its own log when
that log already extends `x`, and falls back to `x` otherwise. Nothing that both
the replica and the source of `x` hold can be lost in this way.
-/

namespace DistributedLabs.LogPrefixes

variable {α : Type*}

open Classical in
/-- Keep `l` when it already extends `x`, otherwise replace it by `x`. -/
noncomputable def adopt (l x : List α) : List α := if x <+: l then l else x

theorem adopt_eq_left {l x : List α} (h : x <+: l) : adopt l x = l := if_pos h

theorem adopt_eq_right {l x : List α} (h : ¬ x <+: l) : adopt l x = x := if_neg h

theorem adopt_cases (l x : List α) : adopt l x = l ∨ adopt l x = x := by
  by_cases h : x <+: l
  · exact Or.inl (adopt_eq_left h)
  · exact Or.inr (adopt_eq_right h)

theorem prefix_adopt (l x : List α) : x <+: adopt l x := by
  by_cases h : x <+: l
  · rwa [adopt_eq_left h]
  · rw [adopt_eq_right h]

/-- A common prefix of the replica's log and of the source survives every
adoption from that source, however short the adopted part is. -/
theorem prefix_adopt_take {y l source : List α} (hl : y <+: l) (hs : y <+: source) (m : ℕ) :
    y <+: adopt l (source.take m) := by
  by_cases h : source.take m <+: l
  · rwa [adopt_eq_left h]
  · rw [adopt_eq_right h]
    rcases List.prefix_or_prefix_of_prefix hs (List.take_prefix m source) with hy | hy
    · exact hy
    · exact absurd (hy.trans hl) h

/-- Two adoptions from one source come to the adoption of the longer part, in either order. -/
theorem adopt_adopt_take (l source : List α) (i j : ℕ) :
    adopt (adopt l (source.take i)) (source.take j) = adopt l (source.take (max i j)) := by
  rcases le_total i j with hij | hij
  · rw [max_eq_right hij]
    have hpre : source.take i <+: source.take j := List.take_prefix_take_left hij
    by_cases hl : source.take j <+: l
    · rw [adopt_eq_left (hpre.trans hl)]
    rw [adopt_eq_right hl]
    rcases adopt_cases l (source.take i) with hcase | hcase
    · rw [hcase, adopt_eq_right hl]
    · rw [hcase]
      by_cases hback : source.take j <+: source.take i
      · rw [adopt_eq_left hback]
        exact hpre.eq_of_length_le hback.length_le
      · exact adopt_eq_right hback
  · rw [max_eq_left hij]
    have hpre : source.take j <+: source.take i := List.take_prefix_take_left hij
    exact adopt_eq_left (hpre.trans (prefix_adopt l _))

/-- Two lists of one length that are prefixes of a common list coincide. -/
theorem eq_of_initial_of_length {x y l : List α} (hx : x <+: l) (hy : y <+: l)
    (hlen : x.length = y.length) : x = y := by
  rw [List.prefix_iff_eq_take.mp hx, List.prefix_iff_eq_take.mp hy, hlen]

theorem getElem?_of_initial {x l : List α} (h : x <+: l) {i : ℕ} {a : α}
    (ha : x[i]? = some a) : l[i]? = some a := by
  obtain ⟨hi, rfl⟩ := List.getElem?_eq_some_iff.mp ha
  exact List.prefix_iff_getElem?.mp h i hi

/-- Below the length of a prefix the two lists have the same entries. -/
theorem getElem?_eq_of_initial {x l : List α} (h : x <+: l) {i : ℕ} (hi : i < x.length) :
    l[i]? = x[i]? := by
  rw [List.getElem?_eq_getElem hi]
  exact List.prefix_iff_getElem?.mp h i hi

/-- Truncating at a position below the length of a prefix does not see the rest. -/
theorem take_eq_take_of_initial {x l : List α} (h : x <+: l) {m : ℕ} (hm : m ≤ x.length) :
    x.take m = l.take m := by
  rw [List.prefix_iff_eq_take.mp h, List.take_take, Nat.min_eq_left hm]

theorem take_prefix_take {l : List α} {m k : ℕ} (h : m ≤ k) : l.take m <+: l.take k := by
  rw [← Nat.min_eq_left h, ← List.take_take]
  exact List.take_prefix m _

theorem take_succ_of_getElem? {l : List α} {i : ℕ} {a : α} (h : l[i]? = some a) :
    l.take (i + 1) = l.take i ++ [a] := by
  rw [List.take_add_one, h]
  rfl

/-- The last entry of a nonempty truncation. -/
theorem getLast?_take {l : List α} {m : ℕ} (hm : 0 < m) (hl : m ≤ l.length) :
    (l.take m).getLast? = l[m - 1]? := by
  rw [List.getLast?_eq_getElem?, List.length_take, Nat.min_eq_left hl,
    List.getElem?_take_of_lt (by omega)]

section Updates

variable {l : List α} {i k : ℕ} {x y : α}

theorem getElem?_set_cases (h : (l.set i x)[k]? = some y) :
    (k = i ∧ y = x) ∨ (k ≠ i ∧ l[k]? = some y) := by
  rw [List.getElem?_set] at h
  split_ifs at h with hik hlt
  · exact Or.inl ⟨hik.symm, (Option.some.inj h).symm⟩
  · exact Or.inr ⟨fun hki => hik hki.symm, h⟩

theorem getElem?_concat_cases (h : (l ++ [x])[k]? = some y) :
    (k = l.length ∧ y = x) ∨ l[k]? = some y := by
  rcases Nat.lt_trichotomy k l.length with hk | rfl | hk
  · exact Or.inr (by rwa [List.getElem?_append_left hk] at h)
  · simp only [List.getElem?_concat_length, Option.some.injEq] at h
    exact Or.inl ⟨rfl, h.symm⟩
  · rw [List.getElem?_eq_none (by simp; omega)] at h
    cases h

end Updates

end DistributedLabs.LogPrefixes
