import Mathlib.Data.Fintype.Card
import Mathlib.Data.Finset.Card
import Mathlib.Data.Fintype.Fin
import Mathlib.Data.List.OfFn
import Mathlib.Data.List.Sort
import Mathlib.Data.List.FinRange

/-!
# Majorities and the median of a sorted vector

Two majorities of one finite set share a member. The element at position
`(n - 1) / 2` of an ascending enumeration of `n` numbers is reached by a majority
of the positions, for odd and for even `n`.
-/

namespace DistributedLabs.MajorityQuorums

variable {P : Type*} [Fintype P]

def Majority (Q : Finset P) : Prop := Fintype.card P / 2 + 1 ≤ Q.card

/-- Two majorities share a member. -/
theorem Majority.inter [DecidableEq P] {Q R : Finset P} (hQ : Majority Q) (hR : Majority R) :
    ∃ p, p ∈ Q ∧ p ∈ R := by
  have hcard := Finset.card_union_add_card_inter Q R
  have hle : (Q ∪ R).card ≤ Fintype.card P := Finset.card_le_univ _
  unfold Majority at hQ hR
  have hpos : 0 < (Q ∩ R).card := by omega
  obtain ⟨p, hp⟩ := Finset.card_pos.mp hpos
  exact ⟨p, (Finset.mem_inter.mp hp).1, (Finset.mem_inter.mp hp).2⟩

/-- The median of an ascending enumeration. -/
def median {n : ℕ} (m : Fin n → ℤ) : ℤ :=
  ((List.ofFn m).insertionSort (· ≤ ·)).getD ((n - 1) / 2) 0

theorem card_filter_eq_countP {n : ℕ} (m : Fin n → ℤ) (x : ℤ) :
    (Finset.univ.filter (fun i => x ≤ m i)).card = (List.ofFn m).countP (fun y => x ≤ y) := by
  rw [List.ofFn_eq_map, List.countP_map, Finset.card_def, Finset.filter_val,
    List.countP_eq_length_filter]
  rfl

/-- A majority of the positions reach the median. -/
theorem majority_median {n : ℕ} (hn : 0 < n) (m : Fin n → ℤ) :
    Majority (Finset.univ.filter (fun i => median m ≤ m i)) := by
  set l := (List.ofFn m).insertionSort (· ≤ ·) with hl
  have hlen : l.length = n := by rw [hl, List.length_insertionSort, List.length_ofFn]
  have hsorted : l.Pairwise (· ≤ ·) := List.pairwise_insertionSort _ _
  have hk : (n - 1) / 2 < l.length := by omega
  have hmed : median m = l[(n - 1) / 2] := by
    rw [median, ← hl, List.getD_eq_getElem?_getD, List.getElem?_eq_getElem hk]
    rfl
  have hall : ∀ y ∈ l.drop ((n - 1) / 2), median m ≤ y := by
    intro y hy
    obtain ⟨i, hi, rfl⟩ := List.mem_iff_getElem.mp hy
    rw [List.getElem_drop, hmed]
    rcases Nat.eq_zero_or_pos i with rfl | hpos
    · simp
    · exact List.pairwise_iff_getElem.mp hsorted _ _ hk _ (by omega)
  have hcount : l.length - (n - 1) / 2 ≤ l.countP (fun y => median m ≤ y) := by
    have hdrop :
        (l.drop ((n - 1) / 2)).countP (fun y => median m ≤ y) = l.length - (n - 1) / 2 := by
      rw [← List.length_drop, List.countP_eq_length]
      exact fun y hy => decide_eq_true (hall y hy)
    rw [← hdrop]
    exact (List.drop_sublist _ _).countP_le
  rw [Majority, card_filter_eq_countP, ← (List.perm_insertionSort (· ≤ ·) (List.ofFn m)).countP_eq,
    Fintype.card_fin, ← hl]
  omega

end DistributedLabs.MajorityQuorums
