import Mathlib.Data.List.Basic
import Mathlib.Data.List.Perm.Basic
import Mathlib.Order.Basic
import Mathlib.Order.Lattice

/-!
# Runs of equal keys

A list is cut into the runs of neighbours with equal keys. In a list that is sorted by its keys
each key has one run, which holds all the elements with this key.
-/

namespace DistributedLabs.SortedRuns

variable {α κ : Type*}

section Runs

variable [DecidableEq κ] (key : α → κ)

/-- The runs of neighbours with equal keys. -/
def runs : List α → List (κ × List α)
  | [] => []
  | x :: l =>
    (key x, x :: l.takeWhile fun y => key y = key x) :: runs (l.dropWhile fun y => key y = key x)
termination_by l => l.length
decreasing_by
  have := (List.dropWhile_sublist fun y => decide (key y = key x) : List.Sublist _ l).length_le
  simp only [List.length_cons]
  omega

variable {key} {l : List α} {k : κ}

omit [DecidableEq κ] in
theorem take_length_takeWhile (p : α → Bool) (l : List α) :
    l.take (l.takeWhile p).length = l.takeWhile p :=
  (List.prefix_iff_eq_take.mp (List.takeWhile_prefix p)).symm

omit [DecidableEq κ] in
theorem drop_length_takeWhile (p : α → Bool) (l : List α) :
    l.drop (l.takeWhile p).length = l.dropWhile p := by
  have hsplit := List.take_append_drop (l.takeWhile p).length l
  rw [take_length_takeWhile] at hsplit
  exact List.append_cancel_left (hsplit.trans (List.takeWhile_append_dropWhile ..).symm)

@[simp] theorem runs_nil : runs key ([] : List α) = [] := by rw [runs]

theorem runs_cons (x : α) (l : List α) :
    runs key (x :: l) = (key x, x :: l.takeWhile fun y => key y = key x) ::
      runs key (l.dropWhile fun y => key y = key x) := by
  rw [runs]

end Runs

section Sorted

variable [LinearOrder κ] [DecidableEq κ] {key : α → κ} {l : List α} {k : κ}

def SortedByKey (key : α → κ) (l : List α) : Prop := l.Pairwise fun x y => key x ≤ key y

/-- The elements with the least key come first. -/
theorem split_sorted (h : SortedByKey key l) (hk : ∀ x ∈ l, k ≤ key x) :
    l.takeWhile (fun y => key y = k) = l.filter (fun y => key y = k) ∧
      l.dropWhile (fun y => key y = k) = l.filter (fun y => key y ≠ k) := by
  induction l with
  | nil => exact ⟨rfl, rfl⟩
  | cons x l ih =>
    have hcons := List.pairwise_cons.mp h
    by_cases hx : key x = k
    · obtain ⟨htake, hdrop⟩ := ih hcons.2 fun y hy => hk y (List.mem_cons_of_mem x hy)
      constructor
      · simp [hx, htake]
      · simp [hx, hdrop]
    · have hlt : k < key x := lt_of_le_of_ne (hk x List.mem_cons_self) (Ne.symm hx)
      have hrest (y : α) (hy : y ∈ l) : key y ≠ k := (hlt.trans_le (hcons.1 y hy)).ne'
      constructor
      · simpa [hx] using hrest
      · rw [List.dropWhile_cons_of_neg (by simpa using hx), eq_comm, List.filter_eq_self]
        intro y hy
        rcases List.mem_cons.mp hy with rfl | hy
        · simpa using hx
        · simpa using hrest y hy

/-- What is left of a sorted list after the first run. -/
theorem runs_sorted_cons {x : α} (h : SortedByKey key (x :: l)) :
    runs key (x :: l) = (key x, (x :: l).filter fun y => key y = key x) ::
      runs key (l.filter fun y => key y ≠ key x) := by
  have hcons := List.pairwise_cons.mp h
  obtain ⟨htake, hdrop⟩ := split_sorted hcons.2 hcons.1
  rw [runs_cons, htake, hdrop]
  simp

omit [DecidableEq κ] in
theorem SortedByKey.filter (h : SortedByKey key l) (p : α → Bool) : SortedByKey key (l.filter p) :=
  List.Pairwise.filter p h

/-- In a sorted list every key has one run, with all the elements that have it. -/
theorem runs_spec (h : SortedByKey key l) :
    ((runs key l).map Prod.fst).Pairwise (· < ·) ∧
      (∀ k, k ∈ (runs key l).map Prod.fst ↔ ∃ x ∈ l, key x = k) ∧
      ∀ r ∈ runs key l, r.2 = l.filter fun y => key y = r.1 := by
  induction hn : l.length using Nat.strongRecOn generalizing l with
  | ind n ih =>
    cases l with
    | nil => simp
    | cons x l =>
      have hcons := List.pairwise_cons.mp h
      have hlen : (l.filter fun y => key y ≠ key x).length < n := by
        have := List.length_filter_le (fun y => decide (key y ≠ key x)) l
        simp only [List.length_cons] at hn
        omega
      obtain ⟨hlt, hmem, hval⟩ := ih _ hlen (SortedByKey.filter hcons.2 _) rfl
      rw [runs_sorted_cons h]
      refine ⟨?_, fun k => ?_, ?_⟩
      · rw [List.map_cons, List.pairwise_cons]
        refine ⟨fun k hk => ?_, hlt⟩
        obtain ⟨y, hy, rfl⟩ := (hmem k).mp hk
        have hy := List.mem_filter.mp hy
        exact lt_of_le_of_ne (hcons.1 y hy.1) (Ne.symm (by simpa using hy.2))
      · rw [List.map_cons, List.mem_cons, hmem]
        constructor
        · rintro (rfl | ⟨y, hy, rfl⟩)
          · exact ⟨x, List.mem_cons_self, rfl⟩
          · exact ⟨y, List.mem_cons_of_mem x (List.mem_of_mem_filter hy), rfl⟩
        · rintro ⟨y, hy, rfl⟩
          by_cases hyx : key y = key x
          · exact .inl hyx
          · rcases List.mem_cons.mp hy with rfl | hy
            · exact (hyx rfl).elim
            · exact .inr ⟨y, List.mem_filter.mpr ⟨hy, by simpa using hyx⟩, rfl⟩
      · intro r hr
        rcases List.mem_cons.mp hr with rfl | hr
        · rfl
        · rw [hval r hr, List.filter_filter]
          obtain ⟨y, hy, hkey⟩ := (hmem r.1).mp (List.mem_map_of_mem hr)
          have hne : r.1 ≠ key x := by
            rw [← hkey]
            simpa using (List.mem_filter.mp hy).2
          rw [List.filter_cons_of_neg (by simpa using hne.symm)]
          refine List.filter_congr fun z _ => ?_
          by_cases hz : key z = r.1
          · simp [hz, hne]
          · simp [hz]

end Sorted

end DistributedLabs.SortedRuns
