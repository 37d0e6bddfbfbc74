import Mathlib.Algebra.BigOperators.Group.Finset.Basic
import Mathlib.Algebra.Order.BigOperators.Group.Finset
import Mathlib.Data.Fintype.Basic
import Mathlib.Tactic.Ring

/-!
# Loads of an assignment

Items are assigned to groups, and the load of a group is the number of its items. Moving an
item from a group to one that has at least two items less lowers the sum of the squares of the
loads, so such moves come to an end. Two invariants say what greedy moves and assignments keep.
-/

namespace DistributedLabs.LoadBalancing

open Finset

variable {ι G : Type*} [Fintype ι] [DecidableEq ι] [DecidableEq G]

def load (f : ι → G) (g : G) : ℕ := #{i | f i = g}

variable {f : ι → G} {i : ι} {a g : G} {S : Finset G}

section Moves

theorem load_update_to (h : f i ≠ a) : load (Function.update f i a) a = load f a + 1 := by
  have hset : ({j | Function.update f i a j = a} : Finset ι) =
      insert i ({j | f j = a} : Finset ι) := by
    ext j
    by_cases hj : j = i
    · simp [hj]
    · simp [hj]
  rw [load, hset, card_insert_of_notMem (by simpa using h), load]

theorem load_update_from (h : f i ≠ a) : load (Function.update f i a) (f i) + 1 = load f (f i) := by
  have hset : ({j | f j = f i} : Finset ι) =
      insert i ({j | Function.update f i a j = f i} : Finset ι) := by
    ext j
    by_cases hj : j = i
    · simp [hj]
    · simp [hj]
  have hnew : i ∉ ({j | Function.update f i a j = f i} : Finset ι) := by
    simpa using Ne.symm h
  rw [load, load, hset, card_insert_of_notMem hnew]

theorem load_update_of_ne (hto : g ≠ a) (hfrom : g ≠ f i) :
    load (Function.update f i a) g = load f g := by
  have hset : ({j | Function.update f i a j = g} : Finset ι) = ({j | f j = g} : Finset ι) := by
    ext j
    by_cases hj : j = i
    · simp [hj, hto.symm, hfrom.symm]
    · simp [hj]
  rw [load, hset, load]

def potential (S : Finset G) (f : ι → G) : ℕ := ∑ g ∈ S, load f g ^ 2

/-- A move from a group to one that has at least two items less. -/
theorem potential_update_lt (hfrom : f i ∈ S) (hto : a ∈ S) (h : load f a + 2 ≤ load f (f i)) :
    potential S (Function.update f i a) < potential S f := by
  have hne : f i ≠ a := by
    intro heq
    rw [heq] at h
    omega
  have hmem : a ∈ S.erase (f i) := mem_erase.mpr ⟨hne.symm, hto⟩
  have hrest : ∑ g ∈ (S.erase (f i)).erase a, load (Function.update f i a) g ^ 2 =
      ∑ g ∈ (S.erase (f i)).erase a, load f g ^ 2 := by
    refine sum_congr rfl fun g hg => ?_
    have hga := ne_of_mem_erase hg
    have hgi := ne_of_mem_erase (mem_of_mem_erase hg)
    rw [load_update_of_ne hga hgi]
  have hto' := load_update_to hne
  have hfrom' := load_update_from hne
  simp only [potential, ← add_sum_erase S _ hfrom, ← add_sum_erase (S.erase (f i)) _ hmem, hrest,
    hto', ← hfrom']
  obtain ⟨d, hd⟩ : ∃ d, load (Function.update f i a) (f i) = load f a + 1 + d :=
    ⟨load (Function.update f i a) (f i) - load f a - 1, by omega⟩
  rw [hd]
  ring_nf
  omega

end Moves

section Greedy

/-- The loads of the groups differ by at most one. -/
def Balanced (S : Finset G) (f : ι → G) : Prop := ∀ g ∈ S, ∀ g' ∈ S, load f g ≤ load f g' + 1

/-- Giving a new item to a group with the least load keeps the loads balanced. -/
theorem Balanced.assign (h : Balanced S f) (hi : f i ∉ S) (ha : a ∈ S)
    (hleast : ∀ g ∈ S, load f a ≤ load f g) : Balanced S (Function.update f i a) := by
  have hne : f i ≠ a := fun heq => hi (heq ▸ ha)
  have hto := load_update_to hne
  have hother {g : G} (hg : g ∈ S) (hga : g ≠ a) : load (Function.update f i a) g = load f g :=
    load_update_of_ne hga fun heq => hi (heq ▸ hg)
  intro g hg g' hg'
  have hgg := h g hg g' hg'
  have hle := hleast g' hg'
  by_cases hga : g = a
  · by_cases hga' : g' = a
    · rw [hga, hga']
      omega
    · rw [hga, hto, hother hg' hga']
      omega
  · by_cases hga' : g' = a
    · rw [hga', hto, hother hg hga]
      rw [hga'] at hgg
      omega
    · rw [hother hg hga, hother hg' hga']
      exact hgg

omit [DecidableEq ι] in
/-- Where the loads are balanced and there are enough items, every group has one. -/
theorem Balanced.load_pos (h : Balanced S f) (hall : ∀ i, f i ∈ S) (hcard : #S ≤ Fintype.card ι)
    (hg : g ∈ S) : 0 < load f g := by
  by_contra hzero
  have hzero : load f g = 0 := by omega
  have htotal : Fintype.card ι = ∑ g' ∈ S, load f g' :=
    card_eq_sum_card_fiberwise fun i _ => hall i
  have hone : ∀ g' ∈ S.erase g, load f g' ≤ 1 := fun g' hg' => by
    have := h g' (mem_of_mem_erase hg') g hg
    omega
  have hsum := sum_le_sum hone
  rw [← card_eq_sum_ones, card_erase_of_mem hg] at hsum
  rw [← add_sum_erase _ _ hg, hzero, zero_add] at htotal
  have hpos : 0 < #S := card_pos.mpr ⟨g, hg⟩
  omega

/-- No group is more than one ahead of a group of `old`. -/
def Level (old S : Finset G) (f : ι → G) : Prop :=
  ∀ g ∈ old, ∀ g' ∈ S, load f g' ≤ load f g + 1

variable {old : Finset G}

omit [DecidableEq ι] in
/-- An old group does not receive an item. -/
theorem Level.receiver (h : Level old S f) (hg : g ∈ S) (hlt : load f a + 2 ≤ load f g) :
    a ∉ old := by
  intro ha
  have := h a ha g hg
  omega

/-- A move from a group with the greatest load keeps the groups level. -/
theorem Level.move (h : Level old S f) (hi : f i ∈ S)
    (hmost : ∀ g ∈ S, load f g ≤ load f (f i)) (hlt : load f a + 2 ≤ load f (f i)) :
    Level old S (Function.update f i a) := by
  have hne : f i ≠ a := by
    intro heq
    rw [heq] at hlt
    omega
  have hto := load_update_to hne
  have hfrom := load_update_from hne
  have hnew := h.receiver hi hlt
  have hle (g' : G) (hg' : g' ∈ S) : load (Function.update f i a) g' ≤ load f (f i) := by
    by_cases hga : g' = a
    · rw [hga, hto]
      omega
    · by_cases hgi : g' = f i
      · rw [hgi]
        omega
      · rw [load_update_of_ne hga hgi]
        exact hmost g' hg'
  intro g hg g' hg'
  have hga : g ≠ a := fun heq => hnew (heq ▸ hg)
  by_cases hgi : g = f i
  · rw [hgi, hfrom]
    exact hle g' hg'
  · rw [load_update_of_ne hga hgi]
    exact (hle g' hg').trans (h g hg (f i) hi)

end Greedy

end DistributedLabs.LoadBalancing
