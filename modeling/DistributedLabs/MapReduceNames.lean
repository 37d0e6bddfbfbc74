import DistributedLabs.MapReduceCoordinator
import Mathlib.Tactic.IntervalCases

/-!
# Names of the files of a job

The names of the intermediate and output files are all different.
-/

namespace DistributedLabs.MapReduce

def itoa (n : ℕ) : GoString := (Nat.toDigits 10 n).map Char.toUInt8

def mrName (x y : ℕ) : GoString := [109, 114, 45] ++ itoa x ++ [45] ++ itoa y

def outName (y : ℕ) : GoString := [109, 114, 45, 111, 117, 116, 45] ++ itoa y

/-- The names of the intermediate and output files of a job. A name is the entry of a file in the
directory of the job, so that two paths of one file, such as `mr-0-0` and `./mr-0-0`, are one name
here. -/
def Reserved (nmap nreduce : ℕ) (name : GoString) : Prop :=
  ∃ y < nreduce, name = outName y ∨ ∃ x < nmap, name = mrName x y

instance (nmap nreduce : ℕ) (name : GoString) : Decidable (Reserved nmap nreduce name) :=
  inferInstanceAs (Decidable (∃ y < nreduce, name = outName y ∨ ∃ x < nmap, name = mrName x y))

theorem digit_cases {c : Char} (h : c.isDigit = true) :
    48 ≤ c.toUInt8 ∧ c.toUInt8 ≤ 57 ∧ Char.ofNat c.toUInt8.toNat = c := by
  have hle : 48 ≤ c.toNat ∧ c.toNat ≤ 57 := by
    simpa [Char.isDigit, UInt32.le_iff_toNat_le] using h
  rw [← Char.ofNat_toNat c]
  generalize c.toNat = n at hle
  obtain ⟨hlow, hhigh⟩ := hle
  interval_cases n <;> decide

theorem digit_of_mem_itoa {n : ℕ} {d : UInt8} (h : d ∈ itoa n) : 48 ≤ d ∧ d ≤ 57 := by
  obtain ⟨c, hc, rfl⟩ := List.mem_map.mp h
  have hdigit := digit_cases (Nat.isDigit_of_mem_toDigits (by decide) (by decide) hc)
  exact ⟨hdigit.1, hdigit.2.1⟩

theorem itoa_injective : Function.Injective itoa := by
  have hback (n : ℕ) : (itoa n).map (fun d => Char.ofNat d.toNat) = Nat.toDigits 10 n := by
    rw [itoa, List.map_map]
    conv_rhs => rw [← List.map_id (Nat.toDigits 10 n)]
    refine List.map_congr_left fun c hc => ?_
    exact (digit_cases (Nat.isDigit_of_mem_toDigits (by decide) (by decide) hc)).2.2
  intro n m h
  have heq : Nat.toDigits 10 n = Nat.toDigits 10 m := by rw [← hback, h, hback]
  rw [← Nat.ofDigitChars_ten_toDigits (n := n), heq, Nat.ofDigitChars_ten_toDigits]

theorem dash_notMem_itoa (n : ℕ) : 45 ∉ itoa n := by
  intro h
  exact absurd (digit_of_mem_itoa h).1 (by decide)

/-- The digits end at the first dash. -/
theorem takeWhile_itoa (n : ℕ) (l : GoString) :
    (itoa n ++ 45 :: l).takeWhile (· ≠ 45) = itoa n := by
  rw [List.takeWhile_append_of_pos, List.takeWhile_cons_of_neg, List.append_nil]
  · decide
  · intro d hd
    simpa using ne_of_mem_of_not_mem hd (dash_notMem_itoa n)

theorem mrName_inj {x y x' y' : ℕ} (h : mrName x y = mrName x' y') : x = x' ∧ y = y' := by
  simp only [mrName, List.append_assoc, List.singleton_append] at h
  have h := List.append_cancel_left h
  have hx : itoa x = itoa x' := by rw [← takeWhile_itoa x (itoa y), h, takeWhile_itoa]
  rw [hx] at h
  exact ⟨itoa_injective hx, itoa_injective (List.cons.inj (List.append_cancel_left h)).2⟩

theorem outName_inj {y y' : ℕ} (h : outName y = outName y') : y = y' :=
  itoa_injective (List.append_cancel_left h)

theorem mrName_ne_outName (x y y' : ℕ) : mrName x y ≠ outName y' := by
  intro h
  cases hx : itoa x with
  | nil => simp [itoa, Nat.toDigits_ne_nil] at hx
  | cons d ds =>
    have hd : d ∈ itoa x := hx ▸ List.mem_cons_self
    simp only [mrName, outName, hx, List.cons_append, List.nil_append, List.cons.injEq,
      true_and] at h
    rw [h.1] at hd
    exact absurd (digit_of_mem_itoa hd).2 (by decide)

end DistributedLabs.MapReduce
