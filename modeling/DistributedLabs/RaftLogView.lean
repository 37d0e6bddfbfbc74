import DistributedLabs.RaftLeader
import DistributedLabs.TermLogProtocol

/-!
# The compacted log as a view of the full log

The slice `rf.log` starts with a dummy and continues with the entries after
`lastIncludedIndex`. It stands for a full log that starts with logical index one. The
operations on the slice are described here as operations on the full log: appending,
compaction, and, for the two ways of taking over entries from a leader, adoption of a
prefix of the leader's log.
-/

namespace DistributedLabs.RaftLogView

open RaftPeer LogPrefixes TermLogProtocol

variable {n : ℕ} {C : Type*}

/-- `log`, with the snapshot's index and term, stands for the full log. -/
structure Represents (full log : List (LogValue C)) (lii lit : ℤ) : Prop where
  nonneg : 0 ≤ lii
  le : lii ≤ full.length
  split : ∃ v, log = v :: full.drop lii.toNat ∧ (0 < lii → v.term = lit)
  term : lit = lastTerm LogValue.term (full.take lii.toNat)

variable {full log : List (LogValue C)} {lii lit : ℤ}

theorem Represents.length (h : Represents full log lii lit) :
    (log.length : ℤ) + lii = full.length + 1 := by
  obtain ⟨v, rfl, -⟩ := h.split
  have := h.nonneg
  have := h.le
  simp only [List.length_cons, List.length_drop]
  omega

theorem Represents.getElem?_succ (h : Represents full log lii lit) (i : ℕ) :
    log[i + 1]? = full[lii.toNat + i]? := by
  obtain ⟨v, rfl, -⟩ := h.split
  rw [List.getElem?_cons_succ, List.getElem?_drop]

/-- Above the snapshot, a logical index finds the entry of the full log. -/
theorem Represents.at? (h : Represents full log lii lit) {j : ℤ} (hj : lii < j) :
    at? log (j - lii) = full[(j - 1).toNat]? := by
  have := h.nonneg
  have hpos : 0 ≤ j - lii := by omega
  obtain ⟨i, hi⟩ : ∃ i : ℕ, (j - lii).toNat = i + 1 := ⟨(j - lii).toNat - 1, by omega⟩
  rw [RaftPeer.at?, if_pos hpos, hi, h.getElem?_succ]
  congr 1
  omega

theorem lastTerm_take {l : List (LogValue C)} {k : ℕ} {v : LogValue C} (hk : 0 < k)
    (hv : l[k - 1]? = some v) : lastTerm LogValue.term (l.take k) = v.term := by
  have hlen := (List.getElem?_eq_some_iff.mp hv).1
  rw [lastTerm, getLast?_take hk (by omega), hv]
  rfl

/-- At the snapshot's own index the dummy has the term of the entry it replaces. -/
theorem Represents.term_at (h : Represents full log lii lit) {j : ℤ} (hj : lii ≤ j)
    (hpos : 0 < j) {v : LogValue C} (hv : full[(j - 1).toNat]? = some v) :
    (log[(j - lii).toNat]?).map LogValue.term = some v.term := by
  have hnn := h.nonneg
  rcases lt_or_eq_of_le hj with hlt | rfl
  · have hat := h.at? hlt
    rw [RaftPeer.at?, if_pos (by omega)] at hat
    rw [hat, hv]
    rfl
  · obtain ⟨w, rfl, hw⟩ := h.split
    have hterm := h.term
    rw [lastTerm_take (by omega) (by rwa [show lii.toNat - 1 = (lii - 1).toNat by omega])] at hterm
    simp [hw hpos, hterm]

theorem Represents.lastTerm_eq (h : Represents full log lii lit) :
    (if 1 < log.length then ((log[log.length - 1]?).map LogValue.term).getD 0 else lit) =
      lastTerm LogValue.term full := by
  have hlen := h.length
  have hnn := h.nonneg
  split
  · next hlong =>
    obtain ⟨i, hi⟩ : ∃ i : ℕ, log.length - 1 = i + 1 := ⟨log.length - 2, by omega⟩
    rw [hi, h.getElem?_succ, lastTerm, List.getLast?_eq_getElem?,
      show lii.toNat + i = full.length - 1 by omega]
  · next hshort =>
    have hfull : lii.toNat = full.length := by
      obtain ⟨v, hv, -⟩ := h.split
      have : 0 < log.length := by rw [hv]; simp
      omega
    rw [h.term, hfull, List.take_length]

theorem Represents.lastLogTerm {rf : Raft n C}
    (h : Represents full rf.log rf.lastIncludedIndex rf.lastIncludedTerm) :
    rf.lastLogTerm = lastTerm LogValue.term full := by
  rw [← h.lastTerm_eq]
  unfold Raft.lastLogTerm Raft.termAt
  split
  · next hlong => rw [show ((rf.log.length : ℤ) - 1).toNat = rf.log.length - 1 by omega]
  · rfl

theorem Represents.lastLogIndex {rf : Raft n C}
    (h : Represents full rf.log rf.lastIncludedIndex rf.lastIncludedTerm) :
    rf.lastLogIndex = full.length := by
  have := h.length
  unfold Raft.lastLogIndex
  omega

/-- The empty log, as `Make` sets it up. -/
theorem represents_initial [Inhabited C] :
    Represents ([] : List (LogValue C)) [dummy (-1)] 0 0 :=
  ⟨le_rfl, le_rfl, ⟨dummy (-1), rfl, fun h => absurd h (lt_irrefl 0)⟩, rfl⟩

theorem Represents.append (h : Represents full log lii lit) (es : List (LogValue C)) :
    Represents (full ++ es) (log ++ es) lii lit := by
  have hle := h.le
  have hnn := h.nonneg
  obtain ⟨v, rfl, hv⟩ := h.split
  refine ⟨hnn, by simp only [List.length_append]; omega, ⟨v, ?_, hv⟩, ?_⟩
  · rw [List.drop_append_of_le_length (by omega)]
    rfl
  · rw [List.take_append_of_le_length (by omega)]
    exact h.term

theorem Represents.truncate (h : Represents full log lii lit) {m : ℕ} (hm : lii ≤ m)
    (hlen : m ≤ full.length) :
    Represents (full.take m) (log.take (m - lii.toNat + 1)) lii lit := by
  have hnn := h.nonneg
  obtain ⟨v, rfl, hv⟩ := h.split
  refine ⟨hnn, ?_, ⟨v, ?_, hv⟩, ?_⟩
  · rw [List.length_take]
    omega
  · rw [List.take_succ_cons, List.drop_take]
  · rw [List.take_take, Nat.min_eq_left (by omega)]
    exact h.term

/-- Compaction keeps the full log. -/
theorem Represents.compact [Inhabited C] (h : Represents full log lii lit) {j : ℤ}
    {v : LogValue C} (hj : lii < j) (hv : full[(j - 1).toNat]? = some v) :
    Represents full (dummy v.term :: log.drop ((j - lii).toNat + 1)) j v.term := by
  have hnn := h.nonneg
  have hlen := (List.getElem?_eq_some_iff.mp hv).1
  refine ⟨by omega, by omega, ⟨dummy v.term, ?_, fun _ => rfl⟩, ?_⟩
  · obtain ⟨w, rfl, -⟩ := h.split
    rw [List.drop_succ_cons, List.drop_drop, show lii.toNat + (j - lii).toNat = j.toNat by omega]
  · rw [lastTerm_take (by omega) (by rwa [show j.toNat - 1 = (j - 1).toNat by omega])]

/-- Where the two logs have one term at a position, they agree up to there. -/
def Matches (full leader : List (LogValue C)) : Prop :=
  ∀ (i : ℕ) (v w : LogValue C), full[i]? = some v → leader[i]? = some w → v.term = w.term →
    full.take (i + 1) = leader.take (i + 1)

/-- The merge loop of `AppendEntries` adopts the leader's log up to the last new entry. -/
theorem Represents.merge {leader : List (LogValue C)} (h : Represents full log lii lit)
    (hmatch : Matches full leader) (es : List (LogValue C)) {prev : ℕ} (hprev : lii ≤ prev)
    (hlen : prev ≤ full.length) (hpre : full.take prev = leader.take prev)
    (hes : es <+: leader.drop prev) :
    Represents (adopt full (leader.take (prev + es.length)))
      (mergeEntries log (prev - lii.toNat + 1) es) lii lit := by
  have hnn := h.nonneg
  -- the loop invariant is that the two logs agree below the entry under comparison
  induction es generalizing prev with
  | nil =>
    rw [mergeEntries, List.length_nil, Nat.add_zero, ← hpre, adopt_eq_left (List.take_prefix _ _)]
    exact h
  | cons e rest ih =>
    have he : leader[prev]? = some e := by
      have := getElem?_of_initial hes (show (e :: rest)[0]? = some e from rfl)
      rwa [List.getElem?_drop, Nat.add_zero] at this
    have htake : leader.take (prev + (e :: rest).length) = full.take prev ++ e :: rest := by
      rw [List.take_add, hpre, ← List.prefix_iff_eq_take.mp hes]
    have hat : log[prev - lii.toNat + 1]? = full[prev]? := by
      rw [h.getElem?_succ, show lii.toNat + (prev - lii.toNat) = prev by omega]
    rw [mergeEntries, hat]
    cases hv : full[prev]? with
    | none =>
      have hfull : full.length ≤ prev := List.getElem?_eq_none_iff.mp hv
      rw [List.take_of_length_le hfull] at htake
      rw [htake, adopt_eq_right]
      · exact h.append (e :: rest)
      · intro hp
        have := hp.length_le
        simp only [List.length_append, List.length_cons] at this
        omega
    | some v =>
      by_cases hterm : e.term = v.term
      · simp only [ne_eq, hterm, not_true_eq_false, if_false]
        have hpre' := hmatch prev v e hv he hterm.symm
        have hlt := (List.getElem?_eq_some_iff.mp hv).1
        have hrest : rest <+: leader.drop (prev + 1) := by
          obtain ⟨x, hx⟩ := hes
          refine ⟨x, ?_⟩
          rw [← List.drop_drop, ← hx]
          rfl
        have := @ih (prev + 1) (by omega) hlt hpre' hrest
        rwa [show prev + 1 - lii.toNat + 1 = prev - lii.toNat + 1 + 1 by omega,
          show prev + 1 + rest.length = prev + (e :: rest).length by simp; omega] at this
      · simp only [ne_eq, hterm, not_false_eq_true, if_true]
        rw [htake, adopt_eq_right]
        · exact (h.truncate hprev hlen).append (e :: rest)
        · intro hp
          have := getElem?_of_initial hp (i := prev) (a := e)
            (by rw [List.getElem?_append_right (by simp)]; simp [Nat.min_eq_left hlen])
          rw [hv, Option.some.injEq] at this
          exact hterm (this ▸ rfl)

theorem suffixAfter_eq (args : InstallSnapshotRequest C) (lii : ℤ) (ind : ℕ)
    {log : List (LogValue C)} {i : ℕ} (hi : args.lastIncludedIndex = lii + ind + i) :
    suffixAfter args lii ind log =
      if (log[i]?).map LogValue.term = some args.lastIncludedTerm then log.drop (i + 1)
      else [] := by
  induction log generalizing ind i with
  | nil => simp [suffixAfter]
  | cons v rest ih =>
    cases i with
    | zero =>
      simp only [suffixAfter, List.getElem?_cons_zero, Option.map_some, Option.some.injEq]
      by_cases hterm : v.term = args.lastIncludedTerm
      · simp [hterm, hi]
      · simp only [hterm, false_and, if_false]
        have hnone :
            ∀ (l : List (LogValue C)) (j : ℕ), ind < j → suffixAfter args lii j l = [] := by
          intro l
          induction l with
          | nil => intros; rfl
          | cons w l ihl =>
            intro j hj
            rw [suffixAfter, if_neg (by rintro ⟨-, h⟩; omega), ihl (j + 1) (by omega)]
        exact hnone rest (ind + 1) (by omega)
    | succ i =>
      rw [suffixAfter, if_neg (by rintro ⟨-, h⟩; omega),
        ih (ind + 1) (i := i) (by push_cast at hi ⊢; omega)]
      simp

/-- `InstallSnapshotHandler` adopts the leader's log up to the snapshot's index. -/
theorem Represents.install [Inhabited C] {leader : List (LogValue C)}
    (h : Represents full log lii lit) (hmatch : Matches full leader)
    (args : InstallSnapshotRequest C) (hle : lii ≤ args.lastIncludedIndex)
    (hpos : 0 < args.lastIncludedIndex) (hlen : args.lastIncludedIndex ≤ leader.length)
    (hterm : args.lastIncludedTerm =
      lastTerm LogValue.term (leader.take args.lastIncludedIndex.toNat))
    (hsame : full.take lii.toNat = leader.take lii.toNat) :
    Represents (adopt full (leader.take args.lastIncludedIndex.toNat))
      (dummy args.lastIncludedTerm :: suffixAfter args lii 0 log)
      args.lastIncludedIndex args.lastIncludedTerm := by
  have hnn := h.nonneg
  set k := args.lastIncludedIndex.toNat with hk
  obtain ⟨w, hw⟩ : ∃ w, leader[k - 1]? = some w := ⟨_, List.getElem?_eq_getElem (by omega)⟩
  have hwterm : args.lastIncludedTerm = w.term := hterm.trans (lastTerm_take (by omega) hw)
  rw [suffixAfter_eq args lii 0 (i := k - lii.toNat) (by omega)]
  by_cases hin : leader.take k <+: full
  · have hv : full[k - 1]? = some w := getElem?_of_initial hin
      (by rw [List.getElem?_take_of_lt (by omega)]; exact hw)
    have hat := h.term_at hle hpos
      (v := w) (by rwa [show (args.lastIncludedIndex - 1).toNat = k - 1 by omega])
    rw [show (args.lastIncludedIndex - lii).toNat = k - lii.toNat by omega] at hat
    have hlenf := (List.getElem?_eq_some_iff.mp hv).1
    rw [adopt_eq_left hin, hat, hwterm, if_pos rfl]
    refine ⟨by omega, by omega, ⟨dummy w.term, ?_, fun _ => rfl⟩, ?_⟩
    · obtain ⟨u, rfl, -⟩ := h.split
      rw [List.drop_succ_cons, List.drop_drop, show lii.toNat + (k - lii.toNat) = k by omega]
    · exact (lastTerm_take (by omega) hv).symm
  · rw [adopt_eq_right hin, if_neg]
    · refine ⟨by omega, by rw [List.length_take]; omega,
        ⟨dummy args.lastIncludedTerm, ?_, fun _ => rfl⟩, ?_⟩
      · rw [List.drop_eq_nil_of_le (by rw [List.length_take]; omega)]
      · rw [List.take_take, Nat.min_self]
        exact hterm
    · intro hat
      rcases lt_or_eq_of_le hle with hlt | heq
      · obtain ⟨i, hi⟩ : ∃ i : ℕ, k - lii.toNat = i + 1 := ⟨k - lii.toNat - 1, by omega⟩
        rw [hi, h.getElem?_succ, show lii.toNat + i = k - 1 by omega] at hat
        obtain ⟨v, hv, hvt⟩ := Option.map_eq_some_iff.mp hat
        have := hmatch (k - 1) v w hv hw (hvt.trans hwterm)
        rw [show k - 1 + 1 = k by omega] at this
        exact hin (this ▸ List.take_prefix k full)
      · rw [show lii.toNat = k by omega] at hsame
        exact hin (hsame ▸ List.take_prefix k full)

end DistributedLabs.RaftLogView
