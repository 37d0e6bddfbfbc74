import DistributedLabs.TransitionRuns
import Mathlib.Data.Fintype.Card
import Mathlib.Data.List.FinRange

/-!
# How the tester cuts a group of servers in two

Every server of a group has an end of the network to every server, itself included.
`Partition` goes over its two lists of servers one server at a time, cutting the ends to the
other list and enabling those within its own. `MakePartition` chooses the lists so that the
leader is on the smaller side.
-/

namespace DistributedLabs.ServerPartitions

variable {n : ℕ} {E : Type*}

/-- The ends of the group and what the network and the group know about them. -/
structure ServerGrp (n : ℕ) (E : Type*) where
  endNames : Fin n → Fin n → E
  distinct : ∀ a b c d, endNames a b = endNames c d → a = c ∧ b = d
  connected : Fin n → Bool
  enabled : E → Bool

namespace ServerGrp

/-- The end from one server to another is enabled. -/
def link (sg : ServerGrp n E) (a b : Fin n) : Bool := sg.enabled (sg.endNames a b)

variable [DecidableEq E]

/-- `Enable` for one end after the other. -/
def enable (sg : ServerGrp n E) (ends : List E) (on : Bool) : ServerGrp n E :=
  { sg with enabled := ends.foldl (fun enabled e => Function.update enabled e on) sg.enabled }

/-- The ends from server `i` and then those to it, for the listed servers that are connected. -/
def connect (sg : ServerGrp n E) (i : Fin n) (to_ : List (Fin n)) : ServerGrp n E :=
  let sg := { sg with connected := Function.update sg.connected i true }
  let sg := sg.enable ((to_.filter (sg.connected ·)).map (sg.endNames i)) true
  sg.enable ((to_.filter (sg.connected ·)).map (sg.endNames · i)) true

def disconnect (sg : ServerGrp n E) (i : Fin n) (from_ : List (Fin n)) : ServerGrp n E :=
  let sg := { sg with connected := Function.update sg.connected i false }
  let sg := sg.enable (from_.map (sg.endNames i)) false
  sg.enable (from_.map (sg.endNames · i)) false

/-- One of the two loops of `Partition`. -/
def separate (own other : List (Fin n)) (sg : ServerGrp n E) : ServerGrp n E :=
  own.foldl (fun sg i => (sg.disconnect i other).connect i own) sg

def partition (sg : ServerGrp n E) (p1 p2 : List (Fin n)) : ServerGrp n E :=
  separate p2 p1 (separate p1 p2 sg)

end ServerGrp

/-- The body of the loop of `MakePartition`: the next server goes to the next free place. -/
def place (l : Fin n) : ℕ × List (Fin n) × List (Fin n) → Fin n → ℕ × List (Fin n) × List (Fin n)
  | (j, p1, p2), i =>
    if i = l then (j, p1, p2)
    else if j < p1.length then (j + 1, p1.set j i, p2)
    else (j + 1, p1, p2.set (j - p1.length) i)

/-- `MakePartition` for leader `l`; `none` where the source panics. The slices start out
filled with zeros. -/
def makePartition [NeZero n] (l : Fin n) : Option (List (Fin n) × List (Fin n)) :=
  let (_, p1, p2) := (List.finRange n).foldl (place l)
    (0, List.replicate (n / 2 + 1) 0, List.replicate (n / 2) 0)
  if p2.length = 0 then none else some (p1, p2.set (p2.length - 1) l)

namespace ServerGrp

variable [DecidableEq E] {sg : ServerGrp n E} {i a b : Fin n}

theorem enable_enabled (sg : ServerGrp n E) (ends : List E) (on : Bool) (x : E) :
    (sg.enable ends on).enabled x = if x ∈ ends then on else sg.enabled x := by
  unfold enable
  dsimp only
  induction ends using List.reverseRecOn with
  | nil => rfl
  | append_singleton ends e ih =>
    rw [List.foldl_append, List.foldl_cons, List.foldl_nil]
    by_cases hx : x = e
    · simp [hx]
    · simp [ih, hx]

omit [DecidableEq E] in
@[simp] theorem mem_ends_from {l : List (Fin n)} :
    sg.endNames a b ∈ l.map (sg.endNames i) ↔ a = i ∧ b ∈ l := by
  constructor
  · intro h
    obtain ⟨j, hj, heq⟩ := List.mem_map.mp h
    obtain ⟨rfl, rfl⟩ := sg.distinct _ _ _ _ heq
    exact ⟨rfl, hj⟩
  · rintro ⟨rfl, hb⟩
    exact List.mem_map_of_mem hb

omit [DecidableEq E] in
@[simp] theorem mem_ends_to {l : List (Fin n)} :
    sg.endNames a b ∈ l.map (sg.endNames · i) ↔ b = i ∧ a ∈ l := by
  constructor
  · intro h
    obtain ⟨j, hj, heq⟩ := List.mem_map.mp h
    obtain ⟨rfl, rfl⟩ := sg.distinct _ _ _ _ heq
    exact ⟨rfl, hj⟩
  · rintro ⟨rfl, ha⟩
    exact List.mem_map.mpr ⟨a, ha, rfl⟩

theorem link_disconnect (sg : ServerGrp n E) (i a b : Fin n) (l : List (Fin n)) :
    (sg.disconnect i l).link a b = true ↔
      sg.link a b = true ∧ ¬ (a = i ∧ b ∈ l) ∧ ¬ (b = i ∧ a ∈ l) := by
  have hends : (sg.disconnect i l).endNames = sg.endNames := rfl
  simp only [link, hends]
  simp only [disconnect, enable_enabled]
  simp only [enable, mem_ends_from, mem_ends_to]
  split_ifs with hto hfrom
  · simp [hto]
  · simp [hfrom]
  · simp [hto, hfrom]

theorem link_connect (sg : ServerGrp n E) (i a b : Fin n) (l : List (Fin n)) :
    (sg.connect i l).link a b = true ↔ sg.link a b = true ∨
      (a = i ∧ b ∈ l ∧ (b = i ∨ sg.connected b = true)) ∨
      (b = i ∧ a ∈ l ∧ (a = i ∨ sg.connected a = true)) := by
  have hends : (sg.connect i l).endNames = sg.endNames := rfl
  have hconnected : ∀ x, Function.update sg.connected i true x = true ↔
      x = i ∨ sg.connected x = true := by
    intro x
    by_cases hx : x = i
    · simp [hx]
    · simp [hx]
  simp only [link, hends]
  simp only [connect, enable_enabled]
  simp only [enable, mem_ends_from, mem_ends_to, List.mem_filter, hconnected]
  split_ifs with hto hfrom
  · simp only [true_iff]
    exact Or.inr (Or.inr hto)
  · simp only [true_iff]
    exact Or.inr (Or.inl hfrom)
  · simp only [hto, hfrom, or_false]

theorem connected_connect (sg : ServerGrp n E) (i a : Fin n) (l : List (Fin n)) :
    (sg.connect i l).connected a = true ↔ a = i ∨ sg.connected a = true := by
  by_cases ha : a = i
  · simp [connect, enable, ha]
  · simp [connect, enable, ha]

theorem connected_disconnect (sg : ServerGrp n E) (i a : Fin n) (l : List (Fin n)) :
    (sg.disconnect i l).connected a = true ↔ a ≠ i ∧ sg.connected a = true := by
  by_cases ha : a = i
  · simp [disconnect, enable, ha]
  · simp [disconnect, enable, ha]

structure Separated (own other visited : List (Fin n)) (before sg : ServerGrp n E) : Prop where
  connected : ∀ a ∈ visited, sg.connected a = true
  within : ∀ a ∈ visited, ∀ b ∈ visited, sg.link a b = true
  across : ∀ a ∈ visited, ∀ b ∈ other, b ∉ own → sg.link a b = false ∧ sg.link b a = false
  elsewhere : ∀ a b, a ∉ visited → b ∉ visited → sg.link a b = before.link a b

theorem Separated.visit {own other visited : List (Fin n)} {before sg : ServerGrp n E}
    (h : Separated own other visited before sg) (hvisited : ∀ a ∈ visited, a ∈ own)
    (hi : i ∈ own) :
    Separated own other (visited ++ [i]) before ((sg.disconnect i other).connect i own) where
  connected a ha := by
    rw [connected_connect, connected_disconnect]
    by_cases hai : a = i
    · exact Or.inl hai
    · exact Or.inr ⟨hai, h.connected a (by simpa [hai] using ha)⟩
  within a ha b hb := by
    have hown : ∀ x ∈ visited ++ [i], x ∈ own := by
      intro x hx
      rcases List.mem_append.mp hx with hx | hx
      · exact hvisited x hx
      · exact List.mem_singleton.mp hx ▸ hi
    have hconnected : ∀ x ∈ visited ++ [i], x = i ∨ (sg.disconnect i other).connected x = true := by
      intro x hx
      rw [connected_disconnect]
      by_cases hxi : x = i
      · exact Or.inl hxi
      · exact Or.inr ⟨hxi, h.connected x (by simpa [hxi] using hx)⟩
    rw [link_connect]
    by_cases hai : a = i
    · exact Or.inr (Or.inl ⟨hai, hown b hb, hconnected b hb⟩)
    by_cases hbi : b = i
    · exact Or.inr (Or.inr ⟨hbi, hown a ha, hconnected a ha⟩)
    · refine Or.inl ((link_disconnect _ _ _ _ _).mpr ⟨?_, fun hc => hai hc.1, fun hc => hbi hc.1⟩)
      exact h.within a (by simpa [hai] using ha) b (by simpa [hbi] using hb)
  across a ha b hb hown := by
    have hbi : b ≠ i := fun heq => hown (heq ▸ hi)
    have hcut : a ≠ i → sg.link a b = false ∧ sg.link b a = false := fun hai =>
      h.across a (by simpa [hai] using ha) b hb hown
    constructor
    · rw [← Bool.not_eq_true, link_connect, link_disconnect]
      rintro (⟨hlink, hcuts, -⟩ | ⟨-, hmem, -⟩ | ⟨heq, -⟩)
      · have hai : a ≠ i := fun heq => hcuts ⟨heq, hb⟩
        exact absurd hlink (by simp [(hcut hai).1])
      · exact hown hmem
      · exact hbi heq
    · rw [← Bool.not_eq_true, link_connect, link_disconnect]
      rintro (⟨hlink, -, hcuts⟩ | ⟨heq, -⟩ | ⟨-, hmem, -⟩)
      · have hai : a ≠ i := fun heq => hcuts ⟨heq, hb⟩
        exact absurd hlink (by simp [(hcut hai).2])
      · exact hbi heq
      · exact hown hmem
  elsewhere a b ha hb := by
    simp only [List.mem_append, List.mem_singleton, not_or] at ha hb
    rw [Bool.eq_iff_iff, link_connect, link_disconnect, h.elsewhere a b ha.1 hb.1]
    simp [ha.2, hb.2]

theorem separated_separate (own other : List (Fin n)) (sg : ServerGrp n E) :
    Separated own other own sg (separate own other sg) := by
  suffices hloop : ∀ visited : List (Fin n), (∀ a ∈ visited, a ∈ own) →
      Separated own other visited sg
        (visited.foldl (fun sg i => (sg.disconnect i other).connect i own) sg) from
    hloop own fun _ ha => ha
  intro visited
  induction visited using List.reverseRecOn with
  | nil => exact fun _ => ⟨nofun, nofun, nofun, fun _ _ _ _ => rfl⟩
  | append_singleton visited i ih =>
    intro hvisited
    rw [List.foldl_append, List.foldl_cons, List.foldl_nil]
    have hbefore : ∀ a ∈ visited, a ∈ own := fun a ha => hvisited a (List.mem_append_left _ ha)
    exact (ih hbefore).visit hbefore (hvisited i (by simp))

/-- After `Partition`, whatever was enabled before, the servers in the second list reach each
other and no others, and so do the rest of those in the first. -/
theorem link_partition (sg : ServerGrp n E) {p1 p2 : List (Fin n)} (ha : a ∈ p1 ∨ a ∈ p2)
    (hb : b ∈ p1 ∨ b ∈ p2) : (sg.partition p1 p2).link a b = true ↔ (a ∈ p2 ↔ b ∈ p2) := by
  have hfirst := separated_separate p1 p2 sg
  have hsecond := separated_separate p2 p1 (separate p1 p2 sg)
  by_cases ha2 : a ∈ p2 <;> by_cases hb2 : b ∈ p2
  · simpa [partition, ha2, hb2] using hsecond.within a ha2 b hb2
  · have hb1 := hb.resolve_right hb2
    simpa [partition, ha2, hb2] using (hsecond.across a ha2 b hb1 hb2).1
  · have ha1 := ha.resolve_right ha2
    simpa [partition, ha2, hb2] using (hsecond.across b hb2 a ha1 ha2).2
  · have hlink := hsecond.elsewhere a b ha2 hb2
    rw [hfirst.within a (ha.resolve_right ha2) b (hb.resolve_right hb2)] at hlink
    simpa [partition, ha2, hb2] using hlink

end ServerGrp

section MakePartition

variable {l : Fin n} {p1 p2 q1 q2 : List (Fin n)}

/-- The two slices, one after the other, are filled from the left. -/
theorem foldl_place (l : Fin n) (p1 p2 : List (Fin n)) (servers : List (Fin n))
    (hroom : (servers.filter (· ≠ l)).length ≤ p1.length + p2.length) :
    ∃ q1 q2, servers.foldl (place l) (0, p1, p2) = ((servers.filter (· ≠ l)).length, q1, q2) ∧
      q1.length = p1.length ∧
      q1 ++ q2 = servers.filter (· ≠ l) ++ (p1 ++ p2).drop (servers.filter (· ≠ l)).length := by
  induction servers using List.reverseRecOn with
  | nil => exact ⟨p1, p2, rfl, rfl, by simp⟩
  | append_singleton servers i ih =>
    by_cases hi : i = l
    · simp only [List.filter_append, List.filter_cons, hi] at hroom ⊢
      obtain ⟨q1, q2, hfold, hlen, hq⟩ := ih (by simpa using hroom)
      exact ⟨q1, q2, by simp [hfold, place], hlen, by simpa using hq⟩
    · have hroom' : (servers.filter (· ≠ l)).length + 1 ≤ p1.length + p2.length := by
        simpa [hi] using hroom
      obtain ⟨q1, q2, hfold, hlen, hq⟩ := ih (by omega)
      have hplaced : (servers ++ [i]).filter (· ≠ l) = servers.filter (· ≠ l) ++ [i] := by simp [hi]
      rw [hplaced, List.foldl_append, hfold, List.foldl_cons, List.foldl_nil, List.length_append,
        List.length_singleton]
      generalize servers.filter (· ≠ l) = placed at *
      have hset : (q1 ++ q2).set placed.length i =
          placed ++ [i] ++ (p1 ++ p2).drop (placed.length + 1) := by
        have hlt : placed.length < (p1 ++ p2).length := by simp; omega
        rw [hq, List.set_append_right _ _ le_rfl, Nat.sub_self, List.drop_eq_getElem_cons hlt,
          List.set_cons_zero, List.append_assoc, List.singleton_append]
      by_cases hlt : placed.length < q1.length
      · refine ⟨q1.set placed.length i, q2, by simp [place, hi, hlt], by simp [hlen], ?_⟩
        rw [← hset, List.set_append_left _ _ hlt]
      · refine ⟨q1, q2.set (placed.length - q1.length) i, by simp [place, hi, hlt], hlen, ?_⟩
        rw [← hset, List.set_append_right _ _ (not_lt.mp hlt)]

def others (l : Fin n) : List (Fin n) := (List.finRange n).filter (· ≠ l)

@[simp] theorem length_others (l : Fin n) : (others l).length = n - 1 := by
  have herase := (List.nodup_finRange n).erase_eq_filter l
  have hlength := List.length_erase_of_mem (List.mem_finRange l)
  rw [herase, List.length_finRange] at hlength
  rw [others, ← hlength]
  congr 2
  funext x
  simp [bne, beq_eq_decide]

@[simp] theorem mem_others (l a : Fin n) : a ∈ others l ↔ a ≠ l := by simp [others]

theorem nodup_others (l : Fin n) : (others l).Nodup := (List.nodup_finRange n).filter _

/-- What `MakePartition` returns: the other servers in order, a zero more where their number is
odd, and the leader last. -/
theorem makePartition_eq [NeZero n] (l : Fin n) (hn : 3 ≤ n) :
    ∃ p1 p2, makePartition l = some (p1, p2) ∧ p1.length = n / 2 + 1 ∧
      p1 ++ p2 = others l ++ List.replicate (1 - n % 2) 0 ++ [l] := by
  have hroom : (others l).length ≤ (List.replicate (n / 2 + 1) (0 : Fin n)).length +
      (List.replicate (n / 2) (0 : Fin n)).length := by
    simp only [length_others, List.length_replicate]
    omega
  obtain ⟨q1, q2, hfold, hlen, hq⟩ := foldl_place l _ _ (List.finRange n) hroom
  have hrest : (List.replicate (n / 2 + 1) (0 : Fin n) ++ List.replicate (n / 2) 0).drop (n - 1) =
      List.replicate (1 - n % 2) 0 ++ [0] := by
    rw [← List.replicate_add, List.drop_replicate, ← List.replicate_succ']
    congr 1
    omega
  rw [← others, length_others, hrest, ← List.append_assoc] at hq
  rw [List.length_replicate] at hlen
  have htotal := congrArg List.length hq
  simp only [List.length_append, length_others, List.length_replicate,
    List.length_singleton] at htotal
  refine ⟨q1, q2.set (q2.length - 1) l, ?_, hlen, ?_⟩
  · simp only [makePartition, hfold]
    rw [if_neg (by omega)]
  · have hset : q1 ++ q2.set (q2.length - 1) l = (q1 ++ q2).set (n - 1 + (1 - n % 2)) l := by
      rw [List.set_append_right _ _ (by omega)]
      congr 2
      omega
    rw [hset, hq, List.set_append_right _ _ (by simp)]
    simp

theorem zero_notMem_drop_others [NeZero n] (l : Fin n) (k : ℕ) : 0 ∉ (others l).drop (k + 1) := by
  obtain ⟨m, rfl⟩ := Nat.exists_eq_succ_of_ne_zero (NeZero.ne n)
  intro hmem
  by_cases hl : l = 0
  · exact (mem_others l 0).mp (List.mem_of_mem_drop hmem) hl.symm
  · have hcons : others l = 0 :: ((List.finRange m).map Fin.succ).filter (· ≠ l) := by
      simp [others, List.finRange_succ, Ne.symm hl]
    rw [hcons, List.drop_succ_cons] at hmem
    have hmap := (List.mem_filter.mp (List.mem_of_mem_drop hmem)).1
    obtain ⟨j, -, hj⟩ := List.mem_map.mp hmap
    exact Fin.succ_ne_zero j hj

theorem leader_side [NeZero n] {l : Fin n} (hn : 3 ≤ n) (hlen : p1.length = n / 2 + 1)
    (hp : p1 ++ p2 = others l ++ List.replicate (1 - n % 2) 0 ++ [l]) :
    p2 = (others l).drop (n / 2 + 1) ++ List.replicate (1 - n % 2) 0 ++ [l] := by
  have hdrop := congrArg (List.drop (n / 2 + 1)) hp
  rw [← hlen, List.drop_left, hlen, List.append_assoc,
    List.drop_append_of_le_length (by simp; omega), ← List.append_assoc] at hdrop
  exact hdrop

theorem card_leader_side [NeZero n] (l : Fin n) (hn : 3 ≤ n) (hlen : p1.length = n / 2 + 1)
    (hp : p1 ++ p2 = others l ++ List.replicate (1 - n % 2) 0 ++ [l]) :
    p2.toFinset.card = if n % 2 = 0 ∧ l = 0 then n / 2 - 1 else n / 2 := by
  have hp2 := leader_side hn hlen hp
  have hnodup : ((others l).drop (n / 2 + 1)).Nodup :=
    (nodup_others l).sublist (List.drop_sublist _ _)
  have hl : l ∉ (others l).drop (n / 2 + 1) := fun hmem =>
    (mem_others l l).mp (List.mem_of_mem_drop hmem) rfl
  have hzero := zero_notMem_drop_others l (n / 2)
  have hcard : ((others l).drop (n / 2 + 1)).toFinset.card = n - 1 - (n / 2 + 1) := by
    rw [List.toFinset_card_of_nodup hnodup]
    simp
  generalize (others l).drop (n / 2 + 1) = rest at *
  rw [← List.mem_toFinset] at hl hzero
  rcases Nat.mod_two_eq_zero_or_one n with heven | hodd
  · have hside : p2.toFinset = insert l (insert 0 rest.toFinset) := by
      ext x
      simp [hp2, heven]
      tauto
    by_cases hl0 : l = 0
    · rw [if_pos ⟨heven, hl0⟩, hside, hl0, Finset.insert_idem, Finset.card_insert_of_notMem hzero]
      omega
    · rw [if_neg fun h => hl0 h.2, hside, Finset.card_insert_of_notMem (by simpa [hl0] using hl),
        Finset.card_insert_of_notMem hzero]
      omega
  · have hside : p2.toFinset = insert l rest.toFinset := by
      ext x
      simp [hp2, hodd]
    rw [if_neg (by omega), hside, Finset.card_insert_of_notMem hl]
    omega

/-- The tester's partition, for any state of the group before it: the leader's side reaches no
server of the other side, within a side all ends are enabled, and the leader has no majority.
The others have one unless their number is odd, when server 0 ends up with the leader. -/
theorem makePartition_partition [NeZero n] [DecidableEq E] (l : Fin n) (hn : 3 ≤ n)
    (sg : ServerGrp n E) :
    ∃ p1 p2, makePartition l = some (p1, p2) ∧ l ∈ p2 ∧
      (∀ a b, (sg.partition p1 p2).link a b = true ↔ (a ∈ p2 ↔ b ∈ p2)) ∧
      2 * p2.toFinset.card ≤ n ∧ (n < 2 * p2.toFinsetᶜ.card ↔ n % 2 = 1 ∨ l = 0) := by
  obtain ⟨p1, p2, hmake, hlen, hp⟩ := makePartition_eq l hn
  have hall : ∀ a, a ∈ p1 ∨ a ∈ p2 := by
    intro a
    rw [← List.mem_append, hp]
    by_cases ha : a = l <;> simp [ha]
  have hcard := card_leader_side l hn hlen hp
  have hlast : l ∈ p2 := by simp [leader_side hn hlen hp]
  refine ⟨p1, p2, hmake, hlast, fun a b => sg.link_partition (hall a) (hall b), ?_, ?_⟩
  · rw [hcard]
    split_ifs <;> omega
  · rw [Finset.card_compl, Fintype.card_fin, hcard]
    split_ifs with h
    · simp only [h.2, or_true, iff_true]
      omega
    · by_cases hl : l = 0
      · simp only [hl, or_true, iff_true]
        omega
      · simp only [hl, or_false]
        omega

def threeServers : ServerGrp 3 (Fin 3 × Fin 3) where
  endNames a b := (a, b)
  distinct _ _ _ _ h := Prod.mk.inj h
  connected _ := false
  enabled _ := false

/-- Three servers are cut into the leader and the two others. -/
theorem makePartition_partition_three : ∃ p1 p2,
    makePartition (⟨1, by decide⟩ : Fin 3) = some (p1, p2) ∧
      (∀ a b, (threeServers.partition p1 p2).link a b = true ↔ (a ∈ p2 ↔ b ∈ p2)) ∧
      3 < 2 * p2.toFinsetᶜ.card := by
  obtain ⟨p1, p2, hmake, -, hlink, -, hcard⟩ :=
    makePartition_partition (⟨1, by decide⟩ : Fin 3) (by decide) threeServers
  exact ⟨p1, p2, hmake, hlink, hcard.mpr (Or.inl rfl)⟩

end MakePartition

end DistributedLabs.ServerPartitions
