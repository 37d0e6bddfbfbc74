import DistributedLabs.LoadBalancing
import Mathlib.Data.Finmap
import Mathlib.Data.List.OfFn
import Mathlib.Data.List.Sort
import Mathlib.Logic.Relation

/-!
# Shard configurations

An assignment of the shards to groups of servers. `Rebalance` gives every shard that has no
group to the least loaded one, and then moves shards from the most to the least loaded group
until their loads are almost equal. Where the process ends with `log.Fatalf`, an operation
has no result.
-/

namespace DistributedLabs.ShardCfg

open LoadBalancing

abbrev Tgid := ℤ

abbrev NShards : ℕ := 12

structure ShardConfig where
  num : Int64
  shards : Fin NShards → Tgid
  groups : Finmap fun _ : Tgid => List String

def makeShardConfig : ShardConfig := ⟨0, fun _ => 0, ∅⟩

/-- The groups in ascending order, whatever the order in which the map is iterated. -/
def ShardConfig.gids (c : ShardConfig) : List Tgid :=
  Quot.liftOn c.groups.keys.val (List.insertionSort (· ≤ ·)) fun l l' (h : l.Perm l') =>
    List.Perm.eq_of_pairwise' (List.pairwise_insertionSort (· ≤ ·) l)
      (List.pairwise_insertionSort (· ≤ ·) l')
      ((List.perm_insertionSort _ l).trans (h.trans (List.perm_insertionSort _ l').symm))

def ShardConfig.counts (c : ShardConfig) (g : Tgid) : ℕ := (List.ofFn c.shards).count g

/-- The most and the least loaded group, with their loads. -/
structure Analysis where
  mg : Tgid
  mn : ℤ
  lg : Tgid
  ln : ℤ
  deriving DecidableEq, Repr

def Analysis.visit (counts : Tgid → ℕ) (x : Analysis) (g : Tgid) : Analysis :=
  let x := if (counts g : ℤ) < x.ln then { x with ln := counts g, lg := g } else x
  if x.mn < counts g then { x with mn := counts g, mg := g } else x

def ShardConfig.analyze (c : ShardConfig) : Analysis :=
  c.gids.foldl (Analysis.visit c.counts) ⟨-1, -1, -1, 257⟩

def ShardConfig.least (c : ShardConfig) : Tgid := c.analyze.lg

def ShardConfig.setShard (c : ShardConfig) (s : Fin NShards) (g : Tgid) : ShardConfig :=
  { c with shards := Function.update c.shards s g }

theorem setShard_self (c : ShardConfig) (s : Fin NShards) (g : Tgid) :
    (c.setShard s g).shards s = g := by
  simp [ShardConfig.setShard]

theorem setShard_of_ne (c : ShardConfig) {s s' : Fin NShards} (h : s' ≠ s) (g : Tgid) :
    (c.setShard s g).shards s' = c.shards s' := by
  simp [ShardConfig.setShard, h]

/-- One turn of the loop that assigns the shards without a group. The loop ranges over a copy
of the shards, `old`. -/
def ShardConfig.assignShard (old : Fin NShards → Tgid) (c : ShardConfig) (s : Fin NShards) :
    ShardConfig :=
  if old s ∈ c.groups then c else c.setShard s c.least

def ShardConfig.assign (c : ShardConfig) : ShardConfig :=
  (List.finRange NShards).foldl (ShardConfig.assignShard c.shards) c

/-- One turn of the loop that moves shards; `none` where it ends. -/
def ShardConfig.move (c : ShardConfig) : Option ShardConfig :=
  let x := c.analyze
  if x.mn < x.ln + 2 then none
  else
    match (List.finRange NShards).find? fun s => c.shards s = x.mg with
    | some s => some (c.setShard s x.lg)
    | none => some c

/-- What holds of the elements visited so far and of the next one. -/
theorem forall_mem_concat {α : Type*} {P : α → Prop} {l : List α} {a : α} (hold : ∀ x ∈ l, P x)
    (hnew : P a) : ∀ x ∈ l ++ [a], P x :=
  List.forall_mem_append.mpr ⟨hold, List.forall_mem_singleton.mpr hnew⟩

section Analysis

variable {counts : Tgid → ℕ} {gs : List Tgid}

structure Found (counts : Tgid → ℕ) (gs : List Tgid) (x : Analysis) : Prop where
  most : (gs = [] ∧ x.mn = -1) ∨ x.mg ∈ gs ∧ x.mn = counts x.mg
  most_ge : ∀ g ∈ gs, (counts g : ℤ) ≤ x.mn
  least : (gs = [] ∧ x.ln = 257) ∨ x.lg ∈ gs ∧ x.ln = counts x.lg
  least_le : ∀ g ∈ gs, x.ln ≤ counts g

theorem visit_most (x : Analysis) (g : Tgid) :
    (x.mn < counts g ∧ (x.visit counts g).mg = g ∧ (x.visit counts g).mn = counts g) ∨
      ((counts g : ℤ) ≤ x.mn ∧ (x.visit counts g).mg = x.mg ∧ (x.visit counts g).mn = x.mn) := by
  by_cases hleast : (counts g : ℤ) < x.ln <;> by_cases hmost : x.mn < counts g
  · exact .inl ⟨hmost, by simp [Analysis.visit, hleast, hmost]⟩
  · exact .inr ⟨not_lt.mp hmost, by simp [Analysis.visit, hleast, hmost]⟩
  · exact .inl ⟨hmost, by simp [Analysis.visit, hleast, hmost]⟩
  · exact .inr ⟨not_lt.mp hmost, by simp [Analysis.visit, hleast, hmost]⟩

theorem visit_least (x : Analysis) (g : Tgid) :
    ((counts g : ℤ) < x.ln ∧ (x.visit counts g).lg = g ∧ (x.visit counts g).ln = counts g) ∨
      (x.ln ≤ counts g ∧ (x.visit counts g).lg = x.lg ∧ (x.visit counts g).ln = x.ln) := by
  by_cases hleast : (counts g : ℤ) < x.ln <;> by_cases hmost : x.mn < counts g
  · exact .inl ⟨hleast, by simp [Analysis.visit, hleast, hmost]⟩
  · exact .inl ⟨hleast, by simp [Analysis.visit, hleast, hmost]⟩
  · exact .inr ⟨not_lt.mp hleast, by simp [Analysis.visit, hleast, hmost]⟩
  · exact .inr ⟨not_lt.mp hleast, by simp [Analysis.visit, hleast, hmost]⟩

theorem Found.visit {x : Analysis} (h : Found counts gs x) {g : Tgid} (hg : counts g ≤ NShards) :
    Found counts (gs ++ [g]) (x.visit counts g) := by
  have hlast : g ∈ gs ++ [g] := List.mem_append_right _ (List.mem_singleton_self g)
  have hin {g' : Tgid} (hg' : g' ∈ gs) : g' ∈ gs ++ [g] := List.mem_append_left _ hg'
  constructor
  · rcases visit_most x g with ⟨-, hmg, hmn⟩ | ⟨hle, hmg, hmn⟩
    · exact .inr ⟨by rw [hmg]; exact hlast, by rw [hmg, hmn]⟩
    · rcases h.most with ⟨-, hmin⟩ | ⟨hmost, hcount⟩
      · omega
      · exact .inr ⟨by rw [hmg]; exact hin hmost, by rw [hmg, hmn, hcount]⟩
  · rcases visit_most x g with ⟨hlt, -, hmn⟩ | ⟨hle, -, hmn⟩
    · exact forall_mem_concat (fun g' hg' => by have := h.most_ge g' hg'; omega) hmn.ge
    · exact forall_mem_concat (fun g' hg' => by have := h.most_ge g' hg'; omega) (by omega)
  · rcases visit_least x g with ⟨-, hlg, hln⟩ | ⟨hle, hlg, hln⟩
    · exact .inr ⟨by rw [hlg]; exact hlast, by rw [hlg, hln]⟩
    · rcases h.least with ⟨-, hmax⟩ | ⟨hleast, hcount⟩
      · have : (counts g : ℤ) ≤ 12 := by exact_mod_cast hg
        omega
      · exact .inr ⟨by rw [hlg]; exact hin hleast, by rw [hlg, hln, hcount]⟩
  · rcases visit_least x g with ⟨hlt, -, hln⟩ | ⟨hle, -, hln⟩
    · exact forall_mem_concat (fun g' hg' => by have := h.least_le g' hg'; omega) hln.le
    · exact forall_mem_concat (fun g' hg' => by have := h.least_le g' hg'; omega) (by omega)

theorem found_foldl (hcounts : ∀ g, counts g ≤ NShards) (gs : List Tgid) :
    Found counts gs (gs.foldl (Analysis.visit counts) ⟨-1, -1, -1, 257⟩) := by
  induction gs using List.reverseRecOn with
  | nil => exact ⟨.inl ⟨rfl, rfl⟩, nofun, .inl ⟨rfl, rfl⟩, nofun⟩
  | append_singleton gs g ih =>
    rw [List.foldl_concat]
    exact ih.visit (hcounts g)

end Analysis

section Loads

variable {c : ShardConfig} {g : Tgid}

theorem counts_eq_load (c : ShardConfig) (g : Tgid) : c.counts g = load c.shards g := by
  rw [load, Finset.card_def, Finset.filter_val]
  change _ = Multiset.card (Multiset.filter _ (List.finRange NShards : Multiset (Fin NShards)))
  rw [← Multiset.countP_eq_card_filter, Multiset.coe_countP, ShardConfig.counts, List.ofFn_eq_map,
    List.count, List.countP_map]
  rfl

theorem counts_le (c : ShardConfig) (g : Tgid) : c.counts g ≤ NShards := by
  rw [ShardConfig.counts]
  exact List.count_le_length.trans (List.length_ofFn ..).le

theorem found_analyze (c : ShardConfig) : Found c.counts c.gids c.analyze :=
  found_foldl (counts_le c) _

theorem mem_gids : g ∈ c.gids ↔ g ∈ c.groups := by
  rw [← Finmap.mem_keys, ← Finset.mem_val, ShardConfig.gids]
  induction c.groups.keys.val using Quot.inductionOn with
  | _ l => exact List.mem_insertionSort _

/-- The least loaded group. -/
theorem least_spec (hg : g ∈ c.groups) :
    c.least ∈ c.groups ∧ ∀ g' ∈ c.groups, load c.shards c.least ≤ load c.shards g' := by
  have hfound := found_analyze c
  rcases hfound.least with ⟨hnil, -⟩ | ⟨hmem, hcount⟩
  · have hmem := mem_gids.mpr hg
    rw [hnil] at hmem
    cases hmem
  · refine ⟨mem_gids.mp hmem, fun g' hg' => ?_⟩
    have hle := hfound.least_le g' (mem_gids.mpr hg')
    rw [hcount, counts_eq_load, counts_eq_load] at hle
    exact_mod_cast hle

/-- A move takes a shard from a most loaded group and gives it to a group that has at least
two less. -/
structure Moved (c d : ShardConfig) (s : Fin NShards) (lg : Tgid) : Prop where
  donor : c.shards s ∈ c.groups
  most : ∀ g ∈ c.groups, load c.shards g ≤ load c.shards (c.shards s)
  receiver : lg ∈ c.groups
  less : load c.shards lg + 2 ≤ load c.shards (c.shards s)
  eq : d = c.setShard s lg

theorem exists_moved {d : ShardConfig} (h : c.move = some d) : ∃ s lg, Moved c d s lg := by
  have hfound := found_analyze c
  simp only [ShardConfig.move] at h
  split_ifs at h with hend
  rcases hfound.most with ⟨-, hmin⟩ | ⟨hmost, hmn⟩
  · rcases hfound.least with ⟨-, hmax⟩ | ⟨-, hln⟩ <;> omega
  · rcases hfound.least with ⟨hnil, -⟩ | ⟨hleast, hln⟩
    · rw [hnil] at hmost
      cases hmost
    · have hless : load c.shards c.analyze.lg + 2 ≤ load c.shards c.analyze.mg := by
        rw [← counts_eq_load, ← counts_eq_load]
        omega
      cases hfind : (List.finRange NShards).find? fun s => c.shards s = c.analyze.mg with
      | none =>
        have hempty : load c.shards c.analyze.mg = 0 := by
          rw [load, Finset.card_eq_zero, Finset.filter_eq_empty_iff]
          intro s _
          simpa using List.find?_eq_none.mp hfind s (List.mem_finRange s)
        omega
      | some s =>
        have hs : c.shards s = c.analyze.mg := by simpa using List.find?_some hfind
        rw [hfind] at h
        refine ⟨s, c.analyze.lg, ?_, ?_, mem_gids.mp hleast, ?_, (Option.some.inj h).symm⟩
        · rw [hs]
          exact mem_gids.mp hmost
        · intro g hg
          have hle := hfound.most_ge g (mem_gids.mpr hg)
          rw [hmn, counts_eq_load, counts_eq_load] at hle
          rw [hs]
          exact_mod_cast hle
        · rw [hs]
          exact hless

theorem move_lt {d : ShardConfig} (h : c.move = some d) :
    potential d.groups.keys d.shards < potential c.groups.keys c.shards := by
  obtain ⟨s, lg, hm⟩ := exists_moved h
  rw [hm.eq]
  exact potential_update_lt (Finmap.mem_keys.mpr hm.donor) (Finmap.mem_keys.mpr hm.receiver) hm.less

/-- Where the loop ends, the loads are balanced. -/
theorem balanced_of_move (h : c.move = none) : Balanced c.groups.keys c.shards := by
  have hfound := found_analyze c
  simp only [ShardConfig.move] at h
  split_ifs at h with hend
  · intro g hg g' hg'
    have hle := hfound.most_ge g (mem_gids.mpr (Finmap.mem_keys.mp hg))
    have hge := hfound.least_le g' (mem_gids.mpr (Finmap.mem_keys.mp hg'))
    rw [counts_eq_load] at hle hge
    omega
  · split at h <;> cases h

/-- Balanced loads leave nothing to move. -/
theorem move_of_balanced (h : Balanced c.groups.keys c.shards) : c.move = none := by
  cases hmove : c.move with
  | none => rfl
  | some d =>
    obtain ⟨s, lg, hm⟩ := exists_moved hmove
    have hle := h _ (Finmap.mem_keys.mpr hm.donor) _ (Finmap.mem_keys.mpr hm.receiver)
    have hless := hm.less
    omega

end Loads

def ShardConfig.moveAll (c : ShardConfig) : ShardConfig :=
  match _h : c.move with
  | none => c
  | some d => d.moveAll
termination_by potential c.groups.keys c.shards
decreasing_by exact move_lt _h

def ShardConfig.rebalance (c : ShardConfig) : ShardConfig :=
  if c.groups.keys.card < 1 then { c with shards := fun _ => 0 }
  else c.assign.moveAll

/-- Every shard has a group, and the loads of the groups are balanced. -/
structure Even (c : ShardConfig) : Prop where
  assigned : ∀ s, c.shards s ∈ c.groups
  balanced : Balanced c.groups.keys c.shards

section Assign

variable {c c' : ShardConfig} {g : Tgid} {visited : List (Fin NShards)} {s : Fin NShards}

/-- What the loop that assigns shards has done when it has visited some of them. -/
structure Assigning (c : ShardConfig) (visited : List (Fin NShards)) (c' : ShardConfig) : Prop where
  num : c'.num = c.num
  groups : c'.groups = c.groups
  assigned : ∀ s ∈ visited, c'.shards s ∈ c.groups
  rest : ∀ s ∉ visited, c'.shards s = c.shards s
  kept : ∀ s, c.shards s ∈ c.groups → c'.shards s = c.shards s
  balanced : Balanced c.groups.keys c.shards → Balanced c.groups.keys c'.shards

theorem Assigning.step (h : Assigning c visited c') (hg : g ∈ c.groups) (hs : s ∉ visited) :
    Assigning c (visited ++ [s]) (c'.assignShard c.shards s) := by
  rw [ShardConfig.assignShard]
  split_ifs with hin
  · rw [h.groups] at hin
    refine ⟨h.num, h.groups, forall_mem_concat h.assigned ?_, fun s' hs' => ?_, h.kept, h.balanced⟩
    · rw [h.kept s hin]
      exact hin
    · exact h.rest s' fun hv => hs' (List.mem_append_left _ hv)
  · rw [h.groups] at hin
    obtain ⟨hleast, hle⟩ := least_spec (c := c') (h.groups ▸ hg)
    rw [h.groups] at hleast hle
    constructor
    case num => exact h.num
    case groups => exact h.groups
    case assigned =>
      refine forall_mem_concat (fun s' hs' => ?_) ?_
      · rw [setShard_of_ne c' (by rintro rfl; exact hs hs')]
        exact h.assigned s' hs'
      · rw [setShard_self]
        exact hleast
    case rest =>
      intro s' hs'
      simp only [List.mem_append, List.mem_singleton, not_or] at hs'
      rw [setShard_of_ne c' hs'.2]
      exact h.rest s' hs'.1
    case kept =>
      intro s' hs'
      rw [setShard_of_ne c' (by rintro rfl; exact hin hs')]
      exact h.kept s' hs'
    case balanced =>
      intro hb
      refine (h.balanced hb).assign ?_ (Finmap.mem_keys.mpr hleast) fun g' hg' => ?_
      · rw [h.rest s hs, Finmap.mem_keys]
        exact hin
      · exact hle g' (Finmap.mem_keys.mp hg')

theorem assigning_foldl (hg : g ∈ c.groups) (visited : List (Fin NShards)) (hv : visited.Nodup) :
    Assigning c visited (visited.foldl (ShardConfig.assignShard c.shards) c) := by
  induction visited using List.reverseRecOn with
  | nil => exact ⟨rfl, rfl, nofun, fun _ _ => rfl, fun _ _ => rfl, id⟩
  | append_singleton visited s ih =>
    have hv := List.nodup_append.mp hv
    rw [List.foldl_concat]
    exact (ih hv.1).step hg fun hs => hv.2.2 s hs s (List.mem_singleton_self s) rfl

theorem assigning_assign (hg : g ∈ c.groups) : Assigning c (List.finRange NShards) c.assign :=
  assigning_foldl hg _ (List.nodup_finRange _)

end Assign

section MoveAll

variable {c d : ShardConfig}

theorem moveAll_of_none (h : c.move = none) : c.moveAll = c := by
  rw [ShardConfig.moveAll]
  split
  · rfl
  · simp_all

theorem moveAll_of_some (h : c.move = some d) : c.moveAll = d.moveAll := by
  rw [ShardConfig.moveAll]
  split
  · simp_all
  · simp_all

/-- What every move keeps holds when the loop ends. -/
theorem moveAll_induction {P : ShardConfig → Prop} (hstep : ∀ c d, P c → c.move = some d → P d)
    (h : P c) : P c.moveAll := by
  induction c using ShardConfig.moveAll.induct with
  | case1 c hnone =>
    rw [moveAll_of_none hnone]
    exact h
  | case2 c d hsome ih =>
    rw [moveAll_of_some hsome]
    exact ih (hstep c d h hsome)

/-- The loop ends where nothing is left to move. -/
theorem move_moveAll (c : ShardConfig) : c.moveAll.move = none := by
  induction c using ShardConfig.moveAll.induct with
  | case1 c hnone =>
    rw [moveAll_of_none hnone]
    exact hnone
  | case2 c d hsome ih =>
    rw [moveAll_of_some hsome]
    exact ih

/-- A move keeps the groups and leaves every shard in one of them. -/
theorem move_keeps (h : c.move = some d) :
    d.num = c.num ∧ d.groups = c.groups ∧
      ((∀ s, c.shards s ∈ c.groups) → ∀ s, d.shards s ∈ c.groups) := by
  obtain ⟨s, lg, hm⟩ := exists_moved h
  rw [hm.eq]
  refine ⟨rfl, rfl, fun hall s' => ?_⟩
  by_cases hs : s' = s
  · rw [hs, setShard_self]
    exact hm.receiver
  · rw [setShard_of_ne c hs]
    exact hall s'

end MoveAll

section Rebalance

variable {c : ShardConfig} {g : Tgid}

theorem groups_empty_or_mem (c : ShardConfig) : c.groups = ∅ ∨ ∃ g, g ∈ c.groups := by
  by_cases h : ∃ g, g ∈ c.groups
  · exact .inr h
  · refine .inl (Finmap.ext_lookup fun g => ?_)
    rw [Finmap.lookup_empty, Finmap.lookup_eq_none]
    exact fun hg => h ⟨g, hg⟩

theorem rebalance_of_empty (h : c.groups = ∅) : c.rebalance = { c with shards := fun _ => 0 } := by
  simp [ShardConfig.rebalance, h]

theorem rebalance_of_mem (h : g ∈ c.groups) : c.rebalance = c.assign.moveAll := by
  have hne : c.groups.keys ≠ ∅ := Finset.ne_empty_of_mem (Finmap.mem_keys.mpr h)
  simp [ShardConfig.rebalance, hne]

theorem rebalance_keeps (c : ShardConfig) :
    c.rebalance.num = c.num ∧ c.rebalance.groups = c.groups := by
  rcases groups_empty_or_mem c with h | ⟨g, hg⟩
  · rw [rebalance_of_empty h]
    exact ⟨rfl, rfl⟩
  · have hassign := assigning_assign hg
    rw [rebalance_of_mem hg]
    refine moveAll_induction (P := fun d => d.num = c.num ∧ d.groups = c.groups) ?_
      ⟨hassign.num, hassign.groups⟩
    intro d d' ⟨hnum, hgroups⟩ hmove
    obtain ⟨hnum', hgroups', -⟩ := move_keeps hmove
    exact ⟨hnum'.trans hnum, hgroups'.trans hgroups⟩

theorem even_rebalance (hg : g ∈ c.groups) : Even c.rebalance := by
  constructor
  · rw [(rebalance_keeps c).2, rebalance_of_mem hg]
    have hassign := assigning_assign hg
    refine (moveAll_induction (P := fun d => d.groups = c.groups ∧ ∀ s, d.shards s ∈ c.groups) ?_
      ⟨hassign.groups, fun s => hassign.assigned s (List.mem_finRange s)⟩).2
    intro d d' ⟨hgroups, hall⟩ hmove
    obtain ⟨-, hgroups', hall'⟩ := move_keeps hmove
    rw [hgroups] at hgroups' hall'
    exact ⟨hgroups', hall' hall⟩
  · rw [rebalance_of_mem hg]
    exact balanced_of_move (move_moveAll _)

/-- The loop that moves shards ends, and it leaves an even configuration of the same groups. -/
theorem rebalance_balances (c : ShardConfig) :
    c.rebalance.num = c.num ∧ c.rebalance.groups = c.groups ∧
      if c.groups = ∅ then ∀ s, c.rebalance.shards s = 0
      else
        Relation.ReflTransGen (fun d d' => d.move = some d') c.assign c.rebalance ∧
          c.rebalance.move = none ∧ (∀ s, c.rebalance.shards s ∈ c.groups) ∧
          ∀ g ∈ c.groups, ∀ g' ∈ c.groups, c.rebalance.counts g ≤ c.rebalance.counts g' + 1 := by
  obtain ⟨hnum, hgroups⟩ := rebalance_keeps c
  refine ⟨hnum, hgroups, ?_⟩
  split_ifs with hempty
  · simp [rebalance_of_empty hempty]
  · obtain ⟨g, hg⟩ := (groups_empty_or_mem c).resolve_left hempty
    have heven := even_rebalance hg
    refine ⟨?_, ?_, fun s => hgroups ▸ heven.assigned s, fun g hg g' hg' => ?_⟩
    · rw [rebalance_of_mem hg]
      exact moveAll_induction (fun d d' hreach hmove => hreach.tail hmove) .refl
    · rw [rebalance_of_mem hg]
      exact move_moveAll _
    · rw [counts_eq_load, counts_eq_load]
      have hbalanced := heven.balanced
      rw [hgroups] at hbalanced
      exact hbalanced g (Finmap.mem_keys.mpr hg) g' (Finmap.mem_keys.mpr hg')

end Rebalance

end DistributedLabs.ShardCfg
