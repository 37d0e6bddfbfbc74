import DistributedLabs.ShardConfig
import DistributedLabs.TransitionRuns

/-!
# Groups that join and leave

A new configuration is made by adding or removing groups and rebalancing. `Join` and `Leave`
check and change one group at a time, so a call that is refused at a later group has already
changed the earlier ones.
-/

namespace DistributedLabs.ShardCfg

open LoadBalancing Relation

/-- A map from groups to servers, with the order in which it is iterated. -/
abbrev Servers := AList fun _ : Tgid => List String

/-- Some server of the new group is in a group already. -/
def ShardConfig.sharesServer (cfg : ShardConfig) (servers : List String) : Bool :=
  cfg.groups.any fun _ xservers => xservers.any fun s => servers.contains s

/-- The loop of `Join`. The result is what the call returns, with the configuration it leaves. -/
def ShardConfig.joinGroups (cfg : ShardConfig) (changed : Bool) :
    List (Σ _ : Tgid, List String) → Option (Bool × ShardConfig)
  | [] => if changed then some (true, { cfg with num := cfg.num + 1 }) else none
  | ⟨gid, servers⟩ :: rest =>
    if gid ∈ cfg.groups then some (false, cfg)
    else if cfg.sharesServer servers then none
    else ShardConfig.joinGroups { cfg with groups := cfg.groups.insert gid servers } true rest

def ShardConfig.join (cfg : ShardConfig) (servers : Servers) : Option (Bool × ShardConfig) :=
  cfg.joinGroups false servers.entries

def ShardConfig.leaveGroups (cfg : ShardConfig) (changed : Bool) :
    List Tgid → Option (Bool × ShardConfig)
  | [] => if changed then some (true, { cfg with num := cfg.num + 1 }) else none
  | gid :: rest =>
    if gid ∈ cfg.groups then
      ShardConfig.leaveGroups { cfg with groups := cfg.groups.erase gid } true rest
    else some (false, cfg)

def ShardConfig.leave (cfg : ShardConfig) (gids : List Tgid) : Option (Bool × ShardConfig) :=
  cfg.leaveGroups false gids

/-- Rebalances after a change that was made. -/
def balance : Bool × ShardConfig → Bool × ShardConfig
  | (false, cfg) => (false, cfg)
  | (true, cfg) => (true, cfg.rebalance)

def ShardConfig.joinBalance (cfg : ShardConfig) (servers : Servers) : Option (Bool × ShardConfig) :=
  (cfg.join servers).map balance

def ShardConfig.leaveBalance (cfg : ShardConfig) (gids : List Tgid) : Option (Bool × ShardConfig) :=
  (cfg.leave gids).map balance

section Join

variable {c d : ShardConfig} {changed ok : Bool} {l : List (Σ _ : Tgid, List String)} {g : Tgid}
  {servers : Servers}

theorem mem_insert_groups {gid : Tgid} {xs : List String} :
    g ∈ c.groups.insert gid xs ↔ g = gid ∨ g ∈ c.groups :=
  Finmap.mem_insert

/-- The loop keeps the assignment and the groups that are there. -/
theorem joinGroups_keeps (h : c.joinGroups changed l = some (ok, d)) :
    d.shards = c.shards ∧ d.num = (if ok then c.num + 1 else c.num) ∧
      ∀ g ∈ c.groups, g ∈ d.groups := by
  induction l generalizing c changed with
  | nil =>
    cases changed with
    | false => cases h
    | true =>
      simp only [ShardConfig.joinGroups, if_true, Option.some.injEq, Prod.mk.injEq] at h
      obtain ⟨rfl, rfl⟩ := h
      exact ⟨rfl, rfl, fun g hg => hg⟩
  | cons x rest ih =>
    simp only [ShardConfig.joinGroups] at h
    split_ifs at h with hin hshares
    · simp only [Option.some.injEq, Prod.mk.injEq] at h
      obtain ⟨rfl, rfl⟩ := h
      exact ⟨rfl, rfl, fun g hg => hg⟩
    · obtain ⟨hshards, hnum, hgroups⟩ := ih h
      exact ⟨hshards, hnum, fun g hg => hgroups g (mem_insert_groups.mpr (.inr hg))⟩

/-- What a loop adds that is not refused. -/
theorem joinGroups_true (h : c.joinGroups changed l = some (true, d)) :
    (∀ g, g ∈ d.groups ↔ g ∈ c.groups ∨ g ∈ l.keys) ∧ ∀ g ∈ l.keys, g ∉ c.groups := by
  induction l generalizing c changed with
  | nil =>
    cases changed with
    | false => cases h
    | true =>
      simp only [ShardConfig.joinGroups, if_true, Option.some.injEq, Prod.mk.injEq, true_and] at h
      subst h
      simp
  | cons x rest ih =>
    simp only [ShardConfig.joinGroups] at h
    split_ifs at h with hin hshares
    · simp at h
    · obtain ⟨hmem, hnew⟩ := ih h
      constructor
      · intro g
        rw [hmem, mem_insert_groups, List.keys_cons, List.mem_cons]
        tauto
      · intro g hg
        rcases List.mem_cons.mp (List.keys_cons .. ▸ hg) with rfl | hg
        · exact hin
        · exact fun hc => hnew g hg (mem_insert_groups.mpr (.inr hc))

theorem join_true (h : c.join servers = some (true, d)) :
    d.shards = c.shards ∧ d.num = c.num + 1 ∧
      (∀ g, g ∈ d.groups ↔ g ∈ c.groups ∨ g ∈ servers) ∧ ∀ g ∈ servers, g ∉ c.groups := by
  obtain ⟨hshards, hnum, -⟩ := joinGroups_keeps h
  obtain ⟨hmem, hnew⟩ := joinGroups_true h
  exact ⟨hshards, hnum, hmem, hnew⟩

/-- A `Join` that is refused leaves the groups as they were exactly when the first group is
refused. -/
theorem join_false (h : c.join servers = some (false, d)) :
    d.shards = c.shards ∧ d.num = c.num ∧
      (d.groups = c.groups ↔ ∃ x ∈ servers.entries.head?, x.1 ∈ c.groups) := by
  obtain ⟨hshards, hnum, -⟩ := joinGroups_keeps h
  refine ⟨hshards, hnum, ?_⟩
  simp only [ShardConfig.join] at h
  cases hl : servers.entries with
  | nil =>
    rw [hl] at h
    simp [ShardConfig.joinGroups] at h
  | cons x rest =>
    rw [hl] at h
    simp only [ShardConfig.joinGroups] at h
    split_ifs at h with hin hshares
    · simp only [Option.some.injEq, Prod.mk.injEq, true_and] at h
      subst h
      simp [hin]
    · have hfirst := (joinGroups_keeps h).2.2 x.1 (mem_insert_groups.mpr (.inl rfl))
      simp only [List.head?_cons, Option.mem_def, Option.some.injEq, exists_eq_left', hin,
        iff_false]
      intro hgroups
      exact hin (hgroups ▸ hfirst)

end Join

section Leave

variable {c d : ShardConfig} {changed ok : Bool} {gids : List Tgid} {g : Tgid}

theorem mem_erase_groups {gid : Tgid} : g ∈ c.groups.erase gid ↔ g ≠ gid ∧ g ∈ c.groups :=
  Finmap.mem_erase

/-- The loop keeps the assignment and adds no group. -/
theorem leaveGroups_keeps (h : c.leaveGroups changed gids = some (ok, d)) :
    d.shards = c.shards ∧ d.num = (if ok then c.num + 1 else c.num) ∧
      ∀ g ∈ d.groups, g ∈ c.groups := by
  induction gids generalizing c changed with
  | nil =>
    cases changed with
    | false => cases h
    | true =>
      simp only [ShardConfig.leaveGroups, if_true, Option.some.injEq, Prod.mk.injEq] at h
      obtain ⟨rfl, rfl⟩ := h
      exact ⟨rfl, rfl, fun g hg => hg⟩
  | cons gid rest ih =>
    simp only [ShardConfig.leaveGroups] at h
    split_ifs at h with hin
    · obtain ⟨hshards, hnum, hgroups⟩ := ih h
      exact ⟨hshards, hnum, fun g hg => (mem_erase_groups.mp (hgroups g hg)).2⟩
    · simp only [Option.some.injEq, Prod.mk.injEq] at h
      obtain ⟨rfl, rfl⟩ := h
      exact ⟨rfl, rfl, fun g hg => hg⟩

/-- What a loop removes that is not refused. -/
theorem leaveGroups_true (h : c.leaveGroups changed gids = some (true, d)) :
    ∀ g, g ∈ d.groups ↔ g ∈ c.groups ∧ g ∉ gids := by
  induction gids generalizing c changed with
  | nil =>
    cases changed with
    | false => cases h
    | true =>
      simp only [ShardConfig.leaveGroups, if_true, Option.some.injEq, Prod.mk.injEq, true_and] at h
      subst h
      simp
  | cons gid rest ih =>
    simp only [ShardConfig.leaveGroups] at h
    split_ifs at h with hin
    · intro g
      rw [ih h, mem_erase_groups, List.mem_cons]
      tauto
    · simp at h

theorem leave_true (h : c.leave gids = some (true, d)) :
    d.shards = c.shards ∧ d.num = c.num + 1 ∧ ∀ g, g ∈ d.groups ↔ g ∈ c.groups ∧ g ∉ gids := by
  obtain ⟨hshards, hnum, -⟩ := leaveGroups_keeps h
  exact ⟨hshards, hnum, leaveGroups_true h⟩

/-- A `Leave` that is refused leaves the groups as they were exactly when the first group is
refused. -/
theorem leave_false (h : c.leave gids = some (false, d)) :
    d.shards = c.shards ∧ d.num = c.num ∧
      (d.groups = c.groups ↔ ∃ g ∈ gids.head?, g ∉ c.groups) := by
  obtain ⟨hshards, hnum, -⟩ := leaveGroups_keeps h
  refine ⟨hshards, hnum, ?_⟩
  simp only [ShardConfig.leave] at h
  cases gids with
  | nil => simp [ShardConfig.leaveGroups] at h
  | cons gid rest =>
    simp only [ShardConfig.leaveGroups] at h
    split_ifs at h with hin
    · simp only [List.head?_cons, Option.mem_def, Option.some.injEq, exists_eq_left', hin, not_true,
        iff_false]
      intro hgroups
      have hback := (leaveGroups_keeps h).2.2 gid (hgroups ▸ hin)
      exact (mem_erase_groups.mp hback).1 rfl
    · simp only [Option.some.injEq, Prod.mk.injEq, true_and] at h
      subst h
      simp [hin]

end Leave

section Balance

variable {c d : ShardConfig} {servers : Servers} {gids : List Tgid}
  {r : Option (Bool × ShardConfig)}

/-- A change that is refused is not followed by a rebalancing. -/
theorem map_balance_false (h : r.map balance = some (false, d)) : r = some (false, d) := by
  rcases r with _ | ⟨ok, d'⟩
  · cases h
  · cases ok with
    | false => exact h
    | true => simp [balance] at h

theorem map_balance_true (h : r.map balance = some (true, d)) :
    ∃ d', r = some (true, d') ∧ d = d'.rebalance := by
  rcases r with _ | ⟨ok, d'⟩
  · cases h
  · cases ok with
    | false => simp [balance] at h
    | true => exact ⟨d', rfl, by simpa [balance] using h.symm⟩

structure MovedToNew (c d e : ShardConfig) : Prop where
  groups : e.groups = d.groups
  level : Level c.groups.keys d.groups.keys e.shards
  moved : ∀ s, e.shards s = c.shards s ∨ e.shards s ∈ d.groups ∧ e.shards s ∉ c.groups

theorem MovedToNew.step {e e' : ShardConfig} (h : MovedToNew c d e) (hmove : e.move = some e') :
    MovedToNew c d e' := by
  obtain ⟨s, lg, hm⟩ := exists_moved hmove
  have hdonor : e.shards s ∈ d.groups.keys := Finmap.mem_keys.mpr (h.groups ▸ hm.donor)
  have hmost : ∀ g ∈ d.groups.keys, load e.shards g ≤ load e.shards (e.shards s) := fun g hg =>
    hm.most g (h.groups ▸ Finmap.mem_keys.mp hg)
  rw [hm.eq]
  refine ⟨h.groups, h.level.move hdonor hmost hm.less, fun s' => ?_⟩
  by_cases hs : s' = s
  · rw [hs, setShard_self]
    have hnew := h.level.receiver hdonor hm.less
    exact .inr ⟨h.groups ▸ hm.receiver, fun hc => hnew (Finmap.mem_keys.mpr hc)⟩
  · rw [setShard_of_ne e hs]
    exact h.moved s'

/-- Before the first move: the new groups have no shards. -/
theorem MovedToNew.start (h : Even c) {e : ShardConfig} (hgroups : e.groups = d.groups)
    (heq : e.shards = c.shards) : MovedToNew c d e := by
  refine ⟨hgroups, ?_, fun s => .inl (by rw [heq])⟩
  intro g hg g' _
  rw [heq]
  by_cases hg' : g' ∈ c.groups.keys
  · exact h.balanced g' hg' g hg
  · have hzero : load c.shards g' = 0 := by
      rw [load, Finset.card_eq_zero, Finset.filter_eq_empty_iff]
      intro s _ hs
      exact hg' (Finmap.mem_keys.mpr (hs ▸ h.assigned s))
    omega

theorem join_rebalance (h : Even c) (hjoin : c.join servers = some (true, d)) (s : Fin NShards)
    (hs : d.rebalance.shards s ≠ c.shards s) :
    d.rebalance.shards s ∈ servers ∧ d.rebalance.shards s ∉ c.groups := by
  obtain ⟨hshards, -, hmem, -⟩ := join_true hjoin
  have hall (s : Fin NShards) : d.shards s ∈ d.groups := by
    rw [hmem, hshards]
    exact .inl (h.assigned s)
  have hassign := assigning_assign (hall s)
  have hstart : MovedToNew c d d.assign := by
    refine .start h hassign.groups ?_
    rw [← hshards]
    exact funext fun s' => hassign.kept s' (hall s')
  have hmoved := moveAll_induction (P := MovedToNew c d) (fun e e' => MovedToNew.step) hstart
  rw [← rebalance_of_mem (hall s)] at hmoved
  obtain ⟨hin, hnew⟩ := (hmoved.moved s).resolve_left hs
  exact ⟨((hmem _).mp hin).resolve_left hnew, hnew⟩

theorem leave_rebalance (h : Even c) (hleave : c.leave gids = some (true, d)) {g : Tgid}
    (hg : g ∈ d.groups) (s : Fin NShards) :
    d.rebalance.shards s ≠ c.shards s ↔ c.shards s ∈ gids := by
  obtain ⟨hshards, -, hmem⟩ := leave_true hleave
  have hassign := assigning_assign hg
  have hbalanced : Balanced d.groups.keys d.shards := by
    have hsub {g : Tgid} (hg : g ∈ d.groups.keys) : g ∈ c.groups.keys :=
      Finmap.mem_keys.mpr ((hmem g).mp (Finmap.mem_keys.mp hg)).1
    rw [hshards]
    exact fun g hg g' hg' => h.balanced g (hsub hg) g' (hsub hg')
  have hnone : d.assign.move = none := by
    refine move_of_balanced ?_
    rw [hassign.groups]
    exact hassign.balanced hbalanced
  rw [rebalance_of_mem hg, moveAll_of_none hnone, ← hshards]
  constructor
  · intro hne
    have hleft : d.shards s ∉ d.groups := fun hin => hne (hassign.kept s hin)
    rw [hmem, hshards] at hleft
    rw [hshards]
    exact not_not.mp fun hin => hleft ⟨h.assigned s, hin⟩
  · intro hleft heq
    have hin := hassign.assigned s (List.mem_finRange s)
    rw [heq, hmem] at hin
    exact hin.2 hleft

/-- From an even configuration only the shards move that have to. -/
theorem minimal_movement (c d : ShardConfig) (h : Even c) :
    (∀ servers, c.joinBalance servers = some (true, d) →
      ∀ s, d.shards s ≠ c.shards s → d.shards s ∈ servers ∧ d.shards s ∉ c.groups) ∧
    ∀ gids, c.leaveBalance gids = some (true, d) → d.groups ≠ ∅ →
      ∀ s, d.shards s ≠ c.shards s ↔ c.shards s ∈ gids := by
  constructor
  · intro servers hjoin s
    obtain ⟨d', hjoin', rfl⟩ := map_balance_true hjoin
    exact join_rebalance h hjoin' s
  · intro gids hleave hne
    obtain ⟨d', hleave', rfl⟩ := map_balance_true hleave
    rw [(rebalance_keeps d').2] at hne
    obtain ⟨g, hg⟩ := (groups_empty_or_mem d').resolve_left hne
    exact leave_rebalance h hleave' hg

def oneServerEach (gids : List Tgid) : Servers :=
  gids.foldl (fun m g => m.insert g [toString g]) ∅

def twoGroups : ShardConfig :=
  { makeShardConfig with groups := (oneServerEach [2, 1]).toFinmap }.rebalance

theorem even_twoGroups : Even twoGroups := even_rebalance (g := 1) (by decide +kernel)

/-- What a call leaves. -/
theorem exists_of_any {ok : Bool} {test : ShardConfig → Bool}
    (h : r.any (fun x => x.1 == ok && test x.2) = true) :
    ∃ d, r = some (ok, d) ∧ test d = true := by
  rcases r with _ | ⟨ok', d⟩
  · cases h
  · simp only [Option.any_some, Bool.and_eq_true, beq_iff_eq] at h
    exact ⟨d, by rw [h.1], h.2⟩

theorem minimal_movement_two_groups : ∃ d e : ShardConfig,
    (twoGroups.joinBalance (oneServerEach [3]) = some (true, d) ∧ d.counts 3 = 4 ∧
      ∀ s, d.shards s ≠ twoGroups.shards s → d.shards s ∈ oneServerEach [3] ∧
        d.shards s ∉ twoGroups.groups) ∧
    twoGroups.leaveBalance [1] = some (true, e) ∧ e.counts 2 = 12 ∧
      ∀ s, e.shards s ≠ twoGroups.shards s ↔ twoGroups.shards s ∈ [(1 : Tgid)] := by
  obtain ⟨d, hd, hthird⟩ : ∃ d, twoGroups.joinBalance (oneServerEach [3]) = some (true, d) ∧
      decide (d.counts 3 = 4) = true := exists_of_any (by decide +kernel)
  obtain ⟨e, he, htest⟩ : ∃ e, twoGroups.leaveBalance [1] = some (true, e) ∧
      decide (e.counts 2 = 12 ∧ e.groups ≠ ∅) = true := exists_of_any (by decide +kernel)
  obtain ⟨hsecond, hne⟩ := of_decide_eq_true htest
  exact ⟨d, e, ⟨hd, of_decide_eq_true hthird, (minimal_movement _ d even_twoGroups).1 _ hd⟩, he,
    hsecond, (minimal_movement _ e even_twoGroups).2 _ he hne⟩

end Balance

section Changes

/-- The calls that change a configuration. -/
inductive Change where
  | join (servers : Servers)
  | leave (gids : List Tgid)

def ShardConfig.change (cfg : ShardConfig) : Change → Option (Bool × ShardConfig)
  | .join servers => cfg.join servers
  | .leave gids => cfg.leave gids

def ShardConfig.changeBalance (cfg : ShardConfig) : Change → Option (Bool × ShardConfig)
  | .join servers => cfg.joinBalance servers
  | .leave gids => cfg.leaveBalance gids

/-- The first group that a call looks at is refused. -/
def RefusedFirst (cfg : ShardConfig) : Change → Prop
  | .join servers => ∃ x ∈ servers.entries.head?, x.1 ∈ cfg.groups
  | .leave gids => ∃ g ∈ gids.head?, g ∉ cfg.groups

/-- A configuration, with the number of calls that have returned true. -/
structure Counted where
  cfg : ShardConfig
  changes : ℕ

def Counted.initial : Counted := ⟨makeShardConfig, 0⟩

/-- A call of `JoinBalance` or `LeaveBalance`; one that returns false is `allowed`. -/
inductive Counted.Step (allowed : ShardConfig → Change → Prop) (s : Counted) : Counted → Prop
  | changed (ch : Change) {d : ShardConfig} :
    s.cfg.changeBalance ch = some (true, d) → Step allowed s ⟨d, s.changes + 1⟩
  | refused (ch : Change) {d : ShardConfig} :
    s.cfg.changeBalance ch = some (false, d) → allowed s.cfg ch → Step allowed s ⟨d, s.changes⟩

variable {c d : ShardConfig} {ch : Change} {s t : Counted}

theorem changeBalance_eq (c : ShardConfig) (ch : Change) :
    c.changeBalance ch = (c.change ch).map balance := by
  cases ch with
  | join servers => rfl
  | leave gids => rfl

theorem change_false (h : c.change ch = some (false, d)) :
    d.shards = c.shards ∧ d.num = c.num ∧ (d.groups = c.groups ↔ RefusedFirst c ch) := by
  cases ch with
  | join servers => exact join_false h
  | leave gids => exact leave_false h

theorem change_num (h : c.change ch = some (true, d)) : d.num = c.num + 1 := by
  cases ch with
  | join servers => exact (join_true h).2.1
  | leave gids => exact (leave_true h).2.1

structure Sound (s : Counted) : Prop where
  assigned : s.cfg.groups ≠ ∅ → ∀ shard, s.cfg.shards shard ∈ s.cfg.groups
  balanced : Balanced s.cfg.groups.keys s.cfg.shards
  num : s.cfg.num = Int64.ofNat s.changes

theorem sound_initial : Sound .initial := by
  refine ⟨fun hne => (hne rfl).elim, fun g hg => ?_, rfl⟩
  simp [Counted.initial, makeShardConfig] at hg

theorem sound_rebalance {n : ℕ} (h : c.num = Int64.ofNat n) : Sound ⟨c.rebalance, n⟩ := by
  obtain ⟨hnum, hgroups⟩ := rebalance_keeps c
  rcases groups_empty_or_mem c with hempty | ⟨g, hg⟩
  · have hnone := hgroups.trans hempty
    refine ⟨fun hne => (hne hnone).elim, fun g hg => ?_, hnum.trans h⟩
    simp [hnone] at hg
  · have heven := even_rebalance hg
    exact ⟨fun _ => heven.assigned, heven.balanced, hnum.trans h⟩

theorem Sound.step (h : Sound s) (hst : s.Step RefusedFirst t) : Sound t := by
  cases hst with
  | changed ch hcall =>
    rw [changeBalance_eq] at hcall
    obtain ⟨d', hchange, rfl⟩ := map_balance_true hcall
    refine sound_rebalance ?_
    rw [change_num hchange, h.num]
    simp
  | refused ch hcall hfirst =>
    rw [changeBalance_eq] at hcall
    obtain ⟨hshards, hnum, hgroups⟩ := change_false (map_balance_false hcall)
    have hgroups := hgroups.mpr hfirst
    refine ⟨?_, ?_, hnum.trans h.num⟩
    · simp only [hgroups, hshards]
      exact h.assigned
    · simp only [hgroups, hshards]
      exact h.balanced

/-- A call that returns false changes neither the assignment nor the number. It leaves the
groups alone exactly when its first group is refused, and along runs in which all such calls
do the configuration stays even. -/
theorem refused_change_intact (c d : ShardConfig) (ch : Change) (s : Counted) :
    (c.change ch = some (false, d) ∨ c.changeBalance ch = some (false, d) →
      d.num = c.num ∧ d.shards = c.shards ∧ (d.groups = c.groups ↔ RefusedFirst c ch)) ∧
    (ReflTransGen (Counted.Step RefusedFirst) .initial s →
      (s.cfg.groups ≠ ∅ → ∀ shard, s.cfg.shards shard ∈ s.cfg.groups) ∧
        Balanced s.cfg.groups.keys s.cfg.shards ∧ s.cfg.num = Int64.ofNat s.changes ∧
        (s.changes < 2 ^ 63 → s.cfg.num.toInt = s.changes)) := by
  constructor
  · intro h
    have hchange : c.change ch = some (false, d) := by
      rcases h with h | h
      · exact h
      · exact map_balance_false (changeBalance_eq c ch ▸ h)
    obtain ⟨hshards, hnum, hgroups⟩ := change_false hchange
    exact ⟨hnum, hshards, hgroups⟩
  · intro hrun
    have hsound :=
      TransitionRuns.run_preserves (I := Sound) (fun _ _ => Sound.step) sound_initial hrun
    refine ⟨hsound.assigned, hsound.balanced, hsound.num, fun hlt => ?_⟩
    rw [hsound.num]
    exact Int64.toInt_ofNat_of_lt hlt

theorem refused_change_intact_unknown : ∃ d e : ShardConfig,
    makeShardConfig.joinBalance (oneServerEach [2, 1]) = some (true, d) ∧
      d.leaveBalance [9, 1] = some (false, e) ∧
        (e.groups = d.groups ↔ RefusedFirst d (.leave [9, 1])) ∧
      (e.groups ≠ ∅ → ∀ shard, e.shards shard ∈ e.groups) ∧ Balanced e.groups.keys e.shards ∧
      e.num = Int64.ofNat 1 := by
  obtain ⟨d, hjoin, htest⟩ :
      ∃ d, makeShardConfig.joinBalance (oneServerEach [2, 1]) = some (true, d) ∧
      (decide (9 ∉ d.groups) &&
        (d.leaveBalance [9, 1]).any fun x => x.1 == false && x.2.num == 1) = true :=
    exists_of_any (by decide +kernel)
  obtain ⟨hunknown, hany⟩ := Bool.and_eq_true_iff.mp htest
  obtain ⟨e, hleave, -⟩ : ∃ e, d.leaveBalance [9, 1] = some (false, e) ∧ (e.num == 1) = true :=
    exists_of_any hany
  have hfirst : RefusedFirst d (.leave [9, 1]) := ⟨9, rfl, of_decide_eq_true hunknown⟩
  have hrun : ReflTransGen (Counted.Step RefusedFirst) .initial ⟨e, 1⟩ :=
    .tail (.single (.changed (.join (oneServerEach [2, 1])) hjoin))
      (.refused (.leave [9, 1]) hleave hfirst)
  obtain ⟨hcall, hruns⟩ := refused_change_intact d e (.leave [9, 1]) ⟨e, 1⟩
  obtain ⟨hassigned, hbalanced, hnum, -⟩ := hruns hrun
  exact ⟨d, e, hjoin, hleave, (hcall (.inr hleave)).2.2, hassigned, hbalanced, hnum⟩

def Counted.next (s : Counted) (ch : Change) : Option Counted :=
  (s.cfg.changeBalance ch).map fun x => ⟨x.2, if x.1 then s.changes + 1 else s.changes⟩

theorem step_of_next (h : s.next ch = some t) : s.Step (fun _ _ => True) t := by
  obtain ⟨⟨ok, d⟩, hcall, rfl⟩ := Option.map_eq_some_iff.mp h
  cases ok with
  | false => exact .refused ch hcall trivial
  | true => exact .changed ch hcall

theorem exists_of_calls (calls : List Change) {test : Counted → Bool}
    (h : (TransitionRuns.exec Counted.next .initial calls).any test = true) :
    ∃ s, ReflTransGen (Counted.Step fun _ _ => True) .initial s ∧ test s = true := by
  refine TransitionRuns.exists_of_exec ?_ h
  intro s ch t
  exact step_of_next

/-- A call that is refused at its second group has changed the first. Group 1 leaves with its
shards, or group 2 joins without any. -/
theorem refused_change_applied :
    (¬ ∀ (c : ShardConfig) (ch : Change) (d : ShardConfig), c.changeBalance ch = some (false, d) →
      d.num = c.num ∧ d.shards = c.shards ∧ d.groups = c.groups) ∧
    (¬ ∀ s, ReflTransGen (Counted.Step fun _ _ => True) .initial s → s.cfg.groups ≠ ∅ →
      ∀ shard, s.cfg.shards shard ∈ s.cfg.groups) ∧
    ¬ ∀ s, ReflTransGen (Counted.Step fun _ _ => True) .initial s →
      Balanced s.cfg.groups.keys s.cfg.shards := by
  refine ⟨fun h => ?_, fun h => ?_, fun h => ?_⟩
  · obtain ⟨d, hcall, hne⟩ : ∃ d, twoGroups.changeBalance (.leave [1, 9]) = some (false, d) ∧
        decide (d.groups ≠ twoGroups.groups) = true := exists_of_any (by decide +kernel)
    exact of_decide_eq_true hne (h _ _ d hcall).2.2
  · obtain ⟨s, hrun, htest⟩ : ∃ s, ReflTransGen (Counted.Step fun _ _ => True) .initial s ∧
        decide (s.cfg.groups ≠ ∅ ∧ s.cfg.shards 11 ∉ s.cfg.groups) = true :=
      exists_of_calls [.join (oneServerEach [1]), .join (oneServerEach [2]), .leave [1, 9]]
        (by decide +kernel)
    obtain ⟨hne, hlost⟩ := of_decide_eq_true htest
    exact hlost (h s hrun hne 11)
  · obtain ⟨s, hrun, htest⟩ : ∃ s, ReflTransGen (Counted.Step fun _ _ => True) .initial s ∧
        decide ((1 ∈ s.cfg.groups ∧ 2 ∈ s.cfg.groups) ∧
          s.cfg.counts 2 + 2 ≤ s.cfg.counts 1) = true :=
      exists_of_calls [.join (oneServerEach [1]), .join (oneServerEach [1, 2])] (by decide +kernel)
    obtain ⟨⟨h₁, h₂⟩, hless⟩ := of_decide_eq_true htest
    have hle := h s hrun 1 (Finmap.mem_keys.mpr h₁) 2 (Finmap.mem_keys.mpr h₂)
    rw [counts_eq_load, counts_eq_load] at hless
    omega

end Changes

end DistributedLabs.ShardCfg
