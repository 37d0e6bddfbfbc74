import DistributedLabs.ShardMembership

/-!
# Configurations that are checked and looked up

`CheckConfig`, and the lookups of the servers for a key. Along every sequence of calls that are
accepted, a configuration is the map from the groups that have joined and not left to their
servers, with an assignment that passes the check and serves every key.
-/

namespace DistributedLabs.ShardCfg

open LoadBalancing

/-- The FNV-1a hash of 32 bits decides which shard a key is in. -/
def key2Shard (key : List UInt8) : Fin NShards :=
  let sum := key.foldl (fun (h : UInt32) b => (h ^^^ b.toUInt32) * 16777619) 2166136261
  ⟨sum.toNat % NShards, Nat.mod_lt _ (Nat.succ_pos 11)⟩

def ShardConfig.gidServers (cfg : ShardConfig) (sh : Fin NShards) : Tgid × List String × Bool :=
  let gid := cfg.shards sh
  match cfg.groups.lookup gid with
  | some srvs => (gid, srvs, true)
  | none => (gid, [], false)

def ShardConfig.isMember (cfg : ShardConfig) (gid : Tgid) : Bool :=
  (List.ofFn cfg.shards).any fun g => g == gid

/-- The failures of `CheckConfig`; the first one ends the test. -/
inductive ConfigError where
  | groups (wanted got : ℕ)
  | missing (g : Tgid)
  | invalid (s : Fin NShards) (g : Tgid)
  | unbalanced (max min : ℤ)
  deriving DecidableEq, Repr

structure Extremes where
  max : ℤ
  min : ℤ
  deriving DecidableEq, Repr

def Extremes.visit (counts : Tgid → ℕ) (x : Extremes) (g : Tgid) : Extremes :=
  let x := if x.max < counts g then { x with max := counts g } else x
  if (counts g : ℤ) < x.min then { x with min := counts g } else x

/-- The order in which the map of the groups is iterated does not matter here. -/
def ShardConfig.extremes (cfg : ShardConfig) : Extremes :=
  cfg.gids.foldl (Extremes.visit cfg.counts) ⟨0, 257⟩

def ShardConfig.unallocated (cfg : ShardConfig) : Option (Fin NShards) :=
  (List.finRange NShards).find? fun s => cfg.shards s ∉ cfg.groups

def ShardConfig.checkConfig (cfg : ShardConfig) (groups : List Tgid) : Except ConfigError Unit :=
  if cfg.groups.keys.card ≠ groups.length then
    .error (.groups groups.length cfg.groups.keys.card)
  else
    match groups.find? fun g => g ∉ cfg.groups with
    | some g => .error (.missing g)
    | none =>
      match if 0 < groups.length then cfg.unallocated else none with
      | some s => .error (.invalid s (cfg.shards s))
      | none =>
        let x := cfg.extremes
        if x.min + 1 < x.max then .error (.unbalanced x.max x.min) else .ok ()

section Check

variable {cfg : ShardConfig} {counts : Tgid → ℕ} {gs groups : List Tgid}

/-- What the last loop of `CheckConfig` has found among the groups it has visited. -/
structure Bounds (counts : Tgid → ℕ) (gs : List Tgid) (x : Extremes) : Prop where
  max_ge : ∀ g ∈ gs, (counts g : ℤ) ≤ x.max
  max_eq : x.max = 0 ∨ ∃ g ∈ gs, x.max = counts g
  min_le : ∀ g ∈ gs, x.min ≤ counts g
  min_eq : x.min = 257 ∨ ∃ g ∈ gs, x.min = counts g

theorem visit_eq (x : Extremes) (g : Tgid) :
    x.visit counts g = ⟨max x.max (counts g), min x.min (counts g)⟩ := by
  by_cases hmax : x.max < counts g <;> by_cases hmin : (counts g : ℤ) < x.min
  · simp [Extremes.visit, hmax, hmin, max_eq_right hmax.le, min_eq_right hmin.le]
  · simp [Extremes.visit, hmax, hmin, max_eq_right hmax.le, min_eq_left (not_lt.mp hmin)]
  · simp [Extremes.visit, hmax, hmin, max_eq_left (not_lt.mp hmax), min_eq_right hmin.le]
  · simp [Extremes.visit, hmax, hmin, max_eq_left (not_lt.mp hmax), min_eq_left (not_lt.mp hmin)]

theorem Bounds.visit {x : Extremes} (h : Bounds counts gs x) (g : Tgid) :
    Bounds counts (gs ++ [g]) (x.visit counts g) := by
  have hin {g' : Tgid} (hg' : g' ∈ gs) : g' ∈ gs ++ [g] := List.mem_append_left _ hg'
  have hlast : g ∈ gs ++ [g] := List.mem_append_right _ (List.mem_singleton_self g)
  rw [visit_eq]
  constructor
  · exact forall_mem_concat (fun g' hg' => le_max_of_le_left (h.max_ge g' hg')) (le_max_right ..)
  · rcases le_total (counts g : ℤ) x.max with hle | hle
    · rw [max_eq_left hle]
      exact h.max_eq.imp_right fun ⟨g', hg', heq⟩ => ⟨g', hin hg', heq⟩
    · exact .inr ⟨g, hlast, max_eq_right hle⟩
  · exact forall_mem_concat (fun g' hg' => min_le_of_left_le (h.min_le g' hg')) (min_le_right ..)
  · rcases le_total x.min (counts g : ℤ) with hle | hle
    · rw [min_eq_left hle]
      exact h.min_eq.imp_right fun ⟨g', hg', heq⟩ => ⟨g', hin hg', heq⟩
    · exact .inr ⟨g, hlast, min_eq_right hle⟩

theorem bounds_foldl (counts : Tgid → ℕ) (gs : List Tgid) :
    Bounds counts gs (gs.foldl (Extremes.visit counts) ⟨0, 257⟩) := by
  induction gs using List.reverseRecOn with
  | nil => exact ⟨nofun, .inl rfl, nofun, .inl rfl⟩
  | append_singleton gs g ih =>
    rw [List.foldl_concat]
    exact ih.visit g

/-- The test of the extremes is the one of all pairs of groups. -/
theorem extremes_iff_balanced (cfg : ShardConfig) :
    cfg.extremes.max ≤ cfg.extremes.min + 1 ↔ Balanced cfg.groups.keys cfg.shards := by
  have hb : Bounds cfg.counts cfg.gids cfg.extremes := bounds_foldl _ _
  have hload (g : Tgid) := counts_eq_load cfg g
  constructor
  · intro hle g hg g' hg'
    have hmax := hb.max_ge g (mem_gids.mpr (Finmap.mem_keys.mp hg))
    have hmin := hb.min_le g' (mem_gids.mpr (Finmap.mem_keys.mp hg'))
    rw [hload] at hmax hmin
    omega
  · intro hbal
    have hmin : 0 ≤ cfg.extremes.min := by
      rcases hb.min_eq with h | ⟨g, -, h⟩ <;> omega
    rcases hb.max_eq with hzero | ⟨g, hg, hmax⟩
    · omega
    · rcases hb.min_eq with hnone | ⟨g', hg', hmin'⟩
      · have hle := counts_le cfg g
        change cfg.counts g ≤ 12 at hle
        omega
      · have hle := hbal g (Finmap.mem_keys.mpr (mem_gids.mp hg)) g'
          (Finmap.mem_keys.mpr (mem_gids.mp hg'))
        rw [← hload, ← hload] at hle
        omega

theorem unallocated_eq_none : cfg.unallocated = none ↔ ∀ s, cfg.shards s ∈ cfg.groups := by
  simp [ShardConfig.unallocated]

/-- What `CheckConfig` accepts. -/
theorem checkConfig_iff : cfg.checkConfig groups = .ok () ↔
    cfg.groups.keys.card = groups.length ∧ (∀ g ∈ groups, g ∈ cfg.groups) ∧
      (groups ≠ [] → ∀ s, cfg.shards s ∈ cfg.groups) ∧ Balanced cfg.groups.keys cfg.shards := by
  rw [← extremes_iff_balanced, ← unallocated_eq_none, ← List.length_pos_iff]
  unfold ShardConfig.checkConfig
  by_cases hcard : cfg.groups.keys.card = groups.length
  · rw [if_neg (not_not.mpr hcard)]
    cases hfind : groups.find? fun g => g ∉ cfg.groups with
    | some g =>
      have hg : g ∉ cfg.groups := by simpa using List.find?_some hfind
      have hmem := List.mem_of_find?_eq_some hfind
      simp only [reduceCtorEq, false_iff]
      exact fun h => hg (h.2.1 g hmem)
    | none =>
      have hall : ∀ g ∈ groups, g ∈ cfg.groups := by simpa using hfind
      rw [and_iff_right hcard, and_iff_right hall]
      cases hshard : if 0 < groups.length then cfg.unallocated else none with
      | some s =>
        obtain ⟨hpos, hs⟩ := Option.ite_none_right_eq_some.mp hshard
        simp only [reduceCtorEq, hs, hpos, forall_const, false_and]
      | none =>
        have hshards : 0 < groups.length → cfg.unallocated = none := by
          intro hpos
          rwa [if_pos hpos] at hshard
        rw [and_iff_right hshards]
        by_cases hlt : cfg.extremes.min + 1 < cfg.extremes.max
        · simp [hlt]
        · simp [hlt, not_lt.mp hlt]
  · simp [hcard]

end Check

/-- The servers of the groups that are there, in the terms of the callers. -/
abbrev Membership := Tgid → Option (List String)

def Membership.change (m : Membership) : Change → Membership
  | .join servers => fun g => (servers.lookup g).or (m g)
  | .leave gids => fun g => if g ∈ gids then none else m g

/-- The groups that have joined and not left. -/
def members (calls : List Change) : Membership := calls.foldl Membership.change fun _ => none

/-- A call of `JoinBalance` or `LeaveBalance` that returns true. -/
def ShardConfig.accept (cfg : ShardConfig) (ch : Change) : Option ShardConfig :=
  (cfg.changeBalance ch).bind fun x => if x.1 then some x.2 else none

theorem accept_eq_some {c d : ShardConfig} {ch : Change} (h : c.accept ch = some d) :
    ∃ d', c.change ch = some (true, d') ∧ d = d'.rebalance := by
  obtain ⟨⟨ok, e⟩, hcall, hok⟩ := Option.bind_eq_some_iff.mp h
  cases ok with
  | false => cases hok
  | true =>
    obtain rfl := Option.some.inj hok
    rw [changeBalance_eq] at hcall
    exact map_balance_true hcall

section Servers

variable {c d : ShardConfig} {changed : Bool} {l : List (Σ _ : Tgid, List String)}

theorem foldl_or {α : Type*} (f : α → Bool) (l : List α) (b : Bool) :
    l.foldl (fun x y => x || f y) b = (b || l.any f) := by
  induction l generalizing b with
  | nil => simp
  | cons y l ih => simp [ih, Bool.or_assoc]

theorem sharesServer_of_lookup {g : Tgid} {xs servers : List String} {srv : String}
    (hg : c.groups.lookup g = some xs) (hxs : srv ∈ xs) (hsrv : srv ∈ servers) :
    c.sharesServer servers = true := by
  unfold ShardConfig.sharesServer Finmap.any Finmap.foldl
  induction hc : c.groups using Finmap.induction_on with
  | H a =>
    rw [hc, Finmap.lookup_toFinmap] at hg
    have hmem : (⟨g, xs⟩ : Σ _ : Tgid, List String) ∈ a.entries :=
      List.mem_dlookup_iff a.nodupKeys |>.mp hg
    change a.entries.foldl _ false = true
    rw [foldl_or (fun x : Σ _ : Tgid, List String => x.2.any fun s => servers.contains s)]
    simp only [Bool.false_or, List.any_eq_true]
    exact ⟨⟨g, xs⟩, hmem, srv, hxs, by simpa using hsrv⟩

def Disjoint (c : ShardConfig) : Prop :=
  ∀ g g' xs xs' srv, c.groups.lookup g = some xs → c.groups.lookup g' = some xs' →
    srv ∈ xs → srv ∈ xs' → g = g'

theorem Disjoint.insert (h : Disjoint c) {gid : Tgid} {servers : List String}
    (hnew : c.sharesServer servers = false) :
    Disjoint { c with groups := c.groups.insert gid servers } := by
  have hno : ∀ g xs srv, c.groups.lookup g = some xs → srv ∈ xs → srv ∉ servers := by
    intro g xs srv hg hxs hsrv
    rw [sharesServer_of_lookup hg hxs hsrv] at hnew
    cases hnew
  intro g g' xs xs' srv hg hg' hxs hxs'
  by_cases hgid : g = gid <;> by_cases hgid' : g' = gid
  · exact hgid.trans hgid'.symm
  · subst hgid
    rw [Finmap.lookup_insert, Option.some.injEq] at hg
    rw [Finmap.lookup_insert_of_ne _ hgid'] at hg'
    exact absurd (hg ▸ hxs) (hno g' xs' srv hg' hxs')
  · subst hgid'
    rw [Finmap.lookup_insert, Option.some.injEq] at hg'
    rw [Finmap.lookup_insert_of_ne _ hgid] at hg
    exact absurd (hg' ▸ hxs') (hno g xs srv hg hxs)
  · rw [Finmap.lookup_insert_of_ne _ hgid] at hg
    rw [Finmap.lookup_insert_of_ne _ hgid'] at hg'
    exact h g g' xs xs' srv hg hg' hxs hxs'

/-- The servers of the groups after a loop of `Join` that is not refused. -/
theorem joinGroups_servers (h : c.joinGroups changed l = some (true, d)) (hdisj : Disjoint c) :
    (∀ g, d.groups.lookup g = (l.dlookup g).or (c.groups.lookup g)) ∧ Disjoint d := by
  induction l generalizing c changed with
  | nil =>
    cases changed with
    | false => cases h
    | true =>
      simp only [ShardConfig.joinGroups, if_true, Option.some.injEq, Prod.mk.injEq, true_and] at h
      subst h
      exact ⟨fun g => rfl, hdisj⟩
  | cons x rest ih =>
    obtain ⟨gid, servers⟩ := x
    simp only [ShardConfig.joinGroups] at h
    split_ifs at h with hin hshares
    · simp at h
    · obtain ⟨hlookup, hd⟩ := ih h (hdisj.insert (Bool.eq_false_of_not_eq_true hshares))
      refine ⟨fun g => ?_, hd⟩
      rw [hlookup]
      by_cases hg : g = gid
      · subst hg
        have hrest : rest.dlookup g = none :=
          List.dlookup_eq_none.mpr fun hkey =>
            (joinGroups_true h).2 g hkey (mem_insert_groups.mpr (.inl rfl))
        rw [hrest, List.dlookup_cons_eq, Finmap.lookup_insert]
        rfl
      · rw [List.dlookup_cons_ne _ _ hg, Finmap.lookup_insert_of_ne _ hg]

/-- The servers of the groups after a loop of `Leave` that is not refused. -/
theorem leaveGroups_servers {gids : List Tgid} (h : c.leaveGroups changed gids = some (true, d))
    (g : Tgid) : d.groups.lookup g = if g ∈ gids then none else c.groups.lookup g := by
  induction gids generalizing c changed with
  | nil =>
    cases changed with
    | false => cases h
    | true =>
      simp only [ShardConfig.leaveGroups, if_true, Option.some.injEq, Prod.mk.injEq, true_and] at h
      subst h
      simp
  | cons gid rest ih =>
    simp only [ShardConfig.leaveGroups] at h
    split_ifs at h with hin
    · rw [ih h]
      by_cases hg : g = gid
      · subst hg
        simp
      · simp [hg, Finmap.lookup_erase_ne]
    · simp at h

theorem change_servers {ch : Change} {m : Membership} (h : c.change ch = some (true, d))
    (hm : ∀ g, c.groups.lookup g = m g) (hdisj : Disjoint c) :
    (∀ g, d.groups.lookup g = m.change ch g) ∧ Disjoint d := by
  cases ch with
  | join servers =>
    obtain ⟨hlookup, hd⟩ := joinGroups_servers h hdisj
    exact ⟨fun g => by rw [hlookup, hm]; rfl, hd⟩
  | leave gids =>
    have hlookup := leaveGroups_servers h
    refine ⟨fun g => by rw [hlookup, hm]; rfl, fun g g' xs xs' srv hg hg' => ?_⟩
    rw [hlookup] at hg hg'
    split_ifs at hg hg'
    exact hdisj g g' xs xs' srv hg hg'

end Servers

section Runs

variable {c d : ShardConfig} {calls rest : List Change} {ch : Change}

/-- A configuration after some calls that were accepted. -/
structure Tracks (calls : List Change) (c : ShardConfig) : Prop where
  servers : ∀ g, c.groups.lookup g = members calls g
  disjoint : Disjoint c
  sound : Sound ⟨c, calls.length⟩

theorem tracks_nil : Tracks [] makeShardConfig := by
  refine ⟨fun g => Finmap.lookup_empty _, fun g g' xs xs' srv hg => ?_, sound_initial⟩
  cases (Finmap.lookup_empty _).symm.trans hg

theorem Tracks.accept (h : Tracks calls c) (hcall : c.accept ch = some d) :
    Tracks (calls ++ [ch]) d := by
  obtain ⟨d', hchange, rfl⟩ := accept_eq_some hcall
  obtain ⟨hservers, hdisj⟩ := change_servers hchange h.servers h.disjoint
  have hgroups := (rebalance_keeps d').2
  refine ⟨fun g => ?_, ?_, ?_⟩
  · rw [hgroups, hservers, members, members, List.foldl_concat]
  · unfold Disjoint
    rw [hgroups]
    exact hdisj
  · refine sound_rebalance ?_
    rw [change_num hchange, h.sound.num]
    simp

theorem Tracks.exec (h : Tracks calls c)
    (hrun : TransitionRuns.exec ShardConfig.accept c rest = some d) : Tracks (calls ++ rest) d := by
  induction rest generalizing calls c with
  | nil =>
    obtain rfl := Option.some.inj hrun
    rwa [List.append_nil]
  | cons ch rest ih =>
    obtain ⟨e, hcall, hrest⟩ := Option.bind_eq_some_iff.mp hrun
    simpa using ih (h.accept hcall) hrest

theorem Tracks.mem_groups (h : Tracks calls c) (g : Tgid) :
    g ∈ c.groups ↔ (members calls g).isSome := by
  rw [← h.servers, Finmap.lookup_isSome]

theorem Tracks.assigned (h : Tracks calls c) {g : Tgid} (hg : (members calls g).isSome) :
    ∀ s, c.shards s ∈ c.groups := by
  refine h.sound.assigned fun hempty => ?_
  have hmem : g ∈ c.groups := (h.mem_groups g).mpr hg
  have hempty : c.groups = ∅ := hempty
  rw [hempty] at hmem
  exact Finmap.notMem_empty hmem

/-- `CheckConfig` accepts a list without repetitions exactly when it lists the members. -/
theorem Tracks.checkConfig (h : Tracks calls c) {groups : List Tgid} (hnodup : groups.Nodup) :
    c.checkConfig groups = .ok () ↔ ∀ g, g ∈ groups ↔ (members calls g).isSome := by
  have hcard : groups.toFinset.card = groups.length := List.toFinset_card_of_nodup hnodup
  rw [checkConfig_iff]
  constructor
  · rintro ⟨hlength, hsub, -, -⟩ g
    have hset : groups.toFinset = c.groups.keys := by
      refine Finset.eq_of_subset_of_card_le (fun g hg => ?_) (by omega)
      exact Finmap.mem_keys.mpr (hsub g (List.mem_toFinset.mp hg))
    rw [← h.mem_groups, ← Finmap.mem_keys, ← hset, List.mem_toFinset]
  · intro hlist
    have hset : groups.toFinset = c.groups.keys := by
      ext g
      rw [List.mem_toFinset, Finmap.mem_keys, hlist, h.mem_groups]
    refine ⟨by rw [← hset, hcard], fun g hg => (h.mem_groups g).mpr ((hlist g).mp hg),
      fun hne => ?_, h.sound.balanced⟩
    obtain ⟨g, hg⟩ := List.exists_mem_of_ne_nil groups hne
    exact h.assigned ((hlist g).mp hg)

theorem Tracks.gidServers (h : Tracks calls c) {g : Tgid} (hg : (members calls g).isSome)
    (sh : Fin NShards) : ∃ srvs, members calls (c.shards sh) = some srvs ∧
      c.gidServers sh = (c.shards sh, srvs, true) := by
  have hmem := (h.mem_groups _).mp (h.assigned hg sh)
  obtain ⟨srvs, hsrvs⟩ := Option.isSome_iff_exists.mp hmem
  exact ⟨srvs, hsrvs, by simp [ShardConfig.gidServers, h.servers, hsrvs]⟩

theorem isMember_iff (c : ShardConfig) (g : Tgid) :
    c.isMember g = true ↔ 0 < load c.shards g := by
  rw [← counts_eq_load, ShardConfig.counts, List.count_pos_iff, ShardConfig.isMember,
    List.any_eq_true]
  simp

theorem Tracks.isMember (h : Tracks calls c) {g : Tgid} (hg : (members calls g).isSome)
    (hcard : c.groups.keys.card ≤ NShards) (g' : Tgid) :
    c.isMember g' = true ↔ (members calls g').isSome := by
  have hall := h.assigned hg
  rw [isMember_iff, ← h.mem_groups]
  constructor
  · intro hpos
    obtain ⟨s, hs⟩ := Finset.card_pos.mp hpos
    exact (Finset.mem_filter.mp hs).2 ▸ hall s
  · intro hmem
    exact h.sound.balanced.load_pos (fun s => Finmap.mem_keys.mpr (hall s))
      (by simpa using hcard) (Finmap.mem_keys.mpr hmem)

end Runs

/-- After any calls that were all accepted, the configuration has the groups that have joined and
not left, with the servers they joined with and no server in two of them. It is numbered by the
calls and passes `CheckConfig` for a listing of these groups and for no other. If there is a group,
every key is served by one, and if there are no more groups than shards, every group is a member. -/
theorem configuration_serves (calls : List Change) (c : ShardConfig)
    (hrun : TransitionRuns.exec ShardConfig.accept makeShardConfig calls = some c) :
    (∀ g, c.groups.lookup g = members calls g) ∧ Disjoint c ∧ c.num = Int64.ofNat calls.length ∧
      (∀ groups : List Tgid, groups.Nodup →
        (c.checkConfig groups = .ok () ↔ ∀ g, g ∈ groups ↔ (members calls g).isSome)) ∧
      ((∃ g, (members calls g).isSome) →
        (∀ key, ∃ gid srvs, members calls gid = some srvs ∧
          c.gidServers (key2Shard key) = (gid, srvs, true)) ∧
        (c.groups.keys.card ≤ NShards →
          ∀ g, c.isMember g = true ↔ (members calls g).isSome)) := by
  have h : Tracks calls c := tracks_nil.exec hrun
  refine ⟨h.servers, h.disjoint, h.sound.num, fun groups hnodup => h.checkConfig hnodup, ?_⟩
  rintro ⟨g, hg⟩
  refine ⟨fun key => ?_, h.isMember hg⟩
  obtain ⟨srvs, hsrvs, hserved⟩ := h.gidServers hg (key2Shard key)
  exact ⟨_, srvs, hsrvs, hserved⟩

def threeChanges : List Change :=
  [.join (oneServerEach [2, 1]), .join (oneServerEach [3]), .leave [1]]

theorem members_threeChanges (g : Tgid) :
    (members threeChanges g).isSome ↔ g ∈ [(3 : Tgid), 2] := by
  have hnone : g ∉ (∅ : Servers) := AList.notMem_empty g
  have hmem : g ∈ oneServerEach [3] ↔ g = 3 := by
    simp only [oneServerEach, List.foldl_cons, List.foldl_nil, AList.mem_insert, hnone, or_false]
  have hmem' : g ∈ oneServerEach [2, 1] ↔ g = 1 ∨ g = 2 := by
    simp only [oneServerEach, List.foldl_cons, List.foldl_nil, AList.mem_insert, hnone, or_false]
  by_cases hone : g = 1
  · subst hone
    simp [threeChanges, members, Membership.change]
  · simp [threeChanges, members, Membership.change, hone, AList.lookup_isSome, hmem, hmem']

theorem configuration_serves_three_changes : ∃ c : ShardConfig,
    TransitionRuns.exec ShardConfig.accept makeShardConfig threeChanges = some c ∧
      c.checkConfig [3, 2] = .ok () ∧ c.checkConfig [1, 2] ≠ .ok () ∧
      c.isMember 3 = true ∧ c.isMember 1 = false := by
  obtain ⟨c, hc, hcard⟩ : ∃ c,
      TransitionRuns.exec ShardConfig.accept makeShardConfig threeChanges = some c ∧
        c.groups.keys.card ≤ NShards := by
    have h : (TransitionRuns.exec ShardConfig.accept makeShardConfig threeChanges).any
        (fun c => c.groups.keys.card ≤ NShards) = true := by
      decide +kernel
    obtain ⟨c, hc, htest⟩ := Option.any_eq_true .. |>.mp h
    exact ⟨c, hc, of_decide_eq_true htest⟩
  obtain ⟨-, -, -, hcheck, hserved⟩ := configuration_serves threeChanges c hc
  simp only [members_threeChanges] at hcheck hserved
  have hmember := (hserved ⟨3, by decide⟩).2 hcard
  refine ⟨c, hc, (hcheck [3, 2] (by decide)).mpr fun g => Iff.rfl, fun hok => ?_,
    (hmember 3).mpr (by decide), Bool.eq_false_of_not_eq_true fun hone => ?_⟩
  · exact absurd (((hcheck [1, 2] (by decide)).mp hok 1).mp (by decide)) (by decide)
  · exact absurd ((hmember 1).mp hone) (by decide)

end DistributedLabs.ShardCfg
