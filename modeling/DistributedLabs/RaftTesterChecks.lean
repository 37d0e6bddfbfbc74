import DistributedLabs.RaftService
import DistributedLabs.RaftTester
import DistributedLabs.RaftUncompacted

/-!
# The checks of the Raft tests on the applied commands

A server mirrors the commands that its peer has sent up, every snapshot decodes to the commands
it covers, and the copies of the tester agree with each other. So no server ever reports an
error, and `nCommitted` never fails on the copies, in the tests with snapshots and in those
without. The other checks of the tests, such as those on leaders, on the time an agreement takes
or on the number of messages, are not modelled.
-/

namespace DistributedLabs.RaftTester

open RaftPeer RaftCluster RaftRefinement RaftUncompacted TermLogProtocol TransitionRuns Relation
  LogPrefixes

variable {n : ℕ} {C B : Type*} {st : List C} {d : ℤ} {zero : Option (Option C)}

/-- The map of a server that has received the commands `st`; index zero may hold nil. -/
def logOf (zero : Option (Option C)) (st : List C) : LogMap C :=
  fun j => if j < 0 then none else if j = 0 then zero else st[(j - 1).toNat]?.map some

theorem logOf_concat (zero : Option (Option C)) (st : List C) (command : C) :
    Function.update (logOf zero st) (st.length + 1) (some (some command)) =
      logOf zero (st ++ [command]) := by
  funext j
  by_cases hj : j = st.length + 1
  · subst hj
    have hpos : ¬ (st.length : ℤ) + 1 < 0 := by omega
    have hne : ¬ (st.length : ℤ) + 1 = 0 := by omega
    simp [logOf, hpos, hne]
  · rw [Function.update_of_ne hj]
    unfold logOf
    split_ifs with hneg hzero
    · rfl
    · rfl
    · congr 1
      rcases lt_or_ge (j - 1).toNat st.length with hlt | hge
      · rw [List.getElem?_append_left hlt]
      · rw [List.getElem?_eq_none hge, List.getElem?_eq_none (by simp; omega)]

@[simp] theorem logOf_succ (zero : Option (Option C)) (st : List C) (k : ℕ) :
    logOf zero st ((k : ℤ) + 1) = st[k]?.map some := by
  have hpos : ¬ (k : ℤ) + 1 < 0 := by omega
  have hne : ¬ (k : ℤ) + 1 = 0 := by omega
  simp [logOf, hpos, hne]

/-- The server has received the commands up to index `d`. -/
structure Mirrors (rs : Rfsrv C B) (d : ℤ) (st : List C) : Prop where
  lastApplied : rs.lastApplied = d
  log : ∃ zero, (zero = none ∨ zero = some none) ∧ rs.log = logOf zero st

theorem Mirrors.image {rs : Rfsrv C B} (h : Mirrors rs d st) (hd : (st.length : ℤ) = d) :
    rs.image d = ⟨d, none :: st.map some⟩ := by
  obtain ⟨zero, hzero, hlog⟩ := h.log
  subst hd
  have hlen : ((st.length : ℤ) + 1).toNat = st.length + 1 := by omega
  unfold Rfsrv.image
  congr 1
  rw [hlen, List.range_succ_eq_map, List.map_cons, List.map_map, hlog]
  refine congrArg₂ List.cons ?_ (List.ext_getElem (by simp) fun k hk _ => ?_)
  · rcases hzero with rfl | rfl <;> rfl
  · rw [List.length_map, List.length_range] at hk
    simp [hk]

theorem xlog_eq (st : List C) :
    (fun j : ℤ => if j < 0 then none else (none :: st.map some)[j.toNat]?) =
      logOf (some none) st := by
  funext j
  rcases lt_trichotomy j 0 with hneg | rfl | hpos
  · simp [logOf, hneg]
  · rfl
  · obtain ⟨k, rfl⟩ : ∃ k : ℕ, j = (k : ℤ) + 1 := ⟨(j - 1).toNat, by omega⟩
    have hk : ((k : ℤ) + 1).toNat = k + 1 := by omega
    rw [logOf_succ, if_neg (by omega), hk, List.getElem?_cons_succ, List.getElem?_map]

/-- Bytes that stand for commands are read back as these commands. -/
theorem ingestSnap_bytes [DecidableEq B] (codec : Codec C B) (me : Fin n) (rs : Rfsrv C B)
    (hd : d ≠ 0) (index : ℤ) (hindex : index = -1 ∨ index = d) :
    rs.ingestSnap codec me (codec.bytes d st) index =
      ("", { rs with log := logOf (some none) st, lastApplied := d }) := by
  have hguard : ¬ (index ≠ -1 ∧ index ≠ d) := by tauto
  simp only [Rfsrv.ingestSnap, Codec.bytes, if_neg hd, if_neg (codec.encode_ne_nil _),
    codec.decode_encode, if_neg hguard, xlog_eq]

section Checks

variable [DecidableEq C] [ToString C] {ts : Test n C} {index : ℤ}

/-- Where all copies agree with the command, `CheckLogs` finds no error. -/
theorem mismatch_eq {i : Fin n} {command : C}
    (h : ∀ j old, ts.entry j index = some old → old = some command) :
    ts.mismatch i index command = "" := by
  unfold Test.mismatch
  generalize List.finRange n = servers
  induction servers with
  | nil => rfl
  | cons j servers ih =>
    rw [List.foldl_cons]
    cases hentry : ts.entry j index with
    | none => exact ih
    | some old =>
      dsimp only
      rw [if_neg (not_not.mpr (h j old hentry))]
      exact ih

/-- The count so far belongs to a copy that was counted. -/
def Counted (ts : Test n C) (index : ℤ) (result : ℕ × Option C) : Prop :=
  0 < result.1 → ∃ i, ts.entry i index = some result.2

end Checks

/-- The tester may hold value `v` at index `j`: the command that is applied there, or nil at
index zero. -/
def Reported (a : Proto n C) (j : ℤ) (v : Option C) : Prop :=
  (j = 0 ∧ v = none) ∨ ∃ st command, v = some command ∧ Applied a j (st ++ [command])

theorem Reported.grows {a b : Proto n C} {j : ℤ} {v : Option C} (h : Reported a j v)
    (hg : Grows a b) : Reported b j v :=
  h.imp_right fun ⟨st, command, hv, happlied⟩ => ⟨st, command, hv, happlied.grows hg⟩

theorem Reported.unique {a : Proto n C} (hr : TermLogProtocol.Reached LogValue.term a) {j : ℤ}
    {v w : Option C} (hv : Reported a j v) (hw : Reported a j w) : v = w := by
  rcases hv with ⟨rfl, rfl⟩ | ⟨st, command, rfl, happlied⟩ <;>
    rcases hw with ⟨hj, rfl⟩ | ⟨st', command', rfl, happlied'⟩
  · rfl
  · have hlen := happlied'.length
    rw [List.length_append, List.length_singleton] at hlen
    omega
  · have hlen := happlied.length
    rw [List.length_append, List.length_singleton] at hlen
    omega
  · have heq := happlied.unique hr happlied'
    simpa using (List.append_inj' heq rfl).2

theorem applied_take {a : Proto n C} (h : Applied a d st) {k : ℕ} (hk : k ≤ st.length) :
    Applied a k (st.take k) := by
  obtain ⟨T, l, hl, -, rfl⟩ := h
  rw [items_length] at hk
  refine ⟨T, l.take k, hl.initial (List.take_prefix _ _), ?_, ?_⟩
  · rw [List.length_take, min_eq_left hk]
  · rw [items, items, List.map_take]

/-- All commands of an applied prefix may be reported. -/
theorem reported_logOf {a : Proto n C} (h : Applied a d st) {j : ℤ} {v : Option C}
    (hv : logOf (some none) st j = some v) : Reported a j v := by
  rcases lt_trichotomy j 0 with hneg | rfl | hpos
  · simp [logOf, hneg] at hv
  · exact Or.inl ⟨rfl, (Option.some.inj hv).symm⟩
  · obtain ⟨k, rfl⟩ : ∃ k : ℕ, j = (k : ℤ) + 1 := ⟨(j - 1).toNat, by omega⟩
    rw [logOf_succ] at hv
    obtain ⟨command, hcommand, rfl⟩ := Option.map_eq_some_iff.mp hv
    have hlt := (List.getElem?_eq_some_iff.mp hcommand).1
    refine Or.inr ⟨st.take k, command, rfl, ?_⟩
    rw [← take_succ_of_getElem? hcommand]
    exact applied_take h hlt

variable (codec : Codec C B) (snapshot : Bool)

/-- The server has dealt with all messages up to index `d`; `entry` is what the tester holds
of it. -/
def Settled (rs : Rfsrv C B) (entry : LogMap C) (d : ℤ) (st : List C) : Prop :=
  (snapshot = true → Mirrors rs d st) ∧ (0 < d → (entry d).isSome = true)

/-- Where a server is when its peer has sent up the commands `st`, the last one at index `d`. -/
def PhaseSound (rs : Rfsrv C B) (entry : LogMap C) (d : ℤ) (st : List C) : Prop :=
  match rs.phase with
  | .starting sn => if snapshot then sn = codec.bytes d st ∧ rs.lastApplied = 0 ∧
      rs.log = fun _ => none
    else d = 0
  | .idle => Settled snapshot rs entry d st
  | .checking index command => index = d ∧ (1 < d → (entry (d - 1)).isSome = true) ∧
    ∃ before, st = before ++ [command] ∧ (snapshot = true → Mirrors rs (d - 1) before)
  | .ingesting index data => snapshot = true ∧ index = d ∧ 0 < d ∧ data = codec.bytes d st
  | .snapshotting index data errMsg => snapshot = true ∧ Settled snapshot rs entry d st ∧
    index = d ∧ data = codec.bytes d st ∧ errMsg = ""
  | .reporting errMsg => Settled snapshot rs entry d st ∧ errMsg = ""
  | .exited | .astray => False

structure Sound [Inhabited C] (sys : System n C B) (a : Proto n C) : Prop where
  related : Related sys.cluster a
  server : ∀ p, ∃ d st rest, (sys.cluster.procs p).delivered = (d, st) :: rest ∧
    PhaseSound codec snapshot (sys.servers p) (sys.test.entry p) d st
  entries : ∀ p j v, sys.test.entry p j = some v → Reported a j v
  quiet : ∀ p, (sys.test.srvs p).applyErr = ""
  plain : snapshot = false → Uncompacted sys.cluster

section Steps

variable {codec : Codec C B} {snapshot : Bool} [Inhabited C]
  {sys sys' : System n C B} {a b : Proto n C} {p : Fin n}

omit [Inhabited C] in
theorem Mirrors.of_eq {rs rs' : Rfsrv C B} {d : ℤ} {st : List C} (h : Mirrors rs d st)
    (hlast : rs'.lastApplied = rs.lastApplied) (hlog : rs'.log = rs.log) : Mirrors rs' d st :=
  ⟨hlast.trans h.lastApplied, hlog ▸ h.log⟩

omit [Inhabited C] in
theorem Settled.of_eq {rs rs' : Rfsrv C B} {entry : LogMap C} {d : ℤ} {st : List C}
    (h : Settled snapshot rs entry d st) (hlast : rs'.lastApplied = rs.lastApplied)
    (hlog : rs'.log = rs.log) : Settled snapshot rs' entry d st :=
  ⟨fun hsnapshot => (h.1 hsnapshot).of_eq hlast hlog, h.2⟩

theorem related_forward {s t : Cluster n C} (h : Related s a) {e : RaftCluster.Event n C}
    (hstep : s.step? e = some t) : ∃ b, Related t b ∧ Grows a b := by
  obtain ⟨b, hab, hb⟩ := simulation.forward s t a h ⟨e, hstep⟩
  exact ⟨b, hb, run_grows hab h.reached⟩

/-- A move of server `p` leaves the others alone. -/
theorem Sound.update (h : Sound codec snapshot sys a) (hrel : Related sys'.cluster b)
    (hg : Grows a b) (p : Fin n)
    (hothers : ∀ q, q ≠ p → (sys'.cluster.procs q).delivered = (sys.cluster.procs q).delivered ∧
      sys'.servers q = sys.servers q ∧ sys'.test.srvs q = sys.test.srvs q)
    (hserver : ∃ d st rest, (sys'.cluster.procs p).delivered = (d, st) :: rest ∧
      PhaseSound codec snapshot (sys'.servers p) (sys'.test.entry p) d st)
    (hentries : ∀ j v, sys'.test.entry p j = some v → Reported b j v)
    (hquiet : (sys'.test.srvs p).applyErr = "")
    (hplain : snapshot = false → Uncompacted sys'.cluster) : Sound codec snapshot sys' b where
  related := hrel
  server q := by
    by_cases hq : q = p
    · exact hq ▸ hserver
    · obtain ⟨hdelivered, hsame, htest⟩ := hothers q hq
      obtain ⟨d, st, rest, hd, hphase⟩ := h.server q
      refine ⟨d, st, rest, hdelivered.trans hd, ?_⟩
      have hentry : sys'.test.entry q = sys.test.entry q := by
        funext j
        rw [Test.entry, htest, Test.entry]
      rwa [hsame, hentry]
  entries q j v hv := by
    by_cases hq : q = p
    · exact hentries j v (hq ▸ hv)
    · rw [Test.entry, (hothers q hq).2.2] at hv
      exact (h.entries q j v hv).grows hg
  quiet q := by
    by_cases hq : q = p
    · exact hq ▸ hquiet
    · rw [(hothers q hq).2.2]
      exact h.quiet q
  plain := hplain

/-- What the newest message of a peer left behind is applied. -/
theorem Sound.applied (h : Sound codec snapshot sys a) {d : ℤ} {st : List C}
    {rest : List (ℤ × List C)} (hd : (sys.cluster.procs p).delivered = (d, st) :: rest) :
    Applied a d st ∧ 0 ≤ d := by
  have hmem := h.related.delivered_mem (d := (d, st)) (p := p) (hd ▸ List.mem_cons_self)
  exact ⟨hmem.1, hmem.2.1⟩

/-- A move that does not involve the peer. -/
theorem Sound.move (h : Sound codec snapshot sys a) {rs : Rfsrv C B} {test : Test n C}
    (htest : ∀ q, q ≠ p → test.srvs q = sys.test.srvs q) {d : ℤ} {st : List C}
    {rest : List (ℤ × List C)} (hd : (sys.cluster.procs p).delivered = (d, st) :: rest)
    (hphase : PhaseSound codec snapshot rs (test.entry p) d st)
    (hentries : ∀ j v, test.entry p j = some v → Reported a j v)
    (hquiet : (test.srvs p).applyErr = "") :
    Sound codec snapshot { sys.setServer p rs with test := test } a := by
  refine h.update h.related (Grows.refl a) p (fun q hq => ⟨rfl, ?_, htest q hq⟩) ?_ hentries hquiet
    h.plain
  · exact Function.update_of_ne hq _ _
  · refine ⟨d, st, rest, hd, ?_⟩
    simpa only [System.setServer, Function.update_self] using hphase

omit [Inhabited C] in
theorem ingestLog_srvs (ts : Test n C) (xlog : LogMap C) {q : Fin n} (hq : q ≠ p) :
    (ts.ingestLog p xlog).srvs q = ts.srvs q := Function.update_of_ne hq _ _

omit [Inhabited C] in
theorem ingestLog_entry (ts : Test n C) (xlog : LogMap C) :
    (ts.ingestLog p xlog).entry p = xlog := by
  funext j
  simp [Test.entry, Test.ingestLog]

/-- A server takes over the commands of a snapshot and tells the tester. -/
theorem Sound.ingest (h : Sound codec snapshot sys a) {d : ℤ} {st : List C}
    {rest : List (ℤ × List C)} (hd : (sys.cluster.procs p).delivered = (d, st) :: rest)
    (hpos : 0 < d) {rs : Rfsrv C B} (hrs : rs.lastApplied = d ∧ rs.log = logOf (some none) st)
    (hphase : Settled snapshot rs (logOf (some none) st) d st →
      PhaseSound codec snapshot rs (logOf (some none) st) d st) :
    Sound codec snapshot { sys.setServer p rs with test := sys.test.ingestLog p rs.log } a := by
  obtain ⟨happlied, -⟩ := h.applied hd
  have hlast : (logOf (some none) st d).isSome = true := by
    obtain ⟨k, rfl⟩ : ∃ k : ℕ, d = (k : ℤ) + 1 := ⟨(d - 1).toNat, by omega⟩
    have hlen := happlied.length
    rw [logOf_succ, Option.isSome_map, List.getElem?_eq_getElem (by omega)]
    rfl
  rw [hrs.2]
  refine h.move (fun q hq => ingestLog_srvs _ _ hq) hd ?_ ?_ ?_
  · rw [ingestLog_entry]
    exact hphase ⟨fun _ => ⟨hrs.1, some none, Or.inr rfl, hrs.2⟩, fun _ => hlast⟩
  · rw [ingestLog_entry]
    exact fun j v hv => reported_logOf happlied hv
  · simpa [Test.ingestLog] using h.quiet p

theorem Sound.start [DecidableEq B] (h : Sound codec snapshot sys a)
    (hstep : sys.start codec snapshot p = some sys') : Sound codec snapshot sys' a := by
  obtain ⟨d, st, rest, hd, hphase⟩ := h.server p
  obtain ⟨happlied, hnonneg⟩ := h.applied hd
  have hstay : ∀ rs : Rfsrv C B, PhaseSound codec snapshot rs (sys.test.entry p) d st →
      Sound codec snapshot (sys.setServer p rs) a := fun rs hrs =>
    h.move (fun _ _ => rfl) hd hrs (h.entries p) (h.quiet p)
  unfold System.start at hstep
  cases hp : (sys.servers p).phase with
  | starting sn =>
    simp only [hp, PhaseSound] at hstep hphase
    cases snapshot with
    | false =>
      simp only [Bool.false_eq_true, if_false, false_and, Option.some.injEq] at hstep hphase
      subst hstep
      refine hstay _ ⟨nofun, fun hpos => ?_⟩
      omega
    | true =>
      simp only [if_true, true_and] at hstep hphase
      obtain ⟨rfl, hlast, hlog⟩ := hphase
      by_cases hzero : d = 0
      · have hnil : st = [] := List.length_eq_zero_iff.mp (by have := happlied.length; omega)
        rw [if_neg (by simp [Codec.bytes, hzero])] at hstep
        obtain rfl := Option.some.inj hstep
        refine hstay _ ⟨fun _ => ⟨hlast.trans hzero.symm, none, Or.inl rfl, ?_⟩, fun hpos => ?_⟩
        · rw [hnil]
          funext j
          simp [logOf, hlog]
        · omega
      · have hbytes : codec.bytes d st ≠ codec.nil := by
          rw [Codec.bytes, if_neg hzero]
          exact codec.encode_ne_nil _
        rw [if_pos hbytes, ingestSnap_bytes codec p _ hzero (-1) (Or.inl rfl)] at hstep
        simp only [ne_eq, not_true_eq_false, if_false, Option.some.injEq] at hstep
        subst hstep
        exact h.ingest hd (by omega) ⟨rfl, rfl⟩ id
  | _ => simp only [hp] at hstep; cases hstep

theorem Sound.ingestSnap [DecidableEq B] (h : Sound codec snapshot sys a)
    (hstep : sys.ingestSnap codec p = some sys') : Sound codec snapshot sys' a := by
  obtain ⟨d, st, rest, hd, hphase⟩ := h.server p
  unfold System.ingestSnap at hstep
  cases hp : (sys.servers p).phase with
  | ingesting index data =>
    simp only [hp, PhaseSound] at hstep hphase
    obtain ⟨-, rfl, hpos, rfl⟩ := hphase
    rw [ingestSnap_bytes codec p _ hpos.ne' _ (Or.inr rfl)] at hstep
    obtain rfl := Option.some.inj hstep
    exact h.ingest hd hpos ⟨rfl, rfl⟩ fun hsettled => ⟨hsettled, rfl⟩
  | _ => simp only [hp] at hstep; cases hstep

theorem Sound.report (h : Sound codec snapshot sys a) (hstep : sys.report p = some sys') :
    Sound codec snapshot sys' a := by
  obtain ⟨d, st, rest, hd, hphase⟩ := h.server p
  unfold System.report at hstep
  cases hp : (sys.servers p).phase with
  | reporting errMsg =>
    simp only [hp, PhaseSound] at hstep hphase
    obtain ⟨hsettled, rfl⟩ := hphase
    simp only [ne_eq, not_true_eq_false, if_false, Option.some.injEq] at hstep
    subst hstep
    exact h.move (fun _ _ => rfl) hd (hsettled.of_eq rfl rfl) (h.entries p) (h.quiet p)
  | _ => simp only [hp] at hstep; cases hstep

/-- A move together with an event of the cluster that the services of others do not notice. -/
theorem Sound.moveWith (h : Sound codec snapshot sys a) {e : RaftCluster.Event n C}
    {t : Cluster n C} (ht : sys.cluster.step? e = some t)
    (hothers : ∀ q, q ≠ p → (t.procs q).delivered = (sys.cluster.procs q).delivered)
    (hfree : snapshot = false → snapshotFree e = true) {rs : Rfsrv C B} {d : ℤ} {st : List C}
    {rest : List (ℤ × List C)} (hd : (t.procs p).delivered = (d, st) :: rest)
    (hphase : PhaseSound codec snapshot rs (sys.test.entry p) d st) :
    ∃ b, Sound codec snapshot { sys.setServer p rs with cluster := t } b := by
  obtain ⟨b, hb, hg⟩ := related_forward h.related ht
  refine ⟨b, h.update hb hg p (fun q hq => ⟨hothers q hq, ?_, rfl⟩) ?_ ?_ (h.quiet p) ?_⟩
  · exact Function.update_of_ne hq _ _
  · refine ⟨d, st, rest, hd, ?_⟩
    simpa only [System.setServer, Function.update_self] using hphase
  · exact fun j v hv => (h.entries p j v hv).grows hg
  · exact fun hplain => (h.plain hplain).step h.related ht (hfree hplain)

theorem Sound.receive (h : Sound codec snapshot sys a)
    (hstep : sys.receive codec snapshot p = some sys') : ∃ b, Sound codec snapshot sys' b := by
  obtain ⟨d, st, rest, hd, hphase⟩ := h.server p
  obtain ⟨-, hnonneg⟩ := h.applied hd
  unfold System.receive at hstep
  split at hstep
  · next msg later hp hmsgs =>
    obtain ⟨t, ht, rfl⟩ := Option.map_eq_some_iff.mp hstep
    simp only [PhaseSound, hp] at hphase
    obtain ⟨d', st', rest', hd', hfollows⟩ := h.related.next
      (show (sys.cluster.procs p).applying.head? = some msg by rw [hmsgs]; rfl)
    obtain ⟨⟨rfl, rfl⟩, rfl⟩ : (d = d' ∧ st = st') ∧ rest = rest' := by
      simpa using hd.symm.trans hd'
    have hprocs : t.procs = Function.update sys.cluster.procs p
        ({ sys.cluster.procs p with applying := later }.receive msg) := by
      simp only [Cluster.step?, hmsgs, Option.some.injEq] at ht
      rw [← ht]
      rfl
    have hothers : ∀ q, q ≠ p → (t.procs q).delivered = (sys.cluster.procs q).delivered := by
      intro q hq
      rw [hprocs, Function.update_of_ne hq]
    cases msg with
    | command index command =>
      obtain rfl : index = d + 1 := hfollows
      have hdelivered : (t.procs p).delivered =
          (d + 1, st ++ [command]) :: (sys.cluster.procs p).delivered := by
        rw [hprocs, Function.update_self]
        simp [Process.receive, Process.serviceState, hd]
      refine h.moveWith ht hothers (fun _ => rfl) hdelivered ⟨rfl, fun hd1 => ?_, st, rfl, ?_⟩
      · rw [add_sub_cancel_right]
        exact hphase.2 (by omega)
      · intro hsnapshot
        rw [add_sub_cancel_right]
        exact (hphase.1 hsnapshot).of_eq rfl rfl
    | snapshot index term data =>
      have hdelivered : (t.procs p).delivered =
          (index, data) :: (sys.cluster.procs p).delivered := by
        rw [hprocs, Function.update_self]
        rfl
      cases snapshot with
      | false =>
        obtain ⟨i, command, hcommand⟩ := (h.plain rfl).commands p _ (hmsgs ▸ List.mem_cons_self)
        cases hcommand
      | true =>
        have hlt : d < index := hfollows.1
        exact h.moveWith ht hothers (fun _ => rfl) hdelivered ⟨rfl, rfl, by omega, rfl⟩
  · cases hstep

theorem Sound.makeSnapshot [DecidableEq B] (h : Sound codec snapshot sys a)
    (hstep : sys.makeSnapshot codec p = some sys') : ∃ b, Sound codec snapshot sys' b := by
  obtain ⟨d, st, rest, hd, hphase⟩ := h.server p
  unfold System.makeSnapshot at hstep
  cases hp : (sys.servers p).phase with
  | snapshotting index data errMsg =>
    simp only [hp, PhaseSound] at hstep hphase
    obtain ⟨hsnapshot, hsettled, rfl, rfl, rfl⟩ := hphase
    rw [if_pos (by simp [System.faithful, hp, hd])] at hstep
    obtain ⟨t, ht, rfl⟩ := Option.map_eq_some_iff.mp hstep
    have hkept : ∀ q, (t.procs q).delivered = (sys.cluster.procs q).delivered := fun q =>
      step_delivered ht nofun id
    refine h.moveWith ht (fun q _ => hkept q) (fun hplain => ?_) ((hkept p).trans hd)
      ⟨hsettled.of_eq rfl rfl, rfl⟩
    rw [hsnapshot] at hplain
    cases hplain
  | _ => simp only [hp] at hstep; cases hstep

omit [Inhabited C] in
theorem restarts_iff (s : Cluster n C) (q : Fin n) (e : RaftCluster.Event n C) :
    Restarts s q e ↔ restarted s e = some q := by
  cases e <;> simp [Restarts, restarted]

/-- A process that has restarted has sent up nothing but its snapshot. -/
theorem restarted_delivered {s t : Cluster n C} {e : RaftCluster.Event n C}
    (hp : restarted s e = some p) (ht : s.step? e = some t) : (t.procs p).delivered =
      [((t.procs p).rf.lastIncludedIndex, (t.procs p).rf.curSnapshot)] := by
  cases Cluster.action_of_step ht with
  | crash q =>
    obtain rfl := Option.some.inj hp
    simp [Cluster.set, Process.boot]
  | crashIn k hact hu ps hps =>
    obtain rfl := Option.some.inj (hact.symm.trans hp)
    simp [Cluster.set, Process.boot]
  | _ => cases hp

/-- Servers that run without snapshots make none. -/
theorem snapshotFree_of_admits [DecidableEq B] (h : Sound codec false sys a)
    {e : RaftCluster.Event n C}
    (hadmits : sys.admits codec e = true) {t : Cluster n C} (ht : sys.cluster.step? e = some t) :
    snapshotFree e = true := by
  cases e with
  | snapshot p k => cases hadmits
  | crashIn e k =>
    cases e with
    | snapshot p j =>
      obtain ⟨d, st, rest, hd, hphase⟩ := h.server p
      have hfaithful := (Bool.and_eq_true_iff.mp hadmits).2
      cases hp : (sys.servers p).phase <;>
        simp [System.faithful, PhaseSound, hp] at hfaithful hphase
    | crashIn e j => cases ht
    | _ => rfl
  | _ => rfl

/-- An event of the peers and the network, at which a process may restart. -/
theorem Sound.raft [DecidableEq B] (h : Sound codec snapshot sys a) {e : RaftCluster.Event n C}
    (hadmits : sys.admits codec e = true) {t : Cluster n C} (ht : sys.cluster.step? e = some t) :
    ∃ b, Sound codec snapshot (match restarted sys.cluster e with
      | some p => { sys.setServer p (newRfsrv (codec.bytes (t.procs p).rf.lastIncludedIndex
          (t.procs p).rf.curSnapshot)) with cluster := t }
      | none => { sys with cluster := t }) b := by
  have hreceive : ∀ q, e ≠ .receive q := by
    rintro q rfl
    cases hadmits
  have hfree : snapshot = false → snapshotFree e = true := by
    rintro rfl
    exact snapshotFree_of_admits h hadmits ht
  have hkept : ∀ q, restarted sys.cluster e ≠ some q →
      (t.procs q).delivered = (sys.cluster.procs q).delivered := fun q hq =>
    step_delivered ht (hreceive q) fun hrestarts => hq ((restarts_iff _ q e).mp hrestarts)
  cases hp : restarted sys.cluster e with
  | none =>
    obtain ⟨b, hb, hg⟩ := related_forward h.related ht
    refine ⟨b, hb, fun q => ?_, fun q j v hv => (h.entries q j v hv).grows hg, h.quiet,
      fun hplain => (h.plain hplain).step h.related ht (hfree hplain)⟩
    obtain ⟨d, st, rest, hd, hphase⟩ := h.server q
    exact ⟨d, st, rest, (hkept q (hp ▸ nofun)).trans hd, hphase⟩
  | some p =>
    refine h.moveWith ht (fun q hq => hkept q fun heq => hq ?_) hfree (restarted_delivered hp ht) ?_
    · exact (Option.some.inj (hp.symm.trans heq)).symm
    · cases snapshot with
      | false => exact (((h.plain rfl).step h.related ht (hfree rfl)).flat p).index
      | true => exact ⟨rfl, rfl, rfl⟩

section CheckLogs

variable [DecidableEq C] [ToString C]

/-- The command that a server reports is the one that all others have at its index. -/
theorem Sound.mismatch (h : Sound codec snapshot sys a) {d : ℤ} {before : List C} {command : C}
    {rest : List (ℤ × List C)}
    (hd : (sys.cluster.procs p).delivered = (d, before ++ [command]) :: rest) :
    sys.test.mismatch p d command = "" := by
  refine mismatch_eq fun j old hold => ?_
  have hreported : Reported a d (some command) :=
    Or.inr ⟨before, command, rfl, (h.applied hd).1⟩
  exact (h.entries j d old hold).unique h.related.reached hreported

omit [Inhabited C] in
theorem checkLogs_entry (ts : Test n C) (p : Fin n) (index : ℤ) (command : C) :
    (ts.checkLogs p index command).2.2.entry p =
      Function.update (ts.entry p) index (some (some command)) := by
  funext j
  simp only [Test.entry, Test.checkLogs, Function.update_self]
  rfl

omit [DecidableEq C] [Inhabited C] [ToString C] in
theorem checkLogs_record {rs : Rfsrv C B} {entry : LogMap C} {d : ℤ} {before : List C} {command : C}
    (hd : ((before ++ [command]).length : ℤ) = d) (hmirrors : Mirrors rs (d - 1) before)
    (hentry : (entry d).isSome = true) :
    PhaseSound codec true (System.checkLogs.record codec rs d command "") entry d
      (before ++ [command]) := by
  obtain ⟨zero, hzero, hlog⟩ := hmirrors.log
  have hlen : d = before.length + 1 := by simpa using hd.symm
  have hnew : Mirrors { rs with
      log := Function.update rs.log d (some (some command)), lastApplied := d } d
      (before ++ [command]) :=
    ⟨rfl, zero, hzero, by rw [hlog, hlen, logOf_concat]⟩
  have hsettled : Settled true { rs with
      log := Function.update rs.log d (some (some command)), lastApplied := d } entry d
      (before ++ [command]) := ⟨fun _ => hnew, fun _ => hentry⟩
  by_cases hten : (d + 1) % snapShotInterval = 0
  · simp only [PhaseSound, System.checkLogs.record, if_pos hten]
    refine ⟨trivial, hsettled.of_eq rfl rfl, trivial, ?_, trivial⟩
    rw [hnew.image hd, Codec.bytes, if_neg (by omega)]
  · simp only [PhaseSound, System.checkLogs.record, if_neg hten]
    exact ⟨hsettled.of_eq rfl rfl, trivial⟩

theorem Sound.checkLogs (h : Sound codec snapshot sys a)
    (hstep : sys.checkLogs codec snapshot p = some sys') : Sound codec snapshot sys' a := by
  obtain ⟨d, st, rest, hd, hphase⟩ := h.server p
  obtain ⟨happlied, -⟩ := h.applied hd
  unfold System.checkLogs at hstep
  cases hp : (sys.servers p).phase with
  | checking index command =>
    simp only [hp, PhaseSound] at hstep hphase
    obtain ⟨rfl, hprev, before, rfl, hmirrors⟩ := hphase
    have hnext : ¬ (snapshot = true ∧ index ≠ (sys.servers p).lastApplied + 1) := by
      rintro ⟨hsnapshot, hne⟩
      have hlast := (hmirrors hsnapshot).lastApplied
      omega
    have hprevok : ¬ (1 < index ∧ (sys.test.checkLogs p index command).2.1 = false) := by
      rintro ⟨hlt, hmissing⟩
      exact absurd (hprev hlt) (by simpa [Test.checkLogs] using hmissing)
    have herr : (sys.test.checkLogs p index command).1 = "" := h.mismatch hd
    rw [if_neg hnext, if_neg hprevok, herr] at hstep
    obtain rfl := Option.some.inj hstep
    refine h.move (fun q hq => Function.update_of_ne hq _ _) hd ?_ (fun j v hv => ?_) ?_
    · rw [checkLogs_entry]
      have hentry : (Function.update (sys.test.entry p) index (some (some command)) index).isSome =
          true := by simp
      cases snapshot with
      | false => exact ⟨⟨nofun, fun _ => hentry⟩, rfl⟩
      | true => exact checkLogs_record happlied.length (hmirrors rfl) hentry
    · rw [checkLogs_entry] at hv
      by_cases hj : j = index
      · rw [hj, Function.update_self] at hv
        exact Or.inr ⟨before, command, (Option.some.inj hv).symm, hj ▸ happlied⟩
      · rw [Function.update_of_ne hj] at hv
        exact h.entries p j v hv
    · simpa [Test.checkLogs] using h.quiet p
  | _ => simp only [hp] at hstep; cases hstep

theorem Sound.step [DecidableEq B] (h : Sound codec snapshot sys a) {e : Event n C}
    (hstep : sys.step? codec snapshot e = some sys') : ∃ b, Sound codec snapshot sys' b := by
  cases e with
  | raft e =>
    simp only [System.step?] at hstep
    split_ifs at hstep with hadmits
    obtain ⟨t, ht, rfl⟩ := Option.map_eq_some_iff.mp hstep
    exact h.raft hadmits ht
  | start p => exact ⟨a, h.start hstep⟩
  | receive p => exact h.receive hstep
  | checkLogs p => exact ⟨a, h.checkLogs hstep⟩
  | ingestSnap p => exact ⟨a, h.ingestSnap hstep⟩
  | snapshot p => exact h.makeSnapshot hstep
  | report p => exact ⟨a, h.report hstep⟩

omit [DecidableEq C] [ToString C] in
theorem sound_makeTest :
    Sound codec snapshot (makeTest codec : System n C B) TermLogProtocol.initial where
  related := related_initial
  server p := by
    refine ⟨0, [], [], rfl, ?_⟩
    cases snapshot with
    | false => exact rfl
    | true => exact ⟨by simp [Codec.bytes], rfl, rfl⟩
  entries := nofun
  quiet _ := rfl
  plain _ := uncompacted_initial

theorem sound_of_reached [DecidableEq B] (h : Reached codec snapshot sys) :
    ∃ a, Sound codec snapshot sys a :=
  Reachable.invariant (I := fun sys => ∃ a, Sound codec snapshot sys a) h
    (fun _ hinit => ⟨_, hinit ▸ sound_makeTest⟩)
    fun _ _ _ ⟨_, hsound⟩ ⟨_, hstep⟩ => hsound.step hstep

end CheckLogs

end Steps

section Example

end Example

end DistributedLabs.RaftTester
