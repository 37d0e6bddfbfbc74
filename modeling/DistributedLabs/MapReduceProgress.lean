import DistributedLabs.MapReduceCrashes
import Mathlib.Data.Finset.Prod
import Mathlib.Data.Finset.Range
import Mathlib.Data.Prod.Lex
import Mathlib.Data.Set.Finite.Lattice
import Mathlib.Order.WellFounded

/-!
# One worker finishes the job

Whatever has become of the other workers and of their reports, the job can be finished by any worker
that asks for tasks. Tasks that are in progress are given up after ten seconds. A worker comes to
the end of the task that it is given: the files it opens are there, the numbers of the buckets are
in range, and there are names left for new files.
-/

namespace DistributedLabs.MapReduce

open FileSystem Relation TransitionRuns

variable {files : List GoString} {nReduce : ℕ} {app : App} {disk : Disk files}
  {s t : System files nReduce} {w : ℕ} {k : JobTask files nReduce}

section Alone

/-- The events in which no worker but `w` takes part. -/
def System.Event.by_ (w : ℕ) : System.Event files nReduce → Prop
  | .assignTask w' _ => w' = w
  | .work w' _ => w' = w
  | .crash _ => False
  | .tasksDone _ => True
  | .timeOutCheck _ => True

def System.StepBy (app : App) (w : ℕ) (s t : System files nReduce) : Prop :=
  ∃ e : System.Event files nReduce, e.by_ w ∧ s.next app e = some t

theorem steps_of_stepsBy (h : ReflTransGen (System.StepBy app w) s t) :
    ReflTransGen (System.Step app) s t :=
  ReflTransGen.mono (fun _ _ ⟨e, _, he⟩ => ⟨e, he⟩) _ _ h

end Alone

section Names

def usedNames (fs : Files) : Set GoString := {name | fs.dir name ≠ none}

theorem finite_reserved (nmap nreduce : ℕ) : {name | Reserved nmap nreduce name}.Finite := by
  have hout := (Finset.range nreduce).finite_toSet.image outName
  have hmr := (Finset.range nmap ×ˢ Finset.range nreduce).finite_toSet.image fun p => mrName p.1 p.2
  refine (hout.union hmr).subset ?_
  rintro name ⟨y, hy, rfl | ⟨x, hx, rfl⟩⟩
  · exact .inl ⟨y, by simpa using hy, rfl⟩
  · exact .inr ⟨(x, y), by simpa using ⟨hx, hy⟩, rfl⟩

/-- `os.CreateTemp` finds a name. -/
theorem exists_createTemp {fs : Files} (h : (usedNames fs).Finite) (task : Task) :
    ∃ fresh, createTemp task fs fresh = some (fs.create fresh, ⟨fresh, fs.next⟩) := by
  obtain ⟨fresh, hfresh⟩ := (h.union (finite_reserved task.nmap task.nreduce)).exists_notMem
  refine ⟨fresh, if_pos ⟨?_, fun hres => hfresh (.inr hres)⟩⟩
  by_contra hused
  exact hfresh (.inl hused)

theorem finite_of_act {fs fs' : Files} {Right : GoString → List UInt8 → Prop}
    {temps rest : List (Temp GoString)} (h : Act Right fs temps fs' rest)
    (hfinite : (usedNames fs).Finite) : (usedNames fs').Finite := by
  cases h with
  | keep hsub => exact hfinite
  | @create name hfree hsecret =>
    refine (hfinite.insert name).subset fun x hx => ?_
    by_cases heq : x = name
    · exact .inl heq
    · refine .inr fun hnone => hx ?_
      rw [dir_create, if_neg heq, hnone]
  | append bytes ht => exact hfinite
  | @publish t rest target htemps hright =>
    refine (hfinite.insert target).subset fun x hx => ?_
    by_cases heq : x = target
    · exact .inl heq
    · refine .inr fun hnone => hx ?_
      cases hdir : fs.dir t.name with
      | none => rw [rename, hdir, hnone]
      | some n => rw [dir_rename hdir, if_neg heq, hnone, ite_self]

end Names

section Tasks

/-- What is left of a task: the part of it, and what is left of the part. -/
def MapState.rank (nReduce : ℕ) : MapState → ℕ ×ₗ ℕ
  | .opening => toLex (5, 0)
  | .reading _ => toLex (4, 0)
  | .creating _ bucketArr => toLex (3, nReduce - bucketArr.length)
  | .writing kvPairs _ => toLex (2, kvPairs.length)
  | .publishing _ bucketArr => toLex (1, bucketArr.length)

def ReduceState.rank (nMap : ℕ) : ReduceState → ℕ ×ₗ ℕ
  | .opening i _ => toLex (4, 2 * (nMap - i))
  | .reading i _ _ => toLex (4, 2 * (nMap - (i + 1)) + 1)
  | .creating _ => toLex (3, 0)
  | .writing _ calls => toLex (2, calls.length)
  | .publishing _ => toLex (1, 0)

variable {fs : Files} {temps : ℕ → List (Temp GoString)} {i : Fin files.length} {b : Fin nReduce}

/-- `MapTask` does not fail. -/
theorem mapStep_progress (hs : Shared app disk nReduce fs temps) (hfinite : (usedNames fs).Finite)
    (hn : 1 ≤ nReduce) {st : MapState} (htemps : temps w = st.temps)
    (hsound : st.Sound app disk fs temps nReduce i) :
    ∃ fresh fs' out,
      app.mapStep (JobTask.map i : JobTask files nReduce).task fs fresh st = some (fs', out) ∧
      (out = .finished ∨ ∃ st', out = .running st' ∧ st'.rank nReduce < st.rank nReduce) := by
  have htask : (JobTask.map i : JobTask files nReduce).task.nreduce = nReduce := rfl
  cases st with
  | opening =>
    obtain ⟨n, hdir, -⟩ := hs.hidden.readable (.input i rfl rfl) (hs.inputs i)
    have hname : (JobTask.map i : JobTask files nReduce).task.filename = files.get i := rfl
    refine ⟨[], fs, .running (.reading n), ?_, .inr ⟨_, rfl, ?_⟩⟩
    · simp only [App.mapStep, hname, hdir]
    · simp [MapState.rank, Prod.Lex.toLex_lt_toLex]
  | reading inode =>
      exact ⟨[], fs, _, rfl, .inr ⟨_, rfl, by simp [MapState.rank, Prod.Lex.toLex_lt_toLex]⟩⟩
  | creating kvPairs bucketArr =>
    by_cases hlt : bucketArr.length < nReduce
    · obtain ⟨fresh, hfresh⟩ :=
        exists_createTemp hfinite (JobTask.map i : JobTask files nReduce).task
      refine ⟨fresh, fs.create fresh, _, ?_,
        .inr ⟨.creating kvPairs (bucketArr ++ [⟨fresh, fs.next⟩]), rfl, ?_⟩⟩
      · simp only [App.mapStep, htask, if_pos hlt, hfresh, Option.map_some]
      · refine Prod.Lex.toLex_lt_toLex.mpr (.inr ⟨rfl, ?_⟩)
        change nReduce - (bucketArr ++ [_]).length < nReduce - bucketArr.length
        rw [List.length_append, List.length_singleton]
        omega
    · refine ⟨[], fs, _, ?_, .inr ⟨.writing kvPairs bucketArr, rfl, ?_⟩⟩
      · simp only [App.mapStep, htask, if_neg hlt]
      · simp [MapState.rank, Prod.Lex.toLex_lt_toLex]
  | writing kvPairs bucketArr =>
    cases kvPairs with
    | nil => exact ⟨[], fs, _, rfl, .inr ⟨_, rfl, by simp [MapState.rank, Prod.Lex.toLex_lt_toLex]⟩⟩
    | cons pair rest =>
      have hlt : ihash pair.key % nReduce < bucketArr.length := by
        rw [hsound.1]
        exact Nat.mod_lt _ hn
      refine ⟨[], fs.append bucketArr[ihash pair.key % nReduce].inode
        (app.codec.encode pair), _, ?_,
        .inr ⟨.writing rest bucketArr, rfl, ?_⟩⟩
      · simp only [App.mapStep, htask, List.getElem?_eq_getElem hlt]
      · simp [MapState.rank, Prod.Lex.toLex_lt_toLex]
  | publishing ind bucketArr =>
    cases bucketArr with
    | nil => exact ⟨[], fs, _, rfl, .inl rfl⟩
    | cons fp rest =>
      have hfp : fp ∈ temps w := htemps ▸ List.mem_cons_self
      refine ⟨[], fs.rename fp.name (mrName i ind), _, ?_,
        .inr ⟨.publishing (ind + 1) rest, rfl, ?_⟩⟩
      · simp only [App.mapStep, hs.hidden.linked hfp, Option.isSome_some, if_true]
        rfl
      · simp [MapState.rank, Prod.Lex.toLex_lt_toLex]

/-- `ReduceTask` does not fail once the map tasks are done. -/
theorem reduceStep_progress (hs : Shared app disk nReduce fs temps)
    (hfinite : (usedNames fs).Finite)
    (hmaps : ∀ i : Fin files.length, Published app disk fs (.map i : JobTask files nReduce))
    {st : ReduceState} (hsound : st.Sound app disk fs temps b) :
    ∃ fresh fs' out,
      app.reduceStep (JobTask.reduce b : JobTask files nReduce).task fs fresh st = some (fs', out) ∧
      (out = .finished ∨ ∃ st', out = .running st' ∧
          st'.rank files.length < st.rank files.length) := by
  have htask : (JobTask.reduce b : JobTask files nReduce).task.nmap = files.length := rfl
  have hid : (JobTask.reduce b : JobTask files nReduce).task.taskId = b := rfl
  cases st with
  | opening i kvList =>
    by_cases hlt : i < files.length
    · obtain ⟨n, hdir, -⟩ :=
        hs.hidden.readable (.intermediate ⟨i, hlt⟩ b rfl rfl) (hmaps ⟨i, hlt⟩ b)
      refine ⟨[], fs, .running (.reading i n kvList), ?_, .inr ⟨_, rfl, ?_⟩⟩
      · simp only [App.reduceStep, htask, hid, if_pos hlt, hdir]
      · refine Prod.Lex.toLex_lt_toLex.mpr (.inr ⟨rfl, ?_⟩)
        change 2 * (files.length - (i + 1)) + 1 < 2 * (files.length - i)
        omega
    · refine ⟨[], fs, .running (.creating kvList), ?_, .inr ⟨_, rfl, ?_⟩⟩
      · simp only [App.reduceStep, htask, if_neg hlt]
      · simp [ReduceState.rank, Prod.Lex.toLex_lt_toLex]
  | reading i inode kvList =>
    exact ⟨[], fs, _, rfl, .inr ⟨_, rfl, by simp [ReduceState.rank, Prod.Lex.toLex_lt_toLex]⟩⟩
  | creating kvList =>
    obtain ⟨fresh, hfresh⟩ :=
      exists_createTemp hfinite (JobTask.reduce b : JobTask files nReduce).task
    refine ⟨fresh, fs.create fresh, _, ?_,
      .inr ⟨.writing ⟨fresh, fs.next⟩ (reduceCalls (app.sorter.sort kvList) 0), rfl, ?_⟩⟩
    · simp only [App.reduceStep, hfresh, Option.map_some]
    · simp [ReduceState.rank, Prod.Lex.toLex_lt_toLex]
  | writing ofil calls =>
    cases calls with
    | nil =>
        exact ⟨[], fs, _, rfl, .inr ⟨_, rfl, by simp [ReduceState.rank, Prod.Lex.toLex_lt_toLex]⟩⟩
    | cons call rest =>
      exact ⟨[], _, _, rfl, .inr ⟨_, rfl, by simp [ReduceState.rank, Prod.Lex.toLex_lt_toLex]⟩⟩
  | publishing ofil => exact ⟨[], _, _, rfl, .inl rfl⟩

end Tasks

section Work

theorem finite_of_step (h : s.Sound app disk)
    (hmaps : ∀ w b st, s.workers w = .reducing b st → s.coordinator.MapsDone) (hst : s.Step app t)
    (hfinite : (usedNames s.fs).Finite) : (usedNames t.fs).Finite := by
  obtain ⟨e, hst⟩ := hst
  cases e with
  | assignTask w now =>
    simp only [System.next] at hst
    split at hst
    · exact Option.some.inj hst ▸ hfinite
    · cases hst
  | work w fresh =>
    rcases work_cases hst with ⟨i, st, fs', out, hw, hstep, rfl⟩ |
      ⟨b, st, fs', out, hw, hstep, rfl⟩ |
      ⟨k, hw, rfl⟩
    · have hsound := h.workers w
      have htemps : s.temps w = st.temps := by rw [System.temps, hw]; rfl
      rw [hw] at hsound
      exact finite_of_act (mapStep_turn h.shared htemps hsound hstep).act hfinite
    · have hsound := h.workers w
      have htemps : s.temps w = st.temps := by rw [System.temps, hw]; rfl
      rw [hw] at hsound
      have hpub (i : Fin files.length) := h.done (.map i) (hmaps w b st hw i)
      exact finite_of_act (reduceStep_turn h.shared hpub htemps hsound hstep).act hfinite
    · exact hfinite
  | crash w => exact Option.some.inj hst ▸ hfinite
  | tasksDone i =>
    obtain ⟨k, hk, hst⟩ := Option.bind_eq_some_iff.mp hst
    obtain ⟨c, hc, rfl⟩ := Option.map_eq_some_iff.mp hst
    exact hfinite
  | timeOutCheck clock => exact Option.some.inj hst ▸ hfinite

theorem mapsDone_of_reducing (h : s.Reached app disk) {b : Fin nReduce} {st : ReduceState}
    (hw : s.workers w = .reducing b st) : s.coordinator.MapsDone := by
  obtain ⟨r, hr, hlink⟩ := linked_of_reached h
  exact hlink.mapsDone hr hw

theorem finite_of_reached (hnames : ∀ f ∈ files, ¬ Reserved files.length nReduce f)
    (hfinite : (usedNames disk.fs).Finite) (h : s.Reached app disk) : (usedNames s.fs).Finite := by
  induction h with
  | refl => exact hfinite
  | tail hrun hst ih =>
    exact finite_of_step (sound_of_reached hnames hrun)
      (fun w b st => mapsDone_of_reducing hrun) hst ih

def Worker.rank : Worker files nReduce → ℕ ×ₗ ℕ
  | .mapping _ st => st.rank nReduce
  | .reducing _ st => st.rank files.length
  | _ => toLex (0, 0)

theorem rank_reporting_lt_map (i : Fin files.length) (st : MapState) :
    (Worker.reporting (.map i) : Worker files nReduce).rank < st.rank nReduce := by
  cases st <;> simp [Worker.rank, MapState.rank, Prod.Lex.toLex_lt_toLex]

theorem rank_reporting_lt_reduce (b : Fin nReduce) (st : ReduceState) :
    (Worker.reporting (.reduce b) : Worker files nReduce).rank < st.rank files.length := by
  cases st <;> simp [Worker.rank, ReduceState.rank, Prod.Lex.toLex_lt_toLex]

variable (hnames : ∀ f ∈ files, ¬ Reserved files.length nReduce f) (hn : 1 ≤ nReduce)
  (hfinite : (usedNames disk.fs).Finite)

include hnames hn hfinite in
/-- A worker with a task can go on. -/
theorem work_progress (hs : s.Reached app disk) (hjob : (s.workers w).job = some k)
    (hnot : s.workers w ≠ .reporting k) :
    ∃ t, s.StepBy app w t ∧ t.coordinator = s.coordinator ∧ (t.workers w).job = some k ∧
      (t.workers w).rank < (s.workers w).rank := by
  have hsound := sound_of_reached hnames hs
  have hfin := finite_of_reached hnames hfinite hs
  have hworker := hsound.workers w
  have hself : ∀ (fs : Files) x, ({ s with fs := fs }.setWorker w x).workers w = x :=
    fun _ _ => Function.update_self ..
  cases hw : s.workers w with
  | idle =>
    rw [hw] at hjob
    cases hjob
  | stopped =>
    rw [hw] at hjob
    cases hjob
  | reporting k' =>
    rw [hw] at hjob hnot
    exact absurd (congrArg Worker.reporting (Option.some.inj hjob)) hnot
  | mapping i st =>
    rw [hw] at hjob hworker
    obtain rfl := Option.some.inj hjob
    have htemps : s.temps w = st.temps := by rw [System.temps, hw]; rfl
    obtain ⟨fresh, fs', out, hstep, hout⟩ := mapStep_progress hsound.shared hfin hn htemps hworker
    refine ⟨{ s with fs := fs' }.setWorker w (.mapped i out), ⟨.work w fresh, rfl, ?_⟩, rfl, ?_⟩
    · simp only [System.next, System.work, hw, hstep, Option.map_some]
    · rw [hself]
      rcases hout with rfl | ⟨st', rfl, hlt⟩
      · exact ⟨rfl, rank_reporting_lt_map i st⟩
      · exact ⟨rfl, hlt⟩
  | reducing b st =>
    rw [hw] at hjob hworker
    obtain rfl := Option.some.inj hjob
    have hpub (i : Fin files.length) := hsound.done (.map i) (mapsDone_of_reducing hs hw i)
    obtain ⟨fresh, fs', out, hstep, hout⟩ := reduceStep_progress hsound.shared hfin hpub hworker
    refine ⟨{ s with fs := fs' }.setWorker w (.reduced b out), ⟨.work w fresh, rfl, ?_⟩, rfl, ?_⟩
    · simp only [System.next, System.work, hw, hstep, Option.map_some]
    · rw [hself]
      rcases hout with rfl | ⟨st', rfl, hlt⟩
      · exact ⟨rfl, rank_reporting_lt_reduce b st⟩
      · exact ⟨rfl, hlt⟩

include hnames hn hfinite in
/-- A worker comes to the end of its task. -/
theorem exists_reporting (hs : s.Reached app disk) (hjob : (s.workers w).job = some k) :
    ∃ t, ReflTransGen (System.StepBy app w) s t ∧ t.coordinator = s.coordinator ∧
      t.workers w = .reporting k := by
  let inTask := fun t : System files nReduce =>
    t.Reached app disk ∧ (t.workers w).job = some k ∧ t.coordinator = s.coordinator
  let ended := fun t : System files nReduce => t.workers w = .reporting k
  have hprogress : ∀ t, inTask t → ¬ ended t →
      ∃ u, t.StepBy app w u ∧ inTask u ∧ (u.workers w).rank < (t.workers w).rank := by
    rintro t ⟨ht, hjob, hc⟩ hnot
    obtain ⟨u, hstep, hcu, hju, hlt⟩ := work_progress hnames hn hfinite ht hjob hnot
    obtain ⟨e, -, he⟩ := id hstep
    exact ⟨u, hstep, ⟨ht.tail ⟨e, he⟩, hju, hcu.trans hc⟩, hlt⟩
  obtain ⟨t, hrun, ⟨-, -, hc⟩, ht⟩ := exists_run_of_rank wellFounded_lt _ hprogress ⟨hs, hjob, rfl⟩
  exact ⟨t, hrun, hc, ht⟩

end Work

section Jobs

variable (hnames : ∀ f ∈ files, ¬ Reserved files.length nReduce f) (hn : 1 ≤ nReduce)
  (hfinite : (usedNames disk.fs).Finite)

def Coordinator.undone (c : Coordinator files nReduce) : List (JobTask files nReduce) :=
  JobTask.all.filter fun k => c.status k ≠ .done

theorem mem_all (k : JobTask files nReduce) : k ∈ JobTask.all := by
  cases k <;> simp [JobTask.all]

theorem undone_lt {c c' : Coordinator files nReduce} (hk : c.status k ≠ .done)
    (hstatus : ∀ k', c'.status k' = .done ↔ k' = k ∨ c.status k' = .done) :
    c'.undone.length < c.undone.length := by
  have hundone : c'.undone = c.undone.filter fun k' => k' ≠ k := by
    rw [Coordinator.undone, Coordinator.undone, List.filter_filter]
    refine List.filter_congr fun k' _ => ?_
    simp [hstatus]
  rw [hundone]
  refine List.length_filter_lt_length_iff_exists.mpr ⟨k, ?_, by simp⟩
  exact List.mem_filter.mpr ⟨mem_all k, by simpa using hk⟩

/-- A time at which all tasks in progress have been out for too long. -/
def Coordinator.late (c : Coordinator files nReduce) (k : JobTask files nReduce) : ℤ :=
  (c.timeStamp k).getD 0 + timeOut + 1

/-- After a late scan a task that is not done is pending. -/
theorem status_late (hs : s.Reached app disk) :
    (s.coordinator.timeOutCheck s.coordinator.late).status k =
      if s.coordinator.status k = .done then .done else .pending := by
  obtain ⟨r, hr, hlink⟩ := linked_of_reached hs
  have hstamped := (phased_of_reached hr).stamped k
  rw [hlink.coordinator] at hstamped
  rw [status_timeOutCheck]
  cases hst : s.coordinator.status k with
  | pending => simp
  | done => simp
  | inProgress =>
    obtain ⟨val, hval⟩ := hstamped hst
    have hoverdue : s.coordinator.overdue s.coordinator.late k = true := by
      simp only [Coordinator.overdue, Coordinator.late, hval, Option.any_some, Option.getD_some,
        decide_eq_true_eq]
      omega
    simp [hoverdue]

include hnames hn hfinite in
/-- A worker that asks for a task gets one and reports it, and the task is done. -/
theorem exists_fewer_undone (hs : s.Reached app disk) (hw : s.workers w = .idle)
    (hnot : ¬ s.coordinator.AllDone) :
    ∃ t, ReflTransGen (System.StepBy app w) s t ∧ t.workers w = .idle ∧
      t.coordinator.undone.length < s.coordinator.undone.length := by
  let s₁ : System files nReduce :=
    { s with coordinator := s.coordinator.timeOutCheck s.coordinator.late }
  have h₁ : s.StepBy app w s₁ := ⟨.timeOutCheck s.coordinator.late, trivial, rfl⟩
  have hstatus₁ : ∀ k, s₁.coordinator.status k =
      if s.coordinator.status k = .done then .done else .pending := fun k => status_late hs
  obtain ⟨k, heq, hpending⟩ :
      ∃ k, s₁.coordinator.assignTask 0 = (k.task, s₁.coordinator.handOut k 0) ∧
      s₁.coordinator.status k = .pending := by
    rcases assignTask_cases s₁.coordinator 0 with ⟨k, heq, hpending, -⟩ | ⟨-, hphase⟩ | ⟨-, hall⟩
    · exact ⟨k, heq, hpending⟩
    · have hprogress : ∃ k, s₁.coordinator.status k = .inProgress := by
        rcases hphase with ⟨-, i, hi⟩ | ⟨-, b, hb⟩
        · exact ⟨.map i, hi⟩
        · exact ⟨.reduce b, hb⟩
      obtain ⟨k, hk⟩ := hprogress
      rw [hstatus₁] at hk
      split_ifs at hk
    · refine absurd (fun k => ?_) hnot
      have hk := hall k
      rw [hstatus₁] at hk
      split_ifs at hk with hdone
      exact hdone
  have hk : s.coordinator.status k ≠ .done := by
    intro hdone
    rw [hstatus₁, if_pos hdone] at hpending
    cases hpending
  let s₂ : System files nReduce :=
    { s₁ with coordinator := s₁.coordinator.handOut k 0 }.setWorker w (.start k.task)
  have h₂ : s₁.StepBy app w s₂ := by
    refine ⟨.assignTask w 0, rfl, ?_⟩
    simp only [System.next, show s₁.workers w = .idle from hw, heq]
    rfl
  have hjob : (s₂.workers w).job = some k := by
    rw [show s₂.workers w = .start k.task from Function.update_self .., job_start, job_task]
  have hrun₂ : ReflTransGen (System.StepBy app w) s s₂ := (ReflTransGen.single h₁).tail h₂
  obtain ⟨s₃, hrun₃, hc₃, hw₃⟩ := exists_reporting hnames hn hfinite
    (hs.trans (steps_of_stepsBy hrun₂)) hjob
  let s₄ : System files nReduce := { s₃ with reports := s₃.reports ++ [k] }.setWorker w .idle
  have h₄ : s₃.StepBy app w s₄ := by
    refine ⟨.work w [], rfl, ?_⟩
    simp only [System.next, System.work, hw₃]
    rfl
  let s₅ : System files nReduce := { s₄ with coordinator := s₄.coordinator.finish k }
  have h₅ : s₄.StepBy app w s₅ := by
    refine ⟨.tasksDone s₃.reports.length, trivial, ?_⟩
    have hreport : s₄.reports[s₃.reports.length]? = some k := List.getElem?_concat_length
    simp only [System.next, hreport, Option.bind_some, tasksDone_eq (job_task k), Option.map_some]
    rfl
  refine ⟨s₅, ((hrun₂.trans hrun₃).tail h₄).tail h₅, Function.update_self ..,
    undone_lt hk fun k' => ?_⟩
  have hc : s₅.coordinator = (s₁.coordinator.handOut k 0).finish k :=
    congrArg (Coordinator.finish · k) hc₃
  rw [hc, status_finish, status_handOut, hstatus₁]
  by_cases heq : k' = k
  · simp [heq]
  · simp [heq]

include hnames hn hfinite in
theorem exists_allDone (hs : s.Reached app disk) (hw : s.workers w = .idle) :
    ∃ t, ReflTransGen (System.StepBy app w) s t ∧ t.workers w = .idle ∧ t.coordinator.AllDone := by
  induction hlen : s.coordinator.undone.length using Nat.strongRecOn generalizing s with
  | _ n ih =>
    by_cases hall : s.coordinator.AllDone
    · exact ⟨s, .refl, hw, hall⟩
    · obtain ⟨t, hrun, hwt, hlt⟩ := exists_fewer_undone hnames hn hfinite hs hw hall
      obtain ⟨u, hrun', hwu, hu⟩ := ih _ (hlen ▸ hlt) (hs.trans (steps_of_stepsBy hrun)) hwt rfl
      exact ⟨u, hrun.trans hrun', hwu, hu⟩

/-- From every state that a job comes to, whatever has become of other workers and of reports, any
worker that is about to ask for a task can finish the job alone: it is told to exit, `Done` returns
true and the output files are complete. -/
theorem one_worker_finishes (hnames : ∀ f ∈ files, ¬ Reserved files.length nReduce f)
    (hn : 1 ≤ nReduce) (hfinite : (usedNames disk.fs).Finite) (hs : s.Reached app disk)
    (hw : s.workers w = .idle) :
    ∃ t, ReflTransGen (System.StepBy app w) s t ∧ t.workers w = .stopped ∧
      t.coordinator.done = true ∧
      ∀ b : Fin nReduce, t.fs.content (outName b) = some (disk.reduction app nReduce b) := by
  obtain ⟨t, hrun, hwt, hall⟩ := exists_allDone hnames hn hfinite hs hw
  let u : System files nReduce := t.setWorker w .stopped
  have hstep : t.StepBy app w u := by
    refine ⟨.assignTask w 0, rfl, ?_⟩
    have hexit : t.coordinator.assignTask 0 = (.exit, t.coordinator) := by
      rcases assignTask_cases t.coordinator 0 with ⟨k, -, hpending, -⟩ | ⟨-, hphase⟩ | ⟨heq, -⟩
      · exact nomatch hpending.symm.trans (hall k)
      · exact absurd hall (not_allDone_of_phaseInProgress hphase)
      · exact heq
    simp only [System.next, hwt, hexit]
    rfl
  have hu := hs.trans (steps_of_stepsBy (hrun.tail hstep))
  have hsound := sound_of_reached hnames hu
  exact ⟨u, hrun.tail hstep, Function.update_self .., endCheck_iff.mpr hall,
    fun b => hsound.done (.reduce b) (hall (.reduce b))⟩

theorem finite_oneFile (name bytes : GoString) : (usedNames (oneFile name bytes).fs).Finite := by
  refine (Set.finite_singleton name).subset fun x hx => ?_
  by_contra hne
  exact hx (if_neg hne)

def Worker.isStopped : Worker files nReduce → Bool
  | .stopped => true
  | _ => false

def Worker.isIdle : Worker files nReduce → Bool
  | .idle => true
  | _ => false

def abandoned : List (System.Event [[97]] 1) := [.assignTask 0 0] ++ steps 0 5 ++ [.crash 0]

theorem one_worker_finishes_abandoned : ∃ s t : System [[97]] 1,
    s.Reached countBytes (oneFile [97] [98, 98]) ∧ (s.workers 0).isStopped = true ∧
      s.coordinator.status (.map 0) = .inProgress ∧
      ReflTransGen (System.StepBy countBytes 1) s t ∧ t.coordinator.done = true ∧
      t.fs.content (outName 0) = some [98, 32, 50, 10] := by
  obtain ⟨s, hs, htest⟩ : ∃ s : System [[97]] 1, s.Reached countBytes (oneFile [97] [98, 98]) ∧
      decide ((s.workers 0).isStopped = true ∧ (s.workers 1).isIdle = true ∧
        s.coordinator.status (.map 0) = .inProgress) = true :=
    exists_of_events abandoned (by decide +kernel)
  obtain ⟨hstopped, hidle, hstatus⟩ := of_decide_eq_true htest
  have hnames : ∀ f ∈ [([97] : GoString)], ¬ Reserved 1 1 f := by decide +kernel
  have hw : s.workers 1 = .idle := by
    cases h : s.workers 1 <;> simp [Worker.isIdle, h] at hidle ⊢
  obtain ⟨t, hrun, -, hdone, hout⟩ :=
    one_worker_finishes hnames le_rfl (finite_oneFile [97] [98, 98]) hs hw
  refine ⟨s, t, hs, hstopped, hstatus, hrun, hdone, (hout 0).trans (congrArg some ?_)⟩
  decide +kernel

end Jobs

end DistributedLabs.MapReduce
