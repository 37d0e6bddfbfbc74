import DistributedLabs.MapReduceFiles
import DistributedLabs.MapReduceSequential

/-!
# MapReduce with workers that crash

The coordinator of a system with workers makes a run of its own, so that what holds of its runs
holds here. Together with what the workers know of their files this gives the result of a job.
-/

namespace DistributedLabs.MapReduce

open FileSystem Relation TransitionRuns

variable {files : List GoString} {nReduce : ℕ} {app : App} {disk : Disk files}
  {s t : System files nReduce} {w : ℕ} {k : JobTask files nReduce}

section Steps

theorem work_cases {fresh : GoString} (h : s.work app w fresh = some t) :
    (∃ i st fs' out, s.workers w = .mapping i st ∧
      app.mapStep (JobTask.map i : JobTask files nReduce).task s.fs fresh st = some (fs', out) ∧
      t = { s with fs := fs' }.setWorker w (.mapped i out)) ∨
    (∃ b st fs' out, s.workers w = .reducing b st ∧
      app.reduceStep (JobTask.reduce b : JobTask files nReduce).task s.fs fresh st =
        some (fs', out) ∧
      t = { s with fs := fs' }.setWorker w (.reduced b out)) ∨
    ∃ k, s.workers w = .reporting k ∧
      t = { s with reports := s.reports ++ [k] }.setWorker w .idle := by
  rw [System.work] at h
  cases hw : s.workers w with
  | idle => simp [hw] at h
  | stopped => simp [hw] at h
  | mapping i st =>
    rw [hw] at h
    obtain ⟨⟨fs', out⟩, hstep, rfl⟩ := Option.map_eq_some_iff.mp h
    exact .inl ⟨i, st, fs', out, rfl, hstep, rfl⟩
  | reducing b st =>
    rw [hw] at h
    obtain ⟨⟨fs', out⟩, hstep, rfl⟩ := Option.map_eq_some_iff.mp h
    exact .inr (.inl ⟨b, st, fs', out, rfl, hstep, rfl⟩)
  | reporting k =>
    rw [hw] at h
    exact .inr (.inr ⟨k, rfl, (Option.some.inj h).symm⟩)

theorem workers_setWorker (x : Worker files nReduce) (w' : ℕ) :
    (s.setWorker w x).workers w' = if w' = w then x else s.workers w' :=
  Function.update_apply ..

end Steps

section Coordinator

def Worker.job : Worker files nReduce → Option (JobTask files nReduce)
  | .mapping i _ => some (.map i)
  | .reducing b _ => some (.reduce b)
  | .reporting k => some k
  | .idle => none
  | .stopped => none

/-- A run of the coordinator in which the workers have been given their tasks. -/
structure Linked (s : System files nReduce) (r : Recorded files nReduce) : Prop where
  coordinator : r.coordinator = s.coordinator
  workers : ∀ w k, (s.workers w).job = some k → .assigned k ∈ r.log
  reports : ∀ k ∈ s.reports, .assigned k ∈ r.log

variable {r : Recorded files nReduce}

theorem job_start (task : Task) : (Worker.start task : Worker files nReduce).job = task.job := by
  rw [Worker.start]
  rcases task.job with _ | ⟨i⟩ | ⟨b⟩
  · dsimp only
    split_ifs <;> rfl
  · rfl
  · rfl

theorem job_mapped {i : Fin files.length} {out : Outcome MapState}
    (h : (Worker.mapped i out : Worker files nReduce).job = some k) : k = .map i := by
  cases out with
  | running st => exact (Option.some.inj h).symm
  | finished => exact (Option.some.inj h).symm
  | fatal => cases h

theorem job_reduced {b : Fin nReduce} {out : Outcome ReduceState}
    (h : (Worker.reduced b out : Worker files nReduce).job = some k) : k = .reduce b := by
  cases out with
  | running st => exact (Option.some.inj h).symm
  | finished => exact (Option.some.inj h).symm
  | fatal => cases h

/-- A worker goes on with its task or gives it up. -/
theorem Linked.setWorker (h : Linked s r) {x : Worker files nReduce} {fs : Files}
    (hx : ∀ k, x.job = some k → .assigned k ∈ r.log) :
    Linked ({ s with fs := fs }.setWorker w x) r := by
  refine ⟨h.coordinator, fun w' k hk => ?_, h.reports⟩
  rw [workers_setWorker] at hk
  split_ifs at hk
  · exact hx k hk
  · exact h.workers w' k hk

theorem Linked.setWorker_none (h : Linked s r) {x : Worker files nReduce} (hx : x.job = none) :
    Linked (s.setWorker w x) r := by
  refine h.setWorker fun k hk => ?_
  rw [hx] at hk
  cases hk

theorem Linked.step (h : Linked s r) (hst : s.Step app t) :
    ∃ r', ReflTransGen Recorded.Step r r' ∧ Linked t r' := by
  obtain ⟨e, hst⟩ := hst
  cases e with
  | assignTask w now =>
    simp only [System.next] at hst
    split at hst
    · obtain rfl := Option.some.inj hst
      let task := (s.coordinator.assignTask now).1
      let log := r.log ++ task.job.toList.map Entry.assigned
      have hnext : r.Step ⟨(s.coordinator.assignTask now).2, log⟩ :=
        ⟨.assignTask now, by rw [Recorded.next, h.coordinator]⟩
      refine ⟨_, .single hnext, rfl, fun w' k hk => ?_, fun k hk => ?_⟩
      · rw [workers_setWorker] at hk
        split_ifs at hk
        · rw [job_start] at hk
          exact List.mem_append_right _ (List.mem_map_of_mem (Option.mem_toList.mpr hk))
        · exact List.mem_append_left _ (h.workers w' k hk)
      · exact List.mem_append_left _ (h.reports k hk)
    · cases hst
  | work w fresh =>
    refine ⟨r, .refl, ?_⟩
    rcases work_cases hst with ⟨i, st, fs', out, hw, -, rfl⟩ | ⟨b, st, fs', out, hw, -, rfl⟩ |
      ⟨k, hw, rfl⟩
    · exact h.setWorker fun k hk => h.workers w k (by rw [hw, job_mapped hk]; rfl)
    · exact h.setWorker fun k hk => h.workers w k (by rw [hw, job_reduced hk]; rfl)
    · have hk : .assigned k ∈ r.log := h.workers w k (by rw [hw]; rfl)
      refine ⟨h.coordinator, (h.setWorker_none rfl).workers, fun k' hk' => ?_⟩
      rcases List.mem_append.mp hk' with hk' | hk'
      · exact h.reports k' hk'
      · exact List.mem_singleton.mp hk' ▸ hk
  | crash w =>
    obtain rfl := Option.some.inj hst
    exact ⟨r, .refl, h.setWorker_none rfl⟩
  | tasksDone i =>
    obtain ⟨k, hk, hst⟩ := Option.bind_eq_some_iff.mp hst
    obtain ⟨c, hc, rfl⟩ := Option.map_eq_some_iff.mp hst
    have hmem := h.reports k (List.mem_of_getElem? hk)
    have hnext : r.Step ⟨c, r.log ++ [.completed k]⟩ := by
      refine ⟨.tasksDone k.task, ?_⟩
      simp [Recorded.next, hmem, h.coordinator, hc]
    exact ⟨_, .single hnext, rfl, fun w k hk => List.mem_append_left _ (h.workers w k hk),
      fun k hk => List.mem_append_left _ (h.reports k hk)⟩
  | timeOutCheck clock =>
    obtain rfl := Option.some.inj hst
    have hnext : r.Step ⟨s.coordinator.timeOutCheck clock,
        r.log ++ (s.coordinator.returned clock).map .timedOut⟩ :=
      ⟨.timeOutCheck clock, by rw [Recorded.next, h.coordinator]⟩
    exact ⟨_, .single hnext, rfl, fun w k hk => List.mem_append_left _ (h.workers w k hk),
      fun k hk => List.mem_append_left _ (h.reports k hk)⟩

/-- Every run of a system is a run of its coordinator. -/
theorem simulates_coordinator (app : App) (disk : Disk files) (nReduce : ℕ) :
    Simulation (· = .initial disk) (System.Step app) (· = .initial) Recorded.Step
      (Linked : System files nReduce → Recorded files nReduce → Prop) where
  start s hs := by
    subst hs
    exact ⟨.initial, rfl, rfl, nofun, nofun⟩
  forward _ _ _ h hst := h.step hst

end Coordinator

section Sound

def System.temps (s : System files nReduce) (w : ℕ) : List (Temp GoString) := (s.workers w).temps

/-- The files of a system are as its workers, the reports and the coordinator say. -/
structure System.Sound (app : App) (disk : Disk files) (s : System files nReduce) : Prop where
  shared : Shared app disk nReduce s.fs s.temps
  workers : ∀ w, (s.workers w).Sound app disk s.fs s.temps
  reports : ∀ k ∈ s.reports, Published app disk s.fs k
  done : ∀ k, s.coordinator.status k = .done → Published app disk s.fs k

theorem temps_setWorker (x : Worker files nReduce) :
    (s.setWorker w x).temps = Function.update s.temps w x.temps := by
  funext w'
  rw [System.temps, workers_setWorker, Function.update_apply]
  split_ifs <;> rfl

theorem Disk.content_input (disk : Disk files) (i : Fin files.length) :
    disk.fs.content (files.get i) = some (disk.input i) := by
  obtain ⟨n, hn⟩ := Option.isSome_iff_exists.mp (disk.present _ (List.get_mem files i))
  rw [Disk.input, content, hn]
  rfl

theorem sound_initial (hnames : ∀ f ∈ files, ¬ Reserved files.length nReduce f) :
    System.Sound app disk (.initial disk : System files nReduce) where
  shared := {
    names := hnames
    hidden := ⟨disk.inodes, nofun, nofun, nofun, fun _ => List.nodup_nil, nofun⟩
    inputs := disk.content_input }
  workers _ := trivial
  reports := nofun
  done k hk := by simp [System.initial] at hk

/-- A worker takes a turn. -/
theorem System.Sound.turn (h : s.Sound app disk) {fs' : Files} {x : Worker files nReduce}
    (hturn : Turn app disk s.fs s.temps w fs' x) :
    ({ s with fs := fs' }.setWorker w x).Sound app disk := by
  have huniq {name c c' : GoString} (hc : Right app disk nReduce name c)
      (hc' : Right app disk nReduce name c') : c = c' := hc.unique h.shared.names hc'
  have htemps : ({ s with fs := fs' }.setWorker w x).temps = Function.update s.temps w x.temps :=
    temps_setWorker x
  have hholds {name c : GoString} (hright : Right app disk nReduce name c)
      (hc : s.fs.content name = some c) : fs'.content name = some c :=
    hturn.act.holds h.shared.hidden huniq hright hc
  constructor
  · rw [htemps]
    exact ⟨h.shared.names, hturn.act.private h.shared.hidden, fun i =>
      hholds (.input i rfl rfl) (h.shared.inputs i)⟩
  · intro w'
    rw [htemps, workers_setWorker]
    split_ifs with hw
    · exact hturn.sound
    · exact (h.workers w').frame (hturn.act.frame h.shared.hidden huniq hw)
  · exact fun k hk => (h.reports k hk).mono hholds
  · exact fun k hk => (h.done k hk).mono hholds

/-- The coordinator changes its state. -/
theorem System.Sound.coordinator (h : s.Sound app disk) {c : Coordinator files nReduce}
    (hdone : ∀ k, c.status k = .done → Published app disk s.fs k) :
    { s with coordinator := c }.Sound app disk :=
  ⟨h.shared, h.workers, h.reports, hdone⟩

theorem turn_start (task : Task) {fs : Files} {temps : ℕ → List (Temp GoString)} :
    Turn app disk fs temps w fs (.start task : Worker files nReduce) := by
  rw [Worker.start]
  rcases task.job with _ | ⟨i⟩ | ⟨b⟩
  · dsimp only
    split_ifs <;> exact ⟨.keep (List.nil_sublist _), trivial⟩
  · exact ⟨.keep (List.nil_sublist _), trivial⟩
  · exact ⟨.keep (List.nil_sublist _), rfl⟩

theorem System.Sound.step (h : s.Sound app disk)
    (hmaps : ∀ w b st, s.workers w = .reducing b st → s.coordinator.MapsDone) (hst : s.Step app t) :
    t.Sound app disk := by
  obtain ⟨e, hst⟩ := hst
  cases e with
  | assignTask w now =>
    simp only [System.next] at hst
    split at hst
    · obtain rfl := Option.some.inj hst
      refine System.Sound.turn (s := { s with coordinator := (s.coordinator.assignTask now).2 })
        (h.coordinator fun k hk => ?_) (turn_start _)
      rcases assignTask_cases s.coordinator now with ⟨k', heq, -⟩ | ⟨heq, -⟩ | ⟨heq, -⟩
      · rw [heq, status_handOut] at hk
        split_ifs at hk
        exact h.done k hk
      · rw [heq] at hk
        exact h.done k hk
      · rw [heq] at hk
        exact h.done k hk
    · cases hst
  | work w fresh =>
    rcases work_cases hst with ⟨i, st, fs', out, hw, hstep, rfl⟩ |
      ⟨b, st, fs', out, hw, hstep, rfl⟩ |
      ⟨k, hw, rfl⟩
    · have hsound := h.workers w
      have htemps : s.temps w = st.temps := by rw [System.temps, hw]; rfl
      rw [hw] at hsound
      exact h.turn (mapStep_turn h.shared htemps hsound hstep)
    · have hsound := h.workers w
      have htemps : s.temps w = st.temps := by rw [System.temps, hw]; rfl
      rw [hw] at hsound
      have hpub (i : Fin files.length) := h.done (.map i) (hmaps w b st hw i)
      exact h.turn (reduceStep_turn h.shared hpub htemps hsound hstep)
    · have hk := h.workers w
      rw [hw] at hk
      have hreports : { s with reports := s.reports ++ [k] }.Sound app disk := by
        refine ⟨h.shared, h.workers, fun k' hk' => ?_, h.done⟩
        rcases List.mem_append.mp hk' with hk' | hk'
        · exact h.reports k' hk'
        · exact List.mem_singleton.mp hk' ▸ hk
      exact hreports.turn ⟨.keep (List.nil_sublist _), trivial⟩
  | crash w =>
    obtain rfl := Option.some.inj hst
    exact h.turn .fatal
  | tasksDone i =>
    obtain ⟨k, hk, hst⟩ := Option.bind_eq_some_iff.mp hst
    obtain ⟨c, hc, rfl⟩ := Option.map_eq_some_iff.mp hst
    rw [tasksDone_eq (job_task k)] at hc
    obtain rfl := Option.some.inj hc
    refine h.coordinator fun k' hk' => ?_
    rw [status_finish] at hk'
    split_ifs at hk' with heq
    · exact heq ▸ h.reports k (List.mem_of_getElem? hk)
    · exact h.done k' hk'
  | timeOutCheck clock =>
    obtain rfl := Option.some.inj hst
    refine h.coordinator fun k hk => ?_
    rw [status_timeOutCheck] at hk
    split_ifs at hk
    exact h.done k hk

end Sound

section Correct

/-- A job is done right: whatever the workers do, reduce tasks find the files that they open, and
these are complete, and from the moment when the job is done its results are there to stay. -/
structure Correct (app : App) (disk : Disk files) (nReduce : ℕ) : Prop where
  found : ∀ s : System files nReduce, s.Reached app disk → ∀ w b i kvList,
    s.workers w = .reducing b (.opening i kvList) → i < files.length →
      s.fs.content (mrName i b) = some (disk.complete app nReduce i b)
  read : ∀ s : System files nReduce, s.Reached app disk → ∀ w b i inode kvList,
    s.workers w = .reducing b (.reading i inode kvList) →
      s.fs.data inode = disk.complete app nReduce i b
  output : ∀ s : System files nReduce, s.Reached app disk → s.coordinator.done = true →
    ∀ t, ReflTransGen (System.Step app) s t → ∀ b : Fin nReduce,
      t.fs.content (outName b) = some (disk.reduction app nReduce b)

/-- Reduce tasks are worked on only after all map tasks. -/
theorem Linked.mapsDone {r : Recorded files nReduce} (h : Linked s r) (hr : r.Reached)
    {b : Fin nReduce}
    {st : ReduceState} (hw : s.workers w = .reducing b st) : s.coordinator.MapsDone := by
  rw [← h.coordinator]
  exact (phased_of_reached hr).reduces b (h.workers w _ (by rw [hw]; rfl))

theorem linked_of_reached (h : s.Reached app disk) :
    ∃ r : Recorded files nReduce, r.Reached ∧ Linked s r := by
  have hsim := simulates_coordinator app disk nReduce
  obtain ⟨r₀, rfl, hlink⟩ := hsim.start (.initial disk) rfl
  exact hsim.run hlink h

theorem sound_of_reached (hnames : ∀ f ∈ files, ¬ Reserved files.length nReduce f)
    (h : s.Reached app disk) : s.Sound app disk := by
  induction h with
  | refl => exact sound_initial hnames
  | tail hrun hst ih =>
    obtain ⟨r, hr, hlink⟩ := linked_of_reached hrun
    exact ih.step (fun w b st => hlink.mapsDone hr) hst

/-- The coordinator does not go back on `Done`. -/
theorem done_of_run (h : s.Reached app disk) (hdone : s.coordinator.done = true)
    (hrun : ReflTransGen (System.Step app) s t) : t.coordinator.AllDone := by
  obtain ⟨r, -, hlink⟩ := linked_of_reached h
  obtain ⟨r', hrun', hlink'⟩ := (simulates_coordinator app disk nReduce).run hlink hrun
  have hall : r.coordinator.AllDone := by
    rw [hlink.coordinator]
    exact endCheck_iff.mp hdone
  rw [← hlink'.coordinator]
  exact run_preserves (I := fun r => r.coordinator.AllDone)
    (fun _ _ hall hst k => done_step hst (hall k)) hall hrun'

/-- Crashes, late workers and lost reports do no harm to a job whose inputs are not named like its
other files. -/
theorem correct_of_names (app : App) (disk : Disk files) (nReduce : ℕ)
    (hnames : ∀ f ∈ files, ¬ Reserved files.length nReduce f) : Correct app disk nReduce where
  found s hs w b i kvList hw hi := by
    obtain ⟨r, hr, hlink⟩ := linked_of_reached hs
    have hdone := hlink.mapsDone hr hw ⟨i, hi⟩
    exact (sound_of_reached hnames hs).done (.map ⟨i, hi⟩) hdone b
  read s hs w b i inode kvList hw := by
    have hsound := (sound_of_reached hnames hs).workers w
    rw [hw] at hsound
    exact hsound.2.1.2
  output s hs hdone t hrun b :=
    (sound_of_reached hnames (hs.trans hrun)).done (.reduce b)
      (done_of_run hs hdone hrun (.reduce b))

end Correct

section Runs

theorem exists_of_events {test : System files nReduce → Bool}
    (es : List (System.Event files nReduce))
    (h : (exec (System.next app) (.initial disk) es).any test = true) :
    ∃ s : System files nReduce, s.Reached app disk ∧ test s = true :=
  exists_of_exec (fun _ e _ h => ⟨e, h⟩) h

def oneFile (name bytes : GoString) : Disk [name] where
  fs := ⟨fun x => if x = name then some 0 else none, fun _ => bytes, 1⟩
  inodes h := by
    simp only [Option.ite_none_right_eq_some, Option.some.injEq] at h
    exact h.2 ▸ Nat.one_pos
  present f hf := by simp [List.mem_singleton.mp hf]

def steps (w n : ℕ) : List (System.Event files nReduce) :=
  List.replicate n (.work w [116, UInt8.ofNat w])

/-- The first worker crashes in the middle of the map task and the second one takes it over. -/
def takenOver : List (System.Event [[97]] 1) :=
  [.assignTask 0 0] ++ steps 0 5 ++ [.crash 0, .timeOutCheck fun _ => 11 * 10 ^ 9,
    .assignTask 1 (12 * 10 ^ 9)] ++ steps 1 10 ++
    [.tasksDone 0, .assignTask 1 (13 * 10 ^ 9)] ++ steps 1 8 ++
    [.tasksDone 1]

theorem correct_of_names_taken_over : ∃ s : System [[97]] 1,
    s.Reached countBytes (oneFile [97] [98, 98]) ∧ s.coordinator.done = true ∧
      s.fs.content (outName 0) = some [98, 32, 50, 10] := by
  obtain ⟨s, hs, hdone⟩ : ∃ s : System [[97]] 1, s.Reached countBytes (oneFile [97] [98, 98]) ∧
      s.coordinator.done = true := exists_of_events takenOver (by decide +kernel)
  have hnames : ∀ f ∈ [([97] : GoString)], ¬ Reserved 1 1 f := by decide +kernel
  have hout :=
    (correct_of_names countBytes (oneFile [97] [98, 98]) 1 hnames).output s hs hdone s .refl 0
  refine ⟨s, hs, hdone, hout.trans (congrArg some ?_)⟩
  decide +kernel

/-- The input is named like the intermediate file. The first worker renames its file over it, the
task is given up, and the second worker maps what the first one wrote. -/
def overwritten : List (System.Event [mrName 0 0] 1) :=
  [.assignTask 0 0] ++ steps 0 8 ++
    [.timeOutCheck fun _ => 11 * 10 ^ 9, .assignTask 1 (12 * 10 ^ 9)] ++
    steps 1 14 ++ [.tasksDone 0, .assignTask 1 (13 * 10 ^ 9)] ++ steps 1 11 ++ [.tasksDone 1]

theorem input_overwritten :
    ¬ ∀ (files : List GoString) (nReduce : ℕ) (app : App) (disk : Disk files),
    1 ≤ nReduce → Correct app disk nReduce := by
  intro h
  obtain ⟨s, hs, htest⟩ : ∃ s : System [mrName 0 0] 1,
      s.Reached countBytes (oneFile (mrName 0 0) [98]) ∧ decide (s.coordinator.done = true ∧
        s.fs.content (outName 0) ≠
          some ((oneFile (mrName 0 0) [98]).reduction countBytes 1 0)) = true :=
    exists_of_events overwritten (by decide +kernel)
  obtain ⟨hdone, hwrong⟩ := of_decide_eq_true htest
  exact hwrong
    ((h _ 1 countBytes (oneFile (mrName 0 0) [98]) (by decide)).output s hs hdone s .refl 0)

end Runs

end DistributedLabs.MapReduce
