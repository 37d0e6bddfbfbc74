import DistributedLabs.MapReduceCoordinator

/-!
# Assignments of MapReduce tasks

Runs of the coordinator: workers ask for tasks and report tasks that were handed out to them,
at any time and any number of times, and the coordinator scans for tasks that take too long.
A log records which tasks are handed out, reported and given up.
-/

namespace DistributedLabs.MapReduce

open Relation TransitionRuns

inductive Entry (files : List GoString) (nReduce : ℕ) where
  | assigned (k : JobTask files nReduce)
  | completed (k : JobTask files nReduce)
  | timedOut (k : JobTask files nReduce)
  deriving DecidableEq

/-- The coordinator, with a log of what happened to its tasks. -/
structure Recorded (files : List GoString) (nReduce : ℕ) where
  coordinator : Coordinator files nReduce
  log : List (Entry files nReduce)

section Runs

variable {files : List GoString} {nReduce : ℕ} {s t : Recorded files nReduce}
  {k : JobTask files nReduce}

def JobTask.all : List (JobTask files nReduce) :=
  (List.finRange files.length).map .map ++ (List.finRange nReduce).map .reduce

/-- The tasks that a scan moves from in progress back to pending. -/
def Coordinator.returned (c : Coordinator files nReduce) (clock : JobTask files nReduce → ℤ) :
    List (JobTask files nReduce) :=
  JobTask.all.filter fun k =>
    c.status k = .inProgress ∧ (c.timeOutCheck clock).status k = .pending

def Recorded.initial : Recorded files nReduce := ⟨makeCoordinator files nReduce, []⟩

/-- The calls of `AssignTask` and `TasksDone`, and the scans of `TimeOutCheck`. -/
inductive Call (files : List GoString) (nReduce : ℕ) where
  | assignTask (now : ℤ)
  | tasksDone (task : Task)
  | timeOutCheck (clock : JobTask files nReduce → ℤ)

/-- A task is reported only after it has been handed out. -/
def Recorded.next (s : Recorded files nReduce) :
    Call files nReduce → Option (Recorded files nReduce)
  | .assignTask now =>
    let (task, c) := s.coordinator.assignTask now
    some ⟨c, s.log ++ task.job.toList.map .assigned⟩
  | .tasksDone task =>
    task.job.bind fun k =>
      if .assigned k ∈ s.log then
        (s.coordinator.tasksDone task).map fun c => ⟨c, s.log ++ [.completed k]⟩
      else none
  | .timeOutCheck clock =>
    some ⟨s.coordinator.timeOutCheck clock, s.log ++ (s.coordinator.returned clock).map .timedOut⟩

def Recorded.Step (s t : Recorded files nReduce) : Prop := ∃ call, s.next call = some t

def Recorded.Reached (s : Recorded files nReduce) : Prop :=
  ReflTransGen Recorded.Step Recorded.initial s

inductive Recorded.Action (s : Recorded files nReduce) : Recorded files nReduce → Prop
  | handOut (k : JobTask files nReduce) (now : ℤ) : s.coordinator.status k = .pending →
    ((∃ b, k = .reduce b) → s.coordinator.MapsDone) →
      Action s ⟨s.coordinator.handOut k now, s.log ++ [.assigned k]⟩
  | nothing : Action s s
  | finish (k : JobTask files nReduce) : .assigned k ∈ s.log →
    Action s ⟨s.coordinator.finish k, s.log ++ [.completed k]⟩
  | scan (clock : JobTask files nReduce → ℤ) :
    Action s ⟨s.coordinator.timeOutCheck clock,
      s.log ++ (s.coordinator.returned clock).map .timedOut⟩

theorem Recorded.Step.action (h : s.Step t) : s.Action t := by
  obtain ⟨call, h⟩ := h
  cases call with
  | assignTask now =>
    have hnothing : s.Action ⟨s.coordinator, s.log ++ []⟩ := by
      rw [List.append_nil]
      exact .nothing
    simp only [Recorded.next, Option.some.injEq] at h
    subst h
    rcases assignTask_cases s.coordinator now with ⟨k, heq, hpending, hmaps⟩ | ⟨heq, -⟩ | ⟨heq, -⟩
    · rw [heq, job_task]
      exact .handOut k now hpending hmaps
    · rw [heq]
      exact hnothing
    · rw [heq]
      exact hnothing
  | tasksDone task =>
    obtain ⟨k, hjob, h⟩ := Option.bind_eq_some_iff.mp h
    split_ifs at h with hmem
    rw [tasksDone_eq hjob] at h
    obtain rfl := Option.some.inj h
    exact .finish k hmem
  | timeOutCheck clock =>
    obtain rfl := Option.some.inj h
    exact .scan clock

theorem mem_returned {c : Coordinator files nReduce} {clock : JobTask files nReduce → ℤ} :
    k ∈ c.returned clock ↔
      c.status k = .inProgress ∧ (c.timeOutCheck clock).status k = .pending := by
  have hall : k ∈ (JobTask.all : List (JobTask files nReduce)) := by
    cases k <;> simp [JobTask.all]
  simp [Coordinator.returned, hall]

/-- A scan leaves a task alone or moves it from in progress back to pending. -/
theorem timeOutCheck_cases (c : Coordinator files nReduce) (clock : JobTask files nReduce → ℤ)
    (k : JobTask files nReduce) :
    (c.timeOutCheck clock).status k = c.status k ∨ k ∈ c.returned clock := by
  by_cases h : c.overdue clock k ∧ c.status k = .inProgress
  · exact .inr (mem_returned.mpr ⟨h.2, by rw [status_timeOutCheck, if_pos h]⟩)
  · exact .inl (by rw [status_timeOutCheck, if_neg h])

/-- A task that is done stays done. -/
theorem done_step (h : s.Step t) (hdone : s.coordinator.status k = .done) :
    t.coordinator.status k = .done := by
  cases h.action with
  | handOut k' now hpending =>
    rw [status_handOut, if_neg]
    · exact hdone
    · rintro rfl
      exact nomatch hdone.symm.trans hpending
  | nothing => exact hdone
  | finish k' =>
    rw [status_finish]
    split_ifs
    · rfl
    · exact hdone
  | scan clock =>
    rcases timeOutCheck_cases s.coordinator clock k with heq | hret
    · exact heq.trans hdone
    · exact nomatch hdone.symm.trans (mem_returned.mp hret).1

theorem mapsDone_step (h : s.Step t) (hdone : s.coordinator.MapsDone) : t.coordinator.MapsDone :=
  fun i => done_step h (hdone i)

structure Phased (s : Recorded files nReduce) : Prop where
  stamped : ∀ k, s.coordinator.status k = .inProgress → ∃ val, s.coordinator.timeStamp k = some val
  known : ∀ k, s.coordinator.status k ≠ .pending → .assigned k ∈ s.log
  reduces : ∀ b, .assigned (.reduce b) ∈ s.log → s.coordinator.MapsDone

theorem phased_initial : Phased (.initial : Recorded files nReduce) := by
  constructor
  · simp [Recorded.initial]
  · simp [Recorded.initial]
  · simp [Recorded.initial]

theorem Phased.step (h : Phased s) (hst : s.Step t) : Phased t := by
  have hmaps := mapsDone_step hst
  cases hst.action with
  | handOut k now hpending hphase =>
    constructor
    · intro k' hk'
      rw [status_handOut] at hk'
      rw [timeStamp_handOut]
      split_ifs at hk' ⊢ with heq
      · exact ⟨now, rfl⟩
      · exact h.stamped k' hk'
    · intro k' hk'
      rw [status_handOut] at hk'
      split_ifs at hk' with heq
      · simp [heq]
      · exact List.mem_append_left _ (h.known k' hk')
    · intro b hb
      rcases List.mem_append.mp hb with hb | hb
      · exact hmaps (h.reduces b hb)
      · have heq : k = .reduce b := by simpa [eq_comm] using hb
        exact hmaps (hphase ⟨b, heq⟩)
  | nothing => exact h
  | finish k hmem =>
    constructor
    · intro k' hk'
      rw [status_finish] at hk'
      rw [timeStamp_finish]
      split_ifs at hk'
      exact h.stamped k' hk'
    · intro k' hk'
      rw [status_finish] at hk'
      split_ifs at hk' with heq
      · exact List.mem_append_left _ (heq ▸ hmem)
      · exact List.mem_append_left _ (h.known k' hk')
    · intro b hb
      exact hmaps (h.reduces b (by simpa using hb))
  | scan clock =>
    have hstatus (k : JobTask files nReduce) :
        (s.coordinator.timeOutCheck clock).status k = s.coordinator.status k ∨
          (s.coordinator.timeOutCheck clock).status k = .pending := by
      refine (timeOutCheck_cases s.coordinator clock k).imp_right fun hret => ?_
      exact (mem_returned.mp hret).2
    constructor
    · intro k hk
      rw [timeStamp_timeOutCheck]
      rcases hstatus k with heq | heq
      · exact h.stamped k (heq ▸ hk)
      · exact nomatch heq.symm.trans hk
    · intro k hk
      exact List.mem_append_left _ (h.known k (((hstatus k).resolve_right hk) ▸ hk))
    · intro b hb
      exact hmaps (h.reduces b (by simpa using hb))

theorem phased_of_reached (h : s.Reached) : Phased s :=
  run_preserves (I := Phased) (fun _ _ => Phased.step) phased_initial h

/-- A reduce task leaves pending only when the map tasks are done. -/
theorem Phased.mapsDone_of_leaves (h : Phased s) (hst : s.Step t) {b : Fin nReduce}
    (hb : s.coordinator.status (.reduce b) = .pending)
    (hb' : t.coordinator.status (.reduce b) ≠ .pending) : s.coordinator.MapsDone := by
  cases hst.action with
  | handOut k now hpending hphase =>
    rw [status_handOut] at hb'
    split_ifs at hb' with heq
    · exact hphase ⟨b, heq.symm⟩
    · exact (hb' hb).elim
  | nothing => exact (hb' hb).elim
  | finish k hmem =>
    rw [status_finish] at hb'
    split_ifs at hb' with heq
    · exact h.reduces b (heq ▸ hmem)
    · exact (hb' hb).elim
  | scan clock =>
    rcases timeOutCheck_cases s.coordinator clock (.reduce b) with heq | hret
    · exact (hb' (heq.trans hb)).elim
    · exact (hb' (mem_returned.mp hret).2).elim

/-- The phases of a job, in every state and step of every run. -/
theorem phase_invariant (hs : s.Reached) :
    (∀ t, s.Step t → ∀ k, s.coordinator.status k = .done → t.coordinator.status k = .done) ∧
    (∀ t, s.Step t → ∀ b, s.coordinator.status (.reduce b) = .pending →
      t.coordinator.status (.reduce b) ≠ .pending → s.coordinator.MapsDone) ∧
    (∀ now, (s.coordinator.assignTask now).1.curType = .exit ↔ s.coordinator.AllDone) ∧
    (s.coordinator.done = true ↔ s.coordinator.AllDone) ∧
    (s.coordinator.done = true → ∀ t, ReflTransGen Recorded.Step s t → t.coordinator.done = true) ∧
    (∀ now, (s.coordinator.assignTask now).1.curType = .wait → s.coordinator.PhaseInProgress) ∧
    (∀ k, s.coordinator.status k = .inProgress → ∃ val, s.coordinator.timeStamp k = some val ∧
      ∀ clock, timeOut < clock k - val → (s.coordinator.timeOutCheck clock).status k = .pending) ∧
    ∀ (task : Task) (k : JobTask files nReduce), task.job = some k → .assigned k ∈ s.log →
      (s.coordinator.tasksDone task).isSome := by
  have hphased := phased_of_reached hs
  refine ⟨fun t hst k => done_step hst, fun t hst b => hphased.mapsDone_of_leaves hst,
    fun now => assignTask_exit_iff, endCheck_iff, fun hdone t hrun => ?_,
    fun now => phaseInProgress_of_wait, fun k hk => ?_, fun task k hjob _ => ?_⟩
  · refine endCheck_iff.mpr (run_preserves (I := fun t => t.coordinator.AllDone) ?_
      (endCheck_iff.mp hdone) hrun)
    exact fun _ _ hall hst k => done_step hst (hall k)
  · obtain ⟨val, hval⟩ := hphased.stamped k hk
    refine ⟨val, hval, fun clock hlate => ?_⟩
    rw [status_timeOutCheck, if_pos]
    exact ⟨by simpa [Coordinator.overdue, hval] using hlate, hk⟩
  · rw [tasksDone_eq hjob]
    rfl

/-- A job with two files and one reduce task. The second map task is given up and handed out
again, and its first worker reports it late. -/
def lateReport : List (Call [[97], [98]] 1) :=
  [.assignTask 0, .assignTask 0, .tasksDone ⟨.map, [97], 0, 1, 2⟩,
    .timeOutCheck fun _ => 11 * 10 ^ 9,
    .assignTask (12 * 10 ^ 9), .tasksDone ⟨.map, [98], 1, 1, 2⟩, .tasksDone ⟨.map, [98], 1, 1, 2⟩,
    .assignTask (13 * 10 ^ 9)]

theorem exists_of_exec_calls {test : Recorded files nReduce → Bool}
    (calls : List (Call files nReduce)) (h : (exec Recorded.next .initial calls).any test = true) :
    ∃ s, Recorded.Reached s ∧ test s = true :=
  exists_of_exec (fun _ call _ h => ⟨call, h⟩) h

theorem phase_invariant_late_report : ∃ s : Recorded [[97], [98]] 1, s.Reached ∧
    s.coordinator.status (.reduce 0) = .inProgress ∧
    (∃ val, s.coordinator.timeStamp (.reduce 0) = some val ∧
      ∀ clock, timeOut < clock (.reduce 0) - val →
      (s.coordinator.timeOutCheck clock).status (.reduce 0) = .pending) ∧
    (s.coordinator.assignTask 0).1.curType = .wait ∧ s.coordinator.PhaseInProgress := by
  obtain ⟨s, hs, htest⟩ : ∃ s : Recorded [[97], [98]] 1, s.Reached ∧
      decide (s.coordinator.status (.reduce 0) = .inProgress ∧
        (s.coordinator.assignTask 0).1.curType = .wait) = true :=
    exists_of_exec_calls lateReport (by decide +kernel)
  obtain ⟨hprogress, hwait⟩ := of_decide_eq_true htest
  obtain ⟨-, -, -, -, -, hphase, hstamp, -⟩ := phase_invariant hs
  exact ⟨s, hs, hprogress, hstamp _ hprogress, hwait, hphase 0 hwait⟩

end Runs

section Log

variable {files : List GoString} {nReduce : ℕ} {s t : Recorded files nReduce}
  {k : JobTask files nReduce} {log l : List (Entry files nReduce)} {i j : ℕ}

theorem getElem?_append_cases {x : Entry files nReduce} (h : (log ++ l)[i]? = some x) :
    log[i]? = some x ∨ log.length ≤ i ∧ x ∈ l := by
  rcases Nat.lt_or_ge i log.length with hi | hi
  · exact .inl (by rwa [List.getElem?_append_left hi] at h)
  · rw [List.getElem?_append_right hi] at h
    exact .inr ⟨hi, List.mem_of_getElem? h⟩

theorem getElem?_append_of_some {x : Entry files nReduce} (h : log[i]? = some x) :
    (log ++ l)[i]? = some x := by
  rw [List.getElem?_append_left (List.getElem?_eq_some_iff.mp h).1]
  exact h

structure Accounted (s : Recorded files nReduce) (k : JobTask files nReduce) : Prop where
  completed : .completed k ∈ s.log → s.coordinator.status k = .done
  -- a task that is pending has been given up since it was last handed out
  pending : s.coordinator.status k = .pending → ∀ i : ℕ, s.log[i]? = some (Entry.assigned k) →
    ∃ m : ℕ, i < m ∧ s.log[m]? = some (Entry.timedOut k)
  repeated : ∀ i j : ℕ, i < j → s.log[i]? = some (Entry.assigned k) →
    s.log[j]? = some (Entry.assigned k) →
    ∃ m : ℕ, i < m ∧ m < j ∧ s.log[m]? = some (Entry.timedOut k)
  finished : ∀ i j : ℕ, i < j → s.log[i]? = some (Entry.completed k) →
    s.log[j]? ≠ some (Entry.assigned k)
  count : s.log.count (.assigned k) ≤
    s.log.count (.timedOut k) + if s.coordinator.status k = .pending then 0 else 1

theorem accounted_initial : Accounted (.initial : Recorded files nReduce) k := by
  constructor <;> simp [Recorded.initial]

/-- Entries that do not hand the task out or report it. -/
theorem Accounted.append (h : Accounted s k) {c : Coordinator files nReduce}
    (hassigned : .assigned k ∉ l) (hcompleted : .completed k ∈ l → c.status k = .done)
    (hdone : s.coordinator.status k = .done → c.status k = .done)
    (hpending : c.status k = .pending → s.coordinator.status k = .pending ∨ .timedOut k ∈ l)
    (hcount : (if s.coordinator.status k = .pending then 0 else 1) ≤
      l.count (.timedOut k) + if c.status k = .pending then 0 else 1) :
    Accounted ⟨c, s.log ++ l⟩ k := by
  have hold {i : ℕ} (hi : (s.log ++ l)[i]? = some (Entry.assigned k)) :
      s.log[i]? = some (Entry.assigned k) :=
    (getElem?_append_cases hi).resolve_right fun hl => hassigned hl.2
  constructor
  · intro hmem
    rcases List.mem_append.mp hmem with hmem | hmem
    · exact hdone (h.completed hmem)
    · exact hcompleted hmem
  · intro hst i hi
    have hi := hold hi
    rcases hpending hst with hst | hmem
    · obtain ⟨m, hm, hout⟩ := h.pending hst i hi
      exact ⟨m, hm, getElem?_append_of_some hout⟩
    · obtain ⟨m, hm⟩ := List.mem_iff_getElem?.mp hmem
      have hlt := (List.getElem?_eq_some_iff.mp hi).1
      refine ⟨s.log.length + m, by omega, ?_⟩
      rw [List.getElem?_append_right (by omega), Nat.add_sub_cancel_left]
      exact hm
  · intro i j hij hi hj
    obtain ⟨m, him, hmj, hm⟩ := h.repeated i j hij (hold hi) (hold hj)
    exact ⟨m, him, hmj, getElem?_append_of_some hm⟩
  · intro i j hij hi hj
    have hj := hold hj
    have hlt := (List.getElem?_eq_some_iff.mp hj).1
    rw [List.getElem?_append_left (by omega)] at hi
    exact h.finished i j hij hi hj
  · have hzero : l.count (.assigned k) = 0 := List.count_eq_zero.mpr hassigned
    have hle := h.count
    simp only [List.count_append]
    omega

/-- The task is handed out. -/
theorem Accounted.handOut (h : Accounted s k) (hpending : s.coordinator.status k = .pending)
    (now : ℤ) : Accounted ⟨s.coordinator.handOut k now, s.log ++ [.assigned k]⟩ k := by
  have hincomplete : .completed k ∉ s.log :=
    fun hmem => nomatch hpending.symm.trans (h.completed hmem)
  have hstatus : (s.coordinator.handOut k now).status k = .inProgress := by
    rw [status_handOut, if_pos rfl]
  have hnew {i : ℕ} (hi : (s.log ++ [.assigned k])[i]? = some (Entry.assigned k)) :
      s.log[i]? = some (Entry.assigned k) ∨ i = s.log.length := by
    refine (getElem?_append_cases hi).imp_right fun hl => ?_
    have hlt := (List.getElem?_eq_some_iff.mp hi).1
    simp only [List.length_append, List.length_singleton] at hlt
    omega
  constructor
  · intro hmem
    simp [hincomplete] at hmem
  · intro hst
    exact nomatch hst.symm.trans hstatus
  · intro i j hij hi hj
    have hlt : i < s.log.length := by
      have := (List.getElem?_eq_some_iff.mp hj).1
      simp only [List.length_append, List.length_singleton] at this
      omega
    have hi : s.log[i]? = some (Entry.assigned k) := (hnew hi).resolve_right hlt.ne
    rcases hnew hj with hj | rfl
    · obtain ⟨m, him, hmj, hm⟩ := h.repeated i j hij hi hj
      exact ⟨m, him, hmj, getElem?_append_of_some hm⟩
    · obtain ⟨m, him, hm⟩ := h.pending hpending i hi
      exact ⟨m, him, (List.getElem?_eq_some_iff.mp hm).1, getElem?_append_of_some hm⟩
  · intro i j _ hi
    rcases getElem?_append_cases hi with hi | ⟨-, hmem⟩
    · exact (hincomplete (List.mem_of_getElem? hi)).elim
    · simp at hmem
  · have hle := h.count
    simp only [hpending, if_true] at hle
    simp only [List.count_append, hstatus]
    simp
    omega

theorem Accounted.step (h : Accounted s k) (hst : s.Step t) : Accounted t k := by
  have hdone := fun hk => done_step (k := k) hst hk
  cases hst.action with
  | handOut k' now hpending =>
    by_cases hk : k = k'
    · rw [← hk] at hpending ⊢
      exact h.handOut hpending now
    · have hstatus : (s.coordinator.handOut k' now).status k = s.coordinator.status k := by
        rw [status_handOut, if_neg hk]
      refine h.append (by simpa using hk) (by simp) hdone (fun hst => .inl (hstatus ▸ hst)) ?_
      rw [hstatus]
      simp
  | nothing => exact h
  | finish k' =>
    by_cases hk : k = k'
    · have hstatus : (s.coordinator.finish k').status k = .done := by rw [status_finish, if_pos hk]
      refine h.append (by simp) (fun _ => hstatus) hdone
        (fun hst => nomatch hst.symm.trans hstatus) ?_
      rw [hstatus, if_neg (nofun : TaskStatus.done ≠ .pending)]
      split_ifs <;> omega
    · have hstatus : (s.coordinator.finish k').status k = s.coordinator.status k := by
        rw [status_finish, if_neg hk]
      refine h.append (by simp) (fun hmem => (hk (by simpa using hmem)).elim) hdone
        (fun hst => .inl (hstatus ▸ hst)) ?_
      rw [hstatus]
      simp
  | scan clock =>
    have hentry {k : JobTask files nReduce} (hmem : k ∈ s.coordinator.returned clock) :
        Entry.timedOut k ∈ (s.coordinator.returned clock).map .timedOut :=
      List.mem_map_of_mem hmem
    rcases timeOutCheck_cases s.coordinator clock k with heq | hret
    · refine h.append (by simp) (by simp) hdone (fun hst => .inl (heq ▸ hst)) ?_
      rw [heq]
      omega
    · refine h.append (by simp) (by simp) hdone (fun _ => .inr (hentry hret)) ?_
      have hpos := List.count_pos_iff.mpr (hentry hret)
      split_ifs <;> omega

theorem accounted_of_reached (h : s.Reached) (k : JobTask files nReduce) : Accounted s k :=
  run_preserves (I := fun s => Accounted s k) (fun _ _ => Accounted.step) accounted_initial h

/-- A task is handed out again only after a scan has given it up, and never when it is done. -/
theorem assigned_once (hs : s.Reached) (k : JobTask files nReduce) :
    (∀ i j : ℕ, i < j → s.log[i]? = some (Entry.assigned k) → s.log[j]? = some (Entry.assigned k) →
      ∃ m : ℕ, i < m ∧ m < j ∧ s.log[m]? = some (Entry.timedOut k)) ∧
    (∀ i j : ℕ, i < j → s.log[i]? = some (Entry.completed k) →
      s.log[j]? ≠ some (Entry.assigned k)) ∧
    ((∀ k', .timedOut k' ∉ s.log) → s.log.count (.assigned k) ≤ 1 ∧
      (s.coordinator.done = true → s.log.count (.assigned k) = 1)) := by
  have h := accounted_of_reached hs k
  refine ⟨h.repeated, h.finished, fun hnone => ?_⟩
  have hle : s.log.count (.assigned k) ≤ 1 := by
    have hle := h.count
    rw [List.count_eq_zero.mpr (hnone k)] at hle
    split_ifs at hle <;> omega
  refine ⟨hle, fun hdone => ?_⟩
  have hk : s.coordinator.status k = .done := endCheck_iff.mp hdone k
  have hmem : .assigned k ∈ s.log := (phased_of_reached hs).known k (by rw [hk]; exact nofun)
  have hpos := List.count_pos_iff.mpr hmem
  omega

def promptReports : List (Call [[97], [98]] 1) :=
  [.assignTask 0, .assignTask 0, .tasksDone ⟨.map, [98], 1, 1, 2⟩, .timeOutCheck fun _ => 10 ^ 9,
    .tasksDone ⟨.map, [97], 0, 1, 2⟩, .assignTask 0, .tasksDone ⟨.reduce, [], 0, 1, 2⟩]

theorem assigned_once_late_report :
    (∃ s : Recorded [[97], [98]] 1, s.Reached ∧ s.log[1]? = some (.assigned (.map 1)) ∧
      s.log[4]? = some (.assigned (.map 1)) ∧
      ∃ m : ℕ, 1 < m ∧ m < 4 ∧ s.log[m]? = some (.timedOut (.map 1))) ∧
    ∃ s : Recorded [[97], [98]] 1, s.Reached ∧ s.coordinator.done = true ∧
      s.log.count (.assigned (.map 1)) = 1 := by
  constructor
  · obtain ⟨s, hs, htest⟩ : ∃ s : Recorded [[97], [98]] 1, s.Reached ∧
        decide (s.log[1]? = some (Entry.assigned (.map 1)) ∧
          s.log[4]? = some (Entry.assigned (.map 1))) = true :=
      exists_of_exec_calls lateReport (by decide +kernel)
    obtain ⟨hfirst, hsecond⟩ := of_decide_eq_true htest
    exact ⟨s, hs, hfirst, hsecond, (assigned_once hs (.map 1)).1 1 4 (by decide) hfirst hsecond⟩
  · obtain ⟨s, hs, htest⟩ : ∃ s : Recorded [[97], [98]] 1, s.Reached ∧
        (s.coordinator.done && s.log.all fun x => match x with
          | .timedOut _ => false
          | _ => true) = true := exists_of_exec_calls promptReports (by decide +kernel)
    obtain ⟨hdone, hall⟩ := Bool.and_eq_true_iff.mp htest
    have hnone (k : JobTask [[97], [98]] 1) : .timedOut k ∉ s.log := fun hmem =>
      nomatch List.all_eq_true.mp hall _ hmem
    exact ⟨s, hs, hdone, ((assigned_once hs (.map 1)).2.2 hnone).2 hdone⟩

end Log

end DistributedLabs.MapReduce
