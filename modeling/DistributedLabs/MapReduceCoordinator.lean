import DistributedLabs.TransitionRuns
import Mathlib.Algebra.Group.Int.Defs
import Mathlib.Data.List.FinRange
import Mathlib.Data.Fintype.Basic

/-!
# The coordinator of MapReduce

The coordinator hands out the map tasks and, when they are done, the reduce tasks. A task that
takes too long is handed out again. The files and the number of reduce tasks are fixed when the
coordinator is made. The clock is read anew for each task that a scan looks at.
-/

namespace DistributedLabs.MapReduce

/-- A string of the source, any sequence of bytes. -/
abbrev GoString := List UInt8

inductive TaskStatus where
  | pending
  | inProgress
  | done
  deriving DecidableEq, Repr

inductive TaskType where
  | map
  | reduce
  | wait
  | exit
  deriving DecidableEq, Repr

structure Task where
  curType : TaskType
  filename : GoString
  taskId : ℕ
  nreduce : ℕ
  nmap : ℕ
  deriving DecidableEq, Repr

/-- The tasks of one phase: their status, and when they were last handed out. -/
structure Tasks (n : ℕ) where
  status : Fin n → TaskStatus
  timeStamp : Fin n → Option ℤ

section Tasks

variable {n : ℕ}

def Tasks.initial : Tasks n := ⟨fun _ => .pending, fun _ => none⟩

def Tasks.contains (ts : Tasks n) (st : TaskStatus) : Bool := decide (∃ i, ts.status i = st)

def Tasks.firstPending (ts : Tasks n) : Option (Fin n) :=
  (List.finRange n).find? fun i => ts.status i = .pending

def Tasks.handOut (ts : Tasks n) (i : Fin n) (now : ℤ) : Tasks n :=
  ⟨Function.update ts.status i .inProgress, Function.update ts.timeStamp i (some now)⟩

def Tasks.finish (ts : Tasks n) (i : Fin n) : Tasks n :=
  { ts with status := Function.update ts.status i .done }

/-- Ten seconds, in nanoseconds. -/
def timeOut : ℤ := 10 * 10 ^ 9

def Tasks.overdue (ts : Tasks n) (clock : Fin n → ℤ) (i : Fin n) : Bool :=
  (ts.timeStamp i).any fun val => timeOut < clock i - val

def Tasks.scan (ts : Tasks n) (clock : Fin n → ℤ) : Tasks n :=
  { ts with status := fun i =>
      if ts.overdue clock i ∧ ts.status i = .inProgress then .pending else ts.status i }

theorem contains_iff {ts : Tasks n} {st : TaskStatus} :
    ts.contains st = true ↔ ∃ i, ts.status i = st := by
  simp [Tasks.contains]

theorem all_done_iff {ts : Tasks n} :
    (∀ i, ts.status i = .done) ↔ ts.contains .pending = false ∧
      ts.contains .inProgress = false := by
  simp only [Tasks.contains, decide_eq_false_iff_not, not_exists]
  constructor
  · intro h
    constructor
    · simp [h]
    · simp [h]
  · intro ⟨hpending, hprogress⟩ i
    cases hst : ts.status i with
    | pending => exact (hpending i hst).elim
    | inProgress => exact (hprogress i hst).elim
    | done => rfl

theorem firstPending_some {ts : Tasks n} {i : Fin n} (h : ts.firstPending = some i) :
    ts.status i = .pending := by
  simpa using List.find?_some h

theorem firstPending_none {ts : Tasks n} (h : ts.firstPending = none) (i : Fin n) :
    ts.status i ≠ .pending := by
  simpa using List.find?_eq_none.mp h i (List.mem_finRange i)

end Tasks

structure Coordinator (files : List GoString) (nReduce : ℕ) where
  mapTasks : Tasks files.length
  reduceTasks : Tasks nReduce

inductive JobTask (files : List GoString) (nReduce : ℕ) where
  | map (i : Fin files.length)
  | reduce (b : Fin nReduce)
  deriving DecidableEq

section Operations

variable {files : List GoString} {nReduce : ℕ}

def makeCoordinator (files : List GoString) (nReduce : ℕ) : Coordinator files nReduce :=
  ⟨.initial, .initial⟩

def Coordinator.waitCheck (c : Coordinator files nReduce) : Bool :=
  c.mapTasks.contains .inProgress && !c.mapTasks.contains .pending

def Coordinator.endCheck (c : Coordinator files nReduce) : Bool :=
  !c.mapTasks.contains .pending && !c.mapTasks.contains .inProgress &&
    !c.reduceTasks.contains .pending && !c.reduceTasks.contains .inProgress

def Coordinator.done (c : Coordinator files nReduce) : Bool := c.endCheck

def JobTask.task : JobTask files nReduce → Task
  | .map i => ⟨.map, files.get i, i, nReduce, files.length⟩
  | .reduce b => ⟨.reduce, [], b, nReduce, files.length⟩

def Task.wait : Task := ⟨.wait, [], 0, 0, 0⟩

def Task.exit : Task := ⟨.exit, [], 0, 0, 0⟩

/-- The reply of `AssignTask` at a time, with the state it leaves. -/
def Coordinator.assignTask (c : Coordinator files nReduce) (now : ℤ) :
    Task × Coordinator files nReduce :=
  match c.mapTasks.firstPending with
  | some ind =>
    ((JobTask.map ind : JobTask files nReduce).task,
      { c with mapTasks := c.mapTasks.handOut ind now })
  | none =>
    if c.waitCheck then (.wait, c)
    else
      match if !c.mapTasks.contains .pending && !c.mapTasks.contains .inProgress then
          c.reduceTasks.firstPending else none with
      | some ind =>
        ((JobTask.reduce ind : JobTask files nReduce).task,
          { c with reduceTasks := c.reduceTasks.handOut ind now })
      | none => if c.endCheck then (.exit, c) else (.wait, c)

/-- `TasksDone`; it panics on an index that is out of range. -/
def Coordinator.tasksDone (c : Coordinator files nReduce) (task : Task) :
    Option (Coordinator files nReduce) :=
  if task.curType = .map then
    if h : task.taskId < files.length then
      some { c with mapTasks := c.mapTasks.finish ⟨task.taskId, h⟩ }
    else none
  else if h : task.taskId < nReduce then
    some { c with reduceTasks := c.reduceTasks.finish ⟨task.taskId, h⟩ }
  else none

/-- One turn of the loop of `TimeOutCheck`. -/
def Coordinator.timeOutCheck (c : Coordinator files nReduce) (clock : JobTask files nReduce → ℤ) :
    Coordinator files nReduce :=
  ⟨c.mapTasks.scan fun i => clock (.map i), c.reduceTasks.scan fun b => clock (.reduce b)⟩

end Operations

section Status

variable {files : List GoString} {nReduce : ℕ} {c : Coordinator files nReduce}
  {k k' : JobTask files nReduce} {now : ℤ}

def Coordinator.status (c : Coordinator files nReduce) : JobTask files nReduce → TaskStatus
  | .map i => c.mapTasks.status i
  | .reduce b => c.reduceTasks.status b

def Coordinator.timeStamp (c : Coordinator files nReduce) : JobTask files nReduce → Option ℤ
  | .map i => c.mapTasks.timeStamp i
  | .reduce b => c.reduceTasks.timeStamp b

def Coordinator.handOut (c : Coordinator files nReduce) (k : JobTask files nReduce) (now : ℤ) :
    Coordinator files nReduce :=
  match k with
  | .map i => { c with mapTasks := c.mapTasks.handOut i now }
  | .reduce b => { c with reduceTasks := c.reduceTasks.handOut b now }

def Coordinator.finish (c : Coordinator files nReduce) (k : JobTask files nReduce) :
    Coordinator files nReduce :=
  match k with
  | .map i => { c with mapTasks := c.mapTasks.finish i }
  | .reduce b => { c with reduceTasks := c.reduceTasks.finish b }

def Task.job (task : Task) : Option (JobTask files nReduce) :=
  match task.curType with
  | .map => if h : task.taskId < files.length then some (.map ⟨task.taskId, h⟩) else none
  | .reduce => if h : task.taskId < nReduce then some (.reduce ⟨task.taskId, h⟩) else none
  | .wait => none
  | .exit => none

def Coordinator.MapsDone (c : Coordinator files nReduce) : Prop := ∀ i, c.status (.map i) = .done

def Coordinator.AllDone (c : Coordinator files nReduce) : Prop := ∀ k, c.status k = .done

@[simp] theorem job_task (k : JobTask files nReduce) : k.task.job = some k := by
  cases k <;> simp [JobTask.task, Task.job]

@[simp] theorem status_makeCoordinator : (makeCoordinator files nReduce).status k = .pending := by
  cases k <;> rfl

theorem status_handOut :
    (c.handOut k now).status k' = if k' = k then .inProgress else c.status k' := by
  cases k <;> cases k' <;>
    simp [Coordinator.handOut, Coordinator.status, Tasks.handOut, Function.update_apply]

theorem timeStamp_handOut :
    (c.handOut k now).timeStamp k' = if k' = k then some now else c.timeStamp k' := by
  cases k <;> cases k' <;>
    simp [Coordinator.handOut, Coordinator.timeStamp, Tasks.handOut, Function.update_apply]

theorem status_finish : (c.finish k).status k' = if k' = k then .done else c.status k' := by
  cases k <;> cases k' <;>
    simp [Coordinator.finish, Coordinator.status, Tasks.finish, Function.update_apply]

theorem timeStamp_finish : (c.finish k).timeStamp k' = c.timeStamp k' := by
  cases k <;> cases k' <;> rfl

/-- The task was handed out more than ten seconds before the clock was read. -/
def Coordinator.overdue (c : Coordinator files nReduce) (clock : JobTask files nReduce → ℤ)
    (k : JobTask files nReduce) : Bool :=
  (c.timeStamp k).any fun val => timeOut < clock k - val

theorem status_timeOutCheck {clock : JobTask files nReduce → ℤ} :
    (c.timeOutCheck clock).status k =
      if c.overdue clock k ∧ c.status k = .inProgress then .pending else c.status k := by
  cases k <;> rfl

theorem timeStamp_timeOutCheck {clock : JobTask files nReduce → ℤ} :
    (c.timeOutCheck clock).timeStamp k = c.timeStamp k := by
  cases k <;> rfl

theorem tasksDone_eq {task : Task} (h : task.job = some k) :
    c.tasksDone task = some (c.finish k) := by
  cases htype : task.curType <;> simp only [Task.job, htype, reduceCtorEq] at h
  · split_ifs at h with hlt
    obtain rfl := Option.some.inj h
    simp [Coordinator.tasksDone, htype, hlt, Coordinator.finish]
  · split_ifs at h with hlt
    obtain rfl := Option.some.inj h
    simp [Coordinator.tasksDone, htype, hlt, Coordinator.finish]

theorem mapsDone_iff :
    c.MapsDone ↔ c.mapTasks.contains .pending = false ∧ c.mapTasks.contains .inProgress = false :=
  all_done_iff

theorem allDone_iff : c.AllDone ↔ c.MapsDone ∧ ∀ b, c.status (.reduce b) = .done := by
  constructor
  · intro h
    exact ⟨fun i => h (.map i), fun b => h (.reduce b)⟩
  · intro ⟨hmap, hreduce⟩ k
    cases k with
    | map i => exact hmap i
    | reduce b => exact hreduce b

theorem endCheck_iff : c.endCheck = true ↔ c.AllDone := by
  have hreduce : (∀ b, c.status (.reduce b) = .done) ↔ c.reduceTasks.contains .pending = false ∧
    c.reduceTasks.contains .inProgress = false := all_done_iff
  rw [allDone_iff, mapsDone_iff, hreduce]
  simp [Coordinator.endCheck, and_assoc]

def Coordinator.PhaseInProgress (c : Coordinator files nReduce) : Prop :=
  (¬ c.MapsDone ∧ ∃ i, c.status (.map i) = .inProgress) ∨
    c.MapsDone ∧ ∃ b, c.status (.reduce b) = .inProgress

/-- What `AssignTask` can do. -/
theorem assignTask_cases (c : Coordinator files nReduce) (now : ℤ) :
    (∃ k, c.assignTask now = (k.task, c.handOut k now) ∧ c.status k = .pending ∧
      ((∃ b, k = .reduce b) → c.MapsDone)) ∨
    (c.assignTask now = (.wait, c) ∧ c.PhaseInProgress) ∨
    (c.assignTask now = (.exit, c) ∧ c.AllDone) := by
  rw [Coordinator.assignTask]
  cases hmap : c.mapTasks.firstPending with
  | some i => exact .inl ⟨.map i, rfl, firstPending_some hmap, nofun⟩
  | none =>
    have hnone : c.mapTasks.contains .pending = false := by
      simpa [Tasks.contains] using firstPending_none hmap
    by_cases hwait : c.waitCheck = true
    · obtain ⟨hprogress, -⟩ := Bool.and_eq_true_iff.mp hwait
      obtain ⟨i, hi⟩ := contains_iff.mp hprogress
      refine .inr (.inl ⟨by simp [hwait], .inl ⟨fun hdone => ?_, i, hi⟩⟩)
      exact nomatch hi.symm.trans (hdone i)
    · have hprogress : c.mapTasks.contains .inProgress = false := by
        simpa [Coordinator.waitCheck, hnone] using hwait
      have hdone : c.MapsDone := mapsDone_iff.mpr ⟨hnone, hprogress⟩
      simp only [hwait, hnone, hprogress, Bool.not_false, Bool.and_self, if_true,
        Bool.false_eq_true,
        if_false]
      cases hreduce : c.reduceTasks.firstPending with
      | some b => exact .inl ⟨.reduce b, rfl, firstPending_some hreduce, fun _ => hdone⟩
      | none =>
        by_cases hend : c.endCheck = true
        · exact .inr (.inr ⟨by simp [hend], endCheck_iff.mp hend⟩)
        · refine .inr (.inl ⟨by simp [hend], .inr ⟨hdone, ?_⟩⟩)
          by_contra hnot
          refine hend (endCheck_iff.mpr (allDone_iff.mpr ⟨hdone, fun b => ?_⟩))
          cases hst : c.status (.reduce b) with
          | pending => exact (firstPending_none hreduce b hst).elim
          | inProgress => exact (hnot ⟨b, hst⟩).elim
          | done => rfl

theorem not_allDone_of_phaseInProgress (h : c.PhaseInProgress) : ¬ c.AllDone := by
  intro hall
  rcases h with ⟨hmaps, -⟩ | ⟨-, b, hb⟩
  · exact hmaps (allDone_iff.mp hall).1
  · exact nomatch hb.symm.trans (hall (.reduce b))

theorem curType_task (k : JobTask files nReduce) :
    k.task.curType ≠ .wait ∧ k.task.curType ≠ .exit := by
  cases k <;> simp [JobTask.task]

theorem assignTask_exit_iff : (c.assignTask now).1.curType = .exit ↔ c.AllDone := by
  rcases assignTask_cases c now with ⟨k, heq, hpending, -⟩ | ⟨heq, hphase⟩ | ⟨heq, hall⟩
  · rw [heq]
    constructor
    · exact fun hexit => ((curType_task k).2 hexit).elim
    · exact fun hall => nomatch hpending.symm.trans (hall k)
  · rw [heq]
    constructor
    · exact nofun
    · exact fun hall => (not_allDone_of_phaseInProgress hphase hall).elim
  · rw [heq]
    exact ⟨fun _ => hall, fun _ => rfl⟩

theorem phaseInProgress_of_wait (h : (c.assignTask now).1.curType = .wait) : c.PhaseInProgress := by
  rcases assignTask_cases c now with ⟨k, heq, -⟩ | ⟨-, hphase⟩ | ⟨heq, -⟩
  · rw [heq] at h
    exact ((curType_task k).1 h).elim
  · exact hphase
  · rw [heq] at h
    cases h

end Status

end DistributedLabs.MapReduce
