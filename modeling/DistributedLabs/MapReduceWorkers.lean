import DistributedLabs.FileSystem
import DistributedLabs.MapReduceAssignments
import DistributedLabs.MapReduceNames
import DistributedLabs.MapReduceTasks

/-!
# MapReduce workers

The coordinator, any number of workers and the files that they share. `MapTask` and `ReduceTask`
are run one access to a file at a time, so that workers interleave, are slow or crash at any
point. Reports that a task is done are lost, or arrive late. What `os.CreateTemp` chooses as a
name is free and is not the name of an intermediate or an output file of the job.
-/

namespace DistributedLabs.MapReduce

open FileSystem Relation TransitionRuns

abbrev Files := FileSystem GoString UInt8

inductive MapState where
  | opening
  | reading (inode : ℕ)
  | creating (kvPairs : List KeyValue) (bucketArr : List (Temp GoString))
  | writing (kvPairs : List KeyValue) (bucketArr : List (Temp GoString))
  | publishing (ind : ℕ) (bucketArr : List (Temp GoString))
  deriving DecidableEq

inductive ReduceState where
  | opening (i : ℕ) (kvList : List KeyValue)
  | reading (i inode : ℕ) (kvList : List KeyValue)
  | creating (kvList : List KeyValue)
  | writing (ofil : Temp GoString) (calls : List (GoString × List GoString))
  | publishing (ofil : Temp GoString)
  deriving DecidableEq

/-- A task goes on, is finished, or ends the process with `log.Fatal`. -/
inductive Outcome (S : Type) where
  | running (st : S)
  | finished
  | fatal

/-- A new file; `none` if the name cannot be chosen. -/
def createTemp (task : Task) (fs : Files) (fresh : GoString) : Option (Files × Temp GoString) :=
  if fs.dir fresh = none ∧ ¬ Reserved task.nmap task.nreduce fresh then
    some (fs.create fresh, ⟨fresh, fs.next⟩)
  else none

/-- The next access of `MapTask` to a file; `fresh` is the name of a file that it creates. -/
def App.mapStep (app : App) (task : Task) (fs : Files) (fresh : GoString) :
    MapState → Option (Files × Outcome MapState)
  | .opening =>
    match fs.dir task.filename with
    | some inode => some (fs, .running (.reading inode))
    | none => some (fs, .fatal)
  | .reading inode =>
    some (fs, .running (.creating (app.mapf task.filename (fs.data inode)) []))
  | .creating kvPairs bucketArr =>
    if bucketArr.length < task.nreduce then
      (createTemp task fs fresh).map fun x =>
        (x.1, .running (.creating kvPairs (bucketArr ++ [x.2])))
    else some (fs, .running (.writing kvPairs bucketArr))
  | .writing [] bucketArr => some (fs, .running (.publishing 0 bucketArr))
  | .writing (pair :: rest) bucketArr =>
    match bucketArr[ihash pair.key % task.nreduce]? with
    | some fp =>
        some (fs.append fp.inode (app.codec.encode pair), .running (.writing rest bucketArr))
    | none => some (fs, .fatal)
  | .publishing _ [] => some (fs, .finished)
  | .publishing ind (fp :: rest) =>
    if (fs.dir fp.name).isSome then
      some (fs.rename fp.name (mrName task.taskId ind), .running (.publishing (ind + 1) rest))
    else some (fs, .fatal)

/-- The next access of `ReduceTask` to a file. -/
def App.reduceStep (app : App) (task : Task) (fs : Files) (fresh : GoString) :
    ReduceState → Option (Files × Outcome ReduceState)
  | .opening i kvList =>
    if i < task.nmap then
      match fs.dir (mrName i task.taskId) with
      | some inode => some (fs, .running (.reading i inode kvList))
      | none => some (fs, .fatal)
    else some (fs, .running (.creating kvList))
  | .reading i inode kvList =>
    some (fs, .running (.opening (i + 1) (kvList ++ app.codec.decodeAll (fs.data inode))))
  | .creating kvList =>
    (createTemp task fs fresh).map fun x =>
      (x.1, .running (.writing x.2 (reduceCalls (app.sorter.sort kvList) 0)))
  | .writing ofil [] => some (fs, .running (.publishing ofil))
  | .writing ofil (call :: rest) =>
    some (fs.append ofil.inode (app.line call), .running (.writing ofil rest))
  | .publishing ofil => some (fs.rename ofil.name (outName task.taskId), .finished)

/-- A worker waits for a task, works on one, is about to report it, or has stopped. -/
inductive Worker (files : List GoString) (nReduce : ℕ) where
  | idle
  | mapping (i : Fin files.length) (st : MapState)
  | reducing (b : Fin nReduce) (st : ReduceState)
  | reporting (k : JobTask files nReduce)
  | stopped

/-- The processes and files of a job; `reports` are the calls of `TasksDone` that were made. -/
structure System (files : List GoString) (nReduce : ℕ) where
  coordinator : Coordinator files nReduce
  fs : Files
  workers : ℕ → Worker files nReduce
  reports : List (JobTask files nReduce)

inductive System.Event (files : List GoString) (nReduce : ℕ) where
  | assignTask (w : ℕ) (now : ℤ)
  | work (w : ℕ) (fresh : GoString)
  | crash (w : ℕ)
  | tasksDone (i : ℕ)
  | timeOutCheck (clock : JobTask files nReduce → ℤ)

section System

variable {files : List GoString} {nReduce : ℕ}

/-- What a worker does with a reply of `AssignTask`. -/
def Worker.start (task : Task) : Worker files nReduce :=
  match task.job with
  | some (.map i) => .mapping i .opening
  | some (.reduce b) => .reducing b (.opening 0 [])
  | none => if task.curType = .exit then .stopped else .idle

def Worker.mapped (i : Fin files.length) : Outcome MapState → Worker files nReduce
  | .running st => .mapping i st
  | .finished => .reporting (.map i)
  | .fatal => .stopped

def Worker.reduced (b : Fin nReduce) : Outcome ReduceState → Worker files nReduce
  | .running st => .reducing b st
  | .finished => .reporting (.reduce b)
  | .fatal => .stopped

def System.setWorker (s : System files nReduce) (w : ℕ) (x : Worker files nReduce) :
    System files nReduce :=
  { s with workers := Function.update s.workers w x }

def System.work (app : App) (s : System files nReduce) (w : ℕ) (fresh : GoString) :
    Option (System files nReduce) :=
  match s.workers w with
  | .mapping i st =>
    (app.mapStep (JobTask.map i : JobTask files nReduce).task s.fs fresh st).map fun x =>
      { s with fs := x.1 }.setWorker w (.mapped i x.2)
  | .reducing b st =>
    (app.reduceStep (JobTask.reduce b : JobTask files nReduce).task s.fs fresh st).map fun x =>
      { s with fs := x.1 }.setWorker w (.reduced b x.2)
  | .reporting k => some ({ s with reports := s.reports ++ [k] }.setWorker w .idle)
  | .idle => none
  | .stopped => none

/-- A report may be handled at any time and any number of times. -/
def System.next (app : App) (s : System files nReduce) :
    System.Event files nReduce → Option (System files nReduce)
  | .assignTask w now =>
    match s.workers w with
    | .idle =>
      let (task, c) := s.coordinator.assignTask now
      some ({ s with coordinator := c }.setWorker w (.start task))
    | _ => none
  | .work w fresh => s.work app w fresh
  | .crash w => some (s.setWorker w .stopped)
  | .tasksDone i =>
    s.reports[i]?.bind fun k => (s.coordinator.tasksDone k.task).map fun c =>
      { s with coordinator := c }
  | .timeOutCheck clock => some { s with coordinator := s.coordinator.timeOutCheck clock }

def System.Step (app : App) (s t : System files nReduce) : Prop := ∃ e, s.next app e = some t

end System

/-- Files in which all inputs of a job can be found. -/
structure Disk (files : List GoString) where
  fs : Files
  inodes : ∀ {name n}, fs.dir name = some n → n < fs.next
  present : ∀ f ∈ files, (fs.dir f).isSome

section Job

variable {files : List GoString} {nReduce : ℕ}

def Disk.inputs (disk : Disk files) : List (GoString × GoString) :=
  files.map fun f => (f, (disk.fs.content f).getD [])

def System.initial (disk : Disk files) : System files nReduce :=
  ⟨makeCoordinator files nReduce, disk.fs, fun _ => .idle, []⟩

def System.Reached (app : App) (disk : Disk files) (s : System files nReduce) : Prop :=
  ReflTransGen (System.Step app) (.initial disk) s

/-- The content of a complete file `mr-i-b`. -/
def Disk.complete (app : App) (disk : Disk files) (nReduce i b : ℕ) : GoString :=
  (app.bucket disk.inputs nReduce b).getD i []

def Disk.reduction (app : App) (disk : Disk files) (nReduce b : ℕ) : GoString :=
  (app.reduceTask (app.bucket disk.inputs nReduce b)).flatMap app.line

end Job

end DistributedLabs.MapReduce
