import DistributedLabs.MapReduceWorkers

/-!
# What MapReduce workers write

A worker that has read its input writes a complete file and only then gives it the name under
which others look for it. What it knows of its own files and of the files that it has opened is
not disturbed by the other workers.
-/

namespace DistributedLabs.MapReduce

open FileSystem

section Contents

variable {files : List GoString}

def Disk.input (disk : Disk files) (i : Fin files.length) : GoString :=
  (disk.fs.content (files.get i)).getD []

variable {app : App} {disk : Disk files} {nReduce b : ℕ}

theorem getElem?_bucket (i : Fin files.length) :
    (app.bucket disk.inputs nReduce b)[(i : ℕ)]? = some (disk.complete app nReduce i b) := by
  have hlt : (i : ℕ) < (app.bucket disk.inputs nReduce b).length := by
    simp [App.bucket, Disk.inputs]
  rw [Disk.complete, List.getD_eq_getElem?_getD, List.getElem?_eq_getElem hlt]
  rfl

theorem complete_eq (hb : b < nReduce) (i : Fin files.length) :
    disk.complete app nReduce i b =
      (ofBucket nReduce b (app.mapf (files.get i) (disk.input i))).flatMap app.codec.encode := by
  have hget : (app.bucket disk.inputs nReduce b)[(i : ℕ)]? =
      some ((app.mapTask nReduce (files.get i) (disk.input i)).getD b []) := by
    simp [App.bucket, Disk.inputs, Disk.input]
  rw [← mapTask_getD hb]
  exact Option.some.inj ((getElem?_bucket i).symm.trans hget)

theorem length_bucket : (app.bucket disk.inputs nReduce b).length = files.length := by
  simp [App.bucket, Disk.inputs]

/-- One more file of a bucket. -/
theorem take_bucket (i : Fin files.length) :
    (app.bucket disk.inputs nReduce b).take (i + 1) =
      (app.bucket disk.inputs nReduce b).take i ++ [disk.complete app nReduce i b] := by
  rw [List.take_add_one, getElem?_bucket]
  rfl

/-- The content that a file of the job has to have under a name. -/
inductive Right (app : App) (disk : Disk files) (nReduce : ℕ) (name c : GoString) : Prop
  | input (i : Fin files.length) :
      name = files.get i → c = disk.input i → Right app disk nReduce name c
  | intermediate (i : Fin files.length) (b : Fin nReduce) : name = mrName i b →
    c = disk.complete app nReduce i b → Right app disk nReduce name c
  | output (b : Fin nReduce) : name = outName b → c = disk.reduction app nReduce b →
    Right app disk nReduce name c

theorem reserved_mrName (i : Fin files.length) (b : Fin nReduce) :
    Reserved files.length nReduce (mrName i b) :=
  ⟨b, b.isLt, .inr ⟨i, i.isLt, rfl⟩⟩

theorem reserved_outName (b : Fin nReduce) : Reserved files.length nReduce (outName b) :=
  ⟨b, b.isLt, .inl rfl⟩

/-- The content is determined by the name, unless an input is named like another file of the
job. -/
theorem Right.unique {name c c' : GoString} (h : Right app disk nReduce name c)
    (hnames : ∀ f ∈ files, ¬ Reserved files.length nReduce f)
    (h' : Right app disk nReduce name c') :
    c = c' := by
  have hinput (i : Fin files.length) : ¬ Reserved files.length nReduce (files.get i) :=
    hnames _ (List.get_mem files i)
  rcases h with ⟨i, rfl, rfl⟩ | ⟨i, b, rfl, rfl⟩ | ⟨b, rfl, rfl⟩
  · rcases h' with ⟨j, hname, rfl⟩ | ⟨j, b, hname, -⟩ | ⟨b, hname, -⟩
    · rw [Disk.input, Disk.input, hname]
    · exact (hinput i (hname ▸ reserved_mrName j b)).elim
    · exact (hinput i (hname ▸ reserved_outName b)).elim
  · rcases h' with ⟨j, hname, -⟩ | ⟨j, b', hname, rfl⟩ | ⟨b', hname, -⟩
    · exact (hinput j (hname ▸ reserved_mrName i b)).elim
    · obtain ⟨hi, hb⟩ := mrName_inj hname
      rw [hi, hb]
    · exact (mrName_ne_outName _ _ _ hname).elim
  · rcases h' with ⟨j, hname, -⟩ | ⟨j, b', hname, -⟩ | ⟨b', hname, rfl⟩
    · exact (hinput j (hname ▸ reserved_outName b)).elim
    · exact (mrName_ne_outName _ _ _ hname.symm).elim
    · rw [outName_inj hname]

end Contents

def MapState.temps : MapState → List (Temp GoString)
  | .opening => []
  | .reading _ => []
  | .creating _ bucketArr => bucketArr
  | .writing _ bucketArr => bucketArr
  | .publishing _ bucketArr => bucketArr

def ReduceState.temps : ReduceState → List (Temp GoString)
  | .opening _ _ => []
  | .reading _ _ _ => []
  | .creating _ => []
  | .writing ofil _ => [ofil]
  | .publishing ofil => [ofil]

def Worker.temps {files : List GoString} {nReduce : ℕ} : Worker files nReduce → List (Temp GoString)
  | .mapping _ st => st.temps
  | .reducing _ st => st.temps
  | .idle => []
  | .reporting _ => []
  | .stopped => []

section Assertions

variable {files : List GoString} (app : App) (disk : Disk files) {nReduce : ℕ} (fs : Files)
  (temps : ℕ → List (Temp GoString))

def Published : JobTask files nReduce → Prop
  | .map i => ∀ b : Fin nReduce, fs.content (mrName i b) = some (disk.complete app nReduce i b)
  | .reduce b => fs.content (outName b) = some (disk.reduction app nReduce b)

/-- What a worker in `MapTask` has read and written. -/
def MapState.Sound (nReduce : ℕ) (i : Fin files.length) : MapState → Prop
  | .opening => True
  | .reading inode => Readable fs temps inode (disk.input i)
  | .creating kvPairs bucketArr =>
    kvPairs = app.mapf (files.get i) (disk.input i) ∧ bucketArr.length ≤ nReduce ∧
      ∀ fp ∈ bucketArr, fs.data fp.inode = []
  | .writing kvPairs bucketArr =>
    bucketArr.length = nReduce ∧
      ∃ written, app.mapf (files.get i) (disk.input i) = written ++ kvPairs ∧
        ∀ b fp, bucketArr[b]? = some fp →
          fs.data fp.inode = (ofBucket nReduce b written).flatMap app.codec.encode
  | .publishing ind bucketArr =>
    ind + bucketArr.length = nReduce ∧
      (∀ j fp, bucketArr[j]? = some fp → fs.data fp.inode = disk.complete app nReduce i (ind + j)) ∧
      ∀ b : Fin nReduce, b < ind → fs.content (mrName i b) = some (disk.complete app nReduce i b)

/-- What a worker in `ReduceTask` has read and written. -/
def ReduceState.Sound (b : Fin nReduce) : ReduceState → Prop
  | .opening i kvList =>
    kvList = ((app.bucket disk.inputs nReduce b).take i).flatMap app.codec.decodeAll
  | .reading i inode kvList =>
    i < files.length ∧ Readable fs temps inode (disk.complete app nReduce i b) ∧
      kvList = ((app.bucket disk.inputs nReduce b).take i).flatMap app.codec.decodeAll
  | .creating kvList => kvList = (app.bucket disk.inputs nReduce b).flatMap app.codec.decodeAll
  | .writing ofil calls =>
    ∃ written, app.reduceTask (app.bucket disk.inputs nReduce b) = written ++ calls ∧
      fs.data ofil.inode = written.flatMap app.line
  | .publishing ofil => fs.data ofil.inode = disk.reduction app nReduce b

def Worker.Sound : Worker files nReduce → Prop
  | .mapping i st => st.Sound app disk fs temps nReduce i
  | .reducing b st => st.Sound app disk fs temps b
  | .reporting k => Published app disk fs k
  | .idle => True
  | .stopped => True

end Assertions

section Interference

variable {files : List GoString} {app : App} {disk : Disk files} {nReduce : ℕ} {fs fs' : Files}
  {temps temps' : ℕ → List (Temp GoString)} {x : Worker files nReduce} {k : JobTask files nReduce}

theorem Published.mono
    (hholds : ∀ {name c}, Right app disk nReduce name c → fs.content name = some c →
      fs'.content name = some c) (h : Published app disk fs k) : Published app disk fs' k := by
  cases k with
  | map i => exact fun b => hholds (.intermediate i b rfl rfl) (h b)
  | reduce b => exact hholds (.output b rfl rfl) h

/-- What another worker does leaves the assertion of a worker true. -/
theorem Worker.Sound.frame (h : x.Sound app disk fs temps)
    (hf : Frame (Right app disk nReduce) fs temps x.temps fs' temps') :
    x.Sound app disk fs' temps' := by
  cases x with
  | idle => trivial
  | stopped => trivial
  | reporting k => exact Published.mono hf.holds h
  | mapping i st =>
    cases st with
    | opening => trivial
    | reading inode => exact hf.readable h
    | creating kvPairs bucketArr =>
      obtain ⟨hkvs, hlen, hempty⟩ := h
      exact ⟨hkvs, hlen, fun fp hfp => (hf.own fp hfp).trans (hempty fp hfp)⟩
    | writing kvPairs bucketArr =>
      obtain ⟨hlen, written, hkvs, hdata⟩ := h
      refine ⟨hlen, written, hkvs, fun b fp hfp => ?_⟩
      exact (hf.own fp (List.mem_of_getElem? hfp)).trans (hdata b fp hfp)
    | publishing ind bucketArr =>
      obtain ⟨hlen, hdata, hpub⟩ := h
      refine ⟨hlen, fun j fp hfp => ?_,
        fun b hb => hf.holds (.intermediate i b rfl rfl) (hpub b hb)⟩
      exact (hf.own fp (List.mem_of_getElem? hfp)).trans (hdata j fp hfp)
  | reducing b st =>
    cases st with
    | opening i kvList => exact h
    | reading i inode kvList => exact ⟨h.1, hf.readable h.2.1, h.2.2⟩
    | creating kvList => exact h
    | writing ofil calls =>
      obtain ⟨written, hcalls, hdata⟩ := h
      exact ⟨written, hcalls, (hf.own ofil (List.mem_singleton_self ofil)).trans hdata⟩
    | publishing ofil => exact (hf.own ofil (List.mem_singleton_self ofil)).trans h

end Interference

section Steps

variable {files : List GoString} {app : App} {disk : Disk files} {nReduce w : ℕ} {fs fs' : Files}
  {temps : ℕ → List (Temp GoString)} {fresh : GoString} {i : Fin files.length} {b : Fin nReduce}

structure Shared (app : App) (disk : Disk files) (nReduce : ℕ) (fs : Files)
    (temps : ℕ → List (Temp GoString)) : Prop where
  names : ∀ f ∈ files, ¬ Reserved files.length nReduce f
  hidden : Private (Right app disk nReduce) fs temps
  inputs : ∀ i : Fin files.length, fs.content (files.get i) = some (disk.input i)

/-- What a worker does to the files, with what it then knows. -/
structure Turn (app : App) (disk : Disk files) (fs : Files) (temps : ℕ → List (Temp GoString))
    (w : ℕ) (fs' : Files) (x : Worker files nReduce) : Prop where
  act : Act (Right app disk nReduce) fs (temps w) fs' x.temps
  sound : x.Sound app disk fs' (Function.update temps w x.temps)

theorem Turn.of_act {own : List (Temp GoString)} {x : Worker files nReduce} (htemps : temps w = own)
    (hact : Act (Right app disk nReduce) fs own fs' x.temps)
    (hsound : x.Sound app disk fs' (Function.update temps w x.temps)) :
    Turn app disk fs temps w fs' x :=
  ⟨htemps ▸ hact, hsound⟩

theorem Turn.fatal : Turn app disk fs temps w fs (.stopped : Worker files nReduce) :=
  ⟨.keep (List.nil_sublist _), trivial⟩

/-- A new file is not one that others look for. -/
theorem createTemp_spec (hs : Shared app disk nReduce fs temps) {task : Task}
    {x : Files × Temp GoString} (hmap : task.nmap = files.length) (hreduce : task.nreduce = nReduce)
    (h : createTemp task fs fresh = some x) :
    fs.dir fresh = none ∧ (∀ c, ¬ Right app disk nReduce fresh c) ∧
      x = (fs.create fresh, ⟨fresh, fs.next⟩) := by
  rw [createTemp, hmap, hreduce] at h
  split_ifs at h with hfresh
  obtain ⟨hfree, hname⟩ := hfresh
  refine ⟨hfree, fun c hright => ?_, (Option.some.inj h).symm⟩
  rcases hright with ⟨i, rfl, -⟩ | ⟨i, b, rfl, -⟩ | ⟨b, rfl, -⟩
  · have hin := hs.inputs i
    rw [content, hfree] at hin
    cases hin
  · exact hname (reserved_mrName i b)
  · exact hname (reserved_outName b)

theorem mapStep_opening (hs : Shared app disk nReduce fs temps) {out : Outcome MapState}
    (h : app.mapStep (JobTask.map i : JobTask files nReduce).task fs fresh .opening =
      some (fs', out)) :
    Turn app disk fs temps w fs' (.mapped i out : Worker files nReduce) := by
  obtain ⟨n, hdir, hread⟩ := hs.hidden.readable (.input i rfl rfl) (hs.inputs i)
  have htask : (JobTask.map i : JobTask files nReduce).task.filename = files.get i := rfl
  simp only [App.mapStep, htask, hdir, Option.some.injEq, Prod.mk.injEq] at h
  obtain ⟨rfl, rfl⟩ := h
  have hact : Act (Right app disk nReduce) fs (temps w) fs [] := .keep (List.nil_sublist _)
  exact ⟨hact, hact.readable hread⟩

theorem mapStep_reading {inode : ℕ} (hread : Readable fs temps inode (disk.input i))
    {out : Outcome MapState}
    (h : app.mapStep (JobTask.map i : JobTask files nReduce).task fs fresh (.reading inode) =
      some (fs', out)) :
    Turn app disk fs temps w fs' (.mapped i out : Worker files nReduce) := by
  simp only [App.mapStep, hread.2, Option.some.injEq, Prod.mk.injEq] at h
  obtain ⟨rfl, rfl⟩ := h
  exact ⟨.keep (List.nil_sublist _), rfl, Nat.zero_le _, nofun⟩

theorem mapStep_creating (hs : Shared app disk nReduce fs temps) {kvPairs : List KeyValue}
    {bucketArr : List (Temp GoString)} (htemps : temps w = bucketArr)
    (hsound : (MapState.creating kvPairs bucketArr).Sound app disk fs temps nReduce i)
    {out : Outcome MapState}
    (h : app.mapStep (JobTask.map i : JobTask files nReduce).task fs fresh
      (.creating kvPairs bucketArr) = some (fs', out)) :
    Turn app disk fs temps w fs' (.mapped i out : Worker files nReduce) := by
  obtain ⟨hkvs, hle, hempty⟩ := hsound
  have htask : (JobTask.map i : JobTask files nReduce).task.nreduce = nReduce := rfl
  simp only [App.mapStep, htask] at h
  split_ifs at h with hlt
  · obtain ⟨x, hx, heq⟩ := Option.map_eq_some_iff.mp h
    obtain ⟨hfree, hsecret, rfl⟩ := createTemp_spec hs rfl rfl hx
    obtain ⟨rfl, rfl⟩ := Prod.mk.inj heq
    refine .of_act htemps (.create hfree hsecret) ⟨hkvs, by rw [List.length_append]; exact hlt,
      fun fp hfp => ?_⟩
    rw [data_create]
    rcases List.mem_append.mp hfp with hfp | hfp
    · rw [if_neg]
      · exact hempty fp hfp
      · exact Nat.ne_of_lt (hs.hidden.inodes (hs.hidden.linked (htemps ▸ hfp)))
    · rw [List.mem_singleton.mp hfp, if_pos rfl]
  · simp only [Option.some.injEq, Prod.mk.injEq] at h
    obtain ⟨rfl, rfl⟩ := h
    refine .of_act htemps (.keep (.refl _))
      ⟨Nat.le_antisymm hle (Nat.le_of_not_lt hlt), [], hkvs.symm,
      fun b fp hfp => ?_⟩
    exact hempty fp (List.mem_of_getElem? hfp)

theorem mapStep_writing (hs : Shared app disk nReduce fs temps) {kvPairs : List KeyValue}
    {bucketArr : List (Temp GoString)} (htemps : temps w = bucketArr)
    (hsound : (MapState.writing kvPairs bucketArr).Sound app disk fs temps nReduce i)
    {out : Outcome MapState}
    (h : app.mapStep (JobTask.map i : JobTask files nReduce).task fs fresh
      (.writing kvPairs bucketArr) = some (fs', out)) :
    Turn app disk fs temps w fs' (.mapped i out : Worker files nReduce) := by
  obtain ⟨hlen, written, hkvs, hdata⟩ := hsound
  have htask : (JobTask.map i : JobTask files nReduce).task.nreduce = nReduce := rfl
  cases kvPairs with
  | nil =>
    simp only [App.mapStep, Option.some.injEq, Prod.mk.injEq] at h
    obtain ⟨rfl, rfl⟩ := h
    refine .of_act htemps (.keep (.refl _)) ⟨by rw [Nat.zero_add, hlen], fun b fp hfp => ?_, nofun⟩
    have hb : b < nReduce := hlen ▸ (List.getElem?_eq_some_iff.mp hfp).1
    rw [Nat.zero_add, hdata b fp hfp, complete_eq hb, hkvs, List.append_nil]
  | cons pair rest =>
    simp only [App.mapStep, htask] at h
    cases hfp : bucketArr[ihash pair.key % nReduce]? with
    | none =>
      simp only [hfp, Option.some.injEq, Prod.mk.injEq] at h
      obtain ⟨rfl, rfl⟩ := h
      exact .fatal
    | some fp =>
      simp only [hfp, Option.some.injEq, Prod.mk.injEq] at h
      obtain ⟨rfl, rfl⟩ := h
      refine .of_act htemps (.append _ (List.mem_of_getElem? hfp))
        ⟨hlen, written ++ [pair], by rw [hkvs, List.append_assoc]; rfl, fun b fp' hfp' => ?_⟩
      rw [data_append]
      split_ifs with hinode
      · have hb : b = ihash pair.key % nReduce :=
          hs.hidden.index_eq (w := w) (htemps ▸ hfp') (htemps ▸ hfp) hinode
        rw [hdata _ fp hfp, hb]
        simp [ofBucket]
      · have hb : ihash pair.key % nReduce ≠ b := by
          rintro rfl
          rw [hfp] at hfp'
          exact hinode (Option.some.inj hfp' ▸ rfl)
        rw [hdata b fp' hfp']
        simp [ofBucket, hb]

theorem mapStep_publishing (hs : Shared app disk nReduce fs temps) {ind : ℕ}
    {bucketArr : List (Temp GoString)} (htemps : temps w = bucketArr)
    (hsound : (MapState.publishing ind bucketArr).Sound app disk fs temps nReduce i)
    {out : Outcome MapState}
    (h : app.mapStep (JobTask.map i : JobTask files nReduce).task fs fresh
      (.publishing ind bucketArr) = some (fs', out)) :
    Turn app disk fs temps w fs' (.mapped i out : Worker files nReduce) := by
  obtain ⟨hlen, hdata, hpub⟩ := hsound
  cases bucketArr with
  | nil =>
    simp only [App.mapStep, Option.some.injEq, Prod.mk.injEq] at h
    obtain ⟨rfl, rfl⟩ := h
    refine ⟨.keep (List.nil_sublist _), fun b => hpub b ?_⟩
    rw [← Nat.add_zero ind, ← List.length_nil, hlen]
    exact b.isLt
  | cons fp rest =>
    have hfp : fp ∈ temps w := htemps ▸ List.mem_cons_self
    have hlt : ind < nReduce := by
      rw [List.length_cons] at hlen
      omega
    simp only [App.mapStep, hs.hidden.linked hfp, Option.isSome_some, if_true, Option.some.injEq,
      Prod.mk.injEq] at h
    obtain ⟨rfl, rfl⟩ := h
    have hcomplete : fs.data fp.inode = disk.complete app nReduce i ind := hdata 0 fp rfl
    have hright : Right app disk nReduce (mrName i ind) (fs.data fp.inode) :=
      .intermediate i ⟨ind, hlt⟩ rfl hcomplete
    have hact : Act (Right app disk nReduce) fs (temps w) (fs.rename fp.name (mrName i ind)) rest :=
      .publish htemps hright
    refine ⟨hact, ?_, fun j fp' hfp' => ?_, fun b hb => ?_⟩
    · rw [List.length_cons] at hlen
      omega
    · have hnext := hdata (j + 1) fp' hfp'
      rw [data_rename, hnext, Nat.add_right_comm, Nat.add_assoc]
    · rcases Nat.lt_succ_iff_lt_or_eq.mp hb with hb | hb
      · exact hact.holds hs.hidden (fun h h' => h.unique hs.names h') (.intermediate i b rfl rfl)
          (hpub b hb)
      · rw [hb, ← hcomplete]
        exact hs.hidden.content_rename hfp _

/-- Every step of `MapTask`. -/
theorem mapStep_turn (hs : Shared app disk nReduce fs temps) {st : MapState}
    (htemps : temps w = st.temps)
    (hsound : st.Sound app disk fs temps nReduce i) {out : Outcome MapState}
    (h : app.mapStep (JobTask.map i : JobTask files nReduce).task fs fresh st = some (fs', out)) :
    Turn app disk fs temps w fs' (.mapped i out : Worker files nReduce) := by
  cases st with
  | opening => exact mapStep_opening hs h
  | reading inode => exact mapStep_reading hsound h
  | creating kvPairs bucketArr => exact mapStep_creating hs htemps hsound h
  | writing kvPairs bucketArr => exact mapStep_writing hs htemps hsound h
  | publishing ind bucketArr => exact mapStep_publishing hs htemps hsound h

theorem reduceStep_opening (hs : Shared app disk nReduce fs temps)
    (hmaps : ∀ i : Fin files.length, Published app disk fs (.map i : JobTask files nReduce)) {i : ℕ}
    {kvList : List KeyValue}
    (hsound : (ReduceState.opening i kvList).Sound app disk fs temps b) {out : Outcome ReduceState}
    (h : app.reduceStep (JobTask.reduce b : JobTask files nReduce).task fs fresh
      (.opening i kvList) =
      some (fs', out)) :
    Turn app disk fs temps w fs' (.reduced b out : Worker files nReduce) := by
  have htask : (JobTask.reduce b : JobTask files nReduce).task.nmap = files.length := rfl
  have hid : (JobTask.reduce b : JobTask files nReduce).task.taskId = b := rfl
  have hact : Act (Right app disk nReduce) fs (temps w) fs [] := .keep (List.nil_sublist _)
  simp only [App.reduceStep, htask, hid] at h
  split_ifs at h with hlt
  · obtain ⟨n, hdir, hread⟩ :=
      hs.hidden.readable (.intermediate ⟨i, hlt⟩ b rfl rfl) (hmaps ⟨i, hlt⟩ b)
    simp only [hdir, Option.some.injEq, Prod.mk.injEq] at h
    obtain ⟨rfl, rfl⟩ := h
    exact ⟨hact, hlt, hact.readable hread, hsound⟩
  · simp only [Option.some.injEq, Prod.mk.injEq] at h
    obtain ⟨rfl, rfl⟩ := h
    refine ⟨hact, ?_⟩
    have hall : (app.bucket disk.inputs nReduce b).take i = app.bucket disk.inputs nReduce b :=
      List.take_of_length_le (length_bucket.trans_le (Nat.le_of_not_lt hlt))
    rw [ReduceState.Sound, hall] at hsound
    exact hsound

/-- Every step of `ReduceTask`. The map tasks are done, so that the files it opens are there. -/
theorem reduceStep_turn (hs : Shared app disk nReduce fs temps)
    (hmaps : ∀ i : Fin files.length, Published app disk fs (.map i : JobTask files nReduce))
    {st : ReduceState} (htemps : temps w = st.temps) (hsound : st.Sound app disk fs temps b)
    {out : Outcome ReduceState}
    (h : app.reduceStep (JobTask.reduce b : JobTask files nReduce).task fs fresh st =
      some (fs', out)) :
    Turn app disk fs temps w fs' (.reduced b out : Worker files nReduce) := by
  cases st with
  | opening i kvList => exact reduceStep_opening hs hmaps hsound h
  | reading i inode kvList =>
    obtain ⟨hlt, hread, hkvs⟩ := hsound
    simp only [App.reduceStep, hread.2, Option.some.injEq, Prod.mk.injEq] at h
    obtain ⟨rfl, rfl⟩ := h
    have hnext : kvList ++ app.codec.decodeAll (disk.complete app nReduce i b) =
        ((app.bucket disk.inputs nReduce b).take (i + 1)).flatMap app.codec.decodeAll := by
      rw [take_bucket ⟨i, hlt⟩, List.flatMap_append, hkvs]
      simp
    exact ⟨.keep (List.nil_sublist _), hnext⟩
  | creating kvList =>
    obtain ⟨x, hx, heq⟩ := Option.map_eq_some_iff.mp h
    obtain ⟨hfree, hsecret, rfl⟩ := createTemp_spec hs rfl rfl hx
    obtain ⟨rfl, rfl⟩ := Prod.mk.inj heq
    refine .of_act htemps (.create hfree hsecret) ⟨[], ?_, ?_⟩
    · rw [hsound]
      rfl
    · rw [data_create, if_pos rfl]
      rfl
  | writing ofil calls =>
    obtain ⟨written, hcalls, hdata⟩ := hsound
    cases calls with
    | nil =>
      simp only [App.reduceStep, Option.some.injEq, Prod.mk.injEq] at h
      obtain ⟨rfl, rfl⟩ := h
      refine .of_act htemps (.keep (.refl _)) (hdata.trans ?_)
      rw [Disk.reduction, hcalls, List.append_nil]
    | cons call rest =>
      simp only [App.reduceStep, Option.some.injEq, Prod.mk.injEq] at h
      obtain ⟨rfl, rfl⟩ := h
      refine .of_act htemps (.append _ (List.mem_singleton_self ofil))
        ⟨written ++ [call], by rw [hcalls, List.append_assoc]; rfl, ?_⟩
      rw [data_append, if_pos rfl, hdata]
      simp
  | publishing ofil =>
    simp only [App.reduceStep, Option.some.injEq, Prod.mk.injEq] at h
    obtain ⟨rfl, rfl⟩ := h
    have hright : Right app disk nReduce (outName b) (fs.data ofil.inode) := .output b rfl hsound
    have hofil : ofil ∈ temps w := by
      rw [htemps]
      exact List.mem_singleton_self ofil
    exact ⟨.publish htemps hright, (hs.hidden.content_rename hofil (outName b)).trans
      (congrArg some hsound)⟩

end Steps

end DistributedLabs.MapReduce
