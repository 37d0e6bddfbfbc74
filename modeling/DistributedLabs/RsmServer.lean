import Mathlib.Data.List.Basic
import Mathlib.Data.Int.Basic
import Mathlib.Logic.Function.Basic

/-!
# The replicated state machine layer of one server

`Submit` hands an operation to Raft and waits on a channel that is filed in `db` under
the index that `Start` returned. `Reader` executes what Raft commits, in order, and
signals the `Submit` filed under the index of the message. A `Submit` that finds its
server deposed removes the entry at its index and gives up.
-/

namespace DistributedLabs.Rsm

/-- What a server implements to be replicated, over states `St`. -/
structure StateMachine (Req Rep St B : Type*) where
  init : St
  doOp : St → Req → St × Rep
  snapshot : St → List B
  restore : St → List B → St

/-- A snapshot is never empty, and restoring it gives the state it was taken of. -/
structure StateMachine.Lawful {Req Rep St B : Type*} (m : StateMachine Req Rep St B) : Prop where
  snapshot_ne : ∀ st, m.snapshot st ≠ []
  restore_snapshot : ∀ st st', m.restore st (m.snapshot st') = st'

structure Op (Req : Type*) where
  me : ℕ
  id : ℤ
  req : Req
  deriving DecidableEq, Repr

/-- What is handed to `Start`: the operations of `Submit`, and commands of other kinds. -/
inductive Command (Req : Type*) where
  | op (op : Op Req)
  | other (x : ℕ)
  deriving DecidableEq, Repr

/-- Channels are named by the position of their `Submit` among those of the process. -/
structure MapValue (Req : Type*) where
  readerSignal : ℕ
  cmd : Op Req
  deriving DecidableEq, Repr

inductive Signal (Rep : Type*) where
  | errNotLeader
  | reply (rep : Rep)
  deriving DecidableEq, Repr

inductive Result (Rep : Type*) where
  | errWrongLeader
  | ok (rep : Rep)
  deriving DecidableEq, Repr

inductive Msg (Req B : Type*) where
  | command (index : ℤ) (command : Command Req)
  | snapshot (index : ℤ) (data : List B)
  deriving DecidableEq, Repr

structure RSM (Req St : Type*) where
  sm : St
  db : ℤ → Option (MapValue Req)
  lastApplied : ℤ

/-- Where a `Submit` stands after `Start`: in its outer `select`, past a tick that found
the channel empty and before `rsm.mu.Lock`, or done. -/
inductive Stage (Rep : Type*) where
  | waiting
  | checking
  | returned (result : Result Rep)
  deriving DecidableEq, Repr

/-- A call of `Submit` after its locked section. `cmdChan` is the buffer of capacity one,
and `sent` counts the sends that went through. -/
structure Submit (Req Rep : Type*) where
  op : Op Req
  commitIndex : ℤ
  startTerm : ℤ
  cmdChan : Option (Signal Rep)
  sent : ℕ
  stage : Stage Rep
  deriving DecidableEq, Repr

def Submit.Waiting {Req Rep : Type*} (sub : Submit Req Rep) : Prop :=
  ∀ result, sub.stage ≠ .returned result

/-- What has happened under `rsm.mu` since the process started, latest first: a `Submit` was
filed under an index, or a message was handled, by `DoOp` or without it. -/
inductive Mark where
  | started (channel : ℕ) (index : ℤ)
  | executed (index : ℤ)
  | passed (index : ℤ)
  deriving DecidableEq, Repr

def Mark.index : Mark → ℤ
  | .started _ index => index
  | .executed index => index
  | .passed index => index

def lastMark (trace : List Mark) (i : ℤ) : Option Mark := trace.find? fun x => x.index = i

/-- One server process above Raft. `inbox` is the message that `Reader` has taken from
`applyCh` and not yet handled, `sending` the signal it sends after the lock is released. -/
structure Server (Req Rep St B : Type*) where
  rsm : RSM Req St
  inbox : Option (Msg Req B)
  sending : Option (ℕ × Signal Rep)
  submits : List (Submit Req Rep)
  trace : List Mark

variable {Req Rep St B : Type*}

instance : Inhabited (Command Req) := ⟨.other 0⟩

def Command.op? : Command Req → Option (Op Req)
  | .op o => some o
  | .other _ => none

def ops (l : List (Command Req)) : List (Op Req) := l.filterMap Command.op?

@[simp] theorem ops_nil : ops ([] : List (Command Req)) = [] := rfl

@[simp] theorem ops_cons_op (op : Op Req) (l : List (Command Req)) :
    ops (.op op :: l) = op :: ops l := rfl

@[simp] theorem ops_cons_other (x : ℕ) (l : List (Command Req)) :
    ops (.other x :: l) = ops l := rfl

@[simp] theorem ops_append (l l' : List (Command Req)) : ops (l ++ l') = ops l ++ ops l' :=
  List.filterMap_append

theorem mem_ops {l : List (Command Req)} {o : Op Req} : o ∈ ops l ↔ .op o ∈ l := by
  simp only [ops, List.mem_filterMap]
  constructor
  · rintro ⟨c, hc, ho⟩
    cases c with
    | op o' =>
      obtain rfl := Option.some.inj ho
      exact hc
    | other x => cases ho
  · exact fun h => ⟨_, h, rfl⟩

def makeRSM (m : StateMachine Req Rep St B) (snapshot : List B) : RSM Req St where
  sm := if 0 < snapshot.length then m.restore m.init snapshot else m.init
  db := fun _ => none
  lastApplied := 0

def Server.boot (m : StateMachine Req Rep St B) (snapshot : List B) : Server Req Rep St B where
  rsm := makeRSM m snapshot
  inbox := none
  sending := none
  submits := []
  trace := []

/-- What one turn of `Reader` does: the new fields, the arguments of `rf.Snapshot` if it
is called, and the channel and value of the send that follows, if any. -/
structure Turn (Req Rep St B : Type*) where
  rsm : RSM Req St
  snapshot : Option (ℤ × List B)
  send : Option (ℕ × Signal Rep)

/-- Take the entry at `index` out of `db`; its `Submit` gets the result if the ids agree. -/
def RSM.answer (rsm : RSM Req St) (index : ℤ) (op : Op Req) (toSend : Rep) :
    RSM Req St × Option (ℕ × Signal Rep) :=
  match rsm.db index with
  | none => (rsm, none)
  | some curValue =>
    ({ rsm with db := Function.update rsm.db index none },
      some (curValue.readerSignal,
        if op.id ≠ curValue.cmd.id then .errNotLeader else .reply toSend))

theorem RSM.answer_db (rsm : RSM Req St) (index i : ℤ) (op : Op Req) (toSend : Rep) :
    (rsm.answer index op toSend).1.db i = if i = index then none else rsm.db i := by
  unfold RSM.answer
  by_cases hi : i = index
  · subst hi
    cases h : rsm.db i <;> simp [h]
  · cases h : rsm.db index <;> simp [hi]

theorem RSM.answer_send (rsm : RSM Req St) (index : ℤ) (op : Op Req) (toSend : Rep) :
    (rsm.answer index op toSend).2 = (rsm.db index).map fun curValue =>
      (curValue.readerSignal,
        if op.id ≠ curValue.cmd.id then .errNotLeader else .reply toSend) := by
  unfold RSM.answer
  cases h : rsm.db index <;> rfl

/-- One turn of `Reader`. `full` says that the saved Raft state has outgrown
`maxraftstate/2`, with snapshots switched on. -/
def RSM.reader (m : StateMachine Req Rep St B) (rsm : RSM Req St) (lastIncludedIndex : ℤ)
    (full : Bool) : Msg Req B → Turn Req Rep St B
  | .snapshot index data =>
    ⟨{ rsm with sm := m.restore rsm.sm data, lastApplied := index }, none, none⟩
  | .command _ (.other _) => ⟨rsm, none, none⟩
  | .command index (.op op) =>
    let result := m.doOp rsm.sm op.req
    let rsm := { rsm with lastApplied := index, sm := result.1 }
    let snapshot := if lastIncludedIndex < rsm.lastApplied ∧ full = true then
        some (rsm.lastApplied, m.snapshot rsm.sm)
      else none
    let answer := rsm.answer index op result.2
    ⟨answer.1, snapshot, answer.2⟩

def Msg.mark : Msg Req B → Mark
  | .command index (.op _) => .executed index
  | .command index (.other _) => .passed index
  | .snapshot index _ => .passed index

/-- The locked section of `Submit`, with what `Start` returned. -/
def Server.submit (srv : Server Req Rep St B) (op : Op Req) (commitIndex startTerm : ℤ)
    (isLeader : Bool) : Server Req Rep St B :=
  if isLeader then
    { srv with
      rsm := { srv.rsm with
        db := Function.update srv.rsm.db commitIndex (some ⟨srv.submits.length, op⟩) }
      submits := srv.submits ++ [⟨op, commitIndex, startTerm, none, 0, .waiting⟩]
      trace := .started srv.submits.length commitIndex :: srv.trace }
  else
    { srv with
      submits := srv.submits ++ [⟨op, commitIndex, startTerm, none, 0, .returned .errWrongLeader⟩] }

/-- `Reader` sends; the buffer holds one value, so a second send would block. -/
def Server.send (srv : Server Req Rep St B) : Option (Server Req Rep St B) :=
  srv.sending.bind fun v =>
    srv.submits[v.1]?.bind fun sub =>
      if sub.cmdChan.isSome then none
      else some { srv with
        sending := none
        submits := srv.submits.set v.1 { sub with cmdChan := some v.2, sent := sub.sent + 1 } }

def Signal.result : Signal Rep → Result Rep
  | .errNotLeader => .errWrongLeader
  | .reply rep => .ok rep

/-- A `Submit` receives from its channel, in the outer or in the inner `select`. -/
def Submit.receive (sub : Submit Req Rep) : Option (Submit Req Rep) :=
  match sub.stage, sub.cmdChan with
  | .waiting, some tempCmd => some { sub with cmdChan := none, stage := .returned tempCmd.result }
  | _, _ => none

/-- The ticker fires and the inner `select` finds the channel empty. -/
def Submit.tick (sub : Submit Req Rep) : Option (Submit Req Rep) :=
  match sub.stage, sub.cmdChan with
  | .waiting, none => some { sub with stage := .checking }
  | _, _ => none

def Server.receive (srv : Server Req Rep St B) (i : ℕ) : Option (Server Req Rep St B) :=
  srv.submits[i]?.bind fun sub =>
    sub.receive.map fun sub => { srv with submits := srv.submits.set i sub }

def Server.tick (srv : Server Req Rep St B) (i : ℕ) : Option (Server Req Rep St B) :=
  srv.submits[i]?.bind fun sub =>
    sub.tick.map fun sub => { srv with submits := srv.submits.set i sub }

def Submit.Deposed (sub : Submit Req Rep) (newTerm : ℤ) (isLeader : Bool) : Prop :=
  newTerm ≠ sub.startTerm ∨ isLeader = false

instance (sub : Submit Req Rep) (newTerm : ℤ) (isLeader : Bool) :
    Decidable (sub.Deposed newTerm isLeader) := inferInstanceAs (Decidable (_ ∨ _))

/-- The locked section after a tick, with what `GetState` returned. -/
def Server.check (srv : Server Req Rep St B) (i : ℕ) (newTerm : ℤ) (isLeader : Bool) :
    Option (Server Req Rep St B) :=
  srv.submits[i]?.bind fun sub =>
    match sub.stage with
    | .checking =>
      if sub.Deposed newTerm isLeader then
        some { srv with
          rsm := { srv.rsm with db := Function.update srv.rsm.db sub.commitIndex none }
          submits := srv.submits.set i { sub with stage := .returned .errWrongLeader } }
      else some { srv with submits := srv.submits.set i { sub with stage := .waiting } }
    | _ => none

section Inversion

variable {srv srv' : Server Req Rep St B} {i : ℕ}

theorem Server.send_cases (h : srv.send = some srv') : ∃ k v sub,
    srv.sending = some (k, v) ∧ srv.submits[k]? = some sub ∧ sub.cmdChan = none ∧
    srv' = { srv with
      sending := none
      submits := srv.submits.set k { sub with cmdChan := some v, sent := sub.sent + 1 } } := by
  obtain ⟨⟨k, v⟩, hv, h⟩ := Option.bind_eq_some_iff.mp h
  obtain ⟨sub, hsub, h⟩ := Option.bind_eq_some_iff.mp h
  split_ifs at h with hfull
  exact ⟨k, v, sub, hv, hsub, Option.not_isSome_iff_eq_none.mp hfull, (Option.some.inj h).symm⟩

theorem Server.receive_cases (h : srv.receive i = some srv') : ∃ sub v,
    srv.submits[i]? = some sub ∧ sub.stage = .waiting ∧ sub.cmdChan = some v ∧
    srv' = { srv with
      submits := srv.submits.set i { sub with cmdChan := none, stage := .returned v.result } } := by
  obtain ⟨sub, hsub, h⟩ := Option.bind_eq_some_iff.mp h
  obtain ⟨sub', hsub', rfl⟩ := Option.map_eq_some_iff.mp h
  unfold Submit.receive at hsub'
  split at hsub'
  · next v hstage hchan =>
    obtain rfl := Option.some.inj hsub'
    exact ⟨sub, v, hsub, hstage, hchan, rfl⟩
  · cases hsub'

theorem Server.tick_cases (h : srv.tick i = some srv') : ∃ sub,
    srv.submits[i]? = some sub ∧ sub.stage = .waiting ∧
    srv' = { srv with submits := srv.submits.set i { sub with stage := .checking } } := by
  obtain ⟨sub, hsub, h⟩ := Option.bind_eq_some_iff.mp h
  obtain ⟨sub', hsub', rfl⟩ := Option.map_eq_some_iff.mp h
  unfold Submit.tick at hsub'
  split at hsub'
  · next hstage hchan =>
    obtain rfl := Option.some.inj hsub'
    exact ⟨sub, hsub, hstage, rfl⟩
  · cases hsub'

theorem Server.check_cases {term : ℤ} {lead : Bool} (h : srv.check i term lead = some srv') :
    ∃ sub, srv.submits[i]? = some sub ∧ sub.stage = .checking ∧
    ((sub.Deposed term lead ∧ srv' = { srv with
      rsm := { srv.rsm with db := Function.update srv.rsm.db sub.commitIndex none }
      submits := srv.submits.set i { sub with stage := .returned .errWrongLeader } }) ∨
    (¬ sub.Deposed term lead ∧
      srv' = { srv with submits := srv.submits.set i { sub with stage := .waiting } })) := by
  obtain ⟨sub, hsub, h⟩ := Option.bind_eq_some_iff.mp h
  refine ⟨sub, hsub, ?_⟩
  split at h
  · next hstage =>
    refine ⟨hstage, ?_⟩
    split_ifs at h with hdep
    · exact Or.inl ⟨hdep, (Option.some.inj h).symm⟩
    · exact Or.inr ⟨hdep, (Option.some.inj h).symm⟩
  · cases h

end Inversion

end DistributedLabs.Rsm
