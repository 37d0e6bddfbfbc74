import DistributedLabs.KvsrvClerks

/-!
# Locks over the key/value server

Any number of `Lock` objects with any names, each with its own clerk. A lock runs one of its
methods at a time and calls `Get` and `Put` of its clerk in turn. `Acquire` and `Release` may
be called at any time, also by a lock that holds already or does not hold.
-/

namespace DistributedLabs.LockClients

open KvServer (Err Tversion)
open KvClerks (KvInput KvOutput)
open Kvsrv TransitionRuns

def released : String := "released"

structure Lock where
  curKey : String
  version : Int64
  value : String
  deriving DecidableEq, Repr

/-- The call of its clerk that a lock waits for: the `Get` at the head of the loop of
`Acquire`, the `Put` there, the `Get` after `ErrMaybe`, or the `Put` of `Release`. -/
inductive Phase where
  | getting
  | putting (version : Tversion)
  | checking
  | releasing
  deriving DecidableEq, Repr

/-- A lock with the method it is in; `holds` from the return of its `Acquire` to the start
of its `Release`. -/
structure Client where
  lock : Lock
  running : Option Phase
  holds : Bool
  deriving DecidableEq, Repr

/-- The arguments of `MakeLock` and the random value that it draws. -/
structure Setup (n : ℕ) where
  name : Fin n → String
  value : Fin n → String

structure Setup.Distinct {n : ℕ} (cfg : Setup n) : Prop where
  value : ∀ i j, cfg.name i = cfg.name j → cfg.value i = cfg.value j → i = j
  released : ∀ i, cfg.value i ≠ released

structure System (n : ℕ) where
  net : Net n
  clients : Fin n → Client

inductive Event (n : ℕ) where
  | net (e : Net.Event n)
  | acquire (i : Fin n)
  | release (i : Fin n)
  | reply (i : Fin n)
  deriving DecidableEq, Repr

variable {n : ℕ}

def Lock.get (lk : Lock) : KvInput := ⟨.get, lk.curKey, "", 0⟩

def Lock.put (lk : Lock) (value : String) (version : Tversion) : KvInput :=
  ⟨.put, lk.curKey, value, version⟩

def System.send (s : System n) (i : Fin n) (phase : Phase) (holds : Bool) (inp : KvInput) :
    System n where
  net := s.net.call i inp
  clients := Function.update s.clients i ⟨(s.clients i).lock, some phase, holds⟩

def System.return (s : System n) (i : Fin n) (version : Int64) (holds : Bool) : System n where
  net := s.net.setPending i none
  clients := Function.update s.clients i
    ⟨{ (s.clients i).lock with version := version }, none, holds⟩

def System.resume (s : System n) (i : Fin n) (phase : Phase) (out : KvOutput) : System n :=
  let lk := (s.clients i).lock
  let holds := (s.clients i).holds
  match phase with
  | .getting =>
    if out.err = .errNoKey ∨ out.value = released then
      s.send i (.putting out.version) holds (lk.put lk.value out.version)
    else s.send i .getting holds lk.get
  | .putting version =>
    if out.err = .ok then s.return i (version.toInt64 + 1) true
    else if out.err = .errMaybe then s.send i .checking holds lk.get
    else s.send i .getting holds lk.get
  | .checking =>
    if out.value = lk.value then s.return i out.version.toInt64 true
    else s.send i .getting holds lk.get
  | .releasing => s.return i lk.version holds

def System.step? (s : System n) : Event n → Option (System n)
  | .net e => (s.net.step? e).map fun net => { s with net := net }
  | .acquire i =>
    match (s.clients i).running with
    | some _ => none
    | none => some (s.send i .getting (s.clients i).holds (s.clients i).lock.get)
  | .release i =>
    match (s.clients i).running with
    | some _ => none
    | none =>
      let lk := (s.clients i).lock
      some (s.send i .releasing false (lk.put released lk.version.toUInt64))
  | .reply i =>
    (s.net.answer i).bind fun out =>
      (s.clients i).running.map fun phase => s.resume i phase out

inductive Action (s : System n) : Event n → System n → Prop
  | net {e : Net.Event n} {net : Net n} (h : s.net.Action e net) :
      Action s (.net e) { s with net := net }
  | acquire {i : Fin n} (hrun : (s.clients i).running = none) :
      Action s (.acquire i) (s.send i .getting (s.clients i).holds (s.clients i).lock.get)
  | release {i : Fin n} (hrun : (s.clients i).running = none) :
      Action s (.release i) (s.send i .releasing false
        ((s.clients i).lock.put released (s.clients i).lock.version.toUInt64))
  | reply {i : Fin n} {out : KvOutput} {phase : Phase} (hans : s.net.answer i = some out)
      (hrun : (s.clients i).running = some phase) : Action s (.reply i) (s.resume i phase out)

theorem step_action {s t : System n} {e : Event n} (h : s.step? e = some t) : Action s e t := by
  cases e with
  | net e =>
    obtain ⟨net, hnet, rfl⟩ := Option.map_eq_some_iff.mp h
    exact .net (Net.step_action hnet)
  | acquire i =>
    cases hrun : (s.clients i).running with
    | some phase => simp [System.step?, hrun] at h
    | none =>
      simp only [System.step?, hrun, Option.some.injEq] at h
      exact h ▸ .acquire hrun
  | release i =>
    cases hrun : (s.clients i).running with
    | some phase => simp [System.step?, hrun] at h
    | none =>
      simp only [System.step?, hrun, Option.some.injEq] at h
      exact h ▸ .release hrun
  | reply i =>
    obtain ⟨out, hans, hout⟩ := Option.bind_eq_some_iff.mp h
    obtain ⟨phase, hrun, rfl⟩ := Option.map_eq_some_iff.mp hout
    exact .reply hans hrun

def Step (ok : System n → Event n → Prop) (s t : System n) : Prop :=
  ∃ e, ok s e ∧ s.step? e = some t

/-- `MakeLock` for every lock. -/
def initial (cfg : Setup n) : System n where
  net := Net.initial
  clients i := ⟨⟨cfg.name i, 0, cfg.value i⟩, none, false⟩

def Reached (cfg : Setup n) (ok : System n → Event n → Prop) (s : System n) : Prop :=
  Reachable (· = initial cfg) (Step ok) s

def AnyEvent (_ : System n) (_ : Event n) : Prop := True

instance (s : System n) (e : Event n) : Decidable (AnyEvent s e) := .isTrue trivial

def NoWrap (s : System n) : Event n → Prop
  | .net e => s.net.NoWrap e
  | _ => True

instance (s : System n) : (e : Event n) → Decidable (NoWrap s e)
  | .net e => inferInstanceAs (Decidable (s.net.NoWrap e))
  | .acquire _ | .release _ | .reply _ => .isTrue trivial

section Runs

variable (ok : System n → Event n → Prop) [∀ s e, Decidable (ok s e)]

def System.run (s : System n) (es : List (Event n)) : Option (System n) :=
  exec (fun s e => if ok s e then s.step? e else none) s es

variable {ok} {s t : System n}

theorem System.steps_of_run {es : List (Event n)} (h : s.run ok es = some t) :
    Relation.ReflTransGen (Step ok) s t := by
  refine steps_of_exec (fun s e t he => ?_) h
  split_ifs at he with hok
  exact ⟨e, hok, he⟩

/-- A run that ends as a test says. -/
theorem System.exists_of_run {es : List (Event n)} {test : System n → Bool}
    (h : (s.run ok es).any test = true) :
    ∃ t, Relation.ReflTransGen (Step ok) s t ∧ test t = true := by
  refine exists_of_exec (fun s e t he => ?_) h
  split_ifs at he with hok
  exact ⟨e, hok, he⟩

end Runs

end DistributedLabs.LockClients
