import DistributedLabs.LockSafety

/-!
# No lock is left behind

Where `Acquire` is called only by locks that do not hold and `Release` only by locks that do, a key
never keeps the value of a lock that does not know of it. A lock whose `Put` was executed while the
answer was lost is told `ErrMaybe` and finds its value by reading. A `Put` that is executed late and
stored belongs to a lock that is still sending it.
-/

namespace DistributedLabs.LockClients

open KvServer (Err Tversion PutArgs GetArgs PutReply GetReply)
open KvClerks (KvInput KvOutput)
open Kvsrv TransitionRuns

variable {n : ℕ} {cfg : Setup n}

section Discipline

/-- Locks are used in turns: `Acquire`, `Release`, `Acquire`, and so on. -/
def Proper (s : System n) : Event n → Prop
  | .acquire i => (s.clients i).holds = false
  | .release i => (s.clients i).holds = true
  | _ => True

instance (s : System n) : (e : Event n) → Decidable (Proper s e)
  | .acquire _ | .release _ => inferInstanceAs (Decidable (_ = _))
  | .net _ | .reply _ => .isTrue trivial

def Disciplined (s : System n) (e : Event n) : Prop := Proper s e ∧ NoWrap s e

instance (s : System n) (e : Event n) : Decidable (Disciplined s e) :=
  inferInstanceAs (Decidable (_ ∧ _))

theorem noWrap_of_disciplined {s : System n} (h : Reached cfg Disciplined s) :
    Reached cfg NoWrap s := by
  obtain ⟨s₀, hs₀, hrun⟩ := h
  exact ⟨s₀, hs₀, Relation.ReflTransGen.mono (fun _ _ ⟨e, he, hstep⟩ => ⟨e, he.2, hstep⟩) _ _ hrun⟩

end Discipline

section Predicates

def Shows (kv : KVServer) (lk : Lock) : Prop :=
  ∃ val, kv.store.lookup lk.curKey = some val ∧ val.value = lk.value

/-- A lock whose value the key has holds it, will find out, or is giving it back. -/
def Attends (kv : KVServer) (cl : Client) (pend : Option Pending) : Prop :=
  Shows kv cl.lock →
    match cl.running with
    | some (.putting _) => ∀ p, pend = some p → p.firstPut = false ∨ p.rpc = .replied (.put ⟨.ok⟩)
    | some .checking => ∀ p rep, pend = some p → p.rpc = .replied (.get rep) →
      rep.value = cl.lock.value
    | some .releasing => kv.version cl.lock.curKey = cl.lock.version.toUInt64
    | some .getting => cl.holds = true
    | none => cl.holds = true

/-- The `Put` is one that a lock in `Acquire` has sent before and is sending again. -/
def Backed (s : System n) (args : PutArgs) : Prop :=
  ∃ i p, (s.clients i).lock.curKey = args.key ∧ (s.clients i).lock.value = args.value ∧
    (s.clients i).running = some (.putting args.version) ∧ s.net.pending i = some p ∧
    p.firstPut = false

structure Tended (s : System n) : Prop where
  attends : ∀ i, Attends s.net.server (s.clients i) (s.net.pending i)
  answered : ∀ i version p rsp, (s.clients i).running = some (.putting version) →
    s.net.pending i = some p → p.rpc = .replied (.put rsp) → rsp.err = .ok ∨ rsp.err = .errVersion
  waiting : ∀ i, (s.clients i).running = some .getting → (s.clients i).holds = false
  present : ∀ i, (s.clients i).running = some .releasing →
    (s.net.server.store.lookup (s.clients i).lock.curKey).isSome
  late : ∀ args, .put args ∈ s.net.late → args.value ≠ released →
    args.version = s.net.server.version args.key → Backed s args
  values : ∀ key val, s.net.server.store.lookup key = some val → val.value = released ∨
    ∃ i, (s.clients i).lock.curKey = key ∧ (s.clients i).lock.value = val.value

end Predicates

theorem tended_initial (cfg : Setup n) : Tended (initial cfg) := by
  have hnone : ∀ key, KVServer.empty.store.lookup key = none := fun _ => Finmap.lookup_empty _
  refine ⟨fun i ⟨val, hval, _⟩ => ?_, fun i version p rsp hrun => ?_, fun i hrun => ?_,
    fun i hrun => ?_, fun args hargs => ?_, fun key val hval => ?_⟩
  · cases (hnone _).symm.trans hval
  · cases hrun
  · cases hrun
  · cases hrun
  · simp [initial, Net.initial] at hargs
  · cases (hnone key).symm.trans hval

section Server

variable {kv : KVServer} {args : PutArgs} {cl : Client} {pend : Option Pending}

/-- A key has a value that it had before, or the value of the `Put`. -/
theorem lookup_put_cases {key : String} {val : VersionValue}
    (h : (kv.put args).1.store.lookup key = some val) :
    (kv.put args).1.store.lookup key = kv.store.lookup key ∨
      (kv.Stores args ∧ args.key = key ∧ args.value = val.value) := by
  by_cases hk : key = args.key
  · by_cases hst : kv.Stores args
    · subst hk
      rw [lookup_put_self hst] at h
      exact .inr ⟨hst, rfl, by rw [← Option.some.inj h]⟩
    · rw [put_of_not_stores hst]
      exact .inl rfl
  · exact .inl (lookup_put_of_ne hk)

/-- The `Put` is not one that gives the key the value of the lock. -/
theorem Attends.put (h : Attends kv cl pend)
    (hother : kv.Stores args → args.key = cl.lock.curKey → args.value ≠ cl.lock.value) :
    Attends (kv.put args).1 cl pend := by
  rintro ⟨val, hval, hown⟩
  rcases lookup_put_cases hval with hsame | ⟨hst, hk, hvalue⟩
  · have hattends := h ⟨val, hsame ▸ hval, hown⟩
    cases hrun : cl.running with
    | none =>
      rw [hrun] at hattends
      exact hattends
    | some phase =>
      rw [hrun] at hattends
      cases phase with
      | releasing => exact (version_congr hsame).trans hattends
      | _ => exact hattends
  · exact absurd (hvalue.trans hown) (hother hst hk)

theorem isSome_handle {req : Request} {key : String} (h : (kv.store.lookup key).isSome) :
    ((kv.handle req).1.store.lookup key).isSome := by
  cases req with
  | get args => exact h
  | put args => exact isSome_put h

/-- A fenced `Put` is stored, or its version is not the version of its key any more. -/
theorem Fence.put_err {clients : Fin n → Client} (hf : Fence clients kv args) :
    (kv.put args).2.err = .ok ∨ (kv.put args).2.err = .errVersion := by
  by_cases hst : kv.Stores args
  · exact .inl (by rw [put_of_stores hst])
  · have hlt := UInt64.lt_of_le_of_ne hf.old hst
    exact .inr (by rw [put_of_not_stores hst, if_pos (isSome_of_lt_version hlt)])

/-- A fenced `Put` with the version of its key had it before another request was executed. -/
theorem Fence.version_before {clients : Fin n → Client} {req : Request}
    (hf : Fence clients kv args) (hw : ¬ kv.Wraps req)
    (heq : args.version = (kv.handle req).1.version args.key) :
    args.version = kv.version args.key :=
  UInt64.le_antisymm hf.old (heq ▸ version_le_handle hw args.key)

end Server

section Steps

variable {s t : System n} {i k : Fin n}

theorem Backed.update_pending {args : PutArgs} {p : Pending} (h : Backed s args)
    (hfirst : ∀ q, s.net.pending k = some q → q.firstPut = false → p.firstPut = false)
    {net : Net n} (hnet : net.pending = Function.update s.net.pending k (some p)) :
    Backed { s with net := net } args := by
  obtain ⟨i, q, hkey, hval, hrun, hq, hq'⟩ := h
  by_cases hik : i = k
  · subst hik
    exact ⟨i, p, hkey, hval, hrun, by rw [hnet, Function.update_self], hfirst q hq hq'⟩
  · exact ⟨i, q, hkey, hval, hrun, by rw [hnet, Function.update_of_ne hik, hq], hq'⟩

/-- The value that a key gets is the one that frees it or the value of a lock. -/
theorem Tended.values_put (ht : Tended s) {args : PutArgs}
    (hargs : s.net.server.Stores args → args.value = released ∨
      ∃ i, (s.clients i).lock.curKey = args.key ∧ (s.clients i).lock.value = args.value)
    (key : String) (val : VersionValue)
    (hval : (s.net.server.put args).1.store.lookup key = some val) : val.value = released ∨
      ∃ i, (s.clients i).lock.curKey = key ∧ (s.clients i).lock.value = val.value := by
  rcases lookup_put_cases hval with hsame | ⟨hst, rfl, hvalue⟩
  · exact ht.values key val (hsame ▸ hval)
  · rw [← hvalue]
    exact hargs hst

/-- What a lock that waits has sent. -/
theorem Standing.request_cases {clients : Fin n → Client} {kv : KVServer} {pend : Pending}
    (h : Standing clients kv (clients i) (some pend)) :
    pend.request = .get ⟨(clients i).lock.curKey⟩ ∨
      (∃ version, (clients i).running = some (.putting version) ∧
        pend.request = .put ((clients i).lock.putArgs (clients i).lock.value version)) ∨
      ((clients i).running = some .releasing ∧
        pend.request = .put
          ((clients i).lock.putArgs released (clients i).lock.version.toUInt64)) := by
  cases hrun : (clients i).running with
  | none => cases h.idle hrun
  | some phase =>
    obtain ⟨p, hp, hwait⟩ := h.waits phase hrun
    obtain rfl := Option.some.inj hp
    cases phase with
    | getting => exact .inl hwait.1
    | putting version => exact .inr (.inl ⟨version, rfl, hwait.2.1.1⟩)
    | checking => exact .inl hwait.2.1.1
    | releasing => exact .inr (.inr ⟨rfl, hwait.2.1⟩)

theorem Attends.handle {kv : KVServer} {cl : Client} {pend : Option Pending} {req : Request}
    (h : Attends kv cl pend) (hother : ∀ args, req = .put args → kv.Stores args →
      args.key = cl.lock.curKey → args.value ≠ cl.lock.value) :
    Attends (kv.handle req).1 cl pend := by
  cases req with
  | get args => exact h
  | put args => exact h.put (hother args rfl)

/-- The lock whose request is executed. -/
theorem Attends.execute {clients : Fin n → Client} {kv : KVServer} {pend : Pending}
    (h : Attends kv (clients k) (some pend)) (hstand : Standing clients kv (clients k) (some pend))
    (hap : Apart clients) (hsent : pend.rpc = .sent) :
    Attends (kv.handle pend.request).1 (clients k)
      (some { pend with rpc := .replied (kv.handle pend.request).2 }) := by
  cases hrun : (clients k).running with
  | none => cases hstand.idle hrun
  | some phase =>
    obtain ⟨p, hp, hwait⟩ := hstand.waits phase hrun
    obtain rfl := Option.some.inj hp
    unfold Attends at h ⊢
    rw [hrun] at h ⊢
    cases phase with
    | getting =>
      rw [hwait.1]
      exact h
    | checking =>
      rw [hwait.2.1.1]
      rintro ⟨val, hval, hown⟩ q rep hq hrep
      obtain rfl := Option.some.inj hq
      obtain rfl := Reply.get.inj (Rpc.replied.inj hrep)
      rw [KVServer.get, show kv.store.lookup (clients k).lock.curKey = some val from hval]
      exact hown
    | putting version =>
      rw [hwait.2.1.1]
      rintro hshows q hq
      obtain rfl := Option.some.inj hq
      by_cases hst : kv.Stores ((clients k).lock.putArgs (clients k).lock.value version)
      · exact .inr (by simp only [KVServer.handle, put_of_stores hst])
      · simp only [KVServer.handle, put_of_not_stores hst] at hshows
        rcases h hshows pend rfl with hfirst | hrep
        · exact .inl hfirst
        · cases hsent.symm.trans hrep
    | releasing =>
      have hput : Attends (kv.put ((clients k).lock.putArgs released
          (clients k).lock.version.toUInt64)).1 (clients k) (some pend) := by
        refine Attends.put ?_ fun _ _ => (hap.released k).symm
        unfold Attends
        rw [hrun]
        exact h
      unfold Attends at hput
      rw [hrun] at hput
      rw [hwait.2.1]
      exact hput

theorem Tended.execute (ht : Tended s) (hs : Safe cfg s) (hd : cfg.Distinct) {pend : Pending}
    (hk : s.net.pending k = some pend) (hsent : pend.rpc = .sent)
    (hw : ¬ s.net.server.Wraps pend.request) :
    Tended { s with net :=
      { s.net.setPending k (some { pend with rpc := .replied (s.net.server.handle pend.request).2 })
        with server := (s.net.server.handle pend.request).1 } } := by
  have hap := hs.apart hd
  have hstand := hs.standing k
  rw [hk] at hstand
  have hfenced := hstand.fenced hsent
  have hattends := ht.attends k
  rw [hk] at hattends
  refine ⟨fun i => ?_, fun i version p rsp hrun hp hrep => ?_, ht.waiting,
    fun i hrun => isSome_handle (ht.present i hrun), fun args hargs hne hver => ?_,
    fun key val hval => ?_⟩
  · change Attends _ _ (Function.update s.net.pending k _ i)
    by_cases hik : i = k
    · subst hik
      rw [Function.update_self]
      exact hattends.execute hstand hap hsent
    · rw [Function.update_of_ne hik]
      refine (ht.attends i).handle fun args hargs _ hkey hval => ?_
      rcases hstand.request_cases with hreq | ⟨version, -, hreq⟩ | ⟨-, hreq⟩
      · cases hargs.symm.trans hreq
      · obtain rfl := Request.put.inj (hargs.symm.trans hreq)
        exact hik (hap.value i k hkey.symm hval.symm)
      · obtain rfl := Request.put.inj (hargs.symm.trans hreq)
        exact hap.released i hval.symm
  · rcases Net.setPending_cases hp with ⟨rfl, hp'⟩ | ⟨-, hp'⟩
    · obtain rfl := Option.some.inj hp'
      obtain ⟨q, hq, hwait⟩ := hstand.waits _ hrun
      obtain rfl := Option.some.inj hq
      have hreq := hwait.2.1.1
      obtain rfl : (s.net.server.put _).2 = rsp :=
        Reply.put.inj ((congrArg (fun req => (s.net.server.handle req).2) hreq).symm.trans
          (Rpc.replied.inj hrep))
      exact (hfenced _ hreq).put_err
    · exact ht.answered i version p rsp hrun hp' hrep
  · have hver := (hs.late args hargs).version_before hw hver
    refine (ht.late args hargs hne hver).update_pending (fun q hq hfirst => ?_) rfl
    obtain rfl := Option.some.inj (hk.symm.trans hq)
    exact hfirst
  · rcases hstand.request_cases with hreq | ⟨version, -, hreq⟩ | ⟨-, hreq⟩
    · rw [hreq] at hval
      exact ht.values key val hval
    · rw [hreq] at hval
      exact ht.values_put (fun _ => .inr ⟨k, rfl, rfl⟩) key val hval
    · rw [hreq] at hval
      exact ht.values_put (fun _ => .inl rfl) key val hval

/-- A request of a lock that is stored late is one that the lock is still sending. -/
theorem Tended.late_execute (ht : Tended s) (hs : Safe cfg s) (hd : cfg.Distinct) {j : ℕ}
    {req : Request} (hj : s.net.late[j]? = some req) (hw : ¬ s.net.server.Wraps req) :
    Tended { s with net :=
      { s.net with server := (s.net.server.handle req).1, late := s.net.late.eraseIdx j } } := by
  have hap := hs.apart hd
  have hbacked : ∀ args, req = .put args → s.net.server.Stores args → args.value ≠ released →
      Backed s args := fun args hargs hst hne =>
    ht.late args (hargs ▸ List.mem_of_getElem? hj) hne hst
  refine ⟨fun i => ?_, ht.answered, ht.waiting, fun i hrun => isSome_handle (ht.present i hrun),
    fun args hargs hne hver => ?_, fun key val hval => ?_⟩
  · by_cases hfirst : ∃ version p, (s.clients i).running = some (.putting version) ∧
        s.net.pending i = some p ∧ p.firstPut = false
    · obtain ⟨version, p, hrun, hp, hfirst⟩ := hfirst
      intro _
      rw [hrun]
      intro q hq
      obtain rfl := Option.some.inj (hp.symm.trans hq)
      exact .inl hfirst
    · refine (ht.attends i).handle fun args hargs hst hkey hval => hfirst ?_
      obtain ⟨l, p, hkey', hval', hrun, hp, hp'⟩ := hbacked args hargs hst
        (hval ▸ hap.released i)
      obtain rfl := hap.value l i (hkey'.trans hkey) (hval'.trans hval)
      exact ⟨args.version, p, hrun, hp, hp'⟩
  · have hmem := List.mem_of_mem_eraseIdx hargs
    exact ht.late args hmem hne ((hs.late args hmem).version_before hw hver)
  · cases req with
    | get args => exact ht.values key val hval
    | put args =>
      refine ht.values_put (fun hst => or_iff_not_imp_left.mpr fun hne => ?_) key val hval
      obtain ⟨i, -, hkey, hvalue, -⟩ := hbacked args rfl hst hne
      exact ⟨i, hkey, hvalue⟩

theorem Attends.resend {kv : KVServer} {cl : Client} {pend : Pending}
    (h : Attends kv cl (some pend)) :
    Attends kv cl (some { pend with firstPut := false, rpc := .sent }) := by
  intro hshows
  have hattends := h hshows
  cases hrun : cl.running with
  | none =>
    rw [hrun] at hattends
    exact hattends
  | some phase =>
    rw [hrun] at hattends
    cases phase with
    | getting | releasing => exact hattends
    | putting version =>
      intro q hq
      obtain rfl := Option.some.inj hq
      exact .inl rfl
    | checking =>
      intro q rep hq hrep
      obtain rfl := Option.some.inj hq
      cases hrep

/-- The request that is given up while it is on its way is sent again. -/
theorem Standing.backed (hstand : Standing s.clients s.net.server (s.clients k) (s.net.pending k))
    {pend : Pending} (hk : s.net.pending k = some pend) {args : PutArgs}
    (hargs : pend.request = .put args) (hne : args.value ≠ released) {net : Net n}
    (hnet : net.pending = Function.update s.net.pending k
      (some { pend with firstPut := false, rpc := .sent })) :
    Backed { s with net := net } args := by
  rw [hk] at hstand
  rcases hstand.request_cases with hreq | ⟨version, hrun, hreq⟩ | ⟨-, hreq⟩
  · cases hargs.symm.trans hreq
  · obtain rfl := Request.put.inj (hargs.symm.trans hreq)
    exact ⟨k, _, rfl, rfl, hrun, by rw [hnet, Function.update_self], rfl⟩
  · obtain rfl := Request.put.inj (hargs.symm.trans hreq)
    exact absurd rfl hne

theorem Tended.fail (ht : Tended s) (hs : Safe cfg s) {pend : Pending}
    (hk : s.net.pending k = some pend) :
    Tended { s with net :=
      { s.net.setPending k (some { pend with firstPut := false, rpc := .sent }) with
        late := match pend.rpc with
          | .sent => s.net.late ++ [pend.request]
          | .replied _ => s.net.late } } := by
  have hold : ∀ args, .put args ∈ s.net.late → args.value ≠ released →
      args.version = s.net.server.version args.key → ∀ net : Net n, net.pending =
        Function.update s.net.pending k (some { pend with firstPut := false, rpc := .sent }) →
      Backed { s with net := net } args := fun args hargs hne hver net hnet =>
    (ht.late args hargs hne hver).update_pending (fun _ _ _ => rfl) hnet
  refine ⟨fun i => ?_, fun i version p rsp hrun hp hrep => ?_, ht.waiting, ht.present,
    fun args hargs hne hver => ?_, ht.values⟩
  · change Attends _ _ (Function.update s.net.pending k _ i)
    by_cases hik : i = k
    · subst hik
      rw [Function.update_self]
      exact Attends.resend (hk ▸ ht.attends i)
    · rw [Function.update_of_ne hik]
      exact ht.attends i
  · rcases Net.setPending_cases hp with ⟨-, hp'⟩ | ⟨-, hp'⟩
    · obtain rfl := Option.some.inj hp'
      cases hrep
    · exact ht.answered i version p rsp hrun hp' hrep
  · cases hrpc : pend.rpc with
    | replied reply =>
      simp only [hrpc] at hargs
      exact hold args hargs hne hver _ rfl
    | sent =>
      simp only [hrpc] at hargs
      rcases List.mem_append.mp hargs with hargs | hargs
      · exact hold args hargs hne hver _ rfl
      · exact (hs.standing k).backed hk (List.mem_singleton.mp hargs).symm hne rfl

/-- If the lock has a `Put` under way, the key has changed since the `Get` before it. -/
def Overtaken (s : System n) (i : Fin n) : Prop :=
  ∀ version, (s.clients i).running = some (.putting version) →
    version < s.net.server.version (s.clients i).lock.curKey

theorem overtaken_of_running {running : Option Phase} (hrun : (s.clients i).running = running)
    (hne : ∀ version, running ≠ some (.putting version)) : Overtaken s i :=
  fun version h => absurd (hrun.symm.trans h) (hne version)

/-- A lock goes on; the server and the other locks stay as they are. -/
theorem Tended.move (ht : Tended s) {cl : Client} {pend : Option Pending}
    (hkey : cl.lock.curKey = (s.clients i).lock.curKey)
    (hval : cl.lock.value = (s.clients i).lock.value)
    (hspent : Overtaken s i)
    (hunanswered : ∀ p reply, pend = some p → p.rpc ≠ .replied reply)
    (hwaiting : cl.running = some .getting → cl.holds = false)
    (hpresent : cl.running = some .releasing → (s.net.server.store.lookup cl.lock.curKey).isSome)
    (hattends : Attends s.net.server cl pend) :
    Tended ⟨s.net.setPending i pend, Function.update s.clients i cl⟩ := by
  have hlock : ∀ j, (Function.update s.clients i cl j).lock.curKey = (s.clients j).lock.curKey ∧
      (Function.update s.clients i cl j).lock.value = (s.clients j).lock.value := by
    intro j
    by_cases hji : j = i
    · subst hji
      rw [Function.update_self]
      exact ⟨hkey, hval⟩
    · rw [Function.update_of_ne hji]
      exact ⟨rfl, rfl⟩
  refine ⟨fun j => ?_, fun j version p rsp hrun hp hrep => ?_, fun j hrun => ?_, fun j hrun => ?_,
    fun args hargs hne hver => ?_, fun key val hval => ?_⟩
  · change Attends _ (Function.update s.clients i cl j) (Function.update s.net.pending i pend j)
    by_cases hji : j = i
    · subst hji
      rw [Function.update_self, Function.update_self]
      exact hattends
    · rw [Function.update_of_ne hji, Function.update_of_ne hji]
      exact ht.attends j
  · rcases Net.setPending_cases hp with ⟨-, hp'⟩ | ⟨hji, hp'⟩
    · exact absurd hrep (hunanswered p _ hp')
    · change (Function.update s.clients i cl j).running = _ at hrun
      rw [Function.update_of_ne hji] at hrun
      exact ht.answered j version p rsp hrun hp' hrep
  · change (Function.update s.clients i cl j).running = _ at hrun
    change (Function.update s.clients i cl j).holds = _
    by_cases hji : j = i
    · subst hji
      rw [Function.update_self] at hrun ⊢
      exact hwaiting hrun
    · rw [Function.update_of_ne hji] at hrun ⊢
      exact ht.waiting j hrun
  · change (Function.update s.clients i cl j).running = _ at hrun
    change (s.net.server.store.lookup (Function.update s.clients i cl j).lock.curKey).isSome
    by_cases hji : j = i
    · subst hji
      rw [Function.update_self] at hrun ⊢
      exact hpresent hrun
    · rw [Function.update_of_ne hji] at hrun ⊢
      exact ht.present j hrun
  · obtain ⟨j, p, hkey', hval', hrun, hp, hfirst⟩ := ht.late args hargs hne hver
    have hji : j ≠ i := by
      rintro rfl
      have hlt := hspent _ hrun
      rw [hkey', show args.version = s.net.server.version args.key from hver] at hlt
      exact UInt64.lt_irrefl _ hlt
    refine ⟨j, p, (hlock j).1.trans hkey', (hlock j).2.trans hval', ?_, ?_, hfirst⟩
    · change (Function.update s.clients i cl j).running = _
      rw [Function.update_of_ne hji, hrun]
    · change Function.update s.net.pending i pend j = _
      rw [Function.update_of_ne hji, hp]
  · rcases ht.values key val hval with hfree | ⟨j, hkey', hval'⟩
    · exact .inl hfree
    · exact .inr ⟨j, (hlock j).1.trans hkey', (hlock j).2.trans hval'⟩

/-- A lock whose value the key does not have goes on with a `Get`. -/
theorem Tended.get (ht : Tended s)
    (hspent : Overtaken s i)
    (hshows : ¬ Shows s.net.server (s.clients i).lock) (hholds : (s.clients i).holds = false) :
    Tended (s.send i .getting (s.clients i).holds (s.clients i).lock.get) := by
  refine ht.move rfl rfl hspent (fun p reply hp => ?_) (fun _ => hholds) nofun
    (fun h => absurd h hshows)
  obtain rfl := Option.some.inj hp
  nofun

theorem Tended.acquired (ht : Tended s) {version : Int64}
    (hspent : Overtaken s i) :
    Tended (s.return i version true) :=
  ht.move rfl rfl hspent nofun nofun nofun (fun _ => rfl)

theorem Tended.acquire (ht : Tended s) (hrun : (s.clients i).running = none)
    (hholds : (s.clients i).holds = false) :
    Tended (s.send i .getting (s.clients i).holds (s.clients i).lock.get) := by
  refine ht.get (overtaken_of_running hrun nofun) (fun hshows => ?_) hholds
  have hattends := ht.attends i hshows
  rw [hrun] at hattends
  cases hholds.symm.trans hattends

theorem Tended.release (ht : Tended s) (hs : Safe cfg s) (hrun : (s.clients i).running = none)
    (hholds : (s.clients i).holds = true) :
    Tended (s.send i .releasing false
      ((s.clients i).lock.put released (s.clients i).lock.version.toUInt64)) := by
  have hown : s.net.server.store.lookup _ = _ := (hs.standing i).owned hholds
  refine ht.move rfl rfl (overtaken_of_running hrun nofun) (fun p reply hp => ?_) nofun
    (fun _ => by rw [hown]; rfl) (fun _ => ?_)
  · obtain rfl := Option.some.inj hp
    nofun
  · change s.net.server.version _ = _
    rw [KVServer.version, hown]
    rfl

section Reply

variable {pend : Pending} {reply : Reply}

theorem Tended.reply_getting (ht : Tended s) (hrun : (s.clients i).running = some .getting)
    (out : KvOutput) : Tended (s.resume i .getting out) := by
  have hspent := overtaken_of_running hrun nofun
  have hholds := ht.waiting i hrun
  have hshows : ¬ Shows s.net.server (s.clients i).lock := fun h => by
    have hattends := ht.attends i h
    rw [hrun] at hattends
    cases hholds.symm.trans hattends
  by_cases hfree : out.err = .errNoKey ∨ out.value = released
  · rw [resume_free hfree]
    refine ht.move rfl rfl hspent (fun p reply hp => ?_) nofun nofun
      (fun h => absurd h hshows)
    obtain rfl := Option.some.inj hp
    nofun
  · rw [resume_taken hfree]
    exact ht.get hspent hshows hholds

/-- A lock that is told `ErrVersion` by the answer to its first request does not have the key. -/
theorem Tended.not_shows_of_lost (ht : Tended s) {version : Tversion} {rsp : PutReply}
    (hrun : (s.clients i).running = some (.putting version)) (hpend : s.net.pending i = some pend)
    (hrep : pend.rpc = .replied (.put rsp)) (hok : (output pend.firstPut (.put rsp)).err ≠ .ok)
    (hmaybe : (output pend.firstPut (.put rsp)).err ≠ .errMaybe) :
    ¬ Shows s.net.server (s.clients i).lock := by
  intro hshows
  have hattends := ht.attends i hshows
  rw [hrun] at hattends
  rcases ht.answered i version pend rsp hrun hpend hrep with herr | herr
  · simp [output, herr] at hok
  · rcases hattends pend hpend with hfirst | hrep'
    · simp [output, herr, hfirst] at hmaybe
    · obtain rfl := Reply.put.inj (Rpc.replied.inj (hrep.symm.trans hrep'))
      cases herr

theorem Tended.reply_putting (ht : Tended s) {version : Tversion}
    (hrun : (s.clients i).running = some (.putting version)) (hpend : s.net.pending i = some pend)
    (hwait : Waits s.clients s.net.server (s.clients i) pend (.putting version))
    (hrep : pend.rpc = .replied reply) :
    Tended (s.resume i (.putting version) (output pend.firstPut reply)) := by
  have hrest := hwait.2.1.2
  rw [hrep] at hrest
  obtain ⟨⟨rsp, rfl⟩, hlt⟩ := hrest
  have hspent : Overtaken s i := by
    intro version' hrun'
    obtain rfl := Phase.putting.inj (Option.some.inj (hrun.symm.trans hrun'))
    exact hlt
  by_cases hok : (output pend.firstPut (.put rsp)).err = .ok
  · rw [resume_ok hok]
    exact ht.acquired hspent
  by_cases hmaybe : (output pend.firstPut (.put rsp)).err = .errMaybe
  · rw [resume_maybe hmaybe]
    refine ht.move rfl rfl hspent (fun p reply hp => ?_) nofun nofun
      (fun _ p rep hp hrep => ?_)
    · obtain rfl := Option.some.inj hp
      nofun
    · obtain rfl := Option.some.inj hp
      cases hrep
  · rw [resume_lost hok hmaybe]
    exact ht.get hspent (ht.not_shows_of_lost hrun hpend hrep hok hmaybe) hwait.1

theorem Tended.reply_checking (ht : Tended s) (hrun : (s.clients i).running = some .checking)
    (hpend : s.net.pending i = some pend)
    (hwait : Waits s.clients s.net.server (s.clients i) pend .checking)
    (hrep : pend.rpc = .replied reply) :
    Tended (s.resume i .checking (output pend.firstPut reply)) := by
  obtain ⟨rep, rfl, -⟩ := hwait.2.1.2 reply hrep
  have hspent := overtaken_of_running hrun nofun
  by_cases hval : rep.value = (s.clients i).lock.value
  · rw [resume_own hval]
    exact ht.acquired hspent
  · rw [resume_other hval]
    refine ht.get hspent (fun hshows => hval ?_) hwait.1
    have hattends := ht.attends i hshows
    rw [hrun] at hattends
    exact hattends pend rep hpend hrep

theorem Tended.reply_releasing (ht : Tended s) (hrun : (s.clients i).running = some .releasing)
    (hwait : Waits s.clients s.net.server (s.clients i) pend .releasing)
    (hrep : pend.rpc = .replied reply) (out : KvOutput) :
    Tended (s.resume i .releasing out) := by
  have hrest := hwait.2.2
  rw [hrep] at hrest
  refine ht.move rfl rfl (overtaken_of_running hrun nofun) nofun nofun nofun
    (fun hshows => ?_)
  have hattends := ht.attends i hshows
  rw [hrun] at hattends
  have hlt : (s.clients i).lock.version.toUInt64 < s.net.server.version (s.clients i).lock.curKey :=
    hrest.2
  rw [hattends] at hlt
  exact absurd hlt (UInt64.lt_irrefl _)

end Reply

theorem Tended.reply (ht : Tended s) (hs : Safe cfg s) {out : KvOutput} {phase : Phase}
    (hans : s.net.answer i = some out) (hrun : (s.clients i).running = some phase) :
    Tended (s.resume i phase out) := by
  obtain ⟨pend, hpend, hout⟩ := Option.bind_eq_some_iff.mp hans
  obtain ⟨p, hp, hwait⟩ := (hs.standing i).waits phase hrun
  obtain rfl := Option.some.inj (hpend.symm.trans hp)
  cases hrep : pend.rpc with
  | sent => simp [hrep] at hout
  | replied reply =>
    obtain rfl : output pend.firstPut reply = out := by simpa [hrep] using hout
    cases phase with
    | getting => exact ht.reply_getting hrun _
    | putting version => exact ht.reply_putting hrun hpend hwait hrep
    | checking => exact ht.reply_checking hrun hpend hwait hrep
    | releasing => exact ht.reply_releasing hrun hwait hrep _

theorem Tended.step (ht : Tended s) (hs : Safe cfg s) (hd : cfg.Distinct) {e : Event n}
    (hok : Disciplined s e) (h : s.step? e = some t) : Tended t := by
  obtain ⟨hproper, hw⟩ := hok
  cases step_action h with
  | acquire hrun => exact ht.acquire hrun hproper
  | release hrun => exact ht.release hs hrun hproper
  | reply hans hrun => exact ht.reply hs hans hrun
  | net hnet => cases hnet with
    | execute hpend hrpc =>
      exact ht.execute hs hd hpend hrpc (hw _ (Net.executes_of_sent hpend hrpc))
    | fail hpend => exact ht.fail hs hpend
    | late hreq => exact ht.late_execute hs hd hreq (hw _ hreq)

theorem tended_of_reached (hd : cfg.Distinct) (hs : Reached cfg Disciplined s) : Tended s := by
  refine Reachable.invariant (I := Tended) hs (fun s hs => ?_) ?_
  · rw [hs]
    exact tended_initial cfg
  · rintro s t hs ih ⟨e, hok, hstep⟩
    exact ih.step (safe_of_reached hd (noWrap_of_disciplined hs)) hd hok hstep

end Steps

/-- No lock leaves its value behind: a key that is not free has the value of a lock that holds it,
is about to learn that it does, or is in its `Release`. -/
theorem value_has_owner {n : ℕ} {cfg : Setup n} (hd : cfg.Distinct) {s : System n}
    (hs : Reached cfg Disciplined s) {key : String} {val : VersionValue}
    (hval : s.net.server.store.lookup key = some val) (hne : val.value ≠ released) :
    ∃ i, cfg.name i = key ∧ cfg.value i = val.value ∧
      ((s.clients i).holds = true ∨ (∃ version, (s.clients i).running = some (.putting version)) ∨
        (s.clients i).running = some .checking ∨ (s.clients i).running = some .releasing) := by
  have hsafe := safe_of_reached hd (noWrap_of_disciplined hs)
  have htended := tended_of_reached hd hs
  obtain ⟨i, hkey, hvalue⟩ := (htended.values key val hval).resolve_left hne
  refine ⟨i, (hsafe.made i).1.symm.trans hkey, (hsafe.made i).2.symm.trans hvalue, ?_⟩
  have hattends := htended.attends i ⟨val, hkey ▸ hval, hvalue.symm⟩
  cases hrun : (s.clients i).running with
  | none =>
    rw [hrun] at hattends
    exact .inl hattends
  | some phase => cases phase with
    | getting =>
      rw [hrun] at hattends
      exact .inl hattends
    | putting version => exact .inr (.inl ⟨version, rfl⟩)
    | checking => exact .inr (.inr (.inl rfl))
    | releasing => exact .inr (.inr (.inr rfl))

/-- Two requests of the first lock are given up, and the first of them is stored late. -/
def lateRun : List (Event 2) :=
  [.acquire 0, .net (.execute 0), .reply 0, .net (.fail 0), .net (.fail 0), .net (.late 0)]

theorem value_has_owner_late : ∃ s, Reached twoLocks Disciplined s ∧
    s.net.server.store.lookup "l" = some ⟨1, "a"⟩ ∧ (s.clients 0).holds = false ∧
    ∃ i, twoLocks.name i = "l" ∧ twoLocks.value i = "a" ∧
      ((s.clients i).holds = true ∨ (∃ version, (s.clients i).running = some (.putting version)) ∨
        (s.clients i).running = some .checking ∨ (s.clients i).running = some .releasing) := by
  have hrun : ((initial twoLocks).run Disciplined lateRun).any
      (fun s => s.net.server.store.lookup "l" = some ⟨1, "a"⟩ ∧ (s.clients 0).holds = false) =
        true := by
    decide +kernel
  obtain ⟨s, hsteps, htest⟩ := System.exists_of_run hrun
  obtain ⟨hval, hholds⟩ := of_decide_eq_true htest
  have hs : Reached twoLocks Disciplined s := ⟨_, rfl, hsteps⟩
  exact ⟨s, hs, hval, hholds, value_has_owner twoLocks_distinct hs hval (by decide)⟩

end DistributedLabs.LockClients
