import DistributedLabs.LockOwnership

/-!
# Every lock can be acquired

From every state that locks used in turns can come to, whatever was lost or is still on its way,
two locks are enough to let any lock have its key: the lock whose value the key has finishes its
turn, and then the lock that wants the key takes it. No other lock needs to move, and no request
that was given up needs to be executed.
-/

namespace DistributedLabs.LockClients

open KvServer (Err Tversion PutArgs GetArgs PutReply GetReply)
open KvClerks (KvInput KvOutput)
open Kvsrv TransitionRuns Relation

variable {n : ℕ} {cfg : Setup n} {s t : System n} {k : Fin n}

section Updates

@[simp] theorem send_server (s : System n) (k : Fin n) (phase : Phase) (holds : Bool)
    (inp : KvInput) : (s.send k phase holds inp).net.server = s.net.server := rfl

@[simp] theorem send_clients_self (s : System n) (k : Fin n) (phase : Phase) (holds : Bool)
    (inp : KvInput) : (s.send k phase holds inp).clients k =
      ⟨(s.clients k).lock, some phase, holds⟩ := Function.update_self ..

theorem send_running (s : System n) (k : Fin n) (phase : Phase) (holds : Bool) (inp : KvInput) :
    ((s.send k phase holds inp).clients k).running = some phase :=
  congrArg Client.running (send_clients_self ..)

@[simp] theorem send_pending_self (s : System n) (k : Fin n) (phase : Phase) (holds : Bool)
    (inp : KvInput) : (s.send k phase holds inp).net.pending k =
      some ⟨request inp, true, .sent⟩ := Function.update_self ..

@[simp] theorem return_clients_self (s : System n) (k : Fin n) (version : Int64) (holds : Bool) :
    (s.return k version holds).clients k =
      ⟨{ (s.clients k).lock with version := version }, none, holds⟩ := Function.update_self ..

end Updates

section Alone

def Event.Of (k : Fin n) : Event n → Prop
  | .acquire i | .release i | .reply i | .net (.execute i) => i = k
  | .net (.fail _) | .net (.late _) => False

/-- One lock goes on, with nothing lost. -/
def Alone (k : Fin n) (s : System n) (e : Event n) : Prop := Disciplined s e ∧ e.Of k

theorem Reached.alone (hs : Reached cfg Disciplined s) (h : ReflTransGen (Step (Alone k)) s t) :
    Reached cfg Disciplined t :=
  hs.trans (ReflTransGen.mono (fun _ _ ⟨e, he, hstep⟩ => ⟨e, he.1, hstep⟩) _ _ h)

def System.executed (s : System n) (k : Fin n) (pend : Pending) : System n :=
  { s with net :=
    { s.net.setPending k (some { pend with rpc := .replied (s.net.server.handle pend.request).2 })
      with server := (s.net.server.handle pend.request).1 } }

@[simp] theorem executed_pending_self (s : System n) (k : Fin n) (pend : Pending) :
    (s.executed k pend).net.pending k =
      some { pend with rpc := .replied (s.net.server.handle pend.request).2 } :=
  Function.update_self ..

theorem step_execute {pend : Pending} (hpend : s.net.pending k = some pend)
    (hsent : pend.rpc = .sent) (hw : ¬ s.net.server.Wraps pend.request) :
    Step (Alone k) s (s.executed k pend) := by
  refine ⟨.net (.execute k), ⟨⟨trivial, fun req hreq => ?_⟩, rfl⟩, ?_⟩
  · rw [Net.executes_of_sent hpend hsent] at hreq
    obtain rfl := Option.some.inj hreq
    exact hw
  · simp only [System.step?, Net.step?, hpend, Option.bind_some, hsent, Option.map_some,
      System.executed]

theorem step_reply {pend : Pending} {reply : Reply} {phase : Phase}
    (hpend : s.net.pending k = some pend) (hrep : pend.rpc = .replied reply)
    (hrun : (s.clients k).running = some phase) :
    Step (Alone k) s (s.resume k phase (output pend.firstPut reply)) := by
  refine ⟨.reply k, ⟨⟨trivial, trivial⟩, rfl⟩, ?_⟩
  simp only [System.step?, Net.answer, hpend, Option.bind_some, hrep, hrun, Option.map_some]

theorem step_acquire (hrun : (s.clients k).running = none) (hholds : (s.clients k).holds = false) :
    Step (Alone k) s (s.send k .getting (s.clients k).holds (s.clients k).lock.get) := by
  refine ⟨.acquire k, ⟨⟨hholds, trivial⟩, rfl⟩, ?_⟩
  simp only [System.step?, hrun]

theorem step_release (hrun : (s.clients k).running = none) (hholds : (s.clients k).holds = true) :
    Step (Alone k) s (s.send k .releasing false
      ((s.clients k).lock.put released (s.clients k).lock.version.toUInt64)) := by
  refine ⟨.release k, ⟨⟨hholds, trivial⟩, rfl⟩, ?_⟩
  simp only [System.step?, hrun]

/-- A lock alone had its request answered, and the server is as it was. -/
structure Answered (cfg : Setup n) (k : Fin n) (phase : Phase) (s t : System n) (pend : Pending)
    (reply : Reply) : Prop where
  run : ReflTransGen (Step (Alone k)) s t
  reached : Reached cfg Disciplined t
  clients : t.clients = s.clients
  server : t.net.server = s.net.server
  pending : t.net.pending k = some pend
  rpc : pend.rpc = .replied reply
  running : (t.clients k).running = some phase
  waits : Waits t.clients t.net.server (t.clients k) pend phase

/-- A request that is not stored is answered. -/
theorem exists_answered (hd : cfg.Distinct) (hs : Reached cfg Disciplined s) {phase : Phase}
    (hrun : (s.clients k).running = some phase)
    (hkeeps : ∀ pend args, s.net.pending k = some pend →
      Waits s.clients s.net.server (s.clients k) pend phase → pend.rpc = .sent →
      pend.request = .put args → ¬ s.net.server.Stores args) :
    ∃ t pend reply, Answered cfg k phase s t pend reply := by
  have hsafe := safe_of_reached hd (noWrap_of_disciplined hs)
  obtain ⟨pend, hpend, hwait⟩ := (hsafe.standing k).waits _ hrun
  cases hrpc : pend.rpc with
  | replied reply => exact ⟨s, pend, reply, .refl, hs, rfl, rfl, hpend, hrpc, hrun, hwait⟩
  | sent =>
    have hkept : ∀ args, pend.request = .put args → ¬ s.net.server.Stores args :=
      fun args => hkeeps pend args hpend hwait hrpc
    have hserver : (s.net.server.handle pend.request).1 = s.net.server := by
      cases hreq : pend.request with
      | get args => rfl
      | put args => simp only [KVServer.handle, put_of_not_stores (hkept args hreq)]
    have hw : ¬ s.net.server.Wraps pend.request := by
      cases hreq : pend.request with
      | get args => exact id
      | put args => exact fun hwraps => hkept args hreq hwraps.1
    have hstep := ReflTransGen.single (step_execute hpend hrpc hw)
    have ht := hs.alone hstep
    obtain ⟨p, hp, hwait'⟩ :=
      ((safe_of_reached hd (noWrap_of_disciplined ht)).standing k).waits phase hrun
    obtain rfl : { pend with rpc := .replied (s.net.server.handle pend.request).2 } = p :=
      Option.some.inj ((executed_pending_self ..).symm.trans hp)
    exact ⟨_, _, _, hstep, ht, rfl, hserver, hp, rfl, hrun, hwait'⟩

end Alone

def Free (kv : KVServer) (key : String) : Prop :=
  ∀ val, kv.store.lookup key = some val → val.value = released

section Owner

/-- A lock that waits while the key has its value has nothing left to store. -/
theorem Standing.not_stores {clients : Fin n → Client} {kv : KVServer} {pend : Pending}
    (hstand : Standing clients kv (clients k) (some pend)) (hap : Apart clients)
    (hshows : Shows kv (clients k).lock) (hrun : (clients k).running ≠ some .releasing)
    {args : PutArgs} (hsent : pend.rpc = .sent) (hargs : pend.request = .put args) :
    ¬ kv.Stores args := by
  intro hst
  obtain ⟨val, hval, hown⟩ := hshows
  have hdue := (hstand.fenced hsent args hargs).due hst
  rcases hstand.request_cases with hreq | ⟨version, -, hreq⟩ | ⟨hrel, -⟩
  · cases hargs.symm.trans hreq
  · obtain rfl := Request.put.inj (hargs.symm.trans hreq)
    rcases hdue val hval with ⟨-, hfree⟩ | ⟨hfree, -⟩
    · exact hap.released k (hown.symm.trans hfree)
    · exact hap.released k hfree
  · exact hrun hrel

variable (hd : cfg.Distinct)
include hd

/-- A lock that reads its own value after `ErrMaybe` holds. -/
theorem exists_holding_of_checking (hs : Reached cfg Disciplined s)
    (hshows : Shows s.net.server (s.clients k).lock)
    (hrun : (s.clients k).running = some .checking) :
    ∃ t, ReflTransGen (Step (Alone k)) s t ∧ t.net.server = s.net.server ∧
      (t.clients k).running = none ∧ (t.clients k).holds = true := by
  obtain ⟨t, pend, reply, ht⟩ := exists_answered hd hs hrun fun p args _ hwait _ hargs => by
    cases hwait.2.1.1.symm.trans hargs
  obtain ⟨rep, rfl, -⟩ := ht.waits.2.1.2 reply ht.rpc
  have hattends := (tended_of_reached hd ht.reached).attends k
    (by rw [ht.server, ht.clients]; exact hshows)
  rw [ht.running] at hattends
  have hstep := step_reply ht.pending ht.rpc ht.running
  rw [resume_own (hattends pend rep ht.pending ht.rpc)] at hstep
  exact ⟨_, ht.run.tail hstep, ht.server, by simp, by simp⟩

/-- A lock whose value the key has holds or comes to hold by itself, if it is not giving it back. -/
theorem exists_holding (hs : Reached cfg Disciplined s)
    (hshows : Shows s.net.server (s.clients k).lock)
    (hrun : (s.clients k).running ≠ some .releasing) :
    ∃ t, ReflTransGen (Step (Alone k)) s t ∧ t.net.server = s.net.server ∧
      (t.clients k).running = none ∧ (t.clients k).holds = true := by
  have hsafe := safe_of_reached hd (noWrap_of_disciplined hs)
  have htended := tended_of_reached hd hs
  have hattends := htended.attends k hshows
  cases hphase : (s.clients k).running with
  | none =>
    rw [hphase] at hattends
    exact ⟨s, .refl, rfl, hphase, hattends⟩
  | some phase => cases phase with
    | releasing => exact absurd hphase hrun
    | checking => exact exists_holding_of_checking hd hs hshows hphase
    | getting =>
      rw [hphase] at hattends
      cases hattends.symm.trans (htended.waiting k hphase)
    | putting version =>
      obtain ⟨t, pend, reply, ht⟩ := exists_answered hd hs hphase fun p args hp _ hsent hargs =>
        (hp ▸ hsafe.standing k).not_stores (hsafe.apart hd) hshows hrun hsent hargs
      have hshows' : Shows t.net.server (t.clients k).lock := by rwa [ht.server, ht.clients]
      have hrest := ht.waits.2.1.2
      rw [ht.rpc] at hrest
      obtain ⟨⟨rsp, rfl⟩, -⟩ := hrest
      have hstep := step_reply ht.pending ht.rpc ht.running
      by_cases hok : (output pend.firstPut (.put rsp)).err = .ok
      · rw [resume_ok hok] at hstep
        exact ⟨_, ht.run.tail hstep, ht.server, by simp, by simp⟩
      · have hmaybe : (output pend.firstPut (.put rsp)).err = .errMaybe := by
          by_contra hmaybe
          exact (tended_of_reached hd ht.reached).not_shows_of_lost ht.running ht.pending ht.rpc
            hok hmaybe hshows'
        rw [resume_maybe hmaybe] at hstep
        obtain ⟨u, hu, hserver, hnone, hholds⟩ :=
          exists_holding_of_checking (k := k) hd (hs.alone (ht.run.tail hstep))
            (by simpa using hshows') (by simp)
        exact ⟨u, (ht.run.tail hstep).trans hu, hserver.trans ht.server, hnone, hholds⟩

/-- A lock in its `Release` whose value the key has frees it. -/
theorem exists_free_of_releasing (hs : Reached cfg Disciplined s)
    (hshows : Shows s.net.server (s.clients k).lock)
    (hrun : (s.clients k).running = some .releasing)
    (hroom : s.net.server.version (cfg.name k) + 1 ≠ 0) :
    ∃ t, ReflTransGen (Step (Alone k)) s t ∧ Free t.net.server (cfg.name k) ∧
      t.net.server.version (cfg.name k) = s.net.server.version (cfg.name k) + 1 := by
  have hsafe := safe_of_reached hd (noWrap_of_disciplined hs)
  obtain ⟨pend, hpend, -, hreq, hrest⟩ := (hsafe.standing k).waits _ hrun
  have hattends := (tended_of_reached hd hs).attends k hshows
  rw [hrun] at hattends
  cases hrpc : pend.rpc with
  | replied reply =>
    rw [hrpc] at hrest
    have hlt : (s.clients k).lock.version.toUInt64 <
        s.net.server.version (s.clients k).lock.curKey := hrest.2
    rw [hattends] at hlt
    exact absurd hlt (UInt64.lt_irrefl _)
  | sent =>
    have hst : s.net.server.Stores ((s.clients k).lock.putArgs released
        (s.clients k).lock.version.toUInt64) := hattends.symm
    have hkey := (hsafe.made k).1
    have hw : ¬ s.net.server.Wraps pend.request := by
      rw [hreq]
      refine fun hwraps => hroom ?_
      rw [← hkey, hattends]
      exact hwraps.2
    refine ⟨_, .single (step_execute hpend hrpc hw), fun val hval => ?_, ?_⟩
    · simp only [System.executed, hreq] at hval
      rw [← hkey] at hval
      rw [← Option.some.inj ((lookup_put_self hst).symm.trans hval)]
      rfl
    · simp only [System.executed, hreq]
      rw [← hkey, hattends]
      exact version_put_self hst

/-- The lock whose value the key has can free it by itself. -/
theorem exists_free (hs : Reached cfg Disciplined s)
    (hshows : Shows s.net.server (s.clients k).lock)
    (hroom : s.net.server.version (cfg.name k) + 1 ≠ 0) :
    ∃ t, ReflTransGen (Step (Alone k)) s t ∧ Free t.net.server (cfg.name k) ∧
      t.net.server.version (cfg.name k) = s.net.server.version (cfg.name k) + 1 := by
  by_cases hrun : (s.clients k).running = some .releasing
  · exact exists_free_of_releasing hd hs hshows hrun hroom
  · obtain ⟨t, hst, hserver, hnone, hholds⟩ := exists_holding hd hs hshows hrun
    have hstep := hst.tail (step_release hnone hholds)
    have hu := hs.alone hstep
    have hshows' : Shows t.net.server (t.clients k).lock := by
      have hsafe := safe_of_reached hd (noWrap_of_disciplined (hs.alone hst))
      exact ⟨_, (hsafe.standing k).owned hholds, rfl⟩
    obtain ⟨u, hu, hfree, hver⟩ := exists_free_of_releasing (k := k) hd hu
      (by simpa using hshows') (by simp) (by simpa [hserver] using hroom)
    exact ⟨u, hstep.trans hu, hfree, by rw [hver, send_server, hserver]⟩

end Owner

section Waiter

theorem Free.get {kv : KVServer} {key : String} (h : Free kv key) :
    (kv.get ⟨key⟩).err = .errNoKey ∨ (kv.get ⟨key⟩).value = released := by
  unfold KVServer.get
  cases hval : kv.store.lookup key with
  | none => exact .inl rfl
  | some val => exact .inr (h val hval)

/-- The key that a lock waits for is free, and its version has a successor. -/
structure Open (cfg : Setup n) (k : Fin n) (s : System n) : Prop where
  reached : Reached cfg Disciplined s
  free : Free s.net.server (s.clients k).lock.curKey
  room : s.net.server.version (s.clients k).lock.curKey + 1 ≠ 0

def CanTake (k : Fin n) (s : System n) : Prop :=
  ∃ t, ReflTransGen (Step (Alone k)) s t ∧ (t.clients k).holds = true

theorem CanTake.of_run (hst : ReflTransGen (Step (Alone k)) s t) (h : CanTake k t) :
    CanTake k s := by
  obtain ⟨u, hu, hholds⟩ := h
  exact ⟨u, hst.trans hu, hholds⟩

theorem CanTake.of_return {version : Int64} : CanTake k (s.return k version true) :=
  ⟨_, .refl, by simp⟩

theorem Open.send (h : Open cfg k s) {phase : Phase} {holds : Bool} {inp : KvInput}
    (hst : ReflTransGen (Step (Alone k)) s (s.send k phase holds inp)) :
    Open cfg k (s.send k phase holds inp) :=
  ⟨h.reached.alone hst, by simpa using h.free, by simpa using h.room⟩

theorem Open.answered (h : Open cfg k s) {phase : Phase} {pend : Pending} {reply : Reply}
    (ht : Answered cfg k phase s t pend reply) : Open cfg k t :=
  ⟨ht.reached, by rw [ht.server, ht.clients]; exact h.free,
    by rw [ht.server, ht.clients]; exact h.room⟩

/-- A `Put` that was sent with the version of the key takes it. -/
theorem Open.canTake_of_stores (h : Open cfg k s) {version : Tversion} {pend : Pending}
    (hrun : (s.clients k).running = some (.putting version)) (hpend : s.net.pending k = some pend)
    (hsent : pend.rpc = .sent)
    (hreq : pend.request = .put ((s.clients k).lock.putArgs (s.clients k).lock.value version))
    (hst : version = s.net.server.version (s.clients k).lock.curKey) : CanTake k s := by
  have hstores : s.net.server.Stores
      ((s.clients k).lock.putArgs (s.clients k).lock.value version) := hst
  have hw : ¬ s.net.server.Wraps pend.request := by
    rw [hreq]
    exact fun hwraps => h.room (hst ▸ hwraps.2)
  have hexec := step_execute hpend hsent hw
  have hrep : (s.net.server.handle pend.request).2 = .put ⟨.ok⟩ := by
    simp only [hreq, KVServer.handle, put_of_stores hstores]
  have hstep := step_reply (executed_pending_self s k pend) (congrArg Rpc.replied hrep) hrun
  rw [resume_ok (by simp [output])] at hstep
  exact .of_run (.head hexec (.single hstep)) .of_return

/-- A lock that has sent its `Get` to the server finds the key free and takes it. -/
theorem Open.canTake_of_get (h : Open cfg k s) (hrun : (s.clients k).running = some .getting)
    {pend : Pending} (hpend : s.net.pending k = some pend) (hsent : pend.rpc = .sent)
    (hreq : pend.request = .get ⟨(s.clients k).lock.curKey⟩) : CanTake k s := by
  have hexec := step_execute hpend hsent (by rw [hreq]; exact id)
  have hrep : (s.net.server.handle pend.request).2 =
      .get (s.net.server.get ⟨(s.clients k).lock.curKey⟩) := by
    rw [hreq]
    rfl
  have hstep := step_reply (executed_pending_self s k pend) (congrArg Rpc.replied hrep) hrun
  rw [resume_free h.free.get] at hstep
  have hserver : (s.executed k pend).net.server = s.net.server := by
    simp only [System.executed, hreq, KVServer.handle]
  have hopen : Open cfg k (s.executed k pend) :=
    ⟨h.reached.alone (.single hexec), hserver ▸ h.free, hserver ▸ h.room⟩
  refine .of_run (.head hexec (.single hstep)) ?_
  refine (hopen.send (.single hstep)).canTake_of_stores (send_running ..) (send_pending_self ..)
    rfl (by rw [send_clients_self]; rfl) ?_
  simp only [send_server, send_clients_self, hserver]
  exact get_version s.net.server _

/-- A lock that goes on with a `Get` takes the key. -/
theorem Open.canTake_of_send (h : Open cfg k s) {holds : Bool}
    (hst : ReflTransGen (Step (Alone k)) s (s.send k .getting holds (s.clients k).lock.get)) :
    CanTake k s :=
  .of_run hst ((h.send hst).canTake_of_get (send_running ..) (send_pending_self ..) rfl
    (by rw [send_clients_self]; rfl))

theorem Open.canTake_of_idle (h : Open cfg k s) (hrun : (s.clients k).running = none) :
    CanTake k s := by
  cases hholds : (s.clients k).holds with
  | true => exact ⟨s, .refl, hholds⟩
  | false => exact h.canTake_of_send (.single (step_acquire hrun hholds))

variable (hd : cfg.Distinct)
include hd

theorem Open.canTake_of_checking (h : Open cfg k s)
    (hrun : (s.clients k).running = some .checking) : CanTake k s := by
  obtain ⟨t, pend, reply, ht⟩ := exists_answered hd h.reached hrun fun p args _ hwait _ hargs => by
    cases hwait.2.1.1.symm.trans hargs
  have hstep := step_reply ht.pending ht.rpc ht.running
  refine .of_run ht.run ?_
  by_cases hown : (output pend.firstPut reply).value = (t.clients k).lock.value
  · rw [resume_own hown] at hstep
    exact .of_run (.single hstep) .of_return
  · rw [resume_other hown] at hstep
    exact (h.answered ht).canTake_of_send (.single hstep)

theorem Open.canTake_of_putting (h : Open cfg k s) {version : Tversion}
    (hrun : (s.clients k).running = some (.putting version)) : CanTake k s := by
  have hsafe := safe_of_reached hd (noWrap_of_disciplined h.reached)
  obtain ⟨p, hp, hwait⟩ := (hsafe.standing k).waits _ hrun
  by_cases hfresh : p.rpc = .sent ∧ version = s.net.server.version (s.clients k).lock.curKey
  · exact h.canTake_of_stores hrun hp hfresh.1 hwait.2.1.1 hfresh.2
  have hkeeps : ∀ q args, s.net.pending k = some q →
      Waits s.clients s.net.server (s.clients k) q (.putting version) → q.rpc = .sent →
      q.request = .put args → ¬ s.net.server.Stores args := by
    intro q args hq _ hsent hargs hst
    obtain rfl := Option.some.inj (hp.symm.trans hq)
    obtain rfl := Request.put.inj (hwait.2.1.1.symm.trans hargs)
    exact hfresh ⟨hsent, hst⟩
  obtain ⟨t, pend, reply, ht⟩ := exists_answered hd h.reached hrun hkeeps
  have hopen := h.answered ht
  have hstep := step_reply ht.pending ht.rpc ht.running
  refine .of_run ht.run ?_
  by_cases hok : (output pend.firstPut reply).err = .ok
  · rw [resume_ok hok] at hstep
    exact .of_run (.single hstep) .of_return
  by_cases hmaybe : (output pend.firstPut reply).err = .errMaybe
  · rw [resume_maybe hmaybe] at hstep
    have hnext := hopen.send (.single hstep)
    exact .of_run (.single hstep) (hnext.canTake_of_checking hd (send_running ..))
  · rw [resume_lost hok hmaybe] at hstep
    exact hopen.canTake_of_send (.single hstep)

theorem Open.canTake_of_getting (h : Open cfg k s)
    (hrun : (s.clients k).running = some .getting) : CanTake k s := by
  obtain ⟨t, pend, reply, ht⟩ := exists_answered hd h.reached hrun fun p args _ hwait _ hargs => by
    cases hwait.1.symm.trans hargs
  have hopen := h.answered ht
  have hstep := step_reply ht.pending ht.rpc ht.running
  refine .of_run ht.run ?_
  by_cases hfree : (output pend.firstPut reply).err = .errNoKey ∨
      (output pend.firstPut reply).value = released
  · rw [resume_free hfree] at hstep
    have hnext := hopen.send (.single hstep)
    exact .of_run (.single hstep) (hnext.canTake_of_putting hd (send_running ..))
  · rw [resume_taken hfree] at hstep
    exact hopen.canTake_of_send (.single hstep)

/-- The `Put` of a `Release` of a key that is free has an old version. -/
theorem Open.canTake_of_releasing (h : Open cfg k s)
    (hrun : (s.clients k).running = some .releasing) : CanTake k s := by
  have hsafe := safe_of_reached hd (noWrap_of_disciplined h.reached)
  have hap := hsafe.apart hd
  obtain ⟨val, hval⟩ := Option.isSome_iff_exists.mp
    ((tended_of_reached hd h.reached).present k hrun)
  have hkeeps : ∀ q args, s.net.pending k = some q →
      Waits s.clients s.net.server (s.clients k) q .releasing → q.rpc = .sent →
      q.request = .put args → ¬ s.net.server.Stores args := by
    intro q args _ hwait hsent hargs hst
    have hdue := (hwait.fenced hsent args hargs).due hst
    obtain rfl := Request.put.inj (hwait.2.1.symm.trans hargs)
    rcases hdue val hval with ⟨hne, -⟩ | ⟨-, j, -, -, -, hj⟩
    · exact hne rfl
    · exact hap.released j (hj.symm.trans (h.free val hval))
  obtain ⟨t, pend, reply, ht⟩ := exists_answered hd h.reached hrun hkeeps
  have hopen := h.answered ht
  have hstep := step_reply ht.pending ht.rpc ht.running
  have hserver : (t.resume k .releasing (output pend.firstPut reply)).net.server = t.net.server :=
    rfl
  have hnext : Open cfg k (t.resume k .releasing (output pend.firstPut reply)) := by
    refine ⟨hopen.reached.alone (.single hstep), ?_, ?_⟩ <;> rw [hserver]
    · simpa [System.resume] using hopen.free
    · simpa [System.resume] using hopen.room
  exact .of_run (ht.run.tail hstep) (hnext.canTake_of_idle (by simp [System.resume]))

/-- A lock alone takes a key that is free, wherever it stands. -/
theorem Open.canTake (h : Open cfg k s) : CanTake k s := by
  cases hrun : (s.clients k).running with
  | none => exact h.canTake_of_idle hrun
  | some phase => cases phase with
    | getting => exact h.canTake_of_getting hd hrun
    | putting version => exact h.canTake_of_putting hd hrun
    | checking => exact h.canTake_of_checking hd hrun
    | releasing => exact h.canTake_of_releasing hd hrun

end Waiter

theorem succ_ne_zero_of_lt {x : Tversion} (h : x.toNat + 1 < 2 ^ 64) : x + 1 ≠ 0 := by
  intro hz
  have hnat := congrArg UInt64.toNat hz
  rw [UInt64.toNat_add] at hnat
  change (x.toNat + 1) % 2 ^ 64 = 0 at hnat
  omega

/-- Whatever was lost or is still on its way, a lock can have its key: one lock, the one whose
value the key has, frees it by itself, and then the lock that wants it takes it by itself. The key
must have two more versions. -/
theorem lock_can_be_acquired {n : ℕ} {cfg : Setup n} (hd : cfg.Distinct) {s : System n}
    (hs : Reached cfg Disciplined s) (i : Fin n)
    (hroom : (s.net.server.version (cfg.name i)).toNat + 2 < 2 ^ 64) :
    ∃ j t u, ReflTransGen (Step (Alone j)) s t ∧ ReflTransGen (Step (Alone i)) t u ∧
      (u.clients i).holds = true := by
  by_cases hfree : Free s.net.server (cfg.name i)
  · have hkey := ((safe_of_reached hd (noWrap_of_disciplined hs)).made i).1
    obtain ⟨u, hu, hholds⟩ := Open.canTake hd (k := i)
      ⟨hs, hkey ▸ hfree, hkey ▸ succ_ne_zero_of_lt (by omega)⟩
    exact ⟨i, s, u, .refl, hu, hholds⟩
  · unfold Free at hfree
    push Not at hfree
    obtain ⟨val, hval, hne⟩ := hfree
    obtain ⟨j, hkey, hvalue⟩ := ((tended_of_reached hd hs).values _ val hval).resolve_left hne
    have hname : cfg.name j = cfg.name i :=
      ((safe_of_reached hd (noWrap_of_disciplined hs)).made j).1.symm.trans hkey
    obtain ⟨t, hst, hfree, hver⟩ := exists_free hd hs (k := j) ⟨val, hkey ▸ hval, hvalue.symm⟩
      (hname ▸ succ_ne_zero_of_lt (by omega))
    have ht := hs.alone hst
    have hkey' := ((safe_of_reached hd (noWrap_of_disciplined ht)).made i).1
    rw [hname] at hfree hver
    have hnat : (t.net.server.version (cfg.name i)).toNat =
        (s.net.server.version (cfg.name i)).toNat + 1 := by
      rw [hver, UInt64.toNat_add]
      exact Nat.mod_eq_of_lt (by change _ + 1 < _; omega)
    obtain ⟨u, hu, hholds⟩ := Open.canTake hd (k := i)
      ⟨ht, hkey' ▸ hfree, hkey' ▸ succ_ne_zero_of_lt (by omega)⟩
    exact ⟨j, t, u, hst, hu, hholds⟩

/-- The first lock has the key without knowing it, and two of its requests are still on their way;
the second lock has read the key. -/
def behindRun : List (Event 2) :=
  [.acquire 1, .net (.execute 1), .acquire 0, .net (.execute 0), .reply 0, .net (.fail 0),
    .net (.fail 0), .net (.fail 0), .net (.late 0), .reply 1]

theorem lock_can_be_acquired_behind : ∃ s, Reached twoLocks Disciplined s ∧
    (s.clients 0).holds = false ∧ s.net.late.length = 2 ∧
    (s.net.server.version "l").toNat + 2 < 2 ^ 64 ∧
    ∃ j t u, ReflTransGen (Step (Alone j)) s t ∧ ReflTransGen (Step (Alone 1)) t u ∧
      (u.clients 1).holds = true := by
  have hrun : ((initial twoLocks).run Disciplined behindRun).any
      (fun s => (s.clients 0).holds = false ∧ s.net.late.length = 2 ∧
        (s.net.server.version "l").toNat + 2 < 2 ^ 64) = true := by
    decide +kernel
  obtain ⟨s, hsteps, htest⟩ := System.exists_of_run hrun
  obtain ⟨hholds, hlate, hroom⟩ := of_decide_eq_true htest
  have hs : Reached twoLocks Disciplined s := ⟨_, rfl, hsteps⟩
  exact ⟨s, hs, hholds, hlate, hroom, lock_can_be_acquired twoLocks_distinct hs 1 hroom⟩

end DistributedLabs.LockClients
