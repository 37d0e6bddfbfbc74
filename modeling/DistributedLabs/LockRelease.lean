import DistributedLabs.LockSafety

/-!
# Releasing a lock

While a lock holds its key, nothing changes the key. Once it is in its `Release`, the next
change of the key is the one that frees it, and the `Release` does not return before that.
-/

namespace DistributedLabs.LockClients

open KvServer (Err Tversion PutArgs GetArgs PutReply GetReply)
open KvClerks (KvInput KvOutput)
open Kvsrv TransitionRuns Relation

variable {n : ℕ} {cfg : Setup n} {s t : System n} {e : Event n} {i : Fin n}

/-- A lock that goes on calls its clerk again or returns. -/
theorem resume_cases (s : System n) (i : Fin n) (phase : Phase) (out : KvOutput) :
    (∃ phase' holds inp, s.resume i phase out = s.send i phase' holds inp) ∨
      ∃ version holds, s.resume i phase out = s.return i version holds := by
  cases phase with
  | getting =>
    by_cases h : out.err = .errNoKey ∨ out.value = released
    · exact .inl ⟨_, _, _, resume_free h⟩
    · exact .inl ⟨_, _, _, resume_taken h⟩
  | putting version =>
    by_cases h : out.err = .ok
    · exact .inr ⟨_, _, resume_ok h⟩
    · by_cases h' : out.err = .errMaybe
      · exact .inl ⟨_, _, _, resume_maybe h'⟩
      · exact .inl ⟨_, _, _, resume_lost h h'⟩
  | checking =>
    by_cases h : out.value = (s.clients i).lock.value
    · exact .inr ⟨_, _, resume_own h⟩
    · exact .inl ⟨_, _, _, resume_other h⟩
  | releasing => exact .inr ⟨_, _, rfl⟩

theorem resume_server (s : System n) (i : Fin n) (phase : Phase) (out : KvOutput) :
    (s.resume i phase out).net.server = s.net.server := by
  rcases resume_cases s i phase out with ⟨phase', holds, inp, h⟩ | ⟨version, holds, h⟩
  · rw [h]
    rfl
  · rw [h]
    rfl

theorem resume_of_ne {j : Fin n} (hij : i ≠ j) (phase : Phase) (out : KvOutput) :
    (s.resume j phase out).clients i = s.clients i ∧
      (s.resume j phase out).net.pending i = s.net.pending i := by
  rcases resume_cases s j phase out with ⟨phase', holds, inp, h⟩ | ⟨version, holds, h⟩
  · rw [h]
    exact ⟨Function.update_of_ne hij _ _, Function.update_of_ne hij _ _⟩
  · rw [h]
    exact ⟨Function.update_of_ne hij _ _, Function.update_of_ne hij _ _⟩

/-- A step leaves the server as it is, or the server executes a request that was fenced. -/
theorem Safe.server_step (hs : Safe cfg s) (hw : NoWrap s e) (h : s.step? e = some t) :
    t.net.server = s.net.server ∨ ∃ req, Fenced s.clients s.net.server req ∧
      ¬ s.net.server.Wraps req ∧ t.net.server = (s.net.server.handle req).1 := by
  cases step_action h with
  | acquire => exact .inl rfl
  | release => exact .inl rfl
  | reply hans hrun => exact .inl (resume_server s _ _ _)
  | net hnet => cases hnet with
    | fail => exact .inl rfl
    | @late _ req hreq =>
      exact .inr ⟨req, fun args hargs => hs.late args (hargs ▸ List.mem_of_getElem? hreq),
        hw req hreq, rfl⟩
    | @execute k pend hpend hrpc =>
      have hstand := hs.standing k
      rw [hpend] at hstand
      exact .inr ⟨pend.request, hstand.fenced hrpc, hw _ (Net.executes_of_sent hpend hrpc), rfl⟩

/-- While a lock holds its key, no step changes the key. -/
theorem Safe.held_key (hs : Safe cfg s) (hd : cfg.Distinct) (hw : NoWrap s e)
    (h : s.step? e = some t) (hholds : (s.clients i).holds = true) :
    t.net.server.store.lookup (cfg.name i) = s.net.server.store.lookup (cfg.name i) := by
  rw [← (hs.made i).1]
  rcases hs.server_step hw h with hsame | ⟨req, hreq, hwrap, hserver⟩
  · rw [hsame]
  · have hown : Owned s.net.server (s.clients i).lock := (hs.standing i).owned hholds
    rw [hserver]
    cases req with
    | get args => rfl
    | put args =>
      exact (hreq args rfl).put_keeps (hs.apart hd) hwrap ((hs.standing i).not_releasing hholds)
        hown rfl

/-- The key of a lock in its `Release` keeps the value of the lock until it is freed. -/
theorem Safe.next_content (hs : Safe cfg s) (hd : cfg.Distinct) (hw : NoWrap s e)
    (h : s.step? e = some t) (hown : Owned s.net.server (s.clients i).lock) :
    Owned t.net.server (s.clients i).lock ∨ t.net.server.store.lookup (s.clients i).lock.curKey =
      some ⟨(s.clients i).lock.version + 1, released⟩ := by
  rcases hs.server_step hw h with hsame | ⟨req, hreq, hwrap, hserver⟩
  · rw [hsame]
    exact .inl hown
  · rw [hserver]
    cases req with
    | get args => exact .inl hown
    | put args =>
      have hap := hs.apart hd
      rcases (hreq args rfl).put_cases hwrap (s.clients i).lock.curKey with
        hsame | ⟨hk, hst, hdue, -⟩
      · exact .inl (hsame.trans hown)
      · right
        have hcur : s.net.server.store.lookup args.key =
            some ⟨(s.clients i).lock.version, (s.clients i).lock.value⟩ := by
          rw [← hk]
          exact hown
        rcases hdue _ hcur with ⟨-, hfree⟩ | ⟨hrel, j, hkey, -, hver, hval⟩
        · exact absurd hfree (hap.released i)
        · obtain rfl := hap.value i j (hk.trans hkey.symm) hval
          change (s.net.server.put args).1.store.lookup _ = _
          rw [hk, lookup_put_self hst, hrel, ← hver, Int64.toInt64_toUInt64]

section Until

/-- Any step but the one in which lock `i` gets an answer. -/
def Before (i : Fin n) (s : System n) (e : Event n) : Prop := e ≠ .reply i ∧ NoWrap s e

instance (i : Fin n) (s : System n) (e : Event n) : Decidable (Before i s e) :=
  inferInstanceAs (Decidable (_ ∧ _))

/-- Until its answer comes, a lock in its `Release` stays there, and its request stays on its
way until it is executed. -/
theorem releasing_step (hrun : (s.clients i).running = some .releasing) (hne : e ≠ .reply i)
    (h : s.step? e = some t) : t.clients i = s.clients i ∧
      (e ≠ .net (.execute i) → ∀ pend, s.net.pending i = some pend → pend.rpc = .sent →
        ∃ pend', t.net.pending i = some pend' ∧ pend'.rpc = .sent) := by
  have hkept {j : Fin n} {phase : Phase} {holds : Bool} {inp : KvInput}
      (hidle : (s.clients j).running = none) :
      (s.send j phase holds inp).clients i = s.clients i ∧
        (s.send j phase holds inp).net.pending i = s.net.pending i := by
    have hij : i ≠ j := by
      rintro rfl
      rw [hrun] at hidle
      cases hidle
    exact ⟨Function.update_of_ne hij _ _, Function.update_of_ne hij _ _⟩
  cases step_action h with
  | acquire hidle =>
    obtain ⟨hcl, hpend⟩ := hkept hidle
    exact ⟨hcl, fun _ pend hp hsent => ⟨pend, hpend.trans hp, hsent⟩⟩
  | release hidle =>
    obtain ⟨hcl, hpend⟩ := hkept hidle
    exact ⟨hcl, fun _ pend hp hsent => ⟨pend, hpend.trans hp, hsent⟩⟩
  | @reply j out phase hans hrun' =>
    have hij : i ≠ j := fun heq => hne (heq ▸ rfl)
    obtain ⟨hcl, hpend⟩ := resume_of_ne (s := s) hij phase out
    exact ⟨hcl, fun _ pend hp hsent => ⟨pend, hpend.trans hp, hsent⟩⟩
  | net hnet =>
    refine ⟨rfl, fun hexec pend hp hsent => ?_⟩
    cases hnet with
    | late => exact ⟨pend, hp, hsent⟩
    | @fail k pend' hpend =>
      by_cases hik : i = k
      · subst hik
        exact ⟨_, Function.update_self _ _ _, rfl⟩
      · exact ⟨pend, (Function.update_of_ne hik _ _).trans hp, hsent⟩
    | @execute k pend' hpend hrpc =>
      have hik : i ≠ k := fun heq => hexec (heq ▸ rfl)
      exact ⟨pend, (Function.update_of_ne hik _ _).trans hp, hsent⟩

/-- The request of a `Release` frees the key that the lock still has. -/
theorem Safe.execute_release (hs : Safe cfg s) (hrun : (s.clients i).running = some .releasing)
    (hown : Owned s.net.server (s.clients i).lock) (h : s.step? (.net (.execute i)) = some t) :
    t.net.server.store.lookup (s.clients i).lock.curKey =
      some ⟨(s.clients i).lock.version + 1, released⟩ := by
  obtain ⟨p, hp', -, hreq, -⟩ := (hs.standing i).waits _ hrun
  cases step_action h with
  | net hnet => cases hnet with
    | execute hpend hrpc =>
      obtain rfl := Option.some.inj (hpend.symm.trans hp')
      rw [hreq]
      have hst : s.net.server.Stores ((s.clients i).lock.putArgs released
          (s.clients i).lock.version.toUInt64) := by
        change _ = s.net.server.version (s.clients i).lock.curKey
        rw [KVServer.version, hown]
        rfl
      have hlook := lookup_put_self hst
      rw [show ((s.clients i).lock.putArgs released
        (s.clients i).lock.version.toUInt64).version.toInt64 = (s.clients i).lock.version from
        Int64.toInt64_toUInt64 _] at hlook
      exact hlook

def Freed (s : System n) (lk : Lock) : Prop :=
  s.net.server.store.lookup lk.curKey = some ⟨lk.version + 1, released⟩

/-- How far a `Release` that began in `s₁` is: its request is on its way and the key is still
that of the lock, or the key has been freed since. -/
def Freeing (s₁ : System n) (i : Fin n) (t : System n) : Prop :=
  (Owned t.net.server (s₁.clients i).lock ∧
      ∃ pend, t.net.pending i = some pend ∧ pend.rpc = .sent) ∨
    ∃ m, ReflTransGen (Step (Before i)) s₁ m ∧ ReflTransGen (Step (Before i)) m t ∧
      Freed m (s₁.clients i).lock

theorem Safe.freeing_step {s₁ : System n} (hs : Safe cfg s) (hd : cfg.Distinct)
    (hreach : ReflTransGen (Step (Before i)) s₁ s) (hcl : s.clients i = s₁.clients i)
    (hrun : (s.clients i).running = some .releasing) (hf : Freeing s₁ i s)
    (hne : e ≠ .reply i) (hw : NoWrap s e) (h : s.step? e = some t) : Freeing s₁ i t := by
  have hstep : Step (Before i) s t := ⟨e, ⟨hne, hw⟩, h⟩
  rcases hf with ⟨hown, pend, hp, hsent⟩ | ⟨m, hm, hmt, hfreed⟩
  · by_cases hexec : e = .net (.execute i)
    · subst hexec
      refine .inr ⟨t, hreach.tail hstep, .refl, ?_⟩
      rw [← hcl] at hown ⊢
      exact hs.execute_release hrun hown h
    · rw [← hcl] at hown
      rcases hs.next_content hd hw h hown with hown' | hfreed
      · rw [hcl] at hown'
        exact .inl ⟨hown', (releasing_step hrun hne h).2 hexec pend hp hsent⟩
      · rw [hcl] at hfreed
        exact .inr ⟨t, hreach.tail hstep, .refl, hfreed⟩
  · exact .inr ⟨m, hm, hmt.tail hstep, hfreed⟩

/-- Along a `Release` of a lock that held. -/
theorem freeing_run {s₁ : System n} (hd : cfg.Distinct) (hs₁ : Reached cfg NoWrap s₁)
    (hrun : (s₁.clients i).running = some .releasing) (hf : Freeing s₁ i s₁)
    (ht : ReflTransGen (Step (Before i)) s₁ t) :
    Reached cfg NoWrap t ∧ t.clients i = s₁.clients i ∧ Freeing s₁ i t := by
  induction ht with
  | refl => exact ⟨hs₁, rfl, hf⟩
  | tail hreach hstep ih =>
    obtain ⟨hs, hcl, hf⟩ := ih
    obtain ⟨e, ⟨hne, hw⟩, h⟩ := hstep
    have hrun' := (congrArg Client.running hcl).trans hrun
    exact ⟨hs.tail ⟨e, hw, h⟩, (releasing_step hrun' hne h).1.trans hcl,
      (safe_of_reached hd hs).freeing_step hd hreach hcl hrun' hf hne hw h⟩

/-- `Release` of a lock that holds begins with its request on the way and the key its own. -/
theorem Safe.freeing_start (hs : Safe cfg s) (hholds : (s.clients i).holds = true)
    (h : s.step? (.release i) = some t) :
    (t.clients i).lock = (s.clients i).lock ∧ (t.clients i).running = some .releasing ∧
      Freeing t i t := by
  have hown : Owned s.net.server (s.clients i).lock := (hs.standing i).owned hholds
  cases step_action h with
  | release =>
    have hcl : ((s.send i .releasing false ((s.clients i).lock.put released
        (s.clients i).lock.version.toUInt64)).clients i) =
        ⟨(s.clients i).lock, some .releasing, false⟩ := Function.update_self _ _ _
    refine ⟨by rw [hcl], by rw [hcl], .inl ⟨?_, _, Function.update_self _ _ _, rfl⟩⟩
    rw [hcl]
    exact hown

end Until

/-- As long as no version wraps: when a `Release` called by a lock that holds returns,
whatever its clerk reported, the store has passed through the version after that of the lock
with the key free, where any lock of the name that is in no method can acquire it; and while
a lock holds its key, no step of any lock changes the key, in particular no request of a
`Release` called by another lock. -/
theorem release_frees {n : ℕ} {cfg : Setup n} (hd : cfg.Distinct) {s : System n}
    (hs : Reached cfg NoWrap s) (i : Fin n) (hholds : (s.clients i).holds = true) :
    (∀ s₁ t u, s.step? (.release i) = some s₁ → ReflTransGen (Step (Before i)) s₁ t →
      t.step? (.reply i) = some u →
      ∃ m, ReflTransGen (Step (Before i)) s₁ m ∧ ReflTransGen (Step (Before i)) m t ∧
        m.net.server.store.lookup (cfg.name i) =
          some ⟨(s.clients i).lock.version + 1, released⟩ ∧
        ∀ j, cfg.name j = cfg.name i → (m.clients j).running = none →
          ∃ w, ReflTransGen (Step AnyEvent) m w ∧ (w.clients j).holds = true) ∧
    ∀ e t, NoWrap s e → s.step? e = some t →
      t.net.server.store.lookup (cfg.name i) = s.net.server.store.lookup (cfg.name i) := by
  have hsafe := safe_of_reached hd hs
  refine ⟨fun s₁ t u hrel ht hu => ?_, fun e t hw h => hsafe.held_key hd hw h hholds⟩
  obtain ⟨hlock, hrun, hstart⟩ := hsafe.freeing_start hholds hrel
  have hs₁ : Reached cfg NoWrap s₁ := hs.tail ⟨.release i, trivial, hrel⟩
  obtain ⟨hreached, -, hf⟩ := freeing_run hd hs₁ hrun hstart ht
  rcases hf with ⟨-, pend, hp, hsent⟩ | ⟨m, hm, hmt, hfreed⟩
  · simp [System.step?, Net.answer, hp, hsent] at hu
  · rw [Freed, hlock, (hsafe.made i).1] at hfreed
    refine ⟨m, hm, hmt, hfreed, fun j hj hidle => ?_⟩
    have hsm := safe_of_reached hd (freeing_run hd hs₁ hrun hstart hm).1
    refine ⟨_, acquire_at_once (i := j) (.inr ?_) hidle ((hsm.standing j).idle hidle), ?_⟩
    · rw [(hsm.made j).1, hj, KVServer.get, hfreed]
    · simp [System.taken]

def takenRun : List (Event 2) :=
  [.acquire 0, .net (.execute 0), .reply 0, .net (.execute 0), .reply 0]

def lostRun : List (Event 2) :=
  [.net (.fail 0), .net (.late 0), .net (.execute 0), .net (.fail 0), .net (.execute 0)]

theorem release_frees_late : ∃ s s₁ t, Reached twoLocks NoWrap s ∧
    (s.clients 0).holds = true ∧ s.step? (.release 0) = some s₁ ∧
    ReflTransGen (Step (Before 0)) s₁ t ∧ t.net.answer 0 = some ⟨"", 0, .errMaybe⟩ ∧
    ∃ m, ReflTransGen (Step (Before 0)) s₁ m ∧ ReflTransGen (Step (Before 0)) m t ∧
      m.net.server.store.lookup "l" = some ⟨(s.clients 0).lock.version + 1, released⟩ := by
  have hrun : ((initial twoLocks).run NoWrap takenRun).any (fun s =>
      (s.clients 0).holds && (s.step? (.release 0)).any fun s₁ =>
        (s₁.run (Before 0) lostRun).any fun t =>
          t.net.answer 0 = some ⟨"", 0, .errMaybe⟩ && (t.step? (.reply 0)).isSome) = true := by
    decide +kernel
  obtain ⟨s, hsteps, htest⟩ := System.exists_of_run hrun
  obtain ⟨hholds, hrel⟩ := Bool.and_eq_true_iff.mp htest
  obtain ⟨s₁, hs₁, hlost⟩ := (Option.any_eq_true _ _).mp hrel
  obtain ⟨t, ht, hlast⟩ := System.exists_of_run hlost
  obtain ⟨hans, hu⟩ := Bool.and_eq_true_iff.mp hlast
  obtain ⟨u, hu⟩ := Option.isSome_iff_exists.mp hu
  have hs : Reached twoLocks NoWrap s := ⟨_, rfl, hsteps⟩
  obtain ⟨m, hm, hmt, hfreed, -⟩ :=
    (release_frees twoLocks_distinct hs 0 hholds).1 s₁ t u hs₁ ht hu
  exact ⟨s, s₁, t, hs, hholds, hs₁, ht, of_decide_eq_true hans, m, hm, hmt, hfreed⟩

/-- After `2 ^ 64` changes of the key, the `Release` of a lock that never acquired frees the
key while the other lock holds it. -/
theorem release_of_other : ∃ s t, Reached twoLocks AnyEvent s ∧ twoLocks.Distinct ∧
    (s.clients 0).holds = false ∧ (s.clients 1).holds = true ∧
    s.net.server.store.lookup "l" = some ⟨0, (s.clients 1).lock.value⟩ ∧
    s.run AnyEvent [.release 0, .net (.execute 0), .reply 0] = some t ∧
    (t.clients 1).holds = true ∧
    t.net.server.store.lookup "l" = some ⟨1, released⟩ := by
  have hfirst := release_at_once (s := initial twoLocks) (i := 0) rfl rfl
  have hturned : Turned ⟨⟨"l", 0, "a"⟩, none, false⟩ [] 1 ((initial twoLocks).given 0) :=
    ⟨⟨_, rfl, hfirst⟩, rfl, rfl, rfl, rfl⟩
  obtain ⟨s, hs⟩ := hturned.iterate (2 ^ 63 - 1)
  have hnet : s.net = ⟨single "l" released (0 - 1), fun _ => none, []⟩ := hs.net
  obtain ⟨hkey, hrun⟩ := hs.second
  have hacq := acquire_at_once (s := s) (i := 1) (.inr (by rw [hnet, hkey, get_single])) hrun
    (by rw [hnet])
  have htaken : (s.taken 1).net = ⟨single "l" (s.clients 1).lock.value 0, fun _ => none, []⟩ := by
    simp only [System.taken, hnet, hkey, Lock.putArgs, version_single, put_single]
    rfl
  have hfirst' : (s.taken 1).clients 0 = ⟨⟨"l", 0, "a"⟩, none, false⟩ := by
    simp [System.taken, hs.first]
  refine ⟨s.taken 1, (s.taken 1).given 0, hs.reached.trans hacq, twoLocks_distinct, ?_, ?_, ?_,
    release_run (by rw [hfirst']) (by rw [htaken]), ?_, ?_⟩
  · rw [hfirst']
  · simp [System.taken]
  · rw [htaken, lookup_single]
    simp [System.taken]
  · simp [System.given, System.taken]
  · simp only [System.given, htaken, hfirst', Lock.putArgs]
    have hput := put_single "l" (s.clients 1).lock.value released 0 0
    exact (congrArg (fun r => r.1.store.lookup "l") hput).trans (lookup_single _ _ _)

end DistributedLabs.LockClients
