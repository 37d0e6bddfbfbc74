import DistributedLabs.KvLinearization
import DistributedLabs.RsmReplies

/-!
# What the clerks record

A call is open exactly as long as its clerk is in it, and the times of calls and returns
are read off one clock. So the calls of one clerk follow one another, and a call that
returns now does not precede any call that was made before.
-/

namespace DistributedLabs.KvClerks

open KvServer Rsm RsmCluster Linearizability LogPrefixes

variable {n c : ℕ} {B : Type*} {cfg : Setup n c B} {s t : Service n c B}

/-- What a step of the service can be, where ids are distinct and versions fresh. -/
inductive Action (cfg : Setup n c B) (s : Service n c B) : Service n c B → Prop
  | servers {e : RsmCluster.Event n Request} {sys : KvSystem n B}
      (hno : ∀ p id req, e ≠ .submit p id req)
      (h : s.sys.step? (machine cfg.codec) e = some sys) :
      Action cfg s { s with
        sys := sys, clerks := fun k => (s.clerks k).restart (s.sys.restarted e) }
  | invoke {k : Fin c} {input : KvInput} (hidle : (s.clerks k).pending = none)
      (hfresh : FreshVersion s (.invoke k input)) :
      Action cfg s (s.invoke k input)
  | begin {k : Fin c} {id : ℤ} {pend : Pending n} {p : Fin n} {sys : KvSystem n B}
      (hpend : (s.clerks k).pending = some pend) (hid : s.origin id = none)
      (h : s.sys.step? (machine cfg.codec)
        (.submit p id (request (cfg.clerkId k) pend.input)) = some sys) :
      Action cfg s (s.begin k pend id p sys)
  | answer {k : Fin c} {pend : Pending n} {p : Fin n} {channel : ℕ}
      {sub : Submit Request Reply} {result : Result Reply}
      (hpend : (s.clerks k).pending = some pend) (hrpc : pend.rpc = .running p channel)
      (hsub : (s.sys.servers p).submits[channel]? = some sub)
      (hstage : sub.stage = .returned result) :
      Action cfg s (s.setClerk k { s.clerks k with
        pending := some { pend with rpc := .replied (handler pend.input result) } })
  | returns {k : Fin c} {pend : Pending n} {reply : Reply} {output : KvOutput}
      (hpend : (s.clerks k).pending = some pend) (hrpc : pend.rpc = .replied reply)
      (hturn : turn pend.input pend.isRetry (some reply) = some output) :
      Action cfg s (s.return k pend output)
  | retries {k : Fin c} {pend : Pending n} {leader : ℕ}
      (hpend : (s.clerks k).pending = some pend) :
      Action cfg s (s.setClerk k {
        leader := leader, pending := some { pend with isRetry := true, rpc := .sent } })

theorem turn_none (inp : KvInput) (isRetry : Bool) : turn inp isRetry none = none := by
  unfold turn
  cases inp.op <;> rfl

/-- A clerk whose loop goes on returns the output of a reply, or tries again. -/
theorem resume_action {k : Fin c} {pend : Pending n} {reply : Option Reply}
    (hpend : (s.clerks k).pending = some pend) (hrpc : ∀ r ∈ reply, pend.rpc = .replied r) :
    Action cfg s (s.resume cfg k pend reply) := by
  unfold Service.resume
  split
  · next output hturn =>
    cases reply with
    | none => simp [turn_none] at hturn
    | some r => exact .returns hpend (hrpc r rfl) hturn
  · exact .retries hpend

/-- Every step whose event meets the two conditions is an action. -/
theorem step_action {e : Event n c} (hid : DistinctOpIds s e) (hfresh : FreshVersion s e)
    (h : s.step? cfg e = some t) : Action cfg s t := by
  cases e with
  | sys e =>
    have hno : ∀ p id req, e ≠ .submit p id req := by
      rintro p id req rfl
      cases h
    have hstep : s.stepServers cfg e = some t := by
      cases e <;> first | exact h | exact absurd rfl (hno _ _ _)
    obtain ⟨sys, hsys, rfl⟩ := Option.map_eq_some_iff.mp hstep
    exact .servers hno hsys
  | invoke k input =>
    simp only [Service.step?] at h
    split at h
    · cases h
    · next hidle =>
      obtain rfl := Option.some.inj h
      exact .invoke hidle hfresh
  | begin k id =>
    obtain ⟨pend, hpend, h⟩ := Option.bind_eq_some_iff.mp h
    split at h
    · obtain ⟨p, -, h⟩ := Option.bind_eq_some_iff.mp h
      obtain ⟨sys, hsys, rfl⟩ := Option.map_eq_some_iff.mp h
      exact .begin hpend hid hsys
    · cases h
  | answer k =>
    obtain ⟨pend, hpend, h⟩ := Option.bind_eq_some_iff.mp h
    split at h
    · next p channel hrpc =>
      obtain ⟨sub, hsub, h⟩ := Option.bind_eq_some_iff.mp h
      split at h
      · next result hstage =>
        obtain rfl := Option.some.inj h
        exact .answer hpend hrpc hsub hstage
      · cases h
    · cases h
  | reply k =>
    obtain ⟨pend, hpend, h⟩ := Option.bind_eq_some_iff.mp h
    split at h
    · next reply hrpc =>
      obtain rfl := Option.some.inj h
      refine resume_action hpend fun r hr => ?_
      rw [hrpc, Option.some.inj hr]
    · cases h
  | fail k =>
    obtain ⟨pend, hpend, rfl⟩ := Option.map_eq_some_iff.mp h
    exact resume_action hpend fun r hr => by cases hr

def Clerk.call (ck : Clerk n) : Option (ℕ × KvInput) :=
  ck.pending.map fun pend => (pend.number, pend.input)

theorem Clerk.call_of_pending {ck : Clerk n} {pend : Pending n} (h : ck.pending = some pend) :
    ck.call = some (pend.number, pend.input) := by
  rw [Clerk.call, h]
  rfl

theorem Clerk.restart_call (ck : Clerk n) (restarted : Option (Fin n)) :
    (ck.restart restarted).call = ck.call := by
  simp only [Clerk.call, Clerk.restart, Option.map_map]
  rfl

@[simp] theorem Service.invoke_history (s : Service n c B) (k : Fin c) (input : KvInput) :
    (s.invoke k input).history = s.history ++ [⟨k, input, s.clock, none⟩] := rfl

theorem Service.invoke_call (s : Service n c B) (k j : Fin c) (input : KvInput) :
    ((s.invoke k input).clerks j).call =
      if j = k then some (s.history.length, input) else (s.clerks j).call := by
  by_cases hj : j = k
  · subst hj
    simp [Service.invoke, Service.setClerk, Clerk.call]
  · simp [Service.invoke, Service.setClerk, hj]

theorem Service.return_call (s : Service n c B) (k j : Fin c) (pend : Pending n)
    (output : KvOutput) : ((s.return k pend output).clerks j).call =
      if j = k then none else (s.clerks j).call := by
  by_cases hj : j = k
  · subst hj
    simp [Service.return, Service.setClerk, Clerk.call]
  · simp [Service.return, Service.setClerk, hj]

structure Recorded (s : Service n c B) : Prop where
  called : ∀ (i : ℕ) op, s.history[i]? = some op → op.call < s.clock
  returned : ∀ (i : ℕ) op r, s.history[i]? = some op → op.result = some r → r.2 < s.clock
  pending : ∀ k i input, (s.clerks k).call = some (i, input) →
    ∃ op, s.history[i]? = some op ∧ op.client = k ∧ op.input = input ∧ op.result = none
  unreturned : ∀ (i : ℕ) op, s.history[i]? = some op → op.result = none →
    ∃ input, (s.clerks op.client).call = some (i, input)
  sequential : ∀ (i j : ℕ) op op', i < j → s.history[i]? = some op → s.history[j]? = some op' →
    op.client = op'.client → op.Precedes op'
  fresh : FreshVersions s.history

theorem Recorded.congr (hs : Recorded s) (hhistory : t.history = s.history)
    (hclock : t.clock = s.clock) (hcall : ∀ k, (t.clerks k).call = (s.clerks k).call) :
    Recorded t := by
  constructor <;> simp only [hhistory, hclock, hcall]
  · exact hs.called
  · exact hs.returned
  · exact hs.pending
  · exact hs.unreturned
  · exact hs.sequential
  · exact hs.fresh

/-- A clerk goes on with the call it is in. -/
theorem setClerk_call {k : Fin c} {pend pend' : Pending n} {leader : ℕ}
    (hpend : (s.clerks k).pending = some pend) (hnumber : pend'.number = pend.number)
    (hinput : pend'.input = pend.input) (j : Fin c) :
    ((s.setClerk k ⟨leader, some pend'⟩).clerks j).call = (s.clerks j).call := by
  by_cases hj : j = k
  · subst hj
    rw [Clerk.call_of_pending hpend]
    simp [Service.setClerk, Clerk.call, hnumber, hinput]
  · simp [Service.setClerk, hj]

section Invoke

variable {h : List (Operation (Fin c) KvInput KvOutput)} {k : Fin c}

/-- A stored `Put` with none behind it is the last one. -/
theorem lastStoredPut_eq {key : String} {i : ℕ} {x : Operation (Fin c) KvInput KvOutput}
    (hx : h[i]? = some x) (hstored : StoredPut k key x)
    (hlast : ∀ (j : ℕ) z, i < j → h[j]? = some z → ¬ StoredPut k key z) :
    lastStoredPut h k key = some x := by
  obtain ⟨hi, rfl⟩ := List.getElem?_eq_some_iff.mp hx
  have hsplit : h.reverse = (h.drop (i + 1)).reverse ++ h[i] :: (h.take i).reverse := by
    conv_lhs => rw [← List.take_append_drop i h, List.drop_eq_getElem_cons hi]
    simp
  refine List.find?_eq_some_iff_append.mpr ⟨by simpa using hstored, _, _, hsplit, fun z hz => ?_⟩
  obtain ⟨j, hj⟩ := List.getElem?_of_mem (List.mem_reverse.mp hz)
  rw [List.getElem?_drop] at hj
  simpa using hlast _ z (by omega) hj

/-- The version of a new `Put` differs from that of the last stored one. -/
theorem FreshVersions.concat {input : KvInput} {time : ℕ} (hh : FreshVersions h)
    (hfresh : input.op = .put →
      ∀ op ∈ lastStoredPut h k input.key, op.input.version ≠ input.version) :
    FreshVersions (h ++ [⟨k, input, time, none⟩]) := by
  intro i j x y hij hx hy hput hstored hbetween
  have hold : ∀ (m : ℕ) z, m < h.length → h[m]? = some z →
      (h ++ [⟨k, input, time, none⟩])[m]? = some z := by
    intro m z hm hz
    rwa [List.getElem?_append_left hm]
  rcases getElem?_concat_cases hx with ⟨rfl, rfl⟩ | hx
  · obtain ⟨-, -, -, r, hr, -⟩ := hstored
    cases hr
  rcases getElem?_concat_cases hy with ⟨rfl, rfl⟩ | hy
  · refine hfresh hput x (lastStoredPut_eq hx hstored fun m z him hz => ?_)
    have hm := (List.getElem?_eq_some_iff.mp hz).1
    exact hbetween m z him hm (hold m z hm hz)
  · have hj := (List.getElem?_eq_some_iff.mp hy).1
    exact hh i j x y hij hx hy hput hstored fun m z him hmj hz =>
      hbetween m z him hmj (hold m z (by omega) hz)

theorem Recorded.invoke (hs : Recorded s) {input : KvInput} (hidle : (s.clerks k).pending = none)
    (hfresh : FreshVersion s (.invoke k input)) :
    Recorded (s.invoke k input) := by
  have hcall : (s.clerks k).call = none := by rw [Clerk.call, hidle]; rfl
  have hold : ∀ {i : ℕ} {op}, s.history[i]? = some op →
      (s.history ++ [⟨k, input, s.clock, none⟩])[i]? = some op := by
    intro i op hop
    rwa [List.getElem?_append_left (List.getElem?_eq_some_iff.mp hop).1]
  constructor
  · intro i op hop
    rcases getElem?_concat_cases hop with ⟨-, rfl⟩ | hop
    · exact Nat.lt_succ_self _
    · exact (hs.called i op hop).trans (Nat.lt_succ_self _)
  · intro i op r hop hr
    rcases getElem?_concat_cases hop with ⟨-, rfl⟩ | hop
    · cases hr
    · exact (hs.returned i op r hop hr).trans (Nat.lt_succ_self _)
  · intro j i inp hj
    rw [Service.invoke_call] at hj
    split_ifs at hj with hjk
    · subst hjk
      obtain ⟨rfl, rfl⟩ := Prod.mk.inj (Option.some.inj hj)
      exact ⟨_, List.getElem?_concat_length, rfl, rfl, rfl⟩
    · obtain ⟨op, hop, hrest⟩ := hs.pending j i inp hj
      exact ⟨op, hold hop, hrest⟩
  · intro i op hop hres
    rcases getElem?_concat_cases hop with ⟨rfl, rfl⟩ | hop
    · exact ⟨input, by rw [Service.invoke_call, if_pos rfl]⟩
    · obtain ⟨inp, hinp⟩ := hs.unreturned i op hop hres
      have hne : op.client ≠ k := by
        rintro rfl
        rw [hcall] at hinp
        cases hinp
      exact ⟨inp, by rwa [Service.invoke_call, if_neg hne]⟩
  · intro i j op op' hij hop hop' hclient
    rw [Service.invoke_history] at hop
    rcases getElem?_concat_cases hop' with ⟨rfl, rfl⟩ | hop'
    · have hop : s.history[i]? = some op := by rwa [List.getElem?_append_left hij] at hop
      cases hres : op.result with
      | none =>
        obtain ⟨inp, hinp⟩ := hs.unreturned i op hop hres
        rw [hclient, hcall] at hinp
        cases hinp
      | some r => exact ⟨r, hres, hs.returned i op r hop hres⟩
    · have hj := (List.getElem?_eq_some_iff.mp hop').1
      rw [List.getElem?_append_left (hij.trans hj)] at hop
      exact hs.sequential i j op op' hij hop hop' hclient
  · exact hs.fresh.concat hfresh

end Invoke

section Return

variable {h : List (Operation (Fin c) KvInput KvOutput)} {k : Fin c} {m : ℕ}
  {result : KvOutput × ℕ}

theorem FreshVersions.return (hh : FreshVersions h)
    (hopen : ∀ op, h[m]? = some op → op.result = none)
    (hlast : ∀ (j : ℕ) op op', m < j → h[m]? = some op → h[j]? = some op' →
      op.client ≠ op'.client) :
    FreshVersions (h.modify m fun op => { op with result := some result }) := by
  intro i j x' y' hij hx' hy' hput hstored hbetween
  obtain ⟨x, hx, hxc, hxi, -, hxr⟩ := getElem?_return_cases hx'
  obtain ⟨y, hy, hyc, hyi, -, -⟩ := getElem?_return_cases hy'
  rw [hyc, hyi] at hstored hbetween
  rw [hyi] at hput ⊢
  rcases hxr with ⟨rfl, -⟩ | ⟨-, rfl⟩
  · exact absurd (hxc.symm.trans hstored.1) (hlast j x y hij hx hy)
  · refine hh i j x' y hij hx hy hput hstored fun l z hil hlj hz hzs => ?_
    have hlm : l ≠ m := by
      rintro rfl
      obtain ⟨-, -, -, r, hr, -⟩ := hzs
      rw [hopen z hz] at hr
      cases hr
    exact hbetween l z hil hlj (by rwa [getElem?_return_of_ne hlm]) hzs

theorem Recorded.return (hs : Recorded s) {pend : Pending n} {output : KvOutput}
    (hpend : (s.clerks k).pending = some pend) :
    Recorded (s.return k pend output) := by
  obtain ⟨op₀, hop₀, hclient₀, -, hres₀⟩ := hs.pending k _ _ (Clerk.call_of_pending hpend)
  have hopen : ∀ op, s.history[pend.number]? = some op → op.result = none := by
    intro op hop
    rwa [Option.some.inj (hop.symm.trans hop₀)]
  have hlast : ∀ (j : ℕ) op op', pend.number < j → s.history[pend.number]? = some op →
      s.history[j]? = some op' → op.client ≠ op'.client := by
    intro j op op' hj hop hop' hclient
    obtain ⟨r, hr, -⟩ := hs.sequential _ j op op' hj hop hop' hclient
    rw [hopen op hop] at hr
    cases hr
  constructor
  · intro i op' hop'
    obtain ⟨op, hop, -, -, hcall, -⟩ := getElem?_return_cases hop'
    rw [hcall]
    exact (hs.called i op hop).trans (Nat.lt_succ_self _)
  · intro i op' r hop' hr
    obtain ⟨op, hop, -, -, -, ⟨-, hres⟩ | ⟨-, rfl⟩⟩ := getElem?_return_cases hop'
    · obtain rfl := Option.some.inj (hres.symm.trans hr)
      exact Nat.lt_succ_self _
    · exact (hs.returned i op' r hop hr).trans (Nat.lt_succ_self _)
  · intro j i inp hj
    rw [Service.return_call] at hj
    split_ifs at hj with hjk
    obtain ⟨op, hop, hclient, hrest⟩ := hs.pending j i inp hj
    have hi : i ≠ pend.number := by
      rintro rfl
      obtain rfl := Option.some.inj (hop.symm.trans hop₀)
      exact hjk (hclient.symm.trans hclient₀)
    exact ⟨op, (getElem?_return_of_ne hi).trans hop, hclient, hrest⟩
  · intro i op' hop' hres
    obtain ⟨op, hop, -, -, -, ⟨-, hres'⟩ | ⟨hi, rfl⟩⟩ := getElem?_return_cases hop'
    · rw [hres] at hres'
      cases hres'
    · obtain ⟨inp, hinp⟩ := hs.unreturned i op' hop hres
      have hne : op'.client ≠ k := by
        intro hk
        rw [hk, Clerk.call_of_pending hpend] at hinp
        exact hi (Prod.mk.inj (Option.some.inj hinp)).1.symm
      exact ⟨inp, by rwa [Service.return_call, if_neg hne]⟩
  · intro i j op op' hij hop hop' hclient
    obtain ⟨x, hx, hxc, -, -, hxr⟩ := getElem?_return_cases hop
    obtain ⟨y, hy, hyc, -, hycall, -⟩ := getElem?_return_cases hop'
    rw [hxc, hyc] at hclient
    rcases hxr with ⟨rfl, -⟩ | ⟨-, rfl⟩
    · exact absurd hclient (hlast j x y hij hx hy)
    · obtain ⟨r, hr, hlt⟩ := hs.sequential i j op y hij hx hy hclient
      exact ⟨r, hr, hycall ▸ hlt⟩
  · exact hs.fresh.return hopen hlast

end Return

/-- Every action keeps the history in order. -/
theorem Action.recorded (ha : Action cfg s t) (hs : Recorded s) : Recorded t := by
  cases ha with
  | servers hno h => exact hs.congr rfl rfl fun k => Clerk.restart_call _ _
  | invoke hidle hfresh => exact hs.invoke hidle hfresh
  | begin hpend hid h => exact hs.congr rfl rfl (setClerk_call hpend rfl rfl)
  | answer hpend hrpc hsub hstage => exact hs.congr rfl rfl (setClerk_call hpend rfl rfl)
  | returns hpend hrpc hturn => exact hs.return hpend
  | retries hpend => exact hs.congr rfl rfl (setClerk_call hpend rfl rfl)

theorem recorded_initial : Recorded (initial cfg) where
  called i op h := by cases h
  returned i op r h := by cases h
  pending k i input h := by cases h
  unreturned i op h := by cases h
  sequential i j op op' hij h := by cases h
  fresh i j x y hij h := by cases h

end DistributedLabs.KvClerks
