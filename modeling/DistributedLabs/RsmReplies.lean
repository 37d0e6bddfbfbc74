import DistributedLabs.RsmWaiters

/-!
# Submit returns the right answer

The index under which a channel is filed is the index that `Start` returned, and a reply
goes through the channel only if the id of the executed operation is the id of the filed
one. With distinct ids that makes it the operation of the waiting `Submit`, executed on
the committed prefix before its index.
-/

namespace DistributedLabs.RsmCluster

open RaftPeer RaftCluster RaftRefinement Rsm TermLogProtocol TransitionRuns Relation LogPrefixes

variable {n : ℕ} {Req Rep St B : Type*} {m : StateMachine Req Rep St B}

/-- `rep` is what executing the operation of `sub` gave at the index of `sub`, which was
delivered there and executed once. -/
def Answered (m : StateMachine Req Rep St B) (delivered : List (ℤ × List (Command Req)))
    (trace : List Mark) (sub : Submit Req Rep) (rep : Rep) : Prop :=
  ∃ l, (sub.commitIndex, l ++ [.op sub.op]) ∈ delivered ∧
    rep = (m.doOp (replay m l) sub.op.req).2 ∧ trace.count (.executed sub.commitIndex) = 1

def Justified (m : StateMachine Req Rep St B) (delivered : List (ℤ × List (Command Req)))
    (trace : List Mark) (sub : Submit Req Rep) : Signal Rep → Prop
  | .errNotLeader => True
  | .reply rep => Answered m delivered trace sub rep

/-- The channels of a server: those filed in `db` are unused, the one that `Reader` sends
to is unused, and what went through a channel is justified. -/
structure Sound (m : StateMachine Req Rep St B) (started : List (Command Req))
    (delivered : List (ℤ × List (Command Req))) (srv : Server Req Rep St B) : Prop where
  entry : ∀ i v, srv.rsm.db i = some v → .op v.cmd ∈ started ∧
    (∀ sig, srv.sending ≠ some (v.readerSignal, sig)) ∧
    ∃ sub, srv.submits[v.readerSignal]? = some sub ∧ sub.op = v.cmd ∧ sub.commitIndex = i ∧
      sub.sent = 0 ∧ sub.cmdChan = none
  sending : ∀ k sig, srv.sending = some (k, sig) → ∃ sub, srv.submits[k]? = some sub ∧
    sub.sent = 0 ∧ sub.cmdChan = none ∧ Justified m delivered srv.trace sub sig
  chan : ∀ (k : ℕ) sub sig, srv.submits[k]? = some sub → sub.cmdChan = some sig →
    Justified m delivered srv.trace sub sig
  sent : ∀ (k : ℕ) sub, srv.submits[k]? = some sub → sub.sent ≤ 1
  returned : ∀ (k : ℕ) sub rep, srv.submits[k]? = some sub → sub.stage = .returned (.ok rep) →
    Answered m delivered srv.trace sub rep
  marks : ∀ i j l rest, .executed i ∈ srv.trace → delivered = (j, l) :: rest →
    i ≤ j ∧ (srv.inbox.isSome → i < j)

variable {started : List (Command Req)} {d d' : List (ℤ × List (Command Req))}
  {srv srv' : Server Req Rep St B}

theorem Answered.mono {trace trace' : List Mark} {sub : Submit Req Rep} {rep : Rep}
    (h : Answered m d trace sub rep) (hd : d ⊆ d')
    (ht : ∀ i, trace.count (.executed i) = 1 → trace'.count (.executed i) = 1) :
    Answered m d' trace' sub rep := by
  obtain ⟨l, hl, hrep, hcount⟩ := h
  exact ⟨l, hd hl, hrep, ht _ hcount⟩

theorem Justified.mono {trace trace' : List Mark} {sub : Submit Req Rep} {sig : Signal Rep}
    (h : Justified m d trace sub sig) (hd : d ⊆ d')
    (ht : ∀ i, trace.count (.executed i) = 1 → trace'.count (.executed i) = 1) :
    Justified m d' trace' sub sig := by
  cases sig with
  | errNotLeader => trivial
  | reply rep => exact Answered.mono h hd ht

theorem Sound.boot (data : List B) : Sound m started d (Server.boot m data) where
  entry i v h := by cases h
  sending k sig h := by cases h
  chan k sub sig h := by cases h
  sent k sub h := by cases h
  returned k sub rep h := by cases h
  marks i j l rest h := by cases h

/-- More commands are accepted. -/
theorem Sound.accept {started' : List (Command Req)} (h : Sound m started d srv)
    (hsub : started ⊆ started') : Sound m started' d srv :=
  { h with entry := fun i v hv => ⟨hsub (h.entry i v hv).1, (h.entry i v hv).2⟩ }

/-- `Reader` takes a message with an index above those handled. -/
theorem Sound.take (h : Sound m started d srv) {msg : Msg Req B} {j : ℤ} {l : List (Command Req)}
    (hj : ∀ i l rest, d = (i, l) :: rest → i < j) (hd : d ≠ []) :
    Sound m started ((j, l) :: d) { srv with inbox := some msg } where
  entry := h.entry
  sending k sig hk := by
    obtain ⟨sub, hsub, hsent, hchan, hjust⟩ := h.sending k sig hk
    exact ⟨sub, hsub, hsent, hchan, hjust.mono (List.subset_cons_self _ _) fun _ => id⟩
  chan k sub sig hsub hchan := (h.chan k sub sig hsub hchan).mono (List.subset_cons_self _ _)
    fun _ => id
  sent := h.sent
  returned k sub rep hsub hstage := (h.returned k sub rep hsub hstage).mono
    (List.subset_cons_self _ _) fun _ => id
  marks i j' l' rest hi heq := by
    obtain ⟨⟨j₀, l₀⟩, rest₀, rfl⟩ := List.exists_cons_of_ne_nil hd
    obtain ⟨rfl, -⟩ := Prod.mk.inj (List.cons.inj heq).1
    have := (h.marks i j₀ l₀ rest₀ hi rfl).1
    have := hj j₀ l₀ rest₀ rfl
    exact ⟨by omega, fun _ => by omega⟩

/-- A `Submit` moves on without a send. -/
theorem Sound.set (h : Sound m started d srv) {k : ℕ} {old : Submit Req Rep}
    (new : Submit Req Rep) (hold : srv.submits[k]? = some old) (hop : new.op = old.op)
    (hindex : new.commitIndex = old.commitIndex) (hsent : new.sent = old.sent)
    (hchan : new.cmdChan = none ∨ new.cmdChan = old.cmdChan)
    (hret : ∀ rep, new.stage = .returned (.ok rep) → Answered m d srv.trace old rep) :
    Sound m started d { srv with submits := srv.submits.set k new } := by
  have hlt : k < srv.submits.length := (List.getElem?_eq_some_iff.mp hold).1
  have hjust : ∀ sig, Justified m d srv.trace old sig → Justified m d srv.trace new sig := by
    intro sig hsig
    cases sig with
    | errNotLeader => trivial
    | reply rep => simpa only [Justified, Answered, hop, hindex] using hsig
  have hget : ∀ j sub, srv.submits[j]? = some sub →
      (srv.submits.set k new)[j]? = some (if j = k then new else sub) := by
    intro j sub hsub
    by_cases hj : j = k
    · subst hj
      simp [hlt]
    · rw [List.getElem?_set_ne (fun he => hj he.symm), hsub, if_neg hj]
  have hfree : old.cmdChan = none → new.cmdChan = none := by
    rcases hchan with hc | hc
    · exact fun _ => hc
    · exact fun h => hc.trans h
  refine ⟨?_, ?_, ?_, ?_, ?_, h.marks⟩
  · intro i v hv
    obtain ⟨hst, hsend, sub, hsub, hsop, hsi, hs0, hsc⟩ := h.entry i v hv
    refine ⟨hst, hsend, _, hget _ _ hsub, ?_⟩
    by_cases hv : v.readerSignal = k
    · obtain rfl := Option.some.inj (hold.symm.trans (hv ▸ hsub))
      rw [if_pos hv]
      exact ⟨hop.trans hsop, hindex.trans hsi, hsent.trans hs0, hfree hsc⟩
    · rw [if_neg hv]
      exact ⟨hsop, hsi, hs0, hsc⟩
  · intro j sig hj
    obtain ⟨sub, hsub, hs0, hsc, hsig⟩ := h.sending j sig hj
    refine ⟨_, hget _ _ hsub, ?_⟩
    by_cases hjk : j = k
    · obtain rfl := Option.some.inj (hold.symm.trans (hjk ▸ hsub))
      rw [if_pos hjk]
      exact ⟨hsent.trans hs0, hfree hsc, hjust _ hsig⟩
    · rw [if_neg hjk]
      exact ⟨hs0, hsc, hsig⟩
  · intro j sub sig hsub hsig
    rcases getElem?_set_cases hsub with ⟨-, rfl⟩ | ⟨-, hsub⟩
    · rcases hchan with hc | hc
      · rw [hc] at hsig
        cases hsig
      · exact hjust _ (h.chan k old sig hold (hc.symm.trans hsig))
    · exact h.chan j sub sig hsub hsig
  · intro j sub hsub
    rcases getElem?_set_cases hsub with ⟨-, rfl⟩ | ⟨-, hsub⟩
    · rw [hsent]
      exact h.sent k old hold
    · exact h.sent j sub hsub
  · intro j sub rep hsub hstage
    rcases getElem?_set_cases hsub with ⟨-, rfl⟩ | ⟨-, hsub⟩
    · have := hret rep hstage
      simpa only [Answered, hop, hindex] using this
    · exact h.returned j sub rep hsub hstage

/-- Entries disappear from `db`. -/
theorem Sound.forget (h : Sound m started d srv) (db : ℤ → Option (MapValue Req))
    (hdb : ∀ i v, db i = some v → srv.rsm.db i = some v) :
    Sound m started d { srv with rsm := { srv.rsm with db := db } } :=
  { h with entry := fun i v hv => h.entry i v (hdb i v hv) }

theorem Sound.send (h : Sound m started d srv) {k : ℕ} {v : Signal Rep} {sub : Submit Req Rep}
    (hk : srv.sending = some (k, v)) (hsub : srv.submits[k]? = some sub) :
    Sound m started d { srv with
      sending := none
      submits := srv.submits.set k { sub with cmdChan := some v, sent := sub.sent + 1 } } := by
  obtain ⟨sub', hsub', hsent, hchan, hjust⟩ := h.sending k v hk
  obtain rfl := Option.some.inj (hsub.symm.trans hsub')
  refine ⟨?_, (fun _ _ hs => by cases hs), ?_, ?_, ?_, h.marks⟩
  · intro i w hw
    obtain ⟨hst, hsend, osub, hosub, hrest⟩ := h.entry i w hw
    have hne : k ≠ w.readerSignal := fun he => hsend v (he ▸ hk)
    exact ⟨hst, (fun _ hs => by cases hs), osub, by rwa [List.getElem?_set_ne hne], hrest⟩
  · intro j osub sig hosub hsig
    rcases getElem?_set_cases hosub with ⟨-, rfl⟩ | ⟨-, hosub⟩
    · obtain rfl := Option.some.inj hsig
      cases v with
      | errNotLeader => trivial
      | reply rep => exact hjust
    · exact h.chan j osub sig hosub hsig
  · intro j osub hosub
    rcases getElem?_set_cases hosub with ⟨-, rfl⟩ | ⟨-, hosub⟩
    · simp [hsent]
    · exact h.sent j osub hosub
  · intro j osub rep hosub hstage
    rcases getElem?_set_cases hosub with ⟨-, rfl⟩ | ⟨-, hosub⟩
    · exact h.returned k sub rep hsub hstage
    · exact h.returned j osub rep hosub hstage

/-- A new `Submit`, behind all others, that has received nothing. -/
theorem Sound.concat (h : Sound m started d srv) (new : Submit Req Rep) (hchan : new.cmdChan = none)
    (hsent : new.sent = 0) (hstage : ∀ rep, new.stage ≠ .returned (.ok rep)) :
    Sound m started d { srv with submits := srv.submits ++ [new] } := by
  have hget : ∀ {k : ℕ} {sub : Submit Req Rep},
      srv.submits[k]? = some sub → (srv.submits ++ [new])[k]? = some sub := by
    intro k sub hsub
    rwa [List.getElem?_append_left (List.getElem?_eq_some_iff.mp hsub).1]
  refine ⟨?_, ?_, ?_, ?_, ?_, h.marks⟩
  · intro i v hv
    obtain ⟨hst, hsend, sub, hsub, hrest⟩ := h.entry i v hv
    exact ⟨hst, hsend, sub, hget hsub, hrest⟩
  · intro k sig hk
    obtain ⟨sub, hsub, hrest⟩ := h.sending k sig hk
    exact ⟨sub, hget hsub, hrest⟩
  · intro k sub sig hsub hsig
    rcases getElem?_concat_cases hsub with ⟨-, rfl⟩ | hsub
    · rw [hchan] at hsig
      cases hsig
    · exact h.chan k sub sig hsub hsig
  · intro k sub hsub
    rcases getElem?_concat_cases hsub with ⟨-, rfl⟩ | hsub
    · omega
    · exact h.sent k sub hsub
  · intro k sub rep hsub hret
    rcases getElem?_concat_cases hsub with ⟨-, rfl⟩ | hsub
    · exact absurd hret (hstage rep)
    · exact h.returned k sub rep hsub hret

/-- Something happens that is not an execution. -/
theorem Sound.mark (h : Sound m started d srv) {x : Mark} (hx : ∀ i, x ≠ .executed i) :
    Sound m started d { srv with trace := x :: srv.trace } := by
  have hcount : ∀ i, srv.trace.count (.executed i) = 1 →
      (x :: srv.trace).count (.executed i) = 1 := by
    intro i hi
    rwa [List.count_cons_of_ne (hx i)]
  refine ⟨h.entry, ?_, ?_, h.sent, ?_, ?_⟩
  · intro k sig hk
    obtain ⟨sub, hsub, hsent, hchan, hjust⟩ := h.sending k sig hk
    exact ⟨sub, hsub, hsent, hchan, hjust.mono (List.Subset.refl _) hcount⟩
  · intro k sub sig hsub hsig
    exact (h.chan k sub sig hsub hsig).mono (List.Subset.refl _) hcount
  · intro k sub rep hsub hret
    exact (h.returned k sub rep hsub hret).mono (List.Subset.refl _) hcount
  · intro i j l rest hi
    exact h.marks i j l rest ((List.mem_cons.mp hi).resolve_left fun he => hx i he.symm)

/-- A channel is filed under its index. -/
theorem Sound.file (h : Sound m started d srv) {k : ℕ} {sub : Submit Req Rep}
    (hsub : srv.submits[k]? = some sub) (hsent : sub.sent = 0) (hchan : sub.cmdChan = none)
    (hidle : ∀ sig, srv.sending ≠ some (k, sig)) (hstarted : .op sub.op ∈ started) :
    Sound m started d { srv with rsm := { srv.rsm with
      db := Function.update srv.rsm.db sub.commitIndex (some ⟨k, sub.op⟩) } } := by
  refine { h with entry := fun i v hv => ?_ }
  simp only [Function.update_apply] at hv
  split_ifs at hv with hi
  · obtain rfl := Option.some.inj hv
    exact ⟨hstarted, hidle, sub, hsub, rfl, hi.symm, hsent, hchan⟩
  · exact h.entry i v hv

theorem Sound.submit (h : Sound m started d srv) {op : Op Req} {index term : ℤ} {lead : Bool}
    (hlead : lead = true → .op op ∈ started) :
    Sound m started d (srv.submit op index term lead) := by
  cases lead with
  | false => exact h.concat _ rfl rfl (fun rep hr => by cases hr)
  | true =>
    have hidle : ∀ sig, srv.sending ≠ some (srv.submits.length, sig) := by
      intro sig hs
      obtain ⟨sub, hsub, -⟩ := h.sending _ _ hs
      exact absurd (List.getElem?_eq_some_iff.mp hsub).1 (lt_irrefl _)
    have hnew := h.concat ⟨op, index, term, none, 0, .waiting⟩ rfl rfl
      (fun rep hr => by cases hr)
    have hmark := hnew.mark (x := .started srv.submits.length index) (fun i hi => by cases hi)
    exact hmark.file List.getElem?_concat_length rfl rfl hidle (hlead rfl)

structure Taken (m : StateMachine Req Rep St B) (started : List (Command Req))
    (d : List (ℤ × List (Command Req))) (srv : Server Req Rep St B) : Prop where
  replays : Replays m srv d
  committed : ∀ i l rest, d = (i, l) :: rest → l ⊆ started
  distinct : ∀ o o', .op o ∈ started → .op o' ∈ started → o.id = o'.id → o = o'

/-- `Reader` executes an operation and answers the `Submit` that is filed at its index. -/
theorem Sound.execute (h : Sound m started d srv) (ht : Taken m started d srv) {j : ℤ} {op : Op Req}
    (hin : srv.inbox = some (.command j (.op op))) (lii : ℤ) (full : Bool) :
    let turn := srv.rsm.reader m lii full (.command j (.op op))
    Sound m started d { srv with
      rsm := turn.rsm, inbox := none, sending := turn.send,
      trace := .executed j :: srv.trace } := by
  have hr := ht.replays
  simp only [Replays, hin] at hr
  obtain ⟨l, rest, rfl, hsm⟩ := hr
  have hnew : .executed j ∉ srv.trace := by
    intro hmem
    have := (h.marks j j _ _ hmem rfl).2 (by rw [hin]; rfl)
    omega
  have hcount : ∀ i, srv.trace.count (.executed i) = 1 →
      (Mark.executed j :: srv.trace).count (.executed i) = 1 := by
    intro i hi
    rw [List.count_cons_of_ne]
    · exact hi
    · rintro ⟨⟩
      exact hnew (List.count_pos_iff.mp (by omega))
  refine ⟨?_, ?_, ?_, h.sent, ?_, ?_⟩
  · intro i v hv
    simp only [RSM.reader, RSM.answer_db] at hv
    split_ifs at hv with hi
    obtain ⟨hst, -, sub, hsub, hop, hindex, hrest⟩ := h.entry i v hv
    refine ⟨hst, fun sig hs => ?_, sub, hsub, hop, hindex, hrest⟩
    simp only [RSM.reader, RSM.answer_send] at hs
    obtain ⟨w, hw, heq⟩ := Option.map_eq_some_iff.mp hs
    obtain ⟨-, -, sub', hsub', -, hindex', -⟩ := h.entry j w hw
    rw [(Prod.mk.inj heq).1] at hsub'
    obtain rfl := Option.some.inj (hsub.symm.trans hsub')
    exact hi (hindex.symm.trans hindex')
  · intro k sig hs
    simp only [RSM.reader, RSM.answer_send] at hs
    obtain ⟨w, hw, heq⟩ := Option.map_eq_some_iff.mp hs
    obtain ⟨rfl, rfl⟩ := Prod.mk.inj heq
    obtain ⟨hst, -, sub, hsub, hop, hindex, hsent, hchan⟩ := h.entry j w hw
    refine ⟨sub, hsub, hsent, hchan, ?_⟩
    split_ifs with hid
    · trivial
    · have hmem : .op op ∈ started := ht.committed j _ rest rfl (by simp)
      obtain rfl : op = w.cmd := ht.distinct op w.cmd hmem hst (not_not.mp hid)
      refine ⟨l, ?_, ?_, ?_⟩
      · rw [hop, hindex]
        exact List.mem_cons_self
      · rw [hop, hsm]
      · rw [hindex, List.count_cons_self, List.count_eq_zero_of_not_mem hnew]
  · intro k sub sig hsub hsig
    exact (h.chan k sub sig hsub hsig).mono (List.Subset.refl _) hcount
  · intro k sub rep hsub hret
    exact (h.returned k sub rep hsub hret).mono (List.Subset.refl _) hcount
  · intro i j' l' rest' hi heq
    obtain ⟨rfl, -⟩ := Prod.mk.inj (List.cons.inj heq).1
    refine ⟨?_, fun hs => by cases hs⟩
    rcases List.mem_cons.mp hi with hi | hi
    · cases hi
      exact le_rfl
    · exact (h.marks i j _ _ hi rfl).1

/-- `Reader` handles a message without executing anything. -/
theorem Sound.pass (h : Sound m started d srv) (rsm : RSM Req St) (hdb : rsm.db = srv.rsm.db)
    (j : ℤ) : Sound m started d { srv with
      rsm := rsm, inbox := none, sending := none, trace := .passed j :: srv.trace } := by
  have h' := h.mark (x := .passed j) (fun i hi => by cases hi)
  refine ⟨?_, (fun k sig hs => by cases hs), h'.chan, h'.sent, h'.returned, ?_⟩
  · intro i v hv
    rw [hdb] at hv
    obtain ⟨hst, -, hsub⟩ := h.entry i v hv
    exact ⟨hst, (fun sig hs => by cases hs), hsub⟩
  · intro i j' l rest hi heq
    exact ⟨(h'.marks i j' l rest hi heq).1, fun hs => by cases hs⟩

/-- Operations at a server keep its channels sound. -/
theorem Local.sound {images : List (List (Command Req) × List B)} {started' : List (Command Req)}
    {G : ℕ → ℤ → Bool → Prop} {R : Prop} {pr pr' : Process n (Command Req)}
    (h : Local m images started' G R pr pr' srv srv') (hs : Sound m started pr.delivered srv)
    (ht : Taken m started pr.delivered srv) (haccept : started ⊆ started')
    (hnext : ∀ msg, pr.applying.head? = some msg →
      ∃ i st rest, pr.delivered = (i, st) :: rest ∧ Follows i msg) :
    Sound m started' pr'.delivered srv' := by
  cases h with
  | raft hd =>
    rw [hd]
    exact hs.accept haccept
  | submit hd hlead =>
    rw [hd]
    exact (hs.accept haccept).submit hlead
  | takeCommand hin hsend hmsg hd =>
    obtain ⟨i, st, rest, hdel, rfl⟩ := hnext _ hmsg
    rw [hd]
    refine (hs.accept haccept).take (fun j l rest' hj => ?_) (by simp [hdel])
    cases hdel.symm.trans hj
    omega
  | takeSnapshot hin hsend hmsg hd himg =>
    obtain ⟨i, st, rest, hdel, hlt, -⟩ := hnext _ hmsg
    rw [hd]
    refine (hs.accept haccept).take (fun j l rest' hj => ?_) (by simp [hdel])
    cases hdel.symm.trans hj
    exact hlt
  | @handle msg lii full hin hd =>
    rw [hd]
    rcases msg with ⟨j, op | x⟩ | ⟨j, data⟩
    · exact (hs.execute ht hin lii full).accept haccept
    · exact (hs.pass _ rfl j).accept haccept
    · exact (hs.pass { srv.rsm with sm := m.restore srv.rsm.sm data, lastApplied := j } rfl
        j).accept haccept
  | send hd h =>
    obtain ⟨k, v, sub, hk, hsub, -, rfl⟩ := Server.send_cases h
    rw [hd]
    exact (hs.send hk hsub).accept haccept
  | receive hd h =>
    obtain ⟨sub, v, hsub, -, hchan, rfl⟩ := Server.receive_cases h
    rw [hd]
    refine (hs.set { sub with cmdChan := none, stage := .returned v.result } hsub rfl rfl rfl
      (Or.inl rfl) fun rep hrep => ?_).accept haccept
    have hjust := hs.chan _ sub v hsub hchan
    cases v with
    | errNotLeader => cases hrep
    | reply r =>
      obtain rfl : r = rep := by simpa [Signal.result] using hrep
      exact hjust
  | tick hd h =>
    obtain ⟨sub, hsub, -, rfl⟩ := Server.tick_cases h
    rw [hd]
    exact (hs.set { sub with stage := .checking } hsub rfl rfl rfl (Or.inr rfl)
      (fun rep hrep => by cases hrep)).accept haccept
  | check hd hG h =>
    rw [hd]
    obtain ⟨sub, hsub, -, ⟨-, rfl⟩ | ⟨-, rfl⟩⟩ := Server.check_cases h
    · have hforget := hs.forget (Function.update srv.rsm.db sub.commitIndex none)
        fun i v hv => by
          simp only [Function.update_apply] at hv
          split_ifs at hv
          exact hv
      exact (hforget.set { sub with stage := .returned .errWrongLeader } hsub rfl rfl rfl
        (Or.inr rfl) (fun rep hrep => by cases hrep)).accept haccept
    · exact (hs.set { sub with stage := .waiting } hsub rfl rfl rfl (Or.inr rfl)
        (fun rep hrep => by cases hrep)).accept haccept
  | boot hR hd himg => exact Sound.boot _

/-- The accepted operations have distinct ids. -/
def DistinctIds (started : List (Command Req)) : Prop := ((ops started).map Op.id).Nodup

theorem DistinctIds.eq_of_id (h : DistinctIds started) {o o' : Op Req} (ho : .op o ∈ started)
    (ho' : .op o' ∈ started) (hid : o.id = o'.id) : o = o' :=
  List.inj_on_of_nodup_map h (mem_ops.mpr ho) (mem_ops.mpr ho') hid

section Runs

variable [DecidableEq Req] {s t : System n Req Rep St B}

def FreshId (s : System n Req Rep St B) : Event n Req → Prop
  | .submit _ id _ => ∀ o ∈ ops s.started, o.id ≠ id
  | _ => True

instance (s : System n Req Rep St B) : (e : Event n Req) → Decidable (FreshId s e)
  | .submit _ id _ => inferInstanceAs (Decidable (∀ o ∈ ops s.started, o.id ≠ id))
  | .raft _ | .start _ _ | .take _ _ | .handle _ _ | .send _ | .receive _ _ | .tick _ _
  | .check _ _ | .crash _ _ | .crashIn _ _ _ => .isTrue trivial

structure Answering (m : StateMachine Req Rep St B) (s : System n Req Rep St B)
    (a : Proto n (Command Req)) : Prop extends Consistent m s a where
  distinct : DistinctIds s.started
  sound : ∀ p, Sound m s.started (s.raft.procs p).delivered (s.servers p)

omit [DecidableEq Req] in
theorem accepted_cases (s : System n Req Rep St B) (e : Event n Req) :
    s.accepted e = [] ∨ (∃ x, s.accepted e = [.other x]) ∨
      ∃ p id req, e = .submit p id req ∧ s.accepted e = [.op ⟨p, id, req⟩] := by
  cases e with
  | start p x =>
    simp only [System.accepted, startEntries]
    split
    · exact Or.inr (Or.inl ⟨x, rfl⟩)
    · exact Or.inl rfl
  | submit p id req =>
    simp only [System.accepted, startEntries]
    split
    · exact Or.inr (Or.inr ⟨p, id, req, rfl, rfl⟩)
    · exact Or.inl rfl
  | _ => exact Or.inl rfl

theorem DistinctIds.step (h : DistinctIds s.started) {e : Event n Req} (hfresh : FreshId s e)
    (he : s.step? m e = some t) : DistinctIds t.started := by
  rw [(step_raft he).1]
  rcases accepted_cases s e with hacc | ⟨x, hacc⟩ | ⟨p, id, req, rfl, hacc⟩ <;> rw [hacc]
  · rwa [List.append_nil]
  · simpa [DistinctIds] using h
  · simp only [DistinctIds, ops_append, ops_cons_op, ops_nil, List.map_append, List.map_cons,
      List.map_nil]
    refine List.Nodup.append h (List.nodup_singleton _) fun i hi hid => ?_
    obtain ⟨o, ho, rfl⟩ := List.mem_map.mp hi
    exact hfresh o ho (List.mem_singleton.mp hid)

theorem Answering.step (hm : m.Lawful) {a : Proto n (Command Req)} (hs : Answering m s a)
    {e : Event n Req} (hfresh : FreshId s e) (he : s.step? m e = some t) :
    ∃ b, Answering m t b ∧ Grows a b := by
  obtain ⟨b, hb, hg⟩ := hs.toConsistent.step hm he
  refine ⟨b, ⟨hb, hs.distinct.step hfresh he, fun p => ?_⟩, hg⟩
  have haccept : s.started ⊆ t.started := by
    rw [(step_raft he).1]
    exact List.subset_append_left _ _
  refine (step_local (G := fun _ _ _ => True) he fun _ _ => trivial).sound (hs.sound p)
    ⟨hs.replays p, ?_, fun o o' => hs.distinct.eq_of_id⟩ haccept fun _ => hs.related.next
  intro i l rest hd
  have happ := (hs.related.delivered_mem (p := p) (d := (i, l)) (by simp [hd])).1
  exact hs.created ▸ (happ.sublist hs.related.reached).subset

theorem Answering.run (hm : m.Lawful) {a : Proto n (Command Req)} (hs : Answering m s a)
    (hst : ReflTransGen (Step m FreshId) s t) : ∃ b, Answering m t b ∧ Grows a b := by
  induction hst with
  | refl => exact ⟨a, hs, Grows.refl a⟩
  | tail _ hstep ih =>
    obtain ⟨b, hb, hab⟩ := ih
    obtain ⟨e, hfresh, he⟩ := hstep
    obtain ⟨c, hc, hbc⟩ := hb.step hm hfresh he
    exact ⟨c, hc, hab.trans hbc⟩

omit [DecidableEq Req] in
theorem answering_initial : Answering m (initial m : System n Req Rep St B)
    TermLogProtocol.initial where
  toConsistent := consistent_initial
  distinct := List.nodup_nil
  sound _ := Sound.boot []

theorem Reached.answering (hm : m.Lawful) (hs : Reached m FreshId s) : ∃ a, Answering m s a := by
  obtain ⟨s₀, rfl, hr⟩ := hs
  obtain ⟨a, ha, -⟩ := answering_initial.run hm hr
  exact ⟨a, ha⟩

/-- `Reader` never blocks on a send. -/
theorem Answering.send_isSome {a : Proto n (Command Req)} (hs : Answering m s a) {p : Fin n}
    (hsend : (s.servers p).sending.isSome) : (s.step? m (.send p)).isSome := by
  obtain ⟨⟨k, sig⟩, hk⟩ := Option.isSome_iff_exists.mp hsend
  obtain ⟨sub, hsub, -, hchan, -⟩ := (hs.sound p).sending k sig hk
  simp [System.step?, Server.send, hk, hsub, hchan]

/-- Submit returns the right answer, when ids are distinct. If a `Submit` has returned a
reply, its operation is in the committed log at the index that `Start` returned, every
server that receives something at that index at any time receives this operation after
the same commands, its own server has executed it there exactly once, and the reply is
what `DoOp` gives on the replay of the committed prefix before it. A channel is sent to at
most once, and `Reader` never blocks. -/
theorem submit_returns_right_answer (hm : m.Lawful) (hs : Reached m FreshId s)
    (hst : ReflTransGen (Step m FreshId) s t) {p : Fin n} :
    (∀ (k : ℕ) sub rep, (s.servers p).submits[k]? = some sub → sub.stage = .returned (.ok rep) →
      ∃ l, l ++ [.op sub.op] = (committedLog (s.raft.procs p).rf).take sub.commitIndex.toNat ∧
        (l.length : ℤ) + 1 = sub.commitIndex ∧
        (∀ q l', (sub.commitIndex, l') ∈ (t.raft.procs q).delivered → l' = l ++ [.op sub.op]) ∧
        (s.servers p).trace.count (.executed sub.commitIndex) = 1 ∧
        rep = (m.doOp (replay m l) sub.op.req).2) ∧
    (∀ (k : ℕ) sub, (s.servers p).submits[k]? = some sub → sub.sent ≤ 1) ∧
    ((s.servers p).sending.isSome → (s.step? m (.send p)).isSome) := by
  obtain ⟨a, ha⟩ := Reached.answering hm hs
  obtain ⟨b, hb, hab⟩ := ha.run hm hst
  refine ⟨fun k sub rep hsub hstage => ?_, (ha.sound p).sent, ha.send_isSome⟩
  obtain ⟨l, hl, hrep, hcount⟩ := (ha.sound p).returned k sub rep hsub hstage
  obtain ⟨happ, -, -, hlog⟩ := ha.related.delivered_mem hl
  refine ⟨l, hlog, ?_, fun q l' hl' => ?_, hcount, hrep⟩
  · simpa using happ.length
  · exact (hb.related.delivered_mem hl').1.unique hb.related.reached (happ.grows hab)

end Runs

section KeyValue

open KvServer

def answerRun : List (Event 2 KvServer.Request) :=
  [.raft (.ticker 0), .raft (.deliver 0), .raft (.deliver 0),
    .submit 0 5 (.put ⟨"k", "a", 0, 9⟩), .raft (.appendEntriesRoutine 0), .raft (.deliver 0),
    .raft (.deliver 0), .raft (.apply 0), .take 0 0, .handle 0 false, .send 0, .receive 0 0]

theorem submit_returns_right_answer_put : ∃ s : KvSystem 2 (Store × Dedup),
    Reached (machine pairCodec) FreshId s ∧
    ∃ l, l ++ [.op ⟨0, 5, .put ⟨"k", "a", 0, 9⟩⟩] = (committedLog (s.raft.procs 0).rf).take 1 ∧
      (s.servers 0).trace.count (.executed 1) = 1 ∧
      KvServer.Reply.put ⟨.ok⟩ =
        ((machine pairCodec).doOp (replay (machine pairCodec) l) (.put ⟨"k", "a", 0, 9⟩)).2 := by
  obtain ⟨s, hs, htest⟩ := System.exists_of_run
    (show ((initial (machine pairCodec) : KvSystem 2 (Store × Dedup)).run
      (machine pairCodec) FreshId answerRun).any (fun s => decide ((s.servers 0).submits[0]? = some
        ⟨⟨0, 5, .put ⟨"k", "a", 0, 9⟩⟩, 1, 1, none, 1, .returned (.ok (.put ⟨.ok⟩))⟩)) = true by
      decide +kernel)
  have hsub := of_decide_eq_true htest
  have hs : Reached (machine pairCodec) FreshId s := ⟨_, rfl, hs⟩
  obtain ⟨l, hl, -, -, hcount, hrep⟩ := (submit_returns_right_answer (p := 0)
    (machine_lawful pairCodec_lawful) hs .refl).1 0 _ _ hsub rfl
  exact ⟨s, hs, l, hl, hcount, hrep⟩

end KeyValue

end DistributedLabs.RsmCluster
