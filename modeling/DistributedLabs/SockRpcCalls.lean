import DistributedLabs.SockRpc

/-!
# Calls over sockets are multiplexed calls

The bytes on the pipes are the frames of messages. A client with its connection is then a client of
the multiplexed calls: the requests on the pipe to the server and those that the server has not
answered are the received ones, and the replies on the pipe to the client are those on their way. So
a call that returns without an error returns an answer with its own tag. On its way from the pipe to
a goroutine and to the service no request is copied, and `ServeRequest` is run at most once for a
call.
-/

namespace DistributedLabs.SockRpc

open Relation TransitionRuns FramedPipes Demux

variable {K σ : Type*}

section Clients

/-- What a connection is for the multiplexed calls. The messages that are whole on the pipes are
`up` and `down`, and the requests whose reply did not get through are `lost`. -/
structure View where
  up : List Msg
  down : List Msg
  lost : List (Ttag × Bytes)
  received : List (Ttag × Bytes)
  replies : List Msg
  answered : List Msg

def View.empty : View := ⟨[], [], [], [], [], []⟩

def View.link (v : View) (s : Demux.State) : Demux.State :=
  { s with received := v.received, replies := v.replies, answered := v.answered }

/-- The events that leave the requests and the replies alone. -/
def quiet : Demux.Event → Bool
  | .write _ reaches => !reaches
  | .answer _ _ _ | .read _ => false
  | _ => true

theorem quiet_of_ownStep {e : Demux.Event} (h : ownStep e = true) : quiet e = true := by
  cases e <;> first | rfl | cases h

variable {s t : Demux.State} {v : View}

private theorem link_ite {p : Prop} [Decidable p] {x x' y y' : Option Demux.State}
    (hx : x' = x.map v.link) (hy : y' = y.map v.link) :
    (if p then x' else y') = (if p then x else y).map v.link := by
  split_ifs
  · exact hx
  · exact hy

theorem link_step {e : Demux.Event} (hquiet : quiet e = true) :
    (v.link s).step? e = (s.step? e).map v.link := by
  cases e with
  | put c =>
    refine link_ite ?_ rfl
    simp only [View.link]
    cases s.callmap.put (s.calls c).tag c <;> rfl
  | write c reaches =>
    obtain rfl : reaches = false := by simpa [quiet] using hquiet
    exact link_ite rfl rfl
  | sendReceive | wrote | readFails | closeReader | outstanding | close | closeMap =>
    exact link_ite rfl rfl
  | drain =>
    simp only [State.step?, View.link]
    split <;> rfl
  | remove =>
    simp only [State.step?, View.link]
    split
    · next tag rep rest _ =>
      simp only [State.reply, CallMap.remove]
      cases s.callmap.calls.lookup tag <;> rfl
    · rfl
  | send =>
    simp only [State.step?, View.link]
    split
    · exact link_ite rfl rfl
    · rfl
  | answer | read => cases hquiet

/-- A call has begun its write. -/
def sentPhase : Phase → Bool
  | .writing | .waiting | .returned _ => true
  | _ => false

/-- The same calls, where those that have begun their write do not go back. -/
structure Kept (s t : Demux.State) : Prop where
  count : t.count = s.count
  tag : ∀ c, (t.calls c).tag = (s.calls c).tag
  req : ∀ c, (t.calls c).req = (s.calls c).req
  idle : ∀ c, (s.calls c).phase = .idle → (t.calls c).phase = .idle
  sent : ∀ c, sentPhase (s.calls c).phase = true → sentPhase (t.calls c).phase = true

theorem kept_of_calls (hcount : t.count = s.count) (hcalls : t.calls = s.calls) : Kept s t := by
  refine ⟨hcount, ?_, ?_, ?_, ?_⟩
  all_goals
    rw [hcalls]
    intro c
  · rfl
  · rfl
  · exact id
  · exact id

/-- One call goes on. -/
theorem kept_of_update {c : ℕ} {call : Call} (hcount : t.count = s.count)
    (hcalls : t.calls = Function.update s.calls c call) (htag : call.tag = (s.calls c).tag)
    (hreq : call.req = (s.calls c).req) (hidle : (s.calls c).phase = .idle → call.phase = .idle)
    (hsent : sentPhase (s.calls c).phase = true → sentPhase call.phase = true) : Kept s t := by
  have hcases : ∀ c', t.calls c' = s.calls c' ∨ c' = c ∧ t.calls c' = call := by
    intro c'
    rw [hcalls]
    by_cases heq : c' = c
    · subst heq
      exact .inr ⟨rfl, Function.update_self ..⟩
    · exact .inl (Function.update_of_ne heq ..)
  refine ⟨hcount, fun c' => ?_, fun c' => ?_, fun c' hc' => ?_, fun c' hc' => ?_⟩
  all_goals rcases hcases c' with hold | ⟨rfl, hnew⟩
  · rw [hold]
  · rw [hnew, htag]
  · rw [hold]
  · rw [hnew, hreq]
  · rw [hold, hc']
  · rw [hnew, hidle hc']
  · rw [hold, hc']
  · rw [hnew, hsent hc']

/-- A call in a phase between that of an idle call and the write goes on. -/
theorem kept_of_phase {c : ℕ} {call : Call} (hcount : t.count = s.count)
    (hcalls : t.calls = Function.update s.calls c call) (htag : call.tag = (s.calls c).tag)
    (hreq : call.req = (s.calls c).req) (hidle : (s.calls c).phase ≠ .idle)
    (hsent : sentPhase (s.calls c).phase = true → sentPhase call.phase = true) : Kept s t :=
  kept_of_update hcount hcalls htag hreq (fun h => absurd h hidle) hsent

theorem kept_of_action (ha : Demux.Action s t) (hcount : t.count = s.count) : Kept s t := by
  cases ha with
  | sendReceive b hmu => exact absurd hcount (Nat.succ_ne_self s.count)
  | refuse hphase hclosed =>
      exact kept_of_phase rfl rfl rfl rfl (by simp [hphase]) (by simp [hphase, sentPhase])
  | register hphase hopen =>
      exact kept_of_phase rfl rfl rfl rfl (by simp [hphase]) (by simp [hphase, sentPhase])
  | write reaches hphase hmu => exact kept_of_phase rfl rfl rfl rfl (by simp [hphase]) fun _ => rfl
  | wrote hphase => exact kept_of_phase rfl rfl rfl rfl (by simp [hphase]) fun _ => rfl
  | remove hreader hch => exact kept_of_update rfl rfl rfl rfl id id
  | send hreader hphase => exact kept_of_phase rfl rfl rfl rfl (by simp [hphase]) fun _ => rfl
  | _ => exact kept_of_calls rfl rfl

theorem count_of_ownStep {e : Demux.Event} (hown : ownStep e = true) (h : s.step? e = some t) :
    t.count = s.count := by
  cases e with
  | put c =>
    simp only [State.step?] at h
    split_ifs at h
    split at h <;> exact Option.some.inj h ▸ rfl
  | wrote | readFails | closeReader | outstanding | closeMap =>
    simp only [State.step?] at h
    split_ifs at h
    exact Option.some.inj h ▸ rfl
  | drain =>
    simp only [State.step?] at h
    split at h
    · exact Option.some.inj h ▸ rfl
    · exact Option.some.inj h ▸ rfl
    · cases h
  | remove =>
    simp only [State.step?] at h
    split at h
    · obtain rfl := Option.some.inj h
      simp only [State.reply]
      split <;> rfl
    · cases h
  | send =>
    simp only [State.step?] at h
    split at h
    · split_ifs at h
      exact Option.some.inj h ▸ rfl
    · cases h
  | _ => cases hown

end Clients

section Links

def request (m : Msg) : Ttag × Bytes := (m.tag, m.data)

def Goroutine.request (g : Goroutine) : Ttag × Bytes := (g.tag, g.req)

def Goroutine.waits (g : Goroutine) : Bool := g.reply.isNone

def Execution.request (x : Execution K) : Ttag × Bytes := (x.tag, x.req)

def Execution.reply (x : Execution K) : Msg := ⟨x.tag, x.rep, x.ok⟩

variable {setup : Setup K σ} {k : K}

/-- The messages are on the pipes. Before `NewDemuxSrv` has read it the first one is the name of the
client. -/
structure Carried (setup : Setup K σ) (k : K) (conn : Conn) (v : View) : Prop where
  up : Carries (frame setup.msgs) (Fits setup.msgs) conn.up
    (if conn.srv.reader = .accepting then setup.initMsg k :: v.up else v.up)
  down : Carries (frame setup.msgs) (Fits setup.msgs) conn.down v.down

structure Tracked (serving : List Goroutine) (v : View) : Prop where
  received : v.received.Perm (v.up.map request ++ (serving.map Goroutine.request ++ v.lost))
  replies : v.replies.Perm v.down

/-- What the server writes has been executed, for the client at the other end. -/
structure Recorded (setup : Setup K σ) (k : K) (srv : DemuxSrv) (answered : List Msg)
    (execs : List (Execution K)) : Prop where
  name : srv.reader ≠ .accepting → srv.clntEnd = setup.names k
  accepting : srv.reader = .accepting → srv.serving = []
  named : ∀ x ∈ execs, x.clntEnd = setup.names k
  answered : ∀ m ∈ answered, m ∈ execs.map Execution.reply
  served : ∀ g ∈ srv.serving, ∀ r, g.reply = some r →
    (⟨g.tag, r.1, r.2⟩ : Msg) ∈ execs.map Execution.reply ∧ Fits setup.msgs ⟨g.tag, r.1, r.2⟩

/-- The requests that are on the pipe, with a goroutine, or executed. -/
def requested (up : List Msg) (serving : List Goroutine) (execs : List (Execution K)) :
    List (Ttag × Bytes) :=
  up.map request ++ ((serving.filter Goroutine.waits).map Goroutine.request ++
    execs.map Execution.request)

/-- Each request is that of one call, which has begun its write. -/
structure Asked (setup : Setup K σ) (clnt : Demux.State) (reqs : List (Ttag × Bytes)) : Prop where
  sent : ∀ r ∈ reqs, ∃ c < clnt.count, ((clnt.calls c).tag, (clnt.calls c).req) = r ∧
    sentPhase (clnt.calls c).phase = true
  nodup : clnt.count < 2 ^ 32 → (reqs.map Prod.fst).Nodup
  idle : ∀ c, clnt.count ≤ c → (clnt.calls c).phase = .idle
  calls : ∀ c < clnt.count, ∃ req, (clnt.calls c).req = setup.requests.marshall req ∧
    ∀ tag, Fits setup.msgs ⟨tag, (clnt.calls c).req, true⟩

structure Linked (setup : Setup K σ) (k : K) (conn : Conn) (execs : List (Execution K)) (v : View) :
    Prop where
  reached : Demux.Reached (v.link conn.clnt)
  exited : conn.exited = false
  carried : Carried setup k conn v
  tracked : Tracked conn.srv.serving v
  recorded : Recorded setup k conn.srv v.answered execs
  asked : Asked setup conn.clnt (requested v.up conn.srv.serving execs)

theorem Asked.kept {clnt clnt' : Demux.State} {reqs : List (Ttag × Bytes)}
    (h : Asked setup clnt reqs) (hkept : Kept clnt clnt') : Asked setup clnt' reqs where
  sent r hr := by
    obtain ⟨c, hc, heq, hsent⟩ := h.sent r hr
    refine ⟨c, by rwa [hkept.count], ?_, hkept.sent c hsent⟩
    rw [hkept.tag, hkept.req]
    exact heq
  nodup := by
    rw [hkept.count]
    exact h.nodup
  idle c hc := by
    rw [hkept.count] at hc
    exact hkept.idle c (h.idle c hc)
  calls c hc := by
    rw [hkept.count] at hc
    rw [hkept.req]
    exact h.calls c hc

theorem Asked.perm {clnt : Demux.State} {reqs reqs' : List (Ttag × Bytes)}
    (h : Asked setup clnt reqs) (hperm : reqs.Perm reqs') : Asked setup clnt reqs' where
  sent r hr := h.sent r (hperm.mem_iff.mpr hr)
  nodup hcount := (hperm.map Prod.fst).nodup_iff.mp (h.nodup hcount)
  idle := h.idle
  calls := h.calls

theorem linked_newConn (setup : Setup K σ) (k : K) :
    Linked setup k (setup.newConn k) [] View.empty where
  reached := Reachable.of_init rfl
  exited := rfl
  carried := {
    up := by
      have hempty : Carries (frame setup.msgs) (Fits setup.msgs) Pipe.empty [] := carries_empty
      have h := hempty.write (setup.init_fits k) (frame setup.msgs (setup.initMsg k)).length
      simpa [Pipe.takes, Pipe.empty, Setup.newConn, View.empty, Setup.initMsg] using h
    down := carries_empty }
  tracked := ⟨.nil, .nil⟩
  recorded := {
    name h := absurd rfl h
    accepting _ := rfl
    named _ hx := by cases hx
    answered _ hm := by cases hm
    served _ hg := by cases hg }
  asked := {
    sent _ hr := by cases hr
    nodup _ := List.nodup_nil
    idle _ _ := rfl
    calls c hc := absurd hc (Nat.not_lt_zero c) }

variable {conn : Conn} {execs : List (Execution K)} {v : View}

theorem Linked.step (h : Linked setup k conn execs v) {e : Demux.Event} {clnt : Demux.State}
    (hquiet : quiet e = true) (hclnt : conn.clnt.step? e = some clnt) :
    Demux.Reached (v.link clnt) := by
  refine h.reached.tail ⟨e, ?_⟩
  rw [link_step hquiet, hclnt]
  rfl

/-- A step of the client that begins no call. -/
theorem Linked.clnt (h : Linked setup k conn execs v) {e : Demux.Event} {clnt : Demux.State}
    (hquiet : quiet e = true) (hclnt : conn.clnt.step? e = some clnt)
    (hcount : clnt.count = conn.clnt.count) :
    Linked setup k { conn with clnt := clnt } execs v :=
  { h with
    reached := h.step hquiet hclnt
    carried := ⟨h.carried.up, h.carried.down⟩
    asked := h.asked.kept (kept_of_action (Demux.action_of_step hclnt) hcount) }

theorem Linked.shut (h : Linked setup k conn execs v) : Linked setup k conn.shut execs v :=
  { h with carried := ⟨h.carried.up.shut, h.carried.down.shut⟩ }

theorem Linked.rpc (h : Linked setup k conn execs v) {req : RPCArgs} {clnt : Demux.State}
    (hsmall : ∀ tag, Fits setup.msgs ⟨tag, setup.requests.marshall req, true⟩)
    (hclnt : conn.clnt.step? (.sendReceive (setup.requests.marshall req)) = some clnt) :
    Linked setup k { conn with clnt := clnt } execs v := by
  have hreached := h.step rfl hclnt
  simp only [State.step?, State.tag] at hclnt
  split_ifs at hclnt
  obtain rfl := Option.some.inj hclnt
  refine { h with reached := hreached, carried := ⟨h.carried.up, h.carried.down⟩, asked := ?_ }
  have hold : ∀ c < conn.clnt.count, Function.update conn.clnt.calls conn.clnt.count
      ⟨conn.clnt.nextTag, setup.requests.marshall req, .tagged, []⟩ c = conn.clnt.calls c :=
    fun c hc => Function.update_of_ne (Nat.ne_of_lt hc) _ _
  constructor
  · intro r hr
    obtain ⟨c, hc, heq, hsent⟩ := h.asked.sent r hr
    refine ⟨c, Nat.lt_succ_of_lt hc, ?_⟩
    simp only [State.setCall, hold c hc]
    exact ⟨heq, hsent⟩
  · intro hcount
    exact h.asked.nodup (Nat.lt_of_succ_lt hcount)
  · intro c hc
    have hc' : conn.clnt.count + 1 ≤ c := hc
    simp only [State.setCall]
    rw [Function.update_of_ne (by omega)]
    exact h.asked.idle c (by omega)
  · intro c hc
    rcases Nat.lt_succ_iff_lt_or_eq.mp hc with hlt | rfl
    · simp only [State.setCall, hold c hlt]
      exact h.asked.calls c hlt
    · simp only [State.setCall, Function.update_self]
      exact ⟨req, rfl, hsmall⟩

/-- A call that has not begun its write is not asked yet. -/
theorem Linked.not_asked (h : Linked setup k conn execs v) (hcount : conn.clnt.count < 2 ^ 32)
    {c : ℕ} (hc : c < conn.clnt.count) (hsent : sentPhase (conn.clnt.calls c).phase = false) :
    (conn.clnt.calls c).tag ∉ (requested v.up conn.srv.serving execs).map Prod.fst := by
  intro hmem
  obtain ⟨r, hr, htag⟩ := List.mem_map.mp hmem
  obtain ⟨c', hc', rfl, hsent'⟩ := h.asked.sent r hr
  have hsound := (invariant_of_reached h.reached hcount).sound
  obtain rfl : c' = c := hsound.tag_inj hcount hc' hc htag
  rw [hsent] at hsent'
  cases hsent'

theorem Asked.cons {clnt : Demux.State} {reqs : List (Ttag × Bytes)} (h : Asked setup clnt reqs)
    {c : ℕ} (hc : c < clnt.count) (hsent : sentPhase (clnt.calls c).phase = true)
    (hnew : clnt.count < 2 ^ 32 → (clnt.calls c).tag ∉ reqs.map Prod.fst) :
    Asked setup clnt (((clnt.calls c).tag, (clnt.calls c).req) :: reqs) where
  sent r hr := by
    rcases List.mem_cons.mp hr with rfl | hr
    · exact ⟨c, hc, rfl, hsent⟩
    · exact h.sent r hr
  nodup hcount := List.nodup_cons.mpr ⟨hnew hcount, h.nodup hcount⟩
  idle := h.idle
  calls := h.calls

/-- A request whose frame gets through is under way. -/
theorem Linked.write (h : Linked setup k conn execs v) {c : ℕ} {clnt : Demux.State} (n : ℕ)
    (hclnt : conn.clnt.step? (.write c false) = some clnt) :
    ∃ v', Linked setup k { conn with
      clnt := clnt
      up := conn.up.write
        (frame setup.msgs ⟨(conn.clnt.calls c).tag, (conn.clnt.calls c).req, true⟩) n }
            execs v' := by
  have hreached := h.step rfl hclnt
  have hkept := kept_of_action (Demux.action_of_step hclnt)
  simp only [State.step?, Bool.false_eq_true, if_false] at hclnt
  split_ifs at hclnt with hcond
  obtain rfl := Option.some.inj hclnt
  have hc : c < conn.clnt.count := by
    refine not_le.mp fun hle => ?_
    have hidle := h.asked.idle c hle
    rw [hcond.1] at hidle
    cases hidle
  obtain ⟨req, -, hfits⟩ := h.asked.calls c hc
  have hup := h.carried.up.write (hfits (conn.clnt.calls c).tag) n
  by_cases htakes : conn.up.takes
      (frame setup.msgs ⟨(conn.clnt.calls c).tag, (conn.clnt.calls c).req, true⟩) n = true
  · rw [if_pos htakes] at hup
    refine ⟨{ v with
      up := v.up ++ [⟨(conn.clnt.calls c).tag, (conn.clnt.calls c).req, true⟩]
      received := ((conn.clnt.calls c).tag, (conn.clnt.calls c).req) :: v.received },
      { h with
        reached := h.reached.tail ⟨.write c true, if_pos hcond⟩
        carried := ⟨?_, h.carried.down⟩
        tracked := ⟨?_, h.tracked.replies⟩
        asked := ?_ }⟩
    · convert hup using 1
      split_ifs <;> rfl
    · simp only [List.map_append, List.map_cons, List.map_nil, List.append_assoc, request]
      exact (h.tracked.received.cons _).trans List.perm_middle.symm
    · have hnew := fun hcount => h.not_asked hcount hc (by rw [hcond.1]; rfl)
      have hasked := (h.asked.kept (hkept rfl)).cons hc
        (by simp [State.setPhase, State.setCall, sentPhase])
        (by simpa [State.setPhase, State.setCall] using hnew)
      refine hasked.perm ?_
      simp only [requested, List.map_append, List.map_cons, List.map_nil,
        List.append_assoc, request,
        State.setPhase, State.setCall, Function.update_self]
      exact List.perm_middle.symm
  · rw [if_neg htakes] at hup
    exact ⟨v, { h with
      reached := hreached
      carried := ⟨hup, h.carried.down⟩
      asked := h.asked.kept (hkept rfl) }⟩

/-- The reader of the client takes the next reply off its pipe. -/
theorem Linked.read (h : Linked setup k conn execs v) {m : Msg} {rest : Bytes}
    (hreader : conn.clnt.reader = .reading)
    (hread : readCall setup.msgs conn.down.here = .message m rest) :
    ∃ v', Linked setup k { conn with
      clnt := { conn.clnt with reader := .replying m.tag m.reply none }
      down := { conn.down with here := rest } } execs v' := by
  obtain ⟨ms, hdown, hrest⟩ := carries_of_message h.carried.down hread
  have hmem : m ∈ v.replies :=
    h.tracked.replies.mem_iff.mpr (by rw [hdown]; exact List.mem_cons_self)
  obtain ⟨i, hi⟩ := List.mem_iff_getElem?.mp hmem
  have hstep : (v.link conn.clnt).step? (.read i) = some (View.link
      { v with down := ms, replies := v.replies.eraseIdx i }
      { conn.clnt with reader := .replying m.tag m.reply none }) := by
    simp only [State.step?, View.link, hreader, if_true, hi, Option.map_some]
  refine ⟨{ v with down := ms, replies := v.replies.eraseIdx i }, { h with
    reached := h.reached.tail ⟨_, hstep⟩
    carried := ⟨h.carried.up, hrest⟩
    tracked := ⟨h.tracked.received, ?_⟩
    asked := h.asked.kept (kept_of_calls rfl rfl) }⟩
  have hperm := (cons_eraseIdx_perm hi).trans h.tracked.replies
  rw [hdown] at hperm
  exact hperm.cons_inv

theorem Linked.arriveUp (h : Linked setup k conn execs v) (n : ℕ) :
    Linked setup k { conn with up := conn.up.arrive n } execs v :=
  { h with carried := ⟨h.carried.up.arrive n, h.carried.down⟩ }

theorem Linked.arriveDown (h : Linked setup k conn execs v) (n : ℕ) :
    Linked setup k { conn with down := conn.down.arrive n } execs v :=
  { h with carried := ⟨h.carried.up, h.carried.down.arrive n⟩ }

/-- What `NewDemuxSrv` reads is the name of the client. -/
theorem Linked.accept (h : Linked setup k conn execs v) {m : Msg} {rest : Bytes}
    (hreader : conn.srv.reader = .accepting)
    (hread : readCall setup.msgs conn.up.here = .message m rest) :
    m = setup.initMsg k ∧
      Linked setup k { conn with
        up := { conn.up with here := rest }
        srv := { conn.srv with clntEnd := setup.names k, reader := .reading } } execs v := by
  have hup := h.carried.up
  rw [if_pos hreader] at hup
  obtain ⟨ms, hcons, hrest⟩ := carries_of_message hup hread
  obtain ⟨rfl, rfl⟩ := List.cons.inj hcons
  refine ⟨rfl, { h with
    carried := ⟨hrest, h.carried.down⟩
    recorded := { h.recorded with name := fun _ => rfl, accepting := fun hacc => by cases hacc } }⟩

/-- What the reader of the server reads becomes a goroutine. -/
theorem Linked.request (h : Linked setup k conn execs v) {m : Msg} {rest : Bytes}
    (hreader : conn.srv.reader = .reading)
    (hread : readCall setup.msgs conn.up.here = .message m rest) :
    ∃ v', Linked setup k { conn with
      up := { conn.up with here := rest }
      srv := { conn.srv with serving := ⟨m.tag, m.data, none⟩ :: conn.srv.serving } } execs v' := by
  have hne : conn.srv.reader ≠ .accepting := by
    rw [hreader]
    exact SrvReader.noConfusion
  have hup := h.carried.up
  rw [if_neg hne] at hup
  obtain ⟨ms, hcons, hrest⟩ := carries_of_message hup hread
  refine ⟨{ v with up := ms }, { h with
    carried := ⟨?_, h.carried.down⟩
    tracked := ⟨?_, h.tracked.replies⟩
    recorded := ?_
    asked := ?_ }⟩
  · change Carries _ _ _ (if conn.srv.reader = .accepting then _ else _)
    rw [if_neg hne]
    exact hrest
  · refine h.tracked.received.trans ?_
    rw [hcons]
    exact List.perm_middle.symm
  · refine { h.recorded with accepting := fun hacc => absurd hacc hne, served := ?_ }
    intro g hg r hr
    rcases List.mem_cons.mp hg with rfl | hg
    · cases hr
    · exact h.recorded.served g hg r hr
  · refine h.asked.perm ?_
    rw [hcons]
    exact List.perm_middle.symm

theorem Linked.stop (h : Linked setup k conn execs v) (closed : Bool)
    (hreader : conn.srv.reader = .reading) :
    Linked setup k { conn with srv := { conn.srv with closed := closed, reader := .stopped } }
      execs v := by
  have hne : conn.srv.reader ≠ .accepting := by
    rw [hreader]
    exact SrvReader.noConfusion
  have hup := h.carried.up
  rw [if_neg hne] at hup
  exact { h with
    carried := ⟨hup, h.carried.down⟩
    recorded := { h.recorded with
      name := fun _ => h.recorded.name hne
      accepting := fun hacc => by cases hacc } }

theorem set_perm_cons_eraseIdx {α : Type*} {l : List α} {i : ℕ} {x : α} (h : l[i]? = some x)
    (y : α) : (l.set i y).Perm (y :: l.eraseIdx i) := by
  obtain ⟨hi, -⟩ := List.getElem?_eq_some_iff.mp h
  have hperm := cons_eraseIdx_perm (List.getElem?_set_self (a := y) hi)
  rw [List.eraseIdx_set_eq] at hperm
  exact hperm.symm

/-- `ServeRequest` returns. -/
theorem Linked.serve (h : Linked setup k conn execs v) {i : ℕ} {g : Goroutine} {rep : Bytes}
    {ok : Bool} {state state' : σ} (hg : conn.srv.serving[i]? = some g) (hreply : g.reply = none)
    (hserve : setup.serveRequest state conn.srv.clntEnd g.req = .ok ((rep, ok), state')) :
    Linked setup k { conn with
        srv := { conn.srv with
          serving := conn.srv.serving.set i { g with reply := some (rep, ok) } } }
      (⟨k, g.tag, conn.srv.clntEnd, g.req, rep, ok⟩ :: execs) v := by
  have hperm := (cons_eraseIdx_perm hg).symm
  have hperm' := set_perm_cons_eraseIdx hg { g with reply := some (rep, ok) }
  have hne : conn.srv.reader ≠ .accepting := by
    intro hacc
    rw [h.recorded.accepting hacc] at hg
    cases hg
  refine { h with
    carried := ⟨h.carried.up, h.carried.down⟩
    tracked := ⟨h.tracked.received.trans ?_, h.tracked.replies⟩
    recorded := ?_
    asked := h.asked.perm ?_ }
  · have hreqs : (conn.srv.serving.map Goroutine.request).Perm ((conn.srv.serving.set i
        { g with reply := some (rep, ok) }).map Goroutine.request) :=
      (hperm.map Goroutine.request).trans (hperm'.map Goroutine.request).symm
    exact (hreqs.append_right _).append_left _
  · refine ⟨h.recorded.name, fun hacc => absurd hacc hne, ?_, ?_, ?_⟩
    · intro x hx
      rcases List.mem_cons.mp hx with rfl | hx
      · exact h.recorded.name hne
      · exact h.recorded.named x hx
    · exact fun m hm => List.mem_cons_of_mem _ (h.recorded.answered m hm)
    · intro g' hg' r hr
      rcases List.mem_cons.mp (hperm'.mem_iff.mp hg') with rfl | hold
      · obtain rfl := Option.some.inj hr
        obtain ⟨req, -, hdispatch⟩ := serveRequest_ok hserve
        exact ⟨List.mem_cons_self, setup.reply_fits hdispatch g.tag⟩
      · have hold' := h.recorded.served g' (List.mem_of_mem_eraseIdx hold) r hr
        exact ⟨List.mem_cons_of_mem _ hold'.1, hold'.2⟩
  · have hwaits := hperm.filter Goroutine.waits
    have hwaits' := hperm'.filter Goroutine.waits
    rw [List.filter_cons_of_pos (by rw [Goroutine.waits, hreply]; rfl)] at hwaits
    rw [List.filter_cons_of_neg (by simp [Goroutine.waits])] at hwaits'
    have hreqs := (hwaits.map Goroutine.request).trans
      ((hwaits'.symm.map Goroutine.request).cons g.request)
    refine List.Perm.append_left _ ((hreqs.append_right _).trans ?_)
    exact List.perm_middle.symm

theorem Linked.respond (h : Linked setup k conn execs v) {i : ℕ} {g : Goroutine} {r : Bytes × Bool}
    (n : ℕ) (hg : conn.srv.serving[i]? = some g) (hreply : g.reply = some r) :
    ∃ v', Linked setup k { conn with
      down := conn.down.write (frame setup.msgs ⟨g.tag, r.1, r.2⟩) n
      srv := { conn.srv with serving := conn.srv.serving.eraseIdx i } } execs v' := by
  have hmem := List.mem_of_getElem? hg
  have hperm := (cons_eraseIdx_perm hg).symm
  obtain ⟨hexec, hfits⟩ := h.recorded.served g hmem r hreply
  have hdown := h.carried.down.write hfits n
  have hrecorded : Recorded setup k { conn.srv with serving := conn.srv.serving.eraseIdx i }
      v.answered execs :=
    { h.recorded with
      accepting := fun hacc => by rw [h.recorded.accepting hacc]; rfl
      served := fun g' hg' => h.recorded.served g' (List.mem_of_mem_eraseIdx hg') }
  have hasked : (requested v.up conn.srv.serving execs).Perm
      (requested v.up (conn.srv.serving.eraseIdx i) execs) := by
    have hwaits := hperm.filter Goroutine.waits
    rw [List.filter_cons_of_neg (by simp [Goroutine.waits, hreply])] at hwaits
    exact ((hwaits.map Goroutine.request).append_right _).append_left _
  have hreceived := h.tracked.received.trans
    (((hperm.map Goroutine.request).append_right _).append_left _)
  by_cases htakes : conn.down.takes (frame setup.msgs ⟨g.tag, r.1, r.2⟩) n = true
  · rw [if_pos htakes] at hdown
    have hrec : g.request ∈ v.received := by
      refine hreceived.mem_iff.mpr ?_
      simp
    obtain ⟨j, hj⟩ := List.mem_iff_getElem?.mp hrec
    have hstep : (v.link conn.clnt).step? (.answer j r.1 r.2) = some (View.link
        { v with
          down := v.down ++ [⟨g.tag, r.1, r.2⟩]
          received := v.received.eraseIdx j
          replies := ⟨g.tag, r.1, r.2⟩ :: v.replies
          answered := ⟨g.tag, r.1, r.2⟩ :: v.answered } conn.clnt) := by
      simp only [State.step?, View.link, hj, Option.map_some, Goroutine.request]
    refine ⟨_, { h with
      reached := h.reached.tail ⟨_, hstep⟩
      carried := ⟨h.carried.up, hdown⟩
      tracked := ⟨?_, ?_⟩
      recorded := ?_
      asked := h.asked.perm hasked }⟩
    · have hall := ((cons_eraseIdx_perm hj).trans hreceived).trans List.perm_middle
      exact hall.cons_inv
    · exact (h.tracked.replies.cons _).trans (List.perm_append_singleton _ _).symm
    · refine { hrecorded with answered := fun m hm => ?_ }
      rcases List.mem_cons.mp hm with rfl | hm
      · exact hexec
      · exact h.recorded.answered m hm
  · rw [if_neg htakes] at hdown
    refine ⟨{ v with lost := g.request :: v.lost }, { h with
      carried := ⟨h.carried.up, hdown⟩
      tracked := ⟨hreceived.trans ?_, h.tracked.replies⟩
      recorded := hrecorded
      asked := h.asked.perm hasked }⟩
    exact List.Perm.append_left _ List.perm_middle.symm

theorem Linked.closeSrv (h : Linked setup k conn execs v) :
    Linked setup k { conn.shut with srv := { conn.srv with closed := true } } execs v :=
  { h.shut with
    carried := ⟨h.shut.carried.up, h.shut.carried.down⟩
    recorded := { h.recorded with } }

end Links

end DistributedLabs.SockRpc
