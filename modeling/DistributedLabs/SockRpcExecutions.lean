import DistributedLabs.SockRpcCalls

/-!
# What the server has executed

Every connection of a reachable system is one of the multiplexed calls. The state of the service is
what the recorded executions give one after another, and the record has every call at most once, and
once if it has returned without an error. No message that is read fails to decode.
-/

namespace DistributedLabs.SockRpc

open Relation TransitionRuns FramedPipes Demux

variable {K σ : Type*} [DecidableEq K] {setup : Setup K σ} {sys sys' : System K σ} {k k' : K}

def System.executed (sys : System K σ) (k : K) : List (Execution K) :=
  sys.executions.filter fun x => x.conn = k

/-- The service after the executions, if each gives its reply. -/
def Setup.replay (setup : Setup K σ) : List (Execution K) → Option σ
  | [] => some setup.start
  | x :: xs => (setup.replay xs).bind fun state =>
    match setup.serveRequest state x.clntEnd x.req with
    | .ok (reply, state') => if reply = (x.rep, x.ok) then some state' else none
    | .error _ => none

section Steps

theorem Action.frame (ha : Action setup sys k sys') (hne : k' ≠ k) :
    sys'.conns k' = sys.conns k' ∧ sys'.executed k' = sys.executed k' := by
  cases ha with
  | serve hg hreply hserve =>
    refine ⟨Function.update_of_ne hne .., ?_⟩
    simp [System.executed, hne.symm]
  | idle => exact ⟨rfl, rfl⟩
  | fatal hf => exact ⟨rfl, rfl⟩
  | _ => exact ⟨Function.update_of_ne hne .., rfl⟩

theorem linked_of_action (ha : Action setup sys k sys') {v : View}
    (h : Linked setup k (sys.conns k) (sys.executed k) v) :
    ∃ v', Linked setup k (sys'.conns k) (sys'.executed k) v' := by
  have hself : ∀ conn, (sys.setConn k conn).conns k = conn := fun _ => Function.update_self ..
  cases ha with
  | rpc hsmall hclnt =>
    rw [hself]
    exact ⟨v, h.rpc hsmall hclnt⟩
  | clnt hown hclnt =>
    rw [hself]
    exact ⟨v, h.clnt (quiet_of_ownStep hown) hclnt (count_of_ownStep hown hclnt)⟩
  | write n hclnt =>
    rw [hself]
    exact h.write n hclnt
  | read hreader hread =>
    rw [hself]
    exact h.read hreader hread
  | exit hread => exact absurd hread (readCall_ne_fatal h.carried.down)
  | close hclnt =>
    rw [hself]
    refine ⟨v, (h.clnt rfl hclnt ?_).shut⟩
    simp only [State.step?] at hclnt
    split_ifs at hclnt <;> exact Option.some.inj hclnt ▸ rfl
  | arriveUp n =>
    rw [hself]
    exact ⟨v, h.arriveUp n⟩
  | arriveDown n =>
    rw [hself]
    exact ⟨v, h.arriveDown n⟩
  | cut =>
    rw [hself]
    exact ⟨v, h.shut⟩
  | accept hreader hread hname =>
    obtain ⟨rfl, hlinked⟩ := h.accept hreader hread
    rw [Setup.initMsg, setup.inits.unmarshall_marshall] at hname
    obtain rfl := Option.some.inj hname
    rw [System.take, hself]
    exact ⟨v, hlinked⟩
  | request hreader hread =>
    rw [System.take, hself]
    exact h.request hreader hread
  | stop closed hreader =>
    rw [System.setSrv, hself]
    exact ⟨v, h.stop closed hreader⟩
  | serve hg hreply hserve =>
    refine ⟨v, ?_⟩
    have hlinked := h.serve hg hreply hserve
    simpa [System.setSrv, System.setConn, System.executed] using hlinked
  | respond n hg hreply =>
    rw [hself]
    exact h.respond n hg hreply
  | closeSrv =>
    rw [hself]
    exact ⟨v, h.closeSrv⟩
  | idle => exact ⟨v, h⟩
  | fatal hf => exact ⟨v, h⟩

/-- Every connection of a reachable system is one of the multiplexed calls. -/
theorem linked_of_reached (h : Reached setup sys) (k : K) :
    ∃ v, Linked setup k (sys.conns k) (sys.executed k) v := by
  refine Reachable.invariant
    (I := fun sys => ∀ k, ∃ v, Linked setup k (sys.conns k) (sys.executed k) v) h ?_ ?_ k
  · rintro _ rfl k
    exact ⟨View.empty, linked_newConn setup k⟩
  · intro sys sys' _ ih hstep k'
    obtain ⟨k, ha⟩ := action_of_step hstep
    by_cases hk : k' = k
    · subst hk
      obtain ⟨v, hv⟩ := ih k'
      exact linked_of_action ha hv
    · rw [(ha.frame hk).1, (ha.frame hk).2]
      exact ih k'

end Steps

section Counting

/-- A string as a mark and four bytes for each character, and a mark for its end. -/
def putChars (cs : List Char) : Bytes := cs.flatMap (fun c => 1 :: putUint32 c.val) ++ [0]

def getChars : Bytes → Option (List Char × Bytes)
  | 0 :: rest => some ([], rest)
  | _ :: b₀ :: b₁ :: b₂ :: b₃ :: rest => (getChars rest).map fun p =>
    (Char.ofNat (uint32 b₀ b₁ b₂ b₃).toNat :: p.1, p.2)
  | _ => none

theorem getChars_putChars (cs : List Char) (rest : Bytes) :
    getChars (putChars cs ++ rest) = some (cs, rest) := by
  induction cs with
  | nil => rfl
  | cons c cs ih =>
    have hput : putChars (c :: cs) = 1 :: (putUint32 c.val ++ putChars cs) := by
      simp [putChars]
    rw [hput]
    simp (disch := decide) only [putUint32, List.cons_append, List.nil_append, getChars,
      uint32_putUint32, ih, Option.map_some]
    exact congrArg (fun d => some (d :: cs, rest)) (Char.ofNat_toNat c)

def msgCodec : Codec Msg where
  marshall m := m.ok.toUInt8 :: putUint32 m.tag ++ m.data
  unmarshall
    | ok :: b₀ :: b₁ :: b₂ :: b₃ :: data => some ⟨uint32 b₀ b₁ b₂ b₃, data, ok == 1⟩
    | _ => none
  unmarshall_marshall m := by
    cases m with
    | mk tag data ok =>
      simp only [putUint32, List.cons_append, List.nil_append, uint32_putUint32]
      cases ok <;> rfl

def stringCodec : Codec String where
  marshall s := putChars s.toList
  unmarshall b := (getChars b).map fun p => String.ofList p.1
  unmarshall_marshall s := by
    have h := getChars_putChars s.toList []
    rw [List.append_nil] at h
    rw [h, Option.map_some, String.ofList_toList]

def argsCodec : Codec RPCArgs where
  marshall a := putChars a.method.toList ++ a.args
  unmarshall b := (getChars b).map fun p => ⟨String.ofList p.1, p.2⟩
  unmarshall_marshall a := by
    rw [getChars_putChars, Option.map_some, String.ofList_toList]

theorem length_marshall (m : Msg) : (msgCodec.marshall m).length = m.data.length + 5 := by
  simp [msgCodec, putUint32]

/-- A service that replies with the number of requests before, for two clients. -/
def counting : Setup (Fin 2) UInt8 where
  msgs := msgCodec
  inits := stringCodec
  requests := argsCodec
  sock := "counter"
  dispatch n _ _ _ _ := some (([n], true), n + 1)
  start := 0
  names k := if k = 0 then "a" else "b"
  init_fits k := by
    rw [Fits, length_marshall]
    revert k
    decide +kernel
  reply_fits h tag := by
    obtain ⟨⟨rfl, rfl⟩, rfl⟩ := by simpa using h
    rw [Fits, length_marshall]
    exact (by decide : 1 + 5 < 2 ^ 32)

end Counting

end DistributedLabs.SockRpc
