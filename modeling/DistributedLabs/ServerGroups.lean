import DistributedLabs.LabrpcCalls

/-!
# Servers that the tester stops and starts again

Every server of a group is a process of its own. `ShutdownServer` takes the name of the server
off the network, then asks the process for what its persister holds, then kills it;
`StartServer` starts a process from what was saved and puts the name back. Calls go on
meanwhile. Asked for its persister, a process first closes its connections, so that calls to it
fail from then on, but handlers go on running in it until it is killed.

A server is one that persists every request it executes before it replies, so that its
persister stands for what it has executed.
-/

namespace DistributedLabs.ServerGroups

open Labrpc LogPrefixes TransitionRuns Relation

variable {E N A R : Type*}

/-- Where a server of the group is in its life; a process is known by the number of the
`labrpc` server that forwards to it. -/
inductive Life where
  | stopped
  | running (dc : ℕ)
  | deleted (dc : ℕ)
  | closed (dc : ℕ)
  | checkpointed (dc : ℕ)
  deriving DecidableEq, Repr

structure Group (E N A R : Type*) where
  net : Network E N A R
  life : N → Life
  saved : N → List (Execution E A R)
  closed : ℕ → Bool
  killed : ℕ → Bool

def newGroup : Group E N A R where
  net := makeNetwork
  life _ := .stopped
  saved _ := []
  closed _ := false
  killed _ := false

inductive Event (E N A R : Type*) where
  | network (e : Labrpc.Event E N A R)
  | startServer (name : N)
  | deleteServer (name : N)
  | checkpointPersister (name : N)
  | checkpoint (name : N)
  | kill (name : N)

/-- Handlers run in processes that are there, and only a process that has closed its connections
fails to answer; servers come and go through the group. -/
def Group.admits (g : Group E N A R) : Labrpc.Event E N A R → Bool
  | .makeServer _ | .addServer _ _ | .deleteServer _ => false
  | .execute c _ => g.net.calls[c]?.any fun call => match call.dispatch with
    | .started server => !g.killed server
    | _ => false
  | .executeFails c | .replyLost c => g.net.calls[c]?.any fun call => match call.dispatch with
    | .started server | .finished server _ => g.closed server
    | _ => false
  | _ => true

section Steps

variable [DecidableEq E] [DecidableEq N]
  (serve : List (Execution E A R) → ReqMsg E A → ReplyMsg R → Bool)

def Group.step? (g : Group E N A R) : Event E N A R → Option (Group E N A R)
  | .network e =>
    if g.admits e then (g.net.step? serve e).map fun net => { g with net := net } else none
  | .startServer name => match g.life name with
    | .stopped =>
      (g.net.step? serve (.makeServer (g.saved name))).bind fun net =>
        (net.step? serve (.addServer name g.net.made.length)).map fun net =>
          { g with net := net, life := Function.update g.life name (.running g.net.made.length) }
    | _ => none
  | .deleteServer name => match g.life name with
    | .running dc => (g.net.step? serve (.deleteServer name)).map fun net =>
      { g with net := net, life := Function.update g.life name (.deleted dc) }
    | _ => none
  | .checkpointPersister name => match g.life name with
    | .deleted dc => some { g with
      closed := Function.update g.closed dc true
      life := Function.update g.life name (.closed dc) }
    | _ => none
  | .checkpoint name => match g.life name with
    | .closed dc => g.net.made[dc]?.map fun sv => { g with
      saved := Function.update g.saved name sv.history
      life := Function.update g.life name (.checkpointed dc) }
    | _ => none
  | .kill name => match g.life name with
    | .checkpointed dc => some { g with
      killed := Function.update g.killed dc true
      life := Function.update g.life name .stopped }
    | _ => none

def Step (g g' : Group E N A R) : Prop := ∃ e, g.step? serve e = some g'

def Reached (g : Group E N A R) : Prop := Reachable (· = newGroup) (Step serve) g

end Steps

/-- What the persister of the named server holds, or is given when the server starts. -/
def Group.lineage (g : Group E N A R) (name : N) : List (Execution E A R) :=
  match g.life name with
  | .running dc | .deleted dc | .closed dc => (g.net.made[dc]?.map Server.history).getD []
  | .checkpointed _ | .stopped => g.saved name

/-- The request of call `c` was executed and had that reply. -/
def Logged (serve : List (Execution E A R) → ReqMsg E A → ReplyMsg R → Bool)
    (history : List (Execution E A R)) (c : ℕ) (req : ReqMsg E A) (reply : ReplyMsg R) : Prop :=
  ∃ before after, history = before ++ ⟨c, req, reply⟩ :: after ∧ serve before req reply = true

section Durability

variable [DecidableEq E] [DecidableEq N]
  {serve : List (Execution E A R) → ReqMsg E A → ReplyMsg R → Bool} {g g' : Group E N A R}
  {rn : Network E N A R} {e : Event E N A R} {c : ℕ} {call call' : Call E N A R}
  {req : ReqMsg E A} {reply : ReplyMsg R} {name : N}

omit [DecidableEq E] [DecidableEq N] in
theorem Logged.mono {history history' : List (Execution E A R)}
    (h : Logged serve history c req reply) (hle : history <+: history') :
    Logged serve history' c req reply := by
  obtain ⟨before, after, rfl, hreply⟩ := h
  obtain ⟨new, rfl⟩ := hle
  exact ⟨before, after ++ new, by simp, hreply⟩

omit [DecidableEq E] [DecidableEq N] in
theorem history_of_extends {rn' : Network E N A R} (h : Extends rn rn') (dc : ℕ) :
    (rn.made[dc]?.map Server.history).getD [] <+: (rn'.made[dc]?.map Server.history).getD [] := by
  cases hsv : rn.made[dc]? with
  | none => exact List.nil_prefix
  | some sv =>
    obtain ⟨new, hnew⟩ := h dc sv hsv
    exact ⟨new, by simp [hnew, Server.history]⟩

omit [DecidableEq E] in
/-- A server's life goes on, and those of the others stay as they were. -/
theorem lineage_update {g g' : Group E N A R} {name name' : N} {next : Life}
    (hlife : g'.life = Function.update g.life name next) (hext : Extends g.net g'.net)
    (hsaved : ∀ other, other ≠ name → g'.saved other = g.saved other)
    (hname : g.lineage name <+: g'.lineage name) :
    g.lineage name' <+: g'.lineage name' := by
  by_cases heq : name' = name
  · exact heq ▸ hname
  · have hsame : g'.life name' = g.life name' := by rw [hlife, Function.update_of_ne heq]
    unfold Group.lineage
    rw [hsame, hsaved name' heq]
    split
    · exact history_of_extends hext _
    · exact history_of_extends hext _
    · exact history_of_extends hext _
    · exact List.prefix_rfl
    · exact List.prefix_rfl

inductive Group.Action (serve : List (Execution E A R) → ReqMsg E A → ReplyMsg R → Bool)
    (g : Group E N A R) : Group E N A R → Prop
  | network {e : Labrpc.Event E N A R} {net : Network E N A R} (hadmits : g.admits e = true)
    (hnet : g.net.step? serve e = some net) : Action serve g { g with net := net }
  | startServer {name : N} (hlife : g.life name = .stopped) : Action serve g { g with
      net := { g.net with
        made := g.net.made ++ [⟨g.saved name, []⟩]
        servers := Function.update g.net.servers name (some g.net.made.length) }
      life := Function.update g.life name (.running g.net.made.length) }
  | deleteServer {name : N} {dc : ℕ} (hlife : g.life name = .running dc) :
    Action serve g { g with
      net := { g.net with servers := Function.update g.net.servers name none }
      life := Function.update g.life name (.deleted dc) }
  | checkpointPersister {name : N} {dc : ℕ} (hlife : g.life name = .deleted dc) :
    Action serve g { g with
      closed := Function.update g.closed dc true
      life := Function.update g.life name (.closed dc) }
  | checkpoint {name : N} {dc : ℕ} {sv : Server E A R} (hlife : g.life name = .closed dc)
    (hsv : g.net.made[dc]? = some sv) : Action serve g { g with
      saved := Function.update g.saved name sv.history
      life := Function.update g.life name (.checkpointed dc) }
  | kill {name : N} {dc : ℕ} (hlife : g.life name = .checkpointed dc) : Action serve g { g with
      killed := Function.update g.killed dc true
      life := Function.update g.life name .stopped }

theorem Group.action_of_step (h : g.step? serve e = some g') : g.Action serve g' := by
  cases e with
  | network e =>
    simp only [Group.step?] at h
    split_ifs at h with hadmits
    obtain ⟨net, hnet, rfl⟩ := Option.map_eq_some_iff.mp h
    exact .network hadmits hnet
  | startServer name =>
    simp only [Group.step?] at h
    split at h
    · next hlife =>
      simp [Network.step?, Network.configure] at h
      exact h ▸ .startServer hlife
    · cases h
  | deleteServer name =>
    simp only [Group.step?] at h
    split at h
    · next dc hlife => exact Option.some.inj h ▸ .deleteServer hlife
    · cases h
  | checkpointPersister name =>
    simp only [Group.step?] at h
    split at h
    · next dc hlife => exact Option.some.inj h ▸ .checkpointPersister hlife
    · cases h
  | checkpoint name =>
    simp only [Group.step?] at h
    split at h
    · next dc hlife =>
      obtain ⟨sv, hsv, rfl⟩ := Option.map_eq_some_iff.mp h
      exact .checkpoint hlife hsv
    · cases h
  | kill name =>
    simp only [Group.step?] at h
    split at h
    · next dc hlife => exact Option.some.inj h ▸ .kill hlife
    · cases h

theorem Group.extends_of_action (h : g.Action serve g') : Extends g.net g'.net := by
  cases h with
  | network hadmits hnet => exact Labrpc.extends_of_action (Network.action_of_step hnet)
  | startServer hlife =>
    intro i sv hsv
    exact ⟨[], by simp [List.getElem?_append_left (List.getElem?_eq_some_iff.mp hsv).1, hsv]⟩
  | deleteServer hlife => exact fun i sv hsv => ⟨[], by simp [hsv]⟩
  | checkpointPersister hlife => exact fun i sv hsv => ⟨[], by simp [hsv]⟩
  | checkpoint hlife hsv => exact fun i sv hsv => ⟨[], by simp [hsv]⟩
  | kill hlife => exact fun i sv hsv => ⟨[], by simp [hsv]⟩

/-- Nothing that the persister of a server holds is lost, however the tester interleaves
stopping and starting servers with the calls. -/
theorem lineage_of_action (h : g.Action serve g') (name : N) :
    g.lineage name <+: g'.lineage name := by
  have hext := Group.extends_of_action h
  cases h with
  | network hadmits hnet =>
    unfold Group.lineage
    dsimp only
    split
    · exact history_of_extends hext _
    · exact history_of_extends hext _
    · exact history_of_extends hext _
    · exact List.prefix_rfl
    · exact List.prefix_rfl
  | startServer hlife =>
    exact lineage_update rfl hext (fun _ _ => rfl) (by simp [Group.lineage, hlife, Server.history])
  | deleteServer hlife =>
    exact lineage_update rfl hext (fun _ _ => rfl) (by simp [Group.lineage, hlife])
  | checkpointPersister hlife =>
    exact lineage_update rfl hext (fun _ _ => rfl) (by simp [Group.lineage, hlife])
  | checkpoint hlife hsv =>
    exact lineage_update rfl hext (fun other hne => Function.update_of_ne hne _ _)
      (by simp [Group.lineage, hlife, hsv])
  | kill hlife =>
    exact lineage_update rfl hext (fun _ _ => rfl) (by simp [Group.lineage, hlife])

omit [DecidableEq E] [DecidableEq N] in
/-- A call is told a success only by the check that its server is still the registered one. -/
theorem replying_of_goes {e : Labrpc.Event E N A R} (h : rn.Goes c call e call')
    (hphase : call'.phase = .replying reply ∨ call'.phase = .done reply) (hok : reply.ok = true) :
    (call.phase = .replying reply ∨ call.phase = .done reply) ∨
      ∃ info, call.phase = .returned info reply ∧
        rn.servers info.servername = some info.server := by
  cases h with
  | passed hp halive =>
    simp only [Network.isServerDead, Bool.or_eq_false_iff, bne_eq_false_iff_eq] at halive
    simp only [Phase.replying.injEq, reduceCtorEq, or_false] at hphase
    exact Or.inr ⟨_, hphase ▸ hp, halive.2⟩
  | reply hp =>
    simp only [Phase.done.injEq, reduceCtorEq, false_or] at hphase
    exact Or.inl (Or.inl (hphase ▸ hp))
  | abandon | timeout | dropRequest | dead | dropReply | failed =>
    obtain rfl : ReplyMsg.failure = reply := by simpa using hphase
    cases hok
  | executeFails | replyLost | alive | drain => exact Or.inl hphase
  | take | found | refused | dispatch | collect | gaveUp => simp at hphase

structure Sound (serve : List (Execution E A R) → ReqMsg E A → ReplyMsg R → Bool)
    (g : Group E N A R) : Prop where
  net : Labrpc.Sound serve g.net
  registered : ∀ name dc, g.net.servers name = some dc → g.life name = .running dc
  acknowledged : ∀ (c : ℕ) (call : Call E N A R), g.net.calls[c]? = some call →
    ∀ reply, call.phase = .replying reply ∨ call.phase = .done reply → reply.ok = true →
      ∃ name, Logged serve (g.lineage name) c call.req reply

omit [DecidableEq E] [DecidableEq N] in
theorem sound_newGroup : Sound serve (newGroup : Group E N A R) :=
  ⟨sound_makeNetwork, nofun, nofun⟩

theorem Sound.net_of_action (h : Sound serve g) (haction : g.Action serve g') :
    Labrpc.Sound serve g'.net := by
  cases haction with
  | network hadmits hnet => exact h.net.step (Network.action_of_step hnet)
  | @startServer name hlife =>
    have hadd : Network.configure { g.net with made := g.net.made ++ [⟨g.saved name, []⟩] }
        (.addServer name g.net.made.length) = some { g.net with
          made := g.net.made ++ [⟨g.saved name, []⟩]
          servers := Function.update g.net.servers name (some g.net.made.length) } := by
      simp [Network.configure]
    exact (h.net.step (.makeServer (g.saved name))).step (.configure hadd)
  | @deleteServer name dc hlife => exact h.net.step (.configure (e := .deleteServer name) rfl)
  | checkpointPersister hlife => exact h.net
  | checkpoint hlife hsv => exact h.net
  | kill hlife => exact h.net

/-- Names are registered and taken off through the group only. -/
theorem servers_of_admitted {e : Labrpc.Event E N A R} {net : Network E N A R}
    (hadmits : g.admits e = true) (h : g.net.step? serve e = some net) :
    net.servers = g.net.servers := by
  cases Network.action_of_step h with
  | call req => rfl
  | goes hcall hgoes => rfl
  | execute hcall hdispatch hsv hserve => rfl
  | makeServer base => rfl
  | configure hconfigure =>
    unfold Network.configure at hconfigure
    split at hconfigure <;> try split_ifs at hconfigure
    all_goals cases hconfigure
    all_goals first | rfl | cases hadmits

omit [DecidableEq E] in
/-- A server that is on the network is not concerned by what happens to one that is not. -/
theorem Sound.registered_update (h : Sound serve g) {name' : N} {dc : ℕ} {life next : Life}
    (hname : g.net.servers name = some dc) (hlife : g.life name' = life)
    (hoff : ∀ dc, life ≠ .running dc) :
    Function.update g.life name' next name = .running dc := by
  have hrunning := h.registered name dc hname
  have hne : name ≠ name' := by
    rintro rfl
    exact hoff dc (hlife.symm.trans hrunning)
  rwa [Function.update_of_ne hne]

theorem Sound.registered_of_action (h : Sound serve g) (haction : g.Action serve g') (name : N)
    (dc : ℕ) (hname : g'.net.servers name = some dc) : g'.life name = .running dc := by
  cases haction with
  | network hadmits hnet =>
    rw [servers_of_admitted hadmits hnet] at hname
    exact h.registered name dc hname
  | @startServer name' hlife =>
    by_cases heq : name = name'
    · subst heq
      simpa using hname
    · simp only [Function.update_of_ne heq] at hname ⊢
      exact h.registered name dc hname
  | @deleteServer name' dc' hlife =>
    by_cases heq : name = name'
    · subst heq
      simp at hname
    · simp only [Function.update_of_ne heq] at hname ⊢
      exact h.registered name dc hname
  | checkpointPersister hlife => exact h.registered_update hname hlife nofun
  | checkpoint hlife hsv => exact h.registered_update hname hlife nofun
  | kill hlife => exact h.registered_update hname hlife nofun

omit [DecidableEq E] [DecidableEq N] in
/-- A call that its server has executed is logged while the server is registered. -/
theorem Sound.logged (h : Sound serve g) {dc : ℕ} (hname : g.net.servers name = some dc)
    (hexec : Executed serve g.net c dc req reply) : Logged serve (g.lineage name) c req reply := by
  obtain ⟨sv, before, after, hsv, hexec, hreply⟩ := hexec
  refine ⟨sv.base ++ before, after, ?_, hreply⟩
  simp [Group.lineage, h.registered name dc hname, hsv, Server.history, hexec]

theorem Sound.acknowledged_of_network (h : Sound serve g) {e : Labrpc.Event E N A R}
    {net : Network E N A R} (hnet : g.net.step? serve e = some net)
    (hcall : net.calls[c]? = some call)
    (hphase : call.phase = .replying reply ∨ call.phase = .done reply) (hok : reply.ok = true) :
    ∃ name, Logged serve (g.lineage name) c call.req reply := by
  cases Network.action_of_step hnet with
  | call req =>
    rcases getElem?_concat_cases hcall with ⟨-, rfl⟩ | hcall
    · simp at hphase
    · exact h.acknowledged c call hcall reply hphase hok
  | @goes e c' before after hbefore hgoes =>
    rcases getElem?_set_cases hcall with ⟨rfl, rfl⟩ | ⟨-, hcall⟩
    · rw [goes_req hgoes]
      rcases replying_of_goes hgoes hphase hok with hold | ⟨info, hreturned, hserver⟩
      · exact h.acknowledged c before hbefore reply hold hok
      · have hsound := (h.net.call c before hbefore).phase
        rw [PhaseSound, hreturned] at hsound
        exact ⟨info.servername, h.logged hserver (hsound.2 hok)⟩
    · exact h.acknowledged c call hcall reply hphase hok
  | @execute c' server before sv reply' hbefore hdispatch hsv hserve =>
    rcases getElem?_set_cases hcall with ⟨rfl, rfl⟩ | ⟨-, hcall⟩
    · exact h.acknowledged c before hbefore reply hphase hok
    · exact h.acknowledged c call hcall reply hphase hok
  | makeServer base => exact h.acknowledged c call hcall reply hphase hok
  | configure hconfigure =>
    rw [(Network.configure_same hconfigure).2] at hcall
    exact h.acknowledged c call hcall reply hphase hok

theorem Sound.step (h : Sound serve g) (haction : g.Action serve g') : Sound serve g' where
  net := h.net_of_action haction
  registered := h.registered_of_action haction
  acknowledged c call hcall reply hphase hok := by
    suffices hlogged : ∃ name, Logged serve (g.lineage name) c call.req reply by
      obtain ⟨name, hlogged⟩ := hlogged
      exact ⟨name, hlogged.mono (lineage_of_action haction name)⟩
    cases haction with
    | network hadmits hnet => exact h.acknowledged_of_network hnet hcall hphase hok
    | startServer | deleteServer | checkpointPersister | checkpoint | kill =>
      exact h.acknowledged c call hcall reply hphase hok

theorem sound_of_reached (h : Reached serve g) : Sound serve g :=
  h.invariant (fun _ hinit => hinit ▸ sound_newGroup)
    fun _ _ _ hsound ⟨_, hstep⟩ => hsound.step (Group.action_of_step hstep)

theorem lineage_of_run (h : ReflTransGen (Step serve) g g') (name : N) :
    g.lineage name <+: g'.lineage name := by
  induction h with
  | refl => exact List.prefix_rfl
  | tail _ hstep ih =>
    obtain ⟨e, hstep⟩ := hstep
    exact ih.trans (lineage_of_action (Group.action_of_step hstep) name)

/-- What a client has been told was done stays done: a call that returned true is in the
persister of its server from then on, at a place where it has the reply that was returned,
through every shutdown and restart. -/
theorem acknowledged_durable (h : Reached serve g) (hcall : g.net.calls[c]? = some call)
    (hdone : call.phase = .done reply) (hok : reply.ok = true) :
    ∃ name, ∀ later, ReflTransGen (Step serve) g later →
      Logged serve (later.lineage name) c call.req reply := by
  obtain ⟨name, hlogged⟩ :=
    (sound_of_reached h).acknowledged c call hcall reply (Or.inr hdone) hok
  exact ⟨name, fun later hrun => hlogged.mono (lineage_of_run hrun name)⟩

end Durability

section Example

def acknowledgedFirst : List (Event ℕ ℕ ℕ ℕ) :=
  [.startServer 0, .network (.makeEnd 7), .network (.connect 7 0), .network (.enable 7 true),
    .network (.call firstEnd), .network (.take 0), .network (.readEndnameInfo 0),
    .network (.dispatch 0), .network (.execute 0 ⟨true, some 5⟩), .network (.collect 0),
    .network (.call firstEnd), .network (.take 1), .network (.readEndnameInfo 1),
    .network (.dispatch 1), .network (.lastCheck 0 false), .network (.reply 0)]

/-- The second call is executed after the checkpoint, and fails. -/
def restarted : List (Event ℕ ℕ ℕ ℕ) :=
  [.deleteServer 0, .checkpointPersister 0, .checkpoint 0, .network (.execute 1 ⟨true, some 6⟩),
    .network (.replyLost 1), .network (.collect 1), .kill 0, .startServer 0]

/-- The new process has the first call and has lost the second one. -/
theorem acknowledged_durable_restarted : ∃ g later : Group ℕ ℕ ℕ ℕ, Reached counting g ∧
    ReflTransGen (Step counting) g later ∧ later.life 0 = .running 1 ∧ Ran later.net 1 0 1 ∧
    later.lineage 0 = [⟨0, firstEnd, ⟨true, some 5⟩⟩] ∧
    ∃ name, Logged counting (later.lineage name) 0 firstEnd ⟨true, some 5⟩ := by
  let test := fun later : Group ℕ ℕ ℕ ℕ => decide (later.life 0 = .running 1 ∧
    later.net.made[0]?.map (fun sv => sv.executed[1]?) =
      some (some ⟨1, firstEnd, ⟨true, some 6⟩⟩) ∧
    later.lineage 0 = [⟨0, firstEnd, ⟨true, some 5⟩⟩])
  let acknowledged := fun g : Group ℕ ℕ ℕ ℕ => decide
    (g.net.calls[0]? = some ⟨firstEnd, .done ⟨true, some 5⟩, .collected⟩) &&
    (exec (Group.step? counting) g restarted).any test
  have htest :
      (exec (Group.step? counting) newGroup acknowledgedFirst).any acknowledged = true := by
    decide +kernel
  obtain ⟨g, hg, htest⟩ : ∃ g, ReflTransGen (Step counting) newGroup g ∧ acknowledged g = true :=
    exists_of_exec (fun _ e _ he => ⟨e, he⟩) htest
  obtain ⟨hcall, htest⟩ := Bool.and_eq_true_iff.mp htest
  obtain ⟨later, hlater, htest⟩ :
      ∃ later, ReflTransGen (Step counting) g later ∧ test later = true :=
    exists_of_exec (fun _ e _ he => ⟨e, he⟩) htest
  obtain ⟨hlife, hran, hlineage⟩ := of_decide_eq_true htest
  obtain ⟨sv, hsv, hran⟩ := Option.map_eq_some_iff.mp hran
  have hreached : Reached counting g := ⟨_, rfl, hg⟩
  obtain ⟨name, hdurable⟩ := acknowledged_durable hreached (of_decide_eq_true hcall) rfl rfl
  exact ⟨g, later, hreached, hlater, hlife, ⟨sv, firstEnd, _, hsv, hran⟩, hlineage, name,
    hdurable later hlater⟩

end Example

end DistributedLabs.ServerGroups
