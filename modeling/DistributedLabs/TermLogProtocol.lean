import DistributedLabs.LogPrefixes
import DistributedLabs.MajorityQuorums
import DistributedLabs.TransitionRuns
import Mathlib.Data.Set.Insert
import Mathlib.Logic.Function.Basic

/-!
# Elections and replication of whole logs, by terms

An abstract consensus protocol over logs that are never compacted. Members vote at
most once in a term, a majority elects the leader of a term, the leader appends to
its own log, and any member may adopt any prefix of a leader's log. A member's
term, vote and log are the durable ones, so a crash is not a step at all. The
history of the protocol (the log of each leader, the candidacies, the votes and the
acknowledgements) is part of the state and only grows.
-/

namespace DistributedLabs.TermLogProtocol

open LogPrefixes MajorityQuorums TransitionRuns Relation

variable {P E : Type*}

/-- Durable state of the members, and the history of the protocol. -/
structure State (P E : Type*) where
  term : P → ℤ
  vote : P → Option P
  log : P → List E
  leader : ℤ → Option P
  electionLog : ℤ → List E
  leaderLog : ℤ → List E
  candidacies : Set (ℤ × P × List E)
  votes : Set (P × ℤ × P)
  acks : Set (P × ℤ × ℕ)
  created : List E

def initial : State P E where
  term _ := 0
  vote _ := none
  log _ := []
  leader _ := none
  electionLog _ := []
  leaderLog _ := []
  candidacies := ∅
  votes := ∅
  acks := ∅
  created := []

section Actions

variable [DecidableEq P] (s : State P E)

/-- Move to a later term without voting in it. -/
def State.advance (p : P) (T : ℤ) : State P E :=
  { s with
    term := Function.update s.term p T
    vote := Function.update s.vote p none }

/-- Stand for election in a later term, with the own vote and the present log. -/
def State.campaign (p : P) (T : ℤ) : State P E :=
  { s with
    term := Function.update s.term p T
    vote := Function.update s.vote p (some p)
    candidacies := insert (T, p, s.log p) s.candidacies
    votes := insert (p, T, p) s.votes }

/-- Vote for a candidate of the current term. -/
def State.grant (p c : P) : State P E :=
  { s with
    vote := Function.update s.vote p (some c)
    votes := insert (p, s.term p, c) s.votes }

/-- Become the leader of the current term. -/
def State.elect (c : P) : State P E :=
  { s with
    leader := Function.update s.leader (s.term c) (some c)
    electionLog := Function.update s.electionLog (s.term c) (s.log c)
    leaderLog := Function.update s.leaderLog (s.term c) (s.log c)
    acks := insert (c, s.term c, (s.log c).length) s.acks }

/-- The leader of the current term appends one entry. -/
def State.append (c : P) (e : E) : State P E :=
  { s with
    log := Function.update s.log c (s.log c ++ [e])
    leaderLog := Function.update s.leaderLog (s.term c) (s.leaderLog (s.term c) ++ [e])
    acks := insert (c, s.term c, (s.log c).length + 1) s.acks
    created := s.created ++ [e] }

/-- Take over the first `m` entries of the log of the leader of term `T`. -/
noncomputable def State.replicate (p : P) (T : ℤ) (m : ℕ) : State P E :=
  { s with
    term := Function.update s.term p T
    vote := Function.update s.vote p (if s.term p < T then none else s.vote p)
    log := Function.update s.log p (adopt (s.log p) ((s.leaderLog T).take m))
    acks := insert (p, T, m) s.acks }

variable {s} {p q c : P} {T U : ℤ} {m : ℕ} {e : E}

@[grind =] theorem advance_term : (s.advance p T).term q = if q = p then T else s.term q :=
  Function.update_apply _ _ _ _

@[grind =] theorem advance_vote : (s.advance p T).vote q = if q = p then none else s.vote q :=
  Function.update_apply _ _ _ _

@[grind =] theorem campaign_term : (s.campaign p T).term q = if q = p then T else s.term q :=
  Function.update_apply _ _ _ _

@[grind =] theorem campaign_vote :
    (s.campaign p T).vote q = if q = p then some p else s.vote q := Function.update_apply _ _ _ _

@[grind =] theorem grant_vote : (s.grant p c).vote q = if q = p then some c else s.vote q :=
  Function.update_apply _ _ _ _

omit [DecidableEq P] in
@[grind =] theorem elect_leader :
    (s.elect c).leader U = if U = s.term c then some c else s.leader U :=
  Function.update_apply _ _ _ _

omit [DecidableEq P] in
@[grind =] theorem elect_electionLog :
    (s.elect c).electionLog U = if U = s.term c then s.log c else s.electionLog U :=
  Function.update_apply _ _ _ _

omit [DecidableEq P] in
@[grind =] theorem elect_leaderLog :
    (s.elect c).leaderLog U = if U = s.term c then s.log c else s.leaderLog U :=
  Function.update_apply _ _ _ _

@[grind =] theorem append_log :
    (s.append c e).log q = if q = c then s.log c ++ [e] else s.log q :=
  Function.update_apply _ _ _ _

@[grind =] theorem append_leaderLog : (s.append c e).leaderLog U =
    if U = s.term c then s.leaderLog (s.term c) ++ [e] else s.leaderLog U :=
  Function.update_apply _ _ _ _

@[grind =] theorem replicate_term :
    (s.replicate p T m).term q = if q = p then T else s.term q := Function.update_apply _ _ _ _

@[grind =] theorem replicate_vote : (s.replicate p T m).vote q =
    if q = p then (if s.term p < T then none else s.vote p) else s.vote q :=
  Function.update_apply _ _ _ _

@[grind =] theorem replicate_log : (s.replicate p T m).log q =
    if q = p then adopt (s.log p) ((s.leaderLog T).take m) else s.log q :=
  Function.update_apply _ _ _ _

end Actions

section Steps

variable (termOf : E → ℤ)

/-- Term of the last entry, zero for the empty log. -/
def lastTerm (l : List E) : ℤ := (l.getLast?.map termOf).getD 0

/-- The candidate's log is at least as recent as the voter's. -/
def UpToDate (candidate voter : List E) : Prop :=
  lastTerm termOf voter < lastTerm termOf candidate ∨
    (lastTerm termOf voter = lastTerm termOf candidate ∧ voter.length ≤ candidate.length)

variable [Fintype P] [DecidableEq P]

/-- The steps of the protocol, each named after the member that takes it. -/
inductive Step : P → State P E → State P E → Prop
  | advance {s p T} (hT : s.term p < T) : Step p s (s.advance p T)
  | campaign {s p T} (hT : s.term p < T) : Step p s (s.campaign p T)
  | grant {s p c l} (hvote : s.vote p = none ∨ s.vote p = some c)
      (hcand : (s.term p, c, l) ∈ s.candidacies) (hup : UpToDate termOf l (s.log p)) :
      Step p s (s.grant p c)
  | elect {s c Q} (hcand : (s.term c, c, s.log c) ∈ s.candidacies)
      (hnone : s.leader (s.term c) = none) (hQ : Majority Q)
      (hvotes : ∀ p ∈ Q, (p, s.term c, c) ∈ s.votes) : Step c s (s.elect c)
  | append {s c e} (hlead : s.leader (s.term c) = some c) (he : termOf e = s.term c) :
      Step c s (s.append c e)
  | replicate {s p T m} (hlead : s.leader T ≠ none) (hT : s.term p ≤ T)
      (hm : m ≤ (s.leaderLog T).length) : Step p s (s.replicate p T m)

def Reached (s : State P E) : Prop :=
  Reachable (· = initial) (fun s t => ∃ p, Step termOf p s t) s

end Steps

/-- What the history of a later state has in common with that of an earlier one. -/
structure Grows (s t : State P E) : Prop where
  term : ∀ p, s.term p ≤ t.term p
  leader : ∀ {T c}, s.leader T = some c → t.leader T = some c
  electionLog : ∀ {T}, s.leader T ≠ none → t.electionLog T = s.electionLog T
  leaderLog : ∀ T, s.leaderLog T <+: t.leaderLog T
  candidacies : s.candidacies ⊆ t.candidacies
  votes : s.votes ⊆ t.votes
  acks : s.acks ⊆ t.acks

theorem Grows.refl (s : State P E) : Grows s s :=
  ⟨fun _ => le_rfl, id, fun _ => rfl, fun _ => List.prefix_rfl, subset_rfl, subset_rfl, subset_rfl⟩

theorem Grows.leader_ne_none {s t : State P E} (h : Grows s t) {T : ℤ}
    (hT : s.leader T ≠ none) : t.leader T ≠ none := by
  obtain ⟨c, hc⟩ := Option.ne_none_iff_exists'.mp hT
  rw [h.leader hc]
  exact Option.some_ne_none c

theorem Grows.trans {s t u : State P E} (h : Grows s t) (h' : Grows t u) : Grows s u where
  term p := (h.term p).trans (h'.term p)
  leader hc := h'.leader (h.leader hc)
  electionLog hT := (h'.electionLog (h.leader_ne_none hT)).trans (h.electionLog hT)
  leaderLog T := (h.leaderLog T).trans (h'.leaderLog T)
  candidacies := h.candidacies.trans h'.candidacies
  votes := h.votes.trans h'.votes
  acks := h.acks.trans h'.acks

/-- A prefix of a leader's log stays what it is while that log grows. -/
theorem Grows.take_leaderLog {s t : State P E} (h : Grows s t) {T : ℤ} {m : ℕ}
    (hm : m ≤ (s.leaderLog T).length) : (t.leaderLog T).take m = (s.leaderLog T).take m :=
  (take_eq_take_of_initial (h.leaderLog T) hm).symm

/-- What a step of one member leaves alone at another member. -/
structure Untouched (q : P) (s t : State P E) : Prop where
  term : t.term q = s.term q
  vote : t.vote q = s.vote q
  log : t.log q = s.log q
  leader : ∀ {T}, t.leader T = some q → s.leader T = some q

theorem Untouched.refl (q : P) (s : State P E) : Untouched q s s := ⟨rfl, rfl, rfl, id⟩

theorem Untouched.trans {q : P} {s t u : State P E} (h : Untouched q s t)
    (h' : Untouched q t u) : Untouched q s u :=
  ⟨h'.term.trans h.term, h'.vote.trans h.vote, h'.log.trans h.log,
    fun hT => h.leader (h'.leader hT)⟩

variable {termOf : E → ℤ} [Fintype P] [DecidableEq P]

theorem Step.untouched {p q : P} {s t : State P E} (h : Step termOf p s t) (hq : q ≠ p) :
    Untouched q s t := by
  cases h with
  | advance hT => exact ⟨by simp [State.advance, hq], by simp [State.advance, hq], rfl, id⟩
  | campaign hT => exact ⟨by simp [State.campaign, hq], by simp [State.campaign, hq], rfl, id⟩
  | grant hvote hcand hup => exact ⟨rfl, by simp [State.grant, hq], rfl, id⟩
  | elect hcand hnone hQ hvotes =>
    refine ⟨rfl, rfl, rfl, ?_⟩
    intro T hT
    by_cases h : T = s.term p
    · subst h
      simp only [State.elect, Function.update_self, Option.some.injEq] at hT
      exact absurd hT.symm hq
    · simpa [State.elect, h] using hT
  | append hlead he => exact ⟨rfl, rfl, by simp [State.append, hq], id⟩
  | replicate hlead hT hm =>
    exact ⟨by simp [State.replicate, hq], by simp [State.replicate, hq],
      by simp [State.replicate, hq], id⟩

/-- The durable bookkeeping of terms, candidacies, votes and acknowledgements. -/
structure Ledger (termOf : E → ℤ) (s : State P E) : Prop where
  term_nonneg : ∀ p, 0 ≤ s.term p
  log_le : ∀ {p e}, e ∈ s.log p → termOf e ≤ s.term p
  leaderLog_le : ∀ {T e}, e ∈ s.leaderLog T → termOf e ≤ T
  leaderLog_none : ∀ {T}, s.leader T = none → s.leaderLog T = []
  leader_le : ∀ {T c}, s.leader T = some c → T ≤ s.term c
  leader_pos : ∀ {T}, s.leader T ≠ none → 0 < T
  leader_log : ∀ {T c}, s.leader T = some c → s.term c = T → s.log c = s.leaderLog T
  candidacy_pos : ∀ {T c l}, (T, c, l) ∈ s.candidacies → 0 < T
  candidacy_le : ∀ {T c l}, (T, c, l) ∈ s.candidacies → T ≤ s.term c
  candidacy_lt : ∀ {T c l}, (T, c, l) ∈ s.candidacies → ∀ e ∈ l, termOf e < T
  candidacy_unique : ∀ {T c l l'}, (T, c, l) ∈ s.candidacies → (T, c, l') ∈ s.candidacies → l = l'
  vote_le : ∀ {p T c}, (p, T, c) ∈ s.votes → T ≤ s.term p
  vote_current : ∀ {p c}, (p, s.term p, c) ∈ s.votes → s.vote p = some c
  vote_unique : ∀ {p T c c'}, (p, T, c) ∈ s.votes → (p, T, c') ∈ s.votes → c = c'
  vote_candidacy : ∀ {p T c}, (p, T, c) ∈ s.votes → ∃ l, (T, c, l) ∈ s.candidacies
  ack_le : ∀ {p T m}, (p, T, m) ∈ s.acks → T ≤ s.term p
  ack_length : ∀ {p T m}, (p, T, m) ∈ s.acks → m ≤ (s.leaderLog T).length

omit [Fintype P] [DecidableEq P] in
theorem ledger_initial : Ledger termOf (initial : State P E) := by
  constructor <;> simp [initial]

theorem Step.grows {p : P} {s t : State P E} (hs : Ledger termOf s) (h : Step termOf p s t) :
    Grows s t := by
  cases h with
  | advance hT =>
    refine ⟨fun q => ?_, id, fun _ => rfl, fun _ => List.prefix_rfl, subset_rfl, subset_rfl,
      subset_rfl⟩
    by_cases hq : q = p
    · subst hq
      simpa [State.advance] using hT.le
    · simp [State.advance, hq]
  | campaign hT =>
    refine ⟨fun q => ?_, id, fun _ => rfl, fun _ => List.prefix_rfl, Set.subset_insert _ _,
      Set.subset_insert _ _, subset_rfl⟩
    by_cases hq : q = p
    · subst hq
      simpa [State.campaign] using hT.le
    · simp [State.campaign, hq]
  | grant hvote hcand hup =>
    exact ⟨fun _ => le_rfl, id, fun _ => rfl, fun _ => List.prefix_rfl, subset_rfl,
      Set.subset_insert _ _, subset_rfl⟩
  | elect hcand hnone hQ hvotes =>
    refine ⟨fun _ => le_rfl, ?_, ?_, ?_, subset_rfl, subset_rfl, Set.subset_insert _ _⟩
    · intro T c hc
      have hT : T ≠ s.term p := fun h => by rw [h, hnone] at hc; cases hc
      simpa [State.elect, hT] using hc
    · intro T hT
      have hT' : T ≠ s.term p := fun h => hT (h ▸ hnone)
      simp [State.elect, hT']
    · intro T
      by_cases hT : T = s.term p
      · subst hT
        rw [hs.leaderLog_none hnone]
        exact List.nil_prefix
      · simp [State.elect, hT]
  | append hlead he =>
    refine ⟨fun _ => le_rfl, id, fun _ => rfl, ?_, subset_rfl, subset_rfl, Set.subset_insert _ _⟩
    intro T
    by_cases hT : T = s.term p
    · subst hT
      simp [State.append]
    · simp [State.append, hT]
  | replicate hlead hT hm =>
    refine ⟨fun q => ?_, id, fun _ => rfl, fun _ => List.prefix_rfl, subset_rfl, subset_rfl,
      Set.subset_insert _ _⟩
    by_cases hq : q = p
    · subst hq
      simpa [State.replicate] using hT
    · simp [State.replicate, hq]

end DistributedLabs.TermLogProtocol
