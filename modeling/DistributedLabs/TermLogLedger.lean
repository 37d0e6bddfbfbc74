import DistributedLabs.TermLogProtocol
import Mathlib.Tactic.Linarith

/-!
# The durable bookkeeping is invariant

Terms never decrease, a member is recorded with at most one vote in each term and
with at most one candidacy in each term, nobody acknowledges or leads a term above
its own, and the leader of a member's current term, if it is that member, still has
the log recorded for the term.
-/

namespace DistributedLabs.TermLogProtocol

open LogPrefixes MajorityQuorums TransitionRuns Relation

variable {P E : Type*} {termOf : E → ℤ} [DecidableEq P] {s : State P E}

theorem Ledger.advance {p : P} {T : ℤ} (hs : Ledger termOf s) (hT : s.term p < T) :
    Ledger termOf (s.advance p T) where
  term_nonneg q := by grind [hs.term_nonneg p, hs.term_nonneg q]
  log_le h := by grind [State.advance, hs.log_le h]
  leaderLog_le := hs.leaderLog_le
  leaderLog_none := hs.leaderLog_none
  leader_le h := by grind [State.advance, hs.leader_le h]
  leader_pos := hs.leader_pos
  leader_log {U c} h hc := by
    have hle := hs.leader_le h
    have hcp : c ≠ p := by rintro rfl; grind
    exact hs.leader_log h (by grind)
  candidacy_pos := hs.candidacy_pos
  candidacy_le h := by grind [State.advance, hs.candidacy_le h]
  candidacy_lt := hs.candidacy_lt
  candidacy_unique := hs.candidacy_unique
  vote_le h := by grind [State.advance, hs.vote_le h]
  vote_current {q c} h := by
    have hle : _ ≤ s.term q := hs.vote_le h
    have hqp : q ≠ p := by rintro rfl; grind
    have hq : (s.advance p T).term q = s.term q := by grind
    rw [hq] at h
    grind [hs.vote_current h]
  vote_unique := hs.vote_unique
  vote_candidacy := hs.vote_candidacy
  ack_le h := by grind [State.advance, hs.ack_le h]
  ack_length := hs.ack_length

theorem Ledger.campaign {p : P} {T : ℤ} (hs : Ledger termOf s) (hT : s.term p < T) :
    Ledger termOf (s.campaign p T) where
  term_nonneg q := by grind [hs.term_nonneg p, hs.term_nonneg q]
  log_le h := by grind [State.campaign, hs.log_le h]
  leaderLog_le := hs.leaderLog_le
  leaderLog_none := hs.leaderLog_none
  leader_le h := by grind [State.campaign, hs.leader_le h]
  leader_pos := hs.leader_pos
  leader_log {U c} h hc := by
    have hle := hs.leader_le h
    have hcp : c ≠ p := by rintro rfl; grind
    exact hs.leader_log h (by grind)
  candidacy_pos {U c l} h := by
    rcases h with h | h
    · have := hs.term_nonneg p
      grind
    · exact hs.candidacy_pos h
  candidacy_le {U c l} h := by
    rcases h with h | h
    · grind
    · grind [hs.candidacy_le h]
  candidacy_lt {U c l} h e he := by
    rcases h with h | h
    · obtain ⟨rfl, rfl, rfl⟩ : U = T ∧ c = p ∧ l = s.log p := by grind
      exact lt_of_le_of_lt (hs.log_le he) hT
    · exact hs.candidacy_lt h e he
  candidacy_unique {U c l l'} h h' := by
    rcases h with h | h <;> rcases h' with h' | h'
    · grind
    · grind [hs.candidacy_le h']
    · grind [hs.candidacy_le h]
    · exact hs.candidacy_unique h h'
  vote_le {q U c} h := by
    rcases h with h | h
    · grind
    · grind [hs.vote_le h]
  vote_current {q c} h := by
    rcases h with h | h
    · grind
    · have hle : _ ≤ s.term q := hs.vote_le h
      have hqp : q ≠ p := by rintro rfl; grind
      have hq : (s.campaign p T).term q = s.term q := by grind
      rw [hq] at h
      grind [hs.vote_current h]
  vote_unique {q U c c'} h h' := by
    rcases h with h | h <;> rcases h' with h' | h'
    · grind
    · grind [hs.vote_le h']
    · grind [hs.vote_le h]
    · exact hs.vote_unique h h'
  vote_candidacy {q U c} h := by
    rcases h with h | h
    · obtain ⟨rfl, rfl, rfl⟩ : q = p ∧ U = T ∧ c = p := by grind
      exact ⟨s.log c, Set.mem_insert _ _⟩
    · obtain ⟨l, hl⟩ := hs.vote_candidacy h
      exact ⟨l, Set.mem_insert_of_mem _ hl⟩
  ack_le h := by grind [State.campaign, hs.ack_le h]
  ack_length := hs.ack_length

theorem Ledger.grant {p c : P} {l : List E} (hs : Ledger termOf s)
    (hvote : s.vote p = none ∨ s.vote p = some c) (hcand : (s.term p, c, l) ∈ s.candidacies) :
    Ledger termOf (s.grant p c) where
  term_nonneg := hs.term_nonneg
  log_le := hs.log_le
  leaderLog_le := hs.leaderLog_le
  leaderLog_none := hs.leaderLog_none
  leader_le := hs.leader_le
  leader_pos := hs.leader_pos
  leader_log := hs.leader_log
  candidacy_pos := hs.candidacy_pos
  candidacy_le := hs.candidacy_le
  candidacy_lt := hs.candidacy_lt
  candidacy_unique := hs.candidacy_unique
  vote_le {q U d} h := by
    rcases h with h | h
    · obtain ⟨rfl, rfl, rfl⟩ : q = p ∧ U = s.term p ∧ d = c := by grind
      exact le_rfl
    · exact hs.vote_le h
  vote_current {q d} h := by
    rcases h with h | h
    · grind
    · have := hs.vote_current h
      grind
  vote_unique {q U d d'} h h' := by
    rcases h with h | h <;> rcases h' with h' | h'
    · grind
    · obtain ⟨rfl, rfl, rfl⟩ : q = p ∧ U = s.term p ∧ d = c := by grind
      have := hs.vote_current h'
      grind
    · obtain ⟨rfl, rfl, rfl⟩ : q = p ∧ U = s.term p ∧ d' = c := by grind
      have := hs.vote_current h
      grind
    · exact hs.vote_unique h h'
  vote_candidacy {q U d} h := by
    rcases h with h | h
    · obtain ⟨rfl, rfl, rfl⟩ : q = p ∧ U = s.term p ∧ d = c := by grind
      exact ⟨l, hcand⟩
    · exact hs.vote_candidacy h
  ack_le := hs.ack_le
  ack_length := hs.ack_length

omit [DecidableEq P] in
theorem Ledger.elect {c : P} (hs : Ledger termOf s)
    (hcand : (s.term c, c, s.log c) ∈ s.candidacies) (hnone : s.leader (s.term c) = none) :
    Ledger termOf (s.elect c) where
  term_nonneg := hs.term_nonneg
  log_le := hs.log_le
  leaderLog_le {U e} h := by
    rw [elect_leaderLog] at h
    split at h
    · next hU => exact hU ▸ hs.log_le h
    · exact hs.leaderLog_le h
  leaderLog_none {U} h := by
    have := hs.leaderLog_none (T := U)
    grind
  leader_le {U d} h := by
    rw [elect_leader] at h
    split at h
    · next hU =>
      cases h
      exact hU.le
    · exact hs.leader_le h
  leader_pos {U} h := by
    have := hs.candidacy_pos hcand
    have := hs.leader_pos (T := U)
    grind
  leader_log {U d} h hd := by
    rw [elect_leader] at h
    rw [elect_leaderLog]
    split at h
    · next hU =>
      cases h
      rw [if_pos hU]
      rfl
    · next hU =>
      rw [if_neg hU]
      exact hs.leader_log h hd
  candidacy_pos := hs.candidacy_pos
  candidacy_le := hs.candidacy_le
  candidacy_lt := hs.candidacy_lt
  candidacy_unique := hs.candidacy_unique
  vote_le := hs.vote_le
  vote_current := hs.vote_current
  vote_unique := hs.vote_unique
  vote_candidacy := hs.vote_candidacy
  ack_le {q U m} h := by
    rcases h with h | h
    · obtain ⟨rfl, rfl, rfl⟩ : q = c ∧ U = s.term c ∧ m = (s.log c).length := by grind
      exact le_rfl
    · exact hs.ack_le h
  ack_length {q U m} h := by
    rw [elect_leaderLog]
    rcases h with h | h
    · grind
    · have hm := hs.ack_length h
      split
      · next hU =>
        rw [hU, hs.leaderLog_none hnone, List.length_nil] at hm
        omega
      · exact hm

theorem Ledger.append {c : P} {e : E} (hs : Ledger termOf s)
    (hlead : s.leader (s.term c) = some c) (he : termOf e = s.term c) :
    Ledger termOf (s.append c e) where
  term_nonneg := hs.term_nonneg
  log_le {q x} h := by
    rw [append_log] at h
    split at h
    · next hq =>
      subst hq
      rcases List.mem_append.mp h with h | h
      · exact hs.log_le h
      · rw [List.mem_singleton.mp h, he]
        exact le_rfl
    · exact hs.log_le h
  leaderLog_le {U x} h := by
    rw [append_leaderLog] at h
    split at h
    · next hU =>
      subst hU
      rcases List.mem_append.mp h with h | h
      · exact hs.leaderLog_le h
      · rw [List.mem_singleton.mp h, he]
    · exact hs.leaderLog_le h
  leaderLog_none {U} h := by
    have hU : U ≠ s.term c := fun hU => by
      rw [hU] at h
      exact absurd (hlead.symm.trans h) (Option.some_ne_none c)
    rw [append_leaderLog, if_neg hU]
    exact hs.leaderLog_none h
  leader_le := hs.leader_le
  leader_pos := hs.leader_pos
  leader_log {U d} h hd := by
    have hlog := hs.leader_log h hd
    rw [append_log, append_leaderLog]
    by_cases hdc : d = c
    · subst hdc
      have hU : U = s.term d := hd.symm
      rw [if_pos rfl, if_pos hU, hlog, hU]
    · have hU : U ≠ s.term c := fun hU => by
        rw [hU] at h
        exact hdc (Option.some.inj (h.symm.trans hlead))
      rw [if_neg hdc, if_neg hU, hlog]
  candidacy_pos := hs.candidacy_pos
  candidacy_le := hs.candidacy_le
  candidacy_lt := hs.candidacy_lt
  candidacy_unique := hs.candidacy_unique
  vote_le := hs.vote_le
  vote_current := hs.vote_current
  vote_unique := hs.vote_unique
  vote_candidacy := hs.vote_candidacy
  ack_le {q U m} h := by
    rcases h with h | h
    · obtain ⟨rfl, rfl, rfl⟩ : q = c ∧ U = s.term c ∧ m = (s.log c).length + 1 := by grind
      exact le_rfl
    · exact hs.ack_le h
  ack_length {q U m} h := by
    rw [append_leaderLog]
    rcases h with h | h
    · obtain ⟨rfl, rfl, rfl⟩ : q = c ∧ U = s.term c ∧ m = (s.log c).length + 1 := by grind
      simp [hs.leader_log hlead rfl]
    · have := hs.ack_length h
      split
      · next hU =>
        subst hU
        simp only [List.length_append]
        omega
      · exact this

theorem Ledger.replicate {p : P} {T : ℤ} {m : ℕ} (hs : Ledger termOf s)
    (hT : s.term p ≤ T) (hm : m ≤ (s.leaderLog T).length) :
    Ledger termOf (s.replicate p T m) where
  term_nonneg q := by grind [hs.term_nonneg p, hs.term_nonneg q]
  log_le {q e} h := by
    rw [replicate_log] at h
    rw [replicate_term]
    split at h
    · next hq =>
      rw [if_pos hq]
      rcases adopt_cases (s.log p) ((s.leaderLog T).take m) with ha | ha <;> rw [ha] at h
      · exact (hs.log_le h).trans hT
      · exact hs.leaderLog_le (List.mem_of_mem_take h)
    · next hq =>
      rw [if_neg hq]
      exact hs.log_le h
  leaderLog_le := hs.leaderLog_le
  leaderLog_none := hs.leaderLog_none
  leader_le h := by grind [State.replicate, hs.leader_le h]
  leader_pos := hs.leader_pos
  leader_log {U d} h hd := by
    have hle : U ≤ s.term d := hs.leader_le h
    rw [replicate_term] at hd
    rw [replicate_log]
    split at hd
    · next hq =>
      subst hq hd
      have hlog := hs.leader_log h (le_antisymm hT hle)
      rw [if_pos rfl, hlog]
      exact adopt_eq_left (List.take_prefix _ _)
    · next hq =>
      rw [if_neg hq]
      exact hs.leader_log h hd
  candidacy_pos := hs.candidacy_pos
  candidacy_le h := by grind [State.replicate, hs.candidacy_le h]
  candidacy_lt := hs.candidacy_lt
  candidacy_unique := hs.candidacy_unique
  vote_le h := by grind [State.replicate, hs.vote_le h]
  vote_current {q c} h := by
    have hle : _ ≤ s.term q := hs.vote_le h
    have hq : (s.replicate p T m).term q = s.term q := by grind
    rw [hq] at h
    grind [hs.vote_current h]
  vote_unique := hs.vote_unique
  vote_candidacy := hs.vote_candidacy
  ack_le {q U k} h := by
    rcases h with h | h
    · grind
    · grind [hs.ack_le h]
  ack_length {q U k} h := by
    rcases h with h | h
    · obtain ⟨rfl, rfl, rfl⟩ : q = p ∧ U = T ∧ k = m := by grind
      exact hm
    · exact hs.ack_length h

variable [Fintype P]

theorem Step.ledger {p : P} {t : State P E} (h : Step termOf p s t) (hs : Ledger termOf s) :
    Ledger termOf t := by
  cases h with
  | advance hT => exact hs.advance hT
  | campaign hT => exact hs.campaign hT
  | grant hvote hcand hup => exact hs.grant hvote hcand
  | elect hcand hnone hQ hvotes => exact hs.elect hcand hnone
  | append hlead he => exact hs.append hlead he
  | replicate hlead hT hm => exact hs.replicate hT hm

theorem Reached.ledger (h : Reached termOf s) : Ledger termOf s :=
  h.invariant (fun _ h => h ▸ ledger_initial) (fun _ _ _ hs ⟨_, hst⟩ => hst.ledger hs)

/-- Entries keep the order of their creation in every log. -/
structure Sourced (s : State P E) : Prop where
  log : ∀ p, (s.log p).Sublist s.created
  leaderLog : ∀ T, (s.leaderLog T).Sublist s.created

theorem Step.sourced {p : P} {t : State P E} (h : Step termOf p s t) (hs : Sourced s) :
    Sourced t := by
  cases h with
  | advance hT => exact ⟨hs.log, hs.leaderLog⟩
  | campaign hT => exact ⟨hs.log, hs.leaderLog⟩
  | grant hvote hcand hup => exact ⟨hs.log, hs.leaderLog⟩
  | elect hcand hnone hQ hvotes =>
    refine ⟨hs.log, fun T => ?_⟩
    rw [elect_leaderLog]
    split
    · exact hs.log p
    · exact hs.leaderLog T
  | @append _ _ e hlead he =>
    refine ⟨fun q => ?_, fun T => ?_⟩
    · rw [append_log]
      split
      · exact (hs.log p).append_right [e]
      · exact (hs.log q).trans (List.sublist_append_left _ _)
    · rw [append_leaderLog]
      split
      · exact (hs.leaderLog _).append_right [e]
      · exact (hs.leaderLog T).trans (List.sublist_append_left _ _)
  | @replicate _ _ T m hlead hT hm =>
    refine ⟨fun q => ?_, hs.leaderLog⟩
    rw [replicate_log]
    split
    · rcases adopt_cases (s.log p) ((s.leaderLog T).take m) with h | h <;> rw [h]
      · exact hs.log p
      · exact (List.take_sublist _ _).trans (hs.leaderLog T)
    · exact hs.log q

theorem Reached.sourced (h : Reached termOf s) : Sourced s :=
  h.invariant (fun _ h => h ▸ ⟨fun _ => .refl _, fun _ => .refl _⟩)
    (fun _ _ _ hs ⟨_, hst⟩ => hst.sourced hs)

end DistributedLabs.TermLogProtocol
