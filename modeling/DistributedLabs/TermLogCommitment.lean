import DistributedLabs.TermLogCompleteness

/-!
# Committed prefixes form one chain

A prefix of a leader's log that ends in an entry of the leader's own term and that a
majority has acknowledged is committed. Every later leader was elected with it, hence
any two committed prefixes are comparable, in every state and between any two states
of one run.
-/

namespace DistributedLabs.TermLogProtocol

open LogPrefixes MajorityQuorums TransitionRuns Relation

variable {P E : Type*} {termOf : E → ℤ} [DecidableEq P] [Fintype P] {s t : State P E}

/-- Two members with a majority of the votes of one term are the same member. -/
theorem winner_unique {T : ℤ} {c d : P} {Q : Finset P} (hl : Ledger termOf s)
    (hc : Custody termOf s) (hQ : Majority Q) (hvotes : ∀ p ∈ Q, (p, T, c) ∈ s.votes)
    (hlead : s.leader T = some d) : c = d := by
  obtain ⟨R, hR, hRv⟩ := hc.elected hlead
  obtain ⟨p, hpQ, hpR⟩ := hQ.inter hR
  exact hl.vote_unique (hvotes p hpQ) (hRv p hpR).1

omit [DecidableEq P] in
/-- The first `m` entries of the log of term `T`'s leader are committed by it. -/
def Committed (termOf : E → ℤ) (s : State P E) (T : ℤ) (m : ℕ) : Prop :=
  Created termOf s T m ∧
    ∃ Q : Finset P, Majority Q ∧ ∀ p ∈ Q, ∃ k, m ≤ k ∧ (p, T, k) ∈ s.acks

omit [DecidableEq P] in
theorem Committed.grows {T : ℤ} {m : ℕ} (h : Committed termOf s T m) (hst : Grows s t) :
    Committed termOf t T m := by
  obtain ⟨hc, Q, hQ, hacks⟩ := h
  refine ⟨hc.grows hst, Q, hQ, fun p hp => ?_⟩
  obtain ⟨k, hk, ha⟩ := hacks p hp
  exact ⟨k, hk, hst.acks ha⟩

/-- Leader completeness: a committed prefix is in the election log of each later leader. -/
theorem Committed.prefix_electionLog {T U : ℤ} {m : ℕ} (h : Committed termOf s T m)
    (hc : Custody termOf s) (hTU : T < U) (hU : s.leader U ≠ none) :
    (s.leaderLog T).take m <+: s.electionLog U := by
  -- strong induction on the distance between the two terms
  induction hd : (U - T).toNat using Nat.strong_induction_on generalizing U with
  | _ d ih =>
    obtain ⟨c, hcU⟩ := Option.ne_none_iff_exists'.mp hU
    obtain ⟨hcr, Q, hQ, hacks⟩ := h
    obtain ⟨R, hR, hRv⟩ := hc.elected hcU
    obtain ⟨p, hpQ, hpR⟩ := hQ.inter hR
    obtain ⟨k, hk, ha⟩ := hacks p hpQ
    rcases (hRv p hpR).2 T k m ha hTU hk hcr with hin | ⟨V, hTV, hVU, hlack⟩
    · exact hin
    · exact absurd (ih (V - T).toNat (by omega) hTV hlack.1 rfl) hlack.2

/-- A committed prefix is in the log of the leader of its own and of each later term. -/
theorem Committed.prefix_leaderLog {T U : ℤ} {m : ℕ} (h : Committed termOf s T m)
    (hr : Roots termOf s) (hc : Custody termOf s) (hTU : T ≤ U) (hU : s.leader U ≠ none) :
    (s.leaderLog T).take m <+: s.leaderLog U := by
  rcases lt_or_eq_of_le hTU with hlt | rfl
  · exact (h.prefix_electionLog hc hlt hU).trans (hr.election U)
  · exact List.take_prefix m _

omit [DecidableEq P] in
/-- A log prefix known to be committed by a leader of term at most `T`. -/
def Chosen (termOf : E → ℤ) (s : State P E) (T : ℤ) (l : List E) : Prop :=
  l = [] ∨ ∃ U m, U ≤ T ∧ Committed termOf s U m ∧ l <+: (s.leaderLog U).take m

omit [DecidableEq P] in
theorem chosen_nil {T : ℤ} : Chosen termOf s T [] := Or.inl rfl

omit [DecidableEq P] in
theorem Chosen.grows {T : ℤ} {l : List E} (h : Chosen termOf s T l) (hst : Grows s t) :
    Chosen termOf t T l := by
  rcases h with h | ⟨U, m, hU, hcm, hl⟩
  · exact Or.inl h
  · refine Or.inr ⟨U, m, hU, hcm.grows hst, ?_⟩
    rwa [hst.take_leaderLog hcm.1.length]

omit [DecidableEq P] in
theorem Chosen.mono {T U : ℤ} {l : List E} (h : Chosen termOf s T l) (hTU : T ≤ U) :
    Chosen termOf s U l := by
  rcases h with h | ⟨V, m, hV, hcm, hl⟩
  · exact Or.inl h
  · exact Or.inr ⟨V, m, hV.trans hTU, hcm, hl⟩

omit [DecidableEq P] in
theorem Chosen.initial {T : ℤ} {l x : List E} (h : Chosen termOf s T l) (hx : x <+: l) :
    Chosen termOf s T x := by
  rcases h with rfl | ⟨V, m, hV, hcm, hl⟩
  · exact Or.inl (List.prefix_nil.mp hx)
  · exact Or.inr ⟨V, m, hV, hcm, hx.trans hl⟩

/-- Entries are chosen in the order of their creation. -/
theorem Chosen.sublist_created {T : ℤ} {l : List E} (h : Chosen termOf s T l)
    (hs : Reached termOf s) : l.Sublist s.created := by
  rcases h with rfl | ⟨V, m, hV, hcm, hl⟩
  · exact List.nil_sublist _
  · exact hl.sublist.trans ((List.take_sublist _ _).trans (hs.sourced.leaderLog V))

/-- A leader has everything chosen up to its term. -/
theorem Chosen.prefix_leaderLog {T U : ℤ} {l : List E} (h : Chosen termOf s T l)
    (hr : Roots termOf s) (hc : Custody termOf s) (hTU : T ≤ U) (hU : s.leader U ≠ none) :
    l <+: s.leaderLog U := by
  rcases h with rfl | ⟨V, m, hV, hcm, hl⟩
  · exact List.nil_prefix
  · exact hl.trans (hcm.prefix_leaderLog hr hc (hV.trans hTU) hU)

/-- Any two chosen prefixes are comparable. -/
theorem Chosen.comparable {T U : ℤ} {l x : List E} (h : Chosen termOf s T l)
    (h' : Chosen termOf s U x) (hl : Ledger termOf s) (hr : Roots termOf s)
    (hc : Custody termOf s) : l <+: x ∨ x <+: l := by
  rcases h with rfl | ⟨V, m, hV, hcm, hlm⟩
  · exact Or.inl List.nil_prefix
  rcases h' with rfl | ⟨W, k, hW, hck, hxk⟩
  · exact Or.inr List.nil_prefix
  rcases le_total V W with hVW | hVW
  · have := hcm.prefix_leaderLog hr hc hVW (hck.1.leader hl)
    exact List.prefix_or_prefix_of_prefix (hlm.trans this) (hxk.trans (List.take_prefix k _))
  · have := hck.prefix_leaderLog hr hc hVW (hcm.1.leader hl)
    exact List.prefix_or_prefix_of_prefix (hlm.trans (List.take_prefix m _)) (hxk.trans this)

/-- Two chosen prefixes of one length are equal. -/
theorem Chosen.eq_of_length {T U : ℤ} {l x : List E} (h : Chosen termOf s T l)
    (h' : Chosen termOf s U x) (hl : Ledger termOf s) (hr : Roots termOf s)
    (hc : Custody termOf s) (hlen : l.length = x.length) : l = x := by
  rcases h.comparable h' hl hr hc with hp | hp
  · exact hp.eq_of_length hlen
  · exact (hp.eq_of_length hlen.symm).symm

/-- What is chosen survives the adoption of any part of any leader's log. -/
theorem Chosen.prefix_adopt {T U : ℤ} {l v : List E} (h : Chosen termOf s T l)
    (hr : Roots termOf s) (hc : Custody termOf s) (hv : l <+: v) (hTU : T ≤ U)
    (hU : s.leader U ≠ none) (m : ℕ) : l <+: adopt v ((s.leaderLog U).take m) :=
  prefix_adopt_take hv (h.prefix_leaderLog hr hc hTU hU) m

theorem run_grows {a b : State P E} (h : ReflTransGen (fun s t => ∃ p, Step termOf p s t) a b)
    (ha : Reached termOf a) : Grows a b := by
  induction h with
  | refl => exact Grows.refl a
  | tail hab hbc ih =>
    obtain ⟨p, hp⟩ := hbc
    exact ih.trans (hp.grows (Reached.ledger (Reachable.trans ha hab)))

/-- What a majority has acknowledged is lost by no member that acknowledged it. -/
theorem Committed.prefix_log {T : ℤ} {m k j : ℕ} {p : P} (h : Committed termOf s T m)
    (hc : Custody termOf s) (hack : (p, T, k) ∈ s.acks) (hjk : j ≤ k) (hjm : j ≤ m) :
    (s.leaderLog T).take j <+: s.log p := by
  rcases hc.retains p T k j hack hjk with hin | ⟨U, hTU, -, hlack⟩
  · exact hin
  · have hin := h.prefix_electionLog hc hTU hlack.1
    exact absurd ((take_prefix_take hjm).trans hin) hlack.2

omit [DecidableEq P] in
/-- The member holds a prefix that was chosen up to its own term. -/
def Keeps (termOf : E → ℤ) (s : State P E) (p : P) (l : List E) : Prop :=
  Chosen termOf s (s.term p) l ∧ l <+: s.log p

omit [DecidableEq P] in
theorem keeps_nil {p : P} : Keeps termOf s p [] := ⟨chosen_nil, List.nil_prefix⟩

/-- A chosen prefix is in a log for good. -/
theorem Step.keeps {p q : P} {l : List E} (h : Step termOf p s t) (hs : Reached termOf s)
    (hk : Keeps termOf s q l) : Keeps termOf t q l := by
  have hg := h.grows hs.ledger
  refine ⟨(hk.1.grows hg).mono (hg.term q), ?_⟩
  by_cases hq : q = p
  · subst hq
    cases h with
    | advance hT => exact hk.2
    | campaign hT => exact hk.2
    | grant hvote hcand hup => exact hk.2
    | elect hcand hnone hQ hvotes => exact hk.2
    | append hlead he =>
      rw [append_log, if_pos rfl]
      exact hk.2.trans (List.prefix_append _ _)
    | replicate hlead hT hm =>
      rw [replicate_log, if_pos rfl]
      exact hk.1.prefix_adopt hs.roots hs.custody hk.2 hT hlead _
  · rw [(h.untouched hq).log]
    exact hk.2

theorem run_keeps {a b : State P E} (h : ReflTransGen (fun s t => ∃ p, Step termOf p s t) a b)
    (ha : Reached termOf a) {q : P} {l : List E} (hk : Keeps termOf a q l) :
    Keeps termOf b q l := by
  induction h with
  | refl => exact hk
  | tail hab hbc ih =>
    obtain ⟨p, hp⟩ := hbc
    exact hp.keeps (Reachable.trans ha hab) ih

end DistributedLabs.TermLogProtocol
