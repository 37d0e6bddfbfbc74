import DistributedLabs.TermLogMatching

/-!
# Leader completeness

An acknowledged prefix of a leader's log is lost by a member only to a later leader
that was elected without it. A vote therefore carries every prefix its voter has
acknowledged to the candidate, unless an intermediate leader already lacked it. As
two majorities meet, a prefix acknowledged by a majority is in the log with which
each later leader was elected.
-/

namespace DistributedLabs.TermLogProtocol

open LogPrefixes MajorityQuorums TransitionRuns Relation

variable {P E : Type*} {termOf : E → ℤ} {s t : State P E}

/-- The leader of term `U` was elected without the first `m` entries of term `T`'s leader. -/
def Lacks (s : State P E) (T : ℤ) (m : ℕ) (U : ℤ) : Prop :=
  s.leader U ≠ none ∧ ¬ (s.leaderLog T).take m <+: s.electionLog U

/-- Entry number `m` of the log of term `T`'s leader was created in term `T`. -/
def Created (termOf : E → ℤ) (s : State P E) (T : ℤ) (m : ℕ) : Prop :=
  0 < m ∧ ∃ e, (s.leaderLog T)[m - 1]? = some e ∧ termOf e = T

/-- What a member has acknowledged and no later leader up to its term has lacked. -/
def Retains (s : State P E) (p : P) : Prop :=
  ∀ T k m, (p, T, k) ∈ s.acks → m ≤ k →
    (s.leaderLog T).take m <+: s.log p ∨ ∃ U, T < U ∧ U ≤ s.term p ∧ Lacks s T m U

/-- What a voter of term `V` had acknowledged before is in the log `l` it voted for,
unless a leader before `V` lacked it. -/
def Carries (termOf : E → ℤ) (s : State P E) (p : P) (V : ℤ) (l : List E) : Prop :=
  ∀ T k m, (p, T, k) ∈ s.acks → T < V → m ≤ k → Created termOf s T m →
    (s.leaderLog T).take m <+: l ∨ ∃ U, T < U ∧ U < V ∧ Lacks s T m U

theorem Lacks.grows {T U : ℤ} {m : ℕ} (h : Lacks s T m U) (hst : Grows s t)
    (hm : m ≤ (s.leaderLog T).length) : Lacks t T m U := by
  refine ⟨hst.leader_ne_none h.1, ?_⟩
  rw [hst.take_leaderLog hm, hst.electionLog h.1]
  exact h.2

theorem Created.length {T : ℤ} {m : ℕ} (h : Created termOf s T m) :
    m ≤ (s.leaderLog T).length := by
  obtain ⟨hm, e, he, -⟩ := h
  have := (List.getElem?_eq_some_iff.mp he).1
  omega

theorem Created.leader {T : ℤ} {m : ℕ} (h : Created termOf s T m) (hl : Ledger termOf s) :
    s.leader T ≠ none := by
  intro hnone
  have hlen := h.length
  rw [hl.leaderLog_none hnone, List.length_nil] at hlen
  exact absurd h.1 (by omega)

theorem Created.grows {T : ℤ} {m : ℕ} (h : Created termOf s T m) (hst : Grows s t) :
    Created termOf t T m := by
  obtain ⟨hm, e, he, hT⟩ := h
  exact ⟨hm, e, getElem?_of_initial (hst.leaderLog T) he, hT⟩

theorem Created.of_grows {T : ℤ} {m : ℕ} (h : Created termOf t T m) (hst : Grows s t)
    (hm : m ≤ (s.leaderLog T).length) : Created termOf s T m := by
  obtain ⟨h0, e, he, hT⟩ := h
  refine ⟨h0, e, ?_, hT⟩
  rw [← getElem?_eq_of_initial (hst.leaderLog T) (by omega)]
  exact he

/-- An up-to-date log holds what the voter's log holds of a leader's own entries, as
long as every leader in between was elected with them. -/
theorem carried_of_upToDate {l v : List E} {T V : ℤ} {m : ℕ} (hs : Roots termOf s)
    (hrl : RootedIn termOf s l)
    (hrv : RootedIn termOf s v) (hlt : ∀ e ∈ l, termOf e < V) (hT : 0 < T)
    (hc : Created termOf s T m) (hv : (s.leaderLog T).take m <+: v) (hup : UpToDate termOf l v) :
    (s.leaderLog T).take m <+: l ∨ ∃ U, T < U ∧ U < V ∧ Lacks s T m U := by
  obtain ⟨hm, e, he, heT⟩ := hc
  have hmlen : m - 1 < (s.leaderLog T).length := (List.getElem?_eq_some_iff.mp he).1
  have hev : v[m - 1]? = some e := getElem?_of_initial hv
    (by rw [List.getElem?_take_of_lt (by omega)]; exact he)
  have hmv : m - 1 < v.length := (List.getElem?_eq_some_iff.mp hev).1
  obtain ⟨x, hx⟩ : ∃ x, v[v.length - 1]? = some x :=
    ⟨_, List.getElem?_eq_getElem (by omega)⟩
  have hTx : T ≤ termOf x := heT ▸ hs.term_le hrv hev hx (by omega)
  have hlastv : lastTerm termOf v = termOf x := by
    rw [lastTerm, List.getLast?_eq_getElem?, hx]
    rfl
  have hpos : 0 < l.length := by
    rcases Nat.eq_zero_or_pos l.length with h0 | h0
    · have hnil : l = [] := List.length_eq_zero_iff.mp h0
      subst hnil
      rw [UpToDate, hlastv] at hup
      simp only [lastTerm, List.getLast?_nil, Option.map_none, Option.getD_none] at hup
      omega
    · exact h0
  obtain ⟨y, hy⟩ : ∃ y, l[l.length - 1]? = some y := ⟨_, List.getElem?_eq_getElem (by omega)⟩
  have hlastl : lastTerm termOf l = termOf y := by
    rw [lastTerm, List.getLast?_eq_getElem?, hy]
    rfl
  rw [UpToDate, hlastv, hlastl] at hup
  obtain ⟨hylead, hypre⟩ := hrl _ y hy
  rw [List.take_of_length_le (by omega)] at hypre
  have hyV : termOf y < V := hlt y (List.mem_of_getElem? hy)
  rcases lt_or_eq_of_le (show T ≤ termOf y by omega) with hTy | hTy
  · -- the candidate's last entry is from a later leader, which may lack the prefix
    by_cases hlack : Lacks s T m (termOf y)
    · exact Or.inr ⟨termOf y, hTy, hyV, hlack⟩
    · have hin : (s.leaderLog T).take m <+: s.leaderLog (termOf y) := by
        have := not_and_not_right.mp hlack hylead
        exact this.trans (hs.election _)
      refine Or.inl (List.prefix_of_prefix_length_le hin hypre ?_)
      rw [List.length_take]
      by_contra hlen
      have hey : (s.leaderLog (termOf y))[m - 1]? = some e := getElem?_of_initial hin
        (by rw [List.getElem?_take_of_lt (by omega)]; exact he)
      have hyy := getElem?_of_initial hypre hy
      have := hs.term_le (hs.leaderLog _) hyy hey (by omega)
      omega
  · rw [← hTy] at hypre
    refine Or.inl (List.prefix_of_prefix_length_le (List.take_prefix m _) hypre ?_)
    rw [List.length_take]
    omega

/-- Acknowledgements are kept, votes carry them, and leaders have a majority of votes. -/
structure Custody [Fintype P] (termOf : E → ℤ) (s : State P E) : Prop where
  retains : ∀ p, Retains s p
  vote : ∀ {p T c l}, (p, T, c) ∈ s.votes → (T, c, l) ∈ s.candidacies → s.leader T = none →
    Carries termOf s p T l
  elected : ∀ {T c}, s.leader T = some c → ∃ Q : Finset P, Majority Q ∧
    ∀ p ∈ Q, (p, T, c) ∈ s.votes ∧ Carries termOf s p T (s.electionLog T)

theorem Retains.of_ack {p : P} (h : Retains s p) {T : ℤ} {k : ℕ} (ha : (p, T, k) ∈ s.acks)
    (hT : s.term p ≤ T) : (s.leaderLog T).take k <+: s.log p := by
  rcases h T k k ha le_rfl with h | ⟨U, hTU, hU, -⟩
  · exact h
  · omega

/-- Carrying survives every step: the voter acknowledges nothing more below its term. -/
theorem Carries.grows {p : P} {V : ℤ} {l : List E} (h : Carries termOf s p V l)
    (hl : Ledger termOf s) (hst : Grows s t)
    (hacks : ∀ T k, (p, T, k) ∈ t.acks → (p, T, k) ∈ s.acks ∨ s.term p ≤ T)
    (hV : V ≤ s.term p) : Carries termOf t p V l := by
  intro T k m ha hTV hm hc
  rcases hacks T k ha with ha | hT
  · have hlen : m ≤ (s.leaderLog T).length := hm.trans (hl.ack_length ha)
    rw [hst.take_leaderLog hlen]
    rcases h T k m ha hTV hm (hc.of_grows hst hlen) with h | ⟨U, hTU, hU, hlack⟩
    · exact Or.inl h
    · exact Or.inr ⟨U, hTU, hU, hlack.grows hst hlen⟩
  · omega

/-- The same when a voter's own log only gets longer. -/
theorem Retains.grows {p : P} (h : Retains s p) (hl : Ledger termOf s) (hst : Grows s t)
    (hlog : s.log p <+: t.log p)
    (hacks : ∀ T k, (p, T, k) ∈ t.acks →
      (p, T, k) ∈ s.acks ∨ (t.leaderLog T).take k <+: t.log p) : Retains t p := by
  intro T k m ha hm
  rcases hacks T k ha with ha | hnew
  · have hlen : m ≤ (s.leaderLog T).length := hm.trans (hl.ack_length ha)
    rw [hst.take_leaderLog hlen]
    rcases h T k m ha hm with h | ⟨U, hTU, hU, hlack⟩
    · exact Or.inl (h.trans hlog)
    · exact Or.inr ⟨U, hTU, hU.trans (hst.term p), hlack.grows hst hlen⟩
  · exact Or.inl ((take_prefix_take hm).trans hnew)

/-- Adopting part of a leader's log loses an acknowledged prefix only if that leader lacks it. -/
theorem Retains.replicate [DecidableEq P] {p : P} {T : ℤ} {n : ℕ} (h : Retains s p)
    (hl : Ledger termOf s) (hs : Roots termOf s) (hst : Grows s (s.replicate p T n))
    (hlead : s.leader T ≠ none) (hT : s.term p ≤ T) : Retains (s.replicate p T n) p := by
  intro V k m ha hm
  have hterm : (s.replicate p T n).term p = T := by rw [replicate_term, if_pos rfl]
  have hlog : (s.replicate p T n).log p = adopt (s.log p) ((s.leaderLog T).take n) := by
    rw [replicate_log, if_pos rfl]
  rw [hlog, hterm]
  change (s.leaderLog V).take m <+: _ ∨ _
  rcases ha with ha | ha
  · obtain ⟨rfl, rfl⟩ : V = T ∧ k = n := by simpa using ha
    exact Or.inl ((take_prefix_take hm).trans (prefix_adopt _ _))
  · have hlen : m ≤ (s.leaderLog V).length := hm.trans (hl.ack_length ha)
    have hVp : V ≤ s.term p := hl.ack_le ha
    rcases h V k m ha hm with h | ⟨U, hVU, hU, hlack⟩
    · rcases lt_or_eq_of_le (hVp.trans hT) with hVT | rfl
      · by_cases hlack : Lacks s V m T
        · exact Or.inr ⟨T, hVT, le_rfl, hlack.grows hst hlen⟩
        · have hin := not_and_not_right.mp hlack hlead
          exact Or.inl (prefix_adopt_take h (hin.trans (hs.election T)) n)
      · exact Or.inl (prefix_adopt_take h (List.take_prefix m _) n)
    · exact Or.inr ⟨U, hVU, hU.trans hT, hlack.grows hst hlen⟩

theorem custody_initial [Fintype P] : Custody termOf (initial : State P E) where
  retains _ _ _ _ ha := absurd ha (Set.notMem_empty _)
  vote h := absurd h (Set.notMem_empty _)
  elected h := absurd h (by simp [initial])

variable [DecidableEq P] [Fintype P]

/-- A step acknowledges only for the member that takes it, and never below its term. -/
theorem Step.acks {p q : P} (h : Step termOf p s t) {T : ℤ} {k : ℕ} (ha : (q, T, k) ∈ t.acks) :
    (q, T, k) ∈ s.acks ∨ (q = p ∧ s.term q ≤ T) := by
  cases h with
  | advance hT => exact Or.inl ha
  | campaign hT => exact Or.inl ha
  | grant hvote hcand hup => exact Or.inl ha
  | elect hcand hnone hQ hvotes =>
    rcases ha with ha | ha
    · obtain ⟨rfl, rfl, -⟩ : q = p ∧ T = s.term p ∧ _ := by simpa using ha
      exact Or.inr ⟨rfl, le_rfl⟩
    · exact Or.inl ha
  | append hlead he =>
    rcases ha with ha | ha
    · obtain ⟨rfl, rfl, -⟩ : q = p ∧ T = s.term p ∧ _ := by simpa using ha
      exact Or.inr ⟨rfl, le_rfl⟩
    · exact Or.inl ha
  | @replicate _ _ U m hlead hT hm =>
    rcases ha with ha | ha
    · obtain ⟨rfl, rfl, -⟩ : q = p ∧ T = U ∧ k = m := by simpa using ha
      exact Or.inr ⟨rfl, hT⟩
    · exact Or.inl ha

theorem Step.retains {p q : P} (h : Step termOf p s t) (hl : Ledger termOf s)
    (hs : Roots termOf s) (hq : Retains s q) : Retains t q := by
  have hst := h.grows hl
  by_cases hqp : q = p
  · subst hqp
    cases h with
    | advance hT => exact hq.grows hl hst List.prefix_rfl (fun _ _ ha => Or.inl ha)
    | campaign hT => exact hq.grows hl hst List.prefix_rfl (fun _ _ ha => Or.inl ha)
    | grant hvote hcand hup => exact hq.grows hl hst List.prefix_rfl (fun _ _ ha => Or.inl ha)
    | elect hcand hnone hQ hvotes =>
      apply hq.grows hl hst List.prefix_rfl
      intro T k ha
      rcases ha with ha | ha
      · obtain ⟨rfl, -⟩ : T = s.term q ∧ _ := by simpa using ha
        refine Or.inr (List.IsPrefix.trans (List.take_prefix k _) ?_)
        rw [elect_leaderLog, if_pos rfl]
        exact List.prefix_rfl
      · exact Or.inl ha
    | @append _ _ e hlead he =>
      have hlog := hl.leader_log hlead rfl
      have hlog' : (s.append q e).log q = s.log q ++ [e] := by rw [append_log, if_pos rfl]
      apply hq.grows hl hst (hlog' ▸ List.prefix_append _ _)
      intro T k ha
      rcases ha with ha | ha
      · obtain ⟨rfl, -⟩ : T = s.term q ∧ _ := by simpa using ha
        refine Or.inr (List.IsPrefix.trans (List.take_prefix k _) ?_)
        rw [append_leaderLog, if_pos rfl, hlog', hlog]
      · exact Or.inl ha
    | replicate hlead hT hm => exact hq.replicate hl hs hst hlead hT
  · apply hq.grows hl hst (by rw [(h.untouched hqp).log])
    intro T k ha
    rcases h.acks ha with ha | ⟨rfl, -⟩
    · exact Or.inl ha
    · exact absurd rfl hqp

/-- Steps that neither vote, nor stand, nor elect keep what votes carry. -/
theorem Custody.of_same_votes {p : P} (hc : Custody termOf s) (h : Step termOf p s t)
    (hl : Ledger termOf s) (hs : Roots termOf s) (hvotes : t.votes = s.votes)
    (hcand : t.candidacies = s.candidacies) (hlead : t.leader = s.leader) : Custody termOf t := by
  have hst := h.grows hl
  have hcarry : ∀ {q V l}, Carries termOf s q V l → V ≤ s.term q → Carries termOf t q V l :=
    fun hq hV => hq.grows hl hst (fun _ _ ha => (h.acks ha).imp_right And.right) hV
  refine ⟨fun q => h.retains hl hs (hc.retains q), ?_, ?_⟩
  · intro q T c l hv hcd hnone
    rw [hvotes] at hv
    rw [hcand] at hcd
    rw [hlead] at hnone
    exact hcarry (hc.vote hv hcd hnone) (hl.vote_le hv)
  · intro T c hT
    rw [hlead] at hT
    obtain ⟨Q, hQ, hQv⟩ := hc.elected hT
    refine ⟨Q, hQ, fun q hq => ?_⟩
    obtain ⟨hv, hcr⟩ := hQv q hq
    rw [hst.electionLog (by rw [hT]; exact Option.some_ne_none c), hvotes]
    exact ⟨hv, hcarry hcr (hl.vote_le hv)⟩

theorem Custody.campaign {p : P} {T : ℤ} (hc : Custody termOf s) (hT : s.term p < T)
    (hl : Ledger termOf s) (hs : Roots termOf s) : Custody termOf (s.campaign p T) := by
  have h : Step termOf p s (s.campaign p T) := .campaign hT
  have hst := h.grows hl
  refine ⟨fun q => h.retains hl hs (hc.retains q), ?_, fun hlead => ?_⟩
  · intro q V c l hv hcd hnone
    rcases hv with hv | hv
    · obtain ⟨rfl, rfl, rfl⟩ : q = p ∧ V = T ∧ c = p := by simpa using hv
      have hlog : l = s.log c := by
        rcases hcd with hcd | hcd
        · exact (by simpa using hcd : l = s.log c)
        · exact absurd (hl.candidacy_le hcd) (by omega)
      subst hlog
      intro V k m ha hV hm hcr
      refine (hc.retains c V k m ha hm).imp_right ?_
      rintro ⟨U, hVU, hU, hlack⟩
      exact ⟨U, hVU, by omega, hlack⟩
    · rcases hcd with hcd | hcd
      · obtain ⟨rfl, rfl, -⟩ : V = T ∧ c = p ∧ l = s.log p := by simpa using hcd
        obtain ⟨l', hl'⟩ := hl.vote_candidacy hv
        exact absurd (hl.candidacy_le hl') (by omega)
      · exact (hc.vote hv hcd hnone).grows hl hst (fun _ _ ha => Or.inl ha) (hl.vote_le hv)
  · obtain ⟨Q, hQ, hQv⟩ := hc.elected hlead
    exact ⟨Q, hQ, fun q hq => ⟨hst.votes (hQv q hq).1,
      (hQv q hq).2.grows hl hst (fun _ _ ha => Or.inl ha) (hl.vote_le (hQv q hq).1)⟩⟩

theorem Custody.grant {p c : P} {l : List E} (hc : Custody termOf s)
    (hvote : s.vote p = none ∨ s.vote p = some c) (hcand : (s.term p, c, l) ∈ s.candidacies)
    (hup : UpToDate termOf l (s.log p)) (hl : Ledger termOf s) (hs : Roots termOf s) :
    Custody termOf (s.grant p c) := by
  have h : Step termOf p s (s.grant p c) := .grant hvote hcand hup
  have hst := h.grows hl
  refine ⟨fun q => h.retains hl hs (hc.retains q), ?_, fun hlead => ?_⟩
  · intro q V d l' hv hcd hnone
    rcases hv with hv | hv
    · obtain ⟨rfl, rfl, rfl⟩ : q = p ∧ V = s.term p ∧ d = c := by simpa using hv
      obtain rfl := hl.candidacy_unique hcand hcd
      intro T k m ha hT hm hcr
      replace hcr : Created termOf s T m := hcr
      rcases hc.retains q T k m ha hm with hkept | ⟨U, hTU, hU, hlack⟩
      · have := carried_of_upToDate hs (hs.candidacy hcand) (hs.log q) (hl.candidacy_lt hcand)
          (hl.leader_pos (hcr.leader hl)) hcr hkept hup
        exact this
      · refine Or.inr ⟨U, hTU, lt_of_le_of_ne hU ?_, hlack⟩
        rintro rfl
        exact hlack.1 hnone
    · exact (hc.vote hv hcd hnone).grows hl hst (fun _ _ ha => Or.inl ha) (hl.vote_le hv)
  · obtain ⟨Q, hQ, hQv⟩ := hc.elected hlead
    exact ⟨Q, hQ, fun q hq => ⟨hst.votes (hQv q hq).1,
      (hQv q hq).2.grows hl hst (fun _ _ ha => Or.inl ha) (hl.vote_le (hQv q hq).1)⟩⟩

theorem Custody.elect {c : P} {Q : Finset P} (hc : Custody termOf s)
    (hcand : (s.term c, c, s.log c) ∈ s.candidacies) (hnone : s.leader (s.term c) = none)
    (hQ : Majority Q) (hvotes : ∀ p ∈ Q, (p, s.term c, c) ∈ s.votes) (hl : Ledger termOf s)
    (hs : Roots termOf s) : Custody termOf (s.elect c) := by
  have h : Step termOf c s (s.elect c) := .elect hcand hnone hQ hvotes
  have hst := h.grows hl
  have hcarry : ∀ {q V l}, Carries termOf s q V l → V ≤ s.term q →
      Carries termOf (s.elect c) q V l :=
    fun hq hV => hq.grows hl hst (fun _ _ ha => (h.acks ha).imp_right And.right) hV
  refine ⟨fun q => h.retains hl hs (hc.retains q), ?_, ?_⟩
  · intro q V d l hv hcd hVnone
    have hV : s.leader V = none := by
      rw [elect_leader] at hVnone
      split at hVnone
      · cases hVnone
      · exact hVnone
    exact hcarry (hc.vote hv hcd hV) (hl.vote_le hv)
  · intro V d hlead
    rw [elect_leader] at hlead
    rw [elect_electionLog]
    split at hlead
    · next hV =>
      cases hlead
      rw [if_pos hV]
      exact ⟨Q, hQ, fun q hq => ⟨hV ▸ hvotes q hq,
        hcarry (hV ▸ hc.vote (hvotes q hq) hcand hnone) (hV ▸ hl.vote_le (hvotes q hq))⟩⟩
    · next hV =>
      obtain ⟨Q', hQ', hQv⟩ := hc.elected hlead
      rw [if_neg hV]
      exact ⟨Q', hQ', fun q hq => ⟨(hQv q hq).1, hcarry (hQv q hq).2 (hl.vote_le (hQv q hq).1)⟩⟩

theorem Step.custody {p : P} (h : Step termOf p s t) (hl : Ledger termOf s)
    (hs : Roots termOf s) (hc : Custody termOf s) : Custody termOf t := by
  cases h with
  | advance hT => exact hc.of_same_votes (.advance hT) hl hs rfl rfl rfl
  | campaign hT => exact hc.campaign hT hl hs
  | grant hvote hcand hup => exact hc.grant hvote hcand hup hl hs
  | elect hcand hnone hQ hvotes => exact hc.elect hcand hnone hQ hvotes hl hs
  | append hlead he => exact hc.of_same_votes (.append hlead he) hl hs rfl rfl rfl
  | replicate hlead hT hm => exact hc.of_same_votes (.replicate hlead hT hm) hl hs rfl rfl rfl

theorem Reached.custody (h : Reached termOf s) : Custody termOf s :=
  h.invariant (fun _ h => h ▸ custody_initial)
    (fun _ _ hr hs ⟨_, hst⟩ => hst.custody (Reached.ledger hr) (Reached.roots hr) hs)

end DistributedLabs.TermLogProtocol
