import DistributedLabs.TermLogCommitment

/-!
# Where the entries of a leader's log come from

The log of a leader grows by created entries only, and an entry of the leader's own term
is in it at the position where it was created.
-/

namespace DistributedLabs.TermLogProtocol

open LogPrefixes TransitionRuns Relation

variable {P E : Type*} [DecidableEq P] [Fintype P] {termOf : E → ℤ} {a b : State P E}

/-- A leader's log grows by created entries only. -/
theorem step_leaderLog {p : P} (h : Step termOf p a b) :
    ∃ es, b.created = a.created ++ es ∧
      ∀ T, a.leader T ≠ none → ∃ es', b.leaderLog T = a.leaderLog T ++ es' ∧ es'.Sublist es := by
  have hsame : ∀ T, ∃ es', a.leaderLog T = a.leaderLog T ++ es' ∧ es'.Sublist ([] : List E) :=
    fun T => ⟨[], (List.append_nil _).symm, List.Sublist.refl _⟩
  cases h with
  | advance hT => exact ⟨[], (List.append_nil _).symm, fun T _ => hsame T⟩
  | campaign hT => exact ⟨[], (List.append_nil _).symm, fun T _ => hsame T⟩
  | grant hvote hcand hup => exact ⟨[], (List.append_nil _).symm, fun T _ => hsame T⟩
  | elect hcand hnone hQ hvotes =>
    refine ⟨[], (List.append_nil _).symm, fun T hT => ?_⟩
    rw [elect_leaderLog, if_neg (fun heq : T = a.term p => hT (heq ▸ hnone))]
    exact hsame T
  | @append _ _ e hlead he =>
    refine ⟨[e], rfl, fun T _ => ?_⟩
    rw [append_leaderLog]
    split_ifs with heq
    · exact ⟨[e], by rw [heq], List.Sublist.refl _⟩
    · exact ⟨[], (List.append_nil _).symm, List.nil_sublist _⟩
  | replicate hlead hT hm => exact ⟨[], (List.append_nil _).symm, fun T _ => hsame T⟩

/-- Entries of a leader's own term are created in that term. -/
theorem step_own {p : P} (h : Step termOf p a b) (ha : Ledger termOf a) {T : ℤ} {k : ℕ} {e : E}
    (he : (b.leaderLog T)[k]? = some e) (hT : termOf e = T) :
    (a.leaderLog T)[k]? = some e ∨ b.created = a.created ++ [e] := by
  cases h with
  | advance hT => exact Or.inl he
  | campaign hT => exact Or.inl he
  | grant hvote hcand hup => exact Or.inl he
  | elect hcand hnone hQ hvotes =>
    rw [elect_leaderLog] at he
    split_ifs at he with heq
    · have hlt := ha.candidacy_lt hcand e (List.mem_of_getElem? he)
      omega
    · exact Or.inl he
  | @append _ _ x hlead hx =>
    rw [append_leaderLog] at he
    split_ifs at he with heq
    · rcases getElem?_concat_cases he with ⟨-, rfl⟩ | hold
      · exact Or.inr rfl
      · exact Or.inl (heq ▸ hold)
    · exact Or.inl he
  | replicate hlead hT hm => exact Or.inl he

theorem run_leaderLog (h : ReflTransGen (fun s t => ∃ p, Step termOf p s t) a b)
    (ha : Reached termOf a) : ∃ es, b.created = a.created ++ es ∧
      ∀ T, a.leader T ≠ none → ∃ es', b.leaderLog T = a.leaderLog T ++ es' ∧ es'.Sublist es := by
  induction h with
  | refl =>
    exact ⟨[], (List.append_nil _).symm,
      fun T _ => ⟨[], (List.append_nil _).symm, List.Sublist.refl _⟩⟩
  | tail hab hbc ih =>
    obtain ⟨es, hes, hlogs⟩ := ih
    obtain ⟨p, hp⟩ := hbc
    obtain ⟨es₁, hes₁, hlogs₁⟩ := step_leaderLog hp
    refine ⟨es ++ es₁, by rw [hes₁, hes, List.append_assoc], fun T hT => ?_⟩
    obtain ⟨x, hx, hsub⟩ := hlogs T hT
    obtain ⟨y, hy, hsub₁⟩ := hlogs₁ T ((run_grows hab ha).leader_ne_none hT)
    exact ⟨x ++ y, by rw [hy, hx, List.append_assoc], hsub.append hsub₁⟩

theorem run_own (h : ReflTransGen (fun s t => ∃ p, Step termOf p s t) a b)
    (ha : Reached termOf a) {T : ℤ} {k : ℕ} {e : E}
    (he : (b.leaderLog T)[k]? = some e) (hT : termOf e = T) :
    (a.leaderLog T)[k]? = some e ∨ ∃ es, b.created = a.created ++ es ∧ e ∈ es := by
  induction h with
  | refl => exact Or.inl he
  | tail hab hbc ih =>
    obtain ⟨p, hp⟩ := hbc
    obtain ⟨es₀, hes₀, -⟩ := run_leaderLog hab ha
    obtain ⟨es₁, hes₁, -⟩ := step_leaderLog hp
    rcases step_own hp (Reached.ledger (Reachable.trans ha hab)) he hT with hold | hnew
    · rcases ih hold with hfirst | ⟨es, hes, hmem⟩
      · exact Or.inl hfirst
      · exact Or.inr ⟨es ++ es₁, by rw [hes₁, hes, List.append_assoc], List.mem_append_left _ hmem⟩
    · exact Or.inr ⟨es₀ ++ [e], by rw [hnew, hes₀, List.append_assoc],
        List.mem_append_right _ List.mem_cons_self⟩

end DistributedLabs.TermLogProtocol
