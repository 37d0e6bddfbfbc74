import DistributedLabs.TermLogLedger

/-!
# Every log is rooted in the logs of the leaders

The entry of term `T` at a position of any log was put there by the leader of `T`,
and everything below that position is the same as in the log of that leader. Log
matching is the special case of two logs with entries of one term at one position.
-/

namespace DistributedLabs.TermLogProtocol

open LogPrefixes MajorityQuorums TransitionRuns Relation

variable {P E : Type*} {termOf : E → ℤ} {s t : State P E}

/-- Up to each of its entries, the log is part of the log of that entry's leader. -/
def RootedIn (termOf : E → ℤ) (s : State P E) (l : List E) : Prop :=
  ∀ i e, l[i]? = some e →
    s.leader (termOf e) ≠ none ∧ l.take (i + 1) <+: s.leaderLog (termOf e)

theorem rootedIn_nil : RootedIn termOf s [] := by
  intro i e h
  simp at h

theorem RootedIn.grows {l : List E} (h : RootedIn termOf s l) (hst : Grows s t) :
    RootedIn termOf t l := by
  intro i e he
  obtain ⟨hlead, hpre⟩ := h i e he
  exact ⟨hst.leader_ne_none hlead, hpre.trans (hst.leaderLog _)⟩

theorem RootedIn.initial {l x : List E} (h : RootedIn termOf s l) (hx : x <+: l) :
    RootedIn termOf s x := by
  intro i e he
  have hi : i < x.length := (List.getElem?_eq_some_iff.mp he).1
  obtain ⟨hlead, hpre⟩ := h i e (getElem?_of_initial hx he)
  refine ⟨hlead, ?_⟩
  rwa [take_eq_take_of_initial hx hi]

/-- A leader's entry on top of what the leader already has stays rooted. -/
theorem RootedIn.concat {l : List E} {e : E} (h : RootedIn termOf s l)
    (hlead : s.leader (termOf e) ≠ none) (hpre : l ++ [e] <+: s.leaderLog (termOf e)) :
    RootedIn termOf s (l ++ [e]) := by
  intro i x hx
  rcases Nat.lt_or_ge i l.length with hi | hi
  · rw [List.getElem?_append_left hi] at hx
    rw [List.take_append_of_le_length (by omega)]
    exact h i x hx
  · have hlen : i < (l ++ [e]).length := (List.getElem?_eq_some_iff.mp hx).1
    simp only [List.length_append, List.length_singleton] at hlen
    obtain rfl : i = l.length := by omega
    simp only [List.getElem?_concat_length, Option.some.injEq] at hx
    subst hx
    refine ⟨hlead, ?_⟩
    rwa [List.take_of_length_le (by simp)]

/-- Log matching: one term at one position means one history up to there. -/
theorem RootedIn.matching {l l' : List E} (h : RootedIn termOf s l) (h' : RootedIn termOf s l')
    {i : ℕ} {e e' : E} (he : l[i]? = some e) (he' : l'[i]? = some e')
    (hterm : termOf e = termOf e') : l.take (i + 1) = l'.take (i + 1) := by
  have hi : i < l.length := (List.getElem?_eq_some_iff.mp he).1
  have hi' : i < l'.length := (List.getElem?_eq_some_iff.mp he').1
  apply eq_of_initial_of_length (h i e he).2 (hterm ▸ (h' i e' he').2)
  simp only [List.length_take]
  omega

/-- Where the logs of the protocol's state are rooted, and the terms in leaders' logs ascend. -/
structure Roots (termOf : E → ℤ) (s : State P E) : Prop where
  log : ∀ p, RootedIn termOf s (s.log p)
  leaderLog : ∀ T, RootedIn termOf s (s.leaderLog T)
  candidacy : ∀ {T c l}, (T, c, l) ∈ s.candidacies → RootedIn termOf s l
  ascending : ∀ T, (s.leaderLog T).Pairwise (termOf · ≤ termOf ·)
  election : ∀ T, s.electionLog T <+: s.leaderLog T

/-- Terms ascend along every rooted log. -/
theorem Roots.term_le {l : List E} (hs : Roots termOf s) (h : RootedIn termOf s l) {i j : ℕ}
    {e e' : E} (he : l[i]? = some e) (he' : l[j]? = some e') (hij : i ≤ j) :
    termOf e ≤ termOf e' := by
  rcases hij.eq_or_lt with rfl | hlt
  · rw [he] at he'
    exact (Option.some.inj he') ▸ le_rfl
  · have hpre := (h j e' he').2
    have hj := getElem?_of_initial hpre
      (show (l.take (j + 1))[j]? = some e' by rw [List.getElem?_take_of_lt (by omega)]; exact he')
    have hi := getElem?_of_initial hpre
      (show (l.take (j + 1))[i]? = some e by rw [List.getElem?_take_of_lt (by omega)]; exact he)
    obtain ⟨hjl, hjv⟩ := List.getElem?_eq_some_iff.mp hj
    obtain ⟨hil, hiv⟩ := List.getElem?_eq_some_iff.mp hi
    have := List.pairwise_iff_getElem.mp (hs.ascending (termOf e')) i j hil hjl hlt
    rwa [hiv, hjv] at this

theorem Roots.pairwise {l : List E} (hs : Roots termOf s) (h : RootedIn termOf s l) :
    l.Pairwise (termOf · ≤ termOf ·) := by
  apply List.pairwise_iff_getElem.mpr
  intro i j hi hj hij
  exact hs.term_le h (List.getElem?_eq_getElem hi) (List.getElem?_eq_getElem hj) hij.le

theorem roots_initial : Roots termOf (initial : State P E) where
  log _ := rootedIn_nil
  leaderLog _ := rootedIn_nil
  candidacy h := absurd h (Set.notMem_empty _)
  ascending _ := List.Pairwise.nil
  election _ := List.nil_prefix

variable [DecidableEq P] [Fintype P]

theorem Step.roots {p : P} (h : Step termOf p s t) (hl : Ledger termOf s)
    (hs : Roots termOf s) : Roots termOf t := by
  have hst := h.grows hl
  cases h with
  | advance hT => exact ⟨hs.log, hs.leaderLog, hs.candidacy, hs.ascending, hs.election⟩
  | campaign hT =>
    refine ⟨hs.log, hs.leaderLog, ?_, hs.ascending, hs.election⟩
    intro U c l hc
    rcases hc with hc | hc
    · obtain ⟨-, -, rfl⟩ : U = _ ∧ c = p ∧ l = s.log p := by simpa using hc
      exact hs.log p
    · exact hs.candidacy hc
  | grant hvote hcand hup => exact ⟨hs.log, hs.leaderLog, hs.candidacy, hs.ascending, hs.election⟩
  | elect hcand hnone hQ hvotes =>
    refine ⟨fun q => (hs.log q).grows hst, ?_, fun hc => (hs.candidacy hc).grows hst, ?_, ?_⟩
    · intro U
      rw [elect_leaderLog]
      split
      · exact (hs.log p).grows hst
      · exact (hs.leaderLog U).grows hst
    · intro U
      rw [elect_leaderLog]
      split
      · exact hs.pairwise (hs.log p)
      · exact hs.ascending U
    · intro U
      rw [elect_leaderLog, elect_electionLog]
      split
      · exact List.prefix_rfl
      · exact hs.election U
  | @append _ _ e hlead he =>
    have hlog := hl.leader_log hlead rfl
    have hnew : (s.append p e).leaderLog (termOf e) = s.log p ++ [e] := by
      rw [append_leaderLog, if_pos he, hlog]
    have hroot : RootedIn termOf (s.append p e) (s.log p ++ [e]) := by
      apply ((hs.log p).grows hst).concat
      · rw [he]
        exact hst.leader_ne_none (by rw [hlead]; exact Option.some_ne_none p)
      · rw [hnew]
    refine ⟨?_, ?_, fun hc => (hs.candidacy hc).grows hst, ?_, ?_⟩
    · intro q
      rw [append_log]
      split
      · exact hroot
      · exact (hs.log q).grows hst
    · intro U
      rw [append_leaderLog]
      split
      · rw [← hlog]
        exact hroot
      · exact (hs.leaderLog U).grows hst
    · intro U
      rw [append_leaderLog]
      split
      · apply List.pairwise_append.mpr
        refine ⟨hs.ascending _, List.pairwise_singleton _ _, ?_⟩
        intro x hx y hy
        rw [List.mem_singleton.mp hy, he]
        exact hl.leaderLog_le hx
      · exact hs.ascending U
    · intro U
      exact (hs.election U).trans (hst.leaderLog U)
  | @replicate _ _ T m hlead hT hm =>
    refine ⟨?_, hs.leaderLog, hs.candidacy, hs.ascending, hs.election⟩
    intro q
    rw [replicate_log]
    split
    · rcases adopt_cases (s.log p) ((s.leaderLog T).take m) with ha | ha <;> rw [ha]
      · exact hs.log p
      · exact (hs.leaderLog T).initial (List.take_prefix m _)
    · exact hs.log q

theorem Reached.roots (h : Reached termOf s) : Roots termOf s :=
  h.invariant (fun _ h => h ▸ roots_initial)
    (fun _ _ hr hs ⟨_, hst⟩ => hst.roots (Reached.ledger hr) hs)

end DistributedLabs.TermLogProtocol
