import DistributedLabs.RaftService
import DistributedLabs.TermLogCreation

/-!
# Commands come from `Start`, at the index it gave them

An entry of a leader's own term was created by that leader, behind everything its log held
then, and stays at that position in every log. So whatever a service receives at an index
was handed to a leader's `Start`, and `Start` returned that index for it, or was about to
return it when its process crashed.
-/

namespace DistributedLabs.RaftIntegrity

open RaftPeer RaftCluster RaftRefinement RaftLogView TermLogProtocol TransitionRuns Relation
  LogPrefixes

variable {n : ℕ} {C : Type*}

/-- What an event hands to a leader's `Start`: the index and the term that `Start` returns,
and the command. A `Start` inside which the process crashes counts as well, with what it would
have returned; the crash may come before or after the command is saved. -/
def submitted (s : Cluster n C) : Event n C → List (ℤ × ℤ × C)
  | .start p command =>
    let result := start (s.procs p).rf command
    if result.2.2.2 then [(result.2.1, result.2.2.1, command)] else []
  | .crashIn e _ => submitted s e
  | _ => []

variable [Inhabited C]

def submissions (s : Cluster n C) : List (Event n C) → List (ℤ × ℤ × C)
  | [] => []
  | e :: es => submitted s e ++ match s.step? e with
    | some t => submissions t es
    | none => []

variable {s t : Cluster n C} {a b : Proto n C}

/-- What an event creates is submitted in it, behind the log of the leader that takes it. -/
theorem submitted_of_created (hs : Related s a) {e : Event n C} {v : LogValue C}
    (hv : v ∈ created s e) : a.leader v.term ≠ none ∧ created s e = [v] ∧
      (((a.leaderLog v.term).length : ℤ) + 1, v.term, v.item) ∈ submitted s e := by
  induction e with
  | start p command =>
    simp only [created, startEntries] at hv ⊢
    split_ifs at hv ⊢ with hrole
    · obtain rfl := List.mem_singleton.mp hv
      have hpeer := (hs.proc p).peer
      have hleads := hpeer.leads hrole
      have hlen := hpeer.view.length
      refine ⟨by rw [hleads.term, hleads.elected]; exact Option.some_ne_none p, rfl, ?_⟩
      simp only [submitted, start, hrole, ne_eq, not_true_eq_false, if_false, if_true,
        List.mem_singleton, Prod.mk.injEq, and_true]
      rw [hleads.leaderLog hs.reached]
      omega
    · cases hv
  | crashIn e k ih => exact ih hv
  | _ => cases hv

/-- Own entries of a leader's log are at the index that `Start` gave them. -/
theorem own_of_step (hs : Related s a) {e : Event n C} (h : s.step? e = some t) :
    ∃ b, Related t b ∧ ∀ {T : ℤ} {k : ℕ} {v : LogValue C}, (b.leaderLog T)[k]? = some v →
      v.term = T → (a.leaderLog T)[k]? = some v ∨ ((k : ℤ) + 1, T, v.item) ∈ submitted s e := by
  obtain ⟨b, es, hes, hcreated, hb, hab⟩ := step_related hs h
  refine ⟨b, hb, fun {T k v} hv hT => ?_⟩
  rcases run_own hab hs.reached hv hT with hold | ⟨es', hes', hmem⟩
  · exact Or.inl hold
  obtain rfl : es' = es := List.append_cancel_left (hes'.symm.trans hcreated)
  have hin : v ∈ created s e ∧ es' <+: created s e := by
    rcases hes with rfl | ⟨e', k', rfl, hpre⟩
    · exact ⟨hmem, List.prefix_rfl⟩
    · exact ⟨hpre.subset hmem, hpre⟩
  obtain ⟨hlead, hone, hsub⟩ := submitted_of_created hs hin.1
  rw [hT] at hlead hsub
  obtain ⟨es'', hes'', hlogs⟩ := run_leaderLog hab hs.reached
  obtain rfl : es'' = es' := List.append_cancel_left (hes''.symm.trans hcreated)
  obtain ⟨x, hx, hxsub⟩ := hlogs T hlead
  have hlength : x.length ≤ 1 := by
    have h₁ := hxsub.length_le
    have h₂ := hin.2.length_le
    rw [hone] at h₂
    exact h₁.trans h₂
  rw [hx] at hv
  rcases Nat.lt_or_ge k (a.leaderLog T).length with hk | hk
  · left
    rwa [List.getElem?_append_left hk] at hv
  · right
    have hlt := (List.getElem?_eq_some_iff.mp hv).1
    rw [List.length_append] at hlt
    rwa [show k = (a.leaderLog T).length by omega]

/-- Every own entry of a leader's log is among the submissions. -/
def Recorded (a : Proto n C) (subs : List (ℤ × ℤ × C)) : Prop :=
  ∀ {T : ℤ} {k : ℕ} {v : LogValue C}, (a.leaderLog T)[k]? = some v → v.term = T →
    ((k : ℤ) + 1, T, v.item) ∈ subs

theorem recorded_of_run {es : List (Event n C)} {subs : List (ℤ × ℤ × C)} (hs : Related s a)
    (ha : Recorded a subs) (h : s.run es = some t) :
    ∃ b, Related t b ∧ Recorded b (subs ++ submissions s es) := by
  induction es generalizing s a subs with
  | nil =>
    obtain rfl := Option.some.inj h
    exact ⟨a, hs, fun hv hT => List.mem_append_left _ (ha hv hT)⟩
  | cons e es ih =>
    obtain ⟨u, hu, h⟩ := Option.bind_eq_some_iff.mp h
    obtain ⟨b, hb, hown⟩ := own_of_step hs hu
    have hrec : Recorded b (subs ++ submitted s e) := by
      intro T k v hv hT
      rcases hown hv hT with hold | hnew
      · exact List.mem_append_left _ (ha hold hT)
      · exact List.mem_append_right _ hnew
    obtain ⟨c, hc, hrec'⟩ := ih hb hrec h
    refine ⟨c, hc, ?_⟩
    rw [submissions, hu, ← List.append_assoc]
    exact hrec'

/-- Nothing is invented, and nothing is moved. In every run, a command that a service has
received at an index was handed to the `Start` of a leader, which returned that index or was
about to return it when the process crashed inside it. -/
theorem delivered_at_start_index {es : List (Event n C)}
    (h : (RaftCluster.initial : Cluster n C).run es = some s) {p : Fin n} {d : ℤ × List C}
    (hd : d ∈ (s.procs p).delivered) {k : ℕ} {x : C} (hx : d.2[k]? = some x) :
    ∃ T, ((k : ℤ) + 1, T, x) ∈ submissions RaftCluster.initial es := by
  have hnone : Recorded (TermLogProtocol.initial : Proto n C) [] := fun hv _ => by cases hv
  obtain ⟨a, ha, hrec⟩ := recorded_of_run related_initial hnone h
  obtain ⟨T, l, hchosen, -, hl⟩ := ((ha.proc p).service.delivered d hd).1
  obtain ⟨v, hv, rfl⟩ : ∃ v, l[k]? = some v ∧ v.item = x := by
    rw [hl, items, List.getElem?_map] at hx
    exact Option.map_eq_some_iff.mp hx
  rcases hchosen with rfl | ⟨U, m, -, -, hin⟩
  · cases hv
  obtain ⟨-, hroot⟩ := ha.reached.roots.leaderLog U k v
    (getElem?_of_initial (hin.trans (List.take_prefix _ _)) hv)
  have hown := getElem?_of_initial hroot
    (show ((a.leaderLog U).take (k + 1))[k]? = some v by
      rw [List.getElem?_take_of_lt (Nat.lt_succ_self k)]
      exact getElem?_of_initial (hin.trans (List.take_prefix _ _)) hv)
  exact ⟨v.term, by simpa using hrec hown rfl⟩

/-- Peer 0 of two loses the uncommitted command 6 in a crash inside `Start`, is elected again
and commits 7 and 8. -/
def resubmitRun : List (Event 2 ℕ) :=
  [.ticker 0, .deliver 0, .deliver 0, .crashIn (.start 0 6) 0, .ticker 0, .deliver 0, .deliver 0,
    .start 0 7, .start 0 8, .appendEntriesRoutine 0, .deliver 0, .deliver 0, .apply 0, .receive 0,
    .receive 0]

theorem delivered_at_start_index_resubmitted : ∃ s : Cluster 2 ℕ,
    (RaftCluster.initial : Cluster 2 ℕ).run resubmitRun = some s ∧
    (2, [7, 8]) ∈ (s.procs 0).delivered ∧
    ∃ T,
      (((1 : ℕ) : ℤ) + 1, T, 8) ∈ submissions (RaftCluster.initial : Cluster 2 ℕ) resubmitRun := by
  have htest : ((RaftCluster.initial : Cluster 2 ℕ).run resubmitRun).any (fun s => decide
      ((2, [7, 8]) ∈ (s.procs 0).delivered)) = true := by decide +kernel
  obtain ⟨s, hs⟩ : ∃ s, (RaftCluster.initial : Cluster 2 ℕ).run resubmitRun = some s :=
    Option.isSome_iff_exists.mp (by decide +kernel)
  rw [hs] at htest
  have hmem := of_decide_eq_true htest
  exact ⟨s, hs, hmem, delivered_at_start_index hs hmem rfl⟩

end DistributedLabs.RaftIntegrity
