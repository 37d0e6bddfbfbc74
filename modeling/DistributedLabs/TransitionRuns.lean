import Mathlib.Algebra.GroupWithZero.Nat
import Mathlib.Logic.Relation

/-!
# Invariants and simulations along finite runs

A system is given by its initial states and its steps. A run is the reflexive
transitive closure of the steps. The two rules below are the only inductions over
runs that safety arguments need: an inductive property holds in every reachable
state, and a step-wise simulation lifts to whole runs, moment by moment.
-/

namespace DistributedLabs.TransitionRuns

open Relation

-- Runs on fixed inputs are given for systems of one, two or three parties.
instance neZero_one : NeZero 1 := ⟨Nat.one_ne_zero⟩

instance neZero_two : NeZero 2 := ⟨Nat.succ_ne_zero 1⟩

instance neZero_three : NeZero 3 := ⟨Nat.succ_ne_zero 2⟩

variable {S A : Type*}

def Reachable (init : S → Prop) (step : S → S → Prop) (s : S) : Prop :=
  ∃ s₀, init s₀ ∧ ReflTransGen step s₀ s

variable {init : S → Prop} {step : S → S → Prop}

theorem Reachable.of_init {s : S} (h : init s) : Reachable init step s := ⟨s, h, .refl⟩

theorem Reachable.tail {s t : S} (h : Reachable init step s) (hst : step s t) :
    Reachable init step t := by
  obtain ⟨s₀, h₀, hr⟩ := h
  exact ⟨s₀, h₀, hr.tail hst⟩

theorem Reachable.trans {s t : S} (h : Reachable init step s) (hst : ReflTransGen step s t) :
    Reachable init step t := by
  obtain ⟨s₀, h₀, hr⟩ := h
  exact ⟨s₀, h₀, hr.trans hst⟩

/-- An inductive property holds in every reachable state. -/
theorem Reachable.invariant {I : S → Prop} {s : S} (h : Reachable init step s)
    (hinit : ∀ s, init s → I s)
    (hstep : ∀ s t, Reachable init step s → I s → step s t → I t) : I s := by
  obtain ⟨s₀, h₀, hr⟩ := h
  induction hr with
  | refl => exact hinit s₀ h₀
  | tail hr hst ih => exact hstep _ _ ⟨s₀, h₀, hr⟩ ih hst

/-- A relation every step preserves relates the two ends of every run. -/
theorem run_preserves {I : S → Prop} (hstep : ∀ s t, I s → step s t → I t) {s t : S}
    (hs : I s) (hr : ReflTransGen step s t) : I t := by
  induction hr with
  | refl => exact hs
  | tail _ hst ih => exact hstep _ _ ih hst

/-- Where every state short of a goal has a step that lowers a rank, a run reaches the goal. -/
theorem exists_run_of_rank {R : Type*} {lt : R → R → Prop} (hwf : WellFounded lt)
    {I goal : S → Prop} (rank : S → R)
    (hprogress : ∀ s, I s → ¬ goal s → ∃ t, step s t ∧ I t ∧ lt (rank t) (rank s)) {s : S}
    (hs : I s) : ∃ t, ReflTransGen step s t ∧ I t ∧ goal t := by
  induction hrank : rank s using hwf.induction generalizing s with
  | h r ih =>
    by_cases hgoal : goal s
    · exact ⟨s, .refl, hs, hgoal⟩
    · obtain ⟨t, hst, ht, hlt⟩ := hprogress s hs hgoal
      obtain ⟨u, htu, hu, hgoal⟩ := ih (rank t) (hrank ▸ hlt) ht rfl
      exact ⟨u, .head hst htu, hu, hgoal⟩

/-- A forward simulation answers each step by a run of the other system. -/
structure Simulation (init : S → Prop) (step : S → S → Prop) (ainit : A → Prop)
    (astep : A → A → Prop) (R : S → A → Prop) : Prop where
  start : ∀ s, init s → ∃ a, ainit a ∧ R s a
  forward : ∀ s t a, R s a → step s t → ∃ b, ReflTransGen astep a b ∧ R t b

variable {ainit : A → Prop} {astep : A → A → Prop} {R : S → A → Prop}

/-- A simulation answers every run by a run. -/
theorem Simulation.run (sim : Simulation init step ainit astep R) {s t : S} {a : A}
    (hR : R s a) (hr : ReflTransGen step s t) : ∃ b, ReflTransGen astep a b ∧ R t b := by
  induction hr with
  | refl => exact ⟨a, .refl, hR⟩
  | tail _ hst ih =>
    obtain ⟨b, hab, hb⟩ := ih
    obtain ⟨c, hbc, hc⟩ := sim.forward _ _ b hb hst
    exact ⟨c, hab.trans hbc, hc⟩

/-- Every reachable state is related to a reachable state. -/
theorem Simulation.reachable (sim : Simulation init step ainit astep R) {s : S}
    (h : Reachable init step s) : ∃ a, Reachable ainit astep a ∧ R s a := by
  obtain ⟨s₀, h₀, hr⟩ := h
  obtain ⟨a₀, ha₀, hR⟩ := sim.start s₀ h₀
  obtain ⟨a, ha, hRa⟩ := sim.run hR hr
  exact ⟨a, ⟨a₀, ha₀, ha⟩, hRa⟩

section Execution

variable {E : Type*} {next : S → E → Option S}

/-- The state after a list of events; `none` when one of them cannot happen. -/
def exec (next : S → E → Option S) (s : S) : List E → Option S
  | [] => some s
  | e :: rest => (next s e).bind fun t => exec next t rest

theorem steps_of_exec (hstep : ∀ s e t, next s e = some t → step s t) {s t : S} {es : List E}
    (h : exec next s es = some t) : ReflTransGen step s t := by
  induction es generalizing s with
  | nil =>
    obtain rfl := Option.some.inj h
    exact .refl
  | cons e rest ih =>
    obtain ⟨u, hu, hrest⟩ := Option.bind_eq_some_iff.mp h
    exact .head (hstep s e u hu) (ih hrest)

/-- A property that may weaken with the number of events holds at the end of an execution for the
number of its events. -/
theorem exec_counted {I : ℕ → S → Prop}
    (hstep : ∀ k s e t, I k s → next s e = some t → I (k + 1) t) {k : ℕ} {s t : S} {es : List E}
    (hs : I k s) (h : exec next s es = some t) : I (k + es.length) t := by
  induction es generalizing k s with
  | nil =>
    obtain rfl := Option.some.inj h
    exact hs
  | cons e rest ih =>
    obtain ⟨u, hu, hrest⟩ := Option.bind_eq_some_iff.mp h
    have hlast := ih (hstep k s e u hs hu) hrest
    rwa [Nat.add_assoc, Nat.add_comm 1] at hlast

/-- An execution that ends as a test says is a run. -/
theorem exists_of_exec (hstep : ∀ s e t, next s e = some t → step s t) {s : S} {es : List E}
    {test : S → Bool} (h : (exec next s es).any test = true) :
    ∃ t, ReflTransGen step s t ∧ test t = true := by
  cases hexec : exec next s es with
  | none =>
    rw [hexec] at h
    cases h
  | some t =>
    rw [hexec] at h
    exact ⟨t, steps_of_exec hstep hexec, h⟩

end Execution

end DistributedLabs.TransitionRuns
