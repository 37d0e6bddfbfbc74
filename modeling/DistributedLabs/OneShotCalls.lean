import DistributedLabs.TransitionRuns
import Mathlib.Logic.Function.Basic

/-!
# Calls that are settled once

A table of calls is open until it is closed for good. A call that comes while the table is open is
accepted, and an accepted call is resolved with one reply. A call that comes later is refused. What
has been settled does not change any more.
-/

namespace DistributedLabs.OneShotCalls

open Relation

variable {K R : Type*}

inductive Status (R : Type*) where
  | fresh
  | pending
  | resolved (reply : R)
  | refused

structure Table (K R : Type*) where
  status : K → Status R
  isOpen : Bool

def Table.empty : Table K R := ⟨fun _ => .fresh, true⟩

inductive Step [DecidableEq K] (s : Table K R) : Table K R → Prop
  | accept {k : K} (hopen : s.isOpen = true) (h : s.status k = .fresh) :
    Step s { s with status := Function.update s.status k .pending }
  | refuse {k : K} (hclosed : s.isOpen = false) (h : s.status k = .fresh) :
    Step s { s with status := Function.update s.status k .refused }
  | resolve {k : K} (reply : R) (h : s.status k = .pending) :
    Step s { s with status := Function.update s.status k (.resolved reply) }
  | close : Step s { s with isOpen := false }

/-- What a call can come to, once the table is closed if `late` holds. -/
inductive Status.Leads (late : Bool) : Status R → Status R → Prop
  | same (x : Status R) : Leads late x x
  | accepted (h : late = false) : Leads late .fresh .pending
  | answered (h : late = false) (reply : R) : Leads late .fresh (.resolved reply)
  | refused : Leads late .fresh .refused
  | resolved (reply : R) : Leads late .pending (.resolved reply)

theorem Status.Leads.trans {late late' : Bool} (hlate : late = true → late' = true)
    {x y z : Status R} (h : x.Leads late y) (h' : y.Leads late' z) : x.Leads late z := by
  have hearly : late' = false → late = false := by
    cases late with
    | false => exact fun _ => rfl
    | true => simp [hlate rfl]
  cases h with
  | same => cases h' with
    | same => exact .same _
    | accepted hearly' => exact .accepted (hearly hearly')
    | answered hearly' reply => exact .answered (hearly hearly') reply
    | refused => exact .refused
    | resolved reply => exact .resolved reply
  | accepted hnow => cases h' with
    | same => exact .accepted hnow
    | resolved reply => exact .answered hnow reply
  | answered hnow reply => cases h' with
    | same => exact .answered hnow reply
  | refused => cases h' with
    | same => exact .refused
  | resolved reply => cases h' with
    | same => exact .resolved reply

structure Later (s t : Table K R) : Prop where
  closed : s.isOpen = false → t.isOpen = false
  status : ∀ k, (s.status k).Leads (!s.isOpen) (t.status k)

theorem Later.refl (s : Table K R) : Later s s := ⟨id, fun _ => .same _⟩

theorem Later.trans {s t u : Table K R} (h : Later s t) (h' : Later t u) : Later s u where
  closed hs := h'.closed (h.closed hs)
  status k := by
    refine (h.status k).trans ?_ (h'.status k)
    intro hs
    rw [Bool.not_eq_true'] at hs ⊢
    exact h.closed hs

variable [DecidableEq K]

theorem later_update {s : Table K R} {k : K} {x : Status R}
    (h : (s.status k).Leads (!s.isOpen) x) :
    Later s { s with status := Function.update s.status k x } where
  closed := id
  status j := by
    by_cases hj : j = k
    · subst hj
      simpa only [Function.update_self] using h
    · simp only [Function.update_of_ne hj]
      exact .same _

theorem later_of_step {s t : Table K R} (h : Step s t) : Later s t := by
  cases h with
  | accept hopen hfresh =>
    apply later_update
    rw [hfresh]
    exact .accepted (by rw [hopen]; rfl)
  | refuse hclosed hfresh =>
    apply later_update
    rw [hfresh]
    exact .refused
  | resolve reply hpending =>
    apply later_update
    rw [hpending]
    exact .resolved reply
  | close => exact ⟨fun _ => rfl, fun _ => .same _⟩

theorem later_of_run {s t : Table K R} (h : ReflTransGen Step s t) : Later s t := by
  induction h with
  | refl => exact Later.refl s
  | tail _ hstep ih => exact ih.trans (later_of_step hstep)

end DistributedLabs.OneShotCalls
