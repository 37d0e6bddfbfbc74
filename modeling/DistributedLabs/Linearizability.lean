import Mathlib.Data.List.Pairwise
import Mathlib.Data.List.Nodup

/-!
# Linearizability

A history is a list of calls with the times at which they were made and returned. It is
linearizable for a sequential specification if the returned calls, and some of the pending
ones with outputs of our choice, can be put in an order that respects real time and that
the specification accepts.
-/

namespace DistributedLabs.Linearizability

variable {K I O S : Type*}

/-- One call of a client; `result` is its output and the time of its return. -/
structure Operation (K I O : Type*) where
  client : K
  input : I
  call : ℕ
  result : Option (O × ℕ)
  deriving DecidableEq, Repr

/-- The first call had returned when the second one was made. -/
def Operation.Precedes (x y : Operation K I O) : Prop := ∃ r ∈ x.result, r.2 < y.call

section Return

variable {h : List (Operation K I O)} {m i : ℕ} {result : O × ℕ}

/-- The history after call number `m` has returned. -/
theorem getElem?_return_cases {op' : Operation K I O}
    (hop : (h.modify m fun op => { op with result := some result })[i]? = some op') :
    ∃ op, h[i]? = some op ∧ op'.client = op.client ∧ op'.input = op.input ∧ op'.call = op.call ∧
      ((i = m ∧ op'.result = some result) ∨ (i ≠ m ∧ op' = op)) := by
  rw [List.getElem?_modify] at hop
  obtain ⟨op, hold, rfl⟩ := Option.map_eq_some_iff.mp hop
  by_cases hm : m = i
  · exact ⟨op, hold, by simp [hm], by simp [hm], by simp [hm], Or.inl ⟨hm.symm, by simp [hm]⟩⟩
  · exact ⟨op, hold, by simp [hm], by simp [hm], by simp [hm],
      Or.inr ⟨fun hi => hm hi.symm, by simp [hm]⟩⟩

theorem getElem?_return_of_ne (hi : i ≠ m) :
    (h.modify m fun op => { op with result := some result })[i]? = h[i]? := by
  rw [List.getElem?_modify]
  simp [hi.symm]

theorem getElem?_return_self {op : Operation K I O} (hop : h[m]? = some op) :
    (h.modify m fun op => { op with result := some result })[m]? =
      some { op with result := some result } := by
  simp [hop]

/-- The history after the latest call has returned. -/
theorem modify_concat_length {α : Type*} (l : List α) (a : α) (f : α → α) :
    (l ++ [a]).modify l.length f = l ++ [f a] := by
  induction l with
  | nil => rfl
  | cons b rest ih => simp [ih]

end Return

/-- The specification accepts the outputs in this order. -/
def Legal (step : S → I → O → Bool × S) : S → List (I × O) → Prop
  | _, [] => True
  | st, (inp, out) :: rest => (step st inp out).1 = true ∧ Legal step (step st inp out).2 rest

/-- An order of numbered calls, with their inputs and outputs, that explains the history. -/
structure Linearization (step : S → I → O → Bool × S) (init : S) (h : List (Operation K I O))
    (order : List (ℕ × I × O)) : Prop where
  nodup : (order.map Prod.fst).Nodup
  made : ∀ x ∈ order, ∃ op, h[x.1]? = some op ∧ op.input = x.2.1 ∧ ∀ r ∈ op.result, r.1 = x.2.2
  returned : ∀ (i : ℕ) op, h[i]? = some op → op.result.isSome → i ∈ order.map Prod.fst
  realTime : order.Pairwise fun x y => ∀ op ∈ h[x.1]?, ∀ op' ∈ h[y.1]?, ¬ op'.Precedes op
  legal : Legal step init (order.map Prod.snd)

def Linearizable (step : S → I → O → Bool × S) (init : S) (h : List (Operation K I O)) : Prop :=
  ∃ order, Linearization step init h order

section Orders

variable {step : S → I → O → Bool × S} {init : S} {h : List (Operation K I O)} {i : ℕ}
  {op op' : Operation K I O} {r : O × ℕ}

theorem Linearization.mem_of_returned {order : List (ℕ × I × O)}
    (hlin : Linearization step init h order) (hop : h[i]? = some op) (hr : op.result = some r) :
    (i, op.input, r.1) ∈ order := by
  have hsome : op.result.isSome := by rw [hr]; rfl
  obtain ⟨⟨j, inp, out⟩, hx, rfl⟩ := List.mem_map.mp (hlin.returned i op hop hsome)
  obtain ⟨op', hop', rfl, hout⟩ := hlin.made _ hx
  obtain rfl := Option.some.inj (hop.symm.trans hop')
  rwa [hout r hr]

/-- A call comes behind the calls that had returned when it was made. -/
theorem Linearization.mem_of_precedes {pre post : List (ℕ × I × O)} {y : ℕ × I × O}
    (hlin : Linearization step init h (pre ++ y :: post)) (hop : h[i]? = some op)
    (hr : op.result = some r) (hop' : h[y.1]? = some op') (hne : i ≠ y.1) (hlt : r.2 < op'.call) :
    (i, op.input, r.1) ∈ pre := by
  rcases List.mem_append.mp (hlin.mem_of_returned hop hr) with hx | hx
  · exact hx
  · rcases List.mem_cons.mp hx with rfl | hx
    · exact absurd rfl hne
    · have hreal := (List.pairwise_append.mp hlin.realTime).2.1
      exact absurd ⟨r, hr, hlt⟩ ((List.pairwise_cons.mp hreal).1 _ hx op' hop' op hop)

end Orders

section Legality

variable {step : S → I → O → Bool × S} {st : S}

def finalState (step : S → I → O → Bool × S) (st : S) (l : List (I × O)) : S :=
  l.foldl (fun st x => (step st x.1 x.2).2) st

theorem finalState_append (l l' : List (I × O)) :
    finalState step st (l ++ l') = finalState step (finalState step st l) l' :=
  List.foldl_append

theorem legal_append (l l' : List (I × O)) : Legal step st (l ++ l') ↔
    Legal step st l ∧ Legal step (finalState step st l) l' := by
  induction l generalizing st with
  | nil => simp [Legal, finalState]
  | cons y rest ih =>
      simp only [List.cons_append, Legal, ih, finalState, List.foldl_cons, and_assoc]

end Legality

/-- A history is explained by the points of a list when every call takes effect at most once
among them, at a point that fits its interval. -/
theorem Linearization.of_points {step : S → I → O → Bool × S} {init : S}
    {h : List (Operation K I O)} {P : Type*} (points : List P) (effect : P → Option (ℕ × I × O))
    (honce : points.Pairwise fun p q => ∀ x ∈ effect p, ∀ y ∈ effect q, x.1 ≠ y.1)
    (hmade : ∀ p ∈ points, ∀ x ∈ effect p,
      ∃ op, h[x.1]? = some op ∧ op.input = x.2.1 ∧ ∀ r ∈ op.result, r.1 = x.2.2)
    (hreturned : ∀ (i : ℕ) op, h[i]? = some op → op.result.isSome →
      ∃ p ∈ points, ∃ x ∈ effect p, x.1 = i)
    (hreal : points.Pairwise fun p q => ∀ x ∈ effect p, ∀ y ∈ effect q,
      ∀ op ∈ h[x.1]?, ∀ op' ∈ h[y.1]?, ¬ op'.Precedes op)
    (hlegal : Legal step init ((points.filterMap effect).map Prod.snd)) :
    Linearization step init h (points.filterMap effect) := by
  refine ⟨?_, ?_, ?_, ?_, hlegal⟩
  · rw [List.Nodup, List.pairwise_map, List.pairwise_filterMap]
    exact honce
  · intro x hx
    obtain ⟨p, hp, hpx⟩ := List.mem_filterMap.mp hx
    exact hmade p hp x hpx
  · intro i op hop hres
    obtain ⟨p, hp, x, hpx, rfl⟩ := hreturned i op hop hres
    exact List.mem_map_of_mem (List.mem_filterMap.mpr ⟨p, hp, hpx⟩)
  · rw [List.pairwise_filterMap]
    exact hreal

end DistributedLabs.Linearizability
