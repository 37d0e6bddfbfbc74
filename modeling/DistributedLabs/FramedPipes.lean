import Mathlib.Data.List.Basic

/-!
# Messages as frames on a byte stream

A pipe takes what is written at one end to the other end in order, in pieces of any size. A write
that fails may leave a part of its bytes behind, and nothing is written after it. Messages are
written as frames. The bytes that are not read yet are then the frames of a list of messages,
followed by at most one torn frame, and what has arrived either begins with the frame of the first
message or is still short of a frame.
-/

namespace DistributedLabs.FramedPipes

variable {α M : Type*}

/-- What was written and has not arrived, and what has arrived and was not read. After a failed
write the pipe is broken. -/
structure Pipe (α : Type*) where
  flight : List α
  here : List α
  broken : Bool

def Pipe.empty : Pipe α := ⟨[], [], false⟩

/-- A write of which `k` elements get through; it fails unless these are all. -/
def Pipe.write (p : Pipe α) (b : List α) (k : ℕ) : Pipe α :=
  if p.broken then p
  else { p with flight := p.flight ++ b.take k, broken := decide (k < b.length) }

def Pipe.arrive (p : Pipe α) (k : ℕ) : Pipe α :=
  { p with flight := p.flight.drop k, here := p.here ++ p.flight.take k }

def Pipe.shut (p : Pipe α) : Pipe α := { p with broken := true }

def Pipe.takes (p : Pipe α) (b : List α) (k : ℕ) : Bool := !p.broken && decide (b.length ≤ k)

variable {frame : M → List α} {fits : M → Prop}

/-- A part of a frame that is not the whole of it. -/
def Torn (frame : M → List α) (fits : M → Prop) (b : List α) : Prop :=
  ∃ m, fits m ∧ b <+: frame m ∧ b ≠ frame m

/-- The frames of the messages are on the pipe, and after them at most a torn one, on a broken
pipe. -/
structure Carries (frame : M → List α) (fits : M → Prop) (p : Pipe α) (ms : List M) : Prop where
  whole : ∀ m ∈ ms, fits m
  bytes : ∃ rest, p.here ++ p.flight = ms.flatMap frame ++ rest ∧
    (rest = [] ∨ p.broken = true ∧ Torn frame fits rest)

theorem carries_empty : Carries frame fits (Pipe.empty : Pipe α) [] where
  whole _ hm := by cases hm
  bytes := ⟨[], rfl, .inl rfl⟩

variable {p : Pipe α} {ms : List M}

theorem Carries.arrive (h : Carries frame fits p ms) (k : ℕ) :
    Carries frame fits (p.arrive k) ms where
  whole := h.whole
  bytes := by
    obtain ⟨rest, hbytes, hrest⟩ := h.bytes
    refine ⟨rest, ?_, hrest⟩
    rw [← hbytes]
    simp only [Pipe.arrive, List.append_assoc, List.take_append_drop]

theorem Carries.shut (h : Carries frame fits p ms) : Carries frame fits p.shut ms where
  whole := h.whole
  bytes := by
    obtain ⟨rest, hbytes, hrest⟩ := h.bytes
    exact ⟨rest, hbytes, hrest.imp_right fun hr => ⟨rfl, hr.2⟩⟩

/-- The message of a write is on the pipe if the whole of its frame gets through. -/
theorem Carries.write (h : Carries frame fits p ms) {m : M} (hm : fits m) (k : ℕ) :
    Carries frame fits (p.write (frame m) k)
      (if p.takes (frame m) k then ms ++ [m] else ms) := by
  obtain ⟨rest, hbytes, hrest⟩ := h.bytes
  by_cases hbroken : p.broken = true
  · simpa [Pipe.write, Pipe.takes, hbroken] using h
  · have hnil : rest = [] := hrest.resolve_right fun hr => hbroken hr.1
    subst hnil
    simp only [Bool.not_eq_true] at hbroken
    by_cases hk : (frame m).length ≤ k
    · have htakes : p.takes (frame m) k = true := by simp [Pipe.takes, hbroken, hk]
      rw [if_pos htakes]
      constructor
      · intro m' hm'
        rcases List.mem_append.mp hm' with hold | hnew
        · exact h.whole m' hold
        · rwa [List.mem_singleton.mp hnew]
      · refine ⟨[], ?_, .inl rfl⟩
        rw [List.append_nil] at hbytes
        simp [Pipe.write, hbroken, List.take_of_length_le hk, ← List.append_assoc, hbytes]
    · have htakes : ¬ p.takes (frame m) k = true := by simp [Pipe.takes, hk]
      rw [if_neg htakes]
      refine ⟨h.whole, (frame m).take k, ?_, .inr ⟨?_, m, hm, List.take_prefix k _, ?_⟩⟩
      · rw [List.append_nil] at hbytes
        simp [Pipe.write, hbroken, ← List.append_assoc, hbytes]
      · simpa [Pipe.write, hbroken] using hk
      · intro heq
        have hlen := congrArg List.length heq
        rw [List.length_take] at hlen
        omega

/-- A part of two pieces ends in the first one or has the whole of it. -/
theorem prefix_append_cases {l a b : List α} (h : l <+: a ++ b) :
    (l <+: a ∧ l ≠ a) ∨ ∃ r, l = a ++ r := by
  rcases List.prefix_or_prefix_of_prefix h (List.prefix_append a b) with hl | ⟨r, hr⟩
  · by_cases heq : l = a
    · exact .inr ⟨[], by rw [heq, List.append_nil]⟩
    · exact .inl ⟨hl, heq⟩
  · exact .inr ⟨r, hr.symm⟩

/-- What has arrived is short of a frame, or begins with the frame of the first message. -/
theorem Carries.arrived (h : Carries frame fits p ms) :
    p.here = [] ∨ Torn frame fits p.here ∨
      ∃ m rest ms', ms = m :: ms' ∧ p.here = frame m ++ rest ∧
        Carries frame fits { p with here := rest } ms' := by
  obtain ⟨rest, hbytes, hrest⟩ := h.bytes
  cases ms with
  | nil =>
    rcases hrest with rfl | ⟨hbroken, m, hm, hpre, hne⟩
    · simp only [List.flatMap_nil, List.append_nil, List.append_eq_nil_iff] at hbytes
      exact .inl hbytes.1
    · have hhere : p.here <+: rest := ⟨p.flight, by simpa using hbytes⟩
      refine .inr (.inl ⟨m, hm, hhere.trans hpre, fun heq => hne ?_⟩)
      exact hpre.eq_of_length_le (heq ▸ hhere.length_le)
  | cons m ms' =>
    have hhere : p.here <+: frame m ++ (ms'.flatMap frame ++ rest) :=
      ⟨p.flight, by simpa using hbytes⟩
    rcases prefix_append_cases hhere with hshort | ⟨r, hr⟩
    · exact .inr (.inl ⟨m, h.whole m List.mem_cons_self, hshort⟩)
    · refine .inr (.inr ⟨m, r, ms', rfl, hr, ?_, rest, ?_, hrest⟩)
      · exact fun m' hm' => h.whole m' (List.mem_cons_of_mem m hm')
      · simpa [hr] using hbytes

end DistributedLabs.FramedPipes
