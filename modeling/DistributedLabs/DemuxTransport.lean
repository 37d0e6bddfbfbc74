import DistributedLabs.DemuxClient
import DistributedLabs.FramedPipes

/-!
# The transport of the multiplexed calls

`WriteCall` writes a message as its length in four bytes, least significant first, and the bytes of
`Marshall`. `ReadCall` reads the length and as many bytes. The length is a `uint32`, so messages of
`2 ^ 32` bytes and more are out of its reach. What `ReadCall` returns when the stream ends within a
message depends on where it ends: right after the length it is the error of a stream that ends
between two messages.
-/

namespace DistributedLabs.Demux

open FramedPipes

/-- `Marshall` and `Unmarshall` for the values of one type, where `Unmarshall` may end the
process. -/
structure Codec (A : Type*) where
  marshall : A → Bytes
  unmarshall : Bytes → Option A
  unmarshall_marshall : ∀ a, unmarshall (marshall a) = some a

def putUint32 (v : UInt32) : Bytes :=
  [v.toUInt8, (v >>> 8).toUInt8, (v >>> 16).toUInt8, (v >>> 24).toUInt8]

def uint32 (b₀ b₁ b₂ b₃ : UInt8) : UInt32 :=
  b₀.toUInt32 ||| b₁.toUInt32 <<< 8 ||| b₂.toUInt32 <<< 16 ||| b₃.toUInt32 <<< 24

theorem uint32_putUint32 (v : UInt32) :
    uint32 v.toUInt8 (v >>> 8).toUInt8 (v >>> 16).toUInt8 (v >>> 24).toUInt8 = v := by
  apply UInt32.toBitVec_inj.mp
  apply BitVec.eq_of_getLsbD_eq
  intro i hi
  simp only [uint32, UInt32.toBitVec_or, UInt32.toBitVec_shiftLeft, UInt8.toBitVec_toUInt32,
    UInt32.toBitVec_toUInt8, UInt32.toBitVec_shiftRight, BitVec.getLsbD_or, BitVec.getLsbD_setWidth,
    UInt32.toBitVec_ofNat, BitVec.ofNat_eq_ofNat, BitVec.reduceMod, BitVec.ushiftRight_eq',
    BitVec.toNat_ofNat, Nat.reducePow, Nat.reduceMod, BitVec.shiftLeft_eq',
    BitVec.getLsbD_shiftLeft, BitVec.getLsbD_ushiftRight]
  grind

/-- The bytes that `WriteCall` writes. -/
def frame (codec : Codec Msg) (m : Msg) : Bytes :=
  let b := codec.marshall m
  putUint32 (UInt32.ofNat b.length) ++ b

inductive ReadErr where
  | eof
  | unexpectedEOF
  deriving DecidableEq, Repr

inductive ReadResult where
  | message (m : Msg) (rest : Bytes)
  -- it waits for more, and returns the error if the stream ends here
  | short (err : ReadErr)
  -- `Unmarshall` fails and ends the process
  | fatal

/-- The error of `io.ReadFull` after some, but not all of the bytes that it wants. -/
def readFullErr (b : Bytes) : ReadErr := if b.isEmpty then .eof else .unexpectedEOF

def readCall (codec : Codec Msg) : Bytes → ReadResult
  | b₀ :: b₁ :: b₂ :: b₃ :: b =>
    let nbyte := (uint32 b₀ b₁ b₂ b₃).toNat
    if b.length < nbyte then .short (readFullErr b)
    else match codec.unmarshall (b.take nbyte) with
      | some m => .message m (b.drop nbyte)
      | none => .fatal
  | b => .short (readFullErr b)

/-- The length of the message is a `uint32`. -/
def Fits (codec : Codec Msg) (m : Msg) : Prop := (codec.marshall m).length < 2 ^ 32

variable {codec : Codec Msg}

theorem readCall_putUint32 (v : UInt32) (b : Bytes) :
    readCall codec (putUint32 v ++ b) =
      if b.length < v.toNat then .short (readFullErr b)
      else match codec.unmarshall (b.take v.toNat) with
        | some m => .message m (b.drop v.toNat)
        | none => .fatal := by
  simp only [putUint32, List.cons_append, List.nil_append, readCall, uint32_putUint32]

theorem toNat_length {m : Msg} (hm : Fits codec m) :
    (UInt32.ofNat (codec.marshall m).length).toNat = (codec.marshall m).length :=
  UInt32.toNat_ofNat_of_lt' hm

/-- A message that was written is read. -/
theorem readCall_frame {m : Msg} (hm : Fits codec m) (rest : Bytes) :
    readCall codec (frame codec m ++ rest) = .message m rest := by
  rw [frame, List.append_assoc, readCall_putUint32, toNat_length hm]
  simp [codec.unmarshall_marshall]

theorem readCall_of_length_lt {b : Bytes} (h : b.length < 4) :
    readCall codec b = .short (readFullErr b) := by
  match b, h with
  | [], _ => rfl
  | [_], _ => rfl
  | [_, _], _ => rfl
  | [_, _, _], _ => rfl

theorem readCall_torn {b : Bytes} (h : Torn (frame codec) (Fits codec) b) :
    ∃ err, readCall codec b = .short err := by
  obtain ⟨m, hm, hpre, hne⟩ := h
  rcases prefix_append_cases hpre with ⟨hshort, hne'⟩ | ⟨r, rfl⟩
  · refine ⟨_, readCall_of_length_lt ?_⟩
    rcases Nat.lt_or_ge b.length 4 with hlt | hge
    · exact hlt
    · exact absurd (hshort.eq_of_length_le hge) hne'
  · refine ⟨readFullErr r, ?_⟩
    have hr : r <+: codec.marshall m := (List.prefix_append_right_inj _).mp hpre
    have hlt : r.length < (codec.marshall m).length := by
      refine lt_of_le_of_ne hr.length_le fun heq => hne ?_
      rw [hr.eq_of_length heq]
      rfl
    rw [readCall_putUint32, toNat_length hm, if_pos hlt]

/-- What `ReadCall` finds on a pipe with messages: the first of them, or less than a message. -/
theorem readCall_carries {p : Pipe UInt8} {ms : List Msg}
    (h : Carries (frame codec) (Fits codec) p ms) :
    (∃ err, readCall codec p.here = .short err) ∨
      ∃ m rest ms', readCall codec p.here = .message m rest ∧ ms = m :: ms' ∧
        Carries (frame codec) (Fits codec) { p with here := rest } ms' := by
  rcases h.arrived with hnil | htorn | ⟨m, rest, ms', rfl, hhere, hrest⟩
  · refine .inl ⟨.eof, ?_⟩
    rw [hnil]
    rfl
  · exact .inl (readCall_torn htorn)
  · refine .inr ⟨m, rest, ms', ?_, rfl, hrest⟩
    rw [hhere, readCall_frame (h.whole m List.mem_cons_self)]

theorem carries_of_message {p : Pipe UInt8} {ms : List Msg} {m : Msg} {rest : Bytes}
    (h : Carries (frame codec) (Fits codec) p ms)
    (hread : readCall codec p.here = .message m rest) :
    ∃ ms', ms = m :: ms' ∧ Carries (frame codec) (Fits codec) { p with here := rest } ms' := by
  rcases readCall_carries h with ⟨err, hshort⟩ | ⟨m', rest', ms', hmessage, hms, hrest⟩
  · rw [hread] at hshort
    cases hshort
  · rw [hread] at hmessage
    obtain ⟨rfl, rfl⟩ := ReadResult.message.inj hmessage
    exact ⟨ms', hms, hrest⟩

theorem readCall_ne_fatal {p : Pipe UInt8} {ms : List Msg}
    (h : Carries (frame codec) (Fits codec) p ms) : readCall codec p.here ≠ .fatal := by
  intro hfatal
  rcases readCall_carries h with ⟨err, hshort⟩ | ⟨m, rest, ms', hmessage, -⟩
  · rw [hfatal] at hshort
    cases hshort
  · rw [hfatal] at hmessage
    cases hmessage

end DistributedLabs.Demux
