import DistributedLabs.DemuxClient
import DistributedLabs.OneShotCalls
import Mathlib.Data.List.Perm.Basic

/-!
# Every call is answered once, with its own reply

Only the reader takes calls out of the map, and it sends on every channel that it takes out. While
it reads, a tag that is under way, as a request or as an answer, is the tag of a call in the map,
since calls have different tags. When a read fails, the map is closed first, so the list of the
outstanding calls is complete and stays so while the reader works through it.
-/

namespace DistributedLabs.Demux

open Relation TransitionRuns

variable {s t : State} {c : ℕ}

section Settling

def Phase.pending : Phase → Bool
  | .registered | .writing | .waiting => true
  | _ => false

def Phase.reply? : Phase → Option Reply
  | .returned rep => some rep
  | _ => none

theorem reply?_of_pending {phase : Phase} (h : phase.pending = true) : phase.reply? = none := by
  cases phase <;> first | rfl | cases h

/-- The channel on which the reader sends, and the reply. -/
def Reader.target : Reader → Option (ℕ × Reply)
  | .sending ch rep _ => some (ch, rep)
  | _ => none

/-- How one call stands to the entries of the map and to the reader: while it is pending it has an
entry and nothing was sent to it, or the reader is sending to it; afterwards it has returned with
the only reply that was ever sent to it. -/
structure Settles (map : AList fun _ : Ttag => ℕ) (target : Option (ℕ × Reply)) (c : ℕ)
    (call : Call) : Prop where
  entry : ∀ {t}, map.lookup t = some c →
    call.tag = t ∧ call.phase.pending = true ∧ call.sent = []
  pending : call.phase.pending = true →
    map.lookup call.tag = some c ∨ ∃ rep, target = some (c, rep)
  target : ∀ {rep}, target = some (c, rep) → call.phase.pending = true ∧ call.sent = [rep]
  returned : ∀ {rep}, call.phase.reply? = some rep → call.sent = [rep]
  unsent : call.phase.pending = false → call.phase.reply? = none → call.sent = []

/-- Only what the map and the reader have to do with the call itself matters. -/
theorem Settles.congr {map map' : AList fun _ : Ttag => ℕ} {target target' : Option (ℕ × Reply)}
    {call : Call} (h : Settles map target c call)
    (hmap : ∀ t, map'.lookup t = some c ↔ map.lookup t = some c)
    (htarget : ∀ rep, target' = some (c, rep) ↔ target = some (c, rep)) :
    Settles map' target' c call where
  entry ht := h.entry ((hmap _).mp ht)
  pending hp := (h.pending hp).imp (hmap _).mpr fun ⟨rep, hrep⟩ => ⟨rep, (htarget rep).mpr hrep⟩
  target hrep := h.target ((htarget _).mp hrep)
  returned := h.returned
  unsent := h.unsent

/-- The calls, the map and the reader belong together. -/
structure Sound (s : State) : Prop where
  nextTag : s.nextTag = .ofNat (s.count + 1)
  tag : ∀ c < s.count, (s.calls c).tag = .ofNat (c + 1)
  idle : ∀ c, s.count ≤ c → (s.calls c).phase = .idle
  settles : ∀ c, Settles s.callmap.calls s.reader.target c (s.calls c)

theorem sound_newDemuxClnt : Sound newDemuxClnt where
  nextTag := rfl
  tag c hc := absurd hc (Nat.not_lt_zero c)
  idle _ _ := rfl
  settles c := by
    constructor
    · intro t ht
      cases ht
    · intro hp
      cases hp
    · intro rep hrep
      cases hrep
    · intro rep hrep
      cases hrep
    · intro _ _
      rfl

theorem Sound.lt_count (h : Sound s) (hc : (s.calls c).phase ≠ .idle) : c < s.count :=
  not_le.mp fun hle => hc (h.idle c hle)

theorem Sound.tag_inj (h : Sound s) (hcount : s.count < 2 ^ 32) {c c' : ℕ} (hc : c < s.count)
    (hc' : c' < s.count) (htag : (s.calls c).tag = (s.calls c').tag) : c = c' := by
  have hsize : UInt32.size = 2 ^ 32 := rfl
  rw [h.tag c hc, h.tag c' hc'] at htag
  have hnat := congrArg UInt32.toNat htag
  rw [UInt32.toNat_ofNat_of_lt' (by omega), UInt32.toNat_ofNat_of_lt' (by omega)] at hnat
  omega

theorem Sound.pending_lt (h : Sound s) (hp : (s.calls c).phase.pending = true) : c < s.count := by
  apply h.lt_count
  intro hidle
  rw [hidle] at hp
  cases hp

/-- A step that concerns one call. -/
theorem Sound.update (h : Sound s) (hc : c < s.count) {call : Call} (hnext : t.nextTag = s.nextTag)
    (hcount : t.count = s.count) (hcalls : t.calls = Function.update s.calls c call)
    (htag : call.tag = (s.calls c).tag)
    (hmap : ∀ c' ≠ c, ∀ tag,
      t.callmap.calls.lookup tag = some c' ↔ s.callmap.calls.lookup tag = some c')
    (htarget : ∀ c' ≠ c, ∀ rep, t.reader.target = some (c', rep) ↔ s.reader.target = some (c', rep))
    (hcall : Settles t.callmap.calls t.reader.target c call) : Sound t where
  nextTag := by rw [hnext, hcount, h.nextTag]
  tag c' hc' := by
    rw [hcount] at hc'
    rw [hcalls, ← h.tag c' hc', Function.update_apply]
    split_ifs with heq
    · rw [heq, htag]
    · rfl
  idle c' hc' := by
    rw [hcount] at hc'
    rw [hcalls, Function.update_of_ne (by omega)]
    exact h.idle c' hc'
  settles c' := by
    by_cases heq : c' = c
    · subst heq
      rw [hcalls, Function.update_self]
      exact hcall
    · rw [hcalls, Function.update_of_ne heq]
      exact (h.settles c').congr (hmap c' heq) (htarget c' heq)

/-- A step that concerns neither the calls nor the entries of the map, nor a send. -/
theorem Sound.frame (h : Sound s) (hnext : t.nextTag = s.nextTag) (hcount : t.count = s.count)
    (hcalls : t.calls = s.calls) (hmap : t.callmap.calls = s.callmap.calls)
    (htarget : t.reader.target = s.reader.target) : Sound t where
  nextTag := by rw [hnext, hcount, h.nextTag]
  tag := by
    rw [hcount, hcalls]
    exact h.tag
  idle := by
    rw [hcount, hcalls]
    exact h.idle
  settles := by
    rw [hcalls, hmap, htarget]
    exact h.settles

theorem Sound.not_entry (h : Sound s) (hp : (s.calls c).phase.pending = false) (tag : Ttag) :
    s.callmap.calls.lookup tag ≠ some c := by
  intro htag
  exact Bool.false_ne_true (hp.symm.trans ((h.settles c).entry htag).2.1)

theorem Sound.not_target (h : Sound s) (hp : (s.calls c).phase.pending = false) (rep : Reply) :
    s.reader.target ≠ some (c, rep) := by
  intro hrep
  exact Bool.false_ne_true (hp.symm.trans ((h.settles c).target hrep).1)

/-- A call begins. -/
theorem Sound.sendReceive (h : Sound s) (b : Bytes) :
    Sound { s.setCall s.count ⟨s.nextTag, b, .tagged, []⟩ with
      nextTag := s.nextTag + 1
      count := s.count + 1 } where
  nextTag := by
    simp only [h.nextTag, UInt32.ofNat_add]
    rfl
  tag c hc := by
    simp only [State.setCall, Function.update_apply]
    split_ifs with heq
    · rw [heq]
      exact h.nextTag
    · exact h.tag c (by simp only at hc; omega)
  idle c hc := by
    simp only [State.setCall] at hc ⊢
    rw [Function.update_of_ne (by omega)]
    exact h.idle c (by omega)
  settles c := by
    simp only [State.setCall, Function.update_apply]
    split_ifs with heq
    · subst heq
      have hidle : (s.calls s.count).phase.pending = false := by
        rw [h.idle _ le_rfl]
        rfl
      constructor
      · intro tag htag
        exact absurd htag (h.not_entry hidle tag)
      · intro hp
        cases hp
      · intro rep hrep
        exact absurd hrep (h.not_target hidle rep)
      · intro rep hrep
        cases hrep
      · intro _ _
        rfl
    · exact h.settles c

/-- A call goes on between `put` and the receipt of its reply, or returns an error without having
come there. -/
theorem Sound.setPhase (h : Sound s) (hc : c < s.count) {phase : Phase}
    (hsame : phase.pending = (s.calls c).phase.pending) (hnew : phase.reply? = none)
    (hold : (s.calls c).phase.reply? = none) : Sound (s.setPhase c phase) := by
  have hcall := h.settles c
  refine h.update hc rfl rfl rfl rfl (fun _ _ _ => Iff.rfl) (fun _ _ _ => Iff.rfl) ?_
  constructor
  · intro tag htag
    exact ⟨(hcall.entry htag).1, hsame.trans (hcall.entry htag).2.1, (hcall.entry htag).2.2⟩
  · intro hp
    exact hcall.pending (hsame.symm.trans hp)
  · intro rep hrep
    exact ⟨hsame.trans (hcall.target hrep).1, (hcall.target hrep).2⟩
  · intro rep hrep
    cases hnew.symm.trans hrep
  · intro hp _
    exact hcall.unsent (hsame.symm.trans hp) hold

/-- A call is registered. Its tag has no entry, because no other call has it. -/
theorem Sound.register (h : Sound s) (hcount : s.count < 2 ^ 32)
    (hphase : (s.calls c).phase = .tagged) :
    Sound { s.setPhase c .registered with
      callmap := { s.callmap with calls := s.callmap.calls.insert (s.calls c).tag c } } := by
  have hidle : (s.calls c).phase.pending = false := by
    rw [hphase]
    rfl
  have hc : c < s.count := h.lt_count (by rw [hphase]; exact Phase.noConfusion)
  refine h.update hc rfl rfl rfl rfl ?_ (fun _ _ _ => Iff.rfl) ?_
  · intro c' hne tag
    by_cases htag : tag = (s.calls c).tag
    · subst htag
      simp only [AList.lookup_insert, Option.some.injEq]
      refine iff_of_false hne.symm fun hentry => hne ?_
      obtain ⟨htag, hp, -⟩ := (h.settles c').entry hentry
      exact h.tag_inj hcount (h.pending_lt hp) hc htag
    · simp only [AList.lookup_insert_ne htag]
  · constructor
    · intro tag htag
      by_cases heq : tag = (s.calls c).tag
      · refine ⟨heq.symm, rfl, (h.settles c).unsent hidle ?_⟩
        rw [hphase]
        rfl
      · simp only [AList.lookup_insert_ne heq] at htag
        exact absurd htag (h.not_entry hidle tag)
    · intro _
      exact Or.inl (AList.lookup_insert _)
    · intro rep hrep
      exact absurd hrep (h.not_target hidle rep)
    · intro rep hrep
      cases hrep
    · intro hp
      cases hp

/-- The reader takes a call out of the map and sends on its channel. -/
theorem Sound.remove (h : Sound s) {tag : Ttag} {rep : Reply} {rest : Option (List Ttag)} {ch : ℕ}
    (hreader : s.reader = .replying tag rep rest) (hch : s.callmap.calls.lookup tag = some ch) :
    Sound { s.setCall ch { s.calls ch with sent := rep :: (s.calls ch).sent } with
      callmap := { s.callmap with calls := s.callmap.calls.erase tag }
      reader := .sending ch rep rest } := by
  obtain ⟨htag, hp, hsent⟩ := (h.settles ch).entry hch
  refine h.update (h.pending_lt hp) rfl rfl rfl rfl ?_ ?_ ?_
  · intro c' hne tag'
    by_cases heq : tag' = tag
    · subst heq
      simp only [AList.lookup_erase, hch, Option.some.injEq]
      exact iff_of_false (Option.some_ne_none _).symm hne.symm
    · simp only [AList.lookup_erase_ne heq]
  · intro c' hne rep'
    rw [hreader]
    refine iff_of_false (fun heq => hne ?_) (Option.some_ne_none _).symm
    exact (Prod.mk.inj (Option.some.inj heq)).1.symm
  · constructor
    · intro tag' htag'
      by_cases heq : tag' = tag
      · subst heq
        simp only [AList.lookup_erase] at htag'
        cases htag'
      · simp only [AList.lookup_erase_ne heq] at htag'
        exact absurd (((h.settles ch).entry htag').1.symm.trans htag) heq
    · intro _
      exact Or.inr ⟨rep, rfl⟩
    · intro rep' hrep'
      obtain ⟨-, rfl⟩ := Prod.mk.inj (Option.some.inj hrep')
      exact ⟨hp, by simp only [hsent]⟩
    · intro rep' hrep'
      cases (reply?_of_pending hp).symm.trans hrep'
    · intro hnp
      exact absurd (hnp.symm.trans hp) Bool.false_ne_true

/-- A call receives its reply. -/
theorem Sound.send (h : Sound s) {ch : ℕ} {rep : Reply} {rest : Option (List Ttag)}
    (hreader : s.reader = .sending ch rep rest) :
    Sound { s.setPhase ch (.returned rep) with reader := .resume rest } := by
  have htarget : s.reader.target = some (ch, rep) := by rw [hreader]; rfl
  obtain ⟨hp, hsent⟩ := (h.settles ch).target htarget
  have hnone : (Reader.resume rest).target = none := by cases rest <;> rfl
  refine h.update (h.pending_lt hp) rfl rfl rfl rfl (fun _ _ _ => Iff.rfl) ?_ ?_
  · intro c' hne rep'
    rw [htarget, hnone]
    refine iff_of_false (Option.some_ne_none _).symm fun heq => hne ?_
    exact (Prod.mk.inj (Option.some.inj heq)).1.symm
  · constructor
    · intro tag htag
      rw [((h.settles ch).entry htag).2.2] at hsent
      cases hsent
    · intro hp'
      cases hp'
    · intro rep' hrep'
      simp only [hnone] at hrep'
      cases hrep'
    · intro rep' hrep'
      obtain rfl := Option.some.inj hrep'
      exact hsent
    · intro _ hnot
      cases hnot

theorem sound_of_action (h : Sound s) (hcount : s.count < 2 ^ 32) (ha : Action s t) : Sound t := by
  cases ha with
  | sendReceive b hmu => exact h.sendReceive b
  | refuse hphase hclosed =>
    refine h.setPhase (h.lt_count ?_) ?_ rfl ?_ <;> rw [hphase]
    · exact Phase.noConfusion
    · rfl
    · rfl
  | register hphase hopen => exact h.register hcount hphase
  | write reaches hphase hmu =>
    refine (h.setPhase (h.lt_count ?_) ?_ rfl ?_).frame rfl rfl rfl rfl rfl <;> rw [hphase]
    · exact Phase.noConfusion
    · rfl
    · rfl
  | wrote hphase =>
    refine (h.setPhase (h.lt_count ?_) ?_ rfl ?_).frame rfl rfl rfl rfl rfl <;> rw [hphase]
    · exact Phase.noConfusion
    · rfl
    · rfl
  | answer b ok hr => exact h.frame rfl rfl rfl rfl rfl
  | read hreader hm => exact h.frame rfl rfl rfl rfl (by rw [hreader]; rfl)
  | readFails hreader => exact h.frame rfl rfl rfl rfl (by rw [hreader]; rfl)
  | closeReader hreader => exact h.frame rfl rfl rfl rfl (by rw [hreader]; rfl)
  | outstanding hreader hts => exact h.frame rfl rfl rfl rfl (by rw [hreader]; rfl)
  | drain hreader => exact h.frame rfl rfl rfl rfl (by rw [hreader]; rfl)
  | finish hreader => exact h.frame rfl rfl rfl rfl (by rw [hreader]; rfl)
  | remove hreader hch => exact h.remove hreader hch
  | fatal hreader hch => exact h.frame rfl rfl rfl rfl (by rw [hreader]; rfl)
  | send hreader hphase => exact h.send hreader
  | close k => exact h.frame rfl rfl rfl rfl rfl
  | closeMap k => exact h.frame rfl rfl rfl rfl rfl

end Settling

section Travelling

def Reader.inLoop : Reader → Bool
  | .reading | .replying _ _ none | .sending _ _ none => true
  | _ => false

def Reader.inHand : Reader → List Ttag
  | .replying tag _ none => [tag]
  | _ => []

def State.travelling (s : State) : List Ttag :=
  s.received.map Prod.fst ++ s.replies.map Msg.tag ++ s.reader.inHand

def Phase.written : Phase → Bool
  | .writing | .waiting => true
  | _ => false

/-- Every tag under way is that of one call in the map, which has begun its write. The same holds
for the call to which the reader sends. -/
structure Matched (s : State) : Prop where
  nodup : s.travelling.Nodup
  entry : ∀ tag ∈ s.travelling, ∃ c, s.callmap.calls.lookup tag = some c ∧
    (s.calls c).phase.written = true
  target : ∀ {c rep}, s.reader.target = some (c, rep) → (s.calls c).phase.written = true

/-- A step after which the same tags are under way, and with the same entries. -/
theorem Matched.frame (h : Matched s) (hperm : t.travelling.Perm s.travelling)
    (hentry : ∀ tag c, s.callmap.calls.lookup tag = some c → (s.calls c).phase.written = true →
      t.callmap.calls.lookup tag = some c ∧ (t.calls c).phase.written = true)
    (htarget : ∀ {c rep}, t.reader.target = some (c, rep) → (t.calls c).phase.written = true) :
    Matched t where
  nodup := hperm.nodup_iff.mpr h.nodup
  entry tag htag := by
    obtain ⟨c, hc, hphase⟩ := h.entry tag (hperm.mem_iff.mp htag)
    exact ⟨c, hentry tag c hc hphase⟩
  target := htarget

theorem pending_of_written {phase : Phase} (h : phase.written = true) : phase.pending = true := by
  cases phase <;> first | rfl | cases h

theorem written_setPhase {phase : Phase}
    (hkeep : (s.calls c).phase.written = true → phase.written = true) {c' : ℕ}
    (h : (s.calls c').phase.written = true) :
    ((s.setPhase c phase).calls c').phase.written = true := by
  simp only [State.setPhase, State.setCall, Function.update_apply]
  split_ifs with hc
  · exact hkeep (hc ▸ h)
  · exact h

/-- A call goes on, and does not send. -/
theorem Matched.setPhase (h : Matched s) (c : ℕ) (phase : Phase)
    (hkeep : (s.calls c).phase.written = true → phase.written = true) :
    Matched (s.setPhase c phase) :=
  h.frame .rfl (fun _ _ hc hw => ⟨hc, written_setPhase hkeep hw⟩)
    fun htarget => written_setPhase hkeep (h.target htarget)

theorem Matched.sendReceive (h : Matched s) (hs : Sound s) (b : Bytes) :
    Matched { s.setCall s.count ⟨s.nextTag, b, .tagged, []⟩ with
      nextTag := s.nextTag + 1
      count := s.count + 1 } := by
  have hold : ∀ {c}, (s.calls c).phase.written = true →
      Function.update s.calls s.count ⟨s.nextTag, b, .tagged, []⟩ c = s.calls c := by
    intro c hw
    have hlt := hs.pending_lt (pending_of_written hw)
    exact Function.update_of_ne (by omega) _ _
  refine h.frame .rfl (fun tag c hc hw => ⟨hc, ?_⟩) fun htarget => ?_
  · simp only [State.setCall, hold hw]
    exact hw
  · have hw := h.target htarget
    simp only [State.setCall, hold hw]
    exact hw

theorem Matched.register (h : Matched s) (hs : Sound s) (hcount : s.count < 2 ^ 32)
    (hphase : (s.calls c).phase = .tagged) :
    Matched { s.setPhase c .registered with
      callmap := { s.callmap with calls := s.callmap.calls.insert (s.calls c).tag c } } := by
  have hc : c < s.count := hs.lt_count (by rw [hphase]; exact Phase.noConfusion)
  have hkeep : (s.calls c).phase.written = true → Phase.registered.written = true := by
    rw [hphase]
    exact id
  refine h.frame .rfl (fun tag c' hc' hw => ⟨?_, written_setPhase hkeep hw⟩)
    fun htarget => written_setPhase hkeep (h.target htarget)
  by_cases heq : tag = (s.calls c).tag
  · obtain ⟨htag, hp, -⟩ := (hs.settles c').entry hc'
    have hsame := hs.tag_inj hcount (hs.pending_lt hp) hc (htag.trans heq)
    rw [hsame, hphase] at hp
    cases hp
  · simpa only [AList.lookup_insert_ne heq] using hc'

/-- A write that reaches the server. Nothing with the tag of the call was under way before. -/
theorem Matched.write (h : Matched s) (hs : Sound s) (hphase : (s.calls c).phase = .registered) :
    Matched { s.setPhase c .writing with
      mu := some c
      received := ((s.calls c).tag, (s.calls c).req) :: s.received } := by
  have hkeep : (s.calls c).phase.written = true → Phase.writing.written = true := fun _ => rfl
  have hlookup : s.callmap.calls.lookup (s.calls c).tag = some c := by
    rcases (hs.settles c).pending (by rw [hphase]; rfl) with hentry | ⟨rep, htarget⟩
    · exact hentry
    · have hw := h.target htarget
      rw [hphase] at hw
      cases hw
  have hnew : (s.calls c).tag ∉ s.travelling := by
    intro hmem
    obtain ⟨c', hc', hw⟩ := h.entry _ hmem
    obtain rfl := Option.some.inj (hlookup.symm.trans hc')
    rw [hphase] at hw
    cases hw
  refine ⟨List.nodup_cons.mpr ⟨hnew, h.nodup⟩, fun tag htag => ?_,
    fun htarget => written_setPhase hkeep (h.target htarget)⟩
  rcases List.mem_cons.mp htag with rfl | hold
  · refine ⟨c, hlookup, ?_⟩
    simp only [State.setPhase, State.setCall, Function.update_self]
    rfl
  · obtain ⟨c', hc', hw⟩ := h.entry tag hold
    exact ⟨c', hc', written_setPhase hkeep hw⟩

/-- The reader takes the call out of the map whose tag it has in hand. -/
theorem Matched.remove (h : Matched s) {tag : Ttag} {rep : Reply} {ch : ℕ}
    (hreader : s.reader = .replying tag rep none) (hch : s.callmap.calls.lookup tag = some ch) :
    Matched { s.setCall ch { s.calls ch with sent := rep :: (s.calls ch).sent } with
      callmap := { s.callmap with calls := s.callmap.calls.erase tag }
      reader := .sending ch rep none } := by
  have hphase : ∀ c', ((s.setCall ch { s.calls ch with sent := rep :: (s.calls ch).sent }).calls
      c').phase = (s.calls c').phase := by
    intro c'
    simp only [State.setCall, Function.update_apply]
    split_ifs with hc
    · rw [hc]
    · rfl
  have hsplit : s.travelling = s.received.map Prod.fst ++ s.replies.map Msg.tag ++ [tag] := by
    rw [State.travelling, hreader]
    rfl
  have hnodup := h.nodup
  rw [hsplit, List.nodup_append] at hnodup
  have hmem : ∀ tag' ∈ s.received.map Prod.fst ++ s.replies.map Msg.tag, tag' ∈ s.travelling := by
    intro tag' htag'
    rw [hsplit]
    exact List.mem_append_left _ htag'
  refine ⟨?_, fun tag' htag' => ?_, fun {c' rep'} htarget => ?_⟩
  · simp only [State.travelling, Reader.inHand, List.append_nil]
    exact hnodup.1
  · simp only [State.travelling, Reader.inHand, List.append_nil] at htag'
    obtain ⟨c', hc', hw⟩ := h.entry tag' (hmem tag' htag')
    have hne : tag' ≠ tag := hnodup.2.2 tag' htag' tag (List.mem_singleton_self tag)
    refine ⟨c', ?_, ?_⟩
    · simpa only [AList.lookup_erase_ne hne] using hc'
    · rw [hphase]
      exact hw
  · obtain ⟨rfl, -⟩ := Prod.mk.inj (Option.some.inj htarget)
    obtain ⟨c', hc', hw⟩ := h.entry tag (by rw [hsplit]; exact List.mem_append_right _ (by simp))
    obtain rfl := Option.some.inj (hch.symm.trans hc')
    rw [hphase]
    exact hw

/-- A call receives its answer. It has no entry any more. -/
theorem Matched.send (h : Matched s) (hs : Sound s) {ch : ℕ} {rep : Reply}
    (hreader : s.reader = .sending ch rep none) :
    Matched { s.setPhase ch (.returned rep) with reader := .reading } := by
  have hsent : (s.calls ch).sent = [rep] := ((hs.settles ch).target (by rw [hreader]; rfl)).2
  have htravel : s.travelling = s.received.map Prod.fst ++ s.replies.map Msg.tag ++ [] := by
    rw [State.travelling, hreader]
    rfl
  refine h.frame (by rw [htravel]; rfl) (fun tag c hc hw => ⟨hc, ?_⟩) fun htarget => ?_
  · have hne : c ≠ ch := by
      rintro rfl
      rw [((hs.settles c).entry hc).2.2] at hsent
      cases hsent
    simp only [State.setPhase, State.setCall, Function.update_of_ne hne]
    exact hw
  · cases htarget

theorem cons_eraseIdx_perm {α : Type*} {l : List α} {i : ℕ} {x : α} (h : l[i]? = some x) :
    (x :: l.eraseIdx i).Perm l := by
  obtain ⟨hi, rfl⟩ := List.getElem?_eq_some_iff.mp h
  exact List.getElem_cons_eraseIdx_perm hi

theorem Matched.answer (h : Matched s) {i : ℕ} {r : Ttag × Bytes} (b : Bytes) (ok : Bool)
    (hr : s.received[i]? = some r) :
    Matched { s with
      received := s.received.eraseIdx i
      replies := ⟨r.1, b, ok⟩ :: s.replies
      answered := ⟨r.1, b, ok⟩ :: s.answered } := by
  refine h.frame ?_ (fun _ _ hc hw => ⟨hc, hw⟩) h.target
  apply List.Perm.append_right
  have hperm := (cons_eraseIdx_perm hr).map Prod.fst
  exact List.perm_middle.trans (hperm.append_right _)

theorem Matched.read (h : Matched s) {i : ℕ} {m : Msg} (hreader : s.reader = .reading)
    (hm : s.replies[i]? = some m) :
    Matched { s with
      replies := s.replies.eraseIdx i
      reader := .replying m.tag m.reply none } := by
  refine h.frame ?_ (fun _ _ hc hw => ⟨hc, hw⟩) fun htarget => ?_
  · have hperm := (cons_eraseIdx_perm hm).map Msg.tag
    simp only [State.travelling, hreader, Reader.inHand, List.append_nil, List.append_assoc]
    exact ((List.perm_append_singleton _ _).trans hperm).append_left _
  · cases htarget

theorem matched_of_action (hs : Sound s) (hcount : s.count < 2 ^ 32)
    (h : s.reader.inLoop = true → Matched s) (ha : Action s t) :
    t.reader.inLoop = true → Matched t := by
  intro hloop
  cases ha with
  | sendReceive b hmu => exact (h hloop).sendReceive hs b
  | refuse hphase hclosed =>
    refine (h hloop).setPhase _ _ ?_
    rw [hphase]
    exact id
  | register hphase hopen => exact (h hloop).register hs hcount hphase
  | @write c reaches hphase hmu =>
    cases reaches with
    | true => exact (h hloop).write hs hphase
    | false =>
      have hset := (h hloop).setPhase c .writing fun _ => rfl
      exact ⟨hset.nodup, hset.entry, hset.target⟩
  | @wrote c hphase =>
    have hset := (h hloop).setPhase c .waiting fun _ => rfl
    exact ⟨hset.nodup, hset.entry, hset.target⟩
  | answer b ok hr => exact (h hloop).answer b ok hr
  | read hreader hm => exact (h (by rw [hreader]; rfl)).read hreader hm
  | readFails hreader => cases hloop
  | closeReader hreader => cases hloop
  | outstanding hreader hts => cases hloop
  | drain hreader => cases hloop
  | finish hreader => cases hloop
  | @remove tag rep rest ch hreader hch =>
    cases rest with
    | none => exact (h (by rw [hreader]; rfl)).remove hreader hch
    | some ts => cases hloop
  | fatal hreader hch => cases hloop
  | @send ch rep rest hreader hphase =>
    cases rest with
    | none => exact (h (by rw [hreader]; rfl)).send hs hreader
    | some ts => cases hloop
  | close k => exact ⟨(h hloop).nodup, (h hloop).entry, (h hloop).target⟩
  | closeMap k => exact ⟨(h hloop).nodup, (h hloop).entry, (h hloop).target⟩

end Travelling

section Draining

/-- The tags that the reader has still to fail, once it knows them. -/
def Reader.left : Reader → Option (List Ttag)
  | .replying tag _ (some ts) => some (tag :: ts)
  | .sending _ _ (some ts) => some ts
  | .draining ts => some ts
  | .finished => some []
  | _ => none

def Reader.past : Reader → Bool
  | .replying _ _ (some _) | .sending _ _ (some _) | .closed | .draining _ | .finished => true
  | _ => false

/-- Once the reader has closed the map, no call comes into it, and the reader knows all that are
in it. -/
structure Drains (s : State) : Prop where
  closed : s.reader.past = true → s.callmap.closed = true
  left : ∀ {ts}, s.reader.left = some ts → ts.Perm s.callmap.calls.keys
  alive : ∀ tag rep, s.reader ≠ .fatal tag rep

theorem past_of_left {reader : Reader} {ts : List Ttag} (h : reader.left = some ts) :
    reader.past = true := by
  unfold Reader.left at h
  split at h <;> first | rfl | cases h

/-- Nothing is asked of a reader that has not closed the map. -/
theorem drains_of_early (hpast : s.reader.past = false)
    (halive : ∀ tag rep, s.reader ≠ .fatal tag rep) : Drains s where
  closed hp := absurd (hpast.symm.trans hp) Bool.false_ne_true
  left hl := absurd (hpast.symm.trans (past_of_left hl)) Bool.false_ne_true
  alive := halive

/-- A step that concerns neither the reader nor the entries of the map. -/
theorem Drains.frame (h : Drains s) (hreader : t.reader = s.reader)
    (hclosed : s.callmap.closed = true → t.callmap.closed = true)
    (hmap : t.callmap.calls = s.callmap.calls) : Drains t where
  closed hpast := hclosed (h.closed (hreader ▸ hpast))
  left hleft := by
    rw [hmap]
    exact h.left (hreader ▸ hleft)
  alive := by
    rw [hreader]
    exact h.alive

/-- The reader goes on without touching the map. -/
theorem Drains.goOn (h : Drains s) {reader : Reader}
    (hpast : reader.past = true → s.reader.past = true)
    (hleft : ∀ {ts}, reader.left = some ts → ts.Perm s.callmap.calls.keys)
    (halive : ∀ tag rep, reader ≠ .fatal tag rep) : Drains { s with reader := reader } where
  closed hp := h.closed (hpast hp)
  left := hleft
  alive := halive

theorem Drains.remove (h : Drains s) {tag : Ttag} {rep : Reply} {rest : Option (List Ttag)} {ch : ℕ}
    (hreader : s.reader = .replying tag rep rest) (call : Call) :
    Drains { s.setCall ch call with
      callmap := { s.callmap with calls := s.callmap.calls.erase tag }
      reader := .sending ch rep rest } := by
  cases rest with
  | none => exact drains_of_early rfl fun _ _ => Reader.noConfusion
  | some ts =>
    have hleft : s.reader.left = some (tag :: ts) := by rw [hreader]; rfl
    refine ⟨fun _ => h.closed (past_of_left hleft), fun hl => ?_, fun _ _ => Reader.noConfusion⟩
    obtain rfl := Option.some.inj hl
    have hperm := (h.left hleft).erase tag
    rw [List.erase_cons_head] at hperm
    exact hperm.trans (.of_eq (AList.keys_erase tag s.callmap.calls).symm)

theorem drains_of_action (h : Drains s) (hm : s.reader.inLoop = true → Matched s)
    (ha : Action s t) : Drains t := by
  cases ha with
  | sendReceive b hmu => exact h.frame rfl id rfl
  | refuse hphase hclosed => exact h.frame rfl id rfl
  | register hphase hopen =>
    have hbefore : s.reader.past ≠ true := fun hp => by
      rw [h.closed hp] at hopen
      cases hopen
    exact ⟨fun hp => absurd hp hbefore, fun hl => absurd (past_of_left hl) hbefore, h.alive⟩
  | write reaches hphase hmu => exact h.frame rfl id rfl
  | wrote hphase => exact h.frame rfl id rfl
  | answer b ok hr => exact h.frame rfl id rfl
  | read hreader hmsg => exact drains_of_early rfl fun _ _ => Reader.noConfusion
  | readFails hreader => exact drains_of_early rfl fun _ _ => Reader.noConfusion
  | closeReader hreader =>
    refine ⟨fun _ => rfl, fun hl => ?_, fun _ _ => Reader.noConfusion⟩
    cases hl
  | outstanding hreader hts =>
    refine h.goOn (fun _ => by rw [hreader]; rfl) (fun hl => ?_) fun _ _ => Reader.noConfusion
    obtain rfl := Option.some.inj hl
    exact hts
  | drain hreader =>
    refine h.goOn (fun _ => by rw [hreader]; rfl) (fun hl => ?_) fun _ _ => Reader.noConfusion
    obtain rfl := Option.some.inj hl
    exact h.left (by rw [hreader]; rfl)
  | finish hreader =>
    refine h.goOn (fun _ => by rw [hreader]; rfl) (fun hl => ?_) fun _ _ => Reader.noConfusion
    obtain rfl := Option.some.inj hl
    exact h.left (by rw [hreader]; rfl)
  | remove hreader hch => exact h.remove hreader _
  | @fatal tag rep rest hreader hch =>
    exfalso
    apply AList.lookup_eq_none.mp hch
    cases rest with
    | none =>
      have hmem : tag ∈ s.travelling := by
        rw [State.travelling, hreader]
        exact List.mem_append_right _ (List.mem_singleton_self tag)
      obtain ⟨c, hc, -⟩ := (hm (by rw [hreader]; rfl)).entry tag hmem
      exact AList.lookup_isSome.mp (by rw [hc]; rfl)
    | some ts =>
      have hperm := h.left (show s.reader.left = some (tag :: ts) by rw [hreader]; rfl)
      exact hperm.mem_iff.mp List.mem_cons_self
  | @send ch rep rest hreader hphase =>
    cases rest with
    | none => exact drains_of_early rfl fun _ _ => Reader.noConfusion
    | some ts =>
      have hleft : s.reader.left = some ts := by rw [hreader]; rfl
      refine ⟨fun _ => h.closed (past_of_left hleft), fun hl => ?_, fun _ _ => Reader.noConfusion⟩
      obtain rfl := Option.some.inj hl
      exact h.left hleft
  | close k => exact h.frame rfl id rfl
  | closeMap k => exact h.frame rfl (fun _ => rfl) rfl

end Draining

end DistributedLabs.Demux
