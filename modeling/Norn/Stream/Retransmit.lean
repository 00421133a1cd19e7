import Norn.Stream.Link

/-!
# Retransmission of the oldest segment

The timer runs as long as the clock of the calls stays clear of the wrap-around.
-/

namespace Norn
open UInt32 List
namespace Stream

theorem slot_add_ne (q : UInt32) {i j : ℕ} (hij : i < j) (hj : j < streamWinMax) :
    slot (q + UInt32.ofNat i) ≠ slot (q + UInt32.ofNat j) := by
  simp only [slot, UInt32.toNat_add, UInt32.toNat_ofNat', streamWinMax] at hj ⊢
  omega

theorem slot_succ_ne (q : UInt32) : slot (q + 1) ≠ slot q := by
  have hne := slot_add_ne q (show 0 < 1 by decide) (show 1 < streamWinMax by decide)
  rw [add_ofNat_zero] at hne
  exact hne.symm

theorem sndNxt_eq (s : Stream) : s.sndNxt = s.sndUna + UInt32.ofNat s.inflight := by
  have hnxt := s.sndNxt.toNat_lt
  have huna := s.sndUna.toNat_lt
  apply UInt32.toNat_inj.mp
  rw [inflight, UInt32.ofNat_toNat, UInt32.toNat_add, UInt32.toNat_sub]
  omega

theorem pumpSend_held (s : Stream) (now : UInt32) :
    ((s.pumpSend now).1.sndUna = s.sndUna ∧ s.inflight ≤ (s.pumpSend now).1.inflight ∧
      ∀ i < s.inflight, (s.pumpSend now).1.sbuf (slot (s.sndUna + ofNat i)) =
        s.sbuf (slot (s.sndUna + ofNat i))) ∧
    ∀ d ∈ (s.pumpSend now).2, ∃ i, s.inflight ≤ i ∧ i < streamWinMax ∧
      get32 d 1 = s.sndUna + ofNat i := by
  refine pumpLoop_induct (P := fun t => t.sndUna = s.sndUna ∧ s.inflight ≤ t.inflight ∧
    ∀ i < s.inflight, t.sbuf (slot (s.sndUna + ofNat i)) =
      s.sbuf (slot (s.sndUna + ofNat i))) ?_ ⟨rfl, le_rfl, fun _ _ => rfl⟩ _
  rintro t t' d ⟨huna, hle, hheld⟩ hfl hr
  have hwin := hfl.trans_le s.sendWindow_le
  have hnxt : t.sndNxt = s.sndUna + ofNat t.inflight := by rw [t.sndNxt_eq, huna]
  refine ⟨⟨hr.sndUna.trans huna, ?_, fun i hi => ?_⟩, t.inflight, hle, hwin, hr.seq.trans hnxt⟩
  · rw [hr.inflight hwin]
    omega
  · rw [hr.sbuf_of_ne, hheld i hi]
    rw [hnxt]
    exact slot_add_ne _ (by omega) hwin

/-- The clock is clear of the wrap-around. -/
def Clear (now : UInt32) : Prop := now.toNat + streamRtoMax.toNat < 2 ^ 32

instance (now : UInt32) : Decidable (Clear now) := inferInstanceAs (Decidable (_ < _))

/-- A timer runs while a segment is outstanding. -/
structure Timed (s : Stream) : Prop where
  rto_min : streamRtoMin ≤ s.rto
  rto_max : s.rto ≤ streamRtoMax
  armed : s.sndUna ≠ s.sndNxt → s.rtoDeadline ≠ 0

def timerSide (s : Stream) : UInt32 × UInt32 × UInt32 × UInt32 :=
  (s.rto, s.rtoDeadline, s.sndUna, s.sndNxt)

theorem timed_streamNew : Timed streamNew := ⟨by decide, by decide, by decide⟩

variable {now : UInt32} {s : Stream}

theorem arm_ne_zero {rto : UInt32} (hnow : Clear now) (hmin : streamRtoMin ≤ rto)
    (hmax : rto ≤ streamRtoMax) : now + rto ≠ 0 := by
  intro h
  have hzero := congrArg UInt32.toNat h
  have hmin' : 50 ≤ rto.toNat := hmin
  have hmax' : rto.toNat ≤ 60000 := hmax
  have hnow' : now.toNat + 60000 < 2 ^ 32 := hnow
  rw [UInt32.toNat_add, UInt32.toNat_zero] at hzero
  omega

theorem rttUpdate_rto (s : Stream) (r : UInt32) :
    streamRtoMin ≤ (s.rttUpdate r).rto ∧ (s.rttUpdate r).rto ≤ streamRtoMax := by
  have hclamp : ∀ x : UInt32, let y := if x < streamRtoMin then streamRtoMin else x
      streamRtoMin ≤ (if streamRtoMax < y then streamRtoMax else y) ∧
        (if streamRtoMax < y then streamRtoMax else y) ≤ streamRtoMax := by
    intro x
    simp only [lt_iff_toNat_lt, le_iff_toNat_le, streamRtoMin, streamRtoMax]
    split_ifs <;> simp_all
  exact hclamp _

theorem backOff_rto (h : s.rto ≤ streamRtoMax) (hmin : streamRtoMin ≤ s.rto) :
    streamRtoMin ≤ s.backOff.rto ∧ s.backOff.rto ≤ streamRtoMax := by
  by_cases hwin : s.peerRwnd = 0
  · rw [backOff, if_pos hwin]
    exact ⟨hmin, h⟩
  · rw [backOff, if_neg hwin]
    change streamRtoMin ≤ (if s.rto < streamRtoMax / 2 then s.rto * 2 else streamRtoMax) ∧
      (if s.rto < streamRtoMax / 2 then s.rto * 2 else streamRtoMax) ≤ streamRtoMax
    have hmin' : 50 ≤ s.rto.toNat := hmin
    split_ifs with hlt
    · have hlt' : s.rto.toNat < 30000 := hlt
      simp only [UInt32.le_iff_toNat_le, UInt32.toNat_mul, streamRtoMin, streamRtoMax]
      simp only [UInt32.reduceToNat]
      omega
    · decide

section
variable {s s' : Stream} (h : Timed s)
include h

theorem Timed.congr (hs : s'.timerSide = s.timerSide) : Timed s' := by
  simp only [timerSide, Prod.mk.injEq] at hs
  obtain ⟨hrto, hdl, huna, hnxt⟩ := hs
  exact ⟨hrto ▸ h.rto_min, hrto ▸ h.rto_max, by rw [huna, hnxt, hdl]; exact h.armed⟩

theorem Timed.arm (hnow : Clear now) (hrto : s'.rto = s.rto)
    (hdl : s'.sndUna ≠ s'.sndNxt → s'.rtoDeadline = now + s'.rto) : Timed s' := by
  refine ⟨hrto ▸ h.rto_min, hrto ▸ h.rto_max, fun hne => ?_⟩
  rw [hdl hne, hrto]
  exact arm_ne_zero hnow h.rto_min h.rto_max

theorem Timed.pumpSend (hnow : Clear now) : Timed (s.pumpSend now).1 := by
  refine (pumpLoop_induct (Q := fun _ => True) (fun t t' d ht _ hr => ⟨?_, trivial⟩) h _).1
  refine ⟨hr.rto ▸ ht.rto_min, hr.rto ▸ ht.rto_max, fun _ => ?_⟩
  rw [hr.rtoDeadline]
  split_ifs with hzero
  · exact arm_ne_zero hnow ht.rto_min ht.rto_max
  · exact hzero

theorem Timed.sampleRtt (ack now : UInt32) : Timed (s.sampleRtt ack now) := by
  unfold Stream.sampleRtt
  split_ifs
  · obtain ⟨hmin, hmax⟩ := s.rttUpdate_rto (now - (s.sbuf (slot (ack - 1))).sentAt)
    exact ⟨hmin, hmax, h.armed⟩
  · exact h

theorem Timed.ccOnAck (acked : ℕ) : Timed (s.ccOnAck acked) := by
  apply h.congr
  unfold Stream.ccOnAck
  split_ifs <;> rfl

theorem Timed.onAck (ack : UInt32) (hnow : Clear now) : Timed (s.onAck ack now).1 := by
  unfold Stream.onAck
  split_ifs with hadv hdup
  · have hs₁ := (h.sampleRtt ack now).ccOnAck (ack - s.sndUna).toNat
    exact hs₁.arm hnow rfl fun hne => if_neg hne
  · unfold Stream.dupAck
    split_ifs
    · exact h.congr rfl
    · have hloss : Timed ({ s with dupacks := s.dupacks + 1 }.ccOnLoss false) := h.congr rfl
      exact hloss.arm hnow (side_eq rto (modRetx_retransmitLoop _ _ _ _ _) fun _ => rfl :)
        fun _ => rfl
    · exact h.congr rfl
  · exact h

theorem Timed.takeAck (d : Bytes) (hnow : Clear now) : Timed (s.takeAck d now).1 :=
  (h.congr (side_eq timerSide (s.modRead_sackRead d) fun _ => rfl)).onAck _ hnow

theorem Timed.streamInput (d : Bytes) (hnow : Clear now) : Timed (s.streamInput d now).1 := by
  unfold Stream.streamInput
  split_ifs
  · exact h
  · exact h.takeAck d hnow
  · exact (h.takeAck d hnow).congr (side_eq timerSide (modRecv_accept _ _ _ _) fun _ => rfl :)

theorem Timed.timeout (hnow : Clear now) : Timed (s.timeout now).1 := by
  obtain ⟨hmin, hmax⟩ := backOff_rto h.rto_max h.rto_min
  have hrto : (s.timeout now).1.rto = s.backOff.rto :=
    (side_eq rto (modRetx_retransmitLoop _ _ _ _ _) fun _ => rfl :)
  refine ⟨hrto ▸ hmin, hrto ▸ hmax, fun _ => ?_⟩
  change now + (s.timeout now).1.rto ≠ 0
  rw [hrto]
  exact arm_ne_zero hnow hmin hmax

theorem Timed.streamTick (hnow : Clear now) : Timed (s.streamTick now).1 := by
  rcases s.streamTick_cases now with ⟨_, _, heq⟩ | ⟨_, heq⟩
  · rw [heq]
    exact (h.pumpSend hnow).timeout hnow
  · rw [heq]
    exact h.pumpSend hnow

end

/-- A datagram carries the segment `q` as it is held. -/
def Resends (s : Stream) (q : UInt32) (out : List Bytes) : Prop :=
  ∃ d ∈ out, d.getD 0 0 &&& (fData ||| fFin) ≠ 0 ∧ get32 d 1 = q ∧
    d.drop streamHeader = (s.sbuf (slot q)).data

theorem item_flags_ne (it : Item) : (it.flags ||| fAck) &&& (fData ||| fFin) ≠ 0 := by
  cases it with
  | data => exact (by decide : (fData ||| fAck) &&& (fData ||| fFin) ≠ 0)
  | fin => decide

theorem inflight_pos (h : s.sndUna ≠ s.sndNxt) : 0 < s.inflight := by
  apply Nat.pos_of_ne_zero
  intro hzero
  have hnxt := s.sndNxt_eq
  rw [hzero] at hnxt
  exact h (by simpa using hnxt.symm)

theorem pumpSend_rtoDeadline (h : s.rtoDeadline ≠ 0) (now : UInt32) :
    (s.pumpSend now).1.rtoDeadline = s.rtoDeadline := by
  refine (pumpLoop_induct (P := fun t => t.rtoDeadline = s.rtoDeadline) (Q := fun _ => True)
    (fun t t' d ht _ hr => ⟨?_, trivial⟩) rfl _).1
  rw [hr.rtoDeadline, ht, if_neg h]

section
variable {s : Stream} {items : List Item} (h : Sent s items)
include h

theorem Sent.una_mem_retransmitRange (hne : s.sndUna ≠ s.sndNxt)
    (hsacked : (s.sbuf (slot s.sndUna)).sacked = false) (now : UInt32) :
    s.emitSeg (s.sbuf (slot s.sndUna)) ∈ (s.retransmitRange now s.sndNxt).2 := by
  have hwin := h.window
  have hpos := inflight_pos hne
  obtain ⟨n, hn⟩ := Nat.exists_eq_succ_of_ne_zero hpos.ne'
  have hlimit : signed (s.sndUna - s.sndNxt) < 0 := by
    rw [signed_neg_iff]
    unfold inflight at hpos hwin
    have := s.sndUna.toNat_lt
    have := s.sndNxt.toNat_lt
    simp only [UInt32.toNat_sub, streamWinMax] at hpos hwin ⊢
    omega
  rw [Stream.retransmitRange, hn, retransmitLoop, if_pos hlimit, if_neg (by simp [hsacked])]
  exact List.mem_cons_self

theorem Sent.emit_entry {i : ℕ} (hi : i < s.inflight) :
    get32 (s.emitSeg (s.sbuf (slot (s.sndUna + ofNat i)))) 1 = s.sndUna + ofNat i ∧
      (s.emitSeg (s.sbuf (slot (s.sndUna + ofNat i)))).getD 0 0 &&& (fData ||| fFin) ≠ 0 ∧
        (s.emitSeg (s.sbuf (slot (s.sndUna + ofNat i)))).length ≤ streamSegMax := by
  obtain ⟨n, it, hit, hq, hheld⟩ := h.of_inflight hi
  have hshort := h.short it (mem_of_getElem? hit)
  simp only [Holds, Seg.core, Prod.mk.injEq] at hheld
  rw [emitSeg_seq, emitSeg_flags, length_emitSeg, hheld.1, hheld.2.1, hheld.2.2, hq]
  exact ⟨rfl, item_flags_ne it, Nat.add_le_add_left hshort _⟩

theorem Sent.timeout_resends_iff (hne : s.sndUna ≠ s.sndNxt) (now : UInt32) :
    s.Resends s.sndUna (s.timeout now).2 ↔ (s.sbuf (slot s.sndUna)).sacked = false := by
  have huna : s.backOff.sndUna = s.sndUna := side_eq sndUna s.modControl_backOff fun _ => rfl
  have hnxt : s.backOff.sndNxt = s.sndNxt := side_eq sndNxt s.modControl_backOff fun _ => rfl
  have hback : Sent s.backOff items := h.backOff
  constructor
  · rintro ⟨d, hd, _, hseq, _⟩
    rw [timeout_out] at hd
    obtain ⟨i, hi, _, hsacked, rfl⟩ := (mem_retransmitLoop now s.sndNxt).mp hd
    obtain ⟨n, it, _, hq, hheld⟩ := hback.of_inflight hi
    simp only [Holds, Seg.core, Prod.mk.injEq] at hheld
    rw [emitSeg_seq, hheld.1, ← hq, huna] at hseq
    have hwin := hback.window
    unfold streamWinMax at hwin
    obtain rfl := add_ofNat_eq_self (by omega) hseq
    simpa [huna, backOff_sbuf] using hsacked
  · intro hsacked
    have hmem := hback.una_mem_retransmitRange (by rwa [huna, hnxt])
      (by rwa [huna, backOff_sbuf]) now
    obtain ⟨hseq, hflags, _⟩ := hback.emit_entry (inflight_pos (by rwa [huna, hnxt]))
    rw [add_ofNat_zero] at hseq hflags
    rw [hnxt] at hmem
    refine ⟨_, by rw [timeout_out]; exact hmem, hflags, hseq.trans huna, ?_⟩
    rw [emitSeg_data, huna, backOff_sbuf]

theorem Sent.tick_resends_iff (hne : s.sndUna ≠ s.sndNxt) (hdue : s.Due now) :
    s.Resends s.sndUna (s.streamTick now).2 ↔ (s.sbuf (slot s.sndUna)).sacked = false := by
  obtain ⟨⟨huna, hle, hheld⟩, hnew⟩ := s.pumpSend_held now
  have hpos := inflight_pos hne
  have hslot := hheld 0 hpos
  rw [add_ofNat_zero] at hslot
  have hdl := pumpSend_rtoDeadline hdue.1 now
  obtain ⟨more, hcuts, _⟩ := h.pumpSend now
  have htick := s.streamTick_cases now
  generalize s.pumpSend now = out at *
  have hne' : out.1.sndUna ≠ out.1.sndNxt := by
    intro heq
    have : out.1.inflight = 0 := by simp [inflight, heq]
    omega
  have hdue' : out.1.Due now := ⟨hdl ▸ hdue.1, hdl ▸ hdue.2⟩
  obtain ⟨_, _, htick⟩ := htick.resolve_right fun hno => hno.1 ⟨hdue', hne'⟩
  have htime := hcuts.sent.timeout_resends_iff hne' now
  rw [huna, hslot] at htime
  rw [htick, ← htime]
  constructor
  · rintro ⟨d, hd, hflags, hseq, hdata⟩
    rcases mem_append.mp hd with hd | hd
    · obtain ⟨i, hi, hlt, hq⟩ := hnew d hd
      rw [hseq] at hq
      unfold streamWinMax at hlt
      have := add_ofNat_eq_self (by omega) hq.symm
      omega
    · exact ⟨d, hd, hflags, hseq, by rw [hslot]; exact hdata⟩
  · rintro ⟨d, hd, hflags, hseq, hdata⟩
    exact ⟨d, mem_append_right _ hd, hflags, hseq, by rw [← hslot]; exact hdata⟩

end
end Stream
end Norn
