import Norn.Stream.Exchange

/-!
# The representation of a stream

The fields are kept by different parts of the code, so each part has an invariant of its own.
-/

namespace Norn
open UInt32 Function
namespace Stream

/-- The window is bounded and its segments are in place. -/
structure Sending (s : Stream) : Prop where
  window : s.inflight ≤ streamWinMax
  held : ∀ i < s.inflight, (s.sbuf (slot (s.sndUna + ofNat i))).present = true ∧
    (s.sbuf (slot (s.sndUna + ofNat i))).seq = s.sndUna + ofNat i

def tableSide (s : Stream) : UInt32 × UInt32 × (ℕ → Bool × UInt32) :=
  (s.sndUna, s.sndNxt, fun j => ((s.sbuf j).present, (s.sbuf j).seq))

namespace Sending
variable {s s' : Stream} (h : s.Sending)
include h

theorem congr (hside : s'.tableSide = s.tableSide) : s'.Sending := by
  simp only [tableSide, Prod.mk.injEq] at hside
  obtain ⟨huna, hnxt, htable⟩ := hside
  have hfl : s'.inflight = s.inflight := by rw [inflight, inflight, huna, hnxt]
  refine ⟨hfl ▸ h.window, fun i hi => ?_⟩
  have hentry := Prod.mk.inj (congrFun htable (slot (s.sndUna + ofNat i)))
  rw [huna, hentry.1, hentry.2]
  exact h.held i (hfl ▸ hi)

theorem round {now : UInt32} {d : Bytes} (hr : Round now s s' d)
    (hfl : s.inflight < streamWinMax) : s'.Sending := by
  have hin := hr.inflight hfl
  refine ⟨by omega, fun i hi => ?_⟩
  rw [hr.sndUna]
  rcases Nat.lt_or_ge i s.inflight with hlt | hge
  · have hne : slot (s.sndUna + ofNat i) ≠ slot s.sndNxt := by
      rw [s.sndNxt_eq]
      exact slot_add_ne _ hlt hfl
    rw [hr.sbuf_of_ne hne]
    exact h.held i hlt
  · obtain rfl : i = s.inflight := by omega
    rw [← s.sndNxt_eq]
    obtain ⟨_, _, _, _, rfl, _⟩ := hr.spec
    simp only [enqueue, update_self, and_self]

theorem pumpSend (now : UInt32) : (s.pumpSend now).1.Sending :=
  (pumpLoop_induct (Q := fun _ => True)
    (fun _ _ _ ht hfl hr => ⟨ht.round hr (hfl.trans_le s.sendWindow_le), trivial⟩) h _).1

theorem newAck {ack : UInt32} (hpos : 0 < signed (ack - s.sndUna))
    (hle : signed (ack - s.sndNxt) ≤ 0) (now : UInt32) : (s.newAck ack now).Sending := by
  have hwin := h.window
  have hsplit := inflight_split hwin hpos hle now
  refine ⟨by omega, fun i hi => ?_⟩
  rw [newAck_number, newAck_sbuf]
  exact h.held _ (by omega)

theorem sackRead (seg : Bytes) : (s.sackRead seg).Sending :=
  h.congr (side_eq tableSide (s.modRead_sackRead seg) fun _ => rfl)

theorem onAck (ack now : UInt32) : (s.onAck ack now).1.Sending := by
  unfold Stream.onAck
  split_ifs with hadv hdup
  · exact h.newAck hadv.1 hadv.2 now
  · exact h.congr (side_eq tableSide (s.modResend_dupAck now) fun _ => rfl)
  · exact h

theorem timeout (now : UInt32) : (s.timeout now).1.Sending :=
  h.congr (side_eq tableSide (s.modResend_timeout now) fun _ => rfl)

end Sending

/-- Held segments are in place, within the window. -/
def Reassembly (s : Stream) : Prop := ∀ j, (s.rbuf j).present = true →
  slot (s.rbuf j).seq = j ∧ ((s.rbuf j).seq - s.rcvNxt).toNat < streamWinMax

namespace Reassembly
variable {s s' : Stream} (h : s.Reassembly)
include h

theorem congr (hside : s'.recvSide = s.recvSide) : s'.Reassembly := by
  simp only [recvSide, Prod.mk.injEq] at hside
  intro j hj
  rw [hside.1] at hj ⊢
  rw [hside.2.1]
  exact h j hj

theorem buffer (flags : UInt8) (seq : UInt32) (data : Bytes) :
    (s.buffer flags seq data).Reassembly := by
  rcases s.buffer_cases flags seq data with heq | ⟨seg, _, hwin, hcore, heq⟩
  · rwa [heq]
  · rw [heq]
    intro j hj
    simp only [update_apply] at hj ⊢
    split_ifs at hj ⊢ with hslot
    · have hseq : seg.seq = seq := congrArg Prod.fst hcore
      rw [hseq]
      exact ⟨hslot.symm, hwin⟩
    · exact h j hj

theorem deliverOne : s.deliverOne.Reassembly := by
  intro j hj
  change (Function.update s.rbuf (slot s.rcvNxt) _ j).present = true at hj
  change slot (Function.update s.rbuf (slot s.rcvNxt) _ j).seq = j ∧
    ((Function.update s.rbuf (slot s.rcvNxt) _ j).seq - (s.rcvNxt + 1)).toNat < _
  rcases eq_or_ne j (slot s.rcvNxt) with rfl | hne
  · rw [Function.update_self] at hj
    exact absurd hj Bool.false_ne_true
  · rw [Function.update_of_ne hne] at hj ⊢
    obtain ⟨hslot, hwin⟩ := h j hj
    refine ⟨hslot, ?_⟩
    have hother : (s.rbuf j).seq ≠ s.rcvNxt := fun heq => hne (by rw [← heq, hslot])
    have hpos : (s.rbuf j).seq.toNat ≠ s.rcvNxt.toNat := fun heq =>
      hother (UInt32.toNat_inj.mp heq)
    have := (s.rbuf j).seq.toNat_lt
    have := s.rcvNxt.toNat_lt
    simp only [UInt32.toNat_sub, UInt32.toNat_add, UInt32.toNat_one, streamWinMax] at hwin ⊢
    omega

theorem streamInput (seg : Bytes) (now : UInt32) : (s.streamInput seg now).1.Reassembly := by
  have hack := h.congr (s.recvSide_takeAck seg now)
  unfold Stream.streamInput
  split_ifs
  · exact h
  · exact hack
  · exact deliverLoop_induct (P := Reassembly) (fun _ ht _ => ht.deliverOne)
      (hack.buffer _ _ _) _

end Reassembly

structure Ranges (s : Stream) : Prop where
  cwnd_min : 2 ≤ s.cwnd
  cwnd_max : s.cwnd ≤ streamWinMax
  ssthresh_min : streamSsthreshMin ≤ s.ssthresh
  rto_min : streamRtoMin ≤ s.rto
  rto_max : s.rto ≤ streamRtoMax

def rangeSide (s : Stream) : ℕ × ℕ × UInt32 := (s.cwnd, s.ssthresh, s.rto)

theorem Round.rangeSide {now : UInt32} {s s' : Stream} {d : Bytes} (h : Round now s s' d) :
    s'.rangeSide = s.rangeSide := by
  obtain ⟨_, _, _, _, rfl, _⟩ := h.spec
  rfl

namespace Ranges
variable {s s' : Stream} (h : s.Ranges)
include h

theorem congr (hside : s'.rangeSide = s.rangeSide) : s'.Ranges := by
  simp only [rangeSide, Prod.mk.injEq] at hside
  obtain ⟨hcwnd, hssthresh, hrto⟩ := hside
  exact ⟨hcwnd ▸ h.cwnd_min, hcwnd ▸ h.cwnd_max, hssthresh ▸ h.ssthresh_min, hrto ▸ h.rto_min,
    hrto ▸ h.rto_max⟩

theorem pumpSend (now : UInt32) : (s.pumpSend now).1.Ranges :=
  (pumpLoop_induct (Q := fun _ => True)
    (fun _ _ _ ht _ hr => ⟨ht.congr hr.rangeSide, trivial⟩) h _).1

theorem sampleRtt (ack now : UInt32) : (s.sampleRtt ack now).Ranges := by
  unfold Stream.sampleRtt
  split_ifs
  · obtain ⟨hmin, hmax⟩ := s.rttUpdate_rto (now - (s.sbuf (slot (ack - 1))).sentAt)
    exact ⟨h.cwnd_min, h.cwnd_max, h.ssthresh_min, hmin, hmax⟩
  · exact h

theorem ccOnAck (acked : ℕ) : (s.ccOnAck acked).Ranges := by
  have hmin := h.cwnd_min
  unfold Stream.ccOnAck
  split_ifs
  · exact h
  · refine ⟨le_min (by omega) (by decide), min_le_right _ _, h.ssthresh_min, h.rto_min, h.rto_max⟩
  · have hgrow := le_ccGrow (s.cwndCnt + acked) (s.cwndCnt + acked) s.cwnd
    exact ⟨le_min (hmin.trans hgrow) (by decide), min_le_right _ _, h.ssthresh_min, h.rto_min,
      h.rto_max⟩

theorem ccOnLoss (isRto : Bool) : (s.ccOnLoss isRto).Ranges := by
  have hmax := h.cwnd_max
  have hhalf : s.cwnd / 2 ≤ streamWinMax := (Nat.div_le_self _ _).trans hmax
  have hthresh : 2 ≤ max (s.cwnd / 2) streamSsthreshMin := le_max_right _ _
  refine ⟨?_, ?_, hthresh, h.rto_min, h.rto_max⟩
  · cases isRto
    · exact hthresh
    · exact (by decide : 2 ≤ streamIw)
  · cases isRto
    · exact max_le hhalf (by decide)
    · exact (by decide : streamIw ≤ streamWinMax)

theorem onAck (ack now : UInt32) : (s.onAck ack now).1.Ranges := by
  unfold Stream.onAck
  split_ifs
  · exact ((h.sampleRtt ack now).ccOnAck (ack - s.sndUna).toNat).congr rfl
  · unfold dupAck
    split_ifs
    · exact h.congr rfl
    · have hloss : ({ s with dupacks := s.dupacks + 1 }.ccOnLoss false).Ranges :=
        Ranges.ccOnLoss (s := { s with dupacks := s.dupacks + 1 }) (h.congr rfl) false
      exact hloss.congr (side_eq rangeSide (modRetx_retransmitLoop now _ _ _ _) fun _ => rfl :)
    · exact h.congr rfl
  · exact h

theorem streamInput (seg : Bytes) (now : UInt32) : (s.streamInput seg now).1.Ranges := by
  have hack : (s.takeAck seg now).1.Ranges :=
    (h.congr (side_eq rangeSide (s.modRead_sackRead seg) fun _ => rfl)).onAck _ _
  unfold Stream.streamInput
  split_ifs
  · exact h
  · exact hack
  · exact hack.congr (side_eq rangeSide (modRecv_accept _ _ _ _) fun _ => rfl :)

theorem backOff : s.backOff.Ranges := by
  obtain ⟨hmin, hmax⟩ := backOff_rto h.rto_max h.rto_min
  by_cases hwin : s.peerRwnd = 0
  · rw [Stream.backOff, if_pos hwin]
    exact h
  · rw [Stream.backOff, if_neg hwin] at hmin hmax ⊢
    have hdoubled : Ranges { s with
        rto := if s.rto < streamRtoMax / 2 then s.rto * 2 else streamRtoMax } :=
      ⟨h.cwnd_min, h.cwnd_max, h.ssthresh_min, hmin, hmax⟩
    exact hdoubled.ccOnLoss true

theorem timeout (now : UInt32) : (s.timeout now).1.Ranges :=
  h.backOff.congr (side_eq rangeSide (modRetx_retransmitLoop now _ _ _ _) fun _ => rfl :)

end Ranges

structure Kept (s : Stream) : Prop where
  sending : s.Sending
  reassembly : s.Reassembly
  ranges : s.Ranges

theorem kept_streamNew : Kept streamNew where
  sending := ⟨by decide, fun i hi => absurd hi (Nat.not_lt_zero i)⟩
  reassembly _ hj := absurd hj Bool.false_ne_true
  ranges := ⟨by decide, by decide, by decide, by decide, by decide⟩

namespace Kept
variable {s : Stream} (h : s.Kept)
include h

theorem pumpSend (now : UInt32) : (s.pumpSend now).1.Kept :=
  ⟨h.sending.pumpSend now, h.reassembly.congr (recvSide_pumpLoop _ now _ s),
    h.ranges.pumpSend now⟩

theorem streamInput (seg : Bytes) (now : UInt32) : (s.streamInput seg now).1.Kept := by
  refine ⟨?_, h.reassembly.streamInput seg now, h.ranges.streamInput seg now⟩
  have hack : (s.takeAck seg now).1.Sending := (h.sending.sackRead seg).onAck _ now
  unfold Stream.streamInput
  split_ifs
  · exact h.sending
  · exact hack
  · exact hack.congr (side_eq tableSide (modRecv_accept _ _ _ _) fun _ => rfl :)

theorem streamTick (now : UInt32) : (s.streamTick now).1.Kept := by
  have hpump := h.pumpSend now
  rcases s.streamTick_cases now with ⟨_, _, heq⟩ | ⟨_, heq⟩
  · rw [heq]
    exact ⟨hpump.sending.timeout now, hpump.reassembly.congr (recvSide_timeout _ now),
      hpump.ranges.timeout now⟩
  · rw [heq]
    exact hpump

theorem apply (op : StreamOp) : (Stream.apply s op).1.Kept := by
  cases op with
  | write data now =>
    have hpend : Kept { s with pend := s.pend.append data } :=
      ⟨⟨h.sending.window, h.sending.held⟩, h.reassembly, h.ranges.congr rfl⟩
    exact hpend.pumpSend now
  | read cap =>
    exact ⟨⟨h.sending.window, h.sending.held⟩, h.reassembly, h.ranges.congr rfl⟩
  | finish now =>
    have hfin : Kept { s with finQueued := true } :=
      ⟨⟨h.sending.window, h.sending.held⟩, h.reassembly, h.ranges.congr rfl⟩
    exact hfin.pumpSend now
  | input seg now => exact h.streamInput seg now
  | tick now => exact h.streamTick now

end Kept

theorem kept_after (ops : List StreamOp) : (after ops).Kept :=
  Transducer.exec_invariant (fun _ op hs => hs.apply op) kept_streamNew ops

structure Represented (s : Stream) : Prop where
  window : (s.sndNxt - s.sndUna).toNat ≤ 256
  outstanding : ∀ q : UInt32, (q - s.sndUna).toNat < (s.sndNxt - s.sndUna).toNat →
    (s.sbuf (q.toNat % 256)).present = true ∧ (s.sbuf (q.toNat % 256)).seq = q
  received : ∀ j < 256, (s.rbuf j).present = true →
    (s.rbuf j).seq.toNat % 256 = j ∧ ((s.rbuf j).seq - s.rcvNxt).toNat < 256
  cwnd : 2 ≤ s.cwnd ∧ s.cwnd ≤ 256
  ssthresh : 2 ≤ s.ssthresh
  rto : 50 ≤ s.rto.toNat ∧ s.rto.toNat ≤ 60000
  pend : s.pend.count ≤ pendCap
  deliv : s.deliv.count ≤ delivCap

theorem Kept.represented {s : Stream} (h : s.Kept) : s.Represented where
  window := h.sending.window
  outstanding q hq := by
    have hnumber : s.sndUna + UInt32.ofNat (q - s.sndUna).toNat = q := by
      rw [UInt32.ofNat_toNat, add_sub_cancel]
    have hheld := h.sending.held _ hq
    rwa [hnumber] at hheld
  received j _ hj := h.reassembly j hj
  cwnd := ⟨h.ranges.cwnd_min, h.ranges.cwnd_max⟩
  ssthresh := h.ranges.ssthresh_min
  rto := ⟨h.ranges.rto_min, h.ranges.rto_max⟩
  pend := s.pend.count_le
  deliv := s.deliv.count_le

/-- Whatever is called and whatever arrives, the fields stay in order. -/
theorem after_represented (ops : List StreamOp) : (after ops).Represented :=
  (kept_after ops).represented

end Stream
end Norn
