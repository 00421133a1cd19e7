import Norn.Stream.Representation

/-!
# The end of a stream

The delivery loop stops behind the FIN but is entered again by the next input.
-/

namespace Norn
open Function List
namespace Stream

def Finished (s : Stream) : Prop := s.streamPeerFinished = true

variable {s : Stream}

theorem finished_iff : s.Finished ↔ s.peerFin = true ∧ s.deliv.count = 0 := by
  simp [Finished, streamPeerFinished]

theorem Finished.congr {s' : Stream} (h : s'.recvSide = s.recvSide) : s'.Finished ↔ s.Finished := by
  simp only [recvSide, Prod.mk.injEq] at h
  rw [finished_iff, finished_iff, h.2.2.1, h.2.2.2]

/-- The input of the segment delivers further bytes. -/
def Trails (s : Stream) (seg : Bytes) : Prop :=
  streamHeader ≤ seg.length ∧ seg.getD 0 0 &&& (fData ||| fFin) ≠ 0 ∧
    if (s.rbuf (slot s.rcvNxt)).present = true then (s.rbuf (slot s.rcvNxt)).data ≠ []
    else get32 seg 1 = s.rcvNxt ∧ seg.drop streamHeader ≠ []

/-- The call, at a finished stream, brings no segment with bytes under the next number. -/
def EndsQuietly (s : Stream) : StreamOp → Prop
  | .input seg _ => s.Finished → ¬ s.Trails seg
  | _ => True

def Short (s : Stream) : Prop := ∀ j, (s.rbuf j).data.length ≤ streamSegPayload

namespace Short
variable {s s' : Stream} (h : s.Short)
include h

theorem congr (hside : s'.recvSide = s.recvSide) : s'.Short := by
  simp only [recvSide, Prod.mk.injEq] at hside
  intro j
  rw [hside.1]
  exact h j

theorem buffer (flags : UInt8) (seq : UInt32) (data : Bytes) : (s.buffer flags seq data).Short := by
  rcases s.buffer_cases flags seq data with heq | ⟨seg, _, _, hcore, heq⟩
  · rwa [heq]
  · rw [heq]
    intro j
    simp only [update_apply]
    split_ifs
    · have hdata : seg.data = data.take streamSegPayload := congrArg (·.2.2) hcore
      rw [hdata, length_take]
      exact min_le_left _ _
    · exact h j

theorem deliverOne : s.deliverOne.Short := by
  intro j
  change (update s.rbuf (slot s.rcvNxt) _ j).data.length ≤ _
  rw [update_apply]
  split_ifs
  · exact h _
  · exact h j

theorem apply (op : StreamOp) : (Stream.apply s op).1.Short := by
  cases op with
  | write data now =>
    exact h.congr (recvSide_pumpLoop _ now _ { s with pend := s.pend.append data })
  | read cap => exact h
  | finish now => exact h.congr (recvSide_pumpLoop _ now _ { s with finQueued := true })
  | input seg now =>
    have hack := h.congr (s.recvSide_takeAck seg now)
    change (s.streamInput seg now).1.Short
    unfold streamInput
    split_ifs
    · exact h
    · exact hack
    · exact deliverLoop_induct (P := Short) (fun _ ht _ => ht.deliverOne) (hack.buffer _ _ _) _
  | tick now => exact h.congr (s.recvSide_streamTick now)

end Short

theorem slot_ne_of_window {p q : UInt32} (hne : q ≠ p) (hwin : (q - p).toNat < streamWinMax) :
    slot p ≠ slot q := by
  have hnat : q.toNat ≠ p.toNat := fun h => hne (UInt32.toNat_inj.mp h)
  have := q.toNat_lt
  have := p.toNat_lt
  simp only [slot, UInt32.toNat_sub, streamWinMax] at hwin ⊢
  omega

theorem buffer_next (s : Stream) (flags : UInt8) (seq : UInt32) (data : Bytes) :
    (s.buffer flags seq data).rbuf (slot s.rcvNxt) =
      if (s.rbuf (slot s.rcvNxt)).present = false ∧ seq = s.rcvNxt then
        { s.rbuf (slot s.rcvNxt) with
          present := true, seq := seq, flags := flags, data := data.take streamSegPayload }
      else s.rbuf (slot s.rcvNxt) := by
  by_cases hseq : seq = s.rcvNxt
  · subst hseq
    have hwin : 0 ≤ signed (s.rcvNxt - s.rcvNxt) ∧
        signed (s.rcvNxt - s.rcvNxt) < streamWinMax := by
      rw [sub_self]
      decide
    rw [buffer, if_pos hwin]
    cases hpresent : (s.rbuf (slot s.rcvNxt)).present with
    | true | false => simp [hpresent]
  · rw [if_neg fun h => hseq h.2]
    rcases s.buffer_cases flags seq data with heq | ⟨seg, _, hwin, _, heq⟩
    · rw [heq]
    · rw [heq]
      exact update_of_ne (slot_ne_of_window hseq hwin) _ _

theorem Reassembly.next_seq (h : s.Reassembly) (hpresent : (s.rbuf (slot s.rcvNxt)).present = true) :
    (s.rbuf (slot s.rcvNxt)).seq = s.rcvNxt := by
  obtain ⟨hslot, hwin⟩ := h _ hpresent
  by_contra hne
  exact slot_ne_of_window hne hwin hslot.symm

theorem rcvNxt_buffer (s : Stream) (flags : UInt8) (seq : UInt32) (data : Bytes) :
    (s.buffer flags seq data).rcvNxt = s.rcvNxt ∧ (s.buffer flags seq data).deliv = s.deliv ∧
      (s.buffer flags seq data).peerFin = s.peerFin := by
  rcases s.buffer_cases flags seq data with heq | ⟨_, _, _, _, heq⟩ <;> rw [heq] <;>
    exact ⟨rfl, rfl, rfl⟩

theorem finished_deliver (h : s.Finished) :
    s.deliver.Finished ↔ ¬ (s.Deliverable ∧ (s.rbuf (slot s.rcvNxt)).data ≠ []) := by
  obtain ⟨hfin, hcount⟩ := finished_iff.mp h
  by_cases hd : s.Deliverable
  · have hone : s.deliver = s.deliverOne := by
      have hstop : s.deliverOne.peerFin = true := by simp [deliverOne, hfin]
      rw [deliver, show streamWinMax = 255 + 1 from rfl, deliverLoop, if_pos hd, if_pos hstop]
    have hbytes : s.deliverOne.deliv.count = (s.rbuf (slot s.rcvNxt)).data.length := by
      refine (s.deliv.count_append_of_le hd.2.2).trans ?_
      rw [hcount, Nat.zero_add]
    rw [hone, finished_iff, hbytes, length_eq_zero_iff]
    simp [hd, deliverOne, hfin]
  · have hnone : s.deliver = s := by
      rw [deliver, show streamWinMax = 255 + 1 from rfl, deliverLoop, if_neg hd]
    rw [hnone]
    simp [h, hd]

theorem deliverable_buffer (h : s.Reassembly) (hshort : s.Short) (hfin : s.Finished) (flags : UInt8)
    (seq : UInt32) (data : Bytes) :
    ((s.buffer flags seq data).Deliverable ∧ ((s.buffer flags seq data).rbuf
        (slot (s.buffer flags seq data).rcvNxt)).data ≠ []) ↔
      if (s.rbuf (slot s.rcvNxt)).present = true then (s.rbuf (slot s.rcvNxt)).data ≠ []
      else seq = s.rcvNxt ∧ data ≠ [] := by
  obtain ⟨hnxt, hdeliv, _⟩ := s.rcvNxt_buffer flags seq data
  have hroom : streamSegPayload ≤ s.deliv.space := by
    rw [Ring.space, (finished_iff.mp hfin).2]
    decide
  unfold Deliverable
  rw [hnxt, hdeliv, buffer_next]
  cases hpresent : (s.rbuf (slot s.rcvNxt)).present with
  | true =>
    simp only [Bool.true_eq_false, false_and, if_false, if_true, hpresent, true_and,
      and_iff_right_iff_imp]
    exact fun _ => ⟨h.next_seq hpresent, (hshort _).trans hroom⟩
  | false =>
    by_cases hseq : seq = s.rcvNxt
    · have hsome : data.take streamSegPayload ≠ [] ↔ data ≠ [] := by simp [streamSegPayload]
      have hlen : (data.take streamSegPayload).length ≤ s.deliv.space :=
        (length_take_le _ _).trans hroom
      simp only [hseq, and_self, if_true, hsome, hlen, Bool.false_eq_true, if_false, true_and]
    · simp [hseq, hpresent]

theorem finished_streamInput (h : s.Reassembly) (hshort : s.Short) (hfin : s.Finished) (seg : Bytes)
    (now : UInt32) : (s.streamInput seg now).1.Finished ↔ ¬ s.Trails seg := by
  have hside := s.recvSide_takeAck seg now
  have hfin₁ : (s.takeAck seg now).1.Finished := (Finished.congr hside).mpr hfin
  by_cases hhead : seg.length < streamHeader
  · rw [streamInput, if_pos hhead]
    exact iff_of_true hfin fun htrails => absurd htrails.1 (not_le.mpr hhead)
  rw [streamInput, if_neg hhead]
  dsimp only
  by_cases hflags : seg.getD 0 0 &&& (fData ||| fFin) = 0
  · rw [if_pos hflags]
    exact iff_of_true hfin₁ fun htrails => htrails.2.1 hflags
  · rw [if_neg hflags]
    have hbuf : ((s.takeAck seg now).1.buffer (seg.getD 0 0) (get32 seg 1)
        (seg.drop streamHeader)).Finished := by
      obtain ⟨_, hdeliv, hpeer⟩ := (s.takeAck seg now).1.rcvNxt_buffer (seg.getD 0 0)
        (get32 seg 1) (seg.drop streamHeader)
      rw [finished_iff, hdeliv, hpeer]
      exact finished_iff.mp hfin₁
    rw [finished_deliver hbuf, deliverable_buffer (h.congr hside) (hshort.congr hside) hfin₁]
    simp only [recvSide, Prod.mk.injEq] at hside
    rw [hside.1, hside.2.1]
    exact not_congr ⟨fun hnext => ⟨not_lt.mp hhead, hflags, hnext⟩, fun htrails => htrails.2.2⟩

theorem finished_apply (h : s.Reassembly) (hshort : s.Short) (op : StreamOp) :
    (s.Finished → (Stream.apply s op).1.Finished) ↔ s.EndsQuietly op := by
  cases op with
  | write data now =>
    refine iff_of_true (fun hfin => ?_) trivial
    exact (Finished.congr (recvSide_pumpLoop _ now _ { s with pend := s.pend.append data })).mpr hfin
  | read cap =>
    refine iff_of_true (fun hfin => ?_) trivial
    obtain ⟨hpeer, hcount⟩ := finished_iff.mp hfin
    refine finished_iff.mpr ⟨hpeer, ?_⟩
    change s.deliv.count - _ = 0
    rw [hcount, Nat.zero_sub]
  | finish now =>
    refine iff_of_true (fun hfin => ?_) trivial
    exact (Finished.congr (recvSide_pumpLoop _ now _ { s with finQueued := true })).mpr hfin
  | input seg now => exact forall_congr' fun hfin => finished_streamInput h hshort hfin seg now
  | tick now =>
    exact iff_of_true (fun hfin => (Finished.congr (s.recvSide_streamTick now)).mpr hfin) trivial

/-- A stream once finished stays so, with nothing more to read. -/
def EndIsFinal (ops : List StreamOp) : Prop :=
  ∀ early later, early ++ later <+: ops → (after early).streamPeerFinished = true →
    (after (early ++ later)).streamPeerFinished = true ∧
      (after (early ++ later)).streamReadable = 0

/-- The end is final exactly if no segment trails the FIN. -/
theorem endIsFinal_iff (ops : List StreamOp) :
    EndIsFinal ops ↔ Stream.apply.Along EndsQuietly streamNew ops := by
  have hkeeps : EndIsFinal ops ↔
      Stream.apply.Along (fun s op => s.Finished → (Stream.apply s op).1.Finished) streamNew ops := by
    rw [Transducer.along_keeps_iff]
    refine forall_congr' fun early => forall_congr' fun later => forall_congr' fun _ =>
      forall_congr' fun _ => and_iff_left_of_imp fun hfin => ?_
    exact (finished_iff.mp hfin).2
  rw [hkeeps]
  refine Transducer.along_iff (I := fun s => s.Kept ∧ s.Short) (fun hs => ?_) (fun hs _ => ?_)
    ⟨kept_streamNew, fun _ => Nat.zero_le _⟩ ops
  · exact finished_apply hs.1.reassembly hs.2 _
  · exact ⟨hs.1.apply _, hs.2.apply _⟩

/-- The FIN, and then one byte that is numbered after it. -/
def byteAfterFin : List StreamOp :=
  [.input [6, 0, 0, 0, 0, 0, 0, 0, 0, 1, 0] 0, .input [3, 0, 0, 0, 1, 0, 0, 0, 0, 1, 0, 120] 1]

theorem byteAfterFin_not_final : ¬ EndIsFinal byteAfterFin := by
  intro h
  have hlater := h (byteAfterFin.take 1) (byteAfterFin.drop 1) (prefix_refl _)
    (by decide +kernel)
  exact absurd hlater.2 (by decide +kernel)

end Stream
end Norn
