import Norn.Stream.Retransmit

/-!
# Single segments and acknowledgements

What one call does in the cases that make up an exchange.
-/

namespace Norn
open List
open UInt32 (ofNat toNat_sub)
open Function (update update_of_ne update_self)
namespace Stream
variable {s : Stream} {seg : Seg} {q ack : UInt32}

theorem nextSeg_eq_none (hpend : s.pend.count = 0) (hfin : s.finQueued = false) (now : UInt32) :
    s.nextSeg now = none := by
  rw [nextSeg, if_neg (by omega), if_neg (by simp [hfin])]

theorem contents_eq_nil {cap : ℕ} {r : Ring UInt8 cap} (h : r.count = 0) : r.contents = [] := by
  rw [← length_eq_zero_iff, Ring.length_contents, h]

theorem pumpSend_one {s₁ : Stream} {now : UInt32} (hnext : s.nextSeg now = some (seg, s₁))
    (hlast : (s₁.enqueue seg now).nextSeg now = none) (hwin : s.inflight < s.sendWindow) :
    s.pumpSend now = (s₁.enqueue seg now, [(s₁.enqueue seg now).emitSeg seg]) := by
  obtain ⟨w, hw⟩ := Nat.exists_eq_succ_of_ne_zero (Nat.ne_zero_of_lt hwin)
  rw [hw] at hwin
  rw [pumpSend, hw, pumpLoop_of_some hwin hnext, pumpLoop_of_none hlast]

def dataSeg (s : Stream) (data : Bytes) (now : UInt32) : Seg :=
  ⟨s.sndNxt, now, fData, true, false, false, data⟩

def sentOne (s : Stream) (p : Ring UInt8 pendCap) (data : Bytes) (now : UInt32) : Stream :=
  { s with pend := p }.enqueue (s.dataSeg data now) now

theorem streamWrite_one (hpend : s.pend.count = 0) (hfin : s.finQueued = false)
    (hwin : s.inflight < s.sendWindow) {data : Bytes} (hpos : 0 < data.length)
    (hlen : data.length ≤ streamSegPayload) (now : UInt32) :
    ∃ p : Ring UInt8 pendCap, p.count = 0 ∧ s.streamWrite data now =
      (data.length, s.sentOne p data now, [(s.sentOne p data now).emitSeg (s.dataSeg data now)]) := by
  have hspace : s.pend.space = pendCap := by rw [Ring.space, hpend, Nat.sub_zero]
  have hfit : data.length ≤ s.pend.space := by
    rw [hspace]
    unfold pendCap streamWinMax streamSegPayload at *
    omega
  have hcont : (s.pend.append data).contents = data := by
    rw [Ring.contents_append, contents_eq_nil hpend, take_of_length_le hfit, nil_append]
  have hcount : (s.pend.append data).count = data.length := by
    rw [← Ring.length_contents, hcont]
  have hpeek : (s.pend.append data).peek data.length = data := by
    rw [Ring.peek_eq_take _ hcount.ge, hcont, take_length]
  have hempty : ((s.pend.append data).remove data.length).count = 0 := by
    change (s.pend.append data).count - data.length = 0
    omega
  have hnext : { s with pend := s.pend.append data }.nextSeg now =
      some (s.dataSeg data now,
        { s with pend := (s.pend.append data).remove data.length }) := by
    unfold nextSeg dataSeg
    simp only [hcount, if_pos hpos, min_eq_left hlen, hpeek]
  refine ⟨(s.pend.append data).remove data.length, hempty, ?_⟩
  rw [streamWrite, min_eq_left hfit, pumpSend_one hnext _ hwin]
  · rfl
  apply nextSeg_eq_none
  · exact hempty
  · exact hfin

theorem buffer_of_absent {seq : UInt32} (hwin : (seq - s.rcvNxt).toNat < streamWinMax)
    (habsent : (s.rbuf (slot seq)).present = false) (flags : UInt8) (data : Bytes) :
    ∃ seg : Seg, seg.present = true ∧ seg.core = (seq, flags, data.take streamSegPayload) ∧
      s.buffer flags seq data = { s with rbuf := update s.rbuf (slot seq) seg } := by
  have hsigned : 0 ≤ signed (seq - s.rcvNxt) ∧ signed (seq - s.rcvNxt) < streamWinMax := by
    unfold streamWinMax at hwin ⊢
    rw [signed_eq, if_pos (by omega)]
    omega
  refine ⟨{ s.rbuf (slot seq) with
    present := true, seq := seq, flags := flags, data := data.take streamSegPayload }, rfl, rfl, ?_⟩
  rw [buffer, if_pos hsigned]
  exact if_neg (by simp [habsent])

theorem deliver_of_not (h : ¬ s.Deliverable) : s.deliver = s := if_neg h

theorem deliver_one (h : s.Deliverable) (hfin : s.deliverOne.peerFin = false)
    (hstop : ¬ s.deliverOne.Deliverable) : s.deliver = s.deliverOne := by
  have hloop : s.deliver = deliverLoop 255 s.deliverOne := by
    unfold deliver streamWinMax
    rw [deliverLoop, if_pos h, if_neg (by simp [hfin])]
  rw [hloop]
  exact if_neg hstop

theorem deliver_last (h : s.Deliverable) (hfin : s.peerFin = false)
    (hflags : (s.rbuf (slot s.rcvNxt)).flags &&& fFin = 0)
    (hstop : (s.rbuf (slot (s.rcvNxt + 1))).present = false ∨ s.deliv.space <
      (s.rbuf (slot s.rcvNxt)).data.length + (s.rbuf (slot (s.rcvNxt + 1))).data.length) :
    s.deliver = s.deliverOne := by
  have hnext : s.deliverOne.rbuf (slot s.deliverOne.rcvNxt) = s.rbuf (slot (s.rcvNxt + 1)) :=
    update_of_ne (slot_succ_ne s.rcvNxt) _ _
  have hspace : s.deliverOne.deliv.space =
      s.deliv.space - (s.rbuf (slot s.rcvNxt)).data.length := by
    have hcount := s.deliv.count_append_of_le h.2.2
    change delivCap - (s.deliv.append _).count = _
    rw [hcount, Ring.space]
    omega
  apply deliver_one h
  · change (s.peerFin || _) = false
    rw [hfin, hflags]
    rfl
  · rintro ⟨hpresent, _, hroom⟩
    rw [hnext] at hpresent hroom
    rw [hspace] at hroom
    rcases hstop with hstop | hstop
    · rw [hstop] at hpresent
      cases hpresent
    · have := h.2.2
      omega

theorem streamInput_of_idle {d : Bytes} (hidle : s.sndUna = s.sndNxt) (hack : get32 d 5 = s.sndUna)
    (hlen : streamHeader ≤ d.length) (hsack : d.getD 0 0 &&& fSack = 0)
    (hflags : d.getD 0 0 &&& (fData ||| fFin) ≠ 0) (now : UInt32) :
    let t := ({ s with peerRwnd := get16 d 9 }.buffer (d.getD 0 0) (get32 d 1)
      (d.drop streamHeader)).deliver
    s.streamInput d now = (t, [t.emitAck]) := by
  have hzero : signed (s.sndUna - s.sndUna) = 0 := by simp [signed_eq]
  have hread : s.takeAck d now = ({ s with peerRwnd := get16 d 9 }, []) := by
    rw [takeAck_eq, sackRead, if_neg fun hs => hs.1 hsack, hack, onAck]
    change (if 0 < signed (s.sndUna - s.sndUna) ∧ _ then _
      else if s.sndUna = s.sndUna ∧ s.sndUna ≠ s.sndNxt then _ else _) = _
    rw [if_neg (by rw [hzero]; simp), if_neg (by simp [hidle])]
  unfold streamInput
  rw [if_neg (by omega), if_neg hflags, hread]
  rfl

structure Carrier (d : Bytes) (seq ack : UInt32) (data : Bytes) : Prop where
  length : streamHeader ≤ d.length
  flags : d.getD 0 0 = fData ||| fAck
  seq : get32 d 1 = seq
  ack : get32 d 5 = ack
  data : d.drop streamHeader = data

theorem carrier_emitSeg (s : Stream) (h : seg.flags = fData) :
    Carrier (s.emitSeg seg) seg.seq s.rcvNxt seg.data where
  length := by
    rw [length_emitSeg]
    omega
  flags := by rw [emitSeg_flags, h]
  seq := emitSeg_seq s seg
  ack := emitSeg_ack s seg
  data := emitSeg_data s seg

section
variable {s : Stream} {d data : Bytes} {seq : UInt32} (h : Carrier d seq s.sndUna data)
include h

theorem Carrier.streamInput (hidle : s.sndUna = s.sndNxt) (now : UInt32) :
    let t := ({ s with peerRwnd := get16 d 9 }.buffer (fData ||| fAck) seq data).deliver
    s.streamInput d now = (t, [t.emitAck]) := by
  have hinput := streamInput_of_idle hidle h.ack h.length (by rw [h.flags]; decide)
    (by rw [h.flags]; decide) now
  rw [h.flags, h.seq, h.data] at hinput
  exact hinput

theorem Carrier.delivered (hidle : s.sndUna = s.sndNxt) (hseq : seq = s.rcvNxt)
    (habsent : (s.rbuf (slot s.rcvNxt)).present = false) (hfin : s.peerFin = false)
    (hshort : data.length ≤ streamSegPayload) (hroom : data.length ≤ s.deliv.space)
    (hstop : (s.rbuf (slot (s.rcvNxt + 1))).present = false ∨
      s.deliv.space < data.length + (s.rbuf (slot (s.rcvNxt + 1))).data.length) (now : UInt32) :
    ∃ t, s.streamInput d now = (t, [t.emitAck]) ∧ t.rcvNxt = s.rcvNxt + 1 ∧
      t.deliv.count = s.deliv.count + data.length ∧ t.peerFin = false ∧
      t.sndUna = s.sndUna ∧ t.sndNxt = s.sndNxt ∧ (t.rbuf (slot s.rcvNxt)).present = false ∧
      ∀ j ≠ slot s.rcvNxt, t.rbuf j = s.rbuf j := by
  subst hseq
  have hzero : (s.rcvNxt - s.rcvNxt).toNat < streamWinMax := by simp [streamWinMax]
  obtain ⟨seg, hpresent, hcore, hbuf⟩ :=
    buffer_of_absent (s := { s with peerRwnd := get16 d 9 }) hzero habsent (fData ||| fAck) data
  simp only [Seg.core, Prod.mk.injEq, take_of_length_le hshort] at hcore
  obtain ⟨hsegseq, hflags, hdata⟩ := hcore
  have hinput := h.streamInput hidle now
  rw [hbuf] at hinput
  generalize hu : { s with
    peerRwnd := get16 d 9, rbuf := update s.rbuf (slot s.rcvNxt) seg } = u at hinput
  have hself : u.rbuf (slot u.rcvNxt) = seg := by
    rw [← hu]
    exact update_self _ _ _
  have hother : ∀ j ≠ slot s.rcvNxt, u.rbuf j = s.rbuf j := fun j hj => by
    rw [← hu]
    exact update_of_ne hj _ _
  have hnxt : u.rcvNxt = s.rcvNxt := by rw [← hu]
  have hdeliv : u.deliv = s.deliv := by rw [← hu]
  have hlast : u.deliver = u.deliverOne := by
    apply deliver_last
    · refine ⟨by rw [hself, hpresent], by rw [hself, hsegseq, hnxt], ?_⟩
      rw [hself, hdata, hdeliv]
      exact hroom
    · rw [← hu]
      exact hfin
    · rw [hself, hflags]
      decide
    · rw [hself, hnxt, hother _ (slot_succ_ne _), hdata, hdeliv]
      exact hstop
  refine ⟨u.deliverOne, hlast ▸ hinput, by rw [← hnxt]; rfl, ?_, ?_, by rw [← hu]; rfl,
    by rw [← hu]; rfl, ?_, fun j hj => ?_⟩
  · change (u.deliv.append (u.rbuf (slot u.rcvNxt)).data).count = _
    rw [hself, hdata, hdeliv, Ring.count_append_of_le _ hroom]
  · change (u.peerFin || ((u.rbuf (slot u.rcvNxt)).flags &&& fFin) != 0) = false
    rw [hself, hflags, ← hu]
    change (s.peerFin || _) = false
    rw [hfin]
    decide
  · change (update u.rbuf (slot u.rcvNxt) _ (slot s.rcvNxt)).present = false
    rw [hnxt, update_self]
  · change update u.rbuf (slot u.rcvNxt) _ j = _
    rw [hnxt, update_of_ne hj, hother j hj]

theorem Carrier.kept (hidle : s.sndUna = s.sndNxt)
    (hwin : (seq - s.rcvNxt).toNat < streamWinMax)
    (habsent : (s.rbuf (slot seq)).present = false)
    (hnext : (s.rbuf (slot s.rcvNxt)).present = false) (hslot : slot s.rcvNxt ≠ slot seq)
    (hshort : data.length ≤ streamSegPayload) (now : UInt32) :
    ∃ t seg, s.streamInput d now = (t, [t.emitAck]) ∧ seg.present = true ∧
      seg.core = (seq, fData ||| fAck, data) ∧
      t = { s with peerRwnd := get16 d 9, rbuf := update s.rbuf (slot seq) seg } := by
  obtain ⟨seg, hpresent, hcore, hbuf⟩ :=
    buffer_of_absent (s := { s with peerRwnd := get16 d 9 }) hwin habsent (fData ||| fAck) data
  rw [take_of_length_le hshort] at hcore
  have hinput := h.streamInput hidle now
  rw [hbuf, deliver_of_not] at hinput
  · exact ⟨_, seg, hinput, hpresent, hcore, rfl⟩
  · rintro ⟨hheld, _⟩
    change (update s.rbuf (slot seq) seg (slot s.rcvNxt)).present = true at hheld
    rw [update_of_ne hslot, hnext] at hheld
    cases hheld

end

theorem emitAck_eq (s : Stream) : s.emitAck = ((if s.writeSack = [] then fAck else fAck ||| fSack) ::
    put32 s.sndNxt) ++ (put32 s.rcvNxt ++ (put16 s.localRwnd ++ s.writeSack)) := rfl

theorem emitAck_ack (s : Stream) : get32 s.emitAck 5 = s.rcvNxt := by
  rw [emitAck_eq]
  exact get32_at _ _ _

theorem localRwnd_le (s : Stream) : s.localRwnd ≤ streamWinMax := min_le_right _ _

theorem emitAck_rwnd (s : Stream) : get16 s.emitAck 9 = s.localRwnd := by
  have hlt : s.localRwnd < 256 ^ 2 := by
    have := s.localRwnd_le
    unfold streamWinMax at this
    omega
  have h := fromBigEndian_slice ((if s.writeSack = [] then fAck else fAck ||| fSack) ::
    put32 s.sndNxt ++ put32 s.rcvNxt) s.writeSack hlt
  rw [append_assoc] at h
  simpa [emitAck_eq, get16, put32, put16] using h

theorem emitAck_length (s : Stream) : streamHeader ≤ s.emitAck.length := by
  simp [emitAck_eq, put32, put16, streamHeader]
  omega

theorem testBit_foldl (p : ℕ → Prop) [DecidablePred p] (is : List ℕ) (bm k : ℕ) :
    (is.foldl (fun bm i => if p i then bm ||| 1 <<< i else bm) bm).testBit k = true ↔
      bm.testBit k = true ∨ k ∈ is ∧ p k := by
  induction is generalizing bm with
  | nil => simp
  | cons i is ih =>
    rw [foldl_cons, ih, mem_cons]
    split_ifs with hi
    · rw [Nat.testBit_or, Nat.shiftLeft_eq, one_mul, Nat.testBit_two_pow, Bool.or_eq_true,
        decide_eq_true_eq]
      constructor
      · rintro ((hbit | rfl) | ⟨hmem, hk⟩)
        · exact .inl hbit
        · exact .inr ⟨Or.inl rfl, hi⟩
        · exact .inr ⟨Or.inr hmem, hk⟩
      · rintro (hbit | ⟨rfl | hmem, hk⟩)
        · exact .inl (.inl hbit)
        · exact .inl (.inr rfl)
        · exact .inr ⟨hmem, hk⟩
    · constructor
      · rintro (hbit | ⟨hmem, hk⟩)
        · exact .inl hbit
        · exact .inr ⟨Or.inr hmem, hk⟩
      · rintro (hbit | ⟨rfl | hmem, hk⟩)
        · exact .inl hbit
        · exact absurd hk hi
        · exact .inr ⟨hmem, hk⟩

theorem sackBitmap_testBit (s : Stream) (k : ℕ) : s.sackBitmap.testBit k = true ↔ k < 63 ∧
    (s.rbuf (slot (s.rcvNxt + 1 + ofNat k))).present = true ∧
      (s.rbuf (slot (s.rcvNxt + 1 + ofNat k))).seq = s.rcvNxt + 1 + ofNat k := by
  have h := testBit_foldl (fun i => (s.rbuf (slot (s.rcvNxt + 1 + ofNat i))).present = true ∧
    (s.rbuf (slot (s.rcvNxt + 1 + ofNat i))).seq = s.rcvNxt + 1 + ofNat i)
    (range 63) 0 k
  rw [Nat.zero_testBit, mem_range] at h
  exact h.trans (by simp)

theorem sackBitmap_lt (s : Stream) : s.sackBitmap < 256 ^ 8 := by
  rw [show (256 ^ 8 : ℕ) = 2 ^ 64 by norm_num]
  apply Nat.lt_pow_two_of_testBit
  intro i hi
  rw [Bool.eq_false_iff, Ne, sackBitmap_testBit]
  omega

theorem sackBitmap_eq_zero
    (h : ∀ i < 63, (s.rbuf (slot (s.rcvNxt + 1 + ofNat i))).present = false) :
    s.sackBitmap = 0 := by
  apply Nat.eq_of_testBit_eq
  intro i
  rw [Nat.zero_testBit, Bool.eq_false_iff, Ne, sackBitmap_testBit]
  rintro ⟨hi, hpresent, _⟩
  rw [h i hi] at hpresent
  cases hpresent

theorem emitAck_flags_of_zero (h : s.sackBitmap = 0) : s.emitAck.getD 0 0 = fAck := by
  change (if s.writeSack = [] then fAck else fAck ||| fSack) = fAck
  rw [writeSack, if_pos h, if_pos rfl]

theorem emitAck_of_ne_zero (h : s.sackBitmap ≠ 0) :
    s.emitAck.getD 0 0 &&& fSack ≠ 0 ∧ streamHeader + streamSackBytes ≤ s.emitAck.length ∧
      get64 s.emitAck streamHeader = s.sackBitmap := by
  have hwrite : s.writeSack = put64 s.sackBitmap := if_neg h
  have hne : s.writeSack ≠ [] := by
    rw [hwrite, Ne, ← length_eq_zero_iff]
    simp [put64]
  refine ⟨?_, ?_, ?_⟩
  · change (if s.writeSack = [] then fAck else fAck ||| fSack) &&& fSack ≠ 0
    rw [if_neg hne]
    decide
  · simp [emitAck_eq, hwrite, put32, put16, put64, streamHeader, streamSackBytes]
  · have hread := fromBigEndian_slice ((if s.writeSack = [] then fAck else fAck ||| fSack) ::
      put32 s.sndNxt ++ put32 s.rcvNxt ++ put16 s.localRwnd) [] s.sackBitmap_lt
    simpa [emitAck_eq, hwrite, get64, put32, put16, put64, streamHeader] using hread

theorem sackOne_sacked {j : ℕ} (h : (s.sbuf j).sacked = true) (q : UInt32) :
    ((s.sackOne q).sbuf j).sacked = true := by
  unfold sackOne
  split_ifs
  · exact h
  · rw [modifySent_apply]
    split_ifs
    · rfl
    · exact h
  · exact h

def Markable (s : Stream) (q : UInt32) : Prop :=
  (q - s.sndUna).toNat < s.inflight ∧ s.inflight ≤ streamWinMax ∧ (s.sbuf (slot q)).seq = q

theorem sackOne_marks (h : s.Markable q) : ((s.sackOne q).sbuf (slot q)).sacked = true := by
  obtain ⟨hwin, hfl, hseq⟩ := h
  have hrange : ¬ (signed (q - s.sndUna) < 0 ∨ 0 ≤ signed (q - s.sndNxt)) := by
    unfold inflight at hwin hfl
    have := q.toNat_lt
    have := s.sndUna.toNat_lt
    have := s.sndNxt.toNat_lt
    rw [← not_lt, signed_neg_iff, signed_neg_iff]
    simp only [toNat_sub, streamWinMax] at hwin hfl ⊢
    omega
  rw [sackOne, if_neg hrange, if_pos hseq, modifySent_apply, if_pos rfl]

theorem Markable.sackOne (h : s.Markable q) (r : UInt32) : (s.sackOne r).Markable q :=
  (side_eq (Markable · q) (s.modSack_sackOne r) fun _ => rfl).mpr h

theorem sackLoop_marks {bm i : ℕ} (hbit : bm.testBit i = true) (hq : ack + 1 + ofNat i = q)
    {is : List ℕ} (hi : i ∈ is) (h : s.Markable q) : ((is.foldl (fun s i =>
      if bm.testBit i then s.sackOne (ack + 1 + ofNat i) else s) s).sbuf
        (slot q)).sacked = true := by
  induction is generalizing s with
  | nil => cases hi
  | cons j js ih =>
    rw [foldl_cons]
    rcases mem_cons.mp hi with rfl | hmem
    · rw [if_pos hbit, hq]
      exact sackLoop_induct (P := fun t => (t.sbuf (slot q)).sacked = true)
        (fun t r ht => sackOne_sacked ht r) ack bm js (sackOne_marks h)
    · split_ifs
      · exact ih hmem (h.sackOne _)
      · exact ih hmem h

theorem applySack_marks {bm i : ℕ} (hi : i < 63) (hbit : bm.testBit i = true)
    (hq : ack + 1 + ofNat i = q) (h : s.Markable q) :
    ((s.applySack ack bm).sbuf (slot q)).sacked = true :=
  sackLoop_marks hbit hq (mem_range.mpr hi) h

theorem onAck_of_advance (hpos : 0 < (ack - s.sndUna).toNat)
    (hle : (ack - s.sndUna).toNat ≤ s.inflight) (hwin : s.inflight ≤ streamWinMax) (now : UInt32) :
    s.onAck ack now = (s.newAck ack now, []) := by
  apply if_pos
  unfold inflight at hle hwin
  have := ack.toNat_lt
  have := s.sndUna.toNat_lt
  have := s.sndNxt.toNat_lt
  rw [signed_eq, signed_eq]
  simp only [toNat_sub, streamWinMax] at hpos hle hwin ⊢
  split_ifs <;> omega

theorem le_ccGrow (fuel cnt cwnd : ℕ) : cwnd ≤ (ccGrow fuel cnt cwnd).2 := by
  induction fuel generalizing cnt cwnd with
  | zero => exact le_rfl
  | succ fuel ih =>
    rw [ccGrow]
    split_ifs
    · exact (Nat.le_succ _).trans (ih _ _)
    · exact le_rfl

theorem ccGrow_ends {fuel cnt cwnd : ℕ} (hpos : 0 < cwnd) (h : cnt ≤ fuel) :
    (ccGrow fuel cnt cwnd).1 < (ccGrow fuel cnt cwnd).2 := by
  induction fuel generalizing cnt cwnd with
  | zero => exact h.trans_lt hpos
  | succ fuel ih =>
    rw [ccGrow]
    split_ifs with hle
    · exact ih (by omega) (by omega)
    · exact not_le.mp hle

theorem le_newAck_cwnd (s : Stream) (ack now : UInt32) :
    min s.cwnd streamWinMax ≤ (s.newAck ack now).cwnd := by
  have hrtt : (s.sampleRtt ack now).cwnd = s.cwnd := by
    unfold sampleRtt
    split_ifs <;> rfl
  have hcc : ∀ (t : Stream) (n : ℕ), min t.cwnd streamWinMax ≤ (t.ccOnAck n).cwnd := fun t n => by
    unfold ccOnAck
    split_ifs
    · exact min_le_left _ _
    · exact min_le_min_right _ (Nat.le_add_right _ _)
    · exact min_le_min_right _ (le_ccGrow _ _ _)
  rw [← hrtt]
  exact hcc _ _

end Stream
end Norn
