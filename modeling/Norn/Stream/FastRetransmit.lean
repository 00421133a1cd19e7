import Norn.Stream.Retransmit

/-!
# Fast retransmission

Besides the timer only the third duplicate acknowledgement makes a stream send a segment again.
-/

namespace Norn
open UInt32 List
namespace Stream

def SendsSeg (q : UInt32) (out : List Bytes) : Prop :=
  ∃ d ∈ out, d.length ≤ streamSegMax ∧ d.getD 0 0 &&& (fData ||| fFin) ≠ 0 ∧ get32 d 1 = q

/-- The outstanding segment `i` behind the oldest is marked as selectively acknowledged. -/
def Sacked (s : Stream) (i : ℕ) : Prop := (s.sbuf (slot (s.sndUna + ofNat i))).sacked = true

instance (s : Stream) (i : ℕ) : Decidable (s.Sacked i) := inferInstanceAs (Decidable (_ = true))

/-- The datagram is the third duplicate acknowledgement and covers `q`. -/
structure FastResends (s : Stream) (seg : Bytes) (q : UInt32) : Prop where
  header : streamHeader ≤ seg.length
  ack : get32 seg 5 = s.sndUna
  outstanding : s.sndUna ≠ s.sndNxt
  window : get16 seg 9 ≠ 0
  third : s.dupacks + 1 = streamDupackThresh
  hole : ∃ i < s.inflight, q = s.sndUna + ofNat i ∧ ¬ (s.sackRead seg).Sacked i ∧
    (i = 0 ∨ ∃ j, i < j ∧ j < s.inflight ∧ (s.sackRead seg).Sacked j)

variable {s : Stream} {d : Bytes} {items : List Item}

theorem fastLimit_spec (hwin : s.inflight ≤ streamWinMax) :
    ∃ L ≤ streamWinMax + 1, s.fastLimit = s.sndUna + ofNat L ∧
      ∀ i, i < L ↔ i = 0 ∨ ∃ j, i ≤ j ∧ j < s.inflight ∧ s.Sacked j := by
  have hloop : ∀ k ≤ s.inflight, ∃ L ≤ k + 1, (range k).foldl (fun limit i =>
      let q := s.sndUna + ofNat i
      if (s.sbuf (slot q)).sacked ∧ 0 < signed (q + 1 - limit) then q + 1 else limit)
        (s.sndUna + 1) = s.sndUna + ofNat L ∧
      ∀ i, i < L ↔ i = 0 ∨ ∃ j, i ≤ j ∧ j < k ∧ s.Sacked j := by
    intro k
    induction k with
    | zero => exact fun _ => ⟨1, le_rfl, rfl, fun i => by simp⟩
    | succ k ih =>
      intro hk
      obtain ⟨L, hL, hfold, hmem⟩ := ih (by omega)
      have hnext : s.sndUna + ofNat k + 1 = s.sndUna + ofNat (k + 1) := by
        rw [ofNat_add, ← add_assoc]
        rfl
      have hsign : signed (s.sndUna + ofNat k + 1 - (s.sndUna + ofNat L)) =
          ((k + 1 : ℕ) : ℤ) - L := by
        unfold streamWinMax at hwin
        rw [hnext]
        exact signed_add_sub_add _ (by omega) (by omega)
      have hlast : ∀ i, (∃ j, i ≤ j ∧ j < k + 1 ∧ s.Sacked j) ↔
          (∃ j, i ≤ j ∧ j < k ∧ s.Sacked j) ∨ i ≤ k ∧ s.Sacked k := by
        intro i
        constructor
        · rintro ⟨j, hij, hjk, hj⟩
          rcases Nat.lt_succ_iff_lt_or_eq.mp hjk with hlt | rfl
          · exact .inl ⟨j, hij, hlt, hj⟩
          · exact .inr ⟨hij, hj⟩
        · rintro (⟨j, hij, hjk, hj⟩ | ⟨hik, hj⟩)
          · exact ⟨j, hij, by omega, hj⟩
          · exact ⟨k, hik, by omega, hj⟩
      rw [range_succ, foldl_append, hfold]
      simp only [foldl_cons, foldl_nil, hsign]
      by_cases hsacked : s.Sacked k
      · refine ⟨k + 1, by omega, ?_, fun i => ?_⟩
        · by_cases hlt : L < k + 1
          · rw [if_pos ⟨hsacked, by omega⟩, hnext]
          · rw [if_neg (by omega), show L = k + 1 by omega]
        · rw [hlast, ← or_assoc, ← hmem i]
          simp only [hsacked, and_true]
          omega
      · refine ⟨L, by omega, if_neg fun h => hsacked h.1, fun i => ?_⟩
        rw [hlast, hmem i]
        simp [hsacked]
  obtain ⟨L, hL, hfold, hmem⟩ := hloop s.inflight le_rfl
  exact ⟨L, by omega, hfold, hmem⟩

theorem mem_thirdDup (hwin : s.inflight ≤ streamWinMax) (now : UInt32) :
    d ∈ (s.thirdDup now).2 ↔ ∃ i < s.inflight, ¬ s.Sacked i ∧
      (i = 0 ∨ ∃ j, i < j ∧ j < s.inflight ∧ s.Sacked j) ∧
        d = s.emitSeg (s.sbuf (slot (s.sndUna + ofNat i))) := by
  obtain ⟨L, hL, hlimit, hmem⟩ := fastLimit_spec hwin
  have hout : (s.thirdDup now).2 =
      (retransmitLoop now s.fastLimit s.inflight s.sndUna (s.ccOnLoss false)).2 := rfl
  have hguard : ∀ i < s.inflight,
      (∀ j ≤ i, signed (s.sndUna + ofNat j - s.fastLimit) < 0) ↔ i < L := by
    intro i hi
    have hsign : ∀ j ≤ i, signed (s.sndUna + ofNat j - s.fastLimit) = (j : ℤ) - L := by
      intro j hj
      unfold streamWinMax at hwin hL
      rw [hlimit]
      exact signed_add_sub_add _ (by omega) (by omega)
    constructor
    · intro hall
      have hlast := hall i le_rfl
      rw [hsign i le_rfl] at hlast
      omega
    · intro hlt j hj
      rw [hsign j hj]
      omega
  have hbelow : ∀ i, ¬ s.Sacked i → (i < L ↔ i = 0 ∨ ∃ j, i < j ∧ j < s.inflight ∧ s.Sacked j) := by
    intro i hi
    rw [hmem i]
    refine or_congr_right ⟨?_, ?_⟩
    · rintro ⟨j, hij, hj, hsacked⟩
      have hne : i ≠ j := fun heq => hi (heq ▸ hsacked)
      exact ⟨j, by omega, hj, hsacked⟩
    · rintro ⟨j, hij, hj, hsacked⟩
      exact ⟨j, hij.le, hj, hsacked⟩
  rw [hout, mem_retransmitLoop]
  constructor
  · rintro ⟨i, hi, hall, hsacked, rfl⟩
    have hno : ¬ s.Sacked i := fun hs => Bool.false_ne_true (hsacked.symm.trans hs)
    exact ⟨i, hi, hno, (hbelow i hno).mp ((hguard i hi).mp hall), rfl⟩
  · rintro ⟨i, hi, hno, hrange, rfl⟩
    refine ⟨i, hi, (hguard i hi).mpr ((hbelow i hno).mpr hrange), ?_, rfl⟩
    exact Bool.eq_false_iff.mpr hno

theorem mem_thirdDup_dupacks (hwin : s.inflight ≤ streamWinMax) (n : ℕ) (now : UInt32) :
    d ∈ ({ s with dupacks := n }.thirdDup now).2 ↔ d ∈ (s.thirdDup now).2 :=
  (mem_thirdDup (s := { s with dupacks := n }) hwin now).trans (mem_thirdDup hwin now).symm

theorem not_sendsSeg_nil (q : UInt32) : ¬ SendsSeg q [] := by
  rintro ⟨d, hd, _⟩
  cases hd

theorem Sent.onAck_sendsSeg_iff (h : Sent s items) (ack now : UInt32) (q : UInt32) :
    SendsSeg q (s.onAck ack now).2 ↔
      ack = s.sndUna ∧ s.sndUna ≠ s.sndNxt ∧ s.peerRwnd ≠ 0 ∧ s.dupacks + 1 = streamDupackThresh ∧
        ∃ i < s.inflight, q = s.sndUna + ofNat i ∧ ¬ s.Sacked i ∧
          (i = 0 ∨ ∃ j, i < j ∧ j < s.inflight ∧ s.Sacked j) := by
  by_cases hdup : ack = s.sndUna ∧ s.sndUna ≠ s.sndNxt
  · have hadv : ¬ (0 < signed (ack - s.sndUna) ∧ signed (ack - s.sndNxt) ≤ 0) := by
      rw [hdup.1, sub_self]
      exact fun hadv => absurd hadv.1 (by decide)
    rw [Stream.onAck, if_neg hadv, if_pos hdup, Stream.dupAck]
    by_cases hrwnd : s.peerRwnd = 0
    · rw [if_pos hrwnd]
      simp [not_sendsSeg_nil, hrwnd]
    · rw [if_neg hrwnd]
      by_cases hthird : s.dupacks + 1 = streamDupackThresh
      · rw [if_pos hthird]
        simp only [hdup, hrwnd, hthird, ne_eq, not_false_eq_true, true_and]
        constructor
        · rintro ⟨d, hd, _, _, hseq⟩
          obtain ⟨i, hi, hno, hrange, rfl⟩ :=
            (mem_thirdDup h.window now).mp ((mem_thirdDup_dupacks h.window _ now).mp hd)
          exact ⟨i, hi, hseq.symm.trans (h.emit_entry hi).1, hno, hrange⟩
        · rintro ⟨i, hi, rfl, hno, hrange⟩
          obtain ⟨hseq, hflags, hfit⟩ := h.emit_entry hi
          have hmem := (mem_thirdDup h.window now).mpr ⟨i, hi, hno, hrange, rfl⟩
          exact ⟨_, (mem_thirdDup_dupacks h.window _ now).mpr hmem, hfit, hflags, hseq⟩
      · rw [if_neg hthird]
        simp [not_sendsSeg_nil, hthird]
  · have hnone : (s.onAck ack now).2 = [] := by
      unfold Stream.onAck
      split_ifs <;> rfl
    rw [hnone]
    exact ⟨fun hs => absurd hs (not_sendsSeg_nil q), fun hs => absurd ⟨hs.1, hs.2.1⟩ hdup⟩

theorem Sent.streamInput_sendsSeg_iff (h : Sent s items) (seg : Bytes) (now q : UInt32) :
    SendsSeg q (s.streamInput seg now).2 ↔ s.FastResends seg q := by
  by_cases hlen : seg.length < streamHeader
  · rw [Stream.streamInput, if_pos hlen]
    exact ⟨fun hs => absurd hs (not_sendsSeg_nil q), fun hs => absurd hs.header (by omega)⟩
  · have hack : SendsSeg q (s.streamInput seg now).2 ↔ SendsSeg q (s.takeAck seg now).2 := by
      rw [Stream.streamInput, if_neg hlen]
      split_ifs
      · exact Iff.rfl
      · constructor
        · rintro ⟨d, hd, hfit, hflags, hseq⟩
          rcases mem_append.mp hd with hd | hd
          · exact ⟨d, hd, hfit, hflags, hseq⟩
          · rw [mem_singleton.mp hd] at hflags
            exact absurd (emitAck_flags _) hflags
        · rintro ⟨d, hd, hrest⟩
          exact ⟨d, mem_append_left _ hd, hrest⟩
    have hside := s.modRead_sackRead seg
    have hsent : Sent (s.sackRead seg) items := h.congr (s.sendSide_sackRead seg)
    have huna : (s.sackRead seg).sndUna = s.sndUna := side_eq sndUna hside fun _ => rfl
    have hnxt : (s.sackRead seg).sndNxt = s.sndNxt := side_eq sndNxt hside fun _ => rfl
    have hfl : (s.sackRead seg).inflight = s.inflight := side_eq inflight hside fun _ => rfl
    have hrwnd : (s.sackRead seg).peerRwnd = get16 seg 9 := by
      unfold sackRead
      split_ifs
      · exact (side_eq peerRwnd (modSack_applySack _ _ _) fun _ => rfl :)
      · rfl
    have hdup : (s.sackRead seg).dupacks = s.dupacks := side_eq dupacks hside fun _ => rfl
    rw [hack, takeAck_eq, hsent.onAck_sendsSeg_iff, huna, hnxt, hfl, hrwnd, hdup]
    constructor
    · rintro ⟨hack, hout, hwin, hthird, hhole⟩
      exact ⟨by omega, hack, hout, hwin, hthird, hhole⟩
    · intro hf
      exact ⟨hf.ack, hf.outstanding, hf.window, hf.third, hf.hole⟩

end Stream
end Norn
