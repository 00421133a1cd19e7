import Norn.Stream.Core

/-!
# What a stream has sent

A sender cuts the bytes it accepts into items, numbered from zero: a block of bytes, or the FIN.
-/

namespace Norn
open List UInt32

inductive Item
  | data (bytes : Bytes)
  | fin

def Item.flags : Item → UInt8
  | data _ => fData
  | fin => fFin

def Item.bytes : Item → Bytes
  | data bs => bs
  | fin => []

def payload (items : List Item) : Bytes := items.flatMap Item.bytes

theorem payload_append (xs ys : List Item) : payload (xs ++ ys) = payload xs ++ payload ys :=
  flatMap_append

theorem payload_singleton (it : Item) : payload [it] = it.bytes := append_nil _

def Seg.core (seg : Seg) : UInt32 × UInt8 × Bytes := (seg.seq, seg.flags, seg.data)

/-- The datagram, if it carries data or the FIN, carries an item under its number. -/
def Carries (items : List Item) (d : Bytes) : Prop :=
  d.getD 0 0 &&& (fData ||| fFin) ≠ 0 → ∃ n it, items[n]? = some it ∧
    get32 d 1 = ofNat n ∧ d.getD 0 0 = it.flags ||| fAck ∧ d.drop streamHeader = it.bytes

variable {items : List Item} {d : Bytes}

theorem Carries.append (h : Carries items d) (more : List Item) : Carries (items ++ more) d := by
  intro hd
  obtain ⟨n, it, hit, hrest⟩ := h hd
  refine ⟨n, it, ?_, hrest⟩
  rw [List.getElem?_append_left (List.getElem?_eq_some_iff.mp hit).1, hit]

namespace Stream
variable (s : Stream)

def sendSide : UInt32 × UInt32 × Ring UInt8 pendCap × (ℕ → UInt32 × UInt8 × Bytes) :=
  (s.sndUna, s.sndNxt, s.pend, fun j => (s.sbuf j).core)

def recvSide : (ℕ → Seg) × UInt32 × Bool × Ring UInt8 delivCap :=
  (s.rbuf, s.rcvNxt, s.peerFin, s.deliv)

def finSide : Bool × Bool := (s.finQueued, s.finSegmented)

def mapSent (g : Seg → Seg) (s : Stream) : Stream := { s with sbuf := fun j => g (s.sbuf j) }

def modRetx : Stream → Stream := mapSent fun seg => { seg with sentAt := 0, retx := false }

def modSack : Stream → Stream := mapSent fun seg => { seg with sacked := false }

def modRead : Stream := { s.modSack with peerRwnd := 0 }

def modControl : Stream :=
  { s with
    rto := 0, srtt := 0, rttvar := 0, rtoDeadline := 0, dupacks := 0, cwnd := 0, ssthresh := 0
    cwndCnt := 0 }

def modResend : Stream := s.modRetx.modControl

def modAdvance : Stream := { s.modControl with sndUna := 0 }

def modAck : Stream := s.modRead.modRetx.modAdvance

variable {s : Stream} {n : ℕ} {P : Stream → Prop} {ack : UInt32}

theorem side_eq {α : Type*} (f : Stream → α) {g : Stream → Stream} {s' : Stream} (h : g s' = g s)
    (hf : ∀ s, f (g s) = f s) : f s' = f s :=
  (hf s').symm.trans ((congrArg f h).trans (hf s))

section
variable (s : Stream) (seg : Seg)

theorem length_emitSeg : (s.emitSeg seg).length = streamHeader + seg.data.length := by
  simp [emitSeg, put32, put16, streamHeader]
  omega

theorem emitSeg_flags : (s.emitSeg seg).getD 0 0 = seg.flags ||| fAck := rfl

theorem get32_at (p r : Bytes) (v : UInt32) : get32 (p ++ (put32 v ++ r)) p.length = v := by
  rw [get32, put32, fromBigEndian_slice p r v.toNat_lt, UInt32.ofNat_toNat]

theorem emitSeg_seq : get32 (s.emitSeg seg) 1 = seg.seq :=
  get32_at [seg.flags ||| fAck] _ seg.seq

theorem emitSeg_ack : get32 (s.emitSeg seg) 5 = s.rcvNxt :=
  get32_at ((seg.flags ||| fAck) :: put32 seg.seq) _ s.rcvNxt

theorem emitSeg_data : (s.emitSeg seg).drop streamHeader = seg.data := by
  have h : s.emitSeg seg = (((seg.flags ||| fAck) :: put32 seg.seq) ++ put32 s.rcvNxt ++
      put16 s.localRwnd) ++ seg.data := by simp [emitSeg]
  rw [h, drop_left']
  simp [put32, put16, streamHeader]

theorem emitAck_flags : s.emitAck.getD 0 0 &&& (fData ||| fFin) = 0 := by
  change (if s.writeSack = [] then fAck else fAck ||| fSack) &&& (fData ||| fFin) = 0
  split_ifs <;> decide

theorem emitSeg_congr {s s' : Stream} {seg seg' : Seg} (hs : s'.recvSide = s.recvSide)
    (hseg : seg'.core = seg.core) : s'.emitSeg seg' = s.emitSeg seg := by
  simp only [recvSide, Seg.core, Prod.mk.injEq] at hs hseg
  simp only [emitSeg, localRwnd, hs, hseg]

end

theorem carries_emitAck (items : List Item) (s : Stream) : Carries items s.emitAck :=
  fun h => absurd s.emitAck_flags h

theorem modifySent_apply (s : Stream) (q : UInt32) (f : Seg → Seg) (j : ℕ) :
    (s.modifySent q f).sbuf j = if j = slot q then f (s.sbuf j) else s.sbuf j := by
  change Function.update s.sbuf (slot q) (f (s.sbuf (slot q))) j = _
  rw [Function.update_apply]
  split_ifs with h
  · rw [h]
  · rfl

theorem mapSent_modifySent (s : Stream) (q : UInt32) {f g : Seg → Seg}
    (h : ∀ seg, g (f seg) = g seg) : (s.modifySent q f).mapSent g = s.mapSent g := by
  have hbuf : ∀ j, g ((s.modifySent q f).sbuf j) = g (s.sbuf j) := fun j => by
    rw [modifySent_apply]
    split_ifs
    · exact h _
    · rfl
  exact congrArg (fun b => { s with sbuf := b }) (funext hbuf)

theorem markRetx_core (s : Stream) (q now : UInt32) (j : ℕ) :
    ((s.markRetx q now).sbuf j).core = (s.sbuf j).core := by
  rw [markRetx, modifySent_apply]
  split_ifs <;> rfl

theorem markRetx_sacked (s : Stream) (q now : UInt32) (j : ℕ) :
    ((s.markRetx q now).sbuf j).sacked = (s.sbuf j).sacked := by
  rw [markRetx, modifySent_apply]
  split_ifs <;> rfl

theorem exists_guarded_succ {L R : ℕ → Prop} : (∃ i < n + 1, (∀ j ≤ i, L j) ∧ R i) ↔
      L 0 ∧ (R 0 ∨ ∃ i < n, (∀ j ≤ i, L (j + 1)) ∧ R (i + 1)) := by
  constructor
  · rintro ⟨i, hi, hguard, hR⟩
    refine ⟨hguard 0 (Nat.zero_le i), ?_⟩
    cases i with
    | zero => exact .inl hR
    | succ i => exact .inr ⟨i, by omega, fun j hj => hguard (j + 1) (by omega), hR⟩
  · rintro ⟨hzero, hR | ⟨i, hi, hguard, hR⟩⟩
    · exact ⟨0, by omega, fun j hj => by rwa [Nat.le_zero.mp hj], hR⟩
    · refine ⟨i + 1, by omega, fun j hj => ?_, hR⟩
      cases j with
      | zero => exact hzero
      | succ j => exact hguard j (by omega)

section
variable (now limit : UInt32)

theorem modRetx_retransmitLoop (n : ℕ) (q : UInt32) (s : Stream) :
    (retransmitLoop now limit n q s).1.modRetx = s.modRetx := by
  induction n generalizing q s with
  | zero => rfl
  | succ n ih =>
    rw [retransmitLoop]
    split_ifs
    · exact ih _ _
    · exact (ih _ _).trans (s.mapSent_modifySent q fun _ => rfl)
    · rfl

theorem mem_retransmitLoop {q : UInt32} : d ∈ (retransmitLoop now limit n q s).2 ↔ ∃ i < n,
      (∀ j ≤ i, signed (q + ofNat j - limit) < 0) ∧
        (s.sbuf (slot (q + ofNat i))).sacked = false ∧
          d = s.emitSeg (s.sbuf (slot (q + ofNat i))) := by
  have hshift : ∀ (q : UInt32) (i : ℕ), q + 1 + ofNat i = q + ofNat (i + 1) :=
    fun q i => by rw [ofNat_add, add_assoc, add_comm 1]; rfl
  induction n generalizing q s with
  | zero => simp [retransmitLoop]
  | succ n ih =>
    rw [retransmitLoop, exists_guarded_succ, add_ofNat_zero]
    simp only [← hshift]
    by_cases hlimit : signed (q - limit) < 0
    · by_cases hsacked : (s.sbuf (slot q)).sacked = true
      · rw [if_pos hlimit, if_pos hsacked]
        refine ih.trans ?_
        simp [hlimit, hsacked]
      · have hemit : ∀ j, (s.markRetx q now).emitSeg ((s.markRetx q now).sbuf j) =
            s.emitSeg (s.sbuf j) := fun j => emitSeg_congr rfl (s.markRetx_core q now j)
        rw [if_pos hlimit, if_neg hsacked, mem_cons]
        refine (or_congr_right ih).trans ?_
        simp only [hemit, markRetx_sacked]
        simp [hlimit, hsacked]
    · rw [if_neg hlimit]
      simp [hlimit]

end

theorem modSack_sackOne (s : Stream) (q : UInt32) : (s.sackOne q).modSack = s.modSack := by
  unfold sackOne
  split_ifs
  · rfl
  · exact s.mapSent_modifySent q fun _ => rfl
  · rfl

theorem sackLoop_induct_bits {bm : ℕ} {is : List ℕ}
    (h : ∀ i ∈ is, bm.testBit i = true → ∀ s, P s → P (s.sackOne (ack + 1 + ofNat i)))
    (hs : P s) : P (is.foldl (fun s i =>
      if bm.testBit i then s.sackOne (ack + 1 + ofNat i) else s) s) := by
  induction is generalizing s with
  | nil => exact hs
  | cons i is ih =>
    have hrest := fun j hj => h j (mem_cons_of_mem i hj)
    rw [foldl_cons]
    split_ifs with hbit
    · exact ih hrest (h i mem_cons_self hbit s hs)
    · exact ih hrest hs

theorem sackLoop_induct (h : ∀ s q, P s → P (s.sackOne q)) (ack : UInt32) (bm : ℕ) (is : List ℕ)
    (hs : P s) : P (is.foldl (fun s i =>
      if bm.testBit i then s.sackOne (ack + 1 + ofNat i) else s) s) :=
  sackLoop_induct_bits (fun _ _ _ s hs => h s _ hs) hs

theorem applySack_induct (h : ∀ s q, P s → P (s.sackOne q)) (hs : P s) (ack : UInt32) (bm : ℕ) :
    P (s.applySack ack bm) :=
  sackLoop_induct h ack bm (range 63) hs

theorem modSack_applySack (s : Stream) (ack : UInt32) (bm : ℕ) :
    (s.applySack ack bm).modSack = s.modSack :=
  applySack_induct (P := fun t => t.modSack = s.modSack)
    (fun t q h => (t.modSack_sackOne q).trans h) rfl ack bm

def Holds (seg : Seg) (n : ℕ) (it : Item) : Prop := seg.core = (ofNat n, it.flags, it.bytes)

/-- The send table holds the last of the items, those in flight. -/
structure Sent (s : Stream) (items : List Item) : Prop where
  nxt : s.sndNxt = ofNat items.length
  window : s.inflight ≤ streamWinMax
  inflight_le : s.inflight ≤ items.length
  held : ∀ {n : ℕ} {it : Item}, items[n]? = some it → items.length ≤ n + s.inflight →
    Holds (s.sbuf (slot (ofNat n))) n it
  short : ∀ it ∈ items, it.bytes.length ≤ streamSegPayload

theorem slot_ofNat (n : ℕ) : slot (ofNat n) = n % streamWinMax := by
  rw [slot, toNat_ofNat', streamWinMax]
  omega

theorem sent_streamNew : Sent streamNew [] where
  nxt := rfl
  window := by decide
  inflight_le := by decide
  held h := by simp at h
  short := by simp

namespace Sent
variable {s s' : Stream} {items : List Item}

theorem congr (h : Sent s items) (hs : s'.sendSide = s.sendSide) : Sent s' items := by
  simp only [sendSide, Prod.mk.injEq] at hs
  obtain ⟨huna, hnxt, _, hbuf⟩ := hs
  have hfl : s'.inflight = s.inflight := by rw [inflight, inflight, huna, hnxt]
  refine ⟨hnxt.trans h.nxt, hfl ▸ h.window, hfl ▸ h.inflight_le, fun hit hn => ?_, h.short⟩
  rw [hfl] at hn
  exact (congrFun hbuf _).trans (h.held hit hn)

theorem setPend (h : Sent s items) (p : Ring UInt8 pendCap) (fq fs : Bool) :
    Sent { s with pend := p, finQueued := fq, finSegmented := fs } items :=
  ⟨h.nxt, h.window, h.inflight_le, h.held, h.short⟩

theorem una (h : Sent s items) : s.sndUna = UInt32.ofNat (items.length - s.inflight) := by
  have hle := h.inflight_le
  have hnxt := congrArg UInt32.toNat h.nxt
  have hlt := s.sndUna.toNat_lt
  apply UInt32.toNat_inj.mp
  rw [UInt32.toNat_ofNat'] at hnxt ⊢
  unfold inflight at hle ⊢
  rw [UInt32.toNat_sub] at hle ⊢
  omega

variable {i : ℕ}

theorem of_inflight (h : Sent s items) (hi : i < s.inflight) : ∃ n it,
    items[n]? = some it ∧ s.sndUna + ofNat i = ofNat n ∧
      Holds (s.sbuf (slot (s.sndUna + ofNat i))) n it := by
  have hle := h.inflight_le
  have hq : s.sndUna + ofNat i = ofNat (items.length - s.inflight + i) := by
    rw [h.una, ofNat_add]
  have hlt : items.length - s.inflight + i < items.length := by omega
  refine ⟨_, _, getElem?_eq_getElem hlt, hq, ?_⟩
  rw [hq]
  exact h.held (getElem?_eq_getElem hlt) (by omega)

theorem carries (h : Sent s items) (hi : i < s.inflight) :
    Carries items (s.emitSeg (s.sbuf (slot (s.sndUna + ofNat i)))) := by
  intro _
  obtain ⟨n, it, hit, _, hheld⟩ := h.of_inflight hi
  simp only [Holds, Seg.core, Prod.mk.injEq] at hheld
  obtain ⟨hseq, hflags, hdata⟩ := hheld
  refine ⟨n, it, hit, ?_, ?_, ?_⟩
  · rw [emitSeg_seq, hseq]
  · rw [emitSeg_flags, hflags]
  · rw [emitSeg_data, hdata]

theorem retransmitRange (h : Sent s items) (now limit : UInt32) :
    Sent (s.retransmitRange now limit).1 items ∧
      ∀ d ∈ (s.retransmitRange now limit).2, Carries items d := by
  refine ⟨h.congr (side_eq sendSide (modRetx_retransmitLoop now limit _ _ s) fun _ => rfl),
    fun d hd => ?_⟩
  obtain ⟨i, hi, _, _, rfl⟩ := (mem_retransmitLoop now limit).mp hd
  exact h.carries hi

end Sent

theorem modAdvance_newAck (s : Stream) (ack now : UInt32) :
    (s.newAck ack now).modAdvance = s.modAdvance := by
  have hrtt : (s.sampleRtt ack now).modControl = s.modControl := by
    unfold sampleRtt
    split_ifs <;> rfl
  have hcc : ∀ (t : Stream) (n : ℕ), (t.ccOnAck n).modControl = t.modControl := fun t n => by
    unfold ccOnAck
    split_ifs <;> rfl
  exact (side_eq modAdvance ((hcc _ _).trans hrtt) fun _ => rfl :)

theorem newAck_sndNxt (s : Stream) (ack now : UInt32) : (s.newAck ack now).sndNxt = s.sndNxt :=
  side_eq sndNxt (s.modAdvance_newAck ack now) fun _ => rfl

theorem newAck_sbuf (s : Stream) (ack now : UInt32) : (s.newAck ack now).sbuf = s.sbuf :=
  side_eq sbuf (s.modAdvance_newAck ack now) fun _ => rfl

theorem newAck_number (s : Stream) (ack now : UInt32) (i : ℕ) :
    (s.newAck ack now).sndUna + UInt32.ofNat i =
      s.sndUna + UInt32.ofNat ((ack - s.sndUna).toNat + i) := by
  change ack + UInt32.ofNat i = _
  rw [UInt32.ofNat_add, UInt32.ofNat_toNat, ← add_assoc, add_sub_cancel]

theorem modResend_dupAck (s : Stream) (now : UInt32) : (s.dupAck now).1.modResend = s.modResend := by
  unfold dupAck
  split_ifs
  · rfl
  · exact (side_eq modResend (modRetx_retransmitLoop now _ _ _ _) fun _ => rfl :)
  · rfl

theorem modAck_onAck (s : Stream) (ack now : UInt32) : (s.onAck ack now).1.modAck = s.modAck := by
  unfold onAck
  split_ifs
  · exact side_eq modAck (s.modAdvance_newAck ack now) fun _ => rfl
  · exact side_eq modAck (s.modResend_dupAck now) fun _ => rfl
  · rfl

theorem inflight_split (hwin : s.inflight ≤ streamWinMax) (hpos : 0 < signed (ack - s.sndUna))
    (hle : signed (ack - s.sndNxt) ≤ 0) (now : UInt32) :
    (ack - s.sndUna).toNat + (s.newAck ack now).inflight = s.inflight := by
  unfold inflight at hwin ⊢
  rw [newAck_sndNxt]
  change _ + (s.sndNxt - ack).toNat = _
  rw [signed_eq] at hpos hle
  simp only [UInt32.toNat_sub, streamWinMax] at hpos hle hwin ⊢
  have := ack.toNat_lt
  have := s.sndUna.toNat_lt
  have := s.sndNxt.toNat_lt
  split_ifs at hpos hle <;> omega

section
variable {s : Stream} {items : List Item} (h : Sent s items)
include h

theorem Sent.dupAck (now : UInt32) :
    Sent (s.dupAck now).1 items ∧ ∀ d ∈ (s.dupAck now).2, Carries items d := by
  refine ⟨h.congr (side_eq sendSide (s.modResend_dupAck now) fun _ => rfl), ?_⟩
  unfold Stream.dupAck
  split_ifs
  · simp
  · have hloss : Sent ({ s with dupacks := s.dupacks + 1 }.ccOnLoss false) items := h.congr rfl
    exact (hloss.retransmitRange now _).2
  · simp

theorem Sent.onAck (ack now : UInt32) :
    Sent (s.onAck ack now).1 items ∧ ∀ d ∈ (s.onAck ack now).2, Carries items d := by
  unfold Stream.onAck
  split_ifs with hadv hdup
  · have hfl := inflight_split h.window hadv.1 hadv.2 now
    have hwin := h.window
    have hle := h.inflight_le
    have hnew : Sent (s.newAck ack now) items := by
      refine ⟨(s.newAck_sndNxt ack now).trans h.nxt, by omega, by omega, fun hit hn => ?_, h.short⟩
      rw [newAck_sbuf]
      exact h.held hit (by omega)
    exact ⟨hnew, by simp⟩
  · exact h.dupAck now
  · exact ⟨h, by simp⟩

end

def sackRead (s : Stream) (seg : Bytes) : Stream :=
  if seg.getD 0 0 &&& fSack ≠ 0 ∧ streamHeader + streamSackBytes ≤ seg.length then
    { s with peerRwnd := get16 seg 9 }.applySack (get32 seg 5) (get64 seg streamHeader)
  else { s with peerRwnd := get16 seg 9 }

theorem takeAck_eq (s : Stream) (seg : Bytes) (now : UInt32) :
    s.takeAck seg now = (s.sackRead seg).onAck (get32 seg 5) now := rfl

theorem modRead_sackRead (s : Stream) (seg : Bytes) : (s.sackRead seg).modRead = s.modRead := by
  unfold sackRead
  split_ifs
  · exact (side_eq modRead (modSack_applySack _ _ _) fun _ => rfl :)
  · rfl

theorem sendSide_sackRead (s : Stream) (seg : Bytes) : (s.sackRead seg).sendSide = s.sendSide :=
  side_eq sendSide (s.modRead_sackRead seg) fun _ => rfl

theorem modAck_takeAck (s : Stream) (seg : Bytes) (now : UInt32) :
    (s.takeAck seg now).1.modAck = s.modAck :=
  ((s.sackRead seg).modAck_onAck _ now).trans (side_eq modAck (s.modRead_sackRead seg) fun _ => rfl)

theorem recvSide_takeAck (s : Stream) (seg : Bytes) (now : UInt32) :
    (s.takeAck seg now).1.recvSide = s.recvSide :=
  side_eq recvSide (s.modAck_takeAck seg now) fun _ => rfl

theorem Sent.takeAck (h : Sent s items) (seg : Bytes) (now : UInt32) :
    Sent (s.takeAck seg now).1 items ∧ ∀ d ∈ (s.takeAck seg now).2, Carries items d := by
  rw [takeAck_eq]
  exact (h.congr (s.sendSide_sackRead seg)).onAck (get32 seg 5) now

theorem modControl_backOff (s : Stream) : s.backOff.modControl = s.modControl := by
  unfold backOff
  split_ifs <;> rfl

theorem backOff_sbuf (s : Stream) : s.backOff.sbuf = s.sbuf :=
  side_eq sbuf s.modControl_backOff fun _ => rfl

theorem modResend_timeout (s : Stream) (now : UInt32) : (s.timeout now).1.modResend = s.modResend :=
  (side_eq modResend (modRetx_retransmitLoop now s.sndNxt _ _ s.backOff) fun _ => rfl).trans
    (side_eq modResend s.modControl_backOff fun _ => rfl)

theorem recvSide_timeout (s : Stream) (now : UInt32) : (s.timeout now).1.recvSide = s.recvSide :=
  side_eq recvSide (s.modResend_timeout now) fun _ => rfl

theorem timeout_out (s : Stream) (now : UInt32) :
    (s.timeout now).2 = (s.backOff.retransmitRange now s.sndNxt).2 := rfl

theorem streamTick_cases (s : Stream) (now : UInt32) :
    ((s.pumpSend now).1.Due now ∧ (s.pumpSend now).1.sndUna ≠ (s.pumpSend now).1.sndNxt ∧
      s.streamTick now = (((s.pumpSend now).1.timeout now).1,
        (s.pumpSend now).2 ++ ((s.pumpSend now).1.timeout now).2)) ∨
    (¬ ((s.pumpSend now).1.Due now ∧ (s.pumpSend now).1.sndUna ≠ (s.pumpSend now).1.sndNxt) ∧
      s.streamTick now = s.pumpSend now) := by
  by_cases h : (s.pumpSend now).1.Due now ∧ (s.pumpSend now).1.sndUna ≠ (s.pumpSend now).1.sndNxt
  · exact .inl ⟨h.1, h.2, if_pos h⟩
  · exact .inr ⟨h, if_neg h⟩

end Stream
end Norn
