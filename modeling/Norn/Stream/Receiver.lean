import Norn.Stream.Pump

/-!
# What a stream has received

A receiver has delivered a number of the items in order and holds some of the others.
-/

namespace Norn
open List UInt32 Function

namespace Stream

/-- The first `m` items are delivered, in order. -/
structure Received (s : Stream) (items : List Item) (m : ℕ) (read : Bytes) : Prop where
  nxt : s.rcvNxt = ofNat m
  le : m ≤ items.length
  delivered : read ++ s.deliv.contents = payload (items.take m)
  held : ∀ {j : ℕ}, (s.rbuf j).present = true → ∃ n it, items[n]? = some it ∧
    (s.rbuf j).core = (ofNat n, it.flags ||| fAck, it.bytes)

theorem buffer_cases (s : Stream) (flags : UInt8) (seq : UInt32) (data : Bytes) :
    s.buffer flags seq data = s ∨ ∃ seg, (s.rbuf (slot seq)).present = false ∧
      (seq - s.rcvNxt).toNat < streamWinMax ∧
      seg.core = (seq, flags, data.take streamSegPayload) ∧
      s.buffer flags seq data = { s with rbuf := update s.rbuf (slot seq) seg } := by
  unfold buffer
  by_cases hwin : 0 ≤ signed (seq - s.rcvNxt) ∧ signed (seq - s.rcvNxt) < streamWinMax
  · rw [if_pos hwin]
    by_cases hpresent : (s.rbuf (slot seq)).present = true
    · exact .inl (if_pos hpresent)
    · refine .inr ⟨_, by simpa using hpresent, ?_, rfl, if_neg hpresent⟩
      rw [signed_eq] at hwin
      unfold streamWinMax at hwin ⊢
      have := (seq - s.rcvNxt).toNat_lt
      split_ifs at hwin <;> omega
  · exact .inl (if_neg hwin)

variable {s : Stream}

theorem deliverLoop_induct {P : Stream → Prop} (h : ∀ s, P s → s.Deliverable → P s.deliverOne)
    (hs : P s) (fuel : ℕ) : P (deliverLoop fuel s) := by
  induction fuel generalizing s with
  | zero => exact hs
  | succ fuel ih =>
    rw [deliverLoop]
    by_cases hd : s.Deliverable
    · rw [if_pos hd]
      split_ifs
      · exact h s hs hd
      · exact ih (h s hs hd)
    · rwa [if_neg hd]

def occupied (s : Stream) : Finset ℕ :=
  (Finset.range streamWinMax).filter fun j => (s.rbuf j).present = true

theorem card_occupied_deliverOne (h : s.Deliverable) :
    s.deliverOne.occupied.card < s.occupied.card := by
  have hrbuf : ∀ j, (s.deliverOne.rbuf j).present =
      if j = slot s.rcvNxt then false else (s.rbuf j).present := fun j => by
    change (update s.rbuf (slot s.rcvNxt) _ j).present = _
    rw [update_apply]
    split_ifs <;> rfl
  apply Finset.card_lt_card
  refine Finset.ssubset_iff_subset_ne.mpr ⟨fun j hj => ?_, fun heq => ?_⟩
  · simp only [occupied, Finset.mem_filter, hrbuf] at hj ⊢
    refine ⟨hj.1, ?_⟩
    by_contra hno
    split_ifs at hj
    · exact hj.2
    · exact hno hj.2
  · have hmem : slot s.rcvNxt ∈ s.occupied :=
      Finset.mem_filter.mpr ⟨Finset.mem_range.mpr (Nat.mod_lt _ (by decide)), h.1⟩
    rw [← heq, occupied, Finset.mem_filter, hrbuf, if_pos rfl] at hmem
    exact absurd hmem.2 Bool.false_ne_true

/-- The loop of the source ends when the occupied places are used up. -/
theorem deliverLoop_ends {fuel : ℕ} (h : s.occupied.card ≤ fuel) :
    (deliverLoop fuel s).peerFin = true ∨ ¬ (deliverLoop fuel s).Deliverable := by
  induction fuel generalizing s with
  | zero =>
    refine .inr fun hd => ?_
    have := card_occupied_deliverOne (s := s) hd
    omega
  | succ fuel ih =>
    rw [deliverLoop]
    split_ifs with hd hfin
    · exact .inl hfin
    · have := card_occupied_deliverOne hd
      exact ih (by omega)
    · exact .inr hd

theorem received_streamNew (items : List Item) : Received streamNew items 0 [] where
  nxt := rfl
  le := Nat.zero_le _
  delivered := rfl
  held h := by cases h

section
variable {s s' : Stream} {items : List Item} {m : ℕ} {read : Bytes} (h : Received s items m read)
include h

theorem Received.congr (hs : s'.recvSide = s.recvSide) : Received s' items m read := by
  simp only [recvSide, Prod.mk.injEq] at hs
  obtain ⟨hbuf, hnxt, _, hdeliv⟩ := hs
  refine ⟨hnxt.trans h.nxt, h.le, hdeliv ▸ h.delivered, fun hj => ?_⟩
  rw [hbuf] at hj ⊢
  exact h.held hj

theorem Received.append (more : List Item) : Received s (items ++ more) m read := by
  refine ⟨h.nxt, h.le.trans (by simp), ?_, fun hj => ?_⟩
  · rw [take_append_of_le_length h.le]
    exact h.delivered
  · obtain ⟨n, it, hit, hcore⟩ := h.held hj
    refine ⟨n, it, ?_, hcore⟩
    rw [getElem?_append_left (List.getElem?_eq_some_iff.mp hit).1, hit]

variable {d : Bytes}

theorem Received.buffer (hd : Carries items d)
    (hshort : ∀ it ∈ items, it.bytes.length ≤ streamSegPayload)
    (hflags : d.getD 0 0 &&& (fData ||| fFin) ≠ 0) :
    Received (s.buffer (d.getD 0 0) (get32 d 1) (d.drop streamHeader)) items m read := by
  rcases s.buffer_cases (d.getD 0 0) (get32 d 1) (d.drop streamHeader) with
    heq | ⟨seg, _, _, hseg, heq⟩
  · rwa [heq]
  · rw [heq]
    refine ⟨h.nxt, h.le, h.delivered, fun {j} hj => ?_⟩
    simp only [update_apply] at hj ⊢
    split_ifs at hj ⊢
    · obtain ⟨n, it, hit, hseq, hfl, hdata⟩ := hd hflags
      refine ⟨n, it, hit, ?_⟩
      rw [hseg, hseq, hfl, hdata,
        take_of_length_le (hshort it (mem_of_getElem? hit))]
    · exact h.held hj

section
variable (hlen : items.length < 2 ^ 32)
include hlen

theorem Received.next_item (hd : s.Deliverable) :
    ∃ it, items[m]? = some it ∧ (s.rbuf (slot s.rcvNxt)).flags = it.flags ||| fAck ∧
      (s.rbuf (slot s.rcvNxt)).data = it.bytes := by
  obtain ⟨n, it, hit, hcore⟩ := h.held hd.1
  simp only [Seg.core, Prod.mk.injEq] at hcore
  have hn := (List.getElem?_eq_some_iff.mp hit).1
  obtain rfl : n = m := by
    have hnm := congrArg UInt32.toNat (hcore.1.symm.trans (hd.2.1.trans h.nxt))
    have hle := h.le
    rw [UInt32.toNat_ofNat', UInt32.toNat_ofNat'] at hnm
    omega
  exact ⟨it, hit, hcore.2⟩

theorem Received.deliverOne (hd : s.Deliverable) : Received s.deliverOne items (m + 1) read := by
  obtain ⟨it, hit, _, hdata⟩ := h.next_item hlen hd
  have hn := (List.getElem?_eq_some_iff.mp hit).1
  have hfit := hd.2.2
  refine ⟨?_, hn, ?_, fun {j} hj => ?_⟩
  · change s.rcvNxt + 1 = _
    rw [h.nxt, UInt32.ofNat_add]
    rfl
  · change read ++ (s.deliv.append _).contents = _
    rw [Ring.contents_append, take_of_length_le hfit, ← append_assoc, h.delivered,
      take_add_one, hit, payload_append, hdata]
    exact congrArg _ (payload_singleton it).symm
  · change (Function.update s.rbuf (slot s.rcvNxt) _ j).present = true at hj
    change ∃ n it, _ ∧ (Function.update s.rbuf (slot s.rcvNxt) _ j).core = _
    by_cases hslot : j = slot s.rcvNxt
    · rw [hslot, Function.update_self] at hj
      simp at hj
    · rw [Function.update_of_ne hslot] at hj ⊢
      exact h.held hj

theorem Received.deliverLoop (fuel : ℕ) :
    ∃ m', Received (Stream.deliverLoop fuel s) items m' read := by
  refine deliverLoop_induct (P := fun t => ∃ m', Received t items m' read) ?_ ⟨m, h⟩ fuel
  rintro t ⟨m', ht⟩ hd
  exact ⟨m' + 1, ht.deliverOne hlen hd⟩

theorem Received.streamInput (hd : Carries items d)
    (hshort : ∀ it ∈ items, it.bytes.length ≤ streamSegPayload) (now : UInt32) :
    ∃ m', Received (s.streamInput d now).1 items m' read := by
  unfold Stream.streamInput
  split_ifs with hhead hflags
  · exact ⟨m, h⟩
  · exact ⟨m, h.congr (s.recvSide_takeAck d now)⟩
  · have hack := h.congr (s.recvSide_takeAck d now)
    exact (hack.buffer hd hshort hflags).deliverLoop hlen streamWinMax

end

variable (now : UInt32)

theorem Received.pumpSend : Received (s.pumpSend now).1 items m read :=
  h.congr (recvSide_pumpLoop _ now _ s)

theorem Received.streamWrite (data : Bytes) (now : UInt32) :
    Received (s.streamWrite data now).2.1 items m read :=
  Received.pumpSend (s := { s with pend := s.pend.append data }) (h.congr rfl) now

theorem Received.streamFinish : Received (s.streamFinish now).1 items m read :=
  Received.pumpSend (s := { s with finQueued := true }) (h.congr rfl) now

theorem Received.streamTick : Received (s.streamTick now).1 items m read :=
  h.congr (s.recvSide_streamTick now)

theorem Received.streamRead (cap : ℕ) :
    Received (s.streamRead cap).2 items m (read ++ (s.streamRead cap).1) := by
  refine ⟨h.nxt, h.le, ?_, h.held⟩
  have hle : min s.deliv.count cap ≤ s.deliv.count := min_le_left _ _
  change read ++ s.deliv.peek _ ++ (s.deliv.remove _).contents = _
  rw [Ring.peek_eq_take _ hle, Ring.contents_remove, append_assoc, take_append_drop,
    h.delivered]

theorem Received.read_isPrefix : read <+: payload items := by
  have hsplit : payload items = payload (items.take m) ++ payload (items.drop m) := by
    rw [← payload_append, take_append_drop]
  rw [hsplit, ← h.delivered, append_assoc]
  exact prefix_append _ _

end

def modRecv (s : Stream) : Stream :=
  { s with rbuf := fun _ => Seg.zero, rcvNxt := 0, peerFin := false, deliv := Ring.empty 0 }

theorem modRecv_accept (s : Stream) (flags : UInt8) (seq : UInt32) (data : Bytes) :
    (s.buffer flags seq data).deliver.modRecv = s.modRecv := by
  refine deliverLoop_induct (P := fun t => t.modRecv = s.modRecv) (fun _ ht _ => ht) ?_ _
  rcases s.buffer_cases flags seq data with heq | ⟨_, _, _, _, heq⟩ <;> rw [heq]
  rfl

theorem finSide_streamInput (s : Stream) (d : Bytes) (now : UInt32) :
    (s.streamInput d now).1.finSide = s.finSide := by
  have hack : (s.takeAck d now).1.finSide = s.finSide :=
    side_eq finSide (s.modAck_takeAck d now) fun _ => rfl
  unfold Stream.streamInput
  split_ifs
  · rfl
  · exact hack
  · exact (side_eq finSide (modRecv_accept _ _ _ _) fun _ => rfl).trans hack

theorem Sent.streamInput {items : List Item} (h : Sent s items) (d : Bytes) (now : UInt32) :
    Cuts items s.pend.contents (s.streamInput d now) [] := by
  have hpend : (s.takeAck d now).1.pend = s.pend :=
    side_eq pend (s.modAck_takeAck d now) fun _ => rfl
  obtain ⟨hsent, hout⟩ := h.takeAck d now
  unfold Stream.streamInput
  split_ifs with hhead hflags
  · exact h.cuts_nil
  · exact cuts_of_pend hsent hpend hout
  · have hside := (s.takeAck d now).1.modRecv_accept (d.getD 0 0) (get32 d 1) (d.drop streamHeader)
    apply cuts_of_pend (hsent.congr (side_eq sendSide hside fun _ => rfl :))
    · exact (side_eq pend hside fun _ => rfl :).trans hpend
    · intro e he
      rcases mem_append.mp he with he | he
      · exact hout e he
      · rw [mem_singleton.mp he]
        exact carries_emitAck items _

end Stream

namespace Stream

def Bounded (s : Stream) : Prop := ∀ j, (s.sbuf j).data.length ≤ streamSegPayload

def Fits (out : Stream × List Bytes) : Prop :=
  out.1.Bounded ∧ ∀ d ∈ out.2, d.length ≤ streamSegMax

theorem bounded_streamNew : Bounded streamNew := fun _ => Nat.zero_le _

theorem length_emitAck_le (s : Stream) : s.emitAck.length ≤ streamSegMax := by
  have hsack : s.writeSack.length ≤ streamSackBytes := by
    unfold writeSack
    split_ifs
    · exact Nat.zero_le _
    · simp [put64, streamSackBytes]
  simp only [emitAck, put32, put16, length_cons, length_append, length_bigEndian]
  unfold streamSackBytes at hsack
  unfold streamSegMax streamHeader streamSegPayload
  omega

theorem length_emitSeg_le (s : Stream) {seg : Seg} (h : seg.data.length ≤ streamSegPayload) :
    (s.emitSeg seg).length ≤ streamSegMax := by
  rw [length_emitSeg]
  exact Nat.add_le_add_left h _

namespace Bounded
variable {s s' : Stream} (h : s.Bounded)
include h

theorem of_sendSide (hs : s'.sendSide = s.sendSide) : s'.Bounded := by
  intro j
  have hdata := congrArg (·.2.2) (congrFun (congrArg (·.2.2.2) hs) j)
  exact (congrArg length hdata).trans_le (h j)

theorem retransmitRange (now limit : UInt32) : Fits (s.retransmitRange now limit) := by
  refine ⟨h.of_sendSide (side_eq sendSide (modRetx_retransmitLoop now limit _ _ s) fun _ => rfl),
    fun d hd => ?_⟩
  obtain ⟨i, _, _, _, rfl⟩ := (mem_retransmitLoop now limit).mp hd
  exact length_emitSeg_le s (h _)

theorem onAck (ack now : UInt32) : Fits (s.onAck ack now) := by
  unfold Stream.onAck
  split_ifs
  · exact ⟨fun j => by rw [newAck_sbuf]; exact h j, by simp⟩
  · refine ⟨h.of_sendSide (side_eq sendSide (s.modResend_dupAck now) fun _ => rfl), ?_⟩
    unfold Stream.dupAck
    split_ifs
    · simp
    · have hloss : ({ s with dupacks := s.dupacks + 1 }.ccOnLoss false).Bounded := h
      exact (hloss.retransmitRange now _).2
    · simp
  · exact ⟨h, by simp⟩

theorem takeAck (seg : Bytes) (now : UInt32) : Fits (s.takeAck seg now) := by
  rw [takeAck_eq]
  exact (h.of_sendSide (s.sendSide_sackRead seg)).onAck (get32 seg 5) now

theorem streamInput (seg : Bytes) (now : UInt32) : Fits (s.streamInput seg now) := by
  obtain ⟨hend, hout⟩ := h.takeAck seg now
  unfold Stream.streamInput
  split_ifs
  · exact ⟨h, by simp⟩
  · exact ⟨hend, hout⟩
  · refine ⟨hend.of_sendSide (side_eq sendSide (modRecv_accept _ _ _ _) fun _ => rfl :),
      fun d hd => ?_⟩
    rcases mem_append.mp hd with hd | hd
    · exact hout d hd
    · rw [mem_singleton.mp hd]
      exact length_emitAck_le _

theorem round {now : UInt32} {d : Bytes} (hround : Round now s s' d) :
    s'.Bounded ∧ d.length ≤ streamSegMax := by
  obtain ⟨it, p, fq, fs, rfl, rfl, hshort⟩ := hround.spec
  refine ⟨fun j => ?_, length_emitSeg_le _ hshort⟩
  simp only [enqueue, update_apply]
  split_ifs
  · exact hshort
  · exact h j

variable (now : UInt32)

theorem pumpSend : Fits (s.pumpSend now) :=
  pumpLoop_induct (P := Bounded) (fun _ _ _ hs _ hround => hs.round hround) h _

theorem streamWrite (data : Bytes) (now : UInt32) : Fits (s.streamWrite data now).2 :=
  Bounded.pumpSend (s := { s with pend := s.pend.append data }) h now

theorem streamFinish : Fits (s.streamFinish now) :=
  Bounded.pumpSend (s := { s with finQueued := true }) h now

theorem timeout : Fits (s.timeout now) := by
  have hback := h.of_sendSide (side_eq sendSide s.modControl_backOff fun _ => rfl)
  exact ⟨h.of_sendSide (side_eq sendSide (s.modResend_timeout now) fun _ => rfl),
    (hback.retransmitRange now s.sndNxt).2⟩

theorem streamTick : Fits (s.streamTick now) := by
  obtain ⟨hpump, hout⟩ := h.pumpSend now
  rcases s.streamTick_cases now with ⟨_, _, heq⟩ | ⟨_, heq⟩
  · rw [heq]
    refine ⟨(hpump.timeout now).1, fun d hd => ?_⟩
    rcases mem_append.mp hd with hd | hd
    · exact hout d hd
    · exact (hpump.timeout now).2 d hd
  · rw [heq]
    exact ⟨hpump, hout⟩

end Bounded

theorem streamTick_streamNew (now : UInt32) : streamNew.streamTick now = (streamNew, []) := by
  have hpump : streamNew.pumpSend now = (streamNew, []) := pumpLoop_of_none rfl _ _
  rcases streamNew.streamTick_cases now with ⟨hdue, _⟩ | ⟨_, heq⟩
  · rw [hpump] at hdue
    exact absurd rfl hdue.1
  · rw [heq, hpump]

theorem streamRead_streamNew (cap : ℕ) : streamNew.streamRead cap = ([], streamNew) := by
  have hcount : min streamNew.deliv.count cap = 0 := Nat.zero_min cap
  rw [streamRead, hcount]
  rfl

end Stream

end Norn
