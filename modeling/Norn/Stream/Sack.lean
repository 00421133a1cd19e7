import Norn.Stream.Exchange
import Norn.Stream.FastRetransmit

/-!
# Selective acknowledgement

A sender believes what its peer has reported, and a receiver never loses a segment.
-/

namespace Norn
open UInt32 Function List Option

namespace Stream

/-- The receiver has delivered or holds the segment. -/
def Has (t : Stream) (q : UInt32) : Prop :=
  q.toNat < t.rcvNxt.toNat ∨ (t.rbuf (slot q)).present = true ∧ (t.rbuf (slot q)).seq = q

structure Grows (t t' : Stream) : Prop where
  nxt : t.rcvNxt.toNat ≤ t'.rcvNxt.toNat
  has : ∀ {q : UInt32}, t.Has q → t'.Has q

theorem Grows.refl (t : Stream) : Grows t t := ⟨le_rfl, id⟩

variable {t t' : Stream} {d : Bytes}

theorem Grows.trans {t'' : Stream} (h : Grows t t') (h' : Grows t' t'') : Grows t t'' :=
  ⟨h.nxt.trans h'.nxt, fun hq => h'.has (h.has hq)⟩

theorem grows_of_recv (hbuf : t'.rbuf = t.rbuf) (hnxt : t'.rcvNxt = t.rcvNxt) : Grows t t' := by
  refine ⟨hnxt ▸ le_rfl, fun hq => ?_⟩
  unfold Has at hq ⊢
  rwa [hbuf, hnxt]

theorem grows_of_recvSide (h : t'.recvSide = t.recvSide) : Grows t t' := by
  simp only [recvSide, Prod.mk.injEq] at h
  exact grows_of_recv h.1 h.2.1

theorem grows_buffer (t : Stream) (flags : UInt8) (seq : UInt32) (data : Bytes) :
    Grows t (t.buffer flags seq data) := by
  rcases t.buffer_cases flags seq data with heq | ⟨seg, habsent, _, _, heq⟩
  · rw [heq]
    exact Grows.refl t
  · rw [heq]
    refine ⟨le_rfl, fun {q} hq => ?_⟩
    rcases hq with hdelivered | ⟨hpresent, hseq⟩
    · exact .inl hdelivered
    · have hslot : slot q ≠ slot seq := by
        intro hslot
        rw [hslot, habsent] at hpresent
        cases hpresent
      refine .inr ?_
      simp only [update_of_ne hslot]
      exact ⟨hpresent, hseq⟩

theorem grows_deliverOne (hd : t.Deliverable) (hlt : t.rcvNxt.toNat + 1 < 2 ^ 32) :
    Grows t t.deliverOne := by
  have hnxt : t.deliverOne.rcvNxt.toNat = t.rcvNxt.toNat + 1 := by
    change (t.rcvNxt + 1).toNat = _
    rw [UInt32.toNat_add, UInt32.toNat_one]
    omega
  refine ⟨by omega, fun {q} hq => ?_⟩
  rcases hq with hdelivered | ⟨hpresent, hseq⟩
  · exact .inl (by omega)
  · by_cases hslot : slot q = slot t.rcvNxt
    · left
      have hq : q = t.rcvNxt := by rw [← hseq, hslot, hd.2.1]
      rw [hnxt, hq]
      omega
    · right
      have hbuf : t.deliverOne.rbuf (slot q) = t.rbuf (slot q) := Function.update_of_ne hslot _ _
      rw [hbuf]
      exact ⟨hpresent, hseq⟩

/-- The datagram reports only what the stream has. -/
structure Reports (t : Stream) (d : Bytes) : Prop where
  ack : (get32 d 5).toNat ≤ t.rcvNxt.toNat
  sack : d.getD 0 0 &&& fSack ≠ 0 → streamHeader + streamSackBytes ≤ d.length →
    ∀ i < 63, (get64 d streamHeader).testBit i = true → t.Has (get32 d 5 + 1 + ofNat i)

theorem Reports.mono (h : Reports t d) (hg : Grows t t') : Reports t' d :=
  ⟨h.ack.trans hg.nxt, fun hflag hlen i hi hbit => hg.has (h.sack hflag hlen i hi hbit)⟩

theorem reports_emitAck (t : Stream) : Reports t t.emitAck := by
  refine ⟨by rw [emitAck_ack], fun hflag _ i hi hbit => ?_⟩
  by_cases hzero : t.sackBitmap = 0
  · rw [emitAck_flags_of_zero hzero] at hflag
    exact absurd (by decide) hflag
  · obtain ⟨_, _, hread⟩ := emitAck_of_ne_zero hzero
    rw [hread, sackBitmap_testBit] at hbit
    rw [emitAck_ack]
    exact .inr hbit.2

theorem reports_emitSeg {s : Stream} (hnxt : s.rcvNxt = t.rcvNxt) {seg : Seg} {it : Item}
    (hflags : seg.flags = it.flags) : Reports t (s.emitSeg seg) := by
  refine ⟨by rw [emitSeg_ack, hnxt], fun hflag => ?_⟩
  rw [emitSeg_flags, hflags] at hflag
  refine absurd ?_ hflag
  cases it with
  | data => exact (by decide : (fData ||| fAck) &&& fSack = 0)
  | fin => decide

theorem rcvNxt_of_recvSide (h : t'.recvSide = t.recvSide) : t'.rcvNxt = t.rcvNxt := by
  simp only [recvSide, Prod.mk.injEq] at h
  exact h.2.1

theorem reports_pumpSend (t : Stream) (now : UInt32) : ∀ d ∈ (t.pumpSend now).2, Reports t d := by
  refine (pumpLoop_induct (P := fun u => u.recvSide = t.recvSide) (fun u u' d hu _ hr => ?_)
    rfl _).2
  have hside := hr.recvSide.trans hu
  obtain ⟨it, _, _, _, _, rfl, _⟩ := hr.spec
  exact ⟨hside, reports_emitSeg (rcvNxt_of_recvSide hside) rfl⟩

section
variable {t : Stream} {items : List Item} (h : Sent t items)
include h

theorem Sent.reports_retransmitRange (now limit : UInt32) :
    ∀ d ∈ (t.retransmitRange now limit).2, Reports t d := by
  intro d hd
  obtain ⟨i, hi, _, _, rfl⟩ := (mem_retransmitLoop now limit).mp hd
  obtain ⟨n, it, _, _, hheld⟩ := h.of_inflight hi
  simp only [Holds, Seg.core, Prod.mk.injEq] at hheld
  exact reports_emitSeg rfl hheld.2.1

theorem Sent.reports_timeout (now : UInt32) : ∀ d ∈ (t.timeout now).2, Reports t d := by
  intro d hd
  rw [timeout_out] at hd
  have hback := h.backOff.reports_retransmitRange now t.sndNxt d hd
  exact hback.mono (grows_of_recvSide (side_eq recvSide t.modControl_backOff.symm fun _ => rfl))

theorem Sent.reports_onAck (ack now : UInt32) : ∀ d ∈ (t.onAck ack now).2, Reports t d := by
  unfold Stream.onAck
  split_ifs
  · simp
  · unfold Stream.dupAck
    split_ifs
    · simp
    · intro d hd
      have hloss : Sent ({ t with dupacks := t.dupacks + 1 }.ccOnLoss false) items := h.congr rfl
      exact (hloss.reports_retransmitRange now _ d hd).mono (grows_of_recvSide rfl)
    · simp
  · simp

theorem Sent.reports_takeAck (d : Bytes) (now : UInt32) : ∀ e ∈ (t.takeAck d now).2, Reports t e := by
  intro e he
  rw [takeAck_eq] at he
  have hread := (h.congr (t.sendSide_sackRead d)).reports_onAck _ now e he
  exact hread.mono (grows_of_recvSide (side_eq recvSide (t.modRead_sackRead d).symm fun _ => rfl))

theorem Sent.reports_streamTick (now : UInt32) : ∀ d ∈ (t.streamTick now).2, Reports t d := by
  rcases t.streamTick_cases now with ⟨_, _, heq⟩ | ⟨_, heq⟩
  · intro d hd
    rw [heq] at hd
    rcases mem_append.mp hd with hd | hd
    · exact t.reports_pumpSend now d hd
    · obtain ⟨more, hcuts, _⟩ := h.pumpSend now
      exact (hcuts.sent.reports_timeout now d hd).mono
        (grows_of_recvSide (recvSide_pumpLoop _ now _ t).symm)
  · rw [heq]
    exact t.reports_pumpSend now

end

theorem Received.grows_streamInput {items : List Item} {m : ℕ} {read : Bytes}
    (h : Received t items m read) (hlen : items.length < 2 ^ 32) (hd : Carries items d)
    (hshort : ∀ it ∈ items, it.bytes.length ≤ streamSegPayload) (now : UInt32) :
    Grows t (t.streamInput d now).1 := by
  have hack := t.recvSide_takeAck d now
  unfold Stream.streamInput
  split_ifs with hhead hflags
  · exact Grows.refl t
  · exact grows_of_recvSide hack
  · have hbuf := (h.congr hack).buffer hd hshort hflags
    have hgrows := (grows_of_recvSide hack).trans (grows_buffer (t.takeAck d now).1 (d.getD 0 0)
      (get32 d 1) (d.drop streamHeader))
    refine (deliverLoop_induct (P := fun u => (∃ m', Received u items m' read) ∧ Grows t u) ?_
      ⟨⟨m, hbuf⟩, hgrows⟩ streamWinMax).2
    rintro u ⟨⟨m', hu⟩, hg⟩ hdel
    have hnext := hu.deliverOne hlen hdel
    refine ⟨⟨m' + 1, hnext⟩, hg.trans (grows_deliverOne hdel ?_)⟩
    have hle := hnext.le
    rw [hu.nxt, toNat_ofNat']
    omega

end Stream

namespace Stream

/-- What the sender believes of its peer is true. -/
structure Trusts (s t : Stream) : Prop where
  una : s.sndUna.toNat ≤ t.rcvNxt.toNat
  marks : ∀ i < s.inflight, s.Sacked i → t.Has (s.sndUna + ofNat i)

def markSide (s : Stream) : UInt32 × UInt32 × (ℕ → Bool) :=
  (s.sndUna, s.sndNxt, fun j => (s.sbuf j).sacked)

theorem trusts_streamNew : Trusts streamNew streamNew where
  una := le_rfl
  marks i hi := absurd hi (Nat.not_lt_zero i)

theorem markSide_timeout (s : Stream) (now : UInt32) : (s.timeout now).1.markSide = s.markSide :=
  side_eq markSide (s.modResend_timeout now) fun _ => rfl

variable {now : UInt32} {d : Bytes}

theorem Round.not_sacked {s s' : Stream} (h : Round now s s' d) :
    (s'.sbuf (slot s.sndNxt)).sacked = false := by
  obtain ⟨_, _, _, _, rfl, _⟩ := h.spec
  change (update s.sbuf (slot s.sndNxt) _ (slot s.sndNxt)).sacked = false
  rw [update_self]

section
variable {s s' t t' : Stream} (h : Trusts s t)
include h

theorem Trusts.mono (hg : Grows t t') : Trusts s t' :=
  ⟨h.una.trans hg.nxt, fun i hi hs => hg.has (h.marks i hi hs)⟩

theorem Trusts.congr (hs : s'.markSide = s.markSide) : Trusts s' t := by
  simp only [markSide, Prod.mk.injEq] at hs
  obtain ⟨huna, hnxt, hsacked⟩ := hs
  have hfl : s'.inflight = s.inflight := by rw [inflight, inflight, huna, hnxt]
  refine ⟨huna ▸ h.una, fun i hi hmark => ?_⟩
  rw [huna]
  apply h.marks i (hfl ▸ hi)
  unfold Sacked at hmark ⊢
  rw [← huna, ← congrFun hsacked]
  exact hmark

theorem Trusts.round (hfl : s.inflight < streamWinMax) (hr : Round now s s' d) : Trusts s' t := by
  have huna := hr.sndUna
  refine ⟨huna ▸ h.una, fun i hi hmark => ?_⟩
  rw [hr.inflight hfl] at hi
  unfold Sacked at hmark
  rw [huna] at hmark ⊢
  rcases Nat.lt_succ_iff_lt_or_eq.mp hi with hlt | rfl
  · apply h.marks i hlt
    unfold Sacked
    rwa [hr.sbuf_of_ne] at hmark
    rw [s.sndNxt_eq]
    exact slot_add_ne _ hlt hfl
  · rw [← s.sndNxt_eq, hr.not_sacked] at hmark
    cases hmark

theorem Trusts.pumpSend (now : UInt32) : Trusts (s.pumpSend now).1 t :=
  (pumpLoop_induct (P := fun u => Trusts u t) (Q := fun _ => True)
    (fun _ _ _ hu hfl hr => ⟨hu.round (hfl.trans_le s.sendWindow_le) hr, trivial⟩) h _).1

theorem Trusts.streamTick (now : UInt32) : Trusts (s.streamTick now).1 t := by
  rcases s.streamTick_cases now with ⟨_, _, heq⟩ | ⟨_, heq⟩
  · rw [heq]
    exact (h.pumpSend now).congr (markSide_timeout _ now)
  · rw [heq]
    exact h.pumpSend now

variable {items : List Item} {ack : UInt32}

theorem Trusts.sackOne (hs : Sent s items) {q : UInt32} (hq : t.Has q) : Trusts (s.sackOne q) t := by
  unfold Stream.sackOne
  split_ifs with _ hseq
  · exact h
  · refine ⟨h.una, fun i hi hmark => ?_⟩
    change i < s.inflight at hi
    change ((s.modifySent q _).sbuf (slot (s.sndUna + ofNat i))).sacked = true at hmark
    change t.Has (s.sndUna + ofNat i)
    rw [modifySent_apply] at hmark
    by_cases hslot : slot (s.sndUna + ofNat i) = slot q
    · obtain ⟨n, it, _, hn, hheld⟩ := hs.of_inflight hi
      simp only [Holds, Seg.core, Prod.mk.injEq] at hheld
      have hsame : s.sndUna + ofNat i = q := by rw [hn, ← hheld.1, hslot, hseq]
      rwa [hsame]
    · rw [if_neg hslot] at hmark
      exact h.marks i hi hmark
  · exact h

theorem Trusts.sackRead (hs : Sent s items) (hd : Reports t d) : Trusts (s.sackRead d) t := by
  have hrwnd : Trusts { s with peerRwnd := get16 d 9 } t := h.congr rfl
  unfold Stream.sackRead
  split_ifs with hsack
  · have hstart : Sent { s with peerRwnd := get16 d 9 } items := hs.congr rfl
    refine (sackLoop_induct_bits (P := fun u => Sent u items ∧ Trusts u t)
      (fun i hi hbit u hu => ?_) (And.intro hstart hrwnd)).2
    have hhas := hd.sack hsack.1 hsack.2 i (mem_range.mp hi) hbit
    exact ⟨hu.1.congr (side_eq sendSide (u.modSack_sackOne _) fun _ => rfl), hu.2.sackOne hu.1 hhas⟩
  · exact hrwnd

theorem Trusts.newAck (hwin : s.inflight ≤ streamWinMax) (hadv : 0 < signed (ack - s.sndUna))
    (hnxt : signed (ack - s.sndNxt) ≤ 0) (hack : ack.toNat ≤ t.rcvNxt.toNat) (now : UInt32) :
    Trusts (s.newAck ack now) t := by
  have hfl := inflight_split hwin hadv hnxt now
  refine ⟨hack, fun i hi hmark => ?_⟩
  unfold Sacked at hmark
  rw [newAck_number, newAck_sbuf] at hmark
  rw [newAck_number]
  exact h.marks _ (by omega) hmark

theorem Trusts.onAck (hwin : s.inflight ≤ streamWinMax) (hack : ack.toNat ≤ t.rcvNxt.toNat)
    (now : UInt32) : Trusts (s.onAck ack now).1 t := by
  unfold Stream.onAck
  split_ifs with hadv hdup
  · exact h.newAck hwin hadv.1 hadv.2 hack now
  · exact h.congr (side_eq markSide (s.modResend_dupAck now) fun _ => rfl)
  · exact h

theorem Trusts.streamInput (hs : Sent s items) (hd : Reports t d) (now : UInt32) :
    Trusts (s.streamInput d now).1 t := by
  have hack : Trusts (s.takeAck d now).1 t := by
    rw [takeAck_eq]
    exact (h.sackRead hs hd).onAck (hs.congr (s.sendSide_sackRead d)).window hd.ack now
  unfold Stream.streamInput
  split_ifs
  · exact h
  · exact hack
  · exact hack.congr (side_eq markSide (modRecv_accept _ _ _ _) fun _ => rfl :)

end
end Stream

namespace Endpoint
open Norn.Stream
variable {a a' b b' : Endpoint} {items back : List Item} {c : StreamCall}

theorem assigned_le_call {w : List Bytes} (hc : a.call w c = some a') : a.assigned ≤ a'.assigned := by
  cases c with
  | input k now =>
    obtain ⟨d, _, rfl⟩ := map_eq_some_iff.mp hc
    exact Nat.le_add_right _ _
  | read cap =>
    cases hc
    exact le_rfl
  | _ =>
    cases hc
    exact Nat.le_add_right _ _

structure Mirrors (a b : Endpoint) : Prop where
  trusts : Trusts a.stream b.stream
  reports : ∀ d ∈ b.wire, Reports b.stream d

theorem Mirrors.call_sender (h : Mirrors a b) (hs : a.Sends items)
    (hc : a.call b.wire c = some a') : Mirrors a' b := by
  refine ⟨?_, h.reports⟩
  cases c with
  | write data now =>
    cases hc
    exact Trusts.pumpSend (s := { a.stream with pend := a.stream.pend.append data })
      (h.trusts.congr rfl) now
  | read cap =>
    cases hc
    exact h.trusts.congr rfl
  | finish now =>
    cases hc
    exact Trusts.pumpSend (s := { a.stream with finQueued := true }) (h.trusts.congr rfl) now
  | tick now =>
    cases hc
    exact h.trusts.streamTick now
  | input k now =>
    obtain ⟨d, hd, rfl⟩ := map_eq_some_iff.mp hc
    exact h.trusts.streamInput hs.sent (h.reports d (mem_of_getElem? hd)) now

theorem Mirrors.after (h : Mirrors a b) {out : Stream × List Bytes} (hg : Grows b.stream out.1)
    (hout : ∀ d ∈ out.2, Reports out.1 d) : Mirrors a (b.after out) := by
  refine ⟨h.trusts.mono hg, fun d hd => ?_⟩
  rcases mem_append.mp hd with hd | hd
  · exact (h.reports d hd).mono hg
  · exact hout d hd

theorem Mirrors.call_receiver (h : Mirrors a b) (ha : a.Sends items) (hb : b.Receives items)
    (hlen : items.length < 2 ^ 32) (hback : b.Sends back) (hc : b.call a.wire c = some b') :
    Mirrors a b' := by
  -- a call that leaves the receive side alone sends reports of it
  have hside : ∀ out : Stream × List Bytes, out.1.recvSide = b.stream.recvSide →
      (∀ d ∈ out.2, Reports b.stream d) → Mirrors a (b.after out) := by
    intro out hrecv hout
    have hg := grows_of_recvSide hrecv
    exact h.after hg fun d hd => (hout d hd).mono hg
  cases c with
  | write data now =>
    cases hc
    have hmirrors := hside (b.stream.streamWrite data now).2
      (recvSide_pumpLoop _ now _ _) fun d hd =>
        (reports_pumpSend { b.stream with pend := b.stream.pend.append data } now d hd).mono
          (grows_of_recvSide rfl)
    exact ⟨hmirrors.trusts, hmirrors.reports⟩
  | read cap =>
    cases hc
    have hg : Grows b.stream (b.stream.streamRead cap).2 := grows_of_recv rfl rfl
    exact ⟨h.trusts.mono hg, fun d hd => (h.reports d hd).mono hg⟩
  | finish now =>
    cases hc
    exact hside _ (recvSide_pumpLoop _ now _ _) fun d hd =>
      (reports_pumpSend { b.stream with finQueued := true } now d hd).mono (grows_of_recvSide rfl)
  | tick now =>
    cases hc
    exact hside _ (recvSide_streamTick _ now) (hback.sent.reports_streamTick now)
  | input k now =>
    obtain ⟨d, hd, rfl⟩ := map_eq_some_iff.mp hc
    obtain ⟨m, hm⟩ := hb
    have hg := hm.grows_streamInput hlen (ha.wire d (mem_of_getElem? hd)) ha.sent.short now
    refine h.after hg fun e he => ?_
    have hack := fun e he => (hback.sent.reports_takeAck d now e he).mono hg
    unfold Stream.streamInput at he hack ⊢
    split_ifs at he hack ⊢
    · cases he
    · exact hack e he
    · rcases mem_append.mp he with he | he
      · exact hack e he
      · rw [mem_singleton.mp he]
        exact reports_emitAck _

end Endpoint

namespace Link
open Endpoint Norn.Stream

theorem mirrors_of_run (run : Run system) (k : ℕ) (hk : k ≤ run.len) (b : Bool)
    (hfew : (run.state k b).assigned < 2 ^ 31) : Mirrors (run.state k b) (run.state k !b) := by
  refine run.position_induction (P := fun k => ∀ b, (run.state k b).assigned < 2 ^ 31 →
    Mirrors (run.state k b) (run.state k !b)) (fun b _ => ?_) (fun k hk ih b hfew => ?_) k hk b hfew
  · rw [run.start b, run.start (!b)]
    exact ⟨trusts_streamNew, by simp [Endpoint.new]⟩
  · have hok := ok_of_run run k hk.le
    obtain ⟨x, hx, heq⟩ := map_eq_some_iff.mp (run.steps k hk)
    obtain ⟨items, hflows⟩ := hok b
    rw [← heq] at hfew ⊢
    generalize (run.event k).side = side at hx hfew ⊢
    by_cases hb : b = side
    · subst hb
      rw [update_self] at hfew ⊢
      rw [update_of_ne (by simp)]
      exact (ih b ((assigned_le_call hx).trans_lt hfew)).call_sender hflows.sends hx
    · obtain rfl : side = !b := Bool.eq_not.mpr (Ne.symm hb)
      rw [Bool.not_not] at hx
      rw [update_of_ne hb] at hfew ⊢
      rw [update_self]
      obtain ⟨back, hback⟩ := hok !b
      have hlen : items.length < 2 ^ 32 := by
        have := hflows.sends.assigned
        omega
      exact (ih b hfew).call_receiver hflows.sends (hflows.receives hlen) hlen hback.sends hx

/-- An outstanding segment that is marked is delivered at the peer or held there, with the bytes
that were sent. -/
theorem sacked_delivered_or_held (run : Run system) (k : ℕ) (hk : k ≤ run.len) (b : Bool)
    (hfew : (run.state k b).assigned < 2 ^ 31) (i : ℕ) (hi : i < (run.state k b).stream.inflight)
    (hsacked : (run.state k b).stream.Sacked i) :
    let q := (run.state k b).stream.sndUna + UInt32.ofNat i
    let sent := (run.state k b).stream.sbuf (slot q)
    let held := (run.state k !b).stream.rbuf (slot q)
    q.toNat < (run.state k !b).stream.rcvNxt.toNat ∨
      held.present = true ∧ held.core = (q, sent.flags ||| fAck, sent.data) := by
  intro q sent held
  obtain ⟨items, hflows⟩ := ok_of_run run k hk b
  have hlen : items.length < 2 ^ 31 := hflows.sends.assigned ▸ hfew
  obtain ⟨m, hm⟩ := hflows.receives (by omega)
  have hmirrors := mirrors_of_run run k hk b hfew
  rcases hmirrors.trusts.marks i hi hsacked with hdelivered | ⟨hpresent, hseq⟩
  · exact .inl hdelivered
  · -- both tables name the item by its number, and fewer than 2 ^ 32 items have different numbers
    obtain ⟨n, it, hit, hq, hheld⟩ := hflows.sends.sent.of_inflight hi
    obtain ⟨n', it', hit', hcore⟩ := hm.held hpresent
    simp only [Holds, Seg.core, Prod.mk.injEq] at hheld hcore
    have hn : n' = n := by
      have hnum := congrArg UInt32.toNat (hcore.1.symm.trans (hseq.trans hq))
      have hlt := (List.getElem?_eq_some_iff.mp hit).1
      have hlt' := (List.getElem?_eq_some_iff.mp hit').1
      rw [UInt32.toNat_ofNat', UInt32.toNat_ofNat'] at hnum
      omega
    rw [hn, hit, Option.some.injEq] at hit'
    refine .inr ⟨hpresent, ?_⟩
    simp only [Seg.core, Prod.mk.injEq]
    exact ⟨hseq, by rw [hcore.2.1, hheld.2.1, hit'], by rw [hcore.2.2, hheld.2.2, hit']⟩

/-- The first of two segments is lost; the second is held and reported. -/
def holeRun : Run system :=
  runOf [⟨false, .write [104] 0⟩, ⟨false, .write [105] 0⟩, ⟨true, .input 1 5⟩, ⟨false, .input 0 9⟩]
    (by decide +kernel)

theorem holeRun_held : (holeRun.state 4 false).stream.Sacked 1 ∧
    ((ofNat 1).toNat < (holeRun.state 4 true).stream.rcvNxt.toNat ∨
      ((holeRun.state 4 true).stream.rbuf 1).present = true ∧
        ((holeRun.state 4 true).stream.rbuf 1).core = (1, fData ||| fAck, [105])) := by
  have hsacked : (holeRun.state 4 false).stream.Sacked 1 := by
    unfold Sacked
    decide +kernel
  exact ⟨hsacked, sacked_delivered_or_held holeRun 4 (by decide) false (by decide +kernel) 1
    (by decide +kernel) hsacked⟩

/-- The bytes of the outstanding segments, oldest first. -/
def outstanding (s : Stream) : Bytes :=
  (range s.inflight).flatMap fun i => (s.sbuf (slot (s.sndUna + ofNat i))).data

theorem payload_outstanding {s : Stream} {items : List Item} (h : s.Sent items) :
    payload (items.drop (items.length - s.inflight)) = outstanding s := by
  have hle := h.inflight_le
  unfold payload outstanding
  rw [flatMap_def, flatMap_def]
  refine congrArg flatten (ext_getElem ?_ fun i hi hi' => ?_)
  · simp only [length_map, length_drop, length_range]
    omega
  · rw [length_map, length_range] at hi'
    have hn : items.length - s.inflight + i < items.length := by omega
    have hheld := h.held (getElem?_eq_getElem hn) (by omega)
    simp only [Holds, Seg.core, Prod.mk.injEq] at hheld
    rw [getElem_map, getElem_map, getElem_drop, getElem_range, h.una,
      ← ofNat_add, hheld.2.2]

/-- Every accepted byte is received at the other end, held for resending, or waits to be sent. -/
theorem accepted_kept (run : Run system) (k : ℕ) (hk : k ≤ run.len) (b : Bool)
    (hfew : (run.state k b).assigned < 2 ^ 31) :
    ∃ acked, (run.state k b).accepted =
        acked ++ outstanding (run.state k b).stream ++ (run.state k b).stream.pend.contents ∧
      acked <+: (run.state k !b).returned ++ (run.state k !b).stream.deliv.contents := by
  obtain ⟨items, hflows⟩ := ok_of_run run k hk b
  have hlen : items.length < 2 ^ 31 := hflows.sends.assigned ▸ hfew
  obtain ⟨m, hm⟩ := hflows.receives (by omega)
  have hsent := hflows.sends.sent
  refine ⟨payload (items.take (items.length - (run.state k b).stream.inflight)), ?_, ?_⟩
  · rw [← payload_outstanding hsent, ← payload_append, take_append_drop]
    exact hflows.sends.accepted
  · have huna := (mirrors_of_run run k hk b hfew).trusts.una
    have hmle := hm.le
    rw [hsent.una, hm.nxt, toNat_ofNat', toNat_ofNat'] at huna
    rw [hm.delivered]
    exact (take_prefix_take_left (by omega)).flatMap Item.bytes

theorem holeRun_kept : ∃ acked, (holeRun.state 4 false).accepted =
      acked ++ outstanding (holeRun.state 4 false).stream ++
        (holeRun.state 4 false).stream.pend.contents ∧
    acked <+: (holeRun.state 4 true).returned ++ (holeRun.state 4 true).stream.deliv.contents :=
  accepted_kept holeRun 4 (by decide) false (by decide +kernel)

end Link

end Norn
