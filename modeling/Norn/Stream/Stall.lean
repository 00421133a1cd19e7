import Norn.Stream.Exchange

/-!
# Stalls of the link

The mark of a segment as selectively acknowledged outlives its reason.
-/

namespace Norn
open Norn.Stream Option Function UInt32
open List

def StreamCall.Clear : StreamCall → Prop
  | .write _ now | .finish now | .tick now | .input _ now => Stream.Clear now
  | .read _ => True

instance : DecidablePred StreamCall.Clear
  | .write _ now | .finish now | .tick now | .input _ now =>
    inferInstanceAs (Decidable (Stream.Clear now))
  | .read _ => inferInstanceAs (Decidable True)

theorem Endpoint.timed_call {a a' : Endpoint} (h : Timed a.stream) {w : List Bytes} {c : StreamCall}
    (hc : c.Clear) (hcall : a.call w c = some a') : Timed a'.stream := by
  cases c with
  | write data now =>
    cases hcall
    exact Timed.pumpSend (s := { a.stream with pend := a.stream.pend.append data }) (h.congr rfl) hc
  | read cap =>
    cases hcall
    exact h.congr rfl
  | finish now =>
    cases hcall
    exact Timed.pumpSend (s := { a.stream with finQueued := true }) (h.congr rfl) hc
  | tick now =>
    cases hcall
    exact h.streamTick hc
  | input k now =>
    obtain ⟨d, _, rfl⟩ := map_eq_some_iff.mp hcall
    exact h.streamInput d hc

namespace Link

theorem timed_of_run (run : Run system) {k : ℕ} (hk : k ≤ run.len)
    (hclear : ∀ i < k, (run.event i).call.Clear) (b : Bool) : Timed (run.state k b).stream := by
  induction k generalizing b with
  | zero =>
    rw [run.start b]
    exact timed_streamNew
  | succ k ih =>
    have hold := ih (by omega) fun i hi => hclear i (by omega)
    obtain ⟨x, hx, heq⟩ := map_eq_some_iff.mp (run.steps k hk)
    rw [← heq, update_apply]
    split_ifs
    · exact Endpoint.timed_call (hold _) (hclear k (by omega)) hx
    · exact hold b

/-- A tick past the deadline resends the oldest segment exactly if it is not marked as selectively
acknowledged. -/
theorem tick_resends_una_iff (run : Run system) (k : ℕ) (hk : k ≤ run.len)
    (hclear : ∀ i < k, (run.event i).call.Clear) (b : Bool) (now : UInt32)
    (hne : (run.state k b).stream.sndUna ≠ (run.state k b).stream.sndNxt)
    (hdue : (run.state k b).stream.rtoDeadline ≤ now) :
    (run.state k b).stream.Resends (run.state k b).stream.sndUna
      ((run.state k b).stream.streamTick now).2 ↔
    ((run.state k b).stream.sbuf (slot (run.state k b).stream.sndUna)).sacked = false := by
  obtain ⟨items, hflows⟩ := ok_of_run run k hk b
  have htimed := timed_of_run run hk hclear b
  exact hflows.sends.sent.tick_resends_iff hne ⟨htimed.armed hne, hdue⟩

theorem exchangeRun_resends : (exchangeRun.state 1 false).stream.Resends
    (exchangeRun.state 1 false).stream.sndUna
      ((exchangeRun.state 1 false).stream.streamTick 300).2 ↔
    ((exchangeRun.state 1 false).stream.sbuf
      (slot (exchangeRun.state 1 false).stream.sndUna)).sacked = false :=
  tick_resends_una_iff exchangeRun 1 (by decide) (by decide +kernel) false 300 (by decide +kernel)
    (by decide +kernel)

end Link

/-- A sender with the numbers `u`, …, `n - 1` in flight and nothing pending. -/
structure Ready (u n : ℕ) (e : Endpoint) : Prop where
  una : e.stream.sndUna = ofNat u
  nxt : e.stream.sndNxt = ofNat n
  pend : e.stream.pend.count = 0
  fin : e.stream.finQueued = false
  cwnd : 2 ≤ e.stream.cwnd
  rcv : e.stream.rcvNxt = 0
  wire : e.wire.length = n

structure Report (d : Bytes) (ack : UInt32) (rwnd : ℕ) : Prop where
  length : streamHeader ≤ d.length
  flags : d.getD 0 0 = fAck
  ack : get32 d 5 = ack
  rwnd : get16 d 9 = rwnd

/-- A receiver that has delivered `n` full segments and returned nothing of them. -/
structure Full (n : ℕ) (e : Endpoint) : Prop where
  rcv : e.stream.rcvNxt = ofNat n
  absent : ∀ j, (e.stream.rbuf j).present = false
  count : e.stream.deliv.count = streamSegPayload * n
  fin : e.stream.peerFin = false
  una : e.stream.sndUna = 0
  nxt : e.stream.sndNxt = 0
  wire : e.wire.length = n
  first : 0 < n → ∃ d, e.wire[0]? = some d ∧ Report d 1 255

def block : Bytes := List.replicate streamSegPayload 0

theorem ready_new : Ready 0 0 Endpoint.new := ⟨rfl, rfl, rfl, rfl, by decide, rfl, rfl⟩

theorem full_new : Full 0 Endpoint.new :=
  ⟨rfl, fun _ => rfl, rfl, rfl, rfl, rfl, rfl, fun h => absurd h (by decide)⟩

section
variable {u n : ℕ} {e : Endpoint}

theorem Ready.write (h : Ready u n e) (hwin : e.stream.inflight < e.stream.sendWindow) {data : Bytes}
    (hpos : 0 < data.length) (hlen : data.length ≤ streamSegPayload) : ∃ e' d,
      (∀ w, e.call w (.write data 0) = some e') ∧ Ready u (n + 1) e' ∧
      e'.stream.peerRwnd = e.stream.peerRwnd ∧ e'.wire = e.wire ++ [d] ∧
      Carrier d (ofNat n) 0 data ∧
      (e'.stream.sbuf (slot (ofNat n))).seq = ofNat n := by
  obtain ⟨p, hp, hwrite⟩ := streamWrite_one h.pend h.fin hwin hpos hlen 0
  refine ⟨{ e.after (e.stream.sentOne p data 0, [(e.stream.sentOne p data 0).emitSeg
    (e.stream.dataSeg data 0)]) with accepted := e.accepted ++ data.take data.length }, _,
    fun w => by rw [Endpoint.call, hwrite], ⟨h.una, ?_, hp, h.fin, h.cwnd, h.rcv, ?_⟩, rfl, rfl, ?_,
    ?_⟩
  · change e.stream.sndNxt + 1 = _
    rw [h.nxt, ofNat_add]
    rfl
  · change (e.wire ++ [_]).length = _
    rw [length_append, h.wire]
    rfl
  · have hcarrier := carrier_emitSeg (e.stream.sentOne p data 0)
      (show (e.stream.dataSeg data 0).flags = fData from rfl)
    rw [← h.nxt, ← h.rcv]
    exact hcarrier
  · change (update e.stream.sbuf (slot e.stream.sndNxt) _ (slot (ofNat n))).seq = _
    rw [h.nxt, update_self]
    exact h.nxt

variable {s : Stream} {rwnd m : ℕ} {r : Bytes}

theorem report_emitAck
    (habsent : ∀ i < 63, (s.rbuf (slot (s.rcvNxt + 1 + ofNat i))).present = false)
    (hrwnd : s.localRwnd = rwnd) : Report s.emitAck s.rcvNxt rwnd where
  length := s.emitAck_length
  flags := emitAck_flags_of_zero (sackBitmap_eq_zero habsent)
  ack := s.emitAck_ack
  rwnd := s.emitAck_rwnd.trans hrwnd

theorem localRwnd_eq (h : s.deliv.count = streamSegPayload * n) (hn : n ≤ streamWinMax) :
    s.localRwnd = streamWinMax - n := by
  unfold localRwnd Ring.space
  rw [h]
  unfold delivCap streamWinMax streamSegPayload at *
  omega

theorem Full.input (h : Full n e) (hn : n < streamWinMax) {d : Bytes}
    (hd : Carrier d (ofNat n) 0 block) : ∃ e' r,
      (∀ w k, w[k]? = some d → e.call w (.input k 0) = some e') ∧ Full (n + 1) e' ∧
      e'.wire = e.wire ++ [r] ∧ Report r (ofNat (n + 1)) (streamWinMax - (n + 1)) := by
  have hblock : block.length = streamSegPayload := length_replicate
  rw [← h.una] at hd
  obtain ⟨t, hinput, hrcv, hcount, hfin, huna, hnxt, hself, hother⟩ :=
    hd.delivered (h.una.trans h.nxt.symm) h.rcv.symm (h.absent _) h.fin hblock.le (by
      rw [Ring.space, h.count, hblock]
      unfold delivCap streamWinMax streamSegPayload at *
      omega) (.inl (h.absent _)) 0
  have habsent : ∀ j, (t.rbuf j).present = false := by
    intro j
    by_cases hj : j = slot e.stream.rcvNxt
    · rw [hj, hself]
    · rw [hother j hj, h.absent]
  have hcount' : t.deliv.count = streamSegPayload * (n + 1) := by
    rw [hcount, h.count, hblock, Nat.mul_succ]
  have hrcv' : t.rcvNxt = ofNat (n + 1) := by
    rw [hrcv, h.rcv, ofNat_add]
    rfl
  have hreport : Report t.emitAck (ofNat (n + 1)) (streamWinMax - (n + 1)) := by
    rw [← hrcv']
    exact report_emitAck (fun _ _ => habsent _) (localRwnd_eq hcount' hn)
  refine ⟨e.after (t, [t.emitAck]), t.emitAck, fun w k hw => ?_, ⟨hrcv', habsent, hcount', hfin,
    huna.trans h.una, hnxt.trans h.nxt, ?_, fun _ => ?_⟩, rfl, hreport⟩
  · rw [Endpoint.call, hw, map_some, hinput]
  · change (e.wire ++ [_]).length = _
    rw [length_append, h.wire]
    rfl
  · change ∃ d, (e.wire ++ [t.emitAck])[0]? = some d ∧ _
    rcases Nat.eq_zero_or_pos n with rfl | hpos
    · rw [length_eq_zero_iff.mp h.wire]
      exact ⟨_, rfl, hreport⟩
    · obtain ⟨d, hfirst, hrep⟩ := h.first hpos
      exact ⟨d, by rw [getElem?_append_left (by rw [h.wire]; exact hpos), hfirst], hrep⟩

theorem Ready.inflight (h : Ready u n e) (hun : u ≤ n) (hn : n ≤ u + streamWinMax) :
    e.stream.inflight = n - u := by
  unfold Stream.inflight streamWinMax at *
  rw [h.una, h.nxt, UInt32.toNat_sub, UInt32.toNat_ofNat', UInt32.toNat_ofNat']
  omega

theorem Ready.ofNat_sub_una (h : Ready u n e) (hum : u ≤ m) (hm : m ≤ u + streamWinMax) :
    (UInt32.ofNat m - e.stream.sndUna).toNat = m - u := by
  unfold streamWinMax at hm
  rw [h.una, UInt32.toNat_sub, UInt32.toNat_ofNat', UInt32.toNat_ofNat']
  omega

theorem Report.streamInput {ack : UInt32} (h : Report r ack rwnd) (now : UInt32) :
    s.streamInput r now = { s with peerRwnd := rwnd }.onAck ack now := by
  have hsack : ¬ (r.getD 0 0 &&& fSack ≠ 0 ∧ streamHeader + streamSackBytes ≤ r.length) := by
    rw [h.flags]
    exact fun hs => hs.1 (by decide)
  have hflags : r.getD 0 0 &&& (fData ||| fFin) = 0 := by
    rw [h.flags]
    decide
  have hlen := h.length
  rw [Stream.streamInput, if_neg (by omega)]
  simp only [if_pos hflags]
  rw [takeAck_eq, sackRead, if_neg hsack, h.ack, h.rwnd]

theorem Ready.ack (h : Ready u n e) (hum : u < m) (hmn : m ≤ n) (hn : n ≤ u + streamWinMax)
    (hr : Report r (ofNat m) rwnd) : ∃ e',
      (∀ w k, w[k]? = some r → e.call w (.input k 0) = some e') ∧ Ready m n e' ∧
      e'.stream.sbuf = e.stream.sbuf := by
  have hinput := hr.streamInput (s := e.stream) 0
  have hun := h.inflight (by omega) hn
  have hmu := h.ofNat_sub_una hum.le (by omega)
  generalize hs₁ : { e.stream with peerRwnd := rwnd } = s₁ at hinput
  have hfl : s₁.inflight = n - u := by
    rw [← hs₁]
    exact hun
  have huna : s₁.sndUna = e.stream.sndUna := by rw [← hs₁]
  rw [onAck_of_advance (by rw [huna]; omega) (by rw [huna]; omega) (by omega)] at hinput
  have hside := s₁.modAdvance_newAck (ofNat m) 0
  refine ⟨e.after (s₁.newAck (ofNat m) 0, []),
    fun w k hw => by rw [Endpoint.call, hw, map_some, hinput],
    ⟨rfl, (side_eq sndNxt hside fun _ => rfl).trans (hs₁ ▸ h.nxt),
      (side_eq (·.pend.count) hside fun _ => rfl).trans (hs₁ ▸ h.pend),
      (side_eq finQueued hside fun _ => rfl).trans (hs₁ ▸ h.fin), ?_,
      (side_eq rcvNxt hside fun _ => rfl).trans (hs₁ ▸ h.rcv), ?_⟩, ?_⟩
  · refine le_trans ?_ (le_newAck_cwnd _ _ _)
    exact le_min (hs₁ ▸ h.cwnd) (by decide)
  · change (e.wire ++ []).length = n
    rw [append_nil, h.wire]
  · change (s₁.newAck _ _).sbuf = _
    rw [newAck_sbuf, ← hs₁]

theorem Ready.stale (h : Ready n n e) (hn : 1 < n) (hle : n ≤ streamWinMax) (hr : Report r 1 rwnd) :
    ∃ e', (∀ w k, w[k]? = some r → e.call w (.input k 0) = some e') ∧
      Ready n n e' ∧ e'.stream.peerRwnd = rwnd := by
  have hold : { e.stream with peerRwnd := rwnd }.onAck 1 0 =
      ({ e.stream with peerRwnd := rwnd }, []) := by
    have hsign : signed (1 - e.stream.sndUna) < 0 := by
      rw [signed_neg_iff, h.una, UInt32.toNat_sub, UInt32.toNat_ofNat', UInt32.toNat_one]
      unfold streamWinMax at hle
      omega
    rw [onAck, if_neg, if_neg]
    · rintro ⟨_, hne⟩
      exact hne (h.una.trans h.nxt.symm)
    · rintro ⟨hpos, _⟩
      exact absurd hpos (not_lt.mpr hsign.le)
  have hinput := hr.streamInput (s := e.stream) 0
  rw [hold] at hinput
  refine ⟨e.after ({ e.stream with peerRwnd := rwnd }, []),
    fun w k hw => by rw [Endpoint.call, hw, Option.map_some, hinput],
    ⟨h.una, h.nxt, h.pend, h.fin, h.cwnd, h.rcv, ?_⟩, rfl⟩
  change (e.wire ++ []).length = n
  rw [append_nil, h.wire]

theorem Ready.marked {m : ℕ} (h : Ready u n e) (hum : u < m) (hmn : m < n)
    (hn : n ≤ u + streamWinMax) (hseq : (e.stream.sbuf (slot (ofNat m))).seq = ofNat m)
    {t : Stream} (hack : t.rcvNxt = ofNat u) (hroom : t.localRwnd = 0)
    {i : ℕ} (hm : m = u + 1 + i) (hbit : t.sackBitmap.testBit i = true) : ∃ e',
      (∀ w k, w[k]? = some t.emitAck → e.call w (.input k 0) = some e') ∧ Ready u n e' ∧
      (e'.stream.sbuf (slot (ofNat m))).sacked = true := by
  have hi : i < 63 := ((t.sackBitmap_testBit i).mp hbit).1
  have hne : t.sackBitmap ≠ 0 := by
    intro hzero
    rw [hzero, Nat.zero_testBit] at hbit
    cases hbit
  obtain ⟨hflag, hlen, hbm⟩ := emitAck_of_ne_zero hne
  generalize hv : { e.stream with peerRwnd := 0 }.applySack (ofNat u) t.sackBitmap = v
  have honly := modSack_applySack { e.stream with peerRwnd := 0 } (ofNat u) t.sackBitmap
  rw [hv] at honly
  have hsacked : (v.sbuf (slot (ofNat m))).sacked = true := by
    rw [← hv]
    refine applySack_marks hi hbit ?_ ⟨?_, ?_, hseq⟩
    · rw [hm, ofNat_add, ofNat_add]
      rfl
    · change (ofNat m - e.stream.sndUna).toNat < e.stream.inflight
      rw [h.ofNat_sub_una hum.le (by omega), h.inflight (by omega) hn]
      omega
    · change e.stream.inflight ≤ _
      rw [h.inflight (by omega) hn]
      omega
  have huna : v.sndUna = ofNat u := (side_eq sndUna honly fun _ => rfl).trans h.una
  have hnxt : v.sndNxt = ofNat n := (side_eq sndNxt honly fun _ => rfl).trans h.nxt
  have hout : v.sndUna ≠ v.sndNxt := by
    intro heq
    have hzero : v.inflight = 0 := by simp [Stream.inflight, heq]
    have hfl := h.inflight (by omega) hn
    unfold Stream.inflight at hzero hfl
    rw [huna, hnxt, ← h.una, ← h.nxt, hfl] at hzero
    omega
  have hinput : e.stream.streamInput t.emitAck 0 = ({ v with dupacks := 0 }, []) := by
    have hread : e.stream.sackRead t.emitAck = v := by
      rw [sackRead, if_pos ⟨hflag, hlen⟩, emitAck_rwnd, hroom, emitAck_ack, hack, hbm, hv]
    have hdup : v.onAck (ofNat u) 0 = ({ v with dupacks := 0 }, []) := by
      have hrwnd : v.peerRwnd = 0 := side_eq peerRwnd honly fun _ => rfl
      rw [onAck, if_neg (by rw [huna]; simp [signed_eq]), if_pos ⟨huna.symm, hout⟩, dupAck,
        if_pos hrwnd]
    have hhead := t.emitAck_length
    rw [Stream.streamInput, if_neg (by omega)]
    simp only [if_pos t.emitAck_flags]
    rw [takeAck_eq, hread, emitAck_ack, hack, hdup]
  refine ⟨e.after ({ v with dupacks := 0 }, []),
    fun w k hw => by rw [Endpoint.call, hw, map_some, hinput],
    ⟨huna, hnxt, (side_eq (·.pend.count) honly fun _ => rfl).trans h.pend,
      (side_eq finQueued honly fun _ => rfl).trans h.fin,
      h.cwnd.trans_eq (side_eq Stream.cwnd honly fun _ => rfl).symm,
      (side_eq rcvNxt honly fun _ => rfl).trans h.rcv, ?_⟩, hsacked⟩
  change (e.wire ++ []).length = n
  rw [append_nil, h.wire]

theorem Full.overrun (h : Full streamWinMax e) {x y : UInt8} {d₁ d₂ : Bytes}
    (hd₁ : Carrier d₁ (UInt32.ofNat 256) 0 [x]) (hd₂ : Carrier d₂ (UInt32.ofNat 257) 0 [y]) :
    ∃ (e₁ e₂ e₃ : Endpoint) (t₁ t₂ : Stream),
      (∀ w k, w[k]? = some d₂ → e.call w (.input k 0) = some e₁) ∧
      (∀ w, e₁.call w (.read 1) = some e₂) ∧
      (∀ w k, w[k]? = some d₁ → e₂.call w (.input k 0) = some e₃) ∧
      e₃.wire = e.wire ++ [t₁.emitAck] ++ [t₂.emitAck] ∧ t₁.rcvNxt = UInt32.ofNat 256 ∧
      t₁.localRwnd = 0 ∧ t₁.sackBitmap.testBit 0 = true ∧
      Report t₂.emitAck (UInt32.ofNat 257) 0 := by
  have hrcv : e.stream.rcvNxt = UInt32.ofNat 256 := h.rcv
  have hidle : e.stream.sndUna = e.stream.sndNxt := h.una.trans h.nxt.symm
  have hshort : ∀ z : UInt8, [z].length ≤ streamSegPayload := fun _ =>
    show 1 ≤ streamSegPayload by decide
  rw [← h.una] at hd₁ hd₂
  -- the second segment is held behind the hole
  obtain ⟨t₁, seg, hin₁, hpresent, hcore, ht₁⟩ := hd₂.kept hidle (by rw [hrcv]; decide) (h.absent _)
    (h.absent _) (by rw [hrcv]; decide) (hshort y) 0
  simp only [Seg.core, Prod.mk.injEq] at hcore
  have hrbuf : t₁.rbuf = Function.update e.stream.rbuf (slot (UInt32.ofNat 257)) seg := by rw [ht₁]
  have hheld : t₁.rbuf (slot (UInt32.ofNat 257)) = seg := by rw [hrbuf, Function.update_self]
  have hother : ∀ j ≠ slot (UInt32.ofNat 257), (t₁.rbuf j).present = false := fun j hj => by
    rw [hrbuf, Function.update_of_ne hj, h.absent]
  have hrcv₁ : t₁.rcvNxt = UInt32.ofNat 256 := by rw [ht₁, hrcv]
  have hcount₁ : t₁.deliv.count = streamSegPayload * streamWinMax := by rw [ht₁, h.count]
  -- the reader makes room for one byte
  have hcount₂ : (t₁.streamRead 1).2.deliv.count + 1 = delivCap := by
    change t₁.deliv.count - min t₁.deliv.count 1 + 1 = delivCap
    rw [hcount₁]
    decide
  have hspace : (t₁.streamRead 1).2.deliv.space = 1 := by
    rw [Ring.space]
    omega
  have huna₁ : (t₁.streamRead 1).2.sndUna = e.stream.sndUna := by rw [ht₁]; rfl
  obtain ⟨t₂, hin₂, hrcv₂, hcount, _, _, _, _, hrest⟩ :=
    Carrier.delivered (s := (t₁.streamRead 1).2) (huna₁ ▸ hd₁) (by rw [ht₁]; exact hidle)
      hrcv₁.symm (hother _ (by change slot t₁.rcvNxt ≠ _; rw [hrcv₁]; decide))
      (by rw [ht₁]; exact h.fin) (hshort x) (by rw [hspace]; rfl) (.inr (by
        change _ < _ + (t₁.rbuf (slot (t₁.rcvNxt + 1))).data.length
        rw [hspace, hrcv₁]
        change _ < _ + (t₁.rbuf (slot (UInt32.ofNat 257))).data.length
        rw [hheld, hcore.2.2]
        exact Nat.lt_succ_self 1)) 0
  refine ⟨e.after (t₁, [t₁.emitAck]), { e.after (t₁, [t₁.emitAck]) with
      stream := (t₁.streamRead 1).2, returned := e.returned ++ (t₁.streamRead 1).1 },
    { e.after (t₁, [t₁.emitAck]) with
      stream := (t₁.streamRead 1).2, returned := e.returned ++ (t₁.streamRead 1).1 }.after
        (t₂, [t₂.emitAck]), t₁, t₂,
    fun w k hw => by rw [Endpoint.call, hw, Option.map_some, hin₁], fun w => rfl,
    fun w k hw => by rw [Endpoint.call, hw, Option.map_some, hin₂], rfl, hrcv₁, ?_, ?_, ?_⟩
  · exact localRwnd_eq hcount₁ le_rfl
  · rw [sackBitmap_testBit, hrcv₁]
    change _ ∧ (t₁.rbuf (slot (UInt32.ofNat 257))).present = true ∧
      (t₁.rbuf (slot (UInt32.ofNat 257))).seq = UInt32.ofNat 257
    rw [hheld]
    exact ⟨by decide, hpresent, hcore.1⟩
  · have hrcv₂' : t₂.rcvNxt = UInt32.ofNat 257 := by
      rw [hrcv₂]
      change t₁.rcvNxt + 1 = _
      rw [hrcv₁]
      rfl
    have hcount' : t₂.deliv.count = streamSegPayload * streamWinMax := by
      rw [hcount]
      exact hcount₂
    have hslot : ∀ i < 63, slot (UInt32.ofNat 257 + 1 + UInt32.ofNat i) = 2 + i := fun i hi => by
      rw [slot, UInt32.toNat_add, UInt32.toNat_add, UInt32.toNat_ofNat', UInt32.toNat_ofNat',
        UInt32.toNat_one, streamWinMax]
      omega
    have hreport := report_emitAck (s := t₂) (fun i hi => by
      rw [hrcv₂', hslot i hi, hrest _ (by
        change 2 + i ≠ slot t₁.rcvNxt
        rw [hrcv₁, slot_ofNat, streamWinMax]
        omega)]
      apply hother
      rw [slot_ofNat, streamWinMax]
      omega) (localRwnd_eq hcount' le_rfl)
    rw [hrcv₂'] at hreport
    exact hreport

end

namespace Link

def pair (a b : Endpoint) : Link := fun side => cond side b a

section
variable {a b a' b' : Endpoint} {c : StreamCall}

theorem execute_left (h : a.call b.wire c = some a') (es : List LinkEvent) :
    execute step (pair a b) (⟨false, c⟩ :: es) = execute step (pair a' b) es := by
  have hpair : Function.update (pair a b) false a' = pair a' b := by
    funext side
    cases side <;> rfl
  have hstep : step (pair a b) ⟨false, c⟩ = some (pair a' b) := by
    rw [← hpair]
    exact congrArg (Option.map _) h
  rw [execute, hstep, Option.bind_some]

theorem execute_right (h : b.call a.wire c = some b') (es : List LinkEvent) :
    execute step (pair a b) (⟨true, c⟩ :: es) = execute step (pair a b') es := by
  have hpair : Function.update (pair a b) true b' = pair a b' := by
    funext side
    cases side <;> rfl
  have hstep : step (pair a b) ⟨true, c⟩ = some (pair a b') := by
    rw [← hpair]
    exact congrArg (Option.map _) h
  rw [execute, hstep, Option.bind_some]

end

def roundEvents (i : ℕ) : List LinkEvent :=
  [⟨false, .write block 0⟩, ⟨true, .input i 0⟩, ⟨false, .input i 0⟩]

variable {n : ℕ}

theorem round_full {a b : Endpoint} (ha : Ready n n a) (hb : Full n b) (hn : n < streamWinMax) :
    ∃ a' b', execute step (pair a b) (roundEvents n) = some (pair a' b') ∧
      Ready (n + 1) (n + 1) a' ∧ Full (n + 1) b' := by
  have hwin : a.stream.inflight < a.stream.sendWindow := by
    have hzero : a.stream.inflight = 0 := by simp [inflight, ha.una, ha.nxt]
    have : 1 ≤ a.stream.sendWindow := le_max_left _ _
    omega
  have hblock : block.length = streamSegPayload := length_replicate
  obtain ⟨a₁, d, hwrite, ha₁, _, hwire₁, hd, _⟩ := ha.write hwin (by rw [hblock]; decide) hblock.le
  obtain ⟨b₁, r, hinput, hb₁, hwireb, hr⟩ := hb.input hn hd
  obtain ⟨a₂, hack, ha₂, _⟩ := ha₁.ack (Nat.lt_succ_self n) le_rfl (by omega) hr
  refine ⟨a₂, b₁, ?_, ha₂, hb₁⟩
  rw [roundEvents, execute_left (hwrite _), execute_right (hinput _ n _), execute_left (hack _ n _)]
  · rfl
  · rw [hwireb, ← hb.wire, getElem?_concat_length]
  · rw [hwire₁, ← ha.wire, getElem?_concat_length]

def fillEvents (n : ℕ) : List LinkEvent := (List.range n).flatMap roundEvents

theorem fill_full (hn : n ≤ streamWinMax) : ∃ a b,
    execute step boot (fillEvents n) = some (pair a b) ∧ Ready n n a ∧ Full n b := by
  induction n with
  | zero =>
    refine ⟨_, _, ?_, ready_new, full_new⟩
    have hpair : boot = pair Endpoint.new Endpoint.new := by
      funext side
      cases side <;> rfl
    rw [← hpair]
    rfl
  | succ n ih =>
    obtain ⟨a, b, hl, ha, hb⟩ := ih (by omega)
    obtain ⟨a', b', hl', hrest⟩ := round_full ha hb hn
    refine ⟨a', b', ?_, hrest⟩
    rw [fillEvents, range_succ, flatMap_append, execute_append]
    change (execute step boot (fillEvents n)).bind _ = _
    rw [hl, bind_some]
    simpa using hl'

def stallEvents : List LinkEvent :=
  fillEvents streamWinMax ++ [⟨false, .input 0 0⟩, ⟨false, .write [1] 0⟩, ⟨false, .write [2] 0⟩,
    ⟨true, .input 257 0⟩, ⟨true, .read 1⟩, ⟨true, .input 256 0⟩, ⟨false, .input 256 0⟩,
    ⟨false, .input 257 0⟩]

theorem execute_stallEvents : ∃ a b, execute step boot stallEvents = some (pair a b) ∧
    Ready 257 258 a ∧ (a.stream.sbuf (slot (ofNat 257))).sacked = true := by
  obtain ⟨a, b, hfill, ha, hb⟩ := fill_full (le_refl streamWinMax)
  obtain ⟨r, hr, hrep⟩ := hb.first (by decide)
  obtain ⟨a₁, hstale, ha₁, hrwnd⟩ := ha.stale (by decide) le_rfl hrep
  have hzero : a₁.stream.inflight = 0 := ha₁.inflight le_rfl (by decide)
  have hcwnd := ha₁.cwnd
  have hwin₁ : a₁.stream.inflight < a₁.stream.sendWindow := by
    unfold sendWindow
    omega
  obtain ⟨a₂, d₁, hw₁, ha₂, hrwnd₂, hwire₁, hd₁, _⟩ := ha₁.write hwin₁
    (show 0 < ([1] : Bytes).length by decide) (by decide)
  have hone : a₂.stream.inflight = 1 := ha₂.inflight (by decide) (by decide)
  have hcwnd₂ := ha₂.cwnd
  have hwin₂ : a₂.stream.inflight < a₂.stream.sendWindow := by
    unfold sendWindow streamWinMax
    omega
  obtain ⟨a₃, d₂, hw₂, ha₃, _, hwire₂, hd₂, hseq⟩ := ha₂.write hwin₂
    (show 0 < ([2] : Bytes).length by decide) (by decide)
  obtain ⟨b₁, b₂, b₃, t₁, t₂, hin₁, hread, hin₂, hwireb, hrcv, hroom, hbit, hrep₂⟩ :=
    hb.overrun hd₁ hd₂
  obtain ⟨a₄, hmark, ha₄, hsacked⟩ := ha₃.marked (m := 257) (by decide) (by decide) (by decide) hseq
    hrcv hroom (i := 0) rfl hbit
  obtain ⟨a₅, hack, ha₅, hsbuf⟩ := ha₄.ack (m := 257) (by decide) (by decide) (by decide) hrep₂
  have hlen₁ : a₁.wire.length = 256 := ha₁.wire
  have hlenb : b.wire.length = 256 := hb.wire
  refine ⟨a₅, b₃, ?_, ha₅, by rw [hsbuf]; exact hsacked⟩
  rw [stallEvents, execute_append, hfill, bind_some, execute_left (hstale _ 0 hr),
    execute_left (hw₁ _), execute_left (hw₂ _), execute_right (hin₁ _ 257 _),
    execute_right (hread _), execute_right (hin₂ _ 256 _), execute_left (hmark _ 256 _),
    execute_left (hack _ 257 _)]
  · rfl
  all_goals simp [hwireb, hwire₁, hwire₂, hlen₁, hlenb]

theorem clear_of_mem_stallEvents {e : LinkEvent} (h : e ∈ stallEvents) : e.call.Clear := by
  have hzero : Stream.Clear 0 := by decide
  rcases mem_append.mp h with h | h
  · obtain ⟨i, _, hi⟩ := mem_flatMap.mp h
    simp only [roundEvents, mem_cons, not_mem_nil, or_false] at hi
    rcases hi with rfl | rfl | rfl <;> exact hzero
  · simp only [mem_cons, not_mem_nil, or_false] at h
    rcases h with rfl | rfl | rfl | rfl | rfl | rfl | rfl | rfl
    · exact hzero
    · exact hzero
    · exact hzero
    · exact hzero
    · exact trivial
    · exact hzero
    · exact hzero
    · exact hzero

def stallRun : Run system := runOf stallEvents (by
  obtain ⟨a, b, h, _⟩ := execute_stallEvents
  rw [h]
  rfl)

theorem stallRun_not_resent : (∀ i < stallRun.len, (stallRun.event i).call.Clear) ∧
    (stallRun.state stallRun.len false).stream.sndUna ≠
      (stallRun.state stallRun.len false).stream.sndNxt ∧
    ¬ (stallRun.state stallRun.len false).stream.Resends
      (stallRun.state stallRun.len false).stream.sndUna
      ((stallRun.state stallRun.len false).stream.streamTick
        (stallRun.state stallRun.len false).stream.rtoDeadline).2 := by
  have hclear : ∀ i < stallRun.len, (stallRun.event i).call.Clear := fun i hi =>
    clear_of_mem_stallEvents (runOf_event_mem _ hi)
  obtain ⟨a, b, hexec, ha, hsacked⟩ := execute_stallEvents
  have hstate : stallRun.state stallRun.len false = a := congrFun (runOf_end _ hexec) false
  obtain ⟨items, hflows⟩ := ok_of_run stallRun stallRun.len le_rfl false
  have htimed := timed_of_run stallRun le_rfl hclear false
  have hsent := hflows.sends.sent
  rw [hstate] at htimed hsent ⊢
  have hne : a.stream.sndUna ≠ a.stream.sndNxt := by
    rw [ha.una, ha.nxt]
    decide
  refine ⟨hclear, hne, ?_⟩
  rw [hsent.tick_resends_iff hne ⟨htimed.armed hne, UInt32.le_refl _⟩, ha.una, hsacked]
  exact Bool.noConfusion

end Link
end Norn
