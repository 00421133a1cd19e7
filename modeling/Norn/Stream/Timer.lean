import Norn.Stream.Representation

/-!
# The retransmission timer and the clock

The timer is a deadline on a 32-bit clock, and zero stands for no timer.
-/

namespace Norn

def StreamOp.time? : StreamOp → Option UInt32
  | .write _ now => some now
  | .read _ => none
  | .finish now => some now
  | .input _ now => some now
  | .tick now => some now

namespace Stream
variable (s : Stream)

def PumpArms (now : UInt32) : Prop :=
  s.rtoDeadline = 0 ∧ s.inflight < s.sendWindow ∧ (s.nextSeg now).isSome = true

/-- The acknowledgement is for something outstanding. -/
def Advances (ack : UInt32) : Prop :=
  0 < signed (ack - s.sndUna) ∧ signed (ack - s.sndNxt) ≤ 0

def AckArms (ack : UInt32) : Prop :=
  s.Advances ack ∧ ack ≠ s.sndNxt ∨
    ¬ s.Advances ack ∧ (ack = s.sndUna ∧ s.sndUna ≠ s.sndNxt) ∧ s.peerRwnd ≠ 0 ∧
      s.dupacks + 1 = streamDupackThresh

def TimesOut (now : UInt32) : Prop :=
  (s.pumpSend now).1.Due now ∧ (s.pumpSend now).1.sndUna ≠ (s.pumpSend now).1.sndNxt

def Arms : StreamOp → Prop
  | .write data now => { s with pend := s.pend.append data }.PumpArms now
  | .read _ => False
  | .finish now => { s with finQueued := true }.PumpArms now
  | .input seg _ => streamHeader ≤ seg.length ∧ (s.sackRead seg).AckArms (get32 seg 5)
  | .tick now => s.PumpArms now ∨ s.TimesOut now

instance (s : Stream) (now : UInt32) : Decidable (s.PumpArms now) :=
  inferInstanceAs (Decidable (_ ∧ _ ∧ _))

instance (s : Stream) (ack : UInt32) : Decidable (s.Advances ack) :=
  inferInstanceAs (Decidable (_ ∧ _))

instance (s : Stream) (ack : UInt32) : Decidable (s.AckArms ack) :=
  inferInstanceAs (Decidable (_ ∨ _))

instance (s : Stream) (now : UInt32) : Decidable (s.TimesOut now) :=
  inferInstanceAs (Decidable (_ ∧ _))

instance (s : Stream) (op : StreamOp) : Decidable (s.Arms op) :=
  match op with
  | .write .. => inferInstanceAs (Decidable (PumpArms _ _))
  | .read _ => .isFalse id
  | .finish _ => inferInstanceAs (Decidable (PumpArms _ _))
  | .input .. => inferInstanceAs (Decidable (_ ∧ _))
  | .tick _ => inferInstanceAs (Decidable (_ ∨ _))

def armRto : StreamOp → UInt32
  | .input seg now =>
    if (s.sackRead seg).Advances (get32 seg 5) then
      ((s.sackRead seg).sampleRtt (get32 seg 5) now).rto
    else s.rto
  | .tick now => if s.TimesOut now then (s.pumpSend now).1.backOff.rto else s.rto
  | _ => s.rto

/-- The timer runs exactly if a segment is outstanding. -/
def TimerMatches : Prop := s.rtoDeadline ≠ 0 ↔ s.sndUna ≠ s.sndNxt

instance (s : Stream) : Decidable s.TimerMatches := inferInstanceAs (Decidable (_ ↔ _))

/-- What a call does to the timer, and whether it sets it. -/
structure TimerStep (s s' : Stream) (arms : Prop) (time rto : UInt32) : Prop where
  armed : arms → s'.rtoDeadline = time + rto ∧ s'.rto = rto ∧ s'.sndUna ≠ s'.sndNxt
  kept : ¬ arms → (s'.rtoDeadline = s.rtoDeadline ∧ s'.rto = s.rto ∧
    (s'.sndUna ≠ s'.sndNxt ↔ s.sndUna ≠ s.sndNxt)) ∨
      (s'.rtoDeadline = 0 ∧ s'.sndUna = s'.sndNxt)

theorem ne_iff_inflight : s.sndUna ≠ s.sndNxt ↔ s.inflight ≠ 0 := by
  refine not_congr ⟨fun h => ?_, fun h => ?_⟩
  · rw [inflight, h, sub_self]
    rfl
  · have hdiff : s.sndNxt - s.sndUna = 0 := UInt32.toNat_inj.mp h
    exact (sub_eq_zero.mp hdiff).symm

variable {s : Stream} {arms : Prop} {now ack : UInt32}

theorem TimerStep.congr {s₁ s' s₂ : Stream} {time rto : UInt32} (h : TimerStep s₁ s' arms time rto)
    (hs : s₁.timerSide = s.timerSide) (hs' : s₂.timerSide = s'.timerSide) :
    TimerStep s s₂ arms time rto := by
  simp only [timerSide, Prod.mk.injEq] at hs hs'
  obtain ⟨hrto, hdl, huna, hnxt⟩ := hs
  obtain ⟨hrto', hdl', huna', hnxt'⟩ := hs'
  constructor
  · rw [hrto', hdl', huna', hnxt']
    exact h.armed
  · rw [hrto', hdl', huna', hnxt', ← hrto, ← hdl, ← huna, ← hnxt]
    exact h.kept

theorem pumpSend_armed (h : s.PumpArms now) :
    (s.pumpSend now).1.rtoDeadline = now + s.rto ∧ (s.pumpSend now).1.rto = s.rto ∧
      (s.pumpSend now).1.sndUna ≠ (s.pumpSend now).1.sndNxt := by
  obtain ⟨hzero, hfl, hnext⟩ := h
  obtain ⟨⟨seg, s₁⟩, hseg⟩ := Option.isSome_iff_exists.mp hnext
  obtain ⟨fuel, hfuel⟩ : ∃ fuel, s.sendWindow = fuel + 1 :=
    Nat.exists_eq_succ_of_ne_zero (by unfold sendWindow; omega)
  have hr : Round now s (s₁.enqueue seg now) _ := ⟨seg, s₁, hseg, rfl, rfl⟩
  have hfirst : (s₁.enqueue seg now).rtoDeadline = now + s.rto ∧
      (s₁.enqueue seg now).rto = s.rto ∧ (s₁.enqueue seg now).inflight ≠ 0 := by
    rw [hr.rtoDeadline, if_pos hzero, hr.inflight (hfl.trans_le s.sendWindow_le)]
    exact ⟨rfl, hr.rto, Nat.succ_ne_zero _⟩
  have hround : ∀ t t' d, (t.rtoDeadline = now + s.rto ∧ t.rto = s.rto ∧ t.inflight ≠ 0) →
      t.inflight < s.sendWindow → Round now t t' d →
        (t'.rtoDeadline = now + s.rto ∧ t'.rto = s.rto ∧ t'.inflight ≠ 0) ∧ True := by
    rintro t t' d ⟨hdl, hrto, _⟩ hfl hr
    refine ⟨⟨?_, hr.rto.trans hrto, ?_⟩, trivial⟩
    · rw [hr.rtoDeadline, hrto, hdl]
      split_ifs <;> rfl
    · rw [hr.inflight (hfl.trans_le s.sendWindow_le)]
      exact Nat.succ_ne_zero _
  have hrest := (pumpLoop_induct (Q := fun _ => True) hround hfirst fuel).1
  rw [pumpSend, hfuel, pumpLoop_of_some (hfuel ▸ hfl) hseg, ne_iff_inflight, ← hfuel]
  exact hrest

theorem pumpSend_kept (h : ¬ s.PumpArms now) (hm : s.TimerMatches) :
    (s.pumpSend now).1.rtoDeadline = s.rtoDeadline ∧ (s.pumpSend now).1.rto = s.rto ∧
      ((s.pumpSend now).1.sndUna ≠ (s.pumpSend now).1.sndNxt ↔ s.sndUna ≠ s.sndNxt) := by
  by_cases hzero : s.rtoDeadline = 0
  · -- nothing is sent
    have hidle : s.pumpSend now = (s, []) := by
      by_cases hfl : s.inflight < s.sendWindow
      · have hnone : s.nextSeg now = none := by
          rw [← Option.not_isSome_iff_eq_none]
          exact fun hsome => h ⟨hzero, hfl, hsome⟩
        exact pumpLoop_of_none hnone _ _
      · exact pumpLoop_of_full hfl _ _
    rw [hidle]
    exact ⟨rfl, rfl, Iff.rfl⟩
  · have hout := (s.ne_iff_inflight).mp (hm.mp hzero)
    have hround : ∀ t t' d, (t.rtoDeadline = s.rtoDeadline ∧ t.rto = s.rto ∧ t.inflight ≠ 0) →
        t.inflight < s.sendWindow → Round now t t' d →
          (t'.rtoDeadline = s.rtoDeadline ∧ t'.rto = s.rto ∧ t'.inflight ≠ 0) ∧ True := by
      rintro t t' d ⟨hdl, hrto, _⟩ hfl hr
      refine ⟨⟨?_, hr.rto.trans hrto, ?_⟩, trivial⟩
      · rw [hr.rtoDeadline, hdl, if_neg hzero]
      · rw [hr.inflight (hfl.trans_le s.sendWindow_le)]
        exact Nat.succ_ne_zero _
    have hkeep := (pumpLoop_induct (Q := fun _ => True) hround ⟨rfl, rfl, hout⟩ s.sendWindow).1
    rw [ne_iff_inflight, ne_iff_inflight]
    exact ⟨hkeep.1, hkeep.2.1, iff_of_true hkeep.2.2 hout⟩

theorem timerStep_pumpSend (hm : s.TimerMatches) (now : UInt32) :
    TimerStep s (s.pumpSend now).1 (s.PumpArms now) now s.rto :=
  ⟨pumpSend_armed, fun h => .inl (pumpSend_kept h hm)⟩

theorem ccOnAck_rto (s : Stream) (acked : ℕ) : (s.ccOnAck acked).rto = s.rto := by
  unfold ccOnAck
  split_ifs <;> rfl

theorem newAck_timer (s : Stream) (ack now : UInt32) :
    (s.newAck ack now).rtoDeadline =
        (if ack = s.sndNxt then 0 else now + (s.sampleRtt ack now).rto) ∧
      (s.newAck ack now).rto = (s.sampleRtt ack now).rto := by
  have hnxt : ((s.sampleRtt ack now).ccOnAck (ack - s.sndUna).toNat).sndNxt = s.sndNxt :=
    s.newAck_sndNxt ack now
  have hrto := (s.sampleRtt ack now).ccOnAck_rto (ack - s.sndUna).toNat
  refine ⟨?_, hrto⟩
  simp only [newAck, hnxt, hrto]

theorem thirdDup_timer (s : Stream) (now : UInt32) :
    (s.thirdDup now).1.timerSide = (s.rto, now + s.rto, s.sndUna, s.sndNxt) := by
  have hside := modRetx_retransmitLoop now (s.ccOnLoss false).fastLimit s.inflight s.sndUna
    (s.ccOnLoss false)
  exact (side_eq (fun t => (t.rto, now + t.rto, t.sndUna, t.sndNxt)) hside fun _ => rfl :)

theorem onAck_eq (s : Stream) (ack now : UInt32) : s.onAck ack now =
    if s.Advances ack then (s.newAck ack now, [])
    else if ack = s.sndUna ∧ s.sndUna ≠ s.sndNxt then s.dupAck now else (s, []) := rfl

theorem TimerStep.of_timerSide {s' : Stream} (hno : ¬ arms) (time rto : UInt32)
    (h : s'.timerSide = s.timerSide) : TimerStep s s' arms time rto := by
  simp only [timerSide, Prod.mk.injEq] at h
  obtain ⟨hrto, hdl, huna, hnxt⟩ := h
  exact ⟨fun harms => absurd harms hno, fun _ => .inl ⟨hdl, hrto, by rw [huna, hnxt]⟩⟩

theorem timerStep_newAck (hadv : s.Advances ack) (now : UInt32) :
    TimerStep s (s.newAck ack now) (s.AckArms ack) now (s.sampleRtt ack now).rto := by
  obtain ⟨hdl, hrto⟩ := s.newAck_timer ack now
  have hnxt := s.newAck_sndNxt ack now
  have huna : (s.newAck ack now).sndUna = ack := rfl
  by_cases hall : ack = s.sndNxt
  · refine ⟨fun harms => ?_, fun _ => .inr ⟨hdl.trans (if_pos hall), ?_⟩⟩
    · rcases harms with ⟨_, hne⟩ | ⟨hno, _⟩
      · exact absurd hall hne
      · exact absurd hadv hno
    · rw [huna, hnxt, hall]
  · refine ⟨fun _ => ⟨hdl.trans (if_neg hall), hrto, ?_⟩, fun hno => ?_⟩
    · rw [huna, hnxt]
      exact hall
    · exact absurd (.inl ⟨hadv, hall⟩) hno

theorem timerStep_dupAck (hadv : ¬ s.Advances ack) (hdup : ack = s.sndUna ∧ s.sndUna ≠ s.sndNxt)
    (now : UInt32) : TimerStep s (s.dupAck now).1 (s.AckArms ack) now s.rto := by
  have harms : s.AckArms ack ↔ s.peerRwnd ≠ 0 ∧ s.dupacks + 1 = streamDupackThresh := by
    refine ⟨fun h => ?_, fun h => .inr ⟨hadv, hdup, h⟩⟩
    rcases h with ⟨hyes, _⟩ | ⟨_, _, hthird⟩
    · exact absurd hyes hadv
    · exact hthird
  rw [dupAck]
  split_ifs with hclosed hthird
  · exact .of_timerSide (fun h => (harms.mp h).1 hclosed) _ _ rfl
  · have hside := thirdDup_timer { s with dupacks := s.dupacks + 1 } now
    simp only [timerSide, Prod.mk.injEq] at hside
    obtain ⟨hrto, hdl, huna, hnxt⟩ := hside
    refine ⟨fun _ => ⟨hdl, hrto, ?_⟩, fun hno => ?_⟩
    · rw [huna, hnxt]
      exact hdup.2
    · exact absurd (harms.mpr ⟨hclosed, hthird⟩) hno
  · exact .of_timerSide (fun h => hthird (harms.mp h).2) _ _ rfl

theorem timerStep_onAck (s : Stream) (ack now : UInt32) :
    TimerStep s (s.onAck ack now).1 (s.AckArms ack) now
      (if s.Advances ack then (s.sampleRtt ack now).rto else s.rto) := by
  rw [onAck_eq]
  by_cases hadv : s.Advances ack
  · rw [if_pos hadv, if_pos hadv]
    exact timerStep_newAck hadv now
  by_cases hdup : ack = s.sndUna ∧ s.sndUna ≠ s.sndNxt
  · rw [if_neg hadv, if_neg hadv, if_pos hdup]
    exact timerStep_dupAck hadv hdup now
  · rw [if_neg hadv, if_neg hadv, if_neg hdup]
    refine .of_timerSide (fun harms => ?_) _ _ rfl
    rcases harms with ⟨hyes, _⟩ | ⟨_, hboth, _⟩
    · exact hadv hyes
    · exact hdup hboth

theorem timeout_timer (s : Stream) (now : UInt32) :
    (s.timeout now).1.timerSide = (s.backOff.rto, now + s.backOff.rto, s.sndUna, s.sndNxt) := by
  have hside := s.modResend_timeout now
  have hrto : (s.timeout now).1.rto = s.backOff.rto :=
    (side_eq rto (modRetx_retransmitLoop now s.sndNxt _ _ s.backOff) fun _ => rfl :)
  simp only [timerSide, Prod.mk.injEq]
  exact ⟨hrto, congrArg (now + ·) hrto, side_eq sndUna hside fun _ => rfl,
    side_eq sndNxt hside fun _ => rfl⟩

theorem streamTick_eq (s : Stream) (now : UInt32) : s.streamTick now =
    if s.TimesOut now then (((s.pumpSend now).1.timeout now).1,
      (s.pumpSend now).2 ++ ((s.pumpSend now).1.timeout now).2)
    else s.pumpSend now := rfl

theorem timerStep_apply (hm : s.TimerMatches) (op : StreamOp) (idle : UInt32) :
    TimerStep s (Stream.apply s op).1 (s.Arms op) (op.time?.getD idle) (s.armRto op) := by
  cases op with
  | write data now =>
    exact (timerStep_pumpSend (s := { s with pend := s.pend.append data }) hm now).congr rfl rfl
  | read cap => exact ⟨False.elim, fun _ => .inl ⟨rfl, rfl, Iff.rfl⟩⟩
  | finish now =>
    exact (timerStep_pumpSend (s := { s with finQueued := true }) hm now).congr rfl rfl
  | input seg now =>
    change TimerStep s (s.streamInput seg now).1 _ now _
    by_cases hlen : seg.length < streamHeader
    · rw [streamInput, if_pos hlen]
      refine ⟨fun harms => absurd hlen harms.1.not_gt, fun _ => .inl ⟨rfl, rfl, Iff.rfl⟩⟩
    · have hread : (s.sackRead seg).timerSide = s.timerSide :=
        side_eq timerSide (s.modRead_sackRead seg) fun _ => rfl
      have hrto : (s.sackRead seg).rto = s.rto := congrArg Prod.fst hread
      have hack := (timerStep_onAck (s.sackRead seg) (get32 seg 5) now)
      rw [hrto] at hack
      have harms : s.Arms (.input seg now) = (s.sackRead seg).AckArms (get32 seg 5) :=
        propext (and_iff_right (not_lt.mp hlen))
      rw [streamInput, if_neg hlen, harms]
      change TimerStep s (ite _ (s.takeAck seg now) _).1 _ now _
      split_ifs
      · exact hack.congr hread (by rw [takeAck_eq])
      · exact hack.congr hread (side_eq timerSide (modRecv_accept _ _ _ _) fun _ => rfl :)
  | tick now =>
    change TimerStep s (s.streamTick now).1 (s.PumpArms now ∨ s.TimesOut now) now
      (if s.TimesOut now then (s.pumpSend now).1.backOff.rto else s.rto)
    by_cases hout : s.TimesOut now
    · have hside := timeout_timer (s.pumpSend now).1 now
      simp only [timerSide, Prod.mk.injEq] at hside
      obtain ⟨hrto, hdl, huna, hnxt⟩ := hside
      rw [streamTick_eq, if_pos hout, if_pos hout]
      refine ⟨fun _ => ⟨hdl, hrto, ?_⟩, fun hno => absurd (.inr hout) hno⟩
      rw [huna, hnxt]
      exact hout.2
    · rw [streamTick_eq, if_neg hout, if_neg hout, or_iff_left hout]
      exact timerStep_pumpSend hm now

end Stream

structure Clocked where
  stream : Stream
  armedAt : UInt32

namespace Clocked

def start : Clocked := ⟨streamNew, 0⟩

def apply : Transducer Clocked StreamOp StreamOut := fun c op =>
  (⟨(Stream.apply c.stream op).1,
    if c.stream.Arms op then op.time?.getD c.armedAt else c.armedAt⟩,
    (Stream.apply c.stream op).2)

variable (c : Clocked)

def lastArming (now : UInt32) : UInt32 :=
  if c.stream.PumpArms now then now else c.armedAt

def Outstanding (now : UInt32) : Prop :=
  (c.stream.pumpSend now).1.sndUna ≠ (c.stream.pumpSend now).1.sndNxt

def TickRight : StreamOp → Prop
  | .tick now =>
    c.stream.TimesOut now ↔ c.Outstanding now ∧ c.stream.rto ≤ now - c.lastArming now
  | _ => True

/-- The call is right about the timeout, and leaves the timer on exactly if a segment is
outstanding. -/
def TimerRight (op : StreamOp) : Prop :=
  c.TickRight op ∧ (Stream.apply c.stream op).1.TimerMatches

def SameWrap : StreamOp → Prop
  | .tick now => c.Outstanding now →
    (now < c.lastArming now ↔ 2 ^ 32 ≤ (c.lastArming now).toNat + c.stream.rto.toNat)
  | _ => True

/-- The clock is where the deadline can be represented and compared. -/
def ClockClear (op : StreamOp) : Prop :=
  c.SameWrap op ∧ (c.stream.Arms op → op.time?.getD c.armedAt + c.stream.armRto op ≠ 0)

instance (c : Clocked) (now : UInt32) : Decidable (c.Outstanding now) :=
  inferInstanceAs (Decidable (¬ _))

instance (c : Clocked) (op : StreamOp) : Decidable (c.TickRight op) :=
  match op with
  | .tick _ => inferInstanceAs (Decidable (_ ↔ _))
  | .write .. => .isTrue trivial
  | .read _ => .isTrue trivial
  | .finish _ => .isTrue trivial
  | .input .. => .isTrue trivial

instance (c : Clocked) (op : StreamOp) : Decidable (c.TimerRight op) :=
  inferInstanceAs (Decidable (_ ∧ _))

/-- The deadline is the time of the last setting plus the timeout. -/
structure Running (c : Clocked) : Prop where
  kept : c.stream.Kept
  on : c.stream.TimerMatches
  deadline : c.stream.sndUna ≠ c.stream.sndNxt →
    c.stream.rtoDeadline = c.armedAt + c.stream.rto

theorem running_start : Running start :=
  ⟨Stream.kept_streamNew, by decide, fun h => absurd rfl h⟩

variable {now : UInt32}

theorem le_iff_elapsed {t r : UInt32} (hr : r ≠ 0) (hmax : r ≤ streamRtoMax) (hd : t + r ≠ 0) :
    (t + r ≤ now ↔ r ≤ now - t) ↔ (now < t ↔ 2 ^ 32 ≤ t.toNat + r.toNat) := by
  have ht := t.toNat_lt
  have hn := now.toNat_lt
  have hpos : r.toNat ≠ 0 := fun h => hr (UInt32.toNat_inj.mp h)
  have hmax' : r.toNat ≤ 60000 := hmax
  have hzero : (t.toNat + r.toNat) % 2 ^ 32 ≠ 0 := fun h => hd (UInt32.toNat_inj.mp
    ((UInt32.toNat_add t r).trans h))
  rw [UInt32.le_iff_toNat_le, UInt32.le_iff_toNat_le, UInt32.lt_iff_toNat_lt, UInt32.toNat_add,
    UInt32.toNat_sub]
  omega

section
variable {c : Clocked} (h : c.Running)
include h

theorem Running.timerMatches_iff (op : StreamOp) : (Stream.apply c.stream op).1.TimerMatches ↔
    (c.stream.Arms op → op.time?.getD c.armedAt + c.stream.armRto op ≠ 0) := by
  have hstep := Stream.timerStep_apply h.on op c.armedAt
  by_cases harms : c.stream.Arms op
  · obtain ⟨hdl, _, hout⟩ := hstep.armed harms
    rw [Stream.TimerMatches, hdl, forall_prop_of_true harms]
    exact iff_true_right hout
  · refine iff_of_true ?_ fun hyes => absurd hyes harms
    rcases hstep.kept harms with ⟨hdl, _, hout⟩ | ⟨hdl, hout⟩
    · rw [Stream.TimerMatches, hdl, hout]
      exact h.on
    · exact iff_of_false (fun hne => hne hdl) fun hne => hne hout

variable {op : StreamOp}

theorem Running.next (hclear : c.ClockClear op) : (apply c op).1.Running := by
  have hstep := Stream.timerStep_apply h.on op c.armedAt
  refine ⟨h.kept.apply op, (h.timerMatches_iff op).mpr hclear.2, fun hout => ?_⟩
  by_cases harms : c.stream.Arms op
  · obtain ⟨hdl, hrto, _⟩ := hstep.armed harms
    change (Stream.apply c.stream op).1.rtoDeadline = ite _ _ _ + (Stream.apply c.stream op).1.rto
    rw [hdl, hrto, if_pos harms]
  · change (Stream.apply c.stream op).1.rtoDeadline = ite _ _ _ + (Stream.apply c.stream op).1.rto
    rw [if_neg harms]
    rcases hstep.kept harms with ⟨hdl, hrto, hsame⟩ | ⟨_, hnone⟩
    · rw [hdl, hrto]
      exact h.deadline (hsame.mp hout)
    · exact absurd hnone hout

theorem Running.deadline_pumped (hout : c.Outstanding now) :
    (c.stream.pumpSend now).1.rtoDeadline = c.lastArming now + c.stream.rto := by
  unfold lastArming
  split_ifs with harms
  · exact (Stream.pumpSend_armed harms).1
  · obtain ⟨hdl, _, hsame⟩ := Stream.pumpSend_kept harms h.on
    rw [hdl]
    exact h.deadline (hsame.mp hout)

theorem Running.tickRight_iff
    (harm : c.stream.Arms op → op.time?.getD c.armedAt + c.stream.armRto op ≠ 0) :
    c.TickRight op ↔ c.SameWrap op := by
  cases op with
  | write | read | finish | input => exact Iff.rfl
  | tick now =>
    by_cases hout : c.Outstanding now
    · have hdl := h.deadline_pumped hout
      have hzero : c.lastArming now + c.stream.rto ≠ 0 := fun heq => by
        have hoff : ¬ c.stream.TimesOut now := fun hyes => hyes.1.1 (hdl.trans heq)
        by_cases hpump : c.stream.PumpArms now
        · have hne := harm (.inl hpump)
          rw [Stream.armRto, if_neg hoff] at hne
          rw [lastArming, if_pos hpump] at heq
          exact hne heq
        · obtain ⟨hsame, _, hkeep⟩ := Stream.pumpSend_kept hpump h.on
          exact h.on.mpr (hkeep.mp hout) (hsame.symm.trans (hdl.trans heq))
      have hrto : c.stream.rto ≠ 0 := fun heq => by
        have hmin := h.kept.ranges.rto_min
        rw [heq] at hmin
        exact absurd hmin (by decide)
      have hdue : c.stream.TimesOut now ↔ c.lastArming now + c.stream.rto ≤ now := by
        rw [Stream.TimesOut, Stream.Due, hdl]
        exact ⟨fun h => h.1.2, fun h => ⟨⟨hzero, h⟩, hout⟩⟩
      rw [TickRight, SameWrap, hdue, and_iff_right hout, forall_prop_of_true hout]
      exact le_iff_elapsed hrto h.kept.ranges.rto_max hzero
    · refine iff_of_true (iff_of_false (fun hyes => hout hyes.2) fun hyes => hout hyes.1) ?_
      exact fun hyes => absurd hyes hout

theorem Running.timerRight_iff (op : StreamOp) : c.TimerRight op ↔ c.ClockClear op := by
  rw [TimerRight, ClockClear, h.timerMatches_iff op]
  exact and_congr_left h.tickRight_iff

end

/-- All calls are right about the timer exactly if the clock is clear at each. -/
theorem timerRight_iff_clockClear (ops : List StreamOp) :
    apply.Along TimerRight start ops ↔ apply.Along ClockClear start ops :=
  Transducer.along_iff (I := Running) (fun h => h.timerRight_iff _) (fun h hclear => h.next hclear)
    running_start ops

/-- From one call to the next the clock goes on by less than half of its range. -/
def ClockAdvances (ops : List StreamOp) : Prop :=
  (ops.filterMap StreamOp.time?).IsChain fun t t' => (t' - t).toNat < 2 ^ 31

instance (ops : List StreamOp) : Decidable (ClockAdvances ops) :=
  inferInstanceAs (Decidable (List.IsChain _ _))

/-- A byte is written 100 ms before the clock wraps around, and 50 ms later the stream is
ticked. -/
def writeBeforeWrap : List StreamOp := [.write [104] 0xFFFFFF9C, .tick 0xFFFFFFCE]

theorem writeBeforeWrap_timesOut :
    ClockAdvances writeBeforeWrap ∧ ¬ apply.Along TimerRight start writeBeforeWrap := by
  decide +kernel

end Clocked
end Norn
