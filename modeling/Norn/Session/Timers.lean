import Norn.Session.Streams

/-!
# What a tick of the client sends again

The library passes the time `0` to every call of a stream, and a deadline of `0` means no timer.
-/

namespace Norn
open List UInt32 Option
namespace Stream

theorem sent_streamInvariant : StreamInvariant fun st => ∃ items, st.Sent items where
  new := ⟨[], sent_streamNew⟩
  write st data := by
    rintro ⟨items, h⟩
    obtain ⟨more, hcuts, _⟩ := h.streamWrite data 0
    exact ⟨items ++ more, hcuts.sent⟩
  read st cap := by
    rintro ⟨items, h⟩
    exact ⟨items, h.congr rfl⟩
  input st seg := by
    rintro ⟨items, h⟩
    exact ⟨items ++ [], (h.streamInput seg 0).sent⟩
  tick st := by
    rintro ⟨items, h⟩
    obtain ⟨more, hcuts, _⟩ := h.streamTick 0
    exact ⟨items ++ more, hcuts.sent⟩
  finish st := by
    rintro ⟨items, h⟩
    obtain ⟨more, hcuts, _⟩ := h.streamFinish 0
    exact ⟨items ++ more, hcuts.sent⟩

variable (st : Stream)

theorem not_due_zero : ¬ st.Due 0 := by
  rintro ⟨hne, hle⟩
  exact hne (UInt32.le_antisymm hle UInt32.zero_le)

theorem streamTick_zero : st.streamTick 0 = st.pumpSend 0 :=
  if_neg fun h => not_due_zero _ h.1

theorem not_sendsSeg_tick {i : ℕ} (hi : i < st.inflight) :
    ¬ SendsSeg (st.sndUna + ofNat i) (st.streamTick 0).2 := by
  rw [streamTick_zero]
  rintro ⟨d, hd, _, _, hseq⟩
  obtain ⟨j, hij, hj, hq⟩ := (st.pumpSend_held 0).2 d hd
  unfold streamWinMax at hj
  have := add_ofNat_inj (by omega) (by omega) (hseq.symm.trans hq)
  omega

/-- Some datagram is the third duplicate acknowledgement that sends `q` again. -/
def FastAmong (q : UInt32) : Stream → List Bytes → Prop
  | _, [] => False
  | st, seg :: segs => st.FastResends seg q ∨ FastAmong q (st.streamInput seg 0).1 segs

end Stream

open Norn.Stream
namespace Session
variable (s : Session)

def stream? (service sid : UInt16) : Option Stream :=
  (s.svc.get? service).bind fun sm => sm.mux.get? sid

def segment (service sid : UInt16) (seg : Bytes) : Effect :=
  .sealed (streamFrame service (frame sid seg))

/-- The effects include a segment of the stream with number `q` that carries data or a FIN. -/
def Transmits (service sid : UInt16) (q : UInt32) (effects : List Effect) : Prop :=
  ∃ seg, segment service sid seg ∈ effects ∧ seg.getD 0 0 &&& (fData ||| fFin) ≠ 0 ∧ get32 seg 1 = q

/-- The session is established and has a socket. -/
def CanSend : Prop :=
  s.fd ≠ none ∧ s.state = .established ∧ s.channel.established = true

def linkSide : SessionState × Option ℕ × Bool × Channel Bytes × UInt32 × UInt16 :=
  (s.state, s.fd, s.sharedFd, s.channel, s.peerIp, s.peerPort)

variable {s : Session} {service service' sid : UInt16} {q : UInt32} {st : Stream}

theorem streamFrame_inj {f g : Bytes} (h : streamFrame service f = streamFrame service' g) :
    service = service' ∧ f = g :=
  frame_inj (cons.inj h).2

theorem transmits_append {xs ys : List Effect} : Transmits service sid q (xs ++ ys) ↔
    Transmits service sid q xs ∨ Transmits service sid q ys := by
  constructor
  · rintro ⟨seg, hmem, hrest⟩
    rcases mem_append.mp hmem with hmem | hmem
    · exact .inl ⟨seg, hmem, hrest⟩
    · exact .inr ⟨seg, hmem, hrest⟩
  · rintro (⟨seg, hmem, hrest⟩ | ⟨seg, hmem, hrest⟩)
    · exact ⟨seg, mem_append_left _ hmem, hrest⟩
    · exact ⟨seg, mem_append_right _ hmem, hrest⟩

theorem not_transmits_nil : ¬ Transmits service sid q [] := by
  rintro ⟨seg, hmem, _⟩
  cases hmem

variable {seg : Bytes} {fs : List Bytes} {s' : Session} {sm : SvcMux} {S : Suite Bytes}

theorem segment_of_mem_muxSend (h : segment service sid seg ∈ s.muxSend service' fs) :
    service = service' ∧ s.CanSend ∧ frame sid seg ∈ fs := by
  unfold muxSend at h
  by_cases hoff : s.fd = none ∨ s.state ≠ .established
  · rw [if_pos hoff] at h
    cases h
  · rw [if_neg hoff] at h
    obtain ⟨hfd, hstate⟩ := not_or.mp hoff
    obtain ⟨f, hf, hmem⟩ := mem_flatMap.mp h
    unfold sealSend at hmem
    split_ifs at hmem with hfits
    · obtain ⟨rfl, rfl⟩ := streamFrame_inj (Effect.sealed.inj (mem_singleton.mp hmem))
      exact ⟨rfl, ⟨hfd, not_not.mp hstate, hfits.2⟩, (mem_filter.mp hf).1⟩
    · cases hmem

theorem segment_mem_muxSend (hcan : s.CanSend) (hfit : seg.length ≤ streamSegMax)
    (h : frame sid seg ∈ fs) : segment service sid seg ∈ s.muxSend service fs := by
  obtain ⟨hfd, hstate, hest⟩ := hcan
  have hlen : (frame sid seg).length = seg.length + 2 := by simp [frame, put16, add_comm]
  have hframe : (streamFrame service (frame sid seg)).length = seg.length + 5 := by
    simp [streamFrame, hlen, put16]
    omega
  unfold streamSegMax streamHeader streamSegPayload at hfit
  rw [muxSend, if_neg (by simp [hfd, hstate]), mem_flatMap]
  refine ⟨frame sid seg, mem_filter.mpr ⟨h, ?_⟩, ?_⟩
  · rw [hlen, decide_eq_true_eq, appframeHdr, frameCap]
    omega
  · rw [sealSend, if_pos ⟨by rw [hframe, channelOverhead, frameCap]; omega, hest⟩]
    exact mem_singleton.mpr rfl

theorem stream?_eq_some : s.stream? service sid = some st ↔
    ∃ sm, s.svc.get? service = some sm ∧ sm.mux.get? sid = some st :=
  bind_eq_some_iff

theorem stream?_tickMuxes (h : s.stream? service sid = some st) :
    (s.tickMuxes 0).1.stream? service sid = some (st.streamTick 0).1 := by
  obtain ⟨sm, hsm, hst⟩ := stream?_eq_some.mp h
  refine stream?_eq_some.mpr
    ⟨{ sm with mux := (sm.mux.streammuxTick 0).1 }, ?_, Mux.get?_tick 0 hst⟩
  change (s.svc.map _).get? service = _
  rw [Table.get?_map, hsm, map_some]

theorem transmits_tickMuxes (h : s.stream? service sid = some st)
    (ht : Transmits service sid q (s.tickMuxes 0).2) : SendsSeg q (st.streamTick 0).2 := by
  obtain ⟨sm, hsm, hst⟩ := stream?_eq_some.mp h
  obtain ⟨seg, hmem, hflags, hseq⟩ := ht
  obtain ⟨⟨service', sm'⟩, he, hmem⟩ := mem_flatMap.mp hmem
  obtain ⟨rfl, _, hframe⟩ := segment_of_mem_muxSend hmem
  cases hsm.symm.trans (Table.get?_eq_some.mpr he)
  obtain ⟨hseg, hfit⟩ := (Mux.frame_mem_tick hst).mp hframe
  exact ⟨seg, hseg, hfit, hflags, hseq⟩

variable (reg : Registry)

theorem linkSide_maybeAcceptStream (s : Session) (service sid : UInt16) :
    (s.maybeAcceptStream reg service sid).1.linkSide = s.linkSide := by
  unfold maybeAcceptStream
  split_ifs <;> rfl

theorem not_transmits_maybeAcceptStream (service₁ sid₁ : UInt16) :
    ¬ Transmits service sid q (s.maybeAcceptStream reg service₁ sid₁).2 := by
  rintro ⟨seg, hmem, _⟩
  unfold maybeAcceptStream at hmem
  split_ifs at hmem
  · cases hmem
  · cases mem_singleton.mp hmem
  · cases hmem

theorem CanSend.congr (h : s'.linkSide = s.linkSide) : s'.CanSend ↔ s.CanSend := by
  simp only [linkSide, Prod.mk.injEq] at h
  rw [CanSend, CanSend, h.1, h.2.1, h.2.2.2.1]

variable {body : Bytes}

theorem get?_driveSvc (hsm : s.svc.get? service = some sm) (f : Mux → Mux × List Bytes) :
    (s.driveSvc service' f).1.svc.get? service =
      some (if service = service' then { sm with mux := (f sm.mux).1 } else sm) := by
  change (s.svc.modify service' _).get? service = _
  rw [Table.get?_modify, hsm]
  split_ifs <;> rfl

theorem transmits_driveSvc (hsm : s.svc.get? service = some sm) {f : Mux → Mux × List Bytes}
    {segs : List Bytes} {R : Prop}
    (hf : ∀ seg, frame sid seg ∈ (f sm.mux).2 ↔ R ∧ seg ∈ segs ∧ seg.length ≤ streamSegMax) :
    Transmits service sid q (s.driveSvc service' f).2 ↔
      s.CanSend ∧ (service = service' ∧ R) ∧ SendsSeg q segs := by
  constructor
  · rintro ⟨seg, hmem, hflags, hseq⟩
    simp only [driveSvc] at hmem
    cases hget : s.svc.get? service' with
    | none =>
      rw [hget] at hmem
      cases hmem
    | some sm' =>
      rw [hget, elim_some] at hmem
      obtain ⟨rfl, hcan, hframe⟩ := segment_of_mem_muxSend hmem
      cases hsm.symm.trans hget
      obtain ⟨hR, hseg, hfit⟩ := (hf seg).mp hframe
      exact ⟨hcan, ⟨rfl, hR⟩, seg, hseg, hfit, hflags, hseq⟩
  · rintro ⟨hcan, ⟨rfl, hR⟩, seg, hseg, hfit, hflags, hseq⟩
    refine ⟨seg, ?_, hflags, hseq⟩
    simp only [driveSvc, hsm, elim_some]
    exact segment_mem_muxSend hcan hfit ((hf seg).mpr ⟨hR, hseg, hfit⟩)

theorem inputStream_spec (service' : UInt16) (q : UInt32)
    (h : s.stream? service sid = some st) (hlen : streammuxFrame ≤ body.length) :
    (s.inputStream reg service' body).session.linkSide = s.linkSide ∧
      (s.inputStream reg service' body).session.stream? service sid =
        some (if service = service' ∧ sid = sidOf body then
          (st.streamInput (body.drop streammuxFrame) 0).1 else st) ∧
      (Transmits service sid q (s.inputStream reg service' body).effects ↔
        s.CanSend ∧ (service = service' ∧ sid = sidOf body) ∧
          SendsSeg q (st.streamInput (body.drop streammuxFrame) 0).2) := by
  obtain ⟨sm, hsm, hst⟩ := stream?_eq_some.mp h
  rw [inputStream, if_neg (by omega)]
  cases hget : s.getSvc service' with
  | none =>
    have hne : service ≠ service' := by
      rintro rfl
      rw [getSvc, Table.ensure_of_get? hsm] at hget
      cases hget
    simp [hne, not_transmits_nil, h]
  | some s₁ =>
    obtain ⟨svc, hsvc, hs₁⟩ := map_eq_some_iff.mp hget
    have hsm₁ : s₁.svc.get? service = some sm := by
      rw [← hs₁]
      exact Table.get?_of_ensure hsvc hsm
    have hside₁ : s₁.linkSide = s.linkSide := by rw [← hs₁]; rfl
    have hside := linkSide_maybeAcceptStream reg s₁ service' (sidOf body)
    have hsvc₂ := svc_maybeAcceptStream reg s₁ service' (sidOf body)
    have hno : ¬ Transmits service sid q (s₁.maybeAcceptStream reg service' (sidOf body)).2 :=
      not_transmits_maybeAcceptStream reg service' (sidOf body)
    simp only
    generalize s₁.maybeAcceptStream reg service' (sidOf body) = out at *
    have hsm₂ : out.1.svc.get? service = some sm := by rw [hsvc₂, hsm₁]
    have hframe : ∀ seg, frame sid seg ∈ (sm.mux.streammuxInput body 0).2 ↔ sid = sidOf body ∧
        seg ∈ (st.streamInput (body.drop streammuxFrame) 0).2 ∧ seg.length ≤ streamSegMax :=
      fun _ => Mux.frame_mem_input hst hlen
    refine ⟨hside.trans hside₁, ?_, ?_⟩
    · refine stream?_eq_some.mpr ⟨_, get?_driveSvc hsm₂ _, ?_⟩
      by_cases hservice : service = service'
      · simp only [hservice, if_true, true_and]
        exact Mux.get?_input hst hlen
      · simp only [hservice, if_false, false_and]
        exact hst
    · rw [transmits_append, transmits_driveSvc hsm₂ hframe,
        CanSend.congr (hside.trans hside₁)]
      exact or_iff_right hno

/-- The segment for a stream in a datagram that arrives at an established session. -/
def segmentFor (S : Suite Bytes) (s : Session) (service sid : UInt16) (a : Arrival) : Option Bytes :=
  if a.data = [] ∨ ¬ s.FromPeer a then none
  else (channelOpen S s.channel a.data frameCap).bind fun pt =>
    if appframeHdr + streammuxFrame ≤ pt.length ∧ pt.getD 0 0 = appkindStream ∧
        service = UInt16.ofNat (get16 pt 1) ∧ sid = sidOf (pt.drop appframeHdr) then
      some ((pt.drop appframeHdr).drop streammuxFrame)
    else none

theorem segmentFor_congr (h : s'.linkSide = s.linkSide) :
    s'.segmentFor S service sid = s.segmentFor S service sid := by
  simp only [linkSide, Prod.mk.injEq] at h
  obtain ⟨_, _, _, hchan, hip, hport⟩ := h
  funext a
  have hfrom : s'.FromPeer a ↔ s.FromPeer a := by rw [FromPeer, FromPeer, hip, hport]
  unfold segmentFor
  simp only [hfrom, hchan]

theorem established_of_channelOpen {c : Channel Bytes} {ct pt : Bytes} {cap : ℕ}
    (h : channelOpen S c ct cap = some pt) : c.established = true := by
  unfold channelOpen at h
  split_ifs at h with hguard
  exact Bool.eq_true_of_not_eq_false (not_or.mp hguard).1

variable (S : Suite Bytes) (reg : Registry)

theorem processPacket_spec (h : s.stream? service sid = some st) (hest : s.state = .established)
    (hfd : s.fd ≠ none) (a : Arrival) (q : UInt32) :
    (s.processPacket S reg a).session.linkSide = s.linkSide ∧
      (s.processPacket S reg a).session.stream? service sid =
        some ((s.segmentFor S service sid a).elim st fun seg => (st.streamInput seg 0).1) ∧
      (Transmits service sid q (s.processPacket S reg a).effects ↔
        ∃ seg, s.segmentFor S service sid a = some seg ∧ SendsSeg q (st.streamInput seg 0).2) := by
  have hreject : s.segmentFor S service sid a = none →
      s.linkSide = s.linkSide ∧
        s.stream? service sid =
          some ((s.segmentFor S service sid a).elim st fun seg => (st.streamInput seg 0).1) ∧
        (Transmits service sid q [] ↔ ∃ seg, s.segmentFor S service sid a = some seg ∧
          SendsSeg q (st.streamInput seg 0).2) := by
    intro hnone
    simp [hnone, h, not_transmits_nil]
  unfold processPacket
  by_cases hguard : a.data = [] ∨ ¬ s.FromPeer a
  · rw [if_pos hguard]
    exact hreject (if_pos hguard)
  rw [if_neg hguard, hest]
  unfold processFrame
  cases hopen : channelOpen S s.channel a.data frameCap with
  | none =>
    apply hreject
    rw [segmentFor, if_neg hguard, hopen, bind_none]
  | some pt =>
    have hseg : s.segmentFor S service sid a = if appframeHdr + streammuxFrame ≤ pt.length ∧
        pt.getD 0 0 = appkindStream ∧ service = UInt16.ofNat (get16 pt 1) ∧
          sid = sidOf (pt.drop appframeHdr) then
        some ((pt.drop appframeHdr).drop streammuxFrame) else none := by
      rw [segmentFor, if_neg hguard, hopen, bind_some]
    have hcan : s.CanSend := ⟨hfd, hest, established_of_channelOpen hopen⟩
    simp only
    by_cases hshort : pt.length < appframeHdr
    · rw [if_pos hshort]
      exact hreject (hseg.trans (if_neg fun hs => by omega))
    rw [if_neg hshort]
    by_cases hkind : pt.getD 0 0 = appkindStream
    · rw [if_pos hkind]
      by_cases hbody : (pt.drop appframeHdr).length < streammuxFrame
      · rw [inputStream, if_pos hbody]
        apply hreject
        rw [length_drop] at hbody
        exact hseg.trans (if_neg fun hs => by omega)
      · obtain ⟨hside, hst, htrans⟩ :=
          inputStream_spec reg (UInt16.ofNat (get16 pt 1)) q h (Nat.le_of_not_lt hbody)
        rw [length_drop] at hbody
        refine ⟨hside, hst.trans ?_, htrans.trans ?_⟩
        · rw [hseg]
          by_cases hmatch : service = UInt16.ofNat (get16 pt 1) ∧ sid = sidOf (pt.drop appframeHdr)
          · rw [if_pos hmatch, if_pos ⟨by omega, hkind, hmatch⟩, elim_some]
          · rw [if_neg hmatch, if_neg fun hs => hmatch hs.2.2, elim_none]
        · rw [hseg]
          by_cases hmatch : service = UInt16.ofNat (get16 pt 1) ∧ sid = sidOf (pt.drop appframeHdr)
          · rw [if_pos ⟨by omega, hkind, hmatch⟩]
            simp [hcan, hmatch]
          · rw [if_neg fun hs => hmatch hs.2.2]
            simp [hmatch]
    · rw [if_neg hkind]
      have hnone := hseg.trans (if_neg fun hs => hkind hs.2.1)
      split_ifs
      · refine ⟨rfl, by simp [hnone, h], ?_⟩
        rw [hnone]
        refine iff_of_false ?_ (by simp)
        rintro ⟨seg, hmem, _⟩
        cases mem_singleton.mp hmem
      · exact hreject hnone
      · exact hreject hnone

theorem transmits_drain (h : s.stream? service sid = some st) (hest : s.state = .established)
    (hfd : s.fd ≠ none) (hsent : ∃ items, st.Sent items) (l : List Arrival) :
    Transmits service sid q (s.drain S reg l).2 ↔
      FastAmong q st (l.filterMap (s.segmentFor S service sid)) := by
  induction l generalizing s st with
  | nil => exact iff_of_false not_transmits_nil id
  | cons a l ih =>
    obtain ⟨hside, hst, htrans⟩ := processPacket_spec S reg h hest hfd a q
    have hlink := hside
    simp only [linkSide, Prod.mk.injEq] at hlink
    have hrest := ih hst (hlink.1.trans hest) (hlink.2.1 ▸ hfd)
    rw [segmentFor_congr hside] at hrest
    rw [drain, transmits_append, htrans, filterMap_cons]
    cases hseg : s.segmentFor S service sid a with
    | none =>
      rw [hseg] at hrest
      rw [hrest hsent]
      simp
    | some seg =>
      obtain ⟨items, hitems⟩ := hsent
      rw [hseg] at hrest
      rw [hrest (sent_streamInvariant.input st seg ⟨items, hitems⟩)]
      simp only [some.injEq, exists_eq_left', hitems.streamInput_sendsSeg_iff, FastAmong,
        elim_some]

theorem transmits_tick_iff (h : s.stream? service sid = some st) (hest : s.state = .established)
    (hsent : ∃ items, st.Sent items) {i : ℕ} (hi : i < st.inflight) (input : TickInput) :
    Transmits service sid (st.sndUna + ofNat i) (s.tick S reg input).2 ↔
      (s.fd ≠ none ∧ s.sharedFd = false) ∧
        FastAmong (st.sndUna + ofNat i) (st.streamTick 0).1
          (input.arrivals.filterMap (s.segmentFor S service sid)) := by
  have hpend : s.tickPending S input = (s, []) := if_neg (by simp [hest])
  have htimed : s.tickTimers 0 = s.tickMuxes 0 := if_pos hest
  have hno : ¬ Transmits service sid (st.sndUna + ofNat i) (s.tickMuxes 0).2 :=
    fun ht => st.not_sendsSeg_tick hi (transmits_tickMuxes h ht)
  have hst := stream?_tickMuxes h
  have hsegs : (s.tickMuxes 0).1.segmentFor S service sid = s.segmentFor S service sid :=
    segmentFor_congr rfl
  have hdrain : (s.tickMuxes 0).1.tickDrain S reg input = if s.fd ≠ none ∧ s.sharedFd = false then
      (s.tickMuxes 0).1.drain S reg input.arrivals else ((s.tickMuxes 0).1, []) := rfl
  rw [tick, if_neg (by simp [hest])]
  simp only [hpend, htimed, nil_append]
  rw [transmits_append, or_iff_right hno, hdrain]
  by_cases hown : s.fd ≠ none ∧ s.sharedFd = false
  · rw [if_pos hown, transmits_drain S reg hst hest hown.1 (sent_streamInvariant.tick st hsent),
      hsegs]
    exact (and_iff_right hown).symm
  · rw [if_neg hown]
    exact iff_of_false not_transmits_nil fun hs => hown hs.1

end Session

structure StreamKey where
  session : ℕ
  service : UInt16
  sid : UInt16

def Transmits (x : StreamKey) (q : UInt32) (effects : Effects) : Prop :=
  ∃ seg, (x.session, Session.segment x.service x.sid seg) ∈ effects ∧
    seg.getD 0 0 &&& (fData ||| fFin) ≠ 0 ∧ get32 seg 1 = q

def Client.stream? (c : Client) (x : StreamKey) : Option Stream :=
  (c.heap x.session).bind fun s => s.stream? x.service x.sid

namespace World
variable {S : Suite Bytes}

/-- The segment `q` is outstanding, not selectively acknowledged, and was transmitted at least the
retransmission timeout before this call. -/
structure Overdue (run : Run (World.system S)) (k : ℕ) (x : StreamKey) (q : UInt32) (s : Session)
    (st : Stream) : Prop where
  session : (run.state k).client.heap x.session = some s
  established : s.state = .established
  stream : s.stream? x.service x.sid = some st
  outstanding : ∃ i < st.inflight, q = st.sndUna + ofNat i ∧ ¬ st.Sacked i
  transmitted : ∃ j < k, Transmits x q ((run.state j).effects S (run.event j)) ∧
    ∃ st', (run.state (j + 1)).client.stream? x = some st' ∧
      (run.event j).time + st'.rto.toNat ≤ (run.event k).time

/-- An overdue segment is sent again exactly if the session is ticked, has a socket of its own, and
reads the third duplicate acknowledgement for the segment there. -/
theorem tick_transmits_overdue_iff (run : Run (World.system S)) {k : ℕ} (hk : k < run.len)
    {input : TickInputs} (hev : (run.event k).call = .tick input) {x : StreamKey} {q : UInt32}
    {s : Session} {st : Stream} (hover : Overdue run k x q s st) :
    Transmits x q ((run.state k).effects S (run.event k)) ↔
      x.session ∈ (run.state k).client.sessions ∧ (s.fd ≠ none ∧ s.sharedFd = false) ∧
        FastAmong q (st.streamTick 0).1
          ((input x.session).arrivals.filterMap (s.segmentFor S x.service x.sid)) := by
  obtain ⟨i, hi, rfl, _⟩ := hover.outstanding
  obtain ⟨sm, hsm, hst⟩ := Session.stream?_eq_some.mp hover.stream
  have hsent := World.streams_of_run sent_streamInvariant run k hk.le x.session s hover.session
    x.service sm hsm x.sid st hst
  rw [← Session.transmits_tick_iff S (run.state k).client.registry hover.stream hover.established
    hsent hi]
  have hmem : ∀ e, (x.session, e) ∈ (run.state k).effects S (run.event k) ↔
      x.session ∈ (run.state k).client.sessions ∧
        e ∈ (s.tick S (run.state k).client.registry (input x.session)).2 := by
    intro e
    rw [World.effects, hev]
    refine (Client.effects_tickLoop (run.state k).client.nodup _).trans (and_congr_right fun _ => ?_)
    rw [hover.session]
    simp
  constructor
  · rintro ⟨seg, hseg, hrest⟩
    obtain ⟨hin, he⟩ := (hmem _).mp hseg
    exact ⟨hin, seg, he, hrest⟩
  · rintro ⟨hin, seg, he, hrest⟩
    exact ⟨seg, (hmem _).mpr ⟨hin, he⟩, hrest⟩

def quiet : TickInputs := fun _ => ⟨replicate 32 9, true, []⟩

def receiving (datagrams : List Bytes) : TickInputs := fun _ =>
  ⟨[], true, datagrams.map fun d => ⟨d, 1, 1, replicate 24 0, true⟩⟩

def greeting : List ClientEvent :=
  [⟨0, .dialDirect 1 1 (some (replicate 32 7)) (replicate 32 3) (some 5) true⟩,
    ⟨0, .tick quiet⟩,
    ⟨0, .tick (receiving [encodeResp ⟨replicate 32 7, replicate 32 8,
      replicate 32 9 ++ replicate 32 8⟩])⟩,
    ⟨0, .openSvc 0 1⟩,
    ⟨0, .write 0 0 [104]⟩]

def greeted : World := (execute (step plainSuite) (boot [] []) greeting).getD (boot [] [])

def greetedSession : Session :=
  (greeted.client.heap 0).getD (greeted.client.sessionNew plainSuite)

def greetedStream : Stream := (greetedSession.stream? 1 1).getD streamNew

def duplicateAck : Bytes := [2] ++ put32 0 ++ put32 0 ++ put16 256

def threeAcks : List Bytes := replicate 3
  (plainSuite.secretbox (replicate 32 8 ++ replicate 32 9) (replicate 24 0)
    (Session.streamFrame 1 (frame 1 duplicateAck)))

def quietRun : Run (World.system plainSuite) :=
  runOf plainSuite [] [] (greeting ++ [⟨300, .tick quiet⟩]) (by decide +kernel)

def revivedRun : Run (World.system plainSuite) :=
  runOf plainSuite [] [] (greeting ++ [⟨300, .tick (receiving threeAcks)⟩]) (by decide +kernel)

theorem greeted_session : greeted.client.heap 0 = some greetedSession :=
  eq_some_getD (by decide +kernel) _

theorem greeted_stream : greetedSession.stream? 1 1 = some greetedStream :=
  eq_some_getD (by decide +kernel) _

theorem overdue_of_greeting {run : Run (World.system plainSuite)} (hstate : run.state 5 = greeted)
    (hsent : (0, Session.segment 1 1 [3, 0, 0, 0, 0, 0, 0, 0, 0, 1, 0, 104]) ∈
      (run.state 4).effects plainSuite (run.event 4))
    (htime : (run.event 4).time + 300 ≤ (run.event 5).time) :
    Overdue run 5 ⟨0, 1, 1⟩ 0 greetedSession greetedStream where
  session := by rw [hstate, greeted_session]
  established := by decide +kernel
  stream := greeted_stream
  outstanding := ⟨0, by decide +kernel, by decide +kernel, by decide +kernel⟩
  transmitted := by
    refine ⟨4, by decide, ⟨_, hsent, by decide, by decide⟩, greetedStream, ?_, ?_⟩
    · rw [hstate, Client.stream?, greeted_session, bind_some, greeted_stream]
    · have hrto : greetedStream.rto.toNat = 300 := by decide +kernel
      rw [hrto]
      exact htime

theorem revivedRun_transmits : Overdue revivedRun 5 ⟨0, 1, 1⟩ 0 greetedSession greetedStream ∧
    Transmits ⟨0, 1, 1⟩ 0 ((revivedRun.state 5).effects plainSuite (revivedRun.event 5)) := by
  have hover : Overdue revivedRun 5 ⟨0, 1, 1⟩ 0 greetedSession greetedStream :=
    overdue_of_greeting rfl (by decide +kernel) (by decide +kernel)
  have hev : (revivedRun.event 5).call = .tick (receiving threeAcks) := rfl
  have hsegs : (receiving threeAcks 0).arrivals.filterMap
      (greetedSession.segmentFor plainSuite 1 1) = replicate 3 duplicateAck := by
    decide +kernel
  have hfast : FastAmong 0 (greetedStream.streamTick 0).1 (replicate 3 duplicateAck) := by
    refine .inr (.inr (.inl ⟨?_, ?_, ?_, ?_, ?_, 0, ?_, ?_, ?_, .inl rfl⟩)) <;> decide +kernel
  refine ⟨hover, (tick_transmits_overdue_iff revivedRun (by decide) hev hover).mpr ?_⟩
  refine ⟨by decide +kernel, by decide +kernel, ?_⟩
  change FastAmong 0 (greetedStream.streamTick 0).1 ((receiving threeAcks 0).arrivals.filterMap
    (greetedSession.segmentFor plainSuite 1 1))
  rw [hsegs]
  exact hfast

theorem quietRun_not_transmits : (quietRun.event 5).call = .tick quiet ∧
    Overdue quietRun 5 ⟨0, 1, 1⟩ 0 greetedSession greetedStream ∧
    ¬ Transmits ⟨0, 1, 1⟩ 0 ((quietRun.state 5).effects plainSuite (quietRun.event 5)) := by
  refine ⟨rfl, overdue_of_greeting rfl (by decide +kernel) (by decide +kernel), ?_⟩
  have hnone : (quietRun.state 5).effects plainSuite (quietRun.event 5) = [] := by decide +kernel
  rw [hnone]
  rintro ⟨seg, hseg, _⟩
  cases hseg

end World
end Norn
