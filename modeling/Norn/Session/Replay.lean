import Norn.Session.Agreement
import Norn.Session.Changes

/-!
# Datagrams over a network that repeats them

As the encryption is ideal, nothing but what the peer has sealed opens to a datagram.
-/

namespace Norn
open Function List

def dgramFrame (service : UInt16) (data : Bytes) : Bytes :=
  appkindDgram :: (put16 service.toNat ++ data)

structure PeerDatagram where
  service : UInt16
  data : Bytes
  packet : Bytes

structure Traffic where
  peer : Session
  session : Session
  sent : List PeerDatagram
  handed : ℕ → ℕ

inductive TrafficAct
  | send (service : UInt16) (data nonce : Bytes)
  | deliver (i : ℕ) (via : Arrival)
  | other (e : SessionEvent)

structure TrafficEvent where
  reg : Registry
  act : TrafficAct

instance : Inhabited TrafficEvent := ⟨⟨fun _ => false, fun _ => false⟩, .other .timers⟩

def Effect.isDatagram : Effect → Bool
  | .datagram _ _ => true
  | _ => false

namespace Traffic
variable (S : Suite Bytes) (t : Traffic)

def sealDatagram (service : UInt16) (data nonce : Bytes) : List PeerDatagram :=
  (t.peer.sendDatagram service data).filterMap fun
    | .sealed frame => some ⟨service, data, S.secretbox t.peer.channel.txKey nonce frame⟩
    | _ => none

def Foreign : SessionEvent → Prop
  | .packet a => (channelOpen S t.session.channel a.data frameCap).all fun pt =>
      pt.getD 0 0 ≠ appkindDgram
  | _ => True

instance (S : Suite Bytes) (t : Traffic) (e : SessionEvent) : Decidable (t.Foreign S e) :=
  match e with
  | .packet _ => inferInstanceAs (Decidable (_ = true))
  | .pending .. | .timers | .openSvc _ | .write .. | .read .. | .close _ | .reset _ | .datagram ..
  | .closeSession _ => .isTrue trivial

def step (e : TrafficEvent) : Option Traffic :=
  match e.act with
  | .send service data nonce =>
    if nonce.length = 24 then
      some { t with sent := t.sent ++ t.sealDatagram S service data nonce }
    else none
  | .deliver i via => t.sent[i]?.map fun d =>
      let out := t.session.apply S e.reg (.packet { via with data := d.packet })
      { t with
        session := out.1
        handed := update t.handed i (t.handed i + out.2.countP Effect.isDatagram) }
  | .other ev =>
    if t.Foreign S ev then some { t with session := (t.session.apply S e.reg ev).1 } else none

structure Fresh (t : Traffic) : Prop where
  state : t.session.state = .established
  channel : t.session.channel.established = true
  key : t.peer.channel.txKey = t.session.channel.rxKey
  key_length : t.session.channel.rxKey.length = 32
  sent : t.sent = []
  handed : t.handed = fun _ => 0

def system : System Traffic TrafficEvent where
  init := Fresh
  next t e t' := t.step S e = some t'

/-- A datagram of the peer arrives at the established session, whose service has a handler. -/
def Arrives (e : TrafficEvent) (i : ℕ) : Prop :=
  ∃ via d, e.act = .deliver i via ∧ t.session.state = .established ∧ t.session.FromPeer via ∧
    t.sent[i]? = some d ∧ e.reg.dgram d.service = true

end Traffic

section
variable {S : Suite Bytes} {kp : Bytes → Bytes × Bytes} {service : UInt16} {data nonce : Bytes}

theorem length_dgramFrame : (dgramFrame service data).length = appframeHdr + data.length := by
  simp [dgramFrame, put16, appframeHdr]
  omega

theorem dgramFrame_service : UInt16.ofNat (get16 (dgramFrame service data) 1) = service := by
  have hread : get16 (dgramFrame service data) 1 = service.toNat :=
    fromBigEndian_slice [appkindDgram] data (by simpa using service.toNat_lt)
  rw [hread, UInt16.ofNat_toNat]

theorem dgramFrame_data : (dgramFrame service data).drop appframeHdr = data := by
  have happ : dgramFrame service data = (appkindDgram :: put16 service.toNat) ++ data := rfl
  rw [happ]
  exact drop_left' (by simp [put16, appframeHdr])

namespace Session
variable {s : Session} {reg : Registry}

theorem channelOpen_dgramFrame (hS : S.Lawful kp) (hchannel : s.channel.established = true)
    (hkey : s.channel.rxKey.length = 32) (hnonce : nonce.length = 24)
    (hfit : (dgramFrame service data).length + channelOverhead ≤ frameCap) :
    channelOpen S s.channel (S.secretbox s.channel.rxKey nonce (dgramFrame service data)) frameCap =
      some (dgramFrame service data) := by
  have hlen := hS.box_length (dgramFrame service data) hkey hnonce
  rw [channelOpen, if_neg, hS.open_box _ hkey hnonce]
  rw [hlen, hchannel]
  simp only [Bool.true_eq_false, false_or, not_or, not_lt]
  omega

variable {a : Arrival}

theorem effects_processPacket (hS : S.Lawful kp) (hchannel : s.channel.established = true)
    (hkey : s.channel.rxKey.length = 32) (hnonce : nonce.length = 24)
    (hfit : (dgramFrame service data).length + channelOverhead ≤ frameCap)
    (ha : a.data = S.secretbox s.channel.rxKey nonce (dgramFrame service data))
    (hstate : s.state = .established) (hfrom : s.FromPeer a) : (s.processPacket S reg a).effects =
      if reg.dgram service then [.datagram service data] else [] := by
  have hopen := channelOpen_dgramFrame (s := s) hS hchannel hkey hnonce hfit
  have hne : a.data ≠ [] := by
    have hlen := hS.box_length (dgramFrame service data) hkey hnonce
    rw [← ha] at hlen
    rintro hnil
    rw [hnil, length_nil, channelOverhead] at hlen
    omega
  have hlong : ¬ (dgramFrame service data).length < appframeHdr := by
    rw [length_dgramFrame]
    omega
  have hkind : (dgramFrame service data).getD 0 0 = appkindDgram := rfl
  rw [processPacket, if_neg (by simp [hne, hfrom]), hstate]
  simp only [processFrame, ha, hopen, if_neg hlong, hkind, dgramFrame_service, dgramFrame_data]
  rfl

theorem effects_processPacket_closed (hstate : s.state = .closed) (a : Arrival) :
    (s.processPacket S reg a).effects = [] := by
  unfold processPacket
  split_ifs
  · rfl
  · rw [hstate]

theorem effects_processPacket_stranger (hfrom : ¬ s.FromPeer a) :
    (s.processPacket S reg a).effects = [] := by
  rw [processPacket, if_pos (.inr hfrom)]

end Session
end

namespace Traffic
variable {S : Suite Bytes} {kp : Bytes → Bytes × Bytes} {t t' : Traffic} {e : TrafficEvent}

structure Live (S : Suite Bytes) (t : Traffic) : Prop where
  state : t.session.state = .established ∨ t.session.state = .closed
  channel : t.session.channel.established = true
  key : t.peer.channel.txKey = t.session.channel.rxKey
  key_length : t.session.channel.rxKey.length = 32
  packets : ∀ d ∈ t.sent, ∃ nonce : Bytes, nonce.length = 24 ∧
    (dgramFrame d.service d.data).length + channelOverhead ≤ frameCap ∧
    d.packet = S.secretbox t.session.channel.rxKey nonce (dgramFrame d.service d.data)

theorem Fresh.live (h : t.Fresh) : t.Live S :=
  ⟨Or.inl h.state, h.channel, h.key, h.key_length, by simp [h.sent]⟩

theorem Live.apply (h : t.Live S) (reg : Registry) (ev : SessionEvent) (handed : ℕ → ℕ) :
    Live S { t with session := (t.session.apply S reg ev).1, handed := handed } := by
  have hnot : t.session.state ≠ .connecting := by
    rcases h.state with hs | hs <;> rw [hs] <;> decide
  obtain ⟨hchannel, hkept⟩ := (Session.change_apply S reg t.session ev).after_handshake hnot
  have hstate : (t.session.apply S reg ev).1.state = .established ∨
      (t.session.apply S reg ev).1.state = .closed := by
    rcases hkept with hsame | hclosed
    · rw [hsame]
      exact h.state
    · exact .inr hclosed
  refine ⟨hstate, ?_, ?_, ?_, ?_⟩ <;> simp only [hchannel]
  · exact h.channel
  · exact h.key
  · exact h.key_length
  · exact h.packets

variable {d : PeerDatagram}

theorem mem_sealDatagram {service : UInt16} {data nonce : Bytes}
    (h : d ∈ t.sealDatagram S service data nonce) :
    d = ⟨service, data, S.secretbox t.peer.channel.txKey nonce (dgramFrame service data)⟩ ∧
      (dgramFrame service data).length + channelOverhead ≤ frameCap := by
  unfold sealDatagram Session.sendDatagram Session.sealSend at h
  split_ifs at h with hguard hfit
  · cases h
  · simp only [filterMap_cons, filterMap_nil, mem_singleton] at h
    exact ⟨h, hfit.1⟩
  · cases h

theorem Live.step (h : t.Live S) (hs : t.step S e = some t') : t'.Live S := by
  obtain ⟨reg, act⟩ := e
  cases act with
  | send service data nonce =>
    simp only [Traffic.step] at hs
    split_ifs at hs with hnonce
    cases hs
    refine ⟨h.state, h.channel, h.key, h.key_length, fun d hd => ?_⟩
    rcases mem_append.mp hd with hd | hd
    · exact h.packets d hd
    · obtain ⟨rfl, hfit⟩ := mem_sealDatagram hd
      exact ⟨nonce, hnonce, hfit, by rw [h.key]⟩
  | deliver i via =>
    obtain ⟨d, _, rfl⟩ := Option.map_eq_some_iff.mp hs
    exact h.apply reg _ _
  | other ev =>
    simp only [Traffic.step] at hs
    split_ifs at hs with hforeign
    cases hs
    exact h.apply reg ev t.handed

theorem live_of_run (run : Run (system S)) : ∀ k ≤ run.len, (run.state k).Live S :=
  run.invariant (fun _ => Fresh.live) fun k hk hlive => hlive.step (run.steps k hk)

theorem Live.handOvers (hS : S.Lawful kp) (h : t.Live S) {i : ℕ} (hd : t.sent[i]? = some d)
    (reg : Registry) (via : Arrival) :
    ((t.session.apply S reg (.packet { via with data := d.packet })).2.countP
      Effect.isDatagram = 1 ∧ t.Arrives ⟨reg, .deliver i via⟩ i) ∨
    ((t.session.apply S reg (.packet { via with data := d.packet })).2.countP
      Effect.isDatagram = 0 ∧ ¬ t.Arrives ⟨reg, .deliver i via⟩ i) := by
  have harrives : t.Arrives ⟨reg, .deliver i via⟩ i ↔ t.session.state = .established ∧
      t.session.FromPeer via ∧ reg.dgram d.service = true := by
    constructor
    · rintro ⟨via', d', hact, hstate, hfrom, hd', hreg⟩
      cases hact
      cases hd.symm.trans hd'
      exact ⟨hstate, hfrom, hreg⟩
    · rintro ⟨hstate, hfrom, hreg⟩
      exact ⟨via, d, rfl, hstate, hfrom, hd, hreg⟩
  obtain ⟨nonce, hnonce, hfit, hpacket⟩ := h.packets d (mem_of_getElem? hd)
  rw [harrives]
  change ((t.session.processPacket S reg _).effects.countP _ = 1 ∧ _) ∨
    ((t.session.processPacket S reg _).effects.countP _ = 0 ∧ _)
  rcases h.state with hstate | hstate
  · by_cases hfrom : t.session.FromPeer { via with data := d.packet }
    · rw [Session.effects_processPacket hS h.channel h.key_length hnonce hfit hpacket hstate hfrom]
      by_cases hreg : reg.dgram d.service = true
      · exact .inl ⟨by simp [hreg, Effect.isDatagram], hstate, hfrom, hreg⟩
      · exact .inr ⟨by simp [hreg], fun harr => hreg harr.2.2⟩
    · rw [Session.effects_processPacket_stranger hfrom]
      exact .inr ⟨rfl, fun harr => hfrom harr.2.1⟩
  · rw [Session.effects_processPacket_closed hstate]
    refine .inr ⟨rfl, fun harr => ?_⟩
    rw [hstate] at harr
    exact absurd harr.1 (by decide)

open Classical in
theorem Live.handed_step (hS : S.Lawful kp) (h : t.Live S) (hs : t.step S e = some t') (i : ℕ) :
    t'.handed i = t.handed i + if t.Arrives e i then 1 else 0 := by
  obtain ⟨reg, act⟩ := e
  have hidle : (∀ j via, act ≠ .deliver j via) → ¬ t.Arrives ⟨reg, act⟩ i := by
    rintro hact ⟨via, _, heq, _⟩
    exact hact i via heq
  cases act with
  | send service data nonce =>
    simp only [Traffic.step] at hs
    split_ifs at hs with hnonce
    cases hs
    rw [if_neg (hidle (by simp)), Nat.add_zero]
  | deliver j via =>
    obtain ⟨d, hd, rfl⟩ := Option.map_eq_some_iff.mp hs
    by_cases hij : i = j
    · subst hij
      rcases h.handOvers hS hd reg via with ⟨hcount, harr⟩ | ⟨hcount, harr⟩
      · simp only [update_self, hcount, if_pos harr]
      · simp only [update_self, hcount, if_neg harr]
    · have harr : ¬ t.Arrives ⟨reg, .deliver j via⟩ i := by
        rintro ⟨_, _, heq, _⟩
        cases heq
        exact hij rfl
      simp only [update_of_ne hij, if_neg harr, Nat.add_zero]
  | other ev =>
    simp only [Traffic.step] at hs
    split_ifs at hs with hforeign
    cases hs
    rw [if_neg (hidle (by simp)), Nat.add_zero]

open Classical in
theorem handed_eq_count (hS : S.Lawful kp) (run : Run (system S)) (i : ℕ) :
    ∀ k ≤ run.len, (run.state k).handed i =
      Nat.count (fun j => (run.state j).Arrives (run.event j) i) k := by
  refine run.position_induction ?_ fun k hk ih => ?_
  · rw [run.start.handed, Nat.count_zero]
  · rw [(live_of_run run k hk.le).handed_step hS (run.steps k hk), ih, Nat.count_succ]

open Classical in
theorem count_le_one_iff {p : ℕ → Prop} {n : ℕ} :
    Nat.count p n ≤ 1 ↔ ∀ a b, a < b → b < n → ¬ (p a ∧ p b) := by
  rw [Nat.count_eq_card_filter_range, Finset.card_le_one]
  simp only [Finset.mem_filter, Finset.mem_range]
  constructor
  · rintro h a b hab hb ⟨hpa, hpb⟩
    exact hab.ne (h a ⟨hab.trans hb, hpa⟩ b ⟨hb, hpb⟩)
  · rintro h a ⟨ha, hpa⟩ b ⟨hb, hpb⟩
    rcases lt_trichotomy a b with hab | hab | hab
    · exact absurd ⟨hpa, hpb⟩ (h a b hab hb)
    · exact hab
    · exact absurd ⟨hpb, hpa⟩ (h b a hab ha)

/-- In a run every datagram is handed over at most once exactly if none arrives twice. -/
theorem handed_once_iff (hS : S.Lawful kp) (run : Run (system S)) :
    (∀ k ≤ run.len, ∀ i, (run.state k).handed i ≤ 1) ↔
      ∀ i a b, a < b → b < run.len → ¬ ((run.state a).Arrives (run.event a) i ∧
        (run.state b).Arrives (run.event b) i) := by
  constructor
  · intro h i
    have hend := h run.len le_rfl i
    rwa [handed_eq_count hS run i run.len le_rfl, count_le_one_iff] at hend
  · intro h k hk i
    rw [handed_eq_count hS run i k hk, count_le_one_iff]
    exact fun a b hab hb => h i a b hab (hb.trans_le hk)

def dialedSession : Option Session :=
  (execute (World.step paddedSuite) (World.boot [] [])
    [⟨0, .dialDirect 1 1 none (replicate 32 3) (some 5) false⟩,
      ⟨0, .tick fun _ => ⟨replicate 32 4, true, []⟩⟩,
      ⟨0, .tick fun _ => ⟨[], true, [⟨encodeResp ⟨replicate 32 7, replicate 32 8,
        replicate 32 4 ++ replicate 32 8⟩, 1, 1, replicate 24 0, true⟩]⟩⟩]).bind
    fun w => w.client.heap 0

def withPeer (s : Session) : Traffic :=
  ⟨{ s with channel := { s.channel with rxKey := s.channel.txKey, txKey := s.channel.rxKey } }, s,
    [], fun _ => 0⟩

theorem fresh_withPeer {s : Session} (hstate : s.state = .established)
    (hchannel : s.channel.established = true) (hlength : s.channel.rxKey.length = 32) :
    (withPeer s).Fresh :=
  ⟨hstate, hchannel, rfl, hlength, rfl, rfl⟩

def dialed : Session := dialedSession.getD ((World.boot [] []).client.sessionNew paddedSuite)

def repeated (n : ℕ) : List TrafficEvent :=
  ⟨⟨fun _ => false, fun service => service = 4⟩, .send 4 [104] (replicate 24 6)⟩ ::
    replicate n ⟨⟨fun _ => false, fun service => service = 4⟩,
      .deliver 0 ⟨[], 1, 1, [], true⟩⟩

def runOf (es : List TrafficEvent)
    (h : (execute (step paddedSuite) (withPeer dialed) es).isSome) : Run (system paddedSuite) :=
  Run.ofEvents (fun _ _ _ hs => hs) (withPeer dialed)
    (fresh_withPeer (by decide +kernel) (by decide +kernel) (by decide +kernel)) es h

def singleRun : Run (system paddedSuite) := runOf (repeated 1) (by decide +kernel)

def replayRun : Run (system paddedSuite) := runOf (repeated 2) (by decide +kernel)

theorem singleRun_once : paddedSuite.Lawful (fun seed => (seed, seed)) ∧
    (singleRun.state 2).handed 0 = 1 ∧
    ∀ k ≤ singleRun.len, ∀ i, (singleRun.state k).handed i ≤ 1 := by
  refine ⟨paddedSuite_lawful, by decide +kernel,
    (handed_once_iff paddedSuite_lawful singleRun).mpr ?_⟩
  -- the first step of the run is not a delivery
  rintro i a b hab hb ⟨⟨via, d, hact, _⟩, _⟩
  have hlen : singleRun.len = 2 := rfl
  obtain rfl : a = 0 := by omega
  cases hact

theorem replayRun_twice : (replayRun.state 3).handed 0 = 2 ∧
    ¬ ∀ k ≤ replayRun.len, ∀ i, (replayRun.state k).handed i ≤ 1 := by
  have htwice : (replayRun.state 3).handed 0 = 2 := by decide +kernel
  refine ⟨htwice, fun h => ?_⟩
  have hone := h 3 le_rfl 0
  omega

end Traffic
end Norn
