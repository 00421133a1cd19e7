import Norn.Session.Core

/-!
# What the handshake changes

The channel, the key of the peer and the two state fields of a session.
-/

namespace Norn

/-- The keys of a channel are derived from its own ephemeral key pair and the one of the peer. -/
def Channel.Derived {T : Type} (S : Suite T) (c : Channel T) : Prop :=
  (if c.isInitiator then S.kxClient c.ephPub c.ephSec c.peerEph
    else S.kxServer c.ephPub c.ephSec c.peerEph) = some (c.rxKey, c.txKey)

section
variable {T : Type} {S : Suite T} {c c' : Channel T}

theorem channelDerive_spec {peerEph : T} {isInitiator : Bool}
    (h : channelDerive S c peerEph isInitiator = some c') :
    c'.Derived S ∧ c'.ephPub = c.ephPub ∧ c'.ephSec = c.ephSec ∧ c'.peerEph = peerEph ∧
      c'.isInitiator = isInitiator ∧ c'.established = true := by
  obtain ⟨keys, hkeys, rfl⟩ := Option.map_eq_some_iff.mp h
  exact ⟨hkeys, rfl, rfl, rfl, rfl, rfl⟩

variable {sign : T → Option T} {resp : RespMsg T}

theorem channelHsConfirmSigned_some {nonce box : T}
    (h : channelHsConfirmSigned S c sign nonce resp = (c', some box)) :
    channelAuthVerify S resp.sig resp.pub c.ephPub resp.eph = true ∧
      channelDerive S c resp.eph true = some c' ∧
        ∃ sig, authSignWith S sign c.ephPub resp.eph = some sig ∧
          box = S.secretbox c'.txKey nonce sig := by
  unfold channelHsConfirmSigned at h
  by_cases hverify : channelAuthVerify S resp.sig resp.pub c.ephPub resp.eph = true
  swap
  · rw [if_neg hverify] at h
    cases h
  rw [if_pos hverify] at h
  cases hderive : channelDerive S c resp.eph true with
  | none =>
    rw [hderive] at h
    cases h
  | some c₁ =>
    rw [hderive] at h
    simp only [Prod.mk.injEq, Option.map_eq_some_iff] at h
    obtain ⟨rfl, sig, hsig, rfl⟩ := h
    rw [(channelDerive_spec hderive).2.1] at hsig
    exact ⟨hverify, rfl, sig, hsig, rfl⟩

theorem channelHsAcceptSigned_some {selfPub seed : T} {init : InitMsg T}
    (h : channelHsAcceptSigned S selfPub sign seed init = (c, some resp)) :
    channelDerive S (channelGenEphemeral S seed) init.eph false = some c ∧ resp.pub = selfPub ∧
      resp.eph = c.ephPub ∧ authSignWith S sign init.eph c.ephPub = some resp.sig := by
  unfold channelHsAcceptSigned at h
  cases hderive : channelDerive S (channelGenEphemeral S seed) init.eph false with
  | none =>
    rw [hderive] at h
    cases h
  | some c₁ =>
    rw [hderive] at h
    simp only [Prod.mk.injEq, Option.map_eq_some_iff] at h
    obtain ⟨rfl, sig, hsig, rfl⟩ := h
    exact ⟨rfl, rfl, rfl, hsig⟩

end

namespace Session
variable (S : Suite Bytes) (s : Session)

theorem confirmResp_cases (nonce data : Bytes) :
    (∃ c, s.confirmResp S nonce data = ({ s with channel := c }, none)) ∨
      ∃ resp c box, s.isInitiator = true ∧ s.state = .connecting ∧ parseResp data = some resp ∧
        channelHsConfirmSigned S s.channel (s.sign S) nonce resp = (c, some box) ∧
        s.confirmResp S nonce data =
          ({ s with channel := c, peerPubkey := resp.pub, state := .established },
            some (encodeConfirm box)) := by
  unfold confirmResp
  by_cases hguard : s.isInitiator = false ∨ s.state ≠ .connecting
  · rw [if_pos hguard]
    exact .inl ⟨s.channel, rfl⟩
  · rw [if_neg hguard]
    obtain ⟨hrole, hstate⟩ := not_or.mp hguard
    cases hparse : parseResp data with
    | none => exact .inl ⟨s.channel, rfl⟩
    | some resp =>
      cases hout : channelHsConfirmSigned S s.channel (s.sign S) nonce resp with
      | mk c box =>
        cases box with
        | none => exact .inl ⟨c, by simp only [hout]⟩
        | some box =>
          refine .inr ⟨resp, c, box, Bool.eq_true_of_not_eq_false hrole, not_not.mp hstate, rfl, hout, ?_⟩
          simp only [hout]

theorem acceptInit_cases (seed data : Bytes) :
    (∃ c, s.acceptInit S seed data = ({ s with channel := c }, none)) ∨
      ∃ init c resp, s.isInitiator = false ∧ s.state = .connecting ∧ parseInit data = some init ∧
        channelHsAcceptSigned S s.selfPubkey (s.sign S) seed init = (c, some resp) ∧
        s.acceptInit S seed data =
          ({ s with channel := c, peerPubkey := init.pub }, some (encodeResp resp)) := by
  unfold acceptInit
  by_cases hguard : s.isInitiator = true ∨ s.state ≠ .connecting
  · rw [if_pos hguard]
    exact .inl ⟨s.channel, rfl⟩
  · rw [if_neg hguard]
    obtain ⟨hrole, hstate⟩ := not_or.mp hguard
    cases hparse : parseInit data with
    | none => exact .inl ⟨s.channel, rfl⟩
    | some init =>
      cases hout : channelHsAcceptSigned S s.selfPubkey (s.sign S) seed init with
      | mk c resp =>
        cases resp with
        | none => exact .inl ⟨c, by simp only [hout]⟩
        | some resp =>
          refine .inr ⟨init, c, resp, Bool.eq_false_of_not_eq_true hrole, not_not.mp hstate, rfl, hout, ?_⟩
          simp only [hout]

theorem finishConfirm_cases (data : Bytes) : s.finishConfirm S data = (s, false) ∨
      ∃ box, s.isInitiator = false ∧ s.state = .connecting ∧ parseConfirm data = some box ∧
        channelHsFinish S s.channel s.peerPubkey box = true ∧
        s.finishConfirm S data = ({ s with state := .established }, true) := by
  unfold finishConfirm
  by_cases hguard : s.isInitiator = true ∨ s.state ≠ .connecting
  · rw [if_pos hguard]
    exact .inl rfl
  · rw [if_neg hguard]
    obtain ⟨hrole, hstate⟩ := not_or.mp hguard
    cases hparse : parseConfirm data with
    | none => exact .inl rfl
    | some box =>
      by_cases hfin : channelHsFinish S s.channel s.peerPubkey box = true
      · refine .inr ⟨box, Bool.eq_false_of_not_eq_true hrole, not_not.mp hstate, rfl, hfin, ?_⟩
        simp only [if_pos hfin]
      · refine .inl ?_
        simp only [if_neg hfin]

/-- All that a handshake message can do to a session. -/
inductive HandshakeStep (S : Suite Bytes) (s : Session) (a : Arrival) : Session → Prop
  | rejected : HandshakeStep S s a s
  | rekeyed (c : Channel Bytes) (hs : s.hsState ≠ .respSent) :
      HandshakeStep S s a { s with channel := c }
  | accepted (init : InitMsg Bytes) (c : Channel Bytes) (resp : RespMsg Bytes) (hs : HsState)
      (role : s.isInitiator = false) (parse : parseInit a.data = some init)
      (accept : channelHsAcceptSigned S s.selfPubkey (s.sign S) a.random init = (c, some resp))
      (next : hs = s.hsState ∨ hs = .respSent) :
      HandshakeStep S s a { s with channel := c, peerPubkey := init.pub, hsState := hs }
  | confirmed (resp : RespMsg Bytes) (c : Channel Bytes) (box : Bytes) (hs : HsState)
      (role : s.isInitiator = true) (state : s.state = .connecting) (sent : s.hsState = .initSent)
      (parse : parseResp a.data = some resp)
      (confirm : channelHsConfirmSigned S s.channel (s.sign S) a.random resp = (c, some box))
      (next : hs = s.hsState ∨ hs = .established) :
      HandshakeStep S s a
        { s with channel := c, peerPubkey := resp.pub, state := .established, hsState := hs }
  | finished (box : Bytes) (role : s.isInitiator = false) (state : s.state = .connecting)
      (sent : s.hsState = .respSent) (parse : parseConfirm a.data = some box)
      (finish : channelHsFinish S s.channel s.peerPubkey box = true) :
      HandshakeStep S s a { s with state := .established, hsState := .established }

variable (a : Arrival)

theorem handshakeStep_processResp : HandshakeStep S s a (s.processResp S a).session := by
  unfold processResp
  by_cases hhs : s.hsState ≠ .initSent
  · rw [if_pos hhs]
    exact .rejected
  · rw [if_neg hhs]
    rcases s.confirmResp_cases S a.random a.data with
      ⟨c, heq⟩ | ⟨resp, c, box, hrole, hstate, hparse, hconfirm, heq⟩
    · rw [heq]
      exact .rekeyed c (by rw [not_not.mp hhs]; decide)
    · rw [heq]
      by_cases hsend : a.sendOk = true
      · simp only [if_pos hsend]
        exact .confirmed resp c box _ hrole hstate (not_not.mp hhs) hparse hconfirm (.inr rfl)
      · simp only [if_neg hsend]
        exact .confirmed resp c box _ hrole hstate (not_not.mp hhs) hparse hconfirm (.inl rfl)

theorem handshakeStep_processInit
    (hhs : s.hsState = .none) : HandshakeStep S s a (s.processInit S a).session := by
  unfold processInit
  rcases s.acceptInit_cases S a.random a.data with
    ⟨c, heq⟩ | ⟨init, c, resp, hrole, _, hparse, haccept, heq⟩
  · rw [heq]
    exact .rekeyed c (by rw [hhs]; decide)
  · rw [heq]
    by_cases hsend : a.sendOk = true
    · simp only [if_pos hsend]
      exact .accepted init c resp _ hrole hparse haccept (.inr rfl)
    · simp only [if_neg hsend]
      exact .accepted init c resp _ hrole hparse haccept (.inl rfl)

theorem handshakeStep_processConfirm
    (hhs : s.hsState = .respSent) : HandshakeStep S s a (s.processConfirm S a).session := by
  unfold processConfirm
  rcases s.finishConfirm_cases S a.data with heq | ⟨box, hrole, hstate, hparse, hfinish, heq⟩
  · rw [heq]
    exact .rejected
  · rw [heq]
    exact .finished box hrole hstate hhs hparse hfinish

theorem handshakeStep_processHandshake : HandshakeStep S s a (s.processHandshake S a).session := by
  unfold processHandshake
  split_ifs with hrole hnone hsent
  · exact s.handshakeStep_processResp S a
  · exact s.handshakeStep_processInit S a hnone
  · exact s.handshakeStep_processConfirm S a hsent
  · exact .rejected

theorem sendPending_cases (seed : Bytes) (sendOk : Bool) :
    (s.sendPending S seed sendOk).1 = s ∨ s.state = .connecting ∧ s.hsState = .none ∧
      s.isInitiator = true ∧ ∃ hs, (hs = .none ∨ hs = .initSent) ∧ (s.sendPending S seed sendOk).1 =
        { s with channel := channelGenEphemeral S seed, hsState := hs } := by
  unfold sendPending
  by_cases hguard : s.state ≠ .connecting ∨ s.fd = none
  · rw [if_pos hguard]
    exact .inl rfl
  · obtain ⟨hstate, _⟩ := not_or.mp hguard
    rw [if_neg hguard]
    by_cases hfirst : s.isInitiator = true ∧ s.hsState = .none
    · have hbuild : s.buildInit S seed = ({ s with channel := channelGenEphemeral S seed },
          some (encodeInit ⟨s.selfPubkey, (channelGenEphemeral S seed).ephPub⟩)) :=
        if_pos ⟨hfirst.1, not_not.mp hstate⟩
      rw [if_pos hfirst, hbuild]
      refine .inr ⟨not_not.mp hstate, hfirst.2, hfirst.1, ?_⟩
      by_cases hsend : sendOk = true
      · exact ⟨.initSent, .inr rfl, by simp only [if_pos hsend]⟩
      · exact ⟨.none, .inl rfl, by simp only [if_neg hsend, ← hfirst.2]⟩
    · rw [if_neg hfirst]
      exact .inl rfl

end Session
end Norn
