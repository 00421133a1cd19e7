import Norn.Session.Changes

/-!
# When a session is established and who is told

A session keeps the state it shows and that of its handshake in two fields.
-/

namespace Norn
open List Option
namespace Session

def Quiet (effects : List Effect) : Prop := ∀ state, Effect.session state ∉ effects

theorem Quiet.nil : Quiet [] := fun _ => not_mem_nil

variable {l : List Effect} {a : Arrival} {e : SessionEvent}

theorem Quiet.append {l' : List Effect} (h : Quiet l) (h' : Quiet l') : Quiet (l ++ l') := by
  intro state hmem
  rcases mem_append.mp hmem with hmem | hmem
  · exact h state hmem
  · exact h' state hmem

def notices (effects : List Effect) : ℕ := effects.count (.session .established)

theorem Quiet.notices (h : Quiet l) : notices l = 0 :=
  count_eq_zero.mpr (h .established)

variable {S : Suite Bytes} {reg : Registry} {s : Session}

theorem quiet_sealSend (frame : Bytes) : Quiet (s.sealSend frame) := by
  unfold sealSend
  split_ifs
  · simp [Quiet]
  · exact .nil

variable (service : UInt16)

theorem quiet_muxSend (segs : List Bytes) : Quiet (s.muxSend service segs) := by
  unfold muxSend
  split_ifs
  · exact .nil
  · intro state hmem
    obtain ⟨seg, _, hmem⟩ := mem_flatMap.mp hmem
    exact quiet_sealSend _ state hmem

theorem quiet_driveSvc (f : Mux → Mux × List Bytes) : Quiet (s.driveSvc service f).2 := by
  unfold driveSvc
  cases s.svc.get? service with
  | none => exact .nil
  | some sm => exact quiet_muxSend service _

theorem quiet_maybeAcceptStream (service sid : UInt16) :
    Quiet (s.maybeAcceptStream reg service sid).2 := by
  unfold maybeAcceptStream
  split_ifs <;> simp [Quiet]

theorem quiet_processFrame (data : Bytes) : Quiet (s.processFrame S reg data).effects := by
  unfold processFrame inputStream
  split
  · exact .nil
  · split_ifs
    · exact .nil
    · exact .nil
    · split
      · exact .nil
      · exact (quiet_maybeAcceptStream _ _).append (quiet_driveSvc _ _)
    all_goals simp [Quiet]

theorem quiet_sendPending (seed : Bytes) (sendOk : Bool) : Quiet (s.sendPending S seed sendOk).2 := by
  unfold sendPending
  split
  · exact .nil
  · split
    · split
      · exact .nil
      · split <;> simp [Quiet]
    · exact .nil

theorem quiet_streamOpenSvc : Quiet (s.streamOpenSvc service).2.2 := by
  unfold streamOpenSvc
  split_ifs
  · exact .nil
  · split
    · exact .nil
    · split
      · exact .nil
      · split <;> simp [Quiet]

theorem quiet_streamWrite (i : ℕ) (data : Bytes) : Quiet (s.streamWrite i data).2.2 := by
  unfold streamWrite
  split
  · exact .nil
  · split_ifs
    · exact .nil
    · split
      · exact .nil
      · exact quiet_muxSend _ _

theorem quiet_streamClose (i : ℕ) : Quiet (s.streamClose i).2 := by
  unfold streamClose
  split
  · exact .nil
  · split_ifs
    · exact .nil
    · exact (quiet_driveSvc _ _).append (by simp [Quiet])

theorem quiet_streamReset (i : ℕ) : Quiet (s.streamReset i).2 := by
  unfold streamReset
  split
  · exact .nil
  · split_ifs <;> simp [Quiet]

theorem quiet_sendDatagram (data : Bytes) : Quiet (s.sendDatagram service data) := by
  unfold sendDatagram
  split_ifs
  · exact .nil
  · exact quiet_sealSend _

theorem quiet_tickMuxes (now : UInt32) : Quiet (s.tickMuxes now).2 := by
  intro state hmem
  obtain ⟨e, _, hmem⟩ := mem_flatMap.mp hmem
  exact quiet_muxSend _ _ state hmem

def ValidResp (S : Suite Bytes) (s : Session) (data : Bytes) : Prop :=
  ∃ resp, parseResp data = some resp ∧
    channelAuthVerify S resp.sig resp.pub s.channel.ephPub resp.eph = true ∧
    (channelDerive S s.channel resp.eph true).isSome = true ∧
    (s.sign S (S.join s.channel.ephPub resp.eph)).isSome = true

def ValidConfirm (S : Suite Bytes) (s : Session) (data : Bytes) : Prop :=
  ∃ box, parseConfirm data = some box ∧ channelHsFinish S s.channel s.peerPubkey box = true

/-- The packet completes the handshake. -/
def Completes (S : Suite Bytes) (s : Session) (a : Arrival) : Prop :=
  a.data ≠ [] ∧ s.FromPeer a ∧ s.state = .connecting ∧
    (s.isInitiator = true ∧ s.hsState = .initSent ∧ s.ValidResp S a.data ∨
      s.isInitiator = false ∧ s.hsState = .respSent ∧ s.ValidConfirm S a.data)

theorem validResp_of_confirm {nonce data box : Bytes} {resp : RespMsg Bytes} {c : Channel Bytes}
    (hparse : parseResp data = some resp)
    (h : channelHsConfirmSigned S s.channel (s.sign S) nonce resp = (c, some box)) :
    s.ValidResp S data := by
  obtain ⟨hverify, hderive, sig, hsig, _⟩ := channelHsConfirmSigned_some h
  exact ⟨resp, hparse, hverify, by rw [hderive]; rfl,
    isSome_iff_exists.mpr ⟨sig, hsig⟩⟩

theorem not_validResp_of_none {nonce data : Bytes} (hrole : s.isInitiator = true)
    (hstate : s.state = .connecting) (h : (s.confirmResp S nonce data).2 = none) :
    ¬s.ValidResp S data := by
  rintro ⟨resp, hparse, hverify, hderive, hsign⟩
  obtain ⟨c, hc⟩ := isSome_iff_exists.mp hderive
  obtain ⟨sig, hsig⟩ := isSome_iff_exists.mp hsign
  have heph : c.ephPub = s.channel.ephPub := (channelDerive_spec hc).2.1
  have hconfirm : channelHsConfirmSigned S s.channel (s.sign S) nonce resp =
      (c, some (S.secretbox c.txKey nonce sig)) := by
    rw [channelHsConfirmSigned, if_pos hverify, hc]
    simp only [authSignWith, heph, hsig, map_some]
  rw [confirmResp, if_neg (by simp [hrole, hstate]), hparse] at h
  simp [hconfirm] at h

/-- What an event does to the two states, and how often it tells. -/
inductive Advance (S : Suite Bytes) (s : Session) : SessionEvent → Session → ℕ → Prop
  | waits {e : SessionEvent} {s' : Session}
      (incomplete : ∀ a, e = .packet a → ¬s.Completes S a) (state : s'.state = s.state)
      (hs : s'.hsState = s.hsState ∨ s.state = .connecting ∧ s'.hsState ≠ .established)
      (callback : s'.callback = s.callback) : Advance S s e s' 0
  | completed {a : Arrival} {s' : Session} (completes : s.Completes S a)
      (sent : s.isInitiator = true → a.sendOk = true) (state : s'.state = .established)
      (hs : s'.hsState = .established) (callback : s'.callback = s.callback) :
      Advance S s (.packet a) s' (if s.callback then 1 else 0)
  | unsent {a : Arrival} {s' : Session} (completes : s.Completes S a)
      (role : s.isInitiator = true) (failed : a.sendOk = false) (state : s'.state = .established)
      (hs : s'.hsState = .initSent) (callback : s'.callback = s.callback) :
      Advance S s (.packet a) s' 0

theorem notices_establish {s : Session} (h : Quiet l) :
    notices (s.establish l).effects = if s.callback then 1 else 0 := by
  have hl : l.count (.session .established) = 0 := h.notices
  unfold notices establish
  rw [count_append, hl]
  cases s.callback <;> rfl

theorem advance_processResp (hdata : a.data ≠ []) (hsource : s.FromPeer a)
    (hstate : s.state = .connecting) (hrole : s.isInitiator = true) :
    Advance S s (.packet a) (s.processResp S a).session (notices (s.processResp S a).effects) := by
  have hwaits : ∀ {s' : Session}, (s.hsState = .initSent → ¬s.ValidResp S a.data) →
      s'.state = s.state → s'.hsState = s.hsState → s'.callback = s.callback →
        Advance S s (.packet a) s' 0 := by
    intro s' hno hsame hhs hcallback
    refine .waits ?_ hsame (.inl hhs) hcallback
    rintro _ ⟨⟩ ⟨_, _, _, ⟨_, hsent, hvalid⟩ | ⟨hresponder, _⟩⟩
    · exact hno hsent hvalid
    · rw [hrole] at hresponder
      cases hresponder
  unfold processResp
  by_cases hsent : s.hsState = .initSent
  swap
  · rw [if_pos hsent]
    exact hwaits (fun h => absurd h hsent) rfl rfl rfl
  rw [if_neg (not_not.mpr hsent)]
  rcases s.confirmResp_cases S a.random a.data with
    ⟨c, heq⟩ | ⟨resp, c, box, _, _, hparse, hconfirm, heq⟩
  · rw [heq]
    exact hwaits (fun _ => not_validResp_of_none hrole hstate (by rw [heq])) rfl rfl rfl
  · have hcompletes : s.Completes S a :=
      ⟨hdata, hsource, hstate, .inl ⟨hrole, hsent, validResp_of_confirm hparse hconfirm⟩⟩
    rw [heq]
    cases hsend : a.sendOk with
    | true =>
      dsimp only
      rw [if_pos rfl, notices_establish (by simp [Quiet])]
      exact .completed hcompletes (fun _ => hsend) rfl rfl rfl
    | false => exact .unsent hcompletes hrole hsend rfl hsent rfl

theorem advance_processInit (hstate : s.state = .connecting) (hnone : s.hsState = .none) :
    Advance S s (.packet a) (s.processInit S a).session (notices (s.processInit S a).effects) := by
  have hincomplete : ∀ b, SessionEvent.packet a = .packet b → ¬s.Completes S b := by
    rintro _ ⟨⟩ ⟨_, _, _, ⟨_, hsent, _⟩ | ⟨_, hsent, _⟩⟩
    · rw [hnone] at hsent
      cases hsent
    · rw [hnone] at hsent
      cases hsent
  unfold processInit
  rcases s.acceptInit_cases S a.random a.data with ⟨c, heq⟩ | ⟨init, c, resp, _, _, _, _, heq⟩
  · rw [heq]
    exact .waits hincomplete rfl (.inl rfl) rfl
  · rw [heq]
    cases a.sendOk with
    | true => exact .waits hincomplete rfl (.inr ⟨hstate, by rintro ⟨⟩⟩) rfl
    | false => exact .waits hincomplete rfl (.inl rfl) rfl

theorem advance_processConfirm (hdata : a.data ≠ []) (hsource : s.FromPeer a)
    (hstate : s.state = .connecting) (hrole : s.isInitiator = false)
    (hsent : s.hsState = .respSent) : Advance S s (.packet a) (s.processConfirm S a).session
      (notices (s.processConfirm S a).effects) := by
  unfold processConfirm
  rcases s.finishConfirm_cases S a.data with heq | ⟨box, _, _, hparse, hfinish, heq⟩
  · rw [heq]
    refine .waits ?_ rfl (.inl rfl) rfl
    rintro _ ⟨⟩ ⟨_, _, _, ⟨hinitiator, _⟩ | ⟨_, _, box, hparse, hfinish⟩⟩
    · rw [hrole] at hinitiator
      cases hinitiator
    · rw [finishConfirm, if_neg (by simp [hrole, hstate]), hparse] at heq
      simp [hfinish] at heq
  · have hcompletes : s.Completes S a :=
      ⟨hdata, hsource, hstate, .inr ⟨hrole, hsent, box, hparse, hfinish⟩⟩
    rw [heq]
    dsimp only
    rw [notices_establish .nil]
    refine .completed hcompletes (fun h => ?_) rfl rfl rfl
    rw [hrole] at h
    cases h

theorem advance_processPacket (a : Arrival) :
    Advance S s (.packet a) (s.processPacket S reg a).session
      (notices (s.processPacket S reg a).effects) := by
  have hidle : ¬(a.data ≠ [] ∧ s.FromPeer a ∧ s.state = .connecting) →
      ∀ b, SessionEvent.packet a = .packet b → ¬s.Completes S b := by
    rintro hno _ ⟨⟩ ⟨hdata, hsource, hstate, _⟩
    exact hno ⟨hdata, hsource, hstate⟩
  unfold processPacket
  by_cases hguard : a.data = [] ∨ ¬s.FromPeer a
  · rw [if_pos hguard]
    refine .waits (hidle ?_) rfl (.inl rfl) rfl
    rintro ⟨hdata, hsource, _⟩
    exact hguard.elim hdata (not_not.mpr hsource)
  rw [if_neg hguard]
  obtain ⟨hdata, hsource⟩ := not_or.mp hguard
  have hsource := not_not.mp hsource
  cases hstate : s.state with
  | established =>
    have honly : s.OnlyStreams (s.processFrame S reg a.data).session := onlyStreams_processFrame _
    obtain ⟨svc, streams, heq⟩ := honly
    dsimp only
    rw [(quiet_processFrame a.data).notices, heq]
    exact .waits (hidle (by rw [hstate]; rintro ⟨_, _, ⟨⟩⟩)) rfl (.inl rfl) rfl
  | connecting =>
    dsimp only
    unfold processHandshake
    by_cases hrole : s.isInitiator = true
    · rw [if_pos hrole]
      exact advance_processResp hdata hsource hstate hrole
    rw [if_neg hrole]
    have hrole := Bool.eq_false_of_not_eq_true hrole
    by_cases hnone : s.hsState = .none
    · rw [if_pos hnone]
      exact advance_processInit hstate hnone
    rw [if_neg hnone]
    by_cases hsent : s.hsState = .respSent
    · rw [if_pos hsent]
      exact advance_processConfirm hdata hsource hstate hrole hsent
    rw [if_neg hsent]
    refine .waits ?_ rfl (.inl rfl) rfl
    rintro _ ⟨⟩ ⟨_, _, _, ⟨hinitiator, _⟩ | ⟨_, hresp, _⟩⟩
    · rw [hrole] at hinitiator
      cases hinitiator
    · exact hsent hresp
  | _ => exact .waits (hidle (by rw [hstate]; rintro ⟨_, _, ⟨⟩⟩)) rfl (.inl rfl) rfl

theorem advance_streams {s' : Session} (he : ∀ a, e ≠ .packet a) (only : s.OnlyStreams s')
    (hl : Quiet l) : Advance S s e s' (notices l) := by
  rw [hl.notices]
  obtain ⟨svc, streams, rfl⟩ := only
  exact .waits (fun a ha => absurd ha (he a)) rfl (.inl rfl) rfl

theorem advance_apply (hclose : ∀ callback, e ≠ .closeSession callback) :
    Advance S s e (s.apply S reg e).1 (notices (s.apply S reg e).2) := by
  cases e with
  | packet a => exact advance_processPacket a
  | pending seed sendOk =>
    change Advance S s _ (s.sendPending S seed sendOk).1 (notices (s.sendPending S seed sendOk).2)
    rw [(quiet_sendPending seed sendOk).notices]
    rcases s.sendPending_cases S seed sendOk with heq | ⟨hstate, _, _, hs, hor, heq⟩
    · rw [heq]
      exact .waits (by rintro _ ⟨⟩) rfl (.inl rfl) rfl
    · rw [heq]
      refine .waits (by rintro _ ⟨⟩) rfl (.inr ⟨hstate, ?_⟩) rfl
      rcases hor with rfl | rfl <;> rintro ⟨⟩
  | timers => exact advance_streams (by rintro _ ⟨⟩) ⟨_, s.streams, rfl⟩ (quiet_tickMuxes 0)
  | openSvc service =>
    exact advance_streams (by rintro _ ⟨⟩) (onlyStreams_streamOpenSvc service)
      (quiet_streamOpenSvc service)
  | write i data =>
    exact advance_streams (by rintro _ ⟨⟩) (onlyStreams_streamWrite i data)
      (quiet_streamWrite i data)
  | read i cap => exact advance_streams (by rintro _ ⟨⟩) (onlyStreams_streamRead i cap) .nil
  | close i =>
    exact advance_streams (by rintro _ ⟨⟩) (onlyStreams_streamClose i) (quiet_streamClose i)
  | reset i =>
    exact advance_streams (by rintro _ ⟨⟩) (onlyStreams_streamReset i) (quiet_streamReset i)
  | datagram service data =>
    exact advance_streams (by rintro _ ⟨⟩) (.refl s) (quiet_sendDatagram service data)
  | closeSession callback => exact absurd rfl (hclose callback)

def lifetime (S : Suite Bytes) (reg : Registry) : System Session SessionEvent where
  init s := ∃ c : Client,
    (∃ ip port pubkey seed fd callback, s = c.dialed S ip port pubkey seed fd callback) ∨
      ∃ a seed, s = c.accepted S a seed
  next s e s' := (∀ callback, e ≠ .closeSession callback) ∧ s' = (s.apply S reg e).1

def Consistent (s : Session) : Prop := s.state = .established ↔ s.hsState = .established

section

def told (run : Run (lifetime S reg)) : ℕ → ℕ
  | 0 => 0
  | n + 1 => told run n + notices ((run.state n).apply S reg (run.event n)).2

/-- The application is told as often as `expected` says for a session with or without a callback. -/
def ToldAs (expected : Bool → ℕ) (run : Run (lifetime S reg)) (n : ℕ) : Prop :=
  told run n = if (run.state n).state = .established then expected (run.state n).callback else 0

/-- The last message of a dialed session can be sent. -/
def LastMessageSent (run : Run (lifetime S reg)) : Prop :=
  ∀ k < run.len, ∀ a, run.event k = .packet a → (run.state k).Completes S a →
    (run.state k).isInitiator = true → a.sendOk = true

def HasCallback (run : Run (lifetime S reg)) : Prop :=
  ∀ k < run.len, ∀ a, run.event k = .packet a → (run.state k).Completes S a →
    (run.state k).callback = true

variable {run : Run (lifetime S reg)} {expected : Bool → ℕ} {k : ℕ}

theorem advance_run (hk : k < run.len) : Advance S (run.state k) (run.event k) (run.state (k + 1))
      (notices ((run.state k).apply S reg (run.event k)).2) := by
  obtain ⟨hclose, hnext⟩ := run.steps k hk
  rw [hnext]
  exact advance_apply hclose

theorem init_lifetime (hs : (lifetime S reg).init s) : s.state = .connecting ∧ s.hsState = .none := by
  obtain ⟨c, ⟨ip, port, pubkey, seed, fd, callback, rfl⟩ | ⟨a, seed, rfl⟩⟩ := hs
  · exact ⟨rfl, rfl⟩
  · exact ⟨rfl, rfl⟩

theorem consistent_of_sent (hsent : LastMessageSent run)
    (hexpected : ∀ k < run.len, ∀ a, run.event k = .packet a → (run.state k).Completes S a →
      (if (run.state k).callback then 1 else 0) = expected (run.state k).callback) :
    ∀ n ≤ run.len, (run.state n).Consistent ∧ ToldAs expected run n := by
  -- before the handshake is complete the session connects, then it is established in both fields
  have hphase : ∀ n ≤ run.len,
      (run.state n).state = .connecting ∧ (run.state n).hsState ≠ .established ∧
          told run n = 0 ∨
        (run.state n).state = .established ∧ (run.state n).hsState = .established ∧
          told run n = expected (run.state n).callback := by
    refine run.position_induction ?_ ?_
    · obtain ⟨hstate, hhs⟩ := init_lifetime run.start
      exact .inl ⟨hstate, by rw [hhs]; rintro ⟨⟩, rfl⟩
    · intro k hk ih
      have hadvance := advance_run hk
      rw [told]
      generalize hevent : run.event k = e at hadvance ⊢
      generalize notices ((run.state k).apply S reg e).2 = m at hadvance ⊢
      cases hadvance with
      | waits incomplete state hs callback =>
        rw [state, callback, Nat.add_zero]
        rcases ih with ⟨hstate, hne, htold⟩ | ⟨hstate, hhs, htold⟩
        · refine .inl ⟨hstate, ?_, htold⟩
          rcases hs with hs | ⟨_, hs⟩
          · rw [hs]
            exact hne
          · exact hs
        · refine .inr ⟨hstate, ?_, htold⟩
          rcases hs with hs | ⟨hconnecting, _⟩
          · rw [hs, hhs]
          · rw [hstate] at hconnecting
            cases hconnecting
      | completed completes sent state hs callback =>
        rcases ih with ⟨_, _, htold⟩ | ⟨hstate, _⟩
        · refine .inr ⟨state, hs, ?_⟩
          rw [htold, callback, Nat.zero_add]
          exact hexpected k hk _ hevent completes
        · rw [completes.2.2.1] at hstate
          cases hstate
      | unsent completes role failed state hs callback =>
        rw [hsent k hk _ hevent completes role] at failed
        cases failed
  intro n hn
  unfold Consistent ToldAs
  rcases hphase n hn with ⟨hstate, hne, htold⟩ | ⟨hstate, hhs, htold⟩
  · rw [hstate, if_neg (by rintro ⟨⟩)]
    exact ⟨⟨by rintro ⟨⟩, fun h => absurd h hne⟩, htold⟩
  · rw [if_pos hstate]
    exact ⟨iff_of_true hstate hhs, htold⟩

theorem sent_of_consistent (h : ∀ n ≤ run.len, (run.state n).Consistent ∧ ToldAs expected run n)
    (hk : k < run.len) (hevent : run.event k = .packet a)
    (hcompletes : (run.state k).Completes S a) :
    ((run.state k).isInitiator = true → a.sendOk = true) ∧
      (if (run.state k).callback then 1 else 0) = expected (run.state k).callback := by
  obtain ⟨-, htold⟩ := h k hk.le
  obtain ⟨hconsistent, htold'⟩ := h (k + 1) hk
  unfold ToldAs at htold htold'
  rw [hcompletes.2.2.1, if_neg (by rintro ⟨⟩)] at htold
  rw [told, htold, Nat.zero_add] at htold'
  have hadvance := advance_run hk
  rw [hevent] at hadvance htold'
  generalize notices ((run.state k).apply S reg (.packet a)).2 = m at hadvance htold'
  cases hadvance with
  | waits incomplete state hs callback => exact absurd hcompletes (incomplete a rfl)
  | completed completes sent state hs callback =>
    rw [state, if_pos rfl, callback] at htold'
    exact ⟨sent, htold'⟩
  | unsent completes role failed state hs callback =>
    rw [Consistent, hs] at hconsistent
    cases hconsistent.mp state

/-- The two states agree and the application is told once exactly if the last message of a dialed
session can be sent and there is a callback. -/
theorem established_notified_iff_lastMessageSent (S : Suite Bytes) (reg : Registry)
    (run : Run (lifetime S reg)) :
    ((∀ n ≤ run.len, (run.state n).Consistent ∧ ToldAs (fun _ => 1) run n) ↔
      LastMessageSent run ∧ HasCallback run) ∧
    ((∀ n ≤ run.len, (run.state n).Consistent ∧
        ToldAs (fun callback => if callback then 1 else 0) run n) ↔ LastMessageSent run) := by
  refine ⟨⟨fun h => ⟨?_, ?_⟩, ?_⟩, ⟨fun h => ?_, fun h => ?_⟩⟩
  · intro k hk a hevent hcompletes
    exact (sent_of_consistent h hk hevent hcompletes).1
  · intro k hk a hevent hcompletes
    have honce := (sent_of_consistent h hk hevent hcompletes).2
    by_contra hno
    rw [if_neg hno] at honce
    cases honce
  · rintro ⟨hsent, hcallback⟩
    exact consistent_of_sent hsent fun k hk a hevent hcompletes =>
      if_pos (hcallback k hk a hevent hcompletes)
  · intro k hk a hevent hcompletes
    exact (sent_of_consistent h hk hevent hcompletes).1
  · exact consistent_of_sent h fun _ _ _ _ _ => rfl

end

def unsentEvent : ℕ → SessionEvent
  | 0 => .pending (replicate 32 9) true
  | k + 1 => .packet ⟨encodeResp ⟨replicate 32 7, replicate 32 8,
      replicate 32 9 ++ replicate 32 8⟩, 1, 1, replicate 24 0, k ≠ 0⟩

def unsentState : ℕ → Session
  | 0 => (World.boot [] []).client.dialed plainSuite 1 1 none (replicate 32 3) 5 true
  | k + 1 => ((unsentState k).apply plainSuite (World.boot [] []).client.registry (unsentEvent k)).1

def unsentRun : Run (lifetime plainSuite (World.boot [] []).client.registry) where
  len := 3
  state := unsentState
  event := unsentEvent
  start := ⟨(World.boot [] []).client, .inl ⟨1, 1, none, replicate 32 3, 5, true, rfl⟩⟩
  steps k _ := by
    refine ⟨?_, rfl⟩
    rintro callback h
    cases k <;> cases h

theorem unsentRun_inconsistent :
    (unsentRun.state 3).callback = true ∧ (unsentRun.state 3).state = .established ∧
      (unsentRun.state 3).hsState = .initSent ∧ told unsentRun 3 = 0 := by
  decide +kernel

end Session
end Norn
