import Norn.Session.Steps
import Norn.Session.Handshake

/-!
# What an event changes in a session

Everything but the handshake and a close changes only the streams of a session.
-/

namespace Norn
namespace Session

def OnlyStreams (s s' : Session) : Prop :=
  ∃ svc streams, s' = { s with svc := svc, streams := streams }

variable {S : Suite Bytes} {reg : Registry} {s s' s'' : Session}

theorem OnlyStreams.refl (s : Session) : s.OnlyStreams s := ⟨s.svc, s.streams, rfl⟩

theorem OnlyStreams.trans (h : s.OnlyStreams s') (h' : s'.OnlyStreams s'') : s.OnlyStreams s'' := by
  obtain ⟨svc, streams, rfl⟩ := h
  obtain ⟨svc', streams', rfl⟩ := h'
  exact ⟨svc', streams', rfl⟩

theorem onlyStreams_getSvc {service : UInt16} (h : s.getSvc service = some s') :
    s.OnlyStreams s' := by
  obtain ⟨svc, _, rfl⟩ := Option.map_eq_some_iff.mp h
  exact ⟨svc, s.streams, rfl⟩

theorem onlyStreams_maybeAcceptStream (reg : Registry) (service sid : UInt16) :
    s.OnlyStreams (s.maybeAcceptStream reg service sid).1 := by
  unfold maybeAcceptStream
  split
  · exact .refl s
  · exact ⟨s.svc, _, rfl⟩

variable (service : UInt16)

theorem onlyStreams_driveSvc (f : Mux → Mux × List Bytes) :
    s.OnlyStreams (s.driveSvc service f).1 :=
  ⟨_, s.streams, rfl⟩

theorem onlyStreams_inputStream (body : Bytes) :
    s.OnlyStreams (s.inputStream reg service body).session := by
  unfold inputStream
  split_ifs
  · exact .refl s
  · cases hs : s.getSvc service with
    | none => exact .refl s
    | some s₁ =>
      have haccept := (onlyStreams_getSvc hs).trans
        (onlyStreams_maybeAcceptStream reg service (sidOf body))
      exact haccept.trans (onlyStreams_driveSvc service fun m => m.streammuxInput body 0)

theorem onlyStreams_processFrame (data : Bytes) :
    s.OnlyStreams (s.processFrame S reg data).session := by
  unfold processFrame
  split
  · exact .refl s
  · split_ifs
    · exact .refl s
    · exact onlyStreams_inputStream _ _
    all_goals exact .refl s

theorem onlyStreams_streamOpenSvc : s.OnlyStreams (s.streamOpenSvc service).1 := by
  unfold streamOpenSvc
  split_ifs
  · exact .refl s
  · cases hs : s.getSvc service with
    | none => exact .refl s
    | some s₁ =>
      have hopened := onlyStreams_getSvc hs
      cases hsm : s₁.svc.get? service with
      | none =>
        simp only [hsm]
        exact .refl s
      | some sm =>
        simp only [hsm]
        split
        · exact hopened.trans ⟨_, s₁.streams, rfl⟩
        · exact hopened.trans ⟨_, _, rfl⟩

theorem onlyStreams_streamWrite (i : ℕ) (data : Bytes) : s.OnlyStreams (s.streamWrite i data).1 := by
  unfold streamWrite
  cases s.streams[i]? with
  | none => exact .refl s
  | some w =>
    simp only
    split_ifs
    · exact .refl s
    · split
      · exact .refl s
      · exact ⟨_, s.streams, rfl⟩

theorem onlyStreams_streamRead (i cap : ℕ) : s.OnlyStreams (s.streamRead i cap).1 := by
  unfold streamRead
  cases s.streams[i]? with
  | none => exact .refl s
  | some w =>
    simp only
    split_ifs
    · exact .refl s
    · exact ⟨_, s.streams, rfl⟩

theorem onlyStreams_streamClose (i : ℕ) : s.OnlyStreams (s.streamClose i).1 := by
  unfold streamClose
  cases s.streams[i]? with
  | none => exact .refl s
  | some w =>
    simp only
    split_ifs
    · exact .refl s
    · exact (onlyStreams_driveSvc _ _).trans ⟨_, _, rfl⟩

theorem onlyStreams_streamReset (i : ℕ) : s.OnlyStreams (s.streamReset i).1 := by
  unfold streamReset
  cases s.streams[i]? with
  | none => exact .refl s
  | some w =>
    simp only
    split_ifs
    · exact .refl s
    · exact ⟨s.svc, _, rfl⟩

/-- All that an event can do to a session. -/
inductive Change (S : Suite Bytes) (s : Session) : SessionEvent → Session → Prop
  | streams {e : SessionEvent} {s' : Session} (only : s.OnlyStreams s') : Change S s e s'
  | pending (seed : Bytes) (sendOk : Bool) (hs : HsState) (state : s.state = .connecting)
      (role : s.isInitiator = true) :
      Change S s (.pending seed sendOk)
        { s with channel := channelGenEphemeral S seed, hsState := hs }
  | handshake (a : Arrival) {s' : Session} (state : s.state = .connecting)
      (source : s.FromPeer a) (step : HandshakeStep S s a s') : Change S s (.packet a) s'
  | closed (callback : Bool) :
      Change S s (.closeSession callback)
        { s with state := .closed, callback := callback, fd := none }

theorem change_processPacket (S : Suite Bytes) (reg : Registry) (s : Session) (a : Arrival) :
    Change S s (.packet a) (s.processPacket S reg a).session := by
  unfold processPacket
  by_cases hguard : a.data = [] ∨ ¬ s.FromPeer a
  · rw [if_pos hguard]
    exact .streams (.refl s)
  · rw [if_neg hguard]
    have hsource : s.FromPeer a := not_not.mp (not_or.mp hguard).2
    cases hstate : s.state with
    | connecting => exact .handshake a hstate hsource (s.handshakeStep_processHandshake S a)
    | established => exact .streams (onlyStreams_processFrame _)
    | resolving | closing | closed => exact .streams (.refl s)

theorem change_apply (S : Suite Bytes) (reg : Registry) (s : Session) (e : SessionEvent) :
    Change S s e (s.apply S reg e).1 := by
  cases e with
  | packet a => exact change_processPacket S reg s a
  | pending seed sendOk =>
    change Change S s (.pending seed sendOk) (s.sendPending S seed sendOk).1
    rcases s.sendPending_cases S seed sendOk with heq | ⟨hstate, _, hrole, hs, _, heq⟩
    · rw [heq]
      exact .streams (.refl s)
    · rw [heq]
      exact .pending seed sendOk hs hstate hrole
  | timers => exact .streams ⟨_, s.streams, rfl⟩
  | openSvc service => exact .streams (onlyStreams_streamOpenSvc service)
  | write i data => exact .streams (onlyStreams_streamWrite i data)
  | read i cap => exact .streams (onlyStreams_streamRead i cap)
  | close i => exact .streams (onlyStreams_streamClose i)
  | reset i => exact .streams (onlyStreams_streamReset i)
  | datagram service data => exact .streams (.refl s)
  | closeSession callback => exact .closed callback

variable {e : SessionEvent}

theorem Change.isInitiator (h : Change S s e s') : s'.isInitiator = s.isInitiator := by
  cases h with
  | streams only =>
    obtain ⟨svc, streams, rfl⟩ := only
    rfl
  | pending seed sendOk hs state role | closed callback => rfl
  | handshake a state source step => cases step <;> rfl

theorem Change.after_handshake (h : Change S s e s') (hnot : s.state ≠ .connecting) :
    s'.channel = s.channel ∧ (s'.state = s.state ∨ s'.state = .closed) := by
  cases h with
  | streams only =>
    obtain ⟨svc, streams, rfl⟩ := only
    exact ⟨rfl, Or.inl rfl⟩
  | pending seed sendOk hs state role | handshake a state source step => exact absurd state hnot
  | closed callback => exact ⟨rfl, Or.inr rfl⟩

end Session
end Norn
