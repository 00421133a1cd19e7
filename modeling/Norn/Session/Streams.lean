import Norn.Session.Handshake
import Norn.Session.Steps
import Norn.Stream.FastRetransmit

/-!
# The streams of a session

Segments are recognised by the service and the stream id in front of them.
-/

namespace Norn
open Option

/-- A property that all calls of a stream at time `0` keep. -/
structure StreamInvariant (P : Stream → Prop) : Prop where
  new : P streamNew
  write : ∀ st data, P st → P (st.streamWrite data 0).2.1
  read : ∀ st cap, P st → P (st.streamRead cap).2
  input : ∀ st seg, P st → P (st.streamInput seg 0).1
  tick : ∀ st, P st → P (st.streamTick 0).1
  finish : ∀ st, P st → P (st.streamFinish 0).1

section
variable {P : Stream → Prop}

def Mux.All (P : Stream → Prop) (m : Mux) : Prop := ∀ sid st, m.get? sid = some st → P st

theorem Mux.all_new : Mux.All P streammuxNew := fun _ _ h => by cases h

variable {m : Mux} {sid : UInt16}

theorem Mux.All.modify (h : m.All P) {f : Stream → Stream} (hf : ∀ st, P st → P (f st))
    (sid : UInt16) : Mux.All P (m.modify sid f) := by
  intro j st hst
  rw [Table.get?_modify] at hst
  split_ifs at hst
  · obtain ⟨st₀, hst₀, rfl⟩ := map_eq_some_iff.mp hst
    exact hf st₀ (h j st₀ hst₀)
  · exact h j st hst

section
variable (hP : StreamInvariant P)
include hP

theorem Mux.All.openStream {m' : Mux} (h : m.All P) (hm : m.openStream sid = some m') : m'.All P := by
  intro j st hst
  rw [Table.get?_ensure hm] at hst
  split_ifs at hst
  · cases hst
    cases hget : m.get? sid with
    | none => exact hP.new
    | some st₀ => exact h sid st₀ hget
  · exact h j st hst

theorem Mux.All.input (h : m.All P) (seg : Bytes) : Mux.All P (m.streammuxInput seg 0).1 := by
  unfold Mux.streammuxInput
  split_ifs
  · exact h
  · cases hm : m.openStream (sidOf seg) with
    | none => exact h
    | some m' => exact (Mux.All.openStream hP h hm).modify (fun st => hP.input st _) _

theorem Mux.All.finish (h : m.All P) (sid : UInt16) : Mux.All P (m.streammuxFinish sid 0).1 := by
  unfold Mux.streammuxFinish
  cases hm : m.openStream sid with
  | none => exact h
  | some m' => exact (Mux.All.openStream hP h hm).modify (fun st => hP.finish st) _

theorem Mux.All.write {m' : Mux} (h : m.All P) {data : Bytes} {n : ℕ} {segs : List Bytes}
    (hm : m.streammuxWrite sid data 0 = some (n, m', segs)) : m'.All P := by
  obtain ⟨m₁, hm₁, heq⟩ := map_eq_some_iff.mp hm
  cases heq
  exact (Mux.All.openStream hP h hm₁).modify (fun st => hP.write st data) _

theorem Mux.All.tick (h : m.All P) : Mux.All P (m.streammuxTick 0).1 := by
  intro sid st hst
  rw [streammuxTick, Table.get?_map] at hst
  obtain ⟨st₀, hst₀, rfl⟩ := map_eq_some_iff.mp hst
  exact hP.tick st₀ (h sid st₀ hst₀)

end

namespace Session

def All (P : Stream → Prop) (s : Session) : Prop :=
  ∀ service sm, s.svc.get? service = some sm → Mux.All P sm.mux

variable {s s' : Session}

theorem All.of_svc (h : s.All P) (heq : s'.svc = s.svc) : s'.All P := by
  intro service sm hsm
  rw [heq] at hsm
  exact h service sm hsm

theorem All.getSvc (h : s.All P) {service : UInt16} (hs : s.getSvc service = some s') : s'.All P := by
  obtain ⟨svc, hsvc, rfl⟩ := map_eq_some_iff.mp hs
  intro j sm hsm
  change svc.get? j = some sm at hsm
  rw [Table.get?_ensure hsvc] at hsm
  by_cases hj : j = service
  · rw [if_pos hj] at hsm
    cases hsm
    cases hget : s.svc.get? service with
    | none => exact Mux.all_new
    | some sm₀ => exact h service sm₀ hget
  · rw [if_neg hj] at hsm
    exact h j sm hsm

variable {f : SvcMux → SvcMux}

theorem All.modify (h : s.All P) (hf : ∀ sm, Mux.All P sm.mux → Mux.All P (f sm).mux)
    (service : UInt16) : All P { s with svc := s.svc.modify service f } := by
  intro j sm hsm
  change (s.svc.modify service f).get? j = some sm at hsm
  rw [Table.get?_modify] at hsm
  split_ifs at hsm
  · obtain ⟨sm₀, hsm₀, rfl⟩ := map_eq_some_iff.mp hsm
    exact hf sm₀ (h j sm₀ hsm₀)
  · exact h j sm hsm

theorem All.replace (h : s.All P) (hm : m.All P) (hf : ∀ sm, (f sm).mux = m) (service : UInt16) :
    All P { s with svc := s.svc.modify service f } :=
  h.modify (fun sm _ => by rw [hf sm]; exact hm) service

theorem All.driveSvc (h : s.All P) {f : Mux → Mux × List Bytes}
    (hf : ∀ m, Mux.All P m → Mux.All P (f m).1) (service : UInt16) :
    (s.driveSvc service f).1.All P :=
  h.modify (fun sm hm => hf sm.mux hm) service

theorem svc_maybeAcceptStream (reg : Registry) (s : Session) (service sid : UInt16) :
    (s.maybeAcceptStream reg service sid).1.svc = s.svc := by
  unfold maybeAcceptStream
  split_ifs <;> rfl

theorem svc_processHandshake (S : Suite Bytes) (s : Session) (a : Arrival) :
    (s.processHandshake S a).session.svc = s.svc := by
  have hstep := s.handshakeStep_processHandshake S a
  generalize (s.processHandshake S a).session = s' at hstep
  cases hstep <;> rfl

theorem svc_sendPending (S : Suite Bytes) (s : Session) (seed : Bytes) (sendOk : Bool) :
    (s.sendPending S seed sendOk).1.svc = s.svc := by
  rcases s.sendPending_cases S seed sendOk with heq | ⟨_, _, _, hs, _, heq⟩ <;> rw [heq]

section
variable (hP : StreamInvariant P) {S : Suite Bytes} {reg : Registry}
include hP

theorem All.inputStream (h : s.All P) (service : UInt16) (body : Bytes) :
    (s.inputStream reg service body).session.All P := by
  unfold Session.inputStream
  split_ifs
  · exact h
  · cases hs : s.getSvc service with
    | none => exact h
    | some s₁ =>
      exact ((h.getSvc hs).of_svc (svc_maybeAcceptStream _ _ _ _)).driveSvc
        (fun m hm => hm.input hP body) service

theorem All.processPacket (h : s.All P) (a : Arrival) : (s.processPacket S reg a).session.All P := by
  unfold Session.processPacket
  split_ifs
  · exact h
  · split
    · unfold Session.processFrame
      split
      · exact h
      · split_ifs
        · exact h
        · exact h.inputStream hP _ _
        all_goals exact h
    · exact h.of_svc (s.svc_processHandshake S a)
    · exact h

theorem All.streamOpenSvc (h : s.All P) (service : UInt16) : (s.streamOpenSvc service).1.All P := by
  unfold Session.streamOpenSvc
  split_ifs
  · exact h
  · cases hs : s.getSvc service with
    | none => exact h
    | some s₁ =>
      have h₁ := h.getSvc hs
      cases hsm : s₁.svc.get? service with
      | none => simpa only [hsm] using h
      | some sm =>
        simp only [hsm]
        have hmux := h₁ service sm hsm
        cases hm : sm.mux.openStream sm.nextStreamId with
        | none =>
          exact h₁.replace hmux (f := fun _ => ⟨sm.mux, sm.nextStreamId + 2⟩) (fun _ => rfl) service
        | some m =>
          exact (h₁.replace (Mux.All.openStream hP hmux hm)
            (f := fun _ => ⟨m, sm.nextStreamId + 2⟩) (fun _ => rfl) service).of_svc rfl

theorem All.streamWrite (h : s.All P) (i : ℕ) (data : Bytes) : (s.streamWrite i data).1.All P := by
  unfold Session.streamWrite
  cases s.streams[i]? with
  | none => exact h
  | some w =>
    simp only
    split_ifs
    · exact h
    · split
      · exact h
      · rename_i n m segs hw
        obtain ⟨sm, hsm, hm⟩ := bind_eq_some_iff.mp hw
        exact h.replace (Mux.All.write hP (h _ sm hsm) hm) (fun _ => rfl) _

theorem All.apply (h : s.All P) (e : SessionEvent) : (s.apply S reg e).1.All P := by
  cases e with
  | packet a => exact h.processPacket hP a
  | pending seed sendOk => exact h.of_svc (s.svc_sendPending S seed sendOk)
  | timers =>
    intro service sm hsm
    change (s.svc.map _).get? service = some sm at hsm
    rw [Table.get?_map] at hsm
    obtain ⟨sm₀, hsm₀, rfl⟩ := map_eq_some_iff.mp hsm
    exact (h service sm₀ hsm₀).tick hP
  | openSvc service => exact h.streamOpenSvc hP service
  | write i data => exact h.streamWrite hP i data
  | read i cap =>
    change (s.streamRead i cap).1.All P
    unfold Session.streamRead
    cases s.streams[i]? with
    | none => exact h
    | some w =>
      simp only
      split_ifs
      · exact h
      · exact h.modify (fun sm hm => hm.modify (fun st => hP.read st cap) _) _
  | close i =>
    change (s.streamClose i).1.All P
    unfold Session.streamClose
    cases s.streams[i]? with
    | none => exact h
    | some w =>
      simp only
      split_ifs
      · exact h
      · exact (h.driveSvc (fun m hm => hm.finish hP w.streamId) w.service).of_svc rfl
  | reset i =>
    change (s.streamReset i).1.All P
    unfold Session.streamReset
    cases s.streams[i]? with
    | none => exact h
    | some w =>
      simp only
      split_ifs <;> exact h
  | datagram service data => exact h
  | closeSession cb => exact h.of_svc rfl

end
end Session

theorem World.streams_of_run (hP : StreamInvariant P) {S : Suite Bytes} (run : Run (World.system S)) :
    ∀ k ≤ run.len, ∀ h s, (run.state k).client.heap h = some s → s.All P := by
  have hempty : ∀ s : Session, s.svc = Table.empty → s.All P := by
    intro s hs service sm hsm
    rw [hs] at hsm
    cases hsm
  refine World.sessions_of_run (fun c o => ?_) (fun _ _ _ _ => hempty _ rfl)
    (fun reg s e h => h.apply hP e) run
  cases o <;> exact hempty _ rfl

end
end Norn
