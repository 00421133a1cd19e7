import Norn.Session.Channel
import Norn.Session.Mux

/-!
# Sessions

The sessions of `norn_session.c`: the handshake with a peer, and the application frames of the
established session. A call returns its effects in order; what an application does in a callback are
further calls. Messages that are sealed stand as their plaintext. Times are those the source passes
on: it uses `0` throughout.
-/

namespace Norn

def nornMaxServices : ℕ := 8
def nornSvcDefault : UInt16 := 0
def appframeHdr : ℕ := 3
def appkindStream : UInt8 := 0
def appkindDgram : UInt8 := 1
def frameCap : ℕ := 2048

inductive SessionState
  | resolving
  | connecting
  | established
  | closing
  | closed
  deriving DecidableEq

inductive HsState
  | none
  | initSent
  | respSent
  | confirmSent
  | established
  deriving DecidableEq

inductive StreamState
  | ready
  | closed
  | reset
  deriving DecidableEq

structure SvcMux where
  mux : Mux
  nextStreamId : UInt16

structure StreamHandle where
  service : UInt16
  streamId : UInt16
  closed : Bool

structure Registry where
  stream : UInt16 → Bool
  dgram : UInt16 → Bool

structure Session where
  channel : Channel Bytes
  peerPubkey : Bytes
  selfPubkey : Bytes
  selfSecret : Bytes
  signer : Option (Bytes → Option Bytes)
  svc : Table UInt16 SvcMux nornMaxServices
  streams : List StreamHandle
  fd : Option ℕ
  sharedFd : Bool
  peerIp : UInt32
  peerPort : UInt16
  state : SessionState
  hsState : HsState
  isInitiator : Bool
  callback : Bool
  acceptStreamCb : Bool

inductive Effect
  | send (data : Bytes)
  | sealed (frame : Bytes)
  | session (state : SessionState)
  | stream (handle : ℕ) (state : StreamState)
  | accept (service sid : UInt16)
  | datagram (service : UInt16) (body : Bytes)
  deriving DecidableEq

structure Outcome where
  ok : Bool
  session : Session
  effects : List Effect

structure Arrival where
  data : Bytes
  ip : UInt32
  port : UInt16
  random : Bytes
  sendOk : Bool

namespace Session
variable (s : Session)

def sealSend (frame : Bytes) : List Effect :=
  if frame.length + channelOverhead ≤ frameCap ∧ s.channel.established then [.sealed frame] else []

def streamFrame (service : UInt16) (seg : Bytes) : Bytes :=
  appkindStream :: (put16 service.toNat ++ seg)

def muxSend (service : UInt16) (segs : List Bytes) : List Effect :=
  if s.fd = none ∨ s.state ≠ .established then []
  else (segs.filter fun seg => appframeHdr + seg.length ≤ frameCap).flatMap fun seg =>
    s.sealSend (streamFrame service seg)

def getSvc (service : UInt16) : Option Session :=
  (s.svc.ensure service ⟨streammuxNew, if s.isInitiator then 1 else 2⟩).map fun svc =>
    { s with svc := svc }

def driveSvc (service : UInt16) (f : Mux → Mux × List Bytes) : Session × List Effect :=
  ({ s with svc := s.svc.modify service fun sm => { sm with mux := (f sm.mux).1 } },
    (s.svc.get? service).elim [] fun sm => s.muxSend service (f sm.mux).2)

def maybeAcceptStream (reg : Registry) (s : Session) (service sid : UInt16) :
    Session × List Effect :=
  if s.streams.any fun w => w.service = service ∧ w.streamId = sid then (s, [])
  else ({ s with streams := s.streams ++ [⟨service, sid, false⟩] },
    if (service = nornSvcDefault ∧ s.acceptStreamCb) ∨ reg.stream service then
      [.accept service sid] else [])

def inputStream (reg : Registry) (s : Session) (service : UInt16) (body : Bytes) : Outcome :=
  if body.length < streammuxFrame then ⟨false, s, []⟩
  else match s.getSvc service with
    | none => ⟨false, s, []⟩
    | some s₁ =>
      let out := s₁.maybeAcceptStream reg service (sidOf body)
      let res := out.1.driveSvc service fun m => m.streammuxInput body 0
      ⟨true, res.1, out.2 ++ res.2⟩

variable (S : Suite Bytes)

def processFrame (reg : Registry) (s : Session) (data : Bytes) : Outcome :=
  match channelOpen S s.channel data frameCap with
  | none => ⟨false, s, []⟩
  | some pt =>
    if pt.length < appframeHdr then ⟨false, s, []⟩
    else if pt.getD 0 0 = appkindStream then
      s.inputStream reg (UInt16.ofNat (get16 pt 1)) (pt.drop appframeHdr)
    else if pt.getD 0 0 = appkindDgram then
      ⟨true, s, if reg.dgram (UInt16.ofNat (get16 pt 1)) then
        [.datagram (UInt16.ofNat (get16 pt 1)) (pt.drop appframeHdr)] else []⟩
    else ⟨false, s, []⟩

def sign (s : Session) : Bytes → Option Bytes :=
  s.signer.getD (secretSigner S s.selfSecret)

def buildInit (s : Session) (seed : Bytes) : Session × Option Bytes :=
  if s.isInitiator ∧ s.state = .connecting then
    let out := channelHsBuildInit S s.selfPubkey seed
    ({ s with channel := out.1 }, some (encodeInit out.2))
  else (s, none)

def acceptInit (s : Session) (seed data : Bytes) : Session × Option Bytes :=
  if s.isInitiator ∨ s.state ≠ .connecting then (s, none)
  else match parseInit data with
    | none => (s, none)
    | some init =>
      match channelHsAcceptSigned S s.selfPubkey (s.sign S) seed init with
      | (c, none) => ({ s with channel := c }, none)
      | (c, some resp) => ({ s with channel := c, peerPubkey := init.pub }, some (encodeResp resp))

def confirmResp (s : Session) (nonce data : Bytes) : Session × Option Bytes :=
  if s.isInitiator = false ∨ s.state ≠ .connecting then (s, none)
  else match parseResp data with
    | none => (s, none)
    | some resp =>
      match channelHsConfirmSigned S s.channel (s.sign S) nonce resp with
      | (c, none) => ({ s with channel := c }, none)
      | (c, some box) =>
        ({ s with channel := c, peerPubkey := resp.pub, state := .established },
          some (encodeConfirm box))

def finishConfirm (s : Session) (data : Bytes) : Session × Bool :=
  if s.isInitiator ∨ s.state ≠ .connecting then (s, false)
  else match parseConfirm data with
    | none => (s, false)
    | some box =>
      if channelHsFinish S s.channel s.peerPubkey box then ({ s with state := .established }, true)
      else (s, false)

def establish (effects : List Effect) : Outcome :=
  ⟨true, { s with hsState := .established, state := .established },
    effects ++ if s.callback then [.session .established] else []⟩

def processResp (s : Session) (a : Arrival) : Outcome :=
  if s.hsState ≠ .initSent then ⟨false, s, []⟩
  else match s.confirmResp S a.random a.data with
    | (s₁, none) => ⟨false, s₁, []⟩
    | (s₁, some msg) => if a.sendOk then s₁.establish [.send msg] else ⟨false, s₁, []⟩

def processInit (s : Session) (a : Arrival) : Outcome :=
  match s.acceptInit S a.random a.data with
  | (s₁, none) => ⟨false, s₁, []⟩
  | (s₁, some msg) =>
    if a.sendOk then ⟨true, { s₁ with hsState := .respSent }, [.send msg]⟩ else ⟨false, s₁, []⟩

def processConfirm (s : Session) (a : Arrival) : Outcome :=
  match s.finishConfirm S a.data with
  | (s₁, false) => ⟨false, s₁, []⟩
  | (s₁, true) => s₁.establish []

def processHandshake (s : Session) (a : Arrival) : Outcome :=
  if s.isInitiator then s.processResp S a
  else if s.hsState = .none then s.processInit S a
  else if s.hsState = .respSent then s.processConfirm S a
  else ⟨false, s, []⟩

def FromPeer (a : Arrival) : Prop :=
  (s.peerIp = 0 ∨ s.peerIp = a.ip) ∧ (s.peerPort = 0 ∨ s.peerPort = a.port)

instance (s : Session) (a : Arrival) : Decidable (s.FromPeer a) := inferInstanceAs (Decidable (_ ∧ _))

def processPacket (reg : Registry) (s : Session) (a : Arrival) : Outcome :=
  if a.data = [] ∨ ¬ s.FromPeer a then ⟨false, s, []⟩
  else match s.state with
    | .established => s.processFrame S reg a.data
    | .connecting => s.processHandshake S a
    | _ => ⟨false, s, []⟩

def sendPending (s : Session) (seed : Bytes) (sendOk : Bool) : Session × List Effect :=
  if s.state ≠ .connecting ∨ s.fd = none then (s, [])
  else if s.isInitiator ∧ s.hsState = .none then
    match s.buildInit S seed with
    | (s₁, none) => (s₁, [])
    | (s₁, some msg) => if sendOk then ({ s₁ with hsState := .initSent }, [.send msg]) else (s₁, [])
  else (s, [])

def streamOpenSvc (service : UInt16) : Session × Option ℕ × List Effect :=
  if s.state ≠ .established then (s, none, [])
  else match s.getSvc service with
    | none => (s, none, [])
    | some s₁ =>
      match s₁.svc.get? service with
      | none => (s, none, [])
      | some sm =>
        match sm.mux.openStream sm.nextStreamId with
        | none =>
          ({ s₁ with svc := s₁.svc.modify service fun _ => ⟨sm.mux, sm.nextStreamId + 2⟩ }, none, [])
        | some m =>
          ({ s₁ with
            svc := s₁.svc.modify service fun _ => ⟨m, sm.nextStreamId + 2⟩
            streams := s₁.streams ++ [⟨service, sm.nextStreamId, false⟩] },
            some s₁.streams.length, [.stream s₁.streams.length .ready])

def streamWrite (i : ℕ) (data : Bytes) : Session × Option ℕ × List Effect :=
  match s.streams[i]? with
  | none => (s, none, [])
  | some w =>
    if data = [] ∨ w.closed then (s, none, [])
    else match (s.svc.get? w.service).bind fun sm => sm.mux.streammuxWrite w.streamId data 0 with
      | none => (s, none, [])
      | some (n, m, segs) =>
        ({ s with svc := s.svc.modify w.service fun sm => { sm with mux := m } }, some n,
          s.muxSend w.service segs)

def streamRead (i cap : ℕ) : Session × Option Bytes :=
  match s.streams[i]? with
  | none => (s, none)
  | some w =>
    if cap = 0 then (s, none)
    else ({ s with svc := s.svc.modify w.service fun sm =>
        { sm with mux := (sm.mux.streammuxRead w.streamId cap).2 } },
      some ((s.svc.get? w.service).elim [] fun sm => (sm.mux.streammuxRead w.streamId cap).1))

def closeHandle (i : ℕ) : Session :=
  { s with streams := s.streams.modify i fun w => { w with closed := true } }

def streamClose (i : ℕ) : Session × List Effect :=
  match s.streams[i]? with
  | none => (s, [])
  | some w =>
    if w.closed then (s, [])
    else
      let out := s.driveSvc w.service fun m => m.streammuxFinish w.streamId 0
      (out.1.closeHandle i, out.2 ++ [.stream i .closed])

def streamReset (i : ℕ) : Session × List Effect :=
  match s.streams[i]? with
  | none => (s, [])
  | some w => if w.closed then (s, []) else (s.closeHandle i, [.stream i .reset])

def sendDatagram (service : UInt16) (data : Bytes) : List Effect :=
  if s.state ≠ .established ∨ frameCap < appframeHdr + data.length then []
  else s.sealSend (appkindDgram :: (put16 service.toNat ++ data))

def closeAsync (callback : Bool) : Session × List Effect :=
  ({ s with state := .closed, callback := callback, fd := none },
    if callback then [.session .closed] else [])

structure TickInput where
  random : Bytes
  sendOk : Bool
  arrivals : List Arrival

def tickMuxes (now : UInt32) : Session × List Effect :=
  ({ s with svc := s.svc.map fun sm => { sm with mux := (sm.mux.streammuxTick now).1 } },
    s.svc.entries.flatMap fun e => s.muxSend e.1 (e.2.mux.streammuxTick now).2)

def drain (S : Suite Bytes) (reg : Registry) : Session → List Arrival → Session × List Effect
  | s, [] => (s, [])
  | s, a :: rest =>
    let out := s.processPacket S reg a
    let res := drain S reg out.session rest
    (res.1, out.effects ++ res.2)

def tickPending (s : Session) (input : TickInput) : Session × List Effect :=
  if s.state = .connecting then s.sendPending S input.random input.sendOk else (s, [])

def tickTimers (now : UInt32) : Session × List Effect :=
  if s.state = .established then s.tickMuxes now else (s, [])

def tickDrain (reg : Registry) (s : Session) (input : TickInput) : Session × List Effect :=
  if s.fd ≠ none ∧ s.sharedFd = false then s.drain S reg input.arrivals else (s, [])

/-- One round of the loop of `norn_client_tick_sessions`, whose time is `0`. -/
def tick (reg : Registry) (s : Session) (input : TickInput) : Session × List Effect :=
  if s.state = .closed then (s, [])
  else
    let pend := s.tickPending S input
    let timed := pend.1.tickTimers 0
    let drained := timed.1.tickDrain S reg input
    (drained.1, pend.2 ++ timed.2 ++ drained.2)

end Session
end Norn
