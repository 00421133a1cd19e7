import Norn.Session.Core

/-!
# Clients

Sessions come from a dial, from a first message on the listening socket, or from a probe that answers
a pending hole punch. The objects stand in a heap under handles that are not used again. Nothing in
the library stores an endpoint in the cache from which a hole punch takes its rendezvous.
-/

namespace Norn
open Function List

/-- What the callbacks of a dial by public key get; `callback` tells whether there is one. -/
structure DialContext where
  peerPubkey : Bytes
  callback : Bool
  userData : ℕ
  ephemeralPub : Bytes
  ephemeralSec : Bytes

/-- An endpoint with the capabilities that a dial reads. -/
structure NornEndpoint where
  pubkey : Bytes
  ip : UInt32
  port : UInt16
  direct : Bool
  rendezvous : Bool

/-- The descriptor with which an endpoint is dialed directly. -/
def NornEndpoint.dials (ep : NornEndpoint) (fd : Option ℕ) : Option ℕ :=
  if ep.ip ≠ 0 ∧ ep.direct then fd else none

structure CachedEndpoint where
  pubkey : Bytes
  endpoint : NornEndpoint
  expires : ℕ

/-- The entries of the cache are its valid slots. A lookup drops the expired ones that it meets. -/
def endpointCacheLookup (now : ℕ) (pubkey : Bytes) :
    List CachedEndpoint → Option NornEndpoint × List CachedEndpoint
  | [] => (none, [])
  | e :: rest =>
    let out := endpointCacheLookup now pubkey rest
    if e.expires < now then out
    else if e.pubkey = pubkey then (some e.endpoint, e :: rest)
    else (out.1, e :: out.2)

structure HolepunchPending where
  ephemeralPubkey : Bytes
  context : DialContext
  active : Bool

structure Client where
  selfPub : Bytes
  selfSec : Bytes
  signer : Option (Bytes → Option Bytes)
  registry : Registry
  listenFd : Option ℕ
  listening : Bool
  heap : ℕ → Option Session
  fresh : ℕ
  sessions : List ℕ
  endpointCache : List CachedEndpoint
  holepunchPending : List HolepunchPending
  nodup : sessions.Nodup
  lt_fresh : ∀ h ∈ sessions, h < fresh

abbrev TickInputs := ℕ → Session.TickInput

inductive ClientCall
  | listen (fd : ℕ)
  | dialDirect (ip : UInt32) (port : UInt16) (pubkey : Option Bytes) (seed : Bytes) (fd : Option ℕ)
      (callback : Bool)
  | udp (a : Arrival) (seed : Bytes)
  | dial (ctx : DialContext) (now : ℕ) (seed : Bytes) (fd : Option ℕ)
  /-- The lookup of a dialed peer has ended. -/
  | resolved (ctx : DialContext) (endpoint : Option NornEndpoint) (now : ℕ) (seed : Bytes)
      (fd : Option ℕ) (sent : Bool)
  | holepunchResp (ephemeral : Bytes)
  | probe (ephemeral : Bytes) (ip : UInt32) (port : UInt16)
  | tick (input : TickInputs)
  | openSvc (h : ℕ) (service : UInt16)
  | write (h i : ℕ) (data : Bytes)
  | read (h i cap : ℕ)
  | close (h i : ℕ)
  | reset (h i : ℕ)
  | datagram (h : ℕ) (service : UInt16) (data : Bytes)
  | closeSession (h : ℕ) (callback : Bool)
  | freeSession (h : ℕ)

abbrev Effects := List (ℕ × Effect)

namespace Client
variable (c : Client)

def onSession (h : ℕ) (f : Session → Session × List Effect) : Client × Effects :=
  match c.heap h with
  | none => (c, [])
  | some s => ({ c with heap := update c.heap h (some (f s).1) },
      (f s).2.map fun e => (h, e))

def allocate (s : Session) : Client :=
  { c with
    heap := update c.heap c.fresh (some s)
    fresh := c.fresh + 1
    lt_fresh := fun h hh => (c.lt_fresh h hh).trans (Nat.lt_succ_self _) }

def addSession (s : Session) : Client :=
  { c with
    heap := update c.heap c.fresh (some s)
    fresh := c.fresh + 1
    sessions := c.sessions ++ [c.fresh]
    nodup := by
      rw [nodup_append]
      refine ⟨c.nodup, nodup_singleton _, fun h hh j hj => ?_⟩
      rw [mem_singleton.mp hj]
      exact (c.lt_fresh h hh).ne
    lt_fresh := fun h hh => by
      rcases mem_append.mp hh with hh | hh
      · exact (c.lt_fresh h hh).trans (Nat.lt_succ_self _)
      · rw [mem_singleton.mp hh]
        exact Nat.lt_succ_self _ }

def removeSession (h : ℕ) : Client :=
  { c with
    sessions := swapRemove c.sessions h
    nodup := (swapRemove_perm c.sessions h).nodup_iff.mpr (c.nodup.erase h)
    lt_fresh := fun j hj => c.lt_fresh j (mem_of_mem_erase
      ((swapRemove_perm c.sessions h).mem_iff.mp hj)) }

variable (S : Suite Bytes)

def sessionNew (c : Client) : Session where
  channel := ⟨S.zero, S.zero, S.zero, S.zero, S.zero, false, false⟩
  peerPubkey := replicate 32 0
  selfPubkey := c.selfPub
  selfSecret := c.selfSec
  signer := c.signer
  svc := Table.empty
  streams := []
  fd := none
  sharedFd := false
  peerIp := 0
  peerPort := 0
  state := .connecting
  hsState := .none
  isInitiator := false
  callback := false
  acceptStreamCb := false

def dialed (c : Client) (ip : UInt32) (port : UInt16) (pubkey : Option Bytes)
    (seed : Bytes) (fd : ℕ) (callback : Bool) : Session :=
  { c.sessionNew S with
    isInitiator := true
    peerPubkey := pubkey.getD (replicate 32 0)
    peerIp := ip
    peerPort := port
    channel := channelGenEphemeral S seed
    fd := some fd
    callback := callback }

def dialDirectAsync (c : Client) (ip : UInt32) (port : UInt16)
    (pubkey : Option Bytes) (seed : Bytes) (fd : Option ℕ) (callback : Bool) : Client :=
  fd.elim c fun fd => c.addSession (c.dialed S ip port pubkey seed fd callback)

def accepted (c : Client) (a : Arrival) (seed : Bytes) : Session :=
  { c.sessionNew S with
    fd := c.listenFd
    sharedFd := true
    peerIp := a.ip
    peerPort := a.port
    channel := channelGenEphemeral S seed }

def route (a : Arrival) : Option ℕ :=
  c.sessions.find? fun h => (c.heap h).any fun s =>
    s.sharedFd ∧ s.state ≠ .closed ∧ s.peerIp = a.ip ∧ s.peerPort = a.port

def process (c : Client) (h : ℕ) (a : Arrival) : Client × Effects :=
  c.onSession h fun s =>
    ((s.processPacket S c.registry a).session, (s.processPacket S c.registry a).effects)

def acceptOrRoute (c : Client) (a : Arrival) (seed : Bytes) : Bool × Client × Effects :=
  match c.route a with
  | some h => (true, c.process S h a)
  | none =>
    if c.listening = false ∨ a.data.length < 4 ∨ a.data.take 4 ≠ channelMagic then (false, c, [])
    else
      let out := (c.addSession (c.accepted S a seed)).process S c.fresh a
      (true, out.1, out.2 ++ [(c.fresh, .session .connecting)])

/-- The rendezvous is cached with an address, and the datagram is sent. -/
def holepunchSent (rendezvousPubkey : Bytes) (now : ℕ) (sent : Bool) : Bool :=
  (endpointCacheLookup now rendezvousPubkey c.endpointCache).1.any (·.ip ≠ 0) && sent

def sendHolepunchReqAsync (ctx : DialContext) (rendezvousPubkey : Bytes) (now : ℕ)
    (sent : Bool) : Client :=
  { c with
    endpointCache := (endpointCacheLookup now rendezvousPubkey c.endpointCache).2
    holepunchPending :=
      if c.holepunchSent rendezvousPubkey now sent ∧ c.holepunchPending.length < 8 then
        c.holepunchPending ++ [⟨ctx.ephemeralPub, ctx, true⟩]
      else c.holepunchPending }

/-- A dial by public key goes on at once if the endpoint is cached; otherwise the peer is looked up. -/
def dialAsync (c : Client) (ctx : DialContext) (now : ℕ) (seed : Bytes) (fd : Option ℕ) : Client :=
  let out := endpointCacheLookup now ctx.peerPubkey c.endpointCache
  let c := { c with endpointCache := out.2 }
  out.1.elim c fun ep =>
    c.dialDirectAsync S ep.ip ep.port (some ctx.peerPubkey) seed (ep.dials fd) ctx.callback

/-- The ephemeral keys of the context are those generated for the hole punch. -/
def onEndpointResolved (c : Client) (ctx : DialContext)
    (endpoint : Option NornEndpoint) (now : ℕ) (seed : Bytes) (fd : Option ℕ) (sent : Bool) : Client :=
  match endpoint with
  | none => c
  | some ep =>
    if (ep.dials fd).isSome then
      c.dialDirectAsync S ep.ip ep.port (some ctx.peerPubkey) seed fd ctx.callback
    else if ep.rendezvous then c.sendHolepunchReqAsync ctx ep.pubkey now sent
    else c

def pendingFor (ephemeral : Bytes) : Option ℕ :=
  c.holepunchPending.findIdx? fun p => p.active ∧ p.ephemeralPubkey = ephemeral

def endPending (i : ℕ) : Client :=
  { c with holepunchPending := c.holepunchPending.modify i fun p => { p with active := false } }

/-- The callback of a response sends probes; the entry is no longer active when they are answered. -/
def onHolepunchResp (ephemeral : Bytes) : Client :=
  (c.pendingFor ephemeral).elim c c.endPending

def probed (c : Client) (ctx : DialContext) (ip : UInt32) (port : UInt16) : Session :=
  { c.sessionNew S with
    isInitiator := true
    peerIp := ip
    peerPort := port
    peerPubkey := ctx.peerPubkey
    channel := ⟨ctx.ephemeralPub, ctx.ephemeralSec, S.zero, S.zero, S.zero, false, true⟩
    state := .established }

/-- The context of the active entry that a probe answers, if its dial has a callback. -/
def punched (ephemeral : Bytes) : Option DialContext :=
  ((c.pendingFor ephemeral).bind fun i => c.holepunchPending[i]?.map (·.context)).filter (·.callback)

def onProbe (c : Client) (ephemeral : Bytes) (ip : UInt32) (port : UInt16) : Client × Effects :=
  let ended := c.onHolepunchResp ephemeral
  match c.punched ephemeral with
  | none => (ended, [])
  | some ctx => (ended.allocate (c.probed S ctx ip port), [(c.fresh, .session .established)])

def tickLoop (S : Suite Bytes) (input : TickInputs) : List ℕ → Client → Client × Effects
  | [], c => (c, [])
  | h :: rest, c =>
    let out := c.onSession h fun s => s.tick S c.registry (input h)
    let res := tickLoop S input rest out.1
    (res.1, out.2 ++ res.2)

def tickSessions (c : Client) (input : TickInputs) : Client × Effects :=
  tickLoop S input c.sessions c

def freeSession (h : ℕ) : Client :=
  { c.removeSession h with heap := update c.heap h none }

def call (c : Client) : ClientCall → Client × Effects
  | .listen fd => ({ c with listenFd := some fd, listening := true }, [])
  | .dialDirect ip port pubkey seed fd cb => (c.dialDirectAsync S ip port pubkey seed fd cb, [])
  | .udp a seed => (c.acceptOrRoute S a seed).2
  | .dial ctx now seed fd => (c.dialAsync S ctx now seed fd, [])
  | .resolved ctx endpoint now seed fd sent =>
    (c.onEndpointResolved S ctx endpoint now seed fd sent, [])
  | .holepunchResp ephemeral => (c.onHolepunchResp ephemeral, [])
  | .probe ephemeral ip port => c.onProbe S ephemeral ip port
  | .tick input => c.tickSessions S input
  | .openSvc h service =>
    c.onSession h fun s => ((s.streamOpenSvc service).1, (s.streamOpenSvc service).2.2)
  | .write h i data => c.onSession h fun s => ((s.streamWrite i data).1, (s.streamWrite i data).2.2)
  | .read h i cap => c.onSession h fun s => ((s.streamRead i cap).1, [])
  | .close h i => c.onSession h fun s => s.streamClose i
  | .reset h i => c.onSession h fun s => s.streamReset i
  | .datagram h service data => c.onSession h fun s => (s, s.sendDatagram service data)
  | .closeSession h cb => c.onSession h fun s => s.closeAsync cb
  | .freeSession h => (c.freeSession h, [])

/-- No endpoint is cached and no hole punch is pending. -/
structure Unpunched (c : Client) : Prop where
  endpointCache : c.endpointCache = []
  holepunchPending : c.holepunchPending = []

end Client

theorem eq_some_getD {α : Type} {o : Option α} (h : o.isSome) (a : α) : o = some (o.getD a) := by
  obtain ⟨b, rfl⟩ := Option.isSome_iff_exists.mp h
  rfl

/-- A client with the wall clock. -/
structure World where
  client : Client
  clock : ℕ

structure ClientEvent where
  time : ℕ
  call : ClientCall

instance : Inhabited ClientEvent := ⟨0, .freeSession 0⟩

namespace World
variable (S : Suite Bytes)

def step (w : World) (e : ClientEvent) : Option World :=
  if w.clock ≤ e.time then some ⟨(w.client.call S e.call).1, e.time⟩ else none

def effects (w : World) (e : ClientEvent) : Effects := (w.client.call S e.call).2

def system : System World ClientEvent where
  init w := w.client.heap = (fun _ => none) ∧ w.client.sessions = [] ∧ w.client.Unpunched
  next w e w' := w.step S e = some w'

def boot (pub sec : Bytes) : World where
  client := ⟨pub, sec, none, ⟨fun _ => false, fun _ => false⟩, none, false, fun _ => none, 0, [],
    [], [], nodup_nil, by simp⟩
  clock := 0

theorem boot_init (pub sec : Bytes) :
    (boot pub sec).client.heap = (fun _ => none) ∧ (boot pub sec).client.sessions = [] ∧
      (boot pub sec).client.Unpunched :=
  ⟨rfl, rfl, rfl, rfl⟩

def runOf (pub sec : Bytes) (es : List ClientEvent)
    (h : (execute (step S) (boot pub sec) es).isSome) : Run (system S) :=
  Run.ofEvents (fun _ _ _ hs => hs) (boot pub sec) (boot_init pub sec) es h

end World
end Norn
