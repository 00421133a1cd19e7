import Norn.Dht.Messages
import Norn.Session.Client

/-!
# One socket for the sessions and the DHT

The session layer gets a datagram first, and ignores that a session has refused it.
-/

namespace Norn
open List

def nornMsgHolepunchReq : UInt8 := 0x10
def nornMsgHolepunchResp : UInt8 := 0x11
def nornMsgProbe : UInt8 := 0x12
def nornMsgRelayCreate : UInt8 := 0x20
def nornMsgRelayClose : UInt8 := 0x23
def nornProbeLen : ℕ := 33

def htons (port : UInt16) : UInt16 := port <<< 8 ||| port >>> 8

/-- A datagram on the socket of a client, with what a session that it meets draws at random. -/
structure Inbound where
  data : Bytes
  ip : UInt32
  port : UInt16
  random : Bytes
  seed : Bytes
  sendOk : Bool

def Inbound.arrival (d : Inbound) : Arrival := ⟨d.data, d.ip, htons d.port, d.random, d.sendOk⟩

def Inbound.datagram (d : Inbound) : Datagram := ⟨d.data, d.ip.toNat, d.port.toNat⟩

inductive Handler
  | session
  | holepunch
  | probe
  | relay
  | mainline

def binaryHandler (data : Bytes) : Option Handler :=
  let kind := data.getD 0 0
  if 0x10 ≤ kind ∧ kind ≤ 0x2F then
    if kind = nornMsgHolepunchReq ∨ kind = nornMsgHolepunchResp then some .holepunch
    else if kind = nornMsgProbe ∧ nornProbeLen ≤ data.length then some .probe
    else if nornMsgRelayCreate ≤ kind ∧ kind ≤ nornMsgRelayClose then some .relay
    else none
  else none

structure Dispatched where
  handler : Option Handler
  client : Client
  effects : Effects
  dht : MainlineState

section
variable (S : Suite Bytes) (C : DhtCrypto)
  -- what hole punching and relaying, which do not know the DHT, do to the client
  (traverse : Handler → Inbound → Client → Client × Effects)

def dispatchRest (now : ℤ) (c : Client) (dht : MainlineState) (d : Inbound) : Dispatched :=
  match binaryHandler d.data with
  | some h => ⟨some h, (traverse h d c).1, (traverse h d c).2, dht⟩
  | none => ⟨some .mainline, c, [], mainlineProcessPacket C now d.datagram dht⟩

def dispatchResponse (now : ℤ) (c : Client) (dht : MainlineState) (d : Inbound) : Dispatched :=
  if d.data = [] then ⟨none, c, [], dht⟩
  else
    let out := c.acceptOrRoute S d.arrival d.seed
    if out.1 then ⟨some .session, out.2.1, out.2.2, dht⟩
    else dispatchRest C traverse now out.2.1 dht d

end

namespace Client

def withoutSessions (c : Client) : Client :=
  { c with listening := false, sessions := [], nodup := nodup_nil, lt_fresh := by simp }

/-- A session takes the datagram for its own, or the client can start one with it. -/
def Accepts (S : Suite Bytes) (c : Client) (a : Arrival) (seed : Bytes) : Prop :=
  (∃ h ∈ c.sessions, (c.heap h).any fun s => (s.processPacket S c.registry a).ok) ∨
    (c.listening = true ∧ ((c.accepted S a seed).processPacket S c.registry a).ok = true)

instance (S : Suite Bytes) (c : Client) (a : Arrival) (seed : Bytes) :
    Decidable (c.Accepts S a seed) :=
  inferInstanceAs (Decidable ((∃ h ∈ c.sessions, _) ∨ _))

/-- The datagram does not begin like a handshake that the client waits for. -/
def NotGreeted (c : Client) (a : Arrival) : Prop :=
  c.listening = false ∨ a.data.length < 4 ∨ a.data.take 4 ≠ channelMagic

variable (S : Suite Bytes) (c : Client) (a : Arrival) (seed : Bytes)

theorem acceptOrRoute_eq_false :
    (c.acceptOrRoute S a seed).1 = false ↔ c.route a = none ∧ c.NotGreeted a := by
  unfold acceptOrRoute NotGreeted
  cases hroute : c.route a with
  | some h => simp
  | none =>
    by_cases hgreet : c.listening = false ∨ a.data.length < 4 ∨ a.data.take 4 ≠ channelMagic
    · simp [hgreet]
    · simp [hgreet]

theorem acceptOrRoute_of_false (h : (c.acceptOrRoute S a seed).1 = false) :
    c.acceptOrRoute S a seed = (false, c, []) := by
  obtain ⟨hroute, hgreet⟩ := (c.acceptOrRoute_eq_false S a seed).mp h
  rw [acceptOrRoute, hroute]
  exact if_pos hgreet

theorem acceptOrRoute_withoutSessions :
    c.withoutSessions.acceptOrRoute S a seed = (false, c.withoutSessions, []) :=
  acceptOrRoute_of_false S _ a seed
    ((acceptOrRoute_eq_false S _ a seed).mpr ⟨rfl, Or.inl rfl⟩)

end Client

section
variable (S : Suite Bytes) (C : DhtCrypto)
  (traverse : Handler → Inbound → Client → Client × Effects) (now : ℤ) (c : Client)
  (dht : MainlineState) (d : Inbound)

/-- The datagram goes where it goes in a client without sessions, and does the same to the DHT. -/
def Transparent : Prop :=
  (dispatchResponse S C traverse now c dht d).handler =
      (dispatchResponse S C traverse now c.withoutSessions dht d).handler ∧
    (dispatchResponse S C traverse now c dht d).dht =
      (dispatchResponse S C traverse now c.withoutSessions dht d).dht

variable {S C traverse now c dht d}

theorem dispatchResponse_of_false (hne : d.data ≠ [])
    (h : (c.acceptOrRoute S d.arrival d.seed).1 = false) :
    dispatchResponse S C traverse now c dht d = dispatchRest C traverse now c dht d := by
  rw [dispatchResponse, if_neg hne, c.acceptOrRoute_of_false S d.arrival d.seed h]
  rfl

theorem dispatchResponse_of_true (hne : d.data ≠ [])
    (h : (c.acceptOrRoute S d.arrival d.seed).1 = true) :
    (dispatchResponse S C traverse now c dht d).handler = some .session := by
  rw [dispatchResponse, if_neg hne]
  simp only [h, if_true]

theorem dispatchRest_congr (c' : Client) : (dispatchRest C traverse now c dht d).handler =
        (dispatchRest C traverse now c' dht d).handler ∧
      (dispatchRest C traverse now c dht d).dht = (dispatchRest C traverse now c' dht d).dht := by
  unfold dispatchRest
  cases binaryHandler d.data with
  | none | some h => exact ⟨rfl, rfl⟩

theorem dispatchRest_not_session : (dispatchRest C traverse now c dht d).handler ≠ some .session := by
  unfold dispatchRest binaryHandler
  dsimp only
  split_ifs <;> simp

theorem transparent_iff : Transparent S C traverse now c dht d ↔
    d.data = [] ∨ (c.route d.arrival = none ∧ c.NotGreeted d.arrival) := by
  by_cases hempty : d.data = []
  · simp [Transparent, dispatchResponse, hempty]
  · have halone : dispatchResponse S C traverse now c.withoutSessions dht d =
        dispatchRest C traverse now c.withoutSessions dht d :=
      dispatchResponse_of_false hempty
        (by rw [c.acceptOrRoute_withoutSessions S d.arrival d.seed])
    rw [or_iff_right hempty, ← c.acceptOrRoute_eq_false S d.arrival d.seed, Transparent, halone]
    cases htaken : (c.acceptOrRoute S d.arrival d.seed).1 with
    | false =>
      rw [dispatchResponse_of_false hempty htaken]
      exact iff_of_true (dispatchRest_congr _) rfl
    | true =>
      rw [dispatchResponse_of_true hempty htaken]
      exact iff_of_false (fun h => dispatchRest_not_session h.1.symm) (by decide)

end

/-- What no session accepts is passed on exactly if none on the shared socket has its sender's
address and it begins like no handshake that the client waits for. -/
theorem refused_passedOn_iff (S : Suite Bytes) (C : DhtCrypto)
    (traverse : Handler → Inbound → Client → Client × Effects) (now : ℤ) (c : Client)
    (dht : MainlineState) (d : Inbound) :
    (¬ c.Accepts S d.arrival d.seed → Transparent S C traverse now c dht d) ↔
      (c.Accepts S d.arrival d.seed ∨ d.data = [] ∨
        (c.route d.arrival = none ∧ c.NotGreeted d.arrival)) := by
  rw [transparent_iff]
  exact or_iff_not_imp_left.symm

def helloPacket : Inbound :=
  ⟨encodeInit ⟨replicate 32 7, replicate 32 8⟩, 1, 1, replicate 32 9,
    replicate 32 9, true⟩

def listener : Option World :=
  execute (World.step plainSuite) (World.boot [] [])
    [⟨0, .listen 3⟩, ⟨0, .udp helloPacket.arrival helloPacket.seed⟩]

def queryPacket : Inbound := ⟨pingPacket.data, 1, 1, [], [], true⟩

theorem queryPacket_swallowed : ∃ w, listener = some w ∧
    ¬ w.client.Accepts plainSuite queryPacket.arrival queryPacket.seed ∧
    ¬ Transparent plainSuite toyCrypto (fun _ _ c => (c, [])) 0 w.client lonelyNode queryPacket ∧
    (dispatchResponse plainSuite toyCrypto (fun _ _ c => (c, [])) 0 w.client lonelyNode
      queryPacket).dht.sent.length = 0 ∧
    (dispatchResponse plainSuite toyCrypto (fun _ _ c => (c, [])) 0 w.client.withoutSessions
      lonelyNode queryPacket).dht.sent.length = 1 := by
  obtain ⟨w, hw⟩ := Option.isSome_iff_exists.mp (by decide +kernel : listener.isSome)
  have haccepts : ¬ (listener.any fun w =>
      w.client.Accepts plainSuite queryPacket.arrival queryPacket.seed) := by decide +kernel
  have hdht : listener.any fun w =>
      (dispatchResponse plainSuite toyCrypto (fun _ _ c => (c, [])) 0 w.client lonelyNode
        queryPacket).dht.sent.length = 0 ∧
      (dispatchResponse plainSuite toyCrypto (fun _ _ c => (c, [])) 0 w.client.withoutSessions
        lonelyNode queryPacket).dht.sent.length = 1 := by decide +kernel
  rw [hw, Option.any_some, decide_eq_true_eq] at haccepts hdht
  refine ⟨w, hw, haccepts, fun h => ?_, hdht⟩
  have hsame := h.2 ▸ hdht.1
  exact absurd (hsame.symm.trans hdht.2) (by decide)

end Norn
