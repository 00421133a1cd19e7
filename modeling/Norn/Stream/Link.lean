import Norn.Stream.Receiver

/-!
# Two streams joined by a lossy channel

The channel may give any datagram of one end to the other, any number of times, or never.
-/

namespace Norn
open List Function UInt32 Option

structure Endpoint where
  stream : Stream
  accepted : Bytes
  returned : Bytes
  assigned : ℕ
  wire : List Bytes

inductive StreamCall
  | write (data : Bytes) (now : UInt32)
  | read (cap : ℕ)
  | finish (now : UInt32)
  | tick (now : UInt32)
  | input (datagram : ℕ) (now : UInt32)

namespace Endpoint

def new : Endpoint := ⟨streamNew, [], [], 0, []⟩

def after (e : Endpoint) (out : Stream × List Bytes) : Endpoint :=
  { e with
    stream := out.1
    wire := e.wire ++ out.2
    assigned := e.assigned + (out.1.sndNxt - e.stream.sndNxt).toNat }

def call (e : Endpoint) (peerWire : List Bytes) : StreamCall → Option Endpoint
  | .write data now =>
    some { e.after (e.stream.streamWrite data now).2 with
      accepted := e.accepted ++ data.take (e.stream.streamWrite data now).1 }
  | .read cap =>
    some { e with
      stream := (e.stream.streamRead cap).2
      returned := e.returned ++ (e.stream.streamRead cap).1 }
  | .finish now => some (e.after (e.stream.streamFinish now))
  | .tick now => some (e.after (e.stream.streamTick now))
  | .input k now => peerWire[k]?.map fun d => e.after (e.stream.streamInput d now)

end Endpoint

structure LinkEvent where
  side : Bool
  call : StreamCall

instance : Inhabited LinkEvent := ⟨false, .read 0⟩

abbrev Link := Bool → Endpoint

def Link.step (l : Link) (e : LinkEvent) : Option Link :=
  ((l e.side).call (l !e.side).wire e.call).map (update l e.side)

def Link.system : System Link LinkEvent where
  init l := ∀ b, l b = Endpoint.new
  next l e l' := l.step e = some l'

/-- The end has cut these items off the bytes it accepted. -/
structure Endpoint.Sends (a : Endpoint) (items : List Item) : Prop where
  sent : a.stream.Sent items
  accepted : a.accepted = payload items ++ a.stream.pend.contents
  wire : ∀ d ∈ a.wire, Carries items d
  assigned : a.assigned = items.length

namespace Endpoint
variable {a b a' b' : Endpoint} {items : List Item}

theorem Sends.new : Sends new [] := ⟨Stream.sent_streamNew, rfl, by simp [Endpoint.new], rfl⟩

theorem Sends.after (h : a.Sends items) {out : Stream × List Bytes} {more : List Item}
    {bytes : Bytes} (hcuts : Stream.Cuts items (a.stream.pend.contents ++ bytes) out more) :
    { a.after out with accepted := a.accepted ++ bytes }.Sends (items ++ more) where
  sent := hcuts.sent
  accepted := by
    change a.accepted ++ bytes = payload (items ++ more) ++ out.1.pend.contents
    rw [h.accepted, payload_append, append_assoc, append_assoc, hcuts.bytes]
  wire d hd := by
    rcases mem_append.mp hd with hd | hd
    · exact (h.wire d hd).append more
    · exact hcuts.carries d hd
  assigned := by
    have hfew := hcuts.few
    unfold streamWinMax at hfew
    change a.assigned + (out.1.sndNxt - a.stream.sndNxt).toNat = (items ++ more).length
    rw [h.assigned, hcuts.sent.nxt, h.sent.nxt, UInt32.toNat_sub, UInt32.toNat_ofNat',
      UInt32.toNat_ofNat', length_append]
    omega

variable {c : StreamCall}

theorem Sends.call (h : a.Sends items) {peerWire : List Bytes} (hc : a.call peerWire c = some a') :
    ∃ more, a'.Sends (items ++ more) ∧
      Stream.Ends (a.stream.finQueued = true ∨ ∃ now, c = .finish now) a.stream a'.stream more := by
  have hplain : ∀ {out : Stream × List Bytes} {more : List Item},
      Stream.Cuts items a.stream.pend.contents out more →
        (a.after out).Sends (items ++ more) := by
    intro out more hcuts
    have hafter := h.after (show Stream.Cuts items (a.stream.pend.contents ++ []) out more by
      rwa [append_nil])
    rwa [append_nil] at hafter
  cases c with
  | write data now =>
    obtain ⟨more, hcuts, hends⟩ := h.sent.streamWrite data now
    cases hc
    exact ⟨more, h.after hcuts, hends.mono Or.inl⟩
  | read cap =>
    cases hc
    have hends : Stream.Ends (a.stream.finQueued = true) a.stream (a.stream.streamRead cap).2 [] :=
      Stream.ends_nil rfl rfl
    refine ⟨[], ?_, hends.mono Or.inl⟩
    rw [append_nil]
    exact ⟨h.sent.congr rfl, h.accepted, h.wire, h.assigned⟩
  | finish now =>
    obtain ⟨more, hcuts, hends⟩ := h.sent.streamFinish now
    cases hc
    exact ⟨more, hplain hcuts, hends.mono fun _ => .inr ⟨now, rfl⟩⟩
  | tick now =>
    obtain ⟨more, hcuts, hends⟩ := h.sent.streamTick now
    cases hc
    exact ⟨more, hplain hcuts, hends.mono Or.inl⟩
  | input k now =>
    obtain ⟨d, _, rfl⟩ := map_eq_some_iff.mp hc
    have hfin := a.stream.finSide_streamInput d now
    simp only [Stream.finSide, Prod.mk.injEq] at hfin
    exact ⟨[], hplain (h.sent.streamInput d now),
      (Stream.ends_nil hfin.1 hfin.2).mono Or.inl⟩

def Receives (b : Endpoint) (items : List Item) : Prop :=
  ∃ m, b.stream.Received items m b.returned

theorem Receives.append (h : b.Receives items) (more : List Item) : b.Receives (items ++ more) := by
  obtain ⟨m, hm⟩ := h
  exact ⟨m, hm.append more⟩

theorem Receives.call (h : b.Receives items) (ha : a.Sends items) (hlen : items.length < 2 ^ 32)
    (hc : b.call a.wire c = some b') : b'.Receives items := by
  obtain ⟨m, hm⟩ := h
  cases c with
  | write data now =>
    cases hc
    exact ⟨m, hm.streamWrite data now⟩
  | read cap =>
    cases hc
    exact ⟨m, hm.streamRead cap⟩
  | finish now =>
    cases hc
    exact ⟨m, hm.streamFinish now⟩
  | tick now =>
    cases hc
    exact ⟨m, hm.streamTick now⟩
  | input k now =>
    obtain ⟨d, hd, rfl⟩ := map_eq_some_iff.mp hc
    exact hm.streamInput hlen (ha.wire d (mem_of_getElem? hd)) ha.sent.short now

/-- One list of items describes both ends. -/
structure Flows (a b : Endpoint) (items : List Item) : Prop where
  sends : a.Sends items
  receives : items.length < 2 ^ 32 → b.Receives items

end Endpoint

namespace Link
open Endpoint

def Ok (l : Link) : Prop := ∀ b, ∃ items, Flows (l b) (l !b) items

variable {l : Link} {es : List LinkEvent}

theorem Ok.init (h : system.init l) : l.Ok := by
  intro b
  refine ⟨[], ?_⟩
  rw [h b, h (!b)]
  exact ⟨Sends.new, fun _ => ⟨0, Stream.received_streamNew []⟩⟩

theorem Ok.step {l' : Link} {e : LinkEvent} (h : l.Ok) (hs : l.step e = some l') : l'.Ok := by
  obtain ⟨x, hx, rfl⟩ := map_eq_some_iff.mp hs
  obtain ⟨side, c⟩ := e
  intro b
  obtain ⟨items, hflows⟩ := h b
  by_cases hb : b = side
  · -- the calling end is the sender
    subst hb
    obtain ⟨more, hsends, _⟩ := hflows.sends.call hx
    refine ⟨items ++ more, ?_⟩
    rw [update_self, update_of_ne (by simp)]
    refine ⟨hsends, fun hlen => (hflows.receives ?_).append more⟩
    rw [length_append] at hlen
    omega
  · -- the calling end is the receiver
    obtain rfl : side = !b := Bool.eq_not.mpr (Ne.symm hb)
    rw [Bool.not_not] at hx
    refine ⟨items, ?_⟩
    rw [update_self, update_of_ne hb]
    exact ⟨hflows.sends, fun hlen => (hflows.receives hlen).call hflows.sends hlen hx⟩

theorem ok_of_run (run : Run system) : ∀ k ≤ run.len, (run.state k).Ok :=
  run.invariant (fun _ => Ok.init) fun k hk hok => hok.step (run.steps k hk)

/-- What an end has returned to its reader is at every moment a prefix of what the other end has
accepted. -/
theorem returned_isPrefix_accepted (run : Run system) (k : ℕ) (hk : k ≤ run.len) (b : Bool)
    (hfew : (run.state k b).assigned < 2 ^ 31) :
    (run.state k !b).returned <+: (run.state k b).accepted := by
  obtain ⟨items, hflows⟩ := ok_of_run run k hk b
  have hlen : items.length < 2 ^ 32 := by
    have := hflows.sends.assigned
    omega
  obtain ⟨m, hm⟩ := hflows.receives hlen
  rw [hflows.sends.accepted]
  exact hm.read_isPrefix.trans (prefix_append _ _)

def boot : Link := fun _ => Endpoint.new

def runOf (es : List LinkEvent) (h : (execute step boot es).isSome) : Run system :=
  Run.ofEvents (fun _ _ _ hs => hs) boot (fun _ => rfl) es h

theorem runOf_end (h : (execute step boot es).isSome) (hl : execute step boot es = some l) :
    (runOf es h).state (runOf es h).len = l := by
  change (execute step boot (es.take es.length)).getD boot = l
  rw [take_length, hl, getD_some]

theorem runOf_event_mem (h : (execute step boot es).isSome) {i : ℕ} (hi : i < (runOf es h).len) :
    (runOf es h).event i ∈ es := by
  change es.getD i default ∈ es
  rw [getD_eq_getElem es default hi]
  exact getElem_mem hi

def exchangeRun : Run system :=
  runOf [⟨false, .write [104, 105] 0⟩, ⟨true, .input 0 5⟩, ⟨true, .read 1⟩] (by decide +kernel)

theorem exchangeRun_returned : (exchangeRun.state 3 true).returned = [104] ∧
    (exchangeRun.state 3 true).returned <+: (exchangeRun.state 3 false).accepted :=
  ⟨by decide +kernel,
    returned_isPrefix_accepted exchangeRun 3 (by decide) false (by decide +kernel)⟩

end Link
end Norn
