import Norn.Session.Mux
import Norn.Stream.Receiver

/-!
# The streams of a multiplexer do not disturb each other

A multiplexer and a stream of its own are transducers.
-/

namespace Norn
open Option List

inductive MuxCall
  | openStream (sid : UInt16)
  | write (sid : UInt16) (data : Bytes) (now : UInt32)
  | read (sid : UInt16) (cap : ℕ)
  | finish (sid : UInt16) (now : UInt32)
  | input (seg : Bytes) (now : UInt32)
  | tick (now : UInt32)

inductive MuxOut
  | datagram (seg : Bytes)
  | accepted (sid : UInt16) (n : ℕ)
  | returned (sid : UInt16) (bytes : Bytes)

def MuxCall.opens : MuxCall → Option UInt16
  | .openStream sid => some sid
  | .write sid _ _ => some sid
  | .read _ _ => none
  | .finish sid _ => some sid
  | .input seg _ => if seg.length < streammuxFrame then none else some (sidOf seg)
  | .tick _ => none

namespace Mux

/-- What a call at a multiplexer sends, and then returns; a call that finds the table full does
neither. -/
def apply : Transducer Mux MuxCall MuxOut
  | m, .openStream sid => ((m.openStream sid).getD m, [])
  | m, .write sid data now => (m.streammuxWrite sid data now).elim (m, []) fun out =>
    (out.2.1, out.2.2.map .datagram ++ [.accepted sid out.1])
  | m, .read sid cap => ((m.streammuxRead sid cap).2, [.returned sid (m.streammuxRead sid cap).1])
  | m, .finish sid now =>
    ((m.streammuxFinish sid now).1, (m.streammuxFinish sid now).2.map .datagram)
  | m, .input seg now => ((m.streammuxInput seg now).1, (m.streammuxInput seg now).2.map .datagram)
  | m, .tick now => ((m.streammuxTick now).1, (m.streammuxTick now).2.map .datagram)

/-- The call does not find the table full. -/
def Room (m : Mux) (c : MuxCall) : Prop := ∀ sid ∈ c.opens, (m.openStream sid).isSome

instance (m : Mux) (c : MuxCall) : Decidable (m.Room c) :=
  decidable_of_iff (c.opens.all fun sid => (m.openStream sid).isSome)
    (by simp [Room, Option.all_eq_true])

end Mux

section
variable (s : UInt16)

def project : MuxCall → Option StreamOp
  | .openStream _ => none
  | .write sid data now => if s = sid then some (.write data now) else none
  | .read sid cap => if s = sid then some (.read cap) else none
  | .finish sid now => if s = sid then some (.finish now) else none
  | .input seg now =>
    if seg.length < streammuxFrame then none
    else if s = sidOf seg then some (.input (seg.drop streammuxFrame) now) else none
  | .tick now => some (.tick now)

def seen : MuxOut → Option StreamOut
  | .datagram seg => if s = sidOf seg then some (.segment (seg.drop streammuxFrame)) else none
  | .accepted sid n => if s = sid then some (.accepted n) else none
  | .returned sid bytes => if s = sid then some (.returned bytes) else none

end

theorem seen_lstreamSend_self {s : UInt16} {segs : List Bytes}
    (h : ∀ d ∈ segs, d.length ≤ streamSegMax) :
    ((lstreamSend s segs).map .datagram).filterMap (seen s) = segs.map .segment := by
  have hall : (segs.filter fun seg => seg.length ≤ streamSegMax) = segs := by
    rw [List.filter_eq_self]
    simpa using h
  have hseen : (seen s ∘ MuxOut.datagram ∘ frame s) = some ∘ StreamOut.segment := by
    funext seg
    simp [seen, sidOf_frame, drop_frame]
  rw [lstreamSend, hall, List.map_map, List.filterMap_map, hseen, List.filterMap_eq_map]

theorem seen_lstreamSend_of_ne {s sid : UInt16} (h : s ≠ sid) (segs : List Bytes) :
    ((lstreamSend sid segs).map .datagram).filterMap (seen s) = [] := by
  simp [lstreamSend, filterMap_eq_nil_iff, seen, sidOf_frame, h]

namespace Mux

structure Serves (s : UInt16) (m : Mux) (st : Stream) : Prop where
  get : (m.get? s).getD streamNew = st
  bounded : st.Bounded

variable {m m' : Mux} {s sid : UInt16} {st : Stream}

theorem Serves.init (s : UInt16) : Serves s streammuxNew streamNew :=
  ⟨rfl, Stream.bounded_streamNew⟩

section
variable (h : Serves s m st)
include h

theorem Serves.opened (hopen : m.openStream sid = some m') : Serves s m' st := by
  refine ⟨?_, h.bounded⟩
  rw [Table.get?_ensure hopen]
  by_cases hs : s = sid
  · rw [if_pos hs, ← hs]
    exact h.get
  · rw [if_neg hs]
    exact h.get

theorem get?_opened (hopen : m.openStream s = some m') : m'.get? s = some st := by
  rw [Table.get?_ensure hopen, if_pos rfl, h.get]

theorem Serves.drive_self (hopen : m.openStream s = some m') {f : Stream → Stream × List Bytes}
    (hf : Stream.Fits (f st)) : Serves s (m'.drive s f).1 (f st).1 ∧
      ((m'.drive s f).2.map .datagram).filterMap (seen s) = (f st).2.map .segment := by
  have hget := get?_opened h hopen
  refine ⟨⟨?_, hf.1⟩, ?_⟩
  · rw [get?_drive s f hget, if_pos rfl, getD_some]
  · rw [drive, hget]
    exact seen_lstreamSend_self hf.2

theorem Serves.drive_of_ne (hne : s ≠ sid) (f : Stream → Stream × List Bytes) :
    Serves s (m.drive sid f).1 st ∧ ((m.drive sid f).2.map .datagram).filterMap (seen s) = [] := by
  refine ⟨⟨?_, h.bounded⟩, ?_⟩
  · rw [drive, Table.get?_modify, if_neg hne, h.get]
  · rw [drive]
    cases m.get? sid with
    | none => rfl
    | some st' => exact seen_lstreamSend_of_ne hne _

theorem Serves.tick (now : UInt32) : Serves s (m.streammuxTick now).1 (st.streamTick now).1 ∧
      ((m.streammuxTick now).2.map .datagram).filterMap (seen s) =
        (st.streamTick now).2.map .segment := by
  have hfits := h.bounded.streamTick now
  have hothers : ∀ e ∈ m.entries, e.1 ≠ s →
      ((lstreamSend e.1 (e.2.streamTick now).2).map .datagram).filterMap (seen s) = [] :=
    fun e _ he => seen_lstreamSend_of_ne (Ne.symm he) _
  have hget := h.get
  simp only [streammuxTick, map_flatMap, filterMap_flatMap]
  rw [Table.flatMap_entries m s _ hothers]
  cases hs : m.get? s with
  | none =>
    -- a stream that is not open has nothing to do
    rw [hs, getD_none] at hget
    subst hget
    rw [Stream.streamTick_streamNew]
    refine ⟨⟨?_, h.bounded⟩, rfl⟩
    rw [Table.get?_map, hs]
    rfl
  | some st' =>
    rw [hs, getD_some] at hget
    subst hget
    refine ⟨⟨?_, hfits.1⟩, ?_⟩
    · rw [Table.get?_map, hs]
      rfl
    · rw [elim_some]
      exact seen_lstreamSend_self hfits.2

theorem Serves.read (cap : ℕ) : (m.streammuxRead s cap).1 =
    (st.streamRead cap).1 ∧ Serves s (m.streammuxRead s cap).2 (st.streamRead cap).2 := by
  have hget := h.get
  have hbounded : (st.streamRead cap).2.Bounded := h.bounded
  cases hs : m.get? s with
  | none =>
    rw [hs, getD_none] at hget
    subst hget
    rw [Stream.streamRead_streamNew]
    refine ⟨by rw [streammuxRead, hs]; rfl, ⟨?_, h.bounded⟩⟩
    rw [streammuxRead, Table.get?_modify, if_pos rfl, hs]
    rfl
  | some st' =>
    rw [hs, getD_some] at hget
    subst hget
    refine ⟨by rw [streammuxRead, hs]; rfl, ⟨?_, hbounded⟩⟩
    rw [streammuxRead, Table.get?_modify, if_pos rfl, hs]
    rfl

end

variable {c : MuxCall}

theorem Room.opened (h : m.Room c) (hc : c.opens = some sid) : ∃ m', m.openStream sid = some m' :=
  isSome_iff_exists.mp (h sid hc)

theorem Serves.own (h : Serves s m st) {op : StreamOp} (hroom : m.Room c)
    (hp : project s c = some op) : Serves s (m.apply c).1 (st.apply op).1 ∧
      (m.apply c).2.filterMap (seen s) = (st.apply op).2 := by
  cases c with
  | openStream sid => cases hp
  | write sid data now =>
    obtain ⟨rfl, hop⟩ := ite_none_right_eq_some.mp hp
    cases hop
    obtain ⟨m', hopen⟩ := hroom.opened rfl
    obtain ⟨hserves, hsent⟩ := h.drive_self hopen
      (f := fun st => (st.streamWrite data now).2) (h.bounded.streamWrite data now)
    simp only [apply, streammuxWrite, hopen, map_some, elim_some,
      get?_opened h hopen, filterMap_append, hsent]
    exact ⟨hserves, by simp [seen, Stream.apply]⟩
  | read sid cap =>
    obtain ⟨rfl, hop⟩ := ite_none_right_eq_some.mp hp
    cases hop
    obtain ⟨hbytes, hserves⟩ := h.read cap
    exact ⟨hserves, by simp [apply, seen, Stream.apply, hbytes]⟩
  | finish sid now =>
    obtain ⟨rfl, hop⟩ := ite_none_right_eq_some.mp hp
    cases hop
    obtain ⟨m', hopen⟩ := hroom.opened rfl
    simp only [apply, streammuxFinish, hopen, elim_some]
    exact h.drive_self hopen (h.bounded.streamFinish now)
  | input seg now =>
    obtain ⟨hlong, hp⟩ := ite_none_left_eq_some.mp hp
    obtain ⟨rfl, hop⟩ := ite_none_right_eq_some.mp hp
    cases hop
    obtain ⟨m', hopen⟩ := hroom.opened (if_neg hlong)
    simp only [apply, streammuxInput, if_neg hlong, hopen, elim_some]
    exact h.drive_self hopen (h.bounded.streamInput (seg.drop streammuxFrame) now)
  | tick now =>
    cases hp
    exact h.tick now

theorem Serves.other (h : Serves s m st) (hroom : m.Room c) (hp : project s c = none) :
    Serves s (m.apply c).1 st ∧ (m.apply c).2.filterMap (seen s) = [] := by
  cases c with
  | openStream sid =>
    obtain ⟨m', hopen⟩ := hroom.opened rfl
    simp only [apply, hopen, getD_some]
    exact ⟨h.opened hopen, rfl⟩
  | write sid data now =>
    have hne : s ≠ sid := fun hs => by simp [project, hs] at hp
    obtain ⟨m', hopen⟩ := hroom.opened rfl
    obtain ⟨hserves, hsent⟩ :=
      (h.opened hopen).drive_of_ne hne fun st => (st.streamWrite data now).2
    simp only [apply, streammuxWrite, hopen, map_some, elim_some,
      filterMap_append, hsent]
    exact ⟨hserves, by simp [seen, hne]⟩
  | read sid cap =>
    have hne : s ≠ sid := fun hs => by simp [project, hs] at hp
    refine ⟨⟨?_, h.bounded⟩, by simp [apply, seen, hne]⟩
    simp only [apply, streammuxRead, Table.get?_modify, if_neg hne]
    exact h.get
  | finish sid now =>
    have hne : s ≠ sid := fun hs => by simp [project, hs] at hp
    obtain ⟨m', hopen⟩ := hroom.opened rfl
    simp only [apply, streammuxFinish, hopen, elim_some]
    exact (h.opened hopen).drive_of_ne hne _
  | input seg now =>
    by_cases hshort : seg.length < streammuxFrame
    · -- a packet without an id is ignored
      simp only [apply, streammuxInput, if_pos hshort]
      exact ⟨h, rfl⟩
    · have hne : s ≠ sidOf seg := fun hs => by simp [project, hshort, hs] at hp
      obtain ⟨m', hopen⟩ := hroom.opened (if_neg hshort)
      simp only [apply, streammuxInput, if_neg hshort, hopen, elim_some]
      exact (h.opened hopen).drive_of_ne hne _
  | tick now => cases hp

theorem isPart_apply (s : UInt16) :
    Stream.apply.IsPart apply Room (Serves s) (project s) (seen s) where
  own h hroom hp := h.own hroom hp
  other h hroom hp := h.other hroom hp

/-- If the table never fills, a stream sends and returns what it would alone, driven by its part of
the run. -/
theorem stream_isolated (s : UInt16) (calls : List MuxCall)
    (hroom : apply.Along Room streammuxNew calls) :
    (apply.exec streammuxNew calls).2.filterMap (seen s) =
      (Stream.apply.exec streamNew (calls.filterMap (project s))).2 :=
  ((isPart_apply s).exec (Serves.init s) hroom).2

def twoStreams : List MuxCall :=
  [.write 1 [104, 105] 0, .write 2 [7] 0, .input [9] 1, .input [0, 2, 9] 1,
    .input [0, 1, 2, 0, 0, 0, 0, 0, 0, 0, 1, 1, 0] 5, .read 1 8, .tick 400, .finish 2 401]

theorem twoStreams_isolated : apply.Along Room streammuxNew twoStreams ∧
    (apply.exec streammuxNew twoStreams).2.filterMap (seen 1) =
      (Stream.apply.exec streamNew
        [.write [104, 105] 0, .input [2, 0, 0, 0, 0, 0, 0, 0, 1, 1, 0] 5, .read 8, .tick 400]).2 :=
  ⟨by decide +kernel, stream_isolated 1 twoStreams (by decide +kernel)⟩

end Mux

def Stream.Completed (s : Stream) : Bool := s.streamPeerFinished && s.streamSendDone

def usedIds (calls : List MuxCall) : List UInt16 := (calls.filterMap MuxCall.opens).eraseDups

namespace Mux

def after (calls : List MuxCall) : Mux := (apply.exec streammuxNew calls).1

variable (m : Mux)

def unfinished : ℕ := m.entries.countP fun e => !e.2.Completed

/-- A stream opens while fewer than sixteen are unfinished. -/
def CountsConcurrent (sid : UInt16) : Prop :=
  m.unfinished < streammuxMax → (m.openStream sid).isSome = true

instance (m : Mux) (sid : UInt16) : Decidable (m.CountsConcurrent sid) :=
  inferInstanceAs (Decidable (_ → _))

theorem keys_drive (sid : UInt16) (f : Stream → Stream × List Bytes) :
    (m.drive sid f).1.keys = m.keys :=
  m.keys_modify sid _

theorem keys_apply (c : MuxCall) : (m.apply c).1.keys =
    c.opens.elim m.keys fun sid => ((m.openStream sid).getD m).keys := by
  cases c with
  | openStream sid => rfl
  | write sid data now =>
    simp only [apply, streammuxWrite, MuxCall.opens, elim_some]
    cases m.openStream sid with
    | none => rfl
    | some m' => exact keys_drive m' sid _
  | read sid cap => exact m.keys_modify sid _
  | finish sid now =>
    simp only [apply, streammuxFinish, MuxCall.opens, elim_some]
    cases m.openStream sid with
    | none => rfl
    | some m' => exact keys_drive m' sid _
  | input seg now =>
    simp only [apply, streammuxInput, MuxCall.opens]
    split_ifs
    · rfl
    · rw [elim_some]
      cases m.openStream (sidOf seg) with
      | none => rfl
      | some m' => exact keys_drive m' _ _
  | tick now => exact m.keys_map _

theorem keys_after (calls : List MuxCall) :
    (after calls).keys = (usedIds calls).take streammuxMax := by
  induction calls using reverseRecOn with
  | nil => rfl
  | append_singleton calls c ih =>
    have hlast : after (calls ++ [c]) = ((after calls).apply c).1 := by
      rw [after, Transducer.exec_append]
      rfl
    rw [hlast, keys_apply, usedIds, filterMap_append]
    cases hc : c.opens with
    | none =>
      rw [filterMap_cons_none hc, filterMap_nil, append_nil]
      exact ih
    | some sid =>
      rw [filterMap_cons_some hc, filterMap_nil]
      exact Table.keys_ensure ih sid streamNew

/-- Short of sixteen unfinished streams one can be opened exactly if fewer ids were used, or its id
is among the first sixteen. -/
theorem countsConcurrent_iff (calls : List MuxCall) (sid : UInt16) :
    (after calls).CountsConcurrent sid ↔
      streammuxMax ≤ (after calls).unfinished ∨ (usedIds calls).length < streammuxMax ∨
        sid ∈ (usedIds calls).take streammuxMax := by
  have hopen : ((after calls).openStream sid).isSome = true ↔
      (usedIds calls).length < streammuxMax ∨ sid ∈ (usedIds calls).take streammuxMax := by
    rw [openStream, Table.isSome_ensure, keys_after, length_take, min_lt_iff, or_comm]
    simp
  rw [CountsConcurrent, hopen, imp_iff_not_or, not_lt]

def sixteenFinished : List MuxCall :=
  ((range 16).map UInt16.ofNat).flatMap fun sid =>
    [.finish sid 1, .input (frame sid ((fFin ||| fAck) :: put32 0 ++ put32 1 ++ put16 256)) 2]

theorem sixteenFinished_full : (after sixteenFinished).unfinished = 0 ∧
    ¬ (after sixteenFinished).CountsConcurrent 16 := by
  decide +kernel

end Mux
end Norn
