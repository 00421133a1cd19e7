import Norn.Nornd.Frames
import Norn.Session.Authentic

/-!
# The transport of the daemon

The daemon keeps one session and one stream to every configured member of the cluster
(`transport.c`). A callback runs inside the call of the library that invokes it.
-/

namespace Norn
open List Option

def nornSvcRaft : UInt16 := 1
def redialTicks : ℕ := 200

structure OutPeer where
  pubkey : Bytes
  session : Option ℕ
  stream : Option (ℕ × ℕ)
  established : Bool
  redial : ℕ

def transportSend (peers : List OutPeer) (pubkey data : Bytes) : Option ((ℕ × ℕ) × Bytes) :=
  (peers.find? fun op => op.stream.isSome ∧ op.pubkey = pubkey).bind fun op =>
    op.stream.bind fun st => (frameEncode data norndFramerCap).map fun frame => (st, frame)

/-- A call of `nornd_transport_send`, with the number of bytes the stream has room for. -/
structure SendCall where
  peers : List OutPeer
  pubkey : Bytes
  data : Bytes
  room : ℕ

namespace SendCall

def written (st : ℕ × ℕ) (c : SendCall) : Bytes :=
  match transportSend c.peers c.pubkey c.data with
  | none => []
  | some (st', frame) => if st' = st then frame.take c.room else []

def message? (st : ℕ × ℕ) (c : SendCall) : Option Bytes :=
  match transportSend c.peers c.pubkey c.data with
  | none => none
  | some (st', _) => if st' = st then some c.data else none

/-- The stream takes the whole frame or nothing of it. -/
def AllOrNothing (st : ℕ × ℕ) (c : SendCall) : Prop :=
  ∀ frame, transportSend c.peers c.pubkey c.data = some (st, frame) →
    c.room = 0 ∨ frame.length ≤ c.room

end SendCall

def accepted (st : ℕ × ℕ) (calls : List SendCall) : Bytes := calls.flatMap (SendCall.written st)

/-- The stream carries complete frames of messages sent, in order. -/
def Untorn (st : ℕ × ℕ) (calls : List SendCall) : Prop :=
  framing.Whole (accepted st calls) ∧
    ((framing.frames (accepted st calls)).1.map Subtype.val).Sublist
      (calls.filterMap (SendCall.message? st))

theorem transportSend_some {peers : List OutPeer} {pubkey data frame : Bytes} {st : ℕ × ℕ}
    (h : transportSend peers pubkey data = some (st, frame)) :
    data.length ≤ norndFrameMax ∧ frame = frameBytes data := by
  obtain ⟨op, _, h⟩ := bind_eq_some_iff.mp h
  obtain ⟨st', _, h⟩ := bind_eq_some_iff.mp h
  obtain ⟨frame', hframe, heq⟩ := map_eq_some_iff.mp h
  cases heq
  by_cases hle : data.length ≤ norndFrameMax
  · rw [frameEncode_of_le hle] at hframe
    exact ⟨hle, (some.inj hframe).symm⟩
  · rw [frameEncode_of_lt (not_le.mp hle)] at hframe
    cases hframe

section
variable {st : ℕ × ℕ} {calls : List SendCall} {c : SendCall}

theorem SendCall.written_cases (st : ℕ × ℕ) (c : SendCall) :
    (c.written st = [] ∧ c.AllOrNothing st) ∨ ∃ p : Payload, c.message? st = some p.1 ∧
      c.written st = (framing.encode p).take c.room ∧
      (c.AllOrNothing st ↔ c.room = 0 ∨ (framing.encode p).length ≤ c.room) := by
  unfold written message? AllOrNothing
  cases hsend : transportSend c.peers c.pubkey c.data with
  | none => exact .inl ⟨rfl, fun _ h => nomatch h⟩
  | some out =>
    obtain ⟨st', frame⟩ := out
    by_cases hst : st' = st
    · obtain ⟨hle, rfl⟩ := transportSend_some hsend
      subst hst
      refine .inr ⟨⟨c.data, hle⟩, if_pos rfl, if_pos rfl, ?_⟩
      refine ⟨fun h => h _ rfl, fun h frame hframe => ?_⟩
      cases hframe
      exact h
    · refine .inl ⟨if_neg hst, fun frame hframe => ?_⟩
      cases hframe
      exact absurd rfl hst

theorem accepted_concat (st : ℕ × ℕ) (calls : List SendCall) (c : SendCall) :
    accepted st (calls ++ [c]) = accepted st calls ++ c.written st := by
  rw [accepted, accepted, flatMap_append, flatMap_singleton]

theorem Untorn.nil (st : ℕ × ℕ) : Untorn st [] := by
  have hnil : framing.frames [] = ([], []) := framing.frames_of_none framing.next_nil
  refine ⟨?_, ?_⟩
  · rw [accepted, flatMap_nil, Framing.Whole, hnil]
  · rw [accepted, flatMap_nil, hnil]
    exact Sublist.slnil

theorem Untorn.concat_iff (h : Untorn st calls) : Untorn st (calls ++ [c]) ↔ c.AllOrNothing st := by
  obtain ⟨hwhole, hsub⟩ := h
  obtain ⟨fs, hfs⟩ := framing.whole_iff.mp hwhole
  rw [hfs, framing.frames_flatMap] at hsub
  have hmore : ((fs.map Subtype.val).Sublist
      ((calls ++ [c]).filterMap (SendCall.message? st))) := by
    rw [filterMap_append]
    exact hsub.trans (sublist_append_left _ _)
  unfold Untorn
  rw [accepted_concat, hfs]
  rcases c.written_cases st with ⟨hwritten, hall⟩ | ⟨p, hmsg, hwritten, hall⟩
  · rw [hwritten, append_nil, Framing.Whole, framing.frames_flatMap]
    exact iff_of_true ⟨rfl, hmore⟩ hall
  rw [hwritten, hall]
  by_cases hzero : c.room = 0
  · rw [hzero, take_zero, append_nil, Framing.Whole, framing.frames_flatMap]
    exact iff_of_true ⟨rfl, hmore⟩ (.inl rfl)
  by_cases hfull : (framing.encode p).length ≤ c.room
  · have hcat : fs.flatMap framing.encode ++ framing.encode p =
        (fs ++ [p]).flatMap framing.encode := by
      rw [flatMap_append, flatMap_singleton]
    rw [take_of_length_le hfull, hcat, Framing.Whole, framing.frames_flatMap]
    refine iff_of_true ⟨rfl, ?_⟩ (.inr hfull)
    rw [map_append, filterMap_append, filterMap_cons_some hmsg]
    exact hsub.append (Sublist.refl _)
  · -- a part of the frame stays behind as the rest
    have hcut : framing.next ((framing.encode p).take c.room) = none := by
      refine framing.next_of_cut (take_append_drop c.room _).symm fun hnil => hfull ?_
      exact drop_eq_nil_iff.mp hnil
    refine iff_of_false (fun hun => ?_) (not_or.mpr ⟨hzero, hfull⟩)
    have hrest := hun.1
    rw [Framing.Whole, framing.frames_flatMap_append, framing.frames_of_none hcut] at hrest
    rcases take_eq_nil_iff.mp hrest with hroom | hnil
    · exact hzero hroom
    · exact framing.encode_ne_nil p hnil

end

/-- The bytes on a stream are complete frames of messages sent exactly if it accepts of every frame
all or nothing. -/
theorem sends_untorn_iff (st : ℕ × ℕ) (calls : List SendCall) :
    (∀ m ≤ calls.length, Untorn st (calls.take m)) ↔ ∀ c ∈ calls, c.AllOrNothing st := by
  induction calls using reverseRecOn with
  | nil =>
    refine iff_of_true (fun m _ => ?_) fun c hc => nomatch hc
    rw [take_nil]
    exact Untorn.nil st
  | append_singleton calls c ih =>
    have hlast : (calls ++ [c]).take (calls.length + 1) = calls ++ [c] :=
      take_of_length_le (by rw [length_append, length_singleton])
    constructor
    · intro h c' hc'
      have hcalls : ∀ m ≤ calls.length, Untorn st (calls.take m) := by
        intro m hm
        have hbefore := h m (by rw [length_append]; omega)
        rwa [take_append_of_le_length hm] at hbefore
      rcases mem_append.mp hc' with hc' | hc'
      · exact ih.mp hcalls c' hc'
      · rw [mem_singleton.mp hc']
        have hprev := hcalls calls.length le_rfl
        have hnow := h (calls.length + 1) (by rw [length_append, length_singleton])
        rw [take_length] at hprev
        rw [hlast] at hnow
        exact hprev.concat_iff.mp hnow
    · intro h m hm
      have hcalls := ih.mpr fun c' hc' => h c' (mem_append_left _ hc')
      rw [length_append, length_singleton] at hm
      rcases Nat.le_succ_iff.mp hm with hm | rfl
      · rw [take_append_of_le_length hm]
        exact hcalls m hm
      · have hprev := hcalls calls.length le_rfl
        rw [take_length] at hprev
        rw [hlast]
        exact hprev.concat_iff.mpr (h c (mem_append_right _ (mem_singleton_self c)))

def tornCall : SendCall :=
  ⟨[⟨replicate 32 7, some 0, some (0, 0), true, 0⟩], replicate 32 7, [9], 2⟩

theorem tornCall_torn : accepted (0, 0) [tornCall] = [0, 0] ∧
    ¬ framing.Whole (accepted (0, 0) [tornCall]) ∧
    ¬ ∀ m ≤ [tornCall].length, Untorn (0, 0) ([tornCall].take m) := by
  have hnot : ¬ framing.Whole (accepted (0, 0) [tornCall]) := by
    unfold Framing.Whole
    decide
  exact ⟨by decide, hnot, fun hall => hnot (hall 1 le_rfl).1⟩

end Norn
