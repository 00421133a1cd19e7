import Norn.Lib.Bytes
import Norn.Lib.Framing

/-!
# Frames between cluster members

A length of four bytes and the message (`peers.c`, `nornd_transport_poll`).
-/

namespace Norn
open List

def norndFrameMax : ℕ := 8192
def norndFramerCap : ℕ := norndFrameMax + 4

def frameEncode (payload : Bytes) (cap : ℕ) : Option Bytes :=
  if norndFrameMax < payload.length ∨ cap < 4 + payload.length then none
  else some (bigEndian 4 payload.length ++ payload)

structure Framer where
  buf : Bytes
  start : ℕ
  start_le : start ≤ buf.length
  length_le : buf.length ≤ norndFramerCap

def framerReset : Framer := ⟨[], 0, le_rfl, Nat.zero_le _⟩

def Framer.unread (f : Framer) : Bytes := f.buf.drop f.start

def Framer.avail (f : Framer) : ℕ := f.buf.length - f.start

def framerPush (f : Framer) (data : Bytes) : Bool × Framer :=
  if h : norndFramerCap - f.avail < data.length then (false, framerReset)
  else if h' : norndFramerCap - f.buf.length < data.length then
    (true, ⟨f.unread ++ data, 0, Nat.zero_le _, by
      have := f.length_le
      rw [length_append, Framer.unread, length_drop]
      unfold Framer.avail at h
      omega⟩)
  else
    (true, ⟨f.buf ++ data, f.start, by
      rw [length_append]
      exact f.start_le.trans (Nat.le_add_right _ _), by
      have := f.length_le
      rw [length_append]
      omega⟩)

inductive FrameResult
  | incomplete
  | violation
  | frame (payload : Bytes) (f : Framer)

def framerNext (f : Framer) : FrameResult :=
  if f.avail < 4 then .incomplete
  else if norndFrameMax < fromBigEndian (slice f.buf f.start 4) then .violation
  else if h : f.avail < 4 + fromBigEndian (slice f.buf f.start 4) then .incomplete
  else .frame (slice f.buf (f.start + 4) (fromBigEndian (slice f.buf f.start 4)))
    { f with
      start := f.start + (4 + fromBigEndian (slice f.buf f.start 4))
      start_le := by
        have := f.start_le
        unfold Framer.avail at h
        omega }

def framerDrain : ℕ → Framer → List Bytes × Bool × Framer
  | 0, f => ([], false, f)
  | n + 1, f =>
    match framerNext f with
    | .incomplete => ([], false, f)
    | .violation => ([], true, f)
    | .frame payload f' => (payload :: (framerDrain n f').1, (framerDrain n f').2)

structure InConn where
  active : Bool
  peer : Bytes
  stream : Option (ℕ × ℕ)
  framer : Framer

structure PollOutcome where
  conn : InConn
  inputs : List (Bytes × Bytes)
  left : List Bytes
  refused : Bool

def pollReads (ic : InConn) : List Bytes → PollOutcome
  | [] => ⟨ic, [], [], false⟩
  | data :: rest =>
    let pushed := framerPush ic.framer data
    if pushed.1 = false then ⟨{ ic with framer := pushed.2 }, [], rest, true⟩
    else
      let out := framerDrain pushed.2.avail pushed.2
      let inputs := out.1.map fun payload => (ic.peer, payload)
      if out.2.1 then
        ⟨{ ic with active := false, stream := none, framer := out.2.2 }, inputs, rest, false⟩
      else
        let res := pollReads { ic with framer := out.2.2 } rest
        ⟨res.conn, inputs ++ res.inputs, res.left, res.refused⟩

def pollConn (ic : InConn) (reads : List Bytes) : PollOutcome :=
  if ic.active = false ∨ ic.stream = none then ⟨ic, [], reads, false⟩ else pollReads ic reads

def polls (ic : InConn) (pending : List Bytes) : List (List Bytes) → PollOutcome
  | [] => ⟨ic, [], pending, false⟩
  | reads :: later =>
    let out := pollConn ic (pending ++ reads)
    let res := polls out.conn out.left later
    ⟨res.conn, out.inputs ++ res.inputs, res.left, out.refused || res.refused⟩

abbrev Payload := { p : Bytes // p.length ≤ norndFrameMax }

def frameBytes (p : Bytes) : Bytes := bigEndian 4 p.length ++ p

theorem length_frameBytes (p : Bytes) : (frameBytes p).length = 4 + p.length := by
  rw [frameBytes, length_append, length_bigEndian]

theorem frameEncode_of_le {p : Bytes} (h : p.length ≤ norndFrameMax) :
    frameEncode p norndFramerCap = some (frameBytes p) := by
  unfold norndFramerCap frameEncode
  rw [if_neg (by omega), frameBytes]

theorem frameEncode_of_lt {p : Bytes} {cap : ℕ} (h : norndFrameMax < p.length) :
    frameEncode p cap = none :=
  if_pos (.inl h)

def declared (s : Bytes) : ℕ := fromBigEndian (s.take 4)

theorem declared_frameBytes {p : Bytes} (h : p.length ≤ norndFrameMax) (r : Bytes) :
    declared (frameBytes p ++ r) = p.length := by
  have hlt : p.length < 256 ^ 4 := lt_of_le_of_lt h (by decide)
  have htake : (frameBytes p ++ r).take 4 = bigEndian 4 p.length := by
    rw [frameBytes, append_assoc, take_left' (length_bigEndian 4 _)]
  rw [declared, htake, fromBigEndian_bigEndian, Nat.mod_eq_of_lt hlt]

def nextFrame (s : Bytes) : Option (Payload × Bytes) :=
  if h : 4 ≤ s.length ∧ declared s ≤ norndFrameMax ∧ 4 + declared s ≤ s.length then
    some (⟨slice s 4 (declared s), (length_take_le _ _).trans h.2.1⟩, s.drop (4 + declared s))
  else none

theorem nextFrame_frameBytes (p : Payload) (r : Bytes) :
    nextFrame (frameBytes p.1 ++ r) = some (p, r) := by
  have hdecl := declared_frameBytes p.2 r
  have hlen := length_frameBytes p.1
  have hslice : slice (frameBytes p.1 ++ r) 4 p.1.length = p.1 := by
    have h := slice_append (bigEndian 4 p.1.length) p.1 r
    rw [length_bigEndian] at h
    rw [frameBytes, append_assoc]
    exact h
  have hdrop : (frameBytes p.1 ++ r).drop (4 + p.1.length) = r := by
    rw [← hlen, drop_left]
  unfold nextFrame
  rw [dif_pos ⟨by rw [length_append]; omega, by rw [hdecl]; exact p.2,
    by rw [hdecl, length_append]; omega⟩]
  simp only [hdecl, hslice, hdrop]

theorem eq_of_nextFrame {s r : Bytes} {p : Payload} (h : nextFrame s = some (p, r)) :
    s = frameBytes p.1 ++ r := by
  unfold nextFrame at h
  split_ifs at h with hfit
  simp only [Option.some.injEq, Prod.mk.injEq] at h
  obtain ⟨rfl, rfl⟩ := h
  have hlen : (slice s 4 (declared s)).length = declared s := by
    rw [slice, length_take, length_drop]
    omega
  have hhead : bigEndian 4 (declared s) = s.take 4 := by
    have h := bigEndian_fromBigEndian (s.take 4)
    rwa [length_take, min_eq_left hfit.1] at h
  change s = frameBytes (slice s 4 (declared s)) ++ s.drop (4 + declared s)
  rw [frameBytes, hlen, hhead, slice, ← drop_drop, append_assoc,
    take_append_drop, take_append_drop]

def framing : Framing Payload UInt8 where
  encode p := frameBytes p.1
  next := nextFrame
  next_encode := nextFrame_frameBytes
  eq_of_next := eq_of_nextFrame
  encode_ne_nil p h := by
    have hlen := length_frameBytes p.1
    rw [h, length_nil] at hlen
    omega

def Violates (s : Bytes) : Prop := 4 ≤ s.length ∧ norndFrameMax < declared s

instance (s : Bytes) : Decidable (Violates s) := inferInstanceAs (Decidable (_ ∧ _))

namespace Framer

theorem length_unread (f : Framer) : f.unread.length = f.avail := length_drop

theorem declared_unread (f : Framer) : fromBigEndian (slice f.buf f.start 4) = declared f.unread :=
  rfl

end Framer

variable {f : Framer} {data : Bytes}

theorem framerPush_of_le (h : f.unread.length + data.length ≤ norndFramerCap) :
    (framerPush f data).1 = true ∧ (framerPush f data).2.unread = f.unread ++ data := by
  rw [f.length_unread] at h
  unfold framerPush
  rw [dif_neg (by omega)]
  split_ifs
  · exact ⟨rfl, rfl⟩
  · refine ⟨rfl, ?_⟩
    change (f.buf ++ data).drop f.start = f.buf.drop f.start ++ data
    rw [drop_append_of_le_length f.start_le]

theorem framerPush_of_lt (h : norndFramerCap < f.unread.length + data.length) :
    framerPush f data = (false, framerReset) := by
  have hle : f.avail ≤ norndFramerCap := (Nat.sub_le _ _).trans f.length_le
  rw [f.length_unread] at h
  exact dif_pos (by omega)

theorem framerNext_of_some {p : Payload} {r : Bytes} (h : framing.next f.unread = some (p, r)) :
    ∃ f', framerNext f = .frame p.1 f' ∧ f'.unread = r := by
  have hlen := f.length_unread
  change nextFrame f.unread = some (p, r) at h
  unfold nextFrame at h
  split_ifs at h with hfit
  simp only [Option.some.injEq, Prod.mk.injEq] at h
  obtain ⟨rfl, rfl⟩ := h
  have hdecl := f.declared_unread
  unfold framerNext
  rw [if_neg (by omega), if_neg (by omega), dif_neg (by omega)]
  have hbody : slice f.buf (f.start + 4) (fromBigEndian (slice f.buf f.start 4)) =
      slice f.unread 4 (declared f.unread) := by
    change (f.buf.drop (f.start + 4)).take _ = ((f.buf.drop f.start).drop 4).take _
    rw [drop_drop]
    rfl
  exact ⟨_, congrArg₂ FrameResult.frame hbody rfl, drop_drop.symm⟩

theorem framerNext_of_none (h : framing.next f.unread = none) :
    framerNext f = if Violates f.unread then .violation else .incomplete := by
  have hlen := f.length_unread
  change nextFrame f.unread = none at h
  unfold nextFrame at h
  split_ifs at h with hfit
  have hdecl := f.declared_unread
  unfold framerNext
  by_cases hfour : f.avail < 4
  · have hno : ¬ Violates f.unread := fun hv => by
      have := hv.1
      omega
    rw [if_pos hfour, if_neg hno]
  · rw [if_neg hfour]
    by_cases hlong : norndFrameMax < declared f.unread
    · have hv : Violates f.unread := ⟨by omega, hlong⟩
      rw [if_pos (by omega), if_pos hv]
    · rw [if_neg (by omega), dif_pos (by omega), if_neg fun hv => hlong hv.2]

theorem framerDrain_eq {n : ℕ} (hn : f.avail ≤ n) :
    (framerDrain n f).1 = (framing.frames f.unread).1.map Subtype.val ∧
      (framerDrain n f).2.1 = decide (Violates (framing.frames f.unread).2) ∧
      (framerDrain n f).2.2.unread = (framing.frames f.unread).2 := by
  induction n generalizing f with
  | zero =>
    have hnil : f.unread = [] := eq_nil_of_length_eq_zero (by rw [f.length_unread]; omega)
    have hframes := framing.frames_of_none (hnil ▸ framing.next_nil : framing.next f.unread = none)
    have hno : ¬ Violates f.unread := by
      rw [hnil]
      exact fun hv => absurd hv.1 (by decide)
    rw [hframes]
    exact ⟨rfl, (decide_eq_false hno).symm, rfl⟩
  | succ n ih =>
    cases hnext : framing.next f.unread with
    | none =>
      rw [framing.frames_of_none hnext, framerDrain, framerNext_of_none hnext]
      by_cases hv : Violates f.unread
      · rw [if_pos hv]
        exact ⟨rfl, (decide_eq_true hv).symm, rfl⟩
      · rw [if_neg hv]
        exact ⟨rfl, (decide_eq_false hv).symm, rfl⟩
    | some out =>
      obtain ⟨p, r⟩ := out
      obtain ⟨f', hframe, hunread⟩ := framerNext_of_some hnext
      have hlt := framing.length_lt_of_next hnext
      rw [f.length_unread, ← hunread, f'.length_unread] at hlt
      obtain ⟨hbodies, hviol, hrest⟩ := ih (f := f') (by omega)
      rw [framing.frames_of_some hnext, framerDrain, hframe, ← hunread]
      exact ⟨congrArg (p.1 :: ·) hbodies, hviol, hrest⟩

theorem not_violates_of_whole {s t : Bytes} (h : framing.Whole (s ++ t)) :
    ¬ Violates (framing.frames s).2 := by
  rintro ⟨hfour, hlong⟩
  have hrest : framing.Whole ((framing.frames s).2 ++ t) := by
    rw [Framing.Whole, framing.frames_append] at h
    exact h
  obtain ⟨as, has⟩ := framing.whole_iff.mp hrest
  cases as with
  | nil =>
    have hnil := (append_eq_nil_iff.mp has).1
    rw [hnil] at hfour
    exact absurd hfour (by decide)
  | cons p as =>
    have hdecl : declared (framing.frames s).2 = p.1.length := by
      have hhead : declared ((framing.frames s).2 ++ t) = declared (framing.frames s).2 := by
        rw [declared, declared, take_append_of_le_length hfour]
      rw [← hhead, has, flatMap_cons]
      exact declared_frameBytes p.2 _
    exact absurd p.2 (by rw [← hdecl]; omega)

section
variable {ic : InConn} {payloads : List Payload}

/-- The framer holds what is left behind the complete frames. -/
structure Reading (ic : InConn) (past : Bytes) : Prop where
  active : ic.active = true
  stream : ic.stream ≠ none
  unread : ic.framer.unread = (framing.frames past).2

/-- The read fits beside the incomplete frame. -/
def Fits (past data : Bytes) : Prop :=
  (framing.frames past).2.length + data.length ≤ norndFramerCap

instance (past data : Bytes) : Decidable (Fits past data) := inferInstanceAs (Decidable (_ ≤ _))

def FitsAll (past : Bytes) : List Bytes → Prop
  | [] => True
  | data :: rest => Fits past data ∧ FitsAll (past ++ data) rest

variable {past later : Bytes}

theorem Reading.read (hr : Reading ic past) (hfit : Fits past data)
    (hwhole : framing.Whole (past ++ data ++ later)) : ∃ f, (∀ rest, pollReads ic (data :: rest) =
        ⟨(pollReads { ic with framer := f } rest).conn,
          ((framing.frames ((framing.frames past).2 ++ data)).1.map fun p => (ic.peer, p.1)) ++
            (pollReads { ic with framer := f } rest).inputs,
          (pollReads { ic with framer := f } rest).left,
          (pollReads { ic with framer := f } rest).refused⟩) ∧
      Reading { ic with framer := f } (past ++ data) := by
  have hfit' : ic.framer.unread.length + data.length ≤ norndFramerCap := by
    rw [hr.unread]
    exact hfit
  obtain ⟨hok, hpush⟩ := framerPush_of_le hfit'
  obtain ⟨hbodies, hviol, hrest⟩ := framerDrain_eq (le_refl (framerPush ic.framer data).2.avail)
  rw [hpush, hr.unread] at hbodies hviol hrest
  have hframes : (framing.frames (past ++ data)).2 =
      (framing.frames ((framing.frames past).2 ++ data)).2 := by
    rw [framing.frames_append]
  have hno : ¬ Violates (framing.frames ((framing.frames past).2 ++ data)).2 := by
    rw [← hframes]
    exact not_violates_of_whole hwhole
  refine ⟨(framerDrain (framerPush ic.framer data).2.avail (framerPush ic.framer data).2).2.2,
    fun rest => ?_, hr.active, hr.stream, hrest.trans hframes.symm⟩
  rw [pollReads]
  simp only [hok, hbodies, hviol, decide_eq_false hno, map_map, Function.comp_def,
    Bool.true_eq_false, if_false, Bool.false_eq_true]

theorem fitsAll_append {reads more : List Bytes} : FitsAll past (reads ++ more) ↔
    FitsAll past reads ∧ FitsAll (past ++ reads.flatten) more := by
  induction reads generalizing past with
  | nil => simp [FitsAll]
  | cons data reads ih =>
    rw [cons_append, FitsAll, FitsAll, ih, flatten_cons, append_assoc, and_assoc]

def handed (ic : InConn) (s : Bytes) : List (Bytes × Bytes) :=
  (framing.frames s).1.map fun p => (ic.peer, p.1)

theorem handed_append (ic : InConn) (past data more : Bytes) :
    handed ic ((framing.frames past).2 ++ (data ++ more)) =
      handed ic ((framing.frames past).2 ++ data) ++
        handed ic ((framing.frames (past ++ data)).2 ++ more) := by
  have hrest : (framing.frames (past ++ data)).2 =
      (framing.frames ((framing.frames past).2 ++ data)).2 := by
    rw [framing.frames_append]
  rw [handed, handed, handed, hrest, ← append_assoc, framing.frames_append _ more,
    map_append]

theorem Reading.reads {reads : List Bytes} (hr : Reading ic past) (hfits : FitsAll past reads)
    (hwhole : framing.Whole (past ++ reads.flatten ++ later)) :
    ∃ f, pollReads ic reads = ⟨{ ic with framer := f },
        handed ic ((framing.frames past).2 ++ reads.flatten), [], false⟩ ∧
      Reading { ic with framer := f } (past ++ reads.flatten) := by
  induction reads generalizing ic past with
  | nil =>
    refine ⟨ic.framer, ?_, by rw [flatten_nil, append_nil]; exact hr⟩
    rw [pollReads, handed, flatten_nil, append_nil,
      framing.frames_of_none (framing.next_frames past)]
    rfl
  | cons data reads ih =>
    obtain ⟨hfit, hfits⟩ := hfits
    rw [flatten_cons, ← append_assoc] at hwhole
    obtain ⟨f, hread, hr'⟩ := hr.read hfit (by rw [append_assoc _ _ later] at hwhole; exact hwhole)
    obtain ⟨f', hreads, hr''⟩ := ih hr' hfits hwhole
    refine ⟨f', ?_, by rw [flatten_cons, ← append_assoc]; exact hr''⟩
    rw [hread reads, hreads, flatten_cons, handed_append]
    rfl

theorem Reading.refused {reads : List Bytes} (hr : Reading ic past) (hfits : ¬ FitsAll past reads)
    (hwhole : framing.Whole (past ++ reads.flatten ++ later)) :
    (pollReads ic reads).refused = true := by
  induction reads generalizing ic past with
  | nil => exact absurd trivial hfits
  | cons data reads ih =>
    rw [flatten_cons, ← append_assoc] at hwhole
    by_cases hfit : Fits past data
    · obtain ⟨f, hread, hr'⟩ := hr.read hfit
        (by rw [append_assoc _ _ later] at hwhole; exact hwhole)
      rw [hread reads]
      exact ih hr' (fun hrest => hfits ⟨hfit, hrest⟩) hwhole
    · have hlt : norndFramerCap < ic.framer.unread.length + data.length := by
        rw [hr.unread]
        exact not_le.mp hfit
      rw [pollReads, framerPush_of_lt hlt]
      rfl

theorem Reading.pollConn (hr : Reading ic past) (reads : List Bytes) :
    pollConn ic reads = pollReads ic reads := by
  refine if_neg ?_
  rintro (hoff | hnone)
  · exact absurd hr.active (by rw [hoff]; decide)
  · exact hr.stream hnone

theorem Reading.polls {schedule : List (List Bytes)} (hr : Reading ic past)
    (hwhole : framing.Whole (past ++ schedule.flatten.flatten)) :
    ((polls ic [] schedule).refused = false ↔ FitsAll past schedule.flatten) ∧
      (FitsAll past schedule.flatten → (polls ic [] schedule).inputs =
        handed ic ((framing.frames past).2 ++ schedule.flatten.flatten)) := by
  induction schedule generalizing ic past with
  | nil =>
    refine ⟨iff_of_true rfl trivial, fun _ => ?_⟩
    rw [flatten_nil, flatten_nil, append_nil, handed,
      framing.frames_of_none (framing.next_frames past)]
    rfl
  | cons reads schedule ih =>
    rw [flatten_cons, flatten_append, ← append_assoc] at hwhole
    rw [Norn.polls, nil_append, hr.pollConn reads, flatten_cons, fitsAll_append]
    by_cases hfits : FitsAll past reads
    · obtain ⟨f, hreads, hr'⟩ := hr.reads hfits hwhole
      obtain ⟨hrefused, hinputs⟩ := ih hr' hwhole
      rw [hreads]
      refine ⟨hrefused.trans (by rw [and_iff_right hfits]), fun hall => ?_⟩
      rw [flatten_append, handed_append]
      exact congrArg (handed ic ((framing.frames past).2 ++ reads.flatten) ++ ·) (hinputs hall.2)
    · have hrefused := hr.refused hfits hwhole
      refine ⟨iff_of_false ?_ fun hall => hfits hall.1, fun hall => absurd hall.1 hfits⟩
      simp [hrefused]

end

/-- The messages reach the cluster once and in order, and nothing is refused, exactly if every read
fits beside the incomplete frame. -/
theorem polls_lossless_iff (ic : InConn) (hactive : ic.active = true) (hstream : ic.stream ≠ none)
    (hempty : ic.framer = framerReset) (payloads : List Payload) (schedule : List (List Bytes))
    (hsent : schedule.flatten.flatten =
      payloads.flatMap fun p => (frameEncode p.1 norndFramerCap).getD []) :
    ((polls ic [] schedule).refused = false ∧
        (polls ic [] schedule).inputs = payloads.map fun p => (ic.peer, p.1)) ↔
      FitsAll [] schedule.flatten := by
  have hstart : framing.frames [] = ([], []) := framing.frames_of_none framing.next_nil
  have hr : Reading ic [] := ⟨hactive, hstream, by rw [hempty, hstart]; rfl⟩
  have hcode : schedule.flatten.flatten = payloads.flatMap framing.encode := by
    rw [hsent]
    exact congrArg (payloads.flatMap ·) (funext fun p => by rw [frameEncode_of_le p.2]; rfl)
  have hwhole : framing.Whole ([] ++ schedule.flatten.flatten) := framing.whole_iff.mpr ⟨_, hcode⟩
  obtain ⟨hrefused, hinputs⟩ := hr.polls hwhole
  refine ⟨fun h => hrefused.mp h.1, fun h => ⟨hrefused.mpr h, ?_⟩⟩
  rw [hinputs h, hstart, nil_append, hcode, handed, framing.frames_flatMap]

def freshConn : InConn := ⟨true, replicate 32 7, some (0, 0), framerReset⟩

theorem polls_lossless_two_reads :
    (polls freshConn [] [[[0, 0, 0]], [[1, 9]]]).refused = false ∧
      (polls freshConn [] [[[0, 0, 0]], [[1, 9]]]).inputs = [(replicate 32 7, [9])] :=
  (polls_lossless_iff freshConn rfl (by decide) rfl [⟨[9], by decide⟩] [[[0, 0, 0]], [[1, 9]]]
    (by decide)).mpr ⟨by decide, by decide, trivial⟩

def splitReads : List (List Bytes) := [[[0, 0, 32, 0, 0], replicate 8192 0], [[0, 0, 0]]]

def splitPayloads : List Payload :=
  [⟨replicate 8192 0, length_replicate.le⟩, ⟨[], Nat.zero_le _⟩]

theorem flatten_splitReads : splitReads.flatten.flatten = splitPayloads.flatMap framing.encode := by
  have hshift : (0 : UInt8) :: replicate 8192 0 = replicate 8192 0 ++ [0] :=
    (replicate_succ (n := 8192)).symm.trans replicate_succ'
  have hlong : framing.encode ⟨replicate 8192 0, length_replicate.le⟩ =
      [0, 0, 32, 0] ++ replicate 8192 0 := by
    change bigEndian 4 (replicate 8192 0).length ++ replicate 8192 0 = _
    rw [length_replicate]
    rfl
  have hreads : ∀ body : Bytes, [[[0, 0, 32, 0, 0], body], [[0, 0, 0]]].flatten.flatten =
      [0, 0, 32, 0] ++ ((0 :: body) ++ [0, 0, 0]) := fun body => by simp
  have hshort : flatMap framing.encode [⟨[], Nat.zero_le _⟩] = [0] ++ [0, 0, 0] := rfl
  rw [splitReads, hreads, hshift, splitPayloads, flatMap_cons, hlong, hshort, append_assoc,
    append_assoc]

theorem splitReads_refused : (splitReads.flatten.flatten =
        splitPayloads.flatMap fun p => (frameEncode p.1 norndFramerCap).getD []) ∧
      (∀ data ∈ splitReads.flatten, 1 ≤ data.length ∧ data.length ≤ norndFrameMax) ∧
      (polls freshConn [] splitReads).refused = true := by
  have hlen : (replicate 8192 (0 : UInt8)).length = 8192 := length_replicate
  refine ⟨?_, ?_, ?_⟩
  · rw [flatten_splitReads]
    exact congrArg (splitPayloads.flatMap ·) (funext fun p => by rw [frameEncode_of_le p.2]; rfl)
  · intro data hdata
    rcases hdata with _ | ⟨_, _ | ⟨_, _ | ⟨_, hdata⟩⟩⟩
    · decide
    · rw [hlen]
      decide
    · decide
    · cases hdata
  · have hr : Reading freshConn [] := ⟨rfl, by decide, by decide⟩
    have hwhole : framing.Whole ([] ++ splitReads.flatten.flatten) :=
      framing.whole_iff.mpr ⟨_, flatten_splitReads⟩
    have hnot : ¬ FitsAll [] splitReads.flatten := by
      have hflat : splitReads.flatten = [[0, 0, 32, 0, 0], replicate 8192 0, [0, 0, 0]] := rfl
      have hleft : (framing.frames ([] ++ [0, 0, 32, 0, 0])).2.length = 5 := by decide
      have hcap : norndFramerCap = 8196 := rfl
      rw [hflat, FitsAll, FitsAll, Fits, Fits, hleft]
      rintro ⟨_, hfit, _⟩
      omega
    cases hrefused : (polls freshConn [] splitReads).refused with
    | true => rfl
    | false => exact absurd ((hr.polls hwhole).1.mp hrefused) hnot

end Norn
