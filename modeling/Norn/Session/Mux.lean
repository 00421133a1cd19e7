import Norn.Lib.Table
import Norn.Stream.Core

/-!
# Streams over one channel

The multiplexer of `streammux.c`. A slot is never given back.
-/

namespace Norn
open List Option

def streammuxMax : ℕ := 16
def streammuxFrame : ℕ := 2

abbrev Mux := Table UInt16 Stream streammuxMax

def frame (sid : UInt16) (seg : Bytes) : Bytes := put16 sid.toNat ++ seg

def sidOf (seg : Bytes) : UInt16 := UInt16.ofNat (get16 seg 0)

def lstreamSend (sid : UInt16) (segs : List Bytes) : List Bytes :=
  (segs.filter fun seg => seg.length ≤ streamSegMax).map (frame sid)

def streammuxNew : Mux := Table.empty

namespace Mux
variable (m : Mux)

def drive (sid : UInt16) (f : Stream → Stream × List Bytes) : Mux × List Bytes :=
  (m.modify sid fun st => (f st).1, (m.get? sid).elim [] fun st => lstreamSend sid (f st).2)

def openStream (sid : UInt16) : Option Mux := m.ensure sid streamNew

def streammuxWrite (sid : UInt16) (data : Bytes) (now : UInt32) : Option (ℕ × Mux × List Bytes) :=
  (m.openStream sid).map fun m =>
    ((m.get? sid).elim 0 fun st => (st.streamWrite data now).1,
      m.drive sid fun st => (st.streamWrite data now).2)

def streammuxRead (sid : UInt16) (cap : ℕ) : Bytes × Mux :=
  ((m.get? sid).elim [] fun st => (st.streamRead cap).1, m.modify sid fun st => (st.streamRead cap).2)

def streammuxInput (seg : Bytes) (now : UInt32) : Mux × List Bytes :=
  if seg.length < streammuxFrame then (m, [])
  else (m.openStream (sidOf seg)).elim (m, []) fun m =>
    m.drive (sidOf seg) fun st => st.streamInput (seg.drop streammuxFrame) now

def streammuxTick (now : UInt32) : Mux × List Bytes :=
  (m.map fun st => (st.streamTick now).1,
    m.entries.flatMap fun e => lstreamSend e.1 (e.2.streamTick now).2)

def streammuxFinish (sid : UInt16) (now : UInt32) : Mux × List Bytes :=
  (m.openStream sid).elim (m, []) fun m => m.drive sid fun st => st.streamFinish now

def streammuxReadable (sid : UInt16) : ℕ := (m.get? sid).elim 0 Stream.streamReadable

def streammuxPeerFinished (sid : UInt16) : Bool :=
  (m.get? sid).elim true Stream.streamPeerFinished

end Mux

theorem sidOf_frame (sid : UInt16) (seg : Bytes) : sidOf (frame sid seg) = sid := by
  have hread : get16 (frame sid seg) 0 = sid.toNat :=
    fromBigEndian_slice [] seg (by simpa using sid.toNat_lt)
  rw [sidOf, hread, UInt16.ofNat_toNat]

theorem drop_frame (sid : UInt16) (seg : Bytes) : (frame sid seg).drop streammuxFrame = seg := by
  rw [frame, drop_append_of_le_length (by simp [put16, streammuxFrame]),
    drop_of_length_le (by simp [put16, streammuxFrame]), nil_append]

variable {sid' : UInt16} {seg : Bytes}

theorem frame_inj {sid : UInt16} {seg' : Bytes} (h : frame sid seg = frame sid' seg') :
    sid = sid' ∧ seg = seg' := by
  constructor
  · rw [← sidOf_frame sid seg, h, sidOf_frame]
  · rw [← drop_frame sid seg, h, drop_frame]

theorem frame_mem_lstreamSend {sid : UInt16} {segs : List Bytes} :
    frame sid seg ∈ lstreamSend sid' segs ↔
      sid = sid' ∧ seg ∈ segs ∧ seg.length ≤ streamSegMax := by
  simp only [lstreamSend, List.mem_map, List.mem_filter, decide_eq_true_eq]
  constructor
  · rintro ⟨seg', hseg', heq⟩
    obtain ⟨rfl, rfl⟩ := frame_inj heq
    exact ⟨rfl, hseg'⟩
  · rintro ⟨rfl, hseg⟩
    exact ⟨seg, hseg, rfl⟩

namespace Mux
variable {m m' : Mux} {sid : UInt16} {st : Stream}

theorem frame_mem_drive {f : Stream → Stream × List Bytes} (h : m.get? sid = some st) :
    frame sid seg ∈ (m.drive sid' f).2 ↔
      sid = sid' ∧ seg ∈ (f st).2 ∧ seg.length ≤ streamSegMax := by
  simp only [drive]
  constructor
  · intro hmem
    cases hget : m.get? sid' with
    | none => rw [hget] at hmem; cases hmem
    | some st' =>
      rw [hget, elim_some, frame_mem_lstreamSend] at hmem
      obtain ⟨rfl, hmem⟩ := hmem
      cases h.symm.trans hget
      exact ⟨rfl, hmem⟩
  · rintro ⟨rfl, hmem⟩
    rw [h, elim_some, frame_mem_lstreamSend]
    exact ⟨rfl, hmem⟩

theorem get?_drive (sid' : UInt16) (f : Stream → Stream × List Bytes) (h : m.get? sid = some st) :
    (m.drive sid' f).1.get? sid = some (if sid = sid' then (f st).1 else st) := by
  rw [drive, Table.get?_modify, h]
  split_ifs <;> rfl

theorem frame_mem_tick {now : UInt32} (h : m.get? sid = some st) :
    frame sid seg ∈ (m.streammuxTick now).2 ↔
      seg ∈ (st.streamTick now).2 ∧ seg.length ≤ streamSegMax := by
  simp only [streammuxTick, mem_flatMap]
  constructor
  · rintro ⟨⟨sid', st'⟩, he, hmem⟩
    obtain ⟨rfl, hmem⟩ := frame_mem_lstreamSend.mp hmem
    cases h.symm.trans (Table.get?_eq_some.mpr he)
    exact hmem
  · intro hmem
    exact ⟨(sid, st), Table.get?_eq_some.mp h, frame_mem_lstreamSend.mpr ⟨rfl, hmem⟩⟩

theorem get?_tick (now : UInt32) (h : m.get? sid = some st) :
    (m.streammuxTick now).1.get? sid = some (st.streamTick now).1 := by
  rw [streammuxTick, Table.get?_map, h, map_some]

variable {body : Bytes}

theorem get?_input (h : m.get? sid = some st) (hlen : streammuxFrame ≤ body.length) :
    (m.streammuxInput body 0).1.get? sid =
      some (if sid = sidOf body then (st.streamInput (body.drop streammuxFrame) 0).1 else st) := by
  rw [streammuxInput, if_neg (by omega)]
  cases hopen : m.openStream (sidOf body) with
  | none =>
    rw [elim_none, if_neg, h]
    rintro rfl
    cases hopen.symm.trans (Table.ensure_of_get? h _)
  | some m' => exact get?_drive _ _ (Table.get?_of_ensure hopen h)

theorem frame_mem_input (h : m.get? sid = some st) (hlen : streammuxFrame ≤ body.length) :
    frame sid seg ∈ (m.streammuxInput body 0).2 ↔
      sid = sidOf body ∧ seg ∈ (st.streamInput (body.drop streammuxFrame) 0).2 ∧
        seg.length ≤ streamSegMax := by
  rw [streammuxInput, if_neg (by omega)]
  cases hopen : m.openStream (sidOf body) with
  | none =>
    have hne : sid ≠ sidOf body := by
      rintro rfl
      cases hopen.symm.trans (Table.ensure_of_get? h _)
    simp [hne]
  | some m' => exact frame_mem_drive (Table.get?_of_ensure hopen h)

end Mux
end Norn
