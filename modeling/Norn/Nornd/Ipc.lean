import Norn.Dht.BencodeRoundTrip
import Norn.Kv.Dispatch

/-!
# Requests on the daemon's socket

A request is a frame with a dictionary in bencode (`nornd/ipc.c`). A client that is ready is served
with one call of `recv` (`nornd/main.c`).
-/

namespace Norn
open List

def norndIpcMaxOp : ℕ := 24
def norndIpcMaxKey : ℕ := 256
def norndIpcIdBytes : ℕ := 32
def norndIpcMaxItem : ℕ := 256
def norndIpcMaxBody : ℕ := 65536

/-- The operation is a C string; a key that is missing is empty. -/
structure NorndIpcReq where
  op : Bytes
  key : Bytes
  val : Option Bytes
  expect : Option Bytes
  id : Option Bytes
  seq : Option ℤ
  deriving DecidableEq

structure NorndIpcResp where
  ok : Bool
  val : Option Bytes
  err : Option Bytes
  items : List Bytes

def norndIpcFrameLen (buf : Bytes) : Option ℕ :=
  if buf.length < 4 then none else some (fromBigEndian (buf.take 4))

def ipcFrame (d : Bencode) (cap : ℕ) : Option Bytes :=
  if norndIpcMaxBody < d.encode.length ∨ cap < 4 + d.encode.length then none
  else some (bigEndian 4 d.encode.length ++ d.encode)

def strField (key : List Char) (v : Option Bytes) : List (Bytes × Bencode) :=
  (v.map fun s => (text key, Bencode.str s)).toList

def norndIpcEncodeReq (r : NorndIpcReq) (cap : ℕ) : Option Bytes :=
  if r.op = [] ∨ norndIpcMaxKey < r.key.length ∨ norndIpcMaxVal < (r.val.getD []).length ∨
      norndIpcMaxVal < (r.expect.getD []).length then none
  else
    ipcFrame (.dict ([(text ['o', 'p'], .str r.op)] ++
      (if r.key.length = 0 then [] else [(text ['k', 'e', 'y'], .str r.key)]) ++
      strField ['v', 'a', 'l'] r.val ++ strField ['e', 'x', 'p', 'e', 'c', 't'] r.expect ++
      strField ['i', 'd'] r.id ++
      (r.seq.map fun seq => (text ['s', 'e', 'q'], Bencode.int seq)).toList)) cap

def norndIpcEncodeResp (r : NorndIpcResp) (cap : ℕ) : Option Bytes :=
  if norndIpcMaxVal < (r.val.getD []).length ∨ norndIpcMaxItems < r.items.length then none
  else
    ipcFrame (.dict ([(text ['o', 'k'], .int (if r.ok then 1 else 0))] ++
      strField ['v', 'a', 'l'] r.val ++ strField ['e', 'r', 'r'] r.err ++
      (if r.items.length = 0 then []
        else [(text ['i', 't', 'e', 'm', 's'], .list (r.items.map .str))]))) cap

def decodeBody (buf : Bytes) : Option (Bencode × ℕ) :=
  match norndIpcFrameLen buf with
  | none => none
  | some body =>
    if norndIpcMaxBody < body ∨ buf.length < 4 + body then none
    else
      match (Bencode.bencodeDecode (slice buf 4 body) 0).1 with
      | some (.dict entries) => some (.dict entries, 4 + body)
      | _ => none

def getStr (d : Bencode) (key : List Char) (cap : ℕ) : Option (Option Bytes) :=
  match d.dictGet (text key) with
  | none => some none
  | some (.str s) => if cap < s.length then none else some (some s)
  | some _ => none

def getOp (d : Bencode) : Option Bytes :=
  match d.dictGet (text ['o', 'p']) with
  | some (.str s) => if s.length = 0 ∨ norndIpcMaxOp ≤ s.length then none else some (cString s)
  | _ => none

def getId (d : Bencode) : Option (Option Bytes) :=
  match d.dictGet (text ['i', 'd']) with
  | none => some none
  | some (.str s) => if s.length ≠ norndIpcIdBytes then none else some (some s)
  | some _ => none

def getSeq (d : Bencode) : Option (Option ℤ) :=
  match d.dictGet (text ['s', 'e', 'q']) with
  | none => some none
  | some (.int v) => some (some v)
  | some _ => none

def decodeFields (d : Bencode) : Option NorndIpcReq := do
  let op ← getOp d
  let key ← getStr d ['k', 'e', 'y'] norndIpcMaxKey
  let val ← getStr d ['v', 'a', 'l'] norndIpcMaxVal
  let expect ← getStr d ['e', 'x', 'p', 'e', 'c', 't'] norndIpcMaxVal
  let id ← getId d
  let seq ← getSeq d
  return ⟨op, key.getD [], val, expect, id, seq⟩

def norndIpcDecodeReq (buf : Bytes) : Option (NorndIpcReq × ℕ) :=
  match decodeBody buf with
  | none => none
  | some (d, used) => (decodeFields d).map fun r => (r, used)

/-- What the daemon does with a request in its state `σ`. Its answers fit in a frame. -/
structure IpcHandler (σ : Type*) where
  handle : σ → NorndIpcReq → NorndIpcResp × σ
  encodes : ∀ s r, (norndIpcEncodeResp (handle s r).1 (norndIpcMaxBody + 4)).isSome

/-- A client that is ready: the bytes that `recv` returns, and whether `send` takes the whole
answer. -/
structure IpcTick where
  recv : Bytes
  whole : Bool

structure IpcConn (σ : Type*) where
  state : σ
  isOpen : Bool
  sent : List Bytes
  unread : Bytes

section
variable {σ : Type*} (h : IpcHandler σ)

def serveClient (c : IpcConn σ) (t : IpcTick) : IpcConn σ :=
  if t.recv.length = 0 then { c with isOpen := false }
  else
    match norndIpcDecodeReq t.recv with
    | none => { c with isOpen := false }
    | some (req, consumed) =>
      match norndIpcEncodeResp (h.handle c.state req).1 (norndIpcMaxBody + 4) with
      | none => { c with state := (h.handle c.state req).2, isOpen := false }
      | some out =>
        if t.whole then
          { c with
            state := (h.handle c.state req).2
            sent := c.sent ++ [out]
            unread := c.unread ++ t.recv.drop consumed }
        else { c with state := (h.handle c.state req).2, isOpen := false }

def serveTicks (c : IpcConn σ) : List IpcTick → IpcConn σ
  | [] => c
  | t :: ts => if c.isOpen then serveTicks (serveClient h c t) ts else c

def IpcConn.fresh (s : σ) : IpcConn σ := ⟨s, true, [], []⟩

namespace IpcHandler

def answer (s : σ) (r : NorndIpcReq) : Bytes :=
  (norndIpcEncodeResp (h.handle s r).1 (norndIpcMaxBody + 4)).getD []

def answers (s : σ) : List NorndIpcReq → List Bytes
  | [] => []
  | r :: rs => h.answer s r :: answers (h.handle s r).2 rs

theorem encodeResp_eq (s : σ) (r : NorndIpcReq) :
    norndIpcEncodeResp (h.handle s r).1 (norndIpcMaxBody + 4) = some (h.answer s r) := by
  obtain ⟨out, hout⟩ := Option.isSome_iff_exists.mp (h.encodes s r)
  rw [answer, hout]
  rfl

end IpcHandler
end

variable {buf : Bytes} {used : ℕ} {r : NorndIpcReq}

theorem decodeBody_eq_some {d : Bencode} (h : decodeBody buf = some (d, used)) :
    (4 ≤ buf.length ∧ used = 4 + fromBigEndian (buf.take 4)) ∧ used ≤ buf.length := by
  unfold decodeBody norndIpcFrameLen at h
  by_cases hlen : buf.length < 4
  · rw [if_pos hlen] at h
    cases h
  · rw [if_neg hlen] at h
    dsimp only at h
    split_ifs at h with hfits
    split at h
    · obtain ⟨-, rfl⟩ := Prod.mk.inj (Option.some.inj h)
      omega
    · cases h

theorem norndIpcDecodeReq_eq_some (h : norndIpcDecodeReq buf = some (r, used)) :
    (4 ≤ buf.length ∧ used = 4 + fromBigEndian (buf.take 4)) ∧ used ≤ buf.length := by
  unfold norndIpcDecodeReq at h
  cases hbody : decodeBody buf with
  | none =>
    rw [hbody] at h
    cases h
  | some out =>
    obtain ⟨d, n⟩ := out
    rw [hbody] at h
    obtain ⟨r', -, heq⟩ := Option.map_eq_some_iff.mp h
    obtain ⟨-, rfl⟩ := Prod.mk.inj heq
    exact decodeBody_eq_some hbody

structure ReqFrame where
  bytes : Bytes
  req : NorndIpcReq
  decodes : norndIpcDecodeReq bytes = some (req, bytes.length)

theorem ReqFrame.length_pos (f : ReqFrame) : 0 < f.bytes.length :=
  lt_of_lt_of_le (by decide) (norndIpcDecodeReq_eq_some f.decodes).1.1

theorem ReqFrame.bytes_eq {f : ReqFrame} {b rest rest' : Bytes}
    (hb : norndIpcDecodeReq b = some (r, b.length)) (h : b ++ rest = f.bytes ++ rest') :
    b = f.bytes ∧ rest = rest' := by
  obtain ⟨⟨hfour, hlen⟩, -⟩ := norndIpcDecodeReq_eq_some hb
  obtain ⟨⟨hfour', hlen'⟩, -⟩ := norndIpcDecodeReq_eq_some f.decodes
  have hhead : b.take 4 = f.bytes.take 4 := by
    rw [← take_append_of_le_length hfour, h, take_append_of_le_length hfour']
  apply append_inj h
  rw [hlen, hlen', hhead]

namespace IpcConn
variable {σ : Type*} {h : IpcHandler σ}

/-- Open, with everything looked at and the requests answered in order. -/
structure Answered (h : IpcHandler σ) (before : IpcConn σ) (reqs : List NorndIpcReq)
    (c : IpcConn σ) : Prop where
  isOpen : c.isOpen = true
  unread : c.unread = []
  sent : c.sent = before.sent ++ h.answers before.state reqs

theorem serveClient_cases (h : IpcHandler σ) (c : IpcConn σ) (t : IpcTick) :
    (∃ s, serveClient h c t = { c with state := s, isOpen := false }) ∨
    t.whole = true ∧ ∃ r n, norndIpcDecodeReq t.recv = some (r, n) ∧
      serveClient h c t =
        { c with
          state := (h.handle c.state r).2
          sent := c.sent ++ [h.answer c.state r]
          unread := c.unread ++ t.recv.drop n } := by
  unfold serveClient
  by_cases hlen : t.recv.length = 0
  · rw [if_pos hlen]
    exact .inl ⟨c.state, rfl⟩
  rw [if_neg hlen]
  cases hdec : norndIpcDecodeReq t.recv with
  | none => exact .inl ⟨c.state, rfl⟩
  | some out =>
    obtain ⟨r, n⟩ := out
    dsimp only
    rw [h.encodeResp_eq]
    cases hwhole : t.whole with
    | false => exact .inl ⟨_, rfl⟩
    | true => exact .inr ⟨rfl, r, n, rfl, rfl⟩

theorem serveClient_frame (c : IpcConn σ) (f : ReqFrame) :
    serveClient h c ⟨f.bytes, true⟩ =
      { c with
        state := (h.handle c.state f.req).2
        sent := c.sent ++ [h.answer c.state f.req] } := by
  have hpos := f.length_pos
  unfold serveClient
  dsimp only
  rw [if_neg (by omega), f.decodes]
  dsimp only
  rw [h.encodeResp_eq, drop_length, append_nil]
  rfl

variable {c : IpcConn σ} {ts : List IpcTick} {fs : List ReqFrame}

theorem serveTicks_of_closed (hc : c.isOpen = false) (ts : List IpcTick) : serveTicks h c ts = c := by
  cases ts with
  | nil => rfl
  | cons t ts =>
    rw [serveTicks, hc]
    rfl

theorem unread_prefix_serveTicks (c : IpcConn σ) (ts : List IpcTick) :
    c.unread <+: (serveTicks h c ts).unread := by
  induction ts generalizing c with
  | nil => exact prefix_rfl
  | cons t ts ih =>
    rw [serveTicks]
    split_ifs with hopen
    · refine .trans ?_ (ih _)
      rcases serveClient_cases h c t with ⟨s, hs⟩ | ⟨-, r, n, -, hs⟩
      · rw [hs]
      · rw [hs]
        exact prefix_append _ _
    · exact prefix_rfl

theorem answered_cons_iff (c : IpcConn σ) (f : ReqFrame) (reqs : List NorndIpcReq) (c' : IpcConn σ) :
    Answered h (serveClient h c ⟨f.bytes, true⟩) reqs c' ↔ Answered h c (f.req :: reqs) c' := by
  have hsent : (serveClient h c ⟨f.bytes, true⟩).sent ++
      h.answers (serveClient h c ⟨f.bytes, true⟩).state reqs =
      c.sent ++ h.answers c.state (f.req :: reqs) := by
    rw [serveClient_frame, IpcHandler.answers, append_assoc]
    rfl
  constructor
  · rintro ⟨hopen, hunread, hs⟩
    exact ⟨hopen, hunread, hs.trans hsent⟩
  · rintro ⟨hopen, hunread, hs⟩
    exact ⟨hopen, hunread, hs.trans hsent.symm⟩

theorem recv_eq_of_answered {t : IpcTick} {reqs : List NorndIpcReq} (hopen : c.isOpen = true)
    (hstream : t.recv ++ (ts.map IpcTick.recv).flatten = (fs.map ReqFrame.bytes).flatten)
    (ha : Answered h c reqs (serveTicks h c (t :: ts))) :
    ∃ f fs', fs = f :: fs' ∧ t = ⟨f.bytes, true⟩ ∧
      (ts.map IpcTick.recv).flatten = (fs'.map ReqFrame.bytes).flatten := by
  rw [serveTicks, if_pos hopen] at ha
  -- what the call left unread would still be there at the end
  have hnil : (serveClient h c t).unread = [] :=
    prefix_nil.mp (ha.unread ▸ unread_prefix_serveTicks _ ts)
  rcases serveClient_cases h c t with ⟨s, hs⟩ | ⟨hwhole, r, n, hdec, hs⟩
  · have hfinal := ha.isOpen
    rw [hs, serveTicks_of_closed rfl] at hfinal
    cases hfinal
  rw [hs] at hnil
  obtain ⟨⟨hfour, -⟩, hle⟩ := norndIpcDecodeReq_eq_some hdec
  have hall : n = t.recv.length :=
    le_antisymm hle (drop_eq_nil_iff.mp (append_eq_nil_iff.mp hnil).2)
  subst hall
  cases fs with
  | nil =>
    have hlen := congrArg length hstream
    rw [length_append] at hlen
    simp only [map_nil, flatten_nil, length_nil] at hlen
    omega
  | cons f fs' =>
    rw [map_cons, flatten_cons] at hstream
    obtain ⟨hrecv, hrest⟩ := ReqFrame.bytes_eq hdec hstream
    refine ⟨f, fs', rfl, ?_, hrest⟩
    rw [← hrecv, ← hwhole]

theorem answered_serveTicks_iff (hopen : c.isOpen = true) (hread : c.unread = [])
    (hstream : (ts.map IpcTick.recv).flatten = (fs.map ReqFrame.bytes).flatten) :
    Answered h c (fs.map ReqFrame.req) (serveTicks h c ts) ↔
      ts = fs.map fun f => ⟨f.bytes, true⟩ := by
  induction ts generalizing fs c with
  | nil =>
    cases fs with
    | nil => exact ⟨fun _ => rfl, fun _ => ⟨hopen, hread, (append_nil _).symm⟩⟩
    | cons f fs =>
      have hlen := congrArg length hstream
      have hpos := f.length_pos
      rw [map_cons, flatten_cons, length_append] at hlen
      simp only [map_nil, flatten_nil, length_nil] at hlen
      omega
  | cons t ts ih =>
    rw [map_cons, flatten_cons] at hstream
    constructor
    · intro ha
      obtain ⟨f, fs, rfl, rfl, hrest⟩ := recv_eq_of_answered hopen hstream ha
      rw [serveTicks, if_pos hopen, map_cons, ← answered_cons_iff] at ha
      have hframe := serveClient_frame (h := h) c f
      rw [ih (by rw [hframe]; exact hopen) (by rw [hframe, hread]) hrest] at ha
      rw [ha, map_cons]
    · intro hts
      cases fs with
      | nil => cases hts
      | cons f fs =>
        obtain ⟨rfl, rfl⟩ := cons.inj hts
        have hframe := serveClient_frame (h := h) c f
        have hrest := append_cancel_left (hstream.trans (flatten_cons ..))
        rw [serveTicks, if_pos hopen, map_cons, ← answered_cons_iff]
        exact (ih (by rw [hframe]; exact hopen) (by rw [hframe, hread]) hrest).mpr rfl

/-- Every request is answered and nothing thrown away exactly if every `recv` returns one frame and
every answer is taken whole. -/
theorem answered_iff (h : IpcHandler σ) (s : σ) {ts : List IpcTick} (fs : List ReqFrame)
    (hstream : (ts.map IpcTick.recv).flatten = (fs.map ReqFrame.bytes).flatten) :
    Answered h (fresh s) (fs.map ReqFrame.req) (serveTicks h (fresh s) ts) ↔
      ts.map IpcTick.recv = fs.map ReqFrame.bytes ∧ ∀ t ∈ ts, t.whole = true := by
  rw [answered_serveTicks_iff rfl rfl hstream]
  constructor
  · rintro rfl
    rw [map_map]
    refine ⟨rfl, ?_⟩
    intro t ht
    obtain ⟨f, -, rfl⟩ := mem_map.mp ht
    rfl
  · rintro ⟨hrecv, hwhole⟩
    calc ts = ts.map fun t => ⟨t.recv, true⟩ := by
          refine (map_id ts).symm.trans (map_congr_left fun t ht => ?_)
          rw [← hwhole t ht]
          rfl
      _ = (ts.map IpcTick.recv).map fun b => ⟨b, true⟩ := by
          rw [map_map]
          rfl
      _ = fs.map fun f => ⟨f.bytes, true⟩ := by
          rw [hrecv, map_map]
          rfl

def pingHandler : IpcHandler Unit where
  handle _ r :=
    if r.op = text ['p', 'i', 'n', 'g'] then
      (⟨true, some (text ['p', 'o', 'n', 'g']), none, []⟩, ())
    else (⟨false, none, some (text "unknown op".toList), []⟩, ())
  encodes s r := by
    split_ifs
    · decide +kernel
    · decide +kernel

def pingFrame : ReqFrame where
  bytes := [0, 0, 0, 12] ++ text "d2:op4:pinge".toList
  req := ⟨text ['p', 'i', 'n', 'g'], [], none, none, none, none⟩
  decodes := by decide +kernel

theorem pings_answered :
    Answered pingHandler (fresh ()) [pingFrame.req, pingFrame.req]
      (serveTicks pingHandler (fresh ())
        [⟨pingFrame.bytes, true⟩, ⟨pingFrame.bytes, true⟩]) := by
  refine (answered_iff pingHandler () [pingFrame, pingFrame] rfl).mpr ⟨rfl, ?_⟩
  exact forall_mem_cons.mpr ⟨rfl, forall_mem_singleton.mpr rfl⟩

theorem pings_not_answered :
    (¬ Answered pingHandler (fresh ()) [pingFrame.req, pingFrame.req]
      (serveTicks pingHandler (fresh ()) [⟨pingFrame.bytes ++ pingFrame.bytes, true⟩]) ∧
      (serveTicks pingHandler (fresh ())
        [⟨pingFrame.bytes ++ pingFrame.bytes, true⟩]).sent.length = 1) ∧
    (serveTicks pingHandler (fresh ())
      [⟨pingFrame.bytes.take 5, true⟩, ⟨pingFrame.bytes.drop 5, true⟩]).isOpen = false := by
  have hone : (serveTicks pingHandler (fresh ())
      [⟨pingFrame.bytes ++ pingFrame.bytes, true⟩]).sent.length = 1 := by
    decide +kernel
  refine ⟨⟨?_, hone⟩, by decide +kernel⟩
  rintro ⟨-, -, hsent⟩
  have htwo := congrArg length hsent
  rw [hone] at htwo
  exact absurd htwo (by decide +kernel)

end IpcConn
end Norn
