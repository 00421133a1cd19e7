import Norn.Lib.Bytes
import Norn.Lib.Ring
import Norn.Lib.Run

/-!
# The reliable stream

The byte stream of `stream.c`, over datagrams that may be lost, repeated and reordered. Sequence
numbers, times and the round-trip estimate are 32-bit words; the windows and counters, which stay
small, are natural numbers. A call returns the datagrams it handed to the send callback, in order.
-/

namespace Norn
open UInt32 List Function

def streamSegPayload : ℕ := 1024
def streamHeader : ℕ := 11
def streamSegMax : ℕ := streamHeader + streamSegPayload
def streamWinMax : ℕ := 256
def streamIw : ℕ := 10
def streamSsthreshMin : ℕ := 2
def streamRtoInit : UInt32 := 300
def streamRtoMin : UInt32 := 50
def streamRtoMax : UInt32 := 60000
def streamDupackThresh : ℕ := 3
def streamSackBytes : ℕ := 8
def pendCap : ℕ := streamWinMax * streamSegPayload
def delivCap : ℕ := streamWinMax * streamSegPayload

def fData : UInt8 := 1
def fAck : UInt8 := 2
def fFin : UInt8 := 4
def fSack : UInt8 := 8

structure Seg where
  seq : UInt32
  sentAt : UInt32
  flags : UInt8
  present : Bool
  retx : Bool
  sacked : Bool
  data : Bytes

def Seg.zero : Seg := ⟨0, 0, 0, false, false, false, []⟩

structure Stream where
  sbuf : ℕ → Seg
  sndUna : UInt32
  sndNxt : UInt32
  /-- Zero if no timer is running. -/
  rtoDeadline : UInt32
  finQueued : Bool
  finSegmented : Bool
  srtt : UInt32
  rttvar : UInt32
  rto : UInt32
  dupacks : ℕ
  cwnd : ℕ
  ssthresh : ℕ
  cwndCnt : ℕ
  peerRwnd : ℕ
  pend : Ring UInt8 pendCap
  rbuf : ℕ → Seg
  rcvNxt : UInt32
  peerFin : Bool
  deliv : Ring UInt8 delivCap

def put32 (v : UInt32) : Bytes := bigEndian 4 v.toNat
def get32 (p : Bytes) (o : ℕ) : UInt32 := ofNat (fromBigEndian (slice p o 4))
def put16 (v : ℕ) : Bytes := bigEndian 2 v
def get16 (p : Bytes) (o : ℕ) : ℕ := fromBigEndian (slice p o 2)
def put64 (v : ℕ) : Bytes := bigEndian 8 v
def get64 (p : Bytes) (o : ℕ) : ℕ := fromBigEndian (slice p o 8)

def slot (q : UInt32) : ℕ := q.toNat % streamWinMax

def streamNew : Stream where
  sbuf _ := Seg.zero
  sndUna := 0
  sndNxt := 0
  rtoDeadline := 0
  finQueued := false
  finSegmented := false
  srtt := 0
  rttvar := 0
  rto := streamRtoInit
  dupacks := 0
  cwnd := streamIw
  ssthresh := streamWinMax
  cwndCnt := 0
  peerRwnd := streamWinMax
  pend := Ring.empty 0
  rbuf _ := Seg.zero
  rcvNxt := 0
  peerFin := false
  deliv := Ring.empty 0

namespace Stream
variable (s : Stream)

def inflight : ℕ := (s.sndNxt - s.sndUna).toNat

def rttUpdate (r : UInt32) : Stream :=
  let r₁ := if r = 0 then 1 else r
  let d := if r < s.srtt then s.srtt - r else r - s.srtt
  let srtt := if s.srtt = 0 then r₁ else (7 * s.srtt + r) / 8
  let rttvar := if s.srtt = 0 then r₁ / 2 else (3 * s.rttvar + d) / 4
  let rto := srtt + 4 * rttvar
  let rto := if rto < streamRtoMin then streamRtoMin else rto
  let rto := if streamRtoMax < rto then streamRtoMax else rto
  { s with srtt := srtt, rttvar := rttvar, rto := rto }

def localRwnd : ℕ := min (s.deliv.space / streamSegPayload) streamWinMax

def sackBitmap : ℕ :=
  (range 63).foldl (fun bm i =>
    let q := s.rcvNxt + 1 + ofNat i
    let r := s.rbuf (slot q)
    if r.present ∧ r.seq = q then bm ||| 1 <<< i else bm) 0

def writeSack : Bytes := if s.sackBitmap = 0 then [] else put64 s.sackBitmap

def emitSeg (seg : Seg) : Bytes :=
  (seg.flags ||| fAck) :: (put32 seg.seq ++ (put32 s.rcvNxt ++ (put16 s.localRwnd ++ seg.data)))

def emitAck : Bytes :=
  (if s.writeSack = [] then fAck else fAck ||| fSack) ::
    (put32 s.sndNxt ++ (put32 s.rcvNxt ++ (put16 s.localRwnd ++ s.writeSack)))

def nextSeg (now : UInt32) : Option (Seg × Stream) :=
  if 0 < s.pend.count then
    let take := min s.pend.count streamSegPayload
    some (⟨s.sndNxt, now, fData, true, false, false, s.pend.peek take⟩,
      { s with pend := s.pend.remove take })
  else if s.finQueued then
    some (⟨s.sndNxt, now, fFin, true, false, false, []⟩,
      { s with finQueued := false, finSegmented := true })
  else none

def enqueue (seg : Seg) (now : UInt32) : Stream :=
  { s with
    sbuf := update s.sbuf (slot s.sndNxt) seg
    rtoDeadline := if s.rtoDeadline = 0 then now + s.rto else s.rtoDeadline
    sndNxt := s.sndNxt + 1 }

def sendWindow : ℕ := max 1 (min (min s.cwnd streamWinMax) s.peerRwnd)

def pumpLoop (win : ℕ) (now : UInt32) : ℕ → Stream → Stream × List Bytes
  | 0, s => (s, [])
  | fuel + 1, s =>
    if s.inflight < win then
      match s.nextSeg now with
      | none => (s, [])
      | some (seg, s₁) =>
        let s₂ := s₁.enqueue seg now
        let out := pumpLoop win now fuel s₂
        (out.1, s₂.emitSeg seg :: out.2)
    else (s, [])

/-- Every round puts one more segment in flight, so there are at most `win` rounds. -/
def pumpSend (now : UInt32) : Stream × List Bytes :=
  pumpLoop s.sendWindow now s.sendWindow s

def modifySent (q : UInt32) (f : Seg → Seg) : Stream :=
  { s with sbuf := update s.sbuf (slot q) (f (s.sbuf (slot q))) }

def markRetx (q : UInt32) (now : UInt32) : Stream :=
  s.modifySent q fun seg => { seg with retx := true, sentAt := now }

def retransmitLoop (now limit : UInt32) : ℕ → UInt32 → Stream → Stream × List Bytes
  | 0, _, s => (s, [])
  | n + 1, q, s =>
    if signed (q - limit) < 0 then
      if (s.sbuf (slot q)).sacked then retransmitLoop now limit n (q + 1) s
      else
        let out := retransmitLoop now limit n (q + 1) (s.markRetx q now)
        (out.1, s.emitSeg (s.sbuf (slot q)) :: out.2)
    else (s, [])

def retransmitRange (now limit : UInt32) : Stream × List Bytes :=
  retransmitLoop now limit s.inflight s.sndUna s

def fastLimit : UInt32 :=
  (range s.inflight).foldl (fun limit i =>
    let q := s.sndUna + ofNat i
    if (s.sbuf (slot q)).sacked ∧ 0 < signed (q + 1 - limit) then q + 1 else limit) (s.sndUna + 1)

def fastRetransmit (now : UInt32) : Stream × List Bytes :=
  s.retransmitRange now s.fastLimit

def sackOne (q : UInt32) : Stream :=
  if signed (q - s.sndUna) < 0 ∨ 0 ≤ signed (q - s.sndNxt) then s
  else if (s.sbuf (slot q)).seq = q then s.modifySent q fun seg => { seg with sacked := true }
  else s

def applySack (ack : UInt32) (bm : ℕ) : Stream :=
  (range 63).foldl (fun s i =>
    if bm.testBit i then s.sackOne (ack + 1 + ofNat i) else s) s

def ccGrow : ℕ → ℕ → ℕ → ℕ × ℕ
  | 0, cnt, cwnd => (cnt, cwnd)
  | fuel + 1, cnt, cwnd => if cwnd ≤ cnt then ccGrow fuel (cnt - cwnd) (cwnd + 1) else (cnt, cwnd)

def ccOnAck (acked : ℕ) : Stream :=
  if acked = 0 then s
  else if s.cwnd < s.ssthresh then { s with cwnd := min (s.cwnd + acked) streamWinMax }
  else
    let out := ccGrow (s.cwndCnt + acked) (s.cwndCnt + acked) s.cwnd
    { s with cwndCnt := out.1, cwnd := min out.2 streamWinMax }

def ccOnLoss (isRto : Bool) : Stream :=
  let ssthresh := max (s.cwnd / 2) streamSsthreshMin
  { s with ssthresh := ssthresh, cwnd := if isRto then streamIw else ssthresh, cwndCnt := 0 }

def sampleRtt (ack now : UInt32) : Stream :=
  if (s.sbuf (slot (ack - 1))).seq = ack - 1 ∧ (s.sbuf (slot (ack - 1))).retx = false then
    s.rttUpdate (now - (s.sbuf (slot (ack - 1))).sentAt)
  else s

def newAck (ack now : UInt32) : Stream :=
  let s₁ := (s.sampleRtt ack now).ccOnAck (ack - s.sndUna).toNat
  { s₁ with
    sndUna := ack
    dupacks := 0
    rtoDeadline := if ack = s₁.sndNxt then 0 else now + s₁.rto }

def thirdDup (now : UInt32) : Stream × List Bytes :=
  let out := (s.ccOnLoss false).fastRetransmit now
  ({ out.1 with rtoDeadline := now + out.1.rto }, out.2)

def dupAck (now : UInt32) : Stream × List Bytes :=
  if s.peerRwnd = 0 then ({ s with dupacks := 0 }, [])
  else if s.dupacks + 1 = streamDupackThresh then
    { s with dupacks := s.dupacks + 1 }.thirdDup now
  else ({ s with dupacks := s.dupacks + 1 }, [])

def onAck (ack now : UInt32) : Stream × List Bytes :=
  if 0 < signed (ack - s.sndUna) ∧ signed (ack - s.sndNxt) ≤ 0 then (s.newAck ack now, [])
  else if ack = s.sndUna ∧ s.sndUna ≠ s.sndNxt then s.dupAck now
  else (s, [])

def buffer (flags : UInt8) (seq : UInt32) (payload : Bytes) : Stream :=
  if 0 ≤ signed (seq - s.rcvNxt) ∧ signed (seq - s.rcvNxt) < streamWinMax then
    let r := s.rbuf (slot seq)
    if r.present then s
    else
      let data := payload.take streamSegPayload
      let r₁ := { r with present := true, seq := seq, flags := flags, data := data }
      { s with rbuf := update s.rbuf (slot seq) r₁ }
  else s

def deliverOne : Stream :=
  let r := s.rbuf (slot s.rcvNxt)
  { s with
    deliv := s.deliv.append r.data
    peerFin := s.peerFin || (r.flags &&& fFin) != 0
    rbuf := update s.rbuf (slot s.rcvNxt) { r with present := false }
    rcvNxt := s.rcvNxt + 1 }

/-- The next segment is there and fits the buffer. -/
def Deliverable : Prop :=
  (s.rbuf (slot s.rcvNxt)).present = true ∧ (s.rbuf (slot s.rcvNxt)).seq = s.rcvNxt ∧
    (s.rbuf (slot s.rcvNxt)).data.length ≤ s.deliv.space

instance (s : Stream) : Decidable s.Deliverable := inferInstanceAs (Decidable (_ ∧ _ ∧ _))

def deliverLoop : ℕ → Stream → Stream
  | 0, s => s
  | fuel + 1, s =>
    if s.Deliverable then
      if s.deliverOne.peerFin then s.deliverOne else deliverLoop fuel s.deliverOne
    else s

def deliver : Stream := deliverLoop streamWinMax s

def streamWrite (data : Bytes) (now : UInt32) : ℕ × Stream × List Bytes :=
  (min data.length s.pend.space, { s with pend := s.pend.append data }.pumpSend now)

def takeAck (seg : Bytes) (now : UInt32) : Stream × List Bytes :=
  let s₁ := { s with peerRwnd := get16 seg 9 }
  let s₂ := if seg.getD 0 0 &&& fSack ≠ 0 ∧ streamHeader + streamSackBytes ≤ seg.length then
    s₁.applySack (get32 seg 5) (get64 seg streamHeader) else s₁
  s₂.onAck (get32 seg 5) now

def streamInput (seg : Bytes) (now : UInt32) : Stream × List Bytes :=
  if seg.length < streamHeader then (s, [])
  else
    let out := s.takeAck seg now
    if seg.getD 0 0 &&& (fData ||| fFin) = 0 then out
    else
      let s₁ := (out.1.buffer (seg.getD 0 0) (get32 seg 1) (seg.drop streamHeader)).deliver
      (s₁, out.2 ++ [s₁.emitAck])

def streamRead (cap : ℕ) : Bytes × Stream :=
  let n := min s.deliv.count cap
  (s.deliv.peek n, { s with deliv := s.deliv.remove n })

def Due (now : UInt32) : Prop := s.rtoDeadline ≠ 0 ∧ s.rtoDeadline ≤ now

instance (s : Stream) (now : UInt32) : Decidable (s.Due now) := inferInstanceAs (Decidable (_ ∧ _))

def backOff : Stream :=
  if s.peerRwnd = 0 then s
  else { s with rto := if s.rto < streamRtoMax / 2 then s.rto * 2 else streamRtoMax }.ccOnLoss true

def timeout (now : UInt32) : Stream × List Bytes :=
  let out := s.backOff.retransmitRange now s.sndNxt
  ({ out.1 with rtoDeadline := now + out.1.rto }, out.2)

def streamTick (now : UInt32) : Stream × List Bytes :=
  let out := s.pumpSend now
  if out.1.Due now ∧ out.1.sndUna ≠ out.1.sndNxt then
    ((out.1.timeout now).1, out.2 ++ (out.1.timeout now).2)
  else out

def streamFinish (now : UInt32) : Stream × List Bytes :=
  { s with finQueued := true }.pumpSend now

def streamReadable : ℕ := s.deliv.count

def streamPeerFinished : Bool := s.peerFin && s.deliv.count == 0

def streamSendDone : Bool := s.finSegmented && s.sndUna == s.sndNxt

end Stream

inductive StreamOp
  | write (data : Bytes) (now : UInt32)
  | read (cap : ℕ)
  | finish (now : UInt32)
  | input (seg : Bytes) (now : UInt32)
  | tick (now : UInt32)

inductive StreamOut
  | segment (seg : Bytes)
  | accepted (n : ℕ)
  | returned (bytes : Bytes)

def Stream.apply : Transducer Stream StreamOp StreamOut
  | s, .write data now => ((s.streamWrite data now).2.1,
    (s.streamWrite data now).2.2.map .segment ++ [.accepted (s.streamWrite data now).1])
  | s, .read cap => ((s.streamRead cap).2, [.returned (s.streamRead cap).1])
  | s, .finish now => ((s.streamFinish now).1, (s.streamFinish now).2.map .segment)
  | s, .input seg now => ((s.streamInput seg now).1, (s.streamInput seg now).2.map .segment)
  | s, .tick now => ((s.streamTick now).1, (s.streamTick now).2.map .segment)

def Stream.after (ops : List StreamOp) : Stream := (Stream.apply.exec streamNew ops).1

end Norn
