import Norn.Dht.Mainline
import Norn.Dht.Recstore

/-!
# Looking up an item

The iterative lookup of `norn.c`. The network is an input: the times and the datagrams that arrive.
-/

namespace Norn

def lookMaxCand : ℕ := 64
def lookAlpha : ℕ := 6
def lookK : ℕ := 8
def lookTokenMax : ℕ := 64
def lookBuf : ℕ := 2048

structure LookCand where
  id : Bytes
  ip : ℕ
  port : ℕ
  token : Option Bytes
  queried : Bool
  isPreferred : Bool

def lookPreferred (nodes : List MainlineNode) (id : Bytes) : Bool :=
  (nodes.find? fun n => n.id = id).any MainlineNode.isPreferred

def lookPlace (target : Bytes) (new : LookCand) (cand : List LookCand) : ℕ → ℕ × Bool
  | 0 => (0, true)
  | pos + 1 =>
    match cand[pos]? with
    | none => (pos + 1, true)
    | some c =>
      if lookCloser target new.id c.id < 0 then (pos + 1, true)
      else if lookCloser target new.id c.id = 0 then (pos + 1, new.isPreferred || !c.isPreferred)
      else lookPlace target new cand pos

def lookShift (target : Bytes) (new : LookCand) (cand : List LookCand) : List LookCand :=
  let place := lookPlace target new cand cand.length
  if place.2 then cand.take place.1 ++ new :: cand.drop place.1
  else (cand.take place.1 ++ (cand[place.1]?).toList ++ cand.drop place.1).take cand.length

def lookInsert (nodes : List MainlineNode) (target id : Bytes) (ip port : ℕ)
    (cand : List LookCand) : List LookCand :=
  if ip = 0 ∨ port = 0 then cand
  else if cand.any fun c => c.id = id then cand
  else
    let new : LookCand := ⟨id, ip, port, none, false, lookPreferred nodes id⟩
    if lookMaxCand ≤ cand.length then
      match cand.getLast? with
      | none => lookShift target new cand
      | some far =>
        if 0 ≤ lookCloser target id far.id ∧ ¬ (new.isPreferred ∧ !far.isPreferred) then cand
        else lookShift target new cand.dropLast
    else lookShift target new cand

def lookStart (nodes : List MainlineNode) (target : Bytes) : List LookCand :=
  nodes.foldl (fun cand n => lookInsert nodes target n.id n.ip n.port cand) []

def lookInsertCompact (nodes : List MainlineNode) (target : Bytes) :
    ℕ → Bytes → List LookCand → List LookCand
  | 0, _, cand => cand
  | rounds + 1, blob, cand =>
    if blob.length < 26 then cand
    else
      lookInsertCompact nodes target rounds (blob.drop 26)
        (lookInsert nodes target (blob.take 20) (fromBigEndian (slice blob 20 4))
          (fromBigEndian (slice blob 24 2)) cand)

def lookBuildGetPeers (s : MainlineState) (infoHash tid : Bytes) : Bencode :=
  s.taggedQuery tid (text "get_peers".toList)
    [(text ['i', 'd'], .str s.selfId), (text "info_hash".toList, .str infoHash)]

def lookBuildAnnounce (s : MainlineState) (infoHash : Bytes) (port : ℕ) (token tid : Bytes) :
    Bencode :=
  s.taggedQuery tid (text "announce_peer".toList)
    ([(text ['i', 'd'], .str s.selfId), (text "info_hash".toList, .str infoHash),
      (text "implied_port".toList, .int 1), (text ['p', 'o', 'r', 't'], .int port),
      (text "token".toList, .str token)] ++
      (s.selfPub.map fun pk => (text ['p', 'k'], Bencode.str pk)).toList)

def lookBuildGetMutable (s : MainlineState) (target tid : Bytes) : Bencode :=
  s.taggedQuery tid (text ['g', 'e', 't'])
    [(text ['i', 'd'], .str s.selfId), (text "target".toList, .str target)]

def lookBuildPutMutable (selfId : Bytes) (k : Option Bytes) (seq : ℕ) (sig v salt token tid : Bytes) :
    Bencode :=
  .dict [(text ['t'], .str tid), (text ['y'], .str (text ['q'])),
    (text ['q'], .str (text ['p', 'u', 't'])),
    (text ['a'], .dict ([(text ['i', 'd'], .str selfId)] ++
      (match k with
        | some k =>
          [(text ['k'], Bencode.str k), (text ['s', 'i', 'g'], .str sig)] ++
            (if salt.length = 0 then [] else [(text "salt".toList, .str salt)]) ++
            [(text ['s', 'e', 'q'], .int seq)]
        | none => []) ++
      [(text ['v'], .str v), (text "token".toList, .str token)]))]

structure LookupArgs where
  target : Bytes
  doPut : Bool
  k : Option Bytes
  seq : ℕ
  v : Option Bytes
  sig : Option Bytes
  salt : Bytes
  immutable : Bool
  valueCap : Option ℕ
  timeoutMs : ℤ

structure LookState where
  cand : List LookCand
  accepted : Bool
  value : Bytes
  recs : List RecItem
  sent : List Datagram

structure LookEvent where
  elapsed : ℕ
  arrived : Option Datagram

structure LookRound where
  elapsed : ℕ
  events : List LookEvent

def copyOut (cap : ℕ) (v : Bytes) : Bytes := v.take (if v.length < cap then v.length else cap - 1)

/-- A signed record as a response carries it, with the whole number. -/
structure LookRecord where
  k : Bytes
  sig : Bytes
  seq : ℤ
  v : Bytes

def lookRecord (r : Bencode) : Option LookRecord :=
  match r.getText ['k'], r.getText ['s', 'i', 'g'], r.getInt ['s', 'e', 'q'], r.getText ['v'] with
  | some k, some sig, some seq, some v =>
    if k.length = 32 ∧ sig.length = 64 ∧ 0 < v.length then some ⟨k, sig, seq, v⟩ else none
  | _, _, _, _ => none

def lookResponse (data : Bytes) : Option Bencode :=
  match (Bencode.bencodeDecode (data.take lookBuf) 0).1 with
  | none => none
  | some msg =>
    match msg.getText ['y'] with
    | some y => if y.head? = some (ascii 'r') then msg.getDict ['r'] else none
    | none => none

def noteToken (r : Bencode) (ip port : ℕ) (cand : List LookCand) : List LookCand :=
  match (r.getText "token".toList).filter (·.length ≤ lookTokenMax) with
  | some tok =>
    cand.modify (cand.findIdx fun c => c.ip = ip ∧ c.port = port) fun c => { c with token := some tok }
  | none => cand

section
variable (C : DhtCrypto) (now : ℤ) (s : MainlineState) (args : LookupArgs)

def recordAccepted (p : LookRecord) : Bool :=
  match args.k,
    bep44SignbufSalted args.salt (MainlineState.seqOf p.seq) (p.v.take 1024) (64 + 1024) with
  | some k, some buf => p.k == k && C.verify p.sig buf p.k
  | _, _ => false

def takeImmutable (r : Bencode) (t : LookState) : LookState :=
  match args.valueCap, r.getText ['v'] with
  | some cap, some v =>
    if args.immutable ∧ !t.accepted ∧ 0 < v.length ∧ bep44ImmutableTarget C v = some args.target then
      { t with value := copyOut cap v, accepted := true }
    else t
  | _, _ => t

def takeRecord (r : Bencode) (t : LookState) : LookState :=
  if args.immutable then t
  else
    match lookRecord r with
    | none => t
    | some p =>
      match args.valueCap with
      | some cap =>
        if recordAccepted C args p then { t with value := copyOut cap p.v, accepted := true } else t
      | none =>
        let out := recstoreAccept C now p.k (MainlineState.seqOf p.seq) p.v p.sig t.recs
        { t with recs := out.2, accepted := t.accepted || out.1 }

def lookHandle (d : Datagram) (t : LookState) : LookState :=
  match lookResponse d.data with
  | none => t
  | some r =>
    let t := { t with cand := noteToken r d.ip d.port t.cand }
    let t := takeRecord C now args r (takeImmutable C args r t)
    match r.getText ['n', 'o', 'd', 'e', 's'] with
    | some blob =>
      { t with cand := lookInsertCompact s.nodes args.target blob.length blob t.cand }
    | none => t

def lookReceive : List LookEvent → LookState → LookState
  | [], t => t
  | e :: events, t =>
    if args.timeoutMs - e.elapsed ≤ 0 then t
    else
      match e.arrived with
      | none => t
      | some d => if d.data.length = 0 then t else lookReceive events (lookHandle C now s args d t)

def lookQuery : ℕ → List LookCand → List LookCand × List Datagram
  | 0, cand => (cand, [])
  | _ + 1, [] => ([], [])
  | budget + 1, c :: cand =>
    if c.queried then
      let out := lookQuery (budget + 1) cand
      (c :: out.1, out.2)
    else
      let out := lookQuery budget cand
      ({ c with queried := true } :: out.1,
        ⟨(lookBuildGetMutable s args.target (text ['m', 'g'])).encode, c.ip, c.port⟩ :: out.2)

def lookRounds : List LookRound → LookState → LookState
  | [], t => t
  | round :: rounds, t =>
    if args.timeoutMs ≤ round.elapsed then t
    else
      let out := lookQuery s args lookAlpha t.cand
      if out.2 = [] then t
      else
        lookRounds rounds (lookReceive C now s args round.events
          { t with cand := out.1, sent := t.sent ++ out.2 })

def lookPuts (k v sig : Bytes) : ℕ → List LookCand → List Datagram
  | 0, _ => []
  | _ + 1, [] => []
  | budget + 1, c :: cand =>
    match c.token with
    | none => lookPuts k v sig (budget + 1) cand
    | some token =>
      ⟨(lookBuildPutMutable s.selfId (some k) args.seq sig v args.salt token (text ['m', 'p'])).encode,
        c.ip, c.port⟩ :: lookPuts k v sig budget cand

def lookPutPhase (cand : List LookCand) : List Datagram :=
  match args.k, args.v, args.sig with
  | some k, some v, some sig => if args.doPut then lookPuts s args k v sig lookK cand else []
  | _, _, _ => []

def mainlineLookupMutable (rounds : List LookRound) (recs : List RecItem) : ℕ × LookState :=
  let start : LookState := ⟨lookStart s.nodes args.target, false, [], recs, []⟩
  if start.cand = [] then (0, start)
  else
    let t := lookRounds C now s args rounds start
    let puts := lookPutPhase s args t.cand
    (if args.doPut then puts.length else if t.accepted then 1 else 0,
      { t with sent := t.sent ++ puts })

end

section
variable (C : DhtCrypto)

def lookupTarget (pubkey salt : Bytes) : Bytes :=
  if salt.length = 0 then bep44TargetForPubkey C pubkey else bep44TargetSalted C pubkey salt

def nornPutMutableSalt (pubkey secret value : Bytes) (seq : ℕ) (salt : Bytes) : Option LookupArgs :=
  if 1000 < value.length then none
  else
    match bep44Signbuf seq value 2048 with
    | none => none
    | some signbuf =>
      some ⟨lookupTarget C pubkey salt, true, some pubkey, seq, some value,
        some (C.sign secret signbuf), salt, false, none, 0⟩

def nornPutMutable (pubkey secret value : Bytes) (seq : ℕ) : Option LookupArgs :=
  nornPutMutableSalt C pubkey secret value seq []

def nornGetMutableSalt (pubkey salt : Bytes) : LookupArgs :=
  ⟨lookupTarget C pubkey salt, false, none, 0, none, none, salt, false, none, 0⟩

def nornPutImmutable (value : Bytes) : Option LookupArgs :=
  if 1000 < value.length then none
  else
    (bep44ImmutableTarget C value).map fun target =>
      ⟨target, true, none, 0, some value, none, [], true, none, 0⟩

def nornDhtGetMutable (target pubkey salt : Bytes) (vcap : ℕ) (timeoutMs : ℤ) : LookupArgs :=
  ⟨target, false, some pubkey, 0, none, none, salt, false, some vcap, timeoutMs⟩

end
end Norn
