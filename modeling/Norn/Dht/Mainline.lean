import Norn.Dht.Routing
import Norn.Dht.Store

/-!
# A node of the DHT

The state of a mainline node and what it does with a packet (`norn.c`).
-/

namespace Norn

def mainlineMaxTransactions : ℕ := 256
def mainlineTransactionTimeout : ℤ := 30
def mainlineServeHashes : ℕ := 64
def mainlineServePeers : ℕ := 16
def tokenEpoch : ℤ := 300

structure MainlineTransaction where
  id : ℕ
  created : ℤ
  target : Bytes
  deriving DecidableEq

structure ServedHash where
  infoHash : Bytes
  peers : List (ℕ × ℕ)
  pubkey : Option Bytes

structure Datagram where
  data : Bytes
  ip : ℕ
  port : ℕ
  deriving DecidableEq

/-- `token` is the keyed hash of an address and an epoch, `external` the endpoint that the network
layer believes to have. -/
structure MainlineState where
  selfId : Bytes
  selfPub : Option Bytes
  selfAccount : Option Bytes
  selfVersion : Option Bytes
  selfPv : Bytes
  selfApp : Bytes
  readOnly : Bool
  nodes : List MainlineNode
  transactions : List MainlineTransaction
  nextTransactionId : ℕ
  served : List ServedHash
  token : ℕ → ℤ → Bytes
  external : Option (ℕ × ℕ)
  store : DhtStore
  sent : List Datagram
  observed : List (ℕ × ℕ)

namespace Bencode
variable (d : Bencode)

def getText (key : List Char) : Option Bytes :=
  match d.dictGet (text key) with
  | some (.str s) => some s
  | _ => none

def getInt (key : List Char) : Option ℤ :=
  match d.dictGet (text key) with
  | some (.int v) => some v
  | _ => none

def getDict (key : List Char) : Option Bencode :=
  match d.dictGet (text key) with
  | some (.dict entries) => some (.dict entries)
  | _ => none

def getTag (key : List Char) (size : ℕ) : Option Bytes :=
  match d.getText key with
  | some s => if 0 < s.length ∧ s.length < size then some (cString s) else none
  | none => none

end Bencode

def lookCloser : Bytes → Bytes → Bytes → ℤ
  | t :: ts, a :: as, b :: bs =>
    if a ^^^ t ≠ b ^^^ t then ((a ^^^ t).toNat : ℤ) - (b ^^^ t).toNat else lookCloser ts as bs
  | _, _, _ => 0

def decodeTransactionId (tid : Bytes) : ℕ :=
  if tid.length < 4 then 0 else fromBigEndian (tid.take 4)

def compactNode (n : MainlineNode) : Bytes := n.id ++ (bigEndian 4 n.ip ++ bigEndian 2 n.port)

def compactPeer (p : ℕ × ℕ) : Bytes := bigEndian 4 p.1 ++ bigEndian 2 p.2

namespace MainlineState

def closestFrom (target : Bytes) (best : ℕ) (id : Bytes) : ℕ → List MainlineNode → ℕ
  | _, [] => best
  | i, n :: nodes =>
    if lookCloser target n.id id < 0 then closestFrom target i n.id (i + 1) nodes
    else closestFrom target best id (i + 1) nodes

def selectClosest (target : Bytes) : ℕ → List MainlineNode → List MainlineNode
  | 0, _ => []
  | _ + 1, [] => []
  | max + 1, n :: nodes =>
    let best := closestFrom target 0 n.id 1 nodes
    if best = 0 then n :: selectClosest target max nodes
    else nodes.getD (best - 1) n :: selectClosest target max (nodes.set (best - 1) n)

variable (s : MainlineState)

def serveCompactClosest (target : Bytes) (max : ℕ) : Bytes :=
  (selectClosest target max s.nodes).flatMap compactNode

def serveToken (now : ℤ) (ip : ℕ) : Bytes := s.token ip (now / tokenEpoch)

def serveTokenValid (now : ℤ) (ip : ℕ) (tok : Bytes) : Bool :=
  4 ≤ tok.length &&
    (s.token ip (now / tokenEpoch) == tok.take 4 || s.token ip (now / tokenEpoch - 1) == tok.take 4)

def addPeer (peers : List (ℕ × ℕ)) (p : ℕ × ℕ) : List (ℕ × ℕ) :=
  if p ∈ peers then peers
  else if peers.length < mainlineServePeers then peers ++ [p]
  else peers.tail ++ [p]

def serveStorePeer (served : List ServedHash) (infoHash : Bytes) (ip port : ℕ)
    (pubkey : Option Bytes) : List ServedHash :=
  if ip = 0 ∨ port = 0 then served
  else
    let fresh : ServedHash := ⟨infoHash, [], none⟩
    let i := served.findIdx fun h => h.infoHash = infoHash
    let (i, served) :=
      if i < served.length then (i, served)
      else if served.length < mainlineServeHashes then (served.length, served ++ [fresh])
      else (0, served.set 0 fresh)
    served.modify i fun h =>
      { h with pubkey := if pubkey.isSome then pubkey else h.pubkey
               peers := addPeer h.peers (ip, port) }

def servePubkey (infoHash : Bytes) : Option Bytes :=
  if s.selfAccount = some infoHash ∧ s.selfPub.isSome then s.selfPub
  else (s.served.find? fun h => h.infoHash = infoHash ∧ h.pubkey.isSome).bind ServedHash.pubkey

def serveValues (infoHash : Bytes) : List (ℕ × ℕ) :=
  (if s.selfAccount = some infoHash then
    (s.external.filter fun p => p.1 ≠ 0 ∧ p.2 ≠ 0).toList else []) ++
  ((s.served.find? fun h => h.infoHash = infoHash ∧ h.peers ≠ []).elim [] ServedHash.peers)

def tagV : List (Bytes × Bencode) :=
  ((s.selfVersion.filter (· ≠ [])).map fun v => (text ['v'], Bencode.str v)).toList

def tagRo : List (Bytes × Bencode) :=
  if s.readOnly then [(text ['r', 'o'], .int 1)] else []

/-- Every query but a put has the version and the read-only mark before its name. -/
def taggedQuery (tid q : Bytes) (args : List (Bytes × Bencode)) : Bencode :=
  .dict ([(text ['t'], .str tid), (text ['y'], .str (text ['q']))] ++ s.tagRo ++ s.tagV ++
    [(text ['q'], .str q), (text ['a'], .dict args)])

def learnSender (now : ℤ) (msg d : Bencode) (ip port : ℕ) : MainlineState :=
  let incomingRo := (msg.getInt ['r', 'o']).any fun v => v ≠ 0
  match d.getText ['i', 'd'] with
  | some id =>
    if !incomingRo ∧ 20 ≤ id.length then
      let nodes := (mainlineAddNode s.selfId now (id.take 20) ip port s.nodes).2
      let pv := (d.getTag ['p', 'v'] 8).getD []
      let app := (msg.getTag ['v'] 24).getD ((d.getTag ['a', 'p', 'p'] 24).getD [])
      let pk := (d.getText ['p', 'k']).filter fun pk => pk.length = 32
      if pv ≠ [] ∨ app ≠ [] ∨ pk.isSome then
        { s with nodes := mainlineUpdateNodeInfo s.selfApp (id.take 20) pv app pk nodes }
      else { s with nodes := nodes }
    else s
  | none => s

def addCompact (selfId : Bytes) (now : ℤ) : ℕ → Bytes → List MainlineNode → List MainlineNode
  | 0, _, nodes => nodes
  | rounds + 1, blob, nodes =>
    if blob.length < 26 then nodes
    else
      addCompact selfId now rounds (blob.drop 26)
        (mainlineAddNode selfId now (blob.take 20) (fromBigEndian (slice blob 20 4))
          (fromBigEndian (slice blob 24 2)) nodes).2

def processReply (now : ℤ) (msg : Bencode) (ip port : ℕ) : MainlineState :=
  match msg.getText ['t'] with
  | none => s
  | some t =>
    let tid := decodeTransactionId t
    if s.transactions.any fun x => x.id = tid then
      let s := { s with
        transactions := s.transactions.eraseIdx (s.transactions.findIdx fun x => x.id = tid) }
      match msg.getDict ['r'] with
      | none => s
      | some r =>
        let s := s.learnSender now msg r ip port
        let s :=
          match msg.getText ['i', 'p'] with
          | some addr =>
            if 6 ≤ addr.length then
              { s with observed := s.observed ++
                [(fromBigEndian (addr.take 4), fromBigEndian (slice addr 4 2))] }
            else s
          | none => s
        match r.getText ['n', 'o', 'd', 'e', 's'] with
        | some blob => { s with nodes := addCompact s.selfId now blob.length blob s.nodes }
        | none => s
    else s

abbrev Answer := List (Bytes × Bencode) × MainlineState

def answerPing : Answer :=
  ((s.selfVersion.map fun v => (text ['n', 'v'], Bencode.str v)).toList ++
    (if s.selfPv = [] then [] else [(text ['p', 'v'], .str s.selfPv)]) ++
    (s.selfPub.map fun pk => (text ['p', 'k'], Bencode.str pk)).toList, s)

def nodesEntry (target : Bytes) : Bytes × Bencode :=
  (text ['n', 'o', 'd', 'e', 's'], .str (s.serveCompactClosest target 8))

def answerFindNode (a : Bencode) : Answer :=
  let target := ((a.getText ['t', 'a', 'r', 'g', 'e', 't']).filter (20 ≤ ·.length)).getD s.selfId
  ([s.nodesEntry target], s)

def tokenEntry (now : ℤ) (ip : ℕ) : Bytes × Bencode :=
  (text ['t', 'o', 'k', 'e', 'n'], .str (s.serveToken now ip))

def answerGetPeers (now : ℤ) (a : Bencode) (ip : ℕ) : Answer :=
  (s.tokenEntry now ip ::
    match a.getText "info_hash".toList with
    | some ih =>
      if 20 ≤ ih.length then
        (if s.serveValues (ih.take 20) = [] then [s.nodesEntry ih]
          else [(text "values".toList,
            .list ((s.serveValues (ih.take 20)).map fun p => .str (compactPeer p)))]) ++
        ((s.servePubkey (ih.take 20)).map fun pk => (text ['p', 'k'], Bencode.str pk)).toList
      else []
    | none => [], s)

def answerAnnouncePeer (now : ℤ) (a : Bencode) (ip port : ℕ) : Answer :=
  match a.getText "info_hash".toList, a.getText ['t', 'o', 'k', 'e', 'n'] with
  | some ih, some tok =>
    if 20 ≤ ih.length ∧ s.serveTokenValid now ip tok then
      let implied := (a.getInt "implied_port".toList).any fun v => v ≠ 0
      let port := if implied then port
        else ((a.getInt ['p', 'o', 'r', 't']).filter fun v => 0 < v ∧ v ≤ 65535).elim port Int.toNat
      let pk := (a.getText ['p', 'k']).filter fun pk => pk.length = 32
      ([], { s with served := serveStorePeer s.served (ih.take 20) ip port pk })
    else ([], s)
  | _, _ => ([], s)

section
variable (C : DhtCrypto)

def answerGet (s : MainlineState) (now : ℤ) (a : Bencode) (ip : ℕ) : Answer :=
  match a.getText ['t', 'a', 'r', 'g', 'e', 't'] with
  | some target =>
    if 20 ≤ target.length then
      let out := dhtstoreGetEx now (target.take 20) dhtstoreVmax s.store
      let s := { s with store := out.2 }
      (s.tokenEntry now ip ::
        match out.1 with
        | some e =>
          if e.immutable then [(text ['v'], .str e.v)]
          else
            [(text ['k'], .str e.k), (text ['s', 'e', 'q'], .int e.seq),
              (text ['s', 'i', 'g'], .str e.sig), (text ['v'], .str e.v)]
        | none => [s.nodesEntry target], s)
    else ([s.tokenEntry now ip], s)
  | none => ([s.tokenEntry now ip], s)

def seqOf (v : ℤ) : ℕ := (v % 2 ^ 32).toNat

/-- The arguments of a query that puts a signed item. -/
structure PutArgs where
  k : Bytes
  sig : Bytes
  seq : ℤ
  v : Bytes
  salt : Option Bytes

def tokenOk (s : MainlineState) (now : ℤ) (a : Bencode) (ip : ℕ) : Bool :=
  (a.getText ['t', 'o', 'k', 'e', 'n']).any fun tok => s.serveTokenValid now ip tok

def signedPut (s : MainlineState) (now : ℤ) (a : Bencode) (ip : ℕ) : Option PutArgs :=
  match a.getText ['k'], a.getText ['s', 'i', 'g'], a.getInt ['s', 'e', 'q'], a.getText ['v'] with
  | some k, some sig, some seq, some v =>
    if k.length = 32 ∧ sig.length = 64 ∧ 0 < v.length ∧ s.tokenOk now a ip then
      some ⟨k, sig, seq, v, (a.getText ['s', 'a', 'l', 't']).filter (·.length ≤ 64)⟩
    else none
  | _, _, _, _ => none

def answerPut (s : MainlineState) (now : ℤ) (a : Bencode) (ip : ℕ) : Answer :=
  match s.signedPut now a ip with
  | some p =>
    let target := p.salt.elim (bep44Target C p.k) (bep44TargetSalted C p.k)
    ([], { s with store :=
      (dhtstorePut C now target p.k (seqOf p.seq) p.v p.sig (p.salt.getD []) ip s.store).2 })
  | none =>
    match a.dictGet (text ['k']), a.dictGet (text "target".toList), a.getText ['v'] with
    | none, none, some v =>
      if 0 < v.length ∧ s.tokenOk now a ip then
        ([], { s with store := (dhtstorePutImmutable C now v ip s.store).2 })
      else ([], s)
    | _, _, _ => ([], s)

def answer (s : MainlineState) (now : ℤ) (q : Bytes) (a : Bencode) (ip port : ℕ) : Answer :=
  if q = text ['p', 'i', 'n', 'g'] then s.answerPing
  else if q = text "find_node".toList then s.answerFindNode a
  else if q = text "get_peers".toList then s.answerGetPeers now a ip
  else if q = text "announce_peer".toList then s.answerAnnouncePeer now a ip port
  else if q = text ['g', 'e', 't'] then s.answerGet now a ip
  else if q = text ['p', 'u', 't'] then s.answerPut C now a ip
  else ([], s)

def reply (s : MainlineState) (t : Bytes) (entries : List (Bytes × Bencode)) (ip port : ℕ) :
    Bencode :=
  .dict ([(text ['t'], .str t), (text ['y'], .str (text ['r'])),
    (text ['r'], .dict ((text ['i', 'd'], .str s.selfId) :: entries))] ++ s.tagV ++
    [(text ['i', 'p'], .str (bigEndian 4 ip ++ bigEndian 2 port))])

def processQuery (s : MainlineState) (now : ℤ) (msg : Bencode) (ip port : ℕ) : MainlineState :=
  if s.readOnly then s
  else
    match msg.getText ['q'], msg.getDict ['a'] with
    | some q, some a =>
      let s := s.learnSender now msg a ip port
      match msg.getText ['t'] with
      | none => s
      | some t =>
        let out := s.answer C now q a ip port
        { out.2 with sent := out.2.sent ++ [⟨(out.2.reply t out.1 ip port).encode, ip, port⟩] }
    | _, _ => s

end
end MainlineState

def mainlineProcessPacket (C : DhtCrypto) (now : ℤ) (d : Datagram) (s : MainlineState) :
    MainlineState :=
  match (Bencode.bencodeDecode d.data 0).1 with
  | none => s
  | some msg =>
    match msg.getText ['y'] with
    | none => s
    | some y =>
      if cString y = text ['r'] then s.processReply now msg d.ip d.port
      else if cString y = text ['q'] then s.processQuery C now msg d.ip d.port
      else s

namespace MainlineState

def endTransaction (s : MainlineState) (t : Bytes) : MainlineState :=
  { s with
    transactions := s.transactions.eraseIdx
      (s.transactions.findIdx fun x => x.id = decodeTransactionId t) }

variable (s : MainlineState) (C : DhtCrypto) (now : ℤ) (msg : Bencode) (ip port : ℕ)

theorem learnSender_eq (d : Bencode) :
    ∃ nodes, s.learnSender now msg d ip port = { s with nodes := nodes } := by
  unfold learnSender
  cases d.getText ['i', 'd'] with
  | none => exact ⟨_, rfl⟩
  | some id =>
    dsimp only
    split_ifs
    · exact ⟨_, rfl⟩
    · exact ⟨_, rfl⟩
    · exact ⟨_, rfl⟩

theorem answer_eq (q : Bytes) (a : Bencode) : ∃ served store,
    (s.answer C now q a ip port).2 = { s with served := served, store := store } := by
  unfold answer
  split_ifs
  · exact ⟨_, _, rfl⟩
  · exact ⟨_, _, rfl⟩
  · exact ⟨_, _, rfl⟩
  · unfold answerAnnouncePeer
    split
    · dsimp only
      split_ifs <;> exact ⟨_, _, rfl⟩
    · exact ⟨_, _, rfl⟩
  · unfold answerGet
    split
    · dsimp only
      split_ifs
      · exact ⟨_, _, rfl⟩
      · exact ⟨_, _, rfl⟩
    · exact ⟨_, _, rfl⟩
  · unfold answerPut
    split
    · exact ⟨_, _, rfl⟩
    · split
      · split_ifs
        · exact ⟨_, _, rfl⟩
        · exact ⟨_, _, rfl⟩
      · exact ⟨_, _, rfl⟩
  · exact ⟨_, _, rfl⟩

theorem processQuery_eq : s.processQuery C now msg ip port = s ∨
    ∃ a served store sent, s.readOnly = false ∧ msg.getText ['q'] ≠ none ∧
      msg.getDict ['a'] = some a ∧ s.processQuery C now msg ip port =
        { s.learnSender now msg a ip port with served := served, store := store, sent := sent } := by
  unfold processQuery
  by_cases hro : s.readOnly = true
  · exact .inl (if_pos hro)
  rw [if_neg hro]
  rw [Bool.not_eq_true] at hro
  cases msg.getText ['q'] with
  | none => exact .inl rfl
  | some q =>
    cases msg.getDict ['a'] with
    | none => exact .inl rfl
    | some a =>
      have hq : some q ≠ none := Option.some_ne_none q
      dsimp only
      cases msg.getText ['t'] with
      | none => exact .inr ⟨a, _, _, _, hro, hq, rfl, rfl⟩
      | some t =>
        obtain ⟨served, store, hanswer⟩ :=
          (s.learnSender now msg a ip port).answer_eq C now ip port q a
        dsimp only
        rw [hanswer]
        exact .inr ⟨a, served, store, _, hro, hq, rfl, rfl⟩

/-- All that a reply can do to the state. -/
inductive ReplyStep : MainlineState → Prop
  | ignored (hno : ∀ t ∈ msg.getText ['t'], ∀ x ∈ s.transactions, x.id ≠ decodeTransactionId t) :
      ReplyStep s
  | bare (t : Bytes) (ht : msg.getText ['t'] = some t)
      (hwaiting : ∃ x ∈ s.transactions, x.id = decodeTransactionId t) :
      ReplyStep (s.endTransaction t)
  | told (t : Bytes) (r : Bencode) (observed : List (ℕ × ℕ)) (nodes : List MainlineNode)
      (ht : msg.getText ['t'] = some t)
      (hwaiting : ∃ x ∈ s.transactions, x.id = decodeTransactionId t)
      (hr : msg.getDict ['r'] = some r)
      (hnodes : nodes = ((s.endTransaction t).learnSender now msg r ip port).nodes ∨
        ∃ selfId blob, nodes = addCompact selfId now blob.length blob
          ((s.endTransaction t).learnSender now msg r ip port).nodes) :
      ReplyStep { (s.endTransaction t).learnSender now msg r ip port with
        observed := observed, nodes := nodes }

variable {s now msg ip port}

theorem replyStep_of_processReply {s' : MainlineState}
    (h : s.processReply now msg ip port = s') : ReplyStep s now msg ip port s' := by
  rw [← h]
  unfold processReply
  cases ht : msg.getText ['t'] with
  | none => exact .ignored (by simp [ht])
  | some t =>
    dsimp only
    by_cases hany : s.transactions.any (fun x => x.id = decodeTransactionId t) = true
    · have hwaiting : ∃ x ∈ s.transactions, x.id = decodeTransactionId t := by simpa using hany
      rw [if_pos hany]
      cases hr : msg.getDict ['r'] with
      | none => exact .bare t ht hwaiting
      | some r =>
        dsimp only
        cases r.getText ['n', 'o', 'd', 'e', 's'] with
        | none =>
          dsimp only
          split
          · split_ifs
            · exact .told t r _ _ ht hwaiting hr (.inl rfl)
            · exact .told t r _ _ ht hwaiting hr (.inl rfl)
          · exact .told t r _ _ ht hwaiting hr (.inl rfl)
        | some blob =>
          dsimp only
          split
          · split_ifs
            · exact .told t r _ _ ht hwaiting hr (.inr ⟨_, blob, rfl⟩)
            · exact .told t r _ _ ht hwaiting hr (.inr ⟨_, blob, rfl⟩)
          · exact .told t r _ _ ht hwaiting hr (.inr ⟨_, blob, rfl⟩)
    · rw [if_neg hany]
      refine .ignored fun t' ht' x hx hid => hany ?_
      cases ht.symm.trans ht'
      exact List.any_eq_true.mpr ⟨x, hx, decide_eq_true hid⟩

theorem processPacket_eq (C : DhtCrypto) (now : ℤ) (d : Datagram) (s : MainlineState) :
    ∃ nodes transactions served store sent observed, mainlineProcessPacket C now d s =
      { s with
        nodes := nodes, transactions := transactions, served := served, store := store,
        sent := sent, observed := observed } := by
  unfold mainlineProcessPacket
  cases (Bencode.bencodeDecode d.data 0).1 with
  | none => exact ⟨_, _, _, _, _, _, rfl⟩
  | some msg =>
    dsimp only
    cases msg.getText ['y'] with
    | none => exact ⟨_, _, _, _, _, _, rfl⟩
    | some y =>
      dsimp only
      split_ifs
      · have hstep : ReplyStep s now msg d.ip d.port (s.processReply now msg d.ip d.port) :=
          replyStep_of_processReply rfl
        generalize s.processReply now msg d.ip d.port = s' at hstep
        cases hstep with
        | ignored hno | bare t ht hwaiting => exact ⟨_, _, _, _, _, _, rfl⟩
        | told t r observed nodes ht hwaiting hr hnodes =>
          obtain ⟨learnt, hlearn⟩ := (s.endTransaction t).learnSender_eq now msg d.ip d.port r
          rw [hlearn]
          exact ⟨_, _, _, _, _, _, rfl⟩
      · rcases s.processQuery_eq C now msg d.ip d.port with heq | ⟨a, served, store, sent, -, -, -, heq⟩
        · rw [heq]
          exact ⟨_, _, _, _, _, _, rfl⟩
        · obtain ⟨learnt, hlearn⟩ := s.learnSender_eq now msg d.ip d.port a
          rw [heq, hlearn]
          exact ⟨_, _, _, _, _, _, rfl⟩
      · exact ⟨_, _, _, _, _, _, rfl⟩

end MainlineState

end Norn
