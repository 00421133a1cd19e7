import Norn.Dht.Publish

/-!
# The keys in the routing table

The table takes the key of a node from its packets without comparing it with the id.
-/

namespace Norn
open Option
open List hiding modify

namespace MainlineState

/-- A transaction waits for the message. -/
def Awaits (s : MainlineState) (msg : Bencode) : Prop :=
  ∃ t ∈ msg.getText ['t'], ∃ x ∈ s.transactions, x.id = decodeTransactionId t

instance (s : MainlineState) (msg : Bencode) : Decidable (s.Awaits msg) :=
  inferInstanceAs (Decidable (∃ t ∈ msg.getText ['t'], _))

/-- What a message says about its sender, if the node listens to it: replies have to be awaited, and
a read-only node takes no queries. -/
def heardDict (s : MainlineState) (msg : Bencode) : Option Bencode :=
  match msg.getText ['y'] with
  | none => none
  | some y =>
    if cString y = text ['r'] then if s.Awaits msg then msg.getDict ['r'] else none
    else if cString y = text ['q'] then
      if s.readOnly ∨ msg.getText ['q'] = none then none else msg.getDict ['a']
    else none

end MainlineState

def dictKey (dict : Bencode) : Option (Bytes × Bytes) :=
  match dict.getText ['i', 'd'], dict.getText ['p', 'k'] with
  | some id, some pk => if 20 ≤ id.length ∧ pk.length = 32 then some (id.take 20, pk) else none
  | _, _ => none

def incomingRo (msg : Bencode) : Bool := (msg.getInt ['r', 'o']).any fun v => v ≠ 0

/-- The id and key of a packet whose key the node writes to its table. -/
def takenKey (now : ℤ) (d : Datagram) (s : MainlineState) : Option (Bytes × Bytes) :=
  (Bencode.bencodeDecode d.data 0).1.bind fun msg =>
    ((s.heardDict msg).bind dictKey).filter fun key => !incomingRo msg &&
      (mainlineAddNode s.selfId now key.1 d.ip d.port s.nodes).2.any fun n => n.id = key.1

section
variable (C : DhtCrypto)

def resolveCallback (now : ℤ) (ip port : ℕ) (pubkey : Bytes) (s : MainlineState) : MainlineState :=
  if ip = 0 ∨ port = 0 then s
  else
    let id := C.sha1 (ascii 'k' :: pubkey)
    let out := mainlineAddNode s.selfId now id ip port s.nodes
    if 0 ≤ out.1 then
      { s with nodes := mainlineUpdateNodeInfo s.selfApp id [] [] (some pubkey) out.2 }
    else { s with nodes := out.2 }

inductive NodeEvent where
  | packet (now : ℤ) (d : Datagram)
  | resolved (now : ℤ) (ip port : ℕ) (pubkey : Bytes)
  | evictStale (now maxAge : ℤ)
  | loadNodes (now : ℤ) (records : List (Bytes × ℕ × ℕ))
  | other (t : MainlineState)

def nodeStep (s : MainlineState) : NodeEvent → MainlineState
  | .packet now d => mainlineProcessPacket C now d s
  | .resolved now ip port pubkey => resolveCallback C now ip port pubkey s
  | .evictStale now maxAge => { s with nodes := mainlineEvictStale now maxAge s.nodes }
  | .loadNodes now records => { s with nodes := mainlineLoadNodes s.selfId now records s.nodes }
  | .other t => { t with nodes := s.nodes }

/-- The id is that of the key. -/
def OwnKey (id pk : Bytes) : Prop := id = C.sha1 (ascii 'k' :: pk)

instance (id pk : Bytes) : Decidable (OwnKey C id pk) := inferInstanceAs (Decidable (_ = _))

/-- Every key in the table belongs to the id beside it. -/
def Bound (nodes : List MainlineNode) : Prop :=
  ∀ n ∈ nodes, ∀ pk ∈ n.pubkey, OwnKey C n.id pk

/-- A key that the node takes from the packet belongs to its id. -/
def HonestEvent (s : MainlineState) : NodeEvent → Prop
  | .packet now d => ∀ e ∈ takenKey now d s, OwnKey C e.1 e.2
  | _ => True

def HonestRun (s : MainlineState) : List NodeEvent → Prop
  | [] => True
  | e :: events => HonestEvent C s e ∧ HonestRun (nodeStep C s e) events

end

namespace Bound
variable {C : DhtCrypto} {nodes : List MainlineNode}
section
variable (h : Bound C nodes)
include h

theorem of_subset {nodes' : List MainlineNode} (hsub : ∀ n ∈ nodes', n ∈ nodes) : Bound C nodes' :=
  fun n hn => h n (hsub n hn)

theorem modify (i : ℕ) {f : MainlineNode → MainlineNode}
    (hf : ∀ n ∈ nodes[i]?, ∀ pk ∈ (f n).pubkey, OwnKey C (f n).id pk) :
    Bound C (nodes.modify i f) := by
  intro n hn
  obtain ⟨j, hj⟩ := getElem?_of_mem hn
  rw [getElem?_modify] at hj
  obtain ⟨m, hm, rfl⟩ := map_eq_some_iff.mp hj
  split_ifs with hij
  · rw [hij] at hf
    exact hf m hm
  · exact h m (mem_of_getElem? hm)

variable (selfId : Bytes)

theorem addNode (now : ℤ) (id : Bytes) (ip port : ℕ) :
    Bound C (mainlineAddNode selfId now id ip port nodes).2 := by
  unfold mainlineAddNode
  split_ifs
  · exact h
  · exact h
  · apply h.modify
    intro n hn
    exact h n (mem_of_getElem? hn)
  · cases hsub : NodeTable.roomInSubnet ip nodes with
    | none => exact h
    | some nodes' =>
      have h' : Bound C nodes' := h.of_subset fun n => NodeTable.mem_of_roomInSubnet hsub
      dsimp only
      cases htable : NodeTable.roomInTable nodes' with
      | none => exact h'
      | some nodes'' =>
        intro n hn
        rcases mem_append.mp hn with hn | hn
        · exact h' n (NodeTable.mem_of_roomInTable htable hn)
        · rw [mem_singleton.mp hn]
          intro pk hpk
          cases hpk

theorem updateNodeInfo (selfApp pv app : Bytes) {id : Bytes} {pubkey : Option Bytes}
    (hkey : (∃ n ∈ nodes, n.id = id) → ∀ pk ∈ pubkey, OwnKey C id pk) :
    Bound C (mainlineUpdateNodeInfo selfApp id pv app pubkey nodes) := by
  apply h.modify
  intro n hn pk hpk
  have hid : n.id = id := by
    obtain ⟨hlt, rfl⟩ := List.getElem?_eq_some_iff.mp hn
    exact of_decide_eq_true (findIdx_getElem (w := hlt))
  change pk ∈ (if pubkey.isSome then pubkey else n.pubkey) at hpk
  change OwnKey C n.id pk
  split_ifs at hpk
  · rw [hid]
    exact hkey ⟨n, mem_of_getElem? hn, hid⟩ pk hpk
  · exact h n (mem_of_getElem? hn) pk hpk

theorem addCompact (now : ℤ) (rounds : ℕ) (blob : Bytes) :
    Bound C (MainlineState.addCompact selfId now rounds blob nodes) := by
  induction rounds generalizing blob nodes with
  | zero => exact h
  | succ rounds ih =>
    rw [MainlineState.addCompact]
    split_ifs
    · exact h
    · exact ih (h.addNode selfId now _ _ _) _

theorem loadNodes (now : ℤ) (records : List (Bytes × ℕ × ℕ)) :
    Bound C (mainlineLoadNodes selfId now records nodes) := by
  induction records generalizing nodes with
  | nil => exact h
  | cons record records ih =>
    obtain ⟨id, ip, port⟩ := record
    rw [mainlineLoadNodes]
    split_ifs
    · exact ih (h.addNode selfId now id ip port)
    · exact h

theorem evictLoop (now maxAge : ℤ) (count rounds i kept evicted : ℕ) :
    Bound C (NodeTable.evictLoop now maxAge count rounds i kept evicted nodes).2.2 := by
  induction rounds generalizing i kept evicted nodes with
  | zero => exact h
  | succ rounds ih =>
    rw [NodeTable.evictLoop]
    cases hn : nodes[i]? with
    | none => exact h
    | some n =>
      dsimp only
      split_ifs
      · exact ih h (i + 1) kept (evicted + 1)
      · apply ih
        intro m hm
        rcases mem_or_eq_of_mem_set hm with hm | rfl
        · exact h m hm
        · exact h m (mem_of_getElem? hn)

theorem evictStale (now maxAge : ℤ) : Bound C (mainlineEvictStale now maxAge nodes) :=
  (h.evictLoop now maxAge _ _ 0 0 0).of_subset fun _ => mem_of_mem_take

end
end Bound

namespace MainlineState
variable {C : DhtCrypto} {s : MainlineState}

theorem bound_learnSender (h : Bound C s.nodes) (now : ℤ) (msg d : Bencode) (ip port : ℕ)
    (hkey : ∀ e ∈ dictKey d, incomingRo msg = false →
      (∃ n ∈ (mainlineAddNode s.selfId now e.1 ip port s.nodes).2, n.id = e.1) → OwnKey C e.1 e.2) :
    Bound C (s.learnSender now msg d ip port).nodes := by
  unfold learnSender
  unfold dictKey at hkey
  dsimp only
  cases hid : d.getText ['i', 'd'] with
  | none => exact h
  | some id =>
    dsimp only
    rw [hid] at hkey
    have hadd := h.addNode s.selfId now (id.take 20) ip port
    split_ifs with hlong hinfo
    · apply hadd.updateNodeInfo
      intro hfound pk hpk
      obtain ⟨hpk, hlen⟩ := mem_filter_iff.mp hpk
      rw [mem_def.mp hpk] at hkey
      exact hkey (id.take 20, pk) (if_pos (And.intro hlong.2 (of_decide_eq_true hlen)))
        (by simpa [incomingRo] using hlong.1) hfound
    · exact hadd
    · exact h

theorem bound_processQuery (h : Bound C s.nodes) (now : ℤ) (msg : Bencode) (ip port : ℕ)
    (hkey : ∀ a, s.readOnly = false → msg.getText ['q'] ≠ none → msg.getDict ['a'] = some a →
      Bound C (s.learnSender now msg a ip port).nodes) :
    Bound C (s.processQuery C now msg ip port).nodes := by
  rcases s.processQuery_eq C now msg ip port with heq | ⟨a, served, store, sent, hro, hq, ha, heq⟩
  · rw [heq]
    exact h
  · rw [heq]
    exact hkey a hro hq ha

theorem bound_processReply (h : Bound C s.nodes) (now : ℤ) (msg : Bencode) (ip port : ℕ)
    (hkey : ∀ t r, s.Awaits msg → msg.getDict ['r'] = some r →
      Bound C ((s.endTransaction t).learnSender now msg r ip port).nodes) :
    Bound C (s.processReply now msg ip port).nodes := by
  generalize hout : s.processReply now msg ip port = out
  cases replyStep_of_processReply hout with
  | ignored hno | bare t ht hwaiting => exact h
  | told t r observed nodes ht hwaiting hr hnodes =>
    have hlearn := hkey t r ⟨t, ht, hwaiting⟩ hr
    rcases hnodes with rfl | ⟨selfId, blob, rfl⟩
    · exact hlearn
    · exact hlearn.addCompact selfId now blob.length blob

end MainlineState

section
variable {C : DhtCrypto} {s : MainlineState}

theorem Bound.processPacket (h : Bound C s.nodes) (now : ℤ) (d : Datagram)
    (hkey : ∀ e ∈ takenKey now d s, OwnKey C e.1 e.2) :
    Bound C (mainlineProcessPacket C now d s).nodes := by
  unfold mainlineProcessPacket
  cases hmsg : (Bencode.bencodeDecode d.data 0).1 with
  | none => exact h
  | some msg =>
    dsimp only
    have htaken : ∀ dict, s.heardDict msg = some dict → ∀ e ∈ dictKey dict, incomingRo msg = false →
        (∃ n ∈ (mainlineAddNode s.selfId now e.1 d.ip d.port s.nodes).2, n.id = e.1) →
          OwnKey C e.1 e.2 := by
      intro dict hdict e he hro hfound
      refine hkey e ?_
      rw [takenKey, hmsg, bind_some, hdict, bind_some]
      exact mem_filter_iff.mpr ⟨he, by simpa [hro] using hfound⟩
    unfold MainlineState.heardDict at htaken
    cases hy : msg.getText ['y'] with
    | none => exact h
    | some y =>
      rw [hy] at htaken
      dsimp only at htaken ⊢
      by_cases hreply : cString y = text ['r']
      · rw [if_pos hreply] at htaken ⊢
        refine MainlineState.bound_processReply h now msg d.ip d.port fun t r hwaiting hr => ?_
        rw [if_pos hwaiting] at htaken
        exact MainlineState.bound_learnSender (s := s.endTransaction t) h now msg r d.ip d.port
          (htaken r hr)
      rw [if_neg hreply] at htaken ⊢
      by_cases hquery : cString y = text ['q']
      · rw [if_pos hquery] at htaken ⊢
        refine MainlineState.bound_processQuery h now msg d.ip d.port fun a hro hq ha => ?_
        rw [if_neg (by simp [hro, hq])] at htaken
        exact MainlineState.bound_learnSender h now msg a d.ip d.port (htaken a ha)
      rw [if_neg hquery]
      exact h

theorem Bound.resolveCallback (h : Bound C s.nodes) (now : ℤ) (ip port : ℕ) (pubkey : Bytes) :
    Bound C (Norn.resolveCallback C now ip port pubkey s).nodes := by
  unfold Norn.resolveCallback
  dsimp only
  have hadd := h.addNode s.selfId now (C.sha1 (ascii 'k' :: pubkey)) ip port
  split_ifs
  · exact h
  · apply hadd.updateNodeInfo
    rintro - pk ⟨⟩
    rfl
  · exact hadd

theorem Bound.nodeStep (h : Bound C s.nodes) {e : NodeEvent} (he : HonestEvent C s e) :
    Bound C (Norn.nodeStep C s e).nodes := by
  cases e with
  | packet now d => exact h.processPacket now d he
  | resolved now ip port pubkey => exact h.resolveCallback now ip port pubkey
  | evictStale now maxAge => exact h.evictStale now maxAge
  | loadNodes now records => exact h.loadNodes s.selfId now records
  | other t => exact h

theorem Bound.foldl (h : Bound C s.nodes) {events : List NodeEvent}
    (hevents : HonestRun C s events) : Bound C (events.foldl (Norn.nodeStep C) s).nodes := by
  induction events generalizing s with
  | nil => exact h
  | cons e events ih => exact ih (h.nodeStep hevents.1) hevents.2

/-- While the keys taken from packets belong to the ids next to them, so do those in the table. -/
theorem routingPubkey_own {events : List NodeEvent} (hstart : s.nodes = [])
    (hevents : HonestRun C s events) {id pk : Bytes}
    (hpk : nornRoutingPubkey id (events.foldl (nodeStep C) s).nodes = some pk) : OwnKey C id pk := by
  have hbound : Bound C s.nodes := by
    rw [hstart]
    exact forall_mem_nil _
  obtain ⟨n, hn, hkey⟩ := bind_eq_some_iff.mp hpk
  have hid : n.id = id := by simpa using find?_some hn
  rw [← hid]
  exact hbound.foldl hevents n (mem_of_find?_eq_some hn) pk hkey

end

def keyPing (id pk : Bytes) : Datagram :=
  ⟨(Bencode.dict [(text ['t'], .str (text ['a'])), (text ['y'], .str (text ['q'])),
    (text ['q'], .str (text ['p', 'i', 'n', 'g'])),
    (text ['a'], .dict [(text ['i', 'd'], .str id), (text ['p', 'k'], .str pk)])]).encode, 1, 1⟩

/-- A reply with a foreign key that no query waits for, and then a ping with the sender's own key. -/
def pingedEvents : List NodeEvent :=
  [.packet 0 ⟨(Bencode.dict [(text ['t'], .str [0, 0, 0, 9]), (text ['y'], .str (text ['r'])),
      (text ['r'], .dict [(text ['i', 'd'], .str (.replicate 20 8)),
        (text ['p', 'k'], .str (.replicate 32 3))])]).encode, 1, 1⟩,
    .packet 0 (keyPing (ascii 'k' :: .replicate 19 3) (.replicate 32 3))]

theorem pingedEvents_own :
    nornRoutingPubkey (ascii 'k' :: .replicate 19 3)
        (pingedEvents.foldl (nodeStep toyCrypto) { lonelyNode with nodes := [] }).nodes =
      some (.replicate 32 3) ∧ OwnKey toyCrypto (ascii 'k' :: .replicate 19 3) (.replicate 32 3) := by
  have hpk : nornRoutingPubkey (ascii 'k' :: .replicate 19 3)
      (pingedEvents.foldl (nodeStep toyCrypto) { lonelyNode with nodes := [] }).nodes =
        some (.replicate 32 3) := by
    decide +kernel
  have hhonest : HonestRun toyCrypto { lonelyNode with nodes := [] } pingedEvents := by
    refine ⟨?_, ?_, trivial⟩
    · change ∀ e ∈ takenKey _ _ _, _
      decide +kernel
    · change ∀ e ∈ takenKey _ _ _, _
      decide +kernel
  exact ⟨hpk, routingPubkey_own rfl hhonest hpk⟩

theorem keyPing_foreign :
    nornRoutingPubkey (.replicate 20 8)
        (mainlineProcessPacket toyCrypto 0 (keyPing (.replicate 20 8) (.replicate 32 3))
          { lonelyNode with nodes := [] }).nodes = some (.replicate 32 3) ∧
      ¬ OwnKey toyCrypto (.replicate 20 8) (.replicate 32 3) := by
  refine ⟨by decide +kernel, ?_⟩
  unfold OwnKey
  decide

end Norn
