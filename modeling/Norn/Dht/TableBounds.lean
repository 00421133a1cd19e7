import Norn.Dht.Eviction
import Norn.Dht.Publish

/-!
# The bounds of the routing table

The table and each network of 256 addresses in it are bounded.
-/

namespace Norn
open List Norn.Compact

inductive TableOp
  | add (now : ℤ) (id : Bytes) (ip port : ℕ)
  | update (id pv app : Bytes) (pubkey : Option Bytes)
  | evict (now maxAge : ℤ)

namespace TableOp
section
variable (selfId selfApp : Bytes)

def apply (nodes : List MainlineNode) : TableOp → List MainlineNode
  | add now id ip port => (mainlineAddNode selfId now id ip port nodes).2
  | update id pv app pubkey => mainlineUpdateNodeInfo selfApp id pv app pubkey nodes
  | evict now maxAge => mainlineEvictStale now maxAge nodes

/-- The operation moves no node to a full network. -/
def Keeps (nodes : List MainlineNode) : TableOp → Prop
  | add _ id ip port => ip ≠ 0 → port ≠ 0 → ∀ n ∈ nodes, n.id = id →
      NodeTable.sameSubnet ip n = true ∨
        nodes.countP (NodeTable.sameSubnet ip) < mainlineMaxPerSubnet
  | _ => True

def AllKeep : List MainlineNode → List TableOp → Prop
  | _, [] => True
  | nodes, op :: ops => op.Keeps nodes ∧ AllKeep (op.apply selfId selfApp nodes) ops

end
end TableOp

/-- At most so many nodes, all with different ids other than the own one, and so many in a
network. -/
structure TableBounded (selfId : Bytes) (nodes : List MainlineNode) : Prop where
  length_le : nodes.length ≤ mainlineMaxNodes
  nodup : (nodes.map MainlineNode.id).Nodup
  notSelf : selfId ∉ nodes.map MainlineNode.id
  subnet_le : ∀ ip, nodes.countP (NodeTable.sameSubnet ip) ≤ mainlineMaxPerSubnet

variable {ip : ℕ} {n : MainlineNode}

theorem NodeTable.sameSubnet_eq (h : sameSubnet ip n = true) : sameSubnet ip = sameSubnet n.ip := by
  funext m
  rw [sameSubnet, sameSubnet, of_decide_eq_true h]

namespace TableBounded
variable {selfId : Bytes} {nodes nodes' : List MainlineNode}

theorem nil (selfId : Bytes) : TableBounded selfId [] where
  length_le := Nat.zero_le _
  nodup := nodup_nil
  notSelf := not_mem_nil
  subnet_le _ := Nat.zero_le _

section
variable (h : TableBounded selfId nodes)
include h

theorem perm (hperm : nodes.Perm nodes') : TableBounded selfId nodes' where
  length_le := hperm.length_eq ▸ h.length_le
  nodup := (hperm.map _).nodup_iff.mp h.nodup
  notSelf hself := h.notSelf ((hperm.map _).mem_iff.mpr hself)
  subnet_le ip := hperm.countP_eq _ ▸ h.subnet_le ip

theorem sublist (hsub : nodes'.Sublist nodes) : TableBounded selfId nodes' where
  length_le := hsub.length_le.trans h.length_le
  nodup := h.nodup.sublist (hsub.map _)
  notSelf hself := h.notSelf ((hsub.map _).subset hself)
  subnet_le ip := hsub.countP_le.trans (h.subnet_le ip)

theorem congr (heq : nodes'.map (fun n => (n.id, n.ip)) = nodes.map fun n => (n.id, n.ip)) :
    TableBounded selfId nodes' := by
  have hids : nodes'.map MainlineNode.id = nodes.map MainlineNode.id := by
    have hfst := congrArg (map Prod.fst) heq
    rwa [map_map, map_map] at hfst
  have hcount (ip : ℕ) :
      nodes'.countP (NodeTable.sameSubnet ip) = nodes.countP (NodeTable.sameSubnet ip) := by
    have hsnd := congrArg (countP fun p : Bytes × ℕ => p.2 / 256 = ip / 256) heq
    rwa [countP_map, countP_map] at hsnd
  have hlen : nodes'.length = nodes.length := by
    have hlength := congrArg length heq
    rwa [length_map, length_map] at hlength
  exact ⟨hlen ▸ h.length_le, hids ▸ h.nodup, hids ▸ h.notSelf, fun ip => hcount ip ▸ h.subnet_le ip⟩

theorem updateNodeInfo (selfApp id pv app : Bytes) (pubkey : Option Bytes) :
    TableBounded selfId (mainlineUpdateNodeInfo selfApp id pv app pubkey nodes) := by
  refine h.congr (map_modify_key ?_)
  intro n _
  rfl

theorem evictStale (now maxAge : ℤ) : TableBounded selfId (mainlineEvictStale now maxAge nodes) := by
  have hsub := NodeTable.sift_sublist now maxAge nodes [] nodes
  rw [NodeTable.mainlineEvictStale_eq]
  exact h.sublist (hsub.trans filter_sublist)

theorem set_iff {i : ℕ} (n' : MainlineNode) (hget : nodes[i]? = some n) (hid : n'.id = n.id) :
    TableBounded selfId (nodes.set i n') ↔ NodeTable.sameSubnet n'.ip n = true ∨
        nodes.countP (NodeTable.sameSubnet n'.ip) < mainlineMaxPerSubnet := by
  obtain ⟨rest, hperm, hset⟩ := exists_perm_set hget
  have hids : (nodes.set i n').map MainlineNode.id = nodes.map MainlineNode.id :=
    map_set_key hget hid
  have hbefore (ip : ℕ) : nodes.countP (NodeTable.sameSubnet ip) =
      rest.countP (NodeTable.sameSubnet ip) + if NodeTable.sameSubnet ip n then 1 else 0 := by
    rw [hperm.countP_eq, countP_cons]
  have hafter (ip : ℕ) : (nodes.set i n').countP (NodeTable.sameSubnet ip) =
      rest.countP (NodeTable.sameSubnet ip) + if NodeTable.sameSubnet ip n' then 1 else 0 := by
    rw [(hset n').countP_eq, countP_cons]
  have hself : NodeTable.sameSubnet n'.ip n' = true := decide_eq_true rfl
  constructor
  · intro h'
    by_contra hfull
    rw [not_or, Bool.not_eq_true] at hfull
    have hle := h'.subnet_le n'.ip
    have hcount := hbefore n'.ip
    rw [hfull.1] at hcount
    rw [hafter, hself, if_pos rfl] at hle
    rw [if_neg (by decide)] at hcount
    omega
  · intro hroom
    refine ⟨?_, hids ▸ h.nodup, hids ▸ h.notSelf, ?_⟩
    · rw [length_set]
      exact h.length_le
    · intro ip
      have hle := h.subnet_le ip
      rw [hafter]
      rw [hbefore] at hle
      by_cases hin : NodeTable.sameSubnet ip n' = true
      · rw [if_pos hin]
        rw [NodeTable.sameSubnet_eq hin] at hle ⊢
        rcases hroom with hsame | hroom
        · rwa [if_pos hsame] at hle
        · rw [hbefore] at hroom
          omega
      · rw [if_neg hin]
        omega

theorem of_removed {gone : List MainlineNode} (hperm : nodes.Perm (gone ++ nodes')) :
    TableBounded selfId nodes' :=
  (h.perm hperm).sublist (sublist_append_right gone nodes')

theorem concat (hlen : nodes.length < mainlineMaxNodes)
    (hroom : nodes.countP (NodeTable.sameSubnet n.ip) < mainlineMaxPerSubnet)
    (hnew : ∀ m ∈ nodes, m.id ≠ n.id) (hself : n.id ≠ selfId) :
    TableBounded selfId (nodes ++ [n]) where
  length_le := by
    rw [length_append, length_singleton]
    exact hlen
  nodup := nodup_map_concat h.nodup hnew
  notSelf := by
    rw [map_append, mem_append, not_or]
    exact ⟨h.notSelf, fun hmem => hself (mem_singleton.mp hmem).symm⟩
  subnet_le ip := by
    rw [countP_append, countP_singleton]
    by_cases hin : NodeTable.sameSubnet ip n = true
    · rw [if_pos hin, NodeTable.sameSubnet_eq hin]
      exact hroom
    · rw [if_neg hin]
      exact h.subnet_le ip

end
end TableBounded

namespace NodeTable
variable {nodes nodes' : List MainlineNode}

theorem roomInSubnet_spec (h : roomInSubnet ip nodes = some nodes')
    (hle : nodes.countP (sameSubnet ip) ≤ mainlineMaxPerSubnet) :
    (∃ gone, nodes.Perm (gone ++ nodes')) ∧
      nodes'.countP (sameSubnet ip) < mainlineMaxPerSubnet := by
  unfold roomInSubnet at h
  split_ifs at h with hfull
  · obtain ⟨n, hn, hperm⟩ := evictOldest_perm h
    rw [Bool.and_eq_true] at hn
    refine ⟨⟨[n], hperm⟩, ?_⟩
    rw [hperm.countP_eq, countP_cons, if_pos hn.1] at hle
    exact hle
  · obtain rfl := Option.some.inj h
    exact ⟨⟨[], Perm.refl _⟩, not_le.mp hfull⟩

theorem roomInTable_spec (h : roomInTable nodes = some nodes')
    (hle : nodes.length ≤ mainlineMaxNodes) :
    (∃ gone, nodes.Perm (gone ++ nodes')) ∧ nodes'.length < mainlineMaxNodes := by
  unfold roomInTable at h
  split_ifs at h with hfull
  · obtain ⟨n, -, hperm⟩ := evictOldest_perm h
    refine ⟨⟨[n], hperm⟩, ?_⟩
    rw [hperm.length_eq, length_cons] at hle
    exact hle
  · obtain rfl := Option.some.inj h
    exact ⟨⟨[], Perm.refl _⟩, not_le.mp hfull⟩

end NodeTable

namespace TableBounded
variable {selfId : Bytes} {nodes : List MainlineNode}

theorem addNode_iff (h : TableBounded selfId nodes) (now : ℤ) (id : Bytes) (ip port : ℕ) :
    TableBounded selfId (mainlineAddNode selfId now id ip port nodes).2 ↔
      (TableOp.add now id ip port).Keeps nodes := by
  rw [mainlineAddNode, TableOp.Keeps]
  by_cases haddr : ip = 0 ∨ port = 0
  · rw [if_pos haddr]
    refine iff_of_true h ?_
    intro hip hport
    rcases haddr with haddr | haddr
    · exact absurd haddr hip
    · exact absurd haddr hport
  rw [if_neg haddr]
  rw [not_or] at haddr
  rw [forall_prop_of_true haddr.1, forall_prop_of_true haddr.2]
  by_cases hself : id = selfId
  · rw [if_pos hself]
    refine iff_of_true h ?_
    intro n hn hid
    exact absurd (mem_map.mpr ⟨n, hn, hid.trans hself⟩) h.notSelf
  rw [if_neg hself]
  by_cases hknown : nodes.any (fun n => n.id = id) = true
  · obtain ⟨m, hm, hmid⟩ := any_eq_true.mp hknown
    have hlt : nodes.findIdx (fun n => n.id = id) < nodes.length :=
      findIdx_lt_length_of_exists ⟨m, hm, hmid⟩
    have hid : nodes[nodes.findIdx fun n => n.id = id].id = id :=
      of_decide_eq_true (findIdx_getElem (w := hlt))
    have hget := getElem?_eq_getElem hlt
    generalize nodes[nodes.findIdx fun n => n.id = id] = n at hid hget
    have hunique : ∀ m ∈ nodes, m.id = id → m = n := by
      intro m hm hmid
      exact inj_on_of_nodup_map h.nodup hm (mem_of_getElem? hget) (hmid.trans hid.symm)
    have hset := h.set_iff { n with ip := ip, port := port, lastSeen := now } hget rfl
    rw [if_pos hknown]
    dsimp only
    rw [modify_eq_set hget, hset]
    constructor
    · intro hroom m hm hmid
      rw [hunique m hm hmid]
      exact hroom
    · intro hroom
      exact hroom n (mem_of_getElem? hget) hid
  · have hnew : ∀ n ∈ nodes, n.id ≠ id := by simpa using hknown
    rw [if_neg hknown]
    refine iff_of_true ?_ (fun n hn hid => absurd hid (hnew n hn))
    cases hsubnet : NodeTable.roomInSubnet ip nodes with
    | none => exact h
    | some nodes' =>
      obtain ⟨⟨gone, hperm⟩, hroom⟩ := NodeTable.roomInSubnet_spec hsubnet (h.subnet_le ip)
      have h' := h.of_removed hperm
      dsimp only
      cases htable : NodeTable.roomInTable nodes' with
      | none => exact h'
      | some nodes'' =>
        obtain ⟨⟨gone', hperm'⟩, hlen⟩ := NodeTable.roomInTable_spec htable h'.length_le
        have hsub : ∀ m ∈ nodes'', m ∈ nodes := by
          intro m hm
          have hm' := hperm'.mem_iff.mpr (mem_append_right _ hm)
          exact hperm.mem_iff.mpr (mem_append_right _ hm')
        refine (h'.of_removed hperm').concat hlen ?_ (fun m hm => hnew m (hsub m hm)) hself
        rw [hperm'.countP_eq, countP_append] at hroom
        exact lt_of_le_of_lt (Nat.le_add_left _ _) hroom

theorem apply_iff (h : TableBounded selfId nodes) (selfApp : Bytes) (op : TableOp) :
    TableBounded selfId (op.apply selfId selfApp nodes) ↔ op.Keeps nodes := by
  cases op with
  | add now id ip port => exact h.addNode_iff now id ip port
  | update id pv app pubkey =>
    exact iff_of_true (h.updateNodeInfo selfApp id pv app pubkey) trivial
  | evict now maxAge => exact iff_of_true (h.evictStale now maxAge) trivial

theorem foldl (h : TableBounded selfId nodes) (selfApp : Bytes) {ops : List TableOp}
    (hkeep : TableOp.AllKeep selfId selfApp nodes ops) :
    TableBounded selfId (ops.foldl (TableOp.apply selfId selfApp) nodes) := by
  induction ops generalizing nodes with
  | nil => exact h
  | cons op ops ih => exact ih ((h.apply_iff selfApp op).mpr hkeep.1) hkeep.2

end TableBounded

namespace MainlineState

def learnOps (now : ℤ) (msg d : Bencode) (ip port : ℕ) : List TableOp :=
  let incomingRo := (msg.getInt ['r', 'o']).any fun v => v ≠ 0
  match d.getText ['i', 'd'] with
  | some id =>
    if !incomingRo ∧ 20 ≤ id.length then
      let pv := (d.getTag ['p', 'v'] 8).getD []
      let app := (msg.getTag ['v'] 24).getD ((d.getTag ['a', 'p', 'p'] 24).getD [])
      let pk := (d.getText ['p', 'k']).filter fun pk => pk.length = 32
      TableOp.add now (id.take 20) ip port ::
        if pv ≠ [] ∨ app ≠ [] ∨ pk.isSome then [.update (id.take 20) pv app pk] else []
    else []
  | none => []

def compactOps (now : ℤ) : ℕ → Bytes → List TableOp
  | 0, _ => []
  | rounds + 1, blob =>
    if blob.length < 26 then []
    else
      .add now (blob.take 20) (fromBigEndian (slice blob 20 4)) (fromBigEndian (slice blob 24 2)) ::
        compactOps now rounds (blob.drop 26)

def replyOps (s : MainlineState) (now : ℤ) (msg : Bencode) (ip port : ℕ) : List TableOp :=
  match msg.getText ['t'], msg.getDict ['r'] with
  | some t, some r =>
    if s.transactions.any fun x => x.id = decodeTransactionId t then
      learnOps now msg r ip port ++
        match r.getText ['n', 'o', 'd', 'e', 's'] with
        | some blob => compactOps now blob.length blob
        | none => []
    else []
  | _, _ => []

def queryOps (s : MainlineState) (now : ℤ) (msg : Bencode) (ip port : ℕ) : List TableOp :=
  match msg.getText ['q'], msg.getDict ['a'] with
  | some _, some a => if s.readOnly then [] else learnOps now msg a ip port
  | _, _ => []

def packetOps (now : ℤ) (d : Datagram) (s : MainlineState) : List TableOp :=
  match (Bencode.bencodeDecode d.data 0).1 with
  | none => []
  | some msg =>
    match msg.getText ['y'] with
    | none => []
    | some y =>
      if cString y = text ['r'] then s.replyOps now msg d.ip d.port
      else if cString y = text ['q'] then s.queryOps now msg d.ip d.port
      else []

variable (s : MainlineState) (now : ℤ) (msg : Bencode) (ip port : ℕ)

theorem nodes_learnSender (d : Bencode) : (s.learnSender now msg d ip port).nodes =
      (learnOps now msg d ip port).foldl (TableOp.apply s.selfId s.selfApp) s.nodes := by
  unfold learnSender learnOps
  cases d.getText ['i', 'd'] with
  | none => rfl
  | some id =>
    dsimp only
    split_ifs <;> rfl

theorem addCompact_eq (selfId selfApp : Bytes) (rounds : ℕ) (blob : Bytes)
    (nodes : List MainlineNode) : addCompact selfId now rounds blob nodes =
      (compactOps now rounds blob).foldl (TableOp.apply selfId selfApp) nodes := by
  induction rounds generalizing blob nodes with
  | zero => rfl
  | succ rounds ih =>
    rw [addCompact, compactOps]
    split_ifs
    · rfl
    · exact ih _ _

theorem nodes_processReply : (s.processReply now msg ip port).nodes =
      (s.replyOps now msg ip port).foldl (TableOp.apply s.selfId s.selfApp) s.nodes := by
  unfold processReply replyOps
  cases msg.getText ['t'] with
  | none => rfl
  | some t =>
    dsimp only
    by_cases hany : s.transactions.any (fun x => x.id = decodeTransactionId t) = true
    · rw [if_pos hany]
      cases msg.getDict ['r'] with
      | none => rfl
      | some r =>
        dsimp only
        rw [if_pos hany]
        have hself : ((s.endTransaction t).learnSender now msg r ip port).selfId = s.selfId := by
          obtain ⟨nodes, heq⟩ := (s.endTransaction t).learnSender_eq now msg ip port r
          rw [heq]
          rfl
        have hnodes := (s.endTransaction t).nodes_learnSender now msg ip port r
        cases r.getText ['n', 'o', 'd', 'e', 's'] with
        | none =>
          dsimp only
          rw [append_nil]
          split
          · split_ifs
            · exact hnodes
            · exact hnodes
          · exact hnodes
        | some blob =>
          have hadd : addCompact ((s.endTransaction t).learnSender now msg r ip port).selfId now
              blob.length blob ((s.endTransaction t).learnSender now msg r ip port).nodes =
              (learnOps now msg r ip port ++ compactOps now blob.length blob).foldl
                (TableOp.apply s.selfId s.selfApp) s.nodes := by
            rw [foldl_append, hself, hnodes, addCompact_eq now s.selfId s.selfApp]
            rfl
          dsimp only
          split
          · split_ifs
            · exact hadd
            · exact hadd
          · exact hadd
    · rw [if_neg hany]
      cases msg.getDict ['r'] with
      | none => rfl
      | some r =>
        dsimp only
        rw [if_neg hany]
        rfl

theorem nodes_processQuery (C : DhtCrypto) : (s.processQuery C now msg ip port).nodes =
      (s.queryOps now msg ip port).foldl (TableOp.apply s.selfId s.selfApp) s.nodes := by
  unfold processQuery queryOps
  by_cases hro : s.readOnly = true
  · rw [if_pos hro]
    cases msg.getText ['q'] with
    | none => rfl
    | some q =>
      cases msg.getDict ['a'] with
      | none => rfl
      | some a =>
        dsimp only
        rw [if_pos hro]
        rfl
  · rw [if_neg hro]
    cases msg.getText ['q'] with
    | none => rfl
    | some q =>
      cases msg.getDict ['a'] with
      | none => rfl
      | some a =>
        dsimp only
        rw [if_neg hro, ← nodes_learnSender]
        cases msg.getText ['t'] with
        | none => rfl
        | some t =>
          obtain ⟨served, store, hanswer⟩ :=
            (s.learnSender now msg a ip port).answer_eq C now ip port q a
          dsimp only
          rw [hanswer]

theorem nodes_processPacket (C : DhtCrypto) (d : Datagram) : (mainlineProcessPacket C now d s).nodes =
      (s.packetOps now d).foldl (TableOp.apply s.selfId s.selfApp) s.nodes := by
  unfold mainlineProcessPacket packetOps
  cases (Bencode.bencodeDecode d.data 0).1 with
  | none => rfl
  | some msg =>
    dsimp only
    cases msg.getText ['y'] with
    | none => rfl
    | some y =>
      dsimp only
      split_ifs
      · exact s.nodes_processReply now msg d.ip d.port
      · exact s.nodes_processQuery now msg d.ip d.port C
      · rfl

end MainlineState

inductive TableEvent
  | packet (now : ℤ) (d : Datagram)
  | op (op : TableOp)

namespace TableEvent

def ops (s : MainlineState) : TableEvent → List TableOp
  | packet now d => s.packetOps now d
  | .op o => [o]

variable (C : DhtCrypto)

def step (s : MainlineState) : TableEvent → MainlineState
  | packet now d => mainlineProcessPacket C now d s
  | .op o => { s with nodes := o.apply s.selfId s.selfApp s.nodes }

def system : System MainlineState TableEvent where
  init s := s.nodes = []
  next s e s' := s' = e.step C s

theorem nodes_step (s : MainlineState) (e : TableEvent) :
    (e.step C s).nodes = (e.ops s).foldl (TableOp.apply s.selfId s.selfApp) s.nodes := by
  cases e with
  | packet now d => exact s.nodes_processPacket now C d
  | op o => rfl

theorem selfId_step (s : MainlineState) (e : TableEvent) : (e.step C s).selfId = s.selfId := by
  cases e with
  | packet now d =>
    obtain ⟨_, _, _, _, _, _, heq⟩ := MainlineState.processPacket_eq C now d s
    rw [step, heq]
  | op o => rfl

end TableEvent

/-- As long as no node moves to a full network, the table is within its bounds. -/
theorem table_bounded_of_allKeep {C : DhtCrypto} (run : Run (TableEvent.system C))
    (h : ∀ k < run.len, TableOp.AllKeep (run.state k).selfId (run.state k).selfApp
      (run.state k).nodes ((run.event k).ops (run.state k))) :
    ∀ k ≤ run.len, TableBounded (run.state k).selfId (run.state k).nodes := by
  refine run.invariant (I := fun s => TableBounded s.selfId s.nodes) ?_ ?_
  · intro s hs
    rw [show s.nodes = [] from hs]
    exact TableBounded.nil _
  · intro k hk hbounded
    rw [run.steps k hk, TableEvent.nodes_step, TableEvent.selfId_step]
    exact hbounded.foldl _ (h k hk)

def addRun (adds : List (UInt8 × ℕ)) : Run (TableEvent.system toyCrypto) :=
  letI : Inhabited TableEvent := ⟨.op (.evict 0 0)⟩
  Run.ofTotal (fun s e => e.step toyCrypto s) (fun _ _ => rfl) { lonelyNode with nodes := [] } rfl
    (adds.map fun a => .op (.add 0 (.replicate 20 a.1) a.2 1))

theorem addRun_bounded : (addRun [(2, 257), (2, 258)]).len = 2 ∧
    ∀ k ≤ (addRun [(2, 257), (2, 258)]).len,
      TableBounded ((addRun [(2, 257), (2, 258)]).state k).selfId
        ((addRun [(2, 257), (2, 258)]).state k).nodes := by
  refine ⟨rfl, table_bounded_of_allKeep _ ?_⟩
  intro k hk
  have hlen : (addRun [(2, 257), (2, 258)]).len = 2 := rfl
  rw [hlen] at hk
  interval_cases k
  · refine ⟨?_, trivial⟩
    intro _ _ n hn
    cases hn
  · refine ⟨?_, trivial⟩
    intro _ _ n hn _
    cases mem_singleton.mp hn
    exact .inl rfl

def crowdedRun : Run (TableEvent.system toyCrypto) :=
  addRun [(2, 257), (3, 258), (4, 259), (5, 260), (6, 261), (7, 262), (8, 263), (9, 264), (10, 513),
    (10, 265)]

theorem crowdedRun_not_bounded : ¬ ∀ k ≤ crowdedRun.len,
    TableBounded (crowdedRun.state k).selfId (crowdedRun.state k).nodes := by
  intro h
  have hle := (h 10 le_rfl).subnet_le 257
  exact absurd hle (by decide)

end Norn
