import Norn.Lib.Compact
import Norn.Dht.Bencode

/-!
# The routing table

The nodes that a DHT node knows (`norn.c`). Addresses and ports are numbers whose bytes, most
significant first, are what the source keeps in network order.
-/

namespace Norn
open List Option

def mainlineMaxNodes : ℕ := 1024
def mainlineMaxPerSubnet : ℕ := 8

/-- A public key that is not known is `none`. -/
structure MainlineNode where
  id : Bytes
  ip : ℕ
  port : ℕ
  lastSeen : ℤ
  pv : Bytes
  app : Bytes
  isPreferred : Bool
  pubkey : Option Bytes
  deriving DecidableEq

namespace NodeTable

def oldestFrom (p : MainlineNode → Bool) : Option (ℕ × ℤ) → ℕ → List MainlineNode → Option ℕ
  | best, _, [] => best.map Prod.fst
  | best, i, n :: nodes =>
    if p n ∧ best.all (fun b => decide (n.lastSeen < b.2)) then
      oldestFrom p (some (i, n.lastSeen)) (i + 1) nodes
    else oldestFrom p best (i + 1) nodes

def evictOldest (p : MainlineNode → Bool) (nodes : List MainlineNode) :
    Option (List MainlineNode) :=
  (oldestFrom p none 0 nodes).map (Compact.swapRemove nodes)

def sameSubnet (ip : ℕ) (n : MainlineNode) : Bool := n.ip / 256 = ip / 256

def roomInSubnet (ip : ℕ) (nodes : List MainlineNode) : Option (List MainlineNode) :=
  if mainlineMaxPerSubnet ≤ nodes.countP (sameSubnet ip) then
    evictOldest (fun n => sameSubnet ip n && !n.isPreferred) nodes
  else some nodes

def roomInTable (nodes : List MainlineNode) : Option (List MainlineNode) :=
  if mainlineMaxNodes ≤ nodes.length then evictOldest (fun n => !n.isPreferred) nodes
  else some nodes

end NodeTable

section
variable (selfId : Bytes) (now : ℤ)

def mainlineAddNode (id : Bytes) (ip port : ℕ) (nodes : List MainlineNode) :
    ℤ × List MainlineNode :=
  if ip = 0 ∨ port = 0 then (-1, nodes)
  else if id = selfId then (-1, nodes)
  else if nodes.any fun n => n.id = id then
    (0, nodes.modify (nodes.findIdx fun n => n.id = id)
      fun n => { n with ip := ip, port := port, lastSeen := now })
  else
    match NodeTable.roomInSubnet ip nodes with
    | none => (-1, nodes)
    | some nodes =>
      match NodeTable.roomInTable nodes with
      | none => (-1, nodes)
      | some nodes => (1, nodes ++ [⟨id, ip, port, now, [], [], false, none⟩])

end

def MainlineNode.update (selfApp pv app : Bytes) (pubkey : Option Bytes) (n : MainlineNode) :
    MainlineNode :=
  let n := { n with
    pv := if pv = [] then n.pv else pv.take 7
    app := if app = [] then n.app else app.take 23
    pubkey := if pubkey.isSome then pubkey else n.pubkey }
  { n with
    isPreferred := n.pv ≠ [] ∨ n.pubkey.isSome ∨ (selfApp ≠ [] ∧ n.app ≠ [] ∧ n.app = selfApp) }

def mainlineUpdateNodeInfo (selfApp id pv app : Bytes) (pubkey : Option Bytes)
    (nodes : List MainlineNode) : List MainlineNode :=
  nodes.modify (nodes.findIdx fun n => n.id = id) (.update selfApp pv app pubkey)

def nornRoutingPubkey (nodeId : Bytes) (nodes : List MainlineNode) : Option Bytes :=
  (nodes.find? fun n => n.id = nodeId).bind MainlineNode.pubkey

def NodeTable.stale (now maxAge : ℤ) (n : MainlineNode) : Bool := maxAge < now - n.lastSeen

def NodeTable.evictLoop (now maxAge : ℤ) (count : ℕ) : ℕ → ℕ → ℕ → ℕ → List MainlineNode →
    ℕ × ℕ × List MainlineNode
  | 0, _, kept, evicted, nodes => (kept, evicted, nodes)
  | rounds + 1, i, kept, evicted, nodes =>
    match nodes[i]? with
    | none => (kept, evicted, nodes)
    | some n =>
      let other := (range count).any fun j =>
        j ≠ i && (nodes[j]?).any fun m => stale now maxAge m && !m.isPreferred
      if stale now maxAge n && !(n.isPreferred && other) then
        evictLoop now maxAge count rounds (i + 1) kept (evicted + 1) nodes
      else evictLoop now maxAge count rounds (i + 1) (kept + 1) evicted (nodes.set kept n)

def mainlineEvictStale (now maxAge : ℤ) (nodes : List MainlineNode) : List MainlineNode :=
  let out := NodeTable.evictLoop now maxAge nodes.length nodes.length 0 0 0 nodes
  out.2.2.take out.1

/-- What `mainline_evict_stale` returns. -/
def mainlineEvictStaleCount (now maxAge : ℤ) (nodes : List MainlineNode) : ℕ :=
  (NodeTable.evictLoop now maxAge nodes.length nodes.length 0 0 0 nodes).2.1

def mainlineLoadNodes (selfId : Bytes) (now : ℤ) :
    List (Bytes × ℕ × ℕ) → List MainlineNode → List MainlineNode
  | [], nodes => nodes
  | (id, ip, port) :: records, nodes =>
    if nodes.length < mainlineMaxNodes then
      mainlineLoadNodes selfId now records (mainlineAddNode selfId now id ip port nodes).2
    else nodes

namespace NodeTable
variable {p : MainlineNode → Bool} {nodes nodes' : List MainlineNode} {n : MainlineNode}

theorem oldestFrom_spec {best : Option (ℕ × ℤ)} (front : List MainlineNode)
    (hbest : ∀ b ∈ best, ∃ n, front[b.1]? = some n ∧ p n = true) {k : ℕ}
    (h : oldestFrom p best front.length nodes = some k) :
    ∃ n, (front ++ nodes)[k]? = some n ∧ p n = true := by
  induction nodes generalizing best front with
  | nil =>
    obtain ⟨b, hb, rfl⟩ := Option.map_eq_some_iff.mp h
    rw [List.append_nil]
    exact hbest b hb
  | cons n nodes ih =>
    have hlift : ∀ b ∈ best, ∃ m, (front ++ [n])[b.1]? = some m ∧ p m = true := by
      intro b hb
      obtain ⟨m, hm, hp⟩ := hbest b hb
      exact ⟨m, List.getElem?_append_left (List.getElem?_eq_some_iff.mp hm).1 ▸ hm, hp⟩
    rw [oldestFrom] at h
    rw [List.append_cons]
    have hlen : (front ++ [n]).length = front.length + 1 := List.length_append
    split_ifs at h with hp
    · refine ih _ ?_ (hlen ▸ h)
      rintro b ⟨⟩
      exact ⟨n, List.getElem?_concat_length, hp.1⟩
    · exact ih _ hlift (hlen ▸ h)

theorem evictOldest_perm (h : evictOldest p nodes = some nodes') :
    ∃ n, p n = true ∧ nodes.Perm (n :: nodes') := by
  obtain ⟨k, hk, rfl⟩ := map_eq_some_iff.mp h
  obtain ⟨n, hn, hp⟩ := oldestFrom_spec [] (by rintro b ⟨⟩) hk
  exact ⟨n, hp, (Compact.perm_cons_swapRemove hn).1⟩

theorem mem_of_roomInSubnet {ip : ℕ} (h : roomInSubnet ip nodes = some nodes') (hn : n ∈ nodes') :
    n ∈ nodes := by
  unfold roomInSubnet at h
  split_ifs at h
  · obtain ⟨m, -, hperm⟩ := evictOldest_perm h
    exact hperm.mem_iff.mpr (mem_cons_of_mem m hn)
  · exact some.inj h ▸ hn

theorem mem_of_roomInTable (h : roomInTable nodes = some nodes') (hn : n ∈ nodes') : n ∈ nodes := by
  unfold roomInTable at h
  split_ifs at h
  · obtain ⟨m, -, hperm⟩ := evictOldest_perm h
    exact hperm.mem_iff.mpr (mem_cons_of_mem m hn)
  · exact some.inj h ▸ hn

end NodeTable
end Norn
