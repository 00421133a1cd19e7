import Norn.Cluster.Wire
import Norn.Kv.Dispatch

/-!
# One node of the clustered store

The glue of `norn_cluster.c`: a consensus core and a key-value store behind a transport of frames
that knows members by their public keys.
-/

namespace Norn
open List

def frameFwd : UInt8 := 2

def idFor (pk : Bytes) : RaftNodeId :=
  let h := pk.foldl (fun h b => (h ^^^ b.toNat) * 1099511628211 % 2 ^ 64) 1469598103934665603
  if h = 0 then 1 else h

structure ClusterMember where
  pubkey : Bytes
  id : RaftNodeId
  deriving DecidableEq

/-- `leaderPub` is there if `have_leader` is set; `sent` has the frames with their destinations. -/
structure ClusterNode where
  self : Bytes
  raft : Raft
  kv : NornKv
  members : List ClusterMember
  leaderPub : Option Bytes
  sent : List (Bytes × Bytes)

namespace ClusterNode
variable (cl : ClusterNode)

def byPubkey (pk : Bytes) : Option ClusterMember :=
  cl.members.find? fun m => m.pubkey = pk

def byId (id : RaftNodeId) : Option ClusterMember :=
  cl.members.find? fun m => m.id = id

def raftSendCb (dest : RaftNodeId) (msg : RaftMsg) : ClusterNode :=
  match cl.byId dest, raftFrame msg with
  | some m, some frame => { cl with sent := cl.sent ++ [(m.pubkey, frame)] }
  | _, _ => cl

def raftApplyCb (entry : RaftEntry) : ClusterNode :=
  { cl with kv := (nornKvApply cl.kv entry.data).2.1 }

def runCallbacks (effects : List RaftEffect) : ClusterNode :=
  effects.foldl (fun cl effect =>
    match effect with
    | .send dest msg => cl.raftSendCb dest msg
    | .apply entry => cl.raftApplyCb entry) cl

def afterCall (out : Raft × List RaftEffect) : ClusterNode :=
  { cl with raft := out.1 }.runCallbacks out.2

def refreshLeader : ClusterNode :=
  { cl with leaderPub :=
      if cl.raft.leader = raftNoNode then none else (cl.byId cl.raft.leader).map ClusterMember.pubkey }

def nornClusterAddMember (pubkey : Bytes) (voter eligible : Bool) : Bool × ClusterNode :=
  if raftMaxNodes ≤ cl.members.length then (false, cl)
  else if (cl.byPubkey pubkey).isSome ∨ (cl.byId (idFor pubkey)).isSome then (false, cl)
  else
    let out := cl.raft.raftAddMember (idFor pubkey) (if voter then .voter else .learner) eligible
    if out.1 then
      (true, { cl with raft := out.2, members := cl.members ++ [⟨pubkey, idFor pubkey⟩] })
    else (false, { cl with raft := out.2 })

def nornClusterTick (nowMs : ℕ) : ClusterNode :=
  (cl.afterCall (cl.raft.raftTick nowMs)).refreshLeader

def nornClusterInput (fromPubkey data : Bytes) : ClusterNode :=
  match cl.byPubkey fromPubkey, data with
  | some src, kind :: data =>
    if kind = frameRaft then
      match decodeRaft data with
      | some (some msg) => (cl.afterCall (cl.raft.raftRecv src.id msg)).refreshLeader
      | _ => cl
    else if kind = frameFwd then
      if cl.raft.role = .leader then cl.afterCall (cl.raft.raftPropose data).2 else cl
    else cl
  | _, _ => cl

/-- The key-value calls propose to the node's own Raft core, or send a frame to the leader. -/
def host : KvHost ClusterNode where
  isLeader cl := cl.raft.role = .leader
  leaderPub := leaderPub
  propose cl cmd :=
    let out := cl.raft.raftPropose cmd
    (out.1 ≠ 0, cl.afterCall out.2)
  forward cl leader cmd := { cl with sent := cl.sent ++ [(leader, frameFwd :: cmd)] }

def nornClusterKvPut : ClusterNode → Bytes → Bytes → Bool × ClusterNode := host.nornClusterKvPut

def nornClusterKvDel : ClusterNode → Bytes → Bool × ClusterNode := host.nornClusterKvDel

def nornClusterKvCas : ClusterNode → Bytes → Bytes → Bytes → Bool × ClusterNode :=
  host.nornClusterKvCas

theorem raft_runCallbacks (effects : List RaftEffect) :
    (cl.runCallbacks effects).raft = cl.raft := by
  induction effects generalizing cl with
  | nil => rfl
  | cons effect effects ih =>
    refine (ih _).trans ?_
    cases effect with
    | send dest msg =>
      dsimp only
      unfold raftSendCb
      split <;> rfl
    | apply entry => rfl

theorem raft_afterCall (out : Raft × List RaftEffect) :
    (cl.afterCall out).raft = out.1 := raft_runCallbacks _ _

/-- A write finds room in the leader's own log, or a known leader. -/
def Ready : Prop :=
  cl.raft.role = .leader ∧ cl.raft.log.length < raftMaxLog ∨
    cl.raft.role ≠ .leader ∧ cl.leaderPub.isSome = true

/-- The command stands in the log of the leader, or in a frame to it. -/
def Carries (out : Bool × ClusterNode) (cmd : Bytes) : Prop :=
  out.1 = true ∧
    if cl.raft.role = .leader then
      out.2.raft.log = cl.raft.log ++ [⟨cl.raft.currentTerm, cl.raft.log.length + 1, .normal, cmd⟩]
    else ∃ leader ∈ cl.leaderPub, out.2.sent = cl.sent ++ [(leader, frameFwd :: cmd)]

theorem log_raftPropose {r : Raft} {data : List UInt8} (hrole : r.role = .leader)
    (hdata : data.length ≤ raftEntryMax) (hroom : r.log.length < raftMaxLog) :
    (r.raftPropose data).1 = r.log.length + 1 ∧ (r.raftPropose data).2.1.log =
        r.log ++ [⟨r.currentTerm, r.log.length + 1, .normal, data⟩] := by
  unfold Raft.raftPropose
  rw [if_neg (not_or.mpr ⟨not_not_intro hrole, by omega⟩), if_neg (by omega)]
  dsimp only
  rw [Raft.advanceCommit_fst]
  exact ⟨length_append, rfl⟩

variable {cl : ClusterNode} {cmd : Bytes}

theorem carries_kvSubmit (hready : cl.Ready) (hpos : 0 < cmd.length)
    (hlen : cmd.length ≤ raftEntryMax) : cl.Carries (host.kvSubmit cl cmd) cmd := by
  have hne : cmd.length ≠ 0 := by omega
  unfold Carries
  rcases hready with ⟨hrole, hroom⟩ | ⟨hrole, hleader⟩
  · obtain ⟨hindex, hlog⟩ := log_raftPropose hrole hlen hroom
    rw [KvHost.kvSubmit_leader hne (decide_eq_true hrole), if_pos hrole]
    dsimp only [host]
    rw [raft_afterCall, hindex]
    exact ⟨rfl, hlog⟩
  · obtain ⟨leader, hleader⟩ := Option.isSome_iff_exists.mp hleader
    rw [KvHost.kvSubmit_follower hne (decide_eq_false hrole), if_neg hrole]
    dsimp only [host]
    rw [hleader]
    exact ⟨rfl, leader, rfl, rfl⟩

theorem carries_iff (hready : cl.Ready) {c : KvCommand} (hc : c.Valid) :
    cl.Carries (host.submitEncoded cl (c.encode cmdMax)) c.bytes ↔ c.bytes.length ≤ cmdMax := by
  constructor
  · intro h
    cases hcmd : c.encode cmdMax with
    | none =>
      rw [hcmd] at h
      exact absurd h.1 Bool.false_ne_true
    | some cmd => exact ((c.encode_eq cmdMax cmd).mp hcmd).2.1
  · intro h
    rw [(c.encode_eq cmdMax c.bytes).mpr ⟨hc, h, rfl⟩]
    refine carries_kvSubmit hready ?_ (h.trans (by decide))
    unfold KvCommand.bytes
    exact Nat.succ_pos _

/-- All three are carried exactly if the parts of the compare-and-set have at most 393 bytes. -/
theorem kv_proposable_iff {cl : ClusterNode} (hready : cl.Ready) {key expect val : Bytes}
    (hpos : 1 ≤ key.length) (hkey : key.length ≤ nornKvMaxKey)
    (hexpect : expect.length ≤ nornKvMaxVal) (hval : val.length ≤ nornKvMaxVal) :
    (cl.Carries (cl.nornClusterKvPut key val) (KvCommand.put key val).bytes ∧
      cl.Carries (cl.nornClusterKvDel key) (KvCommand.del key).bytes ∧
      cl.Carries (cl.nornClusterKvCas key expect val) (KvCommand.cas key expect val).bytes) ↔
    key.length + expect.length + val.length ≤ 393 := by
  have hput : (KvCommand.put key val).Valid := ⟨hpos, hkey, forall_mem_singleton.mpr hval⟩
  have hdel : (KvCommand.del key).Valid := ⟨hpos, hkey, forall_mem_nil _⟩
  have hcas : (KvCommand.cas key expect val).Valid :=
    ⟨hpos, hkey, forall_mem_cons.mpr ⟨hexpect, forall_mem_singleton.mpr hval⟩⟩
  have hlens : (KvCommand.put key val).bytes.length = key.length + val.length + 5 ∧
      (KvCommand.del key).bytes.length = key.length + 3 ∧
      (KvCommand.cas key expect val).bytes.length =
        key.length + expect.length + val.length + 7 := by
    simp only [KvCommand.length_bytes, KvCommand.key, KvCommand.values, map_cons, map_nil,
      sum_cons, sum_nil]
    omega
  have hmax : cmdMax = 400 := rfl
  change (cl.Carries (host.submitEncoded cl ((KvCommand.put key val).encode cmdMax)) _ ∧
    cl.Carries (host.submitEncoded cl ((KvCommand.del key).encode cmdMax)) _ ∧
    cl.Carries (host.submitEncoded cl ((KvCommand.cas key expect val).encode cmdMax)) _) ↔ _
  rw [carries_iff hready hput, carries_iff hready hdel, carries_iff hready hcas]
  unfold nornKvMaxKey at hkey
  unfold nornKvMaxVal at hval
  omega

def proposingNode : ClusterNode :=
  ⟨[1], beatingLeader, ⟨[], 0, []⟩, [⟨[1], 1⟩, ⟨[2], 2⟩], some [1], []⟩

theorem proposingNode_proposable :
    proposingNode.Carries (proposingNode.nornClusterKvPut [5] [6]) (KvCommand.put [5] [6]).bytes ∧
      proposingNode.Carries (proposingNode.nornClusterKvDel [5]) (KvCommand.del [5]).bytes ∧
      proposingNode.Carries (proposingNode.nornClusterKvCas [5] [] [6])
        (KvCommand.cas [5] [] [6]).bytes :=
  (kv_proposable_iff (.inl ⟨rfl, by decide⟩) (by decide) (by decide) (by decide) (by decide)).mpr
    (by decide)

theorem proposingNode_cas_refused :
    proposingNode.Ready ∧
      (proposingNode.nornClusterKvCas (.replicate 128 5) (.replicate 256 6) (.replicate 256 7)).1 =
        false :=
  ⟨.inl ⟨rfl, by decide⟩, by decide +kernel⟩

end ClusterNode
end Norn
