import Norn.Cluster.Node
import Norn.Raft.OwnRecord

/-!
# Calls at a node of the clustered store

A public call of `norn_cluster.c` makes at most one of the core. Both keep a table of the members.
-/

namespace Norn
open Option

/-- `votes` is what the class of the node says; `electionEligible` is there if the flag is forced. -/
structure ClusterConfig where
  votes : Bool
  electionEligible : Option Bool
  maxKvEntries : ℕ
  timing : RaftConfig

inductive ClusterCall
  | addMember (pubkey : Bytes) (voter eligible : Bool)
  | promote (pubkey : Bytes)
  | remove (pubkey : Bytes)
  | tick (nowMs : ℕ)
  | input (fromPubkey data : Bytes)
  | kvPut (key val : Bytes)
  | kvDel (key : Bytes)
  | kvCas (key expect val : Bytes)

def nornClusterNew (selfPubkey : Bytes) (cfg : Option ClusterConfig) : Option ClusterNode :=
  let maxKv := cfg.elim 256 fun c => if c.maxKvEntries = 0 then 256 else c.maxKvEntries
  (nornKvNew maxKv).bind fun kv =>
    (Raft.raftNew (idFor selfPubkey) (cfg.map ClusterConfig.timing)).map fun raft =>
      let votes := cfg.elim true ClusterConfig.votes
      let eligible := (cfg.bind ClusterConfig.electionEligible).getD votes
      let role := if votes then RaftMemberRole.voter else .learner
      { self := selfPubkey, kv := kv, leaderPub := none, sent := []
        raft := (raft.raftAddMember (idFor selfPubkey) role eligible).2
        members := [⟨selfPubkey, idFor selfPubkey⟩] }

namespace ClusterNode
variable (cl : ClusterNode)

def nornClusterPromote (pubkey : Bytes) : Bool × ClusterNode :=
  match cl.byPubkey pubkey with
  | none => (false, cl)
  | some m => ((cl.raft.raftPromote m.id).1, { cl with raft := (cl.raft.raftPromote m.id).2 })

def nornClusterRemove (pubkey : Bytes) : Bool × ClusterNode :=
  match cl.byPubkey pubkey with
  | none => (false, cl)
  | some m =>
    -- what `raft_remove_member` returns is not looked at
    (true, { cl with
      raft := (cl.raft.raftRemoveMember m.id).2, members := swapRemove cl.members m })

def call : ClusterCall → ClusterNode
  | .addMember pubkey voter eligible => (cl.nornClusterAddMember pubkey voter eligible).2
  | .promote pubkey => (cl.nornClusterPromote pubkey).2
  | .remove pubkey => (cl.nornClusterRemove pubkey).2
  | .tick nowMs => cl.nornClusterTick nowMs
  | .input fromPubkey data => cl.nornClusterInput fromPubkey data
  | .kvPut key val => (cl.nornClusterKvPut key val).2
  | .kvDel key => (cl.nornClusterKvDel key).2
  | .kvCas key expect val => (cl.nornClusterKvCas key expect val).2

def submitCall (cmd : Option Bytes) : Option RaftCall :=
  cmd.bind fun cmd => if cmd.length ≠ 0 ∧ cl.raft.role = .leader then some (.propose cmd) else none

def inputCall (fromPubkey data : Bytes) : Option RaftCall :=
  match cl.byPubkey fromPubkey, data with
  | some src, kind :: data =>
    if kind = frameRaft then
      match decodeRaft data with
      | some (some msg) => some (.recv src.id msg)
      | _ => none
    else if kind = frameFwd ∧ cl.raft.role = .leader then some (.propose data)
    else none
  | _, _ => none

def raftCall : ClusterCall → Option RaftCall
  | .addMember pubkey voter eligible =>
    if raftMaxNodes ≤ cl.members.length ∨ (cl.byPubkey pubkey).isSome ∨
      (cl.byId (idFor pubkey)).isSome then none
    else some (.addMember (idFor pubkey) (if voter then .voter else .learner) eligible)
  | .promote pubkey => (cl.byPubkey pubkey).map fun m => .promote m.id
  | .remove pubkey => (cl.byPubkey pubkey).map fun m => .removeMember m.id
  | .tick nowMs => some (.tick nowMs)
  | .input fromPubkey data => cl.inputCall fromPubkey data
  | .kvPut key val => cl.submitCall (nornKvEncodePut cmdMax key val)
  | .kvDel key => cl.submitCall (nornKvEncodeDel cmdMax key)
  | .kvCas key expect val => cl.submitCall (nornKvEncodeCas cmdMax key expect val)

def afterRaftCall (r : Raft) (c : Option RaftCall) : Raft := c.elim r fun c => (r.call c).1

theorem raft_submitEncoded (cmd : Option Bytes) :
    (host.submitEncoded cl cmd).2.raft = afterRaftCall cl.raft (cl.submitCall cmd) := by
  cases cmd with
  | none => rfl
  | some cmd =>
    simp only [KvHost.submitEncoded, submitCall, bind_some]
    by_cases hlen : cmd.length = 0
    · rw [KvHost.kvSubmit, if_pos hlen, if_neg fun h => h.1 hlen]
      rfl
    · by_cases hlead : cl.raft.role = .leader
      · rw [KvHost.kvSubmit_leader hlen (decide_eq_true hlead), if_pos ⟨hlen, hlead⟩]
        exact cl.raft_afterCall _
      · rw [KvHost.kvSubmit_follower hlen (decide_eq_false hlead), if_neg fun h => hlead h.2]
        dsimp only [host]
        cases cl.leaderPub <;> rfl

theorem raft_nornClusterInput (fromPubkey data : Bytes) :
    (cl.nornClusterInput fromPubkey data).raft =
      afterRaftCall cl.raft (cl.inputCall fromPubkey data) := by
  unfold nornClusterInput inputCall
  cases cl.byPubkey fromPubkey with
  | none => rfl
  | some src =>
    cases data with
    | nil => rfl
    | cons kind data =>
      simp only
      by_cases hraft : kind = frameRaft
      · rw [if_pos hraft, if_pos hraft]
        cases decodeRaft data with
        | none => rfl
        | some msg =>
          cases msg with
          | none => rfl
          | some msg => exact cl.raft_afterCall _
      · rw [if_neg hraft, if_neg hraft]
        by_cases hfwd : kind = frameFwd
        · rw [if_pos hfwd]
          by_cases hlead : cl.raft.role = .leader
          · rw [if_pos hlead, if_pos ⟨hfwd, hlead⟩]
            exact cl.raft_afterCall _
          · rw [if_neg hlead, if_neg fun h => hlead h.2]
            rfl
        · rw [if_neg hfwd, if_neg fun h => hfwd h.1]
          rfl

theorem raft_nornClusterAddMember (pubkey : Bytes) (voter eligible : Bool) :
    (cl.nornClusterAddMember pubkey voter eligible).2.raft =
      afterRaftCall cl.raft (cl.raftCall (.addMember pubkey voter eligible)) := by
  rw [nornClusterAddMember, raftCall]
  by_cases hfull : raftMaxNodes ≤ cl.members.length
  · rw [if_pos hfull, if_pos (.inl hfull)]
    rfl
  by_cases hknown : (cl.byPubkey pubkey).isSome ∨ (cl.byId (idFor pubkey)).isSome
  · rw [if_neg hfull, if_pos hknown, if_pos (.inr hknown)]
    rfl
  have hnew : ¬ (raftMaxNodes ≤ cl.members.length ∨ (cl.byPubkey pubkey).isSome ∨
      (cl.byId (idFor pubkey)).isSome) := not_or.mpr ⟨hfull, hknown⟩
  rw [if_neg hfull, if_neg hknown, if_neg hnew, afterRaftCall, elim_some, Raft.call]
  dsimp only
  split_ifs <;> rfl

theorem raft_call (c : ClusterCall) : (cl.call c).raft = afterRaftCall cl.raft (cl.raftCall c) := by
  cases c with
  | addMember pubkey voter eligible => exact cl.raft_nornClusterAddMember pubkey voter eligible
  | promote pubkey =>
    simp only [call, nornClusterPromote, raftCall]
    cases cl.byPubkey pubkey <;> rfl
  | remove pubkey =>
    simp only [call, nornClusterRemove, raftCall]
    cases cl.byPubkey pubkey <;> rfl
  | tick nowMs => exact cl.raft_afterCall _
  | input fromPubkey data => exact cl.raft_nornClusterInput fromPubkey data
  | kvPut key val | kvDel key | kvCas key expect val => exact cl.raft_submitEncoded _

end ClusterNode

structure WatchedCluster where
  node : ClusterNode
  orphaned : Bool

namespace WatchedCluster
variable (w : WatchedCluster)

def core : Watched := ⟨w.node.raft, w.orphaned⟩

def apply : Transducer WatchedCluster ClusterCall Empty := fun w c =>
  let node := w.node.call c
  (⟨{ node with raft := node.raft.wrap },
    (w.node.raftCall c).elim w.orphaned fun rc => w.core.note (w.node.raft.call rc).1 rc⟩, [])

/-- The core calls behind a call find the node's own record. -/
def Found (c : ClusterCall) : Prop :=
  ∀ rc ∈ w.node.raftCall c, w.core.Found rc

def Steady (c : ClusterCall) : Prop :=
  ∀ rc ∈ w.node.raftCall c, w.core.Steady rc

instance (w : WatchedCluster) (c : ClusterCall) : Decidable (w.Found c) :=
  decidable_of_iff ((w.node.raftCall c).all fun rc => w.core.Found rc)
    (by simp [Found, all_eq_true])

instance (w : WatchedCluster) (c : ClusterCall) : Decidable (w.Steady c) :=
  decidable_of_iff ((w.node.raftCall c).all fun rc => w.core.Steady rc)
    (by simp [Steady, all_eq_true])

theorem noted_nornClusterNew {selfPubkey : Bytes} {cfg : Option ClusterConfig} {cl : ClusterNode}
    (h : nornClusterNew selfPubkey cfg = some cl) : (core ⟨cl, false⟩).Noted := by
  simp only [nornClusterNew, bind_eq_some_iff, map_eq_some_iff] at h
  obtain ⟨kv, _, r, hr, rfl⟩ := h
  have hadd := (Watched.noted_raftNew hr).addMember (idFor selfPubkey)
    (if cfg.elim true ClusterConfig.votes then .voter else .learner)
    ((cfg.bind ClusterConfig.electionEligible).getD (cfg.elim true ClusterConfig.votes))
  rw [Watched.note, Bool.false_and, Bool.and_false] at hadd
  exact hadd

theorem noted_apply {w : WatchedCluster} (h : w.core.Noted) (c : ClusterCall) :
    (apply w c).1.core.Noted := by
  have hraft := w.node.raft_call c
  simp only [core, apply, hraft, ClusterNode.afterRaftCall]
  cases w.node.raftCall c with
  | none => exact h.wrap
  | some rc => exact (h.call rc).wrap

end WatchedCluster

/-- The own record is found in all calls exactly if no orphaned node proposes or wins. -/
theorem own_record_found_iff {self : RaftNodeId} {cfg : Option RaftConfig} {r : Raft}
    (hr : Raft.raftNew self cfg = some r) {selfPubkey : Bytes} {clusterCfg : Option ClusterConfig}
    {cl : ClusterNode} (hcl : nornClusterNew selfPubkey clusterCfg = some cl)
    (calls : List RaftCall) (clusterCalls : List ClusterCall) :
    (Watched.apply.Along Watched.Found ⟨r, false⟩ calls ↔
      Watched.apply.Along Watched.Steady ⟨r, false⟩ calls) ∧
    (WatchedCluster.apply.Along WatchedCluster.Found ⟨cl, false⟩ clusterCalls ↔
      WatchedCluster.apply.Along WatchedCluster.Steady ⟨cl, false⟩ clusterCalls) := by
  refine ⟨?_, ?_⟩
  · exact Transducer.along_iff (I := Watched.Noted) (fun h => h.found_iff _)
      (fun h _ => h.next _) (Watched.noted_raftNew hr) calls
  · refine Transducer.along_iff (I := fun w => w.core.Noted) (fun h => ?_)
      (fun h _ => WatchedCluster.noted_apply h _) (WatchedCluster.noted_nornClusterNew hcl)
      clusterCalls
    exact forall₂_congr fun rc _ => h.found_iff rc

def loneKey : Bytes := List.replicate 32 7

def smallStore : ClusterConfig := ⟨true, none, 1, ⟨0, 0, 0⟩⟩

def loneRaft : Raft := (Raft.raftNew 1 none).get (by decide)

def loneNode : ClusterNode := (nornClusterNew loneKey (some smallStore)).get (by decide +kernel)

theorem raftNew_loneRaft : Raft.raftNew 1 none = some loneRaft := (some_get _).symm

theorem nornClusterNew_loneNode : nornClusterNew loneKey (some smallStore) = some loneNode :=
  (some_get _).symm

def removedLeader : List RaftCall :=
  [.addMember 1 .voter true, .tick 1000, .removeMember 1, .propose []]

def removedLeaderCluster : List ClusterCall :=
  [.tick 1000, .remove loneKey, .kvPut [1] [2]]

theorem removedLeader_not_found :
    (Raft.raftNew 1 none = some loneRaft ∧
      ¬ Watched.apply.Along Watched.Found ⟨loneRaft, false⟩ removedLeader) ∧
    (nornClusterNew loneKey (some smallStore) = some loneNode ∧
      ¬ WatchedCluster.apply.Along WatchedCluster.Found ⟨loneNode, false⟩ removedLeaderCluster) :=
  ⟨⟨raftNew_loneRaft, by decide +kernel⟩, ⟨nornClusterNew_loneNode, by decide +kernel⟩⟩

theorem loneLeader_found :
    Watched.apply.Along Watched.Found ⟨loneRaft, false⟩
      [.addMember 1 .voter true, .tick 1000, .propose []] ∧
    WatchedCluster.apply.Along WatchedCluster.Found ⟨loneNode, false⟩
      [.tick 1000, .kvPut [1] [2]] := by
  obtain ⟨hraft, hcluster⟩ := own_record_found_iff raftNew_loneRaft nornClusterNew_loneNode
    [.addMember 1 .voter true, .tick 1000, .propose []] [.tick 1000, .kvPut [1] [2]]
  exact ⟨hraft.mpr (by decide +kernel), hcluster.mpr (by decide +kernel)⟩

open List
namespace Raft
variable (r : Raft) (id : RaftNodeId)

abbrev ids : List RaftNodeId := r.members.map RaftMember.id

theorem findMember_isSome_iff : (r.findMember id).isSome ↔ id ∈ r.ids := by
  rw [findMember, find?_isSome, List.mem_map]
  simp

theorem ids_raftRemoveMember {id : RaftNodeId} (h : id ∈ r.ids) :
    (r.raftRemoveMember id).2.ids.Perm (r.ids.erase id) := by
  obtain ⟨m, hfind⟩ := isSome_iff_exists.mp ((r.findMember_isSome_iff id).mpr h)
  obtain ⟨hm, rfl⟩ := r.mem_of_findMember hfind
  rw [raftRemoveMember, hfind]
  exact map_swapRemove_perm RaftMember.id hm

theorem raftPromote_cases : r.raftPromote id = (false, r) ∨
    ∃ r', r.raftPromote id = (true, r') ∧ r'.seat = r.seat := by
  unfold raftPromote
  split
  · exact .inl rfl
  · split_ifs
    · exact .inl rfl
    · exact .inr ⟨_, rfl, r.seat_updateMember id fun _ => rfl⟩

theorem ids_raftAddMember_first {r : Raft} {id : RaftNodeId} (hr : r.members = [])
    (hid : id ≠ raftNoNode) (role : RaftMemberRole) (eligible : Bool) :
    (r.raftAddMember id role eligible).2.ids = [id] := by
  have hroom : ¬ (id = raftNoNode ∨ raftMaxNodes ≤ r.members.length) := by
    rw [hr]
    exact not_or.mpr ⟨hid, by decide⟩
  rw [raftAddMember, if_neg hroom, findMember, hr]
  rfl

end Raft

inductive MemberCall
  | bootstrap (peers : List Bytes)
  | add (pubkey : Bytes) (voter eligible : Bool)
  | promote (pubkey : Bytes)
  | remove (pubkey : Bytes)

namespace ClusterNode
variable (cl : ClusterNode)

abbrev ids : List RaftNodeId := cl.members.map ClusterMember.id

def nornClusterBootstrap (cl : ClusterNode) : List Bytes → Bool × ClusterNode
  | [] => (true, cl)
  | pubkey :: peers =>
    let out := cl.nornClusterAddMember pubkey true true
    if out.1 then out.2.nornClusterBootstrap peers else (false, out.2)

def memberCall : MemberCall → Bool × ClusterNode
  | .bootstrap peers => cl.nornClusterBootstrap peers
  | .add pubkey voter eligible => cl.nornClusterAddMember pubkey voter eligible
  | .promote pubkey => cl.nornClusterPromote pubkey
  | .remove pubkey => cl.nornClusterRemove pubkey

def afterCalls (calls : List MemberCall) : ClusterNode :=
  calls.foldl (fun cl c => (cl.memberCall c).2) cl

/-- The node and its core list the same members. -/
structure InStep : Prop where
  perm : cl.ids.Perm cl.raft.ids
  nodup : cl.raft.ids.Nodup

/-- A call that fails changes nothing, and one that succeeds keeps the tables in step. -/
def Clean (out : Bool × ClusterNode) : Prop :=
  out = (false, cl) ∨ out.1 = true ∧ (cl.InStep → out.2.InStep)

variable {cl}

theorem Clean.inStep {out : Bool × ClusterNode} (h : cl.Clean out) (hcl : cl.InStep) :
    out.2.InStep := by
  obtain rfl | ⟨-, hkeeps⟩ := h
  · exact hcl
  · exact hkeeps hcl

theorem Clean.eq_of_failed {out : Bool × ClusterNode} (h : cl.Clean out) (hfail : out.1 = false) :
    out.2 = cl := by
  obtain rfl | ⟨hok, -⟩ := h
  · rfl
  · rw [hok] at hfail
    cases hfail

variable (cl) (pubkey : Bytes)

theorem clean_nornClusterAddMember (voter eligible : Bool) :
    cl.Clean (cl.nornClusterAddMember pubkey voter eligible) := by
  unfold nornClusterAddMember
  split
  · exact .inl rfl
  split
  · exact .inl rfl
  obtain hno | ⟨hnew, hadd⟩ := cl.raft.raftAddMember_cases (idFor pubkey)
    (if voter then .voter else .learner) eligible
  · rw [hno]
    exact .inl rfl
  · have hfresh : idFor pubkey ∉ cl.raft.ids := fun hmem => by
      simpa [hnew] using (cl.raft.findMember_isSome_iff _).mpr hmem
    rw [hadd]
    refine .inr ⟨rfl, fun h => ⟨?_, ?_⟩⟩
    · change ((cl.members ++ [_]).map _).Perm ((cl.raft.members ++ [_]).map _)
      rw [map_append, map_append]
      exact h.perm.append_right _
    · change ((cl.raft.members ++ [_]).map _).Nodup
      rw [map_append, map_singleton, ← concat_eq_append]
      exact h.nodup.concat hfresh

theorem clean_nornClusterPromote : cl.Clean (cl.nornClusterPromote pubkey) := by
  unfold nornClusterPromote
  split
  · exact .inl rfl
  · rename_i m hm
    obtain hno | ⟨r', hok, hseat⟩ := cl.raft.raftPromote_cases m.id
    · rw [hno]
      exact .inl rfl
    · have hids : r'.ids = cl.raft.ids := congrArg Prod.snd hseat
      rw [hok]
      exact .inr ⟨rfl, fun h => ⟨hids ▸ h.perm, hids ▸ h.nodup⟩⟩

theorem clean_nornClusterRemove : cl.Clean (cl.nornClusterRemove pubkey) := by
  unfold nornClusterRemove
  split
  · exact .inl rfl
  · rename_i m hm
    refine .inr ⟨rfl, fun h => ?_⟩
    have hmem := mem_of_find?_eq_some hm
    have hids := cl.raft.ids_raftRemoveMember (h.perm.mem_iff.mp (mem_map_of_mem hmem))
    refine ⟨?_, hids.nodup_iff.mpr (h.nodup.erase _)⟩
    exact (map_swapRemove_perm _ hmem).trans ((h.perm.erase _).trans hids.symm)

variable {cl}

theorem InStep.nornClusterBootstrap (h : cl.InStep) (peers : List Bytes) : (cl.nornClusterBootstrap peers).2.InStep := by
  induction peers generalizing cl with
  | nil => exact h
  | cons pubkey peers ih =>
    have hadd := (cl.clean_nornClusterAddMember pubkey true true).inStep h
    rw [ClusterNode.nornClusterBootstrap]
    split_ifs
    · exact ih hadd
    · exact hadd

theorem InStep.memberCall (h : cl.InStep) (c : MemberCall) : (cl.memberCall c).2.InStep := by
  cases c with
  | bootstrap peers => exact h.nornClusterBootstrap peers
  | add pubkey voter eligible => exact (cl.clean_nornClusterAddMember pubkey voter eligible).inStep h
  | promote pubkey => exact (cl.clean_nornClusterPromote pubkey).inStep h
  | remove pubkey => exact (cl.clean_nornClusterRemove pubkey).inStep h

theorem InStep.afterCalls (h : cl.InStep) (calls : List MemberCall) : (cl.afterCalls calls).InStep := by
  induction calls generalizing cl with
  | nil => exact h
  | cons c calls ih => exact ih (h.memberCall c)

theorem inStep_nornClusterNew {selfPubkey : Bytes} {cfg : Option ClusterConfig}
    (h : nornClusterNew selfPubkey cfg = some cl) : cl.InStep := by
  simp only [nornClusterNew, bind_eq_some_iff, map_eq_some_iff] at h
  obtain ⟨kv, -, r, hr, rfl⟩ := h
  have hfirst : r.members = [] ∧ idFor selfPubkey ≠ raftNoNode := by
    unfold Raft.raftNew at hr
    split_ifs at hr with hself
    cases hr
    exact ⟨rfl, hself⟩
  have hids := Raft.ids_raftAddMember_first hfirst.1 hfirst.2
  exact ⟨by rw [hids]; rfl, by rw [hids]; exact nodup_singleton _⟩

/-- The tables stay in step, and a call that fails changes nothing, a bootstrap apart. -/
theorem members_in_step {selfPubkey : Bytes} {cfg : Option ClusterConfig}
    (h : nornClusterNew selfPubkey cfg = some cl) (calls : List MemberCall) :
    (∀ id, id ∈ (cl.afterCalls calls).ids ↔ id ∈ (cl.afterCalls calls).raft.ids) ∧
    (cl.afterCalls calls).ids.Nodup ∧ (cl.afterCalls calls).raft.ids.Nodup ∧
    ∀ c, (∀ peers, c ≠ .bootstrap peers) → ((cl.afterCalls calls).memberCall c).1 = false →
      ((cl.afterCalls calls).memberCall c).2 = cl.afterCalls calls := by
  obtain ⟨hperm, hnodup⟩ := (inStep_nornClusterNew h).afterCalls calls
  refine ⟨fun id => hperm.mem_iff, hperm.nodup_iff.mpr hnodup, hnodup, fun c hc => ?_⟩
  cases c with
  | bootstrap peers => exact absurd rfl (hc peers)
  | add pubkey voter eligible => exact (clean_nornClusterAddMember _ pubkey voter eligible).eq_of_failed
  | promote pubkey => exact (clean_nornClusterPromote _ pubkey).eq_of_failed
  | remove pubkey => exact (clean_nornClusterRemove _ pubkey).eq_of_failed

theorem loneNode_members_in_step : nornClusterNew loneKey (some smallStore) = some loneNode ∧
    ∀ id, id ∈ (loneNode.afterCalls [.add [2] false false, .promote [2], .remove loneKey]).ids ↔
      id ∈ (loneNode.afterCalls [.add [2] false false, .promote [2], .remove loneKey]).raft.ids :=
  ⟨nornClusterNew_loneNode, (members_in_step nornClusterNew_loneNode _).1⟩

end ClusterNode

end Norn
