import Norn.Kv.Store
import Norn.Raft.Core

/-!
# Requests to a daemon

The dispatcher of `nornd/dispatch.c`, and the key-value calls of `norn_cluster.c` behind it.
-/

namespace Norn

def norndIpcMaxVal : ℕ := 64000
def norndIpcMaxItems : ℕ := 32

structure IpcReq where
  op : String
  key : Bytes
  val : Option Bytes
  expect : Option Bytes
  deriving DecidableEq

structure IpcResp where
  ok : Bool
  val : Option Bytes
  err : Option String
  items : List Bytes

structure NorndBackend (σ : Type*) where
  put : σ → Bytes → Bytes → Bool × σ
  del : σ → Bytes → Bool × σ
  get : σ → Bytes → ℕ → Option Bytes
  isLeader : σ → Bool
  leader : σ → Option Bytes
  members : σ → ℕ → List Bytes

namespace IpcResp

def fail (msg : String) : IpcResp := ⟨false, none, some msg, []⟩

def okEmpty : IpcResp := ⟨true, none, none, []⟩

def okVal (v : Bytes) : IpcResp := ⟨true, some v, none, []⟩

end IpcResp

section
variable {σ : Type*} (be : NorndBackend σ)

def writeAnswer (out : Bool × σ) : IpcResp × σ :=
  (if out.1 then .okEmpty else .fail "no leader", out.2)

def norndDispatch (ctx : σ) (req : IpcReq) : IpcResp × σ :=
  if req.op = "get" then
    if req.key.length = 0 then (.fail "missing key", ctx)
    else match be.get ctx req.key norndIpcMaxVal with
      | none => (.fail "not found", ctx)
      | some v => (.okVal v, ctx)
  else if req.op = "put" then
    if req.key.length = 0 then (.fail "missing key", ctx)
    else match req.val with
      | none => (.fail "missing val", ctx)
      | some val => writeAnswer (be.put ctx req.key val)
  else if req.op = "del" then
    if req.key.length = 0 then (.fail "missing key", ctx)
    else writeAnswer (be.del ctx req.key)
  else if req.op = "cas" then
    if req.key.length = 0 then (.fail "missing key", ctx)
    else match req.expect, req.val with
      | some expect, some val =>
        match be.get ctx req.key norndIpcMaxVal with
        | none => (.fail "cas: key absent", ctx)
        | some cur =>
          if cur ≠ expect then (.fail "cas: mismatch", ctx)
          else writeAnswer (be.put ctx req.key val)
      | _, _ => (.fail "cas needs expect and val", ctx)
  else if req.op = "members" then
    ({ IpcResp.okEmpty with items := be.members ctx norndIpcMaxItems }, ctx)
  else if req.op = "leader" then
    match be.leader ctx with
    | some ld => (.okVal ld, ctx)
    | none => (.fail "no leader", ctx)
  else if req.op = "status" then
    let v := (if be.isLeader ctx then 1 else 0) :: (be.leader ctx).getD []
    ({ IpcResp.okVal v with items := be.members ctx norndIpcMaxItems }, ctx)
  else if req.op = "watch" then (.okEmpty, ctx)
  else (.fail "unknown op", ctx)

end

def cmdMax : ℕ := nornKvMaxKey + nornKvMaxVal + 16

/-- What the key-value calls use of a cluster: role, known leader, proposals and frames. -/
structure KvHost (σ : Type*) where
  isLeader : σ → Bool
  leaderPub : σ → Option Bytes
  propose : σ → Bytes → Bool × σ
  forward : σ → Bytes → Bytes → σ

namespace KvHost
variable {σ : Type*} (host : KvHost σ) (cl : σ)

def kvSubmit (cmd : Bytes) : Bool × σ :=
  if cmd.length = 0 then (false, cl)
  else if host.isLeader cl then host.propose cl cmd
  else (host.leaderPub cl).elim (false, cl) fun leader => (true, host.forward cl leader cmd)

def submitEncoded : Option Bytes → Bool × σ
  | none => (false, cl)
  | some cmd => host.kvSubmit cl cmd

def nornClusterKvPut (key val : Bytes) : Bool × σ :=
  host.submitEncoded cl (nornKvEncodePut cmdMax key val)

def nornClusterKvDel (key : Bytes) : Bool × σ := host.submitEncoded cl (nornKvEncodeDel cmdMax key)

def nornClusterKvCas (key expect val : Bytes) : Bool × σ :=
  host.submitEncoded cl (nornKvEncodeCas cmdMax key expect val)

variable {host cl} {cmd : Bytes} (hlen : cmd.length ≠ 0)
include hlen

theorem kvSubmit_leader (h : host.isLeader cl = true) : host.kvSubmit cl cmd = host.propose cl cmd := by
  rw [kvSubmit, if_neg hlen, if_pos h]

theorem kvSubmit_follower (h : host.isLeader cl = false) : host.kvSubmit cl cmd =
    (host.leaderPub cl).elim (false, cl) fun leader => (true, host.forward cl leader cmd) := by
  rw [kvSubmit, if_neg hlen, h, if_neg Bool.false_ne_true]

end KvHost

structure NornCluster where
  kv : NornKv
  role : RaftRole
  /-- Whether `raft_propose` has room for an entry. -/
  room : Bool
  leaderPub : Option Bytes
  members : List Bytes
  /-- Commands proposed or forwarded, oldest first. -/
  submitted : List Bytes

namespace NornCluster

def hand (cl : NornCluster) (cmd : Bytes) : NornCluster :=
  { cl with submitted := cl.submitted ++ [cmd] }

def host : KvHost NornCluster where
  isLeader cl := cl.role = .leader
  leaderPub := leaderPub
  propose cl cmd := if cl.room then (true, cl.hand cmd) else (false, cl)
  forward cl _ cmd := cl.hand cmd

end NornCluster

def clusterBackend : NorndBackend NornCluster where
  put := NornCluster.host.nornClusterKvPut
  del := NornCluster.host.nornClusterKvDel
  get cl := nornKvGet cl.kv
  isLeader := NornCluster.host.isLeader
  leader := NornCluster.host.leaderPub
  members cl max := cl.members.take max

namespace NornCluster
variable (cl : NornCluster)

/-- A write of the daemon finds room in its log, or a leader. -/
def Ready : Prop :=
  cl.role = .leader ∧ cl.room = true ∨ cl.role ≠ .leader ∧ cl.leaderPub.isSome = true

theorem kvSubmit_eq {cmd : Bytes} (hlen : cmd.length ≠ 0) :
    cl.Ready ∧ host.kvSubmit cl cmd = (true, cl.hand cmd) ∨
      ¬ cl.Ready ∧ host.kvSubmit cl cmd = (false, cl) := by
  unfold Ready
  by_cases hrole : cl.role = .leader
  · rw [KvHost.kvSubmit_leader hlen (decide_eq_true hrole)]
    cases hroom : cl.room <;> simp [host, hrole, hroom]
  · rw [KvHost.kvSubmit_follower hlen (decide_eq_false hrole)]
    cases hleader : cl.leaderPub <;> simp [host, hrole, hleader]

theorem submitEncoded_kv (cmd : Option Bytes) : (host.submitEncoded cl cmd).2.kv = cl.kv := by
  cases cmd with
  | none => rfl
  | some cmd =>
    change (host.kvSubmit cl cmd).2.kv = cl.kv
    by_cases hlen : cmd.length = 0
    · rw [KvHost.kvSubmit, if_pos hlen]
    · rcases cl.kvSubmit_eq hlen with ⟨_, heq⟩ | ⟨_, heq⟩
      · rw [heq]
        rfl
      · rw [heq]

end NornCluster

theorem dispatch_kv (cl : NornCluster) (req : IpcReq) :
    (norndDispatch clusterBackend cl req).2.kv = cl.kv := by
  unfold norndDispatch
  split_ifs
  · rfl
  · split <;> rfl
  · rfl
  · split
    · rfl
    · exact cl.submitEncoded_kv _
  · rfl
  · exact cl.submitEncoded_kv _
  · rfl
  · split
    · split
      · rfl
      · split_ifs
        · rfl
        · exact cl.submitEncoded_kv _
    · rfl
  · rfl
  · split <;> rfl
  · rfl
  · rfl
  · rfl
  · rfl

namespace NornCluster
variable (cl : NornCluster) (req : IpcReq)

/-- The store of the daemon holds what the request expects. -/
def Matches : Prop :=
  ∃ expect, req.expect = some expect ∧ nornKvGet cl.kv req.key norndIpcMaxVal = some expect

/-- The daemon can hand on the write of the request. -/
def Able : Prop :=
  cl.Ready ∧ ∃ val cmd, req.val = some val ∧ nornKvEncodePut cmdMax req.key val = some cmd

variable {cl req}

theorem length_of_encodePut {key val cmd : Bytes} {cap : ℕ}
    (h : nornKvEncodePut cap key val = some cmd) : key.length ≠ 0 ∧ cmd.length ≠ 0 := by
  unfold nornKvEncodePut at h
  split_ifs at h with hkey
  cases h
  exact ⟨fun h => hkey (.inl h), Nat.succ_ne_zero _⟩

/-- A compare-and-set compares and writes only if it matches and can be handed on. -/
theorem dispatch_cas (hop : req.op = "cas") :
    (cl.Matches req ∧ cl.Able req ∧ ∃ val cmd, req.val = some val ∧
      nornKvEncodePut cmdMax req.key val = some cmd ∧
      norndDispatch clusterBackend cl req = (.okEmpty, cl.hand cmd)) ∨
    ¬ (cl.Matches req ∧ cl.Able req) ∧
      ∃ msg, norndDispatch clusterBackend cl req = (.fail msg, cl) := by
  have hget : req.op ≠ "get" := by rw [hop]; decide
  have hput : req.op ≠ "put" := by rw [hop]; decide
  have hdel : req.op ≠ "del" := by rw [hop]; decide
  rw [norndDispatch, if_neg hget, if_neg hput, if_neg hdel, if_pos hop]
  by_cases hkey : req.key.length = 0
  · rw [if_pos hkey]
    refine .inr ⟨?_, _, rfl⟩
    rintro ⟨_, _, val, cmd, _, hcmd⟩
    exact (length_of_encodePut hcmd).1 hkey
  rw [if_neg hkey]
  cases hexpect : req.expect with
  | none =>
    refine .inr ⟨?_, _, rfl⟩
    rintro ⟨⟨expect, heq, _⟩, _⟩
    cases hexpect.symm.trans heq
  | some expect =>
    cases hval : req.val with
    | none =>
      refine .inr ⟨?_, _, rfl⟩
      rintro ⟨_, _, val, cmd, heq, _⟩
      cases hval.symm.trans heq
    | some val =>
      have hmatch : cl.Matches req ↔ nornKvGet cl.kv req.key norndIpcMaxVal = some expect := by
        rw [Matches, hexpect]
        simp
      dsimp only
      generalize hgot : clusterBackend.get cl req.key norndIpcMaxVal = got
      rw [show nornKvGet cl.kv req.key norndIpcMaxVal = got from hgot] at hmatch
      cases got with
      | none => exact .inr ⟨fun h => (nomatch hmatch.mp h.1), _, rfl⟩
      | some cur =>
        dsimp only
        by_cases hne : cur ≠ expect
        · rw [if_pos hne]
          exact .inr ⟨fun h => hne (Option.some.inj (hmatch.mp h.1)), _, rfl⟩
        rw [if_neg hne]
        have hmatches := hmatch.mpr (congrArg some (not_not.mp hne))
        change _ ∨ _ ∧ ∃ msg, writeAnswer (host.submitEncoded cl _) = _
        cases hcmd : nornKvEncodePut cmdMax req.key val with
        | none =>
          refine .inr ⟨?_, _, rfl⟩
          rintro ⟨_, _, val', cmd, heq, hcmd'⟩
          rw [← Option.some.inj (hval.symm.trans heq), hcmd] at hcmd'
          cases hcmd'
        | some cmd =>
          rcases cl.kvSubmit_eq (length_of_encodePut hcmd).2 with ⟨hready, heq⟩ | ⟨hno, heq⟩
          · refine .inl ⟨hmatches, ⟨hready, val, cmd, hval, hcmd⟩, val, cmd, rfl, hcmd, ?_⟩
            change writeAnswer (host.submitEncoded cl (nornKvEncodePut cmdMax req.key val)) = _
            rw [hcmd, KvHost.submitEncoded, heq]
            rfl
          · refine .inr ⟨fun h => hno h.2.1, "no leader", ?_⟩
            rw [KvHost.submitEncoded, heq]
            rfl

end NornCluster
end Norn
