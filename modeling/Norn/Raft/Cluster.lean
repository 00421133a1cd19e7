import Norn.Lib.Run
import Norn.Raft.Core

/-!
# A cluster with a fixed member set

The network keeps every packet ever sent, so that loss, duplication, delay and reordering are covered.
-/

namespace Norn

structure MemberSpec where
  id : RaftNodeId
  role : RaftMemberRole
  eligible : Bool

/-- The member set all nodes are configured with. -/
structure ClusterSpec where
  members : List MemberSpec
  nodup : (members.map MemberSpec.id).Nodup
  pos : 1 ≤ members.length
  le : members.length ≤ raftMaxNodes
  real : ∀ m ∈ members, m.id ≠ raftNoNode

variable (spec : ClusterSpec)

def ClusterSpec.ids : List RaftNodeId := spec.members.map MemberSpec.id

def ClusterSpec.voters : Finset RaftNodeId :=
  ((spec.members.filter fun m => m.role = .voter).map MemberSpec.id).toFinset

structure Packet where
  src : RaftNodeId
  dst : RaftNodeId
  msg : RaftMsg
  deriving DecidableEq

structure Cluster where
  nodes : RaftNodeId → Raft
  sent : List Packet

/-- A node is started with every member of its configuration in its table, or not at all. -/
def bootMember (r : Raft) (m : MemberSpec) : Option Raft :=
  let out := r.raftAddMember m.id m.role m.eligible
  if out.1 then some out.2 else none

def bootNode (self : RaftNodeId) (cfg : Option RaftConfig) (order : List MemberSpec) : Option Raft :=
  (Raft.raftNew self cfg).bind fun r =>
    order.foldlM bootMember r

inductive ClusterEvent
  | tick (node : RaftNodeId) (nowMs : ℕ)
  | propose (node : RaftNodeId) (data : List UInt8)
  | deliver (packet : Packet)
  deriving DecidableEq

instance : Inhabited ClusterEvent := ⟨.tick 0 0⟩

def packetsOf (node : RaftNodeId) (effects : List RaftEffect) : List Packet :=
  effects.filterMap fun
    | .send dest msg => some ⟨node, dest, msg⟩
    | .apply _ => none

namespace Cluster

def act (c : Cluster) (node : RaftNodeId) (out : Raft × List RaftEffect) : Cluster where
  nodes := Function.update c.nodes node out.1
  sent := c.sent ++ packetsOf node out.2

def actor : ClusterEvent → RaftNodeId
  | .tick node _ => node
  | .propose node _ => node
  | .deliver packet => packet.dst

def call (r : Raft) : ClusterEvent → Raft × List RaftEffect
  | .tick _ nowMs => r.raftTick nowMs
  | .propose _ data => (r.raftPropose data).2
  | .deliver packet => r.raftRecv packet.src packet.msg

variable (spec : ClusterSpec)

def Enabled (c : Cluster) (e : ClusterEvent) : Prop :=
  actor e ∈ spec.ids ∧ ∀ packet, e = .deliver packet → packet ∈ c.sent

instance (spec : ClusterSpec) (c : Cluster) (e : ClusterEvent) : Decidable (Enabled spec c e) :=
  match e with
  | .tick node _ => decidable_of_iff (node ∈ spec.ids) (by simp [Enabled, actor])
  | .propose node _ => decidable_of_iff (node ∈ spec.ids) (by simp [Enabled, actor])
  | .deliver packet =>
    decidable_of_iff (packet.dst ∈ spec.ids ∧ packet ∈ c.sent) (by simp [Enabled, actor])

def step (c : Cluster) (e : ClusterEvent) : Option Cluster :=
  if Enabled spec c e then some (c.act (actor e) (call (c.nodes (actor e)) e)) else none

def Initial (c : Cluster) : Prop :=
  c.sent = [] ∧ ∀ n ∈ spec.ids, ∃ cfg order, order.Perm spec.members ∧
    bootNode n cfg order = some (c.nodes n)

def system : System Cluster ClusterEvent where
  init := Initial spec
  next c e c' := step spec c e = some c'

def OnDelivery (P : Raft → RaftNodeId → RaftMsg → Prop) (c : Cluster) : ClusterEvent → Prop
  | .deliver packet => P (c.nodes packet.dst) packet.src packet.msg
  | _ => True

namespace OnDelivery
variable {P P' : Raft → RaftNodeId → RaftMsg → Prop} {c : Cluster} {e : ClusterEvent}

theorem of_forall (h : ∀ r src msg, P r src msg) : OnDelivery P c e := by
  cases e with
  | deliver packet => exact h _ _ _
  | _ => trivial

theorem mono (h : OnDelivery P c e) (hP : ∀ r src msg, P r src msg → P' r src msg) :
    OnDelivery P' c e := by
  cases e with
  | deliver packet => exact hP _ _ _ h
  | _ => trivial

theorem and (h : OnDelivery P c e) (h' : OnDelivery P' c e) :
    OnDelivery (fun r src msg => P r src msg ∧ P' r src msg) c e := by
  cases e with
  | deliver packet => exact ⟨h, h'⟩
  | _ => trivial

end OnDelivery

instance (P : Raft → RaftNodeId → RaftMsg → Prop) [∀ r src msg, Decidable (P r src msg)]
    (c : Cluster) (e : ClusterEvent) : Decidable (OnDelivery P c e) :=
  match e with
  | .tick .. => .isTrue trivial
  | .propose .. => .isTrue trivial
  | .deliver packet => inferInstanceAs (Decidable (P (c.nodes packet.dst) packet.src packet.msg))

def boot : Cluster where
  nodes n := (bootNode n none spec.members).getD default
  sent := []

theorem boot_initial {spec : ClusterSpec}
    (h : ∀ n ∈ spec.ids, (bootNode n none spec.members).isSome) : Initial spec (boot spec) := by
  refine ⟨rfl, fun n hn => ⟨none, spec.members, List.Perm.refl _, ?_⟩⟩
  obtain ⟨r, hr⟩ := Option.isSome_iff_exists.mp (h n hn)
  simp [boot, hr]

end Cluster

abbrev ClusterRun := Run (Cluster.system spec)

namespace ClusterRun
variable {spec : ClusterSpec} (run : ClusterRun spec)

def node (k : ℕ) (n : RaftNodeId) : Raft := (run.state k).nodes n

def effects (k : ℕ) : List RaftEffect :=
  (Cluster.call (run.node k (Cluster.actor (run.event k))) (run.event k)).2

def Leads (k : ℕ) (n : RaftNodeId) (T : ℕ) : Prop :=
  (run.node k n).role = .leader ∧ (run.node k n).currentTerm = T

instance (k : ℕ) (n : RaftNodeId) (T : ℕ) : Decidable (run.Leads k n T) :=
  inferInstanceAs (Decidable (_ ∧ _))

/-- No two nodes ever lead one term. -/
def OneLeaderPerTerm : Prop :=
  ∀ i ≤ run.len, ∀ j ≤ run.len, ∀ a ∈ spec.ids, ∀ b ∈ spec.ids, ∀ T,
    run.Leads i a T → run.Leads j b T → a = b

theorem oneLeaderPerTerm_of_leaders (f : ℕ → RaftNodeId)
    (h : ∀ k ≤ run.len, ∀ n ∈ spec.ids, (run.node k n).role = .leader →
      n = f (run.node k n).currentTerm) : run.OneLeaderPerTerm := by
  rintro i hi j hj m hm n hn T ⟨hled, rfl⟩ ⟨hled', hterm⟩
  rw [h i hi m hm hled, h j hj n hn hled', hterm]

theorem oneLeaderPerTerm_of_sole {c : RaftNodeId}
    (h : ∀ k ≤ run.len, ∀ n ∈ spec.ids, (run.node k n).role = .leader → n = c) :
    run.OneLeaderPerTerm := run.oneLeaderPerTerm_of_leaders (fun _ => c) h

def ofEvents (spec : ClusterSpec)
    (hboot : ∀ n ∈ spec.ids, (bootNode n none spec.members).isSome) (es : List ClusterEvent)
    (hes : (execute (Cluster.step spec) (Cluster.boot spec) es).isSome) : ClusterRun spec :=
  Run.ofEvents (fun _ _ _ h => h) (Cluster.boot spec) (Cluster.boot_initial hboot) es hes

end ClusterRun
end Norn
