import Norn.Cluster.Node
import Norn.Kv.Replica
import Norn.Raft.Bounds
import Norn.Raft.Safety

/-!
# The replicated store

Every node hands the entries that it applies to its own store.
-/

namespace Norn
open List Replication

def handedOut (effects : List RaftEffect) : List RaftEntry :=
  effects.filterMap fun
    | .apply e => some e
    | .send _ _ => none

theorem handedOut_append (xs ys : List RaftEffect) :
    handedOut (xs ++ ys) = handedOut xs ++ handedOut ys := filterMap_append

namespace Raft

/-- The commands between two positions of a log. -/
def between (log : List RaftEntry) (i j : ℕ) : List RaftEntry :=
  ((log.take j).drop i).filter fun e => e.type = .normal

theorem HandsOut.handedOut_eq_nil {xs : List RaftEffect} (h : HandsOut [] xs) : handedOut xs = [] := by
  refine filterMap_eq_nil_iff.mpr fun effect hmem => ?_
  cases effect with
  | send dest msg => rfl
  | apply e => exact absurd (h e hmem) not_mem_nil

variable {r r' : Raft} {e : ClusterEvent} {out : Raft × List RaftEffect}

theorem between_self (log : List RaftEntry) (i : ℕ) : between log i i = [] := by
  rw [between, drop_of_length_le (length_take_le i log)]
  rfl

theorem handedOut_applyLoop (k : ℕ) (r : Raft) :
    handedOut (applyLoop k r).2 = between r.log r.lastApplied (r.lastApplied + k) := by
  induction k generalizing r with
  | zero => exact (between_self _ _).symm
  | succ k ih =>
    have hsplit : between r.log r.lastApplied (r.lastApplied + (k + 1)) =
        (r.log[r.lastApplied]?.toList.filter fun e => e.type = .normal) ++
          between r.log (r.lastApplied + 1) (r.lastApplied + 1 + k) := by
      rw [between, drop_eq_getElem?_toList_append, filter_append,
        getElem?_take_of_lt (by omega), Nat.add_assoc, Nat.add_comm 1 k]
      rfl
    rw [applyLoop, handedOut_append, ih, hsplit]
    refine congrArg (· ++ _) ?_
    dsimp only
    rw [Nat.add_sub_cancel]
    cases r.log[r.lastApplied]? with
    | none => rfl
    | some e => by_cases he : e.type = .normal <;> simp [handedOut, he]

/-- A call hands out what it applies. -/
def HandsOn (r : Raft) (out : Raft × List RaftEffect) : Prop :=
  handedOut out.2 = between out.1.log r.lastApplied out.1.lastApplied

theorem HandsOn.of_still (hla : out.1.lastApplied = r.lastApplied) (hout : HandsOut [] out.2) :
    HandsOn r out := by
  rw [HandsOn, hout.handedOut_eq_nil, hla, between_self]

theorem HandsOn.applyCommitted (hla : r'.lastApplied = r.lastApplied) :
    HandsOn r r'.applyCommitted := by
  rw [HandsOn, Raft.applyCommitted, handedOut_applyLoop, applyLoop_fst, hla]

theorem HandsOn.cons {xs : List RaftEffect} (hxs : HandsOut [] xs) (h : HandsOn r out) :
    HandsOn r (out.1, xs ++ out.2) := by
  rwa [HandsOn, handedOut_append, hxs.handedOut_eq_nil, nil_append]

theorem Outcome.handsOn (h : r.Outcome e out) : HandsOn r out := by
  cases h with
  | answered | overdue | missed => exact .of_still rfl (.send _ _)
  | refused | granted => exact .of_still (r.still_observed _).applied (.send _ _)
  | outdated =>
    exact .of_still ((r.still_counting _ _).trans (still_becomeFollower _ _ _)).applied .nil
  | counted => exact .of_still (r.still_counting _ _).applied .nil
  | won => exact .of_still rfl (.broadcastVote _ _)
  | elected => exact .of_still (still_becomeLeader (r.flagged _)).applied .broadcastAppend
  | taken =>
    rw [HandsOn, handedOut_append, (HandsOut.send _ _).handedOut_eq_nil, append_nil]
    unfold takeCommit
    split_ifs
    · exact HandsOn.applyCommitted (r := r) rfl
    · exact HandsOn.of_still (r := r) rfl .nil
  | overtaken => exact .of_still (r.still_becomeFollower _ _).applied .nil
  | ignored | declined | quiet => exact .of_still rfl .nil
  | acked => exact HandsOn.applyCommitted (r := r) rfl
  | backed _ _ _ hr' =>
    subst hr'
    rw [sendAppend_eq]
    exact .of_still rfl (.send _ _)
  | proposed => exact .cons .broadcastAppend (HandsOn.applyCommitted (r := r) rfl)
  | beat _ hr' =>
    subst hr'
    exact .of_still rfl .broadcastAppend
  | started =>
    exact .cons .startElection (.applyCommitted (still_startElection (r.advanceTimers _)).applied)
  | waited => exact .applyCommitted rfl

end Raft

theorem ClusterNode.kv_runCallbacks (cl : ClusterNode) (effects : List RaftEffect) :
    (cl.runCallbacks effects).kv =
      (handedOut effects).foldl (fun kv e => (nornKvApply kv e.data).2.1) cl.kv := by
  induction effects generalizing cl with
  | nil => rfl
  | cons effect effects ih =>
    refine (ih _).trans ?_
    cases effect with
    | send dest msg =>
      dsimp only
      unfold raftSendCb
      split <;> rfl
    | apply e => rfl

namespace ClusterRun
variable {spec : ClusterSpec} (run : ClusterRun spec)

/-- The commands that node `n` hands to its store before event `k`. -/
def commands : ℕ → RaftNodeId → List RaftEntry
  | 0, _ => []
  | k + 1, n =>
    if n = Cluster.actor (run.event k) then commands k n ++ handedOut (run.effects k)
    else commands k n

/-- The nodes with their stores; `cl` are those that the run starts with. -/
def glue (cl : RaftNodeId → ClusterNode) : ℕ → RaftNodeId → ClusterNode
  | 0, n => cl n
  | k + 1, n =>
    if n = Cluster.actor (run.event k) then
      (glue cl k n).afterCall (Cluster.call (run.node k n) (run.event k))
    else glue cl k n

variable {run} {cap : ℕ} {cl : RaftNodeId → ClusterNode} {n : RaftNodeId}

theorem replica_glue (hnew : nornKvNew cap = some (cl n).kv) (k : ℕ) :
    KvReplica cap (run.glue cl k n).kv ((run.commands k n).map RaftEntry.data) := by
  have happly {kv : NornKv} {cmds : List Bytes} (h : KvReplica cap kv cmds) (es : List RaftEntry) :
      KvReplica cap (es.foldl (fun kv e => (nornKvApply kv e.data).2.1) kv)
        (cmds ++ es.map RaftEntry.data) := by
    induction es generalizing kv cmds with
    | nil => rwa [map_nil, append_nil]
    | cons e es ih =>
      rw [map_cons, append_cons]
      exact ih (h.apply e.data)
  induction k with
  | zero => exact .new hnew
  | succ k ih =>
    rw [glue, commands]
    split_ifs with hn
    · subst hn
      rw [map_append, ClusterNode.afterCall, ClusterNode.kv_runCallbacks]
      exact happly ih _
    · exact ih

/-- The commands of a node are those in a decided log up to where it has applied. -/
def Delivered (run : ClusterRun spec) (a : History) (k : ℕ) (n : RaftNodeId) (X : List RaftEntry) :
    Prop :=
  (∃ T, HDecided spec a T X) ∧ X.length = (run.node k n).lastApplied ∧
    run.commands k n = X.filter fun e => e.type = .normal

theorem decided_isPrefix {a : History} (hC : Complete (quorums spec) RaftEntry.term a) {T T' : ℕ}
    {X Y : List RaftEntry} (hX : HDecided spec a T X) (hY : HDecided spec a T' Y)
    (hle : X.length ≤ Y.length) : X <+: Y := by
  rw [prefix_iff_eq_take]
  refine ext_getElem (by rw [length_take, min_eq_left hle]) fun i hi hi' => ?_
  rw [getElem_take]
  exact hC.decided_agree hX hY (getElem?_eq_getElem hi) (getElem?_eq_getElem (hi.trans_le hle))

theorem exists_delivered {a : History} (hC : Complete (quorums spec) RaftEntry.term a)
    (hn : n ∈ spec.ids) (hcommit : ∀ j ≤ run.len,
      (run.node j n).commitIndex ≤ (run.node j n).log.length ∧
        HDecided spec a (run.node j n).currentTerm
          ((run.node j n).log.take (run.node j n).commitIndex)) :
    ∀ k ≤ run.len, ∃ X, Delivered run a k n X := by
  refine run.position_induction ⟨[], ⟨0, .inl rfl⟩, ?_, rfl⟩ ?_
  · obtain ⟨cfg, order, hperm, hboot⟩ := run.start.2 n hn
    obtain ⟨timing, ms, -, -, hr⟩ := bootNode_eq hboot
    change 0 = ((run.state 0).nodes n).lastApplied
    rw [hr]
  rintro k hk ⟨X, ⟨T, hdec⟩, hlength, hcommands⟩
  by_cases hactor : n = Cluster.actor (run.event k)
  · have hhands := (Raft.outcome_call (run.node k n) (run.event k)).handsOn
    have hnode := run.node_actor hk
    rw [← hactor] at hnode
    rw [Raft.HandsOn, ← hnode] at hhands
    have hcommands' : run.commands (k + 1) n = run.commands k n ++ Raft.between
        (run.node (k + 1) n).log (run.node k n).lastApplied (run.node (k + 1) n).lastApplied := by
      rw [commands, if_pos hactor, effects, ← hactor, hhands]
    rcases (run.progress hk n).applied_mono.eq_or_lt with heq | hlt
    · refine ⟨X, ⟨T, hdec⟩, hlength.trans heq, ?_⟩
      rw [hcommands', heq, Raft.between_self, append_nil, hcommands]
    · -- what is applied now is committed, and so is what was applied before
      have hle := (run.progress hk n).applied_le
      obtain ⟨hbound, hnew⟩ := hcommit (k + 1) hk
      have hnow := hnew.of_isPrefix
        (take_prefix_take_left (l := (run.node (k + 1) n).log) (by omega :
          (run.node (k + 1) n).lastApplied ≤ (run.node (k + 1) n).commitIndex))
      have hlen : ((run.node (k + 1) n).log.take (run.node (k + 1) n).lastApplied).length =
          (run.node (k + 1) n).lastApplied := by
        rw [length_take]
        omega
      obtain ⟨Z, hZ⟩ := decided_isPrefix hC hdec hnow (by omega)
      refine ⟨_, ⟨_, hnow⟩, hlen, ?_⟩
      rw [hcommands', hcommands, Raft.between, ← hlength, ← hZ, drop_left, filter_append]
  · refine ⟨X, ⟨T, hdec⟩, ?_, ?_⟩
    · rw [run.node_other hk hactor]
      exact hlength
    · rw [commands, if_neg hactor]
      exact hcommands

variable (run)

/-- A store is the map that its commands make, and of two nodes the one behind has the first
commands of the other, so that nodes equally far have the same map. -/
theorem replicas_agree (hvotes : run.VotesFresh) (hacks : run.AcksFresh)
    (hcommits : run.CommitsCovered) (hnew : ∀ n ∈ spec.ids, nornKvNew cap = some (cl n).kv) :
    ∀ j ≤ run.len, ∀ k ≤ run.len, ∀ m ∈ spec.ids, ∀ n ∈ spec.ids,
      (run.glue cl k n).kv.toMap =
        KvReplica.mapAfter cap ((run.commands k n).map RaftEntry.data) ∧
      ((run.node j m).lastApplied ≤ (run.node k n).lastApplied →
        run.commands j m <+: run.commands k n) ∧
      ((run.node j m).lastApplied = (run.node k n).lastApplied →
        (run.glue cl j m).kv.toMap = (run.glue cl k n).kv.toMap) := by
  obtain ⟨a, h, hpast⟩ := run.exists_decided (run.meets_all hvotes hacks hcommits) run.len le_rfl
  have hC : Complete (quorums spec) RaftEntry.term a := h.reach.complete fun _ _ he => he trivial
  have hmap {k : ℕ} {n : RaftNodeId} (hn : n ∈ spec.ids) :
      (run.glue cl k n).kv.toMap = KvReplica.mapAfter cap ((run.commands k n).map RaftEntry.data) :=
    (replica_glue (hnew n hn) k).ok.2
  have hfirst {j k : ℕ} (hj : j ≤ run.len) (hk : k ≤ run.len) {m n : RaftNodeId}
      (hm : m ∈ spec.ids) (hn : n ∈ spec.ids)
      (hle : (run.node j m).lastApplied ≤ (run.node k n).lastApplied) :
      run.commands j m <+: run.commands k n := by
    obtain ⟨X, ⟨T, hX⟩, hlen, hcommands⟩ := exists_delivered hC hm (fun i hi => hpast i hi m hm) j hj
    obtain ⟨Y, ⟨T', hY⟩, hlen', hcommands'⟩ := exists_delivered hC hn (fun i hi => hpast i hi n hn) k hk
    rw [hcommands, hcommands']
    exact (decided_isPrefix hC hX hY (hlen ▸ hlen' ▸ hle)).filter _
  intro j hj k hk m hm n hn
  refine ⟨hmap hn, hfirst hj hk hm hn, fun heq => ?_⟩
  have hsame := (hfirst hj hk hm hn heq.le).eq_of_length_le (hfirst hk hj hn hm heq.ge).length_le
  rw [hmap hm, hmap hn, hsame]

def emptyNodes (n : RaftNodeId) : ClusterNode :=
  ⟨[], settledRun.node 0 n, KvReplica.twoSlots, [], none, []⟩

theorem settledRun_replicas_agree :
    (settledRun.node 11 1).lastApplied = 2 ∧ (settledRun.node 13 2).lastApplied = 2 ∧
      (settledRun.glue emptyNodes 11 1).kv.toMap = (settledRun.glue emptyNodes 13 2).kv.toMap := by
  have hone : (settledRun.node 11 1).lastApplied = 2 := by decide +kernel
  have htwo : (settledRun.node 13 2).lastApplied = 2 := by decide +kernel
  have hnew : ∀ n ∈ trio.ids, nornKvNew 2 = some (emptyNodes n).kv := fun _ _ => rfl
  refine ⟨hone, htwo, ?_⟩
  exact (settledRun.replicas_agree settledRun_votesFresh settledRun_acksFresh
    settledRun_commitsCovered hnew 11 (by decide) 13 (by decide) 1 (by decide) 2
    (by decide)).2.2 (hone.trans htwo.symm)

end ClusterRun
end Norn
