import Norn.Raft.Handlers

/-!
# Every run has a history

Some reachable history tracks the cluster after each event.
-/

namespace Norn
open Replication Option List
open Cluster (actor call step)

/-- Node `n` moved its applied index over `i` with event `k`. -/
def ClusterRun.Passes {spec : ClusterSpec} (run : ClusterRun spec) (k : ℕ) (n : RaftNodeId)
    (i : ℕ) : Prop :=
  (run.node k n).lastApplied < i ∧ i ≤ (run.node (k + 1) n).lastApplied

instance {spec : ClusterSpec} (run : ClusterRun spec) (k : ℕ) (n : RaftNodeId) (i : ℕ) :
    Decidable (run.Passes k n i) := inferInstanceAs (Decidable (_ ∧ _))

def ClusterRun.Meets {spec : ClusterSpec} (run : ClusterRun spec) (ck : Checks) : Prop :=
  ∀ k < run.len, Cluster.OnDelivery ck.Met (run.state k) (run.event k)

theorem ClusterRun.meets_none {spec : ClusterSpec} (run : ClusterRun spec) :
    run.Meets ⟨False, False, False⟩ := fun _ _ =>
  Cluster.OnDelivery.of_forall fun _ _ _ => ⟨False.elim, False.elim, False.elim⟩

/-- The history describes the cluster and remembers the run. -/
structure Tracks {spec : ClusterSpec} (run : ClusterRun spec) (ck : Checks) (k : ℕ) (a : History) :
    Prop where
  reach : Reachable RaftEntry.term (MayLead spec ck) a
  nodes : ∀ n ∈ spec.ids, NodeOk spec ck a n (run.node k n)
  packets : ∀ p ∈ (run.state k).sent, p.src ∈ spec.ids ∧ PacketOk spec ck a p
  leads : LeadsOk spec a
  led : ∀ {T c L}, a.lead T = some (c, L) → ∃ j ≤ k, run.Leads j c T
  ruled : ∀ j ≤ k, ∀ n ∈ spec.ids, ∀ {T}, run.Leads j n T → ∃ L, a.lead T = some (n, L)
  acked : ∀ {f T m}, a.acked f T m → ∃ j ≤ k, (run.node j f).currentTerm = T ∧
    ∃ c L, a.lead T = some (c, L) ∧ m ≤ L.length ∧ (run.node j f).log.take m = L.take m
  passed : ck.All → ∀ j < k, ∀ n ∈ spec.ids, ∀ {i}, run.Passes j n i →
    ∃ T X e, HDecided spec a T X ∧ X[i - 1]? = some e ∧ (run.node (j + 1) n).log[i - 1]? = some e

variable {order : List MemberSpec} {r : Raft} {n : RaftNodeId} {cfg : Option RaftConfig}
  {spec : ClusterSpec}

theorem bootMember_eq {r' : Raft} {m : MemberSpec} (h : bootMember r m = some r') :
    r' = { r with
      members := r.members ++ [⟨m.id, m.role, m.eligible, r.log.length + 1, 0, false⟩] } := by
  rw [bootMember] at h
  obtain hno | ⟨-, hadd⟩ := r.raftAddMember_cases m.id m.role m.eligible
  · rw [hno] at h
    cases h
  · rw [hadd] at h
    exact (some.inj h).symm

theorem addMembers_spec {r' : Raft} (h : order.foldlM bootMember r = some r')
    (hnext : r.NextPos) : ∃ ms, r' = { r with members := ms } ∧
      ms.map RaftMember.toSpec = r.members.map RaftMember.toSpec ++ order ∧
      ∀ m ∈ ms, 1 ≤ m.nextIndex := by
  induction order generalizing r with
  | nil =>
    obtain rfl : r = r' := some.inj h
    exact ⟨r.members, rfl, by simp, hnext⟩
  | cons m order ih =>
    simp only [foldlM_cons, bind_eq_bind, bind_eq_some_iff] at h
    obtain ⟨r₁, h₁, h⟩ := h
    obtain rfl := bootMember_eq h₁
    obtain ⟨ms, rfl, hspecs, hms⟩ := ih h fun m' hm' => by
      rcases mem_append.mp hm' with hold | hnew
      · exact hnext m' hold
      · cases mem_singleton.mp hnew
        exact Nat.succ_pos _
    exact ⟨ms, rfl, by simp [hspecs, RaftMember.toSpec], hms⟩

theorem bootNode_eq (h : bootNode n cfg order = some r) :
    ∃ timing ms, ms.map RaftMember.toSpec = order ∧ (∀ m ∈ ms, 1 ≤ m.nextIndex) ∧ r =
      { self := n, cfg := timing, currentTerm := 0, votedFor := raftNoNode, log := []
        role := .follower, leader := raftNoNode, commitIndex := 0, lastApplied := 0, now := 0
        electionElapsed := 0, heartbeatElapsed := 0, inPreVote := 0, members := ms } := by
  simp only [bootNode, bind_eq_some_iff] at h
  obtain ⟨r₀, h₀, h⟩ := h
  unfold Raft.raftNew at h₀
  split_ifs at h₀
  obtain rfl := (some.inj h₀).symm
  obtain ⟨ms, rfl, hspecs, hnext⟩ := addMembers_spec h fun m hm => absurd hm not_mem_nil
  exact ⟨_, ms, hspecs, hnext, rfl⟩

theorem bootNode_ok (ck : Checks) (hperm : order.Perm spec.members)
    (h : bootNode n cfg order = some r) :
    NodeOk spec ck (initial RaftNodeId RaftEntry) n r ∧ r.NextPos := by
  obtain ⟨timing, ms, hspecs, hnext, rfl⟩ := bootNode_eq h
  refine ⟨?_, hnext⟩
  exact
    { self := rfl, term := rfl, log := rfl
      specs := by rwa [hspecs]
      lead := ⟨fun hr => by simp at hr, fun ⟨L, hl⟩ => by simp [initial] at hl⟩
      vote := by simp [initial, raftNoNode]
      cand := fun hr => by simp at hr
      flags := fun _ hr => by simp at hr
      matched := fun _ hr => by simp at hr
      logOk := ⟨by simp, fun i e he => by simp at he⟩
      commit := fun _ => ⟨le_rfl, Or.inl rfl⟩ }

theorem Tracks.zero (run : ClusterRun spec) (ck : Checks) :
    Tracks run ck 0 (initial RaftNodeId RaftEntry) where
  reach := Relation.ReflTransGen.refl
  nodes n hn := by
    obtain ⟨cfg, order, hperm, hboot⟩ := run.start.2 n hn
    exact (bootNode_ok ck hperm hboot).1
  packets p hp := by simp [run.start.1] at hp
  leads T c L h := by simp [initial] at h
  led h := by simp [initial] at h
  ruled j hj n hn T hl := by
    obtain rfl : j = 0 := by omega
    obtain ⟨cfg, order, hperm, hboot⟩ := run.start.2 n hn
    obtain ⟨L, h⟩ := (bootNode_ok ck hperm hboot).1.lead.mp hl.1
    simp [initial] at h
  acked h := h.elim
  passed _ j hj := by omega

section
variable {spec : ClusterSpec} {run : ClusterRun spec} {k : ℕ}
section
variable (hk : k < run.len)
include hk

theorem ClusterRun.step_eq : Cluster.Enabled spec (run.state k) (run.event k) ∧
      run.state (k + 1) = (run.state k).act (actor (run.event k))
        (call (run.node k (actor (run.event k))) (run.event k)) := by
  have h : step spec (run.state k) (run.event k) = some (run.state (k + 1)) := run.steps k hk
  unfold step at h
  split_ifs at h with hen
  exact ⟨hen, (some.inj h).symm⟩

theorem ClusterRun.node_actor : run.node (k + 1) (actor (run.event k)) =
      (call (run.node k (actor (run.event k))) (run.event k)).1 := by
  rw [ClusterRun.node, (run.step_eq hk).2]
  exact Function.update_self _ _ _

theorem ClusterRun.node_event {e : ClusterEvent} (he : run.event k = e) :
    run.node (k + 1) (actor e) = (call (run.node k (actor e)) e).1 :=
  he ▸ run.node_actor hk

theorem ClusterRun.node_other (hn : n ≠ actor (run.event k)) :
    run.node (k + 1) n = run.node k n := by
  rw [ClusterRun.node, (run.step_eq hk).2]
  exact Function.update_of_ne hn _ _

theorem ClusterRun.mem_sent_succ {p : Packet} (hp : p ∈ (run.state (k + 1)).sent) :
    p ∈ (run.state k).sent ∨ (p.src = actor (run.event k) ∧ RaftEffect.send p.dst p.msg ∈
        (call (run.node k (actor (run.event k))) (run.event k)).2) := by
  rw [(run.step_eq hk).2] at hp
  rcases mem_append.mp hp with hold | hnew
  · exact .inl hold
  · obtain ⟨e, he, heq⟩ := mem_filterMap.mp hnew
    cases e with
    | apply _ => simp at heq
    | send d m =>
      cases some.inj heq
      exact .inr ⟨rfl, he⟩

theorem ClusterRun.progress (n : RaftNodeId) : Progress (run.node k n) (run.node (k + 1) n) := by
  rcases eq_or_ne n (actor (run.event k)) with rfl | hn
  · rw [run.node_actor hk]
    exact (Raft.outcome_call _ _).progress
  · rw [run.node_other hk hn]
    exact (Raft.Still.refl _).progress

end

variable {ck : Checks} {a : History}

theorem Situation.ofTracks (h : Tracks run ck k a) (hn : n ∈ spec.ids) :
    Situation spec ck a n (run.node k n) := ⟨h.reach, hn, h.nodes n hn, h.leads⟩

theorem Tracks.simulates (h : Tracks run ck k a) (hk : k < run.len) (hmet : run.Meets ck)
    (hone : ck.votes ∨ run.OneLeaderPerTerm) :
    ∃ a', Simulates spec ck a (actor (run.event k))
      (run.node (k + 1) (actor (run.event k)))
      (call (run.node k (actor (run.event k))) (run.event k)).2 a' := by
  obtain ⟨hmem, hsent⟩ := (run.step_eq hk).1
  have hs := Situation.ofTracks h hmem
  -- a node that leads after the event leads a term that no other node has led
  have hfresh : ck.votes ∨ ((run.node (k + 1) (actor (run.event k))).role = .leader →
      ∀ c L, a.lead (run.node (k + 1) (actor (run.event k))).currentTerm = some (c, L) →
        c = actor (run.event k)) := by
    refine hone.imp id fun hone hr c L hl => ?_
    obtain ⟨j, hj, hled⟩ := h.led hl
    exact hone j (by omega) (k + 1) hk c (h.leads _ _ _ hl).1 _ hmem _ hled ⟨hr, rfl⟩
  rw [run.node_actor hk] at hfresh ⊢
  cases he : run.event k with
  | tick n nowMs =>
    rw [he] at hs hfresh
    exact hs.simulates_tick nowMs hfresh
  | propose n data =>
    rw [he] at hs
    exact hs.simulates_propose data
  | deliver packet =>
    obtain ⟨src, dst, msg⟩ := packet
    rw [he] at hs hfresh
    obtain ⟨hsrc, hp⟩ := h.packets _ (hsent _ he)
    have hcond := hmet k hk
    rw [he] at hcond
    cases msg with
    | requestVote term preVote candidateId lastLogIndex lastLogTerm =>
      obtain ⟨m, hm, rfl⟩ := mem_map.mp hsrc
      exact hs.simulates_requestVote (spec.real m hm) hp
    | requestVoteResp => exact hs.simulates_requestVoteResp hp hcond hfresh
    | append => exact hs.simulates_append hp hcond.2.2
    | appendResp => exact hs.simulates_appendResp hp hcond.2.1

theorem take_eq_of_isPrefix {X L L' : List RaftEntry} {m : ℕ} (h : X.take m = L.take m)
    (hm : m ≤ L.length) (hL : L <+: L') : X.take m = L'.take m := by
  obtain ⟨Z, rfl⟩ := hL
  rw [h, take_append_of_le_length hm]

theorem NodeOk.passed (hk : k < run.len) (h : NodeOk spec ck a n (run.node (k + 1) n))
    (hck : ck.All) {i : ℕ} (hp : run.Passes k n i) :
    ∃ T X e, HDecided spec a T X ∧ X[i - 1]? = some e ∧
      (run.node (k + 1) n).log[i - 1]? = some e := by
  obtain ⟨hlt, hle⟩ := hp
  have hprog := (run.progress hk n).applied_le
  obtain ⟨hcommit, hdec⟩ := h.commit hck
  have hi : i - 1 < (run.node (k + 1) n).log.length := by omega
  refine ⟨_, _, (run.node (k + 1) n).log[i - 1], hdec, ?_, getElem?_eq_getElem hi⟩
  rw [getElem?_take_of_lt (by omega), getElem?_eq_getElem hi]

theorem Tracks.succ (h : Tracks run ck k a) (hk : k < run.len) {a' : History} {out : List RaftEffect}
    (hout : out = (call (run.node k (actor (run.event k))) (run.event k)).2)
    (hsim : Simulates spec ck a (actor (run.event k))
      (run.node (k + 1) (actor (run.event k))) out a') : Tracks run ck (k + 1) a' := by
  have hx : Extends a a' := (h.reach.inv.steps hsim.steps).2
  have hnodes : ∀ n ∈ spec.ids, NodeOk spec ck a' n (run.node (k + 1) n) := by
    intro n hn
    rcases eq_or_ne n (actor (run.event k)) with rfl | hne
    · exact hsim.node
    · rw [run.node_other hk hne]
      exact (h.nodes n hn).other hne hsim.frame hx
  refine ⟨h.reach.trans hsim.steps, hnodes, ?_, hsim.leads, ?_, ?_, ?_, ?_⟩
  · intro p hp
    rcases run.mem_sent_succ hk hp with hold | ⟨hsrc, hnew⟩
    · exact ⟨(h.packets p hold).1, (h.packets p hold).2.mono hx⟩
    · obtain ⟨src, dst, msg⟩ := p
      cases hsrc
      exact ⟨(run.step_eq hk).1.1, hsim.packets (hout ▸ hnew)⟩
  · intro T c L hl
    have hold : (∃ L₀, a.lead T = some (c, L₀)) ∨ run.Leads (k + 1) c T := by
      rcases eq_or_ne c (actor (run.event k)) with rfl | hne
      · exact hsim.led hl
      · exact .inl ⟨L, hsim.frame.lead hne hl⟩
    rcases hold with ⟨L₀, hl₀⟩ | hnew
    · obtain ⟨j, hj, hled⟩ := h.led hl₀
      exact ⟨j, by omega, hled⟩
    · exact ⟨k + 1, le_rfl, hnew⟩
  · intro j hj n hn T hled
    rcases Nat.lt_or_ge k j with hlt | hge
    · obtain rfl : j = k + 1 := by omega
      obtain ⟨hr, rfl⟩ := hled
      exact (hnodes n hn).lead.mp hr
    · obtain ⟨L, hl⟩ := h.ruled j hge n hn hled
      obtain ⟨L', hl', _⟩ := hx.lead hl
      exact ⟨L', hl'⟩
  · intro f T m hack
    rcases hsim.acked hack with hold | ⟨rfl, hT, hlog⟩
    · obtain ⟨j, hj, hT, c, L, hl, hm, htake⟩ := h.acked hold
      obtain ⟨L', hl', hL⟩ := hx.lead hl
      exact ⟨j, by omega, hT, c, L', hl', hm.trans hL.length_le, take_eq_of_isPrefix htake hm hL⟩
    · exact ⟨k + 1, le_rfl, hT, hlog⟩
  · intro hck j hj n hn i hp
    rcases Nat.lt_or_ge j k with hlt | hge
    · obtain ⟨T, X, e, hdec, hX⟩ := h.passed hck j hlt n hn hp
      exact ⟨T, X, e, hdec.mono hx le_rfl, hX⟩
    · obtain rfl : j = k := by omega
      exact (hnodes n hn).passed hk hck hp

end

theorem ClusterRun.exists_tracks (run : ClusterRun spec) {ck : Checks} (hmet : run.Meets ck)
    (hone : ck.votes ∨ run.OneLeaderPerTerm) : ∀ k ≤ run.len, ∃ a, Tracks run ck k a := by
  refine run.position_induction ⟨_, Tracks.zero run ck⟩ fun k hk ⟨a, h⟩ => ?_
  obtain ⟨a', hsim⟩ := h.simulates hk hmet hone
  exact ⟨a', h.succ hk rfl hsim⟩

end Norn
