import Norn.Raft.History
import Norn.Raft.Votes

/-!
# Members that do not count

The network is arbitrary here.
-/

namespace Norn
open List
open RaftMember (toSpec)
namespace Raft

def LikeVoters : List RaftMember → List RaftMember → Prop :=
  List.Forall₂ fun m m' => m'.toSpec = m.toSpec ∧ (m.role = .voter → m' = m)

variable {xs ys : List RaftMember} {f g : RaftMember → RaftMember}

theorem LikeVoters.map (h : LikeVoters xs ys) (hf : ∀ m, (f m).toSpec = m.toSpec)
    (hg : ∀ m, (g m).toSpec = m.toSpec) (hfg : ∀ m ∈ xs, m.role = .voter → g m = f m) :
    LikeVoters (xs.map f) (ys.map g) := by
  induction h with
  | nil => exact .nil
  | @cons m m' xs ys hm _ ih =>
    refine .cons ⟨?_, fun hvoter => ?_⟩ (ih fun n hn => hfg n (mem_cons_of_mem m hn))
    · rw [hf, hg, hm.1]
    · have hrole : m.role = .voter := (congrArg MemberSpec.role (hf m)).symm.trans hvoter
      rw [hm.2 hrole]
      exact hfg m mem_cons_self hrole

theorem LikeVoters.specs (h : LikeVoters xs ys) :
    ys.map toSpec = xs.map toSpec := by
  induction h with
  | nil => rfl
  | cons hm _ ih => rw [map_cons, map_cons, hm.1, ih]

theorem LikeVoters.countP (h : LikeVoters xs ys) (p : RaftMember → Prop) [DecidablePred p] :
    (ys.countP fun m => m.role = .voter ∧ p m) = xs.countP fun m => m.role = .voter ∧ p m := by
  induction h with
  | nil => rfl
  | @cons m m' xs ys hm _ ih =>
    have hrole : m'.role = m.role := congrArg MemberSpec.role hm.1
    rw [countP_cons, countP_cons, ih]
    by_cases hvoter : m.role = .voter
    · rw [hm.2 hvoter]
    · simp [hrole, hvoter]

theorem LikeVoters.find? (h : LikeVoters xs ys) (id : RaftNodeId) :
    (xs.find? (fun m => m.id == id) = none ∧ ys.find? (fun m => m.id == id) = none) ∨
      ∃ m m', xs.find? (fun m => m.id == id) = some m ∧ ys.find? (fun m => m.id == id) = some m' ∧
        (m.role = .voter → m' = m) := by
  induction h with
  | nil => exact .inl ⟨rfl, rfl⟩
  | @cons m m' xs ys hm _ ih =>
    have hid : m'.id = m.id := congrArg MemberSpec.id hm.1
    rw [find?_cons, find?_cons, hid]
    cases m.id == id with
    | false => exact ih
    | true => exact .inr ⟨m, m', rfl, rfl, hm.2⟩

/-- The nodes differ only in what they note about members that do not vote. -/
def SameVoters (r r' : Raft) : Prop :=
  ∃ ms, r' = { r with members := ms } ∧ LikeVoters r.members ms

namespace SameVoters
variable {r r' : Raft}
section
variable (h : SameVoters r r')
include h

theorem specs : r'.members.map toSpec = r.members.map toSpec := by
  obtain ⟨ms, rfl, hms⟩ := h
  exact hms.specs

theorem countVoters : r'.countVoters = r.countVoters := by
  rw [countVoters_of_specs, countVoters_of_specs, h.specs]

theorem quorum : r'.quorum = r.quorum := by
  rw [Raft.quorum, Raft.quorum, h.countVoters]

theorem grants : r'.grants = r.grants := by
  obtain ⟨ms, rfl, hms⟩ := h
  exact hms.countP fun m => m.voteGranted = true

theorem replicatedOn (idx : ℕ) : r'.replicatedOn idx = r.replicatedOn idx := by
  obtain ⟨ms, rfl, hms⟩ := h
  exact hms.countP fun m => idx ≤ m.matchIndex

theorem commitScan (i : ℕ) : r'.commitScan i = r.commitScan i := by
  have hq := h.quorum
  have hon := h.replicatedOn
  obtain ⟨ms, rfl, hms⟩ := h
  induction i with
  | zero => rfl
  | succ i ih => simp only [Raft.commitScan, ih, hq, hon]

theorem newCommit : r'.newCommit = r.newCommit := by
  have hscan := h.commitScan r.log.length
  obtain ⟨ms, rfl, hms⟩ := h
  simp only [Raft.newCommit, lastLogIndex, hscan]

theorem selfIsEligibleVoter : r'.selfIsEligibleVoter = r.selfIsEligibleVoter := by
  have hspecs := h.specs
  obtain ⟨ms, rfl, hms⟩ := h
  rw [selfIsEligibleVoter_eq, selfIsEligibleVoter_eq, hspecs]

variable (id : RaftNodeId)

theorem updateMember (hf : ∀ m, (f m).toSpec = m.toSpec) (hg : ∀ m, (g m).toSpec = m.toSpec)
    (hfg : ∀ m ∈ r.members, m.id = id → m.role = .voter → g m = f m) :
    SameVoters (r.updateMember id f) (r'.updateMember id g) := by
  obtain ⟨ms, rfl, hms⟩ := h
  refine ⟨_, rfl, hms.map (fun m => ?_) (fun m => ?_) fun m hm hvoter => ?_⟩
  · split_ifs
    · exact hf m
    · rfl
  · split_ifs
    · exact hg m
    · rfl
  · split_ifs with hid
    · exact hfg m hm hid hvoter
    · rfl

theorem updateMember_same (hf : ∀ m, (f m).toSpec = m.toSpec) :
    SameVoters (r.updateMember id f) (r'.updateMember id f) :=
  h.updateMember id hf hf fun _ _ _ _ => rfl

theorem becomeFollower (term : ℕ) (leader : RaftNodeId) :
    SameVoters (r.becomeFollower term leader) (r'.becomeFollower term leader) := by
  obtain ⟨ms, rfl, hms⟩ := h
  rw [becomeFollower_eq, becomeFollower_eq]
  exact ⟨ms, rfl, hms⟩

theorem selfVote : SameVoters r.selfVote r'.selfVote := by
  have hreset : SameVoters r.resetVotes r'.resetVotes := by
    obtain ⟨ms, rfl, hms⟩ := h
    exact ⟨_, rfl, hms.map (fun _ => rfl) (fun _ => rfl) fun _ _ _ => rfl⟩
  have hself : r'.self = r.self := by
    obtain ⟨ms, rfl, _⟩ := h
    rfl
  rw [Raft.selfVote, Raft.selfVote, hself]
  exact hreset.updateMember_same r.self fun _ => rfl

theorem appendOwn (type : RaftEntryType) (data : List UInt8) :
    SameVoters (r.appendOwn type data) (r'.appendOwn type data) := by
  obtain ⟨ms, rfl, hms⟩ := h
  rw [appendOwn_eq, appendOwn_eq]
  refine updateMember_same ?_ _ fun m => ?_
  · exact ⟨ms, rfl, hms⟩
  · rfl

theorem applyCommitted : SameVoters r.applyCommitted.1 r'.applyCommitted.1 := by
  obtain ⟨ms, rfl, hms⟩ := h
  rw [applyCommitted_fst, applyCommitted_fst]
  exact ⟨ms, rfl, hms⟩

theorem takeCommit (leaderCommit : ℕ) :
    SameVoters (r.takeCommit leaderCommit).1 (r'.takeCommit leaderCommit).1 := by
  obtain ⟨ms, rfl, hms⟩ := h
  unfold Raft.takeCommit
  dsimp only
  split_ifs
  · apply applyCommitted
    exact ⟨ms, rfl, hms⟩
  · exact ⟨ms, rfl, hms⟩

theorem advanceCommit : SameVoters r.advanceCommit.1 r'.advanceCommit.1 := by
  have hcommit := h.newCommit
  obtain ⟨ms, rfl, hms⟩ := h
  rw [advanceCommit_fst, advanceCommit_fst, hcommit]
  exact ⟨ms, rfl, hms⟩

theorem office : SameVoters r.office r'.office := by
  obtain ⟨ms, rfl, hms⟩ := h
  refine ⟨_, rfl, LikeVoters.map ?_ (fun m => ?_) (fun m => ?_) fun _ _ _ => rfl⟩
  · exact hms.map (fun _ => rfl) (fun _ => rfl) fun _ _ _ => rfl
  · split_ifs <;> rfl
  · split_ifs <;> rfl

theorem log_eq : r'.log = r.log := by
  obtain ⟨ms, rfl, _⟩ := h
  rfl

theorem becomeLeader : SameVoters r.becomeLeader.1 r'.becomeLeader.1 := by
  rw [becomeLeader_eq, becomeLeader_eq, h.log_eq]
  dsimp only
  split_ifs
  · exact h.office.appendOwn _ _
  · exact h.office

theorem stands (inPreVote term : ℕ) (vote : RaftNodeId) :
    SameVoters { r with inPreVote := inPreVote, currentTerm := term, votedFor := vote }
      { r' with inPreVote := inPreVote, currentTerm := term, votedFor := vote } := by
  obtain ⟨ms, rfl, hms⟩ := h
  exact ⟨ms, rfl, hms⟩

theorem self_eq : r'.self = r.self ∧ r'.currentTerm = r.currentTerm := by
  obtain ⟨ms, rfl, _⟩ := h
  exact ⟨rfl, rfl⟩

theorem startElection : SameVoters r.startElection.1 r'.startElection.1 := by
  have hright := h.selfIsEligibleVoter
  obtain ⟨hself, hterm⟩ := h.self_eq
  have hstood : SameVoters r.stood r'.stood := by
    apply selfVote
    obtain ⟨ms, rfl, hms⟩ := h
    exact ⟨ms, rfl, hms⟩
  rw [startElection_eq, startElection_eq, hright, hstood.countVoters, hself, hterm]
  split_ifs
  · obtain ⟨ms, rfl, hms⟩ := h
    exact ⟨ms, rfl, hms⟩
  · exact (hstood.stands 0 (r.currentTerm + 1) r.self).becomeLeader
  · obtain ⟨ms, heq, hms⟩ := hstood
    rw [heq]
    exact ⟨ms, rfl, hms⟩

theorem observed (term : ℕ) : SameVoters (r.observed term) (r'.observed term) := by
  unfold Raft.observed
  rw [h.self_eq.2]
  split_ifs
  · exact h.becomeFollower _ _
  · exact h

theorem handleRequestVote (term preVote : ℕ) (candidateId : RaftNodeId)
    (lastLogIndex lastLogTerm : ℕ) :
    SameVoters (r.handleRequestVote term preVote candidateId lastLogIndex lastLogTerm).1
      (r'.handleRequestVote term preVote candidateId lastLogIndex lastLogTerm).1 := by
  by_cases hpre : preVote ≠ 0
  · obtain ⟨_, heq⟩ := r.handleRequestVote_preVote term hpre candidateId lastLogIndex lastLogTerm
    obtain ⟨_, heq'⟩ := r'.handleRequestVote_preVote term hpre candidateId lastLogIndex lastLogTerm
    rw [heq, heq']
    exact h
  · obtain rfl := not_not.mp hpre
    rw [handleRequestVote_real, handleRequestVote_real]
    obtain ⟨ms, heq, hms⟩ := h.observed term
    have hok : ({ r.observed term with members := ms } : Raft).logOk lastLogIndex lastLogTerm =
      (r.observed term).logOk lastLogIndex lastLogTerm := rfl
    rw [heq, hok]
    dsimp only
    split_ifs
    · exact ⟨ms, rfl, hms⟩
    · exact ⟨ms, rfl, hms⟩

theorem handleRequestVoteResp (term preVote : ℕ) (voteGranted : Bool) :
    SameVoters (r.handleRequestVoteResp term preVote voteGranted).1
      (r'.handleRequestVoteResp term preVote voteGranted).1 := by
  have hgrants := h.grants
  have hquorum := h.quorum
  have hfollower := h.becomeFollower term raftNoNode
  have hleader := h.becomeLeader
  have hwon := (h.stands 0 (r.currentTerm + 1) r.self).selfVote
  unfold Raft.handleRequestVoteResp
  rw [hgrants, hquorum]
  obtain ⟨ms, rfl, hms⟩ := h
  dsimp only
  split_ifs
  · exact hfollower
  · exact ⟨ms, rfl, hms⟩
  · exact ⟨ms, rfl, hms⟩
  · exact ⟨ms, rfl, hms⟩
  · exact ⟨ms, rfl, hms⟩
  · obtain ⟨ms', heq, hms'⟩ := hwon
    refine ⟨ms', ?_, hms'⟩
    exact congrArg (fun r : Raft => { r with electionElapsed := 0 }) heq
  · exact hleader

theorem handleAppend (term : ℕ) (leaderId : RaftNodeId) (prevLogIndex prevLogTerm : ℕ)
    (entries : List RaftEntry) (leaderCommit : ℕ) :
    SameVoters (r.handleAppend term leaderId prevLogIndex prevLogTerm entries leaderCommit).1
      (r'.handleAppend term leaderId prevLogIndex prevLogTerm entries leaderCommit).1 := by
  obtain ⟨ms, rfl, hms⟩ := h
  rw [handleAppend_eq, handleAppend_eq]
  dsimp only
  split_ifs
  · exact ⟨ms, rfl, hms⟩
  · exact ⟨ms, rfl, hms⟩
  · apply takeCommit
    exact ⟨ms, rfl, hms⟩

theorem findMember : (r.findMember id = none ∧ r'.findMember id = none) ∨
      ∃ m m', r.findMember id = some m ∧ r'.findMember id = some m' ∧ (m.role = .voter → m' = m) := by
  obtain ⟨ms, rfl, hms⟩ := h
  exact hms.find? id

end

theorem backOff_eq (r : Raft) (src : RaftNodeId) (mm : RaftMember) :
    (if 1 < mm.nextIndex then
      let r := r.updateMember src fun m => { m with nextIndex := mm.nextIndex - 1 }
      (r, [r.sendAppend { mm with nextIndex := mm.nextIndex - 1 }])
    else (r, [])).1 = r.updateMember src fun m =>
      if 1 < mm.nextIndex then { m with nextIndex := mm.nextIndex - 1 } else m := by
  split_ifs
  · rfl
  · simp [Raft.updateMember]

section
variable (h : SameVoters r r')
include h

theorem handleAppendResp (hnodup : (r.members.map RaftMember.id).Nodup) (src : RaftNodeId) (term : ℕ)
    (success : Bool) (matchIndex : ℕ) :
    SameVoters (r.handleAppendResp src term success matchIndex).1
      (r'.handleAppendResp src term success matchIndex).1 := by
  have hrole : r'.role = r.role := by
    obtain ⟨ms, rfl, _⟩ := h
    rfl
  unfold Raft.handleAppendResp
  rw [h.self_eq.2, hrole]
  by_cases hterm : r.currentTerm < term
  · rw [if_pos hterm, if_pos hterm]
    exact h.becomeFollower _ _
  by_cases hlead : r.role ≠ .leader
  · rw [if_neg hterm, if_neg hterm, if_pos hlead, if_pos hlead]
    exact h
  rw [if_neg hterm, if_neg hterm, if_neg hlead, if_neg hlead]
  rcases h.findMember src with ⟨hnone, hnone'⟩ | ⟨mm, mm', hfind, hfind', hsame⟩
  · rw [hnone, hnone']
    exact h
  rw [hfind, hfind']
  obtain ⟨hmem, hsrc⟩ := r.mem_of_findMember hfind
  -- the record of a voter is the one that was found
  have hfound : ∀ m ∈ r.members, m.id = src → m.role = .voter → mm' = mm := by
    intro m hm hid hvoter
    have heq : m = mm := inj_on_of_nodup_map hnodup hm hmem (hid.trans hsrc.symm)
    exact hsame (heq ▸ hvoter)
  cases success with
  | true =>
    apply advanceCommit
    refine h.updateMember src (fun _ => rfl) (fun _ => rfl) fun m hm hid hvoter => ?_
    rw [hfound m hm hid hvoter]
  | false =>
    simp only [Bool.false_eq_true, if_false]
    rw [backOff_eq, backOff_eq]
    refine h.updateMember src (fun m => ?_) (fun m => ?_) fun m hm hid hvoter => ?_
    · split_ifs <;> rfl
    · split_ifs <;> rfl
    · rw [hfound m hm hid hvoter]

theorem raftRecv (hnodup : (r.members.map RaftMember.id).Nodup) (src : RaftNodeId) (msg : RaftMsg) :
    SameVoters (r.raftRecv src msg).1 (r'.raftRecv src msg).1 := by
  cases msg with
  | requestVote => exact h.handleRequestVote _ _ _ _ _
  | requestVoteResp term preVote voteGranted =>
    refine handleRequestVoteResp ?_ _ _ _
    cases voteGranted with
    | false => exact h
    | true => exact h.updateMember_same src fun _ => rfl
  | append => exact h.handleAppend _ _ _ _ _ _
  | appendResp => exact h.handleAppendResp hnodup _ _ _ _

theorem raftTick (nowMs : ℕ) : SameVoters (r.raftTick nowMs).1 (r'.raftTick nowMs).1 := by
  rw [raftTick_eq, raftTick_eq]
  have htimers : SameVoters (r.advanceTimers nowMs) (r'.advanceTimers nowMs) := by
    obtain ⟨ms, rfl, hms⟩ := h
    exact ⟨ms, rfl, hms⟩
  generalize r.advanceTimers nowMs = r₁ at htimers
  generalize r'.advanceTimers nowMs = r₂ at htimers
  have hstart := htimers.startElection.applyCommitted
  have happly := htimers.applyCommitted
  obtain ⟨ms, rfl, hms⟩ := htimers
  have htimeout : ({ r₁ with members := ms } : Raft).electionTimeout = r₁.electionTimeout := rfl
  unfold afterTimers
  rw [htimeout]
  dsimp only
  split_ifs
  · exact ⟨ms, rfl, hms⟩
  · exact ⟨ms, rfl, hms⟩
  · exact hstart
  · exact happly

theorem raftPropose (data : List UInt8) :
    SameVoters (r.raftPropose data).2.1 (r'.raftPropose data).2.1 := by
  have hown := (h.appendOwn .normal data).advanceCommit
  obtain ⟨ms, rfl, hms⟩ := h
  unfold Raft.raftPropose
  dsimp only
  split_ifs
  · exact ⟨ms, rfl, hms⟩
  · exact ⟨ms, rfl, hms⟩
  · exact hown

theorem wins_iff (term preVote : ℕ) (voteGranted : Bool) :
    r'.Wins term preVote voteGranted ↔ r.Wins term preVote voteGranted := by
  have hgrants := h.grants
  have hquorum := h.quorum
  obtain ⟨ms, rfl, _⟩ := h
  rw [Wins, Wins, hgrants, hquorum]

end
end SameVoters

def mute (r : Raft) : Raft :=
  { r with members := r.members.map fun m =>
      if m.role = .learner then { m with voteGranted := false, matchIndex := 0 } else m }

theorem sameVoters_mute (r : Raft) : SameVoters r r.mute := by
  refine ⟨_, rfl, ?_⟩
  induction r.members with
  | nil => exact .nil
  | cons m ms ih =>
    refine .cons ⟨?_, fun hvoter => if_neg ?_⟩ ih
    · dsimp only
      split_ifs <;> rfl
    · rw [hvoter]
      decide

def decisions (r : Raft) : RaftRole × ℕ × RaftNodeId × ℕ × ℕ × ℕ × List RaftEntry :=
  (r.role, r.currentTerm, r.votedFor, r.inPreVote, r.commitIndex, r.lastApplied, r.log)

theorem SameVoters.decisions_eq {r r' : Raft} (h : SameVoters r r') : r'.decisions = r.decisions := by
  obtain ⟨ms, rfl, _⟩ := h
  rfl

end Raft

namespace Cluster

def openStep (c : Cluster) (e : ClusterEvent) : Cluster :=
  c.act (actor e) ((call (c.nodes (actor e)) e).1.wrap, (call (c.nodes (actor e)) e).2)

def openSystem (spec : ClusterSpec) : System Cluster ClusterEvent where
  init := Initial spec
  next c e c' := actor e ∈ spec.ids ∧ c' = c.openStep e

theorem sameVoters_call {r r' : Raft} (h : r.SameVoters r')
    (hnodup : (r.members.map RaftMember.id).Nodup) (e : ClusterEvent) :
    (call r e).1.SameVoters (call r' e).1 := by
  cases e with
  | tick node nowMs => exact h.raftTick nowMs
  | propose node data => exact h.raftPropose data
  | deliver packet => exact h.raftRecv hnodup packet.src packet.msg

structure Seated (spec : ClusterSpec) (n : RaftNodeId) (r : Raft) : Prop where
  self : r.self = n
  specs : (r.members.map toSpec).Perm spec.members
  stands : r.role ≠ .follower → r.selfIsEligibleVoter = true

namespace Seated
variable {spec : ClusterSpec} {n : RaftNodeId} {r r' : Raft}

theorem of_bootNode {cfg : Option RaftConfig} {order : List MemberSpec}
    (hperm : order.Perm spec.members) (h : bootNode n cfg order = some r) : Seated spec n r := by
  obtain ⟨timing, ms, rfl, _, rfl⟩ := bootNode_eq h
  exact ⟨rfl, hperm, fun hrole => absurd rfl hrole⟩

theorem next (h : Seated spec n r) (hholds : r.Holds r') : Seated spec n r' := by
  refine ⟨hholds.self.trans h.self, hholds.specs ▸ h.specs, fun hrole => ?_⟩
  rw [hholds.eligible_eq]
  exact (hholds.stands hrole).elim h.stands fun heligible => heligible

theorem follower (h : Seated spec n r) {m : MemberSpec} (hm : m ∈ spec.members) (hid : m.id = n)
    (hno : m.role = .learner ∨ m.eligible = false) : r.role = .follower := by
  by_contra hrole
  have hright := h.stands hrole
  rw [Raft.selfIsEligibleVoter_eq, Option.any_eq_true] at hright
  obtain ⟨m', hfind, hvoter⟩ := hright
  have hid' : m'.id = n := by simpa [h.self] using find?_some hfind
  have hmem : m' ∈ spec.members := h.specs.subset (mem_of_find?_eq_some hfind)
  have heq : m' = m := inj_on_of_nodup_map spec.nodup hmem hm (hid'.trans hid.symm)
  subst heq
  rcases hno with hlearner | hineligible
  · simp [hlearner] at hvoter
  · simp [hineligible] at hvoter

theorem act {c : Cluster} (h : ∀ n ∈ spec.ids, Seated spec n (c.nodes n)) {a : RaftNodeId}
    {out : Raft × List RaftEffect} (hholds : (c.nodes a).Holds out.1) :
    ∀ n ∈ spec.ids, Seated spec n ((c.act a out).nodes n) := by
  intro n hn
  rcases eq_or_ne n a with rfl | hne
  · simp only [Cluster.act, Function.update_self]
    exact (h n hn).next hholds
  · simp only [Cluster.act, Function.update_of_ne hne]
    exact h n hn

end Seated

theorem seated_of_initial {spec : ClusterSpec} {c : Cluster} (h : Initial spec c) :
    ∀ n ∈ spec.ids, Seated spec n (c.nodes n) := by
  intro n hn
  obtain ⟨cfg, order, hperm, hboot⟩ := h.2 n hn
  exact .of_bootNode hperm hboot

end Cluster

abbrev OpenRun (spec : ClusterSpec) := Run (Cluster.openSystem spec)

theorem OpenRun.seated {spec : ClusterSpec} (run : OpenRun spec) :
    ∀ k ≤ run.len, ∀ n ∈ spec.ids, Cluster.Seated spec n ((run.state k).nodes n) := by
  refine run.invariant (I := fun c => ∀ n ∈ spec.ids, Cluster.Seated spec n (c.nodes n))
    (fun c hc => Cluster.seated_of_initial hc) fun k hk ih => ?_
  rw [(run.steps k hk).2]
  refine Cluster.Seated.act ih ((Raft.outcome_call _ _).holds.congr rfl ?_ (.inl rfl))
  simp only [Raft.wrap, map_map]
  rfl

/-- Learners and ineligible members never stand, and notes about learners decide nothing. -/
theorem learners_never_count {spec : ClusterSpec} (run : OpenRun spec) :
    (∀ k ≤ run.len, ∀ m ∈ spec.members, m.role = .learner ∨ m.eligible = false →
      ((run.state k).nodes m.id).role = .follower) ∧
    (∀ k < run.len,
      let r := (run.state k).nodes (Cluster.actor (run.event k))
      (Cluster.call r.mute (run.event k)).1.decisions =
        (Cluster.call r (run.event k)).1.decisions) ∧
    ∀ r : Raft, (∀ term preVote voteGranted,
      r.mute.Wins term preVote voteGranted ↔ r.Wins term preVote voteGranted) ∧
        r.mute.newCommit = r.newCommit := by
  refine ⟨fun k hk m hm hno => ?_, fun k hk => ?_, fun r => ?_⟩
  · exact (run.seated k hk m.id (mem_map_of_mem hm)).follower hm rfl hno
  · have hseated := run.seated k hk.le _ (run.steps k hk).1
    exact (Cluster.sameVoters_call (Raft.sameVoters_mute _) (nodup_ids hseated.specs) _).decisions_eq
  · exact ⟨r.sameVoters_mute.wins_iff, r.sameVoters_mute.newCommit⟩

end Norn
