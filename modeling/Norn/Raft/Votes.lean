import Norn.Raft.OwnRecord

/-!
# The votes of one node

The vote of the current term is recorded in `voted_for`, which is written in five places.
-/

namespace Norn
open List
namespace Raft

/-- The vote of a term is never overwritten. -/
structure Ballot (r r' : Raft) : Prop where
  mono : r.currentTerm ≤ r'.currentTerm
  keeps : r'.currentTerm = r.currentTerm → r.votedFor ≠ raftNoNode → r'.votedFor = r.votedFor
  stood : r.currentTerm < r'.currentTerm → r'.role ≠ .follower → r'.votedFor = r.self

namespace Ballot
variable {r r₁ r' : Raft}

theorem congr (h : Ballot r r₁) (hterm : r'.currentTerm = r₁.currentTerm)
    (hvote : r'.votedFor = r₁.votedFor) (hrole : r'.role = r₁.role) : Ballot r r' := by
  constructor
  · exact hterm ▸ h.mono
  · rw [hterm, hvote]
    exact h.keeps
  · rw [hterm, hvote, hrole]
    exact h.stood

theorem of_same (hterm : r'.currentTerm = r.currentTerm) (hvote : r'.votedFor = r.votedFor) :
    Ballot r r' :=
  ⟨hterm.ge, fun _ _ => hvote, fun hlt => absurd hterm hlt.ne'⟩

theorem refl (r : Raft) : Ballot r r := of_same rfl rfl

theorem of_stands (hterm : r'.currentTerm = r.currentTerm + 1) (hvote : r'.votedFor = r.self) :
    Ballot r r' :=
  ⟨by omega, fun heq => absurd heq (by omega), fun _ _ => hvote⟩

theorem becomeFollower (r : Raft) (term : ℕ) (leader : RaftNodeId) :
    Ballot r (r.becomeFollower term leader) := by
  rw [becomeFollower_eq]
  refine ⟨le_max_left _ _, fun heq _ => if_neg ?_, fun _ hrole => absurd rfl hrole⟩
  exact not_lt.mpr (max_eq_left_iff.mp heq)

theorem becomeLeader_ballot (r : Raft) : r.becomeLeader.1.currentTerm = r.currentTerm ∧
    r.becomeLeader.1.votedFor = r.votedFor := by
  rw [becomeLeader_eq]
  split_ifs <;> exact ⟨rfl, rfl⟩

theorem startElection (r : Raft) : Ballot r r.startElection.1 := by
  rw [startElection_eq]
  split_ifs
  · exact of_same rfl rfl
  · obtain ⟨hterm, hvote⟩ := becomeLeader_ballot { r.stood with
      inPreVote := 0, currentTerm := r.currentTerm + 1, votedFor := r.self }
    exact of_stands hterm hvote
  · exact of_same rfl rfl

theorem applyCommitted (h : Ballot r r₁) : Ballot r r₁.applyCommitted.1 := by
  rw [applyCommitted_fst]
  exact h.congr rfl rfl rfl

theorem advanceCommit (h : Ballot r r₁) : Ballot r r₁.advanceCommit.1 := by
  rw [advanceCommit_fst]
  exact h.congr rfl rfl rfl

theorem takeCommit (h : Ballot r r₁) (leaderCommit : ℕ) :
    Ballot r (r₁.takeCommit leaderCommit).1 := by
  rw [takeCommit_fst]
  exact h.congr rfl rfl rfl

theorem joined (r : Raft) {term : ℕ} (hterm : r.currentTerm ≤ term) (leaderId : RaftNodeId) :
    Ballot r (r.joined term leaderId) := by
  refine ⟨hterm, fun heq _ => if_neg ?_, fun _ hrole => absurd rfl hrole⟩
  change term = r.currentTerm at heq
  omega

theorem of_core (h : Ballot r₁ r') (hterm : r₁.currentTerm = r.currentTerm)
    (hvote : r₁.votedFor = r.votedFor) (hself : r₁.self = r.self) : Ballot r r' :=
  ⟨hterm ▸ h.mono, hterm ▸ hvote ▸ h.keeps, hterm ▸ hself ▸ h.stood⟩

end Ballot

def GrantsNone (effects : List RaftEffect) : Prop :=
  ∀ dest term, RaftEffect.send dest (.requestVoteResp term 0 true) ∉ effects

namespace GrantsNone
variable {xs ys : List RaftEffect} {r : Raft}

theorem nil : GrantsNone [] := fun _ _ => not_mem_nil

theorem append (hx : GrantsNone xs) (hy : GrantsNone ys) : GrantsNone (xs ++ ys) :=
  fun dest term h => (mem_append.mp h).elim (hx dest term) (hy dest term)

theorem broadcastVote (preVote term : ℕ) : GrantsNone (r.broadcastVote preVote term) :=
  fun _ _ h => by cases (r.mem_broadcastVote h).2

theorem broadcastAppend : GrantsNone r.broadcastAppend := fun _ _ h => by
  obtain ⟨m, _, _, heq⟩ := r.mem_broadcastAppend h
  rw [sendAppend_eq] at heq
  cases heq

theorem applyCommitted : GrantsNone r.applyCommitted.2 := fun _ _ => r.applyCommitted_no_send

theorem advanceCommit : GrantsNone r.advanceCommit.2 := fun _ _ => r.advanceCommit_no_send

theorem startElection : GrantsNone r.startElection.2 := by
  rw [startElection_eq]
  split_ifs
  · exact nil
  · exact broadcastAppend
  · exact broadcastVote _ _

theorem reply (dest : RaftNodeId) {msg : RaftMsg}
    (h : ∀ term, msg ≠ .requestVoteResp term 0 true) : GrantsNone [.send dest msg] := by
  intro dest' term hm
  cases mem_singleton.mp hm
  exact h term rfl

end GrantsNone

/-- A candidate that asks for a vote has a proper id. -/
def NamesCandidate : RaftCall → Prop
  | .recv _ (.requestVote _ _ candidateId _ _) => candidateId ≠ raftNoNode
  | _ => True

/-- Grants are recorded as the vote of the term. -/
structure Casts (r : Raft) (out : Raft × List RaftEffect) : Prop where
  ballot : Ballot r out.1
  granted : ∀ dest term, RaftEffect.send dest (.requestVoteResp term 0 true) ∈ out.2 →
    term = out.1.currentTerm ∧ out.1.votedFor = dest ∧ dest ≠ raftNoNode

variable {r : Raft} {out : Raft × List RaftEffect} {c : RaftCall} {calls : List RaftCall}

theorem casts_of_none (h : Ballot r out.1) (hnone : GrantsNone out.2) : Casts r out :=
  ⟨h, fun dest term hsend => absurd hsend (hnone dest term)⟩

theorem casts_granted {term : ℕ} {candidateId : RaftNodeId} (hid : candidateId ≠ raftNoNode)
    (hlook : Ballot r (r.observed term))
    (hfree : (r.observed term).votedFor = raftNoNode ∨ (r.observed term).votedFor = candidateId) :
    Casts r ({ r.observed term with votedFor := candidateId, electionElapsed := 0 },
      [.send candidateId (.requestVoteResp (r.observed term).currentTerm 0 true)]) := by
  have hrole : r.currentTerm < (r.observed term).currentTerm →
      (r.observed term).role = .follower := by
    unfold observed
    split_ifs
    · rw [becomeFollower_eq]
      exact fun _ => rfl
    · exact fun hlt => absurd hlt (lt_irrefl _)
  refine ⟨⟨hlook.mono, fun heq hvoted => ?_, fun hlt hne => absurd (hrole hlt) hne⟩, ?_⟩
  · have hkept := hlook.keeps heq hvoted
    rcases hfree with hnone | hsame
    · exact absurd (hkept.symm.trans hnone) hvoted
    · exact hsame.symm.trans hkept
  · intro dest term' h
    cases mem_singleton.mp h
    exact ⟨rfl, rfl, hid⟩

theorem Outcome.casts {e : ClusterEvent} (h : r.Outcome e out)
    (hid : ∀ src dst term preVote candidateId li lt,
      e = .deliver ⟨src, dst, .requestVote term preVote candidateId li lt⟩ →
        candidateId ≠ raftNoNode) : Casts r out := by
  have hlook : ∀ term, Ballot r (r.observed term) := fun term =>
    r.observed_cases term (Ballot.becomeFollower r _ _) (Ballot.refl r)
  have hcounting : ∀ src voteGranted, Ballot r (r.counting src voteGranted) :=
    fun src voteGranted => by cases voteGranted <;> exact Ballot.of_same rfl rfl
  have hsame : ∀ {r' : Raft}, r'.currentTerm = r.currentTerm → r'.votedFor = r.votedFor →
      Casts r (r', []) := fun hterm hvote => casts_of_none (.of_same hterm hvote) .nil
  cases h with
  | answered hpre =>
    exact casts_of_none (Ballot.refl r) (.reply _ fun _ h => hpre (RaftMsg.requestVoteResp.inj h).2.1)
  | refused => exact casts_of_none (hlook _) (.reply _ fun _ h => nomatch h)
  | granted hfree => exact casts_granted (hid _ _ _ _ _ _ _ rfl) (hlook _) hfree
  | @outdated _ _ _ voteGranted =>
    refine casts_of_none ((Ballot.becomeFollower _ _ _).of_core ?_ ?_ ?_) .nil <;>
      cases voteGranted <;> rfl
  | counted => exact casts_of_none (hcounting _ _) .nil
  | won => exact casts_of_none (.of_stands rfl rfl) (.broadcastVote _ _)
  | elected =>
    obtain ⟨hterm, hvote⟩ := Ballot.becomeLeader_ballot (r.flagged _)
    exact casts_of_none (.of_same hterm hvote) .broadcastAppend
  | overdue => exact casts_of_none (Ballot.refl r) (.reply _ fun _ h => nomatch h)
  | missed hterm => exact casts_of_none (Ballot.joined r hterm _) (.reply _ fun _ h => nomatch h)
  | @taken _ _ leaderId _ _ _ _ _ hterm =>
    refine casts_of_none ?_ (.append (fun _ _ => takeCommit_no_send _) (.reply _ fun _ h => nomatch h))
    apply Ballot.takeCommit
    exact (Ballot.joined r hterm leaderId).congr rfl rfl rfl
  | overtaken => exact casts_of_none (Ballot.becomeFollower r _ _) .nil
  | ignored | declined | quiet => exact hsame rfl rfl
  | acked =>
    refine casts_of_none ?_ .advanceCommit
    apply Ballot.advanceCommit
    exact .of_same rfl rfl
  | backed _ _ _ hr' =>
    subst hr'
    refine casts_of_none (.of_same rfl rfl) ?_
    rw [sendAppend_eq]
    exact .reply _ fun _ h => nomatch h
  | proposed =>
    refine casts_of_none ?_ (GrantsNone.broadcastAppend.append .advanceCommit)
    apply Ballot.advanceCommit
    exact .of_same rfl rfl
  | beat _ hr' => exact casts_of_none (hr' ▸ .of_same rfl rfl) .broadcastAppend
  | started =>
    refine casts_of_none ?_ (GrantsNone.startElection.append .applyCommitted)
    exact (Ballot.startElection (r.advanceTimers _)).applyCommitted.of_core rfl rfl rfl
  | waited =>
    refine casts_of_none ?_ .applyCommitted
    exact (Ballot.refl (r.advanceTimers _)).applyCommitted.of_core rfl rfl rfl

theorem casts_call (r : Raft) (hc : NamesCandidate c) : Casts r (r.call c) := by
  have htable : ∀ {c : RaftCall}, c.EditsTable → Casts r (r.call c) := fun h => by
    obtain ⟨ms, heq⟩ := r.call_of_editsTable h
    rw [heq]
    exact casts_of_none (Ballot.of_same rfl rfl) GrantsNone.nil
  cases c with
  | addMember | removeMember | promote | setEligible => exact htable trivial
  | propose data => exact (r.outcome_propose 0 data).casts fun _ _ _ _ _ _ _ h => nomatch h
  | tick nowMs => exact (r.outcome_tick 0 nowMs).casts fun _ _ _ _ _ _ _ h => nomatch h
  | recv src msg =>
    refine (r.outcome_call (.deliver ⟨src, 0, msg⟩)).casts fun _ _ _ _ _ _ _ h => ?_
    cases h
    exact hc

def grantOf : RaftEffect → Option (ℕ × RaftNodeId)
  | .send dest (.requestVoteResp term 0 true) => some (term, dest)
  | _ => none

def votesCast (r : Raft) (c : RaftCall) : List (ℕ × RaftNodeId) :=
  (r.call c).2.filterMap grantOf ++
    if r.currentTerm < (r.call c).1.currentTerm ∧ (r.call c).1.role ≠ .follower then
      [((r.call c).1.currentTerm, r.self)]
    else []

def polled : Transducer Raft RaftCall (ℕ × RaftNodeId) := fun r c => ((r.call c).1, r.votesCast c)

theorem votesCast_spec (hself : r.self ≠ raftNoNode) (hc : NamesCandidate c) {v : ℕ × RaftNodeId}
    (hv : v ∈ r.votesCast c) :
    v.1 = (r.call c).1.currentTerm ∧ (r.call c).1.votedFor = v.2 ∧ v.2 ≠ raftNoNode := by
  have hcasts := r.casts_call hc
  rcases mem_append.mp hv with hgrant | hstood
  · obtain ⟨effect, heffect, hof⟩ := mem_filterMap.mp hgrant
    unfold grantOf at hof
    split at hof
    · cases hof
      exact hcasts.granted _ _ heffect
    · cases hof
  · split_ifs at hstood with hraised
    · cases mem_singleton.mp hstood
      exact ⟨rfl, hcasts.ballot.stood hraised.1 hraised.2, hself⟩
    · exact absurd hstood not_mem_nil

structure Recorded (r : Raft) (votes : List (ℕ × RaftNodeId)) : Prop where
  self : r.self ≠ raftNoNode
  real : ∀ v ∈ votes, v.2 ≠ raftNoNode
  le : ∀ v ∈ votes, v.1 ≤ r.currentTerm
  recorded : ∀ v ∈ votes, v.1 = r.currentTerm → r.votedFor = v.2
  unique : ∀ v ∈ votes, ∀ w ∈ votes, v.1 = w.1 → v.2 = w.2

theorem recorded_raftNew {self : RaftNodeId} {cfg : Option RaftConfig}
    (h : raftNew self cfg = some r) : Recorded r [] := by
  unfold raftNew at h
  split_ifs at h with hself
  cases h
  exact ⟨hself, by simp, by simp, by simp, by simp⟩

theorem Recorded.next {votes : List (ℕ × RaftNodeId)} (h : Recorded r votes)
    (hc : NamesCandidate c) : Recorded (r.call c).1 (votes ++ r.votesCast c) := by
  have hballot := (r.casts_call hc).ballot
  have hnew := fun {v} => votesCast_spec h.self hc (v := v)
  have hrecorded : ∀ v ∈ votes ++ r.votesCast c, v.1 = (r.call c).1.currentTerm →
      (r.call c).1.votedFor = v.2 := by
    intro v hv hterm
    rcases mem_append.mp hv with hold | hcast
    · have hsame : (r.call c).1.currentTerm = r.currentTerm :=
        le_antisymm (hterm ▸ h.le v hold) hballot.mono
      have hvote := h.recorded v hold (hterm.trans hsame)
      rw [hballot.keeps hsame (hvote ▸ h.real v hold), hvote]
    · exact (hnew hcast).2.1
  refine ⟨?_, fun v hv => ?_, fun v hv => ?_, hrecorded, fun v hv w hw hterm => ?_⟩
  · rw [self_call]
    exact h.self
  · exact (mem_append.mp hv).elim (h.real v) fun hcast => (hnew hcast).2.2
  · exact (mem_append.mp hv).elim (fun hold => (h.le v hold).trans hballot.mono)
      fun hcast => (hnew hcast).1.le
  · -- a vote of this call is the one on record
    rcases mem_append.mp hv with hvold | hvcast
    · rcases mem_append.mp hw with hwold | hwcast
      · exact h.unique v hvold w hwold hterm
      · rw [← hrecorded v hv (hterm.trans (hnew hwcast).1), (hnew hwcast).2.1]
    · rw [← hrecorded w hw (hterm.symm.trans (hnew hvcast).1), (hnew hvcast).2.1]

theorem recorded_exec (h : Recorded r []) (hcalls : ∀ c ∈ calls, NamesCandidate c) :
    Recorded (polled.exec r calls).1 (polled.exec r calls).2 := by
  induction calls using reverseRecOn with
  | nil => exact h
  | append_singleton calls c ih =>
    have hnext := (ih fun c' hc' => hcalls c' (mem_append_left _ hc')).next
      (hcalls c (mem_append_right _ mem_cons_self))
    rw [Transducer.exec_append]
    simpa [Transducer.exec, polled] using hnext

theorem currentTerm_le_exec (r : Raft) (hcalls : ∀ c ∈ calls, NamesCandidate c) :
    r.currentTerm ≤ (polled.exec r calls).1.currentTerm := by
  induction calls generalizing r with
  | nil => exact le_rfl
  | cons c calls ih =>
    obtain ⟨hc, hrest⟩ := forall_mem_cons.mp hcalls
    exact (r.casts_call hc).ballot.mono.trans (ih (r.call c).1 hrest)

/-- Terms do not fall, no term has two real votes, and a pre-vote request changes nothing. -/
theorem one_vote_per_term {self : RaftNodeId} {cfg : Option RaftConfig} {r : Raft}
    (h : raftNew self cfg = some r) {calls : List RaftCall}
    (hcalls : ∀ c ∈ calls, NamesCandidate c) :
    (∀ xs ys, xs ++ ys <+: calls →
      (polled.exec r xs).1.currentTerm ≤ (polled.exec r (xs ++ ys)).1.currentTerm) ∧
    (∀ v ∈ (polled.exec r calls).2, ∀ w ∈ (polled.exec r calls).2, v.1 = w.1 → v.2 = w.2) ∧
    ∀ src term preVote candidateId lastLogIndex lastLogTerm, preVote ≠ 0 →
      let before := (polled.exec r calls).1
      let after := (before.raftRecv src
        (.requestVote term preVote candidateId lastLogIndex lastLogTerm)).1
      after.currentTerm = before.currentTerm ∧ after.votedFor = before.votedFor ∧
        after.log = before.log := by
  refine ⟨fun xs ys hpre => ?_, (recorded_exec (recorded_raftNew h) hcalls).unique, ?_⟩
  · rw [Transducer.exec_append]
    exact currentTerm_le_exec _ fun c hc => hcalls c (hpre.subset (mem_append_right _ hc))
  · intro src term preVote candidateId lastLogIndex lastLogTerm hpre
    obtain ⟨grant, heq⟩ := handleRequestVote_preVote (polled.exec r calls).1 term hpre candidateId
      lastLogIndex lastLogTerm
    simp only [raftRecv, heq, and_self]

theorem votingNode_votes_once : ∃ r, raftNew 1 none = some r ∧
    (polled.exec r [.addMember 1 .voter true, .recv 2 (.requestVote 5 0 2 0 0),
      .recv 3 (.requestVote 5 0 3 0 0), .tick 1000]).2 = [(5, 2), (6, 1)] ∧
    ∀ v ∈ (polled.exec r [.addMember 1 .voter true, .recv 2 (.requestVote 5 0 2 0 0),
      .recv 3 (.requestVote 5 0 3 0 0), .tick 1000]).2,
      ∀ w ∈ (polled.exec r [.addMember 1 .voter true, .recv 2 (.requestVote 5 0 2 0 0),
        .recv 3 (.requestVote 5 0 3 0 0), .tick 1000]).2, v.1 = w.1 → v.2 = w.2 := by
  obtain ⟨r, hr⟩ : ∃ r, raftNew 1 none = some r := ⟨_, rfl⟩
  refine ⟨r, hr, ?_, (one_vote_per_term hr ?_).2.1⟩
  · cases hr
    decide +kernel
  · simp [NamesCandidate, raftNoNode]

end Raft
end Norn
