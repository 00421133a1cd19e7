import Norn.Raft.CoreFacts

/-!
# What a call does to the indices of a node

With three conditions on deliveries under which flags and indices stand for what they say.
-/

namespace Norn

namespace Raft

def NextPos (r : Raft) : Prop := ∀ m ∈ r.members, 1 ≤ m.nextIndex

variable {r : Raft}

theorem NextPos.updateMember (h : r.NextPos) (id : RaftNodeId) {f : RaftMember → RaftMember}
    (hf : ∀ m, 1 ≤ m.nextIndex → 1 ≤ (f m).nextIndex) : (r.updateMember id f).NextPos := by
  intro m' hm'
  obtain ⟨m, hm, rfl⟩ := r.mem_updateMember.mp hm'
  split_ifs
  · exact hf m (h m hm)
  · exact h m hm

theorem NextPos.selfVote (h : r.NextPos) : r.selfVote.NextPos := by
  have hreset : r.resetVotes.NextPos := by
    intro m' hm'
    obtain ⟨m, hm, rfl⟩ := List.mem_map.mp hm'
    exact h m hm
  exact hreset.updateMember r.self fun _ hm => hm

theorem nextPos_office (r : Raft) : r.office.NextPos := fun m hm => by
  rw [(r.mem_office hm).1]
  omega

theorem NextPos.appendOwn (h : r.NextPos) (type : RaftEntryType) (data : List UInt8) :
    (r.appendOwn type data).NextPos := by
  rw [appendOwn_eq]
  exact NextPos.updateMember h r.self fun _ hm => hm

theorem nextPos_becomeLeader (r : Raft) : r.becomeLeader.1.NextPos := by
  rw [becomeLeader_eq]
  split_ifs
  · exact (nextPos_office r).appendOwn _ _
  · exact nextPos_office r

end Raft

structure Progress (r r' : Raft) : Prop where
  applied_mono : r.lastApplied ≤ r'.lastApplied
  applied_le : r'.lastApplied ≤ max r.lastApplied r'.commitIndex
  commit : r'.role = .leader → r.commitIndex < r'.commitIndex →
    r'.commitIndex ≤ r'.log.length ∧ r'.quorum ≤ r'.replicatedOn r'.commitIndex
  next : r.NextPos → r'.NextPos

namespace Raft

structure Still (r r' : Raft) : Prop where
  applied : r'.lastApplied = r.lastApplied
  commit : r'.commitIndex = r.commitIndex
  next : r.NextPos → r'.NextPos

variable {r' : Raft}

theorem Still.progress {r : Raft} (h : Still r r') : Progress r r' :=
  ⟨h.applied.ge, by rw [h.applied]; exact le_max_left _ _,
    fun _ hlt => absurd hlt (by rw [h.commit]; exact lt_irrefl _), h.next⟩

theorem Still.trans {r r₁ : Raft} (h : Still r r₁) (h' : Still r₁ r') : Still r r' :=
  ⟨h'.applied.trans h.applied, h'.commit.trans h.commit, fun hn => h'.next (h.next hn)⟩

variable (r : Raft)

theorem Still.refl : Still r r := ⟨rfl, rfl, id⟩

theorem still_becomeFollower (T : ℕ) (ldr : RaftNodeId) : Still r (r.becomeFollower T ldr) := by
  rw [becomeFollower_eq]
  exact ⟨rfl, rfl, id⟩

theorem still_becomeLeader : Still r r.becomeLeader.1 := by
  have hnext := r.nextPos_becomeLeader
  rw [becomeLeader_eq] at hnext ⊢
  split_ifs at hnext ⊢ <;> exact ⟨rfl, rfl, fun _ => hnext⟩

theorem still_startElection : Still r r.startElection.1 := by
  rw [startElection_eq]
  split_ifs
  · exact ⟨rfl, rfl, id⟩
  · refine Still.trans ?_ (still_becomeLeader _)
    exact ⟨rfl, rfl, fun h => h.selfVote⟩
  · exact ⟨rfl, rfl, fun h => h.selfVote⟩

theorem Still.applyCommitted {r : Raft} (h : Still r r') : Progress r r'.applyCommitted.1 := by
  rw [applyCommitted_fst]
  refine ⟨by simp [h.applied], by simp [h.applied], fun _ hlt => ?_, h.next⟩
  exact absurd hlt (by simp only [h.commit]; exact lt_irrefl _)

theorem Still.advanceCommit {r : Raft} (h : Still r r') : Progress r r'.advanceCommit.1 := by
  rw [advanceCommit_fst]
  refine ⟨by simp [h.applied], by simp [h.applied], fun _ hlt => ?_, h.next⟩
  rcases r'.newCommit_cases with heq | ⟨_, hle, _, hq⟩
  · exact absurd hlt (by simp only [heq, h.commit]; exact lt_irrefl _)
  · exact ⟨hle, hq⟩

theorem Still.takeCommit {r : Raft} (h : Still r r') (hr : r'.role ≠ .leader) (lc : ℕ) :
    Progress r (r'.takeCommit lc).1 := by
  unfold Raft.takeCommit
  split_ifs
  · rw [applyCommitted_fst]
    exact ⟨by simp [h.applied], by simp [h.applied], fun hlead => absurd hlead hr, h.next⟩
  · exact h.progress

theorem still_observed (term : ℕ) : Still r (r.observed term) :=
  r.observed_cases term (r.still_becomeFollower _ _) (Still.refl r)

theorem still_flagged (src : RaftNodeId) : Still r (r.flagged src) :=
  ⟨rfl, rfl, fun h => h.updateMember src fun _ hm => hm⟩

theorem still_counting (src : RaftNodeId) (voteGranted : Bool) :
    Still r (r.counting src voteGranted) := by
  cases voteGranted with
  | false => exact Still.refl r
  | true => exact r.still_flagged src

theorem Outcome.progress {r : Raft} {e : ClusterEvent} {out : Raft × List RaftEffect}
    (h : r.Outcome e out) : Progress r out.1 := by
  have hself := (Still.refl r).progress
  have htimers : ∀ nowMs, Still r (r.advanceTimers nowMs) := fun _ => ⟨rfl, rfl, id⟩
  cases h with
  | answered | overdue | ignored | declined => exact hself
  | refused => exact (r.still_observed _).progress
  | granted =>
    apply Still.progress
    exact (r.still_observed _).trans ⟨rfl, rfl, id⟩
  | outdated => exact ((r.still_counting _ _).trans (still_becomeFollower _ _ _)).progress
  | counted => exact (r.still_counting _ _).progress
  | won =>
    apply Still.progress
    exact (r.still_flagged _).trans ⟨rfl, rfl, fun h => h.selfVote⟩
  | elected => exact ((r.still_flagged _).trans (still_becomeLeader _)).progress
  | missed | quiet => exact Still.progress ⟨rfl, rfl, id⟩
  | taken =>
    apply Still.takeCommit
    · exact ⟨rfl, rfl, id⟩
    · simp [joined]
  | overtaken => exact (r.still_becomeFollower _ _).progress
  | acked => exact Still.advanceCommit ⟨rfl, rfl, fun h => h.updateMember _ fun _ _ => Nat.succ_pos _⟩
  | backed _ _ hnext hr' =>
    subst hr'
    exact Still.progress ⟨rfl, rfl, fun h => h.updateMember _ fun _ _ => by simp only; omega⟩
  | proposed => exact Still.advanceCommit ⟨rfl, rfl, fun h => h.appendOwn _ _⟩
  | beat _ hr' =>
    subst hr'
    exact Still.progress ⟨rfl, rfl, id⟩
  | started => exact ((htimers _).trans (still_startElection _)).applyCommitted
  | waited => exact (htimers _).applyCommitted

end Raft

namespace Raft

/-- A grant that counts answers the current round. -/
def VoteFresh (r : Raft) (src : RaftNodeId) : RaftMsg → Prop
  | .requestVoteResp term preVote true =>
    r.role = .candidate → r.inPreVote = 0 →
      (∃ m ∈ r.members, m.id = src ∧ m.role = .voter ∧ m.voteGranted = false) →
        preVote = 0 ∧ r.currentTerm ≤ term
  | _ => True

/-- An acknowledgement that counts is of this term. -/
def AckFresh (r : Raft) (src : RaftNodeId) : RaftMsg → Prop
  | .appendResp term true matchIndex =>
    r.role = .leader → (∃ m ∈ r.members, m.id = src ∧ m.matchIndex < matchIndex) →
      r.currentTerm ≤ term
  | _ => True

/-- The entries have another term than the log somewhere. -/
def Conflicts (log : List RaftEntry) (prevLogIndex : ℕ) (entries : List RaftEntry) : Prop :=
  ∃ i < entries.length, prevLogIndex + i < log.length ∧
    termAt log (prevLogIndex + i + 1) ≠ termAt entries (i + 1)

/-- A commit that is raised covers only entries the append vouches for. -/
def CommitCovered (r : Raft) (_src : RaftNodeId) : RaftMsg → Prop
  | .append term _ prevLogIndex prevLogTerm entries leaderCommit =>
    r.currentTerm ≤ term → prevLogIndex ≤ r.log.length → termAt r.log prevLogIndex = prevLogTerm →
      r.commitIndex < leaderCommit → prevLogIndex + entries.length < r.log.length →
        ¬ Conflicts r.log prevLogIndex entries → leaderCommit ≤ prevLogIndex + entries.length
  | _ => True

end Raft

section
variable (r : Raft) (src : RaftNodeId)

instance (msg : RaftMsg) : Decidable (r.VoteFresh src msg) :=
  match msg with
  | .requestVoteResp _ _ true => by unfold Raft.VoteFresh; exact inferInstance
  | .requestVoteResp _ _ false => .isTrue trivial
  | .requestVote .. => .isTrue trivial
  | .append .. => .isTrue trivial
  | .appendResp .. => .isTrue trivial

instance (msg : RaftMsg) : Decidable (r.AckFresh src msg) :=
  match msg with
  | .appendResp _ true _ => by unfold Raft.AckFresh; exact inferInstance
  | .appendResp _ false _ => .isTrue trivial
  | .requestVote .. => .isTrue trivial
  | .requestVoteResp .. => .isTrue trivial
  | .append .. => .isTrue trivial

instance (log : List RaftEntry) (prevLogIndex : ℕ) (entries : List RaftEntry) :
    Decidable (Raft.Conflicts log prevLogIndex entries) := by
  unfold Raft.Conflicts; exact inferInstance

instance (msg : RaftMsg) : Decidable (r.CommitCovered src msg) :=
  match msg with
  | .append .. => by unfold Raft.CommitCovered; exact inferInstance
  | .requestVote .. => .isTrue trivial
  | .requestVoteResp .. => .isTrue trivial
  | .appendResp .. => .isTrue trivial

end

structure Checks where
  votes : Prop
  acks : Prop
  commits : Prop

def Checks.All (ck : Checks) : Prop := ck.votes ∧ ck.acks ∧ ck.commits

def Checks.Met (ck : Checks) (r : Raft) (src : RaftNodeId) (msg : RaftMsg) : Prop :=
  (ck.votes → r.VoteFresh src msg) ∧ (ck.acks → r.AckFresh src msg) ∧
    (ck.commits → r.CommitCovered src msg)

end Norn
