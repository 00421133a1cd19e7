import Norn.Raft.Learners
import Norn.Raft.Safety

/-!
# Rounds of pre-votes

The flags of a round are cleared when it starts, but a response does not say which round it answers.
-/

namespace Norn
namespace Raft

def InRound (r : Raft) : Prop := r.role = .candidate ∧ r.inPreVote ≠ 0

instance (r : Raft) : Decidable r.InRound := inferInstanceAs (Decidable (_ ∧ _))

def StartsAt (r : Raft) (nowMs : ℕ) : Prop :=
  r.role ≠ .leader ∧ r.electionTimeout ≤ (r.advanceTimers nowMs).electionElapsed

instance (r : Raft) (nowMs : ℕ) : Decidable (r.StartsAt nowMs) := inferInstanceAs (Decidable (_ ∧ _))

end Raft

def Cluster.StartsElection (r : Raft) : ClusterEvent → Prop
  | .tick _ nowMs => r.StartsAt nowMs
  | _ => False

instance (r : Raft) (e : ClusterEvent) : Decidable (Cluster.StartsElection r e) :=
  match e with
  | .tick _ nowMs => inferInstanceAs (Decidable (r.StartsAt nowMs))
  | .propose .. => .isFalse id
  | .deliver _ => .isFalse id

namespace Raft
section
variable {r : Raft}

theorem not_inRound_of_follower (h : r.role = .follower) : ¬ r.InRound :=
  fun hround => absurd (h.symm.trans hround.1) (by decide)

theorem round_startElection (hright : r.role ≠ .follower → r.selfIsEligibleVoter = true)
    (h : r.startElection.1.InRound) :
    ∀ m ∈ r.startElection.1.members, m.voteGranted = true → m.id = r.self := by
  rw [startElection_eq] at h ⊢
  by_cases hself : r.selfIsEligibleVoter = false
  · rw [if_pos hself] at h
    have hcandidate : r.role ≠ .follower := by
      rw [show r.role = .candidate from h.1]
      decide
    exact absurd (hright hcandidate) (by rw [hself]; decide)
  · rw [if_neg hself] at h ⊢
    by_cases hsole : r.stood.countVoters = 1
    · rw [if_pos hsole] at h
      exact absurd ((becomeLeader_role _).symm.trans h.1) (by decide)
    · rw [if_neg hsole]
      exact fun m hm hflag => id_of_mem_selfVote _ hm hflag

theorem round_observed {term : ℕ} (h : (r.observed term).InRound) :
    r.InRound ∧ (r.observed term).members = r.members := by
  unfold observed at h ⊢
  split_ifs at h ⊢
  · rw [becomeFollower_eq] at h
    exact absurd h (not_inRound_of_follower rfl)
  · exact ⟨h, rfl⟩

variable {e : ClusterEvent} {out : Raft × List RaftEffect} {r' : Raft}

theorem Outcome.round (h : r.Outcome e out)
    (hright : r.role ≠ .follower → r.selfIsEligibleVoter = true) (hin : out.1.InRound) :
    (Cluster.StartsElection r e ∧ ∀ m ∈ out.1.members, m.voteGranted = true → m.id = r.self) ∨
      (¬ Cluster.StartsElection r e ∧ r.InRound ∧ (out.1.members = r.members ∨
        ∃ src dst term preVote, e = .deliver ⟨src, dst, .requestVoteResp term preVote true⟩ ∧
          out.1.members = (r.flagged src).members)) := by
  have hleader : ∀ {r' : Raft}, r'.role = .leader → ¬ r'.InRound := fun hlead hround =>
    absurd (hlead.symm.trans hround.1) (by decide)
  have hfollower : ∀ {r' : Raft} {term ldr}, ¬ (r'.becomeFollower term ldr).InRound := by
    intro r' term ldr
    rw [becomeFollower_eq]
    exact not_inRound_of_follower rfl
  cases h with
  | answered | overdue | ignored | declined => exact .inr ⟨id, hin, .inl rfl⟩
  | refused | granted => exact .inr ⟨id, (round_observed hin).imp_right .inl⟩
  | outdated | overtaken => exact absurd hin hfollower
  | @counted _ _ _ _ voteGranted =>
    cases voteGranted with
    | false => exact .inr ⟨id, hin, .inl rfl⟩
    | true => exact .inr ⟨id, hin, .inr ⟨_, _, _, _, rfl, rfl⟩⟩
  | won => exact absurd rfl hin.2
  | elected => exact absurd hin (hleader (becomeLeader_role _))
  | missed => exact absurd hin (not_inRound_of_follower rfl)
  | taken =>
    rw [takeCommit_fst] at hin
    exact absurd hin (not_inRound_of_follower rfl)
  | acked hlead | proposed hlead =>
    rw [advanceCommit_fst] at hin
    exact absurd hin (hleader hlead)
  | backed hlead _ _ hr' | beat hlead hr' => exact absurd hin (hleader (hr' ▸ hlead))
  | quiet hlead => exact absurd hin (hleader hlead)
  | started hrole htime =>
    rw [applyCommitted_fst] at hin ⊢
    exact .inl ⟨⟨hrole, htime⟩, round_startElection (r := r.advanceTimers _) hright hin⟩
  | waited _ htime =>
    rw [applyCommitted_fst] at hin ⊢
    exact .inr ⟨fun hstart => htime hstart.2, hin, .inl rfl⟩

def Stands (r r' : Raft) : Prop := r.currentTerm < r'.currentTerm ∧ r'.role ≠ .follower

instance (r r' : Raft) : Decidable (Stands r r') := inferInstanceAs (Decidable (_ ∧ _))

theorem not_stands_of_term (h : r'.currentTerm = r.currentTerm) : ¬ Stands r r' :=
  fun hstands => hstands.1.ne' h

theorem not_stands_of_follower (h : r'.role = .follower) : ¬ Stands r r' :=
  fun hstands => hstands.2 h

theorem currentTerm_startElection (hmany : r.countVoters ≠ 1) :
    r.startElection.1.currentTerm = r.currentTerm := by
  have hstood : r.stood.countVoters = r.countVoters := by
    rw [countVoters_of_specs, countVoters_of_specs, stood, selfVote_specs]
  rw [startElection_eq, hstood, if_neg hmany]
  split_ifs <;> rfl

theorem Outcome.stands (h : r.Outcome e out) (hmany : r.countVoters ≠ 1) (hstands : Stands r out.1) :
    ∃ src dst term preVote, e = .deliver ⟨src, dst, .requestVoteResp term preVote true⟩ ∧
      r.InRound ∧ (r.flagged src).quorum ≤ (r.flagged src).grants := by
  have hfollower : ∀ {r' : Raft} {term ldr}, ¬ Stands r (r'.becomeFollower term ldr) := by
    intro r' term ldr
    rw [becomeFollower_eq]
    exact not_stands_of_follower rfl
  have hobserved : ∀ term, ¬ Stands r (r.observed term) := fun term =>
    r.observed_cases (Q := fun r' => ¬ Stands r r') term hfollower (not_stands_of_term rfl)
  cases h with
  | won hrole hpre hquorum => exact ⟨_, _, _, _, rfl, ⟨hrole, hpre⟩, hquorum⟩
  | answered | overdue | ignored | declined | quiet =>
    exact absurd hstands (not_stands_of_term rfl)
  | refused | granted => exact absurd hstands (hobserved _)
  | outdated | overtaken => exact absurd hstands hfollower
  | @counted _ _ _ _ voteGranted =>
    cases voteGranted <;> exact absurd hstands (not_stands_of_term rfl)
  | elected => exact absurd hstands (not_stands_of_term (becomeLeader_currentTerm _))
  | missed => exact absurd hstands (not_stands_of_follower rfl)
  | taken =>
    rw [takeCommit_fst] at hstands
    exact absurd hstands (not_stands_of_follower rfl)
  | acked | proposed =>
    rw [advanceCommit_fst] at hstands
    exact absurd hstands (not_stands_of_term rfl)
  | backed _ _ _ hr' | beat _ hr' => exact absurd hstands (not_stands_of_term (hr' ▸ rfl))
  | started =>
    rw [applyCommitted_fst] at hstands
    exact absurd hstands (not_stands_of_term (currentTerm_startElection hmany))
  | waited =>
    rw [applyCommitted_fst] at hstands
    exact absurd hstands (not_stands_of_term rfl)

theorem mem_flagged {src : RaftNodeId} {m' : RaftMember} (hm' : m' ∈ (r.flagged src).members) :
    m'.id = src ∨ m' ∈ r.members := by
  obtain ⟨m, hm, rfl⟩ := List.mem_map.mp hm'
  split_ifs with hid
  · exact .inl hid
  · exact .inr hm

end
end Raft

namespace Cluster

def BringsGrant (g n : RaftNodeId) : ClusterEvent → Prop
  | .deliver ⟨src, dst, .requestVoteResp _ _ voteGranted⟩ =>
    src = g ∧ dst = n ∧ voteGranted = true
  | _ => False

instance (g n : RaftNodeId) (e : ClusterEvent) : Decidable (BringsGrant g n e) :=
  match e with
  | .deliver ⟨_, _, .requestVoteResp ..⟩ => inferInstanceAs (Decidable (_ ∧ _))
  | .deliver ⟨_, _, .requestVote ..⟩ => .isFalse id
  | .deliver ⟨_, _, .append ..⟩ => .isFalse id
  | .deliver ⟨_, _, .appendResp ..⟩ => .isFalse id
  | .tick .. => .isFalse id
  | .propose .. => .isFalse id

def GrantsPreVote (n : RaftNodeId) : RaftEffect → Prop
  | .send dest (.requestVoteResp _ preVote voteGranted) =>
    dest = n ∧ preVote ≠ 0 ∧ voteGranted = true
  | _ => False

instance (n : RaftNodeId) (eff : RaftEffect) : Decidable (GrantsPreVote n eff) :=
  match eff with
  | .send _ (.requestVoteResp ..) => inferInstanceAs (Decidable (_ ∧ _))
  | .send _ (.requestVote ..) => .isFalse id
  | .send _ (.append ..) => .isFalse id
  | .send _ (.appendResp ..) => .isFalse id
  | .apply _ => .isFalse id

end Cluster

namespace ClusterRun
section
variable {spec : ClusterSpec} (run : ClusterRun spec)

def Starts (k : ℕ) (n : RaftNodeId) : Prop :=
  Cluster.actor (run.event k) = n ∧ Cluster.StartsElection (run.node k n) (run.event k)

instance (k : ℕ) (n : RaftNodeId) : Decidable (run.Starts k n) :=
  inferInstanceAs (Decidable (_ ∧ _))

/-- Event `i` is the latest before event `k` at which node `n` called `start_election`. -/
def LatestStart (i k : ℕ) (n : RaftNodeId) : Prop :=
  i < k ∧ run.Starts i n ∧ ∀ j < k, i < j → ¬ run.Starts j n

instance (i k : ℕ) (n : RaftNodeId) : Decidable (run.LatestStart i k n) :=
  inferInstanceAs (Decidable (_ ∧ _))

/-- Between the two events `g` took a request that `n` sent with event `i`, and granted it. -/
def GrantedRound (i k : ℕ) (n g : RaftNodeId) : Prop :=
  ∃ j < k, i < j ∧ Cluster.actor (run.event j) = g ∧
    run.event j ∈ (packetsOf n (run.effects i)).map ClusterEvent.deliver ∧
    ∃ eff ∈ run.effects j, Cluster.GrantsPreVote n eff

instance (i k : ℕ) (n g : RaftNodeId) : Decidable (run.GrantedRound i k n g) :=
  inferInstanceAs (Decidable (∃ j < k, _))

/-- A grant that reaches a node in a round comes from a member that has granted this round. -/
def RoundsAnswered : Prop :=
  ∀ k < run.len, ∀ n ∈ spec.ids, ∀ g ∈ spec.voters, Cluster.BringsGrant g n (run.event k) →
    (run.node k n).InRound → ∃ i < k, run.LatestStart i k n ∧ run.GrantedRound i k n g

/-- Whenever a node stands, a majority of the voters has granted its latest round. -/
def PreVoteSound : Prop :=
  ∀ k < run.len, ∀ n ∈ spec.ids, Raft.Stands (run.node k n) (run.node (k + 1) n) →
    ∃ i < k, run.LatestStart i k n ∧ spec.voters.card / 2 + 1 ≤
      (spec.voters.filter fun g => g = n ∨ run.GrantedRound i k n g).card

variable {run} {k : ℕ} {n : RaftNodeId}

theorem LatestStart.unique {i j : ℕ} (hi : run.LatestStart i k n) (hj : run.LatestStart j k n) :
    i = j := by
  rcases lt_trichotomy i j with hlt | heq | hgt
  · exact absurd hj.2.1 (hi.2.2 j hj.1 hlt)
  · exact heq
  · exact absurd hi.2.1 (hj.2.2 i hi.1 hgt)

theorem LatestStart.succ {i : ℕ} (h : run.LatestStart i k n) (hno : ¬ run.Starts k n) :
    run.LatestStart i (k + 1) n := by
  refine ⟨h.1.trans (Nat.lt_succ_self k), h.2.1, fun j hj hij => ?_⟩
  rcases Nat.lt_or_ge j k with hlt | hge
  · exact h.2.2 j hlt hij
  · obtain rfl : j = k := by omega
    exact hno

theorem GrantedRound.succ {i : ℕ} {g : RaftNodeId} (h : run.GrantedRound i k n g) :
    run.GrantedRound i (k + 1) n g := by
  obtain ⟨j, hj, hrest⟩ := h
  exact ⟨j, hj.trans (Nat.lt_succ_self k), hrest⟩

theorem seated (run : ClusterRun spec) :
    ∀ k ≤ run.len, ∀ n ∈ spec.ids, Cluster.Seated spec n (run.node k n) := by
  refine run.invariant (I := fun c => ∀ n ∈ spec.ids, Cluster.Seated spec n (c.nodes n))
    (fun c hc => Cluster.seated_of_initial hc) fun k hk ih => ?_
  rw [(run.step_eq hk).2]
  exact Cluster.Seated.act ih (Raft.outcome_call _ _).holds

/-- Flags stand for grants of the latest round. -/
def FlagsBacked (run : ClusterRun spec) (k : ℕ) (n : RaftNodeId) : Prop :=
  (run.node k n).InRound → ∃ i, run.LatestStart i k n ∧ ∀ m ∈ (run.node k n).members,
    m.voteGranted = true → m.role = .voter → m.id = n ∨ run.GrantedRound i k n m.id

theorem FlagsBacked.keep (h : run.FlagsBacked k n) (hno : ¬ run.Starts k n)
    (hin : (run.node k n).InRound) (hsame : (run.node (k + 1) n).members = (run.node k n).members) :
    run.FlagsBacked (k + 1) n := by
  intro _
  obtain ⟨i, hi, hbacked⟩ := h hin
  refine ⟨i, hi.succ hno, fun m hm hflag hvoter => ?_⟩
  exact (hbacked m (hsame ▸ hm) hflag hvoter).imp_right GrantedRound.succ

theorem specs_flagged (hk : k < run.len) (hn : n ∈ spec.ids) (src : RaftNodeId) :
    (((run.node k n).flagged src).members.map RaftMember.toSpec).Perm spec.members := by
  rw [Raft.flagged, Raft.updateMember_specs]
  exacts [(run.seated k hk.le n hn).specs, fun _ => rfl]

theorem FlagsBacked.flag (hk : k < run.len) (hanswered : run.RoundsAnswered) {src : RaftNodeId}
    (hn : n ∈ spec.ids) (h : run.FlagsBacked k n)
    (hbrings : Cluster.BringsGrant src n (run.event k)) (hin : (run.node k n).InRound) :
    ∃ i, run.LatestStart i k n ∧ ∀ m ∈ ((run.node k n).flagged src).members,
      m.voteGranted = true → m.role = .voter → m.id = n ∨ run.GrantedRound i k n m.id := by
  obtain ⟨i, hi, hbacked⟩ := h hin
  refine ⟨i, hi, fun m hm hflag hvoter => ?_⟩
  rcases Raft.mem_flagged hm with rfl | hold
  · have hmem : m.id ∈ spec.voters := mem_voters (run.specs_flagged hk hn m.id) hm hvoter
    obtain ⟨j, _, hj, hgranted⟩ := hanswered k hk n hn m.id hmem hbrings hin
    rw [hi.unique hj]
    exact .inr hgranted
  · exact hbacked m hold hflag hvoter

theorem flagsBacked_succ (hk : k < run.len) (hanswered : run.RoundsAnswered) (hn : n ∈ spec.ids)
    (h : run.FlagsBacked k n) : run.FlagsBacked (k + 1) n := by
  intro hround
  rcases ne_or_eq n (Cluster.actor (run.event k)) with hne | hactor
  · have hsame := run.node_other hk hne
    exact h.keep (fun hstarts => hne hstarts.1.symm) (hsame ▸ hround) (by rw [hsame]) hround
  have hseated := run.seated k hk.le n hn
  have hnode := run.node_actor hk
  have hstarts : run.Starts k n ↔ Cluster.StartsElection (run.node k n) (run.event k) :=
    and_iff_right hactor.symm
  rw [← hactor] at hnode
  rcases (Raft.outcome_call _ _).round hseated.stands (hnode ▸ hround) with
    ⟨hat, hself⟩ | ⟨hno, hin, hsame | ⟨src, dst, term, preVote, he, hflag⟩⟩
  · refine ⟨k, ⟨Nat.lt_succ_self k, hstarts.mpr hat, fun j hj hkj => by omega⟩, ?_⟩
    exact fun m hm hset _ => .inl ((hself m (hnode ▸ hm) hset).trans hseated.self)
  · exact h.keep (mt hstarts.mp hno) hin (hnode ▸ hsame) hround
  · have hbrings : Cluster.BringsGrant src n (run.event k) := by
      rw [he] at hactor ⊢
      exact ⟨rfl, hactor.symm, rfl⟩
    obtain ⟨i, hi, hbacked⟩ := h.flag hk hanswered hn hbrings hin
    refine ⟨i, hi.succ (mt hstarts.mp hno), fun m hm hset hvoter => ?_⟩
    exact (hbacked m (hflag ▸ hnode ▸ hm) hset hvoter).imp_right GrantedRound.succ

theorem flagsBacked (hanswered : run.RoundsAnswered) :
    ∀ k ≤ run.len, ∀ n ∈ spec.ids, run.FlagsBacked k n := by
  refine run.position_induction (fun n hn hround => ?_) fun k hk ih n hn =>
    flagsBacked_succ hk hanswered hn (ih n hn)
  obtain ⟨cfg, order, _, hboot⟩ := run.start.2 n hn
  obtain ⟨timing, ms, _, _, heq⟩ := bootNode_eq hboot
  exact absurd hround (Raft.not_inRound_of_follower (by rw [node, heq]))

theorem stands_event (hk : k < run.len) (hmany : 2 ≤ spec.voters.card) (hn : n ∈ spec.ids)
    (h : Raft.Stands (run.node k n) (run.node (k + 1) n)) :
    ∃ src, Cluster.BringsGrant src n (run.event k) ∧ (run.node k n).InRound ∧
      ((run.node k n).flagged src).quorum ≤ ((run.node k n).flagged src).grants := by
  rcases ne_or_eq n (Cluster.actor (run.event k)) with hne | hactor
  · rw [run.node_other hk hne] at h
    exact absurd h (Raft.not_stands_of_term rfl)
  have hnode := run.node_actor hk
  rw [← hactor] at hnode
  rw [hnode] at h
  have hvoters : (run.node k n).countVoters ≠ 1 := by
    rw [countVoters_eq (run.seated k hk.le n hn).specs]
    omega
  obtain ⟨src, dst, term, preVote, he, hin, hwon⟩ := (Raft.outcome_call _ _).stands hvoters h
  rw [he] at hactor ⊢
  exact ⟨src, ⟨rfl, hactor.symm, rfl⟩, hin, hwon⟩

/-- If rounds are answered by those who granted them, nodes stand only with a majority. -/
theorem preVote_sound (hmany : 2 ≤ spec.voters.card) (hanswered : run.RoundsAnswered) :
    run.PreVoteSound := by
  intro k hk n hn hstands
  obtain ⟨src, hbrings, hin, hwon⟩ := stands_event hk hmany hn hstands
  obtain ⟨i, hi, hbacked⟩ := (flagsBacked hanswered k hk.le n hn).flag hk hanswered hn hbrings hin
  have hspecs := run.specs_flagged hk hn src
  obtain ⟨hvoters, hmajority⟩ := isQuorum_votersWith hspecs hwon
  refine ⟨i, hi.1, hi, hmajority.trans (Finset.card_le_card fun g hg => ?_)⟩
  obtain ⟨m, hm, rfl, hvoter, hflag⟩ := mem_votersWith hg
  exact Finset.mem_filter.mpr ⟨hvoters hg, hbacked m hm hflag hvoter⟩

end

theorem settledRun_preVote_sound :
    Raft.Stands (settledRun.node 3 1) (settledRun.node 4 1) ∧ settledRun.PreVoteSound :=
  ⟨by decide +kernel, preVote_sound (by decide) (by unfold RoundsAnswered; decide +kernel)⟩

/-- A grant of the first round arrives in the second, whose requests nobody has taken. -/
def staleRoundRun : ClusterRun trio :=
  ClusterRun.ofEvents trio trio_boots
    [.tick 2 150, .tick 1 200, .deliver ⟨1, 2, .requestVote 1 1 1 0 0⟩, .tick 1 400,
      .deliver ⟨2, 1, .requestVoteResp 0 1 true⟩] (by decide +kernel)

theorem staleRoundRun_not_sound : staleRoundRun.LatestStart 3 4 1 ∧
    (∀ g ∈ trio.voters, ¬ staleRoundRun.GrantedRound 3 4 1 g) ∧ ¬ staleRoundRun.PreVoteSound := by
  have hstands : Raft.Stands (staleRoundRun.node 4 1) (staleRoundRun.node 5 1) := by decide +kernel
  have hlatest : staleRoundRun.LatestStart 3 4 1 := by decide +kernel
  have hnone : ∀ g ∈ trio.voters, ¬ staleRoundRun.GrantedRound 3 4 1 g := by decide +kernel
  refine ⟨hlatest, hnone, fun h => ?_⟩
  obtain ⟨i, _, hi, hmajority⟩ := h 4 (by decide) 1 (by decide) hstands
  obtain rfl := hi.unique hlatest
  have hfew : (trio.voters.filter fun g => g = 1 ∨ staleRoundRun.GrantedRound 3 4 1 g).card ≤ 1 := by
    refine Finset.card_le_one.mpr fun a ha b hb => ?_
    rw [Finset.mem_filter] at ha hb
    rw [ha.2.resolve_right (hnone a ha.1), hb.2.resolve_right (hnone b hb.1)]
  exact absurd (hmajority.trans hfew) (by decide)

end ClusterRun
end Norn
