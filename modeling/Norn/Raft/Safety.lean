import Norn.Raft.History

/-!
# Safety of the cluster

Properties that the source only keeps under a discipline of deliveries are stated with it.
-/

namespace Norn
open Replication List

def trio : ClusterSpec where
  members := [⟨1, .voter, true⟩, ⟨2, .voter, true⟩, ⟨3, .voter, true⟩]
  nodup := by decide
  pos := by decide
  le := by decide
  real := by decide

theorem trio_boots : ∀ n ∈ trio.ids, (bootNode n none trio.members).isSome := by decide

def noopEntry (term index : ℕ) : RaftEntry := ⟨term, index, .noop, []⟩

def firstElection : List ClusterEvent :=
  [.tick 1 151, .tick 2 150,
    .deliver ⟨1, 2, .requestVote 1 1 1 0 0⟩, .deliver ⟨2, 1, .requestVoteResp 0 1 true⟩,
    .deliver ⟨1, 2, .requestVote 1 0 1 0 0⟩]

def settledRun : ClusterRun trio :=
  ClusterRun.ofEvents trio trio_boots (firstElection ++
    [.deliver ⟨2, 1, .requestVoteResp 1 0 true⟩,
      .deliver ⟨1, 2, .append 1 1 0 0 [noopEntry 1 1] 0⟩,
      .deliver ⟨2, 1, .appendResp 1 true 1⟩,
      .propose 1 [7],
      .deliver ⟨1, 2, .append 1 1 1 1 [⟨1, 2, .normal, [7]⟩] 1⟩,
      .deliver ⟨2, 1, .appendResp 1 true 2⟩,
      .tick 1 201,
      .deliver ⟨1, 2, .append 1 1 2 1 [] 2⟩]) (by decide +kernel)

theorem settledRun_oneLeaderPerTerm : settledRun.OneLeaderPerTerm :=
  settledRun.oneLeaderPerTerm_of_sole (c := 1) (by decide +kernel)

namespace ClusterRun
variable {spec : ClusterSpec} (run : ClusterRun spec)

/-- No delivery sets a vote flag in a real round from a grant of another round. -/
def VotesFresh : Prop :=
  ∀ k < run.len, Cluster.OnDelivery Raft.VoteFresh (run.state k) (run.event k)

/-- With fresh votes no term has two leaders. -/
theorem one_leader_per_term (hfresh : run.VotesFresh) : run.OneLeaderPerTerm := by
  have hmet : run.Meets ⟨True, False, False⟩ := fun k hk =>
    (hfresh k hk).mono fun _ _ _ h => ⟨fun _ => h, False.elim, False.elim⟩
  obtain ⟨a, h⟩ := run.exists_tracks hmet (.inl trivial) run.len le_rfl
  intro i hi j hj m hm n hn T hled hled'
  obtain ⟨L, hl⟩ := h.ruled i hi m hm hled
  obtain ⟨L', hl'⟩ := h.ruled j hj n hn hled'
  rw [hl] at hl'
  cases hl'
  rfl

theorem settledRun_votesFresh : settledRun.VotesFresh := by
  unfold VotesFresh
  decide +kernel

theorem settledRun_one_leader : settledRun.Leads 6 1 1 ∧ settledRun.OneLeaderPerTerm :=
  ⟨by decide +kernel, settledRun.one_leader_per_term settledRun_votesFresh⟩

def staleGrantEvents : List ClusterEvent :=
  firstElection ++
    [.tick 1 302, .tick 2 300,
      .deliver ⟨1, 2, .requestVote 2 1 1 0 0⟩, .deliver ⟨2, 1, .requestVoteResp 1 1 true⟩,
      .deliver ⟨2, 1, .requestVoteResp 1 0 true⟩,
      .tick 2 302, .tick 3 150,
      .deliver ⟨2, 3, .requestVote 2 1 2 0 0⟩, .deliver ⟨3, 2, .requestVoteResp 0 1 true⟩,
      .deliver ⟨2, 3, .requestVote 2 0 2 0 0⟩, .deliver ⟨3, 2, .requestVoteResp 2 0 true⟩]

def staleGrantRun : ClusterRun trio :=
  ClusterRun.ofEvents trio trio_boots staleGrantEvents (by decide +kernel)

theorem staleGrantRun_two_leaders : ¬ staleGrantRun.OneLeaderPerTerm := by
  intro h
  have h₁ : staleGrantRun.Leads 10 1 2 := by decide +kernel
  have h₂ : staleGrantRun.Leads 16 2 2 := by decide +kernel
  exact absurd (h 10 (by decide) 16 (by decide) 1 (by decide) 2 (by decide) 2 h₁ h₂) (by decide)

/-- Entries of one term at one position end equal logs, and every entry carries its position. -/
def LogsMatch (k : ℕ) : Prop :=
  ∀ m ∈ spec.ids, ∀ n ∈ spec.ids,
    (∀ i e e', (run.node k m).log[i]? = some e → (run.node k n).log[i]? = some e' →
      e.term = e'.term → (run.node k m).log.take (i + 1) = (run.node k n).log.take (i + 1)) ∧
    ∀ i e, (run.node k m).log[i]? = some e → e.index = i + 1

/-- With one leader per term, logs with a common entry agree up to it. -/
theorem logs_match (hone : run.OneLeaderPerTerm) : ∀ k ≤ run.len, run.LogsMatch k := by
  intro k hk m hm n hn
  obtain ⟨a, h⟩ := run.exists_tracks run.meets_none (.inr hone) k hk
  refine ⟨fun i e e' he he' hterm => ?_, (h.nodes m hm).logOk.index⟩
  have hX := h.reach.inv.log_ok m
  have hY := h.reach.inv.log_ok n
  rw [(h.nodes m hm).log] at hX
  rw [(h.nodes n hn).log] at hY
  refine take_eq_of_termAt hX hY (List.getElem?_eq_some_iff.mp he).1
    (List.getElem?_eq_some_iff.mp he').1 ?_
  rw [termAt_succ, termAt_succ, he, he']
  exact hterm

theorem settledRun_logs_match :
    settledRun.LogsMatch 13 ∧ (settledRun.node 13 1).log = (settledRun.node 13 2).log :=
  ⟨settledRun.logs_match settledRun_oneLeaderPerTerm 13 (by decide), by decide +kernel⟩

/-- No success response of an earlier term raises a match index. -/
def AcksFresh : Prop :=
  ∀ k < run.len, Cluster.OnDelivery Raft.AckFresh (run.state k) (run.event k)

/-- A match index is backed by a log that the member held in the leader's term. -/
def MatchBacked : Prop :=
  ∀ k ≤ run.len, ∀ n ∈ spec.ids, ∀ T, run.Leads k n T → ∀ m ∈ (run.node k n).members,
    m.id ≠ n → m.matchIndex ≠ 0 → m.matchIndex ≤ (run.node k n).log.length ∧
      ∃ j ≤ k, (run.node j m.id).currentTerm = T ∧
        (run.node j m.id).log.take m.matchIndex = (run.node k n).log.take m.matchIndex

/-- A commit index a leader has raised is backed by a majority of the voters. -/
def CommitBacked : Prop :=
  ∀ k < run.len, ∀ n ∈ spec.ids, ∀ T, run.Leads (k + 1) n T →
    (run.node k n).commitIndex < (run.node (k + 1) n).commitIndex →
      (run.node (k + 1) n).commitIndex ≤ (run.node (k + 1) n).log.length ∧
      ∃ V ⊆ spec.voters, spec.voters.card / 2 + 1 ≤ V.card ∧ ∀ g ∈ V, ∃ j ≤ k + 1,
        (run.node j g).currentTerm = T ∧
          (run.node j g).log.take (run.node (k + 1) n).commitIndex =
            (run.node (k + 1) n).log.take (run.node (k + 1) n).commitIndex

variable {run} in
theorem held_of_acked {ck : Checks} {k : ℕ} {a : History} (h : Tracks run ck k a)
    {n f : RaftNodeId} (hn : n ∈ spec.ids) (hr : (run.node k n).role = .leader) {m m' : ℕ}
    (hack : a.acked f (run.node k n).currentTerm m') (hm : m ≤ m') :
    m ≤ (run.node k n).log.length ∧ ∃ j ≤ k,
      (run.node j f).currentTerm = (run.node k n).currentTerm ∧
        (run.node j f).log.take m = (run.node k n).log.take m := by
  obtain ⟨j, hj, hT, c, L, hl, hle, htake⟩ := h.acked hack
  rw [(Situation.ofTracks h hn).lead_log hr] at hl
  cases hl
  refine ⟨hm.trans hle, j, hj, hT, ?_⟩
  have := congrArg (take m) htake
  rwa [take_take, take_take, min_eq_left hm] at this

/-- If no stale acknowledgement counts, match indices and commits are backed. -/
theorem match_and_commit_backed (hone : run.OneLeaderPerTerm) (hfresh : run.AcksFresh) :
    run.MatchBacked ∧ run.CommitBacked := by
  have hmet : run.Meets ⟨False, True, False⟩ := fun k hk =>
    (hfresh k hk).mono fun _ _ _ h => ⟨False.elim, fun _ => h, False.elim⟩
  have htracks := run.exists_tracks hmet (.inr hone)
  constructor
  · rintro k hk n hn T ⟨hr, rfl⟩ m hm _ hne
    obtain ⟨a, h⟩ := htracks k hk
    obtain ⟨m', hle, hack⟩ := (h.nodes n hn).matched trivial hr m hm hne
    exact held_of_acked h hn hr hack hle
  · rintro k hk n hn T ⟨hr, rfl⟩ hraise
    obtain ⟨a, h⟩ := htracks (k + 1) hk
    obtain ⟨hle, hq⟩ := (run.progress hk n).commit hr hraise
    have hquorum := isQuorum_votersWith (h.nodes n hn).specs
      (show (run.node (k + 1) n).quorum ≤ (run.node (k + 1) n).members.countP fun m =>
        m.role = .voter ∧ decide ((run.node (k + 1) n).commitIndex ≤ m.matchIndex) by
          simpa only [Raft.replicatedOn, decide_eq_true_eq] using hq)
    refine ⟨hle, _, hquorum.1, hquorum.2, fun g hg => ?_⟩
    obtain ⟨m, hm, rfl, _, hmatch⟩ := mem_votersWith hg
    have hmatch := of_decide_eq_true hmatch
    obtain ⟨m', hle', hack⟩ := (h.nodes n hn).matched trivial hr m hm (by omega)
    exact (held_of_acked h hn hr hack (hmatch.trans hle')).2

theorem settledRun_acksFresh : settledRun.AcksFresh := by
  unfold AcksFresh
  decide +kernel

theorem settledRun_backed :
    settledRun.Leads 8 1 1 ∧ settledRun.MatchBacked ∧ settledRun.CommitBacked :=
  ⟨by decide +kernel, settledRun.match_and_commit_backed settledRun_oneLeaderPerTerm
    settledRun_acksFresh⟩

/-- Node 2 never joins term 3; then its acknowledgement of term 1 arrives at the leader. -/
def staleAckRun : ClusterRun trio :=
  ClusterRun.ofEvents trio trio_boots (firstElection ++
    [.deliver ⟨1, 3, .requestVote 1 0 1 0 0⟩, .deliver ⟨2, 1, .requestVoteResp 1 0 true⟩,
      .tick 2 300, .tick 3 153,
      .deliver ⟨3, 2, .requestVote 2 1 3 0 0⟩, .deliver ⟨2, 3, .requestVoteResp 1 1 true⟩,
      .deliver ⟨1, 2, .append 1 1 0 0 [noopEntry 1 1] 0⟩,
      .deliver ⟨3, 1, .requestVote 2 0 3 0 0⟩,
      .tick 1 302, .tick 3 303,
      .deliver ⟨1, 3, .requestVote 3 1 1 1 1⟩, .deliver ⟨3, 1, .requestVoteResp 2 1 true⟩,
      .deliver ⟨1, 3, .requestVote 3 0 1 1 1⟩, .deliver ⟨3, 1, .requestVoteResp 3 0 true⟩,
      .deliver ⟨2, 1, .appendResp 1 true 1⟩]) (by decide +kernel)

theorem staleAckRun_match_unbacked :
    staleAckRun.OneLeaderPerTerm ∧ ¬ (staleAckRun.MatchBacked ∧ staleAckRun.CommitBacked) := by
  refine ⟨staleAckRun.oneLeaderPerTerm_of_sole (c := 1) (by decide +kernel), fun h => ?_⟩
  have hnever : ∀ j ≤ 20, (staleAckRun.node j 2).currentTerm ≠ 3 := by decide +kernel
  obtain ⟨_, j, hj, hT, _⟩ := h.1 20 (by decide) 1 (by decide) 3 (by decide +kernel)
    ⟨2, .voter, true, 2, 1, false⟩ (by decide +kernel) (by decide) (by decide)
  exact hnever j hj hT

/-- No append raises the commit index over entries it does not cover. -/
def CommitsCovered : Prop :=
  ∀ k < run.len, Cluster.OnDelivery Raft.CommitCovered (run.state k) (run.event k)

theorem settledRun_commitsCovered : settledRun.CommitsCovered := by
  unfold CommitsCovered
  decide +kernel

theorem meets_all (hvotes : run.VotesFresh) (hacks : run.AcksFresh) (hcommits : run.CommitsCovered) :
    run.Meets ⟨True, True, True⟩ := fun k hk =>
  (((hvotes k hk).and (hacks k hk)).and (hcommits k hk)).mono fun _ _ _ h =>
    ⟨fun _ => h.1.1, fun _ => h.1.2, fun _ => h.2⟩

/-- Any two nodes apply the same entry at an index, and no node applies one twice. -/
def AppliedAgree : Prop :=
  (∀ j < run.len, ∀ k < run.len, ∀ m ∈ spec.ids, ∀ n ∈ spec.ids, ∀ i,
    run.Passes j m i → run.Passes k n i →
      ∃ e, (run.node (j + 1) m).log[i - 1]? = some e ∧ (run.node (k + 1) n).log[i - 1]? = some e) ∧
  ∀ j < run.len, ∀ k < run.len, ∀ n ∈ spec.ids, ∀ i, run.Passes j n i → run.Passes k n i → j = k

theorem passes_unique {j k : ℕ} (hj : j < run.len) (hk : k < run.len) {n : RaftNodeId} {i : ℕ}
    (h : run.Passes j n i) (h' : run.Passes k n i) : j = k := by
  have hmono : ∀ {x y : ℕ}, x ≤ y → y ≤ run.len →
      (run.node x n).lastApplied ≤ (run.node y n).lastApplied := fun hxy hy =>
    run.monotone_of_step (f := fun s => (s.nodes n).lastApplied)
      (fun k hk => (run.progress hk n).applied_mono) hxy hy
  rcases lt_trichotomy j k with hlt | heq | hgt
  · have := hmono (show j + 1 ≤ k from hlt) hk.le
    exact absurd (h.2.trans this) (not_le.mpr h'.1)
  · exact heq
  · have := hmono (show k + 1 ≤ j from hgt) hj.le
    exact absurd (h'.2.trans this) (not_le.mpr h.1)

/-- If no stale vote or acknowledgement counts and no commit outruns its append, no two nodes apply
different entries at an index. -/
theorem applied_agree (hvotes : run.VotesFresh) (hacks : run.AcksFresh)
    (hcommits : run.CommitsCovered) : run.AppliedAgree := by
  obtain ⟨a, h⟩ := run.exists_tracks (run.meets_all hvotes hacks hcommits) (.inl trivial) run.len
    le_rfl
  have hC : Complete (quorums spec) RaftEntry.term a := h.reach.complete fun _ _ he => he trivial
  refine ⟨fun j hj k hk m hm n hn i hpass hpass' => ?_,
    fun j hj k hk n _ i hpass hpass' => run.passes_unique hj hk hpass hpass'⟩
  obtain ⟨T, X, e, hX, hXe, he⟩ := h.passed ⟨trivial, trivial, trivial⟩ j hj m hm hpass
  obtain ⟨T', X', e', hX', hXe', he'⟩ := h.passed ⟨trivial, trivial, trivial⟩ k hk n hn hpass'
  obtain rfl := hC.decided_agree hX hX' hXe hXe'
  exact ⟨e, he, he'⟩

theorem settledRun_applied_agree :
    settledRun.Passes 10 1 2 ∧ settledRun.Passes 12 2 2 ∧ settledRun.AppliedAgree :=
  ⟨by decide +kernel, by decide +kernel,
    settledRun.applied_agree settledRun_votesFresh settledRun_acksFresh settledRun_commitsCovered⟩

/-- Both leaders of term 2 get their own entry acknowledged by node 3 at index 2. -/
def splitLogRun : ClusterRun trio :=
  ClusterRun.ofEvents trio trio_boots (staleGrantEvents ++
    [.propose 1 [1], .propose 2 [2],
      .deliver ⟨1, 3, .append 2 1 0 0 [noopEntry 2 1, ⟨2, 2, .normal, [1]⟩] 0⟩,
      .deliver ⟨3, 1, .appendResp 2 true 2⟩,
      .deliver ⟨2, 3, .append 2 2 0 0 [noopEntry 2 1, ⟨2, 2, .normal, [2]⟩] 0⟩,
      .deliver ⟨3, 2, .appendResp 2 true 2⟩]) (by decide +kernel)

theorem splitLogRun_applied_differ : ¬ splitLogRun.AppliedAgree := by
  intro h
  have h₁ : splitLogRun.Passes 19 1 2 := by decide +kernel
  have h₂ : splitLogRun.Passes 21 2 2 := by decide +kernel
  obtain ⟨e, he, he'⟩ := h.1 19 (by decide) 21 (by decide) 1 (by decide) 2 (by decide) 2 h₁ h₂
  have hne : (splitLogRun.node 20 1).log[2 - 1]? ≠ (splitLogRun.node 22 2).log[2 - 1]? := by
    decide +kernel
  exact hne (he.trans he'.symm)

theorem exists_decided (hmet : run.Meets ⟨True, True, True⟩) : ∀ k ≤ run.len,
    ∃ a, Tracks run ⟨True, True, True⟩ k a ∧ ∀ j ≤ k, ∀ n ∈ spec.ids,
      (run.node j n).commitIndex ≤ (run.node j n).log.length ∧
        HDecided spec a (run.node j n).currentTerm
          ((run.node j n).log.take (run.node j n).commitIndex) := by
  have hall : Checks.All ⟨True, True, True⟩ := ⟨trivial, trivial, trivial⟩
  refine run.position_induction ⟨_, Tracks.zero run _, fun j hj n hn => ?_⟩ ?_
  · obtain rfl := Nat.le_zero.mp hj
    exact ((Tracks.zero run _).nodes n hn).commit hall
  · rintro k hk ⟨a, h, hpast⟩
    obtain ⟨a', hsim⟩ := h.simulates hk hmet (.inl trivial)
    have hnext := h.succ hk rfl hsim
    refine ⟨a', hnext, fun j hj n hn => ?_⟩
    rcases Nat.le_succ_iff.mp hj with hj | rfl
    · obtain ⟨hle, hdec⟩ := hpast j hj n hn
      exact ⟨hle, hdec.mono (h.reach.inv.steps hsim.steps).2 le_rfl⟩
    · exact (hnext.nodes n hn).commit hall

/-- What a node has committed is in the log of every leader of no earlier term. -/
theorem leader_complete (hvotes : run.VotesFresh) (hacks : run.AcksFresh)
    (hcommits : run.CommitsCovered) : ∀ k ≤ run.len, ∀ j ≤ k, ∀ n ∈ spec.ids, ∀ m ∈ spec.ids, ∀ T,
      run.Leads k m T → (run.node j n).currentTerm ≤ T →
        (run.node j n).log.take (run.node j n).commitIndex <+: (run.node k m).log := by
  rintro k hk j hj n hn m hm T ⟨hrole, rfl⟩ hterm
  obtain ⟨a, h, hpast⟩ := run.exists_decided (run.meets_all hvotes hacks hcommits) k hk
  have hC : Complete (quorums spec) RaftEntry.term a := h.reach.complete fun _ _ he => he trivial
  have hlead := (Situation.ofTracks h hm).lead_log hrole
  exact hC.decided_isPrefix ((hpast j hj n hn).2.mono (.refl a) hterm) hlead

theorem settledRun_leader_complete : settledRun.Leads 13 1 1 ∧
    (settledRun.node 13 2).log.take 2 <+: (settledRun.node 13 1).log :=
  ⟨by decide +kernel, settledRun.leader_complete settledRun_votesFresh settledRun_acksFresh
    settledRun_commitsCovered 13 (by decide) 13 le_rfl 2 (by decide) 1 (by decide) 1
    (by decide +kernel) (by decide +kernel)⟩

/-- A node only appends to its log while it leads a term, also if it led the term before. -/
theorem leader_only_appends (hone : run.OneLeaderPerTerm) : ∀ k ≤ run.len, ∀ j ≤ k, ∀ m ∈ spec.ids,
    ∀ T, run.Leads j m T → run.Leads k m T → (run.node j m).log <+: (run.node k m).log := by
  rintro k hk j hj m hm T ⟨hrole, rfl⟩ ⟨hrole', hterm⟩
  -- the log that the history has for the term only grows
  have hgrows : ∃ a L, Tracks run ⟨False, False, False⟩ k a ∧
      a.lead (run.node j m).currentTerm = some (m, L) ∧ (run.node j m).log <+: L := by
    clear hrole' hterm
    induction k, hj using Nat.le_induction with
    | base =>
      obtain ⟨a, h⟩ := run.exists_tracks run.meets_none (.inr hone) j hk
      exact ⟨a, _, h, (Situation.ofTracks h hm).lead_log hrole, prefix_rfl⟩
    | succ k hj ih =>
      obtain ⟨a, L, h, hlead, hL⟩ := ih (Nat.le_of_succ_le hk)
      obtain ⟨a', hsim⟩ := h.simulates hk run.meets_none (.inr hone)
      obtain ⟨L', hlead', hL'⟩ := (h.reach.inv.steps hsim.steps).2.lead hlead
      exact ⟨a', L', h.succ hk rfl hsim, hlead', hL.trans hL'⟩
  obtain ⟨a, L, h, hlead, hL⟩ := hgrows
  have hnow := (Situation.ofTracks h hm).lead_log hrole'
  rw [hterm, hlead] at hnow
  cases hnow
  exact hL

theorem settledRun_only_appends :
    (settledRun.node 6 1).log <+: (settledRun.node 13 1).log :=
  settledRun.leader_only_appends settledRun_oneLeaderPerTerm 13 (by decide) 6 (by decide) 1
    (by decide) 1 (by decide +kernel) (by decide +kernel)

end ClusterRun
end Norn
