import Norn.Lib.Replication
import Norn.Raft.Cluster

/-!
# What the functions of the core do to a node

One description for each function of the core, so that the cluster proofs never unfold a body.
-/

namespace Norn
open Replication (Adopts)
open List

def RaftMember.toSpec (m : RaftMember) : MemberSpec := ⟨m.id, m.role, m.eligible⟩

@[simp] theorem termAt_zero (log : List RaftEntry) : termAt log 0 = 0 := by simp [termAt]

theorem termAt_succ (log : List RaftEntry) (i : ℕ) :
    termAt log (i + 1) = (log[i]?).elim 0 RaftEntry.term := by
  rcases Nat.lt_or_ge i log.length with h | h
  · rw [termAt, if_neg (by omega), Nat.add_sub_cancel]
  · rw [termAt, if_pos (by omega), getElem?_eq_none h]
    rfl

theorem termAt_eq_of_take {X Y : List RaftEntry} {k i : ℕ} (h : X.take k = Y.take k) (hi : i ≤ k) :
    termAt X i = termAt Y i := by
  cases i with
  | zero => simp
  | succ i =>
    rw [termAt_succ, termAt_succ, ← getElem?_take_of_lt hi, h, getElem?_take_of_lt hi]

variable {id : RaftNodeId} {j : ℕ}

namespace Raft
variable (r : Raft)

theorem raftAddMember_cases (id : RaftNodeId) (role : RaftMemberRole) (eligible : Bool) :
    r.raftAddMember id role eligible = (false, r) ∨ r.findMember id = none ∧
      r.raftAddMember id role eligible = (true, { r with
        members := r.members ++ [⟨id, role, eligible, r.log.length + 1, 0, false⟩] }) := by
  unfold raftAddMember
  split_ifs with hbad hfound
  · exact .inl rfl
  · exact .inl rfl
  · exact .inr ⟨Option.not_isSome_iff_eq_none.mp hfound, rfl⟩

variable {f : RaftMember → RaftMember} {m' : RaftMember} {m : RaftMsg} {d : RaftNodeId}
  {preVote : ℕ}

@[simp] theorem updateMember_specs (hf : ∀ m, (f m).toSpec = m.toSpec) :
    (r.updateMember id f).members.map RaftMember.toSpec = r.members.map RaftMember.toSpec := by
  simp only [updateMember, map_map]
  refine map_congr_left fun m _ => ?_
  by_cases h : m.id = id <;> simp [h, hf]

theorem mem_updateMember : m' ∈ (r.updateMember id f).members ↔
      ∃ m ∈ r.members, m' = if m.id = id then f m else m := by
  simp only [updateMember, mem_map]
  exact ⟨fun ⟨m, hm, h⟩ => ⟨m, hm, h.symm⟩, fun ⟨m, hm, h⟩ => ⟨m, hm, h.symm⟩⟩

theorem mem_of_findMember {m : RaftMember} (h : r.findMember id = some m) :
    m ∈ r.members ∧ m.id = id :=
  ⟨mem_of_find?_eq_some h, by simpa using find?_some h⟩

def selfVote : Raft := r.resetVotes.updateMember r.self fun m => { m with voteGranted := true }

theorem selfVote_specs :
    r.selfVote.members.map RaftMember.toSpec = r.members.map RaftMember.toSpec := by
  rw [selfVote, updateMember_specs]
  · simp only [resetVotes, map_map]
    rfl
  · exact fun _ => rfl

theorem id_of_mem_selfVote (hm' : m' ∈ r.selfVote.members) (hg : m'.voteGranted = true) :
    m'.id = r.self := by
  obtain ⟨m₁, hm₁, rfl⟩ := (mem_updateMember _).mp hm'
  obtain ⟨m, hm, rfl⟩ := mem_map.mp hm₁
  split_ifs at hg ⊢ with hid
  exact hid

theorem becomeFollower_eq (T : ℕ) (ldr : RaftNodeId) : r.becomeFollower T ldr =
    { r with
      role := .follower, currentTerm := max r.currentTerm T, leader := ldr, inPreVote := 0
      votedFor := if r.currentTerm < T then raftNoNode else r.votedFor, electionElapsed := 0 } := by
  by_cases hT : r.currentTerm < T
  · simp only [becomeFollower, if_pos hT, max_eq_right hT.le]
  · simp only [becomeFollower, if_neg hT, max_eq_left (not_lt.mp hT)]

theorem applyLoop_fst (k : ℕ) : (applyLoop k r).1 = { r with lastApplied := r.lastApplied + k } := by
  induction k generalizing r with
  | zero => rfl
  | succ k ih =>
    simp only [applyLoop, ih]
    congr 1
    omega

theorem applyLoop_no_send (k : ℕ) : RaftEffect.send d m ∉ (applyLoop k r).2 := by
  induction k generalizing r with
  | zero => simp [applyLoop]
  | succ k ih =>
    simp only [applyLoop, mem_append, not_or]
    refine ⟨?_, ih _⟩
    split
    · split_ifs <;> simp
    · simp

theorem applyCommitted_fst :
    r.applyCommitted.1 = { r with lastApplied := max r.lastApplied r.commitIndex } := by
  rw [applyCommitted, applyLoop_fst]
  congr 1
  omega

theorem applyCommitted_no_send : RaftEffect.send d m ∉ r.applyCommitted.2 := r.applyLoop_no_send _

theorem commitScan_spec {i j : ℕ} (h : r.commitScan i = some j) :
    r.commitIndex < j ∧ j ≤ i ∧ termAt r.log j = r.currentTerm ∧ r.quorum ≤ r.replicatedOn j := by
  induction i with
  | zero => simp [commitScan] at h
  | succ i ih =>
    simp only [commitScan] at h
    split_ifs at h with h1 h2 h3
    · obtain rfl : i + 1 = j := by simpa using h
      exact ⟨by omega, le_rfl, by simpa using h2, h3⟩
    · obtain ⟨ha, hb, hc⟩ := ih h
      exact ⟨ha, by omega, hc⟩

def newCommit : ℕ := (r.commitScan r.lastLogIndex).getD r.commitIndex

theorem advanceCommit_fst : r.advanceCommit.1 =
    { r with commitIndex := r.newCommit, lastApplied := max r.lastApplied r.newCommit } := by
  rw [advanceCommit, applyCommitted_fst]
  rfl

theorem advanceCommit_no_send : RaftEffect.send d m ∉ r.advanceCommit.2 := applyCommitted_no_send _

theorem newCommit_cases : r.newCommit = r.commitIndex ∨
    (r.commitIndex < r.newCommit ∧ r.newCommit ≤ r.log.length ∧
      termAt r.log r.newCommit = r.currentTerm ∧ r.quorum ≤ r.replicatedOn r.newCommit) := by
  unfold newCommit
  cases h : r.commitScan r.lastLogIndex with
  | none => exact .inl rfl
  | some j => exact .inr (r.commitScan_spec h)

theorem mem_broadcastVote {term : ℕ} (h : RaftEffect.send d m ∈ r.broadcastVote preVote term) :
    d ≠ r.self ∧ m = .requestVote term preVote r.self r.log.length (lastTerm r.log) := by
  simp only [broadcastVote, mem_map, mem_filter, decide_eq_true_eq] at h
  obtain ⟨mm, ⟨_, hne, _⟩, heq⟩ := h
  cases heq
  exact ⟨hne, rfl⟩

theorem sendAppend_eq (m : RaftMember) : r.sendAppend m =
    .send m.id (.append r.currentTerm r.self (m.nextIndex - 1) (termAt r.log (m.nextIndex - 1))
      ((r.log.drop (m.nextIndex - 1)).take raftMaxBatch) r.commitIndex) := by
  have h : ¬ m.nextIndex ≤ r.lastLogIndex → r.log.drop (m.nextIndex - 1) = [] := fun h => by
    simp only [lastLogIndex] at h
    exact drop_eq_nil_of_le (by omega)
  simp only [sendAppend]
  split_ifs with hle
  · rfl
  · rw [h hle, take_nil]

theorem mem_broadcastAppend (h : RaftEffect.send d m ∈ r.broadcastAppend) :
    ∃ mm ∈ r.members, mm.id ≠ r.self ∧ RaftEffect.send d m = r.sendAppend mm := by
  simp only [broadcastAppend, mem_map, mem_filter, decide_eq_true_eq] at h
  obtain ⟨mm, ⟨hmm, hne⟩, heq⟩ := h
  exact ⟨mm, hmm, hne, heq.symm⟩

@[simp] theorem appendOwn_log (type : RaftEntryType) (data : List UInt8) :
    (r.appendOwn type data).log = r.log ++ [⟨r.currentTerm, r.log.length + 1, type, data⟩] := rfl

theorem appendOwn_eq (type : RaftEntryType) (data : List UInt8) : r.appendOwn type data =
    ({ r with log := r.log ++ [⟨r.currentTerm, r.log.length + 1, type, data⟩] } : Raft).updateMember
      r.self fun m => { m with matchIndex := r.log.length + 1 } := by
  simp [appendOwn, lastLogIndex]

theorem mem_appendOwn {type : RaftEntryType} {data : List UInt8} :
    m' ∈ (r.appendOwn type data).members ↔ ∃ m ∈ r.members,
      m' = if m.id = r.self then { m with matchIndex := r.log.length + 1 } else m := by
  rw [appendOwn_eq, mem_updateMember]

def office : Raft :=
  { r with
    role := .leader, leader := r.self, inPreVote := 0, heartbeatElapsed := 0
    members := (r.members.map fun m => { m with nextIndex := r.log.length + 1, matchIndex := 0 }).map
      fun m => if m.id = r.self then { m with matchIndex := r.log.length } else m }

theorem becomeLeader_eq : r.becomeLeader =
    (if r.log.length < raftMaxLog then r.office.appendOwn .noop [] else r.office,
      (if r.log.length < raftMaxLog then r.office.appendOwn .noop [] else r.office).broadcastAppend) :=
  rfl

theorem becomeLeader_role : r.becomeLeader.1.role = .leader := by
  rw [becomeLeader_eq]
  split_ifs <;> rfl

theorem becomeLeader_currentTerm : r.becomeLeader.1.currentTerm = r.currentTerm := by
  rw [becomeLeader_eq]
  split_ifs <;> rfl

@[simp] theorem office_specs :
    r.office.members.map RaftMember.toSpec = r.members.map RaftMember.toSpec := by
  simp only [office, map_map]
  refine map_congr_left fun m _ => ?_
  by_cases h : m.id = r.self <;> simp [h, RaftMember.toSpec]

theorem mem_office (h : m' ∈ r.office.members) :
    m'.nextIndex = r.log.length + 1 ∧ (m'.matchIndex = 0 ∨ (m'.id = r.self ∧
      m'.matchIndex = r.log.length)) := by
  simp only [office, mem_map] at h
  obtain ⟨_, ⟨m, _, rfl⟩, rfl⟩ := h
  by_cases h : m.id = r.self <;> simp [h]

def joined (term : ℕ) (leaderId : RaftNodeId) : Raft :=
  { r with
    role := .follower, currentTerm := term, leader := leaderId, inPreVote := 0
    votedFor := if r.currentTerm < term then raftNoNode else r.votedFor, electionElapsed := 0 }

def takeCommit (leaderCommit : ℕ) : Raft × List RaftEffect :=
  if r.commitIndex < leaderCommit then
    ({ r with commitIndex := min leaderCommit r.log.length } : Raft).applyCommitted
  else (r, [])

theorem takeCommit_no_send {leaderCommit : ℕ} :
    RaftEffect.send d m ∉ (r.takeCommit leaderCommit).2 := by
  unfold takeCommit
  split_ifs
  · exact applyCommitted_no_send _
  · simp

theorem takeCommit_fst (leaderCommit : ℕ) : (r.takeCommit leaderCommit).1 =
    { r with
      commitIndex := if r.commitIndex < leaderCommit then min leaderCommit r.log.length
        else r.commitIndex
      lastApplied := if r.commitIndex < leaderCommit then
        max r.lastApplied (min leaderCommit r.log.length) else r.lastApplied } := by
  unfold takeCommit
  split_ifs
  · rw [applyCommitted_fst]
  · rfl

variable (term : ℕ)

theorem handleAppend_eq (leaderId : RaftNodeId) (prev prevTerm : ℕ)
    (es : List RaftEntry) (lc : ℕ) : r.handleAppend term leaderId prev prevTerm es lc =
      if term < r.currentTerm then (r, [.send leaderId (.appendResp r.currentTerm false 0)])
      else if r.log.length < prev ∨ termAt r.log prev ≠ prevTerm then
        (r.joined term leaderId, [.send leaderId (.appendResp term false 0)])
      else
        ((takeCommit { r.joined term leaderId with log := writeEntries r.log (prev + 1) es } lc).1,
          (takeCommit { r.joined term leaderId with log := writeEntries r.log (prev + 1) es } lc).2 ++
            [.send leaderId (.appendResp term true (prev + es.length))]) := by
  simp only [handleAppend, becomeFollower_eq]
  rfl

def advanceTimers (nowMs : ℕ) : Raft :=
  let dt := if r.now < nowMs then nowMs - r.now else 0
  { r with
    now := nowMs
    electionElapsed := (r.electionElapsed + dt) % 2 ^ 64
    heartbeatElapsed := (r.heartbeatElapsed + dt) % 2 ^ 64 }

def afterTimers : Raft × List RaftEffect :=
  if r.role = .leader then
    if r.cfg.heartbeatMs ≤ r.heartbeatElapsed then
      ({ r with electionElapsed := 0, heartbeatElapsed := 0 },
        ({ r with electionElapsed := 0, heartbeatElapsed := 0 } : Raft).broadcastAppend)
    else ({ r with electionElapsed := 0 }, [])
  else
    let started := if r.electionTimeout ≤ r.electionElapsed then r.startElection else (r, [])
    (started.1.applyCommitted.1, started.2 ++ started.1.applyCommitted.2)

theorem raftTick_eq (nowMs : ℕ) : r.raftTick nowMs = (r.advanceTimers nowMs).afterTimers := rfl

def stood : Raft :=
  { r with role := .candidate, leader := raftNoNode, electionElapsed := 0 }.selfVote

theorem startElection_eq : r.startElection =
    if r.selfIsEligibleVoter = false then ({ r with electionElapsed := 0 }, [])
    else if r.stood.countVoters = 1 then
      { r.stood with
        inPreVote := 0, currentTerm := r.currentTerm + 1, votedFor := r.self }.becomeLeader
    else ({ r.stood with inPreVote := 1 },
      ({ r.stood with inPreVote := 1 } : Raft).broadcastVote 1 (r.currentTerm + 1)) := rfl

theorem handleRequestVote_preVote (hpre : preVote ≠ 0) (candidateId : RaftNodeId)
    (lastLogIndex lastLogTerm : ℕ) : ∃ grant,
      r.handleRequestVote term preVote candidateId lastLogIndex lastLogTerm =
        (r, [.send candidateId (.requestVoteResp r.currentTerm preVote grant)]) := by
  have hsame : ¬ (preVote = 0 ∧ r.currentTerm < term) := fun h => hpre h.1
  simp only [handleRequestVote, if_neg hsame, if_pos hpre]
  exact ⟨_, rfl⟩

def observed (term : ℕ) : Raft :=
  if r.currentTerm < term then r.becomeFollower term raftNoNode else r

theorem observed_cases {Q : Raft → Prop} (hlater : Q (r.becomeFollower term raftNoNode))
    (hsame : Q r) : Q (r.observed term) := by
  unfold observed
  split_ifs
  · exact hlater
  · exact hsame

theorem handleRequestVote_real (candidateId : RaftNodeId) (lastLogIndex lastLogTerm : ℕ) :
    r.handleRequestVote term 0 candidateId lastLogIndex lastLogTerm =
      if (r.observed term).currentTerm ≤ term ∧ ((r.observed term).votedFor = raftNoNode ∨
          (r.observed term).votedFor = candidateId) ∧
          (r.observed term).logOk lastLogIndex lastLogTerm = true then
        ({ r.observed term with votedFor := candidateId, electionElapsed := 0 },
          [.send candidateId (.requestVoteResp (r.observed term).currentTerm 0 true)])
      else (r.observed term,
        [.send candidateId (.requestVoteResp (r.observed term).currentTerm 0 false)]) := by
  simp only [handleRequestVote, true_and, ne_eq, not_true_eq_false, if_false]
  change (if (decide ((r.observed term).currentTerm ≤ term) &&
      decide ((r.observed term).votedFor = raftNoNode ∨ (r.observed term).votedFor = candidateId) &&
      (r.observed term).logOk lastLogIndex lastLogTerm) = true then
        { r.observed term with votedFor := candidateId, electionElapsed := 0 }
      else r.observed term, [RaftEffect.send candidateId (.requestVoteResp (r.observed term).currentTerm 0
      (decide ((r.observed term).currentTerm ≤ term) && decide ((r.observed term).votedFor =
        raftNoNode ∨ (r.observed term).votedFor = candidateId) &&
        (r.observed term).logOk lastLogIndex lastLogTerm))]) = _
  generalize r.observed term = r₁
  cases hup : r₁.logOk lastLogIndex lastLogTerm with
  | false => simp
  | true =>
    by_cases hterm : r₁.currentTerm ≤ term
    · by_cases hfree : r₁.votedFor = raftNoNode ∨ r₁.votedFor = candidateId <;> simp [hterm, hfree]
    · simp [hterm]

def flagged (src : RaftNodeId) : Raft :=
  r.updateMember src fun m => { m with voteGranted := true }

def counting (src : RaftNodeId) (voteGranted : Bool) : Raft :=
  if voteGranted then r.flagged src else r

def risen : Raft :=
  { ({ r with
      inPreVote := 0, currentTerm := r.currentTerm + 1, votedFor := r.self } : Raft).selfVote with
    electionElapsed := 0 }

/-- All that an event can do to a node, with what it sends. -/
inductive Outcome : ClusterEvent → Raft × List RaftEffect → Prop
  | answered {src dst candidateId : RaftNodeId} {term preVote li lt : ℕ} (hpre : preVote ≠ 0)
      (grant : Bool) : Outcome (.deliver ⟨src, dst, .requestVote term preVote candidateId li lt⟩)
        (r, [.send candidateId (.requestVoteResp r.currentTerm preVote grant)])
  | refused {src dst candidateId : RaftNodeId} {term li lt : ℕ} :
      Outcome (.deliver ⟨src, dst, .requestVote term 0 candidateId li lt⟩)
        (r.observed term,
          [.send candidateId (.requestVoteResp (r.observed term).currentTerm 0 false)])
  | granted {src dst candidateId : RaftNodeId} {term li lt : ℕ}
      (hfree : (r.observed term).votedFor = raftNoNode ∨
        (r.observed term).votedFor = candidateId) :
      Outcome (.deliver ⟨src, dst, .requestVote term 0 candidateId li lt⟩)
        ({ r.observed term with votedFor := candidateId, electionElapsed := 0 },
          [.send candidateId (.requestVoteResp (r.observed term).currentTerm 0 true)])
  | outdated {src dst : RaftNodeId} {term : ℕ} {voteGranted : Bool} (hterm : r.currentTerm < term) :
      Outcome (.deliver ⟨src, dst, .requestVoteResp term 0 voteGranted⟩)
        ((r.counting src voteGranted).becomeFollower term raftNoNode, [])
  | counted {src dst : RaftNodeId} {term preVote : ℕ} {voteGranted : Bool} :
      Outcome (.deliver ⟨src, dst, .requestVoteResp term preVote voteGranted⟩)
        (r.counting src voteGranted, [])
  | won {src dst : RaftNodeId} {term preVote : ℕ} (hrole : r.role = .candidate)
      (hpre : r.inPreVote ≠ 0) (hquorum : (r.flagged src).quorum ≤ (r.flagged src).grants) :
      Outcome (.deliver ⟨src, dst, .requestVoteResp term preVote true⟩)
        ((r.flagged src).risen, (r.flagged src).risen.broadcastVote 0 (r.currentTerm + 1))
  | elected {src dst : RaftNodeId} {term preVote : ℕ} (hrole : r.role = .candidate)
      (hpre : r.inPreVote = 0) :
      Outcome (.deliver ⟨src, dst, .requestVoteResp term preVote true⟩) (r.flagged src).becomeLeader
  | overdue {src dst leaderId : RaftNodeId} {term prev prevTerm lc : ℕ} {es : List RaftEntry} :
      Outcome (.deliver ⟨src, dst, .append term leaderId prev prevTerm es lc⟩)
        (r, [.send leaderId (.appendResp r.currentTerm false 0)])
  | missed {src dst leaderId : RaftNodeId} {term prev prevTerm lc : ℕ} {es : List RaftEntry}
      (hterm : r.currentTerm ≤ term) :
      Outcome (.deliver ⟨src, dst, .append term leaderId prev prevTerm es lc⟩)
        (r.joined term leaderId, [.send leaderId (.appendResp term false 0)])
  | taken {src dst leaderId : RaftNodeId} {term prev prevTerm lc : ℕ} {es : List RaftEntry}
      (hterm : r.currentTerm ≤ term) :
      Outcome (.deliver ⟨src, dst, .append term leaderId prev prevTerm es lc⟩)
        ((takeCommit { r.joined term leaderId with log := writeEntries r.log (prev + 1) es } lc).1,
          (takeCommit { r.joined term leaderId with log := writeEntries r.log (prev + 1) es } lc).2 ++
            [.send leaderId (.appendResp term true (prev + es.length))])
  | overtaken {src dst : RaftNodeId} {term matchIndex : ℕ} {success : Bool}
      (hterm : r.currentTerm < term) :
      Outcome (.deliver ⟨src, dst, .appendResp term success matchIndex⟩)
        (r.becomeFollower term raftNoNode, [])
  | ignored {src dst : RaftNodeId} {term matchIndex : ℕ} {success : Bool} :
      Outcome (.deliver ⟨src, dst, .appendResp term success matchIndex⟩) (r, [])
  | acked {src dst : RaftNodeId} {term matchIndex matched : ℕ} (hlead : r.role = .leader)
      (hterm : term ≤ r.currentTerm) {mm : RaftMember} (hfind : r.findMember src = some mm)
      (hmatched : matched = if mm.matchIndex < matchIndex then matchIndex else mm.matchIndex) :
      Outcome (.deliver ⟨src, dst, .appendResp term true matchIndex⟩)
        (r.updateMember src fun m =>
          { m with matchIndex := matched, nextIndex := matched + 1 }).advanceCommit
  | backed {src dst : RaftNodeId} {term matchIndex : ℕ} {success : Bool} {r' : Raft}
      (hlead : r.role = .leader) {mm : RaftMember} (hfind : r.findMember src = some mm)
      (hnext : 1 < mm.nextIndex)
      (hr' : r' = r.updateMember src fun m => { m with nextIndex := mm.nextIndex - 1 }) :
      Outcome (.deliver ⟨src, dst, .appendResp term success matchIndex⟩)
        (r', [r'.sendAppend { mm with nextIndex := mm.nextIndex - 1 }])
  | declined {node : RaftNodeId} {data : List UInt8} : Outcome (.propose node data) (r, [])
  | proposed {node : RaftNodeId} {data : List UInt8} (hlead : r.role = .leader)
      (hfits : data.length ≤ raftEntryMax) (hroom : r.log.length < raftMaxLog) :
      Outcome (.propose node data) ((r.appendOwn .normal data).advanceCommit.1,
        (r.appendOwn .normal data).broadcastAppend ++ (r.appendOwn .normal data).advanceCommit.2)
  | beat {node : RaftNodeId} {nowMs : ℕ} {r' : Raft} (hlead : r.role = .leader)
      (hr' : r' = { r.advanceTimers nowMs with electionElapsed := 0, heartbeatElapsed := 0 }) :
      Outcome (.tick node nowMs) (r', r'.broadcastAppend)
  | quiet {node : RaftNodeId} {nowMs : ℕ} (hlead : r.role = .leader) :
      Outcome (.tick node nowMs) ({ r.advanceTimers nowMs with electionElapsed := 0 }, [])
  | started {node : RaftNodeId} {nowMs : ℕ} (hrole : r.role ≠ .leader)
      (htime : r.electionTimeout ≤ (r.advanceTimers nowMs).electionElapsed) :
      Outcome (.tick node nowMs) ((r.advanceTimers nowMs).startElection.1.applyCommitted.1,
        (r.advanceTimers nowMs).startElection.2 ++
          (r.advanceTimers nowMs).startElection.1.applyCommitted.2)
  | waited {node : RaftNodeId} {nowMs : ℕ} (hrole : r.role ≠ .leader)
      (htime : ¬ r.electionTimeout ≤ (r.advanceTimers nowMs).electionElapsed) :
      Outcome (.tick node nowMs) (r.advanceTimers nowMs).applyCommitted

variable (src dst : RaftNodeId)

theorem outcome_requestVote (term preVote : ℕ) (candidateId : RaftNodeId)
    (li lt : ℕ) : r.Outcome (.deliver ⟨src, dst, .requestVote term preVote candidateId li lt⟩)
      (r.handleRequestVote term preVote candidateId li lt) := by
  by_cases hround : preVote ≠ 0
  · obtain ⟨grant, heq⟩ := r.handleRequestVote_preVote term hround candidateId li lt
    rw [heq]
    exact .answered hround grant
  · obtain rfl := not_not.mp hround
    rw [handleRequestVote_real]
    split_ifs with hvote
    · exact .granted hvote.2.1
    · exact .refused

theorem outcome_requestVoteResp (term preVote : ℕ) (voteGranted : Bool) :
    r.Outcome (.deliver ⟨src, dst, .requestVoteResp term preVote voteGranted⟩)
      ((r.counting src voteGranted).handleRequestVoteResp term preVote voteGranted) := by
  have hterm : (r.counting src voteGranted).currentTerm = r.currentTerm := by
    cases voteGranted <;> rfl
  unfold handleRequestVoteResp
  split_ifs with hlater hrole _ hgranted hfew hpre
  · obtain ⟨rfl, hlt⟩ := hlater
    exact .outdated (hterm ▸ hlt)
  · exact .counted
  · exact .counted
  · exact .counted
  · exact .counted
  · obtain rfl := Bool.eq_true_of_not_eq_false hgranted
    exact .won (not_not.mp hrole) hpre (not_lt.mp hfew)
  · obtain rfl := Bool.eq_true_of_not_eq_false hgranted
    exact .elected (not_not.mp hrole) (not_not.mp hpre)

theorem outcome_append (term : ℕ) (leaderId : RaftNodeId)
    (prev prevTerm : ℕ) (es : List RaftEntry) (lc : ℕ) :
    r.Outcome (.deliver ⟨src, dst, .append term leaderId prev prevTerm es lc⟩)
      (r.handleAppend term leaderId prev prevTerm es lc) := by
  rw [handleAppend_eq]
  split_ifs with hterm
  · exact .overdue
  · exact .missed (not_lt.mp hterm)
  · exact .taken (not_lt.mp hterm)

theorem outcome_appendResp (term : ℕ) (success : Bool) (matchIndex : ℕ) :
    r.Outcome (.deliver ⟨src, dst, .appendResp term success matchIndex⟩)
      (r.handleAppendResp src term success matchIndex) := by
  unfold handleAppendResp
  by_cases hterm : r.currentTerm < term
  · rw [if_pos hterm]
    exact .overtaken hterm
  by_cases hrole : r.role ≠ .leader
  · rw [if_neg hterm, if_pos hrole]
    exact .ignored
  rw [if_neg hterm, if_neg hrole]
  rw [not_not] at hrole
  cases hfind : r.findMember src with
  | none => exact .ignored
  | some mm =>
    cases success with
    | true => exact .acked hrole (not_lt.mp hterm) hfind rfl
    | false =>
      simp only [Bool.false_eq_true, if_false]
      split_ifs with hnext
      · exact .backed hrole hfind hnext rfl
      · exact .ignored

theorem outcome_propose (node : RaftNodeId) (data : List UInt8) :
    r.Outcome (.propose node data) (r.raftPropose data).2 := by
  unfold raftPropose
  split_ifs with hrefused hfull
  · exact .declined
  · exact .declined
  · rw [not_or, not_not, not_lt] at hrefused
    exact .proposed hrefused.1 hrefused.2 (not_le.mp hfull)

theorem outcome_tick (node : RaftNodeId) (nowMs : ℕ) :
    r.Outcome (.tick node nowMs) (r.raftTick nowMs) := by
  rw [raftTick_eq]
  unfold afterTimers
  dsimp only
  split_ifs with hlead _ htime
  · exact .beat hlead rfl
  · exact .quiet hlead
  · exact .started hlead htime
  · exact .waited hlead htime

theorem outcome_call (e : ClusterEvent) : r.Outcome e (Cluster.call r e) := by
  cases e with
  | tick node nowMs => exact r.outcome_tick node nowMs
  | propose node data => exact r.outcome_propose node data
  | deliver packet =>
    obtain ⟨src, dst, msg⟩ := packet
    cases msg with
    | requestVote => exact r.outcome_requestVote _ _ _ _ _ _ _
    | requestVoteResp => exact r.outcome_requestVoteResp _ _ _ _ _
    | append => exact r.outcome_append _ _ _ _ _ _ _ _
    | appendResp => exact r.outcome_appendResp _ _ _ _ _

end Raft

theorem writeEntries_extend {L es : List RaftEntry} (hes : (L.drop j).take es.length = es)
    (hlen : L.length ≤ raftMaxLog) (hidx : ∀ i e, L[i]? = some e → e.index = i + 1)
    (hj : j + es.length ≤ L.length) :
    Raft.writeEntries (L.take j) (j + 1) es = L.take (j + es.length) := by
  induction es generalizing j with
  | nil => simp [Raft.writeEntries]
  | cons e es ih =>
    simp only [length_cons] at hes hj
    have hjL : j < L.length := by omega
    rw [drop_eq_getElem_cons hjL, take_succ_cons] at hes
    obtain ⟨he, hes'⟩ := List.cons.inj hes
    have hshort : (L.take j).length = j := by simp; omega
    have hindex : ({ e with index := j + 1 } : RaftEntry) = e := by
      have := hidx j e (by rw [getElem?_eq_getElem hjL, he])
      rw [← this]
    have hbound : j < raftMaxLog := by omega
    rw [Raft.writeEntries, if_neg (by omega)]
    simp only [hshort, Nat.add_sub_cancel, if_neg (show ¬ j + 1 ≤ j by omega), if_pos hbound, hindex]
    have hsnoc : L.take j ++ [e] = L.take (j + 1) := by
      rw [← he, take_append_getElem]
    rw [hsnoc, ih hes' (by omega)]
    congr 1
    simp only [length_cons]
    omega

theorem writeEntries_adopts {X L es : List RaftEntry} (hes : (L.drop j).take es.length = es)
    (hlen : L.length ≤ raftMaxLog) (hidx : ∀ i e, L[i]? = some e → e.index = i + 1)
    (hj : j + es.length ≤ L.length) (hjX : j ≤ X.length) (hpre : X.take j = L.take j)
    (hmatch : ∀ i, i < X.length → i < L.length → termAt X (i + 1) = termAt L (i + 1) →
      X.take (i + 1) = L.take (i + 1)) :
    Adopts RaftEntry.term X L (j + es.length) (Raft.writeEntries X (j + 1) es) := by
  induction es generalizing j with
  | nil =>
    refine .inl ⟨rfl, ?_⟩
    simpa [← hpre] using take_prefix j X
  | cons e es ih =>
    have hes0 := hes
    simp only [length_cons] at hes hj ⊢
    have hjL : j < L.length := by omega
    rw [drop_eq_getElem_cons hjL, take_succ_cons] at hes
    obtain ⟨he, hes'⟩ := List.cons.inj hes
    have hterm : termAt L (j + 1) = e.term := by
      rw [termAt_succ, getElem?_eq_getElem hjL, he]
      rfl
    by_cases hc : j + 1 ≤ X.length ∧ termAt X (j + 1) = e.term
    · have hpre' : X.take (j + 1) = L.take (j + 1) :=
        hmatch j (by omega) hjL (by rw [hc.2, hterm])
      have hnext := ih hes' (by omega) hc.1 hpre'
      rw [show j + 1 + es.length = j + (es.length + 1) by omega] at hnext
      rwa [Raft.writeEntries, if_pos hc]
    · -- from the first missing or conflicting entry on, the log is rebuilt from the slice
      have hcut : (if j + 1 ≤ X.length then X.take j else X) = L.take j := by
        split_ifs with h
        · exact hpre
        · rw [← hpre, take_of_length_le (by omega)]
      have hindex : ({ e with index := j + 1 } : RaftEntry) = e := by
        have := hidx j e (by rw [getElem?_eq_getElem hjL, he])
        rw [← this]
      have hbound : j < raftMaxLog := by omega
      have hsnoc : L.take j ++ [e] = L.take (j + 1) := by
        rw [← he, take_append_getElem]
      rw [Raft.writeEntries, if_neg hc]
      simp only [Nat.add_sub_cancel, hcut, if_pos hbound, hindex, hsnoc]
      rw [writeEntries_extend hes' hlen hidx (by omega)]
      have hk : j + 1 + es.length = j + (es.length + 1) := by omega
      rw [hk]
      refine .inr ⟨rfl, ?_⟩
      rcases Nat.lt_or_ge j X.length with hlt | hge
      · refine .inr ⟨X.take j, X[j], e, ?_, ?_, fun heq => hc ⟨hlt, ?_⟩⟩
        · rw [take_append_getElem]
          exact take_prefix _ _
        · rw [hpre, hsnoc]
          exact take_prefix_take_left (by omega)
        · rw [termAt_succ, getElem?_eq_getElem hlt]
          exact heq
      · have hX : X = L.take j := by rw [← hpre, take_of_length_le hge]
        refine .inl ?_
        rw [hX]
        exact take_prefix_take_left (by omega)

end Norn
