import Mathlib

/-!
# The consensus core of one node

Data and transition functions of `norn_raft.c`, in the order of the source. A call returns the new
node and the callbacks it made through `raft_io_t`, in call order. Terms and indices are natural
numbers, which agrees with the source for terms below `2 ^ 64 - 1`; the timers wrap at the width of
the source's integers.
-/

namespace Norn

abbrev RaftNodeId := ℕ

def raftNoNode : RaftNodeId := 0
def raftMaxNodes : ℕ := 16
def raftMaxLog : ℕ := 512
def raftEntryMax : ℕ := 512
def raftMaxBatch : ℕ := 8

inductive RaftRole
  | follower | candidate | leader
  deriving DecidableEq, Inhabited

inductive RaftMemberRole
  | voter | learner
  deriving DecidableEq

inductive RaftEntryType
  | normal | noop
  deriving DecidableEq

/-- A log entry; `len` of the source is the length of `data`. -/
structure RaftEntry where
  term : ℕ
  index : ℕ
  type : RaftEntryType
  data : List UInt8
  deriving DecidableEq

inductive RaftMsg
  | requestVote (term preVote : ℕ) (candidateId : RaftNodeId) (lastLogIndex lastLogTerm : ℕ)
  | requestVoteResp (term preVote : ℕ) (voteGranted : Bool)
  | append (term : ℕ) (leaderId : RaftNodeId) (prevLogIndex prevLogTerm : ℕ)
      (entries : List RaftEntry) (leaderCommit : ℕ)
  | appendResp (term : ℕ) (success : Bool) (matchIndex : ℕ)
  deriving DecidableEq

structure RaftConfig where
  electionBaseMs : ℕ
  electionSpreadMs : ℕ
  heartbeatMs : ℕ
  deriving Inhabited

structure RaftMember where
  id : RaftNodeId
  role : RaftMemberRole
  eligible : Bool
  nextIndex : ℕ
  matchIndex : ℕ
  voteGranted : Bool
  deriving DecidableEq

structure Raft where
  self : RaftNodeId
  cfg : RaftConfig
  currentTerm : ℕ
  votedFor : RaftNodeId
  log : List RaftEntry
  role : RaftRole
  leader : RaftNodeId
  commitIndex : ℕ
  lastApplied : ℕ
  now : ℕ
  electionElapsed : ℕ
  heartbeatElapsed : ℕ
  inPreVote : ℕ
  members : List RaftMember
  deriving Inhabited

inductive RaftEffect
  | send (dest : RaftNodeId) (msg : RaftMsg)
  | apply (entry : RaftEntry)
  deriving DecidableEq

def termAt (log : List RaftEntry) (index : ℕ) : ℕ :=
  if index = 0 ∨ log.length < index then 0 else (log[index - 1]?).elim 0 RaftEntry.term

def lastTerm (log : List RaftEntry) : ℕ := (log.getLast?).elim 0 RaftEntry.term

namespace Raft
variable (r : Raft)

def findMember (id : RaftNodeId) : Option RaftMember :=
  r.members.find? fun m => m.id == id

def updateMember (id : RaftNodeId) (f : RaftMember → RaftMember) : Raft :=
  { r with members := r.members.map fun m => if m.id = id then f m else m }

def countVoters : ℕ := r.members.countP fun m => m.role = .voter

def quorum : ℕ := r.countVoters / 2 + 1

def selfIsEligibleVoter : Bool :=
  (r.findMember r.self).any fun m => m.role = .voter && m.eligible

def lastLogIndex : ℕ := r.log.length

def lastLogTerm : ℕ := lastTerm r.log

def electionTimeout : ℕ :=
  (r.cfg.electionBaseMs + (r.self % ((r.cfg.electionSpreadMs + 1) % 2 ^ 32)) % 2 ^ 32) % 2 ^ 32

def logOk (candLastIdx candLastTerm : ℕ) : Bool :=
  if candLastTerm ≠ r.lastLogTerm then decide (r.lastLogTerm < candLastTerm)
  else decide (r.lastLogIndex ≤ candLastIdx)

def resetVotes : Raft :=
  { r with members := r.members.map fun m => { m with voteGranted := false } }

def becomeFollower (term : ℕ) (leader : RaftNodeId) : Raft :=
  let r := { r with role := .follower }
  let r := if r.currentTerm < term then { r with currentTerm := term, votedFor := raftNoNode } else r
  { r with leader := leader, inPreVote := 0, electionElapsed := 0 }

def broadcastVote (preVote term : ℕ) : List RaftEffect :=
  (r.members.filter fun m => m.id ≠ r.self ∧ m.role = .voter).map fun m =>
    .send m.id (.requestVote term preVote r.self r.lastLogIndex r.lastLogTerm)

def sendAppend (m : RaftMember) : RaftEffect :=
  let prev := m.nextIndex - 1
  let entries := if m.nextIndex ≤ r.lastLogIndex then (r.log.drop prev).take raftMaxBatch else []
  .send m.id (.append r.currentTerm r.self prev (termAt r.log prev) entries r.commitIndex)

def broadcastAppend : List RaftEffect :=
  (r.members.filter fun m => m.id ≠ r.self).map r.sendAppend

def appendOwn (type : RaftEntryType) (data : List UInt8) : Raft :=
  let e : RaftEntry := ⟨r.currentTerm, r.log.length + 1, type, data⟩
  let r := { r with log := r.log ++ [e] }
  r.updateMember r.self fun m => { m with matchIndex := r.lastLogIndex }

def becomeLeader : Raft × List RaftEffect :=
  let next := r.lastLogIndex + 1
  let r := { r with
    role := .leader, leader := r.self, inPreVote := 0, heartbeatElapsed := 0
    members := r.members.map fun m : RaftMember => { m with nextIndex := next, matchIndex := 0 } }
  let r := r.updateMember r.self fun m => { m with matchIndex := r.lastLogIndex }
  let r := if r.log.length < raftMaxLog then r.appendOwn .noop [] else r
  (r, r.broadcastAppend)

def startElection : Raft × List RaftEffect :=
  if r.selfIsEligibleVoter = false then ({ r with electionElapsed := 0 }, [])
  else
    let r := { r with role := .candidate, leader := raftNoNode, electionElapsed := 0 }
    let r := r.resetVotes.updateMember r.self fun m => { m with voteGranted := true }
    if r.countVoters = 1 then
      { r with inPreVote := 0, currentTerm := r.currentTerm + 1, votedFor := r.self }.becomeLeader
    else
      let r := { r with inPreVote := 1 }
      (r, r.broadcastVote 1 (r.currentTerm + 1))

def applyLoop : ℕ → Raft → Raft × List RaftEffect
  | 0, r => (r, [])
  | n + 1, r =>
    let r := { r with lastApplied := r.lastApplied + 1 }
    let calls := match r.log[r.lastApplied - 1]? with
      | some e => if e.type = .normal then [RaftEffect.apply e] else []
      | none => []
    let next := applyLoop n r
    (next.1, calls ++ next.2)

def applyCommitted : Raft × List RaftEffect :=
  applyLoop (r.commitIndex - r.lastApplied) r

def replicatedOn (idx : ℕ) : ℕ :=
  r.members.countP fun m => m.role = .voter ∧ idx ≤ m.matchIndex

def commitScan (r : Raft) : ℕ → Option ℕ
  | 0 => none
  | idx + 1 =>
    if idx + 1 ≤ r.commitIndex then none
    else if termAt r.log (idx + 1) ≠ r.currentTerm then none
    else if r.quorum ≤ r.replicatedOn (idx + 1) then some (idx + 1)
    else r.commitScan idx

def advanceCommit : Raft × List RaftEffect :=
  ({ r with commitIndex := (r.commitScan r.lastLogIndex).getD r.commitIndex } : Raft).applyCommitted

def handleRequestVote (term preVote : ℕ) (candidateId : RaftNodeId)
    (lastLogIndex lastLogTerm : ℕ) : Raft × List RaftEffect :=
  let r := if preVote = 0 ∧ r.currentTerm < term then r.becomeFollower term raftNoNode else r
  let upToDate := r.logOk lastLogIndex lastLogTerm
  if preVote ≠ 0 then
    let grant := decide (r.currentTerm < term) && upToDate &&
      decide (r.cfg.electionBaseMs ≤ r.electionElapsed)
    (r, [.send candidateId (.requestVoteResp r.currentTerm preVote grant)])
  else
    let canVote := r.votedFor = raftNoNode ∨ r.votedFor = candidateId
    let grant := decide (r.currentTerm ≤ term) && decide canVote && upToDate
    let r' := if grant then { r with votedFor := candidateId, electionElapsed := 0 } else r
    (r', [.send candidateId (.requestVoteResp r.currentTerm preVote grant)])

def grants : ℕ := r.members.countP fun m => m.role = .voter ∧ m.voteGranted

def handleRequestVoteResp (term preVote : ℕ) (voteGranted : Bool) : Raft × List RaftEffect :=
  if preVote = 0 ∧ r.currentTerm < term then (r.becomeFollower term raftNoNode, [])
  else if r.role ≠ .candidate then (r, [])
  else if preVote ≠ r.inPreVote then (r, [])
  else if voteGranted = false then (r, [])
  else if r.grants < r.quorum then (r, [])
  else if r.inPreVote ≠ 0 then
    let r := { r with inPreVote := 0, currentTerm := r.currentTerm + 1, votedFor := r.self }
    let r := r.resetVotes.updateMember r.self fun m => { m with voteGranted := true }
    let r := { r with electionElapsed := 0 }
    (r, r.broadcastVote 0 r.currentTerm)
  else r.becomeLeader

def writeEntries : List RaftEntry → ℕ → List RaftEntry → List RaftEntry
  | log, _, [] => log
  | log, idx, e :: es =>
    if idx ≤ log.length ∧ termAt log idx = e.term then writeEntries log (idx + 1) es
    else
      let log := if idx ≤ log.length then log.take (idx - 1) else log
      let log := if idx - 1 < raftMaxLog then log ++ [{ e with index := idx }] else log
      writeEntries log (idx + 1) es

def handleAppend (term : ℕ) (leaderId : RaftNodeId) (prevLogIndex prevLogTerm : ℕ)
    (entries : List RaftEntry) (leaderCommit : ℕ) : Raft × List RaftEffect :=
  if term < r.currentTerm then (r, [.send leaderId (.appendResp r.currentTerm false 0)])
  else
    let r := r.becomeFollower term leaderId
    let r := { r with currentTerm := term, leader := leaderId, electionElapsed := 0 }
    if r.lastLogIndex < prevLogIndex ∨ termAt r.log prevLogIndex ≠ prevLogTerm then
      (r, [.send leaderId (.appendResp r.currentTerm false 0)])
    else
      let r := { r with log := writeEntries r.log (prevLogIndex + 1) entries }
      let applied := if r.commitIndex < leaderCommit then
          ({ r with commitIndex := min leaderCommit r.lastLogIndex } : Raft).applyCommitted
        else (r, [])
      (applied.1, applied.2 ++
        [.send leaderId (.appendResp r.currentTerm true (prevLogIndex + entries.length))])

def handleAppendResp (src : RaftNodeId) (term : ℕ) (success : Bool)
    (matchIndex : ℕ) : Raft × List RaftEffect :=
  if r.currentTerm < term then (r.becomeFollower term raftNoNode, [])
  else if r.role ≠ .leader then (r, [])
  else match r.findMember src with
    | none => (r, [])
    | some mm =>
      if success then
        let matched := if mm.matchIndex < matchIndex then matchIndex else mm.matchIndex
        (r.updateMember src fun m =>
          { m with matchIndex := matched, nextIndex := matched + 1 }).advanceCommit
      else if 1 < mm.nextIndex then
        let r := r.updateMember src fun m => { m with nextIndex := mm.nextIndex - 1 }
        (r, [r.sendAppend { mm with nextIndex := mm.nextIndex - 1 }])
      else (r, [])

def raftNew (self : RaftNodeId) (cfg : Option RaftConfig) : Option Raft :=
  if self = raftNoNode then none
  else
    let orDefault (v d : ℕ) := if v = 0 then d else v
    let cfg := cfg.getD ⟨0, 0, 0⟩
    some {
      self := self
      cfg := ⟨orDefault cfg.electionBaseMs 150, orDefault cfg.electionSpreadMs 150,
        orDefault cfg.heartbeatMs 50⟩
      currentTerm := 0, votedFor := raftNoNode, log := [], role := .follower, leader := raftNoNode
      commitIndex := 0, lastApplied := 0, now := 0, electionElapsed := 0, heartbeatElapsed := 0
      inPreVote := 0, members := [] }

def raftAddMember (id : RaftNodeId) (role : RaftMemberRole) (eligible : Bool) : Bool × Raft :=
  if id = raftNoNode ∨ raftMaxNodes ≤ r.members.length then (false, r)
  else if (r.findMember id).isSome then (false, r)
  else
    (true, { r with members := r.members ++ [⟨id, role, eligible, r.lastLogIndex + 1, 0, false⟩] })

def raftPropose (data : List UInt8) : ℕ × Raft × List RaftEffect :=
  if r.role ≠ .leader ∨ raftEntryMax < data.length then (0, r, [])
  else if raftMaxLog ≤ r.log.length then (0, r, [])
  else
    let r := r.appendOwn .normal data
    let committed := r.advanceCommit
    (r.log.length, committed.1, r.broadcastAppend ++ committed.2)

def raftRecv (src : RaftNodeId) : RaftMsg → Raft × List RaftEffect
  | .requestVote term preVote candidateId lastLogIndex lastLogTerm =>
    r.handleRequestVote term preVote candidateId lastLogIndex lastLogTerm
  | .requestVoteResp term preVote voteGranted =>
    let r := if voteGranted then r.updateMember src fun m => { m with voteGranted := true } else r
    r.handleRequestVoteResp term preVote voteGranted
  | .append term leaderId prevLogIndex prevLogTerm entries leaderCommit =>
    r.handleAppend term leaderId prevLogIndex prevLogTerm entries leaderCommit
  | .appendResp term success matchIndex => r.handleAppendResp src term success matchIndex

def raftTick (nowMs : ℕ) : Raft × List RaftEffect :=
  let dt := if r.now < nowMs then nowMs - r.now else 0
  let r := { r with
    now := nowMs
    electionElapsed := (r.electionElapsed + dt) % 2 ^ 64
    heartbeatElapsed := (r.heartbeatElapsed + dt) % 2 ^ 64 }
  if r.role = .leader then
    let r := { r with electionElapsed := 0 }
    if r.cfg.heartbeatMs ≤ r.heartbeatElapsed then
      let r := { r with heartbeatElapsed := 0 }
      (r, r.broadcastAppend)
    else (r, [])
  else
    let started := if r.electionTimeout ≤ r.electionElapsed then r.startElection else (r, [])
    let applied := started.1.applyCommitted
    (applied.1, started.2 ++ applied.2)

end Raft
end Norn
