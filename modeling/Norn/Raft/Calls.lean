import Norn.Lib.Table
import Norn.Raft.CoreFacts

/-!
# The calls at one node

Functions with a question mark have no result where the source writes through a missing own record.
-/

namespace Norn
open List (map map_map)
namespace Raft
variable (r : Raft)

def raftRemoveMember (id : RaftNodeId) : Bool × Raft :=
  match r.findMember id with
  | none => (false, r)
  | some m => (true, { r with members := swapRemove r.members m })

def raftPromote (id : RaftNodeId) : Bool × Raft :=
  match r.findMember id with
  | none => (false, r)
  | some m =>
    if m.role ≠ .learner then (false, r)
    else (true, r.updateMember id fun m => { m with role := .voter, eligible := true })

def raftSetEligible (id : RaftNodeId) (eligible : Bool) : Option Raft :=
  (r.findMember id).map fun _ => r.updateMember id fun m => { m with eligible := eligible }

def Listed : Prop := (r.findMember r.self).isSome = true

instance (r : Raft) : Decidable r.Listed := inferInstanceAs (Decidable (_ = true))

def seat : RaftNodeId × List RaftNodeId := (r.self, r.members.map RaftMember.id)

theorem listed_iff : r.Listed ↔ r.self ∈ r.members.map RaftMember.id := by
  rw [Listed, findMember, List.find?_isSome]
  simp

variable {r : Raft}

theorem listed_congr {r' : Raft} (h : r'.seat = r.seat) : r'.Listed ↔ r.Listed := by
  simp only [seat, Prod.mk.injEq] at h
  rw [listed_iff, listed_iff, h.1, h.2]

theorem seat_updateMember (r : Raft) (id : RaftNodeId) {f : RaftMember → RaftMember}
    (hf : ∀ m, (f m).id = m.id) : (r.updateMember id f).seat = r.seat := by
  simp only [seat, updateMember, map_map, Prod.mk.injEq, true_and]
  refine List.map_congr_left fun m _ => ?_
  simp only [Function.comp_apply]
  split_ifs
  · exact hf m
  · rfl

theorem seat_selfVote (r : Raft) : r.selfVote.seat = r.seat := by
  refine (seat_updateMember _ _ fun m => ?_).trans ?_
  · rfl
  · simp only [seat, resetVotes, map_map]
    rfl

theorem seat_office (r : Raft) : r.office.seat = r.seat := by
  have hself : r.office.members.map RaftMember.toSpec = r.members.map RaftMember.toSpec :=
    r.office_specs
  have hids := congrArg (map MemberSpec.id) hself
  rw [map_map, map_map] at hids
  exact congrArg (Prod.mk r.self) hids

def atSelf (r : Raft) (f : RaftMember → RaftMember) : Option Raft :=
  if r.Listed then some (r.updateMember r.self f) else none

def appendOwn? (r : Raft) (type : RaftEntryType) (data : List UInt8) : Option Raft :=
  let e : RaftEntry := ⟨r.currentTerm, r.log.length + 1, type, data⟩
  let r := { r with log := r.log ++ [e] }
  r.atSelf fun m => { m with matchIndex := r.lastLogIndex }

def becomeLeader? (r : Raft) : Option (Raft × List RaftEffect) :=
  let next := r.lastLogIndex + 1
  let r := { r with
    role := .leader, leader := r.self, inPreVote := 0, heartbeatElapsed := 0
    members := r.members.map fun m : RaftMember => { m with nextIndex := next, matchIndex := 0 } }
  (r.atSelf fun m => { m with matchIndex := r.lastLogIndex }).bind fun r =>
    (if r.log.length < raftMaxLog then r.appendOwn? .noop [] else some r).map fun r =>
      (r, r.broadcastAppend)

def startElection? (r : Raft) : Option (Raft × List RaftEffect) :=
  if r.selfIsEligibleVoter = false then some ({ r with electionElapsed := 0 }, [])
  else
    let r := { r with role := .candidate, leader := raftNoNode, electionElapsed := 0 }
    (r.resetVotes.atSelf fun m => { m with voteGranted := true }).bind fun r =>
      if r.countVoters = 1 then
        { r with inPreVote := 0, currentTerm := r.currentTerm + 1, votedFor := r.self }.becomeLeader?
      else
        let r := { r with inPreVote := 1 }
        some (r, r.broadcastVote 1 (r.currentTerm + 1))

def handleRequestVoteResp? (r : Raft) (term preVote : ℕ) (voteGranted : Bool) :
    Option (Raft × List RaftEffect) :=
  if preVote = 0 ∧ r.currentTerm < term then some (r.becomeFollower term raftNoNode, [])
  else if r.role ≠ .candidate then some (r, [])
  else if preVote ≠ r.inPreVote then some (r, [])
  else if voteGranted = false then some (r, [])
  else if r.grants < r.quorum then some (r, [])
  else if r.inPreVote ≠ 0 then
    let r := { r with inPreVote := 0, currentTerm := r.currentTerm + 1, votedFor := r.self }
    (r.resetVotes.atSelf fun m => { m with voteGranted := true }).map fun r =>
      let r := { r with electionElapsed := 0 }
      (r, r.broadcastVote 0 r.currentTerm)
  else r.becomeLeader?

def raftPropose? (r : Raft) (data : List UInt8) : Option (Raft × List RaftEffect) :=
  if r.role ≠ .leader ∨ raftEntryMax < data.length then some (r, [])
  else if raftMaxLog ≤ r.log.length then some (r, [])
  else (r.appendOwn? .normal data).map fun r =>
    (r.advanceCommit.1, r.broadcastAppend ++ r.advanceCommit.2)

def raftRecv? (r : Raft) (src : RaftNodeId) : RaftMsg → Option (Raft × List RaftEffect)
  | .requestVoteResp term preVote voteGranted =>
    let r := if voteGranted then r.updateMember src fun m => { m with voteGranted := true } else r
    r.handleRequestVoteResp? term preVote voteGranted
  | msg => some (r.raftRecv src msg)

def raftTick? (r : Raft) (nowMs : ℕ) : Option (Raft × List RaftEffect) :=
  let r := r.advanceTimers nowMs
  if r.role = .leader then some r.afterTimers
  else
    (if r.electionTimeout ≤ r.electionElapsed then r.startElection? else some (r, [])).map
      fun started => (started.1.applyCommitted.1, started.2 ++ started.1.applyCommitted.2)

theorem atSelf_of_listed (h : r.Listed) (f : RaftMember → RaftMember) :
    r.atSelf f = some (r.updateMember r.self f) := if_pos h

theorem atSelf_of_not_listed (h : ¬ r.Listed) (f : RaftMember → RaftMember) :
    r.atSelf f = none := if_neg h

theorem appendOwn?_eq (r : Raft) (type : RaftEntryType) (data : List UInt8) :
    r.appendOwn? type data = if r.Listed then some (r.appendOwn type data) else none := rfl

theorem becomeLeader?_eq (r : Raft) :
    r.becomeLeader? = if r.Listed then some r.becomeLeader else none := by
  have hcleared : ({ r with
      role := .leader, leader := r.self, inPreVote := 0, heartbeatElapsed := 0
      members := r.members.map fun m : RaftMember =>
        { m with nextIndex := r.lastLogIndex + 1, matchIndex := 0 } } : Raft).Listed ↔ r.Listed := by
    refine listed_congr ?_
    simp only [seat, map_map]
    rfl
  by_cases h : r.Listed
  · have hoffice : r.office.Listed := (listed_congr r.seat_office).mpr h
    rw [if_pos h, becomeLeader?, becomeLeader_eq]
    simp only [atSelf_of_listed (hcleared.mpr h), Option.bind_some]
    change (if r.office.log.length < raftMaxLog then r.office.appendOwn? .noop []
      else some r.office).map _ = _
    rw [appendOwn?_eq, if_pos hoffice]
    change (if r.log.length < raftMaxLog then _ else _ : Option Raft).map _ = _
    split_ifs <;> rfl
  · rw [if_neg h, becomeLeader?]
    simp only [atSelf_of_not_listed (mt hcleared.mp h), Option.bind_none]

theorem listed_of_eligible (h : r.selfIsEligibleVoter = true) : r.Listed := by
  rw [selfIsEligibleVoter, Option.any_eq_true] at h
  obtain ⟨m, hm, _⟩ := h
  exact Option.isSome_iff_exists.mpr ⟨m, hm⟩

theorem listed_resetVotes (r : Raft) : r.resetVotes.Listed ↔ r.Listed := by
  refine listed_congr ?_
  simp only [seat, resetVotes, map_map]
  rfl

theorem startElection?_eq (r : Raft) : r.startElection? = some r.startElection := by
  rw [startElection?, startElection_eq]
  by_cases hself : r.selfIsEligibleVoter = false
  · rw [if_pos hself, if_pos hself]
  · have hlisted : r.Listed := listed_of_eligible (Bool.not_eq_false _ ▸ hself)
    have hcandidate := (listed_resetVotes { r with
      role := .candidate, leader := raftNoNode, electionElapsed := 0 }).mpr
      ((listed_congr rfl).mpr hlisted)
    have hstood : r.stood.Listed := (listed_congr (seat_selfVote _)).mpr hlisted
    rw [if_neg hself, if_neg hself]
    simp only [atSelf_of_listed hcandidate, Option.bind_some]
    change (if r.stood.countVoters = 1 then _ else _) = _
    split_ifs
    · exact (becomeLeader?_eq _).trans (if_pos ((listed_congr rfl).mpr hstood))
    · rfl

theorem raftTick?_eq (r : Raft) (nowMs : ℕ) : r.raftTick? nowMs = some (r.raftTick nowMs) := by
  rw [raftTick?, raftTick_eq]
  generalize r.advanceTimers nowMs = r₁
  unfold afterTimers
  simp only
  by_cases hlead : r₁.role = .leader
  · simp only [if_pos hlead]
  · simp only [if_neg hlead]
    split_ifs
    · rw [startElection?_eq]
      rfl
    · rfl

def Wins (r : Raft) (term preVote : ℕ) (voteGranted : Bool) : Prop :=
  ¬ (preVote = 0 ∧ r.currentTerm < term) ∧ r.role = .candidate ∧ preVote = r.inPreVote ∧
    voteGranted = true ∧ r.quorum ≤ r.grants

instance (r : Raft) (term preVote : ℕ) (voteGranted : Bool) :
    Decidable (r.Wins term preVote voteGranted) := inferInstanceAs (Decidable (_ ∧ _))

theorem handleRequestVoteResp?_eq (r : Raft) (term preVote : ℕ) (voteGranted : Bool) :
    r.handleRequestVoteResp? term preVote voteGranted =
      if r.Wins term preVote voteGranted ∧ ¬ r.Listed then none
      else some (r.handleRequestVoteResp term preVote voteGranted) := by
  unfold handleRequestVoteResp? handleRequestVoteResp
  by_cases hterm : preVote = 0 ∧ r.currentTerm < term
  · simp only [if_pos hterm]
    rw [if_neg fun h => h.1.1 hterm]
  by_cases hrole : r.role ≠ .candidate
  · simp only [if_neg hterm, if_pos hrole]
    rw [if_neg fun h => hrole h.1.2.1]
  by_cases hround : preVote ≠ r.inPreVote
  · simp only [if_neg hterm, if_neg hrole, if_pos hround]
    rw [if_neg fun h => hround h.1.2.2.1]
  by_cases hgrant : voteGranted = false
  · simp only [if_neg hterm, if_neg hrole, if_neg hround, if_pos hgrant]
    rw [if_neg fun h => Bool.false_ne_true (hgrant.symm.trans h.1.2.2.2.1)]
  by_cases hfew : r.grants < r.quorum
  · simp only [if_neg hterm, if_neg hrole, if_neg hround, if_neg hgrant, if_pos hfew]
    rw [if_neg fun h => absurd hfew h.1.2.2.2.2.not_gt]
  have hwins : r.Wins term preVote voteGranted :=
    ⟨hterm, not_not.mp hrole, not_not.mp hround, Bool.not_eq_false _ ▸ hgrant, not_lt.mp hfew⟩
  simp only [if_neg hterm, if_neg hrole, if_neg hround, if_neg hgrant, if_neg hfew,
    and_iff_right hwins]
  by_cases hpre : r.inPreVote ≠ 0
  · have hlisted := listed_resetVotes
      { r with inPreVote := 0, currentTerm := r.currentTerm + 1, votedFor := r.self }
    simp only [if_pos hpre]
    by_cases h : r.Listed
    · rw [if_neg (not_not.mpr h), atSelf_of_listed (hlisted.mpr ((listed_congr rfl).mpr h))]
      rfl
    · rw [if_pos h, atSelf_of_not_listed (mt hlisted.mp (mt (listed_congr rfl).mp h))]
      rfl
  · simp only [if_neg hpre, becomeLeader?_eq, ite_not]

theorem raftPropose?_eq (r : Raft) (data : List UInt8) : r.raftPropose? data =
    if (r.role = .leader ∧ data.length ≤ raftEntryMax ∧ r.log.length < raftMaxLog) ∧ ¬ r.Listed
    then none else some (r.raftPropose data).2 := by
  unfold raftPropose? raftPropose
  by_cases hrefused : r.role ≠ .leader ∨ raftEntryMax < data.length
  · simp only [if_pos hrefused]
    rw [if_neg fun h => hrefused.elim (· h.1.1) fun hlen => absurd hlen h.1.2.1.not_gt]
  by_cases hfull : raftMaxLog ≤ r.log.length
  · simp only [if_neg hrefused, if_pos hfull]
    rw [if_neg fun h => absurd hfull h.1.2.2.not_ge]
  simp only [if_neg hrefused, if_neg hfull, appendOwn?_eq]
  rw [not_or, not_not, not_lt] at hrefused
  by_cases h : r.Listed
  · rw [if_pos h, if_neg fun hno => hno.2 h]
    rfl
  · rw [if_neg h, if_pos ⟨⟨hrefused.1, hrefused.2, not_le.mp hfull⟩, h⟩]
    rfl

end Raft

inductive RaftCall
  | addMember (id : RaftNodeId) (role : RaftMemberRole) (eligible : Bool)
  | removeMember (id : RaftNodeId)
  | promote (id : RaftNodeId)
  | setEligible (id : RaftNodeId) (eligible : Bool)
  | propose (data : List UInt8)
  | recv (src : RaftNodeId) (msg : RaftMsg)
  | tick (nowMs : ℕ)

def RaftCall.EditsTable : RaftCall → Prop
  | .addMember .. => True
  | .removeMember _ => True
  | .promote _ => True
  | .setEligible .. => True
  | _ => False

namespace Raft
variable (r : Raft)

def call : RaftCall → Raft × List RaftEffect
  | .addMember id role eligible => ((r.raftAddMember id role eligible).2, [])
  | .removeMember id => ((r.raftRemoveMember id).2, [])
  | .promote id => ((r.raftPromote id).2, [])
  | .setEligible id eligible => ((r.raftSetEligible id eligible).getD r, [])
  | .propose data => (r.raftPropose data).2
  | .recv src msg => r.raftRecv src msg
  | .tick nowMs => r.raftTick nowMs

theorem call_of_editsTable {c : RaftCall} (h : c.EditsTable) :
    ∃ ms, r.call c = ({ r with members := ms }, []) := by
  cases c with
  | addMember id role eligible =>
    obtain hno | ⟨-, hadd⟩ := r.raftAddMember_cases id role eligible
    · exact ⟨r.members, by rw [call, hno]⟩
    · exact ⟨_, by rw [call, hadd]⟩
  | removeMember id =>
    rw [call, raftRemoveMember]
    cases r.findMember id with
    | none => exact ⟨r.members, rfl⟩
    | some m => exact ⟨_, rfl⟩
  | promote id =>
    rw [call, raftPromote]
    cases r.findMember id with
    | none => exact ⟨r.members, rfl⟩
    | some m =>
      dsimp only
      split_ifs
      · exact ⟨r.members, rfl⟩
      · exact ⟨_, rfl⟩
  | setEligible id eligible =>
    rw [call, raftSetEligible]
    cases r.findMember id with
    | none => exact ⟨r.members, rfl⟩
    | some m => exact ⟨_, rfl⟩
  | propose | recv | tick => exact h.elim

def call? : RaftCall → Option (Raft × List RaftEffect)
  | .propose data => r.raftPropose? data
  | .recv src msg => r.raftRecv? src msg
  | .tick nowMs => r.raftTick? nowMs
  | c => some (r.call c)

/-- The call writes through the pointer to the own record. -/
def UsesOwn : RaftCall → Prop
  | .propose data =>
    r.role = .leader ∧ data.length ≤ raftEntryMax ∧ r.log.length < raftMaxLog
  | .recv src (.requestVoteResp term preVote voteGranted) =>
    (if voteGranted then r.updateMember src fun m => { m with voteGranted := true } else r).Wins
      term preVote voteGranted
  | _ => False

instance (r : Raft) (c : RaftCall) : Decidable (r.UsesOwn c) := by
  unfold UsesOwn
  split <;> infer_instance

theorem call?_eq (c : RaftCall) :
    r.call? c = if r.UsesOwn c ∧ ¬ r.Listed then none else some (r.call c) := by
  cases c with
  | propose data => exact r.raftPropose?_eq data
  | tick nowMs => exact (r.raftTick?_eq nowMs).trans (if_neg fun h => h.1).symm
  | recv src msg =>
    cases msg with
    | requestVoteResp term preVote voteGranted =>
      have hseat : (if voteGranted then r.updateMember src fun m => { m with voteGranted := true }
          else r).seat = r.seat := by
        split_ifs
        · exact r.seat_updateMember src fun _ => rfl
        · rfl
      refine (handleRequestVoteResp?_eq _ _ _ _).trans ?_
      exact if_congr (and_congr_right fun _ => not_congr (listed_congr hseat)) rfl rfl
    | _ => exact (if_neg fun h => h.1).symm
  | _ => exact (if_neg fun h => h.1).symm

def wrap : Raft :=
  { r with
    currentTerm := r.currentTerm % 2 ^ 64
    log := r.log.map fun e => { e with term := e.term % 2 ^ 64 }
    members := r.members.map fun m => { m with nextIndex := m.nextIndex % 2 ^ 64 } }

def serve : Transducer Raft RaftCall RaftEffect := fun r c => ((r.call c).1.wrap, (r.call c).2)

end Raft
end Norn
