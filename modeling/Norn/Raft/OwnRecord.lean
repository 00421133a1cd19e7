import Norn.Raft.Calls

/-!
# A node and its own member record

A candidate or leader without a record of its own was removed from its own table and not added again.
-/

namespace Norn
open List
open RaftMember (toSpec)
namespace Raft

structure Holds (r r' : Raft) : Prop where
  self : r'.self = r.self
  specs : r'.members.map toSpec = r.members.map toSpec
  stands : r'.role ≠ .follower → r.role ≠ .follower ∨ r.selfIsEligibleVoter = true

theorem selfIsEligibleVoter_eq (r : Raft) : r.selfIsEligibleVoter =
    ((r.members.map toSpec).find? fun m => m.id == r.self).any
      fun m => m.role = .voter && m.eligible := by
  rw [selfIsEligibleVoter, findMember, find?_map, Option.any_map]
  rfl

theorem countVoters_of_specs (r : Raft) : r.countVoters =
    (r.members.map toSpec).countP fun m => m.role = .voter := by
  rw [countP_map]
  rfl

namespace Holds
variable {r r₁ r' : Raft}

theorem refl (r : Raft) : Holds r r := ⟨rfl, rfl, Or.inl⟩

theorem of_eq (hself : r'.self = r.self)
    (hspecs : r'.members.map toSpec = r.members.map toSpec)
    (hrole : r'.role = r.role ∨ r'.role = .follower) : Holds r r' := by
  refine ⟨hself, hspecs, fun hstands => ?_⟩
  rcases hrole with heq | hfollower
  · exact .inl (heq ▸ hstands)
  · exact absurd hfollower hstands

theorem eligible_eq (h : Holds r r') : r'.selfIsEligibleVoter = r.selfIsEligibleVoter := by
  rw [selfIsEligibleVoter_eq, selfIsEligibleVoter_eq, h.self, h.specs]

section
variable (h : Holds r r₁)
include h

theorem trans (h' : Holds r₁ r') : Holds r r' := by
  refine ⟨h'.self.trans h.self, h'.specs.trans h.specs, fun hstands => ?_⟩
  rcases h'.stands hstands with hrole | heligible
  · exact h.stands hrole
  · exact .inr (h.eligible_eq ▸ heligible)

theorem congr (hself : r'.self = r₁.self)
    (hspecs : r'.members.map toSpec = r₁.members.map toSpec)
    (hrole : r'.role = r₁.role ∨ r'.role = .follower) : Holds r r' :=
  h.trans (of_eq hself hspecs hrole)

theorem updateMember (id : RaftNodeId) {f : RaftMember → RaftMember}
    (hf : ∀ m, (f m).toSpec = m.toSpec) : Holds r (r₁.updateMember id f) :=
  h.congr rfl (r₁.updateMember_specs hf) (.inl rfl)

theorem becomeFollower (term : ℕ) (leader : RaftNodeId) :
    Holds r (r₁.becomeFollower term leader) := by
  rw [becomeFollower_eq]
  exact h.congr rfl rfl (.inr rfl)

theorem applyCommitted : Holds r r₁.applyCommitted.1 := by
  rw [applyCommitted_fst]
  exact h.congr rfl rfl (.inl rfl)

theorem advanceCommit : Holds r r₁.advanceCommit.1 := by
  rw [advanceCommit_fst]
  exact h.congr rfl rfl (.inl rfl)

theorem takeCommit (leaderCommit : ℕ) : Holds r (r₁.takeCommit leaderCommit).1 := by
  rw [takeCommit_fst]
  exact h.congr rfl rfl (.inl rfl)

theorem appendOwn (type : RaftEntryType) (data : List UInt8) : Holds r (r₁.appendOwn type data) := by
  rw [appendOwn_eq]
  refine updateMember ?_ _ fun m => ?_
  · exact h.congr rfl rfl (.inl rfl)
  · rfl

theorem becomeLeader (hright : r.role ≠ .follower ∨ r.selfIsEligibleVoter = true) :
    Holds r r₁.becomeLeader.1 := by
  have hoffice : Holds r r₁.office :=
    ⟨h.self, (r₁.office_specs).trans h.specs, fun _ => hright⟩
  rw [becomeLeader_eq]
  split_ifs
  · exact hoffice.appendOwn _ _
  · exact hoffice

theorem startElection : Holds r r₁.startElection.1 := by
  refine h.trans ?_
  rw [startElection_eq]
  by_cases hself : r₁.selfIsEligibleVoter = false
  · rw [if_pos hself]
    exact of_eq rfl rfl (.inl rfl)
  · have hright : r₁.selfIsEligibleVoter = true := by simpa using hself
    have hstood : Holds r₁ r₁.stood := ⟨rfl, selfVote_specs _, fun _ => .inr hright⟩
    rw [if_neg hself]
    split_ifs
    · refine becomeLeader ?_ (.inr hright)
      exact hstood.congr rfl rfl (.inl rfl)
    · exact hstood.congr rfl rfl (.inl rfl)

end

theorem observed (r : Raft) (term : ℕ) : Holds r (r.observed term) :=
  r.observed_cases term ((refl r).becomeFollower _ _) (refl r)

theorem flagged (r : Raft) (src : RaftNodeId) : Holds r (r.flagged src) :=
  (refl r).updateMember src fun _ => rfl

theorem counting (r : Raft) (src : RaftNodeId) (voteGranted : Bool) :
    Holds r (r.counting src voteGranted) := by
  cases voteGranted with
  | false => exact refl r
  | true => exact flagged r src

theorem seat_eq (h : Holds r r') : r'.seat = r.seat := by
  have hids := congrArg (map MemberSpec.id) h.specs
  rw [map_map, map_map] at hids
  exact Prod.ext h.self hids

end Holds

variable {r : Raft}

theorem Outcome.holds {e : ClusterEvent} {out : Raft × List RaftEffect} (h : r.Outcome e out) :
    Holds r out.1 := by
  have htimers : ∀ nowMs, Holds r (r.advanceTimers nowMs) := fun _ => .of_eq rfl rfl (.inl rfl)
  cases h with
  | answered | overdue | ignored | declined => exact Holds.refl r
  | refused => exact Holds.observed r _
  | granted => exact (Holds.observed r _).congr rfl rfl (.inl rfl)
  | outdated => exact (Holds.counting r _ _).becomeFollower _ _
  | counted => exact Holds.counting r _ _
  | won => exact (Holds.flagged r _).congr rfl (selfVote_specs _) (.inl rfl)
  | elected hrole => exact (Holds.flagged r _).becomeLeader (.inl (by rw [hrole]; decide))
  | missed => exact .of_eq rfl rfl (.inr rfl)
  | taken =>
    apply Holds.takeCommit
    exact .of_eq rfl rfl (.inr rfl)
  | overtaken => exact (Holds.refl r).becomeFollower _ _
  | acked =>
    refine ((Holds.refl r).updateMember _ fun m => ?_).advanceCommit
    rfl
  | backed _ _ _ hr' => exact hr' ▸ (Holds.refl r).updateMember _ fun _ => rfl
  | proposed => exact ((Holds.refl r).appendOwn _ _).advanceCommit
  | beat _ hr' => exact hr' ▸ .of_eq rfl rfl (.inl rfl)
  | quiet => exact .of_eq rfl rfl (.inl rfl)
  | started => exact (htimers _).startElection.applyCommitted
  | waited => exact (htimers _).applyCommitted

theorem self_call (r : Raft) (c : RaftCall) : (r.call c).1.self = r.self := by
  have htable : ∀ {c : RaftCall}, c.EditsTable → (r.call c).1.self = r.self := fun h => by
    obtain ⟨ms, heq⟩ := r.call_of_editsTable h
    rw [heq]
  cases c with
  | addMember | removeMember | promote | setEligible => exact htable trivial
  | propose data => exact (r.outcome_propose 0 data).holds.self
  | recv src msg => exact (r.outcome_call (.deliver ⟨src, 0, msg⟩)).holds.self
  | tick nowMs => exact (r.outcome_tick 0 nowMs).holds.self

theorem seat_wrap (r : Raft) : r.wrap.seat = r.seat := by
  simp only [seat, wrap, map_map]
  rfl

theorem UsesOwn.role_ne {c : RaftCall} (h : r.UsesOwn c) : r.role ≠ .follower := by
  unfold UsesOwn at h
  split at h
  · rw [h.1]
    decide
  · have hrole := h.2.1
    split_ifs at hrole
    · exact fun hfollower => by
        cases hrole.symm.trans hfollower
    · rw [hrole]
      decide
  · exact h.elim

end Raft

/-- A node, and whether it was removed from its own table and is a candidate or leader ever
since. -/
structure Watched where
  raft : Raft
  orphaned : Bool

namespace Watched
variable (w : Watched)

def note (r' : Raft) : RaftCall → Bool
  | .removeMember id => decide (r'.role ≠ .follower) && (w.orphaned || id == w.raft.self)
  | .addMember id role eligible => decide (r'.role ≠ .follower) && (w.orphaned &&
      !(id == w.raft.self && (w.raft.raftAddMember id role eligible).1))
  | _ => decide (r'.role ≠ .follower) && w.orphaned

def apply : Transducer Watched RaftCall RaftEffect := fun w c =>
  (⟨(w.raft.serve c).1, w.note (w.raft.serve c).1 c⟩, (w.raft.serve c).2)

def Found (c : RaftCall) : Prop := (w.raft.call? c).isSome = true

/-- The call does not make an orphaned node propose or win. -/
def Steady (c : RaftCall) : Prop := w.orphaned = true → ¬ w.raft.UsesOwn c

instance (w : Watched) (c : RaftCall) : Decidable (w.Found c) :=
  inferInstanceAs (Decidable (_ = true))

instance (w : Watched) (c : RaftCall) : Decidable (w.Steady c) :=
  inferInstanceAs (Decidable (_ → _))

/-- The flag says whether the node is an orphan. -/
structure Noted (w : Watched) : Prop where
  orphaned : w.orphaned = true ↔ w.raft.role ≠ .follower ∧ ¬ w.raft.Listed
  nodup : (w.raft.members.map RaftMember.id).Nodup

theorem noted_raftNew {self : RaftNodeId} {cfg : Option RaftConfig} {r : Raft}
    (h : Raft.raftNew self cfg = some r) : Noted ⟨r, false⟩ := by
  unfold Raft.raftNew at h
  split_ifs at h
  cases h
  exact ⟨by simp, nodup_nil⟩

section
variable {w : Watched} (h : w.Noted)
include h

variable (c : RaftCall)

theorem Noted.found_iff : w.Found c ↔ w.Steady c := by
  have hsome : w.Found c ↔ ¬ (w.raft.UsesOwn c ∧ ¬ w.raft.Listed) := by
    rw [Found, Raft.call?_eq]
    split_ifs with hbad <;> simp [hbad]
  rw [hsome, Steady, h.orphaned]
  constructor
  · exact fun hno horphan huses => hno ⟨huses, horphan.2⟩
  · exact fun hsteady hbad => hsteady ⟨hbad.1.role_ne, hbad.2⟩ hbad.1

variable {r' : Raft}

theorem Noted.of_seat (hseat : r'.seat = w.raft.seat)
    (hstands : r'.role ≠ .follower → w.raft.role ≠ .follower ∨ w.raft.Listed) :
    Noted ⟨r', decide (r'.role ≠ .follower) && w.orphaned⟩ := by
  have hids : r'.members.map RaftMember.id = w.raft.members.map RaftMember.id :=
    congrArg Prod.snd hseat
  refine ⟨?_, hids ▸ h.nodup⟩
  rw [Bool.and_eq_true, decide_eq_true_eq, h.orphaned, Raft.listed_congr hseat]
  constructor
  · exact fun hboth => ⟨hboth.1, hboth.2.2⟩
  · exact fun hboth => ⟨hboth.1, (hstands hboth.1).resolve_right hboth.2, hboth.2⟩

theorem Noted.of_holds (hholds : w.raft.Holds r') :
    Noted ⟨r', decide (r'.role ≠ .follower) && w.orphaned⟩ :=
  h.of_seat hholds.seat_eq fun hrole => (hholds.stands hrole).imp_right Raft.listed_of_eligible

theorem Noted.addMember (id : RaftNodeId) (role : RaftMemberRole) (eligible : Bool) :
    Noted ⟨(w.raft.raftAddMember id role eligible).2,
      w.note w.raft (.addMember id role eligible)⟩ := by
  obtain hno | ⟨hfound, hadd⟩ := w.raft.raftAddMember_cases id role eligible
  · simp only [note, hno, Bool.and_false, Bool.not_false, Bool.and_true]
    exact h.of_seat rfl .inl
  · have hnew : id ∉ w.raft.members.map RaftMember.id := by
      simpa [Raft.findMember] using hfound
    have hlisted : (Raft.Listed { w.raft with members :=
        w.raft.members ++ [⟨id, role, eligible, w.raft.log.length + 1, 0, false⟩] }) ↔
          w.raft.Listed ∨ id = w.raft.self := by
      rw [Raft.listed_iff, Raft.listed_iff, map_append, mem_append]
      simp [eq_comm]
    refine ⟨?_, ?_⟩
    · simp only [note, hadd, Bool.and_true, Bool.and_eq_true, decide_eq_true_eq,
        Bool.not_eq_true', beq_eq_false_iff_ne, hlisted, h.orphaned, not_or]
      tauto
    · simp only [hadd, map_append, map_cons, map_nil]
      exact nodup_append.mpr ⟨h.nodup, nodup_singleton id, fun a ha b hb heq =>
        hnew (mem_singleton.mp hb ▸ heq ▸ ha)⟩

theorem Noted.removeMember (id : RaftNodeId) :
    Noted ⟨(w.raft.raftRemoveMember id).2, w.note w.raft (.removeMember id)⟩ := by
  have hnote : w.note w.raft (.removeMember id) = true ↔
      w.raft.role ≠ .follower ∧ (¬ w.raft.Listed ∨ id = w.raft.self) := by
    simp only [note, Bool.and_eq_true, Bool.or_eq_true, decide_eq_true_eq, beq_iff_eq, h.orphaned]
    tauto
  cases hfind : w.raft.findMember id with
  | none =>
    have hgone : id = w.raft.self → ¬ w.raft.Listed := by
      rintro rfl
      simp [Raft.Listed, hfind]
    simp only [Raft.raftRemoveMember, hfind]
    refine ⟨hnote.trans ?_, h.nodup⟩
    exact and_congr_right fun _ => ⟨fun hor => hor.elim (fun hno => hno) hgone, .inl⟩
  | some m =>
    obtain ⟨hm, rfl⟩ := w.raft.mem_of_findMember hfind
    have hperm := map_swapRemove_perm RaftMember.id hm
    simp only [Raft.raftRemoveMember, hfind]
    refine ⟨hnote.trans (and_congr_right fun _ => ?_), hperm.nodup_iff.mpr (h.nodup.erase _)⟩
    rw [Raft.listed_iff, Raft.listed_iff, hperm.mem_iff, h.nodup.mem_erase_iff]
    tauto

theorem Noted.wrap : Noted ⟨w.raft.wrap, w.orphaned⟩ := by
  have hids : w.raft.wrap.members.map RaftMember.id = w.raft.members.map RaftMember.id :=
    congrArg Prod.snd w.raft.seat_wrap
  exact ⟨h.orphaned.trans (by rw [Raft.listed_congr w.raft.seat_wrap]; rfl), hids ▸ h.nodup⟩

theorem Noted.call : Noted ⟨(w.raft.call c).1, w.note (w.raft.call c).1 c⟩ := by
  have hrole : ∀ {c : RaftCall}, c.EditsTable → (w.raft.call c).1.role = w.raft.role := fun ht => by
    obtain ⟨ms, heq⟩ := w.raft.call_of_editsTable ht
    rw [heq]
  cases c with
  | addMember id role eligible =>
    have hadd := h.addMember id role eligible
    rw [note, ← hrole (c := .addMember id role eligible) trivial] at hadd
    exact hadd
  | removeMember id =>
    have hremove := h.removeMember id
    rw [note, ← hrole (c := .removeMember id) trivial] at hremove
    exact hremove
  | promote id =>
    have hseat : (w.raft.raftPromote id).2.seat = w.raft.seat := by
      unfold Raft.raftPromote
      cases w.raft.findMember id with
      | none => rfl
      | some m =>
        dsimp only
        split_ifs
        · rfl
        · exact w.raft.seat_updateMember id fun _ => rfl
    exact h.of_seat hseat fun hstands => .inl (hrole (c := .promote id) trivial ▸ hstands)
  | setEligible id eligible =>
    have hseat : ((w.raft.raftSetEligible id eligible).getD w.raft).seat = w.raft.seat := by
      unfold Raft.raftSetEligible
      cases w.raft.findMember id with
      | none => rfl
      | some m => exact w.raft.seat_updateMember id fun _ => rfl
    exact h.of_seat hseat fun hstands => .inl (hrole (c := .setEligible id eligible) trivial ▸ hstands)
  | propose data => exact h.of_holds (w.raft.outcome_propose 0 data).holds
  | recv src msg => exact h.of_holds (w.raft.outcome_call (.deliver ⟨src, 0, msg⟩)).holds
  | tick nowMs => exact h.of_holds (w.raft.outcome_tick 0 nowMs).holds

theorem Noted.next : (apply w c).1.Noted := (h.call c).wrap

end
end Watched
end Norn
