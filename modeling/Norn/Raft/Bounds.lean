import Norn.Cluster.Wire
import Norn.Raft.Calls
import Norn.Raft.Progress

/-!
# The indices of a node and its log

An append message may cut the log below the commit index.
-/

namespace Norn
open List
namespace Raft
section
variable {log es : List RaftEntry} {prev : ℕ} {e : RaftEntry}

theorem not_conflicts_of_le (h : log.length ≤ prev) : ¬ Conflicts log prev es := by
  rintro ⟨i, _, hlt, _⟩
  omega

theorem conflicts_cons : Conflicts log prev (e :: es) ↔
    (prev < log.length ∧ termAt log (prev + 1) ≠ e.term) ∨ Conflicts log (prev + 1) es := by
  have hhead : termAt (e :: es) 1 = e.term := by rw [termAt_succ]; rfl
  have htail : ∀ i, termAt (e :: es) (i + 1 + 1) = termAt es (i + 1) := fun i => by
    rw [termAt_succ, termAt_succ, getElem?_cons_succ]
  constructor
  · rintro ⟨i, hi, hlt, hne⟩
    cases i with
    | zero => exact .inl ⟨hlt, hhead ▸ hne⟩
    | succ i =>
      refine .inr ⟨i, Nat.lt_of_succ_lt_succ hi, by omega, ?_⟩
      rw [← htail, show prev + 1 + i + 1 = prev + (i + 1) + 1 by omega]
      exact hne
  · rintro (⟨hlt, hne⟩ | ⟨i, hi, hlt, hne⟩)
    · exact ⟨0, Nat.succ_pos _, hlt, hhead.symm ▸ hne⟩
    · refine ⟨i + 1, Nat.succ_lt_succ hi, by omega, ?_⟩
      rw [htail, show prev + (i + 1) + 1 = prev + 1 + i + 1 by omega]
      exact hne

theorem length_writeEntries_of_not_conflicts (hlog : log.length ≤ raftMaxLog)
    (hprev : prev ≤ log.length ∨ raftMaxLog ≤ log.length) (h : ¬ Conflicts log prev es) :
    (writeEntries log (prev + 1) es).length =
      max log.length (min (prev + es.length) raftMaxLog) := by
  induction es generalizing log prev with
  | nil =>
    simp only [writeEntries, length_nil]
    omega
  | cons e es ih =>
    rw [conflicts_cons, not_or] at h
    rw [writeEntries, length_cons]
    by_cases hhave : prev + 1 ≤ log.length ∧ termAt log (prev + 1) = e.term
    · rw [if_pos hhave, ih hlog (by omega) h.2]
      omega
    · have hend : ¬ prev + 1 ≤ log.length := fun hle =>
        h.1 ⟨hle, fun heq => hhave ⟨hle, heq⟩⟩
      simp only [if_neg hhave, if_neg hend, Nat.add_sub_cancel]
      by_cases hroom : prev < raftMaxLog
      · have hlen : (log ++ [{ e with index := prev + 1 }]).length = log.length + 1 := by simp
        rw [if_pos hroom, ih (by omega) (by omega) (not_conflicts_of_le (by omega)), hlen]
        omega
      · rw [if_neg hroom, ih hlog (by omega) (not_conflicts_of_le (by omega))]
        omega

theorem length_writeEntries_of_conflicts (hlog : log.length ≤ raftMaxLog)
    (h : Conflicts log prev es) :
    (writeEntries log (prev + 1) es).length = min (prev + es.length) raftMaxLog := by
  induction es generalizing prev with
  | nil =>
    obtain ⟨i, hi, _⟩ := h
    exact absurd hi (Nat.not_lt_zero i)
  | cons e es ih =>
    rw [writeEntries, length_cons]
    by_cases hhave : prev + 1 ≤ log.length ∧ termAt log (prev + 1) = e.term
    · have hrest := (conflicts_cons.mp h).resolve_left fun hhead => hhead.2 hhave.2
      rw [if_pos hhave, ih hrest]
      omega
    · have hlt : prev + 1 ≤ log.length := by
        rcases conflicts_cons.mp h with hhead | ⟨i, _, hi, _⟩ <;> omega
      have hlen : (log.take prev ++ [{ e with index := prev + 1 }]).length = prev + 1 := by
        simp
        omega
      simp only [if_neg hhave, if_pos hlt, Nat.add_sub_cancel]
      rw [if_pos (by omega), length_writeEntries_of_not_conflicts (by omega) (by omega)
        (not_conflicts_of_le (by omega)), hlen]
      omega

end

variable {term prev prevTerm : ℕ} {r : Raft} {e : ClusterEvent} {out : Raft × List RaftEffect}

theorem handleAppend_of_accepted (r : Raft) (hterm : r.currentTerm ≤ term)
    (hlen : prev ≤ r.log.length) (hprev : termAt r.log prev = prevTerm) (leaderId : RaftNodeId)
    (es : List RaftEntry) (lc : ℕ) :
    (r.handleAppend term leaderId prev prevTerm es lc).1.log = writeEntries r.log (prev + 1) es ∧
      (r.handleAppend term leaderId prev prevTerm es lc).1.commitIndex =
        if r.commitIndex < lc then min lc (writeEntries r.log (prev + 1) es).length
        else r.commitIndex := by
  rw [handleAppend_eq, if_neg (not_lt.mpr hterm),
    if_neg (not_or.mpr ⟨not_lt.mpr hlen, not_not.mpr hprev⟩), takeCommit_fst]
  exact ⟨rfl, rfl⟩

theorem handleAppend_of_refused
    (h : ¬ (r.currentTerm ≤ term ∧ prev ≤ r.log.length ∧ termAt r.log prev = prevTerm))
    (leaderId : RaftNodeId) (es : List RaftEntry) (lc : ℕ) :
    (r.handleAppend term leaderId prev prevTerm es lc).1.log = r.log ∧
      (r.handleAppend term leaderId prev prevTerm es lc).1.commitIndex = r.commitIndex := by
  rw [handleAppend_eq]
  split_ifs with hold hmiss
  · exact ⟨rfl, rfl⟩
  · exact ⟨rfl, rfl⟩
  · rw [not_or, not_lt, not_not] at hmiss
    exact absurd ⟨not_lt.mp hold, hmiss⟩ h

structure Grows (r r' : Raft) : Prop where
  commit : r.commitIndex ≤ r'.commitIndex
  reach : r'.commitIndex ≤ max r.commitIndex r'.log.length
  log : r.log.length ≤ r'.log.length
  room : r'.log.length ≤ max r.log.length raftMaxLog

namespace Grows
variable {r r₁ r' : Raft}

theorem of_eq (hcommit : r'.commitIndex = r.commitIndex) (hlog : r'.log = r.log) : Grows r r' :=
  ⟨hcommit.ge, by rw [hcommit]; exact le_max_left _ _, by rw [hlog], by
    rw [hlog]; exact le_max_left _ _⟩

theorem refl (r : Raft) : Grows r r := of_eq rfl rfl

theorem trans (h : Grows r r₁) (h' : Grows r₁ r') : Grows r r' := by
  have := h.commit
  have := h.reach
  have := h.log
  have := h.room
  have := h'.commit
  have := h'.reach
  have := h'.log
  have := h'.room
  constructor <;> omega

theorem congr (h : Grows r r₁) (hcommit : r'.commitIndex = r₁.commitIndex)
    (hlog : r'.log = r₁.log) : Grows r r' :=
  h.trans (of_eq hcommit hlog)

theorem becomeFollower (r : Raft) (term : ℕ) (leader : RaftNodeId) :
    Grows r (r.becomeFollower term leader) := by
  rw [becomeFollower_eq]
  exact of_eq rfl rfl

section
variable (h : Grows r r₁)
include h

theorem appendOwn (hroom : r₁.log.length < raftMaxLog) (type : RaftEntryType) (data : List UInt8) :
    Grows r (r₁.appendOwn type data) := by
  have hlen : (r₁.appendOwn type data).log.length = r₁.log.length + 1 := by simp
  have hcommit : (r₁.appendOwn type data).commitIndex = r₁.commitIndex := rfl
  refine h.trans ⟨hcommit.ge, ?_, ?_, ?_⟩ <;> omega

theorem becomeLeader : Grows r r₁.becomeLeader.1 := by
  have hoffice : Grows r r₁.office := h.congr rfl rfl
  rw [becomeLeader_eq]
  split_ifs with hroom
  · exact hoffice.appendOwn hroom _ _
  · exact hoffice

theorem applyCommitted : Grows r r₁.applyCommitted.1 := by
  rw [applyCommitted_fst]
  exact h.congr rfl rfl

theorem advanceCommit : Grows r r₁.advanceCommit.1 := by
  refine h.trans ?_
  rw [advanceCommit_fst]
  rcases r₁.newCommit_cases with heq | ⟨hlt, hle, _⟩
  · exact of_eq heq rfl
  · exact ⟨hlt.le, hle.trans (le_max_right _ _), le_rfl, le_max_left _ _⟩

theorem startElection : Grows r r₁.startElection.1 := by
  have hstood : Grows r r₁.stood := h.congr rfl rfl
  rw [startElection_eq]
  split_ifs
  · exact h.congr rfl rfl
  · apply becomeLeader
    exact hstood.congr rfl rfl
  · exact hstood.congr rfl rfl

end
end Grows

theorem Outcome.grows (h : r.Outcome e out) (hno : ∀ src dst term leaderId prev prevTerm es lc,
      e ≠ .deliver ⟨src, dst, .append term leaderId prev prevTerm es lc⟩) : Grows r out.1 := by
  have hlook : ∀ term, Grows r (r.observed term) := fun term =>
    r.observed_cases term (Grows.becomeFollower r _ _) (Grows.refl r)
  have hcounting : ∀ src voteGranted, Grows r (r.counting src voteGranted) :=
    fun src voteGranted => by cases voteGranted <;> exact Grows.of_eq rfl rfl
  have htimers : ∀ nowMs, Grows r (r.advanceTimers nowMs) := fun _ => Grows.of_eq rfl rfl
  cases h with
  | answered | ignored | declined => exact Grows.refl r
  | refused => exact hlook _
  | granted => exact (hlook _).congr rfl rfl
  | outdated => exact (hcounting _ _).trans (Grows.becomeFollower _ _ _)
  | counted => exact hcounting _ _
  | won | quiet => exact Grows.of_eq rfl rfl
  | elected =>
    apply Grows.becomeLeader
    exact Grows.of_eq rfl rfl
  | overdue | missed | taken => exact absurd rfl (hno _ _ _ _ _ _ _ _)
  | overtaken => exact Grows.becomeFollower r _ _
  | acked =>
    apply Grows.advanceCommit
    exact Grows.of_eq rfl rfl
  | backed _ _ _ hr' | beat _ hr' => exact hr' ▸ Grows.of_eq rfl rfl
  | proposed _ _ hroom => exact ((Grows.refl r).appendOwn hroom _ _).advanceCommit
  | started => exact (htimers _).startElection.applyCommitted
  | waited => exact (htimers _).applyCommitted

def HandsOut (log : List RaftEntry) (effects : List RaftEffect) : Prop :=
  ∀ e, RaftEffect.apply e ∈ effects → e ∈ log

namespace HandsOut
variable {log : List RaftEntry} {xs ys : List RaftEffect} {r : Raft}

theorem nil : HandsOut log [] := fun _ h => absurd h not_mem_nil

theorem append (hx : HandsOut log xs) (hy : HandsOut log ys) : HandsOut log (xs ++ ys) :=
  fun e he => (mem_append.mp he).elim (hx e) (hy e)

theorem send (dest : RaftNodeId) (msg : RaftMsg) : HandsOut log [.send dest msg] := fun e he => by
  cases mem_singleton.mp he

theorem broadcastVote (preVote term : ℕ) : HandsOut log (r.broadcastVote preVote term) :=
  fun e he => by
    obtain ⟨m, _, heq⟩ := mem_map.mp he
    cases heq

theorem broadcastAppend : HandsOut log r.broadcastAppend := fun e he => by
  obtain ⟨m, _, heq⟩ := mem_map.mp he
  rw [sendAppend_eq] at heq
  cases heq

theorem applyLoop (n : ℕ) : HandsOut r.log (applyLoop n r).2 := by
  induction n generalizing r with
  | zero => exact nil
  | succ n ih =>
    refine append (fun e he => ?_) (ih (r := { r with lastApplied := r.lastApplied + 1 }))
    split at he
    · rename_i entry hentry
      split_ifs at he
      · cases mem_singleton.mp he
        exact mem_of_getElem? hentry
      · exact absurd he not_mem_nil
    · exact absurd he not_mem_nil

theorem applyCommitted : HandsOut r.applyCommitted.1.log r.applyCommitted.2 := by
  rw [applyCommitted_fst]
  exact applyLoop _

theorem advanceCommit : HandsOut r.advanceCommit.1.log r.advanceCommit.2 := applyCommitted

theorem startElection : HandsOut log r.startElection.2 := by
  rw [startElection_eq]
  split_ifs
  · exact nil
  · exact broadcastAppend
  · exact broadcastVote _ _

end HandsOut

theorem Outcome.handsOut (h : r.Outcome e out) : HandsOut out.1.log out.2 := by
  cases h with
  | answered | refused | granted | overdue | missed => exact .send _ _
  | outdated | counted | overtaken | ignored | declined | quiet => exact .nil
  | won => exact .broadcastVote _ _
  | elected | beat => exact .broadcastAppend
  | taken =>
    refine .append ?_ (.send _ _)
    unfold takeCommit
    split_ifs
    · exact .applyCommitted
    · exact .nil
  | acked => exact .advanceCommit
  | backed =>
    rw [sendAppend_eq]
    exact .send _ _
  | proposed => exact HandsOut.broadcastAppend.append .advanceCommit
  | started => exact HandsOut.startElection.append .applyCommitted
  | waited => exact .applyCommitted

/-- Applied, committed, logged, and room in the array. -/
structure IndexBounds (r : Raft) : Prop where
  applied : r.lastApplied ≤ r.commitIndex
  commit : r.commitIndex ≤ r.log.length
  log : r.log.length ≤ raftMaxLog

/-- The call leaves the indices in their bounds, lowers none of them, and hands out entries of the
log only. -/
structure Orderly (r : Raft) (c : RaftCall) : Prop where
  bounds : (r.serve c).1.IndexBounds
  commit : r.commitIndex ≤ (r.serve c).1.commitIndex
  applied : r.lastApplied ≤ (r.serve c).1.lastApplied
  handed : HandsOut (r.call c).1.log (r.call c).2

/-- The append cuts off nothing that is committed. -/
def SparesCommitted (r : Raft) : RaftCall → Prop
  | .recv _ (.append term _ prevLogIndex prevLogTerm entries _) =>
    r.currentTerm ≤ term → prevLogIndex ≤ r.log.length → termAt r.log prevLogIndex = prevLogTerm →
      Conflicts r.log prevLogIndex entries → r.commitIndex ≤ prevLogIndex + entries.length
  | _ => True

instance (r : Raft) (c : RaftCall) : Decidable (r.SparesCommitted c) := by
  unfold SparesCommitted
  split <;> infer_instance

instance (r : Raft) : Decidable r.IndexBounds :=
  decidable_of_iff (r.lastApplied ≤ r.commitIndex ∧ r.commitIndex ≤ r.log.length ∧
    r.log.length ≤ raftMaxLog) ⟨fun h => ⟨h.1, h.2.1, h.2.2⟩, fun h => ⟨h.1, h.2, h.3⟩⟩

theorem indexBounds_raftNew {self : RaftNodeId} {cfg : Option RaftConfig}
    (h : raftNew self cfg = some r) : r.IndexBounds := by
  unfold raftNew at h
  split_ifs at h
  cases h
  exact ⟨le_rfl, le_rfl, Nat.zero_le _⟩

theorem indexBounds_wrap : r.wrap.IndexBounds ↔ r.IndexBounds := by
  have hlen : r.wrap.log.length = r.log.length := length_map _
  refine ⟨fun h => ⟨h.applied, ?_, ?_⟩, fun h => ⟨h.applied, ?_, ?_⟩⟩
  · exact hlen ▸ h.commit
  · exact hlen ▸ h.log
  · exact hlen ▸ h.commit
  · exact hlen ▸ h.log

section
variable {r : Raft} (h : r.IndexBounds)
include h
variable {c : RaftCall}

theorem IndexBounds.orderly (hgrows : Grows r (r.call c).1) (hprogress : Progress r (r.call c).1)
    (hhanded : HandsOut (r.call c).1.log (r.call c).2) : r.Orderly c := by
  have := h.applied
  have := h.commit
  have := h.log
  have := hgrows.commit
  have := hgrows.reach
  have := hgrows.log
  have := hgrows.room
  have := hprogress.applied_le
  refine ⟨indexBounds_wrap.mpr ⟨?_, ?_, ?_⟩, hgrows.commit, hprogress.applied_mono, hhanded⟩ <;>
    omega

theorem IndexBounds.orderly_of_editsTable (hc : c.EditsTable) : r.Orderly c := by
  obtain ⟨ms, heq⟩ := r.call_of_editsTable hc
  have hfst : (r.call c).1 = { r with members := ms } := congrArg Prod.fst heq
  refine ⟨indexBounds_wrap.mpr ?_, ?_, ?_, ?_⟩
  · rw [hfst]
    exact ⟨h.applied, h.commit, h.log⟩
  · exact (congrArg Raft.commitIndex hfst).ge
  · exact (congrArg Raft.lastApplied hfst).ge
  · rw [heq]
    exact HandsOut.nil

theorem IndexBounds.commit_le_iff (hprev : prev ≤ r.log.length) (es : List RaftEntry) :
    r.commitIndex ≤ (writeEntries r.log (prev + 1) es).length ↔
      (Conflicts r.log prev es → r.commitIndex ≤ prev + es.length) := by
  have := h.commit
  have := h.log
  by_cases hc : Conflicts r.log prev es
  · rw [length_writeEntries_of_conflicts h.log hc, forall_prop_of_true hc]
    omega
  · rw [length_writeEntries_of_not_conflicts h.log (.inl hprev) hc]
    refine iff_of_true ?_ fun hyes => absurd hyes hc
    omega

theorem IndexBounds.length_writeEntries_le (hprev : prev ≤ r.log.length) (es : List RaftEntry) :
    (writeEntries r.log (prev + 1) es).length ≤ raftMaxLog := by
  have := h.log
  by_cases hc : Conflicts r.log prev es
  · rw [length_writeEntries_of_conflicts h.log hc]
    exact min_le_right _ _
  · rw [length_writeEntries_of_not_conflicts h.log (.inl hprev) hc]
    omega

theorem IndexBounds.handleAppend (hterm : r.currentTerm ≤ term) (hprev : prev ≤ r.log.length)
    (hmatch : termAt r.log prev = prevTerm) (leaderId : RaftNodeId) {es : List RaftEntry}
    (hle : r.commitIndex ≤ (writeEntries r.log (prev + 1) es).length) (lc : ℕ) :
    (r.handleAppend term leaderId prev prevTerm es lc).1.IndexBounds ∧
      r.commitIndex ≤ (r.handleAppend term leaderId prev prevTerm es lc).1.commitIndex := by
  obtain ⟨hlog, hcommit⟩ := r.handleAppend_of_accepted hterm hprev hmatch leaderId es lc
  have hroom := h.length_writeEntries_le hprev es
  have happlied := (r.outcome_append 0 0 term leaderId prev prevTerm es lc).progress.applied_le
  have := h.applied
  have hraise : r.commitIndex ≤
      (r.handleAppend term leaderId prev prevTerm es lc).1.commitIndex := by
    rw [hcommit]
    split_ifs <;> omega
  refine ⟨⟨?_, ?_, ?_⟩, hraise⟩
  · omega
  · rw [hcommit, hlog]
    split_ifs <;> omega
  · rw [hlog]
    exact hroom

theorem IndexBounds.orderly_append_iff (src : RaftNodeId) (term : ℕ) (leaderId : RaftNodeId)
    (prev prevTerm : ℕ) (es : List RaftEntry) (lc : ℕ) :
    r.Orderly (.recv src (.append term leaderId prev prevTerm es lc)) ↔
      r.SparesCommitted (.recv src (.append term leaderId prev prevTerm es lc)) := by
  have hout := r.outcome_append src 0 term leaderId prev prevTerm es lc
  by_cases haccept : r.currentTerm ≤ term ∧ prev ≤ r.log.length ∧ termAt r.log prev = prevTerm
  swap
  · obtain ⟨hlog, hcommit⟩ := handleAppend_of_refused haccept leaderId es lc
    refine iff_of_true (h.orderly ?_ hout.progress hout.handsOut) fun hterm hprev hmatch => ?_
    · exact Grows.of_eq hcommit hlog
    · exact absurd ⟨hterm, hprev, hmatch⟩ haccept
  obtain ⟨hterm, hprev, hmatch⟩ := haccept
  have hspares : r.SparesCommitted (.recv src (.append term leaderId prev prevTerm es lc)) ↔
      r.commitIndex ≤ (writeEntries r.log (prev + 1) es).length := by
    rw [h.commit_le_iff hprev]
    exact ⟨fun hs => hs hterm hprev hmatch, fun hs _ _ _ => hs⟩
  rw [hspares]
  constructor
  · intro ho
    have hlen := (indexBounds_wrap.mp ho.bounds).commit
    have hlog := (r.handleAppend_of_accepted hterm hprev hmatch leaderId es lc).1
    exact ho.commit.trans (hlog ▸ hlen)
  · intro hle
    obtain ⟨hbounds, hraise⟩ := h.handleAppend hterm hprev hmatch leaderId hle lc
    exact ⟨indexBounds_wrap.mpr hbounds, hraise, hout.progress.applied_mono, hout.handsOut⟩

theorem IndexBounds.orderly_iff (c : RaftCall) : r.Orderly c ↔ r.SparesCommitted c := by
  cases c with
  | addMember | removeMember | promote | setEligible =>
    exact iff_of_true (h.orderly_of_editsTable trivial) trivial
  | propose data =>
    have hout := r.outcome_propose 0 data
    exact iff_of_true (h.orderly (hout.grows nofun) hout.progress hout.handsOut) trivial
  | tick nowMs =>
    have hout := r.outcome_tick 0 nowMs
    exact iff_of_true (h.orderly (hout.grows nofun) hout.progress hout.handsOut) trivial
  | recv src msg =>
    have hout := r.outcome_call (.deliver ⟨src, 0, msg⟩)
    cases msg with
    | append term leaderId prev prevTerm es lc =>
      exact h.orderly_append_iff src term leaderId prev prevTerm es lc
    | requestVote | requestVoteResp | appendResp =>
      exact iff_of_true (h.orderly (hout.grows nofun) hout.progress hout.handsOut) trivial

end

/-- All calls are orderly exactly if they spare what is committed. -/
theorem orderly_iff_sparesCommitted {self : RaftNodeId} {cfg : Option RaftConfig} {r : Raft}
    (h : raftNew self cfg = some r) (calls : List RaftCall) :
    serve.Along Orderly r calls ↔ serve.Along SparesCommitted r calls :=
  Transducer.along_iff (I := IndexBounds) (fun hb => hb.orderly_iff _)
    (fun hb hs => ((hb.orderly_iff _).mpr hs).bounds) (indexBounds_raftNew h) calls

def cuttingMessages : List RaftMsg :=
  [.append 1 2 0 0 [⟨1, 1, .normal, []⟩, ⟨1, 2, .normal, []⟩] 2,
    .append 2 2 0 0 [⟨2, 1, .normal, []⟩] 0]

theorem cuttingMessages_not_orderly :
    (∀ msg ∈ cuttingMessages, decodeRaft msg.encode = some (some msg)) ∧
      ∃ r, raftNew 1 none = some r ∧
        ¬ serve.Along Orderly r (cuttingMessages.map fun msg => .recv 2 msg) := by
  refine ⟨by decide +kernel, _, rfl, fun h => ?_⟩
  have hbounds := h.2.1.bounds
  revert hbounds
  decide +kernel

theorem agreeing_orderly : ∃ r, raftNew 1 none = some r ∧
    serve.Along Orderly r [.recv 2 (.append 1 2 0 0 [⟨1, 1, .normal, []⟩] 1),
      .recv 2 (.append 1 2 1 1 [⟨1, 2, .normal, []⟩] 2)] := by
  obtain ⟨r, hr⟩ : ∃ r, raftNew 1 none = some r := ⟨_, rfl⟩
  refine ⟨r, hr, (orderly_iff_sparesCommitted hr _).mpr ?_⟩
  cases hr
  decide +kernel

end Raft
end Norn
