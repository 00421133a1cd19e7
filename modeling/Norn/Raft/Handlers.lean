import Norn.Raft.Leadership

/-!
# Elections and replication are simulated

The messages of the core, their responses and the election timeout as steps of the history.
-/

namespace Norn
open Replication List

section
open Bool
variable {spec : ClusterSpec} {ck : Checks} {a : History} {n src : RaftNodeId} {r : Raft}

theorem upToDate_of_logOk {X Y : List RaftEntry} (hlog : r.log = Y)
    (h : r.logOk X.length (lastTerm X) = true) : UpToDate RaftEntry.term X Y := by
  subst hlog
  unfold Raft.logOk at h
  split_ifs at h with hne
  · exact .inl (of_decide_eq_true h)
  · exact .inr ⟨not_not.mp hne, of_decide_eq_true h⟩

namespace Situation

theorem grant (h : Situation spec ck a n r) {L : List RaftEntry} (hsrc : src ≠ raftNoNode)
    (hcand : a.cand src r.currentTerm = some L) (hup : UpToDate RaftEntry.term L r.log)
    (hvote : r.votedFor = raftNoNode ∨ r.votedFor = src) :
    Quiet spec ck n a (a.grant n src) ∧
      Situation spec ck (a.grant n src) n { r with votedFor := src, electionElapsed := 0 } := by
  have hn := h.node
  have hv : a.vote n (a.term n) = none ∨ a.vote n (a.term n) = some src := by
    rw [hn.term, hn.vote]
    rcases hvote with h0 | h1
    · exact .inl (if_pos h0)
    · exact .inr (by rw [h1, if_neg hsrc])
  have hs : HSteps spec ck a (a.grant n src) := Relation.ReflTransGen.single
    (Step.grant hv (hn.term.symm ▸ hcand) (hn.log.symm ▸ hup))
  have hx : Extends a (a.grant n src) := Inv.extends_grant hv
  refine ⟨⟨hs, Local.grant n a src, rfl, rfl⟩, h.of_steps hs ?_ h.leads⟩
  exact
    { hn with
      vote := by simp [State.grant, hn.term, hsrc]
      cand := by
        intro hr hp
        obtain ⟨hvoted, hrest⟩ := hn.cand hr hp
        refine ⟨?_, hrest⟩
        rcases hvote with h0 | h1
        · exact absurd (hvoted.symm.trans h0) h.ne_noNode
        · exact h1.symm.trans hvoted
      flags := fun hv hr hp m hm hvoter hg => hx.vote (hn.flags hv hr hp m hm hvoter hg)
      matched := hn.matched
      commit := fun hck => ⟨(hn.commit hck).1, (hn.commit hck).2.mono hx le_rfl⟩ }

theorem requestVote_preamble (h : Situation spec ck a n r) (term preVote : ℕ) :
    ∃ a₁, Quiet spec ck n a a₁ ∧ Situation spec ck a₁ n
      (if preVote = 0 ∧ r.currentTerm < term then r.becomeFollower term raftNoNode else r) := by
  split_ifs with hc
  · exact h.becomeFollower _ (.inl hc.2)
  · exact ⟨a, Quiet.refl, h⟩

variable {term preVote : ℕ} {granted : Bool}

theorem simulates_requestVote (h : Situation spec ck a n r) (hsrc : src ≠ raftNoNode)
    {lastLogIndex lastLogTerm : ℕ} {candidateId : RaftNodeId} (hp : PacketOk spec ck a
      ⟨src, n, .requestVote term preVote candidateId lastLogIndex lastLogTerm⟩) :
    ∃ a', Simulates spec ck a n
      (r.handleRequestVote term preVote candidateId lastLogIndex lastLogTerm).1
      (r.handleRequestVote term preVote candidateId lastLogIndex lastLogTerm).2 a' := by
  obtain ⟨a₁, hq, h₁⟩ := h.requestVote_preamble term preVote
  have hterm : preVote = 0 → term ≤ (if preVote = 0 ∧ r.currentTerm < term then
      r.becomeFollower term raftNoNode else r).currentTerm := by
    intro h0
    split_ifs with hc
    · rw [Raft.becomeFollower_eq]
      exact le_max_right _ _
    · exact not_lt.mp fun hlt => hc ⟨h0, hlt⟩
  obtain ⟨rfl, hcand⟩ : candidateId = src ∧ _ := hp
  simp only [Raft.handleRequestVote]
  generalize (if preVote = 0 ∧ r.currentTerm < term then r.becomeFollower term raftNoNode else r)
    = r₁ at h₁ hterm
  split_ifs with hpre hgrant
  · refine ⟨a₁, hq.simulates h₁ fun hm => ?_⟩
    cases mem_singleton.mp hm
    exact fun h0 => absurd h0 hpre
  · have hpre : preVote = 0 := not_not.mp hpre
    simp only [and_eq_true, decide_eq_true_eq] at hgrant
    obtain ⟨⟨hle, hcan⟩, hup⟩ := hgrant
    obtain ⟨L, hL, rfl, rfl⟩ := hcand hpre
    have heq : r₁.currentTerm = term := le_antisymm hle (hterm hpre)
    have hL₁ := (h.inv.steps hq.steps).2.cand hL
    obtain ⟨hq₂, h₂⟩ := h₁.grant hsrc (heq ▸ hL₁) (upToDate_of_logOk rfl hup) hcan
    refine ⟨_, hq.then (hq₂.simulates h₂ fun hm => ?_)⟩
    cases mem_singleton.mp hm
    intro _ _
    simp [State.grant, h₁.node.term]
  · refine ⟨a₁, hq.simulates h₁ fun hm => ?_⟩
    cases mem_singleton.mp hm
    intro _ hg
    exact absurd hg hgrant

theorem setFlag (h : Situation spec ck a n r) (src : RaftNodeId)
    (hvote : ck.votes → r.role = .candidate → r.inPreVote = 0 → ∀ m ∈ r.members, m.id = src →
      m.role = .voter → m.voteGranted = false → a.vote src r.currentTerm = some n) :
    Situation spec ck a n (r.updateMember src fun m => { m with voteGranted := true }) := by
  have hn := h.node
  refine h.withMembers (r.updateMember_specs fun _ => rfl) ?_ ?_
  · intro hv hr hp m' hm' hvoter hg
    obtain ⟨m, hm, rfl⟩ := r.mem_updateMember.mp hm'
    split_ifs at hvoter hg ⊢ with hid
    · rcases eq_false_or_eq_true m.voteGranted with htrue | hfalse
      · exact hn.flags hv hr hp m hm hvoter htrue
      · exact hid ▸ hvote hv hr hp m hm hid hvoter hfalse
    · exact hn.flags hv hr hp m hm hvoter hg
  · intro ha hr m' hm' hne
    obtain ⟨m, hm, rfl⟩ := r.mem_updateMember.mp hm'
    split_ifs at hne ⊢ with hid <;> exact hn.matched ha hr m hm hne

theorem broadcastVote_ok {a' : History} (h : Situation spec ck a' n r)
    (hcand : preVote = 0 → a'.cand n term = some r.log) {d : RaftNodeId} {m : RaftMsg}
    (hm : RaftEffect.send d m ∈ r.broadcastVote preVote term) : PacketOk spec ck a' ⟨n, d, m⟩ := by
  obtain ⟨_, rfl⟩ := r.mem_broadcastVote hm
  exact ⟨h.node.self, fun h0 => ⟨r.log, hcand h0, rfl, rfl⟩⟩

theorem simulates_standing (h : Situation spec ck a n r) (hr : r.role = .candidate)
    {r' : Raft} (hr' : r' = { r with
      inPreVote := 0, currentTerm := r.currentTerm + 1, votedFor := r.self, electionElapsed := 0,
      members := r.selfVote.members }) :
    ∃ a', Simulates spec ck a n r' (r'.broadcastVote 0 r'.currentTerm) a' := by
  obtain ⟨hq, h'⟩ := h.stand r.selfVote_specs
    (fun m hm hg => h.node.self ▸ r.id_of_mem_selfVote hm hg)
  have h'' : Situation spec ck (a.stand n (r.currentTerm + 1)) n r' := by
    subst hr'
    exact h'.congr rfl rfl rfl h.node.self rfl hr rfl rfl
  refine ⟨_, hq.simulates h'' fun hm => h''.broadcastVote_ok (fun _ => ?_) hm⟩
  subst hr'
  exact (h'.node.cand rfl rfl).2.2

theorem becomeFollower_updateMember (r : Raft) (id : RaftNodeId) (f : RaftMember → RaftMember)
    (T : ℕ) (ldr : RaftNodeId) :
    (r.updateMember id f).becomeFollower T ldr = (r.becomeFollower T ldr).updateMember id f := by
  simp only [Raft.becomeFollower_eq, Raft.updateMember]

theorem simulates_countVotes (h : Situation spec ck a n r)
    (hterm : ¬ (preVote = 0 ∧ r.currentTerm < term))
    (hone : ck.votes ∨ ((r.handleRequestVoteResp term preVote granted).1.role = .leader →
      ∀ c L, a.lead (r.handleRequestVoteResp term preVote granted).1.currentTerm = some (c, L) →
        c = n)) : ∃ a', Simulates spec ck a n (r.handleRequestVoteResp term preVote granted).1
      (r.handleRequestVoteResp term preVote granted).2 a' := by
  unfold Raft.handleRequestVoteResp at hone ⊢
  rw [if_neg hterm] at hone ⊢
  split_ifs at hone ⊢ with hrole hround hgranted hquorum hpre
  · exact ⟨a, Quiet.refl.simulates h (by simp)⟩
  · exact ⟨a, Quiet.refl.simulates h (by simp)⟩
  · exact ⟨a, Quiet.refl.simulates h (by simp)⟩
  · exact ⟨a, Quiet.refl.simulates h (by simp)⟩
  · exact h.simulates_standing (not_not.mp hrole) rfl
  · rw [Raft.becomeLeader_currentTerm] at hone
    exact h.simulates_becomeLeader (not_not.mp hrole) (not_not.mp hpre) (by omega)
      (hone.imp id fun hone => hone r.becomeLeader_role)

theorem simulates_requestVoteResp (h : Situation spec ck a n r)
    (hp : PacketOk spec ck a ⟨src, n, .requestVoteResp term preVote granted⟩)
    (hmet : ck.Met r src (.requestVoteResp term preVote granted))
    (hone : ck.votes ∨ ((r.raftRecv src (.requestVoteResp term preVote granted)).1.role = .leader →
      ∀ c L, a.lead (r.raftRecv src (.requestVoteResp term preVote granted)).1.currentTerm =
        some (c, L) → c = n)) :
    ∃ a', Simulates spec ck a n (r.raftRecv src (.requestVoteResp term preVote granted)).1
      (r.raftRecv src (.requestVoteResp term preVote granted)).2 a' := by
  cases granted with
  | false =>
    by_cases hterm : preVote = 0 ∧ r.currentTerm < term
    · obtain ⟨a₁, hq, h₁⟩ := h.becomeFollower raftNoNode (.inl hterm.2)
      simp only [Raft.raftRecv, Raft.handleRequestVoteResp, false_eq_true, if_false,
        if_pos hterm]
      exact ⟨a₁, hq.simulates h₁ (by simp)⟩
    · exact h.simulates_countVotes hterm hone
  | true =>
    by_cases hterm : preVote = 0 ∧ r.currentTerm < term
    · obtain ⟨a₁, hq, h₁⟩ := h.becomeFollower raftNoNode (.inl hterm.2)
      have h₂ := h₁.setFlag src fun _ hr => by simp [Raft.becomeFollower_eq] at hr
      rw [← becomeFollower_updateMember] at h₂
      refine ⟨a₁, ?_⟩
      have heq : r.raftRecv src (.requestVoteResp term preVote true) =
          ((r.updateMember src fun m => { m with voteGranted := true }).becomeFollower term
            raftNoNode, []) := if_pos hterm
      rw [heq]
      exact hq.simulates h₂ (by simp)
    · refine (h.setFlag src ?_).simulates_countVotes hterm hone
      intro hv hr hround m hm hid hvoter hflag
      obtain ⟨hpre, hle⟩ := hmet.1 hv hr hround ⟨m, hm, hid, hvoter, hflag⟩
      have heq : r.currentTerm = term := le_antisymm hle (not_lt.mp fun hlt => hterm ⟨hpre, hlt⟩)
      rw [heq]
      exact hp hpre rfl

def campaign (r : Raft) : Raft :=
  ({ r with role := .candidate, leader := raftNoNode, electionElapsed := 0 } : Raft).selfVote

theorem grants_campaign (r : Raft) (hself : r.selfIsEligibleVoter = true) :
    1 ≤ (campaign r).grants := by
  simp only [Raft.selfIsEligibleVoter, Option.any_eq_true, and_eq_true,
    decide_eq_true_eq] at hself
  obtain ⟨m, hm, hvoter, _⟩ := hself
  obtain ⟨hm, hid⟩ := r.mem_of_findMember hm
  refine countP_pos_iff.mpr ⟨{ m with voteGranted := true }, ?_, by simp [hvoter]⟩
  refine (Raft.mem_updateMember _).mpr
    ⟨{ m with voteGranted := false }, mem_map_of_mem hm, ?_⟩
  exact (if_pos hid).symm

theorem simulates_startElection (h : Situation spec ck a n r) (hr : r.role ≠ .leader)
    (hone : ck.votes ∨ (r.startElection.1.role = .leader →
      ∀ c L, a.lead r.startElection.1.currentTerm = some (c, L) → c = n)) :
    ∃ a', Simulates spec ck a n r.startElection.1 r.startElection.2 a' := by
  have hn := h.node
  have hspecs : (campaign r).members.map RaftMember.toSpec = r.members.map RaftMember.toSpec :=
    r.selfVote_specs
  have hstart : r.startElection = if r.selfIsEligibleVoter = false then
        ({ r with electionElapsed := 0 }, [])
      else if (campaign r).countVoters = 1 then
        Raft.becomeLeader { campaign r with
          inPreVote := 0, currentTerm := r.currentTerm + 1, votedFor := r.self }
      else ({ campaign r with inPreVote := 1 },
        Raft.broadcastVote { campaign r with inPreVote := 1 } 1 (r.currentTerm + 1)) := rfl
  rw [hstart] at hone ⊢
  split_ifs at hone ⊢ with hself hsole
  · exact ⟨a, Quiet.refl.simulates (h.congr rfl rfl rfl rfl rfl rfl rfl rfl) (by simp)⟩
  · -- the only voter: it stands for the next term and wins it at once
    obtain ⟨hq, h₁⟩ := h.stand hspecs fun m hm hg => hn.self ▸ Raft.id_of_mem_selfVote _ hm hg
    have h₂ : Situation spec ck (a.stand n (r.currentTerm + 1)) n { campaign r with
        inPreVote := 0, currentTerm := r.currentTerm + 1, votedFor := r.self } :=
      h₁.congr rfl rfl rfl hn.self rfl rfl rfl rfl
    have hwin : 1 ≤ (campaign r).grants := grants_campaign r (by simpa using hself)
    rw [Raft.becomeLeader_currentTerm] at hone
    obtain ⟨a', hsim⟩ := h₂.simulates_becomeLeader rfl rfl
      (by rw [Raft.quorum]; show (campaign r).countVoters / 2 + 1 ≤ (campaign r).grants; omega)
      (hone.imp id fun hone => hone (Raft.becomeLeader_role _))
    exact ⟨a', hq.then hsim⟩
  · have h₁ : Situation spec ck a n { campaign r with inPreVote := 1 } :=
      { h with
        node := { hn with
          specs := hspecs ▸ hn.specs
          lead := ⟨fun hc => by simp [campaign, Raft.selfVote, Raft.updateMember,
            Raft.resetVotes] at hc, fun ⟨L, hl⟩ => absurd hl (h.not_lead hr L)⟩
          cand := fun _ h1 => by simp at h1
          flags := fun _ _ h1 => by simp at h1
          matched := fun _ hc => by
            simp [campaign, Raft.selfVote, Raft.updateMember, Raft.resetVotes] at hc } }
    exact ⟨a, Quiet.refl.simulates h₁ fun hm => h₁.broadcastVote_ok (fun h0 => by simp at h0) hm⟩

theorem simulates_afterTimers (h : Situation spec ck a n r)
    (hone : ck.votes ∨ (r.afterTimers.1.role = .leader →
      ∀ c L, a.lead r.afterTimers.1.currentTerm = some (c, L) → c = n)) :
    ∃ a', Simulates spec ck a n r.afterTimers.1 r.afterTimers.2 a' := by
  simp only [Raft.afterTimers] at hone ⊢
  split_ifs at hone ⊢ with hlead hbeat htimeout
  · have h₁ : Situation spec ck a n { r with electionElapsed := 0, heartbeatElapsed := 0 } :=
      h.congr rfl rfl rfl rfl rfl rfl rfl rfl
    exact ⟨a, Quiet.refl.simulates h₁ fun hm => h₁.broadcastAppend_ok hlead hm⟩
  · exact ⟨a, Quiet.refl.simulates (h.congr rfl rfl rfl rfl rfl rfl rfl rfl) (by simp)⟩
  · rw [Raft.applyCommitted_fst] at hone ⊢
    obtain ⟨a', hsim⟩ := h.simulates_startElection hlead hone
    refine ⟨a', hsim.adjust (hsim.node.congr rfl rfl rfl rfl rfl rfl rfl rfl) rfl rfl rfl
      fun hm => hsim.packets ?_⟩
    exact (mem_append.mp hm).resolve_right (Raft.applyCommitted_no_send _)
  · rw [Raft.applyCommitted_fst] at hone ⊢
    refine ⟨a, Quiet.refl.simulates (h.congr rfl rfl rfl rfl rfl rfl rfl rfl) fun hm => ?_⟩
    exact absurd hm (Raft.applyCommitted_no_send _)

theorem simulates_tick (h : Situation spec ck a n r) (nowMs : ℕ)
    (hone : ck.votes ∨ ((r.raftTick nowMs).1.role = .leader →
      ∀ c L, a.lead (r.raftTick nowMs).1.currentTerm = some (c, L) → c = n)) :
    ∃ a', Simulates spec ck a n (r.raftTick nowMs).1 (r.raftTick nowMs).2 a' := by
  rw [Raft.raftTick_eq] at hone ⊢
  have h₁ : Situation spec ck a n (r.advanceTimers nowMs) :=
    h.congr rfl rfl rfl rfl rfl rfl rfl rfl
  exact h₁.simulates_afterTimers hone

end Situation
end

variable {X L es : List RaftEntry} {i : ℕ}

theorem take_eq_of_termAt {a : History} {T T' : ℕ} {Y : List RaftEntry}
    (hX : WellFormed RaftEntry.term a T X) (hY : WellFormed RaftEntry.term a T' Y)
    (hiX : i < X.length) (hiY : i < Y.length) (ht : termAt X (i + 1) = termAt Y (i + 1)) :
    X.take (i + 1) = Y.take (i + 1) := by
  rw [termAt_succ, termAt_succ, getElem?_eq_getElem hiX, getElem?_eq_getElem hiY] at ht
  rw [← take_append_getElem hiX, ← take_append_getElem hiY]
  refine hX.cuts_eq hY ?_ ?_ (by simp; omega) ht
  · rw [take_append_getElem hiX]
    exact take_prefix _ _
  · rw [take_append_getElem hiY]
    exact take_prefix _ _

theorem commit_le_of_covered {X' : List RaftEntry} {j lc : ℕ} (hes : (L.drop j).take es.length = es)
    (hj : j + es.length ≤ L.length) (ha : Adopts RaftEntry.term X L (j + es.length) X')
    (hcov : j + es.length < X.length → ¬ Raft.Conflicts X j es → lc ≤ j + es.length) :
    min lc X'.length ≤ j + es.length := by
  rcases ha with ⟨rfl, hpre⟩ | ⟨rfl, _⟩
  · rcases Nat.lt_or_ge (j + es.length) X'.length with hlt | hge
    · refine (min_le_left _ _).trans (hcov hlt fun ⟨i, hi, _, hne⟩ => hne ?_)
      rw [termAt_eq_of_take (take_of_take_isPrefix hpre hj le_rfl) (by omega), termAt_succ,
        termAt_succ, ← hes, getElem?_take_of_lt (by simpa [hes] using hi), getElem?_drop]
    · exact (min_le_right _ _).trans hge
  · exact (min_le_right _ _).trans (by simp)

theorem LogOk.of_isPrefix {Y : List RaftEntry} (h : LogOk Y) (hX : X <+: Y) : LogOk X where
  length := hX.length_le.trans h.length
  index i e he := h.index i e (getElem?_of_isPrefix hX he)

section
variable {spec : ClusterSpec} {ck : Checks} {a : History} {n src : RaftNodeId} {r : Raft}
namespace Situation

theorem termAt_pos (h : Situation spec ck a n r) (hpos : i ≠ 0) (hi : i ≤ r.log.length) :
    0 < termAt r.log i := by
  obtain ⟨j, rfl⟩ := Nat.exists_eq_succ_of_ne_zero hpos
  rw [Nat.succ_eq_add_one, termAt_succ, getElem?_eq_getElem hi]
  have hwf := h.inv.log_ok n
  rw [h.node.log] at hwf
  obtain ⟨c, L, hl, _⟩ := hwf.chained (r.log.take j) r.log[j]
    (by rw [take_append_getElem]; exact take_prefix _ _)
  exact h.inv.lead_pos hl

variable {c leaderId : RaftNodeId} {k term : ℕ}

theorem append_slice (h : Situation spec ck a n r) {prev prevTerm : ℕ}
    (hl : a.lead r.currentTerm = some (c, L))
    (hmsg : (prev ≠ 0 ∧ prevTerm = 0 ∧ es = []) ∨ (prev + es.length ≤ L.length ∧
      (L.drop prev).take es.length = es ∧ prevTerm = termAt L prev)) (hlen : prev ≤ r.log.length)
    (hterm : termAt r.log prev = prevTerm) :
    prev + es.length ≤ L.length ∧ (L.drop prev).take es.length = es ∧
      Adopts RaftEntry.term r.log L (prev + es.length) (Raft.writeEntries r.log (prev + 1) es) := by
  rcases hmsg with ⟨hne, h0, _⟩ | ⟨hle, hes, hpt⟩
  · have := h.termAt_pos hne hlen
    omega
  · have hX := h.inv.log_ok n
    rw [h.node.log] at hX
    have hY := h.inv.lead_ok hl
    obtain ⟨_, hok⟩ := h.leads _ _ _ hl
    have hpre : r.log.take prev = L.take prev := by
      cases prev with
      | zero => simp
      | succ i => exact take_eq_of_termAt hX hY (by omega) (by omega) (hterm.trans hpt)
    exact ⟨hle, hes, writeEntries_adopts hes hok.length hok.index hle hlen hpre
      fun i hiX hiL ht => take_eq_of_termAt hX hY hiX hiL ht⟩

theorem commit_adopt (h : Situation spec ck a n r) (hl : a.lead r.currentTerm = some (c, L))
    (ha : Adopts RaftEntry.term r.log L k X) (hck : ck.All) :
    r.commitIndex ≤ X.length ∧ X.take r.commitIndex = r.log.take r.commitIndex := by
  obtain ⟨hc, hd⟩ := h.node.commit hck
  have hL := (h.complete hck.1).decided_isPrefix hd hl
  have hkeep := ha.keeps ⟨_, take_append_drop r.commitIndex r.log⟩ hL
  refine ⟨?_, take_of_take_isPrefix hkeep hc le_rfl⟩
  have := hkeep.length_le
  rwa [length_take, min_eq_left hc] at this

theorem adopt (h : Situation spec ck a n r) (hr : r.role = .follower)
    (hl : a.lead r.currentTerm = some (c, L)) (hne : c ≠ n) (hk : k ≤ L.length)
    (ha : Adopts RaftEntry.term r.log L k X) :
    Simulates spec ck a n { r with log := X } [] (a.adopt n k X) := by
  have hn := h.node
  have hs : HSteps spec ck a (a.adopt n k X) := Relation.ReflTransGen.single
    (Step.adopt (by rw [hn.term]; exact hl) hne hk (by rw [hn.log]; exact ha))
  have hx : Extends a (a.adopt n k X) := Inv.extends_adopt
  have hok : LogOk X := by
    rcases ha.eq_or_isPrefix with rfl | hpre
    · exact hn.logOk
    · exact (h.leads _ _ _ hl).2.of_isPrefix hpre
  refine ⟨hs, Local.adopt n a k X, ?_, by simp, h.leads, fun hl => .inl ⟨_, hl⟩, ?_⟩
  · exact
      { hn with
        log := by simp [State.adopt]
        cand := fun hc => by simp [hr] at hc
        flags := hn.flags
        matched := fun _ hc => by simp [hr] at hc
        logOk := hok
        commit := by
          intro hck
          obtain ⟨hle, htake⟩ := h.commit_adopt hl ha hck
          refine ⟨hle, ?_⟩
          simp only [htake]
          exact (hn.commit hck).2.mono hx le_rfl }
  · rintro f T m (hack | ⟨rfl, rfl, rfl⟩)
    · exact .inl hack
    · exact .inr ⟨rfl, hn.term.symm, c, L, by rw [hn.term]; exact hl, hk,
        take_of_take_isPrefix ha.holds hk le_rfl⟩

theorem takeCommit {a' : History} {r' : Raft} (h : NodeOk spec ck a' n r') {lc : ℕ}
    (hpre : L.take k <+: r'.log) (hk : k ≤ L.length)
    (hlc : ck.All → HDecided spec a' r'.currentTerm (L.take lc))
    (hcov : ck.All → r'.commitIndex < lc → min lc r'.log.length ≤ k) :
    NodeOk spec ck a' n (r'.takeCommit lc).1 := by
  unfold Raft.takeCommit
  split_ifs with hlt
  · rw [Raft.applyCommitted_fst]
    refine { h with commit := fun hck => ⟨min_le_right _ _, ?_⟩ }
    have htake := take_of_take_isPrefix hpre hk (hcov hck hlt)
    simp only [htake]
    exact (hlc hck).of_isPrefix (take_prefix_take_left (min_le_left _ _))
  · exact h

theorem takeCommit_frame (r' : Raft) (lc : ℕ) : (r'.takeCommit lc).1.role = r'.role ∧
    (r'.takeCommit lc).1.currentTerm = r'.currentTerm ∧ (r'.takeCommit lc).1.log = r'.log := by
  rw [Raft.takeCommit_fst]
  exact ⟨rfl, rfl, rfl⟩

section
variable (h : Situation spec ck a n r)
include h

theorem join (hle : r.currentTerm ≤ term) (hne : leaderId ≠ n)
    (hl : a.lead term = some (leaderId, L)) :
    ∃ a₁, Quiet spec ck n a a₁ ∧ Situation spec ck a₁ n (r.joined term leaderId) := by
  have hT : r.currentTerm < term ∨ r.role ≠ .leader := by
    rcases hle.lt_or_eq with hlt | rfl
    · exact .inl hlt
    · refine .inr fun hr => hne ?_
      have hlead := h.lead_log hr
      rw [hl] at hlead
      cases hlead
      rfl
  obtain ⟨a₁, hq, h₁⟩ := h.becomeFollower leaderId hT
  rw [Raft.becomeFollower_eq] at h₁
  exact ⟨a₁, hq, h₁.congr rfl rfl (max_eq_right hle).symm rfl rfl rfl rfl rfl⟩

theorem simulates_append {prev prevTerm lc : ℕ}
    (hp : PacketOk spec ck a ⟨src, n, .append term leaderId prev prevTerm es lc⟩)
    (hmet : ck.commits → r.CommitCovered src (.append term leaderId prev prevTerm es lc)) :
    ∃ a', Simulates spec ck a n (r.handleAppend term leaderId prev prevTerm es lc).1
      (r.handleAppend term leaderId prev prevTerm es lc).2 a' := by
  obtain ⟨rfl, hne, L, hl, hmsg, hdec⟩ : leaderId = src ∧ src ≠ n ∧ _ := hp
  rw [Raft.handleAppend_eq]
  split_ifs with hold hreject
  · refine ⟨a, Quiet.refl.simulates h fun hm => ?_⟩
    cases mem_singleton.mp hm
    exact ⟨hne.symm, fun hs => by simp at hs⟩
  · obtain ⟨a₁, hq, h₁⟩ := h.join (not_lt.mp hold) hne hl
    refine ⟨a₁, hq.simulates h₁ fun hm => ?_⟩
    cases mem_singleton.mp hm
    exact ⟨hne.symm, fun hs => by simp at hs⟩
  · obtain ⟨a₁, hq, h₁⟩ := h.join (not_lt.mp hold) hne hl
    simp only [not_or, not_lt, not_not] at hreject hold
    obtain ⟨hlen, hterm⟩ := hreject
    have hl₁ : a₁.lead term = some (leaderId, L) := hq.lead ▸ hl
    obtain ⟨hle, hes, hadopt⟩ := h₁.append_slice hl₁ hmsg hlen hterm
    have hsim := h₁.adopt rfl hl₁ hne hle hadopt
    have hx := (h.inv.steps (hq.then hsim).steps).2
    have hcov : ck.All → r.commitIndex < lc →
        min lc (Raft.writeEntries r.log (prev + 1) es).length ≤ prev + es.length :=
      fun hck hlt => commit_le_of_covered hes hle hadopt fun hshort hconf =>
        hmet hck.2.2 hold hlen hterm hlt hshort hconf
    have hnode := takeCommit hsim.node hadopt.holds hle
      (fun hck => (hdec hck).2.mono hx le_rfl) hcov
    obtain ⟨hr, hT, hlog⟩ := takeCommit_frame
      { r.joined term leaderId with log := Raft.writeEntries r.log (prev + 1) es } lc
    refine ⟨_, hq.then (hsim.adjust hnode hr hT hlog fun hm => ?_)⟩
    cases mem_singleton.mp ((mem_append.mp hm).resolve_left (Raft.takeCommit_no_send _))
    exact ⟨hne.symm, fun _ => .inr ⟨rfl, h₁.node.term.symm, rfl⟩⟩

theorem raiseMatch (hr : r.role = .leader) (src : RaftNodeId) (matched : ℕ)
    (hack : ck.acks → matched ≠ 0 → ∃ k, matched ≤ k ∧ a.acked src r.currentTerm k) :
    Situation spec ck a n
      (r.updateMember src fun m => { m with matchIndex := matched, nextIndex := matched + 1 }) := by
  refine h.withMembers (r.updateMember_specs fun _ => rfl) (fun _ hc => by simp [hr] at hc) ?_
  intro ha _ m' hm' hne
  obtain ⟨m, hm, rfl⟩ := r.mem_updateMember.mp hm'
  split_ifs at hne ⊢ with hid
  · exact hid ▸ hack ha hne
  · exact h.node.matched ha hr m hm hne

theorem backOff (hr : r.role = .leader) (src : RaftNodeId) (next : ℕ) :
    Situation spec ck a n (r.updateMember src fun m => { m with nextIndex := next }) := by
  refine h.withMembers (r.updateMember_specs fun _ => rfl) (fun _ hc => by simp [hr] at hc) ?_
  intro ha _ m' hm' hne
  obtain ⟨m, hm, rfl⟩ := r.mem_updateMember.mp hm'
  split_ifs at hne ⊢ <;> exact h.node.matched ha hr m hm hne

theorem simulates_appendResp {matchIndex : ℕ} {success : Bool}
    (hp : PacketOk spec ck a ⟨src, n, .appendResp term success matchIndex⟩)
    (hmet : ck.acks → r.AckFresh src (.appendResp term success matchIndex)) :
    ∃ a', Simulates spec ck a n (r.handleAppendResp src term success matchIndex).1
      (r.handleAppendResp src term success matchIndex).2 a' := by
  obtain ⟨hne, hack⟩ : src ≠ n ∧ (success = true → a.acked src term matchIndex) := hp
  have hout := r.outcome_appendResp src n term success matchIndex
  generalize r.handleAppendResp src term success matchIndex = out at hout ⊢
  cases hout with
  | overtaken hterm =>
    obtain ⟨a₁, hq, h₁⟩ := h.becomeFollower raftNoNode (.inl hterm)
    exact ⟨a₁, hq.simulates h₁ (by simp)⟩
  | ignored => exact ⟨a, Quiet.refl.simulates h (by simp)⟩
  | @acked _ _ _ _ matched hr hterm mm hfind hmatched =>
    obtain ⟨hmm, hid⟩ := r.mem_of_findMember hfind
    have h₁ := h.raiseMatch hr src matched fun ha hne => by
      rw [hmatched] at hne ⊢
      split_ifs at hne ⊢ with hraise
      · -- a raised match index: the response is one of the current term
        have hle := hmet ha hr ⟨mm, hmm, hid, hraise⟩
        have heq : term = r.currentTerm := le_antisymm hterm hle
        exact ⟨matchIndex, le_rfl, heq ▸ hack rfl⟩
      · exact hid ▸ h.node.matched ha hr mm hmm hne
    exact ⟨a, Quiet.refl.simulates (h₁.advanceCommit hr)
      fun hm => absurd hm (Raft.advanceCommit_no_send _)⟩
  | @backed _ _ _ _ _ _ hr mm hfind _ hr' =>
    obtain ⟨_, hid⟩ := r.mem_of_findMember hfind
    have h₁ := h.backOff hr src (mm.nextIndex - 1)
    subst hr'
    refine ⟨a, Quiet.refl.simulates h₁ fun hm => ?_⟩
    exact h₁.sendAppend_ok hr (by simpa [hid] using hne) (mem_singleton.mp hm)

end
end Situation
end

end Norn
