import Norn.Raft.Tracking

/-!
# What a leader does, as steps of the history

Taking office, appending an entry and raising the commit index.
-/

namespace Norn
open Replication Function
open List
section
variable {spec : ClusterSpec} {r : Raft}

def votersWith (r : Raft) (p : RaftMember → Bool) : Finset RaftNodeId :=
  ((r.members.filter fun m => m.role = .voter ∧ p m).map RaftMember.id).toFinset

variable {p : RaftMember → Bool}

theorem mem_votersWith {g : RaftNodeId} (h : g ∈ votersWith r p) :
    ∃ m ∈ r.members, m.id = g ∧ m.role = .voter ∧ p m = true := by
  simp only [votersWith, mem_toFinset, mem_map, mem_filter, decide_eq_true_eq] at h
  obtain ⟨m, ⟨hm, hv, hp⟩, rfl⟩ := h
  exact ⟨m, hm, rfl, hv, hp⟩

variable (hspecs : (r.members.map RaftMember.toSpec).Perm spec.members)
include hspecs

theorem nodup_ids : (r.members.map RaftMember.id).Nodup := by
  have h := (hspecs.map MemberSpec.id).nodup_iff.mpr spec.nodup
  rwa [map_map] at h

theorem countVoters_eq : r.countVoters = spec.voters.card := by
  have hsub : ((spec.members.filter fun m => m.role = .voter).map MemberSpec.id).Nodup :=
    spec.nodup.sublist (filter_sublist.map _)
  rw [ClusterSpec.voters, toFinset_card_of_nodup hsub, length_map,
    ← countP_eq_length_filter, ← hspecs.countP_eq, countP_map]
  rfl

theorem card_votersWith (p : RaftMember → Bool) :
    (votersWith r p).card = r.members.countP fun m => m.role = .voter ∧ p m := by
  have hsub : ((r.members.filter fun m => m.role = .voter ∧ p m).map RaftMember.id).Nodup :=
    (nodup_ids hspecs).sublist (filter_sublist.map _)
  rw [votersWith, toFinset_card_of_nodup hsub, length_map, countP_eq_length_filter]

theorem mem_voters {m : RaftMember} (hm : m ∈ r.members) (hv : m.role = .voter) :
    m.id ∈ spec.voters := by
  have hmem : m.toSpec ∈ spec.members := hspecs.mem_iff.mp (mem_map_of_mem hm)
  simp only [ClusterSpec.voters, mem_toFinset, mem_map, mem_filter,
    decide_eq_true_eq]
  exact ⟨m.toSpec, ⟨hmem, hv⟩, rfl⟩

theorem votersWith_subset (p : RaftMember → Bool) : votersWith r p ⊆ spec.voters := by
  intro g hg
  obtain ⟨m, hm, rfl, hv, _⟩ := mem_votersWith hg
  exact mem_voters hspecs hm hv

theorem isQuorum_votersWith (h : r.quorum ≤ r.members.countP fun m => m.role = .voter ∧ p m) :
    (quorums spec).IsQuorum (votersWith r p) := by
  refine ⟨votersWith_subset hspecs p, ?_⟩
  rwa [card_votersWith hspecs, ← countVoters_eq hspecs]

end

namespace Situation
variable {spec : ClusterSpec} {ck : Checks} {a : History} {n : RaftNodeId} {r : Raft}
variable {m : RaftMsg} {d : RaftNodeId} {X : List RaftEntry} {a' : History} {T : ℕ}

theorem sendAppend_ok (h : Situation spec ck a n r) (hr : r.role = .leader) {mm : RaftMember}
    (hne : mm.id ≠ n) (hm : RaftEffect.send d m = r.sendAppend mm) :
    PacketOk spec ck a ⟨n, d, m⟩ := by
  simp only [Raft.sendAppend_eq, RaftEffect.send.injEq] at hm
  obtain ⟨rfl, rfl⟩ := hm
  refine ⟨h.node.self, hne.symm, r.log, h.lead_log hr, ?_, h.node.commit⟩
  rcases Nat.lt_or_ge r.log.length (mm.nextIndex - 1) with hfar | hnear
  · refine .inl ⟨by omega, by rw [termAt, if_pos (.inr hfar)], ?_⟩
    rw [drop_eq_nil_of_le hfar.le, take_nil]
  · refine .inr ⟨?_, ?_, rfl⟩
    · simp only [length_take, length_drop]
      omega
    · rw [length_take, ← take_take, take_length]

theorem broadcastAppend_ok (h : Situation spec ck a n r) (hr : r.role = .leader)
    (hm : RaftEffect.send d m ∈ r.broadcastAppend) : PacketOk spec ck a ⟨n, d, m⟩ := by
  obtain ⟨mm, _, hne, heq⟩ := r.mem_broadcastAppend hm
  exact h.sendAppend_ok hr (h.node.self ▸ hne) heq

theorem logOk_append {e : RaftEntry} (hX : LogOk X) (hlen : X.length < raftMaxLog)
    (he : e.index = X.length + 1) : LogOk (X ++ [e]) where
  length := by simpa using hlen
  index i e' h := by
    rcases Nat.lt_or_ge i X.length with hi | hi
    · rw [getElem?_append_left hi] at h
      exact hX.index i e' h
    · have hi' : i = X.length := by
        have := (List.getElem?_eq_some_iff.mp h).1
        simp only [length_append, length_singleton] at this
        omega
      subst hi'
      simp only [getElem?_concat_length, Option.some.injEq] at h
      rw [← h, he]

theorem leadsOk_update (h : Situation spec ck a n r)
    (hlead : a'.lead = update a.lead T (some (n, X))) (hX : LogOk X) :
    LeadsOk spec a' := by
  intro T' c L hl
  rw [hlead] at hl
  rcases eq_or_ne T' T with rfl | hne
  · rw [update_self] at hl
    cases hl
    exact ⟨h.mem, hX⟩
  · rw [update_of_ne hne] at hl
    exact h.leads T' c L hl

theorem extend_lead (h : Situation spec ck a n r) (e : RaftEntry) :
    (a.extend n e).lead = update a.lead r.currentTerm (some (n, r.log ++ [e])) := by
  simp only [State.extend, h.node.term, h.node.log]

theorem elect_lead (h : Situation spec ck a n r) :
    (a.elect n).lead = update a.lead r.currentTerm (some (n, r.log)) := by
  simp only [State.elect, h.node.term, h.node.log]

def ownEntry (type : RaftEntryType) (data : List UInt8) (r : Raft) : RaftEntry :=
  ⟨r.currentTerm, r.log.length + 1, type, data⟩

section
variable (h : Situation spec ck a n r)
include h

theorem appendOwn (hr : r.role = .leader) (hlen : r.log.length < raftMaxLog) (type : RaftEntryType)
    (data : List UInt8) : HSteps spec ck a (a.extend n (ownEntry type data r)) ∧
      Situation spec ck (a.extend n (ownEntry type data r)) n (r.appendOwn type data) := by
  have hn := h.node
  have hl : a.lead (a.term n) = some (n, a.log n) := by rw [hn.term, hn.log]; exact h.lead_log hr
  have hs : HSteps spec ck a (a.extend n (ownEntry type data r)) :=
    Relation.ReflTransGen.single (Step.extend hl hn.term.symm)
  have hx : Extends a (a.extend n (ownEntry type data r)) := Inv.extends_extend hl
  have hok : LogOk (r.log ++ [ownEntry type data r]) := logOk_append hn.logOk hlen rfl
  have hlead := h.extend_lead (ownEntry type data r)
  refine ⟨hs, h.of_steps hs ?_ (h.leadsOk_update hlead hok)⟩
  exact
    { self := hn.self
      specs := by
        rw [Raft.appendOwn_eq, Raft.updateMember_specs]
        exacts [hn.specs, fun _ => rfl]
      term := hn.term
      log := by simp [State.extend, hn.log, ownEntry]
      lead := ⟨fun _ => ⟨_, by rw [hlead]; exact update_self _ _ _⟩, fun _ => hr⟩
      vote := hn.vote
      cand := fun hc => by simp [Raft.appendOwn, Raft.updateMember, hr] at hc
      flags := fun _ hc => by simp [Raft.appendOwn, Raft.updateMember, hr] at hc
      matched := by
        intro ha _ m' hm' hne
        obtain ⟨m, hm, rfl⟩ := r.mem_appendOwn.mp hm'
        split_ifs at hne ⊢ with hid
        · exact ⟨_, le_rfl, Or.inr ⟨hid.trans hn.self, hn.term.symm, by simp [hn.log]⟩⟩
        · obtain ⟨k, hk, hack⟩ := hn.matched ha hr m hm hne
          exact ⟨k, hk, Or.inl hack⟩
      logOk := hok
      commit := by
        intro hck
        obtain ⟨hc, hd⟩ := hn.commit hck
        refine ⟨hc.trans (by simp), ?_⟩
        rw [Raft.appendOwn_log]
        show HDecided spec _ r.currentTerm (List.take r.commitIndex _)
        rw [take_append_of_le_length hc]
        exact hd.mono hx le_rfl }

theorem elected (hr : r.role = .candidate) (hp : r.inPreVote = 0) (hwin : r.quorum ≤ r.grants) :
    MayLead spec ck a n := by
  intro hv
  obtain ⟨_, _, hcand⟩ := h.node.cand hr hp
  refine ⟨by rw [h.node.term, h.node.log]; exact hcand, votersWith r RaftMember.voteGranted,
    isQuorum_votersWith h.node.specs hwin, fun g hg => ?_⟩
  obtain ⟨m, hm, rfl, hvoter, hgranted⟩ := mem_votersWith hg
  rw [h.node.term]
  exact h.node.flags hv hr hp m hm hvoter hgranted

theorem lead_none (hr : r.role = .candidate) (hmay : MayLead spec ck a n)
    (hone : ck.votes ∨ ∀ c L, a.lead r.currentTerm = some (c, L) → c = n) :
    a.lead r.currentTerm = none := by
  cases hl : a.lead r.currentTerm with
  | none => rfl
  | some cL =>
    obtain ⟨c, L⟩ := cL
    have hc : c = n := by
      rcases hone with hv | hone
      · exact (h.complete hv).leader_eq_of_elected (hmay hv) (h.node.term ▸ hl)
      · exact hone c L hl
    subst hc
    exact absurd hl (h.not_lead (by simp [hr]) L)

theorem office (hr : r.role = .candidate) (hp : r.inPreVote = 0) (hwin : r.quorum ≤ r.grants)
    (hone : ck.votes ∨ ∀ c L, a.lead r.currentTerm = some (c, L) → c = n) :
    HSteps spec ck a (a.elect n) ∧ Situation spec ck (a.elect n) n r.office := by
  have hn := h.node
  obtain ⟨hvoted, hpos, _⟩ := hn.cand hr hp
  have hmay := h.elected hr hp hwin
  have hnone := h.lead_none hr hmay hone
  have hs : HSteps spec ck a (a.elect n) := Relation.ReflTransGen.single
    (Step.elect (hn.term.symm ▸ hpos) (hn.term.symm ▸ hnone) hmay)
  have hx : Extends a (a.elect n) := Inv.extends_elect (hn.term.symm ▸ hnone)
  have hlead := h.elect_lead
  refine ⟨hs, h.of_steps hs ?_ (h.leadsOk_update hlead hn.logOk)⟩
  exact
    { self := hn.self, term := hn.term, log := hn.log, vote := hn.vote, logOk := hn.logOk
      specs := by rw [Raft.office_specs]; exact hn.specs
      lead := ⟨fun _ => ⟨_, by rw [hlead]; exact update_self _ _ _⟩, fun _ => rfl⟩
      cand := fun hc => by simp [Raft.office] at hc
      flags := fun _ hc => by simp [Raft.office] at hc
      matched := by
        intro _ _ m hm hne
        obtain ⟨hid, hmatch⟩ := (r.mem_office hm).2.resolve_left hne
        exact ⟨_, le_rfl, Or.inr ⟨hid.trans hn.self, hn.term.symm, by rw [hmatch, hn.log]⟩⟩
      commit := fun hck => ⟨(hn.commit hck).1, (hn.commit hck).2.mono hx le_rfl⟩ }

theorem committed_newCommit (hr : r.role = .leader) (ha : ck.acks) (hlen : r.newCommit ≤ r.log.length)
    (hterm : termAt r.log r.newCommit = r.currentTerm) (hq : r.quorum ≤ r.replicatedOn r.newCommit)
    (hpos : 0 < r.newCommit) :
    Committed (quorums spec) RaftEntry.term a r.currentTerm (r.log.take r.newCommit) := by
  obtain ⟨i, hi⟩ : ∃ i, r.newCommit = i + 1 := ⟨r.newCommit - 1, by omega⟩
  rw [hi] at hlen hterm hq ⊢
  have hlt : i < r.log.length := hlen
  have hlead := h.lead_log hr
  refine ⟨r.log.take i, r.log[i], (take_append_getElem hlt).symm, ⟨?_, n, r.log, hlead, ?_⟩,
    votersWith r fun m => decide (i + 1 ≤ m.matchIndex), ?_, fun g hg => ?_⟩
  · rw [termAt_succ, getElem?_eq_getElem hlt] at hterm
    exact hterm
  · rw [take_append_getElem hlt]
    exact take_prefix _ _
  · refine isQuorum_votersWith h.node.specs ?_
    simpa only [Raft.replicatedOn, decide_eq_true_eq] using hq
  · obtain ⟨m, hm, rfl, _, hmatch⟩ := mem_votersWith hg
    have hmatch : i + 1 ≤ m.matchIndex := by simpa using hmatch
    obtain ⟨k, hk, hack⟩ := h.node.matched ha hr m hm (by omega)
    exact ⟨k, by simp only [length_take]; omega, hack⟩

theorem advanceCommit (hr : r.role = .leader) : Situation spec ck a n r.advanceCommit.1 := by
  rw [Raft.advanceCommit_fst]
  refine { h with node := { h.node with commit := fun hck => ?_ } }
  rcases r.newCommit_cases with heq | ⟨hgt, hle, hterm, hq⟩
  · simpa only [heq] using h.node.commit hck
  · exact ⟨hle, Or.inr ⟨_, _, le_rfl,
      h.committed_newCommit hr hck.2.1 hle hterm hq (by omega), prefix_rfl⟩⟩

end

theorem led_update (hlead : a'.lead = update a.lead r.currentTerm (some (n, X)))
    {L : List RaftEntry} (hl : a'.lead T = some (n, L)) :
    (∃ L₀, a.lead T = some (n, L₀)) ∨ r.currentTerm = T := by
  rcases eq_or_ne T r.currentTerm with rfl | hne
  · exact .inr rfl
  · rw [hlead, update_of_ne hne] at hl
    exact .inl ⟨L, hl⟩

section
variable (h : Situation spec ck a n r)
include h

theorem simulates_appendOwn (hr : r.role = .leader) (hlen : r.log.length < raftMaxLog)
    (type : RaftEntryType) (data : List UInt8) :
    Simulates spec ck a n (r.appendOwn type data) (r.appendOwn type data).broadcastAppend
      (a.extend n (ownEntry type data r)) := by
  obtain ⟨hs, h'⟩ := h.appendOwn hr hlen type data
  have hlead := h'.lead_log hr
  refine ⟨hs, Local.extend n a _, h'.node, fun hm => h'.broadcastAppend_ok hr hm, h'.leads,
    fun hl => ?_, ?_⟩
  · exact (led_update (h.extend_lead _) hl).imp id
      fun hT => ⟨hr, hT⟩
  · rintro f T m (hack | ⟨rfl, rfl, rfl⟩)
    · exact .inl hack
    · exact .inr ⟨rfl, h.node.term.symm, f, _, h.node.term ▸ hlead, by simp [h.node.log], rfl⟩

theorem simulates_office (hr : r.role = .candidate) (hp : r.inPreVote = 0)
    (hwin : r.quorum ≤ r.grants)
    (hone : ck.votes ∨ ∀ c L, a.lead r.currentTerm = some (c, L) → c = n) :
    Simulates spec ck a n r.office r.office.broadcastAppend (a.elect n) := by
  obtain ⟨hs, h'⟩ := h.office hr hp hwin hone
  have hlead := h'.lead_log rfl
  refine ⟨hs, Local.elect n a, h'.node, fun hm => h'.broadcastAppend_ok rfl hm, h'.leads,
    fun hl => ?_, ?_⟩
  · exact (led_update h.elect_lead hl).imp id
      fun hT => ⟨rfl, hT⟩
  · rintro f T m (hack | ⟨rfl, rfl, rfl⟩)
    · exact .inl hack
    · exact .inr ⟨rfl, h.node.term.symm, f, _, h.node.term ▸ hlead,
        by simp [h.node.log, Raft.office], rfl⟩

theorem simulates_becomeLeader (hr : r.role = .candidate) (hp : r.inPreVote = 0)
    (hwin : r.quorum ≤ r.grants)
    (hone : ck.votes ∨ ∀ c L, a.lead r.currentTerm = some (c, L) → c = n) :
    ∃ a', Simulates spec ck a n r.becomeLeader.1 r.becomeLeader.2 a' := by
  have h₁ := h.simulates_office hr hp hwin hone
  rw [Raft.becomeLeader_eq]
  split_ifs with hlen
  · have hs₁ := h.of_steps h₁.steps h₁.node h₁.leads
    have h₂ := hs₁.simulates_appendOwn rfl hlen .noop []
    exact ⟨_, h₁.trans hs₁.inv h₂ rfl (fun _ => rfl) (prefix_append _ _)⟩
  · exact ⟨_, h₁⟩

theorem simulates_propose (data : List UInt8) :
    ∃ a', Simulates spec ck a n (r.raftPropose data).2.1 (r.raftPropose data).2.2 a' := by
  simp only [Raft.raftPropose]
  split_ifs with hrefused hfull
  · exact ⟨a, Quiet.refl.simulates h (by simp)⟩
  · exact ⟨a, Quiet.refl.simulates h (by simp)⟩
  · have hr : r.role = .leader := by
      by_contra hr
      exact hrefused (.inl hr)
    have h₁ := h.simulates_appendOwn hr (by omega) .normal data
    have hs₁ := h.of_steps h₁.steps h₁.node h₁.leads
    refine ⟨_, h₁.adjust (hs₁.advanceCommit hr).node ?_ ?_ ?_ fun hm => ?_⟩
    · rw [Raft.advanceCommit_fst]
    · rw [Raft.advanceCommit_fst]
    · rw [Raft.advanceCommit_fst]
    · exact h₁.packets ((mem_append.mp hm).resolve_right (Raft.advanceCommit_no_send _))

end
end Situation
end Norn
