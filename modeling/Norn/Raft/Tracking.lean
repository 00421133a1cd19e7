import Norn.Lib.Completeness
import Norn.Raft.Progress

/-!
# The cluster tracks the replication library

Three clauses hold only in runs that keep to a discipline of deliveries (`Checks`).
-/

namespace Norn
open Replication List Function

abbrev History := Replication.State RaftNodeId RaftEntry

variable (spec : ClusterSpec)

def quorums : QuorumSystem RaftNodeId := majorities spec.voters

def MayLead (ck : Checks) (a : History) (c : RaftNodeId) : Prop :=
  ck.votes → Elected (quorums spec) a c

abbrev HSteps (ck : Checks) : History → History → Prop :=
  Steps RaftEntry.term (MayLead spec ck)

abbrev HDecided (a : History) (T : ℕ) (X : List RaftEntry) : Prop :=
  Decided (quorums spec) RaftEntry.term a T X

structure LogOk (log : List RaftEntry) : Prop where
  length : log.length ≤ raftMaxLog
  index : ∀ i e, log[i]? = some e → e.index = i + 1

def LeadsOk (a : History) : Prop :=
  ∀ T c L, a.lead T = some (c, L) → c ∈ spec.ids ∧ LogOk L

structure NodeOk (spec : ClusterSpec) (ck : Checks) (a : History) (n : RaftNodeId) (r : Raft) :
    Prop where
  self : r.self = n
  specs : (r.members.map RaftMember.toSpec).Perm spec.members
  term : a.term n = r.currentTerm
  log : a.log n = r.log
  lead : r.role = .leader ↔ ∃ L, a.lead r.currentTerm = some (n, L)
  vote : a.vote n r.currentTerm = if r.votedFor = raftNoNode then none else some r.votedFor
  cand : r.role = .candidate → r.inPreVote = 0 →
    r.votedFor = n ∧ 0 < r.currentTerm ∧ a.cand n r.currentTerm = some r.log
  flags : ck.votes → r.role = .candidate → r.inPreVote = 0 → ∀ m ∈ r.members,
    m.role = .voter → m.voteGranted = true → a.vote m.id r.currentTerm = some n
  matched : ck.acks → r.role = .leader → ∀ m ∈ r.members, m.matchIndex ≠ 0 →
    ∃ k, m.matchIndex ≤ k ∧ a.acked m.id r.currentTerm k
  logOk : LogOk r.log
  commit : ck.All → r.commitIndex ≤ r.log.length ∧
    HDecided spec a r.currentTerm (r.log.take r.commitIndex)

/-- What the history says about a packet in the network. -/
def PacketOk (ck : Checks) (a : History) (p : Packet) : Prop :=
  match p.msg with
  | .requestVote T preVote candidateId lastLogIndex lastLogTerm =>
    candidateId = p.src ∧ (preVote = 0 → ∃ L, a.cand p.src T = some L ∧
      lastLogIndex = L.length ∧ lastLogTerm = Norn.lastTerm L)
  | .requestVoteResp T preVote voteGranted =>
    preVote = 0 → voteGranted = true → a.vote p.src T = some p.dst
  | .append T leaderId prev prevTerm entries leaderCommit =>
    leaderId = p.src ∧ p.src ≠ p.dst ∧ ∃ L, a.lead T = some (p.src, L) ∧
      ((prev ≠ 0 ∧ prevTerm = 0 ∧ entries = []) ∨
        (prev + entries.length ≤ L.length ∧ (L.drop prev).take entries.length = entries ∧
          prevTerm = termAt L prev)) ∧
      (ck.All → leaderCommit ≤ L.length ∧ HDecided spec a T (L.take leaderCommit))
  | .appendResp T success matchIndex =>
    p.src ≠ p.dst ∧ (success = true → a.acked p.src T matchIndex)

structure Local (n : RaftNodeId) (a a' : History) : Prop where
  term : ∀ {n'}, n' ≠ n → a'.term n' = a.term n'
  log : ∀ {n'}, n' ≠ n → a'.log n' = a.log n'
  vote : ∀ {n'}, n' ≠ n → a'.vote n' = a.vote n'
  cand : ∀ {n'}, n' ≠ n → a'.cand n' = a.cand n'
  lead : ∀ {T c L}, c ≠ n → a'.lead T = some (c, L) → a.lead T = some (c, L)

namespace Local
variable {n : RaftNodeId} {a b c : History}

theorem refl (n : RaftNodeId) (a : History) : Local n a a :=
  ⟨fun _ => rfl, fun _ => rfl, fun _ => rfl, fun _ => rfl, fun _ h => h⟩

theorem trans (h : Local n a b) (h' : Local n b c) : Local n a c where
  term hn := (h'.term hn).trans (h.term hn)
  log hn := (h'.log hn).trans (h.log hn)
  vote hn := (h'.vote hn).trans (h.vote hn)
  cand hn := (h'.cand hn).trans (h.cand hn)
  lead hc hl := h.lead hc (h'.lead hc hl)

theorem bump (n : RaftNodeId) (a : History) (T : ℕ) : Local n a (a.bump n T) :=
  { refl n a with term := fun hn => update_of_ne hn _ _ }

theorem stand (n : RaftNodeId) (a : History) (T : ℕ) : Local n a (a.stand n T) where
  term hn := update_of_ne hn _ _
  log _ := rfl
  vote hn := update_of_ne hn _ _
  cand hn := update_of_ne hn _ _
  lead _ h := h

theorem grant (n : RaftNodeId) (a : History) (c : RaftNodeId) : Local n a (a.grant n c) :=
  { refl n a with vote := fun hn => update_of_ne hn _ _ }

theorem elect (n : RaftNodeId) (a : History) : Local n a (a.elect n) :=
  { refl n a with
    lead := by
      intro T c L hc h
      rcases eq_or_ne T (a.term n) with rfl | hT
      · have h' : (n, a.log n) = (c, L) := by simpa [State.elect] using h
        cases h'
        exact absurd rfl hc
      · simpa [State.elect, update_of_ne hT] using h }

theorem extend (n : RaftNodeId) (a : History) (e : RaftEntry) : Local n a (a.extend n e) :=
  { refl n a with
    log := fun hn => update_of_ne hn _ _
    lead := by
      intro T c L hc h
      rcases eq_or_ne T (a.term n) with rfl | hT
      · have h' : (n, a.log n ++ [e]) = (c, L) := by simpa [State.extend] using h
        cases h'
        exact absurd rfl hc
      · simpa [State.extend, update_of_ne hT] using h }

theorem adopt (n : RaftNodeId) (a : History) (k : ℕ) (X : List RaftEntry) :
    Local n a (a.adopt n k X) :=
  { refl n a with log := fun hn => update_of_ne hn _ _ }

end Local

section
variable {spec : ClusterSpec} {ck : Checks} {a a' : History}

theorem NodeOk.other {n n' : RaftNodeId} {r : Raft} (h : NodeOk spec ck a n' r) (hn : n' ≠ n)
    (hloc : Local n a a') (hx : Extends a a') : NodeOk spec ck a' n' r where
  self := h.self
  specs := h.specs
  term := (hloc.term hn).trans h.term
  log := (hloc.log hn).trans h.log
  lead := h.lead.trans ⟨fun ⟨_, hl⟩ => (hx.lead hl).imp fun _ h' => h'.1,
    fun ⟨L, hl⟩ => ⟨L, hloc.lead hn hl⟩⟩
  vote := by rw [hloc.vote hn, h.vote]
  cand hr hp := by rw [hloc.cand hn]; exact h.cand hr hp
  flags hv hr hp m hm hvoter hg := hx.vote (h.flags hv hr hp m hm hvoter hg)
  matched ha hr m hm hne := (h.matched ha hr m hm hne).imp fun _ hk => ⟨hk.1, hx.acked hk.2⟩
  logOk := h.logOk
  commit hck := ⟨(h.commit hck).1, (h.commit hck).2.mono hx le_rfl⟩

theorem PacketOk.mono {p : Packet} (h : PacketOk spec ck a p) (hx : Extends a a') :
    PacketOk spec ck a' p := by
  unfold PacketOk at h ⊢
  split at h
  · exact ⟨h.1, fun hp => (h.2 hp).imp fun _ hL => ⟨hx.cand hL.1, hL.2⟩⟩
  · exact fun hp hg => hx.vote (h hp hg)
  · obtain ⟨h1, h2, L, hl, hcases, hcommit⟩ := h
    obtain ⟨L', hl', hLL⟩ := hx.lead hl
    obtain ⟨Z, rfl⟩ := id hLL
    refine ⟨h1, h2, _, hl', ?_, fun hck => ?_⟩
    · refine hcases.imp id fun ⟨hlen, hes, hterm⟩ => ⟨?_, ?_, ?_⟩
      · exact hlen.trans hLL.length_le
      · rw [drop_append_of_le_length (by omega), take_append_of_le_length]
        · exact hes
        · simp only [length_drop]; omega
      · rw [hterm]
        exact termAt_eq_of_take (take_append_of_le_length (by omega)).symm le_rfl
    · obtain ⟨hc, hd⟩ := hcommit hck
      refine ⟨hc.trans hLL.length_le, ?_⟩
      rw [take_append_of_le_length hc]
      exact hd.mono hx le_rfl
  · exact ⟨h.1, fun hs => hx.acked (h.2 hs)⟩

theorem NodeOk.congr {n : RaftNodeId} {r r' : Raft} (h : NodeOk spec ck a n r)
    (hself : r'.self = r.self) (hmem : r'.members = r.members)
    (hterm : r'.currentTerm = r.currentTerm) (hvoted : r'.votedFor = r.votedFor)
    (hlog : r'.log = r.log) (hrole : r'.role = r.role) (hpre : r'.inPreVote = r.inPreVote)
    (hcommit : r'.commitIndex = r.commitIndex) : NodeOk spec ck a n r' := by
  obtain ⟨h1, h2, h3, h4, h5, h6, h7, h8, h9, h10, h11⟩ := h
  constructor <;> simp only [hself, hmem, hterm, hvoted, hlog, hrole, hpre, hcommit] <;> assumption

end

structure Situation (spec : ClusterSpec) (ck : Checks) (a : History) (n : RaftNodeId) (r : Raft) :
    Prop where
  reach : Reachable RaftEntry.term (MayLead spec ck) a
  mem : n ∈ spec.ids
  node : NodeOk spec ck a n r
  leads : LeadsOk spec a

structure Quiet (spec : ClusterSpec) (ck : Checks) (n : RaftNodeId) (a a' : History) : Prop where
  steps : HSteps spec ck a a'
  frame : Local n a a'
  lead : a'.lead = a.lead
  acked : a'.acked = a.acked

/-- The new node and what it sends are described by a later history. -/
structure Simulates (spec : ClusterSpec) (ck : Checks) (a : History) (n : RaftNodeId) (r' : Raft)
    (out : List RaftEffect) (a' : History) : Prop where
  steps : HSteps spec ck a a'
  frame : Local n a a'
  node : NodeOk spec ck a' n r'
  packets : ∀ {d m}, RaftEffect.send d m ∈ out → PacketOk spec ck a' ⟨n, d, m⟩
  leads : LeadsOk spec a'
  led : ∀ {T L}, a'.lead T = some (n, L) →
    (∃ L₀, a.lead T = some (n, L₀)) ∨ (r'.role = .leader ∧ r'.currentTerm = T)
  acked : ∀ {f T m}, a'.acked f T m → a.acked f T m ∨ (f = n ∧ r'.currentTerm = T ∧
    ∃ c L, a'.lead T = some (c, L) ∧ m ≤ L.length ∧ r'.log.take m = L.take m)

section
variable {spec : ClusterSpec} {ck : Checks} {a a' a₁ : History} {n : RaftNodeId} {r r' : Raft}
  {out : List RaftEffect}

theorem Quiet.refl : Quiet spec ck n a a :=
  ⟨Relation.ReflTransGen.refl, Local.refl n a, rfl, rfl⟩

theorem Quiet.simulates (hq : Quiet spec ck n a a') (hs : Situation spec ck a' n r')
    (hp : ∀ {d m}, RaftEffect.send d m ∈ out → PacketOk spec ck a' ⟨n, d, m⟩) :
    Simulates spec ck a n r' out a' where
  steps := hq.steps
  frame := hq.frame
  node := hs.node
  packets := hp
  leads := hs.leads
  led h := Or.inl ⟨_, hq.lead ▸ h⟩
  acked h := Or.inl (hq.acked ▸ h)

theorem Quiet.then (hq : Quiet spec ck n a a₁) (h : Simulates spec ck a₁ n r' out a') :
    Simulates spec ck a n r' out a' where
  steps := hq.steps.trans h.steps
  frame := hq.frame.trans h.frame
  node := h.node
  packets := h.packets
  leads := h.leads
  led hl := by simpa only [hq.lead] using h.led hl
  acked ha := by simpa only [hq.acked] using h.acked ha

variable {r₁ : Raft} {out₁ : List RaftEffect}

theorem Simulates.trans (h : Simulates spec ck a n r₁ out₁ a₁) (hI : Inv RaftEntry.term a₁)
    (h' : Simulates spec ck a₁ n r' out a') (hterm : r'.currentTerm = r₁.currentTerm)
    (hrole : r₁.role = .leader → r'.role = .leader) (hlog : r₁.log <+: r'.log) :
    Simulates spec ck a n r' out a' where
  steps := Relation.ReflTransGen.trans h.steps h'.steps
  frame := h.frame.trans h'.frame
  node := h'.node
  packets := h'.packets
  leads := h'.leads
  led hl := by
    rcases h'.led hl with ⟨L₁, hl₁⟩ | hnew
    · exact (h.led hl₁).imp id fun ⟨hr, hT⟩ => ⟨hrole hr, hterm.trans hT⟩
    · exact .inr hnew
  acked ha := by
    rcases h'.acked ha with ha₁ | hnew
    · refine (h.acked ha₁).imp id fun ⟨hf, hT, c, L, hl, hm, htake⟩ => ?_
      obtain ⟨L', hl', hLL⟩ := (hI.steps h'.steps).2.lead hl
      refine ⟨hf, hterm.trans hT, c, L', hl', hm.trans hLL.length_le, ?_⟩
      have hlen := congrArg length htake
      simp only [length_take] at hlen
      obtain ⟨Z, hZ⟩ := hlog
      obtain ⟨Z', hZ'⟩ := hLL
      rw [← hZ, ← hZ', take_append_of_le_length (by omega), htake,
        take_append_of_le_length hm]
    · exact .inr hnew

theorem Simulates.adjust (h : Simulates spec ck a n r₁ out₁ a') (hn : NodeOk spec ck a' n r')
    (hrole : r'.role = r₁.role) (hterm : r'.currentTerm = r₁.currentTerm) (hlog : r'.log = r₁.log)
    (hp : ∀ {d m}, RaftEffect.send d m ∈ out → PacketOk spec ck a' ⟨n, d, m⟩) :
    Simulates spec ck a n r' out a' :=
  { h with
    node := hn
    packets := hp
    led := by simpa only [hrole, hterm] using @h.led
    acked := by simpa only [hterm, hlog] using @h.acked }

namespace Situation
section
variable (h : Situation spec ck a n r)
include h

theorem inv : Inv RaftEntry.term a := h.reach.inv

theorem complete (hv : ck.votes) :
    Complete (quorums spec) RaftEntry.term a := h.reach.complete fun _ _ he => he hv

theorem ne_noNode : n ≠ raftNoNode := by
  obtain ⟨m, hm, rfl⟩ := mem_map.mp h.mem
  exact spec.real m hm

theorem lead_log (hr : r.role = .leader) : a.lead r.currentTerm = some (n, r.log) := by
  obtain ⟨L, hl⟩ := h.node.lead.mp hr
  rw [← h.node.log, h.inv.lead_log hl h.node.term]
  exact hl

theorem of_steps (hs : HSteps spec ck a a') (hn : NodeOk spec ck a' n r') (hl : LeadsOk spec a') :
    Situation spec ck a' n r' :=
  ⟨h.reach.trans hs, h.mem, hn, hl⟩

theorem congr (hself : r'.self = r.self) (hmem : r'.members = r.members)
    (hterm : r'.currentTerm = r.currentTerm) (hvoted : r'.votedFor = r.votedFor)
    (hlog : r'.log = r.log) (hrole : r'.role = r.role) (hpre : r'.inPreVote = r.inPreVote)
    (hcommit : r'.commitIndex = r.commitIndex) : Situation spec ck a n r' :=
  { h with node := h.node.congr hself hmem hterm hvoted hlog hrole hpre hcommit }

end

variable {ms : List RaftMember} {T : ℕ}
section
variable (h : Situation spec ck a n r)
include h

theorem withMembers (hspecs : ms.map RaftMember.toSpec = r.members.map RaftMember.toSpec)
    (hflags : ck.votes → r.role = .candidate → r.inPreVote = 0 → ∀ m ∈ ms, m.role = .voter →
      m.voteGranted = true → a.vote m.id r.currentTerm = some n)
    (hmatched : ck.acks → r.role = .leader → ∀ m ∈ ms, m.matchIndex ≠ 0 →
      ∃ k, m.matchIndex ≤ k ∧ a.acked m.id r.currentTerm k) :
    Situation spec ck a n { r with members := ms } :=
  { h with
    node := { h.node with
      specs := hspecs ▸ h.node.specs, flags := hflags, matched := hmatched } }

theorem not_lead (hr : r.role ≠ .leader) (L : List RaftEntry) :
    a.lead r.currentTerm ≠ some (n, L) := fun hl => hr (h.node.lead.mpr ⟨L, hl⟩)

theorem no_lead_above (hT : r.currentTerm < T) (L : List RaftEntry) :
    a.lead T ≠ some (n, L) := fun hl => by
  have := h.inv.lead_le hl
  rw [h.node.term] at this
  omega

theorem becomeFollower (ldr : RaftNodeId) (hT : r.currentTerm < T ∨ r.role ≠ .leader) :
    ∃ a₁, Quiet spec ck n a a₁ ∧ Situation spec ck a₁ n (r.becomeFollower T ldr) := by
  have hn := h.node
  rcases Nat.lt_or_ge r.currentTerm T with hlt | hge
  · have hlt' : a.term n < T := hn.term ▸ hlt
    have hs : HSteps spec ck a (a.bump n T) := Relation.ReflTransGen.single (Step.bump hlt')
    have hx : Extends a (a.bump n T) := Inv.extends_bump hlt'
    refine ⟨_, ⟨hs, Local.bump n a T, rfl, rfl⟩, h.of_steps hs ?_ h.leads⟩
    simp only [Raft.becomeFollower_eq, if_pos hlt, max_eq_right hlt.le]
    exact
      { self := hn.self, specs := hn.specs, log := hn.log, logOk := hn.logOk
        term := by simp [State.bump]
        lead := ⟨fun hr => by simp at hr, by rintro ⟨L, hl⟩; exact absurd hl (h.no_lead_above hlt L)⟩
        vote := by simpa [State.bump, raftNoNode] using h.inv.vote_fresh hlt'
        cand := fun hr => by simp at hr
        flags := fun _ hr => by simp at hr
        matched := fun _ hr => by simp at hr
        commit := fun hck => ⟨(hn.commit hck).1, (hn.commit hck).2.mono hx hlt.le⟩ }
  · have hr : r.role ≠ .leader := hT.resolve_left (by omega)
    refine ⟨a, Quiet.refl, h.of_steps Relation.ReflTransGen.refl ?_ h.leads⟩
    simp only [Raft.becomeFollower_eq, if_neg (not_lt.mpr hge), max_eq_left hge]
    exact
      { hn with
        lead := ⟨fun hr => by simp at hr, by rintro ⟨L, hl⟩; exact absurd hl (h.not_lead hr L)⟩
        cand := fun hr => by simp at hr
        flags := fun _ hr => by simp at hr
        matched := fun _ hr => by simp at hr }

theorem stand (hspecs : ms.map RaftMember.toSpec = r.members.map RaftMember.toSpec)
    (hflags : ∀ m ∈ ms, m.voteGranted = true → m.id = n) :
    Quiet spec ck n a (a.stand n (r.currentTerm + 1)) ∧
      Situation spec ck (a.stand n (r.currentTerm + 1)) n { r with
        role := .candidate, inPreVote := 0, currentTerm := r.currentTerm + 1, votedFor := n,
        members := ms } := by
  have hn := h.node
  have hlt : a.term n < r.currentTerm + 1 := by rw [hn.term]; omega
  have hs : HSteps spec ck a (a.stand n (r.currentTerm + 1)) :=
    Relation.ReflTransGen.single (Step.stand hlt)
  have hx := h.inv.extends_stand hlt
  have hvote : (a.stand n (r.currentTerm + 1)).vote n (r.currentTerm + 1) = some n := by
    simp [State.stand]
  refine ⟨⟨hs, Local.stand n a _, rfl, rfl⟩, h.of_steps hs ?_ h.leads⟩
  exact
    { self := hn.self, specs := hspecs ▸ hn.specs, log := hn.log, logOk := hn.logOk
      term := by simp [State.stand]
      lead := ⟨fun hr => by simp at hr,
        by rintro ⟨L, hl⟩; exact absurd hl (h.no_lead_above (Nat.lt_succ_self _) L)⟩
      vote := by simp only [hvote, if_neg h.ne_noNode]
      cand := fun _ _ => ⟨rfl, Nat.succ_pos _, by simp [State.stand, hn.log]⟩
      flags := fun _ _ _ m hm _ hg => by simpa only [hflags m hm hg] using hvote
      matched := fun _ hr => by simp at hr
      commit := fun hck => ⟨(hn.commit hck).1, (hn.commit hck).2.mono hx (Nat.le_succ _)⟩ }

end
end Situation
end

end Norn
