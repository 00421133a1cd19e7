import Norn.Raft.Bounds
import Norn.Raft.Safety

/-!
# What a follower commits

A commit index is cut to the end of the follower's log, not to the last entry of the message.
-/

namespace Norn
open Replication List
open List

def RaftMsg.isAppend : RaftMsg → Bool
  | .append .. => true
  | _ => false

def AgreeUpTo (c : ℕ) (X Y : List RaftEntry) : Prop :=
  c ≤ X.length ∧ c ≤ Y.length ∧ X.take c = Y.take c

namespace Raft

def AppendsFrom (r : Raft) (out : List RaftEffect) : Prop :=
  ∀ ⦃d T ldr prev prevTerm es lc⦄, RaftEffect.send d (.append T ldr prev prevTerm es lc) ∈ out →
    r.role = .leader ∧ r.currentTerm = T ∧ prevTerm = termAt r.log prev ∧
      es = (r.log.drop prev).take raftMaxBatch

namespace AppendsFrom
variable {r r' : Raft} {out out' : List RaftEffect}

theorem of_none (h : ∀ {d T ldr prev prevTerm es lc},
    RaftEffect.send d (.append T ldr prev prevTerm es lc) ∉ out) : AppendsFrom r out :=
  fun _ _ _ _ _ _ _ hm => absurd hm h

theorem append (h : AppendsFrom r out) (h' : AppendsFrom r out') : AppendsFrom r (out ++ out') := by
  intro d T ldr prev prevTerm es lc hm
  rcases mem_append.mp hm with hm | hm
  · exact h hm
  · exact h' hm

theorem congr (h : AppendsFrom r out) (hrole : r'.role = r.role)
    (hterm : r'.currentTerm = r.currentTerm) (hlog : r'.log = r.log) : AppendsFrom r' out := by
  intro d T ldr prev prevTerm es lc hm
  rw [hrole, hterm, hlog]
  exact h hm

theorem sendAppend (hlead : r.role = .leader) (m : RaftMember) : AppendsFrom r [r.sendAppend m] := by
  intro d T ldr prev prevTerm es lc hm
  rw [mem_singleton, sendAppend_eq] at hm
  cases hm
  exact ⟨hlead, rfl, rfl, rfl⟩

theorem broadcastAppend (hlead : r.role = .leader) : AppendsFrom r r.broadcastAppend := by
  intro d T ldr prev prevTerm es lc hm
  obtain ⟨m, _, _, heq⟩ := r.mem_broadcastAppend hm
  exact sendAppend hlead m (mem_singleton.mpr heq)

theorem broadcastVote (r : Raft) (preVote term : ℕ) : AppendsFrom r' (r.broadcastVote preVote term) :=
  of_none fun hm => by cases (r.mem_broadcastVote hm).2

theorem applyCommitted (h : AppendsFrom r out) :
    AppendsFrom r.applyCommitted.1 (out ++ r.applyCommitted.2) := by
  rw [applyCommitted_fst]
  exact append (h.congr rfl rfl rfl) (of_none r.applyCommitted_no_send)

theorem advanceCommit (h : AppendsFrom r out) :
    AppendsFrom r.advanceCommit.1 (out ++ r.advanceCommit.2) := by
  rw [advanceCommit_fst]
  exact append (h.congr rfl rfl rfl) (of_none r.advanceCommit_no_send)

theorem becomeLeader (r : Raft) : AppendsFrom r.becomeLeader.1 r.becomeLeader.2 :=
  broadcastAppend r.becomeLeader_role

theorem startElection (r : Raft) : AppendsFrom r.startElection.1 r.startElection.2 := by
  rw [startElection_eq]
  split_ifs
  · exact of_none not_mem_nil
  · exact becomeLeader _
  · exact broadcastVote _ _ _

theorem reply (dest : RaftNodeId) {msg : RaftMsg} (h : msg.isAppend = false) :
    AppendsFrom r [.send dest msg] :=
  of_none fun hm => by
    cases mem_singleton.mp hm
    cases h

end AppendsFrom

theorem Outcome.appendsFrom {r : Raft} {e : ClusterEvent} {out : Raft × List RaftEffect}
    (h : r.Outcome e out) : AppendsFrom out.1 out.2 := by
  cases h with
  | answered | refused | granted | overdue | missed => exact .reply _ rfl
  | outdated | counted | overtaken | ignored | declined | quiet => exact .of_none not_mem_nil
  | won => exact .broadcastVote _ _ _
  | elected => exact .becomeLeader _
  | taken => exact (AppendsFrom.of_none (takeCommit_no_send _)).append (.reply _ rfl)
  | acked => exact .of_none (advanceCommit_no_send _)
  | backed hlead _ _ hr' => exact .sendAppend (hr' ▸ hlead) _
  | @proposed _ data hlead =>
    have hown : (r.appendOwn .normal data).role = .leader := hlead
    exact (AppendsFrom.broadcastAppend hown).advanceCommit
  | beat hlead hr' => exact .broadcastAppend (hr' ▸ hlead)
  | started => exact (AppendsFrom.startElection _).applyCommitted
  | waited => exact .of_none (applyCommitted_no_send _)

theorem writeEntries_of_not_conflicts {log es : List RaftEntry} {prev : ℕ}
    (hle : prev + es.length ≤ log.length) (h : ¬ Conflicts log prev es) :
    writeEntries log (prev + 1) es = log := by
  induction es generalizing prev with
  | nil => rfl
  | cons e es ih =>
    rw [conflicts_cons, not_or] at h
    rw [length_cons] at hle
    have hhave : termAt log (prev + 1) = e.term := by
      by_contra hne
      exact h.1 ⟨by omega, hne⟩
    rw [writeEntries, if_pos ⟨by omega, hhave⟩]
    exact ih (by omega) h.2

def askedCommit (r : Raft) : RaftMsg → ℕ
  | .append _ _ _ _ _ leaderCommit => min leaderCommit r.log.length
  | _ => 0

def CommitsTail (r : Raft) : RaftMsg → Prop
  | .append term _ prevLogIndex prevLogTerm entries leaderCommit =>
    r.currentTerm ≤ term ∧ prevLogIndex ≤ r.log.length ∧
      termAt r.log prevLogIndex = prevLogTerm ∧ ¬ Conflicts r.log prevLogIndex entries ∧
      r.commitIndex < min leaderCommit r.log.length ∧
      prevLogIndex + entries.length < min leaderCommit r.log.length
  | _ => False

instance (r : Raft) (msg : RaftMsg) : Decidable (r.CommitsTail msg) :=
  match msg with
  | .append .. => inferInstanceAs (Decidable (_ ∧ _))
  | .requestVote .. => .isFalse id
  | .requestVoteResp .. => .isFalse id
  | .appendResp .. => .isFalse id

section
variable {r : Raft}

theorem handleAppend_of_raised {term prev prevTerm : ℕ} {leaderId : RaftNodeId}
    {es : List RaftEntry} {lc : ℕ}
    (h : r.commitIndex < (r.handleAppend term leaderId prev prevTerm es lc).1.commitIndex) :
    r.currentTerm ≤ term ∧ prev ≤ r.log.length ∧ termAt r.log prev = prevTerm ∧
      (r.handleAppend term leaderId prev prevTerm es lc).1.log = writeEntries r.log (prev + 1) es ∧
      (r.handleAppend term leaderId prev prevTerm es lc).1.commitIndex =
        min lc (writeEntries r.log (prev + 1) es).length := by
  by_cases haccept : r.currentTerm ≤ term ∧ prev ≤ r.log.length ∧ termAt r.log prev = prevTerm
  swap
  · exact absurd h (handleAppend_of_refused haccept leaderId es lc).2.not_gt
  obtain ⟨hterm, hlen, hprev⟩ := haccept
  obtain ⟨hlog, hcommit⟩ := r.handleAppend_of_accepted hterm hlen hprev leaderId es lc
  rw [hcommit] at h ⊢
  split_ifs at h ⊢ with hlt
  · exact ⟨hterm, hlen, hprev, hlog, rfl⟩
  · exact absurd h (lt_irrefl _)

theorem raftRecv_of_commitsTail {msg : RaftMsg} (h : r.CommitsTail msg) (src : RaftNodeId) :
    (r.raftRecv src msg).1.log = r.log ∧ (r.raftRecv src msg).1.commitIndex = r.askedCommit msg ∧
      r.commitIndex < r.askedCommit msg := by
  cases msg with
  | append term leaderId prev prevTerm es lc =>
    obtain ⟨hterm, hlen, hprev, hsame, hraise, htail⟩ := h
    obtain ⟨hlog, hcommit⟩ := r.handleAppend_of_accepted hterm hlen hprev leaderId es lc
    rw [writeEntries_of_not_conflicts (by omega) hsame] at hlog hcommit
    rw [if_pos (by omega)] at hcommit
    exact ⟨hlog, hcommit, hraise⟩
  | requestVote | requestVoteResp | appendResp => exact h.elim

end
end Raft

namespace ClusterRun
section
variable {spec : ClusterSpec} (run : ClusterRun spec)

def LeadersKept (k : ℕ) (a : History) : Prop :=
  ∀ j ≤ k, ∀ n ∈ spec.ids, ∀ T, run.Leads j n T →
    ∃ L, a.lead T = some (n, L) ∧ (run.node j n).log <+: L

theorem exists_tracks_kept (hone : run.OneLeaderPerTerm) :
    ∀ k ≤ run.len, ∃ a, Tracks run ⟨False, False, False⟩ k a ∧ run.LeadersKept k a := by
  have hnow : ∀ {k a}, Tracks run ⟨False, False, False⟩ k a → ∀ n ∈ spec.ids, ∀ T,
      run.Leads k n T → a.lead T = some (n, (run.node k n).log) := by
    rintro k a h n hn T ⟨hrole, rfl⟩
    exact (Situation.ofTracks h hn).lead_log hrole
  refine run.position_induction ⟨_, Tracks.zero run _, fun j hj n hn T hled => ?_⟩ ?_
  · obtain rfl : j = 0 := Nat.le_zero.mp hj
    exact ⟨_, hnow (Tracks.zero run _) n hn T hled, prefix_rfl⟩
  · rintro k hk ⟨a, h, hkept⟩
    obtain ⟨a', hsim⟩ := h.simulates hk run.meets_none (.inr hone)
    have h' := h.succ hk rfl hsim
    refine ⟨a', h', fun j hj n hn T hled => ?_⟩
    rcases Nat.lt_or_ge k j with hlt | hge
    · obtain rfl : j = k + 1 := by omega
      exact ⟨_, hnow h' n hn T hled, prefix_rfl⟩
    · obtain ⟨L, hl, hL⟩ := hkept j hge n hn T hled
      obtain ⟨L', hl', hLL⟩ := (h.reach.inv.steps hsim.steps).2.lead hl
      exact ⟨L', hl', hL.trans hLL⟩

def SentAt (j : ℕ) (p : Packet) : Prop :=
  p ∈ packetsOf (Cluster.actor (run.event j)) (run.effects j)

instance (j : ℕ) (p : Packet) : Decidable (run.SentAt j p) := inferInstanceAs (Decidable (_ ∈ _))

/-- A commit raised by an append covers only what the leader had in its log. -/
def CommitsAgree : Prop :=
  ∀ k < run.len, ∀ p ∈ (run.state k).sent, run.event k = .deliver p → p.msg.isAppend = true →
    (run.node k p.dst).commitIndex < (run.node (k + 1) p.dst).commitIndex →
    ∀ j < k, run.SentAt j p → AgreeUpTo (run.node (k + 1) p.dst).commitIndex
      (run.node (k + 1) p.dst).log (run.node (j + 1) p.src).log

/-- Behind the entries that it carries, an append commits only what the leader had. -/
def TailsAgree : Prop :=
  ∀ k < run.len, ∀ p ∈ (run.state k).sent, run.event k = .deliver p →
    (run.node k p.dst).CommitsTail p.msg → ∀ j < k, run.SentAt j p →
      (run.node k p.dst).askedCommit p.msg ≤ (run.node (j + 1) p.src).log.length ∧
        termAt (run.node (j + 1) p.src).log ((run.node k p.dst).askedCommit p.msg) =
          termAt (run.node k p.dst).log ((run.node k p.dst).askedCommit p.msg)

variable {run}

theorem SentAt.src_eq {j : ℕ} {p : Packet} (h : run.SentAt j p) :
    p.src = Cluster.actor (run.event j) ∧ RaftEffect.send p.dst p.msg ∈ run.effects j := by
  obtain ⟨eff, heff, heq⟩ := mem_filterMap.mp h
  cases eff with
  | apply _ => cases heq
  | send d m =>
    cases Option.some.inj heq
    exact ⟨rfl, heff⟩

theorem SentAt.append {j : ℕ} (hj : j < run.len) {src dst : RaftNodeId}
    {T prev prevTerm lc : ℕ} {ldr : RaftNodeId} {es : List RaftEntry}
    (h : run.SentAt j ⟨src, dst, .append T ldr prev prevTerm es lc⟩) :
    src ∈ spec.ids ∧ run.Leads (j + 1) src T ∧ prevTerm = termAt (run.node (j + 1) src).log prev ∧
      es = ((run.node (j + 1) src).log.drop prev).take raftMaxBatch := by
  obtain ⟨hsrc, hmem⟩ := h.src_eq
  obtain rfl : src = Cluster.actor (run.event j) := hsrc
  obtain ⟨hlead, hterm, hcarried⟩ := (Raft.outcome_call _ _).appendsFrom hmem
  rw [← run.node_actor hj] at hlead hterm hcarried
  exact ⟨(run.step_eq hj).1.1, ⟨hlead, hterm⟩, hcarried⟩

end
end ClusterRun

section
variable {spec : ClusterSpec} {ck : Checks} {a : History} {n src : RaftNodeId} {r : Raft}

theorem Situation.accepts (h : Situation spec ck a n r) {term prev : ℕ} {S L es : List RaftEntry}
    (hterm : r.currentTerm ≤ term) (hne : src ≠ n) (hl : a.lead term = some (src, L))
    (hS : S <+: L) (hes : es = (S.drop prev).take raftMaxBatch) (hlen : prev ≤ r.log.length)
    (hprev : termAt r.log prev = termAt S prev) :
    prev + es.length ≤ S.length ∧ (L.drop prev).take es.length = es ∧
      Adopts RaftEntry.term r.log L (prev + es.length) (Raft.writeEntries r.log (prev + 1) es) := by
  have hin : prev ≤ S.length := by
    by_contra hfar
    have hpos := h.termAt_pos (by omega) hlen
    rw [hprev, termAt, if_pos (.inr (not_le.mp hfar))] at hpos
    exact absurd hpos (lt_irrefl 0)
  have hfits : es.length ≤ (S.drop prev).length := by
    rw [hes, length_take]
    exact min_le_right _ _
  have hle : prev + es.length ≤ S.length := by
    rw [length_drop] at hfits
    omega
  obtain ⟨Z, rfl⟩ := hS
  have hslice : ((S ++ Z).drop prev).take es.length = es := by
    rw [drop_append_of_le_length hin, take_append_of_le_length hfits]
    conv_rhs => rw [hes]
    rw [hes, length_take, ← take_take, take_length]
  have hcut : termAt (S ++ Z) prev = termAt S prev :=
    termAt_eq_of_take (take_append_of_le_length hin) le_rfl
  obtain ⟨a₁, hq, h₁⟩ := h.join hterm hne hl
  exact ⟨hle, h₁.append_slice (hq.lead ▸ hl)
    (.inr ⟨hle.trans (prefix_append S Z).length_le, hslice, hprev.trans hcut.symm⟩) hlen rfl
    |>.2⟩

theorem not_conflicts_of_adopts {X L X' es : List RaftEntry} {prev : ℕ}
    (hes : (L.drop prev).take es.length = es) (hle : prev + es.length ≤ L.length)
    (h : Adopts RaftEntry.term X L (prev + es.length) X') (hlong : prev + es.length < X'.length) :
    X' = X ∧ ¬ Raft.Conflicts X prev es := by
  rcases h with ⟨rfl, hpre⟩ | ⟨rfl, _⟩
  · refine ⟨rfl, fun ⟨i, hi, _, hne⟩ => hne ?_⟩
    rw [termAt_eq_of_take (take_of_take_isPrefix hpre hle le_rfl) (by omega), termAt_succ,
      termAt_succ, ← hes, getElem?_take_of_lt (by simpa [hes] using hi), getElem?_drop]
  · rw [length_take] at hlong
    omega

end

namespace ClusterRun
section
variable {spec : ClusterSpec} {run : ClusterRun spec}

theorem commit_agrees {k : ℕ} {a : History} (h : Tracks run ⟨False, False, False⟩ k a)
    (hkept : run.LeadersKept k a) (hk : k < run.len) {src dst ldr : RaftNodeId}
    {term prev prevTerm lc : ℕ} {es : List RaftEntry}
    (he : run.event k = .deliver ⟨src, dst, .append term ldr prev prevTerm es lc⟩)
    (hraise : (run.node k dst).commitIndex < (run.node (k + 1) dst).commitIndex) {j : ℕ}
    (hj : j < k) (hsent : run.SentAt j ⟨src, dst, .append term ldr prev prevTerm es lc⟩)
    (htail : (run.node k dst).CommitsTail (.append term ldr prev prevTerm es lc) →
      min lc (run.node k dst).log.length ≤ (run.node (j + 1) src).log.length ∧
        termAt (run.node (j + 1) src).log (min lc (run.node k dst).log.length) =
          termAt (run.node k dst).log (min lc (run.node k dst).log.length)) :
    AgreeUpTo (run.node (k + 1) dst).commitIndex (run.node (k + 1) dst).log
      (run.node (j + 1) src).log := by
  obtain ⟨hactor, hmem⟩ := (run.step_eq hk).1
  rw [he] at hactor
  have hdst : dst ∈ spec.ids := hactor
  have hs := Situation.ofTracks h hdst
  obtain ⟨_, _, hne, _⟩ := h.packets _ (hmem _ he)
  obtain ⟨hsrc, hled, hprevTerm, hes⟩ := hsent.append (hj.trans hk)
  obtain ⟨L, hl, hS⟩ := hkept (j + 1) hj src hsrc term hled
  have hnode : run.node (k + 1) dst =
      ((run.node k dst).handleAppend term ldr prev prevTerm es lc).1 := run.node_event hk he
  rw [hnode] at hraise ⊢
  obtain ⟨hterm, hlen, hprev, hlog, hcommit⟩ := Raft.handleAppend_of_raised hraise
  rw [hcommit] at hraise
  rw [hlog, hcommit]
  obtain ⟨hle, hslice, hadopts⟩ := hs.accepts hterm hne hl hS hes hlen (hprev.trans hprevTerm)
  have hleL := hle.trans hS.length_le
  generalize hX' : Raft.writeEntries (run.node k dst).log (prev + 1) es = X' at hadopts hraise ⊢
  rcases Nat.lt_or_ge (prev + es.length) (min lc X'.length) with hfar | hnear
  · obtain ⟨rfl, hsame⟩ := not_conflicts_of_adopts hslice hleL hadopts (by omega)
    obtain ⟨hshort, hequal⟩ := htail ⟨hterm, hlen, hprev, hsame, hraise, hfar⟩
    have hX := h.reach.inv.log_ok dst
    rw [(h.nodes dst hdst).log] at hX
    have hY := (h.reach.inv.lead_ok hl).of_isPrefix hS
    refine ⟨min_le_right _ _, hshort, ?_⟩
    obtain ⟨i, hi⟩ := Nat.exists_eq_succ_of_ne_zero (Nat.ne_zero_of_lt hfar)
    have hbound := min_le_right lc (run.node k dst).log.length
    rw [hi] at hshort hequal hbound ⊢
    exact take_eq_of_termAt hX hY hbound hshort hequal.symm
  · have hshort := hnear.trans hle
    refine ⟨min_le_right _ _, hshort, ?_⟩
    rw [take_of_take_isPrefix hadopts.holds hleL hnear]
    exact (take_eq_of_isPrefix rfl hshort hS).symm

/-- With one leader per term, commits agree with its log exactly if the tails do. -/
theorem commits_agree_iff (hone : run.OneLeaderPerTerm) : run.CommitsAgree ↔ run.TailsAgree := by
  constructor
  · intro h k hk p hp he htail j hj hsent
    have hnode : run.node (k + 1) p.dst = ((run.node k p.dst).raftRecv p.src p.msg).1 :=
      run.node_event hk he
    obtain ⟨hlog, hcommit, hraise⟩ := Raft.raftRecv_of_commitsTail htail p.src
    rw [← hnode] at hlog hcommit
    have happend : p.msg.isAppend = true := by
      cases hmsg : p.msg with
      | append => rfl
      | _ => simp only [hmsg, Raft.CommitsTail] at htail
    obtain ⟨_, hshort, hagree⟩ := h k hk p hp he happend (hcommit ▸ hraise) j hj hsent
    rw [hcommit, hlog] at hagree
    rw [hcommit] at hshort
    exact ⟨hshort, (termAt_eq_of_take hagree le_rfl).symm⟩
  · intro h k hk p hp he happend hraise j hj hsent
    obtain ⟨a, htracks, hkept⟩ := run.exists_tracks_kept hone k hk.le
    have htail := fun hcommits => h k hk p hp he hcommits j hj hsent
    obtain ⟨src, dst, msg⟩ := p
    cases msg with
    | append term ldr prev prevTerm es lc =>
      exact commit_agrees htracks hkept hk he hraise hj hsent htail
    | requestVote | requestVoteResp | appendResp => cases happend

end

theorem settledRun_commits_agree :
    (settledRun.node 12 2).commitIndex < (settledRun.node 13 2).commitIndex ∧
      settledRun.CommitsAgree :=
  ⟨by decide +kernel, (commits_agree_iff settledRun_oneLeaderPerTerm).mpr
    (by unfold TailsAgree; decide +kernel)⟩

def commonEntries : List RaftEntry :=
  noopEntry 1 1 :: (range 7).map fun i => ⟨1, i + 2, .normal, [0]⟩

def commonEvents : List ClusterEvent :=
  firstElection ++ .deliver ⟨2, 1, .requestVoteResp 1 0 true⟩ :: replicate 7 (.propose 1 [0]) ++
    [.deliver ⟨1, 2, .append 1 1 0 0 commonEntries 0⟩,
      .deliver ⟨1, 3, .append 1 1 0 0 commonEntries 0⟩]

def staleTailEvents : List ClusterEvent :=
  [.tick 3 153, .tick 2 300,
    .deliver ⟨3, 2, .requestVote 2 1 3 8 1⟩, .deliver ⟨2, 3, .requestVoteResp 1 1 true⟩,
    .deliver ⟨3, 2, .requestVote 2 0 3 8 1⟩, .deliver ⟨2, 3, .requestVoteResp 2 0 true⟩,
    .deliver ⟨1, 3, .append 1 1 0 0 commonEntries 0⟩, .deliver ⟨3, 1, .appendResp 2 false 0⟩,
    .tick 1 302, .tick 2 450,
    .deliver ⟨1, 2, .requestVote 3 1 1 8 1⟩, .deliver ⟨2, 1, .requestVoteResp 2 1 true⟩,
    .deliver ⟨1, 2, .requestVote 3 0 1 8 1⟩, .deliver ⟨1, 3, .requestVote 3 0 1 8 1⟩,
    .deliver ⟨2, 1, .requestVoteResp 3 0 true⟩,
    .deliver ⟨1, 2, .append 3 1 8 1 [noopEntry 3 9] 0⟩, .deliver ⟨2, 1, .appendResp 3 true 9⟩]

/-- Then the rejection of term 1 arrives eight times, and the first batch is sent once more. -/
def staleTailRun : ClusterRun trio :=
  ClusterRun.ofEvents trio trio_boots (commonEvents ++ staleTailEvents ++
    replicate 8 (.deliver ⟨3, 1, .appendResp 2 false 0⟩) ++
    [.deliver ⟨1, 3, .append 3 1 0 0 commonEntries 9⟩]) (by decide +kernel)

theorem staleTailRun_commits_differ :
    staleTailRun.OneLeaderPerTerm ∧ (staleTailRun.node 40 3).role = .follower ∧
      ¬ staleTailRun.CommitsAgree := by
  refine ⟨staleTailRun.oneLeaderPerTerm_of_leaders (fun T => if T = 2 then 3 else 1)
    (by decide +kernel), by decide +kernel, fun h => ?_⟩
  obtain ⟨_, _, hagree⟩ := h 40 (by decide +kernel) ⟨1, 3, .append 3 1 0 0 commonEntries 9⟩
    (by decide +kernel) (by decide +kernel) rfl (by decide +kernel) 39 (by decide)
    (by decide +kernel)
  exact absurd hagree (by decide +kernel)

end ClusterRun
end Norn
