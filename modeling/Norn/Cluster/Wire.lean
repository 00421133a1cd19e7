import Norn.Nornd.Frames
import Norn.Raft.CoreFacts

/-!
# Raft messages on the wire

The codec of `norn_cluster.c`. A read beyond the buffer is an outcome of its own.
-/

namespace Norn
open List

def raftFrameMax : ℕ := 64 + raftMaxBatch * (19 + raftEntryMax)

def RaftEntryType.code : RaftEntryType → ℕ
  | .normal => 0
  | .noop => 1

def boolByte (b : Bool) : ℕ := if b then 1 else 0

def RaftEntry.encode (e : RaftEntry) : Bytes :=
  bigEndian 8 e.term ++ (bigEndian 8 e.index ++ (bigEndian 1 e.type.code ++
    (bigEndian 2 e.data.length ++ e.data)))

def RaftMsg.encode : RaftMsg → Bytes
  | requestVote term preVote candidateId lastLogIndex lastLogTerm =>
    bigEndian 1 0 ++ (bigEndian 8 term ++ (bigEndian 1 preVote ++ (bigEndian 8 candidateId ++
      (bigEndian 8 lastLogIndex ++ bigEndian 8 lastLogTerm))))
  | requestVoteResp term preVote voteGranted =>
    bigEndian 1 1 ++ (bigEndian 8 term ++ (bigEndian 1 preVote ++
      bigEndian 1 (boolByte voteGranted)))
  | append term leaderId prevLogIndex prevLogTerm entries leaderCommit =>
    bigEndian 1 2 ++ (bigEndian 8 term ++ (bigEndian 8 leaderId ++ (bigEndian 8 prevLogIndex ++
      (bigEndian 8 prevLogTerm ++ (bigEndian 8 leaderCommit ++ (bigEndian 2 entries.length ++
        entries.flatMap RaftEntry.encode))))))
  | appendResp term success matchIndex =>
    bigEndian 1 3 ++ (bigEndian 8 term ++ (bigEndian 1 (boolByte success) ++
      bigEndian 8 matchIndex))

def encodeRaft (m : RaftMsg) (cap : ℕ) : Option Bytes :=
  if cap < m.encode.length then none else some m.encode

def readNat {β : Type} (n : ℕ) (rest : Bytes) (next : ℕ → Bytes → Option (Option β)) :
    Option (Option β) :=
  if rest.length < n then none else next (fromBigEndian (rest.take n)) (rest.drop n)

def decodeEntries : ℕ → Bytes → List RaftEntry → Option (Option (List RaftEntry))
  | 0, _, ents => some (some ents)
  | n + 1, rest, ents =>
    if rest.length < 19 then some none
    else
      readNat 8 rest fun term rest => readNat 8 rest fun index rest =>
      readNat 1 rest fun type rest => readNat 2 rest fun el rest =>
        if raftEntryMax < el ∨ rest.length < el then some none
        else
          decodeEntries n (rest.drop el)
            (ents ++ [⟨term, index, if type = 0 then .normal else .noop, rest.take el⟩])

def decodeRequestVote (term : ℕ) (rest : Bytes) : Option (Option RaftMsg) :=
  if rest.length < 1 + 24 then some none
  else
    readNat 1 rest fun preVote rest => readNat 8 rest fun candidateId rest =>
    readNat 8 rest fun lastLogIndex rest => readNat 8 rest fun lastLogTerm _ =>
      some (some (.requestVote term preVote candidateId lastLogIndex lastLogTerm))

def decodeRequestVoteResp (term : ℕ) (rest : Bytes) : Option (Option RaftMsg) :=
  if rest.length < 2 then some none
  else
    readNat 1 rest fun preVote rest => readNat 1 rest fun voteGranted _ =>
      some (some (.requestVoteResp term preVote (voteGranted ≠ 0)))

def decodeAppend (term : ℕ) (rest : Bytes) : Option (Option RaftMsg) :=
  if rest.length < 34 then some none
  else
    readNat 8 rest fun leaderId rest => readNat 8 rest fun prevLogIndex rest =>
    readNat 8 rest fun prevLogTerm rest => readNat 8 rest fun leaderCommit rest =>
    readNat 2 rest fun n rest =>
      if raftMaxBatch < n then some none
      else
        (decodeEntries n rest []).map fun ents => ents.map fun ents =>
          .append term leaderId prevLogIndex prevLogTerm ents leaderCommit

def decodeAppendResp (term : ℕ) (rest : Bytes) : Option (Option RaftMsg) :=
  if rest.length < 9 then some none
  else
    readNat 1 rest fun success rest => readNat 8 rest fun matchIndex _ =>
      some (some (.appendResp term (success ≠ 0) matchIndex))

def decodeRaft (buf : Bytes) : Option (Option RaftMsg) :=
  if buf.length < 9 then some none
  else
    readNat 1 buf fun type rest => readNat 8 rest fun term rest =>
      if type = 0 then decodeRequestVote term rest
      else if type = 1 then decodeRequestVoteResp term rest
      else if type = 2 then decodeAppend term rest
      else if type = 3 then decodeAppendResp term rest
      else some none

def RaftEntry.Small (e : RaftEntry) : Prop := e.data.length ≤ raftEntryMax

/-- The sizes that the encoder has room for. -/
def RaftMsg.Small : RaftMsg → Prop
  | requestVote _ preVote _ _ _ => preVote < 256
  | requestVoteResp _ preVote _ => preVote < 256
  | append _ _ _ _ entries _ => entries.length ≤ raftMaxBatch ∧ ∀ e ∈ entries, e.Small
  | appendResp _ _ _ => True

def RaftMsg.InRange : RaftMsg → Prop
  | requestVote term _ candidateId lastLogIndex lastLogTerm =>
    term < 256 ^ 8 ∧ candidateId < 256 ^ 8 ∧ lastLogIndex < 256 ^ 8 ∧ lastLogTerm < 256 ^ 8
  | requestVoteResp term _ _ => term < 256 ^ 8
  | append term leaderId prevLogIndex prevLogTerm entries leaderCommit =>
    term < 256 ^ 8 ∧ leaderId < 256 ^ 8 ∧ prevLogIndex < 256 ^ 8 ∧ prevLogTerm < 256 ^ 8 ∧
      leaderCommit < 256 ^ 8 ∧ ∀ e ∈ entries, e.term < 256 ^ 8 ∧ e.index < 256 ^ 8
  | appendResp term _ matchIndex => term < 256 ^ 8 ∧ matchIndex < 256 ^ 8

variable {entries : List RaftEntry} {m : RaftMsg} {β : Type} {p : β → Prop}

theorem length_flatMap_encode_le (h : ∀ e ∈ entries, e.Small) :
    (entries.flatMap RaftEntry.encode).length ≤ entries.length * (19 + raftEntryMax) := by
  induction entries with
  | nil => exact Nat.zero_le _
  | cons e entries ih =>
    obtain ⟨he, h⟩ := forall_mem_cons.mp h
    have hrest := ih h
    have hencode : e.encode.length = 19 + e.data.length := by
      simp only [RaftEntry.encode, length_append, length_bigEndian]
      omega
    unfold RaftEntry.Small at he
    rw [flatMap_cons, length_append, length_cons, hencode, Nat.succ_mul]
    omega

theorem RaftMsg.length_encode_le (h : m.Small) : m.encode.length ≤ raftFrameMax := by
  unfold raftFrameMax
  cases m with
  | append term leaderId prevLogIndex prevLogTerm entries leaderCommit =>
    have hlen := length_flatMap_encode_le h.2
    have hbatch := Nat.mul_le_mul_right (19 + raftEntryMax) h.1
    simp only [RaftMsg.encode, length_append, length_bigEndian]
    omega
  | _ =>
    simp only [RaftMsg.encode, length_append, length_bigEndian]
    omega

section
variable {β : Type} {next : ℕ → Bytes → Option (Option β)}

theorem readNat_append {n v : ℕ} (hv : v < 256 ^ n) (rest : Bytes) :
    readNat n (bigEndian n v ++ rest) next = next v rest := by
  have hlen := length_bigEndian n v
  rw [readNat, if_neg (by rw [length_append]; omega), take_left' hlen,
    drop_left' hlen, fromBigEndian_bigEndian, Nat.mod_eq_of_lt hv]

theorem readNat_end {n v : ℕ} (hv : v < 256 ^ n) : readNat n (bigEndian n v) next = next v [] := by
  have h : readNat n (bigEndian n v ++ []) next = next v [] := readNat_append hv []
  rwa [append_nil] at h

end

theorem decodeEntries_encode (hsmall : ∀ e ∈ entries, e.Small)
    (hrange : ∀ e ∈ entries, e.term < 256 ^ 8 ∧ e.index < 256 ^ 8) (ents : List RaftEntry) :
    decodeEntries entries.length (entries.flatMap RaftEntry.encode) ents =
      some (some (ents ++ entries)) := by
  induction entries generalizing ents with
  | nil =>
    rw [append_nil]
    rfl
  | cons e entries ih =>
    obtain ⟨he, hsmall⟩ := forall_mem_cons.mp hsmall
    obtain ⟨⟨hterm, hindex⟩, hrange⟩ := forall_mem_cons.mp hrange
    unfold RaftEntry.Small raftEntryMax at he
    have htype : e.type.code < 256 ^ 1 := by cases e.type <;> decide
    have hdata : e.data.length < 256 ^ 2 := by omega
    have hkind : (if e.type.code = 0 then RaftEntryType.normal else .noop) = e.type := by
      cases e.type <;> rfl
    rw [length_cons, decodeEntries, flatMap_cons, if_neg]
    · simp only [RaftEntry.encode, append_assoc]
      rw [readNat_append hterm, readNat_append hindex, readNat_append htype, readNat_append hdata,
        if_neg, hkind, take_left, drop_left, ih hsmall hrange, append_assoc]
      · rfl
      · unfold raftEntryMax
        rw [length_append]
        omega
    · simp only [RaftEntry.encode, length_append, length_bigEndian]
      omega

theorem decodeRaft_encode (hsmall : m.Small) (hrange : m.InRange) :
    decodeRaft m.encode = some (some m) := by
  have hbool : ∀ b : Bool, boolByte b < 256 ^ 1 := by decide
  have hflag : ∀ b : Bool, decide (boolByte b ≠ 0) = b := by decide
  have hlen : 9 ≤ m.encode.length := by
    cases m <;> simp only [RaftMsg.encode, length_append, length_bigEndian] <;> omega
  rw [decodeRaft, if_neg (by omega)]
  cases m with
  | requestVote term preVote candidateId lastLogIndex lastLogTerm =>
    obtain ⟨hterm, hcand, hindex, hlast⟩ := hrange
    have hpre : preVote < 256 ^ 1 := hsmall
    rw [RaftMsg.encode, readNat_append (by decide), readNat_append hterm, if_pos rfl,
      decodeRequestVote, if_neg, readNat_append hpre, readNat_append hcand, readNat_append hindex,
      readNat_end hlast]
    simp only [length_append, length_bigEndian]
    decide
  | requestVoteResp term preVote voteGranted =>
    have hpre : preVote < 256 ^ 1 := hsmall
    rw [RaftMsg.encode, readNat_append (by decide), readNat_append hrange, if_neg (by decide),
      if_pos rfl, decodeRequestVoteResp, if_neg, readNat_append hpre,
      readNat_end (hbool voteGranted), hflag]
    simp only [length_append, length_bigEndian]
    decide
  | append term leaderId prevLogIndex prevLogTerm entries leaderCommit =>
    obtain ⟨hterm, hleader, hprev, hprevTerm, hcommit, hentries⟩ := hrange
    obtain ⟨hbatch, hsmall⟩ := hsmall
    have hcount : entries.length < 256 ^ 2 := hbatch.trans_lt (by decide)
    rw [RaftMsg.encode, readNat_append (by decide), readNat_append hterm, if_neg (by decide),
      if_neg (by decide), if_pos rfl, decodeAppend, if_neg, readNat_append hleader,
      readNat_append hprev, readNat_append hprevTerm, readNat_append hcommit,
      readNat_append hcount, if_neg (by omega), decodeEntries_encode hsmall hentries]
    · rfl
    · simp only [length_append, length_bigEndian]
      omega
  | appendResp term success matchIndex =>
    obtain ⟨hterm, hmatch⟩ := hrange
    rw [RaftMsg.encode, readNat_append (by decide), readNat_append hterm, if_neg (by decide),
      if_neg (by decide), if_neg (by decide), if_pos rfl, decodeAppendResp, if_neg,
      readNat_append (hbool success), readNat_end hmatch, hflag]
    simp only [length_append, length_bigEndian]
    decide

/-- The reader stays inside the buffer, and what it reads has the property. -/
def Inside {β : Type} (p : β → Prop) (out : Option (Option β)) : Prop :=
  ∃ r, out = some r ∧ ∀ b ∈ r, p b

theorem inside_reject (p : β → Prop) : Inside p (some none) :=
  ⟨none, rfl, fun _ h => by cases h⟩

theorem inside_accept {b : β} (h : p b) : Inside p (some (some b)) := by
  refine ⟨some b, rfl, ?_⟩
  rintro _ ⟨⟩
  exact h

theorem inside_readNat {n : ℕ} {rest : Bytes} {next : ℕ → Bytes → Option (Option β)}
    (hlen : n ≤ rest.length)
    (h : ∀ v rest', v < 256 ^ n → rest'.length = rest.length - n → Inside p (next v rest')) :
    Inside p (readNat n rest next) := by
  rw [readNat, if_neg (by omega)]
  apply h
  · have hlt := fromBigEndian_lt (rest.take n)
    rwa [length_take_of_le hlen] at hlt
  · exact length_drop

theorem inside_decodeEntries (n : ℕ) (rest : Bytes) {ents : List RaftEntry}
    (h : ∀ e ∈ ents, e.Small) :
    Inside (fun out => out.length = ents.length + n ∧ ∀ e ∈ out, e.Small)
      (decodeEntries n rest ents) := by
  induction n generalizing rest ents with
  | zero => exact inside_accept ⟨rfl, h⟩
  | succ n ih =>
    rw [decodeEntries]
    split_ifs with hlen
    · exact inside_reject _
    refine inside_readNat (by omega) fun term rest₁ _ h₁ => ?_
    refine inside_readNat (by omega) fun index rest₂ _ h₂ => ?_
    refine inside_readNat (by omega) fun type rest₃ _ h₃ => ?_
    refine inside_readNat (by omega) fun el rest₄ _ h₄ => ?_
    by_cases hel : raftEntryMax < el ∨ rest₄.length < el
    · rw [if_pos hel]
      exact inside_reject _
    · rw [if_neg hel]
      have hents : ∀ e ∈ ents ++ [⟨term, index, if type = 0 then .normal else .noop,
          rest₄.take el⟩], RaftEntry.Small e := by
        intro e he
        rcases mem_append.mp he with he | he
        · exact h e he
        · rw [mem_singleton.mp he]
          have htake : (rest₄.take el).length ≤ el := length_take_le _ _
          exact htake.trans (by omega)
      have hrest := ih (rest₄.drop el) hents
      rwa [length_append, length_singleton, Nat.add_assoc, Nat.add_comm 1 n] at hrest

theorem inside_decodeAppend (term : ℕ) (rest : Bytes) :
    Inside RaftMsg.Small (decodeAppend term rest) := by
  unfold decodeAppend
  split_ifs with hlen
  · exact inside_reject _
  refine inside_readNat (by omega) fun leaderId rest₁ _ h₁ => ?_
  refine inside_readNat (by omega) fun prevLogIndex rest₂ _ h₂ => ?_
  refine inside_readNat (by omega) fun prevLogTerm rest₃ _ h₃ => ?_
  refine inside_readNat (by omega) fun leaderCommit rest₄ _ h₄ => ?_
  refine inside_readNat (by omega) fun n rest₅ _ h₅ => ?_
  split_ifs with hn
  · exact inside_reject _
  · obtain ⟨r, hr, hents⟩ := inside_decodeEntries n rest₅ (forall_mem_nil _)
    rw [hr]
    cases r with
    | none => exact inside_reject _
    | some ents =>
      obtain ⟨hcount, hsmall⟩ := hents ents rfl
      rw [length_nil, Nat.zero_add] at hcount
      exact inside_accept ⟨by omega, hsmall⟩

theorem inside_decodeRaft (buf : Bytes) : Inside RaftMsg.Small (decodeRaft buf) := by
  unfold decodeRaft
  split_ifs with hlen
  · exact inside_reject _
  refine inside_readNat (by omega) fun type rest₁ _ h₁ => ?_
  refine inside_readNat (by omega) fun term rest₂ _ h₂ => ?_
  split_ifs
  · unfold decodeRequestVote
    split_ifs with hvote
    · exact inside_reject _
    refine inside_readNat (by omega) fun preVote rest₃ hpre h₃ => ?_
    refine inside_readNat (by omega) fun candidateId rest₄ _ h₄ => ?_
    refine inside_readNat (by omega) fun lastLogIndex rest₅ _ h₅ => ?_
    refine inside_readNat (by omega) fun lastLogTerm rest₆ _ _ => ?_
    exact inside_accept hpre
  · unfold decodeRequestVoteResp
    split_ifs with hvote
    · exact inside_reject _
    refine inside_readNat (by omega) fun preVote rest₃ hpre h₃ => ?_
    refine inside_readNat (by omega) fun voteGranted rest₄ _ _ => ?_
    exact inside_accept hpre
  · exact inside_decodeAppend term rest₂
  · unfold decodeAppendResp
    split_ifs with happend
    · exact inside_reject _
    refine inside_readNat (by omega) fun success rest₃ _ h₃ => ?_
    refine inside_readNat (by omega) fun matchIndex rest₄ _ _ => ?_
    exact inside_accept trivial
  · exact inside_reject _

def SendsSmall (effects : List RaftEffect) : Prop :=
  ∀ dest m, .send dest m ∈ effects → m.Small

theorem sendsSmall_append {xs ys : List RaftEffect} (hx : SendsSmall xs) (hy : SendsSmall ys) :
    SendsSmall (xs ++ ys) := by
  intro dest m h
  rcases mem_append.mp h with h | h
  · exact hx dest m h
  · exact hy dest m h

theorem sendsSmall_singleton {dest : RaftNodeId} (h : m.Small) : SendsSmall [.send dest m] := by
  intro dest' m' hm
  cases mem_singleton.mp hm
  exact h

theorem sendsSmall_nil : SendsSmall [] := fun _ _ h => by cases h

namespace Raft
variable {r : Raft}

def LogSmall (r : Raft) : Prop := ∀ e ∈ r.log, e.Small

theorem sendsSmall_broadcastVote (r : Raft) {preVote : ℕ} (hpre : preVote < 256) (term : ℕ) :
    SendsSmall (r.broadcastVote preVote term) := by
  intro dest m hm
  obtain ⟨x, -, hx⟩ := mem_map.mp hm
  cases hx
  exact hpre

theorem small_sendAppend (h : LogSmall r) (m : RaftMember) : SendsSmall [r.sendAppend m] := by
  apply sendsSmall_singleton
  refine ⟨?_, ?_⟩
  · split_ifs
    · exact length_take_le _ _
    · exact Nat.zero_le _
  · intro e he
    split_ifs at he
    · exact h e (mem_of_mem_drop (mem_of_mem_take he))
    · cases he

theorem sendsSmall_broadcastAppend (h : LogSmall r) : SendsSmall r.broadcastAppend := by
  intro dest m hm
  obtain ⟨x, -, hx⟩ := mem_map.mp hm
  exact small_sendAppend h x dest m (mem_singleton.mpr hx.symm)

theorem sendsSmall_applyLoop (n : ℕ) (r : Raft) : SendsSmall (applyLoop n r).2 :=
  fun _ _ hm => absurd hm (r.applyLoop_no_send n)

theorem logSmall_appendOwn (h : LogSmall r) (type : RaftEntryType) {data : List UInt8}
    (hdata : data.length ≤ raftEntryMax) : LogSmall (r.appendOwn type data) := by
  intro e he
  rcases mem_append.mp he with he | he
  · exact h e he
  · rw [mem_singleton.mp he]
    exact hdata

theorem sendsSmall_becomeLeader (h : LogSmall r) : SendsSmall r.becomeLeader.2 := by
  apply sendsSmall_broadcastAppend
  split_ifs
  · exact logSmall_appendOwn h _ (Nat.zero_le _)
  · exact h

theorem sendsSmall_startElection (h : LogSmall r) : SendsSmall r.startElection.2 := by
  rw [startElection_eq]
  split_ifs
  · exact sendsSmall_nil
  · exact sendsSmall_becomeLeader h
  · exact sendsSmall_broadcastVote _ (by decide) _

theorem Outcome.sendsSmall {e : ClusterEvent} {out : Raft × List RaftEffect}
    (hout : r.Outcome e out) (h : LogSmall r)
    (he : ∀ packet, e = .deliver packet → packet.msg.Small) : SendsSmall out.2 := by
  cases hout with
  | answered => exact sendsSmall_singleton (he _ rfl)
  | refused | granted => exact sendsSmall_singleton (Nat.zero_lt_succ 255)
  | outdated | counted | overtaken | ignored | declined | quiet => exact sendsSmall_nil
  | won => exact sendsSmall_broadcastVote _ (by decide) _
  | elected => exact sendsSmall_becomeLeader (r := r.flagged _) h
  | overdue | missed => exact sendsSmall_singleton trivial
  | taken =>
    refine sendsSmall_append (fun _ _ hm => ?_) (sendsSmall_singleton trivial)
    exact absurd hm (takeCommit_no_send _)
  | acked | waited => exact sendsSmall_applyLoop _ _
  | backed _ _ _ hr' =>
    subst hr'
    exact small_sendAppend (r := r.updateMember _ _) h _
  | proposed _ hfits =>
    exact sendsSmall_append (sendsSmall_broadcastAppend (logSmall_appendOwn h _ hfits))
      (sendsSmall_applyLoop _ _)
  | beat _ hr' =>
    subst hr'
    exact sendsSmall_broadcastAppend h
  | started =>
    exact sendsSmall_append (sendsSmall_startElection (r := r.advanceTimers _) h)
      (sendsSmall_applyLoop _ _)

end Raft

def frameRaft : UInt8 := 1

def raftFrame (m : RaftMsg) : Option Bytes :=
  (encodeRaft m raftFrameMax).map fun bytes => frameRaft :: bytes

/-- A message of the core fits its frame and is read back, and the decoder makes of any bytes a
small message or none, without reading past the end. -/
theorem wire_codec :
    (∀ r : Raft, r.LogSmall → ∀ e : ClusterEvent,
      (∀ packet, e = .deliver packet → packet.msg.Small) →
      ∀ dest m, .send dest m ∈ (Cluster.call r e).2 → m.InRange →
        ∃ bytes, raftFrame m = some (frameRaft :: bytes) ∧ bytes.length ≤ raftFrameMax ∧
          (frameRaft :: bytes).length ≤ norndFrameMax ∧ decodeRaft bytes = some (some m)) ∧
    ∀ buf, ∃ out, decodeRaft buf = some out ∧ ∀ m ∈ out, m.Small := by
  refine ⟨?_, inside_decodeRaft⟩
  intro r hr e he dest m hm hrange
  have hsmall := (r.outcome_call e).sendsSmall hr he dest m hm
  have hlen := RaftMsg.length_encode_le hsmall
  refine ⟨m.encode, ?_, hlen, ?_, decodeRaft_encode hsmall hrange⟩
  · rw [raftFrame, encodeRaft, if_neg (by omega)]
    rfl
  · have hmax : raftFrameMax + 1 ≤ norndFrameMax := by decide
    rw [length_cons]
    omega

def beatingLeader : Raft where
  self := 1
  cfg := ⟨150, 150, 50⟩
  currentTerm := 1
  votedFor := 1
  log := [⟨1, 1, .normal, [7]⟩]
  role := .leader
  leader := 1
  commitIndex := 0
  lastApplied := 0
  now := 0
  electionElapsed := 0
  heartbeatElapsed := 0
  inPreVote := 0
  members := [⟨1, .voter, true, 2, 1, false⟩, ⟨2, .voter, true, 1, 0, false⟩]

theorem beatingLeader_read_back :
    ∃ bytes, raftFrame (.append 1 1 0 0 [⟨1, 1, .normal, [7]⟩] 0) = some (frameRaft :: bytes) ∧
      bytes.length ≤ raftFrameMax ∧ (frameRaft :: bytes).length ≤ norndFrameMax ∧
      decodeRaft bytes = some (some (.append 1 1 0 0 [⟨1, 1, .normal, [7]⟩] 0)) := by
  refine wire_codec.1 beatingLeader ?_ (.tick 1 50) (fun packet h => by cases h) 2 _ (by decide) ?_
  · intro e he
    rw [mem_singleton.mp he]
    exact (show 1 ≤ raftEntryMax by decide)
  · refine ⟨by decide, by decide, by decide, by decide, by decide, ?_⟩
    intro e he
    rw [mem_singleton.mp he]
    decide

end Norn
