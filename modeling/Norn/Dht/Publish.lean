import Norn.Dht.BencodeRoundTrip
import Norn.Dht.Lookup

/-!
# Publishing an item

The lookup behind a put has no time to ask anybody, so nothing is sent.
-/

namespace Norn
open List Option
variable {target value : Bytes} {cand : List LookCand} {C : DhtCrypto}

theorem mem_lookShift {new c : LookCand} (h : c ∈ lookShift target new cand) :
    c = new ∨ c ∈ cand := by
  unfold lookShift at h
  dsimp only at h
  generalize lookPlace target new cand cand.length = place at h
  split_ifs at h
  · rw [mem_append, mem_cons] at h
    rcases h with h | h | h
    · exact .inr (mem_of_mem_take h)
    · exact .inl h
    · exact .inr (mem_of_mem_drop h)
  · have h := mem_of_mem_take h
    rw [mem_append, mem_append] at h
    rcases h with (h | h) | h
    · exact .inr (mem_of_mem_take h)
    · exact .inr (mem_of_getElem? (mem_toList.mp h))
    · exact .inr (mem_of_mem_drop h)

theorem token_of_mem_lookInsert {nodes : List MainlineNode} {id : Bytes} {ip port : ℕ}
    (hcand : ∀ c ∈ cand, c.token = none) :
    ∀ c ∈ lookInsert nodes target id ip port cand, c.token = none := by
  have hshift : ∀ cand' : List LookCand, (∀ c ∈ cand', c ∈ cand) →
      ∀ c ∈ lookShift target ⟨id, ip, port, none, false, lookPreferred nodes id⟩ cand',
        c.token = none := by
    intro cand' hsub c hc
    rcases mem_lookShift hc with rfl | hc
    · rfl
    · exact hcand c (hsub c hc)
  unfold lookInsert
  dsimp only
  split_ifs
  · exact hcand
  · exact hcand
  · cases cand.getLast? with
    | none => exact hshift cand fun _ h => h
    | some far =>
      dsimp only
      split_ifs
      · exact hcand
      · exact hshift _ fun _ => mem_of_mem_dropLast
  · exact hshift cand fun _ h => h

theorem token_of_mem_lookStart (nodes : List MainlineNode) (target : Bytes) :
    ∀ c ∈ lookStart nodes target, c.token = none := by
  refine foldlRecOn (motive := fun cand => ∀ c ∈ cand, LookCand.token c = none) nodes _ ?_ ?_
  · intro c hc
    cases hc
  · intro cand hcand n _
    exact token_of_mem_lookInsert hcand

section
variable (C : DhtCrypto) (now : ℤ) (s : MainlineState) {args : LookupArgs}

theorem lookRounds_of_timeout (h : args.timeoutMs = 0) (rounds : List LookRound) (t : LookState) :
    lookRounds C now s args rounds t = t := by
  cases rounds with
  | nil => rfl
  | cons round rounds =>
    rw [lookRounds, if_pos]
    rw [h]
    exact Int.natCast_nonneg _

theorem lookPuts_of_token (k v sig : Bytes) (h : ∀ c ∈ cand, c.token = none) (budget : ℕ) :
    lookPuts s args k v sig budget cand = [] := by
  cases budget with
  | zero => rw [lookPuts]
  | succ budget =>
    induction cand with
    | nil => rfl
    | cons c cand ih =>
      rw [lookPuts, h c mem_cons_self]
      exact ih fun c hc => h c (mem_cons_of_mem _ hc)

theorem lookPutPhase_of_token (h : ∀ c ∈ cand, c.token = none) : lookPutPhase s args cand = [] := by
  unfold lookPutPhase
  split
  · split_ifs
    · exact lookPuts_of_token s _ _ _ h lookK
    · rfl
  · rfl

theorem sent_of_timeout (h : args.timeoutMs = 0) (rounds : List LookRound) (recs : List RecItem) :
    (mainlineLookupMutable C now s args rounds recs).2.sent = [] := by
  unfold mainlineLookupMutable
  dsimp only
  by_cases hnil : lookStart s.nodes args.target = []
  · rw [if_pos hnil]
  · rw [if_neg hnil]
    dsimp only
    rw [lookRounds_of_timeout C now s h,
      lookPutPhase_of_token s (token_of_mem_lookStart s.nodes args.target)]
    rfl

end

theorem timeout_nornPutMutableSalt {pubkey secret salt : Bytes} {seq : ℕ} {args : LookupArgs}
    (h : nornPutMutableSalt C pubkey secret value seq salt = some args) : args.timeoutMs = 0 := by
  unfold nornPutMutableSalt at h
  split_ifs at h
  split at h
  · cases h
  · cases h
    rfl

theorem timeout_nornPutImmutable {args : LookupArgs} (h : nornPutImmutable C value = some args) :
    args.timeoutMs = 0 := by
  unfold nornPutImmutable at h
  split_ifs at h
  obtain ⟨target, -, rfl⟩ := map_eq_some_iff.mp h
  rfl

/-- Neither call sends anything, whatever the network does. -/
theorem publish_sends_nothing (C : DhtCrypto) (now : ℤ) (s : MainlineState)
    (pubkey secret value salt : Bytes) (seq : ℕ) (rounds : List LookRound) (recs : List RecItem) :
    (∀ args, nornPutMutableSalt C pubkey secret value seq salt = some args →
      (mainlineLookupMutable C now s args rounds recs).2.sent = []) ∧
    ∀ args, nornPutImmutable C value = some args →
      (mainlineLookupMutable C now s args rounds recs).2.sent = [] := by
  constructor
  · intro args hargs
    exact sent_of_timeout C now s (timeout_nornPutMutableSalt hargs) rounds recs
  · intro args hargs
    exact sent_of_timeout C now s (timeout_nornPutImmutable hargs) rounds recs

def toyCrypto : DhtCrypto where
  sha1 m := (m ++ .replicate 20 0).take 20
  sign _ m := (m ++ .replicate 64 0).take 64
  verify sig m _ := sig == (m ++ .replicate 64 0).take 64
  length_sha1 m := by simp
  length_sign _ m := by simp

def lonelyNode : MainlineState where
  selfId := .replicate 20 1
  selfPub := none
  selfAccount := none
  selfVersion := none
  selfPv := []
  selfApp := []
  readOnly := false
  nodes := [⟨.replicate 20 2, 1, 1, 0, [], [], false, none⟩]
  transactions := []
  nextTransactionId := 0
  served := []
  token _ _ := [0, 0, 0, 0]
  external := none
  store := dhtstoreInit 1048576
  sent := []
  observed := []

theorem lonelyNode_sends_nothing :
    ∃ args, nornPutMutableSalt toyCrypto (.replicate 32 3) [] [7] 1 [5] = some args ∧
      (mainlineLookupMutable toyCrypto 0 lonelyNode args
        [⟨0, [⟨0, some ⟨text "d1:rd5:token4:abcde1:t2:mg1:y1:re".toList, 1, 1⟩⟩]⟩] []).2.sent = [] :=
  ⟨_, rfl, by decide +kernel⟩

structure PutCall where
  pubkey : Bytes
  secret : Bytes
  value : Bytes
  seq : ℕ
  salt : Bytes
  length_pubkey : pubkey.length = 32
  value_pos : 0 < value.length
  value_le : value.length ≤ 1000
  seq_lt : seq < 2 ^ 32
  salt_le : salt.length ≤ bep44MaxSalt

namespace PutCall
variable (C : DhtCrypto) (p : PutCall)

def signature : Bytes := C.sign p.secret (valueBytes p.seq p.value)

def args : LookupArgs :=
  ⟨lookupTarget C p.pubkey p.salt, true, some p.pubkey, p.seq, some p.value, some (p.signature C),
    p.salt, false, none, 0⟩

theorem nornPutMutableSalt_eq :
    nornPutMutableSalt C p.pubkey p.secret p.value p.seq p.salt = some (p.args C) := by
  have hle := p.value_le
  rw [nornPutMutableSalt, if_neg (by omega), bep44Signbuf_eq_some p.seq_lt p.value_le (by decide)]
  rfl

def argsDict (selfId token : Bytes) : Bencode :=
  .dict ([(text ['i', 'd'], .str selfId)] ++
    ([(text ['k'], Bencode.str p.pubkey), (text ['s', 'i', 'g'], .str (p.signature C))] ++
      (if p.salt.length = 0 then [] else [(text "salt".toList, .str p.salt)]) ++
      [(text ['s', 'e', 'q'], .int p.seq)]) ++
    [(text ['v'], .str p.value), (text "token".toList, .str token)])

def message (selfId token : Bytes) : Bencode :=
  .dict [(text ['t'], .str (text ['m', 'p'])), (text ['y'], .str (text ['q'])),
    (text ['q'], .str (text ['p', 'u', 't'])), (text ['a'], p.argsDict C selfId token)]

variable {token : Bytes} (s : MainlineState)

theorem lookPutPhase_eq (c : LookCand) (hc : c.token = some token) :
    lookPutPhase s (p.args C) [c] = [⟨(p.message C s.selfId token).encode, c.ip, c.port⟩] := by
  change lookPuts s (p.args C) p.pubkey p.value (p.signature C) lookK [c] = _
  rw [lookK, lookPuts, hc]
  dsimp only
  rw [lookPuts]
  rfl

theorem plain_argsDict {selfId : Bytes} (hid : selfId.length = 20)
    (htoken : token.length ≤ lookTokenMax) : Bencode.Plain 31 (p.argsDict C selfId token) := by
  have hseq := p.seq_lt
  have hvalue := p.value_le
  have hsalt := p.salt_le
  have hkey := p.length_pubkey
  have hsig : (p.signature C).length = 64 := C.length_sign _ _
  unfold lookTokenMax at htoken
  unfold bep44MaxSalt at hsalt
  have hnil : ∀ e ∈ ([] : List (Bytes × Bencode)), Bencode.PlainKey e.1 ∧ Bencode.Plain 30 e.2 :=
    forall_mem_nil _
  apply Bencode.Plain.dict
  refine forall_mem_append.mpr ⟨forall_mem_append.mpr ⟨?_, ?_⟩, ?_⟩
  · exact Bencode.plainEntries_cons (by decide) (.str 30 (by omega)) hnil
  · refine forall_mem_append.mpr ⟨forall_mem_append.mpr ⟨?_, ?_⟩, ?_⟩
    · exact Bencode.plainEntries_cons (by decide) (.str 30 (by omega))
        (Bencode.plainEntries_cons (by decide) (.str 30 (by omega)) hnil)
    · split_ifs
      · exact hnil
      · exact Bencode.plainEntries_cons (by decide) (.str 30 (by omega)) hnil
    · exact Bencode.plainEntries_cons (by decide) (.int 30 (by omega) (by omega)) hnil
  · exact Bencode.plainEntries_cons (by decide) (.str 30 (by omega))
      (Bencode.plainEntries_cons (by decide) (.str 30 (by omega)) hnil)

theorem bencodeDecode_message {selfId : Bytes} (hid : selfId.length = 20)
    (htoken : token.length ≤ lookTokenMax) :
    (Bencode.bencodeDecode (p.message C selfId token).encode 0).1 =
      some (p.message C selfId token) := by
  have hplain : Bencode.Plain Bencode.maxDepth (p.message C selfId token) := by
    apply Bencode.Plain.dict
    refine Bencode.plainEntries_cons (by decide) (.str 31 (by decide))
      (Bencode.plainEntries_cons (by decide) (.str 31 (by decide))
      (Bencode.plainEntries_cons (by decide) (.str 31 (by decide))
        (Bencode.plainEntries_cons (by decide) ?_ (forall_mem_nil _))))
    exact p.plain_argsDict C hid htoken
  have hdecode := Bencode.bencodeDecode_encode hplain []
  rw [append_nil] at hdecode
  exact congrArg Prod.fst hdecode

theorem getText_salt (selfId token : Bytes) :
    (p.argsDict C selfId token).getText ['s', 'a', 'l', 't'] =
      if p.salt.length = 0 then none else some p.salt := by
  unfold argsDict
  by_cases hsalt : p.salt.length = 0
  · rw [if_pos hsalt, if_pos hsalt]
    rfl
  · rw [if_neg hsalt, if_neg hsalt]
    rfl

theorem signedPut_argsDict (now : ℤ) (selfId token : Bytes) (ip : ℕ) :
    s.signedPut now (p.argsDict C selfId token) ip =
      if s.serveTokenValid now ip token then
        some ⟨p.pubkey, p.signature C, p.seq, p.value,
          if p.salt.length = 0 then none else some p.salt⟩
      else none := by
  have hfields : (p.argsDict C selfId token).getText ['k'] = some p.pubkey ∧
      (p.argsDict C selfId token).getText ['s', 'i', 'g'] = some (p.signature C) ∧
      (p.argsDict C selfId token).getInt ['s', 'e', 'q'] = some (p.seq : ℤ) ∧
      (p.argsDict C selfId token).getText ['v'] = some p.value ∧
      (p.argsDict C selfId token).getText ['t', 'o', 'k', 'e', 'n'] = some token := by
    unfold argsDict
    by_cases hsalt : p.salt.length = 0
    · rw [if_pos hsalt]
      exact ⟨rfl, rfl, rfl, rfl, rfl⟩
    · rw [if_neg hsalt]
      exact ⟨rfl, rfl, rfl, rfl, rfl⟩
  obtain ⟨hk, hsig, hseq, hv, htoken⟩ := hfields
  have hsalt : ((p.argsDict C selfId token).getText ['s', 'a', 'l', 't']).filter (·.length ≤ 64) =
      if p.salt.length = 0 then none else some p.salt := by
    rw [p.getText_salt C selfId token]
    split_ifs
    · rfl
    · exact filter_some_pos (decide_eq_true p.salt_le)
  unfold MainlineState.signedPut MainlineState.tokenOk
  rw [hk, hsig, hseq, hv, htoken]
  dsimp only
  rw [hsalt]
  simp only [p.length_pubkey, show (p.signature C).length = 64 from C.length_sign _ _, p.value_pos,
    any_some, true_and]

theorem store_answerPut_argsDict (now : ℤ) (selfId token : Bytes) (ip : ℕ) :
    (s.answerPut C now (p.argsDict C selfId token) ip).2.store =
      if s.serveTokenValid now ip token then
        (dhtstorePut C now
          (if p.salt.length = 0 then bep44Target C p.pubkey else bep44TargetSalted C p.pubkey p.salt)
          p.pubkey p.seq p.value (p.signature C) p.salt ip s.store).2
      else s.store := by
  unfold MainlineState.answerPut
  rw [p.signedPut_argsDict C]
  by_cases hvalid : s.serveTokenValid now ip token = true
  · rw [if_pos hvalid, if_pos hvalid]
    have hseq : MainlineState.seqOf (p.seq : ℤ) = p.seq := by
      have hlt := p.seq_lt
      unfold MainlineState.seqOf
      omega
    dsimp only
    rw [hseq]
    by_cases hsalt : p.salt.length = 0
    · rw [if_pos hsalt, if_pos hsalt, length_eq_zero_iff.mp hsalt]
      rfl
    · rw [if_neg hsalt, if_neg hsalt]
      rfl
  · rw [if_neg hvalid, if_neg hvalid]
    have hkey : (p.argsDict C selfId token).dictGet (text ['k']) = some (.str p.pubkey) := by
      unfold argsDict
      rfl
    dsimp only
    rw [hkey]

theorem target_nornGetMutableSalt :
    (nornGetMutableSalt C p.pubkey p.salt).target =
      if p.salt.length = 0 then C.sha1 (ascii 'k' :: p.pubkey)
      else bep44TargetSalted C p.pubkey p.salt := rfl

end PutCall

theorem store_learnSender (s : MainlineState) (now : ℤ) (msg d : Bencode) (ip port : ℕ) :
    (s.learnSender now msg d ip port).store = s.store := by
  obtain ⟨nodes, heq⟩ := s.learnSender_eq now msg ip port d
  rw [heq]

namespace PutCall
variable {C : DhtCrypto} {p : PutCall}

theorem target_ne_of_dhtstorePut (now : ℤ) (ip : ℕ) {s : DhtStore} (hs : s.items = [])
    (hsha : C.sha1 p.pubkey ≠ C.sha1 (ascii 'k' :: p.pubkey))
    (hsign : p.salt ≠ [] → C.verify (p.signature C)
      (saltBytes p.salt ++ valueBytes p.seq p.value) p.pubkey = false) :
    ∀ e ∈ (dhtstorePut C now
        (if p.salt.length = 0 then bep44Target C p.pubkey else bep44TargetSalted C p.pubkey p.salt)
        p.pubkey p.seq p.value (p.signature C) p.salt ip s).2.items,
      e.target ≠ (nornGetMutableSalt C p.pubkey p.salt).target := by
  rcases dhtstorePut_cases C now
      (if p.salt.length = 0 then bep44Target C p.pubkey else bep44TargetSalted C p.pubkey p.salt)
      p.pubkey p.seq p.value (p.signature C) p.salt ip s with h | ⟨hverify, -, -, -, h⟩
  · rw [h, hs]
    exact forall_mem_nil _
  by_cases hsalt : p.salt = []
  · rw [h]
    intro e he
    rcases DhtStore.items_storeItem_of_nil hs now _ with hnil | hone
    · rw [hnil] at he
      cases he
    · rw [hone, mem_singleton] at he
      rw [he, target_nornGetMutableSalt, hsalt]
      exact hsha
  · rw [hsign hsalt] at hverify
    cases hverify

end PutCall

/-- The item lies under another target, or was rejected if it has a salt. -/
theorem put_not_stored_where_read {C : DhtCrypto} {p : PutCall}
    (hsha : C.sha1 p.pubkey ≠ C.sha1 (ascii 'k' :: p.pubkey))
    (hsign : p.salt ≠ [] → C.verify (p.signature C)
      (saltBytes p.salt ++ valueBytes p.seq p.value) p.pubkey = false)
    {client node : MainlineState} (hid : client.selfId.length = 20) {c : LookCand} {token : Bytes}
    (htoken : c.token = some token) (hlen : token.length ≤ lookTokenMax)
    (hempty : node.store.items = []) (now : ℤ) (ip port : ℕ) :
    ∀ args, nornPutMutableSalt C p.pubkey p.secret p.value p.seq p.salt = some args →
      ∀ d ∈ lookPutPhase client args [c],
        ∀ e ∈ (mainlineProcessPacket C now ⟨d.data, ip, port⟩ node).store.items,
          e.target ≠ (nornGetMutableSalt C p.pubkey p.salt).target := by
  intro args hargs d hd
  rw [p.nornPutMutableSalt_eq C, some_inj] at hargs
  rw [← hargs, p.lookPutPhase_eq C client c htoken, mem_singleton] at hd
  have hnone : ∀ e ∈ node.store.items,
      e.target ≠ (nornGetMutableSalt C p.pubkey p.salt).target := by
    rw [hempty]
    exact forall_mem_nil _
  rw [hd]
  unfold mainlineProcessPacket
  rw [p.bencodeDecode_message C hid hlen]
  change ∀ e ∈ (node.processQuery C now (p.message C client.selfId token) ip port).store.items, _
  unfold MainlineState.processQuery
  by_cases hro : node.readOnly = true
  · rw [if_pos hro]
    exact hnone
  rw [if_neg hro]
  change ∀ e ∈ ((node.learnSender now (p.message C client.selfId token)
    (p.argsDict C client.selfId token) ip port).answerPut C now
      (p.argsDict C client.selfId token) ip).2.store.items, _
  have hstore := store_learnSender node now (p.message C client.selfId token)
    (p.argsDict C client.selfId token) ip port
  generalize node.learnSender now (p.message C client.selfId token)
    (p.argsDict C client.selfId token) ip port = node' at hstore ⊢
  rw [p.store_answerPut_argsDict C, hstore]
  by_cases hvalid : node'.serveTokenValid now ip token = true
  · rw [if_pos hvalid]
    exact PutCall.target_ne_of_dhtstorePut now ip hempty hsha hsign
  · rw [if_neg hvalid]
    exact hnone

def shortPut (salt : Bytes) (h : salt.length ≤ bep44MaxSalt) : PutCall where
  pubkey := .replicate 32 3
  secret := []
  value := [7]
  seq := 1
  salt := salt
  length_pubkey := by decide
  value_pos := by decide
  value_le := by decide
  seq_lt := by decide
  salt_le := h

def tokenCand : LookCand := ⟨.replicate 20 2, 1, 1, some [0, 0, 0, 0], true, false⟩

theorem shortPut_not_stored_where_read :
    ∃ args d, nornPutMutableSalt toyCrypto (.replicate 32 3) [] [7] 1 [5] = some args ∧
      lookPutPhase lonelyNode args [tokenCand] = [d] ∧
      ∀ e ∈ (mainlineProcessPacket toyCrypto 0 ⟨d.data, 1, 1⟩ lonelyNode).store.items,
        e.target ≠ (nornGetMutableSalt toyCrypto (.replicate 32 3) [5]).target :=
  ⟨_, _, rfl, rfl, put_not_stored_where_read (p := shortPut [5] (by decide)) (by decide)
    (fun _ => by decide) (by decide : lonelyNode.selfId.length = 20)
    (rfl : tokenCand.token = some [0, 0, 0, 0]) (by decide) (rfl : lonelyNode.store.items = [])
    0 1 1 _ rfl _ mem_cons_self⟩

theorem shortPut_stored_elsewhere :
    lonelyNode.serveTokenValid 0 1 [0, 0, 0, 0] = true ∧
    toyCrypto.verify (toyCrypto.sign [] (valueBytes 1 [7])) (valueBytes 1 [7]) (.replicate 32 3) =
      true ∧
    ∃ args d, nornPutMutableSalt toyCrypto (.replicate 32 3) [] [7] 1 [] = some args ∧
      lookPutPhase lonelyNode args [tokenCand] = [d] ∧
      (mainlineProcessPacket toyCrypto 0 ⟨d.data, 1, 1⟩ lonelyNode).store.items.map DhtItem.target =
        [.replicate 20 3] ∧
      (nornGetMutableSalt toyCrypto (.replicate 32 3) []).target = ascii 'k' :: .replicate 19 3 :=
  ⟨by decide, by decide, _, _, rfl, rfl, by decide +kernel, by decide⟩

end Norn
