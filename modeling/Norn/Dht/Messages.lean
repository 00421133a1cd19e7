import Norn.Dht.Publish

/-!
# The messages of a DHT node

Every message is built with its transaction and type first (`norn.c`).
-/

namespace Norn
open List hiding keys
namespace Bencode

def keys : Bencode → List Bytes
  | dict entries => entries.map fun e => cString e.1
  | _ => []

def KeysIncrease (d : Bencode) : Prop := d.keys.Pairwise (· < ·)

def parts (m : Bencode) : List Bencode :=
  m :: ((m.getDict ['a']).toList ++ (m.getDict ['r']).toList)

/-- The keys of all dictionaries in the message are in order. -/
def WellOrdered (m : Bencode) : Prop := ∀ d ∈ m.parts, d.KeysIncrease

theorem not_keysIncrease {d : Bencode} {x y : Bytes} (h : [x, y].Sublist d.keys) (hlt : ¬ x < y) :
    ¬ d.KeysIncrease := by
  intro hincr
  have hpair := hincr.sublist h
  rw [pairwise_pair] at hpair
  exact hlt hpair

theorem not_wellOrdered {m : Bencode} (h : ¬ m.KeysIncrease) : ¬ m.WellOrdered :=
  fun hwell => h (hwell m mem_cons_self)

end Bencode

open Bencode
namespace MainlineState

def findNodeQuery (s : MainlineState) (target : Bytes) : Bencode :=
  s.taggedQuery (bigEndian 4 s.nextTransactionId) (text "find_node".toList)
    ([(text ['i', 'd'], .str s.selfId), (text "target".toList, .str target)] ++
      (if s.selfPv = [] then [] else [(text ['p', 'v'], .str s.selfPv)]) ++
      (s.selfPub.map fun pk => (text ['p', 'k'], Bencode.str pk)).toList)

def mainlineFindNode (now : ℤ) (target : Bytes) (ip port : ℕ) (sends : Bool) (s : MainlineState) :
    MainlineState :=
  if sends then
    { s with
      sent := s.sent ++ [⟨(s.findNodeQuery target).encode, ip, port⟩]
      transactions :=
        if s.transactions.length < mainlineMaxTransactions then
          s.transactions ++ [⟨s.nextTransactionId, now, target.take 20 ++ .replicate 12 0⟩]
        else s.transactions
      nextTransactionId := (s.nextTransactionId + 1) % 2 ^ 32 }
  else s

def lookBuildFindNode (s : MainlineState) (target tid : Bytes) : Bencode :=
  s.taggedQuery tid (text "find_node".toList)
    [(text ['i', 'd'], .str s.selfId), (text "target".toList, .str target)]

end MainlineState

inductive DhtQuery
  | findNode (target : Bytes)
  | lookGetPeers (infoHash tid : Bytes)
  | lookAnnounce (infoHash : Bytes) (port : ℕ) (token tid : Bytes)
  | lookGetMutable (target tid : Bytes)
  | lookPutMutable (k : Option Bytes) (seq : ℕ) (sig v salt token tid : Bytes)
  | lookFindNode (target tid : Bytes)

def DhtQuery.message (s : MainlineState) : DhtQuery → Bencode
  | findNode target => s.findNodeQuery target
  | lookGetPeers infoHash tid => lookBuildGetPeers s infoHash tid
  | lookAnnounce infoHash port token tid => lookBuildAnnounce s infoHash port token tid
  | lookGetMutable target tid => lookBuildGetMutable s target tid
  | lookPutMutable k seq sig v salt token tid => lookBuildPutMutable s.selfId k seq sig v salt token tid
  | lookFindNode target tid => s.lookBuildFindNode target tid

section
variable (C : DhtCrypto)

def MainlineState.queryReply (s : MainlineState) (now : ℤ) (msg : Bencode) (ip port : ℕ) :
    Option Bencode :=
  if s.readOnly then none
  else
    match msg.getText ['q'], msg.getDict ['a'], msg.getText ['t'] with
    | some q, some a, some t =>
      let out := (s.learnSender now msg a ip port).answer C now q a ip port
      some (out.2.reply t out.1 ip port)
    | _, _, _ => none

def packetReply (now : ℤ) (d : Datagram) (s : MainlineState) : Option Bencode :=
  match (Bencode.bencodeDecode d.data 0).1 with
  | none => none
  | some msg =>
    match msg.getText ['y'] with
    | none => none
    | some y =>
      if cString y ≠ text ['r'] ∧ cString y = text ['q'] then s.queryReply C now msg d.ip d.port
      else none

inductive Emits (s : MainlineState) : Bencode → Prop
  | query (q : DhtQuery) : Emits s (q.message s)
  | reply {now : ℤ} {d : Datagram} {m : Bencode} : packetReply C now d s = some m → Emits s m

end

namespace MainlineState
variable {C : DhtCrypto} {s : MainlineState} (now : ℤ)

theorem sent_learnSender (msg d : Bencode) (ip port : ℕ) :
    (s.learnSender now msg d ip port).sent = s.sent := by
  obtain ⟨nodes, heq⟩ := s.learnSender_eq now msg ip port d
  rw [heq]

theorem sent_answer (q : Bytes) (a : Bencode) (ip port : ℕ) :
    (s.answer C now q a ip port).2.sent = s.sent := by
  obtain ⟨served, store, heq⟩ := s.answer_eq C now ip port q a
  rw [heq]

theorem sent_processQuery (msg : Bencode) (ip port : ℕ) : (s.processQuery C now msg ip port).sent =
      s.sent ++ ((s.queryReply C now msg ip port).map fun m => ⟨m.encode, ip, port⟩).toList := by
  unfold processQuery queryReply
  by_cases hro : s.readOnly = true
  · rw [if_pos hro, if_pos hro]
    exact (append_nil _).symm
  rw [if_neg hro, if_neg hro]
  cases msg.getText ['q'] with
  | none => exact (append_nil _).symm
  | some q =>
    cases msg.getDict ['a'] with
    | none => exact (append_nil _).symm
    | some a =>
      dsimp only
      cases msg.getText ['t'] with
      | none =>
        dsimp only
        rw [sent_learnSender]
        exact (append_nil _).symm
      | some t =>
        dsimp only
        rw [sent_answer, sent_learnSender]
        rfl

theorem sent_processReply (msg : Bencode) (ip port : ℕ) :
    (s.processReply now msg ip port).sent = s.sent := by
  generalize hout : s.processReply now msg ip port = out
  cases replyStep_of_processReply hout with
  | ignored hno | bare t ht hwaiting => rfl
  | told t r observed nodes ht hwaiting hr hnodes => exact sent_learnSender now msg r ip port

end MainlineState

/-- A packet makes a node send its reply and nothing else. -/
theorem sent_mainlineProcessPacket (C : DhtCrypto) (now : ℤ) (d : Datagram) (s : MainlineState) :
    (mainlineProcessPacket C now d s).sent =
      s.sent ++ ((packetReply C now d s).map fun m => ⟨m.encode, d.ip, d.port⟩).toList := by
  unfold mainlineProcessPacket packetReply
  cases (Bencode.bencodeDecode d.data 0).1 with
  | none => exact (append_nil _).symm
  | some msg =>
    dsimp only
    cases msg.getText ['y'] with
    | none => exact (append_nil _).symm
    | some y =>
      dsimp only
      by_cases hr : cString y = text ['r']
      · rw [if_pos hr, if_neg (fun h => h.1 hr), MainlineState.sent_processReply]
        exact (append_nil _).symm
      · rw [if_neg hr]
        by_cases hq : cString y = text ['q']
        · rw [if_pos hq, if_pos ⟨hr, hq⟩, MainlineState.sent_processQuery]
        · rw [if_neg hq, if_neg (fun h => hq h.2)]
          exact (append_nil _).symm

/-- `m` is sent to where the query `d` came from, and it is a reply with the transaction of `d`. -/
def RepliesTo (d m : Datagram) : Prop :=
  m.ip = d.ip ∧ m.port = d.port ∧ ∃ (query : Bencode) (t : Bytes) (reply : Bencode),
    (Bencode.bencodeDecode d.data 0).1 = some query ∧
    (query.getText ['y']).map cString = some (text ['q']) ∧ query.getText ['t'] = some t ∧
    m.data = reply.encode ∧ reply.getText ['t'] = some t ∧ reply.getText ['y'] = some (text ['r'])

theorem repliesTo_of_packetReply {C : DhtCrypto} {now : ℤ} {d : Datagram} {s : MainlineState}
    {m : Bencode} (h : packetReply C now d s = some m) :
    s.readOnly = false ∧ RepliesTo d ⟨m.encode, d.ip, d.port⟩ := by
  unfold packetReply at h
  split at h
  · cases h
  · rename_i query hquery
    split at h
    · cases h
    · rename_i y hy
      split_ifs at h with hq
      unfold MainlineState.queryReply at h
      split_ifs at h with hro
      split at h
      · rename_i q a t hqt ha ht
        refine ⟨by simpa using hro, rfl, rfl, query, t, m, hquery, ?_, ht, rfl, ?_, ?_⟩
        · rw [hy, ← hq.2, Option.map_some]
        all_goals
          rw [← Option.some.inj h]
          rfl
      · cases h

/-- A node replies to some of the queries, once and in their order, and sends nothing else. A
read-only node sends nothing. -/
theorem packets_answered (C : DhtCrypto) (packets : List (ℤ × Datagram)) (s : MainlineState) :
    ∃ queries replies, (packets.foldl (fun s p => mainlineProcessPacket C p.1 p.2 s) s).sent =
        s.sent ++ replies ∧
      queries.Sublist (packets.map Prod.snd) ∧ Forall₂ RepliesTo queries replies ∧
      (s.readOnly = true → replies = []) := by
  induction packets generalizing s with
  | nil => exact ⟨[], [], (append_nil _).symm, nil_sublist _, .nil, fun _ => rfl⟩
  | cons p packets ih =>
    obtain ⟨queries, replies, hsent, hsub, hreplies, hro⟩ := ih (mainlineProcessPacket C p.1 p.2 s)
    have hkeep : (mainlineProcessPacket C p.1 p.2 s).readOnly = s.readOnly := by
      obtain ⟨_, _, _, _, _, _, heq⟩ := MainlineState.processPacket_eq C p.1 p.2 s
      rw [heq]
    rw [sent_mainlineProcessPacket, append_assoc] at hsent
    rw [hkeep] at hro
    cases hreply : packetReply C p.1 p.2 s with
    | none =>
      rw [hreply] at hsent
      exact ⟨queries, replies, hsent, hsub.cons _, hreplies, hro⟩
    | some m =>
      obtain ⟨hfalse, hm⟩ := repliesTo_of_packetReply hreply
      rw [hreply] at hsent
      refine ⟨p.2 :: queries, _ :: replies, hsent, hsub.cons_cons _, .cons hm hreplies, fun h => ?_⟩
      rw [hfalse] at h
      cases h

variable (s : MainlineState)

theorem not_wellOrdered_taggedQuery (tid q : Bytes)
    (args : List (Bytes × Bencode)) : ¬ (s.taggedQuery tid q args).WellOrdered := by
  apply not_wellOrdered
  apply not_keysIncrease (x := text ['y']) (y := text ['q'])
  · simp only [MainlineState.taggedQuery, keys, map_append, map_cons, map_nil]
    have htail : [text ['q']].Sublist [cString (text ['q']), cString (text ['a'])] := by decide
    have hhead : [text ['y']].Sublist [cString (text ['t']), cString (text ['y'])] := by decide
    exact ((hhead.trans (sublist_append_left _ _)).trans
      (sublist_append_left _ _)).append htail
  · decide

theorem not_wellOrdered_message (q : DhtQuery) : ¬ (q.message s).WellOrdered := by
  cases q with
  | findNode target | lookGetPeers infoHash tid | lookAnnounce infoHash port token tid
  | lookGetMutable target tid | lookFindNode target tid => exact not_wellOrdered_taggedQuery s _ _ _
  | lookPutMutable k seq sig v salt token tid =>
    -- a put has no tags
    apply not_wellOrdered
    apply not_keysIncrease (x := text ['y']) (y := text ['q'])
    · exact (by decide : [text ['y'], text ['q']].Sublist [cString (text ['t']),
        cString (text ['y']), cString (text ['q']), cString (text ['a'])])
    · decide

theorem not_wellOrdered_reply (t : Bytes) (entries : List (Bytes × Bencode))
    (ip port : ℕ) : ¬ (s.reply t entries ip port).WellOrdered := by
  apply not_wellOrdered
  apply not_keysIncrease (x := text ['y']) (y := text ['r'])
  · simp only [MainlineState.reply, keys, map_append, map_cons, map_nil]
    have hhead : [text ['y'], text ['r']].Sublist
        [cString (text ['t']), cString (text ['y']), cString (text ['r'])] := by decide
    exact (hhead.trans (sublist_append_left _ _)).trans (sublist_append_left _ _)
  · decide

theorem packetReply_eq_some {C : DhtCrypto} {now : ℤ} {d : Datagram} {s : MainlineState}
    {m : Bencode} (h : packetReply C now d s = some m) :
    ∃ (u : MainlineState) (t q : Bytes) (a : Bencode),
      m = (u.answer C now q a d.ip d.port).2.reply t (u.answer C now q a d.ip d.port).1
        d.ip d.port := by
  unfold packetReply at h
  split at h
  · cases h
  · split at h
    · cases h
    · split_ifs at h
      unfold MainlineState.queryReply at h
      split_ifs at h
      split at h
      · exact ⟨_, _, _, _, (Option.some.inj h).symm⟩
      · cases h

/-- No message of any node is well ordered. -/
theorem emits_not_wellOrdered {C : DhtCrypto} {s : MainlineState} {m : Bencode} (h : Emits C s m) :
    ¬ m.WellOrdered := by
  cases h with
  | query q => exact not_wellOrdered_message s q
  | reply hreply =>
    obtain ⟨u, t, q, a, rfl⟩ := packetReply_eq_some hreply
    exact not_wellOrdered_reply _ _ _ _ _

def pingPacket : Datagram :=
  ⟨text "d1:ad2:id20:aaaaaaaaaaaaaaaaaaaae1:q4:ping1:t2:aa1:y1:qe".toList, 1, 1⟩

theorem pingPacket_reply : ∃ m, packetReply toyCrypto 0 pingPacket lonelyNode = some m ∧
    ¬ m.WellOrdered := by
  obtain ⟨m, hm⟩ := Option.isSome_iff_exists.mp
    (by decide +kernel : (packetReply toyCrypto 0 pingPacket lonelyNode).isSome)
  exact ⟨m, hm, emits_not_wellOrdered (.reply hm)⟩

theorem lonelyNode_findNode : Emits toyCrypto lonelyNode (lonelyNode.findNodeQuery [7]) ∧
    (lonelyNode.findNodeQuery [7]).keys = [text ['t'], text ['y'], text ['q'], text ['a']] ∧
    ¬ (lonelyNode.findNodeQuery [7]).WellOrdered := by
  have hemits : Emits toyCrypto lonelyNode (lonelyNode.findNodeQuery [7]) := .query (.findNode [7])
  have hkeys : (lonelyNode.findNodeQuery [7]).keys =
      [text ['t'], text ['y'], text ['q'], text ['a']] := by decide
  refine ⟨hemits, hkeys, not_wellOrdered fun hincr => ?_⟩
  rw [KeysIncrease, hkeys] at hincr
  exact absurd hincr (by decide)

end Norn
