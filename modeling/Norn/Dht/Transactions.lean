import Norn.Dht.Messages

/-!
# Replies and transactions

A reply is looked at only if its transaction waits for one.
-/

namespace Norn
open List Option
open Nat (count)
namespace MainlineState

def mainlineProcessTransactions (now : ℤ) (s : MainlineState) : MainlineState :=
  { s with transactions :=
      s.transactions.filter fun x => ¬ mainlineTransactionTimeout < now - x.created }

def Changed (s s' : MainlineState) : Prop :=
  s'.nodes ≠ s.nodes ∨ s'.observed ≠ s.observed ∨ s'.transactions ≠ s.transactions

instance (s s' : MainlineState) : Decidable (Changed s s') :=
  inferInstanceAs (Decidable (_ ∨ _ ∨ _))

theorem not_changed_self (s : MainlineState) : ¬ s.Changed s :=
  fun h => h.elim (fun h => h rfl) fun h => h.elim (fun h => h rfl) fun h => h rfl

/-- A transaction that the reply names exactly is over. -/
def Consumed (s s' : MainlineState) (msg : Bencode) : Prop :=
  ∃ front x back, s.transactions = front ++ x :: back ∧ s'.transactions = front ++ back ∧
    msg.getText ['t'] = some (bigEndian 4 x.id)

/-- Its `t` has four bytes, or names no transaction. -/
def Exact (s : MainlineState) (msg : Bencode) : Prop :=
  ∀ t ∈ msg.getText ['t'], t.length = 4 ∨ ∀ x ∈ s.transactions, x.id ≠ decodeTransactionId t

section
variable {s : MainlineState}

theorem transactions_learnSender (now : ℤ) (msg d : Bencode) (ip port : ℕ) :
    (s.learnSender now msg d ip port).transactions = s.transactions := by
  obtain ⟨nodes, heq⟩ := s.learnSender_eq now msg ip port d
  rw [heq]

theorem transactions_processQuery (C : DhtCrypto) (now : ℤ) (msg : Bencode) (ip port : ℕ) :
    (s.processQuery C now msg ip port).transactions = s.transactions := by
  rcases s.processQuery_eq C now msg ip port with heq | ⟨a, served, store, sent, -, -, -, heq⟩
  · rw [heq]
  · rw [heq]
    exact transactions_learnSender now msg a ip port

theorem transactions_endTransaction {t : Bytes}
    (h : ∃ x ∈ s.transactions, x.id = decodeTransactionId t) :
    ∃ front y back, s.transactions = front ++ y :: back ∧ y.id = decodeTransactionId t ∧
      (s.endTransaction t).transactions = front ++ back := by
  obtain ⟨x, hx, hid⟩ := h
  set i := s.transactions.findIdx fun y => y.id = decodeTransactionId t with hi
  have hlt : i < s.transactions.length :=
    findIdx_lt_length_of_exists ⟨x, hx, decide_eq_true hid⟩
  refine ⟨s.transactions.take i, s.transactions[i], s.transactions.drop (i + 1), ?_, ?_, ?_⟩
  · rw [getElem_cons_drop, take_append_drop]
  · exact of_decide_eq_true (findIdx_getElem (w := hlt))
  · rw [← eraseIdx_eq_take_drop_succ]
    rfl

theorem processReply_cases (s : MainlineState) (now : ℤ) (msg : Bencode) (ip port : ℕ) :
    ((∀ t ∈ msg.getText ['t'], ∀ x ∈ s.transactions, x.id ≠ decodeTransactionId t) ∧
      s.processReply now msg ip port = s) ∨
    ∃ t front y back, msg.getText ['t'] = some t ∧ s.transactions = front ++ y :: back ∧
      y.id = decodeTransactionId t ∧
      (s.processReply now msg ip port).transactions = front ++ back := by
  generalize hout : s.processReply now msg ip port = out
  cases replyStep_of_processReply hout with
  | ignored hno => exact .inl ⟨hno, rfl⟩
  | bare t ht hwaiting =>
    obtain ⟨front, y, back, hrest⟩ := transactions_endTransaction hwaiting
    exact .inr ⟨t, front, y, back, ht, hrest⟩
  | told t r observed nodes ht hwaiting hr hnodes =>
    obtain ⟨front, y, back, hrest⟩ := transactions_endTransaction hwaiting
    have hkept := transactions_learnSender (s := s.endTransaction t) now msg r ip port
    rw [← hkept] at hrest
    exact .inr ⟨t, front, y, back, ht, hrest⟩

theorem changed_consumed_iff_exact (s : MainlineState) (now : ℤ) (msg : Bencode) (ip port : ℕ) :
    (s.Changed (s.processReply now msg ip port) →
      s.Consumed (s.processReply now msg ip port) msg) ↔ s.Exact msg := by
  rcases s.processReply_cases now msg ip port with
    ⟨hunknown, hsame⟩ | ⟨t, front, y, back, ht, hbefore, hy, hafter⟩
  · rw [hsame]
    exact iff_of_true (fun h => absurd h s.not_changed_self) fun t ht => .inr (hunknown t ht)
  · have hchanged : s.Changed (s.processReply now msg ip port) := by
      refine .inr (.inr fun heq => ?_)
      have hlen := congrArg length heq
      rw [hafter, hbefore, length_append, length_append, length_cons] at hlen
      omega
    constructor
    · intro h t' ht'
      obtain ⟨_, z, _, _, _, hname⟩ := h hchanged
      rw [mem_def.mp ht', some.injEq] at hname
      rw [hname]
      exact .inl (length_bigEndian 4 z.id)
    · intro h _
      have hmem : y ∈ s.transactions := by simp [hbefore]
      have hfour : t.length = 4 := (h t ht).resolve_right fun hall => hall y hmem hy
      refine ⟨front, y, back, hbefore, hafter, ?_⟩
      rw [ht, hy, decodeTransactionId, if_neg (by omega), take_of_length_le hfour.le,
        ← hfour, bigEndian_fromBigEndian]

end
end MainlineState

def replyMessage (d : Datagram) : Option Bencode :=
  match (Bencode.bencodeDecode d.data 0).1 with
  | none => none
  | some msg =>
    match msg.getText ['y'] with
    | none => none
    | some y => if cString y = text ['r'] then some msg else none

theorem processPacket_cases (C : DhtCrypto) (now : ℤ) (d : Datagram) (s : MainlineState) :
    (∃ msg, replyMessage d = some msg ∧
      mainlineProcessPacket C now d s = s.processReply now msg d.ip d.port) ∨
    replyMessage d = none ∧ (mainlineProcessPacket C now d s).transactions = s.transactions := by
  unfold replyMessage mainlineProcessPacket
  cases (Bencode.bencodeDecode d.data 0).1 with
  | none => exact .inr ⟨rfl, rfl⟩
  | some msg =>
    dsimp only
    cases msg.getText ['y'] with
    | none => exact .inr ⟨rfl, rfl⟩
    | some y =>
      dsimp only
      by_cases hr : cString y = text ['r']
      · rw [if_pos hr, if_pos hr]
        exact .inl ⟨msg, rfl, rfl⟩
      · rw [if_neg hr, if_neg hr]
        refine .inr ⟨rfl, ?_⟩
        split_ifs
        · exact MainlineState.transactions_processQuery C now msg d.ip d.port
        · rfl

inductive TransactionEvent
  | packet (now : ℤ) (d : Datagram)
  | findNode (now : ℤ) (target : Bytes) (ip port : ℕ) (sends : Bool)
  | processTransactions (now : ℤ)
  | other (t : MainlineState)

instance : Inhabited TransactionEvent := ⟨.processTransactions 0⟩

namespace TransactionEvent

def step (C : DhtCrypto) (s : MainlineState) : TransactionEvent → MainlineState
  | packet now d => mainlineProcessPacket C now d s
  | findNode now target ip port sends => s.mainlineFindNode now target ip port sends
  | processTransactions now => s.mainlineProcessTransactions now
  | other t => { t with transactions := s.transactions, nextTransactionId := s.nextTransactionId }

def system (C : DhtCrypto) : System MainlineState TransactionEvent where
  init s := s.transactions = []
  next s e s' := s' = step C s e

def IsQuery : TransactionEvent → Prop
  | findNode _ _ _ _ sends => sends = true
  | _ => False

def IsEffective (s s' : MainlineState) : TransactionEvent → Prop
  | packet _ d => (replyMessage d).isSome ∧ s.Changed s'
  | _ => False

instance : DecidablePred IsQuery
  | findNode _ _ _ _ sends => inferInstanceAs (Decidable (sends = true))
  | packet _ _ | processTransactions _ | other _ => .isFalse id

instance (s s' : MainlineState) : DecidablePred (IsEffective s s')
  | packet _ d => inferInstanceAs (Decidable ((replyMessage d).isSome ∧ s.Changed s'))
  | findNode _ _ _ _ _ | processTransactions _ | other _ => .isFalse id

variable {C : DhtCrypto}

theorem step_pays (s : MainlineState) (e : TransactionEvent) :
    (step C s e).transactions.length + (if IsEffective s (step C s e) e then 1 else 0) ≤
      s.transactions.length + if IsQuery e then 1 else 0 := by
  cases e with
  | packet now d =>
    rw [if_neg (show ¬ IsQuery (packet now d) from id)]
    rcases processPacket_cases C now d s with ⟨msg, hmsg, hstep⟩ | ⟨hnone, htrans⟩
    · rcases s.processReply_cases now msg d.ip d.port with
        ⟨_, hsame⟩ | ⟨t, front, y, back, _, hbefore, _, hafter⟩
      · rw [step, hstep, hsame, if_neg fun h => s.not_changed_self h.2]
      · rw [step, hstep, hafter, hbefore, length_append, length_append, length_cons]
        split_ifs <;> omega
    · have hineffective : ¬ IsEffective s (step C s (packet now d)) (packet now d) := by
        rintro ⟨hsome, _⟩
        rw [hnone] at hsome
        cases hsome
      rw [if_neg hineffective, step, htrans]
  | findNode now target ip port sends =>
    rw [if_neg (show ¬ IsEffective s _ (findNode now target ip port sends) from id), step,
      MainlineState.mainlineFindNode]
    cases sends with
    | false => exact Nat.le_add_right _ _
    | true =>
      rw [if_pos rfl, if_pos (show IsQuery (findNode now target ip port true) from rfl)]
      dsimp only
      split_ifs
      · rw [length_append]
        exact le_rfl
      · omega
  | processTransactions now => exact length_filter_le _ _
  | other t => exact le_rfl

/-- A reply acts only for a transaction that it names exactly, unless its `t` has not four bytes.
Effective replies are at most as many as queries. -/
theorem unmatched_replies (run : Run (system C)) {k : ℕ} (hk : k ≤ run.len) (s : MainlineState)
    (now : ℤ) {d : Datagram} {msg : Bencode} (hmsg : replyMessage d = some msg) :
    ((s.Changed (mainlineProcessPacket C now d s) →
        s.Consumed (mainlineProcessPacket C now d s) msg) ↔ s.Exact msg) ∧
      count (fun i => IsEffective (run.state i) (run.state (i + 1)) (run.event i)) k ≤
        count (fun i => IsQuery (run.event i)) k := by
  constructor
  · rcases processPacket_cases C now d s with ⟨msg', hmsg', hstep⟩ | ⟨hnone, _⟩
    · obtain rfl : msg' = msg := some.inj (hmsg'.symm.trans hmsg)
      rw [hstep]
      exact s.changed_consumed_iff_exact now msg' d.ip d.port
    · rw [hnone] at hmsg
      cases hmsg
  · have hpaid : count (fun i => IsEffective (run.state i) (run.state (i + 1)) (run.event i)) k +
        (run.state k).transactions.length ≤ count (fun i => IsQuery (run.event i)) k := by
      refine run.position_induction (P := fun k =>
        count (fun i => IsEffective (run.state i) (run.state (i + 1)) (run.event i)) k +
          (run.state k).transactions.length ≤ count (fun i => IsQuery (run.event i)) k)
        ?_ ?_ k hk
      · have hstart : (run.state 0).transactions = [] := run.start
        rw [hstart]
        exact le_rfl
      · intro i hi ih
        have hnext : run.state (i + 1) = step C (run.state i) (run.event i) := run.steps i hi
        have hpays := step_pays (C := C) (run.state i) (run.event i)
        rw [← hnext] at hpays
        rw [Nat.count_succ, Nat.count_succ]
        omega
    omega

def replyPacket (t : Bytes) : Datagram :=
  ⟨(Bencode.dict [(text ['r'], .dict [(text ['i', 'd'], .str (.replicate 20 9))]),
    (text ['t'], .str t), (text ['y'], .str (text ['r']))]).encode, 1, 1⟩

def waitingNode (id : ℕ) : MainlineState := { lonelyNode with transactions := [⟨id, 0, []⟩] }

def queryRun : Run (system toyCrypto) :=
  Run.ofTotal (step toyCrypto) (fun _ _ => rfl) lonelyNode rfl
    [.findNode 0 [7] 1 1 true, .packet 1 (replyPacket [0, 0, 0, 0])]

theorem queryRun_matched : (∃ msg, replyMessage (replyPacket [0, 0, 0, 5]) = some msg ∧
      (waitingNode 5).Consumed
        (mainlineProcessPacket toyCrypto 0 (replyPacket [0, 0, 0, 5]) (waitingNode 5)) msg) ∧
    count (fun i => IsEffective (queryRun.state i) (queryRun.state (i + 1))
      (queryRun.event i)) 2 ≤ count (fun i => IsQuery (queryRun.event i)) 2 := by
  obtain ⟨msg, hmsg, ht⟩ := bind_eq_some_iff.mp (by decide +kernel :
    (replyMessage (replyPacket [0, 0, 0, 5])).bind (·.getText ['t']) = some [0, 0, 0, 5])
  have h := unmatched_replies queryRun (k := 2) le_rfl (waitingNode 5) 0 hmsg
  refine ⟨⟨msg, hmsg, h.1.mpr ?_ (by decide +kernel)⟩, h.2⟩
  intro t htext
  rw [ht] at htext
  cases htext
  exact .inl rfl

theorem replyPacket_mismatched {id : ℕ} {t : Bytes} (hlen : t.length ≠ 4)
    (ht : (replyMessage (replyPacket t)).bind (·.getText ['t']) = some t) :
    ∃ msg, replyMessage (replyPacket t) = some msg ∧ ∀ s', ¬ (waitingNode id).Consumed s' msg := by
  obtain ⟨msg, hmsg, htext⟩ := bind_eq_some_iff.mp ht
  refine ⟨msg, hmsg, ?_⟩
  rintro s' ⟨_, x, _, _, _, hname⟩
  rw [htext, some.injEq] at hname
  rw [hname] at hlen
  exact hlen (length_bigEndian 4 x.id)

theorem mismatched_replies_accepted :
    ((waitingNode 5).Changed
        (mainlineProcessPacket toyCrypto 0 (replyPacket [0, 0, 0, 5, 9]) (waitingNode 5)) ∧
      ∃ msg, replyMessage (replyPacket [0, 0, 0, 5, 9]) = some msg ∧
        ∀ s', ¬ (waitingNode 5).Consumed s' msg) ∧
    (waitingNode 0).Changed
        (mainlineProcessPacket toyCrypto 0 (replyPacket []) (waitingNode 0)) ∧
      ∃ msg, replyMessage (replyPacket []) = some msg ∧
        ∀ s', ¬ (waitingNode 0).Consumed s' msg :=
  ⟨⟨by decide +kernel, replyPacket_mismatched (by decide) (by decide +kernel)⟩,
    by decide +kernel, replyPacket_mismatched (by decide) (by decide +kernel)⟩

end TransactionEvent
end Norn
