import Norn.Lib.Bytes
import Norn.Lib.Compact
import Norn.Lib.Run

/-!
# The Kademlia table

The routing table of `norn_kad.c`. The own id goes to the last bucket.
-/

namespace Norn
open List Option Norn.Compact

structure KadId (n : ℕ) where
  bytes : Bytes
  length_bytes : bytes.length = n
  deriving DecidableEq

structure KadNode (n : ℕ) where
  id : KadId n
  ip : ℕ
  port : ℕ
  seed : ℕ
  lastSeen : ℤ
  bucketIdx : ℤ
  deriving DecidableEq

structure KBucket (n : ℕ) where
  nodes : List (KadNode n)
  capacity : ℕ
  lastUpdate : ℤ
  deriving DecidableEq

structure KadTable (n : ℕ) where
  selfId : KadId n
  k : ℕ
  buckets : List (KBucket n)
  deriving DecidableEq

def kadKDefault : ℕ := 8

def cInt (x : ℕ) : ℤ := Int.bmod x (2 ^ 32)

variable {n : ℕ}

def kadTableNew (self : KadId n) : Option (KadTable n) :=
  if n = 0 ∨ cInt (n * 8) < 0 then none
  else some ⟨self, kadKDefault, replicate (cInt (n * 8)).toNat ⟨[], 0, 0⟩⟩

def firstOne (b : UInt8) : ℕ → Option ℕ
  | 0 => none
  | m + 1 => if b.toNat.testBit m then some m else firstOne b m

def firstBit : ℕ → Bytes → Option ℕ
  | _, [] => none
  | i, b :: bs =>
    match firstOne b 8 with
    | some bit => some (i * 8 + (7 - bit))
    | none => firstBit (i + 1) bs

def kadTableXorDistance (a b : KadId n) : Bytes := zipWith (· ^^^ ·) a.bytes b.bytes

namespace KBucket

def ids (b : KBucket n) : List (KadId n) := b.nodes.map KadNode.id

def insert (k : ℕ) (now : ℤ) (node : KadNode n) (b : KBucket n) : KBucket n :=
  match b.nodes.findIdx? fun m => m.id = node.id with
  | some i =>
    { b with
      nodes := b.nodes.modify i fun m =>
        { m with ip := node.ip, port := node.port, seed := node.seed, lastSeen := now }
      lastUpdate := now }
  | none =>
    { nodes := b.nodes ++ [node]
      capacity :=
        if b.capacity ≤ b.nodes.length then if b.capacity = 0 then k else b.capacity * 2
        else b.capacity
      lastUpdate := now }

def remove (id : KadId n) (b : KBucket n) : Option (KBucket n) :=
  (b.nodes.findIdx? fun m => m.id = id).map fun i => { b with nodes := b.nodes.eraseIdx i }

end KBucket

namespace KadTable
variable (t : KadTable n)

def bucketCount : ℤ := t.buckets.length

def bucketIndex (id : KadId n) : ℤ :=
  match firstBit 0 (kadTableXorDistance t.selfId id) with
  | some i => cInt i
  | none => t.bucketCount - 1

def kadTableInsert (now : ℤ) (id : KadId n) (ip port seed : ℕ) (t : KadTable n) :
    ℤ × KadTable n :=
  let idx := t.bucketIndex id
  if idx < 0 ∨ t.bucketCount ≤ idx then (-1, t)
  else
    (0, { t with
      buckets := t.buckets.modify idx.toNat
        (KBucket.insert t.k now ⟨id, ip, port, seed, now, idx⟩) })

def kadTableRemove (id : KadId n) (t : KadTable n) : ℤ × KadTable n :=
  let idx := t.bucketIndex id
  if idx < 0 ∨ t.bucketCount ≤ idx then (-1, t)
  else
    match t.buckets[idx.toNat]?.bind fun b => b.remove id with
    | some b => (0, { t with buckets := t.buckets.set idx.toNat b })
    | none => (-1, t)

def kadTableSize : ℕ := (t.buckets.map fun b => b.nodes.length).sum

end KadTable

instance : Inhabited (KadId n) := ⟨⟨replicate n 0, length_replicate⟩⟩

inductive KadCall (n : ℕ)
  | insert (now : ℤ) (id : KadId n) (ip port seed : ℕ)
  | remove (id : KadId n)
  deriving Inhabited

def KadCall.Inserts (c : KadCall n) (id : KadId n) : Prop :=
  ∃ now ip port seed, c = .insert now id ip port seed

def lowBits (b : UInt8) : ℕ → List Bool
  | 0 => []
  | m + 1 => b.toNat.testBit m :: lowBits b m

def bits (bs : Bytes) : List Bool := bs.flatMap fun b => lowBits b 8

def commonPrefixLength : List Bool → List Bool → ℕ
  | a :: as, b :: bs => if a = b then commonPrefixLength as bs + 1 else 0
  | _, _ => 0

variable {a b : UInt8}

theorem firstOne_xor_eq_none {m : ℕ} (h : firstOne (a ^^^ b) m = none) :
    ∀ i < m, a.toNat.testBit i = b.toNat.testBit i := by
  induction m with
  | zero => exact fun i hi => absurd hi (Nat.not_lt_zero i)
  | succ m ih =>
    rw [firstOne] at h
    split_ifs at h with hbit
    rw [UInt8.toNat_xor, Nat.testBit_xor, Bool.not_eq_true, bne_eq_false_iff_eq] at hbit
    intro i hi
    rcases Nat.lt_succ_iff_lt_or_eq.mp hi with hi | rfl
    · exact ih h i hi
    · exact hbit

theorem eq_of_firstOne_xor (h : firstOne (a ^^^ b) 8 = none) : a = b := by
  refine UInt8.toNat_inj.mp (Nat.eq_of_testBit_eq fun i => ?_)
  by_cases hi : i < 8
  · exact firstOne_xor_eq_none h i hi
  · have hpow : 2 ^ 8 ≤ 2 ^ i := Nat.pow_le_pow_right (by decide) (not_lt.mp hi)
    rw [Nat.testBit_eq_false_of_lt (a.toNat_lt.trans_le hpow),
      Nat.testBit_eq_false_of_lt (b.toNat_lt.trans_le hpow)]

theorem firstOne_self (a : UInt8) (m : ℕ) : firstOne (a ^^^ a) m = none := by
  induction m with
  | zero => rfl
  | succ m ih =>
    rw [firstOne, UInt8.xor_self, if_neg (by simp)]
    rwa [UInt8.xor_self] at ih

theorem commonPrefixLength_append_self (l as bs : List Bool) :
    commonPrefixLength (l ++ as) (l ++ bs) = l.length + commonPrefixLength as bs := by
  induction l with
  | nil => exact (Nat.zero_add _).symm
  | cons b l ih =>
    rw [cons_append, cons_append, commonPrefixLength, if_pos rfl, ih, length_cons]
    omega

theorem length_lowBits (b : UInt8) (m : ℕ) : (lowBits b m).length = m := by
  induction m with
  | zero => rfl
  | succ m ih => rw [lowBits, length_cons, ih]

theorem commonPrefixLength_lowBits {m bit : ℕ} (as bs : List Bool)
    (h : firstOne (a ^^^ b) m = some bit) :
    commonPrefixLength (lowBits a m ++ as) (lowBits b m ++ bs) + bit + 1 = m := by
  induction m with
  | zero => cases h
  | succ m ih =>
    rw [firstOne, UInt8.toNat_xor, Nat.testBit_xor] at h
    rw [lowBits, lowBits, cons_append, cons_append, commonPrefixLength]
    split_ifs at h with hne
    · cases h
      rw [bne_iff_ne] at hne
      rw [if_neg hne, Nat.zero_add]
    · rw [bne_iff_ne, not_not] at hne
      rw [if_pos hne]
      have := ih h
      omega

theorem firstBit_xor {as bs : Bytes} (h : as.length = bs.length) (i : ℕ) :
    firstBit i (zipWith (· ^^^ ·) as bs) =
      if as = bs then none else some (i * 8 + commonPrefixLength (bits as) (bits bs)) := by
  induction as generalizing bs i with
  | nil =>
    obtain rfl : bs = [] := length_eq_zero_iff.mp h.symm
    rfl
  | cons a as ih =>
    cases bs with
    | nil => cases h
    | cons b bs =>
      rw [zipWith_cons_cons, firstBit, bits, bits, flatMap_cons, flatMap_cons]
      cases hone : firstOne (a ^^^ b) 8 with
      | none =>
        obtain rfl := eq_of_firstOne_xor hone
        rw [commonPrefixLength_append_self, length_lowBits]
        simp only [ih (Nat.succ.inj h), cons.injEq, true_and, bits]
        split_ifs
        · rfl
        · rw [Nat.add_mul, Nat.one_mul, Nat.add_assoc]
      | some bit =>
        have hne : a ≠ b := by
          rintro rfl
          rw [firstOne_self] at hone
          cases hone
        have hlen := commonPrefixLength_lowBits (bits as) (bits bs) hone
        rw [if_neg fun heq => hne (cons.inj heq).1]
        unfold bits at hlen
        simp only [some.injEq]
        omega

namespace KadCall

def id : KadCall n → KadId n
  | .insert _ id _ _ _ => id
  | .remove id => id

def newIds : KadCall n → List (KadId n) → List (KadId n)
  | .insert _ id _ _ _, ids => if id ∈ ids then ids else ids ++ [id]
  | .remove id, ids => ids.erase id

variable {c : KadCall n} {ids : List (KadId n)}

theorem Inserts.id_eq {id : KadId n} (h : c.Inserts id) : c.id = id := by
  obtain ⟨_, _, _, _, rfl⟩ := h
  rfl

theorem mem_newIds (h : ids.Nodup) {id : KadId n} :
    id ∈ c.newIds ids ↔ c.Inserts id ∨ id ∈ ids ∧ c ≠ .remove id := by
  cases c with
  | insert now id' ip port seed =>
    have hins : (KadCall.insert now id' ip port seed).Inserts id ↔ id = id' :=
      ⟨fun h => h.id_eq.symm, fun h => ⟨now, ip, port, seed, h ▸ rfl⟩⟩
    rw [newIds, hins]
    split_ifs with hmem
    · simpa using fun heq => heq ▸ hmem
    · simp [or_comm]
  | remove id' =>
    rw [newIds, h.mem_erase_iff, and_comm]
    simp [Inserts, eq_comm]

theorem nodup_newIds (c : KadCall n) (h : ids.Nodup) : (c.newIds ids).Nodup := by
  cases c with
  | insert now id ip port seed =>
    rw [newIds]
    split_ifs with hmem
    · exact h
    · exact h.append (nodup_singleton id) (disjoint_singleton.mpr hmem)
  | remove id => exact h.erase id

end KadCall

namespace KadTable
variable (t : KadTable n)

def idsAt (i : ℕ) : List (KadId n) := (t.buckets[i]?).elim [] KBucket.ids

def Accepts (id : KadId n) : Prop :=
  0 ≤ t.bucketIndex id ∧ t.bucketIndex id < t.bucketCount

instance (t : KadTable n) (id : KadId n) : Decidable (t.Accepts id) :=
  inferInstanceAs (Decidable (_ ∧ _))

def call : KadCall n → KadTable n
  | .insert now id ip port seed => (t.kadTableInsert now id ip port seed).2
  | .remove id => (t.kadTableRemove id).2

def onBucket : KadCall n → KBucket n → KBucket n
  | .insert now id ip port seed => .insert t.k now ⟨id, ip, port, seed, now, t.bucketIndex id⟩
  | .remove id => fun b => (b.remove id).getD b

theorem ids_onBucket (c : KadCall n) (b : KBucket n) : (t.onBucket c b).ids = c.newIds b.ids := by
  have hidx : ∀ id, b.ids.idxOf? id = b.nodes.findIdx? fun m => m.id = id := by
    intro id
    rw [idxOf?, KBucket.ids, findIdx?_map]
    rfl
  cases c with
  | insert now id ip port seed =>
    rw [onBucket, KadCall.newIds, KBucket.insert]
    cases hfind : b.nodes.findIdx? fun m => m.id = id with
    | some i =>
      obtain ⟨hi, hid, _⟩ := findIdx?_eq_some_iff_getElem.mp hfind
      have hmem : id ∈ b.ids := by
        rw [← of_decide_eq_true hid]
        exact mem_map_of_mem (getElem_mem hi)
      rw [if_pos hmem]
      dsimp only
      rw [modify_eq_set (getElem?_eq_getElem hi)]
      exact map_set_key (getElem?_eq_getElem hi) rfl
    | none =>
      rw [← hidx, idxOf?_eq_none_iff] at hfind
      rw [if_neg hfind, KBucket.ids, map_append]
      rfl
  | remove id =>
    change ((b.remove id).getD b).ids = b.ids.erase id
    rw [KBucket.remove, erase_eq_eraseIdx, hidx]
    cases b.nodes.findIdx? fun m => m.id = id with
    | some i => exact (eraseIdx_map _ _ _).symm
    | none => rfl

variable {t : KadTable n} {id : KadId n}

theorem Accepts.toNat_lt (h : t.Accepts id) : (t.bucketIndex id).toNat < t.buckets.length := by
  have h₁ := h.1
  have h₂ := h.2
  rw [bucketCount] at h₂
  omega

theorem call_eq (t : KadTable n) (c : KadCall n) : t.call c =
    if t.Accepts c.id then
      { t with buckets := t.buckets.modify (t.bucketIndex c.id).toNat (t.onBucket c) }
    else t := by
  have hacc : ∀ id, ¬ t.Accepts id ↔ t.bucketIndex id < 0 ∨ t.bucketCount ≤ t.bucketIndex id := by
    intro id
    rw [Accepts, not_and_or, not_le, not_lt]
  rw [← ite_not]
  cases c with
  | insert now id ip port seed =>
    simp only [call, kadTableInsert, KadCall.id, hacc]
    split_ifs <;> rfl
  | remove id =>
    rw [call, kadTableRemove, KadCall.id]
    by_cases hid : t.Accepts id
    · have hlt := hid.toNat_lt
      have hget := getElem?_eq_getElem hlt
      rw [if_neg fun h => (hacc id).mpr h hid, if_neg (not_not_intro hid),
        modify_eq_set hget, hget, bind_some]
      dsimp only [onBucket]
      cases t.buckets[(t.bucketIndex id).toNat].remove id with
      | none => rw [getD_none, set_getElem_self]
      | some b => rfl
    · rw [if_pos ((hacc id).mp hid), if_pos hid]

theorem call_kept (t : KadTable n) (c : KadCall n) : (t.call c).selfId = t.selfId ∧
    (t.call c).k = t.k ∧ (t.call c).buckets.length = t.buckets.length := by
  rw [call_eq]
  split_ifs
  · exact ⟨rfl, rfl, length_modify _ _ _⟩
  · exact ⟨rfl, rfl, rfl⟩

theorem idsAt_call (t : KadTable n) (c : KadCall n) (i : ℕ) : (t.call c).idsAt i =
    if t.Accepts c.id ∧ t.bucketIndex c.id = i then c.newIds (t.idsAt i) else t.idsAt i := by
  rw [call_eq]
  by_cases hacc : t.Accepts c.id
  · have hpos := hacc.1
    have hlt := hacc.toNat_lt
    rw [if_pos hacc]
    by_cases hi : t.bucketIndex c.id = i
    · have hi' : (t.bucketIndex c.id).toNat = i := by omega
      rw [hi'] at hlt ⊢
      rw [if_pos ⟨hacc, hi⟩, idsAt, idsAt, getElem?_modify_eq, getElem?_eq_getElem hlt]
      exact t.ids_onBucket c _
    · rw [if_neg fun h => hi h.2, idsAt, getElem?_modify_ne _ _ (by omega)]
      rfl
  · rw [if_neg hacc, if_neg fun h => hacc h.1]

theorem bucketIndex_call (t : KadTable n) (c : KadCall n) (id : KadId n) :
    (t.call c).bucketIndex id = t.bucketIndex id := by
  obtain ⟨hself, -, hlength⟩ := t.call_kept c
  rw [bucketIndex, hself, bucketCount, hlength]
  rfl

theorem accepts_call (t : KadTable n) (c : KadCall n) (id : KadId n) :
    (t.call c).Accepts id ↔ t.Accepts id := by
  rw [Accepts, bucketIndex_call, bucketCount, (t.call_kept c).2.2]
  rfl

/-- Every id stands in its bucket, once. -/
structure Placed (t : KadTable n) : Prop where
  index : ∀ i, ∀ id ∈ t.idsAt i, t.bucketIndex id = i
  nodup : ∀ i, (t.idsAt i).Nodup

theorem Placed.call (h : t.Placed) (c : KadCall n) : (t.call c).Placed := by
  refine ⟨fun i id hmem => ?_, fun i => ?_⟩
  · rw [bucketIndex_call]
    rw [idsAt_call] at hmem
    split_ifs at hmem with hbucket
    · rcases (KadCall.mem_newIds (h.nodup i)).mp hmem with hins | ⟨hmem, -⟩
      · rw [← hins.id_eq]
        exact hbucket.2
      · exact h.index i id hmem
    · exact h.index i id hmem
  · rw [idsAt_call]
    split_ifs
    · exact c.nodup_newIds (h.nodup i)
    · exact h.nodup i

def Stored (t : KadTable n) (id : KadId n) : Prop := ∃ i, id ∈ t.idsAt i

theorem Placed.mem_idsAt (h : t.Placed) {i : ℕ} (hmem : id ∈ t.idsAt i) :
    t.Accepts id ∧ t.bucketIndex id = i := by
  have hindex := h.index i id hmem
  have hlt : i < t.buckets.length := by
    by_contra hge
    rw [idsAt, getElem?_eq_none (not_lt.mp hge)] at hmem
    cases hmem
  refine ⟨⟨?_, ?_⟩, hindex⟩
  · rw [hindex]
    exact Int.natCast_nonneg i
  · rw [hindex, bucketCount]
    exact Int.ofNat_lt.mpr hlt

theorem Placed.stored_call (h : t.Placed) (c : KadCall n) (id : KadId n) : (t.call c).Stored id ↔
    c.Inserts id ∧ t.Accepts id ∨ t.Stored id ∧ c ≠ .remove id := by
  constructor
  · rintro ⟨i, hmem⟩
    rw [idsAt_call] at hmem
    split_ifs at hmem with hbucket
    · rcases (KadCall.mem_newIds (h.nodup i)).mp hmem with hins | ⟨hmem, hne⟩
      · exact .inl ⟨hins, hins.id_eq ▸ hbucket.1⟩
      · exact .inr ⟨⟨i, hmem⟩, hne⟩
    · refine .inr ⟨⟨i, hmem⟩, ?_⟩
      rintro rfl
      exact hbucket (h.mem_idsAt hmem)
  · rintro (⟨hins, hacc⟩ | ⟨⟨i, hmem⟩, hne⟩)
    · refine ⟨(t.bucketIndex id).toNat, ?_⟩
      rw [idsAt_call, hins.id_eq, if_pos ⟨hacc, (Int.toNat_of_nonneg hacc.1).symm⟩]
      exact (KadCall.mem_newIds (h.nodup _)).mpr (.inl hins)
    · refine ⟨i, ?_⟩
      rw [idsAt_call]
      split_ifs
      · exact (KadCall.mem_newIds (h.nodup i)).mpr (.inr ⟨hmem, hne⟩)
      · exact hmem

variable (n) in
def calls : System (KadTable n) (KadCall n) where
  init t := ∃ self, kadTableNew self = some t
  next t c t' := t' = t.call c

theorem idsAt_new {self : KadId n} (h : kadTableNew self = some t) (i : ℕ) : t.idsAt i = [] := by
  rw [kadTableNew] at h
  split_ifs at h
  cases h
  rw [idsAt, getElem?_replicate]
  split_ifs <;> rfl

section
variable (run : Run (calls n)) {k : ℕ}

theorem placed_state (hk : k ≤ run.len) : (run.state k).Placed := by
  refine run.invariant (I := Placed) ?_ ?_ k hk
  · rintro t ⟨self, ht⟩
    refine ⟨fun i id hmem => ?_, fun i => ?_⟩
    · rw [idsAt_new ht] at hmem
      cases hmem
    · rw [idsAt_new ht]
      exact nodup_nil
  · intro k hk h
    rw [run.steps k hk]
    exact h.call _

theorem accepts_state (hk : k ≤ run.len) (id : KadId n) :
    (run.state k).Accepts id ↔ (run.state 0).Accepts id := by
  refine run.position_induction (P := fun k => (run.state k).Accepts id ↔ (run.state 0).Accepts id)
    Iff.rfl ?_ k hk
  intro k hk h
  rw [run.steps k hk, accepts_call, h]

theorem stored_state_iff (hk : k ≤ run.len) (id : KadId n) : (run.state k).Stored id ↔
    (run.state 0).Accepts id ∧
      ∃ j < k, (run.event j).Inserts id ∧ ∀ i, j < i → i < k → run.event i ≠ .remove id := by
  have hsince := run.holds_iff_since (P := fun k => (run.state k).Stored id)
    (A := fun c => c.Inserts id ∧ (run.state 0).Accepts id) (B := fun c => c = .remove id) ?_ ?_ k hk
  · rw [hsince]
    constructor
    · rintro ⟨j, hj, ⟨hins, hacc⟩, hkept⟩
      exact ⟨hacc, j, hj, hins, hkept⟩
    · rintro ⟨hacc, j, hj, hins, hkept⟩
      exact ⟨j, hj, ⟨hins, hacc⟩, hkept⟩
  · obtain ⟨self, ht⟩ := run.start
    rintro ⟨i, hmem⟩
    rw [idsAt_new ht] at hmem
    cases hmem
  · intro k hk
    rw [run.steps k hk, (placed_state run hk.le).stored_call, accepts_state run hk.le]

end

/-- No bucket and no table is too long. -/
def Bounded (t : KadTable n) : Prop :=
  (∀ b ∈ t.buckets, b.nodes.length ≤ t.k) ∧ t.kadTableSize ≤ t.k * t.buckets.length

theorem bounded_iff (t : KadTable n) : t.Bounded ↔ ∀ i, (t.idsAt i).length ≤ t.k := by
  constructor
  · intro h i
    rw [idsAt]
    cases hb : t.buckets[i]? with
    | none => exact Nat.zero_le _
    | some b =>
      rw [elim_some, KBucket.ids, length_map]
      exact h.1 b (mem_of_getElem? hb)
  · intro h
    have hbuckets : ∀ b ∈ t.buckets, b.nodes.length ≤ t.k := by
      intro b hb
      obtain ⟨i, hi⟩ := getElem?_of_mem hb
      have hlen := h i
      rwa [idsAt, hi, elim_some, KBucket.ids, length_map] at hlen
    refine ⟨hbuckets, ?_⟩
    rw [kadTableSize]
    refine (sum_le_card_nsmul _ t.k fun m hm => ?_).trans_eq ?_
    · obtain ⟨b, hb, rfl⟩ := mem_map.mp hm
      exact hbuckets b hb
    · rw [length_map, smul_eq_mul, Nat.mul_comm]

/-- The id is in its bucket already, or the bucket is not full. -/
def HasRoom (t : KadTable n) (id : KadId n) : Prop :=
  id ∈ t.idsAt (t.bucketIndex id).toNat ∨ (t.idsAt (t.bucketIndex id).toNat).length < t.k

/-- The bucket size is kept exactly by the runs that insert no new id in a bucket of that size. -/
theorem bounded_iff_hasRoom (run : Run (calls n)) : (∀ k ≤ run.len, (run.state k).Bounded) ↔
    ∀ k < run.len, ∀ id, (run.event k).Inserts id → (run.state k).Accepts id →
      (run.state k).HasRoom id := by
  constructor
  · rintro hbound k hk id ⟨now, ip, port, seed, hevent⟩ hacc
    by_contra hfull
    obtain ⟨hnew, hfull⟩ := not_or.mp hfull
    have hafter := ((run.state (k + 1)).bounded_iff.mp (hbound (k + 1) hk))
      ((run.state k).bucketIndex id).toNat
    rw [run.steps k hk, hevent, idsAt_call, KadCall.id,
      if_pos ⟨hacc, (Int.toNat_of_nonneg hacc.1).symm⟩, KadCall.newIds, if_neg hnew, length_append,
      (call_kept _ _).2.1, length_singleton] at hafter
    omega
  · intro hroom k hk
    refine run.invariant (I := Bounded) ?_ ?_ k hk
    · rintro t ⟨self, ht⟩
      rw [bounded_iff]
      intro i
      rw [idsAt_new ht]
      exact Nat.zero_le _
    · intro k hk hbound
      rw [bounded_iff] at hbound ⊢
      intro i
      have hi := hbound i
      rw [run.steps k hk, (call_kept _ _).2.1, idsAt_call]
      split_ifs with hbucket
      · cases hevent : run.event k with
        | insert now id ip port seed =>
          rw [hevent] at hbucket
          have hi' : ((run.state k).bucketIndex id).toNat = i := by
            rw [show (run.state k).bucketIndex id = i from hbucket.2, Int.toNat_natCast]
          have hfits := hroom k hk id ⟨now, ip, port, seed, hevent⟩ hbucket.1
          rw [HasRoom, hi'] at hfits
          rw [KadCall.newIds]
          split_ifs with hmem
          · exact hi
          · rw [length_append, length_singleton]
            exact hfits.resolve_left hmem
        | remove id => exact length_erase_le.trans hi
      · exact hi

def flood : List (KadCall 1) :=
  (range 9).map fun i => .insert 0 ⟨[UInt8.ofNat (128 + i)], rfl⟩ 1 1 0

def byteTable : KadTable 1 := ⟨⟨[0], rfl⟩, kadKDefault, replicate 8 ⟨[], 0, 0⟩⟩

theorem kadTableNew_byteTable : kadTableNew byteTable.selfId = some byteTable := by decide

theorem flood_unbounded : ∃ run : Run (calls 1), run.len = 9 ∧ ¬ (run.state 9).Bounded := by
  refine ⟨Run.ofTotal call (fun _ _ => rfl) byteTable ⟨_, kadTableNew_byteTable⟩ flood, rfl, ?_⟩
  rintro ⟨hbuckets, -⟩
  revert hbuckets
  decide

end KadTable
end Norn
