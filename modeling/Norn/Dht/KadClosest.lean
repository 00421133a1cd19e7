import Norn.Dht.Closest
import Norn.Dht.Kad

/-!
# The closest nodes of a Kademlia table

`kad_table_closest` sorts all nodes, with distances in buffers of a fixed size.
-/

namespace Norn
open List Option
variable {n : ℕ}

def kadDistBuf : ℕ := 264

def kadTableCompareDistance : Bytes → Bytes → ℤ
  | a :: as, b :: bs =>
    if a < b then -1 else if b < a then 1 else kadTableCompareDistance as bs
  | _, _ => 0

section
variable (target : KadId n)

def insertByDistance (key : KadNode n) : List (KadNode n) → List (KadNode n)
  | [] => [key]
  | m :: ms =>
    if 0 ≤ kadTableCompareDistance (kadTableXorDistance target key.id)
        (kadTableXorDistance target m.id) then key :: m :: ms
    else m :: insertByDistance key ms

def sortByDistance : List (KadNode n) → List (KadNode n) → Option (List (KadNode n))
  | sorted, [] => some sorted.reverse
  | sorted, key :: rest =>
    if kadDistBuf < n then none else sortByDistance (insertByDistance target key sorted) rest

end

def KadTable.allNodes (t : KadTable n) : List (KadNode n) := t.buckets.flatMap KBucket.nodes

def KadTable.kadTableClosest (target : KadId n) (k : ℤ) (t : KadTable n) :
    Option (ℤ × List (KadNode n)) :=
  if k ≤ 0 then some (-1, [])
  else
    match t.allNodes with
    | [] => some (0, [])
    | first :: rest =>
      (sortByDistance target [first] rest).map fun sorted =>
        let total : ℤ := (first :: rest).length
        let resultCount := if total < k then total else k
        (resultCount, sorted.take resultCount.toNat)

variable {bs : Bytes}

theorem kadTableCompareDistance_nonneg {as : Bytes} (h : as.length = bs.length) :
    0 ≤ kadTableCompareDistance as bs ↔ fromBigEndian bs ≤ fromBigEndian as := by
  induction as generalizing bs with
  | nil =>
    obtain rfl : bs = [] := length_eq_zero_iff.mp h.symm
    exact ⟨fun _ => le_rfl, fun _ => le_rfl⟩
  | cons a as ih =>
    cases bs with
    | nil => cases h
    | cons b bs =>
      have hlen : as.length = bs.length := Nat.succ.inj h
      rw [← not_lt (a := fromBigEndian (a :: as)), fromBigEndian_cons_lt_iff hlen,
        kadTableCompareDistance]
      by_cases hlt : a < b
      · have hlt' := UInt8.lt_iff_toNat_lt.mp hlt
        rw [if_pos hlt]
        simp [hlt']
      · have hle : ¬ a.toNat < b.toNat := fun h => hlt (UInt8.lt_iff_toNat_lt.mpr h)
        rw [if_neg hlt]
        by_cases hgt : b < a
        · have hne : a ≠ b := fun heq => absurd hgt (heq ▸ UInt8.lt_irrefl a)
          rw [if_pos hgt]
          exact ⟨fun _ => not_or.mpr ⟨hle, fun h => hne h.1⟩, fun _ => Int.one_nonneg⟩
        · have heq : a = b := UInt8.le_antisymm (UInt8.not_lt.mp hgt) (UInt8.not_lt.mp hlt)
          rw [if_neg hgt, ih hlen]
          simp [heq]

def kadDistance (target : KadId n) (m : KadNode n) : ℕ := xorDistance target.bytes m.id.bytes

theorem fromBigEndian_xorDistance (target : KadId n) (m : KadNode n) :
    fromBigEndian (kadTableXorDistance target m.id) = kadDistance target m := by
  rw [kadTableXorDistance, zipWith_comm, kadDistance, xorDistance]
  simp only [UInt8.xor_comm]

theorem kadDistance_inj {target : KadId n} {m m' : KadNode n} :
    kadDistance target m = kadDistance target m' ↔ m.id = m'.id := by
  have hm := m.id.length_bytes
  rw [kadDistance, kadDistance, xorDistance_inj (hm.trans m'.id.length_bytes.symm)
    (hm.trans target.length_bytes.symm).le]
  cases m.id
  cases m'.id
  simp

variable {target : KadId n}

theorem insertByDistance_eq (key : KadNode n) (sorted : List (KadNode n)) :
    insertByDistance target key sorted =
      sorted.orderedInsert (fun a b => kadDistance target b ≤ kadDistance target a) key := by
  induction sorted with
  | nil => rfl
  | cons m ms ih =>
    have hlen : (kadTableXorDistance target key.id).length =
        (kadTableXorDistance target m.id).length := by
      rw [kadTableXorDistance, kadTableXorDistance, length_zipWith, length_zipWith,
        key.id.length_bytes, m.id.length_bytes]
    rw [insertByDistance, orderedInsert_cons, ih]
    simp only [kadTableCompareDistance_nonneg hlen, fromBigEndian_xorDistance]

theorem sortByDistance_spec (hn : n ≤ kadDistBuf) (rest : List (KadNode n)) :
    ∀ {sorted : List (KadNode n)},
      sorted.Pairwise (fun a b => kadDistance target b ≤ kadDistance target a) →
      ∃ l, sortByDistance target sorted rest = some l ∧ l.Perm (sorted ++ rest) ∧
        l.Pairwise fun a b => kadDistance target a ≤ kadDistance target b := by
  induction rest with
  | nil =>
    intro sorted hsorted
    refine ⟨sorted.reverse, rfl, ?_, pairwise_reverse.mpr hsorted⟩
    rw [append_nil]
    exact reverse_perm sorted
  | cons key rest ih =>
    intro sorted hsorted
    have : Std.Total fun a b : KadNode n => kadDistance target b ≤ kadDistance target a :=
      ⟨fun a b => le_total _ _⟩
    have : IsTrans (KadNode n) fun a b => kadDistance target b ≤ kadDistance target a :=
      ⟨fun a b c hab hbc => hbc.trans hab⟩
    have hinsert := hsorted.orderedInsert (a := key)
    obtain ⟨l, hl, hperm, hpairs⟩ := ih hinsert
    refine ⟨l, ?_, ?_, hpairs⟩
    · rw [sortByDistance, if_neg (not_lt.mpr hn), insertByDistance_eq, hl]
    · refine hperm.trans (((perm_orderedInsert _ key sorted).append_right rest).trans ?_)
      exact perm_middle.symm

namespace KadTable

/-- The call returns the nearest nodes of the table, nearest first. -/
def AnswersClosest (t : KadTable n) (target : KadId n) (k : ℤ) : Prop :=
  ∃ l : List (KadNode n), t.kadTableClosest target k = some ((l.length : ℤ), l) ∧
    (l.length : ℤ) = min k t.kadTableSize ∧
    Nearest (kadDistance target) k.toNat t.allNodes.toFinset l

theorem length_allNodes (t : KadTable n) : t.allNodes.length = t.kadTableSize :=
  length_flatMap

variable {t : KadTable n} {id : KadId n}

theorem kadTableClosest_overrun {k : ℤ} (hk : 0 < k) (hn : kadDistBuf < n)
    (hsize : 1 < t.kadTableSize) : t.kadTableClosest target k = none := by
  rw [← length_allNodes] at hsize
  rw [kadTableClosest, if_neg (not_le.mpr hk)]
  match hnodes : t.allNodes with
  | [] =>
    rw [hnodes] at hsize
    cases hsize
  | [first] =>
    rw [hnodes] at hsize
    exact absurd hsize (by simp)
  | first :: key :: rest =>
    dsimp only
    rw [sortByDistance, if_pos hn, map_none]

theorem sortByDistance_nodes (target : KadId n) {first : KadNode n} {rest : List (KadNode n)}
    (h : n ≤ kadDistBuf ∨ (first :: rest).length ≤ 1) :
    ∃ l, sortByDistance target [first] rest = some l ∧ l.Perm (first :: rest) ∧
      l.Pairwise fun a b => kadDistance target a ≤ kadDistance target b := by
  rcases h with hn | hone
  · exact sortByDistance_spec hn rest (pairwise_singleton _ first)
  · obtain rfl : rest = [] := by
      rw [length_cons] at hone
      exact length_eq_zero_iff.mp (by omega)
    exact ⟨[first], rfl, Perm.refl _, pairwise_singleton _ first⟩

theorem answersClosest_iff (hids : (t.allNodes.map KadNode.id).Nodup) (target : KadId n) (k : ℤ) :
    t.AnswersClosest target k ↔ 0 < k ∧ (n ≤ kadDistBuf ∨ t.kadTableSize ≤ 1) := by
  constructor
  · rintro ⟨l, hl, hlength, -⟩
    have hk : 0 < k := by
      by_contra hk
      rw [kadTableClosest, if_pos (not_lt.mp hk)] at hl
      have hcode : (-1 : ℤ) = l.length := congrArg Prod.fst (some.inj hl)
      omega
    refine ⟨hk, ?_⟩
    by_contra hlarge
    obtain ⟨hn, hsize⟩ := not_or.mp hlarge
    rw [kadTableClosest_overrun hk (not_le.mp hn) (not_le.mp hsize)] at hl
    cases hl
  · rintro ⟨hk, hfits⟩
    rw [← length_allNodes] at hfits
    rw [AnswersClosest, ← length_allNodes, kadTableClosest, if_neg (not_le.mpr hk)]
    cases hnodes : t.allNodes with
    | nil =>
      refine ⟨[], rfl, ?_, Nearest.empty _ _⟩
      rw [length_nil]
      exact (min_eq_right hk.le).symm
    | cons first rest =>
      rw [hnodes] at hfits hids
      obtain ⟨sorted, hsort, hperm, hle⟩ := sortByDistance_nodes target hfits
      have hlt : sorted.Pairwise fun a b => kadDistance target a < kadDistance target b := by
        have hne : sorted.Pairwise fun a b => a.id ≠ b.id :=
          pairwise_map.mp ((hperm.map KadNode.id).nodup_iff.mpr hids)
        refine (hle.and hne).imp ?_
        rintro a b ⟨hle, hne⟩
        exact lt_of_le_of_ne hle fun heq => hne (kadDistance_inj.mp heq)
      have hlen := hperm.length_eq
      -- Both counts are the smaller one of the two.
      have hcount : (if ((first :: rest).length : ℤ) < k then ((first :: rest).length : ℤ) else k) =
          (sorted.take k.toNat).length := by
        rw [length_take, hlen]
        split_ifs <;> omega
      have htake : sorted.take (sorted.take k.toNat).length = sorted.take k.toNat := by
        rw [length_take, take_eq_take_iff]
        omega
      refine ⟨sorted.take k.toNat, ?_, ?_, ?_⟩
      · dsimp only
        rw [hsort, map_some, hcount, Int.toNat_natCast, htake]
      · rw [length_take, hlen]
        omega
      · rw [← toFinset_eq_of_perm _ _ hperm]
        exact Nearest.take hlt k.toNat

def commonBits (t : KadTable n) (id : KadId n) : ℕ :=
  commonPrefixLength (bits t.selfId.bytes) (bits id.bytes)

/-- Every node is in the bucket of its common bits, once. -/
def InPlace (t : KadTable n) : Prop :=
  (t.allNodes.map KadNode.id).Nodup ∧
    ∀ i b, t.buckets[i]? = some b → ∀ m ∈ b.nodes, t.commonBits m.id = i

/-- The id is accepted although it has no bucket of its own. -/
def Misplaces (t : KadTable n) (id : KadId n) : Prop :=
  t.Accepts id ∧ t.bucketCount ≤ t.commonBits id

instance (t : KadTable n) (id : KadId n) : Decidable (t.Misplaces id) :=
  inferInstanceAs (Decidable (_ ∧ _))

theorem cInt_eq (x : ℕ) : cInt x = if (x : ℤ) % 4294967296 < 2147483648 then (x : ℤ) % 4294967296
    else (x : ℤ) % 4294967296 - 4294967296 := by
  have hpow : ((2 ^ 32 : ℕ) : ℤ) = 4294967296 := by norm_num
  unfold cInt
  simp only [Int.bmod_def, hpow]
  norm_num

theorem cInt_le (x : ℕ) : cInt x ≤ x := by
  rw [cInt_eq]
  split_ifs <;> omega

theorem cInt_lt (x : ℕ) : cInt x < 2147483648 := by
  rw [cInt_eq]
  split_ifs <;> omega

theorem cInt_of_lt {x : ℕ} (h : x < 2147483648) : cInt x = x := by
  rw [cInt_eq]
  split_ifs <;> omega

theorem length_bits (bs : Bytes) : (bits bs).length = 8 * bs.length := by
  rw [bits, length_flatMap]
  simp only [length_lowBits, map_const', sum_replicate, smul_eq_mul]
  exact Nat.mul_comm _ _

theorem commonPrefixLength_self (l : List Bool) : commonPrefixLength l l = l.length := by
  have h := commonPrefixLength_append_self l [] []
  rwa [append_nil] at h

theorem commonBits_self (t : KadTable n) : t.commonBits t.selfId = 8 * n := by
  rw [commonBits, commonPrefixLength_self, length_bits, t.selfId.length_bytes]

theorem firstBit_distance (t : KadTable n) (id : KadId n) :
    firstBit 0 (kadTableXorDistance t.selfId id) =
      if t.selfId = id then none else some (t.commonBits id) := by
  have hid : t.selfId.bytes = id.bytes ↔ t.selfId = id := by
    cases t.selfId
    cases id
    simp
  rw [kadTableXorDistance, firstBit_xor (t.selfId.length_bytes.trans id.length_bytes.symm)]
  simp only [hid, Nat.zero_mul, Nat.zero_add]
  rfl

theorem bucketIndex_eq (t : KadTable n) (id : KadId n) : t.bucketIndex id =
    if t.selfId = id then t.bucketCount - 1 else cInt (t.commonBits id) := by
  rw [bucketIndex, firstBit_distance]
  by_cases heq : t.selfId = id
  · rw [if_pos heq, if_pos heq]
  · rw [if_neg heq, if_neg heq]

def Sized (t : KadTable n) : Prop := t.bucketCount = cInt (n * 8)

theorem Sized.bucketIndex_eq_iff (h : t.Sized) (hacc : t.Accepts id) :
    t.bucketIndex id = t.commonBits id ↔ ¬ t.Misplaces id := by
  have hle := cInt_le (n * 8)
  have hlt := cInt_lt (n * 8)
  rw [← h] at hle hlt
  have hindex := t.bucketIndex_eq id
  have hacc' := hacc
  rw [Accepts] at hacc'
  constructor
  · rintro heq ⟨-, hcommon⟩
    omega
  · intro hmis
    have hcommon : ¬ t.bucketCount ≤ t.commonBits id := fun hcommon => hmis ⟨hacc, hcommon⟩
    by_cases hself : t.selfId = id
    · have hbits := t.commonBits_self
      rw [hself] at hbits
      push_cast at hle
      omega
    · rw [hindex, if_neg hself, cInt_of_lt (by omega)]

theorem ids_eq_idsAt {i : ℕ} {b : KBucket n} (h : t.buckets[i]? = some b) : b.ids = t.idsAt i := by
  rw [idsAt, h, elim_some]

theorem Placed.nodup_ids (h : t.Placed) : (t.allNodes.map KadNode.id).Nodup := by
  rw [allNodes, map_flatMap]
  refine nodup_flatMap.mpr ⟨fun b hb => ?_, pairwise_iff_getElem.mpr ?_⟩
  · obtain ⟨i, hi⟩ := getElem?_of_mem hb
    change b.ids.Nodup
    rw [ids_eq_idsAt hi]
    exact h.nodup i
  · intro i j hi hj hij id hmem hmem'
    change id ∈ t.buckets[i].ids at hmem
    change id ∈ t.buckets[j].ids at hmem'
    rw [ids_eq_idsAt (getElem?_eq_getElem hi)] at hmem
    rw [ids_eq_idsAt (getElem?_eq_getElem hj)] at hmem'
    have hindex := (h.index i id hmem).symm.trans (h.index j id hmem')
    omega

theorem Placed.inPlace_iff (h : t.Placed) (hsized : t.Sized) :
    t.InPlace ↔ ∀ id, t.Stored id → ¬ t.Misplaces id := by
  constructor
  · rintro ⟨-, hplace⟩ id ⟨i, hmem⟩
    obtain ⟨hacc, hindex⟩ := h.mem_idsAt hmem
    refine (hsized.bucketIndex_eq_iff hacc).mp ?_
    rw [idsAt] at hmem
    cases hb : t.buckets[i]? with
    | none =>
      rw [hb] at hmem
      cases hmem
    | some b =>
      rw [hb] at hmem
      obtain ⟨m, hm, rfl⟩ := mem_map.mp hmem
      rw [hindex, hplace i b hb m hm]
  · intro hstored
    refine ⟨h.nodup_ids, ?_⟩
    intro i b hb m hm
    have hmem : m.id ∈ t.idsAt i := by
      rw [← ids_eq_idsAt hb]
      exact mem_map_of_mem hm
    obtain ⟨hacc, hindex⟩ := h.mem_idsAt hmem
    have hcommon := (hsized.bucketIndex_eq_iff hacc).mpr (hstored m.id ⟨i, hmem⟩)
    omega

section
variable (run : Run (calls n)) {p : ℕ}

theorem sized_state (hp : p ≤ run.len) : (run.state p).Sized := by
  refine run.invariant (I := Sized) ?_ ?_ p hp
  · rintro t ⟨self, ht⟩
    rw [kadTableNew] at ht
    split_ifs at ht with hnone
    cases ht
    rw [Sized, bucketCount, length_replicate]
    exact Int.toNat_of_nonneg (not_lt.mp fun hneg => hnone (.inr hneg))
  · intro p hp h
    rw [run.steps p hp, Sized, bucketCount, (call_kept _ _).2.2]
    exact h

theorem misplaces_state (hp : p ≤ run.len) (id : KadId n) :
    (run.state p).Misplaces id ↔ (run.state 0).Misplaces id := by
  refine run.position_induction
    (P := fun p => (run.state p).Misplaces id ↔ (run.state 0).Misplaces id) Iff.rfl ?_ p hp
  intro p hp h
  obtain ⟨hself, -, hlength⟩ := call_kept (run.state p) (run.event p)
  rw [← h, run.steps p hp, Misplaces, accepts_call, bucketCount, hlength, commonBits, hself]
  rfl

/-- Nodes are in place and the closest found exactly if no id without a bucket is left, some node is
asked for, and the ids fit the buffers or need not be compared. -/
theorem inPlace_closest_iff {p : ℕ} (hp : p ≤ run.len) (target : KadId n) (k : ℤ) :
    ((run.state p).InPlace ∧ (run.state p).AnswersClosest target k) ↔
      (∀ j < p, ∀ id, (run.event j).Inserts id → (run.state 0).Misplaces id →
        ∃ i, j < i ∧ i < p ∧ run.event i = .remove id) ∧
      0 < k ∧ (n ≤ kadDistBuf ∨ (run.state p).kadTableSize ≤ 1) := by
  have hplaced := placed_state run hp
  rw [answersClosest_iff hplaced.nodup_ids, hplaced.inPlace_iff (sized_state run hp)]
  refine and_congr_left fun _ => ?_
  constructor
  · intro hstored j hj id hins hmis
    by_contra hkept
    push Not at hkept
    refine hstored id ((stored_state_iff run hp id).mpr ⟨hmis.1, j, hj, hins, ?_⟩)
      ((misplaces_state run hp id).mpr hmis)
    intro i hji hi
    exact hkept i hji hi
  · intro hremoved id hstored hmis
    obtain ⟨-, j, hj, hins, hkept⟩ := (stored_state_iff run hp id).mp hstored
    obtain ⟨i, hji, hi, hevent⟩ := hremoved j hj id hins ((misplaces_state run hp id).mp hmis)
    exact hkept i hji hi hevent

end

def byteId (b : UInt8) : KadId 1 := ⟨[b], rfl⟩

/-- The id of the table itself has no bucket of its own. It is removed again. -/
def mixedRun : Run (calls 1) :=
  Run.ofTotal call (fun _ _ => rfl) byteTable ⟨_, kadTableNew_byteTable⟩
    [.insert 0 (byteId 0) 1 1 0, .insert 0 (byteId 4) 1 1 0, .insert 0 (byteId 1) 1 1 0,
      .insert 0 (byteId 6) 1 1 0, .remove (byteId 0)]

theorem mixedRun_closest : (mixedRun.state 5).kadTableSize = 3 ∧
    (mixedRun.state 5).InPlace ∧ (mixedRun.state 5).AnswersClosest (byteId 2) 2 := by
  have hremoved : ∀ j < 5, ∀ id, (mixedRun.event j).Inserts id → (mixedRun.state 0).Misplaces id →
      ∃ i, j < i ∧ i < 5 ∧ mixedRun.event i = .remove id := by
    rintro j hj id ⟨now, ip, port, seed, hins⟩ hmis
    have hid : id = (mixedRun.event j).id := by rw [hins]; rfl
    subst hid
    interval_cases j
    · exact ⟨4, by decide, by decide, rfl⟩
    · exact absurd hmis (by decide)
    · exact absurd hmis (by decide)
    · exact absurd hmis (by decide)
    · cases hins
  exact ⟨by decide, (inPlace_closest_iff mixedRun le_rfl (byteId 2) 2).mpr
    ⟨hremoved, by decide, .inl (by decide)⟩⟩

def longId (b : UInt8) : KadId 265 := ⟨replicate 265 b, length_replicate⟩

def longTable : KadTable 265 := ⟨longId 0, kadKDefault, replicate 2120 ⟨[], 0, 0⟩⟩

theorem kadTableNew_longTable : kadTableNew (longId 0) = some longTable := by
  have hcount : cInt (265 * 8) = 2120 := cInt_of_lt (by decide)
  rw [kadTableNew, hcount, if_neg (by decide)]
  rfl

def longRun : Run (calls 265) :=
  Run.ofTotal call (fun _ _ => rfl) longTable ⟨_, kadTableNew_longTable⟩
    [.insert 0 (longId 128) 1 1 0, .insert 0 (longId 64) 1 1 0]

theorem longRun_overrun : longRun.len = 2 ∧
    (longRun.state 2).kadTableClosest (longId 0) 1 = none ∧
    ¬ (longRun.state 2).AnswersClosest (longId 0) 1 := by
  have hsize : 1 < (longRun.state 2).kadTableSize := by decide +kernel
  have hnone : (longRun.state 2).kadTableClosest (longId 0) 1 = none :=
    kadTableClosest_overrun (by decide) (by decide) hsize
  refine ⟨rfl, hnone, ?_⟩
  rintro ⟨l, hl, -⟩
  rw [hnone] at hl
  cases hl

end KadTable
end Norn
