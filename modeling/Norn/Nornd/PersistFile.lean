import Norn.Dht.Publish
import Norn.Nornd.Persist

/-!
# Reading a saved file back

The loader finds in a saved file what was written, unless a counted item has expired.
-/

namespace Norn
open List

inductive PublogReachable : List PublogEntry → Prop where
  | init : PublogReachable []
  | add {p : List PublogEntry} (h : PublogReachable p) (now : ℤ) {target : Bytes} (immutable : Bool)
      (name : Bytes) {value : Option Bytes} {vlen seq : ℕ} (htarget : target.length = 20)
      (hvalue : ∀ v ∈ value, vlen ≤ publogMaxVal → vlen ≤ v.length) (hseq : seq < 2 ^ 32) :
      PublogReachable (publogAdd now target immutable name value vlen seq p).2

structure PublogEntry.Valid (e : PublogEntry) : Prop where
  length_target : e.target.length = 20
  name_le : e.name.length ≤ 127
  nulFree : 0 ∉ e.name
  length_buf : e.buf.length = publogMaxVal
  seq_lt : e.seq < 2 ^ 32

structure PublogSound (p : List PublogEntry) : Prop where
  nodup : (p.map PublogEntry.target).Nodup
  length_le : p.length ≤ publogMax
  valid : ∀ e ∈ p, e.Valid

theorem PublogEntry.length_fillBuf {value : Option Bytes} {vlen : ℕ} {buf : Bytes}
    (hvalue : ∀ v ∈ value, vlen ≤ publogMaxVal → vlen ≤ v.length)
    (hbuf : buf.length = publogMaxVal) : (fillBuf value vlen buf).length = publogMaxVal := by
  have htail : (0 :: buf.tail).length = publogMaxVal := by
    rw [length_cons, length_tail, hbuf]
    rfl
  cases value with
  | none => exact htail
  | some v =>
    unfold fillBuf
    dsimp only
    split_ifs with hle
    · have hlen := hvalue v rfl hle
      rw [length_append, length_take, length_drop, hbuf]
      omega
    · exact htail

variable {p : List PublogEntry} {e : PublogEntry}
section
variable {now : ℤ} {target name : Bytes} {immutable : Bool} {value : Option Bytes} {vlen seq : ℕ}

theorem mem_publogAdd (hp : (p.map PublogEntry.target).Nodup)
    (he : e ∈ (publogAdd now target immutable name value vlen seq p).2) :
    (∃ buf, (buf = .replicate publogMaxVal 0 ∨ ∃ x ∈ p, x.buf = buf) ∧
      e = ⟨target, immutable, (cString name).take 127, vlen, PublogEntry.fillBuf value vlen buf, seq,
        now⟩) ∨ e ∈ p ∧ e.target ≠ target := by
  unfold publogAdd at he
  dsimp only at he
  cases hfind : p.findIdx? fun e => e.target = target with
  | none =>
    have hnew := findIdx?_eq_none_iff.mp hfind
    rw [hfind] at he
    dsimp only at he
    split_ifs at he with hlen
    · rcases mem_append.mp he with he | he
      · exact .inr ⟨he, of_decide_eq_false (hnew e he)⟩
      · exact .inl ⟨_, .inl rfl, mem_singleton.mp he⟩
    · exact .inr ⟨he, of_decide_eq_false (hnew e he)⟩
  | some i =>
    obtain ⟨hlt, hi, -⟩ := findIdx?_eq_some_iff_getElem.mp hfind
    rw [hfind] at he
    obtain ⟨j, hj⟩ := getElem?_of_mem he
    rw [getElem?_modify] at hj
    obtain ⟨x, hx, rfl⟩ := Option.map_eq_some_iff.mp hj
    by_cases hij : i = j
    · rw [if_pos hij]
      exact .inl ⟨x.buf, .inr ⟨x, mem_of_getElem? hx, rfl⟩, rfl⟩
    · rw [if_neg hij]
      refine .inr ⟨mem_of_getElem? hx, ?_⟩
      intro htarget
      -- two entries of one target are the same entry
      obtain ⟨hj, rfl⟩ := List.getElem?_eq_some_iff.mp hx
      apply hij
      apply (@Nodup.getElem_inj_iff _ _ hp i (by rwa [length_map]) j (by rwa [length_map])).mp
      rw [getElem_map, getElem_map, of_decide_eq_true hi, htarget]

theorem nodup_publogAdd (hp : (p.map PublogEntry.target).Nodup) :
    ((publogAdd now target immutable name value vlen seq p).2.map PublogEntry.target).Nodup := by
  unfold publogAdd
  dsimp only
  cases hfind : p.findIdx? fun e => e.target = target with
  | none =>
    dsimp only
    split_ifs with hlen
    · apply Compact.nodup_map_concat hp
      intro x hx
      exact of_decide_eq_false (findIdx?_eq_none_iff.mp hfind x hx)
    · exact hp
  | some i =>
    obtain ⟨hlt, hi, -⟩ := findIdx?_eq_some_iff_getElem.mp hfind
    dsimp only
    rw [Compact.map_modify_key]
    · exact hp
    · rw [getElem?_eq_getElem hlt]
      rintro e ⟨⟩
      exact (of_decide_eq_true hi).symm

theorem length_publogAdd_le (hp : p.length ≤ publogMax) :
    (publogAdd now target immutable name value vlen seq p).2.length ≤ publogMax := by
  unfold publogAdd
  dsimp only
  split
  · rwa [length_modify]
  · split_ifs with hlen
    · rw [length_append, length_singleton]
      exact hlen
    · exact hp

end

theorem PublogReachable.sound (h : PublogReachable p) : PublogSound p := by
  induction h with
  | init => exact ⟨nodup_nil, by decide, forall_mem_nil _⟩
  | add h now immutable name htarget hvalue hseq ih =>
    refine ⟨nodup_publogAdd ih.nodup, length_publogAdd_le ih.length_le, ?_⟩
    intro e he
    rcases mem_publogAdd ih.nodup he with ⟨buf, hbuf, rfl⟩ | ⟨he, -⟩
    · have hlength : buf.length = publogMaxVal := by
        rcases hbuf with rfl | ⟨x, hx, rfl⟩
        · exact length_replicate
        · exact (ih.valid x hx).length_buf
      refine ⟨htarget, length_take_le _ _, ?_, PublogEntry.length_fillBuf hvalue hlength, hseq⟩
      intro hmem
      have hne := mem_takeWhile_imp (mem_of_mem_take hmem)
      exact of_decide_eq_true hne rfl
    · exact ih.valid e he

theorem freadNat_flag (b : Bool) (rest : Bytes) :
    freadNat 1 (flag b ++ rest) = some (if b then 1 else 0, rest) := by
  cases b <;> rfl

theorem decide_flag (b : Bool) : decide ((if b = true then 1 else 0) ≠ 0) = b := by
  cases b <;> rfl

theorem PublogEntry.length_value (he : e.Valid) (hlen : e.vlen ≤ publogMaxVal) :
    e.value.length = e.vlen := by
  have hbuf := he.length_buf
  rw [value, length_take]
  omega

theorem readEntry_encode (he : e.Valid) (hlen : e.vlen ≤ publogMaxVal) (rest : Bytes) :
    readEntry (e.encode ++ rest) =
      some ((e.target, e.immutable, e.name, (if e.vlen = 0 then none else some e.value), e.vlen,
        e.seq), rest) := by
  have hname : e.name.length < 256 ^ 1 := by
    have hle := he.name_le
    omega
  have hseq : e.seq < 256 ^ 4 := he.seq_lt
  have hvlen : e.vlen < 256 ^ 4 := hlen.trans_lt (by decide)
  have hvalue := PublogEntry.length_value he hlen
  unfold readEntry PublogEntry.encode
  simp only [append_assoc, fread_append he.length_target, freadNat_flag,
    freadNat_append hvlen, freadNat_append hseq, fread_append (length_littleEndian 8 _),
    freadNat_append hname, fread_append (rfl : e.name.length = _), freadUpTo_append hvalue hlen,
    Option.bind_eq_bind, Option.bind_some, decide_flag]

variable {e : DhtItem}

theorem readRecord_encode {C : DhtCrypto} (he : e.Valid C) (rest : Bytes) :
    readRecord (e.encode ++ rest) = some ({ e with srcIp := 0, stored := 0 }, e.v.length, rest) := by
  have hseq : e.seq < 256 ^ 4 := he.seq_lt
  have hle := he.v_le
  unfold dhtstoreVmax at hle
  have hvlen : e.v.length < 256 ^ 4 := hle.trans_lt (by decide)
  unfold readRecord DhtItem.encode
  simp only [append_assoc, fread_append he.length_target, freadNat_flag,
    freadNat_append hvlen, freadNat_append hseq, fread_append he.length_k,
    fread_append he.length_sig, freadUpTo_append rfl (show e.v.length ≤ 1024 by omega),
    Option.bind_eq_bind, Option.bind_some, decide_flag]

def loadedLog (now : ℤ) (p q : List PublogEntry) : List PublogEntry :=
  q.foldl (fun p e => (publogAdd now e.target e.immutable e.name
    (if e.vlen = 0 then none else some e.value) e.vlen e.seq p).2) p

theorem loadEntries_flatMap (now : ℤ) {q : List PublogEntry} (hvalid : ∀ e ∈ q, e.Valid)
    (hlen : ∀ e ∈ q, e.vlen ≤ publogMaxVal) (rest : Bytes) (p : List PublogEntry) :
    loadEntries now q.length (q.flatMap PublogEntry.encode ++ rest) p =
      (some rest, loadedLog now p q) := by
  induction q generalizing p with
  | nil => rfl
  | cons e q ih =>
    obtain ⟨he, hvalid⟩ := forall_mem_cons.mp hvalid
    obtain ⟨hle, hlen⟩ := forall_mem_cons.mp hlen
    rw [length_cons, loadEntries, flatMap_cons, append_assoc,
      readEntry_encode he hle]
    exact ih hvalid hlen _

section
variable {C : DhtCrypto} (now : ℤ)

theorem loadRecords_flatMap {records : List DhtItem} (hvalid : ∀ e ∈ records, e.Valid C) {n : ℕ}
    (hn : records.length ≤ n) (s : DhtStore) :
    loadRecords C now n (records.flatMap DhtItem.encode) s =
      (decide (n = records.length), records.foldl (restore C now) s) := by
  induction records generalizing n s with
  | nil =>
    cases n with
    | zero => rfl
    | succ n =>
      rw [loadRecords, flatMap_nil]
      rfl
  | cons e records ih =>
    obtain ⟨he, hvalid⟩ := forall_mem_cons.mp hvalid
    obtain ⟨n, rfl⟩ := Nat.exists_eq_add_of_lt (show 0 < n by rw [length_cons] at hn; omega)
    rw [length_cons] at hn
    have hle := he.v_le
    unfold dhtstoreVmax at hle
    rw [Nat.zero_add, loadRecords, flatMap_cons, readRecord_encode he]
    dsimp only
    rw [if_neg (by omega), ih hvalid (by omega)]
    have hcount : decide (n = records.length) = decide (n + 1 = (e :: records).length) := by
      rw [length_cons, decide_eq_decide]
      omega
    rw [hcount]
    rfl

theorem heldTotal_le (s : DhtStore) : heldTotal s ≤ 256 := by
  have hfalse : (nornDhtList false 128 s).length ≤ 128 := length_take_le _ _
  have htrue : (nornDhtList true 128 s).length ≤ 128 := length_take_le _ _
  unfold heldTotal
  omega

theorem dhtPersistLoad_save (hp : PublogSound p) (hlen : ∀ e ∈ p, e.vlen ≤ publogMaxVal)
    {s : DhtStore} (hvalid : ∀ e ∈ (heldRecords now s).1, e.Valid C)
    (htotal : (heldRecords now s).1.length ≤ heldTotal s) :
    ∃ file, (dhtPersistSave now p s).1 = some file ∧ ∀ now' q t,
      dhtPersistLoad C now' file q t =
        (if heldTotal s = (heldRecords now s).1.length then 0 else -1, loadedLog now' q p,
          (heldRecords now s).1.foldl (restore C now') t) := by
  have hall : p.all (fun e => e.vlen ≤ publogMaxVal) = true :=
    all_eq_true.mpr fun e he => decide_eq_true (hlen e he)
  have hcount : p.length < 256 ^ 4 := hp.length_le.trans_lt (by decide)
  have hheld : heldTotal s < 256 ^ 4 := (heldTotal_le s).trans_lt (by decide)
  have hmagic : dhtPersistMagic < 256 ^ 4 := by
    unfold dhtPersistMagic
    omega
  unfold dhtPersistSave
  dsimp only
  rw [if_pos hall]
  refine ⟨_, rfl, ?_⟩
  intro now' q t
  have hversion : dhtPersistVersion < 256 ^ 4 := by decide
  simp only [dhtPersistLoad, freadNat_append hmagic, freadNat_append hversion,
    freadNat_append hcount, loadEntries_flatMap now' hp.valid hlen, freadNat_append hheld,
    loadRecords_flatMap now' hvalid htotal, decide_eq_true_eq, ne_eq, not_true_eq_false, or_self,
    if_false]

end

namespace DhtStore
variable {C : DhtCrypto} {s : DhtStore} {now : ℤ}

def fresh (now : ℤ) (items : List DhtItem) : List DhtItem := items.filter fun e => !e.expired now

variable {items : List DhtItem}

theorem heldOfKind_eq (h : Sound C s) (hsub : ∀ e ∈ items, e ∈ s.items) {t : DhtStore}
    (ht : t.expire now = s.expire now) :
    heldOfKind now items t = (fresh now items, if items = [] then t else s.expire now) := by
  induction items generalizing t with
  | nil => rfl
  | cons e items ih =>
    obtain ⟨he, hsub⟩ := forall_mem_cons.mp hsub
    have hget : dhtstoreGetEx now e.target 1024 t = dhtstoreGetEx now e.target 1024 s := by
      unfold dhtstoreGetEx
      rw [ht]
    have hv : e.v.take 1024 = e.v := by
      apply take_of_length_le
      have hle := (h.valid e he).v_le
      unfold dhtstoreVmax at hle
      omega
    rw [heldOfKind, hget, show (dhtstoreGetEx now e.target 1024 s).2 = s.expire now from rfl,
      ih hsub (expire_expire now s), h.get_of_mem now he, hv, if_neg (cons_ne_nil e items)]
    have hstore : (if items = [] then s.expire now else s.expire now) = s.expire now := ite_self _
    rw [hstore, fresh, fresh, filter_cons]
    cases e.expired now <;> rfl

theorem mem_nornDhtList {want : Bool} (he : e ∈ nornDhtList want 128 s) :
    e ∈ s.items ∧ e.immutable = want := by
  obtain ⟨hmem, hkind⟩ := mem_filter.mp (mem_of_mem_take he)
  exact ⟨hmem, of_decide_eq_true hkind⟩

theorem heldRecords_eq (h : Sound C s) :
    (heldRecords now s).1 = fresh now (nornDhtList false 128 s) ++
      fresh now (nornDhtList true 128
        (if nornDhtList false 128 s = [] then s else s.expire now)) := by
  unfold heldRecords
  dsimp only
  rw [heldOfKind_eq h (fun e he => (mem_nornDhtList he).1) rfl]
  dsimp only
  congr 1
  split_ifs
  · rw [heldOfKind_eq h (fun e he => (mem_nornDhtList he).1) rfl]
  · rw [heldOfKind_eq (h.expire now) (fun e he => (mem_nornDhtList he).1) rfl]

theorem valid_heldRecords (h : Sound C s) : ∀ e ∈ (heldRecords now s).1, e.Valid C := by
  intro e he
  rw [heldRecords_eq h, mem_append] at he
  rcases he with he | he
  · exact h.valid e (mem_nornDhtList (mem_filter.mp he).1).1
  · have hmem := (mem_nornDhtList (mem_filter.mp he).1).1
    split_ifs at hmem
    · exact h.valid e hmem
    · exact h.valid e (mem_expire.mp hmem).1

def freshImmutable (now : ℤ) (s : DhtStore) : List DhtItem :=
  (fresh now s.items).filter fun e => e.immutable

theorem length_immutable_expire (now : ℤ) (s : DhtStore) :
    (nornDhtList true 128 (s.expire now)).length = min 128 (freshImmutable now s).length := by
  have hperm : ((s.expire now).items.filter fun e => e.immutable = true).Perm
      (freshImmutable now s) := by
    have h := (expire_perm now s).filter fun e => decide (e.immutable = true)
    simpa [freshImmutable, fresh] using h
  rw [← hperm.length_eq]
  exact length_take

/-- No item that was counted has expired. -/
def Counted (now : ℤ) (s : DhtStore) : Prop :=
  (∀ e ∈ nornDhtList false 128 s, e.expired now = false) ∧
    ((∀ e ∈ nornDhtList true 128 s, e.expired now = false) ∨
      nornDhtList false 128 s ≠ [] ∧ 128 ≤ (freshImmutable now s).length)

theorem length_fresh_eq_iff :
    items.length = (fresh now items).length ↔ ∀ e ∈ items, e.expired now = false := by
  rw [eq_comm, fresh, length_filter_eq_length_iff]
  simp only [Bool.not_eq_true']

theorem freshImmutable_eq (now : ℤ) (s : DhtStore) :
    freshImmutable now s = fresh now (s.items.filter fun e => e.immutable = true) := by
  unfold freshImmutable fresh
  rw [filter_filter, filter_filter]
  congr 1
  funext e
  cases e.immutable <;> cases e.expired now <;> rfl

theorem length_immutable_le (now : ℤ) (s : DhtStore) :
    min 128 (freshImmutable now s).length ≤ (nornDhtList true 128 s).length := by
  have hle := length_filter_le (fun e => !e.expired now)
    (s.items.filter fun e => e.immutable = true)
  rw [freshImmutable_eq, show nornDhtList true 128 s =
    (s.items.filter fun e => e.immutable = true).take 128 from rfl, length_take]
  exact min_le_min_left 128 hle

theorem immutable_counted_iff :
    (nornDhtList true 128 s).length = min 128 (freshImmutable now s).length ↔
      (∀ e ∈ nornDhtList true 128 s, e.expired now = false) ∨
        128 ≤ (freshImmutable now s).length := by
  have hlist : nornDhtList true 128 s = (s.items.filter fun e => e.immutable = true).take 128 := rfl
  rw [hlist, freshImmutable_eq]
  generalize s.items.filter (fun e => e.immutable = true) = items
  have hle := length_filter_le (fun e => !e.expired now) items
  change (fresh now items).length ≤ items.length at hle
  rw [length_take]
  constructor
  · intro h
    by_cases henough : 128 ≤ (fresh now items).length
    · exact .inr henough
    · have hfresh : ∀ e ∈ items, e.expired now = false := length_fresh_eq_iff.mp (by omega)
      exact .inl fun e he => hfresh e (mem_of_mem_take he)
  · rintro (h | h)
    · have htake : (items.take 128).length = (fresh now (items.take 128)).length :=
        length_fresh_eq_iff.mpr h
      have hsub : (fresh now (items.take 128)).length ≤ (fresh now items).length :=
        ((take_sublist 128 items).filter _).length_le
      rw [length_take] at htake
      omega
    · omega

theorem heldTotal_eq_iff (now : ℤ) (h : Sound C s) : (heldRecords now s).1.length ≤ heldTotal s ∧
      (heldTotal s = (heldRecords now s).1.length ↔ Counted now s) := by
  have hmutable : (fresh now (nornDhtList false 128 s)).length ≤ (nornDhtList false 128 s).length :=
    length_filter_le _ _
  have hfalse : (nornDhtList false 128 s).length = (fresh now (nornDhtList false 128 s)).length ↔
      ∀ e ∈ nornDhtList false 128 s, e.expired now = false := length_fresh_eq_iff
  rw [heldRecords_eq h, length_append]
  unfold heldTotal Counted
  by_cases hnil : nornDhtList false 128 s = []
  · have htrue : (nornDhtList true 128 s).length = (fresh now (nornDhtList true 128 s)).length ↔
        ∀ e ∈ nornDhtList true 128 s, e.expired now = false := length_fresh_eq_iff
    have hle : (fresh now (nornDhtList true 128 s)).length ≤ (nornDhtList true 128 s).length :=
      length_filter_le _ _
    rw [if_pos hnil, ← hfalse, ← htrue]
    refine ⟨by omega, ?_⟩
    constructor
    · intro heq
      exact ⟨by omega, .inl (by omega)⟩
    · rintro ⟨hmut, himm | ⟨hne, -⟩⟩
      · omega
      · exact absurd hnil hne
  · have hswept : fresh now (nornDhtList true 128 (s.expire now)) =
        nornDhtList true 128 (s.expire now) := by
      apply filter_eq_self.mpr
      intro e he
      rw [(mem_expire.mp (mem_nornDhtList he).1).2]
      rfl
    have hlist := length_immutable_expire now s
    have hle := length_immutable_le now s
    have hiff : (nornDhtList true 128 s).length = min 128 (freshImmutable now s).length ↔
        (∀ e ∈ nornDhtList true 128 s, e.expired now = false) ∨
          128 ≤ (freshImmutable now s).length := immutable_counted_iff
    rw [if_neg hnil, hswept, hlist, ← hfalse]
    refine ⟨by omega, ?_⟩
    constructor
    · intro heq
      refine ⟨by omega, ?_⟩
      rcases hiff.mp (by omega) with hfresh | henough
      · exact .inl hfresh
      · exact .inr ⟨hnil, henough⟩
    · rintro ⟨hmut, himm⟩
      have hcount := hiff.mpr (himm.imp_right And.right)
      omega

end DhtStore

theorem vlen_le_of_saved {now : ℤ} {s : DhtStore} {file : Bytes}
    (h : (dhtPersistSave now p s).1 = some file) : ∀ e ∈ p, e.vlen ≤ publogMaxVal := by
  unfold dhtPersistSave at h
  dsimp only at h
  split_ifs at h with hall
  exact fun e he => of_decide_eq_true (all_eq_true.mp hall e he)

/-- A saved file is accepted exactly if no logged value is too long and no counted item has expired.
-/
theorem saved_loadable_iff {C : DhtCrypto} {p : List PublogEntry} {s : DhtStore}
    (hp : PublogReachable p) (hs : DhtStore.Reachable C s) (now : ℤ) :
    (∃ file, (dhtPersistSave now p s).1 = some file ∧
      heldTotal s = (heldRecords now s).1.length ∧
      ∀ now' q t, (dhtPersistLoad C now' file q t).1 = 0) ↔
    (∀ e ∈ p, e.vlen ≤ publogMaxVal) ∧ s.Counted now := by
  obtain ⟨hle, hiff⟩ := DhtStore.heldTotal_eq_iff now hs.sound
  rw [← hiff]
  constructor
  · rintro ⟨file, hfile, hcount, -⟩
    exact ⟨vlen_le_of_saved hfile, hcount⟩
  · rintro ⟨hlen, hcount⟩
    obtain ⟨file, hfile, hload⟩ :=
      dhtPersistLoad_save now hp.sound hlen (DhtStore.valid_heldRecords hs.sound) hle
    refine ⟨file, hfile, hcount, ?_⟩
    intro now' q t
    rw [hload, if_pos hcount]

def oneItem : DhtStore :=
  (dhtstorePutImmutable toyCrypto 0 [7] 1 (dhtstoreInit (dhtstoreBudget 2 false 0))).2

theorem oneItem_reachable : DhtStore.Reachable toyCrypto oneItem :=
  .putImmutable (.init 2 false 0) 0 [7] 1

theorem oneItem_loadable :
    ∃ file, (dhtPersistSave 10 [] oneItem).1 = some file ∧
      heldTotal oneItem = (heldRecords 10 oneItem).1.length ∧
      ∀ now' q t, (dhtPersistLoad toyCrypto now' file q t).1 = 0 := by
  refine (saved_loadable_iff .init oneItem_reachable 10).mpr ⟨forall_mem_nil _, ?_, .inl ?_⟩
  · decide +kernel
  · decide +kernel

/-- The log after `publog-add` with a value of 1025 bytes. The buffer of an entry has 1024. -/
def longEntry : List PublogEntry :=
  (publogAdd 0 (.replicate 20 7) false [] (some (.replicate 1025 7)) 1025 1 []).2

theorem longEntry_reachable : PublogReachable longEntry :=
  .add .init 0 false [] length_replicate (by rintro v ⟨⟩ hle; exact absurd hle (by decide)) (by decide)

/-- `nornd` never starts its store, which then stays empty: there the logged value is what goes
wrong. -/
theorem oneItem_not_loadable :
    (∃ file, (dhtPersistSave 8000 [] oneItem).1 = some file ∧
      (dhtPersistLoad toyCrypto 8000 file [] (dhtstoreInit (dhtstoreBudget 2 false 0))).1 = -1) ∧
    PublogReachable longEntry ∧ DhtStore.Reachable toyCrypto (dhtstoreInit 0) ∧
      (dhtPersistSave 0 longEntry (dhtstoreInit 0)).1 = none :=
  ⟨⟨_, rfl, by decide +kernel⟩, longEntry_reachable, .idle, by decide +kernel⟩

end Norn
