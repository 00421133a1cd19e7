import Norn.Kv.Store
import Norn.Lib.Slots

/-!
# The store refines a bounded finite map

A command acts on the finite map that the used slots hold, whichever slots these are.
-/

namespace Norn
open List Option
open Slots (contents)
open Finmap (keys mem_keys)

abbrev KvMap := Finmap fun _ : Bytes => Bytes

namespace KvMap

def put (cap : ℕ) (m : KvMap) (key val : Bytes) : ℤ × KvMap :=
  if key ∈ m ∨ m.keys.card < cap then (1, m.insert key val) else (-1, m)

def del (m : KvMap) (key : Bytes) : ℤ × KvMap := if key ∈ m then (1, m.erase key) else (0, m)

def cas (cap : ℕ) (m : KvMap) (key expect val : Bytes) : ℤ × KvMap :=
  if (m.lookup key).getD [] = expect then m.put cap key val else (0, m)

def exec (cap : ℕ) (m : KvMap) : KvCommand → ℤ × KvMap
  | .put key val => m.put cap key val
  | .del key => m.del key
  | .cas key expect val => m.cas cap key expect val

def apply (cap : ℕ) (m : KvMap) (cmd : Bytes) : ℤ × KvMap :=
  (KvCommand.parse cmd).elim (-1, m) (m.exec cap)

def Fits (m : KvMap) : Prop :=
  ∀ k v, m.lookup k = some v →
    0 < k.length ∧ k.length ≤ nornKvMaxKey ∧ v.length ≤ nornKvMaxVal

variable {m : KvMap} {key val : Bytes}

theorem Fits.insert (h : m.Fits) (hpos : 0 < key.length) (hkey : key.length ≤ nornKvMaxKey)
    (hval : val.length ≤ nornKvMaxVal) : Fits (m.insert key val) := by
  intro k v hv
  by_cases hk : k = key
  · subst hk
    rw [Finmap.lookup_insert] at hv
    cases hv
    exact ⟨hpos, hkey, hval⟩
  · rw [Finmap.lookup_insert_of_ne _ hk] at hv
    exact h k v hv

theorem Fits.erase (h : m.Fits) : Fits (m.erase key) := by
  intro k v hv
  by_cases hk : k = key
  · subst hk
    rw [Finmap.lookup_erase] at hv
    cases hv
  · rw [Finmap.lookup_erase_ne hk] at hv
    exact h k v hv

theorem keys_insert (m : KvMap) (key val : Bytes) :
    Finmap.keys (m.insert key val) = insert key m.keys := by
  ext k
  rw [Finmap.mem_keys, Finmap.mem_insert, Finset.mem_insert, Finmap.mem_keys]

end KvMap

namespace NornKv

def slot (e : KvEntry) : Option (Sigma fun _ : Bytes => Bytes) :=
  if e.used then some ⟨e.key, e.val⟩ else none

variable (kv : NornKv)

def toMap : KvMap := Slots.toMap slot kv.entries

theorem lookup_toMap (key : Bytes) : kv.toMap.lookup key = kv.lookup key := by
  rw [toMap, Slots.lookup_toMap, lookup]
  generalize kv.entries = es
  induction es with
  | nil => rfl
  | cons e es ih =>
    unfold contents at ih ⊢
    cases hused : e.used with
    | false =>
      rw [filterMap_cons_none (show slot e = none by simp [slot, hused]), ih,
        find?_cons_of_neg (by simp [holds, hused])]
    | true =>
      rw [filterMap_cons_some (show slot e = some ⟨e.key, e.val⟩ by simp [slot, hused])]
      by_cases hkey : e.key = key
      · subst hkey
        rw [dlookup_cons_eq, find?_cons_of_pos (by simp [holds, hused])]
        rfl
      · rw [dlookup_cons_ne _ _ (Ne.symm hkey), ih,
          find?_cons_of_neg (by simp [holds, hkey])]

theorem nornKvGet_eq (key : Bytes) (cap : ℕ) : nornKvGet kv key cap =
    if key.length = 0 then none else (kv.toMap.lookup key).filter fun v => v.length ≤ cap := by
  unfold nornKvGet
  rw [lookup_toMap, bind_find, lookup]
  cases kv.entries.find? (holds key) with
  | none => rfl
  | some e =>
    simp only [map_some, filter_some, decide_eq_true_eq]
    split_ifs with h₁ h₂ h₃ <;> first | rfl | omega

variable {kv : NornKv} {key buf : Bytes} {i : ℕ} {es : List KvEntry}

theorem slot_of_find (h : kv.find key = some i) :
    ∃ e, kv.entries[i]? = some e ∧ e.used = true ∧ e.key = key := by
  obtain ⟨hi, hp, _⟩ := findIdx?_eq_some_iff_getElem.mp h
  refine ⟨_, getElem?_eq_getElem hi, ?_⟩
  simpa [holds] using hp

theorem mem_toMap : key ∈ kv.toMap ↔ kv.find key ≠ none := by
  rw [← Finmap.lookup_isSome, lookup_toMap, lookup, isSome_map, ← bind_find]
  cases hfind : kv.find key with
  | none => simp
  | some i =>
    obtain ⟨e, he, _⟩ := slot_of_find hfind
    simp [he]

theorem slot_of_allocSlot (h : kv.allocSlot = some i) :
    ∃ e, kv.entries[i]? = some e ∧ slot e = none := by
  obtain ⟨hi, hp, _⟩ := findIdx?_eq_some_iff_getElem.mp h
  refine ⟨_, getElem?_eq_getElem hi, ?_⟩
  simp only [Bool.not_eq_true'] at hp
  simp [slot, hp]

/-- The table stands for a map within the limits. -/
structure Ok (cap : ℕ) (kv : NornKv) : Prop where
  length : kv.entries.length = cap
  distinct : Slots.Distinct slot kv.entries
  count : kv.count = kv.toMap.keys.card
  fits : kv.toMap.Fits

variable {cap : ℕ} {kv : NornKv} {key val : Bytes}
section
variable (h : Ok cap kv)
include h

theorem Ok.allocSlot_eq_none_iff : kv.allocSlot = none ↔ ¬ kv.toMap.keys.card < cap := by
  rw [toMap, Slots.card_toMap h.distinct, ← h.length, ← Slots.exists_free_iff, allocSlot,
    findIdx?_eq_none_iff]
  simp [slot]

theorem Ok.fill (hi : kv.allocSlot = some i) (hnew : key ∉ kv.toMap) (hpos : 0 < key.length)
    (hkey : key.length ≤ nornKvMaxKey) (hval : val.length ≤ nornKvMaxVal) :
    Ok cap { kv with entries := kv.entries.modify i fun _ => ⟨key, val, true⟩, count := kv.count + 1 } ∧
      toMap { kv with entries := kv.entries.modify i fun _ => ⟨key, val, true⟩, count := kv.count + 1 } =
        kv.toMap.insert key val := by
  obtain ⟨e, he, hfree⟩ := slot_of_allocSlot hi
  obtain ⟨hdistinct, hmap⟩ := Slots.toMap_fill h.distinct he (f := fun _ => ⟨key, val, true⟩) hfree
    (show slot ⟨key, val, true⟩ = some ⟨key, val⟩ from rfl) hnew
  refine ⟨⟨?_, hdistinct, ?_, ?_⟩, hmap⟩
  · exact (length_modify _ _ _).trans h.length
  · change kv.count + 1 = (Slots.toMap slot _).keys.card
    rw [hmap, KvMap.keys_insert, Finset.card_insert_of_notMem (by rwa [Finmap.mem_keys]), h.count]
    rfl
  · change KvMap.Fits (Slots.toMap slot _)
    rw [hmap]
    exact h.fits.insert hpos hkey hval

theorem Ok.storePut (hpos : 0 < key.length) (hkey : key.length ≤ nornKvMaxKey)
    (hval : val.length ≤ nornKvMaxVal) : Ok cap (kv.storePut key val).2.1 ∧
      ((kv.storePut key val).1, (kv.storePut key val).2.1.toMap) = kv.toMap.put cap key val := by
  unfold NornKv.storePut KvMap.put
  cases hfind : kv.find key with
  | some i =>
    have hmem : key ∈ kv.toMap := mem_toMap.mpr (by rw [hfind]; exact some_ne_none i)
    obtain ⟨e, he, hused, rfl⟩ := slot_of_find hfind
    obtain ⟨hdistinct, hmap⟩ := Slots.toMap_replace h.distinct he
      (f := fun e => { e with val := val }) (show slot e = some ⟨e.key, e.val⟩ by simp [slot, hused])
      (show slot { e with val := val } = some ⟨e.key, val⟩ by simp [slot, hused])
    refine ⟨⟨(length_modify _ _ _).trans h.length, hdistinct, ?_, ?_⟩, ?_⟩
    · change kv.count = (Slots.toMap slot _).keys.card
      rw [hmap, KvMap.keys_insert, Finset.insert_eq_of_mem (by rwa [Finmap.mem_keys]), h.count]
      rfl
    · change KvMap.Fits (Slots.toMap slot _)
      rw [hmap]
      exact h.fits.insert hpos hkey hval
    · rw [if_pos (.inl hmem)]
      exact congrArg (Prod.mk 1) hmap
  | none =>
    have hnew : key ∉ kv.toMap := fun hmem => mem_toMap.mp hmem hfind
    cases halloc : kv.allocSlot with
    | none =>
      have hfull := h.allocSlot_eq_none_iff.mp halloc
      rw [if_neg (not_or.mpr ⟨hnew, hfull⟩)]
      exact ⟨h, rfl⟩
    | some i =>
      have hroom : kv.toMap.keys.card < cap := by
        by_contra hno
        rw [h.allocSlot_eq_none_iff.mpr hno] at halloc
        cases halloc
      obtain ⟨hok, hmap⟩ := h.fill halloc hnew hpos hkey hval
      rw [if_pos (.inr hroom)]
      exact ⟨hok, congrArg (Prod.mk 1) hmap⟩

theorem Ok.storeDel : Ok cap (kv.storeDel key).2.1 ∧
    ((kv.storeDel key).1, (kv.storeDel key).2.1.toMap) = kv.toMap.del key := by
  unfold NornKv.storeDel KvMap.del
  cases hfind : kv.find key with
  | none =>
    rw [if_neg fun hmem => mem_toMap.mp hmem hfind]
    exact ⟨h, rfl⟩
  | some i =>
    have hmem : key ∈ kv.toMap := mem_toMap.mpr (by rw [hfind]; exact some_ne_none i)
    obtain ⟨e, he, hused, rfl⟩ := slot_of_find hfind
    obtain ⟨hdistinct, hmap⟩ := Slots.toMap_free h.distinct he
      (f := fun e => { e with used := false }) (show slot e = some ⟨e.key, e.val⟩ by simp [slot, hused])
      (show slot { e with used := false } = none from rfl)
    refine ⟨⟨(length_modify _ _ _).trans h.length, hdistinct, ?_, ?_⟩, ?_⟩
    · change kv.count - 1 = (Slots.toMap slot _).keys.card
      rw [hmap, Finmap.keys_erase, h.count]
      exact (Finset.card_erase_of_mem (mem_keys.mpr hmem)).symm
    · change KvMap.Fits (Slots.toMap slot _)
      rw [hmap]
      exact h.fits.erase
    · rw [if_pos hmem]
      exact congrArg (Prod.mk 1) hmap

theorem Ok.run {c : KvCommand} (hc : c.Valid) : Ok cap (c.run kv).2.1 ∧
    ((c.run kv).1, (c.run kv).2.1.toMap) = kv.toMap.exec cap c := by
  obtain ⟨hpos, hkey, hvals⟩ := hc
  cases c with
  | put key val => exact h.storePut hpos hkey (hvals val mem_cons_self)
  | del key => exact h.storeDel
  | cas key expect val =>
    simp only [KvCommand.run, NornKv.storeCas, KvMap.exec, KvMap.cas, current_eq, lookup_toMap]
    by_cases hcur : (kv.lookup key).getD [] = expect
    · rw [if_neg (not_not.mpr hcur), if_pos hcur]
      exact h.storePut hpos hkey (hvals val (mem_cons_of_mem _ mem_cons_self))
    · rw [if_pos hcur, if_neg hcur]
      exact ⟨h, rfl⟩

theorem Ok.apply (cmd : Bytes) : Ok cap (nornKvApply kv cmd).2.1 ∧
    ((nornKvApply kv cmd).1, (nornKvApply kv cmd).2.1.toMap) = kv.toMap.apply cap cmd := by
  rw [nornKvApply_eq, KvMap.apply]
  cases hparse : KvCommand.parse cmd with
  | none => exact ⟨h, rfl⟩
  | some c => exact h.run (KvCommand.eq_bytes_of_parse hparse).1

end

theorem contents_unused (h : ∀ e ∈ es, e.used = false) : contents slot es = [] :=
  filterMap_eq_nil_iff.mpr fun e he => by simp [slot, h e he]

theorem ok_of_unused (kv : NornKv) (h : ∀ e ∈ kv.entries, e.used = false) (hcount : kv.count = 0) :
    Ok kv.entries.length kv ∧ kv.toMap = ∅ := by
  have hcontents := contents_unused h
  have hmap : kv.toMap = ∅ := by
    rw [toMap, Slots.toMap, hcontents]
    rfl
  refine ⟨⟨rfl, ?_, ?_, ?_⟩, hmap⟩
  · rw [Slots.Distinct, hcontents]
    exact nodupKeys_nil
  · rw [hcount, hmap]
    rfl
  · rw [hmap]
    intro k v hv
    rw [Finmap.lookup_empty] at hv
    cases hv

theorem ok_new (h : nornKvNew cap = some kv) : Ok cap kv ∧ kv.toMap = ∅ := by
  unfold nornKvNew at h
  split_ifs at h
  cases h
  have hok := ok_of_unused ⟨replicate cap ⟨[], [], false⟩, 0, []⟩
    (fun e he => by rw [eq_of_mem_replicate he]) rfl
  rwa [length_replicate] at hok

def record (x : Sigma fun _ : Bytes => Bytes) : Bytes := field x.1 ++ field x.2

theorem length_record (x : Sigma fun _ : Bytes => Bytes) :
    (record x).length = 2 + x.1.length + 2 + x.2.length := by
  rw [record, length_append, length_field, length_field]
  omega

def records (kv : NornKv) : Bytes := (contents slot kv.entries).flatMap record

theorem snapshotLoop_eq {size : ℕ} (h : buf.length ≤ size) : snapshotLoop size es buf =
      if (buf ++ (contents slot es).flatMap record).length ≤ size then
        some (buf ++ (contents slot es).flatMap record) else none := by
  induction es generalizing buf with
  | nil =>
    rw [snapshotLoop, show contents slot [] = [] from rfl, flatMap_nil, append_nil,
      if_pos h]
  | cons e es ih =>
    rw [snapshotLoop, contents]
    cases hused : e.used with
    | false =>
      rw [if_pos rfl, ih h, filterMap_cons_none (show slot e = none by simp [slot, hused])]
      rfl
    | true =>
      have hrecord : putU16 e.key.length ++ e.key ++ putU16 e.val.length ++ e.val =
          record ⟨e.key, e.val⟩ := by simp [record, field]
      have hlen := length_record ⟨e.key, e.val⟩
      rw [if_neg (by decide), hrecord,
        filterMap_cons_some (show slot e = some ⟨e.key, e.val⟩ by simp [slot, hused]),
        flatMap_cons, ← append_assoc]
      by_cases hfull : size < buf.length + (2 + e.key.length + 2 + e.val.length)
      · rw [if_pos hfull, if_neg]
        rw [length_append, length_append, hlen]
        simp only at hlen ⊢
        omega
      · rw [if_neg hfull, ih]
        · rfl
        · rw [length_append, hlen]
          simp only
          omega

theorem nornKvSnapshot_eq (kv : NornKv) (size : ℕ) :
    nornKvSnapshot kv size = if kv.records.length ≤ size then some kv.records else none :=
  snapshotLoop_eq (Nat.zero_le size)

theorem Ok.fits_contents (h : Ok cap kv) : ∀ x ∈ contents slot kv.entries,
    0 < x.1.length ∧ x.1.length ≤ nornKvMaxKey ∧ x.2.length ≤ nornKvMaxVal := by
  intro x hx
  refine h.fits x.1 x.2 ?_
  rw [toMap, Slots.lookup_toMap]
  exact mem_dlookup h.distinct hx

theorem Ok.length_records_le (h : Ok cap kv) : kv.records.length ≤ 388 * cap := by
  have hle : ∀ x ∈ contents slot kv.entries, (record x).length ≤ 388 := by
    intro x hx
    obtain ⟨_, hkey, hval⟩ := h.fits_contents x hx
    rw [length_record]
    rw [nornKvMaxKey] at hkey
    rw [nornKvMaxVal] at hval
    omega
  have hsum : kv.records.length ≤ (contents slot kv.entries).length * 388 := by
    rw [records, length_flatMap]
    refine (sum_le_card_nsmul _ 388 fun n hn => ?_).trans (by simp)
    obtain ⟨x, hx, rfl⟩ := mem_map.mp hn
    exact hle x hx
  have hcap := Slots.length_contents_le slot kv.entries
  rw [h.length] at hcap
  omega

end NornKv
end Norn
