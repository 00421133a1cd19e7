import Norn.Kv.Refinement
import Norn.Lib.Run

/-!
# Restoring from arbitrary bytes

`norn_kv_restore` gives up all entries and stores the records at the front of the bytes.
-/

namespace Norn
open List
open Slots (card_toMap contents)
open KvCommand (length_slice parse run)

def leadingRecord (buf : Bytes) : Option ((Sigma fun _ : Bytes => Bytes) × Bytes) :=
  if buf.length < 2 then none
  else
    let klen := getU16 buf 0
    if klen = 0 ∨ nornKvMaxKey < klen ∨ buf.length < 2 + klen + 2 then none
    else
      let vlen := getU16 buf (2 + klen)
      if nornKvMaxVal < vlen ∨ buf.length < 2 + klen + 2 + vlen then none
      else some (⟨slice buf 2 klen, slice buf (2 + klen + 2) vlen⟩, buf.drop (2 + klen + 2 + vlen))

def leadingRecords : ℕ → Bytes → List (Sigma fun _ : Bytes => Bytes)
  | 0, _ => []
  | n + 1, buf =>
    match leadingRecord buf with
    | some (x, rest) => x :: leadingRecords n rest
    | none => []

theorem getU16_drop (p : Bytes) (o i : ℕ) : getU16 (p.drop o) i = getU16 p (o + i) := by
  unfold getU16
  simp only [getD_eq_getElem?_getD, getElem?_drop, Nat.add_assoc]

theorem slice_drop (p : Bytes) (o i n : ℕ) : slice (p.drop o) i n = slice p (o + i) n := by
  rw [slice, slice, drop_drop]

variable {buf : Bytes}

theorem leadingRecords_of_short (h : buf.length < 2) (n : ℕ) : leadingRecords n buf = [] := by
  cases n with
  | zero => rfl
  | succ n => rw [leadingRecords, leadingRecord, if_pos h]

def FitsRecord (x : Sigma fun _ : Bytes => Bytes) : Prop :=
  0 < x.1.length ∧ x.1.length ≤ nornKvMaxKey ∧ x.2.length ≤ nornKvMaxVal

theorem leadingRecord_eq_some_iff {x : Sigma fun _ : Bytes => Bytes} {rest : Bytes} :
    leadingRecord buf = some (x, rest) ↔ FitsRecord x ∧ buf = NornKv.record x ++ rest := by
  constructor
  · intro h
    unfold leadingRecord at h
    dsimp only at h
    split_ifs at h with hlen hkey hval
    cases h
    have hfield := drop_eq_field (p := buf) (o := 0) rfl
      (show 0 + 2 + getU16 buf 0 ≤ buf.length by omega)
    have hfield' := drop_eq_field (p := buf) (o := 2 + getU16 buf 0) rfl
      (show 2 + getU16 buf 0 + 2 + getU16 buf (2 + getU16 buf 0) ≤ buf.length by omega)
    rw [drop_zero, Nat.zero_add, hfield', ← append_assoc] at hfield
    refine ⟨⟨?_, ?_, ?_⟩, hfield⟩
    · rw [length_slice (by omega)]
      omega
    · rw [length_slice (by omega)]
      omega
    · rw [length_slice (by omega)]
      omega
  · rintro ⟨⟨hpos, hkey, hval⟩, hbuf⟩
    have hkey' : x.1.length ≤ 128 := hkey
    have hval' : x.2.length ≤ 256 := hval
    rw [NornKv.record, append_assoc] at hbuf
    obtain ⟨hlen, hklen, hk, hrest⟩ := read_field (o := 0) hbuf (by omega)
    obtain ⟨hlen', hvlen, hv, hrest'⟩ := read_field hrest (by omega)
    rw [Nat.zero_add] at hlen hk hlen' hvlen hv hrest'
    unfold leadingRecord
    simp only [hklen, hvlen, hk, hv, hrest']
    rw [if_neg (by omega), if_neg (by rw [nornKvMaxKey]; omega),
      if_neg (by rw [nornKvMaxVal]; omega)]

namespace NornKv
variable {us fs : List KvEntry} {kv : NornKv} {o : ℕ}

theorem contents_used_append (hfs : ∀ e ∈ fs, e.used = false) :
    contents slot (us ++ fs) = contents slot us := by
  have hfree := contents_unused hfs
  unfold contents at hfree ⊢
  rw [filterMap_append, hfree, append_nil]

theorem allocSlot_append (hkv : kv.entries = us ++ fs) (hus : ∀ e ∈ us, e.used = true)
    (hfs : ∀ e ∈ fs, e.used = false) : kv.allocSlot = if fs = [] then none else some us.length := by
  have hfront : us.findIdx? (fun e => !e.used) = none := by
    rw [findIdx?_eq_none_iff]
    intro e he
    rw [hus e he]
    rfl
  rw [allocSlot, hkv, findIdx?_append, hfront]
  cases fs with
  | nil => rfl
  | cons f fs =>
    rw [if_neg (cons_ne_nil f fs), findIdx?_cons, hfs f mem_cons_self]
    simp

structure RestoresLeading (buf : Bytes) (o : ℕ) (kv : NornKv) (us fs : List KvEntry)
    (out : ℤ × NornKv) : Prop where
  contents : contents slot out.2.entries =
    contents slot us ++ leadingRecords fs.length (buf.drop o)
  count : out.2.count = kv.count + (leadingRecords fs.length (buf.drop o)).length
  length : out.2.entries.length = kv.entries.length
  code : out.1 =
    if buf.drop o = (leadingRecords fs.length (buf.drop o)).flatMap record then 0 else -1

theorem RestoresLeading.stop (hkv : kv.entries = us ++ fs) (hfs : ∀ e ∈ fs, e.used = false)
    (hnone : leadingRecords fs.length (buf.drop o) = []) {code : ℤ}
    (hcode : code = if buf.length ≤ o then 0 else -1) :
    RestoresLeading buf o kv us fs (code, kv) where
  contents := by rw [hnone, append_nil, hkv, contents_used_append hfs]
  count := by rw [hnone, length_nil, Nat.add_zero]
  length := rfl
  code := by simp only [hnone, flatMap_nil, drop_eq_nil_iff, hcode]

theorem leadingRecord_drop : leadingRecord (buf.drop o) =
    if buf.length - o < 2 then none
    else if getU16 buf o = 0 ∨ nornKvMaxKey < getU16 buf o ∨
        buf.length - o < 2 + getU16 buf o + 2 then none
    else if nornKvMaxVal < getU16 buf (o + 2 + getU16 buf o) ∨
        buf.length - o < 2 + getU16 buf o + 2 + getU16 buf (o + 2 + getU16 buf o) then none
    else some (⟨slice buf (o + 2) (getU16 buf o),
        slice buf (o + 2 + getU16 buf o + 2) (getU16 buf (o + 2 + getU16 buf o))⟩,
      buf.drop (o + 2 + getU16 buf o + 2 + getU16 buf (o + 2 + getU16 buf o))) := by
  unfold leadingRecord
  simp only [length_drop, getU16_drop, slice_drop, drop_drop, Nat.add_zero, Nat.add_assoc]

theorem restoreLoop_leading (fuel : ℕ) :
    ∀ {kv : NornKv} {us fs : List KvEntry} {o : ℕ}, kv.entries = us ++ fs →
      (∀ e ∈ us, e.used = true) → (∀ e ∈ fs, e.used = false) → buf.length - o ≤ fuel →
      RestoresLeading buf o kv us fs (restoreLoop buf fuel kv o) := by
  induction fuel with
  | zero =>
    intro kv us fs o hkv _ hfs hfuel
    have hshort : (buf.drop o).length < 2 := by
      rw [length_drop]
      omega
    rw [restoreLoop]
    exact .stop hkv hfs (leadingRecords_of_short hshort _) (if_pos (by omega)).symm
  | succ fuel ih =>
    intro kv us fs o hkv hus hfs hfuel
    have hbad : leadingRecord (buf.drop o) = none → leadingRecords fs.length (buf.drop o) = [] := by
      intro hnone
      cases fs with
      | nil => rfl
      | cons f fs => rw [length_cons, leadingRecords, hnone]
    have hread := @leadingRecord_drop buf o
    rw [restoreLoop]
    dsimp only
    by_cases hend : buf.length ≤ o
    · rw [if_pos hend]
      rw [if_pos (by omega)] at hread
      exact .stop hkv hfs (hbad hread) (if_pos hend).symm
    by_cases htwo : buf.length < o + 2
    · rw [if_neg hend, if_pos htwo]
      rw [if_pos (by omega)] at hread
      exact .stop hkv hfs (hbad hread) (if_neg hend).symm
    rw [if_neg (by omega)] at hread
    by_cases hkey : getU16 buf o = 0 ∨ nornKvMaxKey < getU16 buf o ∨
        buf.length < o + 2 + getU16 buf o + 2
    · rw [if_pos (by omega)] at hread
      rw [if_neg hend, if_neg htwo, if_pos hkey]
      exact .stop hkv hfs (hbad hread) (if_neg hend).symm
    rw [if_neg (by omega)] at hread
    by_cases hval : nornKvMaxVal < getU16 buf (o + 2 + getU16 buf o) ∨
        buf.length < o + 2 + getU16 buf o + 2 + getU16 buf (o + 2 + getU16 buf o)
    · rw [if_pos (by omega)] at hread
      rw [if_neg hend, if_neg htwo, if_neg hkey, if_pos hval]
      exact .stop hkv hfs (hbad hread) (if_neg hend).symm
    rw [if_neg (by omega)] at hread
    rw [if_neg hend, if_neg htwo, if_neg hkey, if_neg hval, allocSlot_append hkv hus hfs]
    cases fs with
    | nil =>
      rw [if_pos rfl]
      exact .stop hkv hfs rfl (if_neg hend).symm
    | cons f fs =>
      -- The record goes to the first free slot, which joins those in use.
      rw [if_neg (cons_ne_nil f fs)]
      dsimp only
      generalize slice buf (o + 2) (getU16 buf o) = key at hread ⊢
      generalize slice buf (o + 2 + getU16 buf o + 2) (getU16 buf (o + 2 + getU16 buf o)) = val
        at hread ⊢
      have hentries : kv.entries.modify us.length (fun _ => (⟨key, val, true⟩ : KvEntry)) =
          (us ++ [⟨key, val, true⟩]) ++ fs := by
        rw [hkv, modify_eq_set]
        simp
      have hused : ∀ e ∈ us ++ [(⟨key, val, true⟩ : KvEntry)], e.used = true := by
        intro e he
        rcases mem_append.mp he with he | he
        · exact hus e he
        · rw [mem_singleton.mp he]
      have hrest := @ih
        { kv with
          entries := kv.entries.modify us.length fun _ => ⟨key, val, true⟩, count := kv.count + 1 }
        _ _ (o + 2 + getU16 buf o + 2 + getU16 buf (o + 2 + getU16 buf o)) hentries hused
        (fun e he => hfs e (mem_cons_of_mem f he)) (by omega)
      have hrecords : leadingRecords (f :: fs).length (buf.drop o) = ⟨key, val⟩ ::
          leadingRecords fs.length
            (buf.drop (o + 2 + getU16 buf o + 2 + getU16 buf (o + 2 + getU16 buf o))) := by
        rw [length_cons, leadingRecords, hread]
      have hbytes := (leadingRecord_eq_some_iff.mp hread).2
      refine ⟨?_, ?_, ?_, ?_⟩
      · rw [hrest.contents, hrecords, contents, contents, filterMap_append,
          append_assoc]
        rfl
      · rw [hrest.count, hrecords, length_cons, Nat.add_right_comm, Nat.add_assoc]
      · rw [hrest.length]
        exact length_modify _ _ _
      · rw [hrest.code, hrecords, flatMap_cons]
        conv_rhs => rw [hbytes]
        simp only [append_cancel_left_eq]

theorem restore_leading (kv : NornKv) (buf : Bytes) :
    contents slot (nornKvRestore kv buf).2.entries = leadingRecords kv.entries.length buf ∧
      (nornKvRestore kv buf).2.count = (leadingRecords kv.entries.length buf).length ∧
      (nornKvRestore kv buf).2.entries.length = kv.entries.length ∧
      (nornKvRestore kv buf).1 =
        if buf = (leadingRecords kv.entries.length buf).flatMap record then 0 else -1 := by
  have hclear : ∀ e ∈ kv.clear.entries, e.used = false := by
    intro e he
    obtain ⟨e', _, rfl⟩ := mem_map.mp he
    rfl
  have hlength : kv.clear.entries.length = kv.entries.length := length_map _
  obtain ⟨hcontents, hcount, hkept, hcode⟩ := @restoreLoop_leading buf buf.length
    kv.clear [] kv.clear.entries 0 rfl (forall_mem_nil _) hclear (Nat.sub_le _ _)
  rw [hlength, drop_zero] at hcontents hcount hcode
  refine ⟨hcontents, ?_, hkept.trans hlength, hcode⟩
  rw [nornKvRestore, hcount]
  exact Nat.zero_add _

/-- Rejected bytes leave map and count alone only if what is stored of them was there. -/
theorem unchanged_of_rejected_iff (kv : NornKv) (buf : Bytes) :
    ((nornKvRestore kv buf).1 = -1 →
        (nornKvRestore kv buf).2.toMap = kv.toMap ∧ (nornKvRestore kv buf).2.count = kv.count) ↔
      buf = (leadingRecords kv.entries.length buf).flatMap record ∨
        (leadingRecords kv.entries.length buf).toFinmap = kv.toMap ∧
          (leadingRecords kv.entries.length buf).length = kv.count := by
  obtain ⟨hcontents, hcount, -, hcode⟩ := kv.restore_leading buf
  have hmap : (nornKvRestore kv buf).2.toMap =
      (leadingRecords kv.entries.length buf).toFinmap := by
    rw [toMap, Slots.toMap, hcontents]
  rw [hmap, hcount, hcode]
  by_cases hall : buf = (leadingRecords kv.entries.length buf).flatMap record
  · rw [if_pos hall]
    exact ⟨fun _ => .inl hall, fun _ h => absurd h (by decide)⟩
  · rw [if_neg hall]
    simp only [hall, forall_const, false_or]

theorem rejected_byte_clears :
    ∃ kv : NornKv, nornKvNew 1 = some kv ∧
      (nornKvApply kv [1, 0, 1, 97, 0, 1, 98]).1 = 1 ∧
      (nornKvRestore (nornKvApply kv [1, 0, 1, 97, 0, 1, 98]).2.1 [0]).1 = -1 ∧
      nornKvGet (nornKvApply kv [1, 0, 1, 97, 0, 1, 98]).2.1 [97] 256 = some [98] ∧
      nornKvGet (nornKvRestore (nornKvApply kv [1, 0, 1, 97, 0, 1, 98]).2.1 [0]).2 [97] 256 =
        none :=
  ⟨⟨[⟨[], [], false⟩], 0, []⟩, by decide⟩

end NornKv

inductive KvCall
  | apply (cmd : Bytes)
  | restore (buf : Bytes)
  deriving Inhabited

namespace NornKv

def call (kv : NornKv) : KvCall → NornKv
  | .apply cmd => (nornKvApply kv cmd).2.1
  | .restore buf => (nornKvRestore kv buf).2

def calls (cap : ℕ) : System NornKv KvCall where
  init kv := nornKvNew cap = some kv
  next kv c kv' := kv' = kv.call c

/-- Used slots have different keys and are counted, and a deleted key is not found any more. -/
structure Sound (kv : NornKv) : Prop where
  distinct : ((kv.entries.filter fun e => e.used).map KvEntry.key).Nodup
  count : kv.count = (kv.entries.filter fun e => e.used).length
  deleted : ∀ size key cmd cap, nornKvEncodeDel size key = some cmd →
    nornKvGet (nornKvApply kv cmd).2.1 key cap = none

theorem contents_eq (es : List KvEntry) : contents slot es =
    (es.filter fun e => e.used).map fun e => (⟨e.key, e.val⟩ : Sigma fun _ : Bytes => Bytes) := by
  induction es with
  | nil => rfl
  | cons e es ih =>
    unfold contents at ih ⊢
    cases hused : e.used with
    | false =>
      rw [filterMap_cons_none (by simp [slot, hused]), ih,
        filter_cons_of_neg (by simp [hused])]
    | true =>
      rw [filterMap_cons_some (show slot e = some ⟨e.key, e.val⟩ by simp [slot, hused]), ih,
        filter_cons_of_pos (by simp [hused]), map_cons]

theorem distinct_iff (kv : NornKv) : Slots.Distinct slot kv.entries ↔
    ((kv.entries.filter fun e => e.used).map KvEntry.key).Nodup := by
  rw [Slots.Distinct, contents_eq, List.NodupKeys, keys, map_map]
  rfl

variable {kv : NornKv} {cap : ℕ}

theorem get_apply_del (h : Ok cap kv) {size : ℕ} {key cmd : Bytes}
    (hcmd : nornKvEncodeDel size key = some cmd) (n : ℕ) :
    nornKvGet (nornKvApply kv cmd).2.1 key n = none := by
  have hparse : parse cmd = some (.del key) :=
    KvCommand.parse_eq_some_iff.mpr ⟨size, hcmd⟩
  have hmap : ((nornKvApply kv cmd).1, (nornKvApply kv cmd).2.1.toMap) = kv.toMap.del key := by
    rw [(h.apply cmd).2, KvMap.apply, hparse]
    rfl
  have hgone : (nornKvApply kv cmd).2.1.toMap.lookup key = none := by
    rw [show (nornKvApply kv cmd).2.1.toMap = (kv.toMap.del key).2 from congrArg Prod.snd hmap,
      KvMap.del]
    split_ifs with hmem
    · exact Finmap.lookup_erase key kv.toMap
    · exact Finmap.lookup_eq_none.mpr hmem
  rw [nornKvGet_eq, hgone, Option.filter_none, ite_self]

theorem Ok.sound (h : Ok cap kv) : kv.Sound where
  distinct := kv.distinct_iff.mp h.distinct
  count := by
    rw [h.count, toMap, card_toMap h.distinct, contents_eq, length_map]
  deleted _ _ _ n hcmd := get_apply_del h hcmd n

theorem fits_leadingRecords (n : ℕ) (buf : Bytes) : ∀ x ∈ leadingRecords n buf, FitsRecord x := by
  induction n generalizing buf with
  | zero => exact forall_mem_nil _
  | succ n ih =>
    intro x hx
    rw [leadingRecords] at hx
    cases hread : leadingRecord buf with
    | none =>
      rw [hread] at hx
      cases hx
    | some r =>
      rw [hread] at hx
      rcases mem_cons.mp hx with rfl | hx
      · exact (leadingRecord_eq_some_iff.mp hread).1
      · exact ih r.2 x hx

theorem ok_restored (hlen : kv.entries.length = cap) (hkeys : (leadingRecords cap buf).NodupKeys) :
    Ok cap (nornKvRestore kv buf).2 := by
  obtain ⟨hcontents, hcount, hlength, -⟩ := kv.restore_leading buf
  rw [hlen] at hcontents hcount hlength
  have hdistinct : Slots.Distinct slot (nornKvRestore kv buf).2.entries := by
    rw [Slots.Distinct, hcontents]
    exact hkeys
  refine ⟨hlength, hdistinct, ?_, ?_⟩
  · rw [hcount, toMap, card_toMap hdistinct, hcontents]
  · intro k v hv
    rw [toMap, Slots.lookup_toMap, hcontents] at hv
    exact fits_leadingRecords cap buf ⟨k, v⟩ (of_mem_dlookup hv)

theorem length_run (c : KvCommand) (kv : NornKv) :
    (c.run kv).2.1.entries.length = kv.entries.length := by
  have hput : ∀ key val, (kv.storePut key val).2.1.entries.length = kv.entries.length := by
    intro key val
    unfold storePut
    cases kv.find key with
    | some i => exact length_modify _ _ _
    | none =>
      cases kv.allocSlot with
      | none => rfl
      | some i => exact length_modify _ _ _
  cases c with
  | put key val => exact hput key val
  | del key =>
    rw [run, storeDel]
    cases kv.find key with
    | none => rfl
    | some i => exact length_modify _ _ _
  | cas key expect val =>
    rw [run, storeCas]
    split_ifs
    · rfl
    · exact hput key val

theorem length_call (kv : NornKv) (c : KvCall) : (kv.call c).entries.length = kv.entries.length := by
  cases c with
  | restore buf => exact (kv.restore_leading buf).2.2.1
  | apply cmd =>
    rw [call, nornKvApply_eq]
    cases parse cmd with
    | none => rfl
    | some c => exact length_run c kv

section
variable {cap : ℕ} (run : Run (calls cap))

theorem length_state {k : ℕ} (hk : k ≤ run.len) : (run.state k).entries.length = cap := by
  refine run.invariant (I := fun kv => kv.entries.length = cap) ?_ ?_ k hk
  · intro kv hkv
    exact (ok_new hkv).1.length
  · intro k hk hlength
    rw [run.steps k hk, length_call, hlength]

/-- The slots stay in order exactly as long as no snapshot stores two records with one key. -/
theorem sound_iff_distinct_records : (∀ k ≤ run.len, (run.state k).Sound) ↔
    ∀ k < run.len, ∀ buf, run.event k = .restore buf →
      ((leadingRecords cap buf).map Sigma.fst).Nodup := by
  constructor
  · intro hsound k hk buf hevent
    have hstep : run.state (k + 1) = (nornKvRestore (run.state k) buf).2 := by
      rw [run.steps k hk, hevent]
      rfl
    have hdistinct := (run.state (k + 1)).distinct_iff.mpr (hsound (k + 1) hk).distinct
    rw [hstep, Slots.Distinct, ((run.state k).restore_leading buf).1, length_state run hk.le]
      at hdistinct
    exact hdistinct
  · intro hrecords k hk
    refine (run.invariant (I := Ok cap) (fun kv hkv => (ok_new hkv).1) ?_ k hk).sound
    intro k hk hok
    rw [run.steps k hk]
    cases hevent : run.event k with
    | apply cmd => exact (hok.apply cmd).1
    | restore buf => exact ok_restored hok.length (hrecords k hk buf hevent)

end

theorem duplicate_records_unsound :
    ∃ run : Run (calls 2), run.event 0 = .restore [0, 1, 97, 0, 1, 98, 0, 1, 97, 0, 1, 99] ∧
      ¬ (run.state run.len).Sound := by
  refine ⟨Run.ofTotal call (fun _ _ => rfl) ⟨[⟨[], [], false⟩, ⟨[], [], false⟩], 0, []⟩ rfl
    [.restore [0, 1, 97, 0, 1, 98, 0, 1, 97, 0, 1, 99]], rfl, ?_⟩
  intro hsound
  have hgone := hsound.deleted 4 [97] [2, 0, 1, 97] 256 (by decide)
  revert hgone
  decide

end NornKv
end Norn
