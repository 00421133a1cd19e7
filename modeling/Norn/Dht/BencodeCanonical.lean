import Norn.Dht.BencodeRoundTrip

/-!
# Re-encoding canonical bencode

The decoder keeps keys as C strings.
-/

namespace Norn
open List Option Prod

theorem length_decimal_mono {m n : ℕ} (h : m ≤ n) : (decimal m).length ≤ (decimal n).length := by
  induction n using decimal_induction generalizing m with
  | one n hn => rw [decimal_of_lt hn, decimal_of_lt (h.trans_lt hn), length_singleton,
      length_singleton]
  | more n hn ih =>
    rw [decimal_of_le hn, length_append, length_singleton]
    by_cases hm : m < 10
    · rw [decimal_of_lt hm, length_singleton]
      exact Nat.le_add_left 1 _
    · rw [decimal_of_le (by omega), length_append, length_singleton]
      exact Nat.add_le_add_right (ih (Nat.div_le_div_right h)) 1

namespace Bencode

theorem length_encodeString (s : Bytes) :
    (encodeString s).length = (decimal s.length).length + (s.length + 1) := by
  rw [encodeString, length_append, length_cons]

theorem length_encodeString_cString_le (s : Bytes) :
    (encodeString (cString s)).length ≤ (encodeString s).length := by
  have hle : (cString s).length ≤ s.length := (takeWhile_sublist _).length_le
  have hdigits := length_decimal_mono hle
  rw [length_encodeString, length_encodeString]
  omega

theorem length_encodeString_cString_lt {s : Bytes} (h : 0 ∈ s) :
    (encodeString (cString s)).length < (encodeString s).length := by
  have hlt := length_cString_lt h
  have hdigits := length_decimal_mono hlt.le
  rw [length_encodeString, length_encodeString]
  omega

section
variable {α : Type} {f g : α → Bytes} {xs : List α}

theorem length_flatMap_le (h : ∀ x ∈ xs, (f x).length ≤ (g x).length) :
    (xs.flatMap f).length ≤ (xs.flatMap g).length := by
  rw [length_flatMap, length_flatMap]
  exact sum_le_sum h

theorem length_le_of_length_flatMap_le (h : ∀ x ∈ xs, (f x).length ≤ (g x).length)
    (htotal : (xs.flatMap g).length ≤ (xs.flatMap f).length) :
    ∀ x ∈ xs, (g x).length ≤ (f x).length := by
  induction xs with
  | nil =>
    intro x hx
    cases hx
  | cons y ys ih =>
    have hy := h y mem_cons_self
    have hrest : ∀ x ∈ ys, (f x).length ≤ (g x).length := fun x hx =>
      h x (mem_cons_of_mem y hx)
    have hys := length_flatMap_le hrest
    rw [flatMap_cons, flatMap_cons, length_append, length_append] at htotal
    exact forall_mem_cons.mpr ⟨by omega, ih hrest (by omega)⟩

end

theorem length_encode_le (v : Bencode) : (encode v).length ≤ (spell v).length := by
  induction v with
  | int v | str s => rw [encode, spell]
  | list items ih =>
    have hitems := length_flatMap_le ih
    rw [encode, spell, encodeItems_eq, spellItems_eq, length_cons, length_cons,
      length_append, length_append]
    omega
  | dict entries ih =>
    have hentries : (entries.flatMap encodeEntry).length ≤ (entries.flatMap spellEntry).length := by
      apply length_flatMap_le
      intro e he
      rw [encodeEntry, spellEntry, length_append, length_append]
      exact Nat.add_le_add (length_encodeString_cString_le e.1) (ih e he)
    rw [encode, spell, encodeEntries_eq, spellEntries_eq, length_cons, length_cons,
      length_append, length_append]
    omega

theorem length_encodeEntry_le (e : Bytes × Bencode) :
    (encodeEntry e).length ≤ (spellEntry e).length := by
  rw [encodeEntry, spellEntry, length_append, length_append]
  exact Nat.add_le_add (length_encodeString_cString_le e.1) (length_encode_le e.2)

variable {v : Bencode}

theorem nulFree_of_length_le (h : (spell v).length ≤ (encode v).length) : NulFree v := by
  induction v with
  | int v => exact .int v
  | str s => exact .str s
  | list items ih =>
    rw [encode, spell, encodeItems_eq, spellItems_eq, length_cons, length_cons,
      length_append, length_append] at h
    have hitems := length_le_of_length_flatMap_le (fun v _ => length_encode_le v)
      (Nat.le_of_add_le_add_right (Nat.le_of_succ_le_succ h))
    exact .list fun v hv => ih v hv (hitems v hv)
  | dict entries ih =>
    rw [encode, spell, encodeEntries_eq, spellEntries_eq, length_cons, length_cons,
      length_append, length_append] at h
    have hentries := length_le_of_length_flatMap_le (fun e _ => length_encodeEntry_le e)
      (Nat.le_of_add_le_add_right (Nat.le_of_succ_le_succ h))
    simp only [encodeEntry, spellEntry, length_append] at hentries
    refine .dict (fun e he hnul => ?_) fun e he => ih e he ?_
    · have hkey := length_encodeString_cString_lt hnul
      have hvalue := length_encode_le e.2
      have := hentries e he
      omega
    · have hkey := length_encodeString_cString_le e.1
      have := hentries e he
      omega

/-- A value inside another one. -/
inductive Part : Bencode → Bencode → Prop
  | self (v : Bencode) : Part v v
  | item {d v : Bencode} {items : List Bencode} : v ∈ items → Part d v → Part d (list items)
  | value {d : Bencode} {e : Bytes × Bencode} {entries : List (Bytes × Bencode)} :
      e ∈ entries → Part d e.2 → Part d (dict entries)

theorem NulFree.part {d : Bencode} (h : Part d v) (hv : NulFree v) : NulFree d := by
  induction h with
  | self => exact hv
  | item hmem _ ih =>
    cases hv with
    | list hitems => exact ih (hitems _ hmem)
  | value hmem _ ih =>
    cases hv with
    | dict _ hvalues => exact ih (hvalues _ hmem)

theorem mem_of_dictGet {d x : Bencode} (hd : NulFree d) {key : Bytes} (hkey : 0 ∉ key)
    (h : dictGet d key = some x) : ∃ entries, d = dict entries ∧ (key, x) ∈ entries := by
  cases hd with
  | int v | str s | list hitems => cases h
  | @dict entries hkeys _ =>
    obtain ⟨e, he, rfl⟩ := map_eq_some_iff.mp h
    have hmem := mem_of_find?_eq_some he
    have hfound := find?_some he
    have heq : cString e.1 = cString key := of_decide_eq_true hfound
    rw [cString_eq_self (hkeys e hmem), cString_eq_self hkey] at heq
    exact ⟨entries, rfl, heq ▸ hmem⟩

inductive Sorted : Bencode → Prop
  | int (v : ℤ) : Sorted (int v)
  | str (s : Bytes) : Sorted (str s)
  | list {items : List Bencode} : (∀ v ∈ items, Sorted v) → Sorted (list items)
  | dict {entries : List (Bytes × Bencode)} : (entries.map fst).Pairwise (· < ·) →
      (∀ e ∈ entries, Sorted e.2) → Sorted (dict entries)

/-- The values whose spelling is canonical bencode. -/
structure Canonical (v : Bencode) : Prop where
  fits : Fits maxDepth v
  sorted : Sorted v

/-- The whole string is read, comes back byte by byte, and lookups find what stands in it. -/
def Reencodes (b : Bytes) : Prop :=
  ∃ v, bencodeDecode b 0 = (some v, b.length) ∧ encode v = b ∧
    ∀ d, Part d v → ∀ key, 0 ∉ key → ∀ x, dictGet d key = some x →
      ∃ entries, d = dict entries ∧ (key, x) ∈ entries

theorem bencodeDecode_canonical (h : Canonical v) :
    bencodeDecode (spell v) 0 = (some v, (spell v).length) := by
  have hdecode := bencodeDecode_spell h.fits []
  rwa [append_nil] at hdecode

/-- Canonical bytes come back exactly if no key has a NUL in it. -/
theorem reencodes_iff {v : Bencode} (h : Canonical v) : Reencodes (spell v) ↔ NulFree v := by
  have hdecode := bencodeDecode_canonical h
  constructor
  · rintro ⟨w, hw, henc, -⟩
    rw [hdecode] at hw
    obtain rfl : v = w := some.inj (congrArg fst hw)
    exact nulFree_of_length_le (congrArg length henc).ge
  · intro hnul
    refine ⟨v, hdecode, encode_eq_spell hnul, ?_⟩
    intro d hd key hkey x hx
    exact mem_of_dictGet (hnul.part hd) hkey hx

def nulKey : Bencode := dict [([97, 0, 98], int 1)]

theorem canonical_nulKey : Canonical nulKey where
  fits := by simp [nulKey, maxDepth, Fits]
  sorted := .dict (by simp) (forall_mem_singleton.mpr (.int 1))

theorem nulKey_not_reencoded :
    Canonical nulKey ∧ bencodeDecode (spell nulKey) 0 = (some nulKey, (spell nulKey).length) ∧
      encode nulKey ≠ spell nulKey ∧ dictGet nulKey [97] = some (int 1) ∧
      ¬ Reencodes (spell nulKey) := by
  have hdecode := bencodeDecode_canonical canonical_nulKey
  have hcut : encode nulKey ≠ spell nulKey := by decide +kernel
  refine ⟨canonical_nulKey, hdecode, hcut, rfl, ?_⟩
  rintro ⟨w, hw, henc, -⟩
  rw [hdecode] at hw
  obtain rfl : nulKey = w := some.inj (congrArg fst hw)
  exact hcut henc

theorem nestedValue_reencodes : Canonical nestedValue ∧ Reencodes (spell nestedValue) := by
  have hlist : NulFree (list [int (-5), str [0, 255]]) :=
    .list (forall_mem_cons.mpr ⟨.int _, forall_mem_singleton.mpr (.str _)⟩)
  have hsorted : Sorted (list [int (-5), str [0, 255]]) :=
    .list (forall_mem_cons.mpr ⟨.int _, forall_mem_singleton.mpr (.str _)⟩)
  have hcanonical : Canonical nestedValue :=
    ⟨by simp [nestedValue, maxDepth, Fits],
      .dict (by simp) (forall_mem_singleton.mpr hsorted)⟩
  exact ⟨hcanonical, (reencodes_iff hcanonical).mpr
    (.dict (forall_mem_singleton.mpr (by decide)) (forall_mem_singleton.mpr hlist))⟩

end Bencode

namespace Bencode

def present (fields : List (Bytes × Option Bencode)) : List (Bytes × Bencode) :=
  fields.filterMap fun f => f.2.map fun v => (f.1, v)

variable (key : Bytes)

theorem present_cons (v : Option Bencode) (fields : List (Bytes × Option Bencode)) :
    present ((key, v) :: fields) = (v.map fun x => (key, x)).toList ++ present fields := by
  cases v with
  | none | some x => rfl

variable {fields : List (Bytes × Option Bencode)} {levels : ℕ}

theorem mem_present {e : Bytes × Bencode} : e ∈ present fields ↔ (e.1, some e.2) ∈ fields := by
  simp only [present, mem_filterMap, map_eq_some_iff]
  constructor
  · rintro ⟨⟨key, v⟩, hmem, x, rfl, rfl⟩
    exact hmem
  · intro hmem
    exact ⟨_, hmem, e.2, rfl, rfl⟩

theorem dictGet_present (hnul : ∀ f ∈ fields, 0 ∉ f.1) (hkeys : (fields.map fst).Nodup)
    {key : Bytes} {v : Option Bencode} (h : (key, v) ∈ fields) :
    dictGet (dict (present fields)) key = v := by
  induction fields with
  | nil => cases h
  | cons f fields ih =>
    obtain ⟨k, x⟩ := f
    rw [map_cons, nodup_cons] at hkeys
    have hrest : ∀ f ∈ fields, 0 ∉ f.1 := fun f hf => hnul f (mem_cons_of_mem _ hf)
    have hkeyNul : 0 ∉ key := hnul _ h
    rcases mem_cons.mp h with heq | hmem
    · obtain ⟨rfl, rfl⟩ := Prod.mk.inj heq
      rw [present_cons, dictGet]
      cases v with
      | some y => simp
      | none =>
        -- the later fields have other keys
        rw [map_eq_none_iff, map_none, toList_none, nil_append,
          find?_eq_none]
        intro e he heq
        have hemem := mem_present.mp he
        rw [decide_eq_true_eq, cString_eq_self (hrest _ hemem), cString_eq_self hkeyNul] at heq
        rw [← heq] at hkeys
        exact hkeys.1 (mem_map.mpr ⟨_, hemem, rfl⟩)
    · have hne : cString k ≠ cString key := by
        rw [cString_eq_self (hnul _ mem_cons_self), cString_eq_self hkeyNul]
        rintro rfl
        exact hkeys.1 (mem_map.mpr ⟨_, hmem, rfl⟩)
      have hfind := ih hrest hkeys.2 hmem
      rw [present_cons]
      cases x with
      | none => exact hfind
      | some y =>
        rw [dictGet, map_some, toList_some, singleton_append,
          find?_cons_of_neg (by simpa using hne)]
        exact hfind

theorem plain_present (h : ∀ f ∈ fields, PlainKey f.1 ∧ ∀ v ∈ f.2, Plain levels v) :
    Plain (levels + 1) (dict (present fields)) := by
  apply Plain.dict
  intro e he
  have hf := h _ (mem_present.mp he)
  exact ⟨hf.1, hf.2 _ rfl⟩

theorem plain_optional_str {v : Option Bytes} (hv : ∀ s ∈ v, s.length < 2 ^ 63) :
    ∀ x ∈ v.map str, Plain levels x := by
  intro x hx
  obtain ⟨s, hs, rfl⟩ := mem_map.mp hx
  exact Plain.str levels (hv s hs)

theorem Plain.list {items : List Bencode} (h : ∀ v ∈ items, Plain levels v) :
    Plain (levels + 1) (list items) :=
  ⟨fun v hv => (h v hv).fits, .list fun v hv => (h v hv).nulFree⟩

def fieldSize (key : Bytes) (v : Option Bencode) : ℕ :=
  v.elim 0 fun x => (encodeString (cString key)).length + (encode x).length

theorem length_encode_present (fields : List (Bytes × Option Bencode)) :
    (encode (dict (present fields))).length = 2 + (fields.map fun f => fieldSize f.1 f.2).sum := by
  have hentries : (encodeEntries (present fields)).length =
      (fields.map fun f => fieldSize f.1 f.2).sum := by
    induction fields with
    | nil => rfl
    | cons f fields ih =>
      obtain ⟨key, v⟩ := f
      rw [present_cons, map_cons, sum_cons, ← ih]
      cases v with
      | none => simp [fieldSize]
      | some x =>
        rw [map_some, toList_some, singleton_append, encodeEntries,
          length_append, length_append]
        rfl
  rw [encode, length_cons, length_append, length_singleton, hentries]
  omega

def strSize (n : ℕ) : ℕ := (decimal n).length + 1 + n

def intSize (v : ℤ) : ℕ := (if v < 0 then 1 else 0) + (decimal v.natAbs).length + 2

theorem length_encode_str (s : Bytes) : (encode (.str s)).length = strSize s.length := by
  rw [encode, length_encodeString, strSize]
  omega

theorem length_encode_int (v : ℤ) : (encode (.int v)).length = intSize v := by
  rw [encode, encodeInt, intSize, length_cons, length_append, length_append,
    length_singleton]
  split_ifs <;> rfl

theorem fieldSize_str (v : Option Bytes) : fieldSize key (v.map .str) =
    v.elim 0 fun s => (encodeString (cString key)).length + strSize s.length := by
  cases v with
  | none => rfl
  | some s => rw [map_some, fieldSize, elim_some, length_encode_str, elim_some]

theorem fieldSize_int (v : Option ℤ) : fieldSize key (v.map .int) =
    v.elim 0 fun x => (encodeString (cString key)).length + intSize x := by
  cases v with
  | none => rfl
  | some x => rw [map_some, fieldSize, elim_some, length_encode_int, elim_some]

end Bencode

end Norn
