import Norn.Dht.Bencode

/-!
# Decoding and encoding

What the encoder writes is read back, if it fits.
-/

namespace Norn
open List
variable {s : Bytes}

theorem cString_eq_self (h : 0 ∉ s) : cString s = s := by
  rw [cString, takeWhile_eq_self_iff]
  intro b hb
  exact decide_eq_true fun hz => h (hz ▸ hb)

theorem length_cString_lt (h : 0 ∈ s) : (cString s).length < s.length := by
  apply lt_of_le_of_ne (takeWhile_sublist _).length_le
  intro hlen
  have hself : cString s = s := (takeWhile_sublist _).eq_of_length hlen
  rw [cString, takeWhile_eq_self_iff] at hself
  exact of_decide_eq_true (hself 0 h) rfl

namespace Bencode

@[elab_as_elim, induction_eliminator]
theorem parts_induction {P : Bencode → Prop} (int : ∀ v, P (int v)) (str : ∀ s, P (str s))
    (list : ∀ items, (∀ v ∈ items, P v) → P (list items))
    (dict : ∀ entries, (∀ e ∈ entries, P e.2) → P (dict entries)) (v : Bencode) : P v := by
  refine @Bencode.rec P (fun items => ∀ v ∈ items, P v) (fun entries => ∀ e ∈ entries, P e.2)
    (fun e => P e.2) int str list dict ?_ ?_ ?_ ?_ ?_ v
  · intro v hv
    cases hv
  · intro v items hv hitems
    exact forall_mem_cons.mpr ⟨hv, hitems⟩
  · intro e he
    cases he
  · intro e entries he hentries
    exact forall_mem_cons.mpr ⟨he, hentries⟩
  · intro key v hv
    exact hv

def digitStep (v : ℕ) (b : UInt8) : ℕ := v * 10 + digitValue b

theorem le_foldl_digitStep (v : ℕ) (ds : Bytes) : v ≤ ds.foldl digitStep v := by
  induction ds generalizing v with
  | nil => exact le_rfl
  | cons d ds ih =>
    have hstep : v ≤ digitStep v d := by
      unfold digitStep
      omega
    exact hstep.trans (ih _)

theorem takeDigits_append {ds : Bytes} (hds : ∀ b ∈ ds, isDigit b = true) (rest : Bytes) :
    ∀ {v : ℕ}, ds.foldl digitStep v < 2 ^ 64 →
      takeDigits v (ds ++ rest) = takeDigits (ds.foldl digitStep v) rest := by
  induction ds with
  | nil =>
    intro v hv
    rfl
  | cons d ds ih =>
    intro v hv
    have hnext : digitStep v d < 2 ^ 64 := (le_foldl_digitStep _ ds).trans_lt hv
    have hmod : (v * 10 + digitValue d) % 2 ^ 64 = digitStep v d := Nat.mod_eq_of_lt hnext
    have hle : ¬ digitStep v d < v := by
      unfold digitStep
      omega
    rw [cons_append, takeDigits, if_pos (hds d mem_cons_self), hmod, if_neg hle]
    exact ih (fun b hb => hds b (mem_cons_of_mem d hb)) hv

variable {n : ℕ} {c : UInt8} {v : ℤ}

theorem takeDigits_decimal (hn : n < 2 ^ 64) (hc : isDigit c = false) (rest : Bytes) :
    takeDigits 0 (decimal n ++ c :: rest) = some (n, c :: rest) := by
  have hvalue : (decimal n).foldl digitStep 0 = n := decimalValue_decimal n
  rw [takeDigits_append (isDigit_of_mem_decimal n) _ (by rwa [hvalue]), hvalue, takeDigits,
    if_neg (by rw [hc]; decide)]

theorem head_decimal (n : ℕ) : ∃ d ds, decimal n = d :: ds ∧ isDigit d = true := by
  obtain ⟨d, ds, hd⟩ := exists_cons_of_ne_nil (decimal_ne_nil n)
  exact ⟨d, ds, hd, isDigit_of_mem_decimal n d (hd ▸ mem_cons_self)⟩

theorem takeNumber_decimal (neg : Bool) (hn : n < 2 ^ 63 ∨ neg = true ∧ n = 2 ^ 63)
    (hc : isDigit c = false) (rest : Bytes) :
    takeNumber neg (decimal n ++ c :: rest) = some (if neg then -(n : ℤ) else n, c :: rest) := by
  obtain ⟨d, ds, hdecimal, hd⟩ := head_decimal n
  have hhead : ((decimal n ++ c :: rest).head?.any isDigit) = true := by
    rw [hdecimal, cons_append, head?_cons, Option.any_some, hd]
  rw [takeNumber, if_pos hhead, takeDigits_decimal (by omega) hc]
  cases neg with
  | true => exact (if_pos rfl).trans (if_neg (by omega))
  | false =>
    have hlt : n < 2 ^ 63 := hn.resolve_right fun h => Bool.false_ne_true h.1
    exact (if_neg Bool.false_ne_true).trans (if_neg (by omega))

theorem takeIntBounded_decimal (allowNeg : Bool) (hn : n < 2 ^ 63) (hc : isDigit c = false)
    (rest : Bytes) :
    takeIntBounded allowNeg (decimal n ++ c :: rest) = some ((n : ℤ), c :: rest) := by
  obtain ⟨d, ds, hdecimal, hd⟩ := head_decimal n
  have hminus : ¬ (allowNeg = true ∧ (decimal n ++ c :: rest).head? = some (ascii '-')) := by
    rintro ⟨-, h⟩
    rw [hdecimal, cons_append, head?_cons, Option.some_inj] at h
    rw [h] at hd
    exact absurd hd (by decide)
  rw [takeIntBounded, if_neg hminus, takeNumber_decimal false (.inl hn) hc]
  rfl

theorem takeIntBounded_minus (hn : n ≤ 2 ^ 63) (hc : isDigit c = false) (rest : Bytes) :
    takeIntBounded true (ascii '-' :: (decimal n ++ c :: rest)) = some (-(n : ℤ), c :: rest) := by
  have hn' : n < 2 ^ 63 ∨ true = true ∧ n = 2 ^ 63 := hn.lt_or_eq.imp_right fun h => ⟨rfl, h⟩
  rw [takeIntBounded, if_pos ⟨rfl, rfl⟩, tail_cons, takeNumber_decimal true hn' hc]
  rfl

theorem takeInt_encodeInt (hlow : -2 ^ 63 ≤ v) (hhigh : v < 2 ^ 63) (rest : Bytes) :
    ∃ data, encodeInt v ++ rest = ascii 'i' :: data ∧ takeInt data = some (.int v, rest) := by
  have hend : isDigit (ascii 'e') = false := by decide
  by_cases hv : v < 0
  · have hparse := takeIntBounded_minus (show v.natAbs ≤ 2 ^ 63 by omega) hend rest
    rw [show -(v.natAbs : ℤ) = v by omega] at hparse
    refine ⟨ascii '-' :: (decimal v.natAbs ++ ascii 'e' :: rest), ?_, ?_⟩
    · rw [encodeInt, if_pos hv, cons_append, append_assoc, append_assoc]
      rfl
    · rw [takeInt, hparse]
      exact if_pos rfl
  · have hparse := takeIntBounded_decimal true (show v.natAbs < 2 ^ 63 by omega) hend rest
    rw [show (v.natAbs : ℤ) = v by omega] at hparse
    refine ⟨decimal v.natAbs ++ ascii 'e' :: rest, ?_, ?_⟩
    · rw [encodeInt, if_neg hv, cons_append, append_assoc, append_assoc]
      rfl
    · rw [takeInt, hparse]
      exact if_pos rfl

theorem takeString_encodeString (hs : s.length < 2 ^ 63) (rest : Bytes) :
    takeString (encodeString s ++ rest) = some (s, rest) := by
  have hparse := takeIntBounded_decimal false hs (show isDigit (ascii ':') = false by decide)
    (s ++ rest)
  have hfits : (ascii ':' :: (s ++ rest)).head? = some (ascii ':') ∧
      (s.length : ℤ).toNat ≤ (ascii ':' :: (s ++ rest)).length - 1 := by
    refine ⟨rfl, ?_⟩
    rw [Int.toNat_natCast, length_cons, length_append]
    omega
  rw [encodeString, append_assoc, cons_append, takeString, hparse]
  refine (if_pos hfits).trans ?_
  rw [tail_cons, Int.toNat_natCast, take_left, drop_left]

theorem head_encodeString (s : Bytes) : ∃ c t, encodeString s = c :: t ∧ isDigit c = true := by
  obtain ⟨d, ds, hdecimal, hd⟩ := head_decimal s.length
  exact ⟨d, ds ++ ascii ':' :: s, by rw [encodeString, hdecimal, cons_append], hd⟩

section
variable {α : Type} {element : Bytes → Option (α × Bytes)} {enc : α → Bytes}

/-- The reader gets the value back from its spelling. -/
structure Reads (element : Bytes → Option (α × Bytes)) (enc : α → Bytes) (x : α) : Prop where
  head : ∃ c t, enc x = c :: t ∧ c ≠ ascii 'e'
  read : ∀ rest, element (enc x ++ rest) = some (x, rest)

variable {xs : List α}

theorem takeLoop_flatMap (h : ∀ x ∈ xs, Reads element enc x) (rest : Bytes) :
    ∀ {rounds : ℕ}, xs.length < rounds →
      takeLoop element rounds (xs.flatMap enc ++ ascii 'e' :: rest) = some (xs, rest) := by
  induction xs with
  | nil =>
    intro rounds hrounds
    obtain ⟨rounds, rfl⟩ : ∃ r, rounds = r + 1 := ⟨rounds - 1, by omega⟩
    exact if_pos rfl
  | cons x xs ih =>
    intro rounds hrounds
    rw [length_cons] at hrounds
    obtain ⟨rounds, rfl⟩ : ∃ r, rounds = r + 1 := ⟨rounds - 1, by omega⟩
    obtain ⟨⟨c, t, henc, hc⟩, hread⟩ := h x mem_cons_self
    have hrest := ih (fun y hy => h y (mem_cons_of_mem x hy)) (by omega : xs.length < rounds)
    have hx := hread (xs.flatMap enc ++ ascii 'e' :: rest)
    rw [henc, cons_append] at hx
    rw [flatMap_cons, henc, append_assoc, cons_append, takeLoop, if_neg hc, hx]
    dsimp only
    rw [hrest]
    rfl

theorem length_le_length_flatMap (h : ∀ x ∈ xs, Reads element enc x) :
    xs.length ≤ (xs.flatMap enc).length := by
  induction xs with
  | nil => exact le_rfl
  | cons x xs ih =>
    obtain ⟨c, t, henc, -⟩ := (h x mem_cons_self).head
    have hxs := ih fun y hy => h y (mem_cons_of_mem x hy)
    rw [flatMap_cons, henc, length_append, length_cons, length_cons]
    omega

theorem takeLoop_spelled (h : ∀ x ∈ xs, Reads element enc x) {len : ℕ}
    (hlen : (xs.flatMap enc).length ≤ len) (rest : Bytes) :
    takeLoop element (len + 1) (xs.flatMap enc ++ [ascii 'e'] ++ rest) = some (xs, rest) := by
  have hcount := length_le_length_flatMap h
  rw [append_assoc, singleton_append]
  exact takeLoop_flatMap h rest (by omega)

theorem length_le_length_flatMap_of_mem (enc : α → Bytes) {x : α} (hx : x ∈ xs) :
    (enc x).length ≤ (xs.flatMap enc).length := by
  rw [length_flatMap]
  exact le_sum_of_mem (mem_map_of_mem hx)

end

mutual

def spell : Bencode → Bytes
  | int v => encodeInt v
  | str s => encodeString s
  | list items => ascii 'l' :: (spellItems items ++ [ascii 'e'])
  | dict entries => ascii 'd' :: (spellEntries entries ++ [ascii 'e'])

def spellItems : List Bencode → Bytes
  | [] => []
  | v :: items => spell v ++ spellItems items

def spellEntries : List (Bytes × Bencode) → Bytes
  | [] => []
  | (key, v) :: entries => encodeString key ++ spell v ++ spellEntries entries

end

def encodeEntry (e : Bytes × Bencode) : Bytes := encodeString (cString e.1) ++ encode e.2

def spellEntry (e : Bytes × Bencode) : Bytes := encodeString e.1 ++ spell e.2

theorem encodeItems_eq (items : List Bencode) : encodeItems items = items.flatMap encode := by
  induction items with
  | nil => rfl
  | cons v items ih => rw [encodeItems, ih, flatMap_cons]

theorem encodeEntries_eq (entries : List (Bytes × Bencode)) :
    encodeEntries entries = entries.flatMap encodeEntry := by
  induction entries with
  | nil => rfl
  | cons e entries ih => rw [encodeEntries, ih, flatMap_cons, encodeEntry]

theorem spellItems_eq (items : List Bencode) : spellItems items = items.flatMap spell := by
  induction items with
  | nil => rfl
  | cons v items ih => rw [spellItems, ih, flatMap_cons]

theorem spellEntries_eq (entries : List (Bytes × Bencode)) :
    spellEntries entries = entries.flatMap spellEntry := by
  induction entries with
  | nil => rfl
  | cons e entries ih => rw [spellEntries, ih, flatMap_cons, spellEntry]

/-- Numbers of 64 bits, nested at most so deeply. -/
def Fits : ℕ → Bencode → Prop
  | _, int v => -2 ^ 63 ≤ v ∧ v < 2 ^ 63
  | _, str s => s.length < 2 ^ 63
  | 0, list _ => False
  | 0, dict _ => False
  | levels + 1, list items => ∀ v ∈ items, Fits levels v
  | levels + 1, dict entries => ∀ e ∈ entries, e.1.length < 2 ^ 63 ∧ Fits levels e.2

theorem ne_of_isDigit {d : UInt8} (hc : isDigit c = true) (hd : isDigit d = false) : c ≠ d := by
  rintro rfl
  rw [hc] at hd
  cases hd

theorem head_spell (v : Bencode) : ∃ c t, spell v = c :: t ∧ c ≠ ascii 'e' := by
  cases v with
  | int v => exact ⟨_, _, by rw [spell, encodeInt], by decide⟩
  | str s =>
    obtain ⟨c, t, henc, hc⟩ := head_encodeString s
    exact ⟨c, t, by rw [spell, henc], ne_of_isDigit hc (by decide)⟩
  | list items | dict entries => exact ⟨_, _, by rw [spell], by decide⟩

theorem takeEntry_spellEntry {value : Bytes → Option (Bencode × Bytes)} {e : Bytes × Bencode}
    (hkey : e.1.length < 2 ^ 63) (hvalue : ∀ rest, value (spell e.2 ++ rest) = some (e.2, rest)) :
    Reads (takeEntry value) spellEntry e := by
  constructor
  · obtain ⟨c, t, henc, hc⟩ := head_encodeString e.1
    refine ⟨c, t ++ spell e.2, ?_, ne_of_isDigit hc (by decide)⟩
    rw [spellEntry, henc, cons_append]
  · intro rest
    rw [spellEntry, append_assoc, takeEntry, takeString_encodeString hkey]
    dsimp only
    rw [hvalue]
    rfl

theorem takeValue_spell {len : ℕ} : ∀ {levels : ℕ} {v : Bencode}, Fits levels v →
    (spell v).length ≤ len → ∀ rest, takeValue len (levels + 1) (spell v ++ rest) = some (v, rest)
  | levels, int v, h, _, rest => by
    rw [Fits] at h
    obtain ⟨data, henc, hdec⟩ := takeInt_encodeInt h.1 h.2 rest
    rw [spell, henc, takeValue, if_pos rfl, hdec]
  | levels, str s, h, _, rest => by
    rw [Fits] at h
    obtain ⟨c, t, henc, hc⟩ := head_encodeString s
    have hdec := takeString_encodeString h rest
    rw [henc, cons_append] at hdec
    rw [spell, henc, cons_append, takeValue, if_neg (ne_of_isDigit hc (by decide)), if_pos hc,
      hdec]
    rfl
  | 0, list _, h, _, _ => h.elim
  | 0, dict _, h, _, _ => h.elim
  | levels + 1, list items, h, hlen, rest => by
    rw [spell, spellItems_eq, length_cons, length_append] at hlen
    have hreads : ∀ v ∈ items, Reads (takeValue len (levels + 1)) spell v := by
      intro v hv
      have hle := length_le_length_flatMap_of_mem spell hv
      exact ⟨head_spell v, takeValue_spell (h v hv) (by omega)⟩
    rw [spell, spellItems_eq, cons_append, takeValue, if_neg (by decide), if_neg (by decide),
      if_pos rfl, takeLoop_spelled hreads (by omega)]
    rfl
  | levels + 1, dict entries, h, hlen, rest => by
    rw [spell, spellEntries_eq, length_cons, length_append] at hlen
    have hreads : ∀ e ∈ entries, Reads (takeEntry (takeValue len (levels + 1))) spellEntry e := by
      intro e he
      have hle := length_le_length_flatMap_of_mem spellEntry he
      rw [spellEntry, length_append] at hle
      exact takeEntry_spellEntry (h e he).1 (takeValue_spell (h e he).2 (by omega))
    rw [spell, spellEntries_eq, cons_append, takeValue, if_neg (by decide),
      if_neg (by decide), if_neg (by decide), if_pos rfl, takeLoop_spelled hreads (by omega)]
    rfl

theorem bencodeDecode_spell {v : Bencode} (h : Fits maxDepth v) (rest : Bytes) :
    bencodeDecode (spell v ++ rest) 0 = (some v, (spell v).length) := by
  have htake := takeValue_spell h (Nat.le_add_right (spell v).length rest.length) rest
  rw [← length_append] at htake
  obtain ⟨hvalue, hrest⟩ := bencodeDecode_of_takeValue htake
  have hle := bencodeDecode_le hvalue
  refine Prod.ext hvalue ?_
  have hlen := congrArg length hrest
  rw [length_drop, length_append] at hlen
  rw [length_append] at hle
  show (bencodeDecode (spell v ++ rest) 0).2 = (spell v).length
  omega

inductive NulFree : Bencode → Prop
  | int (v : ℤ) : NulFree (int v)
  | str (s : Bytes) : NulFree (str s)
  | list {items : List Bencode} : (∀ v ∈ items, NulFree v) → NulFree (list items)
  | dict {entries : List (Bytes × Bencode)} : (∀ e ∈ entries, 0 ∉ e.1) →
      (∀ e ∈ entries, NulFree e.2) → NulFree (dict entries)

theorem encode_eq_spell {v : Bencode} (h : NulFree v) : encode v = spell v := by
  induction h with
  | int v | str s => rw [encode, spell]
  | list _ ih => rw [encode, spell, encodeItems_eq, spellItems_eq, flatMap_congr ih]
  | @dict entries hkeys _ ih =>
    have hentry : ∀ e ∈ entries, encodeEntry e = spellEntry e := by
      intro e he
      rw [encodeEntry, spellEntry, cString_eq_self (hkeys e he), ih e he]
    rw [encode, spell, encodeEntries_eq, spellEntries_eq, flatMap_congr hentry]

/-- The values that survive encoding and decoding. -/
structure Plain (levels : ℕ) (v : Bencode) : Prop where
  fits : Fits levels v
  nulFree : NulFree v

def PlainKey (key : Bytes) : Prop := 0 ∉ key ∧ key.length < 2 ^ 63

instance (key : Bytes) : Decidable (PlainKey key) := inferInstanceAs (Decidable (_ ∧ _))

theorem Plain.str (levels : ℕ) (h : s.length < 2 ^ 63) : Plain levels (str s) :=
  ⟨by rwa [Fits], .str s⟩

theorem Plain.int (levels : ℕ) (hlow : -2 ^ 63 ≤ v) (hhigh : v < 2 ^ 63) : Plain levels (int v) :=
  ⟨by rw [Fits]; exact ⟨hlow, hhigh⟩, .int v⟩

theorem Plain.dict {levels : ℕ} {entries : List (Bytes × Bencode)}
    (h : ∀ e ∈ entries, PlainKey e.1 ∧ Plain levels e.2) : Plain (levels + 1) (dict entries) := by
  constructor
  · intro e he
    exact ⟨(h e he).1.2, (h e he).2.fits⟩
  · exact .dict (fun e he => (h e he).1.1) fun e he => (h e he).2.nulFree

variable {v : Bencode}

theorem plainEntries_cons {levels : ℕ} {key : Bytes} {entries : List (Bytes × Bencode)}
    (hkey : PlainKey key) (hv : Plain levels v)
    (h : ∀ e ∈ entries, PlainKey e.1 ∧ Plain levels e.2) :
    ∀ e ∈ (key, v) :: entries, PlainKey e.1 ∧ Plain levels e.2 :=
  forall_mem_cons.mpr ⟨⟨hkey, hv⟩, h⟩

theorem bencodeDecode_encode (h : Plain maxDepth v) (rest : Bytes) :
    bencodeDecode (encode v ++ rest) 0 = (some v, (encode v).length) := by
  rw [encode_eq_spell h.nulFree]
  exact bencodeDecode_spell h.fits rest

/-- What the encoder writes is read back, and a decoder never leaves the buffer. -/
theorem decode_encode_append {v : Bencode} (hfits : Fits maxDepth v) (hnul : NulFree v)
    (rest data : Bytes) (pos : ℕ) :
    bencodeDecode (encode v ++ rest) 0 = (some v, (encode v).length) ∧
      (∀ w, (bencodeDecode data pos).1 = some w → (bencodeDecode data pos).2 ≤ data.length) ∧
      ((bencodeDecode data pos).1 = none → (bencodeDecode data pos).2 = pos) := by
  exact ⟨bencodeDecode_encode ⟨hfits, hnul⟩ rest, fun w => bencodeDecode_le, bencodeDecode_none⟩

def nestedValue : Bencode := dict [([97], list [int (-5), str [0, 255]])]

theorem nestedValue_decode_encode :
    (Fits maxDepth nestedValue ∧ NulFree nestedValue) ∧
      bencodeDecode (encode nestedValue ++ [1, 2]) 0 =
        (some nestedValue, (encode nestedValue).length) := by
  have hfits : Fits maxDepth nestedValue := by
    simp [nestedValue, maxDepth, Fits]
  have hlist : NulFree (list [int (-5), str [0, 255]]) :=
    .list (forall_mem_cons.mpr ⟨.int _, forall_mem_singleton.mpr (.str _)⟩)
  have hnul : NulFree nestedValue :=
    .dict (forall_mem_singleton.mpr (by decide)) (forall_mem_singleton.mpr hlist)
  exact ⟨⟨hfits, hnul⟩, (decode_encode_append hfits hnul [1, 2] [] 0).1⟩

end Bencode
end Norn
