import Norn.Lib.Bytes

/-!
# Bencode

The values of messages with their encoder and decoder (`bencode.c`).
-/

namespace Norn
open List Option

def ascii (c : Char) : UInt8 := UInt8.ofNat c.toNat

def cString (s : Bytes) : Bytes := s.takeWhile (· ≠ 0)

inductive Bencode
  | int (value : ℤ)
  | str (data : Bytes)
  | list (items : List Bencode)
  | dict (entries : List (Bytes × Bencode))

namespace Bencode

def maxDepth : ℕ := 32

def parseDigits (data : Bytes) : ℕ → ℕ → ℕ → Option (ℕ × ℕ)
  | 0, v, i => some (v, i)
  | rounds + 1, v, i =>
    match data[i]? with
    | none => some (v, i)
    | some c =>
      if isDigit c then
        if (v * 10 + digitValue c) % 2 ^ 64 < v then none
        else parseDigits data rounds ((v * 10 + digitValue c) % 2 ^ 64) (i + 1)
      else some (v, i)

def parseNumber (data : Bytes) (neg : Bool) (i : ℕ) : Option (ℤ × ℕ) :=
  if data[i]?.any isDigit then
    match parseDigits data data.length 0 i with
    | none => none
    | some (v, i) =>
      if neg then if 2 ^ 63 < v then none else some (-v, i)
      else if 2 ^ 63 - 1 < v then none else some (v, i)
  else none

def parseIntBounded (data : Bytes) (pos : ℕ) (allowNeg : Bool) : Option (ℤ × ℕ) :=
  if allowNeg ∧ data[pos]? = some (ascii '-') then parseNumber data true (pos + 1)
  else parseNumber data false pos

def decodeInt (data : Bytes) (pos : ℕ) : Option (Bencode × ℕ) :=
  match parseIntBounded data (pos + 1) true with
  | none => none
  | some (v, p) => if data[p]? = some (ascii 'e') then some (.int v, p + 1) else none

def decodeString (data : Bytes) (pos : ℕ) : Option (Bytes × ℕ) :=
  match parseIntBounded data pos false with
  | none => none
  | some (slen, p) =>
    if data[p]? = some (ascii ':') ∧ slen.toNat ≤ data.length - (p + 1) then
      some (slice data (p + 1) slen.toNat, p + 1 + slen.toNat)
    else none

def decodeLoop {α : Type} (element : ℕ → Option α × ℕ) (data : Bytes) :
    ℕ → ℕ → Option (List α) × ℕ
  | 0, pos => (none, pos)
  | rounds + 1, pos =>
    match data[pos]? with
    | none => (none, pos)
    | some c =>
      if c = ascii 'e' then (some [], pos + 1)
      else
        match element pos with
        | (none, pos) => (none, pos)
        | (some x, pos) =>
          match decodeLoop element data rounds pos with
          | (none, pos) => (none, pos)
          | (some xs, pos) => (some (x :: xs), pos)

def decodeEntry (value : ℕ → Option Bencode × ℕ) (data : Bytes) (pos : ℕ) :
    Option (Bytes × Bencode) × ℕ :=
  match decodeString data pos with
  | none => (none, pos)
  | some (key, pos) =>
    match value pos with
    | (none, pos) => (none, pos)
    | (some v, pos) => (some (key, v), pos)

def commit (pos : ℕ) (r : Option (Bencode × ℕ)) : Option Bencode × ℕ :=
  match r with
  | none => (none, pos)
  | some (v, p) => (some v, p)

def decodeDepth (data : Bytes) : ℕ → ℕ → Option Bencode × ℕ
  | 0, pos => (none, pos)
  | levels + 1, pos =>
    match data[pos]? with
    | none => (none, pos)
    | some c =>
      if c = ascii 'i' then commit pos (decodeInt data pos)
      else if isDigit c then
        commit pos ((decodeString data pos).map fun (s, p) => (.str s, p))
      else if c = ascii 'l' then
        match decodeLoop (decodeDepth data levels) data (data.length + 1) (pos + 1) with
        | (none, _) => (none, pos)
        | (some items, p) => (some (.list items), p)
      else if c = ascii 'd' then
        match decodeLoop (decodeEntry (decodeDepth data levels) data) data (data.length + 1)
            (pos + 1) with
        | (none, _) => (none, pos)
        | (some entries, p) => (some (.dict entries), p)
      else (none, pos)

def bencodeDecode (data : Bytes) (pos : ℕ) : Option Bencode × ℕ :=
  decodeDepth data (maxDepth + 1) pos

def encodeInt (v : ℤ) : Bytes :=
  ascii 'i' :: ((if v < 0 then [ascii '-'] else []) ++ decimal v.natAbs ++ [ascii 'e'])

def encodeString (s : Bytes) : Bytes := decimal s.length ++ ascii ':' :: s

mutual

def encode : Bencode → Bytes
  | int v => encodeInt v
  | str s => encodeString s
  | list items => ascii 'l' :: (encodeItems items ++ [ascii 'e'])
  | dict entries => ascii 'd' :: (encodeEntries entries ++ [ascii 'e'])

def encodeItems : List Bencode → Bytes
  | [] => []
  | v :: items => encode v ++ encodeItems items

def encodeEntries : List (Bytes × Bencode) → Bytes
  | [] => []
  | (key, v) :: entries => encodeString (cString key) ++ encode v ++ encodeEntries entries

end

def dictGet (d : Bencode) (key : Bytes) : Option Bencode :=
  match d with
  | dict entries => (entries.find? fun e => cString e.1 = cString key).map Prod.snd
  | _ => none

end Bencode

namespace Bencode

def takeDigits (v : ℕ) : Bytes → Option (ℕ × Bytes)
  | [] => some (v, [])
  | c :: data =>
    if isDigit c then
      if (v * 10 + digitValue c) % 2 ^ 64 < v then none
      else takeDigits ((v * 10 + digitValue c) % 2 ^ 64) data
    else some (v, c :: data)

def takeNumber (neg : Bool) (data : Bytes) : Option (ℤ × Bytes) :=
  if data.head?.any isDigit then
    match takeDigits 0 data with
    | none => none
    | some (v, rest) =>
      if neg then if 2 ^ 63 < v then none else some (-v, rest)
      else if 2 ^ 63 - 1 < v then none else some (v, rest)
  else none

def takeIntBounded (allowNeg : Bool) (data : Bytes) : Option (ℤ × Bytes) :=
  if allowNeg ∧ data.head? = some (ascii '-') then takeNumber true data.tail
  else takeNumber false data

def takeInt (data : Bytes) : Option (Bencode × Bytes) :=
  match takeIntBounded true data with
  | none => none
  | some (v, rest) => if rest.head? = some (ascii 'e') then some (.int v, rest.tail) else none

def takeString (data : Bytes) : Option (Bytes × Bytes) :=
  match takeIntBounded false data with
  | none => none
  | some (n, rest) =>
    if rest.head? = some (ascii ':') ∧ n.toNat ≤ rest.length - 1 then
      some (rest.tail.take n.toNat, rest.tail.drop n.toNat)
    else none

def takeLoop {α : Type} (element : Bytes → Option (α × Bytes)) :
    ℕ → Bytes → Option (List α × Bytes)
  | 0, _ => none
  | _ + 1, [] => none
  | rounds + 1, c :: data =>
    if c = ascii 'e' then some ([], data)
    else
      match element (c :: data) with
      | none => none
      | some (x, rest) => (takeLoop element rounds rest).map fun p => (x :: p.1, p.2)

def takeEntry (value : Bytes → Option (Bencode × Bytes)) (data : Bytes) :
    Option ((Bytes × Bencode) × Bytes) :=
  match takeString data with
  | none => none
  | some (key, rest) => (value rest).map fun p => ((key, p.1), p.2)

def takeValue (len : ℕ) : ℕ → Bytes → Option (Bencode × Bytes)
  | 0, _ => none
  | _ + 1, [] => none
  | levels + 1, c :: data =>
    if c = ascii 'i' then takeInt data
    else if isDigit c then (takeString (c :: data)).map fun p => (.str p.1, p.2)
    else if c = ascii 'l' then
      (takeLoop (takeValue len levels) (len + 1) data).map fun p => (.list p.1, p.2)
    else if c = ascii 'd' then
      (takeLoop (takeEntry (takeValue len levels)) (len + 1) data).map fun p => (.dict p.1, p.2)
    else none

section
variable {α : Type} {data : Bytes}

/-- The parser does on the bytes that are left what the decoder does at its position. -/
structure Follows (data : Bytes) (r : Option (α × ℕ)) (s : Option (α × Bytes)) : Prop where
  rest : s = r.map fun p => (p.1, data.drop p.2)
  le : ∀ p ∈ r, p.2 ≤ data.length

def found (r : Option α × ℕ) : Option (α × ℕ) := r.1.map fun x => (x, r.2)

theorem Follows.none : Follows data (none : Option (α × ℕ)) none :=
  ⟨rfl, fun _ h => nomatch h⟩

theorem Follows.some (x : α) {p : ℕ} (h : p ≤ data.length) :
    Follows data (some (x, p)) (some (x, data.drop p)) := by
  refine ⟨rfl, ?_⟩
  rintro q ⟨⟩
  exact h

theorem Follows.map {β : Type} (f : α → β) {r : Option (α × ℕ)} {s : Option (α × Bytes)}
    (h : Follows data r s) :
    Follows data (r.map fun p => (f p.1, p.2)) (s.map fun p => (f p.1, p.2)) := by
  obtain ⟨rfl, hle⟩ := h
  cases r with
  | none => exact .none
  | some p => exact .some (f p.1) (hle p rfl)

variable {i pos : ℕ} {c : UInt8}

theorem le_of_getElem?_eq_some (h : data[i]? = some c) : i + 1 ≤ data.length :=
  (List.getElem?_eq_some_iff.mp h).1

theorem drop_eq_cons_of_getElem? (h : data[i]? = some c) : data.drop i = c :: data.drop (i + 1) := by
  obtain ⟨hi, rfl⟩ := List.getElem?_eq_some_iff.mp h
  exact drop_eq_getElem_cons hi

theorem drop_eq_nil_of_getElem? (h : data[i]? = none) : data.drop i = [] :=
  drop_eq_nil_of_le (getElem?_eq_none_iff.mp h)

theorem parseDigits_follows {rounds : ℕ} (hrounds : data.length ≤ i + rounds) (hi : i ≤ data.length)
    (v : ℕ) : Follows data (parseDigits data rounds v i) (takeDigits v (data.drop i)) := by
  induction rounds generalizing i v with
  | zero =>
    obtain rfl : i = data.length := by omega
    rw [drop_length]
    have hstop := Follows.some v (le_refl data.length)
    rw [drop_length] at hstop
    exact hstop
  | succ rounds ih =>
    rw [parseDigits]
    cases hc : data[i]? with
    | none =>
      have hstop := Follows.some v hi
      rw [drop_eq_nil_of_getElem? hc] at hstop ⊢
      exact hstop
    | some c =>
      have hlt := le_of_getElem?_eq_some hc
      have hstop := Follows.some v hi
      rw [drop_eq_cons_of_getElem? hc] at hstop ⊢
      rw [takeDigits]
      dsimp only
      split_ifs
      · exact .none
      · exact ih (by omega) hlt _
      · exact hstop

theorem parseNumber_follows (neg : Bool) (hi : i ≤ data.length) :
    Follows data (parseNumber data neg i) (takeNumber neg (data.drop i)) := by
  have hdigits := parseDigits_follows (Nat.le_add_left data.length i) hi 0
  rw [parseNumber, takeNumber, head?_drop]
  split_ifs with hdigit hneg
  all_goals try exact .none
  all_goals
    obtain ⟨hrest, hle⟩ := hdigits
    rw [hrest]
    cases hparse : parseDigits data data.length 0 i with
    | none => exact .none
    | some p =>
      dsimp only [map_some]
      split_ifs
      · exact .none
      · exact .some _ (hle p hparse)

theorem parseIntBounded_follows (hpos : pos ≤ data.length) (allowNeg : Bool) :
    Follows data (parseIntBounded data pos allowNeg) (takeIntBounded allowNeg (data.drop pos)) := by
  rw [parseIntBounded, takeIntBounded, head?_drop, tail_drop]
  split_ifs with h
  · exact parseNumber_follows true (le_of_getElem?_eq_some h.2)
  · exact parseNumber_follows false hpos

theorem decodeInt_follows (hc : data[pos]? = some c) :
    Follows data (decodeInt data pos) (takeInt (data.drop (pos + 1))) := by
  obtain ⟨hrest, hle⟩ := parseIntBounded_follows (le_of_getElem?_eq_some hc) true
  rw [decodeInt, takeInt, hrest]
  cases hparse : parseIntBounded data (pos + 1) true with
  | none => exact .none
  | some p =>
    dsimp only [map_some]
    rw [head?_drop, tail_drop]
    split_ifs with hend
    · exact .some _ (le_of_getElem?_eq_some hend)
    · exact .none

theorem decodeString_follows (hpos : pos ≤ data.length) :
    Follows data (decodeString data pos) (takeString (data.drop pos)) := by
  obtain ⟨hrest, hle⟩ := parseIntBounded_follows hpos false
  rw [decodeString, takeString, hrest]
  cases hparse : parseIntBounded data pos false with
  | none => exact .none
  | some p =>
    obtain ⟨n, p⟩ := p
    dsimp only [map_some]
    rw [head?_drop, tail_drop, length_drop, drop_drop, Nat.sub_sub]
    split_ifs with hfits
    · have hlt := le_of_getElem?_eq_some hfits.1
      exact .some _ (by omega)
    · exact .none

theorem decodeLoop_follows {element : ℕ → Option α × ℕ} {element' : Bytes → Option (α × Bytes)}
    (h : ∀ pos ≤ data.length, Follows data (found (element pos)) (element' (data.drop pos)))
    (rounds : ℕ) (hpos : pos ≤ data.length) :
    Follows data (found (decodeLoop element data rounds pos))
      (takeLoop element' rounds (data.drop pos)) := by
  induction rounds generalizing pos with
  | zero => exact .none
  | succ rounds ih =>
    rw [decodeLoop]
    cases hc : data[pos]? with
    | none =>
      rw [drop_eq_nil_of_getElem? hc]
      exact .none
    | some c =>
      have helement := h pos hpos
      rw [drop_eq_cons_of_getElem? hc] at helement ⊢
      rw [takeLoop]
      dsimp only
      by_cases he : c = ascii 'e'
      · rw [if_pos he, if_pos he]
        exact .some [] (le_of_getElem?_eq_some hc)
      · rw [if_neg he, if_neg he, helement.rest]
        generalize element pos = r at helement ⊢
        obtain ⟨_ | x, p⟩ := r
        · exact .none
        · have hnext := (ih (helement.le (x, p) rfl)).map (x :: ·)
          dsimp only
          generalize decodeLoop element data rounds p = r at hnext ⊢
          obtain ⟨_ | xs, q⟩ := r
          · exact hnext
          · exact hnext

theorem decodeEntry_follows {value : ℕ → Option Bencode × ℕ}
    {value' : Bytes → Option (Bencode × Bytes)}
    (h : ∀ pos ≤ data.length, Follows data (found (value pos)) (value' (data.drop pos)))
    (hpos : pos ≤ data.length) :
    Follows data (found (decodeEntry value data pos)) (takeEntry value' (data.drop pos)) := by
  obtain ⟨hrest, hle⟩ := decodeString_follows hpos
  rw [decodeEntry, takeEntry, hrest]
  cases hkey : decodeString data pos with
  | none => exact .none
  | some p =>
    obtain ⟨key, p⟩ := p
    have hvalue := (h p (hle (key, p) hkey)).map fun v => (key, v)
    dsimp only [map_some]
    generalize value p = r at hvalue ⊢
    obtain ⟨_ | v, q⟩ := r
    · exact hvalue
    · exact hvalue

theorem found_commit (pos : ℕ) (r : Option (Bencode × ℕ)) : found (commit pos r) = r := by
  cases r with
  | none | some p => rfl

theorem decodeDepth_follows (levels : ℕ) (hpos : pos ≤ data.length) :
    Follows data (found (decodeDepth data levels pos))
      (takeValue data.length levels (data.drop pos)) := by
  induction levels generalizing pos with
  | zero => exact .none
  | succ levels ih =>
    rw [decodeDepth]
    cases hc : data[pos]? with
    | none =>
      rw [drop_eq_nil_of_getElem? hc]
      exact .none
    | some c =>
      have hnext := le_of_getElem?_eq_some hc
      have hstring := (decodeString_follows hpos).map Bencode.str
      have hlist := (decodeLoop_follows (fun _ => ih) (data.length + 1) hnext).map Bencode.list
      have hentry : ∀ p ≤ data.length,
          Follows data (found (decodeEntry (decodeDepth data levels) data p))
            (takeEntry (takeValue data.length levels) (data.drop p)) :=
        fun p hp => decodeEntry_follows (fun _ => ih) hp
      have hdict := (decodeLoop_follows hentry (data.length + 1) hnext).map Bencode.dict
      rw [drop_eq_cons_of_getElem? hc] at hstring ⊢
      rw [takeValue]
      dsimp only
      by_cases hi : c = ascii 'i'
      · rw [if_pos hi, if_pos hi, found_commit]
        exact decodeInt_follows hc
      by_cases hd : isDigit c = true
      · rw [if_neg hi, if_pos hd, if_neg hi, if_pos hd, found_commit]
        exact hstring
      by_cases hl : c = ascii 'l'
      · rw [if_neg hi, if_neg hd, if_pos hl, if_neg hi, if_neg hd, if_pos hl]
        generalize decodeLoop (decodeDepth data levels) data (data.length + 1) (pos + 1) = r
          at hlist ⊢
        obtain ⟨_ | items, p⟩ := r
        · exact hlist
        · exact hlist
      by_cases he : c = ascii 'd'
      · rw [if_neg hi, if_neg hd, if_neg hl, if_pos he, if_neg hi, if_neg hd, if_neg hl, if_pos he]
        generalize decodeLoop (decodeEntry (decodeDepth data levels) data) data (data.length + 1)
          (pos + 1) = r at hdict ⊢
        obtain ⟨_ | entries, p⟩ := r
        · exact hdict
        · exact hdict
      · rw [if_neg hi, if_neg hd, if_neg hl, if_neg he, if_neg hi, if_neg hd, if_neg hl, if_neg he]
        exact .none

end

variable {pos : ℕ} {data : Bytes} {v : Bencode}

theorem bencodeDecode_le (h : (bencodeDecode data pos).1 = some v) :
    (bencodeDecode data pos).2 ≤ data.length := by
  by_cases hpos : pos ≤ data.length
  · apply (decodeDepth_follows (maxDepth + 1) hpos).le (v, (bencodeDecode data pos).2)
    rw [found, mem_def]
    change (bencodeDecode data pos).1.map _ = _
    rw [h]
    rfl
  · rw [bencodeDecode, decodeDepth, getElem?_eq_none (by omega)] at h
    cases h

theorem bencodeDecode_none (h : (bencodeDecode data pos).1 = none) :
    (bencodeDecode data pos).2 = pos := by
  unfold bencodeDecode decodeDepth at h ⊢
  cases hc : data[pos]? with
  | none => rfl
  | some c =>
    rw [hc] at h
    dsimp only at h ⊢
    have hcommit : ∀ r : Option (Bencode × ℕ), (commit pos r).1 = none → (commit pos r).2 = pos := by
      intro r hr
      cases r with
      | none => rfl
      | some p => cases hr
    split_ifs at h ⊢
    · exact hcommit _ h
    · exact hcommit _ h
    · split at h
      · rfl
      · cases h
    · split at h
      · rfl
      · cases h
    · rfl

theorem bencodeDecode_of_takeValue {rest : Bytes}
    (h : takeValue data.length (maxDepth + 1) data = some (v, rest)) :
    (bencodeDecode data 0).1 = some v ∧ data.drop (bencodeDecode data 0).2 = rest := by
  have hfollows := (decodeDepth_follows (maxDepth + 1) (Nat.zero_le data.length)).rest
  rw [drop_zero, h] at hfollows
  change some (v, rest) = (found (bencodeDecode data 0)).map _ at hfollows
  generalize bencodeDecode data 0 = r at hfollows ⊢
  obtain ⟨_ | w, p⟩ := r
  · cases hfollows
  · obtain ⟨hv, hrest⟩ := Prod.mk.inj (some.inj hfollows)
    exact ⟨congrArg some hv.symm, hrest.symm⟩

end Bencode

end Norn
