import Norn.Dht.BencodeRoundTrip

/-!
# The numbers of bencode

Numbers are read into 64 bits.
-/

namespace Norn
open List Option
namespace Bencode

def residue (ds : Bytes) : ℕ := decimalValue ds % 2 ^ 64

/-- No prefix has a smaller residue than the one before it. -/
def Rises (ds : Bytes) : Prop := ∀ j < ds.length, residue (ds.take j) ≤ residue (ds.take (j + 1))

/-- The number overflows, and its residue neither falls nor ends above the limit. -/
structure WrapsUnseen (ds : Bytes) (limit : ℕ) : Prop where
  overflows : 2 ^ 64 ≤ decimalValue ds
  rises : Rises ds
  le_limit : residue ds ≤ limit

def numberLimit (neg : Bool) : ℕ := if neg then 2 ^ 63 else 2 ^ 63 - 1

theorem residue_snoc (ds : Bytes) (b : UInt8) :
    residue (ds ++ [b]) = (residue ds * 10 + digitValue b) % 2 ^ 64 := by
  unfold residue
  rw [decimalValue_snoc]
  omega

variable {ps ds r data : Bytes} {n : ℤ} {pos limit : ℕ}

theorem Rises.of_append (h : Rises (ps ++ ds)) : Rises ps := by
  intro j hj
  have hstep := h j (by rw [length_append]; omega)
  rw [take_append_of_le_length hj.le, take_append_of_le_length hj] at hstep
  exact hstep

theorem rises_snoc {b : UInt8} : Rises (ds ++ [b]) ↔ Rises ds ∧ residue ds ≤ residue (ds ++ [b]) := by
  constructor
  · intro h
    have hlast := h ds.length (by rw [length_append, length_singleton]; omega)
    rw [take_left, take_of_length_le (by simp)] at hlast
    exact ⟨h.of_append, hlast⟩
  · rintro ⟨h, hlast⟩ j hj
    rw [length_append, length_singleton] at hj
    by_cases hlt : j < ds.length
    · rw [take_append_of_le_length hlt.le, take_append_of_le_length hlt]
      exact h j hlt
    · obtain rfl : j = ds.length := by omega
      rw [take_left, take_of_length_le (by simp)]
      exact hlast

theorem takeDigits_eq_some_iff {rest : Bytes} (hds : ∀ b ∈ ds, isDigit b = true)
    (hrest : rest.head?.any isDigit = false) (hps : Rises ps) {v : ℕ} :
    takeDigits (residue ps) (ds ++ rest) = some (v, r) ↔
      Rises (ps ++ ds) ∧ v = residue (ps ++ ds) ∧ r = rest := by
  induction ds generalizing ps with
  | nil =>
    have hstop : takeDigits (residue ps) rest = some (residue ps, rest) := by
      cases rest with
      | nil => rfl
      | cons c rest => exact if_neg (by simpa using hrest)
    rw [nil_append, append_nil, hstop, some_inj, Prod.mk.injEq]
    constructor
    · rintro ⟨rfl, rfl⟩
      exact ⟨hps, rfl, rfl⟩
    · rintro ⟨-, rfl, rfl⟩
      exact ⟨rfl, rfl⟩
  | cons b ds ih =>
    have hb : isDigit b = true := hds b mem_cons_self
    have hsplit : ps ++ b :: ds = (ps ++ [b]) ++ ds := append_cons ps b ds
    rw [cons_append, takeDigits, if_pos hb, ← residue_snoc, hsplit]
    by_cases hfalls : residue (ps ++ [b]) < residue ps
    · rw [if_pos hfalls]
      refine iff_of_false ?_ ?_
      · intro h
        cases h
      rintro ⟨hrises, -⟩
      exact absurd (rises_snoc.mp hrises.of_append).2 (not_le.mpr hfalls)
    · rw [if_neg hfalls]
      exact ih (fun c hc => hds c (mem_cons_of_mem b hc))
        (rises_snoc.mpr ⟨hps, not_lt.mp hfalls⟩)

theorem head?_dropWhile_isDigit (data : Bytes) :
    (data.dropWhile isDigit).head?.any isDigit = false := by
  cases hhead : (data.dropWhile isDigit).head? with
  | none => rfl
  | some c =>
    have hnot := head?_dropWhile_not isDigit data
    rw [hhead] at hnot
    simpa using hnot

theorem takeNumber_eq_some_iff {neg : Bool} : takeNumber neg data = some (n, r) ↔
      data.takeWhile isDigit ≠ [] ∧ Rises (data.takeWhile isDigit) ∧
        residue (data.takeWhile isDigit) ≤ numberLimit neg ∧
        n = (if neg then -(residue (data.takeWhile isDigit) : ℤ)
          else residue (data.takeWhile isDigit)) ∧ r = data.dropWhile isDigit := by
  have hdata : data = data.takeWhile isDigit ++ data.dropWhile isDigit :=
    takeWhile_append_dropWhile.symm
  have hloop {v : ℕ} {r : Bytes} : takeDigits 0 data = some (v, r) ↔
      Rises (data.takeWhile isDigit) ∧ v = residue (data.takeWhile isDigit) ∧
        r = data.dropWhile isDigit := by
    conv_lhs => rw [hdata]
    have hstart : Rises [] := fun j hj => absurd hj (Nat.not_lt_zero j)
    exact takeDigits_eq_some_iff (fun b hb => mem_takeWhile_imp hb)
      (head?_dropWhile_isDigit data) hstart
  have hhead : data.head?.any isDigit = true ↔ data.takeWhile isDigit ≠ [] := by
    cases data with
    | nil => simp
    | cons c data =>
      by_cases hc : isDigit c = true <;> simp [hc]
  unfold takeNumber
  by_cases hfirst : data.head?.any isDigit = true
  · rw [if_pos hfirst]
    simp only [hhead.mp hfirst, ne_eq, not_false_iff, true_and]
    cases htake : takeDigits 0 data with
    | none =>
      refine iff_of_false nofun ?_
      rintro ⟨hrises, -⟩
      rw [hloop.mpr ⟨hrises, rfl, rfl⟩] at htake
      cases htake
    | some p =>
      obtain ⟨hrises, hv, hr⟩ := hloop.mp htake
      obtain ⟨v, rest⟩ := p
      dsimp only at hv hr ⊢
      subst hv hr
      unfold numberLimit
      cases neg with
      | true | false => simp [hrises, eq_comm]
  · rw [if_neg hfirst]
    refine iff_of_false nofun ?_
    rintro ⟨hne, -⟩
    exact hfirst (hhead.mpr hne)

def negativeAt (data : Bytes) (pos : ℕ) (allowNeg : Bool) : Bool :=
  allowNeg && data[pos]? = some (ascii '-')

def digitsAt (data : Bytes) (pos : ℕ) (allowNeg : Bool) : Bytes :=
  (data.drop (if negativeAt data pos allowNeg then pos + 1 else pos)).takeWhile isDigit

def numberAt (data : Bytes) (pos : ℕ) (allowNeg : Bool) : ℤ :=
  if negativeAt data pos allowNeg then -(decimalValue (digitsAt data pos allowNeg) : ℤ)
  else decimalValue (digitsAt data pos allowNeg)

theorem exists_of_rest {α : Type} {a : α} {o : Option (α × ℕ)}
    (h : some (a, r) = o.map fun p => (p.1, data.drop p.2)) : ∃ p, o = some (a, p) := by
  obtain ⟨q, hq, hpair⟩ := map_eq_some_iff.mp h.symm
  exact ⟨q.2, hq.trans (congrArg some (Prod.ext (Prod.mk.inj hpair).1 rfl))⟩

theorem parseNumber_rest (data : Bytes) (neg : Bool) (i : ℕ) :
    takeNumber neg (data.drop i) = (parseNumber data neg i).map fun p => (p.1, data.drop p.2) := by
  by_cases hi : i ≤ data.length
  · exact (parseNumber_follows neg hi).rest
  · have hend : data[i]? = none := getElem?_eq_none (by omega)
    rw [drop_eq_nil_of_getElem? hend, parseNumber, hend]
    rfl

theorem parseIntBounded_eq (data : Bytes) (pos : ℕ) (allowNeg : Bool) :
    parseIntBounded data pos allowNeg = parseNumber data (negativeAt data pos allowNeg)
      (if negativeAt data pos allowNeg then pos + 1 else pos) := by
  unfold parseIntBounded negativeAt
  by_cases h : allowNeg = true ∧ data[pos]? = some (ascii '-')
  · simp [h]
  · rw [if_neg h]
    have hnot : (allowNeg && decide (data[pos]? = some (ascii '-'))) = false := by
      simpa using h
    rw [hnot]
    rfl

theorem parseIntBounded_eq_some_iff {allowNeg : Bool} :
    (∃ p, parseIntBounded data pos allowNeg = some (n, p)) ↔
      digitsAt data pos allowNeg ≠ [] ∧ Rises (digitsAt data pos allowNeg) ∧
        residue (digitsAt data pos allowNeg) ≤ numberLimit (negativeAt data pos allowNeg) ∧
        n = if negativeAt data pos allowNeg then -(residue (digitsAt data pos allowNeg) : ℤ)
          else residue (digitsAt data pos allowNeg) := by
  have hrest := parseNumber_rest data (negativeAt data pos allowNeg)
    (if negativeAt data pos allowNeg then pos + 1 else pos)
  rw [← parseIntBounded_eq] at hrest
  constructor
  · rintro ⟨p, hp⟩
    rw [hp, map_some] at hrest
    obtain ⟨hne, hrises, hle, hn, -⟩ := takeNumber_eq_some_iff.mp hrest
    exact ⟨hne, hrises, hle, hn⟩
  · rintro ⟨hne, hrises, hle, hn⟩
    rw [takeNumber_eq_some_iff.mpr ⟨hne, hrises, hle, hn, rfl⟩] at hrest
    exact exists_of_rest hrest

theorem WrapsUnseen.ne_nil (h : WrapsUnseen ds limit) : ds ≠ [] := by
  rintro rfl
  exact absurd h.1 (by decide)

theorem residue_eq_iff (ds : Bytes) : residue ds = decimalValue ds ↔ decimalValue ds < 2 ^ 64 := by
  unfold residue
  omega

/-- What is read as an integer is the integer that stands there. -/
def IntExact (data : Bytes) (pos : ℕ) (allowNeg : Bool) : Prop :=
  ∀ n p, parseIntBounded data pos allowNeg = some (n, p) →
    n = numberAt data pos allowNeg ∧ -2 ^ 63 ≤ n ∧ n < 2 ^ 63

theorem intExact_iff (data : Bytes) (pos : ℕ) (allowNeg : Bool) :
    IntExact data pos allowNeg ↔ ¬ WrapsUnseen (digitsAt data pos allowNeg)
      (numberLimit (negativeAt data pos allowNeg)) := by
  constructor
  · intro hexact hunseen
    have hne := hunseen.ne_nil
    obtain ⟨hover, hrises, hle⟩ := hunseen
    obtain ⟨p, hp⟩ := parseIntBounded_eq_some_iff.mpr ⟨hne, hrises, hle, rfl⟩
    have hvalue := (hexact _ p hp).1
    have hwraps := (residue_eq_iff (digitsAt data pos allowNeg)).not.mpr (not_lt.mpr hover)
    unfold numberAt at hvalue
    split_ifs at hvalue
    · omega
    · omega
  · intro hunseen n p hp
    obtain ⟨-, hrises, hle, hn⟩ := parseIntBounded_eq_some_iff.mp ⟨p, hp⟩
    have hfits : decimalValue (digitsAt data pos allowNeg) < 2 ^ 64 := by
      by_contra hover
      exact hunseen ⟨not_lt.mp hover, hrises, hle⟩
    rw [(residue_eq_iff _).mpr hfits] at hle hn
    unfold numberLimit at hle
    refine ⟨hn, ?_⟩
    rw [hn]
    split_ifs at hle ⊢
    · omega
    · omega

/-- A string has the length that stands before it. -/
def LengthExact (data : Bytes) (pos : ℕ) : Prop :=
  ∀ s p, decodeString data pos = some (s, p) → s.length = decimalValue (digitsAt data pos false)

def ResidueFits (data : Bytes) (pos : ℕ) : Prop :=
  ((data.drop pos).dropWhile isDigit).head? = some (ascii ':') ∧
    residue (digitsAt data pos false) ≤ ((data.drop pos).dropWhile isDigit).length - 1

theorem decodeString_rest (data : Bytes) (pos : ℕ) :
    takeString (data.drop pos) = (decodeString data pos).map fun p => (p.1, data.drop p.2) := by
  by_cases hpos : pos ≤ data.length
  · exact (decodeString_follows hpos).rest
  · have hend : data[pos]? = none := getElem?_eq_none (by omega)
    have hparse : parseIntBounded data pos false = none := by
      rw [parseIntBounded, if_neg (by simp), parseNumber, hend]
      rfl
    rw [drop_eq_nil_of_getElem? hend, decodeString, hparse]
    rfl

theorem decodeString_eq_some_iff {n : ℕ} :
    (∃ s p, decodeString data pos = some (s, p) ∧ s.length = n) ↔
      digitsAt data pos false ≠ [] ∧ Rises (digitsAt data pos false) ∧
        residue (digitsAt data pos false) ≤ 2 ^ 63 - 1 ∧ ResidueFits data pos ∧
        n = residue (digitsAt data pos false) := by
  have hlen (hfits : ResidueFits data pos) :
      (((data.drop pos).dropWhile isDigit).tail.take (residue (digitsAt data pos false))).length =
        residue (digitsAt data pos false) := by
    rw [length_take, length_tail]
    exact min_eq_left hfits.2
  have hrest := decodeString_rest data pos
  constructor
  · rintro ⟨s, p, hs, rfl⟩
    rw [hs, map_some, takeString] at hrest
    cases htake : takeIntBounded false (data.drop pos) with
    | none =>
      rw [htake] at hrest
      cases hrest
    | some q =>
      obtain ⟨m, rest⟩ := q
      obtain ⟨hne, hrises, hle, hm, hr⟩ := takeNumber_eq_some_iff.mp htake
      rw [htake] at hrest
      rw [if_neg Bool.false_ne_true] at hm
      subst hm hr
      dsimp only at hrest
      rw [Int.toNat_natCast] at hrest
      split_ifs at hrest with hfits
      refine ⟨hne, hrises, hle, hfits, ?_⟩
      rw [← (Prod.mk.inj (some.inj hrest)).1]
      exact hlen hfits
  · rintro ⟨hne, hrises, hle, hfits, rfl⟩
    have htake : takeIntBounded false (data.drop pos) =
        some ((residue (digitsAt data pos false) : ℤ), (data.drop pos).dropWhile isDigit) :=
      takeNumber_eq_some_iff.mpr ⟨hne, hrises, hle, rfl, rfl⟩
    have hstring : takeString (data.drop pos) = some
        (((data.drop pos).dropWhile isDigit).tail.take (residue (digitsAt data pos false)),
          ((data.drop pos).dropWhile isDigit).tail.drop (residue (digitsAt data pos false))) := by
      rw [takeString, htake]
      exact if_pos hfits
    rw [hstring] at hrest
    obtain ⟨p, hp⟩ := exists_of_rest hrest
    exact ⟨_, p, hp, hlen hfits⟩

theorem lengthExact_iff (data : Bytes) (pos : ℕ) : LengthExact data pos ↔
      ¬ (WrapsUnseen (digitsAt data pos false) (2 ^ 63 - 1) ∧ ResidueFits data pos) := by
  constructor
  · rintro hexact ⟨hunseen, hfits⟩
    have hne := hunseen.ne_nil
    obtain ⟨hover, hrises, hle⟩ := hunseen
    obtain ⟨s, p, hs, hlen⟩ := decodeString_eq_some_iff.mpr ⟨hne, hrises, hle, hfits, rfl⟩
    have hwraps := (residue_eq_iff (digitsAt data pos false)).not.mpr (not_lt.mpr hover)
    exact hwraps (hlen.symm.trans (hexact s p hs))
  · intro hunseen s p hs
    obtain ⟨-, hrises, hle, hfits, hlen⟩ := decodeString_eq_some_iff.mp ⟨s, p, hs, rfl⟩
    rw [hlen, residue_eq_iff]
    by_contra hover
    exact hunseen ⟨⟨not_lt.mp hover, hrises, hle⟩, hfits⟩

theorem WrapsUnseen.residue_ge (h : WrapsUnseen ds limit) (hds : ∀ b ∈ ds, isDigit b = true) :
    2 ^ 60 ≤ residue ds := by
  obtain ⟨hover, hrises, -⟩ := h
  induction ds using reverseRecOn with
  | nil => exact absurd hover (by decide)
  | append_singleton ds b ih =>
    obtain ⟨hfront, hstep⟩ := rises_snoc.mp hrises
    refine le_trans ?_ hstep
    by_cases hbefore : 2 ^ 64 ≤ decimalValue ds
    · exact ih (fun c hc => hds c (mem_append_left _ hc)) hbefore hfront
    · have hdigit : digitValue b ≤ 9 := by
        have hb := hds b (mem_append_right ds (mem_singleton_self b))
        rw [isDigit, Bool.and_eq_true, decide_eq_true_eq, decide_eq_true_eq] at hb
        unfold digitValue
        omega
      rw [(residue_eq_iff ds).mpr (not_le.mp hbefore)]
      rw [decimalValue_snoc] at hover
      omega

theorem lengthExact_of_length_lt (h : data.length < 2 ^ 60) (pos : ℕ) : LengthExact data pos := by
  rw [lengthExact_iff]
  rintro ⟨hwraps, -, hle⟩
  have hhuge := hwraps.residue_ge fun b hb => mem_takeWhile_imp hb
  have hshort := (dropWhile_sublist isDigit (l := data.drop pos)).length_le
  rw [length_drop] at hshort
  omega

theorem decodeInt_encodeInt {v : ℤ} (hlow : -2 ^ 63 ≤ v) (hhigh : v < 2 ^ 63) {rest : Bytes}
    (h : data.drop pos = encodeInt v ++ rest) : ∃ p, decodeInt data pos = some (.int v, p) := by
  obtain ⟨text, htext, htake⟩ := takeInt_encodeInt hlow hhigh rest
  rw [htext] at h
  have hhead : data[pos]? = some (ascii 'i') := by
    rw [← head?_drop, h, head?_cons]
  have hfollows := (decodeInt_follows hhead).rest
  rw [← tail_drop, h, tail_cons, htake] at hfollows
  exact exists_of_rest hfollows

/-- Numbers are exact or rejected unless they wrap around unseen. A length in fewer than `2 ^ 60`
bytes cannot, and all integers of 64 bits are accepted. -/
theorem numbers_exact_iff (data : Bytes) (pos : ℕ) :
    (∀ allowNeg, IntExact data pos allowNeg ↔ ¬ WrapsUnseen (digitsAt data pos allowNeg)
      (numberLimit (negativeAt data pos allowNeg))) ∧
    (LengthExact data pos ↔
      ¬ (WrapsUnseen (digitsAt data pos false) (2 ^ 63 - 1) ∧ ResidueFits data pos)) ∧
    (data.length < 2 ^ 60 → LengthExact data pos) ∧
    ∀ v rest, -2 ^ 63 ≤ v → v < 2 ^ 63 → data.drop pos = encodeInt v ++ rest →
      ∃ p, decodeInt data pos = some (.int v, p) :=
  ⟨intExact_iff data pos, lengthExact_iff data pos, fun h => lengthExact_of_length_lt h pos,
    fun _ _ hlow hhigh h => decodeInt_encodeInt hlow hhigh h⟩

def tooLarge : Bytes := text "i25000000000000000000e".toList

theorem tooLarge_not_exact : ¬ IntExact tooLarge 1 true ∧
    numberAt tooLarge 1 true = 25000000000000000000 ∧
    parseIntBounded tooLarge 1 true = some (6553255926290448384, 21) := by
  have hparse : parseIntBounded tooLarge 1 true = some (6553255926290448384, 21) := by
    decide +kernel
  have hwritten : numberAt tooLarge 1 true = 25000000000000000000 := by decide +kernel
  refine ⟨fun h => ?_, hwritten, hparse⟩
  have hvalue := (h _ _ hparse).1
  rw [hwritten] at hvalue
  exact absurd hvalue (by decide)

end Bencode
end Norn
