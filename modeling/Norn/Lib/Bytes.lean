import Mathlib

/-!
# Byte strings and numbers

Numbers as bytes, most significant first, and as decimal text.
-/

namespace Norn
open List

abbrev Bytes := List UInt8

def slice (p : Bytes) (o n : ℕ) : Bytes := (p.drop o).take n

def bigEndian : ℕ → ℕ → Bytes
  | 0, _ => []
  | n + 1, v => UInt8.ofNat (v / 256 ^ n) :: bigEndian n v

def fromBigEndian : Bytes → ℕ
  | [] => 0
  | b :: bs => b.toNat * 256 ^ bs.length + fromBigEndian bs

@[simp] theorem length_bigEndian (n v : ℕ) : (bigEndian n v).length = n := by
  induction n with
  | zero => rfl
  | succ n ih => rw [bigEndian, length_cons, ih]

theorem fromBigEndian_bigEndian (n v : ℕ) : fromBigEndian (bigEndian n v) = v % 256 ^ n := by
  induction n with
  | zero => simp [bigEndian, fromBigEndian, Nat.mod_one]
  | succ n ih =>
    rw [bigEndian, fromBigEndian, ih, length_bigEndian, UInt8.toNat_ofNat', pow_succ 256 n,
      Nat.mod_mul, add_comm, mul_comm (256 ^ n)]

theorem fromBigEndian_lt (bs : Bytes) : fromBigEndian bs < 256 ^ bs.length := by
  induction bs with
  | nil => decide
  | cons b bs ih =>
    have hb : b.toNat + 1 ≤ 256 := b.toNat_lt
    calc fromBigEndian (b :: bs) < (b.toNat + 1) * 256 ^ bs.length := by
          rw [fromBigEndian, Nat.succ_mul]
          omega
      _ ≤ 256 ^ (b :: bs).length := by
          rw [length_cons, pow_succ']
          exact Nat.mul_le_mul_right _ hb

theorem bigEndian_mul_add (n c v : ℕ) : bigEndian n (c * 256 ^ n + v) = bigEndian n v := by
  induction n generalizing c with
  | zero => rfl
  | succ n ih =>
    have hsplit : c * 256 ^ (n + 1) = c * 256 * 256 ^ n := by rw [pow_succ', mul_assoc]
    have hdigit : UInt8.ofNat ((c * 256 * 256 ^ n + v) / 256 ^ n) = UInt8.ofNat (v / 256 ^ n) := by
      rw [Nat.mul_comm, Nat.mul_add_div (by positivity)]
      apply UInt8.toNat_inj.mp
      rw [UInt8.toNat_ofNat', UInt8.toNat_ofNat']
      exact Nat.mul_add_mod_self_right c 256 _
    rw [hsplit, bigEndian, bigEndian, hdigit, ih]

theorem bigEndian_fromBigEndian (bs : Bytes) : bigEndian bs.length (fromBigEndian bs) = bs := by
  induction bs with
  | nil => rfl
  | cons b bs ih =>
    rw [length_cons, bigEndian, fromBigEndian, bigEndian_mul_add, ih, Nat.mul_comm,
      Nat.mul_add_div (by positivity), Nat.div_eq_of_lt (fromBigEndian_lt bs), add_zero,
      UInt8.ofNat_toNat]

theorem bigEndian_inj {n v w : ℕ} (hv : v < 256 ^ n) (hw : w < 256 ^ n)
    (h : bigEndian n v = bigEndian n w) : v = w := by
  have hread := congrArg fromBigEndian h
  rwa [fromBigEndian_bigEndian, fromBigEndian_bigEndian, Nat.mod_eq_of_lt hv,
    Nat.mod_eq_of_lt hw] at hread

theorem slice_append (p q r : Bytes) : slice (p ++ (q ++ r)) p.length q.length = q := by
  rw [slice, drop_left, take_left]

theorem fromBigEndian_slice (p r : Bytes) {n v : ℕ} (hv : v < 256 ^ n) :
    fromBigEndian (slice (p ++ (bigEndian n v ++ r)) p.length n) = v := by
  have h := slice_append p (bigEndian n v) r
  rw [length_bigEndian] at h
  rw [h, fromBigEndian_bigEndian, Nat.mod_eq_of_lt hv]

def text (cs : List Char) : Bytes := cs.map fun c => UInt8.ofNat c.toNat

def digitByte (d : ℕ) : UInt8 := UInt8.ofNat (48 + d)

def isDigit (b : UInt8) : Bool := 48 ≤ b.toNat && b.toNat ≤ 57

def digitValue (b : UInt8) : ℕ := b.toNat - 48

def decimalFrom : ℕ → ℕ → Bytes
  | 0, n => [digitByte n]
  | rounds + 1, n =>
    if n < 10 then [digitByte n] else decimalFrom rounds (n / 10) ++ [digitByte (n % 10)]

def decimal (n : ℕ) : Bytes := decimalFrom n n

def decimalValue (bs : Bytes) : ℕ := bs.foldl (fun v b => v * 10 + digitValue b) 0

variable {n d : ℕ}

theorem decimalFrom_of_le {rounds : ℕ} (h : n ≤ rounds) : decimalFrom rounds n = decimal n := by
  induction rounds using Nat.strong_induction_on generalizing n with
  | _ rounds ih =>
    unfold decimal
    cases rounds with
    | zero =>
      obtain rfl : n = 0 := by omega
      rfl
    | succ rounds =>
      cases n with
      | zero => rfl
      | succ n =>
        rw [decimalFrom, decimalFrom]
        by_cases hn : n + 1 < 10
        · rw [if_pos hn, if_pos hn]
        · rw [if_neg hn, if_neg hn, ih rounds (by omega) (by omega), ih n (by omega) (by omega)]

theorem decimal_of_lt (h : n < 10) : decimal n = [digitByte n] := by
  unfold decimal
  cases n with
  | zero => rfl
  | succ n => rw [decimalFrom, if_pos h]

theorem decimal_of_le (h : 10 ≤ n) : decimal n = decimal (n / 10) ++ [digitByte (n % 10)] := by
  obtain ⟨m, rfl⟩ : ∃ m, n = m + 1 := ⟨n - 1, by omega⟩
  conv_lhs => rw [decimal, decimalFrom]
  rw [if_neg (by omega), decimalFrom_of_le (by omega)]

theorem decimal_induction {P : ℕ → Prop} (one : ∀ n < 10, P n)
    (more : ∀ n, 10 ≤ n → P (n / 10) → P n) (n : ℕ) : P n := by
  induction n using Nat.strong_induction_on with
  | _ n ih =>
    by_cases h : n < 10
    · exact one n h
    · exact more n (by omega) (ih (n / 10) (by omega))

theorem toNat_digitByte (h : d < 10) : (digitByte d).toNat = 48 + d := by
  rw [digitByte, UInt8.toNat_ofNat']
  omega

theorem isDigit_digitByte (h : d < 10) : isDigit (digitByte d) = true := by
  rw [isDigit, toNat_digitByte h, Bool.and_eq_true, decide_eq_true_eq, decide_eq_true_eq]
  omega

theorem digitValue_digitByte (h : d < 10) : digitValue (digitByte d) = d := by
  rw [digitValue, toNat_digitByte h]
  omega

theorem isDigit_of_mem_decimal (n : ℕ) : ∀ b ∈ decimal n, isDigit b = true := by
  induction n using decimal_induction with
  | one n h =>
    intro b hb
    rw [decimal_of_lt h, mem_singleton] at hb
    exact hb ▸ isDigit_digitByte h
  | more n h ih =>
    intro b hb
    rw [decimal_of_le h, mem_append, mem_singleton] at hb
    rcases hb with hb | rfl
    · exact ih b hb
    · exact isDigit_digitByte (Nat.mod_lt n (by decide))

theorem decimal_ne_nil (n : ℕ) : decimal n ≠ [] := by
  by_cases h : n < 10
  · rw [decimal_of_lt h]
    exact cons_ne_nil _ _
  · rw [decimal_of_le (by omega)]
    exact append_ne_nil_of_right_ne_nil _ (cons_ne_nil _ _)

theorem decimalValue_snoc (bs : Bytes) (b : UInt8) :
    decimalValue (bs ++ [b]) = decimalValue bs * 10 + digitValue b := by
  rw [decimalValue, foldl_append]
  rfl

theorem decimalValue_decimal (n : ℕ) : decimalValue (decimal n) = n := by
  induction n using decimal_induction with
  | one n h =>
    rw [decimal_of_lt h]
    exact (Nat.zero_add _).trans (digitValue_digitByte h)
  | more n h ih =>
    rw [decimal_of_le h, decimalValue_snoc, ih, digitValue_digitByte (Nat.mod_lt n (by decide))]
    omega

theorem length_decimal_le {k : ℕ} (hk : 0 < k) (h : n < 10 ^ k) : (decimal n).length ≤ k := by
  induction k generalizing n with
  | zero => cases hk
  | succ k ih =>
    by_cases hn : n < 10
    · rw [decimal_of_lt hn]
      exact Nat.succ_le_succ (Nat.zero_le k)
    · rw [decimal_of_le (by omega), length_append, length_singleton]
      have hdiv : n / 10 < 10 ^ k := by
        rw [Nat.div_lt_iff_lt_mul (by decide), ← pow_succ]
        exact h
      have hpos : 0 < k := by
        by_contra hzero
        obtain rfl : k = 0 := by omega
        omega
      exact Nat.succ_le_succ (ih hpos hdiv)

theorem length_decimal (n : ℕ) : (decimal n).length = Nat.log 10 n + 1 := by
  induction n using decimal_induction with
  | one n h => rw [decimal_of_lt h, Nat.log_of_lt h, length_singleton]
  | more n h ih =>
    rw [decimal_of_le h, length_append, ih, length_singleton,
      Nat.log_of_one_lt_of_le (by decide) h]

theorem decimal_append_inj {m : ℕ} {c d : UInt8} (hc : isDigit c = false) (hd : isDigit d = false)
    {r t : Bytes} (h : decimal n ++ c :: r = decimal m ++ d :: t) : n = m ∧ c :: r = d :: t := by
  have hfront (n : ℕ) {c : UInt8} (hc : isDigit c = false) (r : Bytes) :
      (decimal n ++ c :: r).takeWhile isDigit = decimal n := by
    rw [takeWhile_append_of_pos (isDigit_of_mem_decimal n),
      takeWhile_cons_of_neg (by rw [hc]; decide), append_nil]
  have hdigits : decimal n = decimal m := by rw [← hfront n hc r, h, hfront m hd t]
  have hvalue := congrArg decimalValue hdigits
  rw [decimalValue_decimal, decimalValue_decimal] at hvalue
  rw [hdigits] at h
  exact ⟨hvalue, append_cancel_left h⟩

end Norn
