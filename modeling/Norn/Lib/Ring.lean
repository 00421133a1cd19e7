import Mathlib

/-!
# Serial numbers and ring buffers

Words that wrap around are compared through their difference read as a signed number. A ring is a
table with a head position and a count, all positions modulo the capacity.
-/

namespace Norn
open UInt32 List Function

def signed (x : UInt32) : ℤ := x.toInt32.toInt

theorem signed_eq (x : UInt32) :
    signed x = if x.toNat < 2 ^ 31 then (x.toNat : ℤ) else x.toNat - 2 ^ 32 := by
  change x.toBitVec.toInt = _
  rw [BitVec.toInt_eq_toNat_cond]
  change (if 2 * x.toNat < 2 ^ 32 then _ else _) = _
  by_cases h : x.toNat < 2 ^ 31
  · rw [if_pos (by omega), if_pos h]
    rfl
  · rw [if_neg (by omega), if_neg h]
    rfl

theorem signed_neg_iff (x : UInt32) : signed x < 0 ↔ 2 ^ 31 ≤ x.toNat := by
  have := x.toNat_lt
  rw [signed_eq]
  split_ifs <;> omega

section
variable {a b c : UInt32}

theorem toNat_add_one_sub (h : (a - b).toNat + 1 < 2 ^ 32) :
    (a + 1 - b).toNat = (a - b).toNat + 1 := by
  simp only [UInt32.toNat_sub, UInt32.toNat_add, UInt32.toNat_one] at h ⊢
  omega

theorem add_ofNat_zero (q : UInt32) : q + ofNat 0 = q := by simp

variable {q : UInt32} {i : ℕ}

theorem add_ofNat_inj {j : ℕ} (hi : i < 2 ^ 32) (hj : j < 2 ^ 32)
    (h : q + UInt32.ofNat i = q + UInt32.ofNat j) : i = j := by
  have hnat := congrArg UInt32.toNat h
  have := q.toNat_lt
  rw [UInt32.toNat_add, UInt32.toNat_ofNat', UInt32.toNat_add, UInt32.toNat_ofNat'] at hnat
  omega

theorem add_ofNat_eq_self (hi : i < 2 ^ 32) (h : q + ofNat i = q) : i = 0 :=
  add_ofNat_inj hi (by decide) (h.trans (add_ofNat_zero q).symm)

theorem signed_add_sub_add (q : UInt32) {j : ℕ} (hi : i < 2 ^ 31) (hj : j < 2 ^ 31) :
    signed (q + UInt32.ofNat i - (q + UInt32.ofNat j)) = (i : ℤ) - j := by
  have := q.toNat_lt
  rw [signed_eq]
  simp only [UInt32.toNat_sub, UInt32.toNat_add, UInt32.toNat_ofNat']
  split_ifs <;> omega

end

structure Ring (α : Type*) (cap : ℕ) where
  buf : ℕ → α
  head : ℕ
  count : ℕ
  count_le : count ≤ cap

namespace Ring
variable {α : Type*} {cap : ℕ}

def store (cap : ℕ) (buf : ℕ → α) (pos : ℕ) : List α → ℕ → α
  | [] => buf
  | x :: xs => store cap (update buf (pos % cap) x) (pos + 1) xs

def empty (a : α) : Ring α cap := ⟨fun _ => a, 0, 0, Nat.zero_le _⟩

variable (r : Ring α cap)

def space : ℕ := cap - r.count

def append (xs : List α) : Ring α cap where
  buf := store cap r.buf (r.head + r.count) (xs.take r.space)
  head := r.head
  count := r.count + (xs.take r.space).length
  count_le := by
    have := r.count_le
    have := length_take_le r.space xs
    unfold space at *
    omega

def peek (n : ℕ) : List α :=
  (range n).map fun i => r.buf ((r.head + i) % cap)

def contents : List α := r.peek r.count

def remove (n : ℕ) : Ring α cap where
  buf := r.buf
  head := (r.head + n) % cap
  count := r.count - n
  count_le := (Nat.sub_le _ _).trans r.count_le

variable (r : Ring α cap)

@[simp] theorem length_contents : r.contents.length = r.count := by simp [contents, peek]

variable {i : ℕ} {buf : ℕ → α}

theorem getElem?_contents (hi : i < r.count) :
    r.contents[i]? = some (r.buf ((r.head + i) % cap)) := by
  simp [contents, peek, hi]

theorem mod_ne_of_lt {a j : ℕ} (hij : i < j) (hj : j < cap) : (a + i) % cap ≠ (a + j) % cap := by
  intro h
  have hmod : i ≡ j [MOD cap] := Nat.ModEq.add_left_cancel' a h
  exact hij.ne (hmod.eq_of_lt_of_lt (by omega) hj)

variable (xs : List α)

theorem store_of_ne {pos p : ℕ} (h : ∀ i < xs.length, p ≠ (pos + i) % cap) :
    store cap buf pos xs p = buf p := by
  induction xs generalizing buf pos with
  | nil => rfl
  | cons x xs ih =>
    rw [store, ih, update_of_ne]
    · exact h 0 (by simp)
    · intro i hi
      rw [add_assoc, add_comm 1 i]
      exact h (i + 1) (by simpa using hi)

theorem store_getElem? {pos : ℕ} (hlen : xs.length ≤ cap) {x : α}
    (hx : xs[i]? = some x) : store cap buf pos xs ((pos + i) % cap) = x := by
  induction xs generalizing buf pos i with
  | nil => simp at hx
  | cons y ys ih =>
    have hlen' : ys.length < cap := hlen
    cases i with
    | zero =>
      rw [store, store_of_ne]
      · rw [add_zero, update_self]
        simpa using hx
      · intro i hi
        rw [add_assoc, add_comm 1 i]
        exact mod_ne_of_lt (by omega) (by omega)
    | succ i =>
      rw [store, show pos + (i + 1) = pos + 1 + i by omega]
      exact ih hlen'.le (by simpa using hx)

theorem contents_append : (r.append xs).contents = r.contents ++ xs.take r.space := by
  have hcap := (r.append xs).count_le
  have hcount : (r.append xs).count = r.count + (xs.take r.space).length := rfl
  apply ext_getElem?
  intro i
  rcases Nat.lt_or_ge i r.count with hi | hi
  · rw [getElem?_contents _ (by omega), getElem?_append_left (by simpa using hi),
      getElem?_contents _ hi]
    change some (store cap r.buf (r.head + r.count) (xs.take r.space) ((r.head + i) % cap)) = _
    rw [store_of_ne]
    intro j hj
    rw [add_assoc]
    exact mod_ne_of_lt (by omega) (by omega)
  · rw [getElem?_append_right (by simpa using hi), length_contents]
    rcases Nat.lt_or_ge i (r.append xs).count with hlt | hge
    · obtain ⟨x, hx⟩ : ∃ x, (xs.take r.space)[i - r.count]? = some x :=
        ⟨_, getElem?_eq_getElem (by omega)⟩
      rw [getElem?_contents _ hlt, hx]
      have hstore : store cap r.buf (r.head + r.count) (xs.take r.space)
          ((r.head + r.count + (i - r.count)) % cap) = x := store_getElem? _ (by omega) hx
      rw [show r.head + r.count + (i - r.count) = r.head + i by omega] at hstore
      exact congrArg some hstore
    · rw [getElem?_eq_none (by simpa using hge), getElem?_eq_none (by omega)]

theorem count_append_of_le {xs : List α} (h : xs.length ≤ r.space) :
    (r.append xs).count = r.count + xs.length := by
  change r.count + (xs.take r.space).length = _
  rw [take_of_length_le h]

theorem peek_eq_take {n : ℕ} (hn : n ≤ r.count) : r.peek n = r.contents.take n := by
  rw [contents, peek, peek, ← map_take, take_range, min_eq_left hn]

theorem contents_remove (n : ℕ) : (r.remove n).contents = r.contents.drop n := by
  apply ext_getElem?
  intro i
  rw [getElem?_drop]
  have hcount : (r.remove n).count = r.count - n := rfl
  rcases Nat.lt_or_ge (n + i) r.count with hi | hi
  · rw [getElem?_contents _ (by omega), getElem?_contents _ hi]
    change some (r.buf (((r.head + n) % cap + i) % cap)) = _
    rw [Nat.mod_add_mod, add_assoc]
  · rw [getElem?_eq_none (by simp only [length_contents]; omega),
      getElem?_eq_none (by simpa using hi)]

end Ring

end Norn
