import Norn.Lib.Bytes

/-!
# Reading text

What `fgets` and `sscanf` of the C library make of a text.
-/

namespace Norn.Scan
open List

def isSpace (b : UInt8) : Bool := b == 32 || (9 ≤ b.toNat && b.toNat ≤ 13)

def newline : UInt8 := 10

def fgets : ℕ → Bytes → Bytes × Bytes
  | 0, s => ([], s)
  | _ + 1, [] => ([], [])
  | room + 1, b :: s =>
    if b = newline then ([b], s)
    else
      let out := fgets room s
      (b :: out.1, out.2)

def linesFrom (room : ℕ) : ℕ → Bytes → List Bytes
  | 0, _ => []
  | rounds + 1, s =>
    if s = [] then []
    else
      let out := fgets room s
      out.1 :: linesFrom room rounds out.2

def lines (room : ℕ) (s : Bytes) : List Bytes := linesFrom room s.length s

def word (width : ℕ) (s : Bytes) : Option (Bytes × Bytes) :=
  let s := s.dropWhile isSpace
  let w := (s.takeWhile fun b => !isSpace b).take width
  if w = [] then none else some (w, s.drop w.length)

structure Numeral where
  neg : Bool
  abs : ℕ

def sign : Bytes → Bool × Bytes
  | b :: s => if b = 45 then (true, s) else if b = 43 then (false, s) else (false, b :: s)
  | [] => (false, [])

def number (s : Bytes) : Option (Numeral × Bytes) :=
  let signed := sign (s.dropWhile isSpace)
  let ds := signed.2.takeWhile isDigit
  if ds = [] then none else some (⟨signed.1, decimalValue ds⟩, signed.2.drop ds.length)

def Numeral.toULong (n : Numeral) : ℕ :=
  if 2 ^ 64 ≤ n.abs then 2 ^ 64 - 1 else if n.neg then (2 ^ 64 - n.abs) % 2 ^ 64 else n.abs

def Numeral.toLong (n : Numeral) : ℤ :=
  if n.neg then max (-2 ^ 63) (-n.abs) else min (2 ^ 63 - 1) n.abs

def printLong (v : ℤ) : Bytes := (if v < 0 then [45] else []) ++ decimal v.natAbs

def Solid (w : Bytes) : Prop := ∀ b ∈ w, isSpace b = false ∧ b ≠ 0

structure IsLine (room : ℕ) (l : Bytes) : Prop where
  length_le : l.length ≤ room
  ends : ∃ body, l = body ++ [newline] ∧ newline ∉ body

inductive Row : Bytes → Prop
  | last {w : Bytes} (solid : Solid w) : Row (w ++ [newline])
  | cons {w s : Bytes} (solid : Solid w) (rest : Row s) : Row (w ++ 32 :: s)

variable {w s : Bytes} {room : ℕ} {ls : List Bytes} {b : UInt8} {v : ℤ}

theorem Solid.newline_notMem (h : Solid w) : newline ∉ w :=
  fun hmem => Bool.false_ne_true ((h newline hmem).1.symm.trans rfl)

theorem Row.ends (h : Row s) : ∃ body, s = body ++ [newline] ∧ newline ∉ body := by
  induction h with
  | @last w solid => exact ⟨w, rfl, solid.newline_notMem⟩
  | @cons w s solid rest ih =>
    obtain ⟨body, rfl, hbody⟩ := ih
    refine ⟨w ++ 32 :: body, by rw [append_assoc, cons_append], ?_⟩
    rw [mem_append, mem_cons]
    rintro (hmem | hmem | hmem)
    · exact solid.newline_notMem hmem
    · cases hmem
    · exact hbody hmem

theorem Row.zero_notMem (h : Row s) : 0 ∉ s := by
  induction h with
  | last solid =>
    rw [mem_append, mem_singleton]
    rintro (hmem | hmem)
    · exact (solid 0 hmem).2 rfl
    · cases hmem
  | cons solid rest ih =>
    rw [mem_append, mem_cons]
    rintro (hmem | hmem | hmem)
    · exact (solid 0 hmem).2 rfl
    · cases hmem
    · exact ih hmem

theorem fgets_line {l : Bytes} (h : IsLine room l) (rest : Bytes) :
    fgets room (l ++ rest) = (l, rest) := by
  obtain ⟨hle, body, rfl, hbody⟩ := h
  rw [append_assoc, singleton_append]
  rw [length_append, length_singleton] at hle
  induction body generalizing room with
  | nil =>
    obtain ⟨room, rfl⟩ := Nat.exists_eq_add_of_le' hle
    exact if_pos rfl
  | cons b body ih =>
    obtain ⟨room, rfl⟩ := Nat.exists_eq_add_of_le' ((Nat.succ_le_succ (Nat.zero_le _)).trans hle)
    rw [mem_cons, not_or] at hbody
    have hrest := ih hbody.2 (Nat.le_of_succ_le_succ hle)
    rw [cons_append, fgets, if_neg (Ne.symm hbody.1), hrest]
    rfl

theorem linesFrom_flatten (h : ∀ l ∈ ls, IsLine room l) {rounds : ℕ}
    (hrounds : ls.flatten.length ≤ rounds) : linesFrom room rounds ls.flatten = ls := by
  induction ls generalizing rounds with
  | nil => cases rounds <;> rfl
  | cons l ls ih =>
    have hl := h l mem_cons_self
    have hpos : 0 < l.length := by
      obtain ⟨-, body, rfl, -⟩ := hl
      rw [length_append, length_singleton]
      exact Nat.succ_pos _
    rw [flatten_cons, length_append] at hrounds
    obtain ⟨rounds, rfl⟩ := Nat.exists_eq_add_of_le' (show 1 ≤ rounds by omega)
    have hne : l ++ ls.flatten ≠ [] :=
      append_ne_nil_of_left_ne_nil (ne_nil_of_length_pos hpos) _
    rw [flatten_cons, linesFrom, if_neg hne, fgets_line hl]
    dsimp only
    rw [ih (fun m hm => h m (mem_cons_of_mem l hm)) (by omega)]

theorem lines_flatten (h : ∀ l ∈ ls, IsLine room l) : lines room ls.flatten = ls :=
  linesFrom_flatten h le_rfl

theorem isDigit_eq_false (h : isSpace b = true) : isDigit b = false := by
  unfold isSpace at h
  unfold isDigit
  rw [Bool.or_eq_true, beq_iff_eq, Bool.and_eq_true, decide_eq_true_eq, decide_eq_true_eq] at h
  rw [Bool.and_eq_false_iff, decide_eq_false_iff_not, decide_eq_false_iff_not]
  rcases h with rfl | h
  · exact .inl (by decide)
  · exact .inl (by omega)

theorem solid_of_isDigit (h : isDigit b = true) : isSpace b = false ∧ b ≠ 0 := by
  refine ⟨?_, ?_⟩
  · by_contra hspace
    rw [isDigit_eq_false (Bool.eq_true_of_not_eq_false hspace)] at h
    cases h
  · rintro rfl
    cases h

theorem solid_decimal (n : ℕ) : Solid (decimal n) :=
  fun b hb => solid_of_isDigit (isDigit_of_mem_decimal n b hb)

theorem solid_printLong (v : ℤ) : Solid (printLong v) := by
  intro b hb
  rcases mem_append.mp hb with hb | hb
  · split_ifs at hb
    · rw [mem_singleton.mp hb]
      decide
    · cases hb
  · exact solid_decimal _ b hb

theorem printLong_ne_nil (v : ℤ) : printLong v ≠ [] :=
  append_ne_nil_of_right_ne_nil _ (decimal_ne_nil _)

theorem length_printLong_le (h : v.natAbs < 10 ^ 19) : (printLong v).length ≤ 20 := by
  have hdigits := length_decimal_le (by decide) h
  rw [printLong, length_append]
  split_ifs
  · rw [length_singleton]
    omega
  · rw [length_nil]
    omega

section
variable {b : UInt8} (hb : isSpace b = true) (rest : Bytes)
include hb

theorem word_space (width : ℕ) : word width (b :: rest) = word width rest := by
  rw [word, word, dropWhile_cons_of_pos hb]

theorem number_space : number (b :: rest) = number rest := by
  rw [number, number, dropWhile_cons_of_pos hb]

theorem word_solid (hsolid : Solid w) (hne : w ≠ []) {width : ℕ} (hwidth : w.length ≤ width) :
    word width (w ++ b :: rest) = some (w, b :: rest) := by
  have hdrop : (w ++ b :: rest).dropWhile isSpace = w ++ b :: rest := by
    cases w with
    | nil => exact absurd rfl hne
    | cons c w =>
      refine dropWhile_cons_of_neg ?_
      rw [(hsolid c mem_cons_self).1]
      decide
  have htake : (w ++ b :: rest).takeWhile (fun c => !isSpace c) = w := by
    rw [takeWhile_append_of_pos fun c hc => by rw [(hsolid c hc).1]; rfl,
      takeWhile_cons_of_neg (by rw [hb]; decide), append_nil]
  rw [word, hdrop, htake, take_of_length_le hwidth, if_neg hne, drop_left]

theorem number_sign {neg : Bool} {n : ℕ} (hspace : s.dropWhile isSpace = s)
    (hsign : sign s = (neg, decimal n ++ b :: rest)) : number s = some (⟨neg, n⟩, b :: rest) := by
  have htake : (decimal n ++ b :: rest).takeWhile isDigit = decimal n := by
    rw [takeWhile_append_of_pos (isDigit_of_mem_decimal n),
      takeWhile_cons_of_neg (by rw [isDigit_eq_false hb]; decide), append_nil]
  rw [number, hspace, hsign]
  dsimp only
  rw [htake, if_neg (decimal_ne_nil n), decimalValue_decimal, drop_left]

theorem number_decimal (n : ℕ) : number (decimal n ++ b :: rest) = some (⟨false, n⟩, b :: rest) := by
  obtain ⟨d, ds, hd⟩ := exists_cons_of_ne_nil (decimal_ne_nil n)
  have hdigit : isDigit d = true := isDigit_of_mem_decimal n d (hd ▸ mem_cons_self)
  refine number_sign hb rest ?_ ?_
  · rw [hd, cons_append, dropWhile_cons_of_neg]
    rw [(solid_of_isDigit hdigit).1]
    decide
  · have hminus : d ≠ 45 := by rintro rfl; cases hdigit
    have hplus : d ≠ 43 := by rintro rfl; cases hdigit
    rw [hd, cons_append, sign, if_neg hminus, if_neg hplus]

theorem number_printLong (v : ℤ) :
    number (printLong v ++ b :: rest) = some (⟨decide (v < 0), v.natAbs⟩, b :: rest) := by
  unfold printLong
  by_cases hneg : v < 0
  · rw [if_pos hneg, decide_eq_true hneg, append_assoc]
    exact number_sign hb rest (dropWhile_cons_of_neg (by decide)) rfl
  · rw [if_neg hneg, decide_eq_false hneg, nil_append]
    exact number_decimal hb rest v.natAbs

end

theorem toULong_of_lt {n : ℕ} (h : n < 2 ^ 64) : Numeral.toULong ⟨false, n⟩ = n := by
  rw [Numeral.toULong, if_neg (not_le.mpr h), if_neg Bool.false_ne_true]

theorem Numeral.toLong_bounds (n : Numeral) : -2 ^ 63 ≤ n.toLong ∧ n.toLong < 2 ^ 63 := by
  unfold Numeral.toLong
  split_ifs <;> omega

theorem toLong_natAbs (hlow : -2 ^ 63 ≤ v) (hhigh : v < 2 ^ 63) :
    Numeral.toLong ⟨decide (v < 0), v.natAbs⟩ = v := by
  unfold Numeral.toLong
  dsimp only
  by_cases hneg : v < 0
  · rw [decide_eq_true hneg, if_pos rfl]
    omega
  · rw [decide_eq_false hneg, if_neg Bool.false_ne_true]
    omega

end Norn.Scan
