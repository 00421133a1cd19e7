import Norn.Lib.Scan
import Norn.Dht.Publish

/-!
# The file of the records

`recstore.c` writes the public records to a text file, one on each line.
-/

namespace Norn
open Scan
open List Option

def hexDigit (n : ℕ) : UInt8 := UInt8.ofNat (if n < 10 then 48 + n else 87 + n)

def hexenc (bs : Bytes) : Bytes :=
  bs.flatMap fun b => [hexDigit (b.toNat / 16), hexDigit (b.toNat % 16)]

def hexValue (c : UInt8) : Option ℕ :=
  let v : ℤ := if c.toNat ≤ 57 then c.toNat - 48 else (c ||| 32).toNat - 97 + 10
  if v < 0 ∨ 15 < v then none else some v.toNat

def hexdec : ℕ → Bytes → Option Bytes
  | 0, _ => some []
  | n + 1, c :: e :: s => do
    let hi ← hexValue c
    let lo ← hexValue e
    let bs ← hexdec n s
    some (UInt8.ofNat (hi * 16 + lo) :: bs)
  | _ + 1, _ => none

variable {n : ℕ} {bs : Bytes} {r : RecItem}

theorem hexValue_hexDigit (h : n < 16) : hexValue (hexDigit n) = some n := by
  interval_cases n <;> rfl

theorem solid_hexDigit (h : n < 16) : isSpace (hexDigit n) = false ∧ hexDigit n ≠ 0 := by
  interval_cases n <;> decide

theorem solid_hexenc (bs : Bytes) : Solid (hexenc bs) := by
  intro d hd
  obtain ⟨b, -, hd⟩ := mem_flatMap.mp hd
  have hb := b.toNat_lt
  rw [mem_cons, mem_singleton] at hd
  rcases hd with rfl | rfl
  · exact solid_hexDigit (by omega)
  · exact solid_hexDigit (by omega)

theorem length_hexenc (bs : Bytes) : (hexenc bs).length = 2 * bs.length := by
  induction bs with
  | nil => rfl
  | cons b bs ih =>
    rw [hexenc, flatMap_cons, length_append]
    change 2 + (hexenc bs).length = _
    rw [ih, length_cons]
    omega

theorem hexenc_ne_nil (h : bs ≠ []) : hexenc bs ≠ [] := by
  have hpos := length_pos_of_ne_nil h
  refine ne_nil_of_length_pos ?_
  rw [length_hexenc]
  omega

theorem hexdec_hexenc (bs : Bytes) : hexdec bs.length (hexenc bs) = some bs := by
  induction bs with
  | nil => rfl
  | cons b bs ih =>
    have hb := b.toNat_lt
    rw [hexenc, flatMap_cons, length_cons, cons_append, cons_append,
      nil_append, ← hexenc]
    rw [hexdec, hexValue_hexDigit (by omega), hexValue_hexDigit (by omega), ih]
    have hbyte : b.toNat / 16 * 16 + b.toNat % 16 = b.toNat := by omega
    simp only [bind_eq_bind, bind_some, hbyte, UInt8.ofNat_toNat]

theorem length_of_hexdec {s : Bytes} (h : hexdec n s = some bs) : bs.length = n := by
  induction n generalizing s bs with
  | zero =>
    cases h
    rfl
  | succ n ih =>
    match s, h with
    | c :: e :: s, h =>
      simp only [hexdec, bind_eq_bind, bind_eq_some_iff] at h
      obtain ⟨hi, -, lo, -, rest, hrest, hbs⟩ := h
      cases hbs
      rw [length_cons, ih hrest]

structure RecFields where
  tg : Bytes
  kk : Bytes
  seq : ℕ
  vlen : ℕ
  vv : Bytes
  sg : Bytes
  ls : ℤ
  deriving DecidableEq

def RecFields.print (f : RecFields) : Bytes :=
  f.tg ++ 32 :: (f.kk ++ 32 :: (decimal f.seq ++ 32 :: (decimal f.vlen ++ 32 :: (f.vv ++ 32 ::
    (f.sg ++ 32 :: (printLong f.ls ++ [newline]))))))

def scanFields (line : Bytes) : Option RecFields := do
  let (tg, s) ← word 63 line
  let (kk, s) ← word 79 s
  let (seq, s) ← number s
  let (vlen, s) ← number s
  let (vv, s) ← word 519 s
  let (sg, s) ← word 159 s
  let (ls, _) ← number s
  some ⟨tg, kk, seq.toULong % 2 ^ 32, vlen.toULong, vv, sg, ls.toLong⟩

def RecItem.fields (r : RecItem) : RecFields :=
  ⟨hexenc r.target, hexenc r.k, r.seq, r.v.length, hexenc r.v, hexenc r.sig, r.lastSeen⟩

def scanRecord (line : Bytes) : Option RecItem := do
  let f ← scanFields (cString line)
  if recstoreVmax < f.vlen then none
  else
    let target ← hexdec 20 f.tg
    let k ← hexdec 32 f.kk
    let v ← hexdec f.vlen f.vv
    let sig ← hexdec 64 f.sg
    some ⟨target, k, f.seq, v, sig, f.ls, false⟩

structure RecFields.Fit (f : RecFields) : Prop where
  tg : Solid f.tg ∧ f.tg ≠ [] ∧ f.tg.length ≤ 63
  kk : Solid f.kk ∧ f.kk ≠ [] ∧ f.kk.length ≤ 79
  seq : f.seq < 2 ^ 32
  vlen : f.vlen < 2 ^ 64
  vv : Solid f.vv ∧ f.vv.length ≤ 519
  sg : Solid f.sg ∧ f.sg ≠ [] ∧ f.sg.length ≤ 159
  ls : -2 ^ 63 ≤ f.ls ∧ f.ls < 2 ^ 63

namespace RecFields
variable {f : RecFields} (h : f.Fit)

theorem isSpace_blank : isSpace 32 = true := rfl

theorem isSpace_newline : isSpace newline = true := rfl

include h

theorem Fit.row : Row f.print :=
  .cons h.tg.1 (.cons h.kk.1 (.cons (solid_decimal _) (.cons (solid_decimal _) (.cons h.vv.1
    (.cons h.sg.1 (.last (solid_printLong _)))))))

theorem Fit.cString_print : cString f.print = f.print := by
  refine takeWhile_eq_self_iff.mpr ?_
  intro b hb
  rw [decide_eq_true_eq]
  rintro rfl
  exact h.row.zero_notMem hb

theorem Fit.natAbs_lt : f.ls.natAbs < 10 ^ 19 := by
  have hls := h.ls
  omega

theorem Fit.scanFields_print_eq : scanFields f.print =
    (word 519 (f.vv ++ 32 :: (f.sg ++ 32 :: (printLong f.ls ++ [newline])))).bind fun vv =>
      (word 159 vv.2).bind fun sg => (number sg.2).bind fun ls =>
        some ⟨f.tg, f.kk, f.seq, f.vlen, vv.1, sg.1, ls.1.toLong⟩ := by
  unfold scanFields print
  rw [word_solid isSpace_blank _ h.tg.1 h.tg.2.1 h.tg.2.2]
  simp only [bind_eq_bind, bind_some]
  rw [word_space isSpace_blank, word_solid isSpace_blank _ h.kk.1 h.kk.2.1 h.kk.2.2,
    bind_some, number_space isSpace_blank, number_decimal isSpace_blank, bind_some,
    number_space isSpace_blank, number_decimal isSpace_blank, bind_some,
    word_space isSpace_blank, toULong_of_lt (h.seq.trans (by decide)), Nat.mod_eq_of_lt h.seq,
    toULong_of_lt h.vlen]

theorem Fit.scanFields_print (hvv : f.vv ≠ []) : scanFields f.print = some f := by
  rw [h.scanFields_print_eq, word_solid isSpace_blank _ h.vv.1 hvv h.vv.2, bind_some,
    word_space isSpace_blank, word_solid isSpace_blank _ h.sg.1 h.sg.2.1 h.sg.2.2,
    bind_some, number_space isSpace_blank, number_printLong isSpace_newline,
    bind_some, toLong_natAbs h.ls.1 h.ls.2]

theorem Fit.scanFields_print_nil (hvv : f.vv = []) : scanFields f.print = none := by
  have hls : (printLong f.ls).length ≤ 159 := (length_printLong_le h.natAbs_lt).trans (by decide)
  rw [h.scanFields_print_eq, hvv, nil_append, word_space isSpace_blank,
    word_solid isSpace_blank _ h.sg.1 h.sg.2.1 (h.sg.2.2.trans (by decide)), bind_some,
    word_space isSpace_blank,
    word_solid isSpace_newline _ (solid_printLong _) (printLong_ne_nil _) hls]
  rfl

end RecFields

structure RecItem.Sized (r : RecItem) : Prop where
  target : r.target.length = 20
  k : r.k.length = 32
  seq : r.seq < 2 ^ 32
  v : r.v.length ≤ recstoreVmax
  sig : r.sig.length = 64
  lastSeen : -2 ^ 63 ≤ r.lastSeen ∧ r.lastSeen < 2 ^ 63

namespace RecItem

def line (r : RecItem) : Bytes := r.fields.print

variable {r : RecItem}

theorem Sized.fit (h : r.Sized) : r.fields.Fit where
  tg := ⟨solid_hexenc _, hexenc_ne_nil (ne_nil_of_length_eq_add_one h.target),
    by rw [fields, length_hexenc, h.target]; decide⟩
  kk := ⟨solid_hexenc _, hexenc_ne_nil (ne_nil_of_length_eq_add_one h.k),
    by rw [fields, length_hexenc, h.k]; decide⟩
  seq := h.seq
  vlen := h.v.trans_lt (by decide)
  vv := ⟨solid_hexenc _, by
    have hv : r.v.length ≤ 256 := h.v
    rw [fields, length_hexenc]
    omega⟩
  sg := ⟨solid_hexenc _, hexenc_ne_nil (ne_nil_of_length_eq_add_one h.sig),
    by rw [fields, length_hexenc, h.sig]; decide⟩
  ls := h.lastSeen

theorem Sized.length_line_le (h : r.Sized) : r.line.length ≤ 784 := by
  have hseq : (decimal r.seq).length ≤ 10 :=
    length_decimal_le (by decide) (h.seq.trans (by decide))
  have hv : r.v.length ≤ 256 := h.v
  have hvlen : (decimal r.v.length).length ≤ 3 := length_decimal_le (by decide) (by omega)
  have hls := length_printLong_le h.fit.natAbs_lt
  simp only [line, fields, RecFields.print, length_append, length_cons, length_hexenc,
    length_nil, h.target, h.k, h.sig] at hls ⊢
  omega

theorem Sized.isLine (h : r.Sized) : IsLine 1023 r.line :=
  ⟨h.length_line_le.trans (by decide), h.fit.row.ends⟩

theorem Sized.scanRecord_line (h : r.Sized) (hv : r.v ≠ []) :
    scanRecord r.line = some { r with priv := false } := by
  have hvlen : ¬ recstoreVmax < r.fields.vlen := not_lt.mpr h.v
  unfold scanRecord
  rw [line, h.fit.cString_print, h.fit.scanFields_print (hexenc_ne_nil hv)]
  simp only [bind_eq_bind, bind_some]
  rw [if_neg hvlen]
  unfold fields
  dsimp only
  rw [← h.target, ← h.k, ← h.sig, hexdec_hexenc, hexdec_hexenc, hexdec_hexenc, hexdec_hexenc]
  rfl

theorem Sized.scanRecord_line_nil (h : r.Sized) (hv : r.v = []) : scanRecord r.line = none := by
  have hvv : r.fields.vv = [] := by rw [fields, hv]; rfl
  unfold scanRecord
  rw [line, h.fit.cString_print, h.fit.scanFields_print_nil hvv]
  rfl

end RecItem

theorem scanFields_eq_some {s : Bytes} {f : RecFields} (h : scanFields s = some f) :
    (∃ t, word 63 s = some (f.tg, t) ∧ ∃ t', word 79 t = some (f.kk, t')) ∧ f.seq < 2 ^ 32 ∧
      -2 ^ 63 ≤ f.ls ∧ f.ls < 2 ^ 63 := by
  simp only [scanFields, bind_eq_bind, bind_eq_some_iff] at h
  obtain ⟨⟨tg, t⟩, htg, ⟨kk, t'⟩, hkk, seq, -, vlen, -, vv, -, sg, -, ls, -, hf⟩ := h
  cases hf
  exact ⟨⟨t, htg, t', hkk⟩, Nat.mod_lt _ (by decide), ls.1.toLong_bounds⟩

/-- The line is read as the record. -/
structure Spells (line : Bytes) (r : RecItem) (f : RecFields) : Prop where
  scan : scanFields (cString line) = some f
  vlen : f.vlen ≤ recstoreVmax
  target : hexdec 20 f.tg = some r.target
  k : hexdec 32 f.kk = some r.k
  seq : r.seq = f.seq
  v : hexdec f.vlen f.vv = some r.v
  sig : hexdec 64 f.sg = some r.sig
  lastSeen : r.lastSeen = f.ls
  priv : r.priv = false

theorem exists_spells {line : Bytes} (h : scanRecord line = some r) : ∃ f, Spells line r f := by
  simp only [scanRecord, bind_eq_bind, bind_eq_some_iff] at h
  obtain ⟨f, hscan, h⟩ := h
  split_ifs at h with hvlen
  simp only [bind_eq_some_iff] at h
  obtain ⟨target, htarget, k, hk, v, hv, sig, hsig, hr⟩ := h
  cases hr
  exact ⟨f, hscan, not_lt.mp hvlen, htarget, hk, rfl, hv, hsig, rfl, rfl⟩

theorem sized_of_scanRecord {line : Bytes} (h : scanRecord line = some r) : r.Sized := by
  obtain ⟨f, hf⟩ := exists_spells h
  obtain ⟨-, hseq, hls⟩ := scanFields_eq_some hf.scan
  exact ⟨length_of_hexdec hf.target, length_of_hexdec hf.k, hf.seq ▸ hseq,
    (length_of_hexdec hf.v).trans_le hf.vlen, length_of_hexdec hf.sig, hf.lastSeen ▸ hls⟩

def lineKey (line : Bytes) : Option Bytes := do
  let (_, s) ← word 63 (cString line)
  let (kk, _) ← word 79 s
  hexdec 32 kk

theorem lineKey_of_scanRecord {line : Bytes} (h : scanRecord line = some r) :
    lineKey line = some r.k := by
  obtain ⟨f, hf⟩ := exists_spells h
  obtain ⟨⟨t, htg, t', hkk⟩, -⟩ := scanFields_eq_some hf.scan
  simp only [lineKey, htg, hkk, bind_eq_bind, bind_some, hf.k]

theorem RecItem.Sized.lineKey_line (h : r.Sized) : lineKey r.line = some r.k := by
  unfold lineKey
  rw [line, h.fit.cString_print, RecFields.print,
    word_solid RecFields.isSpace_blank _ h.fit.tg.1 h.fit.tg.2.1 h.fit.tg.2.2]
  simp only [bind_eq_bind, bind_some]
  rw [word_space RecFields.isSpace_blank,
    word_solid RecFields.isSpace_blank _ h.fit.kk.1 h.fit.kk.2.1 h.fit.kk.2.2, bind_some,
    ← h.k]
  exact hexdec_hexenc r.k

def fileLines (content : Bytes) : List Bytes := lines (recstoreVmax * 2 + 512 - 1) content

def recstoreLoad : List RecItem → List Bytes → List RecItem
  | recs, [] => recs
  | recs, line :: ls =>
    if recstoreMax ≤ recs.length then recs
    else
      match scanRecord line with
      | none => recstoreLoad recs ls
      | some r => recstoreLoad (recs ++ [r]) ls

def recstoreInit (path : Bool) (file : Option Bytes) : ℤ × List RecItem :=
  if path = false then (-1, [])
  else
    match file with
    | none => (0, [])
    | some content =>
      let recs := recstoreLoad [] (fileLines content)
      (recs.length, recs)

def recstoreSave (recs : List RecItem) : Bytes :=
  recs.flatMap fun r => if r.priv then [] else r.line

def spelled (content : Bytes) : List RecItem := (fileLines content).filterMap scanRecord

def published (recs : List RecItem) : List RecItem := recs.filter fun r => !r.priv

theorem recstoreLoad_eq {recs : List RecItem} (h : recs.length ≤ recstoreMax) (ls : List Bytes) :
    recstoreLoad recs ls = (recs ++ ls.filterMap scanRecord).take recstoreMax := by
  induction ls generalizing recs with
  | nil => rw [recstoreLoad, filterMap_nil, append_nil, take_of_length_le h]
  | cons line ls ih =>
    rw [recstoreLoad]
    by_cases hfull : recstoreMax ≤ recs.length
    · rw [if_pos hfull, take_left' (le_antisymm h hfull)]
    · rw [if_neg hfull]
      cases hscan : scanRecord line with
      | none => rw [filterMap_cons_none hscan, ih h]
      | some r =>
        have hle : (recs ++ [r]).length ≤ recstoreMax := by
          rw [length_append, length_singleton]
          omega
        rw [filterMap_cons_some hscan, ← singleton_append, ← append_assoc]
        exact ih hle

theorem recstoreLoad_fileLines (content : Bytes) :
    recstoreLoad [] (fileLines content) = (spelled content).take recstoreMax :=
  recstoreLoad_eq (Nat.zero_le _) _

theorem recstoreInit_eq (content : Bytes) : recstoreInit true (some content) =
    (↑((spelled content).take recstoreMax).length, (spelled content).take recstoreMax) := by
  rw [← recstoreLoad_fileLines]
  rfl

theorem recstoreSave_eq (recs : List RecItem) :
    recstoreSave recs = ((published recs).map RecItem.line).flatten := by
  unfold recstoreSave published
  induction recs with
  | nil => rfl
  | cons r recs ih =>
    rw [flatMap_cons, ih]
    cases hpriv : r.priv with
    | false =>
      rw [if_neg Bool.false_ne_true, filter_cons_of_pos (by rw [hpriv]; rfl), map_cons,
        flatten_cons]
    | true =>
      rw [if_pos rfl, filter_cons_of_neg (by rw [hpriv]; decide), nil_append]

section
variable {recs : List RecItem} (hsized : ∀ r ∈ recs, r.Sized)
include hsized

theorem fileLines_save : fileLines (recstoreSave recs) = (published recs).map RecItem.line := by
  rw [recstoreSave_eq]
  refine lines_flatten ?_
  intro l hl
  obtain ⟨r, hr, rfl⟩ := List.mem_map.mp hl
  exact (hsized r (mem_of_mem_filter hr)).isLine

theorem spelled_save :
    spelled (recstoreSave recs) = (published recs).filter fun r => decide (r.v ≠ []) := by
  rw [spelled, fileLines_save hsized, filterMap_map, ← filterMap_eq_filter]
  refine filterMap_congr ?_
  intro r hr
  have hr' := hsized r (mem_of_mem_filter hr)
  have hpublic : r.priv = false := by simpa using of_mem_filter hr
  by_cases hv : r.v = []
  · rw [Function.comp_apply, hr'.scanRecord_line_nil hv, Option.guard, if_neg (by simpa using hv)]
  · rw [Function.comp_apply, hr'.scanRecord_line hv, Option.guard, if_pos (by simpa using hv),
      ← hpublic]

end

namespace Recstore

def fromFile (C : DhtCrypto) (content : Bytes) : System (List RecItem) RecCall where
  init recs := recs = (recstoreInit true (some content)).2
  next recs c recs' := recs' = call C recs c

/-- The lines that are read spell records as `recstore_accept` would have left them. -/
structure SignedFile (C : DhtCrypto) (content : Bytes) : Prop where
  nodup : (((spelled content).take recstoreMax).map RecItem.target).Nodup
  signed : ∀ r ∈ (spelled content).take recstoreMax, r.Signed C

/-- The calls keep the records sound, but the start does not make them so. -/
theorem sound_from_file_iff (C : DhtCrypto) (content : Bytes) :
    (∀ run : Run (fromFile C content), ∀ j ≤ run.len, Sound C (run.state j)) ↔
      SignedFile C content := by
  constructor
  · intro h
    have hstart := h ⟨0, fun _ => (recstoreInit true (some content)).2, fun _ => .setVia 0 [], rfl,
      fun k hk => absurd hk (Nat.not_lt_zero k)⟩ 0 le_rfl
    dsimp only at hstart
    rw [recstoreInit_eq] at hstart
    exact ⟨hstart.nodup, hstart.signed⟩
  · intro h run
    refine run.invariant ?_ ?_
    · intro recs hrecs
      rw [hrecs, recstoreInit_eq]
      exact ⟨h.nodup, h.signed⟩
    · intro k hk hsound
      rw [run.steps k hk]
      exact (turnover_call _ _).sound hsound

def forgedRecord : RecItem :=
  ⟨bep44Target toyCrypto (.replicate 32 3), .replicate 32 3, 1, [7], .replicate 64 0, 5, false⟩

theorem forgedRecord_sized : forgedRecord.Sized :=
  ⟨by decide, by decide, by decide, by decide, by decide, by decide⟩

theorem forgedRecord_held :
    (recstoreInit true (some (recstoreSave [forgedRecord]))).2 = [forgedRecord] ∧
      ¬ forgedRecord.Signed toyCrypto ∧
      ¬ ∀ run : Run (fromFile toyCrypto (recstoreSave [forgedRecord])), ∀ j ≤ run.len,
        Sound toyCrypto (run.state j) := by
  have hload : (recstoreInit true (some (recstoreSave [forgedRecord]))).2 = [forgedRecord] := by
    rw [recstoreInit_eq, spelled_save (forall_mem_singleton.mpr forgedRecord_sized)]
    rfl
  have hforged : ¬ forgedRecord.Signed toyCrypto := by
    rintro ⟨hverify, -⟩
    revert hverify
    decide
  refine ⟨hload, hforged, ?_⟩
  intro h
  have hstart := h ⟨0, fun _ => [forgedRecord], fun _ => .setVia 0 [], hload.symm,
    fun k hk => absurd hk (Nat.not_lt_zero k)⟩ 0 le_rfl
  exact hforged (hstart.signed forgedRecord mem_cons_self)

end Recstore
end Norn
