import Norn.Lib.Bytes

/-!
# Fields and layouts

Messages whose fields have a fixed size or are preceded by their length.
-/

namespace Norn
open List Option

def littleEndian (n v : ℕ) : Bytes := (bigEndian n v).reverse

def fromLittleEndian (bs : Bytes) : ℕ := fromBigEndian bs.reverse

@[simp] theorem length_littleEndian (n v : ℕ) : (littleEndian n v).length = n := by
  rw [littleEndian, length_reverse, length_bigEndian]

variable {n : ℕ} {field file x rest : Bytes}

theorem fromLittleEndian_littleEndian {v : ℕ} (hv : v < 256 ^ n) :
    fromLittleEndian (littleEndian n v) = v := by
  rw [fromLittleEndian, littleEndian, reverse_reverse, fromBigEndian_bigEndian,
    Nat.mod_eq_of_lt hv]

def fread (n : ℕ) (file : Bytes) : Option (Bytes × Bytes) :=
  if file.length < n then none else some (file.take n, file.drop n)

theorem fread_append (h : field.length = n) (rest : Bytes) :
    fread n (field ++ rest) = some (field, rest) := by
  rw [fread, if_neg (by rw [length_append]; omega), ← h, take_left, drop_left]

def freadUpTo (max n : ℕ) (file : Bytes) : Option (Bytes × Bytes) :=
  if n ≠ 0 ∧ n ≤ max then fread n file else some ([], file)

theorem freadUpTo_append {max : ℕ} (h : field.length = n) (hn : n ≤ max) (rest : Bytes) :
    freadUpTo max n (field ++ rest) = some (field, rest) := by
  unfold freadUpTo
  split_ifs with hpos
  · exact fread_append h rest
  · have hnil : field = [] := length_eq_zero_iff.mp (by omega)
    rw [hnil, nil_append]

def freadNat (n : ℕ) (file : Bytes) : Option (ℕ × Bytes) :=
  (fread n file).map fun out => (fromLittleEndian out.1, out.2)

theorem freadNat_append {v : ℕ} (hv : v < 256 ^ n) (rest : Bytes) :
    freadNat n (littleEndian n v ++ rest) = some (v, rest) := by
  rw [freadNat, fread_append (length_littleEndian n v), map_some,
    fromLittleEndian_littleEndian hv]

theorem littleEndian_fromLittleEndian (bs : Bytes) :
    littleEndian bs.length (fromLittleEndian bs) = bs := by
  rw [littleEndian, fromLittleEndian, ← length_reverse, bigEndian_fromBigEndian,
    reverse_reverse]

theorem fread_eq_some_iff : fread n file = some (x, rest) ↔ x.length = n ∧ file = x ++ rest := by
  constructor
  · intro h
    rw [fread] at h
    split_ifs at h with hlen
    cases h
    exact ⟨length_take_of_le (not_lt.mp hlen), (take_append_drop n file).symm⟩
  · rintro ⟨hlen, rfl⟩
    exact fread_append hlen rest

theorem freadNat_eq_some_iff {v : ℕ} :
    freadNat n file = some (v, rest) ↔ v < 256 ^ n ∧ file = littleEndian n v ++ rest := by
  constructor
  · intro h
    obtain ⟨⟨x, rest'⟩, hread, hv⟩ := map_eq_some_iff.mp h
    obtain ⟨rfl, rfl⟩ := fread_eq_some_iff.mp hread
    cases hv
    refine ⟨?_, ?_⟩
    · rw [← length_reverse]
      exact fromBigEndian_lt x.reverse
    · rw [littleEndian_fromLittleEndian]
  · rintro ⟨hv, rfl⟩
    exact freadNat_append hv rest

theorem freadNat_field (h : x.length = n) (rest : Bytes) :
    freadNat n (x ++ rest) = some (fromLittleEndian x, rest) := by
  rw [freadNat, fread_append h, map_some]

theorem exists_fields {a b : ℕ} (h : x.length = a + b) :
    ∃ y z, x = y ++ z ∧ y.length = a ∧ z.length = b := by
  refine ⟨x.take a, x.drop a, (take_append_drop a x).symm, ?_, ?_⟩
  · rw [length_take]
    omega
  · rw [length_drop]
    omega

theorem freadUpTo_eq_some_iff {max : ℕ} : freadUpTo max n file = some (x, rest) ↔
      x.length = (if n ≤ max then n else 0) ∧ file = x ++ rest := by
  rw [freadUpTo]
  by_cases hn : n ≠ 0 ∧ n ≤ max
  · rw [if_pos hn, if_pos hn.2]
    exact fread_eq_some_iff
  · have hzero : (if n ≤ max then n else 0) = 0 := by
      split_ifs with hle
      · exact not_not.mp fun hne => hn ⟨hne, hle⟩
      · rfl
    rw [if_neg hn, hzero, length_eq_zero_iff]
    constructor
    · intro h
      cases h
      exact ⟨rfl, rfl⟩
    · rintro ⟨rfl, rfl⟩
      rfl

def readAll {α : Type*} (read : Bytes → Option (α × Bytes)) : ℕ → Bytes → List α × Option Bytes
  | 0, file => ([], some file)
  | n + 1, file =>
    match read file with
    | none => ([], none)
    | some (x, file) => (x :: (readAll read n file).1, (readAll read n file).2)

section
variable {α β : Type*} {read : Bytes → Option (α × Bytes)} {Good : β → Prop} {bytes : β → Bytes}
  {args : β → α}

theorem readAll_eq_some_iff (hread : ∀ file x rest, read file = some (x, rest) ↔
      ∃ e, Good e ∧ file = bytes e ++ rest ∧ x = args e) (n : ℕ) (file rest : Bytes) (xs : List α) :
    readAll read n file = (xs, some rest) ↔
      ∃ es : List β, es.length = n ∧ (∀ e ∈ es, Good e) ∧ file = es.flatMap bytes ++ rest ∧
        xs = es.map args := by
  induction n generalizing file xs with
  | zero =>
    rw [readAll]
    constructor
    · intro h
      cases h
      exact ⟨[], rfl, forall_mem_nil _, rfl, rfl⟩
    · rintro ⟨es, hlen, -, rfl, rfl⟩
      rw [eq_nil_of_length_eq_zero hlen]
      rfl
  | succ n ih =>
    rw [readAll]
    constructor
    · intro h
      cases hfirst : read file with
      | none =>
        rw [hfirst] at h
        cases h
      | some out =>
        obtain ⟨x, file'⟩ := out
        rw [hfirst] at h
        obtain ⟨hxs, hrest⟩ := Prod.mk.inj h
        obtain ⟨e, he, rfl, rfl⟩ := (hread file x file').mp hfirst
        obtain ⟨es, hlen, hes, rfl, htail⟩ := (ih file' _).mp (Prod.ext rfl hrest)
        refine ⟨e :: es, congrArg Nat.succ hlen, forall_mem_cons.mpr ⟨he, hes⟩, ?_, ?_⟩
        · rw [flatMap_cons, append_assoc]
        · exact hxs.symm.trans (congrArg (args e :: ·) htail)
    · rintro ⟨es, hlen, hes, rfl, rfl⟩
      obtain ⟨e, es, rfl⟩ := exists_cons_of_length_eq_add_one hlen
      obtain ⟨he, hes⟩ := forall_mem_cons.mp hes
      have hfirst := (hread _ (args e) (es.flatMap bytes ++ rest)).mpr ⟨e, he, rfl, rfl⟩
      have hothers := (ih _ _).mpr ⟨es, Nat.succ.inj hlen, hes, rfl, rfl⟩
      rw [flatMap_cons, append_assoc, hfirst]
      dsimp only
      rw [hothers, map_cons]

theorem readAll_flatMap {es : List β} (hlen : es.length ≤ n)
    (hread : ∀ e ∈ es, ∀ rest, read (bytes e ++ rest) = some (args e, rest)) (rest : Bytes) :
    (readAll read n (es.flatMap bytes ++ rest)).1 =
      es.map args ++ (readAll read (n - es.length) rest).1 := by
  induction es generalizing n with
  | nil => rfl
  | cons e es ih =>
    obtain ⟨he, hread⟩ := forall_mem_cons.mp hread
    obtain ⟨n, rfl⟩ := Nat.exists_eq_add_of_lt (Nat.lt_of_lt_of_le (Nat.succ_pos es.length) hlen)
    rw [length_cons] at hlen
    rw [Nat.zero_add, readAll, flatMap_cons, append_assoc, he, length_cons,
      Nat.add_sub_add_right]
    exact congrArg (args e :: ·) (ih (by omega) hread)

theorem exists_readAll_fst (hread : ∀ file x rest, read file = some (x, rest) ↔
      ∃ e, Good e ∧ file = bytes e ++ rest ∧ x = args e) (n : ℕ) (file : Bytes) :
    ∃ (es : List β) (rest : Bytes), es.length ≤ n ∧ (∀ e ∈ es, Good e) ∧
      file = es.flatMap bytes ++ rest ∧ (readAll read n file).1 = es.map args ∧
      (es.length = n ∨ read rest = none) := by
  induction n generalizing file with
  | zero => exact ⟨[], file, le_rfl, forall_mem_nil _, rfl, rfl, .inl rfl⟩
  | succ n ih =>
    rw [readAll]
    cases hfirst : read file with
    | none => exact ⟨[], file, Nat.zero_le _, forall_mem_nil _, rfl, rfl, .inr hfirst⟩
    | some out =>
      obtain ⟨x, file'⟩ := out
      obtain ⟨e, he, rfl, rfl⟩ := (hread file x file').mp hfirst
      obtain ⟨es, rest, hlen, hes, rfl, hfst, hend⟩ := ih file'
      refine ⟨e :: es, rest, Nat.succ_le_succ hlen, forall_mem_cons.mpr ⟨he, hes⟩, ?_,
        congrArg (args e :: ·) hfst, hend.imp_left (congrArg Nat.succ)⟩
      rw [flatMap_cons, append_assoc]

end

inductive FieldSpec
  | fixed (n : ℕ)
  | counted (n : ℕ)

namespace FieldSpec

def Fits : FieldSpec → Bytes → Prop
  | fixed n, x => x.length = n
  | counted n, x => x.length < 256 ^ n

instance : ∀ (f : FieldSpec) (x : Bytes), Decidable (f.Fits x)
  | fixed _, _ => inferInstanceAs (Decidable (_ = _))
  | counted _, _ => inferInstanceAs (Decidable (_ < _))

def bytes : FieldSpec → Bytes → Bytes
  | fixed _, x => x
  | counted n, x => bigEndian n x.length ++ x

def read : FieldSpec → Bytes → Option (Bytes × Bytes)
  | fixed n, p => fread n p
  | counted n, p => (fread n p).bind fun out => fread (fromBigEndian out.1) out.2

theorem read_eq_some_iff {f : FieldSpec} {p x rest : Bytes} :
    f.read p = some (x, rest) ↔ f.Fits x ∧ p = f.bytes x ++ rest := by
  cases f with
  | fixed n => exact fread_eq_some_iff
  | counted n =>
    constructor
    · intro h
      obtain ⟨⟨len, q⟩, hlen, hx⟩ := bind_eq_some_iff.mp h
      obtain ⟨rfl, rfl⟩ := fread_eq_some_iff.mp hlen
      obtain ⟨hx, rfl⟩ := fread_eq_some_iff.mp hx
      dsimp only at hx
      refine ⟨?_, ?_⟩
      · rw [Fits, hx]
        exact fromBigEndian_lt len
      · rw [bytes, hx, bigEndian_fromBigEndian, append_assoc]
    · rintro ⟨hx, rfl⟩
      rw [read, bytes, append_assoc, fread_append (length_bigEndian n _), bind_some]
      refine fread_append ?_ rest
      rw [fromBigEndian_bigEndian, Nat.mod_eq_of_lt hx]

end FieldSpec

def readLayout : List FieldSpec → Bytes → Option (List Bytes × Bytes)
  | [], p => some ([], p)
  | f :: layout, p =>
    (f.read p).bind fun out => (readLayout layout out.2).map fun rest => (out.1 :: rest.1, rest.2)

def layoutBytes (layout : List FieldSpec) (xs : List Bytes) : Bytes :=
  (zipWith FieldSpec.bytes layout xs).flatten

variable {layout : List FieldSpec} {xs : List Bytes} {p rest : Bytes}

theorem layoutBytes_cons (f : FieldSpec) (layout : List FieldSpec) (x : Bytes) (xs : List Bytes) :
    layoutBytes (f :: layout) (x :: xs) = f.bytes x ++ layoutBytes layout xs := by
  rw [layoutBytes, zipWith_cons_cons, flatten_cons]
  rfl

theorem readLayout_cons_iff {f : FieldSpec} {ys : List Bytes} :
    readLayout (f :: layout) p = some (ys, rest) ↔ ∃ x xs q, ys = x :: xs ∧ f.read p = some (x, q) ∧
      readLayout layout q = some (xs, rest) := by
  rw [readLayout, bind_eq_some_iff]
  constructor
  · rintro ⟨⟨x, q⟩, hx, hrest⟩
    obtain ⟨⟨xs, q'⟩, hxs, heq⟩ := map_eq_some_iff.mp hrest
    cases heq
    exact ⟨x, xs, q, rfl, hx, hxs⟩
  · rintro ⟨x, xs, q, rfl, hx, hxs⟩
    exact ⟨(x, q), hx, by rw [hxs, map_some]⟩

theorem readLayout_cons_cons_iff {f : FieldSpec} {x : Bytes} :
    readLayout (f :: layout) p = some (x :: xs, rest) ↔
      ∃ q, f.read p = some (x, q) ∧ readLayout layout q = some (xs, rest) := by
  rw [readLayout_cons_iff]
  constructor
  · rintro ⟨y, ys, q, heq, hx, hxs⟩
    cases heq
    exact ⟨q, hx, hxs⟩
  · rintro ⟨q, hx, hxs⟩
    exact ⟨x, xs, q, rfl, hx, hxs⟩

theorem readLayout_eq_some_iff : readLayout layout p = some (xs, rest) ↔
    Forall₂ FieldSpec.Fits layout xs ∧ p = layoutBytes layout xs ++ rest := by
  induction layout generalizing p xs with
  | nil =>
    rw [readLayout, some_inj, Prod.mk.injEq, forall₂_nil_left_iff]
    constructor
    · rintro ⟨rfl, rfl⟩
      exact ⟨rfl, rfl⟩
    · rintro ⟨rfl, rfl⟩
      exact ⟨rfl, rfl⟩
  | cons f layout ih =>
    rw [readLayout_cons_iff, forall₂_cons_left_iff]
    constructor
    · rintro ⟨x, ys, q, rfl, hx, hys⟩
      obtain ⟨hfits, rfl⟩ := FieldSpec.read_eq_some_iff.mp hx
      obtain ⟨hall, rfl⟩ := ih.mp hys
      exact ⟨⟨x, ys, hfits, hall, rfl⟩, by rw [layoutBytes_cons, append_assoc]⟩
    · rintro ⟨⟨x, ys, hfits, hall, rfl⟩, rfl⟩
      rw [layoutBytes_cons, append_assoc]
      exact ⟨x, ys, _, rfl, FieldSpec.read_eq_some_iff.mpr ⟨hfits, rfl⟩, ih.mpr ⟨hall, rfl⟩⟩

theorem layoutBytes_inj {ys : List Bytes} (hxs : Forall₂ FieldSpec.Fits layout xs)
    (hys : Forall₂ FieldSpec.Fits layout ys) (h : layoutBytes layout xs = layoutBytes layout ys) :
    xs = ys := by
  have hread : readLayout layout (layoutBytes layout xs ++ []) = some (xs, []) :=
    readLayout_eq_some_iff.mpr ⟨hxs, rfl⟩
  rw [h, readLayout_eq_some_iff.mpr ⟨hys, rfl⟩] at hread
  cases hread
  rfl

theorem infix_layoutBytes {f : FieldSpec} {x y : Bytes} (i : ℕ) (hf : layout[i]? = some f)
    (hx : xs[i]? = some x) (hy : y <:+: f.bytes x) : y <:+: layoutBytes layout xs := by
  refine hy.trans (infix_of_mem_flatten (mem_of_getElem? (i := i) ?_))
  rw [getElem?_zipWith, hf, hx]

structure SignedFormat (α : Type*) where
  layout : List FieldSpec
  sigLen : ℕ
  fields : α → List Bytes
  ofFields : List Bytes → Option α
  pubkey : α → Bytes
  ofFields_eq_some_iff {xs : List Bytes} {m : α} :
    Forall₂ FieldSpec.Fits layout xs → (ofFields xs = some m ↔ xs = fields m)

namespace SignedFormat
variable {α : Type*} (F : SignedFormat α) (verify : Bytes → Bytes → Bytes → Bool)
  (accept : α → Bool)

def Fits (m : α) : Prop := Forall₂ FieldSpec.Fits F.layout (F.fields m)

def bytes (m : α) : Bytes := layoutBytes F.layout (F.fields m)

def signedBytes (p : Bytes) : Option Bytes :=
  (readLayout F.layout p).map fun out => p.take (p.length - out.2.length)

def parse (p : Bytes) : Option α :=
  (readLayout F.layout p).bind fun out =>
    (fread F.sigLen out.2).bind fun sig =>
      (F.ofFields out.1).bind fun m =>
        if accept m ∧ verify (F.pubkey m) (p.take (p.length - out.2.length)) sig.1 then some m
        else none

variable {F verify accept} {m m' : α}

theorem bytes_inj (hm : F.Fits m) (hm' : F.Fits m') (h : F.bytes m = F.bytes m') : m = m' := by
  have hread := (F.ofFields_eq_some_iff hm).mpr rfl
  rw [layoutBytes_inj hm hm' h, (F.ofFields_eq_some_iff hm').mpr rfl] at hread
  exact (some.inj hread).symm

theorem take_signed (x rest : Bytes) : (x ++ rest).take ((x ++ rest).length - rest.length) = x := by
  rw [length_append, Nat.add_sub_cancel, take_left]

theorem readLayout_bytes (hm : F.Fits m) (rest : Bytes) :
    readLayout F.layout (F.bytes m ++ rest) = some (F.fields m, rest) :=
  readLayout_eq_some_iff.mpr ⟨hm, rfl⟩

theorem signedBytes_append (hm : F.Fits m) (rest : Bytes) :
    F.signedBytes (F.bytes m ++ rest) = some (F.bytes m) := by
  rw [signedBytes, readLayout_bytes hm, map_some, take_signed]

theorem parse_eq_some_iff : F.parse verify accept p = some m ↔
    F.Fits m ∧ accept m ∧ ∃ sig rest : Bytes, sig.length = F.sigLen ∧
      verify (F.pubkey m) (F.bytes m) sig ∧ p = F.bytes m ++ (sig ++ rest) := by
  rw [parse]
  constructor
  · intro h
    obtain ⟨⟨xs, q⟩, hread, h⟩ := bind_eq_some_iff.mp h
    obtain ⟨⟨sig, rest⟩, hsig, h⟩ := bind_eq_some_iff.mp h
    obtain ⟨m', hm', h⟩ := bind_eq_some_iff.mp h
    obtain ⟨hfits, rfl⟩ := readLayout_eq_some_iff.mp hread
    obtain ⟨hlen, rfl⟩ := fread_eq_some_iff.mp hsig
    obtain rfl := (F.ofFields_eq_some_iff hfits).mp hm'
    rw [take_signed] at h
    split_ifs at h with hgood
    cases h
    exact ⟨hfits, hgood.1, sig, rest, hlen, hgood.2, rfl⟩
  · rintro ⟨hfits, haccept, sig, rest, hlen, hverify, rfl⟩
    rw [readLayout_bytes hfits, bind_some, fread_append hlen, bind_some,
      (F.ofFields_eq_some_iff hfits).mpr rfl, bind_some, take_signed]
    exact if_pos ⟨haccept, hverify⟩

end SignedFormat

end Norn
