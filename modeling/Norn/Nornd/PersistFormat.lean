import Norn.Nornd.PersistFile

/-!
# The file format and its loader

The loader of `dht_persist.c` does not quite follow the format that the saver writes.
-/

namespace Norn
open List
open Option (any_eq_true some)
open Option hiding or_self

structure FileEntry where
  target : Bytes
  imm : ℕ
  vl : ℕ
  seq : ℕ
  published : Bytes
  name : Bytes
  value : Bytes

abbrev EntryArgs := Bytes × Bool × Bytes × Option Bytes × ℕ × ℕ

namespace FileEntry

def bytes (e : FileEntry) : Bytes :=
  e.target ++ (littleEndian 1 e.imm ++ (littleEndian 4 e.vl ++ (littleEndian 4 e.seq ++
    (e.published ++ (littleEndian 1 e.name.length ++ (e.name ++ e.value))))))

def args (e : FileEntry) : EntryArgs :=
  (e.target, e.imm ≠ 0, e.name, if e.vl = 0 then none else some e.value, e.vl, e.seq)

structure Sized (e : FileEntry) : Prop where
  length_target : e.target.length = 20
  imm_lt : e.imm < 256 ^ 1
  vl_lt : e.vl < 256 ^ 4
  seq_lt : e.seq < 256 ^ 4
  length_published : e.published.length = 8
  length_name : e.name.length < 256 ^ 1

end FileEntry

structure FileRecord where
  item : DhtItem
  imm : ℕ
  vl : ℕ

namespace FileRecord

def bytes (r : FileRecord) : Bytes :=
  r.item.target ++ (littleEndian 1 r.imm ++ (littleEndian 4 r.vl ++ (littleEndian 4 r.item.seq ++
    (r.item.k ++ (r.item.sig ++ r.item.v)))))

def args (r : FileRecord) : DhtItem × ℕ :=
  ({ r.item with immutable := r.imm ≠ 0, srcIp := 0, stored := 0 }, r.vl)

structure Sized (r : FileRecord) : Prop where
  length_target : r.item.target.length = 20
  imm_lt : r.imm < 256 ^ 1
  vl_lt : r.vl < 256 ^ 4
  seq_lt : r.item.seq < 256 ^ 4
  length_k : r.item.k.length = 32
  length_sig : r.item.sig.length = 64

end FileRecord

def fileContents (es : List FileEntry) (rs : List FileRecord) : Bytes :=
  littleEndian 4 dhtPersistMagic ++ (littleEndian 4 dhtPersistVersion ++
    (littleEndian 4 es.length ++ (es.flatMap FileEntry.bytes ++
      (littleEndian 4 rs.length ++ rs.flatMap FileRecord.bytes))))

/-- The file is these records, with names and values as long as declared. -/
structure InFormat (file : Bytes) (es : List FileEntry) (rs : List FileRecord) : Prop where
  contents : file = fileContents es rs
  length_es : es.length < 256 ^ 4
  length_rs : rs.length < 256 ^ 4
  entries : ∀ e ∈ es, e.Sized ∧ e.name.length < 128 ∧ e.value.length = e.vl
  records : ∀ r ∈ rs, r.Sized ∧ r.item.v.length = r.vl

def PublogEntry.toFile (e : PublogEntry) : FileEntry :=
  ⟨e.target, if e.immutable then 1 else 0, e.vlen, e.seq,
    littleEndian 8 (e.published % 2 ^ 64).toNat, e.name, e.value⟩

def DhtItem.toFile (e : DhtItem) : FileRecord := ⟨e, if e.immutable then 1 else 0, e.v.length⟩

theorem littleEndian_flag (b : Bool) : littleEndian 1 (if b then 1 else 0) = flag b := by
  cases b <;> rfl

theorem flag_lt (b : Bool) : (if b then 1 else 0) < 256 ^ 1 := by
  cases b <;> decide

theorem PublogEntry.bytes_toFile (e : PublogEntry) : e.toFile.bytes = e.encode := by
  unfold FileEntry.bytes toFile encode
  rw [littleEndian_flag]

theorem DhtItem.bytes_toFile (e : DhtItem) : e.toFile.bytes = e.encode := by
  unfold FileRecord.bytes toFile encode
  rw [littleEndian_flag]

theorem PublogEntry.Valid.sized {e : PublogEntry} (he : e.Valid) (hlen : e.vlen ≤ publogMaxVal) :
    e.toFile.Sized :=
  ⟨he.length_target, flag_lt _, hlen.trans_lt (by decide), he.seq_lt, length_littleEndian 8 _,
    he.name_le.trans_lt (by decide)⟩

variable {C : DhtCrypto} {file : Bytes} {es : List FileEntry} {rs : List FileRecord}

theorem DhtItem.Valid.sized {e : DhtItem} (he : e.Valid C) : e.toFile.Sized :=
  ⟨he.length_target, flag_lt _, he.v_le.trans_lt (by decide), he.seq_lt, he.length_k,
    he.length_sig⟩

theorem dhtPersistSave_inFormat {now : ℤ} {p : List PublogEntry} (hp : PublogSound p)
    (hlen : ∀ e ∈ p, e.vlen ≤ publogMaxVal) {s : DhtStore}
    (hvalid : ∀ e ∈ (heldRecords now s).1, e.Valid C)
    (htotal : (heldRecords now s).1.length = heldTotal s) :
    ∃ file, (dhtPersistSave now p s).1 = some file ∧
      InFormat file (p.map PublogEntry.toFile) ((heldRecords now s).1.map DhtItem.toFile) := by
  have hall : p.all (fun e => e.vlen ≤ publogMaxVal) = true :=
    all_eq_true.mpr fun e he => decide_eq_true (hlen e he)
  unfold dhtPersistSave
  dsimp only
  rw [if_pos hall]
  refine ⟨_, rfl, ?_, ?_, ?_, ?_, ?_⟩
  · simp only [fileContents, length_map, flatMap_map, PublogEntry.bytes_toFile,
      DhtItem.bytes_toFile, htotal]
  · rw [length_map]
    exact hp.length_le.trans_lt (by decide)
  · rw [length_map, htotal]
    exact (heldTotal_le s).trans_lt (by decide)
  · intro x hx
    obtain ⟨e, he, rfl⟩ := mem_map.mp hx
    exact ⟨(hp.valid e he).sized (hlen e he), Nat.lt_succ_of_le (hp.valid e he).name_le,
      PublogEntry.length_value (hp.valid e he) (hlen e he)⟩
  · intro x hx
    obtain ⟨e, he, rfl⟩ := mem_map.mp hx
    exact ⟨(hvalid e he).sized, rfl⟩

def fileHeader (file : Bytes) : Option (ℕ × Bytes) := do
  let (magic, file) ← freadNat 4 file
  let (version, file) ← freadNat 4 file
  if magic ≠ dhtPersistMagic ∨ version ≠ dhtPersistVersion then none else freadNat 4 file

def readHeld (file : Bytes) : Option ((DhtItem × ℕ) × Bytes) :=
  (readRecord file).map fun out => ((out.1, out.2.1), out.2.2)

def loaderReads (file : Bytes) : List EntryArgs × List (DhtItem × ℕ) × Option Bytes :=
  match fileHeader file with
  | none => ([], [], none)
  | some (count, file) =>
    match readAll readEntry count file with
    | (es, none) => (es, [], none)
    | (es, some file) =>
      match freadNat 4 file with
      | none => (es, [], none)
      | some (total, file) => (es, readAll readHeld total file)

def addEntry (now : ℤ) (p : List PublogEntry) (e : EntryArgs) : List PublogEntry :=
  (publogAdd now e.1 e.2.1 e.2.2.1 e.2.2.2.1 e.2.2.2.2.1 e.2.2.2.2.2 p).2

def restoreHeld (C : DhtCrypto) (now : ℤ) (s : DhtStore) (r : DhtItem × ℕ) : DhtStore :=
  if 1024 < r.2 then s else restore C now s r.1

theorem loadEntries_eq (now : ℤ) (n : ℕ) (file : Bytes) (p : List PublogEntry) :
    loadEntries now n file p =
      ((readAll readEntry n file).2, (readAll readEntry n file).1.foldl (addEntry now) p) := by
  induction n generalizing file p with
  | zero => rfl
  | succ n ih =>
    rw [loadEntries, readAll]
    cases readEntry file with
    | none => rfl
    | some out =>
      obtain ⟨⟨target, imm, name, value, vl, seq⟩, file⟩ := out
      exact ih file _

theorem loadRecords_eq (C : DhtCrypto) (now : ℤ) (n : ℕ) (file : Bytes) (s : DhtStore) :
    loadRecords C now n file s = ((readAll readHeld n file).2.isSome,
        (readAll readHeld n file).1.foldl (restoreHeld C now) s) := by
  induction n generalizing file s with
  | zero => rfl
  | succ n ih =>
    rw [loadRecords, readAll, readHeld]
    cases readRecord file with
    | none => rfl
    | some out => exact ih out.2.2 _

theorem dhtPersistLoad_eq (C : DhtCrypto) (now : ℤ) (file : Bytes) (p : List PublogEntry)
    (s : DhtStore) : dhtPersistLoad C now file p s = ((loaderReads file).2.2.elim (-1) fun _ => 0,
        (loaderReads file).1.foldl (addEntry now) p,
        (loaderReads file).2.1.foldl (restoreHeld C now) s) := by
  unfold dhtPersistLoad loaderReads fileHeader
  cases freadNat 4 file with
  | none => rfl
  | some out =>
    obtain ⟨magic, file⟩ := out
    simp only [bind_eq_bind, bind_some]
    cases freadNat 4 file with
    | none => rfl
    | some out =>
      obtain ⟨version, file⟩ := out
      simp only [bind_some]
      split_ifs with hmagic
      · rfl
      · cases freadNat 4 file with
        | none => rfl
        | some out =>
          obtain ⟨count, file⟩ := out
          dsimp only
          rw [loadEntries_eq]
          rcases readAll readEntry count file with ⟨es, _ | file⟩
          · rfl
          · dsimp only
            cases freadNat 4 file with
            | none => rfl
            | some out =>
              obtain ⟨total, file⟩ := out
              dsimp only
              rw [loadRecords_eq]
              rcases readAll readHeld total file with ⟨rs, _ | rest⟩ <;> rfl

/-- As the loader reads an entry: a long value is left where it is. -/
def FileEntry.Loose (e : FileEntry) : Prop :=
  e.Sized ∧ e.value.length = if e.vl ≤ publogMaxVal then e.vl else 0

def FileRecord.Loose (r : FileRecord) : Prop :=
  r.Sized ∧ r.item.v.length = if r.vl ≤ 1024 then r.vl else 0

theorem readEntry_eq_some_iff {file rest : Bytes} {x : EntryArgs} : readEntry file = some (x, rest) ↔
      ∃ e : FileEntry, e.Loose ∧ file = e.bytes ++ rest ∧ x = e.args := by
  constructor
  · intro h
    simp only [readEntry, bind_eq_bind, bind_eq_some_iff, Prod.exists,
      fread_eq_some_iff, freadNat_eq_some_iff, freadUpTo_eq_some_iff, some.injEq,
      Prod.mk.injEq] at h
    obtain ⟨target, _, ⟨htarget, rfl⟩, imm, _, ⟨himm, rfl⟩, vl, _, ⟨hvl, rfl⟩, seq, _, ⟨hseq, rfl⟩,
      published, _, ⟨hpublished, rfl⟩, nl, _, ⟨hnl, rfl⟩, name, _, ⟨rfl, rfl⟩, value, _,
      ⟨hvalue, rfl⟩, hx, rfl⟩ := h
    refine ⟨⟨target, imm, vl, seq, published, name, value⟩,
      ⟨⟨htarget, himm, hvl, hseq, hpublished, hnl⟩, hvalue⟩, ?_, ?_⟩
    · simp only [FileEntry.bytes, append_assoc]
    · rw [FileEntry.args, ← hx]
  · rintro ⟨e, ⟨hsized, hvalue⟩, rfl, rfl⟩
    simp only [readEntry, FileEntry.bytes, append_assoc, fread_append hsized.length_target,
      freadNat_append hsized.imm_lt, freadNat_append hsized.vl_lt, freadNat_append hsized.seq_lt,
      fread_append hsized.length_published, freadNat_append hsized.length_name,
      fread_append (rfl : e.name.length = _), freadUpTo_eq_some_iff.mpr ⟨hvalue, rfl⟩,
      bind_eq_bind, bind_some]
    rfl

theorem readHeld_eq_some_iff {file rest : Bytes} {x : DhtItem × ℕ} : readHeld file = some (x, rest) ↔
      ∃ r : FileRecord, r.Loose ∧ file = r.bytes ++ rest ∧ x = r.args := by
  constructor
  · intro h
    simp only [readHeld, readRecord, map_eq_some_iff, bind_eq_bind,
      bind_eq_some_iff, Prod.exists, fread_eq_some_iff, freadNat_eq_some_iff,
      freadUpTo_eq_some_iff, some.injEq, Prod.mk.injEq] at h
    obtain ⟨item, vl, _, ⟨target, _, ⟨htarget, rfl⟩, imm, _, ⟨himm, rfl⟩, vl', _, ⟨hvl, rfl⟩, seq,
      _, ⟨hseq, rfl⟩, k, _, ⟨hk, rfl⟩, sig, _, ⟨hsig, rfl⟩, v, _, ⟨hv, rfl⟩, rfl, rfl, rfl⟩, rfl,
      rfl⟩ := h
    refine ⟨⟨⟨imm ≠ 0, target, k, seq, v, sig, 0, 0⟩, imm, vl'⟩,
      ⟨⟨htarget, himm, hvl, hseq, hk, hsig⟩, hv⟩, ?_, rfl⟩
    simp only [FileRecord.bytes, append_assoc]
  · rintro ⟨r, ⟨hsized, hv⟩, rfl, rfl⟩
    simp only [readHeld, readRecord, FileRecord.bytes, append_assoc,
      fread_append hsized.length_target, freadNat_append hsized.imm_lt,
      freadNat_append hsized.vl_lt, freadNat_append hsized.seq_lt, fread_append hsized.length_k,
      fread_append hsized.length_sig, freadUpTo_eq_some_iff.mpr ⟨hv, rfl⟩, bind_eq_bind,
      bind_some, map_some]
    rfl

theorem fileHeader_eq_some_iff {rest : Bytes} {count : ℕ} :
    fileHeader file = some (count, rest) ↔ count < 256 ^ 4 ∧
      file = littleEndian 4 dhtPersistMagic ++ (littleEndian 4 dhtPersistVersion ++
        (littleEndian 4 count ++ rest)) := by
  constructor
  · intro h
    simp only [fileHeader, bind_eq_bind, bind_eq_some_iff, Prod.exists,
      freadNat_eq_some_iff] at h
    obtain ⟨magic, _, ⟨-, rfl⟩, version, _, ⟨-, rfl⟩, h⟩ := h
    split_ifs at h with hmagic
    obtain ⟨rfl, rfl⟩ := not_or.mp hmagic |>.imp not_not.mp not_not.mp
    obtain ⟨hcount, rfl⟩ := freadNat_eq_some_iff.mp h
    exact ⟨hcount, rfl⟩
  · rintro ⟨hcount, rfl⟩
    have hmagic : dhtPersistMagic < 256 ^ 4 := by decide
    have hversion : dhtPersistVersion < 256 ^ 4 := by decide
    rw [fileHeader, freadNat_append hmagic]
    simp only [bind_eq_bind, bind_some]
    rw [freadNat_append hversion]
    simp only [bind_some, ne_eq, not_true_eq_false, or_self, if_false]
    exact freadNat_append hcount rest

structure TakenAs (file : Bytes) (es : List FileEntry) (rs : List FileRecord) (rest : Bytes) :
    Prop where
  contents : file = fileContents es rs ++ rest
  length_es : es.length < 256 ^ 4
  length_rs : rs.length < 256 ^ 4
  entries : ∀ e ∈ es, e.Loose
  records : ∀ r ∈ rs, r.Loose

theorem loaderReads_eq_some_iff {rest : Bytes} {xs : List EntryArgs} {ys : List (DhtItem × ℕ)} :
    loaderReads file = (xs, ys, some rest) ↔
      ∃ es rs, TakenAs file es rs rest ∧ xs = es.map FileEntry.args ∧
        ys = rs.map FileRecord.args := by
  have hentries := readAll_eq_some_iff fun file x rest => @readEntry_eq_some_iff file rest x
  have hrecords := readAll_eq_some_iff fun file x rest => @readHeld_eq_some_iff file rest x
  constructor
  · intro h
    rw [loaderReads] at h
    cases hheader : fileHeader file with
    | none =>
      rw [hheader] at h
      cases h
    | some out =>
      obtain ⟨count, file₁⟩ := out
      rw [hheader] at h
      dsimp only at h
      obtain ⟨hcount, rfl⟩ := fileHeader_eq_some_iff.mp hheader
      rcases hall : readAll readEntry count file₁ with ⟨xs', _ | file₂⟩
      · rw [hall] at h
        cases h
      · rw [hall] at h
        dsimp only at h
        obtain ⟨es, rfl, hes, rfl, rfl⟩ := (hentries count file₁ file₂ xs').mp hall
        cases hnext : freadNat 4 file₂ with
        | none =>
          rw [hnext] at h
          cases h
        | some out =>
          obtain ⟨total, file₃⟩ := out
          rw [hnext] at h
          obtain ⟨rfl, hheld⟩ := Prod.mk.inj h
          obtain ⟨htotal, rfl⟩ := freadNat_eq_some_iff.mp hnext
          obtain ⟨rs, rfl, hrs, rfl, rfl⟩ := (hrecords total file₃ rest ys).mp hheld
          refine ⟨es, rs, ⟨?_, hcount, htotal, hes, hrs⟩, rfl, rfl⟩
          simp only [fileContents, append_assoc]
  · rintro ⟨es, rs, ⟨rfl, hcount, htotal, hes, hrs⟩, rfl, rfl⟩
    simp only [fileContents, append_assoc]
    rw [loaderReads, fileHeader_eq_some_iff.mpr ⟨hcount, rfl⟩]
    dsimp only
    rw [(hentries _ _ _ _).mpr ⟨es, rfl, hes, rfl, rfl⟩]
    dsimp only
    rw [freadNat_append htotal]
    dsimp only
    rw [(hrecords _ _ _ _).mpr ⟨rs, rfl, hrs, rfl, rfl⟩]

def nameOverruns (file : Bytes) : Bool :=
  let header := do
    let (_, file) ← fread 20 file
    let (_, file) ← freadNat 1 file
    let (_, file) ← freadNat 4 file
    let (_, file) ← freadNat 4 file
    let (_, file) ← fread 8 file
    freadNat 1 file
  header.any fun (nl, file) => 128 < nl ∧ 128 < file.length

def entriesOverrun : ℕ → Bytes → Bool
  | 0, _ => false
  | n + 1, file =>
    nameOverruns file ||
      match readEntry file with
      | none => false
      | some (_, file) => entriesOverrun n file

def loaderOverruns (file : Bytes) : Bool :=
  (fileHeader file).any fun (count, file) => entriesOverrun count file

structure LongName (count : ℕ) (file : Bytes) (es : List FileEntry) (header tail : Bytes) (nl : ℕ) :
    Prop where
  contents : file = es.flatMap FileEntry.bytes ++ (header ++ (littleEndian 1 nl ++ tail))
  length_lt : es.length < count
  entries : ∀ e ∈ es, e.Loose
  length_header : header.length = 37
  nl_lt : nl < 256 ^ 1
  nl_gt : 128 < nl
  length_tail : 128 < tail.length

theorem nameOverruns_iff (file : Bytes) :
    nameOverruns file ↔ ∃ header tail nl, file = header ++ (littleEndian 1 nl ++ tail) ∧
      header.length = 37 ∧ nl < 256 ^ 1 ∧ 128 < nl ∧ 128 < tail.length := by
  constructor
  · intro h
    simp only [nameOverruns, Option.any_eq_true, bind_eq_bind, bind_eq_some_iff,
      Prod.exists, fread_eq_some_iff, freadNat_eq_some_iff, decide_eq_true_eq] at h
    obtain ⟨nl, tail, ⟨target, _, ⟨htarget, rfl⟩, imm, _, ⟨-, rfl⟩, vl, _, ⟨-, rfl⟩, seq, _,
      ⟨-, rfl⟩, published, _, ⟨hpublished, rfl⟩, hnl, rfl⟩, hlong, htail⟩ := h
    refine ⟨target ++ (littleEndian 1 imm ++ (littleEndian 4 vl ++ (littleEndian 4 seq ++
      published))), tail, nl, ?_, ?_, hnl, hlong, htail⟩
    · simp only [append_assoc]
    · simp only [length_append, length_littleEndian, htarget, hpublished]
  · rintro ⟨header, tail, nl, rfl, hheader, hnl, hlong, htail⟩
    obtain ⟨target, x, rfl, htarget, hx⟩ := exists_fields (a := 20) (b := 17) hheader
    obtain ⟨imm, x, rfl, himm, hx⟩ := exists_fields (a := 1) (b := 16) hx
    obtain ⟨vl, x, rfl, hvl, hx⟩ := exists_fields (a := 4) (b := 12) hx
    obtain ⟨seq, published, rfl, hseq, hpublished⟩ := exists_fields (a := 4) (b := 8) hx
    simp only [nameOverruns, append_assoc, fread_append htarget, freadNat_field himm,
      freadNat_field hvl, freadNat_field hseq, fread_append hpublished, freadNat_append hnl,
      bind_eq_bind, bind_some, any_some, hlong, htail, and_self, decide_true]

theorem entriesOverrun_iff (n : ℕ) (file : Bytes) :
    entriesOverrun n file ↔ ∃ es header tail nl, LongName n file es header tail nl := by
  induction n generalizing file with
  | zero =>
    constructor
    · intro h
      cases h
    · rintro ⟨es, header, tail, nl, h⟩
      exact absurd h.length_lt (Nat.not_lt_zero _)
  | succ n ih =>
    rw [entriesOverrun, Bool.or_eq_true, nameOverruns_iff]
    constructor
    · rintro (⟨header, tail, nl, hfile, hheader, hnl, hlong, htail⟩ | h)
      · exact ⟨[], header, tail, nl, hfile, Nat.succ_pos n, forall_mem_nil _, hheader, hnl,
          hlong, htail⟩
      · cases hfirst : readEntry file with
        | none =>
          rw [hfirst] at h
          cases h
        | some out =>
          obtain ⟨x, file'⟩ := out
          rw [hfirst] at h
          obtain ⟨e, he, rfl, -⟩ := readEntry_eq_some_iff.mp hfirst
          obtain ⟨es, header, tail, nl, hes⟩ := (ih file').mp h
          refine ⟨e :: es, header, tail, nl, ?_, Nat.succ_lt_succ hes.length_lt,
            forall_mem_cons.mpr ⟨he, hes.entries⟩, hes.length_header, hes.nl_lt, hes.nl_gt,
            hes.length_tail⟩
          rw [hes.contents, flatMap_cons, append_assoc]
    · rintro ⟨_ | ⟨e, es⟩, header, tail, nl, h⟩
      · exact .inl ⟨header, tail, nl, h.contents, h.length_header, h.nl_lt, h.nl_gt, h.length_tail⟩
      · obtain ⟨he, hes⟩ := forall_mem_cons.mp h.entries
        have hfile := h.contents
        rw [flatMap_cons, append_assoc] at hfile
        rw [readEntry_eq_some_iff.mpr ⟨e, he, hfile, rfl⟩]
        exact .inr ((ih _).mpr ⟨es, header, tail, nl, rfl, Nat.lt_of_succ_lt_succ h.length_lt, hes,
          h.length_header, h.nl_lt, h.nl_gt, h.length_tail⟩)

def DeclaresLongName (file : Bytes) : Prop :=
  ∃ count entries es header tail nl, count < 256 ^ 4 ∧
    file = littleEndian 4 dhtPersistMagic ++ (littleEndian 4 dhtPersistVersion ++
      (littleEndian 4 count ++ entries)) ∧
    LongName count entries es header tail nl

theorem loaderOverruns_iff (file : Bytes) : loaderOverruns file ↔ DeclaresLongName file := by
  rw [loaderOverruns, Option.any_eq_true]
  constructor
  · rintro ⟨⟨count, entries⟩, hheader, h⟩
    obtain ⟨hcount, hfile⟩ := fileHeader_eq_some_iff.mp hheader
    obtain ⟨es, header, tail, nl, hlong⟩ := (entriesOverrun_iff count entries).mp h
    exact ⟨count, entries, es, header, tail, nl, hcount, hfile, hlong⟩
  · rintro ⟨count, entries, es, header, tail, nl, hcount, hfile, hlong⟩
    exact ⟨(count, entries), fileHeader_eq_some_iff.mpr ⟨hcount, hfile⟩,
      (entriesOverrun_iff count entries).mpr ⟨es, header, tail, nl, hlong⟩⟩

/-- The loader stays in its buffers, and adds the records of files in the format only. -/
structure LoadsFormat (C : DhtCrypto) (now : ℤ) (file : Bytes) (p : List PublogEntry)
    (s : DhtStore) : Prop where
  inBuffers : loaderOverruns file = false
  accepted : (dhtPersistLoad C now file p s).1 = 0 → ∃ es rs, InFormat file es rs ∧
    (loaderReads file).1 = es.map FileEntry.args ∧ (loaderReads file).2.1 = rs.map FileRecord.args ∧
    (dhtPersistLoad C now file p s).2 =
      ((es.map FileEntry.args).foldl (addEntry now) p,
        (rs.map FileRecord.args).foldl (restoreHeld C now) s)

/-- No name, no value is too long, and nothing stands behind the records. -/
structure ShortFields (file : Bytes) : Prop where
  names : ¬ DeclaresLongName file
  taken : ∀ es rs rest, TakenAs file es rs rest →
    (∀ e ∈ es, e.name.length < 128 ∧ e.vl ≤ publogMaxVal) ∧ (∀ r ∈ rs, r.vl ≤ 1024) ∧ rest = []

theorem InFormat.takenAs (h : InFormat file es rs) (hes : ∀ e ∈ es, e.vl ≤ publogMaxVal)
    (hrs : ∀ r ∈ rs, r.vl ≤ 1024) : TakenAs file es rs [] := by
  refine ⟨?_, h.length_es, h.length_rs, ?_, ?_⟩
  · rw [append_nil]
    exact h.contents
  · intro e he
    obtain ⟨hsized, -, hvalue⟩ := h.entries e he
    refine ⟨hsized, ?_⟩
    rw [hvalue, if_pos (hes e he)]
  · intro r hr
    obtain ⟨hsized, hv⟩ := h.records r hr
    refine ⟨hsized, ?_⟩
    rw [hv, if_pos (hrs r hr)]

theorem TakenAs.inFormat (h : TakenAs file es rs [])
    (hes : ∀ e ∈ es, e.name.length < 128 ∧ e.vl ≤ publogMaxVal) (hrs : ∀ r ∈ rs, r.vl ≤ 1024) :
    InFormat file es rs := by
  refine ⟨?_, h.length_es, h.length_rs, ?_, ?_⟩
  · rw [h.contents, append_nil]
  · intro e he
    obtain ⟨hsized, hvalue⟩ := h.entries e he
    obtain ⟨hname, hvl⟩ := hes e he
    refine ⟨hsized, hname, ?_⟩
    rw [hvalue, if_pos hvl]
  · intro r hr
    obtain ⟨hsized, hv⟩ := h.records r hr
    refine ⟨hsized, ?_⟩
    rw [hv, if_pos (hrs r hr)]

theorem dhtPersistLoad_accepts_iff (C : DhtCrypto) (now : ℤ) (file : Bytes) (p : List PublogEntry)
    (s : DhtStore) :
    (dhtPersistLoad C now file p s).1 = 0 ↔ ∃ rest, (loaderReads file).2.2 = some rest := by
  rw [dhtPersistLoad_eq]
  cases (loaderReads file).2.2 with
  | none =>
    constructor
    · intro h
      cases h
    · rintro ⟨rest, h⟩
      cases h
  | some rest => exact iff_of_true rfl ⟨rest, rfl⟩

theorem FileEntry.vl_le {e e' : FileEntry} (he : e.Loose) (he' : e'.value.length = e'.vl)
    (hargs : e.args = e'.args) : e.vl ≤ publogMaxVal := by
  simp only [args, Prod.mk.injEq] at hargs
  obtain ⟨-, -, -, hvalue, hvl, -⟩ := hargs
  by_contra hlong
  have hpos : e.vl ≠ 0 := by
    intro hzero
    exact hlong (hzero ▸ Nat.zero_le _)
  rw [if_neg hpos, if_neg (hvl ▸ hpos), some.injEq] at hvalue
  have hempty := he.2
  rw [if_neg hlong, hvalue, he', ← hvl] at hempty
  exact hpos hempty

theorem FileRecord.vl_le {r r' : FileRecord} (hr : r.Loose) (hr' : r'.item.v.length = r'.vl)
    (hargs : r.args = r'.args) : r.vl ≤ 1024 := by
  simp only [args, Prod.mk.injEq, DhtItem.mk.injEq] at hargs
  obtain ⟨⟨-, -, -, -, hv, -⟩, hvl⟩ := hargs
  by_contra hlong
  have hempty := hr.2
  rw [if_neg hlong, hv, hr', ← hvl] at hempty
  exact hlong (hempty ▸ Nat.zero_le _)

def longValue (value : Bytes) : FileEntry :=
  ⟨.replicate 20 0, 0, 1025, 0, .replicate 8 0, [], value⟩

def longValueFile : Bytes := fileContents [longValue (.replicate 1025 0)] []

theorem sized_longValue (value : Bytes) : (longValue value).Sized := by
  refine ⟨length_replicate, ?_, ?_, ?_, length_replicate, ?_⟩ <;> dsimp only [longValue]
  all_goals decide

theorem inFormat_longValueFile : InFormat longValueFile [longValue (.replicate 1025 0)] [] :=
  ⟨rfl, by decide, by decide,
    forall_mem_singleton.mpr ⟨sized_longValue _, by decide, length_replicate⟩,
    forall_mem_nil _⟩

theorem takenAs_longValueFile : TakenAs longValueFile [longValue []] [] (.replicate 1025 0) := by
  refine ⟨?_, by decide, by decide, forall_mem_singleton.mpr ⟨sized_longValue _, rfl⟩,
    forall_mem_nil _⟩
  decide +kernel

end Norn
