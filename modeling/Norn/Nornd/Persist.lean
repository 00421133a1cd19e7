import Norn.Lib.Layout
import Norn.Dht.Store

/-!
# The saved item store

The publish log (`publog.c`) and the file that keeps it and the item store (`dht_persist.c`).
Numbers in the file have the least significant byte first.
-/

namespace Norn

def publogMax : ℕ := 256
def publogMaxVal : ℕ := 1024

/-- `vlen` may exceed the buffer; then the buffer has no value. -/
structure PublogEntry where
  target : Bytes
  immutable : Bool
  name : Bytes
  vlen : ℕ
  buf : Bytes
  seq : ℕ
  published : ℤ

def PublogEntry.value (e : PublogEntry) : Bytes := e.buf.take e.vlen

def PublogEntry.fillBuf (value : Option Bytes) (vlen : ℕ) (buf : Bytes) : Bytes :=
  match value with
  | some v => if vlen ≤ publogMaxVal then v.take vlen ++ buf.drop vlen else 0 :: buf.tail
  | none => 0 :: buf.tail

def publogAdd (now : ℤ) (target : Bytes) (immutable : Bool) (name : Bytes) (value : Option Bytes)
    (vlen seq : ℕ) (p : List PublogEntry) : Bool × List PublogEntry :=
  let entry (buf : Bytes) : PublogEntry :=
    ⟨target, immutable, (cString name).take 127, vlen, PublogEntry.fillBuf value vlen buf, seq, now⟩
  match p.findIdx? fun e => e.target = target with
  | some i => (true, p.modify i fun e => entry e.buf)
  | none =>
    if p.length < publogMax then (true, p ++ [entry (.replicate publogMaxVal 0)]) else (false, p)

def dhtPersistMagic : ℕ := 0x4e525044
def dhtPersistVersion : ℕ := 1

def flag (b : Bool) : Bytes := [if b then 1 else 0]

def PublogEntry.encode (e : PublogEntry) : Bytes :=
  e.target ++ (flag e.immutable ++ (littleEndian 4 e.vlen ++ (littleEndian 4 e.seq ++
    (littleEndian 8 (e.published % 2 ^ 64).toNat ++ (littleEndian 1 e.name.length ++
      (e.name ++ e.value))))))

def DhtItem.encode (e : DhtItem) : Bytes :=
  e.target ++ (flag e.immutable ++ (littleEndian 4 e.v.length ++ (littleEndian 4 e.seq ++
    (e.k ++ (e.sig ++ e.v)))))

def nornDhtList (wantImmutable : Bool) (max : ℕ) (s : DhtStore) : List DhtItem :=
  dhtstoreList wantImmutable (if max < 128 then max else 128) s

def heldOfKind (now : ℤ) : List DhtItem → DhtStore → List DhtItem × DhtStore
  | [], s => ([], s)
  | e :: items, s =>
    let out := dhtstoreGetEx now e.target 1024 s
    let rest := heldOfKind now items out.2
    (out.1.toList ++ rest.1, rest.2)

def heldRecords (now : ℤ) (s : DhtStore) : List DhtItem × DhtStore :=
  let mutables := heldOfKind now (nornDhtList false 128 s) s
  let immutables := heldOfKind now (nornDhtList true 128 mutables.2) mutables.2
  (mutables.1 ++ immutables.1, immutables.2)

def heldTotal (s : DhtStore) : ℕ :=
  (nornDhtList false 128 s).length + (nornDhtList true 128 s).length

def dhtPersistSave (now : ℤ) (p : List PublogEntry) (s : DhtStore) : Option Bytes × DhtStore :=
  let held := heldRecords now s
  (if p.all fun e => e.vlen ≤ publogMaxVal then
    some (littleEndian 4 dhtPersistMagic ++ (littleEndian 4 dhtPersistVersion ++
      (littleEndian 4 p.length ++ (p.flatMap PublogEntry.encode ++
        (littleEndian 4 (heldTotal s) ++ held.1.flatMap DhtItem.encode)))))
  else none, held.2)

def readEntry (file : Bytes) :
    Option ((Bytes × Bool × Bytes × Option Bytes × ℕ × ℕ) × Bytes) := do
  let (target, file) ← fread 20 file
  let (imm, file) ← freadNat 1 file
  let (vl, file) ← freadNat 4 file
  let (seq, file) ← freadNat 4 file
  let (_, file) ← fread 8 file
  let (nl, file) ← freadNat 1 file
  let (name, file) ← fread nl file
  let (value, file) ← freadUpTo publogMaxVal vl file
  some ((target, imm ≠ 0, name, if vl = 0 then none else some value, vl, seq), file)

def loadEntries (now : ℤ) : ℕ → Bytes → List PublogEntry → Option Bytes × List PublogEntry
  | 0, file, p => (some file, p)
  | n + 1, file, p =>
    match readEntry file with
    | none => (none, p)
    | some ((target, imm, name, value, vl, seq), file) =>
      loadEntries now n file (publogAdd now target imm name value vl seq p).2

def readRecord (file : Bytes) : Option (DhtItem × ℕ × Bytes) := do
  let (target, file) ← fread 20 file
  let (imm, file) ← freadNat 1 file
  let (vl, file) ← freadNat 4 file
  let (seq, file) ← freadNat 4 file
  let (k, file) ← fread 32 file
  let (sig, file) ← fread 64 file
  let (v, file) ← freadUpTo 1024 vl file
  some (⟨imm ≠ 0, target, k, seq, v, sig, 0, 0⟩, vl, file)

section
variable (C : DhtCrypto) (now : ℤ)

def nornDhtRestoreMutable (target pubkey : Bytes) (seq : ℕ) (value sig : Bytes) (s : DhtStore) :
    Bool × DhtStore :=
  dhtstorePut C now target pubkey seq value sig [] 0 s

def nornDhtRestoreImmutable (value : Bytes) (s : DhtStore) : Bool × DhtStore :=
  if value.length = 0 then (false, s) else dhtstorePutImmutable C now value 0 s

def restore (s : DhtStore) (e : DhtItem) : DhtStore :=
  if e.immutable then (nornDhtRestoreImmutable C now e.v s).2
  else (nornDhtRestoreMutable C now e.target e.k e.seq e.v e.sig s).2

def loadRecords : ℕ → Bytes → DhtStore → Bool × DhtStore
  | 0, _, s => (true, s)
  | n + 1, file, s =>
    match readRecord file with
    | none => (false, s)
    | some (e, vl, file) => loadRecords n file (if 1024 < vl then s else restore C now s e)

def dhtPersistLoad (file : Bytes) (p : List PublogEntry) (s : DhtStore) :
    ℤ × List PublogEntry × DhtStore :=
  match freadNat 4 file with
  | none => (-1, p, s)
  | some (magic, file) =>
    match freadNat 4 file with
    | none => (-1, p, s)
    | some (version, file) =>
      if magic ≠ dhtPersistMagic ∨ version ≠ dhtPersistVersion then (-1, p, s)
      else
        match freadNat 4 file with
        | none => (-1, p, s)
        | some (count, file) =>
          let out := loadEntries now count file p
          match out.1 with
          | none => (-1, out.2, s)
          | some file =>
            match freadNat 4 file with
            | none => (-1, out.2, s)
            | some (total, file) =>
              let held := loadRecords C now total file s
              (if held.1 then 0 else -1, out.2, held.2)

end
end Norn
