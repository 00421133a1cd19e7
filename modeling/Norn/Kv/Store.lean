import Norn.Lib.Bytes

/-!
# The replicated key-value store

The command encoders, the slot table and the command interpreter of `norn_kvstore.c`, and what
commands do to the value found behind a key.
-/

namespace Norn
open List Option

def nornKvMaxKey : ℕ := 128
def nornKvMaxVal : ℕ := 256

def nornKvPut : UInt8 := 1
def nornKvDel : UInt8 := 2
def nornKvCas : UInt8 := 3

structure KvEntry where
  key : Bytes
  val : Bytes
  used : Bool
  deriving DecidableEq, Inhabited

inductive KvEvent
  | put | del

structure KvFired where
  watch : ℕ
  event : KvEvent
  key : Bytes
  val : Bytes

/-- `cap` of the source is the length of the table; a watch is its key pattern. -/
structure NornKv where
  entries : List KvEntry
  count : ℕ
  watches : List Bytes
  deriving DecidableEq

def nornKvNew (maxEntries : ℕ) : Option NornKv :=
  if maxEntries = 0 then none else some ⟨replicate maxEntries ⟨[], [], false⟩, 0, []⟩

namespace NornKv

def holds (key : Bytes) (e : KvEntry) : Bool := e.used && e.key == key

variable (kv : NornKv)

def find (key : Bytes) : Option ℕ := kv.entries.findIdx? (holds key)

def allocSlot : Option ℕ := kv.entries.findIdx? fun e => !e.used

def fire (event : KvEvent) (key val : Bytes) : List KvFired :=
  (kv.watches.zipIdx.filter fun w => w.1.isPrefixOf key).map fun w => ⟨w.2, event, key, val⟩

def storePut (key val : Bytes) : ℤ × NornKv × List KvFired :=
  match kv.find key with
  | some i => (1, { kv with entries := kv.entries.modify i fun e => { e with val := val } },
      kv.fire .put key val)
  | none =>
    match kv.allocSlot with
    | none => (-1, kv, [])
    | some i =>
      (1, { kv with entries := kv.entries.modify i fun _ => ⟨key, val, true⟩, count := kv.count + 1 },
        kv.fire .put key val)

def storeDel (key : Bytes) : ℤ × NornKv × List KvFired :=
  match kv.find key with
  | none => (0, kv, [])
  | some i =>
    (1, { kv with
      entries := kv.entries.modify i fun e => { e with used := false }, count := kv.count - 1 },
      kv.fire .del key [])

end NornKv

def putU16 (v : ℕ) : Bytes := [UInt8.ofNat (v / 256), UInt8.ofNat v]

def getU16 (p : Bytes) (o : ℕ) : ℕ := (p.getD o 0).toNat * 256 + (p.getD (o + 1) 0).toNat

def nornKvEncodePut (cap : ℕ) (key val : Bytes) : Option Bytes :=
  if key.length = 0 ∨ nornKvMaxKey < key.length ∨ nornKvMaxVal < val.length then none
  else if cap < 1 + 2 + key.length + 2 + val.length then none
  else some (nornKvPut :: putU16 key.length ++ key ++ putU16 val.length ++ val)

def nornKvEncodeDel (cap : ℕ) (key : Bytes) : Option Bytes :=
  if key.length = 0 ∨ nornKvMaxKey < key.length then none
  else if cap < 1 + 2 + key.length then none
  else some (nornKvDel :: putU16 key.length ++ key)

def nornKvEncodeCas (cap : ℕ) (key expect val : Bytes) : Option Bytes :=
  if key.length = 0 ∨ nornKvMaxKey < key.length then none
  else if nornKvMaxVal < expect.length ∨ nornKvMaxVal < val.length then none
  else if cap < 1 + 2 + key.length + 2 + expect.length + 2 + val.length then none
  else some (nornKvCas :: putU16 key.length ++ key ++ putU16 expect.length ++ expect ++
    putU16 val.length ++ val)

def NornKv.current (kv : NornKv) (key : Bytes) : Bytes :=
  ((kv.find key).bind fun i => kv.entries[i]?).elim [] KvEntry.val

def NornKv.storeCas (kv : NornKv) (key expect val : Bytes) : ℤ × NornKv × List KvFired :=
  if kv.current key ≠ expect then (0, kv, []) else kv.storePut key val

def nornKvApply (kv : NornKv) (cmd : Bytes) : ℤ × NornKv × List KvFired :=
  let len := cmd.length
  if len < 3 then (-1, kv, [])
  else
    let klen := getU16 cmd 1
    if klen = 0 ∨ nornKvMaxKey < klen ∨ len < 3 + klen then (-1, kv, [])
    else
      let key := slice cmd 3 klen
      let o := 3 + klen
      let op := cmd.getD 0 0
      if op = nornKvPut then
        if len < o + 2 then (-1, kv, [])
        else
          let vlen := getU16 cmd o
          if nornKvMaxVal < vlen ∨ o + 2 + vlen ≠ len then (-1, kv, [])
          else kv.storePut key (slice cmd (o + 2) vlen)
      else if op = nornKvDel then
        if o ≠ len then (-1, kv, []) else kv.storeDel key
      else if op = nornKvCas then
        if len < o + 2 then (-1, kv, [])
        else
          let elen := getU16 cmd o
          if nornKvMaxVal < elen ∨ len < o + 2 + elen + 2 then (-1, kv, [])
          else
            let vlen := getU16 cmd (o + 2 + elen)
            if nornKvMaxVal < vlen ∨ o + 2 + elen + 2 + vlen ≠ len then (-1, kv, [])
            else kv.storeCas key (slice cmd (o + 2) elen) (slice cmd (o + 2 + elen + 2) vlen)
      else (-1, kv, [])

def nornKvGet (kv : NornKv) (key : Bytes) (cap : ℕ) : Option Bytes :=
  if key.length = 0 then none
  else match (kv.find key).bind fun i => kv.entries[i]? with
    | none => none
    | some e => if cap < e.val.length then none else some e.val

namespace NornKv

def snapshotLoop (cap : ℕ) : List KvEntry → Bytes → Option Bytes
  | [], buf => some buf
  | e :: es, buf =>
    if e.used = false then snapshotLoop cap es buf
    else if cap < buf.length + (2 + e.key.length + 2 + e.val.length) then none
    else snapshotLoop cap es (buf ++ (putU16 e.key.length ++ e.key ++ putU16 e.val.length ++ e.val))

def restoreLoop (buf : Bytes) : ℕ → NornKv → ℕ → ℤ × NornKv
  | 0, kv, _ => (0, kv)
  | fuel + 1, kv, o =>
    let len := buf.length
    if len ≤ o then (0, kv)
    else if len < o + 2 then (-1, kv)
    else
      let klen := getU16 buf o
      if klen = 0 ∨ nornKvMaxKey < klen ∨ len < o + 2 + klen + 2 then (-1, kv)
      else
        let vlen := getU16 buf (o + 2 + klen)
        if nornKvMaxVal < vlen ∨ len < o + 2 + klen + 2 + vlen then (-1, kv)
        else match kv.allocSlot with
          | none => (-1, kv)
          | some i =>
            let e : KvEntry := ⟨slice buf (o + 2) klen, slice buf (o + 2 + klen + 2) vlen, true⟩
            restoreLoop buf fuel
              { kv with entries := kv.entries.modify i fun _ => e, count := kv.count + 1 }
              (o + 2 + klen + 2 + vlen)

def clear (kv : NornKv) : NornKv :=
  { kv with entries := kv.entries.map fun e => { e with used := false }, count := 0 }

end NornKv

def nornKvSnapshot (kv : NornKv) (cap : ℕ) : Option Bytes := NornKv.snapshotLoop cap kv.entries []

def nornKvRestore (kv : NornKv) (buf : Bytes) : ℤ × NornKv :=
  NornKv.restoreLoop buf buf.length kv.clear 0

def field (f : Bytes) : Bytes := putU16 f.length ++ f

theorem length_field (f : Bytes) : (field f).length = 2 + f.length := by
  rw [field, length_append]
  rfl

theorem drop_eq_slice (p : Bytes) (o n : ℕ) : p.drop o = slice p o n ++ p.drop (o + n) := by
  rw [slice, ← drop_drop, take_append_drop]

variable {p : Bytes} {o : ℕ}

theorem putU16_getU16 (h : o + 2 ≤ p.length) : putU16 (getU16 p o) = slice p o 2 := by
  have hdrop : p.drop o = p.getD o 0 :: p.getD (o + 1) 0 :: p.drop (o + 2) := by
    rw [getD_eq_getElem _ _ (show o < p.length by omega),
      getD_eq_getElem _ _ (show o + 1 < p.length by omega),
      drop_eq_getElem_cons (show o < p.length by omega),
      drop_eq_getElem_cons (show o + 1 < p.length by omega)]
  rw [slice, hdrop, putU16, getU16]
  have hlt := (p.getD (o + 1) 0).toNat_lt
  have hhigh : ((p.getD o 0).toNat * 256 + (p.getD (o + 1) 0).toNat) / 256 = (p.getD o 0).toNat := by
    omega
  have hlow : UInt8.ofNat ((p.getD o 0).toNat * 256 + (p.getD (o + 1) 0).toNat) =
      p.getD (o + 1) 0 := by
    refine UInt8.toNat_inj.mp ?_
    rw [UInt8.toNat_ofNat']
    omega
  rw [hhigh, hlow, UInt8.ofNat_toNat]
  rfl

theorem drop_eq_field {n : ℕ} (hn : getU16 p o = n) (h : o + 2 + n ≤ p.length) :
    p.drop o = field (slice p (o + 2) n) ++ p.drop (o + 2 + n) := by
  have hlen : (slice p (o + 2) n).length = n := by
    rw [slice, length_take, length_drop]
    omega
  rw [field, hlen, ← hn, putU16_getU16 (by omega), hn, drop_eq_slice p o 2,
    drop_eq_slice p (o + 2) n, append_assoc]

theorem read_field {f rest : Bytes} (hp : p.drop o = field f ++ rest) (hf : f.length < 65536) :
    o + 2 + f.length + rest.length = p.length ∧ getU16 p o = f.length ∧
      slice p (o + 2) f.length = f ∧ p.drop (o + 2 + f.length) = rest := by
  have hlen := congrArg length hp
  rw [length_drop, length_append, length_field] at hlen
  have hget : ∀ i, p.getD (o + i) 0 = (field f ++ rest).getD i 0 := by
    intro i
    rw [← hp, getD_eq_getElem?_getD, getD_eq_getElem?_getD, getElem?_drop]
  refine ⟨by omega, ?_, ?_, ?_⟩
  · rw [getU16, show o = o + 0 from rfl, hget 0, Nat.add_assoc, Nat.zero_add, hget 1]
    change (UInt8.ofNat (f.length / 256)).toNat * 256 + (UInt8.ofNat f.length).toNat = f.length
    rw [UInt8.toNat_ofNat', UInt8.toNat_ofNat']
    omega
  · rw [slice, ← drop_drop, hp]
    exact take_left
  · rw [← drop_drop, ← drop_drop, hp]
    exact drop_left

inductive KvCommand
  | put (key val : Bytes)
  | del (key : Bytes)
  | cas (key expect val : Bytes)

namespace KvCommand

def encode (cap : ℕ) : KvCommand → Option Bytes
  | put key val => nornKvEncodePut cap key val
  | del key => nornKvEncodeDel cap key
  | cas key expect val => nornKvEncodeCas cap key expect val

variable (c : KvCommand)

def Encodes (cmd : Bytes) : Prop := ∃ cap, c.encode cap = some cmd

def key : KvCommand → Bytes
  | put key _ | del key | cas key _ _ => key

def values : KvCommand → List Bytes
  | put _ val => [val]
  | del _ => []
  | cas _ expect val => [expect, val]

def op : KvCommand → UInt8
  | put _ _ => nornKvPut
  | del _ => nornKvDel
  | cas _ _ _ => nornKvCas

def Valid : Prop :=
  0 < c.key.length ∧ c.key.length ≤ nornKvMaxKey ∧ ∀ v ∈ c.values, v.length ≤ nornKvMaxVal

def bytes : Bytes := c.op :: (field c.key ++ c.values.flatMap field)

theorem length_bytes :
    c.bytes.length = 1 + (2 + c.key.length) + (c.values.map fun v => 2 + v.length).sum := by
  rw [bytes, length_cons, length_append, length_field, length_flatMap]
  simp only [length_field]
  omega

theorem encode_eq (cap : ℕ) (cmd : Bytes) :
    c.encode cap = some cmd ↔ c.Valid ∧ c.bytes.length ≤ cap ∧ cmd = c.bytes := by
  rw [length_bytes]
  cases c with
  | put key val =>
    simp only [encode, nornKvEncodePut, Valid, bytes, KvCommand.key, values, op, field]
    split_ifs with h₁ h₂
    · simp only [false_iff, mem_singleton, forall_eq]
      omega
    · simp only [false_iff, map_cons, map_nil, sum_cons, sum_nil]
      omega
    · simp only [some.injEq, mem_singleton, forall_eq, map_cons, map_nil,
        sum_cons, sum_nil, flatMap_cons, flatMap_nil, append_nil,
        cons_append, append_assoc]
      refine ⟨fun h => ⟨by omega, by omega, h.symm⟩, fun h => h.2.2.symm⟩
  | del key =>
    simp only [encode, nornKvEncodeDel, Valid, bytes, KvCommand.key, values, op, field]
    split_ifs with h₁ h₂
    · simp only [false_iff]
      omega
    · simp only [false_iff, map_nil, sum_nil]
      omega
    · simp only [some.injEq, not_mem_nil, false_implies, implies_true, and_true,
        map_nil, sum_nil, flatMap_nil, append_nil, cons_append]
      refine ⟨fun h => ⟨by omega, by omega, h.symm⟩, fun h => h.2.2.symm⟩
  | cas key expect val =>
    simp only [encode, nornKvEncodeCas, Valid, bytes, KvCommand.key, values, op, field]
    split_ifs with h₁ h₂ h₃
    · simp only [false_iff]
      omega
    · simp only [false_iff, mem_cons, not_mem_nil, or_false, forall_eq_or_imp,
        forall_eq]
      omega
    · simp only [false_iff, map_cons, map_nil, sum_cons, sum_nil]
      omega
    · simp only [some.injEq, mem_cons, not_mem_nil, or_false, forall_eq_or_imp,
        forall_eq, map_cons, map_nil, sum_cons, sum_nil, flatMap_cons,
        flatMap_nil, append_nil, cons_append, append_assoc]
      refine ⟨fun h => ⟨by omega, by omega, h.symm⟩, fun h => h.2.2.symm⟩

theorem encodes_iff {c : KvCommand} {cmd : Bytes} : c.Encodes cmd ↔ c.Valid ∧ cmd = c.bytes := by
  constructor
  · rintro ⟨cap, h⟩
    obtain ⟨hvalid, _, hcmd⟩ := (c.encode_eq cap cmd).mp h
    exact ⟨hvalid, hcmd⟩
  · rintro ⟨hvalid, hcmd⟩
    exact ⟨c.bytes.length, (c.encode_eq _ cmd).mpr ⟨hvalid, le_rfl, hcmd⟩⟩

def parse (cmd : Bytes) : Option KvCommand :=
  let len := cmd.length
  if len < 3 then none
  else
    let klen := getU16 cmd 1
    if klen = 0 ∨ nornKvMaxKey < klen ∨ len < 3 + klen then none
    else
      let key := slice cmd 3 klen
      let o := 3 + klen
      let op := cmd.getD 0 0
      if op = nornKvPut then
        if len < o + 2 then none
        else
          let vlen := getU16 cmd o
          if nornKvMaxVal < vlen ∨ o + 2 + vlen ≠ len then none
          else some (.put key (slice cmd (o + 2) vlen))
      else if op = nornKvDel then
        if o ≠ len then none else some (.del key)
      else if op = nornKvCas then
        if len < o + 2 then none
        else
          let elen := getU16 cmd o
          if nornKvMaxVal < elen ∨ len < o + 2 + elen + 2 then none
          else
            let vlen := getU16 cmd (o + 2 + elen)
            if nornKvMaxVal < vlen ∨ o + 2 + elen + 2 + vlen ≠ len then none
            else some (.cas key (slice cmd (o + 2) elen) (slice cmd (o + 2 + elen + 2) vlen))
      else none

def run (kv : NornKv) : KvCommand → ℤ × NornKv × List KvFired
  | put key val => kv.storePut key val
  | del key => kv.storeDel key
  | cas key expect val => kv.storeCas key expect val

end KvCommand

theorem nornKvApply_eq (kv : NornKv) (cmd : Bytes) :
    nornKvApply kv cmd = (KvCommand.parse cmd).elim (-1, kv, []) fun c => c.run kv := by
  unfold nornKvApply KvCommand.parse
  dsimp only
  split_ifs <;> rfl

namespace KvCommand
variable {cmd : Bytes} {c : KvCommand}

theorem eq_cons_drop (h : 0 < cmd.length) : cmd = cmd.getD 0 0 :: cmd.drop 1 := by
  cases cmd with
  | nil => cases h
  | cons b bs => rfl

theorem length_slice {n : ℕ} (h : o + n ≤ p.length) : (slice p o n).length = n := by
  rw [slice, length_take, length_drop]
  omega

theorem eq_bytes_of_parse (h : parse cmd = some c) : c.Valid ∧ cmd = c.bytes := by
  unfold parse at h
  dsimp only at h
  by_cases hlen : cmd.length < 3
  · rw [if_pos hlen] at h
    cases h
  by_cases hkey : getU16 cmd 1 = 0 ∨ nornKvMaxKey < getU16 cmd 1 ∨ cmd.length < 3 + getU16 cmd 1
  · rw [if_neg hlen, if_pos hkey] at h
    cases h
  rw [if_neg hlen, if_neg hkey] at h
  have hbytes : cmd = cmd.getD 0 0 :: (field (slice cmd 3 (getU16 cmd 1)) ++
      cmd.drop (3 + getU16 cmd 1)) := by
    rw [← drop_eq_field rfl (show 1 + 2 + getU16 cmd 1 ≤ cmd.length by omega)]
    exact eq_cons_drop (by omega)
  have hklen := length_slice (show 3 + getU16 cmd 1 ≤ cmd.length by omega)
  have hend : ∀ n, n = cmd.length → cmd.drop n = [] := fun n hn =>
    drop_eq_nil_of_le hn.ge
  split_ifs at h with hput hshort hval hdel hmore hcas hshort hexp hval
  · cases h
    have hvlen := length_slice (p := cmd) (o := 3 + getU16 cmd 1 + 2)
      (n := getU16 cmd (3 + getU16 cmd 1)) (by omega)
    refine ⟨⟨by rw [key, hklen]; omega, by rw [key, hklen]; omega, ?_⟩, hbytes.trans ?_⟩
    · rintro v hv
      rw [mem_singleton.mp hv, hvlen]
      omega
    · rw [hput, drop_eq_field rfl (by omega), hend _ (by omega)]
      rfl
  · cases h
    refine ⟨⟨by rw [key, hklen]; omega, by rw [key, hklen]; omega, fun v hv => nomatch hv⟩,
      hbytes.trans ?_⟩
    rw [hdel, hend _ (by omega)]
    rfl
  · cases h
    have helen := length_slice (p := cmd) (o := 3 + getU16 cmd 1 + 2)
      (n := getU16 cmd (3 + getU16 cmd 1)) (by omega)
    have hvlen := length_slice (p := cmd)
      (o := 3 + getU16 cmd 1 + 2 + getU16 cmd (3 + getU16 cmd 1) + 2)
      (n := getU16 cmd (3 + getU16 cmd 1 + 2 + getU16 cmd (3 + getU16 cmd 1))) (by omega)
    refine ⟨⟨by rw [key, hklen]; omega, by rw [key, hklen]; omega, ?_⟩, hbytes.trans ?_⟩
    · rintro v hv
      rcases mem_cons.mp hv with rfl | hv
      · rw [helen]
        omega
      · rw [mem_singleton.mp hv, hvlen]
        omega
    · rw [hcas, drop_eq_field rfl (show 3 + getU16 cmd 1 + 2 + getU16 cmd (3 + getU16 cmd 1) ≤
        cmd.length by omega), drop_eq_field (o := 3 + getU16 cmd 1 + 2 + _) rfl (by omega),
        hend _ (by omega)]
      rfl

theorem parse_bytes (h : c.Valid) : parse c.bytes = some c := by
  obtain ⟨hpos, hmax, hvals⟩ := h
  have hmax' : c.key.length ≤ 128 := hmax
  obtain ⟨hlen, hget, hkey, hrest⟩ := read_field (p := c.bytes) (o := 1) rfl
    (show c.key.length < 65536 by omega)
  have hop : c.bytes.getD 0 0 = c.op := rfl
  unfold parse
  dsimp only
  rw [hget, if_neg (by omega), if_neg (by omega), hop]
  change slice c.bytes 3 c.key.length = c.key at hkey
  change c.bytes.drop (3 + c.key.length) = _ at hrest
  rw [hkey]
  cases c with
  | put k v =>
    have hv : v.length ≤ 256 := hvals v mem_cons_self
    obtain ⟨hlen', hget', hval, _⟩ := read_field (show _ = field v ++ [] from hrest) (by omega)
    change _ + 0 = _ at hlen'
    rw [if_pos (show (put k v).op = nornKvPut from rfl), hget', if_neg (by omega),
      if_neg (by rw [nornKvMaxVal]; omega), hval]
    rfl
  | del k =>
    change _ + 0 = _ at hlen
    rw [if_neg (show (del k).op ≠ nornKvPut from by change nornKvDel ≠ _; decide),
      if_pos (show (del k).op = nornKvDel from rfl), if_neg (by omega)]
    rfl
  | cas k e v =>
    have he : e.length ≤ 256 := hvals e mem_cons_self
    have hv : v.length ≤ 256 := hvals v (mem_cons_of_mem _ mem_cons_self)
    obtain ⟨hlen', hget', hexp, hrest'⟩ := read_field
      (show _ = field e ++ (field v ++ []) from hrest) (by omega)
    obtain ⟨hlen'', hget'', hval, _⟩ := read_field hrest' (by omega)
    change _ + 0 = _ at hlen''
    rw [if_neg (show (cas k e v).op ≠ nornKvPut from by change nornKvCas ≠ _; decide),
      if_neg (show (cas k e v).op ≠ nornKvDel from by change nornKvCas ≠ _; decide),
      if_pos (show (cas k e v).op = nornKvCas from rfl), hget', if_neg (by omega),
      if_neg (by rw [nornKvMaxVal]; omega), hget'', if_neg (by rw [nornKvMaxVal]; omega), hexp, hval]
    rfl

theorem parse_eq_some_iff : parse cmd = some c ↔ c.Encodes cmd := by
  rw [encodes_iff]
  constructor
  · exact eq_bytes_of_parse
  · rintro ⟨hvalid, rfl⟩
    exact parse_bytes hvalid

end KvCommand

section
variable {α : Type*} {p : α → Bool} {f : α → α} {l : List α} {i : ℕ}

theorem find?_modify_of_not (h : ∀ x, l[i]? = some x → p x = false ∧ p (f x) = false) :
    (l.modify i f).find? p = l.find? p := by
  induction l generalizing i with
  | nil => simp
  | cons x xs ih =>
    cases i with
    | zero =>
      obtain ⟨h₁, h₂⟩ := h x rfl
      simp [h₁, h₂]
    | succ i =>
      rw [modify_succ_cons, find?_cons, find?_cons,
        ih fun y hy => h y (by simpa using hy)]

theorem find?_modify_findIdx (hi : l.findIdx? p = some i) (hf : ∀ x, p x = true → p (f x) = true) :
    (l.modify i f).find? p = (l.find? p).map f := by
  induction l generalizing i with
  | nil => simp at hi
  | cons x xs ih =>
    rw [findIdx?_cons] at hi
    by_cases hx : p x = true
    · rw [if_pos hx] at hi
      cases hi
      simp [hx, hf x hx]
    · rw [if_neg hx] at hi
      obtain ⟨j, hj, rfl⟩ := map_eq_some_iff.mp hi
      simp [hx, ih hj]

theorem of_findIdx? (hi : l.findIdx? p = some i) {x : α} (hx : l[i]? = some x) : p x = true := by
  obtain ⟨hlt, hp, _⟩ := findIdx?_eq_some_iff_getElem.mp hi
  rw [getElem?_eq_getElem hlt] at hx
  cases hx
  exact hp

end

namespace NornKv
variable (kv : NornKv)

def lookup (key : Bytes) : Option Bytes :=
  (kv.entries.find? (holds key)).map KvEntry.val

theorem bind_find (key : Bytes) :
    ((kv.find key).bind fun i => kv.entries[i]?) = kv.entries.find? (holds key) :=
  find?_eq_bind_findIdx?_getElem?.symm

theorem current_eq (key : Bytes) : kv.current key = (kv.lookup key).getD [] := by
  rw [current, bind_find, lookup]
  cases kv.entries.find? (holds key) <;> rfl

variable {kv : NornKv} {key key' : Bytes} {e : KvEntry} {i : ℕ}

theorem get_eq_some_iff {v : Bytes} {cap : ℕ} :
    nornKvGet kv key cap = some v ↔ key.length ≠ 0 ∧ kv.lookup key = some v ∧ v.length ≤ cap := by
  unfold nornKvGet lookup
  rw [bind_find]
  by_cases hkey : key.length = 0
  · simp [hkey]
  cases kv.entries.find? (holds key) with
  | none => simp [hkey]
  | some e =>
    by_cases hcap : cap < e.val.length
    · simp only [if_neg hkey, if_pos hcap, map_some, some.injEq]
      refine ⟨fun h => (nomatch h), ?_⟩
      rintro ⟨_, rfl, hle⟩
      omega
    · simp only [if_neg hkey, if_neg hcap, map_some, some.injEq]
      refine ⟨?_, fun h => h.2.1⟩
      rintro rfl
      exact ⟨hkey, rfl, not_lt.mp hcap⟩

theorem holds_of_ne (h : key' ≠ key) (he : e.key = key) : holds key' e = false := by
  simp [holds, he, h.symm]

theorem key_of_find (h : kv.find key = some i) (he : kv.entries[i]? = some e) : e.key = key := by
  have := of_findIdx? h he
  simp only [holds, Bool.and_eq_true, beq_iff_eq] at this
  exact this.2

theorem unused_of_allocSlot (h : kv.allocSlot = some i) (he : kv.entries[i]? = some e) :
    e.used = false := by
  simpa using of_findIdx? h he

theorem lookup_storePut_of_ne (kv : NornKv) (h : key' ≠ key) (val : Bytes) :
    (kv.storePut key val).2.1.lookup key' = kv.lookup key' := by
  unfold storePut
  cases hfind : kv.find key with
  | some i =>
    refine congrArg (Option.map KvEntry.val) (find?_modify_of_not fun e he => ?_)
    have hkey := key_of_find hfind he
    exact ⟨holds_of_ne h hkey, holds_of_ne h hkey⟩
  | none =>
    cases halloc : kv.allocSlot with
    | none => rfl
    | some i =>
      refine congrArg (Option.map KvEntry.val) (find?_modify_of_not fun e he => ?_)
      exact ⟨by simp [holds, unused_of_allocSlot halloc he], holds_of_ne h rfl⟩

theorem lookup_storePut_self (h : (kv.lookup key).isSome) (val : Bytes) :
    (kv.storePut key val).2.1.lookup key = some val := by
  have hsome : (kv.entries.find? (holds key)).isSome := by simpa [lookup] using h
  obtain ⟨e, he⟩ := isSome_iff_exists.mp hsome
  unfold storePut
  cases hfind : kv.find key with
  | none =>
    rw [← kv.bind_find, hfind] at he
    simp at he
  | some i =>
    simp only [lookup]
    rw [find?_modify_findIdx hfind, he]
    · rfl
    · intro e he
      simpa [holds] using he

theorem lookup_storeDel_of_ne (kv : NornKv) (h : key' ≠ key) :
    (kv.storeDel key).2.1.lookup key' = kv.lookup key' := by
  unfold storeDel
  cases hfind : kv.find key with
  | none => rfl
  | some i =>
    refine congrArg (Option.map KvEntry.val) (find?_modify_of_not fun e he => ?_)
    have hkey := key_of_find hfind he
    exact ⟨holds_of_ne h hkey, holds_of_ne h hkey⟩

theorem lookup_storeCas_of_ne (kv : NornKv) (h : key' ≠ key) (expect val : Bytes) :
    (kv.storeCas key expect val).2.1.lookup key' = kv.lookup key' := by
  unfold storeCas
  split_ifs
  · rfl
  · exact kv.lookup_storePut_of_ne h val

end NornKv

def commandKey (cmd : Bytes) : Option Bytes :=
  if cmd.length < 3 then none
  else if getU16 cmd 1 = 0 ∨ nornKvMaxKey < getU16 cmd 1 ∨ cmd.length < 3 + getU16 cmd 1 then none
  else some (slice cmd 3 (getU16 cmd 1))

theorem lookup_apply_of_ne (kv : NornKv) {cmd key : Bytes} (h : commandKey cmd ≠ some key) :
    (nornKvApply kv cmd).2.1.lookup key = kv.lookup key := by
  unfold commandKey at h
  unfold nornKvApply
  by_cases hlen : cmd.length < 3
  · simp only [if_pos hlen]
  by_cases hkey : getU16 cmd 1 = 0 ∨ nornKvMaxKey < getU16 cmd 1 ∨ cmd.length < 3 + getU16 cmd 1
  · simp only [if_neg hlen, if_pos hkey]
  rw [if_neg hlen, if_neg hkey] at h
  have hne : key ≠ slice cmd 3 (getU16 cmd 1) := fun he => h (he ▸ rfl)
  simp only [if_neg hlen, if_neg hkey]
  split_ifs
  · rfl
  · rfl
  · exact kv.lookup_storePut_of_ne hne _
  · rfl
  · exact kv.lookup_storeDel_of_ne hne
  · rfl
  · rfl
  · rfl
  · exact kv.lookup_storeCas_of_ne hne _ _
  · rfl

theorem commandKey_bytes {c : KvCommand} (h : c.Valid) : commandKey c.bytes = some c.key := by
  obtain ⟨hpos, hmax, _⟩ := h
  have hmax' : c.key.length ≤ 128 := hmax
  obtain ⟨hlen, hget, hkey, _⟩ := read_field (p := c.bytes) (o := 1) rfl
    (show c.key.length < 65536 by omega)
  rw [commandKey, hget, if_neg (by omega), if_neg (by omega)]
  exact congrArg some hkey

section
variable {cap : ℕ} {key val cmd : Bytes} (h : nornKvEncodePut cap key val = some cmd)
include h

theorem encodes_put : (KvCommand.put key val).Encodes cmd := ⟨cap, h⟩

theorem commandKey_encodePut : commandKey cmd = some key := by
  obtain ⟨hvalid, rfl⟩ := KvCommand.encodes_iff.mp (encodes_put h)
  exact commandKey_bytes hvalid

theorem apply_encodePut (kv : NornKv) : nornKvApply kv cmd = kv.storePut key val := by
  rw [nornKvApply_eq, KvCommand.parse_eq_some_iff.mpr (encodes_put h)]
  rfl

end

end Norn
