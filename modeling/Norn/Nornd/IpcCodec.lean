import Norn.Nornd.Ipc
import Norn.Dht.BencodeCanonical

/-!
# Messages on the daemon's socket

Both kinds of messages (`nornd/ipc.c`) are dictionaries whose entries may be missing.
-/

namespace Norn
open Bencode Option List
open List Option
variable {cap : ℕ} {out : Bytes}

theorem ipcFrame_eq_some {d : Bencode} (h : ipcFrame d cap = some out) :
    out = bigEndian 4 d.encode.length ++ d.encode ∧ d.encode.length ≤ norndIpcMaxBody := by
  unfold ipcFrame at h
  split_ifs at h with hsize
  exact ⟨(some.inj h).symm, by omega⟩

theorem isSome_ipcFrame_iff (d : Bencode) :
    (ipcFrame d (norndIpcMaxBody + 4)).isSome ↔ d.encode.length ≤ norndIpcMaxBody := by
  unfold ipcFrame
  split_ifs with hsize
  · exact ⟨fun hsome => (nomatch hsome), fun _ => by omega⟩
  · exact ⟨fun _ => by omega, fun _ => rfl⟩

section
variable {entries : List (Bytes × Bencode)} {cap : ℕ} {out : Bytes}
  (hout : ipcFrame (.dict entries) cap = some out)
include hout

theorem frameLen_of_ipcFrame (rest : Bytes) :
    fromBigEndian ((out ++ rest).take 4) + 4 = out.length := by
  obtain ⟨rfl, hsize⟩ := ipcFrame_eq_some hout
  have hlt : (dict entries).encode.length < 256 ^ 4 := hsize.trans_lt (by decide)
  rw [append_assoc, take_left' (length_bigEndian _ _), fromBigEndian_bigEndian,
    Nat.mod_eq_of_lt hlt, length_append, length_bigEndian, add_comm]

theorem decodeBody_ipcFrame (hplain : Plain maxDepth (.dict entries)) (rest : Bytes) :
    decodeBody (out ++ rest) = some (.dict entries, out.length) := by
  have hlen := frameLen_of_ipcFrame hout rest
  obtain ⟨hbytes, hsize⟩ := ipcFrame_eq_some hout
  have hlength : out.length = 4 + (dict entries).encode.length := by
    rw [hbytes, length_append, length_bigEndian]
  have hbody : fromBigEndian ((out ++ rest).take 4) = (dict entries).encode.length := by
    omega
  have hslice : slice (out ++ rest) 4 (dict entries).encode.length =
      (dict entries).encode ++ [] := by
    have h := slice_append (bigEndian 4 (dict entries).encode.length)
      (dict entries).encode rest
    rw [append_nil]
    rwa [length_bigEndian, ← append_assoc, ← hbytes] at h
  have hfits : ¬ (norndIpcMaxBody < (dict entries).encode.length ∨
      (out ++ rest).length < 4 + (dict entries).encode.length) := by
    rw [length_append]
    omega
  have hframe : norndIpcFrameLen (out ++ rest) = some (dict entries).encode.length := by
    rw [norndIpcFrameLen, if_neg (by rw [length_append]; omega), hbody]
  rw [decodeBody, hframe]
  dsimp only
  rw [if_neg hfits, hslice, bencodeDecode_encode hplain [], hlength]

theorem decodeBody_of_part {part : Bytes} (hpart : part <+: out) (hne : part ≠ out) :
    decodeBody part = none := by
  cases hbody : decodeBody part with
  | none => rfl
  | some res =>
    obtain ⟨body, used⟩ := res
    obtain ⟨⟨hfour, hused⟩, hle⟩ := decodeBody_eq_some hbody
    have hhead : (out ++ []).take 4 = part.take 4 := by
      obtain ⟨more, rfl⟩ := hpart
      rw [append_nil, take_append_of_le_length hfour]
    have hlen := frameLen_of_ipcFrame hout []
    rw [hhead] at hlen
    exact absurd (hpart.eq_of_length_le (by omega)) hne

end

section
variable {d : Bencode} {v : Option Bytes}

theorem getStr_eq {key : List Char} (h : d.dictGet (text key) = v.map .str)
    (hv : ∀ s ∈ v, s.length ≤ cap) : getStr d key cap = some v := by
  unfold getStr
  cases v with
  | none => simp only [h, map_none]
  | some s =>
    simp only [h, map_some]
    exact if_neg (not_lt.mpr (hv s rfl))

theorem getId_eq (h : d.dictGet (text ['i', 'd']) = v.map .str)
    (hv : ∀ s ∈ v, s.length = norndIpcIdBytes) : getId d = some v := by
  unfold getId
  cases v with
  | none => simp only [h, map_none]
  | some s =>
    simp only [h, map_some]
    exact if_neg (not_not.mpr (hv s rfl))

theorem getSeq_eq {v : Option ℤ} (h : d.dictGet (text ['s', 'e', 'q']) = v.map .int) :
    getSeq d = some v := by
  unfold getSeq
  cases v with
  | none => simp only [h, map_none]
  | some s => simp only [h, map_some]

theorem getOp_eq {op : Bytes} (h : d.dictGet (text ['o', 'p']) = some (.str op))
    (hpos : op ≠ []) (hlen : op.length < norndIpcMaxOp) (hnul : 0 ∉ op) : getOp d = some op := by
  have hlimits : ¬ (op.length = 0 ∨ norndIpcMaxOp ≤ op.length) := by
    rw [length_eq_zero_iff]
    exact not_or.mpr ⟨hpos, not_le.mpr hlen⟩
  simp only [getOp, h, if_neg hlimits, cString_eq_self hnul]

end

def getOk (d : Bencode) : Option Bool :=
  match d.dictGet (text ['o', 'k']) with
  | some (.int v) => some (v ≠ 0)
  | _ => none

def getItem : Bencode → Option Bytes
  | .str s => if norndIpcMaxItem < s.length then none else some s
  | _ => none

def getItems (d : Bencode) : Option (List Bytes) :=
  match d.dictGet (text ['i', 't', 'e', 'm', 's']) with
  | none => some []
  | some (.list items) => if norndIpcMaxItems < items.length then none else items.mapM getItem
  | some _ => none

def norndIpcDecodeResp (buf : Bytes) : Option (NorndIpcResp × ℕ) :=
  match decodeBody buf with
  | none => none
  | some (d, used) => do
    let ok ← getOk d
    let val ← getStr d ['v', 'a', 'l'] norndIpcMaxVal
    let err ← getStr d ['e', 'r', 'r'] 255
    let items ← getItems d
    return (⟨ok, val, err.map cString, items⟩, used)

namespace NorndIpcReq

structure InBounds (r : NorndIpcReq) : Prop where
  op_ne : r.op ≠ []
  op_length : r.op.length < norndIpcMaxOp
  op_nulFree : 0 ∉ r.op
  key_length : r.key.length ≤ norndIpcMaxKey
  val_length : ∀ v ∈ r.val, v.length ≤ norndIpcMaxVal
  expect_length : ∀ v ∈ r.expect, v.length ≤ norndIpcMaxVal
  id_length : ∀ v ∈ r.id, v.length = norndIpcIdBytes
  seq_range : ∀ v ∈ r.seq, -2 ^ 63 ≤ v ∧ v < 2 ^ 63

def fields (r : NorndIpcReq) : List (Bytes × Option Bencode) :=
  [(text ['o', 'p'], some (.str r.op)),
    (text ['k', 'e', 'y'], if r.key.length = 0 then none else some (.str r.key)),
    (text ['v', 'a', 'l'], r.val.map .str), (text ['e', 'x', 'p', 'e', 'c', 't'], r.expect.map .str),
    (text ['i', 'd'], r.id.map .str), (text ['s', 'e', 'q'], r.seq.map .int)]

def bodySize (r : NorndIpcReq) : ℕ :=
  2 + (4 + strSize r.op.length) + (if r.key.length = 0 then 0 else 5 + strSize r.key.length) +
    (r.val.elim 0 fun v => 5 + strSize v.length) + (r.expect.elim 0 fun v => 8 + strSize v.length) +
    (r.id.elim 0 fun v => 4 + strSize v.length) + (r.seq.elim 0 fun v => 5 + intSize v)

def fieldKeys : List Bytes :=
  [text ['o', 'p'], text ['k', 'e', 'y'], text ['v', 'a', 'l'], text ['e', 'x', 'p', 'e', 'c', 't'],
    text ['i', 'd'], text ['s', 'e', 'q']]

variable {r : NorndIpcReq}

theorem plainKey_of_mem_fields {f : Bytes × Option Bencode} (hf : f ∈ r.fields) : PlainKey f.1 :=
  (by decide : ∀ key ∈ fieldKeys, PlainKey key) f.1 (mem_map_of_mem hf)

theorem dictGet_fields {key : Bytes} {v : Option Bencode} (h : (key, v) ∈ r.fields) :
    dictGet (.dict (present r.fields)) key = v :=
  dictGet_present (fun _ hf => (plainKey_of_mem_fields hf).1) (by decide : fieldKeys.Nodup) h

theorem length_add_length_le_bodySize {v w : Bytes} (hval : r.val = some v)
    (hexpect : r.expect = some w) : v.length + w.length ≤ r.bodySize := by
  rw [bodySize, hval, hexpect]
  simp only [elim_some, strSize]
  omega

theorem length_encode_fields (r : NorndIpcReq) :
    (encode (.dict (present r.fields))).length = r.bodySize := by
  have hkey : fieldSize (text ['k', 'e', 'y'])
      (if r.key.length = 0 then none else some (.str r.key)) =
        if r.key.length = 0 then 0 else 5 + strSize r.key.length := by
    split_ifs
    · rfl
    · exact fieldSize_str (text ['k', 'e', 'y']) (some r.key)
  have hop := fieldSize_str (text ['o', 'p']) (some r.op)
  rw [length_encode_present, bodySize]
  simp only [fields, map_cons, map_nil, sum_cons, sum_nil, hkey, fieldSize_str,
    fieldSize_int]
  rw [show fieldSize (text ['o', 'p']) (some (.str r.op)) = 4 + strSize r.op.length from hop]
  simp only [add_assoc, add_zero]
  rfl

section
variable {r : NorndIpcReq} (h : r.InBounds)
include h

theorem norndIpcEncodeReq_eq (cap : ℕ) :
    norndIpcEncodeReq r cap = ipcFrame (.dict (present r.fields)) cap := by
  have hval : ∀ {v : Option Bytes}, (∀ s ∈ v, s.length ≤ norndIpcMaxVal) →
      ¬ norndIpcMaxVal < (v.getD []).length := by
    intro v hv
    cases v with
    | none => exact Nat.not_lt_zero _
    | some s => exact not_lt.mpr (hv s rfl)
  have hlimits : ¬ (r.op = [] ∨ norndIpcMaxKey < r.key.length ∨
      norndIpcMaxVal < (r.val.getD []).length ∨ norndIpcMaxVal < (r.expect.getD []).length) :=
    not_or.mpr ⟨h.op_ne, not_or.mpr ⟨not_lt.mpr h.key_length,
      not_or.mpr ⟨hval h.val_length, hval h.expect_length⟩⟩⟩
  rw [norndIpcEncodeReq, if_neg hlimits]
  congr 2
  simp only [fields, present_cons, strField, append_assoc, Option.map_map]
  split_ifs <;> simp [present, Function.comp_def]

theorem plain_fields : Plain maxDepth (.dict (present r.fields)) := by
  apply plain_present
  intro f hf
  refine ⟨plainKey_of_mem_fields hf, ?_⟩
  simp only [fields, mem_cons, not_mem_nil, or_false] at hf
  rcases hf with rfl | rfl | rfl | rfl | rfl | rfl
  · exact plain_optional_str (v := some r.op) fun s hs => by
      cases hs
      exact h.op_length.trans (by decide)
  · split_ifs
    · exact fun _ hx => nomatch hx
    · exact plain_optional_str (v := some r.key) fun s hs => by
        cases hs
        exact h.key_length.trans_lt (by decide)
  · exact plain_optional_str fun s hs => (h.val_length s hs).trans_lt (by decide)
  · exact plain_optional_str fun s hs => (h.expect_length s hs).trans_lt (by decide)
  · exact plain_optional_str fun s hs => (h.id_length s hs).trans_lt (by decide)
  · intro x hx
    obtain ⟨v, hv, rfl⟩ := mem_map.mp hx
    exact Plain.int 31 (h.seq_range v hv).1 (h.seq_range v hv).2

theorem decodeFields_fields : decodeFields (.dict (present r.fields)) = some r := by
  have hop : getOp (.dict (present r.fields)) = some r.op :=
    getOp_eq (dictGet_fields (by simp [fields])) h.op_ne h.op_length h.op_nulFree
  have hkey : getStr (.dict (present r.fields)) ['k', 'e', 'y'] norndIpcMaxKey =
      some (if r.key.length = 0 then none else some r.key) := by
    apply getStr_eq
    · apply dictGet_fields
      split_ifs with hzero
      · simp [fields, hzero]
      · simp [fields, hzero]
    · split_ifs
      · exact fun _ hs => nomatch hs
      · rintro s hs
        cases hs
        exact h.key_length
  have hval : getStr (.dict (present r.fields)) ['v', 'a', 'l'] norndIpcMaxVal = some r.val :=
    getStr_eq (dictGet_fields (by simp [fields])) h.val_length
  have hexpect : getStr (.dict (present r.fields)) ['e', 'x', 'p', 'e', 'c', 't'] norndIpcMaxVal =
      some r.expect :=
    getStr_eq (dictGet_fields (by simp [fields])) h.expect_length
  have hid : getId (.dict (present r.fields)) = some r.id :=
    getId_eq (dictGet_fields (by simp [fields])) h.id_length
  have hseq : getSeq (.dict (present r.fields)) = some r.seq :=
    getSeq_eq (dictGet_fields (by simp [fields]))
  have hempty : (if r.key.length = 0 then none else some r.key).getD [] = r.key := by
    split_ifs with hzero
    · exact (length_eq_zero_iff.mp hzero).symm
    · rfl
  simp only [decodeFields, hop, hkey, hval, hexpect, hid, hseq, bind_eq_bind,
    bind_some, hempty]
  rfl

theorem norndIpcDecodeReq_frame (hout : norndIpcEncodeReq r cap = some out) (rest : Bytes) :
    norndIpcDecodeReq (out ++ rest) = some (r, out.length) := by
  rw [norndIpcEncodeReq_eq h] at hout
  rw [norndIpcDecodeReq, decodeBody_ipcFrame hout (plain_fields h) rest]
  dsimp only
  rw [decodeFields_fields h, map_some]

theorem isSome_encodeReq_iff :
    (norndIpcEncodeReq r (norndIpcMaxBody + 4)).isSome ↔ r.bodySize ≤ norndIpcMaxBody := by
  rw [norndIpcEncodeReq_eq h, isSome_ipcFrame_iff, length_encode_fields]

end
end NorndIpcReq

namespace NorndIpcResp

structure InBounds (r : NorndIpcResp) : Prop where
  val_length : ∀ v ∈ r.val, v.length ≤ norndIpcMaxVal
  err_length : ∀ v ∈ r.err, v.length ≤ 255
  err_nulFree : ∀ v ∈ r.err, 0 ∉ v
  items_length : r.items.length ≤ norndIpcMaxItems
  item_length : ∀ v ∈ r.items, v.length ≤ norndIpcMaxItem

def fields (r : NorndIpcResp) : List (Bytes × Option Bencode) :=
  [(text ['o', 'k'], some (.int (if r.ok then 1 else 0))), (text ['v', 'a', 'l'], r.val.map .str),
    (text ['e', 'r', 'r'], r.err.map .str),
    (text ['i', 't', 'e', 'm', 's'],
      if r.items.length = 0 then none else some (.list (r.items.map .str)))]

def bodySize (r : NorndIpcResp) : ℕ :=
  2 + 7 + (r.val.elim 0 fun v => 5 + strSize v.length) +
    (r.err.elim 0 fun v => 5 + strSize v.length) +
    (if r.items.length = 0 then 0 else 9 + (r.items.map fun v => strSize v.length).sum)

def fieldKeys : List Bytes :=
  [text ['o', 'k'], text ['v', 'a', 'l'], text ['e', 'r', 'r'], text ['i', 't', 'e', 'm', 's']]

variable {r : NorndIpcResp}

theorem plainKey_of_mem_fields {f : Bytes × Option Bencode} (hf : f ∈ r.fields) : PlainKey f.1 :=
  (by decide : ∀ key ∈ fieldKeys, PlainKey key) f.1 (mem_map_of_mem hf)

theorem dictGet_fields {key : Bytes} {v : Option Bencode} (h : (key, v) ∈ r.fields) :
    dictGet (.dict (present r.fields)) key = v :=
  dictGet_present (fun _ hf => (plainKey_of_mem_fields hf).1) (by decide : fieldKeys.Nodup) h

theorem length_add_sum_le_bodySize {v : Bytes} (hval : r.val = some v) :
    v.length + (r.items.map length).sum ≤ r.bodySize := by
  have hsum : (r.items.map length).sum ≤ (r.items.map fun v => strSize v.length).sum :=
    sum_le_sum fun u _ => by
      rw [strSize]
      omega
  rw [bodySize, hval]
  simp only [elim_some, strSize] at hsum ⊢
  split_ifs with hnone
  · rw [length_eq_zero_iff.mp hnone, map_nil, sum_nil]
    omega
  · omega

theorem mapM_getItem {items : List Bytes} (h : ∀ v ∈ items, v.length ≤ norndIpcMaxItem) :
    (items.map str).mapM getItem = some items := by
  induction items with
  | nil => rfl
  | cons v items ih =>
    have hv : getItem (.str v) = some v := if_neg (not_lt.mpr (h v mem_cons_self))
    rw [map_cons, mapM_cons, hv, ih fun w hw => h w (mem_cons_of_mem v hw)]
    rfl

theorem length_encode_items (items : List Bytes) : (encode (.list (items.map .str))).length =
    2 + (items.map fun v => strSize v.length).sum := by
  have hitems : (encodeItems (items.map .str)).length =
      (items.map fun v => strSize v.length).sum := by
    induction items with
    | nil => rfl
    | cons v items ih =>
      rw [map_cons, encodeItems, length_append, length_encode_str, ih, map_cons,
        sum_cons]
  rw [encode, length_cons, length_append, length_singleton, hitems]
  omega

theorem length_encode_fields (r : NorndIpcResp) :
    (encode (.dict (present r.fields))).length = r.bodySize := by
  have hok : fieldSize (text ['o', 'k']) (some (.int (if r.ok then 1 else 0))) = 7 := by
    cases r.ok <;> rfl
  have hitems : fieldSize (text ['i', 't', 'e', 'm', 's'])
      (if r.items.length = 0 then none else some (.list (r.items.map .str))) =
        if r.items.length = 0 then 0 else 9 + (r.items.map fun v => strSize v.length).sum := by
    split_ifs
    · rfl
    · rw [fieldSize, elim_some, length_encode_items, ← add_assoc]
      rfl
  rw [length_encode_present, bodySize]
  simp only [fields, map_cons, map_nil, sum_cons, sum_nil, hok, hitems,
    fieldSize_str, add_assoc, add_zero]
  rfl

section
variable {r : NorndIpcResp} (h : r.InBounds)
include h

theorem norndIpcEncodeResp_eq (cap : ℕ) :
    norndIpcEncodeResp r cap = ipcFrame (.dict (present r.fields)) cap := by
  have hval : ¬ norndIpcMaxVal < (r.val.getD []).length := by
    cases hv : r.val with
    | none => exact Nat.not_lt_zero _
    | some s => exact not_lt.mpr (h.val_length s hv)
  rw [norndIpcEncodeResp, if_neg (not_or.mpr ⟨hval, not_lt.mpr h.items_length⟩)]
  congr 2
  simp only [fields, present_cons, strField, append_assoc, Option.map_map]
  split_ifs <;> simp [present, Function.comp_def]

theorem plain_fields : Plain maxDepth (.dict (present r.fields)) := by
  apply plain_present
  intro f hf
  refine ⟨plainKey_of_mem_fields hf, ?_⟩
  simp only [fields, mem_cons, not_mem_nil, or_false] at hf
  rcases hf with rfl | rfl | rfl | rfl
  · intro x hx
    cases hx
    cases r.ok
    · exact Plain.int 31 (by decide) (by decide)
    · exact Plain.int 31 (by decide) (by decide)
  · exact plain_optional_str fun s hs => (h.val_length s hs).trans_lt (by decide)
  · exact plain_optional_str fun s hs => (h.err_length s hs).trans_lt (by decide)
  · split_ifs
    · exact fun _ hx => nomatch hx
    · intro x hx
      cases hx
      apply Plain.list
      intro v hv
      obtain ⟨s, hs, rfl⟩ := mem_map.mp hv
      exact Plain.str 30 ((h.item_length s hs).trans_lt (by decide))

theorem getItems_fields : getItems (.dict (present r.fields)) = some r.items := by
  have hget : dictGet (.dict (present r.fields)) (text ['i', 't', 'e', 'm', 's']) =
      if r.items.length = 0 then none else some (.list (r.items.map .str)) :=
    dictGet_fields (by simp [fields])
  unfold getItems
  by_cases hzero : r.items.length = 0
  · rw [hget, if_pos hzero, length_eq_zero_iff.mp hzero]
  · rw [hget, if_neg hzero]
    dsimp only
    rw [if_neg (by rw [length_map]; exact not_lt.mpr h.items_length),
      mapM_getItem h.item_length]

theorem norndIpcDecodeResp_frame (hout : norndIpcEncodeResp r cap = some out) (rest : Bytes) :
    norndIpcDecodeResp (out ++ rest) = some (r, out.length) := by
  rw [norndIpcEncodeResp_eq h] at hout
  have hok : getOk (.dict (present r.fields)) = some r.ok := by
    have hget : dictGet (.dict (present r.fields)) (text ['o', 'k']) =
        some (.int (if r.ok then 1 else 0)) := dictGet_fields (by simp [fields])
    rw [getOk, hget]
    cases r.ok <;> rfl
  have hval : getStr (.dict (present r.fields)) ['v', 'a', 'l'] norndIpcMaxVal = some r.val :=
    getStr_eq (dictGet_fields (by simp [fields])) h.val_length
  have herr : getStr (.dict (present r.fields)) ['e', 'r', 'r'] 255 = some r.err :=
    getStr_eq (dictGet_fields (by simp [fields])) h.err_length
  have htext : r.err.map cString = r.err := by
    cases he : r.err with
    | none => rfl
    | some s => rw [map_some, cString_eq_self (h.err_nulFree s he)]
  rw [norndIpcDecodeResp, decodeBody_ipcFrame hout (plain_fields h) rest]
  simp only [hok, hval, herr, getItems_fields h, bind_eq_bind, bind_some, htext]
  rfl

theorem isSome_encodeResp_iff :
    (norndIpcEncodeResp r (norndIpcMaxBody + 4)).isSome ↔ r.bodySize ≤ norndIpcMaxBody := by
  rw [norndIpcEncodeResp_eq h, isSome_ipcFrame_iff, length_encode_fields]

end
end NorndIpcResp

/-- The frame is read back before any bytes, and no part of it is a message. -/
structure FrameOf {α : Type} (decode : Bytes → Option (α × ℕ)) (r : α) (out : Bytes) : Prop where
  readBack : ∀ rest, decode (out ++ rest) = some (r, out.length)
  part : ∀ p, p <+: out → p ≠ out → norndIpcDecodeReq p = none ∧ norndIpcDecodeResp p = none

theorem not_message_of_decodeBody {p : Bytes} (h : decodeBody p = none) :
    norndIpcDecodeReq p = none ∧ norndIpcDecodeResp p = none := by
  rw [norndIpcDecodeReq, norndIpcDecodeResp, h]
  exact ⟨rfl, rfl⟩

/-- What the encoders accept is read back. -/
theorem ipc_messages_frames {req : NorndIpcReq} (hreq : req.InBounds) {resp : NorndIpcResp}
    (hresp : resp.InBounds) (cap : ℕ) :
    (∀ out, norndIpcEncodeReq req cap = some out → FrameOf norndIpcDecodeReq req out) ∧
      ∀ out, norndIpcEncodeResp resp cap = some out → FrameOf norndIpcDecodeResp resp out := by
  constructor
  · intro out hout
    refine ⟨NorndIpcReq.norndIpcDecodeReq_frame hreq hout, fun p hp hne => ?_⟩
    rw [NorndIpcReq.norndIpcEncodeReq_eq hreq] at hout
    exact not_message_of_decodeBody (decodeBody_of_part hout hp hne)
  · intro out hout
    refine ⟨NorndIpcResp.norndIpcDecodeResp_frame hresp hout, fun p hp hne => ?_⟩
    rw [NorndIpcResp.norndIpcEncodeResp_eq hresp] at hout
    exact not_message_of_decodeBody (decodeBody_of_part hout hp hne)

def sampleReq : NorndIpcReq :=
  ⟨text "cas".toList, [107], some [1, 0], some [], some (List.replicate 32 7), some (-5)⟩

def sampleResp : NorndIpcResp := ⟨false, none, some (text "no".toList), [[1], []]⟩

theorem sampleReq_inBounds : sampleReq.InBounds := by
  constructor <;> decide

theorem sampleResp_inBounds : sampleResp.InBounds := by
  constructor <;> decide

theorem sample_frames :
    FrameOf norndIpcDecodeReq sampleReq ((norndIpcEncodeReq sampleReq 120).getD []) ∧
      FrameOf norndIpcDecodeResp sampleResp ((norndIpcEncodeResp sampleResp 120).getD []) := by
  have h := ipc_messages_frames sampleReq_inBounds sampleResp_inBounds 120
  obtain ⟨req, hreq⟩ := isSome_iff_exists.mp
    (by decide +kernel : (norndIpcEncodeReq sampleReq 120).isSome)
  obtain ⟨resp, hresp⟩ := isSome_iff_exists.mp
    (by decide +kernel : (norndIpcEncodeResp sampleResp 120).isSome)
  rw [hreq, hresp]
  exact ⟨h.1 req hreq, h.2 resp hresp⟩

/-- A message within the limits is encoded if and only if its fields fit in a body together. -/
theorem ipc_encodable_iff {req : NorndIpcReq} (hreq : req.InBounds) {resp : NorndIpcResp}
    (hresp : resp.InBounds) :
    ((norndIpcEncodeReq req (norndIpcMaxBody + 4)).isSome ↔ req.bodySize ≤ norndIpcMaxBody) ∧
      ((norndIpcEncodeResp resp (norndIpcMaxBody + 4)).isSome ↔
        resp.bodySize ≤ norndIpcMaxBody) :=
  ⟨NorndIpcReq.isSome_encodeReq_iff hreq, NorndIpcResp.isSome_encodeResp_iff hresp⟩

theorem sample_encodable : (norndIpcEncodeReq sampleReq (norndIpcMaxBody + 4)).isSome ∧
    (norndIpcEncodeResp sampleResp (norndIpcMaxBody + 4)).isSome := by
  have h := ipc_encodable_iff sampleReq_inBounds sampleResp_inBounds
  exact ⟨h.1.mpr (by decide), h.2.mpr (by decide)⟩

def fullReq : NorndIpcReq :=
  ⟨text "cas".toList, [107], some (List.replicate 64000 1), some (List.replicate 64000 1), none,
    none⟩

def fullResp : NorndIpcResp :=
  ⟨true, some (replicate 64000 1), none, replicate 32 (replicate 256 1)⟩

theorem fullReq_inBounds : fullReq.InBounds where
  op_ne := by decide
  op_length := by decide
  op_nulFree := by decide
  key_length := by decide
  val_length v hv := by
    cases hv
    exact length_replicate.le
  expect_length v hv := by
    cases hv
    exact length_replicate.le
  id_length v hv := nomatch hv
  seq_range v hv := nomatch hv

theorem fullResp_inBounds : fullResp.InBounds where
  val_length v hv := by
    cases hv
    exact length_replicate.le
  err_length v hv := nomatch hv
  err_nulFree v hv := nomatch hv
  items_length := length_replicate.le
  item_length v hv := by
    rw [eq_of_mem_replicate hv]
    exact length_replicate.le

theorem full_messages_not_encoded :
    (fullReq.InBounds ∧ norndIpcEncodeReq fullReq (norndIpcMaxBody + 4) = none) ∧
      fullResp.InBounds ∧ norndIpcEncodeResp fullResp (norndIpcMaxBody + 4) = none := by
  refine ⟨⟨fullReq_inBounds, ?_⟩, fullResp_inBounds, ?_⟩
  · rw [← not_isSome_iff_eq_none, NorndIpcReq.isSome_encodeReq_iff fullReq_inBounds]
    have hsize : _ + _ ≤ fullReq.bodySize := NorndIpcReq.length_add_length_le_bodySize rfl rfl
    rw [length_replicate] at hsize
    unfold norndIpcMaxBody
    omega
  · rw [← not_isSome_iff_eq_none, NorndIpcResp.isSome_encodeResp_iff fullResp_inBounds]
    have hsize : _ + _ ≤ fullResp.bodySize := NorndIpcResp.length_add_sum_le_bodySize rfl
    have hitems : (fullResp.items.map length).sum = 32 * 256 := by
      simp only [fullResp, map_replicate, sum_replicate, length_replicate,
        smul_eq_mul]
    rw [hitems, length_replicate] at hsize
    unfold norndIpcMaxBody
    omega

end Norn
