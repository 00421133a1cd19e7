import Norn.Dht.Bencode
import Norn.Lib.Compact

/-!
# The store of DHT items

Targets and signed bytes of items (`bep44.c`) and the bounded store that a node keeps for the network
(`dhtstore.c`): a compact array of items with a byte counter and a budget.
-/

namespace Norn
open Norn.Compact List Bool

/-- What the DHT code uses of libsodium and of SHA-1. A signature is checked against a message and a
public key. -/
structure DhtCrypto where
  sha1 : Bytes → Bytes
  sign : Bytes → Bytes → Bytes
  verify : Bytes → Bytes → Bytes → Bool
  length_sha1 : ∀ m, (sha1 m).length = 20
  length_sign : ∀ secret m, (sign secret m).length = 64

def bep44MaxSalt : ℕ := 64

section
variable (C : DhtCrypto)

def bep44Target (pubkey : Bytes) : Bytes := C.sha1 pubkey

def bep44TargetForPubkey (pubkey : Bytes) : Bytes := C.sha1 (ascii 'k' :: pubkey)

def bep44TargetSalted (pubkey salt : Bytes) : Bytes := C.sha1 (pubkey ++ salt.take bep44MaxSalt)

def bep44ImmutableTarget (v : Bytes) : Option Bytes :=
  if 1000 < v.length then none else some (C.sha1 (Bencode.encodeString v))

end

def saltBytes (salt : Bytes) : Bytes :=
  if salt.length = 0 then []
  else text "4:salt".toList ++ Bencode.encodeString (salt.take bep44MaxSalt)

@[simp] theorem saltBytes_nil : saltBytes [] = [] := rfl

def valueBytes (seq : ℕ) (value : Bytes) : Bytes :=
  text "3:seqi".toList ++ decimal seq ++ text "e1:v".toList ++ Bencode.encodeString value

def bep44SignbufSalted (salt : Bytes) (seq : ℕ) (value : Bytes) (outcap : ℕ) : Option Bytes :=
  if outcap < (saltBytes salt ++ valueBytes seq value).length then none
  else some (saltBytes salt ++ valueBytes seq value)

def bep44Signbuf (seq : ℕ) (value : Bytes) (outcap : ℕ) : Option Bytes :=
  bep44SignbufSalted [] seq value outcap

variable {seq : ℕ} {value : Bytes}

theorem length_valueBytes_le (hseq : seq < 2 ^ 32) (hvalue : value.length < 10 ^ 4) :
    (valueBytes seq value).length ≤ value.length + 25 := by
  have hdigits := length_decimal_le (show 0 < 10 by decide) (show seq < 10 ^ 10 by omega)
  have hlen := length_decimal_le (show 0 < 4 by decide) hvalue
  simp only [valueBytes, Bencode.encodeString, length_append, length_cons]
  rw [show (text "3:seqi".toList).length = 6 from rfl, show (text "e1:v".toList).length = 4 from rfl]
  omega

theorem bep44Signbuf_eq_some (hseq : seq < 2 ^ 32) (hvalue : value.length ≤ 1000) {outcap : ℕ}
    (hcap : 1025 ≤ outcap) : bep44Signbuf seq value outcap = some (valueBytes seq value) := by
  have hlen := length_valueBytes_le hseq (show value.length < 10 ^ 4 by omega)
  rw [bep44Signbuf, bep44SignbufSalted, saltBytes_nil, nil_append, if_neg (by omega)]

def dhtstoreVmax : ℕ := 1000
def dhtstoreTtl : ℤ := 7200
def dhtstorePerIp : ℕ := 32
def dhtstoreMax : ℕ := 4096

structure DhtItem where
  immutable : Bool
  target : Bytes
  k : Bytes
  seq : ℕ
  v : Bytes
  sig : Bytes
  srcIp : ℕ
  stored : ℤ
  deriving DecidableEq

structure DhtStore where
  items : List DhtItem
  bytes : ℕ
  budget : ℕ
  deriving DecidableEq

def DhtItem.expired (now : ℤ) (e : DhtItem) : Bool := dhtstoreTtl < now - e.stored

namespace DhtStore
variable (s : DhtStore)

def removeAt (i : ℕ) : DhtStore :=
  { s with
    items := Compact.swapRemove s.items i
    bytes := s.bytes - ((s.items[i]?).elim 0 fun e => e.v.length) }

def expireLoop (now : ℤ) : ℕ → ℕ → DhtStore → DhtStore
  | 0, _, s => s
  | rounds + 1, i, s =>
    match s.items[i]? with
    | none => s
    | some e =>
      if e.expired now then expireLoop now rounds i (s.removeAt i)
      else expireLoop now rounds (i + 1) s

def expire (now : ℤ) (s : DhtStore) : DhtStore := expireLoop now s.items.length 0 s

def oldestFrom (oldest : ℕ) (stored : ℤ) : ℕ → List DhtItem → ℕ
  | _, [] => oldest
  | i, e :: items =>
    if e.stored < stored then oldestFrom i e.stored (i + 1) items
    else oldestFrom oldest stored (i + 1) items

def evictLru : DhtStore :=
  match s.items with
  | [] => s
  | e :: items => s.removeAt (oldestFrom 0 e.stored 1 items)

def perIpCount (ip : ℕ) : ℕ := s.items.countP fun e => e.srcIp = ip

def makeRoom (vlen : ℕ) : ℕ → DhtStore → DhtStore
  | 0, s => s
  | rounds + 1, s =>
    if (s.budget < s.bytes + vlen ∨ dhtstoreMax ≤ s.items.length) ∧ 0 < s.items.length then
      makeRoom vlen rounds s.evictLru
    else s

structure Entry where
  target : Bytes
  k : Bytes
  seq : ℕ
  v : Bytes
  sig : Bytes
  immutable : Bool
  srcIp : ℕ

def Entry.item (p : Entry) (now : ℤ) : DhtItem :=
  ⟨p.immutable, p.target, p.k, p.seq, p.v, p.sig, p.srcIp, now⟩

def storeHeld (now : ℤ) (p : Entry) (s : DhtStore) (i : ℕ) (e : DhtItem) : Bool × DhtStore :=
  if p.immutable then (true, { s with items := s.items.set i { e with stored := now } })
  else if p.seq ≤ e.seq then (false, s)
  else
    (true, { s with
      items := s.items.set i { p.item now with target := e.target }
      bytes := s.bytes - e.v.length + p.v.length })

def storeNew (now : ℤ) (p : Entry) (s : DhtStore) : Bool × DhtStore :=
  if dhtstorePerIp ≤ s.perIpCount p.srcIp then (false, s)
  else
    let s := makeRoom p.v.length s.items.length s
    if s.budget < s.bytes + p.v.length then (false, s)
    else (true, { s with items := s.items ++ [p.item now], bytes := s.bytes + p.v.length })

def storeItem (now : ℤ) (p : Entry) (s : DhtStore) : Bool × DhtStore :=
  let s := s.expire now
  match s.items.findIdx? fun e => e.target = p.target with
  | none => storeNew now p s
  | some i =>
    match s.items[i]? with
    | none => (false, s)
    | some e => storeHeld now p s i e

end DhtStore

def dhtstoreInit (budget : ℕ) : DhtStore := ⟨[], 0, budget⟩

section
variable (C : DhtCrypto)

def dhtstorePut (now : ℤ) (target k : Bytes) (seq : ℕ) (v sig salt : Bytes) (srcIp : ℕ)
    (s : DhtStore) : Bool × DhtStore :=
  if s.budget = 0 then (false, s)
  else if v.length = 0 ∨ dhtstoreVmax < v.length then (false, s)
  else
    match bep44SignbufSalted salt seq v (64 + dhtstoreVmax) with
    | none => (false, s)
    | some buf =>
      if C.verify sig buf k = false then (false, s)
      else if (if salt.length = 0 then bep44Target C k else bep44TargetSalted C k salt) ≠ target then
        (false, s)
      else s.storeItem now ⟨target, k, seq, v, sig, false, srcIp⟩

def dhtstorePutImmutable (now : ℤ) (v : Bytes) (srcIp : ℕ) (s : DhtStore) : Bool × DhtStore :=
  if s.budget = 0 then (false, s)
  else if v.length = 0 ∨ dhtstoreVmax < v.length then (false, s)
  else
    match bep44ImmutableTarget C v with
    | none => (false, s)
    | some target =>
      s.storeItem now ⟨target, .replicate 32 0, 0, v, .replicate 64 0, true, srcIp⟩

end

def dhtstoreGetEx (now : ℤ) (target : Bytes) (vcap : ℕ) (s : DhtStore) :
    Option DhtItem × DhtStore :=
  let s := s.expire now
  ((s.items.find? fun e => e.target = target).map fun e => { e with v := e.v.take vcap }, s)

def dhtstoreDel (target : Bytes) (s : DhtStore) : Bool × DhtStore :=
  match s.items.findIdx? fun e => e.target = target with
  | none => (false, s)
  | some i => (true, s.removeAt i)

def dhtstoreList (wantImmutable : Bool) (max : ℕ) (s : DhtStore) : List DhtItem :=
  (s.items.filter fun e => e.immutable = wantImmutable).take max

namespace DhtStore

theorem items_expireLoop (now : ℤ) (rounds i : ℕ) (s : DhtStore) :
    (expireLoop now rounds i s).items = sweep (DhtItem.expired now) rounds i s.items := by
  induction rounds generalizing i s with
  | zero => rfl
  | succ rounds ih =>
    rw [expireLoop, sweep]
    cases s.items[i]? with
    | none => rfl
    | some e =>
      dsimp only
      split_ifs
      · exact ih i (s.removeAt i)
      · exact ih (i + 1) s

theorem items_expire (now : ℤ) (s : DhtStore) :
    (s.expire now).items = sweep (DhtItem.expired now) s.items.length 0 s.items :=
  items_expireLoop now _ 0 s

theorem expire_perm (now : ℤ) (s : DhtStore) :
    (s.expire now).items.Perm (s.items.filter fun e => !e.expired now) := by
  rw [items_expire]
  apply sweep_perm_filter
  · omega
  · intro e he
    cases he

variable {now : ℤ} {s : DhtStore}

theorem mem_expire {e : DhtItem} :
    e ∈ (s.expire now).items ↔ e ∈ s.items ∧ e.expired now = false := by
  rw [(expire_perm now s).mem_iff, mem_filter, not_eq_true']

theorem items_expire_eq_self (h : ∀ e ∈ s.items, e.expired now = false) :
    (s.expire now).items = s.items := by
  rw [items_expire, sweep_eq_self h]

theorem budget_expireLoop (now : ℤ) (rounds i : ℕ) (s : DhtStore) :
    (expireLoop now rounds i s).budget = s.budget := by
  induction rounds generalizing i s with
  | zero => rfl
  | succ rounds ih =>
    rw [expireLoop]
    cases s.items[i]? with
    | none => rfl
    | some e =>
      dsimp only
      split_ifs
      · exact ih i (s.removeAt i)
      · exact ih (i + 1) s

theorem budget_expire (now : ℤ) (s : DhtStore) : (s.expire now).budget = s.budget :=
  budget_expireLoop now _ 0 s

theorem items_storeItem_of_nil (h : s.items = []) (now : ℤ) (p : Entry) :
    (s.storeItem now p).2.items = [] ∨ (s.storeItem now p).2.items = [p.item now] := by
  have hexpire : (s.expire now).items = [] := by
    rw [items_expire_eq_self, h]
    rw [h]
    exact forall_mem_nil _
  unfold storeItem storeNew
  dsimp only
  rw [hexpire, findIdx?_nil]
  dsimp only
  split_ifs
  · exact .inl hexpire
  · exact .inl hexpire
  · exact .inr (congrArg (· ++ [p.item now]) hexpire)

end DhtStore

variable (C : DhtCrypto)

theorem dhtstorePut_cases (now : ℤ) (target k : Bytes) (seq : ℕ) (v sig salt : Bytes)
    (srcIp : ℕ) (s : DhtStore) :
    dhtstorePut C now target k seq v sig salt srcIp s = (false, s) ∨
      C.verify sig (saltBytes salt ++ valueBytes seq v) k = true ∧
      (0 < v.length ∧ v.length ≤ dhtstoreVmax) ∧
      (if salt.length = 0 then bep44Target C k else bep44TargetSalted C k salt) = target ∧
      s.budget ≠ 0 ∧
      dhtstorePut C now target k seq v sig salt srcIp s =
        s.storeItem now ⟨target, k, seq, v, sig, false, srcIp⟩ := by
  unfold dhtstorePut bep44SignbufSalted
  by_cases hbudget : s.budget = 0
  · exact .inl (if_pos hbudget)
  by_cases hlen : v.length = 0 ∨ dhtstoreVmax < v.length
  · rw [if_neg hbudget, if_pos hlen]
    exact .inl rfl
  by_cases hcap : 64 + dhtstoreVmax < (saltBytes salt ++ valueBytes seq v).length
  · rw [if_neg hbudget, if_neg hlen, if_pos hcap]
    exact .inl rfl
  rw [if_neg hbudget, if_neg hlen, if_neg hcap]
  dsimp only
  by_cases hverify : C.verify sig (saltBytes salt ++ valueBytes seq v) k = false
  · rw [if_pos hverify]
    exact .inl rfl
  rw [if_neg hverify]
  by_cases htarget : (if salt.length = 0 then bep44Target C k else bep44TargetSalted C k salt) = target
  · rw [if_neg (not_not_intro htarget)]
    exact .inr ⟨eq_true_of_not_eq_false hverify, by omega, htarget, hbudget, rfl⟩
  · rw [if_pos htarget]
    exact .inl rfl

def dhtstoreBudget (budgetMb : ℤ) (clientOnly : Bool) (ram : ℕ) : ℕ :=
  if clientOnly then 0
  else if 0 < budgetMb then budgetMb.toNat * 1024 * 1024
  else min (max (if ram = 0 then 2 * 1024 * 1024 else ram / 512) (2 * 1024 * 1024)) (64 * 1024 * 1024)

inductive DhtStore.Reachable (C : DhtCrypto) : DhtStore → Prop where
  | idle : Reachable C (dhtstoreInit 0)
  | init (budgetMb : ℤ) (clientOnly : Bool) (ram : ℕ) :
      Reachable C (dhtstoreInit (dhtstoreBudget budgetMb clientOnly ram))
  | put {s : DhtStore} (h : Reachable C s) (now : ℤ) (target : Bytes) {k : Bytes} {seq : ℕ}
      (v : Bytes) {sig : Bytes} (salt : Bytes) (srcIp : ℕ) (hk : k.length = 32)
      (hseq : seq < 2 ^ 32) (hsig : sig.length = 64) :
      Reachable C (dhtstorePut C now target k seq v sig salt srcIp s).2
  | putImmutable {s : DhtStore} (h : Reachable C s) (now : ℤ) (v : Bytes) (srcIp : ℕ) :
      Reachable C (dhtstorePutImmutable C now v srcIp s).2
  | get {s : DhtStore} (h : Reachable C s) (now : ℤ) (target : Bytes) (vcap : ℕ) :
      Reachable C (dhtstoreGetEx now target vcap s).2
  | del {s : DhtStore} (h : Reachable C s) (target : Bytes) : Reachable C (dhtstoreDel target s).2

structure DhtItem.Valid (C : DhtCrypto) (e : DhtItem) : Prop where
  length_target : e.target.length = 20
  length_k : e.k.length = 32
  length_sig : e.sig.length = 64
  seq_lt : e.seq < 2 ^ 32
  v_pos : 0 < e.v.length
  v_le : e.v.length ≤ dhtstoreVmax
  of_immutable : e.immutable = true →
    e.k = .replicate 32 0 ∧ e.sig = .replicate 64 0 ∧ e.seq = 0 ∧
      e.target = C.sha1 (Bencode.encodeString e.v)

namespace DhtStore
variable {C : DhtCrypto} {s : DhtStore}

/-- No target twice, valid items, and a budget. -/
structure Sound (C : DhtCrypto) (s : DhtStore) : Prop where
  nodup : (s.items.map DhtItem.target).Nodup
  valid : ∀ e ∈ s.items, e.Valid C
  budget : s.budget = 0 ∧ s.items = [] ∨ 2 ^ 20 ≤ s.budget

variable {s' : DhtStore} {e : DhtItem} {i : ℕ} {p : Entry}

theorem Sound.of_perm (h : Sound C s) {gone : List DhtItem}
    (hperm : s.items.Perm (gone ++ s'.items)) (hbudget : s'.budget = s.budget) : Sound C s' := by
  have hnodup := (hperm.map DhtItem.target).nodup_iff.mp h.nodup
  rw [map_append] at hnodup
  refine ⟨(nodup_append.mp hnodup).2.1, ?_, ?_⟩
  · intro e he
    exact h.valid e (hperm.mem_iff.mpr (mem_append_right gone he))
  · rw [hbudget]
    rcases h.budget with ⟨hzero, hnil⟩ | hle
    · rw [hnil] at hperm
      exact .inl ⟨hzero, (append_eq_nil_iff.mp hperm.nil_eq.symm).2⟩
    · exact .inr hle

theorem Sound.removeAt (h : Sound C s) (i : ℕ) : Sound C (s.removeAt i) := by
  obtain ⟨gone, hperm⟩ := exists_perm_swapRemove s.items i
  exact h.of_perm hperm rfl

theorem Sound.expire (h : Sound C s) (now : ℤ) : Sound C (s.expire now) := by
  have hperm := (filter_append_perm (DhtItem.expired now) s.items).symm
  exact h.of_perm (hperm.trans ((expire_perm now s).symm.append_left _)) (budget_expire now s)

theorem expireLoop_eq_self {now : ℤ} (h : ∀ e ∈ s.items, e.expired now = false) (rounds i : ℕ) :
    expireLoop now rounds i s = s := by
  induction rounds generalizing i with
  | zero => rfl
  | succ rounds ih =>
    rw [expireLoop]
    cases hget : s.items[i]? with
    | none => rfl
    | some e =>
      dsimp only
      rw [if_neg (by rw [h e (mem_of_getElem? hget)]; exact false_ne_true)]
      exact ih (i + 1)

@[simp] theorem expire_expire (now : ℤ) (s : DhtStore) : (s.expire now).expire now = s.expire now :=
  expireLoop_eq_self (fun _ he => (mem_expire.mp he).2) _ _

theorem Sound.get_of_mem (h : Sound C s) (now : ℤ) (he : e ∈ s.items) (vcap : ℕ) :
    (dhtstoreGetEx now e.target vcap s).1 =
      if e.expired now then none else some { e with v := e.v.take vcap } := by
  unfold dhtstoreGetEx
  dsimp only
  split_ifs with hexpired
  · rw [find?_eq_none.mpr, Option.map_none]
    intro x hx hxe
    obtain ⟨hmem, hfresh⟩ := mem_expire.mp hx
    have hsame := inj_on_of_nodup_map h.nodup hmem he (of_decide_eq_true hxe)
    rw [hsame, hexpired] at hfresh
    cases hfresh
  · have hmem := mem_expire.mpr ⟨he, eq_false_of_not_eq_true hexpired⟩
    rw [find?_key (h.expire now).nodup hmem, Option.map_some]

theorem exists_perm_makeRoom (vlen rounds : ℕ) (s : DhtStore) :
    (∃ gone, s.items.Perm (gone ++ (makeRoom vlen rounds s).items)) ∧
      (makeRoom vlen rounds s).budget = s.budget := by
  induction rounds generalizing s with
  | zero => exact ⟨⟨[], Perm.refl _⟩, rfl⟩
  | succ rounds ih =>
    rw [makeRoom]
    split_ifs
    · have hevict : (∃ gone, s.items.Perm (gone ++ s.evictLru.items)) ∧
          s.evictLru.budget = s.budget := by
        unfold evictLru
        split
        · exact ⟨⟨[], Perm.refl _⟩, rfl⟩
        · exact ⟨exists_perm_swapRemove _ _, rfl⟩
      obtain ⟨⟨gone, hperm⟩, hbudget⟩ := hevict
      obtain ⟨⟨gone', hperm'⟩, hbudget'⟩ := ih s.evictLru
      refine ⟨⟨gone ++ gone', ?_⟩, hbudget'.trans hbudget⟩
      rw [append_assoc]
      exact hperm.trans (hperm'.append_left gone)
    · exact ⟨⟨[], Perm.refl _⟩, rfl⟩

theorem Sound.set (h : Sound C s) (e' : DhtItem) (hget : s.items[i]? = some e)
    (htarget : e'.target = e.target) (he : e'.Valid C) (hitems : s'.items = s.items.set i e')
    (hbudget : s'.budget = s.budget) : Sound C s' := by
  refine ⟨?_, ?_, ?_⟩
  · rw [hitems, map_set_key hget htarget]
    exact h.nodup
  · intro x hx
    rw [hitems] at hx
    rcases mem_or_eq_of_mem_set hx with hx | rfl
    · exact h.valid x hx
    · exact he
  · rw [hbudget]
    rcases h.budget with ⟨-, hnil⟩ | hle
    · rw [hnil] at hget
      cases hget
    · exact .inr hle

theorem Sound.append (h : Sound C s) (hnew : ∀ x ∈ s.items, x.target ≠ e.target) (he : e.Valid C)
    (hserving : s.budget ≠ 0) (hitems : s'.items = s.items ++ [e])
    (hbudget : s'.budget = s.budget) : Sound C s' := by
  refine ⟨?_, ?_, ?_⟩
  · rw [hitems]
    exact nodup_map_concat h.nodup hnew
  · intro x hx
    rw [hitems, mem_append, mem_singleton] at hx
    rcases hx with hx | rfl
    · exact h.valid x hx
    · exact he
  · rw [hbudget]
    exact .inr (h.budget.resolve_left fun hzero => hserving hzero.1)

theorem Sound.storeNew (h : Sound C s) (now : ℤ) (hp : (p.item now).Valid C)
    (hnew : ∀ x ∈ s.items, x.target ≠ p.target) (hserving : s.budget ≠ 0) :
    Sound C (DhtStore.storeNew now p s).2 := by
  obtain ⟨⟨gone, hperm⟩, hbudget⟩ := exists_perm_makeRoom p.v.length s.items.length s
  have hroom := h.of_perm hperm hbudget
  unfold DhtStore.storeNew
  dsimp only
  split_ifs
  · exact h
  · exact hroom
  · refine hroom.append ?_ hp (hbudget ▸ hserving) rfl rfl
    intro x hx
    exact hnew x (hperm.mem_iff.mpr (mem_append_right gone hx))

theorem Sound.storeHeld (h : Sound C s) (now : ℤ) (hp : (p.item now).Valid C)
    (hget : s.items[i]? = some e) (htarget : e.target = p.target) :
    Sound C (DhtStore.storeHeld now p s i e).2 := by
  have he := h.valid e (mem_of_getElem? hget)
  unfold DhtStore.storeHeld
  split_ifs
  · have he' : ({ e with stored := now } : DhtItem).Valid C :=
      ⟨he.length_target, he.length_k, he.length_sig, he.seq_lt, he.v_pos, he.v_le, he.of_immutable⟩
    exact h.set { e with stored := now } hget rfl he' rfl rfl
  · exact h
  · have hp' : ({ p.item now with target := e.target } : DhtItem).Valid C := by
      rw [htarget]
      exact hp
    exact h.set { p.item now with target := e.target } hget rfl hp' rfl rfl

theorem Sound.storeItem (h : Sound C s) (now : ℤ) (hp : (p.item now).Valid C)
    (hserving : s.budget ≠ 0) : Sound C (DhtStore.storeItem now p s).2 := by
  have hexpire := h.expire now
  unfold DhtStore.storeItem
  dsimp only
  cases hfind : (s.expire now).items.findIdx? fun e => e.target = p.target with
  | none =>
    exact hexpire.storeNew now hp (ne_of_findIdx?_eq_none hfind)
      (by rw [budget_expire]; exact hserving)
  | some i =>
    obtain ⟨e, hget, htarget⟩ := getElem?_of_findIdx? hfind
    dsimp only
    rw [hget]
    exact hexpire.storeHeld now hp hget htarget

end DhtStore

theorem DhtCrypto.length_target (k salt : Bytes) :
    (if salt.length = 0 then bep44Target C k else bep44TargetSalted C k salt).length = 20 := by
  split_ifs
  · exact C.length_sha1 _
  · exact C.length_sha1 _

theorem dhtstorePutImmutable_cases (now : ℤ) (v : Bytes) (srcIp : ℕ) (s : DhtStore) :
    dhtstorePutImmutable C now v srcIp s = (false, s) ∨
      (0 < v.length ∧ v.length ≤ dhtstoreVmax) ∧ s.budget ≠ 0 ∧
      dhtstorePutImmutable C now v srcIp s = s.storeItem now
        ⟨C.sha1 (Bencode.encodeString v), .replicate 32 0, 0, v, .replicate 64 0, true, srcIp⟩ := by
  unfold dhtstorePutImmutable bep44ImmutableTarget
  by_cases hbudget : s.budget = 0
  · exact .inl (if_pos hbudget)
  by_cases hlen : v.length = 0 ∨ dhtstoreVmax < v.length
  · rw [if_neg hbudget, if_pos hlen]
    exact .inl rfl
  rw [if_neg hbudget, if_neg hlen]
  unfold dhtstoreVmax at hlen ⊢
  rw [if_neg (by omega)]
  exact .inr ⟨by omega, hbudget, rfl⟩

theorem DhtStore.Reachable.sound {C : DhtCrypto} {s : DhtStore} (h : Reachable C s) : Sound C s := by
  induction h with
  | idle => exact ⟨nodup_nil, forall_mem_nil _, .inl ⟨rfl, rfl⟩⟩
  | init budgetMb clientOnly ram =>
    refine ⟨nodup_nil, forall_mem_nil _, ?_⟩
    change dhtstoreBudget budgetMb clientOnly ram = 0 ∧ _ ∨
      2 ^ 20 ≤ dhtstoreBudget budgetMb clientOnly ram
    unfold dhtstoreBudget
    split_ifs
    · exact .inl ⟨rfl, rfl⟩
    · right
      omega
    · right
      omega
    · right
      omega
  | put h now target v salt srcIp hk hseq hsig ih =>
    rename_i s k seq sig
    rcases dhtstorePut_cases C now target k seq v sig salt srcIp s with
      heq | ⟨-, hlen, htarget, hserving, heq⟩
    · rw [heq]
      exact ih
    · rw [heq]
      refine ih.storeItem now ⟨?_, hk, hsig, hseq, hlen.1, hlen.2, fun h => absurd h false_ne_true⟩
        hserving
      change target.length = 20
      rw [← htarget]
      exact C.length_target k salt
  | putImmutable h now v srcIp ih =>
    rename_i s
    rcases dhtstorePutImmutable_cases C now v srcIp s with heq | ⟨hlen, hserving, heq⟩
    · rw [heq]
      exact ih
    · rw [heq]
      exact ih.storeItem now ⟨C.length_sha1 _, length_replicate, length_replicate,
        (show 0 < 2 ^ 32 by decide), hlen.1, hlen.2, fun _ => ⟨rfl, rfl, rfl, rfl⟩⟩ hserving
  | get h now target vcap ih => exact ih.expire now
  | del h target ih =>
    unfold dhtstoreDel
    split
    · exact ih
    · exact ih.removeAt _

end Norn
