import Norn.Lib.Run
import Norn.Dht.Store

/-!
# The calls of the item store

What a call does to the items, up to their order, in any run of the store.
-/

namespace Norn
open List Norn.Compact

structure SignedPut where
  target : Bytes
  k : Bytes
  seq : ℕ
  v : Bytes
  sig : Bytes
  salt : Bytes
  srcIp : ℕ

namespace SignedPut
variable (p : SignedPut)

def WellTyped : Prop := p.k.length = 32 ∧ p.seq < 2 ^ 32 ∧ p.sig.length = 64

def entry : DhtStore.Entry := ⟨p.target, p.k, p.seq, p.v, p.sig, false, p.srcIp⟩

@[simp] theorem srcIp_item (now : ℤ) : (p.entry.item now).srcIp = p.srcIp := rfl

structure Checks (C : DhtCrypto) (p : SignedPut) : Prop where
  v_pos : 0 < p.v.length
  v_le : p.v.length ≤ dhtstoreVmax
  fits : (saltBytes p.salt ++ valueBytes p.seq p.v).length ≤ 64 + dhtstoreVmax
  verify : C.verify p.sig (saltBytes p.salt ++ valueBytes p.seq p.v) p.k = true
  target_eq : (if p.salt.length = 0 then bep44Target C p.k else bep44TargetSalted C p.k p.salt) =
    p.target

end SignedPut

inductive ItemCall
  | put (now : ℤ) (p : SignedPut)
  | putImmutable (now : ℤ) (v : Bytes) (srcIp : ℕ)
  | get (now : ℤ) (target : Bytes) (vcap : ℕ)
  | del (target : Bytes)

instance : Inhabited ItemCall := ⟨.del []⟩

def ItemCall.WellTyped : ItemCall → Prop
  | .put _ p => p.WellTyped
  | _ => True

def ItemCall.time : ItemCall → Option ℤ
  | .put now _ => some now
  | .putImmutable now _ _ => some now
  | .get now _ _ => some now
  | .del _ => none

def DhtItem.Signed (C : DhtCrypto) (e : DhtItem) : Prop :=
  e.immutable = false → ∃ salt, C.verify e.sig (saltBytes salt ++ valueBytes e.seq e.v) e.k = true ∧
    (if salt.length = 0 then bep44Target C e.k else bep44TargetSalted C e.k salt) = e.target

variable {p : SignedPut}

theorem SignedPut.Checks.signed {C : DhtCrypto} (h : p.Checks C) (now : ℤ) :
    (p.entry.item now).Signed C :=
  fun _ => ⟨p.salt, h.verify, h.target_eq⟩

def heldBytes (items : List DhtItem) : ℕ := (items.map fun e => e.v.length).sum

theorem heldBytes_cons (e : DhtItem) (items : List DhtItem) :
    heldBytes (e :: items) = e.v.length + heldBytes items := rfl

theorem heldBytes_append (items items' : List DhtItem) :
    heldBytes (items ++ items') = heldBytes items + heldBytes items' := by
  rw [heldBytes, map_append, sum_append]
  rfl

theorem heldBytes_perm {items items' : List DhtItem} (h : items.Perm items') :
    heldBytes items = heldBytes items' :=
  (h.map _).sum_eq

namespace DhtStore
variable (C : DhtCrypto)

def put (now : ℤ) (p : SignedPut) (s : DhtStore) : Bool × DhtStore :=
  dhtstorePut C now p.target p.k p.seq p.v p.sig p.salt p.srcIp s

def call (s : DhtStore) : ItemCall → DhtStore
  | .put now p => (s.put C now p).2
  | .putImmutable now v srcIp => (dhtstorePutImmutable C now v srcIp s).2
  | .get now target vcap => (dhtstoreGetEx now target vcap s).2
  | .del target => (dhtstoreDel target s).2

def system : System DhtStore ItemCall where
  init s := s = dhtstoreInit 0 ∨
    ∃ mb clientOnly ram, s = dhtstoreInit (dhtstoreBudget mb clientOnly ram)
  next s c s' := c.WellTyped ∧ s' = s.call C c

def unexpired (now : ℤ) (s : DhtStore) : List DhtItem := s.items.filter fun e => !e.expired now

variable {C : DhtCrypto} {s : DhtStore} {now : ℤ} {e : DhtItem} {c : ItemCall}

theorem mem_unexpired : e ∈ s.unexpired now ↔ e ∈ s.items ∧ e.expired now = false := by
  rw [unexpired, mem_filter, Bool.not_eq_true']

theorem exists_perm_unexpired (now : ℤ) (s : DhtStore) :
    ∃ gone, s.items.Perm (gone ++ s.unexpired now) :=
  ⟨_, (filter_append_perm (DhtItem.expired now) s.items).symm⟩

theorem expire_perm_unexpired (now : ℤ) (s : DhtStore) :
    (s.expire now).items.Perm (s.unexpired now) :=
  expire_perm now s

theorem reachable_call (h : Reachable C s) (hc : c.WellTyped) : Reachable C (s.call C c) := by
  cases c with
  | put now p => exact h.put now p.target p.v p.salt p.srcIp hc.1 hc.2.1 hc.2.2
  | putImmutable now v srcIp => exact h.putImmutable now v srcIp
  | get now target vcap => exact h.get now target vcap
  | del target => exact h.del target

theorem reachable_of_run (run : Run (system C)) : ∀ k ≤ run.len, Reachable C (run.state k) := by
  refine run.invariant ?_ ?_
  · rintro s (rfl | ⟨mb, clientOnly, ram, rfl⟩)
    · exact .idle
    · exact .init mb clientOnly ram
  · intro k hk hreach
    obtain ⟨hc, heq⟩ := run.steps k hk
    rw [heq]
    exact reachable_call hreach hc

theorem put_eq (hserving : s.budget ≠ 0) (hp : p.Checks C) (now : ℤ) :
    s.put C now p = s.storeItem now p.entry := by
  have hlen : ¬ (p.v.length = 0 ∨ dhtstoreVmax < p.v.length) := by
    have := hp.v_pos
    have := hp.v_le
    omega
  unfold put dhtstorePut bep44SignbufSalted
  rw [if_neg hserving, if_neg hlen, if_neg (not_lt.mpr hp.fits)]
  dsimp only
  rw [if_neg (by rw [hp.verify]; decide), if_neg (not_not_intro hp.target_eq)]
  rfl

theorem put_cases (C : DhtCrypto) (s : DhtStore) (now : ℤ) (p : SignedPut) :
    s.put C now p = (false, s) ∨
      s.budget ≠ 0 ∧ p.Checks C ∧ s.put C now p = s.storeItem now p.entry := by
  by_cases hfits : (saltBytes p.salt ++ valueBytes p.seq p.v).length ≤ 64 + dhtstoreVmax
  · rcases dhtstorePut_cases C now p.target p.k p.seq p.v p.sig p.salt p.srcIp s with
      heq | ⟨hverify, hlen, htarget, hserving, heq⟩
    · exact .inl heq
    · exact .inr ⟨hserving, ⟨hlen.1, hlen.2, hfits, hverify, htarget⟩, heq⟩
  · left
    unfold put dhtstorePut bep44SignbufSalted
    rw [if_pos (not_le.mp hfits)]
    dsimp only
    split_ifs <;> rfl

theorem call_cases {P : DhtStore → Prop} (same : P s)
    (stored : ∀ now p, P (s.storeItem now p).2) (swept : ∀ now, P (s.expire now))
    (removed : ∀ i e, s.items[i]? = some e → P (s.removeAt i)) (c : ItemCall) : P (s.call C c) := by
  cases c with
  | put now p =>
    change P (s.put C now p).2
    rcases put_cases C s now p with heq | ⟨_, _, heq⟩
    · rw [heq]
      exact same
    · rw [heq]
      exact stored now p.entry
  | putImmutable now v srcIp =>
    change P (dhtstorePutImmutable C now v srcIp s).2
    rcases dhtstorePutImmutable_cases C now v srcIp s with heq | ⟨_, _, heq⟩
    · rw [heq]
      exact same
    · rw [heq]
      exact stored now _
  | get now target vcap => exact swept now
  | del target =>
    change P (dhtstoreDel target s).2
    unfold dhtstoreDel
    cases hfind : s.items.findIdx? fun e => e.target = target with
    | none => exact same
    | some i =>
      obtain ⟨e, hget, -⟩ := getElem?_of_findIdx? hfind
      exact removed i e hget

theorem storeItem_cases {P : Bool × DhtStore → Prop} {p : Entry}
    (refreshed : ∀ i e, (s.expire now).items[i]? = some e → e.target = p.target →
      p.immutable = true → P (true, { s.expire now with
        items := (s.expire now).items.set i { e with stored := now } }))
    (stale : ∀ e ∈ (s.expire now).items, e.target = p.target → p.immutable = false →
      p.seq ≤ e.seq → P (false, s.expire now))
    (replaced : ∀ i e, (s.expire now).items[i]? = some e → e.target = p.target →
      p.immutable = false → e.seq < p.seq → P (true, { s.expire now with
        items := (s.expire now).items.set i (p.item now)
        bytes := (s.expire now).bytes - e.v.length + p.v.length }))
    (new : (∀ x ∈ (s.expire now).items, x.target ≠ p.target) → P (storeNew now p (s.expire now))) :
    P (s.storeItem now p) := by
  unfold storeItem
  dsimp only
  cases hfind : (s.expire now).items.findIdx? fun e => e.target = p.target with
  | none => exact new (ne_of_findIdx?_eq_none hfind)
  | some i =>
    obtain ⟨e, hget, htarget⟩ := getElem?_of_findIdx? hfind
    dsimp only
    rw [hget]
    dsimp only
    unfold storeHeld
    split_ifs with himm hseq
    · exact refreshed i e hget htarget himm
    · exact stale e (mem_of_getElem? hget) htarget (Bool.eq_false_of_not_eq_true himm) hseq
    · have hitem : ({ p.item now with target := e.target } : DhtItem) = p.item now := by
        rw [htarget]
        rfl
      rw [hitem]
      exact replaced i e hget htarget (Bool.eq_false_of_not_eq_true himm) (not_le.mp hseq)

/-- The byte counter is the sum of the lengths. -/
def Accounted (s : DhtStore) : Prop := s.bytes = heldBytes s.items

theorem Accounted.removeAt (h : s.Accounted) {i : ℕ} (hget : s.items[i]? = some e) :
    (s.removeAt i).Accounted := by
  have hsum := heldBytes_perm (perm_cons_swapRemove hget).1
  rw [heldBytes_cons, ← h] at hsum
  unfold Accounted DhtStore.removeAt
  rw [hget, Option.elim_some]
  exact Nat.sub_eq_of_eq_add' hsum

theorem Accounted.expireLoop (h : s.Accounted) (now : ℤ) (rounds i : ℕ) :
    (expireLoop now rounds i s).Accounted := by
  induction rounds generalizing i s with
  | zero => exact h
  | succ rounds ih =>
    rw [DhtStore.expireLoop]
    cases hget : s.items[i]? with
    | none => exact h
    | some e =>
      dsimp only
      split_ifs
      · exact ih (h.removeAt hget) i
      · exact ih h (i + 1)

theorem Accounted.expire (h : s.Accounted) (now : ℤ) : (s.expire now).Accounted :=
  h.expireLoop now _ 0

theorem oldestFrom_lt {oldest i : ℕ} (h : oldest < i) (stored : ℤ) (items : List DhtItem) :
    oldestFrom oldest stored i items < i + items.length := by
  induction items generalizing oldest i stored with
  | nil => exact h
  | cons e items ih =>
    rw [oldestFrom, length_cons, ← Nat.add_assoc, Nat.add_right_comm]
    split_ifs
    · exact ih (Nat.lt_succ_self i) e.stored
    · exact ih (Nat.lt_succ_of_lt h) stored

theorem evictLru_eq (h : s.items ≠ []) : ∃ i e, s.items[i]? = some e ∧ s.evictLru = s.removeAt i := by
  cases hitems : s.items with
  | nil => exact absurd hitems h
  | cons e items =>
    have hlt : oldestFrom 0 e.stored 1 items < (e :: items).length := by
      rw [length_cons, Nat.add_comm]
      exact oldestFrom_lt Nat.zero_lt_one e.stored items
    refine ⟨oldestFrom 0 e.stored 1 items, _, getElem?_eq_getElem hlt, ?_⟩
    unfold evictLru
    rw [hitems]

theorem Accounted.makeRoom (h : s.Accounted) (vlen rounds : ℕ) :
    (makeRoom vlen rounds s).Accounted := by
  induction rounds generalizing s with
  | zero => exact h
  | succ rounds ih =>
    rw [DhtStore.makeRoom]
    split_ifs with hfull
    · obtain ⟨i, e, hget, heq⟩ := evictLru_eq (ne_nil_of_length_pos hfull.2)
      rw [heq]
      exact ih (h.removeAt hget)
    · exact h

theorem makeRoom_spec (vlen : ℕ) {rounds : ℕ} (h : s.items.length ≤ rounds) :
    (makeRoom vlen rounds s).items = [] ∨ (makeRoom vlen rounds s).bytes + vlen ≤ s.budget ∧
        (makeRoom vlen rounds s).items.length < dhtstoreMax := by
  induction rounds generalizing s with
  | zero => exact .inl (length_eq_zero_iff.mp (Nat.le_zero.mp h))
  | succ rounds ih =>
    rw [makeRoom]
    split_ifs with hfull
    · obtain ⟨i, e, hget, heq⟩ := evictLru_eq (ne_nil_of_length_pos hfull.2)
      have hlen := (perm_cons_swapRemove hget).1.length_eq
      rw [length_cons] at hlen
      rw [heq]
      refine ih (s := s.removeAt i) ?_
      change (Compact.swapRemove s.items i).length ≤ rounds
      omega
    · by_cases hnil : s.items = []
      · exact .inl hnil
      · right
        have hpos := length_pos_of_ne_nil hnil
        have hroom : ¬ (s.budget < s.bytes + vlen ∨ dhtstoreMax ≤ s.items.length) :=
          fun hor => hfull ⟨hor, hpos⟩
        rw [not_or, not_lt, not_le] at hroom
        exact hroom

theorem Accounted.storeItem (h : s.Accounted) (now : ℤ) (p : Entry) :
    (s.storeItem now p).2.Accounted := by
  have hexpire := h.expire now
  refine storeItem_cases (P := fun out => out.2.Accounted) ?_ ?_ ?_ ?_
  · intro i e hget _ _
    obtain ⟨rest, hperm, hset⟩ := exists_perm_set hget
    have hsame : heldBytes ((s.expire now).items.set i { e with stored := now }) =
        heldBytes (s.expire now).items := by
      rw [heldBytes_perm (hset _), heldBytes_perm hperm]
      rfl
    exact hexpire.trans hsame.symm
  · intro e _ _ _ _
    exact hexpire
  · intro i e hget _ _ _
    obtain ⟨rest, hperm, hset⟩ := exists_perm_set hget
    have hsum : (s.expire now).bytes = e.v.length + heldBytes rest :=
      hexpire.trans (heldBytes_perm hperm)
    have hnew : heldBytes ((s.expire now).items.set i (p.item now)) = p.v.length + heldBytes rest :=
      heldBytes_perm (hset _)
    change (s.expire now).bytes - e.v.length + p.v.length = heldBytes (_ : List DhtItem)
    rw [hnew, hsum]
    omega
  · intro _
    have hroom := hexpire.makeRoom p.v.length (s.expire now).items.length
    unfold storeNew
    dsimp only
    split_ifs
    · exact hexpire
    · exact hroom
    · unfold Accounted
      rw [heldBytes_append, ← hroom]
      rfl

theorem Accounted.call (h : s.Accounted) (c : ItemCall) : (s.call C c).Accounted :=
  call_cases h h.storeItem h.expire (fun _ _ hget => h.removeAt hget) c

theorem Reachable.accounted (h : Reachable C s) : s.Accounted := by
  induction h with
  | idle | init mb clientOnly ram => rfl
  | put h now target v salt srcIp hk hseq hsig ih =>
    rename_i s k seq sig
    exact ih.call (.put now ⟨target, k, seq, v, sig, salt, srcIp⟩)
  | putImmutable h now v srcIp ih => exact ih.call (.putImmutable now v srcIp)
  | get h now target vcap ih => exact ih.call (C := C) (.get now target vcap)
  | del h target ih => exact ih.call (C := C) (.del target)

/-- All that a call can do to the items, up to their order. -/
inductive Turnover (C : DhtCrypto) (s : DhtStore) : ItemCall → List DhtItem → Prop
  | lost {c : ItemCall} {items gone : List DhtItem} (perm : s.items.Perm (gone ++ items)) :
      Turnover C s c items
  | refreshed {now : ℤ} {v : Bytes} {srcIp : ℕ} {e : DhtItem} {items rest : List DhtItem}
      (held : (s.unexpired now).Perm (e :: rest))
      (perm : items.Perm ({ e with stored := now } :: rest)) :
      Turnover C s (.putImmutable now v srcIp) items
  | replaced {now : ℤ} {p : SignedPut} {e : DhtItem} {items rest : List DhtItem}
      (checks : p.Checks C) (held : (s.unexpired now).Perm (e :: rest))
      (target : e.target = p.target) (newer : e.seq < p.seq)
      (perm : items.Perm (p.entry.item now :: rest)) :
      Turnover C s (.put now p) items
  | added {c : ItemCall} {now : ℤ} {x : DhtItem} {items gone kept : List DhtItem}
      (time : c.time = some now) (held : (s.unexpired now).Perm (gone ++ kept))
      (new : ∀ y ∈ s.unexpired now, y.target ≠ x.target) (signed : x.Signed C)
      (source : (s.unexpired now).countP (fun y => y.srcIp = x.srcIp) < dhtstorePerIp)
      (room : heldBytes kept + x.v.length ≤ s.budget) (count : kept.length < dhtstoreMax)
      (perm : items.Perm (x :: kept)) : Turnover C s c items

theorem turnover_storeNew (h : s.Accounted) (htime : c.time = some now) {p : Entry}
    (hnew : ∀ x ∈ (s.expire now).items, x.target ≠ p.target) (hsigned : (p.item now).Signed C) :
    Turnover C s c (storeNew now p (s.expire now)).2.items := by
  obtain ⟨swept, hswept⟩ := exists_perm_unexpired now s
  have hfresh := expire_perm_unexpired now s
  obtain ⟨⟨gone, hgone⟩, hbudget⟩ :=
    exists_perm_makeRoom p.v.length (s.expire now).items.length (s.expire now)
  have hroom := (h.expire now).makeRoom p.v.length (s.expire now).items.length
  have hspec := makeRoom_spec p.v.length (le_refl (s.expire now).items.length)
  unfold storeNew
  dsimp only
  split_ifs with hcap hbig
  · exact .lost (hswept.trans (hfresh.symm.append_left swept))
  · have hlost := hswept.trans ((hfresh.symm.trans hgone).append_left swept)
    rw [← append_assoc] at hlost
    exact .lost hlost
  · refine .added htime (hfresh.symm.trans hgone) ?_ hsigned ?_ ?_ ?_
      (perm_append_singleton _ _)
    · intro y hy
      exact hnew y (hfresh.mem_iff.mpr hy)
    · rw [← hfresh.countP_eq]
      exact not_le.mp hcap
    · rw [← hroom, ← budget_expire now s, ← hbudget]
      exact not_lt.mp hbig
    · rcases hspec with hnil | ⟨_, hcount⟩
      · rw [hnil]
        decide
      · exact hcount

theorem turnover_call (h : s.Accounted) (c : ItemCall) : Turnover C s c (s.call C c).items := by
  have hnone : Turnover C s c s.items := by
    have hsame : s.items.Perm ([] ++ s.items) := Perm.refl _
    exact .lost hsame
  have hswept (now : ℤ) : Turnover C s c (s.expire now).items := by
    obtain ⟨swept, hswept⟩ := exists_perm_unexpired now s
    exact .lost (hswept.trans ((expire_perm_unexpired now s).symm.append_left swept))
  cases c with
  | put now p =>
    change Turnover C s (.put now p) (s.put C now p).2.items
    rcases put_cases C s now p with heq | ⟨_, hchecks, heq⟩
    · rw [heq]
      exact hnone
    · rw [heq]
      refine storeItem_cases (P := fun out => Turnover C s (.put now p) out.2.items) ?_ ?_ ?_ ?_
      · intro i e _ _ himm
        cases himm
      · intro e _ _ _ _
        exact hswept now
      · intro i e hget htarget _ hnewer
        obtain ⟨rest, hperm, hset⟩ := exists_perm_set hget
        have hheld := (expire_perm_unexpired now s).symm.trans hperm
        exact .replaced hchecks hheld htarget hnewer (hset _)
      · intro hnew
        exact turnover_storeNew h rfl hnew (hchecks.signed now)
  | putImmutable now v srcIp =>
    change Turnover C s (.putImmutable now v srcIp) (dhtstorePutImmutable C now v srcIp s).2.items
    rcases dhtstorePutImmutable_cases C now v srcIp s with heq | ⟨_, _, heq⟩
    · rw [heq]
      exact hnone
    · rw [heq]
      refine storeItem_cases
        (P := fun out => Turnover C s (.putImmutable now v srcIp) out.2.items) ?_ ?_ ?_ ?_
      · intro i e hget _ _
        obtain ⟨rest, hperm, hset⟩ := exists_perm_set hget
        exact .refreshed ((expire_perm_unexpired now s).symm.trans hperm) (hset _)
      · intro e _ _ himm
        cases himm
      · intro i e _ _ himm
        cases himm
      · intro hnew
        refine turnover_storeNew h rfl hnew ?_
        intro himm
        cases himm
  | get now target vcap => exact hswept now
  | del target =>
    change Turnover C s (.del target) (dhtstoreDel target s).2.items
    unfold dhtstoreDel
    split
    · exact hnone
    · obtain ⟨gone, hgone⟩ := exists_perm_swapRemove s.items _
      exact .lost hgone

theorem budget_storeItem (now : ℤ) (p : Entry) : (s.storeItem now p).2.budget = s.budget := by
  have hexpire := budget_expire now s
  refine storeItem_cases (P := fun out => out.2.budget = s.budget) ?_ ?_ ?_ ?_
  · intro i e _ _ _
    exact hexpire
  · intro e _ _ _ _
    exact hexpire
  · intro i e _ _ _ _
    exact hexpire
  · intro _
    have hroom := (exists_perm_makeRoom p.v.length (s.expire now).items.length (s.expire now)).2
    unfold storeNew
    dsimp only
    split_ifs
    · exact hexpire
    · exact hroom.trans hexpire
    · exact hroom.trans hexpire

theorem budget_call (c : ItemCall) : (s.call C c).budget = s.budget :=
  call_cases (P := fun s' => s'.budget = s.budget) rfl budget_storeItem
    (fun now => budget_expire now s) (fun _ _ _ => rfl) c

structure Replaces (C : DhtCrypto) (s : DhtStore) (now : ℤ) (p : SignedPut) (e : DhtItem) :
    Prop where
  checks : p.Checks C
  held : e ∈ s.unexpired now
  target : e.target = p.target
  newer : e.seq < p.seq

theorem Reachable.serving (h : Reachable C s) (he : e ∈ s.items) : s.budget ≠ 0 := by
  intro hzero
  rcases h.sound.budget with ⟨_, hnil⟩ | hle
  · rw [hnil] at he
    cases he
  · omega

theorem Replaces.perm (h : Replaces C s now p e) (hs : Reachable C s) :
    ∃ rest, (s.unexpired now).Perm (e :: rest) ∧
      (s.call C (.put now p)).items.Perm (p.entry.item now :: rest) := by
  have hsound := hs.sound
  have hfresh := expire_perm_unexpired now s
  have hmem : e ∈ (s.expire now).items := hfresh.mem_iff.mpr h.held
  have hserving : s.budget ≠ 0 := hs.serving (mem_unexpired.mp h.held).1
  have hsame : ∀ e' ∈ (s.expire now).items, e'.target = p.target → e' = e := fun e' he' htarget =>
    inj_on_of_nodup_map (hsound.expire now).nodup he' hmem (htarget.trans h.target.symm)
  change ∃ rest, _ ∧ (s.put C now p).2.items.Perm _
  rw [put_eq hserving h.checks]
  refine storeItem_cases (P := fun out => ∃ rest, (s.unexpired now).Perm (e :: rest) ∧
    out.2.items.Perm (p.entry.item now :: rest)) ?_ ?_ ?_ ?_
  · intro i e' _ _ himm
    cases himm
  · intro e' he' htarget _ hstale
    rw [hsame e' he' htarget] at hstale
    exact absurd h.newer (not_lt.mpr hstale)
  · intro i e' hget htarget _ _
    rw [hsame e' (mem_of_getElem? hget) htarget] at hget
    obtain ⟨rest, hperm, hset⟩ := exists_perm_set hget
    exact ⟨rest, hfresh.symm.trans hperm, hset _⟩
  · intro hnew
    exact absurd h.target (hnew e hmem)

theorem makeRoom_of_room {vlen : ℕ} (hroom : s.bytes + vlen ≤ s.budget)
    (hcount : s.items.length < dhtstoreMax) (rounds : ℕ) : makeRoom vlen rounds s = s := by
  cases rounds with
  | zero => rfl
  | succ rounds =>
    rw [makeRoom, if_neg]
    rintro ⟨hbig | hmany, _⟩
    · omega
    · omega

theorem storeNew_of_room {p : Entry} (hplace : s.perIpCount p.srcIp < dhtstorePerIp)
    (hroom : s.bytes + p.v.length ≤ s.budget) (hcount : s.items.length < dhtstoreMax) (now : ℤ) :
    storeNew now p s =
      (true, { s with items := s.items ++ [p.item now], bytes := s.bytes + p.v.length }) := by
  unfold storeNew
  rw [if_neg (not_le.mpr hplace), makeRoom_of_room hroom hcount]
  exact if_neg (not_lt.mpr hroom)

theorem put_of_new (hs : s.Accounted) (hserving : s.budget ≠ 0) (hp : p.Checks C)
    (hnew : ∀ x ∈ s.unexpired now, x.target ≠ p.target)
    (hsource : (s.unexpired now).countP (fun x => x.srcIp = p.srcIp) < dhtstorePerIp)
    (hroom : heldBytes (s.unexpired now) + p.v.length ≤ s.budget)
    (hcount : (s.unexpired now).length < dhtstoreMax) : (s.put C now p).1 = true ∧
      (s.put C now p).2.items.Perm (p.entry.item now :: s.unexpired now) := by
  have hfresh := expire_perm_unexpired now s
  have habsent : ∀ x ∈ (s.expire now).items, x.target ≠ p.target := fun x hx =>
    hnew x (hfresh.mem_iff.mp hx)
  rw [put_eq hserving hp]
  refine storeItem_cases
    (P := fun out => out.1 = true ∧ out.2.items.Perm (p.entry.item now :: s.unexpired now))
    ?_ ?_ ?_ ?_
  · intro i e _ _ himm
    cases himm
  · intro e he htarget
    exact absurd htarget (habsent e he)
  · intro i e hget htarget
    exact absurd htarget (habsent e (mem_of_getElem? hget))
  · intro _
    have hplace : (s.expire now).perIpCount p.srcIp < dhtstorePerIp := by
      rw [perIpCount, hfresh.countP_eq]
      exact hsource
    have hbytes : (s.expire now).bytes + p.v.length ≤ (s.expire now).budget := by
      rw [hs.expire now, heldBytes_perm hfresh, budget_expire]
      exact hroom
    have hlen : (s.expire now).items.length < dhtstoreMax := by
      rw [hfresh.length_eq]
      exact hcount
    rw [storeNew_of_room (p := p.entry) hplace hbytes hlen]
    exact ⟨rfl, (perm_append_singleton _ _).trans (hfresh.cons _)⟩

def runOf (C : DhtCrypto) (mb : ℤ) (cs : List ItemCall) (hcs : ∀ c ∈ cs, c.WellTyped) :
    Run (system C) where
  len := cs.length
  state k := (cs.take k).foldl (call C) (dhtstoreInit (dhtstoreBudget mb false 0))
  event k := cs.getD k default
  start := .inr ⟨mb, false, 0, rfl⟩
  steps k hk := by
    rw [getD_eq_getElem _ _ hk, ← take_append_getElem hk, foldl_append]
    exact ⟨hcs _ (getElem_mem hk), rfl⟩

theorem state_runOf (C : DhtCrypto) (mb : ℤ) {cs : List ItemCall} (hcs : ∀ c ∈ cs, c.WellTyped) :
    (runOf C mb cs hcs).state (runOf C mb cs hcs).len =
      cs.foldl (call C) (dhtstoreInit (dhtstoreBudget mb false 0)) := by
  change (cs.take cs.length).foldl _ _ = _
  rw [take_length]

end DhtStore
end Norn
