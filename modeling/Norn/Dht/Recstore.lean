import Norn.Lib.Run
import Norn.Dht.Store

/-!
# The store of records

The signed records of `recstore.c`. Their file is that of `RecstoreFile`.
-/

namespace Norn
open List Norn.Compact

def recstoreMax : ℕ := 256
def recstoreVmax : ℕ := 256

structure RecItem where
  target : Bytes
  k : Bytes
  seq : ℕ
  v : Bytes
  sig : Bytes
  lastSeen : ℤ
  priv : Bool
  deriving DecidableEq

def recstoreAccept (C : DhtCrypto) (now : ℤ) (k : Bytes) (seq : ℕ) (v sig : Bytes)
    (recs : List RecItem) : Bool × List RecItem :=
  if v.length = 0 ∨ recstoreVmax < v.length then (false, recs)
  else
    match bep44Signbuf seq v (64 + recstoreVmax) with
    | none => (false, recs)
    | some buf =>
      if C.verify sig buf k = false then (false, recs)
      else
        let r : RecItem := ⟨bep44Target C k, k, seq, v, sig, now, false⟩
        match recs.findIdx? fun e => e.target = bep44Target C k with
        | some i =>
          if (recs[i]?).any fun e => decide (seq ≤ e.seq) then (false, recs) else (true, recs.set i r)
        | none => if recstoreMax ≤ recs.length then (false, recs) else (true, recs ++ [r])

structure Version where
  seq : ℕ
  v : Bytes
  sig : Bytes

namespace Version

def Newer (a b : Version) : Prop := a = b ∨ a.seq < b.seq

variable {a b c : Version}

theorem Newer.refl (a : Version) : Newer a a := .inl rfl

theorem Newer.trans (h : Newer a b) (h' : Newer b c) : Newer a c := by
  rcases h with rfl | h
  · exact h'
  · rcases h' with rfl | h'
    · exact .inr h
    · exact .inr (h.trans h')

theorem Newer.seq_le (h : Newer a b) : a.seq ≤ b.seq := by
  rcases h with rfl | h
  · exact le_rfl
  · exact h.le

theorem Newer.seq_lt (h : Newer a b) (hne : a.v ≠ b.v ∨ a.sig ≠ b.sig) : a.seq < b.seq := by
  rcases h with rfl | h
  · rcases hne with hne | hne
    · exact absurd rfl hne
    · exact absurd rfl hne
  · exact h

end Version

def RecItem.version (r : RecItem) : Version := ⟨r.seq, r.v, r.sig⟩

def RecItem.Signed (C : DhtCrypto) (r : RecItem) : Prop :=
  C.verify r.sig (valueBytes r.seq r.v) r.k = true ∧ bep44Target C r.k = r.target

section
variable (C : DhtCrypto)

def recstoreMark (k : Bytes) (f : RecItem → RecItem) (recs : List RecItem) : List RecItem :=
  match recs.findIdx? fun r => r.target = bep44Target C k with
  | none => recs
  | some i => recs.modify i f

def recstoreSetPrivate (k : Bytes) (val : Bool) (recs : List RecItem) : List RecItem :=
  recstoreMark C k (fun r => { r with priv := val }) recs

def recstoreSetVia (now : ℤ) (k : Bytes) (recs : List RecItem) : List RecItem :=
  recstoreMark C k (fun r => { r with lastSeen := now }) recs

end

inductive RecCall
  | accept (now : ℤ) (k : Bytes) (seq : ℕ) (v sig : Bytes)
  | setPrivate (k : Bytes) (val : Bool)
  | setVia (now : ℤ) (k : Bytes)

namespace Recstore

def call (C : DhtCrypto) (recs : List RecItem) : RecCall → List RecItem
  | .accept now k seq v sig => (recstoreAccept C now k seq v sig recs).2
  | .setPrivate k val => recstoreSetPrivate C k val recs
  | .setVia now k => recstoreSetVia C now k recs

def system (C : DhtCrypto) : System (List RecItem) RecCall where
  init recs := recs = []
  next recs c recs' := recs' = call C recs c

variable {C : DhtCrypto} {recs recs' : List RecItem}

/-- All that a call can do to the records. -/
inductive Turnover (C : DhtCrypto) (recs : List RecItem) : List RecItem → Prop
  | same : Turnover C recs recs
  | marked {i : ℕ} {r r' : RecItem} (get : recs[i]? = some r) (target : r'.target = r.target)
      (k : r'.k = r.k) (version : r'.version = r.version) : Turnover C recs (recs.set i r')
  | renewed {i : ℕ} {r r' : RecItem} (get : recs[i]? = some r) (target : r'.target = r.target)
      (newer : r.seq < r'.seq) (signed : r'.Signed C) : Turnover C recs (recs.set i r')
  | added {r : RecItem} (new : ∀ x ∈ recs, x.target ≠ r.target) (signed : r.Signed C) :
      Turnover C recs (recs ++ [r])

/-- A version that is accepted unless there is a newer one. -/
structure Valid (C : DhtCrypto) (k : Bytes) (seq : ℕ) (v sig : Bytes) : Prop where
  ne_nil : v ≠ []
  length_le : v.length ≤ recstoreVmax
  verified : C.verify sig (valueBytes seq v) k = true

structure Finds (C : DhtCrypto) (recs : List RecItem) (k : Bytes) (i : ℕ) (r : RecItem) : Prop where
  find : recs.findIdx? (fun e => e.target = bep44Target C k) = some i
  get : recs[i]? = some r

variable {k : Bytes} {r : RecItem}

theorem exists_finds {i : ℕ} (h : recs.findIdx? (fun e => e.target = bep44Target C k) = some i) :
    ∃ r, Finds C recs k i r ∧ r.target = bep44Target C k := by
  obtain ⟨r, hget, htarget⟩ := getElem?_of_findIdx? h
  exact ⟨r, ⟨h, hget⟩, htarget⟩

theorem recstoreAccept_cases {P : Bool × List RecItem → Prop} {now : ℤ} {seq : ℕ} {v sig : Bytes}
    (refused : P (false, recs))
    (renewed : Valid C k seq v sig → ∀ i r, Finds C recs k i r → r.target = bep44Target C k →
      r.seq < seq → P (true, recs.set i ⟨bep44Target C k, k, seq, v, sig, now, false⟩))
    (added : Valid C k seq v sig → recs.length < recstoreMax →
      (∀ r ∈ recs, r.target ≠ bep44Target C k) →
      P (true, recs ++ [⟨bep44Target C k, k, seq, v, sig, now, false⟩])) :
    P (recstoreAccept C now k seq v sig recs) := by
  unfold recstoreAccept bep44Signbuf bep44SignbufSalted
  rw [saltBytes_nil, nil_append]
  by_cases hlen : v.length = 0 ∨ recstoreVmax < v.length
  · rw [if_pos hlen]
    exact refused
  by_cases hcap : 64 + recstoreVmax < (valueBytes seq v).length
  · rw [if_neg hlen, if_pos hcap]
    exact refused
  rw [if_neg hlen, if_neg hcap]
  dsimp only
  by_cases hverify : C.verify sig (valueBytes seq v) k = false
  · rw [if_pos hverify]
    exact refused
  rw [if_neg hverify]
  rw [not_or, length_eq_zero_iff, not_lt] at hlen
  have hvalid : Valid C k seq v sig := ⟨hlen.1, hlen.2, Bool.eq_true_of_not_eq_false hverify⟩
  cases hfind : recs.findIdx? fun r => r.target = bep44Target C k with
  | some i =>
    obtain ⟨r, hfinds, htarget⟩ := exists_finds hfind
    dsimp only
    rw [hfinds.get, Option.any_some]
    split_ifs with hstale
    · exact refused
    · exact renewed hvalid i r hfinds htarget (not_le.mp (by simpa using hstale))
  | none =>
    dsimp only
    split_ifs with hfull
    · exact refused
    · exact added hvalid (not_le.mp hfull) (ne_of_findIdx?_eq_none hfind)

theorem turnover_mark {f : RecItem → RecItem} (htarget : ∀ r, (f r).target = r.target)
    (hk : ∀ r, (f r).k = r.k) (hversion : ∀ r, (f r).version = r.version) (k : Bytes)
    (recs : List RecItem) : Turnover C recs (recstoreMark C k f recs) := by
  unfold recstoreMark
  cases hfind : recs.findIdx? fun r => r.target = bep44Target C k with
  | none => exact .same
  | some i =>
    obtain ⟨r, hfinds, -⟩ := exists_finds hfind
    dsimp only
    rw [modify_eq_set hfinds.get]
    exact .marked hfinds.get (htarget r) (hk r) (hversion r)

theorem turnover_call (recs : List RecItem) (c : RecCall) : Turnover C recs (call C recs c) := by
  cases c with
  | accept now k seq v sig =>
    refine recstoreAccept_cases (P := fun out => Turnover C recs out.2) .same ?_ ?_
    · intro hvalid i r hfinds htarget hnewer
      exact .renewed hfinds.get htarget.symm hnewer ⟨hvalid.verified, rfl⟩
    · intro hvalid _ hnew
      exact .added hnew ⟨hvalid.verified, rfl⟩
  | setPrivate k val =>
    exact turnover_mark (f := fun r => { r with priv := val }) (fun _ => rfl) (fun _ => rfl)
      (fun _ => rfl) k recs
  | setVia now k =>
    exact turnover_mark (f := fun r => { r with lastSeen := now }) (fun _ => rfl) (fun _ => rfl)
      (fun _ => rfl) k recs

/-- One record for a target, all signed. -/
structure Sound (C : DhtCrypto) (recs : List RecItem) : Prop where
  nodup : (recs.map RecItem.target).Nodup
  signed : ∀ r ∈ recs, r.Signed C

theorem Turnover.sound (h : Turnover C recs recs') (hs : Sound C recs) : Sound C recs' := by
  cases h with
  | same => exact hs
  | @marked i r r' get target k version =>
    refine ⟨by rw [map_set_key get target]; exact hs.nodup, ?_⟩
    intro x hx
    rcases mem_or_eq_of_mem_set hx with hx | rfl
    · exact hs.signed x hx
    · have hr := hs.signed r (mem_of_getElem? get)
      obtain ⟨hseq, hv, hsig⟩ := Version.mk.inj version
      unfold RecItem.Signed at hr ⊢
      rw [hseq, hv, hsig, k, target]
      exact hr
  | @renewed i r r' get target newer signed =>
    refine ⟨by rw [map_set_key get target]; exact hs.nodup, ?_⟩
    intro x hx
    rcases mem_or_eq_of_mem_set hx with hx | rfl
    · exact hs.signed x hx
    · exact signed
  | @added r new signed =>
    refine ⟨nodup_map_concat hs.nodup new, ?_⟩
    intro x hx
    rcases mem_append.mp hx with hx | hx
    · exact hs.signed x hx
    · rw [mem_singleton.mp hx]
      exact signed

theorem Turnover.newer (h : Turnover C recs recs') (hr : r ∈ recs) :
    ∃ r' ∈ recs', r'.target = r.target ∧ r.version.Newer r'.version := by
  have hset {i : ℕ} {x x' : RecItem} (get : recs[i]? = some x) (target : x'.target = x.target)
      (hnewer : x.version.Newer x'.version) :
      ∃ r' ∈ recs.set i x', r'.target = r.target ∧ r.version.Newer r'.version := by
    obtain ⟨rest, hperm, hperm'⟩ := exists_perm_set get
    rcases mem_cons.mp (hperm.mem_iff.mp hr) with rfl | hr
    · exact ⟨x', (hperm' x').mem_iff.mpr mem_cons_self, target, hnewer⟩
    · exact ⟨r, (hperm' x').mem_iff.mpr (mem_cons_of_mem _ hr), rfl, .refl _⟩
  cases h with
  | same => exact ⟨r, hr, rfl, .refl _⟩
  | marked get target k version => exact hset get target (.inl version.symm)
  | renewed get target newer signed => exact hset get target (.inr newer)
  | added new signed => exact ⟨r, mem_append_left _ hr, rfl, .refl _⟩

theorem sound_of_run (run : Run (system C)) : ∀ k ≤ run.len, Sound C (run.state k) := by
  refine run.invariant ?_ ?_
  · rintro recs rfl
    exact ⟨nodup_nil, forall_mem_nil _⟩
  · intro k hk h
    rw [run.steps k hk]
    exact (turnover_call _ _).sound h

theorem newer_of_run (run : Run (system C)) {i j : ℕ} (hij : i ≤ j) (hj : j ≤ run.len)
    (hr : r ∈ run.state i) :
    ∃ r' ∈ run.state j, r'.target = r.target ∧ r.version.Newer r'.version := by
  induction j, hij using Nat.le_induction with
  | base => exact ⟨r, hr, rfl, .refl _⟩
  | succ j hij ih =>
    obtain ⟨x, hx, hxt, hnewer⟩ := ih (Nat.le_of_succ_le hj)
    obtain ⟨y, hy, hyt, hnewer'⟩ := (turnover_call (C := C) (run.state j) (run.event j)).newer hx
    rw [run.steps j hj]
    exact ⟨y, hy, hyt.trans hxt, hnewer.trans hnewer'⟩

end Recstore
end Norn
