import Mathlib

/-!
# Ideal cryptography

Messages as terms over the secrets that are drawn.
-/

namespace Norn

inductive Term (α : Type)
  | zero
  | atom (a : α)
  | verifyKey (a : α)
  | publicKey (a : α)
  | pair (t u : Term α)
  | signature (a : α) (m : Term α)
  | box (key nonce body : Term α)
  /-- One of the two keys that the owners of two key pairs agree on. -/
  | sharedKey (half : Bool) (owners : Sym2 α) (client server : Term α)
  /-- A key from a secret and something that is no public key. -/
  | loneKey (half : Bool) (a : α) (client server : Term α)
  deriving DecidableEq

/-- What can be made of the messages seen. -/
inductive Derives {α : Type} (pub : α → Prop) (seen : Set (Term α)) : Term α → Prop
  | seen {t : Term α} (h : t ∈ seen) : Derives pub seen t
  | zero : Derives pub seen .zero
  | atom {a : α} (h : pub a) : Derives pub seen (.atom a)
  | verifyKey (a : α) : Derives pub seen (.verifyKey a)
  | publicKey {a : α} (h : Derives pub seen (.atom a)) : Derives pub seen (.publicKey a)
  | pair {t u : Term α} (ht : Derives pub seen t) (hu : Derives pub seen u) :
      Derives pub seen (.pair t u)
  | left {t u : Term α} (h : Derives pub seen (.pair t u)) : Derives pub seen t
  | right {t u : Term α} (h : Derives pub seen (.pair t u)) : Derives pub seen u
  | sign {a : α} {m : Term α} (ha : Derives pub seen (.atom a)) (hm : Derives pub seen m) :
      Derives pub seen (.signature a m)
  | message {a : α} {m : Term α} (h : Derives pub seen (.signature a m)) : Derives pub seen m
  | box {k n b : Term α} (hk : Derives pub seen k) (hn : Derives pub seen n)
      (hb : Derives pub seen b) : Derives pub seen (.box k n b)
  | nonce {k n b : Term α} (h : Derives pub seen (.box k n b)) : Derives pub seen n
  | unbox {k n b : Term α} (h : Derives pub seen (.box k n b)) (hk : Derives pub seen k) :
      Derives pub seen b
  | share {a : α} (b : α) (half : Bool) {c s : Term α} (ha : Derives pub seen (.atom a))
      (hc : Derives pub seen c) (hs : Derives pub seen s) :
      Derives pub seen (.sharedKey half s(a, b) c s)
  | lone {a : α} (half : Bool) {c s : Term α} (ha : Derives pub seen (.atom a))
      (hc : Derives pub seen c) (hs : Derives pub seen s) : Derives pub seen (.loneKey half a c s)

variable {α : Type} {pub : α → Prop}

/-- Terms that give away no secret and open no box. -/
def Safe (pub : α → Prop) (boxes : Set (Term α)) : Term α → Prop
  | .zero => True
  | .atom a => pub a
  | .verifyKey _ => True
  | .publicKey _ => True
  | .pair t u => Safe pub boxes t ∧ Safe pub boxes u
  | .signature _ m => Safe pub boxes m
  | .box k n b => Safe pub boxes n ∧ Safe pub boxes b ∧ (Safe pub boxes k ∨ .box k n b ∈ boxes)
  | .sharedKey _ owners _ _ => ∃ a ∈ owners, pub a
  | .loneKey _ a _ _ => pub a

variable {boxes seen : Set (Term α)} {t : Term α}

theorem Safe.mono {boxes' : Set (Term α)} (hsub : boxes ⊆ boxes') (h : Safe pub boxes t) :
    Safe pub boxes' t := by
  induction t with
  | zero | verifyKey a | publicKey a => trivial
  | atom a | sharedKey half owners c s | loneKey half a c s => exact h
  | pair t u iht ihu => exact ⟨iht h.1, ihu h.2⟩
  | signature a m ih => exact ih h
  | box k n b ihk ihn ihb => exact ⟨ihn h.1, ihb h.2.1, h.2.2.imp ihk fun hb => hsub hb⟩

theorem Derives.safe (hseen : ∀ t ∈ seen, Safe pub boxes t) (h : Derives pub seen t) :
    Safe pub boxes t := by
  induction h with
  | seen h => exact hseen _ h
  | zero | verifyKey a | publicKey _ _ => trivial
  | atom h => exact h
  | pair _ _ iht ihu => exact ⟨iht, ihu⟩
  | left _ ih | nonce _ ih => exact ih.1
  | right _ ih => exact ih.2
  | sign _ _ _ ihm => exact ihm
  | message _ ih => exact ih
  | box _ _ _ ihk ihn ihb => exact ⟨ihn, ihb, .inl ihk⟩
  | unbox _ _ ih _ => exact ih.2.1
  | share b half _ _ _ iha _ _ => exact ⟨_, Sym2.mem_mk_left _ b, iha⟩
  | lone half _ _ _ iha _ _ => exact iha

theorem Derives.mono {seen' : Set (Term α)} (hsub : seen ⊆ seen') (h : Derives pub seen t) :
    Derives pub seen' t := by
  induction h with
  | seen h => exact .seen (hsub h)
  | zero => exact .zero
  | atom h => exact .atom h
  | verifyKey a => exact .verifyKey a
  | publicKey _ ih => exact .publicKey ih
  | pair _ _ iht ihu => exact .pair iht ihu
  | left _ ih => exact .left ih
  | right _ ih => exact .right ih
  | sign _ _ iha ihm => exact .sign iha ihm
  | message _ ih => exact .message ih
  | box _ _ _ ihk ihn ihb => exact .box ihk ihn ihb
  | nonce _ ih => exact .nonce ih
  | unbox _ _ ih ihk => exact .unbox ih ihk
  | share b half _ _ _ iha ihc ihs => exact .share b half iha ihc ihs
  | lone half _ _ _ iha ihc ihs => exact .lone half iha ihc ihs

end Norn
