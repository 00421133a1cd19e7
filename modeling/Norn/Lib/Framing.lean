import Mathlib

/-!
# Self-delimiting codes

A framing writes values as non-empty strings whose ends a reader finds by itself.
-/

namespace Norn
open List

structure Framing (α β : Type) where
  encode : α → List β
  /-- The first frame of a string and what follows it. -/
  next : List β → Option (α × List β)
  next_encode : ∀ a r, next (encode a ++ r) = some (a, r)
  eq_of_next : ∀ {s a r}, next s = some (a, r) → s = encode a ++ r
  encode_ne_nil : ∀ a, encode a ≠ []

namespace Framing
variable {α β : Type} (F : Framing α β)

def split : ℕ → List β → List α × List β
  | 0, s => ([], s)
  | n + 1, s =>
    match F.next s with
    | none => ([], s)
    | some (a, r) => (a :: (split n r).1, (split n r).2)

def frames (s : List β) : List α × List β := F.split s.length s

theorem next_nil : F.next [] = none := by
  cases h : F.next [] with
  | none => rfl
  | some out =>
    have hnil := F.eq_of_next h
    exact absurd (append_eq_nil_iff.mp hnil.symm).1 (F.encode_ne_nil out.1)

variable {s : List β} {a : α}

theorem length_lt_of_next {r : List β} (h : F.next s = some (a, r)) : r.length < s.length := by
  have hpos := length_pos_of_ne_nil (F.encode_ne_nil a)
  rw [F.eq_of_next h, length_append]
  omega

theorem split_eq_frames {n : ℕ} (hn : s.length ≤ n) : F.split n s = F.frames s := by
  unfold frames
  generalize hm : s.length = m
  rw [hm] at hn
  induction m using Nat.strong_induction_on generalizing n s with
  | h m ih =>
    cases hnext : F.next s with
    | none =>
      cases n <;> cases m <;> simp [split, hnext]
    | some out =>
      obtain ⟨a, r⟩ := out
      have hlt := F.length_lt_of_next hnext
      obtain ⟨n, rfl⟩ := Nat.exists_eq_succ_of_ne_zero (show n ≠ 0 by omega)
      obtain ⟨m, rfl⟩ := Nat.exists_eq_succ_of_ne_zero (show m ≠ 0 by omega)
      have hleft : F.split n r = F.split r.length r :=
        ih r.length (by omega) (by omega) rfl
      have hright : F.split m r = F.split r.length r :=
        ih r.length (by omega) (by omega) rfl
      simp only [split, hnext, hleft, hright]

theorem frames_of_none (h : F.next s = none) : F.frames s = ([], s) := by
  unfold frames
  cases s.length <;> simp [split, h]

theorem frames_of_some {r : List β} (h : F.next s = some (a, r)) :
    F.frames s = (a :: (F.frames r).1, (F.frames r).2) := by
  have hlt := F.length_lt_of_next h
  obtain ⟨m, hm⟩ := Nat.exists_eq_succ_of_ne_zero (show s.length ≠ 0 by omega)
  rw [frames, hm, split, h]
  simp only [F.split_eq_frames (show r.length ≤ m by omega)]

theorem flatMap_frames (s : List β) : (F.frames s).1.flatMap F.encode ++ (F.frames s).2 = s := by
  induction hm : s.length using Nat.strong_induction_on generalizing s with
  | h m ih =>
    cases hnext : F.next s with
    | none => rw [F.frames_of_none hnext, flatMap_nil, nil_append]
    | some out =>
      obtain ⟨a, r⟩ := out
      rw [F.frames_of_some hnext, flatMap_cons, append_assoc,
        ih r.length (by rw [← hm]; exact F.length_lt_of_next hnext) r rfl]
      exact (F.eq_of_next hnext).symm

theorem next_frames (s : List β) : F.next (F.frames s).2 = none := by
  induction hm : s.length using Nat.strong_induction_on generalizing s with
  | h m ih =>
    cases hnext : F.next s with
    | none => rw [F.frames_of_none hnext, hnext]
    | some out =>
      obtain ⟨a, r⟩ := out
      rw [F.frames_of_some hnext]
      exact ih r.length (by rw [← hm]; exact F.length_lt_of_next hnext) r rfl

theorem frames_flatMap_append (as : List α) (s : List β) :
    F.frames (as.flatMap F.encode ++ s) = (as ++ (F.frames s).1, (F.frames s).2) := by
  induction as with
  | nil => simp
  | cons a as ih =>
    rw [flatMap_cons, append_assoc, F.frames_of_some (F.next_encode a _), ih]
    rfl

theorem frames_flatMap (as : List α) : F.frames (as.flatMap F.encode) = (as, []) := by
  have h := F.frames_flatMap_append as []
  rw [append_nil, F.frames_of_none F.next_nil, append_nil] at h
  exact h

theorem frames_append (s t : List β) : F.frames (s ++ t) =
    ((F.frames s).1 ++ (F.frames ((F.frames s).2 ++ t)).1, (F.frames ((F.frames s).2 ++ t)).2) := by
  conv_lhs => rw [← F.flatMap_frames s]
  rw [append_assoc, frames_flatMap_append]

theorem next_of_cut {t : List β} (h : F.encode a = s ++ t) (ht : t ≠ []) : F.next s = none := by
  cases hnext : F.next s with
  | none => rfl
  | some out =>
    obtain ⟨b, r⟩ := out
    have hs := F.eq_of_next hnext
    have hfull : F.next (F.encode a) = some (b, r ++ t) := by
      rw [h, hs, append_assoc]
      exact F.next_encode b _
    have hself := F.next_encode a []
    rw [append_nil, hfull] at hself
    have hnil : r ++ t = [] := congrArg Prod.snd (Option.some.inj hself)
    exact absurd (append_eq_nil_iff.mp hnil).2 ht

def Whole (s : List β) : Prop := (F.frames s).2 = []

theorem whole_iff : F.Whole s ↔ ∃ as : List α, s = as.flatMap F.encode := by
  constructor
  · intro h
    have hs := F.flatMap_frames s
    rw [show (F.frames s).2 = [] from h, append_nil] at hs
    exact ⟨_, hs.symm⟩
  · rintro ⟨as, rfl⟩
    rw [Whole, frames_flatMap]

end Framing
end Norn
