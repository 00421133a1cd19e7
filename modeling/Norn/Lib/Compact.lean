import Mathlib

/-!
# Compact arrays

An element is removed by moving the last one into its place. Up to order this is erasing.
-/

namespace Norn.Compact
open List
variable {α : Type*}

def swapRemove (l : List α) (i : ℕ) : List α :=
  match l.getLast? with
  | none => []
  | some x => (l.set i x).dropLast

def sweep (p : α → Bool) : ℕ → ℕ → List α → List α
  | 0, _, l => l
  | rounds + 1, i, l =>
    match l[i]? with
    | none => l
    | some a => if p a then sweep p rounds i (swapRemove l i) else sweep p rounds (i + 1) l

theorem swapRemove_last (as : List α) (a : α) : swapRemove (as ++ [a]) as.length = as := by
  rw [swapRemove, getLast?_concat]
  dsimp only
  rw [set_append_right _ _ le_rfl, Nat.sub_self, set_cons_zero, dropLast_concat]

theorem swapRemove_inner (as bs : List α) (a x : α) :
    swapRemove (as ++ a :: (bs ++ [x])) as.length = as ++ x :: bs := by
  have hlast : (as ++ a :: (bs ++ [x])).getLast? = some x := by
    rw [← cons_append, ← append_assoc, getLast?_concat]
  rw [swapRemove, hlast]
  dsimp only
  rw [set_append_right _ _ le_rfl, Nat.sub_self, set_cons_zero, ← cons_append,
    ← append_assoc, dropLast_concat]

variable {l : List α} {i : ℕ} {a : α} {p : α → Bool}

theorem perm_cons_swapRemove (h : l[i]? = some a) :
    l.Perm (a :: swapRemove l i) ∧ (swapRemove l i).take i = l.take i := by
  obtain ⟨hi, rfl⟩ := List.getElem?_eq_some_iff.mp h
  have hlen : (l.take i).length = i := length_take_of_le hi.le
  have hsplit : l = l.take i ++ l[i] :: l.drop (i + 1) := by
    rw [← drop_eq_getElem_cons hi, take_append_drop]
  generalize l[i] = a at hsplit ⊢
  generalize l.take i = as at hsplit hlen ⊢
  generalize l.drop (i + 1) = cs at hsplit
  subst hlen
  rcases eq_nil_or_concat cs with rfl | ⟨bs, x, rfl⟩
  · rw [hsplit, swapRemove_last]
    exact ⟨perm_append_singleton a as, take_length⟩
  · rw [concat_eq_append] at hsplit
    rw [hsplit, swapRemove_inner]
    refine ⟨?_, take_left⟩
    refine perm_middle.trans (Perm.cons a (Perm.append_left as ?_))
    exact perm_append_singleton x bs

theorem exists_perm_swapRemove (l : List α) (i : ℕ) : ∃ gone, l.Perm (gone ++ swapRemove l i) := by
  cases hget : l[i]? with
  | some a => exact ⟨[a], (perm_cons_swapRemove hget).1⟩
  | none =>
    rcases eq_nil_or_concat l with rfl | ⟨as, x, rfl⟩
    · exact ⟨[], Perm.nil⟩
    · rw [concat_eq_append] at hget ⊢
      rw [swapRemove, getLast?_concat]
      dsimp only
      rw [set_eq_of_length_le (List.getElem?_eq_none_iff.mp hget), dropLast_concat]
      exact ⟨[x], perm_append_singleton x as⟩

theorem exists_perm_set (h : l[i]? = some a) :
    ∃ rest, l.Perm (a :: rest) ∧ ∀ b, (l.set i b).Perm (b :: rest) := by
  obtain ⟨hi, rfl⟩ := List.getElem?_eq_some_iff.mp h
  refine ⟨l.eraseIdx i, (getElem_cons_eraseIdx_perm hi).symm, ?_⟩
  intro b
  exact set_perm_cons_eraseIdx hi b

theorem modify_eq_set (h : l[i]? = some a) (f : α → α) : l.modify i f = l.set i (f a) := by
  rw [modify_eq_set_getElem?, h]
  rfl

theorem sweep_perm_filter {rounds : ℕ} (hrounds : l.length ≤ i + rounds)
    (hfront : ∀ a ∈ l.take i, p a = false) :
    (sweep p rounds i l).Perm (l.filter fun a => !p a) := by
  induction rounds generalizing i l with
  | zero =>
    rw [take_of_length_le (by omega)] at hfront
    rw [filter_eq_self.mpr fun a ha => by rw [hfront a ha]; rfl]
    exact Perm.refl l
  | succ rounds ih =>
    rw [sweep]
    cases hget : l[i]? with
    | none =>
      rw [take_of_length_le (List.getElem?_eq_none_iff.mp hget)] at hfront
      rw [filter_eq_self.mpr fun a ha => by rw [hfront a ha]; rfl]
    | some a =>
      obtain ⟨hperm, htake⟩ := perm_cons_swapRemove hget
      have hlen := hperm.length_eq
      rw [length_cons] at hlen
      dsimp only
      by_cases hp : p a = true
      · rw [if_pos hp]
        refine (ih (by omega) (htake ▸ hfront)).trans ?_
        have hfilter := hperm.filter fun a => !p a
        rw [filter_cons_of_neg (by rw [hp]; decide)] at hfilter
        exact hfilter.symm
      · rw [if_neg hp]
        refine ih (by omega) ?_
        intro b hb
        rw [take_add_one, hget, mem_append] at hb
        rcases hb with hb | hb
        · exact hfront b hb
        · rw [Option.toList_some, mem_singleton] at hb
          exact hb ▸ Bool.eq_false_iff.mpr hp

theorem sweep_eq_self (h : ∀ a ∈ l, p a = false) (rounds i : ℕ) : sweep p rounds i l = l := by
  induction rounds generalizing i with
  | zero => rfl
  | succ rounds ih =>
    rw [sweep]
    cases hget : l[i]? with
    | none => rfl
    | some a =>
      dsimp only
      rw [if_neg (by rw [h a (mem_of_getElem? hget)]; decide)]
      exact ih (i + 1)

section
variable {κ : Type*} {key : α → κ} {l : List α}

theorem map_modify_key {f : α → α} (h : ∀ a ∈ l[i]?, key (f a) = key a) :
    (l.modify i f).map key = l.map key := by
  apply ext_getElem?
  intro j
  rw [getElem?_map, getElem?_map, getElem?_modify]
  cases hj : l[j]? with
  | none => rfl
  | some a =>
    change some (key (if i = j then f a else a)) = some (key a)
    split_ifs with hij
    · exact congrArg some (h a (hij ▸ hj))
    · rfl

theorem map_set_key {b : α} (hget : l[i]? = some a) (h : key b = key a) :
    (l.set i b).map key = l.map key := by
  have hmap : (l.map key)[i]? = some (key a) := by rw [getElem?_map, hget, Option.map_some]
  obtain ⟨hlt, hval⟩ := List.getElem?_eq_some_iff.mp hmap
  rw [map_set, h, ← hval, set_getElem_self]

theorem nodup_map_concat (h : (l.map key).Nodup) (hnew : ∀ x ∈ l, key x ≠ key a) :
    ((l ++ [a]).map key).Nodup := by
  rw [map_append, map_singleton]
  refine nodup_append.mpr ⟨h, nodup_singleton _, ?_⟩
  intro t ht t' ht'
  obtain ⟨x, hx, rfl⟩ := mem_map.mp ht
  rw [mem_singleton.mp ht']
  exact hnew x hx

theorem getElem?_of_findIdx? [DecidableEq κ] {k : κ}
    (h : l.findIdx? (fun x => key x = k) = some i) : ∃ a, l[i]? = some a ∧ key a = k := by
  obtain ⟨hlt, hi, -⟩ := findIdx?_eq_some_iff_getElem.mp h
  exact ⟨l[i], getElem?_eq_getElem hlt, of_decide_eq_true hi⟩

theorem ne_of_findIdx?_eq_none [DecidableEq κ] {k : κ}
    (h : l.findIdx? (fun x => key x = k) = none) : ∀ a ∈ l, key a ≠ k := by
  intro a ha
  exact of_decide_eq_false (findIdx?_eq_none_iff.mp h a ha)

theorem find?_key [DecidableEq κ] (h : (l.map key).Nodup) (ha : a ∈ l) :
    l.find? (fun x => key x = key a) = some a := by
  cases hfind : l.find? fun x => key x = key a with
  | none => exact absurd (decide_eq_true rfl) (find?_eq_none.mp hfind a ha)
  | some x =>
    have hx : key x = key a := by simpa using find?_some hfind
    exact congrArg some (inj_on_of_nodup_map h (mem_of_find?_eq_some hfind) ha hx)

end
end Norn.Compact
