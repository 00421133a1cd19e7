import Mathlib

/-!
# Bounded tables

At most `cap` entries under distinct keys, from which nothing is removed.
-/

namespace Norn
open List hiding modify
open Option (ext getD_none getD_some some)
open Prod (ext_iff fst snd)

structure Table (κ α : Type*) (cap : ℕ) where
  entries : List (κ × α)
  nodup : (entries.map fst).Nodup
  length_le : entries.length ≤ cap

namespace Table
variable {κ α : Type*} [DecidableEq κ] {cap : ℕ}

def empty : Table κ α cap := ⟨[], nodup_nil, Nat.zero_le _⟩

variable (t : Table κ α cap)

def get? (k : κ) : Option α := (t.entries.find? fun e => e.1 = k).map snd

def map (f : α → α) : Table κ α cap where
  entries := t.entries.map fun e => (e.1, f e.2)
  nodup := by rw [map_map]; exact t.nodup
  length_le := by rw [length_map]; exact t.length_le

def modify (k : κ) (f : α → α) : Table κ α cap where
  entries := t.entries.map fun e => (e.1, if e.1 = k then f e.2 else e.2)
  nodup := by rw [map_map]; exact t.nodup
  length_le := by rw [length_map]; exact t.length_le

def ensure (k : κ) (a : α) : Option (Table κ α cap) :=
  if hk : k ∈ t.entries.map fst then some t
  else if hcap : t.entries.length < cap then
    some ⟨t.entries ++ [(k, a)], by
      rw [map_append, nodup_append]
      exact ⟨t.nodup, nodup_singleton k, by simpa using fun j b hj hjk => hk (by
        rw [← hjk]
        exact mem_map_of_mem hj)⟩, by
      rw [length_append]
      exact hcap⟩
  else none

variable {t : Table κ α cap} {k : κ} {a : α}

theorem get?_eq_some : t.get? k = some a ↔ (k, a) ∈ t.entries := by
  obtain ⟨entries, hnodup, hle⟩ := t
  simp only [get?]
  clear hle
  induction entries with
  | nil => simp
  | cons e entries ih =>
    obtain ⟨hnew, hrest⟩ := nodup_cons.mp hnodup
    by_cases he : e.1 = k
    · have hno : (k, a) ∉ entries := fun hmem => hnew (he ▸ mem_map_of_mem hmem)
      simp only [find?_cons, he, decide_true, Option.map_some, some.injEq,
        mem_cons, hno, or_false, ext_iff, true_and]
      exact eq_comm
    · have hne : (k, a) ≠ e := fun heq => he (heq ▸ rfl)
      simp only [find?_cons, he, decide_false, mem_cons, hne, false_or]
      exact ih hrest

theorem get?_map (t : Table κ α cap) (f : α → α) (k : κ) : (t.map f).get? k = (t.get? k).map f := by
  apply ext
  intro b
  simp only [get?_eq_some, Option.map_eq_some_iff, map, mem_map, ext_iff]
  constructor
  · rintro ⟨e, he, rfl, rfl⟩
    exact ⟨e.2, he, rfl⟩
  · rintro ⟨a, ha, rfl⟩
    exact ⟨(k, a), ha, rfl, rfl⟩

theorem get?_modify (t : Table κ α cap) (k : κ) (f : α → α) (j : κ) :
    (t.modify k f).get? j = if j = k then (t.get? j).map f else t.get? j := by
  apply ext
  intro b
  by_cases hj : j = k
  · subst hj
    simp only [get?_eq_some, Option.map_eq_some_iff, modify, mem_map, ext_iff, if_true]
    constructor
    · rintro ⟨e, he, rfl, rfl⟩
      exact ⟨e.2, he, (if_pos rfl).symm⟩
    · rintro ⟨a, ha, rfl⟩
      exact ⟨(j, a), ha, rfl, if_pos rfl⟩
  · simp only [get?_eq_some, modify, mem_map, ext_iff, if_neg hj]
    constructor
    · rintro ⟨e, he, rfl, rfl⟩
      rwa [if_neg hj]
    · intro hb
      exact ⟨(j, b), hb, rfl, if_neg hj⟩

theorem mem_keys_iff : k ∈ t.entries.map fst ↔ ∃ a, t.get? k = some a := by
  simp only [get?_eq_some, mem_map]
  constructor
  · rintro ⟨e, he, rfl⟩
    exact ⟨e.2, he⟩
  · rintro ⟨a, ha⟩
    exact ⟨(k, a), ha, rfl⟩

theorem ensure_of_get? {b : α} (h : t.get? k = some b) (a : α) : t.ensure k a = some t :=
  dif_pos (mem_keys_iff.mpr ⟨b, h⟩)

theorem get?_ensure {t' : Table κ α cap} (h : t.ensure k a = some t') (j : κ) :
    t'.get? j = if j = k then some ((t.get? k).getD a) else t.get? j := by
  unfold ensure at h
  split_ifs at h with hk hcap
  · cases h
    obtain ⟨b, hb⟩ := mem_keys_iff.mp hk
    by_cases hj : j = k
    · rw [if_pos hj, hj, hb, getD_some]
    · rw [if_neg hj]
  · cases h
    have hnone : t.get? k = none := by
      rw [Option.eq_none_iff_forall_ne_some]
      exact fun b hb => hk (mem_keys_iff.mpr ⟨b, hb⟩)
    rw [hnone, getD_none]
    apply ext
    intro b
    simp only [get?_eq_some, mem_append, mem_singleton, ext_iff]
    by_cases hj : j = k
    · subst hj
      have hno : (j, b) ∉ t.entries := by
        rw [← get?_eq_some, hnone]
        simp
      simp [hno, eq_comm]
    · simp [hj, get?_eq_some]

theorem get?_of_ensure {t' : Table κ α cap} {j : κ} {b : α} (h : t.ensure k a = some t')
    (hj : t.get? j = some b) : t'.get? j = some b := by
  rw [get?_ensure h]
  by_cases heq : j = k
  · rw [if_pos heq, ← heq, hj, getD_some]
  · rw [if_neg heq, hj]

def keys (t : Table κ α cap) : List κ := t.entries.map fst

omit [DecidableEq κ] in
theorem keys_map (t : Table κ α cap) (f : α → α) : (t.map f).keys = t.keys := by
  rw [keys, map, map_map]
  rfl

theorem keys_modify (t : Table κ α cap) (k : κ) (f : α → α) : (t.modify k f).keys = t.keys := by
  rw [keys, modify, map_map]
  rfl

theorem isSome_ensure (t : Table κ α cap) (k : κ) (a : α) :
    (t.ensure k a).isSome = true ↔ k ∈ t.keys ∨ t.keys.length < cap := by
  rw [keys, length_map, ensure]
  split_ifs with hk hcap
  · exact iff_of_true rfl (.inl hk)
  · exact iff_of_true rfl (.inr hcap)
  · exact iff_of_false Bool.false_ne_true fun hor => hor.elim hk hcap

theorem eraseDups_concat (ks : List κ) (k : κ) :
    (ks ++ [k]).eraseDups = if k ∈ ks then ks.eraseDups else ks.eraseDups ++ [k] := by
  rw [eraseDups_append]
  split_ifs with hk
  · simp [removeAll, hk]
  · simp [removeAll, hk, eraseDups_cons]

theorem keys_ensure {ks : List κ} (h : t.keys = ks.eraseDups.take cap) (k : κ) (a : α) :
    ((t.ensure k a).getD t).keys = (ks ++ [k]).eraseDups.take cap := by
  have hlen : t.entries.length = min cap ks.eraseDups.length := by
    rw [← length_take, ← h, keys, length_map]
  rw [eraseDups_concat]
  by_cases hk : k ∈ t.entries.map fst
  · have hkey : k ∈ t.keys := hk
    have hold : k ∈ ks := mem_eraseDups.mp (mem_of_mem_take (h ▸ hkey))
    rw [ensure, dif_pos hk, getD_some, if_pos hold, h]
  · rw [ensure, dif_neg hk]
    by_cases hcap : t.entries.length < cap
    · have hall : ks.eraseDups.take cap = ks.eraseDups := take_of_length_le (by omega)
      have hnew : k ∉ ks := by
        rw [← mem_eraseDups, ← hall, ← h]
        exact hk
      rw [dif_pos hcap, getD_some, if_neg hnew, take_of_length_le, ← hall, ← h]
      · rw [keys, map_append]
        rfl
      · rw [length_append, length_singleton]
        omega
    · rw [dif_neg hcap, getD_none, h]
      split_ifs
      · rfl
      · rw [take_append_of_le_length (by omega)]

theorem flatMap_entries {β : Type*} (t : Table κ α cap) (k : κ) (g : κ × α → List β)
    (h : ∀ e ∈ t.entries, e.1 ≠ k → g e = []) :
    t.entries.flatMap g = (t.get? k).elim [] fun a => g (k, a) := by
  obtain ⟨entries, hnodup, hle⟩ := t
  simp only [get?] at h ⊢
  clear hle
  induction entries with
  | nil => rfl
  | cons e entries ih =>
    obtain ⟨hnew, hrest⟩ := nodup_cons.mp hnodup
    have hother := fun e' he' => h e' (mem_cons_of_mem e he')
    rw [flatMap_cons]
    by_cases he : e.1 = k
    · have hnil : entries.flatMap g = [] := by
        rw [flatMap_eq_nil_iff]
        intro e' he'
        refine hother e' he' fun hk => hnew ?_
        rw [he, ← hk]
        exact mem_map_of_mem he'
      rw [hnil, append_nil, find?_cons_of_pos (by simpa using he), ← he]
      rfl
    · rw [h e mem_cons_self he, nil_append, find?_cons_of_neg (by simpa using he)]
      exact ih hrest hother

end Table

section
variable {α : Type*} [DecidableEq α]

def swapRemove (l : List α) (a : α) : List α :=
  if a ∈ l then (l.set (l.idxOf a) (l.getLastD a)).dropLast else l

theorem swapRemove_perm (l : List α) (a : α) : (swapRemove l a).Perm (l.erase a) := by
  by_cases ha : a ∈ l
  · obtain ⟨l₁, l₂, hno, rfl, herase⟩ := exists_erase_eq ha
    rw [swapRemove, if_pos ha, herase, idxOf_append_of_notMem hno, idxOf_cons_self,
      Nat.add_zero, set_append_right _ _ le_rfl, Nat.sub_self, set_cons_zero]
    rcases eq_nil_or_concat l₂ with rfl | ⟨l₃, b, rfl⟩
    · rw [dropLast_concat, append_nil]
    · have hlast : (l₁ ++ a :: l₃.concat b).getLastD a = b := by
        rw [concat_eq_append, ← cons_append, ← append_assoc, getLastD_concat]
      have hdrop : (l₁ ++ b :: l₃.concat b).dropLast = l₁ ++ b :: l₃ := by
        rw [concat_eq_append, ← cons_append, ← append_assoc, dropLast_concat]
      rw [hlast, hdrop, concat_eq_append]
      exact (perm_append_left_iff l₁).mpr (perm_append_singleton b l₃).symm
  · rw [swapRemove, if_neg ha, erase_of_not_mem ha]

theorem map_swapRemove_perm {β : Type*} [DecidableEq β] (f : α → β) {l : List α} {a : α} (ha : a ∈ l) :
    ((swapRemove l a).map f).Perm ((l.map f).erase (f a)) := by
  have hsplit := ((perm_cons_erase ha).map f).symm
  exact ((swapRemove_perm l a).map f).trans (cons_perm_iff_perm_erase.mp hsplit).2

end
end Norn
