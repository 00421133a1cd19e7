import Mathlib

/-!
# The nearest elements of a set

The `k` elements of a finite set at the least distances, nearest first.
-/

namespace Norn
open List
variable {α κ : Type*} [LinearOrder κ]

/-- The list has the `k` elements of the set with the least distances, or all of them if there are
fewer, in strictly increasing order and so without repetition. -/
structure Nearest (dist : α → κ) (k : ℕ) (s : Finset α) (l : List α) : Prop where
  sorted : l.Pairwise fun a b => dist a < dist b
  subset : ∀ a ∈ l, a ∈ s
  length : l.length = min k s.card
  nearest : ∀ a ∈ l, ∀ b ∈ s, b ∉ l → dist a < dist b

namespace Nearest
variable {dist : α → κ} {k : ℕ} {s : Finset α} {l : List α} {a : α}

theorem zero (dist : α → κ) (s : Finset α) : Nearest dist 0 s [] where
  sorted := List.Pairwise.nil
  subset := forall_mem_nil _
  length := (Nat.zero_min _).symm
  nearest := forall_mem_nil _

theorem empty (dist : α → κ) (k : ℕ) : Nearest dist k ∅ [] where
  sorted := List.Pairwise.nil
  subset := forall_mem_nil _
  length := (Nat.min_zero _).symm
  nearest := forall_mem_nil _

theorem cons [DecidableEq α] (h : Nearest dist k s l) (ha : ∀ b ∈ s, dist a < dist b) :
    Nearest dist (k + 1) (insert a s) (a :: l) where
  sorted := pairwise_cons.mpr ⟨fun b hb => ha b (h.subset b hb), h.sorted⟩
  subset b hb := by
    rcases mem_cons.mp hb with rfl | hb
    · exact Finset.mem_insert_self b s
    · exact Finset.mem_insert_of_mem (h.subset b hb)
  length := by
    have hnew : a ∉ s := fun hmem => lt_irrefl _ (ha a hmem)
    rw [length_cons, h.length, Finset.card_insert_of_notMem hnew, Nat.add_min_add_right]
  nearest b hb c hc hcl := by
    rw [mem_cons, not_or] at hcl
    have hcs : c ∈ s := (Finset.mem_insert.mp hc).resolve_left hcl.1
    rcases mem_cons.mp hb with rfl | hb
    · exact ha c hcs
    · exact h.nearest b hb c hcs hcl.2

theorem take [DecidableEq α] (h : l.Pairwise fun a b => dist a < dist b) (k : ℕ) :
    Nearest dist k l.toFinset (l.take k) where
  sorted := h.sublist (take_sublist k l)
  subset b hb := mem_toFinset.mpr (mem_of_mem_take hb)
  length := by
    have hnodup : l.Nodup := by
      refine h.imp ?_
      rintro b _ hlt rfl
      exact lt_irrefl _ hlt
    rw [length_take, toFinset_card_of_nodup hnodup]
  nearest b hb c hc hcl := by
    rw [← take_append_drop k l, pairwise_append] at h
    rw [mem_toFinset, ← take_append_drop k l, mem_append] at hc
    exact h.2.2 b hb c (hc.resolve_left hcl)

end Nearest
end Norn
