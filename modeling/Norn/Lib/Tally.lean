import Norn.Lib.Compact

/-!
# Counting in a bounded table

Counters for the first so many different values of a sequence.
-/

namespace Norn
open List

structure Counter (α : Type*) where
  key : α
  count : ℕ

namespace Tally
variable {α : Type*}

def bestFrom : Option (Counter α) → List (Counter α) → Option (Counter α)
  | best, [] => best
  | best, c :: t =>
    if best.all fun b => decide (b.count < c.count) then bestFrom (some c) t else bestFrom best t

def best (t : List (Counter α)) : Option (Counter α) := bestFrom none t

variable {t : List (Counter α)} {c : Counter α} {as : List α}

theorem bestFrom_spec {best : Option (Counter α)} (h : bestFrom best t = some c) :
    (c ∈ best ∨ c ∈ t) ∧ (∀ b ∈ best, b.count ≤ c.count) ∧ ∀ d ∈ t, d.count ≤ c.count := by
  induction t generalizing best with
  | nil =>
    rw [bestFrom] at h
    refine ⟨Or.inl h, ?_, forall_mem_nil _⟩
    intro b hb
    cases h.symm.trans hb
    exact le_rfl
  | cons d t ih =>
    rw [bestFrom] at h
    split_ifs at h with hbetter
    · rw [Option.all_eq_true] at hbetter
      obtain ⟨hmem, hle, hrest⟩ := ih h
      have hd := hle d rfl
      refine ⟨Or.inr ?_, ?_, forall_mem_cons.mpr ⟨hd, hrest⟩⟩
      · rcases hmem with hmem | hmem
        · cases hmem
          exact mem_cons_self
        · exact mem_cons_of_mem d hmem
      · intro b hb
        exact (of_decide_eq_true (hbetter b hb)).le.trans hd
    · rw [Option.all_eq_true, not_forall₂] at hbetter
      obtain ⟨b, hb, hge⟩ := hbetter
      obtain ⟨hmem, hle, hrest⟩ := ih h
      have hd : d.count ≤ c.count := (not_lt.mp (by simpa using hge)).trans (hle b hb)
      exact ⟨hmem.imp_right (mem_cons_of_mem d), hle, forall_mem_cons.mpr ⟨hd, hrest⟩⟩

theorem best_spec (h : best t = some c) : c ∈ t ∧ ∀ d ∈ t, d.count ≤ c.count := by
  obtain ⟨hmem, -, hle⟩ := bestFrom_spec h
  exact ⟨hmem.resolve_left (Option.not_mem_none c), hle⟩

theorem bestFrom_some_ne_none (b : Counter α) (t : List (Counter α)) :
    bestFrom (some b) t ≠ none := by
  induction t generalizing b with
  | nil => exact Option.some_ne_none b
  | cons c t ih =>
    rw [bestFrom]
    split_ifs
    · exact ih c
    · exact ih b

theorem exists_best (h : t ≠ []) : ∃ c, best t = some c := by
  cases t with
  | nil => exact absurd rfl h
  | cons c t => exact Option.ne_none_iff_exists'.mp (bestFrom_some_ne_none c t)

variable [DecidableEq α]

def add (cap : ℕ) (t : List (Counter α)) (a : α) : List (Counter α) :=
  match t.findIdx? fun c => c.key = a with
  | some i => t.modify i fun c => { c with count := c.count + 1 }
  | none => if t.length < cap then t ++ [⟨a, 1⟩] else t

/-- The counters are those of the first different values. -/
structure Counts (cap : ℕ) (as : List α) (t : List (Counter α)) : Prop where
  nodup : (t.map Counter.key).Nodup
  length : t.length = min cap as.toFinset.card
  count : ∀ c ∈ t, c.count = as.countP (· = c.key)
  mem_iff : ∀ a, a ∈ t.map Counter.key ↔ a ∈ as ∧ (as.takeWhile (· ≠ a)).toFinset.card < cap

theorem takeWhile_ne_append {a : α} (h : a ∈ as) (bs : List α) :
    (as ++ bs).takeWhile (· ≠ a) = as.takeWhile (· ≠ a) := by
  rw [takeWhile_append, if_neg]
  intro hlen
  have hall : as.takeWhile (· ≠ a) = as :=
    (takeWhile_sublist _).eq_of_length hlen
  have hne := mem_takeWhile_imp (hall.symm ▸ h)
  simp at hne

theorem takeWhile_ne_of_notMem {a : α} (h : a ∉ as) : (as ++ [a]).takeWhile (· ≠ a) = as := by
  rw [takeWhile_append_of_pos (fun b hb => by simpa using ne_of_mem_of_not_mem hb h),
    takeWhile_cons_of_neg (by simp), append_nil]

theorem toFinset_concat (as : List α) (a : α) : (as ++ [a]).toFinset = insert a as.toFinset := by
  ext b
  rw [mem_toFinset, mem_append, mem_singleton, Finset.mem_insert, mem_toFinset,
    or_comm]

namespace Counts
variable {cap : ℕ} {as : List α} {t : List (Counter α)}

theorem nil (cap : ℕ) : Counts cap ([] : List α) [] where
  nodup := nodup_nil
  length := (Nat.min_zero _).symm
  count := forall_mem_nil _
  mem_iff _ := iff_of_false not_mem_nil fun h => not_mem_nil h.1

theorem toFinset_eq (h : Counts cap as t) (hroom : t.length < cap) :
    (t.map Counter.key).toFinset = as.toFinset := by
  have hlen := h.length
  refine Finset.eq_of_subset_of_card_le ?_ ?_
  · intro a ha
    exact mem_toFinset.mpr ((h.mem_iff a).mp (mem_toFinset.mp ha)).1
  · rw [toFinset_card_of_nodup h.nodup, length_map]
    omega

theorem mem_append_iff (h : Counts cap as t) (a b : α) :
    (b ∈ as ++ [a] ∧ ((as ++ [a]).takeWhile (· ≠ b)).toFinset.card < cap) ↔
      b ∈ t.map Counter.key ∨ b = a ∧ a ∉ as ∧ as.toFinset.card < cap := by
  by_cases hb : b ∈ as
  · rw [takeWhile_ne_append hb, h.mem_iff b]
    simp only [mem_append, hb, true_or, true_and]
    refine (or_iff_left ?_).symm
    rintro ⟨rfl, hnew, -⟩
    exact hnew hb
  · have hkey : b ∉ t.map Counter.key := fun hmem => hb ((h.mem_iff b).mp hmem).1
    simp only [mem_append, mem_singleton, hb, hkey, false_or]
    constructor
    · rintro ⟨rfl, hcard⟩
      rw [takeWhile_ne_of_notMem hb] at hcard
      exact ⟨rfl, hb, hcard⟩
    · rintro ⟨rfl, -, hcard⟩
      rw [takeWhile_ne_of_notMem hb]
      exact ⟨rfl, hcard⟩

theorem count_up (h : Counts cap as t) {i : ℕ} (hc : t[i]? = some c) :
    Counts cap (as ++ [c.key]) (t.set i { c with count := c.count + 1 }) := by
  have hkeys : (t.set i { c with count := c.count + 1 }).map Counter.key = t.map Counter.key :=
    Compact.map_set_key hc rfl
  have hold : c.key ∈ as :=
    ((h.mem_iff c.key).mp (mem_map_of_mem (mem_of_getElem? hc))).1
  obtain ⟨rest, hperm, hset⟩ := Compact.exists_perm_set hc
  have hnodup := (hperm.map Counter.key).nodup_iff.mp h.nodup
  rw [map_cons, nodup_cons] at hnodup
  refine ⟨hkeys ▸ h.nodup, ?_, ?_, ?_⟩
  · rw [length_set, h.length, toFinset_concat,
      Finset.insert_eq_of_mem (mem_toFinset.mpr hold)]
  · intro d hd
    rcases mem_cons.mp ((hset _).mem_iff.mp hd) with rfl | hd
    · rw [countP_append, countP_singleton, if_pos (decide_eq_true rfl),
        h.count c (mem_of_getElem? hc)]
    · have hne : ¬ decide (c.key = d.key) = true := by
        intro heq
        exact hnodup.1 (mem_map.mpr ⟨d, hd, (of_decide_eq_true heq).symm⟩)
      rw [h.count d (hperm.mem_iff.mpr (mem_cons_of_mem c hd)), countP_append,
        countP_singleton, if_neg hne, Nat.add_zero]
  · intro b
    rw [hkeys, h.mem_append_iff]
    refine (or_iff_left ?_).symm
    rintro ⟨-, hnew, -⟩
    exact hnew hold

theorem add (h : Counts cap as t) (a : α) : Counts cap (as ++ [a]) (Tally.add cap t a) := by
  unfold Tally.add
  cases hfind : t.findIdx? fun c => c.key = a with
  | some i =>
    obtain ⟨c, hc, rfl⟩ := Compact.getElem?_of_findIdx? hfind
    dsimp only
    rw [Compact.modify_eq_set hc]
    exact h.count_up hc
  | none =>
    have hkey : ∀ c ∈ t, c.key ≠ a := Compact.ne_of_findIdx?_eq_none hfind
    have hcount : ∀ c ∈ t, c.count = (as ++ [a]).countP (· = c.key) := by
      intro c hc
      rw [h.count c hc, countP_append, countP_singleton, if_neg, Nat.add_zero]
      simpa using (hkey c hc).symm
    dsimp only
    split_ifs with hroom
    · have hnew : a ∉ as := by
        rw [← mem_toFinset, ← h.toFinset_eq hroom, mem_toFinset, mem_map]
        rintro ⟨c, hc, heq⟩
        exact hkey c hc heq
      have hcard : as.toFinset.card < cap := by
        have hlen := h.length
        omega
      refine ⟨Compact.nodup_map_concat h.nodup hkey, ?_, ?_, ?_⟩
      · rw [toFinset_concat, Finset.card_insert_of_notMem (by simpa using hnew), length_append,
          length_singleton, h.length]
        omega
      · intro c hc
        rcases mem_append.mp hc with hc | hc
        · exact hcount c hc
        · have hzero : as.countP (· = a) = 0 :=
            countP_eq_zero.mpr fun b hb => by simpa using ne_of_mem_of_not_mem hb hnew
          rw [mem_singleton.mp hc, countP_append, hzero, countP_singleton,
            if_pos (decide_eq_true rfl)]
      · intro b
        rw [h.mem_append_iff, map_append, mem_append, map_singleton,
          mem_singleton]
        simp only [hnew, hcard, not_false_eq_true, and_self, and_true]
    · have hcard : cap ≤ as.toFinset.card := by
        have hlen := h.length
        omega
      refine ⟨h.nodup, ?_, hcount, ?_⟩
      · have hle := Finset.card_le_card (Finset.subset_insert a as.toFinset)
        rw [toFinset_concat, h.length]
        omega
      · intro b
        rw [h.mem_append_iff]
        refine (or_iff_left ?_).symm
        rintro ⟨-, -, hlt⟩
        omega

end Counts

theorem exists_le_add (cap : ℕ) (hc : c ∈ t) (a : α) : ∃ d ∈ add cap t a, c.count ≤ d.count := by
  unfold add
  cases hfind : t.findIdx? fun c => c.key = a with
  | some i =>
    obtain ⟨b, hb, -⟩ := Compact.getElem?_of_findIdx? hfind
    obtain ⟨rest, hperm, hset⟩ := Compact.exists_perm_set hb
    dsimp only
    rw [Compact.modify_eq_set hb]
    rcases mem_cons.mp (hperm.mem_iff.mp hc) with rfl | hc
    · exact ⟨_, (hset _).mem_iff.mpr mem_cons_self, Nat.le_succ _⟩
    · exact ⟨c, (hset _).mem_iff.mpr (mem_cons_of_mem _ hc), le_rfl⟩
  | none =>
    dsimp only
    split_ifs
    · exact ⟨c, mem_append_left _ hc, le_rfl⟩
    · exact ⟨c, hc, le_rfl⟩

end Tally
end Norn
