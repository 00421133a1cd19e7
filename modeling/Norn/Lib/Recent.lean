import Norn.Lib.Ring

/-!
# A memory of the last entries

A memory records every entry that repeats none of those it looks at.
-/

namespace Norn.Recent
open List
variable {ε : Type*}

/-- The table holds the last entries of the log in turn. -/
structure Holding (cap : ℕ) (blank : ε) (table : ℕ → ε) (next : ℕ) (log : List ε) : Prop where
  next_eq : next = log.length % cap
  recent : ∀ i < cap, ∀ e, log[i]? = some e → table ((log.length - 1 - i) % cap) = e
  rest : ∀ i < cap, log.length ≤ i → table i = blank

namespace Holding
variable {cap next : ℕ} {blank : ε} {table : ℕ → ε} {log : List ε}

theorem nil (cap : ℕ) (blank : ε) : Holding cap blank (fun _ => blank) 0 [] where
  next_eq := (Nat.zero_mod cap).symm
  recent _ _ _ h := by cases h
  rest _ _ _ := rfl

theorem push (h : Holding cap blank table next log) (e : ε) :
    Holding cap blank (Function.update table next e) ((next + 1) % cap) (e :: log) where
  next_eq := by rw [h.next_eq, Nat.mod_add_mod, length_cons]
  recent i hi x hx := by
    rw [length_cons, Nat.add_sub_cancel, h.next_eq]
    cases i with
    | zero =>
      cases hx
      exact Function.update_self _ _ _
    | succ i =>
      rw [getElem?_cons_succ] at hx
      have hlt : i < log.length := (List.getElem?_eq_some_iff.mp hx).1
      have hne := Ring.mod_ne_of_lt (a := log.length - (i + 1)) (Nat.succ_pos i) hi
      rw [add_zero, Nat.sub_add_cancel hlt] at hne
      rw [Function.update_of_ne hne, add_comm i 1, ← Nat.sub_sub]
      exact h.recent i (Nat.lt_of_succ_lt hi) x hx
  rest i hi hlen := by
    rw [length_cons] at hlen
    have hnext : next = log.length := by
      rw [h.next_eq, Nat.mod_eq_of_lt (by omega)]
    rw [Function.update_of_ne (by omega)]
    exact h.rest i hi (Nat.le_of_succ_le hlen)

theorem exists_slot_iff (h : Holding cap blank table next log) {e : ε} (hne : e ≠ blank) :
    (∃ i < cap, table i = e) ↔ e ∈ log.take cap := by
  constructor
  · rintro ⟨i, hi, htable⟩
    have hlt : i < log.length := by
      by_contra hge
      exact hne (htable.symm.trans (h.rest i hi (not_lt.mp hge)))
    -- the entry is the last one that was written at this position
    have hpos : (log.length - 1 - (log.length - 1 - i) % cap) % cap = i := by
      have hdiv := Nat.div_add_mod (log.length - 1 - i) cap
      have hsub : log.length - 1 - (log.length - 1 - i) % cap =
          i + cap * ((log.length - 1 - i) / cap) := by omega
      rw [hsub, Nat.add_mul_mod_self_left, Nat.mod_eq_of_lt hi]
    have hle := Nat.mod_le (log.length - 1 - i) cap
    have hcap := Nat.mod_lt (log.length - 1 - i) (Nat.zero_lt_of_lt hi)
    have hget := getElem?_eq_getElem (show (log.length - 1 - i) % cap < log.length by omega)
    have hrecent := h.recent _ hcap _ hget
    rw [hpos, htable] at hrecent
    rw [hrecent]
    exact mem_take_iff_getElem.mpr ⟨_, by omega, rfl⟩
  · intro he
    obtain ⟨i, hi, rfl⟩ := mem_take_iff_getElem.mp he
    rw [lt_min_iff] at hi
    exact ⟨_, Nat.mod_lt _ (Nat.zero_lt_of_lt hi.1),
      h.recent i hi.1 _ (getElem?_eq_getElem hi.2)⟩

end Holding

section
variable (R : ε → ε → Prop) [DecidableRel R]

def Repeats (log : List ε) (c : ε) : Prop := ∃ e ∈ log, R e c

instance (log : List ε) (c : ε) : Decidable (Repeats R log c) :=
  inferInstanceAs (Decidable (∃ e ∈ log, R e c))

def log (view : List ε → List ε) (call : ℕ → Option ε) : ℕ → List ε
  | 0 => []
  | n + 1 =>
    match call n with
    | none => log view call n
    | some c =>
      if Repeats R (view (log view call n)) c then log view call n else c :: log view call n

variable {R} {view : List ε → List ε} {call : ℕ → Option ε} {n : ℕ}

theorem log_succ_of_none (h : call n = none) : log R view call (n + 1) = log R view call n := by
  rw [log, h]

theorem log_succ_of_some {c : ε} (h : call n = some c) :
    log R view call (n + 1) =
      if Repeats R (view (log R view call n)) c then log R view call n
      else c :: log R view call n := by
  rw [log, h]

theorem mem_log {e : ε} : e ∈ log R view call n ↔
    ∃ k < n, call k = some e ∧ ¬Repeats R (view (log R view call k)) e := by
  induction n with
  | zero => simp [log]
  | succ n ih =>
    rw [Nat.exists_lt_succ_right, ← ih]
    cases hcall : call n with
    | none =>
      rw [log_succ_of_none hcall]
      simp
    | some c =>
      rw [log_succ_of_some hcall, Option.some.injEq]
      split_ifs with hrepeats
      · refine ⟨Or.inl, ?_⟩
        rintro (hmem | ⟨rfl, hnot⟩)
        · exact hmem
        · exact absurd hrepeats hnot
      · rw [mem_cons, or_comm]
        refine or_congr_right ⟨?_, fun h => h.1.symm⟩
        rintro rfl
        exact ⟨rfl, hrepeats⟩

theorem log_eq_of_agree (h : ∀ k < n, ∀ c, call k = some c → log R view call k = log R id call k →
        (Repeats R (view (log R id call k)) c ↔ Repeats R (log R id call k) c)) :
    log R view call n = log R id call n := by
  induction n with
  | zero => rfl
  | succ n ih =>
    have heq := ih fun k hk => h k (hk.trans n.lt_succ_self)
    cases hcall : call n with
    | none => rw [log_succ_of_none hcall, log_succ_of_none hcall, heq]
    | some c =>
      have hagree := h n n.lt_succ_self c hcall heq
      rw [log_succ_of_some hcall, log_succ_of_some hcall, heq]
      simp only [hagree, id]

theorem exact_iff (hview : ∀ l, view l ⊆ l) {len : ℕ} : (∀ n < len, ∀ c, call n = some c →
      (Repeats R (view (log R view call n)) c ↔ Repeats R (log R view call n) c)) ↔
    ∀ n < len, ∀ c, call n = some c → Repeats R (log R id call n) c →
      Repeats R (view (log R id call n)) c := by
  have hpart : ∀ l c, Repeats R (view l) c → Repeats R l c :=
    fun l c ⟨e, he, hR⟩ => ⟨e, hview l he, hR⟩
  constructor
  · intro h n hn c hcall
    have heq : log R view call n = log R id call n := by
      refine log_eq_of_agree fun k hk c hc hk' => ?_
      rw [← hk']
      exact h k (hk.trans hn) c hc
    rw [← heq]
    exact (h n hn c hcall).mpr
  · intro h n hn c hcall
    have heq : log R view call n = log R id call n :=
      log_eq_of_agree fun k hk c hc _ => ⟨hpart _ c, h k (hk.trans hn) c hc⟩
    rw [heq]
    exact ⟨hpart _ c, h n hn c hcall⟩

theorem log_of_fresh (hview : ∀ l, view l ⊆ l) {f : ℕ → ε} (hcall : ∀ k < n, call k = some (f k))
    (hfresh : ∀ j k, j < k → k < n → ¬R (f j) (f k)) :
    log R view call n = ((List.range n).map f).reverse := by
  induction n with
  | zero => rfl
  | succ n ih =>
    have hlog := ih (fun k hk => hcall k (hk.trans n.lt_succ_self))
      fun j k hjk hk => hfresh j k hjk (hk.trans n.lt_succ_self)
    have hnew : ¬Repeats R (view (log R view call n)) (f n) := by
      rintro ⟨e, he, hR⟩
      have hmem := hview _ he
      rw [hlog, mem_reverse, mem_map] at hmem
      obtain ⟨j, hj, rfl⟩ := hmem
      exact hfresh j n (mem_range.mp hj) n.lt_succ_self hR
    rw [log_succ_of_some (hcall n n.lt_succ_self), if_neg hnew, hlog, range_succ,
      map_append, reverse_append]
    rfl

end
end Norn.Recent
