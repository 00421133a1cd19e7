import Mathlib

/-!
# Runs of transition systems, and machines that answer

States and labels of a run are addressed by position, so that statements may compare different
moments. A transducer answers each input with a list of outputs.
-/

namespace Norn
open List Option

structure System (σ α : Type*) where
  init : σ → Prop
  next : σ → α → σ → Prop

structure Run {σ α : Type*} (S : System σ α) where
  len : ℕ
  state : ℕ → σ
  event : ℕ → α
  start : S.init (state 0)
  steps : ∀ k < len, S.next (state k) (event k) (state (k + 1))

namespace Run
variable {σ α : Type*} {S : System σ α} (run : Run S)

theorem position_induction {P : ℕ → Prop} (hzero : P 0)
    (hstep : ∀ k < run.len, P k → P (k + 1)) : ∀ k ≤ run.len, P k := by
  intro k
  induction k with
  | zero => exact fun _ => hzero
  | succ k ih => exact fun hk => hstep k hk (ih (Nat.le_of_succ_le hk))

theorem invariant {I : σ → Prop} (hinit : ∀ s, S.init s → I s)
    (hnext : ∀ k < run.len, I (run.state k) → I (run.state (k + 1))) :
    ∀ k ≤ run.len, I (run.state k) :=
  run.position_induction (hinit _ run.start) hnext

theorem monotone_of_step {f : σ → ℕ}
    (hstep : ∀ k < run.len, f (run.state k) ≤ f (run.state (k + 1)))
    {i j : ℕ} (hij : i ≤ j) (hj : j ≤ run.len) : f (run.state i) ≤ f (run.state j) := by
  induction j, hij using Nat.le_induction with
  | base => exact le_rfl
  | succ j hij ih => exact (ih (Nat.le_of_succ_le hj)).trans (hstep j hj)

theorem holds_iff_since {P : ℕ → Prop} {A B : α → Prop} (hzero : ¬ P 0)
    (hstep : ∀ k < run.len, P (k + 1) ↔ A (run.event k) ∨ P k ∧ ¬ B (run.event k)) :
    ∀ k ≤ run.len, P k ↔ ∃ j < k, A (run.event j) ∧ ∀ i, j < i → i < k → ¬ B (run.event i) := by
  refine run.position_induction ?_ ?_
  · exact iff_of_false hzero fun ⟨j, hj, _⟩ => Nat.not_lt_zero j hj
  · intro k hk ih
    rw [hstep k hk, ih]
    constructor
    · rintro (hA | ⟨⟨j, hj, hA, hB⟩, hk⟩)
      · exact ⟨k, Nat.lt_succ_self k, hA, fun i hki hi => absurd hi (by omega)⟩
      · refine ⟨j, Nat.lt_succ_of_lt hj, hA, fun i hji hi => ?_⟩
        rcases Nat.lt_succ_iff_lt_or_eq.mp hi with hi | rfl
        · exact hB i hji hi
        · exact hk
    · rintro ⟨j, hj, hA, hB⟩
      rcases Nat.lt_succ_iff_lt_or_eq.mp hj with hj | rfl
      · exact .inr ⟨⟨j, hj, hA, fun i hji hi => hB i hji (Nat.lt_succ_of_lt hi)⟩,
          hB k hj (Nat.lt_succ_self k)⟩
      · exact .inl hA

end Run

def execute {σ α : Type*} (step : σ → α → Option σ) : σ → List α → Option σ
  | s, [] => some s
  | s, e :: es => (step s e).bind fun s' => execute step s' es

section
variable {σ α : Type*} {step : σ → α → Option σ}

theorem execute_append (s : σ) (es fs : List α) :
    execute step s (es ++ fs) = (execute step s es).bind fun s' => execute step s' fs := by
  induction es generalizing s with
  | nil => rfl
  | cons e es ih =>
    simp only [cons_append, execute, bind_assoc]
    exact bind_congr fun s' _ => ih s'

def Run.ofEvents {S : System σ α} [Inhabited α]
    (hS : ∀ s e s', step s e = some s' → S.next s e s') (s : σ) (hs : S.init s) (es : List α)
    (hes : (execute step s es).isSome) : Run S where
  len := es.length
  state k := (execute step s (es.take k)).getD s
  event k := es.getD k default
  start := hs
  steps k hk := by
    apply hS
    have hall : execute step s (es.take (k + 1) ++ es.drop (k + 1)) = execute step s es := by
      rw [List.take_append_drop]
    rw [← hall, execute_append, Option.isSome_bind, Option.any_eq_true] at hes
    obtain ⟨s', hs', _⟩ := hes
    rw [hs']
    rw [← List.take_append_getElem hk, execute_append, Option.bind_eq_some_iff] at hs'
    obtain ⟨t, ht, hstep⟩ := hs'
    rw [ht, List.getD_eq_getElem _ _ hk]
    simpa [execute] using hstep

def Run.ofTotal {S : System σ α} [Inhabited α] (f : σ → α → σ) (hS : ∀ s e, S.next s e (f s e))
    (s : σ) (hs : S.init s) (es : List α) : Run S where
  len := es.length
  state k := (es.take k).foldl f s
  event k := es.getD k default
  start := hs
  steps k hk := by
    rw [getD_eq_getElem _ _ hk, ← take_append_getElem hk, foldl_append]
    exact hS _ _

end

abbrev Transducer (σ α β : Type*) := σ → α → σ × List β

namespace Transducer
variable {σ τ α β γ δ : Type*}

def exec (M : Transducer σ α β) : σ → List α → σ × List β
  | s, [] => (s, [])
  | s, a :: as => ((exec M (M s a).1 as).1, (M s a).2 ++ (exec M (M s a).1 as).2)

def Along (M : Transducer σ α β) (P : σ → α → Prop) : σ → List α → Prop
  | _, [] => True
  | s, a :: as => P s a ∧ Along M P (M s a).1 as

instance decidableAlong (M : Transducer σ α β) (P : σ → α → Prop) [∀ s a, Decidable (P s a)] :
    ∀ s as, Decidable (M.Along P s as)
  | _, [] => .isTrue trivial
  | s, a :: as => @instDecidableAnd _ _ _ (decidableAlong M P (M s a).1 as)

theorem exec_append (M : Transducer σ α β) (s : σ) (as bs : List α) :
    M.exec s (as ++ bs) = ((M.exec (M.exec s as).1 bs).1,
      (M.exec s as).2 ++ (M.exec (M.exec s as).1 bs).2) := by
  induction as generalizing s with
  | nil => rfl
  | cons a as ih => simp only [cons_append, exec, ih, append_assoc]

variable {M : Transducer σ α β} {I : σ → Prop} {s : σ} {P : σ → α → Prop} {as : List α}

theorem exec_invariant (h : ∀ s a, I s → I (M s a).1) (hs : I s) (as : List α) :
    I (M.exec s as).1 := by
  induction as generalizing s with
  | nil => exact hs
  | cons a as ih => exact ih (h s a hs)

theorem along_iff {Q : σ → α → Prop} (hiff : ∀ {s a}, I s → (P s a ↔ Q s a))
    (hnext : ∀ {s a}, I s → Q s a → I (M s a).1) (hs : I s) (as : List α) :
    M.Along P s as ↔ M.Along Q s as := by
  induction as generalizing s with
  | nil => exact Iff.rfl
  | cons a as ih =>
    rw [Along, Along, hiff hs]
    exact and_congr_right fun ha => ih (hnext hs ha)

theorem along_keeps_iff {P : σ → Prop} :
    M.Along (fun s a => P s → P (M s a).1) s as ↔ ∀ xs ys, xs ++ ys <+: as →
      P (M.exec s xs).1 → P (M.exec s (xs ++ ys)).1 := by
  induction as generalizing s with
  | nil =>
    refine ⟨fun _ xs ys hpre hs => ?_, fun _ => trivial⟩
    obtain ⟨rfl, rfl⟩ := append_eq_nil_iff.mp (prefix_nil.mp hpre)
    exact hs
  | cons a as ih =>
    rw [Along, ih]
    constructor
    · rintro ⟨ha, hrest⟩ xs ys hpre hs
      cases xs with
      | nil =>
        cases ys with
        | nil => exact hs
        | cons b ys =>
          obtain ⟨rfl, htail⟩ := cons_prefix_cons.mp hpre
          exact hrest [] ys htail (ha hs)
      | cons b xs =>
        obtain ⟨rfl, htail⟩ := cons_prefix_cons.mp hpre
        exact hrest xs ys htail hs
    · intro h
      refine ⟨fun hs => ?_, fun xs ys hpre hs => ?_⟩
      · exact h [] [a] (cons_prefix_cons.mpr ⟨rfl, nil_prefix⟩) hs
      · exact h (a :: xs) ys (cons_prefix_cons.mpr ⟨rfl, hpre⟩) hs

/-- `N` does on its inputs what is seen of `M`. -/
structure IsPart (N : Transducer τ γ δ) (M : Transducer σ α β) (P : σ → α → Prop)
    (R : σ → τ → Prop) (p : α → Option γ) (q : β → Option δ) : Prop where
  own : ∀ {s t a c}, R s t → P s a → p a = some c →
    R (M s a).1 (N t c).1 ∧ (M s a).2.filterMap q = (N t c).2
  other : ∀ {s t a}, R s t → P s a → p a = none → R (M s a).1 t ∧ (M s a).2.filterMap q = []

theorem IsPart.exec {N : Transducer τ γ δ} {R : σ → τ → Prop} {p : α → Option γ} {q : β → Option δ}
    (h : N.IsPart M P R p q) {t : τ} (hR : R s t) (hP : M.Along P s as) :
    R (M.exec s as).1 (N.exec t (as.filterMap p)).1 ∧
      (M.exec s as).2.filterMap q = (N.exec t (as.filterMap p)).2 := by
  induction as generalizing s t with
  | nil => exact ⟨hR, rfl⟩
  | cons a as ih =>
    obtain ⟨ha, has⟩ := hP
    simp only [Transducer.exec, filterMap_append]
    cases hp : p a with
    | none =>
      obtain ⟨hR', hout⟩ := h.other hR ha hp
      obtain ⟨hend, hrest⟩ := ih hR' has
      rw [filterMap_cons_none hp, hout, nil_append]
      exact ⟨hend, hrest⟩
    | some c =>
      obtain ⟨hR', hout⟩ := h.own hR ha hp
      obtain ⟨hend, hrest⟩ := ih hR' has
      rw [filterMap_cons_some hp, hout]
      exact ⟨hend, congrArg _ hrest⟩

end Transducer

end Norn
