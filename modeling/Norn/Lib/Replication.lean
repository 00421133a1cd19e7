import Mathlib

/-!
# Leader-based replication of a log

Nodes adopt prefixes of the log of the leader of their term. The state keeps the history the safety
argument is about: leaders, votes, candidacies and acknowledgements of every term.
-/

namespace Norn.Replication
open List
variable {N E : Type*}

structure State (N E : Type*) where
  term : N → ℕ
  log : N → List E
  lead : ℕ → Option (N × List E)
  acked : N → ℕ → ℕ → Prop
  vote : N → ℕ → Option N
  cand : N → ℕ → Option (List E)

def initial (N E : Type*) : State N E where
  term _ := 0
  log _ := []
  lead _ := none
  acked _ _ _ := False
  vote _ _ := none
  cand _ _ := none

def lastTerm (tm : E → ℕ) (X : List E) : ℕ := (X.getLast?).elim 0 tm

/-- The comparison of logs by which votes are given. -/
def UpToDate (tm : E → ℕ) (X Y : List E) : Prop :=
  lastTerm tm Y < lastTerm tm X ∨ (lastTerm tm X = lastTerm tm Y ∧ Y.length ≤ X.length)

/-- A log becomes the first entries of a leader's log, or has them already. -/
def Adopts (tm : E → ℕ) (X L : List E) (k : ℕ) (X' : List E) : Prop :=
  (X' = X ∧ L.take k <+: X) ∨
    (X' = L.take k ∧ (X <+: L.take k ∨
      ∃ p a b, p ++ [a] <+: X ∧ p ++ [b] <+: L.take k ∧ tm a ≠ tm b))

section
variable [DecidableEq N]
namespace State
variable (s : State N E)

def bump (n : N) (T : ℕ) : State N E :=
  { s with term := Function.update s.term n T }

def stand (n : N) (T : ℕ) : State N E :=
  { s with
    term := Function.update s.term n T
    vote := Function.update s.vote n (Function.update (s.vote n) T (some n))
    cand := Function.update s.cand n (Function.update (s.cand n) T (some (s.log n))) }

def grant (g c : N) : State N E :=
  { s with vote := Function.update s.vote g (Function.update (s.vote g) (s.term g) (some c)) }

def acknowledge (n : N) (k : ℕ) : N → ℕ → ℕ → Prop :=
  fun n' T m => s.acked n' T m ∨ (n' = n ∧ T = s.term n ∧ m = k)

def elect (c : N) : State N E :=
  { s with
    lead := Function.update s.lead (s.term c) (some (c, s.log c))
    acked := s.acknowledge c (s.log c).length }

def extend (c : N) (e : E) : State N E :=
  { s with
    log := Function.update s.log c (s.log c ++ [e])
    lead := Function.update s.lead (s.term c) (some (c, s.log c ++ [e]))
    acked := s.acknowledge c ((s.log c).length + 1) }

def adopt (n : N) (k : ℕ) (X : List E) : State N E :=
  { s with
    log := Function.update s.log n X
    acked := s.acknowledge n k }

end State

inductive Step (tm : E → ℕ) (elig : State N E → N → Prop) : State N E → State N E → Prop
  | bump {s : State N E} {n : N} {T : ℕ} (hT : s.term n < T) : Step tm elig s (s.bump n T)
  | stand {s : State N E} {n : N} {T : ℕ} (hT : s.term n < T) : Step tm elig s (s.stand n T)
  | grant {s : State N E} {g c : N} {L : List E}
      (hv : s.vote g (s.term g) = none ∨ s.vote g (s.term g) = some c)
      (hc : s.cand c (s.term g) = some L) (hu : UpToDate tm L (s.log g)) :
      Step tm elig s (s.grant g c)
  | elect {s : State N E} {c : N} (hpos : 0 < s.term c) (hnone : s.lead (s.term c) = none)
      (he : elig s c) : Step tm elig s (s.elect c)
  | extend {s : State N E} {c : N} {e : E} (hl : s.lead (s.term c) = some (c, s.log c))
      (he : tm e = s.term c) : Step tm elig s (s.extend c e)
  | adopt {s : State N E} {n c : N} {L X : List E} {k : ℕ}
      (hl : s.lead (s.term n) = some (c, L)) (hne : c ≠ n) (hk : k ≤ L.length)
      (ha : Adopts tm (s.log n) L k X) : Step tm elig s (s.adopt n k X)

def Steps (tm : E → ℕ) (elig : State N E → N → Prop) : State N E → State N E → Prop :=
  Relation.ReflTransGen (Step tm elig)

def Reachable (tm : E → ℕ) (elig : State N E → N → Prop) (s : State N E) : Prop :=
  Steps tm elig (initial N E) s

end

/-- What later states keep of the history. -/
structure Extends (s s' : State N E) : Prop where
  term : ∀ n, s.term n ≤ s'.term n
  lead : ∀ {T c L}, s.lead T = some (c, L) → ∃ L', s'.lead T = some (c, L') ∧ L <+: L'
  acked : ∀ {n T m}, s.acked n T m → s'.acked n T m
  vote : ∀ {g T c}, s.vote g T = some c → s'.vote g T = some c
  cand : ∀ {c T L}, s.cand c T = some L → s'.cand c T = some L

theorem Extends.refl (s : State N E) : Extends s s :=
  ⟨fun _ => le_rfl, fun h => ⟨_, h, prefix_rfl⟩, id, id, id⟩

theorem Extends.trans {s t u : State N E} (h : Extends s t) (h' : Extends t u) : Extends s u where
  term n := (h.term n).trans (h'.term n)
  lead hs := by
    obtain ⟨L, ht, hL⟩ := h.lead hs
    obtain ⟨L', hu, hL'⟩ := h'.lead ht
    exact ⟨L', hu, hL.trans hL'⟩
  acked hs := h'.acked (h.acked hs)
  vote hs := h'.vote (h.vote hs)
  cand hs := h'.cand (h.cand hs)

/-- Cut after any entry, the log is a prefix of the log of that entry's leader. -/
structure WellFormed (tm : E → ℕ) (s : State N E) (T : ℕ) (X : List E) : Prop where
  chained : ∀ p e, p ++ [e] <+: X → ∃ c L, s.lead (tm e) = some (c, L) ∧ p ++ [e] <+: L
  bounded : ∀ e ∈ X, tm e ≤ T
  sorted : X.Pairwise fun a b => tm a ≤ tm b

namespace WellFormed
variable {tm : E → ℕ} {s s' : State N E} {T T' : ℕ} {X Y : List E}

theorem nil : WellFormed tm s T [] where
  chained p e h := by simp at h
  bounded e he := by simp at he
  sorted := List.Pairwise.nil

theorem of_isPrefix (h : WellFormed tm s T X) (hY : Y <+: X) : WellFormed tm s T Y where
  chained p e hp := h.chained p e (hp.trans hY)
  bounded e he := h.bounded e (hY.subset he)
  sorted := h.sorted.sublist hY.sublist

theorem mono (h : WellFormed tm s T X) (hs : Extends s s') (hT : T ≤ T') :
    WellFormed tm s' T' X where
  chained p e hp := by
    obtain ⟨c, L, hl, hpL⟩ := h.chained p e hp
    obtain ⟨L', hl', hLL⟩ := hs.lead hl
    exact ⟨c, L', hl', hpL.trans hLL⟩
  bounded e he := (h.bounded e he).trans hT
  sorted := h.sorted

theorem cuts_eq (hX : WellFormed tm s T X) (hY : WellFormed tm s T' Y) {p q : List E} {a b : E}
    (hp : p ++ [a] <+: X) (hq : q ++ [b] <+: Y) (hlen : p.length = q.length) (ht : tm a = tm b) :
    p ++ [a] = q ++ [b] := by
  obtain ⟨c, L, hl, hpL⟩ := hX.chained p a hp
  obtain ⟨c', L', hl', hqL⟩ := hY.chained q b hq
  rw [ht, hl'] at hl
  obtain ⟨rfl, rfl⟩ : c' = c ∧ L' = L := by simpa using hl
  have hpq := prefix_of_prefix_length_le hpL hqL (by simp [hlen])
  exact hpq.eq_of_length (by simp [hlen])

theorem le_lastTerm (h : WellFormed tm s T X) {e : E} (he : e ∈ X) : tm e ≤ lastTerm tm X := by
  obtain ⟨Y, z, rfl⟩ : ∃ Y z, X = Y ++ [z] :=
    ⟨X.dropLast, X.getLast (ne_nil_of_mem he), (dropLast_append_getLast _).symm⟩
  simp only [lastTerm, getLast?_concat, Option.elim_some]
  rcases mem_append.mp he with hY | hz
  · exact (pairwise_append.mp h.sorted).2.2 e hY z (by simp)
  · rw [mem_singleton.mp hz]

end WellFormed

variable {X : List E} {k : ℕ} {tm : E → ℕ}

theorem getElem?_of_isPrefix {Y : List E} {i : ℕ} {a : E} (h : X <+: Y) (ha : X[i]? = some a) :
    Y[i]? = some a := by
  obtain ⟨Z, rfl⟩ := h
  have hi : i < X.length := (List.getElem?_eq_some_iff.mp ha).1
  rw [getElem?_append_left hi, ha]

theorem take_of_take_isPrefix {Y : List E} {m : ℕ} (h : X.take k <+: Y) (hk : k ≤ X.length)
    (hm : m ≤ k) : Y.take m = X.take m := by
  obtain ⟨Z, rfl⟩ := h
  have hlen : m ≤ (X.take k).length := by simp only [length_take]; omega
  rw [take_append_of_le_length hlen, take_take, min_eq_left hm]

theorem Adopts.keeps {L X' Y : List E} (h : Adopts tm X L k X') (hX : Y <+: X) (hL : Y <+: L) :
    Y <+: X' := by
  rcases h with ⟨rfl, _⟩ | ⟨rfl, hXL | ⟨p, a, b, ha, hb, hab⟩⟩
  · exact hX
  · exact hX.trans hXL
  · rcases Nat.lt_or_ge p.length Y.length with hlt | hge
    · have h1 : p ++ [a] <+: Y := prefix_of_prefix_length_le ha hX (by simpa using hlt)
      have h2 : p ++ [b] <+: Y :=
        prefix_of_prefix_length_le (hb.trans <| take_prefix _ _) hL (by simpa using hlt)
      have h3 := (prefix_of_prefix_length_le h1 h2 (by simp)).eq_of_length (by simp)
      have hba : a = b := by simpa using h3
      exact absurd (congrArg tm hba) hab
    · have hpL : p <+: L.take k := (prefix_append p [b]).trans hb
      exact (prefix_of_prefix_length_le hL
        (hpL.trans <| take_prefix _ _) hge).trans hpL

theorem Adopts.holds {L X' : List E} (h : Adopts tm X L k X') : L.take k <+: X' := by
  rcases h with ⟨rfl, hL⟩ | ⟨rfl, _⟩
  · exact hL
  · exact prefix_rfl

theorem Adopts.eq_or_isPrefix {L X' : List E} (h : Adopts tm X L k X') : X' = X ∨ X' <+: L := by
  rcases h with ⟨rfl, _⟩ | ⟨rfl, _⟩
  · exact .inl rfl
  · exact .inr <| take_prefix _ _

end Norn.Replication
