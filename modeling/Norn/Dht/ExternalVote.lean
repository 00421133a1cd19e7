import Norn.Lib.Tally

/-!
# The external endpoint

The endpoints that others report are counted with eight counters (`net.c`).
-/

namespace Norn
open List Option

def extMaxVotes : ℕ := 8
def extConfirmThreshold : ℕ := 2

structure NetState where
  mapped : Bool
  extVotes : List (Counter (ℕ × ℕ))
  natSymmetric : Bool
  external : Option (ℕ × ℕ)

namespace NetState

def init : NetState := ⟨false, [], false, none⟩

def diverges : List (Counter (ℕ × ℕ)) → Bool
  | [] => false
  | v :: votes => votes.any (fun w =>
      v.key.1 = w.key.1 && v.key.2 ≠ w.key.2 && 2 ≤ v.count && 2 ≤ w.count) || diverges votes

def netUpdateExternalIp (net : NetState) (o : ℕ × ℕ) : NetState :=
  if o.1 = 0 ∨ net.mapped then net
  else
    let votes := Tally.add extMaxVotes net.extVotes o
    { net with
      extVotes := votes
      natSymmetric := net.natSymmetric || diverges votes
      external :=
        match Tally.best votes with
        | some v => if extConfirmThreshold ≤ v.count then some v.key else net.external
        | none => net.external }

def observe (os : List (ℕ × ℕ)) : NetState := os.foldl netUpdateExternalIp init

def heard (os : List (ℕ × ℕ)) : List (ℕ × ℕ) := os.filter fun o => o.1 ≠ 0

def leader (votes : List (Counter (ℕ × ℕ))) : Option (ℕ × ℕ) :=
  ((Tally.best votes).filter fun v => extConfirmThreshold ≤ v.count).map Counter.key

variable {net : NetState} {os : List (ℕ × ℕ)} {w : ℕ × ℕ}

theorem external_update (h : net.external = leader net.extVotes) (o : ℕ × ℕ) :
    (match Tally.best (Tally.add extMaxVotes net.extVotes o) with
      | some v => if extConfirmThreshold ≤ v.count then some v.key else net.external
      | none => net.external) = leader (Tally.add extMaxVotes net.extVotes o) := by
  have hnone (hfew : ∀ d ∈ Tally.add extMaxVotes net.extVotes o, ¬ extConfirmThreshold ≤ d.count) :
      net.external = none := by
    rw [h, leader, map_eq_none_iff, filter_eq_none_iff]
    intro b hb
    obtain ⟨d, hd, hle⟩ := Tally.exists_le_add extMaxVotes (Tally.best_spec hb).1 o
    simpa using fun hcount => hfew d hd (le_trans hcount hle)
  rw [leader]
  cases hbest : Tally.best (Tally.add extMaxVotes net.extVotes o) with
  | none =>
    refine hnone ?_
    intro d hd
    obtain ⟨c, hc⟩ := Tally.exists_best (ne_nil_of_mem hd)
    cases hbest.symm.trans hc
  | some v =>
    obtain ⟨-, hmax⟩ := Tally.best_spec hbest
    dsimp only
    split_ifs with hcount
    · rw [filter_some_pos (by simpa using hcount)]
      rfl
    · rw [filter_some_neg (by simpa using hcount)]
      exact hnone fun d hd hd' => hcount (hd'.trans (hmax d hd))

/-- The counters and the endpoint believed are those of what was heard. -/
structure Knows (os : List (ℕ × ℕ)) (net : NetState) : Prop where
  mapped : net.mapped = false
  counts : Tally.Counts extMaxVotes (heard os) net.extVotes
  external : net.external = leader net.extVotes

theorem Knows.update (h : Knows os net) (o : ℕ × ℕ) :
    Knows (os ++ [o]) (net.netUpdateExternalIp o) := by
  have hheard : heard (os ++ [o]) = heard os ++ heard [o] := filter_append os [o]
  unfold netUpdateExternalIp
  by_cases ho : o.1 = 0
  · have hzero : heard [o] = [] := filter_cons_of_neg (by simpa using ho)
    rw [if_pos (.inl ho)]
    refine ⟨h.mapped, ?_, h.external⟩
    rw [hheard, hzero, append_nil]
    exact h.counts
  · have hone : heard [o] = [o] := filter_cons_of_pos (by simpa using ho)
    rw [if_neg (by simp [ho, h.mapped])]
    refine ⟨h.mapped, ?_, external_update h.external o⟩
    rw [hheard, hone]
    exact h.counts.add o

theorem knows_observe (os : List (ℕ × ℕ)) : Knows os (observe os) := by
  induction os using reverseRecOn with
  | nil => exact ⟨rfl, Tally.Counts.nil _, rfl⟩
  | append_singleton os o ih =>
    rw [observe, foldl_append]
    exact ih.update o

/-- Seen twice at least, and more often than any other. -/
def Leads (os : List (ℕ × ℕ)) (w : ℕ × ℕ) : Prop :=
  2 ≤ os.countP (· = w) ∧ ∀ v ≠ w, os.countP (· = v) < os.countP (· = w)

/-- When it was first seen a counter was free. -/
def SeenEarly (os : List (ℕ × ℕ)) (w : ℕ × ℕ) : Prop :=
  w.1 ≠ 0 ∧ ((heard os).takeWhile (· ≠ w)).toFinset.card < extMaxVotes

theorem count_heard (hw : w.1 ≠ 0) : (heard os).countP (· = w) = os.countP (· = w) := by
  rw [heard, countP_filter]
  refine countP_congr fun o _ => ?_
  simp only [Bool.and_eq_true, decide_eq_true_eq, and_iff_left_iff_imp]
  rintro rfl
  exact hw

theorem external_eq_iff (h : Leads os w) : (observe os).external = some w ↔ SeenEarly os w := by
  have hknows := knows_observe os
  have hmem (a : ℕ × ℕ) : a ∈ (observe os).extVotes.map Counter.key ↔ a ∈ heard os ∧ _ :=
    hknows.counts.mem_iff a
  rw [hknows.external, leader]
  constructor
  · intro hleader
    obtain ⟨v, hv, rfl⟩ := map_eq_some_iff.mp hleader
    obtain ⟨hbest, -⟩ := filter_eq_some_iff.mp hv
    obtain ⟨hheard, hcard⟩ := (hmem v.key).mp (mem_map_of_mem (Tally.best_spec hbest).1)
    rw [heard, mem_filter] at hheard
    exact ⟨by simpa using hheard.2, hcard⟩
  · rintro ⟨hne, hcard⟩
    have hheard : w ∈ heard os := by
      have hpos : 0 < (heard os).countP (· = w) := by
        rw [count_heard hne]
        exact lt_of_lt_of_le Nat.two_pos h.1
      obtain ⟨o, ho, heq⟩ := countP_pos_iff.mp hpos
      exact of_decide_eq_true heq ▸ ho
    obtain ⟨c, hc, rfl⟩ := mem_map.mp ((hmem w).mpr ⟨hheard, hcard⟩)
    obtain ⟨b, hbest⟩ := Tally.exists_best (ne_nil_of_mem hc)
    obtain ⟨hb, hmax⟩ := Tally.best_spec hbest
    have hcount : c.count = os.countP (· = c.key) := by
      rw [hknows.counts.count c hc, count_heard hne]
    have hkey : b.key = c.key := by
      by_contra hother
      have hle := hmax c hc
      have hlt := h.2 b.key hother
      have hb' := ((hmem b.key).mp (mem_map_of_mem hb)).1
      rw [heard, mem_filter] at hb'
      rw [hcount, hknows.counts.count b hb, count_heard (by simpa using hb'.2)] at hle
      omega
    obtain rfl := inj_on_of_nodup_map hknows.counts.nodup hb hc hkey
    have henough : extConfirmThreshold ≤ b.count := hcount ▸ h.1
    rw [hbest, filter_some_pos (by simpa using henough)]
    rfl

end NetState

open NetState

/-- The endpoint seen most often is believed, if it was seen early. -/
theorem external_leads_iff_seenEarly (os : List (ℕ × ℕ)) :
    (∀ w, Leads os w → (observe os).external = some w) ↔ ∀ w, Leads os w → SeenEarly os w :=
  forall₂_congr fun _ h => external_eq_iff h

def lateWinner : List (ℕ × ℕ) :=
  [(1, 1), (2, 1), (3, 1), (4, 1), (5, 1), (6, 1), (7, 1), (8, 1), (9, 1), (9, 1)]

theorem lateWinner_not_external :
    Leads lateWinner (9, 1) ∧ (observe lateWinner).external = none := by
  refine ⟨⟨by decide, ?_⟩, by decide⟩
  intro v hv
  by_cases hmem : v ∈ lateWinner
  · have hall : ∀ v ∈ lateWinner, v ≠ (9, 1) →
        lateWinner.countP (· = v) < lateWinner.countP (· = (9, 1)) := by decide
    exact hall v hmem hv
  · have hzero : lateWinner.countP (· = v) = 0 :=
      countP_eq_zero.mpr fun o ho => by simpa using ne_of_mem_of_not_mem ho hmem
    rw [hzero]
    decide

end Norn
