import Norn.Lib.Replication

/-!
# Invariants of leader-based replication

What holds in every reachable state, whatever entitles a node to lead a term that had no leader.
-/

namespace Norn.Replication
open Function
variable {N E : Type*}

structure Inv (tm : E → ℕ) (s : State N E) : Prop where
  lead_pos : ∀ {T c L}, s.lead T = some (c, L) → 0 < T
  lead_le : ∀ {T c L}, s.lead T = some (c, L) → T ≤ s.term c
  lead_log : ∀ {T c L}, s.lead T = some (c, L) → s.term c = T → s.log c = L
  log_ok : ∀ n, WellFormed tm s (s.term n) (s.log n)
  lead_ok : ∀ {T c L}, s.lead T = some (c, L) → WellFormed tm s T L
  cand_ok : ∀ {T c L}, s.cand c T = some L → WellFormed tm s T L
  cand_le : ∀ {T c L}, s.cand c T = some L → T ≤ s.term c
  vote_le : ∀ {T g c}, s.vote g T = some c → T ≤ s.term g
  vote_cand : ∀ {T g c}, s.vote g T = some c → ∃ L, s.cand c T = some L
  acked_le : ∀ {n T m}, s.acked n T m → T ≤ s.term n
  acked_lead : ∀ {n T m}, s.acked n T m → ∃ c L, s.lead T = some (c, L) ∧ m ≤ L.length

theorem inv_initial (tm : E → ℕ) : Inv tm (initial N E) where
  lead_pos h := by simp [initial] at h
  lead_le h := by simp [initial] at h
  lead_log h := by simp [initial] at h
  log_ok _ := WellFormed.nil
  lead_ok h := by simp [initial] at h
  cand_ok h := by simp [initial] at h
  cand_le h := by simp [initial] at h
  vote_le h := by simp [initial] at h
  vote_cand h := by simp [initial] at h
  acked_le h := h.elim
  acked_lead h := h.elim

namespace Inv
variable {tm : E → ℕ} {s : State N E} {T : ℕ} {X : List E} {e : E}

theorem term_lt_of_no_leader (hX : WellFormed tm s T X) (hnone : s.lead T = none) (he : e ∈ X) :
    tm e < T := by
  refine lt_of_le_of_ne (hX.bounded e he) fun heq => ?_
  obtain ⟨p, q, rfl⟩ := List.append_of_mem he
  obtain ⟨c, L, hl, _⟩ := hX.chained p e ⟨q, by simp⟩
  rw [heq, hnone] at hl
  cases hl

section
variable (hI : Inv tm s)
include hI
variable {n c : N} {s' : State N E} {k : ℕ}

theorem vote_fresh (hT : s.term n < T) : s.vote n T = none := by
  cases hv : s.vote n T with
  | none => rfl
  | some c => exact absurd (hI.vote_le hv) (by omega)

theorem cand_fresh (hT : s.term n < T) : s.cand n T = none := by
  cases hc : s.cand n T with
  | none => rfl
  | some L => exact absurd (hI.cand_le hc) (by omega)

theorem acked_acknowledge (hx : Extends s s') (hs : s'.acked = s.acknowledge n k)
    (hk : ∃ c L, s'.lead (s.term n) = some (c, L) ∧ k ≤ L.length) :
    (∀ {n' T m}, s'.acked n' T m → T ≤ s'.term n') ∧
      (∀ {n' T m}, s'.acked n' T m → ∃ c L, s'.lead T = some (c, L) ∧ m ≤ L.length) := by
  rw [hs]
  refine ⟨?_, ?_⟩
  · rintro n' T m (h | ⟨rfl, rfl, rfl⟩)
    · exact (hI.acked_le h).trans (hx.term n')
    · exact hx.term n'
  · rintro n' T m (h | ⟨rfl, rfl, rfl⟩)
    · obtain ⟨c, L, hl, hm⟩ := hI.acked_lead h
      obtain ⟨L', hl', hLL⟩ := hx.lead hl
      exact ⟨c, L', hl', hm.trans hLL.length_le⟩
    · exact hk

variable [DecidableEq N]
omit hI in
theorem term_le_update (hT : s.term n < T) (n' : N) : s.term n' ≤ Function.update s.term n T n' := by
  rcases eq_or_ne n' n with rfl | hne
  · simpa using hT.le
  · simp [update_of_ne hne]

omit hI in
theorem extends_bump (hT : s.term n < T) : Extends s (s.bump n T) :=
  { Extends.refl s with term := term_le_update hT }

theorem extends_stand (hT : s.term n < T) : Extends s (s.stand n T) where
  term := term_le_update hT
  lead h := ⟨_, h, List.prefix_rfl⟩
  acked := id
  vote {g T' c} h := by
    rcases eq_or_ne g n with rfl | hg
    · have hne : T' ≠ T := fun he => by rw [he, hI.vote_fresh hT] at h; cases h
      simpa [State.stand, update_of_ne hne] using h
    · simpa [State.stand, update_of_ne hg] using h
  cand {c T' L} h := by
    rcases eq_or_ne c n with rfl | hc
    · have hne : T' ≠ T := fun he => by rw [he, hI.cand_fresh hT] at h; cases h
      simpa [State.stand, update_of_ne hne] using h
    · simpa [State.stand, update_of_ne hc] using h

omit hI in
theorem extends_grant {g : N} (hv : s.vote g (s.term g) = none ∨ s.vote g (s.term g) = some c) :
    Extends s (s.grant g c) :=
  { Extends.refl s with
    vote := by
      intro g' T' c' h
      rcases eq_or_ne g' g with rfl | hg
      · rcases eq_or_ne T' (s.term g') with rfl | hT
        · rcases hv with hv | hv <;> rw [hv] at h <;> cases h
          simp [State.grant]
        · simpa [State.grant, update_of_ne hT] using h
      · simpa [State.grant, update_of_ne hg] using h }

omit hI [DecidableEq N] in
theorem extends_elect (hnone : s.lead (s.term c) = none) : Extends s (s.elect c) :=
  { Extends.refl s with
    lead := by
      intro T c' L h
      have hne : T ≠ s.term c := fun he => by rw [he, hnone] at h; cases h
      exact ⟨L, by simpa [State.elect, update_of_ne hne] using h, List.prefix_rfl⟩
    acked := fun h => .inl h }

omit hI in
theorem extends_extend (hl : s.lead (s.term c) = some (c, s.log c)) : Extends s (s.extend c e) :=
  { Extends.refl s with
    lead := by
      intro T c' L h
      rcases eq_or_ne T (s.term c) with rfl | hne
      · rw [hl] at h
        cases h
        exact ⟨s.log c ++ [e], by simp [State.extend], List.prefix_append _ _⟩
      · exact ⟨L, by simpa [State.extend, update_of_ne hne] using h, List.prefix_rfl⟩
    acked := fun h => .inl h }

omit hI in
theorem extends_adopt : Extends s (s.adopt n k X) :=
  { Extends.refl s with acked := fun h => .inl h }

theorem extends_of_step {elig : State N E → N → Prop} (h : Step tm elig s s') : Extends s s' := by
  cases h with
  | bump hT => exact extends_bump hT
  | stand hT => exact hI.extends_stand hT
  | grant hv => exact extends_grant hv
  | elect _ hnone => exact extends_elect hnone
  | extend hl => exact extends_extend hl
  | adopt => exact extends_adopt

end

section
variable [DecidableEq N] (hI : Inv tm s)
include hI
variable {n c : N} {s' : State N E} {elig : State N E → N → Prop}

theorem bump (hT : s.term n < T) : Inv tm (s.bump n T) := by
  have hx : Extends s (s.bump n T) := extends_bump hT
  refine ⟨hI.lead_pos, fun h => (hI.lead_le h).trans (hx.term _), ?_, fun n' => ?_,
    fun h => (hI.lead_ok h).mono hx le_rfl, fun h => (hI.cand_ok h).mono hx le_rfl,
    fun h => (hI.cand_le h).trans (hx.term _), fun h => (hI.vote_le h).trans (hx.term _),
    hI.vote_cand, fun h => (hI.acked_le h).trans (hx.term _), hI.acked_lead⟩
  · intro T' c L h hterm
    rcases eq_or_ne c n with rfl | hne
    · have := hI.lead_le h
      simp only [State.bump, update_self] at hterm
      omega
    · exact hI.lead_log h (by simpa [State.bump, update_of_ne hne] using hterm)
  · exact (hI.log_ok n').mono hx (hx.term n')

theorem stand (hT : s.term n < T) : Inv tm (s.stand n T) := by
  have hx : Extends s (s.stand n T) := hI.extends_stand hT
  have hb := hI.bump hT
  have hself : (s.stand n T).term n = T := by simp [State.stand]
  refine ⟨hI.lead_pos, hb.lead_le, hb.lead_log, fun n' => (hI.log_ok n').mono hx (hx.term n'),
    fun h => (hI.lead_ok h).mono hx le_rfl, ?_, ?_, ?_, ?_, hb.acked_le, hI.acked_lead⟩
  · intro T' c L h
    rcases eq_or_ne c n with rfl | hc
    · rcases eq_or_ne T' T with rfl | hne
      · simp only [State.stand, update_self, Option.some.injEq] at h
        subst h
        exact (hI.log_ok c).mono hx hT.le
      · simp only [State.stand, update_self, update_of_ne hne] at h
        exact (hI.cand_ok h).mono hx le_rfl
    · simp only [State.stand, update_of_ne hc] at h
      exact (hI.cand_ok h).mono hx le_rfl
  · intro T' c L h
    rcases eq_or_ne c n with rfl | hc
    · rcases eq_or_ne T' T with rfl | hne
      · rw [hself]
      · simp only [State.stand, update_self, update_of_ne hne] at h
        exact (hI.cand_le h).trans (hx.term _)
    · simp only [State.stand, update_of_ne hc] at h
      exact (hI.cand_le h).trans (hx.term _)
  · intro T' g c h
    rcases eq_or_ne g n with rfl | hg
    · rcases eq_or_ne T' T with rfl | hne
      · rw [hself]
      · simp only [State.stand, update_self, update_of_ne hne] at h
        exact (hI.vote_le h).trans (hx.term _)
    · simp only [State.stand, update_of_ne hg] at h
      exact (hI.vote_le h).trans (hx.term _)
  · intro T' g c h
    have hold : s.vote g T' = some c → ∃ L, (s.stand n T).cand c T' = some L := fun h => by
      obtain ⟨L, hL⟩ := hI.vote_cand h
      exact ⟨L, hx.cand hL⟩
    rcases eq_or_ne g n with rfl | hg
    · rcases eq_or_ne T' T with rfl | hne
      · obtain rfl : g = c := by simpa [State.stand] using h
        exact ⟨s.log g, by simp [State.stand]⟩
      · simp only [State.stand, update_self, update_of_ne hne] at h
        exact hold h
    · simp only [State.stand, update_of_ne hg] at h
      exact hold h

theorem grant {g : N} {L : List E} (hv : s.vote g (s.term g) = none ∨ s.vote g (s.term g) = some c)
    (hc : s.cand c (s.term g) = some L) : Inv tm (s.grant g c) := by
  have hx : Extends s (s.grant g c) := extends_grant hv
  refine ⟨hI.lead_pos, hI.lead_le, hI.lead_log, fun n => (hI.log_ok n).mono hx le_rfl,
    fun h => (hI.lead_ok h).mono hx le_rfl, fun h => (hI.cand_ok h).mono hx le_rfl, hI.cand_le,
    ?_, ?_, hI.acked_le, hI.acked_lead⟩
  all_goals
    intro T' g' c' h
    rcases eq_or_ne g' g with rfl | hg
    · rcases eq_or_ne T' (s.term g') with rfl | hne
      · simp only [State.grant, update_self, Option.some.injEq] at h
        subst h
        first | exact le_rfl | exact ⟨L, hc⟩
      · simp only [State.grant, update_self, update_of_ne hne] at h
        first | exact hI.vote_le h | exact hI.vote_cand h
    · simp only [State.grant, update_of_ne hg] at h
      first | exact hI.vote_le h | exact hI.vote_cand h

omit [DecidableEq N] in
theorem elect (hpos : 0 < s.term c) (hnone : s.lead (s.term c) = none) : Inv tm (s.elect c) := by
  have hx : Extends s (s.elect c) := extends_elect hnone
  have hself : (s.elect c).lead (s.term c) = some (c, s.log c) := by simp [State.elect]
  have hcases : ∀ {T c' L}, (s.elect c).lead T = some (c', L) →
      (T = s.term c ∧ c' = c ∧ L = s.log c) ∨ s.lead T = some (c', L) := by
    intro T c' L h
    rcases eq_or_ne T (s.term c) with rfl | hne
    · rw [hself] at h
      cases h
      exact .inl ⟨rfl, rfl, rfl⟩
    · exact .inr (by simpa [State.elect, update_of_ne hne] using h)
  obtain ⟨hle, hlead⟩ := hI.acked_acknowledge hx rfl ⟨c, s.log c, hself, le_rfl⟩
  refine ⟨fun h => ?_, fun h => ?_, fun h hT => ?_, fun n => (hI.log_ok n).mono hx le_rfl,
    fun h => ?_, fun h => (hI.cand_ok h).mono hx le_rfl, hI.cand_le, hI.vote_le, hI.vote_cand,
    hle, hlead⟩
  all_goals rcases hcases h with ⟨rfl, rfl, rfl⟩ | h'
  · exact hpos
  · exact hI.lead_pos h'
  · exact le_rfl
  · exact hI.lead_le h'
  · rfl
  · exact hI.lead_log h' hT
  · exact (hI.log_ok _).mono hx le_rfl
  · exact (hI.lead_ok h').mono hx le_rfl

theorem extend (hl : s.lead (s.term c) = some (c, s.log c)) (he : tm e = s.term c) :
    Inv tm (s.extend c e) := by
  have hx : Extends s (s.extend c e) := extends_extend hl
  have hself : (s.extend c e).lead (s.term c) = some (c, s.log c ++ [e]) := by simp [State.extend]
  have hlog : (s.extend c e).log c = s.log c ++ [e] := by simp [State.extend]
  have hcases : ∀ {T c' L}, (s.extend c e).lead T = some (c', L) →
      (T = s.term c ∧ c' = c ∧ L = s.log c ++ [e]) ∨ (T ≠ s.term c ∧ s.lead T = some (c', L)) := by
    intro T c' L h
    rcases eq_or_ne T (s.term c) with rfl | hne
    · rw [hself] at h
      cases h
      exact .inl ⟨rfl, rfl, rfl⟩
    · exact .inr ⟨hne, by simpa [State.extend, update_of_ne hne] using h⟩
  have hwf : WellFormed tm (s.extend c e) (s.term c) (s.log c ++ [e]) := by
    have hold := (hI.log_ok c).mono hx le_rfl
    refine ⟨fun p a hp => ?_, fun a ha => ?_, ?_⟩
    · rcases List.prefix_concat_iff.mp hp with heq | hp'
      · obtain ⟨rfl, rfl⟩ : p = s.log c ∧ a = e := by simpa using heq
        exact ⟨c, _, by rw [he]; exact hself, List.prefix_rfl⟩
      · exact hold.chained p a hp'
    · rcases List.mem_append.mp ha with ha | ha
      · exact hold.bounded a ha
      · rw [List.mem_singleton.mp ha, he]
    · refine List.pairwise_append.mpr ⟨hold.sorted, by simp, fun a ha b hb => ?_⟩
      rw [List.mem_singleton.mp hb, he]
      exact hold.bounded a ha
  obtain ⟨hle, hlead⟩ := hI.acked_acknowledge hx rfl ⟨c, _, hself, by simp⟩
  refine ⟨fun h => ?_, fun h => ?_, fun h hT => ?_, fun n => ?_, fun h => ?_,
    fun h => (hI.cand_ok h).mono hx le_rfl, hI.cand_le, hI.vote_le, hI.vote_cand, hle, hlead⟩
  · exact (hcases h).elim (fun h' => h'.1 ▸ hI.lead_pos hl) fun h' => hI.lead_pos h'.2
  · rcases hcases h with ⟨rfl, rfl, rfl⟩ | ⟨_, h'⟩
    · exact le_rfl
    · exact hI.lead_le h'
  · rcases hcases h with ⟨rfl, rfl, rfl⟩ | ⟨hne, h'⟩
    · exact hlog
    · rename_i T c' L
      have hc : c' ≠ c := fun hc => hne (by rw [← hT, hc]; rfl)
      have := hI.lead_log h' hT
      simpa [State.extend, update_of_ne hc] using this
  · rcases eq_or_ne n c with rfl | hn
    · rw [hlog]
      exact hwf
    · have : (s.extend c e).log n = s.log n := by simp [State.extend, update_of_ne hn]
      rw [this]
      exact (hI.log_ok n).mono hx le_rfl
  · rcases hcases h with ⟨rfl, rfl, rfl⟩ | ⟨_, h'⟩
    · exact hwf
    · exact (hI.lead_ok h').mono hx le_rfl

theorem adopt {L : List E} {k : ℕ} (hl : s.lead (s.term n) = some (c, L)) (hne : c ≠ n)
    (hk : k ≤ L.length) (ha : Adopts tm (s.log n) L k X) : Inv tm (s.adopt n k X) := by
  have hx : Extends s (s.adopt n k X) := extends_adopt
  have hlog : (s.adopt n k X).log n = X := by simp [State.adopt]
  obtain ⟨hle, hlead⟩ := hI.acked_acknowledge hx rfl ⟨c, L, hl, hk⟩
  refine ⟨hI.lead_pos, hI.lead_le, fun h hT => ?_, fun n' => ?_,
    fun h => (hI.lead_ok h).mono hx le_rfl, fun h => (hI.cand_ok h).mono hx le_rfl, hI.cand_le,
    hI.vote_le, hI.vote_cand, hle, hlead⟩
  · rename_i T c' L'
    have hc : c' ≠ n := by
      rintro rfl
      have hT' : s.term c' = T := hT
      rw [hT', show s.lead T = some (c', L') from h] at hl
      exact hne (by cases hl; rfl)
    simpa [State.adopt, update_of_ne hc] using hI.lead_log h hT
  · rcases eq_or_ne n' n with rfl | hn
    · rw [hlog]
      rcases ha.eq_or_isPrefix with rfl | hX
      · exact (hI.log_ok n').mono hx le_rfl
      · exact ((hI.lead_ok hl).of_isPrefix hX).mono hx le_rfl
    · have : (s.adopt n k X).log n' = s.log n' := by simp [State.adopt, update_of_ne hn]
      rw [this]
      exact (hI.log_ok n').mono hx le_rfl

theorem step (h : Step tm elig s s') : Inv tm s' := by
  cases h with
  | bump hT => exact hI.bump hT
  | stand hT => exact hI.stand hT
  | grant hv hc => exact hI.grant hv hc
  | elect hpos hnone => exact hI.elect hpos hnone
  | extend hl he => exact hI.extend hl he
  | adopt hl hne hk ha => exact hI.adopt hl hne hk ha

theorem steps (h : Steps tm elig s s') : Inv tm s' ∧ Extends s s' := by
  induction h with
  | refl => exact ⟨hI, Extends.refl s⟩
  | tail _ hstep ih => exact ⟨ih.1.step hstep, ih.2.trans (ih.1.extends_of_step hstep)⟩

end
end Inv

theorem Reachable.inv [DecidableEq N] {tm : E → ℕ} {elig : State N E → N → Prop} {s : State N E}
    (h : Reachable tm elig s) : Inv tm s := ((inv_initial tm).steps h).1

end Norn.Replication
