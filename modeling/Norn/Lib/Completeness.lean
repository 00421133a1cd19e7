import Norn.Lib.ReplicationInvariant

/-!
# Leader completeness

The invariant does not speak of commitment but of cuts that can never be committed (`Dead`).
-/

namespace Norn
open List Option

structure QuorumSystem (N : Type*) where
  IsQuorum : Finset N → Prop
  inter : ∀ {P Q : Finset N}, IsQuorum P → IsQuorum Q → ∃ n ∈ P, n ∈ Q

def majorities {N : Type*} [DecidableEq N] (V : Finset N) : QuorumSystem N where
  IsQuorum Q := Q ⊆ V ∧ V.card / 2 + 1 ≤ Q.card
  inter := by
    rintro P Q ⟨hP, hPc⟩ ⟨hQ, hQc⟩
    by_contra! h
    have hd : Disjoint P Q := Finset.disjoint_left.mpr h
    have hu : (P ∪ Q).card ≤ V.card := Finset.card_le_card (Finset.union_subset hP hQ)
    rw [Finset.card_union_of_disjoint hd] at hu
    omega

namespace Replication
open Function
variable {N E : Type*} (Q : QuorumSystem N)

/-- A quorum has voted for the node with its log. -/
def Elected (s : State N E) (c : N) : Prop :=
  s.cand c (s.term c) = some (s.log c) ∧
    ∃ V, Q.IsQuorum V ∧ ∀ g ∈ V, s.vote g (s.term c) = some c

/-- A quorum has left the term without acknowledging so much. -/
def Dead (s : State N E) (T i : ℕ) : Prop :=
  ∃ V, Q.IsQuorum V ∧ ∀ g ∈ V, T < s.term g ∧ ∀ m, s.acked g T m → m < i

/-- `p ++ [e]` is the log of the leader of its term, cut after `e`. -/
def Cut (tm : E → ℕ) (s : State N E) (T : ℕ) (p : List E) (e : E) : Prop :=
  tm e = T ∧ ∃ c L, s.lead T = some (c, L) ∧ p ++ [e] <+: L

def HasOrDead (s : State N E) (T : ℕ) (p : List E) (e : E) (X : List E) : Prop :=
  p ++ [e] <+: X ∨ Dead Q s T (p.length + 1)

/-- A quorum has acknowledged the cut in the term of its last entry. -/
def Committed (tm : E → ℕ) (s : State N E) (T : ℕ) (Y : List E) : Prop :=
  ∃ p e, Y = p ++ [e] ∧ Cut tm s T p e ∧
    ∃ V, Q.IsQuorum V ∧ ∀ g ∈ V, ∃ m, Y.length ≤ m ∧ s.acked g T m

def Decided (tm : E → ℕ) (s : State N E) (T : ℕ) (X : List E) : Prop :=
  X = [] ∨ ∃ T₀ Y, T₀ ≤ T ∧ Committed Q tm s T₀ Y ∧ X <+: Y

structure Complete (Q : QuorumSystem N) (tm : E → ℕ) (s : State N E) : Prop where
  elected : ∀ {T c L}, s.lead T = some (c, L) →
    ∃ V, Q.IsQuorum V ∧ ∀ g ∈ V, s.vote g T = some c
  lead : ∀ {T T' c L p e}, Cut tm s T p e → T < T' → s.lead T' = some (c, L) →
    HasOrDead Q s T p e L
  acked : ∀ {n T m p e}, Cut tm s T p e → s.acked n T m → p.length + 1 ≤ m →
    HasOrDead Q s T p e (s.log n)
  vote : ∀ {g c T' L T m p e}, s.vote g T' = some c → s.cand c T' = some L → Cut tm s T p e →
    T < T' → s.acked g T m → p.length + 1 ≤ m → HasOrDead Q s T p e L

theorem complete_initial (tm : E → ℕ) : Complete Q tm (initial N E) where
  elected h := by simp [initial] at h
  lead _ _ h := by simp [initial] at h
  acked _ h := h.elim
  vote h := by simp [initial] at h

section
variable {Q : QuorumSystem N} {tm : E → ℕ} {s s' : State N E} {T i : ℕ}

theorem Dead.mono (h : Dead Q s T i) (hx : Extends s s')
    (hack : ∀ {g m}, s'.acked g T m → T < s.term g → s.acked g T m) : Dead Q s' T i := by
  obtain ⟨V, hV, hg⟩ := h
  exact ⟨V, hV, fun g hgV => ⟨(hg g hgV).1.trans_le (hx.term g), fun m hm =>
    (hg g hgV).2 m (hack hm (hg g hgV).1)⟩⟩

variable {X Y : List E}

theorem HasOrDead.mono {p : List E} {e : E} {X' : List E} (h : HasOrDead Q s T p e X)
    (hX : p ++ [e] <+: X → p ++ [e] <+: X')
    (hd : Dead Q s T (p.length + 1) → Dead Q s' T (p.length + 1)) : HasOrDead Q s' T p e X' :=
  h.imp hX hd

theorem Committed.mono (h : Committed Q tm s T Y) (hx : Extends s s') : Committed Q tm s' T Y := by
  obtain ⟨p, e, rfl, ⟨he, c, L, hl, hp⟩, V, hV, hg⟩ := h
  obtain ⟨L', hl', hL⟩ := hx.lead hl
  refine ⟨p, e, rfl, ⟨he, c, L', hl', hp.trans hL⟩, V, hV, fun g hgV => ?_⟩
  obtain ⟨m, hm, ha⟩ := hg g hgV
  exact ⟨m, hm, hx.acked ha⟩

theorem Decided.mono {T' : ℕ} (h : Decided Q tm s T X) (hx : Extends s s') (hT : T ≤ T') :
    Decided Q tm s' T' X := by
  rcases h with h | ⟨T₀, Y, hT₀, hY, hX⟩
  · exact .inl h
  · exact .inr ⟨T₀, Y, hT₀.trans hT, hY.mono hx, hX⟩

theorem Decided.of_isPrefix {X' : List E} (h : Decided Q tm s T X) (hX : X' <+: X) :
    Decided Q tm s T X' := by
  rcases h with rfl | ⟨T₀, Y, hT₀, hY, hXY⟩
  · exact .inl (prefix_nil.mp hX)
  · exact .inr ⟨T₀, Y, hT₀, hY, hX.trans hXY⟩

theorem Committed.not_dead (h : Committed Q tm s T Y) : ¬ Dead Q s T Y.length := by
  rintro ⟨V', hV', hd⟩
  obtain ⟨_, _, _, _, V, hV, hg⟩ := h
  obtain ⟨g, hgV, hgV'⟩ := Q.inter hV hV'
  obtain ⟨m, hm, ha⟩ := hg g hgV
  have := (hd g hgV').2 m ha
  omega

end

namespace Complete
variable {Q : QuorumSystem N} {tm : E → ℕ} {s : State N E} {Y L X : List E} {T : ℕ} {c : N}
section
variable (hC : Complete Q tm s)
include hC

theorem committed_isPrefix {T' : ℕ} (h : Committed Q tm s T Y) (hT : T ≤ T')
    (hl : s.lead T' = some (c, L)) : Y <+: L := by
  obtain ⟨p, e, rfl, hcut, hq⟩ := id h
  rcases hT.eq_or_lt with rfl | hlt
  · obtain ⟨_, c', L', hl', hp⟩ := hcut
    rw [hl] at hl'
    cases hl'
    exact hp
  · rcases hC.lead hcut hlt hl with hp | hd
    · exact hp
    · exact absurd (by simpa using hd) h.not_dead

theorem decided_isPrefix (h : Decided Q tm s T X) (hl : s.lead T = some (c, L)) : X <+: L := by
  rcases h with rfl | ⟨T₀, Y, hT₀, hY, hX⟩
  · exact nil_prefix
  · exact hX.trans (hC.committed_isPrefix hY hT₀ hl)

theorem committed_comparable {T' : ℕ} {Y' : List E} (h : Committed Q tm s T Y)
    (h' : Committed Q tm s T' Y') : Y <+: Y' ∨ Y' <+: Y := by
  rcases Nat.le_total T T' with hT | hT
  · obtain ⟨_, _, rfl, ⟨_, c, L, hl, hp⟩, _⟩ := id h'
    exact prefix_or_prefix_of_prefix (hC.committed_isPrefix h hT hl) hp
  · obtain ⟨_, _, rfl, ⟨_, c, L, hl, hp⟩, _⟩ := id h
    exact prefix_or_prefix_of_prefix hp (hC.committed_isPrefix h' hT hl)

theorem decided_agree {T' i : ℕ} {X' : List E} {a b : E} (h : Decided Q tm s T X)
    (h' : Decided Q tm s T' X') (ha : X[i]? = some a) (hb : X'[i]? = some b) : a = b := by
  rcases h with rfl | ⟨T₀, Y, _, hY, hX⟩
  · simp at ha
  rcases h' with rfl | ⟨T₀', Y', _, hY', hX'⟩
  · simp at hb
  have hYa : Y[i]? = some a := getElem?_of_isPrefix hX ha
  have hYb : Y'[i]? = some b := getElem?_of_isPrefix hX' hb
  rcases hC.committed_comparable hY hY' with hp | hp
  · exact some.inj ((getElem?_of_isPrefix hp hYa).symm.trans hYb)
  · exact some.inj (hYa.symm.trans (getElem?_of_isPrefix hp hYb))

theorem leader_eq_of_elected {c' : N} (he : Elected Q s c) (hl : s.lead (s.term c) = some (c', L)) :
    c' = c := by
  obtain ⟨_, V, hV, hg⟩ := he
  obtain ⟨V', hV', hg'⟩ := hC.elected hl
  obtain ⟨g, hgV, hgV'⟩ := Q.inter hV hV'
  have h := (hg' g hgV').symm.trans (hg g hgV)
  exact some.inj h

theorem cut_of_upToDate (hI : Inv tm s) {T₁ T₂ : ℕ} {p : List E} {e : E} (hcut : Cut tm s T p e)
    (hX : WellFormed tm s T₁ X) (hY : WellFormed tm s T₂ Y) (hp : p ++ [e] <+: Y)
    (hu : UpToDate tm X Y) : HasOrDead Q s T p e X := by
  obtain ⟨he, c, L, hl, hpL⟩ := id hcut
  have hTY : T ≤ lastTerm tm Y := he ▸ hY.le_lastTerm (hp.subset (by simp))
  have hlast : T ≤ lastTerm tm X := by rcases hu with h | h <;> omega
  have hpos : 0 < T := hI.lead_pos hl
  obtain ⟨q, f, rfl⟩ : ∃ q f, X = q ++ [f] := by
    rcases eq_nil_or_concat X with rfl | ⟨q, f, rfl⟩
    · simp [lastTerm] at hlast
      omega
    · exact ⟨q, f, by simp⟩
  have hf : lastTerm tm (q ++ [f]) = tm f := by simp [lastTerm]
  obtain ⟨c', L', hl', hqL⟩ := hX.chained q f prefix_rfl
  rcases hlast.eq_or_lt with heq | hlt
  · have hlen : (p ++ [e]).length ≤ (q ++ [f]).length := by
      rcases hu with h | h
      · omega
      · exact hp.length_le.trans h.2
    rw [← hf, ← heq, hl] at hl'
    cases hl'
    exact .inl (prefix_of_prefix_length_le hpL hqL hlen)
  · rw [hf] at hlt
    refine (hC.lead hcut hlt hl').imp (fun hpL' => ?_) id
    rcases prefix_or_prefix_of_prefix hpL' hqL with h | h
    · exact h
    · have hfe : f ∈ p ++ [e] := h.subset (by simp)
      have := ((hI.lead_ok hl).of_isPrefix hpL).bounded f hfe
      omega

end

section
variable (hC : Complete Q tm s)
include hC
variable {s' : State N E} {n : N}

theorem of_votes (hx : Extends s s') (hlead : s'.lead = s.lead) (hlog : s'.log = s.log)
    (hack : s'.acked = s.acked)
    (hvote : ∀ {g c T' L}, s'.vote g T' = some c → s'.cand c T' = some L →
      (s.vote g T' = some c ∧ s.cand c T' = some L) ∨
      ∀ {T m p e}, Cut tm s T p e → T < T' → s.acked g T m → p.length + 1 ≤ m →
        HasOrDead Q s T p e L) : Complete Q tm s' := by
  have hcut : ∀ {T p e}, Cut tm s' T p e → Cut tm s T p e := fun h => by
    simpa only [Cut, hlead] using h
  have hdead : ∀ {T i}, Dead Q s T i → Dead Q s' T i := fun h =>
    h.mono hx fun h _ => by rwa [hack] at h
  refine ⟨fun h => ?_, fun hc hT h => ?_, fun hc h hm => ?_, fun hv hd hc hT h hm => ?_⟩
  · obtain ⟨V, hV, hg⟩ := hC.elected (by rwa [hlead] at h)
    exact ⟨V, hV, fun g hgV => hx.vote (hg g hgV)⟩
  · exact (hC.lead (hcut hc) hT (by rwa [hlead] at h)).mono id hdead
  · rw [hlog]
    exact (hC.acked (hcut hc) (by rwa [hack] at h) hm).mono id hdead
  · rw [hack] at h
    rcases hvote hv hd with ⟨hv', hd'⟩ | hnew
    · exact (hC.vote hv' hd' (hcut hc) hT h hm).mono id hdead
    · exact (hnew (hcut hc) hT h hm).mono id hdead

variable [DecidableEq N]

theorem bump (hT : s.term n < T) : Complete Q tm (s.bump n T) :=
  hC.of_votes (Inv.extends_bump hT) rfl rfl rfl fun hv hc => .inl ⟨hv, hc⟩

variable (hI : Inv tm s)
include hI

theorem stand (hT : s.term n < T) : Complete Q tm (s.stand n T) := by
  refine hC.of_votes (hI.extends_stand hT) rfl rfl rfl fun {g c T' L} hv hc => ?_
  rcases eq_or_ne T' T with rfl | hne
  · rcases eq_or_ne g n with rfl | hg
    · obtain rfl : g = c := by simpa [State.stand] using hv
      obtain rfl : s.log g = L := by simpa [State.stand] using hc
      exact .inr fun hcut _ ha hm => hC.acked hcut ha hm
    · have hv' : s.vote g T' = some c := by simpa [State.stand, update_of_ne hg] using hv
      obtain ⟨L', hL'⟩ := hI.vote_cand hv'
      have hc' := (hI.extends_stand hT).cand hL'
      exact .inl ⟨hv', by rw [← hc, hc', hL']⟩
  · refine .inl ⟨?_, ?_⟩
    · rcases eq_or_ne g n with rfl | hg
      · simpa [State.stand, update_of_ne hne] using hv
      · simpa [State.stand, update_of_ne hg] using hv
    · rcases eq_or_ne c n with rfl | hcn
      · simpa [State.stand, update_of_ne hne] using hc
      · simpa [State.stand, update_of_ne hcn] using hc

theorem grant {g : N} (hv : s.vote g (s.term g) = none ∨ s.vote g (s.term g) = some c)
    (hc : s.cand c (s.term g) = some L) (hu : UpToDate tm L (s.log g)) :
    Complete Q tm (s.grant g c) := by
  refine hC.of_votes (Inv.extends_grant hv) rfl rfl rfl fun {g' c' T' L'} hv' hc' => ?_
  by_cases hgT : g' = g ∧ T' = s.term g
  · obtain ⟨rfl, rfl⟩ := hgT
    obtain rfl : c = c' := by simpa [State.grant] using hv'
    obtain rfl : L = L' := by
      have hc'' : s.cand c (s.term g') = some L' := hc'
      rw [hc] at hc''
      exact some.inj hc''
    refine .inr fun hcut _ ha hm => ?_
    rcases hC.acked hcut ha hm with hp | hd
    · exact hC.cut_of_upToDate hI hcut (hI.cand_ok hc) (hI.log_ok g') hp hu
    · exact .inr hd
  · refine .inl ⟨?_, hc'⟩
    rcases eq_or_ne g' g with rfl | hg
    · have hT : T' ≠ s.term g' := fun h => hgT ⟨rfl, h⟩
      simpa [State.grant, update_of_ne hT] using hv'
    · simpa [State.grant, update_of_ne hg] using hv'

omit [DecidableEq N] in
theorem elect (hnone : s.lead (s.term c) = none) (he : Elected Q s c) :
    Complete Q tm (s.elect c) := by
  obtain ⟨hcand, V, hV, hVote⟩ := he
  have hx : Extends s (s.elect c) := Inv.extends_elect hnone
  -- the new leader has no entry of its own term yet, so every cut is an old one
  have hcut : ∀ {T p e}, Cut tm (s.elect c) T p e → T ≠ s.term c ∧ Cut tm s T p e := by
    rintro T p e ⟨rfl, c', L, hl, hp⟩
    rcases eq_or_ne (tm e) (s.term c) with heq | hne
    · have hl' : (c, s.log c) = (c', L) := by simpa [State.elect, heq] using hl
      cases hl'
      have he : e ∈ s.log c := hp.subset (by simp)
      have := Inv.term_lt_of_no_leader (hI.log_ok c) hnone he
      omega
    · exact ⟨hne, rfl, c', L, by simpa [State.elect, update_of_ne hne] using hl, hp⟩
  have hack : ∀ {n T m}, T ≠ s.term c → (s.elect c).acked n T m → s.acked n T m := by
    rintro n T m hT (h | ⟨_, rfl, _⟩)
    · exact h
    · exact absurd rfl hT
  have hdead : ∀ {T i}, T ≠ s.term c → Dead Q s T i → Dead Q (s.elect c) T i := fun hT h =>
    h.mono hx fun h _ => hack hT h
  refine ⟨fun {T c' L} h => ?_, fun {T T' c' L p e} hc hT h => ?_, fun hc h hm => ?_,
    fun hv hd hc hT h hm => ?_⟩
  · rcases eq_or_ne T (s.term c) with rfl | hne
    · have h' : (c, s.log c) = (c', L) := by simpa [State.elect] using h
      cases h'
      exact ⟨V, hV, hVote⟩
    · exact hC.elected (by simpa [State.elect, update_of_ne hne] using h)
  · obtain ⟨hne, hc⟩ := hcut hc
    rcases eq_or_ne T' (s.term c) with rfl | hne'
    · have h' : (c, s.log c) = (c', L) := by simpa [State.elect] using h
      cases h'
      by_cases hex : ∃ g ∈ V, ∃ m, s.acked g T m ∧ p.length + 1 ≤ m
      · obtain ⟨g, hg, m, hm, hpm⟩ := hex
        exact (hC.vote (hVote g hg) hcand hc hT hm hpm).mono id (hdead hne)
      · refine .inr ⟨V, hV, fun g hg => ⟨hT.trans_le (hI.vote_le (hVote g hg)), fun m hm => ?_⟩⟩
        by_contra! hge
        exact hex ⟨g, hg, m, hack hne hm, hge⟩
    · exact (hC.lead hc hT (by simpa [State.elect, update_of_ne hne'] using h)).mono id
        (hdead hne)
  · obtain ⟨hne, hc⟩ := hcut hc
    exact (hC.acked hc (hack hne h) hm).mono id (hdead hne)
  · obtain ⟨hne, hc⟩ := hcut hc
    exact (hC.vote hv hd hc hT (hack hne h) hm).mono id (hdead hne)

theorem extend {e : E} (hl : s.lead (s.term c) = some (c, s.log c)) :
    Complete Q tm (s.extend c e) := by
  have hx : Extends s (s.extend c e) := Inv.extends_extend hl
  have hlog : ∀ n, s.log n <+: (s.extend c e).log n := by
    intro n
    rcases eq_or_ne n c with rfl | hn
    · simp [State.extend]
    · simp [State.extend, update_of_ne hn]
  have hcut : ∀ {T p a}, Cut tm (s.extend c e) T p a →
      Cut tm s T p a ∨ (T = s.term c ∧ p = s.log c ∧ a = e) := by
    rintro T p a ⟨rfl, c', L, h, hp⟩
    rcases eq_or_ne (tm a) (s.term c) with heq | hne
    · have h' : (c, s.log c ++ [e]) = (c', L) := by simpa [State.extend, heq] using h
      cases h'
      rcases prefix_concat_iff.mp hp with hpe | hp'
      · exact .inr ⟨heq, by simpa using hpe⟩
      · exact .inl ⟨rfl, c, s.log c, by rw [heq]; exact hl, hp'⟩
    · exact .inl ⟨rfl, c', L, by simpa [State.extend, update_of_ne hne] using h, hp⟩
  have hshort : ∀ {n m}, s.acked n (s.term c) m → m ≤ (s.log c).length := by
    intro n m h
    obtain ⟨c', L, hl', hm⟩ := hI.acked_lead h
    rw [hl] at hl'
    cases hl'
    exact hm
  have hdead : ∀ {T i}, Dead Q s T i → Dead Q (s.extend c e) T i := fun h =>
    h.mono hx fun {g m} h hg => by
      rcases h with h | ⟨rfl, rfl, _⟩
      · exact h
      · exact absurd hg (lt_irrefl _)
  refine ⟨fun {T c' L} h => ?_, fun {T T' c' L p a} hc hT h => ?_, fun {n T m p a} hc h hm => ?_,
    fun {g c' T' L T m p a} hv hd hc hT h hm => ?_⟩
  · rcases eq_or_ne T (s.term c) with rfl | hne
    · have h' : (c, s.log c ++ [e]) = (c', L) := by simpa [State.extend] using h
      cases h'
      exact hC.elected hl
    · exact hC.elected (by simpa [State.extend, update_of_ne hne] using h)
  · rcases hcut hc with hc | ⟨rfl, rfl, rfl⟩
    · rcases eq_or_ne T' (s.term c) with rfl | hne
      · have h' : (c, s.log c ++ [e]) = (c', L) := by simpa [State.extend] using h
        cases h'
        exact (hC.lead hc hT hl).mono (fun hp => hp.trans (prefix_append _ _)) hdead
      · exact (hC.lead hc hT (by simpa [State.extend, update_of_ne hne] using h)).mono id
          hdead
    · have hne : T' ≠ s.term c := hT.ne'
      obtain ⟨V, hV, hg⟩ :=
        hC.elected (by simpa [State.extend, update_of_ne hne] using h)
      refine .inr ⟨V, hV, fun g hgV => ?_⟩
      have hgT : s.term c < s.term g := hT.trans_le (hI.vote_le (hg g hgV))
      refine ⟨hgT, fun m hm => ?_⟩
      rcases hm with hm | ⟨rfl, _, _⟩
      · exact Nat.lt_succ_of_le (hshort hm)
      · exact absurd hgT (lt_irrefl _)
  · rcases hcut hc with hc' | ⟨rfl, rfl, rfl⟩
    · rcases h with h | ⟨rfl, rfl, _⟩
      · exact (hC.acked hc' h hm).mono (fun hp => hp.trans (hlog n)) hdead
      · obtain ⟨_, c', L, hl', hp⟩ := hc'
        rw [hl] at hl'
        cases hl'
        exact .inl (hp.trans (hlog _))
    · rcases h with h | ⟨rfl, _, _⟩
      · exact absurd (hshort h) (by omega)
      · exact .inl (by simp [State.extend])
  · have hold : s.acked g T m := by
      rcases h with h | ⟨rfl, rfl, _⟩
      · exact h
      · exact absurd (hI.vote_le hv) (by omega)
    rcases hcut hc with hc' | ⟨rfl, rfl, rfl⟩
    · exact (hC.vote hv hd hc' hT hold hm).mono id hdead
    · exact absurd (hshort hold) (by omega)

theorem adopt {k : ℕ} (hl : s.lead (s.term n) = some (c, L)) (ha : Adopts tm (s.log n) L k X) :
    Complete Q tm (s.adopt n k X) := by
  have hdead : ∀ {T i}, Dead Q s T i → Dead Q (s.adopt n k X) T i := fun h =>
    h.mono Inv.extends_adopt fun {g m} h hg => by
      rcases h with h | ⟨rfl, rfl, _⟩
      · exact h
      · exact absurd hg (lt_irrefl _)
  refine ⟨hC.elected, fun hc hT h => (hC.lead hc hT h).mono id hdead,
    fun {n' T m p e} hc h hm => ?_, fun {g c' T' L' T m p e} hv hd hc hT h hm => ?_⟩
  · rcases h with h | ⟨rfl, rfl, rfl⟩
    · rcases eq_or_ne n' n with rfl | hn
      · rcases hC.acked hc h hm with hp | hd
        · have hL : HasOrDead Q s T p e L := by
            rcases (hI.acked_le h).eq_or_lt with rfl | hlt
            · obtain ⟨_, c', L', hl', hp'⟩ := hc
              have hl'' : s.lead (s.term n') = some (c', L') := hl'
              rw [hl] at hl''
              cases hl''
              exact .inl hp'
            · exact hC.lead hc hlt hl
          refine hL.mono (fun hpL => ?_) hdead
          simpa [State.adopt] using ha.keeps hp hpL
        · exact .inr (hdead hd)
      · have hlog : (s.adopt n k X).log n' = s.log n' := by
          simp [State.adopt, update_of_ne hn]
        rw [hlog]
        exact (hC.acked hc h hm).mono id hdead
    · obtain ⟨_, c', L', hl', hp⟩ := hc
      have hl'' : s.lead (s.term n') = some (c', L') := hl'
      rw [hl] at hl''
      cases hl''
      refine .inl ?_
      have hpk : p ++ [e] <+: L.take m := prefix_take_iff.mpr ⟨hp, by simpa using hm⟩
      simpa [State.adopt] using hpk.trans ha.holds
  · have hold : s.acked g T m := by
      rcases h with h | ⟨rfl, rfl, _⟩
      · exact h
      · exact absurd (hI.vote_le hv) (by omega)
    exact (hC.vote hv hd hc hT hold hm).mono id hdead

theorem step {elig : State N E → N → Prop} (helig : ∀ s c, elig s c → Elected Q s c)
    (h : Step tm elig s s') : Complete Q tm s' := by
  cases h with
  | bump hT => exact hC.bump hT
  | stand hT => exact hC.stand hI hT
  | grant hv hc hu => exact hC.grant hI hv hc hu
  | elect _ hnone he => exact hC.elect hI hnone (helig _ _ he)
  | extend hl => exact hC.extend hI hl
  | adopt hl _ _ ha => exact hC.adopt hI hl ha

end
end Complete

theorem Reachable.complete [DecidableEq N] {Q : QuorumSystem N} {tm : E → ℕ}
    {elig : State N E → N → Prop} (helig : ∀ s c, elig s c → Elected Q s c) {s : State N E}
    (h : Reachable tm elig s) : Complete Q tm s := by
  have key : ∀ {t}, Steps tm elig (initial N E) t → Inv tm t ∧ Complete Q tm t := by
    intro t ht
    induction ht with
    | refl => exact ⟨inv_initial tm, complete_initial Q tm⟩
    | tail _ hstep ih => exact ⟨ih.1.step hstep, ih.2.step ih.1 helig hstep⟩
  exact (key h).2

end Replication
end Norn
