import Norn.Dht.Publish
import Norn.Dht.StoreCalls

/-!
# The limits of the item store

Bytes, items, and items of one source are limited.
-/

namespace Norn
open List
namespace DhtStore
variable {C : DhtCrypto} {s : DhtStore}

/-- The counter is right and all limits are kept. -/
structure Kept (s : DhtStore) : Prop where
  bytes_eq : s.bytes = heldBytes s.items
  bytes_le : s.bytes ≤ s.budget
  length_le : s.items.length ≤ dhtstoreMax
  nodup : (s.items.map DhtItem.target).Nodup

/-- A newer version fits the budget in place of the old one. -/
def VersionFits (C : DhtCrypto) (s : DhtStore) (c : ItemCall) : Prop :=
  ∀ now p e, c = .put now p → Replaces C s now p e →
    heldBytes (s.unexpired now) - e.v.length + p.v.length ≤ s.budget

/-- An item does not go over to a source that has its share. -/
def SourceHasPlace (C : DhtCrypto) (s : DhtStore) (c : ItemCall) : Prop :=
  ∀ now p e, c = .put now p → Replaces C s now p e → e.srcIp ≠ p.srcIp →
    (s.unexpired now).countP (fun x => x.srcIp = p.srcIp) < dhtstorePerIp

theorem heldBytes_unexpired_le (now : ℤ) (s : DhtStore) :
    heldBytes (s.unexpired now) ≤ heldBytes s.items := by
  obtain ⟨gone, hgone⟩ := exists_perm_unexpired now s
  rw [heldBytes_perm hgone, heldBytes_append]
  exact Nat.le_add_left _ _

theorem length_unexpired_le (now : ℤ) (s : DhtStore) : (s.unexpired now).length ≤ s.items.length :=
  length_filter_le _ _

variable {c : ItemCall} {items : List DhtItem} {now : ℤ} {seq n : ℕ}

theorem Turnover.heldBytes_le (h : Turnover C s c items) (hs : heldBytes s.items ≤ s.budget)
    (hfits : VersionFits C s c) : heldBytes items ≤ s.budget := by
  cases h with
  | lost perm =>
    rw [heldBytes_perm perm, heldBytes_append] at hs
    omega
  | @refreshed now v srcIp e items rest held perm =>
    have hle := heldBytes_unexpired_le now s
    rw [heldBytes_perm held] at hle
    rw [heldBytes_perm perm]
    exact hle.trans hs
  | @replaced now p e items rest checks held target newer perm =>
    have hmem : e ∈ s.unexpired now := held.mem_iff.mpr mem_cons_self
    have hroom := hfits now p e rfl ⟨checks, hmem, target, newer⟩
    rw [heldBytes_perm held, heldBytes_cons, Nat.add_sub_cancel_left] at hroom
    rw [heldBytes_perm perm, heldBytes_cons, Nat.add_comm]
    exact hroom
  | added time held new signed source room count perm =>
    rw [heldBytes_perm perm, heldBytes_cons, Nat.add_comm]
    exact room

theorem Turnover.length_le (h : Turnover C s c items) (hs : s.items.length ≤ dhtstoreMax) :
    items.length ≤ dhtstoreMax := by
  cases h with
  | lost perm =>
    rw [perm.length_eq, length_append] at hs
    omega
  | @refreshed now v srcIp e items rest held perm
  | @replaced now p e items rest checks held target newer perm =>
    have hle := length_unexpired_le now s
    rw [held.length_eq] at hle
    rw [perm.length_eq]
    exact hle.trans hs
  | added time held new signed source room count perm =>
    rw [perm.length_eq]
    exact count

theorem Replaces.fits {p : SignedPut} {e : DhtItem} (h : Replaces C s now p e) (hs : Reachable C s)
    (hafter : heldBytes (s.call C (.put now p)).items ≤ s.budget) :
    heldBytes (s.unexpired now) - e.v.length + p.v.length ≤ s.budget := by
  obtain ⟨rest, hheld, hperm⟩ := h.perm hs
  rw [heldBytes_perm hperm, heldBytes_cons, Nat.add_comm] at hafter
  rw [heldBytes_perm hheld, heldBytes_cons, Nat.add_sub_cancel_left]
  exact hafter

/-- The accounts are kept exactly if every newer version of an item finds room. -/
theorem kept_iff_versionFits (C : DhtCrypto) (run : Run (system C)) :
    (∀ k ≤ run.len, (run.state k).Kept) ↔
      ∀ k < run.len, VersionFits C (run.state k) (run.event k) := by
  constructor
  · intro hkept k hk now p e hcall hreplaces
    have hafter := hkept (k + 1) hk
    have hstep := (run.steps k hk).2
    rw [hcall] at hstep
    refine hreplaces.fits (reachable_of_run run k hk.le) ?_
    rw [← hstep, ← hafter.bytes_eq]
    have hbudget := hafter.bytes_le
    rw [hstep, budget_call] at hbudget
    rw [hstep]
    exact hbudget
  · intro hfits
    have hnodup := fun k hk => (reachable_of_run run k hk).sound.nodup
    have haccount := fun k hk => (reachable_of_run run k hk).accounted
    have hlimits : ∀ k ≤ run.len, heldBytes (run.state k).items ≤ (run.state k).budget ∧
        (run.state k).items.length ≤ dhtstoreMax := by
      refine run.position_induction ?_ ?_
      · rcases run.start with hstart | ⟨mb, clientOnly, ram, hstart⟩
        · rw [hstart]
          exact ⟨le_refl 0, Nat.zero_le _⟩
        · rw [hstart]
          exact ⟨Nat.zero_le _, Nat.zero_le _⟩
      · intro k hk ih
        have hturn := turnover_call (C := C) (haccount k hk.le) (run.event k)
        rw [(run.steps k hk).2, budget_call]
        exact ⟨hturn.heldBytes_le ih.1 (hfits k hk), hturn.length_le ih.2⟩
    intro k hk
    refine ⟨haccount k hk, ?_, (hlimits k hk).2, hnodup k hk⟩
    rw [haccount k hk]
    exact (hlimits k hk).1

theorem countP_unexpired_le (now : ℤ) (s : DhtStore) (ip : ℕ) :
    (s.unexpired now).countP (fun x => x.srcIp = ip) ≤ s.perIpCount ip := by
  obtain ⟨gone, hgone⟩ := exists_perm_unexpired now s
  rw [perIpCount, hgone.countP_eq, countP_append]
  exact Nat.le_add_left _ _

theorem Turnover.perIpCount_le (h : Turnover C s c items)
    (hs : ∀ ip, s.perIpCount ip ≤ dhtstorePerIp) (hplace : SourceHasPlace C s c) (ip : ℕ) :
    items.countP (fun x => x.srcIp = ip) ≤ dhtstorePerIp := by
  have hip := hs ip
  cases h with
  | lost perm =>
    rw [perIpCount, perm.countP_eq, countP_append] at hip
    omega
  | @refreshed now v srcIp e items rest held perm =>
    have hle := countP_unexpired_le now s ip
    rw [held.countP_eq] at hle
    rw [perm.countP_eq]
    exact hle.trans hip
  | @replaced now p e items rest checks held target newer perm =>
    have hmem : e ∈ s.unexpired now := held.mem_iff.mpr mem_cons_self
    have hle := countP_unexpired_le now s ip
    rw [held.countP_eq, countP_cons] at hle
    rw [perm.countP_eq, countP_cons, SignedPut.srcIp_item]
    by_cases hsource : p.srcIp = ip
    · by_cases hsame : e.srcIp = p.srcIp
      · rw [if_pos (decide_eq_true (hsame.trans hsource))] at hle
        rw [if_pos (decide_eq_true hsource)]
        exact hle.trans hip
      · have hless := hplace now p e rfl ⟨checks, hmem, target, newer⟩ hsame
        rw [held.countP_eq, countP_cons, hsource] at hless
        rw [if_pos (decide_eq_true hsource)]
        omega
    · rw [if_neg (by simpa using hsource)]
      omega
  | @added c now x items gone kept time held new signed source room count perm =>
    have hle := countP_unexpired_le now s ip
    rw [held.countP_eq, countP_append] at hle source
    rw [perm.countP_eq, countP_cons]
    split_ifs with hx
    · rw [of_decide_eq_true hx] at source
      omega
    · omega

/-- No source ever has too many items exactly if none goes over to a source that has its share. -/
theorem perIpCount_le_iff_sourceHasPlace (C : DhtCrypto) (run : Run (system C)) :
    (∀ k ≤ run.len, ∀ ip, (run.state k).perIpCount ip ≤ dhtstorePerIp) ↔
      ∀ k < run.len, SourceHasPlace C (run.state k) (run.event k) := by
  constructor
  · intro hcap k hk now p e hcall hreplaces hother
    have hafter := hcap (k + 1) hk p.srcIp
    obtain ⟨rest, hheld, hperm⟩ := hreplaces.perm (reachable_of_run run k hk.le)
    rw [(run.steps k hk).2, hcall, perIpCount, hperm.countP_eq, countP_cons,
      SignedPut.srcIp_item, if_pos (decide_eq_true rfl)] at hafter
    rw [hheld.countP_eq, countP_cons, if_neg (by simpa using hother)]
    exact hafter
  · intro hplace
    refine run.position_induction ?_ ?_
    · intro ip
      rcases run.start with hstart | ⟨mb, clientOnly, ram, hstart⟩
      · rw [hstart]
        exact Nat.zero_le _
      · rw [hstart]
        exact Nat.zero_le _
    · intro k hk ih ip
      rw [(run.steps k hk).2]
      exact (turnover_call (reachable_of_run run k hk.le).accounted (run.event k)).perIpCount_le ih
        (hplace k hk) ip

def plainKey (i : ℕ) : Bytes := bigEndian 2 i ++ .replicate 30 0

def plainPut (i seq : ℕ) (v : Bytes) (srcIp : ℕ) : SignedPut :=
  ⟨bep44Target toyCrypto (plainKey i), plainKey i, seq, v, toyCrypto.sign [] (valueBytes seq v), [],
    srcIp⟩

variable (i : ℕ)

theorem plainPut_wellTyped (hseq : seq < 2 ^ 32) (v : Bytes) (srcIp : ℕ) :
    (plainPut i seq v srcIp).WellTyped :=
  ⟨by simp [plainPut, plainKey], hseq, toyCrypto.length_sign [] _⟩

theorem plainPut_checks (hseq : seq < 2 ^ 32) {v : Bytes} (hpos : 0 < v.length)
    (hle : v.length ≤ dhtstoreVmax) (srcIp : ℕ) : (plainPut i seq v srcIp).Checks toyCrypto := by
  refine ⟨hpos, hle, ?_, ?_, rfl⟩
  · change (valueBytes seq v).length ≤ 64 + dhtstoreVmax
    unfold dhtstoreVmax at hle ⊢
    have hlen := length_valueBytes_le hseq (show v.length < 10 ^ 4 by omega)
    omega
  · exact beq_self_eq_true _

theorem plainKey_target_inj {i j : ℕ} (hi : i < 2 ^ 16) (hj : j < 2 ^ 16)
    (h : bep44Target toyCrypto (plainKey i) = bep44Target toyCrypto (plainKey j)) : i = j := by
  have hfront (n : ℕ) : (bep44Target toyCrypto (plainKey n)).take 2 = bigEndian 2 n := by
    change (((bigEndian 2 n ++ replicate 30 0) ++ replicate 20 0).take 20).take 2 = _
    rw [take_take, append_assoc]
    exact take_left' (length_bigEndian 2 n)
  have hbytes : bigEndian 2 i = bigEndian 2 j := by rw [← hfront i, ← hfront j, h]
  exact bigEndian_inj hi hj hbytes

def thirtyThree : List ItemCall :=
  (range 32).map (fun i => .put 0 (plainPut i 1 [7] 1)) ++
    [.put 0 (plainPut 32 1 [7] 2), .put 0 (plainPut 32 2 [7] 1)]

theorem thirtyThree_wellTyped : ∀ c ∈ thirtyThree, c.WellTyped := by
  intro c hc
  rcases mem_append.mp hc with hc | hc
  · obtain ⟨i, _, rfl⟩ := mem_map.mp hc
    exact plainPut_wellTyped i (by decide) _ _
  · simp only [mem_cons, not_mem_nil, or_false] at hc
    rcases hc with rfl | rfl
    · exact plainPut_wellTyped 32 (by decide) _ _
    · exact plainPut_wellTyped 32 (by decide) _ _

theorem thirtyThree_over_cap : ¬ ∀ k ≤ (runOf toyCrypto 1 thirtyThree thirtyThree_wellTyped).len,
    ∀ ip, ((runOf toyCrypto 1 thirtyThree thirtyThree_wellTyped).state k).perIpCount ip ≤
      dhtstorePerIp := by
  intro h
  have hlast := h 34 (by decide) 1
  revert hlast
  decide +kernel

def smallPut (i : ℕ) : SignedPut := plainPut i 1 [7] i

def largePut (i : ℕ) : SignedPut := plainPut i 2 (.replicate 1000 7) i

theorem smallPut_checks : (smallPut i).Checks toyCrypto :=
  plainPut_checks i (by decide) (by decide) (by decide) i

theorem largePut_checks : (largePut i).Checks toyCrypto :=
  plainPut_checks i (by decide) (by rw [length_replicate]; decide)
    (by rw [length_replicate]; decide) i

def smallCalls (n : ℕ) : List ItemCall := (range n).map fun i => .put 0 (smallPut i)

def largeCalls (n : ℕ) : List ItemCall := (range n).map fun i => .put 0 (largePut i)

theorem smallCalls_wellTyped (n : ℕ) : ∀ c ∈ smallCalls n, c.WellTyped := by
  intro c hc
  obtain ⟨i, _, rfl⟩ := mem_map.mp hc
  exact plainPut_wellTyped i (by decide) _ _

theorem largeCalls_wellTyped (n : ℕ) : ∀ c ∈ largeCalls n, c.WellTyped := by
  intro c hc
  obtain ⟨i, _, rfl⟩ := mem_map.mp hc
  exact plainPut_wellTyped i (by decide) _ _

def filled (n : ℕ) : DhtStore := (smallCalls n).foldl (call toyCrypto) (dhtstoreInit (2 ^ 20))

def grown (n m : ℕ) : DhtStore := (largeCalls m).foldl (call toyCrypto) (filled n)

theorem filled_succ (n : ℕ) : filled (n + 1) = (filled n).call toyCrypto (.put 0 (smallPut n)) := by
  rw [filled, smallCalls, range_succ, map_append, foldl_append]
  rfl

theorem grown_succ (n m : ℕ) :
    grown n (m + 1) = (grown n m).call toyCrypto (.put 0 (largePut m)) := by
  rw [grown, largeCalls, range_succ, map_append, foldl_append]
  rfl

theorem reachable_filled (n : ℕ) : Reachable toyCrypto (filled n) := by
  induction n with
  | zero => exact .init 1 false 0
  | succ n ih =>
    rw [filled_succ]
    exact reachable_call ih (plainPut_wellTyped n (by decide) _ _)

theorem reachable_grown (n m : ℕ) : Reachable toyCrypto (grown n m) := by
  induction m with
  | zero => exact reachable_filled n
  | succ m ih =>
    rw [grown_succ]
    exact reachable_call ih (plainPut_wellTyped m (by decide) _ _)

theorem budget_filled (n : ℕ) : (filled n).budget = 2 ^ 20 := by
  induction n with
  | zero => rfl
  | succ n ih => rw [filled_succ, budget_call, ih]

theorem budget_grown (n m : ℕ) : (grown n m).budget = 2 ^ 20 := by
  induction m with
  | zero => exact budget_filled n
  | succ m ih => rw [grown_succ, budget_call, ih]

theorem unexpired_eq_self (h : ∀ e ∈ s.items, e.stored = now) : s.unexpired now = s.items := by
  refine filter_eq_self.mpr ?_
  intro e he
  rw [DhtItem.expired, h e he, sub_self]
  rfl

def smallItem (i : ℕ) : DhtItem := (smallPut i).entry.item 0

theorem heldBytes_smallItems (n : ℕ) : heldBytes ((range n).map smallItem) = n := by
  induction n with
  | zero => rfl
  | succ n ih =>
    rw [range_succ, map_append, heldBytes_append, ih]
    rfl

theorem filled_perm (hn : n ≤ dhtstoreMax) :
    (filled n).items.Perm ((range n).map smallItem) := by
  induction n with
  | zero => exact Perm.refl _
  | succ n ih =>
    have hperm := ih (Nat.le_of_succ_le hn)
    have hmem : ∀ e ∈ (filled n).items, ∃ i < n, e = smallItem i := by
      intro e he
      obtain ⟨i, hi, rfl⟩ := mem_map.mp (hperm.mem_iff.mp he)
      exact ⟨i, mem_range.mp hi, rfl⟩
    have hfresh : (filled n).unexpired 0 = (filled n).items := by
      apply unexpired_eq_self
      intro e he
      obtain ⟨i, _, rfl⟩ := hmem e he
      rfl
    have hlen : (filled n).items.length = n := by
      rw [hperm.length_eq, length_map, length_range]
    have hserving : (filled n).budget ≠ 0 := by
      rw [budget_filled]
      decide
    have hnew : ∀ x ∈ (filled n).unexpired 0, x.target ≠ (smallPut n).target := by
      rw [hfresh]
      intro e he htarget
      obtain ⟨i, hi, rfl⟩ := hmem e he
      unfold dhtstoreMax at hn
      exact hi.ne (plainKey_target_inj (by omega) (by omega) htarget)
    have hsource : ((filled n).unexpired 0).countP (fun x => x.srcIp = (smallPut n).srcIp) <
        dhtstorePerIp := by
      rw [hfresh, countP_eq_zero.mpr]
      · decide
      · intro e he hsource
        obtain ⟨i, hi, rfl⟩ := hmem e he
        exact hi.ne (of_decide_eq_true hsource)
    have hroom : heldBytes ((filled n).unexpired 0) + (smallPut n).v.length ≤
        (filled n).budget := by
      rw [hfresh, heldBytes_perm hperm, heldBytes_smallItems, budget_filled]
      change n + 1 ≤ 2 ^ 20
      unfold dhtstoreMax at hn
      omega
    have hcount : ((filled n).unexpired 0).length < dhtstoreMax := by
      rw [hfresh, hlen]
      exact hn
    have hstored := put_of_new (reachable_filled n).accounted hserving (smallPut_checks n) hnew
      hsource hroom hcount
    rw [filled_succ, range_succ, map_append]
    rw [hfresh] at hstored
    exact (hstored.2.trans (hperm.cons _)).trans (perm_append_singleton _ _).symm

theorem grown_spec (hn : n ≤ dhtstoreMax) {m : ℕ} (hm : m ≤ n) :
    heldBytes (grown n m).items = n + 999 * m ∧ (∀ e ∈ (grown n m).items, e.stored = 0) ∧
      ∀ i, m ≤ i → i < n → smallItem i ∈ (grown n m).items := by
  induction m with
  | zero =>
    have hperm := filled_perm hn
    refine ⟨(heldBytes_perm hperm).trans (heldBytes_smallItems n), ?_, ?_⟩
    · intro e he
      obtain ⟨i, _, rfl⟩ := mem_map.mp (hperm.mem_iff.mp he)
      rfl
    · intro i _ hi
      exact hperm.mem_iff.mpr (mem_map_of_mem (mem_range.mpr hi))
  | succ m ih =>
    obtain ⟨hbytes, hstored, hsmall⟩ := ih (Nat.le_of_succ_le hm)
    have hfresh := unexpired_eq_self hstored
    have hheld : smallItem m ∈ (grown n m).unexpired 0 := by
      rw [hfresh]
      exact hsmall m le_rfl hm
    have hreplaces : Replaces toyCrypto (grown n m) 0 (largePut m) (smallItem m) :=
      ⟨largePut_checks m, hheld, rfl, Nat.lt_succ_self 1⟩
    obtain ⟨rest, hbefore, hafter⟩ := hreplaces.perm (reachable_grown n m)
    rw [hfresh] at hbefore
    rw [heldBytes_perm hbefore, heldBytes_cons] at hbytes
    rw [grown_succ]
    refine ⟨?_, ?_, ?_⟩
    · have hlong : ((largePut m).entry.item 0).v.length = 1000 := length_replicate
      have hshort : (smallItem m).v.length = 1 := rfl
      rw [heldBytes_perm hafter, heldBytes_cons]
      omega
    · intro e he
      rcases mem_cons.mp (hafter.mem_iff.mp he) with rfl | he
      · rfl
      · exact hstored e (hbefore.mem_iff.mpr (mem_cons_of_mem _ he))
    · intro i hi hin
      have hmem := hbefore.mem_iff.mp (hsmall i (Nat.le_of_succ_le hi) hin)
      rcases mem_cons.mp hmem with heq | hmem
      · unfold dhtstoreMax at hn
        exact absurd (plainKey_target_inj (by omega) (by omega) (congrArg DhtItem.target heq))
          (by omega)
      · exact hafter.mem_iff.mpr (mem_cons_of_mem _ hmem)

theorem growingCalls_wellTyped (n : ℕ) : ∀ c ∈ smallCalls n ++ largeCalls n, c.WellTyped := by
  intro c hc
  rcases mem_append.mp hc with hc | hc
  · exact smallCalls_wellTyped n c hc
  · exact largeCalls_wellTyped n c hc

theorem growingRun_over_budget :
    ¬ ∀ k ≤ (runOf toyCrypto 1 _ (growingCalls_wellTyped 1049)).len,
      ((runOf toyCrypto 1 _ (growingCalls_wellTyped 1049)).state k).Kept := by
  intro h
  have hlast := (h _ le_rfl).bytes_le
  have hbudget : dhtstoreBudget 1 false 0 = 2 ^ 20 := by decide
  have hstate : (smallCalls 1049 ++ largeCalls 1049).foldl (call toyCrypto)
      (dhtstoreInit (2 ^ 20)) = grown 1049 1049 := foldl_append
  rw [state_runOf, hbudget, hstate, (reachable_grown 1049 1049).accounted,
    (grown_spec (by decide) le_rfl).1, budget_grown] at hlast
  omega

end DhtStore
end Norn
