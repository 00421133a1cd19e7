import Norn.Dht.Routing

/-!
# Evicting stale nodes

`mainline_evict_stale` of `norn.c` looks for stale nodes in the array that it compacts meanwhile.
-/

namespace Norn
open List
namespace NodeTable
section
variable (now maxAge : ℤ)

def staleOther (n : MainlineNode) : Bool := stale now maxAge n && !n.isPreferred

def stalePreferred (n : MainlineNode) : Bool := stale now maxAge n && n.isPreferred

def sift (nodes : List MainlineNode) : List MainlineNode → List MainlineNode → List MainlineNode
  | kept, [] => kept
  | kept, n :: rest =>
    if staleOther now maxAge n || (stalePreferred now maxAge n &&
        !(nodes.drop kept.length).any (staleOther now maxAge)) then sift nodes kept rest
    else sift nodes (kept ++ [n]) rest

end

section
variable (now maxAge : ℤ) {nodes : List MainlineNode}
variable {i : ℕ} {n : MainlineNode} {kept : List MainlineNode}

theorem any_range_eq (hn : nodes[i]? = some n) (hpref : n.isPreferred = true) :
    ((range nodes.length).any fun j => j ≠ i && (nodes[j]?).any fun m =>
      stale now maxAge m && !m.isPreferred) = nodes.any (staleOther now maxAge) := by
  rw [Bool.eq_iff_iff, any_eq_true, any_eq_true]
  constructor
  · rintro ⟨j, hj, h⟩
    rw [mem_range] at hj
    rw [getElem?_eq_getElem hj, Option.any_some, Bool.and_eq_true] at h
    exact ⟨nodes[j], getElem_mem hj, h.2⟩
  · rintro ⟨m, hm, h⟩
    obtain ⟨j, hj, rfl⟩ := getElem_of_mem hm
    refine ⟨j, mem_range.mpr hj, ?_⟩
    rw [getElem?_eq_getElem hj, Option.any_some, Bool.and_eq_true]
    refine ⟨decide_eq_true ?_, h⟩
    rintro rfl
    rw [getElem?_eq_getElem hj] at hn
    rw [Option.some.inj hn, staleOther, hpref, Bool.not_true, Bool.and_false] at h
    cases h

theorem getElem?_compacted (hkept : kept.length ≤ i) :
    (kept ++ nodes.drop kept.length)[i]? = nodes[i]? := by
  rw [getElem?_append_right hkept, getElem?_drop, Nat.add_sub_cancel' hkept]

theorem set_compacted (n : MainlineNode) (hlt : kept.length < nodes.length) :
    (kept ++ nodes.drop kept.length).set kept.length n =
      kept ++ [n] ++ nodes.drop (kept ++ [n]).length := by
  rw [set_append_right _ _ le_rfl, Nat.sub_self, drop_eq_getElem_cons hlt,
    set_cons_zero, length_append, length_singleton, append_assoc,
    singleton_append]

theorem evicts_eq (hn : nodes[i]? = some n) (hkept : kept.length ≤ i)
    (hfresh : ∀ n ∈ kept, staleOther now maxAge n = false) :
    (stale now maxAge n && !(n.isPreferred && (List.range nodes.length).any fun j =>
      j ≠ i && ((kept ++ nodes.drop kept.length)[j]?).any fun m =>
        stale now maxAge m && !m.isPreferred)) =
      (staleOther now maxAge n || (stalePreferred now maxAge n &&
        !(nodes.drop kept.length).any (staleOther now maxAge))) := by
  have hlt := (List.getElem?_eq_some_iff.mp hn).1
  have hlen : (kept ++ nodes.drop kept.length).length = nodes.length := by
    rw [length_append, length_drop]
    omega
  have hother : (kept ++ nodes.drop kept.length).any (staleOther now maxAge) =
      (nodes.drop kept.length).any (staleOther now maxAge) := by
    rw [any_append, any_eq_false.mpr (by simpa using hfresh), Bool.false_or]
  cases hpref : n.isPreferred with
  | false => simp [staleOther, stalePreferred, hpref]
  | true =>
    have hany := any_range_eq now maxAge ((getElem?_compacted hkept).trans hn) hpref
    rw [hlen, hother] at hany
    rw [hany]
    simp [staleOther, stalePreferred, hpref]

/-- The loop leaves the nodes of `sift` at the start of the array, and counts the others. -/
theorem evictLoop_eq_sift (rounds i evicted : ℕ) (kept : List MainlineNode)
    (hi : i + rounds = nodes.length) (hcount : evicted + kept.length = i)
    (hfresh : ∀ n ∈ kept, staleOther now maxAge n = false) :
    ∃ total, total + (sift now maxAge nodes kept (nodes.drop i)).length = nodes.length ∧
      evictLoop now maxAge nodes.length rounds i kept.length evicted
          (kept ++ nodes.drop kept.length) =
        ((sift now maxAge nodes kept (nodes.drop i)).length, total,
          sift now maxAge nodes kept (nodes.drop i) ++
            nodes.drop (sift now maxAge nodes kept (nodes.drop i)).length) := by
  induction rounds generalizing i kept evicted with
  | zero =>
    rw [drop_eq_nil_of_le (show nodes.length ≤ i by omega)]
    exact ⟨evicted, hcount.trans hi, rfl⟩
  | succ rounds ih =>
    have hlt : i < nodes.length := by omega
    have hkept : kept.length ≤ i := by omega
    have hn := getElem?_eq_getElem hlt
    rw [drop_eq_getElem_cons hlt, evictLoop, getElem?_compacted hkept, hn, sift]
    dsimp only
    rw [evicts_eq now maxAge hn hkept hfresh]
    split_ifs with hevict
    · exact ih (i + 1) (evicted + 1) kept (by omega) (by omega) hfresh
    · rw [Bool.or_eq_true, not_or] at hevict
      have hfresh' : ∀ n ∈ kept ++ [nodes[i]], staleOther now maxAge n = false := by
        intro n hn
        rcases mem_append.mp hn with hn | hn
        · exact hfresh n hn
        · rw [mem_singleton.mp hn, Bool.eq_false_iff.mpr hevict.1]
      have hstep := ih (i + 1) evicted (kept ++ [nodes[i]]) (by omega)
        (by rw [length_append, length_singleton]; omega) hfresh'
      rw [length_append, length_singleton] at hstep
      rw [set_compacted _ (hkept.trans_lt hlt), length_append, length_singleton]
      exact hstep

theorem evictLoop_eq (nodes : List MainlineNode) :
    ∃ total, total + (sift now maxAge nodes [] nodes).length = nodes.length ∧
      evictLoop now maxAge nodes.length nodes.length 0 0 0 nodes =
        ((sift now maxAge nodes [] nodes).length, total, sift now maxAge nodes [] nodes ++
          nodes.drop (sift now maxAge nodes [] nodes).length) :=
  evictLoop_eq_sift now maxAge nodes.length 0 0 [] (Nat.zero_add _) rfl (forall_mem_nil _)

theorem mainlineEvictStale_eq (nodes : List MainlineNode) :
    mainlineEvictStale now maxAge nodes = sift now maxAge nodes [] nodes := by
  obtain ⟨total, -, hloop⟩ := evictLoop_eq now maxAge nodes
  rw [mainlineEvictStale, hloop]
  exact take_left

theorem mainlineEvictStaleCount_add (nodes : List MainlineNode) :
    mainlineEvictStaleCount now maxAge nodes + (mainlineEvictStale now maxAge nodes).length =
      nodes.length := by
  obtain ⟨total, htotal, hloop⟩ := evictLoop_eq now maxAge nodes
  rw [mainlineEvictStale_eq, mainlineEvictStaleCount, hloop]
  exact htotal

end

variable {now maxAge : ℤ} {nodes kept rest : List MainlineNode}

theorem sift_of_none (kept : List MainlineNode) (h : ∀ n ∈ nodes, staleOther now maxAge n = false)
    (hrest : ∀ n ∈ rest, n ∈ nodes) : sift now maxAge nodes kept rest =
      kept ++ rest.filter fun n => !stalePreferred now maxAge n := by
  induction rest generalizing kept with
  | nil => rw [sift, filter_nil, append_nil]
  | cons n rest ih =>
    have hn := h n (hrest n mem_cons_self)
    have hnone : (nodes.drop kept.length).any (staleOther now maxAge) = false :=
      any_eq_false.mpr fun m hm => by rw [h m (mem_of_mem_drop hm)]; decide
    have ih' := fun kept => ih kept fun m hm => hrest m (mem_cons_of_mem n hm)
    rw [sift, hn, hnone, Bool.false_or, Bool.not_false, Bool.and_true]
    split_ifs with hp
    · rw [ih', filter_cons_of_neg (by rw [hp]; decide)]
    · rw [ih', filter_cons_of_pos (by simpa using hp), append_assoc,
        singleton_append]

theorem sift_sublist (now maxAge : ℤ) (nodes kept rest : List MainlineNode) :
    (sift now maxAge nodes kept rest).Sublist
      (kept ++ rest.filter fun n => !staleOther now maxAge n) := by
  induction rest generalizing kept with
  | nil =>
    rw [sift, filter_nil, append_nil]
  | cons n rest ih =>
    rw [sift]
    split_ifs with hevict
    · refine (ih kept).trans (Sublist.append_left ?_ kept)
      exact (sublist_cons_self n rest).filter _
    · rw [Bool.or_eq_true, not_or] at hevict
      have h := ih (kept ++ [n])
      rw [append_assoc, singleton_append] at h
      rw [filter_cons_of_pos (by simpa using hevict.1)]
      exact h

/-- At round `i` the array still shows a stale node that is not preferred. -/
def Seen (now maxAge : ℤ) (nodes : List MainlineNode) (i : ℕ) : Prop :=
  ∃ m ∈ nodes.drop ((nodes.take i).countP fun n => !staleOther now maxAge n),
    staleOther now maxAge m = true

variable {n : MainlineNode}

theorem not_stalePreferred (h : staleOther now maxAge n = true) :
    stalePreferred now maxAge n = false := by
  rw [staleOther, Bool.and_eq_true, Bool.not_eq_true'] at h
  rw [stalePreferred, h.2, Bool.and_false]

theorem forall_getElem?_iff {P : ℕ → MainlineNode → Prop} {k : ℕ} (hn : nodes[k]? = some n) :
    (∀ i m, k ≤ i → nodes[i]? = some m → P i m) ↔
      P k n ∧ ∀ i m, k + 1 ≤ i → nodes[i]? = some m → P i m := by
  constructor
  · intro h
    exact ⟨h k n le_rfl hn, fun i m hi => h i m (Nat.le_of_succ_le hi)⟩
  · rintro ⟨hfirst, hlater⟩ i m hi hm
    rcases hi.eq_or_lt with rfl | hi
    · exact Option.some.inj (hn.symm.trans hm) ▸ hfirst
    · exact hlater i m hi hm

theorem sift_eq_filter_iff (k : ℕ) (hrest : nodes.drop k = rest)
    (hkept : (nodes.take k).filter (fun n => !staleOther now maxAge n) = kept) :
    sift now maxAge nodes kept rest = nodes.filter (fun n => !staleOther now maxAge n) ↔
      ∀ i n, k ≤ i → nodes[i]? = some n → stalePreferred now maxAge n = true →
        Seen now maxAge nodes i := by
  induction rest generalizing k kept with
  | nil =>
    have hk := drop_eq_nil_iff.mp hrest
    rw [take_of_length_le hk] at hkept
    refine iff_of_true (by rw [sift, hkept]) ?_
    intro i n hi hn
    rw [getElem?_eq_none (hk.trans hi)] at hn
    cases hn
  | cons n rest ih =>
    have hk : k < nodes.length := by
      by_contra hge
      rw [drop_eq_nil_of_le (not_lt.mp hge)] at hrest
      cases hrest
    rw [drop_eq_getElem_cons hk, cons_eq_cons] at hrest
    obtain ⟨hn, hrest⟩ := hrest
    have htake : (nodes.take (k + 1)).filter (fun n => !staleOther now maxAge n) =
        kept ++ [n].filter fun n => !staleOther now maxAge n := by
      rw [← take_append_getElem hk, filter_append, hkept, hn]
    have hseen : Seen now maxAge nodes k ↔
        (nodes.drop kept.length).any (staleOther now maxAge) = true := by
      rw [Seen, countP_eq_length_filter, hkept, any_eq_true]
    rw [forall_getElem?_iff ((getElem?_eq_getElem hk).trans (congrArg some hn)), sift]
    by_cases hother : staleOther now maxAge n = true
    · rw [filter_cons_of_neg (by rw [hother]; decide), filter_nil,
        append_nil] at htake
      rw [hother, Bool.true_or, if_pos rfl, ih (k + 1) hrest htake, not_stalePreferred hother]
      simp
    rw [filter_cons_of_pos (by simpa using hother), filter_nil] at htake
    rw [Bool.eq_false_iff.mpr hother, Bool.false_or]
    split_ifs with hevict
    · -- the node is missing in the end
      rw [Bool.and_eq_true, Bool.not_eq_true'] at hevict
      refine iff_of_false ?_ ?_
      · intro heq
        have hlen := (sift_sublist now maxAge nodes kept rest).length_le
        have hall : nodes.filter (fun n => !staleOther now maxAge n) =
            kept ++ [n] ++ rest.filter fun n => !staleOther now maxAge n := by
          rw [← htake, ← hrest, ← filter_append, take_append_drop]
        rw [heq, hall] at hlen
        simp only [length_append, length_singleton] at hlen
        omega
      · rintro ⟨hfirst, -⟩
        rw [hseen, hevict.2] at hfirst
        exact absurd (hfirst hevict.1) (by decide)
    · rw [ih (k + 1) hrest htake]
      refine (and_iff_right ?_).symm
      intro hp
      rw [hp, Bool.true_and, Bool.not_eq_true, Bool.not_eq_false'] at hevict
      exact hseen.mpr hevict

theorem exists_mem_drop_iff {p : MainlineNode → Bool} (k : ℕ) :
    (∃ m ∈ nodes.drop k, p m = true) ↔ ∃ j m, nodes[j]? = some m ∧ p m = true ∧ k ≤ j := by
  constructor
  · rintro ⟨m, hm, hp⟩
    obtain ⟨j, hj⟩ := getElem?_of_mem hm
    rw [getElem?_drop] at hj
    exact ⟨k + j, m, hj, hp, Nat.le_add_right k j⟩
  · rintro ⟨j, m, hj, hp, hk⟩
    refine ⟨m, mem_of_getElem? (i := j - k) ?_, hp⟩
    rw [getElem?_drop, Nat.add_sub_cancel' hk, hj]

theorem seen_iff {i : ℕ} (hi : i ≤ nodes.length) : Seen now maxAge nodes i ↔
    ∃ j m, nodes[j]? = some m ∧ staleOther now maxAge m = true ∧
      i ≤ j + nodes.countP (staleOther now maxAge) := by
  have hcount := length_eq_countP_add_countP (staleOther now maxAge) (l := nodes.take i)
  rw [length_take_of_le hi] at hcount
  have htotal : nodes.countP (staleOther now maxAge) =
      (nodes.take i).countP (staleOther now maxAge) +
        (nodes.drop i).countP (staleOther now maxAge) := by
    rw [← countP_append, take_append_drop]
  rw [Seen, exists_mem_drop_iff]
  simp only [decide_not, Bool.decide_eq_true] at hcount
  constructor
  · rintro ⟨j, m, hj, hstale, hk⟩
    exact ⟨j, m, hj, hstale, by omega⟩
  · rintro ⟨j, m, hj, hstale, hk⟩
    by_cases hlater : (nodes.drop i).countP (staleOther now maxAge) = 0
    · exact ⟨j, m, hj, hstale, by omega⟩
    · obtain ⟨j', m', hj', hstale', hk'⟩ := (exists_mem_drop_iff i).mp
        (countP_pos_iff.mp (Nat.pos_of_ne_zero hlater))
      exact ⟨j', m', hj', hstale', by omega⟩

def withoutStale (now maxAge : ℤ) (nodes : List MainlineNode) : List MainlineNode :=
  if nodes.any (staleOther now maxAge) then nodes.filter fun n => !staleOther now maxAge n
  else nodes.filter fun n => !stalePreferred now maxAge n

/-- No kept node has overwritten all stale ones before a stale preferred node is reached. -/
def StaleClose (now maxAge : ℤ) (nodes : List MainlineNode) : Prop :=
  nodes.any (staleOther now maxAge) = true → ∀ i n, nodes[i]? = some n →
    stalePreferred now maxAge n = true → ∃ j m, nodes[j]? = some m ∧
      staleOther now maxAge m = true ∧ i ≤ j + nodes.countP (staleOther now maxAge)

end NodeTable

open NodeTable

/-- The right nodes are dropped as long as the loop has not overwritten those that it looks for. -/
theorem evictStale_eq_iff_staleClose (now maxAge : ℤ) (nodes : List MainlineNode) :
    (mainlineEvictStale now maxAge nodes = withoutStale now maxAge nodes ∧
      mainlineEvictStaleCount now maxAge nodes =
        nodes.length - (mainlineEvictStale now maxAge nodes).length) ↔
      StaleClose now maxAge nodes := by
  have hcount := mainlineEvictStaleCount_add now maxAge nodes
  rw [and_iff_left (by omega), mainlineEvictStale_eq, withoutStale, StaleClose]
  split_ifs with hany
  · have hsift : sift now maxAge nodes [] nodes = nodes.filter (fun n => !staleOther now maxAge n) ↔
        _ := sift_eq_filter_iff 0 drop_zero rfl
    rw [hsift, forall_prop_of_true hany]
    refine forall_congr' fun i => forall_congr' fun n => ?_
    rw [forall_prop_of_true (Nat.zero_le i)]
    refine imp_congr_right fun hn => ?_
    rw [seen_iff (List.getElem?_eq_some_iff.mp hn).1.le]
  · rw [Bool.not_eq_true] at hany
    have hnone : ∀ n ∈ nodes, staleOther now maxAge n = false := by simpa using hany
    refine iff_of_true ?_ ?_
    · rw [sift_of_none [] hnone fun n hn => hn, nil_append]
    · intro h
      rw [hany] at h
      cases h

def overwrittenTable : List MainlineNode :=
  [⟨.replicate 20 1, 1, 1, 0, [], [], false, none⟩,
    ⟨.replicate 20 2, 1, 1, 100, [], [], false, none⟩,
    ⟨.replicate 20 3, 1, 1, 0, [1], [], true, none⟩]

theorem overwrittenTable_preferred_dropped :
    overwrittenTable.any (staleOther 100 50) = true ∧
    mainlineEvictStale 100 50 overwrittenTable = (overwrittenTable.drop 1).take 1 ∧
    mainlineEvictStale 100 50 overwrittenTable ≠ withoutStale 100 50 overwrittenTable := by
  decide

end Norn
