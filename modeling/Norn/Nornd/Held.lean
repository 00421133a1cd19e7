import Norn.Dht.KadClosest
import Norn.Nornd.Ipc

/-!
# Reading and deleting held records

If nothing is held, `norn_dht_get_value` copies as many bytes as an uninitialised variable says.
-/

namespace Norn
open List Bool Option
variable (now : ℤ) (target : Bytes)

/-- The result and the bytes copied out, or nothing if the copy overruns a buffer; `junk` is what the
variables `vlen` and `v` hold before the call. -/
def nornDhtGetValue (cap : ℕ) (junk : ℕ × Bytes) (s : DhtStore) : Option (ℤ × Bytes) × DhtStore :=
  if cap = 0 then (some (-1, []), s)
  else
    let out := dhtstoreGetEx now target (min 1024 cap) s
    let found := out.1.elim junk fun e => (e.v.length, e.v)
    (if min 1024 cap < found.1 then none else some (cInt found.1, found.2.take found.1), out.2)

def nornDhtDel (s : DhtStore) : ℤ × DhtStore :=
  (if (dhtstoreDel target s).1 then 1 else 0, (dhtstoreDel target s).2)

def bep44Del (s : DhtStore) : NorndIpcResp × DhtStore :=
  if target.length ≠ 20 then (⟨false, none, some (text "key must be 20 bytes".toList), []⟩, s)
  else if (nornDhtDel target s).1 ≠ 0 then
    (⟨false, none, some (text "not held".toList), []⟩, (nornDhtDel target s).2)
  else (⟨true, none, none, []⟩, (nornDhtDel target s).2)

namespace DhtStore
variable (s : DhtStore)

def Held : Prop := ∃ e ∈ s.items, e.target = target

/-- The call returns, and says what is held. -/
structure GetExact (cap : ℕ) (junk : ℕ × Bytes) : Prop where
  returns : (nornDhtGetValue now target cap junk s).1 ≠ none
  found_iff : (∃ out ∈ (nornDhtGetValue now target cap junk s).1, 0 ≤ out.1) ↔
    ∃ e ∈ s.items, e.target = target ∧ e.expired now = false
  value : ∀ e ∈ s.items, e.target = target → e.expired now = false →
    (nornDhtGetValue now target cap junk s).1 = some ((e.v.length : ℤ), e.v)

/-- The deletion is answered as it should be. -/
structure DelExact : Prop where
  ok_iff : (bep44Del target s).1.ok = true ↔ s.Held target
  gone : s.Held target → ¬ (bep44Del target s).2.Held target

/-- A record is held and fits the buffer, or none is held and there is no buffer. -/
def GetFits (cap : ℕ) : Prop :=
  (∃ e ∈ s.items, e.target = target ∧ e.expired now = false ∧ e.v.length ≤ cap) ∨
    (∀ e ∈ s.items, e.target = target → e.expired now = true) ∧ cap = 0

variable {now target s} {C : DhtCrypto} {e : DhtItem} {cap : ℕ} {junk : ℕ × Bytes}

theorem Sound.getValue_of_mem (h : s.Sound C) (he : e ∈ s.items) (hfresh : e.expired now = false)
    (hcap : cap ≠ 0) : (nornDhtGetValue now e.target cap junk s).1 =
      some (((e.v.take cap).length : ℤ), e.v.take cap) := by
  have hlen : e.v.length ≤ 1000 := (h.valid e he).v_le
  have htake : e.v.take (min 1024 cap) = e.v.take cap := by
    rw [← take_take, take_of_length_le (by rw [length_take]; omega)]
  have hsmall : (e.v.take cap).length < 2147483648 := by
    rw [length_take]
    omega
  rw [nornDhtGetValue, if_neg hcap]
  dsimp only
  rw [h.get_of_mem now he, hfresh, if_neg Bool.false_ne_true, Option.elim_some, htake, take_length,
    KadTable.cInt_of_lt hsmall, if_neg (by rw [length_take]; omega)]

/-- If nothing is held, the call returns a length that is not negative, or overruns a buffer. -/
theorem getValue_of_not_held (h : ∀ e ∈ s.items, e.target = target → e.expired now = true)
    (hcap : cap ≠ 0) (hreturns : (nornDhtGetValue now target cap junk s).1 ≠ none) :
    ∃ out ∈ (nornDhtGetValue now target cap junk s).1, 0 ≤ out.1 := by
  have hnone : ((s.expire now).items.find? fun e => e.target = target) = none := by
    refine find?_eq_none.mpr fun e he htarget => ?_
    obtain ⟨hmem, hfresh⟩ := mem_expire.mp he
    rw [h e hmem (of_decide_eq_true htarget)] at hfresh
    cases hfresh
  rw [nornDhtGetValue, if_neg hcap, dhtstoreGetEx] at hreturns ⊢
  dsimp only at hreturns ⊢
  rw [hnone, map_none, elim_none] at hreturns ⊢
  split_ifs at hreturns ⊢ with hover
  · exact absurd rfl hreturns
  · refine ⟨_, rfl, ?_⟩
    rw [KadTable.cInt_of_lt (by omega)]
    exact Int.natCast_nonneg _

theorem Sound.getExact_of_mem (h : s.Sound C) (he : e ∈ s.items) (hfresh : e.expired now = false) :
    s.GetExact now e.target cap junk ↔ e.v.length ≤ cap := by
  constructor
  · intro hexact
    have hcap : cap ≠ 0 := by
      rintro rfl
      obtain ⟨out, hout, hneg⟩ := hexact.found_iff.mpr ⟨e, he, rfl, hfresh⟩
      cases hout
      exact absurd hneg (show ¬ (0 : ℤ) ≤ -1 by decide)
    have hvalue := hexact.value e he rfl hfresh
    rw [h.getValue_of_mem he hfresh hcap] at hvalue
    exact (take_eq_self_iff _).mp (Prod.mk.inj (some.inj hvalue)).2
  · intro hlen
    have hcap : cap ≠ 0 := by
      have hpos := (h.valid e he).v_pos
      omega
    have hget : (nornDhtGetValue now e.target cap junk s).1 = _ :=
      h.getValue_of_mem he hfresh hcap
    rw [take_of_length_le hlen] at hget
    refine ⟨by rw [hget]; exact some_ne_none _, iff_of_true ?_ ⟨e, he, rfl, hfresh⟩,
      fun x hx htarget _ => ?_⟩
    · exact ⟨_, hget, Int.natCast_nonneg _⟩
    · rw [hget, inj_on_of_nodup_map h.nodup hx he htarget]

theorem getExact_of_not_held (h : ∀ e ∈ s.items, e.target = target → e.expired now = true) :
    s.GetExact now target cap junk ↔ cap = 0 := by
  have hno : ¬ ∃ e ∈ s.items, e.target = target ∧ e.expired now = false := by
    rintro ⟨e, he, htarget, hfresh⟩
    rw [h e he htarget] at hfresh
    cases hfresh
  constructor
  · intro hexact
    by_contra hcap
    exact hno (hexact.found_iff.mp (getValue_of_not_held h hcap hexact.returns))
  · rintro rfl
    refine ⟨some_ne_none _, iff_of_false ?_ hno,
      fun e he htarget hfresh => absurd ⟨e, he, htarget, hfresh⟩ hno⟩
    rintro ⟨out, hout, hneg⟩
    cases hout
    exact absurd hneg (show ¬ (0 : ℤ) ≤ -1 by decide)

theorem dhtstoreDel_iff : (dhtstoreDel target s).1 = true ↔ s.Held target := by
  unfold dhtstoreDel
  cases hfind : s.items.findIdx? fun e => e.target = target with
  | none =>
    have hne := Compact.ne_of_findIdx?_eq_none hfind
    exact iff_of_false false_ne_true fun ⟨e, he, htarget⟩ => hne e he htarget
  | some i =>
    obtain ⟨e, hget, htarget⟩ := Compact.getElem?_of_findIdx? hfind
    exact iff_of_true rfl ⟨e, mem_of_getElem? hget, htarget⟩

theorem not_delExact (htarget : target.length = 20) : ¬ s.DelExact target := by
  intro h
  have hok := h.ok_iff
  rw [← dhtstoreDel_iff, bep44Del, if_neg (not_not_intro htarget), nornDhtDel] at hok
  cases hdel : (dhtstoreDel target s).1 <;> rw [hdel] at hok <;> simp at hok

end DhtStore

/-- A held record is read exactly if it fits the buffer, and a missing one reported exactly if there
is no buffer. A deletion is never answered rightly. -/
theorem held_operations_iff {C : DhtCrypto} {s : DhtStore} (h : s.Reachable C) (now : ℤ)
    {target : Bytes} (htarget : target.length = 20) (cap : ℕ) (junk : ℕ × Bytes) :
    (s.GetExact now target cap junk ↔ s.GetFits now target cap) ∧ ¬ s.DelExact target := by
  refine ⟨?_, DhtStore.not_delExact htarget⟩
  by_cases hheld : ∃ e ∈ s.items, e.target = target ∧ e.expired now = false
  · obtain ⟨e, he, rfl, hfresh⟩ := hheld
    rw [h.sound.getExact_of_mem he hfresh]
    refine ⟨fun hlen => .inl ⟨e, he, rfl, hfresh, hlen⟩, ?_⟩
    rintro (⟨x, hx, hsame, -, hlen⟩ | ⟨hgone, -⟩)
    · rwa [← inj_on_of_nodup_map h.sound.nodup hx he hsame]
    · exact absurd (hgone e he rfl) (by rw [hfresh]; exact false_ne_true)
  · have hgone : ∀ e ∈ s.items, e.target = target → e.expired now = true := fun e he ht =>
      eq_true_of_not_eq_false fun hfresh => hheld ⟨e, he, ht, hfresh⟩
    rw [DhtStore.getExact_of_not_held hgone]
    refine ⟨fun hcap => .inr ⟨hgone, hcap⟩, ?_⟩
    rintro (⟨e, he, ht, hfresh, -⟩ | ⟨-, hcap⟩)
    · exact absurd ⟨e, he, ht, hfresh⟩ hheld
    · exact hcap

def heldTarget : Bytes := toyCrypto.sha1 (Bencode.encodeString [7, 8])

def heldStore : DhtStore :=
  (dhtstorePutImmutable toyCrypto 0 [7, 8] 0 (dhtstoreInit (dhtstoreBudget 1 false 0))).2

theorem heldStore_held_operations : heldStore.Reachable toyCrypto ∧
    heldStore.GetExact 0 heldTarget 100 (2 ^ 64 - 1, []) ∧ ¬ heldStore.DelExact heldTarget := by
  have hreach : heldStore.Reachable toyCrypto := .putImmutable (.init 1 false 0) 0 [7, 8] 0
  have hfits : ∃ e ∈ heldStore.items,
      e.target = heldTarget ∧ e.expired 0 = false ∧ e.v.length ≤ 100 := by decide +kernel
  obtain ⟨hget, hdel⟩ := held_operations_iff hreach 0
    (show heldTarget.length = 20 from toyCrypto.length_sha1 _) 100 (2 ^ 64 - 1, [])
  exact ⟨hreach, hget.mpr (.inl hfits), hdel⟩

theorem idleStore_answers :
    (nornDhtGetValue 0 (replicate 20 1) 10 (7, replicate 1024 0) (dhtstoreInit 0)).1 =
      some (7, replicate 7 0) ∧
    (nornDhtGetValue 0 (replicate 20 1) 10 (2 ^ 64 - 1, replicate 1024 0) (dhtstoreInit 0)).1 = none ∧
    (bep44Del (replicate 20 1) (dhtstoreInit 0)).1.ok = true ∧
    ¬ (dhtstoreInit 0).Held (replicate 20 1) ∧
    heldStore.Held heldTarget ∧ (bep44Del heldTarget heldStore).1.ok = false := by
  refine ⟨by decide +kernel, by decide +kernel, by decide +kernel, ?_, ?_, by decide +kernel⟩
  · rintro ⟨e, he, -⟩
    cases he
  · unfold DhtStore.Held
    decide +kernel

end Norn
