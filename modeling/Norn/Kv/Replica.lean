import Norn.Kv.Restore

/-!
# Replicas of the store

Stores of one capacity that have applied the same commands hold the same map.
-/

namespace Norn
open List
namespace NornKv
variable {cap : ℕ} {kv : NornKv}

theorem leadingRecords_flatMap {rs : List (Sigma fun _ : Bytes => Bytes)}
    (hfits : ∀ x ∈ rs, FitsRecord x) {n : ℕ} (hn : rs.length ≤ n) :
    leadingRecords n (rs.flatMap record) = rs := by
  induction rs generalizing n with
  | nil => exact leadingRecords_of_short (by decide) n
  | cons x rs ih =>
    obtain ⟨hx, hrs⟩ := forall_mem_cons.mp hfits
    cases n with
    | zero => cases hn
    | succ n =>
      rw [leadingRecords, flatMap_cons, leadingRecord_eq_some_iff.mpr ⟨hx, rfl⟩]
      exact congrArg (cons x) (ih hrs (Nat.le_of_succ_le_succ hn))

theorem Ok.restore (h : Ok cap kv) (kv' : NornKv) (hroom : kv.toMap.keys.card ≤ kv'.entries.length) :
    (nornKvRestore kv' kv.records).1 = 0 ∧ Ok kv'.entries.length (nornKvRestore kv' kv.records).2 ∧
      (nornKvRestore kv' kv.records).2.toMap = kv.toMap := by
  have hread : leadingRecords kv'.entries.length kv.records = Slots.contents slot kv.entries := by
    rw [toMap, Slots.card_toMap h.distinct] at hroom
    exact leadingRecords_flatMap h.fits_contents hroom
  obtain ⟨hcontents, -, -, hcode⟩ := kv'.restore_leading kv.records
  rw [hread] at hcontents hcode
  refine ⟨hcode.trans (if_pos rfl), ok_restored rfl ?_, ?_⟩
  · rw [hread]
    exact h.distinct
  · rw [toMap, Slots.toMap, hcontents]
    rfl

end NornKv

/-- A store of this capacity after these commands. -/
inductive KvReplica (cap : ℕ) : NornKv → List Bytes → Prop
  | new {kv : NornKv} (h : nornKvNew cap = some kv) : KvReplica cap kv []
  | apply {kv : NornKv} {cmds : List Bytes} (h : KvReplica cap kv cmds) (cmd : Bytes) :
      KvReplica cap (nornKvApply kv cmd).2.1 (cmds ++ [cmd])
  | restore {kv : NornKv} {cmds : List Bytes} (h : KvReplica cap kv cmds) {size : ℕ} {snap : Bytes}
      (hsnap : nornKvSnapshot kv size = some snap) (kv' : NornKv) (hcap : kv'.entries.length = cap) :
      KvReplica cap (nornKvRestore kv' snap).2 cmds

namespace KvReplica
variable {cap : ℕ} {kv : NornKv} {cmds : List Bytes}

def mapAfter (cap : ℕ) (cmds : List Bytes) : KvMap :=
  cmds.foldl (fun m cmd => (m.apply cap cmd).2) ∅

theorem card_le {kv : NornKv} (h : kv.Ok cap) : kv.toMap.keys.card ≤ cap := by
  rw [NornKv.toMap, Slots.card_toMap h.distinct, ← h.length]
  exact Slots.length_contents_le _ _

theorem ok (h : KvReplica cap kv cmds) : kv.Ok cap ∧ kv.toMap = mapAfter cap cmds := by
  induction h with
  | new h => exact NornKv.ok_new h
  | apply _ cmd ih =>
    obtain ⟨hok, hmap⟩ := ih
    obtain ⟨hok', happly⟩ := hok.apply cmd
    refine ⟨hok', ?_⟩
    rw [mapAfter, foldl_append]
    rw [hmap] at happly
    exact congrArg Prod.snd happly
  | restore _ hsnap kv' hcap ih =>
    obtain ⟨hok, hmap⟩ := ih
    rw [NornKv.nornKvSnapshot_eq] at hsnap
    split_ifs at hsnap
    cases hsnap
    obtain ⟨_, hok', hmap'⟩ := hok.restore kv' (hcap ▸ card_le hok)
    rw [hcap] at hok'
    exact ⟨hok', hmap'.trans hmap⟩

/-- Encoded commands act as operations on a bounded map, all else is refused, and a snapshot is
restored to the same map, so that replicas with the same commands agree. -/
theorem refines_map (h : KvReplica cap kv cmds) :
    (∀ c cmd, KvCommand.Encodes c cmd → ((nornKvApply kv cmd).1, (nornKvApply kv cmd).2.1.toMap) =
      kv.toMap.exec cap c) ∧
    (∀ cmd, (∀ c, ¬ KvCommand.Encodes c cmd) → nornKvApply kv cmd = (-1, kv, [])) ∧
    (∀ kv' cmds', KvReplica cap kv' cmds' → kv'.toMap = kv.toMap → ∀ cmd,
      (nornKvApply kv' cmd).1 = (nornKvApply kv cmd).1 ∧
        (nornKvApply kv' cmd).2.1.toMap = (nornKvApply kv cmd).2.1.toMap) ∧
    (∀ size, 388 * cap ≤ size → (nornKvSnapshot kv size).isSome) ∧
    (∀ size snap kv', nornKvSnapshot kv size = some snap →
      kv.toMap.keys.card ≤ kv'.entries.length →
      (nornKvRestore kv' snap).1 = 0 ∧ (nornKvRestore kv' snap).2.toMap = kv.toMap) ∧
    (∀ kv', KvReplica cap kv' cmds → kv'.toMap = kv.toMap) := by
  obtain ⟨hok, hmap⟩ := h.ok
  refine ⟨fun c cmd hc => ?_, fun cmd hno => ?_, fun kv' cmds' h' hsame cmd => ?_, fun size hsize => ?_,
    fun size snap kv' hsnap hroom => ?_, fun kv' h' => h'.ok.2.trans hmap.symm⟩
  · rw [(hok.apply cmd).2, KvMap.apply, KvCommand.parse_eq_some_iff.mpr hc]
    rfl
  · rw [nornKvApply_eq]
    cases hparse : KvCommand.parse cmd with
    | none => rfl
    | some c => exact absurd (KvCommand.parse_eq_some_iff.mp hparse) (hno c)
  · have hboth := (h'.ok.1.apply cmd).2.trans (hsame ▸ (hok.apply cmd).2.symm)
    exact Prod.mk.inj hboth
  · rw [NornKv.nornKvSnapshot_eq, if_pos (hok.length_records_le.trans hsize)]
    rfl
  · rw [NornKv.nornKvSnapshot_eq] at hsnap
    split_ifs at hsnap
    cases hsnap
    obtain ⟨hrc, _, hsame⟩ := hok.restore kv' hroom
    exact ⟨hrc, hsame⟩

def twoSlots : NornKv := ⟨replicate 2 ⟨[], [], false⟩, 0, []⟩

def usedCmds : List Bytes := [[1, 0, 1, 7, 0, 1, 9], [1, 0, 1, 8, 0, 1, 3], [2, 0, 1, 7]]

def usedSlots : NornKv := usedCmds.foldl (fun kv cmd => (nornKvApply kv cmd).2.1) twoSlots

theorem usedSlots_refines_map : KvReplica 2 usedSlots usedCmds ∧
    nornKvGet usedSlots [7] 9 = none ∧ nornKvGet usedSlots [8] 9 = some [3] ∧
    ((nornKvApply usedSlots [1, 0, 1, 7, 0, 1, 4]).1,
      (nornKvApply usedSlots [1, 0, 1, 7, 0, 1, 4]).2.1.toMap) =
        usedSlots.toMap.exec 2 (.put [7] [4]) ∧
    ∃ snap, nornKvSnapshot usedSlots 776 = some snap ∧
      (nornKvRestore twoSlots snap).2.toMap = usedSlots.toMap := by
  have h : KvReplica 2 usedSlots usedCmds := (((KvReplica.new rfl).apply _).apply _).apply _
  obtain ⟨hexec, -, -, hroom, hrestore, -⟩ := refines_map h
  obtain ⟨snap, hsnap⟩ := Option.isSome_iff_exists.mp (hroom 776 (by decide))
  exact ⟨h, by decide, by decide, hexec (.put [7] [4]) _ ⟨7, rfl⟩, snap, hsnap,
    (hrestore 776 snap twoSlots hsnap (card_le h.ok.1)).2⟩

end KvReplica
end Norn
