import Norn.Lib.Bytes
import Norn.Lib.Run

/-!
# The object store

Files named by the hash of their contents (`store.c`). What becomes of a write is an input.
-/

namespace Norn
open List Function Option

def norndStoreHashHex : ℕ := 64

def hexset : Bytes := text "0123456789abcdef".toList

def hex32 (digest : Bytes) : Bytes :=
  digest.flatMap fun b => [hexset.getD (b.toNat / 16) 0, hexset.getD (b.toNat % 16) 0]

theorem hexset_getD_inj : ∀ i < 16, ∀ j < 16, hexset.getD i 0 = hexset.getD j 0 → i = j := by
  decide

theorem hexset_getD_mem : ∀ i < 16, hexset.getD i 0 ∈ hexset := by
  decide

theorem length_hex32 (digest : Bytes) : (hex32 digest).length = 2 * digest.length := by
  simp [hex32, length_flatMap, mul_comm]

variable {digest : Bytes}

theorem mem_hexset_of_mem_hex32 {c : UInt8} (h : c ∈ hex32 digest) : c ∈ hexset := by
  obtain ⟨b, _, hc⟩ := mem_flatMap.mp h
  have hb := b.toNat_lt
  simp only [mem_cons, not_mem_nil, or_false] at hc
  rcases hc with rfl | rfl
  · exact hexset_getD_mem _ (by omega)
  · exact hexset_getD_mem _ (by omega)

theorem hex32_injective : Function.Injective hex32 := by
  intro x
  induction x with
  | nil =>
    intro y h
    have hlen := congrArg length h
    rw [length_hex32, length_hex32, length_nil] at hlen
    exact (length_eq_zero_iff.mp (by omega)).symm
  | cons b x ih =>
    intro y h
    cases y with
    | nil => cases h
    | cons c y =>
      have hb := b.toNat_lt
      have hc := c.toNat_lt
      simp only [hex32, flatMap_cons, cons_append, nil_append, cons.injEq] at h
      have hhigh := hexset_getD_inj _ (by omega) _ (by omega) h.1
      have hlow := hexset_getD_inj _ (by omega) _ (by omega) h.2.1
      have hbyte : b = c := UInt8.toNat.inj (by omega)
      rw [hbyte, ih h.2.2]

structure NorndStoreT where
  root : Bytes
  bounded : 0 < root.length ∧ root.length < 512

def norndStoreInit (root : Bytes) (made : Bool) : Option NorndStoreT :=
  if h : 0 < root.length ∧ root.length < 512 then
    if made then some ⟨root, h⟩ else none
  else none

abbrev ObjectFiles := Bytes → Option Bytes

structure WriteOutcome where
  opens : Bool
  reported : ℕ
  kept : ℕ

namespace NorndStoreT
variable (s : NorndStoreT)

def path (hash : Bytes) : Bytes := s.root ++ text "/".toList ++ hash

variable (sha256 : Bytes → Bytes)

def norndStorePut (files : ObjectFiles) (data : Bytes) (w : WriteOutcome) :
    Option Bytes × ObjectFiles :=
  let hash := hex32 (sha256 data)
  if 600 ≤ (s.path hash).length then (none, files)
  else if (files (s.path hash)).isSome then (some hash, files)
  else if w.opens = false then (none, files)
  else
    let written := update files (s.path hash) (some (data.take w.kept))
    if data.length ≠ 0 ∧ w.reported ≠ data.length then (none, written)
    else (some hash, written)

def norndStoreStat (files : ObjectFiles) (hash : Bytes) (pathcap : Option ℕ) :
    Option (Bytes × ℕ) :=
  if hash.length ≠ norndStoreHashHex then none
  else if ∃ c ∈ hash, c ∉ hexset then none
  else if 600 ≤ (s.path hash).length then none
  else
    match files (s.path hash) with
    | none => none
    | some object =>
      if ∃ cap ∈ pathcap, cap ≤ (s.path hash).length then none
      else some (s.path hash, object.length)

theorem path_injective : Function.Injective s.path := fun _ _ h => append_cancel_left h

variable {hash : Bytes} {files : ObjectFiles}

theorem length_path (h : hash.length = norndStoreHashHex) : (s.path hash).length < 600 := by
  have hroot := s.bounded.2
  have hslash : (text "/".toList).length = 1 := rfl
  unfold norndStoreHashHex at h
  rw [path, length_append, length_append, hslash]
  omega

theorem put_cases (files : ObjectFiles) (data : Bytes) (w : WriteOutcome) :
    (s.norndStorePut sha256 files data w).2 = files ∧
        ((s.norndStorePut sha256 files data w).1 = none ∨
          ∃ object, files (s.path (hex32 (sha256 data))) = some object) ∨
      files (s.path (hex32 (sha256 data))) = none ∧ w.opens = true ∧
        (s.norndStorePut sha256 files data w).2 =
          update files (s.path (hex32 (sha256 data))) (some (data.take w.kept)) := by
  simp only [norndStorePut]
  split_ifs with hlong hsome hopens hshort
  · exact .inl ⟨rfl, Or.inl rfl⟩
  · exact .inl ⟨rfl, Or.inr (isSome_iff_exists.mp hsome)⟩
  · exact .inl ⟨rfl, Or.inl rfl⟩
  · exact .inr ⟨not_isSome_iff_eq_none.mp hsome, by simpa using hopens, rfl⟩
  · exact .inr ⟨not_isSome_iff_eq_none.mp hsome, by simpa using hopens, rfl⟩

theorem put_new {data : Bytes} {w : WriteOutcome} (hlen : (sha256 data).length = 32)
    (hnone : files (s.path (hex32 (sha256 data))) = none) (hopens : w.opens = true) :
    (s.norndStorePut sha256 files data w).2 =
      update files (s.path (hex32 (sha256 data))) (some (data.take w.kept)) := by
  have hshort : ¬ 600 ≤ (s.path (hex32 (sha256 data))).length :=
    not_le.mpr (s.length_path (by rw [length_hex32, hlen]; rfl))
  simp only [norndStorePut, hnone, hopens, isSome_none, Bool.false_eq_true,
    Bool.true_eq_false, if_false, if_neg hshort]
  split_ifs <;> rfl

theorem stat_found {cap : Option ℕ} {out : Bytes × ℕ}
    (h : s.norndStoreStat files hash cap = some out) :
    ∃ object, files (s.path hash) = some object ∧ out = (s.path hash, object.length) := by
  cases hfile : files (s.path hash) with
  | none =>
    simp only [norndStoreStat, hfile, ite_self, reduceCtorEq] at h
  | some object =>
    simp only [norndStoreStat, hfile] at h
    split_ifs at h
    exact ⟨object, rfl, (some.inj h).symm⟩

theorem stat_of_file {object : Bytes} (hlen : digest.length = 32)
    (h : files (s.path (hex32 digest)) = some object) : s.norndStoreStat files (hex32 digest) none =
      some (s.path (hex32 digest), object.length) := by
  have hhash : (hex32 digest).length = norndStoreHashHex := by rw [length_hex32, hlen]; rfl
  have hdigits : ¬ ∃ c ∈ hex32 digest, c ∉ hexset := by
    rintro ⟨c, hc, hnot⟩
    exact hnot (mem_hexset_of_mem_hex32 hc)
  rw [norndStoreStat, if_neg (not_not.mpr hhash), if_neg hdigits,
    if_neg (not_le.mpr (s.length_path hhash)), h]
  exact if_neg (by rintro ⟨_, hcap, _⟩; cases hcap)

end NorndStoreT

inductive StoreCall
  | put (data : Bytes) (w : WriteOutcome)
  | stat (hash : Bytes) (pathcap : Option ℕ)

instance : Inhabited StoreCall := ⟨.stat [] none⟩

namespace NorndStoreT
variable (s : NorndStoreT) (sha256 : Bytes → Bytes)

def call (files : ObjectFiles) : StoreCall → ObjectFiles
  | .put data w => (s.norndStorePut sha256 files data w).2
  | .stat _ _ => files

def system : System ObjectFiles StoreCall where
  init files := ∀ hash, files (s.path hash) = none
  next files c files' := files' = s.call sha256 files c

/-- What is found under a hash has it. -/
def Intact (files : ObjectFiles) : Prop :=
  ∀ hash cap out, s.norndStoreStat files hash cap = some out →
    ∃ object, files (s.path hash) = some object ∧ hex32 (sha256 object) = hash

/-- A put that returns has stored its object. -/
def Truthful (files files' : ObjectFiles) : StoreCall → Prop
  | .put data w => (s.norndStorePut sha256 files data w).1 ≠ none →
      files' (s.path (hex32 (sha256 data))) = some data
  | .stat _ _ => True

def Whole (files : ObjectFiles) : StoreCall → Prop
  | .put data w => files (s.path (hex32 (sha256 data))) = none → w.opens = true →
      data.length ≤ w.kept
  | .stat _ _ => True

variable {s sha256}

def Stores (run : Run (s.system sha256)) (data : Bytes) : Prop :=
  ∃ k < run.len, ∃ w, run.event k = .put data w

def NoCollisions (run : Run (s.system sha256)) : Prop :=
  ∀ d d', Stores run d → Stores run d' → ∀ p p', p <+: d → p' <+: d' → sha256 p = sha256 p' → p = p'

def Holds (run : Run (s.system sha256)) (files : ObjectFiles) : Prop :=
  ∀ hash object, files (s.path hash) = some object →
    Stores run object ∧ hex32 (sha256 object) = hash

section
variable {run : Run (s.system sha256)} {k : ℕ}

theorem Holds.step (hk : k < run.len) (h : Holds run (run.state k))
    (hwhole : s.Whole sha256 (run.state k) (run.event k)) : Holds run (run.state (k + 1)) := by
  have hnext : run.state (k + 1) = s.call sha256 (run.state k) (run.event k) := run.steps k hk
  rw [hnext]
  cases hevent : run.event k with
  | stat hash cap => exact h
  | put data w =>
    rw [hevent] at hwhole
    rcases s.put_cases sha256 (run.state k) data w with ⟨hsame, _⟩ | ⟨hnone, hopens, hput⟩
    · rwa [call, hsame]
    · rw [call, hput, take_of_length_le (hwhole hnone hopens)]
      intro hash object hobject
      by_cases hpath : s.path hash = s.path (hex32 (sha256 data))
      · rw [hpath, update_self, some.injEq] at hobject
        subst hobject
        exact ⟨⟨k, hk, w, hevent⟩, (s.path_injective hpath).symm⟩
      · rw [update_of_ne hpath] at hobject
        exact h hash object hobject

theorem Holds.of_run (hwhole : ∀ k < run.len, s.Whole sha256 (run.state k) (run.event k)) :
    ∀ k ≤ run.len, Holds run (run.state k) := by
  apply run.invariant (I := Holds run)
  · intro files hinit hash object hobject
    rw [hinit hash] at hobject
    cases hobject
  · intro k hk h
    exact h.step hk (hwhole k hk)

theorem Holds.intact {files : ObjectFiles} (h : Holds run files) : s.Intact sha256 files := by
  intro hash cap out hstat
  obtain ⟨object, hobject, _⟩ := s.stat_found hstat
  exact ⟨object, hobject, (h hash object hobject).2⟩

theorem Holds.truthful (hcoll : NoCollisions run) (hk : k < run.len) (h : Holds run (run.state k))
    (hwhole : s.Whole sha256 (run.state k) (run.event k)) :
    s.Truthful sha256 (run.state k) (run.state (k + 1)) (run.event k) := by
  have hnext : run.state (k + 1) = s.call sha256 (run.state k) (run.event k) := run.steps k hk
  rw [hnext]
  cases hevent : run.event k with
  | stat hash cap => trivial
  | put data w =>
    rw [hevent] at hwhole
    intro hok
    rcases s.put_cases sha256 (run.state k) data w with
      ⟨hsame, hnone | ⟨object, hobject⟩⟩ | ⟨hnone, hopens, hput⟩
    · exact absurd hnone hok
    · obtain ⟨hstored, hhash⟩ := h _ object hobject
      have heq : object = data := hcoll object data hstored ⟨k, hk, w, hevent⟩ object data
        prefix_rfl prefix_rfl (hex32_injective hhash)
      rw [call, hsame, hobject, heq]
    · rw [call, hput, take_of_length_le (hwhole hnone hopens), update_self]

theorem Intact.whole (hlen : ∀ data, (sha256 data).length = 32) (hcoll : NoCollisions run)
    (hk : k < run.len) (h : s.Intact sha256 (run.state (k + 1))) :
    s.Whole sha256 (run.state k) (run.event k) := by
  have hnext : run.state (k + 1) = s.call sha256 (run.state k) (run.event k) := run.steps k hk
  rw [hnext] at h
  cases hevent : run.event k with
  | stat hash cap => trivial
  | put data w =>
    rw [hevent] at h
    intro hnone hopens
    have hfile : s.call sha256 (run.state k) (.put data w) (s.path (hex32 (sha256 data))) =
        some (data.take w.kept) := by
      rw [call, s.put_new sha256 (hlen data) hnone hopens, update_self]
    obtain ⟨object, hobject, hhash⟩ := h _ none _ (s.stat_of_file (hlen data) hfile)
    rw [hfile, some.injEq] at hobject
    subst hobject
    have hstored : Stores run data := ⟨k, hk, w, hevent⟩
    have heq : data.take w.kept = data := hcoll data data hstored hstored _ _
      ⟨_, take_append_drop _ _⟩ prefix_rfl (hex32_injective hhash)
    have hle := congrArg length heq
    rw [length_take] at hle
    omega

end

/-- The store is sound through a whole run if and only if no write of a new object is cut short. -/
theorem store_sound_iff_writes_whole (hlen : ∀ data, (sha256 data).length = 32)
    (run : Run (s.system sha256)) (hcoll : NoCollisions run) :
    ((∀ k ≤ run.len, s.Intact sha256 (run.state k)) ∧
      ∀ k < run.len, s.Truthful sha256 (run.state k) (run.state (k + 1)) (run.event k)) ↔
    ∀ k < run.len, s.Whole sha256 (run.state k) (run.event k) := by
  constructor
  · rintro ⟨hintact, _⟩ k hk
    exact (hintact (k + 1) hk).whole hlen hcoll hk
  · intro hwhole
    have hholds := Holds.of_run hwhole
    exact ⟨fun k hk => (hholds k hk).intact,
      fun k hk => (hholds k hk.le).truthful hcoll hk (hwhole k hk)⟩

def sampleStore : NorndStoreT := ⟨text "/o".toList, by decide⟩

def sampleDigest (data : Bytes) : Bytes :=
  (UInt8.ofNat data.length :: data ++ replicate 32 0).take 32

theorem length_sampleDigest (data : Bytes) : (sampleDigest data).length = 32 := by
  simp [sampleDigest]

def sampleRun (calls : List StoreCall) : Run (sampleStore.system sampleDigest) :=
  Run.ofTotal (sampleStore.call sampleDigest) (fun _ _ => rfl) (fun _ => none) (fun _ => rfl) calls

theorem sampleRun_noCollisions {calls : List StoreCall}
    (h : ∀ data w, StoreCall.put data w ∈ calls → data = [1, 2]) :
    NoCollisions (sampleRun calls) := by
  have hdata : ∀ data, Stores (sampleRun calls) data → data = [1, 2] := by
    rintro data ⟨k, hk, w, hevent⟩
    refine h data w ?_
    rw [← hevent]
    change calls.getD k default ∈ calls
    rw [getD_eq_getElem calls default hk]
    exact getElem_mem hk
  intro d d' hd hd' p p' hp hp' heq
  rw [hdata d hd, ← mem_inits] at hp
  rw [hdata d' hd', ← mem_inits] at hp'
  exact (by decide : ∀ p ∈ [1, 2].inits, ∀ p' ∈ [1, 2].inits,
    sampleDigest p = sampleDigest p' → p = p') p hp p' hp' heq

def wholeRun : Run (sampleStore.system sampleDigest) :=
  sampleRun [.put [1, 2] ⟨true, 2, 2⟩, .put [1, 2] ⟨true, 2, 2⟩]

theorem wholeRun_sound : (∀ k ≤ 2, sampleStore.Intact sampleDigest (wholeRun.state k)) ∧
    ∀ k < 2, sampleStore.Truthful sampleDigest (wholeRun.state k) (wholeRun.state (k + 1))
      (wholeRun.event k) := by
  refine (store_sound_iff_writes_whole length_sampleDigest wholeRun
    (sampleRun_noCollisions ?_)).mpr ?_
  · simp
  · intro k hk
    change k < 2 at hk
    interval_cases k
    · exact fun _ _ => le_rfl
    · exact fun _ _ => le_rfl

def tornRun : Run (sampleStore.system sampleDigest) :=
  sampleRun [.put [1, 2] ⟨true, 1, 1⟩, .put [1, 2] ⟨true, 2, 2⟩]

theorem tornRun_unsound : NoCollisions tornRun ∧
    (sampleStore.norndStorePut sampleDigest (tornRun.state 1) [1, 2] ⟨true, 2, 2⟩).1 =
      some (hex32 (sampleDigest [1, 2])) ∧
    tornRun.state 2 (sampleStore.path (hex32 (sampleDigest [1, 2]))) = some [1] ∧
    (sampleStore.norndStoreStat (tornRun.state 2) (hex32 (sampleDigest [1, 2])) none).isSome ∧
    hex32 (sampleDigest [1]) ≠ hex32 (sampleDigest [1, 2]) := by
  refine ⟨sampleRun_noCollisions ?_, by decide +kernel⟩
  intro data w hmem
  simp only [mem_cons, StoreCall.put.injEq, not_mem_nil, or_false] at hmem
  exact hmem.elim And.left And.left

end NorndStoreT
end Norn
