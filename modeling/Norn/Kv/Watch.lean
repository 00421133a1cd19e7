import Norn.Kv.Refinement
import Norn.Lib.Run

/-!
# Watches

A watch is told of every change to the keys with its pattern at the front (`norn_kvstore.c`).
-/

namespace Norn
open List

def kvMaxWatch : ℕ := 16

def nornKvWatch (kv : NornKv) (pat : Bytes) : ℤ × NornKv :=
  if nornKvMaxKey < pat.length then (-1, kv)
  else if kvMaxWatch ≤ kv.watches.length then (-1, kv)
  else (0, { kv with watches := kv.watches ++ [pat] })

namespace KvMap

/-- The command changes nothing. -/
inductive Refuses (cap : ℕ) (m : KvMap) (cmd : Bytes) : Prop
  | malformed (h : KvCommand.parse cmd = none)
  | absent {key : Bytes} (h : KvCommand.parse cmd = some (.del key)) (hkey : key ∉ m)
  | mismatch {key expect val : Bytes} (h : KvCommand.parse cmd = some (.cas key expect val))
      (hval : (m.lookup key).getD [] ≠ expect)
  | overflow {c : KvCommand} (h : KvCommand.parse cmd = some c) (hput : c.op ≠ nornKvDel)
      (hkey : c.key ∉ m) (hfull : cap ≤ m.keys.card)

def hear (m : KvMap) (f : KvFired) : KvMap :=
  match f.event with
  | .put => m.insert f.key f.val
  | .del => m.erase f.key

def replay (watch : ℕ) (fired : List KvFired) : KvMap :=
  (fired.filter fun f => f.watch = watch).foldl hear ∅

end KvMap

theorem filter_zipIdx {α : Type*} {l : List α} {i n : ℕ} {a : α} (h : l[i]? = some a) :
    (l.zipIdx n).filter (fun x => x.2 = n + i) = [(a, n + i)] := by
  induction l generalizing i n with
  | nil => cases h
  | cons b bs ih =>
    rw [zipIdx_cons]
    cases i with
    | zero =>
      cases h
      have hrest : (bs.zipIdx (n + 1)).filter (fun x => x.2 = n + 0) = [] := by
        rw [filter_eq_nil_iff]
        intro x hx
        have hle := le_snd_of_mem_zipIdx hx
        rw [decide_eq_true_eq]
        omega
      rw [filter_cons_of_pos (by simp), hrest]
      rfl
    | succ i =>
      rw [getElem?_cons_succ] at h
      rw [filter_cons_of_neg (by simp), Nat.add_comm i, ← Nat.add_assoc, ih h]

namespace NornKv

theorem filter_fire {kv : NornKv} {w : ℕ} {pat : Bytes} (hw : kv.watches[w]? = some pat)
    (event : KvEvent) (key val : Bytes) :
    (kv.fire event key val).filter (fun f => f.watch = w) =
      if pat <+: key then [⟨w, event, key, val⟩] else [] := by
  have hidx := filter_zipIdx (n := 0) hw
  rw [Nat.zero_add] at hidx
  rw [fire, filter_map, filter_filter]
  have hboth : (kv.watches.zipIdx.filter fun x => ((fun f : KvFired => decide (f.watch = w)) ∘
        fun x : Bytes × ℕ => (⟨x.2, event, key, val⟩ : KvFired)) x && x.1.isPrefixOf key) =
      [(pat, w)].filter fun x => x.1.isPrefixOf key := by
    rw [← hidx, filter_filter]
    refine filter_congr fun x _ => ?_
    rw [Bool.and_comm]
    rfl
  rw [hboth]
  by_cases hpat : pat <+: key
  · have hmatch : pat.isPrefixOf key = true := isPrefixOf_iff_prefix.mpr hpat
    rw [if_pos hpat, filter_singleton, hmatch]
    rfl
  · have hmatch : pat.isPrefixOf key = false := by
      rw [← Bool.not_eq_true, isPrefixOf_iff_prefix]
      exact hpat
    rw [if_neg hpat, filter_singleton, hmatch]
    rfl

inductive Applied (kv : NornKv) (out : ℤ × NornKv × List KvFired) : Prop
  | put {key val : Bytes} (hwatches : out.2.1.watches = kv.watches)
      (hmap : out.2.1.toMap = kv.toMap.insert key val) (hfired : out.2.2 = kv.fire .put key val)
  | del {key : Bytes} (hwatches : out.2.1.watches = kv.watches)
      (hmap : out.2.1.toMap = kv.toMap.erase key) (hfired : out.2.2 = kv.fire .del key [])
  | none (hkv : out.2.1 = kv) (hfired : out.2.2 = [])

variable {cap : ℕ} {kv : NornKv} {key : Bytes}

theorem Ok.storePut_applied (h : Ok cap kv) {val : Bytes} (hpos : 0 < key.length)
    (hkey : key.length ≤ nornKvMaxKey) (hval : val.length ≤ nornKvMaxVal) :
    Applied kv (kv.storePut key val) := by
  have hmap := (h.storePut hpos hkey hval).2
  by_cases hroom : key ∈ kv.toMap ∨ kv.toMap.keys.card < cap
  · rw [KvMap.put, if_pos hroom] at hmap
    refine @Applied.put kv _ key val ?_ (congrArg Prod.snd hmap) ?_
    · unfold NornKv.storePut
      cases kv.find key with
      | some i => rfl
      | none => cases kv.allocSlot <;> rfl
    · have hcode := congrArg Prod.fst hmap
      unfold NornKv.storePut at hcode ⊢
      cases hfind : kv.find key with
      | some i => rfl
      | none =>
        cases halloc : kv.allocSlot with
        | none =>
          rw [hfind, halloc] at hcode
          cases hcode
        | some i => rfl
  · obtain ⟨hnew, hfull⟩ := not_or.mp hroom
    have hout : kv.storePut key val = (-1, kv, []) := by
      have hfind : kv.find key = Option.none := by
        by_contra hfind
        exact hnew (mem_toMap.mpr hfind)
      rw [NornKv.storePut, hfind, h.allocSlot_eq_none_iff.mpr hfull]
    rw [hout]
    exact .none rfl rfl

theorem Ok.storeDel_applied (h : Ok cap kv) : Applied kv (kv.storeDel key) := by
  have hmap : (_, (kv.storeDel key).2.1.toMap) = kv.toMap.del key := h.storeDel.2
  cases hfind : kv.find key with
  | none =>
    rw [NornKv.storeDel, hfind]
    exact .none rfl rfl
  | some i =>
    have hmem : key ∈ kv.toMap := mem_toMap.mpr (by rw [hfind]; exact Option.some_ne_none i)
    rw [KvMap.del, if_pos hmem] at hmap
    refine @Applied.del kv _ key ?_ (congrArg Prod.snd hmap) ?_
    · rw [NornKv.storeDel, hfind]
    · rw [NornKv.storeDel, hfind]

theorem Ok.applied (h : Ok cap kv) (cmd : Bytes) : Applied kv (nornKvApply kv cmd) := by
  rw [nornKvApply_eq]
  cases hparse : KvCommand.parse cmd with
  | none => exact .none rfl rfl
  | some c =>
    obtain ⟨hpos, hkey, hvals⟩ := (KvCommand.eq_bytes_of_parse hparse).1
    cases c with
    | put key val => exact h.storePut_applied hpos hkey (hvals val mem_cons_self)
    | del key => exact h.storeDel_applied
    | cas key expect val =>
      rw [Option.elim_some, KvCommand.run, storeCas]
      split_ifs
      · exact .none rfl rfl
      · exact h.storePut_applied hpos hkey (hvals val (mem_cons_of_mem _ mem_cons_self))

theorem Ok.refused (h : Ok cap kv) {cmd : Bytes} (hcmd : kv.toMap.Refuses cap cmd) :
    (nornKvApply kv cmd).2 = (kv, []) := by
  have hput : ∀ key val, key ∉ kv.toMap → cap ≤ kv.toMap.keys.card →
      (kv.storePut key val).2 = (kv, []) := by
    intro key val hkey hfull
    have hfind : kv.find key = none := by
      by_contra hfind
      exact hkey (mem_toMap.mpr hfind)
    rw [NornKv.storePut, hfind, h.allocSlot_eq_none_iff.mpr (not_lt.mpr hfull)]
  rw [nornKvApply_eq]
  cases hcmd with
  | malformed hparse => rw [hparse, Option.elim_none]
  | @absent key hparse hkey =>
    have hfind : kv.find key = none := by
      by_contra hfind
      exact hkey (mem_toMap.mpr hfind)
    rw [hparse, Option.elim_some, KvCommand.run, NornKv.storeDel, hfind]
  | mismatch hparse hval =>
    rw [lookup_toMap, ← current_eq] at hval
    rw [hparse, Option.elim_some, KvCommand.run, storeCas, if_pos hval]
  | @overflow c hparse hop hkey hfull =>
    rw [hparse, Option.elim_some]
    cases c with
    | put key val => exact hput key val hkey hfull
    | del key => exact absurd rfl hop
    | cas key expect val =>
      rw [KvCommand.run, storeCas]
      split_ifs
      · rfl
      · exact hput key val hkey hfull

end NornKv

inductive WatchedCall
  | watch (pat : Bytes)
  | apply (cmd : Bytes)
  deriving Inhabited

structure WatchedKv where
  kv : NornKv
  fired : List KvFired

namespace WatchedKv

def call (s : WatchedKv) : WatchedCall → WatchedKv
  | .watch pat => { s with kv := (nornKvWatch s.kv pat).2 }
  | .apply cmd => ⟨(nornKvApply s.kv cmd).2.1, s.fired ++ (nornKvApply s.kv cmd).2.2⟩

def calls (cap : ℕ) : System WatchedKv WatchedCall where
  init s := nornKvNew cap = some s.kv ∧ s.fired = []
  next s c s' := s' = s.call c

/-- What the watch was told spells its part of the store. -/
def Hears (w : ℕ) (pat : Bytes) (s : WatchedKv) : Prop :=
  ∀ key, (KvMap.replay w s.fired).lookup key =
    if pat <+: key then s.kv.toMap.lookup key else none

theorem replay_append (w : ℕ) (fired fired' : List KvFired) : KvMap.replay w (fired ++ fired') =
      (fired'.filter fun f => f.watch = w).foldl KvMap.hear (KvMap.replay w fired) := by
  rw [KvMap.replay, filter_append, foldl_append, KvMap.replay]

variable {s : WatchedKv} {w : ℕ} {pat : Bytes} {kv : NornKv} {key : Bytes} {cap : ℕ}

theorem Hears.put (h : Hears w pat s) (hw : s.kv.watches[w]? = some pat) {val : Bytes}
    (hmap : kv.toMap = s.kv.toMap.insert key val) :
    Hears w pat ⟨kv, s.fired ++ s.kv.fire .put key val⟩ := by
  intro k
  rw [hmap, replay_append, NornKv.filter_fire hw]
  by_cases hk : k = key
  · subst hk
    by_cases hpat : pat <+: k
    · rw [if_pos hpat, if_pos hpat, Finmap.lookup_insert]
      exact Finmap.lookup_insert _
    · rw [if_neg hpat, if_neg hpat, foldl_nil, h k, if_neg hpat]
  · rw [Finmap.lookup_insert_of_ne _ hk, ← h k]
    split_ifs
    · exact Finmap.lookup_insert_of_ne _ hk
    · rfl

theorem Hears.del (h : Hears w pat s) (hw : s.kv.watches[w]? = some pat)
    (hmap : kv.toMap = s.kv.toMap.erase key) :
    Hears w pat ⟨kv, s.fired ++ s.kv.fire .del key []⟩ := by
  intro k
  rw [hmap, replay_append, NornKv.filter_fire hw]
  by_cases hk : k = key
  · subst hk
    by_cases hpat : pat <+: k
    · rw [if_pos hpat, if_pos hpat, Finmap.lookup_erase]
      exact Finmap.lookup_erase _ _
    · rw [if_neg hpat, if_neg hpat, foldl_nil, h k, if_neg hpat]
  · rw [Finmap.lookup_erase_ne hk, ← h k]
    split_ifs
    · exact Finmap.lookup_erase_ne hk
    · rfl

theorem nornKvWatch_cases (kv : NornKv) (pat : Bytes) : (nornKvWatch kv pat).2 = kv ∨
    (nornKvWatch kv pat).2 = { kv with watches := kv.watches ++ [pat] } := by
  unfold nornKvWatch
  split_ifs
  · exact .inl rfl
  · exact .inl rfl
  · exact .inr rfl

theorem toMap_watch (kv : NornKv) (pat : Bytes) : (nornKvWatch kv pat).2.toMap = kv.toMap := by
  rcases nornKvWatch_cases kv pat with h | h <;> rw [h]
  rfl

theorem ok_watch (h : NornKv.Ok cap kv) (pat : Bytes) : NornKv.Ok cap (nornKvWatch kv pat).2 := by
  rcases nornKvWatch_cases kv pat with heq | heq <;> rw [heq]
  · exact h
  · exact ⟨h.length, h.distinct, h.count, h.fits⟩

theorem watches_watch (hw : kv.watches[w]? = some pat) (pat' : Bytes) :
    (nornKvWatch kv pat').2.watches[w]? = some pat := by
  rcases nornKvWatch_cases kv pat' with h | h <;> rw [h]
  · exact hw
  · exact (getElem?_append_left (List.getElem?_eq_some_iff.mp hw).1).trans hw

theorem Hears.call (h : Hears w pat s) (hw : s.kv.watches[w]? = some pat) (hok : NornKv.Ok cap s.kv)
    (c : WatchedCall) : (s.call c).kv.watches[w]? = some pat ∧ Hears w pat (s.call c) := by
  cases c with
  | watch pat' =>
    refine ⟨watches_watch hw pat', ?_⟩
    intro key
    rw [WatchedKv.call, toMap_watch]
    exact h key
  | apply cmd =>
    cases hok.applied cmd with
    | put hwatches hmap hfired =>
      rw [WatchedKv.call, hfired, hwatches]
      exact ⟨hw, h.put hw hmap⟩
    | del hwatches hmap hfired =>
      rw [WatchedKv.call, hfired, hwatches]
      exact ⟨hw, h.del hw hmap⟩
    | none hkv hfired =>
      rw [WatchedKv.call, hfired, hkv, append_nil]
      exact ⟨hw, h⟩

section
variable {cap : ℕ} (run : Run (calls cap))

theorem ok_state {k : ℕ} (hk : k ≤ run.len) : NornKv.Ok cap (run.state k).kv := by
  refine run.invariant (I := fun s => NornKv.Ok cap s.kv) ?_ ?_ k hk
  · rintro s ⟨hs, -⟩
    exact (NornKv.ok_new hs).1
  · intro k hk hok
    rw [run.steps k hk]
    cases run.event k with
    | watch pat => exact ok_watch hok pat
    | apply cmd => exact (hok.apply cmd).1

theorem empty_state {j : ℕ} (hj : j ≤ run.len) (hbefore : ∀ i < j, ∃ pat, run.event i = .watch pat) :
    (run.state j).kv.toMap = ∅ ∧ (run.state j).fired = [] := by
  induction j with
  | zero => exact ⟨(NornKv.ok_new run.start.1).2, run.start.2⟩
  | succ j ih =>
    obtain ⟨hmap, hfired⟩ := ih (Nat.le_of_succ_le hj) fun i hi => hbefore i (Nat.lt_succ_of_lt hi)
    obtain ⟨pat, hevent⟩ := hbefore j (Nat.lt_succ_self j)
    rw [run.steps j hj, hevent]
    exact ⟨(toMap_watch _ _).trans hmap, hfired⟩

/-- The calls of a watch spell its part of the store, and commands that change nothing make none. -/
theorem replay_eq_store {j k : ℕ} {w : ℕ} {pat : Bytes}
    (hbefore : ∀ i < j, ∃ pat, run.event i = .watch pat)
    (hw : (run.state j).kv.watches[w]? = some pat) (hjk : j ≤ k) (hk : k ≤ run.len) (key : Bytes) :
    (KvMap.replay w (run.state k).fired).lookup key =
        (if pat <+: key then (run.state k).kv.toMap.lookup key else none) ∧
      ∀ i < run.len, ∀ cmd, run.event i = .apply cmd →
        (run.state i).kv.toMap.Refuses cap cmd → run.state (i + 1) = run.state i := by
  constructor
  · have hheard : (run.state k).kv.watches[w]? = some pat ∧ Hears w pat (run.state k) := by
      induction k, hjk using Nat.le_induction with
      | base =>
        obtain ⟨hmap, hfired⟩ := empty_state run hk hbefore
        refine ⟨hw, fun key => ?_⟩
        rw [hfired, hmap, Finmap.lookup_empty, ite_self]
        exact Finmap.lookup_empty key
      | succ k hjk ih =>
        obtain ⟨hw, hhears⟩ := ih (Nat.le_of_succ_le hk)
        rw [run.steps k hk]
        exact hhears.call hw (ok_state run (Nat.le_of_succ_le hk)) _
    exact hheard.2 key
  · intro i hi cmd hevent hrefuses
    have hout := (ok_state run hi.le).refused hrefuses
    rw [run.steps i hi, hevent, call, hout, append_nil]

end

def letterRun : Run (calls 2) :=
  Run.ofTotal call (fun _ _ => rfl) ⟨⟨[⟨[], [], false⟩, ⟨[], [], false⟩], 0, []⟩, []⟩ ⟨rfl, rfl⟩
    [.watch [97], .apply [1, 0, 1, 97, 0, 1, 98], .apply [1, 0, 1, 98, 0, 1, 99]]

theorem letterRun_replay :
    (KvMap.replay 0 (letterRun.state 3).fired).lookup [97] =
        (if [97] <+: [97] then (letterRun.state 3).kv.toMap.lookup [97] else none) ∧
      ∀ i < letterRun.len, ∀ cmd, letterRun.event i = .apply cmd →
        (letterRun.state i).kv.toMap.Refuses 2 cmd →
          letterRun.state (i + 1) = letterRun.state i := by
  refine @replay_eq_store 2 letterRun 1 3 0 [97] ?_ rfl (by decide) (by decide) [97]
  intro i hi
  obtain rfl : i = 0 := Nat.lt_one_iff.mp hi
  exact ⟨[97], rfl⟩

end WatchedKv
end Norn
