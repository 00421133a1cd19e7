import Norn.Dht.RecstoreFile

/-!
# The records and their file

A write replaces the file as a whole or leaves it; texts cut short by a full disk are left out.
-/

namespace Norn
open List Option

def RecCall.Typed : RecCall → Prop
  | .accept now k seq _ sig =>
    (k.length = 32 ∧ seq < 2 ^ 32 ∧ sig.length = 64) ∧ -2 ^ 63 ≤ now ∧ now < 2 ^ 63
  | .setPrivate k _ => k.length = 32
  | .setVia now k => k.length = 32 ∧ -2 ^ 63 ≤ now ∧ now < 2 ^ 63

def RecCall.saves (C : DhtCrypto) (recs : List RecItem) : RecCall → Bool
  | .accept now k seq v sig => (recstoreAccept C now k seq v sig recs).1
  | .setPrivate k val =>
    match recs.findIdx? fun e => e.target = bep44Target C k with
    | none => false
    | some i => (recs[i]?).any fun e => e.priv != val
  | .setVia _ _ => false

inductive RecEvent
  | init (path reads : Bool)
  | call (c : RecCall) (typed : c.Typed) (writes : Bool)
  deriving Inhabited

structure RecDisk where
  recs : List RecItem
  file : Option Bytes
  path : Bool

namespace Recstore
variable {C : DhtCrypto} {recs : List RecItem}

/-- Where a record comes from that is there after a call. -/
inductive Origin (C : DhtCrypto) (recs : List RecItem) : RecCall → RecItem → Prop
  | kept {c : RecCall} {r : RecItem} (mem : r ∈ recs) : Origin C recs c r
  | accepted {now : ℤ} {k : Bytes} {seq : ℕ} {v sig : Bytes} (valid : Valid C k seq v sig)
      (newer : ∀ i r, Finds C recs k i r → r.seq < seq) :
      Origin C recs (.accept now k seq v sig) ⟨bep44Target C k, k, seq, v, sig, now, false⟩
  | marked {k : Bytes} {val : Bool} {r : RecItem} (mem : r ∈ recs)
      (target : r.target = bep44Target C k) :
      Origin C recs (.setPrivate k val) { r with priv := val }
  | seen {now : ℤ} {k : Bytes} {r : RecItem} (mem : r ∈ recs) :
      Origin C recs (.setVia now k) { r with lastSeen := now }

variable {k : Bytes} {r : RecItem} {c : RecCall}

theorem Finds.unique {i j : ℕ} {x : RecItem} (h : Finds C recs k i r) (h' : Finds C recs k j x) :
    i = j ∧ r = x := by
  obtain rfl : i = j := some.inj (h.find.symm.trans h'.find)
  exact ⟨rfl, some.inj (h.get.symm.trans h'.get)⟩

theorem Finds.target_eq {i : ℕ} (h : Finds C recs k i r) : r.target = bep44Target C k := by
  obtain ⟨x, hx, htarget⟩ := exists_finds h.find
  rw [(h.unique hx).2, htarget]

theorem mem_recstoreMark {f : RecItem → RecItem} (h : r ∈ recstoreMark C k f recs) :
    r ∈ recs ∨ ∃ x ∈ recs, x.target = bep44Target C k ∧ r = f x := by
  unfold recstoreMark at h
  cases hfind : recs.findIdx? fun r => r.target = bep44Target C k with
  | none =>
    rw [hfind] at h
    exact .inl h
  | some i =>
    obtain ⟨x, hx, htarget⟩ := exists_finds hfind
    rw [hfind] at h
    dsimp only at h
    rw [Compact.modify_eq_set hx.get] at h
    rcases mem_or_eq_of_mem_set h with h | h
    · exact .inl h
    · exact .inr ⟨x, mem_of_getElem? hx.get, htarget, h⟩

theorem origin_of_mem_call (h : r ∈ call C recs c) : Origin C recs c r := by
  cases c with
  | accept now k seq v sig =>
    revert h
    refine recstoreAccept_cases (P := fun out => r ∈ out.2 → Origin C recs _ r) .kept ?_ ?_
    · intro hvalid i x hx _ hnewer h
      rcases mem_or_eq_of_mem_set h with h | rfl
      · exact .kept h
      · refine .accepted hvalid ?_
        intro j y hy
        rw [(hy.unique hx).2]
        exact hnewer
    · intro hvalid _ hnew h
      rcases mem_append.mp h with h | h
      · exact .kept h
      · rw [mem_singleton.mp h]
        refine .accepted hvalid ?_
        intro j y hy
        exact absurd hy.target_eq (hnew y (mem_of_getElem? hy.get))
  | setPrivate k val =>
    rcases mem_recstoreMark h with h | ⟨x, hx, htarget, rfl⟩
    · exact .kept h
    · exact .marked hx htarget
  | setVia now k =>
    rcases mem_recstoreMark h with h | ⟨x, hx, -, rfl⟩
    · exact .kept h
    · exact .seen hx

theorem length_call_le (h : recs.length ≤ recstoreMax) : (call C recs c).length ≤ recstoreMax := by
  have hmark (k : Bytes) (f : RecItem → RecItem) :
      (recstoreMark C k f recs).length ≤ recstoreMax := by
    unfold recstoreMark
    split
    · exact h
    · rw [length_modify]
      exact h
  cases c with
  | accept now k seq v sig =>
    refine recstoreAccept_cases (P := fun out => out.2.length ≤ recstoreMax) h ?_ ?_
    · intro _ i r _ _ _
      rw [length_set]
      exact h
    · intro _ hroom _
      rw [length_append, length_singleton]
      exact hroom
  | setPrivate k val | setVia now k => exact hmark k _

theorem Origin.sized (h : Origin C recs c r) (typed : c.Typed) (hsized : ∀ r ∈ recs, r.Sized) :
    r.Sized := by
  cases h with
  | kept mem => exact hsized r mem
  | accepted valid _ =>
    obtain ⟨⟨hk, hseq, hsig⟩, hnow⟩ := typed
    exact ⟨C.length_sha1 _, hk, hseq, valid.length_le, hsig, hnow⟩
  | @marked k val r mem _ =>
    obtain ⟨htarget, hk, hseq, hv, hsig, hls⟩ := hsized r mem
    exact ⟨htarget, hk, hseq, hv, hsig, hls⟩
  | @seen now k r mem =>
    obtain ⟨htarget, hk, hseq, hv, hsig, -⟩ := hsized r mem
    exact ⟨htarget, hk, hseq, hv, hsig, typed.2⟩

theorem Origin.ne_nil (h : Origin C recs c r) (hv : ∀ r ∈ recs, r.v ≠ []) : r.v ≠ [] := by
  cases h with
  | kept mem | @marked k val r mem _ | @seen now k r mem => exact hv r mem
  | accepted valid _ => exact valid.ne_nil

end Recstore

namespace RecDisk
variable (C : DhtCrypto)

def step (s : RecDisk) : RecEvent → RecDisk
  | .init path reads =>
    { s with recs := (recstoreInit path (if reads then s.file else none)).2, path := path }
  | .call c _ writes =>
    let recs := Recstore.call C s.recs c
    { s with
      recs := recs
      file := if s.path && c.saves C s.recs && writes then some (recstoreSave recs) else s.file }

def system : System RecDisk RecEvent where
  init s := s.recs = [] ∧ s.path = false
  next s e s' := s' = step C s e

def Saves (s : RecDisk) : RecEvent → Prop
  | .init _ _ => False
  | .call c _ writes => s.path = true ∧ c.saves C s.recs = true ∧ writes = true

variable {C : DhtCrypto} {s : RecDisk} {e : RecEvent}

theorem file_of_saves (h : s.Saves C e) :
    (s.step C e).file = some (recstoreSave (s.step C e).recs) := by
  cases e with
  | init path reads => cases h
  | call c typed writes =>
    obtain ⟨hpath, hsaves, hwrites⟩ := h
    exact if_pos (by rw [hpath, hsaves, hwrites]; rfl)

theorem file_of_not_saves (h : ¬ s.Saves C e) : (s.step C e).file = s.file := by
  cases e with
  | init path reads => rfl
  | call c typed writes =>
    refine if_neg ?_
    rw [Bool.and_eq_true, Bool.and_eq_true, and_assoc]
    exact h

theorem mem_init {path : Bool} {file : Option Bytes} {r : RecItem}
    (h : r ∈ (recstoreInit path file).2) :
    ∃ content, file = some content ∧ r ∈ spelled content := by
  cases path with
  | false => cases h
  | true =>
    cases file with
    | none => cases h
    | some content =>
      rw [recstoreInit_eq] at h
      exact ⟨content, rfl, mem_of_mem_take h⟩

structure Bounded (s : RecDisk) : Prop where
  sized : ∀ r ∈ s.recs, r.Sized
  length_le : s.recs.length ≤ recstoreMax

theorem length_init_le (path : Bool) (file : Option Bytes) :
    (recstoreInit path file).2.length ≤ recstoreMax := by
  cases path with
  | false => exact Nat.zero_le _
  | true =>
    cases file with
    | none => exact Nat.zero_le _
    | some content =>
      rw [recstoreInit_eq]
      exact length_take_le _ _

theorem Bounded.step (h : s.Bounded) (e : RecEvent) : (s.step C e).Bounded := by
  cases e with
  | init path reads =>
    refine ⟨?_, length_init_le _ _⟩
    intro r hr
    obtain ⟨content, -, hr⟩ := mem_init hr
    obtain ⟨line, -, hline⟩ := mem_filterMap.mp hr
    exact sized_of_scanRecord hline
  | call c typed writes =>
    refine ⟨?_, Recstore.length_call_le h.length_le⟩
    intro r hr
    exact (Recstore.origin_of_mem_call hr).sized typed h.sized

theorem bounded_of_run (run : Run (system C)) : ∀ k ≤ run.len, (run.state k).Bounded := by
  refine run.invariant ?_ ?_
  · rintro s ⟨hrecs, -⟩
    refine ⟨?_, ?_⟩
    · rw [hrecs]
      exact forall_mem_nil _
    · rw [hrecs]
      exact Nat.zero_le _
  · intro k hk h
    rw [run.steps k hk]
    exact h.step _

/-- The file has a line with the key. -/
def Names (k : Bytes) (s : RecDisk) : Prop :=
  ∃ content, s.file = some content ∧ ∃ line ∈ fileLines content, lineKey line = some k

variable {k : Bytes}

theorem names_of_saves (hb : (s.step C e).Bounded) (h : s.Saves C e)
    (hnames : (s.step C e).Names k) : ∃ r ∈ (s.step C e).recs, r.k = k ∧ r.priv = false := by
  obtain ⟨content, hfile, line, hline, hkey⟩ := hnames
  rw [file_of_saves h, some_inj] at hfile
  rw [← hfile, fileLines_save hb.sized] at hline
  obtain ⟨r, hr, rfl⟩ := mem_map.mp hline
  obtain ⟨hr, hpublic⟩ := mem_filter.mp hr
  rw [(hb.sized r hr).lineKey_line, some_inj] at hkey
  exact ⟨r, hr, hkey, by simpa using hpublic⟩

/-- The record is found under its target only, and the mark rewrites a file that names it. -/
structure MarkWorks (C : DhtCrypto) (k : Bytes) (s : RecDisk) (writes : Bool) : Prop where
  own : ∀ i r, s.recs[i]? = some r → r.k = k → Recstore.Finds C s.recs k i r
  clean : (s.path = true ∧ writes = true ∧
    ∃ i r, Recstore.Finds C s.recs k i r ∧ r.priv = false) ∨ ¬ s.Names k

/-- No newer version of the record is accepted, and no other key has its target. -/
def LeavesHidden (C : DhtCrypto) (k : Bytes) (s : RecDisk) : RecEvent → Prop
  | .call (.accept _ k' seq v sig) _ _ =>
    k' = k → Recstore.Valid C k seq v sig → ∃ i r, Recstore.Finds C s.recs k i r ∧ seq ≤ r.seq
  | .call (.setPrivate k' false) _ _ => k' ≠ k → bep44Target C k' ≠ bep44Target C k
  | _ => True

/-- The record is private and not in the file. -/
structure Hidden (C : DhtCrypto) (k : Bytes) (s : RecDisk) : Prop where
  priv : ∀ r ∈ s.recs, r.k = k → r.priv = true ∧ r.target = bep44Target C k
  unnamed : ¬ s.Names k

theorem Hidden.of_priv (hb : (s.step C e).Bounded)
    (hpriv : ∀ r ∈ (s.step C e).recs, r.k = k → r.priv = true ∧ r.target = bep44Target C k)
    (hunnamed : ¬ s.Saves C e → ¬ s.Names k) : (s.step C e).Hidden C k := by
  refine ⟨hpriv, ?_⟩
  intro hnames
  by_cases hsaves : s.Saves C e
  · obtain ⟨r, hr, hk, hpublic⟩ := names_of_saves hb hsaves hnames
    rw [(hpriv r hr hk).1] at hpublic
    cases hpublic
  · unfold Names at hnames
    rw [file_of_not_saves hsaves] at hnames
    exact hunnamed hsaves hnames

theorem MarkWorks.hidden {writes : Bool} (h : MarkWorks C k s writes)
    (typed : (RecCall.setPrivate k true).Typed)
    (hb : (s.step C (.call (.setPrivate k true) typed writes)).Bounded) :
    (s.step C (.call (.setPrivate k true) typed writes)).Hidden C k := by
  refine .of_priv hb ?_ ?_
  · intro r hr hk
    change r ∈ recstoreMark C k _ s.recs at hr
    unfold recstoreMark at hr
    cases hfind : s.recs.findIdx? fun e => e.target = bep44Target C k with
    | none =>
      rw [hfind] at hr
      obtain ⟨i, hi⟩ := mem_iff_getElem?.mp hr
      exact absurd ((h.own i r hi hk).find.symm.trans hfind) (Option.some_ne_none i)
    | some i =>
      obtain ⟨x, hx, htarget⟩ := Recstore.exists_finds hfind
      rw [hfind] at hr
      dsimp only at hr
      rw [Compact.modify_eq_set hx.get] at hr
      obtain ⟨j, hj⟩ := mem_iff_getElem?.mp hr
      by_cases hij : i = j
      · rw [← hij, getElem?_set_self (List.getElem?_eq_some_iff.mp hx.get).1] at hj
        cases hj
        exact ⟨rfl, htarget⟩
      · rw [getElem?_set_ne hij] at hj
        exact absurd (hx.unique (h.own j r hj hk)).1 hij
  · intro hnot
    rcases h.clean with ⟨hpath, hwrites, i, r, hr, hpublic⟩ | hclean
    · refine absurd ⟨hpath, ?_, hwrites⟩ hnot
      unfold RecCall.saves
      dsimp only
      rw [hr.find]
      dsimp only
      rw [hr.get, Option.any_some, hpublic]
      rfl
    · exact hclean

theorem Hidden.step (h : s.Hidden C k) (hb : (s.step C e).Bounded) (hleaves : s.LeavesHidden C k e)
    (hmarked : ∀ typed writes, e ≠ .call (.setPrivate k false) typed writes) :
    (s.step C e).Hidden C k := by
  refine .of_priv hb ?_ fun _ => h.unnamed
  intro r hr hk
  cases e with
  | init path reads =>
    -- A record with the key would have come from the file.
    obtain ⟨content, hfile, hr⟩ := mem_init hr
    obtain ⟨line, hline, hscan⟩ := mem_filterMap.mp hr
    refine absurd ⟨content, ?_, line, hline, hk ▸ lineKey_of_scanRecord hscan⟩ h.unnamed
    cases reads with
    | false => cases hfile
    | true => exact hfile
  | call c typed writes =>
    cases Recstore.origin_of_mem_call hr with
    | kept mem => exact h.priv r mem hk
    | accepted valid newer =>
      subst hk
      obtain ⟨i, x, hx, hseq⟩ := hleaves rfl valid
      exact absurd hseq (not_le.mpr (newer i x hx))
    | @marked k' val x mem target =>
      obtain ⟨-, htarget⟩ := h.priv x mem hk
      cases val with
      | true => exact ⟨rfl, htarget⟩
      | false =>
        have hne : k' ≠ k := by
          rintro rfl
          exact hmarked typed writes rfl
        exact absurd (target.symm.trans htarget) (hleaves hne)
    | @seen now k' x mem => exact h.priv x mem hk

/-- From the mark on the file says nothing about the key, if no newer version is accepted. -/
theorem private_unnamed (run : Run (system C)) {k : Bytes} {i j : ℕ}
    {typed : (RecCall.setPrivate k true).Typed} {writes : Bool} (hij : i < j) (hj : j ≤ run.len)
    (hmark : run.event i = .call (.setPrivate k true) typed writes)
    (huntil : ∀ m, i < m → m < j → ∀ typed writes,
      run.event m ≠ .call (.setPrivate k false) typed writes)
    (hworks : MarkWorks C k (run.state i) writes)
    (hleaves : ∀ m, i < m → m < j → LeavesHidden C k (run.state m) (run.event m)) :
    ¬ (run.state j).Names k := by
  have hbounded {m : ℕ} (hm : m < run.len) :
      ((run.state m).step C (run.event m)).Bounded :=
    run.steps m hm ▸ bounded_of_run run (m + 1) hm
  have hhidden : (run.state j).Hidden C k := by
    induction j, hij using Nat.le_induction with
    | base =>
      have hb := hbounded hj
      rw [run.steps i hj]
      rw [hmark] at hb ⊢
      exact hworks.hidden typed hb
    | succ m him ih =>
      have hprev := ih (Nat.le_of_succ_le hj) (fun n h h' => huntil n h (Nat.lt_succ_of_lt h'))
        (fun n h h' => hleaves n h (Nat.lt_succ_of_lt h'))
      rw [run.steps m hj]
      exact hprev.step (hbounded hj) (hleaves m him (Nat.lt_succ_self m))
        (huntil m him (Nat.lt_succ_self m))
  exact hhidden.unnamed

section

def markedKey : Bytes := .replicate 32 3

def keyRecord (n : UInt8) : RecItem :=
  ⟨bep44Target toyCrypto markedKey, markedKey, n.toNat, [n],
    toyCrypto.sign [] (valueBytes n.toNat [n]), n.toNat, false⟩

theorem keyRecord_sized (n : UInt8) : (keyRecord n).Sized := by
  have hn := n.toNat_lt
  refine ⟨rfl, rfl, ?_, ?_, toyCrypto.length_sign [] _, ?_⟩
  · exact hn.trans (by decide)
  · exact (by decide : 1 ≤ recstoreVmax)
  · change -2 ^ 63 ≤ (n.toNat : ℤ) ∧ (n.toNat : ℤ) < 2 ^ 63
    omega

def keyAccept (n : UInt8) : RecCall :=
  .accept n.toNat markedKey n.toNat [n] (toyCrypto.sign [] (valueBytes n.toNat [n]))

theorem keyAccept_typed (n : UInt8) : (keyAccept n).Typed :=
  ⟨⟨rfl, (keyRecord_sized n).seq, (keyRecord_sized n).sig⟩, (keyRecord_sized n).lastSeen⟩

theorem setVia_typed (n : UInt8) : (RecCall.setVia n.toNat markedKey).Typed :=
  ⟨rfl, (keyRecord_sized n).lastSeen⟩

theorem setPrivate_typed : (RecCall.setPrivate markedKey true).Typed :=
  length_replicate

def markedRun : Run (system toyCrypto) :=
  .ofTotal (step toyCrypto) (fun _ _ => rfl) ⟨[], none, false⟩ ⟨rfl, rfl⟩
    [.init true true, .call (keyAccept 1) (keyAccept_typed 1) true,
      .call (.setPrivate markedKey true) setPrivate_typed true,
      .call (.setVia (2 : UInt8).toNat markedKey) (setVia_typed 2) true,
      .call (keyAccept 3) (keyAccept_typed 3) true]

theorem markedRun_recs : (markedRun.state 2).recs = [keyRecord 1] := by decide +kernel

theorem markedRun_unnamed : ¬ (markedRun.state 4).Names markedKey := by
  have hfinds : Recstore.Finds toyCrypto (markedRun.state 2).recs markedKey 0
      (keyRecord 1) := by
    rw [markedRun_recs]
    exact ⟨by decide +kernel, rfl⟩
  refine private_unnamed markedRun (i := 2) (by decide) (by decide) rfl ?_ ⟨?_, ?_⟩ ?_
  · intro m hm hm' typed writes hevent
    obtain rfl : m = 3 := by omega
    cases hevent
  · intro i r hr _
    rw [markedRun_recs] at hr
    cases i with
    | zero =>
      cases hr
      exact hfinds
    | succ i => cases hr
  · exact .inl ⟨rfl, rfl, 0, _, hfinds, rfl⟩
  · intro m hm hm'
    obtain rfl : m = 3 := by omega
    exact trivial

theorem markedRun_newer_named :
    markedRun.event 2 = .call (.setPrivate markedKey true) setPrivate_typed true ∧
      (markedRun.state 2).recs = [keyRecord 1] ∧
      (∀ m, 2 < m → m < 5 → ∀ typed writes,
        markedRun.event m ≠ .call (.setPrivate markedKey false) typed writes) ∧
      (markedRun.state 5).file = some (recstoreSave [keyRecord 3]) ∧
      (markedRun.state 5).Names markedKey := by
  have hfile : (markedRun.state 5).file = some (recstoreSave [keyRecord 3]) := by
    decide +kernel
  refine ⟨rfl, markedRun_recs, ?_, hfile, _, hfile, (keyRecord 3).line, ?_,
    (keyRecord_sized 3).lineKey_line⟩
  · intro m hm hm' typed writes hevent
    obtain rfl | rfl : m = 3 ∨ m = 4 := by omega
    · cases hevent
    · cases hevent
  · rw [fileLines_save (forall_mem_singleton.mpr (keyRecord_sized 3))]
    exact mem_cons_self

end

structure Valued (s : RecDisk) : Prop where
  recs : ∀ r ∈ s.recs, r.v ≠ []
  file : ∀ content, s.file = some content → ∀ r ∈ spelled content, r.v ≠ []

theorem Valued.step (h : s.Valued) (hb : (s.step C e).Bounded) : (s.step C e).Valued := by
  have hrecs : ∀ r ∈ (s.step C e).recs, r.v ≠ [] := by
    intro r hr
    cases e with
    | init path reads =>
      obtain ⟨content, hfile, hmem⟩ := mem_init hr
      cases reads with
      | false => cases hfile
      | true => exact h.file content hfile r hmem
    | call c typed writes => exact (Recstore.origin_of_mem_call hr).ne_nil h.recs
  refine ⟨hrecs, ?_⟩
  intro content hfile r hr
  by_cases hsaves : s.Saves C e
  · rw [file_of_saves hsaves, some_inj] at hfile
    rw [← hfile, spelled_save hb.sized] at hr
    exact hrecs r (mem_of_mem_filter (mem_of_mem_filter hr))
  · rw [file_of_not_saves hsaves] at hfile
    exact h.file content hfile r hr

theorem reload_save {recs : List RecItem} (hsized : ∀ r ∈ recs, r.Sized)
    (hlen : recs.length ≤ recstoreMax) (hv : ∀ r ∈ recs, r.v ≠ []) :
    recstoreInit true (some (recstoreSave recs)) = (↑(published recs).length, published recs) := by
  have hall : (published recs).filter (fun r => decide (r.v ≠ [])) = published recs := by
    refine filter_eq_self.mpr ?_
    intro r hr
    exact decide_eq_true (hv r (mem_of_mem_filter hr))
  have htake : (published recs).take recstoreMax = published recs :=
    take_of_length_le ((length_filter_le _ _).trans hlen)
  rw [recstoreInit_eq, spelled_save hsized, hall, htake]

/-- The file is that of the last write, and it is read back as it was written. -/
theorem reload_last_saved (run : Run (system C))
    (hstart : ∀ content, (run.state 0).file = some content → ∀ r ∈ spelled content, r.v ≠ [])
    {i j : ℕ} (hij : i < j) (hj : j ≤ run.len) (hsaves : (run.state i).Saves C (run.event i))
    (hlast : ∀ m, i < m → m < j → ¬ (run.state m).Saves C (run.event m)) :
    recstoreInit true (run.state j).file =
      (↑(published (run.state (i + 1)).recs).length, published (run.state (i + 1)).recs) := by
  have hvalued : ∀ k ≤ run.len, (run.state k).Valued := by
    refine run.position_induction ⟨?_, hstart⟩ ?_
    · rw [run.start.1]
      exact forall_mem_nil _
    · intro k hk h
      have hb := bounded_of_run run (k + 1) hk
      rw [run.steps k hk] at hb ⊢
      exact h.step hb
  have hfile : (run.state j).file = some (recstoreSave (run.state (i + 1)).recs) := by
    induction j, hij using Nat.le_induction with
    | base =>
      rw [run.steps i hj]
      exact file_of_saves hsaves
    | succ m him ih =>
      rw [run.steps m hj, file_of_not_saves (hlast m him (Nat.lt_succ_self m))]
      exact ih (Nat.le_of_succ_le hj) fun n h h' => hlast n h (Nat.lt_succ_of_lt h')
  have hle : i + 1 ≤ run.len := hij.trans_le hj
  have hb := bounded_of_run run (i + 1) hle
  rw [hfile, reload_save hb.sized hb.length_le (hvalued (i + 1) hle).recs]

theorem markedRun_reload :
    recstoreInit true (markedRun.state 5).file = (1, [keyRecord 3]) := by
  refine (reload_last_saved markedRun ?_ (i := 4) (by decide) (by decide) ?_ ?_).trans ?_
  · intro content hfile
    cases hfile
  · exact ⟨rfl, by decide +kernel, rfl⟩
  · intro m hm hm'
    omega
  · have hrecs : (markedRun.state 5).recs = [keyRecord 3] := by decide +kernel
    rw [hrecs]
    rfl

def valuelessRecord : RecItem :=
  ⟨.replicate 20 1, .replicate 32 2, 1, [], .replicate 64 0, 5, false⟩

theorem valuelessRecord_sized : valuelessRecord.Sized :=
  ⟨by decide, by decide, by decide, by decide, by decide, by decide⟩

def valuelessFields : RecFields := { valuelessRecord.fields with vv := [48] }

theorem valuelessFields_fit : valuelessFields.Fit :=
  have hsolid : Scan.Solid [48] := forall_mem_singleton.mpr (by decide)
  { valuelessRecord_sized.fit with vv := ⟨hsolid, show 1 ≤ 519 by omega⟩ }

theorem recstoreInit_valueless :
    recstoreInit true (some valuelessFields.print) = (1, [valuelessRecord]) := by
  have hline : Scan.IsLine 1023 valuelessFields.print :=
    ⟨by decide +kernel, valuelessFields_fit.row.ends⟩
  have hlines : fileLines valuelessFields.print = [valuelessFields.print] := by
    have hread := Scan.lines_flatten (forall_mem_singleton.mpr hline)
    rwa [flatten_singleton] at hread
  have hscan : scanRecord valuelessFields.print = some valuelessRecord := by
    rw [scanRecord, valuelessFields_fit.cString_print,
      valuelessFields_fit.scanFields_print (by decide)]
    decide +kernel
  rw [recstoreInit_eq, spelled, hlines, filterMap_cons_some hscan]
  rfl

def valuelessRun : Run (system toyCrypto) :=
  .ofTotal (step toyCrypto) (fun _ _ => rfl) ⟨[], some valuelessFields.print, false⟩ ⟨rfl, rfl⟩
    [.init true true, .call (keyAccept 1) (keyAccept_typed 1) true]

theorem valuelessRun_start :
    valuelessRun.state 1 = ⟨[valuelessRecord], some valuelessFields.print, true⟩ := by
  change RecDisk.mk (recstoreInit true (some valuelessFields.print)).2 _ _ = _
  rw [recstoreInit_valueless]

theorem valuelessRun_lost :
    (valuelessRun.state 1).Saves toyCrypto (valuelessRun.event 1) ∧
      published (valuelessRun.state 2).recs = [valuelessRecord, keyRecord 1] ∧
      recstoreInit true (valuelessRun.state 2).file = (1, [keyRecord 1]) := by
  have hsaves : (valuelessRun.state 1).Saves toyCrypto (valuelessRun.event 1) := by
    rw [valuelessRun_start]
    exact ⟨rfl, by decide +kernel, rfl⟩
  have hnext := valuelessRun.steps 1 (by decide)
  have hrecs : (valuelessRun.state 2).recs = [valuelessRecord, keyRecord 1] := by
    rw [hnext, valuelessRun_start]
    decide +kernel
  have hfile : (valuelessRun.state 2).file = some (recstoreSave (valuelessRun.state 2).recs) := by
    rw [hnext]
    exact file_of_saves hsaves
  refine ⟨hsaves, by rw [hrecs]; rfl, ?_⟩
  rw [hfile, recstoreInit_eq, spelled_save (bounded_of_run valuelessRun 2 le_rfl).sized, hrecs]
  rfl

end RecDisk
end Norn
