import Norn.Nornd.PersistFile

/-!
# What a restart keeps

The loader puts every saved record into the store again, with address zero, and logs every entry.
-/

namespace Norn
open List
namespace DhtStore
variable {s : DhtStore} {now : ℤ} {p : Entry}

theorem mem_storeItem {e : DhtItem} (he : e ∈ (s.storeItem now p).2.items) :
    e = p.item now ∨ ∃ x ∈ s.items, e = x ∨ e = { x with stored := now } := by
  have hold : ∀ {x}, x ∈ (s.expire now).items → e = x → e = p.item now ∨
      ∃ x ∈ s.items, e = x ∨ e = { x with stored := now } :=
    fun hx h => .inr ⟨_, (mem_expire.mp hx).1, .inl h⟩
  unfold storeItem at he
  dsimp only at he
  cases hfind : (s.expire now).items.findIdx? fun e => e.target = p.target with
  | none =>
    rw [hfind] at he
    obtain ⟨⟨gone, hperm⟩, -⟩ := exists_perm_makeRoom p.v.length (s.expire now).items.length
      (s.expire now)
    have hroom : ∀ {x}, x ∈ (makeRoom p.v.length (s.expire now).items.length (s.expire now)).items →
        x ∈ (s.expire now).items := fun hx => hperm.mem_iff.mpr (mem_append_right gone hx)
    unfold storeNew at he
    dsimp only at he
    split_ifs at he
    · exact hold he rfl
    · exact hold (hroom he) rfl
    · rcases mem_append.mp he with he | he
      · exact hold (hroom he) rfl
      · exact .inl (mem_singleton.mp he)
  | some i =>
    rw [hfind] at he
    dsimp only at he
    cases hget : (s.expire now).items[i]? with
    | none =>
      rw [hget] at he
      exact hold he rfl
    | some x =>
      rw [hget] at he
      have hx := (mem_expire.mp (mem_of_getElem? hget)).1
      have htarget : x.target = p.target := by
        obtain ⟨hlt, hi, -⟩ := findIdx?_eq_some_iff_getElem.mp hfind
        obtain ⟨_, rfl⟩ := List.getElem?_eq_some_iff.mp hget
        exact of_decide_eq_true hi
      unfold storeHeld at he
      dsimp only at he
      split_ifs at he
      · rcases mem_or_eq_of_mem_set he with he | rfl
        · exact hold he rfl
        · exact .inr ⟨x, hx, .inr rfl⟩
      · exact hold he rfl
      · rcases mem_or_eq_of_mem_set he with he | rfl
        · exact hold he rfl
        · left
          rw [htarget]
          rfl

theorem length_storeItem_le (hip : ∀ e ∈ s.items, e.srcIp = p.srcIp)
    (hlen : s.items.length ≤ dhtstorePerIp) :
    (s.storeItem now p).2.items.length ≤ dhtstorePerIp := by
  have hexpire : (s.expire now).items.length ≤ dhtstorePerIp := by
    rw [(expire_perm now s).length_eq]
    exact (length_filter_le _ _).trans hlen
  unfold storeItem
  dsimp only
  split
  · unfold storeNew
    dsimp only
    have hcount : (s.expire now).perIpCount p.srcIp = (s.expire now).items.length := by
      apply countP_eq_length.mpr
      intro e he
      exact decide_eq_true (hip e (mem_expire.mp he).1)
    obtain ⟨⟨gone, hperm⟩, -⟩ := exists_perm_makeRoom p.v.length (s.expire now).items.length
      (s.expire now)
    have hroom := hperm.length_eq
    rw [length_append] at hroom
    split_ifs with hfull
    · exact hexpire
    · dsimp only
      omega
    · rw [length_append, length_singleton]
      omega
  · split
    · exact hexpire
    · unfold storeHeld
      split_ifs
      · rw [length_set]
        exact hexpire
      · exact hexpire
      · rw [length_set]
        exact hexpire

theorem storeItem_append (hfresh : ∀ e ∈ s.items, e.expired now = false)
    (hnew : ∀ e ∈ s.items, e.target ≠ p.target) (hip : s.items.length < dhtstorePerIp)
    (hbudget : s.bytes + p.v.length ≤ s.budget) :
    (s.storeItem now p).2 =
      { s with items := s.items ++ [p.item now], bytes := s.bytes + p.v.length } := by
  have hexpire : s.expire now = s := expireLoop_eq_self hfresh _ _
  have hfind : s.items.findIdx? (fun e => e.target = p.target) = none :=
    findIdx?_eq_none_iff.mpr fun e he => decide_eq_false (hnew e he)
  have hcount : s.perIpCount p.srcIp ≤ s.items.length := countP_le_length
  have hroom : makeRoom p.v.length s.items.length s = s := by
    cases s.items.length with
    | zero => rfl
    | succ n =>
      rw [makeRoom, if_neg]
      unfold dhtstorePerIp at hip
      unfold dhtstoreMax
      omega
  unfold storeItem storeNew
  dsimp only
  rw [hexpire, hfind]
  dsimp only
  rw [if_neg (by omega), hroom, if_neg (by omega)]

end DhtStore

structure DhtItem.Same (e e' : DhtItem) : Prop where
  target : e'.target = e.target
  k : e'.k = e.k
  seq : e'.seq = e.seq
  v : e'.v = e.v
  sig : e'.sig = e.sig
  immutable : e'.immutable = e.immutable

def DhtItem.Unsalted (C : DhtCrypto) (e : DhtItem) : Prop :=
  bep44Target C e.k = e.target ∧ C.verify e.sig (valueBytes e.seq e.v) e.k = true

def DhtItem.reloaded (now : ℤ) (e : DhtItem) : DhtItem := { e with srcIp := 0, stored := now }

section
variable {C : DhtCrypto} {now : ℤ}

/-- The store has saved records only, all from address zero. -/
structure Loaded (C : DhtCrypto) (now : ℤ) (records : List DhtItem) (s : DhtStore) : Prop where
  origin : ∀ e ∈ s.items, e.srcIp = 0 ∧
    ∃ r ∈ records, r.Same e ∧ (r.immutable = false → r.Unsalted C)
  length_le : s.items.length ≤ dhtstorePerIp

variable {records : List DhtItem} {s : DhtStore} {r : DhtItem}

theorem Loaded.storeItem (h : Loaded C now records s) (hr : r ∈ records)
    (hunsalted : r.immutable = false → r.Unsalted C) {p : DhtStore.Entry} (hip : p.srcIp = 0)
    (hp : r.Same (p.item now)) : Loaded C now records (s.storeItem now p).2 := by
  refine ⟨?_, ?_⟩
  · intro e he
    rcases DhtStore.mem_storeItem he with rfl | ⟨x, hx, rfl | rfl⟩
    · exact ⟨hip, r, hr, hp, hunsalted⟩
    · exact h.origin e hx
    · obtain ⟨hsrc, r', hr', hsame, hun⟩ := h.origin x hx
      exact ⟨hsrc, r', hr', ⟨hsame.target, hsame.k, hsame.seq, hsame.v, hsame.sig, hsame.immutable⟩,
        hun⟩
  · refine DhtStore.length_storeItem_le ?_ h.length_le
    intro e he
    rw [hip]
    exact (h.origin e he).1

theorem Loaded.restore (h : Loaded C now records s) (hr : r ∈ records) (hvalid : r.Valid C) :
    Loaded C now records (Norn.restore C now s r) := by
  unfold Norn.restore
  split_ifs with himm
  · unfold nornDhtRestoreImmutable
    rw [if_neg (by have hpos := hvalid.v_pos; omega)]
    rcases dhtstorePutImmutable_cases C now r.v 0 s with heq | ⟨-, -, heq⟩
    · rw [heq]
      exact h
    · rw [heq]
      obtain ⟨hk, hsig, hseq, htarget⟩ := hvalid.of_immutable himm
      refine h.storeItem hr (fun hfalse => ?_) rfl ⟨htarget.symm, hk.symm, hseq.symm, rfl, hsig.symm,
        himm.symm⟩
      rw [himm] at hfalse
      cases hfalse
  · unfold nornDhtRestoreMutable
    rcases dhtstorePut_cases C now r.target r.k r.seq r.v r.sig [] 0 s with
      heq | ⟨hverify, -, htarget, -, heq⟩
    · rw [heq]
      exact h
    · rw [heq]
      exact h.storeItem hr (fun _ => ⟨htarget, hverify⟩) rfl
        ⟨rfl, rfl, rfl, rfl, rfl, (Bool.eq_false_of_not_eq_true himm).symm⟩

theorem Loaded.foldl (hvalid : ∀ e ∈ records, e.Valid C) {rest : List DhtItem}
    (hsub : ∀ e ∈ rest, e ∈ records) (h : Loaded C now records s) :
    Loaded C now records (rest.foldl (Norn.restore C now) s) := by
  induction rest generalizing s with
  | nil => exact h
  | cons r rest ih =>
    obtain ⟨hr, hsub⟩ := forall_mem_cons.mp hsub
    exact ih hsub (h.restore hr (hvalid r hr))

theorem restore_append (hvalid : r.Valid C) (hunsalted : r.immutable = false → r.Unsalted C)
    (hfresh : ∀ e ∈ s.items, e.expired now = false) (hnew : ∀ e ∈ s.items, e.target ≠ r.target)
    (hip : s.items.length < dhtstorePerIp) (hbudget : s.bytes + r.v.length ≤ s.budget) :
    Norn.restore C now s r =
      { s with items := s.items ++ [r.reloaded now], bytes := s.bytes + r.v.length } := by
  have hpos := hvalid.v_pos
  have hle := hvalid.v_le
  have hserving : s.budget ≠ 0 := by omega
  unfold Norn.restore
  split_ifs with himm
  · obtain ⟨hk, hsig, hseq, htarget⟩ := hvalid.of_immutable himm
    unfold nornDhtRestoreImmutable dhtstorePutImmutable bep44ImmutableTarget
    unfold dhtstoreVmax at hle ⊢
    rw [if_neg (by omega), if_neg hserving, if_neg (by omega), if_neg (by omega)]
    dsimp only
    rw [DhtStore.storeItem_append hfresh (by rw [← htarget]; exact hnew) hip hbudget]
    unfold DhtStore.Entry.item DhtItem.reloaded
    rw [hk, hsig, hseq, htarget, himm]
  · obtain ⟨htarget, hverify⟩ := hunsalted (Bool.eq_false_of_not_eq_true himm)
    have hbuf : bep44SignbufSalted [] r.seq r.v (64 + dhtstoreVmax) = some (valueBytes r.seq r.v) :=
      bep44Signbuf_eq_some hvalid.seq_lt hle (by decide)
    unfold nornDhtRestoreMutable dhtstorePut
    rw [if_neg hserving, if_neg (by omega), hbuf]
    dsimp only
    rw [if_neg (by rw [hverify]; exact Bool.noConfusion),
      if_pos (show ([] : Bytes).length = 0 from rfl), if_neg (not_not_intro htarget),
      DhtStore.storeItem_append hfresh hnew hip hbudget]
    unfold DhtStore.Entry.item DhtItem.reloaded
    rw [Bool.eq_false_of_not_eq_true himm]

theorem foldl_restore {budget : ℕ} (hbudget : 2 ^ 20 ≤ budget) (hvalid : ∀ e ∈ records, e.Valid C)
    (hunsalted : ∀ e ∈ records, e.immutable = false → e.Unsalted C)
    (hnodup : (records.map DhtItem.target).Nodup) (hlen : records.length ≤ dhtstorePerIp) :
    (records.foldl (Norn.restore C now) (dhtstoreInit budget)).items =
      records.map (DhtItem.reloaded now) := by
  -- the records before the current one are in the store, and take at most 1000 bytes each
  have hgen : ∀ rest done : List DhtItem, done ++ rest = records → ∀ s : DhtStore,
      s.items = done.map (DhtItem.reloaded now) → s.budget = budget →
      s.bytes ≤ 1000 * done.length →
      (rest.foldl (Norn.restore C now) s).items = records.map (DhtItem.reloaded now) := by
    intro rest
    induction rest with
    | nil =>
      intro done hsplit s hitems _ _
      rw [append_nil] at hsplit
      rw [← hsplit]
      exact hitems
    | cons r rest ih =>
      intro done hsplit s hitems hb hbytes
      have hr : r ∈ records := by
        rw [← hsplit]
        exact mem_append_right done mem_cons_self
      have hle := (hvalid r hr).v_le
      unfold dhtstoreVmax at hle
      have hlt : done.length < dhtstorePerIp := by
        rw [← hsplit, length_append, length_cons] at hlen
        omega
      have hstep : Norn.restore C now s r =
          { s with items := s.items ++ [r.reloaded now], bytes := s.bytes + r.v.length } := by
        apply restore_append (hvalid r hr) (hunsalted r hr)
        · intro e he
          rw [hitems] at he
          obtain ⟨x, -, rfl⟩ := mem_map.mp he
          unfold DhtItem.expired DhtItem.reloaded dhtstoreTtl
          simp
        · intro e he
          rw [hitems] at he
          obtain ⟨x, hx, rfl⟩ := mem_map.mp he
          rw [← hsplit, map_append, nodup_append] at hnodup
          exact hnodup.2.2 x.target (mem_map_of_mem hx) r.target
            (mem_map_of_mem mem_cons_self)
        · rw [hitems, length_map]
          exact hlt
        · unfold dhtstorePerIp at hlt
          omega
      rw [foldl_cons, hstep]
      apply ih (done ++ [r])
      · rw [append_assoc]
        exact hsplit
      · rw [map_append, ← hitems]
        rfl
      · exact hb
      · rw [length_append, length_singleton]
        dsimp only
        omega
  exact hgen records [] rfl _ rfl rfl (Nat.zero_le _)

end

structure PublogEntry.Same (e e' : PublogEntry) : Prop where
  target : e'.target = e.target
  immutable : e'.immutable = e.immutable
  name : e'.name = e.name
  vlen : e'.vlen = e.vlen
  value : e'.value = e.value
  seq : e'.seq = e.seq
  published : e'.published = e.published

def PublogEntry.reloaded (now : ℤ) (e : PublogEntry) : PublogEntry :=
  { e with
    buf := fillBuf (if e.vlen = 0 then none else some e.value) e.vlen (.replicate publogMaxVal 0)
    published := now }

theorem PublogEntry.value_reloaded {e : PublogEntry} (he : e.Valid) (hlen : e.vlen ≤ publogMaxVal)
    (now : ℤ) : (e.reloaded now).value = e.value := by
  have hvalue := PublogEntry.length_value he hlen
  unfold reloaded
  rw [value]
  dsimp only
  by_cases hzero : e.vlen = 0
  · rw [value, hzero, take_zero, take_zero]
  · rw [if_neg hzero, fillBuf, if_pos hlen, take_of_length_le hvalue.le, take_left' hvalue]

theorem loadedLog_eq (now : ℤ) {p : List PublogEntry} (hp : PublogSound p) :
    loadedLog now [] p = p.map (PublogEntry.reloaded now) := by
  have hgen : ∀ rest done : List PublogEntry, done ++ rest = p →
      loadedLog now (done.map (PublogEntry.reloaded now)) rest =
        p.map (PublogEntry.reloaded now) := by
    intro rest
    induction rest with
    | nil =>
      intro done hsplit
      rw [append_nil] at hsplit
      rw [← hsplit]
      rfl
    | cons e rest ih =>
      intro done hsplit
      have he : e.Valid := by
        apply hp.valid
        rw [← hsplit]
        exact mem_append_right done mem_cons_self
      have hlen := hp.length_le
      have hnodup := hp.nodup
      rw [← hsplit, length_append, length_cons] at hlen
      rw [← hsplit, map_append, nodup_append] at hnodup
      have hfind : (done.map (PublogEntry.reloaded now)).findIdx? (fun x => x.target = e.target) =
          none := by
        apply findIdx?_eq_none_iff.mpr
        intro x hx
        obtain ⟨y, hy, rfl⟩ := mem_map.mp hx
        apply decide_eq_false
        exact hnodup.2.2 y.target (mem_map_of_mem hy) e.target
          (mem_map_of_mem mem_cons_self)
      have hname : (cString e.name).take 127 = e.name := by
        rw [cString_eq_self he.nulFree, take_of_length_le he.name_le]
      have hadd : (publogAdd now e.target e.immutable e.name
          (if e.vlen = 0 then none else some e.value) e.vlen e.seq
          (done.map (PublogEntry.reloaded now))).2 =
          (done ++ [e]).map (PublogEntry.reloaded now) := by
        unfold publogAdd
        dsimp only
        rw [hfind]
        dsimp only
        rw [if_pos (by rw [length_map]; omega), hname, map_append]
        rfl
      rw [← ih (done ++ [e]) (by rw [append_assoc]; exact hsplit), ← hadd]
      rfl
  exact hgen p [] rfl

namespace DhtStore
variable {C : DhtCrypto} {s : DhtStore} {now : ℤ} {e : DhtItem}

theorem mem_fresh {items : List DhtItem} :
    e ∈ fresh now items ↔ e ∈ items ∧ e.expired now = false := by
  rw [fresh, mem_filter, Bool.not_eq_true']

theorem mem_heldRecords_iff (h : Sound C s) :
    e ∈ (heldRecords now s).1 ↔ e ∈ fresh now s.items ∧ (e ∈ nornDhtList false 128 s ∨
      e ∈ nornDhtList true 128 (if nornDhtList false 128 s = [] then s else s.expire now)) := by
  rw [heldRecords_eq h, mem_append, mem_fresh, mem_fresh, mem_fresh]
  constructor
  · rintro (⟨hlist, hfresh⟩ | ⟨hlist, hfresh⟩)
    · exact ⟨⟨(mem_nornDhtList hlist).1, hfresh⟩, .inl hlist⟩
    · refine ⟨⟨?_, hfresh⟩, .inr hlist⟩
      have hmem := (mem_nornDhtList hlist).1
      split_ifs at hmem
      · exact hmem
      · exact (mem_expire.mp hmem).1
  · rintro ⟨⟨-, hfresh⟩, hlist | hlist⟩
    · exact .inl ⟨hlist, hfresh⟩
    · exact .inr ⟨hlist, hfresh⟩

theorem nodup_heldRecords (h : Sound C s) : ((heldRecords now s).1.map DhtItem.target).Nodup := by
  have hlist : ∀ {t : DhtStore}, Sound C t → ∀ want,
      ((fresh now (nornDhtList want 128 t)).map DhtItem.target).Nodup := by
    intro t ht want
    refine Nodup.sublist (Sublist.map _ ?_) ht.nodup
    exact filter_sublist.trans ((take_sublist _ _).trans filter_sublist)
  rw [heldRecords_eq h, map_append]
  refine nodup_append.mpr ⟨hlist h false, ?_, ?_⟩
  · split_ifs
    · exact hlist h true
    · exact hlist (h.expire now) true
  · intro t ht t' ht' heq
    obtain ⟨x, hx, rfl⟩ := mem_map.mp ht
    obtain ⟨y, hy, rfl⟩ := mem_map.mp ht'
    obtain ⟨hx, hxkind⟩ := mem_nornDhtList (mem_fresh.mp hx).1
    obtain ⟨hy, hykind⟩ := mem_nornDhtList (mem_fresh.mp hy).1
    have hy : y ∈ s.items := by
      split_ifs at hy
      · exact hy
      · exact (mem_expire.mp hy).1
    have hsame := inj_on_of_nodup_map h.nodup hx hy heq
    rw [hsame, hykind] at hxkind
    cases hxkind

/-- The items were listed, put without a salt, and are not too many for one address. If there are
mutable ones, the store is swept before the immutable ones are listed. -/
structure Restorable (C : DhtCrypto) (now : ℤ) (s : DhtStore) : Prop where
  few : (fresh now s.items).length ≤ dhtstorePerIp
  listed : ∀ e ∈ fresh now s.items, e ∈ nornDhtList e.immutable 128 s ∨
    e.immutable = true ∧ nornDhtList false 128 s ≠ []
  unsalted : ∀ e ∈ fresh now s.items, e.immutable = false → e.Unsalted C

theorem Restorable.mem_heldRecords (h : Restorable C now s) (hs : Sound C s)
    (he : e ∈ fresh now s.items) : e ∈ (heldRecords now s).1 := by
  rw [mem_heldRecords_iff hs]
  refine ⟨he, ?_⟩
  cases himm : e.immutable with
  | false =>
    rcases h.listed e he with hlist | ⟨himm', -⟩
    · rw [himm] at hlist
      exact .inl hlist
    · rw [himm] at himm'
      cases himm'
  | true =>
    right
    by_cases hnil : nornDhtList false 128 s = []
    · rw [if_pos hnil]
      rcases h.listed e he with hlist | ⟨-, hne⟩
      · rw [himm] at hlist
        exact hlist
      · exact absurd hnil hne
    · rw [if_neg hnil]
      have hlen := length_filter_le (fun e => decide (e.immutable = true)) (s.expire now).items
      rw [(expire_perm now s).length_eq] at hlen
      have hfew := h.few
      unfold fresh dhtstorePerIp at hfew
      change e ∈ ((s.expire now).items.filter fun e => e.immutable = true).take 128
      rw [take_of_length_le (by omega), mem_filter]
      exact ⟨mem_expire.mpr (mem_fresh.mp he), decide_eq_true himm⟩

theorem restorable_of_restored (hs : Sound C s)
    (h : ∀ e ∈ fresh now s.items, ∃ e' ∈ ((heldRecords now s).1.foldl (restore C now)
      (dhtstoreInit s.budget)).items, e.Same e') : Restorable C now s := by
  have hloaded : Loaded C now (heldRecords now s).1
      ((heldRecords now s).1.foldl (restore C now) (dhtstoreInit s.budget)) :=
    Loaded.foldl (valid_heldRecords hs) (fun _ he => he) ⟨forall_mem_nil _, Nat.zero_le _⟩
  generalize (heldRecords now s).1.foldl (restore C now) (dhtstoreInit s.budget) = t at h hloaded
  -- the record behind an item that came back is the item itself
  have hrecord : ∀ e ∈ fresh now s.items, e ∈ (heldRecords now s).1 ∧
      (e.immutable = false → e.Unsalted C) := by
    intro e he
    obtain ⟨e', he', hsame⟩ := h e he
    obtain ⟨-, r, hr, hrsame, hunsalted⟩ := hloaded.origin e' he'
    have hrmem := (mem_fresh.mp ((mem_heldRecords_iff hs).mp hr).1).1
    have hre : r = e := inj_on_of_nodup_map hs.nodup hrmem (mem_fresh.mp he).1
      (hrsame.target.symm.trans hsame.target)
    rw [← hre]
    exact ⟨hr, hunsalted⟩
  refine ⟨?_, ?_, fun e he => (hrecord e he).2⟩
  · have hnodup : ((fresh now s.items).map DhtItem.target).Nodup :=
      Nodup.sublist (Sublist.map _ filter_sublist) hs.nodup
    have hsub : (fresh now s.items).map DhtItem.target ⊆ t.items.map DhtItem.target := by
      intro target htarget
      obtain ⟨e, he, rfl⟩ := mem_map.mp htarget
      obtain ⟨e', he', hsame⟩ := h e he
      rw [← hsame.target]
      exact mem_map_of_mem he'
    have hlen := (subperm_of_subset hnodup hsub).length_le
    rw [length_map, length_map] at hlen
    exact hlen.trans hloaded.length_le
  · intro e he
    rcases ((mem_heldRecords_iff hs).mp (hrecord e he).1).2 with hlist | hlist
    · rw [(mem_nornDhtList hlist).2]
      exact .inl hlist
    · by_cases hnil : nornDhtList false 128 s = []
      · rw [if_pos hnil] at hlist
        rw [(mem_nornDhtList hlist).2]
        exact .inl hlist
      · exact .inr ⟨(mem_nornDhtList hlist).2, hnil⟩

theorem Restorable.restored (h : Restorable C now s) (hs : Sound C s) :
    ∀ e ∈ fresh now s.items, ∃ e' ∈ ((heldRecords now s).1.foldl (restore C now)
      (dhtstoreInit s.budget)).items, e.Same e' := by
  intro e he
  have hbudget : 2 ^ 20 ≤ s.budget := by
    rcases hs.budget with ⟨-, hnil⟩ | hle
    · rw [hnil] at he
      cases he
    · exact hle
  have hfresh : ∀ r ∈ (heldRecords now s).1, r ∈ fresh now s.items :=
    fun r hr => ((mem_heldRecords_iff hs).mp hr).1
  have hlen : (heldRecords now s).1.length ≤ dhtstorePerIp := by
    refine le_trans ?_ h.few
    exact (subperm_of_subset (Nodup.of_map _ (nodup_heldRecords hs)) hfresh).length_le
  rw [foldl_restore hbudget (valid_heldRecords hs) (fun r hr => h.unsalted r (hfresh r hr))
    (nodup_heldRecords hs) hlen]
  exact ⟨e.reloaded now, mem_map_of_mem (h.mem_heldRecords hs he), rfl, rfl, rfl, rfl, rfl, rfl⟩

end DhtStore

/-- Items and log are kept exactly if no logged value is too long, everything was logged at this
very time, and the items can be restored. -/
theorem restart_keeps_iff {C : DhtCrypto} {p : List PublogEntry} {s : DhtStore}
    (hp : PublogReachable p) (hs : DhtStore.Reachable C s) (now : ℤ) :
    (∃ file, (dhtPersistSave now p s).1 = some file ∧
      (∀ e ∈ s.items, e.expired now = false →
        ∃ e' ∈ (dhtPersistLoad C now file [] (dhtstoreInit s.budget)).2.2.items, e.Same e') ∧
      ∀ e ∈ p, ∃ e' ∈ (dhtPersistLoad C now file [] (dhtstoreInit s.budget)).2.1, e.Same e') ↔
    (∀ e ∈ p, e.vlen ≤ publogMaxVal ∧ e.published = now) ∧ s.Restorable C now := by
  have hsound := hs.sound
  have hle := (DhtStore.heldTotal_eq_iff now hsound).1
  constructor
  · rintro ⟨file, hfile, hitems, hlog⟩
    have hlen := vlen_le_of_saved hfile
    obtain ⟨file', hfile', hload⟩ :=
      dhtPersistLoad_save now hp.sound hlen (DhtStore.valid_heldRecords hsound) hle
    cases hfile.symm.trans hfile'
    rw [hload now [] (dhtstoreInit s.budget)] at hitems hlog
    refine ⟨fun e he => ⟨hlen e he, ?_⟩, DhtStore.restorable_of_restored hsound ?_⟩
    · obtain ⟨e', he', hsame⟩ := hlog e he
      rw [loadedLog_eq now hp.sound] at he'
      obtain ⟨x, -, rfl⟩ := mem_map.mp he'
      exact hsame.published.symm
    · intro e he
      obtain ⟨hmem, hfresh⟩ := DhtStore.mem_fresh.mp he
      exact hitems e hmem hfresh
  · rintro ⟨hentries, hrestorable⟩
    have hlen : ∀ e ∈ p, e.vlen ≤ publogMaxVal := fun e he => (hentries e he).1
    obtain ⟨file, hfile, hload⟩ :=
      dhtPersistLoad_save now hp.sound hlen (DhtStore.valid_heldRecords hsound) hle
    refine ⟨file, hfile, ?_, ?_⟩
    · intro e he hfresh
      rw [hload]
      exact hrestorable.restored hsound e (DhtStore.mem_fresh.mpr ⟨he, hfresh⟩)
    · intro e he
      rw [hload, loadedLog_eq now hp.sound]
      refine ⟨e.reloaded now, mem_map_of_mem he, rfl, rfl, rfl, rfl, ?_, rfl,
        (hentries e he).2.symm⟩
      exact PublogEntry.value_reloaded (hp.sound.valid e he) (hlen e he) now

theorem oneItem_kept :
    ∃ file, (dhtPersistSave 0 [] oneItem).1 = some file ∧
      (∀ e ∈ oneItem.items, e.expired 0 = false → ∃ e' ∈ (dhtPersistLoad toyCrypto 0 file []
        (dhtstoreInit oneItem.budget)).2.2.items, e.Same e') ∧
      ∀ e ∈ ([] : List PublogEntry), ∃ e' ∈ (dhtPersistLoad toyCrypto 0 file []
        (dhtstoreInit oneItem.budget)).2.1, e.Same e' := by
  refine (restart_keeps_iff .init oneItem_reachable 0).mpr ⟨forall_mem_nil _, ?_, ?_, ?_⟩
  · decide +kernel
  · decide +kernel
  · have himm : ∀ e ∈ DhtStore.fresh 0 oneItem.items, e.immutable = true := by decide +kernel
    intro e he hfalse
    rw [himm e he] at hfalse
    cases hfalse

def saltedItem : DhtStore :=
  (dhtstorePut toyCrypto 0 (.replicate 20 3) (.replicate 32 3) 1 [7]
    (toyCrypto.sign [] (saltBytes [5] ++ valueBytes 1 [7])) [5] 1
    (dhtstoreInit (dhtstoreBudget 2 false 0))).2

def earlierEntry : List PublogEntry :=
  (publogAdd 0 (.replicate 20 7) false [] (some [7]) 1 1 []).2

theorem earlierEntry_reachable : PublogReachable earlierEntry :=
  .add .init 0 false [] length_replicate (by rintro v ⟨⟩ -; exact le_rfl) (by decide)

/-- The salted item is lost. With the empty store of `nornd`, an earlier entry gets another time,
and one with a long value cannot be saved. -/
theorem saltedItem_lost :
    (saltedItem.items.map (fun e => (e.v, e.expired 0)) = [([7], false)] ∧
      ∃ file, (dhtPersistSave 0 [] saltedItem).1 = some file ∧
        (dhtPersistLoad toyCrypto 0 file [] (dhtstoreInit saltedItem.budget)).2.2.items = []) ∧
    (PublogReachable earlierEntry ∧ earlierEntry.map PublogEntry.published = [0] ∧
      ∃ file, (dhtPersistSave 5 earlierEntry (dhtstoreInit 0)).1 = some file ∧
        (dhtPersistLoad toyCrypto 5 file [] (dhtstoreInit 0)).2.1.map PublogEntry.published = [5]) ∧
    PublogReachable longEntry ∧ (dhtPersistSave 0 longEntry (dhtstoreInit 0)).1 = none :=
  ⟨⟨by decide +kernel, _, rfl, by decide +kernel⟩,
    ⟨earlierEntry_reachable, rfl, _, rfl, by decide +kernel⟩, longEntry_reachable, by decide +kernel⟩

end Norn
