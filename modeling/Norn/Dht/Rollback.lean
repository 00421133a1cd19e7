import Norn.Dht.Recstore
import Norn.Dht.StoreCalls

/-!
# No version comes back

Both stores replace a version only by one with a greater sequence number.
-/

namespace Norn
open List Norn.Compact

def DhtItem.version (e : DhtItem) : Version := ⟨e.seq, e.v, e.sig⟩

def DhtItem.content (e : DhtItem) : DhtItem := { e with stored := 0 }

namespace DhtStore
variable {C : DhtCrypto} {s : DhtStore}

def Keeps (s : DhtStore) (t : Bytes) (c : ItemCall) : Prop :=
  ∃ e ∈ s.items, e.target = t ∧ ∀ now ∈ c.time, e.expired now = false

/-- The item is held from state `i` to state `j`. -/
structure HeldThrough (run : Run (system C)) (t : Bytes) (i j : ℕ) : Prop where
  kept : ∀ k, i ≤ k → k < j → (run.state k).Keeps t (run.event k)
  held : ∃ e ∈ (run.state j).items, e.target = t

/-- Numbers of what is held do not fall, and a replaced version is refused. -/
structure NoRollback (run : Run (system C)) : Prop where
  seq_le : ∀ i j t, i ≤ j → j ≤ run.len → HeldThrough run t i j →
    ∀ e ∈ (run.state i).items, ∀ e' ∈ (run.state j).items, e.target = t → e'.target = t →
      e.seq ≤ e'.seq ∧ (e.v ≠ e'.v ∨ e.sig ≠ e'.sig → e.seq < e'.seq)
  signed : ∀ k ≤ run.len, ∀ e ∈ (run.state k).items, e.Signed C
  replay : ∀ i j now p, i < j → j ≤ run.len → run.event i = .put now p →
    ((run.state i).put C now p).1 = true → HeldThrough run p.target (i + 1) j →
    ∀ now' srcIp, (∃ e ∈ (run.state j).unexpired now', e.target = p.target) →
      (run.state j).put C now' { p with srcIp := srcIp } = (false, (run.state j).expire now')
  replayImmutable : ∀ i j now v srcIp, i < j → j ≤ run.len →
    (dhtstorePutImmutable C now v srcIp (run.state i)).1 = true → ∀ now' srcIp',
      (∃ e ∈ (run.state j).unexpired now', e.target = C.sha1 (Bencode.encodeString v)) →
      (dhtstorePutImmutable C now' v srcIp' (run.state j)).2.items.map DhtItem.content =
        ((run.state j).expire now').items.map DhtItem.content

variable {c : ItemCall} {items : List DhtItem} {e : DhtItem} {now : ℤ} {p : SignedPut}

theorem Turnover.newer (h : Turnover C s c items) (hs : (s.items.map DhtItem.target).Nodup)
    {e' : DhtItem} (he : e ∈ s.items) (htime : ∀ now ∈ c.time, e.expired now = false)
    (he' : e' ∈ items) (htarget : e'.target = e.target) : e.version.Newer e'.version := by
  have hsame {x : DhtItem} (hx : x ∈ s.items) (hxt : x.target = e.target) : x = e :=
    inj_on_of_nodup_map hs hx he hxt
  have hkept {x : DhtItem} (hx : x ∈ s.items) (hxt : x.target = e.target) :
      e.version.Newer x.version := .inl (congrArg DhtItem.version (hsame hx hxt).symm)
  cases h with
  | lost perm =>
    exact hkept (perm.mem_iff.mpr (mem_append_right _ he')) htarget
  | @refreshed now v srcIp x items rest held perm =>
    have hmem : ∀ y ∈ x :: rest, y ∈ s.items := fun y hy =>
      (mem_unexpired.mp (held.mem_iff.mpr hy)).1
    rcases mem_cons.mp (perm.mem_iff.mp he') with rfl | he'
    · have hx : e.version.Newer x.version := hkept (hmem x mem_cons_self) htarget
      exact hx
    · exact hkept (hmem e' (mem_cons_of_mem _ he')) htarget
  | @replaced now p x items rest checks held target newer perm =>
    have hmem : ∀ y ∈ x :: rest, y ∈ s.items := fun y hy =>
      (mem_unexpired.mp (held.mem_iff.mpr hy)).1
    rcases mem_cons.mp (perm.mem_iff.mp he') with rfl | he'
    · have hx := hsame (hmem x mem_cons_self) (target.trans htarget)
      rw [hx] at newer
      exact .inr newer
    · exact hkept (hmem e' (mem_cons_of_mem _ he')) htarget
  | @added c now x items gone kept time held new signed source room count perm =>
    rcases mem_cons.mp (perm.mem_iff.mp he') with rfl | he'
    · have hfresh := mem_unexpired.mpr ⟨he, htime now time⟩
      exact absurd htarget.symm (new e hfresh)
    · have hmem := mem_unexpired.mp (held.mem_iff.mpr (mem_append_right gone he'))
      exact hkept hmem.1 htarget

theorem Turnover.signed (h : Turnover C s c items) (hs : ∀ e ∈ s.items, e.Signed C) :
    ∀ e ∈ items, e.Signed C := by
  intro e he
  cases h with
  | lost perm => exact hs e (perm.mem_iff.mpr (mem_append_right _ he))
  | @refreshed now v srcIp x items rest held perm =>
    have hmem : ∀ y ∈ x :: rest, y.Signed C := fun y hy =>
      hs y (mem_unexpired.mp (held.mem_iff.mpr hy)).1
    rcases mem_cons.mp (perm.mem_iff.mp he) with rfl | he
    · exact hmem x mem_cons_self
    · exact hmem e (mem_cons_of_mem _ he)
  | @replaced now p x items rest checks held target newer perm =>
    rcases mem_cons.mp (perm.mem_iff.mp he) with rfl | he
    · exact checks.signed now
    · exact hs e (mem_unexpired.mp (held.mem_iff.mpr (mem_cons_of_mem _ he))).1
  | @added c now x items gone kept time held new signed source room count perm =>
    rcases mem_cons.mp (perm.mem_iff.mp he) with rfl | he
    · exact signed
    · exact hs e (mem_unexpired.mp (held.mem_iff.mpr (mem_append_right gone he))).1

variable (run : Run (system C))

theorem signed_of_run : ∀ k ≤ run.len, ∀ e ∈ (run.state k).items, e.Signed C := by
  refine run.position_induction ?_ ?_
  · rcases run.start with hstart | ⟨mb, clientOnly, ram, hstart⟩
    · rw [hstart]
      exact forall_mem_nil _
    · rw [hstart]
      exact forall_mem_nil _
  · intro k hk ih
    rw [(run.steps k hk).2]
    exact (turnover_call (reachable_of_run run k hk.le).accounted _).signed ih

theorem newer_of_run {t : Bytes} {i j : ℕ} (hij : i ≤ j) (hj : j ≤ run.len)
    (hheld : HeldThrough run t i j) {e' : DhtItem} (he : e ∈ (run.state i).items)
    (he' : e' ∈ (run.state j).items) (ht : e.target = t) (ht' : e'.target = t) :
    e.version.Newer e'.version := by
  have hnodup := fun k hk => (reachable_of_run run k hk).sound.nodup
  induction j, hij using Nat.le_induction generalizing e' with
  | base =>
    have hsame := inj_on_of_nodup_map (hnodup i hj) he' he (ht'.trans ht.symm)
    exact .inl (congrArg DhtItem.version hsame.symm)
  | succ j hij ih =>
    obtain ⟨x, hx, hxt, htime⟩ := hheld.kept j hij (Nat.lt_succ_self j)
    have hbefore : HeldThrough run t i j :=
      ⟨fun k hik hkj => hheld.kept k hik (Nat.lt_succ_of_lt hkj), x, hx, hxt⟩
    have hturn := turnover_call (C := C) (reachable_of_run run j (Nat.le_of_succ_le hj)).accounted
      (run.event j)
    rw [(run.steps j hj).2] at he'
    exact (ih (Nat.le_of_succ_le hj) hbefore hx hxt).trans
      (hturn.newer (hnodup j (Nat.le_of_succ_le hj)) hx htime he' (ht'.trans hxt.symm))

theorem mem_of_put (h : (s.put C now p).1 = true) :
    p.Checks C ∧ ∃ e ∈ (s.put C now p).2.items, e.target = p.target ∧ e.seq = p.seq := by
  rcases put_cases C s now p with heq | ⟨_, hchecks, heq⟩
  · rw [heq] at h
    cases h
  · refine ⟨hchecks, ?_⟩
    rw [heq] at h ⊢
    revert h
    refine storeItem_cases (P := fun out => out.1 = true →
      ∃ e ∈ out.2.items, e.target = p.target ∧ e.seq = p.seq) ?_ ?_ ?_ ?_
    · intro i e _ _ himm
      cases himm
    · intro e _ _ _ _ h
      cases h
    · intro i e hget _ _ _ _
      obtain ⟨rest, -, hset⟩ := exists_perm_set hget
      exact ⟨p.entry.item now, (hset _).mem_iff.mpr mem_cons_self, rfl, rfl⟩
    · intro _
      unfold storeNew
      dsimp only
      split_ifs
      · intro h
        cases h
      · intro h
        cases h
      · intro _
        exact ⟨p.entry.item now, mem_append_right _ (mem_singleton_self _), rfl, rfl⟩

theorem put_of_stale (hs : Reachable C s) (hp : p.Checks C) (he : e ∈ s.unexpired now)
    (htarget : e.target = p.target) (hseq : p.seq ≤ e.seq) :
    s.put C now p = (false, s.expire now) := by
  have hmem : e ∈ (s.expire now).items := (expire_perm now s).mem_iff.mpr he
  have hsame : ∀ x ∈ (s.expire now).items, x.target = p.target → x = e := fun x hx hxt =>
    inj_on_of_nodup_map (hs.sound.expire now).nodup hx hmem (hxt.trans htarget.symm)
  have hserving : s.budget ≠ 0 := hs.serving (mem_unexpired.mp he).1
  rw [put_eq hserving hp]
  refine storeItem_cases (P := fun out => out = (false, s.expire now)) ?_ ?_ ?_ ?_
  · intro i x _ _ himm
    cases himm
  · intro x _ _ _ _
    rfl
  · intro i x hget hxt _ hnewer
    rw [hsame x (mem_of_getElem? hget) hxt] at hnewer
    exact absurd hseq (not_le.mpr hnewer)
  · intro hnew
    exact absurd htarget (hnew e hmem)

theorem putImmutable_of_held (hs : Reachable C s) {v : Bytes}
    (hlen : 0 < v.length ∧ v.length ≤ dhtstoreVmax) (he : e ∈ s.unexpired now)
    (htarget : e.target = C.sha1 (Bencode.encodeString v)) (srcIp : ℕ) :
    (dhtstorePutImmutable C now v srcIp s).2.items.map DhtItem.content =
      (s.expire now).items.map DhtItem.content := by
  have hmem : e ∈ (s.expire now).items := (expire_perm now s).mem_iff.mpr he
  have hserving : s.budget ≠ 0 := hs.serving (mem_unexpired.mp he).1
  have heq : dhtstorePutImmutable C now v srcIp s = s.storeItem now
      ⟨C.sha1 (Bencode.encodeString v), .replicate 32 0, 0, v, .replicate 64 0, true, srcIp⟩ := by
    unfold dhtstorePutImmutable bep44ImmutableTarget
    unfold dhtstoreVmax at hlen ⊢
    rw [if_neg hserving, if_neg (by omega), if_neg (by omega)]
  rw [heq]
  refine storeItem_cases (P := fun out => out.2.items.map DhtItem.content =
    (s.expire now).items.map DhtItem.content) ?_ ?_ ?_ ?_
  · intro i x hget _ _
    exact map_set_key hget rfl
  · intro x _ _ himm
    cases himm
  · intro i x _ _ himm
    cases himm
  · intro hnew
    exact absurd htarget (hnew e hmem)

theorem noRollback : NoRollback run where
  seq_le i j t hij hj hheld e he e' he' ht ht' := by
    have hnewer := newer_of_run run hij hj hheld he he' ht ht'
    exact ⟨hnewer.seq_le, fun hne => hnewer.seq_lt hne⟩
  signed := signed_of_run run
  replay i j now p hij hj hevent haccepted hheld now' srcIp := by
    rintro ⟨e', he', ht'⟩
    obtain ⟨hchecks, e, he, ht, hseq⟩ := mem_of_put haccepted
    have hafter : (run.state (i + 1)).items = ((run.state i).put C now p).2.items := by
      rw [(run.steps i (hij.trans_le hj)).2, hevent]
      rfl
    rw [← hafter] at he
    have hnewer := newer_of_run run hij hj hheld he (mem_unexpired.mp he').1 ht ht'
    refine put_of_stale (reachable_of_run run j hj) (p := { p with srcIp := srcIp }) ?_ he' ht' ?_
    · exact ⟨hchecks.v_pos, hchecks.v_le, hchecks.fits, hchecks.verify, hchecks.target_eq⟩
    · rw [← hseq]
      exact hnewer.seq_le
  replayImmutable i j now v srcIp hij hj haccepted now' srcIp' := by
    rintro ⟨e', he', ht'⟩
    rcases dhtstorePutImmutable_cases C now v srcIp (run.state i) with heq | ⟨hlen, _, _⟩
    · rw [heq] at haccepted
      cases haccepted
    · exact putImmutable_of_held (reachable_of_run run j hj) hlen he' ht' srcIp'

end DhtStore

namespace Recstore
variable {C : DhtCrypto}

structure NoRollback (run : Run (system C)) : Prop where
  seq_le : ∀ i j, i ≤ j → j ≤ run.len → ∀ r ∈ run.state i, ∀ r' ∈ run.state j,
    r.target = r'.target → r.seq ≤ r'.seq ∧ (r.v ≠ r'.v ∨ r.sig ≠ r'.sig → r.seq < r'.seq)
  signed : ∀ k ≤ run.len, ∀ r ∈ run.state k, r.Signed C
  replay : ∀ i j now k seq v sig, i < j → j ≤ run.len → run.event i = .accept now k seq v sig →
    (recstoreAccept C now k seq v sig (run.state i)).1 = true → ∀ now',
      recstoreAccept C now' k seq v sig (run.state j) = (false, run.state j)

variable {recs : List RecItem} {k : Bytes} {seq : ℕ}

theorem mem_of_accept {now : ℤ} {v sig : Bytes}
    (h : (recstoreAccept C now k seq v sig recs).1 = true) :
    ∃ r ∈ (recstoreAccept C now k seq v sig recs).2, r.target = bep44Target C k ∧ r.seq = seq := by
  revert h
  refine recstoreAccept_cases (P := fun out => out.1 = true →
    ∃ r ∈ out.2, r.target = bep44Target C k ∧ r.seq = seq) ?_ ?_ ?_
  · intro h
    cases h
  · intro _ i r hfinds _ _ _
    obtain ⟨rest, -, hset⟩ := exists_perm_set hfinds.get
    exact ⟨_, (hset _).mem_iff.mpr mem_cons_self, rfl, rfl⟩
  · intro _ _ _ _
    exact ⟨_, mem_append_right _ (mem_singleton_self _), rfl, rfl⟩

theorem accept_of_stale (hs : Sound C recs) {r : RecItem} (hr : r ∈ recs)
    (htarget : r.target = bep44Target C k) (hseq : seq ≤ r.seq) (now : ℤ) (v sig : Bytes) :
    recstoreAccept C now k seq v sig recs = (false, recs) := by
  refine recstoreAccept_cases (P := fun out => out = (false, recs)) rfl ?_ ?_
  · intro _ i x hfinds hxt hnewer
    rw [inj_on_of_nodup_map hs.nodup (mem_of_getElem? hfinds.get) hr
      (hxt.trans htarget.symm)] at hnewer
    exact absurd hseq (not_le.mpr hnewer)
  · intro _ _ hnew
    exact absurd htarget (hnew r hr)

theorem noRollback (run : Run (system C)) : NoRollback run where
  seq_le i j hij hj r hr r' hr' ht := by
    obtain ⟨x, hx, hxt, hnewer⟩ := newer_of_run run hij hj hr
    rw [inj_on_of_nodup_map (sound_of_run run j hj).nodup hx hr' (hxt.trans ht)] at hnewer
    exact ⟨hnewer.seq_le, fun hne => hnewer.seq_lt hne⟩
  signed k hk := (sound_of_run run k hk).signed
  replay i j now k seq v sig hij hj hevent haccepted now' := by
    obtain ⟨r, hr, ht, hseq⟩ := mem_of_accept haccepted
    have hafter : run.state (i + 1) = (recstoreAccept C now k seq v sig (run.state i)).2 := by
      rw [run.steps i (hij.trans_le hj), hevent]
      rfl
    rw [← hafter] at hr
    obtain ⟨x, hx, hxt, hnewer⟩ := newer_of_run run hij hj hr
    refine accept_of_stale (sound_of_run run j hj) hx (hxt.trans ht) ?_ now' v sig
    rw [← hseq]
    exact hnewer.seq_le

end Recstore

/-- In no run of either store does a version come back. -/
theorem no_sequence_rollback (C : DhtCrypto) :
    (∀ run : Run (DhtStore.system C), DhtStore.NoRollback run) ∧
      ∀ run : Run (Recstore.system C), Recstore.NoRollback run :=
  ⟨DhtStore.noRollback, Recstore.noRollback⟩

end Norn
