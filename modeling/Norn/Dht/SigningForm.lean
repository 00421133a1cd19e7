import Norn.Dht.Publish
import Norn.Dht.StoreCalls

/-!
# The form in which items are signed

The builder cuts the salt after 64 bytes, and so does the derivation of the target.
-/

namespace Norn
open List

def canonicalForm (salt : Bytes) (seq : ℕ) (v : Bytes) : Bytes :=
  (if salt = [] then [] else text "4:salt".toList ++ Bencode.encodeString salt) ++
    (text "3:seqi".toList ++ decimal seq ++ text "e1:v".toList ++ Bencode.encodeString v)

/-- The ways in which a target is derived from a key and a salt; the first two are for no salt. -/
inductive TargetDerivation
  | plain | forPubkey | salted
  deriving DecidableEq

namespace TargetDerivation

def target (C : DhtCrypto) (k salt : Bytes) : TargetDerivation → Bytes
  | plain => bep44Target C k
  | forPubkey => bep44TargetForPubkey C k
  | salted => bep44TargetSalted C k salt

/-- The bytes that are hashed. -/
def preimage (k salt : Bytes) : TargetDerivation → Bytes
  | plain => k
  | forPubkey => ascii 'k' :: k
  | salted => k ++ salt.take bep44MaxSalt

theorem target_eq_sha1 (C : DhtCrypto) (k salt : Bytes) (d : TargetDerivation) :
    d.target C k salt = C.sha1 (d.preimage k salt) := by
  cases d <;> rfl

def Takes (d : TargetDerivation) (salt : Bytes) : Prop := d ≠ salted → salt = []

end TargetDerivation

theorem form_eq_canonicalForm {salt : Bytes} (h : salt.length ≤ bep44MaxSalt) (seq : ℕ)
    (v : Bytes) : saltBytes salt ++ valueBytes seq v = canonicalForm salt seq v := by
  unfold saltBytes canonicalForm
  rw [take_of_length_le h]
  simp only [length_eq_zero_iff]
  rfl

theorem Bencode.encodeString_append_inj {s t r u : Bytes}
    (h : encodeString s ++ r = encodeString t ++ u) : s = t ∧ r = u := by
  unfold encodeString at h
  rw [append_assoc, append_assoc, cons_append, cons_append] at h
  obtain ⟨hlen, hrest⟩ := decimal_append_inj (by decide) (by decide) h
  exact append_inj (tail_eq_of_cons_eq hrest) hlen

theorem valueBytes_inj {seq seq' : ℕ} {v v' : Bytes} (h : valueBytes seq v = valueBytes seq' v') :
    seq = seq' ∧ v = v' := by
  unfold valueBytes at h
  simp only [append_assoc] at h
  obtain ⟨hseq, hrest⟩ := decimal_append_inj (c := ascii 'e') (d := ascii 'e') (by decide)
    (by decide) (append_cancel_left h)
  have hlast : text "e1:v".toList ++ Bencode.encodeString v =
      text "e1:v".toList ++ Bencode.encodeString v' := hrest
  have hvalue : Bencode.encodeString v ++ [] = Bencode.encodeString v' ++ [] := by
    rw [append_nil, append_nil]
    exact append_cancel_left hlast
  exact ⟨hseq, (Bencode.encodeString_append_inj hvalue).1⟩

theorem form_eq_iff {salt salt' : Bytes} {seq seq' : ℕ} {v v' : Bytes} :
    saltBytes salt ++ valueBytes seq v = saltBytes salt' ++ valueBytes seq' v' ↔
      salt.take bep44MaxSalt = salt'.take bep44MaxSalt ∧ seq = seq' ∧ v = v' := by
  have hempty (salt : Bytes) : salt.take bep44MaxSalt = [] ↔ salt.length = 0 := by
    rw [take_eq_nil_iff, length_eq_zero_iff]
    exact or_iff_right (by decide)
  unfold saltBytes
  by_cases hsalt : salt.length = 0
  · by_cases hsalt' : salt'.length = 0
    · rw [if_pos hsalt, if_pos hsalt', (hempty salt).mpr hsalt, (hempty salt').mpr hsalt']
      refine ⟨fun h => ⟨rfl, valueBytes_inj h⟩, ?_⟩
      rintro ⟨-, rfl, rfl⟩
      rfl
    · rw [if_pos hsalt, if_neg hsalt']
      refine iff_of_false (fun h => ?_) fun h => hsalt' ?_
      · exact absurd (congrArg head? h) (by simp [valueBytes, text])
      · rw [← hempty, ← h.1, hempty]
        exact hsalt
  · by_cases hsalt' : salt'.length = 0
    · rw [if_neg hsalt, if_pos hsalt']
      refine iff_of_false (fun h => ?_) fun h => hsalt ?_
      · exact absurd (congrArg head? h) (by simp [valueBytes, text])
      · rw [← hempty, h.1, hempty]
        exact hsalt'
    · rw [if_neg hsalt, if_neg hsalt', append_assoc, append_assoc]
      constructor
      · intro h
        obtain ⟨htake, hrest⟩ := Bencode.encodeString_append_inj (append_cancel_left h)
        exact ⟨htake, valueBytes_inj hrest⟩
      · rintro ⟨htake, rfl, rfl⟩
        rw [htake]

/-- A salt of one byte may be the last byte of a key that is hashed behind the letter `k`. -/
def Shifted (salt salt' : Bytes) : Prop := salt = [] ∧ salt'.length = 1

namespace TargetDerivation
variable {k k' salt salt' : Bytes} (hk : k.length = 32) (hk' : k'.length = 32)
include hk hk'

theorem shifted_of_forPubkey (h : ascii 'k' :: k = k' ++ salt'.take bep44MaxSalt) :
    salt'.length = 1 := by
  have hlen := congrArg length h
  rw [length_cons, length_append, length_take, bep44MaxSalt] at hlen
  omega

theorem preimage_inj {d d' : TargetDerivation} (hd : d.Takes salt) (hd' : d'.Takes salt')
    (hshift : ¬ Shifted salt salt') (hshift' : ¬ Shifted salt' salt)
    (h : d.preimage k salt = d'.preimage k' salt') :
    k = k' ∧ salt.take bep44MaxSalt = salt'.take bep44MaxSalt := by
  have hplain : ∀ {d : TargetDerivation} {k salt : Bytes}, d.Takes salt → d ≠ forPubkey →
      d.preimage k salt = k ++ salt.take bep44MaxSalt := by
    intro d k salt hd hne
    cases d with
    | plain => rw [preimage, hd (by decide), take_nil, append_nil]
    | forPubkey => exact absurd rfl hne
    | salted => rfl
  by_cases hp : d = forPubkey <;> by_cases hp' : d' = forPubkey
  · rw [hp, hp'] at h
    rw [hd (by rw [hp]; decide), hd' (by rw [hp']; decide)]
    exact ⟨tail_eq_of_cons_eq h, rfl⟩
  · rw [hp, hplain hd' hp'] at h
    exact absurd ⟨hd (by rw [hp]; decide), shifted_of_forPubkey hk hk' h⟩ hshift
  · rw [hp', hplain hd hp] at h
    exact absurd ⟨hd' (by rw [hp']; decide), shifted_of_forPubkey hk' hk h.symm⟩ hshift'
  · rw [hplain hd hp, hplain hd' hp'] at h
    exact append_inj h (hk.trans hk'.symm)

end TargetDerivation

/-- The keys whose preimages agree if one of them has no salt and the other a salt of one byte. -/
theorem exists_shifted {salt salt' : Bytes} (h : Shifted salt salt') :
    ∃ k k' : Bytes, k.length = 32 ∧ k'.length = 32 ∧
      TargetDerivation.forPubkey.preimage k salt = TargetDerivation.salted.preimage k' salt' := by
  refine ⟨.replicate 31 5 ++ salt', ascii 'k' :: .replicate 31 5, ?_, by decide, ?_⟩
  · rw [length_append, length_replicate, h.2]
  · change _ = _ ++ salt'.take bep44MaxSalt
    rw [take_of_length_le (by rw [h.2]; decide)]
    rfl

/-- Two salts lead to different forms and targets exactly if they are equal or differ in what is
read of them, and are not an empty one and a single byte. -/
theorem form_injective_iff (salt salt' : Bytes) :
    ((∀ seq seq' v v' cap cap' buf, bep44SignbufSalted salt seq v cap = some buf →
        bep44SignbufSalted salt' seq' v' cap' = some buf → salt = salt' ∧ seq = seq' ∧ v = v') ∧
      ∀ (d d' : TargetDerivation) (k k' : Bytes), d.Takes salt → d'.Takes salt' → k.length = 32 →
        k'.length = 32 → d.preimage k salt = d'.preimage k' salt' → k = k' ∧ salt = salt') ↔
      (salt.take bep44MaxSalt = salt'.take bep44MaxSalt → salt = salt') ∧
        ¬ Shifted salt salt' ∧ ¬ Shifted salt' salt := by
  have hbuf {salt : Bytes} {seq : ℕ} {v : Bytes} {cap : ℕ} {buf : Bytes}
      (h : bep44SignbufSalted salt seq v cap = some buf) :
      saltBytes salt ++ valueBytes seq v = buf := by
    unfold bep44SignbufSalted at h
    split_ifs at h
    exact Option.some.inj h
  have hne {salt salt' : Bytes} (h : Shifted salt salt') : salt ≠ salt' := by
    rintro rfl
    rw [h.1] at h
    exact absurd h.2 (by decide)
  constructor
  · rintro ⟨-, htarget⟩
    refine ⟨fun htake => ?_, fun hshift => ?_, fun hshift => ?_⟩
    · have hk : (replicate 32 (0 : UInt8)).length = 32 := length_replicate
      refine (htarget .salted .salted _ _ (absurd rfl) (absurd rfl) hk hk ?_).2
      rw [TargetDerivation.preimage, htake]
      rfl
    · obtain ⟨k, k', hk, hk', heq⟩ := exists_shifted hshift
      exact hne hshift (htarget _ _ k k' (fun _ => hshift.1) (absurd rfl) hk hk' heq).2
    · obtain ⟨k, k', hk, hk', heq⟩ := exists_shifted hshift
      exact hne hshift (htarget _ _ k' k (absurd rfl) (fun _ => hshift.1) hk' hk heq.symm).2.symm
  · rintro ⟨hsalt, hshift, hshift'⟩
    refine ⟨?_, ?_⟩
    · intro seq seq' v v' cap cap' buf h h'
      obtain ⟨htake, hseq, hv⟩ := form_eq_iff.mp ((hbuf h).trans (hbuf h').symm)
      exact ⟨hsalt htake, hseq, hv⟩
    · intro d d' k k' hd hd' hk hk' h
      obtain ⟨hkey, htake⟩ := TargetDerivation.preimage_inj hk hk' hd hd' hshift hshift' h
      exact ⟨hkey, hsalt htake⟩

def longSalt (last : UInt8) : Bytes := .replicate 64 7 ++ [last]

theorem longSalt_same_form : longSalt 1 ≠ longSalt 2 ∧
    (∃ buf, bep44SignbufSalted (longSalt 1) 1 [7] 1064 = some buf ∧
      bep44SignbufSalted (longSalt 2) 1 [7] 1064 = some buf) ∧
    TargetDerivation.salted.preimage (.replicate 32 3) (longSalt 1) =
      TargetDerivation.salted.preimage (.replicate 32 3) (longSalt 2) ∧
    TargetDerivation.forPubkey.preimage (.replicate 31 5 ++ [9]) [] =
      TargetDerivation.salted.preimage (ascii 'k' :: .replicate 31 5) [9] :=
  ⟨by decide, ⟨saltBytes (longSalt 1) ++ valueBytes 1 [7], by decide, by decide⟩, by decide,
    by decide⟩

def formLength (saltlen seq vlen : ℕ) : ℕ :=
  (if saltlen = 0 then 0 else 7 + (Nat.log 10 saltlen + 1) + saltlen) +
    (11 + (Nat.log 10 seq + 1) + (Nat.log 10 vlen + 1) + vlen)

theorem length_canonicalForm (salt : Bytes) (seq : ℕ) (v : Bytes) :
    (canonicalForm salt seq v).length = formLength salt.length seq v.length := by
  have hstring (s : Bytes) :
      (Bencode.encodeString s).length = Nat.log 10 s.length + 1 + (s.length + 1) := by
    rw [Bencode.encodeString, length_append, length_cons, length_decimal]
  have htexts : (text "4:salt".toList).length = 6 ∧ (text "3:seqi".toList).length = 6 ∧
      (text "e1:v".toList).length = 4 := by decide
  unfold canonicalForm formLength
  simp only [length_append, hstring, htexts, length_decimal, length_eq_zero_iff]
  split_ifs
  · rw [length_nil]
    omega
  · rw [length_append, hstring, htexts.1]
    omega

theorem SignedPut.Checks.formLength_le {C : DhtCrypto} {p : SignedPut} (h : p.Checks C)
    (hsalt : p.salt.length ≤ bep44MaxSalt) : formLength p.salt.length p.seq p.v.length ≤ 1064 := by
  rw [← length_canonicalForm, ← form_eq_canonicalForm hsalt]
  exact h.fits

open DhtStore in
/-- An empty store takes a correctly signed item exactly if its form fits in the buffer. -/
theorem put_stored_iff_form_fits (C : DhtCrypto) {s : DhtStore} (hs : Reachable C s)
    (hempty : s.items = []) (now : ℤ) {p : SignedPut}
    (hsalt : p.salt.length ≤ bep44MaxSalt) (hpos : 0 < p.v.length) (hle : p.v.length ≤ 1000)
    (hbudget : p.v.length ≤ s.budget)
    (hsig : C.verify p.sig (canonicalForm p.salt p.seq p.v) p.k = true)
    (htarget : C.sha1 (p.k ++ p.salt) = p.target) :
    (s.put C now p).1 = true ↔ formLength p.salt.length p.seq p.v.length ≤ 1064 := by
  have hform := form_eq_canonicalForm hsalt p.seq p.v
  have hlen := length_canonicalForm p.salt p.seq p.v
  constructor
  · intro hstored
    rcases put_cases C s now p with heq | ⟨_, hchecks, _⟩
    · rw [heq] at hstored
      cases hstored
    · exact hchecks.formLength_le hsalt
  · intro hfits
    have hchecks : p.Checks C := by
      refine ⟨hpos, hle, ?_, ?_, ?_⟩
      · rw [hform, hlen]
        exact hfits
      · rw [hform]
        exact hsig
      · rw [← htarget]
        split_ifs with hempty
        · rw [length_eq_zero_iff.mp hempty, append_nil]
          rfl
        · rw [bep44TargetSalted, take_of_length_le hsalt]
    have hnone : s.unexpired now = [] := by rw [unexpired, hempty, filter_nil]
    refine (put_of_new hs.accounted (by omega) hchecks ?_ ?_ ?_ ?_).1
    · rw [hnone]
      exact forall_mem_nil _
    · rw [hnone, countP_nil]
      decide
    · rw [hnone]
      change 0 + p.v.length ≤ s.budget
      omega
    · rw [hnone]
      decide

def signedItem (saltlen seq vlen : ℕ) : SignedPut where
  target := toyCrypto.sha1 (.replicate 32 3 ++ .replicate saltlen 5)
  k := .replicate 32 3
  seq := seq
  v := .replicate vlen 7
  sig := toyCrypto.sign [] (canonicalForm (.replicate saltlen 5) seq (.replicate vlen 7))
  salt := .replicate saltlen 5
  srcIp := 1

theorem signedItem_verifies (saltlen seq vlen : ℕ) :
    toyCrypto.verify (signedItem saltlen seq vlen).sig
      (canonicalForm (signedItem saltlen seq vlen).salt seq (signedItem saltlen seq vlen).v)
      (signedItem saltlen seq vlen).k = true :=
  beq_self_eq_true _

theorem shortItem_stored :
    ((dhtstoreInit (2 ^ 20)).put toyCrypto 0 (signedItem 5 1 10)).1 = true :=
  (put_stored_iff_form_fits toyCrypto (.init 1 false 0) rfl 0 (p := signedItem 5 1 10) (by decide)
    (by decide) (by decide) (by decide) (signedItem_verifies 5 1 10) rfl).mpr (by decide +kernel)

theorem longestItem_refused : (signedItem 64 4294967295 1000).WellTyped ∧
    (signedItem 64 4294967295 1000).salt.length = 64 ∧
    (signedItem 64 4294967295 1000).v.length = 1000 ∧
    toyCrypto.verify (signedItem 64 4294967295 1000).sig
      (canonicalForm (signedItem 64 4294967295 1000).salt 4294967295
        (signedItem 64 4294967295 1000).v) (signedItem 64 4294967295 1000).k = true ∧
    toyCrypto.sha1 ((signedItem 64 4294967295 1000).k ++ (signedItem 64 4294967295 1000).salt) =
      (signedItem 64 4294967295 1000).target ∧
    ((dhtstoreInit (2 ^ 20)).put toyCrypto 0 (signedItem 64 4294967295 1000)).1 = false := by
  refine ⟨⟨length_replicate, by decide, toyCrypto.length_sign [] _⟩, length_replicate,
    length_replicate, signedItem_verifies _ _ _, rfl, ?_⟩
  rcases DhtStore.put_cases toyCrypto (dhtstoreInit (2 ^ 20)) 0 (signedItem 64 4294967295 1000) with
    heq | ⟨_, hchecks, _⟩
  · rw [heq]
  · have hsalt : (signedItem 64 4294967295 1000).salt.length = 64 := length_replicate
    have hv : (signedItem 64 4294967295 1000).v.length = 1000 := length_replicate
    have hfits := hchecks.formLength_le hsalt.le
    rw [hsalt, hv] at hfits
    exact absurd hfits (by decide +kernel)

end Norn
