import Norn.Lib.Layout

/-!
# The identity exchange

The signed messages of `idexch.c` and, for any suite of signatures, of `norn_idexch.c`.
-/

namespace Norn
open List Option

/-- `sign` takes the secret key and the message, `verify` the public key, the message and the
signature. -/
structure SignSuite where
  pubkeyLen : ℕ
  sigLen : ℕ
  sign : Bytes → Bytes → Option Bytes
  verify : Bytes → Bytes → Bytes → Bool

variable (S : SignSuite)

/-- What is signed with the one key verifies with the other. -/
def SignSuite.Signs (sigLen : ℕ) (pub sk : Bytes) : Prop :=
  ∀ msg, ∃ sig : Bytes, sig.length = sigLen ∧ S.sign sk msg = some sig ∧ S.verify pub msg sig

def idexchMagic : Bytes := [0x4E, 0x4F, 0x52, 0x4E]
def idexchPayloadMax : ℕ := 1024

def hasMagic (minLen : ℕ) (buf : Bytes) : Bool :=
  minLen ≤ buf.length && buf.take 4 = idexchMagic

/-- The version and the account are the bytes of C strings. -/
structure IdexchMsg where
  type : UInt8
  nonce : Bytes
  pub : Bytes
  ula : Bytes
  version : Bytes
  account : Bytes
  payload : Bytes

namespace IdexchMsg

def fields (m : IdexchMsg) : List Bytes :=
  [[m.type], m.nonce, m.pub, m.ula, m.version, m.account, m.payload]

def ofFields : List Bytes → Option IdexchMsg
  | [[type], nonce, pub, ula, version, account, payload] =>
    some ⟨type, nonce, pub, ula, version, account, payload⟩
  | _ => none

theorem ofFields_eq_some_iff {xs : List Bytes} {m : IdexchMsg} :
    ofFields xs = some m ↔ xs = m.fields := by
  constructor
  · intro h
    unfold ofFields at h
    split at h <;> cases h
    rfl
  · rintro rfl
    rfl

end IdexchMsg

def idexchFormat : SignedFormat IdexchMsg where
  layout := [.fixed 1, .fixed 16, .fixed 32, .fixed 16, .counted 1, .counted 1, .counted 2]
  sigLen := 64
  fields := IdexchMsg.fields
  ofFields := IdexchMsg.ofFields
  pubkey := IdexchMsg.pub
  ofFields_eq_some_iff _ := IdexchMsg.ofFields_eq_some_iff

def idexchIs : Bytes → Bool := hasMagic 5

def idexchNeed (m : IdexchMsg) : ℕ :=
  4 + 1 + 16 + 32 + 16 + 1 + m.version.length + 1 + m.account.length + 2 + m.payload.length + 64

def idexchBuild (m : IdexchMsg) (sk : Bytes) (outcap : ℕ) : Option Bytes :=
  if 255 < m.version.length ∨ 255 < m.account.length ∨ idexchPayloadMax < m.payload.length then none
  else if outcap < idexchNeed m then none
  else
    (S.sign sk (idexchFormat.bytes m)).map fun sig => idexchMagic ++ (idexchFormat.bytes m ++ sig)

/-- The sizes of the buffers, zero for a buffer that is not there. -/
structure IdexchCaps where
  version : ℕ
  account : ℕ
  payload : ℕ

def IdexchMsg.copied (caps : IdexchCaps) (m : IdexchMsg) : IdexchMsg × ℕ :=
  ({ m with
      version := m.version.take (caps.version - 1)
      account := m.account.take (caps.account - 1)
      payload := m.payload.take caps.payload }, m.payload.length)

def idexchParse (caps : IdexchCaps) (buf : Bytes) : Option (IdexchMsg × ℕ) :=
  if idexchIs buf then
    (idexchFormat.parse S.verify (fun m => caps.payload = 0 ∨ m.payload.length ≤ caps.payload)
      (buf.drop 4)).map (IdexchMsg.copied caps)
  else none

/-- `endpointIp` is four zero bytes if no address is given. -/
structure NornIdexchMsg where
  type : UInt8
  nonce : Bytes
  pubkey : Bytes
  endpointIp : Bytes
  endpointPort : UInt16
  payload : Bytes

def nornIdexchLayout : List FieldSpec :=
  [.fixed 1, .fixed 16, .fixed S.pubkeyLen, .fixed 4, .fixed 2, .counted 2]

namespace NornIdexchMsg

def fields (m : NornIdexchMsg) : List Bytes :=
  [[m.type], m.nonce, m.pubkey, m.endpointIp, bigEndian 2 m.endpointPort.toNat, m.payload]

def ofFields : List Bytes → Option NornIdexchMsg
  | [[type], nonce, pubkey, ip, port, payload] =>
    some ⟨type, nonce, pubkey, ip, .ofNat (fromBigEndian port), payload⟩
  | _ => none

theorem ofFields_eq_some_iff {S : SignSuite} {xs : List Bytes} {m : NornIdexchMsg}
    (h : Forall₂ FieldSpec.Fits (nornIdexchLayout S) xs) :
    ofFields xs = some m ↔ xs = m.fields := by
  constructor
  · intro hm
    unfold ofFields at hm
    split at hm <;> cases hm
    rename_i type nonce pubkey ip port payload
    obtain ⟨-, -, -, -, hport, -⟩ : _ ∧ _ ∧ _ ∧ _ ∧ port.length = 2 ∧ _ := by
      simpa only [nornIdexchLayout, forall₂_cons, FieldSpec.Fits] using h
    have hlt := fromBigEndian_lt port
    have hbytes := bigEndian_fromBigEndian port
    rw [hport] at hlt hbytes
    have hnat : (UInt16.ofNat (fromBigEndian port)).toNat = fromBigEndian port :=
      UInt16.toNat_ofNat_of_lt' hlt
    rw [fields, hnat, hbytes]
  · rintro rfl
    have hlt : m.endpointPort.toNat < 256 ^ 2 := m.endpointPort.toNat_lt
    rw [fields, ofFields, fromBigEndian_bigEndian, Nat.mod_eq_of_lt hlt, UInt16.ofNat_toNat]

end NornIdexchMsg

def nornIdexchFormat : SignedFormat NornIdexchMsg where
  layout := nornIdexchLayout S
  sigLen := S.sigLen
  fields := NornIdexchMsg.fields
  ofFields := NornIdexchMsg.ofFields
  pubkey := NornIdexchMsg.pubkey
  ofFields_eq_some_iff := NornIdexchMsg.ofFields_eq_some_iff

def nornIdexchIs : Bytes → Bool := hasMagic 4

def nornIdexchNeed (paylen : ℕ) : ℕ :=
  4 + 1 + 16 + S.pubkeyLen + 4 + 2 + 2 + paylen + S.sigLen

def nornIdexchBuild (m : NornIdexchMsg) (secret : Bytes) (outcap : ℕ) : Option Bytes :=
  if idexchPayloadMax < m.payload.length then none
  else if outcap < nornIdexchNeed S m.payload.length then none
  else
    (S.sign secret ((nornIdexchFormat S).bytes m)).map fun sig =>
      idexchMagic ++ ((nornIdexchFormat S).bytes m ++ sig)

def NornIdexchMsg.copied (paycap : ℕ) (m : NornIdexchMsg) : NornIdexchMsg × ℕ :=
  ({ m with payload := m.payload.take paycap }, m.payload.length)

def nornIdexchParse (paycap : ℕ) (buf : Bytes) : Option (NornIdexchMsg × ℕ) :=
  if nornIdexchIs buf ∧ nornIdexchNeed S 0 ≤ buf.length then
    ((nornIdexchFormat S).parse S.verify (fun m => m.payload.length ≤ idexchPayloadMax ∧
      (paycap = 0 ∨ m.payload.length ≤ paycap)) (buf.drop 4)).map (NornIdexchMsg.copied paycap)
  else none

/-- What a parser returns is in the signed bytes and is determined by them. -/
structure Unambiguous {α : Type} (F : SignedFormat α) (parse : Bytes → Option (α × ℕ)) : Prop where
  determined {buf buf' : Bytes} {out out' : α × ℕ} : parse buf = some out →
    parse buf' = some out' → F.signedBytes (buf.drop 4) = F.signedBytes (buf'.drop 4) → out = out'
  inside {buf : Bytes} {out : α × ℕ} : parse buf = some out →
    ∃ s, F.signedBytes (buf.drop 4) = some s ∧ ∀ x ∈ bigEndian 2 out.2 :: F.fields out.1, x <:+: s

section
variable {α : Type} {F : SignedFormat α} {verify : Bytes → Bytes → Bytes → Bool}
  {accept : α → Bool} {copied : α → α × ℕ}

theorem unambiguous_of_copied (accepts : Bytes → Prop) [DecidablePred accepts]
    (hcopied : ∀ m, ∀ x ∈ bigEndian 2 (copied m).2 :: F.fields (copied m).1, x <:+: F.bytes m) :
    Unambiguous F fun buf =>
      if accepts buf then (F.parse verify accept (buf.drop 4)).map copied else none := by
  have hparse {buf : Bytes} {out : α × ℕ} (h : (if accepts buf then
      (F.parse verify accept (buf.drop 4)).map copied else none) = some out) :
      ∃ m, F.Fits m ∧ F.signedBytes (buf.drop 4) = some (F.bytes m) ∧ out = copied m := by
    split_ifs at h
    obtain ⟨m, hm, rfl⟩ := map_eq_some_iff.mp h
    obtain ⟨hfits, -, sig, rest, -, -, hbuf⟩ := SignedFormat.parse_eq_some_iff.mp hm
    exact ⟨m, hfits, by rw [hbuf, SignedFormat.signedBytes_append hfits], rfl⟩
  constructor
  · intro buf buf' out out' h h' hsame
    obtain ⟨m, hm, hsigned, rfl⟩ := hparse h
    obtain ⟨m', hm', hsigned', rfl⟩ := hparse h'
    rw [hsigned, hsigned', some_inj] at hsame
    rw [SignedFormat.bytes_inj hm hm' hsame]
  · intro buf out h
    obtain ⟨m, -, hsigned, rfl⟩ := hparse h
    exact ⟨F.bytes m, hsigned, hcopied m⟩

theorem hasMagic_built {n : ℕ} {p : Bytes} (h : n ≤ 4 + p.length) :
    hasMagic n (idexchMagic ++ p) = true := by
  rw [hasMagic, Bool.and_eq_true, decide_eq_true_eq, decide_eq_true_eq, length_append]
  exact ⟨h, rfl⟩

theorem parse_built {m : α} {sig : Bytes} (hm : F.Fits m) (haccept : accept m)
    (hlen : sig.length = F.sigLen) (hverify : verify (F.pubkey m) (F.bytes m) sig) :
    F.parse verify accept ((idexchMagic ++ (F.bytes m ++ sig)).drop 4) = some m :=
  SignedFormat.parse_eq_some_iff.mpr
    ⟨hm, haccept, sig, [], hlen, hverify, by rw [append_nil]; rfl⟩

end

theorem unambiguous_idexchParse (caps : IdexchCaps) :
    Unambiguous idexchFormat (idexchParse S caps) := by
  refine unambiguous_of_copied _ fun m => ?_
  have htake (x : Bytes) (n k : ℕ) : x.take k <:+: (FieldSpec.counted n).bytes x :=
    (IsPrefix.isInfix ⟨_, take_append_drop k x⟩).trans (suffix_append _ _).isInfix
  simp only [idexchFormat, IdexchMsg.fields, IdexchMsg.copied, forall_mem_cons]
  refine ⟨?_, ?_, ?_, ?_, ?_, ?_, ?_, ?_, forall_mem_nil _⟩
  · exact infix_layoutBytes 6 rfl rfl (prefix_append _ _).isInfix
  · exact infix_layoutBytes 0 rfl rfl infix_rfl
  · exact infix_layoutBytes 1 rfl rfl infix_rfl
  · exact infix_layoutBytes 2 rfl rfl infix_rfl
  · exact infix_layoutBytes 3 rfl rfl infix_rfl
  · exact infix_layoutBytes 4 rfl rfl (htake _ 1 _)
  · exact infix_layoutBytes 5 rfl rfl (htake _ 1 _)
  · exact infix_layoutBytes 6 rfl rfl (htake _ 2 _)

theorem unambiguous_nornIdexchParse (paycap : ℕ) :
    Unambiguous (nornIdexchFormat S) (nornIdexchParse S paycap) := by
  refine unambiguous_of_copied _ fun m => ?_
  simp only [nornIdexchFormat, NornIdexchMsg.fields, NornIdexchMsg.copied, forall_mem_cons]
  refine ⟨?_, ?_, ?_, ?_, ?_, ?_, ?_, forall_mem_nil _⟩
  · exact infix_layoutBytes 5 rfl rfl (prefix_append _ _).isInfix
  · exact infix_layoutBytes 0 rfl rfl infix_rfl
  · exact infix_layoutBytes 1 rfl rfl infix_rfl
  · exact infix_layoutBytes 2 rfl rfl infix_rfl
  · exact infix_layoutBytes 3 rfl rfl infix_rfl
  · exact infix_layoutBytes 4 rfl rfl infix_rfl
  · exact infix_layoutBytes 5 rfl rfl
      ((IsPrefix.isInfix ⟨_, take_append_drop _ _⟩).trans (suffix_append (bigEndian 2 _) _).isInfix)

variable {S : SignSuite} {sk : Bytes} {outcap : ℕ}

theorem idexchParse_build {m : IdexchMsg} {caps : IdexchCaps} (hm : idexchFormat.Fits m)
    (hpay : m.payload.length ≤ idexchPayloadMax) (hcap : idexchNeed m ≤ outcap)
    (hsign : S.Signs 64 m.pub sk) (hver : m.version.length < caps.version)
    (hacct : m.account.length < caps.account) (hpaycap : m.payload.length ≤ caps.payload) :
    ∃ buf, idexchBuild S m sk outcap = some buf ∧
      idexchParse S caps buf = some (m, m.payload.length) := by
  obtain ⟨sig, hlen, hsig, hverify⟩ := hsign (idexchFormat.bytes m)
  have hsizes : m.version.length < 256 ∧ m.account.length < 256 := by
    simp only [SignedFormat.Fits, idexchFormat, IdexchMsg.fields, forall₂_cons, FieldSpec.Fits,
      pow_one] at hm
    exact ⟨hm.2.2.2.2.1, hm.2.2.2.2.2.1⟩
  refine ⟨idexchMagic ++ (idexchFormat.bytes m ++ sig), ?_, ?_⟩
  · rw [idexchBuild, if_neg (by omega), if_neg (not_lt.mpr hcap), hsig, map_some]
  · have his : idexchIs (idexchMagic ++ (idexchFormat.bytes m ++ sig)) = true := by
      refine hasMagic_built ?_
      rw [length_append, hlen]
      omega
    rw [idexchParse, if_pos his, parse_built hm (by simp [hpaycap]) hlen hverify, map_some,
      IdexchMsg.copied, take_of_length_le (by omega), take_of_length_le (by omega),
      take_of_length_le hpaycap]

theorem nornIdexchParse_build {m : NornIdexchMsg} {paycap : ℕ} (hm : (nornIdexchFormat S).Fits m)
    (hpay : m.payload.length ≤ idexchPayloadMax)
    (hcap : nornIdexchNeed S m.payload.length ≤ outcap) (hsign : S.Signs S.sigLen m.pubkey sk)
    (hpaycap : m.payload.length ≤ paycap) : ∃ buf, nornIdexchBuild S m sk outcap = some buf ∧
      nornIdexchParse S paycap buf = some (m, m.payload.length) := by
  obtain ⟨sig, hlen, hsig, hverify⟩ := hsign ((nornIdexchFormat S).bytes m)
  refine ⟨idexchMagic ++ ((nornIdexchFormat S).bytes m ++ sig), ?_, ?_⟩
  · rw [nornIdexchBuild, if_neg (not_lt.mpr hpay), if_neg (not_lt.mpr hcap), hsig, map_some]
  · have hneed : nornIdexchNeed S 0 ≤
        (idexchMagic ++ ((nornIdexchFormat S).bytes m ++ sig)).length := by
      have hsizes := hm
      simp only [SignedFormat.Fits, nornIdexchFormat, nornIdexchLayout, NornIdexchMsg.fields,
        forall₂_cons, FieldSpec.Fits] at hsizes
      simp only [SignedFormat.bytes, nornIdexchFormat, nornIdexchLayout, NornIdexchMsg.fields,
        layoutBytes_cons, FieldSpec.bytes, length_append, length_bigEndian, hlen, nornIdexchNeed,
        idexchMagic, length_cons]
      omega
    rw [nornIdexchParse, if_pos ⟨hasMagic_built (Nat.le_add_right 4 _), hneed⟩,
      parse_built hm (by simp [hpaycap, hpay]) hlen hverify, map_some, NornIdexchMsg.copied,
      take_of_length_le hpaycap]

/-- What is built is read back, and the signed bytes determine what a parser returns. -/
theorem idexch_unambiguous (B S : SignSuite) :
    (∀ (m : IdexchMsg) (sk : Bytes) (outcap : ℕ) (caps : IdexchCaps), idexchFormat.Fits m →
      m.payload.length ≤ idexchPayloadMax → idexchNeed m ≤ outcap → B.Signs 64 m.pub sk →
      m.version.length < caps.version → m.account.length < caps.account →
      m.payload.length ≤ caps.payload → ∃ buf, idexchBuild B m sk outcap = some buf ∧
        idexchParse B caps buf = some (m, m.payload.length)) ∧
    (∀ (m : NornIdexchMsg) (secret : Bytes) (outcap paycap : ℕ), (nornIdexchFormat S).Fits m →
      m.payload.length ≤ idexchPayloadMax → nornIdexchNeed S m.payload.length ≤ outcap →
      S.Signs S.sigLen m.pubkey secret → m.payload.length ≤ paycap →
      ∃ buf, nornIdexchBuild S m secret outcap = some buf ∧
        nornIdexchParse S paycap buf = some (m, m.payload.length)) ∧
    (∀ caps, Unambiguous idexchFormat (idexchParse B caps)) ∧
    ∀ paycap, Unambiguous (nornIdexchFormat S) (nornIdexchParse S paycap) :=
  ⟨fun _ _ _ _ => idexchParse_build, fun _ _ _ _ => nornIdexchParse_build,
    unambiguous_idexchParse B, unambiguous_nornIdexchParse S⟩

def zeroSuite : SignSuite := ⟨32, 64, fun _ _ => some (replicate 64 0), fun _ _ _ => true⟩

theorem idexch_unambiguous_zeroSuite :
    (∃ buf, idexchBuild zeroSuite ⟨1, replicate 16 1, replicate 32 2, replicate 16 3, [4], [5, 6],
      [7]⟩ [] 1400 = some buf ∧ idexchParse zeroSuite ⟨32, 64, 1024⟩ buf = some (⟨1, replicate 16 1,
        replicate 32 2, replicate 16 3, [4], [5, 6], [7]⟩, 1)) ∧
    ∃ buf, nornIdexchBuild zeroSuite ⟨2, replicate 16 1, replicate 32 2, replicate 4 0, 80, [7]⟩ []
      1400 = some buf ∧ nornIdexchParse zeroSuite 1024 buf =
        some (⟨2, replicate 16 1, replicate 32 2, replicate 4 0, 80, [7]⟩, 1) := by
  have hsign (pub : Bytes) : zeroSuite.Signs 64 pub [] := fun _ => ⟨_, rfl, rfl, rfl⟩
  obtain ⟨hbuild, hbuild', -⟩ := idexch_unambiguous zeroSuite zeroSuite
  refine ⟨hbuild _ [] 1400 ⟨32, 64, 1024⟩ ?_ (by decide) (by decide) (hsign _) (by decide)
    (by decide) (by decide), hbuild' _ [] 1400 1024 ?_ (by decide) (by decide) (hsign _)
    (by decide)⟩
  · exact .cons rfl (.cons rfl (.cons rfl (.cons rfl
      (.cons (by decide) (.cons (by decide) (.cons (by decide) .nil))))))
  · exact .cons rfl (.cons rfl (.cons rfl (.cons rfl (.cons rfl (.cons (by decide) .nil)))))

end Norn
