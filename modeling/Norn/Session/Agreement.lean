import Norn.Session.Handshake

/-!
# Agreement of the handshake

If the primitives obey their laws, two parties whose messages arrive unchanged agree on their keys.
-/

namespace Norn
open List Option Bool

/-- The laws of the primitives and the lengths of what they return; `signKeypair` makes a long-term
key pair from a seed. -/
structure Suite.Lawful (S : Suite Bytes) (signKeypair : Bytes → Bytes × Bytes) : Prop where
  join (a b : Bytes) : S.join a b = a ++ b
  kx_length {seed : Bytes} : seed.length = 32 → (S.kxKeypair seed).1.length = 32
  /-- What one side sends with, the other receives with. -/
  kx_agree {a b : Bytes} : a.length = 32 → b.length = 32 → ∃ k₁ k₂ : Bytes,
    k₁.length = 32 ∧ k₂.length = 32 ∧
    S.kxClient (S.kxKeypair a).1 (S.kxKeypair a).2 (S.kxKeypair b).1 = some (k₁, k₂) ∧
    S.kxServer (S.kxKeypair b).1 (S.kxKeypair b).2 (S.kxKeypair a).1 = some (k₂, k₁)
  sign_pub_length {seed : Bytes} : seed.length = 32 → (signKeypair seed).1.length = 32
  sign_length (secret msg : Bytes) : (S.sign secret msg).length = 64
  verify_sign {seed : Bytes} (msg : Bytes) : seed.length = 32 →
    S.verify (signKeypair seed).1 msg (S.sign (signKeypair seed).2 msg) = true
  box_length {key nonce : Bytes} (pt : Bytes) : key.length = 32 → nonce.length = 24 →
    (S.secretbox key nonce pt).length = channelOverhead + pt.length
  open_box {key nonce : Bytes} (pt : Bytes) : key.length = 32 → nonce.length = 24 →
    S.secretboxOpen key (S.secretbox key nonce pt) = some pt

section
variable (S : Suite Bytes)

def channelHsBuildInitEx (selfPub : Bytes) (msgType : UInt8) (seed : Bytes) (outcap : ℕ) :
    Option (Channel Bytes × Bytes) :=
  if outcap < channelInitLen then none
  else
    let c := channelGenEphemeral S seed
    some (c, channelMagic ++ msgType :: (selfPub ++ c.ephPub))

def channelHsAcceptBytes (c : Channel Bytes) (selfPub : Bytes) (sign : Bytes → Option Bytes)
    (seed initMsg : Bytes) (outcap : ℕ) : Channel Bytes × Option (Bytes × Bytes) :=
  if outcap < channelRespLen then (c, none)
  else match parseInit initMsg with
    | none => (c, none)
    | some init =>
      let out := channelHsAcceptSigned S selfPub sign seed init
      (out.1, out.2.map fun resp => (init.pub, encodeResp resp))

def channelHsConfirmBytes (c : Channel Bytes) (sign : Bytes → Option Bytes)
    (nonce respMsg : Bytes) (outcap : ℕ) : Channel Bytes × Option (Bytes × Bytes) :=
  if outcap < channelConfirmLen then (c, none)
  else match parseResp respMsg with
    | none => (c, none)
    | some resp =>
      let out := channelHsConfirmSigned S c sign nonce resp
      (out.1, out.2.map fun box => (resp.pub, encodeConfirm box))

def channelHsFinishBytes (c : Channel Bytes) (initPub confirmMsg : Bytes) : Bool :=
  (parseConfirm confirmMsg).any (channelHsFinish S c initPub)

end

def memcmpPos : Bytes → Bytes → Bool
  | a :: as, b :: bs => if a = b then memcmpPos as bs else b < a
  | _, _ => false

def resumeLabel : Bytes := [110, 111, 114, 110, 45, 114, 101, 115, 117, 109, 101, 45, 118, 49]

/-- The smaller key goes first, so that the order of the two does not matter. -/
def channelResumptionSecret (hash : Bytes → Bytes) (c : Channel Bytes) : Option Bytes :=
  if c.established then
    some (hash (resumeLabel ++ (if memcmpPos c.rxKey c.txKey then c.txKey ++ c.rxKey
      else c.rxKey ++ c.txKey)))
  else none

variable {pub : Bytes} {c c' : Channel Bytes}

theorem parseInit_encode {eph : Bytes} {t : UInt8} (hpub : pub.length = 32) (heph : eph.length = 32)
    (ht : t = channelMsgInit ∨ t = channelMsgInitVpn) :
    parseInit (channelMagic ++ t :: (pub ++ eph)) = some ⟨pub, eph⟩ := by
  have hfirst := slice_append (channelMagic ++ [t]) pub eph
  have hsecond := slice_append (channelMagic ++ t :: pub) eph []
  simp only [channelMagic, cons_append, nil_append, append_nil, length_cons,
    length_nil, hpub, heph] at hfirst hsecond
  unfold parseInit
  rw [if_pos]
  · simp only [channelMagic, cons_append, nil_append]
    rw [hfirst, hsecond]
  · exact ⟨by simp [channelMagic, channelInitLen, hpub, heph], rfl, ht⟩

theorem parseResp_encode {m : RespMsg Bytes} (hpub : m.pub.length = 32) (heph : m.eph.length = 32)
    (hsig : m.sig.length = 64) : parseResp (encodeResp m) = some m := by
  have hfirst := slice_append (channelMagic ++ [channelMsgResp]) m.pub (m.eph ++ m.sig)
  have hsecond := slice_append (channelMagic ++ channelMsgResp :: m.pub) m.eph m.sig
  have hthird := slice_append (channelMagic ++ channelMsgResp :: (m.pub ++ m.eph)) m.sig []
  simp only [channelMagic, cons_append, nil_append, append_assoc, append_nil,
    length_cons, length_nil, length_append, hpub, heph, hsig] at hfirst hsecond hthird
  unfold parseResp encodeResp
  rw [if_pos]
  · simp only [channelMagic, cons_append, nil_append]
    rw [hfirst, hsecond, hthird]
  · exact ⟨by simp [channelMagic, channelRespLen, hpub, heph, hsig], rfl, rfl⟩

theorem parseConfirm_encode {box : Bytes} (h : box.length = 104) :
    parseConfirm (encodeConfirm box) = some box := by
  unfold parseConfirm encodeConfirm
  rw [if_pos]
  · rfl
  · exact ⟨by simp [channelMagic, channelConfirmLen, h], rfl, rfl⟩

theorem memcmpPos_swap {a b : Bytes} (hlen : a.length = b.length) (hne : a ≠ b) :
    memcmpPos a b = !memcmpPos b a := by
  induction a generalizing b with
  | nil => exact absurd (length_eq_zero_iff.mp hlen.symm).symm hne
  | cons x xs ih =>
    cases b with
    | nil => cases hlen
    | cons y ys =>
      rw [memcmpPos, memcmpPos]
      by_cases hxy : x = y
      · rw [if_pos hxy, if_pos hxy.symm]
        refine ih (Nat.succ.inj hlen) fun heq => hne ?_
        rw [hxy, heq]
      · rw [if_neg hxy, if_neg (Ne.symm hxy), ← decide_not]
        apply decide_eq_decide.mpr
        rw [UInt8.lt_iff_toNat_lt, UInt8.lt_iff_toNat_lt]
        have : x.toNat ≠ y.toNat := fun h => hxy (UInt8.toNat_inj.mp h)
        omega

theorem resumption_agree (hash : Bytes → Bytes) (hc : c.established = true)
    (hc' : c'.established = true) (htx : c.txKey = c'.rxKey) (hrx : c.rxKey = c'.txKey)
    (hlen : c.rxKey.length = c.txKey.length) :
    channelResumptionSecret hash c = channelResumptionSecret hash c' := by
  unfold channelResumptionSecret
  rw [if_pos hc, if_pos hc', ← htx, ← hrx]
  by_cases heq : c.rxKey = c.txKey
  · rw [heq]
  · rw [memcmpPos_swap hlen heq]
    cases memcmpPos c.txKey c.rxKey <;> rfl

section
variable {S : Suite Bytes} {signKeypair : Bytes → Bytes × Bytes}

structure KeysAgree (S : Suite Bytes) (seedI seedR : Bytes) (cI cR : Channel Bytes) : Prop where
  deriveI : channelDerive S (channelGenEphemeral S seedI) (S.kxKeypair seedR).1 true = some cI
  deriveR : channelDerive S (channelGenEphemeral S seedR) (S.kxKeypair seedI).1 false = some cR
  tx : cI.txKey = cR.rxKey
  rx : cI.rxKey = cR.txKey
  tx_length : cI.txKey.length = 32
  rx_length : cI.rxKey.length = 32

theorem Suite.Lawful.derive (hS : S.Lawful signKeypair) {seedI seedR : Bytes}
    (hI : seedI.length = 32) (hR : seedR.length = 32) : ∃ cI cR, KeysAgree S seedI seedR cI cR := by
  obtain ⟨k₁, k₂, hk₁, hk₂, hclient, hserver⟩ := hS.kx_agree hI hR
  refine ⟨{ channelGenEphemeral S seedI with
    rxKey := k₁, txKey := k₂, peerEph := (S.kxKeypair seedR).1, isInitiator := true,
    established := true }, { channelGenEphemeral S seedR with
    rxKey := k₂, txKey := k₁, peerEph := (S.kxKeypair seedI).1, isInitiator := false,
    established := true }, ?_, ?_, rfl, rfl, hk₂, hk₁⟩
  · rw [channelDerive, if_pos rfl]
    simp only [channelGenEphemeral, hclient, Option.map_some]
  · rw [channelDerive, if_neg Bool.false_ne_true]
    simp only [channelGenEphemeral, hserver, Option.map_some]

namespace KeysAgree
variable {seedI seedR : Bytes} {cI cR : Channel Bytes} (hkeys : KeysAgree S seedI seedR cI cR)
  (hS : S.Lawful signKeypair)
include hkeys hS

theorem accept (pubI pubR secretR : Bytes) :
    channelHsAcceptSigned S pubR (secretSigner S secretR) seedR ⟨pubI, (S.kxKeypair seedI).1⟩ =
      (cR, some ⟨pubR, (S.kxKeypair seedR).1,
        S.sign secretR ((S.kxKeypair seedI).1 ++ (S.kxKeypair seedR).1)⟩) := by
  obtain ⟨_, heph, _⟩ := channelDerive_spec hkeys.deriveR
  change cR.ephPub = (S.kxKeypair seedR).1 at heph
  simp only [channelHsAcceptSigned, hkeys.deriveR, authSignWith, secretSigner, heph, hS.join,
    map_some]

theorem confirm {idR : Bytes} (hidR : idR.length = 32) (secretI nonce : Bytes) :
    channelHsConfirmSigned S (channelGenEphemeral S seedI) (secretSigner S secretI) nonce
      ⟨(signKeypair idR).1, (S.kxKeypair seedR).1,
        S.sign (signKeypair idR).2 ((S.kxKeypair seedI).1 ++ (S.kxKeypair seedR).1)⟩ =
      (cI, some (S.secretbox cI.txKey nonce
        (S.sign secretI ((S.kxKeypair seedI).1 ++ (S.kxKeypair seedR).1)))) := by
  obtain ⟨_, heph, _⟩ := channelDerive_spec hkeys.deriveI
  change cI.ephPub = (S.kxKeypair seedI).1 at heph
  rw [channelHsConfirmSigned, if_pos]
  · simp only [hkeys.deriveI, authSignWith, secretSigner, heph, hS.join, map_some]
  · rw [channelAuthVerify, hS.join]
    exact hS.verify_sign _ hidR

theorem finish {idI nonce : Bytes} (hidI : idI.length = 32) (hnonce : nonce.length = 24) :
    channelHsFinish S cR (signKeypair idI).1 (S.secretbox cI.txKey nonce
      (S.sign (signKeypair idI).2 ((S.kxKeypair seedI).1 ++ (S.kxKeypair seedR).1))) = true := by
  obtain ⟨_, heph, _, hpeer, hrole, hest⟩ := channelDerive_spec hkeys.deriveR
  change cR.ephPub = (S.kxKeypair seedR).1 at heph
  rw [channelHsFinish, hest, Bool.true_and, ← hkeys.tx, hS.open_box _ hkeys.tx_length hnonce]
  simp only [Option.any_some, channelTranscript, hrole, hpeer, heph, channelAuthVerify, hS.join]
  exact hS.verify_sign _ hidI

end KeysAgree

variable {sign : Bytes → Option Bytes} {cap : ℕ}

theorem channelHsConfirmBytes_some {nonce d out : Bytes}
    (h : channelHsConfirmBytes S c sign nonce d cap = (c', some (pub, out))) :
    ∃ resp box, parseResp d = some resp ∧ pub = resp.pub ∧
      channelHsConfirmSigned S c sign nonce resp = (c', some box) := by
  unfold channelHsConfirmBytes at h
  split_ifs at h with hcap
  · cases h
  · cases hparse : parseResp d with
    | none =>
      rw [hparse] at h
      cases h
    | some resp =>
      rw [hparse] at h
      simp only [Prod.mk.injEq, map_eq_some_iff] at h
      obtain ⟨hc, box, hbox, hpub, _⟩ := h
      exact ⟨resp, box, rfl, hpub.symm, Prod.ext hc hbox⟩

theorem confirm_sound (hS : S.Lawful signKeypair) {nonce d out : Bytes}
    (h : channelHsConfirmBytes S c sign nonce d cap = (c', some (pub, out))) :
    pub = slice d 5 32 ∧ c'.ephPub = c.ephPub ∧ c'.peerEph = slice d 37 32 ∧
      S.verify pub (c'.ephPub ++ c'.peerEph) (slice d 69 64) = true := by
  obtain ⟨resp, box, hparse, rfl, hconfirm⟩ := channelHsConfirmBytes_some h
  obtain ⟨hverify, hderive, _⟩ := channelHsConfirmSigned_some hconfirm
  obtain ⟨_, heph, _, hpeer, _⟩ := channelDerive_spec hderive
  unfold parseResp at hparse
  split_ifs at hparse with hguard
  obtain rfl := some.inj hparse
  rw [channelAuthVerify, hS.join] at hverify
  refine ⟨rfl, heph, hpeer, ?_⟩
  rw [heph, hpeer]
  exact hverify

theorem finish_sound (hS : S.Lawful signKeypair) {d : Bytes}
    (h : channelHsFinishBytes S c pub d = true) :
    ∃ sig, S.secretboxOpen c.rxKey (d.drop 5) = some sig ∧ S.verify pub
      (if c.isInitiator then c.ephPub ++ c.peerEph else c.peerEph ++ c.ephPub) sig = true := by
  obtain ⟨box, hparse, hfinish⟩ := (any_eq_true _ _).mp h
  unfold parseConfirm at hparse
  split_ifs at hparse with hguard
  obtain rfl := some.inj hparse
  rw [channelHsFinish, and_eq_true] at hfinish
  obtain ⟨sig, hopen, hverify⟩ := (any_eq_true _ _).mp hfinish.2
  refine ⟨sig, hopen, ?_⟩
  rw [channelAuthVerify, hS.join, channelTranscript] at hverify
  split_ifs at hverify ⊢ <;> exact hverify

/-- Two honest parties get matching keys, and who accepts has a signature of the two ephemeral keys
under the key it reports. -/
theorem handshake_agrees_and_is_sound (hS : S.Lawful signKeypair) (hash : Bytes → Bytes) :
    (∀ (idI idR seedI seedR nonce : Bytes) (msgType : UInt8) (cR₀ : Channel Bytes)
        (capInit capResp capConfirm : ℕ), idI.length = 32 → idR.length = 32 →
      seedI.length = 32 → seedR.length = 32 → nonce.length = 24 →
      msgType = channelMsgInit ∨ msgType = channelMsgInitVpn →
      channelInitLen ≤ capInit → channelRespLen ≤ capResp → channelConfirmLen ≤ capConfirm →
      ∃ cI₀ initMsg cR respMsg cI confirmMsg secret,
        channelHsBuildInitEx S (signKeypair idI).1 msgType seedI capInit = some (cI₀, initMsg) ∧
        channelHsAcceptBytes S cR₀ (signKeypair idR).1 (secretSigner S (signKeypair idR).2) seedR
          initMsg capResp = (cR, some ((signKeypair idI).1, respMsg)) ∧
        channelHsConfirmBytes S cI₀ (secretSigner S (signKeypair idI).2) nonce respMsg
          capConfirm = (cI, some ((signKeypair idR).1, confirmMsg)) ∧
        channelHsFinishBytes S cR (signKeypair idI).1 confirmMsg = true ∧
        cI.txKey = cR.rxKey ∧ cI.rxKey = cR.txKey ∧
        channelResumptionSecret hash cI = some secret ∧
        channelResumptionSecret hash cR = some secret) ∧
    (∀ (c c' : Channel Bytes) (sign : Bytes → Option Bytes) (nonce d pub out : Bytes) (cap : ℕ),
      channelHsConfirmBytes S c sign nonce d cap = (c', some (pub, out)) →
      pub = slice d 5 32 ∧ c'.ephPub = c.ephPub ∧ c'.peerEph = slice d 37 32 ∧
        S.verify pub (c'.ephPub ++ c'.peerEph) (slice d 69 64) = true) ∧
    (∀ (c : Channel Bytes) (pub d : Bytes), channelHsFinishBytes S c pub d = true →
      ∃ sig, S.secretboxOpen c.rxKey (d.drop 5) = some sig ∧ S.verify pub
        (if c.isInitiator then c.ephPub ++ c.peerEph else c.peerEph ++ c.ephPub) sig = true) := by
  refine ⟨?_, fun _ _ _ _ _ _ _ _ => confirm_sound hS, fun _ _ _ => finish_sound hS⟩
  intro idI idR seedI seedR nonce msgType cR₀ capInit capResp capConfirm hidI hidR hseedI hseedR
    hnonce htype hcapInit hcapResp hcapConfirm
  obtain ⟨cI, cR, hkeys⟩ := hS.derive hseedI hseedR
  have hestI := (channelDerive_spec hkeys.deriveI).2.2.2.2.2
  have hestR := (channelDerive_spec hkeys.deriveR).2.2.2.2.2
  let transcript := (S.kxKeypair seedI).1 ++ (S.kxKeypair seedR).1
  let resp : RespMsg Bytes :=
    ⟨(signKeypair idR).1, (S.kxKeypair seedR).1, S.sign (signKeypair idR).2 transcript⟩
  let box := S.secretbox cI.txKey nonce (S.sign (signKeypair idI).2 transcript)
  have hboxlen : box.length = 104 := by
    rw [hS.box_length _ hkeys.tx_length hnonce, hS.sign_length, channelOverhead]
  refine ⟨channelGenEphemeral S seedI, _, cR, encodeResp resp, cI, encodeConfirm box, _,
    if_neg (by omega), ?_, ?_, ?_, hkeys.tx, hkeys.rx, if_pos hestI, ?_⟩
  · rw [channelHsAcceptBytes, if_neg (by omega)]
    have hparse := parseInit_encode (hS.sign_pub_length hidI) (hS.kx_length hseedI) htype
    simp only [channelGenEphemeral, hparse, hkeys.accept hS, map_some]
    rfl
  · rw [channelHsConfirmBytes, if_neg (by omega), parseResp_encode (hS.sign_pub_length hidR)
      (hS.kx_length hseedR) (hS.sign_length _ _)]
    simp only [resp, transcript, hkeys.confirm hS hidR, map_some]
    rfl
  · rw [channelHsFinishBytes, parseConfirm_encode hboxlen]
    exact hkeys.finish hS hidI hnonce
  · have hlength := hkeys.rx_length.trans hkeys.tx_length.symm
    rw [← resumption_agree hash hestI hestR hkeys.tx hkeys.rx hlength]
    exact if_pos hestI

end

def paddedSuite : Suite Bytes where
  zero := replicate 32 0
  kxKeypair seed := (seed, seed)
  kxClient pub _ peer := some (peer.take 16 ++ pub.take 16, pub.take 16 ++ peer.take 16)
  kxServer pub _ peer := some (peer.take 16 ++ pub.take 16, pub.take 16 ++ peer.take 16)
  join a b := a ++ b
  sign _ msg := (msg ++ replicate 64 0).take 64
  verify _ msg sig := (msg ++ replicate 64 0).take 64 == sig
  secretbox key nonce pt := nonce ++ (pt ++ key.take 16)
  secretboxOpen key ct :=
    if ct.drop (ct.length - 16) = key.take 16 then some (slice ct 24 (ct.length - 40)) else none

theorem paddedSuite_lawful : paddedSuite.Lawful fun seed => (seed, seed) where
  join _ _ := rfl
  kx_length h := h
  kx_agree {a b} ha hb := ⟨b.take 16 ++ a.take 16, a.take 16 ++ b.take 16, by simp [ha, hb],
    by simp [ha, hb], rfl, rfl⟩
  sign_pub_length h := h
  sign_length _ msg := by simp [paddedSuite]
  verify_sign msg _ := by simp [paddedSuite]
  box_length pt hkey hnonce := by
    simp [paddedSuite, channelOverhead, hkey, hnonce]
    omega
  open_box {key nonce} pt hkey hnonce := by
    have hlen : (nonce ++ (pt ++ key.take 16)).length = 40 + pt.length := by
      simp [hkey, hnonce]
      omega
    have hdrop : (nonce ++ (pt ++ key.take 16)).drop (24 + pt.length) = key.take 16 := by
      rw [← append_assoc]
      exact drop_left' (by simp [hnonce])
    have hslice : slice (nonce ++ (pt ++ key.take 16)) 24 pt.length = pt := by
      rw [← hnonce]
      exact slice_append nonce pt _
    simp only [paddedSuite, hlen]
    rw [show 40 + pt.length - 16 = 24 + pt.length by omega, if_pos hdrop, Nat.add_sub_cancel_left,
      hslice]

def firstParty : Bytes := replicate 32 1
def secondParty : Bytes := replicate 32 2

theorem paddedSuite_agrees : ∃ cI₀ initMsg cR respMsg cI confirmMsg secret,
    channelHsBuildInitEx paddedSuite firstParty channelMsgInit firstParty 69 =
      some (cI₀, initMsg) ∧
    channelHsAcceptBytes paddedSuite cI₀ secondParty (secretSigner paddedSuite secondParty)
      secondParty initMsg 133 = (cR, some (firstParty, respMsg)) ∧
    channelHsConfirmBytes paddedSuite cI₀ (secretSigner paddedSuite firstParty)
      (replicate 24 0) respMsg 109 = (cI, some (secondParty, confirmMsg)) ∧
    channelHsFinishBytes paddedSuite cR firstParty confirmMsg = true ∧
    cI.txKey = cR.rxKey ∧ cI.rxKey = cR.txKey ∧
    channelResumptionSecret id cI = some secret ∧ channelResumptionSecret id cR = some secret := by
  obtain ⟨cI₀, initMsg, cR, respMsg, cI, confirmMsg, secret, hbuild, hrest⟩ :=
    (handshake_agrees_and_is_sound paddedSuite_lawful id).1 firstParty secondParty firstParty
      secondParty (replicate 24 0) channelMsgInit (channelGenEphemeral paddedSuite firstParty)
      69 133 109 rfl rfl rfl rfl rfl (.inl rfl) le_rfl le_rfl le_rfl
  obtain rfl : channelGenEphemeral paddedSuite firstParty = cI₀ :=
    congrArg Prod.fst (some.inj hbuild)
  exact ⟨_, initMsg, cR, respMsg, cI, confirmMsg, secret, hbuild, hrest⟩

end Norn
