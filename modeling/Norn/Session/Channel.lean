import Norn.Lib.Bytes

/-!
# The handshake of the secure channel

The key agreement and the three handshake messages of `channel.c`. The primitives are given by a
`Suite` over a type of values: byte strings, or terms where an ideal library is assumed. What is
drawn at random is an argument. A function that fails returns the channel as it has changed it.
-/

namespace Norn

/-- The primitives: key exchange, signatures and authenticated encryption. -/
structure Suite (T : Type) where
  /-- The value of cleared memory. -/
  zero : T
  /-- The public and the secret key of a seed. -/
  kxKeypair : T → T × T
  /-- Receiving and sending key of the client from its key pair and the server's public key. -/
  kxClient : T → T → T → Option (T × T)
  kxServer : T → T → T → Option (T × T)
  join : T → T → T
  sign : T → T → T
  /-- Public key, message, signature. -/
  verify : T → T → T → Bool
  /-- Key, nonce, plaintext. -/
  secretbox : T → T → T → T
  /-- Key, ciphertext. -/
  secretboxOpen : T → T → Option T

structure Channel (T : Type) where
  ephPub : T
  ephSec : T
  peerEph : T
  rxKey : T
  txKey : T
  isInitiator : Bool
  established : Bool

structure InitMsg (T : Type) where
  pub : T
  eph : T

structure RespMsg (T : Type) where
  pub : T
  eph : T
  sig : T
  deriving DecidableEq

section
variable {T : Type} (S : Suite T)

def channelGenEphemeral (seed : T) : Channel T where
  ephPub := (S.kxKeypair seed).1
  ephSec := (S.kxKeypair seed).2
  peerEph := S.zero
  rxKey := S.zero
  txKey := S.zero
  isInitiator := false
  established := false

def channelDerive (c : Channel T) (peerEph : T) (isInitiator : Bool) : Option (Channel T) :=
  (if isInitiator then S.kxClient c.ephPub c.ephSec peerEph
    else S.kxServer c.ephPub c.ephSec peerEph).map fun keys =>
    { c with
      rxKey := keys.1
      txKey := keys.2
      peerEph := peerEph
      isInitiator := isInitiator
      established := true }

def authSignWith (sign : T → Option T) (initEph respEph : T) : Option T :=
  sign (S.join initEph respEph)

def secretSigner (secret : T) : T → Option T := fun msg => some (S.sign secret msg)

def channelAuthVerify (sig peerPk initEph respEph : T) : Bool :=
  S.verify peerPk (S.join initEph respEph) sig

def channelTranscript (c : Channel T) : T × T :=
  if c.isInitiator then (c.ephPub, c.peerEph) else (c.peerEph, c.ephPub)

def channelHsBuildInit (selfPub seed : T) : Channel T × InitMsg T :=
  (channelGenEphemeral S seed, ⟨selfPub, (channelGenEphemeral S seed).ephPub⟩)

def channelHsAcceptSigned (selfPub : T) (sign : T → Option T) (seed : T) (init : InitMsg T) :
    Channel T × Option (RespMsg T) :=
  match channelDerive S (channelGenEphemeral S seed) init.eph false with
  | none => (channelGenEphemeral S seed, none)
  | some c => (c, (authSignWith S sign init.eph c.ephPub).map fun sig => ⟨selfPub, c.ephPub, sig⟩)

def channelHsConfirmSigned (c : Channel T) (sign : T → Option T) (nonce : T) (resp : RespMsg T) :
    Channel T × Option T :=
  if channelAuthVerify S resp.sig resp.pub c.ephPub resp.eph then
    match channelDerive S c resp.eph true with
    | none => (c, none)
    | some c =>
      (c, (authSignWith S sign c.ephPub resp.eph).map fun sig => S.secretbox c.txKey nonce sig)
  else (c, none)

def channelHsFinish (c : Channel T) (initPub box : T) : Bool :=
  c.established && (S.secretboxOpen c.rxKey box).any fun sig =>
    channelAuthVerify S sig initPub (channelTranscript c).1 (channelTranscript c).2

end

def channelOverhead : ℕ := 40
def channelMagic : Bytes := [0x44, 0x48, 0x43, 0x48]
def channelMsgInit : UInt8 := 1
def channelMsgResp : UInt8 := 2
def channelMsgConfirm : UInt8 := 3
def channelMsgInitVpn : UInt8 := 5
def channelInitLen : ℕ := 69
def channelRespLen : ℕ := 133
def channelConfirmLen : ℕ := 109

def channelOpen (S : Suite Bytes) (c : Channel Bytes) (ct : Bytes) (cap : ℕ) : Option Bytes :=
  if c.established = false ∨ ct.length < channelOverhead ∨ cap < ct.length - channelOverhead then
    none
  else S.secretboxOpen c.rxKey ct

def encodeInit (m : InitMsg Bytes) : Bytes := channelMagic ++ channelMsgInit :: (m.pub ++ m.eph)

def encodeResp (m : RespMsg Bytes) : Bytes :=
  channelMagic ++ channelMsgResp :: (m.pub ++ (m.eph ++ m.sig))

def encodeConfirm (box : Bytes) : Bytes := channelMagic ++ channelMsgConfirm :: box

def parseInit (d : Bytes) : Option (InitMsg Bytes) :=
  if d.length = channelInitLen ∧ d.take 4 = channelMagic ∧
      (d.getD 4 0 = channelMsgInit ∨ d.getD 4 0 = channelMsgInitVpn) then
    some ⟨slice d 5 32, slice d 37 32⟩
  else none

def parseResp (d : Bytes) : Option (RespMsg Bytes) :=
  if d.length = channelRespLen ∧ d.take 4 = channelMagic ∧ d.getD 4 0 = channelMsgResp then
    some ⟨slice d 5 32, slice d 37 32, slice d 69 64⟩
  else none

def parseConfirm (d : Bytes) : Option Bytes :=
  if d.length = channelConfirmLen ∧ d.take 4 = channelMagic ∧ d.getD 4 0 = channelMsgConfirm then
    some (d.drop 5)
  else none

/-- Keeps nothing secret but obeys the laws of the primitives, to run the model with. -/
def plainSuite : Suite Bytes where
  zero := List.replicate 32 0
  kxKeypair seed := (seed, seed)
  kxClient pub _ peer := some (peer ++ pub, pub ++ peer)
  kxServer pub _ peer := some (peer ++ pub, pub ++ peer)
  join a b := a ++ b
  sign _ msg := msg
  verify _ msg sig := msg == sig
  secretbox key nonce pt := nonce ++ (pt ++ key.take 16)
  secretboxOpen key ct :=
    if ct.drop (ct.length - 16) = key.take 16 then some (slice ct 24 (ct.length - 40)) else none

end Norn
