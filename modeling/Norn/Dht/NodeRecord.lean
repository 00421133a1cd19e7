import Norn.Dht.BencodeRoundTrip

/-!
# Node records

The value that a node publishes about itself (`bep44.c`), in any version of the format.
-/

namespace Norn
open List

def bep44RecSvcMax : ℕ := 140

def fillZeros (size : ℕ) (front : Bytes) : Bytes := front ++ replicate (size - front.length) 0

structure Bep44Record where
  version : Bytes
  ip : Bytes
  port : ℕ
  ula : Bytes
  caps : ℕ
  hostPubkey : Bytes
  nodeId : Bytes
  routeIp : Bytes
  routePort : ℕ
  nsvc : ℕ
  svcLen : ℕ
  svc : Bytes

namespace Bep44Record

/-- The sizes of the C types, and a version that ends inside its array. -/
structure Valid (r : Bep44Record) : Prop where
  length_version : r.version.length = 24
  terminated : 0 ∈ r.version
  length_ip : r.ip.length = 4
  port_lt : r.port < 256 ^ 2
  length_ula : r.ula.length = 16
  caps_lt : r.caps < 256 ^ 4
  length_hostPubkey : r.hostPubkey.length = 32
  length_nodeId : r.nodeId.length = 20
  length_routeIp : r.routeIp.length = 4
  routePort_lt : r.routePort < 256 ^ 2
  nsvc_lt : r.nsvc < 256
  svcLen_lt : r.svcLen < 256 ^ 2
  length_svc : r.svc.length = bep44RecSvcMax

variable (r : Bep44Record)

def versionLength : ℕ := min (cString r.version).length 23

def haveSvc : Bool := 0 < r.nsvc && 0 < r.svcLen && r.svcLen ≤ bep44RecSvcMax

def base : Bytes :=
  UInt8.ofNat r.versionLength :: (r.version.take r.versionLength ++ (r.ip ++ (bigEndian 2 r.port ++
    (r.ula ++ (bigEndian 4 r.caps ++ r.hostPubkey)))))

def routeHint : Bytes := r.routeIp ++ bigEndian 2 r.routePort

def services : Bytes :=
  if r.haveSvc then UInt8.ofNat r.nsvc :: r.svc.take r.svcLen else []

end Bep44Record

def bep44RecordEncode (r : Bep44Record) (outcap : ℕ) : Option Bytes :=
  let need := 1 + r.versionLength + 4 + 2 + 16 + 4 + 32 + 20 + 6 +
    if r.haveSvc then 1 + r.svcLen else 0
  if outcap < need then none else some (r.base ++ (r.nodeId ++ (r.routeHint ++ r.services)))

def optionalField (n : ℕ) (rest : Bytes) : Bytes × Bytes :=
  if rest.length < n then (replicate n 0, rest) else (rest.take n, rest.drop n)

def decodeServices : Bytes → ℕ × Bytes
  | [] => (0, [])
  | n :: blob => (n.toNat, blob.take bep44RecSvcMax)

def bep44RecordDecode : Bytes → Option Bep44Record
  | [] => none
  | vl :: rest =>
    if 23 < vl.toNat ∨ rest.length < vl.toNat + 4 + 2 + 16 + 4 + 32 then none
    else
      let version := rest.take vl.toNat
      let rest := rest.drop vl.toNat
      let ip := rest.take 4
      let rest := rest.drop 4
      let port := fromBigEndian (rest.take 2)
      let rest := rest.drop 2
      let ula := rest.take 16
      let rest := rest.drop 16
      let caps := fromBigEndian (rest.take 4)
      let rest := rest.drop 4
      let hostPubkey := rest.take 32
      let nodeId := optionalField 20 (rest.drop 32)
      let route := optionalField 6 nodeId.2
      let services := decodeServices route.2
      some {
        version := fillZeros 24 version
        ip := ip
        port := port
        ula := ula
        caps := caps
        hostPubkey := hostPubkey
        nodeId := nodeId.1
        routeIp := route.1.take 4
        routePort := fromBigEndian (route.1.drop 4)
        nsvc := services.1
        svcLen := services.2.length
        svc := fillZeros bep44RecSvcMax services.2 }

namespace Bep44Record
variable (r : Bep44Record)

def dropServices : Bep44Record :=
  { r with nsvc := 0, svcLen := 0, svc := replicate bep44RecSvcMax 0 }

def dropRoute : Bep44Record :=
  { r.dropServices with routeIp := replicate 4 0, routePort := 0 }

def dropNodeId : Bep44Record :=
  { r.dropRoute with nodeId := replicate 20 0 }

def zeroed : Bep44Record :=
  if r.haveSvc then
    { r with
      version := fillZeros 24 (cString r.version)
      svc := fillZeros bep44RecSvcMax (r.svc.take r.svcLen) }
  else { r.dropServices with version := fillZeros 24 (cString r.version) }

end Bep44Record

theorem optionalField_append {n : ℕ} {field : Bytes} (h : field.length = n) (rest : Bytes) :
    optionalField n (field ++ rest) = (field, rest) := by
  rw [optionalField, if_neg (by rw [length_append]; omega), take_left' h,
    drop_left' h]

theorem fromBigEndian_bigEndian_of_lt {n v : ℕ} (h : v < 256 ^ n) :
    fromBigEndian (bigEndian n v) = v := by
  rw [fromBigEndian_bigEndian, Nat.mod_eq_of_lt h]

theorem take_length_cString (s : Bytes) : s.take (cString s).length = cString s :=
  (prefix_iff_eq_take.mp <| takeWhile_prefix _).symm

namespace Bep44Record
variable {r : Bep44Record}
section
variable (hr : r.Valid)
include hr

theorem Valid.versionLength_eq : r.versionLength = (cString r.version).length := by
  have h := length_cString_lt hr.terminated
  rw [hr.length_version] at h
  exact min_eq_left (by omega)

theorem Valid.take_versionLength : r.version.take r.versionLength = cString r.version := by
  rw [hr.versionLength_eq, take_length_cString]

theorem Valid.decode_base (tail : Bytes) : bep44RecordDecode (r.base ++ tail) =
      let nodeId := optionalField 20 tail
      let route := optionalField 6 nodeId.2
      let services := decodeServices route.2
      some { r with
        version := fillZeros 24 (cString r.version)
        nodeId := nodeId.1
        routeIp := route.1.take 4
        routePort := fromBigEndian (route.1.drop 4)
        nsvc := services.1
        svcLen := services.2.length
        svc := fillZeros bep44RecSvcMax services.2 } := by
  have hlen : (cString r.version).length = r.versionLength := hr.versionLength_eq.symm
  have hvl : r.versionLength ≤ 23 := min_le_right _ _
  have hbyte : (UInt8.ofNat r.versionLength).toNat = r.versionLength := by
    rw [UInt8.toNat_ofNat']
    omega
  unfold base bep44RecordDecode
  rw [hr.take_versionLength, cons_append]
  dsimp only
  rw [hbyte, if_neg]
  · simp only [append_assoc, take_left' hlen, drop_left' hlen,
      take_left' hr.length_ip, drop_left' hr.length_ip,
      take_left' (length_bigEndian 2 r.port), drop_left' (length_bigEndian 2 r.port),
      take_left' hr.length_ula, drop_left' hr.length_ula,
      take_left' (length_bigEndian 4 r.caps), drop_left' (length_bigEndian 4 r.caps),
      take_left' hr.length_hostPubkey, drop_left' hr.length_hostPubkey,
      fromBigEndian_bigEndian_of_lt hr.port_lt, fromBigEndian_bigEndian_of_lt hr.caps_lt]
  · simp only [length_append, hlen, hr.length_ip, hr.length_ula, hr.length_hostPubkey,
      length_bigEndian]
    omega

theorem Valid.length_routeHint : r.routeHint.length = 6 := by
  rw [routeHint, length_append, hr.length_routeIp, length_bigEndian]

theorem Valid.decode_first : bep44RecordDecode r.base = some r.zeroed.dropNodeId := by
  have h := hr.decode_base []
  rw [append_nil] at h
  rw [h, zeroed]
  split_ifs
  · rfl
  · rfl

theorem Valid.decode_nodeId : bep44RecordDecode (r.base ++ r.nodeId) = some r.zeroed.dropRoute := by
  have h := hr.decode_base (r.nodeId ++ [])
  rw [optionalField_append hr.length_nodeId, append_nil] at h
  rw [h, zeroed]
  split_ifs
  · rfl
  · rfl

theorem Valid.decode_routeHint (tail : Bytes) :
    bep44RecordDecode (r.base ++ (r.nodeId ++ (r.routeHint ++ tail))) =
      some { r with
        version := fillZeros 24 (cString r.version)
        nsvc := (decodeServices tail).1
        svcLen := (decodeServices tail).2.length
        svc := fillZeros bep44RecSvcMax (decodeServices tail).2 } := by
  rw [hr.decode_base, optionalField_append hr.length_nodeId]
  dsimp only
  rw [optionalField_append hr.length_routeHint]
  dsimp only
  rw [routeHint, take_left' hr.length_routeIp, drop_left' hr.length_routeIp,
    fromBigEndian_bigEndian_of_lt hr.routePort_lt]

theorem Valid.decodeServices_services (hsvc : r.haveSvc = true) :
    decodeServices r.services = (r.nsvc, r.svc.take r.svcLen) := by
  have hshort : (r.svc.take r.svcLen).length ≤ bep44RecSvcMax :=
    (length_take_le' _ _).trans_eq hr.length_svc
  rw [services, if_pos hsvc, decodeServices, take_of_length_le hshort, UInt8.toNat_ofNat',
    Nat.mod_eq_of_lt hr.nsvc_lt]

theorem Valid.decode_services :
    bep44RecordDecode (r.base ++ (r.nodeId ++ (r.routeHint ++ r.services))) = some r.zeroed := by
  rw [hr.decode_routeHint]
  by_cases hsvc : r.haveSvc = true
  · have hmax : r.svcLen ≤ bep44RecSvcMax := by
      simp only [haveSvc, Bool.and_eq_true, decide_eq_true_eq] at hsvc
      exact hsvc.2
    rw [hr.decodeServices_services hsvc, zeroed, if_pos hsvc,
      length_take_of_le (hmax.trans_eq hr.length_svc.symm)]
  · rw [services, if_neg hsvc, zeroed, if_neg hsvc]
    rfl

end
end Bep44Record

/-- Decoding gives the record back, and from an encoding of an older version what that version has.
-/
theorem record_decode_encode {r : Bep44Record} (hr : r.Valid) {outcap : ℕ} {data : Bytes}
    (h : bep44RecordEncode r outcap = some data) :
    bep44RecordDecode data = some r.zeroed ∧
    bep44RecordDecode (data.take r.base.length) = some r.zeroed.dropNodeId ∧
    bep44RecordDecode (data.take (r.base.length + 20)) = some r.zeroed.dropRoute ∧
    bep44RecordDecode (data.take (r.base.length + 26)) = some r.zeroed.dropServices := by
  rw [bep44RecordEncode, Option.ite_none_left_eq_some] at h
  obtain ⟨-, h⟩ := h
  obtain rfl := Option.some.inj h
  refine ⟨hr.decode_services, ?_, ?_, ?_⟩
  · rw [take_left, hr.decode_first]
  · rw [← append_assoc, take_left' (by rw [length_append, hr.length_nodeId]),
      hr.decode_nodeId]
  · rw [← append_assoc, ← append_assoc, take_left' (by
      rw [length_append, length_append, hr.length_nodeId, hr.length_routeHint])]
    have h := hr.decode_routeHint []
    rw [append_nil, ← append_assoc] at h
    rw [h, Bep44Record.zeroed]
    split_ifs
    · rfl
    · rfl

def smallRecord : Bep44Record where
  version := fillZeros 24 (text ['0', '.', '2', '2'])
  ip := [10, 0, 0, 1]
  port := 6881
  ula := replicate 16 1
  caps := 5
  hostPubkey := replicate 32 2
  nodeId := replicate 20 3
  routeIp := [10, 0, 0, 2]
  routePort := 4433
  nsvc := 1
  svcLen := 3
  svc := fillZeros bep44RecSvcMax [7, 8, 9]

theorem smallRecord_valid : smallRecord.Valid := by
  constructor <;> decide

theorem smallRecord_decode_encode : ∃ data, bep44RecordEncode smallRecord 256 = some data ∧
    bep44RecordDecode data = some smallRecord ∧
    bep44RecordDecode (data.take smallRecord.base.length) = some smallRecord.dropNodeId := by
  have h := record_decode_encode smallRecord_valid
    (show bep44RecordEncode smallRecord 256 = _ from rfl)
  exact ⟨_, rfl, h.1, h.2.1⟩

end Norn
