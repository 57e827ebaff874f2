import Mathlib.Data.List.GetD

/-! # The metadata of an endpoint

    `Endpoint::get_metadata` (p2p/engine.cc) writes the address of the endpoint, its port in network order, and the bus
    id of its GPU behind a length byte. The family of the address is not written: `parse_metadata` takes a record for an
    IPv4 one when byte 6 announces the length that it has. In an IPv6 record this is a byte of the address, so a record
    is read back exactly when that byte is not the length of the bus id plus 12 (`parseMetadata_getMetadata_iff`). -/

namespace P2pMetadata

open List

inductive Family
  | ipv4
  | ipv6
  deriving DecidableEq

/-- `ip_len` -/
def Family.ipLen : Family → ℕ
  | .ipv4 => 4
  | .ipv6 => 16

/-- An address as `inet_pton` fills it in from a text and `inet_ntop` prints it. -/
structure Ip where
  family : Family
  bytes : List (BitVec 8)
  length_bytes : bytes.length = family.ipLen

structure Parsed where
  family : Family
  bytes : List (BitVec 8)
  port : BitVec 16
  gpuBdf : List (BitVec 8)

def getMetadata (ip : Ip) (port : BitVec 16) (gpuBusId : List (BitVec 8)) : List (BitVec 8) :=
  let bdfLen := BitVec.ofNat 8 gpuBusId.length
  ip.bytes ++ port.extractLsb' 8 8 :: port.extractLsb' 0 8 :: bdfLen :: gpuBusId.take bdfLen.toNat

/-- The fields of a record whose family has been found. -/
def fields (metadata : List (BitVec 8)) (family : Family) : Parsed :=
  let rest := metadata.drop family.ipLen
  ⟨family, metadata.take family.ipLen, rest.getD 0 0 ++ rest.getD 1 0, (rest.drop 3).take (rest.getD 2 0).toNat⟩

def parseMetadata (metadata : List (BitVec 8)) : Except String Parsed :=
  let size := metadata.length
  if size < 7 then .error ("Metadata too short: " ++ toString size)
  else if size = 4 + 2 + 1 + (metadata.getD 6 0).toNat then .ok (fields metadata .ipv4)
  else if size < 19 then .error ("Metadata too short for IPv6: " ++ toString size)
  else
    let bdfLenV6 := (metadata.getD 18 0).toNat
    if size ≠ 19 + bdfLenV6 then
      .error ("Metadata size mismatch for IPv6: got " ++ toString size ++ ", expected " ++ toString (19 + bdfLenV6))
    else .ok (fields metadata .ipv6)

section

variable (ip : Ip) (port : BitVec 16) (gpuBusId : List (BitVec 8)) (h : gpuBusId.length ≤ 255)

theorem port_bytes : port.extractLsb' 8 8 ++ port.extractLsb' 0 8 = port := by
  rw [BitVec.extractLsb'_append_extractLsb'_eq_extractLsb' (Nat.zero_add 8).symm]
  exact BitVec.extractLsb'_eq_self

include h

theorem getMetadata_eq : getMetadata ip port gpuBusId = ip.bytes ++ port.extractLsb' 8 8 ::
    port.extractLsb' 0 8 :: BitVec.ofNat 8 gpuBusId.length :: gpuBusId := by
  have htake : gpuBusId.length ≤ gpuBusId.length % 256 := by omega
  simp [getMetadata, take_of_length_le htake]

/-- With the right family, the fields are those that were written. -/
theorem fields_getMetadata :
    fields (getMetadata ip port gpuBusId) ip.family = ⟨ip.family, ip.bytes, port, gpuBusId⟩ := by
  have htake : gpuBusId.length ≤ gpuBusId.length % 256 := by omega
  simp [fields, getMetadata_eq ip port gpuBusId h, take_left' ip.length_bytes,
    drop_left' ip.length_bytes, port_bytes, take_of_length_le htake]

/-- **THE ROUND TRIP**, for every address, every port and every bus id of at most 255 bytes. -/
theorem parseMetadata_getMetadata_iff :
    parseMetadata (getMetadata ip port gpuBusId) = .ok ⟨ip.family, ip.bytes, port, gpuBusId⟩ ↔
      ¬ (ip.family = .ipv6 ∧ (ip.bytes.getD 6 0).toNat = gpuBusId.length + 12) := by
  have hfields := fields_getMetadata ip port gpuBusId h
  have hip := ip.length_bytes
  have hmod : gpuBusId.length % 256 = gpuBusId.length := by omega
  have hsize : (getMetadata ip port gpuBusId).length = ip.family.ipLen + (gpuBusId.length + 3) := by
    simp [getMetadata_eq ip port gpuBusId h, hip]
  have hlen : ((getMetadata ip port gpuBusId).getD (ip.family.ipLen + 2) 0).toNat = gpuBusId.length := by
    simp [getMetadata_eq ip port gpuBusId h, ← hip, hmod]
  unfold parseMetadata
  cases hf : ip.family with
  | ipv4 =>
    rw [hf] at hsize hlen hfields
    simp only [Family.ipLen, Nat.reduceAdd] at hsize hlen
    rw [if_neg (by omega), if_pos (by omega), hfields]
    simp
  | ipv6 =>
    have hsix : (getMetadata ip port gpuBusId).getD 6 0 = ip.bytes.getD 6 0 := by
      simp [getMetadata_eq ip port gpuBusId h, getElem?_append, hip, hf, Family.ipLen]
    rw [hf] at hsize hlen hfields
    simp only [Family.ipLen, Nat.reduceAdd] at hsize hlen
    rw [if_neg (by omega), hsix]
    by_cases hguess : (ip.bytes.getD 6 0).toNat = gpuBusId.length + 12
    · -- the record passes for an IPv4 one
      rw [if_pos (by omega)]
      simpa [fields] using hguess
    · rw [if_neg (by omega), if_neg (by omega), if_neg (by omega), hfields]
      simpa using hguess

end

/-- The bus id "0000:3b:00.0". -/
def busId : List (BitVec 8) := [0x30, 0x30, 0x30, 0x30, 0x3a, 0x33, 0x62, 0x3a, 0x30, 0x30, 0x2e, 0x30]

/-- The address fe80::1. -/
def linkLocal : Ip := ⟨.ipv6, [0xfe, 0x80, 0, 0, 0, 0, 0, 0, 0, 0, 0, 0, 0, 0, 0, 1], rfl⟩

theorem roundTrip_of_link_local :
    parseMetadata (getMetadata linkLocal 0x1234 busId) = .ok ⟨.ipv6, linkLocal.bytes, 0x1234, busId⟩ :=
  (parseMetadata_getMetadata_iff linkLocal 0x1234 busId (by decide)).mpr (by decide)

/-- The address 2001:db8:0:1800::1. -/
def docIp : Ip := ⟨.ipv6, [0x20, 0x01, 0x0d, 0xb8, 0, 0, 0x18, 0, 0, 0, 0, 0, 0, 0, 0, 1], rfl⟩

/-- The record of this address is read as one of the IPv4 address 32.1.13.184 with port 0. -/
theorem ipv6_read_as_ipv4 : (parseMetadata (getMetadata docIp 0x1234 busId)).map
    (fun r => (r.family, r.bytes, r.port)) = .ok (.ipv4, [0x20, 0x01, 0x0d, 0xb8], 0) := rfl

end P2pMetadata
