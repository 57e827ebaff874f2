import Uccl.SerialNumberProofs
import Uccl.WordBitmapProofs

/-! # Chunk sequence numbers and the protocol control block

    `UINT_CSN` (util.h) is an 8-bit counter compared through the sign of a difference; `PCB` (pcb.h) holds one
    subflow's three sequence numbers, the receiver's SACK bitmap with its 8-bit count, and the copy of that
    bitmap the sender keeps.

    The bridge to counters in `ℕ` is `csnOf`: the CSN of the `n`-th chunk. The window lemmas of `SerialNumber`
    are restated at 8 bits, where half the number space is `kSackBitmapSize = 128`. -/

namespace RdmaPcb

open SerialNumber WordBitmap

-- ── Constants (transport_config.h, transport.h)

/-- SACK bitmap size in bits; at most half the number space of `UINT_CSN`. -/
def kSackBitmapSize : ℕ := 64 <<< 1

/-- `RDMAContext::kReassemblyMaxSeqnoDistance`. -/
def kReassemblyMaxSeqnoDistance : ℕ := kSackBitmapSize

/-- Where the source stops the process or reads outside an object. -/
inductive Fault where
  /-- `UCCL_LOG_IF(FATAL, index >= kSackBitmapSize)` in `sack_bitmap_bit_set`. -/
  | sackIndexOutOfBounds
  /-- `UCCL_CHECK(!sack_bitmap_bit_is_set(distance))` in `uc_rx_chunk`. -/
  | duplicateChunk
  /-- `UCCL_CHECK(0)` in `rc_rx_chunk`: no request for this chunk. -/
  | noRecvRequest
  /-- A completion dereferences a request whose `ureq` was already cleared. -/
  | nullUreq
  /-- `unacked_chunks_.front()` of an empty vector. -/
  | emptyFront
  /-- `unacked_chunks_[idx]` past the end. -/
  | chunkIndexOutOfRange
  /-- `UCCL_CHECK(wr_ex_pool_->alloc_buff(&wr_addr) == 0)`. -/
  | wrExPoolEmpty
  /-- `UCCL_CHECK(false)` for an RDMA WRITE or READ of length 0. -/
  | zeroLengthOneSided
  /-- The action is not enabled in this state (no such message, an empty queue). -/
  | notEnabled
  deriving DecidableEq, Repr

-- ── UINT_CSN

/-- An 8-bit chunk sequence number. -/
abbrev UintCsn := BitVec 8

/-- `seqno_lt`: the 8-bit difference read as `int8_t` is negative. -/
def seqnoLt (a b : UintCsn) : Bool := serialLt a b

/-- `seqno_gt`. -/
def seqnoGt (a b : UintCsn) : Bool := serialGt a b

/-- `seqno_eq`. -/
def seqnoEq (a b : UintCsn) : Bool := (a - b).toInt == 0

/-- The CSN of the `n`-th chunk of a subflow, counting from 0. -/
def csnOf (n : ℕ) : UintCsn := BitVec.ofNat 8 n

theorem csnOf_succ (n : ℕ) : csnOf n + 1 = csnOf (n + 1) := (BitVec.ofNat_add n 1).symm

theorem csnOf_add (n k : ℕ) : csnOf n + BitVec.ofNat 8 k = csnOf (n + k) := (BitVec.ofNat_add n k).symm

theorem seqnoEq_iff (a b : UintCsn) : seqnoEq a b = true ↔ a = b := by
  unfold seqnoEq
  rw [beq_iff_eq, ← BitVec.toInt_zero (w := 8), BitVec.toInt_inj]
  exact sub_eq_zero

/-- A chunk that is behind by at most 128 compares as behind. -/
theorem seqnoLt_csnOf_of_lt {a b : ℕ} (hlt : a < b) (hwin : b ≤ a + 128) : seqnoLt (csnOf a) (csnOf b) = true :=
  serialLt_ofNat_of_lt (w := 7) hlt hwin

/-- A chunk that is level or ahead by less than 128 does not compare as behind. -/
theorem seqnoLt_csnOf_of_le {a b : ℕ} (hle : b ≤ a) (hwin : a < b + 128) : seqnoLt (csnOf a) (csnOf b) = false :=
  serialLt_ofNat_of_le (w := 7) hle hwin

theorem seqnoGt_csnOf_of_le {a b : ℕ} (hle : a ≤ b) (hwin : b ≤ a + 128) : seqnoGt (csnOf a) (csnOf b) = false :=
  serialGt_ofNat_of_le (w := 7) hle hwin

theorem toNat_csnOf_sub {a b : ℕ} (hle : b ≤ a) (hlt : a < b + 256) : (csnOf a - csnOf b).toNat = a - b :=
  toNat_ofNat_sub (w := 8) hle hlt

theorem csnOf_inj {a b : ℕ} (hab : a < b + 256) (hba : b < a + 256) : csnOf a = csnOf b ↔ a = b :=
  ofNat_eq_iff (w := 8) hab hba

/-- Whatever CSN arrives, one that does not compare as behind is at distance less than 128. -/
theorem distance_lt_of_not_seqnoLt {csn ecsn : UintCsn} (h : seqnoLt csn ecsn = false) : (csn - ecsn).toNat < 128 := by
  have h' : ¬ serialLt csn ecsn = true := by
    rw [show serialLt csn ecsn = false from h]; exact Bool.false_ne_true
  rw [serialLt_iff (w := 7)] at h'
  exact Nat.not_le.mp h'

/-- Offsets below 128 from a common base compare as the offsets do. -/
theorem seqnoLt_add_offsets (base : UintCsn) {i j : ℕ} (hi : i < 128) (hj : j < 128) :
    seqnoLt (base + BitVec.ofNat 8 i) (base + BitVec.ofNat 8 j) = decide (i < j) :=
  serialLt_add_offsets (w := 7) base hi hj

-- ── PCB

/-- `sack_bitmap[kSackBitmapSize / kSackBitmapBucketSize]`. -/
abbrev SackBitmap := Bitmap 64 2

/-- The fields of `PCB` that the transport reads or writes; the congestion
    controllers and the timestamps are not modelled. -/
structure PCB where
  sndNxt : UintCsn := 0
  sndUna : UintCsn := 0
  rcvNxt : UintCsn := 0
  sackBitmap : SackBitmap := empty
  sackBitmapCount : BitVec 8 := 0
  txSackBitmap : SackBitmap := empty
  txSackBitmapCount : BitVec 8 := 0
  txSackBitmapBase : BitVec 32 := 0
  duplicateAcks : BitVec 16 := 0
  rtoRexmitsConsectutive : BitVec 16 := 0
  sndOooAcks : UintCsn := 0
  statsFastRexmits : BitVec 32 := 0
  statsRtoRexmits : BitVec 32 := 0
  statsAcceptRetr : BitVec 32 := 0
  statsChunkDrop : BitVec 32 := 0
  statsRetrChunkDrop : BitVec 32 := 0

/-- `get_snd_nxt`: hand out the next CSN. -/
def PCB.getSndNxt (p : PCB) : UintCsn × PCB :=
  (p.sndNxt, { p with sndNxt := p.sndNxt + 1 })

/-- `ackno`. -/
def PCB.ackno (p : PCB) : UintCsn := p.rcvNxt

/-- `advance_rcv_nxt`. -/
def PCB.advanceRcvNxt (p : PCB) : PCB := { p with rcvNxt := p.rcvNxt + 1 }

/-- `sack_bitmap_shift_left_one`: drop bit 0 and count one less. -/
def PCB.sackBitmapShiftLeftOne (p : PCB) : PCB :=
  { p with
    sackBitmap := shiftDown p.sackBitmap
    sackBitmapCount := p.sackBitmapCount - 1 }

/-- `sack_bitmap_bit_is_set`. -/
def PCB.sackBitmapBitIsSet (p : PCB) (index : ℕ) : Bool := testBit p.sackBitmap index

/-- `sack_bitmap_bit_set`, with its fatal check. -/
def PCB.sackBitmapBitSet (p : PCB) (index : ℕ) : Except Fault PCB :=
  if index ≥ kSackBitmapSize then .error .sackIndexOutOfBounds
  else .ok { p with
    sackBitmap := setBit p.sackBitmap index
    sackBitmapCount := p.sackBitmapCount + 1 }

/-- In range, the bit is set and counted. -/
theorem PCB.sackBitmapBitSet_of_lt (p : PCB) {index : ℕ} (h : index < 128) : p.sackBitmapBitSet index = .ok { p with
      sackBitmap := setBit p.sackBitmap index
      sackBitmapCount := p.sackBitmapCount + 1 } :=
  if_neg (Nat.not_le.mpr h)

end RdmaPcb
