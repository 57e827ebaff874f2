import Mathlib.Data.BitVec
import Mathlib.Tactic.IntervalCases

/-! # The immediates of the EP transport

    Every control or data message between EP proxies is an RDMA write with a 32-bit immediate
    (ep/include/rdma.hpp). The two top bits say what it is: bit 31 an atomic, bit 30 alone a barrier message,
    neither a data write (`ImmType`). The rest is laid out per kind: `AtomicsImm` (value, offset, buffer,
    combine), `WriteImm` (rank, tokens, expert, buffer, combine) and `BarrierImm` (ack, sequence, rank).

    A `pack…` returns `none` where the source asserts. A packed atomic or write is classified as its own kind,
    and each getter returns what was packed. Of a barrier message only what the receiver reads is here. -/

namespace EpImm

open Nat BitVec

/-- The immediate word in host order. -/
abbrev Imm := BitVec 32

namespace ImmType

/-- Bit 31: an atomic. -/
def kAtomicsBit : Imm := 1#32 <<< 31

/-- Bit 30: without bit 31, a barrier message. -/
def kCtrlBit : Imm := 1#32 <<< 30

/-- Bit 31 is set. -/
def isAtomics (imm : Imm) : Bool := imm &&& kAtomicsBit != 0#32

/-- Bit 30 alone is set. -/
def isBarrier (imm : Imm) : Bool := imm &&& kAtomicsBit == 0#32 && imm &&& kCtrlBit != 0#32

/-- Neither bit is set. -/
def isWrite (imm : Imm) : Bool := imm &&& kAtomicsBit == 0#32 && imm &&& kCtrlBit == 0#32

end ImmType

open ImmType

namespace BarrierImm

/-- Bit 29 of a barrier message: a release. -/
def kAckBit : Imm := 1#32 <<< 29

/-- The 21 bits of the sequence number. -/
def kSeqMask : ℕ := 0x1FFFFF

def getIsAck (imm : Imm) : Bool := imm &&& kAckBit != 0#32
def getSeq (imm : Imm) : BitVec 32 := (imm >>> 8) &&& BitVec.ofNat 32 kSeqMask
def getRank (imm : Imm) : BitVec 8 := (imm &&& 0xFF#32).setWidth 8

end BarrierImm

namespace AtomicsImm

/-- The value field: 15 bits, signed. -/
def InRange (v15 : ℤ) : Prop := -16384 ≤ v15 ∧ v15 ≤ 16383
deriving Decidable

/-- The word `AtomicsImm::Pack` builds once its range checks have passed. -/
def word (isAtomics isCombine : Bool) (v15 : ℤ) (off13 : BitVec 16) (bufferIdx reorderable : Bool) : Imm :=
  ((ofBool isAtomics).setWidth 32 <<< 31) ||| ((ofBool isCombine).setWidth 32 <<< 30)
    ||| ((ofBool bufferIdx).setWidth 32 <<< 29)
    ||| ((ofBool reorderable).setWidth 32 <<< 28)
    ||| ((BitVec.ofInt 32 v15 &&& 0x7FFF#32) <<< 13) ||| (off13.setWidth 32 &&& 0x1FFF#32)

/-- `AtomicsImm::Pack`.  The buffer index is a `bool` at every call. -/
def pack (isAtomics isCombine : Bool) (v15 : ℤ) (off13 : BitVec 16)
    (bufferIdx reorderable : Bool) : Option Imm :=
  if InRange v15 ∧ off13.toNat ≤ 0x1FFF then
    some (word isAtomics isCombine v15 off13 bufferIdx reorderable)
  else none

/-- `AtomicsImm::PackAtomicWithSeq`: two bits of the sequence number share the offset field,
    the other two the combine and buffer bits. -/
def packAtomicWithSeq (v15 : ℤ) (offAlignedBytes : BitVec 16) (seq : BitVec 8)
    (reorderable : Bool) : Option Imm :=
  if offAlignedBytes &&& 0x3#16 = 0#16 ∧ seq.toNat < 16 then
    pack true (seq.getLsbD 3) v15
      ((offAlignedBytes &&& 0x1FFF#16) ||| (seq.setWidth 16 &&& 0x3#16)) (seq.getLsbD 2) reorderable
  else none

def isCombine (imm : Imm) : Bool := imm.getLsbD 30
def getBufferIdx (imm : Imm) : ℕ := (imm.getLsbD 29).toNat
def isReorderable (imm : Imm) : Bool := imm.getLsbD 28
def getOff (imm : Imm) : BitVec 16 := (imm &&& 0x1FFF#32).setWidth 16

/-- `GetSeq`: the low two bits of the offset, then the buffer and the combine bit. -/
def getSeq (imm : Imm) : BitVec 8 :=
  (imm &&& 0x3#32).setWidth 8 ||| ((ofBool (imm.getLsbD 29)).setWidth 8 <<< 2)
    ||| ((ofBool (imm.getLsbD 30)).setWidth 8 <<< 3)

/-- `GetValue`: sign-extend the 15 bits at `[27:13]`. -/
def getValue (imm : Imm) : ℤ := ((imm <<< 4).sshiftRight 17).toInt

end AtomicsImm

namespace WriteImm

/-- `WriteImm::Pack`: every field is asserted to fit. -/
def pack (isCombine bufferIdx : Bool) (expertIdx numTokens myRank : ℕ) : Option Imm :=
  if expertIdx ≤ 0x3FF ∧ numTokens ≤ 0xFFF ∧ myRank ≤ 0x3F then
    some (((ofBool isCombine).setWidth 32 <<< 29)
      ||| ((ofBool bufferIdx).setWidth 32 <<< 28)
      ||| ((BitVec.ofNat 32 expertIdx &&& 0x3FF#32) <<< 18)
      ||| ((BitVec.ofNat 32 numTokens &&& 0xFFF#32) <<< 6) ||| (BitVec.ofNat 32 myRank &&& 0x3F#32))
  else none

def isCombine (imm : Imm) : Bool := imm.getLsbD 29
def getBufferIdx (imm : Imm) : ℕ := (imm.getLsbD 28).toNat
def getExpertIdx (imm : Imm) : ℕ := ((imm >>> 18) &&& 0x3FF#32).toNat
def getNumTokens (imm : Imm) : ℕ := ((imm >>> 6) &&& 0xFFF#32).toNat
def getRank (imm : Imm) : ℕ := (imm &&& 0x3F#32).toNat

end WriteImm

-- ── Classification

section

variable (imm : Imm)

/-- The classification reads the two top bits. -/
theorem isAtomics_eq : isAtomics imm = imm.getLsbD 31 := by
  have hbit : imm &&& kAtomicsBit = if imm.getLsbD 31 then 1#32 <<< 31 else 0#32 := by
    apply eq_of_getLsbD_eq
    intro i hi
    unfold kAtomicsBit
    cases hb : imm.getLsbD 31 <;> interval_cases i <;> simp_all
  unfold isAtomics
  rw [hbit]
  cases imm.getLsbD 31 <;> rfl

/-- The control bit is bit 30. -/
theorem ctrl_eq : (imm &&& kCtrlBit != 0#32) = imm.getLsbD 30 := by
  have hbit : imm &&& kCtrlBit = if imm.getLsbD 30 then 1#32 <<< 30 else 0#32 := by
    apply eq_of_getLsbD_eq
    intro i hi
    unfold kCtrlBit
    cases hb : imm.getLsbD 30 <;> interval_cases i <;> simp_all
  rw [hbit]
  cases imm.getLsbD 30 <;> rfl

theorem isBarrier_eq : isBarrier imm = (!imm.getLsbD 31 && imm.getLsbD 30) := by
  have h := isAtomics_eq imm
  unfold isAtomics at h
  unfold isBarrier
  rw [ctrl_eq, ← h, bne, Bool.not_not]

theorem isWrite_eq : isWrite imm = (!imm.getLsbD 31 && !imm.getLsbD 30) := by
  have h := isAtomics_eq imm
  have h' := ctrl_eq imm
  unfold isAtomics at h
  unfold isWrite
  rw [← h, ← h', bne, Bool.not_not, bne, Bool.not_not]

/-- An immediate is of exactly one kind. -/
theorem isWrite_iff : isWrite imm = true ↔ isAtomics imm = false ∧ isBarrier imm = false := by
  rw [isWrite_eq, isAtomics_eq, isBarrier_eq]
  cases imm.getLsbD 31 <;> cases imm.getLsbD 30 <;> decide

/-- A word is a write's exactly when it is below bit 30. -/
theorem isWrite_iff_lt : isWrite imm = true ↔ imm.toNat < 2 ^ 30 := by
  rw [isWrite_eq, getLsbD, getLsbD, testBit_eq_decide_div_mod_eq, testBit_eq_decide_div_mod_eq]
  simp only [Bool.and_eq_true, Bool.not_eq_eq_eq_not, Bool.not_true, decide_eq_false_iff_not]
  omega

end

-- ── Atomics

namespace AtomicsImm

variable (a c : Bool) {v : ℤ} {off : BitVec 16} (b r : Bool) {imm : Imm}

/-- What `Pack` has checked, and the word that it builds. -/
theorem of_pack (h : pack a c v off b r = some imm) : InRange v ∧ off.toNat ≤ 0x1FFF ∧ imm = word a c v off b r := by
  unfold pack at h
  split at h
  · next hfit => exact ⟨hfit.1, hfit.2, (Option.some.inj h).symm⟩
  · cases h

theorem isAtomics_word : isAtomics (word a c v off b r) = a := by
  rw [isAtomics_eq]
  cases a <;> simp [word]

theorem isCombine_word : isCombine (word a c v off b r) = c := by
  cases a <;> cases c <;> simp [isCombine, word]

theorem getBufferIdx_word : getBufferIdx (word a c v off b r) = b.toNat := by
  cases a <;> cases c <;> cases b <;> simp [getBufferIdx, word]

theorem getOff_word (h : off.toNat ≤ 0x1FFF) : getOff (word a c v off b r) = off := by
  have hmask : getOff (word a c v off b r) = off &&& 0x1FFF#16 := by
    apply eq_of_getLsbD_eq
    intro i hi
    unfold getOff word
    interval_cases i <;> simp
  rw [hmask]
  apply eq_of_toNat_eq
  exact (and_two_pow_sub_one_eq_mod _ 13).trans (mod_eq_of_lt (by omega))

/-- The two shifts of `GetValue` sign-extend the low 15 bits of the value that was packed. -/
theorem sshiftRight_word (w : BitVec 32) (off : BitVec 16) :
    ((((ofBool a).setWidth 32 <<< 31) ||| ((ofBool c).setWidth 32 <<< 30)
      ||| ((ofBool b).setWidth 32 <<< 29) ||| ((ofBool r).setWidth 32 <<< 28)
      ||| ((w &&& 0x7FFF#32) <<< 13) ||| (off.setWidth 32 &&& 0x1FFF#32)) <<< 4).sshiftRight 17
      = (w.setWidth 15).signExtend 32 := by
  apply eq_of_getLsbD_eq
  intro i hi
  interval_cases i <;> simp [getElem_sshiftRight, getElem_signExtend, msb_eq_getLsbD_last]

theorem getValue_word (h : InRange v) : getValue (word a c v off b r) = v := by
  obtain ⟨hlo, hhi⟩ := h
  unfold getValue word
  rw [sshiftRight_word, toInt_signExtend_of_le (by decide), toInt_setWidth,
    toNat_ofInt, Int.toNat_of_nonneg (Int.emod_nonneg _ (by decide)), Int.bmod_def]
  split <;> omega

/-- Whatever `PackAtomicWithSeq` packs is an atomic. -/
theorem isAtomics_of_packAtomicWithSeq {seq : BitVec 8}
    (h : packAtomicWithSeq v off seq r = some imm) : isAtomics imm = true := by
  unfold packAtomicWithSeq at h
  split at h
  · rw [(of_pack _ _ _ _ h).2.2]
    exact isAtomics_word ..
  · cases h

/-- A packed atomic is classified as one. -/
theorem isAtomics_of_pack (h : pack true c v off b r = some imm) : isAtomics imm = true := by
  rw [(of_pack _ _ _ _ h).2.2]
  exact isAtomics_word ..

end AtomicsImm

-- ── Writes

namespace WriteImm

/-- The word with its fields as bit vectors. -/
def word (isCombine bufferIdx : Bool) (expertIdx numTokens myRank : BitVec 32) : Imm :=
  ((ofBool isCombine).setWidth 32 <<< 29) ||| ((ofBool bufferIdx).setWidth 32 <<< 28)
    ||| ((expertIdx &&& 0x3FF#32) <<< 18) ||| ((numTokens &&& 0xFFF#32) <<< 6)
    ||| (myRank &&& 0x3F#32)

/-- The same for `WriteImm::Pack`. -/
theorem of_pack {c b : Bool} {e n r : ℕ} {imm : Imm} (h : pack c b e n r = some imm) :
    e ≤ 0x3FF ∧ n ≤ 0xFFF ∧ r ≤ 0x3F ∧ imm = word c b (BitVec.ofNat 32 e) (BitVec.ofNat 32 n) (BitVec.ofNat 32 r) := by
  unfold pack at h
  split at h
  · next hfit => exact ⟨hfit.1, hfit.2.1, hfit.2.2, (Option.some.inj h).symm⟩
  · cases h

variable (c b : Bool) (e n r : BitVec 32)

theorem isWrite_word : isWrite (word c b e n r) = true := by
  rw [isWrite_eq]
  simp [word]

theorem isCombine_word : isCombine (word c b e n r) = c := by
  cases c <;> simp [isCombine, word]

theorem getBufferIdx_word : getBufferIdx (word c b e n r) = b.toNat := by
  cases c <;> cases b <;> simp [getBufferIdx, word]

theorem getExpertIdx_word : getExpertIdx (word c b e n r) = (e &&& 0x3FF#32).toNat := by
  unfold getExpertIdx
  congr 1
  apply eq_of_getLsbD_eq
  intro i hi
  unfold word
  interval_cases i <;> simp

theorem getNumTokens_word : getNumTokens (word c b e n r) = (n &&& 0xFFF#32).toNat := by
  unfold getNumTokens
  congr 1
  apply eq_of_getLsbD_eq
  intro i hi
  unfold word
  interval_cases i <;> simp

theorem getRank_word : getRank (word c b e n r) = (r &&& 0x3F#32).toNat := by
  unfold getRank
  congr 1
  apply eq_of_getLsbD_eq
  intro i hi
  unfold word
  interval_cases i <;> simp

/-- A number that fits under the mask is what the masked field reads. -/
theorem toNat_and_mask {x k : ℕ} (h : x < 2 ^ k) (hk : k < 32) :
    (BitVec.ofNat 32 x &&& BitVec.ofNat 32 (2 ^ k - 1)).toNat = x := by
  have hpow : 2 ^ k < 2 ^ 32 := Nat.pow_lt_pow_right (by decide) hk
  rw [toNat_and, toNat_ofNat, toNat_ofNat, mod_eq_of_lt (h.trans hpow),
    mod_eq_of_lt (by omega), and_two_pow_sub_one_eq_mod]
  exact mod_eq_of_lt h

/-- Each getter returns what was packed. -/
theorem get_of_pack {c b : Bool} {e n r : ℕ} {imm : Imm} (h : pack c b e n r = some imm) :
    isWrite imm = true ∧ isCombine imm = c ∧ getBufferIdx imm = b.toNat ∧
      getExpertIdx imm = e ∧ getNumTokens imm = n ∧ getRank imm = r := by
  obtain ⟨he, hn, hr, himm⟩ := of_pack h
  rw [himm, getExpertIdx_word, getNumTokens_word, getRank_word]
  exact ⟨isWrite_word .., isCombine_word .., getBufferIdx_word ..,
    toNat_and_mask (k := 10) (by omega) (by decide), toNat_and_mask (k := 12) (by omega) (by decide),
    toNat_and_mask (k := 6) (by omega) (by decide)⟩

end WriteImm

end EpImm
