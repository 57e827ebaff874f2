import Uccl.RdmaPcbProofs
import Mathlib.Tactic.IntervalCases

/-! # The immediate data of a chunk

    `IMMData` (transport.h) packs four fields into the 32-bit immediate of a work request: HINT (1 bit), CSN
    (8), RID (4), FID (11). The setters OR their field into the word, so they are only right on a word in
    which the field is still clear; the transmit path starts from 0 and sets each field once. `immOf` is that
    sequence of calls, and the four `get…_immOf` lemmas say the receiver decodes exactly what was put in. -/

namespace RdmaImm

open RdmaPcb

/-- `IMMData`: the immediate word in host order. -/
abbrev IMMData := BitVec 32

def IMMData.kFID : ℕ := 0
def IMMData.kRID : ℕ := 11
def IMMData.kCSN : ℕ := 15
def IMMData.kRESERVED : ℕ := IMMData.kCSN + 8
def IMMData.kHINT : ℕ := IMMData.kRESERVED + 8

def IMMData.getHINT (d : IMMData) : BitVec 32 := (d >>> kHINT) &&& 0x1#32
def IMMData.getCSN (d : IMMData) : BitVec 32 := (d >>> kCSN) &&& 0xFF#32
def IMMData.getRID (d : IMMData) : BitVec 32 := (d >>> kRID) &&& 0xF#32
def IMMData.getFID (d : IMMData) : BitVec 32 := (d >>> kFID) &&& 0x7FF#32

def IMMData.setHINT (d : IMMData) (hint : BitVec 32) : IMMData :=
  d ||| ((hint &&& 0x1#32) <<< kHINT)
def IMMData.setCSN (d : IMMData) (csn : BitVec 32) : IMMData :=
  d ||| ((csn &&& 0xFF#32) <<< kCSN)
def IMMData.setRID (d : IMMData) (rid : BitVec 32) : IMMData :=
  d ||| ((rid &&& 0xF#32) <<< kRID)
def IMMData.setFID (d : IMMData) (fid : BitVec 32) : IMMData :=
  d ||| ((fid &&& 0x7FF#32) <<< kFID)

/-- The transmit path's sequence of setters on a zero word. -/
def immOf (fid : BitVec 32) (last : Bool) (rid : BitVec 32) (csn : UintCsn) : IMMData :=
  let d : IMMData := IMMData.setFID 0 fid
  let d := if last then IMMData.setHINT d 1 else d
  let d := IMMData.setRID d rid
  IMMData.setCSN d (csn.setWidth 32)

/-- `GetCSN` as the 8-bit number it is. -/
def IMMData.csn (d : IMMData) : UintCsn := (IMMData.getCSN d).setWidth 8

/-- `GetHINT` as a flag. -/
def IMMData.lastChunk (d : IMMData) : Bool := IMMData.getHINT d != 0

/-- `GetRID` as an index into the request table: a 4-bit field. -/
def IMMData.rid (d : IMMData) : Fin 16 := Fin.ofNat 16 (IMMData.getRID d).toNat

/-- The receive slot a request names before one is granted. -/
abbrev ridZero : Fin 16 := 0

-- ── What is put in comes out

section

variable (fid rid : BitVec 32) (last : Bool) (csn : UintCsn)

/-- The CSN field is read back. -/
theorem csn_immOf : IMMData.csn (immOf fid last rid csn) = csn := by
  apply BitVec.eq_of_getLsbD_eq
  intro i hi
  unfold IMMData.csn IMMData.getCSN immOf IMMData.setCSN IMMData.setRID IMMData.setFID IMMData.setHINT
  -- bit by bit: no other field reaches the CSN's positions
  cases last <;> interval_cases i <;>
    simp [IMMData.kCSN, IMMData.kRID, IMMData.kFID, IMMData.kHINT, IMMData.kRESERVED]

/-- The request field is read back, cut to its four bits. -/
theorem getRID_immOf : IMMData.getRID (immOf fid last rid csn) = rid &&& 0xF#32 := by
  apply BitVec.eq_of_getLsbD_eq
  intro i hi
  unfold IMMData.getRID immOf IMMData.setCSN IMMData.setRID IMMData.setFID IMMData.setHINT
  cases last <;> interval_cases i <;>
    simp [IMMData.kCSN, IMMData.kRID, IMMData.kFID, IMMData.kHINT, IMMData.kRESERVED]

/-- A request id of the table is read back. -/
theorem rid_immOf (fid : BitVec 32) (rid : Fin 16) (last : Bool) (csn : UintCsn) :
    IMMData.rid (immOf fid last (BitVec.ofNat 32 rid.val) csn) = rid := by
  unfold IMMData.rid
  rw [getRID_immOf]
  revert rid
  decide

/-- The last-chunk hint is read back. -/
theorem lastChunk_immOf : IMMData.lastChunk (immOf fid last rid csn) = last := by
  have hbits : IMMData.getHINT (immOf fid last rid csn) = if last then 1 else 0 := by
    apply BitVec.eq_of_getLsbD_eq
    intro i hi
    unfold IMMData.getHINT immOf IMMData.setCSN IMMData.setRID IMMData.setFID IMMData.setHINT
    cases last <;> interval_cases i <;>
      simp [IMMData.kCSN, IMMData.kRID, IMMData.kFID, IMMData.kHINT, IMMData.kRESERVED]
  unfold IMMData.lastChunk
  rw [hbits]
  cases last <;> rfl

end

end RdmaImm
