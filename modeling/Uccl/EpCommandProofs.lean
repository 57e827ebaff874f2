import Mathlib.Data.BitVec
import Mathlib.Tactic.IntervalCases

/-! # Commands between the GPU and the proxy

    A GPU thread describes a transfer in a 128-bit `TransferCmd` (ep/include/ring_buffer.cuh). With the FIFO
    backend it travels as two 64-bit words: `pack_transfer_cmd` writes the fields into them, `push` flips the top
    bit of the second word so that the host can see that the slot has been filled, and `decode_packed_transfer_cmd`
    flips it back and reads the fields. `decode_push_pack`: the command arrives as it was. -/

namespace EpCommand

/-- The base command, `[5:0]` of `cmd_type`. -/
inductive CmdType
  | empty | write | atomic | quiet | barrier
  deriving DecidableEq

def CmdType.code : CmdType → BitVec 8
  | .empty => 0#8
  | .write => 1#8
  | .atomic => 2#8
  | .quiet => 3#8
  | .barrier => 4#8

/-- `make_cmd_type` -/
def makeCmdType (base : CmdType) (isCombine lowLatency : Bool) : BitVec 8 :=
  base.code ||| (if isCombine then 1#8 <<< 6 else 0#8) ||| (if lowLatency then 1#8 <<< 7 else 0#8)

def getIsCombine (c : BitVec 8) : Bool := c.getLsbD 6
def getLowLatency (c : BitVec 8) : Bool := c.getLsbD 7
/-- `TransferCmd`.  Where the source has a union the field holds the bits the members share. -/
@[ext]
structure TransferCmd where
  cmdType : BitVec 8
  dstRank : BitVec 8
  /-- the low byte of `bytes_and_val` -/
  atomicVal : BitVec 8
  bytes : BitVec 24
  reqRptr : BitVec 32
  /-- `req_lptr` of a WRITE, `value` of an ATOMIC -/
  lptrOrValue : BitVec 32
  /-- `expert_idx` in low-latency mode, `atomic_offset` in normal mode -/
  slot : BitVec 16
  deriving DecidableEq

def TransferCmd.bytesAndVal (c : TransferCmd) : BitVec 32 :=
  (c.bytes.setWidth 32 <<< 8) ||| c.atomicVal.setWidth 32

/-- `pack_transfer_cmd` -/
def packTransferCmd (c : TransferCmd) : BitVec 64 × BitVec 64 :=
  ((c.cmdType.setWidth 64 &&& 0xFF#64) ||| ((c.dstRank.setWidth 64 &&& 0xFF#64) <<< 8)
    ||| ((c.bytesAndVal.setWidth 64 &&& 0xFFFFFFFF#64) <<< 16)
    ||| ((c.slot.setWidth 64 &&& 0xFFFF#64) <<< 48),
   (c.reqRptr.setWidth 64 &&& 0xFFFFFFFF#64) ||| ((c.lptrOrValue.setWidth 64 &&& 0xFFFFFFFF#64) <<< 32))

/-- What `FifoDeviceHandle::push` stores: "Flip the last bit for safe polling; host will revert." -/
def push (trigger : BitVec 64 × BitVec 64) : BitVec 64 × BitVec 64 :=
  (trigger.1, trigger.2 ^^^ (1#64 <<< 63))

/-- `decode_packed_transfer_cmd` -/
def decodePackedTransferCmd (trigger : BitVec 64 × BitVec 64) : TransferCmd :=
  let fst := trigger.1
  let snd := trigger.2 ^^^ (1#64 <<< 63)
  let bytesAndVal := ((fst >>> 16) &&& 0xFFFFFFFF#64).setWidth 32
  { cmdType := (fst &&& 0xFF#64).setWidth 8
    dstRank := ((fst >>> 8) &&& 0xFF#64).setWidth 8
    atomicVal := bytesAndVal.setWidth 8
    bytes := (bytesAndVal >>> 8).setWidth 24
    reqRptr := (snd &&& 0xFFFFFFFF#64).setWidth 32
    lptrOrValue := ((snd >>> 32) &&& 0xFFFFFFFF#64).setWidth 32
    slot := ((fst >>> 48) &&& 0xFFFF#64).setWidth 16 }

-- ── The command type

theorem getIsCombine_make (base : CmdType) (c l : Bool) : getIsCombine (makeCmdType base c l) = c := by
  cases base <;> cases c <;> cases l <;> decide

theorem getLowLatency_make (base : CmdType) (c l : Bool) : getLowLatency (makeCmdType base c l) = l := by
  cases base <;> cases c <;> cases l <;> decide

-- ── The round trip

/-- **THE QUEUE KEEPS COMMANDS**: what the proxy decodes is what the GPU packed. -/
theorem decode_push_pack (c : TransferCmd) : decodePackedTransferCmd (push (packTransferCmd c)) = c := by
  unfold decodePackedTransferCmd push
  unfold packTransferCmd TransferCmd.bytesAndVal
  ext i hi <;> dsimp only <;> interval_cases i <;> simp

end EpCommand
