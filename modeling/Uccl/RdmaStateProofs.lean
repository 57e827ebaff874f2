import Uccl.RdmaImmProofs
import Uccl.RdmaTimerProofs

/-! # The state of an RDMA engine

    Data types of the collective RDMA transport (rdma_io.h, transport.h, timing_wheel.h), split by role:
    `SenderCtx` is what an engine keeps to transmit on its subflows, `ReceiverCtx` what it keeps to receive.
    Subflows are named by an arbitrary type `F`, so one engine serves any number of them.

    Two conventions hold throughout:

    * a `wr_ex` buffer is passed by value with its owner — the pool, the timing wheel, the tracked chunk — and
      keeps its stale fields when it is freed, exactly like the memory it stands for;
    * `sentChunks`, `ackedChunks`, `rcvdChunks`, `WrEx.seq`, `Post.seq`, `UcclSackHdr.seq` and the receiver's
      two logs are HISTORY: they number chunks in `ℕ` and record what happened, and no function of the
      transport reads them. -/

namespace RdmaState

open RdmaPcb RdmaImm RdmaTimer

-- ── Constants and configuration

/-- Outstanding receive requests per subflow, and slots of the flow FIFO. -/
def kMaxReq : ℕ := 16

/-- `WrExBuffPool::kNumWr`; one element is reserved. -/
def kNumWr : ℕ := 4096

/-- `sizeof(struct retr_chunk_hdr)`. -/
def retrChunkHdrSize : ℕ := 12

/-- Chunks sent from the timing wheel in one loop. -/
def kMaxBurstTW : ℕ := 8

/-- `ROCE_DUP_ACK_THRES`. -/
def roceDupAckThres : ℕ := 32

/-- Receive completions after which an ACK is sent at once. -/
def kMAXCumWQE : ℕ := 4

/-- Out-of-order arrivals in a row before the receiver believes in reordering. -/
def kMAXRXOOO : ℕ := 8

/-- `kTestLoss`. -/
def kTestLoss : Bool := false

/-- The run-time parameters of an engine. The byte budgets are `uint32_t` computed from the chunk size; a
    configuration is one for which they fit. -/
structure Config where
  chunkSizeKb : ℕ
  isRoce : Bool
  rcMode : Bool
  bypassPacing : Bool
  budgetFits : 25 * max (chunkSizeKb <<< 10) 32768 < 2 ^ 32

/-- `chunk_size_`. -/
def Config.chunkSize (c : Config) : ℕ := c.chunkSizeKb <<< 10

/-- `std::max((uint32_t)(ucclParamCHUNK_SIZE_KB() << 10), 32768u)`. -/
def Config.budgetUnit (c : Config) : ℕ := max c.chunkSize 32768

def Config.kMaxUnAckedBytesPerFlow (c : Config) : ℕ := 2 * c.budgetUnit

def Config.kMaxUnAckedBytesPerEngineLow (c : Config) : ℕ :=
  (if c.isRoce then 8 else 18) * c.budgetUnit

def Config.kMaxUnAckedBytesPerEngineHigh (c : Config) : ℕ :=
  (if c.isRoce then 12 else 24) * c.budgetUnit

/-- `kMAXCumBytes`. -/
def Config.kMAXCumBytes (c : Config) : ℕ := kMAXCumWQE * c.chunkSize

/-- The defaults on a RoCE link in UC mode: 64 KB chunks, pacing bypassed. -/
def defaultConfig : Config :=
  { chunkSizeKb := 64, isRoce := true, rcMode := false, bypassPacing := true
    budgetFits := by decide }

/-- `uint32_t` addition. -/
def addU32 (a b : ℕ) : ℕ := (a + b) % 2 ^ 32

/-- `uint32_t` subtraction. -/
def subU32 (a b : ℕ) : ℕ := (a + (2 ^ 32 - b % 2 ^ 32)) % 2 ^ 32

theorem addU32_of_lt {a b : ℕ} (h : a + b < 2 ^ 32) : addU32 a b = a + b := Nat.mod_eq_of_lt h

theorem subU32_of_le {a b : ℕ} (hle : b ≤ a) (ha : a < 2 ^ 32) : subU32 a b = a - b := by
  unfold subU32
  rw [Nat.mod_eq_of_lt (Nat.lt_of_le_of_lt hle ha)]
  rw [show a + (2 ^ 32 - b) = (a - b) + 2 ^ 32 by omega, Nat.add_mod_right, Nat.mod_eq_of_lt (by omega)]

-- ── Requests

/-- A request is named by its address. -/
abbrev ReqId := ℕ

/-- The request types that reach an engine's transmit queue. -/
inductive ReqType where
  | ReqTx | ReqRead | ReqWrite
  deriving DecidableEq, Repr

/-- `ucclRequest`, the `send` member.  `data_len` is a non-negative `int`. -/
structure UcclRequest (F : Type) where
  type : ReqType
  context : F
  dataLen : ℕ
  dataLen_lt : dataLen < 2 ^ 31
  laddr : ℕ := 0
  raddr : ℕ := 0
  lkey : ℕ := 0
  rkey : ℕ := 0
  rid : Fin 16 := ridZero
  sentOffset : ℕ := 0
  ackedBytes : ℕ := 0

/-- `ucclRequest`, the `recv` member: the flow it was posted on and the length reported to the application. -/
structure RecvUreq (F : Type) where
  context : F
  dataLen : ℕ

/-- `RecvRequest::type`. -/
inductive RecvReqType where
  | UNUSED | RECV
  deriving DecidableEq, Repr

/-- One slot of a subflow's request table. -/
structure RecvRequest where
  type : RecvReqType := .UNUSED
  ureq : Option ReqId := none
  receivedBytes : ℕ := 0
  deriving DecidableEq, Repr

-- ── Work requests

/-- Opcodes of `ibv_send_wr`. -/
inductive Opcode where
  | RDMA_WRITE | RDMA_WRITE_WITH_IMM | SEND | RDMA_READ
  deriving DecidableEq, Repr

/-- `ibv_sge`. -/
structure Sge where
  addr : ℕ := 0
  length : ℕ := 0
  lkey : ℕ := 0
  deriving DecidableEq, Repr

/-- `wr_ex`: a work request with its scatter entry. `wrId` is the CSN and the subflow packed into `wr_id` in
    RC mode, and 0 in UC mode. -/
structure WrEx (F : Type) where
  buff : ℕ
  opcode : Opcode := .RDMA_WRITE_WITH_IMM
  imm : IMMData := 0
  wrId : Option (UintCsn × F) := none
  remoteAddr : ℕ := 0
  rkey : ℕ := 0
  sge : Sge := {}
  ureq : ReqId := 0
  qpidx : ℕ := 0
  seq : ℕ := 0

/-- Which routine called `ibv_post_send`. -/
inductive TxUser where
  | message | wheel | write | read | retransmit
  deriving DecidableEq, Repr

/-- A work request as the NIC takes it. -/
structure Post (F : Type) where
  user : TxUser
  qpidx : ℕ
  opcode : Opcode
  imm : IMMData
  wrId : Option (UintCsn × F)
  byteLen : ℕ
  remoteAddr : ℕ
  buff : ℕ
  seq : ℕ

/-- `TXTracking::ChunkTrack`. -/
structure ChunkTrack (F : Type) where
  ureq : ReqId
  wrEx : WrEx F
  csn : UintCsn
  lastChunk : Bool

/-- `UcclSackHdr`. -/
structure UcclSackHdr where
  fid : BitVec 32
  path : ℕ
  ackno : BitVec 16
  sackBitmapCount : BitVec 16
  sackBitmap : SackBitmap
  seq : ℕ

-- ── Subflows

/-- `RXTracking`; an entry of `ready_csn_` carries the request to complete when
    its chunk was the last of a message, and a null pointer otherwise. -/
structure RXTracking where
  readyCsn : List (UintCsn × Option (Fin 16)) := []
  ooo : Bool := false
  cumulativeWqe : ℕ := 0
  cumulativeBytes : ℕ := 0
  consectutiveOoo : ℕ := 0

/-- `SubUcclFlow`. -/
structure SubUcclFlow (F : Type) where
  fid : BitVec 32 := 0
  nextAckPath : ℕ := 0
  unackedBytes : ℕ := 0
  inWheelCnt : ℕ := 0
  pcb : PCB := {}
  rtoArmed : Bool := false
  unackedChunks : List (ChunkTrack F) := []
  rxtracking : RXTracking := {}
  reqs : Fin 16 → RecvRequest := fun _ => {}
  sentChunks : ℕ := 0
  ackedChunks : ℕ := 0
  rcvdChunks : ℕ := 0

-- ── The two roles of an engine

/-- The transmit side: its subflows and requests, the timing wheel with its ready queue, the buffer pool (oldest
    first), the byte counter, the timers, the work requests posted so far and the requests woken up so far. -/
structure SenderCtx (F : Type) where
  flows : F → SubUcclFlow F
  senderFlowTbl : BitVec 32 → F
  ureqs : ReqId → UcclRequest F
  wheel : List (WrEx F) := []
  readyQueue : List (WrEx F) := []
  wrExPool : List (WrEx F) := []
  engineUnackedBytes : ℕ := 0
  rto : TimerManager F
  sq : List (Post F) := []
  wakeups : List ReqId := []

/-- One addition to a `received_bytes`. -/
structure Accepted where
  seq : ℕ
  rid : Fin 16
  ureq : ReqId
  len : ℕ
  deriving DecidableEq, Repr

/-- One completed receive request. -/
structure Completed where
  ureq : ReqId
  dataLen : ℕ
  deriving DecidableEq, Repr

/-- The receive side: its subflows and requests, the pending-ACK list, the ACKs
    posted so far, and the log of accepted chunks and completed requests. -/
structure ReceiverCtx (F : Type) where
  flows : F → SubUcclFlow F
  receiverFlowTbl : BitVec 32 → F
  ureqs : ReqId → RecvUreq F
  ackList : List F := []
  acks : List UcclSackHdr := []
  accepted : List Accepted := []
  completed : List Completed := []

section

variable {F : Type} [DecidableEq F]

/-- Change one subflow of a sender. -/
def SenderCtx.modFlow (e : SenderCtx F) (f : F) (g : SubUcclFlow F → SubUcclFlow F) :
    SenderCtx F :=
  { e with flows := Function.update e.flows f (g (e.flows f)) }

/-- Change one subflow of a receiver. -/
def ReceiverCtx.modFlow (e : ReceiverCtx F) (f : F) (g : SubUcclFlow F → SubUcclFlow F) :
    ReceiverCtx F :=
  { e with flows := Function.update e.flows f (g (e.flows f)) }

section

variable (e : SenderCtx F) (f : F)

@[simp] theorem SenderCtx.modFlow_flows_self
    (g : SubUcclFlow F → SubUcclFlow F) : (e.modFlow f g).flows f = g (e.flows f) :=
  Function.update_self ..

theorem SenderCtx.modFlow_flows_of_ne {f f' : F} (h : f' ≠ f)
    (g : SubUcclFlow F → SubUcclFlow F) : (e.modFlow f g).flows f' = e.flows f' :=
  Function.update_of_ne h ..

@[simp] theorem ReceiverCtx.modFlow_flows_self (e : ReceiverCtx F) (f : F)
    (g : SubUcclFlow F → SubUcclFlow F) : (e.modFlow f g).flows f = g (e.flows f) :=
  Function.update_self ..

theorem ReceiverCtx.modFlow_flows_of_ne (e : ReceiverCtx F) {f f' : F} (h : f' ≠ f)
    (g : SubUcclFlow F → SubUcclFlow F) : (e.modFlow f g).flows f' = e.flows f' :=
  Function.update_of_ne h ..

@[simp] theorem SenderCtx.modFlow_ureqs (g : SubUcclFlow F → SubUcclFlow F) : (e.modFlow f g).ureqs = e.ureqs := rfl
@[simp] theorem SenderCtx.modFlow_engineUnackedBytes (g : SubUcclFlow F → SubUcclFlow F) :
    (e.modFlow f g).engineUnackedBytes = e.engineUnackedBytes := rfl

end

end

end RdmaState
