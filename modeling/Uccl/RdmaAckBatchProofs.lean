import Uccl.RdmaReceiveProofs
import Uccl.StepRunProofs

/-! # The packet of a batch of ACKs

    `uc_poll_recv_cq` (rdma_io.cc) handles up to `kMaxBatchCQ` completions and then has `uc_post_acks` put one
    `UcclSackHdr` for every pending subflow into a single packet. The buffers that `check_ctrl_rq` posts on
    the other side are as long as the headers of a full batch, but the device writes `UD_ADDITION` bytes
    before the packet: it fits as long as at most fourteen subflows are pending. -/

namespace RdmaAckBatch

open StepRun RdmaPcb RdmaImm RdmaState RdmaReceive List Except

variable {F : Type} [DecidableEq F] {cfg : Config} {e e' : ReceiverCtx F}

/-- Completions handled by one poll. -/
def kMaxBatchCQ : ℕ := 16

/-- `CtrlChunkBuffPool::kPktSize`, which is also `sizeof(UcclSackHdr)`. -/
def kPktSize : ℕ := 36

/-- `CtrlChunkBuffPool::kChunkSize`. -/
def kChunkSize : ℕ := kPktSize * kMaxBatchCQ

/-- Headroom for UD packets. -/
def UD_ADDITION : ℕ := 40

/-- A completion: a retransmitted chunk (a SEND), or a chunk (a write with immediate). -/
structure Completion where
  rtx : Bool := false
  chunk : RxChunk

/-- The body of the loop of `uc_poll_recv_cq`. -/
def ucRx (cfg : Config) (e : ReceiverCtx F) (c : Completion) : Except Fault (ReceiverCtx F) :=
  if c.rtx then ucRxRtxChunk cfg e c.chunk else ucRxChunk cfg e c.chunk

/-- Bytes of the packet that `uc_post_acks` builds. -/
def ackPacketLen (e : ReceiverCtx F) : ℕ := kPktSize * e.ackList.length

/-- The packet fits the buffer behind the bytes that the receiver skips. -/
def Fits (e : ReceiverCtx F) : Prop := UD_ADDITION + ackPacketLen e ≤ kChunkSize

theorem ackList_takeChunk {f : F} {id : ReqId} {c : RxChunk} {len distance : ℕ}
    (h : takeChunk cfg e f id c len distance = .ok e') : e'.ackList = e.ackList := by
  unfold takeChunk at h
  split at h
  · cases h
  · refine (tryUpdateCsn_rule (I := fun x => x.ackList = e.ackList) ?_ (by rfl) h).1
    intro x x1 req rest hx _ hfin
    cases req with
    | none => exact ok.inj hfin ▸ hx
    | some rid =>
      simp only [finishEntry, completeRecv] at hfin
      split at hfin
      · cases hfin
      · exact ok.inj hfin ▸ hx

theorem length_queueAck_le (e : ReceiverCtx F) (f : F) (path : ℕ) :
    (queueAck e f path).ackList.length ≤ e.ackList.length + 1 := by
  unfold queueAck
  split
  · exact Nat.le_succ _
  · rw [length_append, length_singleton]

theorem length_ackArrival_le (e : ReceiverCtx F) (f : F) (inOrder : Bool) (c : RxChunk) :
    (ackArrival cfg e f inOrder c).ackList.length ≤ e.ackList.length + 1 := by
  unfold ackArrival
  dsimp only
  split
  · -- an immediate ACK takes its subflow off the list again
    exact length_erase_le.trans (length_queueAck_le _ f (c.qpidx % 2 ^ 16))
  · exact length_queueAck_le _ f _

/-- A completion makes at most one more subflow pending. -/
theorem length_ucRx_le {c : Completion} (h : ucRx cfg e c = .ok e') : e'.ackList.length ≤ e.ackList.length + 1 := by
  unfold ucRx at h
  split at h
  · rcases ucRxRtxChunk_cases cfg e c.chunk rfl with hd | ⟨hd, -⟩ | ⟨id, e1, -, htake, hd⟩
    · rw [← ok.inj (hd.symm.trans h)]
      exact Nat.le_succ _
    · rw [hd] at h
      cases h
    · have hlist : e1.ackList = e.ackList := (ackList_takeChunk htake).trans rfl
      rw [← ok.inj (hd.symm.trans h), ← hlist]
      exact length_queueAck_le _ _ _
  · rcases ucRxChunk_cases cfg e c.chunk rfl with hd | hd | hd | ⟨id, e1, -, htake, hd⟩
    · rw [← ok.inj (hd.symm.trans h)]
      exact Nat.le_succ _
    · rw [hd] at h
      cases h
    · rw [hd] at h
      cases h
    · rw [← ok.inj (hd.symm.trans h), ← ackList_takeChunk htake]
      exact length_ackArrival_le _ _ _ _

theorem length_run_le {cs : List Completion} (h : runFrom (ucRx cfg) e cs = .ok e') :
    e'.ackList.length ≤ e.ackList.length + cs.length := by
  induction cs generalizing e with
  | nil =>
    obtain rfl : e = e' := ok.inj h
    exact le_rfl
  | cons c cs ih =>
    obtain ⟨e1, hstep, hrun⟩ := runFrom_cons_inv h
    have h1 := length_ucRx_le hstep
    have h2 := ih hrun
    rw [length_cons]
    omega

/-- **A BATCH OF ACKS FITS** the buffer exactly if at most fourteen subflows are pending when `uc_post_acks` is
    called. -/
theorem ackPacket_fits_iff {cs : List Completion} (hempty : e.ackList = []) (hrun : runFrom (ucRx cfg) e cs = .ok e') :
    (Fits e' ↔ e'.ackList.length ≤ 14) ∧ (cs.length ≤ 14 → Fits e') := by
  have hiff : Fits e' ↔ e'.ackList.length ≤ 14 := by
    unfold Fits ackPacketLen kChunkSize UD_ADDITION kPktSize kMaxBatchCQ
    omega
  refine ⟨hiff, fun hlen => hiff.mpr ?_⟩
  have hle := length_run_le hrun
  rw [hempty, length_nil] at hle
  omega

/-- A context in which every subflow has a receive posted. -/
def manyFlows : ReceiverCtx ℕ :=
  { flows := fun f => { reqs := fun _ => { type := .RECV, ureq := some f } }
    receiverFlowTbl := BitVec.toNat
    ureqs := fun id => { context := id, dataLen := 0 } }

/-- One byte for each of the first `n` subflows. -/
def oneEach (n : ℕ) : List Completion :=
  (List.range n).map fun i =>
    { chunk := { imm := immOf (BitVec.ofNat 32 i) true 0 0, byteLen := 1, qpidx := 0, seq := 0 } }

theorem ackPacket_fits_fourteen : ∃ e', runFrom (ucRx defaultConfig) manyFlows (oneEach 14) = .ok e' ∧
      (Fits e' ↔ e'.ackList.length ≤ 14) ∧ Fits e' := by
  refine exists_run_of_eval (fun _ => True) ?_ fun e' hrun _ => ?_
  · decide +kernel
  · have h := ackPacket_fits_iff rfl hrun
    exact ⟨h.1, h.2 (by decide)⟩

/-- Sixteen completions of different subflows lead to a packet of 576 bytes, of which the
    last 40 are behind the end of the buffer. -/
theorem ackPacket_overflows : ∃ e', runFrom (ucRx defaultConfig) manyFlows (oneEach kMaxBatchCQ) = .ok e' ∧
      ackPacketLen e' = 576 ∧ ¬ Fits e' := by
  refine exists_run_of_eval (fun e' => e'.ackList.length = 16) ?_ fun e' hrun hlen => ?_
  · decide +kernel
  · have hpkt : ackPacketLen e' = 576 := congrArg (kPktSize * ·) hlen
    refine ⟨hpkt, fun hfits => ?_⟩
    unfold Fits at hfits
    rw [hpkt] at hfits
    exact absurd hfits (by decide)

end RdmaAckBatch
