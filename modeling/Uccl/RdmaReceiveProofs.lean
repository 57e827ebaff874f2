import Uccl.RdmaStateProofs
import Uccl.OrderedSetProofs

/-! # The receive path

    `supply_rx_buff`, `uc_rx_chunk`, `uc_rx_rtx_chunk`, `rc_rx_chunk`, `try_update_csn`, `craft_ack` and
    `uc_post_acks` (transport.cc), with the immediate-ACK bookkeeping of `RXTracking` (rdma_io.h).

    `ready_csn_` is a `std::set` of pairs compared first by `UINT_CSN::operator<` and then by pointer, kept
    here as its traversal order. An entry's pointer is the request to complete, or null. `ack_list_` is the
    list of subflows whose `ack_link` is queued: `list_empty(&ack_link)` says the subflow is not in it.

    An ACK is crafted from the state at that moment and joins the ACKs posted so far; `flush_acks` only rings
    the doorbell for them. -/

namespace RdmaReceive

open RdmaPcb RdmaImm RdmaState List

variable {F : Type} [DecidableEq F]
variable {e e₁ : ReceiverCtx F} {f : F} {id : ReqId} {cfg : Config} {c : RxChunk} {rid : Fin 16}

/-- What a receive completion tells: the immediate (or the retransmission header's
    copy of it), the length in bytes and the QP. -/
structure RxChunk where
  imm : IMMData
  byteLen : ℕ
  qpidx : ℕ
  seq : ℕ
  deriving DecidableEq, Repr

/-- The completion that a delivered work request raises. -/
def rxOf {F : Type} (p : Post F) : RxChunk :=
  { imm := p.imm, byteLen := p.byteLen, qpidx := p.qpidx, seq := p.seq }

-- ── Requests

/-- `alloc_recvreq`: the first unused slot. -/
def allocRecvreq (sf : SubUcclFlow F) : Option (Fin 16) :=
  (List.finRange 16).find? fun i => decide ((sf.reqs i).type = .UNUSED)

/-- `supply_rx_buff`: take a slot for the request, or fail with -1. -/
def supplyRxBuff (e : ReceiverCtx F) (id : ReqId) : ReceiverCtx F × Option (Fin 16) :=
  let f := (e.ureqs id).context
  match allocRecvreq (e.flows f) with
  | none => (e, none)
  | some rid =>
    (e.modFlow f fun sf =>
      { sf with reqs := Function.update sf.reqs rid { type := .RECV, ureq := some id } },
     some rid)

/-- The lookup at the top of every receive routine: the request behind `rid` if it is a receive on this flow. -/
def locateReq (e : ReceiverCtx F) (f : F) (rid : Fin 16) : Except Fault (Option ReqId) :=
  let req := (e.flows f).reqs rid
  if req.type ≠ .RECV then .ok none
  else
    match req.ureq with
    | none => .error .nullUreq
    | some id => .ok (if (e.ureqs id).context = f then some id else none)

/-- Report the length, wake the application up and free the slot. -/
def completeRecv (e : ReceiverCtx F) (f : F) (rid : Fin 16) : Except Fault (ReceiverCtx F) :=
  let req := (e.flows f).reqs rid
  match req.ureq with
  | none => .error .nullUreq
  | some id =>
    .ok { (e.modFlow f fun sf => { sf with reqs := Function.update sf.reqs rid {} }) with
      ureqs := Function.update e.ureqs id { e.ureqs id with dataLen := req.receivedBytes }
      completed := e.completed ++ [{ ureq := id, dataLen := req.receivedBytes }] }

theorem completeRecv_eq (h : ((e.flows f).reqs rid).ureq = some id) :
    completeRecv e f rid = .ok { (e.modFlow f fun sf => { sf with reqs := Function.update sf.reqs rid {} }) with
        ureqs := Function.update e.ureqs id { e.ureqs id with dataLen := ((e.flows f).reqs rid).receivedBytes }
        completed := e.completed ++ [{ ureq := id, dataLen := ((e.flows f).reqs rid).receivedBytes }] } := by
  simp only [completeRecv, h]

-- ── ready_csn_

/-- Pointers into the request table compare by position; null is least. -/
def ptrLt : Option (Fin 16) → Option (Fin 16) → Bool
  | _, none => false
  | none, some _ => true
  | some i, some j => decide (i < j)

/-- `std::pair`'s comparison on the entries of `ready_csn_`. -/
def readyLt (a b : UintCsn × Option (Fin 16)) : Bool :=
  seqnoLt a.1 b.1 || (!seqnoLt b.1 a.1 && ptrLt a.2 b.2)

/-- Erase the first entry, advance `rcv_nxt` and, in UC mode, shift the bitmap. -/
def popReady (cfg : Config) (e : ReceiverCtx F) (f : F)
    (rest : List (UintCsn × Option (Fin 16))) : ReceiverCtx F :=
  e.modFlow f fun sf =>
    { sf with
      rxtracking := { sf.rxtracking with readyCsn := rest }
      pcb := if !cfg.rcMode then sf.pcb.advanceRcvNxt.sackBitmapShiftLeftOne
        else sf.pcb.advanceRcvNxt
      rcvdChunks := sf.rcvdChunks + 1 }

/-- `if (req) { … }` of `try_update_csn`: only a message's last chunk completes a request. -/
def finishEntry (e : ReceiverCtx F) (f : F) : Option (Fin 16) → Except Fault (ReceiverCtx F)
  | none => .ok e
  | some rid => completeRecv e f rid

/-- The loop of `try_update_csn`; each turn erases an entry. -/
def tryUpdateCsnLoop (cfg : Config) (f : F) : ℕ → ReceiverCtx F → Except Fault (ReceiverCtx F)
  | 0, e => .ok e
  | n + 1, e =>
    match (e.flows f).rxtracking.readyCsn with
    | [] => .ok e
    | (csn, req) :: rest =>
      if csn = (e.flows f).pcb.rcvNxt then
        match finishEntry e f req with
        | .error x => .error x
        | .ok e => tryUpdateCsnLoop cfg f n (popReady cfg e f rest)
      else .ok e

/-- `try_update_csn`. -/
def tryUpdateCsn (cfg : Config) (e : ReceiverCtx F) (f : F) : Except Fault (ReceiverCtx F) :=
  tryUpdateCsnLoop cfg f (e.flows f).rxtracking.readyCsn.length e

/-- Add the bytes to the request and put the CSN into `ready_csn_`. -/
def acceptChunk (e : ReceiverCtx F) (f : F) (id : ReqId) (c : RxChunk) (len : ℕ) :
    ReceiverCtx F :=
  let rid := c.imm.rid
  { (e.modFlow f fun sf =>
      { sf with
        reqs := Function.update sf.reqs rid
          { sf.reqs rid with receivedBytes := addU32 (sf.reqs rid).receivedBytes len }
        rxtracking := { sf.rxtracking with
          readyCsn := OrderedSet.insert readyLt
            (c.imm.csn, if c.imm.lastChunk then some rid else none) sf.rxtracking.readyCsn } }) with
    accepted := e.accepted ++ [{ seq := c.seq, rid := rid, ureq := id, len := len }] }

-- ── ACKs

/-- `craft_ack`. -/
def craftAck (sf : SubUcclFlow F) : UcclSackHdr :=
  { fid := (sf.fid.setWidth 16).setWidth 32
    path := sf.nextAckPath
    ackno := sf.pcb.ackno.setWidth 16
    sackBitmapCount := sf.pcb.sackBitmapCount.setWidth 16
    sackBitmap := sf.pcb.sackBitmap
    seq := sf.rcvdChunks }

/-- Craft an ACK for a subflow and post it. -/
def postAck (e : ReceiverCtx F) (f : F) : ReceiverCtx F :=
  { e with acks := e.acks ++ [craftAck (e.flows f)] }

/-- `uc_post_acks`: one ACK for every queued subflow. -/
def ucPostAcks (e : ReceiverCtx F) : ReceiverCtx F :=
  { e.ackList.foldl postAck e with ackList := [] }

/-- `if (list_empty(&ack_link)) list_add_tail(&ack_link, &ack_list_)`, and the path the ACK will name. -/
def queueAck (e : ReceiverCtx F) (f : F) (path : ℕ) : ReceiverCtx F :=
  { (e.modFlow f fun sf => { sf with nextAckPath := path }) with
    ackList := if f ∈ e.ackList then e.ackList else e.ackList ++ [f] }

/-- `encounter_ooo`. -/
def RXTracking.encounterOoo (t : RXTracking) : RXTracking :=
  if t.consectutiveOoo + 1 ≥ kMAXRXOOO then { t with ooo := true, consectutiveOoo := 0 }
  else { t with consectutiveOoo := t.consectutiveOoo + 1 }

/-- `cumulate_wqe` and `cumulate_bytes`, after `encounter_ooo` for a chunk that is not the next one. -/
def RXTracking.noteArrival (t : RXTracking) (inOrder : Bool) (bytes : ℕ) : RXTracking :=
  let t := if inOrder then t else RXTracking.encounterOoo t
  { t with
    cumulativeWqe := addU32 t.cumulativeWqe 1
    cumulativeBytes := addU32 t.cumulativeBytes bytes }

/-- `need_imm_ack`. -/
def RXTracking.needImmAck (cfg : Config) (t : RXTracking) : Bool :=
  t.ooo || decide (t.cumulativeWqe = kMAXCumWQE) || decide (t.cumulativeBytes ≥ cfg.kMAXCumBytes)

/-- `clear_imm_ack`. -/
def RXTracking.clearImmAck (t : RXTracking) : RXTracking :=
  { t with ooo := false, cumulativeWqe := 0, cumulativeBytes := 0, consectutiveOoo := 0 }

/-- The tail of `uc_rx_chunk`: count the arrival, queue an ACK, and send it at once if one is needed. -/
def ackArrival (cfg : Config) (e : ReceiverCtx F) (f : F) (inOrder : Bool) (c : RxChunk) :
    ReceiverCtx F :=
  let e := e.modFlow f fun sf =>
    { sf with rxtracking := RXTracking.noteArrival sf.rxtracking inOrder c.byteLen }
  let e := queueAck e f (c.qpidx % 2 ^ 16)
  if RXTracking.needImmAck cfg (e.flows f).rxtracking then
    let e := postAck e f
    { (e.modFlow f fun sf => { sf with rxtracking := RXTracking.clearImmAck sf.rxtracking }) with
      ackList := e.ackList.erase f }
  else e

-- ── The receive routines

/-- `stats_chunk_drop++; return`. -/
def dropChunk (e : ReceiverCtx F) (f : F) : ReceiverCtx F :=
  e.modFlow f fun sf =>
    { sf with pcb := { sf.pcb with statsChunkDrop := sf.pcb.statsChunkDrop + 1 } }

/-- `stats_retr_chunk_drop++; return`. -/
def dropRetrChunk (e : ReceiverCtx F) (f : F) : ReceiverCtx F :=
  e.modFlow f fun sf =>
    { sf with pcb := { sf.pcb with statsRetrChunkDrop := sf.pcb.statsRetrChunkDrop + 1 } }

/-- `stats_accept_retr++`. -/
def countAcceptRetr (e : ReceiverCtx F) (f : F) : ReceiverCtx F :=
  e.modFlow f fun sf =>
    { sf with pcb := { sf.pcb with statsAcceptRetr := sf.pcb.statsAcceptRetr + 1 } }

/-- Set the SACK bit, account the chunk and advance `rcv_nxt`. -/
def takeChunk (cfg : Config) (e : ReceiverCtx F) (f : F) (id : ReqId) (c : RxChunk)
    (len distance : ℕ) : Except Fault (ReceiverCtx F) :=
  match (e.flows f).pcb.sackBitmapBitSet distance with
  | .error x => .error x
  | .ok pcb =>
    tryUpdateCsn cfg (acceptChunk (e.modFlow f fun sf => { sf with pcb := pcb }) f id c len) f

/-- `uc_rx_chunk`. -/
def ucRxChunk (cfg : Config) (e : ReceiverCtx F) (c : RxChunk) : Except Fault (ReceiverCtx F) :=
  let f := e.receiverFlowTbl (IMMData.getFID c.imm)
  match locateReq e f c.imm.rid with
  | .error x => .error x
  | .ok none => .ok (dropChunk e f)
  | .ok (some id) =>
    let ecsn := (e.flows f).pcb.rcvNxt
    let distance := (c.imm.csn - ecsn).toNat
    if seqnoLt c.imm.csn ecsn then .ok (dropChunk e f)
    else if distance > kReassemblyMaxSeqnoDistance then .ok (dropChunk e f)
    else if (e.flows f).pcb.sackBitmapBitIsSet distance then .error .duplicateChunk
    else
      match takeChunk cfg e f id c c.byteLen distance with
      | .error x => .error x
      | .ok e => .ok (ackArrival cfg e f (decide (distance = 0)) c)

/-- `uc_rx_rtx_chunk`.  The three drop branches return before an ACK is queued. -/
def ucRxRtxChunk (cfg : Config) (e : ReceiverCtx F) (c : RxChunk) :
    Except Fault (ReceiverCtx F) :=
  let f := e.receiverFlowTbl (IMMData.getFID c.imm)
  let chunkLen := subU32 c.byteLen retrChunkHdrSize
  match locateReq e f c.imm.rid with
  | .error x => .error x
  | .ok none => .ok (dropRetrChunk e f)
  | .ok (some id) =>
    let ecsn := (e.flows f).pcb.rcvNxt
    let distance := (c.imm.csn - ecsn).toNat
    if seqnoLt c.imm.csn ecsn then .ok (dropRetrChunk e f)
    else if distance > kReassemblyMaxSeqnoDistance then .ok (dropRetrChunk e f)
    else if (e.flows f).pcb.sackBitmapBitIsSet distance then .ok (dropRetrChunk e f)
    else
      match takeChunk cfg (countAcceptRetr e f) f id c chunkLen distance with
      | .error x => .error x
      -- `std::numeric_limits<uint16_t>::max()`: the ACK names no path
      | .ok e => .ok (queueAck e f (2 ^ 16 - 1))

/-- `rc_rx_chunk`: no CSN check and no bitmap; a chunk without its request stops the process. -/
def rcRxChunk (cfg : Config) (e : ReceiverCtx F) (c : RxChunk) : Except Fault (ReceiverCtx F) :=
  let f := e.receiverFlowTbl (IMMData.getFID c.imm)
  match locateReq e f c.imm.rid with
  | .error x => .error x
  | .ok none => .error .noRecvRequest
  | .ok (some id) => tryUpdateCsn cfg (acceptChunk e f id c c.byteLen) f

-- ── Rules for the receive routines

omit [DecidableEq F] in
/-- `uc_post_acks` posts one ACK for every queued subflow, all from the same state. -/
theorem ucPostAcks_eq (e : ReceiverCtx F) : ucPostAcks e =
    { e with acks := e.acks ++ e.ackList.map fun f => craftAck (e.flows f), ackList := [] } := by
  have hfold : ∀ (fs : List F) (e : ReceiverCtx F), fs.foldl postAck e =
      { e with acks := e.acks ++ fs.map fun f => craftAck (e.flows f) } := by
    intro fs
    induction fs with
    | nil =>
      intro e
      rw [map_nil, append_nil]
      rfl
    | cons f fs ih =>
      intro e
      rw [foldl_cons, ih]
      show ({ e with acks := (e.acks ++ [_]) ++ _ } : ReceiverCtx F) = _
      rw [append_assoc]
      rfl
  rw [ucPostAcks, hfold]

theorem locateReq_error {x : Fault} (h : locateReq e f rid = .error x) : x = .nullUreq := by
  simp only [locateReq] at h
  split at h
  · cases h
  · split at h
    · exact (Except.error.inj h).symm
    · cases h

/-- `try_update_csn` has nothing left to do: no entry is at `rcv_nxt`. -/
def CaughtUp (sf : SubUcclFlow F) : Prop :=
  ∀ csn req rest, sf.rxtracking.readyCsn = (csn, req) :: rest → csn ≠ sf.pcb.rcvNxt

section

variable {cfg : Config} {I : ReceiverCtx F → Prop} (hpop : ∀ e e₁ req rest, I e →
  (e.flows f).rxtracking.readyCsn = ((e.flows f).pcb.rcvNxt, req) :: rest →
  finishEntry e f req = .ok e₁ → I (popReady cfg e₁ f rest))

include hpop

/-- **THE CATCH-UP RULE**: what one erased entry keeps, `try_update_csn` keeps, and
    it returns only when it has caught up. -/
theorem tryUpdateCsnLoop_rule : ∀ (n : ℕ) (e e' : ReceiverCtx F), (e.flows f).rxtracking.readyCsn.length ≤ n → I e →
      tryUpdateCsnLoop cfg f n e = .ok e' → I e' ∧ CaughtUp (e'.flows f) := by
  intro n
  induction n with
  | zero =>
    intro e e' hn hi h
    cases h
    refine ⟨hi, fun csn req rest hready => ?_⟩
    rw [eq_nil_of_length_eq_zero (Nat.le_zero.mp hn)] at hready
    cases hready
  | succ n ih =>
    intro e e' hn hi h
    simp only [tryUpdateCsnLoop] at h
    split at h
    · next hready =>
      cases h
      refine ⟨hi, fun csn req rest hcons => ?_⟩
      rw [hready] at hcons
      cases hcons
    · next csn req rest hready =>
      split at h
      · next hcsn =>
        split at h
        · cases h
        · next e₁ hfin =>
          refine ih _ e' ?_ (hpop e e₁ req rest hi (hcsn ▸ hready) hfin) h
          rw [hready] at hn
          unfold popReady
          rw [ReceiverCtx.modFlow_flows_self]
          exact Nat.le_of_succ_le_succ hn
      · next hcsn =>
        cases h
        refine ⟨hi, fun csn' req' rest' hcons => ?_⟩
        rw [hready] at hcons
        obtain ⟨hpair, -⟩ := cons.inj hcons
        have hfst : csn = csn' := congrArg Prod.fst hpair
        rw [← hfst]
        exact hcsn

theorem tryUpdateCsn_rule {e' : ReceiverCtx F} (hi : I e) (h : tryUpdateCsn cfg e f = .ok e') :
    I e' ∧ CaughtUp (e'.flows f) :=
  tryUpdateCsnLoop_rule hpop _ e e' le_rfl hi h

/-- Where every entry at `rcv_nxt` can be finished, catching up does not stop. -/
theorem tryUpdateCsnLoop_ok (hfinish : ∀ e req rest, I e →
      (e.flows f).rxtracking.readyCsn = ((e.flows f).pcb.rcvNxt, req) :: rest →
      ∃ e₁, finishEntry e f req = .ok e₁) :
    ∀ (n : ℕ) (e : ReceiverCtx F), I e → ∃ e', tryUpdateCsnLoop cfg f n e = .ok e' := by
  intro n
  induction n with
  | zero => intro e _; exact ⟨e, rfl⟩
  | succ n ih =>
    intro e hi
    simp only [tryUpdateCsnLoop]
    split
    · exact ⟨e, rfl⟩
    · next csn req rest hready =>
      split
      · next hcsn =>
        rw [hcsn] at hready
        obtain ⟨e₁, hfin⟩ := hfinish e req rest hi hready
        rw [hfin]
        exact ih _ (hpop e e₁ req rest hi hready hfin)
      · exact ⟨e, rfl⟩

end

/-- Catching up can only stop on a request that was already cleared. -/
theorem tryUpdateCsnLoop_error : ∀ (n : ℕ) (e : ReceiverCtx F) (x : Fault),
      tryUpdateCsnLoop cfg f n e = .error x → x = .nullUreq := by
  intro n
  induction n with
  | zero => intro e x h; cases h
  | succ n ih =>
    intro e x h
    simp only [tryUpdateCsnLoop] at h
    split at h
    · cases h
    · next csn req rest hready =>
      split at h
      · split at h
        · next y hfin =>
          rw [← Except.error.inj h]
          cases req with
          | none => cases hfin
          | some rid =>
            simp only [finishEntry, completeRecv] at hfin
            split at hfin
            · exact (Except.error.inj hfin).symm
            · cases hfin
        · exact ih _ x h
      · cases h

/-- Completing a request touches the request table of its subflow only. -/
theorem finishEntry_flows {req : Option (Fin 16)} (h : finishEntry e f req = .ok e₁) :
    (∃ reqs, e₁.flows f = { e.flows f with reqs := reqs }) ∧ ∀ g, g ≠ f → e₁.flows g = e.flows g := by
  cases req with
  | none =>
    cases h
    exact ⟨⟨_, rfl⟩, fun _ _ => rfl⟩
  | some rid =>
    simp only [finishEntry, completeRecv] at h
    split at h
    · cases h
    · cases h
      exact ⟨⟨_, Function.update_self ..⟩, fun g hg => Function.update_of_ne hg ..⟩

/-- In range, a chunk is taken without a fault of the bitmap. -/
theorem takeChunk_of_lt (cfg : Config) (e : ReceiverCtx F) (f : F) (id : ReqId) (c : RxChunk)
    (len : ℕ) {distance : ℕ} (h : distance < 128) :
    takeChunk cfg e f id c len distance = tryUpdateCsn cfg (acceptChunk (e.modFlow f fun sf => { sf with pcb :=
        { (e.flows f).pcb with
          sackBitmap := WordBitmap.setBit (e.flows f).pcb.sackBitmap distance
          sackBitmapCount := (e.flows f).pcb.sackBitmapCount + 1 } }) f id c len) f := by
  unfold takeChunk
  rw [PCB.sackBitmapBitSet_of_lt _ h]

/-- The tests of both UC receive routines: there is a request for the chunk, its CSN does not compare as
    behind, and its SACK bit is clear. -/
structure Admitted (e : ReceiverCtx F) (f : F) (c : RxChunk) (id : ReqId) : Prop where
  located : locateReq e f c.imm.rid = .ok (some id)
  notBehind : seqnoLt c.imm.csn (e.flows f).pcb.rcvNxt = false
  clear : (e.flows f).pcb.sackBitmapBitIsSet (c.imm.csn - (e.flows f).pcb.rcvNxt).toNat = false

/-- **WHAT `uc_rx_chunk` DOES**: it drops the chunk, or admits and takes it, or stops
    on a duplicate or a cleared request. -/
theorem ucRxChunk_cases (cfg : Config) (e : ReceiverCtx F) (c : RxChunk)
    (hf : f = e.receiverFlowTbl (IMMData.getFID c.imm)) : ucRxChunk cfg e c = .ok (dropChunk e f) ∨
    ucRxChunk cfg e c = .error .duplicateChunk ∨ ucRxChunk cfg e c = .error .nullUreq ∨
    ∃ id e₁, Admitted e f c id ∧ takeChunk cfg e f id c c.byteLen (c.imm.csn - (e.flows f).pcb.rcvNxt).toNat = .ok e₁ ∧
      ucRxChunk cfg e c = .ok (ackArrival cfg e₁ f (decide ((c.imm.csn - (e.flows f).pcb.rcvNxt).toNat = 0)) c) := by
  subst hf
  unfold ucRxChunk
  dsimp only
  cases hloc : locateReq e (e.receiverFlowTbl (IMMData.getFID c.imm)) c.imm.rid with
  | error x =>
    rw [locateReq_error hloc]
    exact .inr (.inr (.inl rfl))
  | ok found =>
    cases found with
    | none => exact .inl rfl
    | some id =>
      dsimp only
      split
      · exact .inl rfl
      · next hlt =>
        have hlt' := Bool.eq_false_iff.mpr hlt
        have hdist := distance_lt_of_not_seqnoLt hlt'
        split
        · exact .inl rfl
        · split
          · exact .inr (.inl rfl)
          · next hbit =>
            have hadm : Admitted e _ c id := ⟨hloc, hlt', Bool.eq_false_iff.mpr hbit⟩
            cases htake : takeChunk cfg e _ id c c.byteLen _ with
            | error x =>
              have hx : x = .nullUreq := by
                rw [takeChunk_of_lt cfg e _ id c _ hdist] at htake
                exact tryUpdateCsnLoop_error _ _ x htake
              rw [hx]
              exact .inr (.inr (.inl rfl))
            | ok e₁ => exact .inr (.inr (.inr ⟨id, e₁, hadm, htake, rfl⟩))

/-- **WHAT `uc_rx_rtx_chunk` DOES**: the same, except that a duplicate is dropped. -/
theorem ucRxRtxChunk_cases (cfg : Config) (e : ReceiverCtx F) (c : RxChunk)
    (hf : f = e.receiverFlowTbl (IMMData.getFID c.imm)) : ucRxRtxChunk cfg e c = .ok (dropRetrChunk e f) ∨
    (ucRxRtxChunk cfg e c = .error .nullUreq ∧ (locateReq e f c.imm.rid = .error .nullUreq ∨ ∃ id, Admitted e f c id ∧
        takeChunk cfg (countAcceptRetr e f) f id c (subU32 c.byteLen retrChunkHdrSize)
          (c.imm.csn - (e.flows f).pcb.rcvNxt).toNat = .error .nullUreq)) ∨
    ∃ id e₁, Admitted e f c id ∧ takeChunk cfg (countAcceptRetr e f) f id c (subU32 c.byteLen retrChunkHdrSize)
        (c.imm.csn - (e.flows f).pcb.rcvNxt).toNat = .ok e₁ ∧
      ucRxRtxChunk cfg e c = .ok (queueAck e₁ f (2 ^ 16 - 1)) := by
  subst hf
  unfold ucRxRtxChunk
  dsimp only
  cases hloc : locateReq e (e.receiverFlowTbl (IMMData.getFID c.imm)) c.imm.rid with
  | error x =>
    rw [locateReq_error hloc]
    exact .inr (.inl ⟨rfl, .inl rfl⟩)
  | ok found =>
    cases found with
    | none => exact .inl rfl
    | some id =>
      dsimp only
      split
      · exact .inl rfl
      · next hlt =>
        have hlt' := Bool.eq_false_iff.mpr hlt
        have hdist := distance_lt_of_not_seqnoLt hlt'
        split
        · exact .inl rfl
        · split
          · exact .inl rfl
          · next hbit =>
            have hadm : Admitted e _ c id := ⟨hloc, hlt', Bool.eq_false_iff.mpr hbit⟩
            cases htake : takeChunk cfg (countAcceptRetr e _) _ id c _ _ with
            | error x =>
              have hx : x = .nullUreq := by
                rw [takeChunk_of_lt cfg _ _ id c _ hdist] at htake
                exact tryUpdateCsnLoop_error _ _ x htake
              rw [hx] at htake ⊢
              exact .inr (.inl ⟨rfl, .inr ⟨id, hadm, htake⟩⟩)
            | ok e₁ => exact .inr (.inr ⟨id, e₁, hadm, htake, rfl⟩)

theorem Admitted.near (h : Admitted e f c id) :
    ¬ (c.imm.csn - (e.flows f).pcb.rcvNxt).toNat > kReassemblyMaxSeqnoDistance :=
  Nat.not_lt.mpr (Nat.le_of_lt (distance_lt_of_not_seqnoLt h.notBehind))

/-- An admitted chunk is taken. -/
theorem ucRxChunk_of_admitted (hf : e.receiverFlowTbl (IMMData.getFID c.imm) = f) (hadm : Admitted e f c id)
    (htake : takeChunk cfg e f id c c.byteLen (c.imm.csn - (e.flows f).pcb.rcvNxt).toNat = .ok e₁) :
    ucRxChunk cfg e c = .ok (ackArrival cfg e₁ f (decide ((c.imm.csn - (e.flows f).pcb.rcvNxt).toNat = 0)) c) := by
  simp only [ucRxChunk, hf, hadm.located, hadm.notBehind, hadm.clear, htake, if_neg hadm.near,
    Bool.false_eq_true, if_false]

theorem ucRxRtxChunk_of_admitted (hf : e.receiverFlowTbl (IMMData.getFID c.imm) = f) (hadm : Admitted e f c id)
    (htake : takeChunk cfg (countAcceptRetr e f) f id c (subU32 c.byteLen retrChunkHdrSize)
      (c.imm.csn - (e.flows f).pcb.rcvNxt).toNat = .ok e₁) :
    ucRxRtxChunk cfg e c = .ok (queueAck e₁ f (2 ^ 16 - 1)) := by
  simp only [ucRxRtxChunk, hf, hadm.located, hadm.notBehind, hadm.clear, htake, if_neg hadm.near,
    Bool.false_eq_true, if_false]

end RdmaReceive
