import Uccl.RdmaStateProofs

/-! # The transmit path

    `senderCC_tx_message`, `senderCC_tx_write`, `senderCC_tx_read` and `burst_timing_wheel` (transport.cc), with
    `TimelyRDMAContext::EventOnChunkSize` (transport.h) as the admission control and the `*_timer_for_flow` wrappers
    around the timer queue.

    What the source takes from its surroundings is an argument here: the QP that `select_qpidx_pot` picks, whether
    `queue_on_timing_wheel` queues a chunk it may also let pass, whether `ibv_post_send` succeeds, and the clock. The
    wheel itself is its list of entries in insertion order: a subflow's `desired_tx_tsc` never decreases, so its entries
    leave the wheel in that order, and which subflows have an entry due is an argument of `burstTimingWheel`. `insert`
    reaps as well, but only into the ready queue, which nothing reads before the next `burst_timing_wheel` reaps again.

    Each loop body is a function of its own, so that an invariant is proved for one chunk and lifted over the loop by
    `txLoop_invariant`. -/

namespace RdmaTransmit

open RdmaPcb RdmaImm RdmaTimer RdmaState Function

variable {F : Type} [DecidableEq F]

/-- What the surroundings decide for one chunk. -/
structure TxChoice where
  qpidx : ℕ := 0
  queue : Bool := false
  postOk : Bool := true
  now : ℕ := 0
  deriving DecidableEq, Repr

variable {body : SenderCtx F → ReqId → TxChoice → Except Fault (SenderCtx F × Bool)} {cs : ℕ → TxChoice}

-- ── Timers of a subflow

/-- `arm_timer_for_flow`. -/
def armTimerForFlow (e : SenderCtx F) (f : F) (now : ℕ) : SenderCtx F :=
  if !(e.flows f).rtoArmed then
    { (e.modFlow f fun sf => { sf with rtoArmed := true }) with rto := armTimer e.rto f now }
  else e

/-- `rearm_timer_for_flow`. -/
def rearmTimerForFlow (e : SenderCtx F) (f : F) (now : ℕ) : SenderCtx F :=
  if (e.flows f).rtoArmed then { e with rto := rearmTimer e.rto f now }
  else armTimerForFlow e f now

/-- `mark_flow_timeout`. -/
def markFlowTimeout (e : SenderCtx F) (f : F) : SenderCtx F :=
  e.modFlow f fun sf => { sf with rtoArmed := false }

/-- `disarm_timer_for_flow`. -/
def disarmTimerForFlow (e : SenderCtx F) (f : F) : SenderCtx F :=
  if (e.flows f).rtoArmed then
    { (e.modFlow f fun sf => { sf with rtoArmed := false }) with rto := disarmTimer e.rto f }
  else e

-- ── The buffer pool

/-- `free_buff`: the buffer goes to the tail; a full pool ignores it. -/
def freeBuff (pool : List (WrEx F)) (w : WrEx F) : List (WrEx F) :=
  if pool.length ≥ kNumWr - 1 then pool else pool ++ [w]

/-- `WrExBuffPool()`: every buffer is initialised once, for a write with immediate. -/
def initWrExPool : List (WrEx F) :=
  (List.range (kNumWr - 1)).map fun i => { buff := i }

-- ── Admission

/-- `TimelyRDMAContext::EventOnChunkSize`. -/
def eventOnChunkSize (cfg : Config) (engineUnackedBytes unackedBytes remainingBytes : ℕ) : ℕ :=
  let readyBytes := min remainingBytes cfg.chunkSize
  if addU32 engineUnackedBytes readyBytes > cfg.kMaxUnAckedBytesPerEngineHigh then 0
  else if addU32 engineUnackedBytes readyBytes ≤ cfg.kMaxUnAckedBytesPerEngineLow
      || addU32 unackedBytes readyBytes ≤ cfg.kMaxUnAckedBytesPerFlow then readyBytes
  else 0

/-- `TimelyRDMAContext::EventOnQueueData`: bypassing the wheel is allowed only while the subflow has no chunk in it. -/
def eventOnQueueData (sf : SubUcclFlow F) (c : TxChoice) : Bool :=
  if sf.inWheelCnt = 0 then c.queue else true

-- ── One chunk of a message

/-- The chunk of `chunkSize` bytes ends the message. -/
def isLastChunk (u : UcclRequest F) (chunkSize : ℕ) : Bool :=
  decide (addU32 u.sentOffset chunkSize = u.dataLen)

/-- The fields `senderCC_tx_message` writes into an allocated buffer. It leaves the opcode alone:
    "wr->sg_list/num_sge/next/opcode are already set". -/
def fillMessageWr (cfg : Config) (f : F) (sf : SubUcclFlow F) (u : UcclRequest F)
    (chunkSize : ℕ) (w : WrEx F) : WrEx F :=
  { w with
    sge := { addr := u.laddr + u.sentOffset, length := chunkSize, lkey := u.lkey }
    remoteAddr := u.raddr + u.sentOffset
    rkey := u.rkey
    imm := immOf sf.fid (isLastChunk u chunkSize) (BitVec.ofNat 32 u.rid.val) sf.pcb.sndNxt
    wrId := if cfg.rcMode then some (sf.pcb.sndNxt, f) else none
    seq := sf.sentChunks }

/-- The work request as posted. -/
def postOf (user : TxUser) (w : WrEx F) : Post F :=
  { user := user, qpidx := w.qpidx, opcode := w.opcode, imm := w.imm, wrId := w.wrId
    byteLen := w.sge.length, remoteAddr := w.remoteAddr, buff := w.buff, seq := w.seq }

/-- `ibv_post_send` followed by `track_chunk`. -/
def postAndTrack (e : SenderCtx F) (f : F) (user : TxUser) (t : ChunkTrack F) : SenderCtx F :=
  { (e.modFlow f fun sf => { sf with unackedChunks := sf.unackedChunks ++ [t] }) with
    sq := e.sq ++ [postOf user t.wrEx] }

/-- The track record of a chunk of a send: CSN and HINT come from the immediate. -/
def messageTrack (id : ReqId) (w : WrEx F) : ChunkTrack F :=
  { ureq := id, wrEx := w, csn := w.imm.csn, lastChunk := w.imm.lastChunk }

/-- Select a QP, post the work request, track the chunk and arm the timer: the tail shared by both paths of
    `senderCC_tx_message` and by `burst_timing_wheel`. -/
def transmitChunk (cfg : Config) (e : SenderCtx F) (f : F) (id : ReqId) (w : WrEx F)
    (user : TxUser) (c : TxChoice) : SenderCtx F :=
  let e := postAndTrack e f user (messageTrack id { w with qpidx := c.qpidx })
  if !cfg.rcMode then armTimerForFlow e f c.now else e

/-- `queue_on_timing_wheel`: the buffer waits in the wheel with its request. -/
def queueOnTimingWheel (e : SenderCtx F) (f : F) (id : ReqId) (w : WrEx F) : SenderCtx F :=
  { (e.modFlow f fun sf => { sf with inWheelCnt := addU32 sf.inWheelCnt 1 }) with
    wheel := e.wheel ++ [{ w with ureq := id }] }

/-- Hand out a CSN. -/
def takeCsn (e : SenderCtx F) (f : F) : SenderCtx F :=
  e.modFlow f fun sf =>
    { sf with pcb := sf.pcb.getSndNxt.2, sentChunks := sf.sentChunks + 1 }

/-- Advance the request and count the bytes. -/
def accountChunk (e : SenderCtx F) (f : F) (id : ReqId) (chunkSize : ℕ) : SenderCtx F :=
  let u := e.ureqs id
  let u := { u with sentOffset := addU32 u.sentOffset chunkSize }
  let e := { e with ureqs := Function.update e.ureqs id u }
  let e := e.modFlow f fun sf => { sf with unackedBytes := addU32 sf.unackedBytes chunkSize }
  { e with engineUnackedBytes := addU32 e.engineUnackedBytes chunkSize }

/-- The body of the loop of `senderCC_tx_message`; `false` when admission control lets no chunk pass. -/
def txMessageChunk (cfg : Config) (e : SenderCtx F) (id : ReqId) (c : TxChoice) :
    Except Fault (SenderCtx F × Bool) :=
  let u := e.ureqs id
  let f := u.context
  let sf := e.flows f
  let chunkSize :=
    eventOnChunkSize cfg e.engineUnackedBytes sf.unackedBytes (u.dataLen - u.sentOffset)
  if chunkSize = 0 ∧ u.dataLen ≠ 0 then .ok (e, false)
  else
    match e.wrExPool with
    | [] => .error .wrExPoolEmpty
    | w :: pool =>
      let w := fillMessageWr cfg f sf u chunkSize w
      let e := takeCsn { e with wrExPool := pool } f
      let e :=
        if cfg.bypassPacing || !eventOnQueueData sf c then
          transmitChunk cfg e f id w .message c
        else
          queueOnTimingWheel e f id w
      .ok (accountChunk e f id chunkSize, true)

-- ── One chunk of a one-sided operation

/-- The fields `senderCC_tx_write` and `senderCC_tx_read` write into an allocated
    buffer: these set the opcode and leave the immediate alone. -/
def fillOneSidedWr (opcode : Opcode) (f : F) (sf : SubUcclFlow F) (u : UcclRequest F)
    (chunkSize : ℕ) (w : WrEx F) : WrEx F :=
  { w with
    sge := { addr := u.laddr + u.sentOffset, length := chunkSize, lkey := u.lkey }
    opcode := opcode
    remoteAddr := u.raddr + u.sentOffset
    rkey := u.rkey
    wrId := some (sf.pcb.sndNxt, f)
    seq := sf.sentChunks }

/-- The body of the loop shared by `senderCC_tx_write` and `senderCC_tx_read`.
    A failed post returns after the buffer and the CSN were taken. -/
def txOneSidedChunk (opcode : Opcode) (user : TxUser) (cfg : Config) (e : SenderCtx F)
    (id : ReqId) (c : TxChoice) : Except Fault (SenderCtx F × Bool) :=
  let u := e.ureqs id
  let f := u.context
  let sf := e.flows f
  let chunkSize :=
    eventOnChunkSize cfg e.engineUnackedBytes sf.unackedBytes (u.dataLen - u.sentOffset)
  if chunkSize = 0 ∧ u.dataLen ≠ 0 then .ok (e, false)
  else
    match e.wrExPool with
    | [] => .error .wrExPoolEmpty
    | w :: pool =>
      let w := { fillOneSidedWr opcode f sf u chunkSize w with qpidx := c.qpidx }
      let e := takeCsn { e with wrExPool := pool } f
      if !c.postOk then .ok (e, false)
      else
        let e := postAndTrack e f user
          { ureq := id, wrEx := w, csn := sf.pcb.sndNxt, lastChunk := isLastChunk u chunkSize }
        .ok (accountChunk e f id chunkSize, true)

-- ── The loops

/-- `while (*sent_offset < size || size == 0) { …; if (size == 0) break; }` around a loop body, returning what the
    function returns. Every turn that goes on advances `sent_offset`, so the bytes left bound the number of turns. -/
def txLoop (body : SenderCtx F → ReqId → TxChoice → Except Fault (SenderCtx F × Bool))
    (id : ReqId) (cs : ℕ → TxChoice) :
    ℕ → ℕ → SenderCtx F → Except Fault (SenderCtx F × Bool)
  | 0, _, e => .ok (e, true)
  | n + 1, k, e =>
    let u := e.ureqs id
    if u.sentOffset < u.dataLen ∨ u.dataLen = 0 then
      match body e id (cs k) with
      | .error x => .error x
      | .ok (e', false) => .ok (e', false)
      | .ok (e', true) =>
        if u.dataLen = 0 then .ok (e', true) else txLoop body id cs n (k + 1) e'
    else .ok (e, true)

/-- Turns that suffice for a request: one per byte left, and one more. -/
def txTurns (u : UcclRequest F) : ℕ := u.dataLen - u.sentOffset + 1

/-- `senderCC_tx_message`. -/
def senderCCTxMessage (cfg : Config) (e : SenderCtx F) (id : ReqId) (cs : ℕ → TxChoice) :
    Except Fault (SenderCtx F × Bool) :=
  txLoop (txMessageChunk cfg) id cs (txTurns (e.ureqs id)) 0 e

/-- `senderCC_tx_write`. -/
def senderCCTxWrite (cfg : Config) (e : SenderCtx F) (id : ReqId) (cs : ℕ → TxChoice) :
    Except Fault (SenderCtx F × Bool) :=
  if (e.ureqs id).dataLen = 0 then .error .zeroLengthOneSided
  else txLoop (txOneSidedChunk .RDMA_WRITE .write cfg) id cs (txTurns (e.ureqs id)) 0 e

/-- `senderCC_tx_read`. -/
def senderCCTxRead (cfg : Config) (e : SenderCtx F) (id : ReqId) (cs : ℕ → TxChoice) :
    Except Fault (SenderCtx F × Bool) :=
  if (e.ureqs id).dataLen = 0 then .error .zeroLengthOneSided
  else txLoop (txOneSidedChunk .RDMA_READ .read cfg) id cs (txTurns (e.ureqs id)) 0 e

/-- `tx_message`: dispatch on the request type. -/
def txMessage (cfg : Config) (e : SenderCtx F) (id : ReqId) (cs : ℕ → TxChoice) :
    Except Fault (SenderCtx F × Bool) :=
  match (e.ureqs id).type with
  | .ReqRead => senderCCTxRead cfg e id cs
  | .ReqWrite => senderCCTxWrite cfg e id cs
  | .ReqTx => senderCCTxMessage cfg e id cs

-- ── The timing wheel

/-- The subflow a wheel entry belongs to. -/
def wheelFlow (e : SenderCtx F) (w : WrEx F) : F := (e.ureqs w.ureq).context

/-- `reap`: for each subflow that is due, its oldest wheel entry moves to the ready queue. -/
def reap (e : SenderCtx F) : List F → SenderCtx F
  | [] => e
  | f :: due =>
    match e.wheel.find? fun w => decide (wheelFlow e w = f) with
    | none => reap e due
    | some w =>
      reap { e with
        wheel := e.wheel.eraseP fun w => decide (wheelFlow e w = f)
        readyQueue := e.readyQueue ++ [w] } due

/-- One turn of the loop of `burst_timing_wheel` on the front of the ready queue. -/
def burstChunk (cfg : Config) (e : SenderCtx F) (w : WrEx F) (rest : List (WrEx F))
    (c : TxChoice) : SenderCtx F :=
  let f := wheelFlow e w
  let e := transmitChunk cfg { e with readyQueue := rest } f w.ureq w .wheel c
  e.modFlow f fun sf => { sf with inWheelCnt := subU32 sf.inWheelCnt 1 }

/-- The loop of `burst_timing_wheel`: it stops early once the engine is at its High budget. -/
def burstLoop (cfg : Config) (cs : ℕ → TxChoice) : ℕ → ℕ → SenderCtx F → SenderCtx F
  | 0, _, e => e
  | n + 1, k, e =>
    match e.readyQueue with
    | [] => e
    | w :: rest =>
      let e' := burstChunk cfg e w rest (cs k)
      if e'.engineUnackedBytes ≥ cfg.kMaxUnAckedBytesPerEngineHigh then e'
      else burstLoop cfg cs n (k + 1) e'

/-- `burst_timing_wheel`. -/
def burstTimingWheel (cfg : Config) (e : SenderCtx F) (due : List F) (cs : ℕ → TxChoice) :
    SenderCtx F :=
  let e := reap e due
  burstLoop cfg cs (min kMaxBurstTW e.readyQueue.length) 0 e

-- ── What the pieces do to a subflow

section

variable (e : SenderCtx F) (f : F) (id : ReqId) (n : ℕ) (w : WrEx F) (user : TxUser) (t : ChunkTrack F)

theorem flows_postAndTrack_self : (postAndTrack e f user t).flows f =
      { e.flows f with unackedChunks := (e.flows f).unackedChunks ++ [t] } :=
  update_self ..

theorem flows_postAndTrack_of_ne {f g : F} (h : g ≠ f) (user : TxUser)
    (t : ChunkTrack F) : (postAndTrack e f user t).flows g = e.flows g :=
  update_of_ne h ..

theorem flows_queueOnTimingWheel_self : (queueOnTimingWheel e f id w).flows f =
      { e.flows f with inWheelCnt := addU32 (e.flows f).inWheelCnt 1 } :=
  update_self ..

theorem flows_queueOnTimingWheel_of_ne {f g : F} (h : g ≠ f) (id : ReqId)
    (w : WrEx F) : (queueOnTimingWheel e f id w).flows g = e.flows g :=
  update_of_ne h ..

theorem flows_takeCsn_self : (takeCsn e f).flows f = { e.flows f with
      pcb := (e.flows f).pcb.getSndNxt.2, sentChunks := (e.flows f).sentChunks + 1 } :=
  update_self ..

theorem flows_takeCsn_of_ne {f g : F} (h : g ≠ f) : (takeCsn e f).flows g = e.flows g := update_of_ne h ..

theorem flows_accountChunk_self : (accountChunk e f id n).flows f =
      { e.flows f with unackedBytes := addU32 (e.flows f).unackedBytes n } :=
  update_self ..

theorem flows_accountChunk_of_ne {f g : F} (h : g ≠ f) (id : ReqId) (n : ℕ) :
    (accountChunk e f id n).flows g = e.flows g :=
  update_of_ne h ..

end

-- ── Loop rules

omit [DecidableEq F] in
/-- **THE TRANSMIT LOOP RULE**: what one chunk keeps, the whole call keeps. -/
theorem txLoop_invariant {I : SenderCtx F → Prop} {id : ReqId}
    (hbody : ∀ e c e' b, I e → body e id c = .ok (e', b) → I e') :
    ∀ (n k : ℕ) (e : SenderCtx F) (r : SenderCtx F × Bool), I e → txLoop body id cs n k e = .ok r → I r.1 := by
  intro n
  induction n with
  | zero =>
    intro k e r hi h
    cases h
    exact hi
  | succ n ih =>
    intro k e r hi h
    simp only [txLoop] at h
    split at h
    · cases hb : body e id (cs k) with
      | error x => rw [hb] at h; cases h
      | ok p =>
        obtain ⟨e', b⟩ := p
        rw [hb] at h
        have hi' := hbody e (cs k) e' b hi hb
        cases b with
        | false =>
          cases h
          exact hi'
        | true =>
          simp only at h
          split at h
          · cases h
            exact hi'
          · exact ih (k + 1) e' r hi' h
    · cases h
      exact hi

omit [DecidableEq F] in
/-- The call fails only as one of its chunks does. -/
theorem txLoop_error {P : Fault → Prop} {id : ReqId} (hbody : ∀ e c x, body e id c = .error x → P x) :
    ∀ (n k : ℕ) (e : SenderCtx F) (x : Fault), txLoop body id cs n k e = .error x → P x := by
  intro n
  induction n with
  | zero => intro k e x h; cases h
  | succ n ih =>
    intro k e x h
    simp only [txLoop] at h
    split at h
    · split at h
      · next y hb =>
        rw [← Except.error.inj h]
        exact hbody e (cs k) y hb
      · cases h
      · split at h
        · cases h
        · exact ih _ _ x h
    · cases h

end RdmaTransmit
