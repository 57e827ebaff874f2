import Uccl.RdmaTransmitProofs

/-! # Acknowledgement and retransmission

    `uc_rx_ack`, `rc_rx_ack`, `__retransmit_for_flow`, `handle_rto` (transport.cc) and the two completion
    paths of `TXTracking` (rdma_io.cc).

    `__retransmit_for_flow` and the fast-recovery branch of `uc_rx_ack` walk a SACK bitmap with the same loop,
    over different copies of it: the first over the copy in the PCB with its stored base, the second over the
    header of the ACK at hand with `snd_una` as the base, re-arming the timer at every hole. `sackHoleLoop` is
    that loop; indexing past the tracked chunks is a fault.

    What a retransmission may change is said ONCE, in `Resent`: timers, posted work requests and three
    statistics, on one subflow. -/

namespace RdmaAck

open RdmaPcb RdmaImm RdmaTimer RdmaState RdmaTransmit WordBitmap Function List Except

variable {F : Type} [DecidableEq F]
variable {e e' : SenderCtx F} {f : F} {now : ℕ} {after : Bool → SenderCtx F → SenderCtx F} {cfg : Config}
  {bitmap : SackBitmap} {h : UcclSackHdr} {base : UintCsn}

-- ── Retransmission

/-- The SEND that carries a chunk again: a header with the chunk's immediate,
    then its bytes, on the QP the chunk was first sent on. -/
def rtxPost (w : WrEx F) : Post F :=
  { user := .retransmit, qpidx := w.qpidx, opcode := .SEND, imm := w.imm, wrId := none
    byteLen := retrChunkHdrSize + w.sge.length, remoteAddr := w.remoteAddr, buff := w.buff
    seq := w.seq }

/-- `try_retransmit_chunk`; `EventOnTxRTXData` always lets it pass here. -/
def tryRetransmitChunk (e : SenderCtx F) (w : WrEx F) : SenderCtx F :=
  { e with sq := e.sq ++ [rtxPost w] }

/-- The walk over a SACK bitmap from `index` on, for as long as `count` set bits are still to come. `after` is
    what follows a hole, told whether the hole's chunk was sent again. -/
def sackHoleLoop (f : F) (bitmap : SackBitmap) (base : UintCsn)
    (after : Bool → SenderCtx F → SenderCtx F) :
    ℕ → ℕ → ℕ → SenderCtx F → Bool → Except Fault (SenderCtx F × Bool)
  | 0, _, _, e, done => .ok (e, done)
  | n + 1, index, count, e, done =>
    if count = 0 ∨ (e.flows f).unackedChunks.isEmpty then .ok (e, done)
    else if testBit bitmap index then
      sackHoleLoop f bitmap base after n (index + 1) (count - 1) e done
    else
      match (e.flows f).unackedChunks[index]? with
      | none => .error .chunkIndexOutOfRange
      | some chunk =>
        if base + BitVec.ofNat 8 index = chunk.csn then
          sackHoleLoop f bitmap base after n (index + 1) count
            (after true (tryRetransmitChunk e chunk.wrEx)) true
        else
          sackHoleLoop f bitmap base after n (index + 1) count (after false e) done

/-- The statistics of one retransmission round. -/
def countRexmit (e : SenderCtx F) (f : F) (rto : Bool) : SenderCtx F :=
  e.modFlow f fun sf =>
    { sf with pcb :=
        if rto then
          { sf.pcb with
            statsRtoRexmits := sf.pcb.statsRtoRexmits + 1
            rtoRexmitsConsectutive := sf.pcb.rtoRexmitsConsectutive + 1 }
        else { sf.pcb with statsFastRexmits := sf.pcb.statsFastRexmits + 1 } }

/-- `__retransmit_for_flow`. -/
def retransmitForFlow (e : SenderCtx F) (f : F) (rto : Bool) (now : ℕ) :
    Except Fault (SenderCtx F) :=
  let sf := e.flows f
  match sf.unackedChunks with
  | [] => .ok e
  | oldest :: _ =>
    if sf.pcb.txSackBitmapCount = 0 then
      let e := tryRetransmitChunk e oldest.wrEx
      .ok (countRexmit (rearmTimerForFlow e f now) f rto)
    else
      match sackHoleLoop f sf.pcb.txSackBitmap (sf.pcb.txSackBitmapBase.setWidth 8)
          (fun _ e => e) kSackBitmapSize 0 sf.pcb.txSackBitmapCount.toNat e false with
      | .error x => .error x
      | .ok (e, done) =>
        let e := rearmTimerForFlow e f now
        .ok (if done then countRexmit e f rto else e)

/-- `fast_retransmit_for_flow`. -/
def fastRetransmitForFlow (cfg : Config) (e : SenderCtx F) (f : F) (now : ℕ) :
    Except Fault (SenderCtx F) :=
  if cfg.isRoce || kTestLoss then retransmitForFlow e f false now else .ok e

/-- `rto_retransmit_for_flow`. -/
def rtoRetransmitForFlow (cfg : Config) (e : SenderCtx F) (f : F) (now : ℕ) :
    Except Fault (SenderCtx F) :=
  if cfg.isRoce || kTestLoss then retransmitForFlow e f true now else .ok e

/-- `is_no_rto_`: a lossless link runs without timeouts. -/
def isNoRto (cfg : Config) : Bool := !(cfg.isRoce || kTestLoss)

/-- The loop of `handle_rto` over the expired subflows. -/
def handleExpired (cfg : Config) (now : ℕ) :
    List F → SenderCtx F → Except Fault (SenderCtx F)
  | [], e => .ok e
  | f :: fs, e =>
    match rtoRetransmitForFlow cfg (markFlowTimeout e f) f now with
    | .error x => .error x
    | .ok e => handleExpired cfg now fs e

/-- `handle_rto`. -/
def handleRto (cfg : Config) (e : SenderCtx F) (now : ℕ) : Except Fault (SenderCtx F) :=
  if isNoRto cfg then .ok e
  else
    let (expired, rto) := checkExpired e.rto now
    handleExpired cfg now expired { e with rto := rto }

-- ── Completion of tracked chunks

/-- One turn of `ack_transmitted_chunks` on the front chunk. -/
def ackFront (e : SenderCtx F) (f : F) (chunk : ChunkTrack F) (rest : List (ChunkTrack F)) :
    SenderCtx F :=
  { (e.modFlow f fun sf =>
      { sf with
        unackedBytes := subU32 sf.unackedBytes chunk.wrEx.sge.length
        unackedChunks := rest
        ackedChunks := sf.ackedChunks + 1 }) with
    wakeups := if chunk.lastChunk then e.wakeups ++ [chunk.ureq] else e.wakeups
    wrExPool := freeBuff e.wrExPool chunk.wrEx }

/-- `ack_transmitted_chunks`. -/
def ackTransmittedChunks (f : F) : ℕ → SenderCtx F → Except Fault (SenderCtx F)
  | 0, e => .ok e
  | n + 1, e =>
    match (e.flows f).unackedChunks with
    | [] => .error .emptyFront
    | chunk :: rest => ackTransmittedChunks f n (ackFront e f chunk rest)

/-- Complete one chunk out of order: the request is woken up by its byte count. -/
def ackRcChunk (e : SenderCtx F) (f : F) (csn : UintCsn) (chunk : ChunkTrack F) : SenderCtx F :=
  let len := chunk.wrEx.sge.length
  let u := e.ureqs chunk.ureq
  let u := { u with ackedBytes := addU32 u.ackedBytes len }
  { (e.modFlow f fun sf =>
      { sf with
        unackedBytes := subU32 sf.unackedBytes len
        unackedChunks := sf.unackedChunks.eraseP fun chunk => decide (chunk.csn = csn)
        ackedChunks := sf.ackedChunks + 1 }) with
    ureqs := Function.update e.ureqs chunk.ureq u
    wakeups := if u.ackedBytes = u.dataLen then e.wakeups ++ [chunk.ureq] else e.wakeups
    engineUnackedBytes := subU32 e.engineUnackedBytes len
    wrExPool := freeBuff e.wrExPool chunk.wrEx }

/-- `ack_rc_transmitted_chunks`: the first tracked chunk with this CSN, wherever it is. -/
def ackRcTransmittedChunks (e : SenderCtx F) (f : F) (csn : UintCsn) : SenderCtx F :=
  match (e.flows f).unackedChunks.find? fun chunk => decide (chunk.csn = csn) with
  | none => e
  | some chunk => ackRcChunk e f csn chunk

/-- `rc_rx_ack`: the CSN and the subflow come back in `wr_id`. -/
def rcRxAck (e : SenderCtx F) (wrId : UintCsn × F) : SenderCtx F :=
  ackRcTransmittedChunks e wrId.2 wrId.1

-- ── uc_rx_ack

/-- The threshold of duplicate ACKs. -/
def fastRexmitThres (cfg : Config) : ℕ := if cfg.isRoce then roceDupAckThres else 65536

/-- Take over the SACK bitmap of an ACK. -/
def updateSackBitmap (e : SenderCtx F) (f : F) (h : UcclSackHdr) : SenderCtx F :=
  e.modFlow f fun sf =>
    { sf with pcb :=
        { sf.pcb with
          txSackBitmap := h.sackBitmap
          txSackBitmapCount := h.sackBitmapCount.setWidth 8
          txSackBitmapBase := h.ackno.setWidth 32 } }

/-- What follows a hole in the fast-recovery loop. -/
def fastRecoveryHole (f : F) (now : ℕ) (resent : Bool) (e : SenderCtx F) : SenderCtx F :=
  rearmTimerForFlow (if resent then countRexmit e f false else e) f now

/-- The counters of a duplicate ACK. -/
def noteDuplicateAck (e : SenderCtx F) (f : F) (h : UcclSackHdr) : SenderCtx F :=
  e.modFlow f fun sf =>
    { sf with pcb :=
        { sf.pcb with
          duplicateAcks := sf.pcb.duplicateAcks + 1
          sndOooAcks := h.sackBitmapCount.setWidth 8 } }

/-- The branch of `uc_rx_ack` for a duplicate ACK, up to the bitmap update. -/
def rxDuplicateAck (cfg : Config) (e : SenderCtx F) (f : F) (h : UcclSackHdr) (now : ℕ) :
    Except Fault (SenderCtx F) :=
  let e := noteDuplicateAck e f h
  let pcb := (e.flows f).pcb
  if pcb.duplicateAcks.toNat < fastRexmitThres cfg then .ok e
  else if pcb.duplicateAcks.toNat = fastRexmitThres cfg then fastRetransmitForFlow cfg e f now
  else
    match sackHoleLoop f h.sackBitmap pcb.sndUna (fastRecoveryHole f now)
        kSackBitmapSize 0 h.sackBitmapCount.toNat e false with
    | .error x => .error x
    | .ok (e, _) => .ok e

/-- What the subflow's bytes went down by since `before` goes back to the engine. -/
def reduceEngineBytes (e : SenderCtx F) (f : F) (before : ℕ) : SenderCtx F :=
  let reduced := subU32 before (e.flows f).unackedBytes
  { e with engineUnackedBytes := subU32 e.engineUnackedBytes reduced }

/-- The PCB of a valid ACK. -/
def advanceUna (e : SenderCtx F) (f : F) (ackno : UintCsn) : SenderCtx F :=
  e.modFlow f fun sf =>
    { sf with pcb :=
        { sf.pcb with
          sndUna := ackno
          duplicateAcks := 0
          sndOooAcks := 0
          rtoRexmitsConsectutive := 0 } }

/-- "rearm_timer_for_flow" while chunks are tracked, "disarm_timer_for_flow" once none is. -/
def resetTimer (e : SenderCtx F) (f : F) (now : ℕ) : SenderCtx F :=
  if (e.flows f).unackedChunks.isEmpty then disarmTimerForFlow e f
  else rearmTimerForFlow e f now

/-- The branch of `uc_rx_ack` for a valid ACK, up to the bitmap update. -/
def rxValidAck (e : SenderCtx F) (f : F) (ackno : UintCsn) (now : ℕ) :
    Except Fault (SenderCtx F) :=
  let before := (e.flows f).unackedBytes
  match ackTransmittedChunks f (ackno - (e.flows f).pcb.sndUna).toNat e with
  | .error x => .error x
  | .ok e =>
    .ok (resetTimer (advanceUna (reduceEngineBytes e f before) f ackno) f now)

/-- `uc_rx_ack`: old, for untransmitted data, duplicate, valid. -/
def ucRxAck (cfg : Config) (e : SenderCtx F) (h : UcclSackHdr) (now : ℕ) :
    Except Fault (SenderCtx F) :=
  let f := e.senderFlowTbl h.fid
  let ackno : UintCsn := h.ackno.setWidth 8
  let pcb := (e.flows f).pcb
  if seqnoLt ackno pcb.sndUna then .ok e
  else if seqnoGt ackno pcb.sndNxt then .ok e
  else
    match (if seqnoEq ackno pcb.sndUna then rxDuplicateAck cfg e f h now
        else rxValidAck e f ackno now) with
    | .error x => .error x
    | .ok e => .ok (updateSackBitmap e f h)

-- ── What a retransmission may change

/-- `e'` is `e` after timers were set, chunks tracked on `f` were sent again and
    this was counted; nothing else differs. -/
structure Resent (e : SenderCtx F) (f : F) (e' : SenderCtx F) : Prop where
  frame : e' = { e with flows := e'.flows, rto := e'.rto, sq := e'.sq }
  other : ∀ g, g ≠ f → e'.flows g = e.flows g
  self : ∃ armed fast timeouts consecutive, e'.flows f =
    { e.flows f with
      rtoArmed := armed
      pcb := { (e.flows f).pcb with
        statsFastRexmits := fast
        statsRtoRexmits := timeouts
        rtoRexmitsConsectutive := consecutive } }
  posts : ∃ ps, e'.sq = e.sq ++ ps ∧
    ∀ p ∈ ps, ∃ chunk ∈ (e.flows f).unackedChunks, p = rtxPost chunk.wrEx

omit [DecidableEq F] in
theorem Resent.refl (e : SenderCtx F) (f : F) : Resent e f e :=
  ⟨rfl, fun _ _ => rfl, ⟨_, _, _, _, rfl⟩, ⟨[], (append_nil _).symm, nofun⟩⟩

/-- What may differ of any one subflow. -/
theorem Resent.flow (h : Resent e f e') (g : F) : ∃ armed fast timeouts consecutive, e'.flows g = { e.flows g with
        rtoArmed := armed
        pcb := { (e.flows g).pcb with
          statsFastRexmits := fast
          statsRtoRexmits := timeouts
          rtoRexmitsConsectutive := consecutive } } := by
  by_cases hg : g = f
  · rw [hg]
    exact h.self
  · rw [h.other g hg]
    exact ⟨_, _, _, _, rfl⟩

theorem Resent.unackedChunks (h : Resent e f e') (g : F) : (e'.flows g).unackedChunks = (e.flows g).unackedChunks := by
  obtain ⟨_, _, _, _, hflow⟩ := h.flow g
  rw [hflow]

theorem Resent.trans {e'' : SenderCtx F} (h1 : Resent e f e') (h2 : Resent e' f e'') : Resent e f e'' := by
  obtain ⟨_, _, _, _, hs1⟩ := h1.self
  obtain ⟨a, b, c, d, hs2⟩ := h2.self
  obtain ⟨ps, hp1, hps⟩ := h1.posts
  obtain ⟨qs, hp2, hqs⟩ := h2.posts
  refine ⟨?_, ?_, ⟨a, b, c, d, ?_⟩, ⟨ps ++ qs, ?_, ?_⟩⟩
  · rw [h2.frame, h1.frame]
  · intro g hg
    rw [h2.other g hg, h1.other g hg]
  · rw [hs2, hs1]
  · rw [hp2, hp1, append_assoc]
  · intro p hp
    rcases mem_append.mp hp with hp | hp
    · exact hps p hp
    · obtain ⟨chunk, hc, rfl⟩ := hqs p hp
      exact ⟨chunk, h1.unackedChunks f ▸ hc, rfl⟩

/-- A change of one subflow's timer flag and counters. -/
theorem Resent.of_modFlow (e : SenderCtx F) (f : F) {g : SubUcclFlow F → SubUcclFlow F}
    (hg : ∃ armed fast timeouts consecutive, g (e.flows f) = { e.flows f with
        rtoArmed := armed
        pcb := { (e.flows f).pcb with
          statsFastRexmits := fast
          statsRtoRexmits := timeouts
          rtoRexmitsConsectutive := consecutive } }) :
    Resent e f (e.modFlow f g) := by
  obtain ⟨a, b, c, d, hg⟩ := hg
  refine ⟨rfl, ?_, ⟨a, b, c, d, ?_⟩, ⟨[], (append_nil _).symm, nofun⟩⟩
  · intro k hk
    exact SenderCtx.modFlow_flows_of_ne e hk g
  · exact (SenderCtx.modFlow_flows_self e f g).trans hg

omit [DecidableEq F] in
/-- The timer queue is free to change. -/
theorem Resent.with_rto (h : Resent e f e') (rto : TimerManager F) : Resent e f { e' with rto := rto } := by
  refine { h with frame := ?_ }
  rw [h.frame]

section

variable (e : SenderCtx F) (f : F) (rto : Bool) (now : ℕ)

theorem resent_armTimerForFlow : Resent e f (armTimerForFlow e f now) := by
  unfold armTimerForFlow
  split
  · exact (Resent.of_modFlow e f ⟨true, _, _, _, rfl⟩).with_rto _
  · exact Resent.refl e f

theorem resent_rearmTimerForFlow : Resent e f (rearmTimerForFlow e f now) := by
  unfold rearmTimerForFlow
  split
  · exact ⟨rfl, fun _ _ => rfl, ⟨_, _, _, _, rfl⟩, ⟨[], (append_nil _).symm, nofun⟩⟩
  · exact resent_armTimerForFlow e f now

theorem resent_disarmTimerForFlow : Resent e f (disarmTimerForFlow e f) := by
  unfold disarmTimerForFlow
  split
  · exact (Resent.of_modFlow e f ⟨false, _, _, _, rfl⟩).with_rto _
  · exact Resent.refl e f

theorem resent_markFlowTimeout : Resent e f (markFlowTimeout e f) := Resent.of_modFlow e f ⟨false, _, _, _, rfl⟩

theorem resent_countRexmit : Resent e f (countRexmit e f rto) := by
  refine Resent.of_modFlow e f ?_
  cases rto with
  | false | true => exact ⟨_, _, _, _, rfl⟩

end

omit [DecidableEq F] in
theorem resent_tryRetransmitChunk {chunk : ChunkTrack F} (h : chunk ∈ (e.flows f).unackedChunks) :
    Resent e f (tryRetransmitChunk e chunk.wrEx) := by
  refine ⟨rfl, fun _ _ => rfl, ⟨_, _, _, _, rfl⟩, ⟨[rtxPost chunk.wrEx], rfl, ?_⟩⟩
  intro p hp
  exact ⟨chunk, h, mem_singleton.mp hp⟩

theorem resent_fastRecoveryHole (f : F) (now : ℕ) (resent : Bool) (e : SenderCtx F) :
    Resent e f (fastRecoveryHole f now resent e) := by
  cases resent with
  | false => exact resent_rearmTimerForFlow e f now
  | true => exact (resent_countRexmit e f false).trans (resent_rearmTimerForFlow _ f now)

omit [DecidableEq F] in
/-- **THE BITMAP RULE**: what a retransmitted chunk and the work after a hole keep,
    the walk over a SACK bitmap keeps. -/
theorem sackHoleLoop_rule {I : SenderCtx F → Prop} (hsend : ∀ e chunk, I e → chunk ∈ (e.flows f).unackedChunks →
      I (tryRetransmitChunk e chunk.wrEx)) (hafter : ∀ b e, I e → I (after b e)) :
    ∀ (n index count : ℕ) (e : SenderCtx F) (done : Bool) (r : SenderCtx F × Bool), I e →
      sackHoleLoop f bitmap base after n index count e done = .ok r → I r.1 := by
  intro n
  induction n with
  | zero =>
    intro index count e done r hi h
    cases h
    exact hi
  | succ n ih =>
    intro index count e done r hi h
    simp only [sackHoleLoop] at h
    split at h
    · cases h
      exact hi
    · split at h
      · exact ih _ _ _ _ r hi h
      · split at h
        · cases h
        · next chunk hchunk =>
          split at h
          · exact ih _ _ _ _ r (hafter true _ (hsend e chunk hi (mem_of_getElem? hchunk))) h
          · exact ih _ _ _ _ r (hafter false e hi) h

/-- The walk over a bitmap only sends tracked chunks again. -/
theorem resent_sackHoleLoop (hafter : ∀ b e, Resent e f (after b e))
    {n index count : ℕ} {done : Bool} {r : SenderCtx F × Bool}
    (h : sackHoleLoop f bitmap base after n index count e done = .ok r) : Resent e f r.1 :=
  sackHoleLoop_rule (I := Resent e f) (fun _ _ hi hmem => hi.trans (resent_tryRetransmitChunk hmem))
    (fun b e1 hi => hi.trans (hafter b e1)) _ _ _ _ _ _ (Resent.refl e f) h

/-- **WHAT A RETRANSMISSION ROUND CHANGES.** -/
theorem resent_retransmitForFlow {rto : Bool} (h : retransmitForFlow e f rto now = .ok e')
    : Resent e f e' := by
  simp only [retransmitForFlow] at h
  split at h
  · cases h
    exact Resent.refl e f
  · next oldest rest hchunks =>
    have hmem : oldest ∈ (e.flows f).unackedChunks := hchunks ▸ mem_cons_self
    split at h
    · cases h
      exact ((resent_tryRetransmitChunk hmem).trans (resent_rearmTimerForFlow _ f now)).trans
        (resent_countRexmit _ f rto)
    · split at h
      · cases h
      · next e1 done hloop =>
        have hres := (resent_sackHoleLoop (fun _ e => Resent.refl e f) hloop).trans (resent_rearmTimerForFlow e1 f now)
        cases h
        split
        · exact hres.trans (resent_countRexmit _ f rto)
        · exact hres

theorem resent_fastRetransmitForFlow (h : fastRetransmitForFlow cfg e f now = .ok e') : Resent e f e' := by
  unfold fastRetransmitForFlow at h
  split at h
  · exact resent_retransmitForFlow h
  · cases h
    exact Resent.refl e f

theorem resent_rtoRetransmitForFlow (h : rtoRetransmitForFlow cfg e f now = .ok e') : Resent e f e' := by
  unfold rtoRetransmitForFlow at h
  split at h
  · exact resent_retransmitForFlow h
  · cases h
    exact Resent.refl e f

-- ── Completing one chunk

theorem flows_ackFront_self (e : SenderCtx F) (f : F) (chunk : ChunkTrack F)
    (rest : List (ChunkTrack F)) : (ackFront e f chunk rest).flows f = { e.flows f with
        unackedBytes := subU32 (e.flows f).unackedBytes chunk.wrEx.sge.length
        unackedChunks := rest
        ackedChunks := (e.flows f).ackedChunks + 1 } :=
  update_self ..

section

variable (e : SenderCtx F) (wrId : UintCsn × F) {g : F}

theorem flows_ackFront_of_ne (h : g ≠ f) (chunk : ChunkTrack F)
    (rest : List (ChunkTrack F)) : (ackFront e f chunk rest).flows g = e.flows g :=
  update_of_ne h ..

theorem flows_ackRcChunk_self (f : F) (csn : UintCsn) (chunk : ChunkTrack F) :
    (ackRcChunk e f csn chunk).flows f = { e.flows f with
        unackedBytes := subU32 (e.flows f).unackedBytes chunk.wrEx.sge.length
        unackedChunks := (e.flows f).unackedChunks.eraseP fun chunk => decide (chunk.csn = csn)
        ackedChunks := (e.flows f).ackedChunks + 1 } :=
  update_self ..

theorem flows_ackRcChunk_of_ne (h : g ≠ f) (csn : UintCsn)
    (chunk : ChunkTrack F) : (ackRcChunk e f csn chunk).flows g = e.flows g :=
  update_of_ne h ..

theorem ureqs_ackRcChunk (f : F) (csn : UintCsn) (chunk : ChunkTrack F) :
    (ackRcChunk e f csn chunk).ureqs = update e.ureqs chunk.ureq { e.ureqs chunk.ureq with
        ackedBytes := addU32 (e.ureqs chunk.ureq).ackedBytes chunk.wrEx.sge.length } := rfl

/-- A completion finds no tracked chunk with its CSN, or completes the first one. -/
theorem rcRxAck_cases : rcRxAck e wrId = e ∨
    ∃ chunk, (e.flows wrId.2).unackedChunks.find? (fun chunk => decide (chunk.csn = wrId.1))
        = some chunk ∧ rcRxAck e wrId = ackRcChunk e wrId.2 wrId.1 chunk := by
  unfold rcRxAck ackRcTransmittedChunks
  split
  · exact .inl rfl
  · next chunk hfind => exact .inr ⟨chunk, hfind, rfl⟩

-- ── What an ACK does

theorem resent_resetTimer (f : F) (now : ℕ) : Resent e f (resetTimer e f now) := by
  unfold resetTimer
  split
  · exact resent_disarmTimerForFlow e f
  · exact resent_rearmTimerForFlow e f now

end

/-- A duplicate ACK is counted, and may cause retransmissions. -/
theorem resent_rxDuplicateAck (hrun : rxDuplicateAck cfg e f h now = .ok e') :
    Resent (noteDuplicateAck e f h) f e' := by
  simp only [rxDuplicateAck] at hrun
  split at hrun
  · cases hrun
    exact Resent.refl _ f
  · split at hrun
    · exact resent_fastRetransmitForFlow hrun
    · split at hrun
      · cases hrun
      · next e1 done hloop =>
        cases hrun
        exact resent_sackHoleLoop (resent_fastRecoveryHole f now) hloop

/-- A valid ACK completes the chunks it covers, gives their bytes back to the engine,
    moves `snd_una` and sets the timer. -/
theorem rxValidAck_cases {ackno : UintCsn} (hrun : rxValidAck e f ackno now = .ok e') :
    ∃ e1, ackTransmittedChunks f (ackno - (e.flows f).pcb.sndUna).toNat e = .ok e1 ∧ e' = resetTimer
        (advanceUna (reduceEngineBytes e1 f (e.flows f).unackedBytes) f ackno) f now := by
  simp only [rxValidAck] at hrun
  split at hrun
  · cases hrun
  · next e1 hack => exact ⟨e1, hack, (ok.inj hrun).symm⟩

/-- **WHAT AN ACK DOES**: it is ignored, or it is a duplicate or a valid one and its SACK bitmap is taken over. -/
theorem ucRxAck_cases (hrun : ucRxAck cfg e h now = .ok e') : e' = e ∨
    ∃ e1, e' = updateSackBitmap e1 (e.senderFlowTbl h.fid) h ∧
      seqnoLt (h.ackno.setWidth 8) (e.flows (e.senderFlowTbl h.fid)).pcb.sndUna = false ∧
      seqnoGt (h.ackno.setWidth 8) (e.flows (e.senderFlowTbl h.fid)).pcb.sndNxt = false ∧
      ((h.ackno.setWidth 8 = (e.flows (e.senderFlowTbl h.fid)).pcb.sndUna ∧
          rxDuplicateAck cfg e (e.senderFlowTbl h.fid) h now = .ok e1) ∨
       (h.ackno.setWidth 8 ≠ (e.flows (e.senderFlowTbl h.fid)).pcb.sndUna ∧
          rxValidAck e (e.senderFlowTbl h.fid) (h.ackno.setWidth 8) now = .ok e1)) := by
  simp only [ucRxAck] at hrun
  split at hrun
  · exact .inl (ok.inj hrun).symm
  · next hlt =>
    split at hrun
    · exact .inl (ok.inj hrun).symm
    · next hgt =>
      split at hrun
      · cases hrun
      · next e1 hbranch =>
        refine .inr ⟨e1, (ok.inj hrun).symm, Bool.eq_false_iff.mpr hlt, Bool.eq_false_iff.mpr hgt, ?_⟩
        split at hbranch
        · next heq => exact .inl ⟨(seqnoEq_iff _ _).mp heq, hbranch⟩
        · next hne => exact .inr ⟨fun heq => hne ((seqnoEq_iff _ _).mpr heq), hbranch⟩

end RdmaAck
