import Uccl.RdmaAckProofs
import Uccl.StepRunProofs

/-! # Runs of a transmitting engine

    The steps of one engine over any number of subflows: work on a request (`tx_message`), drain the timing
    wheel, take an ACK (UC or RC), handle timeouts, retransmit. A request is named by its address and every
    request ever submitted has a name of its own, so the initial state may hold any requests whatever and a
    run works on them in any order, any number of times.

    This file says ONCE what each routine does to the state; the invariants of the later files are case
    analyses over these lemmas. -/

namespace RdmaEngine

open RdmaPcb RdmaImm RdmaTimer RdmaState RdmaTransmit RdmaAck StepRun Function Except

variable {F : Type} [DecidableEq F]
variable {cfg : Config} {e e' : SenderCtx F} {id : ReqId} {c : TxChoice} {I : SenderCtx F → Prop} {cs : ℕ → TxChoice}

/-- What can happen at a transmitting engine. -/
inductive TxAction (F : Type) where
  | tx (id : ReqId) (cs : ℕ → TxChoice)
  | burst (due : List F) (cs : ℕ → TxChoice)
  | ucAck (h : UcclSackHdr) (now : ℕ)
  | rcAck (wrId : UintCsn × F)
  | rto (now : ℕ)
  | retransmit (f : F) (rto : Bool) (now : ℕ)

/-- One step of the engine. -/
def engStep (cfg : Config) (e : SenderCtx F) : TxAction F → Except Fault (SenderCtx F)
  | .tx id cs =>
    match txMessage cfg e id cs with
    | .error x => .error x
    | .ok (e', _) => .ok e'
  | .burst due cs => .ok (burstTimingWheel cfg e due cs)
  | .ucAck h now => ucRxAck cfg e h now
  | .rcAck wrId => .ok (rcRxAck e wrId)
  | .rto now => handleRto cfg e now
  | .retransmit f rto now => retransmitForFlow e f rto now

/-- A freshly built engine with its buffer pool; the requests to come are arbitrary, and none of them was worked on. -/
structure Initial (e : SenderCtx F) : Prop where
  flows : ∀ f, ∃ fid, e.flows f = { fid := fid }
  requests : ∀ id, (e.ureqs id).sentOffset = 0 ∧ (e.ureqs id).ackedBytes = 0
  wheel : e.wheel = []
  readyQueue : e.readyQueue = []
  pool : e.wrExPool = initWrExPool
  bytes : e.engineUnackedBytes = 0
  timers : ∃ timeout, e.rto = TimerManager.init F timeout
  sq : e.sq = []
  wakeups : e.wakeups = []

/-- The engine a run starts from, given the requests to come. -/
def freshEngine (tbl : BitVec 32 → F) (ureqs : ReqId → UcclRequest F) : SenderCtx F :=
  { flows := fun _ => {}, senderFlowTbl := tbl, ureqs := ureqs, wrExPool := initWrExPool
    rto := TimerManager.init F 0 }

/-- A request of `n` bytes of which nothing has been sent. -/
def freshRequest (type : ReqType) (context : F) (n : BitVec 31) : UcclRequest F :=
  { type := type, context := context, dataLen := n.toNat, dataLen_lt := n.isLt }

omit [DecidableEq F] in
theorem initial_freshEngine (tbl : BitVec 32 → F) {ureqs : ReqId → UcclRequest F}
    (h : ∀ id, (ureqs id).sentOffset = 0 ∧ (ureqs id).ackedBytes = 0) : Initial (freshEngine tbl ureqs) where
  flows _ := ⟨0, rfl⟩
  requests := h
  wheel := rfl
  readyQueue := rfl
  pool := by dsimp only [freshEngine]
  bytes := rfl
  timers := ⟨0, rfl⟩
  sq := rfl
  wakeups := rfl

/-- An engine with one subflow whose requests all have this type and one byte. -/
def byteRequests (type : ReqType) : SenderCtx Unit :=
  freshEngine (fun _ => ()) fun _ => freshRequest type () 1

-- ── Transmitting one chunk

/-- The size `EventOnChunkSize` admits for the next chunk of a request. -/
def admitted (cfg : Config) (e : SenderCtx F) (id : ReqId) : ℕ :=
  eventOnChunkSize cfg e.engineUnackedBytes (e.flows (e.ureqs id).context).unackedBytes
    ((e.ureqs id).dataLen - (e.ureqs id).sentOffset)

/-- The state after a chunk got its buffer and CSN and was posted or queued, before its bytes are counted. -/
def placeChunk (cfg : Config) (e : SenderCtx F) (id : ReqId) (c : TxChoice) (w : WrEx F)
    (pool : List (WrEx F)) : SenderCtx F :=
  let f := (e.ureqs id).context
  let w := fillMessageWr cfg f (e.flows f) (e.ureqs id) (admitted cfg e id) w
  let e₁ := takeCsn { e with wrExPool := pool } f
  if cfg.bypassPacing || !eventOnQueueData (e.flows f) c then
    transmitChunk cfg e₁ f id w .message c
  else queueOnTimingWheel e₁ f id w

/-- Without pacing a chunk is transmitted at once. -/
theorem placeChunk_of_bypass (h : cfg.bypassPacing = true) (e : SenderCtx F) (id : ReqId)
    (c : TxChoice) (w : WrEx F) (pool : List (WrEx F)) :
    placeChunk cfg e id c w pool = transmitChunk cfg (takeCsn { e with wrExPool := pool } (e.ureqs id).context)
        (e.ureqs id).context id (fillMessageWr cfg (e.ureqs id).context
          (e.flows (e.ureqs id).context) (e.ureqs id) (admitted cfg e id) w) .message c :=
  if_pos (by rw [h, Bool.true_or])

/-- **ONE CHUNK OF A SEND**: admission control refuses and nothing changes, or a
    buffer is taken from the pool and the chunk is placed and counted. -/
theorem txMessageChunk_cases {b : Bool} (h : txMessageChunk cfg e id c = .ok (e', b)) : (b = false ∧ e' = e) ∨
    ∃ w pool, b = true ∧ e.wrExPool = w :: pool ∧ (admitted cfg e id ≠ 0 ∨ (e.ureqs id).dataLen = 0) ∧
      e' = accountChunk (placeChunk cfg e id c w pool) (e.ureqs id).context id (admitted cfg e id) := by
  simp only [txMessageChunk] at h
  split at h
  · have hp := ok.inj h
    exact .inl ⟨(congrArg Prod.snd hp).symm, (congrArg Prod.fst hp).symm⟩
  · next hsize =>
    split at h
    · cases h
    · next w pool hpool =>
      have hp := ok.inj h
      refine .inr ⟨w, pool, (congrArg Prod.snd hp).symm, hpool, ?_, ?_⟩
      · by_cases hlen : (e.ureqs id).dataLen = 0
        · exact .inr hlen
        · exact .inl fun h0 => hsize ⟨h0, hlen⟩
      · exact (congrArg Prod.fst hp).symm

/-- Conversely, an admitted chunk with a buffer at hand is placed. -/
theorem txMessageChunk_eq (cfg : Config) {w : WrEx F} {pool : List (WrEx F)}
    (hadm : admitted cfg e id ≠ 0 ∨ (e.ureqs id).dataLen = 0) (hpool : e.wrExPool = w :: pool) (c : TxChoice) :
    txMessageChunk cfg e id c = .ok (accountChunk (placeChunk cfg e id c w pool)
      (e.ureqs id).context id (admitted cfg e id), true) := by
  have hsize : ¬ (admitted cfg e id = 0 ∧ (e.ureqs id).dataLen ≠ 0) := by
    rintro ⟨h0, hne⟩
    exact hadm.elim (fun h => h h0) hne
  refine (if_neg hsize).trans ?_
  rw [hpool]
  rfl

section

variable (cfg : Config) (e : SenderCtx F) (f : F) (id : ReqId) (n : ℕ) (w : WrEx F) (rest : List (WrEx F))
  (user : TxUser) (c : TxChoice) {g : F}

/-- Apart from the subflows, the timers and the posted work requests nothing changes. -/
theorem frame_transmitChunk : transmitChunk cfg e f id w user c = { e with
        flows := (transmitChunk cfg e f id w user c).flows
        rto := (transmitChunk cfg e f id w user c).rto
        sq := e.sq ++ [postOf user { w with qpidx := c.qpidx }] } := by
  unfold transmitChunk armTimerForFlow
  dsimp only
  split
  · split <;> rfl
  · rfl

/-- A chunk is posted as it is, whatever happens to the timer. -/
theorem sq_transmitChunk : (transmitChunk cfg e f id w user c).sq = e.sq ++ [postOf user { w with qpidx := c.qpidx }] ∧
      (transmitChunk cfg e f id w user c).wrExPool = e.wrExPool := by
  rw [frame_transmitChunk]
  exact ⟨rfl, rfl⟩

/-- Transmitting tracks a chunk and may arm the timer of its subflow. -/
theorem flows_transmitChunk_self : ∃ armed, (transmitChunk cfg e f id w user c).flows f = { e.flows f with
        unackedChunks := (e.flows f).unackedChunks ++ [messageTrack id { w with qpidx := c.qpidx }]
        rtoArmed := armed } := by
  have hpost := flows_postAndTrack_self e f user (messageTrack id { w with qpidx := c.qpidx })
  unfold transmitChunk armTimerForFlow
  dsimp only
  split
  · split
    · refine ⟨true, (update_self ..).trans ?_⟩
      rw [hpost]
    · exact ⟨_, hpost⟩
  · exact ⟨_, hpost⟩

theorem flows_transmitChunk_of_ne {f g : F} (hg : g ≠ f) (id : ReqId) (w : WrEx F) (user : TxUser) (c : TxChoice) :
    (transmitChunk cfg e f id w user c).flows g = e.flows g := by
  have hpost := flows_postAndTrack_of_ne e hg user (messageTrack id { w with qpidx := c.qpidx })
  unfold transmitChunk
  split
  · rw [(resent_armTimerForFlow _ f c.now).other g hg]
    exact hpost
  · exact hpost

/-- Placing a chunk hands out a CSN; the chunk is tracked or counted in the wheel. -/
theorem flows_placeChunk_self (w : WrEx F) (pool : List (WrEx F)) :
    ∃ chunks armed cnt, (placeChunk cfg e id c w pool).flows (e.ureqs id).context = { e.flows (e.ureqs id).context with
        pcb := (e.flows (e.ureqs id).context).pcb.getSndNxt.2
        sentChunks := (e.flows (e.ureqs id).context).sentChunks + 1
        unackedChunks := chunks
        rtoArmed := armed
        inWheelCnt := cnt } := by
  have htake := flows_takeCsn_self { e with wrExPool := pool } (e.ureqs id).context
  unfold placeChunk
  dsimp only
  split
  · obtain ⟨armed, hsent⟩ := flows_transmitChunk_self cfg
      (takeCsn { e with wrExPool := pool } (e.ureqs id).context) (e.ureqs id).context id
      (fillMessageWr cfg (e.ureqs id).context (e.flows (e.ureqs id).context) (e.ureqs id)
        (admitted cfg e id) w) .message c
    rw [hsent, htake]
    exact ⟨_, _, _, rfl⟩
  · rw [flows_queueOnTimingWheel_self, htake]
    exact ⟨_, _, _, rfl⟩

theorem flows_placeChunk_of_ne (w : WrEx F) (pool : List (WrEx F)) {g : F} (hg : g ≠ (e.ureqs id).context) :
    (placeChunk cfg e id c w pool).flows g = e.flows g := by
  have htake := flows_takeCsn_of_ne { e with wrExPool := pool } hg
  unfold placeChunk
  dsimp only
  split
  · rw [flows_transmitChunk_of_ne _ _ hg]
    exact htake
  · rw [flows_queueOnTimingWheel_of_ne _ hg]
    exact htake

theorem engineUnackedBytes_transmitChunk :
    (transmitChunk cfg e f id w user c).engineUnackedBytes = e.engineUnackedBytes := by
  rw [frame_transmitChunk]

/-- Placing a chunk counts no bytes yet. -/
theorem engineUnackedBytes_placeChunk (w : WrEx F) (pool : List (WrEx F)) :
    (placeChunk cfg e id c w pool).engineUnackedBytes = e.engineUnackedBytes := by
  unfold placeChunk
  dsimp only
  split
  · rw [engineUnackedBytes_transmitChunk]
    rfl
  · rfl

theorem engineUnackedBytes_burstChunk : (burstChunk cfg e w rest c).engineUnackedBytes = e.engineUnackedBytes := by
  unfold burstChunk
  rw [SenderCtx.modFlow_engineUnackedBytes, engineUnackedBytes_transmitChunk]

/-- A burst chunk is tracked and leaves the wheel's count. -/
theorem flows_burstChunk_self : ∃ armed, (burstChunk cfg e w rest c).flows (wheelFlow e w) =
      { e.flows (wheelFlow e w) with
        unackedChunks := (e.flows (wheelFlow e w)).unackedChunks ++ [messageTrack w.ureq { w with qpidx := c.qpidx }]
        rtoArmed := armed
        inWheelCnt := subU32 (e.flows (wheelFlow e w)).inWheelCnt 1 } := by
  obtain ⟨armed, hsent⟩ := flows_transmitChunk_self cfg { e with readyQueue := rest } (wheelFlow e w) w.ureq w .wheel c
  unfold burstChunk
  rw [SenderCtx.modFlow_flows_self, hsent]
  exact ⟨_, rfl⟩

/-- A burst chunk leaves the ready queue and is posted; no buffer moves otherwise. -/
theorem frame_burstChunk : burstChunk cfg e w rest c = { e with
        flows := (burstChunk cfg e w rest c).flows
        rto := (burstChunk cfg e w rest c).rto
        readyQueue := rest
        sq := e.sq ++ [postOf .wheel { w with qpidx := c.qpidx }] } := by
  unfold burstChunk
  rw [SenderCtx.modFlow, frame_transmitChunk]

theorem flows_burstChunk_of_ne (hg : g ≠ wheelFlow e w) : (burstChunk cfg e w rest c).flows g = e.flows g := by
  unfold burstChunk
  rw [SenderCtx.modFlow_flows_of_ne _ hg, flows_transmitChunk_of_ne _ _ hg]

theorem ureqs_transmitChunk : (transmitChunk cfg e f id w user c).ureqs = e.ureqs := by
  rw [frame_transmitChunk]

theorem ureqs_burstChunk : (burstChunk cfg e w rest c).ureqs = e.ureqs := by
  unfold burstChunk
  rw [SenderCtx.modFlow_ureqs, ureqs_transmitChunk]

/-- Counting a chunk advances its request and nothing else of the requests. -/
theorem ureqs_accountChunk : (accountChunk e f id n).ureqs = update e.ureqs id
      { e.ureqs id with sentOffset := addU32 (e.ureqs id).sentOffset n } := rfl

/-- Placing a chunk leaves the requests alone. -/
theorem ureqs_placeChunk (w : WrEx F) (pool : List (WrEx F)) : (placeChunk cfg e id c w pool).ureqs = e.ureqs := by
  unfold placeChunk
  dsimp only
  split
  · rw [ureqs_transmitChunk]
    rfl
  · rfl

end

section

variable {x x : Fault} {opcode : Opcode} {user : TxUser} {b : Bool}

theorem type_txMessageChunk (h : txMessageChunk cfg e id c = .ok (e', b)) : (e'.ureqs id).type = (e.ureqs id).type := by
  rcases txMessageChunk_cases h with ⟨-, rfl⟩ | ⟨w, pool, -, -, -, rfl⟩
  · rfl
  · rw [ureqs_accountChunk, update_self, ureqs_placeChunk]

/-- The state after a one-sided chunk got its buffer and CSN. -/
def takeOneSided (e : SenderCtx F) (id : ReqId) (pool : List (WrEx F)) : SenderCtx F :=
  takeCsn { e with wrExPool := pool } (e.ureqs id).context

/-- The buffer as a one-sided operation fills it. -/
def oneSidedWr (opcode : Opcode) (cfg : Config) (e : SenderCtx F) (id : ReqId) (c : TxChoice)
    (w : WrEx F) : WrEx F :=
  let f := (e.ureqs id).context
  { fillOneSidedWr opcode f (e.flows f) (e.ureqs id) (admitted cfg e id) w with
    qpidx := c.qpidx }

/-- The state after a one-sided chunk was posted and tracked, before its bytes are counted. -/
def placeOneSided (opcode : Opcode) (user : TxUser) (cfg : Config) (e : SenderCtx F)
    (id : ReqId) (c : TxChoice) (w : WrEx F) (pool : List (WrEx F)) : SenderCtx F :=
  let f := (e.ureqs id).context
  let w := oneSidedWr opcode cfg e id c w
  postAndTrack (takeOneSided e id pool) f user
    { ureq := id, wrEx := w, csn := (e.flows f).pcb.sndNxt
      lastChunk := isLastChunk (e.ureqs id) (admitted cfg e id) }

section

variable (h : txOneSidedChunk opcode user cfg e id c = .ok (e', b))
include h

/-- **ONE CHUNK OF A ONE-SIDED OPERATION**: refused; posted, tracked and counted; or
    the post failed and the buffer and the CSN are gone. -/
theorem txOneSidedChunk_cases : (b = false ∧ e' = e) ∨
    ∃ w pool, e.wrExPool = w :: pool ∧ (admitted cfg e id ≠ 0 ∨ (e.ureqs id).dataLen = 0) ∧
      ((b = false ∧ e' = takeOneSided e id pool) ∨
       (b = true ∧ e' = accountChunk (placeOneSided opcode user cfg e id c w pool)
          (e.ureqs id).context id (admitted cfg e id))) := by
  simp only [txOneSidedChunk] at h
  split at h
  · have hp := ok.inj h
    exact .inl ⟨(congrArg Prod.snd hp).symm, (congrArg Prod.fst hp).symm⟩
  · next hsize =>
    have hadm : admitted cfg e id ≠ 0 ∨ (e.ureqs id).dataLen = 0 := by
      by_cases hlen : (e.ureqs id).dataLen = 0
      · exact .inr hlen
      · exact .inl fun h0 => hsize ⟨h0, hlen⟩
    split at h
    · cases h
    · next w pool hpool =>
      refine .inr ⟨w, pool, hpool, hadm, ?_⟩
      split at h
      · have hp := ok.inj h
        exact .inl ⟨(congrArg Prod.snd hp).symm, (congrArg Prod.fst hp).symm⟩
      · have hp := ok.inj h
        exact .inr ⟨(congrArg Prod.snd hp).symm, (congrArg Prod.fst hp).symm⟩

theorem type_txOneSidedChunk : (e'.ureqs id).type = (e.ureqs id).type := by
  rcases txOneSidedChunk_cases h with ⟨-, rfl⟩ | ⟨w, pool, -, -, ⟨-, rfl⟩ | ⟨-, rfl⟩⟩
  · rfl
  · rfl
  · rw [ureqs_accountChunk, update_self]
    rfl

end

-- ── How transmitting can fail

theorem txMessageChunk_error (h : txMessageChunk cfg e id c = .error x) : x = .wrExPoolEmpty := by
  simp only [txMessageChunk] at h
  split at h
  · cases h
  · split at h
    · exact (error.inj h).symm
    · cases h

theorem txOneSidedChunk_error (h : txOneSidedChunk opcode user cfg e id c = .error x) : x = .wrExPoolEmpty := by
  simp only [txOneSidedChunk] at h
  split at h
  · cases h
  · split at h
    · exact (error.inj h).symm
    · split at h
      · cases h
      · cases h

/-- Transmitting stops the process only for want of a buffer, or on an empty one-sided operation. -/
theorem txMessage_error {cs : ℕ → TxChoice} (h : txMessage cfg e id cs = .error x) :
    x = .wrExPoolEmpty ∨ x = .zeroLengthOneSided := by
  unfold txMessage at h
  split at h
  · unfold senderCCTxRead at h
    split at h
    · exact .inr (error.inj h).symm
    · exact .inl (txLoop_error (fun _ _ _ => txOneSidedChunk_error) _ _ _ _ h)
  · unfold senderCCTxWrite at h
    split at h
    · exact .inr (error.inj h).symm
    · exact .inl (txLoop_error (fun _ _ _ => txOneSidedChunk_error) _ _ _ _ h)
  · exact .inl (txLoop_error (fun _ _ _ => txMessageChunk_error) _ _ _ _ h)

end

-- ── Rules for the loops

/-- **THE TRANSMIT RULE**: what one chunk of each kind keeps, `tx_message` keeps. -/
theorem txMessage_rule (hmsg : ∀ (e : SenderCtx F) c e' b, I e → (e.ureqs id).type = .ReqTx →
      txMessageChunk cfg e id c = .ok (e', b) → I e')
    (hone : ∀ opcode user, (opcode = .RDMA_WRITE ∧ user = .write ∨ opcode = .RDMA_READ ∧ user = .read) →
      ∀ (e : SenderCtx F) c e' b, I e → (e.ureqs id).type ≠ .ReqTx →
        txOneSidedChunk opcode user cfg e id c = .ok (e', b) → I e') {b : Bool}
    (hi : I e) (h : txMessage cfg e id cs = .ok (e', b)) : I e' := by
  have hloop : ∀ opcode user, (opcode = .RDMA_WRITE ∧ user = .write ∨
      opcode = .RDMA_READ ∧ user = .read) → (e.ureqs id).type ≠ .ReqTx →
      ∀ n, txLoop (txOneSidedChunk opcode user cfg) id cs n 0 e = .ok (e', b) → I e' := by
    intro opcode user hkind hne n hrun
    refine (txLoop_invariant (I := fun e₁ => I e₁ ∧ (e₁.ureqs id).type ≠ .ReqTx) ?_ _ _ _ _ ⟨hi, hne⟩ hrun).1
    intro e₁ c e2 b' hi1 hb
    refine ⟨hone opcode user hkind e₁ c e2 b' hi1.1 hi1.2 hb, ?_⟩
    rw [type_txOneSidedChunk hb]
    exact hi1.2
  unfold txMessage at h
  split at h
  · next hty =>
    unfold senderCCTxRead at h
    split at h
    · cases h
    · exact hloop .RDMA_READ .read (.inr ⟨rfl, rfl⟩) (by rw [hty]; decide) _ h
  · next hty =>
    unfold senderCCTxWrite at h
    split at h
    · cases h
    · exact hloop .RDMA_WRITE .write (.inl ⟨rfl, rfl⟩) (by rw [hty]; decide) _ h
  · next hty =>
    refine (txLoop_invariant (I := fun e₁ => I e₁ ∧ (e₁.ureqs id).type = .ReqTx) ?_ _ _ _ _ ⟨hi, hty⟩ h).1
    intro e₁ c e2 b' hi1 hb
    exact ⟨hmsg e₁ c e2 b' hi1.1 hi1.2 hb, (type_txMessageChunk hb).trans hi1.2⟩

/-- What one burst chunk keeps, the burst loop keeps. -/
theorem burstLoop_rule (hburst : ∀ e w rest c, I e → e.readyQueue = w :: rest → I (burstChunk cfg e w rest c)) :
    ∀ (n k : ℕ) (e : SenderCtx F), I e → I (burstLoop cfg cs n k e) := by
  intro n
  induction n with
  | zero => intro k e hi; exact hi
  | succ n ih =>
    intro k e hi
    simp only [burstLoop]
    split
    · exact hi
    · next w rest hready =>
      have hi' := hburst e w rest (cs k) hi hready
      split
      · exact hi'
      · exact ih (k + 1) _ hi'

section

variable (hmove : ∀ (e : SenderCtx F) f w, I e →
    e.wheel.find? (fun w => decide (wheelFlow e w = f)) = some w →
    I { e with
      wheel := e.wheel.eraseP fun w => decide (wheelFlow e w = f)
      readyQueue := e.readyQueue ++ [w] })

include hmove

/-- What one reaped entry keeps, `reap` keeps. -/
theorem reap_rule : ∀ (due : List F) (e : SenderCtx F), I e → I (reap e due) := by
  intro due
  induction due with
  | nil => intro e hi; exact hi
  | cons f due ih =>
    intro e hi
    simp only [reap]
    split
    · exact ih e hi
    · next w hfind => exact ih _ (hmove e f w hi hfind)

/-- **THE WHEEL RULE.** -/
theorem burstTimingWheel_rule (hburst : ∀ e w rest c, I e → e.readyQueue = w :: rest → I (burstChunk cfg e w rest c))
    (hi : I e) (due : List F) (cs : ℕ → TxChoice) : I (burstTimingWheel cfg e due cs) :=
  burstLoop_rule hburst _ _ _ (reap_rule hmove due e hi)

end

/-- What marking and retransmitting one expired subflow keeps, the loop keeps. -/
theorem handleExpired_rule {now : ℕ} (hstep : ∀ e f e', I e →
      rtoRetransmitForFlow cfg (markFlowTimeout e f) f now = .ok e' → I e') :
    ∀ (fs : List F) (e e' : SenderCtx F), I e → handleExpired cfg now fs e = .ok e' → I e' := by
  intro fs
  induction fs with
  | nil =>
    intro e e' hi h
    cases h
    exact hi
  | cons f fs ih =>
    intro e e' hi h
    simp only [handleExpired] at h
    split at h
    · cases h
    · next e₁ h1 => exact ih e₁ e' (hstep e f e₁ hi h1) h

-- ── Completing chunks

/-- What one completed front chunk keeps, `ack_transmitted_chunks` keeps. -/
theorem ackTransmittedChunks_rule {f : F}
    (hfront : ∀ e chunk rest, I e → (e.flows f).unackedChunks = chunk :: rest → I (ackFront e f chunk rest)) :
    ∀ (n : ℕ) (e e' : SenderCtx F), I e → ackTransmittedChunks f n e = .ok e' → I e' := by
  intro n
  induction n with
  | zero =>
    intro e e' hi h
    cases h
    exact hi
  | succ n ih =>
    intro e e' hi h
    simp only [ackTransmittedChunks] at h
    split at h
    · cases h
    · next chunk rest hchunks => exact ih _ e' (hfront e chunk rest hi hchunks) h

-- ── One rule for a step of the engine

/-- An invariant of the sending side, by what can happen to it: a chunk is placed, a wheel entry is reaped or burst,
    chunks are completed in order or by CSN, and the timers, the statistics and the bookkeeping of ACKs change. -/
structure Stepwise (cfg : Config) (I : SenderCtx F → Prop) : Prop where
  message : ∀ (e : SenderCtx F) id c w pool, I e → (e.ureqs id).type = .ReqTx →
    e.wrExPool = w :: pool → (admitted cfg e id ≠ 0 ∨ (e.ureqs id).dataLen = 0) →
    I (accountChunk (placeChunk cfg e id c w pool) (e.ureqs id).context id (admitted cfg e id))
  oneSided : ∀ opcode user, (opcode = .RDMA_WRITE ∧ user = .write ∨
      opcode = .RDMA_READ ∧ user = .read) →
    ∀ (e : SenderCtx F) id c w pool, I e → (e.ureqs id).type ≠ .ReqTx →
    e.wrExPool = w :: pool → (admitted cfg e id ≠ 0 ∨ (e.ureqs id).dataLen = 0) →
    I (accountChunk (placeOneSided opcode user cfg e id c w pool) (e.ureqs id).context id
      (admitted cfg e id))
  failedPost : ∀ (e : SenderCtx F) id w pool, I e → (e.ureqs id).type ≠ .ReqTx →
    e.wrExPool = w :: pool → I (takeOneSided e id pool)
  reaped : ∀ (e : SenderCtx F) f w, I e →
    e.wheel.find? (fun w => decide (wheelFlow e w = f)) = some w →
    I { e with
      wheel := e.wheel.eraseP fun w => decide (wheelFlow e w = f)
      readyQueue := e.readyQueue ++ [w] }
  burst : ∀ e w rest c, I e → e.readyQueue = w :: rest → I (burstChunk cfg e w rest c)
  resent : ∀ e f e', I e → Resent e f e' → I e'
  expired : ∀ (e : SenderCtx F) rto, I e → I { e with rto := rto }
  duplicate : ∀ e f h, I e → I (noteDuplicateAck e f h)
  sack : ∀ e f h, I e → I (updateSackBitmap e f h)
  valid : ∀ e f ackno now e', I e → rxValidAck e f ackno now = .ok e' → I e'
  completed : ∀ e f csn chunk, I e →
    (e.flows f).unackedChunks.find? (fun chunk => decide (chunk.csn = csn)) = some chunk →
    I (ackRcChunk e f csn chunk)

section

variable (hI : Stepwise cfg I)
include hI

theorem Stepwise.txMessage {cs : ℕ → TxChoice} {b : Bool} (hi : I e)
    (h : txMessage cfg e id cs = .ok (e', b)) : I e' := by
  refine txMessage_rule ?_ ?_ hi h
  · intro e c e' b hi hty hrun
    rcases txMessageChunk_cases hrun with ⟨-, rfl⟩ | ⟨w, pool, -, hpool, hadm, rfl⟩
    · exact hi
    · exact hI.message e id c w pool hi hty hpool hadm
  · intro opcode user hkind e c e' b hi hty hrun
    rcases txOneSidedChunk_cases hrun with ⟨-, rfl⟩ | ⟨w, pool, hpool, hadm, ⟨-, rfl⟩ | ⟨-, rfl⟩⟩
    · exact hi
    · exact hI.failedPost e id w pool hi hty hpool
    · exact hI.oneSided opcode user hkind e id c w pool hi hty hpool hadm

theorem Stepwise.ucRxAck {h : UcclSackHdr} {now : ℕ} (hi : I e) (hrun : ucRxAck cfg e h now = .ok e') : I e' := by
  rcases ucRxAck_cases hrun with rfl | ⟨e₁, rfl, -, -, ⟨-, hdup⟩ | ⟨-, hvalid⟩⟩
  · exact hi
  · exact hI.sack _ _ h (hI.resent _ _ _ (hI.duplicate e _ h hi) (resent_rxDuplicateAck hdup))
  · exact hI.sack _ _ h (hI.valid e _ _ now e₁ hi hvalid)

theorem Stepwise.handleRto {now : ℕ} (hi : I e) (hrun : handleRto cfg e now = .ok e') : I e' := by
  unfold RdmaAck.handleRto at hrun
  split at hrun
  · cases hrun
    exact hi
  · refine handleExpired_rule ?_ _ _ e' (hI.expired e _ hi) hrun
    intro e f e' hi h
    exact hI.resent e f e' hi ((resent_markFlowTimeout e f).trans (resent_rtoRetransmitForFlow h))

/-- **THE ENGINE RULE.** -/
theorem Stepwise.step (e : SenderCtx F) (a : TxAction F) (e' : SenderCtx F)
    (hi : I e) (hrun : engStep cfg e a = .ok e') : I e' := by
  cases a with
  | tx id cs =>
    simp only [engStep] at hrun
    split at hrun
    · cases hrun
    · next e₁ b htx =>
      cases hrun
      exact hI.txMessage hi htx
  | burst due cs =>
    cases hrun
    exact burstTimingWheel_rule hI.reaped hI.burst hi due cs
  | ucAck h now => exact hI.ucRxAck hi hrun
  | rcAck wrId =>
    cases hrun
    rcases rcRxAck_cases e wrId with heq | ⟨chunk, hfind, heq⟩
    · rw [heq]
      exact hi
    · rw [heq]
      exact hI.completed e wrId.2 wrId.1 chunk hi hfind
  | rto now => exact hI.handleRto hi hrun
  | retransmit f rto now => exact hI.resent e f e' hi (resent_retransmitForFlow hrun)

end

end RdmaEngine
