import Uccl.RdmaEngineProofs
import Uccl.OwnershipProofs
import Uccl.LedgerProofs

/-! # Byte accounting

    Bytes are added to `unacked_bytes_` of a subflow and to `engine_unacked_bytes_` in one place, when a chunk
    gets its CSN, and taken off in two: chunk by chunk in `ack_rc_transmitted_chunks`, and by a difference of
    before and after around `ack_transmitted_chunks`. In between the chunk waits in the timing wheel, in the
    ready queue or among the tracked chunks.

    `chunkLens` is the bag of lengths that a subflow's counter stands for; the file says what each routine
    does to it, and the counters are then an instance of `Ledger.Exact`. -/

namespace RdmaAccounting

open RdmaPcb RdmaImm RdmaTimer RdmaState RdmaTransmit RdmaAck RdmaEngine Ownership Ledger StepRun List

variable {F : Type} [DecidableEq F]
variable {f g : F} {e e' : SenderCtx F} {cfg : Config} {w : WrEx F} {flowOf : WrEx F → F} {chunk : ChunkTrack F}

-- ── The bag of a subflow

/-- Lengths of those of the buffers that belong to `f`. -/
def lensFor (flowOf : WrEx F → F) (f : F) (ws : List (WrEx F)) : List ℕ :=
  (ws.filter fun w => decide (flowOf w = f)).map fun w => w.sge.length

theorem lensFor_append (flowOf : WrEx F → F) (f : F) (ws vs : List (WrEx F)) :
    lensFor flowOf f (ws ++ vs) = lensFor flowOf f ws ++ lensFor flowOf f vs := by
  unfold lensFor
  rw [filter_append, map_append]

theorem lensFor_cons_self (h : flowOf w = f) (ws : List (WrEx F)) :
    lensFor flowOf f (w :: ws) = w.sge.length :: lensFor flowOf f ws := by
  unfold lensFor
  rw [filter_cons_of_pos (by rw [h, decide_eq_true rfl]), map_cons]

theorem lensFor_cons_of_ne (h : f ≠ flowOf w)
    (ws : List (WrEx F)) : lensFor flowOf f (w :: ws) = lensFor flowOf f ws := by
  unfold lensFor
  rw [filter_cons_of_neg]
  rw [decide_eq_true_eq]
  exact fun heq => h heq.symm

theorem lensFor_perm (flowOf : WrEx F → F) (f : F) {ws vs : List (WrEx F)} (h : ws.Perm vs) :
    (lensFor flowOf f ws).Perm (lensFor flowOf f vs) :=
  (h.filter _).map _

/-- Lengths of the subflow's chunks in the wheel and the ready queue. -/
def queuedLens (e : SenderCtx F) (f : F) : List ℕ :=
  lensFor (wheelFlow e) f (e.wheel ++ e.readyQueue)

/-- Lengths of the subflow's tracked chunks. -/
def trackedLens (e : SenderCtx F) (f : F) : List ℕ :=
  (e.flows f).unackedChunks.map fun t => t.wrEx.sge.length

/-- Lengths of all chunks that have a CSN and are not completed. -/
def chunkLens (e : SenderCtx F) (f : F) : List ℕ := queuedLens e f ++ trackedLens e f

omit [DecidableEq F] in
theorem trackedLens_congr (h : (e'.flows f).unackedChunks = (e.flows f).unackedChunks) :
    trackedLens e' f = trackedLens e f := by
  unfold trackedLens
  rw [h]

theorem queuedLens_congr (hwheel : e'.wheel = e.wheel) (hready : e'.readyQueue = e.readyQueue)
    (hctx : ∀ id, (e'.ureqs id).context = (e.ureqs id).context) (f : F) : queuedLens e' f = queuedLens e f := by
  have hflow : wheelFlow e' = wheelFlow e := funext fun w => hctx w.ureq
  unfold queuedLens
  rw [hwheel, hready, hflow]

theorem queuedLens_resent (h : Resent e f e') (g : F) : queuedLens e' g = queuedLens e g := by
  refine queuedLens_congr ?_ ?_ ?_ g
  · rw [h.frame]
  · rw [h.frame]
  · intro id
    rw [h.frame]

theorem chunkLens_congr (hwheel : e'.wheel = e.wheel) (hready : e'.readyQueue = e.readyQueue)
    (hctx : ∀ id, (e'.ureqs id).context = (e.ureqs id).context)
    (htracked : (e'.flows f).unackedChunks = (e.flows f).unackedChunks) : chunkLens e' f = chunkLens e f := by
  unfold chunkLens
  rw [queuedLens_congr hwheel hready hctx, trackedLens_congr htracked]

theorem chunkLens_resent (h : Resent e f e') (g : F) : chunkLens e' g = chunkLens e g := by
  unfold chunkLens
  rw [queuedLens_resent h, trackedLens_congr (h.unackedChunks g)]

section

variable (e : SenderCtx F) (pool : List (WrEx F)) (f : F) (user : TxUser) (t : ChunkTrack F) (id : ReqId)
  (n : ℕ) (g : F) (k : ReqId)

/-- A change of one subflow that tracks and completes nothing. -/
theorem chunkLens_modFlow {k : SubUcclFlow F → SubUcclFlow F}
    (hk : (k (e.flows f)).unackedChunks = (e.flows f).unackedChunks) (g : F) :
    chunkLens (e.modFlow f k) g = chunkLens e g := by
  have htracked : ((e.modFlow f k).flows g).unackedChunks = (e.flows g).unackedChunks := update_congr _ hk g
  exact chunkLens_congr rfl rfl (fun _ => rfl) htracked

/-- Handing out a CSN and taking a buffer moves no chunk. -/
theorem chunkLens_takeCsn (f g : F) : chunkLens (takeCsn { e with wrExPool := pool } f) g = chunkLens e g := by
  unfold takeCsn
  rw [chunkLens_modFlow _ f rfl]
  rfl

theorem context_accountChunk : ((accountChunk e f id n).ureqs k).context = (e.ureqs k).context := by
  exact update_congr UcclRequest.context (by rfl) k

theorem chunkLens_accountChunk : chunkLens (accountChunk e f id n) g = chunkLens e g := by
  have htracked : ((accountChunk e f id n).flows g).unackedChunks = (e.flows g).unackedChunks :=
    update_congr SubUcclFlow.unackedChunks (by rfl) g
  exact chunkLens_congr rfl rfl (context_accountChunk e f id n) htracked

/-- Posting and tracking a chunk puts its length into the bag. -/
theorem chunkLens_postAndTrack : (chunkLens (postAndTrack e f user t) f).Perm (t.wrEx.sge.length :: chunkLens e f) := by
  have htracked : trackedLens (postAndTrack e f user t) f = trackedLens e f ++ [t.wrEx.sge.length] := by
    unfold trackedLens
    rw [flows_postAndTrack_self, map_append]
    rfl
  unfold chunkLens
  rw [htracked, ← append_assoc]
  exact perm_append_singleton _ _

end

section

variable (cfg : Config) (e : SenderCtx F) (id : ReqId) (w : WrEx F) {g : F}

theorem chunkLens_postAndTrack_of_ne (hg : g ≠ f) (user : TxUser)
    (t : ChunkTrack F) : chunkLens (postAndTrack e f user t) g = chunkLens e g := by
  refine chunkLens_congr rfl rfl (fun _ => rfl) ?_
  rw [flows_postAndTrack_of_ne e hg]

/-- The timer does not matter. -/
theorem chunkLens_transmitChunk (f : F) (id : ReqId) (w : WrEx F) (user : TxUser) (c : TxChoice) (g : F) :
    chunkLens (transmitChunk cfg e f id w user c) g =
      chunkLens (postAndTrack e f user (messageTrack id { w with qpidx := c.qpidx })) g := by
  unfold transmitChunk
  split
  · exact chunkLens_resent (resent_armTimerForFlow _ f c.now) g
  · rfl

/-- So does queueing it on the wheel. -/
theorem chunkLens_queueOnTimingWheel :
    (chunkLens (queueOnTimingWheel e (e.ureqs id).context id w) (e.ureqs id).context).Perm
      (w.sge.length :: chunkLens e (e.ureqs id).context) := by
  have hqueued : (queuedLens (queueOnTimingWheel e (e.ureqs id).context id w)
      (e.ureqs id).context).Perm (w.sge.length :: queuedLens e (e.ureqs id).context) := by
    have hflow : wheelFlow e { w with ureq := id } = (e.ureqs id).context := rfl
    show (lensFor (wheelFlow e) (e.ureqs id).context (e.wheel ++ [{ w with ureq := id }] ++ e.readyQueue)).Perm _
    rw [append_assoc, singleton_append, lensFor_append, lensFor_cons_self hflow]
    unfold queuedLens
    rw [lensFor_append]
    exact perm_middle
  have htracked : trackedLens (queueOnTimingWheel e (e.ureqs id).context id w)
      (e.ureqs id).context = trackedLens e (e.ureqs id).context :=
    trackedLens_congr (by rw [flows_queueOnTimingWheel_self])
  unfold chunkLens
  rw [htracked]
  exact hqueued.append_right _

theorem chunkLens_queueOnTimingWheel_of_ne (hg : g ≠ (e.ureqs id).context) :
    chunkLens (queueOnTimingWheel e (e.ureqs id).context id w) g = chunkLens e g := by
  have hqueued : queuedLens (queueOnTimingWheel e (e.ureqs id).context id w) g = queuedLens e g := by
    show lensFor (wheelFlow e) g (e.wheel ++ [{ w with ureq := id }] ++ e.readyQueue) = _
    rw [append_assoc, singleton_append, lensFor_append, lensFor_cons_of_ne hg, ← lensFor_append]
    rfl
  have htracked : trackedLens (queueOnTimingWheel e (e.ureqs id).context id w) g = trackedLens e g :=
    trackedLens_congr (by rw [flows_queueOnTimingWheel_of_ne e hg])
  unfold chunkLens
  rw [hqueued, htracked]

end

section

variable (opcode : Opcode) (user : TxUser) (cfg : Config) (e : SenderCtx F) (id : ReqId) (c : TxChoice)
  (w : WrEx F) (pool : List (WrEx F))

/-- **A PLACED CHUNK** puts its length into the bag of its subflow, whether it is posted or queued. -/
theorem chunkLens_placeChunk : (chunkLens (placeChunk cfg e id c w pool) (e.ureqs id).context).Perm
      (admitted cfg e id :: chunkLens e (e.ureqs id).context) ∧
    ∀ g, g ≠ (e.ureqs id).context → chunkLens (placeChunk cfg e id c w pool) g = chunkLens e g := by
  have htake := chunkLens_takeCsn e pool (e.ureqs id).context
  unfold placeChunk
  dsimp only
  split
  · refine ⟨?_, fun g hg => ?_⟩
    · rw [chunkLens_transmitChunk, ← htake]
      exact chunkLens_postAndTrack _ _ _ _
    · rw [chunkLens_transmitChunk, chunkLens_postAndTrack_of_ne _ hg, htake]
  · refine ⟨?_, fun g hg => ?_⟩
    · rw [← htake (e.ureqs id).context]
      exact chunkLens_queueOnTimingWheel (takeCsn { e with wrExPool := pool } (e.ureqs id).context) id _
    · rw [← htake g]
      exact chunkLens_queueOnTimingWheel_of_ne (takeCsn { e with wrExPool := pool } (e.ureqs id).context) id _ hg

theorem chunkLens_placeOneSided : (chunkLens (placeOneSided opcode user cfg e id c w pool) (e.ureqs id).context).Perm
      (admitted cfg e id :: chunkLens e (e.ureqs id).context) ∧
    ∀ g, g ≠ (e.ureqs id).context → chunkLens (placeOneSided opcode user cfg e id c w pool) g = chunkLens e g := by
  have htake := chunkLens_takeCsn e pool (e.ureqs id).context
  refine ⟨?_, fun g hg => ?_⟩
  · rw [← htake]
    exact chunkLens_postAndTrack _ _ _ _
  · rw [← htake g]
    exact chunkLens_postAndTrack_of_ne _ hg _ _

end

/-- Reaping moves a chunk from the wheel to the ready queue. -/
theorem chunkLens_reaped (hfind : e.wheel.find? (fun w => decide (wheelFlow e w = f)) = some w) (g : F) :
    (chunkLens { e with
      wheel := e.wheel.eraseP fun w => decide (wheelFlow e w = f)
      readyQueue := e.readyQueue ++ [w] } g).Perm (chunkLens e g) := by
  have hperm : ((e.wheel.eraseP fun w => decide (wheelFlow e w = f)) ++ (e.readyQueue ++ [w])).Perm
      (e.wheel ++ e.readyQueue) := by
    refine List.Perm.trans ?_ ((perm_cons_eraseP_of_find? hfind).append_right _).symm
    rw [← append_assoc]
    exact perm_append_singleton w _
  exact (lensFor_perm (wheelFlow e) g hperm).append_right _

/-- A burst chunk moves from the ready queue to the tracked chunks. -/
theorem chunkLens_burstChunk (cfg : Config) {rest : List (WrEx F)}
    (hready : e.readyQueue = w :: rest) (c : TxChoice) (g : F) :
    (chunkLens (burstChunk cfg e w rest c) g).Perm (chunkLens e g) := by
  have hbag : chunkLens (burstChunk cfg e w rest c) g =
      chunkLens (postAndTrack { e with readyQueue := rest } (wheelFlow e w) .wheel
        (messageTrack w.ureq { w with qpidx := c.qpidx })) g := by
    unfold burstChunk
    rw [chunkLens_modFlow _ _ rfl, chunkLens_transmitChunk]
  rw [hbag]
  by_cases hg : g = wheelFlow e w
  · rw [hg]
    refine (chunkLens_postAndTrack _ _ _ _).trans ?_
    have hqueued : (queuedLens e (wheelFlow e w)).Perm
        (w.sge.length :: queuedLens { e with readyQueue := rest } (wheelFlow e w)) := by
      unfold queuedLens
      rw [hready, lensFor_append, lensFor_cons_self rfl, lensFor_append]
      exact perm_middle
    exact (hqueued.append_right _).symm
  · rw [chunkLens_postAndTrack_of_ne _ hg]
    have hqueued : queuedLens { e with readyQueue := rest } g = queuedLens e g := by
      unfold queuedLens
      rw [hready, lensFor_append, lensFor_append, lensFor_cons_of_ne hg]
      rfl
    unfold chunkLens
    rw [hqueued]
    exact List.Perm.refl _

/-- Completing the front chunk takes its length out of the bag. -/
theorem chunkLens_ackFront {rest : List (ChunkTrack F)} (hchunks : (e.flows f).unackedChunks = chunk :: rest) :
    (chunkLens e f).Perm (chunk.wrEx.sge.length :: chunkLens (ackFront e f chunk rest) f) := by
  have htracked : trackedLens e f = chunk.wrEx.sge.length :: trackedLens (ackFront e f chunk rest) f := by
    unfold trackedLens
    rw [hchunks, flows_ackFront_self, map_cons]
  unfold chunkLens
  rw [htracked]
  exact perm_middle

theorem chunkLens_ackFront_of_ne (e : SenderCtx F) (hg : g ≠ f) (chunk : ChunkTrack F)
    (rest : List (ChunkTrack F)) : chunkLens (ackFront e f chunk rest) g = chunkLens e g := by
  refine chunkLens_congr rfl rfl (fun _ => rfl) ?_
  rw [flows_ackFront_of_ne e hg]

theorem context_ackRcChunk (e : SenderCtx F) (f : F) (csn : UintCsn) (chunk : ChunkTrack F)
    (k : ReqId) : ((ackRcChunk e f csn chunk).ureqs k).context = (e.ureqs k).context := by
  exact update_congr UcclRequest.context (by rfl) k

/-- Completing a chunk by its CSN takes its length out of the bag. -/
theorem chunkLens_ackRcChunk {csn : UintCsn}
    (hfind : (e.flows f).unackedChunks.find? (fun chunk => decide (chunk.csn = csn)) = some chunk) :
    (chunkLens e f).Perm (chunk.wrEx.sge.length :: chunkLens (ackRcChunk e f csn chunk) f) := by
  have htracked : (trackedLens e f).Perm (chunk.wrEx.sge.length :: trackedLens (ackRcChunk e f csn chunk) f) := by
    unfold trackedLens
    rw [flows_ackRcChunk_self]
    exact (perm_cons_eraseP_of_find? hfind).map _
  have hqueued : queuedLens (ackRcChunk e f csn chunk) f = queuedLens e f := by
    refine queuedLens_congr ?_ ?_ (context_ackRcChunk e f csn chunk) f <;> rfl
  unfold chunkLens
  rw [hqueued]
  exact (htracked.append_left _).trans perm_middle

theorem chunkLens_ackRcChunk_of_ne (e : SenderCtx F) (hg : g ≠ f) (csn : UintCsn)
    (chunk : ChunkTrack F) : chunkLens (ackRcChunk e f csn chunk) g = chunkLens e g := by
  refine chunkLens_congr rfl rfl (context_ackRcChunk e f csn chunk) ?_
  rw [flows_ackRcChunk_of_ne e hg]

-- ── Admission

/-- The budgets fit in `uint32_t` with a chunk to spare. -/
theorem high_add_chunkSize_lt (cfg : Config) : cfg.kMaxUnAckedBytesPerEngineHigh + cfg.chunkSize < 2 ^ 32 := by
  have hfits := cfg.budgetFits
  have hunit : cfg.chunkSize ≤ cfg.budgetUnit := Nat.le_max_left _ _
  have hhigh : cfg.kMaxUnAckedBytesPerEngineHigh ≤ 24 * cfg.budgetUnit := by
    unfold Config.kMaxUnAckedBytesPerEngineHigh
    split <;> omega
  have hdef : cfg.budgetUnit = max (cfg.chunkSizeKb <<< 10) 32768 := rfl
  omega

/-- **WHAT ADMISSION PROMISES**, as long as the engine is within its High budget: the chunk keeps it there,
    and either the engine stays within Low or the subflow within its own budget. -/
theorem eventOnChunkSize_fits {engine flow remaining : ℕ}
    (hengine : engine ≤ cfg.kMaxUnAckedBytesPerEngineHigh) (hflow : flow ≤ engine) :
    engine + eventOnChunkSize cfg engine flow remaining ≤ cfg.kMaxUnAckedBytesPerEngineHigh ∧
    (eventOnChunkSize cfg engine flow remaining = 0 ∨
      engine + eventOnChunkSize cfg engine flow remaining ≤ cfg.kMaxUnAckedBytesPerEngineLow ∨
      flow + eventOnChunkSize cfg engine flow remaining ≤ cfg.kMaxUnAckedBytesPerFlow) := by
  have hroom := high_add_chunkSize_lt cfg
  have hadd : addU32 engine (min remaining cfg.chunkSize) = engine + min remaining cfg.chunkSize :=
    addU32_of_lt (by omega)
  have haddFlow : addU32 flow (min remaining cfg.chunkSize) = flow + min remaining cfg.chunkSize :=
    addU32_of_lt (by omega)
  unfold eventOnChunkSize
  dsimp only
  rw [hadd, haddFlow]
  split
  · exact ⟨hengine, .inl rfl⟩
  · next hhigh =>
    split
    · next hlow =>
      rw [Bool.or_eq_true, decide_eq_true_eq, decide_eq_true_eq] at hlow
      exact ⟨Nat.not_lt.mp hhigh, .inr hlow⟩
    · exact ⟨hengine, .inl rfl⟩

-- ── The counters

section

variable [Fintype F]

/-- Both counters are exact, and the engine is within its High budget. -/
structure BytesOk (cfg : Config) (e : SenderCtx F) : Prop where
  exact : Exact (chunkLens e) (fun f => (e.flows f).unackedBytes) e.engineUnackedBytes
  high : e.engineUnackedBytes ≤ cfg.kMaxUnAckedBytesPerEngineHigh

section

variable (h : BytesOk cfg e)
include h

theorem BytesOk.of_perm (hlens : ∀ f, (chunkLens e' f).Perm (chunkLens e f))
    (hbytes : ∀ f, (e'.flows f).unackedBytes = (e.flows f).unackedBytes)
    (hengine : e'.engineUnackedBytes = e.engineUnackedBytes) : BytesOk cfg e' := by
  refine ⟨?_, hengine ▸ h.high⟩
  rw [funext hbytes, hengine]
  exact h.exact.perm hlens

theorem BytesOk.modFlow (f : F) {k : SubUcclFlow F → SubUcclFlow F}
    (hchunks : (k (e.flows f)).unackedChunks = (e.flows f).unackedChunks)
    (hbytes : (k (e.flows f)).unackedBytes = (e.flows f).unackedBytes) : BytesOk cfg (e.modFlow f k) := by
  refine h.of_perm (fun g => ?_) (fun g => ?_) rfl
  · rw [chunkLens_modFlow e f hchunks]
  · exact update_congr _ hbytes g

theorem bytesOk_resent (hres : Resent e f e') : BytesOk cfg e' := by
  refine h.of_perm (fun g => ?_) (fun g => ?_) ?_
  · rw [chunkLens_resent hres]
  · obtain ⟨_, _, _, _, hflow⟩ := hres.flow g
    rw [hflow]
  · rw [hres.frame]

/-- A subflow's bytes never exceed the engine's. -/
theorem BytesOk.flow_le (f : F) : (e.flows f).unackedBytes ≤ e.engineUnackedBytes :=
  h.exact.total_le f

end

end

section

variable (opcode : Opcode) (user : TxUser) (cfg : Config) (e : SenderCtx F) (id : ReqId) (c : TxChoice)
  (w : WrEx F) (pool : List (WrEx F)) (f g : F)

theorem unackedBytes_takeCsn :
    ((takeCsn { e with wrExPool := pool } f).flows g).unackedBytes = (e.flows g).unackedBytes :=
  update_congr SubUcclFlow.unackedBytes (by rfl) g

theorem unackedBytes_placeChunk (g : F) :
    ((placeChunk cfg e id c w pool).flows g).unackedBytes = (e.flows g).unackedBytes := by
  by_cases hg : g = (e.ureqs id).context
  · obtain ⟨_, _, _, hself⟩ := flows_placeChunk_self cfg e id c w pool
    rw [hg, hself]
  · rw [flows_placeChunk_of_ne cfg e id c w pool hg]

theorem unackedBytes_placeOneSided (g : F) : ((placeOneSided opcode user cfg e id c w pool).flows g).unackedBytes
      = (e.flows g).unackedBytes := by
  rw [← unackedBytes_takeCsn e pool (e.ureqs id).context g]
  exact update_congr SubUcclFlow.unackedBytes (by rfl) g

end

-- ── Adding and removing

section

variable [Fintype F] {chunk : ChunkTrack F}

/-- A placed chunk of the admitted size is counted in both counters. -/
theorem bytesOk_accountChunk {e1 : SenderCtx F} {id : ReqId} (h : BytesOk cfg e)
    (hself : (chunkLens e1 (e.ureqs id).context).Perm (admitted cfg e id :: chunkLens e (e.ureqs id).context))
    (hother : ∀ g, g ≠ (e.ureqs id).context → chunkLens e1 g = chunkLens e g)
    (hbytes : ∀ g, (e1.flows g).unackedBytes = (e.flows g).unackedBytes)
    (hengine : e1.engineUnackedBytes = e.engineUnackedBytes) :
    BytesOk cfg (accountChunk e1 (e.ureqs id).context id (admitted cfg e id)) := by
  have hflow := h.flow_le (e.ureqs id).context
  have hroom := high_add_chunkSize_lt cfg
  have hfits : e.engineUnackedBytes + admitted cfg e id ≤ cfg.kMaxUnAckedBytesPerEngineHigh :=
    (eventOnChunkSize_fits h.high hflow).1
  have hgrand : (accountChunk e1 (e.ureqs id).context id (admitted cfg e id)).engineUnackedBytes
      = e.engineUnackedBytes + admitted cfg e id := by
    show addU32 e1.engineUnackedBytes _ = _
    rw [hengine, addU32_of_lt (by omega)]
  refine ⟨Exact.add (f := (e.ureqs id).context) h.exact ?_ (fun g hg => ?_) ?_ (fun g hg => ?_) hgrand, hgrand ▸ hfits⟩
  · rw [chunkLens_accountChunk]
    exact hself
  · rw [chunkLens_accountChunk, hother g hg]
  · rw [flows_accountChunk_self, hbytes, addU32_of_lt (by omega)]
  · rw [flows_accountChunk_of_ne _ hg, hbytes]

/-- In the middle of `ack_transmitted_chunks` the subflow's counter is exact and the
    engine's still stands where it was: it is too high by what was taken off so far. -/
structure Completing (f : F) (engine before : ℕ) (e : SenderCtx F) : Prop where
  engine_eq : e.engineUnackedBytes = engine
  le_before : (e.flows f).unackedBytes ≤ before
  exact : Exact (chunkLens e) (fun f => (e.flows f).unackedBytes)
    (engine - (before - (e.flows f).unackedBytes))
  before_le : before ≤ engine

/-- One turn: the length taken off was counted, so nothing wraps. -/
theorem completing_ackFront {engine before : ℕ} (hlt : engine < 2 ^ 32)
    {rest : List (ChunkTrack F)} (h : Completing f engine before e)
    (hchunks : (e.flows f).unackedChunks = chunk :: rest) : Completing f engine before (ackFront e f chunk rest) := by
  have hperm := chunkLens_ackFront hchunks
  have hlen : chunk.wrEx.sge.length ≤ (e.flows f).unackedBytes := h.exact.le_total (hperm.mem_iff.mpr (mem_cons_self))
  have hle := h.le_before
  have hbe := h.before_le
  have hsub : ((ackFront e f chunk rest).flows f).unackedBytes = (e.flows f).unackedBytes - chunk.wrEx.sge.length := by
    rw [flows_ackFront_self]
    exact subU32_of_le hlen (by omega)
  refine ⟨h.engine_eq, by omega, ?_, hbe⟩
  refine Exact.remove (f := f) h.exact hperm (fun g hg => ?_) hsub (fun g hg => ?_) (by omega)
  · rw [chunkLens_ackFront_of_ne e hg]
  · rw [flows_ackFront_of_ne e hg]

theorem completing_ackTransmittedChunks {engine before : ℕ} (hlt : engine < 2 ^ 32) {n : ℕ}
    (h : Completing f engine before e) (hrun : ackTransmittedChunks f n e = .ok e') : Completing f engine before e' :=
  ackTransmittedChunks_rule (I := Completing f engine before)
    (fun _ _ _ h hchunks => completing_ackFront hlt h hchunks) n e e' h hrun

section

variable (h : BytesOk cfg e)
include h

theorem BytesOk.engine_lt : e.engineUnackedBytes < 2 ^ 32 := by
  have hroom := high_add_chunkSize_lt cfg
  have hhigh := h.high
  omega

theorem BytesOk.completing (f : F) :
    Completing f e.engineUnackedBytes (e.flows f).unackedBytes e := by
  refine ⟨rfl, le_rfl, ?_, h.flow_le f⟩
  rw [Nat.sub_self]
  exact h.exact

/-- **A CUMULATIVE ACK** takes the same bytes off both counters. -/
theorem bytesOk_rxValidAck {ackno : UintCsn} {now : ℕ} (hrun : rxValidAck e f ackno now = .ok e') :
    BytesOk cfg e' := by
  obtain ⟨e1, hack, rfl⟩ := rxValidAck_cases hrun
  have hlt := h.engine_lt
  have hflow := h.flow_le f
  have hdone := completing_ackTransmittedChunks hlt (h.completing f) hack
  have hle := hdone.le_before
  have hreduced : subU32 (e.flows f).unackedBytes (e1.flows f).unackedBytes
      = (e.flows f).unackedBytes - (e1.flows f).unackedBytes := subU32_of_le hle (by omega)
  have hgrand : (reduceEngineBytes e1 f (e.flows f).unackedBytes).engineUnackedBytes
      = e.engineUnackedBytes - ((e.flows f).unackedBytes - (e1.flows f).unackedBytes) := by
    show subU32 e1.engineUnackedBytes (subU32 _ _) = _
    rw [hreduced, hdone.engine_eq]
    exact subU32_of_le (by omega) hlt
  have hback : BytesOk cfg (reduceEngineBytes e1 f (e.flows f).unackedBytes) := by
    refine ⟨?_, ?_⟩
    · rw [hgrand]
      exact hdone.exact
    · rw [hgrand]
      exact (Nat.sub_le _ _).trans h.high
  refine bytesOk_resent ?_ (resent_resetTimer _ f now)
  exact hback.modFlow f rfl rfl

/-- **A COMPLETION BY CSN** takes the chunk's bytes off both counters. -/
theorem bytesOk_ackRcChunk {csn : UintCsn}
    (hfind : (e.flows f).unackedChunks.find? (fun chunk => decide (chunk.csn = csn))
      = some chunk) : BytesOk cfg (ackRcChunk e f csn chunk) := by
  have hperm := chunkLens_ackRcChunk hfind
  have hlt := h.engine_lt
  have hflow := h.flow_le f
  have hlen : chunk.wrEx.sge.length ≤ (e.flows f).unackedBytes := h.exact.le_total (hperm.mem_iff.mpr (mem_cons_self))
  have hgrand : (ackRcChunk e f csn chunk).engineUnackedBytes
      = e.engineUnackedBytes - chunk.wrEx.sge.length := subU32_of_le (by omega) hlt
  refine ⟨Exact.remove (f := f) h.exact hperm (fun g hg => ?_) ?_ (fun g hg => ?_) hgrand, ?_⟩
  · rw [chunkLens_ackRcChunk_of_ne e hg]
  · rw [flows_ackRcChunk_self]
    exact subU32_of_le hlen (by omega)
  · rw [flows_ackRcChunk_of_ne e hg]
  · rw [hgrand]
    exact (Nat.sub_le _ _).trans h.high

end

theorem stepwise_bytesOk (cfg : Config) : Stepwise cfg (BytesOk (F := F) cfg) where
  message e id c w pool h _ _ _ := by
    obtain ⟨hself, hother⟩ := chunkLens_placeChunk cfg e id c w pool
    exact bytesOk_accountChunk h hself hother (unackedBytes_placeChunk cfg e id c w pool)
      (engineUnackedBytes_placeChunk cfg e id c w pool)
  oneSided opcode user _ e id c w pool h _ _ _ := by
    obtain ⟨hself, hother⟩ := chunkLens_placeOneSided opcode user cfg e id c w pool
    exact bytesOk_accountChunk h hself hother (unackedBytes_placeOneSided opcode user cfg e id c w pool) rfl
  failedPost e id w pool h _ _ := by
    refine h.of_perm (fun g => ?_) (unackedBytes_takeCsn e pool _) rfl
    unfold takeOneSided
    rw [chunkLens_takeCsn]
  reaped e f w h hfind := h.of_perm (chunkLens_reaped hfind) (fun _ => rfl) rfl
  burst e w rest c h hready := by
    refine h.of_perm (chunkLens_burstChunk cfg hready c) (fun g => ?_) (engineUnackedBytes_burstChunk cfg e w rest c)
    by_cases hg : g = wheelFlow e w
    · obtain ⟨_, hself⟩ := flows_burstChunk_self cfg e w rest c
      rw [hg, hself]
    · rw [flows_burstChunk_of_ne cfg e w rest c hg]
  resent e f e' h hres := bytesOk_resent h hres
  expired e rto h := h.of_perm (fun _ => List.Perm.refl _) (fun _ => rfl) rfl
  duplicate e f hdr h := by
    exact h.modFlow f rfl rfl
  sack e f hdr h := by
    exact h.modFlow f rfl rfl
  valid e f ackno now e' h hrun := bytesOk_rxValidAck h hrun
  completed e f csn chunk h hfind := bytesOk_ackRcChunk h hfind

theorem bytesOk_initial (h : Initial e) : BytesOk cfg e := by
  have hlens : ∀ f, chunkLens e f = [] := by
    intro f
    obtain ⟨fid, hf⟩ := h.flows f
    unfold chunkLens queuedLens trackedLens
    rw [h.wheel, h.readyQueue, hf]
    rfl
  have hzero : ∀ f, (e.flows f).unackedBytes = 0 := by
    intro f
    obtain ⟨fid, hf⟩ := h.flows f
    rw [hf]
  refine ⟨⟨fun f => ?_, ?_⟩, ?_⟩
  · rw [hzero f, hlens f]
    rfl
  · rw [h.bytes, Finset.sum_congr rfl fun f _ => hzero f, Finset.sum_const_zero]
  · rw [h.bytes]
    exact Nat.zero_le _

/-- A step that takes an ACK or a completion. -/
def IsAck : TxAction F → Prop
  | .ucAck _ _ => True
  | .rcAck _ => True
  | _ => False

omit [Fintype F] in
/-- An ACK only takes lengths out of the bags. -/
theorem sum_chunkLens_of_ack {a : TxAction F} (ha : IsAck a) (hrun : engStep cfg e a = .ok e')
    (f : F) : (chunkLens e' f).sum ≤ (chunkLens e f).sum := by
  cases a with
  | ucAck hdr now =>
    rcases ucRxAck_cases hrun with rfl | ⟨e1, rfl, -, -, hbranch⟩
    · exact le_rfl
    · unfold updateSackBitmap
      rw [chunkLens_modFlow _ _ rfl]
      rcases hbranch with ⟨-, hdup⟩ | ⟨-, hvalid⟩
      · rw [chunkLens_resent (resent_rxDuplicateAck hdup)]
        unfold noteDuplicateAck
        rw [chunkLens_modFlow _ _ rfl]
      · obtain ⟨e2, hack, rfl⟩ := rxValidAck_cases hvalid
        rw [chunkLens_resent (resent_resetTimer _ _ now)]
        unfold advanceUna
        rw [chunkLens_modFlow _ _ rfl]
        show (chunkLens e2 f).sum ≤ _
        -- the loop completes front chunks of one subflow
        refine ackTransmittedChunks_rule (f := e.senderFlowTbl hdr.fid)
          (I := fun e2 => (chunkLens e2 f).sum ≤ (chunkLens e f).sum)
          (fun e3 chunk rest hle hchunks => ?_) _ _ _ (le_rfl) hack
        refine Nat.le_trans ?_ hle
        by_cases hf : f = e.senderFlowTbl hdr.fid
        · subst hf
          rw [(chunkLens_ackFront hchunks).sum_eq]
          exact Nat.le_add_left _ _
        · rw [chunkLens_ackFront_of_ne e3 hf]
  | rcAck wrId =>
    cases hrun
    rcases rcRxAck_cases e wrId with heq | ⟨chunk, hfind, heq⟩
    · rw [heq]
    · rw [heq]
      by_cases hf : f = wrId.2
      · rw [hf, (chunkLens_ackRcChunk hfind).sum_eq]
        exact Nat.le_add_left _ _
      · rw [chunkLens_ackRcChunk_of_ne e hf]
  | tx id cs | burst due cs | rto now | retransmit f rto now => exact ha.elim

/-- **BYTE ACCOUNTING IS EXACT**: in every run over any number of subflows, with sends and one-sided operations, pacing
    on or off, UC and RC, each subflow's counter is the sum of the lengths of its queued and tracked chunks, the
    engine's is the sum over the subflows and within the High budget, an ACK never raises a counter, and between two
    chunks that a cumulative ACK completes the subflow's counter is exact as well. -/
theorem byte_accounting_exact {cfg : Config} {e₀ e : SenderCtx F} {as : List (TxAction F)}
    (h₀ : Initial e₀) (hrun : runFrom (engStep cfg) e₀ as = .ok e) :
    (∀ f, (e.flows f).unackedBytes = (queuedLens e f).sum + (trackedLens e f).sum) ∧
    e.engineUnackedBytes = ∑ f, (e.flows f).unackedBytes ∧
    e.engineUnackedBytes ≤ cfg.kMaxUnAckedBytesPerEngineHigh ∧
    (∀ a e', IsAck a → engStep cfg e a = .ok e' → e'.engineUnackedBytes ≤ e.engineUnackedBytes ∧
      ∀ f, (e'.flows f).unackedBytes ≤ (e.flows f).unackedBytes) ∧
    (∀ f n e', ackTransmittedChunks f n e = .ok e' →
      (e'.flows f).unackedBytes = (queuedLens e' f).sum + (trackedLens e' f).sum) := by
  have h := runFrom_invariant (stepwise_bytesOk cfg).step (bytesOk_initial h₀) hrun
  refine ⟨fun f => ?_, h.exact.all, h.high, fun a e' ha hstep => ?_, fun f n e' hack => ?_⟩
  · rw [h.exact.holder f]
    exact sum_append
  · have h' := (stepwise_bytesOk cfg).step e a e' h hstep
    have hle : ∀ f, (e'.flows f).unackedBytes ≤ (e.flows f).unackedBytes := by
      intro f
      rw [h.exact.holder f, h'.exact.holder f]
      exact sum_chunkLens_of_ack ha hstep f
    refine ⟨?_, hle⟩
    rw [h.exact.all, h'.exact.all]
    exact Finset.sum_le_sum fun f _ => hle f
  · rw [(completing_ackTransmittedChunks h.engine_lt (h.completing f) hack).exact.holder f]
    exact sum_append

end

/-- Two subflows; request 0 sends one byte on the first, all others two on the second. -/
def twoFlows : SenderCtx Bool :=
  freshEngine (fun _ => true) fun id =>
    if id = 0 then freshRequest .ReqTx false 1 else freshRequest .ReqTx true 2

/-- One chunk is burst from the wheel and one posted at once: three bytes in all. -/
theorem byte_accounting_exact_two_flows : ∃ e, runFrom (engStep { defaultConfig with bypassPacing := false }) twoFlows
        [.tx 0 fun _ => { queue := true }, .tx 1 fun _ => {}, .burst [false] fun _ => {}] = .ok e ∧
      e.engineUnackedBytes = 3 ∧ ∑ f, (e.flows f).unackedBytes = 3 := by
  have hinit : Initial twoFlows := by
    refine initial_freshEngine _ fun id => ?_
    split
    · exact ⟨rfl, rfl⟩
    · exact ⟨rfl, rfl⟩
  refine exists_run_of_eval (fun e => e.engineUnackedBytes = 3) ?_
    fun e hrun he => ⟨he, (byte_accounting_exact hinit hrun).2.1.symm.trans he⟩
  decide +kernel

end RdmaAccounting
