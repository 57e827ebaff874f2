import Uccl.RdmaEngineProofs
import Uccl.LedgerProofs

/-! # Admission, pacing overhead and failed posts

    Three properties of the transmit loops: the budgets of `SwiftRDMAContext::EventOnChunkSize` (transport.h), the
    header overhead that `senderCC_tx_message` adds to a chunk for pacing, and what a failed `ibv_post_send` leaves
    behind in `senderCC_tx_write` and `senderCC_tx_read` (transport.cc).

    * Swift subtracts the bytes in flight from each budget in `uint32_t`. A message of at most one chunk passes without a look at
      any budget, so a budget may be exceeded, has then wrapped and is no bound (`swift_overruns`, `swift_respects`).
    * The overhead computed in advance for a full chunk at MTU 4096 is the one of the other link type (`hdrOverhead_eq_iff`).
    * A failed post keeps the CSN and the buffer it took (`failedPost_restored_iff`). -/

namespace RdmaAdmission

open StepRun RdmaPcb RdmaState RdmaTransmit RdmaEngine Function Nat

-- ── Swift's budgets

/-- `SwiftRDMAContext::EventOnChunkSize`. -/
def swiftChunkSize (cfg : Config) (engineUnackedBytes unackedBytes wnd remainingBytes : ℕ) : ℕ :=
  if remainingBytes ≤ cfg.chunkSize then remainingBytes
  else
    let hardBudget := subU32 cfg.kMaxUnAckedBytesPerEngineHigh engineUnackedBytes
    let softBudget := subU32 cfg.kMaxUnAckedBytesPerEngineLow engineUnackedBytes
    let flowBudget := subU32 cfg.kMaxUnAckedBytesPerFlow unackedBytes
    let ccBudget := subU32 wnd unackedBytes
    let readyBytes := min (min remainingBytes ccBudget) cfg.chunkSize
    if readyBytes > hardBudget then 0
    else if readyBytes ≤ softBudget || readyBytes ≤ flowBudget then readyBytes
    else 0

/-- The counters that admission reads: bytes in flight of the engine and of each
    subflow, and each subflow's `swift_cwnd_`, initially `kDefaultWnd`. -/
structure Counters (F : Type) where
  engineUnackedBytes : ℕ := 0
  unackedBytes : F → ℕ := fun _ => 0
  wnd : F → ℕ := fun _ => 1024 * 1024

/-- One turn of a transmit loop with so many bytes left, or an ACK for bytes of a
    subflow, after which Swift has set its window. -/
inductive Transfer (F : Type) where
  | tx (f : F) (remainingBytes : ℕ)
  | ack (f : F) (bytes wnd : ℕ)

variable {F : Type} [DecidableEq F] {cfg : Config}

/-- The chunk admitted for a turn of the loop. -/
def Counters.chunk (cfg : Config) (s : Counters F) (f : F) (remainingBytes : ℕ) : ℕ :=
  swiftChunkSize cfg s.engineUnackedBytes (s.unackedBytes f) (s.wnd f) remainingBytes

def transfer (cfg : Config) (s : Counters F) : Transfer F → Except Fault (Counters F)
  | .tx f r =>
    .ok { s with
      engineUnackedBytes := addU32 s.engineUnackedBytes (s.chunk cfg f r)
      unackedBytes := Function.update s.unackedBytes f
        (addU32 (s.unackedBytes f) (s.chunk cfg f r)) }
  | .ack f n w =>
    .ok { engineUnackedBytes := subU32 s.engineUnackedBytes n
          unackedBytes := Function.update s.unackedBytes f (subU32 (s.unackedBytes f) n)
          wnd := Function.update s.wnd f w }

/-- The chunk admitted for a turn keeps the engine within its hard budget and, unless
    it is the whole of a small message, the subflow within its window. -/
def Respects (cfg : Config) (s : Counters F) : Transfer F → Prop
  | .tx f r =>
    (s.chunk cfg f r = 0 ∨
      s.engineUnackedBytes + s.chunk cfg f r ≤ cfg.kMaxUnAckedBytesPerEngineHigh) ∧
    (cfg.chunkSize < r → s.chunk cfg f r = 0 ∨ s.unackedBytes f + s.chunk cfg f r ≤ s.wnd f)
  | .ack _ _ _ => True

/-- A message of at most one chunk fits both budgets; an ACK is for bytes in flight,
    and the window it leads to covers the rest of them. -/
def Fits (cfg : Config) (s : Counters F) : Transfer F → Prop
  | .tx f r => r ≤ cfg.chunkSize →
      s.engineUnackedBytes + r ≤ cfg.kMaxUnAckedBytesPerEngineHigh ∧
      s.unackedBytes f + r ≤ s.wnd f
  | .ack f n w => n ≤ s.unackedBytes f ∧ s.unackedBytes f - n ≤ w ∧ w < 2 ^ 32

theorem high_lt (cfg : Config) : cfg.kMaxUnAckedBytesPerEngineHigh < 2 ^ 32 := by
  have h : 25 * cfg.budgetUnit < 2 ^ 32 := cfg.budgetFits
  unfold Config.kMaxUnAckedBytesPerEngineHigh
  split <;> omega

/-- Budgets that have not wrapped bound the chunk of a larger message. -/
theorem swiftChunkSize_le {engine flow wnd r : ℕ} (hr : cfg.chunkSize < r)
    (he : engine ≤ cfg.kMaxUnAckedBytesPerEngineHigh) (hf : flow ≤ wnd) (hw : wnd < 2 ^ 32) :
    engine + swiftChunkSize cfg engine flow wnd r ≤ cfg.kMaxUnAckedBytesPerEngineHigh ∧
      flow + swiftChunkSize cfg engine flow wnd r ≤ wnd := by
  unfold swiftChunkSize
  rw [if_neg (Nat.not_le.mpr hr), subU32_of_le he (high_lt cfg), subU32_of_le hf hw]
  dsimp only
  split
  · exact ⟨he, hf⟩
  · split
    · constructor
      · omega
      · omega
    · exact ⟨he, hf⟩

/-- What holds while every step fits. -/
structure WithinBudgets [Fintype F] (cfg : Config) (s : Counters F) : Prop where
  engine_eq : s.engineUnackedBytes = ∑ f, s.unackedBytes f
  engine_le : s.engineUnackedBytes ≤ cfg.kMaxUnAckedBytesPerEngineHigh
  flow_le : ∀ f, s.unackedBytes f ≤ s.wnd f
  wnd_lt : ∀ f, s.wnd f < 2 ^ 32

omit [DecidableEq F] in
/-- A chunk within the budgets leaves the counters within them. -/
theorem chunk_fits [Fintype F] {s : Counters F} (hs : WithinBudgets cfg s) {f : F} {r : ℕ} (h : Fits cfg s (.tx f r)) :
    s.engineUnackedBytes + s.chunk cfg f r ≤ cfg.kMaxUnAckedBytesPerEngineHigh ∧
      s.unackedBytes f + s.chunk cfg f r ≤ s.wnd f := by
  by_cases hr : r ≤ cfg.chunkSize
  · have hc : s.chunk cfg f r = r := if_pos hr
    rw [hc]
    exact h hr
  · exact swiftChunkSize_le (Nat.lt_of_not_le hr) hs.engine_le (hs.flow_le f) (hs.wnd_lt f)

theorem withinBudgets_step [Fintype F] {s s' : Counters F} {a : Transfer F}
    (hs : WithinBudgets cfg s) (ha : Fits cfg s a) (h : transfer cfg s a = .ok s') : WithinBudgets cfg s' := by
  have hhigh := high_lt cfg
  have heq := hs.engine_eq
  cases a with
  | tx f r =>
    obtain ⟨he, hf⟩ := chunk_fits hs ha
    have hw := hs.wnd_lt f
    rw [← Except.ok.inj h, addU32_of_lt (by omega), addU32_of_lt (by omega)]
    refine ⟨?_, he, ?_, hs.wnd_lt⟩
    · have hsum : ∑ g, update s.unackedBytes f (s.unackedBytes f + s.chunk cfg f r) g =
          ∑ g, s.unackedBytes g + s.chunk cfg f r :=
        Ledger.sum_add_of_update (f := f) (update_self _ _ _) (fun g hg => update_of_ne hg _ _)
      exact (congrArg (· + s.chunk cfg f r) heq).trans hsum.symm
    · exact (forall_update_iff s.unackedBytes fun g n => n ≤ s.wnd g).mpr ⟨hf, fun g _ => hs.flow_le g⟩
  | ack f n w =>
    obtain ⟨hn, hle, hw⟩ := ha
    have hlow := hs.engine_le
    have hflow := hs.flow_le f
    have hwf := hs.wnd_lt f
    have hsum : ∑ g, s.unackedBytes g = ∑ g, update s.unackedBytes f (s.unackedBytes f - n) g + n :=
      Ledger.sum_add_of_update (f := f) (by rw [update_self]; omega) (fun g hg => (update_of_ne hg _ _).symm)
    rw [← Except.ok.inj h, subU32_of_le (by omega) (by omega), subU32_of_le hn (by omega)]
    refine ⟨?_, (sub_le _ _).trans hlow, ?_, ?_⟩
    · dsimp only
      omega
    · intro g
      show update s.unackedBytes f _ g ≤ update s.wnd f w g
      by_cases hg : g = f
      · subst hg
        rw [update_self, update_self]
        exact hle
      · rw [update_of_ne hg, update_of_ne hg]
        exact hs.flow_le g
    · exact (forall_update_iff s.wnd fun _ n => n < 2 ^ 32).mpr ⟨hw, fun g _ => hs.wnd_lt g⟩

omit [DecidableEq F] in
theorem withinBudgets_init [Fintype F] (cfg : Config) : WithinBudgets cfg ({} : Counters F) where
  engine_eq := Finset.sum_const_zero.symm
  engine_le := Nat.zero_le _
  flow_le _ := Nat.zero_le _
  wnd_lt _ := show 1024 * 1024 < 2 ^ 32 by decide

/-- **SWIFT RESPECTS ITS BUDGETS** at every turn of a run whose small messages fit and
    whose windows never shrink below what is in flight. -/
theorem swift_respects [Fintype F] (cfg : Config) {as : List (Transfer F)}
    (h : Along (transfer cfg) (Fits cfg) {} as) : Along (transfer cfg) (Respects cfg) {} as := by
  refine Along.weaken (fun s a s' => withinBudgets_step) ?_ (withinBudgets_init cfg) h
  intro s a hs ha
  cases a with
  | tx f r =>
    obtain ⟨he, hf⟩ := chunk_fits hs ha
    exact ⟨.inr he, fun _ => .inr hf⟩
  | ack f n w => exact trivial

/-- Twelve messages of one chunk fill the hard budget of the engine. -/
theorem swift_respects_twelve : Along (transfer defaultConfig) (Respects defaultConfig) {}
      (List.replicate 12 (Transfer.tx () 65536)) := by
  refine swift_respects defaultConfig ?_
  repeat
    refine ⟨fun _ => by decide, fun s' hs' => ?_⟩
    obtain rfl := Except.ok.inj hs'
  exact trivial

/-- Seventeen messages of one chunk pass unchecked and leave more in flight than the hard budget and the window: a
    larger message is then admitted a full chunk, beyond both. -/
theorem swift_overruns : ∃ s : Counters Unit,
      runFrom (transfer defaultConfig) {} (List.replicate 17 (.tx () 65536)) = .ok s ∧
      s.chunk defaultConfig () 131072 = 65536 ∧
      defaultConfig.kMaxUnAckedBytesPerEngineHigh < s.engineUnackedBytes + 65536 ∧
      s.wnd () < s.unackedBytes () + 65536 := by
  refine exists_run_of_eval (fun s => s.chunk defaultConfig () 131072 = 65536 ∧ s.engineUnackedBytes = 17 * 65536 ∧
    s.unackedBytes () = 17 * 65536 ∧ s.wnd () = 1024 * 1024) ?_ fun s _ hs => ?_
  · decide
  · obtain ⟨hc, he, hu, hw⟩ := hs
    refine ⟨hc, ?_, ?_⟩
    · rw [he]
      decide
    · rw [hu, hw]
      decide

-- ── The header overhead

/-- Local and global routing headers and the base transport header. -/
def IB_HDR_OVERHEAD : ℕ := 8 + 40 + 12

/-- Ethernet, IPv4, UDP and the base transport header. -/
def ROCE_IPV4_HDR_OVERHEAD : ℕ := 14 + 20 + 8 + 12

/-- `MAX_CHUNK_*_4096_HDR_OVERHEAD`, for the overhead of a packet. -/
def maxChunk4096HdrOverhead (cfg : Config) (perPacket : ℕ) : ℕ :=
  (((cfg.chunkSizeKb <<< 10) + 4096) / 4096 * perPacket) % 2 ^ 32

/-- The overhead that `senderCC_tx_message` adds to a chunk it may queue. -/
def hdrOverhead (cfg : Config) (mtuBytes chunkSize : ℕ) : ℕ :=
  if chunkSize = cfg.chunkSize ∧ mtuBytes = 4096 then
    if cfg.isRoce then maxChunk4096HdrOverhead cfg IB_HDR_OVERHEAD
    else maxChunk4096HdrOverhead cfg ROCE_IPV4_HDR_OVERHEAD
  else
    let numMtu := addU32 chunkSize mtuBytes / mtuBytes
    (numMtu * if cfg.isRoce then ROCE_IPV4_HDR_OVERHEAD else IB_HDR_OVERHEAD) % 2 ^ 32

/-- The overhead of a packet on this type of link. -/
def perPacket (cfg : Config) : ℕ :=
  if cfg.isRoce then ROCE_IPV4_HDR_OVERHEAD else IB_HDR_OVERHEAD

theorem perPacket_pos (cfg : Config) : 0 < perPacket cfg := by
  unfold perPacket
  split <;> decide

/-- The constant taken for a full chunk at MTU 4096 belongs to the other type of link. -/
theorem hdrOverhead_full_ne (cfg : Config) :
    hdrOverhead cfg 4096 cfg.chunkSize ≠ (cfg.chunkSize + 4096) / 4096 * perPacket cfg := by
  have hfit : 25 * max (cfg.chunkSizeKb <<< 10) 32768 < 2 ^ 32 := cfg.budgetFits
  unfold hdrOverhead perPacket maxChunk4096HdrOverhead Config.chunkSize
  unfold IB_HDR_OVERHEAD ROCE_IPV4_HDR_OVERHEAD
  generalize cfg.chunkSizeKb <<< 10 = full at hfit ⊢
  rw [if_pos ⟨rfl, rfl⟩]
  have hsmall : (full + 4096) / 4096 < 2 ^ 20 := by omega
  have hpos : 0 < (full + 4096) / 4096 := by omega
  split
  · omega
  · omega

/-- A sum that wraps has fewer MTUs in it. -/
theorem div_addU32_lt {a m : ℕ} (ha : a < 2 ^ 32) (hm : m < 2 ^ 32) (hpos : 0 < m)
    (h : 2 ^ 32 ≤ a + m) : addU32 a m / m < (a + m) / m := by
  have hw : addU32 a m = a + m - 2 ^ 32 := by
    unfold addU32
    rw [mod_eq_sub_mod h, mod_eq_of_lt (by omega)]
  calc addU32 a m / m ≤ a / m := Nat.div_le_div_right (by omega)
    _ < a / m + 1 := lt_succ_self _
    _ = (a + m) / m := (add_div_right a hpos).symm

/-- **THE OVERHEAD AGREES WITH THE FORMULA** exactly away from the precomputed case, as long as nothing wraps. -/
theorem hdrOverhead_eq_iff (cfg : Config) {mtuBytes chunkSize : ℕ} (hpos : 0 < mtuBytes)
    (hmtu : mtuBytes < 2 ^ 32) (hchunk : chunkSize < 2 ^ 32) :
    hdrOverhead cfg mtuBytes chunkSize = (chunkSize + mtuBytes) / mtuBytes * perPacket cfg ↔
      ¬ (chunkSize = cfg.chunkSize ∧ mtuBytes = 4096) ∧ chunkSize + mtuBytes < 2 ^ 32 ∧
        (chunkSize + mtuBytes) / mtuBytes * perPacket cfg < 2 ^ 32 := by
  by_cases hfull : chunkSize = cfg.chunkSize ∧ mtuBytes = 4096
  · obtain ⟨rfl, rfl⟩ := hfull
    exact ⟨fun h => absurd h (hdrOverhead_full_ne cfg), fun h => absurd ⟨rfl, rfl⟩ h.1⟩
  · have hslow : hdrOverhead cfg mtuBytes chunkSize =
        (addU32 chunkSize mtuBytes / mtuBytes * perPacket cfg) % 2 ^ 32 := if_neg hfull
    rw [hslow]
    constructor
    · intro h
      have hlt : (chunkSize + mtuBytes) / mtuBytes * perPacket cfg < 2 ^ 32 := h ▸ mod_lt _ (by decide)
      refine ⟨hfull, Nat.lt_of_not_le fun hwrap => ?_, hlt⟩
      have hless : addU32 chunkSize mtuBytes / mtuBytes * perPacket cfg <
          (chunkSize + mtuBytes) / mtuBytes * perPacket cfg :=
        Nat.mul_lt_mul_of_pos_right (div_addU32_lt hchunk hmtu hpos hwrap) (perPacket_pos cfg)
      exact absurd h (Nat.ne_of_lt ((mod_le _ _).trans_lt hless))
    · rintro ⟨-, hsum, hlt⟩
      rw [addU32_of_lt hsum, mod_eq_of_lt hlt]

/-- The rest of a message, at MTU 4096. -/
theorem hdrOverhead_rest : hdrOverhead defaultConfig 4096 10000 = 3 * ROCE_IPV4_HDR_OVERHEAD :=
  (hdrOverhead_eq_iff defaultConfig (by decide) (by decide) (by decide)).mpr (by decide)

/-- A chunk of 64 KB on a RoCE link is charged for seventeen InfiniBand headers. -/
theorem hdrOverhead_full : hdrOverhead defaultConfig 4096 65536 = 17 * 60 ∧
      (65536 + 4096) / 4096 * perPacket defaultConfig = 17 * 54 := by
  decide

-- ── Failed posts

/-- `senderCC_tx_read` or `senderCC_tx_write`. -/
def txOneSided (read : Bool) (cfg : Config) (e : SenderCtx F) (id : ReqId)
    (cs : ℕ → TxChoice) : Except Fault (SenderCtx F × Bool) :=
  if read then senderCCTxRead cfg e id cs else senderCCTxWrite cfg e id cs

/-- The body of their loops. -/
def oneSidedChunk (read : Bool) (cfg : Config) :
    SenderCtx F → ReqId → TxChoice → Except Fault (SenderCtx F × Bool) :=
  if read then txOneSidedChunk .RDMA_READ .read cfg else txOneSidedChunk .RDMA_WRITE .write cfg

/-- The state before the chunk, and its choices, at which the loop body returned false. -/
def stoppedAt (body : SenderCtx F → ReqId → TxChoice → Except Fault (SenderCtx F × Bool))
    (id : ReqId) (cs : ℕ → TxChoice) : ℕ → ℕ → SenderCtx F → Option (SenderCtx F × TxChoice)
  | 0, _, _ => none
  | n + 1, k, e =>
    if (e.ureqs id).sentOffset < (e.ureqs id).dataLen ∨ (e.ureqs id).dataLen = 0 then
      match body e id (cs k) with
      | .error _ => none
      | .ok (_, false) => some (e, cs k)
      | .ok (e', true) =>
        if (e.ureqs id).dataLen = 0 then none else stoppedAt body id cs n (k + 1) e'
    else none

/-- What a retry of a request finds is as it was. -/
structure Restored (e e' : SenderCtx F) (id : ReqId) : Prop where
  sndNxt : (e'.flows (e.ureqs id).context).pcb.sndNxt = (e.flows (e.ureqs id).context).pcb.sndNxt
  pool : e'.wrExPool.length = e.wrExPool.length
  unacked : (e'.flows (e.ureqs id).context).unackedBytes =
    (e.flows (e.ureqs id).context).unackedBytes
  engine : e'.engineUnackedBytes = e.engineUnackedBytes
  sentOffset : (e'.ureqs id).sentOffset = (e.ureqs id).sentOffset

/-- Admission control lets no chunk of the request pass, so nothing is posted. -/
def Refused (cfg : Config) (e : SenderCtx F) (id : ReqId) : Prop :=
  admitted cfg e id = 0 ∧ (e.ureqs id).dataLen ≠ 0

section

variable {opcode : Opcode} {user : TxUser} {cfg : Config} {e e' : SenderCtx F} {id : ReqId} {c : TxChoice}

section

variable (h : txOneSidedChunk opcode user cfg e id c = .ok (e', false))
include h

/-- A chunk that stops the call was refused, or its post failed and took the CSN and the buffer with it. -/
theorem txOneSidedChunk_false :
    (Refused cfg e id ∧ e' = e) ∨
    (¬ Refused cfg e id ∧ c.postOk = false ∧ ∃ w pool, e.wrExPool = w :: pool ∧ e' = takeOneSided e id pool) := by
  simp only [txOneSidedChunk] at h
  split at h
  · next hsize => exact .inl ⟨hsize, (congrArg Prod.fst (Except.ok.inj h)).symm⟩
  · next hsize =>
    refine .inr ⟨hsize, ?_⟩
    split at h
    · cases h
    · next w pool hpool =>
      split at h
      · next hpost =>
        exact ⟨by simpa using hpost, w, pool, hpool, (congrArg Prod.fst (Except.ok.inj h)).symm⟩
      · cases congrArg Prod.snd (Except.ok.inj h)

/-- The chunk leaves what a retry finds as it was exactly if it was refused. -/
theorem restored_iff_refused :
    Restored e e' id ↔ Refused cfg e id := by
  rcases txOneSidedChunk_false h with ⟨href, rfl⟩ | ⟨href, -, w, pool, hpool, rfl⟩
  · exact ⟨fun _ => href, fun _ => ⟨rfl, rfl, rfl, rfl, rfl⟩⟩
  · refine ⟨fun hr => ?_, fun hc => absurd hc href⟩
    have hlen : pool.length = (w :: pool).length := hpool ▸ hr.pool
    exact absurd hlen (Nat.ne_of_lt (lt_succ_self _))

end

end

omit [DecidableEq F] in
/-- A loop that returns false does so at a chunk. -/
theorem txLoop_false {body : SenderCtx F → ReqId → TxChoice → Except Fault (SenderCtx F × Bool)} {id : ReqId}
    {cs : ℕ → TxChoice} {e' : SenderCtx F} : ∀ (n k : ℕ) (e : SenderCtx F), txLoop body id cs n k e = .ok (e', false) →
      ∃ e1 c, stoppedAt body id cs n k e = some (e1, c) ∧ body e1 id c = .ok (e', false) := by
  intro n
  induction n with
  | zero => intro k e h; cases h
  | succ n ih =>
    intro k e h
    simp only [txLoop] at h
    simp only [stoppedAt]
    split at h
    · next hguard =>
      rw [if_pos hguard]
      cases hb : body e id (cs k) with
      | error x => rw [hb] at h; cases h
      | ok p =>
        obtain ⟨e2, b⟩ := p
        rw [hb] at h
        cases b with
        | false =>
          obtain rfl : e2 = e' := congrArg Prod.fst (Except.ok.inj h)
          exact ⟨e, cs k, rfl, hb⟩
        | true =>
          dsimp only at h ⊢
          split at h
          · cases h
          · next hlen =>
            rw [if_neg hlen]
            exact ih (k + 1) e2 h
    · cases h

/-- **A FAILED POST IS NOT RETRYABLE**: a write or read that returns false leaves what a retry finds as it was before
    its last chunk exactly if admission control refused that chunk, so that no post was tried. -/
theorem failedPost_restored_iff (read : Bool) (cfg : Config) {e e' : SenderCtx F} {id : ReqId}
    {cs : ℕ → TxChoice} (h : txOneSided read cfg e id cs = .ok (e', false)) :
    ∃ e₁ c, stoppedAt (oneSidedChunk read cfg) id cs (txTurns (e.ureqs id)) 0 e = some (e₁, c) ∧
      (Restored e₁ e' id ↔ Refused cfg e₁ id) := by
  cases read with
  | true =>
    change senderCCTxRead cfg e id cs = _ at h
    unfold senderCCTxRead at h
    split at h
    · cases h
    · obtain ⟨e₁, c, hat, hbody⟩ := txLoop_false _ _ _ h
      exact ⟨e₁, c, hat, restored_iff_refused hbody⟩
  | false =>
    change senderCCTxWrite cfg e id cs = _ at h
    unfold senderCCTxWrite at h
    split at h
    · cases h
    · obtain ⟨e₁, c, hat, hbody⟩ := txLoop_false _ _ _ h
      exact ⟨e₁, c, hat, restored_iff_refused hbody⟩

/-- An engine with one-byte writes to do and two free buffers. -/
def twoBuffers : SenderCtx Unit :=
  { byteRequests .ReqWrite with wrExPool := [{ buff := 0 }, { buff := 1 }] }

/-- The NIC takes no work request. -/
def postFails : ℕ → TxChoice := fun _ => { postOk := false }

/-- A write whose post fails loses a CSN and a buffer. -/
theorem txWrite_postFails : txOneSided false defaultConfig twoBuffers 0 postFails =
      .ok (takeOneSided twoBuffers 0 [{ buff := 1 }], false) := rfl

theorem failedPost_restored_iff_twoBuffers : ∃ e₁ c, stoppedAt (oneSidedChunk false defaultConfig) 0 postFails
        (txTurns (twoBuffers.ureqs 0)) 0 twoBuffers = some (e₁, c) ∧
      (Restored e₁ (takeOneSided twoBuffers 0 [{ buff := 1 }]) 0 ↔ Refused defaultConfig e₁ 0) :=
  failedPost_restored_iff false defaultConfig txWrite_postFails

/-- After one failed post the write goes out under another CSN than without it; after two
    the process stops for want of a buffer. -/
theorem failedPost_changes_retry : ∃ e₁ e₂, txOneSided false defaultConfig twoBuffers 0 postFails = .ok (e₁, false) ∧
      txOneSided false defaultConfig e₁ 0 postFails = .ok (e₂, false) ∧
      ¬ Restored twoBuffers e₁ 0 ∧
      observe (fun r => r.1.sq.map (·.wrId)) (txOneSided false defaultConfig twoBuffers 0 fun _ => {}) =
        some [some (0, ())] ∧
      observe (fun r => r.1.sq.map (·.wrId)) (txOneSided false defaultConfig e₁ 0 fun _ => {}) = some [some (1, ())] ∧
      txOneSided false defaultConfig e₂ 0 (fun _ => {}) = .error .wrExPoolEmpty := by
  refine ⟨_, _, txWrite_postFails, rfl, fun h => ?_, by decide, by decide, rfl⟩
  exact absurd h.pool (by decide)

end RdmaAdmission
