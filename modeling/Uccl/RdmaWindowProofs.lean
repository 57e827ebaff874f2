import Uccl.RdmaAccountingProofs

/-! # The window of chunk sequence numbers

    Eight-bit CSNs can be compared, and the receiver can reassemble, as long as at most `kSackBitmapSize` chunks of
    a subflow have a CSN and are not acknowledged. The only admission control, `EventOnChunkSize`, counts BYTES.

    What it does guarantee is a bound on the bytes of one subflow: never more than the Low budget of the engine. So
    the window is bounded exactly through the lengths of the chunks: if 129 of the shortest ones do not fit into
    that budget, no 129 chunks are ever outstanding; if they do fit, an engine that hears no ACKs sends them. -/

namespace RdmaWindow

open RdmaPcb RdmaImm RdmaTimer RdmaState RdmaTransmit RdmaAck RdmaEngine RdmaAccounting Ledger List
  StepRun

variable {F : Type} [DecidableEq F]
variable {cfg : Config} {u₀ : ReqId → UcclRequest F} {e : SenderCtx F}

/-- More chunks of this length than CSNs may be outstanding do not fit into the budget. -/
def LongChunk (cfg : Config) (len : ℕ) : Prop :=
  cfg.kMaxUnAckedBytesPerEngineLow < (kSackBitmapSize + 1) * len

/-- A send that is cut into long chunks only: it is not empty, and what is left after
    its full chunks is nothing or long. -/
structure LongMessage (cfg : Config) (u : UcclRequest F) : Prop where
  send : u.type = .ReqTx
  nonempty : u.dataLen ≠ 0
  tail : u.dataLen % cfg.chunkSize = 0 ∨ LongChunk cfg (u.dataLen % cfg.chunkSize)

/-- Chunks of the subflow that were given a CSN and are not acknowledged. -/
def outstanding (sf : SubUcclFlow F) : ℕ := sf.sentChunks - sf.ackedChunks

-- ── Requests

/-- A request is as it was submitted, and its offset is at the end of a full chunk or of the message. -/
structure Cut (cfg : Config) (u₀ u : UcclRequest F) : Prop where
  type_eq : u.type = u₀.type
  len_eq : u.dataLen = u₀.dataLen
  offset_le : u.sentOffset ≤ u.dataLen
  aligned : cfg.chunkSize ∣ u.sentOffset ∨ u.sentOffset = u.dataLen

omit [DecidableEq F] in
/-- The next chunk is a full one or the tail. -/
theorem Cut.next {u₀ u : UcclRequest F} (h : Cut cfg u₀ u) {n : ℕ} (hn : n ≠ 0)
    (hmin : n = min (u.dataLen - u.sentOffset) cfg.chunkSize) : (n = cfg.chunkSize ∨ n = u.dataLen % cfg.chunkSize) ∧
    Cut cfg u₀ { u with sentOffset := addU32 u.sentOffset n } := by
  have hle : u.sentOffset + n ≤ u.dataLen := by
    omega
  have hadd : addU32 u.sentOffset n = u.sentOffset + n := by
    have := u.dataLen_lt
    exact addU32_of_lt (by omega)
  have hdvd : cfg.chunkSize ∣ u.sentOffset := by
    rcases h.aligned with hdvd | heq
    · exact hdvd
    · omega
  by_cases hfull : cfg.chunkSize ≤ u.dataLen - u.sentOffset
  · have hn' : n = cfg.chunkSize := hmin.trans (Nat.min_eq_right hfull)
    refine ⟨.inl hn', h.type_eq, h.len_eq, ?_, .inl ?_⟩
    · rw [hadd]; exact hle
    · rw [hadd, hn']; exact Nat.dvd_add hdvd (Nat.dvd_refl _)
  · refine ⟨.inr ?_, h.type_eq, h.len_eq, ?_, .inr ?_⟩
    · obtain ⟨q, hq⟩ := hdvd
      have hsplit : u.dataLen = n + cfg.chunkSize * q := by omega
      rw [hsplit, Nat.add_mul_mod_self_left, Nat.mod_eq_of_lt (by omega)]
    · rw [hadd]; exact hle
    · show addU32 u.sentOffset n = u.dataLen
      rw [hadd]; omega

/-- An admitted chunk is as much as is left, up to a full chunk. -/
theorem eventOnChunkSize_eq {engine flow remaining : ℕ} (h : eventOnChunkSize cfg engine flow remaining ≠ 0) :
    eventOnChunkSize cfg engine flow remaining = min remaining cfg.chunkSize := by
  unfold eventOnChunkSize at h ⊢
  dsimp only at h ⊢
  split
  · next hhigh =>
    rw [if_pos hhigh] at h
    exact absurd rfl h
  · next hhigh =>
    rw [if_neg hhigh] at h
    split
    · rfl
    · next hlow =>
      rw [if_neg hlow] at h
      exact absurd rfl h

-- ── The invariant

section

variable [Fintype F] {e' : SenderCtx F} {f : F} {chunk : ChunkTrack F}

/-- The byte counters are exact, no subflow holds more than the Low budget, every
    outstanding chunk is queued or tracked, and every one of them is long. -/
structure WindowOk (cfg : Config) (u₀ : ReqId → UcclRequest F) (e : SenderCtx F) : Prop where
  bytes : BytesOk cfg e
  low : ∀ f, (e.flows f).unackedBytes ≤ cfg.kMaxUnAckedBytesPerEngineLow
  counted : ∀ f, (e.flows f).sentChunks = (e.flows f).ackedChunks + (chunkLens e f).length
  long : ∀ f, ∀ n ∈ chunkLens e f, LongChunk cfg n
  cut : ∀ id, Cut cfg (u₀ id) (e.ureqs id)

/-- A step that moves chunks at most. -/
theorem WindowOk.of_perm (h : WindowOk cfg u₀ e) (hbytes : BytesOk cfg e')
    (hlens : ∀ f, (chunkLens e' f).Perm (chunkLens e f))
    (hflow : ∀ f, (e'.flows f).unackedBytes = (e.flows f).unackedBytes ∧
      (e'.flows f).sentChunks = (e.flows f).sentChunks ∧
      (e'.flows f).ackedChunks = (e.flows f).ackedChunks) (hreqs : e'.ureqs = e.ureqs) : WindowOk cfg u₀ e' := by
  refine ⟨hbytes, fun f => ?_, fun f => ?_, fun f n hn => ?_, fun id => ?_⟩
  · rw [(hflow f).1]
    exact h.low f
  · rw [(hflow f).2.1, (hflow f).2.2, (hlens f).length_eq]
    exact h.counted f
  · exact h.long f n ((hlens f).mem_iff.mp hn)
  · rw [hreqs]
    exact h.cut id

/-- A change of one subflow outside tracking and counting. -/
theorem WindowOk.modFlow (h : WindowOk cfg u₀ e) (f : F) {k : SubUcclFlow F → SubUcclFlow F}
    (hchunks : (k (e.flows f)).unackedChunks = (e.flows f).unackedChunks)
    (hbytes : (k (e.flows f)).unackedBytes = (e.flows f).unackedBytes)
    (hsent : (k (e.flows f)).sentChunks = (e.flows f).sentChunks)
    (hacked : (k (e.flows f)).ackedChunks = (e.flows f).ackedChunks) : WindowOk cfg u₀ (e.modFlow f k) := by
  refine h.of_perm (h.bytes.modFlow f hchunks hbytes) (fun g => ?_) (fun g => ?_) rfl
  · rw [chunkLens_modFlow e f hchunks]
  · exact ⟨update_congr _ hbytes g, update_congr _ hsent g, update_congr _ hacked g⟩

theorem windowOk_resent (h : WindowOk cfg u₀ e) (hres : Resent e f e') : WindowOk cfg u₀ e' := by
  refine h.of_perm (bytesOk_resent h.bytes hres) (fun g => ?_) (fun g => ?_) ?_
  · rw [chunkLens_resent hres]
  · obtain ⟨_, _, _, _, hflow⟩ := hres.flow g
    rw [hflow]
    exact ⟨rfl, rfl, rfl⟩
  · rw [hres.frame]

/-- **THE LOW BUDGET BOUNDS A SUBFLOW**: the branch of the admission test that looks at
    the subflow alone lets it grow to a quarter of that. -/
theorem unackedBytes_add_admitted_le (h : BytesOk cfg e) {id : ReqId} (hn : admitted cfg e id ≠ 0) :
    (e.flows (e.ureqs id).context).unackedBytes + admitted cfg e id ≤ cfg.kMaxUnAckedBytesPerEngineLow := by
  have hflow := h.flow_le (e.ureqs id).context
  have hperFlow : cfg.kMaxUnAckedBytesPerFlow ≤ cfg.kMaxUnAckedBytesPerEngineLow := by
    unfold Config.kMaxUnAckedBytesPerFlow Config.kMaxUnAckedBytesPerEngineLow
    split <;> omega
  have hfits : admitted cfg e id = 0 ∨ e.engineUnackedBytes + admitted cfg e id ≤ cfg.kMaxUnAckedBytesPerEngineLow ∨
      (e.flows (e.ureqs id).context).unackedBytes + admitted cfg e id
        ≤ cfg.kMaxUnAckedBytesPerFlow := (eventOnChunkSize_fits h.high hflow).2
  rcases hfits with hzero | hlow | hown
  · exact absurd hzero hn
  · omega
  · omega

/-- Placing a chunk of a long message. -/
theorem windowOk_message (hchunk : LongChunk cfg cfg.chunkSize)
    (hreq : ∀ id, LongMessage cfg (u₀ id)) {id : ReqId} {c : TxChoice} {w : WrEx F}
    {pool : List (WrEx F)} (h : WindowOk cfg u₀ e) (hty : (e.ureqs id).type = .ReqTx)
    (hpool : e.wrExPool = w :: pool) (hadm : admitted cfg e id ≠ 0 ∨ (e.ureqs id).dataLen = 0) :
    WindowOk cfg u₀ (accountChunk (placeChunk cfg e id c w pool) (e.ureqs id).context id (admitted cfg e id)) := by
  have hcut := h.cut id
  have hn : admitted cfg e id ≠ 0 := by
    rcases hadm with hn | hzero
    · exact hn
    · exact absurd (hcut.len_eq.symm.trans hzero) (hreq id).nonempty
  obtain ⟨hlen, hcut'⟩ := hcut.next hn (eventOnChunkSize_eq hn)
  have hlong : LongChunk cfg (admitted cfg e id) := by
    rcases hlen with hfull | htail
    · rw [hfull]; exact hchunk
    · rcases (hreq id).tail with hzero | hlong
      · rw [← hcut.len_eq, ← htail] at hzero
        exact absurd hzero hn
      · rw [htail, hcut.len_eq]; exact hlong
  obtain ⟨hself, hother⟩ := chunkLens_placeChunk cfg e id c w pool
  obtain ⟨chunks, armed, cnt, hflow⟩ := flows_placeChunk_self cfg e id c w pool
  have hfits := unackedBytes_add_admitted_le h.bytes hn
  refine ⟨(stepwise_bytesOk cfg).message e id c w pool h.bytes hty hpool hadm, fun g => ?_,
    fun g => ?_, fun g n hmem => ?_, fun k => ?_⟩
  · by_cases hg : g = (e.ureqs id).context
    · rw [hg, flows_accountChunk_self, hflow]
      exact (Nat.mod_le _ _).trans hfits
    · rw [flows_accountChunk_of_ne _ hg, flows_placeChunk_of_ne cfg e id c w pool hg]
      exact h.low g
  · rw [chunkLens_accountChunk]
    by_cases hg : g = (e.ureqs id).context
    · rw [hg, flows_accountChunk_self, hflow, hself.length_eq, length_cons]
      have := h.counted (e.ureqs id).context
      show (e.flows (e.ureqs id).context).sentChunks + 1 = (e.flows (e.ureqs id).context).ackedChunks + _
      omega
    · rw [flows_accountChunk_of_ne _ hg, flows_placeChunk_of_ne cfg e id c w pool hg, hother g hg]
      exact h.counted g
  · rw [chunkLens_accountChunk] at hmem
    by_cases hg : g = (e.ureqs id).context
    · rw [hg] at hmem
      rcases mem_cons.mp (hself.mem_iff.mp hmem) with rfl | hmem
      · exact hlong
      · exact h.long _ n hmem
    · rw [hother g hg] at hmem
      exact h.long g n hmem
  · rw [ureqs_accountChunk, ureqs_placeChunk]
    exact (Function.forall_update_iff _ fun k => Cut cfg (u₀ k)).mpr ⟨hcut', fun k _ => h.cut k⟩ k

/-- What the completion loop keeps besides the counters: every outstanding chunk is
    still queued or tracked, and long. -/
structure Draining (cfg : Config) (f : F) (e e₁ : SenderCtx F) : Prop where
  completing : Completing f e.engineUnackedBytes (e.flows f).unackedBytes e₁
  other : ∀ g, g ≠ f → (e₁.flows g).unackedBytes = (e.flows g).unackedBytes
  counted : ∀ g, (e₁.flows g).sentChunks = (e₁.flows g).ackedChunks + (chunkLens e₁ g).length
  long : ∀ g, ∀ n ∈ chunkLens e₁ g, LongChunk cfg n
  ureqs_eq : e₁.ureqs = e.ureqs

theorem draining_ackFront {e₁ : SenderCtx F}
    {rest : List (ChunkTrack F)} (hlt : e.engineUnackedBytes < 2 ^ 32) (h : Draining cfg f e e₁)
    (hchunks : (e₁.flows f).unackedChunks = chunk :: rest) : Draining cfg f e (ackFront e₁ f chunk rest) := by
  have hperm := chunkLens_ackFront hchunks
  refine ⟨completing_ackFront hlt h.completing hchunks, fun g hg => ?_, fun g => ?_, fun g n hn => ?_, h.ureqs_eq⟩
  · rw [flows_ackFront_of_ne e₁ hg]
    exact h.other g hg
  · by_cases hg : g = f
    · have hcount := h.counted f
      rw [hperm.length_eq, length_cons] at hcount
      rw [hg, flows_ackFront_self]
      show (e₁.flows f).sentChunks = (e₁.flows f).ackedChunks + 1 + _
      omega
    · rw [flows_ackFront_of_ne e₁ hg, chunkLens_ackFront_of_ne e₁ hg]
      exact h.counted g
  · by_cases hg : g = f
    · rw [hg] at hn
      exact h.long f n (hperm.mem_iff.mpr (mem_cons_of_mem _ hn))
    · rw [chunkLens_ackFront_of_ne e₁ hg] at hn
      exact h.long g n hn

theorem windowOk_rxValidAck {ackno : UintCsn} {now : ℕ}
    (h : WindowOk cfg u₀ e) (hrun : rxValidAck e f ackno now = .ok e') : WindowOk cfg u₀ e' := by
  have hbytes' := bytesOk_rxValidAck h.bytes hrun
  obtain ⟨e₁, hack, rfl⟩ := rxValidAck_cases hrun
  have hstart : Draining cfg f e e := ⟨h.bytes.completing f, fun _ _ => rfl, h.counted, h.long, rfl⟩
  have hdone : Draining cfg f e e₁ := ackTransmittedChunks_rule (I := Draining cfg f e)
      (fun _ _ _ h' hchunks => draining_ackFront h.bytes.engine_lt h' hchunks) _ _ _ hstart hack
  -- after the loop only the PCB and the timer change
  have hres := resent_resetTimer (advanceUna (reduceEngineBytes e₁ f (e.flows f).unackedBytes) f ackno) f now
  have hlens : ∀ g, chunkLens (resetTimer
      (advanceUna (reduceEngineBytes e₁ f (e.flows f).unackedBytes) f ackno) f now) g
      = chunkLens e₁ g := by
    intro g
    rw [chunkLens_resent hres]
    unfold advanceUna
    rw [chunkLens_modFlow _ f rfl]
    rfl
  have hflow : ∀ g, ∃ pcb armed, (resetTimer
      (advanceUna (reduceEngineBytes e₁ f (e.flows f).unackedBytes) f ackno) f now).flows g
      = { e₁.flows g with pcb := pcb, rtoArmed := armed } := by
    intro g
    obtain ⟨_, _, _, _, hg⟩ := hres.flow g
    rw [hg]
    unfold advanceUna
    by_cases hgf : g = f
    · rw [hgf, SenderCtx.modFlow_flows_self]
      exact ⟨_, _, rfl⟩
    · rw [SenderCtx.modFlow_flows_of_ne _ hgf]
      exact ⟨_, _, rfl⟩
  refine ⟨hbytes', fun g => ?_, fun g => ?_, fun g n hn => ?_, fun id => ?_⟩
  · obtain ⟨_, _, hg⟩ := hflow g
    rw [hg]
    by_cases hgf : g = f
    · rw [hgf]
      exact hdone.completing.le_before.trans (h.low f)
    · exact (hdone.other g hgf).le.trans (h.low g)
  · obtain ⟨_, _, hg⟩ := hflow g
    rw [hg, hlens g]
    exact hdone.counted g
  · rw [hlens g] at hn
    exact hdone.long g n hn
  · have hreqs := congrArg SenderCtx.ureqs hres.frame
    rw [hreqs]
    show Cut cfg (u₀ id) (e₁.ureqs id)
    rw [hdone.ureqs_eq]
    exact h.cut id

theorem windowOk_ackRcChunk {csn : UintCsn} (h : WindowOk cfg u₀ e)
    (hfind : (e.flows f).unackedChunks.find? (fun chunk => decide (chunk.csn = csn))
      = some chunk) : WindowOk cfg u₀ (ackRcChunk e f csn chunk) := by
  have hperm := chunkLens_ackRcChunk hfind
  have hlen : chunk.wrEx.sge.length ≤ (e.flows f).unackedBytes :=
    h.bytes.exact.le_total (hperm.mem_iff.mpr (mem_cons_self))
  have hlt : (e.flows f).unackedBytes < 2 ^ 32 := (h.bytes.flow_le f).trans_lt h.bytes.engine_lt
  refine ⟨bytesOk_ackRcChunk h.bytes hfind, fun g => ?_, fun g => ?_, fun g n hn => ?_, fun id => ?_⟩
  · by_cases hg : g = f
    · rw [hg, flows_ackRcChunk_self]
      rw [subU32_of_le hlen hlt]
      exact (Nat.sub_le _ _).trans (h.low f)
    · rw [flows_ackRcChunk_of_ne e hg]
      exact h.low g
  · by_cases hg : g = f
    · have hcount := h.counted f
      rw [hperm.length_eq, length_cons] at hcount
      rw [hg, flows_ackRcChunk_self]
      show (e.flows f).sentChunks = (e.flows f).ackedChunks + 1 + _
      omega
    · rw [flows_ackRcChunk_of_ne e hg, chunkLens_ackRcChunk_of_ne e hg]
      exact h.counted g
  · by_cases hg : g = f
    · rw [hg] at hn
      exact h.long f n (hperm.mem_iff.mpr (mem_cons_of_mem _ hn))
    · rw [chunkLens_ackRcChunk_of_ne e hg] at hn
      exact h.long g n hn
  · rw [ureqs_ackRcChunk]
    by_cases hk : id = chunk.ureq
    · rw [hk, Function.update_self]
      have hcut := h.cut chunk.ureq
      exact { hcut with }
    · rw [Function.update_of_ne hk]
      exact h.cut id

theorem stepwise_windowOk (hchunk : LongChunk cfg cfg.chunkSize) (hreq : ∀ id, LongMessage cfg (u₀ id)) :
    Stepwise cfg (WindowOk (F := F) cfg u₀) where
  message e id c w pool h hty hpool hadm := windowOk_message hchunk hreq h hty hpool hadm
  oneSided _ _ _ e id _ _ _ h hne _ _ :=
    absurd ((h.cut id).type_eq.trans (hreq id).send) hne
  failedPost e id _ _ h hne _ := absurd ((h.cut id).type_eq.trans (hreq id).send) hne
  reaped e f w h hfind :=
    h.of_perm ((stepwise_bytesOk cfg).reaped e f w h.bytes hfind) (chunkLens_reaped hfind)
      (fun _ => ⟨rfl, rfl, rfl⟩) rfl
  burst e w rest c h hready := by
    refine h.of_perm ((stepwise_bytesOk cfg).burst e w rest c h.bytes hready)
      (chunkLens_burstChunk cfg hready c) (fun g => ?_) ?_
    · by_cases hg : g = wheelFlow e w
      · obtain ⟨_, hself⟩ := flows_burstChunk_self cfg e w rest c
        rw [hg, hself]
        exact ⟨rfl, rfl, rfl⟩
      · rw [flows_burstChunk_of_ne cfg e w rest c hg]
        exact ⟨rfl, rfl, rfl⟩
    · exact ureqs_burstChunk cfg e w rest c
  resent e f e' h hres := windowOk_resent h hres
  expired e rto h :=
    h.of_perm ((stepwise_bytesOk cfg).expired e rto h.bytes) (fun _ => List.Perm.refl _) (fun _ => ⟨rfl, rfl, rfl⟩) rfl
  duplicate e f hdr h := by
    exact h.modFlow f rfl rfl rfl rfl
  sack e f hdr h := by
    exact h.modFlow f rfl rfl rfl rfl
  valid e f ackno now e' h hrun := windowOk_rxValidAck h hrun
  completed e f csn chunk h hfind := windowOk_ackRcChunk h hfind

theorem windowOk_initial (h : Initial e) : WindowOk cfg e.ureqs e := by
  have hlens : ∀ f, chunkLens e f = [] := by
    intro f
    obtain ⟨fid, hf⟩ := h.flows f
    unfold chunkLens queuedLens trackedLens
    rw [h.wheel, h.readyQueue, hf]
    rfl
  refine ⟨bytesOk_initial h, fun f => ?_, fun f => ?_, fun f n hn => ?_, fun id => ?_⟩
  · obtain ⟨fid, hf⟩ := h.flows f
    rw [hf]
    exact Nat.zero_le _
  · obtain ⟨fid, hf⟩ := h.flows f
    rw [hlens f, hf]
    rfl
  · rw [hlens f] at hn
    cases hn
  · refine ⟨rfl, rfl, ?_, .inl ?_⟩
    · rw [(h.requests id).1]
      exact Nat.zero_le _
    · rw [(h.requests id).1]
      exact Nat.dvd_zero _

end

-- ── The bound

/-- Long chunks within the budget are few. -/
theorem length_le_of_long {lens : List ℕ} (hlong : ∀ n ∈ lens, LongChunk cfg n)
    (hsum : lens.sum ≤ cfg.kMaxUnAckedBytesPerEngineLow) : lens.length ≤ kSackBitmapSize := by
  have hweight : lens.length * (cfg.kMaxUnAckedBytesPerEngineLow + 1) ≤ (kSackBitmapSize + 1) * lens.sum := by
    clear hsum
    induction lens with
    | nil => rw [length_nil, Nat.zero_mul]; exact Nat.zero_le _
    | cons n lens ih =>
      have hn := hlong n (mem_cons_self)
      have hrest := ih fun m hm => hlong m (mem_cons_of_mem n hm)
      rw [length_cons, sum_cons, Nat.add_one_mul, Nat.mul_add (kSackBitmapSize + 1), Nat.add_comm]
      exact Nat.add_le_add hn hrest
  by_contra hmany
  have hfit : (kSackBitmapSize + 1) * (cfg.kMaxUnAckedBytesPerEngineLow + 1)
      ≤ (kSackBitmapSize + 1) * cfg.kMaxUnAckedBytesPerEngineLow :=
    calc (kSackBitmapSize + 1) * (cfg.kMaxUnAckedBytesPerEngineLow + 1)
        ≤ lens.length * (cfg.kMaxUnAckedBytesPerEngineLow + 1) :=
          Nat.mul_le_mul_right _ (Nat.not_le.mp hmany)
      _ ≤ (kSackBitmapSize + 1) * lens.sum := hweight
      _ ≤ (kSackBitmapSize + 1) * cfg.kMaxUnAckedBytesPerEngineLow :=
          Nat.mul_le_mul_left _ hsum
  exact absurd (Nat.le_of_mul_le_mul_left hfit (Nat.succ_pos _)) (Nat.not_succ_le_self _)

/-- **THE WINDOW OF LONG CHUNKS**: if more than `kSackBitmapSize` full chunks do not fit into the Low budget, and every
    request is a send whose chunks are as long, then whatever ACKs arrive at most `kSackBitmapSize` chunks of a subflow
    have a CSN and are not acknowledged. -/
theorem outstanding_le_of_long [Fintype F] {cfg : Config} {e₀ e : SenderCtx F}
    {as : List (TxAction F)} (h₀ : Initial e₀) (hchunk : LongChunk cfg cfg.chunkSize)
    (hreq : ∀ id, LongMessage cfg (e₀.ureqs id)) (hrun : runFrom (engStep cfg) e₀ as = .ok e) (f : F) :
    outstanding (e.flows f) ≤ kSackBitmapSize := by
  have h := runFrom_invariant (stepwise_windowOk hchunk hreq).step (windowOk_initial h₀) hrun
  have hfew : (chunkLens e f).length ≤ kSackBitmapSize := by
    refine length_le_of_long (h.long f) ?_
    rw [← h.bytes.exact.holder f]
    exact h.low f
  have hcount := h.counted f
  unfold outstanding
  omega

/-- Messages of two full chunks, 64 KB by default, and a shorter one. -/
def longRequests : SenderCtx Unit := freshEngine (fun _ => ()) fun _ => freshRequest .ReqTx () 139264

/-- Two messages are sent; an ACK completes the first of them and the first chunk of the second. -/
theorem outstanding_le_of_long_default : ∃ e, runFrom (engStep defaultConfig) longRequests
      [.tx 0 fun _ => {}, .tx 1 fun _ => {},
        .ucAck { fid := 0, path := 0, ackno := 4, sackBitmapCount := 0, sackBitmap := WordBitmap.empty, seq := 2 } 1] = .ok e ∧
      ((e.flows ()).sentChunks, (e.flows ()).ackedChunks) = (6, 4) ∧ outstanding (e.flows ()) ≤ kSackBitmapSize := by
  have hchunk : LongChunk defaultConfig defaultConfig.chunkSize := by
    unfold LongChunk
    decide
  refine exists_run_of_eval (fun e => ((e.flows ()).sentChunks, (e.flows ()).ackedChunks) = (6, 4)) ?_
    fun e hrun he => ⟨he, outstanding_le_of_long (initial_freshEngine _ fun _ => ⟨rfl, rfl⟩) hchunk
      (fun _ => ⟨rfl, ?_, .inr ?_⟩) hrun ()⟩
  · decide +kernel
  · show (139264 : ℕ) ≠ 0
    decide
  · show LongChunk defaultConfig (139264 % defaultConfig.chunkSize)
    unfold LongChunk
    decide

/-- **THE WINDOW OF SHORT MESSAGES** is not bounded: 129 messages of one byte, of which
    none is acknowledged, all get a CSN. -/
theorem outstanding_129 : Initial (byteRequests .ReqTx) ∧ ∃ e, runFrom (engStep defaultConfig) (byteRequests .ReqTx)
        ((List.range 129).map fun id => .tx id fun _ => {}) = .ok e ∧
      outstanding (e.flows ()) = kSackBitmapSize + 1 := by
  refine ⟨initial_freshEngine _ fun _ => ⟨rfl, rfl⟩, ?_⟩
  refine exists_run_of_eval (fun e => outstanding (e.flows ()) = kSackBitmapSize + 1) ?_ fun e hrun he => he
  decide +kernel

end RdmaWindow
