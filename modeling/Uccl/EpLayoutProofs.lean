import Uccl.EpReceiveProofs
import Uccl.RegionProofs

/-! # The low-latency layout

    `LowLatencyLayout` carves the RDMA buffer of a rank into signalling arrays, send buffers, receive buffers and,
    under `LL_COALESCE`, staging regions, one of each for the two parities; the 64-bit counters that remote atomics
    write lie in the atomic buffer. The dispatch and combine kernels index messages in these regions.

    Pointers are offsets from `rdma_buffer` or from `atomic_buffer_ptr`. Sizes are `size_t`; `u64` stands where a
    sum can pass 2^64. The products cannot: their `int` factors stay below 2^31 and a message below 2^33. -/

namespace EpLayout

open EpReceive Region List Nat

-- ── Sizes

/-- The three ways the kernels are built; the Makefile makes the two switches exclusive. -/
inductive Variant where
  | default
  | perExpertBatching
  | coalesce
deriving DecidableEq, Repr

/-- The arguments of the constructor: `int`s that count something. -/
structure Shape where
  numMaxDispatchTokensPerRank : ℕ
  hidden : ℕ
  numRanks : ℕ
  numExperts : ℕ
  tokens_lt : numMaxDispatchTokensPerRank < 2 ^ 31
  hidden_lt : hidden < 2 ^ 31
  ranks_lt : numRanks < 2 ^ 31
  experts_lt : numExperts < 2 ^ 31

def kAtomicBufferSize : ℕ := 81960

/-- A `size_t`. -/
def u64 (n : ℕ) : ℕ := n % 2 ^ 64

theorem u64_of_lt {n : ℕ} (h : n < 2 ^ 64) : u64 n = n := mod_eq_of_lt h

variable (v : Variant) (s : Shape)

def Shape.numScales : ℕ := s.hidden / 128

def Shape.bytesPerDispatchMsg : ℕ := 16 + max (s.hidden * 2) (s.hidden + s.numScales * 4)

def Shape.bytesPerCombineMsg : ℕ := s.hidden * 2

def Shape.numLocalExperts : ℕ := s.numExperts / s.numRanks

/-- `coalesce_max_msgs_per_dst` and `cmb_max_msgs_per_dst`. -/
def Shape.maxMsgsPerDst : ℕ := s.numMaxDispatchTokensPerRank * min s.numLocalExperts 8

def Shape.coalesceStageRegionBytes : ℕ := s.numRanks * (s.maxMsgsPerDst * s.bytesPerDispatchMsg)

def Shape.cmbStageEntryBytes : ℕ := 16 + s.bytesPerCombineMsg

def Shape.cmbStageRegionBytes : ℕ := s.numRanks * (s.maxMsgsPerDst * s.cmbStageEntryBytes)

/-- `dispatch_send_buffer_bytes`, before it is cut to 64 bits. -/
def dispatchSendBytes : ℕ :=
  if v = .coalesce then
    s.numMaxDispatchTokensPerRank * s.bytesPerDispatchMsg + s.coalesceStageRegionBytes
  else if v = .perExpertBatching then
    (s.numExperts + 1) * s.numMaxDispatchTokensPerRank * s.bytesPerDispatchMsg
  else s.numMaxDispatchTokensPerRank * s.bytesPerDispatchMsg

def combineSendBytes : ℕ :=
  if v = .coalesce then 0
  else s.numExperts * s.numMaxDispatchTokensPerRank * s.bytesPerCombineMsg

def sendBufferBytes : ℕ := max (u64 (dispatchSendBytes v s)) (combineSendBytes v s)

def recvBufferBytes : ℕ :=
  max (s.numExperts * s.numMaxDispatchTokensPerRank * s.bytesPerDispatchMsg)
    (s.numExperts * s.numMaxDispatchTokensPerRank * s.bytesPerCombineMsg)

/-- The elements of `dispatch_recv_count_buffer`: counters, and under `LL_COALESCE` an arrival
    flag per source for dispatch and one for combine. -/
def dispatchCounts : ℕ :=
  if v = .coalesce then s.numExperts + (s.numRanks + s.numRanks)
  else if v = .perExpertBatching then s.numRanks * s.numRanks
  else s.numExperts

/-- The elements of a signalling array. -/
def signals : ℕ := max (dispatchCounts v s) s.numExperts

def signalingBufferBytesAligned : ℕ := align (max (dispatchCounts v s * 4) (s.numExperts * 4)) 128

def signalingInternodeAligned : ℕ := align (max (dispatchCounts v s * 8) (s.numExperts * 8)) 128

/-- The staging regions that follow the receive buffers. -/
def stageBytes : ℕ :=
  if v = .coalesce then
    s.coalesceStageRegionBytes * 2 + (s.cmbStageRegionBytes * 2 + s.cmbStageRegionBytes * 2)
  else 0

def totalBytes : ℕ :=
  u64 (sendBufferBytes v s * 2 + recvBufferBytes s * 2 + stageBytes v s +
    signalingBufferBytesAligned v s * 2)

-- ── The constructor

structure LowLatencyBuffer where
  numCleanInt : ℤ
  dispatchRdmaSendBuffer : ℕ
  dispatchRdmaRecvDataBuffer : ℕ
  dispatchRdmaRecvCountBuffer : ℕ
  dispatchRdmaRecvCountBufferInternode : ℕ
  combineRdmaSendBuffer : ℕ
  combineRdmaRecvDataBuffer : ℕ
  combineRdmaRecvFlagBuffer : ℕ
  combineRdmaRecvFlagBufferInternode : ℕ
  combineRdmaSendBufferDataStart : ℕ
  numBytesPerCombineMsg : ℕ
  -- the fields below exist under `LL_COALESCE`
  dispatchRdmaXStage : ℕ
  dispatchRecvStage : ℕ
  dispatchStageFlagInternode : ℕ
  combineSendStage : ℕ
  combineRecvStage : ℕ
  combineStageFlagInternode : ℕ
deriving DecidableEq, Repr

structure LowLatencyLayout where
  totalBytes : ℕ
  buffers : Fin 2 → LowLatencyBuffer

/-- Where the send, receive and staging regions start. -/
def sendAt (i : ℕ) : ℕ := u64 (signalingBufferBytesAligned v s * 2 + sendBufferBytes v s * i)

def recvAt (i : ℕ) : ℕ :=
  u64 (signalingBufferBytesAligned v s * 2 + sendBufferBytes v s * 2 + recvBufferBytes s * i)

def recvStageAt (i : ℕ) : ℕ :=
  u64 (signalingBufferBytesAligned v s * 2 + sendBufferBytes v s * 2 + recvBufferBytes s * 2 +
    s.coalesceStageRegionBytes * i)

def combineRegionBase : ℕ :=
  signalingBufferBytesAligned v s * 2 + sendBufferBytes v s * 2 + recvBufferBytes s * 2 +
    s.coalesceStageRegionBytes * 2

def buffer (i : Fin 2) : LowLatencyBuffer where
  numCleanInt := Int.bmod (max (dispatchCounts v s * 4) (s.numExperts * 4) / 4 : ℕ) (2 ^ 32)
  dispatchRdmaSendBuffer := sendAt v s i
  dispatchRdmaRecvDataBuffer := recvAt v s i
  dispatchRdmaRecvCountBuffer := signalingBufferBytesAligned v s * i
  dispatchRdmaRecvCountBufferInternode := i * signalingInternodeAligned v s
  combineRdmaSendBuffer := sendAt v s i
  combineRdmaRecvDataBuffer := recvAt v s i
  combineRdmaRecvFlagBuffer := signalingBufferBytesAligned v s * i
  combineRdmaRecvFlagBufferInternode := i * signalingInternodeAligned v s
  combineRdmaSendBufferDataStart := sendAt v s i
  numBytesPerCombineMsg := s.bytesPerCombineMsg
  dispatchRdmaXStage := u64 (sendAt v s i + s.numMaxDispatchTokensPerRank * s.bytesPerDispatchMsg)
  dispatchRecvStage := recvStageAt v s i
  dispatchStageFlagInternode := i * signalingInternodeAligned v s + s.numExperts * 8
  combineSendStage := u64 (combineRegionBase v s + s.cmbStageRegionBytes * i)
  combineRecvStage :=
    u64 (combineRegionBase v s + s.cmbStageRegionBytes * 2 + s.cmbStageRegionBytes * i)
  combineStageFlagInternode :=
    i * signalingInternodeAligned v s + (s.numExperts + s.numRanks) * 8

inductive Fault where
  /-- an `EP_HOST_ASSERT` -/
  | assertion
  /-- an `int` product above 2^31 - 1, or a division by zero -/
  | undefined
deriving DecidableEq, Repr

/-- The `int` arithmetic of the constructor is defined: `num_experts * num_max_dispatch_tokens_per_rank` always, with
    batching `(num_experts + 1) * num_max_dispatch_tokens_per_rank` and `num_ranks * num_ranks`, with coalescing
    `num_experts / num_ranks`. -/
def Defined : Prop :=
  s.numExperts * s.numMaxDispatchTokensPerRank < 2 ^ 31 ∧
    (v = .perExpertBatching → s.numExperts + 1 < 2 ^ 31 ∧
      (s.numExperts + 1) * s.numMaxDispatchTokensPerRank < 2 ^ 31 ∧ s.numRanks * s.numRanks < 2 ^ 31) ∧
    (v = .coalesce → 0 < s.numRanks)
deriving Decidable

/-- The alignment assertions. -/
def Aligned : Prop :=
  sendBufferBytes v s % 16 = 0 ∧ recvBufferBytes s % 16 = 0 ∧
    (v = .coalesce → s.coalesceStageRegionBytes % 16 = 0 ∧ s.cmbStageRegionBytes % 16 = 0)
deriving Decidable

/-- `LowLatencyLayout(rdma_buffer, …, atomic_buffer_ptr)`; `atomicBuffer` says whether there is an atomic buffer. -/
def lowLatencyLayout (atomicBuffer : Bool) : Except Fault LowLatencyLayout :=
  if ¬ s.numScales * 4 ≤ s.hidden then .error .assertion
  else if ¬ Defined v s then .error .undefined
  else if ¬ Aligned v s then .error .assertion
  else if atomicBuffer = true ∧ ¬ 2 * signalingInternodeAligned v s ≤ kAtomicBufferSize then
    .error .assertion
  else .ok ⟨totalBytes v s, buffer v s⟩

/-- `clean_meta`: the two arrays to clear, and how many elements of each. -/
def LowLatencyBuffer.cleanMeta (b : LowLatencyBuffer) : Except Fault (ℕ × ℕ × ℤ) :=
  if ¬ b.dispatchRdmaRecvCountBuffer = b.combineRdmaRecvFlagBuffer then .error .assertion
  else if ¬ b.dispatchRdmaRecvCountBufferInternode = b.combineRdmaRecvFlagBufferInternode then
    .error .assertion
  else .ok (b.dispatchRdmaRecvCountBuffer, b.dispatchRdmaRecvCountBufferInternode, b.numCleanInt)

-- ── What the kernels index

/-- The regions of one parity. -/
inductive Kind where
  | signal
  | send
  | recv
  | xStage
  | recvStage
  | combineSendStage
  | combineRecvStage
deriving DecidableEq, Repr

def LowLatencyBuffer.start (b : LowLatencyBuffer) : Kind → ℕ
  | .signal => b.dispatchRdmaRecvCountBuffer
  | .send => b.dispatchRdmaSendBuffer
  | .recv => b.dispatchRdmaRecvDataBuffer
  | .xStage => b.dispatchRdmaXStage
  | .recvStage => b.dispatchRecvStage
  | .combineSendStage => b.combineSendStage
  | .combineRecvStage => b.combineRecvStage

/-- What the users of a send buffer need of it: a row per token for dispatch, with batching a row per (expert,
    token) behind these, and for combine a row per (expert, token) unless combine has its own stage. -/
def sendNeed : ℕ :=
  if v = .coalesce then s.numMaxDispatchTokensPerRank * s.bytesPerDispatchMsg
  else if v = .perExpertBatching then
    max ((s.numMaxDispatchTokensPerRank + s.numExperts * s.numMaxDispatchTokensPerRank) *
        s.bytesPerDispatchMsg)
      (s.numExperts * s.numMaxDispatchTokensPerRank * s.bytesPerCombineMsg)
  else max (s.numMaxDispatchTokensPerRank * s.bytesPerDispatchMsg)
    (s.numExperts * s.numMaxDispatchTokensPerRank * s.bytesPerCombineMsg)

/-- What the users of a region need of it, in bytes. -/
def need : Kind → ℕ
  | .signal => signals v s * 4
  | .send => sendNeed v s
  | .recv => max (s.numExperts * s.numMaxDispatchTokensPerRank * s.bytesPerDispatchMsg)
      (s.numExperts * s.numMaxDispatchTokensPerRank * s.bytesPerCombineMsg)
  | .xStage => s.numRanks * s.maxMsgsPerDst * s.bytesPerDispatchMsg
  | .recvStage => s.numRanks * s.maxMsgsPerDst * s.bytesPerDispatchMsg
  | .combineSendStage => s.numRanks * s.maxMsgsPerDst * s.cmbStageEntryBytes
  | .combineRecvStage => s.numRanks * s.maxMsgsPerDst * s.cmbStageEntryBytes

/-- The bytes of a dispatch message, in BF16 or in FP8 with its scales. -/
def MsgBytes (m : ℕ) : Prop := m = 16 + s.hidden * 2 ∨ m = 16 + (s.hidden + s.numScales * 4)

/-- A message or counter that a kernel addresses, as an offset into its region and a length. -/
inductive Place : Kind → ℕ → ℕ → Prop where
  | count {le src : ℕ} (hle : le < s.numLocalExperts) (hsrc : src < s.numRanks) :
      Place .signal ((le * s.numRanks + src) * 4) 4
  | flag {ge : ℕ} (hge : ge < s.numExperts) : Place .signal (ge * 4) 4
  | temp {m t : ℕ} (hm : MsgBytes s m) (ht : t < s.numMaxDispatchTokensPerRank) :
      Place .send (t * m) m
  | batch {m e slot : ℕ} (hv : v = .perExpertBatching) (hm : MsgBytes s m) (he : e < s.numExperts)
      (hslot : slot < s.numMaxDispatchTokensPerRank) :
      Place .send (s.numMaxDispatchTokensPerRank * m + (e * s.numMaxDispatchTokensPerRank + slot) * m) m
  | combineRow {le t : ℕ} (hv : v ≠ .coalesce) (hle : le < s.numLocalExperts)
      (ht : t < s.numRanks * s.numMaxDispatchTokensPerRank) :
      Place .send ((le * (s.numRanks * s.numMaxDispatchTokensPerRank) + t) * s.bytesPerCombineMsg)
        s.bytesPerCombineMsg
  | dispatchRecv {m le src slot : ℕ} (hm : MsgBytes s m) (hle : le < s.numLocalExperts)
      (hsrc : src < s.numRanks) (hslot : slot < s.numMaxDispatchTokensPerRank) :
      Place .recv (((le * s.numRanks + src) * s.numMaxDispatchTokensPerRank + slot) * m) m
  | combineRecv {ge idx : ℕ} (hge : ge < s.numExperts) (hidx : idx < s.numMaxDispatchTokensPerRank) :
      Place .recv ((ge * s.numMaxDispatchTokensPerRank + idx) * s.bytesPerCombineMsg)
        s.bytesPerCombineMsg
  | packed {m dst pos : ℕ} (hv : v = .coalesce) (hm : MsgBytes s m) (hdst : dst < s.numRanks)
      (hpos : pos < s.maxMsgsPerDst) : Place .xStage ((dst * s.maxMsgsPerDst + pos) * m) m
  | received {m src pos : ℕ} (hv : v = .coalesce) (hm : MsgBytes s m) (hsrc : src < s.numRanks)
      (hpos : pos < s.maxMsgsPerDst) : Place .recvStage ((src * s.maxMsgsPerDst + pos) * m) m
  | combined {dst pos : ℕ} (hv : v = .coalesce) (hdst : dst < s.numRanks)
      (hpos : pos < s.maxMsgsPerDst) :
      Place .combineSendStage ((dst * s.maxMsgsPerDst + pos) * s.cmbStageEntryBytes)
        s.cmbStageEntryBytes
  | returned {src pos : ℕ} (hv : v = .coalesce) (hsrc : src < s.numRanks)
      (hpos : pos < s.maxMsgsPerDst) :
      Place .combineRecvStage ((src * s.maxMsgsPerDst + pos) * s.cmbStageEntryBytes)
        s.cmbStageEntryBytes

/-- The parities. -/
abbrev even : Fin 2 := ⟨0, Nat.two_pos⟩

abbrev odd : Fin 2 := ⟨1, Nat.one_lt_two⟩

/-- The regions of a build, in the order of their addresses. -/
def slots : List (Kind × Fin 2) :=
  if v = .coalesce then
    [(.signal, even), (.signal, odd), (.send, even), (.xStage, even), (.send, odd), (.xStage, odd),
      (.recv, even), (.recv, odd), (.recvStage, even), (.recvStage, odd), (.combineSendStage, even),
      (.combineSendStage, odd), (.combineRecvStage, even), (.combineRecvStage, odd)]
  else [(.signal, even), (.signal, odd), (.send, even), (.send, odd), (.recv, even), (.recv, odd)]

def regions (lay : LowLatencyLayout) : List (ℕ × ℕ) :=
  (slots v).map fun p => ((lay.buffers p.2).start p.1, need v s p.1)

/-- A 64-bit word of the atomic buffer that a parity uses. -/
inductive Cell where
  | count (e : ℕ)
  | dispatchFlag (r : ℕ)
  | combineFlag (r : ℕ)
deriving DecidableEq, Repr

def Cell.Used : Cell → Prop
  | .count e => e < if v = .coalesce then s.numExperts else signals v s
  | .dispatchFlag r => v = .coalesce ∧ r < s.numRanks
  | .combineFlag r => v = .coalesce ∧ r < s.numRanks

def LowLatencyBuffer.cellAt (b : LowLatencyBuffer) : Cell → ℕ
  | .count e => b.dispatchRdmaRecvCountBufferInternode + 8 * e
  | .dispatchFlag r => b.dispatchStageFlagInternode + 8 * r
  | .combineFlag r => b.combineStageFlagInternode + 8 * r

/-- The loop that clears an array: `next_clean[i] = 0` for `i < n`, elements of `width` bytes. -/
def clear (width base : ℕ) (n : ℤ) (mem : ℕ → ℤ) (a : ℕ) : ℤ :=
  if base ≤ a ∧ (a - base) % width = 0 ∧ ((a - base) / width : ℕ) < n then 0 else mem a

/-- What the kernels rely on. -/
structure Carved (lay : LowLatencyLayout) : Prop where
  disjoint : (regions v s lay).Pairwise Apart
  within : ∀ r ∈ regions v s lay, r.1 + r.2 ≤ lay.totalBytes
  enough : ∀ k off n, Place v s k off n → off + n ≤ need v s k
  shared : ∀ i, (lay.buffers i).combineRdmaSendBuffer = (lay.buffers i).dispatchRdmaSendBuffer ∧
    (lay.buffers i).combineRdmaRecvDataBuffer = (lay.buffers i).dispatchRdmaRecvDataBuffer
  cells : ∀ i c, c.Used v s → (lay.buffers i).cellAt c + 8 ≤ kAtomicBufferSize
  cellsApart : ∀ i j c c', c.Used v s → c'.Used v s → (i, c) ≠ (j, c') →
    Apart ((lay.buffers i).cellAt c, 8) ((lay.buffers j).cellAt c', 8)
  cleanInts : ∀ i, ∃ p q n, (lay.buffers i).cleanMeta = .ok (p, q, n) ∧ ∀ mem a,
    ((∃ e < signals v s, a = (lay.buffers i).start .signal + 4 * e) → clear 4 p n mem a = 0) ∧
      ((¬ ∃ e < signals v s, a = (lay.buffers i).start .signal + 4 * e) → clear 4 p n mem a = mem a)
  cleanCells : ∀ i, ∃ p q n, (lay.buffers i).cleanMeta = .ok (p, q, n) ∧ ∀ mem a,
    ((∃ c : Cell, c.Used v s ∧ a = (lay.buffers i).cellAt c) → clear 8 q n mem a = 0) ∧
      ((¬ ∃ c : Cell, c.Used v s ∧ a = (lay.buffers i).cellAt c) → clear 8 q n mem a = mem a)

/-- The bytes the layout is made of, as a number that is not cut to 64 bits. -/
def demand : ℕ :=
  max (dispatchSendBytes v s) (combineSendBytes v s) * 2 + recvBufferBytes s * 2 + stageBytes v s +
    signalingBufferBytesAligned v s * 2

-- ── The constructor, read back

variable {v : Variant} {s : Shape} {lay : LowLatencyLayout} {atomic : Bool} {c c' : Cell}

theorem numScales_le (s : Shape) : s.numScales * 4 ≤ s.hidden := by
  unfold Shape.numScales
  omega

theorem lowLatencyLayout_ok (h : lowLatencyLayout v s atomic = .ok lay) :
    lay = ⟨totalBytes v s, buffer v s⟩ ∧ Defined v s ∧
      (atomic = true → 2 * signalingInternodeAligned v s ≤ kAtomicBufferSize) := by
  unfold lowLatencyLayout at h
  rw [if_neg (not_not.mpr (numScales_le s))] at h
  split at h
  · cases h
  next hdef =>
  split at h
  · cases h
  split at h
  · cases h
  next hfit =>
  cases h
  refine ⟨rfl, not_not.mp hdef, ?_⟩
  intro hatomic
  exact not_not.mp fun hgt => hfit ⟨hatomic, hgt⟩

/-- What the assertions let through is laid out, if its arithmetic is defined. -/
theorem lowLatencyLayout_of_defined (hdef : Defined v s) (h : lowLatencyLayout v s atomic ≠ .error .assertion) :
    lowLatencyLayout v s atomic = .ok ⟨totalBytes v s, buffer v s⟩ := by
  unfold lowLatencyLayout at h ⊢
  rw [if_neg (not_not.mpr (numScales_le s)), if_neg (not_not.mpr hdef)] at h ⊢
  split at h
  · exact absurd rfl h
  split at h
  · exact absurd rfl h
  next hal hfit =>
  rw [if_neg hal, if_neg hfit]

theorem lowLatencyLayout_of_aligned (hdef : Defined v s) (hal : Aligned v s)
    (hfit : 2 * signalingInternodeAligned v s ≤ kAtomicBufferSize) :
    lowLatencyLayout v s atomic = .ok ⟨totalBytes v s, buffer v s⟩ := by
  unfold lowLatencyLayout
  rw [if_neg (not_not.mpr (numScales_le s)), if_neg (not_not.mpr hdef), if_neg (not_not.mpr hal),
    if_neg fun h => h.2 hfit]

theorem align_bounds (n : ℕ) : n ≤ align n 128 ∧ align n 128 < n + 128 ∧ align n 128 % 128 = 0 := by
  unfold align
  refine ⟨by omega, by omega, mul_mod_left _ _⟩

theorem signaling_eq (v : Variant) (s : Shape) : signalingBufferBytesAligned v s = align (signals v s * 4) 128 ∧
      signalingInternodeAligned v s = align (signals v s * 8) 128 := by
  unfold signalingBufferBytesAligned signalingInternodeAligned signals
  rw [Nat.mul_max_mul_right, Nat.mul_max_mul_right]
  exact ⟨rfl, rfl⟩

-- ── Room for the messages

theorem row_lt {a n b m : ℕ} (ha : a < n) (hb : b < m) : a * m + b < n * m :=
  calc a * m + b < a * m + m := Nat.add_lt_add_left hb _
    _ = (a + 1) * m := (succ_mul a m).symm
    _ ≤ n * m := Nat.mul_le_mul_right m ha

/-- The `idx`-th of `n` messages. -/
theorem message_le {idx n m d : ℕ} (hidx : idx < n) (hm : m ≤ d) : idx * m + m ≤ n * d :=
  calc idx * m + m = (idx + 1) * m := (succ_mul idx m).symm
    _ ≤ n * d := Nat.mul_le_mul hidx hm

theorem MsgBytes.le {m : ℕ} (h : MsgBytes s m) : m ≤ s.bytesPerDispatchMsg := by
  unfold Shape.bytesPerDispatchMsg
  rcases h with h | h <;> omega

theorem local_mul_le (s : Shape) : s.numLocalExperts * s.numRanks ≤ s.numExperts := div_mul_le_self ..

theorem experts_le_signals (v : Variant) (s : Shape) : s.numExperts ≤ signals v s := Nat.le_max_right ..

theorem temp_le_sendNeed (v : Variant) (s : Shape) :
    s.numMaxDispatchTokensPerRank * s.bytesPerDispatchMsg ≤ sendNeed v s := by
  unfold sendNeed
  split
  · exact le_rfl
  split
  · exact Nat.le_trans (Nat.mul_le_mul_right _ (Nat.le_add_right ..)) (Nat.le_max_left ..)
  · exact Nat.le_max_left ..

theorem combine_le_sendNeed (hv : v ≠ .coalesce) :
    s.numExperts * s.numMaxDispatchTokensPerRank * s.bytesPerCombineMsg ≤ sendNeed v s := by
  unfold sendNeed
  rw [if_neg hv]
  split
  · exact Nat.le_max_right ..
  · exact Nat.le_max_right ..

/-- Whatever a kernel addresses lies in what its region has to hold. -/
theorem Place.le_need {k : Kind} {off n : ℕ} (h : Place v s k off n) : off + n ≤ need v s k := by
  cases h with
  | count hle hsrc =>
    have hidx := Nat.lt_of_lt_of_le (row_lt hle hsrc) (local_mul_le s)
    exact message_le (Nat.lt_of_lt_of_le hidx (experts_le_signals v s)) (Nat.le_refl 4)
  | flag hge => exact message_le (Nat.lt_of_lt_of_le hge (experts_le_signals v s)) (Nat.le_refl 4)
  | temp hm ht => exact Nat.le_trans (message_le ht hm.le) (temp_le_sendNeed v s)
  | batch hv hm he hslot =>
    have hsend : (s.numMaxDispatchTokensPerRank + s.numExperts * s.numMaxDispatchTokensPerRank) *
        s.bytesPerDispatchMsg ≤ sendNeed v s := by
      unfold sendNeed
      rw [if_neg (by rw [hv]; decide), if_pos hv]
      exact Nat.le_max_left ..
    rw [← Nat.add_mul]
    exact Nat.le_trans (message_le (Nat.add_lt_add_left (row_lt he hslot) _) hm.le) hsend
  | combineRow hv hle ht =>
    have hidx := Nat.lt_of_lt_of_le (row_lt hle ht)
      (Nat.le_trans (Nat.le_of_eq (Nat.mul_assoc ..).symm) (Nat.mul_le_mul_right _ (local_mul_le s)))
    exact Nat.le_trans (message_le hidx (le_rfl)) (combine_le_sendNeed hv)
  | dispatchRecv hm hle hsrc hslot =>
    have hrow := Nat.lt_of_lt_of_le (row_lt hle hsrc) (local_mul_le s)
    exact Nat.le_trans (message_le (row_lt hrow hslot) hm.le) (Nat.le_max_left ..)
  | combineRecv hge hidx =>
    exact Nat.le_trans (message_le (row_lt hge hidx) (le_rfl)) (Nat.le_max_right ..)
  | packed _ hm hdst hpos => exact message_le (row_lt hdst hpos) hm.le
  | received _ hm hsrc hpos => exact message_le (row_lt hsrc hpos) hm.le
  | combined _ hdst hpos => exact message_le (row_lt hdst hpos) (le_rfl)
  | returned _ hsrc hpos => exact message_le (row_lt hsrc hpos) (le_rfl)

-- ── The sizes in 64 bits

theorem bytesPerDispatchMsg_lt (s : Shape) : s.bytesPerDispatchMsg < 2 ^ 33 := by
  have hh := s.hidden_lt
  have hsc := numScales_le s
  unfold Shape.bytesPerDispatchMsg
  omega

/-- Without coalescing the send buffer cannot pass 2^64. -/
theorem dispatchSendBytes_lt (hdef : Defined v s) (hv : v ≠ .coalesce) : dispatchSendBytes v s < 2 ^ 64 := by
  have hmsg := bytesPerDispatchMsg_lt s
  have hbound : ∀ n, n < 2 ^ 31 → n * s.bytesPerDispatchMsg < 2 ^ 64 := by
    intro n hn
    calc n * s.bytesPerDispatchMsg ≤ 2 ^ 31 * s.bytesPerDispatchMsg :=
          Nat.mul_le_mul_right _ (Nat.le_of_lt hn)
      _ < 2 ^ 31 * 2 ^ 33 := Nat.mul_lt_mul_of_pos_left hmsg (by decide)
  unfold dispatchSendBytes
  rw [if_neg hv]
  split
  next hp => exact hbound _ (hdef.2.1 hp).2.1
  · exact hbound _ s.tokens_lt

/-- The send buffer is what is asked for, up to 2^64. -/
theorem sendBufferBytes_mod (hdef : Defined v s) :
    sendBufferBytes v s % 2 ^ 64 = max (dispatchSendBytes v s) (combineSendBytes v s) % 2 ^ 64 := by
  unfold sendBufferBytes u64
  by_cases hv : v = .coalesce
  · have hzero : combineSendBytes v s = 0 := if_pos hv
    rw [hzero, Nat.max_eq_left (Nat.zero_le _), Nat.max_eq_left (Nat.zero_le _), mod_mod]
  · rw [mod_eq_of_lt (dispatchSendBytes_lt hdef hv)]

theorem totalBytes_eq (hdef : Defined v s) : totalBytes v s = demand v s % 2 ^ 64 := by
  have hmod := sendBufferBytes_mod hdef
  unfold totalBytes demand u64
  omega

theorem sendBufferBytes_eq (hlt : demand v s < 2 ^ 64) :
    sendBufferBytes v s = max (dispatchSendBytes v s) (combineSendBytes v s) := by
  have hle : dispatchSendBytes v s < 2 ^ 64 := by
    unfold demand at hlt
    omega
  unfold sendBufferBytes
  rw [u64_of_lt hle]

/-- Nothing wraps: the sizes are the numbers they stand for. -/
theorem demand_eq (hlt : demand v s < 2 ^ 64) :
    demand v s = sendBufferBytes v s * 2 + recvBufferBytes s * 2 + stageBytes v s +
      signalingBufferBytesAligned v s * 2 := by
  rw [sendBufferBytes_eq hlt]
  rfl

-- ── The regions side by side

/-- Without coalescing the users need the whole send buffer. -/
theorem sendNeed_eq (s : Shape) (hv : v ≠ .coalesce) :
    sendNeed v s = max (dispatchSendBytes v s) (combineSendBytes v s) := by
  unfold sendNeed dispatchSendBytes combineSendBytes
  rw [if_neg hv]
  split
  · rw [succ_mul, Nat.add_comm (_ * _)]
  · rfl

/-- With coalescing the stage follows the rows of the tokens in it. -/
theorem sendNeed_add_stage (s : Shape) (hv : v = .coalesce) :
    sendNeed v s + need v s .xStage = max (dispatchSendBytes v s) (combineSendBytes v s) := by
  have hstage : need v s .xStage = s.coalesceStageRegionBytes := Nat.mul_assoc ..
  rw [hstage]
  unfold sendNeed dispatchSendBytes combineSendBytes
  rw [if_pos hv, if_pos hv, if_pos hv]
  exact (Nat.max_eq_left (Nat.zero_le _)).symm

theorem stage_needs (v : Variant) (s : Shape) : need v s .recvStage = s.coalesceStageRegionBytes ∧
      need v s .combineSendStage = s.cmbStageRegionBytes ∧
      need v s .combineRecvStage = s.cmbStageRegionBytes :=
  ⟨Nat.mul_assoc .., Nat.mul_assoc .., Nat.mul_assoc ..⟩

theorem signal_need_le (v : Variant) (s : Shape) : need v s .signal ≤ signalingBufferBytesAligned v s ∧
      signalingBufferBytesAligned v s < need v s .signal + 128 := by
  rw [(signaling_eq v s).1]
  exact ⟨(align_bounds _).1, (align_bounds _).2.1⟩

/-- Where the regions start when nothing wraps. -/
theorem starts (hlt : demand v s < 2 ^ 64) (i : Fin 2) :
    (buffer v s i).start .send = signalingBufferBytesAligned v s * 2 + sendBufferBytes v s * i ∧
      (buffer v s i).start .recv =
        signalingBufferBytesAligned v s * 2 + sendBufferBytes v s * 2 + recvBufferBytes s * i := by
  have hd := demand_eq hlt
  have hs : sendBufferBytes v s * i ≤ sendBufferBytes v s * 2 := Nat.mul_le_mul_left _ (by omega)
  have hr : recvBufferBytes s * i ≤ recvBufferBytes s * 2 := Nat.mul_le_mul_left _ (by omega)
  exact ⟨u64_of_lt (by omega), u64_of_lt (by omega)⟩

theorem stageBytes_coalesce (s : Shape) (hv : v = .coalesce) : stageBytes v s = s.coalesceStageRegionBytes * 2 +
      (s.cmbStageRegionBytes * 2 + s.cmbStageRegionBytes * 2) :=
  if_pos hv

theorem combineRegionBase_eq (v : Variant) (s : Shape) :
    combineRegionBase v s = signalingBufferBytesAligned v s * 2 + sendBufferBytes v s * 2 +
      recvBufferBytes s * 2 + s.coalesceStageRegionBytes * 2 :=
  rfl

theorem stage_starts (hv : v = .coalesce) (hlt : demand v s < 2 ^ 64) (i : Fin 2) :
    (buffer v s i).start .xStage = (buffer v s i).start .send + sendNeed v s ∧ (buffer v s i).start .recvStage =
        signalingBufferBytesAligned v s * 2 + sendBufferBytes v s * 2 + recvBufferBytes s * 2 +
          s.coalesceStageRegionBytes * i ∧
      (buffer v s i).start .combineSendStage = combineRegionBase v s + s.cmbStageRegionBytes * i ∧
      (buffer v s i).start .combineRecvStage =
        combineRegionBase v s + s.cmbStageRegionBytes * 2 + s.cmbStageRegionBytes * i := by
  have hi := i.isLt
  have hd := demand_eq hlt
  have hstage := stageBytes_coalesce s hv
  have hbase := combineRegionBase_eq v s
  have hst := sendNeed_add_stage s hv
  rw [← sendBufferBytes_eq hlt] at hst
  have hneed : sendNeed v s = s.numMaxDispatchTokensPerRank * s.bytesPerDispatchMsg := if_pos hv
  have hs : sendBufferBytes v s * i + sendBufferBytes v s ≤ sendBufferBytes v s * 2 := by
    exact Nat.mul_le_mul_left _ hi
  have hc : s.coalesceStageRegionBytes * i ≤ s.coalesceStageRegionBytes * 2 := Nat.mul_le_mul_left _ (by omega)
  have hm : s.cmbStageRegionBytes * i ≤ s.cmbStageRegionBytes * 2 := Nat.mul_le_mul_left _ (by omega)
  have hsend := (starts hlt i).1
  refine ⟨?_, u64_of_lt (by omega), u64_of_lt (by omega), u64_of_lt (by omega)⟩
  show u64 ((buffer v s i).start .send + _) = _
  rw [← hneed]
  exact u64_of_lt (by omega)

theorem regions_default (hv : v ≠ .coalesce) (lay : LowLatencyLayout) : regions v s lay =
      [((lay.buffers 0).start .signal, need v s .signal), ((lay.buffers 1).start .signal, need v s .signal),
        ((lay.buffers 0).start .send, need v s .send), ((lay.buffers 1).start .send, need v s .send),
        ((lay.buffers 0).start .recv, need v s .recv), ((lay.buffers 1).start .recv, need v s .recv)] := by
  unfold regions slots
  rw [if_neg hv]
  rfl

theorem regions_coalesce (hv : v = .coalesce) (lay : LowLatencyLayout) : regions v s lay =
      [((lay.buffers 0).start .signal, need v s .signal), ((lay.buffers 1).start .signal, need v s .signal),
        ((lay.buffers 0).start .send, need v s .send), ((lay.buffers 0).start .xStage, need v s .xStage),
        ((lay.buffers 1).start .send, need v s .send), ((lay.buffers 1).start .xStage, need v s .xStage),
        ((lay.buffers 0).start .recv, need v s .recv), ((lay.buffers 1).start .recv, need v s .recv),
        ((lay.buffers 0).start .recvStage, need v s .recvStage),
        ((lay.buffers 1).start .recvStage, need v s .recvStage),
        ((lay.buffers 0).start .combineSendStage, need v s .combineSendStage),
        ((lay.buffers 1).start .combineSendStage, need v s .combineSendStage),
        ((lay.buffers 0).start .combineRecvStage, need v s .combineRecvStage),
        ((lay.buffers 1).start .combineRecvStage, need v s .combineRecvStage)] := by
  unfold regions slots
  rw [if_pos hv]
  rfl

/-- Every region ends where the next one starts, or before, and the last one at the total. -/
theorem regions_chain (hdef : Defined v s) (hlt : demand v s < 2 ^ 64) :
    List.IsChain (fun r r' : ℕ × ℕ => r.1 + r.2 ≤ r'.1)
      (regions v s ⟨totalBytes v s, buffer v s⟩ ++ [(totalBytes v s, 0)]) := by
  have htotal : totalBytes v s = demand v s := (totalBytes_eq hdef).trans (mod_eq_of_lt hlt)
  rw [demand_eq hlt] at htotal
  have hsig := (signal_need_le v s).1
  have h0 : (buffer v s 0).start .signal = 0 := Nat.mul_zero _
  have h1 : (buffer v s 1).start .signal = signalingBufferBytesAligned v s := Nat.mul_one _
  obtain ⟨hs0, hr0⟩ := starts hlt 0
  obtain ⟨hs1, hr1⟩ := starts hlt 1
  have hrecv : need v s .recv = recvBufferBytes s := rfl
  have hsend : need v s .send = sendNeed v s := rfl
  by_cases hv : v = .coalesce
  · have hst := sendNeed_add_stage s hv
    rw [← sendBufferBytes_eq hlt] at hst
    have hstage := stageBytes_coalesce s hv
    obtain ⟨hrs, hcs, hcr⟩ := stage_needs v s
    have hbase := combineRegionBase_eq v s
    obtain ⟨hx0, hrs0, hcs0, hcr0⟩ := stage_starts hv hlt 0
    obtain ⟨hx1, hrs1, hcs1, hcr1⟩ := stage_starts hv hlt 1
    rw [regions_coalesce hv]
    simp only [cons_append, nil_append, isChain_cons_cons, isChain_singleton, and_true]
    omega
  · have hneed := sendNeed_eq s hv
    rw [← sendBufferBytes_eq hlt] at hneed
    rw [regions_default hv]
    simp only [cons_append, nil_append, isChain_cons_cons, isChain_singleton, and_true]
    omega

/-- The regions need all of the layout but the padding of the signalling arrays. -/
theorem demand_lt (v : Variant) (s : Shape) (lay : LowLatencyLayout) :
    demand v s < ((regions v s lay).map Prod.snd).sum + 256 := by
  have hsig := (signal_need_le v s).2
  have hrecv : need v s .recv = recvBufferBytes s := rfl
  have hsend : need v s .send = sendNeed v s := rfl
  by_cases hv : v = .coalesce
  · have hst := sendNeed_add_stage s hv
    have hstage := stageBytes_coalesce s hv
    obtain ⟨hrs, hcs, hcr⟩ := stage_needs v s
    rw [regions_coalesce hv]
    simp only [map_cons, map_nil, sum_cons, sum_nil]
    unfold demand
    omega
  · have hneed := sendNeed_eq s hv
    have hstage : stageBytes v s = 0 := if_neg hv
    rw [regions_default hv]
    simp only [map_cons, map_nil, sum_cons, sum_nil]
    unfold demand
    omega

-- ── The atomic buffer

/-- The element of the parity's array that a word is. -/
def Cell.element (s : Shape) : Cell → ℕ
  | .count e => e
  | .dispatchFlag r => s.numExperts + r
  | .combineFlag r => s.numExperts + s.numRanks + r

theorem cellAt_eq (v : Variant) (s : Shape) (i : Fin 2) (c : Cell) :
    (buffer v s i).cellAt c = i * signalingInternodeAligned v s + 8 * c.element s := by
  cases c with
  | count e => rfl
  | dispatchFlag r =>
    show i * signalingInternodeAligned v s + s.numExperts * 8 + 8 * r = _
    show _ = i * signalingInternodeAligned v s + 8 * (s.numExperts + r)
    omega
  | combineFlag r =>
    show i * signalingInternodeAligned v s + (s.numExperts + s.numRanks) * 8 + 8 * r = _
    show _ = i * signalingInternodeAligned v s + 8 * (s.numExperts + s.numRanks + r)
    omega

theorem signals_coalesce (hv : v = .coalesce) : signals v s = s.numExperts + (s.numRanks + s.numRanks) := by
  have hcounts : dispatchCounts v s = s.numExperts + (s.numRanks + s.numRanks) := if_pos hv
  unfold signals
  omega

theorem Cell.element_lt (h : c.Used v s) : c.element s < signals v s := by
  cases c with
  | count e =>
    have hlt : e < if v = .coalesce then s.numExperts else signals v s := h
    have hle := experts_le_signals v s
    show e < signals v s
    split at hlt
    · omega
    · exact hlt
  | dispatchFlag r =>
    obtain ⟨hv, hr⟩ := h
    show s.numExperts + r < signals v s
    rw [signals_coalesce hv]
    omega
  | combineFlag r =>
    obtain ⟨hv, hr⟩ := h
    show s.numExperts + s.numRanks + r < signals v s
    rw [signals_coalesce hv]
    omega

/-- Every element of the array is a counter or a flag. -/
theorem Cell.exists_used {e : ℕ} (h : e < signals v s) : ∃ c : Cell, c.Used v s ∧ c.element s = e := by
  by_cases hv : v = .coalesce
  · rw [signals_coalesce hv] at h
    by_cases he : e < s.numExperts
    · refine ⟨.count e, ?_, rfl⟩
      show e < if v = .coalesce then s.numExperts else signals v s
      rw [if_pos hv]
      exact he
    · by_cases hf : e < s.numExperts + s.numRanks
      · refine ⟨.dispatchFlag (e - s.numExperts), ⟨hv, by omega⟩, ?_⟩
        show s.numExperts + (e - s.numExperts) = e
        omega
      · refine ⟨.combineFlag (e - s.numExperts - s.numRanks), ⟨hv, by omega⟩, ?_⟩
        show s.numExperts + s.numRanks + (e - s.numExperts - s.numRanks) = e
        omega
  · refine ⟨.count e, ?_, rfl⟩
    show e < if v = .coalesce then s.numExperts else signals v s
    rw [if_neg hv]
    exact h

/-- No two words are one element. -/
theorem Cell.element_inj (h : c.Used v s) (h' : c'.Used v s) (heq : c.element s = c'.element s) : c = c' := by
  -- a flag lies behind the counters, and only where there are flags are there `numExperts` counters
  have hcount : ∀ e, (Cell.count e).Used v s → v = .coalesce → e < s.numExperts := by
    intro e hlt hv
    have hlt : e < if v = .coalesce then s.numExperts else signals v s := hlt
    rwa [if_pos hv] at hlt
  cases c with
  | count e =>
    cases c' with
    | count e' => exact congrArg Cell.count heq
    | dispatchFlag r =>
      have heq : e = s.numExperts + r := heq
      exact absurd (hcount e h h'.1) (by omega)
    | combineFlag r =>
      have heq : e = s.numExperts + s.numRanks + r := heq
      exact absurd (hcount e h h'.1) (by omega)
  | dispatchFlag r =>
    cases c' with
    | count e' =>
      have heq : s.numExperts + r = e' := heq
      exact absurd (hcount e' h' h.1) (by omega)
    | dispatchFlag r' => exact congrArg Cell.dispatchFlag (Nat.add_left_cancel heq)
    | combineFlag r' =>
      have heq : s.numExperts + r = s.numExperts + s.numRanks + r' := heq
      exact absurd h.2 (by omega)
  | combineFlag r =>
    cases c' with
    | count e' =>
      have heq : s.numExperts + s.numRanks + r = e' := heq
      exact absurd (hcount e' h' h.1) (by omega)
    | dispatchFlag r' =>
      have heq : s.numExperts + s.numRanks + r = s.numExperts + r' := heq
      exact absurd h'.2 (by omega)
    | combineFlag r' => exact congrArg Cell.combineFlag (Nat.add_left_cancel heq)

theorem internode_le (v : Variant) (s : Shape) : signals v s * 8 ≤ signalingInternodeAligned v s := by
  rw [(signaling_eq v s).2]
  exact (align_bounds _).1

/-- The words of both parities fit into the atomic buffer. -/
theorem cellAt_le (hfit : 2 * signalingInternodeAligned v s ≤ kAtomicBufferSize) (i : Fin 2)
    (hc : c.Used v s) : (buffer v s i).cellAt c + 8 ≤ kAtomicBufferSize := by
  have hel := Cell.element_lt hc
  have hle := internode_le v s
  have hi : i * signalingInternodeAligned v s ≤ 1 * signalingInternodeAligned v s := Nat.mul_le_mul_right _ (by omega)
  rw [cellAt_eq]
  omega

theorem cellAt_apart {i j : Fin 2} (hc : c.Used v s) (hc' : c'.Used v s)
    (hne : (i, c) ≠ (j, c')) : Apart ((buffer v s i).cellAt c, 8) ((buffer v s j).cellAt c', 8) := by
  have hel := Cell.element_lt hc
  have hel' := Cell.element_lt hc'
  have hle := internode_le v s
  rw [cellAt_eq, cellAt_eq]
  by_cases hij : i = j
  · have hcc : c.element s ≠ c'.element s := fun heq =>
      hne (Prod.ext hij (Cell.element_inj hc hc' heq))
    rw [hij]
    unfold Apart
    omega
  · have hlt : i.val < j.val ∨ j.val < i.val := by omega
    unfold Apart
    rcases hlt with hlt | hlt
    · have hi : i.val = 0 := by omega
      have hj : j.val = 1 := by omega
      rw [hi, hj]
      omega
    · have hi : i.val = 1 := by omega
      have hj : j.val = 0 := by omega
      rw [hi, hj]
      omega

-- ── Clearing

theorem clear_of_mem {width base a : ℕ} {n : ℤ} (mem : ℕ → ℤ) {k e : ℕ} (hn : n = k) (hw : 0 < width)
    (he : e < k) (ha : a = base + width * e) : clear width base n mem a = 0 := by
  have hsub : a - base = width * e := by omega
  unfold clear
  rw [if_pos]
  rw [hsub, mul_mod_right, Nat.mul_div_cancel_left _ hw]
  exact ⟨by omega, rfl, by omega⟩

theorem clear_of_not_mem {width base a : ℕ} {n : ℤ} (mem : ℕ → ℤ) {k : ℕ} (hn : n = k)
    (ha : ¬ ∃ e < k, a = base + width * e) : clear width base n mem a = mem a := by
  unfold clear
  rw [if_neg]
  rintro ⟨hle, hmod, hlt⟩
  refine ha ⟨(a - base) / width, by omega, ?_⟩
  rw [Nat.mul_div_cancel' (dvd_of_mod_eq_zero hmod)]
  omega

/-- `num_clean_int` is the number of elements. -/
theorem numCleanInt_eq (hfit : 2 * signalingInternodeAligned v s ≤ kAtomicBufferSize) (i : Fin 2) :
    (buffer v s i).numCleanInt = (signals v s : ℤ) := by
  have hle := internode_le v s
  have hsmall : signals v s < 2 ^ 31 := by
    unfold kAtomicBufferSize at hfit
    omega
  have hcount : max (dispatchCounts v s * 4) (s.numExperts * 4) / 4 = signals v s := by
    rw [Nat.mul_max_mul_right, Nat.mul_div_cancel _ (by decide : 0 < 4)]
    rfl
  unfold buffer
  simp only [hcount]
  exact Int.bmod_eq_of_le (by omega) (by omega)

theorem cleanMeta_eq (v : Variant) (s : Shape) (i : Fin 2) :
    (buffer v s i).cleanMeta = .ok (signalingBufferBytesAligned v s * i,
      i * signalingInternodeAligned v s, (buffer v s i).numCleanInt) := by
  have hints : (buffer v s i).dispatchRdmaRecvCountBuffer = (buffer v s i).combineRdmaRecvFlagBuffer := rfl
  have hwords : (buffer v s i).dispatchRdmaRecvCountBufferInternode =
      (buffer v s i).combineRdmaRecvFlagBufferInternode := rfl
  unfold LowLatencyBuffer.cleanMeta
  rw [if_neg (not_not.mpr hints), if_neg (not_not.mpr hwords)]
  rfl

/-- The words of a parity are the elements of its array. -/
theorem used_iff_element (v : Variant) (s : Shape) (i : Fin 2) (a : ℕ) :
    (∃ c : Cell, c.Used v s ∧ a = (buffer v s i).cellAt c) ↔
      ∃ e < signals v s, a = i * signalingInternodeAligned v s + 8 * e := by
  constructor
  · rintro ⟨c, hc, rfl⟩
    exact ⟨_, Cell.element_lt hc, cellAt_eq v s i c⟩
  · rintro ⟨e, he, rfl⟩
    obtain ⟨c, hc, rfl⟩ := Cell.exists_used he
    exact ⟨c, hc, (cellAt_eq v s i c).symm⟩

-- ── The layout as a whole

/-- A layout whose bytes can be counted in 64 bits is carved as it should be. -/
theorem carved_of_lt (hdef : Defined v s) (hlt : demand v s < 2 ^ 64)
    (hfit : 2 * signalingInternodeAligned v s ≤ kAtomicBufferSize) : Carved v s ⟨totalBytes v s, buffer v s⟩ := by
  obtain ⟨hdisjoint, hwithin⟩ := apart_of_chain (regions_chain hdef hlt)
  refine ⟨hdisjoint, hwithin, fun k off n h => h.le_need, fun i => ⟨rfl, rfl⟩,
    fun i c hc => cellAt_le hfit i hc, fun i j c c' hc hc' hne => cellAt_apart hc hc' hne, ?_, ?_⟩
  · intro i
    refine ⟨_, _, _, cleanMeta_eq v s i, fun mem a => ⟨?_, ?_⟩⟩
    · rintro ⟨e, he, ha⟩
      exact clear_of_mem mem (numCleanInt_eq hfit i) (by decide) he ha
    · intro ha
      exact clear_of_not_mem mem (numCleanInt_eq hfit i) ha
  · intro i
    refine ⟨_, _, _, cleanMeta_eq v s i, fun mem a => ?_⟩
    rw [used_iff_element]
    refine ⟨?_, fun ha => clear_of_not_mem mem (numCleanInt_eq hfit i) ha⟩
    rintro ⟨e, he, ha⟩
    exact clear_of_mem mem (numCleanInt_eq hfit i) (by decide) he ha

/-- Regions that are apart and inside the total leave no room for a total that wrapped. -/
theorem demand_lt_of_carved (hdef : Defined v s) (h : Carved v s ⟨totalBytes v s, buffer v s⟩) :
    demand v s < 2 ^ 64 := by
  have hsum : ((regions v s ⟨totalBytes v s, buffer v s⟩).map Prod.snd).sum ≤ totalBytes v s :=
    sum_le_of_apart h.disjoint h.within
  have hlt := demand_lt v s ⟨totalBytes v s, buffer v s⟩
  have htotal := totalBytes_eq hdef
  omega

/-- **The layout carves disjoint regions**, large enough and inside `total_bytes`, with counters and flags inside the
    atomic buffer and cleared as a whole, exactly when no `int` product overflows and the bytes fit in 64 bits. The
    assertions check neither. -/
theorem layout_carves_iff (v : Variant) (s : Shape) (h : lowLatencyLayout v s true ≠ .error .assertion) :
    (∃ lay, lowLatencyLayout v s true = .ok lay ∧ Carved v s lay) ↔ Defined v s ∧ demand v s < 2 ^ 64 := by
  constructor
  · rintro ⟨lay, hlay, hcarved⟩
    obtain ⟨rfl, hdef, -⟩ := lowLatencyLayout_ok hlay
    exact ⟨hdef, demand_lt_of_carved hdef hcarved⟩
  · rintro ⟨hdef, hlt⟩
    have hlay := lowLatencyLayout_of_defined hdef h
    exact ⟨_, hlay, carved_of_lt hdef hlt ((lowLatencyLayout_ok hlay).2.2 rfl)⟩

/-- A model of 288 experts and 7168 hidden elements on 16 ranks, 128 tokens each. -/
def deployed : Shape := ⟨128, 7168, 16, 288, by decide, by decide, by decide, by decide⟩

/-- With coalescing it is carved as it should be. -/
theorem layout_carves_deployed :
    ∃ lay, lowLatencyLayout .coalesce deployed true = .ok lay ∧ Carved .coalesce deployed lay := by
  have hlay : lowLatencyLayout .coalesce deployed true = .ok ⟨_, buffer .coalesce deployed⟩ :=
    lowLatencyLayout_of_aligned (by decide +kernel) (by decide +kernel) (by decide +kernel)
  refine (layout_carves_iff .coalesce deployed ?_).mpr (by decide +kernel)
  intro h
  cases h

/-- 4096 experts with 2^20 tokens each: the product of the two is 2^32, which as an `int` is 0. -/
def crowded : Shape := ⟨2 ^ 20, 7168, 8, 4096, by decide, by decide, by decide, by decide⟩

/-- No assertion rejects it.  On a machine that wraps, the receive buffers have no byte. -/
theorem layout_crowded_undefined : lowLatencyLayout .default crowded true ≠ .error .assertion ∧
      (¬ ∃ lay, lowLatencyLayout .default crowded true = .ok lay ∧ Carved .default crowded lay) ∧
      Int.bmod (crowded.numExperts * crowded.numMaxDispatchTokensPerRank : ℕ) (2 ^ 32) = 0 := by
  have hundef : ¬ Defined .default crowded := by decide +kernel
  refine ⟨fun h => (by cases h), ?_, by decide +kernel⟩
  rintro ⟨lay, hlay, -⟩
  cases hlay

-- ── The receiver's slot decoding

/-- The receiver of a build: `remote_process_completions_fast_mode` knows of `PER_EXPERT_BATCHING` only. -/
def receiverBuild (v : Variant) : Build := ⟨true, false, false, decide (v = .perExpertBatching)⟩

def receiverEnv (s : Shape) (myRank numNodes : ℕ) : Env := ⟨myRank, s.numRanks, s.numExperts, numNodes⟩

theorem perBufferStride_eq (v : Variant) (s : Shape) (myRank numNodes : ℕ) :
    perBufferStride (receiverBuild v) (receiverEnv s myRank numNodes) =
      align ((if v = .perExpertBatching then max (s.numRanks * s.numRanks) s.numExperts
        else s.numExperts) * 8) 128 := by
  unfold perBufferStride receiverBuild
  by_cases hv : v = .perExpertBatching
  · simp only [hv, decide_true, if_true]
    rfl
  · simp only [hv, decide_false, if_false, Bool.false_eq_true]
    rfl

/-- The two strides. -/
theorem strides (v : Variant) (s : Shape) (myRank numNodes : ℕ) :
    signalingInternodeAligned v s = perBufferStride (receiverBuild v) (receiverEnv s myRank numNodes) ↔
      (v = .coalesce → (s.numExperts + 2 * s.numRanks + 15) / 16 = (s.numExperts + 15) / 16) := by
  rw [perBufferStride_eq, (signaling_eq v s).2]
  by_cases hv : v = .coalesce
  · rw [signals_coalesce hv, if_neg (by rw [hv]; decide)]
    unfold align
    constructor
    · intro h _
      omega
    · intro h
      have h := h hv
      omega
  · refine iff_of_true ?_ fun hc => absurd hc hv
    unfold signals dispatchCounts
    rw [if_neg hv]
    split
    · rfl
    · rw [Nat.max_self]

/-- Decoding with the right stride. -/
theorem newIndex_of_stride {b : Build} {env : Env} {i j : Fin 2} {e stride : ℕ}
    (hstride : perBufferStride b env = stride) (hpos : 0 < stride) (hsmall : stride < 2 ^ 30)
    (hmod : stride % 8 = 0) (he : e * 8 < stride) : newIndex b env (i * stride + 8 * e) j = e ↔ j = i := by
  unfold newIndex
  have hi : i.val = 0 ∨ i.val = 1 := by omega
  have hj : j.val = 0 ∨ j.val = 1 := by omega
  have hval : j = i ↔ j.val = i.val := Fin.ext_iff
  rcases hi with hi | hi <;> rcases hj with hj | hj <;> rw [hi, hj] <;> omega

/-- **The receiver's slot decoding inverts the layout** in every build, but for coalescing only while the flags of
    all ranks do not lengthen the aligned array: the receiver takes the array to hold the counters alone. -/
theorem slot_decoding_iff (v : Variant) (s : Shape) (myRank numNodes : ℕ) (h : lowLatencyLayout v s true = .ok lay) :
    (∀ i j : Fin 2, ∀ c : Cell, c.Used v s →
      (newIndex (receiverBuild v) (receiverEnv s myRank numNodes) ((lay.buffers i).cellAt c) j = c.element s ↔ j = i)) ↔
      (v = .coalesce → (s.numExperts + 2 * s.numRanks + 15) / 16 = (s.numExperts + 15) / 16) := by
  obtain ⟨rfl, hdef, hfit⟩ := lowLatencyLayout_ok h
  have hfit := hfit rfl
  unfold kAtomicBufferSize at hfit
  have hle := internode_le v s
  have hmod : signalingInternodeAligned v s % 128 = 0 := by
    exact (align_bounds _).2.2
  constructor
  · intro hall
    refine (strides v s myRank numNodes).mp ?_
    by_contra hne
    -- only with coalescing do the strides differ; there the first counter of the second parity fails
    have hv : v = .coalesce := by
      by_contra hv
      exact hne ((strides v s myRank numNodes).mpr fun hc => absurd hc hv)
    have hpos : 0 < signals v s := by
      have hranks := hdef.2.2 hv
      rw [signals_coalesce hv]
      omega
    obtain ⟨c, hc, hzero⟩ := Cell.exists_used hpos
    have hdecode := (hall 1 1 c hc).mpr rfl
    have hstride := perBufferStride_eq v s myRank numNodes
    rw [if_neg (by rw [hv]; decide)] at hstride
    have hexp := experts_le_signals v s
    have hlay := (signaling_eq v s).2
    have hat : (buffer v s 1).cellAt c = signalingInternodeAligned v s := by
      rw [cellAt_eq, hzero]
      simp
    rw [hzero] at hdecode
    rw [hat] at hdecode
    unfold newIndex at hdecode
    unfold align at hstride hlay
    omega
  · intro hcond i j c hc
    have hstride := (strides v s myRank numNodes).mpr hcond
    have hel := Cell.element_lt hc
    rw [cellAt_eq]
    exact newIndex_of_stride hstride.symm (by omega) (by omega) (by omega) (by omega)

/-- With batching, the deployed shape is decoded. -/
theorem slot_decoding_deployed :
    ∃ lay, lowLatencyLayout .perExpertBatching deployed true = .ok lay ∧ ∀ i j : Fin 2, ∀ c : Cell,
      c.Used .perExpertBatching deployed → (newIndex (receiverBuild .perExpertBatching) (receiverEnv deployed 0 2)
          ((lay.buffers i).cellAt c) j = c.element deployed ↔ j = i) := by
  have hlay : lowLatencyLayout .perExpertBatching deployed true = .ok ⟨_, buffer _ deployed⟩ :=
    lowLatencyLayout_of_aligned (by decide +kernel) (by decide +kernel) (by decide +kernel)
  exact ⟨_, hlay, (slot_decoding_iff .perExpertBatching deployed 0 2 hlay).mpr fun h => (by cases h)⟩

/-- With coalescing its array has 320 elements, the receiver assumes 288: the first counter of the
    second parity is taken for the one with index 32. -/
theorem slot_decoding_coalesced : ∃ lay, lowLatencyLayout .coalesce deployed true = .ok lay ∧
      (Cell.count 0).Used .coalesce deployed ∧
      newIndex (receiverBuild .coalesce) (receiverEnv deployed 0 2) ((lay.buffers 1).cellAt (.count 0)) 1 = 32 := by
  have hlay : lowLatencyLayout .coalesce deployed true = .ok ⟨_, buffer _ deployed⟩ :=
    lowLatencyLayout_of_aligned (by decide +kernel) (by decide +kernel) (by decide +kernel)
  have hused : 0 < if Variant.coalesce = .coalesce then deployed.numExperts
      else signals .coalesce deployed := by decide +kernel
  exact ⟨_, hlay, hused, by decide +kernel⟩

end EpLayout
