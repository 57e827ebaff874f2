import Uccl.EpImmProofs
import Uccl.OrderedSetProofs

/-! # What a proxy does with an immediate

    `remote_process_completions` looks at the immediate of every completed write and branches on its kind. An
    atomic becomes a `fetch_add` on the atomic buffer, at once (normal mode, or a build without a receiver
    barrier), in sequence (normal mode over EFA: the reorder buffers `seqbufs`), or once all the tokens it
    announces have been counted (low-latency mode with `USE_RECEIVER_BARRIER`: `pending`, the token counters). A
    barrier message changes the barrier state. A data write changes at most the token counters (`receive_write`).

    `adds` is the sequence of `fetch_add`s on the atomic buffer, as (64-bit word, value). `pending` is the set the
    caller passes in. -/

namespace EpReceive

open EpImm Except AtomicsImm

-- ── Configuration

/-- The compile-time switches that the immediates depend on. -/
structure Build where
  efa : Bool
  senderBarrier : Bool
  softwareOrdering : Bool
  perExpertBatching : Bool

/-- `USE_RECEIVER_BARRIER` is defined under EFA unless `USE_SENDER_BARRIER` is. -/
def Build.receiverBarrier (b : Build) : Bool := b.efa && !b.senderBarrier

structure Env where
  myRank : ℕ
  numRanks : ℕ
  numExperts : ℕ
  numNodes : ℕ

def kMaxSendAtomicValue : ℤ := 16383
def kLargeAtomicValue : ℤ := 33550000
def kReorderingBufferSize : ℕ := 16

/-- `align` to a multiple -/
def align (value alignment : ℕ) : ℕ := (value + alignment - 1) / alignment * alignment

/-- `per_buffer_stride`: the bytes between the two halves of the signalling buffer. -/
def perBufferStride (b : Build) (e : Env) : ℕ :=
  if b.perExpertBatching then align (max (e.numRanks * e.numRanks) e.numExperts * 8) 128
  else align (e.numExperts * 8) 128

-- ── State

/-- An atomic whose tokens have not all arrived. -/
structure PendingUpdate where
  /-- the 64-bit word of the atomic buffer -/
  addr : ℕ
  value : ℤ
  imm : Imm
  bufferIdx : ℕ
  expertIdx : ℕ
  isCombine : Bool
  /-- `-1` for a combine -/
  srcRank : ℤ
  deriving DecidableEq

/-- `operator<`: by address, value, immediate. -/
def PendingUpdate.lt (x y : PendingUpdate) : Bool :=
  if x.addr ≠ y.addr then decide (x.addr < y.addr)
  else if x.value ≠ y.value then decide (x.value < y.value)
  else decide (x.imm.toNat < y.imm.toNat)

/-- The reorder buffer of one word: the next number expected and what came early. -/
structure SeqBuf where
  expected : ℕ := 0
  presentMask : BitVec 16 := 0#16
  vals : ℕ → ℤ := fun _ => 0

structure Receiver where
  adds : List (ℕ × ℤ)
  pending : List PendingUpdate
  seqbufs : ℕ → SeqBuf
  /-- `dispatch_token_counter`, by (buffer, expert, source) -/
  dispatchTokens : ℕ × ℕ × ℤ → ℕ
  /-- `combine_token_counter`, by (buffer, expert) -/
  combineTokens : ℕ × ℕ → ℕ
  barrierArrived : List Bool
  barrierArrivalCount : ℕ
  barrierReleased : Bool
  barrierReleaseSeq : ℕ

def Receiver.init : Receiver :=
  { adds := [], pending := [], seqbufs := fun _ => {}, dispatchTokens := fun _ => 0,
    combineTokens := fun _ => 0, barrierArrived := [], barrierArrivalCount := 0,
    barrierReleased := false, barrierReleaseSeq := 0 }

/-- Assertions and aborts on the way. -/
inductive Fault
  /-- "Reorderable atomic operations should not be triggered" -/
  | reorderable
  /-- "Error: duplicate seq %u arrival" -/
  | duplicateSeq
  /-- "Error: expert_idx %d out of range (num_experts=%d)" -/
  | expertRange
  /-- the expert of a combine write belongs to its source -/
  | combineExpert
  /-- "Combine atomic value should be non-negative" -/
  | combineValue
  /-- "Dispatch atomic value should be <= -1" -/
  | dispatchValue
  /-- "Barrier arrival count should be 0" -/
  | arrivalCount
  /-- "Duplicate barrier arrival or local_rank out of range" -/
  | duplicateArrival
  /-- "Rank 0 should not receive barrier ack" -/
  | rankZeroAck
  /-- "Non-leader rank should not receive barrier request" -/
  | nonLeaderRequest
  deriving DecidableEq

def fetchAdd (s : Receiver) (index : ℕ) (value : ℤ) : Receiver :=
  { s with adds := s.adds ++ [(index, value)] }

/-- `TokenCounter::Add` and `Reset` on the two counters. -/
def Receiver.addDispatch (s : Receiver) (key : ℕ × ℕ × ℤ) (k : ℕ) : Receiver :=
  { s with dispatchTokens := Function.update s.dispatchTokens key (s.dispatchTokens key + k) }

def Receiver.resetDispatch (s : Receiver) (key : ℕ × ℕ × ℤ) : Receiver :=
  { s with dispatchTokens := Function.update s.dispatchTokens key 0 }

def Receiver.addCombine (s : Receiver) (key : ℕ × ℕ) (k : ℕ) : Receiver :=
  { s with combineTokens := Function.update s.combineTokens key (s.combineTokens key + k) }

def Receiver.resetCombine (s : Receiver) (key : ℕ × ℕ) : Receiver :=
  { s with combineTokens := Function.update s.combineTokens key 0 }

-- ── Normal mode: atomics in sequence

/-- The drain loop: commit what is buffered under the expected number and its successors. -/
def drain (index : ℕ) : ℕ → Receiver → Receiver
  | 0, s => s
  | n + 1, s =>
    let sb := s.seqbufs index
    if sb.presentMask.getLsbD sb.expected then
      let sb' : SeqBuf := { sb with
        presentMask := sb.presentMask &&& ~~~(1#16 <<< sb.expected)
        expected := (sb.expected + 1) % kReorderingBufferSize }
      drain index n
        { fetchAdd s index (sb.vals sb.expected) with seqbufs := Function.update s.seqbufs index sb' }
    else s

/-- A reorderable atomic: commit it if it is the expected one, else keep it. -/
def receiveReorderable (s : Receiver) (index : ℕ) (value : ℤ) (seq : ℕ) : Except Fault Receiver :=
  let sb := s.seqbufs index
  if seq = sb.expected then
    let sb' : SeqBuf := { sb with expected := (sb.expected + 1) % kReorderingBufferSize }
    .ok (drain index kReorderingBufferSize
      { fetchAdd s index value with seqbufs := Function.update s.seqbufs index sb' })
  else if sb.presentMask.getLsbD seq then .error .duplicateSeq
  else
    let sb' : SeqBuf := { sb with
      presentMask := sb.presentMask ||| (1#16 <<< seq), vals := Function.update sb.vals seq value }
    .ok { s with seqbufs := Function.update s.seqbufs index sb' }

def receiveAtomicNormal (b : Build) (s : Receiver) (imm : Imm) : Except Fault Receiver :=
  let index := (getOff imm).toNat / 8
  let value := if getValue imm = kMaxSendAtomicValue then kLargeAtomicValue
    else getValue imm
  if !isReorderable imm then .ok (fetchAdd s index value)
  else if !b.efa then .error .reorderable
  else receiveReorderable s index value (getSeq imm).toNat

-- ── Low-latency mode: atomics after their tokens

/-- `new_offset / 8`: the word counted from the start of its half of the signalling buffer.
    The subtraction is 64 bits wide and the result is cut to 32. -/
def newIndex (b : Build) (e : Env) (offset bufferIdx : ℕ) : ℕ :=
  (((offset : ℤ) - bufferIdx * perBufferStride b e) % 2 ^ 32).toNat / 8

/-- A dispatch atomic: `-value - 1` tokens were announced for (buffer, expert, source). -/
def receiveDispatch (s : Receiver) (imm : Imm) (value : ℤ) (index buf expert : ℕ) (src : ℤ) :
    Receiver :=
  if -value - 1 = s.dispatchTokens (buf, expert, src) then
    fetchAdd (s.resetDispatch (buf, expert, src)) index value
  else { s with pending := OrderedSet.insert PendingUpdate.lt ⟨index, value, imm, buf, expert, false, src⟩ s.pending }

/-- A combine atomic: `value` tokens were announced for (buffer, expert); the word gets 1. -/
def receiveCombine (s : Receiver) (imm : Imm) (value : ℤ) (index buf expert : ℕ) : Receiver :=
  if value = s.combineTokens (buf, expert) then
    fetchAdd (s.resetCombine (buf, expert)) index 1
  else { s with pending := OrderedSet.insert PendingUpdate.lt ⟨index, value, imm, buf, expert, true, -1⟩ s.pending }

/-- An atomic under `USE_RECEIVER_BARRIER`. -/
def receiveAtomicCounted (b : Build) (e : Env) (s : Receiver) (imm : Imm) : Except Fault Receiver :=
  let value := getValue imm
  let offset := (getOff imm).toNat <<< 3
  let index := offset / 8
  let buf := getBufferIdx imm
  let i := newIndex b e offset buf
  if !isCombine imm then
    .ok (receiveDispatch s imm value index buf (i / e.numRanks) (i % e.numRanks : ℕ))
  else if e.numExperts < i then .error .expertRange
  else .ok (receiveCombine s imm value index buf i)

/-- An atomic without a receiver barrier. Under `USE_SENDER_BARRIER` off EFA the receive is only replenished. -/
def receiveAtomicPlain (b : Build) (s : Receiver) (imm : Imm) : Except Fault Receiver :=
  let index := ((getOff imm).toNat <<< 3) / 8
  let combine := isCombine imm
  let value := if b.senderBarrier ∧ combine then 1 else getValue imm
  if b.senderBarrier ∧ !b.efa then .ok s
  else
    let value := if value = kMaxSendAtomicValue then kLargeAtomicValue else value
    if combine ∧ value < 0 then .error .combineValue
    else if !combine ∧ -1 < value then .error .dispatchValue
    else .ok (fetchAdd s index (if combine then 1 else value))

def receiveAtomicFast (b : Build) (e : Env) (s : Receiver) (imm : Imm) : Except Fault Receiver :=
  if b.receiverBarrier then receiveAtomicCounted b e s imm else receiveAtomicPlain b s imm

/-- A data write in low-latency mode: its tokens are counted under `USE_RECEIVER_BARRIER`. -/
def receiveWriteFast (b : Build) (e : Env) (s : Receiver) (imm : Imm) : Except Fault Receiver :=
  if b.receiverBarrier then
    let buf := WriteImm.getBufferIdx imm
    let expert := WriteImm.getExpertIdx imm
    let k := WriteImm.getNumTokens imm
    let src := WriteImm.getRank imm
    if !WriteImm.isCombine imm then
      .ok (s.addDispatch (buf, expert, src) k)
    else if src * (e.numExperts / e.numRanks) ≤ expert ∧ expert < (src + 1) * (e.numExperts / e.numRanks) then
      .ok (s.addCombine (buf, expert) k)
    else .error .combineExpert
  else .ok s

-- ── Barrier messages, and the branch on the kind

def receiveBarrier (e : Env) (s : Receiver) (imm : Imm) : Except Fault Receiver :=
  if e.myRank = 0 then
    if !BarrierImm.getIsAck imm then
      if s.barrierArrived = [] ∧ s.barrierArrivalCount ≠ 0 then .error .arrivalCount
      else
        let arrived := if s.barrierArrived = [] then List.replicate e.numNodes false else s.barrierArrived
        let nodeRank := (BarrierImm.getRank imm).toNat / (e.numRanks / e.numNodes)
        if nodeRank < arrived.length ∧ arrived.getD nodeRank false = false then
          .ok { s with barrierArrived := arrived.set nodeRank true,
                       barrierArrivalCount := s.barrierArrivalCount + 1 }
        else .error .duplicateArrival
    else .error .rankZeroAck
  else if BarrierImm.getIsAck imm then
    .ok { s with barrierReleased := true, barrierReleaseSeq := (BarrierImm.getSeq imm).toNat }
  else .error .nonLeaderRequest

/-- `remote_process_completions` on one completion with immediate. -/
def remoteProcessCompletion (b : Build) (normal : Bool) (e : Env) (s : Receiver) (imm : Imm) :
    Except Fault Receiver :=
  if ImmType.isAtomics imm then
    if normal then receiveAtomicNormal b s imm else receiveAtomicFast b e s imm
  else if ImmType.isBarrier imm then receiveBarrier e s imm
  else if normal then .ok s
  else receiveWriteFast b e s imm

-- ── apply_pending_updates

/-- One entry of the loop: apply it if its tokens are in, else keep it. -/
def applyUpdate (s : Receiver) (u : PendingUpdate) : Receiver :=
  if !u.isCombine then
    if -u.value - 1 = s.dispatchTokens (u.bufferIdx, u.expertIdx, u.srcRank) then
      fetchAdd (s.resetDispatch (u.bufferIdx, u.expertIdx, u.srcRank)) u.addr u.value
    else { s with pending := s.pending ++ [u] }
  else if u.value = s.combineTokens (u.bufferIdx, u.expertIdx) then
    fetchAdd (s.resetCombine (u.bufferIdx, u.expertIdx)) u.addr 1
  else { s with pending := s.pending ++ [u] }

/-- `apply_pending_updates`: walk the set in order; what is not erased stays where it is. -/
def applyPendingUpdates (s : Receiver) : Receiver :=
  s.pending.foldl applyUpdate { s with pending := [] }

-- ── Data writes leave the atomics and the barrier alone

/-- Nothing but the token counters differs. -/
structure SameControl (s s' : Receiver) : Prop where
  adds : s'.adds = s.adds
  pending : s'.pending = s.pending
  seqbufs : s'.seqbufs = s.seqbufs
  barrierArrived : s'.barrierArrived = s.barrierArrived
  barrierArrivalCount : s'.barrierArrivalCount = s.barrierArrivalCount
  barrierReleased : s'.barrierReleased = s.barrierReleased
  barrierReleaseSeq : s'.barrierReleaseSeq = s.barrierReleaseSeq

theorem SameControl.refl (s : Receiver) : SameControl s s := ⟨rfl, rfl, rfl, rfl, rfl, rfl, rfl⟩

/-- **A WRITE IS NO CONTROL MESSAGE**: it changes neither the atomic buffer, nor what is going to be added to it, nor
    the barrier state. -/
theorem receive_write {b : Build} {normal : Bool} {e : Env} {s s' : Receiver} {imm : Imm}
    (hw : ImmType.isWrite imm = true) (h : remoteProcessCompletion b normal e s imm = .ok s') : SameControl s s' := by
  obtain ⟨ha, hb⟩ := (isWrite_iff imm).mp hw
  unfold remoteProcessCompletion at h
  rw [ha, hb] at h
  have h : (if normal then .ok s else receiveWriteFast b e s imm) = Except.ok s' := h
  split at h
  · cases h
    exact .refl s
  · unfold receiveWriteFast at h
    split at h
    · dsimp only at h
      split at h
      · cases h
        exact ⟨rfl, rfl, rfl, rfl, rfl, rfl, rfl⟩
      · split at h
        · cases h
          exact ⟨rfl, rfl, rfl, rfl, rfl, rfl, rfl⟩
        · cases h
    · cases h
      exact .refl s

end EpReceive
