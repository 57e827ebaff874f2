import Uccl.EpCommandProofs
import Uccl.EpReorderProofs

/-! # Atomics from the GPU to the atomic buffer

    A GPU thread adds to a word of a remote atomic buffer in one of two ways: with an ATOMIC command
    (`nvshmemi_ibgda_amo_nonfetch_add`), or, in normal mode, along with a WRITE (`atomic_offset` and
    `atomic_val` of `nvshmemi_ibgda_put_nbi_warp`). The proxy turns either into the immediate of an RDMA
    write, and the receiving proxy decodes it and does the addition.

    On the way the value passes a saturation and a reserved number (16383 stands for `kLargeAtomicValue`), and
    the offset passes masks of 16 and 13 bits, although the buffer has 81960 bytes. Some encoders assert that
    a field fits, some cut it silently. `atomic_faithful_iff` says for every request whether the sender
    refuses it, the right amount gets to the right word, or something else happens. -/

namespace EpAtomic

open StepRun EpImm EpReceive EpPost EpCommand EpReorder AtomicsImm Except Nat AtomicsImm

def kAtomicBufferSize : ℕ := 81960

-- ── The sender

/-- The ATOMIC command of `nvshmemi_ibgda_amo_nonfetch_add` for the word at byte `off`. -/
def amoCommand (off : ℕ) (value : BitVec 32) (dstRank : BitVec 8) (isCombine bufferIdx : Bool) :
    EpCommand.TransferCmd :=
  { cmdType := makeCmdType .atomic isCombine bufferIdx, dstRank := dstRank, atomicVal := 0#8,
    bytes := 0#24, reqRptr := BitVec.ofNat 32 off, lptrOrValue := value, slot := 0#16 }

/-- `AtomicsImm::PackAtomic` -/
def packAtomic (v15 : ℤ) (offAlignedBytes : BitVec 16) : Option Imm :=
  if offAlignedBytes &&& 0x3#16 = 0#16 then
    pack true false v15 (offAlignedBytes &&& 0x1FFF#16) false false
  else none

/-- The two range checks in front of an immediate. -/
def outOfRange (v : ℤ) : Prop := v < -kMaxSendAtomicValue ∨ kMaxSendAtomicValue < v
deriving Decidable

/-- An assertion of the packing functions. -/
def packed : Option Imm → Except Abort Imm
  | none => .error .assertion
  | some imm => .ok imm

/-- `if (v > kLargeAtomicValue) v = kMaxSendAtomicValue;` -/
def saturate (v : ℤ) : ℤ := if kLargeAtomicValue < v then kMaxSendAtomicValue else v

/-- `if (v == kLargeAtomicValue) v = kMaxSendAtomicValue;` -/
def encodeLarge (v : ℤ) : ℤ := if v = kLargeAtomicValue then kMaxSendAtomicValue else v

/-- `post_atomic_operations_normal_mode`, the immediate of one command -/
def postAtomicNormal (b : Build) (c : EpCommand.TransferCmd) : Except Abort Imm :=
  let v := saturate c.lptrOrValue.toInt
  if outOfRange v then .error .valueRange
  else if b.efa then packed (packAtomic v (c.reqRptr.setWidth 16))
  else packed (pack true (getIsCombine c.cmdType) v ((c.reqRptr &&& 0xFFFF#32).setWidth 16)
    (getLowLatency c.cmdType) false)

/-- `post_atomic_operations_fast_mode`, the immediate of one command: the offset in words -/
def postAtomicFast (c : EpCommand.TransferCmd) : Except Abort Imm :=
  let v := encodeLarge c.lptrOrValue.toInt
  if outOfRange v then .error .valueRange
  else packed (pack true (getIsCombine c.cmdType) v ((c.reqRptr >>> 3).setWidth 16)
    (getLowLatency c.cmdType) false)

/-- What the device code asks for. -/
inductive Request
  /-- an ATOMIC command, in normal or in low-latency mode -/
  | amo (normal : Bool) (value : BitVec 32) (dstRank : BitVec 8) (isCombine bufferIdx : Bool)
  /-- `atomic_val` of a normal-mode WRITE with the other fields of `c` -/
  | put (c : EpPost.TransferCmd) (val : BitVec 64)

open Request

def Request.normal : Request → Bool
  | .amo normal .. => normal
  | .put .. => true

def Request.value : Request → ℤ
  | .amo _ value .. => value.toInt
  | .put _ val => val.toNat

/-- The WRITE command: the FIFO backend cuts the offset to 16 and the value to 8 bits. -/
def putCommand (off : ℕ) (c : EpPost.TransferCmd) (val : BitVec 64) : EpPost.TransferCmd :=
  { c with slot := BitVec.ofNat 16 off, atomicVal := val.setWidth 8 }

/-- The immediate of a request for the word at byte `off` of another rank, if there is one; a request for the own
    rank aborts before. -/
def Request.send (b : Build) (ctx : Ctx) (off : ℕ) : Request → Except Abort (Option Imm)
  | .amo true value dst isCombine bufferIdx =>
    (postAtomicNormal b (decodePackedTransferCmd (push (packTransferCmd
      (amoCommand off value dst isCombine bufferIdx))))).map some
  | .amo false value dst isCombine bufferIdx =>
    (postAtomicFast (decodePackedTransferCmd (push (packTransferCmd
      (amoCommand off value dst isCombine bufferIdx))))).map some
  | .put c val =>
    if (putCommand off c val).piggybacks then
      (piggyback b ctx (putCommand off c val)).map fun r => some r.1
    else .ok none

-- ── The receiver

/-- Nothing holds the atomic of an immediate back: over EFA it is the next of its word, with a
    receiver barrier the tokens it announces have been counted. -/
def Ready (b : Build) (normal : Bool) (env : Env) (s : Receiver) (imm : Imm) : Prop :=
  if normal then
    isReorderable imm = true →
      (s.seqbufs ((getOff imm).toNat / 8)).expected = (getSeq imm).toNat ∧
        (s.seqbufs ((getOff imm).toNat / 8)).presentMask = 0#16
  else if b.receiverBarrier then
    let buf := getBufferIdx imm
    let i := newIndex b env ((getOff imm).toNat <<< 3) buf
    if isCombine imm then getValue imm = s.combineTokens (buf, i)
    else -getValue imm - 1 =
      s.dispatchTokens (buf, i / env.numRanks, ((i % env.numRanks : ℕ) : ℤ))
  else True

/-- The receiver adds exactly this to exactly this word, in every state in which nothing holds the atomic back, and
    there is one. -/
def Adds (b : Build) (normal : Bool) (env : Env) (imm : Imm) (word : ℕ) (value : ℤ) : Prop :=
  (∃ s, Ready b normal env s imm) ∧
    ∀ s, Ready b normal env s imm → ∃ s', remoteProcessCompletion b normal env s imm = .ok s' ∧
      s'.adds = s.adds ++ [(word, value)]

/-- What is sent makes the receiver add this to this word; only for the value 0 may nothing be sent. -/
def Lands (b : Build) (normal : Bool) (env : Env) (word : ℕ) (value : ℤ) : Option Imm → Prop
  | none => value = 0
  | some imm => Adds b normal env imm word value

/-- The sender refuses, or this amount gets to this word. -/
def Request.Delivers (b : Build) (env : Env) (ctx : Ctx) (off : ℕ) (r : Request) (word : ℕ) (value : ℤ) :
    Prop :=
  ∀ out, r.send b ctx off = .ok out → Lands b r.normal env word value out

/-- The sender refuses, or the right amount gets to the right word. -/
def Request.Faithful (b : Build) (env : Env) (ctx : Ctx) (off : ℕ) (r : Request) : Prop :=
  r.Delivers b env ctx off (off / 8) r.value

-- ── What the receiver makes of an immediate

section Receive

variable {b : Build} {env : Env} {c l : Bool} {v : ℤ} {off : BitVec 16} {word : ℕ} {value : ℤ} {imm : Imm}

theorem isReorderable_word (a c l r : Bool) : isReorderable (AtomicsImm.word a c v off l r) = r := by
  cases a <;> cases c <;> cases l <;> cases r <;> simp [isReorderable, AtomicsImm.word]

/-- The value the receiver reads for 16383. -/
def decodeLarge (v : ℤ) : ℤ := if v = kMaxSendAtomicValue then kLargeAtomicValue else v

theorem append_singleton_inj {l : List (ℕ × ℤ)} {x y : ℕ × ℤ} : l ++ [x] = l ++ [y] ↔ x = y := by
  rw [List.append_cancel_left_eq, List.cons.injEq, and_iff_left rfl]

/-- An immediate that makes the receiver add `x` in every state that does not hold it back. -/
theorem adds_iff_of_step {normal : Bool} (x : ℕ × ℤ) (hready : ∃ s, Ready b normal env s imm)
    (hstep : ∀ s, Ready b normal env s imm → ∃ s',
      remoteProcessCompletion b normal env s imm = .ok s' ∧ s'.adds = s.adds ++ [x]) :
    Adds b normal env imm word value ↔ word = x.1 ∧ value = x.2 := by
  constructor
  · rintro ⟨⟨s, hs⟩, hall⟩
    obtain ⟨s', hrun, hadds⟩ := hstep s hs
    obtain ⟨s'', hrun', hadds'⟩ := hall s hs
    rw [← ok.inj (hrun.symm.trans hrun'), hadds] at hadds'
    rw [append_singleton_inj.mp hadds']
    exact ⟨rfl, rfl⟩
  · rintro ⟨rfl, rfl⟩
    exact ⟨hready, hstep⟩

/-- Normal mode, not numbered: at once. -/
theorem adds_normal (hv : AtomicsImm.InRange v) (hoff : off.toNat ≤ 0x1FFF) :
    Adds b true env (AtomicsImm.word true c v off l false) word value ↔
      word = off.toNat / 8 ∧ value = decodeLarge v := by
  have hstep : ∀ s, remoteProcessCompletion b true env s (AtomicsImm.word true c v off l false)
      = .ok (fetchAdd s (off.toNat / 8) (decodeLarge v)) := by
    intro s
    unfold remoteProcessCompletion receiveAtomicNormal
    simp only [isAtomics_word, isReorderable_word, getOff_word _ _ _ _ hoff,
      getValue_word _ _ _ _ hv, if_true, Bool.not_false]
    rfl
  have hready : ∀ s, Ready b true env s (AtomicsImm.word true c v off l false) := by
    intro s hr
    rw [isReorderable_word] at hr
    cases hr
  exact adds_iff_of_step (off.toNat / 8, decodeLarge v) ⟨Receiver.init, hready _⟩ fun s _ => ⟨_, hstep s, rfl⟩

/-- Over EFA, numbered: when it is its turn. -/
theorem adds_numbered {w seq : ℕ} (h : Carries imm w v seq) (hefa : b.efa = true) (hv : v ≠ kMaxSendAtomicValue) :
    Adds b true env imm word value ↔ word = w ∧ value = v := by
  have hready : ∀ s, Ready b true env s imm ↔ (s.seqbufs w).expected = seq ∧ (s.seqbufs w).presentMask = 0#16 := by
    intro s
    unfold Ready
    rw [h.word, h.seq]
    exact ⟨fun hr => hr h.reorderable, fun hr _ => hr⟩
  have hstep : ∀ s, Ready b true env s imm → ∃ s',
      remoteProcessCompletion b true env s imm = .ok s' ∧ s'.adds = s.adds ++ [(w, v)] := by
    intro s hs
    obtain ⟨hexp, hmask⟩ := (hready s).mp hs
    refine ⟨_, (receive_carried h hefa hv).trans (receive_expected hexp.symm), ?_⟩
    have hempty : ¬ ((commit s w v (nextOf (s.seqbufs w))).seqbufs w).presentMask.getLsbD
        ((commit s w v (nextOf (s.seqbufs w))).seqbufs w).expected = true := by
      rw [commit_seqbufs]
      show ¬ (s.seqbufs w).presentMask.getLsbD _ = true
      rw [hmask, BitVec.getLsbD_zero]
      exact Bool.false_ne_true
    show (drain w (15 + 1) _).adds = _
    rw [drain_miss hempty]
    rfl
  have hexists : ∃ s, Ready b true env s imm :=
    ⟨{ Receiver.init with seqbufs := fun _ => { expected := seq } }, (hready _).mpr ⟨rfl, rfl⟩⟩
  exact adds_iff_of_step (w, v) hexists hstep

/-- A numbered atomic is an assertion failure for a receiver without EFA. -/
theorem not_adds_numbered (ha : ImmType.isAtomics imm = true) (hr : isReorderable imm = true) (hefa : b.efa = false) :
    ¬ Adds b true env imm word value := by
  rintro ⟨⟨s, hs⟩, hall⟩
  obtain ⟨s', hrun, -⟩ := hall s hs
  unfold remoteProcessCompletion receiveAtomicNormal at hrun
  simp only [ha, hr, hefa, if_true, Bool.not_true, Bool.false_eq_true, if_false, Bool.not_false] at hrun
  cases hrun

theorem shift_three (n : ℕ) : n <<< 3 / 8 = n := by
  omega

section Counted

variable (hb : b.receiverBarrier = true) (hv : AtomicsImm.InRange v) (hoff : off.toNat ≤ 0x1FFF)
include hb hv hoff

/-- With a receiver barrier, a dispatch: when `-v - 1` tokens are counted. -/
theorem adds_dispatch : Adds b false env (AtomicsImm.word true false v off l false) word value ↔
    v ≤ -1 ∧ word = off.toNat ∧ value = v := by
  have hready : ∀ s, Ready b false env s (AtomicsImm.word true false v off l false) ↔
      -v - (1 : ℤ) = s.dispatchTokens (l.toNat, newIndex b env (off.toNat <<< 3) l.toNat / env.numRanks,
        ((newIndex b env (off.toNat <<< 3) l.toNat % env.numRanks : ℕ) : ℤ)) := by
    intro s
    unfold Ready
    rw [if_pos hb]
    simp only [isCombine_word, getBufferIdx_word, getValue_word _ _ _ _ hv,
      getOff_word _ _ _ _ hoff, Bool.false_eq_true, if_false]
  have hstep : ∀ s, Ready b false env s (AtomicsImm.word true false v off l false) → ∃ s',
      remoteProcessCompletion b false env s (AtomicsImm.word true false v off l false) = .ok s' ∧
        s'.adds = s.adds ++ [(off.toNat, v)] := by
    intro s hs
    unfold remoteProcessCompletion receiveAtomicFast receiveAtomicCounted receiveDispatch
    simp only [isAtomics_word, isCombine_word, getBufferIdx_word,
      getValue_word _ _ _ _ hv, getOff_word _ _ _ _ hoff, shift_three, hb, if_true,
      Bool.false_eq_true, if_false, Bool.not_false, if_pos ((hready s).mp hs)]
    exact ⟨_, rfl, rfl⟩
  by_cases hneg : v ≤ -1
  · have hexists : ∃ s, Ready b false env s (AtomicsImm.word true false v off l false) := by
      refine ⟨{ Receiver.init with dispatchTokens := fun _ => (-v - 1).toNat }, (hready _).mpr ?_⟩
      show -v - 1 = ((-v - 1).toNat : ℤ)
      omega
    rw [adds_iff_of_step (off.toNat, v) hexists hstep, and_iff_right hneg]
  · refine iff_of_false ?_ fun h => hneg h.1
    rintro ⟨⟨s, hs⟩, -⟩
    have := (hready s).mp hs
    omega

/-- A combine: when `v` tokens are counted, and then the receiver adds 1. -/
theorem adds_combine : Adds b false env (AtomicsImm.word true true v off l false) word value ↔
    (0 ≤ v ∧ newIndex b env (off.toNat <<< 3) l.toNat ≤ env.numExperts) ∧ word = off.toNat ∧ value = 1 := by
  have hready : ∀ s, Ready b false env s (AtomicsImm.word true true v off l false) ↔
      v = s.combineTokens (l.toNat, newIndex b env (off.toNat <<< 3) l.toNat) := by
    intro s
    unfold Ready
    rw [if_neg Bool.false_ne_true, if_pos hb]
    simp only [isCombine_word, getBufferIdx_word, getValue_word _ _ _ _ hv, getOff_word _ _ _ _ hoff, if_true]
  have hrun : ∀ s, Ready b false env s (AtomicsImm.word true true v off l false) →
      remoteProcessCompletion b false env s (AtomicsImm.word true true v off l false)
        = if env.numExperts < newIndex b env (off.toNat <<< 3) l.toNat then .error .expertRange
          else .ok (fetchAdd (s.resetCombine (l.toNat, newIndex b env (off.toNat <<< 3) l.toNat)) off.toNat 1) := by
    intro s hs
    unfold remoteProcessCompletion receiveAtomicFast receiveAtomicCounted receiveCombine
    simp only [isAtomics_word, isCombine_word, getBufferIdx_word,
      getValue_word _ _ _ _ hv, getOff_word _ _ _ _ hoff, shift_three, hb, if_true,
      Bool.false_eq_true, if_false, Bool.not_true, if_pos ((hready s).mp hs)]
  by_cases hfit : 0 ≤ v ∧ newIndex b env (off.toNat <<< 3) l.toNat ≤ env.numExperts
  · have hexists : ∃ s, Ready b false env s (AtomicsImm.word true true v off l false) := by
      refine ⟨{ Receiver.init with combineTokens := fun _ => v.toNat }, (hready _).mpr ?_⟩
      show v = (v.toNat : ℤ)
      omega
    have hstep : ∀ s, Ready b false env s (AtomicsImm.word true true v off l false) → ∃ s',
        remoteProcessCompletion b false env s (AtomicsImm.word true true v off l false) = .ok s' ∧
          s'.adds = s.adds ++ [(off.toNat, 1)] := by
      intro s hs
      rw [hrun s hs, if_neg (by omega)]
      exact ⟨_, rfl, rfl⟩
    rw [adds_iff_of_step (off.toNat, 1) hexists hstep, and_iff_right hfit]
  · refine iff_of_false ?_ fun h => hfit h.1
    rintro ⟨⟨s, hs⟩, hall⟩
    obtain ⟨s', hs', -⟩ := hall s hs
    rw [hrun s hs] at hs'
    split at hs'
    · cases hs'
    next hle =>
      have := (hready s).mp hs
      exact hfit ⟨by omega, by omega⟩

end Counted

/-- Low-latency mode without a receiver barrier: at once, but a dispatch has to be negative and a
    combine must not be, and under `USE_SENDER_BARRIER` off EFA nothing is added. -/
theorem adds_plain (hb : b.receiverBarrier = false) (hv : AtomicsImm.InRange v) (hoff : off.toNat ≤ 0x1FFF) :
    Adds b false env (AtomicsImm.word true c v off l false) word value ↔
      ¬ (b.senderBarrier = true ∧ b.efa = false) ∧ (if c then b.senderBarrier = true ∨ 0 ≤ v else v ≤ -1) ∧
        word = off.toNat ∧ value = if c then 1 else v := by
  have hrun : ∀ s, remoteProcessCompletion b false env s (AtomicsImm.word true c v off l false)
      = receiveAtomicPlain b s (AtomicsImm.word true c v off l false) := by
    intro s
    unfold remoteProcessCompletion receiveAtomicFast
    simp only [isAtomics_word, hb, if_true, Bool.false_eq_true, if_false]
  have hready : ∀ s, Ready b false env s (AtomicsImm.word true c v off l false) := by
    intro s
    unfold Ready
    rw [if_neg Bool.false_ne_true, if_neg (by rw [hb]; exact Bool.false_ne_true)]
    trivial
  have hsign : (decodeLarge v < 0 ↔ v < 0) ∧ (-1 < decodeLarge v ↔ -1 < v) ∧ (¬ -1 < v → decodeLarge v = v) := by
    unfold decodeLarge kMaxSendAtomicValue kLargeAtomicValue
    split <;> omega
  have hplain : ∀ s, receiveAtomicPlain b s (AtomicsImm.word true c v off l false)
      = if b.senderBarrier = true ∧ b.efa = false then .ok s
        else if c = true ∧ b.senderBarrier = false ∧ v < 0 then .error .combineValue
        else if c = false ∧ -1 < v then .error .dispatchValue
        else .ok (fetchAdd s off.toNat (if c then 1 else decodeLarge v)) := by
    intro s
    unfold receiveAtomicPlain
    simp only [isCombine_word, getValue_word _ _ _ _ hv, getOff_word _ _ _ _ hoff, shift_three]
    have hfold : (if v = kMaxSendAtomicValue then kLargeAtomicValue else v) = decodeLarge v := rfl
    have hone : (1 : ℤ) ≠ kMaxSendAtomicValue := by decide
    cases c <;> cases b.senderBarrier <;> cases b.efa <;> simp [hfold, hone, hsign.1, hsign.2.1]
  rw [← and_assoc]
  by_cases hok : ¬ (b.senderBarrier = true ∧ b.efa = false) ∧ (if c then b.senderBarrier = true ∨ 0 ≤ v else v ≤ -1)
  · obtain ⟨hbuild, hsgn⟩ := hok
    have hcombine : ¬ (c = true ∧ b.senderBarrier = false ∧ v < 0) := by
      rintro ⟨rfl, hsb, hneg⟩
      rcases hsgn with hsb' | hpos
      · rw [hsb] at hsb'
        cases hsb'
      · omega
    have hdispatch : ¬ (c = false ∧ -1 < v) := by
      rintro ⟨rfl, hpos⟩
      have hneg : v ≤ -1 := hsgn
      omega
    have hvalue : (if c then 1 else decodeLarge v) = if c then 1 else v := by
      cases c with
      | true => rfl
      | false => exact hsign.2.2 fun hpos => hdispatch ⟨rfl, hpos⟩
    have hstep : ∀ s, Ready b false env s (AtomicsImm.word true c v off l false) → ∃ s',
        remoteProcessCompletion b false env s (AtomicsImm.word true c v off l false) = .ok s' ∧
          s'.adds = s.adds ++ [(off.toNat, if c then 1 else v)] := by
      intro s _
      rw [hrun, hplain, if_neg hbuild, if_neg hcombine, if_neg hdispatch, hvalue]
      exact ⟨_, rfl, rfl⟩
    rw [adds_iff_of_step (off.toNat, if c then 1 else v) ⟨Receiver.init, hready _⟩ hstep]
    exact (and_iff_right ⟨hbuild, hsgn⟩).symm
  · refine iff_of_false ?_ fun h => hok h.1
    rintro ⟨-, hall⟩
    obtain ⟨s', hs', hadds⟩ := hall Receiver.init (hready _)
    rw [hrun, hplain] at hs'
    split at hs'
    · -- nothing is added
      rw [← ok.inj hs'] at hadds
      cases hadds
    next hbuild =>
    split at hs'
    · cases hs'
    next hcombine =>
    split at hs'
    · cases hs'
    next hdispatch =>
    refine hok ⟨hbuild, ?_⟩
    cases c with
    | false => exact Int.not_lt.mp fun hpos => hdispatch ⟨rfl, hpos⟩
    | true =>
      cases hsb : b.senderBarrier with
      | true => exact .inl rfl
      | false => exact .inr (Int.not_lt.mp fun hneg => hcombine ⟨rfl, hsb, hneg⟩)

end Receive

-- ── The immediates of the requests

section Send

variable {b : Build} {env : Env} {ctx : Ctx} {off word : ℕ} {v value : ℤ} {r : Request}

theorem inRange_of_not_outOfRange (h : ¬ outOfRange v) : AtomicsImm.InRange v := by
  unfold outOfRange kMaxSendAtomicValue at h
  constructor <;> omega

theorem pack_eq_some {c l r : Bool} {off : BitVec 16} (hv : AtomicsImm.InRange v) (hoff : off.toNat ≤ 0x1FFF) :
    pack true c v off l r = some (AtomicsImm.word true c v off l r) := by
  unfold pack
  rw [if_pos ⟨hv, hoff⟩]

theorem pack_eq_none {c l r : Bool} {off : BitVec 16} (hoff : ¬ off.toNat ≤ 0x1FFF) : pack true c v off l r = none := by
  unfold pack
  rw [if_neg fun h => hoff h.2]

/-- The receiver reads back a value in range unless it is the reserved one. -/
theorem decode_saturate (h : ¬ outOfRange (saturate v)) : v = decodeLarge (saturate v) ↔ v < kMaxSendAtomicValue := by
  revert h
  unfold outOfRange decodeLarge saturate kMaxSendAtomicValue kLargeAtomicValue
  split <;> split <;> omega

theorem delivers_of_error {a : Abort} (h : r.send b ctx off = .error a) : r.Delivers b env ctx off word value := by
  intro out hout
  rw [h] at hout
  cases hout

theorem delivers_iff_of_ok {out : Option Imm} (h : r.send b ctx off = .ok out) :
    r.Delivers b env ctx off word value ↔ Lands b r.normal env word value out := by
  constructor
  · exact fun hall => hall out h
  · intro hlands out' hout'
    rw [h] at hout'
    exact ok.inj hout' ▸ hlands

/-- The offset as it is packed. -/
def cutOffset (off : ℕ) : BitVec 16 := (BitVec.ofNat 32 off).setWidth 16

theorem toNat_cutOffset (off : ℕ) : (cutOffset off).toNat = off % 65536 := by
  unfold cutOffset
  rw [BitVec.toNat_setWidth, BitVec.toNat_ofNat]
  omega

theorem mask_cutOffset (off : ℕ) : (BitVec.ofNat 32 off &&& 0xFFFF#32).setWidth 16 = cutOffset off := by
  apply BitVec.eq_of_toNat_eq
  rw [toNat_cutOffset, BitVec.toNat_setWidth, BitVec.toNat_and]
  have hmod : off % 2 ^ 32 &&& 65535 = off % 2 ^ 32 % 65536 := and_two_pow_sub_one_eq_mod _ 16
  show (off % 2 ^ 32 &&& 65535) % 2 ^ 16 = _
  omega

theorem send_amo_normal (value : BitVec 32) (dst : BitVec 8) (c l : Bool) : (amo true value dst c l).send b ctx off
      = if outOfRange (saturate value.toInt) then .error .valueRange
        else if b.efa then (packed (packAtomic (saturate value.toInt) (cutOffset off))).map some
        else (packed (pack true c (saturate value.toInt) (cutOffset off) l false)).map some := by
  show (postAtomicNormal b (decodePackedTransferCmd _)).map some = _
  rw [decode_push_pack]
  show Except.map some (if outOfRange (saturate value.toInt) then .error .valueRange
    else if b.efa then packed (packAtomic (saturate value.toInt) (cutOffset off))
    else packed (pack true (getIsCombine (makeCmdType .atomic c l)) (saturate value.toInt)
      ((BitVec.ofNat 32 off &&& 0xFFFF#32).setWidth 16) (getLowLatency (makeCmdType .atomic c l)) false)) = _
  rw [getIsCombine_make, getLowLatency_make, mask_cutOffset]
  split
  · rfl
  · split <;> rfl

theorem send_amo_fast (value : BitVec 32) (dst : BitVec 8) (c l : Bool) : (amo false value dst c l).send b ctx off
      = if outOfRange (encodeLarge value.toInt) then .error .valueRange
        else (packed (pack true c (encodeLarge value.toInt)
          ((BitVec.ofNat 32 off >>> 3).setWidth 16) l false)).map some := by
  show (postAtomicFast (decodePackedTransferCmd _)).map some = _
  rw [decode_push_pack]
  show Except.map some (if outOfRange (encodeLarge value.toInt) then .error .valueRange
    else packed (pack true (getIsCombine (makeCmdType .atomic c l)) (encodeLarge value.toInt)
      ((BitVec.ofNat 32 off >>> 3).setWidth 16) (getLowLatency (makeCmdType .atomic c l)) false)) = _
  rw [getIsCombine_make, getLowLatency_make]
  split <;> rfl

section Amo

variable (value : BitVec 32) (dst : BitVec 8) (c l : Bool) {word : ℕ} {x : ℤ}

/-- An ATOMIC command in normal mode over EFA: the offset is cut to 13 bits. -/
theorem delivers_amo_efa (hefa : b.efa = true) (halign : off % 8 = 0) :
    (amo true value dst c l).Delivers b env ctx off word x ↔ outOfRange (saturate value.toInt) ∨
        (word = off % 8192 / 8 ∧ x = decodeLarge (saturate value.toInt)) := by
  have hsend : (amo true value dst c l).send b ctx off = _ := send_amo_normal value dst c l
  by_cases hrange : outOfRange (saturate value.toInt)
  · exact iff_of_true (delivers_of_error (hsend.trans (if_pos hrange))) (.inl hrange)
  have hlow : cutOffset off &&& 0x3#16 = 0#16 := by
    apply BitVec.eq_of_toNat_eq
    rw [BitVec.toNat_and, toNat_cutOffset, BitVec.toNat_zero]
    exact (and_two_pow_sub_one_eq_mod _ 2).trans (by omega)
  have hcut : (cutOffset off &&& 0x1FFF#16).toNat = off % 8192 := by
    rw [BitVec.toNat_and, toNat_cutOffset]
    exact (and_two_pow_sub_one_eq_mod _ 13).trans (by omega)
  have hfits : (cutOffset off &&& 0x1FFF#16).toNat ≤ 0x1FFF := by omega
  have hv := inRange_of_not_outOfRange hrange
  unfold packAtomic at hsend
  rw [if_neg hrange, if_pos hefa, if_pos hlow, pack_eq_some hv hfits] at hsend
  rw [delivers_iff_of_ok hsend, or_iff_right hrange, ← hcut]
  exact adds_normal hv hfits

/-- Without EFA: the offset is cut to 16 bits, and then it has to fit into 13. -/
theorem delivers_amo_rc (hefa : b.efa = false) : (amo true value dst c l).Delivers b env ctx off word x ↔
      outOfRange (saturate value.toInt) ∨ 8191 < off % 65536 ∨
        (word = off % 65536 / 8 ∧ x = decodeLarge (saturate value.toInt)) := by
  have hsend : (amo true value dst c l).send b ctx off = _ := send_amo_normal value dst c l
  by_cases hrange : outOfRange (saturate value.toInt)
  · exact iff_of_true (delivers_of_error (hsend.trans (if_pos hrange))) (.inl hrange)
  rw [if_neg hrange, if_neg (by rw [hefa]; exact Bool.false_ne_true)] at hsend
  rw [or_iff_right hrange, ← toNat_cutOffset]
  by_cases hfits : (cutOffset off).toNat ≤ 0x1FFF
  · have hv := inRange_of_not_outOfRange hrange
    rw [pack_eq_some hv hfits] at hsend
    rw [delivers_iff_of_ok hsend, or_iff_right (by omega)]
    exact adds_normal hv hfits
  · rw [pack_eq_none hfits] at hsend
    exact iff_of_true (delivers_of_error hsend) (.inl (by omega))

/-- An ATOMIC command in low-latency mode: a combine adds 1. -/
theorem delivers_amo_fast (hoff : off < kAtomicBufferSize) (halign : off % 8 = 0) :
    (amo false value dst c l).Delivers b env ctx off word x ↔
      outOfRange (encodeLarge value.toInt) ∨ 65536 ≤ off ∨ ((¬ (b.senderBarrier = true ∧ b.efa = false) ∧
          if c then (b.senderBarrier = true ∨ 0 ≤ value.toInt) ∧
            (b.receiverBarrier = true → newIndex b env off l.toNat ≤ env.numExperts)
          else value.toInt ≤ -1) ∧
        word = off / 8 ∧ x = if c then 1 else value.toInt) := by
  unfold kAtomicBufferSize at hoff
  have hindex : ((BitVec.ofNat 32 off >>> 3).setWidth 16).toNat = off / 8 := by
    rw [BitVec.toNat_setWidth, BitVec.toNat_ushiftRight, BitVec.toNat_ofNat]
    omega
  have hback : (off / 8) <<< 3 = off := by
    omega
  have hsend : (amo false value dst c l).send b ctx off = _ := send_amo_fast value dst c l
  by_cases hrange : outOfRange (encodeLarge value.toInt)
  · exact iff_of_true (delivers_of_error (hsend.trans (if_pos hrange))) (.inl hrange)
  rw [if_neg hrange] at hsend
  rw [or_iff_right hrange]
  by_cases hfits : ((BitVec.ofNat 32 off >>> 3).setWidth 16).toNat ≤ 0x1FFF
  · have hv := inRange_of_not_outOfRange hrange
    rw [pack_eq_some hv hfits] at hsend
    rw [delivers_iff_of_ok hsend, or_iff_right (by omega)]
    show Adds b false env _ word x ↔ _
    have hpos : 0 ≤ encodeLarge value.toInt ↔ 0 ≤ value.toInt := by
      unfold encodeLarge kMaxSendAtomicValue kLargeAtomicValue
      split <;> omega
    have hneg : ∀ p : Prop, encodeLarge value.toInt ≤ -1 ∧ p ∧ x = encodeLarge value.toInt ↔
        value.toInt ≤ -1 ∧ p ∧ x = value.toInt := by
      intro p
      unfold encodeLarge kMaxSendAtomicValue kLargeAtomicValue
      split <;> constructor <;> rintro ⟨h1, hp, h2⟩ <;> exact ⟨by omega, hp, by omega⟩
    cases hb : b.receiverBarrier with
    | true =>
      obtain ⟨hefa, hsb⟩ : b.efa = true ∧ b.senderBarrier = false := by
        unfold Build.receiverBarrier at hb
        rw [Bool.and_eq_true, Bool.not_eq_true'] at hb
        exact hb
      rw [hsb, and_iff_right (fun h => Bool.false_ne_true h.1)]
      cases c with
      | true =>
        rw [adds_combine hb hv hfits, hindex, hback, hpos]
        exact and_congr ⟨fun h => ⟨.inr h.1, fun _ => h.2⟩,
          fun h => ⟨h.1.resolve_left Bool.false_ne_true, h.2 rfl⟩⟩ Iff.rfl
      | false =>
        rw [adds_dispatch hb hv hfits, hindex]
        exact hneg _
    | false =>
      rw [adds_plain hb hv hfits, hindex, and_assoc]
      refine and_congr_right fun _ => ?_
      cases c with
      | true =>
        rw [hpos]
        exact and_congr ⟨fun h => ⟨h, fun hh => absurd hh Bool.false_ne_true⟩, And.left⟩ Iff.rfl
      | false => exact hneg _
  · rw [pack_eq_none hfits] at hsend
    exact iff_of_true (delivers_of_error hsend) (.inl (by omega))

end Amo

section Put

variable (c : EpPost.TransferCmd) (val : BitVec 64)

theorem toNat_putSlot : (putCommand off c val).slot.toNat = off % 65536 := by
  show (BitVec.ofNat 16 off).toNat = _
  rw [BitVec.toNat_ofNat]

theorem toNat_putVal : (putCommand off c val).atomicVal.toNat = val.toNat % 256 := by
  show (val.setWidth 8).toNat = _
  rw [BitVec.toNat_setWidth]

theorem piggybacks_put : (putCommand off c val).piggybacks = true ↔ 0 < off % 65536 ∧ 0 < val.toNat % 256 := by
  unfold TransferCmd.piggybacks
  rw [toNat_putSlot, toNat_putVal, Bool.and_eq_true, decide_eq_true_iff, decide_eq_true_iff]

/-- A WRITE that carries no atomic loses what it was asked for, unless that was nothing. -/
theorem faithful_put_of_none (h : ¬ (0 < off % 65536 ∧ 0 < val.toNat % 256)) :
    (put c val).Faithful b env ctx off ↔ val.toNat = 0 := by
  have hsend : (put c val).send b ctx off = .ok none := if_neg fun hp => h ((piggybacks_put c val).mp hp)
  refine (delivers_iff_of_ok hsend).trans ?_
  show (val.toNat : ℤ) = 0 ↔ _
  omega

theorem send_put (h : 0 < off % 65536 ∧ 0 < val.toNat % 256) : (put c val).send b ctx off
      = (piggyback b ctx (putCommand off c val)).map fun r => some r.1 :=
  if_pos ((piggybacks_put c val).mpr h)

/-- Over EFA: the offset is cut to 13 bits and the value to 8. -/
theorem faithful_put_efa (h : 0 < off % 65536 ∧ 0 < val.toNat % 256) (hefa : b.efa = true)
    (halign : off % 8 = 0) (hseq : ∀ i, (ctx.nextSeq i).toNat < 16) :
    (put c val).Faithful b env ctx off ↔ off / 8 = off % 65536 / 8 % 1024 ∧ val.toNat = val.toNat % 256 := by
  have hslot : (putCommand off c val).slot.toNat % 4 = 0 := by
    rw [toNat_putSlot]
    omega
  obtain ⟨imm, hpost, hcarries⟩ := piggyback_efa hefa hslot (hseq _)
  have hsend : (put c val).send b ctx off = _ := send_put c val h
  rw [hpost] at hsend
  have hvalue : ((putCommand off c val).atomicVal.toNat : ℤ) ≠ kMaxSendAtomicValue := by
    unfold kMaxSendAtomicValue
    omega
  refine (delivers_iff_of_ok hsend).trans ((adds_numbered hcarries hefa hvalue).trans ?_)
  exact and_congr Iff.rfl Nat.cast_inj

/-- The offset of a numbered atomic with its number in the low bits. -/
theorem toNat_numberedOff (slot : BitVec 16) (seq : BitVec 8) (h : slot.toNat % 4 = 0) :
    ((slot &&& 0x1FFF#16) ||| (seq.setWidth 16 &&& 0x3#16)).toNat = slot.toNat % 8192 + seq.toNat % 4 := by
  have hoff : (slot &&& 0x1FFF#16).toNat = slot.toNat % 8192 := by
    exact and_two_pow_sub_one_eq_mod _ 13
  have hseq : (seq.setWidth 16 &&& 0x3#16).toNat = seq.toNat % 4 := by
    rw [BitVec.toNat_and, BitVec.toNat_setWidth]
    exact (and_two_pow_sub_one_eq_mod _ 2).trans (by omega)
  have hshift : slot.toNat % 8192 = (slot.toNat % 8192 / 4) <<< 2 := by
    omega
  rw [BitVec.toNat_or, hoff, hseq, hshift, ← shiftLeft_add_eq_or_of_lt (by omega)]

/-- Under `SOFTWARE_ORDERING` without EFA the sender refuses a number that is not a multiple of 4
    or an offset beyond 13 bits, and the receiver refuses the rest. -/
theorem faithful_put_software (h : 0 < off % 65536 ∧ 0 < val.toNat % 256) (hefa : b.efa = false)
    (hsw : b.softwareOrdering = true) (halign : off % 8 = 0) (hseq : ∀ i, (ctx.nextSeq i).toNat < 16) :
    (put c val).Faithful b env ctx off ↔ 8191 < off % 65536 ∨ (ctx.nextSeq (off % 65536 / 8)).toNat % 4 ≠ 0 := by
  have hslot : (putCommand off c val).slot.toNat % 4 = 0 := by
    rw [toNat_putSlot]
    omega
  obtain ⟨hpack, hcarries⟩ := packAtomicWithSeq_eq (inRange_atomicVal (putCommand off c val)) hslot
    (hseq ((putCommand off c val).slot.toNat / 8))
  have hget := BitVec.eq_of_toNat_eq hcarries.seq
  have hoff : getOff (numberedWord (putCommand off c val).atomicVal.toNat
      (putCommand off c val).slot (ctx.nextSeq ((putCommand off c val).slot.toNat / 8))) = (putCommand off c val).slot ↔
      ¬ (8191 < off % 65536 ∨ (ctx.nextSeq (off % 65536 / 8)).toNat % 4 ≠ 0) := by
    unfold numberedWord
    rw [getOff_word _ _ _ _ (word_of_offset _ _).1, ← BitVec.toNat_inj, toNat_numberedOff _ _ hslot, toNat_putSlot]
    omega
  have hsend : (put c val).send b ctx off = _ := send_put c val h
  unfold piggyback at hsend
  simp only [if_neg (atomicVal_in_range (putCommand off c val)), hefa, hsw, Bool.false_or, if_true, hpack,
    hget, hcarries.value, ne_eq, not_true_eq_false, if_false, Bool.not_false, true_and, false_or] at hsend
  by_cases hbad : 8191 < off % 65536 ∨ (ctx.nextSeq (off % 65536 / 8)).toNat % 4 ≠ 0
  · rw [if_pos fun hh => hoff.mp hh hbad] at hsend
    exact iff_of_true (delivers_of_error hsend) hbad
  · rw [if_neg (not_not.mpr (hoff.mpr hbad))] at hsend
    refine (delivers_iff_of_ok hsend).trans ?_
    exact iff_of_false (not_adds_numbered hcarries.atomics hcarries.reorderable hefa) hbad

/-- Otherwise the sender refuses offsets beyond 13 bits, of the 16 it has got. -/
theorem faithful_put_rc (h : 0 < off % 65536 ∧ 0 < val.toNat % 256) (hefa : b.efa = false)
    (hsw : b.softwareOrdering = false) : (put c val).Faithful b env ctx off ↔
      8191 < off % 65536 ∨ (off / 8 = off % 65536 / 8 ∧ val.toNat = val.toNat % 256) := by
  have hv := inRange_atomicVal (putCommand off c val)
  have hsend : (put c val).send b ctx off = _ := send_put c val h
  unfold piggyback at hsend
  simp only [if_neg (atomicVal_in_range (putCommand off c val)), hefa, hsw, Bool.false_or,
    Bool.false_eq_true, if_false] at hsend
  by_cases hfits : (putCommand off c val).slot.toNat ≤ 0x1FFF
  · rw [pack_eq_some hv hfits] at hsend
    simp only [getValue_word _ _ _ _ hv, getOff_word _ _ _ _ hfits, ne_eq,
      not_true_eq_false, or_self, if_false] at hsend
    refine (delivers_iff_of_ok hsend).trans ((adds_normal hv hfits).trans ?_)
    have hvalue : decodeLarge ((putCommand off c val).atomicVal.toNat : ℤ) = ((val.toNat % 256 : ℕ) : ℤ) := by
      rw [toNat_putVal]
      unfold decodeLarge kMaxSendAtomicValue
      rw [if_neg (by omega)]
    rw [hvalue]
    rw [toNat_putSlot] at hfits
    rw [or_iff_right (by omega)]
    exact and_congr Iff.rfl Nat.cast_inj
  · rw [pack_eq_none hfits] at hsend
    rw [toNat_putSlot] at hfits
    exact iff_of_true (delivers_of_error hsend) (.inl (by omega))

end Put

end Send

-- ── All requests

/-- An ATOMIC command in normal mode is refused (no room for the value; without EFA, no room for
    the offset) or lands. -/
def ExactNormal (b : Build) (off : ℕ) (v : ℤ) : Prop :=
  (v < -kMaxSendAtomicValue ∨ (kMaxSendAtomicValue < v ∧ v ≤ kLargeAtomicValue)) ∨
    (b.efa = false ∧ 8191 < off % 65536) ∨ (v < kMaxSendAtomicValue ∧ off < 8192)

/-- In low-latency mode a dispatch lands if it is negative, a combine if it is 1. -/
def ExactFast (b : Build) (env : Env) (off : ℕ) (v : ℤ) (isCombine bufferIdx : Bool) : Prop :=
  (v < -kMaxSendAtomicValue ∨ (kMaxSendAtomicValue < v ∧ v ≠ kLargeAtomicValue)) ∨ 65536 ≤ off ∨
    (¬ (b.senderBarrier = true ∧ b.efa = false) ∧
      if isCombine then
        v = 1 ∧ (b.receiverBarrier = true → newIndex b env off bufferIdx.toNat ≤ env.numExperts)
      else v ≤ -1)

/-- The atomic of a WRITE: offset and value have to be there after they have been cut, and the same as before. -/
def ExactPut (b : Build) (ctx : Ctx) (off val : ℕ) : Prop :=
  val = 0 ∨ ((0 < off % 65536 ∧ 0 < val % 256) ∧
    if b.efa then off < 8192 ∧ val < 256
    else if b.softwareOrdering then
      8191 < off % 65536 ∨ (ctx.nextSeq (off % 65536 / 8)).toNat % 4 ≠ 0
    else 8191 < off % 65536 ∨ (off < 8192 ∧ val < 256))

/-- When a request is refused by the sender or lands where it should. -/
def Request.Exact (b : Build) (env : Env) (ctx : Ctx) (off : ℕ) : Request → Prop
  | .amo true value _ _ _ => ExactNormal b off value.toInt
  | .amo false value _ isCombine bufferIdx => ExactFast b env off value.toInt isCombine bufferIdx
  | .put _ val => ExactPut b ctx off val.toNat

theorem outOfRange_saturate (v : ℤ) : outOfRange (saturate v) ↔
    v < -kMaxSendAtomicValue ∨ (kMaxSendAtomicValue < v ∧ v ≤ kLargeAtomicValue) := by
  unfold outOfRange saturate kMaxSendAtomicValue kLargeAtomicValue
  split <;> omega

theorem outOfRange_encodeLarge (v : ℤ) : outOfRange (encodeLarge v) ↔
    v < -kMaxSendAtomicValue ∨ (kMaxSendAtomicValue < v ∧ v ≠ kLargeAtomicValue) := by
  unfold outOfRange encodeLarge kMaxSendAtomicValue kLargeAtomicValue
  split <;> omega

section Exact

variable {b : Build} {env : Env} {ctx : Ctx} {off : ℕ} (halign : off % 8 = 0)
include halign

theorem faithful_amo_normal (value : BitVec 32) (dst : BitVec 8) (c l : Bool) :
    (amo true value dst c l).Faithful b env ctx off ↔ ExactNormal b off value.toInt := by
  unfold ExactNormal
  rw [← outOfRange_saturate]
  by_cases hrange : outOfRange (saturate value.toInt)
  · refine iff_of_true ?_ (.inl hrange)
    exact delivers_of_error ((send_amo_normal value dst c l).trans (if_pos hrange))
  rw [or_iff_right hrange, ← decode_saturate hrange, and_comm (b := off < 8192)]
  cases hefa : b.efa with
  | true =>
    refine (delivers_amo_efa value dst c l hefa halign).trans ?_
    rw [or_iff_right hrange, or_iff_right (fun h => (by cases h.1))]
    refine and_congr ?_ Iff.rfl
    omega
  | false =>
    refine (delivers_amo_rc value dst c l hefa).trans ?_
    rw [or_iff_right hrange, and_iff_right rfl]
    by_cases hbig : 8191 < off % 65536
    · exact iff_of_true (.inl hbig) (.inl hbig)
    · rw [or_iff_right hbig, or_iff_right hbig]
      refine and_congr ?_ Iff.rfl
      omega

theorem faithful_amo_fast (hoff : off < kAtomicBufferSize) (value : BitVec 32) (dst : BitVec 8) (c l : Bool) :
    (amo false value dst c l).Faithful b env ctx off ↔ ExactFast b env off value.toInt c l := by
  refine (delivers_amo_fast value dst c l hoff halign).trans ?_
  rw [outOfRange_encodeLarge, and_assoc]
  refine or_congr Iff.rfl (or_congr Iff.rfl (and_congr_right fun _ => ?_))
  cases c with
  | true =>
    constructor
    · exact fun h => ⟨h.2.2, h.1.2⟩
    · intro h
      have hv : value.toInt = 1 := h.1
      exact ⟨⟨.inr (by omega), h.2⟩, rfl, hv⟩
  | false => exact ⟨fun h => h.1, fun h => ⟨h, rfl, rfl⟩⟩

theorem faithful_put (hseq : ∀ i, (ctx.nextSeq i).toNat < kReorderingBufferSize)
    (c : EpPost.TransferCmd) (val : BitVec 64) : (put c val).Faithful b env ctx off ↔ ExactPut b ctx off val.toNat := by
  unfold ExactPut
  by_cases hsent : 0 < off % 65536 ∧ 0 < val.toNat % 256
  · rw [and_iff_right hsent, or_iff_right (by omega)]
    cases hefa : b.efa with
    | true =>
      rw [faithful_put_efa c val hsent hefa halign hseq, if_pos rfl]
      omega
    | false =>
      rw [if_neg Bool.false_ne_true]
      cases hsw : b.softwareOrdering with
      | true => exact faithful_put_software c val hsent hefa hsw halign hseq
      | false =>
        rw [faithful_put_rc c val hsent hefa hsw, if_neg Bool.false_ne_true]
        omega
  · rw [faithful_put_of_none c val hsent]
    exact ⟨.inl, fun h => h.elim id fun h' => absurd h'.1 hsent⟩

end Exact

/-- **ATOMICS**: for every request for an aligned word of the atomic buffer, every build and every sequence
    number, the sender refuses or the right amount gets to the right word exactly under `Exact`. -/
theorem atomic_faithful_iff (b : Build) (env : Env) (ctx : Ctx)
    (hseq : ∀ i, (ctx.nextSeq i).toNat < kReorderingBufferSize) {off : ℕ}
    (hoff : off < kAtomicBufferSize) (halign : off % 8 = 0) (r : Request) :
    r.Faithful b env ctx off ↔ r.Exact b env ctx off := by
  cases r with
  | amo normal value dst c l =>
    cases normal with
    | true => exact faithful_amo_normal halign value dst c l
    | false => exact faithful_amo_fast halign hoff value dst c l
  | put c val => exact faithful_put halign hseq c val

theorem freshCtx_seq (i : ℕ) : (freshCtx.nextSeq i).toNat < kReorderingBufferSize := by
  show 0 < 16
  decide

/-- A write that carries 7 for word 3 along, and a dispatch that announces 4 tokens. -/
theorem atomic_faithful_seven :
    (put (toWordThree 0) 7#64).Faithful ⟨true, false, false, false⟩ ⟨0, 16, 16, 2⟩ freshCtx 24 ∧
      (amo false (-5#32) 8#8 false true).Faithful ⟨true, false, false, false⟩ ⟨0, 16, 16, 2⟩ freshCtx 24 := by
  constructor
  · refine (atomic_faithful_iff _ _ _ freshCtx_seq (by decide) (by decide) _).mpr ?_
    exact .inr ⟨by decide, by decide⟩
  · refine (atomic_faithful_iff _ _ _ freshCtx_seq (by decide) (by decide) _).mpr ?_
    exact .inr (.inr ⟨by decide, by decide⟩)

/-- Over EFA an atomic for word 1024 is added to word 0. -/
theorem atomic_word_wraps : ∃ imm, (amo true 1#32 8#8 false false).send ⟨true, false, false, false⟩ freshCtx 8192
        = .ok (some imm) ∧
      (remoteProcessCompletion ⟨true, false, false, false⟩ true ⟨0, 16, 16, 2⟩ Receiver.init imm).toOption.map
        Receiver.adds = some [(0, 1)] ∧
      ¬ (amo true 1#32 8#8 false false).Faithful ⟨true, false, false, false⟩ ⟨0, 16, 16, 2⟩ freshCtx 8192 := by
  have hsend : (amo true 1#32 8#8 false false).send ⟨true, false, false, false⟩ freshCtx 8192
      = .ok (some (AtomicsImm.word true false 1 0#16 false false)) := by rfl
  have hrecv : (remoteProcessCompletion ⟨true, false, false, false⟩ true ⟨0, 16, 16, 2⟩ Receiver.init
      (AtomicsImm.word true false 1 0#16 false false)).toOption.map Receiver.adds = some [(0, 1)] := by
    decide
  refine ⟨_, hsend, hrecv, fun h => ?_⟩
  obtain ⟨-, hall⟩ := h _ hsend
  obtain ⟨s', hs', hadds⟩ := hall Receiver.init (fun hr => (by cases hr))
  have hs' : remoteProcessCompletion _ true _ Receiver.init
      (AtomicsImm.word true false 1 0#16 false false) = .ok s' := hs'
  rw [hs'] at hrecv
  have hboth : s'.adds = [(0, 1)] := Option.some.inj hrecv
  rw [hboth] at hadds
  exact absurd hadds (by decide)

end EpAtomic
