import Uccl.EpAtomicProofs

/-! # Three ways to post an ATOMIC command

    `post_atomic_operations` has two: the emulated one (`EpAtomic`), in which the value travels in the
    immediate of a write and the receiving proxy adds it, and, on devices that have them, native RDMA atomics.
    `post_cxi_commands` has a third. Each has its own idea of `kLargeAtomicValue` and of combines: all of them
    replace the large value by 16383 before they post, but only the emulated receiver replaces 16383 by the
    large value again; the low-latency ones and CXI let a combine add 1, CXI also in normal mode.
    `backends_agree_iff` says for which commands the three do the same. -/

namespace EpAtomic

open StepRun EpImm EpReceive EpPost EpCommand EpReorder

-- ── Native RDMA atomics

/-- The atomic buffer of the destination as it is registered. -/
structure NativeCtx where
  remoteAtomicBufferAddr : BitVec 64
  remoteAtomicBufferLen : BitVec 64
  remoteAtomicBufferRkey : BitVec 32

/-- `ctx->remote_atomic_buffer_addr + cmd.req_rptr` -/
def NativeCtx.remoteAddr (n : NativeCtx) (c : EpCommand.TransferCmd) : BitVec 64 :=
  n.remoteAtomicBufferAddr + c.reqRptr.setWidth 64

def NativeCtx.outOfBounds (n : NativeCtx) (c : EpCommand.TransferCmd) : Prop :=
  n.remoteAddr c < n.remoteAtomicBufferAddr ∨
    n.remoteAtomicBufferAddr + n.remoteAtomicBufferLen < n.remoteAddr c + 8#64
deriving Decidable

/-- The word of the buffer at the address. -/
def NativeCtx.word (n : NativeCtx) (c : EpCommand.TransferCmd) : ℕ :=
  (n.remoteAddr c - n.remoteAtomicBufferAddr).toNat / 8

/-- `post_atomic_operations_native_rdma`: the word and the operand of the fetch-and-add -/
def postAtomicNativeRdma (n : NativeCtx) (c : EpCommand.TransferCmd) : Except Abort (ℕ × ℤ) :=
  if c.reqRptr &&& 0x7#32 ≠ 0#32 ∨ n.remoteAtomicBufferAddr = 0#64 ∨
      n.remoteAtomicBufferAddr &&& 0x7#64 ≠ 0#64 ∨ n.remoteAtomicBufferRkey = 0#32 then
    .error .assertion
  else if n.outOfBounds c then .error .remoteOob
  else .ok (n.word c, encodeLarge c.lptrOrValue.toInt)

/-- `post_atomic_operations_fast_mode_native_rdma` -/
def postAtomicFastModeNativeRdma (n : NativeCtx) (c : EpCommand.TransferCmd) : Except Abort (ℕ × ℤ) :=
  if n.remoteAtomicBufferAddr = 0#64 ∨ n.remoteAtomicBufferRkey = 0#32 then .error .assertion
  else if n.remoteAddr c &&& 0x7#64 ≠ 0#64 then .error .assertion
  else if n.outOfBounds c then .error .remoteOob
  else .ok (n.word c, encodeLarge (if getIsCombine c.cmdType then 1 else c.lptrOrValue.toInt))

def postNative (n : NativeCtx) (normal : Bool) (c : EpCommand.TransferCmd) : Except Abort (ℕ × ℤ) :=
  if normal then postAtomicNativeRdma n c else postAtomicFastModeNativeRdma n c

-- ── CXI

/-- The ATOMIC case of `post_cxi_commands`: the word and the operand of `post_atomic_add` -/
def postCxiAtomic (c : EpCommand.TransferCmd) : ℕ × ℤ :=
  (c.reqRptr.toNat / 8,
    if getIsCombine c.cmdType then 1 else encodeLarge c.lptrOrValue.toInt)

-- ── Agreement

/-- Any two of the three that accept the command add the same to the same word. -/
def Agree (b : Build) (env : Env) (ctx : Ctx) (n : NativeCtx) (off : ℕ) (normal : Bool)
    (value : BitVec 32) (dst : BitVec 8) (isCombine bufferIdx : Bool) : Prop :=
  let cmd := amoCommand off value dst isCombine bufferIdx
  let emulated := Request.amo normal value dst isCombine bufferIdx
  (∀ a, postNative n normal cmd = .ok a → emulated.Delivers b env ctx off a.1 a.2) ∧
    emulated.Delivers b env ctx off (postCxiAtomic cmd).1 (postCxiAtomic cmd).2 ∧
    ∀ a, postNative n normal cmd = .ok a → a = postCxiAtomic cmd

/-- The destination has registered its whole atomic buffer. -/
structure NativeCtx.Registered (n : NativeCtx) : Prop where
  addr : n.remoteAtomicBufferAddr ≠ 0#64
  aligned : n.remoteAtomicBufferAddr.toNat % 8 = 0
  rkey : n.remoteAtomicBufferRkey ≠ 0#32
  covers : kAtomicBufferSize ≤ n.remoteAtomicBufferLen.toNat
  inSpace : n.remoteAtomicBufferAddr.toNat + n.remoteAtomicBufferLen.toNat < 2 ^ 64

section Native

variable {n : NativeCtx} (hn : n.Registered) {off : ℕ} (hoff : off < kAtomicBufferSize)
  (halign : off % 8 = 0) (value : BitVec 32) (dst : BitVec 8) (c l : Bool)
include hn hoff halign

/-- The address of an aligned word of the buffer. -/
theorem toNat_remoteAddr : (n.remoteAddr (amoCommand off value dst c l)).toNat
    = n.remoteAtomicBufferAddr.toNat + off := by
  have hspace := hn.inSpace
  have hcovers := hn.covers
  unfold kAtomicBufferSize at hoff hcovers
  show (n.remoteAtomicBufferAddr + (BitVec.ofNat 32 off).setWidth 64).toNat = _
  rw [BitVec.toNat_add, BitVec.toNat_setWidth, BitVec.toNat_ofNat]
  omega

theorem native_word : ¬ n.outOfBounds (amoCommand off value dst c l) ∧
    n.word (amoCommand off value dst c l) = off / 8 := by
  have haddr := toNat_remoteAddr hn hoff halign value dst c l
  have hspace := hn.inSpace
  have hcovers := hn.covers
  unfold kAtomicBufferSize at hoff hcovers
  constructor
  · unfold NativeCtx.outOfBounds
    rw [BitVec.lt_def, BitVec.lt_def, BitVec.toNat_add, haddr]
    show ¬ (_ ∨ _ < (_ + 8) % _)
    omega
  · unfold NativeCtx.word
    rw [BitVec.toNat_sub, haddr]
    omega

/-- Both native functions post to the word at the offset. -/
theorem postNative_eq (normal : Bool) : postNative n normal (amoCommand off value dst c l)
    = .ok (off / 8, encodeLarge (if normal = false ∧ c = true then 1 else value.toInt)) := by
  obtain ⟨hbounds, hword⟩ := native_word hn hoff halign value dst c l
  have haddr := toNat_remoteAddr hn hoff halign value dst c l
  have halignAddr := hn.aligned
  have hlow : ∀ w : BitVec 64, w.toNat % 8 = 0 → w &&& 0x7#64 = 0#64 := by
    intro w hw
    apply BitVec.eq_of_toNat_eq
    exact (Nat.and_two_pow_sub_one_eq_mod _ 3).trans hw
  unfold postNative
  cases normal with
  | true =>
    have hrptr : (amoCommand off value dst c l).reqRptr &&& 0x7#32 = 0#32 := by
      apply BitVec.eq_of_toNat_eq
      show (BitVec.ofNat 32 off &&& 0x7#32).toNat = 0
      rw [BitVec.toNat_and, BitVec.toNat_ofNat]
      exact (Nat.and_two_pow_sub_one_eq_mod _ 3).trans (by omega)
    have hok : ¬ ((amoCommand off value dst c l).reqRptr &&& 0x7#32 ≠ 0#32 ∨
        n.remoteAtomicBufferAddr = 0#64 ∨ n.remoteAtomicBufferAddr &&& 0x7#64 ≠ 0#64 ∨
        n.remoteAtomicBufferRkey = 0#32) := by
      rintro (h | h | h | h)
      · exact h hrptr
      · exact hn.addr h
      · exact h (hlow _ halignAddr)
      · exact hn.rkey h
    unfold postAtomicNativeRdma
    rw [if_pos rfl, if_neg hok, if_neg hbounds, hword]
    rfl
  | false =>
    have hok : ¬ (n.remoteAtomicBufferAddr = 0#64 ∨ n.remoteAtomicBufferRkey = 0#32) := by
      rintro (h | h)
      · exact hn.addr h
      · exact hn.rkey h
    have hremote : ¬ n.remoteAddr (amoCommand off value dst c l) &&& 0x7#64 ≠ 0#64 := fun h => h (hlow _ (by omega))
    unfold postAtomicFastModeNativeRdma
    rw [if_neg hok, if_neg hremote, if_neg hbounds, hword]
    show Except.ok (off / 8, encodeLarge (if getIsCombine (makeCmdType .atomic c l) then 1 else _)) = _
    rw [getIsCombine_make]
    cases c <;> rfl

end Native

theorem postCxiAtomic_eq {off : ℕ} (hoff : off < kAtomicBufferSize) (value : BitVec 32) (dst : BitVec 8)
    (c l : Bool) : postCxiAtomic (amoCommand off value dst c l)
      = (off / 8, if c then 1 else encodeLarge value.toInt) := by
  unfold kAtomicBufferSize at hoff
  show ((BitVec.ofNat 32 off).toNat / 8,
    if getIsCombine (makeCmdType .atomic c l) then 1 else encodeLarge value.toInt) = _
  rw [getIsCombine_make, BitVec.toNat_ofNat, Nat.mod_eq_of_lt (by omega)]

/-- For which commands the three agree in low-latency mode. -/
def AgreeFast (b : Build) (env : Env) (off : ℕ) (v : ℤ) (isCombine bufferIdx : Bool) : Prop :=
  (v < -kMaxSendAtomicValue ∨ (kMaxSendAtomicValue < v ∧ v ≠ kLargeAtomicValue)) ∨ 65536 ≤ off ∨
    (¬ (b.senderBarrier = true ∧ b.efa = false) ∧
      if isCombine then (b.senderBarrier = true ∨ 0 ≤ v) ∧
        (b.receiverBarrier = true → newIndex b env off bufferIdx.toNat ≤ env.numExperts)
      else v ≤ -1)

section Agree

variable {b : Build} {env : Env} {ctx : Ctx} {off : ℕ} (halign : off % 8 = 0)
  (value : BitVec 32) (dst : BitVec 8) (c l : Bool)
include halign

/-- The emulated path in normal mode adds what the native one does exactly where it is faithful. -/
theorem delivers_native_normal :
    (Request.amo true value dst c l).Delivers b env ctx off (off / 8) (encodeLarge value.toInt) ↔
      ExactNormal b off value.toInt := by
  have hfaithful : (Request.amo true value dst c l).Delivers b env ctx off (off / 8) value.toInt ↔
      ExactNormal b off value.toInt := faithful_amo_normal halign value dst c l
  rw [← hfaithful]
  by_cases hlarge : value.toInt = kLargeAtomicValue
  · -- the emulated path refuses the large value
    have hrange : outOfRange (saturate value.toInt) := by
      rw [hlarge]
      decide
    have hsend : (Request.amo true value dst c l).send b ctx off = _ :=
      (send_amo_normal value dst c l).trans (if_pos hrange)
    exact iff_of_true (delivers_of_error hsend) (delivers_of_error hsend)
  · rw [encodeLarge, if_neg hlarge]

theorem delivers_native_fast (hoff : off < kAtomicBufferSize) :
    (Request.amo false value dst c l).Delivers b env ctx off (off / 8)
        (if c then 1 else encodeLarge value.toInt) ↔ AgreeFast b env off value.toInt c l := by
  rw [delivers_amo_fast value dst c l hoff halign]
  rw [outOfRange_encodeLarge]
  refine or_congr Iff.rfl (or_congr Iff.rfl ?_)
  constructor
  · exact And.left
  · intro h
    refine ⟨h, rfl, ?_⟩
    cases c with
    | true => rfl
    | false =>
      have hneg : value.toInt ≤ -1 := h.2
      show encodeLarge value.toInt = value.toInt
      unfold encodeLarge kLargeAtomicValue
      rw [if_neg (by omega)]

end Agree

/-- **THE BACK ENDS AGREE** on an aligned word of the registered buffer: in normal mode, if the emulated path refuses
    the command or is faithful and a combine adds 1; in low-latency mode, if it refuses it or its receiver accepts
    it. -/
theorem backends_agree_iff (b : Build) (env : Env) (ctx : Ctx) {n : NativeCtx} (hn : n.Registered)
    {off : ℕ} (hoff : off < kAtomicBufferSize) (halign : off % 8 = 0) (normal : Bool) (value : BitVec 32)
    (dst : BitVec 8) (c l : Bool) : Agree b env ctx n off normal value dst c l ↔
      if normal then ExactNormal b off value.toInt ∧ (c = true → value.toInt = 1)
      else AgreeFast b env off value.toInt c l := by
  unfold Agree
  simp only [postNative_eq hn hoff halign, postCxiAtomic_eq hoff, Except.ok.injEq, forall_eq']
  cases normal with
  | true =>
    rw [if_pos rfl, if_neg (fun h => (by cases h.1)), delivers_native_normal halign]
    cases c with
    | true =>
      have hone : encodeLarge value.toInt = 1 ↔ value.toInt = 1 := by
        unfold encodeLarge kMaxSendAtomicValue kLargeAtomicValue
        split <;> omega
      simp only [if_true, Prod.mk.injEq, true_and, hone, true_implies]
      constructor
      · exact fun h => ⟨h.1, h.2.2⟩
      · rintro ⟨hexact, hv⟩
        refine ⟨hexact, ?_, hv⟩
        rw [← hone.mpr hv]
        exact (delivers_native_normal halign value dst true l).mpr hexact
    | false =>
      simp only [Bool.false_eq_true, if_false, false_implies, and_true]
      rw [delivers_native_normal halign, and_self]
  | false =>
    have hamount : encodeLarge (if c = true then 1 else value.toInt)
        = if c = true then 1 else encodeLarge value.toInt := by
      cases c <;> rfl
    simp only [Bool.false_eq_true, if_false, true_and, hamount, and_true, and_self]
    exact delivers_native_fast halign value dst c l hoff

/-- An atomic buffer registered as a whole. -/
def registered : NativeCtx := ⟨0x10000#64, 81960#64, 7#32⟩

theorem registered_ok : registered.Registered := ⟨by decide, by decide, by decide, by decide, by decide⟩

theorem backends_agree_on_dispatch :
    Agree ⟨true, false, false, false⟩ ⟨0, 16, 16, 2⟩ freshCtx registered 24 false (-5#32) 8#8 false true :=
  (backends_agree_iff _ _ _ registered_ok (by decide) (by decide) _ _ _ _ _).mpr (.inr (.inr ⟨by decide, by decide⟩))

/-- 16383 in normal mode: the emulated path adds the large value, the others add 16383. -/
theorem backends_disagree_on_reserved :
    ∃ imm, (Request.amo true 16383#32 8#8 false false).send ⟨false, false, false, false⟩ freshCtx 8 = .ok (some imm) ∧
      (remoteProcessCompletion ⟨false, false, false, false⟩ true ⟨0, 16, 16, 2⟩ Receiver.init imm).toOption.map
        Receiver.adds = some [(1, 33550000)] ∧
      postNative registered true (amoCommand 8 16383#32 8#8 false false) = .ok (1, 16383) ∧
      postCxiAtomic (amoCommand 8 16383#32 8#8 false false) = (1, 16383) ∧
      ¬ Agree ⟨false, false, false, false⟩ ⟨0, 16, 16, 2⟩ freshCtx registered 8 true 16383#32 8#8 false false := by
  have hsend : (Request.amo true 16383#32 8#8 false false).send ⟨false, false, false, false⟩ freshCtx 8
      = .ok (some (AtomicsImm.word true false 16383 8#16 false false)) := by rfl
  have hrecv : (remoteProcessCompletion ⟨false, false, false, false⟩ true ⟨0, 16, 16, 2⟩ Receiver.init
      (AtomicsImm.word true false 16383 8#16 false false)).toOption.map Receiver.adds = some [(1, 33550000)] := by
    decide
  have hnative : postNative registered true (amoCommand 8 16383#32 8#8 false false) = .ok (1, 16383) := by
    rfl
  refine ⟨_, hsend, hrecv, hnative, by decide, fun h => ?_⟩
  obtain ⟨-, hall⟩ := h.1 _ hnative _ hsend
  obtain ⟨s', hs', hadds⟩ := hall Receiver.init (fun hr => (by cases hr))
  have hs' : remoteProcessCompletion _ true _ Receiver.init
      (AtomicsImm.word true false 16383 8#16 false false) = .ok s' := hs'
  rw [hs'] at hrecv
  have hboth : s'.adds = [(1, 33550000)] := Option.some.inj hrecv
  rw [hboth] at hadds
  exact absurd hadds (by decide)

end EpAtomic
