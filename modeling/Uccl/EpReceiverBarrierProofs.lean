import Uccl.StepRunProofs
import Uccl.EpReceiveProofs
import Mathlib.Algebra.Order.BigOperators.Group.List
import Mathlib.Tactic.Ring

/-! # The receiver barrier of the low-latency mode

    With `USE_RECEIVER_BARRIER` a source tells an expert's owner how many tokens it sent by an atomic, while the
    writes that carry the tokens travel on other queues. The receiver counts tokens as writes arrive, and applies
    the atomic once as many have been counted as it announces: when it arrives (`remote_process_completions`) or
    later (`apply_pending_updates`).

    A key is what a counter and a word of the signalling buffer belong to: a phase, a buffer, an expert, a source.
    A round of a key is some writes and one atomic announcing the sum of their tokens, all sent at once and
    delivered in any order; the next round of the key starts when the atomic has been applied.

    `rounds` (the sums announced, oldest first) and `arrived` (the tokens delivered) are read by no function. -/

namespace EpReceiverBarrier

open StepRun EpImm EpReceive Nat AtomicsImm

-- ── Keys

/-- The builds with a receiver barrier. -/
def countedBuild (batching : Bool) : Build := ⟨true, false, false, batching⟩

/-- `kAtomicBufferSize` -/
def kAtomicBufferSize : ℕ := 81960

/-- The expert of a dispatch is a local one of the receiver, that of a combine is a global one of the source. -/
def ExpertOf (e : Env) (combine : Bool) (expert src : ℕ) : Prop :=
  if combine then
    src * (e.numExperts / e.numRanks) ≤ expert ∧ expert < (src + 1) * (e.numExperts / e.numRanks)
  else expert < e.numExperts / e.numRanks

structure Key (e : Env) where
  combine : Bool
  buffer : Bool
  expert : ℕ
  src : ℕ
  src_lt : src < e.numRanks
  expertOf : ExpertOf e combine expert src
  deriving DecidableEq

open Key

variable {e : Env} (batching : Bool) {key key' : Key e}

/-- 64-bit words between the two halves of the signalling buffer. -/
def strideWords (e : Env) : ℕ := perBufferStride (countedBuild batching) e / 8

/-- The word of a key within its half. -/
def Key.word (key : Key e) : ℕ :=
  if key.combine then key.expert else key.expert * e.numRanks + key.src

/-- The word of a key in the atomic buffer. -/
def Key.slot (key : Key e) : ℕ := key.buffer.toNat * strideWords batching e + key.word

/-- What the atomic of a key carries for a sum of tokens. -/
def Key.announced (key : Key e) (sum : ℕ) : ℤ := if key.combine then sum else -sum - 1

/-- What is to be added to the word. -/
def Key.addValue (key : Key e) (sum : ℕ) : ℤ := if key.combine then 1 else -sum - 1

/-- The counter of a key. -/
def Key.counter (key : Key e) (rx : Receiver) : ℕ :=
  if key.combine then rx.combineTokens (key.buffer.toNat, key.expert)
  else rx.dispatchTokens (key.buffer.toNat, key.expert, key.src)

theorem le_align {x a : ℕ} (ha : 0 < a) : x ≤ align x a := by
  unfold align
  have h := div_add_mod (x + a - 1) a
  have hlt := mod_lt (x + a - 1) ha
  rw [Nat.mul_comm] at h
  omega

theorem stride_eq (e : Env) : perBufferStride (countedBuild batching) e = strideWords batching e * 8 ∧
      e.numExperts ≤ strideWords batching e := by
  have hdvd : ∀ x, 8 ∣ align x 128 := fun x => Dvd.dvd.mul_left (by decide) _
  unfold strideWords perBufferStride
  split
  · refine ⟨(Nat.div_mul_cancel (hdvd _)).symm, (Nat.le_div_iff_mul_le (by decide)).mpr ?_⟩
    exact (Nat.mul_le_mul_right 8 (le_max_right ..)).trans (le_align (by decide))
  · exact ⟨(Nat.div_mul_cancel (hdvd _)).symm, (Nat.le_div_iff_mul_le (by decide)).mpr (le_align (by decide))⟩

theorem Key.word_lt (key : Key e) : key.word < e.numExperts := by
  have hmul : e.numExperts / e.numRanks * e.numRanks ≤ e.numExperts := div_mul_le_self ..
  have howned := key.expertOf
  have hsrc := key.src_lt
  unfold ExpertOf at howned
  unfold Key.word
  split
  · next hc =>
    rw [if_pos hc] at howned
    have hle : (key.src + 1) * (e.numExperts / e.numRanks) ≤ e.numRanks * (e.numExperts / e.numRanks) :=
      Nat.mul_le_mul_right _ hsrc
    rw [Nat.mul_comm e.numRanks] at hle
    omega
  · next hc =>
    rw [if_neg hc] at howned
    have hle : (key.expert + 1) * e.numRanks ≤ e.numExperts / e.numRanks * e.numRanks := Nat.mul_le_mul_right _ howned
    rw [Nat.add_mul] at hle
    omega

/-- The source of a combine is determined by the expert. -/
theorem src_unique {n x a b : ℕ} (ha : a * n ≤ x ∧ x < (a + 1) * n) (hb : b * n ≤ x ∧ x < (b + 1) * n) : a = b := by
  have hdiv : ∀ c, c * n ≤ x ∧ x < (c + 1) * n → x / n = c := fun c hc =>
    Nat.div_eq_of_lt_le hc.1 hc.2
  rw [← hdiv a ha, ← hdiv b hb]

theorem Key.eq_of_expert (hc : key.combine = key'.combine)
    (hb : key.buffer = key'.buffer) (hx : key.expert = key'.expert)
    (hs : key.combine = false → key.src = key'.src) : key = key' := by
  obtain ⟨c, b, x, s, hlt, ho⟩ := key
  obtain ⟨c', b', x', s', hlt', ho'⟩ := key'
  subst hc hb hx
  have hss : s = s' := by
    cases c with
    | false => exact hs rfl
    | true => exact src_unique ho ho'
  subst hss
  rfl

/-- **A WORD BELONGS TO ONE KEY** of each phase. -/
theorem Key.slot_inj (hc : key.combine = key'.combine) (h : key.slot batching = key'.slot batching) : key = key' := by
  have hw := key.word_lt
  have hw' := key'.word_lt
  have hle := (stride_eq batching e).2
  unfold slot at h
  have hb : key.buffer = key'.buffer ∧ key.word = key'.word := by
    cases hkb : key.buffer <;> cases hkb' : key'.buffer <;> rw [hkb, hkb'] at h <;>
      simp only [Bool.toNat_true, Bool.toNat_false] at h
    · exact ⟨rfl, by omega⟩
    · omega
    · omega
    · exact ⟨rfl, by omega⟩
  have hword := hb.2
  unfold Key.word at hword
  rw [← hc] at hword
  split at hword
  · next hk =>
    refine eq_of_expert hc hb.1 hword fun hf => ?_
    rw [hk] at hf
    cases hf
  · have hexp : key.expert = key'.expert := by
      have hdiv : ∀ x s : ℕ, s < e.numRanks → (x * e.numRanks + s) / e.numRanks = x := fun x s hs => by
        rw [Nat.mul_comm, mul_add_div (zero_lt_of_lt hs), div_eq_of_lt hs, Nat.add_zero]
      rw [← hdiv key.expert key.src key.src_lt, hword, hdiv _ _ key'.src_lt]
    refine eq_of_expert hc hb.1 hexp fun _ => ?_
    rw [hexp] at hword
    omega

-- ── The immediates of a round

inductive Msg (e : Env)
  | write (key : Key e) (tokens : ℕ)
  | atomic (key : Key e) (sum : ℕ)
  deriving DecidableEq

/-- The word that `AtomicsImm::Pack` builds for the atomic of a key. -/
def atomicWord (key : Key e) (sum : ℕ) : Imm :=
  word true key.combine (key.announced sum) (BitVec.ofNat 16 (key.slot batching)) key.buffer
    false

/-- The immediate of a message; `none` where the source aborts: the signalling buffer does not
    fit, the value does not fit in 15 bits, a field of the immediate overflows. -/
def Msg.imm : Msg e → Option Imm
  | .write key tokens => WriteImm.pack key.combine key.buffer key.expert tokens key.src
  | .atomic key sum =>
    if kAtomicBufferSize < 2 * perBufferStride (countedBuild batching) e then none
    else if key.announced sum < -kMaxSendAtomicValue ∨ kMaxSendAtomicValue < key.announced sum then none
    else pack true key.combine (key.announced sum) (BitVec.ofNat 16 (key.slot batching))
      key.buffer false

/-- What the receiver keeps for an atomic that is not ready. -/
def update (key : Key e) (sum : ℕ) : PendingUpdate :=
  { addr := key.slot batching, value := key.announced sum, imm := atomicWord batching key sum,
    bufferIdx := key.buffer.toNat, expertIdx := key.expert, isCombine := key.combine,
    srcRank := if key.combine then -1 else key.src }

/-- The tokens of a key are counted. -/
def count (rx : Receiver) (key : Key e) (tokens : ℕ) : Receiver :=
  if key.combine then rx.addCombine (key.buffer.toNat, key.expert) tokens
  else rx.addDispatch (key.buffer.toNat, key.expert, key.src) tokens

/-- The atomic of a key is applied. -/
def settle (rx : Receiver) (key : Key e) (sum : ℕ) : Receiver :=
  fetchAdd (if key.combine then rx.resetCombine (key.buffer.toNat, key.expert)
    else rx.resetDispatch (key.buffer.toNat, key.expert, key.src)) (key.slot batching) (key.addValue sum)

/-- The immediate of a write is counted under its key. -/
theorem receive_writeMsg {tokens : ℕ} {imm : Imm} (rx : Receiver) (h : (Msg.write key tokens).imm batching = some imm) :
    remoteProcessCompletion (countedBuild batching) false e rx imm = .ok (count rx key tokens) := by
  obtain ⟨hw, hc, hb, hx, hn, hr⟩ := WriteImm.get_of_pack h
  obtain ⟨ha, hbar⟩ := (isWrite_iff imm).mp hw
  unfold remoteProcessCompletion
  rw [ha, hbar]
  have howned := key.expertOf
  unfold ExpertOf at howned
  unfold receiveWriteFast count
  rw [hc, hb, hx, hn, hr]
  cases hk : key.combine with
  | false => rfl
  | true =>
    rw [hk] at howned
    exact if_pos howned

/-- The word of a key survives the way through the immediate. -/
theorem slot_of_atomicMsg {sum : ℕ} {imm : Imm} (h : (Msg.atomic key sum).imm batching = some imm) :
    AtomicsImm.InRange (key.announced sum) ∧ imm = atomicWord batching key sum ∧
      (BitVec.ofNat 16 (key.slot batching)).toNat = key.slot batching ∧ key.slot batching ≤ 0x1FFF := by
  have h : (if kAtomicBufferSize < 2 * perBufferStride (countedBuild batching) e then none
      else if key.announced sum < -kMaxSendAtomicValue ∨ kMaxSendAtomicValue < key.announced sum then none
      else pack true key.combine (key.announced sum) (BitVec.ofNat 16 (key.slot batching))
        key.buffer false) = some imm := h
  split at h
  · cases h
  next hlayout =>
  split at h
  · cases h
  obtain ⟨hrange, hoff, himm⟩ := of_pack _ _ _ _ h
  -- both halves of the signalling buffer lie in the atomic buffer
  have hslot : key.slot batching < 2 ^ 16 := by
    have hw := key.word_lt
    obtain ⟨hstride, hle⟩ := stride_eq batching e
    have hbuf : key.buffer.toNat * strideWords batching e ≤ strideWords batching e := by
      calc key.buffer.toNat * strideWords batching e ≤ 1 * strideWords batching e :=
            Nat.mul_le_mul_right _ key.buffer.toNat_le
        _ = strideWords batching e := Nat.one_mul _
    unfold kAtomicBufferSize at hlayout
    unfold slot
    omega
  have htoNat : (BitVec.ofNat 16 (key.slot batching)).toNat = key.slot batching := by
    exact mod_eq_of_lt hslot
  rw [htoNat] at hoff
  exact ⟨hrange, himm, htoNat, hoff⟩

/-- The key of an atomic is recovered from its offset. -/
theorem newIndex_slot (key : Key e) (h : key.slot batching ≤ 0x1FFF) :
    newIndex (countedBuild batching) e (key.slot batching <<< 3) key.buffer.toNat = key.word := by
  have hoff : (((key.slot batching <<< 3 : ℕ) : ℤ) -
      (key.buffer.toNat : ℤ) * (perBufferStride (countedBuild batching) e : ℤ)) = (8 * key.word : ℕ) := by
    rw [(stride_eq batching e).1, shiftLeft_eq]
    unfold slot
    push_cast
    ring
  have hlt : key.word ≤ 0x1FFF := (Nat.le_add_left ..).trans h
  unfold newIndex
  omega

section Phases

variable (key : Key e) (rx : Receiver) (sum : ℕ)

theorem settle_dispatch (h : key.combine = false) :
    settle batching rx key sum = fetchAdd (rx.resetDispatch (key.buffer.toNat, key.expert, key.src))
      (key.slot batching) (key.announced sum) := by
  unfold settle addValue announced
  rw [h]
  rfl

theorem settle_combine (h : key.combine = true) : settle batching rx key sum =
      fetchAdd (rx.resetCombine (key.buffer.toNat, key.expert)) (key.slot batching) 1 := by
  unfold settle addValue
  rw [h]
  rfl

theorem update_dispatch (h : key.combine = false) :
    update batching key sum = ⟨key.slot batching, key.announced sum, atomicWord batching key sum,
      key.buffer.toNat, key.expert, false, key.src⟩ := by
  unfold update
  rw [h]
  rfl

theorem update_combine (h : key.combine = true) :
    update batching key sum = ⟨key.slot batching, key.announced sum, atomicWord batching key sum,
      key.buffer.toNat, key.expert, true, -1⟩ := by
  unfold update
  rw [h]
  rfl

/-- A dispatch is ready when the counter shows what it announces. -/
theorem ready_dispatch (h : key.combine = false) :
    -key.announced sum - 1 = rx.dispatchTokens (key.buffer.toNat, key.expert, key.src) ↔ key.counter rx = sum := by
  unfold announced counter
  simp only [h, Bool.false_eq_true, if_false]
  omega

/-- So is a combine. -/
theorem ready_combine (h : key.combine = true) :
    key.announced sum = rx.combineTokens (key.buffer.toNat, key.expert) ↔ key.counter rx = sum := by
  unfold announced counter
  simp only [h, if_true]
  omega

end Phases

/-- The atomic of a key is applied if its tokens are in, else it goes into the set. -/
theorem receive_atomicMsg {sum : ℕ} {imm : Imm} (rx : Receiver) (h : (Msg.atomic key sum).imm batching = some imm) :
    remoteProcessCompletion (countedBuild batching) false e rx imm =
      .ok (if key.counter rx = sum then settle batching rx key sum
        else { rx with
          pending := OrderedSet.insert PendingUpdate.lt (update batching key sum) rx.pending }) := by
  obtain ⟨hrange, himm, htoNat, hle⟩ := slot_of_atomicMsg batching h
  have hat : ImmType.isAtomics imm = true := by
    rw [himm]
    exact isAtomics_word ..
  have hc : isCombine imm = key.combine := by
    rw [himm]
    exact isCombine_word ..
  have hb : getBufferIdx imm = key.buffer.toNat := by
    rw [himm]
    exact getBufferIdx_word ..
  have hoff : (getOff imm).toNat = key.slot batching := by
    rw [himm, atomicWord, getOff_word _ _ _ _ (htoNat.le.trans hle)]
    exact htoNat
  have hv : getValue imm = key.announced sum := by
    rw [himm]
    exact getValue_word _ _ _ _ hrange
  have hidx : key.slot batching <<< 3 / 8 = key.slot batching := by
    rw [shiftLeft_eq]
    exact Nat.mul_div_cancel _ (by decide)
  unfold remoteProcessCompletion
  rw [hat]
  show receiveAtomicCounted (countedBuild batching) e rx imm = _
  unfold receiveAtomicCounted
  dsimp only
  rw [hc, hb, hoff, hv, hidx, newIndex_slot batching key hle]
  have hword := key.word_lt
  cases hk : key.combine with
  | false =>
    have hwordeq : key.word = key.expert * e.numRanks + key.src := by
      unfold Key.word
      rw [hk]
      rfl
    have hdiv : key.word / e.numRanks = key.expert := by
      rw [hwordeq, Nat.mul_comm, mul_add_div (zero_lt_of_lt key.src_lt), div_eq_of_lt key.src_lt, Nat.add_zero]
    have hmod : key.word % e.numRanks = key.src := by
      rw [hwordeq, mul_add_mod', mod_eq_of_lt key.src_lt]
    rw [hdiv, hmod, settle_dispatch batching key rx sum hk, update_dispatch batching key sum hk, ← himm]
    exact congrArg Except.ok (if_congr (ready_dispatch key rx sum hk) rfl rfl)
  | true =>
    have hwordeq : key.word = key.expert := by
      unfold Key.word
      rw [hk]
      rfl
    rw [if_neg (Nat.lt_asymm hword), hwordeq, settle_combine batching key rx sum hk,
      update_combine batching key sum hk, ← himm]
    exact congrArg Except.ok (if_congr (ready_combine key rx sum hk) rfl rfl)

section

variable (rx : Receiver) (key : Key e) (tokens : ℕ) (key' : Key e) (sum : ℕ)

/-- `apply_pending_updates` does the same with an entry of the set. -/
theorem applyUpdate_update : applyUpdate rx (update batching key sum) =
      if key.counter rx = sum then settle batching rx key sum
      else { rx with pending := rx.pending ++ [update batching key sum] } := by
  cases hk : key.combine with
  | false =>
    rw [settle_dispatch batching key rx sum hk, update_dispatch batching key sum hk]
    exact (if_pos rfl).trans (if_congr (ready_dispatch key rx sum hk) rfl rfl)
  | true =>
    rw [settle_combine batching key rx sum hk, update_combine batching key sum hk]
    exact (if_neg Bool.false_ne_true).trans (if_congr (ready_combine key rx sum hk) rfl rfl)

-- ── Counters

/-- A change at the counter of `key` shows at `key` only. -/
theorem counter_of_update {rx rx' : Receiver} {key : Key e} {n : ℕ} (hc : rx'.combineTokens = if key.combine then
      Function.update rx.combineTokens (key.buffer.toNat, key.expert) n else rx.combineTokens)
    (hd : rx'.dispatchTokens = if key.combine then rx.dispatchTokens else
      Function.update rx.dispatchTokens (key.buffer.toNat, key.expert, key.src) n) (key' : Key e) :
    key'.counter rx' = if key' = key then n else key'.counter rx := by
  have hbuf : ∀ b b' : Bool, b.toNat = b'.toNat → b = b' := by decide
  unfold counter
  rw [hc, hd]
  by_cases hkey : key' = key
  · rw [hkey, if_pos rfl]
    cases key.combine with
    | false | true => exact Function.update_self ..
  · rw [if_neg hkey]
    cases hk : key.combine with
    | false =>
      cases hk' : key'.combine with
      | false =>
        refine Function.update_of_ne (fun heq => hkey ?_) ..
        obtain ⟨h1, h2⟩ := Prod.mk.inj heq
        obtain ⟨h2, h3⟩ := Prod.mk.inj h2
        exact eq_of_expert (hk'.trans hk.symm) (hbuf _ _ h1) h2 fun _ => Int.ofNat.inj h3
      | true => rfl
    | true =>
      cases hk' : key'.combine with
      | false => rfl
      | true =>
        refine Function.update_of_ne (fun heq => hkey ?_) ..
        obtain ⟨h1, h2⟩ := Prod.mk.inj heq
        refine eq_of_expert (hk'.trans hk.symm) (hbuf _ _ h1) h2 fun hf => ?_
        rw [hk'] at hf
        cases hf

theorem counter_count : key'.counter (count rx key tokens) =
      if key' = key then key.counter rx + tokens else key'.counter rx := by
  refine counter_of_update ?_ ?_ key' <;> unfold count counter <;> cases key.combine <;> rfl

theorem counter_settle (key' : Key e) :
    key'.counter (settle batching rx key sum) = if key' = key then 0 else key'.counter rx := by
  refine counter_of_update ?_ ?_ key' <;> unfold settle <;> cases key.combine <;> rfl

end

end EpReceiverBarrier
