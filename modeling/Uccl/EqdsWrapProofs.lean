import Uccl.EqdsCcProofs

/-! # Pull targets around the wrap of the pull numbers

    Pull numbers are 8 bits wide and go round. `compute_pull_target` turns the last pull and the last target
    into bytes, without the wrap, and subtracts them as 32-bit numbers. If the last target is ahead of the
    last pull across the wrap, the difference is too large by 256 quanta, so a target that is stuck is not
    seen to be. Nothing else depends on where the wrap is (`pull_target_shift_iff`). -/

namespace EqdsCc

open RdmaState

/-- The same state with the pull numbers moved on by `k`. -/
def EQDSCC.shift (c : EQDSCC) (k : PullQuanta) : EQDSCC :=
  { c with pull := c.pull + k, lastSentPullTarget := c.lastSentPullTarget + k }

open EQDSCC

/-- The target is moved by `k`, and the speculative balance is the same. -/
def WrapInvariant (c : EQDSCC) (env : TxEnv) (chunkSize : ℕ) (k : PullQuanta) : Prop :=
  ((c.shift k).computePullTarget env chunkSize).1 = (c.computePullTarget env chunkSize).1 + k ∧
    ((c.shift k).computePullTarget env chunkSize).2.creditSpec = (c.computePullTarget env chunkSize).2.creditSpec

/-- The demand that no credit covers, in bytes. -/
def EQDSCC.missing (c : EQDSCC) (env : TxEnv) (chunkSize : ℕ) : ℕ :=
  if env.demand chunkSize > c.credit then env.demand chunkSize - c.credit else 0

section Bytes

variable (c : EQDSCC) (env : TxEnv) (chunkSize : ℕ)

theorem EQDSCC.missing_le : c.missing env chunkSize ≤ kEQDSMaxCwnd := by
  have hcap : ∀ x, (if x > kEQDSMaxCwnd then kEQDSMaxCwnd else x) ≤ kEQDSMaxCwnd := by
    intro x
    split
    · exact le_rfl
    · omega
  have hdemand : env.demand chunkSize ≤ kEQDSMaxCwnd := hcap _
  unfold missing
  split
  · omega
  · exact Nat.zero_le _

theorem EQDSCC.pullTargetBytes_eq :
    c.pullTargetBytes env chunkSize = c.missing env chunkSize + c.pull.toNat * pullQuantum := by
  have hlt := unquantize_lt c.pull
  have hle := c.missing_le env chunkSize
  show addU32 (c.missing env chunkSize) (unquantize c.pull) = _
  unfold kEQDSMaxCwnd at hle
  rw [addU32_of_lt (by omega), unquantize_eq]

/-- The last target is as many quanta ahead of the last pull as are missing, counted without the wrap. -/
theorem EQDSCC.targetStuck_iff : c.targetStuck env chunkSize = true ↔
    c.inSpeculating = false ∧ 0 < c.creditSpec ∧ c.missing env chunkSize % pullQuantum < pullQuantum / 2 ∧
      c.lastSentPullTarget.toNat = c.pull.toNat + c.missing env chunkSize / pullQuantum := by
  have hle := c.missing_le env chunkSize
  unfold targetStuck
  rw [Bool.and_eq_true, Bool.and_eq_true, Bool.not_eq_true', decide_eq_true_iff, decide_eq_true_iff, and_assoc,
    pullTargetBytes_eq, unquantize_eq]
  refine and_congr_right fun _ => and_congr_right fun _ => ?_
  unfold subU32
  unfold kEQDSMaxCwnd at hle
  unfold pullQuantum
  omega

end Bytes

theorem shift_comm (p k x : PullQuanta) : p + k + x = p + x + k := by
  rw [BitVec.add_assoc, BitVec.add_comm k, ← BitVec.add_assoc]

/-- A target of some missing bytes after a pull number. -/
theorem quantizeCeil_after {m : ℕ} (p : PullQuanta) :
    quantizeCeil (m + p.toNat * pullQuantum) = p + BitVec.ofNat 8 ((m + pullQuantum - 1) / pullQuantum) := by
  apply BitVec.eq_of_toNat_eq
  unfold quantizeCeil
  rw [BitVec.toNat_ofNat, BitVec.toNat_add, BitVec.toNat_ofNat]
  unfold subU32 addU32 pullShift pullQuantum
  omega

section Shift

variable (c : EQDSCC) (env : TxEnv) (chunkSize : ℕ)

/-- The target, a quantum further if the last one is stuck. -/
theorem EQDSCC.computePullTarget_target : (c.computePullTarget env chunkSize).1 =
    c.pull + BitVec.ofNat 8 ((c.missing env chunkSize + pullQuantum - 1) / pullQuantum) +
      if c.targetStuck env chunkSize then 1#8 else 0#8 := by
  have hle := c.missing_le env chunkSize
  by_cases hstuck : c.targetStuck env chunkSize = true
  · have hsum : addU32 (c.missing env chunkSize + c.pull.toNat * pullQuantum) pullQuantum =
        c.missing env chunkSize + pullQuantum + c.pull.toNat * pullQuantum := by
      unfold kEQDSMaxCwnd at hle
      unfold pullQuantum
      rw [addU32_of_lt (by omega)]
      omega
    have hone : (c.missing env chunkSize + pullQuantum + pullQuantum - 1) / pullQuantum =
        (c.missing env chunkSize + pullQuantum - 1) / pullQuantum + 1 := by
      unfold pullQuantum
      omega
    have htarget : (c.computePullTarget env chunkSize).1 =
        quantizeCeil (addU32 (c.pullTargetBytes env chunkSize) pullQuantum) := by
      unfold computePullTarget
      rw [if_pos hstuck]
    rw [htarget, if_pos hstuck, pullTargetBytes_eq, hsum, quantizeCeil_after, hone, BitVec.ofNat_add, BitVec.add_assoc]
  · have htarget : (c.computePullTarget env chunkSize).1 = quantizeCeil (c.pullTargetBytes env chunkSize) := by
      unfold computePullTarget
      rw [if_neg hstuck]
    rw [htarget, if_neg hstuck, pullTargetBytes_eq, quantizeCeil_after]
    exact (BitVec.add_zero _).symm

theorem EQDSCC.computePullTarget_creditSpec : (c.computePullTarget env chunkSize).2.creditSpec =
    if c.targetStuck env chunkSize then c.creditSpec - pullQuantum else c.creditSpec := by
  by_cases hstuck : c.targetStuck env chunkSize = true
  · have hspec : (c.computePullTarget env chunkSize).2.creditSpec = debit c.creditSpec pullQuantum := by
      unfold computePullTarget
      rw [if_pos hstuck]
    rw [hspec, if_pos hstuck, debit_eq]
  · have hspec : (c.computePullTarget env chunkSize).2.creditSpec = c.creditSpec := by
      -- not by `rfl` at the end: the kernel would compare the targets first
      simp only [computePullTarget, hstuck, if_false, Bool.false_eq_true]
    rw [hspec, if_neg hstuck]

/-- The two runs agree if and only if both or neither take the target for stuck. -/
theorem wrapInvariant_iff_stuck (k : PullQuanta) :
    WrapInvariant c env chunkSize k ↔ (c.shift k).targetStuck env chunkSize = c.targetStuck env chunkSize := by
  have hmissing : (c.shift k).missing env chunkSize = c.missing env chunkSize := rfl
  have hspec : (c.shift k).creditSpec = c.creditSpec := rfl
  have hpos : ∀ c' : EQDSCC, c'.targetStuck env chunkSize = true → 0 < c'.creditSpec :=
    fun c' h => ((c'.targetStuck_iff env chunkSize).mp h).2.1
  have hquantum : 0 < pullQuantum := by decide
  unfold WrapInvariant
  rw [computePullTarget_target, computePullTarget_target, computePullTarget_creditSpec,
    computePullTarget_creditSpec, hmissing, hspec]
  constructor
  · rintro ⟨_, hcredit⟩
    cases h' : (c.shift k).targetStuck env chunkSize with
    | true =>
      cases h : c.targetStuck env chunkSize with
      | true => rfl
      | false =>
        have hlt := hpos _ h'
        rw [h', h, if_pos rfl, if_neg Bool.false_ne_true] at hcredit
        omega
    | false =>
      cases h : c.targetStuck env chunkSize with
      | true =>
        have hlt := hpos _ h
        rw [h', h, if_pos rfl, if_neg Bool.false_ne_true] at hcredit
        omega
      | false => rfl
  · intro hstuck
    rw [hstuck]
    refine ⟨?_, rfl⟩
    show c.pull + k + _ + _ = c.pull + _ + _ + k
    rw [shift_comm c.pull k, shift_comm _ k]

/-- The last target is where a stuck one is, counted around the wrap. -/
def EQDSCC.OnTarget : Prop :=
  c.inSpeculating = false ∧ 0 < c.creditSpec ∧ c.missing env chunkSize % pullQuantum < pullQuantum / 2 ∧
    c.lastSentPullTarget = c.pull + BitVec.ofNat 8 (c.missing env chunkSize / pullQuantum)

/-- A target is stuck if it is where a stuck one is and the wrap is not in between. -/
theorem EQDSCC.targetStuck_iff_onTarget : c.targetStuck env chunkSize = true ↔
    c.OnTarget env chunkSize ∧ c.pull.toNat ≤ c.lastSentPullTarget.toNat := by
  have hle := c.missing_le env chunkSize
  unfold kEQDSMaxCwnd at hle
  rw [targetStuck_iff]
  unfold EQDSCC.OnTarget
  rw [and_assoc, and_assoc, and_assoc]
  refine and_congr_right fun _ => and_congr_right fun _ => and_congr_right fun _ => ?_
  rw [← BitVec.toNat_inj, BitVec.toNat_add, BitVec.toNat_ofNat]
  unfold pullQuantum
  omega

theorem EQDSCC.onTarget_shift (k : PullQuanta) : (c.shift k).OnTarget env chunkSize ↔ c.OnTarget env chunkSize := by
  have hmissing : (c.shift k).missing env chunkSize = c.missing env chunkSize := rfl
  unfold EQDSCC.OnTarget
  refine and_congr_right fun _ => and_congr_right fun _ => and_congr_right fun _ => ?_
  show c.lastSentPullTarget + k = c.pull + k + _ ↔ _
  rw [shift_comm c.pull k]
  exact BitVec.add_left_inj k

/-- The runs agree unless the last target is where a stuck one is and the shift moves the wrap between
    it and the last pull, or out of there. -/
theorem pull_target_shift_iff (k : PullQuanta) : WrapInvariant c env chunkSize k ↔
    (c.OnTarget env chunkSize → (c.pull.toNat ≤ c.lastSentPullTarget.toNat ↔
      (c.pull + k).toNat ≤ (c.lastSentPullTarget + k).toNat)) := by
  rw [wrapInvariant_iff_stuck, Bool.eq_iff_iff, targetStuck_iff_onTarget, targetStuck_iff_onTarget, onTarget_shift]
  constructor
  · intro h hon
    exact ⟨fun hle => (h.mpr ⟨hon, hle⟩).2, fun hle => (h.mp ⟨hon, hle⟩).2⟩
  · intro h
    exact ⟨fun hand => ⟨hand.1, (h hand.1).mpr hand.2⟩, fun hand => ⟨hand.1, (h hand.1).mp hand.2⟩⟩

end Shift

/-- The last target is 0, one quantum after the last pull 255, and one quantum is missing: it is not taken for
    stuck, but one quantum later it is. -/
theorem pull_target_not_shift : let c : EQDSCC := ⟨255#8, 0#8, 0, 1, false⟩
    let env : TxEnv := ⟨0, 16385, none⟩
    c.computePullTarget env 4096 = (0#8, ⟨255#8, 0#8, 0, 1, false⟩) ∧
      (c.shift 1#8).computePullTarget env 4096 = (2#8, ⟨0#8, 2#8, 0, 0, false⟩) ∧ ¬ WrapInvariant c env 4096 1#8 := by
  refine ⟨by decide, by decide, ?_⟩
  unfold WrapInvariant
  decide

end EqdsCc
