import Uccl.EqdsCcProofs
import Uccl.StepRunProofs

/-! # Credit conservation at an EQDS sender

    A flow starts with `kEQDSMaxCwnd` bytes of speculative credit and earns a quantum of bytes for every pull
    number it advances by. Conservation would say that it never sends more than that.

    A chunk is cut to the SUM of the two balances but paid from ONE of them: with any pulled credit left,
    `spend_credit` takes the pulled balance down to zero at most and leaves the speculative one alone, which is
    still there for the next chunk to be cut by (`overspent_eleven_pulls`). Where every chunk paid from pulled
    credit is covered by it, the sum of what was sent and what is left never grows (`credit_conserved`). -/

namespace EqdsCredit

open EqdsCc RdmaState StepRun Except

/-- The sender of a flow. The last two fields are history: the bytes it was allowed to send or to send again,
    and the quanta of all pulls it accepted. -/
structure Sender where
  cc : EQDSCC := {}
  inRtx : Bool := false
  allowedBytes : ℕ := 0
  pulledQuanta : ℕ := 0
  deriving DecidableEq, Repr

/-- The calls on the congestion control of a flow. -/
inductive CreditCall where
  | eventOnChunkSize (env : TxEnv) (remainingBytes : ℕ)
  | eventOnTxRTXData (env : TxEnv) (length : ℕ)
  | handlePull (pullno : PullQuanta)
  | stopSpeculating

def creditStep (chunkSize : ℕ) (s : Sender) : CreditCall → Except Empty Sender
  | .eventOnChunkSize env remainingBytes =>
    let res := eventOnChunkSize chunkSize s.cc env remainingBytes
    .ok { s with cc := res.2, allowedBytes := s.allowedBytes + res.1 }
  | .eventOnTxRTXData env length =>
    let res := eventOnTxRTXData s.cc env length
    if res.1.isSome then .ok { s with cc := res.2, allowedBytes := s.allowedBytes + length }
    else .ok { s with cc := res.2, inRtx := true }
  | .handlePull pullno =>
    let res := s.cc.handlePull pullno
    .ok { s with
      cc := res.2
      pulledQuanta := s.pulledQuanta + if res.1 then (pullno - s.cc.pull).toNat else 0 }
  | .stopSpeculating => .ok { s with cc := s.cc.stopSpeculating }

/-- What is paid from pulled credit does not exceed it. -/
def Covered (chunkSize : ℕ) (s : Sender) : CreditCall → Prop
  | .eventOnChunkSize env remainingBytes =>
    env.windowFull = false → 0 < s.cc.creditPull →
      min (min chunkSize s.cc.credit) remainingBytes ≤ s.cc.creditPull
  | .eventOnTxRTXData _ length =>
    length ≤ s.cc.credit → 0 < s.cc.creditPull → length ≤ s.cc.creditPull
  | .handlePull _ | .stopSpeculating => True

instance (chunkSize : ℕ) (s : Sender) (a : CreditCall) : Decidable (Covered chunkSize s a) := by
  cases a <;> unfold Covered <;> infer_instance

-- ── Balances

/-- Both balances stay within a window, so that their sum does not wrap. -/
structure Bounded (c : EQDSCC) : Prop where
  pull : c.creditPull ≤ kEQDSMaxCwnd
  spec : c.creditSpec ≤ kEQDSMaxCwnd

/-- What is left to spend. -/
def balance (c : EQDSCC) : ℕ := c.creditPull + c.creditSpec

variable {c : EQDSCC}

section

variable (h : Bounded c)
include h

theorem Bounded.credit : c.credit = balance c := by
  have hpull := h.pull
  have hspec := h.spec
  rw [kEQDSMaxCwnd] at hpull hspec
  exact addU32_of_lt (by omega)

/-- **SPENDING**: a chunk within the balance, and within the pulled balance if it is paid
    from there, costs at least its bytes if it is allowed. -/
theorem Bounded.spendCredit {n : ℕ} (hn : n ≤ balance c) (hcov : 0 < c.creditPull → n ≤ c.creditPull) :
    Bounded (c.spendCredit n).2 ∧ (if (c.spendCredit n).1 then n else 0) + balance (c.spendCredit n).2 ≤ balance c := by
  have hpull := h.pull
  have hspec := h.spec
  unfold balance at hn
  unfold EQDSCC.spendCredit
  split
  · next hpos =>
    refine ⟨⟨?_, hspec⟩, ?_⟩
    · show debit c.creditPull n ≤ _
      rw [debit_eq]
      omega
    · show n + (debit c.creditPull n + c.creditSpec) ≤ c.creditPull + c.creditSpec
      rw [debit_eq]
      omega
  · next hzero =>
    have hlow : debit c.creditSpec n ≤ kEQDSMaxCwnd := by
      rw [debit_eq]
      omega
    split
    · refine ⟨⟨hpull, hlow⟩, ?_⟩
      show n + (c.creditPull + debit c.creditSpec n) ≤ c.creditPull + c.creditSpec
      rw [debit_eq]
      omega
    · refine ⟨⟨hpull, hlow⟩, ?_⟩
      show 0 + (c.creditPull + debit c.creditSpec n) ≤ c.creditPull + c.creditSpec
      rw [debit_eq]
      omega

theorem Bounded.computePullTarget (env : TxEnv) (n : ℕ) :
    Bounded (c.computePullTarget env n).2 ∧ balance (c.computePullTarget env n).2 ≤ balance c := by
  obtain ⟨spec, target, hspec, heq⟩ := c.computePullTarget_eq env n
  rw [heq]
  exact ⟨⟨h.pull, hspec.trans h.spec⟩, Nat.add_le_add_left hspec _⟩

theorem Bounded.eventOnChunkSize (chunkSize : ℕ) (env : TxEnv)
    (remainingBytes : ℕ) (hcov : env.windowFull = false → 0 < c.creditPull →
      min (min chunkSize c.credit) remainingBytes ≤ c.creditPull) :
    Bounded (eventOnChunkSize chunkSize c env remainingBytes).2 ∧ (eventOnChunkSize chunkSize c env remainingBytes).1 +
        balance (eventOnChunkSize chunkSize c env remainingBytes).2 ≤ balance c := by
  unfold EqdsCc.eventOnChunkSize
  split
  · exact ⟨h, Nat.le_of_eq (Nat.zero_add _)⟩
  · next hfull =>
    have hcredit := h.credit
    exact h.spendCredit (by omega) (hcov (Bool.eq_false_iff.mpr hfull))

theorem Bounded.eventOnTxRTXData (env : TxEnv) {length : ℕ}
    (hcov : length ≤ c.credit → 0 < c.creditPull → length ≤ c.creditPull) :
    Bounded (eventOnTxRTXData c env length).2 ∧ (if (eventOnTxRTXData c env length).1.isSome then length else 0) +
        balance (eventOnTxRTXData c env length).2 ≤ balance c := by
  unfold EqdsCc.eventOnTxRTXData
  split
  · exact ⟨h, Nat.le_of_eq (Nat.zero_add _)⟩
  · next henough =>
    have hcredit := h.credit
    obtain ⟨hb, hle⟩ := h.spendCredit (n := length) (by omega) (hcov (Nat.not_lt.mp henough))
    dsimp only
    split
    · next hok =>
      rw [if_pos hok] at hle
      obtain ⟨hb', hle'⟩ := hb.computePullTarget env length
      exact ⟨hb', Nat.le_trans (Nat.add_le_add_left hle' length) hle⟩
    · next hno =>
      rw [if_neg hno] at hle
      exact ⟨hb, hle⟩

/-- **PULLING**: the balance grows by the quanta of the pull at most. -/
theorem Bounded.handlePull (pullno : PullQuanta) :
    Bounded (c.handlePull pullno).2 ∧ balance (c.handlePull pullno).2 ≤ balance c +
        (if (c.handlePull pullno).1 then (pullno - c.pull).toNat else 0) * pullQuantum := by
  rcases c.handlePull_cases pullno h.pull with heq | ⟨credit, hmax, hle, heq⟩
  · rw [heq]
    exact ⟨h, Nat.le_add_right ..⟩
  · rw [heq]
    refine ⟨⟨hmax, h.spec⟩, ?_⟩
    show credit + c.creditSpec ≤ c.creditPull + c.creditSpec + (pullno - c.pull).toNat * pullQuantum
    omega

end

-- ── Runs

/-- What was sent and what is left is at most what was given. -/
structure Conserved (s : Sender) : Prop where
  bounded : Bounded s.cc
  total : s.allowedBytes + balance s.cc ≤ kEQDSMaxCwnd + s.pulledQuanta * pullQuantum

theorem conserved_initial : Conserved {} := ⟨⟨by decide, le_rfl⟩, by decide⟩

theorem Conserved.step {chunkSize : ℕ} {s s' : Sender} {a : CreditCall} (h : Conserved s)
    (hcov : Covered chunkSize s a) (hrun : creditStep chunkSize s a = .ok s') : Conserved s' := by
  have htotal := h.total
  cases a with
  | eventOnChunkSize env remainingBytes =>
    obtain ⟨hb, hle⟩ := h.bounded.eventOnChunkSize chunkSize env remainingBytes hcov
    cases hrun
    refine ⟨hb, ?_⟩
    show s.allowedBytes + (eventOnChunkSize chunkSize s.cc env remainingBytes).1
      + balance (eventOnChunkSize chunkSize s.cc env remainingBytes).2
      ≤ kEQDSMaxCwnd + s.pulledQuanta * pullQuantum
    omega
  | eventOnTxRTXData env length =>
    obtain ⟨hb, hle⟩ := h.bounded.eventOnTxRTXData env hcov
    simp only [creditStep] at hrun
    split at hrun
    · next hsome =>
      rw [if_pos hsome] at hle
      cases hrun
      refine ⟨hb, ?_⟩
      show s.allowedBytes + length + balance (eventOnTxRTXData s.cc env length).2
        ≤ kEQDSMaxCwnd + s.pulledQuanta * pullQuantum
      omega
    · next hnone =>
      cases hrun
      refine ⟨hb, ?_⟩
      show s.allowedBytes + balance (eventOnTxRTXData s.cc env length).2 ≤ kEQDSMaxCwnd + s.pulledQuanta * pullQuantum
      omega
  | handlePull pullno =>
    obtain ⟨hb, hle⟩ := h.bounded.handlePull pullno
    cases hrun
    refine ⟨hb, ?_⟩
    show s.allowedBytes + balance (s.cc.handlePull pullno).2 ≤ kEQDSMaxCwnd + (s.pulledQuanta + _) * pullQuantum
    rw [Nat.add_mul]
    omega
  | stopSpeculating =>
    cases hrun
    exact ⟨⟨h.bounded.pull, h.bounded.spec⟩, htotal⟩

/-- **CREDIT IS CONSERVED** in every sequence of calls in which no chunk paid from pulled credit exceeds it. -/
theorem credit_conserved {chunkSize : ℕ} {as : List CreditCall}
    (has : Along (creditStep chunkSize) (Covered chunkSize) {} as) {s : Sender}
    (hs : runFrom (creditStep chunkSize) {} as = .ok s) :
    s.allowedBytes ≤ kEQDSMaxCwnd + s.pulledQuanta * pullQuantum := by
  have h : Conserved s := runFrom_invariant_along (fun _ _ _ h hcov hrun => h.step hcov hrun) conserved_initial has hs
  exact Nat.le_trans (Nat.le_add_right ..) h.total

/-- A backlog that asks for a window, with the sender's own window open. -/
def openEnv : TxEnv := { unackedBytes := 0, backlogBytes := 2 ^ 20, wnd := some (2 ^ 20) }

/-- A speculative chunk, a pull of four quanta, a chunk and a retransmission paid from it. -/
def coveredRun : List CreditCall :=
  [.eventOnChunkSize openEnv 65536, .stopSpeculating, .handlePull 54,
   .eventOnChunkSize openEnv 16384, .eventOnTxRTXData openEnv 49152,
   .eventOnChunkSize openEnv 65536]

theorem credit_conserved_covered : ∃ s, runFrom (creditStep 65536) {} coveredRun = .ok s ∧ s.allowedBytes = 131072 ∧
      s.allowedBytes ≤ kEQDSMaxCwnd + s.pulledQuanta * pullQuantum := by
  refine exists_run_of_guarded (G := Covered 65536) (fun s => s.allowedBytes = 131072) ?_
    fun s halong hrun hs => ⟨hs, credit_conserved halong hrun⟩
  decide +kernel

/-- Eleven pulls of one quantum, each followed by one chunk of 64 KB. -/
def elevenPulls : List CreditCall :=
  .stopSpeculating :: (List.range 11).flatMap fun i =>
    [.handlePull (BitVec.ofNat 8 (51 + i)), .eventOnChunkSize openEnv 65536]

/-- **OVERSPENDING ACCUMULATES**: 704 KB are allowed with 500000 bytes of speculative credit and 176 KB pulled. -/
theorem overspent_eleven_pulls : ∃ s, runFrom (creditStep 65536) {} elevenPulls = .ok s ∧ s.allowedBytes = 11 * 65536 ∧
      s.pulledQuanta = 11 ∧ kEQDSMaxCwnd + s.pulledQuanta * pullQuantum < s.allowedBytes := by
  refine exists_run_of_eval (fun s => s.allowedBytes = 11 * 65536 ∧ s.pulledQuanta = 11) ?_ fun s hrun hs => ?_
  · decide +kernel
  · refine ⟨hs.1, hs.2, ?_⟩
    rw [hs.1, hs.2]
    decide

end EqdsCredit
