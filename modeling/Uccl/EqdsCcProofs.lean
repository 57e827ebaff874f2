import Uccl.RdmaStateProofs

/-! # EQDS congestion control of one flow

    `EQDSCC` (cc/eqds.h) with `compute_pull_target` (eqds.cc) and the two hooks of `EQDSRDMAContext`
    (transport.h) that ask it for permission to send. The struct holds the state of both ends; a flow uses one
    half of it, so there is a record for each: `EQDSCC` at the sender, `Sink` at the receiver.

    Credit is granted in quanta of 16 KB numbered modulo 256 and spent in bytes. The sender keeps two
    balances: what was pulled, and the speculative credit a flow starts with. -/

namespace EqdsCc

open SerialNumber RdmaState

-- ── Pull numbers

/-- `uint8_t`, compared through the sign of a difference. -/
abbrev PullQuanta := BitVec 8

def pullnoGt (a b : PullQuanta) : Bool := serialGt a b

def pullnoGe (a b : PullQuanta) : Bool := decide (0 ≤ (a - b).toInt)

/-- `PULL_QUANTUM`. -/
def pullQuantum : ℕ := 16384

/-- `PULL_SHIFT`. -/
def pullShift : ℕ := 14

def unquantize (pullQuanta : PullQuanta) : ℕ := pullQuanta.toNat <<< pullShift

def quantizeFloor (bytes : ℕ) : PullQuanta := BitVec.ofNat 8 (bytes >>> pullShift)

def quantizeCeil (bytes : ℕ) : PullQuanta :=
  BitVec.ofNat 8 (subU32 (addU32 bytes pullQuantum) 1 >>> pullShift)

def initPullQuanta : PullQuanta := 50

/-- In bytes. -/
def kEQDSMaxCwnd : ℕ := 500000

theorem unquantize_eq (q : PullQuanta) : unquantize q = q.toNat * pullQuantum := Nat.shiftLeft_eq ..

theorem unquantize_lt (q : PullQuanta) : unquantize q < 2 ^ 22 := by
  rw [unquantize_eq, pullQuantum]
  omega

-- ── The sender

/-- The sender's half of `EQDSCC`. -/
structure EQDSCC where
  pull : PullQuanta := initPullQuanta
  lastSentPullTarget : PullQuanta := initPullQuanta
  creditPull : ℕ := 0
  creditSpec : ℕ := kEQDSMaxCwnd
  inSpeculating : Bool := true
  deriving DecidableEq, Repr

def EQDSCC.credit (c : EQDSCC) : ℕ := addU32 c.creditPull c.creditSpec

/-- `if (balance > bytes) balance -= bytes; else balance = 0;` -/
def debit (balance bytes : ℕ) : ℕ := if balance > bytes then balance - bytes else 0

theorem debit_eq (balance bytes : ℕ) : debit balance bytes = balance - bytes := by
  unfold debit
  split
  · rfl
  · omega

/-- `spend_credit`: pulled credit first, then speculative credit. A refused chunk still lowers the speculative
    balance. -/
def EQDSCC.spendCredit (c : EQDSCC) (chunkSize : ℕ) : Bool × EQDSCC :=
  if c.creditPull > 0 then
    (true, { c with creditPull := debit c.creditPull chunkSize })
  else if c.inSpeculating ∧ c.creditSpec > 0 then
    (true, { c with creditSpec := debit c.creditSpec chunkSize })
  else (false, { c with creditSpec := debit c.creditSpec chunkSize })

def EQDSCC.stopSpeculating (c : EQDSCC) : EQDSCC := { c with inSpeculating := false }

/-- What the hooks read of the rest of the subflow; `wnd` is the window of the sender's
    own congestion control if `kSenderCCA` selects one. -/
structure TxEnv where
  unackedBytes : ℕ
  backlogBytes : ℕ
  wnd : Option ℕ
  deriving DecidableEq, Repr

/-- `unacked_bytes_ >= get_wnd()`. -/
def TxEnv.windowFull (env : TxEnv) : Bool :=
  env.wnd.any fun wnd => decide (env.unackedBytes ≥ wnd)

/-- The backlog as far as the windows allow it to be pulled. -/
def TxEnv.demand (env : TxEnv) (chunkSize : ℕ) : ℕ :=
  let bytes := match env.wnd with
    | some wnd =>
      if env.backlogBytes > addU32 wnd chunkSize then addU32 wnd chunkSize else env.backlogBytes
    | none => env.backlogBytes
  if bytes > kEQDSMaxCwnd then kEQDSMaxCwnd else bytes

/-- What the demand exceeds the credit by, counted from the last pull. -/
def EQDSCC.pullTargetBytes (c : EQDSCC) (env : TxEnv) (chunkSize : ℕ) : ℕ :=
  let demand := env.demand chunkSize
  let missing := if demand > c.credit then demand - c.credit else 0
  addU32 missing (unquantize c.pull)

/-- Outside speculation, with speculative credit left, a target that is at most half a quantum above the last one. -/
def EQDSCC.targetStuck (c : EQDSCC) (env : TxEnv) (chunkSize : ℕ) : Bool :=
  !c.inSpeculating && decide (c.creditSpec > 0) &&
    decide (subU32 (c.pullTargetBytes env chunkSize) (unquantize c.lastSentPullTarget)
      < pullQuantum / 2)

/-- `compute_pull_target`. A target that is stuck is moved by a quantum at the expense of the speculative balance. -/
def EQDSCC.computePullTarget (c : EQDSCC) (env : TxEnv) (chunkSize : ℕ) : PullQuanta × EQDSCC :=
  if c.targetStuck env chunkSize then
    let target := quantizeCeil (addU32 (c.pullTargetBytes env chunkSize) pullQuantum)
    (target, { c with
      creditSpec := debit c.creditSpec pullQuantum, lastSentPullTarget := target })
  else
    let target := quantizeCeil (c.pullTargetBytes env chunkSize)
    (target, { c with lastSentPullTarget := target })

/-- All it changes is the target sent last and, downwards, the speculative balance. -/
theorem EQDSCC.computePullTarget_eq (c : EQDSCC) (env : TxEnv) (chunkSize : ℕ) :
    ∃ spec target, spec ≤ c.creditSpec ∧ c.computePullTarget env chunkSize
      = (target, { c with creditSpec := spec, lastSentPullTarget := target }) := by
  unfold EQDSCC.computePullTarget
  split
  · refine ⟨_, _, ?_, rfl⟩
    rw [debit_eq]
    exact Nat.sub_le ..
  · exact ⟨c.creditSpec, _, le_rfl, rfl⟩

/-- `handle_pull`: a later pull number adds its distance, up to a full window. -/
def EQDSCC.handlePull (c : EQDSCC) (pullno : PullQuanta) : Bool × EQDSCC :=
  if pullnoGt pullno c.pull then
    let credit := addU32 c.creditPull (unquantize (pullno - c.pull))
    (true, { c with
      creditPull := if credit > kEQDSMaxCwnd then kEQDSMaxCwnd else credit, pull := pullno })
  else (false, c)

/-- A pull is ignored, or its quanta are added as far as the window allows. -/
theorem EQDSCC.handlePull_cases (c : EQDSCC) (pullno : PullQuanta) (hc : c.creditPull ≤ kEQDSMaxCwnd) :
    c.handlePull pullno = (false, c) ∨
      ∃ credit ≤ kEQDSMaxCwnd, credit ≤ c.creditPull + (pullno - c.pull).toNat * pullQuantum ∧
        c.handlePull pullno = (true, { c with creditPull := credit, pull := pullno }) := by
  unfold EQDSCC.handlePull
  split
  · refine .inr ⟨_, ?_, ?_, rfl⟩
    · split
      · exact le_rfl
      · next hle => exact Nat.not_lt.mp hle
    · have hlt := unquantize_lt (pullno - c.pull)
      rw [kEQDSMaxCwnd] at hc
      rw [← unquantize_eq, addU32_of_lt (by omega)]
      split <;> omega
  · exact .inl rfl

/-- `EventOnChunkSize` of a context with chunks of at most `chunkSize` bytes. -/
def eventOnChunkSize (chunkSize : ℕ) (c : EQDSCC) (env : TxEnv) (remainingBytes : ℕ) :
    ℕ × EQDSCC :=
  if env.windowFull then (0, c)
  else
    let size := min (min chunkSize c.credit) remainingBytes
    let spent := c.spendCredit size
    (if spent.1 then size else 0, spent.2)

/-- `EventOnTxRTXData` for a chunk of `length` bytes: the new pull target of its immediate if it may be sent
    again. If not, the caller's subflow is `in_rtx`. -/
def eventOnTxRTXData (c : EQDSCC) (env : TxEnv) (length : ℕ) : Option PullQuanta × EQDSCC :=
  if c.credit < length then (none, c)
  else
    let spent := c.spendCredit length
    if spent.1 then
      let target := spent.2.computePullTarget env length
      (some target.1, target.2)
    else (none, spent.2)

-- ── The receiver

/-- The receiver's half of `EQDSCC`. `target` and `pulled` are history: the two pull numbers counted in `ℕ`. -/
structure Sink where
  highestPullTarget : PullQuanta := initPullQuanta
  latestPull : PullQuanta := initPullQuanta
  target : ℕ := 50
  pulled : ℕ := 50
  deriving DecidableEq, Repr

/-- `handle_pull_target`. -/
def Sink.handlePullTarget (k : Sink) (pullTarget : PullQuanta) : Bool × Sink :=
  if pullnoGt pullTarget k.highestPullTarget then
    (true, { k with
      highestPullTarget := pullTarget
      target := k.target + (pullTarget - k.highestPullTarget).toNat })
  else (false, k)

def Sink.backlog (k : Sink) : PullQuanta :=
  if pullnoGt k.highestPullTarget k.latestPull then k.highestPullTarget - k.latestPull else 0

def Sink.idleCreditEnough (k : Sink) : Bool :=
  let idleCumulateCredit : PullQuanta :=
    if pullnoGe k.highestPullTarget k.latestPull then 0 else k.latestPull - k.highestPullTarget
  decide (idleCumulateCredit ≥ quantizeFloor kEQDSMaxCwnd)

/-- The two numbers are the low bits of their counters, which are close enough to be compared. -/
structure Sink.Ok (k : Sink) : Prop where
  target : k.highestPullTarget = BitVec.ofNat 8 k.target
  pulled : k.latestPull = BitVec.ofNat 8 k.pulled
  ahead : k.target < k.pulled + 128
  behind : k.pulled ≤ k.target + 128

theorem Sink.ok_initial : Sink.Ok {} := ⟨rfl, rfl, by decide, by decide⟩

/-- **THE BACKLOG** is the part of the target not yet pulled. -/
theorem Sink.Ok.backlog {k : Sink} (h : k.Ok) : k.backlog.toNat = k.target - k.pulled := by
  unfold Sink.backlog pullnoGt
  rw [h.target, h.pulled]
  rcases Nat.lt_or_ge k.pulled k.target with hlt | hle
  · rw [serialGt_ofNat_of_lt (w := 7) hlt h.ahead]
    exact toNat_ofNat_sub hlt.le (Nat.lt_of_lt_of_le h.ahead (by omega))
  · rw [serialGt_ofNat_of_le (w := 7) hle h.behind]
    exact (Nat.sub_eq_zero_of_le hle).symm

/-- Any target that is stored moves the counter forward. -/
theorem Sink.Ok.handlePullTarget {k : Sink} (h : k.Ok) (pullTarget : PullQuanta)
    (hwin : (k.handlePullTarget pullTarget).2.target < k.pulled + 128) : (k.handlePullTarget pullTarget).2.Ok := by
  unfold Sink.handlePullTarget at hwin ⊢
  split
  · next hgt =>
    rw [if_pos hgt] at hwin
    refine ⟨?_, h.pulled, hwin, Nat.le_trans h.behind (by show _ ≤ _ + _ + 128; omega)⟩
    rw [BitVec.ofNat_add, ← h.target, BitVec.ofNat_toNat, BitVec.setWidth_eq, add_sub_cancel]
  · exact h

end EqdsCc
