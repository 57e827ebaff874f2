import Mathlib.Algebra.BigOperators.Fin
import Mathlib.Algebra.Order.BigOperators.Group.Finset
import Uccl.BarrierRoundProofs
import Uccl.EpBarrierProofs
import Uccl.EpQueueProofs

/-! # The inter-node barrier over CXI

    The CXI transport has no immediates. A node leader tells rank 0 with a remote atomic add of 1 to a word at rank 0,
    and rank 0 releases a leader with an add of 1 to a word there; the words are never cleared. For its barrier number
    `seq` (64 bits) rank 0 waits until the arrival words sum to `seq * (num_nodes - 1)`, a leader until the release word
    is at least `seq`.

    Rank 0 posts its releases whenever the sum is large enough, and it still is when `barrier_check` is entered again
    after the ack, as it is on every loop until the BARRIER reaches the front of its pending deque
    (`overtaken_barrier`).

    The words only grow, so reading them one by one is no more than reading them all at the last load (if the sum
    suffices) or at the first (if not); the model reads them in one step. `calls`, `sent` and `rounds` are read by no
    function. -/

namespace EpCxiBarrier

open StepRun BarrierRound EpQueue Function
open EpBarrier (Rank Pc leader root rank0 rank1 onlyRing leader_ne_root leader_injective eq_leader)

variable {N R Q : ℕ}

/-- All proxies' `ctx_`, the shared words, and the remote adds. -/
structure World (N R Q : ℕ) where
  queues : Rank N R → Queues Q
  barrierSeq : Rank N R → ℕ
  lastSentSeq : Rank N R → ℕ
  pc : Rank N R → Pc
  /-- `arrive_seq[l]` and `release_seq[l]` of node `n`'s `LocalBarrier`, at `(n, l)` -/
  arriveSeq : Rank N R → ℕ
  releaseSeq : Rank N R → ℕ
  /-- adds of the leader of node `n` to rank 0: posted and not applied, applied -/
  arrivalsInFlight : Fin N → ℕ
  arrivalWord : Fin N → ℕ
  /-- adds of rank 0 to the leader of node `n` -/
  releasesInFlight : Fin N → ℕ
  releaseWord : Fin N → ℕ
  calls : Rank N R → ℕ
  sent : Fin N → ℕ
  rounds : ℕ

def World.init : World N R Q :=
  { queues := fun _ => Queues.init, barrierSeq := fun _ => 0, lastSentSeq := fun _ => 0,
    pc := fun _ => .loop, arriveSeq := fun _ => 0, releaseSeq := fun _ => 0,
    arrivalsInFlight := fun _ => 0, arrivalWord := fun _ => 0, releasesInFlight := fun _ => 0,
    releaseWord := fun _ => 0, calls := fun _ => 0, sent := fun _ => 0, rounds := 0 }

/-- What `send_barrier` throws. -/
inductive Fault
  /-- "CXI barrier sequence wrapped" -/
  | seqWrapped
  deriving DecidableEq

-- ── Steps of one proxy

def goto (s : World N R Q) (r : Rank N R) (pc : Pc) : World N R Q :=
  { s with pc := update s.pc r pc }

def ack (s : World N R Q) (r : Rank N R) : World N R Q :=
  { s with queues := update s.queues r (ackBarrier (s.queues r)) }

/-- Only the queues of a rank change. -/
def requeue (s : World N R Q) (r : Rank N R) (q : Queues Q) : World N R Q :=
  { s with queues := update s.queues r q }

/-- `send_barrier`: the number is 64 bits wide, the stored word keeps 32 of them. -/
def sendBarrier (s : World N R Q) (r : Rank N R) : Except Fault (World N R Q) :=
  let seq := (s.barrierSeq r + 1) % 2 ^ 64
  if seq = 0 then .error .seqWrapped
  else .ok { s with
    barrierSeq := update s.barrierSeq r seq
    arriveSeq := update s.arriveSeq r (seq % 2 ^ 32)
    calls := update s.calls r (s.calls r + 1) }

/-- One command of `post_gpu_command` on ring `i` of rank `r`. -/
def post (maxInflight : ℕ) (s : World N R Q) (r : Rank N R) (i : Fin Q) :
    Except Fault (World N R Q) :=
  match take maxInflight (s.queues r) i with
  | none => .ok s
  | some (c, q) => if c = .barrier then sendBarrier (requeue s r q) r else .ok (requeue s r q)

variable [NeZero N] [NeZero R]

/-- `load_cxi_barrier_word_sum(kArrivalSlot)` at rank 0. -/
def arrivalSum (s : World N R Q) : ℕ := (∑ n ∈ Finset.univ.erase (0 : Fin N), s.arrivalWord n) % 2 ^ 64

/-- `expected_arrivals` -/
def expectedArrivals (s : World N R Q) : ℕ := s.barrierSeq root * (N - 1) % 2 ^ 64

/-- All local ranks are in: the first time for this number, a leader other than rank 0 adds 1 to its word at rank 0. -/
def reportArrival (s : World N R Q) (r : Rank N R) : World N R Q :=
  if s.lastSentSeq r = s.barrierSeq r then s
  else
    { s with
      lastSentSeq := update s.lastSentSeq r (s.barrierSeq r)
      sent := update s.sent r.1 (s.calls r)
      arrivalsInFlight := if r = root then s.arrivalsInFlight
        else update s.arrivalsInFlight r.1 (s.arrivalsInFlight r.1 + 1) }

/-- Rank 0 adds 1 to the word of every other leader. -/
def releaseAll (s : World N R Q) : World N R Q :=
  { s with
    releasesInFlight := fun n => if n = 0 then s.releasesInFlight n else s.releasesInFlight n + 1
    rounds := s.rounds + 1 }

/-- What a leader does once it has seen all local ranks. -/
def decideArrived (s : World N R Q) (r : Rank N R) : World N R Q :=
  let s := reportArrival s r
  if r = root then
    if arrivalSum s < expectedArrivals s then goto s r .loop
    else goto (releaseAll s) r (.fan true 0)
  else if s.releaseWord r.1 % 2 ^ 64 < s.barrierSeq r then goto s r .loop
  else goto s r (.fan false 0)

/-- The next shared access of `barrier_check` at rank `r`. -/
def check (s : World N R Q) (r : Rank N R) : World N R Q :=
  match s.pc r with
  | .loop =>
    if (s.queues r).barrierInflight = false then s
    else if r.2 = 0 then goto s r (.scan 0)
    else if s.releaseSeq r = s.barrierSeq r then ack s r
    else s
  | .scan lr =>
    if h : lr < R then
      if s.arriveSeq (r.1, ⟨lr, h⟩) % 2 ^ 32 = s.barrierSeq r % 2 ^ 32 then goto s r (.scan (lr + 1))
      else goto s r .loop
    else goto s r .arrived
  | .arrived => decideArrived s r
  | .fan global lr =>
    if h : lr < R then
      goto { s with releaseSeq := update s.releaseSeq (r.1, ⟨lr, h⟩) (s.barrierSeq r) }
        r (.fan global (lr + 1))
    else goto s r (.finish global)
  | .finish _ => goto (ack s r) r .loop

/-- The steps of the system. -/
inductive Action (N R Q : ℕ)
  | push (r : Rank N R) (i : Fin Q) (c : CmdType)
  | post (r : Rank N R) (i : Fin Q)
  | complete (r : Rank N R) (wr : ℕ)
  | quiet (r : Rank N R)
  | notify (r : Rank N R)
  /-- an add of leader `n` is applied at rank 0 -/
  | applyArrival (n : Fin N)
  /-- an add of rank 0 is applied at leader `n` -/
  | applyRelease (n : Fin N)
  | check (r : Rank N R)

omit [NeZero N] [NeZero R] in
def applyArrival (s : World N R Q) (n : Fin N) : World N R Q :=
  if s.arrivalsInFlight n = 0 then s
  else
    { s with arrivalsInFlight := update s.arrivalsInFlight n (s.arrivalsInFlight n - 1)
             arrivalWord := update s.arrivalWord n (s.arrivalWord n + 1) }

omit [NeZero N] [NeZero R] in
def applyRelease (s : World N R Q) (n : Fin N) : World N R Q :=
  if s.releasesInFlight n = 0 then s
  else
    { s with releasesInFlight := update s.releasesInFlight n (s.releasesInFlight n - 1)
             releaseWord := update s.releaseWord n (s.releaseWord n + 1) }

def step (maxInflight : ℕ) (s : World N R Q) : Action N R Q → Except Fault (World N R Q)
  | .push r i c => .ok (requeue s r (push (s.queues r) i c))
  | .post r i => if s.pc r = .loop then post maxInflight s r i else .ok s
  | .complete r wr => if s.pc r = .loop then .ok (requeue s r (complete (s.queues r) wr)) else .ok s
  | .quiet r => if s.pc r = .loop then .ok (requeue s r (ackQuiet (s.queues r))) else .ok s
  | .notify r => if s.pc r = .loop then .ok (requeue s r (notifyGpuCompletion (s.queues r))) else .ok s
  | .applyArrival n => .ok (applyArrival s n)
  | .applyRelease n => .ok (applyRelease s n)
  | .check r => .ok (check s r)

-- ── What the barrier should guarantee, and when it does

/-- Rank 0 has let its current barrier go. -/
def LetGo (s : World N R Q) : Prop := (s.pc root).releasing = true ∨ ¬ BarrierOpen (s.queues root)

/-- Every other leader has been sent exactly one release for each barrier rank 0 has let go,
    and a BARRIER that is acked has been called by every rank. -/
structure Safe (s : World N R Q) : Prop where
  once : ∀ n, n ≠ 0 → (LetGo s → s.releasesInFlight n + s.releaseWord n = s.calls root) ∧
    (¬ LetGo s → s.releasesInFlight n + s.releaseWord n + 1 = s.calls root)
  acked : ∀ r, BarrierAcked (s.queues r) → ∀ r', s.calls r ≤ s.calls r'

/-- Rank 0 does not enter `barrier_check` when its BARRIER is already acked, and the number of
    arrivals it waits for fits in 64 bits. -/
def EnteredOpen (s : World N R Q) : Action N R Q → Prop
  | .check r => r = root → (s.pc root = .loop → ¬ BarrierAcked (s.queues root)) ∧
      s.calls root * (N - 1) < 2 ^ 64
  | _ => True

instance (s : World N R Q) (a : Action N R Q) : Decidable (EnteredOpen s a) := by
  cases a <;> unfold EnteredOpen <;> infer_instance

-- ── The defect

/-- Two nodes of one rank. Rank 0 acks its first BARRIER behind an incomplete WRITE, goes through `barrier_check` again
    and posts a second release. Node 1 retires with the first, calls its second barrier and finds two. -/
def overtaken : List (Action 2 1 1) :=
  List.flatten
    [[.push rank0 onlyRing .write, .push rank0 onlyRing .barrier, .push rank1 onlyRing .barrier,
      .push rank1 onlyRing .barrier, .post rank0 onlyRing, .post rank0 onlyRing,
      .post rank1 onlyRing],
     List.replicate 4 (.check rank1), [.applyArrival rank1.1],
     List.replicate 7 (.check rank0), [.notify rank0], List.replicate 7 (.check rank0),
     [.applyRelease rank1.1, .applyRelease rank1.1], List.replicate 7 (.check rank1),
     [.notify rank1, .post rank1 onlyRing], List.replicate 7 (.check rank1)]

/-- **THE SECOND BARRIER OF NODE 1 IS ACKED** although rank 0 has only called its first: rank 0
    has sent two releases for one barrier. -/
theorem overtaken_barrier : ∃ s, runFrom (step 8) (World.init : World 2 1 1) overtaken = .ok s ∧
      BarrierAcked (s.queues (leader 1)) ∧ s.calls (leader 1) = 2 ∧ s.calls root = 1 ∧
      s.releasesInFlight 1 + s.releaseWord 1 = 2 ∧ ¬ Safe s := by
  refine exists_run_of_eval (fun s => BarrierAcked (s.queues (leader 1)) ∧ s.calls (leader 1) = 2 ∧ s.calls root = 1 ∧
    s.releasesInFlight 1 + s.releaseWord 1 = 2) ?_ fun s hrun hs => ?_
  · decide +kernel
  · obtain ⟨hacked, hcalls, hroot, hposted⟩ := hs
    refine ⟨hacked, hcalls, hroot, hposted, fun hsafe => ?_⟩
    have hle := hsafe.acked (leader 1) hacked root
    omega

end EpCxiBarrier
