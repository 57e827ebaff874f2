import Uccl.EpDeviceQuietProofs

/-! # The loop of an EP proxy

    `Proxy::run_dual` (ep/src/proxy.cpp, FIFO backend) goes round five pieces of code: it polls completions, retires
    what they complete (`notify_gpu_completion`), takes triggers off its rings and posts them in one batch
    (`post_gpu_command`, `post_gpu_commands_mixed` or `post_cxi_commands`), posts again the ATOMICs that
    `USE_SENDER_BARRIER` held back, and looks after the barrier. `Pc` says where the thread is; an `advance` is what it
    does up to the next place where something else can happen.

    Every `assert` of these functions is a `Fault`. One of them can fail (`barrier_meets_quiet`): one batch is collected
    from all rings, and `post_gpu_commands_mixed` wants no QUIET next to a BARRIER.

    `pushed`, `popped`, `retired` of a queue, `posted` of a proxy and the `slot` of an item are read by no function. -/

namespace EpProxy

open StepRun EpQueue

variable {Q : ℕ}

-- ── Triggers

/-- `TransferCmd`, as far as the loop reads it: the base command and the 24-bit byte count. -/
structure TransferCmd where
  cmdType : CmdType
  bytes : BitVec 24 := 0
  deriving DecidableEq

/-- A call of the device code (uccl_ibgda.cuh) that pushes a trigger. -/
inductive DeviceCall
  /-- `nvshmemi_ibgda_put_nbi_warp` -/
  | putNbi (bytes : BitVec 24)
  /-- `nvshmemi_ibgda_amo_nonfetch_add` -/
  | amoNonfetchAdd
  /-- `nvshmemi_ibgda_quiet` -/
  | quiet
  /-- `nvshmem_sync_with_same_gpu_idx` -/
  | sync
  deriving DecidableEq

/-- The trigger it pushes: the command is value-initialised, and only a WRITE sets `bytes`. -/
def DeviceCall.cmd : DeviceCall → TransferCmd
  | .putNbi bytes => { cmdType := .write, bytes := bytes }
  | .amoNonfetchAdd => { cmdType := .atomic }
  | .quiet => { cmdType := .quiet }
  | .sync => { cmdType := .barrier }

-- ── The state of a proxy

/-- One device-to-host FIFO with its `fifo_pending_` and `fifo_seq_`. -/
structure D2HQueue where
  /-- triggers pushed and not popped -/
  fifo : List TransferCmd := []
  tail : ℕ := 0
  /-- `fifo_pending_`: work-request id and bytes -/
  pending : List (ℕ × ℕ) := []
  fifoSeq : ℕ := 0
  pushed : List TransferCmd := []
  popped : List TransferCmd := []
  /-- the ids retired, in order -/
  retired : List ℕ := []

/-- The GPU's `push`. -/
def D2HQueue.push (r : D2HQueue) (cmd : TransferCmd) : D2HQueue :=
  { r with fifo := r.fifo ++ [cmd], pushed := r.pushed ++ [cmd] }

/-- `Fifo::pop` -/
def D2HQueue.pop (r : D2HQueue) : D2HQueue :=
  { r with fifo := r.fifo.tail, tail := r.tail + 1, popped := r.popped ++ r.fifo.head?.toList }

/-- The front of the deque goes. -/
def D2HQueue.retire (r : D2HQueue) (wr : ℕ) (rest : List (ℕ × ℕ)) : D2HQueue :=
  { r with pending := rest, retired := r.retired ++ [wr] }

/-- The head of the FIFO is given the next work-request id. -/
def D2HQueue.assign (r : D2HQueue) (i : Fin Q) (cmd : TransferCmd) : D2HQueue :=
  { r with
    pending := r.pending ++ [(uniqueWrId i r.fifoSeq, cmd.bytes.toNat)]
    fifoSeq := r.fifoSeq + 1 }

/-- An entry of `wrs_to_post` and `cmds_to_post`, and which trigger of which ring it is. -/
structure Item (Q : ℕ) where
  ring : Fin Q
  slot : ℕ
  wr : ℕ
  cmd : TransferCmd

/-- Where the thread is. -/
inductive Pc
  | poll
  /-- in `notify_gpu_completion`, at ring `i` -/
  | notify (i : ℕ)
  /-- in `post_gpu_command`, at ring `i` with `budget` takes left -/
  | take (i budget : ℕ)
  | post
  /-- in `post_cxi_commands`; `batch` is what is left -/
  | cxi
  /-- in `quiet_cq` -/
  | quiet (wr emptyIters : ℕ)
  /-- in the QUIET case of `post_cxi_commands` -/
  | cxiQuiet (wr : ℕ)
  /-- before the second `post_gpu_commands_mixed` of `run_dual` -/
  | postpone
  | barrierCheck
  deriving DecidableEq

structure Proxy (Q : ℕ) where
  queue : Fin Q → D2HQueue
  /-- `current_inflight_bytes`, a `size_t` -/
  inflightBytes : ℕ
  acked : Finset ℕ
  barrierInflight : Bool
  barrierWr : Option ℕ
  quietInflight : Bool
  quietWr : Option ℕ
  batch : List (Item Q)
  /-- `postponed_wr_ids_`, `postponed_atomics_` -/
  postponed : List (Item Q)
  /-- posted to the transport and not complete -/
  outstanding : Finset ℕ
  posted : List (Item Q)
  pc : Pc

def Proxy.init : Proxy Q :=
  { queue := fun _ => {}, inflightBytes := 0, acked := ∅, barrierInflight := false, barrierWr := none
    quietInflight := false, quietWr := none, batch := [], postponed := [], outstanding := ∅
    posted := [], pc := .poll }

def kNumProxyThs : ℕ := 4

/-- What is fixed when the proxy starts. The two limits are what `get_max_inflight_normal` or
    `get_max_inflight_low_latency` and `get_max_inflight_bytes` return. -/
structure Config where
  cxi : Bool
  useNormalMode : Bool
  useSenderBarrier : Bool
  kMaxInflight : BitVec 32
  maxInflightBytes : BitVec 64

def Config.maxInflight (cfg : Config) : ℕ := cfg.kMaxInflight.toNat

/-- `max_inflight_bytes` of `post_gpu_command` -/
def Config.byteLimit (cfg : Config) : ℕ := cfg.maxInflightBytes.toNat / kNumProxyThs

/-- The assertions of the modelled functions. -/
inductive Fault
  /-- `post_gpu_command`: `assert(!ctx_.barrier_inflight)`, `assert(ctx_.barrier_wr == -1)` -/
  | barrierTaken
  /-- `post_gpu_command`: `assert(!ctx_.quiet_inflight)`, `assert(ctx_.quiet_wr == -1)` -/
  | quietTaken
  /-- `post_gpu_commands_mixed`: `assert(barrier_wrs.size() == 1 && ctx_.barrier_wr == -1)` -/
  | barrierWrs
  /-- `post_gpu_commands_mixed`: "quiet_wrs should be empty" -/
  | quietNotEmpty
  /-- `post_gpu_commands_mixed`: `assert(quiet_wrs.size() == 1 && ctx_.quiet_wr == -1)` -/
  | quietWrs
  /-- `send_barrier`: `assert(use_cxi_transport() && ctx_.barrier_wr == wr)` -/
  | sendBarrier
  deriving DecidableEq

-- ── Retiring

def setQueue (x : Proxy Q) (i : Fin Q) (r : D2HQueue) : Proxy Q :=
  { x with queue := Function.update x.queue i r }

/-- The retired id is `ctx_.quiet_wr`. -/
def retireQuiet (x : Proxy Q) (i : Fin Q) (wr : ℕ) : Proxy Q :=
  if x.quietWr = some wr then
    setQueue { x with quietInflight := false, quietWr := none } i (x.queue i).pop
  else x

/-- The retired id is `ctx_.barrier_wr`. -/
def retireBarrier (x : Proxy Q) (i : Fin Q) (wr : ℕ) : Proxy Q :=
  if x.barrierWr = some wr then
    setQueue { x with barrierInflight := false, barrierWr := none } i (x.queue i).pop
  else x

/-- `current_inflight_bytes.fetch_sub`, in 64 bits -/
def subBytes (total bytes : ℕ) : ℕ := if bytes ≠ 0 then (total + 2 ^ 64 - bytes) % 2 ^ 64 else total

/-- The front `(wr, bytes)` of the deque of ring `i` retires, `rest` stays. -/
def retireFront (x : Proxy Q) (i : Fin Q) (wr bytes : ℕ) (rest : List (ℕ × ℕ)) : Proxy Q :=
  retireBarrier (retireQuiet
    (setQueue { x with acked := x.acked.erase wr, inflightBytes := subBytes x.inflightBytes bytes }
      i ((x.queue i).retire wr rest)) i wr) i wr

/-- One pass of the `while` of `notify_gpu_completion` at ring `i`. -/
def notifyStep (x : Proxy Q) (i : Fin Q) : Proxy Q :=
  match (x.queue i).pending with
  | [] => { x with pc := .notify (i + 1) }
  | (wr, bytes) :: rest =>
    if wr ∈ x.acked then retireFront x i wr bytes rest else { x with pc := .notify (i + 1) }

-- ── Taking

/-- A trigger that is polled again, or has to wait for another of its kind. -/
def held (x : Proxy Q) (c : CmdType) : Bool :=
  (c == .barrier && x.barrierInflight) || (c == .quiet && x.quietInflight)

/-- `current_inflight_bytes.fetch_add`: only a WRITE of some bytes counts. -/
def addBytes (total : ℕ) (cmd : TransferCmd) : ℕ :=
  if cmd.cmdType = .write ∧ 0 < cmd.bytes.toNat then (total + cmd.bytes.toNat) % 2 ^ 64 else total

/-- The head `cmd` of ring `i` with the next id of the ring. -/
def nextItem (x : Proxy Q) (i : Fin Q) (cmd : TransferCmd) : Item Q :=
  ⟨i, (x.queue i).tail, uniqueWrId i (x.queue i).fifoSeq, cmd⟩

/-- It gets its id and joins the batch. -/
def collect (x : Proxy Q) (i : Fin Q) (cmd : TransferCmd) : Proxy Q :=
  setQueue
    { x with
      inflightBytes := addBytes x.inflightBytes cmd
      batch := x.batch ++ [nextItem x i cmd] }
    i ((x.queue i).assign i cmd)

/-- What follows by the kind of command: a BARRIER or a QUIET stays at the head of its ring. -/
def accept (cfg : Config) (x : Proxy Q) (i : Fin Q) (cmd : TransferCmd) : Except Fault (Proxy Q) :=
  let wr := uniqueWrId i (x.queue i).fifoSeq
  let x' := collect x i cmd
  match cmd.cmdType with
  | .barrier =>
    if x.barrierInflight = true ∨ x.barrierWr ≠ none then .error .barrierTaken
    else .ok { x' with
      barrierInflight := true, barrierWr := if cfg.cxi then some wr else x.barrierWr }
  | .quiet =>
    if x.quietInflight = true ∨ x.quietWr ≠ none then .error .quietTaken
    else .ok { x' with quietInflight := true, quietWr := if cfg.cxi then some wr else x.quietWr }
  | .write | .atomic => .ok (setQueue x' i (x'.queue i).pop)

/-- The take loop is at ring `i`: `budget = kMaxInflight > pending ? kMaxInflight - pending : 0`. -/
def enterRing (cfg : Config) (x : Proxy Q) (i : ℕ) : Proxy Q :=
  let budget := if h : i < Q then cfg.maxInflight - (x.queue ⟨i, h⟩).pending.length else 0
  { x with pc := .take i budget }

/-- Does the take loop of a ring go on after `c`? -/
def goesOn (c : CmdType) : Bool := c == .write || c == .atomic

/-- One turn of the take loop at ring `i`. -/
def takeStep (cfg : Config) (x : Proxy Q) (i : Fin Q) (budget : ℕ) : Except Fault (Proxy Q) :=
  match budget, (x.queue i).fifo with
  | 0, _ => .ok (enterRing cfg x (i + 1))
  | _ + 1, [] => .ok (enterRing cfg x (i + 1))
  | budget + 1, cmd :: _ =>
    if cfg.byteLimit ≤ x.inflightBytes ∨ held x cmd.cmdType = true then
      .ok (enterRing cfg x (i + 1))
    else
      match accept cfg x i cmd with
      | .error f => .error f
      | .ok x' =>
        if goesOn cmd.cmdType then .ok { x' with pc := .take i budget }
        else .ok (enterRing cfg x' (i + 1))

-- ── Posting

/-- `send_barrier`, as far as it touches the queues. -/
def sendBarrier (cfg : Config) (x : Proxy Q) (wr : ℕ) : Except Fault (Proxy Q) :=
  if x.barrierWr = none then .ok { x with barrierWr := some wr }
  else if cfg.cxi = true ∧ x.barrierWr = some wr then .ok x
  else .error .sendBarrier

/-- An ATOMIC whose sent counter has not reached its value yet is held back (`USE_SENDER_BARRIER`, low-latency mode). -/
def postpones (cfg : Config) (ready : ℕ → Bool) (it : Item Q) : Bool :=
  cfg.useSenderBarrier && !cfg.useNormalMode && it.cmd.cmdType == .atomic && !ready it.wr

def ofType (c : CmdType) (items : List (Item Q)) : List (Item Q) :=
  items.filter fun it => it.cmd.cmdType == c

/-- The WRITE and ATOMIC commands. -/
def transfers (items : List (Item Q)) : List (Item Q) :=
  items.filter fun it => goesOn it.cmd.cmdType

def ids (items : List (Item Q)) : Finset ℕ := (items.map Item.wr).toFinset

/-- The BARRIER case of `post_gpu_commands_mixed`. -/
def postBarrier (cfg : Config) (x : Proxy Q) (barriers quiets : List (Item Q)) :
    Except Fault (Proxy Q) :=
  match barriers with
  | [] => .ok x
  | b :: rest =>
    if rest ≠ [] ∨ x.barrierWr ≠ none then .error .barrierWrs
    else if quiets ≠ [] then .error .quietNotEmpty
    else sendBarrier cfg x b.wr

/-- The QUIET case of `post_gpu_commands_mixed`, up to `quiet_cq`; without a QUIET the thread goes on at `next`. -/
def postQuiet (x : Proxy Q) (quiets : List (Item Q)) (next : Pc) : Except Fault (Proxy Q) :=
  match quiets with
  | [] => .ok { x with pc := next }
  | q :: rest =>
    if rest ≠ [] ∨ x.quietWr ≠ none then .error .quietWrs
    else .ok { x with quietWr := some q.wr, pc := .quiet q.wr 0 }

/-- `post_gpu_commands_mixed`: the ATOMICs to be held back are put aside, the other transfers are
    posted, then the BARRIER, then the QUIET. -/
def postMixed (cfg : Config) (ready : ℕ → Bool) (x : Proxy Q) (items : List (Item Q)) (next : Pc) :
    Except Fault (Proxy Q) :=
  let go := items.filter fun it => !postpones cfg ready it
  let x' := { x with
    postponed := x.postponed ++ items.filter (postpones cfg ready)
    outstanding := x.outstanding ∪ ids (transfers go)
    posted := x.posted ++ go }
  match postBarrier cfg x' (ofType .barrier go) (ofType .quiet go) with
  | .error f => .error f
  | .ok x'' => postQuiet x'' (ofType .quiet go) next

/-- `post_cxi_commands`, one command. -/
def postCxi (cfg : Config) (x : Proxy Q) : Except Fault (Proxy Q) :=
  match x.batch with
  | [] => .ok { x with pc := .postpone }
  | it :: rest =>
    let x' := { x with batch := rest, posted := x.posted ++ [it] }
    match it.cmd.cmdType with
    | .write | .atomic => .ok { x' with outstanding := insert it.wr x.outstanding }
    | .quiet => .ok { x' with pc := .cxiQuiet it.wr }
    | .barrier => sendBarrier cfg x' it.wr

-- ── The loop

def kConsecutiveEmptyToExit : ℕ := 3

/-- The thread goes on.  In `quiet_cq` this is a poll that finds nothing. -/
def advance (cfg : Config) (ready : ℕ → Bool) (x : Proxy Q) : Except Fault (Proxy Q) :=
  match x.pc with
  | .poll => .ok { x with pc := .notify 0 }
  | .notify i => if h : i < Q then .ok (notifyStep x ⟨i, h⟩) else .ok (enterRing cfg x 0)
  | .take i budget => if h : i < Q then takeStep cfg x ⟨i, h⟩ budget else .ok { x with pc := .post }
  | .post =>
    if cfg.cxi then .ok { x with pc := .cxi }
    else postMixed cfg ready { x with batch := [] } x.batch .postpone
  | .cxi => postCxi cfg x
  | .quiet wr emptyIters =>
    if kConsecutiveEmptyToExit ≤ emptyIters + 1 then
      .ok { x with acked := insert wr x.acked, pc := .postpone }
    else .ok { x with pc := .quiet wr (emptyIters + 1) }
  | .cxiQuiet wr =>
    if x.outstanding = ∅ then .ok { x with acked := insert wr x.acked, pc := .cxi } else .ok x
  | .postpone => postMixed cfg ready { x with postponed := [] } x.postponed .barrierCheck
  | .barrierCheck => .ok { x with pc := .poll }

/-- The completion of a posted work request is polled, in the main loop or in that of a QUIET. -/
def pollCqe (x : Proxy Q) (wr : ℕ) : Proxy Q :=
  if wr ∈ x.outstanding then
    let x' := { x with outstanding := x.outstanding.erase wr, acked := insert wr x.acked }
    match x.pc with
    | .poll | .cxiQuiet _ => x'
    | .quiet w _ => { x' with pc := .quiet w 0 }
    | _ => x
  else x

/-- `barrier_check` reports the BARRIER in flight. -/
def reportBarrier (cfg : Config) (x : Proxy Q) : Proxy Q :=
  if cfg.useNormalMode = true ∧ x.pc = .barrierCheck then
    match x.barrierWr with
    | some wr => { x with acked := insert wr x.acked }
    | none => x
  else x

/-- The GPU pushes a trigger. -/
def pushCall (x : Proxy Q) (i : Fin Q) (call : DeviceCall) : Proxy Q :=
  setQueue x i ((x.queue i).push call.cmd)

inductive Action (Q : ℕ)
  | push (i : Fin Q) (call : DeviceCall)
  | cqe (wr : ℕ)
  | reportBarrier
  /-- `ready wr`: the sent counter of the ATOMIC `wr` has reached its value -/
  | advance (ready : ℕ → Bool)

def step (cfg : Config) (x : Proxy Q) : Action Q → Except Fault (Proxy Q)
  | .push i call => .ok (pushCall x i call)
  | .cqe wr => .ok (pollCqe x wr)
  | .reportBarrier => .ok (reportBarrier cfg x)
  | .advance ready => advance cfg ready x

-- ── The defect

/-- A proxy over verbs in normal mode, with room for eight commands a ring. -/
def verbsConfig : Config :=
  { cxi := false, useNormalMode := true, useSenderBarrier := false, kMaxInflight := 8
    maxInflightBytes := 4096 }

/-- The thread goes on `n` times, holding nothing back. -/
def advances (n : ℕ) : List (Action Q) := List.replicate n (.advance fun _ => true)

/-- **THE PROXY ABORTS**: a BARRIER on ring 0 and a QUIET on ring 1 are taken in one pass, and the
    batch that holds them is refused. -/
theorem barrier_meets_quiet : runFrom (step verbsConfig) (Proxy.init : Proxy 2)
      ([.push 0 .sync, .push 1 .quiet] ++ advances 8) = .error .quietNotEmpty := by
  rfl

end EpProxy
