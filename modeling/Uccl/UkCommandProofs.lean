import Uccl.UkLowerProofs

/-! # The commands and device tasks of a plan

    An op of a plan is written down three times before a kernel carries it out: as a `Cmd` (`make_cmd`,
    experimental/ukernel/src/ccl/executor.cc), as the arguments of a task (`DeviceBackend::build_task`,
    backend/device_backend.cc) and as a task of the device (`TaskManager::create_task`, device/task.h). The sizes and
    offsets of a `Cmd` have 32 bits, every reduction becomes a sum, and every task has the element type `Fp32`
    (`commands_unfaithful`, `commands_faithful`). -/

namespace UkCommand

open UkPlan UkLower

-- ── Buffers

/-- The buffer ids of a run.  The scratch buffer is allocated by the executor. -/
structure Buffers where
  input : ℕ
  output : ℕ
  scratch : ℕ

def Buffers.inplace (b : Buffers) : Bool := b.input = b.output

def roleToBuf (b : Buffers) : CollectiveBufferRole → ℕ
  | .input => b.input
  | .output => b.output
  | .scratch => b.scratch

/-- The plan of a rank, none if the configuration is refused. -/
def planOf (config : CollectiveConfig) (inplace : Bool) (rank : ℕ) : List TiledOp :=
  match buildTiled { config with rank := rank } inplace with
  | .ok result => result.ops
  | .error _ => []

-- ── Commands

inductive ReductionKind
  | none
  | sum
  | prod
  | max
  | min
  | bitwiseAnd
  deriving DecidableEq

inductive PutPath
  | device
  | ipc
  | rdma
  | none
  deriving DecidableEq

/-- A conversion to `uint32_t` -/
def u32 (n : ℕ) : ℕ := n % 2 ^ 32

theorem u32_eq_iff {n : ℕ} : u32 n = n ↔ n < 2 ^ 32 := by
  constructor
  · intro h
    rw [← h]
    exact Nat.mod_lt n (by decide)
  · exact Nat.mod_eq_of_lt

/-- A `Cmd`; `putSignal` is the flag `kCmdFlagPutSignal`. -/
structure Cmd where
  kind : ExecOpKind
  srcBuf : ℕ
  dstBuf : ℕ
  srcOff : ℕ
  dstOff : ℕ
  bytes : ℕ
  srcPeer : Option ℕ
  dstPeer : Option ℕ
  redop : ReductionKind
  putPath : PutPath
  putSignal : Bool
  tag : ℕ
  deriving DecidableEq

def makeCmd (op : TiledOp) (redop : ReductionKind) (bufs : Buffers) : Cmd where
  kind := op.kind
  srcBuf := roleToBuf bufs op.srcBufRole
  dstBuf := roleToBuf bufs op.dstBufRole
  srcOff := u32 op.srcOff
  dstOff := u32 op.dstOff
  bytes := u32 op.bytes
  srcPeer := op.srcPeer
  dstPeer := op.dstPeer
  redop := if op.kind = .reduce then redop else .none
  putPath := .none
  putSignal := false
  tag := op.tag

/-- What `enqueue_to_ring` adds to the command of a put with a peer: a path, and the tag of the signal that
    rides on it, if one does. -/
structure Routing where
  path : PutPath
  fused : Option ℕ

def Routing.apply (c : Cmd) (r : Routing) : Cmd :=
  if c.kind = .put ∧ c.dstPeer.isSome then
    { c with putPath := r.path, putSignal := r.fused.isSome, tag := r.fused.getD c.tag }
  else c

/-- The command is for the device backend, otherwise for the transport. -/
def Cmd.toDevice (c : Cmd) : Bool :=
  match c.kind with
  | .put => c.dstPeer.isNone || c.putPath = .device
  | .reduce => true
  | .signal => false
  | .waitSignal => false

-- ── Tasks

inductive TaskType
  | none
  | collCopy
  | collPut
  | collReduce
  deriving DecidableEq

inductive DataType
  | int8
  | int32
  | int64
  | fp8
  | fp16
  | fp32
  | fp64
  | bf16
  deriving DecidableEq

inductive ReduceType
  | none
  | sum
  | prod
  | max
  | min
  | bitwiseAnd
  deriving DecidableEq

def ReduceType.raw : ReduceType → ℕ
  | .none => 0
  | .sum => 1
  | .prod => 2
  | .max => 3
  | .min => 4
  | .bitwiseAnd => 5

/-- Pointers are addresses, and a null pointer is 0. -/
structure TaskArgs where
  src : ℕ
  src2 : ℕ
  dst : ℕ
  bytes : ℕ
  srcRank : Option ℕ
  dstRank : Option ℕ
  srcDevice : ℕ
  dstDevice : ℕ
  redTypeRaw : ℕ
  deriving DecidableEq

/-- A buffer of a peer that the communicator knows. -/
structure Item where
  ptr : ℕ
  bytes : ℕ
  device : ℕ

/-- What the device backend asks of the communicator: `get_ipc` of a buffer of this rank, the items behind
    `try_resolve_remote_ipc_pointer`, and `ipc_signal_ring_device_ptr`. -/
structure Comm where
  ipc : ℕ → Option ℕ
  remote : ℕ → ℕ → Option Item
  ring : ℕ → Option ℕ
  deviceIdx : ℕ

def Comm.tryResolve (comm : Comm) (peer buf offset bytes : ℕ) : Option (ℕ × ℕ) :=
  match comm.remote peer buf with
  | none => none
  | some item =>
    if buf = 0 ∨ item.bytes < offset ∨ item.bytes - offset < bytes then none
    else some (item.ptr + offset, item.device)

structure ResolvedRemote where
  remoteRank : ℕ
  bufferId : ℕ
  ptr : ℕ
  deviceIdx : ℕ

def kMaxLocalBufs : ℕ := 8

/-- `resolved_remote_cache_` and `local_ptr_cache_`.  They hold only what the communicator said. -/
structure Cache (comm : Comm) where
  remote : List ResolvedRemote
  loc : ℕ → Option ℕ
  remote_sound : ∀ e ∈ remote, ∃ item, comm.remote e.remoteRank e.bufferId = some item ∧ e.ptr = item.ptr ∧
    e.deviceIdx = item.device
  loc_sound : ∀ b p, loc b = some p → comm.ipc b = some p

def Cache.empty (comm : Comm) : Cache comm where
  remote := []
  loc _ := none
  remote_sound e he := absurd he List.not_mem_nil
  loc_sound b p h := by cases h

section Build

variable {comm : Comm}

theorem Comm.tryResolve_some {peer buf offset bytes ptr dev : ℕ}
    (h : comm.tryResolve peer buf offset bytes = some (ptr, dev)) :
    ∃ item, comm.remote peer buf = some item ∧ ptr = item.ptr + offset ∧ dev = item.device := by
  unfold Comm.tryResolve at h
  cases hitem : comm.remote peer buf with
  | none =>
    rw [hitem] at h
    cases h
  | some item =>
    rw [hitem] at h
    dsimp only at h
    split at h
    · cases h
    · cases h
      exact ⟨item, rfl, rfl, rfl⟩

def Cache.addRemote (cache : Cache comm) (peer buf ptr dev : ℕ)
    (h : ∃ item, comm.remote peer buf = some item ∧ ptr = item.ptr ∧ dev = item.device) : Cache comm where
  remote := cache.remote ++ [⟨peer, buf, ptr, dev⟩]
  loc := cache.loc
  remote_sound e he := by
    rcases List.mem_append.mp he with he | he
    · exact cache.remote_sound e he
    · rw [List.mem_singleton.mp he]
      exact h
  loc_sound := cache.loc_sound

def Cache.addLoc (cache : Cache comm) (buf ptr : ℕ) (h : comm.ipc buf = some ptr) : Cache comm where
  remote := cache.remote
  loc := if buf < kMaxLocalBufs then Function.update cache.loc buf (some ptr) else cache.loc
  remote_sound := cache.remote_sound
  loc_sound b p hb := by
    split at hb
    · rcases eq_or_ne b buf with rfl | hne
      · rw [Function.update_self] at hb
        rw [h, ← hb]
      · rw [Function.update_of_ne hne] at hb
        exact cache.loc_sound b p hb
    · exact cache.loc_sound b p hb

/-- How `build_task` finds the pointer and device of one side of a command. A buffer id of 0 leaves the
    pointer null and counts as found. -/
def resolveSide (cache : Cache comm) (peer : Option ℕ) (buf off bytes : ℕ) :
    Except String (Option (ℕ × ℕ) × Cache comm) :=
  if buf = 0 then .ok (some (0, comm.deviceIdx), cache)
  else
    match peer with
    | some p =>
      match cache.remote.find? fun e => e.remoteRank = p ∧ e.bufferId = buf with
      | some e => .ok (some (e.ptr + off, e.deviceIdx), cache)
      | none =>
        match h : comm.tryResolve p buf 0 (u32 (off + bytes)) with
        | some (ptr, dev) => .ok (some (ptr + off, dev), cache.addRemote p buf ptr dev (Comm.tryResolve_some h))
        | none => .ok (none, cache)
    | none =>
      match (if buf < kMaxLocalBufs then cache.loc buf else none) with
      | some ptr => .ok (some (ptr + off, comm.deviceIdx), cache)
      | none =>
        match h : comm.ipc buf with
        | none => .error "local IPC not found for buffer_id"
        | some ptr =>
          if ptr = 0 then .ok (none, cache)
          else .ok (some (ptr + off, comm.deviceIdx), cache.addLoc buf ptr h)

/-- The reduction of a task -/
def reduceTypeOf : ReductionKind → ReduceType
  | .none => .none
  | .sum => .sum
  | .prod => .sum
  | .max => .sum
  | .min => .sum
  | .bitwiseAnd => .sum

def unresolved (srcOk dstOk : Bool) (c : Cmd) : String :=
  "[DeviceBackend] unresolved buffer ptr src_ok=" ++ toString srcOk.toNat ++ " dst_ok=" ++ toString dstOk.toNat ++
    " src_buf=" ++ toString c.srcBuf ++ " dst_buf=" ++ toString c.dstBuf

def noRing (peer : ℕ) : String :=
  "[DeviceBackend] PutSignal flagged but peer signal ring is not GPU-mapped (dst_peer=" ++ toString peer ++ ")"

def baseTaskType : ExecOpKind → Option TaskType
  | .put => some .collCopy
  | .reduce => some .collReduce
  | .signal => none
  | .waitSignal => none

/-- `none` stands for `false`: the backend does not have this kind of op. -/
def buildTask (cache : Cache comm) (c : Cmd) : Except String (Option (TaskArgs × TaskType) × Cache comm) := do
  let (src, cache) ← resolveSide cache c.srcPeer c.srcBuf c.srcOff c.bytes
  let (dst, cache) ← resolveSide cache c.dstPeer c.dstBuf c.dstOff c.bytes
  match baseTaskType c.kind with
  | none => return (none, cache)
  | some tt =>
    let (srcPtr, srcDev) := src.getD (0, comm.deviceIdx)
    let (dstPtr, dstDev) := dst.getD (0, comm.deviceIdx)
    let args : TaskArgs :=
      ⟨srcPtr, 0, dstPtr, c.bytes, c.srcPeer, c.dstPeer, srcDev, dstDev, (reduceTypeOf c.redop).raw⟩
    let (args, tt) ←
      if c.putSignal then
        match comm.ring (c.dstPeer.getD 0) with
        | none => .error (noRing (c.dstPeer.getD 0))
        | some ring => .ok ({ args with src2 := ring, redTypeRaw := c.tag }, TaskType.collPut)
      else .ok (args, tt)
    if src.isSome && dst.isSome then return (some (args, tt), cache)
    else .error (unresolved src.isSome dst.isSome c)

end Build

/-- A `Task`, with the arguments that its index leads to. -/
structure Task where
  type : TaskType
  dataType : DataType
  args : TaskArgs
  deriving DecidableEq

def isSupportedReduceDtype : DataType → Bool
  | .fp8 => false
  | _ => true

/-- `none` if an assertion fails.  The pool of argument slots is taken not to be empty. -/
def createTask (args : TaskArgs) (tt : TaskType) (dt : DataType) : Option Task :=
  if tt = .none then none
  else if tt = .collReduce ∧ (isSupportedReduceDtype dt = false ∨ args.redTypeRaw % 256 = ReduceType.none.raw) then none
  else some ⟨tt, dt, args⟩

/-- What `do_enqueue_reserved_batch` gives to the device for a command. -/
def deviceTask {comm : Comm} (cache : Cache comm) (c : Cmd) : Option Task :=
  match buildTask cache c with
  | .ok (some (args, tt), _) => createTask args tt .fp32
  | _ => none

-- ── Meanings

/-- What a data op does: it moves `bytes` from one address to another, and combines them with what is there
    if it has a reduction and an element type. -/
structure Work where
  bytes : ℕ
  src : ℕ
  dst : ℕ
  combine : Option (ReductionKind × ScalarType)
  deriving DecidableEq

/-- Where a buffer of this rank or of a peer begins. -/
def Comm.bufferAt (comm : Comm) (peer : Option ℕ) (buf : ℕ) : Option ℕ :=
  match peer with
  | some p => (comm.remote p buf).map Item.ptr
  | none => comm.ipc buf

/-- The work of an op of a plan. -/
def opWork (comm : Comm) (bufs : Buffers) (reduction : ReductionKind) (dtype : ScalarType) (o : TiledOp) : Option Work := do
  let src ← comm.bufferAt o.srcPeer (roleToBuf bufs o.srcBufRole)
  let dst ← comm.bufferAt o.dstPeer (roleToBuf bufs o.dstBufRole)
  return ⟨o.bytes, src + o.srcOff, dst + o.dstOff, if o.kind = .reduce then some (reduction, dtype) else none⟩

/-- What `read_reduce_store` does for a number. -/
def reductionOf : ℕ → ReductionKind
  | 1 => .sum
  | 2 => .prod
  | 3 => .max
  | 4 => .min
  | 5 => .bitwiseAnd
  | _ => .none

def elementOf : DataType → Option ScalarType
  | .int8 => some .int8
  | .int32 => some .int32
  | .int64 => some .int64
  | .fp8 => none
  | .fp16 => some .float16
  | .fp32 => some .float32
  | .fp64 => some .float64
  | .bf16 => some .bFloat16

/-- The work that a kernel does for a task (`dispatch_task`). -/
def Task.work (t : Task) : Option Work :=
  match t.type with
  | .none => none
  | .collCopy => some ⟨t.args.bytes, t.args.src, t.args.dst, none⟩
  | .collPut => some ⟨t.args.bytes, t.args.src, t.args.dst, none⟩
  | .collReduce =>
    (elementOf t.dataType).map fun e =>
      ⟨t.args.bytes, t.args.src, t.args.dst, some (reductionOf t.args.redTypeRaw, e)⟩

/-- The command has the sizes, the offsets, the buffers, the peers and the reduction of the op. -/
def CmdFaithful (bufs : Buffers) (reduction : ReductionKind) (o : TiledOp) (c : Cmd) : Prop :=
  c.kind = o.kind ∧ c.bytes = o.bytes ∧ c.srcOff = o.srcOff ∧ c.dstOff = o.dstOff ∧
    c.srcBuf = roleToBuf bufs o.srcBufRole ∧ c.dstBuf = roleToBuf bufs o.dstBufRole ∧ c.srcPeer = o.srcPeer ∧
    c.dstPeer = o.dstPeer ∧ (o.kind = .reduce → c.redop = reduction)

/-- The routings that `enqueue_to_ring` chooses: the tag rides on a device task only if the ring of the peer
    is mapped (`can_fuse_put_signal`). -/
def Routing.Allowed (comm : Comm) (o : TiledOp) (r : Routing) : Prop :=
  r.path = .device → r.fused.isSome → (comm.ring (o.dstPeer.getD 0)).isSome

/-- However the op is routed, its command is faithful to it, and so is the task that the device backend makes
    of the command. -/
def Faithful (comm : Comm) (bufs : Buffers) (reduction : ReductionKind) (dtype : ScalarType) (o : TiledOp) : Prop :=
  ∀ r : Routing, r.Allowed comm o →
    CmdFaithful bufs reduction o (r.apply (makeCmd o reduction bufs)) ∧
      ((r.apply (makeCmd o reduction bufs)).toDevice = true → ∀ cache : Cache comm,
        ∃ w, (deviceTask cache (r.apply (makeCmd o reduction bufs))).bind Task.work = some w ∧
          opWork comm bufs reduction dtype o = some w)

/-- The sizes and offsets that a `Cmd` has room for. -/
def Fits (o : TiledOp) : Prop := o.bytes < 2 ^ 32 ∧ o.srcOff < 2 ^ 32 ∧ o.dstOff < 2 ^ 32
deriving Decidable

/-- The buffer is registered, and it is as large as it has to be. -/
def Comm.Holds (comm : Comm) (peer : Option ℕ) (buf need : ℕ) : Prop :=
  buf ≠ 0 ∧
    match peer with
    | some p => ∃ item, comm.remote p buf = some item ∧ need ≤ item.bytes
    | none => ∃ ptr, comm.ipc buf = some ptr ∧ ptr ≠ 0

/-- A data op stays within registered buffers. -/
structure Placed (comm : Comm) (bufs : Buffers) (o : TiledOp) : Prop where
  src : comm.Holds o.srcPeer (roleToBuf bufs o.srcBufRole) (o.srcOff + o.bytes)
  dst : comm.Holds o.dstPeer (roleToBuf bufs o.dstBufRole) (o.dstOff + o.bytes)

-- ── What a task does

section Sides

variable {comm : Comm} {peer : Option ℕ} {buf off bytes need : ℕ}

theorem u32_le (n : ℕ) : u32 n ≤ n := Nat.mod_le n _

/-- Whatever is in the cache, a side of a command is the buffer that the communicator has. -/
theorem resolveSide_spec (cache : Cache comm) (h : comm.Holds peer buf need) (hneed : off + bytes ≤ need) :
    ∃ base dev cache', comm.bufferAt peer buf = some base ∧
      resolveSide cache peer buf off bytes = .ok (some (base + off, dev), cache') := by
  obtain ⟨hbuf, hmem⟩ := h
  unfold resolveSide Comm.bufferAt
  rw [if_neg hbuf]
  cases peer with
  | some p =>
    obtain ⟨item, hitem, hsize⟩ := hmem
    dsimp only
    cases hfind : cache.remote.find? fun e => e.remoteRank = p ∧ e.bufferId = buf with
    | some e =>
      obtain ⟨item', hitem', hptr, -⟩ := cache.remote_sound e (List.mem_of_find?_eq_some hfind)
      have hkey : e.remoteRank = p ∧ e.bufferId = buf := by simpa using List.find?_some hfind
      rw [hkey.1, hkey.2] at hitem'
      exact ⟨e.ptr, e.deviceIdx, cache, by rw [hitem', hptr]; rfl, rfl⟩
    | none =>
      have hres : comm.tryResolve p buf 0 (u32 (off + bytes)) = some (item.ptr, item.device) := by
        have hle := u32_le (off + bytes)
        unfold Comm.tryResolve
        rw [hitem]
        dsimp only
        rw [if_neg (by omega), Nat.add_zero]
      refine ⟨item.ptr, item.device, cache.addRemote p buf item.ptr item.device ⟨item, hitem, rfl, rfl⟩,
        by rw [hitem]; rfl, ?_⟩
      dsimp only
      split
      · rename_i ptr dev heq
        rw [hres] at heq
        cases heq
        rfl
      · rename_i heq
        rw [hres] at heq
        cases heq
  | none =>
    obtain ⟨ptr, hptr, hnull⟩ := hmem
    cases hloc : (if buf < kMaxLocalBufs then cache.loc buf else none) with
    | some p =>
      refine ⟨p, comm.deviceIdx, cache, ?_, rfl⟩
      split at hloc
      · exact cache.loc_sound buf p hloc
      · cases hloc
    | none =>
      refine ⟨ptr, comm.deviceIdx, cache.addLoc buf ptr hptr, hptr, ?_⟩
      dsimp only
      split
      · rename_i heq
        rw [hptr] at heq
        cases heq
      · rename_i p heq
        rw [hptr] at heq
        cases heq
        rw [if_neg hnull]

end Sides

section Tasks

variable {comm : Comm} {bufs : Buffers} {reduction : ReductionKind} {dtype : ScalarType} {o : TiledOp} {c : Cmd}
  {path : PutPath}

/-- The arguments of a task whose buffers are found. -/
def argsOf (c : Cmd) (src dst : ℕ × ℕ) : TaskArgs :=
  ⟨src.1, 0, dst.1, c.bytes, c.srcPeer, c.dstPeer, src.2, dst.2, (reduceTypeOf c.redop).raw⟩

section

variable {cache cache₁ cache₂ : Cache comm} {src dst : ℕ × ℕ} {tt : TaskType} {ring : ℕ}

section

variable (hsrc : resolveSide cache c.srcPeer c.srcBuf c.srcOff c.bytes = .ok (some src, cache₁))
include hsrc

section

variable (hdst : resolveSide cache₁ c.dstPeer c.dstBuf c.dstOff c.bytes = .ok (some dst, cache₂))
include hdst

theorem buildTask_plain (htt : baseTaskType c.kind = some tt) (hplain : c.putSignal = false) :
    buildTask cache c = .ok (some (argsOf c src dst, tt), cache₂) := by
  unfold buildTask
  rw [hsrc]
  dsimp only [bind, Except.bind]
  rw [hdst]
  rw [htt, hplain]
  rfl

theorem buildTask_fused (htt : baseTaskType c.kind = some tt) (hfused : c.putSignal = true)
    (hring : comm.ring (c.dstPeer.getD 0) = some ring) : buildTask cache c =
      .ok (some ({ argsOf c src dst with src2 := ring, redTypeRaw := c.tag }, .collPut), cache₂) := by
  unfold buildTask
  rw [hsrc]
  dsimp only [bind, Except.bind]
  rw [hdst]
  rw [htt, hfused, hring]
  rfl

end

end

end

/-- The task of a copy copies, with the tag of a signal or without. -/
theorem deviceTask_put {cache cache₁ cache₂ : Cache comm} {src dst : ℕ × ℕ}
    (hsrc : resolveSide cache c.srcPeer c.srcBuf c.srcOff c.bytes = .ok (some src, cache₁))
    (hdst : resolveSide cache₁ c.dstPeer c.dstBuf c.dstOff c.bytes = .ok (some dst, cache₂))
    (hkind : c.kind = .put) (hring : c.putSignal = true → (comm.ring (c.dstPeer.getD 0)).isSome) :
    (deviceTask cache c).bind Task.work = some ⟨c.bytes, src.1, dst.1, none⟩ := by
  have htt : baseTaskType c.kind = some .collCopy := by rw [hkind]; rfl
  unfold deviceTask
  cases hsig : c.putSignal with
  | false =>
    rw [buildTask_plain hsrc hdst htt hsig]
    rfl
  | true =>
    obtain ⟨ring, hring⟩ := Option.isSome_iff_exists.mp (hring hsig)
    rw [buildTask_fused hsrc hdst htt hsig hring]
    rfl

/-- The task of a reduction, whatever it was configured to be, sums `Float32`. -/
theorem deviceTask_reduce {cache cache₁ cache₂ : Cache comm} {src dst : ℕ × ℕ}
    (hsrc : resolveSide cache c.srcPeer c.srcBuf c.srcOff c.bytes = .ok (some src, cache₁))
    (hdst : resolveSide cache₁ c.dstPeer c.dstBuf c.dstOff c.bytes = .ok (some dst, cache₂))
    (hkind : c.kind = .reduce) (hplain : c.putSignal = false) : (deviceTask cache c).bind Task.work =
      if c.redop = .none then none else some ⟨c.bytes, src.1, dst.1, some (.sum, .float32)⟩ := by
  have htt : baseTaskType c.kind = some .collReduce := by rw [hkind]; rfl
  unfold deviceTask
  rw [buildTask_plain hsrc hdst htt hplain]
  dsimp only [argsOf]
  cases c.redop <;> rfl

/-- A routing changes the path, the flag and the tag, and sets the flag only of a put that is fused. -/
theorem Routing.apply_eq (r : Routing) (c : Cmd) :
    ∃ path sig tag, r.apply c = { c with putPath := path, putSignal := sig, tag := tag } ∧
      (sig = true → c.putSignal = true ∨ (c.kind = .put ∧ c.dstPeer.isSome ∧ r.fused.isSome ∧ r.path = path)) := by
  unfold Routing.apply
  split
  · rename_i hput
    exact ⟨r.path, r.fused.isSome, r.fused.getD c.tag, rfl, fun hsome => .inr ⟨hput.1, hput.2, hsome, rfl⟩⟩
  · exact ⟨c.putPath, c.putSignal, c.tag, rfl, .inl⟩

/-- Both sides of the command of a placed op, with the offsets cut to 32 bits. -/
theorem sides_found (cache : Cache comm) (h : Placed comm bufs o) {c : Cmd} {sig : Bool} {tag : ℕ}
    (hc : c = { makeCmd o reduction bufs with putPath := path, putSignal := sig, tag := tag }) :
    ∃ src dst sdev ddev cache₁ cache₂, comm.bufferAt o.srcPeer (roleToBuf bufs o.srcBufRole) = some src ∧
      comm.bufferAt o.dstPeer (roleToBuf bufs o.dstBufRole) = some dst ∧
      resolveSide cache c.srcPeer c.srcBuf c.srcOff c.bytes = .ok (some (src + u32 o.srcOff, sdev), cache₁) ∧
      resolveSide cache₁ c.dstPeer c.dstBuf c.dstOff c.bytes = .ok (some (dst + u32 o.dstOff, ddev), cache₂) := by
  have hbytes := u32_le o.bytes
  have hso := u32_le o.srcOff
  have hdo := u32_le o.dstOff
  obtain ⟨src, sdev, cache₁, hsrc, hrsrc⟩ :=
    resolveSide_spec cache h.src (by omega : u32 o.srcOff + u32 o.bytes ≤ o.srcOff + o.bytes)
  obtain ⟨dst, ddev, cache₂, hdst, hrdst⟩ :=
    resolveSide_spec cache₁ h.dst (by omega : u32 o.dstOff + u32 o.bytes ≤ o.dstOff + o.bytes)
  subst hc
  exact ⟨src, dst, sdev, ddev, cache₁, cache₂, hsrc, hdst, hrsrc, hrdst⟩

theorem opWork_of_placed {src dst : ℕ} (hsrc : comm.bufferAt o.srcPeer (roleToBuf bufs o.srcBufRole) = some src)
    (hdst : comm.bufferAt o.dstPeer (roleToBuf bufs o.dstBufRole) = some dst) : opWork comm bufs reduction dtype o =
      some ⟨o.bytes, src + o.srcOff, dst + o.dstOff, if o.kind = .reduce then some (reduction, dtype) else none⟩ := by
  unfold opWork
  rw [hsrc, hdst]
  rfl

theorem cmdFaithful_iff {sig : Bool} {tag : ℕ} :
    CmdFaithful bufs reduction o { makeCmd o reduction bufs with putPath := path, putSignal := sig, tag := tag } ↔
      Fits o := by
  unfold CmdFaithful Fits
  dsimp only [makeCmd]
  rw [u32_eq_iff, u32_eq_iff, u32_eq_iff]
  constructor
  · rintro ⟨-, hbytes, hsrc, hdst, -⟩
    exact ⟨hbytes, hsrc, hdst⟩
  · rintro ⟨hbytes, hsrc, hdst⟩
    exact ⟨rfl, hbytes, hsrc, hdst, rfl, rfl, rfl, rfl, fun hred => if_pos hred⟩

/-- What the device can be told of the op. -/
def Expressible (reduction : ReductionKind) (dtype : ScalarType) (o : TiledOp) : Prop :=
  Fits o ∧ (o.kind = .reduce → reduction = .sum ∧ dtype = .float32)
deriving Decidable

section

variable (hplaced : o.kind = .put ∨ o.kind = .reduce → Placed comm bufs o)
include hplaced

theorem faithful_of_expressible (h : Expressible reduction dtype o) : Faithful comm bufs reduction dtype o := by
  intro r hallowed
  obtain ⟨path, sig, tag, heq, hsig⟩ := r.apply_eq (makeCmd o reduction bufs)
  refine ⟨by rw [heq]; exact cmdFaithful_iff.mpr h.1, ?_⟩
  intro hdev cache
  have hkinds : o.kind = .put ∨ o.kind = .reduce := by
    dsimp only [makeCmd] at hdev
    cases hk : o.kind <;> rw [hk] at hdev
    · exact .inl rfl
    · exact .inr rfl
    · cases hdev
    · cases hdev
  obtain ⟨src, dst, sdev, ddev, cache₁, cache₂, hsrc, hdst, hrsrc, hrdst⟩ := sides_found cache (hplaced hkinds) heq
  refine ⟨_, ?_, opWork_of_placed hsrc hdst⟩
  obtain ⟨⟨hb, hs, hd⟩, hred⟩ := h
  rw [u32_eq_iff.mpr hs] at hrsrc
  rw [u32_eq_iff.mpr hd] at hrdst
  have hbytes : (r.apply (makeCmd o reduction bufs)).bytes = o.bytes := by
    rw [heq]
    exact u32_eq_iff.mpr hb
  have hkind : (r.apply (makeCmd o reduction bufs)).kind = o.kind := by rw [heq]; rfl
  rcases hkinds with hk | hk
  · -- a put, whose ring is mapped if its tag rides on the task
    rw [deviceTask_put hrsrc hrdst (hkind.trans hk) ?_, hbytes, if_neg (by rw [hk]; decide)]
    intro hflag
    rw [heq] at hflag hdev ⊢
    rcases hsig hflag with hcon | ⟨-, hpeer, hfused, hpath⟩
    · cases hcon
    · have hdevice : path = .device := by
        unfold Cmd.toDevice at hdev
        dsimp only [makeCmd] at hdev hpeer
        rw [hk] at hdev
        obtain ⟨p, hp⟩ := Option.isSome_iff_exists.mp hpeer
        rw [hp] at hdev
        simpa using hdev
      exact hallowed (hpath.trans hdevice) hfused
  · have hplain : (r.apply (makeCmd o reduction bufs)).putSignal = false := by
      rw [heq]
      cases hflag : sig with
      | false => rfl
      | true =>
        rcases hsig hflag with hcon | ⟨hput, -⟩
        · cases hcon
        · rw [show (makeCmd o reduction bufs).kind = o.kind from rfl, hk] at hput
          cases hput
    have hop : (r.apply (makeCmd o reduction bufs)).redop = .sum := by
      rw [heq]
      exact (if_pos hk).trans (hred hk).1
    rw [deviceTask_reduce hrsrc hrdst (hkind.trans hk) hplain, hop, hbytes, if_pos hk, (hred hk).1, (hred hk).2]
    rfl

theorem expressible_of_faithful (h : Faithful comm bufs reduction dtype o) : Expressible reduction dtype o := by
  have hallowed : Routing.Allowed comm o ⟨.ipc, none⟩ := fun _ hfused => by cases hfused
  obtain ⟨hcmd, hdev⟩ := h ⟨.ipc, none⟩ hallowed
  obtain ⟨path, sig, tag, heq, hsig⟩ := Routing.apply_eq ⟨.ipc, none⟩ (makeCmd o reduction bufs)
  have hfits : Fits o := by
    rw [heq] at hcmd
    exact cmdFaithful_iff.mp hcmd
  refine ⟨hfits, fun hk => ?_⟩
  -- the device sums floats, so the op has to as well
  have hkind : (Routing.apply (makeCmd o reduction bufs) ⟨.ipc, none⟩).kind = .reduce := by
    rw [heq]
    exact hk
  have hplain : (Routing.apply (makeCmd o reduction bufs) ⟨.ipc, none⟩).putSignal = false := by
    rw [heq]
    cases hflag : sig with
    | false => rfl
    | true =>
      rcases hsig hflag with hcon | ⟨-, -, hcon, -⟩
      · cases hcon
      · cases hcon
  have htodev : (Routing.apply (makeCmd o reduction bufs) ⟨.ipc, none⟩).toDevice = true := by
    unfold Cmd.toDevice
    rw [hkind]
  obtain ⟨src, dst, sdev, ddev, cache₁, cache₂, hsrc, hdst, hrsrc, hrdst⟩ :=
    sides_found (Cache.empty comm) (hplaced (.inr hk)) heq
  obtain ⟨w, hw, hop⟩ := hdev htodev (Cache.empty comm)
  rw [opWork_of_placed hsrc hdst] at hop
  cases hop
  rw [deviceTask_reduce hrsrc hrdst hkind hplain] at hw
  split at hw
  · cases hw
  · simp only [Option.some.injEq, Work.mk.injEq, Prod.mk.injEq] at hw
    exact ⟨hw.2.2.2.1.symm, hw.2.2.2.2.symm⟩

end

end Tasks

-- ── The commands of a plan

/-- Every data op of the plan stays within registered buffers. -/
def PlanPlaced (comm : Comm) (bufs : Buffers) (plan : List TiledOp) : Prop :=
  ∀ o ∈ plan, o.kind = .put ∨ o.kind = .reduce → Placed comm bufs o

section Plan

variable {comm : Comm} {bufs : Buffers} {reduction : ReductionKind} {dtype : ScalarType} {plan : List TiledOp}

theorem plan_faithful (hplaced : PlanPlaced comm bufs plan) (h : ∀ o ∈ plan, Expressible reduction dtype o) :
    ∀ o ∈ plan, Faithful comm bufs reduction dtype o :=
  fun o ho => faithful_of_expressible (hplaced o ho) (h o ho)

theorem plan_unfaithful (hplaced : PlanPlaced comm bufs plan) (h : ¬ ∀ o ∈ plan, Expressible reduction dtype o) :
    ∃ o ∈ plan, ¬ Faithful comm bufs reduction dtype o := by
  by_contra hall
  refine h fun o ho => expressible_of_faithful (hplaced o ho) ?_
  by_contra hnot
  exact hall ⟨o, ho, hnot⟩

end Plan

/-- **The commands and tasks of a plan mean its ops** exactly if no size or offset of it needs more than 32
    bits and what it reduces are sums of `Float32`. -/
theorem commands_faithful (config : CollectiveConfig) (reduction : ReductionKind) (rank : ℕ) (bufs : Buffers) (comm : Comm)
    (hplaced : PlanPlaced comm bufs (planOf config bufs.inplace rank)) :
    (∀ o ∈ planOf config bufs.inplace rank, Faithful comm bufs reduction config.dtype o) ↔
      ∀ o ∈ planOf config bufs.inplace rank, Expressible reduction config.dtype o := by
  constructor
  · intro h o ho
    exact expressible_of_faithful (hplaced o ho) (h o ho)
  · exact plan_faithful hplaced

-- ── Plans that the device does not carry out

/-- A communicator that has every buffer, at the same place and with 1 TiB. -/
def roomy : Comm := ⟨fun _ => some 4096, fun _ _ => some ⟨8192, 2 ^ 40, 1⟩, fun _ => none, 0⟩

def threeBufs : Buffers := ⟨1, 2, 3⟩

def ringOf (bytes tile : ℕ) (dtype : ScalarType) : CollectiveConfig :=
  ⟨.allReduceRing, 2, 0, bytes, bytes, tile, [], [], dtype, 1⟩

theorem roomy_placed {plan : List TiledOp} (h : ∀ o ∈ plan, o.srcOff + o.bytes ≤ 2 ^ 40 ∧ o.dstOff + o.bytes ≤ 2 ^ 40) :
    PlanPlaced roomy threeBufs plan := by
  have hbuf : ∀ role, roleToBuf threeBufs role ≠ 0 := by
    intro role
    cases role <;> decide
  have hholds : ∀ peer role need, need ≤ 2 ^ 40 → roomy.Holds peer (roleToBuf threeBufs role) need := by
    intro peer role need hneed
    refine ⟨hbuf role, ?_⟩
    cases peer with
    | none => exact ⟨4096, rfl, by decide⟩
    | some p => exact ⟨_, rfl, hneed⟩
  intro o ho _
  exact ⟨hholds _ _ _ (h o ho).1, hholds _ _ _ (h o ho).2⟩

theorem commands_faithful_of_floats : planOf (ringOf 32 8 .float32) false 0 ≠ [] ∧
    ∀ o ∈ planOf (ringOf 32 8 .float32) false 0, Faithful roomy threeBufs .sum .float32 o :=
  ⟨by decide +kernel,
    (commands_faithful (ringOf 32 8 .float32) .sum 0 threeBufs roomy (roomy_placed (by decide +kernel))).mpr
      (by decide +kernel)⟩

/-- **Three plans of two ranks that mean something else on the device**: shards of 8 GiB in one tile, a sum of
    `Int32`, and a maximum of `Float32`. -/
theorem commands_unfaithful :
    (∃ o ∈ planOf (ringOf (2 ^ 34) (2 ^ 34) .float32) false 0, ¬ Faithful roomy threeBufs .sum .float32 o) ∧
      (∃ o ∈ planOf (ringOf 32 8 .int32) false 0, ¬ Faithful roomy threeBufs .sum .int32 o) ∧
      ∃ o ∈ planOf (ringOf 32 8 .float32) false 0, ¬ Faithful roomy threeBufs .max .float32 o :=
  ⟨plan_unfaithful (roomy_placed (by decide +kernel)) (by decide +kernel),
    plan_unfaithful (roomy_placed (by decide +kernel)) (by decide +kernel),
    plan_unfaithful (roomy_placed (by decide +kernel)) (by decide +kernel)⟩

end UkCommand
