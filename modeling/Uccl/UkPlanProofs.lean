import Mathlib.Algebra.Ring.Nat
import Mathlib.Data.List.Nodup

/-! # The chunk graph of a collective

    For its own part of a collective, each rank of the ukernel makes a list of chunks
    (experimental/ukernel/src/ccl/algo/chunk_graph.cc): puts to a peer, receives from a peer, and receives
    that are combined with what is there. A chunk names its place in the buffers, its peer, a pair id that
    both sides are meant to compute alike, and the chunks that it has to wait for.

    The ring AllReduce is two loops over the ring, with `ready_ops` as the memory between their rounds: one
    combines the shards that it receives, the other keeps them. The pairwise AllToAll has a put and a receive
    for every peer, numbered by a counter. -/

namespace UkPlan

-- ── The configuration

/-- The two collectives that are planned here. -/
inductive CollKind
  | allReduceRing
  | allToAllPairwise
  deriving DecidableEq

/-- What a chunk does. -/
inductive AlgoOpKind
  | put
  | recv
  | recvReduce
  deriving DecidableEq

/-- The element types. -/
inductive ScalarType
  | uInt8
  | int8
  | int16
  | int32
  | int64
  | float16
  | float32
  | float64
  | bFloat16
  | bool
  deriving DecidableEq

/-- The bytes of an element. -/
def scalarTypeSize : ScalarType → ℕ
  | .uInt8 => 1
  | .int8 => 1
  | .bool => 1
  | .int16 => 2
  | .float16 => 2
  | .bFloat16 => 2
  | .int32 => 4
  | .float32 => 4
  | .int64 => 8
  | .float64 => 8

/-- What the plan of a rank is made from. -/
structure CollectiveConfig where
  kind : CollKind
  nranks : ℕ
  rank : ℕ
  inputBytes : ℕ
  outputBytes : ℕ
  tileBytes : ℕ
  inputSplitBytes : List ℕ
  outputSplitBytes : List ℕ
  dtype : ScalarType
  signalGroupTiles : ℕ

/-- A `Chunk`; a rank of -1 is `none`. -/
structure Chunk where
  op : AlgoOpKind
  bytes : ℕ
  srcOff : ℕ
  dstOff : ℕ
  srcRank : Option ℕ
  dstRank : Option ℕ
  pairId : ℕ
  deps : List ℕ
  deriving DecidableEq

/-- `RingTopology::wrap` -/
def wrap (nranks : ℕ) (rank : ℤ) : ℕ :=
  if nranks = 0 then 0
  else
    let value := rank.tmod nranks
    (if value < 0 then value + nranks else value).toNat

/-- The next rank of the ring. -/
def next (nranks rank : ℕ) : ℕ := wrap nranks (rank + 1)

/-- The rank before. -/
def prev (nranks rank : ℕ) : ℕ := wrap nranks (rank - 1)

/-- Where the shard of a rank begins: the first ranks have one element more. -/
def balancedShardOffsetBytes (bytes elemBytes nranks ownerRank : ℕ) : ℕ :=
  let totalElems := bytes / elemBytes
  let baseElems := totalElems / nranks
  let extraElems := totalElems % nranks
  (ownerRank * baseElems + min ownerRank extraElems) * elemBytes

/-- The bytes of the shard of a rank. -/
def balancedShardSizeBytes (bytes elemBytes nranks ownerRank : ℕ) : ℕ :=
  let totalElems := bytes / elemBytes
  let baseElems := totalElems / nranks
  let extraElems := totalElems % nranks
  (baseElems + if ownerRank < extraElems then 1 else 0) * elemBytes

/-- The splits if none are given. -/
def equalAlltoallSplits (totalBytes nranks : ℕ) : List ℕ := List.replicate nranks (totalBytes / nranks)

/-- `prefix_bytes` at index `i` -/
def prefixBytes (splits : List ℕ) (i : ℕ) : ℕ := (splits.take i).sum

/-- The checks of splits that are given; `which` is for the message. -/
def validateAlltoallSplits (splits : List ℕ) (nranks elemBytes totalBytes : ℕ) (which : String) : Except String Unit :=
  if splits.length ≠ nranks then .error ("alltoall " ++ which ++ " split count must equal nranks")
  else if splits.any fun part => part % elemBytes ≠ 0 then
    .error ("alltoall " ++ which ++ " split bytes must align to dtype size")
  else if splits.sum ≠ totalBytes then .error ("alltoall " ++ which ++ " split bytes must sum to tensor bytes")
  else .ok ()

/-- The checks of a configuration, in their order. -/
def requireCollectiveConfig (config : CollectiveConfig) : Except String Unit :=
  let elemBytes := scalarTypeSize config.dtype
  if config.nranks < 2 then .error "collective requires at least two ranks"
  else if config.nranks ≤ config.rank then .error "collective rank out of range"
  else if elemBytes = 0 then .error "collective dtype has invalid element size"
  else
    match config.kind with
    | .allReduceRing =>
      if config.inputBytes = 0 then .error "collective input_bytes must be positive"
      else if config.inputBytes % elemBytes ≠ 0 then .error "collective input_bytes must be aligned to dtype size"
      else .ok ()
    | .allToAllPairwise =>
      if config.inputBytes = 0 ∨ config.outputBytes = 0 then
        .error "alltoall requires positive input/output tensor bytes"
      else if config.inputBytes % elemBytes ≠ 0 ∨ config.outputBytes % elemBytes ≠ 0 then
        .error "alltoall input/output tensor bytes must align to dtype size"
      else if config.inputSplitBytes.isEmpty ≠ config.outputSplitBytes.isEmpty then
        .error "alltoall split configuration must provide both input and output splits"
      else if config.inputSplitBytes.isEmpty then
        if config.inputBytes % (config.nranks * elemBytes) ≠ 0 ∨
            config.outputBytes % (config.nranks * elemBytes) ≠ 0 then
          .error "equal-split alltoall requires input/output tensor bytes divisible by nranks * dtype size"
        else .ok ()
      else do
        validateAlltoallSplits config.inputSplitBytes config.nranks elemBytes config.inputBytes "input"
        validateAlltoallSplits config.outputSplitBytes config.nranks elemBytes config.outputBytes "output"

-- ── The ring AllReduce

/-- The locals of `build_allreduce_ring_algo`; `kNoOp` is `none`. -/
structure RingBuilder where
  chunks : List Chunk
  readyOps : ℕ → Option ℕ

/-- A chunk is appended; its index is the number of chunks before it. -/
def RingBuilder.addOp (b : RingBuilder) (c : Chunk) : RingBuilder := { b with chunks := b.chunks ++ [c] }

namespace CollectiveConfig

/-- The bytes of an element of the configuration. -/
def elemBytes (config : CollectiveConfig) : ℕ := scalarTypeSize config.dtype

/-- The bytes of the shard of an owner. -/
def shardBytes (config : CollectiveConfig) (owner : ℕ) : ℕ :=
  balancedShardSizeBytes config.inputBytes config.elemBytes config.nranks owner

/-- Where the shard of an owner begins. -/
def shardOffset (config : CollectiveConfig) (owner : ℕ) : ℕ :=
  balancedShardOffsetBytes config.inputBytes config.elemBytes config.nranks owner

end CollectiveConfig

/-- The put of a shard, which waits for the op that has made it ready. -/
def sendShard (config : CollectiveConfig) (b : RingBuilder) (sendOwner pairId : ℕ) : RingBuilder :=
  if 0 < config.shardBytes sendOwner then
    b.addOp ⟨.put, config.shardBytes sendOwner, config.shardOffset sendOwner, config.shardOffset sendOwner, none,
      some (next config.nranks config.rank), pairId, (b.readyOps sendOwner).toList⟩
  else b

/-- The receive of a shard that is combined with what is there. -/
def recvReduceShard (config : CollectiveConfig) (b : RingBuilder) (recvOwner pairId : ℕ) : RingBuilder :=
  if 0 < config.shardBytes recvOwner then
    let offset := config.shardOffset recvOwner
    let recvPeer := prev config.nranks config.rank
    let recvOp := b.chunks.length
    let b := b.addOp ⟨.recv, config.shardBytes recvOwner, offset, offset, some recvPeer, none, pairId, []⟩
    let reduceOp := b.chunks.length
    let b := b.addOp
      ⟨.recvReduce, config.shardBytes recvOwner, offset, offset, some recvPeer, none, pairId, [recvOp]⟩
    { b with readyOps := Function.update b.readyOps recvOwner (some reduceOp) }
  else b

/-- The receive of a shard that is complete. -/
def recvShard (config : CollectiveConfig) (b : RingBuilder) (recvOwner pairId : ℕ) : RingBuilder :=
  if 0 < config.shardBytes recvOwner then
    let offset := config.shardOffset recvOwner
    let recvPeer := prev config.nranks config.rank
    let recvOp := b.chunks.length
    let b := b.addOp ⟨.recv, config.shardBytes recvOwner, offset, offset, some recvPeer, none, pairId, []⟩
    { b with readyOps := Function.update b.readyOps recvOwner (some recvOp) }
  else b

/-- A round of the first loop. -/
def reduceStep (config : CollectiveConfig) (b : RingBuilder) (ringStep : ℕ) : RingBuilder :=
  let sendOwner := wrap config.nranks (config.rank - ringStep)
  let recvOwner := wrap config.nranks (config.rank - ringStep - 1)
  recvReduceShard config (sendShard config b sendOwner (sendOwner * 2)) recvOwner (recvOwner * 2)

/-- A round of the second loop. -/
def gatherStep (config : CollectiveConfig) (b : RingBuilder) (ringStep : ℕ) : RingBuilder :=
  let sendOwner := wrap config.nranks (config.rank + 1 - ringStep)
  let recvOwner := wrap config.nranks (config.rank - ringStep)
  recvShard config (sendShard config b sendOwner (sendOwner * 2 + 1)) recvOwner (recvOwner * 2 + 1)

/-- Two rounds of the ring: the shards are reduced, then gathered. -/
def buildAllreduceRingAlgo (config : CollectiveConfig) : List Chunk :=
  let reduced := (List.range (config.nranks - 1)).foldl (reduceStep config) ⟨[], fun _ => none⟩
  ((List.range (config.nranks - 1)).foldl (gatherStep config) reduced).chunks

-- ── The pairwise AllToAll

namespace CollectiveConfig

/-- The splits of the input, given or equal. -/
def inputSplits (config : CollectiveConfig) : List ℕ :=
  if config.inputSplitBytes.isEmpty then equalAlltoallSplits config.inputBytes config.nranks
  else config.inputSplitBytes

/-- The splits of the output, given or equal. -/
def outputSplits (config : CollectiveConfig) : List ℕ :=
  if config.outputSplitBytes.isEmpty then equalAlltoallSplits config.outputBytes config.nranks
  else config.outputSplitBytes

/-- The split of a rank, as a vector has it. -/
def inputSplit (config : CollectiveConfig) (rank : ℕ) : ℕ := config.inputSplits.getD rank 0

/-- The same of the output. -/
def outputSplit (config : CollectiveConfig) (rank : ℕ) : ℕ := config.outputSplits.getD rank 0

end CollectiveConfig

/-- A `ChunkBuilder` -/
structure PairBuilder where
  chunks : List Chunk
  nextPairId : ℕ

/-- The chunks for one peer. -/
def pairStep (config : CollectiveConfig) (b : PairBuilder) (peer : ℕ) : PairBuilder :=
  if peer = config.rank then b
  else
    let sendOffset := prefixBytes config.inputSplits peer
    let sendBytes := config.inputSplit peer
    let recvOffset := prefixBytes config.outputSplits peer
    let recvBytes := config.outputSplit peer
    let dstOff := prefixBytes config.outputSplits config.rank
    let pairId := b.nextPairId
    ⟨b.chunks ++
      (if 0 < sendBytes then [⟨.put, sendBytes, sendOffset, dstOff, none, some peer, pairId, []⟩] else []) ++
      (if 0 < recvBytes then [⟨.recv, recvBytes, recvOffset, recvOffset, some peer, none, pairId, []⟩] else []),
      pairId + 1⟩

/-- The chunks for all peers; the split for the rank itself is checked only. -/
def buildAlltoallPairwiseAlgo (config : CollectiveConfig) : Except String (List Chunk) :=
  if config.inputSplit config.rank ≠ config.outputSplit config.rank then
    .error "alltoall self split size must match between input and output"
  else .ok ((List.range config.nranks).foldl (pairStep config) ⟨[], 1⟩).chunks

/-- The chunks of a collective whose configuration passes the checks. -/
def buildCollAlgo (config : CollectiveConfig) : Except String (List Chunk) := do
  requireCollectiveConfig config
  match config.kind with
  | .allReduceRing => .ok (buildAllreduceRingAlgo config)
  | .allToAllPairwise => buildAlltoallPairwiseAlgo config

end UkPlan
