import Uccl.UkPlanProofs

/-! # Lowering a chunk graph to tiled ops

    experimental/ukernel/src/ccl/lower.cc cuts every chunk into tiles, lets a tile wait for the same tile of the chunks
    that its own chunk waits for, and then writes out the ops of an executor: copies between the buffers of the rank,
    puts into the buffers of a peer, reductions, signals and waits. One signal stands for a group of
    `signal_group_tiles` tiles. Two handshakes come on top: with `stage_puts` a put goes through the scratch buffer and
    waits until the peer has staged its own data, and with `reduce_snap_hs` a put waits until the peer has saved the
    shard that it overwrites.

    The ops are numbered as they are written out, and what an op waits for is found by these numbers: `old_to_new` has
    the op of every tile, and `new_deps` what comes on top. The model has the same locals. Which of the ops may be fused
    (`FusionMetaOut`) is left out, and so is the test for `kNoPairId`, an id that no builder gives to a chunk. -/

namespace UkLower

open UkPlan

-- ── Tiles

inductive ExecOpKind
  | put
  | reduce
  | signal
  | waitSignal
  deriving DecidableEq

inductive CollectiveBufferRole
  | input
  | output
  | scratch
  deriving DecidableEq

/-- A tile of a chunk; a peer of `~0u` is `none`. -/
structure Op where
  kind : AlgoOpKind
  bytes : ℕ
  srcOff : ℕ
  dstOff : ℕ
  srcPeer : Option ℕ
  dstPeer : Option ℕ
  deps : List ℕ

structure TiledOp where
  kind : ExecOpKind
  bytes : ℕ
  srcOff : ℕ
  dstOff : ℕ
  srcPeer : Option ℕ
  dstPeer : Option ℕ
  tag : ℕ
  deps : List ℕ
  srcBufRole : CollectiveBufferRole
  dstBufRole : CollectiveBufferRole
  deriving DecidableEq

def ceilDiv (a b : ℕ) : ℕ := if b = 0 then 0 else (a + b - 1) / b

/-- The parameters of `lower_to_tiled`. -/
structure Mode where
  tileBytes : ℕ
  inplace : Bool
  stagePuts : Bool
  reduceSnapHs : Bool
  signalGroupTiles : ℕ

/-- `G` -/
def Mode.group (mode : Mode) : ℕ := if mode.signalGroupTiles = 0 then 1 else mode.signalGroupTiles

section Tiles

variable (mode : Mode) (chunks : List Chunk)

def chunkAt (c : ℕ) : Chunk := chunks.getD c ⟨.put, 0, 0, 0, none, none, 0, []⟩

/-- `tiles_per_chunk` -/
def tilesPerChunk (c : ℕ) : ℕ := ceilDiv (chunkAt chunks c).bytes mode.tileBytes

/-- `first_tile` -/
def firstTile (c : ℕ) : ℕ := ((List.range c).map (tilesPerChunk mode chunks)).sum

def tileBytesAt (c t : ℕ) : ℕ := min mode.tileBytes ((chunkAt chunks c).bytes - t * mode.tileBytes)

/-- What `propagate_deps` has put into the deps of a tile. -/
def tileDeps (c t : ℕ) : List ℕ :=
  ((chunkAt chunks c).deps.filter fun d => t < min (tilesPerChunk mode chunks c) (tilesPerChunk mode chunks d)).map
    fun d => firstTile mode chunks d + t

/-- The tile at index `first_tile[c] + t`, as `tile_chunks` and `propagate_deps` leave it. -/
def tile (c t : ℕ) : Op :=
  let ch := chunkAt chunks c
  ⟨ch.op, tileBytesAt mode chunks c t, ch.srcOff + t * mode.tileBytes, ch.dstOff + t * mode.tileBytes, ch.srcRank,
    ch.dstRank, tileDeps mode chunks c t⟩

end Tiles

-- ── The loop over the tiles

/-- A `uint64_t` -/
def makeTag (pairId tileIdx : ℕ) : ℕ := (pairId <<< 16) ||| tileIdx

def kCopiedTile : ℕ := 0xFFFF

def kSnapTile : ℕ := 0xFFFE

/-- The locals of `lower_to_tiled`: the first five are those of the function, the others those of the
    loop over the chunks. -/
structure State where
  out : List TiledOp
  oldToNew : ℕ → Option ℕ
  newDeps : List (ℕ × ℕ)
  stagingBytes : ℕ
  stagingBytesOut : ℕ
  cpIndices : List ℕ
  putIndices : List ℕ
  snapCpIndices : List ℕ
  sigGroupPuts : List ℕ
  curGroupWs : Option ℕ
  chunkStaging : ℕ

def State.init : State := ⟨[], fun _ => none, [], 0, 0, [], [], [], [], none, 0⟩

def signalOp (dstPeer : Option ℕ) (tag : ℕ) : TiledOp := ⟨.signal, 0, 0, 0, some 0, dstPeer, tag, [], .input, .output⟩

def waitOp (srcPeer : Option ℕ) (tag : ℕ) : TiledOp := ⟨.waitSignal, 0, 0, 0, srcPeer, some 0, tag, [], .input, .output⟩

section Loop

variable (mode : Mode) (chunks : List Chunk)

/-- The copy of a tile to the staging, and the put from there. -/
def stagedPut (c t : ℕ) (s : State) : State :=
  let op := tile mode chunks c t
  let cpIdx := s.out.length
  let putIdx := cpIdx + 1
  { s with
    out := s.out ++
      [⟨.put, op.bytes, op.srcOff, s.chunkStaging, none, none, 0, op.deps, .input, .scratch⟩,
        ⟨.put, op.bytes, s.chunkStaging, op.dstOff, none, op.dstPeer, 0, [], .scratch, .output⟩]
    oldToNew := Function.update s.oldToNew (firstTile mode chunks c + t) (some putIdx)
    newDeps := s.newDeps ++ [(putIdx, cpIdx)]
    cpIndices := s.cpIndices ++ [cpIdx]
    putIndices := s.putIndices ++ [putIdx]
    sigGroupPuts := s.sigGroupPuts ++ [putIdx]
    chunkStaging := s.chunkStaging + op.bytes }

/-- The put of a tile: what an op before it has made ready is in the output buffer. -/
def plainPut (c t : ℕ) (s : State) : State :=
  let op := tile mode chunks c t
  let putIdx := s.out.length
  let role := if op.deps ≠ [] ∧ op.srcPeer = none then CollectiveBufferRole.output else .input
  { s with
    out := s.out ++ [⟨.put, op.bytes, op.srcOff, op.dstOff, op.srcPeer, op.dstPeer, 0, op.deps, role, .output⟩]
    oldToNew := Function.update s.oldToNew (firstTile mode chunks c + t) (some putIdx)
    putIndices := s.putIndices ++ [putIdx]
    sigGroupPuts := s.sigGroupPuts ++ [putIdx] }

/-- The signal behind the last put of a group. -/
def closeGroup (c t : ℕ) (s : State) : State :=
  if t % mode.group = mode.group - 1 ∨ t + 1 = tilesPerChunk mode chunks c then
    let sigIdx := s.out.length
    { s with
      out := s.out ++
        [signalOp (tile mode chunks c t).dstPeer (makeTag (chunkAt chunks c).pairId (t / mode.group))]
      newDeps := s.newDeps ++ s.sigGroupPuts.map fun pi => (sigIdx, pi)
      sigGroupPuts := [] }
  else s

/-- The wait for a group, before its first tile. -/
def recvTile (c t : ℕ) (s : State) : State :=
  let s :=
    if t % mode.group = 0 then
      { s with
        out := s.out ++
          [waitOp (tile mode chunks c t).srcPeer (makeTag (chunkAt chunks c).pairId (t / mode.group))]
        curGroupWs := some s.out.length }
    else s
  { s with oldToNew := Function.update s.oldToNew (firstTile mode chunks c + t) s.curGroupWs }

/-- The reduction of a tile; in place, the tile is saved in the scratch buffer first. -/
def reduceTile (c t : ℕ) (s : State) : State :=
  let op := tile mode chunks c t
  if mode.inplace then
    let cpIdx := s.out.length
    let redIdx := cpIdx + 1
    { s with
      out := s.out ++
        [⟨.put, op.bytes, op.dstOff, s.stagingBytes, none, none, 0, [], .output, .scratch⟩,
          ⟨.reduce, op.bytes, s.stagingBytes, op.dstOff, none, none, 0, op.deps, .scratch, .output⟩]
      oldToNew := Function.update s.oldToNew (firstTile mode chunks c + t) (some redIdx)
      newDeps := s.newDeps ++ [(redIdx, cpIdx)]
      snapCpIndices := s.snapCpIndices ++ [cpIdx]
      stagingBytes := s.stagingBytes + op.bytes }
  else
    { s with
      out := s.out ++ [⟨.reduce, op.bytes, op.srcOff, op.dstOff, none, none, 0, op.deps, .input, .output⟩]
      oldToNew := Function.update s.oldToNew (firstTile mode chunks c + t) (some s.out.length) }

def lowerTile (c : ℕ) (s : State) (t : ℕ) : State :=
  match (tile mode chunks c t).kind with
  | .put => closeGroup mode chunks c t (if mode.stagePuts then stagedPut mode chunks c t s else plainPut mode chunks c t s)
  | .recv => recvTile mode chunks c t s
  | .recvReduce => reduceTile mode chunks c t s

-- ── The loop over the chunks

/-- "Copies done": signalled behind all copies of the chunk, and waited for by all of its puts. -/
def copiesDone (c : ℕ) (s : State) : State :=
  if mode.stagePuts = true ∧ s.putIndices ≠ [] then
    let ch := chunkAt chunks c
    let tag := makeTag ch.pairId kCopiedTile
    let sigIdx := s.out.length
    let wsIdx := sigIdx + 1
    { s with
      out := s.out ++ [signalOp ch.dstRank tag, waitOp ch.dstRank tag]
      newDeps := s.newDeps ++ (s.cpIndices.map fun ci => (sigIdx, ci)) ++ s.putIndices.map fun pi => (pi, wsIdx) }
  else s

/-- The receiver's half of the snapshot handshake. -/
def snapSignal (c : ℕ) (s : State) : State :=
  if s.snapCpIndices ≠ [] then
    let ch := chunkAt chunks c
    let sigIdx := s.out.length
    { s with
      out := s.out ++ [signalOp ch.srcRank (makeTag ch.pairId kSnapTile)]
      newDeps := s.newDeps ++ s.snapCpIndices.map fun ci => (sigIdx, ci) }
  else s

/-- The sender's half. -/
def snapWait (c : ℕ) (s : State) : State :=
  if s.putIndices ≠ [] then
    let ch := chunkAt chunks c
    let wsIdx := s.out.length
    { s with
      out := s.out ++ [waitOp ch.dstRank (makeTag ch.pairId kSnapTile)]
      newDeps := s.newDeps ++ s.putIndices.map fun pi => (pi, wsIdx) }
  else s

/-- The snapshot handshake, for the pair ids of the first phase. -/
def snapHandshake (c : ℕ) (s : State) : State :=
  if mode.reduceSnapHs = true ∧ (chunkAt chunks c).pairId % 2 = 0 then snapWait chunks c (snapSignal chunks c s) else s

def lowerChunk (s : State) (c : ℕ) : State :=
  let s := { s with
    cpIndices := [], putIndices := [], snapCpIndices := [], sigGroupPuts := [], curGroupWs := none, chunkStaging := 0 }
  let s := (List.range (tilesPerChunk mode chunks c)).foldl (lowerTile mode chunks c) s
  let s := snapHandshake mode chunks c (copiesDone mode chunks c s)
  { s with stagingBytesOut := if s.stagingBytesOut < s.chunkStaging then s.chunkStaging else s.stagingBytesOut }

def lowerChunks : State := (List.range chunks.length).foldl (lowerChunk mode chunks) State.init

/-- The deps of a tile become those of its op, and `new_deps` is merged in. -/
def resolveDeps (s : State) : List TiledOp :=
  let nOld := firstTile mode chunks chunks.length
  s.out.mapIdx fun i o =>
    { o with
      deps := (o.deps.map fun dep => if dep < nOld then (s.oldToNew dep).getD dep else dep) ++
        (s.newDeps.filter fun nd => nd.1 = i).map Prod.snd }

def lowerToTiled : List TiledOp := resolveDeps mode chunks (lowerChunks mode chunks)

end Loop

/-- A `TiledResult`: the ops, and the bytes that the scratch buffer has to have. -/
structure TiledResult where
  ops : List TiledOp
  stagingBytesRequired : ℕ

def lowerAlgo (mode : Mode) (chunks : List Chunk) : Except String TiledResult :=
  if mode.tileBytes = 0 then .error "tile_bytes must be positive"
  else
    let s := lowerChunks mode chunks
    .ok ⟨lowerToTiled mode chunks, if s.stagingBytes < s.stagingBytesOut then s.stagingBytesOut else s.stagingBytes⟩

/-- What `build_tiled` passes on. -/
def modeOf (config : CollectiveConfig) (inplace : Bool) : Mode where
  tileBytes := config.tileBytes
  inplace := inplace
  stagePuts := config.kind = .allToAllPairwise ∧ inplace = true ∧ ¬ config.inputSplitBytes.isEmpty
  reduceSnapHs := config.kind = .allReduceRing ∧ inplace = true
  signalGroupTiles := config.signalGroupTiles

def buildTiled (config : CollectiveConfig) (inplace : Bool) : Except String TiledResult :=
  if config.kind = .allToAllPairwise ∧ inplace = false then .error "AllToAll requires inplace (input == output)"
  else do
    let chunks ← buildCollAlgo config
    lowerAlgo (modeOf config inplace) chunks

end UkLower
