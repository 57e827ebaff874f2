import Uccl.P2pTrackerProofs

/-! # Posting one-sided requests

    `SendConnection::post_write_or_read` (p2p/rdma/rdma_connection.cc), its batched form, the posting functions of
    `RDMADataChannel` below it, and `poll_data_channels` with `poll_once` of the provider
    (p2p/rdma/providers/ib_data_channel_impl.cc). The provider answers a post with a code, of which only 0 means that
    the work requests were taken, and reports a completion with a status.

    * A code is compared with `>= 0` or not at all, so a request that the provider has refused is returned as accepted, and with
      congestion control its bytes count as in flight (`refused_accepted`).
    * A completion with an error is logged and dropped.
    * Without a channel, or if a compressed write is larger than the arena, the call fails after it has taken a number. Of a
      compressed write more chunks may be expected than are posted.

    `reports` is read by no function. A compressed write is one step here, with its posts in their order. -/

namespace P2pPost

open StepRun List

-- ── The data

/-- The kinds of requests. -/
inductive SendType
  | send
  | write
  | read
  deriving DecidableEq

/-- A work request: the number of its message and its bytes. -/
structure Wr where
  k : ℕ
  len : ℕ
  deriving DecidableEq

/-- Congestion control, and how a batch is signalled. -/
structure Config where
  /-- `cc_.enabled()` -/
  ccEnabled : Bool
  /-- `is_efa_transport()`: every request of a batch is signalled -/
  signalAll : Bool

/-- What a call can change: the tracker and `cc_inflight_bytes_`. -/
structure Books where
  history : P2pTracker.History
  ccInflightBytes : ℕ

/-- A call in the loop of `post_chunked_request` and `drain_pending_chunks`, with the sizes of the
    chunks it has still to post. -/
structure Chunked where
  k : ℕ
  wrId : BitVec 32
  channelId : ℕ
  index : ℕ
  chunks : List ℕ
  before : Books

/-- A call that has returned. -/
structure Report where
  ret : ℤ
  before : Books
  after : Books

/-- A connection; `reports` is history. -/
structure Conn where
  books : Books
  /-- the channels by number, from 1 on; a missing one is `false` -/
  channels : List Bool
  lastChannelId : ℕ
  /-- `batch_` of the channels: the requests with the number of the channel -/
  batch : List (ℕ × Wr)
  /-- what the provider has taken and has not completed: the requests that a completion is for -/
  wire : List (List Wr)
  chunked : Option Chunked
  reports : List Report

/-- Nothing has been posted yet. -/
def Conn.init (channels : List Bool) : Conn :=
  { books := ⟨P2pTracker.History.init 0, 0⟩, channels := channels, lastChannelId := 0, batch := []
    wire := [], chunked := none, reports := [] }

-- ── Chunks

/-- `ChunkSplitStrategy::kMaxSplitNum` -/
def maxSplitNum : ℕ := 16

/-- `kMessageChunkSizeKB * 1024` -/
def messageChunkSize : ℕ := 524288

def getMessageChunkCount (messageSize : ℕ) : ℕ :=
  if messageSize = 0 then 0
  else min ((messageSize + messageChunkSize - 1) / messageChunkSize) maxSplitNum

def getRegularChunkSize (messageSize chunkCount : ℕ) : ℕ :=
  if chunkCount = 0 ∨ messageSize = 0 then 0 else (messageSize + chunkCount - 1) / chunkCount

/-- The sizes of the chunks. -/
def splitMessageToChunks (messageSize : ℕ) : List ℕ :=
  let chunkSize := getRegularChunkSize messageSize (getMessageChunkCount messageSize)
  (List.range (getMessageChunkCount messageSize)).map fun i => min chunkSize (messageSize - i * chunkSize)

-- ── Posting

/-- `kBatchFlushBytes` -/
def batchFlushBytes : ℕ := 32768

/-- Whether there is a channel with this number. -/
def Conn.hasChannel (s : Conn) (channelId : ℕ) : Bool := (s.channels[channelId - 1]?).getD false

/-- The channel behind the last one, if it is there. -/
def selectNextChannelRoundRobin (s : Conn) : Option ℕ × Conn :=
  if s.channels.length = 0 then (none, s)
  else
    let next := s.lastChannelId % s.channels.length + 1
    (if s.hasChannel next then some next else none, { s with lastChannelId := next })

/-- One doorbell for a batch: the last request stands for all, or each for itself. -/
def completions (cfg : Config) (wrs : List Wr) : List (List Wr) :=
  if cfg.signalAll then wrs.map ([·]) else if wrs = [] then [] else [wrs]

/-- `flush_batch`: what the provider refuses is gone. -/
def flushBatch (cfg : Config) (s : Conn) (channelId : ℕ) (rc : ℤ) : Conn :=
  let wrs := (s.batch.filter fun b => b.1 = channelId).map Prod.snd
  { s with
    batch := s.batch.filter fun b => b.1 ≠ channelId
    wire := if rc = 0 then s.wire ++ completions cfg wrs else s.wire }

/-- `post_request` -/
def postRequest (s : Conn) (wr : Wr) (rc : ℤ) : Conn :=
  { s with wire := if rc = 0 then s.wire ++ [[wr]] else s.wire }

/-- The bytes in the batch of a channel. -/
def batchBytes (s : Conn) (channelId : ℕ) : ℕ :=
  ((s.batch.filter fun b => b.1 = channelId).map fun b => b.2.len).sum

/-- `submit_request`, under `g_uccl_batch_post` or not -/
def submitRequest (cfg : Config) (s : Conn) (channelId : ℕ) (wr : Wr) (batchPost : Bool) (rc : ℤ) : ℤ × Conn :=
  if batchPost then
    let s := { s with batch := s.batch ++ [(channelId, wr)] }
    (0, if batchFlushBytes ≤ batchBytes s channelId then flushBatch cfg s channelId rc else s)
  else (rc, postRequest s wr rc)

/-- `if (send_ret >= 0 && cc_.enabled()) cc_inflight_bytes_.fetch_add(...)` -/
def addInflight (cfg : Config) (s : Conn) (sendRet : ℤ) (len : ℕ) : Conn :=
  { s with books := { s.books with
      ccInflightBytes := if 0 ≤ sendRet ∧ cfg.ccEnabled = true then s.books.ccInflightBytes + len
        else s.books.ccInflightBytes } }

/-- `post_request_on_channel`; the code is read as success or failure, and the caller only logs it. -/
def postRequestOnChannel (cfg : Config) (s : Conn) (channelId : ℕ) (wr : Wr) (batchPost : Bool) (rc : ℤ) :
    Bool × Conn :=
  if s.hasChannel channelId then
    let (sendRet, s) := submitRequest cfg s channelId wr batchPost rc
    (decide (0 ≤ sendRet), addInflight cfg s sendRet wr.len)
  else (false, s)

/-- The call returns. -/
def Conn.report (s : Conn) (ret : ℤ) (before : Books) : Conn :=
  { s with reports := s.reports ++ [⟨ret, before, s.books⟩] }

/-- `while (current_inflight_bytes() > inflight_limit_bytes) yield` -/
def waits (cfg : Config) (s : Conn) (window : ℕ) : Prop :=
  cfg.ccEnabled = true ∧ window < s.books.ccInflightBytes
deriving Decidable

/-- `tracker_->send_packet(size)` -/
def sendPacket (s : Conn) (size : ℕ) : Conn :=
  { s with books := { s.books with
      history := P2pTracker.call s.books.history (.send (BitVec.ofNat 64 size) 1) } }

def updateExpectedAckCount (s : Conn) (k n : ℕ) : Conn :=
  { s with books := { s.books with
      history := P2pTracker.call s.books.history (.update k (BitVec.ofNat 32 n)) } }

-- ── Compressed writes

/-- What a write that passes the gates of the compressed path meets: the size of the arena, the bytes of the two
    segments that the compressor makes, and the codes of the provider. -/
structure Compression where
  arenaSize : ℕ
  firstSeg : ℕ
  secondSeg : ℕ
  firstRcs : ℕ → ℤ
  flushRcs : ℕ → ℤ
  secondRc : ℤ

/-- `post_compressed_segment`: a chunk that would start behind the segment is not posted. -/
def postCompressedSegment (cfg : Config) (s : Conn) (k channelId segSize numChunks numChannels : ℕ) (batchPost : Bool)
    (rcs : ℕ → ℤ) : Conn :=
  let chunkSize := (segSize + numChunks - 1) / numChunks
  ((List.range numChunks).filter fun i => i * chunkSize < segSize).foldl (fun s i =>
    (postRequestOnChannel cfg s ((channelId - 1 + i) % numChannels + 1)
      ⟨k, min chunkSize (segSize - i * chunkSize)⟩ batchPost (rcs i)).2) s

/-- The batches of all channels are flushed in turn. -/
def flushBatches (cfg : Config) (s : Conn) (rcs : ℕ → ℤ) : Conn :=
  (List.range s.channels.length).foldl (fun s i => flushBatch cfg s (i + 1) (rcs (i + 1))) s

/-- `compress_write_request_split_first`, once the arena has room -/
def compressWriteRequestSplitFirst (cfg : Config) (s : Conn) (k : ℕ) (wrId : BitVec 32) (size : ℕ) (batchPost : Bool)
    (before : Books) (c : Compression) : Conn :=
  if c.arenaSize < size then s.report (-1) before
  else
    let s := (selectNextChannelRoundRobin s).2
    let channelId := if s.channels = [] then 1 else s.lastChannelId
    let numChannels := max 1 s.channels.length
    let chunks := min (numChannels * 2) maxSplitNum
    let firstChunks := if c.firstSeg < chunks then min 1 c.firstSeg else chunks
    let secondChunks := min 1 c.secondSeg
    let s := updateExpectedAckCount s k (2 ^ 32 - 1)
    let s := postCompressedSegment cfg s k channelId c.firstSeg firstChunks numChannels batchPost c.firstRcs
    let s := flushBatches cfg s c.flushRcs
    let s := postCompressedSegment cfg s k ((channelId - 1 + firstChunks) % numChannels + 1) c.secondSeg secondChunks
      numChannels batchPost fun _ => c.secondRc
    (updateExpectedAckCount s k (firstChunks + secondChunks)).report wrId.toNat before

-- ── The calls

/-- The compressed path of this call, if it takes it. -/
def compressed (sendType : SendType) (compression : Option Compression) : Option Compression :=
  if sendType = .write then compression else none

/-- `post_write_or_read` up to the single chunk or to the loop over the chunks. `compression` is set if the size
    and the state of the connection pass the gates of the compressed path. -/
def postWriteOrRead (cfg : Config) (s : Conn) (sendType : SendType) (size window : ℕ) (batchPost : Bool)
    (rc : ℤ) (compression : Option Compression) : Conn :=
  if s.chunked.isSome then s
  else if sendType = .send then s.report (-1) s.books
  else if waits cfg s window then s
  else
    let before := s.books
    let k := before.history.msgs.length
    let wrId := before.history.tracker.next
    match compressed sendType compression with
    | some c => compressWriteRequestSplitFirst cfg (sendPacket s size) k wrId size batchPost before c
    | none =>
      match selectNextChannelRoundRobin (sendPacket s size) with
      | (none, s) => s.report (-1) before
      | (some channelId, s) =>
        if getMessageChunkCount size = 1 then
          let (sendRet, s) := submitRequest cfg s channelId ⟨k, size⟩ batchPost rc
          (addInflight cfg s sendRet size).report wrId.toNat before
        else
          let chunks := splitMessageToChunks size
          { updateExpectedAckCount s k chunks.length with
            chunked := some ⟨k, wrId, channelId, 0, chunks, before⟩ }

/-- One round of the loop over the chunks, or its end. -/
def postNextChunk (cfg : Config) (s : Conn) (window : ℕ) (batchPost : Bool) (rc : ℤ) : Conn :=
  match s.chunked with
  | none => s
  | some c =>
    match c.chunks with
    | [] => { s with chunked := none }.report c.wrId.toNat c.before
    | size :: chunks =>
      if waits cfg s window then s
      else
        let channelId := (c.channelId - 1 + c.index) % s.channels.length + 1
        { (postRequestOnChannel cfg s channelId ⟨c.k, size⟩ batchPost rc).2 with
          chunked := some { c with index := c.index + 1, chunks := chunks } }

-- ── The batched form

/-- `OneSidedBatchOp`: whether its pointers are set, its size, and the channels that its local memory
    is registered for. -/
structure Op where
  present : Bool
  size : ℕ
  localMr : ℕ → Bool

inductive Fault
  | abort
  deriving DecidableEq

/-- `kQpNumPerChannel` -/
def qpNumPerChannel : ℕ := 4

/-- The checks of `post_write_or_read_batch`. -/
def Op.valid (op : Op) : Bool :=
  op.present && decide (0 < op.size) && decide (op.size < 2 ^ 32) && decide (getMessageChunkCount op.size = 1)

/-- The channels of the operations, or `none` if one fails. -/
def prepare : Conn → List Op → Option (List (ℕ × ℕ)) × Conn
  | s, [] => (some [], s)
  | s, op :: ops =>
    match selectNextChannelRoundRobin s with
    | (none, s) => (none, s)
    | (some channelId, s) =>
      if qpNumPerChannel < channelId ∨ op.localMr channelId = false then (none, s)
      else
        match prepare s ops with
        | (none, s) => (none, s)
        | (some rest, s) => (some ((channelId, op.size) :: rest), s)

/-- The numbers of the operations, with their channels. -/
def takeNumbers : Conn → List (ℕ × ℕ) → List (ℕ × Wr) × Conn
  | s, [] => ([], s)
  | s, (channelId, size) :: rest =>
    let k := s.books.history.msgs.length
    let (wrs, s) := takeNumbers (sendPacket s size) rest
    ((channelId, ⟨k, size⟩) :: wrs, s)

/-- The loop over the channels, with the codes of the provider. -/
def postRawBatches (cfg : Config) (wrs : List (ℕ × Wr)) (rcs : ℕ → ℤ) : List ℕ → Conn → Except Fault Conn
  | [], s => .ok s
  | channelId :: rest, s =>
    let batch := (wrs.filter fun b => b.1 = channelId).map Prod.snd
    if batch = [] then postRawBatches cfg wrs rcs rest s
    else if rcs channelId ≠ 0 then .error .abort
    else postRawBatches cfg wrs rcs rest { s with wire := s.wire ++ completions cfg batch }

/-- `post_write_or_read_batch` -/
def postWriteOrReadBatch (cfg : Config) (s : Conn) (sendType : SendType) (ops : List Op) (rcs : ℕ → ℤ) :
    Except Fault Conn :=
  let before := s.books
  if sendType = .send ∨ s.channels.length = 0 ∨ qpNumPerChannel < s.channels.length ∨
      ops.all Op.valid = false then .ok (s.report (-1) before)
  else
    match prepare s ops with
    | (none, s) => .ok (s.report (-1) before)
    | (some prepared, s) =>
      let (wrs, s) := takeNumbers s prepared
      (postRawBatches cfg wrs rcs ((List.range s.channels.length).map (· + 1)) s).map (·.report 0 before)

-- ── Completions

/-- `tracker_->acknowledge`, and the bytes with congestion control -/
def acknowledge (cfg : Config) (len : ℕ) (books : Books) (wr : Wr) : Books :=
  { history := P2pTracker.call books.history (.ack wr.k)
    ccInflightBytes := if cfg.ccEnabled then books.ccInflightBytes - min books.ccInflightBytes len
      else books.ccInflightBytes }

/-- `poll_data_channels` with `poll_once`: the completion of the `i`-th post. One with an error is logged and
    dropped. -/
def poll (cfg : Config) (s : Conn) (i : ℕ) (success : Bool) (len : ℕ) : Conn :=
  match s.wire[i]? with
  | none => s
  | some wrs => { s with
      wire := s.wire.eraseIdx i
      books := if success then wrs.foldl (acknowledge cfg len) s.books else s.books }

/-- What happens to a connection. -/
inductive Action
  | post (sendType : SendType) (size window : ℕ) (batchPost : Bool) (rc : ℤ) (compression : Option Compression)
  | chunk (window : ℕ) (batchPost : Bool) (rc : ℤ)
  | flush (channelId : ℕ) (rc : ℤ)
  | batch (sendType : SendType) (ops : List Op) (rcs : ℕ → ℤ)
  | poll (i : ℕ) (success : Bool) (len : ℕ)

/-- One step of the connection. -/
def step (cfg : Config) (s : Conn) : Action → Except Fault Conn
  | .post sendType size window batchPost rc compression =>
    .ok (postWriteOrRead cfg s sendType size window batchPost rc compression)
  | .chunk window batchPost rc => .ok (postNextChunk cfg s window batchPost rc)
  | .flush channelId rc => .ok (flushBatch cfg s channelId rc)
  | .batch sendType ops rcs => postWriteOrReadBatch cfg s sendType ops rcs
  | .poll i success len => .ok (poll cfg s i success len)

/-- `check_completion` -/
def checkCompletion (s : Conn) (wrId : BitVec 32) : Bool := P2pTracker.isAcknowledged s.books.history.tracker wrId

-- ── The defects

def plain : Config := ⟨false, false⟩

end P2pPost
