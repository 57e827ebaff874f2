import Uccl.P2pPostProofs
import Uccl.TilingProofs

/-! # The chunks of a message

    `ChunkSplitStrategy` (p2p/util/common.cc) cuts a message into at most 16 chunks of one size, and
    `post_single_chunk` (p2p/rdma/rdma_connection.cc) makes a work request of each. The chunks tile the
    message whatever its size, but a request has a `uint32_t` for its length. So a message of more than 16 *
    (2^32 - 1) bytes is sent with gaps, and nothing refuses it (`posts_iff`). -/

namespace P2pPost

open Tiling P2pTracker List Nat

/-- A work request as the provider gets it, with its place in the local and the remote memory of the message. -/
structure ChunkWr where
  channelId : ℕ
  localOff : ℕ
  remoteOff : ℕ
  length : ℕ
  deriving DecidableEq

def chunkSize (size : ℕ) : ℕ := getRegularChunkSize size (getMessageChunkCount size)

/-- `post_single_chunk` with `prepare_sge_list` -/
def chunkWr (numChannels channelId size i : ℕ) : ChunkWr :=
  let offset := i * chunkSize size
  ⟨(channelId - 1 + i) % numChannels + 1, offset, offset, min (chunkSize size) (size - offset) % 2 ^ 32⟩

/-- The requests of a message: the message itself, or one for every chunk. -/
def workRequests (numChannels channelId size : ℕ) : List ChunkWr :=
  if getMessageChunkCount size = 1 then [⟨channelId, 0, 0, size % 2 ^ 32⟩]
  else (List.range (getMessageChunkCount size)).map (chunkWr numChannels channelId size)

/-- What `post_write_or_read` and `post_chunked_request` tell the tracker. -/
def register (s : Conn) (size : ℕ) : Conn :=
  if getMessageChunkCount size = 1 then sendPacket s size
  else updateExpectedAckCount (sendPacket s size) s.books.history.msgs.length (getMessageChunkCount size)

/-- The message is transferred completely, and the tracker expects as many acknowledgements as there are requests. -/
structure Posts (s : Conn) (numChannels channelId size : ℕ) : Prop where
  tiles : Tiles 0 size ((workRequests numChannels channelId size).map fun wr => (wr.localOff, wr.length))
  placed : ∀ wr ∈ workRequests numChannels channelId size,
    0 < wr.length ∧ wr.remoteOff = wr.localOff ∧ 1 ≤ wr.channelId ∧ wr.channelId ≤ numChannels
  expected : size ≠ 0 →
    ((register s size).books.history.tracker.slots (pos s.books.history.tracker.next)).expected.toNat =
      (workRequests numChannels channelId size).length
  empty : size = 0 → checkCompletion (register s size) s.books.history.tracker.next = true

-- ── The sizes

section

variable {size : ℕ} (hsize : size ≠ 0)

include hsize

/-- The count is rounded up, and capped. -/
theorem getMessageChunkCount_spec :
    (getMessageChunkCount size - 1) * 524288 < size ∧ 0 < getMessageChunkCount size ∧ getMessageChunkCount size ≤ 16 ∧
      (size ≤ getMessageChunkCount size * 524288 ∨ getMessageChunkCount size = 16) := by
  simp only [getMessageChunkCount, messageChunkSize, maxSplitNum, if_neg hsize]
  omega

/-- The chunks reach the end of the message, and the last one is not empty. -/
theorem chunkSize_spec : size ≤ getMessageChunkCount size * chunkSize size ∧
    (getMessageChunkCount size - 1) * chunkSize size < size ∧
    (size ≤ 16 * (2 ^ 32 - 1) → chunkSize size < 2 ^ 32) := by
  obtain ⟨hlast, hpos, hcap, hround⟩ := getMessageChunkCount_spec hsize
  have heq : chunkSize size = (size + getMessageChunkCount size - 1) / getMessageChunkCount size := if_neg (by omega)
  generalize getMessageChunkCount size = n at *
  have hle := mul_div_le (size + n - 1) n
  have hlt := lt_mul_div_succ (size + n - 1) hpos
  rw [mul_succ, ← heq] at hlt
  rw [← heq] at hle
  refine ⟨by omega, ?_, fun hfit => ?_⟩
  · rw [Nat.sub_mul]
    by_cases hc : n ≤ chunkSize size
    · omega
    · -- so few bytes make one chunk, which has them all
      have hmul := Nat.mul_le_mul_left n (show chunkSize size ≤ 15 by omega)
      have hone : n = 1 := by omega
      rw [hone] at hlt hle
      omega
  · rw [heq]
    exact Nat.div_lt_of_lt_mul (by omega)

end

-- ── The requests

variable {numChannels channelId size : ℕ} {s : Conn}

/-- The request for a message of one chunk is the one for its chunk. -/
theorem workRequests_eq (hchannel : 1 ≤ channelId ∧ channelId ≤ numChannels) : workRequests numChannels channelId size =
      (List.range (getMessageChunkCount size)).map (chunkWr numChannels channelId size) := by
  unfold workRequests
  split
  · next hone =>
    have hchunk : chunkSize size = size := by
      by_cases hsize : size = 0 <;> simp [chunkSize, getRegularChunkSize, hone, hsize]
    have hmod : (channelId - 1) % numChannels = channelId - 1 := mod_eq_of_lt (by omega)
    simp [hone, range_succ, chunkWr, hchunk, hmod]
    omega
  · rfl

/-- The tracker is as it was told. -/
theorem register_spec (hx : Exact 0 s.books.history) (hfits : Fits 0 s.books.history (.send (BitVec.ofNat 64 size) 1)) :
    Exact 0 (register s size).books.history ∧ (register s size).books.history.msgs[s.books.history.msgs.length]? =
      some ⟨s.books.history.tracker.next, BitVec.ofNat 32 (getMessageChunkCount size), 0⟩ := by
  have hsent : (sendPacket s size).books.history.msgs[s.books.history.msgs.length]? =
      some ⟨s.books.history.tracker.next, 1, 0⟩ := getElem?_concat_length
  have hx' : Exact 0 (sendPacket s size).books.history := call_exact hx trivial hfits
  unfold register
  split
  · next hone => exact ⟨hx', by rw [hone]; exact hsent⟩
  · refine ⟨call_exact hx' ((legal_of_open hsent rfl).2 _) trivial, ?_⟩
    show (call _ _).msgs[_]? = _
    rw [call_update_msgs hsent, getElem?_set_self (StepRun.lt_length hsent)]

/-- **THE CHUNKS ARE RIGHT EXACTLY UP TO 16 * (2^32 - 1) BYTES**, for every size, every number of
    channels and every channel to begin with. -/
theorem posts_iff (hchannel : 1 ≤ channelId ∧ channelId ≤ numChannels) (hx : Exact 0 s.books.history)
    (hfits : Fits 0 s.books.history (.send (BitVec.ofNat 64 size) 1)) :
    Posts s numChannels channelId size ↔ size ≤ 16 * (2 ^ 32 - 1) := by
  obtain ⟨hx', hmsg⟩ := register_spec hx hfits
  by_cases hsize : size = 0
  · subst hsize
    exact ⟨fun _ => Nat.zero_le _, fun _ => ⟨rfl, fun _ hwr => absurd hwr not_mem_nil,
      fun hsize => absurd rfl hsize, fun _ => hx'.isAcknowledged_eq hmsg⟩⟩
  obtain ⟨-, hpos, hcap, -⟩ := getMessageChunkCount_spec hsize
  obtain ⟨hend, hlast, hlt⟩ := chunkSize_spec hsize
  constructor
  · -- the byte at 2^32 - 1 is in the first chunk, and not in its request
    intro h
    by_contra hbig
    have hc : 2 ^ 32 ≤ chunkSize size := by
      by_contra hc
      have hmul := Nat.mul_le_mul hcap (show chunkSize size ≤ 2 ^ 32 - 1 by omega)
      omega
    obtain ⟨p, hp, hge, hlt⟩ := h.tiles.exists_mem (show 2 ^ 32 - 1 < size by omega)
    simp only [workRequests_eq hchannel, map_map, mem_map, mem_range] at hp
    obtain ⟨i, -, rfl⟩ := hp
    dsimp [chunkWr] at hge hlt
    cases i with
    | zero => omega
    | succ i =>
      rw [succ_mul] at hge
      omega
  · intro hfit
    have hwhole : ∀ i, min (chunkSize size) (size - i * chunkSize size) % 2 ^ 32 =
        min (chunkSize size) (size - i * chunkSize size) := fun i =>
      mod_eq_of_lt (Nat.lt_of_le_of_lt (Nat.min_le_left ..) (hlt hfit))
    refine ⟨?_, fun wr hwr => ?_, fun _ => ?_, fun hzero => absurd hzero hsize⟩
    · rw [← Nat.zero_add (getMessageChunkCount size)] at hend hlast
      have htiles := tiles_map_range' hend fun _ => hlast
      simpa [-Nat.reducePow, workRequests_eq hchannel, Function.comp_def, chunkWr, hwhole, range_eq_range'] using htiles
    · rw [workRequests_eq hchannel] at hwr
      obtain ⟨i, hi, rfl⟩ := mem_map.mp hwr
      have hi := mem_range.mp hi
      have hstart := Nat.mul_le_mul_right (chunkSize size) (show i ≤ getMessageChunkCount size - 1 by omega)
      refine ⟨?_, rfl, succ_pos _, mod_lt _ (by omega)⟩
      have hne : chunkSize size ≠ 0 := fun hzero => by simp [hzero] at hend; omega
      simp only [chunkWr, hwhole]
      omega
    · obtain ⟨b, ht, -⟩ := hx'
      have hopen := (ht.in_window hmsg (by simp [Msg.complete]; omega)).1
      simp [workRequests_eq hchannel, (ht.slot _ _ hopen hmsg).2.1]
      omega

/-- 64 GiB over four channels: a chunk has 2^32 bytes, and the length of its request is 0. -/
theorem chunk_truncated : ((workRequests 4 1 (2 ^ 36)).map ChunkWr.length) = List.replicate 16 0 ∧
    ¬ Posts (Conn.init [true, true, true, true]) 4 1 (2 ^ 36) := by
  refine ⟨by decide +kernel, fun h => ?_⟩
  have hnone := (h.placed ⟨1, 0, 0, 0⟩ (by decide +kernel)).1
  cases hnone

theorem posts_three_chunks : Posts (Conn.init [true, true]) 2 2 1048577 :=
  (posts_iff (by decide) (Exact.init 0) (by decide)).mpr (by decide)

end P2pPost
