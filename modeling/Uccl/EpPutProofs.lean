import Uccl.EpCommandProofs
import Uccl.TilingProofs
import Uccl.EpPostProofs

/-! # Low-latency writes from the GPU to the receiver's token counters

    `nvshmemi_ibgda_put_nbi_warp` (ep/include/uccl_ibgda.cuh, low-latency mode, FIFO backend) describes a write of
    several tokens. A write that is too long for the 24-bit length or the 13-bit token count of a command is split into
    commands of whole tokens. The proxy decodes each command, and with a receiver barrier its RDMA write carries a
    `WriteImm`, from which the receiver counts tokens.

    The widths along the path differ. A command's tokens fit in 13 bits, but the immediate has 12; the two addresses are
    shifted right by 4 and cut to 32 bits without a check, the ranks to 8 and 6 bits; and the loop variable of the split
    is an `int` that passes the last token by up to 8191. `put_survives_iff` says for which writes none of this matters.
    -/

namespace EpPut

open StepRun EpImm EpReceive EpPost EpCommand Tiling Function List Nat

-- ── The device

/-- The arguments of `nvshmemi_ibgda_put_nbi_warp` that it reads in low-latency mode. -/
structure Put where
  reqRptr : BitVec 64
  reqLptr : BitVec 64
  bytes : BitVec 64
  dstRank : BitVec 32
  expertIdx : BitVec 32
  isCombine : Bool
  lowLatencyBufferIdx : BitVec 32
  numTokens : BitVec 32
  numD2hChannelAddrs : BitVec 32

inductive DeviceFault
  /-- an `EP_DEVICE_ASSERT` -/
  | assertion
  /-- `first += chunk_tokens` passes the largest `int` -/
  | overflow
  deriving DecidableEq

def kLLNumTokensMax : ℕ := 8191
def kNumProxyThs : ℤ := 4
def kChannelPerProxy : ℤ := 8

/-- The checks on the ring that the expert is mapped to. -/
def Put.hasChannel (x : Put) : Prop :=
  let ring := x.expertIdx.toInt.tmod x.numD2hChannelAddrs.toInt
  let threadIdx := ring.tmod kNumProxyThs
  let perThread := ring.tdiv kNumProxyThs
  perThread < kChannelPerProxy ∧
    threadIdx * kChannelPerProxy + perThread < x.numD2hChannelAddrs.toInt
deriving Decidable

/-- `pack_ll_expert_slot` -/
def packLlExpertSlot (expertIdx numTokens : BitVec 32) : BitVec 16 :=
  ((expertIdx &&& 0x3FF#32) ||| (((numTokens >>> 8) &&& 0x1F#32) <<< 10)).setWidth 16

/-- The command of one piece. -/
def Put.command (x : Put) (rptr lptr : BitVec 64) (bytes : ℕ) (numTokens : BitVec 32) :
    EpCommand.TransferCmd :=
  { cmdType := makeCmdType .write x.isCombine (x.lowLatencyBufferIdx != 0#32)
    dstRank := x.dstRank.setWidth 8
    atomicVal := (numTokens &&& 0xFF#32).setWidth 8
    bytes := BitVec.ofNat 24 bytes
    reqRptr := (rptr >>> 4).setWidth 32
    lptrOrValue := (lptr >>> 4).setWidth 32
    slot := packLlExpertSlot x.expertIdx numTokens }

/-- The assertions of `nvshmemi_ibgda_put_nbi_warp_single`. The expert is compared as an unsigned number. -/
def Put.admits (x : Put) (rptr lptr : BitVec 64) (bytes : ℕ) (numTokens : BitVec 32) : Prop :=
  bytes ≤ 0xffffff ∧ x.hasChannel ∧ rptr &&& 0xF#64 = 0#64 ∧ lptr &&& 0xF#64 = 0#64 ∧
    x.expertIdx.toNat ≤ 0x3FF ∧ 0 < numTokens.toInt ∧ numTokens.toInt ≤ kLLNumTokensMax
deriving Decidable

/-- `nvshmemi_ibgda_put_nbi_warp_single` -/
def putNbiWarpSingle (x : Put) (rptr lptr : BitVec 64) (bytes : ℕ) (numTokens : BitVec 32) :
    Except DeviceFault EpCommand.TransferCmd :=
  if x.admits rptr lptr bytes numTokens then .ok (x.command rptr lptr bytes numTokens)
  else .error .assertion

/-- The splitting loop, from token `first` on. A round takes at least one token, so the number of tokens is
    enough fuel. -/
def putChunks (x : Put) (bytesPerToken chunkTokens : ℕ) :
    ℕ → ℕ → Except DeviceFault (List EpCommand.TransferCmd)
  | 0, _ => .ok []
  | fuel + 1, first =>
    if first < x.numTokens.toNat then
      let count := min chunkTokens (x.numTokens.toNat - first)
      let offset := BitVec.ofNat 64 (first * bytesPerToken)
      match putNbiWarpSingle x (x.reqRptr + offset) (x.reqLptr + offset) (count * bytesPerToken)
          (BitVec.ofNat 32 count) with
      | .error e => .error e
      | .ok cmd =>
        if 2 ^ 31 ≤ first + chunkTokens then .error .overflow
        else
          match putChunks x bytesPerToken chunkTokens fuel (first + chunkTokens) with
          | .error e => .error e
          | .ok cmds => .ok (cmd :: cmds)
    else .ok []

/-- The write does not fit into one command. -/
def Put.split (x : Put) : Prop :=
  0xffffff < x.bytes.toNat ∨ (kLLNumTokensMax : ℤ) < x.numTokens.toInt
deriving Decidable

def Put.bytesPerToken (x : Put) : ℕ := x.bytes.toNat / x.numTokens.toNat

/-- `nvshmemi_ibgda_put_nbi_warp` on lane 0 -/
def putNbiWarp (x : Put) : Except DeviceFault (List EpCommand.TransferCmd) :=
  if x.split then
    if ¬ (0 < x.numTokens.toInt ∧ x.bytes.toNat % x.numTokens.toNat = 0) then .error .assertion
    else if ¬ (0 < x.bytesPerToken ∧ x.bytesPerToken ≤ 0xffffff) then .error .assertion
    else putChunks x x.bytesPerToken (min (0xffffff / x.bytesPerToken) kLLNumTokensMax)
      x.numTokens.toNat 0
  else
    match putNbiWarpSingle x x.reqRptr x.reqLptr x.bytes.toNat x.numTokens with
    | .error e => .error e
    | .ok cmd => .ok [cmd]

-- ── The proxy and the receiver

/-- The proxy's view of a command. -/
def taken (c : EpCommand.TransferCmd) : EpPost.TransferCmd :=
  { isCombine := getIsCombine c.cmdType, lowLatency := getLowLatency c.cmdType, dstRank := c.dstRank,
    atomicVal := c.atomicVal, bytes := c.bytes, reqRptr := c.reqRptr, slot := c.slot }

/-- The immediate of a low-latency WRITE with a receiver barrier. -/
def llWriteImm (e : Env) (c : EpPost.TransferCmd) : Except Abort (Option Imm) :=
  let tokens := unpackLlNumTokens c.slot c.atomicVal
  writeImm c.isCombine c.lowLatency (unpackLlExpert c.slot) (if tokens = 0 then 1 else tokens) e.myRank

/-- The immediates of a sequence of commands. -/
def llWriteImms (e : Env) : List EpCommand.TransferCmd → Except Abort (List Imm)
  | [] => .ok []
  | c :: cs =>
    match llWriteImm e (taken c) with
    | .error a => .error a
    | .ok imm =>
      match llWriteImms e cs with
      | .error a => .error a
      | .ok imms => .ok (imm.toList ++ imms)

/-- The command as the proxy reads it from the FIFO. -/
def received (c : EpCommand.TransferCmd) : EpCommand.TransferCmd :=
  decodePackedTransferCmd (push (packTransferCmd c))

/-- Tokens of the write are counted for its expert and, in a dispatch, for its sender. -/
def Put.credit (x : Put) (sender : Env) (s : Receiver) (tokens : ℕ) : Receiver :=
  let buf := (x.lowLatencyBufferIdx != 0#32).toNat
  if x.isCombine then s.addCombine (buf, x.expertIdx.toNat) tokens
  else s.addDispatch (buf, x.expertIdx.toNat, (sender.myRank : ℤ)) tokens

/-- The segments of a list of commands in the remote and in the local buffer. -/
def remoteSegments (cmds : List EpCommand.TransferCmd) : List (ℕ × ℕ) :=
  cmds.map fun c => ((decodeWriteOffset c.reqRptr true).toNat, c.bytes.toNat)

def localSegments (cmds : List EpCommand.TransferCmd) : List (ℕ × ℕ) :=
  cmds.map fun c => ((decodeWriteOffset c.lptrOrValue true).toNat, c.bytes.toNat)

/-- The commands of the write go to its destination, tile its two ranges in order, and their
    immediates credit its tokens. -/
def Put.Survives (b : Build) (sender rcv : Env) (x : Put) : Prop :=
  ∃ cmds, putNbiWarp x = .ok cmds ∧
    (∀ c ∈ cmds.map received, (c.dstRank.toNat : ℤ) = x.dstRank.toInt) ∧
    Tiles x.reqRptr.toNat x.bytes.toNat (remoteSegments (cmds.map received)) ∧
    Tiles x.reqLptr.toNat x.bytes.toNat (localSegments (cmds.map received)) ∧
    ∃ imms, llWriteImms sender (cmds.map received) = .ok imms ∧
      ∀ s, runFrom (remoteProcessCompletion b false rcv) s imms
        = .ok (x.credit sender s x.numTokens.toNat)

-- ── The fields of a command

theorem received_eq (c : EpCommand.TransferCmd) : received c = c := decode_push_pack c

theorem toNat_packLlExpertSlot {e n : BitVec 32} (he : e.toNat ≤ 0x3FF) (hn : n.toNat ≤ 8191) :
    (packLlExpertSlot e n).toNat = n.toNat / 256 * 1024 + e.toNat := by
  have hmask : (e &&& 0x3FF#32).toNat = e.toNat := by
    exact (and_two_pow_sub_one_eq_mod _ 10).trans (mod_eq_of_lt (by omega))
  have hhigh : ((n >>> 8) &&& 0x1F#32).toNat = n.toNat / 256 := by
    rw [BitVec.toNat_and, BitVec.toNat_ushiftRight, shiftRight_eq_div_pow]
    exact (and_two_pow_sub_one_eq_mod _ 5).trans (mod_eq_of_lt (by omega))
  have hshift : (n.toNat / 256) <<< 10 % 2 ^ 32 = (n.toNat / 256) <<< 10 := by
    omega
  unfold packLlExpertSlot
  rw [BitVec.toNat_setWidth, BitVec.toNat_or, hmask, BitVec.toNat_shiftLeft, hhigh, hshift, Nat.or_comm,
    ← shiftLeft_add_eq_or_of_lt (by omega), shiftLeft_eq]
  omega

theorem unpack_packLlExpertSlot {e n : BitVec 32} (he : e.toNat ≤ 0x3FF) (hn : n.toNat ≤ 8191) :
    unpackLlExpert (packLlExpertSlot e n) = e.toNat ∧
      unpackLlNumTokens (packLlExpertSlot e n) ((n &&& 0xFF#32).setWidth 8) = n.toNat := by
  have hlow : ((n &&& 0xFF#32).setWidth 8).toNat = n.toNat % 256 := by
    have hmod : n.toNat &&& 255 = n.toNat % 256 := and_two_pow_sub_one_eq_mod _ 8
    show (n.toNat &&& 255) % 2 ^ 8 = _
    omega
  constructor
  · unfold unpackLlExpert
    rw [toNat_packLlExpertSlot he hn]
    exact (and_two_pow_sub_one_eq_mod _ 10).trans (by omega)
  · unfold unpackLlNumTokens
    have hhigh : ((packLlExpertSlot e n).toNat >>> 10) &&& 0x1F = n.toNat / 256 := by
      rw [toNat_packLlExpertSlot he hn]
      exact (and_two_pow_sub_one_eq_mod _ 5).trans (by omega)
    rw [Nat.or_comm, ← shiftLeft_add_eq_or_of_lt (by omega)]
    omega

/-- The address of an aligned offset survives the shift below 64 GiB. -/
theorem decode_shifted {w : BitVec 64} (h : w &&& 0xF#64 = 0#64) :
    (decodeWriteOffset ((w >>> 4).setWidth 32) true).toNat = w.toNat % 2 ^ 36 := by
  have hlow : w.toNat % 16 = 0 := by
    have := congrArg BitVec.toNat h
    exact (and_two_pow_sub_one_eq_mod _ 4).symm.trans this
  unfold decodeWriteOffset
  simp only [if_true]
  rw [BitVec.toNat_shiftLeft, BitVec.toNat_setWidth, BitVec.toNat_setWidth, BitVec.toNat_ushiftRight,
    shiftRight_eq_div_pow, shiftLeft_eq]
  omega

-- ── The pieces of a write

/-- A piece: its tokens, and where its bytes start and how many they are. -/
structure Piece where
  count : ℕ
  off : ℕ
  len : ℕ

def Put.commandOf (x : Put) (p : Piece) : EpCommand.TransferCmd :=
  x.command (x.reqRptr + BitVec.ofNat 64 p.off) (x.reqLptr + BitVec.ofNat 64 p.off) p.len
    (BitVec.ofNat 32 p.count)

def Put.admitsPiece (x : Put) (p : Piece) : Prop :=
  x.admits (x.reqRptr + BitVec.ofNat 64 p.off) (x.reqLptr + BitVec.ofNat 64 p.off) p.len
    (BitVec.ofNat 32 p.count)

/-- Whole tokens as a piece. -/
def tokenPiece (bytesPerToken : ℕ) (p : ℕ × ℕ) : Piece :=
  ⟨p.2, p.1 * bytesPerToken, p.2 * bytesPerToken⟩

section Loop

variable {x : Put} {bytesPerToken chunkTokens fuel first : ℕ}

/-- **THE SPLITTING LOOP**: it ends with the commands of the pieces, all admitted, and without
    passing the largest `int`. -/
theorem putChunks_ok (hc : 0 < chunkTokens) (hfuel : x.numTokens.toNat - first ≤ fuel)
    {cmds : List EpCommand.TransferCmd} (h : putChunks x bytesPerToken chunkTokens fuel first = .ok cmds) :
    cmds = (cut chunkTokens x.numTokens.toNat fuel first).map
        (fun p => x.commandOf (tokenPiece bytesPerToken p)) ∧
      (∀ p ∈ cut chunkTokens x.numTokens.toNat fuel first, x.admitsPiece (tokenPiece bytesPerToken p)) ∧
      (first < x.numTokens.toNat → lastStart chunkTokens x.numTokens.toNat first + chunkTokens < 2 ^ 31) := by
  induction fuel generalizing first cmds with
  | zero =>
    obtain rfl := Except.ok.inj h
    exact ⟨rfl, fun p hp => absurd hp not_mem_nil, fun hlt => by omega⟩
  | succ fuel ih =>
    by_cases hlt : first < x.numTokens.toNat
    · simp only [putChunks, if_pos hlt, putNbiWarpSingle] at h
      split at h
      · cases h
      next cmd hcmd =>
      split at hcmd
      case isFalse => cases hcmd
      next hadm =>
      obtain rfl := Except.ok.inj hcmd
      split at h
      · cases h
      next hint =>
      split at h
      · cases h
      next cmds' hrest =>
      obtain rfl := Except.ok.inj h
      obtain ⟨hcmds, hall, hlast⟩ := ih (by omega) hrest
      rw [cut_of_lt hlt, map_cons, forall_mem_cons, ← hcmds]
      refine ⟨rfl, ⟨hadm, hall⟩, fun _ => ?_⟩
      by_cases hmore : first + chunkTokens < x.numTokens.toNat
      · rw [← lastStart_of_lt hc hmore]
        exact hlast hmore
      · rw [lastStart_of_ge (by omega) hlt]
        omega
    · simp only [putChunks, if_neg hlt] at h
      obtain rfl := Except.ok.inj h
      rw [cut_of_le (by omega)]
      exact ⟨rfl, fun p hp => absurd hp not_mem_nil, fun hlt' => absurd hlt' hlt⟩

/-- It passes the largest `int` only behind the last piece. -/
theorem putChunks_overflow (hc : 0 < chunkTokens)
    (h : putChunks x bytesPerToken chunkTokens fuel first = .error .overflow) (hn : x.numTokens.toNat < 2 ^ 31) :
    2 ^ 31 ≤ lastStart chunkTokens x.numTokens.toNat first + chunkTokens := by
  induction fuel generalizing first with
  | zero => cases h
  | succ fuel ih =>
    by_cases hlt : first < x.numTokens.toNat
    · simp only [putChunks, if_pos hlt, putNbiWarpSingle] at h
      split at h
      next e he =>
        split at he
        · cases he
        · rw [← Except.error.inj he] at h
          cases h
      next cmd hcmd =>
      split at h
      next hover =>
        rw [lastStart_of_ge (by omega) hlt]
        exact hover
      next hint =>
      split at h
      next e he =>
        rw [Except.error.inj h] at he
        have hmore : first + chunkTokens < x.numTokens.toNat := by
          by_contra hge
          cases fuel with
          | zero => cases he
          | succ fuel =>
            simp only [putChunks, if_neg hge] at he
            cases he
        rw [← lastStart_of_lt hc hmore]
        exact ih he
      next => cases h
    · simp only [putChunks, if_neg hlt] at h
      cases h

end Loop

-- ── The whole write

/-- The tokens of a full piece. -/
def Put.chunkTokens (x : Put) : ℕ :=
  if x.split then min (0xffffff / x.bytesPerToken) kLLNumTokensMax else x.numTokens.toNat

/-- The most tokens in a piece. -/
def Put.mostTokens (x : Put) : ℕ := min x.chunkTokens x.numTokens.toNat

/-- The byte at which the last piece starts. -/
def Put.lastOffset (x : Put) : ℕ :=
  (x.numTokens.toNat - 1) / x.chunkTokens * x.chunkTokens * x.bytesPerToken

/-- The loop variable stays an `int`. -/
def Put.intSafe (x : Put) : Prop :=
  x.split → (x.numTokens.toNat - 1) / x.chunkTokens * x.chunkTokens + x.chunkTokens < 2 ^ 31

/-- What the pieces of a write are like. -/
structure Pieces (x : Put) (ps : List Piece) : Prop where
  admitted : ∀ p ∈ ps, x.admitsPiece p
  tiles : Tiles 0 x.bytes.toNat (ps.map fun p => (p.off, p.len))
  total : (ps.map Piece.count).sum = x.numTokens.toNat
  off_le : ∀ p ∈ ps, p.off ≤ x.lastOffset
  count_le : ∀ p ∈ ps, p.count ≤ x.mostTokens
  last : ∃ p ∈ ps, p.off = x.lastOffset
  most : ∃ p ∈ ps, p.count = x.mostTokens

theorem lastStart_zero (c n : ℕ) : lastStart c n 0 = (n - 1) / c * c := by
  unfold lastStart
  rw [Nat.sub_zero, Nat.zero_add]

theorem toNat_of_toInt_pos {w : BitVec 32} (h : 0 < w.toInt) :
    (w.toNat : ℤ) = w.toInt ∧ 0 < w.toNat ∧ w.toNat < 2 ^ 31 := by
  rw [BitVec.toInt_eq_toNat_cond] at h ⊢
  split at h <;> split <;> omega

variable {x : Put}

/-- One command: the whole write is a piece. -/
theorem pieces_of_single (hsplit : ¬ x.split) (hadm : x.admits x.reqRptr x.reqLptr x.bytes.toNat x.numTokens) :
    x.commandOf ⟨x.numTokens.toNat, 0, x.bytes.toNat⟩
        = x.command x.reqRptr x.reqLptr x.bytes.toNat x.numTokens ∧
      Pieces x [⟨x.numTokens.toNat, 0, x.bytes.toNat⟩] := by
  obtain ⟨-, hpos, -⟩ := toNat_of_toInt_pos hadm.2.2.2.2.2.1
  have hoff : BitVec.ofNat 64 0 = 0#64 := rfl
  have hchunk : x.chunkTokens = x.numTokens.toNat := if_neg hsplit
  have hmost : x.mostTokens = x.numTokens.toNat := by
    unfold Put.mostTokens
    rw [hchunk, Nat.min_self]
  have hlast : x.lastOffset = 0 := by
    unfold Put.lastOffset
    rw [div_eq_of_lt (by omega), Nat.zero_mul, Nat.zero_mul]
  constructor
  · unfold Put.commandOf
    rw [BitVec.ofNat_toNat, BitVec.setWidth_eq, BitVec.add_zero, BitVec.add_zero]
  · refine ⟨?_, ⟨rfl, le_rfl, Nat.sub_self _⟩, ?_, ?_, ?_, ?_, ?_⟩
    · intro p hp
      obtain rfl := mem_singleton.mp hp
      unfold Put.admitsPiece
      rw [BitVec.ofNat_toNat, BitVec.add_zero, BitVec.add_zero]
      exact hadm
    · exact Nat.add_zero _
    · intro p hp
      obtain rfl := mem_singleton.mp hp
      exact Nat.zero_le _
    · intro p hp
      obtain rfl := mem_singleton.mp hp
      exact Nat.le_of_eq hmost.symm
    · exact ⟨_, mem_singleton_self _, hlast.symm⟩
    · exact ⟨_, mem_singleton_self _, hmost.symm⟩

/-- The splitting loop: the pieces are those of the cut. -/
theorem pieces_of_cut (hpos : 0 < x.numTokens.toNat)
    (hdiv : x.bytes.toNat % x.numTokens.toNat = 0) (hc : 0 < x.chunkTokens)
    (hadm : ∀ p ∈ cut x.chunkTokens x.numTokens.toNat x.numTokens.toNat 0,
      x.admitsPiece (tokenPiece x.bytesPerToken p)) :
    Pieces x ((cut x.chunkTokens x.numTokens.toNat x.numTokens.toNat 0).map (tokenPiece x.bytesPerToken)) := by
  have htiles : Tiles 0 (x.numTokens.toNat - 0)
      (cut x.chunkTokens x.numTokens.toNat x.numTokens.toNat 0) := tiles_cut hc (sub_le ..)
  rw [Nat.sub_zero] at htiles
  have hbytes : x.numTokens.toNat * x.bytesPerToken = x.bytes.toNat := Nat.mul_div_cancel' (dvd_of_mod_eq_zero hdiv)
  have hlast : x.lastOffset = lastStart x.chunkTokens x.numTokens.toNat 0 * x.bytesPerToken := by
    rw [lastStart_zero]
    rfl
  refine ⟨?_, ?_, ?_, ?_, ?_, ?_, ?_⟩
  · intro p hp
    obtain ⟨q, hq, rfl⟩ := mem_map.mp hp
    exact hadm q hq
  · have hscale := htiles.scale x.bytesPerToken
    rw [hbytes, Nat.zero_mul] at hscale
    rw [map_map]
    exact hscale
  · rw [map_map]
    exact htiles.sum_eq
  · intro p hp
    obtain ⟨q, hq, rfl⟩ := mem_map.mp hp
    rw [hlast]
    exact Nat.mul_le_mul_right _ (le_of_mem_cut hc hq).1
  · intro p hp
    obtain ⟨q, hq, rfl⟩ := mem_map.mp hp
    exact (le_of_mem_cut hc hq).2.1
  · obtain ⟨k, hk⟩ : ∃ k, (lastStart x.chunkTokens x.numTokens.toNat 0, k) ∈
        cut x.chunkTokens x.numTokens.toNat x.numTokens.toNat 0 :=
      last_mem_cut hc hpos (sub_le ..)
    exact ⟨_, mem_map_of_mem hk, hlast.symm⟩
  · exact ⟨_, mem_map_of_mem (head_mem_cut hpos hpos), rfl⟩

/-- A write that has to be split is one for the loop. -/
theorem putNbiWarp_of_split (hsplit : x.split) (h : putNbiWarp x ≠ .error .assertion) :
    0 < x.numTokens.toInt ∧ x.bytes.toNat % x.numTokens.toNat = 0 ∧ 0 < x.chunkTokens ∧
      putNbiWarp x = putChunks x x.bytesPerToken x.chunkTokens x.numTokens.toNat 0 := by
  have hchunk : x.chunkTokens = min (0xffffff / x.bytesPerToken) kLLNumTokensMax := if_pos hsplit
  unfold putNbiWarp at h ⊢
  rw [if_pos hsplit] at h ⊢
  split at h
  · exact absurd rfl h
  next hdiv =>
  split at h
  · exact absurd rfl h
  next hper =>
  obtain ⟨hn, hdiv'⟩ := not_not.mp hdiv
  obtain ⟨hpos, hle⟩ := not_not.mp hper
  rw [if_neg hdiv, if_neg hper, hchunk]
  exact ⟨hn, hdiv', Nat.lt_min.mpr ⟨Nat.div_pos hle hpos, by decide⟩, rfl⟩

/-- Any other write is one command. -/
theorem putNbiWarp_of_not_split (hsplit : ¬ x.split) (h : putNbiWarp x ≠ .error .assertion) :
    x.admits x.reqRptr x.reqLptr x.bytes.toNat x.numTokens ∧
      putNbiWarp x = .ok [x.command x.reqRptr x.reqLptr x.bytes.toNat x.numTokens] := by
  unfold putNbiWarp putNbiWarpSingle at h ⊢
  rw [if_neg hsplit] at h ⊢
  by_cases hadm : x.admits x.reqRptr x.reqLptr x.bytes.toNat x.numTokens
  · rw [if_pos hadm]
    exact ⟨hadm, rfl⟩
  · rw [if_neg hadm] at h
    exact absurd rfl h

/-- **THE COMMANDS OF A WRITE** are those of pieces of the write. -/
theorem putNbiWarp_ok {cmds : List EpCommand.TransferCmd} (h : putNbiWarp x = .ok cmds) :
    (∃ ps, cmds = ps.map x.commandOf ∧ Pieces x ps) ∧ x.intSafe := by
  have hne : putNbiWarp x ≠ .error .assertion := by
    rw [h]
    exact fun hh => (by cases hh)
  by_cases hsplit : x.split
  · obtain ⟨hn, hdiv, hc, hput⟩ := putNbiWarp_of_split hsplit hne
    obtain ⟨-, hpos, -⟩ := toNat_of_toInt_pos hn
    rw [hput] at h
    obtain ⟨hcmds, hadm, hint⟩ := putChunks_ok hc (sub_le ..) h
    refine ⟨⟨_, ?_, pieces_of_cut hpos hdiv hc hadm⟩, fun _ => ?_⟩
    · rw [map_map]
      exact hcmds
    · rw [← lastStart_zero]
      exact hint hpos
  · obtain ⟨hadm, hput⟩ := putNbiWarp_of_not_split hsplit hne
    rw [hput] at h
    obtain rfl := Except.ok.inj h
    obtain ⟨hcmd, hpieces⟩ := pieces_of_single hsplit hadm
    refine ⟨⟨[⟨x.numTokens.toNat, 0, x.bytes.toNat⟩], ?_, hpieces⟩, fun hs => absurd hs hsplit⟩
    rw [map_singleton, hcmd]

/-- If no assertion fires and the loop variable stays an `int`, the commands are there. -/
theorem putNbiWarp_of_intSafe (h : putNbiWarp x ≠ .error .assertion) (hint : x.intSafe) :
    ∃ cmds, putNbiWarp x = .ok cmds := by
  by_cases hsplit : x.split
  · obtain ⟨hn, -, hc, hput⟩ := putNbiWarp_of_split hsplit h
    obtain ⟨-, -, hlt⟩ := toNat_of_toInt_pos hn
    cases hx : putNbiWarp x with
    | ok cmds => exact ⟨cmds, rfl⟩
    | error e =>
      cases e with
      | assertion => exact absurd hx h
      | overflow =>
        have hover := putChunks_overflow hc (hput.symm.trans hx) hlt
        rw [lastStart_zero] at hover
        exact absurd (hint hsplit) (by omega)
  · exact ⟨_, (putNbiWarp_of_not_split hsplit h).2⟩

-- ── One piece along the path

section Piece

variable {x : Put} {p : Piece} {sender rcv : Env} {b : Build}

/-- The expert of a combine belongs to its sender: the receiver asserts it. -/
def Put.ownExpert (x : Put) (sender rcv : Env) : Prop :=
  sender.myRank * (rcv.numExperts / rcv.numRanks) ≤ x.expertIdx.toNat ∧
    x.expertIdx.toNat < (sender.myRank + 1) * (rcv.numExperts / rcv.numRanks)

/-- The immediate of a piece: its tokens, the expert and the rank. -/
theorem llWriteImm_piece (hadm : x.admitsPiece p) (hcount : p.count < 2 ^ 32) :
    llWriteImm sender (taken (x.commandOf p))
      = writeImm x.isCombine (x.lowLatencyBufferIdx != 0#32) x.expertIdx.toNat p.count sender.myRank := by
  obtain ⟨-, -, -, -, hexp, hpos, hle⟩ := hadm
  obtain ⟨hint, hpos', -⟩ := toNat_of_toInt_pos hpos
  have hnat : (BitVec.ofNat 32 p.count).toNat = p.count := by
    rw [BitVec.toNat_ofNat]
    omega
  have hfits : (BitVec.ofNat 32 p.count).toNat ≤ 8191 := by
    unfold kLLNumTokensMax at hle
    omega
  obtain ⟨hunpack, hunpack'⟩ := unpack_packLlExpertSlot hexp hfits
  have hcombine : (taken (x.commandOf p)).isCombine = x.isCombine := getIsCombine_make ..
  have hbuf : (taken (x.commandOf p)).lowLatency = (x.lowLatencyBufferIdx != 0#32) := getLowLatency_make ..
  have hexpert : unpackLlExpert (taken (x.commandOf p)).slot = x.expertIdx.toNat := hunpack
  have htokens : unpackLlNumTokens (taken (x.commandOf p)).slot (taken (x.commandOf p)).atomicVal
      = p.count := hunpack'.trans hnat
  have hne : p.count ≠ 0 := by omega
  simp only [llWriteImm, hcombine, hbuf, hexpert, htokens, if_neg hne]

/-- The receiver counts the tokens of an immediate. -/
theorem receive_piece (hb : b.receiverBarrier = true) {imm : Imm}
    (h : WriteImm.pack x.isCombine (x.lowLatencyBufferIdx != 0#32) x.expertIdx.toNat p.count
      sender.myRank = some imm) (hown : x.isCombine = true → x.ownExpert sender rcv) (s : Receiver) :
    remoteProcessCompletion b false rcv s imm = .ok (x.credit sender s p.count) := by
  obtain ⟨hwrite, hcombine, hbuf, hexpert, htokens, hrank⟩ := WriteImm.get_of_pack h
  obtain ⟨ha, hbar⟩ := (isWrite_iff imm).mp hwrite
  unfold remoteProcessCompletion receiveWriteFast Put.credit
  simp only [ha, hbar, hb, hcombine, hbuf, hexpert, htokens, hrank, Bool.false_eq_true, if_false, if_true]
  cases hc : x.isCombine with
  | false => rfl
  | true => exact if_pos (hown hc)

theorem writeImm_eq_ok {c l : Bool} {e n r : ℕ} {imm : Option Imm} (h : writeImm c l e n r = .ok imm) :
    ∃ w, imm = some w ∧ WriteImm.pack c l e n r = some w := by
  unfold writeImm at h
  split at h
  · cases h
  next w hw => exact ⟨w, (Except.ok.inj h).symm, hw⟩

theorem writeImm_of_fits {c l : Bool} {e n r : ℕ} (he : e ≤ 0x3FF) (hn : n ≤ 0xFFF) (hr : r ≤ 0x3F) :
    ∃ w, writeImm c l e n r = .ok (some w) ∧ WriteImm.pack c l e n r = some w := by
  have hpack : ∃ w, WriteImm.pack c l e n r = some w := by
    unfold WriteImm.pack
    rw [if_pos ⟨he, hn, hr⟩]
    exact ⟨_, rfl⟩
  obtain ⟨w, hw⟩ := hpack
  refine ⟨w, ?_, hw⟩
  unfold writeImm
  rw [hw]

theorem credit_zero (s : Receiver) : x.credit sender s 0 = s := by
  unfold Put.credit Receiver.addCombine Receiver.addDispatch
  cases x.isCombine with
  | false =>
    simp only [Bool.false_eq_true, if_false, Nat.add_zero, update_eq_self]
  | true =>
    simp only [if_true, Nat.add_zero, update_eq_self]

theorem credit_credit (s : Receiver) (k l : ℕ) :
    x.credit sender (x.credit sender s k) l = x.credit sender s (k + l) := by
  unfold Put.credit Receiver.addCombine Receiver.addDispatch
  cases x.isCombine with
  | false =>
    simp only [Bool.false_eq_true, if_false, update_self, update_idem, Nat.add_assoc]
  | true =>
    simp only [if_true, update_self, update_idem, Nat.add_assoc]

end Piece

-- ── All pieces along the path

section Path

variable {x : Put} {ps : List Piece} {sender rcv : Env} {b : Build} {imms : List Imm}

/-- Pieces whose tokens fit into an immediate: the receiver counts all of them. -/
theorem credit_pieces (hb : b.receiverBarrier = true) (hadm : ∀ p ∈ ps, x.admitsPiece p)
    (hcount : ∀ p ∈ ps, p.count ≤ 0xFFF) (hrank : sender.myRank ≤ 0x3F)
    (hown : x.isCombine = true → x.ownExpert sender rcv) : ∃ imms, llWriteImms sender (ps.map x.commandOf) = .ok imms ∧
      ∀ s, runFrom (remoteProcessCompletion b false rcv) s imms
        = .ok (x.credit sender s (ps.map Piece.count).sum) := by
  induction ps with
  | nil =>
    refine ⟨[], rfl, fun s => ?_⟩
    rw [map_nil, sum_nil, credit_zero, runFrom_nil]
  | cons p ps ih =>
    obtain ⟨hadm0, hadm⟩ := forall_mem_cons.mp hadm
    obtain ⟨hcount0, hcount⟩ := forall_mem_cons.mp hcount
    obtain ⟨imms, himms, hrun⟩ := ih hadm hcount
    obtain ⟨w, hw, hpack⟩ := writeImm_of_fits (c := x.isCombine)
      (l := x.lowLatencyBufferIdx != 0#32) hadm0.2.2.2.2.1 hcount0 hrank
    rw [← llWriteImm_piece hadm0 (by omega)] at hw
    refine ⟨w :: imms, ?_, fun s => ?_⟩
    · simp only [map_cons, llWriteImms, hw, himms]
      rfl
    · rw [runFrom_cons_ok (receive_piece hb hpack hown s), hrun, credit_credit, map_cons, sum_cons]

/-- Each immediate that is built has room for the tokens of its piece. -/
theorem fits_of_imms (hadm : ∀ p ∈ ps, x.admitsPiece p)
    (hlt : ∀ p ∈ ps, p.count < 2 ^ 32) (h : llWriteImms sender (ps.map x.commandOf) = .ok imms) :
    ∀ p ∈ ps, p.count ≤ 0xFFF ∧ sender.myRank ≤ 0x3F := by
  induction ps generalizing imms with
  | nil => exact fun p hp => absurd hp not_mem_nil
  | cons p ps ih =>
    obtain ⟨hadm0, hadm⟩ := forall_mem_cons.mp hadm
    obtain ⟨hlt0, hlt⟩ := forall_mem_cons.mp hlt
    simp only [map_cons, llWriteImms, llWriteImm_piece hadm0 hlt0] at h
    split at h
    · cases h
    next imm himm =>
    split at h
    · cases h
    next imms' hrest =>
    obtain ⟨w, -, hpack⟩ := writeImm_eq_ok himm
    obtain ⟨-, hn, hr, -⟩ := WriteImm.of_pack hpack
    exact forall_mem_cons.mpr ⟨⟨hn, hr⟩, ih hadm hlt hrest⟩

/-- A combine whose immediates are received is one for an expert of its sender. -/
theorem own_of_run (hb : b.receiverBarrier = true) (hadm : ∀ p ∈ ps, x.admitsPiece p)
    (hlt : ∀ p ∈ ps, p.count < 2 ^ 32) (hne : ps ≠ [])
    (h : llWriteImms sender (ps.map x.commandOf) = .ok imms) {s s' : Receiver}
    (hrun : runFrom (remoteProcessCompletion b false rcv) s imms = .ok s') (hc : x.isCombine = true) :
    x.ownExpert sender rcv := by
  obtain ⟨p, ps, rfl⟩ := exists_cons_of_ne_nil hne
  obtain ⟨hadm0, -⟩ := forall_mem_cons.mp hadm
  obtain ⟨hlt0, -⟩ := forall_mem_cons.mp hlt
  simp only [map_cons, llWriteImms, llWriteImm_piece hadm0 hlt0] at h
  split at h
  · cases h
  next imm himm =>
  split at h
  · cases h
  next imms' hrest =>
  obtain ⟨w, rfl, hpack⟩ := writeImm_eq_ok himm
  obtain rfl := Except.ok.inj h
  obtain ⟨s1, hstep, -⟩ := runFrom_cons_inv hrun
  obtain ⟨hwrite, hcombine, hbuf, hexpert, htokens, hrank⟩ := WriteImm.get_of_pack hpack
  obtain ⟨ha, hbar⟩ := (isWrite_iff w).mp hwrite
  unfold remoteProcessCompletion receiveWriteFast at hstep
  simp only [ha, hbar, hb, hcombine, hc, hexpert, hrank, Bool.false_eq_true, if_false, if_true,
    Bool.not_true] at hstep
  split at hstep
  next hown => exact hown
  next => cases hstep

/-- The segments of pieces in one of the buffers tile its range exactly when no piece starts
    beyond the 36 bits that a shifted offset keeps. -/
theorem tiles_pieces {base : BitVec 64} {f : EpCommand.TransferCmd → BitVec 32}
    (hf : ∀ p ∈ ps, f (x.commandOf p) = ((base + BitVec.ofNat 64 p.off) >>> 4).setWidth 32)
    (halign : ∀ p ∈ ps, (base + BitVec.ofNat 64 p.off) &&& 0xF#64 = 0#64)
    (hlen : ∀ p ∈ ps, p.len ≤ 0xffffff) (htiles : Tiles 0 x.bytes.toNat (ps.map fun p => (p.off, p.len))) :
    Tiles base.toNat x.bytes.toNat ((ps.map x.commandOf).map fun c =>
        ((decodeWriteOffset (f c) true).toNat, c.bytes.toNat)) ↔
      ∀ p ∈ ps, base.toNat + p.off < 2 ^ 36 := by
  have hmap : (ps.map x.commandOf).map (fun c => ((decodeWriteOffset (f c) true).toNat, c.bytes.toNat))
      = ps.map fun p => ((base.toNat + p.off) % 2 ^ 36, p.len) := by
    rw [map_map]
    apply map_congr_left
    intro p hp
    have hl := hlen p hp
    have haddr : (base + BitVec.ofNat 64 p.off).toNat % 2 ^ 36 = (base.toNat + p.off) % 2 ^ 36 := by
      rw [BitVec.toNat_add, BitVec.toNat_ofNat]
      omega
    have hbytes : (x.commandOf p).bytes.toNat = p.len := by
      show (BitVec.ofNat 24 p.len).toNat = p.len
      rw [BitVec.toNat_ofNat]
      omega
    show ((decodeWriteOffset (f (x.commandOf p)) true).toNat, (x.commandOf p).bytes.toNat) = _
    rw [hf p hp, decode_shifted (halign p hp), haddr, hbytes]
  rw [hmap]
  refine Iff.trans (tiles_iff_moved base.toNat htiles) (forall₂_congr fun p _ => ?_)
  constructor
  · intro h
    rw [← h]
    exact mod_lt _ (by decide)
  · exact mod_eq_of_lt

end Path

/-- The conditions under which the fields along the path are wide enough. -/
structure Put.Fits (x : Put) (sender rcv : Env) : Prop where
  tokens : x.mostTokens ≤ 0xFFF
  remote : x.reqRptr.toNat + x.lastOffset < 2 ^ 36
  source : x.reqLptr.toNat + x.lastOffset < 2 ^ 36
  rank : sender.myRank ≤ 0x3F
  dst : 0 ≤ x.dstRank.toInt ∧ x.dstRank.toInt ≤ 0xFF
  expert : x.isCombine = true → x.ownExpert sender rcv
  loop : x.intSafe

theorem toNat_setWidth_eq_toInt (w : BitVec 32) :
    ((w.setWidth 8).toNat : ℤ) = w.toInt ↔ 0 ≤ w.toInt ∧ w.toInt ≤ 0xFF := by
  rw [BitVec.toNat_setWidth, BitVec.toInt_eq_toNat_cond]
  split <;> omega

theorem received_map (cmds : List EpCommand.TransferCmd) : cmds.map received = cmds := by
  rw [map_congr_left fun c _ => received_eq c, map_id']

/-- **LOW-LATENCY WRITES**: a write that passes the device assertions survives the path if and only if no piece has more
    than 4095 tokens or starts 64 GiB into either buffer, the ranks fit in 6 and 8 bits, a combine is for an expert of
    its sender, and the loop variable of the split stays an `int`. -/
theorem put_survives_iff {b : Build} (hb : b.receiverBarrier = true) (sender rcv : Env) {x : Put}
    (hx : putNbiWarp x ≠ .error .assertion) : x.Survives b sender rcv ↔ x.Fits sender rcv := by
  unfold Put.Survives remoteSegments localSegments
  constructor
  · rintro ⟨cmds, hput, hdst, hremote, hlocal, imms, himms, hrun⟩
    obtain ⟨⟨ps, rfl, hp⟩, hint⟩ := putNbiWarp_ok hput
    rw [received_map] at hdst hremote hlocal himms
    have hlt : ∀ p ∈ ps, p.count < 2 ^ 32 := fun p hmem =>
      Nat.lt_of_le_of_lt ((hp.count_le p hmem).trans (Nat.min_le_right ..)) x.numTokens.isLt
    have hlen : ∀ p ∈ ps, p.len ≤ 0xffffff := fun p hmem => (hp.admitted p hmem).1
    rw [tiles_pieces (fun _ _ => rfl) (fun p hmem => (hp.admitted p hmem).2.2.1) hlen hp.tiles] at hremote
    rw [tiles_pieces (fun _ _ => rfl) (fun p hmem => (hp.admitted p hmem).2.2.2.1) hlen hp.tiles] at hlocal
    have hfits := fits_of_imms hp.admitted hlt himms
    obtain ⟨p, hmem, hlast⟩ := hp.last
    obtain ⟨q, hmem', hmost⟩ := hp.most
    exact
      { tokens := hmost ▸ (hfits q hmem').1
        remote := hlast ▸ hremote p hmem
        source := hlast ▸ hlocal p hmem
        rank := (hfits p hmem).2
        dst := (toNat_setWidth_eq_toInt x.dstRank).mp (hdst _ (mem_map_of_mem hmem))
        expert := own_of_run hb hp.admitted hlt (ne_nil_of_mem hmem) himms (hrun Receiver.init)
        loop := hint }
  · intro h
    obtain ⟨cmds, hput⟩ := putNbiWarp_of_intSafe hx h.loop
    obtain ⟨⟨ps, rfl, hp⟩, -⟩ := putNbiWarp_ok hput
    have hlen : ∀ p ∈ ps, p.len ≤ 0xffffff := fun p hmem => (hp.admitted p hmem).1
    have hcount : ∀ p ∈ ps, p.count ≤ 0xFFF := fun p hmem => (hp.count_le p hmem).trans h.tokens
    obtain ⟨imms, himms, hrun⟩ := credit_pieces hb hp.admitted hcount h.rank h.expert
    refine ⟨_, hput, ?_⟩
    rw [received_map]
    refine ⟨?_, ?_, ?_, imms, himms, fun s => hp.total ▸ hrun s⟩
    · intro c hc
      obtain ⟨p, -, rfl⟩ := mem_map.mp hc
      exact (toNat_setWidth_eq_toInt x.dstRank).mpr h.dst
    · refine (tiles_pieces (fun _ _ => rfl) (fun p hmem => (hp.admitted p hmem).2.2.1) hlen
        hp.tiles).mpr fun p hmem => ?_
      exact Nat.lt_of_le_of_lt (Nat.add_le_add_left (hp.off_le p hmem) _) h.remote
    · refine (tiles_pieces (fun _ _ => rfl) (fun p hmem => (hp.admitted p hmem).2.2.2.1) hlen
        hp.tiles).mpr fun p hmem => ?_
      exact Nat.lt_of_le_of_lt (Nat.add_le_add_left (hp.off_le p hmem) _) h.source

/-- 3000 tokens of 7168 bytes go out in two commands. -/
def twoPieces : Put :=
  { reqRptr := 0x1000#64, reqLptr := 0x2000#64, bytes := 21504000#64, dstRank := 8#32,
    expertIdx := 1#32, isCombine := true, lowLatencyBufferIdx := 1#32, numTokens := 3000#32,
    numD2hChannelAddrs := 32#32 }

theorem put_survives_two_pieces : (putNbiWarp twoPieces).toOption.map List.length = some 2 ∧
      twoPieces.Survives ⟨true, false, false, false⟩ ⟨1, 16, 16, 2⟩ ⟨8, 16, 16, 2⟩ := by
  have hlen : (putNbiWarp twoPieces).toOption.map length = some 2 := by decide +kernel
  refine ⟨hlen, (put_survives_iff (b := ⟨true, false, false, false⟩) rfl _ _ ?_).mpr ?_⟩
  · intro h
    rw [h] at hlen
    cases hlen
  · exact
      { tokens := by decide
        remote := by decide
        source := by decide
        rank := by decide
        dst := by decide
        expert := fun _ => ⟨by decide, by decide⟩
        loop := fun _ => by decide }

/-- 5000 tokens of 16 bytes fit into one command, but not into its immediate. -/
def fiveThousand : Put :=
  { reqRptr := 0#64, reqLptr := 0#64, bytes := 80000#64, dstRank := 8#32, expertIdx := 3#32,
    isCombine := false, lowLatencyBufferIdx := 0#32, numTokens := 5000#32, numD2hChannelAddrs := 32#32 }

theorem put_five_thousand_tokens : putNbiWarp fiveThousand = .ok [fiveThousand.command 0#64 0#64 80000 5000#32] ∧
      llWriteImms ⟨1, 16, 16, 2⟩ ([fiveThousand.command 0#64 0#64 80000 5000#32].map received)
        = .error .assertion ∧
      ¬ fiveThousand.Survives ⟨true, false, false, false⟩ ⟨1, 16, 16, 2⟩ ⟨8, 16, 16, 2⟩ := by
  have hput : putNbiWarp fiveThousand = .ok [fiveThousand.command 0#64 0#64 80000 5000#32] := by rfl
  have himms : llWriteImms ⟨1, 16, 16, 2⟩
      ([fiveThousand.command 0#64 0#64 80000 5000#32].map received) = .error .assertion := by rfl
  refine ⟨hput, himms, ?_⟩
  rintro ⟨cmds, hput', -, -, -, imms, himms', -⟩
  rw [Except.ok.inj (hput'.symm.trans hput)] at himms'
  cases himms'

end EpPut
