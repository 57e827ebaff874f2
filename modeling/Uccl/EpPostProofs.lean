import Uccl.EpQueueProofs
import Uccl.EpReceiveProofs

/-! # The immediates of WRITE commands

    `post_rdma_async_batched` groups a batch of WRITE commands by destination (in normal mode also by ring) and posts
    each group as a chain. Which requests of a chain carry an immediate depends on the mode and on the build:

    * normal mode: a command with a piggybacked atomic carries that atomic; over EFA the last request carries a `WriteImm`;
    * low-latency mode over EFA: a `WriteImm`, on every request with a receiver barrier, on the last one without;
    * low-latency mode elsewhere: the last request carries the low 32 bits of its work-request id, which are the low bits of the
      command's sequence number.

    The last one is not a typed encoding: from the 2^30-th command of a ring on, the receiver takes data writes for
    barrier messages and for atomics (`write_taken_for_release`, `write_imm_iff`). -/

namespace EpPost

open StepRun EpImm EpQueue EpReceive Except AtomicsImm

-- ── Commands and requests

/-- The fields of a WRITE `TransferCmd` that posting reads. -/
structure TransferCmd where
  /-- the two top bits of `cmd_type`; `lowLatency` is the buffer index -/
  isCombine : Bool
  lowLatency : Bool
  dstRank : BitVec 8
  atomicVal : BitVec 8
  bytes : BitVec 24
  reqRptr : BitVec 32
  /-- the union of `expert_idx` (low-latency mode) and `atomic_offset` (normal mode) -/
  slot : BitVec 16

def unpackLlExpert (slot : BitVec 16) : ℕ := slot.toNat &&& 0x3FF
def unpackLlNumTokens (slot : BitVec 16) (atomicVal : BitVec 8) : ℕ :=
  atomicVal.toNat ||| (((slot.toNat >>> 10) &&& 0x1F) <<< 8)

/-- The command carries an atomic along. -/
def TransferCmd.piggybacks (c : TransferCmd) : Bool :=
  decide (0 < c.slot.toNat) && decide (0 < c.atomicVal.toNat)

/-- A command as `post_gpu_command` took it: off ring `rbIdx`, as its `fifoSeq`-th. -/
structure Taken where
  rbIdx : ℕ
  fifoSeq : ℕ
  cmd : TransferCmd

def Taken.wrId (t : Taken) : ℕ := uniqueWrId t.rbIdx t.fifoSeq

/-- A work request handed to the NIC. -/
structure WorkRequest where
  taken : Taken
  imm : Option Imm

/-- What posting reads and writes of the context of a destination. -/
structure Ctx where
  remoteAddr : BitVec 64
  remoteLen : BitVec 64
  /-- `next_seq_per_index` at this destination -/
  nextSeq : ℕ → BitVec 8

inductive Abort
  /-- "Posting rdma to itself" -/
  | toItself
  /-- "Posting rdma to a different rank" -/
  | toDifferentRank
  /-- "Remote write OOB" -/
  | remoteOob
  /-- "atomic value=%d won't fit in 15 bits" -/
  | valueRange
  /-- an assertion of `AtomicsImm`, `WriteImm` or on the packed word -/
  | assertion
  deriving DecidableEq

/-- `decode_write_offset` -/
def decodeWriteOffset (shifted : BitVec 32) (lowLatency : Bool) : BitVec 64 :=
  shifted.setWidth 64 <<< (if lowLatency then 4 else 2)

/-- The bounds check in front of every request. -/
def inBounds (ctx : Ctx) (c : TransferCmd) (lowLatency : Bool) : Bool :=
  let remoteAddr := ctx.remoteAddr + decodeWriteOffset c.reqRptr lowLatency
  let remoteEnd := ctx.remoteAddr + ctx.remoteLen
  !(decide (remoteAddr < ctx.remoteAddr) || decide (remoteEnd < remoteAddr + c.bytes.setWidth 64))

-- ── Which immediate a request carries

/-- The atomic of a normal-mode command: numbered over EFA and under `SOFTWARE_ORDERING`. -/
def piggyback (b : Build) (ctx : Ctx) (c : TransferCmd) : Except Abort (Imm × Ctx) :=
  let v : ℤ := c.atomicVal.toNat
  if v < -kMaxSendAtomicValue ∨ kMaxSendAtomicValue < v then .error .valueRange
  else if b.efa || b.softwareOrdering then
    let index := c.slot.toNat / 8
    let seq := ctx.nextSeq index
    let next : BitVec 8 := BitVec.ofNat 8 ((seq.toNat + 1) % kReorderingBufferSize)
    match packAtomicWithSeq v c.slot seq true with
    | none => .error .assertion
    | some imm =>
      if getSeq imm ≠ seq then .error .assertion
      else if !b.efa ∧ (getValue imm ≠ v ∨ getOff imm ≠ c.slot) then
        .error .assertion
      else .ok (imm, { ctx with nextSeq := Function.update ctx.nextSeq index next })
  else
    match pack true false v c.slot c.lowLatency false with
    | none => .error .assertion
    | some imm =>
      if getValue imm ≠ v ∨ getOff imm ≠ c.slot then .error .assertion
      else .ok (imm, ctx)

/-- A `WriteImm`, if its assertions hold. -/
def writeImm (isCombine lowLatency : Bool) (expert tokens myRank : ℕ) :
    Except Abort (Option Imm) :=
  match WriteImm.pack isCombine lowLatency expert tokens myRank with
  | none => .error .assertion
  | some imm => .ok (some imm)

/-- Normal mode: the request for `t` in a chain of `k`, `last` if it ends the chain. -/
def requestNormal (b : Build) (e : Env) (k : ℕ) (last : Bool) (t : Taken) (ctx : Ctx) :
    Except Abort (WorkRequest × Ctx) :=
  if !inBounds ctx t.cmd false then .error .remoteOob
  else if t.cmd.piggybacks then
    match piggyback b ctx t.cmd with
    | .error a => .error a
    | .ok (imm, ctx') => .ok (⟨t, some imm⟩, ctx')
  else if b.efa && last then
    match writeImm t.cmd.isCombine t.cmd.lowLatency (t.cmd.slot.toNat &&& 0x3FF) k e.myRank with
    | .error a => .error a
    | .ok imm => .ok (⟨t, imm⟩, ctx)
  else .ok (⟨t, none⟩, ctx)

/-- Low-latency mode. -/
def requestFast (b : Build) (e : Env) (k : ℕ) (last : Bool) (t : Taken) (ctx : Ctx) :
    Except Abort (WorkRequest × Ctx) :=
  if !inBounds ctx t.cmd true then .error .remoteOob
  else if b.receiverBarrier then
    let tokens := unpackLlNumTokens t.cmd.slot t.cmd.atomicVal
    match writeImm t.cmd.isCombine t.cmd.lowLatency (unpackLlExpert t.cmd.slot)
        (if tokens = 0 then 1 else tokens) e.myRank with
    | .error a => .error a
    | .ok imm => .ok (⟨t, imm⟩, ctx)
  else if last then
    if b.efa then
      match writeImm t.cmd.isCombine t.cmd.lowLatency (unpackLlExpert t.cmd.slot) k e.myRank with
      | .error a => .error a
      | .ok imm => .ok (⟨t, imm⟩, ctx)
    -- `htonl(static_cast<uint32_t>(batch_tail_wr))`
    else .ok (⟨t, some (BitVec.ofNat 32 t.wrId)⟩, ctx)
  else .ok (⟨t, none⟩, ctx)

-- ── Chains and batches

/-- The loop over a chain. -/
def postChain {σ : Type} (request : Bool → Taken → σ → Except Abort (WorkRequest × σ)) :
    List Taken → σ → Except Abort (List WorkRequest × σ)
  | [], ctx => .ok ([], ctx)
  | t :: rest, ctx =>
    match request rest.isEmpty t ctx with
    | .error a => .error a
    | .ok (w, ctx) =>
      match postChain request rest ctx with
      | .error a => .error a
      | .ok (ws, ctx) => .ok (w :: ws, ctx)

/-- The loop over the chains. -/
def postChains {K σ : Type} (post : K → List Taken → σ → Except Abort (List WorkRequest × σ)) :
    List (K × List Taken) → σ → Except Abort (List WorkRequest × σ)
  | [], s => .ok ([], s)
  | (key, chain) :: rest, s =>
    match post key chain s with
    | .error a => .error a
    | .ok (ws, s) =>
      match postChains post rest s with
      | .error a => .error a
      | .ok (ws', s) => .ok (ws ++ ws', s)

/-- The groups of an `unordered_map` by a key, in the order in which the keys came up. -/
def groupsBy (key : Taken → ℕ) (batch : List Taken) : List (ℕ × List Taken) :=
  (batch.map key).dedup.map fun k => (k, batch.filter fun t => key t = k)

/-- Post the chain of one destination with the context of that destination. -/
def atDst (post : List Taken → Ctx → Except Abort (List WorkRequest × Ctx)) (dst : ℕ)
    (chain : List Taken) (ctxs : ℕ → Ctx) : Except Abort (List WorkRequest × (ℕ → Ctx)) :=
  match post chain (ctxs dst) with
  | .error a => .error a
  | .ok (ws, ctx) => .ok (ws, Function.update ctxs dst ctx)

def dstRank (t : Taken) : ℕ := t.cmd.dstRank.toNat
def ringIdx (t : Taken) : ℕ := (t.wrId >>> 32) &&& 0xFFFFFFFF

/-- `post_rdma_async_batched_normal_mode` -/
def postRdmaAsyncBatchedNormalMode (b : Build) (e : Env) (ctxs : ℕ → Ctx) (batch : List Taken) :
    Except Abort (List WorkRequest × (ℕ → Ctx)) :=
  if batch.any (fun t => dstRank t = e.myRank) then .error .toItself
  else if batch.any (fun t => ((dstRank t : ℤ) - e.myRank).natAbs % 8 ≠ 0) then
    .error .toDifferentRank
  else
    postChains (atDst fun chain => postChains
      (fun _ ring => postChain (requestNormal b e ring.length) ring) (groupsBy ringIdx chain))
      (groupsBy dstRank batch) ctxs

/-- `post_rdma_async_batched_fast_mode` -/
def postRdmaAsyncBatchedFastMode (b : Build) (e : Env) (ctxs : ℕ → Ctx) (batch : List Taken) :
    Except Abort (List WorkRequest × (ℕ → Ctx)) :=
  if batch.any (fun t => dstRank t = e.myRank) then .error .toItself
  else
    postChains (atDst fun chain =>
      -- with a receiver barrier the destination's chain is split by expert
      if b.receiverBarrier then
        postChains (fun _ expert => postChain (requestFast b e expert.length) expert)
          (groupsBy (fun t => unpackLlExpert t.cmd.slot) chain)
      else postChain (requestFast b e chain.length) chain)
      (groupsBy dstRank batch) ctxs

/-- `post_rdma_async_batched` -/
def postRdmaAsyncBatched (b : Build) (normal : Bool) (e : Env) (ctxs : ℕ → Ctx)
    (batch : List Taken) : Except Abort (List WorkRequest × (ℕ → Ctx)) :=
  if normal then postRdmaAsyncBatchedNormalMode b e ctxs batch
  else postRdmaAsyncBatchedFastMode b e ctxs batch

/-- What a WRITE has to be like for its immediate to be a write's. -/
def DataOnly (b : Build) (normal : Bool) (t : Taken) : Prop :=
  if normal then t.cmd.piggybacks = false else b.efa = true ∨ t.fifoSeq % 2 ^ 32 < 2 ^ 30

-- ── The request of one command

variable {b : Build} {e : Env} {k : ℕ} {last : Bool} {t : Taken} {ctx ctx' : Ctx}
  {w : WorkRequest} {imm : Imm} {P : WorkRequest → Prop} {ws : List WorkRequest}

theorem isAtomics_of_piggyback {c : TransferCmd} (h : piggyback b ctx c = .ok (imm, ctx')) :
    ImmType.isAtomics imm = true := by
  unfold piggyback at h
  dsimp only at h
  split at h
  · cases h
  split at h
  · split at h
    · cases h
    · next imm' hpack =>
      split at h
      · cases h
      split at h
      · cases h
      · rw [← (Prod.mk.inj (ok.inj h)).1]
        exact isAtomics_of_packAtomicWithSeq true hpack
  · split at h
    · cases h
    · next imm' hpack =>
      split at h
      · cases h
      · rw [← (Prod.mk.inj (ok.inj h)).1]
        exact isAtomics_of_pack false c.lowLatency false hpack

theorem isWrite_of_writeImm {c l : Bool} {x n r : ℕ} {o : Option Imm}
    (h : writeImm c l x n r = .ok o) (ho : o = some imm) : ImmType.isWrite imm = true := by
  unfold writeImm at h
  split at h
  · cases h
  · next imm' hpack =>
    rw [← Option.some.inj ((ok.inj h).trans ho)]
    exact (WriteImm.get_of_pack hpack).1

theorem not_isWrite_of_isAtomics (h : ImmType.isAtomics imm = true) : ¬ ImmType.isWrite imm = true := fun hw => by
  rw [((isWrite_iff imm).mp hw).1] at h
  cases h

/-- The low 32 bits of a work-request id are those of the sequence number. -/
theorem isWrite_wrId (t : Taken) : ImmType.isWrite (BitVec.ofNat 32 t.wrId) = true ↔ t.fifoSeq % 2 ^ 32 < 2 ^ 30 := by
  rw [isWrite_iff_lt, BitVec.toNat_ofNat, Taken.wrId, uniqueWrId_eq]
  have hmod : (t.rbIdx * 2 ^ 32 + t.fifoSeq % 2 ^ 32) % 2 ^ 32 = t.fifoSeq % 2 ^ 32 := by omega
  rw [hmod]

/-- The request is for the command, and its immediate, if any, is a write's exactly if the command is data only. -/
def Classified (b : Build) (normal : Bool) (w : WorkRequest) : Prop :=
  ∀ imm, w.imm = some imm → (ImmType.isWrite imm = true ↔ DataOnly b normal w.taken)

theorem requestNormal_classified (h : requestNormal b e k last t ctx = .ok (w, ctx')) : Classified b true w := by
  intro imm himm
  unfold requestNormal at h
  split at h
  · cases h
  split at h
  · next hp =>
    split at h
    · cases h
    · next imm' ctx1 hpig =>
      obtain ⟨hw, -⟩ := Prod.mk.inj (ok.inj h)
      rw [← hw] at himm ⊢
      rw [← Option.some.inj himm]
      refine iff_of_false (not_isWrite_of_isAtomics (isAtomics_of_piggyback hpig)) fun hd => ?_
      have hd : t.cmd.piggybacks = false := hd
      rw [hp] at hd
      cases hd
  · next hp =>
    have hdata : DataOnly b true t := Bool.eq_false_iff.mpr hp
    split at h
    · split at h
      · cases h
      · next o hwrite =>
        obtain ⟨hw, -⟩ := Prod.mk.inj (ok.inj h)
        rw [← hw] at himm ⊢
        exact iff_of_true (isWrite_of_writeImm hwrite himm) hdata
    · obtain ⟨hw, -⟩ := Prod.mk.inj (ok.inj h)
      rw [← hw] at himm
      cases himm

theorem requestFast_classified (h : requestFast b e k last t ctx = .ok (w, ctx')) : Classified b false w := by
  intro imm himm
  unfold requestFast at h
  split at h
  · cases h
  split at h
  · next hrb =>
    have hefa : b.efa = true := by
      exact (Bool.and_eq_true_iff.mp hrb).1
    dsimp only at h
    split at h
    · cases h
    · next o hwrite =>
      obtain ⟨hw, -⟩ := Prod.mk.inj (ok.inj h)
      rw [← hw] at himm ⊢
      exact iff_of_true (isWrite_of_writeImm hwrite himm) (.inl hefa)
  split at h
  · split at h
    · next hefa =>
      split at h
      · cases h
      · next o hwrite =>
        obtain ⟨hw, -⟩ := Prod.mk.inj (ok.inj h)
        rw [← hw] at himm ⊢
        exact iff_of_true (isWrite_of_writeImm hwrite himm) (.inl hefa)
    · next hefa =>
      obtain ⟨hw, -⟩ := Prod.mk.inj (ok.inj h)
      rw [← hw] at himm ⊢
      rw [← Option.some.inj himm, isWrite_wrId]
      exact ⟨.inr, fun hd => hd.resolve_left hefa⟩
  · obtain ⟨hw, -⟩ := Prod.mk.inj (ok.inj h)
    rw [← hw] at himm
    cases himm

-- ── Every request of a batch

/-- What is so of the request of every command is so of every request of a chain. -/
theorem postChain_forall {σ : Type} {request : Bool → Taken → σ → Except Abort (WorkRequest × σ)}
    (hreq : ∀ last t s w s', request last t s = .ok (w, s') → P w) {chain : List Taken} {s s' : σ}
    (h : postChain request chain s = .ok (ws, s')) : ∀ w ∈ ws, P w := by
  induction chain generalizing s s' ws with
  | nil =>
    rw [← (Prod.mk.inj (ok.inj h)).1]
    exact fun w hw => nomatch hw
  | cons t rest ih =>
    unfold postChain at h
    split at h
    · cases h
    · next w1 s1 hfirst =>
      split at h
      · cases h
      · next ws1 s2 hrest =>
        rw [← (Prod.mk.inj (ok.inj h)).1]
        intro w hw
        rcases List.mem_cons.mp hw with rfl | hw
        · exact hreq _ _ _ _ _ hfirst
        · exact ih hrest w hw

/-- And what is so of the requests of every chain is so of all requests. -/
theorem postChains_forall {K σ : Type} {post : K → List Taken → σ → Except Abort (List WorkRequest × σ)}
    (hpost : ∀ key chain s ws s', post key chain s = .ok (ws, s') → ∀ w ∈ ws, P w)
    {chains : List (K × List Taken)} {s s' : σ} (h : postChains post chains s = .ok (ws, s')) : ∀ w ∈ ws, P w := by
  induction chains generalizing s s' ws with
  | nil =>
    rw [← (Prod.mk.inj (ok.inj h)).1]
    exact fun w hw => nomatch hw
  | cons c rest ih =>
    unfold postChains at h
    split at h
    · cases h
    · next ws1 s1 hfirst =>
      split at h
      · cases h
      · next ws2 s2 hrest =>
        rw [← (Prod.mk.inj (ok.inj h)).1]
        intro w hw
        rcases List.mem_append.mp hw with hw | hw
        · exact hpost _ _ _ _ _ hfirst w hw
        · exact ih hrest w hw

theorem atDst_forall {post : List Taken → Ctx → Except Abort (List WorkRequest × Ctx)}
    (hpost : ∀ chain ctx ws ctx', post chain ctx = .ok (ws, ctx') → ∀ w ∈ ws, P w)
    (dst : ℕ) (chain : List Taken) (ctxs : ℕ → Ctx) (ws : List WorkRequest) (ctxs' : ℕ → Ctx)
    (h : atDst post dst chain ctxs = .ok (ws, ctxs')) : ∀ w ∈ ws, P w := by
  unfold atDst at h
  split at h
  · cases h
  · next ws1 ctx hok =>
    rw [← (Prod.mk.inj (ok.inj h)).1]
    exact hpost _ _ _ _ hok

theorem post_classified {normal : Bool} {ctxs ctxs' : ℕ → Ctx} {batch : List Taken}
    (h : postRdmaAsyncBatched b normal e ctxs batch = .ok (ws, ctxs')) : ∀ w ∈ ws, Classified b normal w := by
  unfold postRdmaAsyncBatched at h
  split at h
  · next hnormal =>
    rw [hnormal]
    unfold postRdmaAsyncBatchedNormalMode at h
    split at h
    · cases h
    split at h
    · cases h
    refine postChains_forall (atDst_forall fun chain ctx ws ctx' hchain => ?_) h
    exact postChains_forall (fun _ ring _ _ _ hring =>
      postChain_forall (fun _ _ _ _ _ hreq => requestNormal_classified hreq) hring) hchain
  · next hfast =>
    rw [Bool.eq_false_iff.mpr hfast]
    unfold postRdmaAsyncBatchedFastMode at h
    split at h
    · cases h
    refine postChains_forall (atDst_forall fun chain ctx ws ctx' hchain => ?_) h
    split at hchain
    · exact postChains_forall (fun _ expert _ _ _ hexpert =>
        postChain_forall (fun _ _ _ _ _ hreq => requestFast_classified hreq) hexpert) hchain
    · exact postChain_forall (fun _ _ _ _ _ hreq => requestFast_classified hreq) hchain

/-- **WHEN DATA IS TAKEN FOR DATA**: whatever batch of WRITEs is posted, an immediate on one of its requests is
    classified as a write exactly if the command is data only; and then it changes neither the atomics nor the barrier
    state of any receiver. -/
theorem write_imm_iff (b : Build) (normal : Bool) (e : Env) (ctxs ctxs' : ℕ → Ctx)
    (batch : List Taken) (ws : List WorkRequest) (h : postRdmaAsyncBatched b normal e ctxs batch = .ok (ws, ctxs')) :
    ∀ w ∈ ws, ∀ imm, w.imm = some imm → (ImmType.isWrite imm = true ↔ DataOnly b normal w.taken) ∧
      (DataOnly b normal w.taken → ∀ peer s s',
        remoteProcessCompletion b normal peer s imm = .ok s' → SameControl s s') := by
  intro w hw imm himm
  have hiff := post_classified h w hw imm himm
  exact ⟨hiff, fun hdata peer s s' hrecv => receive_write (hiff.mpr hdata) hrecv⟩

/-- A WRITE of 16 bytes to rank 1, nothing else in it. -/
def plainWrite : TransferCmd :=
  { isCombine := false, lowLatency := false, dstRank := 1#8, atomicVal := 0#8, bytes := 16#24,
    reqRptr := 0#32, slot := 0#16 }

/-- Two ranks on two nodes, on NICs other than EFA. -/
def plainBuild : Build := ⟨false, false, false, false⟩
def rankEnv (rank : ℕ) : Env := ⟨rank, 2, 2, 2⟩
def plainCtx : Ctx := ⟨0#64, 4096#64, fun _ => 0#8⟩

def efaBuild : Build := ⟨true, false, false, false⟩

/-- Three WRITEs to rank 8, the second with an atomic. -/
def threeWrites : List Taken :=
  let plain : TransferCmd := { plainWrite with dstRank := 8#8 }
  [⟨0, 5, plain⟩, ⟨0, 6, { plain with slot := 8#16, atomicVal := 3#8 }⟩, ⟨0, 7, plain⟩]

/-- In normal mode on EFA the last of the batch has a write for all of them. -/
theorem write_imm_of_three : ∃ ws ctxs',
    postRdmaAsyncBatched efaBuild true ⟨0, 16, 16, 2⟩ (fun _ => plainCtx) threeWrites = .ok (ws, ctxs') ∧
      (ws.map fun w => w.imm.map ImmType.isWrite) = [none, some false, some true] ∧
      ∀ w ∈ ws, ∀ imm, w.imm = some imm → (ImmType.isWrite imm = true ↔ DataOnly efaBuild true w.taken) ∧
        (DataOnly efaBuild true w.taken → ∀ peer s s',
          remoteProcessCompletion efaBuild true peer s imm = .ok s' → SameControl s s') :=
  ⟨_, _, rfl, rfl, write_imm_iff efaBuild true ⟨0, 16, 16, 2⟩ (fun _ => plainCtx) _ threeWrites _ rfl⟩

-- ── A long run

/-- The ring of a proxy that has one. -/
abbrev onlyRing : Fin 1 := ⟨0, Nat.one_pos⟩

/-- One WRITE goes through a proxy with one ring: pushed, taken, completed, retired. -/
def writeRound (q : Queues 1) : Queues 1 :=
  match take 32 (push q onlyRing .write) onlyRing with
  | some (_, q') => notifyGpuCompletion (complete q' (uniqueWrId 0 (q.ring onlyRing).fifoSeq))
  | none => q

/-- The proxy with nothing to do after `n` commands. -/
def idleAfter (n : ℕ) : Queues 1 :=
  { (Queues.init : Queues 1) with ring := fun _ => ⟨[], n, [], n, n⟩ }

/-- The proxy with the `n`-th command in flight, reported complete or not yet. -/
def busyAt (n : ℕ) (acked nic : Finset ℕ) : Queues 1 :=
  { (Queues.init : Queues 1) with
    ring := fun _ => ⟨[], n + 1, [uniqueWrId 0 n], n + 1, n⟩, acked := acked, nic := nic }

/-- On a single ring an update is a new value. -/
theorem update_single {α : Type} (f : Fin 1 → α) (i : Fin 1) (x : α) : Function.update f i x = fun _ => x := by
  funext j
  rw [Subsingleton.elim j i, Function.update_self]

theorem take_idleAfter (n : ℕ) : take 32 (push (idleAfter n) onlyRing .write) onlyRing =
      some (.write, busyAt n ∅ {uniqueWrId 0 n}) := by
  unfold push
  show some (CmdType.write, accept _ onlyRing .write) = _
  unfold accept
  dsimp only
  rw [update_single]
  rfl

theorem complete_busyAt (n : ℕ) :
    complete (busyAt n ∅ {uniqueWrId 0 n}) (uniqueWrId 0 n) = busyAt n {uniqueWrId 0 n} ∅ := by
  have hin : uniqueWrId 0 n ∈ (busyAt n ∅ {uniqueWrId 0 n}).nic := Finset.mem_singleton_self _
  unfold complete
  rw [if_pos hin]
  show busyAt n (insert (uniqueWrId 0 n) ∅) (({uniqueWrId 0 n} : Finset ℕ).erase (uniqueWrId 0 n)) = _
  rw [Finset.erase_singleton]
  rfl

theorem notify_busyAt (n : ℕ) : notifyGpuCompletion (busyAt n {uniqueWrId 0 n} ∅) = idleAfter (n + 1) := by
  have hin : uniqueWrId 0 n ∈ (busyAt n {uniqueWrId 0 n} ∅).acked := Finset.mem_singleton_self _
  show retireRing 0 [uniqueWrId 0 n] (busyAt n {uniqueWrId 0 n} ∅) = _
  unfold retireRing
  rw [if_pos hin]
  unfold retireFront
  rw [update_single]
  show ({ idleAfter (n + 1) with
    acked := ({uniqueWrId 0 n} : Finset ℕ).erase (uniqueWrId 0 n) } : Queues 1) = idleAfter (n + 1)
  rw [Finset.erase_singleton]
  rfl

theorem writeRound_idleAfter (n : ℕ) : writeRound (idleAfter n) = idleAfter (n + 1) := by
  unfold writeRound
  rw [take_idleAfter]
  show notifyGpuCompletion (complete (busyAt n ∅ {uniqueWrId 0 n}) (uniqueWrId 0 n)) = _
  rw [complete_busyAt, notify_busyAt]

theorem idleAfter_run (n : ℕ) : writeRound^[n] Queues.init = idleAfter n := by
  induction n with
  | zero => rfl
  | succ n ih => rw [Function.iterate_succ_apply', ih, writeRound_idleAfter]

/-- **A DATA WRITE RELEASES A BARRIER**: after 3 * 2^29 commands on a ring of rank 0, rank 1 takes the immediate of the
    next WRITE for the release of a barrier. -/
theorem write_taken_for_release : ∃ q ws ctxs' w imm, writeRound^[3 * 2 ^ 29] Queues.init = q ∧
      postRdmaAsyncBatched plainBuild false (rankEnv 0) (fun _ => plainCtx)
        [⟨0, (q.ring 0).fifoSeq, plainWrite⟩] = .ok (ws, ctxs') ∧ w ∈ ws ∧ w.imm = some imm ∧
      ImmType.isBarrier imm = true ∧
      ∃ s, remoteProcessCompletion plainBuild false (rankEnv 1) Receiver.init imm = .ok s ∧
        s.barrierReleased = true := by
  refine ⟨idleAfter (3 * 2 ^ 29), _, _, ⟨⟨0, 3 * 2 ^ 29, plainWrite⟩, some 0x60000000#32⟩, 0x60000000#32, idleAfter_run _, rfl, List.mem_singleton.mpr ?_, rfl, by decide, _, rfl, rfl⟩
  rfl

end EpPost
