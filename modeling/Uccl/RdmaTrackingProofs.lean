import Uccl.RdmaEngineProofs

/-! # The sender's tracking of chunks

    Five things must stay in step at a sender in UC mode: the tracked chunks, `snd_una`, `snd_nxt`, the copy of the
    receiver's SACK bitmap and the base stored with it. Neither walk over a bitmap checks the index it passes to
    `get_unacked_chunk_from_idx`; what keeps it in range is that a bitmap only has bits for chunks that were
    transmitted, that its count is the number of its bits, and that it is read relative to `snd_una`.

    `tx` is the number of chunks transmitted so far. Without pacing it is the number of chunks that have a CSN;
    with pacing the chunks in the wheel are in between. -/

namespace RdmaTracking

open RdmaPcb RdmaImm RdmaTimer RdmaState RdmaTransmit RdmaAck RdmaEngine WordBitmap StepRun List

variable {F : Type} [DecidableEq F]
variable {f g : F} {tx seq : ℕ} {e e' : SenderCtx F} {sf : SubUcclFlow F} {h : UcclSackHdr} {t : ChunkTrack F}

-- ── Walking a bitmap

omit [DecidableEq F] in
/-- **NO HOLE IS OUT OF RANGE**: while counted bits are still ahead, and all set bits
    are at tracked chunks, a hole is at a tracked chunk. -/
theorem sackHoleLoop_ok {bitmap : SackBitmap} (base : UintCsn) {after : Bool → SenderCtx F → SenderCtx F}
    (hafter : ∀ b e, ((after b e).flows f).unackedChunks = (e.flows f).unackedChunks) :
    ∀ (n index count : ℕ) (e : SenderCtx F) (done : Bool),
      (∀ i, testBit bitmap i = true → i < (e.flows f).unackedChunks.length) →
      count ≤ popCountFrom bitmap index → index + n ≤ 128 →
      ∃ r, sackHoleLoop f bitmap base after n index count e done = .ok r := by
  intro n
  induction n with
  | zero => intro index count e done _ _ _; exact ⟨_, rfl⟩
  | succ n ih =>
    intro index count e done hbits hcount hn
    have hindex : index < 64 * 2 := by omega
    simp only [sackHoleLoop]
    split
    · exact ⟨_, rfl⟩
    · next hgo =>
      split
      · next hset =>
        rw [popCountFrom_of_set hindex hset] at hcount
        exact ih _ _ _ _ hbits (by omega) (by omega)
      · next hclear =>
        have hclear := Bool.eq_false_iff.mpr hclear
        rw [popCountFrom_of_clear hindex hclear] at hcount
        have hpos : 0 < popCountFrom bitmap (index + 1) := by
          omega
        obtain ⟨j, hj, -, hset⟩ := popCountFrom_pos_iff.mp hpos
        have hlt : index < (e.flows f).unackedChunks.length := by
          have := hbits j hset
          omega
        rw [getElem?_eq_getElem hlt]
        dsimp only
        split
        · refine ih _ _ _ _ (fun i hi => ?_) hcount (by omega)
          rw [hafter]
          exact hbits i hi
        · refine ih _ _ _ _ (fun i hi => ?_) hcount (by omega)
          rw [hafter]
          exact hbits i hi

-- ── Completing a prefix

/-- The first `n` tracked chunks of `f` were completed. -/
structure AckedTo (e : SenderCtx F) (f : F) (n : ℕ) (e' : SenderCtx F) : Prop where
  self : ∃ bytes, e'.flows f = { e.flows f with
    unackedBytes := bytes
    unackedChunks := (e.flows f).unackedChunks.drop n
    ackedChunks := (e.flows f).ackedChunks + n }
  other : ∀ g, g ≠ f → e'.flows g = e.flows g
  frame : e' = { e with flows := e'.flows, wakeups := e'.wakeups, wrExPool := e'.wrExPool }
  wakeups : e'.wakeups = e.wakeups ++
    (((e.flows f).unackedChunks.take n).filter ChunkTrack.lastChunk).map ChunkTrack.ureq
  pool : ∀ w ∈ e'.wrExPool, w ∈ e.wrExPool ∨ ∃ t ∈ (e.flows f).unackedChunks, w = t.wrEx

omit [DecidableEq F] in
theorem mem_freeBuff {pool : List (WrEx F)} {w v : WrEx F} (h : v ∈ freeBuff pool w) : v ∈ pool ∨ v = w := by
  unfold freeBuff at h
  split at h
  · exact .inl h
  · rcases mem_append.mp h with h | h
    · exact .inl h
    · exact .inr (mem_singleton.mp h)

/-- Up to the number of tracked chunks, completing succeeds. -/
theorem ackTransmittedChunks_spec : ∀ (n : ℕ) (e : SenderCtx F), n ≤ (e.flows f).unackedChunks.length →
      ∃ e', ackTransmittedChunks f n e = .ok e' ∧ AckedTo e f n e' := by
  intro n
  induction n with
  | zero =>
    intro e _
    refine ⟨e, rfl, ⟨_, rfl⟩, fun _ _ => rfl, rfl, ?_, fun w hw => .inl hw⟩
    exact (append_nil _).symm
  | succ n ih =>
    intro e hn
    cases hchunks : (e.flows f).unackedChunks with
    | nil =>
      rw [hchunks] at hn
      exact absurd hn (Nat.not_succ_le_zero n)
    | cons chunk rest =>
      have hfront := flows_ackFront_self e f chunk rest
      have hlen : n ≤ ((ackFront e f chunk rest).flows f).unackedChunks.length := by
        rw [hfront]
        rw [hchunks] at hn
        exact Nat.le_of_succ_le_succ hn
      obtain ⟨e', hrun, hack⟩ := ih (ackFront e f chunk rest) hlen
      obtain ⟨bytes, hself⟩ := hack.self
      refine ⟨e', ?_, ⟨bytes, ?_⟩, fun g hg => ?_, ?_, ?_, fun w hw => ?_⟩
      · simp only [ackTransmittedChunks, hchunks]
        exact hrun
      · rw [hself, hfront, hchunks, drop_succ_cons]
        rw [Nat.add_assoc, Nat.add_comm 1 n]
      · rw [hack.other g hg, flows_ackFront_of_ne e hg]
      · rw [hack.frame]
        rfl
      · rw [hack.wakeups, hfront, hchunks, take_succ_cons]
        show (if chunk.lastChunk then e.wakeups ++ [chunk.ureq] else e.wakeups) ++ _ = _
        cases hlast : chunk.lastChunk with
        | false => rw [filter_cons_of_neg (by rw [hlast]; exact Bool.false_ne_true)]; rfl
        | true =>
          rw [filter_cons_of_pos hlast, if_pos rfl, append_assoc]
          rfl
      · have hpool := hack.pool w hw
        rw [hfront] at hpool
        rcases hpool with hw | ⟨t, ht, rfl⟩
        · rcases mem_freeBuff hw with hw | rfl
          · exact .inl hw
          · exact .inr ⟨chunk, by rw [hchunks]; exact mem_cons_self, rfl⟩
        · exact .inr ⟨t, by rw [hchunks]; exact mem_cons_of_mem _ ht, rfl⟩

-- ── What the tracked chunks are

/-- The tracked chunks are those from `snd_una` up to the `tx`-th, in order, and the
    sequence numbers count as they should. -/
structure Tracks (sf : SubUcclFlow F) (tx : ℕ) : Prop where
  acked_le : sf.ackedChunks ≤ tx
  tx_le : tx ≤ sf.sentChunks
  una : sf.pcb.sndUna = csnOf sf.ackedChunks
  nxt : sf.pcb.sndNxt = csnOf sf.sentChunks
  csns : sf.unackedChunks.map ChunkTrack.csn
    = (List.range' sf.ackedChunks (tx - sf.ackedChunks)).map csnOf

/-- And the stored bitmap is about transmitted chunks, counted and based right. -/
structure TrackedAt (sf : SubUcclFlow F) (tx : ℕ) : Prop extends Tracks sf tx where
  base : sf.pcb.txSackBitmapBase = sf.pcb.sndUna.setWidth 32
  bits : ∀ i, testBit sf.pcb.txSackBitmap i = true → sf.ackedChunks + i < tx
  count : sf.pcb.txSackBitmapCount.toNat = popCount sf.pcb.txSackBitmap

omit [DecidableEq F] in
theorem Tracks.length (h : Tracks sf tx) : sf.unackedChunks.length = tx - sf.ackedChunks := by
  have hlen := congrArg List.length h.csns
  rwa [length_map, length_map, length_range'] at hlen

omit [DecidableEq F] in
theorem Tracks.csn_eq (h : Tracks sf tx) {i : ℕ}
    (ht : sf.unackedChunks[i]? = some t) : t.csn = csnOf (sf.ackedChunks + i) := by
  have hmap : (sf.unackedChunks.map ChunkTrack.csn)[i]? = some t.csn := by
    rw [getElem?_map, ht]
    rfl
  have hi := lt_length ht
  rw [h.length] at hi
  rw [h.csns, getElem?_map, getElem?_range' hi, Nat.one_mul] at hmap
  exact (Option.some.inj hmap).symm

omit [DecidableEq F] in
/-- A fresh subflow. -/
theorem trackedAt_fresh (fid : BitVec 32) : TrackedAt ({ fid := fid } : SubUcclFlow F) 0 where
  acked_le := le_rfl
  tx_le := le_rfl
  una := rfl
  nxt := rfl
  csns := rfl
  base := rfl
  bits i hi := by
    rw [testBit_empty (by decide)] at hi
    exact absurd hi Bool.false_ne_true
  count := (popCount_empty (by decide)).symm

omit [DecidableEq F] in
/-- A CSN is handed out. -/
theorem TrackedAt.takeCsn (h : TrackedAt sf tx) :
    TrackedAt { sf with pcb := sf.pcb.getSndNxt.2, sentChunks := sf.sentChunks + 1 } tx :=
  { h with
    tx_le := Nat.le_succ_of_le h.tx_le
    nxt := by
      show sf.pcb.sndNxt + 1 = csnOf (sf.sentChunks + 1)
      rw [h.nxt, csnOf_succ] }

omit [DecidableEq F] in
/-- The next chunk is transmitted. -/
theorem TrackedAt.track (h : TrackedAt sf tx) (htx : tx < sf.sentChunks) (ht : t.csn = csnOf tx) :
    TrackedAt { sf with unackedChunks := sf.unackedChunks ++ [t] } (tx + 1) :=
  { h with
    acked_le := Nat.le_succ_of_le h.acked_le
    tx_le := htx
    csns := by
      have hle := h.acked_le
      rw [map_append, h.csns, Nat.succ_sub hle, range'_1_concat, map_append,
        map_singleton, map_singleton, ht, Nat.add_sub_cancel' hle]
    bits i hi := Nat.lt_succ_of_lt (h.bits i hi) }

/-- Retransmissions do not touch what is tracked. -/
theorem Tracks.resent (h : Tracks (e.flows g) tx) (hr : Resent e f e') : Tracks (e'.flows g) tx := by
  obtain ⟨_, _, _, _, hflow⟩ := hr.flow g
  rw [hflow]
  exact { h with }

theorem TrackedAt.resent (h : TrackedAt (e.flows g) tx) (hr : Resent e f e') : TrackedAt (e'.flows g) tx := by
  have htracks := h.toTracks.resent hr
  obtain ⟨_, _, _, _, hflow⟩ := hr.flow g
  rw [hflow] at htracks ⊢
  exact ⟨htracks, h.base, h.bits, h.count⟩

theorem TrackedAt.noteDuplicateAck (h : TrackedAt (e.flows f) tx) (hdr : UcclSackHdr) :
    TrackedAt ((noteDuplicateAck e f hdr).flows f) tx := by
  rw [RdmaAck.noteDuplicateAck, SenderCtx.modFlow_flows_self]
  exact { h with }

/-- **A RETRANSMISSION ROUND STAYS IN RANGE.** -/
theorem retransmitForFlow_ok (h : TrackedAt (e.flows f) tx) (rto : Bool) (now : ℕ) :
    ∃ e', retransmitForFlow e f rto now = .ok e' := by
  simp only [retransmitForFlow]
  split
  · exact ⟨_, rfl⟩
  · split
    · exact ⟨_, rfl⟩
    · have hbits : ∀ i, testBit (e.flows f).pcb.txSackBitmap i = true → i < (e.flows f).unackedChunks.length := by
        intro i hi
        have := h.bits i hi
        rw [h.length]
        omega
      obtain ⟨r, hloop⟩ := sackHoleLoop_ok ((e.flows f).pcb.txSackBitmapBase.setWidth 8)
        (fun _ e => rfl) kSackBitmapSize 0 (e.flows f).pcb.txSackBitmapCount.toNat e false
        hbits (by rw [popCountFrom_zero, h.count]) le_rfl
      rw [hloop]
      exact ⟨_, rfl⟩

/-- Where every subflow is tracked, timeouts are handled without fault; what
    retransmissions keep, handling them keeps. -/
theorem handleRto_ok (cfg : Config) (now : ℕ) {I : SenderCtx F → Prop}
    (htracked : ∀ e f, I e → ∃ tx, TrackedAt (e.flows f) tx) (hresent : ∀ e f e', I e → Resent e f e' → I e')
    (hrto : ∀ (e : SenderCtx F) rto, I e → I { e with rto := rto }) (hi : I e) :
    ∃ e', handleRto cfg e now = .ok e' ∧ I e' := by
  have hloop : ∀ (fs : List F) (e : SenderCtx F), I e → ∃ e', handleExpired cfg now fs e = .ok e' ∧ I e' := by
    intro fs
    induction fs with
    | nil => intro e hi; exact ⟨e, rfl, hi⟩
    | cons f fs ih =>
      intro e hi
      have hmark := hresent e f _ hi (resent_markFlowTimeout e f)
      have hok : ∃ e1, rtoRetransmitForFlow cfg (markFlowTimeout e f) f now = .ok e1 := by
        unfold rtoRetransmitForFlow
        split
        · obtain ⟨tx, ht⟩ := htracked _ f hmark
          exact retransmitForFlow_ok ht true now
        · exact ⟨_, rfl⟩
      obtain ⟨e1, h1⟩ := hok
      obtain ⟨e', hrun, hi'⟩ := ih e1 (hresent _ f e1 hmark (resent_rtoRetransmitForFlow h1))
      refine ⟨e', ?_, hi'⟩
      simp only [handleExpired, h1, hrun]
  unfold handleRto
  split
  · exact ⟨e, rfl, hi⟩
  · exact hloop _ _ (hrto e _ hi)

-- ── ACKs

/-- An ACK as the receiver of the subflow makes it — at any time so far, so it may be
    late, lost or repeated: its number is that of the next chunk expected then, its
    bitmap has bits for transmitted chunks only, and its count is the number of bits. -/
structure HonestAck (tx : ℕ) (h : UcclSackHdr) : Prop where
  ackno : h.ackno = (csnOf h.seq).setWidth 16
  seq_le : h.seq ≤ tx
  bits : ∀ i, testBit h.sackBitmap i = true → h.seq + i < tx
  count : h.sackBitmapCount.toNat = popCount h.sackBitmap

theorem HonestAck.ackno_csn (hh : HonestAck tx h) : h.ackno.setWidth 8 = csnOf h.seq := by
  rw [hh.ackno]
  exact BitVec.setWidth_setWidth_of_le _ (by decide)

/-- The SACK bitmap of an honest ACK is taken over once `snd_una` is its number. -/
theorem Tracks.updateSackBitmap (ht : Tracks (e.flows f) tx) (hh : HonestAck tx h)
    (hseq : (e.flows f).ackedChunks = h.seq) : TrackedAt ((updateSackBitmap e f h).flows f) tx := by
  rw [RdmaAck.updateSackBitmap, SenderCtx.modFlow_flows_self]
  refine ⟨{ ht with }, ?_, ?_, ?_⟩
  · rw [ht.una, hseq, hh.ackno]
    apply BitVec.eq_of_toNat_eq
    have := (csnOf h.seq).isLt
    simp only [BitVec.toNat_setWidth]
    omega
  · intro i hi
    rw [hseq]
    exact hh.bits i hi
  · have hle := popCount_le h.sackBitmap
    rw [BitVec.toNat_setWidth, hh.count, Nat.mod_eq_of_lt (by omega)]

/-- What an ACK with number `seq` does to the engine. -/
structure AckEffect (e : SenderCtx F) (f : F) (seq : ℕ) (e' : SenderCtx F) : Prop where
  self : ∃ bytes pcb armed, e'.flows f = { e.flows f with
    unackedBytes := bytes
    pcb := pcb
    rtoArmed := armed
    unackedChunks := (e.flows f).unackedChunks.drop (seq - (e.flows f).ackedChunks)
    ackedChunks := max (e.flows f).ackedChunks seq }
  other : ∀ g, g ≠ f → e'.flows g = e.flows g
  frame : e' = { e with
    flows := e'.flows, wrExPool := e'.wrExPool, engineUnackedBytes := e'.engineUnackedBytes
    rto := e'.rto, sq := e'.sq, wakeups := e'.wakeups }
  wakeups : e'.wakeups = e.wakeups ++ (((e.flows f).unackedChunks.take
    (seq - (e.flows f).ackedChunks)).filter ChunkTrack.lastChunk).map ChunkTrack.ureq
  pool : ∀ w ∈ e'.wrExPool, w ∈ e.wrExPool ∨ ∃ t ∈ (e.flows f).unackedChunks, w = t.wrEx
  posts : ∃ ps, e'.sq = e.sq ++ ps ∧
    ∀ p ∈ ps, ∃ chunk ∈ (e.flows f).unackedChunks, p = rtxPost chunk.wrEx

omit [DecidableEq F] in
/-- An ACK that completes nothing. -/
theorem AckEffect.refl (hseq : seq ≤ (e.flows f).ackedChunks) : AckEffect e f seq e where
  self := by
    rw [Nat.sub_eq_zero_of_le hseq, Nat.max_eq_left hseq]
    exact ⟨_, _, _, rfl⟩
  other _ _ := rfl
  frame := rfl
  wakeups := by
    rw [Nat.sub_eq_zero_of_le hseq]
    exact (append_nil _).symm
  pool w hw := .inl hw
  posts := ⟨[], (append_nil _).symm, nofun⟩

omit [DecidableEq F] in
/-- An ACK that completes the chunks below its number. -/
theorem AckEffect.of_acked (hseq : (e.flows f).ackedChunks ≤ seq)
    (h : AckedTo e f (seq - (e.flows f).ackedChunks) e') : AckEffect e f seq e' :=
  { h with
    self := by
      obtain ⟨bytes, hself⟩ := h.self
      rw [hself, Nat.add_sub_cancel' hseq, Nat.max_eq_right hseq]
      exact ⟨_, _, _, rfl⟩
    frame := by rw [h.frame]
    posts := ⟨[], by rw [h.frame, append_nil], nofun⟩ }

/-- The PCB of the subflow is free to change. -/
theorem AckEffect.modPcb (h : AckEffect e f seq e') (k : SubUcclFlow F → PCB) :
    AckEffect e f seq (e'.modFlow f fun sf => { sf with pcb := k sf }) :=
  { h with
    self := by
      obtain ⟨bytes, pcb, armed, hself⟩ := h.self
      refine ⟨bytes, k (e'.flows f), armed, ?_⟩
      rw [SenderCtx.modFlow_flows_self, hself]
    other g hg := by rw [SenderCtx.modFlow_flows_of_ne _ hg, h.other g hg]
    frame := by
      rw [SenderCtx.modFlow, h.frame] }

omit [DecidableEq F] in
/-- So is the engine's byte counter. -/
theorem AckEffect.with_bytes (h : AckEffect e f seq e') (n : ℕ) :
    AckEffect e f seq { e' with engineUnackedBytes := n } :=
  { h with
    frame := by rw [h.frame] }

omit [DecidableEq F] in
/-- And tracked chunks may be sent again. -/
theorem AckEffect.resent {e'' : SenderCtx F} (h : AckEffect e f seq e') (hr : Resent e' f e'') :
    AckEffect e f seq e'' where
  self := by
    obtain ⟨bytes, pcb, armed, hself⟩ := h.self
    obtain ⟨_, _, _, _, hflow⟩ := hr.self
    rw [hflow, hself]
    exact ⟨_, _, _, rfl⟩
  other g hg := by rw [hr.other g hg, h.other g hg]
  frame := by rw [hr.frame, h.frame]
  wakeups := by
    rw [hr.frame]
    exact h.wakeups
  pool := by
    rw [hr.frame]
    exact h.pool
  posts := by
    obtain ⟨ps, hps, hsent⟩ := h.posts
    obtain ⟨qs, hqs, hsent'⟩ := hr.posts
    refine ⟨ps ++ qs, by rw [hqs, hps, append_assoc], fun p hp => ?_⟩
    rcases mem_append.mp hp with hp | hp
    · exact hsent p hp
    · obtain ⟨chunk, hmem, rfl⟩ := hsent' p hp
      obtain ⟨_, _, _, hself⟩ := h.self
      rw [hself] at hmem
      exact ⟨chunk, mem_of_mem_drop hmem, rfl⟩

-- ── The branches of uc_rx_ack

/-- A duplicate ACK never leads outside the tracked chunks, whichever bitmap is walked. -/
theorem rxDuplicateAck_ok (ht : TrackedAt (e.flows f) tx) (hh : HonestAck tx h)
    (hseq : (e.flows f).ackedChunks = h.seq) (cfg : Config) (now : ℕ) :
    ∃ e', rxDuplicateAck cfg e f h now = .ok e' := by
  have hnote := ht.noteDuplicateAck h
  simp only [rxDuplicateAck]
  split
  · exact ⟨_, rfl⟩
  · split
    · unfold fastRetransmitForFlow
      split
      · exact retransmitForFlow_ok hnote false now
      · exact ⟨_, rfl⟩
    · have hbits : ∀ i, testBit h.sackBitmap i = true →
          i < ((noteDuplicateAck e f h).flows f).unackedChunks.length := by
        intro i hi
        have hi' := hh.bits i hi
        rw [RdmaAck.noteDuplicateAck, SenderCtx.modFlow_flows_self, ht.length]
        omega
      obtain ⟨r, hloop⟩ := sackHoleLoop_ok ((noteDuplicateAck e f h).flows f).pcb.sndUna
        (fun b e => (resent_fastRecoveryHole f now b e).unackedChunks f)
        kSackBitmapSize 0 h.sackBitmapCount.toNat (noteDuplicateAck e f h) false
        hbits (by rw [popCountFrom_zero, hh.count]) le_rfl
      rw [hloop]
      exact ⟨_, rfl⟩

/-- A valid ACK completes the chunks below its number. -/
theorem rxValidAck_spec (ht : Tracks (e.flows f) tx) (hle : (e.flows f).ackedChunks ≤ seq)
    (hseq : seq ≤ tx) (hwin : seq < (e.flows f).ackedChunks + 256) (now : ℕ) :
    ∃ e', rxValidAck e f (csnOf seq) now = .ok e' ∧ AckEffect e f seq e' ∧
      Tracks (e'.flows f) tx ∧ (e'.flows f).ackedChunks = seq := by
  have hcount : (csnOf seq - (e.flows f).pcb.sndUna).toNat = seq - (e.flows f).ackedChunks := by
    rw [ht.una, toNat_csnOf_sub hle hwin]
  have hlen : seq - (e.flows f).ackedChunks ≤ (e.flows f).unackedChunks.length := by
    rw [ht.length]
    omega
  obtain ⟨e1, hack, hacked⟩ := ackTransmittedChunks_spec _ e hlen
  have heffect := ((AckEffect.of_acked hle hacked).with_bytes
    (reduceEngineBytes e1 f (e.flows f).unackedBytes).engineUnackedBytes).modPcb fun sf =>
      { sf.pcb with
        sndUna := csnOf seq, duplicateAcks := 0, sndOooAcks := 0, rtoRexmitsConsectutive := 0 }
  have htimer := resent_resetTimer (advanceUna (reduceEngineBytes e1 f (e.flows f).unackedBytes) f (csnOf seq)) f now
  refine ⟨_, ?_, heffect.resent htimer, Tracks.resent ?_ htimer, ?_⟩
  · simp only [rxValidAck, hcount, hack]
  · obtain ⟨bytes, hself⟩ := hacked.self
    have hflow : (reduceEngineBytes e1 f (e.flows f).unackedBytes).flows f = e1.flows f := rfl
    rw [advanceUna, SenderCtx.modFlow_flows_self, hflow, hself, Nat.add_sub_cancel' hle]
    refine ⟨hseq, ht.tx_le, rfl, ht.nxt, ?_⟩
    rw [map_drop, ht.csns, ← map_drop, drop_range', Nat.mul_one,
      Nat.add_sub_cancel' hle, Nat.sub_sub_sub_cancel_right hle]
  · obtain ⟨_, _, _, hself⟩ := (heffect.resent htimer).self
    exact (congrArg SubUcclFlow.ackedChunks hself).trans (Nat.max_eq_right hle)

/-- **WHAT AN HONEST ACK DOES**: it is processed without fault, completes the chunks below its number, and
    leaves the tracking in step — whether it is older than `snd_una`, a duplicate or a valid one. -/
theorem ucRxAck_spec (hf : e.senderFlowTbl h.fid = f)
    (ht : TrackedAt (e.flows f) tx) (hh : HonestAck tx h) (hrecent : (e.flows f).ackedChunks ≤ h.seq + 127)
    (hwin : (e.flows f).sentChunks < (e.flows f).ackedChunks + 128) (cfg : Config) (now : ℕ) :
    ∃ e', ucRxAck cfg e h now = .ok e' ∧ AckEffect e f h.seq e' ∧ TrackedAt (e'.flows f) tx := by
  have hseq := hh.seq_le
  have htx := ht.tx_le
  simp only [ucRxAck, hf, hh.ackno_csn, ht.una, ht.nxt]
  by_cases hold : h.seq < (e.flows f).ackedChunks
  · rw [if_pos (seqnoLt_csnOf_of_lt hold (by omega))]
    exact ⟨e, rfl, AckEffect.refl hold.le, ht⟩
  · have hle := Nat.not_lt.mp hold
    rw [seqnoLt_csnOf_of_le hle (by omega), seqnoGt_csnOf_of_le (by omega) (by omega)]
    by_cases hdup : (e.flows f).ackedChunks = h.seq
    · obtain ⟨e1, hrun⟩ := rxDuplicateAck_ok ht hh hdup cfg now
      have hres := resent_rxDuplicateAck hrun
      have hnote := (ht.noteDuplicateAck h).resent hres
      have heffect := ((AckEffect.refl (le_of_eq hdup.symm)).modPcb _).resent hres
      rw [(seqnoEq_iff _ _).mpr (congrArg csnOf hdup.symm)]
      simp only [Bool.false_eq_true, if_false, if_true, hrun]
      refine ⟨_, rfl, heffect.modPcb _, hnote.toTracks.updateSackBitmap hh ?_⟩
      obtain ⟨_, _, _, hself⟩ := heffect.self
      rw [hself]
      exact (Nat.max_eq_left (le_of_eq hdup.symm)).trans hdup
    · have hne : ¬ seqnoEq (csnOf h.seq) (csnOf (e.flows f).ackedChunks) = true := by
        rw [seqnoEq_iff, csnOf_inj (by omega) (by omega)]
        omega
      obtain ⟨e1, hrun, heffect, htracks, hacked⟩ :=
        rxValidAck_spec ht.toTracks hle hseq (by omega) now
      rw [if_neg hne]
      simp only [Bool.false_eq_true, if_false, hrun]
      exact ⟨_, rfl, heffect.modPcb _, htracks.updateSackBitmap hh hacked⟩

-- ── Runs

/-- Fewer than 128 chunks are unacknowledged on every subflow. -/
def Windowed (e : SenderCtx F) : Prop :=
  ∀ f, (e.flows f).unackedChunks.length < kSackBitmapSize

/-- The steps of a sender in UC mode: sends, ACKs of an honest receiver that are at most
    127 CSNs old, timeouts and retransmissions. -/
def Permitted (e : SenderCtx F) : TxAction F → Prop
  | .tx id _ => (e.ureqs id).type = .ReqTx
  | .ucAck h _ =>
    HonestAck (e.flows (e.senderFlowTbl h.fid)).sentChunks h ∧
      (e.flows (e.senderFlowTbl h.fid)).ackedChunks ≤ h.seq + 127
  | .rcAck _ => False
  | .burst _ _ | .rto _ | .retransmit _ _ _ => True

instance HonestAck.instDecidable (tx : ℕ) (h : UcclSackHdr) : Decidable (HonestAck tx h) :=
  decidable_of_iff
    (h.ackno = (csnOf h.seq).setWidth 16 ∧ h.seq ≤ tx ∧
      (∀ i < 128, testBit h.sackBitmap i = true → h.seq + i < tx) ∧
      h.sackBitmapCount.toNat = popCount h.sackBitmap)
    ⟨fun ⟨hno, hle, hbits, hcount⟩ =>
        ⟨hno, hle, fun i hi => hbits i (lt_of_testBit (by decide) hi) hi, hcount⟩,
      fun hh => ⟨hh.ackno, hh.seq_le, fun i _ => hh.bits i, hh.count⟩⟩

instance Permitted.instDecidable (e : SenderCtx F) : ∀ a, Decidable (Permitted e a)
  | .tx _ _ => inferInstanceAs (Decidable (_ = _))
  | .ucAck h _ => inferInstanceAs (Decidable (HonestAck _ h ∧ _))
  | .rcAck _ => inferInstanceAs (Decidable False)
  | .burst _ _ | .rto _ | .retransmit _ _ _ => inferInstanceAs (Decidable True)

instance Windowed.instDecidable [Fintype F] (e : SenderCtx F) : Decidable (Windowed e) :=
  inferInstanceAs (Decidable (∀ _, _))

/-- What the tracked chunks, the sequence numbers and the stored base have to do with each other. -/
structure InStep (sf : SubUcclFlow F) : Prop where
  csn : ∀ i t, sf.unackedChunks[i]? = some t → t.csn = sf.pcb.sndUna + BitVec.ofNat 8 i
  length : sf.unackedChunks.length = (sf.pcb.sndNxt - sf.pcb.sndUna).toNat
  base : sf.pcb.txSackBitmapBase = sf.pcb.sndUna.setWidth 32

omit [DecidableEq F] in
theorem TrackedAt.inStep (h : TrackedAt sf sf.sentChunks) (hwin : sf.unackedChunks.length < 128) : InStep sf where
  csn i t ht := by rw [h.csn_eq ht, h.una, csnOf_add]
  length := by
    rw [h.length] at hwin ⊢
    rw [h.nxt, h.una, toNat_csnOf_sub h.acked_le (by omega)]
  base := h.base

/-- Every transmitted chunk is tracked and none waits in the wheel. -/
structure AllTracked (e : SenderCtx F) : Prop where
  wheel : e.wheel = []
  ready : e.readyQueue = []
  flows : ∀ f, TrackedAt (e.flows f) (e.flows f).sentChunks

omit [DecidableEq F] in
theorem allTracked_initial (h : Initial e) : AllTracked e where
  wheel := h.wheel
  ready := h.readyQueue
  flows f := by
    obtain ⟨fid, hf⟩ := h.flows f
    rw [hf]
    exact trackedAt_fresh fid

/-- One chunk of a send is given a CSN and transmitted. -/
theorem AllTracked.message {cfg : Config} (hbypass : cfg.bypassPacing = true) (h : AllTracked e)
    (id : ReqId) (c : TxChoice) (w : WrEx F) (pool : List (WrEx F)) :
    AllTracked (accountChunk (placeChunk cfg e id c w pool) (e.ureqs id).context id (admitted cfg e id)) := by
  rw [placeChunk_of_bypass hbypass]
  refine ⟨?_, ?_, fun g => ?_⟩
  · rw [frame_transmitChunk]
    exact h.wheel
  · rw [frame_transmitChunk]
    exact h.ready
  · by_cases hg : g = (e.ureqs id).context
    · rw [hg]
      -- the CSN first, then the tracked chunk, then what is outside the tracking
      have hcsn := ((h.flows (e.ureqs id).context).takeCsn).track (Nat.lt_succ_self _)
        (t := messageTrack id { fillMessageWr cfg (e.ureqs id).context
          (e.flows (e.ureqs id).context) (e.ureqs id) (admitted cfg e id) w with
            qpidx := c.qpidx })
        ((csn_immOf _ _ _ _).trans (h.flows (e.ureqs id).context).nxt)
      obtain ⟨armed, hsent⟩ := flows_transmitChunk_self cfg
        (takeCsn { e with wrExPool := pool } (e.ureqs id).context) (e.ureqs id).context id
        (fillMessageWr cfg (e.ureqs id).context (e.flows (e.ureqs id).context) (e.ureqs id)
          (admitted cfg e id) w) .message c
      rw [flows_accountChunk_self, hsent, flows_takeCsn_self]
      exact { hcsn with }
    · rw [flows_accountChunk_of_ne _ hg, flows_transmitChunk_of_ne _ _ hg, flows_takeCsn_of_ne _ hg]
      exact h.flows g

theorem AllTracked.resent (h : AllTracked e) (hr : Resent e f e') : AllTracked e' := by
  refine ⟨?_, ?_, fun g => ?_⟩
  · rw [hr.frame]
    exact h.wheel
  · rw [hr.frame]
    exact h.ready
  · have hg := (h.flows g).resent hr
    obtain ⟨_, _, _, _, hflow⟩ := hr.flow g
    rw [show (e'.flows g).sentChunks = (e.flows g).sentChunks by rw [hflow]]
    exact hg

theorem AllTracked.ackEffect (h : AllTracked e) (heffect : AckEffect e f seq e')
    (htracked : TrackedAt (e'.flows f) (e.flows f).sentChunks) : AllTracked e' := by
  refine ⟨?_, ?_, fun g => ?_⟩
  · rw [heffect.frame]
    exact h.wheel
  · rw [heffect.frame]
    exact h.ready
  · by_cases hg : g = f
    · obtain ⟨_, _, _, hself⟩ := heffect.self
      rw [hg, show (e'.flows f).sentChunks = (e.flows f).sentChunks by rw [hself]]
      exact htracked
    · rw [heffect.other g hg]
      exact h.flows g

/-- **ONE STEP**: a permitted step either finds the buffer pool empty, or succeeds and leaves the tracking in step. -/
theorem AllTracked.step {cfg : Config} (hbypass : cfg.bypassPacing = true) {a : TxAction F}
    (h : AllTracked e) (hwin : Windowed e) (ha : Permitted e a) : engStep cfg e a = .error .wrExPoolEmpty ∨
    engStep cfg e a = .error .zeroLengthOneSided ∨
    ∃ e', engStep cfg e a = .ok e' ∧ AllTracked e' := by
  cases a with
  | tx id cs =>
    simp only [engStep]
    cases htx : txMessage cfg e id cs with
    | error x =>
      rcases txMessage_error htx with rfl | rfl
      · exact .inl rfl
      · exact .inr (.inl rfl)
    | ok r =>
      obtain ⟨e', b⟩ := r
      refine .inr (.inr ⟨e', rfl, ?_⟩)
      refine (txMessage_rule (I := fun e => AllTracked e ∧ (e.ureqs id).type = .ReqTx) ?_ ?_ ⟨h, ha⟩ htx).1
      · rintro e c e' b ⟨hi, hty⟩ - hrun
        refine ⟨?_, (type_txMessageChunk hrun).trans hty⟩
        rcases txMessageChunk_cases hrun with ⟨-, rfl⟩ | ⟨w, pool, -, -, -, rfl⟩
        · exact hi
        · exact hi.message hbypass id c w pool
      · rintro opcode user - e c e' b ⟨-, hty⟩ hne -
        exact absurd hty hne
  | burst due cs =>
    refine .inr (.inr ⟨_, rfl, ?_⟩)
    -- the wheel and the ready queue are empty, so there is nothing to reap or burst
    refine burstTimingWheel_rule ?_ ?_ h due cs
    · intro e f w hi hfind
      rw [hi.wheel] at hfind
      cases hfind
    · intro e w rest c hi hready
      rw [hi.ready] at hready
      cases hready
  | ucAck hdr now =>
    have hf := h.flows (e.senderFlowTbl hdr.fid)
    have hlen := hwin (e.senderFlowTbl hdr.fid)
    rw [hf.length] at hlen
    have hsize : kSackBitmapSize = 128 := rfl
    obtain ⟨e', hrun, heffect, htracked⟩ := ucRxAck_spec rfl hf ha.1 ha.2 (by omega) cfg now
    exact .inr (.inr ⟨e', hrun, h.ackEffect heffect htracked⟩)
  | rcAck wrId => exact False.elim ha
  | rto now =>
    exact .inr (.inr (handleRto_ok _ _ (fun e f hi => ⟨_, hi.flows f⟩)
      (fun _ _ _ hi hr => hi.resent hr) (fun _ _ hi => ⟨hi.wheel, hi.ready, hi.flows⟩) h))
  | retransmit f rto now =>
    obtain ⟨e', hrun⟩ := retransmitForFlow_ok (h.flows f) rto now
    exact .inr (.inr ⟨e', hrun, h.resent (resent_retransmitForFlow hrun)⟩)

/-- **THE SENDER'S TRACKING STAYS IN STEP**: without pacing, in every run with ACKs of an honest receiver, fewer than
    128 unacknowledged chunks and no ACK older than 127 CSNs, the `i`-th tracked chunk has the CSN `snd_una + i`, there
    are `snd_nxt - snd_una` of them, the stored base is `snd_una`, and no walk over a bitmap asks for a chunk that is
    not tracked. -/
theorem tracking_in_step {cfg : Config} (hbypass : cfg.bypassPacing = true) {e₀ : SenderCtx F}
    (h₀ : Initial e₀) {as : List (TxAction F)}
    (has : Along (engStep cfg) (fun e a => Windowed e ∧ Permitted e a) e₀ as) :
    runFrom (engStep cfg) e₀ as ≠ .error .chunkIndexOutOfRange ∧
    ∀ e, runFrom (engStep cfg) e₀ as = .ok e → Windowed e → ∀ f, InStep (e.flows f) := by
  have hstep : ∀ (e : SenderCtx F) (a : TxAction F) (e' : SenderCtx F), AllTracked e →
      Windowed e ∧ Permitted e a → engStep cfg e a = .ok e' → AllTracked e' := by
    rintro e a e' hi ⟨hwin, ha⟩ hrun
    rcases hi.step hbypass hwin ha with h | h | ⟨e₁, h, hi'⟩
    · cases h.symm.trans hrun
    · cases h.symm.trans hrun
    · rw [← Except.ok.inj (h.symm.trans hrun)]
      exact hi'
  refine ⟨runFrom_ne_error_along hstep ?_ (allTracked_initial h₀) has, ?_⟩
  · rintro e a hi ⟨hwin, ha⟩ hrun
    rcases hi.step hbypass hwin ha with h | h | ⟨e₁, h, -⟩
    · cases h.symm.trans hrun
    · cases h.symm.trans hrun
    · cases h.symm.trans hrun
  · intro e hrun hwin f
    exact ((runFrom_invariant_along hstep (allTracked_initial h₀) has hrun).flows f).inStep (hwin f)

/-- Three one-byte messages; the receiver has the second, then the first two. -/
def sackRun : List (TxAction Unit) :=
  [.tx 0 fun _ => {}, .tx 1 fun _ => {}, .tx 2 fun _ => {},
   .ucAck { fid := 0, path := 0, ackno := 0, sackBitmapCount := 1
            sackBitmap := setBit empty 1, seq := 0 } 1,
   .retransmit () true 2,
   .ucAck { fid := 0, path := 0, ackno := 2, sackBitmapCount := 0
            sackBitmap := empty, seq := 2 } 3]

theorem tracking_in_step_sack : ∃ e, runFrom (engStep defaultConfig) (byteRequests .ReqTx) sackRun = .ok e ∧
      (e.flows ()).unackedChunks.length = 1 ∧ e.sq.length = 4 ∧ InStep (e.flows ()) := by
  have hinit : Initial (byteRequests .ReqTx) := initial_freshEngine _ fun _ => ⟨rfl, rfl⟩
  refine exists_run_of_guarded (G := fun e a => Windowed e ∧ Permitted e a)
    (fun e => (e.flows ()).unackedChunks.length = 1 ∧ e.sq.length = 4) ?_
    fun e halong hrun he => ⟨he.1, he.2, (tracking_in_step rfl hinit halong).2 e hrun (fun _ => ?_) ()⟩
  · decide +kernel
  · rw [he.1]
    decide

end RdmaTracking
