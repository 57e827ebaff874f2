import Uccl.RdmaDeliveryProofs

/-! # Exactly-once delivery over lossy queue pairs

    The invariants of the two ends and of the wire hold together in every state that a run of one UC-mode subflow
    reaches, as long as

    * fewer than 128 chunks have a CSN and no acknowledgement (`InWindow`),
    * no ACK arrives that is 128 or more behind `snd_una` (`AckTimely`),
    * no copy of a chunk arrives when `rcv_nxt` is more than 128 past it (`CopyTimely`).

    From this follows `delivered_exactly_once`. The last condition is needed: a copy that is overtaken by half the CSN
    space on the other QPs is taken for a new chunk of whatever message uses its slot by then (`stale_copy_counted`). -/

namespace RdmaExactlyOnce

open RdmaPcb RdmaImm RdmaTimer RdmaState RdmaTransmit RdmaAck RdmaEngine RdmaTracking List
  RdmaReceive RdmaReassembly RdmaChannel RdmaDelivery Segmentation StepRun
variable {log : List (Chunk Message)} {cfg : Config} {lens : ReqId → ℕ}

-- ── The invariant of the subflow

/-- **THE SUBFLOW**: both ends and the wire agree with the log. -/
structure ChanOk (cfg : Config) (lens : ReqId → ℕ) (s : Channel) : Prop where
  snd : SndOk cfg s.snd s.log
  cut : CutOk lens s.snd.ureqs s.log s.msgs s.pending
  recvs : (s.msgs.map Message.recv ++ s.fifo.map Prod.snd).Nodup
  posted : ∀ id ∈ s.msgs.map Message.recv ++ s.fifo.map Prod.snd, id ∈ s.posted
  rcv : ∃ L, RcvOk lens s.log s.msgs s.fifo (transmitted s.snd) L s.rcv ∧ ∀ x ∈ L, 0 < x.1
  acked_le : (s.snd.flows ()).ackedChunks ≤ (s.rcv.flows ()).rcvdChunks
  wire : WireOk s.log (transmitted s.snd) (s.snd.flows ()).unackedChunks (acceptedSeqs s.rcv)
    s.wire

/-- Fewer than `kSackBitmapSize` chunks have a CSN and are not acknowledged. -/
def InWindow (s : Channel) : Prop :=
  (s.snd.flows ()).sentChunks < (s.snd.flows ()).ackedChunks + kSackBitmapSize
deriving Decidable

/-- An ACK that arrives is less than 128 behind `snd_una`. -/
def AckTimely (s : Channel) : ChAction → Prop
  | .ack k _ => ∀ h ∈ s.rcv.acks[k]?,
      (s.snd.flows ()).ackedChunks < h.seq + kSackBitmapSize
  | _ => True

/-- `rcv_nxt` is at most 128 past a copy that arrives. -/
def CopyTimely (s : Channel) : ChAction → Prop
  | .deliver q => ∀ p ∈ s.wire.find? fun p => decide (p.qpidx = q),
      p.opcode = .SEND → (s.rcv.flows ()).rcvdChunks ≤ p.seq + kSackBitmapSize
  | _ => True

instance (s : Channel) (a : ChAction) : Decidable (AckTimely s a) := by
  cases a <;> unfold AckTimely <;> infer_instance

instance (s : Channel) (a : ChAction) : Decidable (CopyTimely s a) := by
  cases a <;> unfold CopyTimely <;> infer_instance

section

variable {cfg : Config} {lens : ReqId → ℕ} {s : Channel} {e : SenderCtx Unit} {m : Message} {n q : ℕ}

theorem ChanOk.logOk (h : ChanOk cfg lens s) : LogOk lens s.log s.msgs s.fifo where
  wellCut := h.cut.wellCut
  sized := h.cut.sized
  started := h.cut.started
  bytes_le _ hm := h.cut.bytes_le hm
  lens_lt id := by
    rw [← h.cut.len id]
    exact (s.snd.ureqs id).dataLen_lt
  recvs := h.recvs

/-- Nothing above what was transmitted is accepted. -/
theorem ChanOk.transmitted_not_accepted (h : ChanOk cfg lens s) :
    transmitted s.snd ∉ acceptedSeqs s.rcv := fun hmem => by
  obtain ⟨L, hr, -⟩ := h.rcv
  exact Nat.lt_irrefl _ (hr.seq_lt hmem)

/-- In the window, the queue is short. -/
theorem queue_lt_of_inWindow (h : SndOk cfg e log)
    (hwin : (e.flows ()).sentChunks < (e.flows ()).ackedChunks + kSackBitmapSize) :
    (queue e).length < kSackBitmapSize := by
  have htotal := h.total
  have hsent := h.sent
  unfold transmitted at htotal
  omega

/-- In the window, the receiver sees every transmitted chunk less than 128 ahead. -/
theorem ChanOk.transmitted_le (h : ChanOk cfg lens s) (hwin : InWindow s) :
    transmitted s.snd ≤ (s.rcv.flows ()).rcvdChunks + 128 := by
  have hle := h.snd.tracked.tx_le
  have hacked := h.acked_le
  have hsize : kSackBitmapSize = 128 := rfl
  unfold InWindow at hwin
  omega

theorem chanOk_initial (cfg : Config) (h : ChInitial s) : ChanOk cfg (fun id => (s.snd.ureqs id).dataLen) s := by
  obtain ⟨fid, hflow⟩ := h.flow
  obtain ⟨fid', hsflow⟩ := h.snd.flows ()
  have hseqs : acceptedSeqs s.rcv = [] := by rw [acceptedSeqs, h.accepted]; rfl
  have htx : transmitted s.snd = 0 := by rw [transmitted, hsflow]; rfl
  refine ⟨?_, ?_, ?_, ?_, ⟨[], ?_, forall_mem_nil _⟩, ?_, ?_⟩
  · rw [h.log]
    exact sndOk_initial cfg h.snd
  · rw [h.log, h.msgs, h.pending]
    exact cutOk_initial fun _ => rfl
  · rw [h.msgs, h.fifo]
    exact nodup_nil
  · rw [h.msgs, h.fifo]
    exact forall_mem_nil _
  · rw [htx, h.log, h.msgs, h.fifo]
    refine ⟨?_, ?_, ?_, le_rfl, forall_mem_nil _, ?_, ?_, ?_, ⟨forall_mem_nil _, forall_mem_nil _, ?_, ?_⟩, ?_, ?_⟩
    · rw [hflow]
      exact reassembled_empty
    · rw [hflow]; rfl
    · rw [hflow]
    · rw [hseqs, hflow]
      intro k
      constructor
      · intro hk
        cases hk
      · rintro (hk | ⟨_, hx, _⟩)
        · exact absurd hk (Nat.not_lt_zero k)
        · cases hx
    · rw [hseqs]
      exact nodup_nil
    · rw [h.accepted]
      exact forall_mem_nil _
    · rw [hflow]
      intro _ _ hrecv
      cases hrecv
    · rw [hflow]
      intro _ hrecv
      cases hrecv
    · rw [hflow, h.completed]
      rfl
    · rw [h.acks]
      exact forall_mem_nil _
  · rw [hsflow]
    exact Nat.zero_le _
  · rw [h.wire]
    exact wireOk_nil ..

-- ── What the sending engine does to the subflow

/-- Every tracked chunk is one of those transmitted. -/
theorem tracked_lt (h : Numbered (TrackedChunk log) (e.flows ()).ackedChunks (e.flows ()).unackedChunks) :
    ∀ t ∈ (e.flows ()).unackedChunks, ∃ k < transmitted e, TrackedChunk log k t := by
  intro t ht
  obtain ⟨k, -, hk, hchunk⟩ := h.mem ht
  exact ⟨k, hk, hchunk⟩

/-- The engine sends tracked chunks again and perhaps stops tracking some. -/
theorem ChanOk.resends (h : ChanOk cfg lens s) (hsnd : SndOk cfg e s.log)
    (htx : transmitted e = transmitted s.snd) (hureqs : e.ureqs = s.snd.ureqs)
    (hacked : (e.flows ()).ackedChunks ≤ (s.rcv.flows ()).rcvdChunks)
    (hsub : (e.flows ()).unackedChunks ⊆ (s.snd.flows ()).unackedChunks)
    (hposts : ∃ ps, e.sq = s.snd.sq ++ ps ∧ ∀ p ∈ ps, ∃ t ∈ (s.snd.flows ()).unackedChunks, p = rtxPost t.wrEx) :
    ChanOk cfg lens (s.withSnd e) := by
  obtain ⟨ps, hsq, hps⟩ := hposts
  refine ⟨hsnd, ?_, h.recvs, h.posted, ?_, hacked, ?_⟩
  · rw [show (s.withSnd e).snd.ureqs = _ from hureqs]
    exact h.cut
  · rw [show transmitted (s.withSnd e).snd = _ from htx]
    exact h.rcv
  · rw [show transmitted (s.withSnd e).snd = _ from htx, wire_withSnd hsq]
    exact h.wire.resend hps (tracked_lt h.snd.chunks) hsub

theorem ChanOk.resent (h : ChanOk cfg lens s) (hr : Resent s.snd () e) : ChanOk cfg lens (s.withSnd e) := by
  obtain ⟨_, _, _, _, hflow⟩ := hr.self
  refine h.resends (h.snd.resent hr) ?_ ?_ ?_ ?_ hr.posts
  · rw [transmitted, hflow]
    rfl
  · rw [hr.frame]
  · rw [hflow]
    exact h.acked_le
  · rw [hflow]
    exact fun _ ht => ht

/-- The engine posts the next chunk, or nothing. -/
theorem wireOk_transmits {acc : List ℕ} {wire : List (Post Unit)} {e e' : SenderCtx Unit}
    (h : WireOk log (transmitted e) (e.flows ()).unackedChunks acc wire)
    (hchunks : Numbered (TrackedChunk log) (e.flows ()).ackedChunks (e.flows ()).unackedChunks)
    (hacc : transmitted e ∉ acc) (hs : Transmits log e e' ∨ Quiet e e') :
    WireOk log (transmitted e') (e'.flows ()).unackedChunks acc
      (wire ++ e'.sq.drop e.sq.length) ∧
    transmitted e ≤ transmitted e' ∧
    (e'.flows ()).ackedChunks = (e.flows ()).ackedChunks := by
  rcases hs with hs | hq
  · have htx := hs.transmitted
    obtain ⟨user, t, ht, hsq, hacked, hunacked⟩ := hs
    refine ⟨?_, ?_, hacked⟩
    · rw [htx, hunacked, hsq, drop_left]
      exact h.send ht hacc (tracked_lt hchunks) user
    · rw [htx]
      exact Nat.le_succ _
  · refine ⟨?_, le_of_eq hq.transmitted.symm, hq.2.1⟩
    rw [hq.transmitted, hq.2.2, hq.1, drop_length, append_nil]
    exact h

theorem ChanOk.transmits (h : ChanOk cfg lens s) (hsnd : SndOk cfg e s.log)
    (hureqs : e.ureqs = s.snd.ureqs) (hs : Transmits s.log s.snd e) : ChanOk cfg lens (s.withSnd e) := by
  obtain ⟨hwire, hle, hacked⟩ := wireOk_transmits h.wire h.snd.chunks h.transmitted_not_accepted
    (.inl hs)
  obtain ⟨L, hr, hpos⟩ := h.rcv
  refine ⟨hsnd, ?_, h.recvs, h.posted, ⟨L, hr.mono hle ?_, hpos⟩, ?_, hwire⟩
  · rw [show (s.withSnd e).snd.ureqs = _ from hureqs]
    exact h.cut
  · exact le_of_le_of_eq (Nat.le_add_right _ _) hsnd.total
  · rw [show ((s.withSnd e).snd.flows ()).ackedChunks = _ from hacked]
    exact h.acked_le

-- ── One step

/-- A step keeps the invariant, or it was not possible: the buffer pool is empty, or
    there is nothing to take the step on. -/
def Progress (cfg : Config) (lens : ReqId → ℕ) : Except Fault Channel → Prop
  | .ok s => ChanOk cfg lens s
  | .error x => x = .wrExPoolEmpty ∨ x = .notEnabled

theorem ChanOk.postRecv (h : ChanOk cfg lens s) (id : ReqId) : Progress cfg lens (postRecv s id) := by
  unfold RdmaChannel.postRecv
  split
  · exact .inr rfl
  · next hfresh =>
    obtain ⟨L, hr, hpos⟩ := h.rcv
    split
    · exact h
    · next e rid hrun =>
      obtain ⟨hr', hseqs, hrcvd⟩ := hr.supplyRxBuff hrun
      obtain ⟨hnodup, hposted⟩ := names_supply rid h.recvs h.posted hfresh
      refine ⟨h.snd, h.cut, hnodup, hposted, ⟨L, hr', hpos⟩, ?_, ?_⟩
      · rw [show ((_ : ReceiverCtx Unit).flows ()).rcvdChunks = _ from hrcvd]
        exact h.acked_le
      · rw [show acceptedSeqs _ = _ from hseqs]
        exact h.wire

theorem ChanOk.startSend (h : ChanOk cfg lens s) (id : ReqId) (k : ℕ) : Progress cfg lens (startSend s id k) := by
  unfold RdmaChannel.startSend
  split
  · exact .inr rfl
  · next rid recv hk =>
    split
    · exact .inr rfl
    · next hfree =>
      obtain ⟨-, hfresh⟩ := not_or.mp hfree
      obtain ⟨L, hr, hpos⟩ := h.rcv
      have hperm := names_start s.msgs (m := ⟨id, recv, rid⟩) hk
      have hchunks := h.cut.no_chunk (m := ⟨id, recv, rid⟩) hfresh
      refine ⟨⟨h.snd.tracked, h.snd.sent, h.snd.total, h.snd.bypass, h.snd.wheelCnt, h.snd.chunks,
        h.snd.queued, h.snd.pool, h.snd.wakeups⟩, ?_, hperm.nodup_iff.mpr h.recvs,
        fun id' hid => h.posted id' (hperm.subset hid),
        ⟨L, hr.start (m := ⟨id, recv, rid⟩) hk hchunks, hpos⟩, h.acked_le, h.wire⟩
      exact h.cut.start (m := ⟨id, recv, rid⟩) hfresh (h.cut.len id) rfl rfl

/-- No chunk is larger than what is left of its request. -/
theorem admitted_le (cfg : Config) (e : SenderCtx Unit) (id : ReqId) :
    admitted cfg e id ≤ (e.ureqs id).dataLen - (e.ureqs id).sentOffset := by
  unfold admitted eventOnChunkSize
  dsimp only
  split
  · exact Nat.zero_le _
  · split
    · exact Nat.min_le_left _ _
    · exact Nat.zero_le _

/-- The message a chunk is cut from is pending. -/
theorem mem_of_find_send {l : List Message} {id : ReqId}
    (h : l.find? (fun m => decide (m.send = id)) = some m) : m ∈ l ∧ m.send = id :=
  ⟨mem_of_find?_eq_some h, of_decide_eq_true (find?_some (p := fun m : Message => decide (m.send = id)) h)⟩

theorem ChanOk.txChunk (h : ChanOk cfg lens s) (hwin : InWindow s) (id : ReqId) (c : TxChoice) :
    Progress cfg lens (txChunk cfg s id c) := by
  unfold RdmaChannel.txChunk
  split
  · exact .inr rfl
  · next m hfind =>
    obtain ⟨hm, rfl⟩ := mem_of_find_send hfind
    split
    · next x htx => exact .inl (txMessageChunk_error htx)
    · exact h
    · next e htx =>
      rcases txMessageChunk_cases htx with ⟨hb, -⟩ | ⟨w, pool, -, hpool, -, he⟩
      · cases hb
      have hqueue := queue_lt_of_inWindow h.snd hwin
      have hsize : kSackBitmapSize = 128 := rfl
      obtain ⟨hsnd, hsends⟩ := h.snd.place hpool (h.cut.rid m hm) (by omega) c he
      have hureqs : e.ureqs = Function.update s.snd.ureqs m.send { s.snd.ureqs m.send with
          sentOffset := addU32 (s.snd.ureqs m.send).sentOffset (admitted cfg s.snd m.send) } := by
        rw [he, ureqs_accountChunk, ureqs_placeChunk]
      obtain ⟨hchunks, -, -⟩ := h.snd.grow (nextChunk cfg s.snd m)
      obtain ⟨hwire, hle, hacked⟩ := wireOk_transmits (h.wire.append (nextChunk cfg s.snd m))
        hchunks h.transmitted_not_accepted hsends
      obtain ⟨L, hr, hpos⟩ := h.rcv
      refine ⟨hsnd, h.cut.cut hm rfl (admitted_le cfg s.snd m.send) rfl hureqs, h.recvs, h.posted,
        ⟨L, (hr.append _).mono hle ?_, hpos⟩, ?_, hwire⟩
      · exact le_of_le_of_eq (Nat.le_add_right _ _) hsnd.total
      · show (e.flows ()).ackedChunks ≤ _
        rw [hacked]
        exact h.acked_le

/-- Draining the wheel: chunk by chunk, with the counters of the window unchanged. -/
theorem ChanOk.burst (h : ChanOk cfg lens s) (hwin : InWindow s) (due : List Unit)
    (cs : ℕ → TxChoice) : ChanOk cfg lens (s.withSnd (burstTimingWheel cfg s.snd due cs)) := by
  let I : SenderCtx Unit → Prop := fun e =>
    ChanOk cfg lens (s.withSnd e) ∧ s.snd.sq <+: e.sq ∧
      (e.flows ()).sentChunks < (e.flows ()).ackedChunks + kSackBitmapSize
  have hstart : I s.snd := ⟨(withSnd_self s).symm ▸ h, prefix_rfl, hwin⟩
  refine (burstTimingWheel_rule (I := I) ?_ ?_ hstart due cs).1
  · rintro e f w ⟨hi, hsq, hin⟩ hfind
    refine ⟨?_, hsq, hin⟩
    have hsnd : SndOk cfg e s.log := hi.snd
    exact { hi with snd := hsnd.of_eq hsnd.tracked rfl rfl rfl rfl (queue_reaped hfind) rfl rfl }
  · rintro e w rest c ⟨hi, hsq, hin⟩ hready
    have hsnd : SndOk cfg e s.log := hi.snd
    have hqueue := queue_lt_of_inWindow hsnd hin
    have hsize : kSackBitmapSize = 128 := rfl
    obtain ⟨hsnd', hsends⟩ := hsnd.burst hready (by omega) c
    obtain ⟨_, _, -, hpost, hacked, -⟩ := id hsends
    have hmore : e.sq <+: (burstChunk cfg e w rest c).sq := ⟨_, hpost.symm⟩
    refine ⟨?_, hsq.trans hmore, ?_⟩
    · rw [← withSnd_withSnd hsq hmore]
      exact hi.transmits hsnd' (ureqs_burstChunk ..) hsends
    · rw [hacked, hsnd'.sent, ← hsnd.sent]
      exact hin

/-- **WHAT A DELIVERY DOES**: a chunk that is new is accepted, a copy of one that is not is dropped. -/
theorem ChanOk.deliver_spec (hUC : cfg.rcMode = false) (h : ChanOk cfg lens s)
    (hwin : InWindow s) (hcopy : CopyTimely s (.deliver q)) {p : Post Unit}
    (hfind : s.wire.find? (fun p => decide (p.qpidx = q)) = some p) :
    ∃ e, deliver cfg s q = .ok { s with rcv := e, wire := s.wire.eraseP fun p => decide (p.qpidx = q) } ∧
      ChanOk cfg lens { s with rcv := e, wire := s.wire.eraseP fun p => decide (p.qpidx = q) } ∧
      (s.rcv.flows ()).rcvdChunks ≤ (e.flows ()).rcvdChunks ∧
      (p.seq ∉ acceptedSeqs s.rcv ∧ acceptedSeqs e = acceptedSeqs s.rcv ++ [p.seq] ∧
          (p.opcode = .SEND → e.acks = s.rcv.acks ∧ () ∈ e.ackList) ∨
        p.seq ∈ acceptedSeqs s.rcv ∧ e = dropRetrChunk s.rcv ()) := by
  have hp : OnWire s.log (transmitted s.snd) p := h.wire.posts p (mem_of_find?_eq_some hfind)
  obtain ⟨L, hr, hpos⟩ := h.rcv
  have htx := h.transmitted_le hwin
  have hsub := h.wire.sublist (eraseP_sublist (p := fun p => decide (p.qpidx = q)))
  by_cases hold : p.seq ∈ acceptedSeqs s.rcv
  · -- an original is never accepted before it arrives
    have hop : p.opcode = .SEND := by
      obtain ⟨c, -, -, -, -, hkind⟩ := hp.chunk
      rcases hkind with ⟨ho, -⟩ | ⟨ho, -⟩
      · exact absurd hold (h.wire.original p (mem_of_find?_eq_some hfind) ho)
      · exact ho
    have hrun := hr.receive_old cfg hp (hcopy p hfind hop) htx hop hold
    have hrcvd : ((dropRetrChunk s.rcv ()).flows ()).rcvdChunks
        = (s.rcv.flows ()).rcvdChunks := by
      rw [dropRetrChunk, ReceiverCtx.modFlow_flows_self]
    refine ⟨dropRetrChunk s.rcv (), ?_, ⟨h.snd, h.cut, h.recvs, h.posted,
      ⟨L, hr.dropRetrChunk, hpos⟩, le_of_le_of_eq h.acked_le hrcvd.symm, hsub⟩,
      le_of_eq hrcvd.symm, .inr ⟨hold, rfl⟩⟩
    simp only [deliver, hfind, hrun]
  · obtain ⟨e, L', hrun, hr', hpos', hseqs, hle, hsend⟩ := hr.receive_new hUC h.logOk hp htx hold
    refine ⟨e, ?_, ⟨h.snd, h.cut, h.recvs, h.posted, ⟨L', hr', hpos'⟩, le_trans h.acked_le hle, ?_⟩,
      hle, .inl ⟨hold, hseqs, hsend⟩⟩
    · simp only [deliver, hfind, hrun]
    · refine hsub.accept (k := p.seq) (fun j hj => ?_) (h.wire.deliver hfind)
      rw [show acceptedSeqs _ = _ from hseqs, mem_append, mem_singleton] at hj
      exact hj

theorem ChanOk.deliver (hUC : cfg.rcMode = false) (h : ChanOk cfg lens s) (hwin : InWindow s)
    (hcopy : CopyTimely s (.deliver q)) : Progress cfg lens (deliver cfg s q) := by
  cases hfind : s.wire.find? fun p => decide (p.qpidx = q) with
  | none =>
    simp only [RdmaChannel.deliver, hfind]
    exact .inr rfl
  | some p =>
    obtain ⟨e, hrun, hok, -⟩ := h.deliver_spec hUC hwin hcopy hfind
    rw [hrun]
    exact hok

/-- **WHAT AN ACK DOES** at the sender of the subflow. -/
theorem ChanOk.ack_spec (h : ChanOk cfg lens s) (hwin : InWindow s) {k : ℕ} {hdr : UcclSackHdr}
    (hk : s.rcv.acks[k]? = some hdr) (hrecent : (s.snd.flows ()).ackedChunks < hdr.seq + kSackBitmapSize) (now : ℕ) :
    ∃ e, deliverAck cfg s k now = .ok (s.withSnd e) ∧ ChanOk cfg lens (s.withSnd e) ∧
      (e.flows ()).sentChunks = (s.snd.flows ()).sentChunks ∧
      (e.flows ()).ackedChunks = max (s.snd.flows ()).ackedChunks hdr.seq := by
  obtain ⟨L, hr, -⟩ := h.rcv
  obtain ⟨hhonest, hseq⟩ := hr.acks hdr (mem_of_getElem? hk)
  have hsize : kSackBitmapSize = 128 := rfl
  obtain ⟨e, hrun, heffect, htracked⟩ := ucRxAck_spec (f := ()) rfl h.snd.tracked hhonest
    (by omega) (by unfold InWindow at hwin; omega) cfg now
  obtain ⟨hsnd, htx⟩ := h.snd.acked heffect htracked hhonest.seq_le
  obtain ⟨_, _, _, hflow⟩ := heffect.self
  refine ⟨e, ?_, h.resends hsnd htx ?_ ?_ ?_ heffect.posts, by rw [hflow], by rw [hflow]⟩
  · simp only [deliverAck, hk, hrun]
  · rw [heffect.frame]
  · rw [hflow]
    exact max_le h.acked_le hseq
  · rw [hflow]
    exact drop_subset _ _

theorem ChanOk.ack (h : ChanOk cfg lens s) (hwin : InWindow s) {k now : ℕ}
    (htimely : AckTimely s (.ack k now)) : Progress cfg lens (deliverAck cfg s k now) := by
  cases hk : s.rcv.acks[k]? with
  | none =>
    simp only [deliverAck, hk]
    exact .inr rfl
  | some hdr =>
    obtain ⟨e, hrun, hok, -⟩ := h.ack_spec hwin hk (htimely hdr hk) now
    rw [hrun]
    exact hok

/-- Handling timeouts: only copies are posted. -/
theorem ChanOk.rto (h : ChanOk cfg lens s) (now : ℕ) : Progress cfg lens (chStep cfg s (.rto now)) := by
  let I : SenderCtx Unit → Prop := fun e => ChanOk cfg lens (s.withSnd e) ∧ s.snd.sq <+: e.sq
  have hstart : I s.snd := ⟨(withSnd_self s).symm ▸ h, prefix_rfl⟩
  obtain ⟨e, hrun, hi, -⟩ := handleRto_ok cfg now (I := I)
    (fun e _ hi => ⟨_, hi.1.snd.tracked⟩)
    (fun e _ e' hi hr => by
      obtain ⟨ps, hps, -⟩ := hr.posts
      have hmore : e.sq <+: e'.sq := ⟨ps, hps.symm⟩
      refine ⟨?_, hi.2.trans hmore⟩
      rw [← withSnd_withSnd hi.2 hmore]
      exact hi.1.resent hr)
    (fun e rto hi => by
      have hsnd : SndOk cfg e s.log := hi.1.snd
      exact ⟨⟨hsnd.of_eq hsnd.tracked rfl rfl rfl rfl rfl rfl rfl, hi.1.cut, hi.1.recvs,
        hi.1.posted, hi.1.rcv, hi.1.acked_le, hi.1.wire⟩, hi.2⟩)
    hstart
  simp only [chStep, hrun]
  exact hi

/-- **ONE STEP** of the subflow. -/
theorem ChanOk.step (hUC : cfg.rcMode = false) (h : ChanOk cfg lens s) {a : ChAction}
    (hwin : InWindow s) (hack : AckTimely s a) (hcopy : CopyTimely s a) : Progress cfg lens (chStep cfg s a) := by
  cases a with
  | postRecv id => exact h.postRecv id
  | startSend id k => exact h.startSend id k
  | tx id c => exact h.txChunk hwin id c
  | burst due cs => exact h.burst hwin due cs
  | deliver q => exact h.deliver hUC hwin hcopy
  | drop i =>
    exact { h with wire := h.wire.sublist (eraseIdx_sublist ..) }
  | postAcks =>
    obtain ⟨L, hr, hpos⟩ := h.rcv
    have hr' := hr.ucPostAcks hpos
    simp only [chStep]
    rw [ucPostAcks_eq] at hr' ⊢
    exact { h with rcv := ⟨L, hr', hpos⟩ }
  | ack k now => exact h.ack hwin hack
  | rto now => exact h.rto now
  | retransmit rto now =>
    obtain ⟨e, hrun⟩ := retransmitForFlow_ok h.snd.tracked rto now
    simp only [chStep, hrun]
    exact h.resent (resent_retransmitForFlow hrun)

-- ── What the subflow promises

/-- The whole message was cut, and the receiver accepted every chunk of it. -/
structure AllAccepted (s : Channel) (m : Message) : Prop where
  ended : ¬ Open s.log m
  whole : bytes s.log m = (s.snd.ureqs m.send).dataLen
  accepted : ∀ k c, s.log[k]? = some c → c.msg = m → k ∈ acceptedSeqs s.rcv

/-- **EXACTLY ONCE.** -/
structure ExactlyOnce (s : Channel) : Prop where
  /-- No chunk is added twice, -/
  addedOnce : (acceptedSeqs s.rcv).Nodup
  /-- and each to the request it was sent for, with its own length; -/
  addedRight : ∀ a ∈ s.rcv.accepted, ∃ c, s.log[a.seq]? = some c ∧ a.rid = c.msg.rid ∧
    a.ureq = c.msg.recv ∧ a.len = c.len
  /-- so `received_bytes` is the length of the chunks accepted. -/
  counted : ∀ m ∈ s.msgs, ∀ rid, ((s.rcv.flows ()).reqs rid).ureq = some m.recv →
    rid = m.rid ∧ ((s.rcv.flows ()).reqs rid).receivedBytes = received s.log s.rcv m
  completedOnce : (s.rcv.completed.map Completed.ureq).Nodup
  /-- A request is completed for a message of which everything was accepted, -/
  completedWhole : ∀ d ∈ s.rcv.completed, ∃ m ∈ s.msgs, m.recv = d.ureq ∧ AllAccepted s m ∧
    d.dataLen = (s.snd.ureqs m.send).dataLen
  /-- and is freed with that; -/
  freed : ∀ d ∈ s.rcv.completed, ∀ rid, ((s.rcv.flows ()).reqs rid).ureq ≠ some d.ureq
  /-- it is completed as soon as `rcv_nxt` is past the message. -/
  completes : ∀ m, ¬ Open s.log m →
    (∀ k c, s.log[k]? = some c → c.msg = m → k < (s.rcv.flows ()).rcvdChunks) →
    m.recv ∈ s.rcv.completed.map Completed.ureq
  wokenOnce : s.snd.wakeups.Nodup
  wokenWhole : ∀ id ∈ s.snd.wakeups, ∃ m ∈ s.msgs, m.send = id ∧ AllAccepted s m

theorem mem_finished : m ∈ finished log n ↔ ∃ k c, k < n ∧ log[k]? = some c ∧ c.last = true ∧ c.msg = m := by
  unfold finished
  rw [mem_map]
  constructor
  · rintro ⟨c, hc, rfl⟩
    obtain ⟨hmem, hlast⟩ := mem_filter.mp hc
    obtain ⟨k, hk⟩ := mem_iff_getElem?.mp hmem
    have hlt : k < n := by
      by_contra hge
      rw [getElem?_eq_none (by rw [length_take]; omega)] at hk
      cases hk
    rw [getElem?_take_of_lt hlt] at hk
    exact ⟨k, c, hlt, hk, hlast, rfl⟩
  · rintro ⟨k, c, hlt, hk, hlast, rfl⟩
    rw [← getElem?_take_of_lt hlt] at hk
    exact ⟨c, mem_filter.mpr ⟨mem_of_getElem? hk, hlast⟩, rfl⟩

theorem finished_nodup (h : WellCut log) (n : ℕ) : (finished log n).Nodup := (h.take n).lasts_nodup

/-- A message that ends below `rcv_nxt` was accepted as a whole. -/
theorem ChanOk.allAccepted (h : ChanOk cfg lens s) (hn : n ≤ (s.rcv.flows ()).rcvdChunks) (hm : m ∈ finished s.log n) :
    m ∈ s.msgs ∧ AllAccepted s m := by
  obtain ⟨L, hr, -⟩ := h.rcv
  obtain ⟨j, c, hj, hc, hlast, rfl⟩ := mem_finished.mp hm
  have hmem : c ∈ s.log := mem_of_getElem? hc
  refine ⟨h.cut.started c hmem, fun hopen => ?_, ?_, fun k d hd hmsg => ?_⟩
  · rw [hopen c hmem rfl] at hlast
    cases hlast
  · rw [h.cut.sized c hmem hlast, h.cut.len]
  · have hkj := h.cut.wellCut.le_of_last hc hlast hd hmsg
    exact (hr.seqs k).mpr (.inl (by omega))

/-- The messages among those that end below any number are told apart by either name. -/
theorem ChanOk.finished_names (h : ChanOk cfg lens s) (hn : n ≤ (s.rcv.flows ()).rcvdChunks) :
    ((finished s.log n).map Message.recv).Nodup ∧
    ((finished s.log n).map Message.send).Nodup := by
  have hnd := finished_nodup h.cut.wellCut n
  exact ⟨hnd.map_on fun _ hm _ hm' => h.logOk.recv_inj (h.allAccepted hn hm).1 (h.allAccepted hn hm').1,
    hnd.map_on fun _ hm _ hm' => h.cut.send_inj (h.allAccepted hn hm).1 (h.allAccepted hn hm').1⟩

theorem ChanOk.exactlyOnce (h : ChanOk cfg lens s) : ExactlyOnce s := by
  obtain ⟨L, hr, -⟩ := h.rcv
  have hureqs : s.rcv.completed.map Completed.ureq
      = (finished s.log (s.rcv.flows ()).rcvdChunks).map Message.recv := by
    rw [hr.completed, map_map]
    rfl
  -- a slot in use by a message belongs to one that is still open below `rcv_nxt`
  have howner : ∀ m ∈ s.msgs, ∀ rid, ((s.rcv.flows ()).reqs rid).ureq = some m.recv →
      m.rid = rid ∧ Open (s.log.take (s.rcv.flows ()).rcvdChunks) m := by
    intro m hm rid hrid
    rcases hr.table.owners rid m.recv hrid with hx | ⟨m', hm', hrid', hrecv, hopen⟩
    · exact absurd rfl (h.logOk.recv_ne hm hx)
    · rw [h.logOk.recv_inj hm' hm hrecv] at hrid' hopen
      exact ⟨hrid', hopen⟩
  refine ⟨hr.nodup, hr.faithful, fun m hm rid hrid => ?_, ?_, fun d hd => ?_, fun d hd rid hrid => ?_,
    fun m hend hpast => ?_, ?_, fun id hid => ?_⟩
  · obtain ⟨rfl, hopen⟩ := howner m hm rid hrid
    rw [hr.table.inUse m hm hopen]
    exact ⟨rfl, rfl⟩
  · rw [hureqs]
    exact (h.finished_names le_rfl).1
  · rw [hr.completed] at hd
    obtain ⟨m, hm, rfl⟩ := mem_map.mp hd
    obtain ⟨hmsgs, hall⟩ := h.allAccepted le_rfl hm
    exact ⟨m, hmsgs, rfl, hall, (h.cut.len m.send).symm⟩
  · rw [hr.completed] at hd
    obtain ⟨m, hm, rfl⟩ := mem_map.mp hd
    obtain ⟨-, hopen⟩ := howner m (h.allAccepted le_rfl hm).1 rid hrid
    obtain ⟨c, hc, rfl⟩ := mem_map.mp hm
    obtain ⟨hmem, hlast⟩ := mem_filter.mp hc
    rw [hopen c hmem rfl] at hlast
    cases hlast
  · unfold Open at hend
    push Not at hend
    obtain ⟨c, hc, hmsg, hlast⟩ := hend
    obtain ⟨k, hk⟩ := mem_iff_getElem?.mp hc
    rw [hureqs]
    exact mem_map_of_mem (mem_finished.mpr ⟨k, c, hpast k c hk hmsg, hk, Bool.not_eq_false _ ▸ hlast, hmsg⟩)
  · rw [h.snd.wakeups]
    exact (h.finished_names h.acked_le).2
  · rw [h.snd.wakeups] at hid
    obtain ⟨m, hm, rfl⟩ := mem_map.mp hid
    obtain ⟨hmsgs, hall⟩ := h.allAccepted h.acked_le hm
    exact ⟨m, hmsgs, rfl, hall⟩

end

/-- The side conditions on a step of the subflow. -/
def Timely (s : Channel) (a : ChAction) : Prop := InWindow s ∧ AckTimely s a ∧ CopyTimely s a

instance (s : Channel) (a : ChAction) : Decidable (Timely s a) := instDecidableAnd

/-- **ONE TIMELY STEP.** -/
theorem ChanOk.timely (hUC : cfg.rcMode = false) {s : Channel}
    {a : ChAction} (h : ChanOk cfg lens s) (ha : Timely s a) : Progress cfg lens (chStep cfg s a) :=
  h.step hUC ha.1 ha.2.1 ha.2.2

theorem ChanOk.timely_ok (hUC : cfg.rcMode = false)
    (s : Channel) (a : ChAction) (s' : Channel) (h : ChanOk cfg lens s) (ha : Timely s a)
    (hrun : chStep cfg s a = .ok s') : ChanOk cfg lens s' := by
  have hp := h.timely hUC ha
  rw [hrun] at hp
  exact hp

/-- The invariant holds in every state that timely steps reach. -/
theorem chanOk_along (hUC : cfg.rcMode = false) {s0 s : Channel}
    (h0 : ChInitial s0) {as : List ChAction} (has : Along (chStep cfg) Timely s0 as)
    (hs : runFrom (chStep cfg) s0 as = .ok s) : ChanOk cfg (fun id => (s0.snd.ureqs id).dataLen) s :=
  runFrom_invariant_along (ChanOk.timely_ok hUC) (chanOk_initial cfg h0) has hs

/-- **DELIVERY IS EXACTLY ONCE**: whatever is lost, repeated or overtaken, with fewer than 128 chunks outstanding and
    neither an ACK nor a copy that is 128 CSNs late, every chunk is counted at most once, a receive is completed once
    and with its whole message, and so is the send; and no check of the receive path fails. -/
theorem delivered_exactly_once {cfg : Config} (hUC : cfg.rcMode = false) {s₀ : Channel}
    (h₀ : ChInitial s₀) {as : List ChAction} (has : Along (chStep cfg) Timely s₀ as) :
    (∀ x, runFrom (chStep cfg) s₀ as = .error x → x = .wrExPoolEmpty ∨ x = .notEnabled) ∧
    ∀ s, runFrom (chStep cfg) s₀ as = .ok s → ExactlyOnce s := by
  refine ⟨fun x hx => ?_, fun s hs => (chanOk_along hUC h₀ has hs).exactlyOnce⟩
  refine runFrom_error_along (P := fun x => x = .wrExPoolEmpty ∨ x = .notEnabled)
    (ChanOk.timely_ok hUC) ?_ (chanOk_initial cfg h₀) has hx
  intro s a x hi ha hrun
  have hp := hi.timely hUC ha
  rw [hrun] at hp
  exact hp

-- ── Runs

/-- A new subflow whose sends all have `n` bytes. -/
def freshChannel (n : Fin (2 ^ 31)) : Channel where
  snd := freshEngine (fun _ => ()) fun _ => freshRequest .ReqTx () (BitVec.ofFin n)
  rcv := { flows := fun _ => {}, receiverFlowTbl := fun _ => ()
           ureqs := fun _ => { context := (), dataLen := 0 } }

theorem chInitial_freshChannel (n : Fin (2 ^ 31)) : ChInitial (freshChannel n) where
  snd := initial_freshEngine _ fun _ => ⟨rfl, rfl⟩
  flow := ⟨0, rfl⟩
  ackList := rfl
  acks := rfl
  accepted := rfl
  completed := rfl
  wire := rfl
  fifo := rfl
  pending := rfl
  msgs := rfl
  log := rfl
  posted := rfl

/-- Two one-byte messages: the first arrives twice and its ACK comes twice, the second is lost and sent again. -/
def lossyRun : List ChAction :=
  [.postRecv 7, .startSend 0 0, .tx 0 {}, .retransmit true 1, .deliver 0, .deliver 0, .postAcks,
   .ack 0 2, .ack 0 3,
   .postRecv 8, .startSend 1 0, .tx 1 {}, .drop 0, .retransmit true 4, .deliver 0, .postAcks,
   .ack 1 5]

theorem delivered_exactly_once_lossy : ∃ s, runFrom (chStep defaultConfig) (freshChannel 1) lossyRun = .ok s ∧
      s.rcv.completed.map Completed.ureq = [7, 8] ∧ s.snd.wakeups = [0, 1] ∧ ExactlyOnce s := by
  refine exists_run_of_guarded (G := Timely)
    (fun s => s.rcv.completed.map Completed.ureq = [7, 8] ∧ s.snd.wakeups = [0, 1]) ?_ fun s halong hrun hs => ?_
  · decide +kernel
  · exact ⟨hs.1, hs.2, (delivered_exactly_once rfl (chInitial_freshChannel 1) halong).2 s hrun⟩

/-- Chunks of 1 KB. -/
def kbConfig : Config :=
  { chunkSizeKb := 1, isRoce := true, rcMode := false, bypassPacing := true
    budgetFits := by decide }

/-- Chunk 0 goes out on QP 0, and a copy of it after it. While the copy is under way, 128 more chunks arrive on QP 1. -/
def staleRun : List ChAction :=
  let pieces := (List.replicate 64 [ChAction.tx 0 { qpidx := 1 }, .deliver 1]).flatten
  [.postRecv 0, .startSend 0 0, .tx 0 {}, .retransmit true 1, .deliver 0] ++ pieces ++
    [.ack 0 2] ++ pieces ++ [.deliver 0]

/-- **A STALE COPY IS COUNTED**: 129 chunks of 1 KB were sent, the window and the ACKs
    are as they should be, and yet 130 KB are counted. -/
theorem stale_copy_counted : ChInitial (freshChannel (200 * 1024)) ∧
    Along (chStep kbConfig) (fun s a => InWindow s ∧ AckTimely s a) (freshChannel (200 * 1024))
      staleRun ∧
    ∃ s, runFrom (chStep kbConfig) (freshChannel (200 * 1024)) staleRun = .ok s ∧
      (s.snd.flows ()).sentChunks = 129 ∧ ((s.rcv.flows ()).reqs 0).receivedBytes = 130 * 1024 ∧
      ¬ (acceptedSeqs s.rcv).Nodup := by
  have heval : (runGuarded (chStep kbConfig) (fun s a => InWindow s ∧ AckTimely s a)
      (freshChannel (200 * 1024)) staleRun).map
      (fun s => ((s.snd.flows ()).sentChunks, ((s.rcv.flows ()).reqs 0).receivedBytes,
        decide (acceptedSeqs s.rcv).Nodup)) = some (129, 130 * 1024, false) := by
    decide +kernel
  obtain ⟨halong, s, hrun, hobs⟩ := exists_of_runGuarded heval
  exact ⟨chInitial_freshChannel _, halong, s, hrun, congrArg Prod.fst hobs,
    congrArg (fun x => x.2.1) hobs, of_decide_eq_false (congrArg (fun x => x.2.2) hobs)⟩

-- ── Both ends

/-- The sends that are done are those of the first receives that are complete. -/
def InOneOrder (s : Channel) : Prop :=
  ∃ woken done : List Message, woken <+: done ∧ (∀ m ∈ done, m ∈ s.msgs) ∧
    s.snd.wakeups = woken.map Message.send ∧ s.rcv.completed.map Completed.ureq = done.map Message.recv

/-- What the sender counts as acknowledged the receiver has accepted, and what the receiver has passed was
    transmitted. -/
def AckedAccepted (s : Channel) : Prop :=
  (∀ k < (s.snd.flows ()).ackedChunks, k ∈ acceptedSeqs s.rcv) ∧
    (s.rcv.flows ()).rcvdChunks ≤ transmitted s.snd ∧ transmitted s.snd ≤ (s.snd.flows ()).sentChunks

/-- Every message that was started is complete at both ends. -/
def AllDone (s : Channel) : Prop :=
  ∀ m ∈ s.msgs, m.send ∈ s.snd.wakeups ∧ m.recv ∈ s.rcv.completed.map Completed.ureq

section

variable {cfg : Config} (hUC : cfg.rcMode = false) {s₀ s : Channel} (h₀ : ChInitial s₀) {as : List ChAction}
  (has : Along (chStep cfg) Timely s₀ as) (hs : runFrom (chStep cfg) s₀ as = .ok s)

include hUC h₀ has hs

/-- **BOTH ENDS COMPLETE IN ONE ORDER.** -/
theorem completions_agree : InOneOrder s := by
  have h := chanOk_along hUC h₀ has hs
  obtain ⟨L, hr, -⟩ := h.rcv
  refine ⟨finished s.log (s.snd.flows ()).ackedChunks, finished s.log (s.rcv.flows ()).rcvdChunks, ?_, fun m hm => ?_,
    h.snd.wakeups, ?_⟩
  · exact ((take_prefix_take_left h.acked_le).filter _).map _
  · exact (h.allAccepted le_rfl hm).1
  · rw [hr.completed, map_map]
    rfl

/-- **NO CHUNK IS LET GO EARLY.** -/
theorem acked_accepted : AckedAccepted s := by
  have h := chanOk_along hUC h₀ has hs
  obtain ⟨L, hr, -⟩ := h.rcv
  refine ⟨fun k hk => (hr.seqs k).mpr (.inl (hk.trans_le h.acked_le)), hr.le_tx, ?_⟩
  rw [h.snd.sent]
  exact hr.tx_le

/-- **NOTHING IS LEFT BEHIND** once every chunk is acknowledged and no send is in hand. -/
theorem quiescent_complete (hacked : (s.snd.flows ()).ackedChunks = (s.snd.flows ()).sentChunks)
    (hidle : s.pending = []) : AllDone s := by
  have h := chanOk_along hUC h₀ has hs
  intro m hm
  have hend : ¬ Open s.log m := fun hopen => by
    have hin := (h.cut.pending_iff m).mpr ⟨hm, hopen⟩
    rw [hidle] at hin
    exact not_mem_nil hin
  rw [h.snd.sent] at hacked
  constructor
  · unfold Open at hend
    push Not at hend
    obtain ⟨c, hc, hmsg, hlast⟩ := hend
    obtain ⟨k, hk⟩ := mem_iff_getElem?.mp hc
    rw [h.snd.wakeups, hacked]
    exact mem_map_of_mem (mem_finished.mpr ⟨k, c, lt_length hk, hk, Bool.not_eq_false _ ▸ hlast, hmsg⟩)
  · refine h.exactlyOnce.completes m hend fun k c hk _ => (lt_length hk).trans_le ?_
    rw [← hacked]
    exact h.acked_le

end

theorem completions_agree_lossy : ∃ s, runFrom (chStep defaultConfig) (freshChannel 1) lossyRun = .ok s ∧
    s.snd.wakeups = [0, 1] ∧ InOneOrder s := by
  refine exists_run_of_guarded (G := Timely) (fun s => s.snd.wakeups = [0, 1]) ?_ fun s halong hrun hs => ?_
  · decide +kernel
  · exact ⟨hs, completions_agree rfl (chInitial_freshChannel 1) halong hrun⟩

theorem acked_accepted_lossy : ∃ s, runFrom (chStep defaultConfig) (freshChannel 1) lossyRun = .ok s ∧
    (s.snd.flows ()).ackedChunks = 2 ∧ AckedAccepted s := by
  refine exists_run_of_guarded (G := Timely) (fun s => (s.snd.flows ()).ackedChunks = 2) ?_ fun s halong hrun hs => ?_
  · decide +kernel
  · exact ⟨hs, acked_accepted rfl (chInitial_freshChannel 1) halong hrun⟩

theorem quiescent_complete_lossy : ∃ s, runFrom (chStep defaultConfig) (freshChannel 1) lossyRun = .ok s ∧
    s.msgs.length = 2 ∧ AllDone s := by
  refine exists_run_of_guarded (G := Timely) (fun s => s.msgs.length = 2 ∧ s.pending = [] ∧
    (s.snd.flows ()).ackedChunks = (s.snd.flows ()).sentChunks) ?_ fun s halong hrun hs => ?_
  · decide +kernel
  · exact ⟨hs.1, quiescent_complete rfl (chInitial_freshChannel 1) halong hrun hs.2.2 hs.2.1⟩

end RdmaExactlyOnce
