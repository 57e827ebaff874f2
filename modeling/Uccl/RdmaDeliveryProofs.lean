import Uccl.RdmaChannelProofs

/-! # Exactly-once delivery

    What the receiving end of a subflow knows about the chunk log: which chunks it accepted, what is in its
    request slots, which requests it completed, and that its ACKs tell the truth. Together with the invariants
    of the sending end and of the wire this is an invariant of every run in which chunk numbers that meet are
    close enough for their CSNs to be compared. -/

namespace RdmaDelivery

open RdmaPcb RdmaImm RdmaTimer RdmaState RdmaTransmit RdmaAck RdmaEngine RdmaTracking Function List
  RdmaReceive RdmaReassembly ReceiveWindow RdmaChannel Segmentation WordBitmap StepRun RdmaReceive ReceiverCtx
variable {c d : Chunk Message}

-- ── What both ends rely on

/-- The facts about the log and the names in use that the receiver relies on. -/
structure LogOk (lens : ReqId → ℕ) (log : List (Chunk Message)) (msgs : List Message)
    (fifo : List (Fin 16 × ReqId)) : Prop where
  wellCut : WellCut log
  sized : ∀ c ∈ log, c.last = true → bytes log c.msg = lens c.msg.send
  started : ∀ c ∈ log, c.msg ∈ msgs
  bytes_le : ∀ m ∈ msgs, bytes log m ≤ lens m.send
  lens_lt : ∀ id, lens id < 2 ^ 31
  recvs : (msgs.map Message.recv ++ fifo.map Prod.snd).Nodup

/-- A slot of the request table in use. -/
def recvSlot (id : ReqId) (n : ℕ) : RecvRequest :=
  { type := .RECV, ureq := some id, receivedBytes := n }

/-- The numbers of the accepted chunks. -/
def acceptedSeqs (e : ReceiverCtx Unit) : List ℕ := e.accepted.map Accepted.seq

/-- The bytes of a message accepted so far. -/
def received (log : List (Chunk Message)) (e : ReceiverCtx Unit) (m : Message) : ℕ :=
  ((acceptedSeqs e).map (byteAt log m)).sum

/-- **THE REQUEST TABLE**: a slot is in use by an advertised receive, or by a message
    that is not complete below chunk `r` and then has the bytes accepted of it. -/
structure SlotsOk (log : List (Chunk Message)) (msgs : List Message)
    (fifo : List (Fin 16 × ReqId)) (got : Message → ℕ) (r : ℕ)
    (reqs : Fin 16 → RecvRequest) : Prop where
  inUse : ∀ m ∈ msgs, Open (log.take r) m → reqs m.rid = recvSlot m.recv (got m)
  advertised : ∀ x ∈ fifo, reqs x.1 = recvSlot x.2 0
  owners : ∀ rid id, (reqs rid).ureq = some id → (rid, id) ∈ fifo ∨
    ∃ m ∈ msgs, m.rid = rid ∧ m.recv = id ∧ Open (log.take r) m
  typed : ∀ rid, (reqs rid).type = .RECV → (reqs rid).ureq ≠ none

/-- **THE RECEIVER**: accepted are the chunks below `rcv_nxt` and those at the offsets
    `L`, each once; the request table is as it should be; exactly the requests whose
    message is complete below `rcv_nxt` are completed; ACKs are honest. -/
structure RcvOk (lens : ReqId → ℕ) (log : List (Chunk Message)) (msgs : List Message)
    (fifo : List (Fin 16 × ReqId)) (tx : ℕ) (L : Offsets) (e : ReceiverCtx Unit) : Prop where
  reassembled : ReassembledAt (e.flows ()) L
  nxt : (e.flows ()).pcb.rcvNxt = csnOf (e.flows ()).rcvdChunks
  le_tx : (e.flows ()).rcvdChunks ≤ tx
  tx_le : tx ≤ log.length
  entries : ∀ x ∈ L, (e.flows ()).rcvdChunks + x.1 < tx ∧
    ∃ c, log[(e.flows ()).rcvdChunks + x.1]? = some c ∧
      x.2 = if c.last then some c.msg.rid else none
  seqs : ∀ k, k ∈ acceptedSeqs e ↔
    k < (e.flows ()).rcvdChunks ∨ ∃ x ∈ L, k = (e.flows ()).rcvdChunks + x.1
  nodup : (acceptedSeqs e).Nodup
  faithful : ∀ a ∈ e.accepted, ∃ c, log[a.seq]? = some c ∧ a.rid = c.msg.rid ∧
    a.ureq = c.msg.recv ∧ a.len = c.len
  table : SlotsOk log msgs fifo (received log e) (e.flows ()).rcvdChunks (e.flows ()).reqs
  completed : e.completed = (finished log (e.flows ()).rcvdChunks).map
    fun m => { ureq := m.recv, dataLen := lens m.send }
  acks : ∀ h ∈ e.acks, HonestAck tx h ∧ h.seq ≤ (e.flows ()).rcvdChunks

section

variable {lens : ReqId → ℕ} {log : List (Chunk Message)} {msgs : List Message}
  {fifo : List (Fin 16 × ReqId)} {tx len k r tx' : ℕ} {L : Offsets} {e e' : ReceiverCtx Unit} {cfg : Config}

theorem LogOk.recv_inj (h : LogOk lens log msgs fifo) {m m' : Message} (hm : m ∈ msgs)
    (hm' : m' ∈ msgs) (heq : m.recv = m'.recv) : m = m' :=
  inj_on_of_nodup_map (nodup_append'.mp h.recvs).1 hm hm' heq

theorem LogOk.recv_ne (h : LogOk lens log msgs fifo) {m : Message} (hm : m ∈ msgs)
    {x : Fin 16 × ReqId} (hx : x ∈ fifo) : m.recv ≠ x.2 := fun heq =>
  (nodup_append'.mp h.recvs).2.2 (mem_map_of_mem hm) (heq ▸ mem_map_of_mem hx)

/-- Bookkeeping outside reassembly and requests, and honest ACKs. -/
theorem RcvOk.of_eq (h : RcvOk lens log msgs fifo tx L e) (hnxt : (e'.flows ()).pcb.rcvNxt = (e.flows ()).pcb.rcvNxt)
    (hbitmap : (e'.flows ()).pcb.sackBitmap = (e.flows ()).pcb.sackBitmap)
    (hcount : (e'.flows ()).pcb.sackBitmapCount = (e.flows ()).pcb.sackBitmapCount)
    (hready : (e'.flows ()).rxtracking.readyCsn = (e.flows ()).rxtracking.readyCsn)
    (hreqs : (e'.flows ()).reqs = (e.flows ()).reqs) (hrcvd : (e'.flows ()).rcvdChunks = (e.flows ()).rcvdChunks)
    (hacc : e'.accepted = e.accepted) (hcomp : e'.completed = e.completed)
    (hacks : ∀ x ∈ e'.acks, x ∈ e.acks ∨ HonestAck tx x ∧ x.seq ≤ (e.flows ()).rcvdChunks) :
    RcvOk lens log msgs fifo tx L e' := by
  have hseqs : acceptedSeqs e' = acceptedSeqs e := by rw [acceptedSeqs, hacc]; rfl
  have hreceived : received log e' = received log e := by
    funext m
    rw [received, hseqs]
    rfl
  refine ⟨?_, ?_, ?_, h.tx_le, ?_, ?_, ?_, ?_, ?_, ?_, ?_⟩
  · unfold ReassembledAt
    rw [hnxt, hbitmap, hcount, hready]
    exact h.reassembled
  · rw [hnxt, hrcvd]; exact h.nxt
  · rw [hrcvd]; exact h.le_tx
  · rw [hrcvd]; exact h.entries
  · rw [hseqs, hrcvd]; exact h.seqs
  · rw [hseqs]; exact h.nodup
  · rw [hacc]; exact h.faithful
  · rw [hreceived, hrcvd, hreqs]; exact h.table
  · rw [hcomp, hrcvd]; exact h.completed
  · intro x hx
    rw [hrcvd]
    rcases hacks x hx with hold | hnew
    · exact h.acks x hold
    · exact hnew

/-- Numbers of accepted chunks are numbers of the log. -/
theorem RcvOk.seq_lt (h : RcvOk lens log msgs fifo tx L e) (hk : k ∈ acceptedSeqs e) : k < tx := by
  rcases (h.seqs k).mp hk with hlt | ⟨x, hx, rfl⟩
  · exact Nat.lt_of_lt_of_le hlt h.le_tx
  · exact (h.entries x hx).1

-- ── Advancing rcv_nxt

/-- A message is open up to any of its chunks. -/
theorem LogOk.open_of_le (hlog : LogOk lens log msgs fifo) (hc : log[k]? = some c)
    (hr : r ≤ k) : Open (log.take r) c.msg := by
  intro d hd
  have hsub : log.take r ⊆ log.take k := (take_prefix_take_left hr).subset
  exact hlog.wellCut.open_take hc d (hsub hd)

theorem finished_succ (hc : log[r]? = some c) :
    finished log (r + 1) = finished log r ++ if c.last then [c.msg] else [] := by
  obtain ⟨hr, hget⟩ := List.getElem?_eq_some_iff.mp hc
  unfold finished
  rw [take_succ_eq_append_getElem hr, hget, filter_append, map_append]
  cases hb : c.last with
  | false => rw [filter_cons_of_neg (by rw [hb]; exact Bool.false_ne_true)]; rfl
  | true => rw [filter_cons_of_pos hb]; rfl

theorem open_take_succ (hc : log[r]? = some c) (m : Message) :
    Open (log.take (r + 1)) m ↔ Open (log.take r) m ∧ (c.msg = m → c.last = false) := by
  obtain ⟨hr, hget⟩ := List.getElem?_eq_some_iff.mp hc
  rw [take_succ_eq_append_getElem hr, hget, open_append]

/-- Everything of a message is accepted once its last chunk is at `rcv_nxt`. -/
theorem RcvOk.received_eq (hlog : LogOk lens log msgs fifo) (h : RcvOk lens log msgs fifo tx L e)
    (hc : log[(e.flows ()).rcvdChunks]? = some c) (hlast : c.last = true)
    (hzero : (e.flows ()).rcvdChunks ∈ acceptedSeqs e) : received log e c.msg = lens c.msg.send := by
  have hmem : c ∈ log := mem_of_getElem? hc
  rw [← hlog.sized c hmem hlast]
  refine sum_byteAt_eq h.nodup (fun k hk => Nat.lt_of_lt_of_le (h.seq_lt hk) h.tx_le) ?_
  intro k d hd hmsg
  rcases Nat.lt_or_eq_of_le (hlog.wellCut.le_of_last hc hlast hd hmsg) with hlt | rfl
  · exact (h.seqs k).mpr (.inl hlt)
  · exact hzero

-- ── The request table

section

variable {got got' : Message → ℕ} {r : ℕ} {reqs : Fin 16 → RecvRequest}

/-- Slots in use by different requests are different. -/
theorem slot_ne {rid rid' : Fin 16} {id id' n n' : ℕ} (h : reqs rid = recvSlot id n)
    (h' : reqs rid' = recvSlot id' n') (hne : id ≠ id') : rid ≠ rid' := by
  rintro rfl
  rw [h] at h'
  exact hne (Option.some.inj (congrArg RecvRequest.ureq h'))

/-- A chunk that ends no message passes. -/
theorem SlotsOk.skip (h : SlotsOk log msgs fifo got r reqs) (hc : log[r]? = some c) (hlast : c.last = false) :
    SlotsOk log msgs fifo got (r + 1) reqs := by
  have hopen : ∀ m, Open (log.take (r + 1)) m ↔ Open (log.take r) m := fun m =>
    (open_take_succ hc m).trans (and_iff_left fun _ => hlast)
  refine ⟨fun m hm ho => h.inUse m hm ((hopen m).mp ho), h.advertised, fun rid id hid => ?_, h.typed⟩
  rcases h.owners rid id hid with hx | ⟨m, hm, hrid, hrecv, ho⟩
  · exact .inl hx
  · exact .inr ⟨m, hm, hrid, hrecv, (hopen m).mpr ho⟩

/-- The last chunk of a message passes and its slot is freed. -/
theorem SlotsOk.complete (hlog : LogOk lens log msgs fifo) (h : SlotsOk log msgs fifo got r reqs)
    (hc : log[r]? = some c) (hlast : c.last = true) : SlotsOk log msgs fifo got (r + 1) (update reqs c.msg.rid {}) := by
  have hmem := hlog.started c (mem_of_getElem? hc)
  have hslot := h.inUse c.msg hmem (hlog.open_of_le hc le_rfl)
  have hopen : ∀ m, Open (log.take (r + 1)) m ↔ Open (log.take r) m ∧ m ≠ c.msg := by
    intro m
    rw [open_take_succ hc m, hlast]
    exact and_congr_right fun _ => ⟨fun himp heq => (nomatch himp heq.symm), fun hne heq => absurd heq.symm hne⟩
  refine ⟨fun m hm ho => ?_, fun x hx => ?_, fun rid id hid => ?_, fun rid hty => ?_⟩
  · obtain ⟨ho', hne⟩ := (hopen m).mp ho
    have hm' := h.inUse m hm ho'
    rw [update_of_ne (slot_ne hm' hslot fun heq => hne (hlog.recv_inj hm hmem heq))]
    exact hm'
  · have hx' := h.advertised x hx
    rw [update_of_ne (slot_ne hx' hslot (hlog.recv_ne hmem hx).symm)]
    exact hx'
  · by_cases hrid : rid = c.msg.rid
    · rw [hrid, update_self] at hid
      cases hid
    · rw [update_of_ne hrid] at hid
      rcases h.owners rid id hid with hx | ⟨m, hm, hmr, hrecv, ho⟩
      · exact .inl hx
      · exact .inr ⟨m, hm, hmr, hrecv, (hopen m).mpr ⟨ho, fun heq => hrid (heq ▸ hmr).symm⟩⟩
  · by_cases hrid : rid = c.msg.rid
    · rw [hrid, update_self] at hty
      cases hty
    · rw [update_of_ne hrid] at hty ⊢
      exact h.typed rid hty

/-- Bytes of an open message are added to its slot. -/
theorem SlotsOk.add (hlog : LogOk lens log msgs fifo) (h : SlotsOk log msgs fifo got r reqs)
    {m : Message} (hm : m ∈ msgs) (hopen : Open (log.take r) m) {n : ℕ}
    (hgot : got' m = addU32 (got m) n) (hgot' : ∀ m' ∈ msgs, m' ≠ m → got' m' = got m') :
    SlotsOk log msgs fifo got' r (update reqs m.rid { reqs m.rid with
      receivedBytes := addU32 (reqs m.rid).receivedBytes n }) := by
  have hslot := h.inUse m hm hopen
  have hself : ({ reqs m.rid with receivedBytes := addU32 (reqs m.rid).receivedBytes n } :
      RecvRequest) = recvSlot m.recv (got' m) := by
    rw [hslot, hgot]
    rfl
  rw [hself]
  refine ⟨fun m' hm' ho => ?_, fun x hx => ?_, fun rid id hid => ?_, fun rid hty => ?_⟩
  · by_cases hne : m' = m
    · rw [hne, update_self]
    · have hm'' := h.inUse m' hm' ho
      rw [update_of_ne (slot_ne hm'' hslot fun heq => hne (hlog.recv_inj hm' hm heq)), hgot' m' hm' hne]
      exact hm''
  · have hx' := h.advertised x hx
    rw [update_of_ne (slot_ne hx' hslot (hlog.recv_ne hm hx).symm)]
    exact hx'
  · by_cases hrid : rid = m.rid
    · rw [hrid, update_self] at hid
      exact .inr ⟨m, hm, hrid.symm, Option.some.inj hid, hopen⟩
    · rw [update_of_ne hrid] at hid
      exact h.owners rid id hid
  · by_cases hrid : rid = m.rid
    · rw [hrid, update_self]
      exact nofun
    · rw [update_of_ne hrid] at hty ⊢
      exact h.typed rid hty

section

variable (h : SlotsOk log msgs fifo got r reqs)
include h

/-- A free slot is taken for a new receive. -/
theorem SlotsOk.supply {rid : Fin 16} {id : ReqId} (hfree : (reqs rid).type = .UNUSED) :
    SlotsOk log msgs (fifo ++ [(rid, id)]) got r (update reqs rid (recvSlot id 0)) := by
  have hkeep : ∀ {rid' : Fin 16} {id' n : ℕ}, reqs rid' = recvSlot id' n → rid' ≠ rid := by
    rintro rid' id' n hrid' rfl
    rw [hrid'] at hfree
    cases hfree
  refine ⟨fun m hm ho => ?_, ?_, fun rid' id' hid => ?_, fun rid' hty => ?_⟩
  · have hm' := h.inUse m hm ho
    rw [update_of_ne (hkeep hm')]
    exact hm'
  · refine forall_mem_snoc (fun x hx => ?_) ?_
    · have hx' := h.advertised x hx
      rw [update_of_ne (hkeep hx')]
      exact hx'
    · exact update_self ..
  · by_cases hrid : rid' = rid
    · rw [hrid, update_self] at hid
      rw [hrid, ← Option.some.inj hid]
      exact .inl (mem_append_right _ (mem_singleton_self _))
    · rw [update_of_ne hrid] at hid
      exact (h.owners rid' id' hid).imp_left (mem_append_left _)
  · by_cases hrid : rid' = rid
    · rw [hrid, update_self]
      exact nofun
    · rw [update_of_ne hrid] at hty ⊢
      exact h.typed rid' hty

/-- A send takes over an advertised receive. -/
theorem SlotsOk.start {m : Message} {k : ℕ} (hk : fifo[k]? = some (m.rid, m.recv)) (hchunks : ∀ c ∈ log, c.msg ≠ m)
    (hgot : got m = 0) : SlotsOk log (msgs ++ [m]) (fifo.eraseIdx k) got r reqs := by
  have hperm := cons_eraseIdx_perm hk
  refine ⟨?_, fun x hx => h.advertised x (hperm.subset (mem_cons_of_mem _ hx)), fun rid id hid => ?_, h.typed⟩
  · refine forall_mem_snoc h.inUse fun _ => ?_
    rw [hgot]
    exact h.advertised _ (mem_of_getElem? hk)
  · rcases h.owners rid id hid with hx | ⟨m', hm', hrest⟩
    · rcases mem_cons.mp (hperm.symm.subset hx) with heq | hx
      · obtain ⟨hrid, hrecv⟩ := Prod.mk.inj heq
        refine .inr ⟨m, mem_append_right _ (mem_singleton_self _), hrid.symm,
          hrecv.symm, fun c hc hmsg => absurd hmsg (hchunks c (mem_of_mem_take hc))⟩
      · exact .inl hx
    · exact .inr ⟨m', mem_append_left _ hm', hrest⟩

/-- The log grows above `r`. -/
theorem SlotsOk.append (hr : r ≤ log.length) (c : Chunk Message) (hgot : ∀ m, got' m = got m) :
    SlotsOk (log ++ [c]) msgs fifo got' r reqs := by
  have htake : (log ++ [c]).take r = log.take r := take_append_of_le_length hr
  refine ⟨fun m hm ho => ?_, h.advertised, ?_, h.typed⟩
  · rw [htake] at ho
    rw [hgot]
    exact h.inUse m hm ho
  · rw [htake]
    exact h.owners

end

end

-- ── try_update_csn

/-- What catching up leaves alone, and that `rcv_nxt` does not go back. -/
structure Advanced (e e' : ReceiverCtx Unit) : Prop where
  accepted : e'.accepted = e.accepted
  acks : e'.acks = e.acks
  ackList : e'.ackList = e.ackList
  le : (e.flows ()).rcvdChunks ≤ (e'.flows ()).rcvdChunks

/-- The entry at `rcv_nxt` can be finished: only the last chunk of a message has a
    request to complete, and that request is still in its slot. -/
theorem RcvOk.finish (hlog : LogOk lens log msgs fifo) (h : RcvOk lens log msgs fifo tx L e)
    (hc : log[(e.flows ()).rcvdChunks]? = some c) (hzero : (e.flows ()).rcvdChunks ∈ acceptedSeqs e) :
    ∃ e1 reqs, finishEntry e () (if c.last then some c.msg.rid else none) = .ok e1 ∧
      e1.flows () = { e.flows () with reqs := reqs } ∧
      e1.accepted = e.accepted ∧ e1.acks = e.acks ∧ e1.ackList = e.ackList ∧
      e1.completed = (finished log ((e.flows ()).rcvdChunks + 1)).map
        (fun m => { ureq := m.recv, dataLen := lens m.send }) ∧
      SlotsOk log msgs fifo (received log e) ((e.flows ()).rcvdChunks + 1) reqs := by
  rw [finished_succ hc, map_append]
  cases hlast : c.last with
  | false =>
    refine ⟨e, _, rfl, rfl, rfl, rfl, rfl, ?_, h.table.skip hc hlast⟩
    exact h.completed.trans (append_nil _).symm
  | true =>
    have hslot := h.table.inUse c.msg (hlog.started c (mem_of_getElem? hc)) (hlog.open_of_le hc le_rfl)
    refine ⟨_, update (e.flows ()).reqs c.msg.rid {}, completeRecv_eq (congrArg RecvRequest.ureq hslot),
      modFlow_flows_self e () fun sf =>
        { sf with reqs := update sf.reqs c.msg.rid {} },
      rfl, rfl, rfl, ?_, h.table.complete hlog hc hlast⟩
    rw [h.completed, hslot, if_pos rfl, map_singleton, ← h.received_eq hlog hc hlast hzero]
    rfl

/-- **ONE TURN OF `try_update_csn`.** -/
theorem RcvOk.pop (hUC : cfg.rcMode = false) (hlog : LogOk lens log msgs fifo)
    (h : RcvOk lens log msgs fifo tx L e) {req : Option (Fin 16)} {rest : List (UintCsn × Option (Fin 16))}
    (hready : (e.flows ()).rxtracking.readyCsn = ((e.flows ()).pcb.rcvNxt, req) :: rest) :
    ∃ e1 L', finishEntry e () req = .ok e1 ∧ RcvOk lens log msgs fifo tx L' (popReady cfg e1 () rest) ∧
      Advanced e (popReady cfg e1 () rest) := by
  have hL := h.reassembled
  unfold ReassembledAt at hL
  rw [hready] at hL
  obtain ⟨L', rfl, hpos, hadv⟩ := hL.advance
  obtain ⟨hlt, c, hc, hreq⟩ := h.entries (0, req) (mem_cons_self)
  have hzero : (e.flows ()).rcvdChunks ∈ acceptedSeqs e := (h.seqs _).mpr (.inr ⟨(0, req), mem_cons_self, rfl⟩)
  obtain ⟨e1, reqs, hfin, hflow, hacc, hacks, hlist, hcomp, htable⟩ := h.finish hlog hc hzero
  have hpop : (popReady cfg e1 () rest).flows () = { e.flows () with
      reqs := reqs
      rxtracking := { (e.flows ()).rxtracking with readyCsn := rest }
      pcb := (e.flows ()).pcb.advanceRcvNxt.sackBitmapShiftLeftOne
      rcvdChunks := (e.flows ()).rcvdChunks + 1 } := by
    unfold popReady
    rw [modFlow_flows_self, hflow, hUC]
    rfl
  have hseqs : acceptedSeqs (popReady cfg e1 () rest) = acceptedSeqs e := by
    show e1.accepted.map Accepted.seq = _
    rw [hacc]
    rfl
  have hgot : received log (popReady cfg e1 () rest) = received log e := by
    funext m
    rw [received, hseqs]
    rfl
  -- an offset from the new `rcv_nxt` names the chunk it named before
  have hshift : ∀ x ∈ L', (e.flows ()).rcvdChunks + 1 + (lower x).1 = (e.flows ()).rcvdChunks + x.1 := by
    intro x hx
    have := hpos x hx
    show _ + (x.1 - 1) = _
    omega
  rw [← show req = _ from hreq] at hfin
  refine ⟨e1, L'.map lower, hfin, ⟨?_, ?_, ?_, h.tx_le, ?_, ?_, ?_, ?_, ?_, ?_, ?_⟩, ⟨hacc, hacks, hlist, ?_⟩⟩
  · rw [hpop]
    exact hadv
  · rw [hpop]
    show (e.flows ()).pcb.rcvNxt + 1 = csnOf ((e.flows ()).rcvdChunks + 1)
    rw [h.nxt, csnOf_succ]
  · rw [hpop]
    exact hlt
  · rw [hpop]
    intro x hx
    obtain ⟨y, hy, rfl⟩ := mem_map.mp hx
    rw [hshift y hy]
    exact h.entries y (mem_cons_of_mem _ hy)
  · rw [hpop, hseqs]
    intro k
    rw [h.seqs k]
    constructor
    · rintro (hk | ⟨x, hx, hk⟩)
      · exact .inl (Nat.lt_succ_of_lt hk)
      · rcases mem_cons.mp hx with rfl | hx
        · exact .inl (hk ▸ Nat.lt_succ_self _)
        · exact .inr ⟨lower x, mem_map_of_mem hx, by rw [hshift x hx]; exact hk⟩
    · rintro (hk | ⟨x, hx, hk⟩)
      · rcases Nat.lt_or_eq_of_le (Nat.le_of_lt_succ hk) with hk | hk
        · exact .inl hk
        · exact .inr ⟨(0, req), mem_cons_self, hk⟩
      · obtain ⟨y, hy, rfl⟩ := mem_map.mp hx
        rw [hshift y hy] at hk
        exact .inr ⟨y, mem_cons_of_mem _ hy, hk⟩
  · rw [hseqs]; exact h.nodup
  · show ∀ a ∈ e1.accepted, _
    rw [hacc]
    exact h.faithful
  · rw [hgot, hpop]; exact htable
  · rw [hpop]; exact hcomp
  · show ∀ x ∈ e1.acks, _
    rw [hacks, hpop]
    intro x hx
    exact ⟨(h.acks x hx).1, Nat.le_succ_of_le (h.acks x hx).2⟩
  · rw [hpop]
    exact Nat.le_succ _

/-- `try_update_csn` succeeds and keeps the invariant, and returns with nothing at `rcv_nxt`. -/
theorem RcvOk.tryUpdateCsn (hUC : cfg.rcMode = false)
    (hlog : LogOk lens log msgs fifo) (h : RcvOk lens log msgs fifo tx L e) : ∃ e' L', tryUpdateCsn cfg e () = .ok e' ∧
      RcvOk lens log msgs fifo tx L' e' ∧ (∀ x ∈ L', 0 < x.1) ∧ Advanced e e' := by
  have hpop : ∀ e1 e2 req rest, ((∃ L, RcvOk lens log msgs fifo tx L e1) ∧ Advanced e e1) →
      (e1.flows ()).rxtracking.readyCsn = ((e1.flows ()).pcb.rcvNxt, req) :: rest →
      finishEntry e1 () req = .ok e2 →
      (∃ L, RcvOk lens log msgs fifo tx L (popReady cfg e2 () rest)) ∧ Advanced e (popReady cfg e2 () rest) := by
    rintro e1 e2 req rest ⟨⟨L1, h1⟩, hadv⟩ hready hfin
    obtain ⟨e₂', L2, hfin', h2, hadv'⟩ := h1.pop hUC hlog hready
    rw [Except.ok.inj (hfin.symm.trans hfin')]
    exact ⟨⟨L2, h2⟩, hadv'.accepted.trans hadv.accepted, hadv'.acks.trans hadv.acks,
      hadv'.ackList.trans hadv.ackList, le_trans hadv.le hadv'.le⟩
  have hstart : (∃ L, RcvOk lens log msgs fifo tx L e) ∧ Advanced e e := ⟨⟨L, h⟩, rfl, rfl, rfl, le_rfl⟩
  obtain ⟨e', hrun⟩ := tryUpdateCsnLoop_ok hpop (fun e1 req rest h1 hready => by
      obtain ⟨⟨L1, h1⟩, -⟩ := h1
      obtain ⟨e2, -, hfin, -⟩ := h1.pop hUC hlog hready
      exact ⟨e2, hfin⟩) (e.flows ()).rxtracking.readyCsn.length e hstart
  obtain ⟨⟨⟨L', h'⟩, hadv⟩, hcaught⟩ := tryUpdateCsn_rule hpop hstart hrun
  exact ⟨e', L', hrun, h', h'.reassembled.pos hcaught, hadv⟩

-- ── Accepting a chunk

/-- The completion of chunk `d`, with `len` bytes of it. -/
structure Incoming (log : List (Chunk Message)) (tx : ℕ) (c : RxChunk) (len : ℕ)
    (d : Chunk Message) : Prop where
  chunk : log[c.seq]? = some d
  lt : c.seq < tx
  csn : c.imm.csn = csnOf c.seq
  rid : c.imm.rid = d.msg.rid
  last : c.imm.lastChunk = d.last
  len : len = d.len

section

variable (h : RcvOk lens log msgs fifo tx L e)
include h

/-- A chunk that was not accepted is not below `rcv_nxt`. -/
theorem RcvOk.le_of_not_mem {k : ℕ} (hk : k ∉ acceptedSeqs e) : (e.flows ()).rcvdChunks ≤ k :=
  Nat.not_lt.mp fun hlt => hk ((h.seqs k).mpr (.inl hlt))

/-- Within the window, a chunk's distance is its offset. -/
theorem RcvOk.distance {c : RxChunk} {len : ℕ} (hc : Incoming log tx c len d) (hle : (e.flows ()).rcvdChunks ≤ c.seq)
    (hwin : c.seq < (e.flows ()).rcvdChunks + 128) :
    (c.imm.csn - (e.flows ()).pcb.rcvNxt).toNat = c.seq - (e.flows ()).rcvdChunks := by
  rw [hc.csn, h.nxt, toNat_csnOf_sub hle (by omega)]

/-- Within the window, the SACK bit says whether a chunk was accepted. -/
theorem RcvOk.bit_iff {k : ℕ} (hle : (e.flows ()).rcvdChunks ≤ k) (hwin : k < (e.flows ()).rcvdChunks + 128) :
    testBit (e.flows ()).pcb.sackBitmap (k - (e.flows ()).rcvdChunks) = true ↔ k ∈ acceptedSeqs e := by
  rw [h.reassembled.bits _ (by omega), h.seqs]
  constructor
  · rintro ⟨p, hp⟩
    exact .inr ⟨_, hp, (Nat.add_sub_cancel' hle).symm⟩
  · rintro (hlt | ⟨x, hx, rfl⟩)
    · exact absurd hle (Nat.not_le.mpr hlt)
    · exact ⟨x.2, by rw [Nat.add_sub_cancel_left]; exact hx⟩

end

/-- Bytes accepted with one more chunk. -/
theorem received_append (hseqs : acceptedSeqs e' = acceptedSeqs e ++ [k]) (hd : log[k]? = some d) (m : Message) :
    received log e' m = received log e m + lenFor m d := by
  unfold received
  rw [hseqs, map_append, sum_append, map_singleton, sum_singleton, byteAt_of_getElem? hd]

/-- The state right after a chunk's bit was set and its bytes were added. -/
def afterAccept (e : ReceiverCtx Unit) (c : RxChunk) (len : ℕ) (recv : ReqId) :
    ReceiverCtx Unit :=
  acceptChunk (e.modFlow () fun sf => { sf with pcb :=
    { (e.flows ()).pcb with
      sackBitmap := setBit (e.flows ()).pcb.sackBitmap
        (c.imm.csn - (e.flows ()).pcb.rcvNxt).toNat
      sackBitmapCount := (e.flows ()).pcb.sackBitmapCount + 1 } }) () recv c len

theorem flows_afterAccept (e : ReceiverCtx Unit) (c : RxChunk) (len : ℕ) (recv : ReqId) :
    (afterAccept e c len recv).flows () = { e.flows () with
      pcb := { (e.flows ()).pcb with
        sackBitmap := setBit (e.flows ()).pcb.sackBitmap (c.imm.csn - (e.flows ()).pcb.rcvNxt).toNat
        sackBitmapCount := (e.flows ()).pcb.sackBitmapCount + 1 }
      reqs := update (e.flows ()).reqs c.imm.rid { (e.flows ()).reqs c.imm.rid with
        receivedBytes := addU32 ((e.flows ()).reqs c.imm.rid).receivedBytes len }
      rxtracking := { (e.flows ()).rxtracking with
        readyCsn := OrderedSet.insert readyLt (c.imm.csn, if c.imm.lastChunk then some c.imm.rid else none)
          (e.flows ()).rxtracking.readyCsn } } := by
  unfold afterAccept acceptChunk
  rw [modFlow_flows_self, modFlow_flows_self]

/-- **ACCEPTING** a chunk of the window for the first time. -/
theorem RcvOk.accept (hlog : LogOk lens log msgs fifo) (h : RcvOk lens log msgs fifo tx L e)
    {c : RxChunk} (hc : Incoming log tx c len d)
    (hwin : c.seq < (e.flows ()).rcvdChunks + 128) (hnew : c.seq ∉ acceptedSeqs e) :
    ∃ L', RcvOk lens log msgs fifo tx L' (afterAccept e c len d.msg.recv) := by
  have hle := h.le_of_not_mem hnew
  have hdist := h.distance hc hle hwin
  have hclear : testBit (e.flows ()).pcb.sackBitmap (c.seq - (e.flows ()).rcvdChunks) = false :=
    Bool.eq_false_iff.mpr fun hset => hnew ((h.bit_iff hle hwin).mp hset)
  have hflow := flows_afterAccept e c len d.msg.recv
  have hseqs : acceptedSeqs (afterAccept e c len d.msg.recv) = acceptedSeqs e ++ [c.seq] := map_append
  have hnd : (acceptedSeqs e ++ [c.seq]).Nodup := nodup_snoc h.nodup hnew
  have hmem := hlog.started d (mem_of_getElem? hc.chunk)
  -- the bytes of a message never exceed its length, so the counter does not wrap
  have hfits : received log e d.msg + d.len < 2 ^ 32 := by
    have hsum := received_append hseqs hc.chunk d.msg
    have hle' : received log (afterAccept e c len d.msg.recv) d.msg ≤ bytes log d.msg := by
      unfold received
      rw [hseqs]
      refine sum_byteAt_le hnd (forall_mem_append.mpr ⟨fun k hk => Nat.lt_of_lt_of_le (h.seq_lt hk) h.tx_le, ?_⟩) _
      exact forall_mem_singleton.mpr (Nat.lt_of_lt_of_le hc.lt h.tx_le)
    have := hlog.bytes_le d.msg hmem
    have := hlog.lens_lt d.msg.send
    rw [lenFor, if_pos rfl] at hsum
    omega
  have hacc := h.reassembled.accept (i := c.seq - (e.flows ()).rcvdChunks) (by omega) hclear
    (if c.imm.lastChunk then some c.imm.rid else none)
  have hfresh : ∀ y ∈ L, c.seq - (e.flows ()).rcvdChunks ≠ y.1 := by
    intro y hy heq
    exact hnew ((h.seqs _).mpr (.inr ⟨y, hy, by omega⟩))
  have hperm := OrderedSet.insert_keyLt_perm
    (x := (c.seq - (e.flows ()).rcvdChunks, if c.imm.lastChunk then some c.imm.rid else none))
    hfresh
  have hentry : entryAt (e.flows ()).pcb.rcvNxt (c.seq - (e.flows ()).rcvdChunks,
      if c.imm.lastChunk then some c.imm.rid else none)
      = (c.imm.csn, if c.imm.lastChunk then some c.imm.rid else none) := by
    refine Prod.ext ?_ rfl
    show (e.flows ()).pcb.rcvNxt + _ = _
    rw [h.nxt, csnOf_add, Nat.add_sub_cancel' hle, hc.csn]
  refine ⟨OrderedSet.insert OrderedSet.keyLt (c.seq - (e.flows ()).rcvdChunks,
    if c.imm.lastChunk then some c.imm.rid else none) L,
    ?_, ?_, ?_, h.tx_le, ?_, ?_, ?_, ?_, ?_, ?_, ?_⟩
  · rw [hentry] at hacc
    rw [hflow, hdist]
    exact hacc
  · rw [hflow]; exact h.nxt
  · rw [hflow]; exact h.le_tx
  · rw [hflow]
    intro x hx
    rcases mem_cons.mp (hperm.subset hx) with rfl | hx
    · rw [Nat.add_sub_cancel' hle]
      exact ⟨hc.lt, d, hc.chunk, by rw [hc.last, hc.rid]⟩
    · exact h.entries x hx
  · rw [hseqs]
    intro k
    rw [mem_append, mem_singleton, h.seqs k, or_assoc]
    refine or_congr_right ?_
    constructor
    · rintro (⟨x, hx, hk⟩ | hk)
      · exact ⟨x, hperm.symm.subset (mem_cons_of_mem _ hx), hk⟩
      · refine ⟨_, hperm.symm.subset (mem_cons_self), ?_⟩
        rw [hk]
        exact (Nat.add_sub_cancel' hle).symm
    · rintro ⟨x, hx, hk⟩
      rcases mem_cons.mp (hperm.subset hx) with rfl | hx
      · exact .inr (hk.trans (Nat.add_sub_cancel' hle))
      · exact .inl ⟨x, hx, hk⟩
  · rw [hseqs]; exact hnd
  · refine forall_mem_snoc h.faithful ?_
    exact ⟨d, hc.chunk, hc.rid, rfl, hc.len⟩
  · rw [hflow]
    rw [hc.rid]
    refine h.table.add hlog hmem (hlog.open_of_le hc.chunk hle) ?_ ?_
    · rw [received_append hseqs hc.chunk, lenFor, if_pos rfl, hc.len, addU32_of_lt hfits]
    · intro m' _ hne
      rw [received_append hseqs hc.chunk, lenFor_of_ne hne.symm, Nat.add_zero]
  · rw [hflow]; exact h.completed
  · rw [hflow]; exact h.acks

/-- Chunk `k` was accepted, and no ACK went out yet. -/
structure Accepts (e : ReceiverCtx Unit) (k : ℕ) (e' : ReceiverCtx Unit) : Prop where
  seqs : acceptedSeqs e' = acceptedSeqs e ++ [k]
  acks : e'.acks = e.acks
  ackList : e'.ackList = e.ackList
  le : (e.flows ()).rcvdChunks ≤ (e'.flows ()).rcvdChunks

theorem RcvOk.takeChunk (hUC : cfg.rcMode = false) (hlog : LogOk lens log msgs fifo)
    (h : RcvOk lens log msgs fifo tx L e) {c : RxChunk} (hc : Incoming log tx c len d)
    (hwin : c.seq < (e.flows ()).rcvdChunks + 128) (hnew : c.seq ∉ acceptedSeqs e) :
    ∃ e' L', takeChunk cfg e () d.msg.recv c len (c.imm.csn - (e.flows ()).pcb.rcvNxt).toNat = .ok e' ∧
      RcvOk lens log msgs fifo tx L' e' ∧ (∀ x ∈ L', 0 < x.1) ∧ Accepts e c.seq e' := by
  have hle := h.le_of_not_mem hnew
  obtain ⟨L1, h1⟩ := h.accept hlog hc hwin hnew
  obtain ⟨e', L', hrun, h', hpos, hadv⟩ := h1.tryUpdateCsn hUC hlog
  refine ⟨e', L', ?_, h', hpos, ?_, hadv.acks, hadv.ackList, ?_⟩
  · rw [takeChunk_of_lt cfg e () _ c len (by rw [h.distance hc hle hwin]; omega)]
    exact hrun
  · rw [acceptedSeqs, hadv.accepted]
    exact map_append
  · refine le_trans (le_of_eq ?_) hadv.le
    rw [flows_afterAccept]

-- ── ACKs

section

variable (h : RcvOk lens log msgs fifo tx L e)
include h

/-- **ACKS ARE HONEST**: whenever one is crafted, its number, bitmap and count say which chunks were accepted. -/
theorem RcvOk.craftAck (hpos : ∀ x ∈ L, 0 < x.1) : HonestAck tx (craftAck (e.flows ())) where
  ackno := by
    show (e.flows ()).pcb.rcvNxt.setWidth 16 = _
    rw [h.nxt]
    rfl
  seq_le := h.le_tx
  bits i hi := by
    obtain ⟨p, hp⟩ := (h.reassembled.bits i (lt_of_testBit (by decide) hi)).mp hi
    exact (h.entries _ hp).1
  count := by
    have hcount := (Settled.reassemblyOk ⟨L, h.reassembled, hpos⟩).count
    show ((e.flows ()).pcb.sackBitmapCount.setWidth 16).toNat = popCount _
    rw [BitVec.toNat_setWidth, Nat.mod_eq_of_lt]
    · exact hcount
    · exact Nat.lt_of_lt_of_le (BitVec.isLt _) (by decide : 2 ^ 8 ≤ 2 ^ 16)

theorem RcvOk.queueAck (path : ℕ) : RcvOk lens log msgs fifo tx L (RdmaReceive.queueAck e () path) := by
  have hflow : (RdmaReceive.queueAck e () path).flows () = { e.flows () with nextAckPath := path } :=
    modFlow_flows_self e () fun sf => { sf with nextAckPath := path }
  refine h.of_eq ?_ ?_ ?_ ?_ ?_ ?_ rfl rfl fun x hx => .inl hx <;> rw [hflow]

/-- The tail of `uc_rx_chunk` queues an ACK or posts it at once. -/
theorem RcvOk.ackArrival (hpos : ∀ x ∈ L, 0 < x.1) (cfg : Config) (inOrder : Bool) (c : RxChunk) :
    RcvOk lens log msgs fifo tx L (RdmaReceive.ackArrival cfg e () inOrder c) ∧
      acceptedSeqs (RdmaReceive.ackArrival cfg e () inOrder c) = acceptedSeqs e ∧
      ((RdmaReceive.ackArrival cfg e () inOrder c).flows ()).rcvdChunks = (e.flows ()).rcvdChunks := by
  have hnote : RcvOk lens log msgs fifo tx L (e.modFlow () fun sf =>
      { sf with rxtracking := RXTracking.noteArrival sf.rxtracking inOrder c.byteLen }) := by
    refine h.of_eq ?_ ?_ ?_ ?_ ?_ ?_ rfl rfl fun x hx => .inl hx <;> rw [modFlow_flows_self]
    exact readyCsn_noteArrival ..
  have hqueue := hnote.queueAck (c.qpidx % 2 ^ 16)
  have hrcvd : ((RdmaReceive.queueAck (e.modFlow () fun sf =>
      { sf with rxtracking := RXTracking.noteArrival sf.rxtracking inOrder c.byteLen }) ()
      (c.qpidx % 2 ^ 16)).flows ()).rcvdChunks = (e.flows ()).rcvdChunks := by
    rw [RdmaReceive.queueAck, modFlow_flows_self, modFlow_flows_self]
  unfold RdmaReceive.ackArrival
  dsimp only
  split
  · refine ⟨?_, rfl, ?_⟩
    · refine hqueue.of_eq ?_ ?_ ?_ ?_ ?_ ?_ rfl rfl fun x hx => ?_
      all_goals try rw [modFlow_flows_self]
      · rfl
      · rfl
      · rfl
      · rfl
      · rfl
      · rfl
      · rcases mem_append.mp hx with hx | hx
        · exact .inl hx
        · rw [mem_singleton.mp hx]
          exact .inr ⟨hqueue.craftAck hpos, le_rfl⟩
    · exact hrcvd
  · exact ⟨hqueue, rfl, hrcvd⟩

theorem RcvOk.ucPostAcks (hpos : ∀ x ∈ L, 0 < x.1) : RcvOk lens log msgs fifo tx L (ucPostAcks e) := by
  rw [ucPostAcks_eq]
  refine h.of_eq rfl rfl rfl rfl rfl rfl rfl rfl fun x hx => ?_
  rcases mem_append.mp hx with hx | hx
  · exact .inl hx
  · obtain ⟨_, -, rfl⟩ := mem_map.mp hx
    exact .inr ⟨h.craftAck hpos, le_rfl⟩

-- ── What a delivery does

theorem RcvOk.dropRetrChunk : RcvOk lens log msgs fifo tx L (RdmaReceive.dropRetrChunk e ()) := by
  refine h.of_eq ?_ ?_ ?_ ?_ ?_ ?_ rfl rfl fun x hx => .inl hx <;>
    rw [RdmaReceive.dropRetrChunk, modFlow_flows_self]

theorem RcvOk.countAcceptRetr : RcvOk lens log msgs fifo tx L (RdmaReceive.countAcceptRetr e ()) := by
  refine h.of_eq ?_ ?_ ?_ ?_ ?_ ?_ rfl rfl fun x hx => .inl hx <;>
    rw [RdmaReceive.countAcceptRetr, modFlow_flows_self]

/-- A slot in use always has its request. -/
theorem RcvOk.locateReq_ne_error (rid : Fin 16) (x : Fault) : locateReq e () rid ≠ .error x := by
  intro hloc
  simp only [locateReq] at hloc
  split at hloc
  · cases hloc
  · next hty =>
    split at hloc
    · next hnone =>
      exact h.table.typed rid (Decidable.not_not.mp hty) hnone
    · cases hloc

end

/-- A chunk of the window that was not accepted is admitted. -/
theorem RcvOk.admitted (hlog : LogOk lens log msgs fifo) (h : RcvOk lens log msgs fifo tx L e)
    {c : RxChunk} (hc : Incoming log tx c len d)
    (hwin : c.seq < (e.flows ()).rcvdChunks + 128) (hnew : c.seq ∉ acceptedSeqs e) : Admitted e () c d.msg.recv := by
  have hle := h.le_of_not_mem hnew
  have hslot := h.table.inUse d.msg (hlog.started d (mem_of_getElem? hc.chunk)) (hlog.open_of_le hc.chunk hle)
  refine ⟨?_, ?_, ?_⟩
  · rw [hc.rid]
    simp only [locateReq, hslot, recvSlot, ne_eq, not_true_eq_false, if_false, if_true]
  · rw [hc.csn, h.nxt]
    exact seqnoLt_csnOf_of_le hle hwin
  · rw [h.distance hc hle hwin]
    exact Bool.eq_false_iff.mpr fun hset => hnew ((h.bit_iff hle hwin).mp hset)

/-- A chunk that was accepted is not, as long as `rcv_nxt` is at most 128 past it. -/
theorem RcvOk.not_admitted (h : RcvOk lens log msgs fifo tx L e) {c : RxChunk}
    (hc : Incoming log tx c len d) (hstale : (e.flows ()).rcvdChunks ≤ c.seq + 128)
    (hwin : c.seq < (e.flows ()).rcvdChunks + 128) (hold : c.seq ∈ acceptedSeqs e) (id : ReqId) :
    ¬ Admitted e () c id := by
  intro hadm
  rcases Nat.lt_or_ge c.seq (e.flows ()).rcvdChunks with hlt | hle
  · have hbehind := hadm.notBehind
    rw [hc.csn, h.nxt, seqnoLt_csnOf_of_lt hlt hstale] at hbehind
    cases hbehind
  · have hclear := hadm.clear
    rw [h.distance hc hle hwin] at hclear
    have hset : testBit (e.flows ()).pcb.sackBitmap (c.seq - (e.flows ()).rcvdChunks) = true :=
      (h.bit_iff hle hwin).mpr hold
    cases hset.symm.trans hclear

/-- **A NEW CHUNK** is accepted, whether it comes as the original or as a copy. -/
theorem RcvOk.receive_new (hUC : cfg.rcMode = false)
    (hlog : LogOk lens log msgs fifo) (h : RcvOk lens log msgs fifo tx L e) {p : Post Unit}
    (hp : OnWire log tx p) (hwin : tx ≤ (e.flows ()).rcvdChunks + 128) (hnew : p.seq ∉ acceptedSeqs e) :
    ∃ e' L', receive cfg e p = .ok e' ∧ RcvOk lens log msgs fifo tx L' e' ∧
      (∀ x ∈ L', 0 < x.1) ∧ acceptedSeqs e' = acceptedSeqs e ++ [p.seq] ∧
      (e.flows ()).rcvdChunks ≤ (e'.flows ()).rcvdChunks ∧
      (p.opcode = .SEND → e'.acks = e.acks ∧ () ∈ e'.ackList) := by
  have hwin' : p.seq < (e.flows ()).rcvdChunks + 128 := Nat.lt_of_lt_of_le hp.lt hwin
  obtain ⟨d, hd, hcsn, hrid, hlast, hkind⟩ := hp.chunk
  rcases hkind with ⟨hop, hlen⟩ | ⟨hop, hlen⟩
  · have hc : Incoming log tx (rxOf p) (rxOf p).byteLen d := ⟨hd, hp.lt, hcsn, hrid, hlast, hlen⟩
    obtain ⟨e1, L1, htake, h1, hpos, hacc⟩ := h.takeChunk hUC hlog hc hwin' hnew
    obtain ⟨h2, hseqs, hrcvd⟩ := h1.ackArrival hpos cfg
      (decide (((rxOf p).imm.csn - (e.flows ()).pcb.rcvNxt).toNat = 0)) (rxOf p)
    refine ⟨_, L1, ?_, h2, hpos, hseqs.trans hacc.seqs, ?_, ?_⟩
    · rw [receive, hop]
      exact ucRxChunk_of_admitted rfl (h.admitted hlog hc hwin' hnew) htake
    · rw [hrcvd]
      exact hacc.le
    · rw [hop]
      exact nofun
  · have hsize : d.len < 2 ^ 31 := by
      have hle := len_le_bytes hd
      have := hlog.bytes_le d.msg (hlog.started d (mem_of_getElem? hd))
      have := hlog.lens_lt d.msg.send
      omega
    have hsub : subU32 (rxOf p).byteLen retrChunkHdrSize = d.len := by
      show subU32 p.byteLen _ = _
      have hhdr : retrChunkHdrSize = 12 := rfl
      rw [hlen, subU32_of_le (by omega) (by omega), Nat.add_sub_cancel_left]
    have hc : Incoming log tx (rxOf p) (subU32 (rxOf p).byteLen retrChunkHdrSize) d :=
      ⟨hd, hp.lt, hcsn, hrid, hlast, hsub⟩
    have hflow : (RdmaReceive.countAcceptRetr e ()).flows () = _ := modFlow_flows_self ..
    obtain ⟨e1, L1, htake, h1, hpos, hacc⟩ := h.countAcceptRetr.takeChunk hUC hlog hc (by rw [hflow]; exact hwin') hnew
    refine ⟨RdmaReceive.queueAck e1 () (2 ^ 16 - 1), L1, ?_, h1.queueAck _, hpos, hacc.seqs, ?_,
      fun _ => ⟨hacc.acks, ?_⟩⟩
    · rw [receive, hop]
      exact ucRxRtxChunk_of_admitted rfl (h.admitted hlog hc hwin' hnew) htake
    · have hle := hacc.le
      exact hle
    · unfold RdmaReceive.queueAck
      split
      · assumption
      · exact mem_append_right _ (mem_singleton_self _)

section

variable (h : RcvOk lens log msgs fifo tx L e)
include h

/-- **A COPY OF AN ACCEPTED CHUNK** is dropped. -/
theorem RcvOk.receive_old (cfg : Config) {p : Post Unit}
    (hp : OnWire log tx p) (hstale : (e.flows ()).rcvdChunks ≤ p.seq + 128)
    (hwin : tx ≤ (e.flows ()).rcvdChunks + 128) (hop : p.opcode = .SEND) (hold : p.seq ∈ acceptedSeqs e) :
    receive cfg e p = .ok (RdmaReceive.dropRetrChunk e ()) := by
  have hwin' : p.seq < (e.flows ()).rcvdChunks + 128 := Nat.lt_of_lt_of_le hp.lt hwin
  obtain ⟨d, hd, hcsn, hrid, hlast, -⟩ := hp.chunk
  have hc : Incoming log tx (rxOf p) d.len d := ⟨hd, hp.lt, hcsn, hrid, hlast, rfl⟩
  rw [receive, hop]
  rcases ucRxRtxChunk_cases cfg e (rxOf p) (f := ()) rfl with
    hr | ⟨-, hloc | ⟨id, hadm, -⟩⟩ | ⟨id, -, hadm, -⟩
  · exact hr
  · exact absurd hloc (h.locateReq_ne_error _ _)
  · exact absurd hadm (h.not_admitted hc hstale hwin' hold id)
  · exact absurd hadm (h.not_admitted hc hstale hwin' hold id)

-- ── Receives and sends

/-- A receive is supplied. -/
theorem RcvOk.supplyRxBuff {id : ReqId} {rid : Fin 16} (hrun : RdmaReceive.supplyRxBuff e id = (e', some rid)) :
    RcvOk lens log msgs (fifo ++ [(rid, id)]) tx L e' ∧ acceptedSeqs e' = acceptedSeqs e ∧
      (e'.flows ()).rcvdChunks = (e.flows ()).rcvdChunks := by
  unfold RdmaReceive.supplyRxBuff at hrun
  dsimp only at hrun
  split at hrun
  · cases hrun
  · next rid' halloc =>
    obtain ⟨he', hrid⟩ := Prod.mk.inj hrun
    rw [Option.some.inj hrid] at halloc he'
    have hfree : ((e.flows ()).reqs rid).type = .UNUSED :=
      of_decide_eq_true (find?_some (p := fun i => decide (((e.flows ()).reqs i).type = .UNUSED)) halloc)
    have hflow : e'.flows () = { e.flows () with
        reqs := update (e.flows ()).reqs rid (recvSlot id 0) } := by
      rw [← he']
      exact modFlow_flows_self ..
    have hacc : e'.accepted = e.accepted := by rw [← he']; rfl
    have hseqs : acceptedSeqs e' = acceptedSeqs e := by rw [acceptedSeqs, hacc]; rfl
    have hgot : received log e' = received log e := by
      funext m
      rw [received, hseqs]
      rfl
    refine ⟨⟨?_, ?_, ?_, h.tx_le, ?_, ?_, ?_, ?_, ?_, ?_, ?_⟩, hseqs, by rw [hflow]⟩
    · rw [hflow]
      exact h.reassembled
    · rw [hflow]; exact h.nxt
    · rw [hflow]; exact h.le_tx
    · rw [hflow]; exact h.entries
    · rw [hflow, hseqs]; exact h.seqs
    · rw [hseqs]; exact h.nodup
    · rw [hacc]; exact h.faithful
    · rw [hflow, hgot]; exact h.table.supply hfree
    · rw [hflow, ← he']; exact h.completed
    · rw [hflow, ← he']; exact h.acks

/-- A send takes over an advertised receive. -/
theorem RcvOk.start {m : Message} {k : ℕ} (hk : fifo[k]? = some (m.rid, m.recv)) (hchunks : ∀ c ∈ log, c.msg ≠ m) :
    RcvOk lens log (msgs ++ [m]) (fifo.eraseIdx k) tx L e := by
  have hgot : received log e m = 0 := by
    refine sum_eq_zero fun n hn => ?_
    obtain ⟨j, hj, rfl⟩ := mem_map.mp hn
    have hget := getElem?_eq_getElem (Nat.lt_of_lt_of_le (h.seq_lt hj) h.tx_le)
    rw [byteAt_of_getElem? hget]
    exact lenFor_of_ne (hchunks _ (mem_of_getElem? hget))
  exact { h with table := h.table.start hk hchunks hgot }

end

/-- An honest ACK stays honest when more chunks are transmitted. -/
theorem honestAck_mono (htx : tx ≤ tx') {a : UcclSackHdr} (h : HonestAck tx a) : HonestAck tx' a :=
  ⟨h.ackno, le_trans h.seq_le htx, fun i hi => Nat.lt_of_lt_of_le (h.bits i hi) htx, h.count⟩

/-- More chunks are transmitted. -/
theorem RcvOk.mono (h : RcvOk lens log msgs fifo tx L e) (htx : tx ≤ tx')
    (hlen : tx' ≤ log.length) : RcvOk lens log msgs fifo tx' L e :=
  { h with
      le_tx := le_trans h.le_tx htx, tx_le := hlen
      entries := fun x hx => ⟨Nat.lt_of_lt_of_le (h.entries x hx).1 htx, (h.entries x hx).2⟩
      acks := fun a ha => ⟨honestAck_mono htx (h.acks a ha).1, (h.acks a ha).2⟩ }

/-- More chunks are cut. -/
theorem RcvOk.append (h : RcvOk lens log msgs fifo tx L e) (c : Chunk Message) :
    RcvOk lens (log ++ [c]) msgs fifo tx L e := by
  have hget : ∀ {k : ℕ} {d : Chunk Message}, log[k]? = some d → (log ++ [c])[k]? = some d := fun hd =>
    getElem?_append_some hd _
  have hr : (e.flows ()).rcvdChunks ≤ log.length := le_trans h.le_tx h.tx_le
  have hgot : ∀ m, received (log ++ [c]) e m = received log e m := by
    intro m
    refine congrArg List.sum (map_congr_left fun k hk => ?_)
    exact byteAt_append log c m (Nat.lt_of_lt_of_le (h.seq_lt hk) h.tx_le)
  refine ⟨h.reassembled, h.nxt, h.le_tx, ?_, fun x hx => ?_, h.seqs, h.nodup, fun a ha => ?_,
    h.table.append hr c hgot, ?_, h.acks⟩
  · rw [length_append]
    exact Nat.le_add_right_of_le h.tx_le
  · obtain ⟨hlt, d, hd, hreq⟩ := h.entries x hx
    exact ⟨hlt, d, hget hd, hreq⟩
  · obtain ⟨d, hd, hrest⟩ := h.faithful a ha
    exact ⟨d, hget hd, hrest⟩
  · rw [finished_append hr]
    exact h.completed

end

end RdmaDelivery
