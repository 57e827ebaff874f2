import Uccl.RdmaExactlyOnceProofs
import Uccl.RdmaOpcodeProofs

/-! # Sends and one-sided operations on one subflow in RC mode

    `senderCC_tx_message`, `senderCC_tx_write` and `senderCC_tx_read` draw their CSNs from one counter, `snd_nxt`. The
    chunks of a send carry theirs to the receiver, which advances `rcv_nxt` through them in order; a plain WRITE or READ
    carries none, so the CSNs it drew are missing there. A send that follows a one-sided operation waits behind such a
    gap for ever (`gap_blocks_send`). Where none does, every send completes (`sends_complete`).

    The receiver is the one of UC mode without the SACK bitmap. So its invariant is the one of UC mode, `RcvOk`, for
    SOME bitmap, and every step of the receiver is the step of UC mode with that bitmap filled in
    (`tryUpdateCsnLoop_withBitmap`). -/

namespace RdmaRcOrder

open RdmaPcb RdmaImm RdmaTimer RdmaState RdmaTransmit RdmaAck RdmaEngine RdmaReceive Function List Except
  RdmaReassembly RdmaChannel RdmaDelivery RdmaExactlyOnce Segmentation StepRun

-- ── The system

/-- What can happen on a subflow in RC mode. -/
inductive RcAction where
  | postRecv (id : ReqId)
  | startSend (id : ReqId) (k : ℕ)
  | tx (id : ReqId) (c : TxChoice)
  | write (id : ReqId) (c : TxChoice)
  | read (id : ReqId) (c : TxChoice)
  | burst (due : List Unit) (cs : ℕ → TxChoice)
  /-- the `i`-th work request in flight arrives -/
  | deliver (i : ℕ)
  /-- a completion at the sender -/
  | ack (wrId : UintCsn × Unit)

/-- One turn of the loop of `senderCC_tx_write` or `senderCC_tx_read`, for a request of the type. -/
def oneSidedChunk (type : ReqType) (opcode : Opcode) (user : TxUser) (cfg : Config) (s : Channel)
    (id : ReqId) (c : TxChoice) : Except Fault Channel :=
  let u := s.snd.ureqs id
  if u.type ≠ type then .error .notEnabled
  else if u.dataLen = 0 then .error .zeroLengthOneSided
  else if u.sentOffset < u.dataLen then
    match txOneSidedChunk opcode user cfg s.snd id c with
    | .error x => .error x
    | .ok (e, _) => .ok (s.withSnd e)
  else .ok s

/-- Only a write with immediate raises a completion at the receiver. -/
def rcReceive (cfg : Config) (e : ReceiverCtx Unit) (p : Post Unit) :
    Except Fault (ReceiverCtx Unit) :=
  match p.opcode with
  | .RDMA_WRITE_WITH_IMM => rcRxChunk cfg e (rxOf p)
  | .RDMA_WRITE | .RDMA_READ | .SEND => .ok e

/-- Any of the work requests in flight arrives. -/
def rcDeliver (cfg : Config) (s : Channel) (i : ℕ) : Except Fault Channel :=
  match s.wire[i]? with
  | none => .error .notEnabled
  | some p =>
    match rcReceive cfg s.rcv p with
    | .error x => .error x
    | .ok e => .ok { s with rcv := e, wire := s.wire.eraseIdx i }

/-- One step of the subflow. -/
def rcStep (cfg : Config) (s : Channel) : RcAction → Except Fault Channel
  | .postRecv id => postRecv s id
  | .startSend id k => startSend s id k
  | .tx id c => txChunk cfg s id c
  | .write id c => oneSidedChunk .ReqWrite .RDMA_WRITE .write cfg s id c
  | .read id c => oneSidedChunk .ReqRead .RDMA_READ .read cfg s id c
  | .burst due cs => .ok (s.withSnd (burstTimingWheel cfg s.snd due cs))
  | .deliver i => rcDeliver cfg s i
  | .ack wrId => .ok (s.withSnd (rcRxAck s.snd wrId))

/-- The sends issued so far are cut to the end and all their chunks have arrived: what is still
    in flight is one-sided. -/
structure AllDelivered (s : Channel) : Prop where
  pending : s.pending = []
  queue : queue s.snd = []
  wire : ∀ p ∈ s.wire, RdmaOpcode.Post.oneSided p

/-- `ready_csn_` is empty and every receive that a send was matched with is completed with the send's length. -/
structure AllComplete (s : Channel) : Prop where
  ready : (s.rcv.flows ()).rxtracking.readyCsn = []
  completed : ∀ m ∈ s.msgs,
    { ureq := m.recv, dataLen := (s.snd.ureqs m.send).dataLen } ∈ s.rcv.completed

-- ── The defect

/-- A new subflow.  Request 0 is a write, all others are sends, of one byte each. -/
def mixedChannel : Channel where
  snd := freshEngine (fun _ => ()) fun id =>
    freshRequest (if id = 0 then .ReqWrite else .ReqTx) () 1
  rcv := { flows := fun _ => {}, receiverFlowTbl := fun _ => ()
           ureqs := fun _ => { context := (), dataLen := 0 } }

theorem chInitial_mixedChannel : ChInitial mixedChannel where
  snd := initial_freshEngine _ fun _ => ⟨rfl, rfl⟩
  flow := ⟨0, rfl⟩
  ackList := rfl
  acks := rfl
  accepted := rfl
  completed := rfl
  wire := rfl
  fifo := rfl
  pending := rfl
  msgs := rfl
  log := rfl
  posted := rfl

/-- A write of one chunk, then a send of one chunk; both arrive. -/
def writeThenSend : List RcAction :=
  [.postRecv 7, .write 0 {}, .startSend 1 0, .tx 1 {}, .deliver 0, .deliver 0]

/-- **A SEND BEHIND A WRITE NEVER COMPLETES**: its only chunk has arrived and waits in
    `ready_csn_` with CSN 1, while `rcv_nxt` is at the CSN the write drew. -/
theorem gap_blocks_send : ChInitial mixedChannel ∧
    ∃ s, runFrom (rcStep RdmaOpcode.rcConfig) mixedChannel writeThenSend = .ok s ∧
      AllDelivered s ∧ s.msgs = [⟨1, 7, 0⟩] ∧
      (s.rcv.flows ()).rxtracking.readyCsn = [(1, some 0)] ∧ (s.rcv.flows ()).pcb.rcvNxt = 0 ∧
      s.rcv.completed = [] ∧ ¬ AllComplete s := by
  refine ⟨chInitial_mixedChannel, ?_⟩
  refine exists_run_of_eval (fun s => s.msgs = [⟨1, 7, 0⟩] ∧ (s.rcv.flows ()).rxtracking.readyCsn = [(1, some 0)] ∧
    (s.rcv.flows ()).pcb.rcvNxt = 0 ∧
    s.pending.length + (queue s.snd).length + s.wire.length + s.rcv.completed.length = 0) ?_ fun s hrun hs => ?_
  · decide +kernel
  · obtain ⟨hmsgs, hready, hnxt, hlens⟩ := hs
    have hpending : s.pending = [] := eq_nil_of_length_eq_zero (by omega)
    have hqueue : queue s.snd = [] := eq_nil_of_length_eq_zero (by omega)
    have hwire : s.wire = [] := eq_nil_of_length_eq_zero (by omega)
    have hcomp : s.rcv.completed = [] := eq_nil_of_length_eq_zero (by omega)
    refine ⟨⟨hpending, hqueue, ?_⟩, hmsgs, hready, hnxt, hcomp, fun hall => ?_⟩
    · rw [hwire]
      exact forall_mem_nil _
    · rw [hall.ready] at hready
      cases hready

-- ── The receiver of RC mode is the one of UC mode

/-- The receiver with a SACK bitmap filled in, which RC mode neither reads nor writes. -/
def withBitmap (b : SackBitmap) (n : BitVec 8) (e : ReceiverCtx Unit) : ReceiverCtx Unit :=
  e.modFlow () fun sf => { sf with pcb := { sf.pcb with sackBitmap := b, sackBitmapCount := n } }

/-- The same parameters in UC mode. -/
def ucOf (cfg : Config) : Config := { cfg with rcMode := false }

theorem modFlow_unit (e : ReceiverCtx Unit) (f : Unit) (g : SubUcclFlow Unit → SubUcclFlow Unit) :
    e.modFlow f g = { e with flows := fun _ => g (e.flows ()) } := by
  congr 1

variable {cfg : Config} {e e' g : ReceiverCtx Unit} {b : SackBitmap} {n : BitVec 8} {p : Post Unit}

section

variable (b : SackBitmap) (n : BitVec 8) (e : ReceiverCtx Unit) (rid : Fin 16)

theorem flows_withBitmap : (withBitmap b n e).flows () = { e.flows () with
      pcb := { (e.flows ()).pcb with sackBitmap := b, sackBitmapCount := n } } :=
  ReceiverCtx.modFlow_flows_self ..

/-- A receiver has its own bitmap filled in. -/
theorem withBitmap_self : withBitmap (e.flows ()).pcb.sackBitmap (e.flows ()).pcb.sackBitmapCount e = e := by
  unfold withBitmap
  rw [modFlow_unit]

theorem locateReq_withBitmap : locateReq (withBitmap b n e) () rid = locateReq e () rid := by
  unfold locateReq
  rw [flows_withBitmap]

end

/-- Accepting a chunk in UC mode, with its bit, is accepting it in RC mode. -/
theorem acceptChunk_withBitmap (b' : SackBitmap) (n' : BitVec 8) (id : ReqId) (c : RxChunk) (len : ℕ) :
    acceptChunk ((withBitmap b n e).modFlow () fun sf => { sf with
        pcb := { ((withBitmap b n e).flows ()).pcb with
          sackBitmap := b', sackBitmapCount := n' } }) () id c len =
      withBitmap b' n' (acceptChunk e () id c len) := by
  unfold acceptChunk withBitmap
  simp only [modFlow_unit]

theorem finishEntry_withBitmap {req : Option (Fin 16)} (h : finishEntry (withBitmap b n e) () req = .ok g) :
    ∃ e1, finishEntry e () req = .ok e1 ∧ g = withBitmap b n e1 := by
  cases req with
  | none => exact ⟨e, rfl, (ok.inj h).symm⟩
  | some rid =>
    have hslot : ((withBitmap b n e).flows ()).reqs = (e.flows ()).reqs := by rw [flows_withBitmap]
    cases hid : ((e.flows ()).reqs rid).ureq with
    | none =>
      unfold finishEntry completeRecv at h
      rw [hslot] at h
      simp only [hid] at h
      cases h
    | some id =>
      refine ⟨_, completeRecv_eq hid, ?_⟩
      have hrun := completeRecv_eq (e := withBitmap b n e) (by rw [hslot]; exact hid)
      rw [ok.inj (h.symm.trans hrun)]
      unfold withBitmap
      simp only [modFlow_unit]

theorem popReady_withBitmap (hRC : cfg.rcMode = true) (b : SackBitmap) (n : BitVec 8)
    (e : ReceiverCtx Unit) (rest : List (UintCsn × Option (Fin 16))) : popReady (ucOf cfg) (withBitmap b n e) () rest =
      withBitmap (WordBitmap.shiftDown b) (n - 1) (popReady cfg e () rest) := by
  unfold popReady withBitmap ucOf PCB.sackBitmapShiftLeftOne PCB.advanceRcvNxt
  simp only [modFlow_unit, hRC, Bool.not_true, Bool.not_false, if_true, Bool.false_eq_true, if_false]

theorem supplyRxBuff_withBitmap {id : ReqId} {rid : Fin 16} (h : supplyRxBuff e id = (e', some rid))
    (b : SackBitmap) (n : BitVec 8) : supplyRxBuff (withBitmap b n e) id = (withBitmap b n e', some rid) := by
  unfold supplyRxBuff at h ⊢
  dsimp only at h ⊢
  have halloc : allocRecvreq ((withBitmap b n e).flows ((withBitmap b n e).ureqs id).context) =
      allocRecvreq (e.flows (e.ureqs id).context) := by
    rfl
  rw [halloc]
  split at h
  · cases h
  · obtain ⟨he, hrid⟩ := Prod.mk.inj h
    rw [hrid, ← he]
    unfold withBitmap
    simp only [modFlow_unit]

/-- **CATCHING UP** in RC mode does what it does in UC mode, for any bitmap. -/
theorem tryUpdateCsnLoop_withBitmap (hRC : cfg.rcMode = true) {k : ℕ}
    (h : tryUpdateCsnLoop (ucOf cfg) () k (withBitmap b n e) = .ok g) :
    ∃ e' b' n', tryUpdateCsnLoop cfg () k e = .ok e' ∧ g = withBitmap b' n' e' := by
  induction k generalizing e b n with
  | zero => exact ⟨e, b, n, rfl, (ok.inj h).symm⟩
  | succ k ih =>
    unfold tryUpdateCsnLoop at h ⊢
    rw [flows_withBitmap] at h
    dsimp only at h
    split at h
    · exact ⟨e, b, n, rfl, (ok.inj h).symm⟩
    · split at h
      · next hcsn =>
        rw [if_pos hcsn]
        split at h
        · cases h
        · next g1 hfin =>
          obtain ⟨e1, hfin1, heq⟩ := finishEntry_withBitmap hfin
          rw [hfin1]
          rw [heq, popReady_withBitmap hRC] at h
          exact ih h
      · next hcsn =>
        rw [if_neg hcsn]
        exact ⟨e, b, n, rfl, (ok.inj h).symm⟩

section

variable {lens : ReqId → ℕ} {log : List (Chunk Message)} {msgs : List Message}
  {fifo : List (Fin 16 × ReqId)} {tx : ℕ} {L : Offsets}

/-- **A CHUNK ARRIVES** for the first time, within the window. -/
theorem rcRxChunk_new (hRC : cfg.rcMode = true) (hlog : LogOk lens log msgs fifo)
    (h : RcvOk lens log msgs fifo tx L (withBitmap b n e)) {c : RxChunk} {d : Chunk Message}
    (hc : Incoming log tx c c.byteLen d) (hwin : tx ≤ (e.flows ()).rcvdChunks + 128) (hnew : c.seq ∉ acceptedSeqs e) :
    ∃ e' b' n' L', rcRxChunk cfg e c = .ok e' ∧
      RcvOk lens log msgs fifo tx L' (withBitmap b' n' e') ∧ (∀ x ∈ L', 0 < x.1) ∧
      acceptedSeqs e' = acceptedSeqs e ++ [c.seq] ∧
      (e.flows ()).rcvdChunks ≤ (e'.flows ()).rcvdChunks := by
  have hrcvd : ∀ b n e, ((withBitmap b n e).flows ()).rcvdChunks = (e.flows ()).rcvdChunks :=
    fun b n e => by rw [flows_withBitmap]
  have hwin' : c.seq < ((withBitmap b n e).flows ()).rcvdChunks + 128 := by
    exact Nat.lt_of_lt_of_le hc.lt hwin
  have hle := h.le_of_not_mem hnew
  have hloc := (h.admitted hlog hc hwin' hnew).located
  rw [locateReq_withBitmap] at hloc
  obtain ⟨g, L', hrun, hg, hpos, hacc⟩ := h.takeChunk (show (ucOf cfg).rcMode = false from rfl) hlog hc hwin' hnew
  rw [takeChunk_of_lt _ _ _ _ _ _ (by rw [h.distance hc hle hwin']; omega), acceptChunk_withBitmap] at hrun
  obtain ⟨e', b', n', hrun', heq⟩ := tryUpdateCsnLoop_withBitmap hRC hrun
  refine ⟨e', b', n', L', ?_, heq ▸ hg, hpos, ?_, ?_⟩
  · unfold rcRxChunk
    dsimp only
    rw [hloc]
    exact hrun'
  · have hseqs := hacc.seqs
    rw [heq] at hseqs
    exact hseqs
  · have hmono := hacc.le
    rw [heq] at hmono
    exact hmono

end

-- ── The invariant of the subflow

/-- The work requests in flight that raise a completion at the receiver. -/
def withImm (wire : List (Post Unit)) : List (Post Unit) :=
  wire.filter fun p => decide (p.opcode = .RDMA_WRITE_WITH_IMM)

theorem withImm_cons_of_pos (h : p.opcode = .RDMA_WRITE_WITH_IMM)
    (ps : List (Post Unit)) : withImm (p :: ps) = p :: withImm ps :=
  filter_cons_of_pos (decide_eq_true h)

theorem withImm_cons_of_neg (h : p.opcode ≠ .RDMA_WRITE_WITH_IMM)
    (ps : List (Post Unit)) : withImm (p :: ps) = withImm ps :=
  filter_cons_of_neg (by rw [decide_eq_true_eq]; exact h)

theorem withImm_append (ps qs : List (Post Unit)) : withImm (ps ++ qs) = withImm ps ++ withImm qs := filter_append ..

/-- The numbers of all chunks of sends: queued, in flight, arrived. -/
def numbers (s : Channel) : List ℕ :=
  (queue s.snd).map WrEx.seq ++ (withImm s.wire).map Post.seq ++ acceptedSeqs s.rcv

/-- A work request in flight is a chunk of a send, or one-sided. -/
def Flies (log : List (Chunk Message)) (p : Post Unit) : Prop :=
  (p.opcode = .RDMA_WRITE_WITH_IMM ∧ ¬ RdmaOpcode.Post.oneSided p ∧ OnWire log log.length p) ∨
    (p.opcode ≠ .RDMA_WRITE_WITH_IMM ∧ RdmaOpcode.Post.oneSided p)

/-- Every CSN handed out so far was handed out to a send. -/
def OnlySends (s : Channel) : Prop := (s.snd.flows ()).sentChunks = s.log.length
deriving Decidable

/-- While only sends drew CSNs, no buffer was used for anything else. -/
structure Clean (e : SenderCtx Unit) : Prop where
  pool : ∀ w ∈ e.wrExPool, w.opcode = .RDMA_WRITE_WITH_IMM
  tracked : ∀ t ∈ (e.flows ()).unackedChunks, t.wrEx.opcode = .RDMA_WRITE_WITH_IMM

/-- **THE SUBFLOW IN RC MODE**: every chunk of a send is queued, in flight or arrived, exactly
    once, and the receiver is that of UC mode for some bitmap. -/
structure RcOk (lens : ReqId → ℕ) (s : Channel) : Prop where
  cut : CutOk lens s.snd.ureqs s.log s.msgs s.pending
  types : ∀ m ∈ s.msgs, (s.snd.ureqs m.send).type = .ReqTx
  recvs : (s.msgs.map Message.recv ++ s.fifo.map Prod.snd).Nodup
  posted : ∀ id ∈ s.msgs.map Message.recv ++ s.fifo.map Prod.snd, id ∈ s.posted
  le : s.log.length ≤ (s.snd.flows ()).sentChunks
  nxt : (s.snd.flows ()).pcb.sndNxt = csnOf (s.snd.flows ()).sentChunks
  clean : OnlySends s → Clean s.snd
  queued : ∀ w ∈ queue s.snd, QueuedChunk s.log w.seq w
  wire : ∀ p ∈ s.wire, Flies s.log p
  once : (numbers s).Perm (List.range s.log.length)
  window : s.log.length ≤ (s.rcv.flows ()).rcvdChunks + 128
  rcv : ∃ b n L, RcvOk lens s.log s.msgs s.fifo s.log.length L (withBitmap b n s.rcv) ∧
    ∀ x ∈ L, 0 < x.1

variable {lens : ReqId → ℕ} {s : Channel} {log : List (Chunk Message)} {e : SenderCtx Unit} {w : WrEx Unit}
  {ps : List (Post Unit)}

theorem RcOk.logOk (h : RcOk lens s) : LogOk lens s.log s.msgs s.fifo where
  wellCut := h.cut.wellCut
  sized := h.cut.sized
  started := h.cut.started
  bytes_le _ hm := h.cut.bytes_le hm
  lens_lt id := by
    rw [← h.cut.len id]
    exact (s.snd.ureqs id).dataLen_lt
  recvs := h.recvs

theorem rcOk_initial (h : ChInitial s) : RcOk (fun id => (s.snd.ureqs id).dataLen) s := by
  have hchan := chanOk_initial RdmaOpcode.rcConfig h
  obtain ⟨fid, hflow⟩ := h.snd.flows ()
  have hqueue : queue s.snd = [] := by rw [queue, h.snd.wheel, h.snd.readyQueue]; rfl
  have hseqs : acceptedSeqs s.rcv = [] := by rw [acceptedSeqs, h.accepted]; rfl
  have htx : transmitted s.snd = s.log.length := by
    rw [transmitted, hflow, h.log]
    rfl
  refine ⟨hchan.cut, ?_, hchan.recvs, hchan.posted, ?_, ?_, fun _ => ⟨hchan.snd.pool, ?_⟩, ?_, ?_, ?_, ?_, ?_⟩
  · rw [h.msgs]
    exact forall_mem_nil _
  · rw [h.log]
    exact Nat.zero_le _
  · rw [hflow]
    rfl
  · rw [hflow]
    exact forall_mem_nil _
  · rw [hqueue]
    exact forall_mem_nil _
  · rw [h.wire]
    exact forall_mem_nil _
  · rw [numbers, hqueue, h.wire, hseqs, h.log]
    exact List.Perm.refl _
  · rw [h.log]
    exact Nat.zero_le _
  · obtain ⟨L, hr, hpos⟩ := hchan.rcv
    rw [htx] at hr
    exact ⟨_, _, L, (withBitmap_self s.rcv).symm ▸ hr, hpos⟩

-- ── Once all chunks have arrived

/-- **ALL ARRIVED, ALL COMPLETE.** -/
theorem RcOk.allComplete (h : RcOk lens s) (hall : AllDelivered s) : AllComplete s := by
  obtain ⟨b, n, L, hr, hpos⟩ := h.rcv
  have hnone : withImm s.wire = [] := by
    refine filter_eq_nil_iff.mpr fun p hp hop => ?_
    rcases h.wire p hp with ⟨-, hsend, -⟩ | ⟨hne, -⟩
    · exact hsend (hall.wire p hp)
    · exact hne (of_decide_eq_true hop)
  have honce := h.once
  rw [numbers, hall.queue, hnone] at honce
  have hrcvd : ((withBitmap b n s.rcv).flows ()).rcvdChunks = (s.rcv.flows ()).rcvdChunks := by
    rw [flows_withBitmap]
  -- the chunk at `rcv_nxt` has not arrived, so there is none
  have hend : (s.rcv.flows ()).rcvdChunks = s.log.length := by
    refine Nat.le_antisymm (hrcvd ▸ hr.le_tx) (Nat.not_lt.mp fun hlt => ?_)
    have harrived : (s.rcv.flows ()).rcvdChunks ∈ acceptedSeqs s.rcv := honce.mem_iff.mpr (mem_range.mpr hlt)
    rcases (hr.seqs _).mp harrived with hbelow | ⟨x, hx, heq⟩
    · exact Nat.lt_irrefl _ hbelow
    · have := hpos x hx
      omega
  have hL : L = [] := eq_nil_iff_forall_not_mem.mpr fun x hx => by
    have hlt := (hr.entries x hx).1
    omega
  refine ⟨?_, fun m hm => ?_⟩
  · have hentries := hr.reassembled.entries
    rw [hL] at hentries
    exact hentries
  · have hopen : ¬ Open s.log m := fun ho => by
      have hin := (h.cut.pending_iff m).mpr ⟨hm, ho⟩
      rw [hall.pending] at hin
      cases hin
    unfold Open at hopen
    push Not at hopen
    obtain ⟨c, hc, hmsg, hlast⟩ := hopen
    obtain ⟨k, hk⟩ := mem_iff_getElem?.mp hc
    have hcomp : s.rcv.completed = _ := hr.completed
    rw [hcomp, hrcvd, hend, h.cut.len m.send]
    refine mem_map.mpr ⟨m, mem_finished.mpr ⟨k, c, ?_, hk, Bool.not_eq_false _ ▸ hlast, hmsg⟩, rfl⟩
    exact lt_length hk

-- ── What a step of the sender does

/-- The sender moves on and cuts no chunk: what it posts is one-sided or comes from the wheel. -/
theorem RcOk.withSnd (h : RcOk lens s) (hsq : e.sq = s.snd.sq ++ ps) (hcut : CutOk lens e.ureqs s.log s.msgs s.pending)
    (htypes : ∀ m ∈ s.msgs, (e.ureqs m.send).type = .ReqTx) (hle : s.log.length ≤ (e.flows ()).sentChunks)
    (hnxt : (e.flows ()).pcb.sndNxt = csnOf (e.flows ()).sentChunks)
    (hclean : (e.flows ()).sentChunks = s.log.length → Clean e)
    (hqueued : ∀ w ∈ queue e, w ∈ queue s.snd) (hps : ∀ p ∈ ps, Flies s.log p)
    (honce : ((queue e).map WrEx.seq ++ (withImm ps).map Post.seq).Perm
      ((queue s.snd).map WrEx.seq)) : RcOk lens (s.withSnd e) := by
  have hwire := wire_withSnd hsq
  refine ⟨hcut, htypes, h.recvs, h.posted, hle, hnxt, hclean,
    fun w hw => h.queued w (hqueued w hw), ?_, ?_, h.window, h.rcv⟩
  · rw [hwire]
    exact forall_mem_append.mpr ⟨h.wire, hps⟩
  · refine List.Perm.trans ?_ h.once
    refine List.Perm.append_right _ ?_
    rw [hwire, withImm_append, map_append]
    refine (perm_append_comm.append_left _).trans ?_
    rw [← append_assoc]
    exact honce.append_right _

/-- A buffer that carries a chunk is posted. -/
theorem onWire_of_holds {k : ℕ} {c : Chunk Message} (h : Holds w k c) (hk : log[k]? = some c) (user : TxUser) :
    OnWire log log.length (postOf user w) := by
  have hseq : (postOf user w).seq = k := h.seq
  refine ⟨?_, c, ?_, ?_, h.rid, h.last, .inl ⟨h.opcode, h.len⟩⟩
  · rw [hseq]
    exact lt_length hk
  · rw [hseq]
    exact hk
  · rw [hseq]
    exact h.csn

/-- A chunk leaves the wheel. -/
theorem RcOk.burstChunk (h : RcOk lens s) {rest : List (WrEx Unit)}
    (hready : s.snd.readyQueue = w :: rest) (cfg : Config) (c : TxChoice) :
    RcOk lens (s.withSnd (burstChunk cfg s.snd w rest c)) := by
  obtain ⟨armed, hflow⟩ := flows_burstChunk_self cfg s.snd w rest c
  have hframe := frame_burstChunk cfg s.snd w rest c
  have hqueue : queue s.snd = w :: queue (RdmaTransmit.burstChunk cfg s.snd w rest c) := by
    rw [hframe, queue, queue, hready]
    rfl
  obtain ⟨d, hd, hholds, -⟩ := h.queued w (by rw [hqueue]; exact mem_cons_self)
  have hpost : Holds { w with qpidx := c.qpidx } w.seq d := { hholds with seq := rfl }
  refine h.withSnd (e := RdmaTransmit.burstChunk cfg s.snd w rest c) (congrArg SenderCtx.sq hframe) ?_ ?_ ?_ ?_
    (fun honly => ?_) ?_ ?_ ?_
  · rw [ureqs_burstChunk]
    exact h.cut
  · rw [ureqs_burstChunk]
    exact h.types
  · rw [hflow]
    exact h.le
  · rw [hflow]
    exact h.nxt
  · rw [hflow] at honly
    have hclean := h.clean honly
    refine ⟨by rw [hframe]; exact hclean.pool, ?_⟩
    rw [hflow]
    exact forall_mem_snoc hclean.tracked hholds.opcode
  · rw [hqueue]
    exact fun v hv => mem_cons_of_mem _ hv
  · refine forall_mem_singleton.mpr (.inl ⟨hholds.opcode, ?_, onWire_of_holds hpost hd .wheel⟩)
    rintro (hone | hone) <;> cases hone
  · rw [hqueue, withImm_cons_of_pos hholds.opcode]
    exact perm_append_singleton ..

/-- Draining the wheel, chunk by chunk. -/
theorem RcOk.burst (h : RcOk lens s) (cfg : Config) (due : List Unit) (cs : ℕ → TxChoice) :
    RcOk lens (s.withSnd (burstTimingWheel cfg s.snd due cs)) := by
  let I : SenderCtx Unit → Prop := fun e => RcOk lens (s.withSnd e) ∧ s.snd.sq <+: e.sq
  have hstart : I s.snd := ⟨(withSnd_self s).symm ▸ h, prefix_rfl⟩
  have hmove : ∀ {e e' : SenderCtx Unit}, s.snd.sq <+: e.sq → e.sq <+: e'.sq →
      RcOk lens ((s.withSnd e).withSnd e') → I e' := fun hsq hmore hi =>
    ⟨withSnd_withSnd hsq hmore ▸ hi, hsq.trans hmore⟩
  refine (burstTimingWheel_rule (I := I) ?_ ?_ hstart due cs).1
  · rintro e f w ⟨hi, hsq⟩ hfind
    have hqueue := queue_reaped hfind
    refine hmove hsq prefix_rfl (hi.withSnd (append_nil _).symm hi.cut hi.types hi.le
      hi.nxt (fun honly => ?_) (fun v hv => ?_) (forall_mem_nil _) ?_)
    · have hclean := hi.clean honly
      exact ⟨hclean.pool, hclean.tracked⟩
    · rw [hqueue] at hv
      exact hv
    · rw [hqueue]
      exact List.Perm.of_eq (append_nil _)
  · rintro e w rest c ⟨hi, hsq⟩ hready
    have hmore : e.sq <+: (RdmaTransmit.burstChunk cfg e w rest c).sq := by
      rw [frame_burstChunk]
      exact ⟨_, rfl⟩
    exact hmove hsq hmore (hi.burstChunk hready cfg c)

/-- A completion at the sender frees a buffer. -/
theorem RcOk.ack (h : RcOk lens s) (wrId : UintCsn × Unit) : RcOk lens (s.withSnd (rcRxAck s.snd wrId)) := by
  rcases rcRxAck_cases s.snd wrId with heq | ⟨chunk, hfind, heq⟩
  · rw [heq, withSnd_self]
    exact h
  · rw [heq]
    have hflow := flows_ackRcChunk_self s.snd wrId.2 wrId.1 chunk
    have hureqs := ureqs_ackRcChunk s.snd wrId.2 wrId.1 chunk
    -- only `acked_bytes` of the request changes
    have hsame : ∀ id, ((ackRcChunk s.snd wrId.2 wrId.1 chunk).ureqs id).dataLen = (s.snd.ureqs id).dataLen ∧
        ((ackRcChunk s.snd wrId.2 wrId.1 chunk).ureqs id).rid = (s.snd.ureqs id).rid ∧
        ((ackRcChunk s.snd wrId.2 wrId.1 chunk).ureqs id).sentOffset = (s.snd.ureqs id).sentOffset ∧
        ((ackRcChunk s.snd wrId.2 wrId.1 chunk).ureqs id).type = (s.snd.ureqs id).type := by
      intro id
      rw [hureqs]
      by_cases hid : id = chunk.ureq
      · rw [hid, update_self]
        exact ⟨rfl, rfl, rfl, rfl⟩
      · rw [update_of_ne hid]
        exact ⟨rfl, rfl, rfl, rfl⟩
    refine h.withSnd (append_nil _).symm
      (h.cut.congr (fun id => (hsame id).1) fun m _ => ⟨(hsame m.send).2.1, (hsame m.send).2.2.1⟩)
      (fun m hm => (hsame m.send).2.2.2.trans (h.types m hm)) ?_ ?_ (fun honly => ?_)
      (fun w hw => hw) (forall_mem_nil _) ?_
    · exact h.le
    · exact h.nxt
    · have hclean := h.clean honly
      refine ⟨fun w hw => ?_, ?_⟩
      · rcases RdmaTracking.mem_freeBuff hw with hin | rfl
        · exact hclean.pool w hin
        · exact hclean.tracked chunk (mem_of_find?_eq_some hfind)
      · exact fun t ht => hclean.tracked t (mem_of_mem_eraseP ht)
    · exact List.Perm.of_eq (append_nil _)

/-- A one-sided operation draws a CSN, for a chunk it posts or not: from here on not only sends drew CSNs. -/
theorem RcOk.drawn (h : RcOk lens s) (hsq : e.sq = s.snd.sq ++ ps)
    (hlen : ∀ id, (e.ureqs id).dataLen = (s.snd.ureqs id).dataLen)
    (hsame : ∀ id, (s.snd.ureqs id).type = .ReqTx → e.ureqs id = s.snd.ureqs id)
    (hsent : (e.flows ()).sentChunks = (s.snd.flows ()).sentChunks + 1)
    (hnxt : (e.flows ()).pcb.sndNxt = (s.snd.flows ()).pcb.sndNxt + 1) (hqueue : queue e = queue s.snd)
    (hps : ∀ p ∈ ps, p.opcode ≠ .RDMA_WRITE_WITH_IMM ∧ RdmaOpcode.Post.oneSided p) : RcOk lens (s.withSnd e) := by
  have hsends : ∀ m ∈ s.msgs, e.ureqs m.send = s.snd.ureqs m.send := fun m hm =>
    hsame m.send (h.types m hm)
  have hle := h.le
  refine h.withSnd hsq (h.cut.congr hlen fun m hm => ?_) (fun m hm => ?_) ?_ ?_ (fun honly => ?_)
    (fun w hw => hqueue ▸ hw) (fun p hp => .inr (hps p hp)) ?_
  · rw [hsends m hm]
    exact ⟨rfl, rfl⟩
  · rw [hsends m hm]
    exact h.types m hm
  · omega
  · rw [hnxt, h.nxt, hsent, csnOf_succ]
  · omega
  · have hnone : withImm ps = [] := filter_eq_nil_iff.mpr fun p hp hop =>
      (hps p hp).1 (of_decide_eq_true hop)
    rw [hnone, hqueue]
    exact List.Perm.of_eq (append_nil _)

/-- What a step may come to: the invariant, or the end of the buffers, an action that was not
    enabled, or a one-sided operation of length 0. -/
def RcProgress (lens : ReqId → ℕ) : Except Fault Channel → Prop
  | .ok s => RcOk lens s
  | .error x => x = .wrExPoolEmpty ∨ x = .notEnabled ∨ x = .zeroLengthOneSided

theorem RcOk.oneSidedChunk (h : RcOk lens s) {type : ReqType} {opcode : Opcode} {user : TxUser}
    (htype : type ≠ .ReqTx) (hop : opcode ≠ .RDMA_WRITE_WITH_IMM)
    (huser : user = .write ∨ user = .read) (cfg : Config) (id : ReqId) (c : TxChoice) :
    RcProgress lens (oneSidedChunk type opcode user cfg s id c) := by
  unfold RdmaRcOrder.oneSidedChunk
  dsimp only
  split
  · exact .inr (.inl rfl)
  · next hty =>
    have hty : (s.snd.ureqs id).type = type := Decidable.not_not.mp hty
    split
    · exact .inr (.inr rfl)
    · split
      · split
        · next x hx => exact .inl (txOneSidedChunk_error hx)
        · next e b hrun =>
          rcases txOneSidedChunk_cases hrun with ⟨-, rfl⟩ | ⟨w, pool, -, -, ⟨-, rfl⟩ | ⟨-, rfl⟩⟩
          · rw [withSnd_self]
            exact h
          · have hflow := flows_takeCsn_self { s.snd with wrExPool := pool } ()
            refine h.drawn (append_nil _).symm (fun _ => rfl) (fun _ _ => rfl) ?_ ?_ rfl (forall_mem_nil _)
            · exact congrArg SubUcclFlow.sentChunks hflow
            · exact congrArg (fun sf : SubUcclFlow Unit => sf.pcb.sndNxt) hflow
          · have hflow := flows_accountChunk_self (placeOneSided opcode user cfg s.snd id c w pool) () id
              (admitted cfg s.snd id)
            rw [placeOneSided, flows_postAndTrack_self, takeOneSided, flows_takeCsn_self] at hflow
            refine h.drawn rfl (fun id' => ?_) (fun id' hid' => ?_) (congrArg SubUcclFlow.sentChunks hflow)
              (congrArg (fun sf : SubUcclFlow Unit => sf.pcb.sndNxt) hflow) rfl
              (forall_mem_singleton.mpr ⟨hop, huser⟩)
            · rw [ureqs_accountChunk]
              exact update_congr UcclRequest.dataLen (by rfl) id'
            · have hne : id' ≠ id := fun heq => htype (hty.symm.trans (heq ▸ hid'))
              rw [ureqs_accountChunk, update_of_ne hne]
              rfl
      · exact h

-- ── A chunk of a send is cut

/-- What cutting a chunk does at the sender: it draws a CSN and is posted or waits in the wheel. -/
structure Placed (log : List (Chunk Message)) (e e' : SenderCtx Unit) (d : Chunk Message) :
    Prop where
  sent : (e'.flows ()).sentChunks = (e.flows ()).sentChunks + 1
  nxt : (e'.flows ()).pcb.sndNxt = (e.flows ()).pcb.sndNxt + 1
  clean : Clean e'
  moved : (∃ p, queue e' = queue e ∧ e'.sq = e.sq ++ [p] ∧ p.seq = log.length ∧
      p.opcode = .RDMA_WRITE_WITH_IMM ∧ Flies (log ++ [d]) p) ∨
    ∃ v, queue e' = queue e ++ [v] ∧ e'.sq = e.sq ∧ v.seq = log.length ∧
      QueuedChunk (log ++ [d]) v.seq v

theorem placed_of_tx {e' : SenderCtx Unit} {m : Message} (hsent : (e.flows ()).sentChunks = log.length)
    (hnxt : (e.flows ()).pcb.sndNxt = csnOf (e.flows ()).sentChunks) (hclean : Clean e)
    (hrid : (e.ureqs m.send).rid = m.rid) {pool : List (WrEx Unit)}
    (hpool : e.wrExPool = w :: pool) (cfg : Config) (c : TxChoice)
    (he' : e' = accountChunk (placeChunk cfg e m.send c w pool) () m.send
      (admitted cfg e m.send)) : Placed log e e' (nextChunk cfg e m) := by
  have hw := hclean.pool w (hpool ▸ mem_cons_self)
  have hpools : ∀ v ∈ pool, v.opcode = .RDMA_WRITE_WITH_IMM := fun v hv =>
    hclean.pool v (hpool ▸ mem_cons_of_mem _ hv)
  have hget : (log ++ [nextChunk cfg e m])[log.length]? = some (nextChunk cfg e m) := getElem?_concat_length
  unfold placeChunk at he'
  dsimp only at he'
  split at he'
  · -- transmitted at once
    have hholds := holds_fillMessageWr cfg hsent hnxt hw hrid c.qpidx
    obtain ⟨armed, hflow⟩ := flows_transmitChunk_self cfg (takeCsn { e with wrExPool := pool } ())
      () m.send (nextWr cfg e m w)
      .message c
    have hframe := frame_transmitChunk cfg (takeCsn { e with wrExPool := pool } ()) () m.send
      (nextWr cfg e m w) .message c
    have haccount := flows_accountChunk_self (transmitChunk cfg
      (takeCsn { e with wrExPool := pool } ()) () m.send (nextWr cfg e m w) .message c) () m.send (admitted cfg e m.send)
    rw [hflow, flows_takeCsn_self] at haccount
    rw [← show e' = _ from he'] at haccount
    refine ⟨by rw [haccount], by rw [haccount]; rfl, ⟨?_, ?_⟩, .inl ⟨_, ?_, ?_, hholds.seq,
      hholds.opcode, .inl ⟨hholds.opcode, ?_, onWire_of_holds hholds hget .message⟩⟩⟩
    · rw [he', hframe]
      exact hpools
    · rw [haccount]
      exact forall_mem_snoc hclean.tracked hw
    · rw [he', hframe]
      rfl
    · rw [he', hframe]
      rfl
    · rintro (hone | hone) <;> cases hone
  · -- queued
    have hholds := holds_fillMessageWr cfg hsent hnxt hw hrid w.qpidx
    have haccount := flows_accountChunk_self (queueOnTimingWheel
      (takeCsn { e with wrExPool := pool } ()) () m.send (nextWr cfg e m w)) () m.send (admitted cfg e m.send)
    rw [flows_queueOnTimingWheel_self, flows_takeCsn_self] at haccount
    rw [← show e' = _ from he'] at haccount
    refine ⟨by rw [haccount], by rw [haccount]; rfl, ⟨?_, ?_⟩, .inr ⟨{ nextWr cfg e m w with ureq := m.send }, ?_, ?_,
      hholds.seq, nextChunk cfg e m, ?_, ?_, rfl⟩⟩
    · rw [he']
      exact hpools
    · rw [haccount]
      exact hclean.tracked
    · rw [he']
      exact (append_assoc ..).symm
    · rw [he']
      rfl
    · rw [show WrEx.seq _ = _ from hholds.seq]
      exact hget
    · rw [show WrEx.seq _ = _ from hholds.seq]
      exact { hholds with }

/-- Every chunk that is 128 or more before the next one has arrived. -/
def Near (s : Channel) : Prop := ∀ k < s.log.length + 1 - 128, k ∈ acceptedSeqs s.rcv

instance (s : Channel) : Decidable (Near s) := Nat.decidableBallLT ..

/-- Then the next chunk is less than 128 past `rcv_nxt`. -/
theorem RcOk.near (h : RcOk lens s) (hnear : Near s) : s.log.length + 1 ≤ (s.rcv.flows ()).rcvdChunks + 128 := by
  obtain ⟨b, n, L, hr, hpos⟩ := h.rcv
  have hrcvd : ((withBitmap b n s.rcv).flows ()).rcvdChunks = (s.rcv.flows ()).rcvdChunks := by
    rw [flows_withBitmap]
  refine Nat.not_lt.mp fun hlt => ?_
  rcases (hr.seqs _).mp (hnear _ (show (s.rcv.flows ()).rcvdChunks < _ by omega)) with hin | ⟨x, hx, heq⟩
  · exact Nat.lt_irrefl _ hin
  · have := hpos x hx
    omega

theorem Flies.append (h : Flies log p) (c : Chunk Message) : Flies (log ++ [c]) p := by
  refine h.imp_left fun hsend => ⟨hsend.1, hsend.2.1, hsend.2.2.append ?_ c⟩
  rw [length_append]
  exact Nat.le_add_right ..

/-- The new number joins those of the queue or those in flight. -/
theorem RcOk.grows (h : RcOk lens s) {d : Chunk Message} (hplaced : Placed s.log s.snd e d) :
    (∀ v ∈ queue e, QueuedChunk (s.log ++ [d]) v.seq v) ∧
    (∀ p ∈ (s.withSnd e).wire, Flies (s.log ++ [d]) p) ∧
    ((queue e).map WrEx.seq ++ (withImm (s.withSnd e).wire).map Post.seq).Perm
      (s.log.length :: ((queue s.snd).map WrEx.seq ++ (withImm s.wire).map Post.seq)) := by
  have hqueued : ∀ v ∈ queue s.snd, QueuedChunk (s.log ++ [d]) v.seq v := fun v hv =>
    (h.queued v hv).append _ _ _
  have hwire : ∀ p ∈ s.wire, Flies (s.log ++ [d]) p := fun p hp => (h.wire p hp).append _
  rcases hplaced.moved with ⟨p, hqueue, hsq, hseq, hop, hflies⟩ | ⟨v, hqueue, hsq, hseq, hv⟩
  · rw [wire_withSnd hsq, hqueue, withImm_append, map_append, ← append_assoc, withImm_cons_of_pos hop, ← hseq]
    exact ⟨hqueued, forall_mem_snoc hwire hflies, perm_append_singleton ..⟩
  · rw [wire_withSnd (hsq.trans (append_nil _).symm), hqueue, append_nil, map_append, append_assoc, ← hseq]
    exact ⟨forall_mem_snoc hqueued hv, hwire, perm_middle⟩

theorem RcOk.txChunk (h : RcOk lens s) (honly : OnlySends s) (hnear : Near s) (cfg : Config)
    (id : ReqId) (c : TxChoice) : RcProgress lens (txChunk cfg s id c) := by
  unfold RdmaChannel.txChunk
  split
  · exact .inr (.inl rfl)
  · next m hfind =>
    obtain ⟨hm, rfl⟩ := mem_of_find_send hfind
    split
    · next x htx => exact .inl (txMessageChunk_error htx)
    · exact h
    · next e htx =>
      rcases txMessageChunk_cases htx with ⟨hb, -⟩ | ⟨w, pool, -, hpool, -, he⟩
      · cases hb
      have hplaced := placed_of_tx honly h.nxt (h.clean honly) (h.cut.rid m hm) hpool cfg c he
      have hureqs : e.ureqs = update s.snd.ureqs m.send { s.snd.ureqs m.send with
          sentOffset := addU32 (s.snd.ureqs m.send).sentOffset (admitted cfg s.snd m.send) } := by
        rw [he, ureqs_accountChunk, ureqs_placeChunk]
      have htypes : ∀ m' ∈ s.msgs, (e.ureqs m'.send).type = .ReqTx := fun m' hm' => by
        rw [hureqs]
        by_cases hsend : m'.send = m.send
        · rw [hsend, update_self]
          exact h.types m (h.cut.mem_msgs hm)
        · rw [update_of_ne hsend]
          exact h.types m' hm'
      have hlength : (s.log ++ [nextChunk cfg s.snd m]).length = s.log.length + 1 := length_append
      obtain ⟨b, n, L, hr, hpos⟩ := h.rcv
      obtain ⟨hqueued', hwire', hperm⟩ := h.grows hplaced
      have hle : (s.log ++ [nextChunk cfg s.snd m]).length ≤ (e.flows ()).sentChunks := by
        rw [hlength, hplaced.sent]
        exact Nat.succ_le_succ h.le
      have hnxt : (e.flows ()).pcb.sndNxt = csnOf (e.flows ()).sentChunks := by
        rw [hplaced.nxt, hplaced.sent, h.nxt, csnOf_succ]
      have honce : ((queue e).map WrEx.seq ++ (withImm (s.withSnd e).wire).map Post.seq
          ++ acceptedSeqs s.rcv).Perm (range (s.log ++ [nextChunk cfg s.snd m]).length) := by
        rw [hlength, range_succ]
        refine (hperm.append_right _).trans ?_
        exact (h.once.cons s.log.length).trans (perm_append_singleton ..).symm
      have hwindow : (s.log ++ [nextChunk cfg s.snd m]).length ≤ (s.rcv.flows ()).rcvdChunks + 128 := by
        rw [hlength]
        exact h.near hnear
      have hmore : s.log.length ≤ (s.log ++ [nextChunk cfg s.snd m]).length := by
        rw [hlength]
        exact Nat.le_succ _
      exact ⟨h.cut.cut hm rfl (admitted_le cfg s.snd m.send) rfl hureqs, htypes, h.recvs, h.posted,
        hle, hnxt, fun _ => hplaced.clean, hqueued', hwire', honce, hwindow,
        ⟨b, n, L, (hr.append _).mono hmore le_rfl, hpos⟩⟩

-- ── The receiver's steps

/-- A chunk in flight has not arrived. -/
theorem RcOk.not_accepted (h : RcOk lens s) (hp : p ∈ s.wire)
    (hop : p.opcode = .RDMA_WRITE_WITH_IMM) : p.seq ∉ acceptedSeqs s.rcv := by
  have hnodup : (numbers s).Nodup := h.once.nodup_iff.mpr nodup_range
  intro hin
  refine (nodup_append'.mp hnodup).2.2 (mem_append_right _ ?_) hin
  exact mem_map_of_mem (mem_filter.mpr ⟨hp, decide_eq_true hop⟩)

theorem RcOk.deliver (hRC : cfg.rcMode = true) (h : RcOk lens s) (i : ℕ) : RcProgress lens (rcDeliver cfg s i) := by
  unfold rcDeliver
  split
  · exact .inr (.inl rfl)
  · next p hi =>
    have hp : p ∈ s.wire := mem_of_getElem? hi
    have hperm := cons_eraseIdx_perm hi
    have hwire : ∀ q ∈ s.wire.eraseIdx i, Flies s.log q := fun q hq =>
      h.wire q (mem_of_mem_eraseIdx hq)
    -- what is in flight with an immediate, before and after
    have himm : (withImm (p :: s.wire.eraseIdx i)).Perm (withImm s.wire) := hperm.filter _
    rcases h.wire p hp with ⟨hop, hsend, honwire⟩ | ⟨hop, -⟩
    · obtain ⟨b, n, L, hr, hpos⟩ := h.rcv
      obtain ⟨d, hd, hcsn, hrid, hlast, hkind⟩ := honwire.chunk
      have hlen : p.byteLen = d.len := by
        rcases hkind with ⟨-, hlen⟩ | ⟨hne, -⟩
        · exact hlen
        · cases hop.symm.trans hne
      obtain ⟨e, b', n', L', hrun, hr', hpos', hseqs, hle⟩ := rcRxChunk_new hRC h.logOk hr
        (c := rxOf p) ⟨hd, honwire.lt, hcsn, hrid, hlast, hlen⟩ h.window (h.not_accepted hp hop)
      have hrec : rcReceive cfg s.rcv p = .ok e := by
        unfold rcReceive
        rw [hop]
        exact hrun
      rw [hrec]
      refine { h with
          wire := hwire, once := ?_, window := h.window.trans (Nat.add_le_add_right hle _)
          rcv := ⟨b', n', L', hr', hpos'⟩ }
      refine List.Perm.trans ?_ h.once
      show ((queue s.snd).map WrEx.seq ++ (withImm (s.wire.eraseIdx i)).map Post.seq
        ++ acceptedSeqs e).Perm ((queue s.snd).map WrEx.seq ++ (withImm s.wire).map Post.seq ++ _)
      rw [withImm_cons_of_pos hop] at himm
      rw [hseqs, append_assoc, append_assoc]
      refine List.Perm.append_left _ ?_
      refine List.Perm.trans ?_ ((himm.map Post.seq).append_right _)
      rw [← append_assoc]
      exact perm_append_singleton ..
    · have hrec : rcReceive cfg s.rcv p = .ok s.rcv := by
        unfold rcReceive
        split
        · next himm => exact absurd himm hop
        · rfl
        · rfl
        · rfl
      rw [hrec]
      refine { h with wire := hwire, once := ?_ }
      rw [withImm_cons_of_neg hop] at himm
      refine List.Perm.trans ?_ h.once
      exact ((himm.map Post.seq).append_left _).append_right _

theorem RcOk.postRecv (h : RcOk lens s) (id : ReqId) : RcProgress lens (postRecv s id) := by
  unfold RdmaChannel.postRecv
  split
  · exact .inr (.inl rfl)
  · next hfresh =>
    obtain ⟨b, n, L, hr, hpos⟩ := h.rcv
    split
    · exact h
    · next e rid hrun =>
      obtain ⟨hr', hseqs, hrcvd⟩ := hr.supplyRxBuff (supplyRxBuff_withBitmap hrun b n)
      obtain ⟨hnodup, hposted⟩ := names_supply rid h.recvs h.posted hfresh
      refine ⟨h.cut, h.types, hnodup, hposted, h.le, h.nxt, h.clean, h.queued, h.wire, ?_, ?_, ⟨b, n, L, hr', hpos⟩⟩
      · have hsame : acceptedSeqs e = acceptedSeqs s.rcv := hseqs
        show ((queue s.snd).map WrEx.seq ++ (withImm s.wire).map Post.seq ++ acceptedSeqs e).Perm _
        rw [hsame]
        exact h.once
      · rw [flows_withBitmap, flows_withBitmap] at hrcvd
        exact h.window.trans (Nat.le_of_eq (congrArg (· + 128) hrcvd.symm))

theorem RcOk.startSend (h : RcOk lens s) (id : ReqId) (k : ℕ) : RcProgress lens (startSend s id k) := by
  unfold RdmaChannel.startSend
  split
  · exact .inr (.inl rfl)
  · next rid recv hk =>
    split
    · exact .inr (.inl rfl)
    · next hfree =>
      obtain ⟨htype, hfresh⟩ := not_or.mp hfree
      obtain ⟨b, n, L, hr, hpos⟩ := h.rcv
      have hperm := names_start s.msgs (m := ⟨id, recv, rid⟩) hk
      have hchunks := h.cut.no_chunk (m := ⟨id, recv, rid⟩) hfresh
      refine ⟨h.cut.start (m := ⟨id, recv, rid⟩) hfresh (h.cut.len id) rfl rfl, ?_,
        hperm.nodup_iff.mpr h.recvs, fun id' hid => h.posted id' (hperm.subset hid), h.le, h.nxt,
        fun honly => ?_, h.queued, h.wire, h.once, h.window,
        ⟨b, n, L, hr.start (m := ⟨id, recv, rid⟩) hk hchunks, hpos⟩⟩
      · refine forall_mem_snoc (fun m hm => ?_) ?_
        · have hne : m.send ≠ id := fun heq => hfresh (heq ▸ mem_map_of_mem hm)
          dsimp only
          rw [update_of_ne hne]
          exact h.types m hm
        · dsimp only
          rw [update_self]
          exact Decidable.not_not.mp htype
      · have hclean := h.clean honly
        exact ⟨hclean.pool, hclean.tracked⟩

-- ── Every run

/-- The condition on a step: a chunk of a send is cut only while nothing but sends drew CSNs, and
    when every chunk 128 or more before it has arrived. -/
def SendsFirst (s : Channel) : RcAction → Prop
  | .tx _ _ => OnlySends s ∧ Near s
  | _ => True

instance (s : Channel) (a : RcAction) : Decidable (SendsFirst s a) := by
  cases a <;> unfold SendsFirst <;> infer_instance

/-- **ONE STEP** of the subflow. -/
theorem RcOk.step (hRC : cfg.rcMode = true) (h : RcOk lens s) {a : RcAction} (ha : SendsFirst s a) :
    RcProgress lens (rcStep cfg s a) := by
  cases a with
  | postRecv id => exact h.postRecv id
  | startSend id k => exact h.startSend id k
  | tx id c => exact h.txChunk ha.1 ha.2 cfg id c
  | write id c => exact h.oneSidedChunk (by decide) (by decide) (.inl rfl) cfg id c
  | read id c => exact h.oneSidedChunk (by decide) (by decide) (.inr rfl) cfg id c
  | burst due cs => exact h.burst cfg due cs
  | deliver i => exact h.deliver hRC i
  | ack wrId => exact h.ack wrId

theorem RcOk.step_ok (hRC : cfg.rcMode = true) (s : Channel) (a : RcAction) (s' : Channel)
    (h : RcOk lens s) (ha : SendsFirst s a) (hrun : rcStep cfg s a = .ok s') : RcOk lens s' := by
  have hp := h.step hRC ha
  rw [hrun] at hp
  exact hp

/-- **SENDS COMPLETE**: in every run in which no one-sided operation draws a CSN before a send and no chunk is overtaken
    by 128 others, no check of the receive path fails; and whenever all chunks of the sends have arrived, `ready_csn_`
    is empty and every receive is completed. -/
theorem sends_complete (hRC : cfg.rcMode = true) {s₀ : Channel} (h₀ : ChInitial s₀)
    {as : List RcAction} (has : Along (rcStep cfg) SendsFirst s₀ as) :
    (∀ x, runFrom (rcStep cfg) s₀ as = .error x → x = .wrExPoolEmpty ∨ x = .notEnabled ∨ x = .zeroLengthOneSided) ∧
    ∀ s, runFrom (rcStep cfg) s₀ as = .ok s → AllDelivered s → AllComplete s := by
  refine ⟨fun x hx => ?_, fun s hs hall => ?_⟩
  · refine runFrom_error_along (P := fun x => x = .wrExPoolEmpty ∨ x = .notEnabled ∨
      x = .zeroLengthOneSided) (RcOk.step_ok hRC) ?_ (rcOk_initial h₀) has hx
    intro s a x hi ha hrun
    have hp := hi.step hRC ha
    rw [hrun] at hp
    exact hp
  · exact (runFrom_invariant_along (RcOk.step_ok hRC) (rcOk_initial h₀) has hs).allComplete hall

/-- Two sends of one chunk each, then a write; the second send's chunk arrives first. -/
def sendsThenWrite : List RcAction :=
  [.postRecv 7, .postRecv 8, .startSend 1 0, .startSend 2 0, .tx 1 {}, .tx 2 {}, .write 0 {},
   .deliver 1, .deliver 0]

theorem sends_complete_sendsThenWrite : ∃ s, runFrom (rcStep RdmaOpcode.rcConfig) mixedChannel sendsThenWrite = .ok s ∧
      s.rcv.completed.map Completed.ureq = [7, 8] ∧ s.wire.length = 1 ∧ AllDelivered s ∧
      AllComplete s := by
  refine exists_run_of_guarded (G := SendsFirst) (fun s => s.rcv.completed.map Completed.ureq = [7, 8] ∧
    s.wire.map Post.user = [.write] ∧ s.pending.length + (queue s.snd).length = 0) ?_ fun s halong hrun hs => ?_
  · decide +kernel
  · obtain ⟨hcomp, hwire, hlens⟩ := hs
    have hall : AllDelivered s := by
      refine ⟨eq_nil_of_length_eq_zero (by omega), eq_nil_of_length_eq_zero (by omega), fun p hp => .inl ?_⟩
      have huser : p.user ∈ s.wire.map Post.user := mem_map_of_mem hp
      rw [hwire] at huser
      exact mem_singleton.mp huser
    refine ⟨hcomp, ?_, hall, (sends_complete rfl chInitial_mixedChannel halong).2 s hrun hall⟩
    have hlen := congrArg length hwire
    rwa [length_map] at hlen

end RdmaRcOrder
