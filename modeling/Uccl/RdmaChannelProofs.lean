import Uccl.RdmaTrackingProofs
import Uccl.RdmaReassemblyProofs
import Uccl.SegmentationProofs

/-! # One subflow in UC mode: a sender, a receiver and the QPs between them

    A run interleaves everything that can happen on one subflow: receives are posted and advertised, sends are matched
    with them, the engine cuts a send into chunks, a QP delivers its oldest chunk or loses one, ACKs arrive late, twice
    or never, timers fire. The steps on either side are the functions of the transport; only the wire is new.

    Beside the two engines the state holds history that no step reads: the messages started so far, and the LOG of all
    chunks in the order in which they were given a CSN. Chunk number `k` is entry `k` of the log, on either side and on
    the wire, and its CSN is `k` modulo 256.

    The invariants are stated per party over the log: `SndOk` for the sending engine, `CutOk` for the requests being
    cut, `WireOk` for what is in flight. -/

namespace RdmaChannel

open RdmaPcb RdmaImm RdmaTimer RdmaState RdmaTransmit RdmaAck RdmaEngine RdmaTracking Function List Except
  RdmaReceive RdmaReassembly Segmentation StepRun

-- ── The system

/-- A send together with the receive it fills and that receive's slot. -/
structure Message where
  send : ReqId
  recv : ReqId
  rid : Fin 16
  deriving DecidableEq, Repr

open Message

variable {m : Message} {fifo : List (Fin 16 × ReqId)} {e : SenderCtx Unit} {s : Channel}

/-- Both ends of a subflow, the chunks in flight in the order they were posted, the
    posted receives the sender has not used, the sends the engine works on — and, as
    history, the messages started, the chunk log and the receives ever posted. -/
structure Channel where
  snd : SenderCtx Unit
  rcv : ReceiverCtx Unit
  wire : List (Post Unit) := []
  fifo : List (Fin 16 × ReqId) := []
  pending : List Message := []
  msgs : List Message := []
  log : List (Chunk Message) := []
  posted : List ReqId := []

/-- The sending engine moved on; what it posted meanwhile is on its way. -/
def Channel.withSnd (s : Channel) (e : SenderCtx Unit) : Channel :=
  { s with snd := e, wire := s.wire ++ e.sq.drop s.snd.sq.length }

/-- What can happen on the subflow. -/
inductive ChAction where
  | postRecv (id : ReqId)
  | startSend (id : ReqId) (k : ℕ)
  | tx (id : ReqId) (c : TxChoice)
  | burst (due : List Unit) (cs : ℕ → TxChoice)
  | deliver (q : ℕ)
  | drop (i : ℕ)
  | postAcks
  | ack (k : ℕ) (now : ℕ)
  | rto (now : ℕ)
  | retransmit (rto : Bool) (now : ℕ)

/-- A receive is supplied and advertised to the sender; without a free slot the engine tries again later. -/
def postRecv (s : Channel) (id : ReqId) : Except Fault Channel :=
  if id ∈ s.posted then .error .notEnabled
  else
    match supplyRxBuff s.rcv id with
    | (_, none) => .ok s
    | (e, some rid) =>
      .ok { s with rcv := e, fifo := s.fifo ++ [(rid, id)], posted := s.posted ++ [id] }

/-- A send takes an advertised receive and goes to the engine. -/
def startSend (s : Channel) (id : ReqId) (k : ℕ) : Except Fault Channel :=
  match s.fifo[k]? with
  | none => .error .notEnabled
  | some (rid, recv) =>
    if (s.snd.ureqs id).type ≠ .ReqTx ∨ id ∈ s.msgs.map send then .error .notEnabled
    else
      let u := { s.snd.ureqs id with rid := rid, sentOffset := 0, ackedBytes := 0 }
      let m := { send := id, recv := recv, rid := rid }
      .ok { s with
        snd := { s.snd with ureqs := Function.update s.snd.ureqs id u }
        fifo := s.fifo.eraseIdx k
        pending := s.pending ++ [m]
        msgs := s.msgs ++ [m] }

/-- One turn of the loop of `senderCC_tx_message` for a send in the engine's hands. -/
def txChunk (cfg : Config) (s : Channel) (id : ReqId) (c : TxChoice) : Except Fault Channel :=
  match s.pending.find? fun m => decide (m.send = id) with
  | none => .error .notEnabled
  | some m =>
    match txMessageChunk cfg s.snd id c with
    | .error x => .error x
    | .ok (_, false) => .ok s
    | .ok (e, true) =>
      let len := admitted cfg s.snd id
      let chunk := { msg := m, len := len, last := isLastChunk (s.snd.ureqs id) len }
      .ok { s.withSnd e with
        log := s.log ++ [chunk]
        pending := if (e.ureqs id).sentOffset < (e.ureqs id).dataLen then s.pending
          else s.pending.erase m }

/-- What a delivered work request does at the receiver: a write with immediate and a
    SEND raise a completion, a plain one-sided operation does not. -/
def receive (cfg : Config) (e : ReceiverCtx Unit) (p : Post Unit) :
    Except Fault (ReceiverCtx Unit) :=
  match p.opcode with
  | .RDMA_WRITE_WITH_IMM => ucRxChunk cfg e (rxOf p)
  | .SEND => ucRxRtxChunk cfg e (rxOf p)
  | .RDMA_WRITE | .RDMA_READ => .ok e

/-- A QP delivers the oldest chunk in flight on it. -/
def deliver (cfg : Config) (s : Channel) (q : ℕ) : Except Fault Channel :=
  match s.wire.find? fun p => decide (p.qpidx = q) with
  | none => .error .notEnabled
  | some p =>
    match receive cfg s.rcv p with
    | .error x => .error x
    | .ok e => .ok { s with rcv := e, wire := s.wire.eraseP fun p => decide (p.qpidx = q) }

/-- One of the ACKs posted so far arrives — perhaps not for the first time. -/
def deliverAck (cfg : Config) (s : Channel) (k now : ℕ) : Except Fault Channel :=
  match s.rcv.acks[k]? with
  | none => .error .notEnabled
  | some h =>
    match ucRxAck cfg s.snd h now with
    | .error x => .error x
    | .ok e => .ok (s.withSnd e)

/-- One step of the subflow. -/
def chStep (cfg : Config) (s : Channel) : ChAction → Except Fault Channel
  | .postRecv id => postRecv s id
  | .startSend id k => startSend s id k
  | .tx id c => txChunk cfg s id c
  | .burst due cs => .ok (s.withSnd (burstTimingWheel cfg s.snd due cs))
  | .deliver q => deliver cfg s q
  | .drop i => .ok { s with wire := s.wire.eraseIdx i }
  | .postAcks => .ok { s with rcv := ucPostAcks s.rcv }
  | .ack k now => deliverAck cfg s k now
  | .rto now =>
    match handleRto cfg s.snd now with
    | .error x => .error x
    | .ok e => .ok (s.withSnd e)
  | .retransmit rto now =>
    match retransmitForFlow s.snd () rto now with
    | .error x => .error x
    | .ok e => .ok (s.withSnd e)

/-- Two fresh engines and nothing between them. -/
structure ChInitial (s : Channel) : Prop where
  snd : Initial s.snd
  flow : ∃ fid, s.rcv.flows () = { fid := fid }
  ackList : s.rcv.ackList = []
  acks : s.rcv.acks = []
  accepted : s.rcv.accepted = []
  completed : s.rcv.completed = []
  wire : s.wire = []
  fifo : s.fifo = []
  pending : s.pending = []
  msgs : s.msgs = []
  log : s.log = []
  posted : s.posted = []

theorem withSnd_self (s : Channel) : s.withSnd s.snd = s := by
  unfold Channel.withSnd
  rw [drop_length, append_nil]

theorem withSnd_withSnd {e' : SenderCtx Unit} (h : s.snd.sq <+: e.sq)
    (h' : e.sq <+: e'.sq) : (s.withSnd e).withSnd e' = s.withSnd e' := by
  obtain ⟨ps, hps⟩ := h
  obtain ⟨qs, hqs⟩ := h'
  unfold Channel.withSnd
  rw [← hqs, ← hps, drop_left, drop_left, append_assoc s.snd.sq, drop_left, append_assoc]

theorem wire_withSnd {ps : List (Post Unit)} (h : e.sq = s.snd.sq ++ ps) : (s.withSnd e).wire = s.wire ++ ps := by
  unfold Channel.withSnd
  rw [h, drop_left]

/-- A new receive has a new name. -/
theorem names_supply {msgs : List Message} {posted : List ReqId}
    {id : ReqId} (rid : Fin 16) (hnodup : (msgs.map recv ++ fifo.map Prod.snd).Nodup)
    (hposted : ∀ x ∈ msgs.map recv ++ fifo.map Prod.snd, x ∈ posted) (hid : id ∉ posted) :
    (msgs.map recv ++ (fifo ++ [(rid, id)]).map Prod.snd).Nodup ∧
      ∀ x ∈ msgs.map recv ++ (fifo ++ [(rid, id)]).map Prod.snd, x ∈ posted ++ [id] := by
  have hnames : msgs.map recv ++ (fifo ++ [(rid, id)]).map Prod.snd
      = (msgs.map recv ++ fifo.map Prod.snd) ++ [id] := by
    rw [map_append, append_assoc]
    rfl
  rw [hnames]
  refine ⟨nodup_snoc hnodup fun hx => hid (hposted id hx), ?_⟩
  exact forall_mem_append.mpr ⟨fun x hx => mem_append_left _ (hposted x hx), fun x hx => mem_append_right _ hx⟩

/-- A receive moves from the advertised to the started ones. -/
theorem names_start (msgs : List Message) {k : ℕ} (hk : fifo[k]? = some (m.rid, m.recv)) :
    ((msgs ++ [m]).map recv ++ (fifo.eraseIdx k).map Prod.snd).Perm
      (msgs.map recv ++ fifo.map Prod.snd) := by
  rw [map_append, append_assoc]
  exact ((cons_eraseIdx_perm hk).map Prod.snd).append_left _

-- ── The sending engine over the log

/-- The buffer carries chunk `c` under number `k`. -/
structure Holds (w : WrEx Unit) (k : ℕ) (c : Chunk Message) : Prop where
  seq : w.seq = k
  csn : w.imm.csn = csnOf k
  rid : w.imm.rid = c.msg.rid
  last : w.imm.lastChunk = c.last
  len : w.sge.length = c.len
  opcode : w.opcode = .RDMA_WRITE_WITH_IMM

/-- A tracked chunk is the one of its number. -/
def TrackedChunk (log : List (Chunk Message)) (k : ℕ) (t : ChunkTrack Unit) : Prop :=
  ∃ c, log[k]? = some c ∧ Holds t.wrEx k c ∧ t.ureq = c.msg.send ∧ t.lastChunk = c.last

/-- So is a chunk in the wheel. -/
def QueuedChunk (log : List (Chunk Message)) (k : ℕ) (w : WrEx Unit) : Prop :=
  ∃ c, log[k]? = some c ∧ Holds w k c ∧ w.ureq = c.msg.send

/-- The chunks that have a CSN and wait for the wheel, oldest first. -/
def queue (e : SenderCtx Unit) : List (WrEx Unit) := e.readyQueue ++ e.wheel

/-- With one subflow the wheel is a queue: reaping moves its front on. -/
theorem queue_reaped {f : Unit} {w : WrEx Unit} (hfind : e.wheel.find? (fun w => decide (wheelFlow e w = f)) = some w) :
    queue { e with
      wheel := e.wheel.eraseP fun w => decide (wheelFlow e w = f)
      readyQueue := e.readyQueue ++ [w] } = queue e := by
  cases hwheel : e.wheel with
  | nil =>
    rw [hwheel] at hfind
    cases hfind
  | cons v rest =>
    rw [hwheel] at hfind
    rw [Option.some.inj hfind] at hwheel ⊢
    rw [queue, queue, hwheel, append_assoc]
    rfl

/-- How many chunks were transmitted. -/
def transmitted (e : SenderCtx Unit) : ℕ :=
  (e.flows ()).ackedChunks + (e.flows ()).unackedChunks.length

/-- The messages whose last chunk is among the first `n` chunks, in that order. -/
def finished (log : List (Chunk Message)) (n : ℕ) : List Message :=
  ((log.take n).filter Chunk.last).map Chunk.msg

/-- **THE SENDING ENGINE**: the log is the chunks acknowledged, tracked and queued, in
    this order; the engine woke up the messages that are acknowledged to the end. -/
structure SndOk (cfg : Config) (e : SenderCtx Unit) (log : List (Chunk Message)) : Prop where
  tracked : TrackedAt (e.flows ()) (transmitted e)
  sent : (e.flows ()).sentChunks = log.length
  total : transmitted e + (queue e).length = log.length
  bypass : cfg.bypassPacing = true → queue e = []
  wheelCnt : (e.flows ()).inWheelCnt = (queue e).length
  chunks : Numbered (TrackedChunk log) (e.flows ()).ackedChunks (e.flows ()).unackedChunks
  queued : Numbered (QueuedChunk log) (transmitted e) (queue e)
  pool : ∀ w ∈ e.wrExPool, w.opcode = .RDMA_WRITE_WITH_IMM
  wakeups : e.wakeups = (finished log (e.flows ()).ackedChunks).map send

section

variable {log : List (Chunk Message)} {n : ℕ} (c : Chunk Message) (k : ℕ) (w : WrEx Unit)
  (t : ChunkTrack Unit) (cfg : Config) {e : SenderCtx Unit}

theorem sndOk_initial (h : Initial e) : SndOk cfg e [] := by
  obtain ⟨fid, hf⟩ := h.flows ()
  have hqueue : queue e = [] := by rw [queue, h.wheel, h.readyQueue]; rfl
  have htx : transmitted e = 0 := by rw [transmitted, hf]; rfl
  refine ⟨?_, ?_, ?_, fun _ => hqueue, ?_, ?_, ?_, ?_, ?_⟩
  · rw [htx, hf]
    exact trackedAt_fresh fid
  · rw [hf]; rfl
  · rw [htx, hqueue]; rfl
  · rw [hf, hqueue]; rfl
  · rw [hf]; exact trivial
  · rw [hqueue]; exact trivial
  · intro w hw
    rw [h.pool] at hw
    obtain ⟨i, -, rfl⟩ := mem_map.mp hw
    rfl
  · rw [h.wakeups, hf]; rfl

/-- The log only grows, so what was said about a number stays true. -/
theorem TrackedChunk.append (h : TrackedChunk log k t) : TrackedChunk (log ++ [c]) k t := by
  obtain ⟨d, hd, h⟩ := h
  exact ⟨d, getElem?_append_some hd _, h⟩

theorem QueuedChunk.append (h : QueuedChunk log k w) : QueuedChunk (log ++ [c]) k w := by
  obtain ⟨d, hd, h⟩ := h
  exact ⟨d, getElem?_append_some hd _, h⟩

theorem finished_append (hn : n ≤ log.length) (c : Chunk Message) : finished (log ++ [c]) n = finished log n := by
  unfold finished
  rw [take_append_of_le_length hn]

end

-- ── What the sending engine's steps keep

section

variable {cfg : Config} {e e' : SenderCtx Unit} {log : List (Chunk Message)}

/-- A step that keeps the counters, the buffers and the requests woken up. -/
theorem SndOk.of_eq (h : SndOk cfg e log) (htracked : TrackedAt (e'.flows ()) (transmitted e))
    (hsent : (e'.flows ()).sentChunks = (e.flows ()).sentChunks)
    (hacked : (e'.flows ()).ackedChunks = (e.flows ()).ackedChunks)
    (hchunks : (e'.flows ()).unackedChunks = (e.flows ()).unackedChunks)
    (hcnt : (e'.flows ()).inWheelCnt = (e.flows ()).inWheelCnt)
    (hqueue : queue e' = queue e) (hpool : e'.wrExPool = e.wrExPool)
    (hwake : e'.wakeups = e.wakeups) : SndOk cfg e' log := by
  have htx : transmitted e' = transmitted e := by
    unfold transmitted
    rw [hacked, hchunks]
  refine ⟨?_, ?_, ?_, ?_, ?_, ?_, ?_, ?_, ?_⟩
  · rw [htx]; exact htracked
  · rw [hsent]; exact h.sent
  · rw [htx, hqueue]; exact h.total
  · rw [hqueue]; exact h.bypass
  · rw [hcnt, hqueue]; exact h.wheelCnt
  · rw [hacked, hchunks]; exact h.chunks
  · rw [htx, hqueue]; exact h.queued
  · rw [hpool]; exact h.pool
  · rw [hwake, hacked]; exact h.wakeups

theorem SndOk.resent (h : SndOk cfg e log) (hr : Resent e () e') : SndOk cfg e' log := by
  have htracked := h.tracked.resent hr
  obtain ⟨_, _, _, _, hflow⟩ := hr.self
  refine h.of_eq htracked ?_ ?_ ?_ ?_ ?_ ?_ ?_
  · rw [hflow]
  · rw [hflow]
  · rw [hflow]
  · rw [hflow]
  · rw [hr.frame]; rfl
  · rw [hr.frame]
  · rw [hr.frame]

/-- The requests woken up for tracked chunks are those of the log. -/
theorem wakeups_of_numbered {l : List (ChunkTrack Unit)} {k : ℕ} (h : Numbered (TrackedChunk log) k l) :
    (l.filter ChunkTrack.lastChunk).map ChunkTrack.ureq =
      ((((log.drop k).take l.length).filter Chunk.last).map Chunk.msg).map send := by
  induction l generalizing k with
  | nil => rfl
  | cons t l ih =>
    obtain ⟨⟨c, hc, -, hureq, hlast⟩, hrest⟩ := h
    obtain ⟨hk, hget⟩ := List.getElem?_eq_some_iff.mp hc
    rw [drop_eq_getElem_cons hk, hget, length_cons, take_succ_cons]
    cases hb : c.last with
    | false =>
      rw [filter_cons_of_neg (by rw [hlast, hb]; exact Bool.false_ne_true),
        filter_cons_of_neg (by rw [hb]; exact Bool.false_ne_true)]
      exact ih hrest
    | true =>
      rw [filter_cons_of_pos (by rw [hlast, hb]), filter_cons_of_pos hb,
        map_cons, map_cons, map_cons, hureq, ih hrest]

/-- An ACK moves chunks from tracked to acknowledged. -/
theorem SndOk.acked {seq : ℕ} (h : SndOk cfg e log) (heffect : AckEffect e () seq e')
    (htracked : TrackedAt (e'.flows ()) (transmitted e)) (hseq : seq ≤ transmitted e) :
    SndOk cfg e' log ∧ transmitted e' = transmitted e := by
  obtain ⟨_, _, _, hflow⟩ := heffect.self
  have hacked : (e'.flows ()).ackedChunks
      = (e.flows ()).ackedChunks + (seq - (e.flows ()).ackedChunks) := by
    rw [hflow]
    show max _ _ = _
    omega
  have hchunks : (e'.flows ()).unackedChunks
      = (e.flows ()).unackedChunks.drop (seq - (e.flows ()).ackedChunks) := by rw [hflow]
  have hle : seq - (e.flows ()).ackedChunks ≤ (e.flows ()).unackedChunks.length := by
    unfold transmitted at hseq
    omega
  have htx : transmitted e' = transmitted e := by
    unfold transmitted
    rw [hchunks, length_drop]
    omega
  have hqueue : queue e' = queue e := by
    rw [heffect.frame]
    rfl
  refine ⟨⟨?_, ?_, ?_, ?_, ?_, ?_, ?_, ?_, ?_⟩, htx⟩
  · rw [htx]; exact htracked
  · rw [hflow]; exact h.sent
  · rw [htx, hqueue]; exact h.total
  · rw [hqueue]; exact h.bypass
  · rw [hflow, hqueue]; exact h.wheelCnt
  · rw [hacked, hchunks]
    exact h.chunks.drop hle
  · rw [htx, hqueue]; exact h.queued
  · intro w hw
    rcases heffect.pool w hw with hw | ⟨t, ht, rfl⟩
    · exact h.pool w hw
    · obtain ⟨k, -, -, c, -, hholds, -⟩ := h.chunks.mem ht
      exact hholds.opcode
  · have hwake := wakeups_of_numbered (h.chunks.take (seq - (e.flows ()).ackedChunks))
    rw [length_take_of_le hle] at hwake
    rw [heffect.wakeups, h.wakeups, hwake, hacked]
    unfold finished
    rw [take_add, filter_append, map_append, map_append]

/-- The next chunk is posted and tracked. -/
def Transmits (log : List (Chunk Message)) (e e' : SenderCtx Unit) : Prop :=
  ∃ user t, TrackedChunk log (transmitted e) t ∧ e'.sq = e.sq ++ [postOf user t.wrEx] ∧
    (e'.flows ()).ackedChunks = (e.flows ()).ackedChunks ∧
    (e'.flows ()).unackedChunks = (e.flows ()).unackedChunks ++ [t]

/-- Nothing is posted and the tracked chunks are the same. -/
def Quiet (e e' : SenderCtx Unit) : Prop :=
  e'.sq = e.sq ∧ (e'.flows ()).ackedChunks = (e.flows ()).ackedChunks ∧
    (e'.flows ()).unackedChunks = (e.flows ()).unackedChunks

section

variable {w : WrEx Unit} {pool : List (WrEx Unit)} {rest : List (WrEx Unit)}

theorem Quiet.transmitted (h : Quiet e e') : transmitted e' = transmitted e := by
  unfold RdmaChannel.transmitted
  rw [h.2.1, h.2.2]

theorem Transmits.transmitted (h : Transmits log e e') : transmitted e' = transmitted e + 1 := by
  obtain ⟨_, _, -, -, hacked, hchunks⟩ := h
  unfold RdmaChannel.transmitted
  rw [hacked, hchunks, length_append, length_singleton, Nat.add_assoc]

/-- A chunk leaves the queue and is transmitted. -/
theorem SndOk.burst (h : SndOk cfg e log)
    (hready : e.readyQueue = w :: rest) (hwin : (queue e).length < 2 ^ 32) (c : TxChoice) :
    SndOk cfg (burstChunk cfg e w rest c) log ∧ Transmits log e (burstChunk cfg e w rest c) := by
  obtain ⟨armed, hflow⟩ : ∃ armed, (burstChunk cfg e w rest c).flows () = { e.flows () with
      unackedChunks := (e.flows ()).unackedChunks
        ++ [messageTrack w.ureq { w with qpidx := c.qpidx }]
      rtoArmed := armed
      inWheelCnt := subU32 (e.flows ()).inWheelCnt 1 } := flows_burstChunk_self cfg e w rest c
  have hframe := frame_burstChunk cfg e w rest c
  have hqueue : queue e = w :: queue (burstChunk cfg e w rest c) := by
    rw [hframe]
    unfold queue
    rw [hready]
    rfl
  have htotal := h.total
  have hqueued := h.queued
  rw [hqueue] at htotal hqueued hwin
  rw [length_cons] at htotal hwin
  obtain ⟨⟨d, hd, hholds, hureq⟩, hrest⟩ := hqueued
  have hlt : transmitted e < (e.flows ()).sentChunks := by
    rw [h.sent]
    omega
  have hchunk : TrackedChunk log (transmitted e)
      (messageTrack w.ureq { w with qpidx := c.qpidx }) :=
    ⟨d, hd, { hholds with }, hureq, hholds.last⟩
  have hsends : Transmits log e (burstChunk cfg e w rest c) := by
    refine ⟨.wheel, _, hchunk, ?_, ?_, ?_⟩
    · rw [hframe]; rfl
    · rw [hflow]
    · rw [hflow]
  have htx := hsends.transmitted
  refine ⟨⟨?_, ?_, ?_, ?_, ?_, ?_, ?_, ?_, ?_⟩, hsends⟩
  · have htrack := h.tracked.track hlt
      (t := messageTrack w.ureq { w with qpidx := c.qpidx }) hholds.csn
    rw [htx, hflow]
    exact ⟨⟨htrack.acked_le, htrack.tx_le, htrack.una, htrack.nxt, htrack.csns⟩, htrack.base,
      htrack.bits, htrack.count⟩
  · rw [hflow]; exact h.sent
  · rw [htx]; omega
  · intro hb
    rw [h.bypass hb] at hqueue
    cases hqueue
  · rw [hflow]
    rw [h.wheelCnt, hqueue, length_cons, subU32_of_le (by omega) (by omega), Nat.add_sub_cancel]
  · rw [hflow]
    exact numbered_append.mpr ⟨h.chunks, hchunk, trivial⟩
  · rw [htx]; exact hrest
  · rw [hframe]; exact h.pool
  · rw [hflow, hframe]; exact h.wakeups

/-- The chunk that `senderCC_tx_message` cuts next from a message. -/
def nextChunk (cfg : Config) (e : SenderCtx Unit) (m : Message) : Chunk Message :=
  { msg := m, len := admitted cfg e m.send
    last := isLastChunk (e.ureqs m.send) (admitted cfg e m.send) }

/-- Its buffer. -/
abbrev nextWr (cfg : Config) (e : SenderCtx Unit) (m : Message) (w : WrEx Unit) : WrEx Unit :=
  fillMessageWr cfg () (e.flows ()) (e.ureqs m.send) (admitted cfg e m.send) w

/-- The buffer of a new chunk carries it under the next number. -/
theorem holds_fillMessageWr (cfg : Config) {w : WrEx Unit} (hsent : (e.flows ()).sentChunks = log.length)
    (hnxt : (e.flows ()).pcb.sndNxt = csnOf (e.flows ()).sentChunks)
    (hw : w.opcode = .RDMA_WRITE_WITH_IMM) (hrid : (e.ureqs m.send).rid = m.rid) (q : ℕ) : Holds { nextWr cfg e m w with
      qpidx := q } log.length (nextChunk cfg e m) where
  seq := hsent
  csn := by
    rw [← hsent, ← hnxt]
    exact csn_immOf _ _ _ _
  rid := (rid_immOf _ _ _ _).trans hrid
  last := lastChunk_immOf _ _ _ _
  len := rfl
  opcode := hw

section

variable (h : SndOk cfg e log)
include h

/-- What every new chunk keeps: the log grows by one. -/
theorem SndOk.grow (c : Chunk Message) :
    Numbered (TrackedChunk (log ++ [c])) (e.flows ()).ackedChunks (e.flows ()).unackedChunks ∧
    Numbered (QueuedChunk (log ++ [c])) (transmitted e) (queue e) ∧
    e.wakeups = (finished (log ++ [c]) (e.flows ()).ackedChunks).map send := by
  refine ⟨h.chunks.imp (TrackedChunk.append c), h.queued.imp (QueuedChunk.append c), ?_⟩
  have hle : (e.flows ()).ackedChunks ≤ log.length := by
    have := h.tracked.acked_le
    have := h.total
    omega
  rw [finished_append hle]
  exact h.wakeups

section

variable (hpool : e.wrExPool = w :: pool)
include hpool

section

variable (hrid : (e.ureqs m.send).rid = m.rid)
include hrid

/-- With nothing in the wheel, a new chunk is transmitted at once. -/
theorem SndOk.transmitNow (hempty : queue e = []) (c : TxChoice)
    (he' : e' = accountChunk (transmitChunk cfg (takeCsn { e with wrExPool := pool } ()) () m.send
      (nextWr cfg e m w) .message c)
      () m.send (admitted cfg e m.send)) :
    SndOk cfg e' (log ++ [nextChunk cfg e m]) ∧ Transmits (log ++ [nextChunk cfg e m]) e e' := by
  obtain ⟨hchunks, -, hwake⟩ := h.grow (nextChunk cfg e m)
  have hholds := holds_fillMessageWr cfg h.sent h.tracked.nxt
    (h.pool w (hpool ▸ mem_cons_self)) hrid c.qpidx
  obtain ⟨armed, hsent⟩ := flows_transmitChunk_self cfg (takeCsn { e with wrExPool := pool } ()) ()
    m.send (nextWr cfg e m w)
    .message c
  have hframe := frame_transmitChunk cfg (takeCsn { e with wrExPool := pool } ()) () m.send
    (nextWr cfg e m w) .message c
  rw [flows_takeCsn_self] at hsent
  have hflow := flows_accountChunk_self (transmitChunk cfg (takeCsn { e with wrExPool := pool } ())
    () m.send (nextWr cfg e m w)
    .message c) () m.send (admitted cfg e m.send)
  rw [← he', hsent] at hflow
  have hqueue : queue e' = [] := by
    rw [he', hframe]
    exact hempty
  have htotal := h.total
  rw [hempty, length_nil, Nat.add_zero] at htotal
  have hchunk : TrackedChunk (log ++ [nextChunk cfg e m]) (transmitted e) (messageTrack m.send { nextWr cfg e m w with
        qpidx := c.qpidx }) := by
    rw [htotal]
    exact ⟨nextChunk cfg e m, getElem?_concat_length, hholds, rfl, hholds.last⟩
  have hsends : Transmits (log ++ [nextChunk cfg e m]) e e' := by
    refine ⟨.message, _, hchunk, ?_, ?_, ?_⟩
    · rw [he', hframe]; rfl
    · rw [hflow]
    · rw [hflow]
  have htx := hsends.transmitted
  refine ⟨⟨?_, ?_, ?_, ?_, ?_, ?_, ?_, ?_, ?_⟩, hsends⟩
  · have htrack := h.tracked.takeCsn.track (by rw [htotal, ← h.sent]; exact Nat.lt_succ_self _)
      (t := messageTrack m.send { nextWr cfg e m w with
          qpidx := c.qpidx }) (by rw [htotal]; exact hholds.csn)
    rw [htx, hflow]
    exact { htrack with }
  · rw [hflow, length_append]
    rw [h.sent]; rfl
  · rw [htx, hqueue, htotal, length_append]; rfl
  · exact fun _ => hqueue
  · rw [hflow, hqueue]
    show (e.flows ()).inWheelCnt = 0
    rw [h.wheelCnt, hempty]; rfl
  · rw [hflow]
    exact numbered_append.mpr ⟨hchunks, hchunk, trivial⟩
  · rw [hqueue]; exact trivial
  · rw [he', hframe]
    intro v hv
    exact h.pool v (hpool ▸ mem_cons_of_mem _ hv)
  · rw [hflow, he', hframe]
    exact hwake

/-- With pacing, a new chunk may go to the end of the wheel. -/
theorem SndOk.queueChunk (hpaced : cfg.bypassPacing = false) (hwin : (queue e).length + 1 < 2 ^ 32)
    (he' : e' = accountChunk (queueOnTimingWheel (takeCsn { e with wrExPool := pool } ()) ()
      m.send (nextWr cfg e m w))
      () m.send (admitted cfg e m.send)) :
    SndOk cfg e' (log ++ [nextChunk cfg e m]) ∧ Quiet e e' := by
  obtain ⟨hchunks, hqueued, hwake⟩ := h.grow (nextChunk cfg e m)
  have hholds := holds_fillMessageWr cfg h.sent h.tracked.nxt
    (h.pool w (hpool ▸ mem_cons_self)) hrid w.qpidx
  have hflow := flows_accountChunk_self (queueOnTimingWheel
    (takeCsn { e with wrExPool := pool } ()) () m.send (nextWr cfg e m w)) () m.send (admitted cfg e m.send)
  rw [← he', flows_queueOnTimingWheel_self, flows_takeCsn_self] at hflow
  have hqueue : queue e' = queue e ++ [{ nextWr cfg e m w with ureq := m.send }] := by
    rw [he']
    exact (append_assoc ..).symm
  have hquiet : Quiet e e' := by
    refine ⟨?_, ?_, ?_⟩
    · rw [he']; rfl
    · rw [hflow]
    · rw [hflow]
  have htx := hquiet.transmitted
  have htotal := h.total
  have hlen : (queue e').length = (queue e).length + 1 := by
    rw [hqueue, length_append, length_singleton]
  refine ⟨⟨?_, ?_, ?_, ?_, ?_, ?_, ?_, ?_, ?_⟩, hquiet⟩
  · have htake := h.tracked.takeCsn
    rw [htx, hflow]
    exact { htake with }
  · rw [hflow, length_append]
    rw [h.sent]; rfl
  · rw [length_append, length_singleton]
    omega
  · rw [hpaced]; exact nofun
  · rw [hflow, hlen]
    rw [h.wheelCnt, addU32_of_lt hwin]
  · rw [hflow]; exact hchunks
  · rw [htx, hqueue]
    refine numbered_append.mpr ⟨hqueued, ?_, trivial⟩
    rw [htotal]
    exact ⟨nextChunk cfg e m, getElem?_concat_length, { hholds with }, rfl⟩
  · rw [he']
    intro v hv
    exact h.pool v (hpool ▸ mem_cons_of_mem _ hv)
  · rw [he']
    exact hwake

/-- **ONE NEW CHUNK**: it is transmitted at once or waits in the wheel; either way the log gets longer by it. -/
theorem SndOk.place (hwin : (queue e).length + 1 < 2 ^ 32) (c : TxChoice)
    (he' : e' = accountChunk (placeChunk cfg e m.send c w pool) () m.send (admitted cfg e m.send)) :
    SndOk cfg e' (log ++ [nextChunk cfg e m]) ∧
    (Transmits (log ++ [nextChunk cfg e m]) e e' ∨ Quiet e e') := by
  unfold placeChunk at he'
  dsimp only at he'
  split at he'
  · next hnow =>
    have hempty : queue e = [] := by
      rcases Bool.or_eq_true_iff.mp hnow with hb | hq
      · exact h.bypass hb
      · -- a chunk may pass the wheel only while `in_wheel_cnt_` is 0
        refine eq_nil_of_length_eq_zero (h.wheelCnt.symm.trans ?_)
        by_contra hcnt
        rw [eventOnQueueData, if_neg hcnt] at hq
        cases hq
    obtain ⟨hok, hsends⟩ := h.transmitNow hpool hrid hempty c he'
    exact ⟨hok, .inl hsends⟩
  · next hlater =>
    have hpaced : cfg.bypassPacing = false := by
      by_contra hb
      exact hlater (Bool.or_eq_true_iff.mpr (.inl (Bool.not_eq_false _ ▸ hb)))
    obtain ⟨hok, hquiet⟩ := h.queueChunk hpool hrid hpaced hwin he'
    exact ⟨hok, .inr hquiet⟩

end

end

end

end

end

-- ── Requests being cut

/-- **THE REQUESTS**: the log is well cut; a finished message carries its request's length; the engine works
    on exactly the messages that are still open, and their requests are at the offset the log says. -/
structure CutOk (lens : ReqId → ℕ) (ureqs : ReqId → UcclRequest Unit)
    (log : List (Chunk Message)) (msgs pending : List Message) : Prop where
  len : ∀ id, (ureqs id).dataLen = lens id
  wellCut : WellCut log
  sized : ∀ c ∈ log, c.last = true → bytes log c.msg = lens c.msg.send
  started : ∀ c ∈ log, c.msg ∈ msgs
  sends : (msgs.map send).Nodup
  pendingNodup : pending.Nodup
  pending_iff : ∀ m, m ∈ pending ↔ m ∈ msgs ∧ Open log m
  rid : ∀ m ∈ pending, (ureqs m.send).rid = m.rid
  offset : ∀ m ∈ pending, (ureqs m.send).sentOffset = bytes log m
  left : ∀ m ∈ pending, bytes log m ≤ lens m.send ∧ (bytes log m = lens m.send → lens m.send = 0)

section

variable {lens : ReqId → ℕ} {ureqs : ReqId → UcclRequest Unit} {log : List (Chunk Message)}
  {msgs pending : List Message}

theorem cutOk_initial (h : ∀ id, (ureqs id).dataLen = lens id) : CutOk lens ureqs [] [] [] where
  len := h
  wellCut := List.Pairwise.nil
  sized := nofun
  started := nofun
  sends := nodup_nil
  pendingNodup := nodup_nil
  pending_iff _ := ⟨nofun, fun h => h.1⟩
  rid := nofun
  offset := nofun
  left := nofun

section

variable (h : CutOk lens ureqs log msgs pending) {ureqs' : ReqId → UcclRequest Unit}
include h

/-- Messages are told apart by their sends. -/
theorem CutOk.send_inj {m' : Message} (hm : m ∈ msgs) (hm' : m' ∈ msgs) (hsend : m.send = m'.send) : m = m' :=
  inj_on_of_nodup_map h.sends hm hm' hsend

theorem CutOk.mem_msgs (hm : m ∈ pending) : m ∈ msgs := ((h.pending_iff m).mp hm).1

/-- No message has more bytes in the log than its request. -/
theorem CutOk.bytes_le (hm : m ∈ msgs) : bytes log m ≤ lens m.send := by
  by_cases hopen : Open log m
  · exact (h.left m ((h.pending_iff m).mpr ⟨hm, hopen⟩)).1
  · unfold Open at hopen
    push Not at hopen
    obtain ⟨c, hc, rfl, hlast⟩ := hopen
    exact le_of_eq (h.sized c hc (Bool.not_eq_false _ ▸ hlast))

/-- Requests other than those being cut may change, but not in length. -/
theorem CutOk.congr (hlen : ∀ id, (ureqs' id).dataLen = (ureqs id).dataLen)
    (hsame : ∀ m ∈ msgs, (ureqs' m.send).rid = (ureqs m.send).rid ∧
      (ureqs' m.send).sentOffset = (ureqs m.send).sentOffset) : CutOk lens ureqs' log msgs pending :=
  { h with
      len := fun id => (hlen id).trans (h.len id)
      rid := fun m hm => (hsame m (h.mem_msgs hm)).1.trans (h.rid m hm)
      offset := fun m hm => (hsame m (h.mem_msgs hm)).2.trans (h.offset m hm) }

/-- A message whose send is new has no chunk yet. -/
theorem CutOk.no_chunk (hfresh : m.send ∉ msgs.map send) : ∀ c ∈ log, c.msg ≠ m := fun c hc heq =>
  hfresh (heq ▸ mem_map_of_mem (h.started c hc))

/-- A send goes to the engine. -/
theorem CutOk.start (hfresh : m.send ∉ msgs.map send) {u : UcclRequest Unit}
    (hlen : u.dataLen = lens m.send) (hrid : u.rid = m.rid) (hoff : u.sentOffset = 0) :
    CutOk lens (update ureqs m.send u) log (msgs ++ [m]) (pending ++ [m]) := by
  have hnew : ∀ m' ∈ msgs, m'.send ≠ m.send := fun m' hm' heq =>
    hfresh (heq ▸ mem_map_of_mem hm')
  have hnot : m ∉ msgs := fun hm => hnew m hm rfl
  have hchunks := h.no_chunk hfresh
  have hzero : bytes log m = 0 := bytes_eq_zero hchunks
  have hsame : ∀ m' ∈ pending, update ureqs m.send u m'.send = ureqs m'.send :=
    fun m' hm' => update_of_ne (hnew m' (h.mem_msgs hm')) ..
  have hself : update ureqs m.send u m.send = u := update_self ..
  refine ⟨fun id => ?_, h.wellCut, h.sized, fun c hc => mem_append_left _ (h.started c hc),
    ?_, ?_, fun m' => ?_, ?_, ?_, ?_⟩
  · by_cases hid : id = m.send
    · rw [hid, hself]; exact hlen
    · rw [update_of_ne hid]; exact h.len id
  · rw [map_append]
    exact nodup_snoc h.sends hfresh
  · exact nodup_snoc h.pendingNodup fun hm' => hnot (h.mem_msgs hm')
  · rw [mem_append, mem_append, mem_singleton, h.pending_iff]
    constructor
    · rintro (⟨hm', hopen⟩ | rfl)
      · exact ⟨.inl hm', hopen⟩
      · exact ⟨.inr rfl, fun c hc heq => absurd heq (hchunks c hc)⟩
    · rintro ⟨hm' | rfl, hopen⟩
      · exact .inl ⟨hm', hopen⟩
      · exact .inr rfl
  · refine forall_mem_snoc (fun m' hm' => ?_) ?_
    · rw [hsame m' hm']; exact h.rid m' hm'
    · rw [hself]; exact hrid
  · refine forall_mem_snoc (fun m' hm' => ?_) ?_
    · rw [hsame m' hm']; exact h.offset m' hm'
    · rw [hself, hoff, hzero]
  · refine forall_mem_snoc h.left ?_
    rw [hzero]
    exact ⟨Nat.zero_le _, fun heq => heq.symm⟩

/-- The next chunk of an open message: what it carries, and whether it ends it. -/
theorem CutOk.next (hm : m ∈ pending) {n : ℕ} (hn : n ≤ (ureqs m.send).dataLen - (ureqs m.send).sentOffset) :
    addU32 (ureqs m.send).sentOffset n = bytes log m + n ∧ bytes log m + n ≤ lens m.send ∧
      (isLastChunk (ureqs m.send) n = true ↔ bytes log m + n = lens m.send) := by
  have hlt := (ureqs m.send).dataLen_lt
  have hle := (h.left m hm).1
  rw [h.len] at hn hlt
  rw [h.offset m hm] at hn ⊢
  have hadd : addU32 (bytes log m) n = bytes log m + n := addU32_of_lt (by omega)
  refine ⟨hadd, by omega, ?_⟩
  unfold isLastChunk
  rw [decide_eq_true_iff, h.offset m hm, hadd, h.len]

/-- A chunk is cut from an open message. -/
theorem CutOk.cut (hm : m ∈ pending) {c : Chunk Message}
    (hmsg : c.msg = m) (hn : c.len ≤ (ureqs m.send).dataLen - (ureqs m.send).sentOffset)
    (hlast : c.last = isLastChunk (ureqs m.send) c.len) (hureqs : ureqs' = update ureqs m.send { ureqs m.send with
      sentOffset := addU32 (ureqs m.send).sentOffset c.len }) : CutOk lens ureqs' (log ++ [c]) msgs
      (if (ureqs' m.send).sentOffset < (ureqs' m.send).dataLen then pending
        else pending.erase m) := by
  obtain ⟨hadd, hle, hiff⟩ := h.next hm hn
  obtain ⟨hmsgs, hopen⟩ := (h.pending_iff m).mp hm
  have hself : ureqs' m.send = { ureqs m.send with sentOffset := bytes log m + c.len } := by
    rw [hureqs, update_self, hadd]
  have hother : ∀ m' ∈ pending, m' ≠ m → ureqs' m'.send = ureqs m'.send := by
    intro m' hm' hne
    rw [hureqs]
    exact update_of_ne (fun heq => hne (h.send_inj (h.mem_msgs hm') hmsgs heq)) ..
  have hbytes : bytes (log ++ [c]) m = bytes log m + c.len := by
    rw [bytes_append, lenFor, if_pos hmsg]
  have hbytes' : ∀ m', m' ≠ m → bytes (log ++ [c]) m' = bytes log m' := by
    intro m' hne
    rw [bytes_append, lenFor_of_ne (by rw [hmsg]; exact hne.symm), Nat.add_zero]
  -- the request is finished exactly by the last chunk
  have hpend : ∀ m', m' ∈ (if (ureqs' m.send).sentOffset < (ureqs' m.send).dataLen then pending
      else pending.erase m) ↔ m' ∈ pending ∧ (m' = m → c.last = false) := by
    intro m'
    rw [hself]
    dsimp only
    rw [h.len]
    by_cases hb : c.last = true
    · have hend : bytes log m + c.len = lens m.send := hiff.mp (hlast.symm.trans hb)
      rw [if_neg (by omega), h.pendingNodup.mem_erase_iff, hb]
      constructor
      · rintro ⟨hne, hp⟩
        exact ⟨hp, fun heq => absurd heq hne⟩
      · rintro ⟨hp, himp⟩
        exact ⟨fun heq => Bool.noConfusion (himp heq), hp⟩
    · have hnot : ¬ bytes log m + c.len = lens m.send :=
        fun heq => hb (hlast.trans (hiff.mpr heq))
      rw [if_pos (by omega)]
      exact ⟨fun hp => ⟨hp, fun _ => Bool.eq_false_iff.mpr hb⟩, fun hp => hp.1⟩
  refine ⟨fun id => ?_, h.wellCut.append (hmsg ▸ hopen), ?_, ?_, h.sends, ?_, fun m' => ?_, ?_, ?_, ?_⟩
  · by_cases hid : id = m.send
    · rw [hid, hself]; exact h.len m.send
    · rw [hureqs, update_of_ne hid]; exact h.len id
  · refine forall_mem_snoc (fun d hd hdl => ?_) ?_
    · have hne : d.msg ≠ m := by
        intro heq
        rw [hopen d hd heq] at hdl
        cases hdl
      rw [hbytes' _ hne]
      exact h.sized d hd hdl
    · intro hb
      rw [hmsg, hbytes]
      exact hiff.mp (hlast.symm.trans hb)
  · refine forall_mem_snoc h.started ?_
    rw [hmsg]
    exact hmsgs
  · split
    · exact h.pendingNodup
    · exact h.pendingNodup.erase m
  · rw [hpend, h.pending_iff, open_append, hmsg, and_assoc]
    exact and_congr_right fun _ => and_congr_right fun _ => imp_congr_left eq_comm
  · intro m' hm'
    obtain ⟨hp, -⟩ := (hpend m').mp hm'
    by_cases hne : m' = m
    · rw [hne, hself]; exact h.rid m hm
    · rw [hother m' hp hne]; exact h.rid m' hp
  · intro m' hm'
    obtain ⟨hp, -⟩ := (hpend m').mp hm'
    by_cases hne : m' = m
    · rw [hne, hself, hbytes]
    · rw [hother m' hp hne, hbytes' m' hne]; exact h.offset m' hp
  · intro m' hm'
    obtain ⟨hp, hopen'⟩ := (hpend m').mp hm'
    by_cases hne : m' = m
    · rw [hne, hbytes]
      refine ⟨hle, fun heq => ?_⟩
      have hb := hlast.trans (hiff.mpr heq)
      rw [hopen' hne] at hb
      cases hb
    · rw [hbytes' m' hne]; exact h.left m' hp

end

end

-- ── What is in flight

/-- A work request in flight is the original of a transmitted chunk or a copy of it. -/
structure OnWire (log : List (Chunk Message)) (tx : ℕ) (p : Post Unit) : Prop where
  lt : p.seq < tx
  chunk : ∃ c, log[p.seq]? = some c ∧ p.imm.csn = csnOf p.seq ∧ p.imm.rid = c.msg.rid ∧
    p.imm.lastChunk = c.last ∧
    (p.opcode = .RDMA_WRITE_WITH_IMM ∧ p.byteLen = c.len ∨
      p.opcode = .SEND ∧ p.byteLen = retrChunkHdrSize + c.len)

/-- Of two work requests for one chunk the later is a copy, and if the earlier is the
    original the copy follows it on the same QP. -/
def Follows (p p' : Post Unit) : Prop :=
  p.seq = p'.seq → p'.opcode = .SEND ∧ (p.opcode = .RDMA_WRITE_WITH_IMM → p.qpidx = p'.qpidx)

/-- **THE WIRE**: an original in flight is followed by its copies, on its own QP; so it
    arrives before any of them, and its chunk is not accepted yet. -/
structure WireOk (log : List (Chunk Message)) (tx : ℕ) (unacked : List (ChunkTrack Unit))
    (accepted : List ℕ) (wire : List (Post Unit)) : Prop where
  posts : ∀ p ∈ wire, OnWire log tx p
  order : wire.Pairwise Follows
  original : ∀ p ∈ wire, p.opcode = .RDMA_WRITE_WITH_IMM → p.seq ∉ accepted
  path : ∀ p ∈ wire, p.opcode = .RDMA_WRITE_WITH_IMM → ∀ t ∈ unacked, t.wrEx.seq = p.seq →
    t.wrEx.qpidx = p.qpidx

section

variable {log : List (Chunk Message)} {tx q : ℕ} {unacked : List (ChunkTrack Unit)}
  {accepted : List ℕ} {wire : List (Post Unit)} {p : Post Unit}

theorem OnWire.append (h : OnWire log tx p) {tx' : ℕ} (htx : tx ≤ tx')
    (c : Chunk Message) : OnWire (log ++ [c]) tx' p := by
  obtain ⟨d, hd, hrest⟩ := h.chunk
  exact ⟨Nat.lt_of_lt_of_le h.lt htx, d, getElem?_append_some hd _, hrest⟩

theorem wireOk_nil (log : List (Chunk Message)) (tx : ℕ) (unacked : List (ChunkTrack Unit))
    (accepted : List ℕ) : WireOk log tx unacked accepted [] :=
  ⟨nofun, List.Pairwise.nil, nofun, nofun⟩

section

variable (h : WireOk log tx unacked accepted wire)
include h

/-- Chunks may get lost. -/
theorem WireOk.sublist {wire' : List (Post Unit)} (hs : wire'.Sublist wire) : WireOk log tx unacked accepted wire' :=
  ⟨fun p hp => h.posts p (hs.subset hp), h.order.sublist hs,
    fun p hp => h.original p (hs.subset hp), fun p hp => h.path p (hs.subset hp)⟩

/-- The log grows. -/
theorem WireOk.append (c : Chunk Message) : WireOk (log ++ [c]) tx unacked accepted wire :=
  { h with posts := fun p hp => (h.posts p hp).append le_rfl c }

/-- Tracked chunks are sent again. -/
theorem WireOk.resend {ps : List (Post Unit)} (hsends : ∀ p ∈ ps, ∃ t ∈ unacked, p = rtxPost t.wrEx)
    (htracked : ∀ t ∈ unacked, ∃ k < tx, TrackedChunk log k t)
    {unacked' : List (ChunkTrack Unit)} (hsub : unacked' ⊆ unacked) : WireOk log tx unacked' accepted (wire ++ ps) := by
  have hcopy : ∀ p ∈ ps, p.opcode = .SEND := by
    intro p hp
    obtain ⟨t, -, rfl⟩ := hsends p hp
    rfl
  have horig : ∀ p ∈ ps, p.opcode ≠ .RDMA_WRITE_WITH_IMM := by
    intro p hp
    rw [hcopy p hp]
    exact nofun
  refine ⟨forall_mem_append.mpr ⟨h.posts, fun p hp => ?_⟩,
    pairwise_append.mpr ⟨h.order, ?_, fun p hp p' hp' heq => ⟨hcopy p' hp', fun ho => ?_⟩⟩,
    forall_mem_append.mpr ⟨h.original, fun p hp ho => absurd ho (horig p hp)⟩,
    forall_mem_append.mpr ⟨fun p hp ho t ht => h.path p hp ho t (hsub ht), fun p hp ho => absurd ho (horig p hp)⟩⟩
  · obtain ⟨t, ht, rfl⟩ := hsends p hp
    obtain ⟨k, hk, c, hc, hholds, -⟩ := htracked t ht
    have hseq : (rtxPost t.wrEx).seq = k := hholds.seq
    refine ⟨by rw [hseq]; exact hk, c, by rw [hseq]; exact hc, ?_, hholds.rid, hholds.last,
      .inr ⟨rfl, congrArg _ hholds.len⟩⟩
    rw [hseq]
    exact hholds.csn
  · refine pairwise_of_forall_mem_list fun p hp p' hp' _ => ⟨hcopy p' hp', fun ho => ?_⟩
    exact absurd ho (horig p hp)
  · obtain ⟨t, ht, rfl⟩ := hsends p' hp'
    exact (h.path p hp ho t ht heq.symm).symm

/-- The next chunk is posted for the first time. -/
theorem WireOk.send {t : ChunkTrack Unit} (ht : TrackedChunk log tx t) (hacc : tx ∉ accepted)
    (htracked : ∀ t ∈ unacked, ∃ k < tx, TrackedChunk log k t) (user : TxUser) :
    WireOk log (tx + 1) (unacked ++ [t]) accepted (wire ++ [postOf user t.wrEx]) := by
  obtain ⟨c, hc, hholds, -⟩ := ht
  have hseq : (postOf user t.wrEx).seq = tx := hholds.seq
  have hold : ∀ p ∈ wire, p.seq ≠ tx := fun p hp => Nat.ne_of_lt (h.posts p hp).lt
  refine ⟨forall_mem_snoc (fun p hp => ?_) ?_,
    pairwise_append.mpr ⟨h.order, pairwise_singleton _ _, fun p hp p' hp' heq => ?_⟩,
    forall_mem_snoc h.original fun _ => ?_,
    forall_mem_snoc (fun p hp ho => ?_) fun _ => ?_⟩
  · exact ⟨Nat.lt_succ_of_lt (h.posts p hp).lt, (h.posts p hp).chunk⟩
  · refine ⟨by rw [hseq]; exact Nat.lt_succ_self tx, c, by rw [hseq]; exact hc, ?_, hholds.rid,
      hholds.last, .inl ⟨hholds.opcode, hholds.len⟩⟩
    rw [hseq]
    exact hholds.csn
  · rw [mem_singleton.mp hp', hseq] at heq
    exact absurd heq (hold p hp)
  · rw [hseq]
    exact hacc
  · refine forall_mem_snoc (h.path p hp ho) ?_
    intro heq
    exact absurd (heq.symm.trans hholds.seq) (hold p hp)
  · refine forall_mem_snoc (fun t' ht' heq => ?_) ?_
    · obtain ⟨k, hk, d, -, hholds', -⟩ := htracked t' ht'
      have : k = tx := hholds'.seq.symm.trans (heq.trans hseq)
      omega
    · exact fun _ => rfl

end

/-- What a QP delivers is the first in flight on it; the rest stays. -/
theorem wire_split (hfind : wire.find? (fun p => decide (p.qpidx = q)) = some p) :
    ∃ pre post, wire = pre ++ p :: post ∧ p.qpidx = q ∧ (∀ p' ∈ pre, ¬ p'.qpidx = q) ∧
      wire.eraseP (fun p => decide (p.qpidx = q)) = pre ++ post := by
  obtain ⟨hq, pre, post, hwire, hpre⟩ := find?_eq_some_iff_append.mp hfind
  have hpre' : ∀ p' ∈ pre, ¬ p'.qpidx = q := by
    intro p' hp'
    have := hpre p' hp'
    rwa [Bool.not_eq_true', decide_eq_false_iff_not] at this
  refine ⟨pre, post, hwire, of_decide_eq_true hq, hpre', ?_⟩
  rw [hwire, eraseP_append_right _ (fun p' hp' => by simpa using hpre' p' hp'),
    eraseP_cons_of_pos (p := fun p : Post Unit => decide (p.qpidx = q)) hq]

/-- A QP delivers its oldest chunk: no original of that chunk is left in flight. -/
theorem WireOk.deliver (h : WireOk log tx unacked accepted wire)
    (hfind : wire.find? (fun p => decide (p.qpidx = q)) = some p) :
    ∀ p' ∈ wire.eraseP fun p => decide (p.qpidx = q), p'.opcode = .RDMA_WRITE_WITH_IMM → p'.seq ≠ p.seq := by
  obtain ⟨pre, post, hwire, hq, hpre, herase⟩ := wire_split hfind
  have horder := h.order
  rw [hwire] at horder
  obtain ⟨-, hpost, hcross⟩ := pairwise_append.mp horder
  rw [herase]
  refine forall_mem_append.mpr ⟨fun p' hp' ho heq => ?_, fun p' hp' ho heq => ?_⟩
  · -- an original before `p` would be on the same QP, and older
    have hsame := (hcross p' hp' p (mem_cons_self) heq).2 ho
    exact hpre p' hp' (hsame.trans hq)
  · have hcopy := ((pairwise_cons.mp hpost).1 p' hp' heq.symm).1
    rw [ho] at hcopy
    cases hcopy

/-- The receiver accepted a chunk whose original is not in flight. -/
theorem WireOk.accept (h : WireOk log tx unacked accepted wire) {accepted' : List ℕ} {k : ℕ}
    (hacc : ∀ j ∈ accepted', j ∈ accepted ∨ j = k) (hk : ∀ p ∈ wire, p.opcode = .RDMA_WRITE_WITH_IMM → p.seq ≠ k) :
    WireOk log tx unacked accepted' wire := by
  refine { h with original := fun p hp ho hmem => ?_ }
  rcases hacc p.seq hmem with hold | hnew
  · exact h.original p hp ho hold
  · exact hk p hp ho hnew

end

end RdmaChannel
