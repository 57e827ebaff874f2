import Uccl.RdmaReceiveProofs
import Uccl.ReceiveWindowProofs
import Uccl.StepRunProofs

/-! # Reassembly at the receiver

    Three representations of one set of chunks: the SACK bitmap, its 8-bit count and `ready_csn_`, a set
    ordered by a comparison that is not transitive on the whole number space. The abstract object they all
    represent is a strictly increasing list of OFFSETS from `rcv_nxt`, each below 128 (`Reassembled`).

    Accepting a chunk inserts its offset, advancing `rcv_nxt` drops offset 0 and lowers the others by one.
    Both facts are proved on the four fields alone; the receive routines then need no more than the two. -/

namespace RdmaReassembly

open RdmaPcb RdmaImm RdmaState RdmaReceive WordBitmap ReceiveWindow StepRun List Except ReceiverCtx

variable {F : Type} [DecidableEq F]
variable {cfg : Config} {e e' : ReceiverCtx F} {f : F} {c : RxChunk} {sf : SubUcclFlow F} {L : Offsets}

/-- An offset from `rcv_nxt` with the request to complete there. -/
abbrev Offsets := List (ℕ × Option (Fin 16))

/-- The bitmap, the count and `ready_csn_` all represent the offsets `L`. -/
abbrev Reassembled (rcvNxt : UintCsn) (bitmap : SackBitmap) (count : BitVec 8)
    (ready : List (UintCsn × Option (Fin 16))) (L : Offsets) : Prop :=
  Window rcvNxt bitmap count ready L

theorem reassembled_empty : Reassembled 0 empty 0 [] [] := window_empty (by decide) 0

/-- Offsets from one base compare as numbers do. -/
theorem readyLt_entryAt (r : UintCsn) {x y : ℕ × Option (Fin 16)} (hx : x.1 < 128) (hy : y.1 < 128) (hne : x.1 ≠ y.1) :
    readyLt (entryAt r x) (entryAt r y) = OrderedSet.keyLt x y := by
  unfold readyLt entryAt OrderedSet.keyLt
  rw [seqnoLt_add_offsets r hx hy, seqnoLt_add_offsets r hy hx]
  rcases Nat.lt_or_gt_of_ne hne with hlt | hgt
  · rw [decide_eq_true hlt, Bool.true_or]
  · rw [decide_eq_true hgt, decide_eq_false (Nat.lt_asymm hgt)]
    rfl

section

variable {r : UintCsn} {b : SackBitmap} {c : BitVec 8} {ready : List (UintCsn × Option (Fin 16))} {L : Offsets}

/-- **ACCEPTING A CHUNK**: a clear bit is set, counted and inserted. -/
theorem Reassembled.accept (h : Reassembled r b c ready L) {i : ℕ} (hi : i < 128) (hclear : testBit b i = false)
    (p : Option (Fin 16)) : Reassembled r (setBit b i) (c + 1) (OrderedSet.insert readyLt (entryAt r (i, p)) ready)
      (OrderedSet.insert OrderedSet.keyLt (i, p) L) :=
  Window.accept h (by decide) hi hclear p fun _ _ hx hy => readyLt_entryAt r hx hy

/-- **ADVANCING**: offset 0 leaves, the others come one closer. -/
theorem Reassembled.advance {p : Option (Fin 16)} (h : Reassembled r b c ((r, p) :: ready) L) :
    ∃ L', L = (0, p) :: L' ∧ (∀ x ∈ L', 0 < x.1) ∧ Reassembled (r + 1) (shiftDown b) (c - 1) ready (L'.map lower) :=
  Window.advance h (by decide) (by decide)

end

-- ── One subflow

/-- A subflow's reassembly state represents `L`. -/
def ReassembledAt (sf : SubUcclFlow F) (L : Offsets) : Prop :=
  Reassembled sf.pcb.rcvNxt sf.pcb.sackBitmap sf.pcb.sackBitmapCount
    sf.rxtracking.readyCsn L

omit [DecidableEq F] in
/-- Once caught up, every offset is positive. -/
theorem ReassembledAt.pos (h : ReassembledAt sf L) (hc : CaughtUp sf) : ∀ x ∈ L, 0 < x.1 := Window.pos h hc

/-- Between deliveries: reassembled, with nothing at `rcv_nxt` itself. -/
def Settled (sf : SubUcclFlow F) : Prop := ∃ L, ReassembledAt sf L ∧ ∀ x ∈ L, 0 < x.1

omit [DecidableEq F] in
theorem Settled.of_eq {sf' : SubUcclFlow F} (h : Settled sf)
    (hpcb : sf'.pcb.rcvNxt = sf.pcb.rcvNxt ∧ sf'.pcb.sackBitmap = sf.pcb.sackBitmap ∧
      sf'.pcb.sackBitmapCount = sf.pcb.sackBitmapCount)
    (hready : sf'.rxtracking.readyCsn = sf.rxtracking.readyCsn) : Settled sf' := by
  obtain ⟨L, hL, hpos⟩ := h
  refine ⟨L, ?_, hpos⟩
  unfold ReassembledAt
  rw [hpcb.1, hpcb.2.1, hpcb.2.2, hready]
  exact hL

-- ── The receive routines

/-- Catching up settles the subflow and leaves the others alone. -/
theorem settled_tryUpdateCsn (hUC : cfg.rcMode = false) (hL : ReassembledAt (e.flows f) L) (h : tryUpdateCsn cfg e f = .ok e') :
    Settled (e'.flows f) ∧ ∀ g, g ≠ f → e'.flows g = e.flows g := by
  obtain ⟨⟨⟨L', hL'⟩, hother⟩, hcaught⟩ := tryUpdateCsn_rule
    (I := fun e1 => (∃ L, ReassembledAt (e1.flows f) L) ∧ ∀ g, g ≠ f → e1.flows g = e.flows g)
    (fun e1 e2 req rest hi hready hfin => by
      obtain ⟨⟨L, hL⟩, hother⟩ := hi
      obtain ⟨⟨reqs, hself⟩, hfin'⟩ := finishEntry_flows hfin
      unfold ReassembledAt at hL
      rw [hready] at hL
      obtain ⟨L', -, -, hadv⟩ := hL.advance
      refine ⟨⟨L'.map lower, ?_⟩, fun g hg => ?_⟩
      · unfold ReassembledAt popReady
        rw [modFlow_flows_self, hself, hUC]
        exact hadv
      · unfold popReady
        rw [modFlow_flows_of_ne _ hg, hfin' g hg, hother g hg])
    ⟨⟨L, hL⟩, fun _ _ => rfl⟩ h
  exact ⟨⟨L', hL', hL'.pos hcaught⟩, hother⟩

/-- A CSN is its distance past `rcv_nxt`. -/
theorem add_distance (r csn : UintCsn) : r + BitVec.ofNat 8 (csn - r).toNat = csn := by
  rw [BitVec.ofNat_toNat, BitVec.setWidth_eq, add_sub_cancel]

/-- Taking an admitted chunk settles the subflow. -/
theorem settled_takeChunk (hUC : cfg.rcMode = false) {id : ReqId} {len : ℕ} (hs : ∀ g, Settled (e.flows g))
    (hlt : seqnoLt c.imm.csn (e.flows f).pcb.rcvNxt = false)
    (hclear : (e.flows f).pcb.sackBitmapBitIsSet (c.imm.csn - (e.flows f).pcb.rcvNxt).toNat = false)
    (h : takeChunk cfg e f id c len (c.imm.csn - (e.flows f).pcb.rcvNxt).toNat = .ok e') (g : F) :
    Settled (e'.flows g) := by
  obtain ⟨L, hL, -⟩ := hs f
  have hdist := distance_lt_of_not_seqnoLt hlt
  rw [takeChunk_of_lt cfg e f id c len hdist] at h
  have hacc := hL.accept hdist hclear (if c.imm.lastChunk then some c.imm.rid else none)
  have hentry : entryAt (e.flows f).pcb.rcvNxt ((c.imm.csn - (e.flows f).pcb.rcvNxt).toNat,
        if c.imm.lastChunk then some c.imm.rid else none)
      = (c.imm.csn, if c.imm.lastChunk then some c.imm.rid else none) :=
    Prod.ext (add_distance _ _) rfl
  rw [hentry] at hacc
  obtain ⟨hset, hother⟩ := settled_tryUpdateCsn hUC (L := _) (by
    unfold ReassembledAt acceptChunk
    rw [modFlow_flows_self, modFlow_flows_self]
    exact hacc) h
  by_cases hg : g = f
  · rw [hg]
    exact hset
  · rw [hother g hg]
    unfold acceptChunk
    rw [modFlow_flows_of_ne _ hg, modFlow_flows_of_ne _ hg]
    exact hs g

/-- A change of one subflow outside its reassembly state. -/
theorem settled_modFlow {k : SubUcclFlow F → SubUcclFlow F} (h : ∀ g, Settled (e.flows g))
    (hk : Settled (k (e.flows f))) (g : F) : Settled ((e.modFlow f k).flows g) := by
  by_cases hg : g = f
  · rw [hg, modFlow_flows_self]
    exact hk
  · rw [modFlow_flows_of_ne _ hg]
    exact h g

/-- ACK bookkeeping does not touch reassembly. -/
theorem settled_queueAck (h : ∀ g, Settled (e.flows g)) (f : F) (path : ℕ) (g : F) :
    Settled ((queueAck e f path).flows g) :=
  settled_modFlow (k := fun sf => { sf with nextAckPath := path }) h ((h f).of_eq ⟨rfl, rfl, rfl⟩ rfl) g

theorem readyCsn_encounterOoo (t : RXTracking) : (RXTracking.encounterOoo t).readyCsn = t.readyCsn := by
  unfold RXTracking.encounterOoo
  split <;> rfl

theorem readyCsn_noteArrival (t : RXTracking) (inOrder : Bool) (bytes : ℕ) :
    (RXTracking.noteArrival t inOrder bytes).readyCsn = t.readyCsn := by
  cases inOrder with
  | true => rfl
  | false => exact readyCsn_encounterOoo t

theorem settled_ackArrival {inOrder : Bool} (h : ∀ g, Settled (e.flows g)) (g : F) :
    Settled ((ackArrival cfg e f inOrder c).flows g) := by
  have hnote := settled_modFlow (f := f)
    (k := fun sf => { sf with rxtracking := RXTracking.noteArrival sf.rxtracking inOrder c.byteLen })
    h ((h f).of_eq ⟨rfl, rfl, rfl⟩ (readyCsn_noteArrival ..))
  have hqueue := settled_queueAck hnote f (c.qpidx % 2 ^ 16)
  unfold ackArrival
  dsimp only
  split
  · exact settled_modFlow (e := postAck _ f) (f := f)
      (k := fun sf => { sf with rxtracking := RXTracking.clearImmAck sf.rxtracking })
      hqueue ((hqueue f).of_eq ⟨rfl, rfl, rfl⟩ rfl) g
  · exact hqueue g

theorem settled_ucRxChunk (hUC : cfg.rcMode = false)
    (hs : ∀ g, Settled (e.flows g)) (h : ucRxChunk cfg e c = .ok e') (g : F) : Settled (e'.flows g) := by
  rcases ucRxChunk_cases cfg e c rfl with hr | hr | hr | ⟨id, e1, hadm, htake, hr⟩
  · rw [← ok.inj (hr.symm.trans h)]
    exact settled_modFlow hs ((hs _).of_eq ⟨rfl, rfl, rfl⟩ rfl) g
  · cases hr.symm.trans h
  · cases hr.symm.trans h
  · rw [← ok.inj (hr.symm.trans h)]
    exact settled_ackArrival (settled_takeChunk hUC hs hadm.notBehind hadm.clear htake) g

theorem settled_ucRxRtxChunk (hUC : cfg.rcMode = false)
    (hs : ∀ g, Settled (e.flows g)) (h : ucRxRtxChunk cfg e c = .ok e') (g : F) : Settled (e'.flows g) := by
  rcases ucRxRtxChunk_cases cfg e c rfl with hr | ⟨hr, -⟩ | ⟨id, e1, hadm, htake, hr⟩
  · rw [← ok.inj (hr.symm.trans h)]
    exact settled_modFlow hs ((hs _).of_eq ⟨rfl, rfl, rfl⟩ rfl) g
  · cases hr.symm.trans h
  · -- the statistics counter does not disturb what admission looked at
    have hcount : ∀ k, Settled ((countAcceptRetr e (e.receiverFlowTbl (IMMData.getFID c.imm))).flows k) :=
      settled_modFlow hs ((hs _).of_eq ⟨rfl, rfl, rfl⟩ rfl)
    have hpcb : (countAcceptRetr e (e.receiverFlowTbl (IMMData.getFID c.imm))).flows
        (e.receiverFlowTbl (IMMData.getFID c.imm)) = _ := modFlow_flows_self ..
    have htaken := settled_takeChunk hUC (c := c) hcount (by rw [hpcb]; exact hadm.notBehind)
      (by rw [hpcb]; exact hadm.clear) (by rw [hpcb]; exact htake)
    rw [← ok.inj (hr.symm.trans h)]
    exact settled_queueAck htaken _ _ g

-- ── Runs of a receiver

/-- What can happen at a receiver. -/
inductive RxAction where
  | chunk (c : RxChunk)
  | rtxChunk (c : RxChunk)
  | supply (id : ReqId)
  | postAcks

/-- One step of a receiver in UC mode. -/
def rxStep (cfg : Config) (e : ReceiverCtx F) : RxAction → Except Fault (ReceiverCtx F)
  | .chunk c => ucRxChunk cfg e c
  | .rtxChunk c => ucRxRtxChunk cfg e c
  | .supply id => .ok (supplyRxBuff e id).1
  | .postAcks => .ok (ucPostAcks e)

theorem settled_rxStep (hUC : cfg.rcMode = false) {a : RxAction}
    (hs : ∀ g, Settled (e.flows g)) (h : rxStep cfg e a = .ok e') : ∀ g, Settled (e'.flows g) := by
  cases a with
  | chunk c => exact settled_ucRxChunk hUC hs h
  | rtxChunk c => exact settled_ucRxRtxChunk hUC hs h
  | supply id =>
    cases h
    unfold supplyRxBuff
    dsimp only
    split
    · exact hs
    · dsimp only
      refine settled_modFlow hs ?_
      exact (hs (e.ureqs id).context).of_eq ⟨rfl, rfl, rfl⟩ rfl
  | postAcks =>
    intro g
    rw [← ok.inj h, ucPostAcks_eq]
    exact hs g

/-- No step raises the fatal check of `sack_bitmap_bit_set`, from any state. -/
theorem rxStep_ne_sackIndex (cfg : Config) (e : ReceiverCtx F) (a : RxAction) :
    rxStep cfg e a ≠ .error .sackIndexOutOfBounds := by
  intro h
  cases a with
  | chunk c =>
    rcases ucRxChunk_cases cfg e c rfl with hr | hr | hr | ⟨id, e1, -, -, hr⟩ <;>
      cases hr.symm.trans h
  | rtxChunk c =>
    rcases ucRxRtxChunk_cases cfg e c rfl with hr | ⟨hr, -⟩ | ⟨id, e1, -, -, hr⟩ <;>
      cases hr.symm.trans h
  | supply id | postAcks => cases h

/-- The agreement of bitmap, count and `ready_csn_`, in the source's own terms. -/
structure ReassemblyOk (sf : SubUcclFlow F) : Prop where
  /-- Bit `i` is set exactly when CSN `rcv_nxt + i` is ready. -/
  bits : ∀ i, i < kSackBitmapSize → (sf.pcb.sackBitmapBitIsSet i = true ↔
    ∃ req, (sf.pcb.rcvNxt + BitVec.ofNat 8 i, req) ∈ sf.rxtracking.readyCsn)
  /-- No ready CSN lies outside the bitmap. -/
  window : ∀ x ∈ sf.rxtracking.readyCsn, (x.1 - sf.pcb.rcvNxt).toNat < kSackBitmapSize
  count : sf.pcb.sackBitmapCount.toNat = popCount sf.pcb.sackBitmap
  bitZero : sf.pcb.sackBitmapBitIsSet 0 = false
  unique : (sf.rxtracking.readyCsn.map Prod.fst).Nodup
  /-- The first entry precedes every other in the modular order, and no CSN between `rcv_nxt` and it has arrived. -/
  minimum : ∀ x rest, sf.rxtracking.readyCsn = x :: rest →
    (∀ y ∈ rest, seqnoLt x.1 y.1 = true) ∧
    sf.pcb.sackBitmapBitIsSet (x.1 - sf.pcb.rcvNxt).toNat = true ∧
    ∀ j, j < (x.1 - sf.pcb.rcvNxt).toNat → sf.pcb.sackBitmapBitIsSet j = false

omit [DecidableEq F] in
/-- The abstract list of offsets gives every part of the agreement. -/
theorem Settled.reassemblyOk (h : Settled sf) : ReassemblyOk sf := by
  obtain ⟨L, hL, hpos⟩ := h
  have hbits : ∀ i, i < 128 → (sf.pcb.sackBitmapBitIsSet i = true ↔ ∃ p, (i, p) ∈ L) := hL.bits
  have hwin : Reassembled sf.pcb.rcvNxt sf.pcb.sackBitmap sf.pcb.sackBitmapCount sf.rxtracking.readyCsn L := hL
  refine ⟨fun i hi => hwin.bit_iff (by decide) hi, hwin.distance_lt (by decide), ?_, ?_, ?_, ?_⟩
  · rw [hwin.count_toNat, Nat.mod_eq_of_lt]
    exact (popCount_le _).trans_lt (by decide)
  · refine Bool.eq_false_iff.mpr fun hset => ?_
    obtain ⟨p, hp⟩ := (hbits 0 (by decide)).mp hset
    exact Nat.lt_irrefl 0 (hpos _ hp)
  · rw [hL.entries, map_map]
    refine pairwise_map.mpr (hL.sorted.imp_of_mem fun hx hy hlt heq => ?_)
    exact Nat.ne_of_lt hlt (offset_inj ((hL.bound _ hx).trans (by decide)) ((hL.bound _ hy).trans (by decide)) heq)
  · intro x rest hcons
    have hent := hL.entries
    rw [hcons] at hent
    cases L with
    | nil => cases hent
    | cons y L' =>
      obtain ⟨rfl, rfl⟩ := cons.inj hent
      have hy := hL.bound y (mem_cons_self)
      obtain ⟨hfirst, -⟩ := pairwise_cons.mp hL.sorted
      rw [distance_entryAt _ (hy.trans (by decide))]
      refine ⟨?_, (hbits y.1 hy).mpr ⟨y.2, mem_cons_self⟩, ?_⟩
      · intro z hz
        obtain ⟨w, hw, rfl⟩ := mem_map.mp hz
        show seqnoLt (_ + _) (_ + _) = true
        rw [seqnoLt_add_offsets _ hy (hL.bound w (mem_cons_of_mem _ hw))]
        exact decide_eq_true (hfirst w hw)
      · intro j hj
        refine Bool.eq_false_iff.mpr fun hset => ?_
        obtain ⟨p, hp⟩ := (hbits j (by omega)).mp hset
        rcases mem_cons.mp hp with heq | hp
        · have : j = y.1 := congrArg Prod.fst heq
          omega
        · have : y.1 < j := hfirst _ hp
          omega

/-- **REASSEMBLY**: from empty PCBs, whatever chunks and retransmissions are delivered, the bitmap, its count and
    `ready_csn_` agree after every step, and the fatal range check never fires. -/
theorem reassembly_agrees (hUC : cfg.rcMode = false) {e₀ : ReceiverCtx F}
    (h₀ : ∀ f, (e₀.flows f).pcb = {} ∧ (e₀.flows f).rxtracking.readyCsn = []) (as : List RxAction) :
    runFrom (rxStep cfg) e₀ as ≠ .error .sackIndexOutOfBounds ∧
    ∀ e, runFrom (rxStep cfg) e₀ as = .ok e → ∀ f, ReassemblyOk (e.flows f) := by
  have hinit : ∀ f, Settled (e₀.flows f) := by
    intro f
    refine ⟨[], ?_, nofun⟩
    unfold ReassembledAt
    rw [(h₀ f).1, (h₀ f).2]
    exact reassembled_empty
  have hstep : ∀ (e : ReceiverCtx F) a e', (∀ f, Settled (e.flows f)) →
      rxStep cfg e a = .ok e' → ∀ f, Settled (e'.flows f) :=
    fun _ _ _ hs h => settled_rxStep hUC hs h
  refine ⟨runFrom_ne_error hstep (fun e a _ => rxStep_ne_sackIndex cfg e a) hinit, ?_⟩
  intro e h f
  exact (runFrom_invariant hstep hinit h f).reassemblyOk

/-- A receiver with one subflow and one receive posted in slot 0. -/
def oneRecv : ReceiverCtx Unit :=
  { flows := fun _ => { reqs := fun rid => if rid = ridZero then { type := .RECV, ureq := some 0 } else {} }
    receiverFlowTbl := fun _ => ()
    ureqs := fun _ => { context := (), dataLen := 0 } }

/-- Chunk 1 overtakes chunk 0, which comes as a retransmission. -/
def reorderedRun : List RxAction :=
  [.chunk ⟨immOf 0 true 0 1, 5, 1, 1⟩, .rtxChunk ⟨immOf 0 false 0 0, 12 + 7, 0, 0⟩, .postAcks]

/-- Both chunks are reassembled and the request completes with their bytes. -/
theorem reassembly_agrees_reordered : ∃ e, runFrom (rxStep defaultConfig) oneRecv reorderedRun = .ok e ∧
      e.completed = [⟨0, 12⟩] ∧ ReassemblyOk (e.flows ()) := by
  refine exists_run_of_eval (fun e => e.completed = [⟨0, 12⟩]) ?_
    fun e hrun he => ⟨he, (reassembly_agrees rfl (fun _ => ⟨rfl, rfl⟩) reorderedRun).2 e hrun ()⟩
  decide +kernel

end RdmaReassembly
