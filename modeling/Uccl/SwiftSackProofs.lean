import Uccl.ReceiveWindowProofs

/-! # The SACK state of a swift receiver

    `RXTracking::consume` (collective/efa/transport.cc, collective/afxdp/transport.cc) with the receiver's half of
    `swift::Pcb` (transport_cc.h). The bitmap of 1024 bits and `reass_q_` always agree; `sack_bitmap_count` is a
    `uint8_t` and counts the set bits modulo 256 (`sack_exact_iff`). -/

namespace SwiftSack

open SerialNumber WordBitmap ReceiveWindow

variable {μ : Type}

def kSackBitmapSize : ℕ := 1024

def kReassemblyMaxSeqnoDistance : ℕ := kSackBitmapSize

abbrev Seqno := BitVec 32

inductive ConsumeRet
  | oldPkt
  | oooUntrackable
  | oooTrackableDup
  | oooTrackableExpectedOrInOrder

/-- The receiving fields of `Pcb`, and the two queues of `RXTracking` that hold frames. -/
structure Rx (μ : Type) where
  rcvNxt : Seqno
  sackBitmap : Bitmap 64 16 := empty
  sackBitmapCount : BitVec 8 := 0
  reassQ : List (Seqno × μ) := []
  readyMsgQueue : List μ := []

/-- `seqno_cmp`, the order of `reass_q_`. -/
def seqnoCmp (x y : Seqno × μ) : Bool := serialLt x.1 y.1

/-- `push_inorder_msgbuf_to_app`, on the frames of `reass_q_` in their order. -/
def pushInorderMsgbufToApp (s : Rx μ) : List (Seqno × μ) → Rx μ
  | [] => { s with reassQ := [] }
  | x :: q =>
    if x.1 = s.rcvNxt then
      pushInorderMsgbufToApp { s with
        readyMsgQueue := s.readyMsgQueue ++ [x.2]
        rcvNxt := s.rcvNxt + 1
        sackBitmap := shiftDown s.sackBitmap
        sackBitmapCount := s.sackBitmapCount - 1 } q
    else { s with reassQ := x :: q }

def consume (s : Rx μ) (seqno : Seqno) (msgbuf : μ) : ConsumeRet × Rx μ :=
  if serialLt seqno s.rcvNxt then (.oldPkt, s)
  else
    let distance := (seqno - s.rcvNxt).toNat
    if kReassemblyMaxSeqnoDistance ≤ distance then (.oooUntrackable, s)
    else if seqno ≠ s.rcvNxt ∧ seqno ∈ s.reassQ.map Prod.fst then (.oooTrackableDup, s)
    else
      -- an entry of this key would stay as it is, and the bit would be counted again
      (.oooTrackableExpectedOrInOrder, pushInorderMsgbufToApp { s with
        sackBitmap := setBit s.sackBitmap distance
        sackBitmapCount := s.sackBitmapCount + 1 } (OrderedSet.insert seqnoCmp (seqno, msgbuf) s.reassQ))

/-- The packets a receiver gets, from an initial sequence number. -/
def receive (init : Seqno) (pkts : List (Seqno × μ)) : Rx μ :=
  pkts.foldl (fun s p => (consume s p.1 p.2).2) { rcvNxt := init }

/-- Bitmap, count and `reass_q_` say the same. -/
structure SackExact (s : Rx μ) : Prop where
  bits : ∀ i, i < kSackBitmapSize →
    (testBit s.sackBitmap i = true ↔ ∃ m, (s.rcvNxt + BitVec.ofNat 32 i, m) ∈ s.reassQ)
  count : s.sackBitmapCount.toNat = popCount s.sackBitmap

-- ── One packet

variable {s : Rx μ} {q : List (Seqno × μ)}

/-- The window is represented, and nothing is left to deliver. -/
def Inv (s : Rx μ) : Prop :=
  ∃ L, Window s.rcvNxt s.sackBitmap s.sackBitmapCount s.reassQ L ∧ ∀ x ∈ L, 0 < x.1

theorem push_inv {L : List (ℕ × μ)}
    (h : Window s.rcvNxt s.sackBitmap s.sackBitmapCount q L) : Inv (pushInorderMsgbufToApp s q) := by
  induction q generalizing s L with
  | nil => exact ⟨L, h, h.pos nofun⟩
  | cons x q ih =>
    obtain ⟨a, m⟩ := x
    unfold pushInorderMsgbufToApp
    split
    · next heq =>
      rw [show a = s.rcvNxt from heq] at h
      obtain ⟨L', -, -, h'⟩ := h.advance (by decide) (by decide)
      exact ih h'
    · next hne =>
      refine ⟨L, h, h.pos fun a' m' rest heq => ?_⟩
      cases heq
      exact hne

theorem consume_inv (h : Inv s) (seqno : Seqno) (m : μ) : Inv (consume s seqno m).2 := by
  unfold consume
  split
  · exact h
  dsimp only
  split
  · exact h
  next hnear =>
  split
  · exact h
  next hnew =>
  obtain ⟨L, hwin, hpos⟩ := h
  have hd : (seqno - s.rcvNxt).toNat < 64 * 16 := Nat.not_le.mp hnear
  have hseq : s.rcvNxt + BitVec.ofNat 32 (seqno - s.rcvNxt).toNat = seqno := by
    rw [BitVec.ofNat_toNat, BitVec.setWidth_eq, add_sub_cancel]
  have hclear : testBit s.sackBitmap (seqno - s.rcvNxt).toNat = false := by
    refine Bool.eq_false_iff.mpr fun hset => hnew ⟨fun heq => ?_, ?_⟩
    · obtain ⟨p, hp⟩ := (hwin.bits _ hd).mp hset
      rw [heq, sub_self] at hp
      exact Nat.lt_irrefl 0 (hpos _ hp)
    · obtain ⟨p, hp⟩ := (hwin.bit_iff (by decide) hd).mp hset
      exact List.mem_map.mpr ⟨_, hp, hseq⟩
  have hcmp : ∀ x y : ℕ × μ, x.1 < 64 * 16 → y.1 < 64 * 16 → x.1 ≠ y.1 →
      seqnoCmp (entryAt s.rcvNxt x) (entryAt s.rcvNxt y) = OrderedSet.keyLt x y := fun x y hx hy _ =>
    serialLt_add_offsets (w := 31) s.rcvNxt (hx.trans (by decide)) (hy.trans (by decide))
  have hacc := hwin.accept (by decide) hd hclear m hcmp
  unfold entryAt at hacc
  rw [hseq] at hacc
  exact push_inv hacc

theorem receive_inv (init : Seqno) (pkts : List (Seqno × μ)) : Inv (receive init pkts) := by
  have hrun : ∀ s : Rx μ, Inv s → Inv (pkts.foldl (fun s p => (consume s p.1 p.2).2) s) := by
    induction pkts with
    | nil => exact fun s h => h
    | cons p pkts ih => exact fun s h => ih _ (consume_inv h p.1 p.2)
  exact hrun _ ⟨[], window_empty (by decide) init, nofun⟩

/-- A set bit for each packet that is held. -/
theorem receive_popCount (init : Seqno) (pkts : List (Seqno × μ)) :
    popCount (receive init pkts).sackBitmap = (receive init pkts).reassQ.length := by
  obtain ⟨L, h, -⟩ := receive_inv init pkts
  rw [h.popCount_eq, h.entries, List.length_map]

/-- **SACK**: whatever packets arrive, in any order and across the wrap, the state is exact as long as no
    more than 255 packets are held. -/
theorem sack_exact_iff (init : Seqno) (pkts : List (Seqno × μ)) :
    SackExact (receive init pkts) ↔ (receive init pkts).reassQ.length < 256 := by
  obtain ⟨L, h, -⟩ := receive_inv init pkts
  have hcount := h.count_toNat
  rw [← receive_popCount]
  constructor
  · intro hex
    have hlt := Nat.mod_lt (popCount (receive init pkts).sackBitmap) (show 0 < 2 ^ 8 by decide)
    rw [← hcount, hex.count] at hlt
    exact hlt
  · exact fun hlt => ⟨fun i hi => h.bit_iff (by decide) hi, hcount.trans (Nat.mod_eq_of_lt hlt)⟩

/-- The packets 256, 255, …, 1 arrive before packet 0: 256 are held and the count is 0. -/
theorem count_wraps : ¬ SackExact (receive 0 ((List.range 256).map fun i => (BitVec.ofNat 32 (256 - i), ()))) := by
  intro hex
  have hlen := receive_popCount 0 ((List.range 256).map fun i => (BitVec.ofNat 32 (256 - i), ()))
  rw [← hex.count] at hlen
  revert hlen
  decide +kernel

-- ── The stream

variable {init : Seqno} {stream : List μ}

/-- What is handed on is a beginning of the stream, and what is held in `q` is of the stream. -/
structure Streams (init : Seqno) (stream : List μ) (s : Rx μ) (q : List (Seqno × μ)) : Prop where
  start : s.readyMsgQueue <+: stream
  next : s.rcvNxt = init + BitVec.ofNat 32 s.readyMsgQueue.length
  held : ∀ x ∈ q, ∃ k, x.1 = init + BitVec.ofNat 32 k ∧ stream[k]? = some x.2

theorem push_streams (hlen : stream.length < 2 ^ 32) (h : Streams init stream s q) :
    Streams init stream (pushInorderMsgbufToApp s q) (pushInorderMsgbufToApp s q).reassQ := by
  induction q generalizing s with
  | nil => exact ⟨h.start, h.next, nofun⟩
  | cons x q ih =>
    unfold pushInorderMsgbufToApp
    split
    · next heq =>
      obtain ⟨k, hk, hget⟩ := h.held x List.mem_cons_self
      obtain ⟨hlt, hx⟩ := List.getElem?_eq_some_iff.mp hget
      have hle := h.start.length_le
      -- fewer than `2 ^ 32` frames: the number says which one it is
      obtain rfl := (ofNat_eq_iff (by omega) (by omega)).mp (add_left_cancel (hk.symm.trans (heq.trans h.next)))
      have htake : s.readyMsgQueue ++ [x.2] = stream.take (s.readyMsgQueue.length + 1) := by
        rw [← List.take_append_getElem hlt, hx, ← List.prefix_iff_eq_take.mp h.start]
      refine ih ⟨htake ▸ List.take_prefix .., ?_, fun y hy => h.held y (List.mem_cons_of_mem _ hy)⟩
      rw [List.length_append, BitVec.ofNat_add, ← add_assoc, ← h.next]
      rfl
    · exact ⟨h.start, h.next, h.held⟩

theorem consume_streams (hlen : stream.length < 2 ^ 32) (h : Streams init stream s s.reassQ) {k : ℕ} {m : μ}
    (hm : stream[k]? = some m) : Streams init stream (consume s (init + BitVec.ofNat 32 k) m).2
      (consume s (init + BitVec.ofNat 32 k) m).2.reassQ := by
  unfold consume
  split
  · exact h
  dsimp only
  split
  · exact h
  split
  · exact h
  refine push_streams hlen ⟨h.start, h.next, fun x hx => ?_⟩
  rcases OrderedSet.mem_insert hx with rfl | hx
  · exact ⟨k, rfl, hm⟩
  · exact h.held x hx

/-- **IN ORDER, EACH ONCE**: of a stream of fewer than `2 ^ 32` frames, whichever arrive, in whatever order and however
    often, a beginning is handed on, and `rcv_nxt` is behind it. -/
theorem received_in_order (init : Seqno) (stream : List μ) (hlen : stream.length < 2 ^ 32) {pkts : List (Seqno × μ)}
    (hpkts : ∀ p ∈ pkts, ∃ k, p.1 = init + BitVec.ofNat 32 k ∧ stream[k]? = some p.2) :
    (receive init pkts).readyMsgQueue <+: stream ∧
      (receive init pkts).rcvNxt = init + BitVec.ofNat 32 (receive init pkts).readyMsgQueue.length := by
  have h : Streams init stream (receive init pkts) (receive init pkts).reassQ := by
    refine List.foldlRecOn pkts _ (motive := fun s => Streams init stream s s.reassQ) ?_ fun s hs p hp => ?_
    · exact ⟨List.nil_prefix, (add_zero init).symm, nofun⟩
    · obtain ⟨k, hk, hm⟩ := hpkts p hp
      rw [hk]
      exact consume_streams hlen hs hm
  exact ⟨h.start, h.next⟩

/-- The second frame comes first, and the numbers come round. -/
theorem received_in_order_late : (receive 0xFFFFFFFF [(0, 8), (0xFFFFFFFF, 7)]).readyMsgQueue = [7, 8] ∧
    (receive 0xFFFFFFFF [(0, 8), (0xFFFFFFFF, 7)]).readyMsgQueue <+: [7, 8, 9] :=
  ⟨by decide +kernel, (received_in_order _ _ (by decide) (List.forall_mem_cons.mpr
    ⟨⟨1, rfl, rfl⟩, List.forall_mem_singleton.mpr ⟨0, rfl, rfl⟩⟩)).1⟩

end SwiftSack
