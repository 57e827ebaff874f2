import Mathlib.Data.BitVec
import Uccl.StepRunProofs

/-! # The completion tracker of a P2P connection

    `AtomicBitmapPacketTrackerMultiAck` (p2p/util/seq_num.cc) gives every message a 32-bit sequence number and
    counts its acknowledgements in slot `seq % WINDOW_SIZE`. A message whose count is reached is marked, and
    the base slides over marked slots. Everything outside `[base, base + WINDOW_SIZE)` counts as acknowledged.

    A `History` keeps, next to the tracker, what was asked of it and what arrived: for each message its
    number, its expected count and the acknowledgements so far. No function reads it.

    With 65536 messages outstanding the next one is outside the window and reads as complete at once
    (`outstanding_overflow`); so does the first one after the counter has wrapped. As long as neither happens
    the tracker is exact (`acknowledged_iff`). -/

namespace P2pTracker

open StepRun List Nat

-- ── The tracker

/-- `WINDOW_SIZE` -/
def windowSize : ℕ := 65536

/-- One entry of `ack_bitmap_`, `expected_ack_count_`, `current_ack_count_` and `packet_sizes_`. -/
structure Slot where
  acked : Bool := false
  expected : BitVec 32 := 1
  current : BitVec 32 := 0
  size : BitVec 64 := 0

structure Tracker where
  slots : ℕ → Slot
  base : BitVec 32
  next : BitVec 32

def Tracker.init (initialSeq : BitVec 32) : Tracker :=
  { slots := fun _ => {}, base := initialSeq, next := initialSeq }

def pos (seqNum : BitVec 32) : ℕ := seqNum.toNat % windowSize

/-- `seq_num < base || seq_num - base >= WINDOW_SIZE` -/
def outside (t : Tracker) (seqNum : BitVec 32) : Bool :=
  decide (seqNum < t.base) || decide (windowSize ≤ (seqNum - t.base).toNat)

def setSlot (t : Tracker) (seqNum : BitVec 32) (slot : Slot) : Tracker :=
  { t with slots := Function.update t.slots (pos seqNum) slot }

/-- The `while` of `slide_window`, at most `fuel` times around. -/
def slideLoop : ℕ → Tracker → Tracker
  | 0, t => t
  | fuel + 1, t =>
    if t.base < t.next then
      if (t.slots (pos t.base)).acked then
        slideLoop fuel { setSlot t t.base {} with base := t.base + 1 }
      else t
    else t

/-- `slide_window`: between `base` and `next` there is nothing to do more often. -/
def slideWindow (t : Tracker) : Tracker := slideLoop (t.next.toNat - t.base.toNat) t

def sendPacket (t : Tracker) (packetSize : BitVec 64) (expectedAck : BitVec 32) :
    BitVec 32 × Tracker :=
  let seqNum := t.next
  let t := { t with next := t.next + 1 }
  let t := if windowSize ≤ (seqNum - t.base).toNat then slideWindow t else t
  (seqNum, setSlot t seqNum { expected := expectedAck, size := packetSize })

/-- The slot is marked, and the window slides. -/
def mark (t : Tracker) (seqNum : BitVec 32) : Tracker :=
  slideWindow (setSlot t seqNum { t.slots (pos seqNum) with acked := true })

def acknowledge (t : Tracker) (seqNum : BitVec 32) : Tracker :=
  if outside t seqNum then t
  else
    let slot := t.slots (pos seqNum)
    let t := setSlot t seqNum { slot with current := slot.current + 1 }
    if slot.expected ≤ slot.current + 1 then mark t seqNum else t

def updateExpectedAckCount (t : Tracker) (seqNum newExpectedAck : BitVec 32) : Bool × Tracker :=
  if outside t seqNum = true ∨ t.next ≤ seqNum then (false, t)
  else
    let slot := t.slots (pos seqNum)
    let t := setSlot t seqNum { slot with expected := newExpectedAck }
    (true, if newExpectedAck ≤ slot.current then mark t seqNum else t)

def isAcknowledged (t : Tracker) (seqNum : BitVec 32) : Bool :=
  if outside t seqNum then true else (t.slots (pos seqNum)).acked

-- ── Histories

structure Msg where
  seq : BitVec 32
  expected : BitVec 32
  acks : ℕ
  deriving DecidableEq

/-- The acknowledgements have reached the expected count. -/
def Msg.complete (m : Msg) : Bool := decide (m.expected.toNat ≤ m.acks)

structure History where
  tracker : Tracker
  msgs : List Msg

def History.init (initialSeq : BitVec 32) : History := ⟨Tracker.init initialSeq, []⟩

/-- A call; messages are named by the order they were sent in. -/
inductive Call
  | send (packetSize : BitVec 64) (expectedAck : BitVec 32)
  | update (k : ℕ) (newExpectedAck : BitVec 32)
  | ack (k : ℕ)

def step (h : History) : Call → Except Empty History
  | .send packetSize expectedAck =>
    let (seqNum, t) := sendPacket h.tracker packetSize expectedAck
    .ok ⟨t, h.msgs ++ [⟨seqNum, expectedAck, 0⟩]⟩
  | .update k newExpectedAck =>
    match h.msgs[k]? with
    | none => .ok h
    | some m => .ok ⟨(updateExpectedAckCount h.tracker m.seq newExpectedAck).2,
        h.msgs.set k { m with expected := newExpectedAck }⟩
  | .ack k =>
    match h.msgs[k]? with
    | none => .ok h
    | some m => .ok ⟨acknowledge h.tracker m.seq, h.msgs.set k { m with acks := m.acks + 1 }⟩

/-- No call fails. -/
def call (h : History) (c : Call) : History :=
  match step h c with
  | .ok h' => h'
  | .error e => e.elim

/-- An acknowledgement or a new count is for a message that is not complete. -/
def Legal (h : History) : Call → Prop
  | .send _ _ => True
  | .update k _ | .ack k => (h.msgs[k]?.all fun m => !m.complete) = true

instance (h : History) (c : Call) : Decidable (Legal h c) := by
  cases c <;> unfold Legal <;> infer_instance

/-- A message is sent while fewer than `WINDOW_SIZE` messages are not behind the oldest incomplete
    one, the counter does not reach 2^32, and it expects an acknowledgement. -/
def Fits (initialSeq : BitVec 32) (h : History) : Call → Prop
  | .send _ expectedAck => (h.msgs.dropWhile Msg.complete).length < windowSize ∧
      initialSeq.toNat + h.msgs.length + 1 < 2 ^ 32 ∧ 0 < expectedAck.toNat
  | .update _ _ | .ack _ => True

instance (initialSeq : BitVec 32) (h : History) (c : Call) : Decidable (Fits initialSeq h c) := by
  cases c <;> unfold Fits <;> infer_instance

-- ── What the slots hold

variable {initial b k j : ℕ} {t : Tracker} {msgs : List Msg} {m m' : Msg} {seqNum : BitVec 32}

/-- The slots from the base on hold the messages from number `b` on; those before are complete. -/
structure Tracks (initial : ℕ) (t : Tracker) (msgs : List Msg) (b : ℕ) : Prop where
  base : t.base.toNat = initial + b
  next : t.next.toNat = initial + msgs.length
  le : b ≤ msgs.length
  span : msgs.length ≤ b + windowSize
  seq : ∀ k m, msgs[k]? = some m → m.seq.toNat = initial + k
  done : ∀ k m, k < b → msgs[k]? = some m → m.complete = true
  slot : ∀ k m, b ≤ k → msgs[k]? = some m →
    (t.slots (pos m.seq)).acked = m.complete ∧ (t.slots (pos m.seq)).expected = m.expected ∧
      (t.slots (pos m.seq)).current.toNat = m.acks

/-- The message at the base is not complete: the window has slid as far as it can. -/
def Front (msgs : List Msg) (b : ℕ) : Prop := ∀ m, msgs[b]? = some m → m.complete = false

section

variable (h : Tracks initial t msgs b)
include h

/-- Exactly the messages before the base are outside the window. -/
theorem Tracks.outside_iff (hk : msgs[k]? = some m) : outside t m.seq = true ↔ k < b := by
  have hseq := h.seq k m hk
  have hbase := h.base
  have hlen := lt_length hk
  have hspan := h.span
  unfold outside
  rw [Bool.or_eq_true, decide_eq_true_iff, decide_eq_true_iff, BitVec.lt_def, BitVec.toNat_sub]
  omega

theorem Tracks.pos_base (hb : msgs[b]? = some m) : pos t.base = pos m.seq := by
  unfold pos
  rw [h.base, h.seq b m hb]

/-- Two messages in the window have different slots. -/
theorem Tracks.pos_ne (hj : msgs[j]? = some m)
    (hk : msgs[k]? = some m') (hb : b ≤ j) (hlt : j < k) : pos m.seq ≠ pos m'.seq := by
  have hspan := h.span
  have hlen := lt_length hk
  unfold pos
  rw [h.seq j m hj, h.seq k m' hk]
  unfold windowSize at hspan ⊢
  omega

theorem pos_inj_of_tracks (hj : msgs[j]? = some m)
    (hk : msgs[k]? = some m') (hbj : b ≤ j) (hbk : b ≤ k) (hne : j ≠ k) : pos m.seq ≠ pos m'.seq := by
  rcases Nat.lt_or_gt_of_ne hne with hlt | hgt
  · exact h.pos_ne hj hk hbj hlt
  · exact (h.pos_ne hk hj hbk hgt).symm

end

@[simp] theorem setSlot_base (t : Tracker) (seqNum : BitVec 32) (slot : Slot) :
    (setSlot t seqNum slot).base = t.base := rfl

@[simp] theorem setSlot_self (t : Tracker) (seqNum : BitVec 32) (slot : Slot) :
    (setSlot t seqNum slot).slots (pos seqNum) = slot := Function.update_self ..

theorem setSlot_of_ne {p : ℕ} (h : p ≠ pos seqNum) (slot : Slot) :
    (setSlot t seqNum slot).slots p = t.slots p := Function.update_of_ne h ..

@[simp] theorem setSlot_setSlot (t : Tracker) (seqNum : BitVec 32) (slot slot' : Slot) :
    setSlot (setSlot t seqNum slot) seqNum slot' = setSlot t seqNum slot' := by
  unfold setSlot
  simp only [Function.update_idem]

section

variable (h : Tracks initial t msgs b)
include h

/-- The slot of one message changes as the message does. -/
theorem Tracks.set (hk : msgs[k]? = some m) (hb : b ≤ k) {slot : Slot}
    (hseq : m'.seq = m.seq) (hacked : slot.acked = m'.complete) (hexp : slot.expected = m'.expected)
    (hcur : slot.current.toNat = m'.acks) : Tracks initial (setSlot t m.seq slot) (msgs.set k m') b := by
  refine ⟨h.base, ?_, ?_, ?_, fun j n hj => ?_, fun j n hjb hj => ?_, fun j n hbj hj => ?_⟩
  · rw [length_set]
    exact h.next
  · rw [length_set]
    exact h.le
  · rw [length_set]
    exact h.span
  · rcases getElem?_set_cases hj with ⟨rfl, rfl⟩ | ⟨-, hj⟩
    · rw [hseq]
      exact h.seq _ m hk
    · exact h.seq j n hj
  · rcases getElem?_set_cases hj with ⟨rfl, -⟩ | ⟨-, hj⟩
    · omega
    · exact h.done j n hjb hj
  · rcases getElem?_set_cases hj with ⟨rfl, rfl⟩ | ⟨hjk, hj⟩
    · rw [hseq, setSlot_self]
      exact ⟨hacked, hexp, hcur⟩
    · rw [setSlot_of_ne (pos_inj_of_tracks h hj hk hbj hb hjk)]
      exact h.slot j n hbj hj

/-- The base passes a complete message. -/
theorem Tracks.advance (hb : msgs[b]? = some m) (hm : m.complete = true) :
    Tracks initial { setSlot t t.base {} with base := t.base + 1 } msgs (b + 1) := by
  have hlen := lt_length hb
  have hnext := h.next
  refine ⟨?_, h.next, hlen, h.span.trans (by omega), h.seq, fun j n hj hn => ?_, fun j n hj hn => ?_⟩
  · rw [BitVec.toNat_add, h.base]
    show (initial + b + 1) % 2 ^ 32 = _
    rw [mod_eq_of_lt (by omega)]
    rfl
  · rcases Nat.lt_succ_iff_lt_or_eq.mp hj with hj | rfl
    · exact h.done j n hj hn
    · rw [hb] at hn
      exact Option.some.inj hn ▸ hm
  · have hne : pos n.seq ≠ pos t.base := by
      rw [h.pos_base hb]
      exact (h.pos_ne hb hn (le_refl b) hj).symm
    rw [setSlot_of_ne hne]
    exact h.slot j n (by omega) hn

/-- `slide_window` passes every complete message at the front. -/
theorem Tracks.slide : ∃ b', Tracks initial (slideWindow t) msgs b' ∧ Front msgs b' := by
  have hfuel : t.next.toNat - t.base.toNat = msgs.length - b := by
    rw [h.next, h.base]
    omega
  unfold slideWindow
  rw [hfuel]
  -- induction on the messages that are left
  generalize hn : msgs.length - b = n
  induction n generalizing t b with
  | zero =>
    refine ⟨b, h, fun m hm => ?_⟩
    have hlen := lt_length hm
    omega
  | succ n ih =>
    have hlen : b < msgs.length := by omega
    have hb : msgs[b]? = some msgs[b] := getElem?_eq_getElem hlen
    have hlt : t.base < t.next := by
      rw [BitVec.lt_def, h.base, h.next]
      omega
    unfold slideLoop
    rw [if_pos hlt, h.pos_base hb, (h.slot b _ (le_refl b) hb).1]
    by_cases hm : msgs[b].complete = true
    · rw [if_pos hm]
      have hnext := h.advance hb hm
      exact ih hnext (by rw [hnext.base, hnext.next]; omega) (by omega)
    · rw [if_neg hm]
      refine ⟨b, h, fun m hm' => ?_⟩
      rw [hb] at hm'
      rw [← Option.some.inj hm']
      exact Bool.eq_false_iff.mpr hm

/-- The messages that are not before the oldest incomplete one. -/
theorem dropWhile_eq_drop (hf : Front msgs b) : msgs.dropWhile Msg.complete = msgs.drop b := by
  have hdone := h.done
  clear h
  induction msgs generalizing b with
  | nil => rw [drop_nil]; rfl
  | cons m msgs ih =>
    cases b with
    | zero =>
      rw [dropWhile_cons, hf m rfl]
      rfl
    | succ b =>
      rw [dropWhile_cons, hdone 0 m (succ_pos b) rfl]
      exact ih (fun n hn => hf n hn) fun k n hk hn => hdone (k + 1) n (succ_lt_succ hk) hn

end

-- ── The calls

/-- The tracker of a history is exact. -/
def Exact (initialSeq : BitVec 32) (h : History) : Prop :=
  ∃ b, Tracks initialSeq.toNat h.tracker h.msgs b ∧ Front h.msgs b

variable {initialSeq expectedAck : BitVec 32} {h h' : History} {k : ℕ} {m : Msg} {packetSize : BitVec 64}

theorem Exact.init (initialSeq : BitVec 32) : Exact initialSeq (History.init initialSeq) := by
  refine ⟨0, ⟨rfl, rfl, le_refl _, Nat.zero_le _, ?_, ?_, ?_⟩, ?_⟩
  · intro k m hk
    cases hk
  · intro k m _ hk
    cases hk
  · intro k m _ hk
    cases hk
  · intro m hm
    cases hm

/-- A message that is not complete is in the window. -/
theorem Tracks.in_window (h : Tracks initial t msgs b) (hk : msgs[k]? = some m)
    (hm : m.complete = false) : b ≤ k ∧ outside t m.seq = false := by
  have hb : b ≤ k := Nat.le_of_not_lt fun hlt => by
    rw [h.done k m hlt hk] at hm
    cases hm
  exact ⟨hb, Bool.eq_false_iff.mpr fun hout => absurd ((h.outside_iff hk).mp hout) (Nat.not_lt.mpr hb)⟩

theorem send_exact (hx : Exact initialSeq h) (hfits : Fits initialSeq h (.send packetSize expectedAck))
    (hstep : step h (.send packetSize expectedAck) = .ok h') : Exact initialSeq h' := by
  obtain ⟨b, ht, hf⟩ := hx
  obtain ⟨hwin, hwrap, hpos⟩ := hfits
  rw [dropWhile_eq_drop ht hf, length_drop] at hwin
  have hbase := ht.base
  have hnext := ht.next
  have hle := ht.le
  -- the new message is inside the window, so `send_packet` does not slide it
  have hin : ¬ windowSize ≤ (h.tracker.next - h.tracker.base).toNat := by
    rw [BitVec.toNat_sub]
    omega
  have hh : h' = ⟨setSlot { h.tracker with next := h.tracker.next + 1 } h.tracker.next
      { expected := expectedAck, size := packetSize },
      h.msgs ++ [⟨h.tracker.next, expectedAck, 0⟩]⟩ := by
    cases hstep
    rw [if_neg hin]
  rw [hh]
  have hsucc : (h.tracker.next + 1).toNat = initialSeq.toNat + h.msgs.length + 1 := by
    rw [BitVec.toNat_add, hnext]
    exact mod_eq_of_lt hwrap
  have hnew : Msg.complete ⟨h.tracker.next, expectedAck, 0⟩ = false := decide_eq_false (by
    show ¬ expectedAck.toNat ≤ 0
    omega)
  refine ⟨b, ⟨hbase, ?_, ?_, ?_, fun j n hj => ?_, fun j n hjb hj => ?_, fun j n hbj hj => ?_⟩, fun n hn => ?_⟩
  · show (h.tracker.next + 1).toNat = _
    rw [hsucc, length_append]
    rfl
  · rw [length_append]
    omega
  · rw [length_append, length_singleton]
    omega
  · rcases getElem?_snoc_cases hj with hj | ⟨rfl, rfl⟩
    · exact ht.seq j n hj
    · exact hnext
  · rcases getElem?_snoc_cases hj with hj | ⟨rfl, -⟩
    · exact ht.done j n hjb hj
    · omega
  · rcases getElem?_snoc_cases hj with hj | ⟨rfl, rfl⟩
    · have hne : pos n.seq ≠ pos h.tracker.next := by
        have hlen := lt_length hj
        unfold pos
        rw [ht.seq j n hj]
        unfold windowSize at hwin ⊢
        omega
      rw [setSlot_of_ne hne]
      exact ht.slot j n hbj hj
    · rw [setSlot_self]
      exact ⟨hnew.symm, rfl, rfl⟩
  · rcases getElem?_snoc_cases hn with hn | ⟨-, rfl⟩
    · exact hf n hn
    · exact hnew

/-- A message other than the one at the base changes, or it stays incomplete. -/
theorem Front.set (hf : Front msgs b) (k : ℕ) (hm : m'.complete = false) : Front (msgs.set k m') b := by
  intro n hn
  rcases getElem?_set_cases hn with ⟨-, rfl⟩ | ⟨-, hn⟩
  · exact hm
  · exact hf n hn

/-- The slot of a message takes the message's new values, and is marked if they are complete. -/
theorem Tracks.settle (h : Tracks initial t msgs b) (hf : Front msgs b) (hk : msgs[k]? = some m) (hb : b ≤ k)
    (slot : Slot) (hseq : m'.seq = m.seq) (hacked : slot.acked = false) (hexp : slot.expected = m'.expected)
    (hcur : slot.current.toNat = m'.acks) :
    ∃ b', Tracks initial (if slot.expected ≤ slot.current then mark (setSlot t m.seq slot) m.seq
      else setSlot t m.seq slot) (msgs.set k m') b' ∧ Front (msgs.set k m') b' := by
  have hiff : slot.expected ≤ slot.current ↔ m'.expected.toNat ≤ m'.acks := by
    rw [BitVec.le_def, hexp, hcur]
  split
  · next hle =>
    have hdone : m'.complete = true := decide_eq_true (hiff.mp hle)
    unfold mark
    rw [setSlot_self, setSlot_setSlot]
    exact Tracks.slide (h.set hk hb hseq hdone.symm hexp hcur)
  · next hle =>
    have hopen : m'.complete = false := decide_eq_false fun hdone => hle (hiff.mpr hdone)
    exact ⟨b, h.set hk hb hseq (hacked.trans hopen.symm) hexp hcur, hf.set k hopen⟩

theorem ack_exact (hx : Exact initialSeq h) (hlegal : Legal h (.ack k))
    (hstep : step h (.ack k) = .ok h') : Exact initialSeq h' := by
  unfold step at hstep
  dsimp only at hstep
  split at hstep
  · exact Except.ok.inj hstep ▸ hx
  · next m hk =>
    obtain ⟨b, ht, hf⟩ := hx
    have hm : m.complete = false := by simpa [Legal, hk] using hlegal
    obtain ⟨hb, hout⟩ := ht.in_window hk hm
    obtain ⟨hacked, hexp, hcur⟩ := ht.slot k m hb hk
    have hlt : m.acks < m.expected.toNat := Nat.lt_of_not_le (of_decide_eq_false hm)
    have hsucc : ((h.tracker.slots (pos m.seq)).current + 1).toNat = m.acks + 1 := by
      have hone : (1 : BitVec 32).toNat = 1 := rfl
      rw [BitVec.toNat_add, hcur]
      exact mod_eq_of_lt (by omega)
    cases hstep
    unfold acknowledge
    rw [hout]
    let slot := h.tracker.slots (pos m.seq)
    exact ht.settle hf hk hb { slot with current := slot.current + 1 } rfl (hacked.trans hm) hexp hsucc

theorem update_exact (hx : Exact initialSeq h) {newExpectedAck : BitVec 32}
    (hlegal : Legal h (.update k newExpectedAck))
    (hstep : step h (.update k newExpectedAck) = .ok h') : Exact initialSeq h' := by
  unfold step at hstep
  dsimp only at hstep
  split at hstep
  · exact Except.ok.inj hstep ▸ hx
  · next m hk =>
    obtain ⟨b, ht, hf⟩ := hx
    have hm : m.complete = false := by simpa [Legal, hk] using hlegal
    obtain ⟨hb, hout⟩ := ht.in_window hk hm
    obtain ⟨hacked, hexp, hcur⟩ := ht.slot k m hb hk
    have hsent : ¬ (outside h.tracker m.seq = true ∨ h.tracker.next ≤ m.seq) := by
      rw [hout, BitVec.le_def, ht.next, ht.seq k m hk]
      have hlen := lt_length hk
      rintro (hbad | hle)
      · cases hbad
      · omega
    cases hstep
    unfold updateExpectedAckCount
    rw [if_neg hsent]
    let slot := h.tracker.slots (pos m.seq)
    exact ht.settle hf hk hb { slot with expected := newExpectedAck } rfl (hacked.trans hm) rfl hcur

theorem step_exact (hx : Exact initialSeq h) {c : Call} (hlegal : Legal h c)
    (hfits : Fits initialSeq h c) (hstep : step h c = .ok h') : Exact initialSeq h' := by
  cases c with
  | send packetSize expectedAck => exact send_exact hx hfits hstep
  | update k newExpectedAck => exact update_exact hx hlegal hstep
  | ack k => exact ack_exact hx hlegal hstep

theorem step_call (h : History) (c : Call) : step h c = .ok (call h c) := by
  unfold call
  cases hstep : step h c with
  | ok h' => rfl
  | error e => cases e

theorem call_exact (hx : Exact initialSeq h) {c : Call} (hlegal : Legal h c)
    (hfits : Fits initialSeq h c) : Exact initialSeq (call h c) := step_exact hx hlegal hfits (step_call h c)

theorem call_send_msgs (h : History) (packetSize : BitVec 64) (expectedAck : BitVec 32) :
    (call h (.send packetSize expectedAck)).msgs = h.msgs ++ [⟨h.tracker.next, expectedAck, 0⟩] := rfl

theorem call_update_msgs (hk : h.msgs[k]? = some m) (newExpectedAck : BitVec 32) :
    (call h (.update k newExpectedAck)).msgs = h.msgs.set k { m with expected := newExpectedAck } := by
  unfold call step
  dsimp only
  rw [hk]

theorem call_ack_msgs (hk : h.msgs[k]? = some m) :
    (call h (.ack k)).msgs = h.msgs.set k { m with acks := m.acks + 1 } := by
  unfold call step
  dsimp only
  rw [hk]

theorem legal_of_open (hk : h.msgs[k]? = some m) (hm : m.complete = false) :
    Legal h (.ack k) ∧ ∀ newExpectedAck, Legal h (.update k newExpectedAck) := by
  have hopen : (h.msgs[k]?.all fun m => !m.complete) = true := by
    rw [hk, Option.all_some, hm]
    rfl
  exact ⟨hopen, fun _ => hopen⟩

theorem Exact.isAcknowledged_eq (hx : Exact initialSeq h) (hk : h.msgs[k]? = some m) :
    isAcknowledged h.tracker m.seq = m.complete := by
  obtain ⟨b, ht, -⟩ := hx
  unfold isAcknowledged
  rcases Nat.lt_or_ge k b with hlt | hge
  · rw [(ht.outside_iff hk).mpr hlt]
    exact (ht.done k m hlt hk).symm
  · rw [if_neg fun hout => absurd ((ht.outside_iff hk).mp hout) (Nat.not_lt.mpr hge)]
    exact (ht.slot k m hge hk).1

/-- **THE TRACKER IS EXACT** as long as the messages fit: it reports a message complete exactly
    when its acknowledgements have reached the expected count. -/
theorem acknowledged_iff {calls : List Call}
    (halong : Along step (fun h c => Legal h c ∧ Fits initialSeq h c) (History.init initialSeq) calls)
    (hrun : runFrom step (History.init initialSeq) calls = .ok h) {k : ℕ} {m : Msg} (hk : h.msgs[k]? = some m) :
    isAcknowledged h.tracker m.seq = true ↔ m.expected.toNat ≤ m.acks := by
  have hx := runFrom_invariant_along (I := Exact initialSeq)
    (fun h c h' hx hg hstep => step_exact hx hg.1 hg.2 hstep) (Exact.init initialSeq) halong hrun
  rw [hx.isAcknowledged_eq hk]
  exact decide_eq_true_iff

/-- A message whose count is raised to two before its first acknowledgement, and one after it. -/
theorem acknowledged_iff_two_chunks : ∃ h, runFrom step (History.init 0)
      [.send 4096 1, .update 0 2, .ack 0, .send 64 1, .ack 1] = .ok h ∧
      h.msgs = [⟨0, 2, 1⟩, ⟨1, 1, 1⟩] ∧
      (isAcknowledged h.tracker 0 = true ↔ 2 ≤ 1) ∧ (isAcknowledged h.tracker 1 = true ↔ 1 ≤ 1) := by
  refine exists_run_of_guarded (G := fun h c => Legal h c ∧ Fits 0 h c) (fun h => h.msgs = [⟨0, 2, 1⟩, ⟨1, 1, 1⟩]) ?_
    fun h halong hrun hmsgs => ?_
  · decide +kernel
  · have h0 : h.msgs[0]? = some ⟨0, 2, 1⟩ := by rw [hmsgs]; rfl
    have h1 : h.msgs[1]? = some ⟨1, 1, 1⟩ := by rw [hmsgs]; rfl
    exact ⟨hmsgs, acknowledged_iff halong hrun h0, acknowledged_iff halong hrun h1⟩

-- ── Outside the window

/-- A message outside the window reads as complete. -/
theorem isAcknowledged_outside {t : Tracker} (h : outside t seqNum = true) : isAcknowledged t seqNum = true := if_pos h

theorem slideWindow_stuck (h : (t.slots (pos t.base)).acked = false) : slideWindow t = t := by
  unfold slideWindow
  cases t.next.toNat - t.base.toNat with
  | zero => rfl
  | succ n =>
    unfold slideLoop
    rw [h, if_neg Bool.false_ne_true, ite_self]

/-- With a full window the next message reads as complete as soon as it is sent. -/
theorem send_overflow (hx : Exact initialSeq h) (hfull : (h.msgs.dropWhile Msg.complete).length = windowSize)
    (hstep : step h (.send packetSize expectedAck) = .ok h') :
    h'.msgs = h.msgs ++ [⟨h.tracker.next, expectedAck, 0⟩] ∧ isAcknowledged h'.tracker h.tracker.next = true := by
  obtain ⟨b, ht, hf⟩ := hx
  rw [dropWhile_eq_drop ht hf, length_drop] at hfull
  have hbase := ht.base
  have hnext := ht.next
  have hgap : windowSize ≤ (h.tracker.next - h.tracker.base).toNat := by
    rw [BitVec.toNat_sub]
    omega
  have hlen : b < h.msgs.length := by
    unfold windowSize at hfull
    omega
  have hb : h.msgs[b]? = some h.msgs[b] := getElem?_eq_getElem hlen
  -- the message at the base is open, so sliding the window gains nothing
  have hopen : (h.tracker.slots (pos h.tracker.base)).acked = false := by
    rw [ht.pos_base hb, (ht.slot b _ (le_refl b) hb).1]
    exact hf _ hb
  have hstuck := slideWindow_stuck (t := { h.tracker with next := h.tracker.next + 1 }) hopen
  have hh : h' = ⟨setSlot { h.tracker with next := h.tracker.next + 1 } h.tracker.next
      { expected := expectedAck, size := packetSize },
      h.msgs ++ [⟨h.tracker.next, expectedAck, 0⟩]⟩ := by
    cases hstep
    rw [if_pos hgap, hstuck]
  rw [hh]
  refine ⟨rfl, isAcknowledged_outside ?_⟩
  unfold outside
  rw [setSlot_base, decide_eq_true hgap, Bool.or_true]

/-- `n` messages are sent and nothing is acknowledged. -/
theorem sends_exact {n : ℕ} (hn : n ≤ windowSize) :
    ∃ h, runFrom step (History.init 0) (List.replicate n (.send 64 1)) = .ok h ∧ Exact 0 h ∧
      h.msgs.length = n ∧ ∀ m ∈ h.msgs, m.complete = false := by
  induction n with
  | zero => exact ⟨_, rfl, Exact.init 0, rfl, forall_mem_nil _⟩
  | succ n ih =>
    obtain ⟨h, hrun, hx, hlen, hopen⟩ := ih (le_of_succ_le hn)
    have hdrop : (h.msgs.dropWhile Msg.complete).length ≤ n := by
      rw [← hlen]
      exact (dropWhile_sublist _).length_le
    have hfits : Fits 0 h (.send 64 1) := by
      refine ⟨by omega, ?_, by decide⟩
      show 0 + h.msgs.length + 1 < 2 ^ 32
      unfold windowSize at hn
      omega
    obtain ⟨h', hstep⟩ : ∃ h', step h (.send 64 1) = .ok h' := ⟨_, rfl⟩
    have hmsgs : h'.msgs = h.msgs ++ [⟨h.tracker.next, 1, 0⟩] := by
      rw [← Except.ok.inj hstep]
    refine ⟨h', ?_, send_exact hx hfits hstep, ?_, ?_⟩
    · rw [replicate_succ', runFrom_append hrun, runFrom_cons_ok hstep, runFrom_nil]
    · rw [hmsgs, length_append, hlen]
      rfl
    · rw [hmsgs]
      exact forall_mem_snoc hopen rfl

/-- **A FALSE COMPLETION**: 65536 messages are outstanding on a fresh connection, and the next one
    is reported complete though nothing was acknowledged. -/
theorem outstanding_overflow : ∃ h m,
    runFrom step (History.init 0) (List.replicate (windowSize + 1) (.send 64 1)) = .ok h ∧
      h.msgs[windowSize]? = some m ∧ m.acks = 0 ∧ m.expected = 1 ∧ isAcknowledged h.tracker m.seq = true := by
  obtain ⟨h, hrun, hx, hlen, hopen⟩ := sends_exact (n := windowSize) (le_refl _)
  have hfull : (h.msgs.dropWhile Msg.complete).length = windowSize := by
    cases hmsgs : h.msgs with
    | nil =>
      rw [hmsgs] at hlen
      cases hlen
    | cons m msgs =>
      rw [dropWhile_cons, hopen m (hmsgs ▸ mem_cons_self), ← hlen, hmsgs]
      rfl
  obtain ⟨h', hstep⟩ : ∃ h', step h (.send 64 1) = .ok h' := ⟨_, rfl⟩
  obtain ⟨hmsgs, hacked⟩ := send_overflow hx hfull hstep
  refine ⟨h', ⟨h.tracker.next, 1, 0⟩, ?_, ?_, rfl, rfl, hacked⟩
  · rw [replicate_succ', runFrom_append hrun, runFrom_cons_ok hstep, runFrom_nil]
  · rw [hmsgs, ← hlen, getElem?_concat_length]

end P2pTracker
