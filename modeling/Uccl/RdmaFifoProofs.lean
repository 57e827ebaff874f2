import Uccl.RdmaStateProofs
import Uccl.StepRunProofs

/-! # The flow-control FIFO

    A receiver advertises a posted buffer by an RDMA write into the sender's memory: `FifoItem` number `n` goes to slot
    `n % kMaxReq` and carries `idx` `n + 1`. The sender's application thread looks at the slot of `fifo_head`; when the
    `idx` is the one it waits for, `uccl_send_async` hands the request to the engine, moves the head, and only then
    clears the slot.

    The hand-over and the `memset` are not one step: in between, the engine can transmit, the receiver complete the
    request and post the next buffer, and its write can land in the slot that is about to be cleared
    (`racing_write_erased`). Without that race nothing is lost (`fifo_lossless`). -/

namespace RdmaFifo

open RdmaPcb RdmaState StepRun Function List Except

variable {slot : Fin 16}

-- ── The system

/-- One element of the FIFO; a cleared one is all zero. `kMaxRecv` is 1, so there is one to a slot. -/
structure FifoItem where
  addr : ℕ := 0
  size : ℕ := 0
  rkey : ℕ := 0
  nmsgs : ℕ := 0
  rid : ℕ := 0
  idx : ℕ := 0
  engineOffset : ℕ := 0
  deriving DecidableEq, Repr

/-- What `uccl_send_async` puts into the request it gives to the engine. -/
structure SendWork where
  raddr : ℕ
  rkey : ℕ
  rid : ℕ
  dataLen : ℕ
  engineOffset : ℕ
  deriving DecidableEq, Repr

/-- Where the application thread is in `uccl_send_async`: outside, past
    `check_fifo_ready`, past `post_multi_send`, past `fifo_head++`. -/
inductive App where
  | idle
  | ready (slot : Fin 16) (size : ℕ)
  | posted (slot : Fin 16)
  | advanced (slot : Fin 16)
  deriving DecidableEq, Repr

/-- The slot whose request is with the engine and which is still to be cleared. -/
def App.handedOver : App → Option (Fin 16)
  | .idle | .ready _ _ => none
  | .posted slot | .advanced slot => some slot

/-- How far `fifo_head` is behind the requests handed over. -/
def App.lag : App → ℕ
  | .posted _ => 1
  | .idle | .ready _ _ | .advanced _ => 0

/-- Both ends of a flow: the receiver's counters and its writes under way with their remote slots; the sender's FIFO,
    head and application thread; the requests with the engine and those transmitted but not completed. The last three
    fields are history. -/
structure Flow where
  fifoTail : ℕ := 0
  outstandingReqs : ℕ := 0
  writes : List (Fin 16 × FifoItem) := []
  elems : Fin 16 → FifoItem := fun _ => {}
  fifoHead : ℕ := 0
  app : App := .idle
  txq : List SendWork := []
  sent : List SendWork := []
  posted : List FifoItem := []
  consumed : List FifoItem := []
  completed : ℕ := 0

/-- `uint64_t` addition. -/
def addU64 (a b : ℕ) : ℕ := (a + b) % 2 ^ 64

theorem addU64_of_lt {a b : ℕ} (h : a + b < 2 ^ 64) : addU64 a b = a + b := Nat.mod_eq_of_lt h

/-- `n % kMaxReq`. -/
def slotOf (n : ℕ) : Fin 16 := ⟨n % 16, Nat.mod_lt n (by decide)⟩

/-- The steps of the flow; `rid` is what the engine fills in before the write goes out. -/
inductive FifoAction where
  | recvAsync (addr size rkey engineOffset rid : ℕ)
  | land (k : ℕ)
  | check (size : ℕ)
  | postMultiSend
  | advance
  | clear
  | transmit (k : ℕ)
  | complete (k : ℕ)

/-- The item `post_fifo` prepares. -/
def fifoItem (fifoTail addr size rkey engineOffset rid : ℕ) : FifoItem :=
  { addr := addr, size := size, rkey := rkey, nmsgs := 1, rid := rid
    idx := addU64 fifoTail 1, engineOffset := engineOffset }

/-- `uccl_recv_async` with `post_fifo`: nothing happens without room. -/
def recvAsync (s : Flow) (addr size rkey engineOffset rid : ℕ) : Flow :=
  if s.outstandingReqs < kMaxReq then
    let item := fifoItem s.fifoTail addr size rkey engineOffset rid
    { s with
      outstandingReqs := addU32 s.outstandingReqs 1
      writes := s.writes ++ [(slotOf s.fifoTail, item)]
      fifoTail := addU64 s.fifoTail 1
      posted := s.posted ++ [item] }
  else s

/-- `check_fifo_ready`. -/
def checkFifoReady (s : Flow) : Bool :=
  decide ((s.elems (slotOf s.fifoHead)).idx = addU64 s.fifoHead 1)

/-- The request made from an item for a send of `size` bytes. -/
def sendWork (item : FifoItem) (size : ℕ) : SendWork :=
  { raddr := item.addr, rkey := item.rkey, rid := item.rid
    dataLen := if size > item.size then item.size else size
    engineOffset := item.engineOffset }

/-- One step of the flow. An RDMA write may land at any time after it was posted, the engines take requests
    and the receiver completes them in any order. -/
def fifoStep (s : Flow) : FifoAction → Except Fault Flow
  | .recvAsync addr size rkey engineOffset rid =>
    .ok (recvAsync s addr size rkey engineOffset rid)
  | .land k =>
    match s.writes[k]? with
    | none => .error .notEnabled
    | some (slot, item) =>
      .ok { s with
        elems := Function.update s.elems slot item, writes := s.writes.eraseIdx k }
  | .check size =>
    match s.app with
    | .idle =>
      .ok (if checkFifoReady s then { s with app := .ready (slotOf s.fifoHead) size } else s)
    | _ => .error .notEnabled
  | .postMultiSend =>
    match s.app with
    | .ready slot size =>
      .ok { s with
        app := .posted slot
        txq := s.txq ++ [sendWork (s.elems slot) size]
        consumed := s.consumed ++ [s.elems slot] }
    | _ => .error .notEnabled
  | .advance =>
    match s.app with
    | .posted slot => .ok { s with app := .advanced slot, fifoHead := addU64 s.fifoHead 1 }
    | _ => .error .notEnabled
  | .clear =>
    match s.app with
    | .advanced slot =>
      .ok { s with app := .idle, elems := Function.update s.elems slot {} }
    | _ => .error .notEnabled
  | .transmit k =>
    match s.txq[k]? with
    | none => .error .notEnabled
    | some work => .ok { s with txq := s.txq.eraseIdx k, sent := s.sent ++ [work] }
  | .complete k =>
    match s.sent[k]? with
    | none => .error .notEnabled
    | some _ =>
      .ok { s with
        sent := s.sent.eraseIdx k
        outstandingReqs := subU32 s.outstandingReqs 1
        completed := s.completed + 1 }

-- ── The invariant

/-- What the thread relies on while it is inside `uccl_send_async`: the slot it found
    ready holds the next item, and until it is cleared the item just used. -/
def AppOk (posted consumed : List FifoItem) (elems : Fin 16 → FifoItem) : App → Prop
  | .idle => True
  | .ready slot _ => slot = slotOf consumed.length ∧
      posted[consumed.length]? = some (elems slot)
  | .posted slot | .advanced slot => ∃ i, i + 1 = consumed.length ∧ slot = slotOf i ∧
      posted[i]? = some (elems slot)

/-- **THE FLOW**: items are numbered as posted and used in that order, and each one not
    used is under way or in its slot. -/
structure FlowOk (s : Flow) : Prop where
  bound : s.posted.length + 1 < 2 ^ 64
  numbered : ∀ i item, s.posted[i]? = some item → item.idx = i + 1
  tail : s.fifoTail = s.posted.length
  inOrder : s.consumed <+: s.posted
  head : s.fifoHead + s.app.lag = s.consumed.length
  handed : s.txq.length + s.sent.length + s.completed = s.consumed.length
  outstanding : s.outstandingReqs + s.completed = s.posted.length
  room : s.outstandingReqs ≤ 16
  writes : ∀ w ∈ s.writes, ∃ i, s.consumed.length ≤ i ∧ s.posted[i]? = some w.2 ∧ w.1 = slotOf i
  once : s.writes.Nodup
  pending : ∀ w ∈ s.writes, s.elems w.1 ≠ w.2
  kept : ∀ i item, s.consumed.length ≤ i → s.posted[i]? = some item →
    (slotOf i, item) ∈ s.writes ∨ s.elems (slotOf i) = item
  slots : ∀ j, s.elems j = {} ∨ ∃ i : ℕ, s.posted[i]? = some (s.elems j)
  app : AppOk s.posted s.consumed s.elems s.app

theorem flowOk_initial : FlowOk {} where
  bound := by decide
  numbered := nofun
  tail := rfl
  inOrder := prefix_rfl
  head := rfl
  handed := rfl
  outstanding := rfl
  room := Nat.zero_le _
  writes := nofun
  once := nodup_nil
  pending := nofun
  kept := nofun
  slots _ := .inl rfl
  app := trivial

/-- A write does not land in a slot between hand-over and `memset`; and the counters do not wrap. -/
def Unraced (s : Flow) : FifoAction → Prop
  | .land k => ∀ w ∈ s.writes[k]?, s.app.handedOver ≠ some w.1
  | .recvAsync _ _ _ _ _ => s.posted.length + 2 < 2 ^ 64
  | _ => True

instance (s : Flow) (a : FifoAction) : Decidable (Unraced s a) := by
  cases a <;> unfold Unraced <;> infer_instance

section

variable {s : Flow}

section

variable (h : FlowOk s) {item x : FifoItem}
include h

theorem FlowOk.consumed_le : s.consumed.length ≤ s.posted.length := h.inOrder.length_le

/-- Items not used are fewer than there are slots, or just as many. -/
theorem FlowOk.posted_le : s.posted.length ≤ s.consumed.length + 16 := by
  have := h.handed
  have := h.outstanding
  have := h.room
  omega

/-- So two of them in one slot are the same. -/
theorem FlowOk.eq_of_slot {i j : ℕ} {y : FifoItem}
    (hi : s.consumed.length ≤ i) (hx : s.posted[i]? = some x) (hj : s.consumed.length ≤ j)
    (hy : s.posted[j]? = some y) (hslot : slotOf i = slotOf j) : i = j := by
  have hi' := lt_length hx
  have hj' := lt_length hy
  have hle := h.posted_le
  have hmod : i % 16 = j % 16 := congrArg Fin.val hslot
  omega

/-- Items are told apart by their `idx`. -/
theorem FlowOk.idx_inj {i j : ℕ} (hi : s.posted[i]? = some item) (hj : s.posted[j]? = some item) : i = j := by
  have := h.numbered i item hi
  have := h.numbered j item hj
  omega

theorem FlowOk.slots_update (hx : x = {} ∨ ∃ i : ℕ, s.posted[i]? = some x) (slot j : Fin 16) :
    update s.elems slot x j = {} ∨ ∃ i : ℕ, s.posted[i]? = some (update s.elems slot x j) :=
  (forall_update_iff s.elems fun _ y => y = {} ∨ ∃ i : ℕ, s.posted[i]? = some y).mpr ⟨hx, fun k _ => h.slots k⟩ j

theorem FlowOk.recvAsync (addr size rkey engineOffset rid : ℕ) (hbound : s.posted.length + 2 < 2 ^ 64) :
    FlowOk (recvAsync s addr size rkey engineOffset rid) := by
  unfold RdmaFifo.recvAsync
  split
  · next hroom =>
    have hroom : s.outstandingReqs < 16 := hroom
    have hidx : addU64 s.fifoTail 1 = s.posted.length + 1 := by
      rw [h.tail]
      exact addU64_of_lt (by omega)
    have hold : ∀ {i : ℕ} {item : FifoItem}, s.posted[i]? = some item →
        (s.posted ++ [fifoItem s.fifoTail addr size rkey engineOffset rid])[i]? = some item := by
      intro i item hi
      have hlt := lt_length hi
      rw [getElem?_append_left hlt]
      exact hi
    -- the new item's `idx` is larger than any before
    have hnew : ∀ i : ℕ, s.posted[i]? ≠ some (fifoItem s.fifoTail addr size rkey engineOffset rid) := by
      intro i hi
      have hlt := lt_length hi
      have hnum : addU64 s.fifoTail 1 = i + 1 := h.numbered i _ hi
      omega
    refine ⟨?_, ?_, ?_, ?_, h.head, h.handed, ?_, ?_, ?_, ?_, ?_, ?_, ?_, ?_⟩
    · rw [length_append, length_singleton]
      exact hbound
    · intro i item hi
      rcases getElem?_snoc_cases hi with hi | ⟨rfl, rfl⟩
      · exact h.numbered i item hi
      · exact hidx
    · rw [hidx, length_append, length_singleton]
    · exact h.inOrder.trans (prefix_append ..)
    · show addU32 s.outstandingReqs 1 + s.completed = (s.posted ++ [_]).length
      rw [addU32_of_lt (by omega), length_append, length_singleton, ← h.outstanding]
      omega
    · rw [addU32_of_lt (by omega)]
      exact hroom
    · refine forall_mem_snoc (fun w hw => ?_) ?_
      · obtain ⟨i, hi, hget, hslot⟩ := h.writes w hw
        exact ⟨i, hi, hold hget, hslot⟩
      · refine ⟨s.posted.length, h.consumed_le, getElem?_concat_length, ?_⟩
        rw [h.tail]
    · refine nodup_snoc h.once fun hw => ?_
      obtain ⟨i, -, hget, -⟩ := h.writes _ hw
      exact hnew i hget
    · refine forall_mem_snoc h.pending fun heq => ?_
      rcases h.slots (slotOf s.fifoTail) with hclear | ⟨i, hget⟩
      · have hzero := congrArg FifoItem.idx (hclear.symm.trans heq)
        rw [show (fifoItem s.fifoTail addr size rkey engineOffset rid).idx = _ from hidx] at hzero
        cases hzero
      · rw [show s.elems (slotOf s.fifoTail) = _ from heq] at hget
        exact hnew i hget
    · intro i item hi hget
      rcases getElem?_snoc_cases hget with hget | ⟨rfl, rfl⟩
      · exact (h.kept i item hi hget).imp_left (mem_append_left _)
      · rw [← h.tail]
        exact .inl (mem_append_right _ (mem_singleton_self _))
    · intro j
      exact (h.slots j).imp_right fun ⟨i, hi⟩ => ⟨i, hold hi⟩
    · have happ := h.app
      revert happ
      cases s.app with
      | idle => exact id
      | ready slot size => exact fun ⟨hslot, hget⟩ => ⟨hslot, hold hget⟩
      | posted slot | advanced slot => exact fun ⟨i, hi, hslot, hget⟩ => ⟨i, hi, hslot, hold hget⟩
  · exact h

/-- A write lands. -/
theorem FlowOk.land {k : ℕ} (hk : s.writes[k]? = some (slot, item)) (hrace : s.app.handedOver ≠ some slot) :
    FlowOk { s with
      elems := update s.elems slot item, writes := s.writes.eraseIdx k } := by
  obtain ⟨i, hi, hget, rfl⟩ := h.writes (slot, item) (mem_of_getElem? hk)
  have hperm := cons_eraseIdx_perm hk
  have hnodup := hperm.nodup_iff.mpr h.once
  have hleft : ∀ w ∈ s.writes.eraseIdx k, w ∈ s.writes := fun w hw =>
    hperm.subset (mem_cons_of_mem _ hw)
  refine { h with
    writes := fun w hw => h.writes w (hleft w hw), once := (nodup_cons.mp hnodup).2
    pending := ?_, kept := ?_, slots := h.slots_update (.inr ⟨i, hget⟩) (slotOf i), app := ?_ }
  · intro w hw
    obtain ⟨j, hj, hother, hslot'⟩ := h.writes w (hleft w hw)
    show update s.elems (slotOf i) item w.1 ≠ w.2
    by_cases hslot : w.1 = slotOf i
    · obtain rfl := h.eq_of_slot hj hother hi hget (hslot'.symm.trans hslot)
      have hw' : w = (slotOf j, item) := Prod.ext hslot (Option.some.inj (hother.symm.trans hget))
      exact absurd (hw' ▸ hw) (nodup_cons.mp hnodup).1
    · rw [update_of_ne hslot]
      exact h.pending w (hleft w hw)
  · intro j other hj hother
    by_cases hslot : slotOf j = slotOf i
    · obtain rfl := h.eq_of_slot hj hother hi hget hslot
      refine .inr ?_
      show update s.elems (slotOf j) item (slotOf j) = other
      rw [update_self]
      exact Option.some.inj (hget.symm.trans hother)
    · rcases h.kept j other hj hother with hw | hlanded
      · refine .inl ?_
        rcases mem_cons.mp (hperm.symm.subset hw) with heq | hw
        · exact absurd (congrArg Prod.fst heq) hslot
        · exact hw
      · refine .inr ?_
        show update s.elems (slotOf i) item (slotOf j) = other
        rw [update_of_ne hslot]
        exact hlanded
  · have happ := h.app
    revert happ hrace
    cases s.app with
    | idle => exact fun _ => id
    | ready slot size =>
      rintro - ⟨rfl, hnext⟩
      refine ⟨rfl, ?_⟩
      show _ = some (update s.elems (slotOf i) item (slotOf s.consumed.length))
      by_cases hslot : slotOf s.consumed.length = slotOf i
      · obtain rfl := h.eq_of_slot le_rfl hnext hi hget hslot
        rw [update_self]
        exact hget
      · rw [update_of_ne hslot]
        exact hnext
    | posted slot | advanced slot =>
      rintro hrace ⟨i', hi', hslot, hlast⟩
      refine ⟨i', hi', hslot, ?_⟩
      show _ = some (update s.elems (slotOf i) item slot)
      rw [update_of_ne fun heq => hrace (congrArg some heq)]
      exact hlast

/-- **THE SLOT FOUND READY HOLDS THE NEXT ITEM.** -/
theorem FlowOk.check (hidle : s.app = .idle) (hready : checkFifoReady s = true) :
    s.fifoHead = s.consumed.length ∧ s.posted[s.consumed.length]? = some (s.elems (slotOf s.consumed.length)) := by
  have hhead := h.head
  rw [hidle] at hhead
  have hhead : s.fifoHead = s.consumed.length := hhead
  have hidx := of_decide_eq_true hready
  have hle := h.consumed_le
  have hbound := h.bound
  rw [hhead, addU64_of_lt (by omega)] at hidx
  refine ⟨hhead, ?_⟩
  rcases h.slots (slotOf s.consumed.length) with hclear | ⟨i, hget⟩
  · rw [hclear] at hidx
    exact absurd hidx (Nat.succ_ne_zero _).symm
  · have hnum := h.numbered i _ hget
    have : i = s.consumed.length := by omega
    rw [← this] at hget ⊢
    exact hget

/-- An item that is next and not under way is found. -/
theorem FlowOk.found (hidle : s.app = .idle) (hget : s.posted[s.consumed.length]? = some item)
    (hlanded : (slotOf s.consumed.length, item) ∉ s.writes) :
    checkFifoReady s = true ∧ s.elems (slotOf s.fifoHead) = item := by
  have hhead := h.head
  rw [hidle] at hhead
  have hhead : s.fifoHead = s.consumed.length := hhead
  have hslot := (h.kept _ item le_rfl hget).resolve_left hlanded
  have hlt := lt_length hget
  have hbound := h.bound
  unfold checkFifoReady
  rw [hhead, hslot, h.numbered _ item hget, addU64_of_lt (by omega)]
  exact ⟨decide_eq_true rfl, rfl⟩

theorem FlowOk.postMultiSend {size : ℕ} (happ : s.app = .ready slot size) : FlowOk { s with
      app := .posted slot
      txq := s.txq ++ [sendWork (s.elems slot) size]
      consumed := s.consumed ++ [s.elems slot] } := by
  have hok := h.app
  rw [happ] at hok
  obtain ⟨hslot, hget⟩ := hok
  have hlen : (s.consumed ++ [s.elems slot]).length = s.consumed.length + 1 := length_append ..
  have hhead := h.head
  rw [happ] at hhead
  refine { h with
    inOrder := ?_, head := ?_, handed := ?_, writes := ?_, kept := ?_
    app := ⟨s.consumed.length, hlen.symm, hslot, hget⟩ }
  · obtain ⟨rest, hrest⟩ := h.inOrder
    rw [← hrest, getElem?_append_right le_rfl, Nat.sub_self] at hget
    cases rest with
    | nil => cases hget
    | cons x rest =>
      rw [← Option.some.inj hget, ← hrest]
      exact ⟨rest, append_assoc ..⟩
  · rw [hlen, ← hhead]
    rfl
  · show (s.txq ++ [_]).length + s.sent.length + s.completed = (s.consumed ++ [_]).length
    have := h.handed
    rw [length_append, length_singleton]
    omega
  · intro w hw
    obtain ⟨i, hi, hget', hw'⟩ := h.writes w hw
    refine ⟨i, ?_, hget', hw'⟩
    rw [hlen]
    refine Nat.lt_of_le_of_ne hi fun heq => ?_
    -- the item just used was in its slot, so it was not under way
    rw [← heq] at hget' hw'
    refine h.pending w hw ?_
    rw [hw', ← hslot]
    exact Option.some.inj (hget.symm.trans hget')
  · intro i item hi
    refine h.kept i item (le_trans ?_ hi)
    rw [hlen]
    exact Nat.le_succ _

theorem FlowOk.advance (happ : s.app = .posted slot) :
    FlowOk { s with app := .advanced slot, fifoHead := addU64 s.fifoHead 1 } := by
  have hok := h.app
  have hhead := h.head
  rw [happ] at hok hhead
  have hle := h.consumed_le
  have hbound := h.bound
  refine { h with head := ?_, app := hok }
  rw [addU64_of_lt (by omega)]
  exact hhead

/-- **CLEARING A SLOT LOSES NOTHING** while it still holds the item just used. -/
theorem FlowOk.clear (happ : s.app = .advanced slot) :
    FlowOk { s with app := .idle, elems := update s.elems slot {} } := by
  have hok := h.app
  have hhead := h.head
  rw [happ] at hok hhead
  obtain ⟨i, hi, rfl, hget⟩ := hok
  refine { h with
    head := hhead, pending := ?_, kept := ?_, slots := h.slots_update (.inl rfl) (slotOf i)
    app := trivial }
  · intro w hw
    obtain ⟨j, -, hget', -⟩ := h.writes w hw
    show update s.elems (slotOf i) {} w.1 ≠ w.2
    by_cases hslot : w.1 = slotOf i
    · rw [hslot, update_self]
      intro heq
      have hnum := h.numbered j _ hget'
      rw [← heq] at hnum
      cases hnum
    · rw [update_of_ne hslot]
      exact h.pending w hw
  · intro j item hj hitem
    refine (h.kept j item hj hitem).imp_right fun hlanded => ?_
    show update s.elems (slotOf i) {} (slotOf j) = item
    rw [update_of_ne, hlanded]
    intro hslot
    rw [← hslot, hlanded] at hget
    have hj : s.consumed.length ≤ j := hj
    have := h.idx_inj hget hitem
    omega

/-- **ONE STEP** without the race. -/
theorem FlowOk.step {a : FifoAction} {s' : Flow} (ha : Unraced s a) (hrun : fifoStep s a = .ok s') : FlowOk s' := by
  cases a with
  | recvAsync addr size rkey engineOffset rid =>
    cases hrun
    exact h.recvAsync addr size rkey engineOffset rid ha
  | land k =>
    simp only [fifoStep] at hrun
    split at hrun
    · cases hrun
    · next slot item hk =>
      cases hrun
      exact h.land hk (ha (slot, item) hk)
  | check size =>
    simp only [fifoStep] at hrun
    split at hrun
    · next hidle =>
      cases hrun
      split
      · next hready =>
        obtain ⟨hhead, hnext⟩ := h.check hidle hready
        refine { h with head := hhead, app := ?_ }
        rw [hhead]
        exact ⟨rfl, hnext⟩
      · exact h
    · cases hrun
  | postMultiSend =>
    simp only [fifoStep] at hrun
    split at hrun
    · next slot size happ =>
      cases hrun
      exact h.postMultiSend happ
    · cases hrun
  | advance =>
    simp only [fifoStep] at hrun
    split at hrun
    · next slot happ =>
      cases hrun
      exact h.advance happ
    · cases hrun
  | clear =>
    simp only [fifoStep] at hrun
    split at hrun
    · next slot happ =>
      cases hrun
      exact h.clear happ
    · cases hrun
  | transmit k =>
    simp only [fifoStep] at hrun
    split at hrun
    · cases hrun
    · next work hk =>
      have hlt := lt_length hk
      cases hrun
      refine { h with handed := ?_ }
      show (s.txq.eraseIdx k).length + (s.sent ++ [work]).length + s.completed = s.consumed.length
      have := h.handed
      rw [length_eraseIdx_of_lt hlt, length_append, length_singleton]
      omega
  | complete k =>
    simp only [fifoStep] at hrun
    split at hrun
    · cases hrun
    · next work hk =>
      have hlt := lt_length hk
      have hhanded := h.handed
      have hout := h.outstanding
      have hroom := h.room
      have hle := h.consumed_le
      have hpos : 1 ≤ s.outstandingReqs := by omega
      have hsub : subU32 s.outstandingReqs 1 = s.outstandingReqs - 1 :=
        subU32_of_le hpos (Nat.lt_of_le_of_lt hroom (by decide))
      rw [← ok.inj hrun, hsub]
      refine { h with handed := ?_, outstanding := ?_, room := (Nat.sub_le ..).trans hroom }
      · show s.txq.length + (s.sent.eraseIdx k).length + (s.completed + 1) = s.consumed.length
        rw [length_eraseIdx_of_lt hlt]
        omega
      · show s.outstandingReqs - 1 + (s.completed + 1) = s.posted.length
        omega

end

-- ── Everything posted can still be used

/-- Without the race, and with nothing else posted, the flow gets from `s` to `t`, where
    the thread is outside `uccl_send_async`. -/
structure Returns (s t : Flow) : Prop where
  reach : Reaches fifoStep Unraced s t
  ok : FlowOk t
  idle : t.app = .idle
  posted : t.posted = s.posted

section

variable (h : FlowOk s) {item : FifoItem}
include h

theorem FlowOk.return_clear (happ : s.app = .advanced slot) : ∃ t, Returns s t ∧ t.consumed = s.consumed := by
  refine ⟨_, ⟨(Reaches.refl _).cons (a := .clear) trivial ?_, h.clear happ, rfl, rfl⟩, rfl⟩
  simp only [fifoStep, happ]

theorem FlowOk.return_advance (happ : s.app = .posted slot) : ∃ t, Returns s t ∧ t.consumed = s.consumed := by
  obtain ⟨t, ht, hconsumed⟩ := (h.advance happ).return_clear rfl
  refine ⟨t, { ht with reach := ht.reach.cons (a := .advance) trivial ?_ }, hconsumed⟩
  simp only [fifoStep, happ]

theorem FlowOk.return_post {size : ℕ} (happ : s.app = .ready slot size) :
    ∃ t, Returns s t ∧ t.consumed = s.consumed ++ [s.elems slot] := by
  obtain ⟨t, ht, hconsumed⟩ := (h.postMultiSend happ).return_advance rfl
  refine ⟨t, { ht with reach := ht.reach.cons (a := .postMultiSend) trivial ?_ }, hconsumed⟩
  simp only [fifoStep, happ]

/-- The thread can finish its call. -/
theorem FlowOk.return : ∃ t, Returns s t := by
  cases happ : s.app with
  | idle => exact ⟨s, Reaches.refl s, h, happ, rfl⟩
  | ready slot size =>
    obtain ⟨t, ht, -⟩ := h.return_post happ
    exact ⟨t, ht⟩
  | posted slot =>
    obtain ⟨t, ht, -⟩ := h.return_advance happ
    exact ⟨t, ht⟩
  | advanced slot =>
    obtain ⟨t, ht, -⟩ := h.return_clear happ
    exact ⟨t, ht⟩

/-- An item that has landed and is next can be used. -/
theorem FlowOk.use (hidle : s.app = .idle) (hget : s.posted[s.consumed.length]? = some item)
    (hlanded : (slotOf s.consumed.length, item) ∉ s.writes) : ∃ t, Returns s t ∧ t.consumed = s.consumed ++ [item] := by
  obtain ⟨hready, hitem⟩ := h.found hidle hget hlanded
  have hstep : fifoStep s (.check 0) = .ok { s with app := .ready (slotOf s.fifoHead) 0 } := by
    simp only [fifoStep, hidle, hready, if_true]
  obtain ⟨t, ht, hconsumed⟩ := (h.step (a := .check 0) trivial hstep).return_post rfl
  refine ⟨t, { ht with reach := ht.reach.cons (a := .check 0) trivial hstep }, ?_⟩
  rw [hconsumed]
  rw [hitem]

/-- If it has not landed, it can land first. -/
theorem FlowOk.next (hidle : s.app = .idle) (hget : s.posted[s.consumed.length]? = some item) :
    ∃ t, Returns s t ∧ t.consumed = s.consumed ++ [item] := by
  by_cases hw : (slotOf s.consumed.length, item) ∈ s.writes
  · obtain ⟨k, hk⟩ := mem_iff_getElem?.mp hw
    have hrace : s.app.handedOver ≠ some (slotOf s.consumed.length) := by
      rw [hidle]
      exact nofun
    have hok := h.land hk hrace
    have hlanded : (slotOf s.consumed.length, item) ∉ s.writes.eraseIdx k := fun hmem =>
      hok.pending _ hmem (update_self ..)
    obtain ⟨t, ht, hconsumed⟩ := hok.use hidle hget hlanded
    refine ⟨t, { ht with reach := ht.reach.cons (a := .land k) ?_ ?_ }, hconsumed⟩
    · intro w hw
      rw [← Option.some.inj (hk.symm.trans hw)]
      exact hrace
    · simp only [fifoStep, hk]
  · exact h.use hidle hget hw

/-- **EVERYTHING POSTED CAN STILL BE USED.** -/
theorem FlowOk.drain : ∃ t, Reaches fifoStep Unraced s t ∧ t.posted = s.posted ∧ t.consumed = s.posted := by
  obtain ⟨t, ht⟩ := h.return
  -- by induction on the number of items left
  have hloop : ∀ (n : ℕ) (u : Flow), FlowOk u → u.app = .idle → u.posted.length - u.consumed.length = n →
      ∃ t, Reaches fifoStep Unraced u t ∧ t.posted = u.posted ∧ t.consumed = u.posted := by
    intro n
    induction n with
    | zero =>
      intro u hu _ hn
      exact ⟨u, Reaches.refl u, rfl, hu.inOrder.eq_of_length_le (Nat.sub_eq_zero_iff_le.mp hn)⟩
    | succ n ih =>
      intro u hu hidle hn
      have hget := getElem?_eq_getElem (l := u.posted) (i := u.consumed.length) (by omega)
      obtain ⟨v, hv, hconsumed⟩ := hu.next hidle hget
      obtain ⟨t, hreach, hposted, hall⟩ := ih v hv.ok hv.idle (by
        rw [hv.posted, hconsumed, length_append, length_singleton]
        omega)
      exact ⟨t, hv.reach.trans hreach, hposted.trans hv.posted, hall.trans hv.posted⟩
  obtain ⟨u, hreach, hposted, hall⟩ := hloop _ t ht.ok ht.idle rfl
  exact ⟨u, ht.reach.trans hreach, hposted.trans ht.posted, hall.trans ht.posted⟩

end

end

/-- **NO POSTED RECEIVE IS LOST.** -/
structure Lossless (s : Flow) : Prop where
  /-- What was used is what was posted first, in the order posted, each item once, -/
  inOrder : s.consumed <+: s.posted
  /-- which is the order of `idx`. -/
  numbered : ∀ i item, s.posted[i]? = some item → item.idx = i + 1
  /-- An item that was not used is under way or in its slot, -/
  kept : ∀ i item, s.consumed.length ≤ i → s.posted[i]? = some item →
    (slotOf i, item) ∈ s.writes ∨ s.elems (slotOf i) = item
  /-- is found once it has landed and is next, -/
  found : s.app = .idle → ∀ item, s.posted[s.consumed.length]? = some item →
    (slotOf s.consumed.length, item) ∉ s.writes →
    checkFifoReady s = true ∧ s.elems (slotOf s.fifoHead) = item
  /-- and can be used with all the others. -/
  used : ∃ t, Reaches fifoStep Unraced s t ∧ t.posted = s.posted ∧ t.consumed = s.posted

/-- **THE FIFO IS LOSSLESS WITHOUT THE RACE**: in every interleaving in which no write lands in a slot between the
    hand-over of its request and its `memset`, every item is used exactly once and in `idx` order. -/
theorem fifo_lossless {as : List FifoAction} (has : Along fifoStep Unraced {} as) {s : Flow}
    (hs : runFrom fifoStep {} as = .ok s) : Lossless s := by
  have h : FlowOk s := runFrom_invariant_along (fun _ _ _ h ha hrun => h.step ha hrun) flowOk_initial has hs
  exact { h with found := fun hidle _ hget hlanded => h.found hidle hget hlanded, used := h.drain }

/-- The receiver posts 17 buffers as fast as it may: the first is used and its receive completed in between. -/
def reuseRun : List FifoAction :=
  List.replicate 16 (.recvAsync 1 1 1 0 0) ++ List.replicate 16 (.land 0) ++
    [.check 1, .postMultiSend, .transmit 0, .complete 0, .recvAsync 1 1 1 0 0, .advance, .clear,
     .land 0]

theorem fifo_lossless_reuse : ∃ s, runFrom fifoStep {} reuseRun = .ok s ∧ s.posted.length = 17 ∧ s.consumed.length = 1 ∧
      s.writes = [] ∧ Lossless s := by
  refine exists_run_of_guarded (G := Unraced)
    (fun s => s.posted.length = 17 ∧ s.consumed.length = 1 ∧ s.writes = []) ?_ fun s halong hrun hs => ?_
  · decide +kernel
  · exact ⟨hs.1, hs.2.1, hs.2.2, fifo_lossless halong hrun⟩

/-- The same with the write of the 17th buffer landing two steps earlier. -/
def racingRun : List FifoAction :=
  List.replicate 16 (.recvAsync 1 1 1 0 0) ++ List.replicate 16 (.land 0) ++
    [.check 1, .postMultiSend, .transmit 0, .complete 0, .recvAsync 1 1 1 0 0, .land 0, .advance,
     .clear]

/-- **A WRITE IS ERASED**: the item with `idx` 17 is not used, not under way and not in the FIFO. -/
theorem racing_write_erased : ∃ s item, runFrom fifoStep {} racingRun = .ok s ∧ s.posted[16]? = some item ∧
      item.idx = 17 ∧ item ∉ s.consumed ∧ s.writes = [] ∧ ∀ slot, s.elems slot ≠ item := by
  have heval : observe (fun s : Flow => (s.posted[16]?, s.consumed.map FifoItem.idx, s.writes,
      decide (∀ slot, s.elems slot ≠ fifoItem 16 1 1 1 0 0))) (runFrom fifoStep {} racingRun)
      = some (some (fifoItem 16 1 1 1 0 0), [1], [], true) := by decide +kernel
  obtain ⟨s, hrun, hobs⟩ := exists_of_observe heval
  refine ⟨s, fifoItem 16 1 1 1 0 0, hrun, congrArg Prod.fst hobs, rfl, fun hmem => ?_,
    congrArg (fun x => x.2.2.1) hobs, of_decide_eq_true (congrArg (fun x => x.2.2.2) hobs)⟩
  have hidx := mem_map_of_mem (f := FifoItem.idx) hmem
  rw [show s.consumed.map FifoItem.idx = [1] from congrArg (fun x => x.2.1) hobs] at hidx
  exact absurd hidx (by decide)

end RdmaFifo
