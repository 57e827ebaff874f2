import Uccl.P2pNcclProofs

/-! # Which transfer meets which on the NCCL transport

    A one-sided call of `NCCLEndpoint` (p2p/nccl/nccl_endpoint.cc) is two steps: it sends a control message over the
    socket, under `ctrl_send_mu`, and then enqueues its own `ncclSend` or `ncclRecv` on the stream of the connection,
    under no lock. The peer's `control_loop_` enqueues the other half when it comes to the message. Each side has one
    communicator and one stream for both directions, and the communicator pairs the k-th operation of one side with the
    k-th of the other.

    So two callers of one side can pass each other between the two steps (`callers_cross`), a call of each side puts its
    own half first, and a transfer whose size has no 32-bit image is dropped by the peer. When calls take turns every
    transfer is between its own two buffers (`paired_in_turn`).

    The number of a request and the order of the control messages are read by no function of the source. -/

namespace P2pNcclPair

open StepRun Function List Except
open P2pNccl (ReqType Env allGood)

-- ── One request

inductive Side
  | left
  | right
  deriving DecidableEq

def Side.other : Side → Side
  | .left => .right
  | .right => .left

/-- `ncclSend` or `ncclRecv` on the stream of a connection, made for request `req`. -/
structure Op where
  isSend : Bool
  buf : ℕ
  size : ℕ
  req : ℕ
  deriving DecidableEq

/-- A control message of request `req`; `kWriteReq` and `kReadReq` have the names of the calls. -/
structure CtrlMsg where
  type : ReqType
  size : ℕ
  addr : ℕ
  req : ℕ
  deriving DecidableEq

/-- A call of `uccl_write_async` or `uccl_read_async` on one side of the connection: the local buffer,
    the size, the descriptor of the remote slot, and how the calls below it end. -/
structure Call where
  side : Side
  type : ReqType
  buf : ℕ
  size : ℕ
  slotSize : ℕ
  slotAddr : ℕ
  env : Env

open Call

def Call.xferSize (c : Call) : ℕ := if 0 < c.slotSize ∧ c.slotSize < c.size then c.slotSize else c.size

/-- The size is cast to 32 bits. -/
def Call.msg (c : Call) (req : ℕ) : CtrlMsg := ⟨c.type, c.xferSize % 2 ^ 32, c.slotAddr, req⟩

/-- What the caller enqueues: `send_internal_` for a write, `recv_internal_` for a read. -/
def Call.localOp (c : Call) (req : ℕ) : Op :=
  match c.type with
  | .write => ⟨true, c.buf, c.xferSize, req⟩
  | .read => ⟨false, c.buf, c.xferSize, req⟩

/-- What `control_loop_` enqueues for a message: `recv_internal_` for a write, `send_internal_` for a read. -/
def CtrlMsg.op (m : CtrlMsg) : Op :=
  match m.type with
  | .write => ⟨false, m.addr, m.size, m.req⟩
  | .read => ⟨true, m.addr, m.size, m.req⟩

-- ── The connection

/-- The control loop of a side: it waits for a message, has one in hand, polls its operation, which is
    the `k`-th of the stream, or has returned. -/
inductive Loop
  | idle
  | serving (m : CtrlMsg)
  | polling (k : ℕ)
  | returned

structure Sys where
  /-- The calls, in the order they begin; the place of a call is the number of its request. -/
  calls : List Call
  /-- The calls that have sent their message and not enqueued. -/
  posting : List ℕ
  /-- The messages on their way to a side. -/
  wire : Side → List CtrlMsg
  loop : Side → Loop
  stream : Side → List Op
  /-- The requests in the order of their messages. -/
  sent : List ℕ

variable {s t : Sys} {c x : Call} {req : ℕ}

def Sys.init : Sys := ⟨[], [], fun _ => [], fun _ => .idle, fun _ => [], []⟩

/-- The first half of a call, up to the release of `ctrl_send_mu`. -/
def call (s : Sys) (c : Call) : Sys :=
  if c.env.flow = false ∨ c.size = 0 ∨ c.env.ctrlMsg = false then { s with calls := s.calls ++ [c] }
  else
    { s with
      calls := s.calls ++ [c]
      posting := s.posting ++ [s.calls.length]
      wire := Function.update s.wire c.side.other (s.wire c.side.other ++ [c.msg s.calls.length])
      sent := s.sent ++ [s.calls.length] }

/-- The second half: the operation goes on the stream, or the call returns -1; without an event it does both. -/
def enqueue (s : Sys) (req : ℕ) : Sys :=
  match s.calls[req]? with
  | none => s
  | some c =>
    if req ∈ s.posting then
      { s with
        posting := s.posting.erase req
        stream := Function.update s.stream c.side
          (if c.env.onStream then s.stream c.side ++ [c.localOp req] else s.stream c.side) }
    else s

/-- `control_loop_` receives a message; an empty one is skipped. -/
def receive (s : Sys) (side : Side) : Sys :=
  match s.loop side, s.wire side with
  | .idle, m :: rest =>
    { s with
      wire := Function.update s.wire side rest
      loop := Function.update s.loop side (if m.size = 0 then .idle else .serving m) }
  | _, _ => s

/-- `control_loop_` enqueues the operation of its message, or returns. -/
def serve (s : Sys) (side : Side) (env : Env) : Sys :=
  match s.loop side with
  | .serving m =>
    if env.enqueues then
      { s with
        loop := Function.update s.loop side (.polling (s.stream side).length)
        stream := Function.update s.stream side (s.stream side ++ [m.op]) }
    else
      { s with
        loop := Function.update s.loop side .returned
        stream := Function.update s.stream side
          (if env.onStream then s.stream side ++ [m.op] else s.stream side) }
  | _ => s

/-- `control_loop_` goes on when its operation has completed: both sides have come to it. -/
def polled (s : Sys) (side : Side) : Sys :=
  match s.loop side with
  | .polling k => if k < (s.stream side.other).length then { s with loop := Function.update s.loop side .idle } else s
  | _ => s

inductive Action
  | call (c : Call)
  | enqueue (req : ℕ)
  | receive (side : Side)
  | serve (side : Side) (env : Env)
  | polled (side : Side)

def step (s : Sys) : Action → Except Empty Sys
  | .call c => .ok (call s c)
  | .enqueue req => .ok (enqueue s req)
  | .receive side => .ok (receive s side)
  | .serve side env => .ok (serve s side env)
  | .polled side => .ok (polled s side)

/-- The operation that request `req` of call `c` has on each side. -/
def Call.half (c : Call) (req : ℕ) (side : Side) : Op := if side = c.side then c.localOp req else (c.msg req).op

/-- The k-th operations of the two sides are the halves of one request, and of one size. -/
def PairedAt (s : Sys) (k : ℕ) : Prop :=
  ∀ a b, (s.stream .left)[k]? = some a → (s.stream .right)[k]? = some b →
    ∃ (req : ℕ) (c : Call), s.calls[req]? = some c ∧ a = c.half req .left ∧ b = c.half req .right ∧ a.size = b.size

theorem Call.half_req (c : Call) (req : ℕ) (side : Side) : (c.half req side).req = req := by
  unfold half localOp CtrlMsg.op msg
  cases c.type <;> split <;> rfl

/-- Halves of two requests are no pair. -/
theorem not_pairedAt {k : ℕ} {a b : Op} (ha : (s.stream .left)[k]? = some a)
    (hb : (s.stream .right)[k]? = some b) (hne : a.req ≠ b.req) : ¬ PairedAt s k := by
  intro hpaired
  obtain ⟨req, c, _, hleft, hright, _⟩ := hpaired a b ha hb
  rw [hleft, hright, half_req, half_req] at hne
  exact hne rfl

-- ── The defects

/-- A write of 64 bytes from `buf` to the peer's `addr`. -/
def write64 (side : Side) (buf addr : ℕ) : Call := ⟨side, .write, buf, 64, 64, addr, allGood⟩

/-- **TWO CALLERS CROSS**: the second writer enqueues first, and its payload goes to the address of the first. -/
theorem callers_cross : ∃ s, runFrom step Sys.init
      [.call (write64 .left 100 500), .call (write64 .left 200 600), .enqueue 1, .receive .right,
        .serve .right allGood] = .ok s ∧
    s.stream .left = [⟨true, 200, 64, 1⟩] ∧ s.stream .right = [⟨false, 500, 64, 0⟩] ∧ ¬ PairedAt s 0 :=
  ⟨_, rfl, rfl, rfl, not_pairedAt rfl rfl (by decide)⟩

-- ── Taking turns

/-- The call sends nothing, or its size fits in 32 bits and its operation is enqueued. -/
def Call.Sound (c : Call) : Prop :=
  (c.env.flow = false ∨ c.size = 0 ∨ c.env.ctrlMsg = false) ∨ (c.xferSize < 2 ^ 32 ∧ c.env.enqueues = true)
deriving Decidable

/-- The side has a message in hand. -/
def Loop.hand : Loop → List CtrlMsg
  | .serving m => [m]
  | .idle => []
  | .polling _ => []
  | .returned => []

/-- What the peer has asked a side for and the side has not enqueued. -/
def Sys.asked (s : Sys) (side : Side) : List CtrlMsg := (s.loop side).hand ++ s.wire side

/-- A call begins when no call is between its two steps and its side has enqueued all that it was asked
    for; no operation is refused. -/
def InTurn (s : Sys) : Action → Prop
  | .call c => c.Sound ∧ s.posting = [] ∧ s.asked c.side = []
  | .enqueue _ => True
  | .receive _ => True
  | .serve _ env => env.enqueues = true
  | .polled _ => True

instance (s : Sys) (a : Action) : Decidable (InTurn s a) := by
  cases a <;> unfold InTurn <;> infer_instance

/-- The operations of a side that its callers have not enqueued. -/
def Sys.own (s : Sys) (side : Side) : List Op :=
  s.posting.filterMap fun req => s.calls[req]?.bind fun c => if c.side = side then some (c.localOp req) else none

/-- Request `req` was sent, with a size that fits, and its operation will be enqueued. -/
def Started (s : Sys) (req : ℕ) : Prop :=
  ∃ c, s.calls[req]? = some c ∧ c.size ≠ 0 ∧ c.xferSize < 2 ^ 32 ∧ c.env.enqueues = true

def halfOf (s : Sys) (side : Side) (req : ℕ) : Option Op := s.calls[req]?.map fun c => c.half req side

structure Inv (s : Sys) : Prop where
  started : ∀ req ∈ s.sent, Started s req
  /-- **ONE ORDER**: what a side has enqueued, was asked for and will enqueue itself is what was sent. -/
  order : ∀ side, (s.stream side ++ ((s.asked side).map CtrlMsg.op ++ s.own side)).map some =
    s.sent.map (halfOf s side)
  /-- A call between its steps is alone, and its side was asked for nothing. -/
  alone : s.posting = [] ∨ ∃ req c, s.posting = [req] ∧ s.calls[req]? = some c ∧ c.env.enqueues = true ∧
    s.asked c.side = []
  /-- No message on its way is empty. -/
  sized : ∀ side, ∀ m ∈ s.asked side, m.size ≠ 0
  running : ∀ side, s.loop side ≠ .returned

theorem Inv.init : Inv Sys.init where
  started := forall_mem_nil _
  order := fun _ => rfl
  alone := .inl rfl
  sized := fun _ => forall_mem_nil _
  running := fun _ => Loop.noConfusion

-- ── The two halves

theorem Side.other_ne (side : Side) : side.other ≠ side := by
  cases side with
  | left | right => exact Side.noConfusion

theorem Side.eq_other {side t : Side} (h : t ≠ side) : t = side.other := by
  cases side with
  | left =>
    cases t with
    | left => exact absurd rfl h
    | right => rfl
  | right =>
    cases t with
    | left => rfl
    | right => exact absurd rfl h

theorem Call.half_self (c : Call) (req : ℕ) : c.half req c.side = c.localOp req := if_pos rfl

theorem Call.half_other (c : Call) (req : ℕ) : c.half req c.side.other = (c.msg req).op :=
  if_neg (Side.other_ne c.side)

theorem Call.half_size (hfits : c.xferSize < 2 ^ 32) (req : ℕ) (side : Side) : (c.half req side).size = c.xferSize := by
  have hmod : c.xferSize % 2 ^ 32 = c.xferSize := Nat.mod_eq_of_lt hfits
  unfold half
  by_cases hside : side = c.side
  · rw [if_pos hside]
    unfold localOp
    cases c.type <;> rfl
  · rw [if_neg hside]
    unfold CtrlMsg.op msg
    cases c.type <;> exact hmod

theorem Call.xferSize_ne_zero (hsize : c.size ≠ 0) : c.xferSize ≠ 0 :=
  P2pNccl.xferSize_ne_zero hsize c.slotSize

theorem own_nil (h : s.posting = []) (side : Side) : s.own side = [] := by
  unfold Sys.own
  rw [h]
  rfl

theorem own_single (h : s.posting = [req]) (hc : s.calls[req]? = some c)
    (side : Side) : s.own side = if c.side = side then [c.localOp req] else [] := by
  unfold Sys.own
  rw [h]
  by_cases hside : c.side = side
  · rw [if_pos hside]
    refine filterMap_cons_some ?_
    rw [hc]
    exact if_pos hside
  · rw [if_neg hside]
    refine filterMap_cons_none ?_
    rw [hc]
    exact if_neg hside

-- ── Steps

/-- The requests that were sent are the same behind a new call. -/
theorem Inv.halves_append (hs : Inv s) (ht : t.calls = s.calls ++ [x]) (side : Side) :
    s.sent.map (halfOf t side) = s.sent.map (halfOf s side) := by
  refine map_congr_left fun req hreq => ?_
  obtain ⟨c, hc, _⟩ := hs.started req hreq
  unfold halfOf
  rw [ht, hc, getElem?_append_some hc]

theorem Started.append (h : Started s req) (ht : t.calls = s.calls ++ [x]) : Started t req := by
  obtain ⟨c, hc, hrest⟩ := h
  exact ⟨c, by rw [ht]; exact getElem?_append_some hc _, hrest⟩

/-- A call that sends nothing. -/
theorem Inv.quiet (hs : Inv s) (hpost : s.posting = []) (x : Call) : Inv { s with calls := s.calls ++ [x] } :=
  { hs with
    started := fun req hreq => (hs.started req hreq).append rfl
    order := by
      intro side
      have hown : ∀ t : Sys, t.posting = s.posting → t.own side = [] := fun t ht => own_nil (ht.trans hpost) side
      show map some (s.stream side ++ ((s.asked side).map CtrlMsg.op ++ _)) = _
      rw [hs.halves_append rfl side, ← hs.order side, hown s rfl, hown { s with calls := s.calls ++ [x] } rfl]
    alone := .inl hpost }

theorem call_inv (hs : Inv s) (hturn : InTurn s (.call c)) : Inv (call s c) := by
  obtain ⟨hsound, hpost, hasked⟩ := hturn
  unfold call
  by_cases hquiet : c.env.flow = false ∨ c.size = 0 ∨ c.env.ctrlMsg = false
  · rw [if_pos hquiet]
    exact hs.quiet hpost c
  · rw [if_neg hquiet]
    obtain ⟨hfits, hworks⟩ := hsound.resolve_left hquiet
    have hsize : c.size ≠ 0 := fun h => hquiet (.inr (.inl h))
    have hlast : (s.calls ++ [c])[s.calls.length]? = some c := getElem?_concat_length
    rw [hpost]
    generalize hreq : s.calls.length = req at hlast
    -- the message goes to the other side, the caller owes its own half
    have hself : update s.wire c.side.other (s.wire c.side.other ++ [c.msg req]) c.side = s.wire c.side :=
      update_of_ne (Side.other_ne c.side).symm _ _
    have hother : update s.wire c.side.other (s.wire c.side.other ++ [c.msg req]) c.side.other =
        s.wire c.side.other ++ [c.msg req] := update_self _ _ _
    refine ⟨forall_mem_snoc (fun r hr => (hs.started r hr).append rfl) ⟨c, hlast, hsize, hfits, hworks⟩,
      fun side => ?_, ?_, fun side m hm => ?_, hs.running⟩
    · have horder := hs.order side
      rw [own_nil hpost side, append_nil] at horder
      have hnew : halfOf { s with calls := s.calls ++ [c] } side req = some (c.half req side) := by
        unfold halfOf
        rw [hlast]
        rfl
      show map some (s.stream side ++ (((s.loop side).hand ++
        update s.wire c.side.other (s.wire c.side.other ++ [c.msg req]) side).map CtrlMsg.op ++ _)) =
        map (halfOf { s with calls := s.calls ++ [c] } side) (s.sent ++ [req])
      have hsent : map (halfOf { s with calls := s.calls ++ [c] } side) (s.sent ++ [req]) =
          map some (s.stream side ++ (s.asked side).map CtrlMsg.op) ++ [some (c.half req side)] := by
        rw [map_append, map_singleton, hnew, hs.halves_append rfl side, ← horder]
      rw [own_single rfl hlast, hsent]
      by_cases hside : side = c.side
      · rw [hside, hself, if_pos rfl, half_self]
        simp only [map_append, append_assoc, map_cons, map_nil, Sys.asked]
      · rw [Side.eq_other hside, hother, if_neg (Side.other_ne c.side).symm, half_other]
        simp only [map_append, append_assoc, map_cons, map_nil, append_nil, Sys.asked]
    · refine .inr ⟨req, c, rfl, hlast, hworks, ?_⟩
      show (s.loop c.side).hand ++ update s.wire c.side.other _ c.side = []
      rw [hself]
      exact hasked
    · by_cases hside : side = c.side
      · refine hs.sized side m ?_
        have hm' : m ∈ (s.loop side).hand ++ update s.wire c.side.other (s.wire c.side.other ++ [c.msg req]) side := hm
        rw [hside, hself] at hm'
        rw [hside]
        exact hm'
      · have hm' : m ∈ (s.loop side).hand ++ update s.wire c.side.other (s.wire c.side.other ++ [c.msg req]) side := hm
        rw [Side.eq_other hside, hother, ← append_assoc] at hm'
        rcases mem_append.mp hm' with hold | hnew
        · exact hs.sized _ m hold
        · rw [mem_singleton.mp hnew]
          show c.xferSize % 2 ^ 32 ≠ 0
          rw [Nat.mod_eq_of_lt hfits]
          exact xferSize_ne_zero hsize

theorem enqueue_inv (hs : Inv s) (req : ℕ) : Inv (enqueue s req) := by
  unfold enqueue
  split
  · exact hs
  · next c hc =>
    by_cases hmem : req ∈ s.posting
    · rw [if_pos hmem]
      rcases hs.alone with hnone | ⟨r, c', hpost, hc', hworks, hasked⟩
      · rw [hnone] at hmem
        cases hmem
      · rw [hpost] at hmem
        have hr : req = r := mem_singleton.mp hmem
        subst hr
        have hcc : c' = c := Option.some.inj (hc'.symm.trans hc)
        subst hcc
        have herase : s.posting.erase req = [] := by
          rw [hpost, erase_cons_head]
        have htaken : c'.env.onStream = true := (Bool.and_eq_true_iff.mp (Bool.and_eq_true_iff.mp hworks).1).1
        rw [if_pos htaken, herase]
        refine { hs with order := fun side => ?_, alone := .inl rfl }
        have horder := hs.order side
        rw [own_single hpost hc] at horder
        show map some (update s.stream c'.side (s.stream c'.side ++ [c'.localOp req]) side ++
          ((s.asked side).map CtrlMsg.op ++ [])) = s.sent.map (halfOf s side)
        rw [← horder]
        by_cases hside : side = c'.side
        · rw [hside, update_self, if_pos rfl, hasked, append_assoc]
          rfl
        · rw [update_of_ne hside, if_neg (Ne.symm hside)]
    · rw [if_neg hmem]
      exact hs

/-- What a side was asked for, with its loop and wire in hand. -/
theorem asked_update {side : Side} {l : Loop} {w : List CtrlMsg} (h : l.hand ++ w = s.asked side) (t : Side) :
    (update s.loop side l t).hand ++ update s.wire side w t = s.asked t := by
  by_cases ht : t = side
  · rw [ht, update_self, update_self]
    exact h
  · rw [update_of_ne ht, update_of_ne ht]
    rfl

section

variable (hs : Inv s) {side : Side}
include hs

/-- A loop that passes its message on keeps what its side was asked for. -/
theorem Inv.pass {l : Loop} {w : List CtrlMsg} (h : l.hand ++ w = s.asked side) (hl : l ≠ .returned) :
    Inv { s with wire := update s.wire side w, loop := update s.loop side l } := by
  have hasked : ∀ t, Sys.asked { s with wire := update s.wire side w, loop := update s.loop side l } t = s.asked t :=
    asked_update h
  refine ⟨hs.started, fun t => ?_, ?_, fun t m hm => hs.sized t m (hasked t ▸ hm), fun t => ?_⟩
  · rw [hasked t]
    exact hs.order t
  · rcases hs.alone with hnone | ⟨req, c, hpost, hc, hworks, hside⟩
    · exact .inl hnone
    · exact .inr ⟨req, c, hpost, hc, hworks, (hasked c.side).trans hside⟩
  · exact (forall_update_iff _ fun _ l => l ≠ Loop.returned).mpr ⟨hl, fun t _ => hs.running t⟩ t

theorem receive_inv (side : Side) : Inv (receive s side) := by
  unfold receive
  split
  · next m rest hloop hwire =>
    have hasked : s.asked side = m :: rest := by
      unfold Sys.asked
      rw [hloop, hwire]
      rfl
    have hsize : m.size ≠ 0 := hs.sized side m (by rw [hasked]; exact mem_cons_self)
    rw [if_neg hsize]
    exact hs.pass (hasked.symm ▸ rfl) Loop.noConfusion
  · exact hs

theorem polled_inv (side : Side) : Inv (polled s side) := by
  unfold polled
  split
  · next k hloop =>
    split
    · have hsame : Loop.idle.hand ++ s.wire side = s.asked side := by
        unfold Sys.asked
        rw [hloop]
        rfl
      have hpass := hs.pass hsame Loop.noConfusion
      rw [update_eq_self] at hpass
      exact hpass
    · exact hs
  · exact hs

theorem serve_inv (side : Side) {env : Env} (hworks : env.enqueues = true) : Inv (serve s side env) := by
  unfold serve
  split
  · next m hloop =>
    rw [if_pos hworks]
    have hasked : s.asked side = m :: s.wire side := by
      unfold Sys.asked
      rw [hloop]
      rfl
    -- the message in hand becomes the last operation of the stream
    have hrest : ∀ t, (update s.loop side (.polling (s.stream side).length) t).hand ++ s.wire t =
        if t = side then s.wire side else s.asked t := by
      intro t
      by_cases ht : t = side
      · rw [ht, update_self, if_pos rfl]
        rfl
      · rw [update_of_ne ht, if_neg ht]
        rfl
    refine ⟨hs.started, fun t => ?_, ?_, fun t x hx => ?_, fun t => ?_⟩
    · show map some (update s.stream side (s.stream side ++ [m.op]) t ++
        (((update s.loop side (.polling (s.stream side).length) t).hand ++ s.wire t).map CtrlMsg.op ++
          s.own t)) = s.sent.map (halfOf s t)
      rw [hrest t, ← hs.order t]
      by_cases ht : t = side
      · rw [ht, update_self, if_pos rfl, hasked, append_assoc]
        rfl
      · rw [update_of_ne ht, if_neg ht]
    · rcases hs.alone with hnone | ⟨req, c, hpost, hc, hw, hnil⟩
      · exact .inl hnone
      · refine .inr ⟨req, c, hpost, hc, hw, (hrest c.side).trans ?_⟩
        by_cases hside : c.side = side
        · rw [hside, hasked] at hnil
          cases hnil
        · rw [if_neg hside]
          exact hnil
    · have hx' : x ∈ (update s.loop side (.polling (s.stream side).length) t).hand ++ s.wire t := hx
      rw [hrest t] at hx'
      by_cases ht : t = side
      · rw [if_pos ht] at hx'
        exact hs.sized side x (by rw [hasked]; exact mem_cons_of_mem _ hx')
      · rw [if_neg ht] at hx'
        exact hs.sized t x hx'
    · exact (forall_update_iff _ fun _ l => l ≠ Loop.returned).mpr ⟨Loop.noConfusion, fun t _ => hs.running t⟩ t
  · exact hs

theorem step_inv {s' : Sys} {a : Action} (hturn : InTurn s a) (hstep : step s a = .ok s') : Inv s' := by
  cases a with
  | call c => exact ok.inj hstep ▸ call_inv hs hturn
  | enqueue req => exact ok.inj hstep ▸ enqueue_inv hs req
  | receive side => exact ok.inj hstep ▸ receive_inv hs side
  | serve side env => exact ok.inj hstep ▸ serve_inv hs side hturn
  | polled side => exact ok.inj hstep ▸ polled_inv hs side

-- ── Every transfer is between its own buffers

/-- The k-th operation of a side is the half of the k-th request. -/
theorem Inv.stream_get {k : ℕ} {a : Op} (ha : (s.stream side)[k]? = some a) :
    ∃ req, s.sent[k]? = some req ∧ halfOf s side req = some a := by
  have hlt : k < (s.stream side).length := lt_length ha
  have hget : (s.sent.map (halfOf s side))[k]? = some (some a) := by
    rw [← hs.order side, getElem?_map, getElem?_append_left hlt, ha]
    rfl
  rw [getElem?_map] at hget
  obtain ⟨req, hreq, hhalf⟩ := Option.map_eq_some_iff.mp hget
  exact ⟨req, hreq, hhalf⟩

theorem Inv.pairedAt (k : ℕ) : PairedAt s k := by
  intro a b ha hb
  obtain ⟨req, hreq, hleft⟩ := hs.stream_get ha
  obtain ⟨req', hreq', hright⟩ := hs.stream_get hb
  have hrr : req' = req := Option.some.inj (hreq'.symm.trans hreq)
  subst hrr
  obtain ⟨c, hc, _, hfits, _⟩ := hs.started req' (mem_of_getElem? hreq)
  unfold halfOf at hleft hright
  rw [hc] at hleft hright
  have hla : a = c.half req' .left := (Option.some.inj hleft).symm
  have hrb : b = c.half req' .right := (Option.some.inj hright).symm
  refine ⟨req', c, hc, hla, hrb, ?_⟩
  rw [hla, hrb, half_size hfits, half_size hfits]

end

/-- Request `req` has been transferred, between its own buffers. -/
def Transferred (s : Sys) (req : ℕ) : Prop :=
  ∃ (k : ℕ) (c : Call), s.calls[req]? = some c ∧ (s.stream .left)[k]? = some (c.half req .left) ∧
    (s.stream .right)[k]? = some (c.half req .right)

/-- No call is between its steps and no side was asked for anything that it has not enqueued. -/
def Settled (s : Sys) : Prop := s.posting = [] ∧ ∀ side, s.asked side = []

theorem Inv.transferred (hs : Inv s) (hset : Settled s) (hreq : req ∈ s.sent) : Transferred s req := by
  obtain ⟨k, hk⟩ := mem_iff_getElem?.mp hreq
  obtain ⟨c, hc, _⟩ := hs.started req hreq
  have hside : ∀ side, (s.stream side)[k]? = some (c.half req side) := by
    intro side
    have horder := hs.order side
    rw [hset.2 side, own_nil hset.1] at horder
    have hget : ((s.stream side).map some)[k]? = some (halfOf s side req) := by
      rw [← append_nil (s.stream side)]
      show (map some (s.stream side ++ (map CtrlMsg.op [] ++ [])))[k]? = _
      rw [horder, getElem?_map, hk]
      rfl
    rw [getElem?_map] at hget
    obtain ⟨a, ha, hsome⟩ := Option.map_eq_some_iff.mp hget
    unfold halfOf at hsome
    rw [hc] at hsome
    rw [ha, Option.some.inj hsome]
  exact ⟨k, c, hc, hside .left, hside .right⟩

/-- **EVERY TRANSFER IS ITS OWN**: in every run whose calls take turns, operations that are paired are the two halves of
    one request; and when all is enqueued every request that was sent has been transferred. -/
theorem paired_in_turn {s : Sys} {as : List Action} (halong : Along step InTurn Sys.init as)
    (hrun : runFrom step Sys.init as = .ok s) :
    (∀ k, PairedAt s k) ∧ (Settled s → ∀ req ∈ s.sent, Transferred s req) := by
  have hs : Inv s := runFrom_invariant_along (fun _ _ _ hi hg hst => step_inv hi hg hst) Inv.init halong hrun
  exact ⟨hs.pairedAt, fun hset _ hreq => hs.transferred hset hreq⟩

/-- Two writes in a row from the left, and then a read from the right. -/
theorem paired_in_turn_both_sides : ∃ s, runFrom step Sys.init
      [.call (write64 .left 100 500), .enqueue 0, .call (write64 .left 200 600), .receive .right, .enqueue 1,
        .serve .right allGood, .polled .right, .receive .right, .serve .right allGood, .polled .right,
        .call ⟨.right, .read, 700, 64, 64, 300, allGood⟩, .receive .left, .enqueue 2, .serve .left allGood] = .ok s ∧
    s.sent = [0, 1, 2] ∧ (∀ k, PairedAt s k) ∧ (Settled s → ∀ req ∈ s.sent, Transferred s req) := by
  refine exists_run_of_guarded (G := InTurn) (fun s => s.sent = [0, 1, 2]) ?_
    fun s halong hrun hs => ⟨hs, paired_in_turn halong hrun⟩
  decide +kernel

end P2pNcclPair
