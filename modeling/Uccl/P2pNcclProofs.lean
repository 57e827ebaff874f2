import Mathlib.Algebra.Ring.Nat
import Uccl.StepRunProofs

/-! # Requests on the NCCL transport

    `NCCLEndpoint` (p2p/nccl/nccl_endpoint.cc) makes an `AsyncHandle` with a GPU event for every send and receive, and
    keeps it in the `context` of an `NcclRequest`. Its control loop polls the request that it has made. Everyone else
    goes through p2p/endpoint_wrapper.h and has a `UcclRequest`, which has no `context`: the wrapper makes an
    `NcclRequest` for each call and drops it behind the call. So a request of the wrapper is reported complete when it
    is first looked at, and its handle stays (`complete_before_event`).

    Who made a handle, which handle a request's call has made, and the log of the polls are read by no function of the
    source. -/

namespace P2pNccl

open StepRun

-- ── The endpoint

/-- `ReqType` and `NcclReqType` have the same values. -/
inductive ReqType
  | read
  | write
  deriving DecidableEq

/-- What `gpuEventQuery` returns. -/
inductive EventStatus
  | notReady
  | success
  | error
  deriving DecidableEq

/-- A call through the wrapper, or the control loop of a connection. -/
inductive Maker
  | caller
  | control (conn : ℕ)
  deriving DecidableEq

/-- The event of a handle, how often the handle was deleted, and who made it. -/
structure AsyncHandle where
  event : EventStatus
  deletes : ℕ
  maker : Maker
  deriving DecidableEq

/-- `context` is the number of the handle. -/
structure NcclRequest where
  type : ReqType
  peerId : ℕ
  context : Option ℕ
  engineIdx : ℕ
  deriving DecidableEq

/-- Whether each of the things that a call needs is there or succeeds, in the order they are tried. -/
structure Env where
  flow : Bool
  ctrlMsg : Bool
  data : Bool
  comm : Bool
  fence : Bool
  nccl : Bool
  eventCreate : Bool
  eventRecord : Bool

/-- NCCL takes the operation. -/
def Env.onStream (env : Env) : Bool := env.data && env.comm && env.fence && env.nccl

/-- The checks and calls of `send_internal_` and `recv_internal_` behind the size. -/
def Env.enqueues (env : Env) : Bool := env.onStream && env.eventCreate && env.eventRecord

/-- What `send_internal_` and `recv_internal_` do around `ncclSend` and `ncclRecv`. The index of the
    communicator is always 0. -/
def internal (maker : Maker) (env : Env) (handles : List AsyncHandle) (size : ℕ) (ureq : NcclRequest) :
    Bool × NcclRequest × List AsyncHandle :=
  if size = 0 then (true, { ureq with context := none, engineIdx := 0 }, handles)
  else if env.enqueues then
    (true, { ureq with context := some handles.length, engineIdx := 0 }, handles ++ [⟨.notReady, 0, maker⟩])
  else (false, ureq, handles)

/-- `send_internal_` -/
def sendInternal (maker : Maker) (env : Env) (handles : List AsyncHandle) (size : ℕ) (ureq : NcclRequest) :
    Bool × NcclRequest × List AsyncHandle := internal maker env handles size ureq

/-- `recv_internal_` -/
def recvInternal (maker : Maker) (env : Env) (handles : List AsyncHandle) (size : ℕ) (ureq : NcclRequest) :
    Bool × NcclRequest × List AsyncHandle := internal maker env handles size ureq

/-- What `uccl_read_async` and `uccl_write_async` of the endpoint do around the local operation. -/
def oneSided (operation : ℕ → NcclRequest → Bool × NcclRequest × List AsyncHandle) (env : Env)
    (handles : List AsyncHandle) (size slotSize : ℕ) (ureq : NcclRequest) : ℤ × NcclRequest × List AsyncHandle :=
  if env.flow = false then (-1, ureq, handles)
  else if size = 0 then (0, { ureq with context := none, engineIdx := 0 }, handles)
  else if env.ctrlMsg = false then (-1, ureq, handles)
  else
    let xferSize := if 0 < slotSize ∧ slotSize < size then slotSize else size
    let (ok, ureq, handles) := operation xferSize ureq
    (if ok then 0 else -1, ureq, handles)

/-- `NCCLEndpoint::uccl_read_async`: the peer sends, and a receive is posted here. -/
def readAsync (env : Env) (handles : List AsyncHandle) (size slotSize : ℕ) (ureq : NcclRequest) :
    ℤ × NcclRequest × List AsyncHandle := oneSided (recvInternal .caller env handles) env handles size slotSize ureq

/-- `NCCLEndpoint::uccl_write_async` -/
def writeAsync (env : Env) (handles : List AsyncHandle) (size slotSize : ℕ) (ureq : NcclRequest) :
    ℤ × NcclRequest × List AsyncHandle := oneSided (sendInternal .caller env handles) env handles size slotSize ureq

/-- `NCCLEndpoint::uccl_poll_ureq_once` -/
def pollUreqOnce (handles : List AsyncHandle) (ureq : NcclRequest) : Bool × NcclRequest × List AsyncHandle :=
  match ureq.context with
  | none => (true, ureq, handles)
  | some h =>
    match handles[h]? with
    | none => (true, ureq, handles)
    | some handle =>
      if handle.event = .notReady then (false, ureq, handles)
      else (true, { ureq with context := none }, handles.set h { handle with deletes := handle.deletes + 1 })

-- ── The wrapper

structure UcclRequest where
  type : ReqType
  peerId : ℕ
  engineIdx : ℕ
  failed : Bool
  deriving DecidableEq

/-- `to_nccl_req` -/
def toNcclReq (r : UcclRequest) : NcclRequest := ⟨r.type, r.peerId, none, r.engineIdx⟩

/-- `from_nccl_req`: `failed` is not touched. -/
def fromNcclReq (r : NcclRequest) (out : UcclRequest) : UcclRequest :=
  { out with type := r.type, peerId := r.peerId, engineIdx := r.engineIdx }

/-- What `uccl_read_async` and `uccl_write_async` of the wrapper do around the call of the endpoint; the
    slot has the size in 32 bits. -/
def ucclAsync (type : ReqType)
    (call : List AsyncHandle → ℕ → ℕ → NcclRequest → ℤ × NcclRequest × List AsyncHandle)
    (handles : List AsyncHandle) (peerId size : ℕ) (ureq : UcclRequest) : ℤ × UcclRequest × List AsyncHandle :=
  let ureq := { ureq with type := type, peerId := peerId }
  let (ret, nreq, handles) := call handles size (size % 2 ^ 32) (toNcclReq ureq)
  (ret, fromNcclReq nreq ureq, handles)

/-- `uccl_read_async` of the wrapper -/
def ucclReadAsync (env : Env) (handles : List AsyncHandle) (peerId size : ℕ) (ureq : UcclRequest) :
    ℤ × UcclRequest × List AsyncHandle := ucclAsync .read (readAsync env) handles peerId size ureq

/-- `uccl_write_async` of the wrapper -/
def ucclWriteAsync (env : Env) (handles : List AsyncHandle) (peerId size : ℕ) (ureq : UcclRequest) :
    ℤ × UcclRequest × List AsyncHandle := ucclAsync .write (writeAsync env) handles peerId size ureq

/-- `uccl_poll_ureq_once` of the wrapper -/
def ucclPollUreqOnce (handles : List AsyncHandle) (ureq : UcclRequest) : Bool × UcclRequest × List AsyncHandle :=
  let (ret, nreq, handles) := pollUreqOnce handles (toNcclReq ureq)
  (ret, fromNcclReq nreq ureq, handles)

/-- `uccl_check_ureq_once`: on this transport the same -/
def ucclCheckUreqOnce (handles : List AsyncHandle) (ureq : UcclRequest) : Bool × UcclRequest × List AsyncHandle :=
  ucclPollUreqOnce handles ureq

-- ── Runs

/-- The arguments of a call and what happens below it. -/
structure Call where
  type : ReqType
  size : ℕ
  env : Env

/-- A request of the wrapper, with the handle that its call has made. -/
structure Request where
  call : Call
  ureq : UcclRequest
  handle : Option ℕ

/-- Where the control loop of a connection is: it waits for a message, polls the request it has made,
    or has returned. -/
inductive Loop
  | idle
  | polling (ureq : NcclRequest)
  | returned

/-- A poll of a request: what it returned, and what the request's event was. -/
structure Poll where
  request : ℕ
  ret : Bool
  event : Option EventStatus
  deriving DecidableEq

structure Sys where
  handles : List AsyncHandle
  requests : List Request
  loops : ℕ → Loop
  polls : List Poll

def Sys.init : Sys := ⟨[], [], fun _ => .idle, []⟩

/-- The handle that a call has appended. -/
def newHandle (before after : List AsyncHandle) : Option ℕ :=
  if before.length < after.length then some before.length else none

def async (s : Sys) (call : Call) (peerId : ℕ) (ureq : UcclRequest) : Sys :=
  let (_, ureq, handles) :=
    match call.type with
    | .read => ucclReadAsync call.env s.handles peerId call.size ureq
    | .write => ucclWriteAsync call.env s.handles peerId call.size ureq
  { s with handles := handles, requests := s.requests ++ [⟨call, ureq, newHandle s.handles handles⟩] }

def eventOf (s : Sys) (handle : Option ℕ) : Option EventStatus :=
  handle.bind fun h => s.handles[h]?.map AsyncHandle.event

/-- A request is polled or checked. -/
def look (poll : List AsyncHandle → UcclRequest → Bool × UcclRequest × List AsyncHandle) (s : Sys) (i : ℕ) : Sys :=
  match s.requests[i]? with
  | none => s
  | some r =>
    let (ret, ureq, handles) := poll s.handles r.ureq
    { s with
      handles := handles
      requests := s.requests.set i { r with ureq := ureq }
      polls := s.polls ++ [⟨i, ret, eventOf s r.handle⟩] }

/-- `control_loop_` takes a message: for a write it receives, for a read it sends. -/
def serve (s : Sys) (conn : ℕ) (call : Call) : Sys :=
  match s.loops conn with
  | .polling _ => s
  | .returned => s
  | .idle =>
    if call.size = 0 then s
    else
      let (ok, ureq, handles) :=
        match call.type with
        | .write => recvInternal (.control conn) call.env s.handles call.size ⟨.read, 0, none, 0⟩
        | .read => sendInternal (.control conn) call.env s.handles call.size ⟨.read, 0, none, 0⟩
      { s with
        handles := handles
        loops := Function.update s.loops conn (if ok then .polling ureq else .returned) }

/-- The control loop polls the request that it has made. -/
def servePoll (s : Sys) (conn : ℕ) : Sys :=
  match s.loops conn with
  | .idle => s
  | .returned => s
  | .polling ureq =>
    let (done, ureq, handles) := pollUreqOnce s.handles ureq
    { s with
      handles := handles
      loops := Function.update s.loops conn (if done then .idle else .polling ureq) }

/-- The GPU comes to an event, or finds an error. -/
def complete (s : Sys) (h : ℕ) (status : EventStatus) : Sys :=
  match s.handles[h]? with
  | none => s
  | some handle =>
    if handle.event = .notReady then { s with handles := s.handles.set h { handle with event := status } } else s

inductive Action
  | async (call : Call) (peerId : ℕ) (ureq : UcclRequest)
  | poll (i : ℕ)
  | check (i : ℕ)
  | serve (conn : ℕ) (call : Call)
  | servePoll (conn : ℕ)
  | complete (h : ℕ) (status : EventStatus)

def step (s : Sys) : Action → Except Empty Sys
  | .async call peerId ureq => .ok (async s call peerId ureq)
  | .poll i => .ok (look ucclPollUreqOnce s i)
  | .check i => .ok (look ucclCheckUreqOnce s i)
  | .serve conn call => .ok (serve s conn call)
  | .servePoll conn => .ok (servePoll s conn)
  | .complete h status => .ok (complete s h status)

-- ── The defects

/-- Everything succeeds. -/
def allGood : Env := ⟨true, true, true, true, true, true, true, true⟩

/-- **COMPLETE BEFORE ITS EVENT**: a write of 64 bytes is polled at once. -/
theorem complete_before_event : ∃ s, runFrom step Sys.init
      [.async ⟨.write, 64, allGood⟩ 1 ⟨.read, 0, 0, false⟩, .poll 0] = .ok s ∧
    s.polls = [⟨0, true, some .notReady⟩] ∧ s.handles = [⟨.notReady, 0, .caller⟩] :=
  ⟨_, rfl, rfl, rfl⟩

-- ── One call

/-- Whether a call makes a handle. -/
def Call.starts (call : Call) : Bool := call.env.flow && call.size != 0 && call.env.ctrlMsg && call.env.enqueues

/-- The handles behind a call that makes one if `starts`. -/
def extend (starts : Bool) (maker : Maker) (handles : List AsyncHandle) : List AsyncHandle :=
  if starts then handles ++ [⟨.notReady, 0, maker⟩] else handles

theorem internal_eq {size : ℕ} (hsize : size ≠ 0) (maker : Maker) (env : Env) (handles : List AsyncHandle)
    (ureq : NcclRequest) : (internal maker env handles size ureq).1 = env.enqueues ∧
      (env.enqueues = true → (internal maker env handles size ureq).2.1.context = some handles.length) ∧
      (internal maker env handles size ureq).2.2 = extend env.enqueues maker handles := by
  unfold internal extend
  rw [if_neg hsize]
  cases env.enqueues with
  | false => exact ⟨rfl, fun h => Bool.noConfusion h, rfl⟩
  | true => exact ⟨rfl, fun _ => rfl, rfl⟩

/-- The slot never makes the transfer empty. -/
theorem xferSize_ne_zero {size : ℕ} (hsize : size ≠ 0) (slotSize : ℕ) :
    (if 0 < slotSize ∧ slotSize < size then slotSize else size) ≠ 0 := by
  split
  · omega
  · exact hsize

theorem oneSided_handles (call : Call) (handles : List AsyncHandle) (slotSize : ℕ) (ureq : NcclRequest) :
    (oneSided (internal .caller call.env handles) call.env handles call.size slotSize ureq).2.2 =
      extend call.starts .caller handles := by
  unfold oneSided Call.starts
  cases call.env.flow with
  | false => rfl
  | true =>
    by_cases hsize : call.size = 0
    · rw [hsize]
      rfl
    · have hne : (call.size != 0) = true := bne_iff_ne.mpr hsize
      rw [if_neg hsize, hne]
      cases call.env.ctrlMsg with
      | false => rfl
      | true => exact (internal_eq (xferSize_ne_zero hsize slotSize) .caller call.env handles ureq).2.2

/-- A call of the wrapper makes a handle exactly when it starts an operation. -/
theorem async_eq (s : Sys) (call : Call) (peerId : ℕ) (ureq : UcclRequest) : ∃ ureq',
    async s call peerId ureq = { s with
        handles := extend call.starts .caller s.handles
        requests := s.requests ++ [⟨call, ureq', newHandle s.handles (extend call.starts .caller s.handles)⟩] } := by
  obtain ⟨type, size, env⟩ := call
  have hands := oneSided_handles ⟨type, size, env⟩ s.handles (size % 2 ^ 32)
  cases type with
  | read =>
    refine ⟨(ucclReadAsync env s.handles peerId size ureq).2.1, ?_⟩
    rw [← hands (toNcclReq { ureq with type := .read, peerId := peerId })]
    rfl
  | write =>
    refine ⟨(ucclWriteAsync env s.handles peerId size ureq).2.1, ?_⟩
    rw [← hands (toNcclReq { ureq with type := .write, peerId := peerId })]
    rfl

theorem newHandle_extend (starts : Bool) (maker : Maker) (handles : List AsyncHandle) :
    newHandle handles (extend starts maker handles) = if starts then some handles.length else none := by
  cases starts with
  | false => exact if_neg (Nat.lt_irrefl _)
  | true => exact if_pos (by rw [extend, if_pos rfl, List.length_append]; exact Nat.lt_succ_self _)

/-- **THE CONTEXT IS LOST**: through the wrapper every request is done, and nothing is released. -/
theorem ucclPollUreqOnce_eq (handles : List AsyncHandle) (ureq : UcclRequest) :
    ucclPollUreqOnce handles ureq = (true, ureq, handles) := rfl

theorem look_eq {s : Sys} {i : ℕ} {r : Request} (hr : s.requests[i]? = some r) :
    look ucclPollUreqOnce s i = { s with polls := s.polls ++ [⟨i, true, eventOf s r.handle⟩] } := by
  have hsame : s.requests.set i { r with ureq := r.ureq } = s.requests := by
    obtain ⟨hi, hget⟩ := List.getElem?_eq_some_iff.mp hr
    rw [← hget]
    exact List.set_getElem_self hi
  unfold look
  rw [hr]
  dsimp only
  rw [ucclPollUreqOnce_eq, hsame]

end P2pNccl
