import Mathlib.Algebra.Ring.Nat
import Uccl.StepRunProofs

/-! # Whose state has a peer id

    `RDMAEndpoint` (p2p/rdma/rdma_endpoint.cc) and `CxiEndpoint` (p2p/cxi/cxi_endpoint.cc) number the peers that they
    connect to with one counter and the peers that they accept with another. Both start at 0, and a `ConnID` has the
    bare number. The OOB keys of both kinds are in one map, `peer_oob_conn_keys_`. The state for one-sided requests is
    in `send_channel_groups_`, which only connects write to, on RDMA, and in `peers_`, which both write to, on CXI. So
    an endpoint that has connected once and accepted once has two peers with the id 0 (`rdma_other_peer`,
    `own_one_way`).

    The counters are `int32_t` and natural numbers here: no NIC has enough queue pairs for `2 ^ 31` ids. -/

namespace P2pPeerId

open StepRun Function Except Nat

inductive Transport
  | rdma
  | cxi
  deriving DecidableEq

/-- The connections of an endpoint: its `i`-th connect, or the `i`-th handshake that it has answered. -/
inductive Conn
  | connected (i : ℕ)
  | accepted (i : ℕ)
  deriving DecidableEq

/-- `conn_id.peer_id` -/
def Conn.peerId : Conn → ℕ
  | .connected i => i
  | .accepted i => i

structure Sys where
  nextSendPeerId : ℕ
  nextRecvPeerId : ℕ
  /-- `send_channel_groups_` on RDMA and `peers_` on CXI: the connection that each state was made for. -/
  states : ℕ → Option Conn
  /-- `peer_oob_conn_keys_` -/
  peerOobConnKeys : ℕ → Option Conn

variable {s : Sys} {map : ℕ → Option Conn}

def Sys.init : Sys := ⟨0, 0, fun _ => none, fun _ => none⟩

/-- `uccl_connect` takes its peer id. -/
def connect (s : Sys) : Sys := { s with nextSendPeerId := s.nextSendPeerId + 1 }

/-- `connect_to_server` has returned a key: `build_oob_connect` on RDMA, `uccl_connect` on CXI. -/
def connectKey (s : Sys) (i : ℕ) : Sys :=
  if i < s.nextSendPeerId then
    { s with peerOobConnKeys := Function.update s.peerOobConnKeys i (some (.connected i)) }
  else s

/-- A response has come: the callback of a channel makes the send group on RDMA, and on CXI
    `uccl_connect` stores the peer. -/
def established (s : Sys) (i : ℕ) : Sys :=
  if i < s.nextSendPeerId then { s with states := Function.update s.states i (some (.connected i)) } else s

/-- The handshake fails: on CXI the key is erased, on RDMA nothing is done. -/
def connectFailed (t : Transport) (s : Sys) (i : ℕ) : Sys :=
  if i < s.nextSendPeerId then
    match t with
    | .rdma => s
    | .cxi => { s with peerOobConnKeys := Function.update s.peerOobConnKeys i none }
  else s

/-- `process_meta` takes a peer id for a client; on CXI it stores the peer. -/
def handshake (t : Transport) (s : Sys) : Sys :=
  match t with
  | .rdma => { s with nextRecvPeerId := s.nextRecvPeerId + 1 }
  | .cxi =>
    { s with
      nextRecvPeerId := s.nextRecvPeerId + 1
      states := Function.update s.states s.nextRecvPeerId (some (.accepted s.nextRecvPeerId)) }

/-- The reverse connection to a client was made. -/
def reverseKey (s : Sys) (i : ℕ) : Sys :=
  if i < s.nextRecvPeerId then
    { s with peerOobConnKeys := Function.update s.peerOobConnKeys i (some (.accepted i)) }
  else s

inductive Action
  | connect
  | connectKey (i : ℕ)
  | established (i : ℕ)
  | connectFailed (i : ℕ)
  | handshake
  | reverseKey (i : ℕ)

def step (t : Transport) (s : Sys) : Action → Except Empty Sys
  | .connect => .ok (connect s)
  | .connectKey i => .ok (connectKey s i)
  | .established i => .ok (established s i)
  | .connectFailed i => .ok (connectFailed t s i)
  | .handshake => .ok (handshake t s)
  | .reverseKey i => .ok (reverseKey s i)

/-- What is done with the peer id of a connection. -/
inductive Operation
  | request
  | check
  | oobKey

/-- The connection whose state `write_or_read` or `post_rma`, `check_send_complete_once` and `get_oob_conn_key`
    use; none if they refuse. On CXI a check goes by the number of the request and uses no peer. -/
def used (t : Transport) (s : Sys) (op : Operation) (peerId : ℕ) : Option Conn :=
  match op, t with
  | .request, _ => s.states peerId
  | .check, .rdma => s.states peerId
  | .check, .cxi => none
  | .oobKey, _ => s.peerOobConnKeys peerId

/-- The connection has its peer id. -/
def Begun (s : Sys) : Conn → Prop
  | .connected i => i < s.nextSendPeerId
  | .accepted i => i < s.nextRecvPeerId

/-- Every operation with the id of a connection uses the state of that connection, or none. -/
def Own (t : Transport) (s : Sys) : Prop :=
  ∀ conn, Begun s conn → ∀ op conn', used t s op conn.peerId = some conn' → conn' = conn

-- ── The defects

theorem not_own {t : Transport} {conn' : Conn} (conn : Conn) (op : Operation)
    (hbegun : Begun s conn) (hused : used t s op conn.peerId = some conn') (hne : conn' ≠ conn) : ¬ Own t s := fun h =>
  hne (h conn hbegun op conn' hused)

/-- **ANOTHER PEER ON RDMA**: a request on the accepted connection goes to the peer of the connect. -/
theorem rdma_other_peer : ∃ s, runFrom (step .rdma) Sys.init
      [.connect, .connectKey 0, .established 0, .handshake] = .ok s ∧
    used .rdma s .request (Conn.accepted 0).peerId = some (.connected 0) ∧ ¬ Own .rdma s := by
  refine ⟨_, rfl, rfl, ?_⟩
  exact not_own (.accepted 0) .request Nat.zero_lt_one rfl Conn.noConfusion

-- ── One direction

/-- The endpoint only connects, or only accepts. -/
def OneWay (s : Sys) : Action → Prop
  | .connect => s.nextRecvPeerId = 0
  | .handshake => s.nextSendPeerId = 0
  | .connectKey _ => True
  | .established _ => True
  | .connectFailed _ => True
  | .reverseKey _ => True

instance (s : Sys) (a : Action) : Decidable (OneWay s a) := by
  cases a <;> unfold OneWay <;> infer_instance

/-- Every entry of a map is of a connection that has begun, at its own id. -/
def Filed (s : Sys) (map : ℕ → Option Conn) : Prop :=
  ∀ peerId conn, map peerId = some conn → Begun s conn ∧ conn.peerId = peerId

structure Inv (s : Sys) : Prop where
  oneWay : s.nextSendPeerId = 0 ∨ s.nextRecvPeerId = 0
  states : Filed s s.states
  keys : Filed s s.peerOobConnKeys

theorem Inv.init : Inv Sys.init where
  oneWay := .inl rfl
  states := fun peerId conn h => by cases h
  keys := fun peerId conn h => by cases h

/-- What has begun stays so. -/
theorem Filed.mono {s' : Sys} (h : Filed s map)
    (hsend : s.nextSendPeerId ≤ s'.nextSendPeerId) (hrecv : s.nextRecvPeerId ≤ s'.nextRecvPeerId) : Filed s' map := by
  intro peerId conn hget
  obtain ⟨hbegun, hid⟩ := h peerId conn hget
  refine ⟨?_, hid⟩
  cases conn with
  | connected i => exact Nat.lt_of_lt_of_le hbegun hsend
  | accepted i => exact Nat.lt_of_lt_of_le hbegun hrecv

theorem Filed.update (h : Filed s map) {conn : Conn} (hbegun : Begun s conn) :
    Filed s (Function.update map conn.peerId (some conn)) := by
  intro peerId conn' hget
  by_cases hid : peerId = conn.peerId
  · rw [hid, update_self] at hget
    rw [← Option.some.inj hget]
    exact ⟨hbegun, hid.symm⟩
  · rw [update_of_ne hid] at hget
    exact h peerId conn' hget

theorem Filed.erase (h : Filed s map) (i : ℕ) : Filed s (Function.update map i none) := by
  intro peerId conn hget
  by_cases hid : peerId = i
  · rw [hid, update_self] at hget
    cases hget
  · rw [update_of_ne hid] at hget
    exact h peerId conn hget

-- ── Steps

section

variable (hs : Inv s)
include hs

theorem connect_inv (hway : s.nextRecvPeerId = 0) : Inv (connect s) where
  oneWay := .inr hway
  states := hs.states.mono (le_succ _) (le_rfl)
  keys := hs.keys.mono (le_succ _) (le_rfl)

theorem connectKey_inv (i : ℕ) : Inv (connectKey s i) := by
  unfold connectKey
  by_cases hi : i < s.nextSendPeerId
  · rw [if_pos hi]
    have hbegun : Begun s (.connected i) := hi
    exact ⟨hs.oneWay, hs.states, hs.keys.update hbegun⟩
  · rw [if_neg hi]
    exact hs

theorem established_inv (i : ℕ) : Inv (established s i) := by
  unfold established
  by_cases hi : i < s.nextSendPeerId
  · rw [if_pos hi]
    have hbegun : Begun s (.connected i) := hi
    exact ⟨hs.oneWay, hs.states.update hbegun, hs.keys⟩
  · rw [if_neg hi]
    exact hs

theorem connectFailed_inv (t : Transport) (i : ℕ) : Inv (connectFailed t s i) := by
  unfold connectFailed
  by_cases hi : i < s.nextSendPeerId
  · rw [if_pos hi]
    cases t with
    | rdma => exact hs
    | cxi => exact ⟨hs.oneWay, hs.states, hs.keys.erase i⟩
  · rw [if_neg hi]
    exact hs

theorem handshake_inv (t : Transport) (hway : s.nextSendPeerId = 0) : Inv (handshake t s) := by
  cases t with
  | rdma =>
    exact ⟨.inl hway, hs.states.mono (le_rfl) (le_succ _), hs.keys.mono (le_rfl) (le_succ _)⟩
  | cxi =>
    have hstates : Filed (handshake .cxi s) s.states := hs.states.mono (le_rfl) (le_succ _)
    have hbegun : Begun (handshake .cxi s) (.accepted s.nextRecvPeerId) := lt_succ_self _
    exact ⟨.inl hway, hstates.update hbegun, hs.keys.mono (le_rfl) (le_succ _)⟩

theorem reverseKey_inv (i : ℕ) : Inv (reverseKey s i) := by
  unfold reverseKey
  by_cases hi : i < s.nextRecvPeerId
  · rw [if_pos hi]
    have hbegun : Begun s (.accepted i) := hi
    exact ⟨hs.oneWay, hs.states, hs.keys.update hbegun⟩
  · rw [if_neg hi]
    exact hs

theorem step_inv {t : Transport} {s' : Sys} {a : Action} (hway : OneWay s a)
    (hstep : step t s a = .ok s') : Inv s' := by
  cases a with
  | connect => exact ok.inj hstep ▸ connect_inv hs hway
  | connectKey i => exact ok.inj hstep ▸ connectKey_inv hs i
  | established i => exact ok.inj hstep ▸ established_inv hs i
  | connectFailed i => exact ok.inj hstep ▸ connectFailed_inv hs t i
  | handshake => exact ok.inj hstep ▸ handshake_inv hs t hway
  | reverseKey i => exact ok.inj hstep ▸ reverseKey_inv hs i

/-- In one direction an id has one connection. -/
theorem Inv.eq_of_peerId {conn conn' : Conn} (hbegun : Begun s conn)
    (hbegun' : Begun s conn') (hid : conn'.peerId = conn.peerId) : conn' = conn := by
  cases conn with
  | connected i =>
    cases conn' with
    | connected j => exact congrArg Conn.connected hid
    | accepted j =>
      have hi : i < s.nextSendPeerId := hbegun
      have hj : j < s.nextRecvPeerId := hbegun'
      have hway := hs.oneWay
      omega
  | accepted i =>
    cases conn' with
    | accepted j => exact congrArg Conn.accepted hid
    | connected j =>
      have hi : i < s.nextRecvPeerId := hbegun
      have hj : j < s.nextSendPeerId := hbegun'
      have hway := hs.oneWay
      omega

theorem Inv.own (t : Transport) : Own t s := by
  intro conn hbegun op conn' hused
  have hfiled : Begun s conn' ∧ conn'.peerId = conn.peerId := by
    cases op with
    | request => exact hs.states conn.peerId conn' hused
    | oobKey => exact hs.keys conn.peerId conn' hused
    | check =>
      cases t with
      | rdma => exact hs.states conn.peerId conn' hused
      | cxi => cases hused
  exact hs.eq_of_peerId hbegun hfiled.1 hfiled.2

end

/-- **THE RIGHT PEER**: in every run of an endpoint that only connects or only accepts, on both transports. -/
theorem own_one_way {t : Transport} {s : Sys} {as : List Action} (halong : Along (step t) OneWay Sys.init as)
    (hrun : runFrom (step t) Sys.init as = .ok s) : Own t s :=
  (runFrom_invariant_along (fun _ _ _ hi hg hst => step_inv hi hg hst) Inv.init halong hrun).own t

/-- Two connects, one of which fails. -/
theorem own_one_way_two_connects : ∃ s, runFrom (step .cxi) Sys.init
      [.connect, .connect, .connectKey 1, .connectKey 0, .established 1, .connectFailed 0] = .ok s ∧
    used .cxi s .request 1 = some (.connected 1) ∧ Own .cxi s := by
  refine exists_run_of_guarded (G := OneWay) (fun s => used .cxi s .request 1 = some (.connected 1)) ?_
    fun s halong hrun hs => ⟨hs, own_one_way halong hrun⟩
  decide +kernel

end P2pPeerId
