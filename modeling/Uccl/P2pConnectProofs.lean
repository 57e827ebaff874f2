import Mathlib.Data.BitVec

/-! # Whether a connect says that it failed

    `RDMAEndpoint::uccl_connect` (p2p/rdma/rdma_endpoint.cc) takes the next peer id, calls `build_connect` and
    returns a `ConnID` with that peer id. `build_connect` has the result of `build_control_channel`, an `int`
    that is -1 when the handshake fails, in a `uint64_t`, which is never less than 0, and gives it back as an
    `int`; `uccl_connect` does not look at it.

    So a failed connect is not seen (`failure_unseen`). And since `process_meta` answers every handshake with
    `INVALID_PEER_ID`, a connect that succeeds returns -1 as well. Failures are visible
    exactly when there is none and the peer's answer carries an id (`visible_iff`). -/

namespace P2pConnect

def kQpNumPerChannel : ℕ := 4

/-- What becomes of the metadata of one channel: it cannot be sent, no response comes in time, or the
    response comes and its callback establishes the channel. -/
inductive Handshake (ρ : Type)
  | sendFailed
  | timeout
  | answered (response : ρ)

def Handshake.established {ρ : Type} : Handshake ρ → Bool
  | .sendFailed => false
  | .timeout => false
  | .answered _ => true

/-- The control channel, whose response carries a `peer_id` of 32 bits, and the data channels. -/
structure Attempt where
  control : Handshake Int32
  data : Fin kQpNumPerChannel → Handshake Unit

def Attempt.established (a : Attempt) : Bool :=
  a.control.established && (List.ofFn a.data).all Handshake.established

/-- `build_control_channel`: the promise holds the response's `peer_id` as a `uint64_t`. -/
def buildControlChannel (control : Handshake Int32) (peerId : UInt64) (sync : Bool) : Int32 :=
  match control with
  | .sendFailed => -1
  | .timeout => if sync then -1 else peerId.toUInt32.toInt32
  | .answered response => if sync then response.toInt64.toUInt64.toUInt32.toInt32 else peerId.toUInt32.toInt32

/-- The metadata of the data channels goes out, until a send fails. -/
def sendAll : List (Handshake Unit) → Bool
  | [] => true
  | .sendFailed :: _ => false
  | .timeout :: rest => sendAll rest
  | .answered _ :: rest => sendAll rest

/-- The responses are waited for in turn, until one is late. -/
def waitAll : List (Handshake Unit) → Bool
  | [] => true
  | .timeout :: _ => false
  | .sendFailed :: rest => waitAll rest
  | .answered _ :: rest => waitAll rest

/-- `build_data_channels` -/
def buildDataChannels (data : Fin kQpNumPerChannel → Handshake Unit) (sync : Bool) : Bool :=
  if sendAll (List.ofFn data) = false then false
  else if sync = false then true
  else waitAll (List.ofFn data)

/-- `build_connect` -/
def buildConnect (a : Attempt) (peerId : UInt64) (sync : Bool) : Int32 :=
  let recevedPeerId : UInt64 := (buildControlChannel a.control peerId sync).toInt64.toUInt64
  if recevedPeerId < 0 then -1
  else if buildDataChannels a.data sync = false then -1
  else recevedPeerId.toUInt32.toInt32

/-- The peer id of the `ConnID` that `uccl_connect` returns. -/
def ucclConnect (nextSendPeerId : Int32) (a : Attempt) : UInt64 :=
  let currentSendPeerId := nextSendPeerId.toInt64.toUInt64
  let _ := buildConnect a currentSendPeerId true
  currentSendPeerId

/-- The peer id of a `ConnID` that stands for no connection is all ones. -/
def Valid (peerId : UInt64) : Prop := peerId ≠ 0xFFFFFFFFFFFFFFFF
deriving Decidable

/-- `build_connect` is negative exactly when some channel was not established, and `uccl_connect` gives
    a valid peer id only if all were. -/
structure Visible (nextSendPeerId : Int32) (a : Attempt) : Prop where
  negative : buildConnect a nextSendPeerId.toInt64.toUInt64 true < 0 ↔ a.established = false
  valid : Valid (ucclConnect nextSendPeerId a) → a.established = true

-- ── The defects

/-- **A FAILURE IS NOT SEEN**: no channel was established, and the connect has the first peer id. -/
theorem failure_unseen : let a : Attempt := ⟨.sendFailed, fun _ => .sendFailed⟩
    a.established = false ∧ ucclConnect 0 a = 0 ∧ ¬ Visible 0 a := by
  refine ⟨rfl, rfl, fun h => ?_⟩
  have hest : Attempt.established ⟨.sendFailed, fun _ => .sendFailed⟩ = true := h.valid (by decide)
  exact Bool.noConfusion hest

-- ── When failures are visible

/-- **THE SIGN IS LOST AND FOUND**: a 32-bit value comes back from 64 bits as it was. -/
theorem toInt32_toUInt64 (x : Int32) : x.toInt64.toUInt64.toUInt32.toInt32 = x := by
  apply Int32.toBitVec.inj
  show BitVec.setWidth 32 (BitVec.signExtend 64 x.toBitVec) = x.toBitVec
  apply BitVec.eq_of_getLsbD_eq
  intro i hi
  have hlt : i < 64 := by omega
  rw [BitVec.getLsbD_setWidth, BitVec.getLsbD_signExtend]
  simp only [hi, hlt, decide_true, Bool.true_and, if_true]

/-- So the first check of `build_connect` never fires, and its result is that of the control channel
    once the data channels are built. -/
theorem buildConnect_eq (a : Attempt) (peerId : UInt64) (sync : Bool) : buildConnect a peerId sync =
      if buildDataChannels a.data sync = false then -1 else buildControlChannel a.control peerId sync := by
  unfold buildConnect
  rw [if_neg UInt64.not_lt_zero, toInt32_toUInt64]

theorem buildControlChannel_answered (response : Int32) (peerId : UInt64) :
    buildControlChannel (.answered response) peerId true = response := toInt32_toUInt64 response

/-- Both loops run to their end exactly when every channel was established. -/
theorem loops_eq (hs : List (Handshake Unit)) : (sendAll hs && waitAll hs) = hs.all Handshake.established := by
  induction hs with
  | nil => rfl
  | cons h rest ih =>
    cases h with
    | sendFailed => rfl
    | timeout =>
      show (sendAll rest && false) = _
      rw [Bool.and_false]
      rfl
    | answered response => exact ih

theorem buildDataChannels_eq (data : Fin kQpNumPerChannel → Handshake Unit) :
    buildDataChannels data true = (List.ofFn data).all Handshake.established := by
  rw [← loops_eq]
  unfold buildDataChannels
  cases sendAll (List.ofFn data) with
  | false | true => rfl

/-- A control channel that was not established gives -1. -/
theorem buildControlChannel_failed {control : Handshake Int32} (h : control.established = false) (peerId : UInt64) :
    buildControlChannel control peerId true = -1 := by
  cases control with
  | sendFailed | timeout => rfl
  | answered response => exact Bool.noConfusion h

/-- Whatever fails, `build_connect` is -1. -/
theorem buildConnect_failed {a : Attempt} (h : a.established = false) (peerId : UInt64) :
    buildConnect a peerId true = -1 := by
  rw [buildConnect_eq, buildDataChannels_eq]
  cases hdata : (List.ofFn a.data).all Handshake.established with
  | false => exact if_pos rfl
  | true =>
    refine buildControlChannel_failed ?_ peerId
    unfold Attempt.established at h
    rw [hdata, Bool.and_true] at h
    exact h

/-- When all is established, `build_connect` is the id in the peer's answer. -/
theorem buildConnect_established {a : Attempt} (h : a.established = true) (peerId : UInt64) :
    ∃ response, a.control = .answered response ∧ buildConnect a peerId true = response := by
  obtain ⟨hcontrol, hdata⟩ := Bool.and_eq_true_iff.mp h
  rw [buildConnect_eq, buildDataChannels_eq, hdata]
  cases hc : a.control with
  | sendFailed | timeout =>
    rw [hc] at hcontrol
    exact Bool.noConfusion hcontrol
  | answered response => exact ⟨response, rfl, buildControlChannel_answered response peerId⟩

/-- The id in the peer's answer, if there is one, is not negative. -/
def Answers (a : Attempt) : Prop := ∀ response, a.control = .answered response → ¬ response < 0

/-- Only the counter value -1 makes an invalid peer id. -/
theorem valid_ucclConnect (nextSendPeerId : Int32) (a : Attempt) :
    Valid (ucclConnect nextSendPeerId a) ↔ nextSendPeerId ≠ -1 := by
  refine not_congr ⟨fun h => ?_, fun h => ?_⟩
  · have hones : nextSendPeerId.toInt64.toUInt64 = 0xFFFFFFFFFFFFFFFF := h
    rw [← toInt32_toUInt64 nextSendPeerId, hones]
    decide
  · show nextSendPeerId.toInt64.toUInt64 = 0xFFFFFFFFFFFFFFFF
    rw [h]
    decide

/-- **WHEN FAILURES ARE VISIBLE**: exactly when every channel is established and the peer answers with an id that is not
    negative, or when an attempt fails that took the counter value -1. -/
theorem visible_iff (nextSendPeerId : Int32) (a : Attempt) : Visible nextSendPeerId a ↔
      (a.established = true ∧ Answers a) ∨ (a.established = false ∧ nextSendPeerId = -1) := by
  cases hest : a.established with
  | true =>
    obtain ⟨response, hcontrol, hret⟩ := buildConnect_established hest nextSendPeerId.toInt64.toUInt64
    constructor
    · intro h
      refine .inl ⟨rfl, fun r hr hneg => ?_⟩
      rw [hcontrol] at hr
      have hrr : response = r := Handshake.answered.inj hr
      have hfalse : a.established = false := h.negative.mp (by rw [hret, hrr]; exact hneg)
      rw [hest] at hfalse
      exact Bool.noConfusion hfalse
    · rintro (⟨_, hans⟩ | ⟨hcon, _⟩)
      · refine ⟨⟨fun hneg => ?_, fun hfalse => ?_⟩, fun _ => hest⟩
        · rw [hret] at hneg
          exact absurd hneg (hans response hcontrol)
        · rw [hest] at hfalse
          exact Bool.noConfusion hfalse
      · exact Bool.noConfusion hcon
  | false =>
    have hret := buildConnect_failed hest nextSendPeerId.toInt64.toUInt64
    constructor
    · intro h
      refine .inr ⟨rfl, Decidable.byContradiction fun hne => ?_⟩
      have htrue := h.valid ((valid_ucclConnect nextSendPeerId a).mpr hne)
      rw [hest] at htrue
      exact Bool.noConfusion htrue
    · rintro (⟨hcon, _⟩ | ⟨_, hinvalid⟩)
      · exact Bool.noConfusion hcon
      · refine ⟨⟨fun _ => hest, fun _ => ?_⟩,
          fun hvalid => absurd hinvalid ((valid_ucclConnect nextSendPeerId a).mp hvalid)⟩
        rw [hret]
        decide

/-- A peer that answers with id 7. -/
theorem visible_answered : Visible 0 ⟨.answered 7, fun _ => .answered ()⟩ := by
  refine (visible_iff 0 _).mpr (.inl ⟨rfl, fun response hr => ?_⟩)
  rw [← Handshake.answered.inj hr]
  decide

end P2pConnect
