import Uccl.SerialNumberProofs
import Uccl.StepRunProofs

/-! # Retransmission timeouts of a swift flow

    `UcclFlow::periodic_check` and `rto_retransmit` (collective/efa/transport.cc, collective/afxdp/transport.cc) over
    the RTO wheel of `swift::Pcb` (transport_cc.h). The counter of consecutive retransmissions is a `uint16_t` and its
    limit 102400, so no number of retransmissions makes the check report the flow (`dead_peer_detected_iff`). -/

namespace SwiftRto

open SerialNumber StepRun Function

def kRtoMaxRexmitConsectutiveAllowed : ℕ := 102400

abbrev Seqno := BitVec 32

local instance fourWheels : NeZero 4 := ⟨by decide⟩

/-- The sending fields of `Pcb`; a wheel entry is its sequence number. -/
@[ext]
structure Pcb where
  sndNxt : Seqno := 0
  sndUna : Seqno := 0
  rtoRexmitsConsectutive : BitVec 16 := 0
  wheels : Fin 4 → List Seqno := fun _ => []
  rtoTick : Fin 4 := 0
  /-- how often `rto_retransmit` has sent since an ACK last advanced `snd_una` -/
  unanswered : ℕ := 0

def Pcb.addToRtoWheel (p : Pcb) (seqno : Seqno) : Pcb :=
  { p with wheels := update p.wheels (p.rtoTick + 3) (p.wheels (p.rtoTick + 3) ++ [seqno]) }

def Pcb.rtoRetransmit (p : Pcb) (seqno : Seqno) : Pcb :=
  { p.addToRtoWheel seqno with
    rtoRexmitsConsectutive := p.rtoRexmitsConsectutive + 1
    unanswered := p.unanswered + 1 }

/-- An entry of the ready wheel, and whether `can_rtx` lets it go out (in AF_XDP it always does). -/
def Pcb.visit (p : Pcb) (e : Seqno × Bool) : Pcb :=
  if serialLt e.1 p.sndUna then p
  else if e.2 then p.rtoRetransmit e.1
  else p.addToRtoWheel e.1

/-- `advance_rto_tick` and the loop over the ready wheel: what a visit adds is three ticks ahead, so the loop ends
    with the entries that are there when it starts. -/
def Pcb.turn (canRtx : ℕ → Bool) (p : Pcb) : Pcb :=
  ((p.wheels (p.rtoTick + 1)).zipIdx.map fun e => (e.1, canRtx e.2)).foldl Pcb.visit
    { p with rtoTick := p.rtoTick + 1, wheels := update p.wheels (p.rtoTick + 1) [] }

/-- `none` is the report of a failed flow: EFA aborts, AF_XDP returns false. -/
def periodicCheck (canRtx : ℕ → Bool) (p : Pcb) : Option Pcb :=
  if kRtoMaxRexmitConsectutiveAllowed ≤ p.rtoRexmitsConsectutive.toNat then none else some (p.turn canRtx)

inductive Action
  | transmit
  /-- `process_ack`; `fast` are the offsets that fast retransmit or recovery sends again -/
  | ack (ackno : Seqno) (fast : List Seqno)
  | check (canRtx : ℕ → Bool)

def processAck (p : Pcb) (ackno : Seqno) (fast : List Seqno) : Pcb :=
  if serialLt ackno p.sndUna then p
  else if ackno = p.sndUna then fast.foldl (fun p i => p.addToRtoWheel (p.sndUna + i)) p
  else if serialGt ackno p.sndNxt then p
  else { p with sndUna := ackno, rtoRexmitsConsectutive := 0, unanswered := 0 }

def step (p : Pcb) : Action → Except Unit Pcb
  | .transmit => .ok { p.addToRtoWheel p.sndNxt with sndNxt := p.sndNxt + 1 }
  | .ack ackno fast => .ok (processAck p ackno fast)
  | .check canRtx =>
    match periodicCheck canRtx p with
    | none => .error ()
    | some p' => .ok p'

/-- With packets unacknowledged and the limit reached, the next check reports the flow. -/
def Detected (p : Pcb) : Prop :=
  p.sndUna ≠ p.sndNxt → kRtoMaxRexmitConsectutiveAllowed ≤ p.unanswered → ∀ canRtx, periodicCheck canRtx p = none

/-- Sixteen bits never reach the limit. -/
theorem periodicCheck_eq (canRtx : ℕ → Bool) (p : Pcb) : periodicCheck canRtx p = some (p.turn canRtx) := by
  refine if_neg ?_
  unfold kRtoMaxRexmitConsectutiveAllowed
  omega

/-- **DEAD PEER**: in every state, the check does what it should only where nothing is due yet. -/
theorem dead_peer_detected_iff (p : Pcb) :
    Detected p ↔ (p.sndUna ≠ p.sndNxt → p.unanswered < kRtoMaxRexmitConsectutiveAllowed) := by
  refine forall_congr' fun _ => ?_
  rw [← Nat.not_le]
  refine ⟨fun h hlimit => ?_, fun h hlimit => absurd hlimit h⟩
  have hnone := h hlimit fun _ => true
  rw [periodicCheck_eq] at hnone
  cases hnone

-- ── A run that is never reported

/-- One packet out, its entry `d` ticks ahead, after `n` retransmissions. -/
def lone (tick d : Fin 4) (n : ℕ) : Pcb where
  sndNxt := 1
  rtoRexmitsConsectutive := BitVec.ofNat 16 n
  wheels := update (fun _ => []) (tick + d) [0]
  rtoTick := tick
  unanswered := n

theorem turn_wait (tick : Fin 4) {d : Fin 4} (hd : d ≠ 0) (n : ℕ) :
    (lone tick (d + 1) n).turn (fun _ => true) = lone (tick + 1) d n := by
  have hempty : ∀ t d : Fin 4, d ≠ 0 → update (fun _ => []) (t + (d + 1)) [(0 : Seqno)] (t + 1) = [] := by
    decide
  have hkeep : ∀ t d : Fin 4, d ≠ 0 → update (update (fun _ => []) (t + (d + 1)) [(0 : Seqno)]) (t + 1) [] =
      update (fun _ => []) (t + 1 + d) [0] := by
    decide
  have hready : (lone tick (d + 1) n).wheels ((lone tick (d + 1) n).rtoTick + 1) = [] := hempty tick d hd
  rw [Pcb.turn, hready]
  exact Pcb.ext rfl rfl rfl (hkeep tick d hd) rfl rfl

theorem turn_due (tick : Fin 4) (n : ℕ) : (lone tick 1 n).turn (fun _ => true) = lone (tick + 1) 3 (n + 1) := by
  have hready : ∀ t : Fin 4, update (fun _ => []) (t + 1) [(0 : Seqno)] (t + 1) = [0] := by
    decide
  have hclear : ∀ t : Fin 4, update (update (fun _ => []) t [(0 : Seqno)]) t [] = fun _ => [] := by
    decide
  have hsend : ∀ p : Pcb, p.sndUna = 0 → p.visit (0, true) = p.rtoRetransmit 0 := by
    intro p hp
    rw [Pcb.visit, hp]
    exact if_neg (by decide)
  rw [Pcb.turn, show (lone tick 1 n).wheels ((lone tick 1 n).rtoTick + 1) = [0] from hready tick]
  refine (hsend _ rfl).trans (Pcb.ext rfl rfl (BitVec.ofNat_add n 1).symm ?_ rfl rfl)
  show update (update (update (fun _ => []) (tick + 1) [0]) (tick + 1) []) (tick + 1 + 3)
    (update (update (fun _ => []) (tick + 1) [0]) (tick + 1) [] (tick + 1 + 3) ++ [0]) = _
  rw [hclear]
  rfl

theorem step_check (p : Pcb) (canRtx : ℕ → Bool) : step p (.check canRtx) = .ok (p.turn canRtx) := by
  simp only [step, periodicCheck_eq]

/-- A peer that answers nothing: every third check sends the one packet again. -/
theorem silent_run (n : ℕ) : ∃ as tick, runFrom step {} as = .ok (lone tick 3 n) := by
  induction n with
  | zero => exact ⟨[.transmit], 0, rfl⟩
  | succ n ih =>
    obtain ⟨as, tick, hrun⟩ := ih
    refine ⟨as ++ List.replicate 3 (.check fun _ => true), tick + 1 + 1 + 1, ?_⟩
    rw [runFrom_append hrun]
    refine (runFrom_cons_ok ((step_check _ _).trans (congrArg _ (turn_wait tick (d := 2) (by decide) n))) _).trans ?_
    refine (runFrom_cons_ok ((step_check _ _).trans (congrArg _ (turn_wait _ (d := 1) (by decide) n))) _).trans ?_
    exact runFrom_cons_ok ((step_check _ _).trans (congrArg _ (turn_due _ n))) _

theorem dead_peer_undetected : ∃ as p, runFrom step {} as = .ok p ∧ ¬ Detected p := by
  obtain ⟨as, tick, hrun⟩ := silent_run kRtoMaxRexmitConsectutiveAllowed
  refine ⟨as, _, hrun, fun h => ?_⟩
  have hnone := h (by decide : (0 : Seqno) ≠ 1) le_rfl fun _ => true
  cases hnone

end SwiftRto
