import Mathlib.Algebra.Ring.Nat
import Mathlib.Data.Finset.Basic
import Mathlib.Data.List.Range
import Mathlib.Data.List.FinRange
import Uccl.StepRunProofs

/-! # The command queues of an EP proxy

    A proxy thread (ep/src/proxy.cpp, FIFO backend) serves `Q` device-to-host rings. `post_gpu_command` takes
    a trigger off the head of a ring, gives it a work-request id `(rb_idx << 32) | (fifo_seq & 0xFFFFFFFF)`
    and appends the id to the ring's pending deque; WRITE and ATOMIC triggers are popped at once, BARRIER and
    QUIET stay at the head of the ring until they retire. A completion puts an id into `acked_wrs_`, and
    `notify_gpu_completion` retires, ring by ring, the ids at the front of the deque that are in that set.

    `nic` holds the ids that were posted to the transport and have not completed: it is what the completion
    queue can still report. `retired` counts the ids a ring has retired; no function reads it. -/

namespace EpQueue

open Function List Nat

variable {Q i : ℕ}

/-- The base command of a trigger (`get_base_cmd`). -/
inductive CmdType
  | write | atomic | quiet | barrier
  deriving DecidableEq, Repr

/-- `unique_wr_id` of `post_gpu_command`. `fifo_seq_` is 64 bits wide; only its low 32 bits are used, so an
    unbounded counter stands for it. -/
def uniqueWrId (rbIdx fifoSeq : ℕ) : ℕ := rbIdx <<< 32 ||| (fifoSeq &&& 0xFFFFFFFF)

/-- One device-to-host ring and its pending deque. -/
structure Ring where
  /-- triggers the GPU has pushed and the host has not popped -/
  fifo : List CmdType := []
  /-- triggers popped: the counter the device polls -/
  tail : ℕ := 0
  pending : List ℕ := []
  fifoSeq : ℕ := 0
  retired : ℕ := 0

/-- `Fifo::pop` -/
def Ring.pop (r : Ring) : Ring := { r with fifo := r.fifo.tail, tail := r.tail + 1 }

/-- The queue half of a proxy's state. -/
structure Queues (Q : ℕ) where
  ring : Fin Q → Ring
  acked : Finset ℕ
  barrierInflight : Bool
  barrierWr : Option ℕ
  quietInflight : Bool
  quietWr : Option ℕ
  nic : Finset ℕ

def Queues.init : Queues Q :=
  { ring := fun _ => {}, acked := ∅, barrierInflight := false, barrierWr := none,
    quietInflight := false, quietWr := none, nic := ∅ }

/-- The GPU pushes a trigger. -/
def push (q : Queues Q) (i : Fin Q) (c : CmdType) : Queues Q :=
  { q with ring := Function.update q.ring i { q.ring i with fifo := (q.ring i).fifo ++ [c] } }

/-- A trigger that `post_gpu_command` leaves alone: a second BARRIER, a second QUIET. -/
def blocked (q : Queues Q) (c : CmdType) : Bool :=
  (c == .barrier && q.barrierInflight) || (c == .quiet && q.quietInflight)

/-- The ring after its head has been given the next work-request id. -/
def Ring.assign (r : Ring) (i : Fin Q) : Ring :=
  { r with pending := r.pending ++ [uniqueWrId i r.fifoSeq], fifoSeq := r.fifoSeq + 1 }

/-- The proxy after it has taken `c` from the head of ring `i`. -/
def accept (q : Queues Q) (i : Fin Q) (c : CmdType) : Queues Q :=
  let wr := uniqueWrId i (q.ring i).fifoSeq
  let r := (q.ring i).assign i
  match c with
  | .barrier =>
    { q with ring := Function.update q.ring i r, barrierInflight := true, barrierWr := some wr }
  | .quiet =>
    { q with ring := Function.update q.ring i r, quietInflight := true, quietWr := some wr }
  -- popped at once and posted to the transport
  | .write | .atomic => { q with ring := Function.update q.ring i r.pop, nic := insert wr q.nic }

/-- One round of the `take` loop of `post_gpu_command` on ring `i`: the command it takes
    and the state after it, if the budget allows one and the head is not blocked. -/
def take (maxInflight : ℕ) (q : Queues Q) (i : Fin Q) : Option (CmdType × Queues Q) :=
  if maxInflight ≤ (q.ring i).pending.length then none
  else
    match (q.ring i).fifo with
    | [] => none
    | c :: _ => if blocked q c then none else some (c, accept q i c)

/-- The completion of a posted work request is polled. -/
def complete (q : Queues Q) (wr : ℕ) : Queues Q :=
  if wr ∈ q.nic then { q with nic := q.nic.erase wr, acked := insert wr q.acked } else q

/-- `acked_wrs_.insert(ctx_.barrier_wr)` -/
def ackBarrier (q : Queues Q) : Queues Q :=
  match q.barrierWr with
  | some wr => { q with acked := insert wr q.acked }
  | none => q

/-- The end of `quiet`: the QUIET's own id is reported. -/
def ackQuiet (q : Queues Q) : Queues Q :=
  match q.quietWr with
  | some wr => { q with acked := insert wr q.acked }
  | none => q

/-- The retired id is the QUIET in flight: it leaves the head of its ring. -/
def clearQuiet (q : Queues Q) (i : Fin Q) (wr : ℕ) : Queues Q :=
  if q.quietWr = some wr then
    { q with quietInflight := false, quietWr := none,
             ring := Function.update q.ring i (q.ring i).pop }
  else q

/-- The retired id is the BARRIER in flight: it leaves the head of its ring. -/
def clearBarrier (q : Queues Q) (i : Fin Q) (wr : ℕ) : Queues Q :=
  if q.barrierWr = some wr then
    { q with barrierInflight := false, barrierWr := none,
             ring := Function.update q.ring i (q.ring i).pop }
  else q

/-- One pass of the retire loop: the front `wr` of ring `i` goes, `rest` stays. -/
def retireFront (q : Queues Q) (i : Fin Q) (wr : ℕ) (rest : List ℕ) : Queues Q :=
  clearBarrier (clearQuiet
    { q with acked := q.acked.erase wr,
             ring := Function.update q.ring i
               { q.ring i with pending := rest, retired := (q.ring i).retired + 1 } } i wr) i wr

/-- The retire loop of `notify_gpu_completion` on ring `i`. -/
def retireRing (i : Fin Q) : List ℕ → Queues Q → Queues Q
  | [], q => q
  | wr :: rest, q => if wr ∈ q.acked then retireRing i rest (retireFront q i wr rest) else q

/-- `notify_gpu_completion`: every ring in turn. -/
def notifyGpuCompletion (q : Queues Q) : Queues Q :=
  (List.finRange Q).foldl (fun q i => retireRing i (q.ring i).pending q) q

-- ── Work-request ids

/-- The id as a number: the ring above, the low half of the counter below. -/
theorem uniqueWrId_eq (i a : ℕ) : uniqueWrId i a = i * 2 ^ 32 + a % 2 ^ 32 := by
  have hmask : a &&& 0xFFFFFFFF = a % 2 ^ 32 := and_two_pow_sub_one_eq_mod a 32
  unfold uniqueWrId
  rw [hmask, ← shiftLeft_add_eq_or_of_lt (mod_lt _ (by decide)), shiftLeft_eq]

theorem uniqueWrId_inj {j a b : ℕ} (h : uniqueWrId i a = uniqueWrId j b) : i = j ∧ a % 2 ^ 32 = b % 2 ^ 32 := by
  rw [uniqueWrId_eq, uniqueWrId_eq] at h
  omega

-- ── The invariant of the queues

/-- The pending deque holds the ids between what has retired and what has been given out. -/
def Ring.Window (i : ℕ) (r : Ring) : Prop :=
  r.retired ≤ r.fifoSeq ∧
    r.pending = (List.range' r.retired (r.fifoSeq - r.retired)).map (uniqueWrId i)

/-- An id that some ring still has to retire. -/
def Pending (q : Queues Q) (wr : ℕ) : Prop := ∃ i, wr ∈ (q.ring i).pending

/-- What every step keeps: only pending ids are posted or reported, a posted id is not yet reported, and the
    BARRIER and the QUIET in flight are pending, are not with the transport, and are not the same command. -/
structure Queues.Ok (maxInflight : ℕ) (q : Queues Q) : Prop where
  window : ∀ i : Fin Q, Ring.Window i (q.ring i)
  room : ∀ i, (q.ring i).pending.length ≤ maxInflight
  acked : ∀ wr ∈ q.acked, Pending q wr
  nic : ∀ wr ∈ q.nic, Pending q wr ∧ wr ∉ q.acked
  barrier : ∀ wr, q.barrierWr = some wr → Pending q wr ∧ wr ∉ q.nic
  quiet : ∀ wr, q.quietWr = some wr → Pending q wr ∧ wr ∉ q.nic ∧ q.barrierWr ≠ some wr
  barrierInflight : q.barrierInflight = q.barrierWr.isSome
  quietInflight : q.quietInflight = q.quietWr.isSome

/-- The BARRIER in flight has not been acked. -/
def BarrierOpen (q : Queues Q) : Prop := ∃ wr, q.barrierWr = some wr ∧ wr ∉ q.acked

/-- The BARRIER in flight has been acked and has not retired. -/
def BarrierAcked (q : Queues Q) : Prop := ∃ wr, q.barrierWr = some wr ∧ wr ∈ q.acked

instance (q : Queues Q) : Decidable (BarrierAcked q) :=
  decidable_of_iff (q.barrierWr.any (fun wr => decide (wr ∈ q.acked)) = true) <| by
    rw [Option.any_eq_true]
    exact exists_congr fun wr => and_congr_right fun _ => decide_eq_true_iff

variable {maxInflight wr : ℕ} {q q' : Queues Q} {i : Fin Q} {rest : List ℕ}

/-- A BARRIER in flight is acked or open. -/
theorem Queues.Ok.open_of_inflight (h : q.Ok maxInflight) (hb : q.barrierInflight = true)
    (hnot : ¬ BarrierAcked q) : BarrierOpen q := by
  rw [h.barrierInflight] at hb
  obtain ⟨wr, hwr⟩ := Option.isSome_iff_exists.mp hb
  exact ⟨wr, hwr, fun hin => hnot ⟨wr, hwr, hin⟩⟩

theorem BarrierAcked.not_open (h : BarrierAcked q) : ¬ BarrierOpen q := by
  rintro ⟨wr, hwr, hnot⟩
  obtain ⟨wr', hwr', hin⟩ := h
  rw [Option.some.inj (hwr.symm.trans hwr')] at hnot
  exact hnot hin

theorem Queues.init_ok : (Queues.init : Queues Q).Ok maxInflight where
  window _ := ⟨le_refl _, rfl⟩
  room _ := Nat.zero_le _
  acked wr h := absurd h (Finset.notMem_empty wr)
  nic wr h := absurd h (Finset.notMem_empty wr)
  barrier _ h := nomatch h
  quiet _ h := nomatch h
  barrierInflight := rfl
  quietInflight := rfl

/-- Without a BARRIER in flight there is none to be acked. -/
theorem Queues.Ok.not_open (h : q.Ok maxInflight) (hb : q.barrierInflight = false) : ¬ BarrierOpen q := by
  rintro ⟨wr, hwr, -⟩
  rw [h.barrierInflight, hwr] at hb
  cases hb

/-- The next id of a ring is not pending: fewer than 2^32 ids are. -/
theorem Queues.Ok.fresh (h : q.Ok maxInflight)
    (hroom : (q.ring i).pending.length < maxInflight) (hmax : maxInflight < 2 ^ 32) :
    ¬ Pending q (uniqueWrId i (q.ring i).fifoSeq) := by
  rintro ⟨j, hj⟩
  rw [(h.window j).2] at hj
  obtain ⟨a, ha, heq⟩ := mem_map.mp hj
  obtain ⟨hji, hmod⟩ := uniqueWrId_inj heq
  have hji : j = i := Fin.ext hji
  rw [hji] at ha
  rw [(h.window i).2, length_map, length_range'] at hroom
  obtain ⟨hlo, hhi⟩ := mem_range'_1.mp ha
  omega

-- ── Pushing, taking, completing

/-- A change of ring `i` that keeps its deque changes nothing that is pending. -/
theorem pending_update {r : Ring} (hr : r.pending = (q.ring i).pending) (wr : ℕ) :
    (∃ j, wr ∈ (update q.ring i r j).pending) ↔ Pending q wr := by
  exact exists_congr fun j => by rw [StepRun.update_congr Ring.pending hr j]

theorem push_ok (h : q.Ok maxInflight) (i : Fin Q) (c : CmdType) : (push q i c).Ok maxInflight := by
  have hp : ∀ wr, Pending (push q i c) wr ↔ Pending q wr := fun wr =>
    pending_update (q := q) (r := { q.ring i with fifo := (q.ring i).fifo ++ [c] }) rfl wr
  refine ⟨fun j => ?_, fun j => ?_, fun wr hwr => (hp wr).mpr (h.acked wr hwr),
    fun wr hwr => ⟨(hp wr).mpr (h.nic wr hwr).1, (h.nic wr hwr).2⟩,
    fun wr hwr => ⟨(hp wr).mpr (h.barrier wr hwr).1, (h.barrier wr hwr).2⟩,
    fun wr hwr => ⟨(hp wr).mpr (h.quiet wr hwr).1, (h.quiet wr hwr).2⟩,
    h.barrierInflight, h.quietInflight⟩
  · refine (forall_update_iff q.ring fun j => Ring.Window j).mpr ⟨?_, fun j _ => h.window j⟩ j
    exact h.window i
  · exact (StepRun.update_congr (fun r : Ring => r.pending.length) (by rfl) j).trans_le (h.room j)

/-- What a successful `take` has checked. -/
theorem take_cases {c : CmdType} (h : take maxInflight q i = some (c, q')) :
    (q.ring i).pending.length < maxInflight ∧ (q.ring i).fifo.head? = some c ∧
      blocked q c = false ∧ q' = accept q i c := by
  unfold take at h
  split at h
  · cases h
  · next hroom =>
    split at h
    · cases h
    · next d rest hfifo =>
      split at h
      · cases h
      · next hblocked =>
        have heq := Prod.mk.inj (Option.some.inj h)
        rw [← heq.1]
        refine ⟨Nat.lt_of_not_le hroom, ?_, by simpa using hblocked, heq.2.symm⟩
        rw [hfifo]
        rfl

/-- The deque of a ring after it has been given an id, popped or not. -/
theorem accept_ring (q : Queues Q) (i : Fin Q) (c : CmdType) : ∃ r, (accept q i c).ring = update q.ring i r ∧
      r.pending = (q.ring i).pending ++ [uniqueWrId i (q.ring i).fifoSeq] ∧
      r.fifoSeq = (q.ring i).fifoSeq + 1 ∧ r.retired = (q.ring i).retired := by
  cases c <;> exact ⟨_, rfl, rfl, rfl, rfl⟩

theorem Ring.Window.extend {r r' : Ring} (h : Ring.Window i r) (hp : r'.pending = r.pending ++ [uniqueWrId i r.fifoSeq])
    (hs : r'.fifoSeq = r.fifoSeq + 1) (hr : r'.retired = r.retired) : Ring.Window i r' := by
  obtain ⟨hle, heq⟩ := h
  refine ⟨by omega, ?_⟩
  have hlen : r.fifoSeq + 1 - r.retired = (r.fifoSeq - r.retired) + 1 := by omega
  have hlast : r.retired + 1 * (r.fifoSeq - r.retired) = r.fifoSeq := by omega
  rw [hp, hs, hr, heq, hlen, range'_concat, map_append, map_singleton, hlast]

/-- After a take exactly the new id is pending besides what was. -/
theorem pending_accept (q : Queues Q) (i : Fin Q) (c : CmdType) (wr : ℕ) :
    Pending (accept q i c) wr ↔ Pending q wr ∨ wr = uniqueWrId i (q.ring i).fifoSeq := by
  obtain ⟨r, hring, hp, -, -⟩ := accept_ring q i c
  unfold Pending
  rw [hring]
  constructor
  · rintro ⟨j, hj⟩
    by_cases hji : j = i
    · rw [hji, update_self, hp, mem_append, mem_singleton] at hj
      exact hj.imp (fun hin => ⟨i, hin⟩) id
    · rw [update_of_ne hji] at hj
      exact .inl ⟨j, hj⟩
  · rintro (⟨j, hj⟩ | hwr)
    · by_cases hji : j = i
      · refine ⟨i, ?_⟩
        rw [update_self, hp, mem_append]
        exact .inl (hji ▸ hj)
      · exact ⟨j, by rwa [update_of_ne hji]⟩
    · refine ⟨i, ?_⟩
      rw [update_self, hp, mem_append, mem_singleton]
      exact .inr hwr

section

variable (h : q.Ok maxInflight) {c : CmdType}
include h

theorem accept_ok (hmax : maxInflight < 2 ^ 32) {i : Fin Q}
    (hroom : (q.ring i).pending.length < maxInflight) : (accept q i c).Ok maxInflight := by
  have hfresh := h.fresh hroom hmax
  have hp := pending_accept q i c
  have hold : ∀ wr, Pending q wr → Pending (accept q i c) wr := fun wr hwr => (hp wr).mpr (.inl hwr)
  have hnew : Pending (accept q i c) (uniqueWrId i (q.ring i).fifoSeq) := (hp _).mpr (.inr rfl)
  have hne : ∀ wr, Pending q wr → wr ≠ uniqueWrId i (q.ring i).fifoSeq := fun wr hwr heq =>
    hfresh (heq ▸ hwr)
  obtain ⟨r, hring, hpend, hseq, hret⟩ := accept_ring q i c
  have hwindow : ∀ j : Fin Q, Ring.Window j ((accept q i c).ring j) := by
    rw [hring]
    exact (forall_update_iff _ fun j : Fin Q => Ring.Window j).mpr
      ⟨(h.window i).extend hpend hseq hret, fun j _ => h.window j⟩
  have hrooms : ∀ j, ((accept q i c).ring j).pending.length ≤ maxInflight := by
    intro j
    rw [hring]
    by_cases hj : j = i
    · rw [hj, update_self, hpend, length_append]
      exact hroom
    · rw [update_of_ne hj]
      exact h.room j
  cases c with
  | barrier =>
    refine ⟨hwindow, hrooms, fun wr hwr => hold wr (h.acked wr hwr),
      fun wr hwr => ⟨hold wr (h.nic wr hwr).1, (h.nic wr hwr).2⟩, fun wr hwr => ?_,
      fun wr hwr => ⟨hold wr (h.quiet wr hwr).1, (h.quiet wr hwr).2.1, fun heq => ?_⟩,
      rfl, h.quietInflight⟩
    · rw [← Option.some.inj hwr]
      exact ⟨hnew, fun hin => hfresh (h.nic _ hin).1⟩
    · exact hne wr (h.quiet wr hwr).1 (Option.some.inj heq).symm
  | quiet =>
    refine ⟨hwindow, hrooms, fun wr hwr => hold wr (h.acked wr hwr),
      fun wr hwr => ⟨hold wr (h.nic wr hwr).1, (h.nic wr hwr).2⟩,
      fun wr hwr => ⟨hold wr (h.barrier wr hwr).1, (h.barrier wr hwr).2⟩, fun wr hwr => ?_,
      h.barrierInflight, rfl⟩
    rw [← Option.some.inj hwr]
    exact ⟨hnew, fun hin => hfresh (h.nic _ hin).1, fun hb => hfresh (h.barrier _ hb).1⟩
  | write | atomic =>
    refine ⟨hwindow, hrooms, fun wr hwr => hold wr (h.acked wr hwr), fun wr hwr => ?_,
      fun wr hwr => ⟨hold wr (h.barrier wr hwr).1, fun hin => ?_⟩,
      fun wr hwr => ⟨hold wr (h.quiet wr hwr).1, fun hin => ?_, (h.quiet wr hwr).2.2⟩,
      h.barrierInflight, h.quietInflight⟩
    · rcases Finset.mem_insert.mp hwr with heq | hin
      · rw [heq]
        exact ⟨hnew, fun hacked => hfresh (h.acked _ hacked)⟩
      · exact ⟨hold wr (h.nic wr hin).1, (h.nic wr hin).2⟩
    · rcases Finset.mem_insert.mp hin with heq | hin
      · exact hne wr (h.barrier wr hwr).1 heq
      · exact (h.barrier wr hwr).2 hin
    · rcases Finset.mem_insert.mp hin with heq | hin
      · exact hne wr (h.quiet wr hwr).1 heq
      · exact (h.quiet wr hwr).2.1 hin

/-- Taking a BARRIER opens it; taking anything else changes nothing about it. -/
theorem accept_open (hmax : maxInflight < 2 ^ 32) {i : Fin Q} (hroom : (q.ring i).pending.length < maxInflight) :
    BarrierOpen (accept q i c) ↔ c = .barrier ∨ BarrierOpen q := by
  cases c with
  | barrier =>
    refine ⟨fun _ => .inl rfl, fun _ => ⟨_, rfl, fun hacked => ?_⟩⟩
    exact h.fresh hroom hmax (h.acked _ hacked)
  | quiet | write | atomic => exact ⟨.inr, fun ho => ho.resolve_left (by decide)⟩

/-- A completion reports a pending id that is no BARRIER's. -/
theorem complete_ok (wr : ℕ) : (complete q wr).Ok maxInflight := by
  unfold complete
  split
  · next hin =>
    refine { h with
        acked := fun w hw => ?_, nic := fun w hw => ⟨(h.nic w (Finset.mem_of_mem_erase hw)).1, ?_⟩
        barrier := fun w hw => ⟨(h.barrier w hw).1, fun hnic => (h.barrier w hw).2 (Finset.mem_of_mem_erase hnic)⟩
        quiet := fun w hw => ⟨(h.quiet w hw).1, fun hnic => (h.quiet w hw).2.1 (Finset.mem_of_mem_erase hnic), (h.quiet w hw).2.2⟩ }
    · rcases Finset.mem_insert.mp hw with heq | hacked
      · exact heq ▸ (h.nic wr hin).1
      · exact h.acked w hacked
    · intro hacked
      rcases Finset.mem_insert.mp hacked with heq | hacked
      · exact Finset.ne_of_mem_erase hw heq
      · exact (h.nic w (Finset.mem_of_mem_erase hw)).2 hacked
  · exact h

theorem complete_open (wr : ℕ) : BarrierOpen (complete q wr) ↔ BarrierOpen q := by
  unfold complete
  split
  · next hin =>
    refine exists_congr fun w => and_congr_right fun hw => ?_
    have hne : w ≠ wr := fun heq => (h.barrier w hw).2 (heq ▸ hin)
    exact not_congr (Finset.mem_insert.trans (or_iff_right hne))
  · exact Iff.rfl

/-- Reporting a pending id that is not with the transport. -/
theorem ack_ok {wr : ℕ} (hp : Pending q wr) (hnic : wr ∉ q.nic) :
    Queues.Ok maxInflight { q with acked := insert wr q.acked } := by
  refine { h with acked := fun w hw => ?_, nic := fun w hw => ⟨(h.nic w hw).1, fun hacked => ?_⟩ }
  · rcases Finset.mem_insert.mp hw with heq | hacked
    · exact heq ▸ hp
    · exact h.acked w hacked
  · rcases Finset.mem_insert.mp hacked with heq | hacked
    · exact hnic (heq ▸ hw)
    · exact (h.nic w hw).2 hacked

theorem ackBarrier_ok : (ackBarrier q).Ok maxInflight := by
  unfold ackBarrier
  split
  · next wr hwr => exact ack_ok h (h.barrier wr hwr).1 (h.barrier wr hwr).2
  · exact h

theorem ackQuiet_ok : (ackQuiet q).Ok maxInflight := by
  unfold ackQuiet
  split
  · next wr hwr => exact ack_ok h (h.quiet wr hwr).1 (h.quiet wr hwr).2.1
  · exact h

end

theorem ackBarrier_not_open (q : Queues Q) : ¬ BarrierOpen (ackBarrier q) := by
  unfold ackBarrier
  split
  · next wr hwr =>
    rintro ⟨w, hw, hnot⟩
    rw [Option.some.inj (hw.symm.trans hwr)] at hnot
    exact hnot (Finset.mem_insert_self wr _)
  · next hnone =>
    rintro ⟨w, hw, -⟩
    cases hnone.symm.trans hw

theorem ackQuiet_open (h : q.Ok maxInflight) : BarrierOpen (ackQuiet q) ↔ BarrierOpen q := by
  unfold ackQuiet
  split
  · next wr hwr =>
    refine exists_congr fun w => and_congr_right fun hw => ?_
    have hne : w ≠ wr := fun heq => (h.quiet wr hwr).2.2 (heq ▸ hw)
    exact not_congr (Finset.mem_insert.trans (or_iff_right hne))
  · exact Iff.rfl

-- ── Retiring

section

variable (q : Queues Q) (i : Fin Q) (wr : ℕ)

/-- The fields a clear step keeps. -/
theorem clearQuiet_fields : (∀ j, ((clearQuiet q i wr).ring j).pending = (q.ring j).pending ∧
      ((clearQuiet q i wr).ring j).fifoSeq = (q.ring j).fifoSeq ∧
      ((clearQuiet q i wr).ring j).retired = (q.ring j).retired) ∧
    (clearQuiet q i wr).acked = q.acked ∧ (clearQuiet q i wr).nic = q.nic ∧
    (clearQuiet q i wr).barrierWr = q.barrierWr ∧
    (clearQuiet q i wr).barrierInflight = q.barrierInflight := by
  unfold clearQuiet
  split
  · refine ⟨fun j => ?_, rfl, rfl, rfl, rfl⟩
    by_cases hj : j = i
    · rw [hj]
      simp only [update_self]
      exact ⟨rfl, rfl, rfl⟩
    · simp only [update_of_ne hj, and_self]
  · exact ⟨fun _ => ⟨rfl, rfl, rfl⟩, rfl, rfl, rfl, rfl⟩

theorem clearBarrier_fields : (∀ j, ((clearBarrier q i wr).ring j).pending = (q.ring j).pending ∧
      ((clearBarrier q i wr).ring j).fifoSeq = (q.ring j).fifoSeq ∧
      ((clearBarrier q i wr).ring j).retired = (q.ring j).retired) ∧
    (clearBarrier q i wr).acked = q.acked ∧ (clearBarrier q i wr).nic = q.nic ∧
    (clearBarrier q i wr).quietWr = q.quietWr ∧
    (clearBarrier q i wr).quietInflight = q.quietInflight := by
  unfold clearBarrier
  split
  · refine ⟨fun j => ?_, rfl, rfl, rfl, rfl⟩
    by_cases hj : j = i
    · rw [hj]
      simp only [update_self]
      exact ⟨rfl, rfl, rfl⟩
    · simp only [update_of_ne hj, and_self]
  · exact ⟨fun _ => ⟨rfl, rfl, rfl⟩, rfl, rfl, rfl, rfl⟩

/-- The QUIET in flight is forgotten exactly when it is the id that retires. -/
theorem clearQuiet_wr (h : q.quietInflight = q.quietWr.isSome) :
    (∀ w, (clearQuiet q i wr).quietWr = some w ↔ q.quietWr = some w ∧ w ≠ wr) ∧
      (clearQuiet q i wr).quietInflight = (clearQuiet q i wr).quietWr.isSome := by
  unfold clearQuiet
  split
  · next hwr =>
    refine ⟨fun w => ⟨fun hw => (nomatch hw), fun hw => ?_⟩, rfl⟩
    exact absurd (Option.some.inj (hw.1.symm.trans hwr)) hw.2
  · next hwr => exact ⟨fun w => ⟨fun hw => ⟨hw, fun heq => hwr (heq ▸ hw)⟩, fun hw => hw.1⟩, h⟩

theorem clearBarrier_wr (h : q.barrierInflight = q.barrierWr.isSome) :
    (∀ w, (clearBarrier q i wr).barrierWr = some w ↔ q.barrierWr = some w ∧ w ≠ wr) ∧
      (clearBarrier q i wr).barrierInflight = (clearBarrier q i wr).barrierWr.isSome := by
  unfold clearBarrier
  split
  · next hwr =>
    refine ⟨fun w => ⟨fun hw => (nomatch hw), fun hw => ?_⟩, rfl⟩
    exact absurd (Option.some.inj (hw.1.symm.trans hwr)) hw.2
  · next hwr => exact ⟨fun w => ⟨fun hw => ⟨hw, fun heq => hwr (heq ▸ hw)⟩, fun hw => hw.1⟩, h⟩

end

/-- What one pass of the retire loop does, field by field. -/
structure Retired (q q' : Queues Q) (i : Fin Q) (wr : ℕ) (rest : List ℕ) : Prop where
  self : (q'.ring i).pending = rest ∧ (q'.ring i).fifoSeq = (q.ring i).fifoSeq ∧
    (q'.ring i).retired = (q.ring i).retired + 1
  other : ∀ j, j ≠ i → (q'.ring j).pending = (q.ring j).pending ∧
    (q'.ring j).fifoSeq = (q.ring j).fifoSeq ∧ (q'.ring j).retired = (q.ring j).retired
  acked : q'.acked = q.acked.erase wr
  nic : q'.nic = q.nic
  barrier : ∀ w, q'.barrierWr = some w ↔ q.barrierWr = some w ∧ w ≠ wr
  quiet : ∀ w, q'.quietWr = some w ↔ q.quietWr = some w ∧ w ≠ wr
  barrierInflight : q'.barrierInflight = q'.barrierWr.isSome
  quietInflight : q'.quietInflight = q'.quietWr.isSome

theorem retireFront_retired (h : q.Ok maxInflight) (i : Fin Q) (wr : ℕ) (rest : List ℕ) :
    Retired q (retireFront q i wr rest) i wr rest := by
  -- the three updates in the order the loop makes them
  let q1 : Queues Q :=
    { q with acked := q.acked.erase wr,
             ring := update q.ring i { q.ring i with pending := rest, retired := (q.ring i).retired + 1 } }
  let q2 := clearQuiet q1 i wr
  have h2 := clearQuiet_fields q1 i wr
  have h3 := clearBarrier_fields q2 i wr
  have hquiet := clearQuiet_wr q1 i wr h.quietInflight
  have hflight : q2.barrierInflight = q2.barrierWr.isSome := by
    rw [h2.2.2.2.2, h2.2.2.2.1]
    exact h.barrierInflight
  have hbarrier := clearBarrier_wr q2 i wr hflight
  have hring : ∀ j, ((clearBarrier q2 i wr).ring j).pending = (q1.ring j).pending ∧
      ((clearBarrier q2 i wr).ring j).fifoSeq = (q1.ring j).fifoSeq ∧
      ((clearBarrier q2 i wr).ring j).retired = (q1.ring j).retired := fun j =>
    ⟨(h3.1 j).1.trans (h2.1 j).1, (h3.1 j).2.1.trans (h2.1 j).2.1, (h3.1 j).2.2.trans (h2.1 j).2.2⟩
  have hself : q1.ring i = { q.ring i with pending := rest, retired := (q.ring i).retired + 1 } := update_self ..
  have hother : ∀ j, j ≠ i → q1.ring j = q.ring j := fun j hj => update_of_ne hj ..
  show Retired q (clearBarrier q2 i wr) i wr rest
  refine ⟨?_, fun j hj => ?_, h3.2.1.trans h2.2.1, h3.2.2.1.trans h2.2.2.1, fun w => ?_, fun w => ?_, hbarrier.2, ?_⟩
  · have := hring i
    rw [hself] at this
    exact this
  · have := hring j
    rw [hother j hj] at this
    exact this
  · rw [hbarrier.1 w, h2.2.2.2.1]
  · rw [h3.2.2.2.1]
    exact hquiet.1 w
  · rw [h3.2.2.2.1, h3.2.2.2.2]
    exact hquiet.2

theorem Ring.Window.retire {r r' : Ring} (h : Ring.Window i r)
    (hfront : r.pending = wr :: rest) (hp : r'.pending = rest) (hs : r'.fifoSeq = r.fifoSeq)
    (hr : r'.retired = r.retired + 1) : Ring.Window i r' ∧ wr = uniqueWrId i r.retired ∧ r.retired < r.fifoSeq := by
  obtain ⟨hle, heq⟩ := h
  cases hn : r.fifoSeq - r.retired with
  | zero =>
    rw [hfront, hn] at heq
    cases heq
  | succ n =>
    rw [hfront, hn, range'_succ] at heq
    obtain ⟨hwr, hrest⟩ := cons.inj heq
    refine ⟨⟨by omega, ?_⟩, hwr, by omega⟩
    have hlen : r.fifoSeq - (r.retired + 1) = n := by omega
    rw [hp, hs, hr, hlen, hrest]

theorem Retired.ok (h : q.Ok maxInflight)
    (hr : Retired q q' i wr rest) (hfront : (q.ring i).pending = wr :: rest) (hwr : wr ∈ q.acked) :
    q'.Ok maxInflight := by
  -- an id other than the one that retires stays pending
  have hp : ∀ w, w ≠ wr → Pending q w → Pending q' w := by
    rintro w hne ⟨j, hj⟩
    refine ⟨j, ?_⟩
    by_cases hji : j = i
    · rw [hji, hfront] at hj
      rw [hji, hr.self.1]
      exact (mem_cons.mp hj).resolve_left hne
    · rw [(hr.other j hji).1]
      exact hj
  refine ⟨fun j => ?_, fun j => ?_, fun w hw => ?_, fun w hw => ?_, fun w hw => ?_, fun w hw => ?_,
    hr.barrierInflight, hr.quietInflight⟩
  · by_cases hji : j = i
    · rw [hji]
      exact ((h.window i).retire hfront hr.self.1 hr.self.2.1 hr.self.2.2).1
    · have hw := h.window j
      unfold Ring.Window at hw ⊢
      rw [(hr.other j hji).1, (hr.other j hji).2.1, (hr.other j hji).2.2]
      exact hw
  · by_cases hji : j = i
    · have := h.room i
      rw [hfront, length_cons] at this
      rw [hji, hr.self.1]
      omega
    · rw [(hr.other j hji).1]
      exact h.room j
  · rw [hr.acked] at hw
    exact hp w (Finset.ne_of_mem_erase hw) (h.acked w (Finset.mem_of_mem_erase hw))
  · rw [hr.nic] at hw
    obtain ⟨hpend, hnot⟩ := h.nic w hw
    refine ⟨hp w (fun heq => hnot (heq ▸ hwr)) hpend, ?_⟩
    rw [hr.acked]
    exact fun hin => hnot (Finset.mem_of_mem_erase hin)
  · obtain ⟨hold, hne⟩ := (hr.barrier w).mp hw
    rw [hr.nic]
    exact ⟨hp w hne (h.barrier w hold).1, (h.barrier w hold).2⟩
  · obtain ⟨hold, hne⟩ := (hr.quiet w).mp hw
    rw [hr.nic]
    exact ⟨hp w hne (h.quiet w hold).1, (h.quiet w hold).2.1, fun hb => (h.quiet w hold).2.2 ((hr.barrier w).mp hb).1⟩

/-- Retiring an acked id opens and closes nothing. -/
theorem Retired.open_iff (hr : Retired q q' i wr rest) (hwr : wr ∈ q.acked) : BarrierOpen q' ↔ BarrierOpen q := by
  constructor
  · rintro ⟨w, hw, hnot⟩
    obtain ⟨hold, hne⟩ := (hr.barrier w).mp hw
    refine ⟨w, hold, fun hin => hnot ?_⟩
    rw [hr.acked]
    exact Finset.mem_erase.mpr ⟨hne, hin⟩
  · rintro ⟨w, hw, hnot⟩
    have hne : w ≠ wr := fun heq => hnot (heq ▸ hwr)
    refine ⟨w, (hr.barrier w).mpr ⟨hw, hne⟩, ?_⟩
    rw [hr.acked]
    exact fun hin => hnot (Finset.mem_of_mem_erase hin)

/-- What every pass of the retire loops keeps, the whole of `notify_gpu_completion` keeps. -/
theorem notify_rule {P : Queues Q → Prop}
    (hpass : ∀ q i wr rest, q.Ok maxInflight → (q.ring i).pending = wr :: rest → wr ∈ q.acked →
      P q → P (retireFront q i wr rest)) (h : q.Ok maxInflight) (hP : P q) :
    (notifyGpuCompletion q).Ok maxInflight ∧ P (notifyGpuCompletion q) := by
  -- the inner loop: induction on what is left of the deque
  have hring : ∀ i l q, q.Ok maxInflight → (q.ring i).pending = l → P q →
      (retireRing i l q).Ok maxInflight ∧ P (retireRing i l q) := by
    intro i l
    induction l with
    | nil => exact fun q hq _ hPq => ⟨hq, hPq⟩
    | cons wr rest ih =>
      intro q hq hfront hPq
      unfold retireRing
      split
      · next hwr =>
        have hr := retireFront_retired hq i wr rest
        exact ih _ (hr.ok hq hfront hwr) hr.self.1 (hpass q i wr rest hq hfront hwr hPq)
      · exact ⟨hq, hPq⟩
  unfold notifyGpuCompletion
  generalize finRange Q = is
  induction is generalizing q with
  | nil => exact ⟨h, hP⟩
  | cons i is ih =>
    obtain ⟨hok, hP'⟩ := hring i _ q h rfl hP
    exact ih hok hP'

theorem notify_ok (h : q.Ok maxInflight) : (notifyGpuCompletion q).Ok maxInflight :=
  (notify_rule (P := fun _ => True) (fun _ _ _ _ _ _ _ _ => trivial) h trivial).1

theorem notify_open (h : q.Ok maxInflight) : BarrierOpen (notifyGpuCompletion q) ↔ BarrierOpen q :=
  (notify_rule (P := fun q' => BarrierOpen q' ↔ BarrierOpen q) (fun _ i wr rest hq _ hwr hiff =>
      ((retireFront_retired hq i wr rest).open_iff hwr).trans hiff) h Iff.rfl).2

end EpQueue
