import Mathlib.Data.List.Nodup
import Mathlib.Data.List.Range
import Uccl.StepRunProofs

/-! # The data waits of the IPC adapter

    A put takes its number under a mutex and enters the send ring later; the send worker copies the puts in the order of
    the ring and stores the number of each copied one in `last_completed`, which a data wait compares with its own
    number (ipc_adapter.cc). Numbers overtake each other on the way to the ring, and a failed copy is passed over by the
    next store. Apart from these the numbers stored are those of the first puts, in order (`waits_in_order`). -/

namespace UkIpcData

open StepRun List

/-- One direction between two peers. -/
structure Channel where
  /-- `seqs_[rank][dir]` of the sender -/
  seqs : ℕ := 1
  /-- the puts that have a number and are not in the ring -/
  called : List ℕ := []
  sendRing : List ℕ := []
  /-- the puts that were copied -/
  copied : List ℕ := []
  /-- what `last_completed` has held, the last value first -/
  stored : List ℕ := []
  /-- the data waits that have succeeded, by their number -/
  succeeded : List ℕ := []

def matchSeq (dir : Bool) (counter : ℕ) : ℕ := counter <<< 1 ||| dir.toNat

def lastCompleted (s : Channel) : ℕ := s.stored.headD 0

inductive Action
  /-- `next_send_match_seq` in a call of `send_put_async` or `send_put_signal_async` -/
  | nextSendMatchSeq
  /-- `enqueue_elem` of the call with number `n` -/
  | enqueueElem (n : ℕ)
  /-- a turn of the send worker, and whether `send_one` succeeds -/
  | sendOne (ok : Bool)
  /-- `recv_one` of the data wait behind `k` others reads the counter; the waits are numbered from 1 as well -/
  | recvOne (k : ℕ)

def step (dir : Bool) (s : Channel) : Action → Except Unit Channel
  | .nextSendMatchSeq => .ok { s with seqs := s.seqs + 1, called := s.seqs :: s.called }
  | .enqueueElem n =>
    if n ∈ s.called then .ok { s with called := s.called.erase n, sendRing := s.sendRing ++ [n] }
    else .error ()
  | .sendOne ok =>
    match s.sendRing with
    | [] => .ok s
    | n :: sendRing =>
      if ok then
        .ok { s with sendRing, copied := s.copied ++ [n], stored := matchSeq dir n :: s.stored }
      else .ok { s with sendRing }
  | .recvOne k =>
    if matchSeq dir (k + 1) ≤ lastCompleted s then .ok { s with succeeded := (k + 1) :: s.succeeded } else .ok s

structure Ordered (s : Channel) : Prop where
  /-- `last_completed` never decreases -/
  stored : s.stored.Pairwise (· ≥ ·)
  waits : ∀ k ∈ s.succeeded, ∀ n, 1 ≤ n → n ≤ k → n ∈ s.copied

/-- The calls enter the ring in the order of their numbers, and every copy succeeds. -/
def Orderly (s : Channel) : Action → Prop
  | .enqueueElem n => ∀ m ∈ s.called, n ≤ m
  | .sendOne ok => ok = true
  | _ => True

/-- The puts go through call, ring and copy in the order of their numbers. -/
structure Inv (dir : Bool) (s : Channel) : Prop where
  copied : s.copied = range' 1 s.copied.length
  ring : s.sendRing = range' (s.copied.length + 1) s.sendRing.length
  called : ∀ n, n ∈ s.called ↔ s.copied.length + s.sendRing.length < n ∧ n < s.seqs
  nodup : s.called.Nodup
  seqs : s.copied.length + s.sendRing.length < s.seqs
  stored : s.stored = (s.copied.map (matchSeq dir)).reverse
  succeeded : ∀ k ∈ s.succeeded, k ≤ s.copied.length

variable {dir : Bool} {s s' : Channel}

theorem matchSeq_eq (dir : Bool) (n : ℕ) : matchSeq dir n = n * 2 + dir.toNat := by
  rw [matchSeq, ← Nat.shiftLeft_add_eq_or_of_lt (Bool.toNat_lt dir), Nat.shiftLeft_eq]

/-- The last value stored is the number of the last put copied. -/
theorem Inv.le_of_le (h : Inv dir s) {k : ℕ} (hk : matchSeq dir (k + 1) ≤ lastCompleted s) :
    k + 1 ≤ s.copied.length := by
  rw [lastCompleted, h.stored, h.copied] at hk
  cases hlen : s.copied.length with
  | zero =>
    rw [hlen, matchSeq_eq] at hk
    simp at hk
  | succ m =>
    rw [hlen, range'_concat] at hk
    simp [matchSeq_eq] at hk
    omega

theorem step_inv {a : Action} (h : Inv dir s) (hord : Orderly s a) (hstep : step dir s a = .ok s') : Inv dir s' := by
  cases a with
  | nextSendMatchSeq =>
    cases hstep
    refine { h with called := ?_, nodup := ?_, seqs := ?_ } <;> grind [h.called, h.nodup, h.seqs]
  | enqueueElem n =>
    simp only [step] at hstep
    split at hstep
    · next hn =>
      cases hstep
      -- the least number called is the next one of the ring
      have hin := (h.called n).mp hn
      have hleast : n = s.copied.length + s.sendRing.length + 1 :=
        Nat.le_antisymm (hord _ ((h.called _).mpr ⟨by omega, by omega⟩)) hin.1
      refine { h with ring := ?_, called := ?_, nodup := h.nodup.erase n, seqs := ?_ }
      · rw [length_append, length_singleton, range'_concat, ← h.ring, hleast, Nat.one_mul, Nat.add_right_comm]
      · intro m
        rw [h.nodup.mem_erase_iff, h.called]
        grind
      · grind
    · cases hstep
  | sendOne ok =>
    cases hord
    simp only [step] at hstep
    split at hstep
    · cases hstep
      exact h
    · next n ring hr =>
      cases hstep
      have hring := h.ring
      rw [hr, length_cons] at hring
      obtain ⟨rfl, htail⟩ := cons.inj hring
      refine { h with copied := ?_, ring := ?_, called := ?_, seqs := ?_, stored := ?_, succeeded := ?_ }
      · rw [length_append, length_singleton, range'_concat, ← h.copied, Nat.one_mul, Nat.add_comm 1]
      · simpa using htail
      · grind [h.called]
      · grind [h.seqs]
      · simp [h.stored]
      · exact fun k hk => (h.succeeded k hk).trans (by simp)
  | recvOne k =>
    simp only [step] at hstep
    split at hstep
    · next hk =>
      cases hstep
      exact { h with succeeded := forall_mem_cons.mpr ⟨h.le_of_le hk, h.succeeded⟩ }
    · cases hstep
      exact h

theorem Inv.ordered (h : Inv dir s) : Ordered s := by
  constructor
  · rw [h.stored, h.copied, pairwise_reverse, pairwise_map]
    refine (pairwise_lt_range' 1).imp fun hlt => ?_
    rw [matchSeq_eq, matchSeq_eq]
    omega
  · intro k hk n hpos hn
    have hle := h.succeeded k hk
    rw [h.copied, mem_range'_1]
    omega

theorem Inv.init : Inv dir {} := by
  constructor <;> simp [Nat.pos_iff_ne_zero]

/-- **THE WAITS ARE IN ORDER** in every run whose calls enter the ring in order and whose copies succeed. -/
theorem waits_in_order {as : List Action} (hord : Along (step dir) Orderly {} as)
    (hrun : runFrom (step dir) {} as = .ok s) : Ordered s :=
  (runFrom_invariant_along (fun _ _ _ hi hg hst => step_inv hi hg hst) Inv.init hord hrun).ordered

instance (s : Channel) (a : Action) : Decidable (Orderly s a) := by
  cases a <;> unfold Orderly <;> infer_instance

/-- Two calls, two copies and the wait for the second. -/
theorem second_wait_in_order : ∃ s, runFrom (step false) {}
      [.nextSendMatchSeq, .nextSendMatchSeq, .enqueueElem 1, .sendOne true, .recvOne 1, .enqueueElem 2, .sendOne true,
        .recvOne 1] = .ok s ∧ s.succeeded = [2] ∧ Ordered s := by
  refine exists_run_of_guarded (G := Orderly) (fun s => s.succeeded = [2]) ?_
    fun s hord hrun hs => ⟨hs, waits_in_order hord hrun⟩
  decide +kernel

/-- A call that is overtaken makes `last_completed` decrease, and the first wait succeeds before the first put is
    copied; the wait for a put whose copy failed succeeds with the next one. -/
theorem waits_out_of_order :
    (∃ s, runFrom (step true) {} [.nextSendMatchSeq, .nextSendMatchSeq, .enqueueElem 2, .sendOne true, .recvOne 0,
        .enqueueElem 1, .sendOne true] = .ok s ∧ s.stored = [3, 5] ∧ s.succeeded = [1] ∧ s.copied = [2, 1]) ∧
    ∃ s, runFrom (step true) {} [.nextSendMatchSeq, .enqueueElem 1, .nextSendMatchSeq, .enqueueElem 2, .sendOne false,
        .sendOne true, .recvOne 0] = .ok s ∧ s.succeeded = [1] ∧ s.copied = [2] := by
  refine ⟨⟨_, rfl, ?_⟩, ⟨_, rfl, ?_⟩⟩ <;> decide

end UkIpcData
