import Uccl.StepRunProofs

/-! # Signals over RDMA

    A signal of the ukernel transport is a `SEND` of its tag on a queue pair of its own
    (experimental/ukernel/src/transport/adapter/rdma_adapter.cc). The receiver has ONE buffer for the tag and one
    receive work request (`init_signal_pool`). When `poll_signal_cq` finds the completion of the receive, it posts the
    request again (`repost_signal_recv`), reads the buffer, and hands the tag to `on_signal_received`. So a tag waits as
    long as there is no receive posted, but not for the read of the buffer (`signal_overwritten`, `signals_delivered`).

    The queue pair is reliable and ordered, and without a posted receive the NIC tries again for ever (`kQpRnrRetry` is
    7). Completions with an error are left out: they come when the queue pair is in the error state, and then no signal
    arrives. -/

namespace UkRdmaSignal

open StepRun List

/-- A completion in the queue of the signal queue pair: of a signal that this rank has sent, or of the receive. -/
inductive Wc
  | send
  | recv
  deriving DecidableEq

/-- Where `poll_signal_cq` is. -/
inductive Poll
  | idle
  | polled
  | reposted
  deriving DecidableEq

structure State where
  /-- The tags in the order in which the peer has sent them. -/
  sent : List ℕ
  /-- Those that are still to be delivered. -/
  wire : List ℕ
  /-- The number of posted receives. -/
  posted : ℕ
  tagBuf : ℕ
  cq : List Wc
  poll : Poll
  /-- The arguments of the calls of `on_signal_received`. -/
  received : List ℕ
  deriving DecidableEq

open State

/-- After `init_signal_pool`. -/
def State.init : State := ⟨[], [], 1, 0, [], .idle, []⟩

inductive Action
  /-- The peer sends a signal. -/
  | send (tag : ℕ)
  /-- The NIC puts the next tag into the posted receive. -/
  | deliver
  /-- A signal of this rank is completed. -/
  | sendDone
  /-- `ibv_poll_cq` -/
  | poll
  /-- `repost_signal_recv`, whose result is ignored. -/
  | repost (ok : Bool)
  /-- The tag is read and handed on. -/
  | read
  deriving DecidableEq

def deliver (s : State) : State :=
  match s.wire with
  | [] => s
  | tag :: rest =>
    if s.posted = 0 then s
    else { s with wire := rest, posted := s.posted - 1, tagBuf := tag, cq := s.cq ++ [.recv] }

def pollCq (s : State) : State :=
  if s.poll = .idle then
    match s.cq with
    | [] => s
    | .send :: rest => { s with cq := rest }
    | .recv :: rest => { s with cq := rest, poll := .polled }
  else s

def repost (s : State) (ok : Bool) : State :=
  if s.poll = .polled then { s with posted := s.posted + ok.toNat, poll := .reposted } else s

def readTag (s : State) : State :=
  if s.poll = .reposted then { s with received := s.received ++ [s.tagBuf], poll := .idle } else s

def step (s : State) : Action → Except Empty State
  | .send tag => .ok { s with sent := s.sent ++ [tag], wire := s.wire ++ [tag] }
  | .deliver => .ok (deliver s)
  | .sendDone => .ok { s with cq := s.cq ++ [.send] }
  | .poll => .ok (pollCq s)
  | .repost ok => .ok (repost s ok)
  | .read => .ok (readTag s)

/-- Neither the NIC nor the poll thread has anything left to do for a signal. -/
def State.Quiet (s : State) : Prop := s.poll = .idle ∧ Wc.recv ∉ s.cq ∧ (s.wire = [] ∨ s.posted = 0)
deriving Decidable

/-- What was handed on are the first signals, in order, and in the end all of them. -/
def Delivered (s : State) : Prop := s.received <+: s.sent ∧ (s.Quiet → s.received = s.sent)

/-- A repost succeeds, and nothing is delivered before the read that follows it. -/
def Apart (s : State) : Action → Prop
  | .deliver => s.poll ≠ .reposted
  | .repost ok => ok = true
  | _ => True

instance (s : State) (a : Action) : Decidable (Apart s a) := by
  cases a <;> unfold Apart <;> infer_instance

-- ── One signal at a time

/-- The tag that is on its way through the buffer: its receive is completed, or the poll thread has it. -/
def State.held (s : State) : List ℕ := if Wc.recv ∈ s.cq ∨ s.poll ≠ .idle then [s.tagBuf] else []

/-- No signal is lost or doubled, and either the receive is posted or exactly one tag is on its way. -/
structure Inv (s : State) : Prop where
  conserved : s.sent = s.received ++ s.held ++ s.wire
  once : s.posted + s.cq.count .recv + (if s.poll = .polled then 1 else 0) = 1
  alone : s.poll = .reposted → s.cq.count .recv = 0

theorem Inv.init : Inv init := ⟨rfl, rfl, fun h => by cases h⟩

variable {s : State}

section

variable (h : Inv s)
include h

/-- With a receive posted, and outside of a visit, the buffer is free. -/
theorem Inv.held_eq_nil (hposted : s.posted ≠ 0) (hpoll : s.poll ≠ .reposted) : s.held = [] := by
  have honce := h.once
  have hidle : s.poll = .idle := by
    cases hp : s.poll with
    | idle => rfl
    | polled =>
      rw [hp, if_pos rfl] at honce
      omega
    | reposted => exact absurd hp hpoll
  have hrecv : Wc.recv ∉ s.cq := by
    exact count_eq_zero.mp (by omega)
  unfold held
  rw [if_neg]
  rintro (hmem | hne)
  · exact hrecv hmem
  · exact hne hidle

theorem deliver_inv (hpoll : s.poll ≠ .reposted) : Inv (deliver s) := by
  unfold deliver
  cases hwire : s.wire with
  | nil => exact h
  | cons tag rest =>
    dsimp only
    by_cases hposted : s.posted = 0
    · rw [if_pos hposted]
      exact h
    · rw [if_neg hposted]
      have hheld := h.held_eq_nil hposted hpoll
      refine ⟨?_, ?_, fun hp => absurd hp hpoll⟩
      · have hnow : ∀ s' : State, Wc.recv ∈ s'.cq → s'.held = [s'.tagBuf] := fun s' hmem => if_pos (.inl hmem)
        rw [hnow _ (mem_append_right _ (mem_singleton_self _)), h.conserved, hheld, hwire, append_nil, append_assoc]
        rfl
      · have honce := h.once
        show s.posted - 1 + (s.cq ++ [Wc.recv]).count .recv + (if s.poll = .polled then 1 else 0) = 1
        rw [count_append, count_singleton_self]
        omega

theorem pollCq_inv : Inv (pollCq s) := by
  unfold pollCq
  by_cases hidle : s.poll = .idle
  · rw [if_pos hidle]
    cases hcq : s.cq with
    | nil => exact h
    | cons wc rest =>
      have hheld := h.conserved
      have honce := h.once
      unfold held at hheld
      rw [hcq] at hheld honce
      cases wc with
      | send =>
        refine ⟨?_, ?_, fun hp => ?_⟩
        · simpa [held] using hheld
        · simpa using honce
        · exact absurd (hp.symm.trans hidle) (by decide)
      | recv =>
        refine ⟨?_, ?_, fun hp => by cases hp⟩
        · simpa [held] using hheld
        · rw [hidle, count_cons_self] at honce
          show s.posted + rest.count .recv + 1 = 1
          omega
  · rw [if_neg hidle]
    exact h

theorem repost_inv : Inv (repost s true) := by
  unfold repost
  by_cases hp : s.poll = .polled
  · rw [if_pos hp]
    have hheld := h.conserved
    have honce := h.once
    unfold held at hheld
    rw [if_pos (.inr (by rw [hp]; decide))] at hheld
    rw [if_pos hp] at honce
    refine ⟨?_, ?_, fun _ => ?_⟩
    · show s.sent = s.received ++ (if Wc.recv ∈ s.cq ∨ Poll.reposted ≠ .idle then [s.tagBuf] else []) ++ s.wire
      rw [if_pos (.inr (by decide))]
      exact hheld
    · show s.posted + 1 + s.cq.count .recv + 0 = 1
      omega
    · show s.cq.count .recv = 0
      omega
  · rw [if_neg hp]
    exact h

theorem readTag_inv : Inv (readTag s) := by
  unfold readTag
  by_cases hp : s.poll = .reposted
  · rw [if_pos hp]
    have hheld := h.conserved
    have hcount := h.alone hp
    unfold held at hheld
    rw [if_pos (.inr (by rw [hp]; decide))] at hheld
    refine ⟨?_, ?_, fun hcon => by cases hcon⟩
    · unfold held
      rw [if_neg, append_nil]
      · exact hheld
      · rintro (hmem | hne)
        · exact count_eq_zero.mp hcount hmem
        · exact hne rfl
    · have honce := h.once
      rw [if_neg (by rw [hp]; decide)] at honce
      exact honce
  · rw [if_neg hp]
    exact h

theorem step_inv {t : State} {a : Action} (hapart : Apart s a) (hstep : step s a = .ok t) : Inv t := by
  cases a with
  | send tag =>
    cases hstep
    refine ⟨?_, h.once, h.alone⟩
    show s.sent ++ [tag] = s.received ++ s.held ++ (s.wire ++ [tag])
    rw [h.conserved, append_assoc]
  | deliver =>
    cases hstep
    exact deliver_inv h hapart
  | sendDone =>
    cases hstep
    refine ⟨?_, ?_, ?_⟩
    · simpa [held] using h.conserved
    · simpa using h.once
    · simpa using h.alone
  | poll =>
    cases hstep
    exact pollCq_inv h
  | repost ok =>
    cases hstep
    rw [show ok = true from hapart]
    exact repost_inv h
  | read =>
    cases hstep
    exact readTag_inv h

theorem Inv.delivered : Delivered s := by
  refine ⟨⟨s.held ++ s.wire, ?_⟩, ?_⟩
  · rw [h.conserved, append_assoc]
  · rintro ⟨hidle, hrecv, hrest⟩
    have hheld : s.held = [] := by
      unfold held
      rw [if_neg]
      rintro (hmem | hne)
      · exact hrecv hmem
      · exact hne hidle
    -- the receive is posted, so nothing is left on the wire
    have honce := h.once
    rw [hidle, if_neg (by decide), count_eq_zero.mpr hrecv] at honce
    have hwire : s.wire = [] := hrest.resolve_right (by omega)
    rw [h.conserved, hheld, hwire, append_nil, append_nil]

end

/-- **Signals are handed on once and in order** as long as the NIC does not deliver between a repost and the
    read that follows it. -/
theorem signals_delivered {s : State} {as : List Action} (halong : Along step Apart init as)
    (hrun : runFrom step init as = .ok s) : Delivered s :=
  (runFrom_invariant_along (fun _ _ _ hs hapart hstep => step_inv hs hapart hstep) Inv.init halong hrun).delivered

/-- Two signals back to back, the second delivered after the first was read. -/
theorem signals_delivered_two : ∃ s, runFrom step init
      [.send 1, .send 2, .deliver, .deliver, .poll, .repost true, .read, .deliver, .poll, .repost true, .read] = .ok s ∧
    (s.received = [1, 2] ∧ s.Quiet) ∧ Delivered s := by
  refine exists_run_of_guarded (G := Apart) (fun s => s.received = [1, 2] ∧ s.Quiet) ?_
    fun s halong hrun hs => ⟨hs, signals_delivered halong hrun⟩
  decide +kernel

/-- **The receive is posted again before the tag is read**: the second signal overwrites the first, and is
    handed on twice. -/
theorem signal_overwritten : ∃ s, runFrom step init
      [.send 1, .send 2, .deliver, .poll, .repost true, .deliver, .read, .poll, .repost true, .read] = .ok s ∧
    s.sent = [1, 2] ∧ s.received = [2, 2] ∧ s.Quiet ∧ ¬ Delivered s := by
  refine exists_run_of_eval (fun s => s.sent = [1, 2] ∧ s.received = [2, 2] ∧ s.Quiet) ?_ fun s hrun hs => ?_
  · decide +kernel
  · obtain ⟨hsent, hreceived, hquiet⟩ := hs
    refine ⟨hsent, hreceived, hquiet, fun hdelivered => ?_⟩
    have heq := hdelivered.2 hquiet
    rw [hsent, hreceived] at heq
    exact absurd heq (by decide)

end UkRdmaSignal
