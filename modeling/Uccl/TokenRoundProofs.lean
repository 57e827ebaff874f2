import Mathlib.Algebra.Ring.Nat
import Mathlib.Algebra.Order.BigOperators.Group.List

/-! # Rounds of counted tokens

    A source sends tokens to a sink in rounds. It announces the number of tokens of a round separately, and tokens and
    announcement arrive in any order. The sink counts tokens; it settles the announcement, once, when it holds it and
    the count shows the announced sum, and starts counting afresh. A round starts when the one before is settled.

    `Account` is the account of one source, `Account.Ok` what holds of it throughout, and each of the four things that
    can happen keeps it. `effect sum` is what settling an announcement of `sum` does. -/

namespace TokenRound

open List

/-- The account of one source. -/
@[ext] structure Account (X : Type) where
  /-- what settling has done so far -/
  applied : List X
  /-- the sums announced so far, oldest first -/
  rounds : List ℕ
  /-- tokens that have arrived, over all rounds -/
  arrived : ℕ
  /-- tokens counted since the last settling -/
  counter : ℕ
  /-- tokens under way -/
  inFlight : ℕ
  /-- announcements under way -/
  announced : ℕ
  /-- announcements that the sink holds -/
  held : ℕ

variable {X : Type} {effect : ℕ → X} {a : Account X}

/-- A round is open: it has been announced and is not settled. -/
def Account.Open (a : Account X) : Prop := a.applied.length < a.rounds.length
deriving Decidable

/-- The sum of the latest round. -/
def Account.current (a : Account X) : ℕ := a.rounds.getLastD 0

structure Account.Ok (effect : ℕ → X) (a : Account X) : Prop where
  /-- each round was settled once, in order, with the effect of its own sum -/
  applied : a.applied = (a.rounds.take a.applied.length).map effect
  /-- an announcement is settled, under way or held -/
  outstanding : a.applied.length + a.announced + a.held = a.rounds.length
  /-- at most one round is open -/
  one : a.rounds.length ≤ a.applied.length + 1
  /-- the tokens of the open round are counted or under way -/
  tokens : a.counter + a.inFlight = if a.Open then a.current else 0
  total : a.arrived + a.inFlight = a.rounds.sum

section

variable (h : a.Ok effect)
include h

/-- Without an open round nothing is counted. -/
theorem Account.Ok.counter_eq_zero (hclosed : ¬ a.Open) : a.counter = 0 := by
  have htokens := h.tokens
  rw [if_neg hclosed] at htokens
  omega

/-- An open round is the last one, and all before it are settled. -/
theorem Account.Ok.rounds_eq (hopen : a.Open) : a.rounds = a.rounds.take a.applied.length ++ [a.current] := by
  have hone := h.one
  have hne : a.rounds ≠ [] := fun hnil => by
    unfold Account.Open at hopen
    rw [hnil] at hopen
    exact absurd hopen (Nat.not_lt_zero _)
  have hlen : a.rounds.length - 1 = a.applied.length := by
    unfold Account.Open at hopen
    omega
  have hlast : a.current = a.rounds.getLast hne := by
    unfold Account.current
    rw [getLastD_eq_getLast?, getLast?_eq_some_getLast hne]
    rfl
  rw [hlast, ← hlen, ← dropLast_eq_take]
  exact (dropLast_append_getLast hne).symm

/-- **NOTHING IS SETTLED EARLY**: the tokens of every settled round have arrived. -/
theorem Account.Ok.settled_le_arrived : (a.rounds.take a.applied.length).sum ≤ a.arrived := by
  have htotal := h.total
  have htokens := h.tokens
  by_cases hopen : a.Open
  · rw [if_pos hopen] at htokens
    rw [h.rounds_eq hopen, sum_append, sum_singleton] at htotal
    omega
  · have hone : a.rounds.length ≤ a.applied.length := Nat.le_of_not_lt hopen
    rw [if_neg hopen] at htokens
    rw [take_of_length_le hone]
    omega

/-- An announcement that is under way or held belongs to the open round, and there is one. -/
theorem Account.Ok.open_iff : a.Open ↔ a.announced + a.held = 1 := by
  have hout := h.outstanding
  have hone := h.one
  unfold Account.Open
  omega

/-- Tokens under way belong to an open round. -/
theorem Account.Ok.open_of_inFlight (hpos : 0 < a.inFlight) : a.Open := by
  by_contra hclosed
  have htokens := h.tokens
  rw [if_neg hclosed] at htokens
  omega

/-- An announcement that is held and not ready is ahead of tokens under way. -/
theorem Account.Ok.inFlight_pos (hheld : 0 < a.held) (hne : a.counter ≠ a.current) : 0 < a.inFlight := by
  have hout := h.outstanding
  have htokens := h.tokens
  rw [if_pos (show a.Open by unfold Account.Open; omega)] at htokens
  omega

-- ── What can happen

/-- A round of `sum` tokens starts. -/
def Account.begin (a : Account X) (sum : ℕ) : Account X :=
  { a with rounds := a.rounds ++ [sum], inFlight := a.inFlight + sum, announced := a.announced + 1 }

/-- `k` tokens arrive. -/
def Account.arrive (a : Account X) (k : ℕ) : Account X :=
  { a with arrived := a.arrived + k, counter := a.counter + k, inFlight := a.inFlight - k }

/-- The announcement arrives. -/
def Account.hold (a : Account X) : Account X :=
  { a with announced := a.announced - 1, held := a.held + 1 }

/-- The announcement is settled. -/
def Account.settle (effect : ℕ → X) (a : Account X) : Account X :=
  { a with applied := a.applied ++ [effect a.current], counter := 0, held := a.held - 1 }

theorem Account.Ok.begin (hclosed : ¬ a.Open) (sum : ℕ) : (a.begin sum).Ok effect := by
  have hout := h.outstanding
  have hlen : a.applied.length = a.rounds.length := by
    unfold Account.Open at hclosed
    omega
  have htokens := h.tokens
  rw [if_neg hclosed] at htokens
  have htotal := h.total
  have hrounds : (a.rounds ++ [sum]).length = a.rounds.length + 1 := length_append
  refine ⟨?_, ?_, ?_, ?_, ?_⟩
  · show a.applied = ((a.rounds ++ [sum]).take a.applied.length).map effect
    rw [take_append_of_le_length hlen.le]
    exact h.applied
  · show a.applied.length + (a.announced + 1) + a.held = (a.rounds ++ [sum]).length
    omega
  · show (a.rounds ++ [sum]).length ≤ a.applied.length + 1
    omega
  · have hopen : (a.begin sum).Open := by
      show a.applied.length < (a.rounds ++ [sum]).length
      omega
    rw [if_pos hopen]
    show a.counter + (a.inFlight + sum) = (a.rounds ++ [sum]).getLastD 0
    rw [getLastD_concat]
    omega
  · show a.arrived + (a.inFlight + sum) = (a.rounds ++ [sum]).sum
    rw [sum_append, sum_singleton]
    omega

theorem Account.Ok.arrive {k : ℕ} (hk : k ≤ a.inFlight) : (a.arrive k).Ok effect := by
  have htokens := h.tokens
  have htotal := h.total
  refine { h with tokens := ?_, total := ?_ }
  · show a.counter + k + (a.inFlight - k) = if a.Open then a.current else 0
    omega
  · show a.arrived + k + (a.inFlight - k) = a.rounds.sum
    omega

theorem Account.Ok.hold (hann : 0 < a.announced) : a.hold.Ok effect := by
  have hout := h.outstanding
  refine { h with outstanding := ?_ }
  show a.applied.length + (a.announced - 1) + (a.held + 1) = a.rounds.length
  omega

/-- Settling is right when the counter shows the sum. -/
theorem Account.Ok.settle (hheld : 0 < a.held) (hready : a.counter = a.current) : (a.settle effect).Ok effect := by
  have hopen : a.Open := by
    have hout := h.outstanding
    unfold Account.Open
    omega
  have hrounds := h.rounds_eq hopen
  have htokens := h.tokens
  rw [if_pos hopen] at htokens
  have hlen : (a.applied ++ [effect a.current]).length = a.applied.length + 1 := length_append
  have hall : a.rounds.length = a.applied.length + 1 := Nat.le_antisymm h.one hopen
  refine ⟨?_, ?_, ?_, ?_, h.total⟩
  · show a.applied ++ [effect a.current] = (a.rounds.take (a.applied ++ [effect a.current]).length).map effect
    rw [hlen, ← hall, take_length, hrounds, map_append, ← h.applied]
    rfl
  · show (a.applied ++ [effect a.current]).length + a.announced + (a.held - 1) = a.rounds.length
    have hout := h.outstanding
    omega
  · show a.rounds.length ≤ (a.applied ++ [effect a.current]).length + 1
    omega
  · have hclosed : ¬ (a.settle effect).Open := by
      show ¬ (a.applied ++ [effect a.current]).length < a.rounds.length
      omega
    rw [if_neg hclosed]
    show 0 + a.inFlight = 0
    omega

end

end TokenRound
