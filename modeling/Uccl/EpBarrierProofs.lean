import Mathlib.Algebra.Ring.Nat
import Mathlib.Data.Fintype.Basic

/-! # The ranks of the inter-node barrier

    `N` nodes of `R` ranks each, one proxy per rank. A BARRIER command makes the proxy raise its sequence number
    and store it in the node's shared `arrive_seq` word. The node leader (local rank 0) polls those words in
    `barrier_check`; once they all show the current number it tells rank 0, which counts one arrival per node and
    releases the other leaders. Leaders pass the release on through the shared `release_seq` words.

    A proxy that is inside `barrier_check` does nothing else (`Pc`). -/

namespace EpBarrier

variable {N R : ℕ}

/-- Rank `n * R + l`: local rank `l` of node `n`. -/
abbrev Rank (N R : ℕ) := Fin N × Fin R

/-- Where a proxy is: outside `barrier_check`, or before its next shared access in it. -/
inductive Pc
  | loop
  /-- before the load of `arrive_seq[lr]` -/
  | scan (lr : ℕ)
  /-- all local ranks were seen -/
  | arrived
  /-- before the store to `release_seq[lr]`; rank 0 with every node in, or a released leader -/
  | fan (global : Bool) (lr : ℕ)
  /-- before the ack -/
  | finish (global : Bool)
  deriving DecidableEq

/-- Rank 0 has decided to release and has not finished doing so. -/
def Pc.releasing : Pc → Bool
  | .fan true _ | .finish true => true
  | _ => false

variable [NeZero N] [NeZero R]

/-- The node leader: the lowest rank of the node. -/
def leader (n : Fin N) : Rank N R := (n, 0)

/-- Rank 0, the leader of node 0. -/
def root : Rank N R := leader 0

/-- The ranks of two nodes of one rank, and a proxy's ring when there is one: what the runs on
    fixed inputs are about. -/
abbrev rank0 : Rank 2 1 := root

abbrev rank1 : Rank 2 1 := leader 1

abbrev onlyRing : Fin 1 := 0

theorem leader_ne_root {n : Fin N} (h : n ≠ 0) : (leader n : Rank N R) ≠ root := fun heq =>
  h (congrArg Prod.fst heq)

omit [NeZero N] in
theorem leader_injective {n m : Fin N} (h : (leader n : Rank N R) = leader m) : n = m := congrArg Prod.fst h

omit [NeZero N] in
theorem eq_leader {r : Rank N R} (h : r.2 = 0) : r = leader r.1 := Prod.ext rfl h

end EpBarrier
