import Mathlib.Algebra.Ring.Nat
import Mathlib.Algebra.Order.BigOperators.Group.Finset
import Mathlib.Data.Fintype.BigOperators

/-! # Cached totals

    Each holder has a bag of amounts; a program caches the sum of every bag and the sum of all of them.
    `Exact` says that the caches are right, and its two rules are what it takes to keep them right: an amount
    is added to the bag and to both caches, or removed from all three. -/

namespace Ledger

open List

variable {H : Type} [Fintype H] {items items' : H → List ℕ} {total total' : H → ℕ}
  {grand grand' n : ℕ} {f : H}

/-- Every cached total is the sum of its bag, and the grand total the sum of these. -/
structure Exact (items : H → List ℕ) (total : H → ℕ) (grand : ℕ) : Prop where
  holder : ∀ f, total f = (items f).sum
  all : grand = ∑ f, total f

section

variable (h : Exact items total grand)
include h

theorem Exact.total_le (f : H) : total f ≤ grand := by
  rw [h.all]
  exact Finset.single_le_sum (fun _ _ => Nat.zero_le _) (Finset.mem_univ f)

theorem Exact.le_total (hn : n ∈ items f) : n ≤ total f := by
  rw [h.holder f]
  exact single_le_sum (fun _ _ => Nat.zero_le _) n hn

/-- Bags are compared up to order. -/
theorem Exact.perm (hp : ∀ f, (items' f).Perm (items f)) : Exact items' total grand :=
  ⟨fun f => (h.holder f).trans (hp f).sum_eq.symm, h.all⟩

end

/-- Only the totals at `f` differ, by `n`: so do the sums. -/
theorem sum_add_of_update (hself : total' f = total f + n) (hother : ∀ g, g ≠ f → total' g = total g) :
    ∑ g, total' g = ∑ g, total g + n := by
  classical
  rw [← Finset.add_sum_erase _ total' (Finset.mem_univ f), ← Finset.add_sum_erase _ total (Finset.mem_univ f), hself]
  have hrest : ∑ g ∈ Finset.univ.erase f, total' g = ∑ g ∈ Finset.univ.erase f, total g :=
    Finset.sum_congr rfl fun g hg => hother g (Finset.ne_of_mem_erase hg)
  omega

/-- **ADD** an amount to a bag and to both caches. -/
theorem Exact.add (h : Exact items total grand) (hself : (items' f).Perm (n :: items f))
    (hother : ∀ g, g ≠ f → (items' g).Perm (items g)) (ht : total' f = total f + n)
    (hto : ∀ g, g ≠ f → total' g = total g) (hgrand : grand' = grand + n) : Exact items' total' grand' := by
  refine ⟨fun g => ?_, ?_⟩
  · by_cases hg : g = f
    · rw [hg, ht, hself.sum_eq, sum_cons, h.holder f, Nat.add_comm]
    · rw [hto g hg, (hother g hg).sum_eq, h.holder g]
  · rw [hgrand, h.all, sum_add_of_update ht hto]

/-- **REMOVE** an amount from a bag and from both caches. -/
theorem Exact.remove (h : Exact items total grand) (hself : (items f).Perm (n :: items' f))
    (hother : ∀ g, g ≠ f → (items' g).Perm (items g)) (ht : total' f = total f - n)
    (hto : ∀ g, g ≠ f → total' g = total g) (hgrand : grand' = grand - n) : Exact items' total' grand' := by
  have hn : n ≤ total f := h.le_total (hself.mem_iff.mpr (mem_cons_self))
  have hsum : ∑ g, total g = ∑ g, total' g + n := sum_add_of_update (f := f) (by omega) fun g hg => (hto g hg).symm
  refine ⟨fun g => ?_, ?_⟩
  · by_cases hg : g = f
    · rw [hg, ht, h.holder f, hself.sum_eq, sum_cons, Nat.add_sub_cancel_left]
    · rw [hto g hg, (hother g hg).sum_eq, h.holder g]
  · rw [hgrand, h.all, hsum, Nat.add_sub_cancel]

end Ledger
