import Mathlib.Data.List.Nodup
import Mathlib.Data.List.Perm.Basic
import Mathlib.Order.Basic

/-! # Ordered sets under a comparison that is not an order everywhere

    A balanced search tree keyed by a user comparison `lt` is seen from outside as the list of its elements in
    traversal order. `insert` walks that list to the first element the new one compares below, and leaves the
    set alone when it meets an element that compares neither way.

    The comparison need not be transitive on the whole key type. What the tree relies on is that it agrees
    with a genuine order ON THE ELEMENTS PRESENT, and `insert_map` is that principle: along an embedding that
    reflects the comparison, insertion is insertion of positions. -/

namespace OrderedSet

open List

variable {α β : Type} {lt : α → α → Bool} {l : List (ℕ × β)} {x : ℕ × β}

/-- Insert into the traversal order of a search tree with comparison `lt`. -/
def insert (lt : α → α → Bool) (x : α) : List α → List α
  | [] => [x]
  | y :: ys =>
    if lt x y then x :: y :: ys
    else if lt y x then y :: insert lt x ys
    else y :: ys

/-- Along an embedding that reflects the comparison of `x` with the elements
    present, insertion commutes with the embedding. -/
theorem insert_map {lt' : β → β → Bool} (g : β → α) (x : β) {l : List β}
    (h : ∀ y ∈ l, lt (g x) (g y) = lt' x y ∧ lt (g y) (g x) = lt' y x) :
    insert lt (g x) (l.map g) = (insert lt' x l).map g := by
  induction l with
  | nil => rfl
  | cons y ys ih =>
    obtain ⟨h1, h2⟩ := h y (mem_cons_self)
    have ih' := ih (fun z hz => h z (mem_cons_of_mem y hz))
    simp only [map_cons, insert]
    rw [h1, h2]
    by_cases hxy : lt' x y = true
    · rw [if_pos hxy, if_pos hxy]; rfl
    · rw [if_neg hxy, if_neg hxy]
      by_cases hyx : lt' y x = true
      · rw [if_pos hyx, if_pos hyx, map_cons, ih']
      · rw [if_neg hyx, if_neg hyx]; rfl

theorem mem_insert {x y : α} {l : List α} (h : y ∈ insert lt x l) : y = x ∨ y ∈ l := by
  induction l with
  | nil => exact .inl (mem_singleton.mp h)
  | cons z l ih =>
    simp only [insert] at h
    grind

/-- An element that compares with every element present is added, once. -/
theorem insert_perm {x : α} {l : List α} (h : ∀ y ∈ l, lt x y = true ∨ lt y x = true) :
    (insert lt x l).Perm (x :: l) := by
  induction l with
  | nil => exact List.Perm.refl _
  | cons y ys ih =>
    have ih' := ih (fun z hz => h z (mem_cons_of_mem y hz))
    simp only [insert]
    by_cases hxy : lt x y = true
    · rw [if_pos hxy]
    · rw [if_neg hxy]
      rcases h y (mem_cons_self) with hlt | hgt
      · exact absurd hlt hxy
      · rw [if_pos hgt]
        exact (ih'.cons y).trans (List.Perm.swap x y ys)

/-- Sets of positions: entries are ordered by their first component. -/
def keyLt (x y : ℕ × β) : Bool := decide (x.1 < y.1)

/-- Insertion keeps a list of positions strictly increasing. -/
theorem insert_keyLt_pairwise (hs : l.Pairwise fun a b => a.1 < b.1) (hx : ∀ y ∈ l, x.1 ≠ y.1) :
    (insert keyLt x l).Pairwise fun a b => a.1 < b.1 := by
  induction l with
  | nil => exact pairwise_singleton _ _
  | cons y ys ih =>
    obtain ⟨hy, hys⟩ := pairwise_cons.mp hs
    have hxy := hx y (mem_cons_self)
    simp only [insert, keyLt, decide_eq_true_eq]
    by_cases hlt : x.1 < y.1
    · rw [if_pos hlt]
      refine pairwise_cons.mpr ⟨?_, hs⟩
      intro z hz
      rcases mem_cons.mp hz with rfl | hz'
      · exact hlt
      · exact Nat.lt_trans hlt (hy z hz')
    · have hgt : y.1 < x.1 := Nat.lt_of_le_of_ne (Nat.not_lt.mp hlt) (Ne.symm hxy)
      rw [if_neg hlt, if_pos hgt]
      have hne : ∀ z ∈ ys, x.1 ≠ z.1 := fun z hz => hx z (mem_cons_of_mem y hz)
      refine pairwise_cons.mpr ⟨?_, ih hys hne⟩
      intro z hz
      have hperm : (insert keyLt x ys).Perm (x :: ys) := by
        refine insert_perm fun u hu => ?_
        simp only [keyLt, decide_eq_true_eq]
        exact Nat.lt_or_gt_of_ne (hne u hu)
      rcases mem_cons.mp (hperm.subset hz) with rfl | hz'
      · exact hgt
      · exact hy z hz'

/-- Insertion of a fresh position adds exactly that entry. -/
theorem insert_keyLt_perm (hx : ∀ y ∈ l, x.1 ≠ y.1) : (insert keyLt x l).Perm (x :: l) := by
  refine insert_perm fun y hy => ?_
  simp only [keyLt, decide_eq_true_eq]
  exact Nat.lt_or_gt_of_ne (hx y hy)

end OrderedSet
