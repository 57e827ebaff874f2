import Mathlib.Algebra.Ring.Nat
import Mathlib.Algebra.BigOperators.Group.List.Basic

/-! # A range cut into consecutive pieces

    A transfer of a range is split into several commands or segments. `Tiles start len` says of a list of
    (address, length) that the pieces follow each other without a gap from `start` on and add up to `len`.

    `cut c` is the loop that most splitters are: pieces of `c`, and what is left at the end. -/

namespace Tiling

open List Nat

/-- The pieces follow each other from `start` on and add up to `len`. -/
def Tiles : ℕ → ℕ → List (ℕ × ℕ) → Prop
  | _, len, [] => len = 0
  | start, len, piece :: rest =>
    piece.1 = start ∧ piece.2 ≤ len ∧ Tiles (start + piece.2) (len - piece.2) rest

section

variable {P : Type} {start len : ℕ} {l : List (ℕ × ℕ)}

/-- The lengths add up. -/
theorem Tiles.sum_eq (h : Tiles start len l) : (l.map Prod.snd).sum = len := by
  induction l generalizing start len with
  | nil => exact h.symm
  | cons piece rest ih =>
    obtain ⟨-, hle, hrest⟩ := h
    rw [map_cons, sum_cons, ih hrest]
    omega

/-- Every position of the range is in a piece. -/
theorem Tiles.exists_mem (h : Tiles start len l) {k : ℕ}
    (hk : k < len) : ∃ p ∈ l, p.1 ≤ start + k ∧ start + k < p.1 + p.2 := by
  induction l generalizing start len k with
  | nil =>
    have hlen : len = 0 := h
    omega
  | cons piece rest ih =>
    obtain ⟨hstart, hle, hrest⟩ := h
    by_cases hfirst : k < piece.2
    · exact ⟨piece, mem_cons_self, by omega, by omega⟩
    · obtain ⟨p, hp, hge, hlt⟩ := ih hrest (show k - piece.2 < len - piece.2 by omega)
      exact ⟨p, mem_cons_of_mem _ hp, by omega, by omega⟩

/-- The same pieces in a range `k` times as long. -/
theorem Tiles.scale (h : Tiles start len l) (k : ℕ) :
    Tiles (start * k) (len * k) (l.map fun p => (p.1 * k, p.2 * k)) := by
  induction l generalizing start len with
  | nil =>
    have hlen : len = 0 := h
    rw [hlen]
    exact Nat.zero_mul k
  | cons piece rest ih =>
    obtain ⟨hstart, hle, hrest⟩ := h
    refine ⟨congrArg (· * k) hstart, Nat.mul_le_mul_right k hle, ?_⟩
    rw [← Nat.add_mul, ← Nat.sub_mul]
    exact ih hrest

/-- Pieces of the same lengths tile another range exactly when each has moved as far as the range. -/
theorem tiles_iff_moved {len : ℕ} {a f n : P → ℕ} (r : ℕ) {start : ℕ} {l : List P}
    (h : Tiles start len (l.map fun p => (a p, n p))) :
    Tiles (r + start) len (l.map fun p => (f p, n p)) ↔ ∀ p ∈ l, f p = r + a p := by
  induction l generalizing start len with
  | nil => exact ⟨fun _ p hp => absurd hp not_mem_nil, fun _ => h⟩
  | cons p rest ih =>
    obtain ⟨hstart, hle, hrest⟩ := h
    have hstart : a p = start := hstart
    have hgoal := ih hrest
    rw [← Nat.add_assoc] at hgoal
    rw [map_cons, forall_mem_cons, ← hgoal, hstart]
    exact ⟨fun hall => ⟨hall.1, hall.2.2⟩, fun hall => ⟨hall.1, hle, hall.2⟩⟩

end

-- ── Pieces of one size

/-- `for (i = first; i < n; i += c)`: a piece of `c` at `i`, or what is left. The fuel bounds the number of pieces. -/
def cut (c n : ℕ) : ℕ → ℕ → List (ℕ × ℕ)
  | 0, _ => []
  | fuel + 1, first =>
    if first < n then (first, min c (n - first)) :: cut c n fuel (first + c) else []

variable {c n fuel first : ℕ}

theorem cut_of_lt (h : first < n) : cut c n (fuel + 1) first = (first, min c (n - first)) :: cut c n fuel (first + c) :=
  if_pos h

theorem cut_of_le (h : n ≤ first) : cut c n fuel first = [] := by
  cases fuel with
  | zero => rfl
  | succ fuel => exact if_neg (by omega)

/-- The pieces tile what is left. -/
theorem tiles_cut (hc : 0 < c) (hfuel : n - first ≤ fuel) : Tiles first (n - first) (cut c n fuel first) := by
  induction fuel generalizing first with
  | zero =>
    show n - first = 0
    omega
  | succ fuel ih =>
    by_cases h : first < n
    · rw [cut_of_lt h]
      refine ⟨rfl, Nat.min_le_right .., ?_⟩
      rcases Nat.le_total c (n - first) with hle | hle
      · have hsub : n - first - c = n - (first + c) := by omega
        rw [Nat.min_eq_left hle, hsub]
        exact ih (by omega)
      · rw [Nat.min_eq_right hle, Nat.sub_self, cut_of_le (by omega)]
        rfl
    · rw [cut_of_le (by omega)]
      show n - first = 0
      omega

/-- Where the last piece starts, if anything is left. -/
def lastStart (c n first : ℕ) : ℕ := first + (n - first - 1) / c * c

theorem lastStart_of_lt (hc : 0 < c) (h : first + c < n) : lastStart c n (first + c) = lastStart c n first := by
  unfold lastStart
  have hsplit : n - first - 1 = n - (first + c) - 1 + c := by omega
  rw [hsplit, add_div_right _ hc, succ_mul]
  omega

theorem lastStart_of_ge (h : n ≤ first + c) (hlt : first < n) : lastStart c n first = first := by
  unfold lastStart
  rw [div_eq_of_lt (by omega)]
  omega

/-- No piece is longer than `c` or than what is left, and none starts behind the last one. -/
theorem le_of_mem_cut (hc : 0 < c) {p : ℕ × ℕ} (hp : p ∈ cut c n fuel first) :
    p.1 ≤ lastStart c n first ∧ p.2 ≤ min c (n - first) ∧ p.1 + p.2 ≤ n := by
  induction fuel generalizing first with
  | zero => exact absurd hp not_mem_nil
  | succ fuel ih =>
    by_cases h : first < n
    · rw [cut_of_lt h] at hp
      rcases mem_cons.mp hp with rfl | hrest
      · have hle : first ≤ lastStart c n first := Nat.le_add_right ..
        refine ⟨hle, le_rfl, ?_⟩
        omega
      · obtain ⟨h1, h2, h3⟩ := ih hrest
        by_cases hmore : first + c < n
        · rw [lastStart_of_lt hc hmore] at h1
          exact ⟨h1, by omega, h3⟩
        · rw [cut_of_le (by omega)] at hrest
          exact absurd hrest not_mem_nil
    · rw [cut_of_le (by omega)] at hp
      exact absurd hp not_mem_nil

/-- Something is left: the first piece and the last one are there. -/
theorem head_mem_cut (h : first < n) (hfuel : 0 < fuel) : (first, min c (n - first)) ∈ cut c n fuel first := by
  obtain ⟨fuel, rfl⟩ := exists_eq_succ_of_ne_zero (Nat.pos_iff_ne_zero.mp hfuel)
  rw [cut_of_lt h]
  exact mem_cons_self

theorem last_mem_cut (hc : 0 < c) (h : first < n) (hfuel : n - first ≤ fuel) :
    ∃ k, (lastStart c n first, k) ∈ cut c n fuel first := by
  induction fuel generalizing first with
  | zero => omega
  | succ fuel ih =>
    rw [cut_of_lt h]
    by_cases hmore : first + c < n
    · obtain ⟨k, hk⟩ := ih hmore (by omega)
      rw [lastStart_of_lt hc hmore] at hk
      exact ⟨k, mem_cons_of_mem _ hk⟩
    · rw [lastStart_of_ge (by omega) h]
      exact ⟨_, mem_cons_self⟩

/-- Pieces of `c` bytes from the `j`-th on, the last of which may be shorter. -/
theorem tiles_map_range' {size c k j : ℕ} (hend : size ≤ (j + k) * c) (hlast : k ≠ 0 → (j + k - 1) * c < size) :
    Tiles (j * c) (size - j * c) ((List.range' j k).map fun i => (i * c, min c (size - i * c))) := by
  induction k generalizing j with
  | zero =>
    exact Nat.sub_eq_zero_of_le hend
  | succ k ih =>
    have hnext : (j + 1) * c = j * c + c := succ_mul j c
    refine ⟨rfl, Nat.min_le_right .., ?_⟩
    rw [show j + (k + 1) = j + 1 + k by omega] at hend hlast
    have hrest := ih hend fun _ => hlast (succ_ne_zero k)
    show Tiles (j * c + min c (size - j * c)) (size - j * c - min c (size - j * c)) _
    cases k with
    | zero =>
      show size - j * c - min c (size - j * c) = 0
      rw [Nat.add_zero] at hend
      omega
    | succ k =>
      have hmore := Nat.mul_le_mul_right c (show j + 1 ≤ j + 1 + (k + 1) - 1 by omega)
      rw [Nat.min_eq_left (by omega), Nat.sub_sub, ← hnext]
      exact hrest

end Tiling
