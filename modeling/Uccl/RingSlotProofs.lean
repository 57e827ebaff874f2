import Mathlib.Data.Nat.ModEq

/-! # Slots of a ring

    A ring of `size` slots is addressed by counters that only grow: the slot of a counter is its remainder.
    Two counters that share a slot are whole laps apart, so within one lap a slot has one counter. -/

namespace RingSlot

variable {size a b : ℕ}

/-- A later counter with the same slot is at least a lap ahead. -/
theorem lap_le (hslot : a % size = b % size) (hlt : a < b) : a + size ≤ b := by
  have hdvd : size ∣ b - a := (Nat.modEq_iff_dvd' (Nat.le_of_lt hlt)).mp hslot
  have hle := Nat.le_of_dvd (by omega) hdvd
  omega

/-- Within a lap, the slot determines the counter. -/
theorem eq_of_slot (hslot : a % size = b % size) (hab : a < b + size) (hba : b < a + size) : a = b := by
  rcases Nat.lt_trichotomy a b with hlt | heq | hgt
  · have hlap := lap_le hslot hlt
    omega
  · exact heq
  · have hlap := lap_le hslot.symm hgt
    omega

theorem slot_ne (hne : a ≠ b) (hab : a < b + size) (hba : b < a + size) : a % size ≠ b % size :=
  fun hslot => hne (eq_of_slot hslot hab hba)

end RingSlot
