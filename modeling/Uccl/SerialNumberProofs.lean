import Mathlib.Data.BitVec
import Mathlib.Tactic.Ring

/-! # Serial numbers — counters seen through their low bits

    A protocol counts in `ℕ` and transmits only the low `w` bits. Two such serial numbers are compared by the
    SIGN of their difference, so the comparison means "before" only while the two counters stay less than half
    the number space apart.

    The lemmas below are the only way the development crosses between a counter and its serial number:
    equality and order of `ofNat a` and `ofNat b` are read off `a` and `b` under an explicit window bound. -/

namespace SerialNumber

open Nat BitVec

variable {w : ℕ}

/-- `a` comes before `b`: the signed difference is negative. -/
def serialLt (a b : BitVec w) : Bool := decide ((a - b).toInt < 0)

/-- `a` comes after `b`: the signed difference is positive. -/
def serialGt (a b : BitVec w) : Bool := decide (0 < (a - b).toInt)

/-- The sign of a `w + 1`-bit difference is its top bit. -/
theorem serialLt_iff (a b : BitVec (w + 1)) : serialLt a b = true ↔ 2 ^ w ≤ (a - b).toNat := by
  unfold serialLt
  rw [decide_eq_true_iff, toInt_eq_toNat_cond]
  split
  · constructor
    · intro h; omega
    · intro h; omega
  · constructor
    · intro _; omega
    · intro _; omega

theorem serialGt_iff (a b : BitVec (w + 1)) : serialGt a b = true ↔ 0 < (a - b).toNat ∧ (a - b).toNat < 2 ^ w := by
  unfold serialGt
  rw [decide_eq_true_iff, toInt_eq_toNat_cond]
  split
  · constructor
    · intro h; omega
    · intro h; omega
  · constructor
    · intro h; omega
    · intro h; omega

section

variable {a b : ℕ}

/-- The distance of two counters survives truncation while it fits. -/
theorem toNat_ofNat_sub (hle : b ≤ a) (hlt : a < b + 2 ^ w) : (BitVec.ofNat w a - BitVec.ofNat w b).toNat = a - b := by
  obtain ⟨d, rfl⟩ : ∃ d, a = b + d := ⟨a - b, by omega⟩
  have hd : d < 2 ^ w := by omega
  rw [ofNat_add, add_sub_cancel_left, toNat_ofNat, mod_eq_of_lt hd]
  omega

/-- The distance from a counter back to an earlier one wraps around. -/
theorem toNat_ofNat_sub_of_gt (hlt : a < b) (hle : b ≤ a + 2 ^ w) :
    (BitVec.ofNat w a - BitVec.ofNat w b).toNat = (2 ^ w - (b - a)) % 2 ^ w := by
  obtain ⟨d, rfl⟩ : ∃ d, b = a + d := ⟨b - a, by omega⟩
  have hneg : BitVec.ofNat w a - BitVec.ofNat w (a + d) = BitVec.ofNat w (2 ^ w - d) := by
    rw [sub_eq_iff_eq_add, ← ofNat_add]
    apply eq_of_toNat_eq
    rw [toNat_ofNat, toNat_ofNat]
    rw [show 2 ^ w - d + (a + d) = a + 2 ^ w by omega, add_mod_right]
  rw [hneg, toNat_ofNat]
  rw [show a + d - a = d by omega]

/-- Within the number space, equal serial numbers are equal counters. -/
theorem ofNat_eq_iff (hab : a < b + 2 ^ w) (hba : b < a + 2 ^ w) : BitVec.ofNat w a = BitVec.ofNat w b ↔ a = b := by
  constructor
  · intro h
    have h' := congrArg BitVec.toNat h
    rcases Nat.lt_or_ge a b with hlt | hge
    · have hm : b - a ≡ 0 [MOD 2 ^ w] :=
        (modEq_iff_dvd' (Nat.zero_le _)).mpr (by simpa using (modEq_iff_dvd' hlt.le).mp h') |>.symm
      have hz : (b - a) % 2 ^ w = 0 := hm
      rw [mod_eq_of_lt (by omega)] at hz
      omega
    · have hm : a - b ≡ 0 [MOD 2 ^ w] :=
        (modEq_iff_dvd' (Nat.zero_le _)).mpr (by simpa using (modEq_iff_dvd' hge).mp h'.symm) |>.symm
      have hz : (a - b) % 2 ^ w = 0 := hm
      rw [mod_eq_of_lt (by omega)] at hz
      omega
  · intro h; rw [h]

/-- **ORDER, FORWARD**: a counter that is behind by at most half the number space compares as before. -/
theorem serialLt_ofNat_of_lt (hlt : a < b) (hwin : b ≤ a + 2 ^ w) :
    serialLt (BitVec.ofNat (w + 1) a) (BitVec.ofNat (w + 1) b) = true := by
  rw [serialLt_iff, toNat_ofNat_sub_of_gt hlt (by omega), mod_eq_of_lt (by omega)]
  omega

/-- **ORDER, BACKWARD**: a counter that is level or ahead by less than half the
    number space does not compare as before. -/
theorem serialLt_ofNat_of_le (hle : b ≤ a) (hwin : a < b + 2 ^ w) :
    serialLt (BitVec.ofNat (w + 1) a) (BitVec.ofNat (w + 1) b) = false := by
  rw [← Bool.not_eq_true, serialLt_iff, toNat_ofNat_sub hle (by omega)]
  omega

/-- Offsets below half the number space from a common base compare as the offsets do. -/
theorem serialLt_add_offsets (base : BitVec (w + 1)) (ha : a < 2 ^ w) (hb : b < 2 ^ w) :
    serialLt (base + BitVec.ofNat (w + 1) a) (base + BitVec.ofNat (w + 1) b) = decide (a < b) := by
  have hdiff : serialLt (base + BitVec.ofNat (w + 1) a) (base + BitVec.ofNat (w + 1) b)
      = serialLt (BitVec.ofNat (w + 1) a) (BitVec.ofNat (w + 1) b) := by
    unfold serialLt
    rw [add_sub_add_left_eq_sub]
  rw [hdiff]
  by_cases hab : a < b
  · rw [serialLt_ofNat_of_lt hab (by omega), decide_eq_true hab]
  · rw [serialLt_ofNat_of_le (Nat.not_lt.mp hab) (by omega), decide_eq_false hab]

/-- Strictly ahead by less than half the number space compares as after. -/
theorem serialGt_ofNat_of_lt (hlt : b < a) (hwin : a < b + 2 ^ w) :
    serialGt (BitVec.ofNat (w + 1) a) (BitVec.ofNat (w + 1) b) = true := by
  rw [serialGt_iff, toNat_ofNat_sub hlt.le (by omega)]
  omega

/-- Level or behind by at most half the number space does not compare as after. -/
theorem serialGt_ofNat_of_le (hle : a ≤ b) (hwin : b ≤ a + 2 ^ w) :
    serialGt (BitVec.ofNat (w + 1) a) (BitVec.ofNat (w + 1) b) = false := by
  have hpos : 0 < 2 ^ w := Nat.two_pow_pos w
  rw [← Bool.not_eq_true, serialGt_iff]
  rcases Nat.lt_or_ge a b with hlt | hge
  · rw [toNat_ofNat_sub_of_gt hlt (by omega), mod_eq_of_lt (by omega)]
    omega
  · rw [toNat_ofNat_sub hge (by omega)]
    omega

end

end SerialNumber
