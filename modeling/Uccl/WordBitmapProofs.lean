import Mathlib.Data.BitVec
import Mathlib.Order.Interval.Finset.Nat
import Mathlib.Tactic.Ring

/-! # Bitmaps stored in several machine words

    A bitmap of `w * n` bits lives in `n` words of `w` bits: bit `i` is bit `i % w` of word `i / w`. Three
    operations suffice for a sliding window of received items: test a bit, set a bit, and drop bit `0` by
    shifting every word right by one, each word taking the low bit of its successor.

    `testBit_shiftDown` is the fact that makes the multi-word shift safe: it drops exactly one position,
    ACROSS word boundaries too. -/

namespace WordBitmap

open Finset

variable {w n : ℕ}

/-- `n` words of `w` bits. -/
abbrev Bitmap (w n : ℕ) := Vector (BitVec w) n

/-- The word at position `k`, zero past the end. -/
def word (b : Bitmap w n) (k : ℕ) : BitVec w := if h : k < n then b[k] else 0

/-- Bit `i`, tested with a one-bit mask. -/
def testBit (b : Bitmap w n) (i : ℕ) : Bool :=
  (word b (i / w) &&& (1#w <<< (i % w))) != 0

/-- Set bit `i`; an index past the end changes nothing. -/
def setBit (b : Bitmap w n) (i : ℕ) : Bitmap w n :=
  if h : i / w < n then b.set (i / w) (b[i / w] ||| (1#w <<< (i % w))) else b

/-- Drop bit `0`: every word moves down by one and takes the low bit of the next word as its top bit. -/
def shiftDown (b : Bitmap w n) : Bitmap w n :=
  Vector.ofFn fun k =>
    if k.val + 1 < n then (b[k] >>> 1) ||| (word b (k.val + 1) <<< (w - 1))
    else b[k] >>> 1

/-- The empty bitmap. -/
def empty : Bitmap w n := Vector.replicate n 0

/-- How many bits are set. -/
def popCount (b : Bitmap w n) : ℕ :=
  ((Finset.range (w * n)).filter fun i => testBit b i = true).card

-- ── Reading a word

section

variable (b : Bitmap w n) {l : List ℕ} {k i : ℕ}

theorem word_of_lt (h : k < n) : word b k = b[k] := dif_pos h

theorem word_of_ge (h : n ≤ k) : word b k = 0 := dif_neg (Nat.not_lt.mpr h)

/-- The masked test reads the bit. -/
theorem testBit_eq (hw : 0 < w) (b : Bitmap w n) (i : ℕ) : testBit b i = (word b (i / w)).getLsbD (i % w) := by
  have hlt : i % w < w := Nat.mod_lt i hw
  unfold testBit
  generalize word b (i / w) = x
  have hmask : ∀ j, j < w → (x &&& (1#w <<< (i % w))).getLsbD j = (x.getLsbD j && decide (j = i % w)) := by
    intro j hj
    rw [BitVec.getLsbD_and, BitVec.getLsbD_shiftLeft, BitVec.getLsbD_one]
    by_cases hji : j = i % w
    · subst hji
      simp [hj, hw]
    · have : (!decide (j < i % w) && (decide (0 < w) && decide (j - i % w = 0))) = false := by
        by_cases hlt' : j < i % w
        · simp [hlt']
        · have : j - i % w ≠ 0 := by omega
          simp [this]
      simp only [hj, decide_true, Bool.true_and, this, hji, decide_false]
  cases hx : x.getLsbD (i % w) with
  | true =>
    rw [bne_iff_ne]
    intro h0
    have h1 := hmask (i % w) hlt
    rw [h0, hx] at h1
    simp at h1
  | false =>
    rw [bne_eq_false_iff_eq]
    apply BitVec.eq_of_getLsbD_eq
    intro j hj
    rw [hmask j hj]
    by_cases hji : j = i % w
    · subst hji; rw [hx]; simp
    · simp [hji]

/-- Bits past the end read as clear. -/
theorem testBit_of_ge (hw : 0 < w) (b : Bitmap w n) (h : w * n ≤ i) : testBit b i = false := by
  rw [testBit_eq hw, word_of_ge b ((Nat.le_div_iff_mul_le hw).mpr (by rw [mul_comm]; exact h))]
  simp

theorem lt_of_testBit (hw : 0 < w) {b : Bitmap w n} (h : testBit b i = true) : i < w * n := by
  by_contra hge
  rw [testBit_of_ge hw b (Nat.not_lt.mp hge)] at h
  cases h

theorem testBit_empty (hw : 0 < w) (i : ℕ) : testBit (empty : Bitmap w n) i = false := by
  rw [testBit_eq hw]
  unfold word empty
  split <;> simp

-- ── Setting a bit

theorem word_setBit (i k : ℕ) : word (setBit b i) k
      = if k = i / w ∧ k < n then word b k ||| (1#w <<< (i % w)) else word b k := by
  unfold setBit
  by_cases hi : i / w < n
  · rw [dif_pos hi]
    by_cases hk : k < n
    · rw [word_of_lt _ hk, word_of_lt _ hk, Vector.getElem_set]
      by_cases hki : i / w = k
      · subst hki; simp [hk]
      · have : ¬ (k = i / w ∧ k < n) := fun h => hki h.1.symm
        rw [if_neg hki, if_neg this]
    · rw [word_of_ge _ (Nat.not_lt.mp hk), word_of_ge _ (Nat.not_lt.mp hk), if_neg (fun h => hk h.2)]
  · rw [dif_neg hi, if_neg]
    rintro ⟨rfl, hk⟩
    exact hi hk

/-- Setting a bit changes that bit and no other. -/
theorem testBit_setBit (hw : 0 < w) (b : Bitmap w n) (hi : i < w * n)
    (j : ℕ) : testBit (setBit b i) j = (testBit b j || decide (j = i)) := by
  have hin : i / w < n := Nat.div_lt_of_lt_mul hi
  rw [testBit_eq hw, testBit_eq hw, word_setBit]
  by_cases hk : j / w = i / w
  · rw [if_pos ⟨hk, by rw [hk]; exact hin⟩, BitVec.getLsbD_or, BitVec.getLsbD_shiftLeft, BitVec.getLsbD_one]
    have hj : j % w < w := Nat.mod_lt j hw
    by_cases hm : j % w = i % w
    · have hji : j = i := by
        rw [← Nat.div_add_mod j w, ← Nat.div_add_mod i w, hk, hm]
      subst hji
      simp [hj, hw]
    · have hji : ¬ j = i := fun h => hm (by rw [h])
      have hsub : ¬ (¬ j % w < i % w ∧ j % w - i % w = 0) := by omega
      by_cases hlt : j % w < i % w
      · simp [hlt, hji]
      · have : j % w - i % w ≠ 0 := fun h => hsub ⟨hlt, h⟩
        simp [this, hji]
  · have hji : ¬ j = i := fun h => hk (by rw [h])
    rw [if_neg (fun h => hk h.1)]
    simp [hji]

-- ── Dropping bit 0

theorem word_shiftDown (hk : k < n) : word (shiftDown b) k
      = (word b k >>> 1) ||| (word b (k + 1) <<< (w - 1)) := by
  rw [word_of_lt _ hk, word_of_lt _ hk]
  show (Vector.ofFn _)[k] = _
  rw [Vector.getElem_ofFn]
  by_cases hk1 : k + 1 < n
  · rw [if_pos hk1]; rfl
  · rw [word_of_ge b (Nat.not_lt.mp hk1)]
    simp

/-- **THE WINDOW SLIDES BY ONE**: after the shift, bit `i` is what bit `i + 1` was. -/
theorem testBit_shiftDown (hw : 0 < w) (b : Bitmap w n)
    (hi : i < w * n) : testBit (shiftDown b) i = testBit b (i + 1) := by
  have hin : i / w < n := Nat.div_lt_of_lt_mul hi
  have hm : i % w < w := Nat.mod_lt i hw
  rw [testBit_eq hw, testBit_eq hw, word_shiftDown b hin, BitVec.getLsbD_or,
    BitVec.getLsbD_ushiftRight, BitVec.getLsbD_shiftLeft]
  by_cases hedge : i % w + 1 = w
  · -- the top bit of a word: its successor is bit 0 of the next word
    have hdiv : (i + 1) / w = i / w + 1 := by
      rw [Nat.div_eq_of_lt_le]
      · have := Nat.div_add_mod i w; rw [Nat.add_mul, mul_comm]; omega
      · have := Nat.div_add_mod i w; rw [Nat.add_mul, Nat.add_mul, mul_comm]; omega
    have hmod : (i + 1) % w = 0 := by
      have h1 := Nat.div_add_mod i w
      have h2 := Nat.div_add_mod (i + 1) w
      rw [hdiv, Nat.mul_add] at h2
      omega
    rw [hdiv, hmod]
    have hhigh : (word b (i / w)).getLsbD (1 + i % w) = false := BitVec.getLsbD_of_ge _ _ (by omega)
    have hnot : ¬ i % w < w - 1 := by omega
    rw [hhigh, show i % w - (w - 1) = 0 by omega]
    simp [hm, hnot]
  · have hdiv : (i + 1) / w = i / w := by
      rw [Nat.div_eq_of_lt_le]
      · have := Nat.div_add_mod i w; rw [mul_comm]; omega
      · have := Nat.div_add_mod i w; rw [Nat.add_mul, mul_comm]; omega
    have hmod : (i + 1) % w = i % w + 1 := by
      have h1 := Nat.div_add_mod i w
      have h2 := Nat.div_add_mod (i + 1) w
      rw [hdiv] at h2
      omega
    rw [hdiv, hmod, add_comm 1]
    have hbelow : i % w < w - 1 := by omega
    simp [hbelow]

-- ── Counting

theorem popCount_empty (hw : 0 < w) : popCount (empty : Bitmap w n) = 0 := by
  unfold popCount
  rw [card_eq_zero, filter_eq_empty_iff]
  intro i _
  rw [testBit_empty hw]
  exact Bool.false_ne_true

/-- A bitmap whose set bits are listed without repetition has as many set bits as the list has entries. -/
theorem popCount_eq_length (hnd : l.Nodup) (hl : ∀ i, i ∈ l ↔ i < w * n ∧ testBit b i = true) :
    popCount b = l.length := by
  rw [← List.toFinset_card_of_nodup hnd]
  unfold popCount
  congr 1
  ext i
  rw [mem_filter, mem_range, List.mem_toFinset, hl]

/-- How many bits are set from position `i` on. -/
def popCountFrom (b : Bitmap w n) (i : ℕ) : ℕ :=
  ((Finset.Ico i (w * n)).filter fun j => testBit b j = true).card

theorem popCountFrom_zero : popCountFrom b 0 = popCount b := by
  unfold popCountFrom popCount
  rw [range_eq_Ico]

theorem Ico_eq_insert {m : ℕ} (hi : i < m) : Finset.Ico i m = insert i (Finset.Ico (i + 1) m) := by
  ext j
  rw [mem_insert, mem_Ico, mem_Ico]
  omega

/-- Passing a set bit leaves one less. -/
theorem popCountFrom_of_set {b : Bitmap w n} (hi : i < w * n)
    (h : testBit b i = true) : popCountFrom b i = popCountFrom b (i + 1) + 1 := by
  unfold popCountFrom
  rw [Ico_eq_insert hi, filter_insert, if_pos h]
  simp

/-- Passing a clear bit leaves as many. -/
theorem popCountFrom_of_clear {b : Bitmap w n} (hi : i < w * n)
    (h : testBit b i = false) : popCountFrom b i = popCountFrom b (i + 1) := by
  unfold popCountFrom
  rw [Ico_eq_insert hi, filter_insert, if_neg]
  rw [h]
  exact Bool.false_ne_true

/-- Some are left exactly when there is a set bit ahead. -/
theorem popCountFrom_pos_iff {b : Bitmap w n} : 0 < popCountFrom b i ↔ ∃ j, i ≤ j ∧ j < w * n ∧ testBit b j = true := by
  unfold popCountFrom
  rw [card_pos]
  refine exists_congr fun j => ?_
  rw [mem_filter, mem_Ico, and_assoc]

theorem popCount_le : popCount b ≤ w * n := by
  exact (card_filter_le _ _).trans (card_range _).le

-- ── Rewriting a word

/-- Apply `f` to word `k`; a position past the end changes nothing. -/
def mapWord (b : Bitmap w n) (k : ℕ) (f : BitVec w → BitVec w) : Bitmap w n :=
  if h : k < n then b.set k (f b[k]) else b

/-- Clear the bits of `mask` in word `k`. -/
def clearIn (b : Bitmap w n) (k : ℕ) (mask : BitVec w) : Bitmap w n :=
  mapWord b k fun x => x &&& ~~~mask

def zeroWord (b : Bitmap w n) (k : ℕ) : Bitmap w n := mapWord b k fun _ => 0

theorem word_mapWord (k : ℕ) (f : BitVec w → BitVec w) (j : ℕ) :
    word (mapWord b k f) j = if j = k ∧ j < n then f (word b j) else word b j := by
  unfold mapWord
  by_cases hk : k < n
  · rw [dif_pos hk]
    by_cases hj : j < n
    · rw [word_of_lt _ hj, word_of_lt _ hj, Vector.getElem_set]
      by_cases hkj : k = j
      · subst hkj
        rw [if_pos rfl, if_pos ⟨rfl, hk⟩]
      · rw [if_neg hkj, if_neg fun h => hkj h.1.symm]
    · rw [word_of_ge _ (Nat.not_lt.mp hj), word_of_ge _ (Nat.not_lt.mp hj), if_neg fun h => hj h.2]
  · rw [dif_neg hk, if_neg]
    rintro ⟨rfl, hj⟩
    exact hk hj

theorem testBit_clearIn (hw : 0 < w) (b : Bitmap w n) (k : ℕ) (mask : BitVec w) (j : ℕ) : testBit (clearIn b k mask) j
      = (testBit b j && !(decide (j / w = k) && mask.getLsbD (j % w))) := by
  have hmod : j % w < w := Nat.mod_lt j hw
  unfold clearIn
  rw [testBit_eq hw, testBit_eq hw, word_mapWord]
  by_cases hk : j / w = k
  · by_cases hn : j / w < n
    · rw [if_pos ⟨hk, hn⟩, BitVec.getLsbD_and, BitVec.getLsbD_not]
      simp only [hmod, hk, decide_true, Bool.true_and]
    · rw [word_of_ge b (Nat.not_lt.mp hn)]
      simp
  · rw [if_neg fun h => hk h.1]
    simp only [hk, decide_false, Bool.false_and, Bool.not_false, Bool.and_true]

theorem testBit_zeroWord (hw : 0 < w) (b : Bitmap w n) (k j : ℕ) :
    testBit (zeroWord b k) j = (testBit b j && !decide (j / w = k)) := by
  unfold zeroWord
  rw [testBit_eq hw, testBit_eq hw, word_mapWord]
  by_cases hk : j / w = k
  · by_cases hn : j / w < n
    · rw [if_pos ⟨hk, hn⟩]
      simp [hk]
    · rw [word_of_ge b (Nat.not_lt.mp hn)]
      simp
  · simp [hk]

end

end WordBitmap
