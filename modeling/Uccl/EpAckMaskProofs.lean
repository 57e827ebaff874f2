import Uccl.WordBitmapProofs

/-! # Retiring commands by their acknowledgements

    The ring-buffer backend retires commands out of order: a completion marks the slot of its command in `ack_mask`, and
    `advance_tail_from_mask` moves the tail over the slots that are marked, clearing their marks. The mask is scanned
    word by word, first from the tail to the end of the ring and then, if everything there is marked, from slot 0.

    `Next` and `Run` say what the scan should find and how far the tail should move; the lemmas about words stand below
    them. -/

namespace EpAckMask

open WordBitmap Nat

-- ── The mask

/-- `kNumWords`. -/
def numWords (cap : ℕ) : ℕ := (cap + 63) / 64

abbrev Mask (cap : ℕ) := Bitmap 64 (numWords cap)

variable {cap : ℕ}

/-- The lowest `span` bits: `(span == 64) ? ~0ull : ((1ull << span) - 1)`. -/
def rangeMask (span : ℕ) : BitVec 64 :=
  if span = 64 then BitVec.allOnes 64 else (1#64 <<< span) - 1#64

def markAcked (m : Mask cap) (idx : ℕ) : Mask cap := setBit m idx

/-- The scan of the words from `word` on; `fuel` is the number of words left. -/
def scanWords (m : Mask cap) : ℕ → ℕ → ℕ
  | 0, _ => cap
  | fuel + 1, k =>
    let base := k * 64
    let valid := if base < cap then min 64 (cap - base) else 0
    if valid = 0 then cap
    else
      let blk := word m k &&& rangeMask valid
      if blk ≠ rangeMask valid then base + (~~~blk &&& rangeMask valid).ctz.toNat
      else scanWords m fuel (k + 1)

/-- `next_unacked`: the first slot from `start` on that is not marked. -/
def nextUnacked (m : Mask cap) (start : ℕ) : ℕ :=
  if cap ≤ start then cap
  else
    let bit := start % 64
    let remaining := cap - start
    let span := if remaining < 64 - bit then remaining else 64 - bit
    let slice := (word m (start / 64) >>> bit) &&& rangeMask span
    let inv := ~~~slice &&& rangeMask span
    if inv ≠ 0 then start + inv.ctz.toNat
    else scanWords m (numWords cap - (start / 64 + 1)) (start / 64 + 1)

/-- `for (w = start_word; w < end_word; ++w) ack_mask[w] = 0`. -/
def zeroWords (m : Mask cap) : ℕ → ℕ → Mask cap
  | 0, _ => m
  | n + 1, k => zeroWords (zeroWord m k) n (k + 1)

/-- The end of a range that covers several words. -/
def clearLast (m : Mask cap) (stop : ℕ) : Mask cap :=
  if stop % 64 ≠ 0 then clearIn m ((stop - 1) / 64) (BitVec.allOnes 64 >>> (64 - stop % 64))
  else zeroWord m ((stop - 1) / 64)

/-- `clear_acked_range`; the caller's range lies inside the ring. -/
def clearAckedRange (m : Mask cap) (start stop : ℕ) : Mask cap :=
  if stop ≤ start then m
  else if cap ≤ start then m
  else if start / 64 = (stop - 1) / 64 then
    clearIn m (start / 64) ((BitVec.allOnes 64 >>> (64 - (stop - start))) <<< (start % 64))
  else if start % 64 ≠ 0 then
    clearLast (zeroWords (clearIn m (start / 64) (BitVec.allOnes 64 <<< (start % 64)))
      ((stop - 1) / 64 - (start / 64 + 1)) (start / 64 + 1)) stop
  else clearLast (zeroWords m ((stop - 1) / 64 - start / 64) (start / 64)) stop

-- ── The ring

structure Ring (cap : ℕ) where
  tail : ℕ
  mask : Mask cap

/-- A 64-bit counter. -/
def u64 (n : ℕ) : ℕ := n % 2 ^ 64

/-- The second pass, from slot 0. -/
def wrapAround (r : Ring cap) (loc : ℕ) : Ring cap :=
  let wrap0 := nextUnacked r.mask 0
  if 0 < wrap0 ∧ wrap0 ≤ loc then ⟨u64 (r.tail + wrap0), clearAckedRange r.mask 0 wrap0⟩ else r

def advanceTailFromMask (r : Ring cap) : Ring cap :=
  let loc := r.tail % cap
  let next0 := nextUnacked r.mask loc
  if next0 = cap then
    if loc ≠ 0 then
      wrapAround ⟨u64 (r.tail + (cap - loc)), clearAckedRange r.mask loc cap⟩ loc
    else r
  else if loc < next0 then
    ⟨u64 (r.tail + (next0 - loc)), clearAckedRange r.mask loc next0⟩
  else r

/-- `notify_gpu_completion` for one ring: mark the acknowledged commands, then move the tail. -/
def notifyGpuCompletion (r : Ring cap) (ackedWrs : List ℕ) : Ring cap :=
  advanceTailFromMask ⟨r.tail, ackedWrs.foldl (fun m cmdIdx => markAcked m (cmdIdx % cap)) r.mask⟩

-- ── What the scan should find

/-- `r` is the first slot from `start` on that is not marked, or the end of the ring. -/
structure Next (m : Mask cap) (start r : ℕ) : Prop where
  ge : start ≤ r
  le : r ≤ cap
  marked : ∀ i, start ≤ i → i < r → testBit m i = true
  clear : r < cap → testBit m r = false

/-- The slot of the `j`-th outstanding command. -/
def slot (cap tail j : ℕ) : ℕ := (tail % cap + j) % cap

/-- Only slots of the `n` outstanding commands are marked. -/
def Outstanding (r : Ring cap) (n : ℕ) : Prop :=
  ∀ j < cap, testBit r.mask (slot cap r.tail j) = true → j < n

/-- The marked slots at the tail: `l` of them, and no more of the `n` outstanding ones. -/
structure Run (r : Ring cap) (n l : ℕ) : Prop where
  le : l ≤ n
  marked : ∀ j < l, testBit r.mask (slot cap r.tail j) = true
  stop : l < n → testBit r.mask (slot cap r.tail l) = false

/-- The tail moved over the marked slots at it, and their marks were cleared. -/
structure Advanced (r r' : Ring cap) (n : ℕ) : Prop where
  moved : ∃ l, Run r n l ∧ r'.tail = u64 (r.tail + l) ∧
    ∀ i < cap, testBit r'.mask i = true ↔ testBit r.mask i = true ∧ ∀ j < l, slot cap r.tail j ≠ i
  emptied : (∀ j < n, testBit r.mask (slot cap r.tail j) = true) → r'.tail = u64 (r.tail + n)

-- ── Words

section

variable (m : Mask cap) (k : ℕ) {span : ℕ}

section

variable (h : span ≤ 64) {x : BitVec 64}
include h

theorem getLsbD_rangeMask (i : ℕ) : (rangeMask span).getLsbD i = decide (i < span) := by
  unfold rangeMask
  by_cases hfull : span = 64
  · rw [if_pos hfull, hfull, BitVec.getLsbD_allOnes]
  · rw [if_neg hfull]
    have hpow : 2 ^ span < 2 ^ 64 := Nat.pow_lt_pow_right (by decide) (by omega)
    have hpos : 0 < 2 ^ span := Nat.two_pow_pos span
    have hval : ((1#64 <<< span) - 1#64).toNat = 2 ^ span - 1 := by
      rw [BitVec.toNat_sub, BitVec.toNat_shiftLeft, BitVec.toNat_ofNat,
        mod_eq_of_lt (by decide : 1 < 2 ^ 64), one_shiftLeft, mod_eq_of_lt hpow]
      omega
    rw [← BitVec.testBit_toNat, hval, testBit_two_pow_sub_one]

/-- The bits of a window that are not set. -/
theorem getLsbD_inv (x : BitVec 64) (i : ℕ) :
    (~~~(x &&& rangeMask span) &&& rangeMask span).getLsbD i = (decide (i < span) && !x.getLsbD i) := by
  rw [BitVec.getLsbD_and, BitVec.getLsbD_not, BitVec.getLsbD_and, getLsbD_rangeMask h]
  by_cases hi : i < span
  · have hlt : i < 64 := by omega
    simp only [hi, hlt, decide_true, Bool.and_true, Bool.true_and]
  · simp only [hi, decide_false, Bool.and_false, Bool.false_and]

/-- No bit of the window is clear. -/
theorem inv_eq_zero (hz : ~~~(x &&& rangeMask span) &&& rangeMask span = 0) {i : ℕ} (hi : i < span) :
    x.getLsbD i = true := by
  have hbit := getLsbD_inv h x i
  rw [hz] at hbit
  simpa [hi] using hbit

/-- Otherwise the count of trailing zeros is the first one that is. -/
theorem ctz_inv (hz : ~~~(x &&& rangeMask span) &&& rangeMask span ≠ 0) :
    (~~~(x &&& rangeMask span) &&& rangeMask span).ctz.toNat < span ∧
      x.getLsbD (~~~(x &&& rangeMask span) &&& rangeMask span).ctz.toNat = false ∧
      ∀ i < (~~~(x &&& rangeMask span) &&& rangeMask span).ctz.toNat, x.getLsbD i = true := by
  have hset := BitVec.getLsbD_true_ctz_of_ne_zero hz
  have hbelow : ∀ i < (~~~(x &&& rangeMask span) &&& rangeMask span).ctz.toNat,
      (~~~(x &&& rangeMask span) &&& rangeMask span).getLsbD i = false :=
    fun i hi => BitVec.getLsbD_false_of_lt_ctz hi
  generalize (~~~(x &&& rangeMask span) &&& rangeMask span).ctz.toNat = c at hset hbelow ⊢
  rw [getLsbD_inv h] at hset
  have hparts := (Bool.and_eq_true _ _).mp hset
  have hc : c < span := of_decide_eq_true hparts.1
  refine ⟨hc, by simpa using hparts.2, ?_⟩
  intro i hi
  have hbit := hbelow i hi
  rw [getLsbD_inv h] at hbit
  simpa [show i < span by omega] using hbit

/-- A masked block that is not full has a clear bit. -/
theorem blk_ne_iff (x : BitVec 64) : x &&& rangeMask span ≠ rangeMask span ↔
      ~~~(x &&& rangeMask span) &&& rangeMask span ≠ 0 := by
  rw [not_iff_not]
  constructor
  · intro heq
    rw [heq]
    apply BitVec.eq_of_getLsbD_eq
    intro i _
    cases (rangeMask span).getLsbD i <;> simp
  · intro hz
    apply BitVec.eq_of_getLsbD_eq
    intro i _
    rw [BitVec.getLsbD_and, getLsbD_rangeMask h]
    by_cases hi : i < span
    · rw [inv_eq_zero h hz hi, Bool.true_and]
    · simp [hi]

end

/-- A window of a word, as bits of the mask. -/
theorem window_bit {bit i : ℕ} (h : bit + i < 64) : (word m k >>> bit).getLsbD i = testBit m (k * 64 + bit + i) := by
  have hdiv : (k * 64 + bit + i) / 64 = k := by omega
  have hmod : (k * 64 + bit + i) % 64 = bit + i := by omega
  rw [testBit_eq (by decide), hdiv, hmod, BitVec.getLsbD_ushiftRight]

theorem word_bit {i : ℕ} (h : i < 64) : (word m k).getLsbD i = testBit m (k * 64 + i) := by
  have hdiv : (k * 64 + i) / 64 = k := by omega
  have hmod : (k * 64 + i) % 64 = i := by omega
  rw [testBit_eq (by decide), hdiv, hmod]

end

-- ── Scanning

variable {m : Mask cap}

/-- The first clear slot of the range is at its `c`-th place. -/
theorem Next.found {start c : ℕ} (hlt : start + c < cap) (hclear : testBit m (start + c) = false)
    (hset : ∀ i < c, testBit m (start + i) = true) : Next m start (start + c) := by
  refine ⟨Nat.le_add_right .., Nat.le_of_lt hlt, ?_, fun _ => hclear⟩
  intro i hge hi
  have hbit := hset (i - start) (by omega)
  rwa [show start + (i - start) = i by omega] at hbit

/-- A range without a clear slot, and the scan behind it. -/
theorem Next.append {start mid r : ℕ} (hle : start ≤ mid)
    (hset : ∀ i, start ≤ i → i < mid → testBit m i = true) (h : Next m mid r) : Next m start r := by
  refine ⟨Nat.le_trans hle h.ge, h.le, ?_, h.clear⟩
  intro i hge hi
  by_cases hmid : i < mid
  · exact hset i hge hmid
  · exact h.marked i (by omega) hi

theorem Next.end : Next m cap cap := ⟨le_rfl, le_rfl, fun i hge hlt => absurd hlt (by omega),
    fun h => absurd h (Nat.lt_irrefl _)⟩

section

variable (x : BitVec 64) (bit : ℕ) {i : ℕ} {s : ℕ} (m : Mask cap) {stop : ℕ} {start : ℕ} (fuel : ℕ) {k : ℕ}

/-- One word of the scan. -/
theorem scanWords_succ (h : k * 64 < cap) : scanWords m (fuel + 1) k =
      if word m k &&& rangeMask (min 64 (cap - k * 64)) ≠ rangeMask (min 64 (cap - k * 64)) then
        k * 64 + (~~~(word m k &&& rangeMask (min 64 (cap - k * 64))) &&& rangeMask (min 64 (cap - k * 64))).ctz.toNat
      else scanWords m fuel (k + 1) := by
  show (if (if k * 64 < cap then min 64 (cap - k * 64) else 0) = 0 then cap else _) = _
  rw [if_pos h, if_neg (by omega)]

theorem scanWords_next (fuel k : ℕ) (hfuel : numWords cap ≤ k + fuel) :
    Next m (min (k * 64) cap) (scanWords m fuel k) := by
  induction fuel generalizing k with
  | zero =>
    have hcap : min (k * 64) cap = cap := by
      unfold numWords at hfuel
      omega
    rw [hcap]
    exact Next.end
  | succ fuel ih =>
    by_cases hbase : k * 64 < cap
    · have hspan : min 64 (cap - k * 64) ≤ 64 := Nat.min_le_left ..
      rw [scanWords_succ m fuel hbase, Nat.min_eq_left (Nat.le_of_lt hbase)]
      split
      next hne =>
        obtain ⟨hlt, hclear, hset⟩ := ctz_inv hspan ((blk_ne_iff hspan _).mp hne)
        refine Next.found (by omega) ?_ ?_
        · rw [← word_bit m k (by omega)]
          exact hclear
        · intro i hi
          rw [← word_bit m k (by omega)]
          exact hset i hi
      next hfull =>
        have hz := not_not.mp fun h => hfull ((blk_ne_iff hspan _).mpr h)
        refine Next.append (by omega) ?_ (ih (k + 1) (by omega))
        intro i hge hlt
        have hbit := inv_eq_zero hspan hz (show i - k * 64 < min 64 (cap - k * 64) by omega)
        rwa [word_bit m k (by omega), show k * 64 + (i - k * 64) = i by omega] at hbit
    · have hzero : (if k * 64 < cap then min 64 (cap - k * 64) else 0) = 0 := if_neg hbase
      have hstop : scanWords m (fuel + 1) k = cap := if_pos hzero
      rw [hstop, Nat.min_eq_right (by omega)]
      exact Next.end

/-- The slots of the first word that the scan looks at. -/
def spanOf (cap start : ℕ) : ℕ :=
  if cap - start < 64 - start % 64 then cap - start else 64 - start % 64

/-- The scan of the first word. -/
theorem nextUnacked_of_lt (h : start < cap) : nextUnacked m start =
      if ~~~((word m (start / 64) >>> (start % 64)) &&& rangeMask (spanOf cap start)) &&&
          rangeMask (spanOf cap start) ≠ 0 then
        start + (~~~((word m (start / 64) >>> (start % 64)) &&& rangeMask (spanOf cap start)) &&&
          rangeMask (spanOf cap start)).ctz.toNat
      else scanWords m (numWords cap - (start / 64 + 1)) (start / 64 + 1) :=
  if_neg (Nat.not_le.mpr h)

/-- The scan finds the first slot that is not marked. -/
theorem nextUnacked_next (h : start ≤ cap) : Next m start (nextUnacked m start) := by
  rcases Nat.lt_or_eq_of_le h with hlt | heq
  · have hspan : spanOf cap start ≤ 64 - start % 64 ∧ spanOf cap start ≤ cap - start := by
      unfold spanOf
      split <;> omega
    have hwide : spanOf cap start = cap - start ∨ spanOf cap start = 64 - start % 64 := by
      unfold spanOf
      split
      · exact .inl rfl
      · exact .inr rfl
    have hbit : ∀ i < spanOf cap start, (word m (start / 64) >>> (start % 64)).getLsbD i = testBit m (start + i) := by
      intro i hi
      rw [window_bit m _ (by omega), show start / 64 * 64 + start % 64 = start by omega]
    rw [nextUnacked_of_lt m hlt]
    split
    next hne =>
      obtain ⟨hc, hclear, hset⟩ := ctz_inv (by omega) hne
      refine Next.found (by omega) ?_ ?_
      · rw [← hbit _ hc]
        exact hclear
      · intro i hi
        rw [← hbit i (by omega)]
        exact hset i hi
    next hz =>
      have hz := not_not.mp hz
      have hrest := scanWords_next m (numWords cap - (start / 64 + 1)) (start / 64 + 1) (by omega)
      refine Next.append (by omega) ?_ hrest
      intro i hge hi
      have hset := inv_eq_zero (by omega) hz (show i - start < spanOf cap start by omega)
      rwa [hbit _ (by omega), show start + (i - start) = i by omega] at hset
  · have hcap : nextUnacked m start = cap := if_pos (Nat.le_of_eq heq.symm)
    rw [hcap, heq]
    exact Next.end

-- ── Clearing

theorem testBit_clearIn_iff (k : ℕ) (mask : BitVec 64) (j : ℕ) : testBit (clearIn m k mask) j = true ↔
      testBit m j = true ∧ ¬ (j / 64 = k ∧ mask.getLsbD (j % 64) = true) := by
  rw [testBit_clearIn (by decide), Bool.and_eq_true, Bool.not_eq_true', Bool.and_eq_false_iff]
  simp only [decide_eq_false_iff_not, not_and, Bool.not_eq_true]
  refine and_congr_right fun _ => ⟨fun h hk => ?_, fun h => ?_⟩
  · exact h.resolve_left (not_not.mpr hk)
  · by_cases hk : j / 64 = k
    · exact .inr (h hk)
    · exact .inl hk

theorem testBit_zeroWords (n k j : ℕ) : testBit (zeroWords m n k) j = true ↔
      testBit m j = true ∧ ¬ (k ≤ j / 64 ∧ j / 64 < k + n) := by
  induction n generalizing m k with
  | zero =>
    refine ⟨fun h => ⟨h, by omega⟩, fun h => h.1⟩
  | succ n ih =>
    show testBit (zeroWords (zeroWord m k) n (k + 1)) j = true ↔ _
    rw [ih, testBit_zeroWord (by decide), Bool.and_eq_true, Bool.not_eq_true', decide_eq_false_iff_not, and_assoc]
    refine and_congr_right fun _ => ?_
    omega

/-- The lowest `s` bits, as the source shifts them into place. -/
theorem getLsbD_ones (h : s ≤ 64) (i : ℕ) : (BitVec.allOnes 64 >>> (64 - s)).getLsbD i = true ↔ i < s := by
  rw [BitVec.getLsbD_ushiftRight, BitVec.getLsbD_allOnes, decide_eq_true_eq]
  omega

theorem getLsbD_shifted (hi : i < 64) : (x <<< bit).getLsbD i = true ↔ bit ≤ i ∧ x.getLsbD (i - bit) = true := by
  rw [BitVec.getLsbD_shiftLeft]
  simp [hi]

theorem testBit_clearLast (hpos : 0 < stop) (j : ℕ) : testBit (clearLast m stop) j = true ↔
      testBit m j = true ∧ ¬ (j / 64 = (stop - 1) / 64 ∧ j < stop) := by
  unfold clearLast
  split
  · rw [testBit_clearIn_iff, getLsbD_ones (by omega)]
    refine and_congr_right fun _ => ?_
    omega
  · rw [testBit_zeroWord (by decide), Bool.and_eq_true, Bool.not_eq_true', decide_eq_false_iff_not]
    refine and_congr_right fun _ => ?_
    omega

/-- Clearing a range clears it and nothing else. -/
theorem testBit_clearAckedRange {start stop : ℕ} (hstop : stop ≤ cap) (j : ℕ) :
    testBit (clearAckedRange m start stop) j = true ↔ testBit m j = true ∧ ¬ (start ≤ j ∧ j < stop) := by
  have hmod : j % 64 < 64 := mod_lt j (by decide)
  unfold clearAckedRange
  split
  · exact ⟨fun h => ⟨h, by omega⟩, fun h => h.1⟩
  split
  · exact ⟨fun h => ⟨h, by omega⟩, fun h => h.1⟩
  split
  · -- one word
    rw [testBit_clearIn_iff, getLsbD_shifted _ _ hmod, getLsbD_ones (by omega)]
    refine and_congr_right fun _ => ?_
    omega
  split
  · -- the first word is cleared from `start` on, the last one up to `stop`
    rw [testBit_clearLast _ (by omega), testBit_zeroWords, testBit_clearIn_iff, getLsbD_shifted _ _ hmod,
      BitVec.getLsbD_allOnes, decide_eq_true_eq, and_assoc, and_assoc]
    refine and_congr_right fun _ => ?_
    omega
  · rw [testBit_clearLast _ (by omega), testBit_zeroWords, and_assoc]
    refine and_congr_right fun _ => ?_
    omega

end

-- ── Moving the tail

variable {r : Ring cap} {n l i tail next j w : ℕ}

theorem slot_of_lt (h : tail % cap + j < cap) : slot cap tail j = tail % cap + j := mod_eq_of_lt h

theorem slot_of_ge (hge : cap ≤ tail % cap + j) (hlt : tail % cap + j < cap + cap) :
    slot cap tail j = tail % cap + j - cap := by
  unfold slot
  rw [mod_eq_sub_mod hge, mod_eq_of_lt (by omega)]

/-- The slots of the first `l` outstanding commands, up to the end of the ring. -/
theorem slots_straight (hl : tail % cap + l ≤ cap) :
    (∀ j < l, slot cap tail j ≠ i) ↔ ¬ (tail % cap ≤ i ∧ i < tail % cap + l) := by
  constructor
  · rintro h ⟨hge, hlt⟩
    refine h (i - tail % cap) (by omega) ?_
    rw [slot_of_lt (by omega)]
    omega
  · intro h j hj heq
    rw [slot_of_lt (by omega)] at heq
    omega

/-- The same past the end of the ring. -/
theorem slots_wrapped (hcap : 0 < cap) (hi : i < cap) (hw : w ≤ tail % cap) :
    (∀ j < cap - tail % cap + w, slot cap tail j ≠ i) ↔ ¬ (tail % cap ≤ i ∧ i < cap) ∧ ¬ (0 ≤ i ∧ i < w) := by
  have hloc : tail % cap < cap := mod_lt _ hcap
  constructor
  · intro h
    refine ⟨?_, ?_⟩
    · rintro ⟨hge, hlt⟩
      refine h (i - tail % cap) (by omega) ?_
      rw [slot_of_lt (by omega)]
      omega
    · rintro ⟨-, hlt⟩
      refine h (cap - tail % cap + i) (by omega) ?_
      rw [slot_of_ge (by omega) (by omega)]
      omega
  · rintro ⟨hnot, hnot'⟩ j hj heq
    by_cases hend : tail % cap + j < cap
    · rw [slot_of_lt hend] at heq
      omega
    · rw [slot_of_ge (by omega) (by omega)] at heq
      omega

/-- Marked slots belong to outstanding commands. -/
theorem Outstanding.le (h : Outstanding r n) (hl : l ≤ cap)
    (hset : ∀ j < l, testBit r.mask (slot cap r.tail j) = true) : l ≤ n := by
  by_contra hlt
  have hlast := h (l - 1) (by omega) (hset (l - 1) (by omega))
  omega

/-- A ring whose commands are all marked has a run of all of them. -/
theorem Run.eq_of_all (h : Run r n l) (hall : ∀ j < n, testBit r.mask (slot cap r.tail j) = true) : l = n := by
  have hle := h.le
  by_contra hne
  have hstop := h.stop (by omega)
  rw [hall l (by omega)] at hstop
  cases hstop

theorem Advanced.of_moved {r' : Ring cap} (hrun : Run r n l) (htail : r'.tail = u64 (r.tail + l))
    (hmask : ∀ i < cap, testBit r'.mask i = true ↔
      testBit r.mask i = true ∧ ∀ j < l, slot cap r.tail j ≠ i) : Advanced r r' n := by
  refine ⟨⟨l, hrun, htail, hmask⟩, ?_⟩
  intro hall
  rw [htail, hrun.eq_of_all hall]

/-- The scan stopped before the end of the ring. -/
theorem run_straight (hout : Outstanding r n)
    (h : Next r.mask (r.tail % cap) next) (hlt : next < cap) : Run r n (next - r.tail % cap) := by
  have hge := h.ge
  have hset : ∀ j < next - r.tail % cap, testBit r.mask (slot cap r.tail j) = true := by
    intro j hj
    rw [slot_of_lt (by omega)]
    exact h.marked _ (by omega) (by omega)
  refine ⟨hout.le (by omega) hset, hset, ?_⟩
  intro _
  rw [slot_of_lt (by omega), show r.tail % cap + (next - r.tail % cap) = next by omega]
  exact h.clear hlt

/-- The scan went on from slot 0 and stopped at `w`. -/
theorem run_wrapped (hcap : 0 < cap) (hn : n ≤ cap) (hout : Outstanding r n)
    (hfirst : Next r.mask (r.tail % cap) cap) (hw : w ≤ r.tail % cap) (hset : ∀ i < w, testBit r.mask i = true)
    (hclear : w < r.tail % cap → testBit r.mask w = false) : Run r n (cap - r.tail % cap + w) := by
  have hloc : r.tail % cap < cap := mod_lt _ hcap
  have hall : ∀ j < cap - r.tail % cap + w, testBit r.mask (slot cap r.tail j) = true := by
    intro j hj
    by_cases hend : r.tail % cap + j < cap
    · rw [slot_of_lt hend]
      exact hfirst.marked _ (by omega) hend
    · rw [slot_of_ge (by omega) (by omega)]
      exact hset _ (by omega)
  refine ⟨hout.le (by omega) hall, hall, ?_⟩
  intro hlt
  rw [slot_of_ge (by omega) (by omega), show r.tail % cap + (cap - r.tail % cap + w) - cap = w by omega]
  exact hclear (by omega)

theorem u64_add (a b : ℕ) : u64 (u64 a + b) = u64 (a + b) := mod_add_mod a (2 ^ 64) b

/-- The second pass: the marks behind the old tail are cleared already, so it stops there or before. -/
theorem wrapAround_spec {m' : Mask cap} {loc : ℕ} (t : ℕ) (hloc : loc < cap)
    (hm' : ∀ j, testBit m' j = true ↔ testBit m j = true ∧ ¬ (loc ≤ j ∧ j < cap)) :
    ∃ w, w ≤ loc ∧ (∀ i < w, testBit m i = true) ∧ (w < loc → testBit m w = false) ∧
      (wrapAround ⟨u64 t, m'⟩ loc).tail = u64 (t + w) ∧
      ∀ j, testBit (wrapAround ⟨u64 t, m'⟩ loc).mask j = true ↔ testBit m' j = true ∧ ¬ (0 ≤ j ∧ j < w) := by
  have hnext := nextUnacked_next m' (Nat.zero_le cap)
  generalize hw : nextUnacked m' 0 = w at hnext
  have hle : w ≤ loc := by
    by_contra hgt
    exact ((hm' loc).mp (hnext.marked loc (Nat.zero_le _) (by omega))).2 ⟨le_rfl, hloc⟩
  refine ⟨w, hle, fun i hi => ((hm' i).mp (hnext.marked i (Nat.zero_le _) hi)).1, ?_, ?_⟩
  · intro hlt
    by_contra hset
    have hmarked := (hm' w).mpr ⟨by simpa using hset, by omega⟩
    rw [hnext.clear (by omega)] at hmarked
    cases hmarked
  · unfold wrapAround
    simp only [hw]
    by_cases hpos : 0 < w
    · rw [if_pos ⟨hpos, hle⟩]
      exact ⟨u64_add t w, fun j => testBit_clearAckedRange m' hnext.le j⟩
    · have hzero : w = 0 := by omega
      rw [hzero]
      exact ⟨rfl, fun j => ⟨fun h => ⟨h, by omega⟩, fun h => h.1⟩⟩

theorem advance_of_stop (hnext : nextUnacked r.mask (r.tail % cap) = next) (hlt : next < cap)
    (hmore : r.tail % cap < next) :
    advanceTailFromMask r = ⟨u64 (r.tail + (next - r.tail % cap)), clearAckedRange r.mask (r.tail % cap) next⟩ := by
  unfold advanceTailFromMask
  simp only [hnext]
  rw [if_neg (Nat.ne_of_lt hlt), if_pos hmore]

theorem advance_of_none (hnext : nextUnacked r.mask (r.tail % cap) = r.tail % cap)
    (hlt : r.tail % cap < cap) : advanceTailFromMask r = r := by
  unfold advanceTailFromMask
  simp only [hnext]
  rw [if_neg (Nat.ne_of_lt hlt), if_neg (Nat.lt_irrefl _)]

theorem advance_of_end (hnext : nextUnacked r.mask (r.tail % cap) = cap) (hloc : r.tail % cap ≠ 0) :
    advanceTailFromMask r =
      wrapAround ⟨u64 (r.tail + (cap - r.tail % cap)), clearAckedRange r.mask (r.tail % cap) cap⟩
        (r.tail % cap) := by
  unfold advanceTailFromMask
  simp only [hnext]
  rw [if_pos trivial, if_pos hloc]

/-- The whole ring is marked and the tail is at slot 0: the first pass reaches the end and nothing is consumed. -/
theorem advance_of_full (hloc : r.tail % cap = 0) (hall : ∀ i < cap, testBit r.mask i = true) :
    advanceTailFromMask r = r := by
  have hnext := nextUnacked_next r.mask (show r.tail % cap ≤ cap by omega)
  have hcap : nextUnacked r.mask (r.tail % cap) = cap := by
    rcases Nat.lt_or_eq_of_le hnext.le with hlt | heq
    · have hclear := hnext.clear hlt
      rw [hall _ hlt] at hclear
      cases hclear
    · exact heq
  unfold advanceTailFromMask
  simp only [hcap]
  rw [if_pos trivial, if_neg (not_not.mpr hloc)]

/-- **The tail moves over the acknowledged commands at it** and their marks are cleared, exactly
    when it is not the case that the tail is at slot 0 and the whole ring is marked. -/
theorem advance_tail_iff (hcap : 0 < cap) (r : Ring cap) (htail : r.tail < 2 ^ 64) (n : ℕ) (hn : n ≤ cap)
    (hout : Outstanding r n) :
    Advanced r (advanceTailFromMask r) n ↔ ¬ (r.tail % cap = 0 ∧ ∀ i < cap, testBit r.mask i = true) := by
  have hloc : r.tail % cap < cap := mod_lt _ hcap
  have hnext := nextUnacked_next r.mask (Nat.le_of_lt hloc)
  constructor
  · rintro h ⟨hzero, hall⟩
    rw [advance_of_full hzero hall] at h
    obtain ⟨l, hrun, -, hmask⟩ := h.moved
    -- the run is the whole ring, but slot 0 is still marked
    have hn' : n = cap := Nat.le_antisymm hn (hout.le (le_rfl) fun j hj => by
      rw [slot_of_lt (by omega)]
      exact hall _ (by omega))
    have hl : l = n := hrun.eq_of_all fun j hj => by
      rw [slot_of_lt (by omega)]
      exact hall _ (by omega)
    have hslot := ((hmask 0 hcap).mp (hall 0 hcap)).2 0 (by omega)
    rw [slot_of_lt (by omega)] at hslot
    omega
  · intro hnot
    rcases Nat.lt_or_eq_of_le hnext.le with hlt | hend
    · -- the first pass stopped before the end of the ring
      have hrun := run_straight hout hnext hlt
      rcases Nat.lt_or_eq_of_le hnext.ge with hmore | hsame
      · rw [advance_of_stop rfl hlt hmore]
        refine Advanced.of_moved hrun rfl ?_
        intro i hi
        rw [slots_straight (by omega), testBit_clearAckedRange _ hnext.le,
          show r.tail % cap + (nextUnacked r.mask (r.tail % cap) - r.tail % cap) =
            nextUnacked r.mask (r.tail % cap) by omega]
      · rw [advance_of_none hsame.symm hloc]
        rw [← hsame, Nat.sub_self] at hrun
        refine Advanced.of_moved hrun (mod_eq_of_lt htail).symm ?_
        intro i _
        exact ⟨fun h => ⟨h, fun j hj => absurd hj (Nat.not_lt_zero j)⟩, fun h => h.1⟩
    · -- it reached the end; the tail is not at slot 0, so there is a second pass
      rw [hend] at hnext
      have hne : r.tail % cap ≠ 0 := by
        intro hzero
        exact hnot ⟨hzero, fun i hi => hnext.marked i (by omega) hi⟩
      obtain ⟨w, hw, hset, hclear, htail', hmask⟩ :=
        wrapAround_spec (r.tail + (cap - r.tail % cap)) hloc fun j =>
          testBit_clearAckedRange r.mask (Nat.le_refl cap) j
      rw [advance_of_end hend hne]
      refine Advanced.of_moved (run_wrapped hcap hn hout hnext hw hset hclear) ?_ ?_
      · rw [htail', Nat.add_assoc]
      · intro i hi
        rw [hmask, testBit_clearAckedRange _ (Nat.le_refl cap), slots_wrapped hcap hi hw, and_assoc]

/-- Four slots, the tail at slot 2 and three commands outstanding, all acknowledged. -/
def wrapping : Ring 4 := ⟨6, markAcked (markAcked (markAcked empty 2) 3) 0⟩

theorem advance_tail_wrapping : Advanced wrapping (advanceTailFromMask wrapping) 3 :=
  (advance_tail_iff (by decide) wrapping (by decide) 3 (by decide)
    (show ∀ j < 4, testBit wrapping.mask (slot 4 wrapping.tail j) = true → j < 3 by decide +kernel)).mpr
    (by decide +kernel)

-- ── A ring that stays full

theorem lt_bits (h : i < cap) : i < 64 * numWords cap := by
  unfold numWords
  omega

/-- Marking the acknowledged commands. -/
theorem testBit_markAll (hcap : 0 < cap) (m : Mask cap) (ackedWrs : List ℕ) (i : ℕ) :
    testBit (ackedWrs.foldl (fun m cmdIdx => markAcked m (cmdIdx % cap)) m) i = true ↔
      testBit m i = true ∨ ∃ cmdIdx ∈ ackedWrs, cmdIdx % cap = i := by
  induction ackedWrs generalizing m with
  | nil => simp
  | cons c rest ih =>
    have hset : testBit (markAcked m (c % cap)) i = true ↔ testBit m i = true ∨ c % cap = i := by
      unfold markAcked
      rw [testBit_setBit (by decide) m (lt_bits (mod_lt c hcap)), Bool.or_eq_true, decide_eq_true_eq, @eq_comm ℕ i]
    rw [List.foldl_cons, ih, hset, or_assoc, List.exists_mem_cons_iff]

/-- The first `cap` commands fill the ring and are all acknowledged. -/
def allAcked (cap : ℕ) : Ring cap :=
  ⟨0, (List.range cap).foldl (fun m cmdIdx => markAcked m (cmdIdx % cap)) empty⟩

theorem allAcked_tail (cap : ℕ) : (allAcked cap).tail = 0 := rfl

theorem testBit_allAcked (h : i < cap) : testBit (allAcked cap).mask i = true :=
  (testBit_markAll (by omega) _ _ i).mpr (.inr ⟨i, List.mem_range.mpr h, mod_eq_of_lt h⟩)

/-- The tail does not move. -/
theorem advance_allAcked (cap : ℕ) : advanceTailFromMask (allAcked cap) = allAcked cap :=
  advance_of_full (zero_mod cap) fun _ hi => testBit_allAcked hi

/-- The first 2048 commands are pushed and acknowledged; the tail is still 0 and the ring full. -/
theorem full_ring_stays_full : (∀ j < 2048, testBit (allAcked 2048).mask (slot 2048 (allAcked 2048).tail j) = true) ∧
      (notifyGpuCompletion ⟨0, (empty : Mask 2048)⟩ (List.range 2048)).tail = 0 ∧
      ¬ Advanced (allAcked 2048) (advanceTailFromMask (allAcked 2048)) 2048 := by
  have hslots : ∀ j < 2048, testBit (allAcked 2048).mask (slot 2048 (allAcked 2048).tail j) = true :=
    fun j _ => testBit_allAcked (mod_lt _ (by decide))
  have hnotify : notifyGpuCompletion ⟨0, (empty : Mask 2048)⟩ (List.range 2048) = allAcked 2048 :=
    advance_allAcked 2048
  refine ⟨hslots, ?_, ?_⟩
  · rw [hnotify, allAcked_tail]
  · intro h
    have hmoved := h.emptied hslots
    rw [advance_allAcked] at hmoved
    exact absurd hmoved (by decide)

end EpAckMask
