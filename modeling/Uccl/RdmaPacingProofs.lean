import Mathlib.Algebra.Order.BigOperators.Group.Finset
import Mathlib.Data.Rat.Floor
import Uccl.StepRunProofs

/-! # Pacing: the room of the timing wheel

    `TimingWheel` (timing_wheel.h) holds chunks back until their time has come. Its slots have a fixed width and lie in
    a circle; a chunk goes into the first slot that ends after its time, and `reap` empties the slots that have ended
    and stamps each anew, a whole turn later. The slots stay evenly spaced from the current one on (`Phased`), so what
    an insertion finds is known from the wheel before the call.

    `kWheelNumWslots` counts the slots of the horizon with an integer macro on fractions, which rounds down: all slots
    together are no longer than the horizon (`slots_le_horizon`), and the current one has partly passed. So a chunk
    within the horizon may find no slot (`insert_beyond_wheel`). -/

namespace RdmaPacing

open Nat StepRun Finset Function

variable {E : Type}

-- ── The wheel

/-- Entries of a bucket. -/
def kWheelBucketCap : ℕ := 5

/-- The constants of a wheel: `kWheelNumWslots`, `wslot_width_tsc_`, `horizon_tsc_`, `kBktPoolSize`. -/
structure Config where
  nslots : ℕ
  width : ℕ
  horizon : ℕ
  poolSize : ℕ

/-- A chain of buckets: `last_`, and the full ones before it. -/
structure Slot (E : Type) where
  txTsc : ℕ
  full : List (List E) := []
  last : List E := []

/-- The wheel, its current slot `cur_wslot_` and the `ready_queue_`. -/
structure Wheel (E : Type) where
  slots : ℕ → Slot E
  cur : ℕ := 0
  /-- Buckets in the pool. -/
  free : ℕ
  ready : List E := []

/-- The checks that abort. -/
inductive Fault where
  | inPast | beyondHorizon | wslotDelta | poolEmpty | poolFull
  /-- Still in the loop of `reap`. -/
  | running
  deriving DecidableEq

/-- The 61 bits of `tx_tsc_`. -/
def stampOf (tsc : ℕ) : ℕ := tsc % 2 ^ 61

/-- The constructor, at time `baseTsc`. -/
def Wheel.init (c : Config) (baseTsc : ℕ) : Wheel E where
  slots i := { txTsc := stampOf (baseTsc + (i + 1) * c.width) }
  free := c.poolSize

/-- The end of the current slot. -/
def Wheel.stamp (w : Wheel E) : ℕ := (w.slots w.cur).txTsc

/-- A turn of the loop of `reap`, with `reap_wslot`. -/
def turn (c : Config) (w : Wheel E) : Except Fault (Wheel E) :=
  let s := w.slots w.cur
  if c.poolSize < w.free + s.full.length then .error .poolFull
  else .ok
    { slots := Function.update w.slots w.cur { txTsc := stampOf (s.txTsc + c.width * c.nslots) }
      cur := if w.cur + 1 = c.nslots then 0 else w.cur + 1
      free := w.free + s.full.length
      ready := w.ready ++ s.full.flatten ++ s.last }

/-- The loop of `reap`, with a bound on the turns. -/
def reapFor (c : Config) (reapTsc : ℕ) : ℕ → Wheel E → Except Fault (Wheel E)
  | 0, w => if w.stamp ≤ reapTsc then .error .running else .ok w
  | fuel + 1, w =>
    if w.stamp ≤ reapTsc then
      match turn c w with
      | .ok w' => reapFor c reapTsc fuel w'
      | .error e => .error e
    else .ok w

/-- `reap`: a turn moves the end of the current slot at least by one. -/
def reap (c : Config) (w : Wheel E) (reapTsc : ℕ) : Except Fault (Wheel E) :=
  reapFor c reapTsc (reapTsc + 1 - w.stamp) w

/-- `insert_into_wslot`, with `alloc_bkt` -/
def insertIntoWslot (w : Wheel E) (i : ℕ) (ent : E) : Except Fault (Wheel E) :=
  let s := w.slots i
  let last := s.last ++ [ent]
  if last.length = kWheelBucketCap then
    if w.free = 0 then .error .poolEmpty
    else .ok { w with
      slots := Function.update w.slots i { s with full := s.full ++ [last], last := [] }
      free := w.free - 1 }
  else .ok { w with slots := Function.update w.slots i { s with last := last } }

/-- `dst_wslot`: the slot `delta` behind the current one. -/
def dstWslot (c : Config) (w : Wheel E) (delta : ℕ) : ℕ :=
  if c.nslots ≤ w.cur + delta then w.cur + delta - c.nslots else w.cur + delta

/-- The rest of `insert` after its call of `reap`. -/
def place (c : Config) (w : Wheel E) (ent : E) (desiredTxTsc : ℕ) : Except Fault (Wheel E) :=
  if desiredTxTsc ≤ w.stamp then insertIntoWslot w w.cur ent
  else
    let delta := 1 + (desiredTxTsc - w.stamp) / c.width
    if delta < c.nslots then insertIntoWslot w (dstWslot c w delta) ent else .error .wslotDelta

/-- `TimingWheel::insert` -/
def insert (c : Config) (w : Wheel E) (ent : E) (refTsc desiredTxTsc : ℕ) : Except Fault (Wheel E) :=
  if desiredTxTsc < refTsc then .error .inPast
  else if c.horizon < desiredTxTsc - refTsc then .error .beyondHorizon
  else
    match reap c w refTsc with
    | .ok w' => place c w' ent desiredTxTsc
    | .error e => .error e

/-- What the engine asks of the wheel. -/
inductive Call (E : Type) where
  | reap (reapTsc : ℕ)
  | insert (ent : E) (refTsc desiredTxTsc : ℕ)

/-- The time that a call advances the wheel to. -/
def Call.time : Call E → ℕ
  | .reap t => t
  | .insert _ t _ => t

def step (c : Config) (w : Wheel E) : Call E → Except Fault (Wheel E)
  | .reap t => reap c w t
  | .insert ent refTsc desiredTxTsc => insert c w ent refTsc desiredTxTsc

-- ── The horizon

/-- `kWheelHorizonUs`, with `kSessionCredits` = 1024 and `TimelyCC::kMinRate` = 10^8. -/
def kWheelHorizonUs (chunkSizeKb : ℕ) : ℚ := 1000000 * (1024 * (chunkSizeKb <<< 10 : ℕ)) / 100000000

/-- Half a microsecond. -/
def kWheelSlotWidthUs : ℚ := 1 / 2

/-- The macro `DIVUP`. -/
def divup (x y : ℚ) : ℚ := (x + y - 1) / y

/-- The `double` is cut to a `size_t`. -/
def kWheelNumWslots (chunkSizeKb : ℕ) : ℕ :=
  ⌊1 + divup (kWheelHorizonUs chunkSizeKb) kWheelSlotWidthUs⌋₊

/-- `us_to_cycles` -/
def usToCycles (us freqGhz : ℚ) : ℕ := ⌊us * 1000 * freqGhz⌋₊

/-- The wheel of an `RDMAContext`. -/
def wheelConfig (chunkSizeKb : ℕ) (freqGhz : ℚ) : Config where
  nslots := kWheelNumWslots chunkSizeKb
  width := usToCycles kWheelSlotWidthUs freqGhz
  horizon := usToCycles (kWheelHorizonUs chunkSizeKb) freqGhz
  poolSize := kWheelNumWslots chunkSizeKb * kWheelBucketCap

-- ── The phases of the wheel

variable {c : Config} {w w' : Wheel E} {t : ℕ}

/-- From the current slot on the ends are a width apart, and no bucket is lost. -/
structure Phased (c : Config) (w : Wheel E) : Prop where
  cur_lt : w.cur < c.nslots
  phase : ∀ k < c.nslots, (w.slots (dstWslot c w k)).txTsc = w.stamp + k * c.width
  pool : w.free + ∑ i ∈ range c.nslots, (w.slots i).full.length = c.poolSize

theorem dstWslot_lt (hcur : w.cur < c.nslots) {k : ℕ} (hk : k < c.nslots) : dstWslot c w k < c.nslots := by
  unfold dstWslot
  split <;> omega

/-- After a turn the slot `k` behind the current one is the one that was `k + 1` behind it, or the old current slot. -/
theorem dstWslot_turn (hturn : w'.cur = if w.cur + 1 = c.nslots then 0 else w.cur + 1)
    {k : ℕ} (hk : k < c.nslots) : k + 1 = c.nslots ∧ dstWslot c w' k = w.cur ∨
      k + 1 < c.nslots ∧ dstWslot c w' k = dstWslot c w (k + 1) ∧ dstWslot c w' k ≠ w.cur := by
  unfold dstWslot
  rw [hturn]
  split_ifs <;> omega

/-- The chain of one slot is replaced. -/
theorem sum_update (slots : ℕ → Slot E) {i n : ℕ} (hi : i < n) (s : Slot E) :
    ∑ j ∈ range n, (update slots i s j).full.length + (slots i).full.length =
      ∑ j ∈ range n, (slots j).full.length + s.full.length := by
  have hrest : ∑ j ∈ (range n).erase i, (update slots i s j).full.length =
      ∑ j ∈ (range n).erase i, (slots j).full.length :=
    sum_congr rfl fun j hj => by rw [update_of_ne (ne_of_mem_erase hj)]
  rw [← add_sum_erase _ _ (mem_range.mpr hi), ← add_sum_erase _ (fun j => (slots j).full.length) (mem_range.mpr hi),
    hrest, update_self]
  omega

/-- A new wheel is in phase. -/
theorem Phased.init {base : ℕ} (hn : 0 < c.nslots) (hclock : base + c.nslots * c.width < 2 ^ 61) :
    Phased c (Wheel.init c base : Wheel E) := by
  have hstamp : ∀ k < c.nslots, stampOf (base + (k + 1) * c.width) = base + (k + 1) * c.width := fun k hk => by
    have hle : (k + 1) * c.width ≤ c.nslots * c.width := Nat.mul_le_mul_right _ hk
    exact Nat.mod_eq_of_lt (by omega)
  refine ⟨hn, fun k hk => ?_, ?_⟩
  · have hdst : dstWslot c (Wheel.init c base : Wheel E) k = k := by
      show (if c.nslots ≤ 0 + k then 0 + k - c.nslots else 0 + k) = k
      rw [if_neg (by omega), Nat.zero_add]
    rw [hdst]
    show stampOf (base + (k + 1) * c.width) = stampOf (base + (0 + 1) * c.width) + k * c.width
    rw [hstamp k hk, hstamp 0 hn]
    ring
  · show c.poolSize + ∑ i ∈ range c.nslots, 0 = c.poolSize
    rw [sum_const_zero, Nat.add_zero]

/-- **ONE TURN**: the current slot is stamped a whole turn later, so the next one ends a width later and all
    stay in phase. The buckets find room in the pool. -/
theorem Phased.turn (h : Phased c w) (hclock : w.stamp + c.nslots * c.width < 2 ^ 61) :
    ∃ w', turn c w = .ok w' ∧ Phased c w' ∧ w'.stamp = w.stamp + c.width := by
  have hroom := single_le_sum (f := fun i => (w.slots i).full.length) (fun _ _ => Nat.zero_le _)
    (mem_range.mpr h.cur_lt)
  have hpool := h.pool
  let next : Slot E := { txTsc := stampOf (w.stamp + c.width * c.nslots) }
  let w' : Wheel E := {
    slots := update w.slots w.cur next
    cur := if w.cur + 1 = c.nslots then 0 else w.cur + 1
    free := w.free + (w.slots w.cur).full.length
    ready := w.ready ++ (w.slots w.cur).full.flatten ++ (w.slots w.cur).last }
  have hturn : RdmaPacing.turn c w = .ok w' := if_neg (by omega)
  have hnext : next.txTsc = w.stamp + c.nslots * c.width := by
    rw [Nat.mul_comm] at hclock ⊢
    exact Nat.mod_eq_of_lt hclock
  have hcur := h.cur_lt
  have hmoved : w'.cur = if w.cur + 1 = c.nslots then 0 else w.cur + 1 := rfl
  have hcur' : w'.cur < c.nslots := by
    rw [hmoved]
    split <;> omega
  have hphase : ∀ k < c.nslots, (w'.slots (dstWslot c w' k)).txTsc = w.stamp + c.width + k * c.width := by
    intro k hk
    rcases dstWslot_turn hmoved hk with ⟨hlast, hdst⟩ | ⟨hmore, hdst, hne⟩
    · rw [hdst]
      show (update w.slots w.cur next w.cur).txTsc = _
      rw [update_self, hnext, ← hlast]
      ring
    · show (update w.slots w.cur next _).txTsc = _
      rw [update_of_ne hne, hdst, h.phase (k + 1) hmore]
      ring
  have hstamp : w'.stamp = w.stamp + c.width := by
    have hzero : dstWslot c w' 0 = w'.cur := if_neg (by omega)
    have hfirst := hphase 0 (by omega)
    rw [hzero, Nat.zero_mul, Nat.add_zero] at hfirst
    exact hfirst
  refine ⟨w', hturn, ⟨hcur', ?_, ?_⟩, hstamp⟩
  · rw [hstamp]
    exact hphase
  · have hsum := sum_update w.slots hcur next
    show w.free + (w.slots w.cur).full.length + ∑ i ∈ range c.nslots, (update w.slots w.cur next i).full.length = _
    have hempty : next.full.length = 0 := rfl
    omega

/-- The first end of a slot after `t`. -/
def slotEnd (width stamp t : ℕ) : ℕ := if t < stamp then stamp else stamp + ((t - stamp) / width + 1) * width

theorem slotEnd_add {width stamp : ℕ} (hw : 0 < width) (hle : stamp ≤ t) :
    slotEnd width (stamp + width) t = slotEnd width stamp t := by
  unfold slotEnd
  rw [if_neg (Nat.not_lt.mpr hle)]
  split
  · rw [Nat.div_eq_of_lt (by omega), Nat.zero_add, Nat.one_mul]
  · rw [Nat.div_eq_sub_div hw (b := width) (a := t - stamp) (by omega), Nat.sub_sub]
    ring

/-- **REAP RETURNS**, in phase, with the first end of a slot after its time. -/
theorem Phased.reap (hw : 0 < c.width) (hclock : t + c.nslots * c.width < 2 ^ 61) {w : Wheel E} (h : Phased c w) :
    ∃ w', reap c w t = .ok w' ∧ Phased c w' ∧ w'.stamp = slotEnd c.width w.stamp t := by
  have hloop : ∀ (fuel : ℕ) (w : Wheel E), Phased c w → t + 1 ≤ w.stamp + fuel →
      ∃ w', reapFor c t fuel w = .ok w' ∧ Phased c w' ∧ w'.stamp = slotEnd c.width w.stamp t := by
    intro fuel
    induction fuel with
    | zero =>
      intro w h hfuel
      exact ⟨w, if_neg (by omega), h, (if_pos (by omega)).symm⟩
    | succ fuel ih =>
      intro w h hfuel
      by_cases hle : w.stamp ≤ t
      · obtain ⟨w1, hturn, h1, hstamp⟩ := h.turn (by omega)
        obtain ⟨w', hrest, h', hend⟩ := ih w1 h1 (by omega)
        refine ⟨w', ?_, h', ?_⟩
        · simp only [reapFor, if_pos hle, hturn]
          exact hrest
        · rw [hend, hstamp, slotEnd_add hw hle]
      · exact ⟨w, if_neg hle, h, (if_pos (by omega)).symm⟩
  exact hloop _ w h (by omega)

/-- An entry changes neither the phases nor the number of buckets. -/
theorem Phased.insertIntoWslot (h : Phased c w) {i : ℕ} (hi : i < c.nslots) {ent : E}
    (hins : insertIntoWslot w i ent = .ok w') : Phased c w' := by
  -- whatever becomes of the chain of the slot, it keeps its stamp
  have hkeep : ∀ (s : Slot E) (free : ℕ), s.txTsc = (w.slots i).txTsc →
      free + s.full.length = w.free + (w.slots i).full.length →
      Phased c { w with slots := update w.slots i s, free := free } := by
    intro s free hstamp hbuckets
    have htx : ∀ j, (update w.slots i s j).txTsc = (w.slots j).txTsc := fun j => by
      by_cases hj : j = i
      · rw [hj, update_self, hstamp]
      · rw [update_of_ne hj]
    refine ⟨h.cur_lt, fun k hk => ?_, ?_⟩
    · show (update w.slots i s (dstWslot c w k)).txTsc = (update w.slots i s w.cur).txTsc + _
      rw [htx, htx]
      exact h.phase k hk
    · have hsum := sum_update w.slots hi s
      have hpool := h.pool
      show free + ∑ j ∈ range c.nslots, (update w.slots i s j).full.length = _
      omega
  unfold RdmaPacing.insertIntoWslot at hins
  dsimp only at hins
  split at hins
  · split at hins
    · cases hins
    · next hfree =>
      cases hins
      refine hkeep _ _ rfl ?_
      show w.free - 1 + ((w.slots i).full ++ [_]).length = _
      rw [List.length_append, List.length_singleton]
      omega
  · cases hins
    exact hkeep _ _ rfl rfl

theorem Phased.place (h : Phased c w) {ent : E} (hplace : place c w ent t = .ok w') : Phased c w' := by
  unfold RdmaPacing.place at hplace
  dsimp only at hplace
  split at hplace
  · exact h.insertIntoWslot h.cur_lt hplace
  · split at hplace
    · next hlt => exact h.insertIntoWslot (dstWslot_lt h.cur_lt hlt) hplace
    · cases hplace

/-- The 61 bits of a stamp hold a whole turn from the time of the call on. -/
def InTime (c : Config) (_ : Wheel E) (a : Call E) : Prop := a.time + c.nslots * c.width < 2 ^ 61

theorem Phased.step (hw : 0 < c.width) (h : Phased c w) {a : Call E} (hclock : InTime c w a)
    (hstep : step c w a = .ok w') : Phased c w' := by
  obtain ⟨w1, hreap, h1, -⟩ := h.reap hw hclock
  cases a with
  | reap t =>
    obtain rfl : w1 = w' := Except.ok.inj (hreap.symm.trans hstep)
    exact h1
  | insert ent refTsc desiredTxTsc =>
    simp only [RdmaPacing.step, RdmaPacing.insert] at hstep
    split at hstep
    · cases hstep
    · split at hstep
      · cases hstep
      · rw [show RdmaPacing.reap c w refTsc = .ok w1 from hreap] at hstep
        exact h1.place hstep

-- ── What fits

theorem place_fits_iff {ent : E} (hw : 0 < c.width) :
    place c w ent t ≠ .error .wslotDelta ↔ t ≤ w.stamp ∨ t < w.stamp + (c.nslots - 1) * c.width := by
  have hinto : ∀ i, insertIntoWslot w i ent ≠ .error .wslotDelta := by
    intro i
    unfold insertIntoWslot
    dsimp only
    split_ifs <;> exact fun h => (by cases h)
  unfold place
  by_cases hle : t ≤ w.stamp
  · rw [if_pos hle]
    exact ⟨fun _ => .inl hle, fun _ => hinto _⟩
  · rw [if_neg hle]
    dsimp only
    -- the slots behind the current one are one fewer than there are slots
    have hfit : 1 + (t - w.stamp) / c.width < c.nslots ↔ t < w.stamp + (c.nslots - 1) * c.width := by
      calc 1 + (t - w.stamp) / c.width < c.nslots
        _ ↔ (t - w.stamp) / c.width < c.nslots - 1 := by
          generalize (t - w.stamp) / c.width = q
          omega
        _ ↔ t - w.stamp < (c.nslots - 1) * c.width := Nat.div_lt_iff_lt_mul hw
        _ ↔ t < w.stamp + (c.nslots - 1) * c.width := by omega
    by_cases hlt : 1 + (t - w.stamp) / c.width < c.nslots
    · rw [if_pos hlt]
      exact ⟨fun _ => .inr (hfit.mp hlt), fun _ => hinto _⟩
    · rw [if_neg hlt]
      exact ⟨fun h => absurd rfl h, fun h => absurd (hfit.mpr (h.resolve_left hle)) hlt⟩

/-- `DIVUP` with half a microsecond does not round up. -/
theorem numWslots_eq (chunkSizeKb : ℕ) :
    1 + divup (kWheelHorizonUs chunkSizeKb) kWheelSlotWidthUs = 2 * kWheelHorizonUs chunkSizeKb := by
  unfold divup kWheelSlotWidthUs
  ring

/-- A wheel with a slot has two: `kWheelNumWslots` is 0 or at least 20971. -/
theorem two_le_nslots {chunkSizeKb : ℕ} (hn : 0 < kWheelNumWslots chunkSizeKb) : 2 ≤ kWheelNumWslots chunkSizeKb := by
  unfold kWheelNumWslots at hn ⊢
  rw [numWslots_eq] at hn ⊢
  cases chunkSizeKb with
  | zero =>
    unfold kWheelHorizonUs at hn
    norm_num at hn
  | succ kb =>
    refine le_floor ?_
    have hkb : ((kb + 1) <<< 10 : ℕ) = (kb + 1) * 1024 := shiftLeft_eq ..
    unfold kWheelHorizonUs
    rw [hkb]
    push_cast
    linarith [cast_nonneg (α := ℚ) kb]

/-- All slots together are no longer than the horizon, at any frequency: both factors are rounded down. -/
theorem slots_le_horizon {chunkSizeKb : ℕ} {freqGhz : ℚ} (hw : 0 < (wheelConfig chunkSizeKb freqGhz).width)
    (hn : 0 < (wheelConfig chunkSizeKb freqGhz).nslots) :
    (wheelConfig chunkSizeKb freqGhz).nslots * (wheelConfig chunkSizeKb freqGhz).width ≤
      (wheelConfig chunkSizeKb freqGhz).horizon := by
  obtain ⟨n, hN⟩ := exists_eq_succ_of_ne_zero hn.ne'
  obtain ⟨m, hW⟩ := exists_eq_succ_of_ne_zero hw.ne'
  rw [hN, hW]
  have hslots : (n + 1 : ℚ) ≤ 2 * kWheelHorizonUs chunkSizeKb := by
    have hfloor := (le_floor_iff' (succ_ne_zero n)).mp hN.ge
    rw [numWslots_eq] at hfloor
    exact_mod_cast hfloor
  have hwidth : (m + 1 : ℚ) ≤ 500 * freqGhz := by
    have hfloor := (le_floor_iff' (succ_ne_zero m)).mp hW.ge
    unfold kWheelSlotWidthUs at hfloor
    push_cast at hfloor
    linarith
  refine (le_floor_iff' (Nat.mul_ne_zero (succ_ne_zero n) (succ_ne_zero m))).mpr ?_
  push_cast
  nlinarith [cast_nonneg (α := ℚ) n, cast_nonneg (α := ℚ) m]

/-- Where a chunk finds a slot, by the end `stamp` of the current slot before the call: before the end of the
    last slot but one, of the wheel as it is or as `reap` leaves it. -/
def Fits (c : Config) (stamp refTsc desiredTxTsc : ℕ) : Prop :=
  if refTsc < stamp then desiredTxTsc < stamp + (c.nslots - 1) * c.width
  else (desiredTxTsc - stamp) / c.width < (refTsc - stamp) / c.width + c.nslots
deriving Decidable

/-- The wheel that `reap` leaves has room exactly then. -/
theorem fits_iff (hw : 0 < c.width) (hn : 0 < c.nslots) {stamp refTsc desiredTxTsc : ℕ} (hle : refTsc ≤ desiredTxTsc) :
    Fits c stamp refTsc desiredTxTsc ↔
      desiredTxTsc < slotEnd c.width stamp refTsc + (c.nslots - 1) * c.width := by
  unfold Fits slotEnd
  split
  · exact Iff.rfl
  · obtain ⟨n, hN⟩ : ∃ n, c.nslots = n + 1 := ⟨c.nslots - 1, by omega⟩
    have hends : stamp + ((refTsc - stamp) / c.width + 1) * c.width + (c.nslots - 1) * c.width =
        stamp + ((refTsc - stamp) / c.width + c.nslots) * c.width := by
      rw [hN, Nat.add_sub_cancel]
      ring
    rw [hends, Nat.div_lt_iff_lt_mul hw]
    omega

/-- **WHAT FITS**, on every wheel that calls have left: of the chunks within the horizon those that `Fits` says, and
    never the whole horizon. -/
theorem insert_fits_iff {chunkSizeKb : ℕ} {freqGhz : ℚ} {c : Config} (hc : c = wheelConfig chunkSizeKb freqGhz)
    (hw : 0 < c.width) (hn : 0 < c.nslots) {base : ℕ} (hbase : base + c.nslots * c.width < 2 ^ 61)
    {as : List (Call E)} {w : Wheel E} (htime : Along (step c) (InTime c) (Wheel.init c base) as)
    (hrun : runFrom (step c) (Wheel.init c base) as = .ok w) {refTsc desiredTxTsc : ℕ} (ent : E)
    (hclock : refTsc + c.nslots * c.width < 2 ^ 61) (hle : refTsc ≤ desiredTxTsc)
    (hhorizon : desiredTxTsc ≤ refTsc + c.horizon) :
    (insert c w ent refTsc desiredTxTsc ≠ .error .wslotDelta ↔ Fits c w.stamp refTsc desiredTxTsc) ∧
      (w.stamp ≤ refTsc + c.width → ¬ Fits c w.stamp refTsc (refTsc + c.horizon)) := by
  have hphased : Phased c w := runFrom_invariant_along (fun w a w' h htime hstep => h.step hw htime hstep)
    (Phased.init hn hbase) htime hrun
  obtain ⟨w', hreap, -, hstamp⟩ := hphased.reap hw hclock
  have hins : insert c w ent refTsc desiredTxTsc = place c w' ent desiredTxTsc := by
    unfold insert
    rw [if_neg (Nat.not_lt.mpr hle), if_neg (by omega), hreap]
  have htwo : 2 ≤ c.nslots := by
    subst hc
    exact two_le_nslots hn
  have hslots : c.nslots * c.width ≤ c.horizon := by
    subst hc
    exact slots_le_horizon hw hn
  obtain ⟨n, hN⟩ : ∃ n, c.nslots = n + 2 := ⟨c.nslots - 2, by omega⟩
  have hlast : (c.nslots - 1) * c.width = n * c.width + c.width := by
    rw [hN, Nat.add_succ_sub_one]
    ring
  refine ⟨?_, fun hnear hfits => ?_⟩
  · rw [hins, place_fits_iff hw, fits_iff hw hn hle, hstamp]
    omega
  · have hend : refTsc + c.horizon < _ := (fits_iff hw hn (Nat.le_add_right ..)).mp hfits
    have hnext : slotEnd c.width w.stamp refTsc ≤ refTsc + c.width := by
      unfold slotEnd
      split
      · exact hnear
      · have hdiv := Nat.div_mul_le_self (refTsc - w.stamp) c.width
        rw [Nat.add_mul, Nat.one_mul]
        omega
    have hall : c.nslots * c.width = (c.nslots - 1) * c.width + c.width := by
      rw [hN, Nat.add_succ_sub_one]
      ring
    omega

/-- The wheel for chunks of 64 KB at 2 GHz. -/
theorem wheelConfig_64 : wheelConfig 64 2 = ⟨1342177, 1000, 1342177280, 6710885⟩ := by
  have hh : kWheelHorizonUs 64 = 16777216 / 25 := by
    unfold kWheelHorizonUs
    rw [show (64 <<< 10 : ℕ) = 65536 from rfl]
    norm_num
  have hslots : kWheelNumWslots 64 = 1342177 := by
    unfold kWheelNumWslots divup kWheelSlotWidthUs
    rw [hh, floor_eq_iff (by norm_num)]
    norm_num
  have hwidth : usToCycles kWheelSlotWidthUs 2 = 1000 := by
    unfold usToCycles kWheelSlotWidthUs
    norm_num
  have hhorizon : usToCycles (kWheelHorizonUs 64) 2 = 1342177280 := by
    unfold usToCycles
    rw [hh]
    norm_num
  unfold wheelConfig
  rw [hslots, hwidth, hhorizon]
  rfl

/-- A chunk on a wheel that an insertion and a `reap` have moved on, with `reap` taking further turns in the call. -/
theorem insert_fits_turned : ∃ w : Wheel Unit, runFrom (step (wheelConfig 64 2)) (Wheel.init (wheelConfig 64 2) 0)
      [.insert () 1700 5000, .reap 3500] = .ok w ∧ w.stamp = 4000 ∧ w.cur = 3 ∧
    insert (wheelConfig 64 2) w () 5200 1342181999 ≠ .error .wslotDelta ∧
    ¬ Fits (wheelConfig 64 2) w.stamp 5200 (5200 + (wheelConfig 64 2).horizon) := by
  have hclock : ∀ a ∈ [Call.insert () 1700 5000, .reap 3500], ∀ w, InTime ⟨1342177, 1000, 1342177280, 6710885⟩ w a := by
    simp [InTime, Call.time]
  rw [wheelConfig_64]
  refine exists_run_of_eval (fun w => w.stamp = 4000 ∧ w.cur = 3) (by decide +kernel) fun w hrun hw => ?_
  have hfit := insert_fits_iff wheelConfig_64.symm (by decide) (by decide) (by decide) (.of_forall_mem hclock _) hrun ()
    (show 5200 + 1342177 * 1000 < 2 ^ 61 by decide) (show 5200 ≤ 1342181999 by decide) (by decide)
  rw [hw.1] at hfit ⊢
  exact ⟨rfl, hw.2, hfit.1.mpr (by decide), hfit.2 (by decide)⟩

/-- **A CHUNK AT THE END OF THE HORIZON DOES NOT FIT**, on a new wheel. -/
theorem insert_beyond_wheel :
    insert (wheelConfig 64 2) (Wheel.init (wheelConfig 64 2) 0) () 0 (wheelConfig 64 2).horizon =
      .error .wslotDelta := by
  rw [wheelConfig_64]
  rfl

end RdmaPacing
