import Uccl.SerialNumberProofs
import Uccl.WordBitmapProofs
import Uccl.OrderedSetProofs

/-! # A receive window in three representations

    A receiver that takes items out of order keeps a bitmap over the numbers from the next expected one on, a
    count of its set bits and an ordered set of what it holds. The abstract object all three represent is a
    strictly increasing list of OFFSETS from the next number (`Window`).

    Accepting an item inserts its offset (`Window.accept`), advancing drops offset 0 and lowers the others by
    one (`Window.advance`). Both are proved on the four values alone, for any widths. -/

namespace ReceiveWindow

open WordBitmap SerialNumber List

variable {v w n k : ℕ} {β : Type}

/-- The entry of the ordered set at an offset. -/
def entryAt (r : BitVec v) (x : ℕ × β) : BitVec v × β := (r + BitVec.ofNat v x.1, x.2)

/-- One step closer to the next number. -/
def lower (x : ℕ × β) : ℕ × β := (x.1 - 1, x.2)

/-- The bitmap, the count and the ordered set all represent the offsets `L`. -/
structure Window (r : BitVec v) (b : Bitmap w n) (c : BitVec k) (held : List (BitVec v × β))
    (L : List (ℕ × β)) : Prop where
  entries : held = L.map (entryAt r)
  sorted : L.Pairwise fun a b => a.1 < b.1
  bound : ∀ x ∈ L, x.1 < w * n
  bits : ∀ i, i < w * n → (testBit b i = true ↔ ∃ p, (i, p) ∈ L)
  count : c = BitVec.ofNat k L.length

variable {r : BitVec v} {b : Bitmap w n} {c : BitVec k} {held : List (BitVec v × β)} {L : List (ℕ × β)} {p : β}
  {x : ℕ × β}

theorem window_empty (hw : 0 < w) (r : BitVec v) :
    Window r (empty : Bitmap w n) (0 : BitVec k) ([] : List (BitVec v × β)) [] :=
  ⟨rfl, List.Pairwise.nil, nofun, fun i _ => by rw [testBit_empty hw]; exact ⟨nofun, nofun⟩, rfl⟩

/-- Offsets in the number space are told apart by their numbers. -/
theorem offset_inj {i j : ℕ} (hi : i < 2 ^ v) (hj : j < 2 ^ v)
    (h : r + BitVec.ofNat v i = r + BitVec.ofNat v j) : i = j :=
  (ofNat_eq_iff (by omega) (by omega)).mp (add_left_cancel h)

theorem distance_entryAt (r : BitVec v) (hx : x.1 < 2 ^ v) : ((entryAt r x).1 - r).toNat = x.1 := by
  unfold entryAt
  rw [add_sub_cancel_left, BitVec.toNat_ofNat, Nat.mod_eq_of_lt hx]

theorem entryAt_lower (r : BitVec v) (hx : 0 < x.1) : entryAt (r + 1) (lower x) = entryAt r x := by
  obtain ⟨i, p⟩ := x
  obtain ⟨j, rfl⟩ : ∃ j, i = j + 1 := ⟨i - 1, by omega⟩
  have hsum : r + 1 + BitVec.ofNat v j = r + BitVec.ofNat v (j + 1) := by
    rw [BitVec.ofNat_add, add_assoc, add_comm (1 : BitVec v)]
    rfl
  exact Prod.ext hsum rfl

/-- **ACCEPTING**: a clear bit is set, counted and inserted. -/
theorem Window.accept (h : Window r b c held L) (hw : 0 < w) {i : ℕ} (hi : i < w * n)
    (hclear : testBit b i = false) (p : β) {lt : BitVec v × β → BitVec v × β → Bool}
    (hlt : ∀ x y : ℕ × β, x.1 < w * n → y.1 < w * n → x.1 ≠ y.1 →
      lt (entryAt r x) (entryAt r y) = OrderedSet.keyLt x y) :
    Window r (setBit b i) (c + 1) (OrderedSet.insert lt (entryAt r (i, p)) held)
      (OrderedSet.insert OrderedSet.keyLt (i, p) L) := by
  have hfresh : ∀ y ∈ L, (i, p).1 ≠ y.1 := by
    intro y hy heq
    have hset : testBit b i = true := (h.bits i hi).mpr ⟨y.2, by rw [show i = y.1 from heq]; exact hy⟩
    rw [hclear] at hset
    cases hset
  have hperm := OrderedSet.insert_keyLt_perm hfresh
  refine ⟨?_, OrderedSet.insert_keyLt_pairwise h.sorted hfresh, ?_, ?_, ?_⟩
  · rw [h.entries]
    refine OrderedSet.insert_map (entryAt r) (i, p) fun y hy => ?_
    exact ⟨hlt _ _ hi (h.bound y hy) (hfresh y hy), hlt _ _ (h.bound y hy) hi (Ne.symm (hfresh y hy))⟩
  · intro x hx
    rcases mem_cons.mp (hperm.subset hx) with rfl | hx
    · exact hi
    · exact h.bound x hx
  · intro j hj
    rw [testBit_setBit hw b hi, Bool.or_eq_true, decide_eq_true_eq]
    constructor
    · rintro (hset | hji)
      · obtain ⟨q, hq⟩ := (h.bits j hj).mp hset
        exact ⟨q, hperm.symm.subset (mem_cons_of_mem _ hq)⟩
      · exact ⟨p, hperm.symm.subset (by rw [hji]; exact mem_cons_self)⟩
    · rintro ⟨q, hq⟩
      rcases mem_cons.mp (hperm.subset hq) with heq | hq
      · exact .inr (congrArg Prod.fst heq)
      · exact .inl ((h.bits j hj).mpr ⟨q, hq⟩)
  · rw [h.count, hperm.length_eq]
    exact (BitVec.ofNat_add L.length 1).symm

/-- The head of the set is at offset 0 exactly when its number is the next one. -/
theorem Window.head (h : Window r b c ((r, p) :: held) L) (hN : w * n ≤ 2 ^ v) :
    ∃ L', L = (0, p) :: L' ∧ held = L'.map (entryAt r) ∧ ∀ x ∈ L', 0 < x.1 := by
  cases L with
  | nil => cases h.entries
  | cons x L' =>
    obtain ⟨hx, hrest⟩ := cons.inj h.entries
    have hlt := h.bound x mem_cons_self
    have hx0 : x.1 = 0 := by
      refine offset_inj (r := r) (by omega) (by omega) ?_
      exact (congrArg Prod.fst hx).symm.trans (add_zero r).symm
    have hx' : x = (0, p) := Prod.ext hx0 (congrArg Prod.snd hx).symm
    refine ⟨L', by rw [hx'], hrest, fun y hy => ?_⟩
    have hlt := (pairwise_cons.mp h.sorted).1 y hy
    omega

/-- **ADVANCING**: offset 0 leaves, the others come one closer. -/
theorem Window.advance (h : Window r b c ((r, p) :: held) L) (hw : 0 < w) (hN : w * n ≤ 2 ^ v) :
    ∃ L', L = (0, p) :: L' ∧ (∀ x ∈ L', 0 < x.1) ∧ Window (r + 1) (shiftDown b) (c - 1) held (L'.map lower) := by
  obtain ⟨L', rfl, hrest, hpos⟩ := h.head hN
  have hsorted := (pairwise_cons.mp h.sorted).2
  refine ⟨L', rfl, hpos, ?_, ?_, ?_, ?_, ?_⟩
  · rw [hrest, map_map]
    exact (map_congr_left fun x hx => entryAt_lower r (hpos x hx)).symm
  · rw [pairwise_map]
    refine hsorted.imp_of_mem fun hx hy hlt => ?_
    have := hpos _ hx
    show _ - 1 < _ - 1
    omega
  · intro x hx
    obtain ⟨y, hy, rfl⟩ := mem_map.mp hx
    exact (Nat.sub_le _ _).trans_lt (h.bound y (mem_cons_of_mem _ hy))
  · intro i hi
    rw [testBit_shiftDown hw b hi]
    have hlower : (∃ q, (i, q) ∈ L'.map lower) ↔ ∃ q, (i + 1, q) ∈ (0, p) :: L' := by
      constructor
      · rintro ⟨q, hq⟩
        obtain ⟨y, hy, heq⟩ := mem_map.mp hq
        have h1 : y.1 - 1 = i := congrArg Prod.fst heq
        have hy' : y = (i + 1, y.2) := Prod.ext (by have := hpos y hy; omega) rfl
        exact ⟨y.2, mem_cons_of_mem _ (hy' ▸ hy)⟩
      · rintro ⟨q, hq⟩
        rcases mem_cons.mp hq with heq | hq
        · exact absurd (congrArg Prod.fst heq) (Nat.succ_ne_zero i)
        · exact ⟨q, mem_map.mpr ⟨(i + 1, q), hq, rfl⟩⟩
    rw [hlower]
    by_cases hi' : i + 1 < w * n
    · exact h.bits (i + 1) hi'
    · -- the bit past the end is clear and no offset is that far
      rw [testBit_of_ge hw b (by omega)]
      refine ⟨nofun, ?_⟩
      rintro ⟨q, hq⟩
      exact absurd (h.bound _ hq) hi'
  · rw [h.count, length_cons, length_map, BitVec.ofNat_add]
    exact add_sub_cancel_right _ _

section

variable (h : Window r b c held L)
include h

/-- With no entry at the next number itself, every offset is positive. -/
theorem Window.pos (hhead : ∀ a p rest, held = (a, p) :: rest → a ≠ r) : ∀ x ∈ L, 0 < x.1 := by
  cases L with
  | nil => exact nofun
  | cons y L' =>
    have hy : 0 < y.1 := by
      refine Nat.pos_of_ne_zero fun h0 => hhead _ _ _ h.entries ?_
      rw [h0]
      exact add_zero _
    intro x hx
    rcases mem_cons.mp hx with rfl | hx
    · exact hy
    · exact Nat.lt_trans hy ((pairwise_cons.mp h.sorted).1 x hx)

-- ── What the representations say of each other

theorem Window.mem_held (hN : w * n ≤ 2 ^ v) {i : ℕ} (hi : i < w * n) (q : β) :
    (r + BitVec.ofNat v i, q) ∈ held ↔ (i, q) ∈ L := by
  rw [h.entries]
  constructor
  · intro hq
    obtain ⟨y, hy, heq⟩ := mem_map.mp hq
    have hlt := h.bound y hy
    have hyi : y.1 = i := offset_inj (by omega) (by omega) (congrArg Prod.fst heq)
    have hy2 : y.2 = q := congrArg Prod.snd heq
    have hyq : y = (i, q) := Prod.ext hyi hy2
    exact hyq ▸ hy
  · intro hq
    exact mem_map.mpr ⟨(i, q), hq, rfl⟩

theorem Window.bit_iff (hN : w * n ≤ 2 ^ v) {i : ℕ} (hi : i < w * n) :
    testBit b i = true ↔ ∃ q, (r + BitVec.ofNat v i, q) ∈ held :=
  (h.bits i hi).trans (exists_congr fun q => (h.mem_held hN hi q).symm)

theorem Window.distance_lt (hN : w * n ≤ 2 ^ v) : ∀ x ∈ held, (x.1 - r).toNat < w * n := by
  intro x hx
  rw [h.entries] at hx
  obtain ⟨y, hy, rfl⟩ := mem_map.mp hx
  have hlt := h.bound y hy
  rw [distance_entryAt _ (by omega)]
  exact hlt

theorem Window.popCount_eq : popCount b = L.length := by
  have hnd : (L.map Prod.fst).Nodup := (pairwise_map.mpr h.sorted).imp fun hlt => Nat.ne_of_lt hlt
  rw [popCount_eq_length b hnd, length_map]
  intro i
  rw [mem_map]
  constructor
  · rintro ⟨y, hy, rfl⟩
    exact ⟨h.bound y hy, (h.bits y.1 (h.bound y hy)).mpr ⟨y.2, hy⟩⟩
  · rintro ⟨hi, hset⟩
    obtain ⟨p, hp⟩ := (h.bits i hi).mp hset
    exact ⟨(i, p), hp, rfl⟩

theorem Window.count_toNat : c.toNat = popCount b % 2 ^ k := by
  rw [h.popCount_eq, h.count, BitVec.toNat_ofNat]

end

end ReceiveWindow
