import Uccl.MealyProofs
import Uccl.RingSlotProofs
import Mathlib.Data.Nat.Bitwise
import Mathlib.Data.List.Induction

/-! # The ring buffer as a queue

    `RingBuffer` has a head and a tail that only grow; the slot of a position is the position masked with
    `Capacity - 1`. One producer pushes (`push`, `pushN`, or `set_buffer` followed by `commit_with_head`), one
    consumer pops (`pop`, `popN`).

    The cursors have 64 bits, but `commit_with_head` takes the new head as an `int`: from the 2^31-th element
    on it sign-extends to a head far ahead of the tail.

    `Fifo` is the bounded queue that the ring stands for. -/

namespace EpRingBuffer

open Mealy RingSlot Function List

variable {T : Type}

-- ── The ring

structure RingBuffer (T : Type) where
  head : ℕ
  tail : ℕ
  buf : ℕ → T

open RingBuffer

/-- The value of a 64-bit number as an `int`. -/
def toInt (n : ℕ) : ℤ := Int.bmod n (2 ^ 32)

/-- A difference or a sum in 64 bits. -/
def u64 (z : ℤ) : ℕ := (z % 2 ^ 64).toNat

/-- `head - tail`. -/
def RingBuffer.size (r : RingBuffer T) : ℕ := u64 (r.head - r.tail)

variable (cap : ℕ) {n : ℕ}

/-- `idx & mask()`. -/
def slot (idx : ℕ) : ℕ := idx &&& (cap - 1)

/-- `commit_with_head(int new_head)`. -/
def RingBuffer.commitWithHead (r : RingBuffer T) (newHead : ℕ) : RingBuffer T :=
  { r with head := u64 (toInt newHead) }

/-- `buf[(h + i) & mask()] = items[i]` for all `i`. -/
def writeAll (buf : ℕ → T) : ℕ → List T → ℕ → T
  | _, [] => buf
  | h, x :: xs => writeAll (Function.update buf (slot cap h) x) (h + 1) xs

def RingBuffer.push (r : RingBuffer T) (item : T) : RingBuffer T × Bool :=
  if r.size = cap then (r, false)
  else (commitWithHead { r with buf := Function.update r.buf (slot cap r.head) item } (r.head + 1), true)

def RingBuffer.pushN (r : RingBuffer T) (items : List T) : RingBuffer T × Bool :=
  if (items.length : ℤ) ≤ 0 then (r, true)
  else if toInt (u64 (cap - r.size)) < items.length then (r, false)
  else
    (commitWithHead { r with buf := writeAll cap r.buf r.head items } (r.head + items.length),
      true)

/-- The producer fills the slots with `set_buffer` and publishes them. -/
def RingBuffer.commit (r : RingBuffer T) (items : List T) : RingBuffer T :=
  commitWithHead { r with buf := writeAll cap r.buf r.head items } (r.head + items.length)

def RingBuffer.pop (r : RingBuffer T) : RingBuffer T × List T :=
  if r.head = r.tail then (r, [])
  else ({ r with tail := u64 (r.tail + 1) }, [r.buf (slot cap r.tail)])

/-- How many elements `popN` takes. -/
def RingBuffer.count (r : RingBuffer T) (n : ℤ) : ℤ := if n < toInt r.size then n else toInt r.size

def RingBuffer.popN (r : RingBuffer T) (n : ℤ) : RingBuffer T × List T :=
  if n ≤ 0 then (r, [])
  else if r.size = 0 then (r, [])
  else
    ({ r with tail := u64 (r.tail + r.count n) },
      (List.range (r.count n).toNat).map fun i => r.buf (slot cap (r.tail + i)))

-- ── Actions

inductive Action (T : Type) where
  | push (item : T)
  | pushN (items : List T)
  | commit (items : List T)
  | pop
  | popN (n : ℤ)

inductive Answer (T : Type) where
  | pushed (ok : Bool)
  | committed
  | popped (items : List T)

def ringStep (r : RingBuffer T) : Action T → RingBuffer T × Answer T
  | .push item => ((r.push cap item).1, .pushed (r.push cap item).2)
  | .pushN items => ((r.pushN cap items).1, .pushed (r.pushN cap items).2)
  | .commit items => (r.commit cap items, .committed)
  | .pop => ((r.pop cap).1, .popped (r.pop cap).2)
  | .popN n => ((r.popN cap n).1, .popped (r.popN cap n).2)

/-- A bounded queue, and how many elements have been put into it. -/
structure Fifo (T : Type) where
  queue : List T
  pushed : ℕ

def Fifo.put (f : Fifo T) (items : List T) : Fifo T := ⟨f.queue ++ items, f.pushed + items.length⟩

/-- All or nothing. -/
def Fifo.offer (f : Fifo T) (items : List T) : Fifo T × Answer T :=
  if f.queue.length + items.length ≤ cap then (f.put items, .pushed true) else (f, .pushed false)

def Fifo.take (f : Fifo T) (n : ℕ) : Fifo T × Answer T :=
  (⟨f.queue.drop n, f.pushed⟩, .popped (f.queue.take n))

def fifoStep (f : Fifo T) : Action T → Fifo T × Answer T
  | .push item => f.offer cap [item]
  | .pushN items => f.offer cap items
  | .commit items => (f.put items, .committed)
  | .pop => f.take 1
  | .popN n => f.take n.toNat

/-- What the API asks of the producer: the length of an array is an `int`, and only free slots are committed. -/
def Legal (f : Fifo T) : Action T → Prop
  | .pushN items => items.length < 2 ^ 31
  | .commit items => f.queue.length + items.length ≤ cap
  | _ => True

/-- The ring after a run from its construction, and the queue. -/
def ringRun (r : RingBuffer T) (as : List (Action T)) : RingBuffer T × List (Answer T) :=
  run (ringStep cap) r as

def fifoRun (as : List (Action T)) : Fifo T × List (Answer T) := run (fifoStep cap) ⟨[], 0⟩ as

/-- At every point of the run the ring has answered as the queue, and head and tail are as far
    apart as the queue is long. -/
def Refines (buf : ℕ → T) (as : List (Action T)) : Prop :=
  ∀ bs, bs <+: as → (ringRun cap ⟨0, 0, buf⟩ bs).2 = (fifoRun cap bs).2 ∧
    (ringRun cap ⟨0, 0, buf⟩ bs).1.size = (fifoRun cap bs).1.queue.length ∧
    (fifoRun cap bs).1.queue.length ≤ cap

-- ── Numbers

theorem toInt_of_lt (h : n < 2 ^ 31) : toInt n = n := Int.bmod_eq_of_le (by omega) (by omega)

/-- From 2^31 to 2^32 the `int` is negative. -/
theorem toInt_of_ge (hge : 2 ^ 31 ≤ n) (hlt : n < 2 ^ 32) : toInt n = (n : ℤ) - 2 ^ 32 := by
  unfold toInt
  rw [Int.bmod_def]
  omega

theorem u64_natCast (h : n < 2 ^ 64) : u64 n = n := by
  unfold u64
  omega

theorem slot_eq_mod {cap k : ℕ} (hcap : cap = 2 ^ k) (idx : ℕ) : slot cap idx = idx % cap := by
  unfold slot
  rw [hcap, Nat.and_two_pow_sub_one_eq_mod]

-- ── Writing and reading slots

variable {cap} {buf : ℕ → T}

/-- Slots that are not written keep their element. -/
theorem writeAll_other {h : ℕ} {items : List T} {s : ℕ}
    (hs : ∀ i < items.length, slot cap (h + i) ≠ s) : writeAll cap buf h items s = buf s := by
  induction items generalizing buf h with
  | nil => rfl
  | cons x xs ih =>
    have hfirst : slot cap h ≠ s := hs 0 (Nat.zero_lt_succ _)
    show writeAll cap (update buf (slot cap h) x) (h + 1) xs s = buf s
    rw [ih, update_of_ne hfirst.symm]
    intro i hi
    have hne := hs (i + 1) (Nat.succ_lt_succ hi)
    rwa [show h + (i + 1) = h + 1 + i by omega] at hne

/-- Positions within a lap have different slots. -/
theorem slot_inj {k a b : ℕ} (hcap : cap = 2 ^ k) (hne : a ≠ b) (hab : a < b + cap) (hba : b < a + cap) :
    slot cap a ≠ slot cap b := by
  rw [slot_eq_mod hcap, slot_eq_mod hcap]
  exact slot_ne hne hab hba

theorem writeAll_get {k : ℕ} (hcap : cap = 2 ^ k) {h : ℕ} {items : List T}
    (hlen : items.length ≤ cap) {i : ℕ} (hi : i < items.length) :
    writeAll cap buf h items (slot cap (h + i)) = items[i] := by
  induction items generalizing buf h i with
  | nil => exact absurd hi (Nat.not_lt_zero i)
  | cons x xs ih =>
    rw [length_cons] at hlen hi
    show writeAll cap (update buf (slot cap h) x) (h + 1) xs (slot cap (h + i)) = _
    cases i with
    | zero =>
      rw [writeAll_other]
      · exact update_self ..
      · intro j hj
        exact slot_inj hcap (by omega) (by omega) (by omega)
    | succ i =>
      rw [show h + (i + 1) = h + 1 + i by omega, ih (by omega) (by omega)]
      rfl

-- ── The ring stands for a queue

/-- The ring holds the elements of the queue, and the 2^31-th element has not been pushed. -/
structure Rel (cap : ℕ) (r : RingBuffer T) (f : Fifo T) : Prop where
  head : r.head = f.pushed
  tail : r.tail + f.queue.length = f.pushed
  le : f.queue.length ≤ cap
  lt : f.pushed < 2 ^ 31
  get : ∀ i (h : i < f.queue.length), r.buf (slot cap (r.tail + i)) = f.queue[i]

variable {r : RingBuffer T} {f : Fifo T} {k : ℕ} {as : List (Action T)} {a : Action T}

theorem Rel.size (h : Rel cap r f) : r.size = f.queue.length := by
  have hhead := h.head
  have htail := h.tail
  have hlt := h.lt
  unfold RingBuffer.size u64
  omega

section

variable (f : Fifo T) (r : RingBuffer T) (items : List T)

theorem commit_head : (r.commit cap items).head = u64 (toInt (r.head + items.length)) := by
  simp only [RingBuffer.commit, commitWithHead]

theorem commit_tail : (r.commit cap items).tail = r.tail := by
  cases r
  rfl

theorem commit_buf : (r.commit cap items).buf = writeAll cap r.buf r.head items := by
  simp only [RingBuffer.commit, commitWithHead]

theorem put_queue : (f.put items).queue = f.queue ++ items := rfl

theorem put_pushed : (f.put items).pushed = f.pushed + items.length := rfl

end

section

variable (h : Rel cap r f) {a : Action T}
include h

/-- Elements that fit are appended. -/
theorem Rel.commit (hcap : cap = 2 ^ k) {items : List T}
    (hfit : f.queue.length + items.length ≤ cap) (hlt : f.pushed + items.length < 2 ^ 31) :
    Rel cap (r.commit cap items) (f.put items) := by
  have hhead := h.head
  have htail := h.tail
  have hlen : (f.put items).queue.length = f.queue.length + items.length := by
    rw [put_queue, length_append]
  refine ⟨?_, ?_, ?_, hlt, ?_⟩
  · rw [commit_head, put_pushed, toInt_of_lt (by omega), u64_natCast (by omega), hhead]
  · rw [commit_tail, put_pushed]
    omega
  · rw [hlen]
    exact hfit
  · intro i hi
    simp only [commit_buf, commit_tail, put_queue]
    by_cases hold : i < f.queue.length
    · rw [getElem_append_left hold, writeAll_other, h.get i hold]
      intro j hj
      exact slot_inj hcap (by omega) (by omega) (by omega)
    · rw [getElem_append_right (Nat.not_lt.mp hold), show r.tail + i = r.head + (i - f.queue.length) by omega]
      exact writeAll_get hcap (by omega) (by omega)

/-- Elements at the front are taken. -/
theorem Rel.take {n : ℕ} (hn : n ≤ f.queue.length) :
    Rel cap ⟨r.head, r.tail + n, r.buf⟩ ⟨f.queue.drop n, f.pushed⟩ := by
  have htail := h.tail
  have hle := h.le
  refine ⟨h.head, ?_, ?_, h.lt, ?_⟩
  · show r.tail + n + (f.queue.drop n).length = f.pushed
    rw [length_drop]
    omega
  · rw [length_drop]
    omega
  · intro i hi
    have hi' : i < f.queue.length - n := by
      rw [← length_drop]
      exact hi
    rw [getElem_drop, Nat.add_assoc]
    exact h.get (n + i) (by omega)

/-- What is read from the front. -/
theorem Rel.read {n : ℕ} (hn : n ≤ f.queue.length) :
    ((List.range n).map fun i => r.buf (slot cap (r.tail + i))) = f.queue.take n := by
  apply ext_getElem
  · rw [length_map, length_range, length_take]
    omega
  · intro i hi _
    rw [length_map, length_range] at hi
    rw [getElem_map, getElem_range, getElem_take]
    exact h.get i (by omega)

-- ── One operation

/-- The elements an action puts into the queue. -/
def Action.items : Action T → Option (List T)
  | .push item => some [item]
  | .pushN items => some items
  | .commit items => some items
  | .pop => none
  | .popN _ => none

/-- The ring does the same as the queue, and both gave the answer `ans`. -/
def Same (cap : ℕ) (r r' : RingBuffer T) (f f' : Fifo T) (a : Action T) : Prop :=
  ∃ ans, ringStep cap r a = (r', ans) ∧ fifoStep cap f a = (f', ans)

theorem Rel.commit_nil : r.commit cap [] = r := by
  have hlt := h.lt
  have hhead := h.head
  have hsame : u64 (toInt (r.head + 0)) = r.head := by
    rw [toInt_of_lt (by omega), u64_natCast (by omega), Nat.add_zero]
  unfold RingBuffer.commit commitWithHead
  simp only [length_nil, hsame]
  rfl

/-- `static_cast<int>(free_slots)`. -/
theorem Rel.free (hk : cap ≤ 2 ^ 30) : toInt (u64 (cap - r.size)) = (cap : ℤ) - f.queue.length := by
  have hle := h.le
  have hfree : u64 (cap - r.size) = cap - f.queue.length := by
    rw [h.size]
    unfold u64
    omega
  rw [toInt_of_lt (by omega)]
  omega

/-- There is room: the elements are appended. -/
theorem Rel.accept (hk : cap ≤ 2 ^ 30) {items : List T}
    (hitems : a.items = some items) (hfit : f.queue.length + items.length ≤ cap) :
    Same cap r (r.commit cap items) f (f.put items) a := by
  cases a with
  | push item =>
    cases hitems
    have hfit : f.queue.length + 1 ≤ cap := hfit
    refine ⟨.pushed true, ?_, ?_⟩
    · have hroom : ¬ r.size = cap := by
        rw [h.size]
        omega
      have hpush : r.push cap item = (r.commit cap [item], true) := if_neg hroom
      show ((r.push cap item).1, Answer.pushed (r.push cap item).2) = _
      rw [hpush]
    · exact if_pos hfit
  | pushN items' =>
    cases hitems
    refine ⟨.pushed true, ?_, if_pos hfit⟩
    have hpush : r.pushN cap items = (r.commit cap items, true) := by
      unfold pushN
      by_cases hnil : (items.length : ℤ) ≤ 0
      · have hempty : items = [] := eq_nil_of_length_eq_zero (by omega)
        rw [if_pos hnil, hempty, h.commit_nil]
      · rw [if_neg hnil, if_neg (by rw [h.free hk]; omega)]
        rfl
    show ((r.pushN cap items).1, Answer.pushed (r.pushN cap items).2) = _
    rw [hpush]
  | commit items' =>
    cases hitems
    exact ⟨.committed, rfl, rfl⟩
  | pop | popN n => cases hitems

/-- There is no room: the elements are refused. -/
theorem Rel.refuse (hk : cap ≤ 2 ^ 30) {items : List T} (hlegal : Legal cap f a) (hitems : a.items = some items)
    (hfull : ¬ f.queue.length + items.length ≤ cap) : Same cap r r f f a := by
  have hle := h.le
  cases a with
  | push item =>
    cases hitems
    have hfull' : ¬ f.queue.length + 1 ≤ cap := hfull
    refine ⟨.pushed false, ?_, if_neg hfull⟩
    have hroom : r.size = cap := by
      rw [h.size]
      omega
    have hpush : r.push cap item = (r, false) := if_pos hroom
    show ((r.push cap item).1, Answer.pushed (r.push cap item).2) = _
    rw [hpush]
  | pushN items' =>
    cases hitems
    refine ⟨.pushed false, ?_, if_neg hfull⟩
    have hpush : r.pushN cap items = (r, false) := by
      unfold pushN
      rw [if_neg (by omega), if_pos (by rw [h.free hk]; omega)]
    show ((r.pushN cap items).1, Answer.pushed (r.pushN cap items).2) = _
    rw [hpush]
  | commit items' =>
    cases hitems
    exact absurd hlegal hfull
  | pop | popN n => cases hitems

end

/-- How many elements a consumer asks for. -/
def Action.asked : Action T → ℕ
  | .pop => 1
  | .popN n => n.toNat
  | _ => 0

/-- The ring without its first `n` elements. -/
def RingBuffer.drop (r : RingBuffer T) (n : ℕ) : RingBuffer T := ⟨r.head, r.tail + n, r.buf⟩

theorem take_min (l : List T) (n : ℕ) : l.take (min n l.length) = l.take n := by
  rcases Nat.le_total n l.length with hle | hge
  · rw [Nat.min_eq_left hle]
  · rw [Nat.min_eq_right hge, take_length, take_of_length_le hge]

theorem drop_min (l : List T) (n : ℕ) : l.drop (min n l.length) = l.drop n := by
  rcases Nat.le_total n l.length with hle | hge
  · rw [Nat.min_eq_left hle]
  · rw [Nat.min_eq_right hge, drop_length, drop_of_length_le hge]

theorem Rel.pop (h : Rel cap r f) :
    r.pop cap = (r.drop (min 1 f.queue.length), f.queue.take (min 1 f.queue.length)) := by
  have htail := h.tail
  have hhead := h.head
  have hlt := h.lt
  unfold RingBuffer.pop
  by_cases hnil : f.queue.length = 0
  · rw [if_pos (by omega), hnil]
    rfl
  · rw [if_neg (by omega), Nat.min_eq_left (by omega), ← h.read (show 1 ≤ f.queue.length by omega)]
    have hnext : u64 ((r.tail : ℤ) + 1) = r.tail + 1 := by
      unfold u64
      omega
    rw [hnext]
    rfl

theorem Rel.popN (h : Rel cap r f) (n : ℤ) :
    r.popN cap n = (r.drop (min n.toNat f.queue.length), f.queue.take (min n.toNat f.queue.length)) := by
  have htail := h.tail
  have hlt := h.lt
  have hsize := h.size
  unfold RingBuffer.popN
  by_cases hn : n ≤ 0
  · rw [if_pos hn, Int.toNat_of_nonpos hn]
    rfl
  by_cases hnil : f.queue.length = 0
  · rw [if_neg hn, if_pos (by omega), hnil, Nat.min_zero]
    rfl
  · have hcount : r.count n = (min n.toNat f.queue.length : ℕ) := by
      unfold RingBuffer.count
      rw [toInt_of_lt (by omega)]
      split <;> omega
    have hnext : u64 ((r.tail : ℤ) + (min n.toNat f.queue.length : ℕ)) = r.tail + min n.toNat f.queue.length := by
      unfold u64
      omega
    rw [if_neg hn, if_neg (by omega), hcount, Int.toNat_natCast, hnext, h.read (Nat.min_le_right ..)]
    rfl

/-- Elements are taken from the front, as many as there are. -/
theorem Rel.consume (h : Rel cap r f) (hitems : a.items = none) : Same cap r (r.drop (min a.asked f.queue.length)) f
      ⟨f.queue.drop (min a.asked f.queue.length), f.pushed⟩ a := by
  cases a with
  | push item | pushN items | commit items => cases hitems
  | pop =>
    refine ⟨.popped (f.queue.take 1), ?_, ?_⟩
    · show ((r.pop cap).1, Answer.popped (r.pop cap).2) = _
      rw [h.pop, take_min]
      rfl
    · rw [drop_min]
      rfl
  | popN n =>
    refine ⟨.popped (f.queue.take n.toNat), ?_, ?_⟩
    · show ((r.popN cap n).1, Answer.popped (r.popN cap n).2) = _
      rw [h.popN, take_min]
      rfl
    · rw [drop_min]
      rfl

-- ── Runs

theorem Same.answers {r' : RingBuffer T} {f' : Fifo T} (h : Same cap r r' f f' a) :
    (ringStep cap r a).1 = r' ∧ (fifoStep cap f a).1 = f' ∧ (ringStep cap r a).2 = (fifoStep cap f a).2 := by
  obtain ⟨ans, hr, hf⟩ := h
  rw [hr, hf]
  exact ⟨rfl, rfl, rfl⟩

/-- Every operation that does not push the 2^31-th element is that of the queue. -/
theorem step_simulates (hcap : cap = 2 ^ k) (hk : cap ≤ 2 ^ 30) (r : RingBuffer T) (f : Fifo T)
    (a : Action T) (h : Rel cap r f) (hG : Legal cap f a ∧ (fifoStep cap f a).1.pushed < 2 ^ 31) :
    Rel cap (ringStep cap r a).1 (fifoStep cap f a).1 ∧ (ringStep cap r a).2 = (fifoStep cap f a).2 := by
  obtain ⟨hlegal, hlt⟩ := hG
  cases hitems : a.items with
  | some items =>
    by_cases hfit : f.queue.length + items.length ≤ cap
    · obtain ⟨hr, hf, hans⟩ := (h.accept hk hitems hfit).answers
      rw [hf] at hlt
      refine ⟨?_, hans⟩
      rw [hr, hf]
      exact h.commit hcap hfit hlt
    · obtain ⟨hr, hf, hans⟩ := (h.refuse hk hlegal hitems hfit).answers
      refine ⟨?_, hans⟩
      rw [hr, hf]
      exact h
  | none =>
    obtain ⟨hr, hf, hans⟩ := (h.consume hitems).answers
    refine ⟨?_, hans⟩
    rw [hr, hf]
    exact h.take (Nat.min_le_right ..)

/-- The operation that pushes the 2^31-th element: the head is now 2^32 behind 2^64. -/
theorem step_breaks (hk : cap ≤ 2 ^ 30) (h : Rel cap r f) (hlegal : Legal cap f a)
    (hge : 2 ^ 31 ≤ (fifoStep cap f a).1.pushed) : (ringStep cap r a).1.size ≠ (fifoStep cap f a).1.queue.length := by
  have hlt := h.lt
  have htail := h.tail
  have hhead := h.head
  cases hitems : a.items with
  | some items =>
    by_cases hfit : f.queue.length + items.length ≤ cap
    · obtain ⟨hr, hf, -⟩ := (h.accept hk hitems hfit).answers
      rw [hf, put_pushed] at hge
      rw [hr, hf, put_queue, length_append]
      unfold RingBuffer.size
      rw [commit_head, commit_tail, toInt_of_ge (by omega) (by omega)]
      unfold u64
      omega
    · obtain ⟨-, hf, -⟩ := (h.refuse hk hlegal hitems hfit).answers
      rw [hf] at hge
      omega
  | none =>
    obtain ⟨-, hf, -⟩ := (h.consume hitems).answers
    rw [hf] at hge
    exact absurd hge (Nat.not_le.mpr hlt)

theorem offer_pushed (cap : ℕ) (f : Fifo T) (items : List T) : f.pushed ≤ (f.offer cap items).1.pushed := by
  unfold Fifo.offer
  split
  · exact Nat.le_add_right ..
  · exact le_rfl

theorem pushed_le (cap : ℕ) (f : Fifo T) (a : Action T) : f.pushed ≤ (fifoStep cap f a).1.pushed := by
  cases a with
  | push item => exact offer_pushed cap f [item]
  | pushN items => exact offer_pushed cap f items
  | commit items => exact Nat.le_add_right ..
  | pop | popN n => exact le_rfl

/-- A run that ends below 2^31 elements has been below all the time. -/
theorem along_bounded {f : Fifo T} (hlegal : Along (fifoStep cap) (Legal cap) f as)
    (hlt : (run (fifoStep cap) f as).1.pushed < 2 ^ 31) :
    Along (fifoStep cap) (fun f a => Legal cap f a ∧ (fifoStep cap f a).1.pushed < 2 ^ 31) f as := by
  induction as generalizing f with
  | nil => trivial
  | cons a as ih =>
    obtain ⟨ha, hrest⟩ := hlegal
    have hle : (fifoStep cap f a).1.pushed ≤ (run (fifoStep cap) (fifoStep cap f a).1 as).1.pushed :=
      le_run (fun s b => pushed_le cap s b) _ as
    exact ⟨⟨ha, Nat.lt_of_le_of_lt hle hlt⟩, ih hrest hlt⟩

theorem Rel.init (cap : ℕ) (buf : ℕ → T) : Rel cap ⟨0, 0, buf⟩ ⟨[], 0⟩ :=
  ⟨rfl, rfl, Nat.zero_le _, Nat.two_pow_pos 31, fun i h => absurd h (Nat.not_lt_zero i)⟩

/-- The ring follows the queue through every run of fewer than 2^31 elements. -/
theorem run_rel (hcap : cap = 2 ^ k) (hk : cap ≤ 2 ^ 30) (buf : ℕ → T)
    (hlegal : Along (fifoStep cap) (Legal cap) ⟨[], 0⟩ as) (hlt : (fifoRun cap as).1.pushed < 2 ^ 31) :
    Rel cap (ringRun cap ⟨0, 0, buf⟩ as).1 (fifoRun cap as).1 ∧ (ringRun cap ⟨0, 0, buf⟩ as).2 = (fifoRun cap as).2 :=
  run_simulates (step_simulates hcap hk) (Rel.init cap buf) (along_bounded hlegal hlt)

theorem ringRun_append (r : RingBuffer T) (bs : List (Action T)) (a : Action T) :
    (ringRun cap r (bs ++ [a])).1 = (ringStep cap (ringRun cap r bs).1 a).1 := by
  unfold ringRun
  rw [run_append]
  rfl

theorem fifoRun_append (bs : List (Action T)) (a : Action T) :
    (fifoRun cap (bs ++ [a])).1 = (fifoStep cap (fifoRun cap bs).1 a).1 := by
  unfold fifoRun
  rw [run_append]
  rfl

/-- A run that refines the queue has not pushed the 2^31-th element: that operation breaks the
    distance of the cursors. -/
theorem pushed_lt_of_refines (hcap : cap = 2 ^ k) (hk : cap ≤ 2 ^ 30)
    (hlegal : Along (fifoStep cap) (Legal cap) ⟨[], 0⟩ as) (href : Refines cap buf as) :
    (fifoRun cap as).1.pushed < 2 ^ 31 := by
  induction as using reverseRecOn with
  | nil => exact Nat.two_pow_pos 31
  | append_singleton bs a ih =>
    obtain ⟨hbs, ha⟩ := (along_append _ bs [a]).mp hlegal
    have hlt := ih hbs fun cs hcs => href cs (hcs.trans (prefix_append bs [a]))
    by_contra hge
    obtain ⟨hrel, -⟩ := run_rel hcap hk buf hbs hlt
    obtain ⟨-, hsize, -⟩ := href (bs ++ [a]) (prefix_refl _)
    rw [ringRun_append, fifoRun_append] at hsize
    rw [fifoRun_append] at hge
    exact step_breaks hk hrel ha.1 (Nat.not_lt.mp hge) hsize

theorem refines_of_pushed_lt (hcap : cap = 2 ^ k) (hk : cap ≤ 2 ^ 30)
    (hlegal : Along (fifoStep cap) (Legal cap) ⟨[], 0⟩ as) (hlt : (fifoRun cap as).1.pushed < 2 ^ 31) :
    Refines cap buf as := by
  rintro bs ⟨cs, rfl⟩
  have hle : (fifoRun cap bs).1.pushed ≤ (fifoRun cap (bs ++ cs)).1.pushed := by
    unfold fifoRun
    rw [run_append]
    exact le_run (fun s b => pushed_le cap s b) _ cs
  obtain ⟨hrel, hans⟩ :=
    run_rel hcap hk buf ((along_append _ bs cs).mp hlegal).1 (Nat.lt_of_le_of_lt hle hlt)
  exact ⟨hans, hrel.size, hrel.le⟩

/-- **The ring buffer is a bounded queue** as long as fewer than 2^31 elements have been pushed, and no longer: exactly
    then the answers to the producer and the consumer are those of the queue, and head and tail stay as far apart as it
    is long. -/
theorem ring_refines_iff (hcap : cap = 2 ^ k) (hk : k ≤ 30) (buf : ℕ → T) (as : List (Action T))
    (hlegal : Along (fifoStep cap) (Legal cap) ⟨[], 0⟩ as) :
    Refines cap buf as ↔ (fifoRun cap as).1.pushed < 2 ^ 31 := by
  have hk : cap ≤ 2 ^ 30 := by
    rw [hcap]
    exact Nat.pow_le_pow_right (by decide) hk
  exact ⟨pushed_lt_of_refines hcap hk hlegal, refines_of_pushed_lt hcap hk hlegal⟩

/-- Five operations on a ring of four slots. -/
def mixed : List (Action ℕ) := [.push 1, .pushN [2, 3], .pop, .popN 5, .commit [4]]

theorem ring_refines_mixed : Refines 4 (fun _ => 0) mixed := by
  have hcommit : 0 + 1 ≤ 4 := by decide
  have hint : 2 < 2 ^ 31 := by decide
  exact (ring_refines_iff (k := 2) rfl (by decide) _ mixed
    ⟨trivial, hint, trivial, trivial, hcommit, trivial⟩).mpr (by decide +kernel)

-- ── After 2^31 elements

/-- An element goes in and comes out, `n` times. -/
def laps (item : T) : ℕ → List (Action T)
  | 0 => []
  | n + 1 => laps item n ++ [.push item, .pop]

theorem laps_fifo (hcap : 0 < cap) (item : T) (n : ℕ) :
    (fifoRun cap (laps item n)).1 = ⟨[], n⟩ ∧ Along (fifoStep cap) (Legal cap) ⟨[], 0⟩ (laps item n) := by
  induction n with
  | zero => exact ⟨rfl, trivial⟩
  | succ n ih =>
    obtain ⟨hrun, hlegal⟩ := ih
    have hpush : fifoStep cap ⟨[], n⟩ (.push item) = (⟨[item], n + 1⟩, .pushed true) :=
      if_pos (show 0 + 1 ≤ cap from hcap)
    constructor
    · show (fifoRun cap (laps item n ++ ([.push item] ++ [.pop]))).1 = _
      rw [← append_assoc, fifoRun_append, fifoRun_append, hrun, hpush]
      rfl
    · exact (along_append _ (laps item n) _).mpr ⟨hlegal, trivial, trivial, trivial⟩

/-- No run of so many elements is that of a queue. -/
theorem laps_not_refines (hcap : cap = 2 ^ k) (hk : cap ≤ 2 ^ 30) (buf : ℕ → T) (item : T)
    (hn : 2 ^ 31 ≤ n) : ∃ as : List (Action T), Along (fifoStep cap) (Legal cap) ⟨[], 0⟩ as ∧ ¬ Refines cap buf as := by
  have hpos : 0 < cap := by
    rw [hcap]
    exact Nat.two_pow_pos k
  obtain ⟨hrun, hlegal⟩ := laps_fifo hpos item n
  refine ⟨laps item n, hlegal, ?_⟩
  intro href
  have hlt := pushed_lt_of_refines hcap hk hlegal href
  rw [hrun] at hlt
  exact Nat.not_le.mpr hlt hn

/-- With 2^31 - 1 elements pushed and popped the next push sign-extends the head; a run that goes
    so far is not that of a queue. -/
theorem ring_breaks_after_laps :
    (ringStep 2048 ⟨2 ^ 31 - 1, 2 ^ 31 - 1, fun _ => 0⟩ (.push 7)).1.head = 2 ^ 64 - 2 ^ 31 ∧
      ∃ as : List (Action ℕ), Along (fifoStep 2048) (Legal 2048) ⟨[], 0⟩ as ∧ ¬ Refines 2048 (fun _ => 0) as :=
  ⟨by decide +kernel, laps_not_refines (k := 11) rfl (by decide) _ 7 (le_rfl)⟩

end EpRingBuffer
