import Mathlib.Algebra.Ring.Nat
import Mathlib.Algebra.Order.BigOperators.Group.Finset

/-! # Messages cut into numbered chunks

    Several messages are cut into chunks and the chunks of all of them are numbered in one sequence, the LOG,
    in which the messages may interleave. A chunk says which message it belongs to, how many bytes it carries,
    and whether it is the last of its message.

    A log is well cut when no chunk follows the last one of its message. Then whoever has everything up to a
    last chunk has the whole message (`WellCut.le_of_last`), and the bytes of any set of chunks that covers
    the message add up to it (`sum_byteAt_eq`). -/

namespace Segmentation

open List

variable {M : Type}

/-- One chunk of a message. -/
structure Chunk (M : Type) where
  msg : M
  len : ℕ
  last : Bool

variable {log : List (Chunk M)}

/-- No last chunk of the message is in the log. -/
def Open (log : List (Chunk M)) (m : M) : Prop := ∀ c ∈ log, c.msg = m → c.last = false

/-- A chunk that another chunk of its message follows is not the last one. -/
def WellCut (log : List (Chunk M)) : Prop :=
  log.Pairwise fun a b => a.msg = b.msg → a.last = false

theorem open_append {c : Chunk M} {m : M} : Open (log ++ [c]) m ↔ Open log m ∧ (c.msg = m → c.last = false) := by
  unfold Open
  rw [forall_mem_append, forall_mem_singleton]

section

variable (h : WellCut log) {c : Chunk M}
include h

theorem WellCut.append (hc : Open log c.msg) : WellCut (log ++ [c]) := by
  refine pairwise_append.mpr ⟨h, pairwise_singleton _ _, fun a ha b hb hab => ?_⟩
  rw [mem_singleton.mp hb] at hab
  exact hc a ha hab

theorem WellCut.take (n : ℕ) : WellCut (log.take n) := h.sublist (take_sublist n log)

/-- Before any of its chunks, a message is open. -/
theorem WellCut.open_take {k : ℕ} (hc : log[k]? = some c) : Open (log.take k) c.msg := by
  intro d hd hmsg
  obtain ⟨i, hi⟩ := mem_iff_getElem?.mp hd
  obtain ⟨hlt, -⟩ := List.getElem?_eq_some_iff.mp hi
  have hik : i < k := Nat.lt_of_lt_of_le hlt (length_take_le k log)
  rw [getElem?_take_of_lt hik] at hi
  obtain ⟨hi', rfl⟩ := List.getElem?_eq_some_iff.mp hi
  obtain ⟨hk', rfl⟩ := List.getElem?_eq_some_iff.mp hc
  exact pairwise_iff_getElem.mp h i k hi' hk' hik hmsg

/-- **THE LAST CHUNK COMES LAST.** -/
theorem WellCut.le_of_last {j k : ℕ} {d : Chunk M} (hc : log[k]? = some c)
    (hlast : c.last = true) (hd : log[j]? = some d) (hmsg : d.msg = c.msg) : j ≤ k := by
  by_contra hlt
  obtain ⟨hk', rfl⟩ := List.getElem?_eq_some_iff.mp hc
  obtain ⟨hj', rfl⟩ := List.getElem?_eq_some_iff.mp hd
  have := pairwise_iff_getElem.mp h k j hk' hj' (Nat.not_le.mp hlt) hmsg.symm
  rw [hlast] at this
  cases this

/-- A message has at most one last chunk. -/
theorem WellCut.lasts_nodup : ((log.filter Chunk.last).map Chunk.msg).Nodup := by
  refine pairwise_map.mpr ((h.filter Chunk.last).imp_of_mem ?_)
  intro a b ha hb hab heq
  have hlast := (mem_filter.mp ha).2
  rw [hab heq] at hlast
  cases hlast

end

-- ── Bytes

section

variable [DecidableEq M] {c : Chunk M} {k : ℕ} {m : M} {ks : List ℕ}

/-- The bytes of a chunk if it belongs to the message. -/
def lenFor (m : M) (c : Chunk M) : ℕ := if c.msg = m then c.len else 0

/-- The bytes of the message in the log. -/
def bytes (log : List (Chunk M)) (m : M) : ℕ := (log.map (lenFor m)).sum

/-- The bytes of the message at one number. -/
def byteAt (log : List (Chunk M)) (m : M) (k : ℕ) : ℕ := (log[k]?.map (lenFor m)).getD 0

theorem bytes_append (log : List (Chunk M)) (c : Chunk M) (m : M) :
    bytes (log ++ [c]) m = bytes log m + lenFor m c := by
  unfold bytes
  rw [map_append, sum_append, map_singleton, sum_singleton]

theorem lenFor_of_ne (h : c.msg ≠ m) : lenFor m c = 0 := if_neg h

/-- A message without chunks has no bytes. -/
theorem bytes_eq_zero (h : ∀ c ∈ log, c.msg ≠ m) : bytes log m = 0 := by
  refine sum_eq_zero fun n hn => ?_
  obtain ⟨c, hc, rfl⟩ := mem_map.mp hn
  exact lenFor_of_ne (h c hc)

theorem byteAt_append (log : List (Chunk M)) (c : Chunk M) (m : M) (hk : k < log.length) :
    byteAt (log ++ [c]) m k = byteAt log m k := by
  unfold byteAt
  rw [getElem?_append_left hk]

theorem byteAt_of_getElem? (h : log[k]? = some c) (m : M) : byteAt log m k = lenFor m c := by
  unfold byteAt
  rw [h]
  rfl

theorem bytes_eq_sum (log : List (Chunk M)) (m : M) : bytes log m = ∑ k ∈ Finset.range log.length, byteAt log m k := by
  have hmap : log.map (lenFor m) = (range log.length).map (byteAt log m) := by
    refine ext_getElem (by rw [length_map, length_map, length_range]) ?_
    intro k hk _
    rw [length_map] at hk
    rw [getElem_map, getElem_map, getElem_range, byteAt_of_getElem? (getElem?_eq_getElem hk)]
  rw [bytes, hmap]
  rfl

/-- Different numbers carry no more bytes of the message than there are. -/
theorem sum_byteAt_le (hnd : ks.Nodup) (hks : ∀ k ∈ ks, k < log.length) (m : M) :
    (ks.map (byteAt log m)).sum ≤ bytes log m := by
  rw [bytes_eq_sum, ← sum_toFinset _ hnd]
  refine Finset.sum_le_sum_of_subset fun k hk => ?_
  exact Finset.mem_range.mpr (hks k (mem_toFinset.mp hk))

/-- A chunk has no more bytes than its message. -/
theorem len_le_bytes (h : log[k]? = some c) : c.len ≤ bytes log c.msg := by
  obtain ⟨hk, -⟩ := List.getElem?_eq_some_iff.mp h
  have hle := sum_byteAt_le (nodup_singleton k) (forall_mem_singleton.mpr hk) c.msg
  rwa [map_singleton, sum_singleton, byteAt_of_getElem? h, lenFor, if_pos rfl] at hle

/-- **A COVERED MESSAGE IS COMPLETE**: different numbers that include all chunks of the
    message carry all of its bytes. -/
theorem sum_byteAt_eq (hnd : ks.Nodup) (hks : ∀ k ∈ ks, k < log.length)
    (hall : ∀ k c, log[k]? = some c → c.msg = m → k ∈ ks) : (ks.map (byteAt log m)).sum = bytes log m := by
  rw [bytes_eq_sum, ← sum_toFinset _ hnd]
  refine Finset.sum_subset (fun k hk => ?_) fun k hk hnot => ?_
  · exact Finset.mem_range.mpr (hks k (mem_toFinset.mp hk))
  · have hget := getElem?_eq_getElem (Finset.mem_range.mp hk)
    rw [byteAt_of_getElem? hget]
    refine if_neg fun hmsg => hnot (mem_toFinset.mpr (hall k _ hget hmsg))

end

-- ── Lists of numbered things

section

variable {A : Type} {P Q : ℕ → A → Prop}

/-- The elements of the list, numbered from `n` on, are related to their numbers. -/
def Numbered (P : ℕ → A → Prop) : ℕ → List A → Prop
  | _, [] => True
  | n, a :: l => P n a ∧ Numbered P (n + 1) l

theorem Numbered.imp (h : ∀ n a, P n a → Q n a) : ∀ {n : ℕ} {l : List A}, Numbered P n l → Numbered Q n l := by
  intro n l
  induction l generalizing n with
  | nil => exact fun _ => trivial
  | cons a l ih => exact fun hl => ⟨h n a hl.1, ih hl.2⟩

theorem numbered_append {n : ℕ} {l l' : List A} :
    Numbered P n (l ++ l') ↔ Numbered P n l ∧ Numbered P (n + l.length) l' := by
  induction l generalizing n with
  | nil => exact ⟨fun h => ⟨trivial, h⟩, fun h => h.2⟩
  | cons a l ih =>
    have hlen : n + (a :: l).length = n + 1 + l.length := by
      rw [length_cons]
      omega
    rw [hlen]
    exact (and_congr_right fun _ => ih).trans (and_assoc ..).symm

theorem Numbered.drop {n k : ℕ} {l : List A} (h : Numbered P n l) (hk : k ≤ l.length) :
    Numbered P (n + k) (l.drop k) := by
  rw [← take_append_drop k l, numbered_append, length_take_of_le hk] at h
  exact h.2

theorem Numbered.take {n : ℕ} {l : List A} (h : Numbered P n l) (k : ℕ) : Numbered P n (l.take k) := by
  rw [← take_append_drop k l, numbered_append] at h
  exact h.1

theorem Numbered.get {n i : ℕ} {l : List A} (h : Numbered P n l) {a : A} (ha : l[i]? = some a) : P (n + i) a := by
  induction l generalizing n i with
  | nil => cases ha
  | cons b l ih =>
    cases i with
    | zero =>
      rw [← Option.some.inj ha]
      exact h.1
    | succ i =>
      rw [Nat.add_comm i, ← Nat.add_assoc]
      exact ih h.2 ha

theorem Numbered.mem {n : ℕ} {l : List A} (h : Numbered P n l) {a : A} (ha : a ∈ l) :
    ∃ k, n ≤ k ∧ k < n + l.length ∧ P k a := by
  obtain ⟨i, hi⟩ := mem_iff_getElem?.mp ha
  obtain ⟨hlt, -⟩ := List.getElem?_eq_some_iff.mp hi
  exact ⟨n + i, Nat.le_add_right _ _, Nat.add_lt_add_left hlt n, h.get hi⟩

end

end Segmentation
