import Uccl.RegionProofs
import Uccl.TilingProofs

/-! # Transfers over chunked memory registrations

    With DMA-BUF a buffer may be registered as several chunks, each with a key of its own. `split_for_chunks`
    walks the chunks of the two ends at once and cuts a transfer into segments that lie in one chunk of each;
    the caller lets the last segment carry the signal or the immediate.

    A distance to the end of a chunk is a 64-bit number that the loop narrows to 32 bits. The loop is modelled
    with fuel: it terminates if some fuel gives a result. -/

namespace EpSegments

open Region Tiling List Nat

-- ── Chunks

/-- `MRChunk` and `RemoteMRChunk`: a range of the 64-bit address space and its key. -/
structure MRChunk where
  base : ℕ
  len : ℕ
  key : ℕ
  base_lt : base < 2 ^ 64
  len_lt : len < 2 ^ 64
  fits : base + len ≤ 2 ^ 64

/-- `c.base + c.len` in 64 bits: 0 for a chunk that ends with the address space. -/
def MRChunk.stop (c : MRChunk) : ℕ := (c.base + c.len) % 2 ^ 64

/-- `addr >= c.base && addr < c.base + c.len`. -/
def MRChunk.Holds (c : MRChunk) (addr : ℕ) : Prop := c.base ≤ addr ∧ addr < c.stop
deriving Decidable

/-- The address is in the chunk. -/
def MRChunk.Has (c : MRChunk) (addr : ℕ) : Prop := c.base ≤ addr ∧ addr < c.base + c.len
deriving Decidable

/-- One end of a transfer: its chunks, and the key of the registration used without chunks. -/
structure Side where
  chunks : List MRChunk
  mr : ℕ

def Side.find (e : Side) (addr : ℕ) : Option MRChunk := e.chunks.find? fun c => decide (c.Holds addr)

/-- `lkey_for`, `rkey_for`. -/
def Side.keyFor (e : Side) (addr : ℕ) : ℕ := (e.find addr).elim e.mr MRChunk.key

/-- The loop over the chunks that shortens a segment: `avail` is the distance to the end of the
    chunk, narrowed to 32 bits. -/
def Side.clip (e : Side) (addr segLen : ℕ) : ℕ :=
  (e.find addr).elim segLen fun c => min segLen ((c.stop - addr) % 2 ^ 32)

-- ── Splitting

structure WRSegment where
  laddr : ℕ
  lkey : ℕ
  raddr : ℕ
  rkey : ℕ
  len : ℕ
deriving DecidableEq, Repr

/-- The arguments of `split_for_chunks` and what it reads of the context. -/
structure Transfer where
  gpu : Side
  remote : Side
  laddr : ℕ
  raddr : ℕ
  totalLen : ℕ
  laddr_lt : laddr < 2 ^ 64
  raddr_lt : raddr < 2 ^ 64
  totalLen_lt : totalLen < 2 ^ 32

/-- `addr + off` in 64 bits. -/
def shift (addr off : ℕ) : ℕ := (addr + off) % 2 ^ 64

def Transfer.segLen (t : Transfer) (off : ℕ) : ℕ :=
  t.remote.clip (shift t.raddr off) (t.gpu.clip (shift t.laddr off) (t.totalLen - off))

def Transfer.segment (t : Transfer) (off len : ℕ) : WRSegment :=
  ⟨shift t.laddr off, t.gpu.keyFor (shift t.laddr off), shift t.raddr off,
    t.remote.keyFor (shift t.raddr off), len⟩

/-- `while (off < total_len)`. -/
def splitLoop (t : Transfer) : ℕ → ℕ → Option (List WRSegment)
  | 0, _ => none
  | fuel + 1, off =>
    if off < t.totalLen then
      (splitLoop t fuel (off + t.segLen off)).map (t.segment off (t.segLen off) :: ·)
    else some []

def Transfer.Single (t : Transfer) : Prop := t.gpu.chunks.length ≤ 1 ∧ t.remote.chunks.length ≤ 1
deriving Decidable

def splitForChunks (t : Transfer) (fuel : ℕ) : Option (List WRSegment) :=
  if t.Single then
    some [⟨t.laddr, t.gpu.keyFor t.laddr, t.raddr, t.remote.keyFor t.raddr, t.totalLen⟩]
  else splitLoop t fuel 0

-- ── What a transfer should become

/-- No address is in two chunks. -/
def Side.Disjoint (e : Side) : Prop :=
  e.chunks.Pairwise fun c c' => Apart (c.base, c.len) (c'.base, c'.len)
deriving Decidable

/-- The range is covered by the chunks, and so is the start of an empty range. Without chunks one registration
    covers everything. -/
def Side.Covers (e : Side) (start len : ℕ) : Prop :=
  e.chunks = [] ∧ start + len ≤ 2 ^ 64 ∨ ∀ k < max 1 len, ∃ c ∈ e.chunks, c.Has (start + k)

instance (e : Side) (start len : ℕ) : Decidable (e.Covers start len) :=
  inferInstanceAs (Decidable (_ ∧ _ ∨ ∀ k < max 1 len, ∃ c ∈ e.chunks, c.Has (start + k)))

/-- The range lies in one chunk, and `key` is its key. -/
def Side.Inside (e : Side) (start len key : ℕ) : Prop :=
  e.chunks = [] ∧ key = e.mr ∨
    ∃ c ∈ e.chunks, c.base ≤ start ∧ start + len ≤ c.base + c.len ∧ key = c.key

/-- Some segments, one after the other on both ends, each in one chunk of each end. -/
structure Transfer.Tiled (t : Transfer) (segs : List WRSegment) : Prop where
  ne_nil : segs ≠ []
  laddrs : Tiles t.laddr t.totalLen (segs.map fun seg => (seg.laddr, seg.len))
  raddrs : Tiles t.raddr t.totalLen (segs.map fun seg => (seg.raddr, seg.len))
  gpu : ∀ seg ∈ segs, t.gpu.Inside seg.laddr seg.len seg.lkey
  remote : ∀ seg ∈ segs, t.remote.Inside seg.raddr seg.len seg.rkey

/-- No position of the range is a multiple of 2^32 bytes before the end of its chunk. -/
def Side.Flowing (e : Side) (start len : ℕ) : Prop :=
  ∀ c ∈ e.chunks, c.base + c.len < 2 ^ 64 → ∀ k < len, c.Has (start + k) →
    ¬ 2 ^ 32 ∣ c.base + c.len - (start + k)

instance (e : Side) (start len : ℕ) : Decidable (e.Flowing start len) :=
  inferInstanceAs (Decidable (∀ c ∈ e.chunks, _ → ∀ k < len, c.Has (start + k) → ¬ _))

/-- A chunk that ends with the address space is never found; it has to have the key that is used when none is found. -/
def Side.Keyed (e : Side) (start len : ℕ) : Prop :=
  ∀ c ∈ e.chunks, c.base + c.len = 2 ^ 64 → ∀ k < max 1 len, c.Has (start + k) → c.key = e.mr

instance (e : Side) (start len : ℕ) : Decidable (e.Keyed start len) :=
  inferInstanceAs (Decidable (∀ c ∈ e.chunks, _ → ∀ k < max 1 len, c.Has (start + k) → _))

-- ── Looking up a chunk

variable {e : Side} {t : Transfer} {c c' : MRChunk} {addr start len off n k fuel : ℕ} {segs : List WRSegment}

theorem MRChunk.holds_iff : c.Holds addr ↔ c.Has addr ∧ c.base + c.len < 2 ^ 64 := by
  have hfits := c.fits
  unfold MRChunk.Holds MRChunk.Has MRChunk.stop
  rcases Nat.lt_or_eq_of_le hfits with hlt | heq
  · omega
  · omega

theorem find_some (h : e.find addr = some c) : c ∈ e.chunks ∧ c.Has addr ∧ c.base + c.len < 2 ^ 64 := by
  have hholds : c.Holds addr := by
    have hdec := find?_some h
    exact of_decide_eq_true hdec
  exact ⟨mem_of_find?_eq_some h, MRChunk.holds_iff.mp hholds⟩

/-- Where none is found, the address is in no chunk or in one that ends with the address space. -/
theorem find_none (h : e.find addr = none) (hc : c ∈ e.chunks) (hin : c.Has addr) : c.base + c.len = 2 ^ 64 := by
  have hnot : ¬ c.Holds addr := by
    have hdec := find?_eq_none.mp h c hc
    simpa using hdec
  have hfits := c.fits
  rcases Nat.lt_or_eq_of_le hfits with hlt | heq
  · exact absurd (MRChunk.holds_iff.mpr ⟨hin, hlt⟩) hnot
  · exact heq

theorem keyFor_of_some (h : e.find addr = some c) : e.keyFor addr = c.key := by
  unfold Side.keyFor
  rw [h]
  rfl

theorem keyFor_of_none (h : e.find addr = none) : e.keyFor addr = e.mr := by
  unfold Side.keyFor
  rw [h]
  rfl

theorem clip_of_some (h : e.find addr = some c) : e.clip addr n = min n ((c.base + c.len - addr) % 2 ^ 32) := by
  have hstop : c.stop = c.base + c.len := mod_eq_of_lt (find_some h).2.2
  unfold Side.clip
  rw [h]
  show min n ((c.stop - addr) % 2 ^ 32) = _
  rw [hstop]

theorem clip_of_none (h : e.find addr = none) : e.clip addr n = n := by
  unfold Side.clip
  rw [h]
  rfl

theorem clip_le (e : Side) (addr n : ℕ) : e.clip addr n ≤ n := by
  cases h : e.find addr with
  | none => exact Nat.le_of_eq (clip_of_none h)
  | some c =>
    rw [clip_of_some h]
    exact Nat.min_le_left ..

theorem Side.Disjoint.apart (h : e.Disjoint) (hc : c ∈ e.chunks) (hc' : c' ∈ e.chunks) (hne : c ≠ c') :
    Apart (c.base, c.len) (c'.base, c'.len) := by
  exact List.Pairwise.forall h hc hc' hne

/-- Two chunks that have an address in common are one. -/
theorem Side.Disjoint.eq (h : e.Disjoint) (hc : c ∈ e.chunks) (hc' : c' ∈ e.chunks) (ha : c.Has addr)
    (ha' : c'.Has addr) : c = c' := by
  by_contra hne
  have hap := h.apart hc hc' hne
  obtain ⟨h1, h2⟩ := ha
  obtain ⟨h3, h4⟩ := ha'
  unfold Apart at hap
  omega

theorem Side.Covers.end_le (h : e.Covers start len) : start + len ≤ 2 ^ 64 := by
  rcases h with ⟨-, hle⟩ | hcov
  · exact hle
  · obtain ⟨c, -, -, hlt⟩ := hcov (max 1 len - 1) (by omega)
    have hfits := c.fits
    omega

/-- An address of a covered range is in a chunk, unless there are none. -/
theorem Side.Covers.has (h : e.Covers start len) (hne : e.chunks ≠ []) (hk : k < max 1 len) :
    ∃ c ∈ e.chunks, c.Has (start + k) := by
  rcases h with ⟨hnil, -⟩ | hcov
  · exact absurd hnil hne
  · exact hcov k hk

theorem find_nil (h : e.chunks = []) (addr : ℕ) : e.find addr = none := by
  unfold Side.find
  rw [h]
  rfl

theorem shift_of_covers (h : e.Covers start len) (hoff : off < len) : shift start off = start + off :=
  mod_eq_of_lt (by have hle := h.end_le; omega)

-- ── One segment

/-- What is left of a segment after clipping lies in one chunk and has its key. -/
theorem inside_of_clip {m : ℕ} (hcov : e.Covers start len) (hkey : e.Keyed start len) (hoff : off < len)
    (hn : n ≤ e.clip (start + off) m) (hend : off + n ≤ len) : e.Inside (start + off) n (e.keyFor (start + off)) := by
  have hend' := hcov.end_le
  cases h : e.find (start + off) with
  | some c =>
    obtain ⟨hc, ⟨hge, hlt⟩, -⟩ := find_some h
    rw [clip_of_some h] at hn
    exact .inr ⟨c, hc, hge, by omega, keyFor_of_some h⟩
  | none =>
    rw [keyFor_of_none h]
    by_cases hnil : e.chunks = []
    · exact .inl ⟨hnil, rfl⟩
    · obtain ⟨c, hc, hin⟩ := hcov.has hnil (show off < max 1 len by omega)
      have hstop := find_none h hc hin
      refine .inr ⟨c, hc, hin.1, by omega, ?_⟩
      exact (hkey c hc hstop off (by omega) hin).symm

/-- Clipping leaves something, unless the end of the chunk is a multiple of 2^32 away. -/
theorem clip_pos (hflow : e.Flowing start len) (hoff : off < len) (hn : 0 < n) : 0 < e.clip (start + off) n := by
  cases h : e.find (start + off) with
  | none =>
    rw [clip_of_none h]
    exact hn
  | some c =>
    obtain ⟨hc, hin, hlt⟩ := find_some h
    have hnot := hflow c hc hlt off hoff hin
    rw [clip_of_some h]
    omega

/-- A segment does not pass a position that is a multiple of 2^32 bytes before the end of its
    chunk, and has no length there. -/
theorem clip_le_of_stall (hd : e.Disjoint) (hcov : e.Covers start len) (hlen : len < 2 ^ 32)
    (hc : c ∈ e.chunks) (hlt : c.base + c.len < 2 ^ 64) (hk : k < len) (hin : c.Has (start + k))
    (hdvd : 2 ^ 32 ∣ c.base + c.len - (start + k)) (hoff : off ≤ k) : e.clip (start + off) n ≤ k - off := by
  obtain ⟨hge, hend⟩ := hin
  have hnil : e.chunks ≠ [] := ne_nil_of_mem hc
  obtain ⟨c', hc', hin'⟩ := hcov.has hnil (show off < max 1 len by omega)
  obtain ⟨hge', hend'⟩ := hin'
  by_cases heq : c' = c
  · -- in the chunk of the position: the distance to its end is `k - off` and a multiple of 2^32
    rw [heq] at hge' hend'
    cases h : e.find (start + off) with
    | none => exact absurd (find_none h hc ⟨hge', hend'⟩) (Nat.ne_of_lt hlt)
    | some c'' =>
      obtain ⟨hc'', hin'', -⟩ := find_some h
      have hsame : c'' = c := hd.eq hc'' hc hin'' ⟨hge', hend'⟩
      rw [clip_of_some h, hsame]
      obtain ⟨q, hq⟩ := hdvd
      have hdist : c.base + c.len - (start + off) = k - off + 2 ^ 32 * q := by omega
      rw [hdist, add_mul_mod_self_left, mod_eq_of_lt (by omega)]
      exact Nat.min_le_right ..
  · -- in a chunk before it: that one ends where the chunk of the position starts, or before
    have hap := hd.apart hc' hc heq
    have hbefore : c'.base + c'.len ≤ c.base := by
      unfold Apart at hap
      omega
    cases h : e.find (start + off) with
    | none =>
      have hstop := find_none h hc' ⟨hge', hend'⟩
      omega
    | some c'' =>
      obtain ⟨hc'', hin'', -⟩ := find_some h
      have hsame : c'' = c' := hd.eq hc'' hc' hin'' ⟨hge', hend'⟩
      rw [clip_of_some h, hsame]
      omega

-- ── The loop

theorem splitLoop_of_lt (fuel : ℕ) (h : off < t.totalLen) : splitLoop t (fuel + 1) off =
      (splitLoop t fuel (off + t.segLen off)).map (t.segment off (t.segLen off) :: ·) := if_pos h

theorem splitLoop_of_le (fuel : ℕ) (h : t.totalLen ≤ off) : splitLoop t (fuel + 1) off = some [] :=
  if_neg (Nat.not_lt.mpr h)

theorem segLen_le (t : Transfer) (off : ℕ) : t.segLen off ≤ t.totalLen - off := Nat.le_trans (clip_le ..) (clip_le ..)

/-- The rest of the transfer from `off` on, tiled. -/
structure Rest (t : Transfer) (off : ℕ) (segs : List WRSegment) : Prop where
  ne_nil : off < t.totalLen → segs ≠ []
  laddrs : Tiles (t.laddr + off) (t.totalLen - off) (segs.map fun seg => (seg.laddr, seg.len))
  raddrs : Tiles (t.raddr + off) (t.totalLen - off) (segs.map fun seg => (seg.raddr, seg.len))
  gpu : ∀ seg ∈ segs, t.gpu.Inside seg.laddr seg.len seg.lkey
  remote : ∀ seg ∈ segs, t.remote.Inside seg.raddr seg.len seg.rkey

/-- One round of the loop. -/
theorem Rest.cons (hg : t.gpu.Covers t.laddr t.totalLen)
    (hr : t.remote.Covers t.raddr t.totalLen) (hkg : t.gpu.Keyed t.laddr t.totalLen)
    (hkr : t.remote.Keyed t.raddr t.totalLen) (hoff : off < t.totalLen)
    (h : Rest t (off + t.segLen off) segs) : Rest t off (t.segment off (t.segLen off) :: segs) := by
  have hla := shift_of_covers hg hoff
  have hra := shift_of_covers hr hoff
  have hle := segLen_le t off
  have hsub : t.totalLen - (off + t.segLen off) = t.totalLen - off - t.segLen off := by omega
  have hladdrs := h.laddrs
  have hraddrs := h.raddrs
  rw [hsub, ← Nat.add_assoc] at hladdrs hraddrs
  refine ⟨fun _ => cons_ne_nil _ _, ⟨hla, hle, hladdrs⟩, ⟨hra, hle, hraddrs⟩, ?_, ?_⟩
  · intro seg hseg
    rcases mem_cons.mp hseg with rfl | hseg
    · have hin := inside_of_clip hg hkg hoff
        (show t.segLen off ≤ t.gpu.clip (t.laddr + off) (t.totalLen - off) from ?_) (by omega)
      · rw [← hla] at hin
        exact hin
      · rw [← hla]
        exact clip_le ..
    · exact h.gpu seg hseg
  · intro seg hseg
    rcases mem_cons.mp hseg with rfl | hseg
    · have hin := inside_of_clip hr hkr hoff (show t.segLen off ≤ t.remote.clip (t.raddr + off)
          (t.gpu.clip (shift t.laddr off) (t.totalLen - off)) from ?_) (by omega)
      · rw [← hra] at hin
        exact hin
      · rw [← hra]
        exact le_rfl
    · exact h.remote seg hseg

/-- The loop ends and tiles what is left. -/
theorem splitLoop_rest (hg : t.gpu.Covers t.laddr t.totalLen) (hr : t.remote.Covers t.raddr t.totalLen)
    (hkg : t.gpu.Keyed t.laddr t.totalLen) (hkr : t.remote.Keyed t.raddr t.totalLen)
    (hfg : t.gpu.Flowing t.laddr t.totalLen) (hfr : t.remote.Flowing t.raddr t.totalLen) (fuel : ℕ)
    (off : ℕ) (hfuel : t.totalLen - off < fuel) : ∃ segs, splitLoop t fuel off = some segs ∧ Rest t off segs := by
  -- every round moves `off` on, so what is left bounds the number of rounds
  induction fuel generalizing off with
  | zero => omega
  | succ fuel ih =>
    by_cases hoff : off < t.totalLen
    · have hpos : 0 < t.segLen off := by
        unfold Transfer.segLen
        rw [shift_of_covers hg hoff, shift_of_covers hr hoff]
        exact clip_pos hfr hoff (clip_pos hfg hoff (by omega))
      obtain ⟨segs, hsegs, hrest⟩ := ih (off + t.segLen off) (by omega)
      refine ⟨_, ?_, hrest.cons hg hr hkg hkr hoff⟩
      rw [splitLoop_of_lt fuel hoff, hsegs]
      rfl
    · have hzero : t.totalLen - off = 0 := by omega
      exact ⟨[], splitLoop_of_le fuel (by omega), ⟨fun h => absurd h hoff, hzero, hzero,
        forall_mem_nil _, forall_mem_nil _⟩⟩

/-- The loop does not get past a position where the segments have no length. -/
theorem splitLoop_stall (hk : k < t.totalLen)
    (hstall : ∀ off ≤ k, t.segLen off ≤ k - off) (fuel : ℕ) (off : ℕ) (hoff : off ≤ k) :
    splitLoop t fuel off = none := by
  induction fuel generalizing off with
  | zero => rfl
  | succ fuel ih =>
    have hle := hstall off hoff
    rw [splitLoop_of_lt fuel (by omega), ih _ (by omega)]
    rfl

/-- The keys of the segments are those that were looked up. -/
theorem splitLoop_keys (h : splitLoop t fuel off = some segs) :
    ∀ seg ∈ segs, seg.lkey = t.gpu.keyFor seg.laddr ∧ seg.rkey = t.remote.keyFor seg.raddr := by
  induction fuel generalizing off segs with
  | zero => cases h
  | succ fuel ih =>
    by_cases hoff : off < t.totalLen
    · rw [splitLoop_of_lt fuel hoff] at h
      obtain ⟨rest, hrest, rfl⟩ := Option.map_eq_some_iff.mp h
      intro seg hseg
      rcases mem_cons.mp hseg with rfl | hseg
      · exact ⟨rfl, rfl⟩
      · exact ih hrest seg hseg
    · rw [splitLoop_of_le fuel (by omega)] at h
      cases h
      exact forall_mem_nil _

-- ── The keys

/-- The start of a range is in a chunk that ends with the address space: no chunk is found. -/
theorem find_none_of_stop (hd : e.Disjoint) (hc : c ∈ e.chunks) (hstop : c.base + c.len = 2 ^ 64)
    (hin : c.Has addr) : e.find addr = none := by
  cases h : e.find addr with
  | none => rfl
  | some c' =>
    obtain ⟨hc', hin', hlt⟩ := find_some h
    rw [hd.eq hc' hc hin' hin] at hlt
    omega

/-- Pieces that lie in their chunks and carry the keys that were looked up. -/
theorem keyed_of_tiles {P : Type} {l : List P} {a m key : P → ℕ} (hd : e.Disjoint) (hpos : 0 < len)
    (htiles : Tiles start len (l.map fun p => (a p, m p)))
    (hin : ∀ p ∈ l, e.Inside (a p) (m p) (key p)) (hkey : ∀ p ∈ l, key p = e.keyFor (a p)) : e.Keyed start len := by
  intro c hc hstop k hk hhas
  obtain ⟨q, hq, hge, hlt⟩ := htiles.exists_mem (show k < len by omega)
  obtain ⟨p, hp, rfl⟩ := mem_map.mp hq
  rcases hin p hp with ⟨hnil, -⟩ | ⟨c', hc', hbase, hend, hc'key⟩
  · exact absurd hnil (ne_nil_of_mem hc)
  · have hsame : c' = c := hd.eq hc' hc ⟨by omega, by omega⟩ hhas
    rw [hsame] at hbase hend hc'key
    have hnone := find_none_of_stop hd hc hstop ⟨hbase, show a p < _ by omega⟩
    rw [← hc'key, hkey p hp, keyFor_of_none hnone]

/-- Without chunks, or with one, the whole range is one segment. -/
theorem inside_single (hone : e.chunks.length ≤ 1) (hcov : e.Covers start len) :
    e.Inside start len (e.keyFor start) ↔ e.Keyed start len := by
  cases hl : e.chunks with
  | nil =>
    refine iff_of_true (.inl ⟨hl, keyFor_of_none (find_nil hl _)⟩) ?_
    intro c hc
    rw [hl] at hc
    exact absurd hc not_mem_nil
  | cons c rest =>
    have hrest : rest = [] := by
      rw [hl, length_cons] at hone
      exact eq_nil_of_length_eq_zero (by omega)
    subst hrest
    have hmem : c ∈ e.chunks := by
      rw [hl]
      exact mem_singleton_self c
    have honly : ∀ c' ∈ e.chunks, c' = c := by
      intro c' hc'
      rw [hl] at hc'
      exact mem_singleton.mp hc'
    have hhas : ∀ k < max 1 len, c.Has (start + k) := by
      intro k hk
      obtain ⟨c', hc', hin⟩ := hcov.has (ne_nil_of_mem hmem) hk
      rwa [honly c' hc'] at hin
    have hfirst := hhas 0 (by omega)
    have hlast := (hhas (max 1 len - 1) (by omega)).2
    constructor
    · intro hin c' hc' hstop k hk hk'
      rw [honly c' hc'] at hstop ⊢
      have hnone : e.find start = none := by
        cases h : e.find start with
        | none => rfl
        | some c'' =>
          obtain ⟨hc'', -, hlt⟩ := find_some h
          rw [honly c'' hc''] at hlt
          omega
      rw [keyFor_of_none hnone] at hin
      rcases hin with ⟨hnil, -⟩ | ⟨c'', hc'', -, -, hkey⟩
      · exact absurd hnil (ne_nil_of_mem hmem)
      · rw [honly c'' hc''] at hkey
        exact hkey.symm
    · intro hkey
      have hfit : c.base ≤ start ∧ start + len ≤ c.base + c.len := ⟨hfirst.1, by omega⟩
      refine .inr ⟨c, hmem, hfit.1, hfit.2, ?_⟩
      cases h : e.find start with
      | some c' => rw [keyFor_of_some h, honly c' (find_some h).1]
      | none =>
        rw [keyFor_of_none h]
        exact (hkey c hmem (find_none h hmem hfirst) 0 (by omega) hfirst).symm

-- ── Splitting a transfer

theorem splitForChunks_single (h : t.Single) (fuel : ℕ) : splitForChunks t fuel =
      some [⟨t.laddr, t.gpu.keyFor t.laddr, t.raddr, t.remote.keyFor t.raddr, t.totalLen⟩] := if_pos h

theorem splitForChunks_loop (h : ¬ t.Single) (fuel : ℕ) : splitForChunks t fuel = splitLoop t fuel 0 := if_neg h

/-- The one segment of a transfer without chunks to cross. -/
theorem tiled_single_iff (hsingle : t.Single) (hg : t.gpu.Covers t.laddr t.totalLen)
    (hr : t.remote.Covers t.raddr t.totalLen) :
    t.Tiled [⟨t.laddr, t.gpu.keyFor t.laddr, t.raddr, t.remote.keyFor t.raddr, t.totalLen⟩] ↔
      t.gpu.Keyed t.laddr t.totalLen ∧ t.remote.Keyed t.raddr t.totalLen := by
  rw [← inside_single hsingle.1 hg, ← inside_single hsingle.2 hr]
  constructor
  · intro h
    exact ⟨h.gpu _ (mem_singleton_self _), h.remote _ (mem_singleton_self _)⟩
  · rintro ⟨hing, hinr⟩
    have hzero : t.totalLen - t.totalLen = 0 := Nat.sub_self _
    refine ⟨cons_ne_nil _ _, ⟨rfl, le_rfl, hzero⟩, ⟨rfl, le_rfl, hzero⟩, ?_, ?_⟩
    · intro seg hseg
      obtain rfl := mem_singleton.mp hseg
      exact hing
    · intro seg hseg
      obtain rfl := mem_singleton.mp hseg
      exact hinr

/-- A loop that ends has met no position where the segments have no length. -/
theorem flowing_of_splitLoop (hd : e.Disjoint) (hcov : e.Covers start t.totalLen)
    (hclip : ∀ off < t.totalLen, ∃ m, t.segLen off ≤ e.clip (start + off) m)
    (h : splitLoop t fuel 0 = some segs) : e.Flowing start t.totalLen := by
  intro c hc hlt k hk hin hdvd
  have hstall : ∀ off ≤ k, t.segLen off ≤ k - off := by
    intro off hoff
    obtain ⟨m, hm⟩ := hclip off (by omega)
    exact Nat.le_trans hm (clip_le_of_stall hd hcov t.totalLen_lt hc hlt hk hin hdvd hoff)
  rw [splitLoop_stall hk hstall fuel 0 (Nat.zero_le k)] at h
  cases h

theorem segLen_le_gpu (hg : t.gpu.Covers t.laddr t.totalLen) (h : off < t.totalLen) :
    ∃ m, t.segLen off ≤ t.gpu.clip (t.laddr + off) m := by
  refine ⟨t.totalLen - off, ?_⟩
  rw [← shift_of_covers hg h]
  exact clip_le ..

theorem segLen_le_remote (hr : t.remote.Covers t.raddr t.totalLen) (h : off < t.totalLen) :
    ∃ m, t.segLen off ≤ t.remote.clip (t.raddr + off) m := by
  refine ⟨t.gpu.clip (shift t.laddr off) (t.totalLen - off), ?_⟩
  rw [← shift_of_covers hr h]
  exact le_rfl

/-- **Splitting a transfer ends and tiles it**, with a last segment for the signal, exactly when no position is a
    multiple of 2^32 bytes before the end of its chunk and, with several chunks, the transfer is not empty. (A chunk
    that ends with the address space is not found: its key has to be that of the single registration.) -/
theorem split_tiles_iff (t : Transfer) (hdg : t.gpu.Disjoint) (hdr : t.remote.Disjoint)
    (hg : t.gpu.Covers t.laddr t.totalLen) (hr : t.remote.Covers t.raddr t.totalLen) :
    (∃ fuel segs, splitForChunks t fuel = some segs ∧ t.Tiled segs) ↔
      t.gpu.Keyed t.laddr t.totalLen ∧ t.remote.Keyed t.raddr t.totalLen ∧
        (t.Single ∨ 0 < t.totalLen ∧ t.gpu.Flowing t.laddr t.totalLen ∧ t.remote.Flowing t.raddr t.totalLen) := by
  by_cases hsingle : t.Single
  · constructor
    · rintro ⟨fuel, segs, hsegs, htiled⟩
      rw [splitForChunks_single hsingle] at hsegs
      cases hsegs
      obtain ⟨hkg, hkr⟩ := (tiled_single_iff hsingle hg hr).mp htiled
      exact ⟨hkg, hkr, .inl hsingle⟩
    · rintro ⟨hkg, hkr, -⟩
      exact ⟨0, _, splitForChunks_single hsingle 0, (tiled_single_iff hsingle hg hr).mpr ⟨hkg, hkr⟩⟩
  · constructor
    · rintro ⟨fuel, segs, hsegs, htiled⟩
      rw [splitForChunks_loop hsingle] at hsegs
      have hpos : 0 < t.totalLen := by
        by_contra hzero
        cases fuel with
        | zero => cases hsegs
        | succ fuel =>
          rw [splitLoop_of_le fuel (by omega)] at hsegs
          cases hsegs
          exact htiled.ne_nil rfl
      have hkeys := splitLoop_keys hsegs
      exact ⟨keyed_of_tiles hdg hpos htiled.laddrs htiled.gpu fun seg hseg => (hkeys seg hseg).1,
        keyed_of_tiles hdr hpos htiled.raddrs htiled.remote fun seg hseg => (hkeys seg hseg).2,
        .inr ⟨hpos, flowing_of_splitLoop hdg hg (fun off h => segLen_le_gpu hg h) hsegs,
          flowing_of_splitLoop hdr hr (fun off h => segLen_le_remote hr h) hsegs⟩⟩
    · rintro ⟨hkg, hkr, hcase⟩
      obtain ⟨hpos, hfg, hfr⟩ := hcase.resolve_left hsingle
      obtain ⟨segs, hsegs, hrest⟩ :=
        splitLoop_rest hg hr hkg hkr hfg hfr (t.totalLen + 1) 0 (by omega)
      refine ⟨t.totalLen + 1, segs, (splitForChunks_loop hsingle _).trans hsegs, ?_⟩
      exact { hrest with ne_nil := hrest.ne_nil hpos }

/-- Two chunks of 2 GiB, side by side. -/
def twoChunks : Side :=
  ⟨[⟨2 ^ 32, 2 ^ 31, 7, by decide, by decide, by decide⟩,
    ⟨2 ^ 32 + 2 ^ 31, 2 ^ 31, 8, by decide, by decide, by decide⟩], 7⟩

/-- A peer with a single registration. -/
def oneRegistration : Side := ⟨[], 5⟩

/-- Twelve bytes across the boundary. -/
def crossing : Transfer :=
  ⟨twoChunks, oneRegistration, 2 ^ 32 + 2 ^ 31 - 4, 4096, 12, by decide, by decide, by decide⟩

theorem split_tiles_crossing : ∃ fuel segs, splitForChunks crossing fuel = some segs ∧ crossing.Tiled segs :=
  (split_tiles_iff crossing (by decide +kernel) (by decide +kernel) (by decide +kernel)
    (by decide +kernel)).mpr (by decide +kernel)

/-- Nothing to transfer. -/
def empty : Transfer :=
  ⟨twoChunks, oneRegistration, 2 ^ 32, 4096, 0, by decide, by decide, by decide⟩

/-- A chunk of 4 GiB and another one behind it. -/
def longChunks : Side :=
  ⟨[⟨2 ^ 32, 2 ^ 32, 7, by decide, by decide, by decide⟩,
    ⟨2 ^ 33, 2 ^ 31, 8, by decide, by decide, by decide⟩], 7⟩

/-- Twelve bytes from the start of the long chunk. -/
def stalled : Transfer :=
  ⟨longChunks, oneRegistration, 2 ^ 32, 4096, 12, by decide, by decide, by decide⟩

/-- An empty transfer becomes no segment at all, and one that starts 2^32 bytes before the end of a chunk never ends. -/
theorem split_empty_or_stalled :
    (∀ fuel, splitForChunks empty (fuel + 1) = some []) ∧ ∀ fuel, splitForChunks stalled fuel = none := by
  constructor
  · intro fuel
    rw [splitForChunks_loop (by decide +kernel), splitLoop_of_le fuel (by decide +kernel)]
  · intro fuel
    refine splitLoop_stall (k := 0) (by decide +kernel) ?_ fuel 0 (Nat.le_refl 0)
    intro off hoff
    obtain rfl := le_zero.mp hoff
    decide +kernel

end EpSegments
