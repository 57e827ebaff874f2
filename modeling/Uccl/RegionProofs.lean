import Mathlib.Algebra.Ring.Nat
import Mathlib.Order.Interval.Finset.Nat
import Uccl.OrderedSetProofs

/-! # Regions of an address space

    A region is a start and a length. A table of regions keyed by their starts, none of which meets another,
    is a list in ascending order (`Separated`). Whether a new region meets one of the table can be decided
    from its two neighbours alone (`clear_iff`); this is what a search tree with `lower_bound` is used for. -/

namespace Region

open List OrderedSet

variable {l : List (ℕ × ℕ)} {start len : ℕ} {r r' : ℕ × ℕ}

/-- No address is in both. -/
def Apart (r r' : ℕ × ℕ) : Prop := r.1 + r.2 ≤ r'.1 ∨ r'.1 + r'.2 ≤ r.1
deriving Decidable

theorem Apart.symm (h : Apart r r') : Apart r' r := Or.symm h

instance : Std.Symm Apart := ⟨fun _ _ h => h.symm⟩

-- ── Regions that lie side by side

/-- The addresses of a list of regions. -/
def addresses : List (ℕ × ℕ) → Finset ℕ
  | [] => ∅
  | r :: l => Finset.Ico r.1 (r.1 + r.2) ∪ addresses l

section

variable {a : ℕ} {l : List (ℕ × ℕ)} {total : ℕ}

theorem mem_addresses : a ∈ addresses l ↔ ∃ r ∈ l, r.1 ≤ a ∧ a < r.1 + r.2 := by
  induction l with
  | nil => simp [addresses]
  | cons r l ih => simp [addresses, ih]

theorem card_addresses (h : l.Pairwise Apart) : (addresses l).card = (l.map Prod.snd).sum := by
  induction l with
  | nil => rfl
  | cons r l ih =>
    obtain ⟨hr, hl⟩ := pairwise_cons.mp h
    have hdisj : Disjoint (Finset.Ico r.1 (r.1 + r.2)) (addresses l) := by
      refine Finset.disjoint_left.mpr ?_
      intro a ha hal
      obtain ⟨r', hr', hge, hlt⟩ := mem_addresses.mp hal
      obtain ⟨hge', hlt'⟩ := Finset.mem_Ico.mp ha
      rcases hr r' hr' with hap | hap <;> omega
    show (Finset.Ico r.1 (r.1 + r.2) ∪ addresses l).card = _
    rw [Finset.card_union_of_disjoint hdisj, ih hl, Nat.card_Ico, map_cons, sum_cons, Nat.add_sub_cancel_left]

/-- Regions that are apart take no more room than what they all lie in. -/
theorem sum_le_of_apart (h : l.Pairwise Apart) (hin : ∀ r ∈ l, r.1 + r.2 ≤ total) : (l.map Prod.snd).sum ≤ total := by
  have hsub : addresses l ⊆ Finset.range total := by
    intro a ha
    obtain ⟨r, hr, -, hlt⟩ := mem_addresses.mp ha
    exact Finset.mem_range.mpr (Nat.lt_of_lt_of_le hlt (hin r hr))
  calc (l.map Prod.snd).sum = (addresses l).card := (card_addresses h).symm
    _ ≤ (Finset.range total).card := Finset.card_le_card hsub
    _ = total := Finset.card_range total

/-- Regions in ascending order, each ending before the next one and the last one before `total`,
    are apart and end before `total`. -/
theorem apart_of_chain (h : List.IsChain (fun r r' : ℕ × ℕ => r.1 + r.2 ≤ r'.1) (l ++ [(total, 0)])) :
    l.Pairwise Apart ∧ ∀ r ∈ l, r.1 + r.2 ≤ total := by
  have htrans : IsTrans (ℕ × ℕ) fun r r' => r.1 + r.2 ≤ r'.1 := ⟨fun a b c hab hbc => by omega⟩
  obtain ⟨hl, -, hlast⟩ := pairwise_append.mp (isChain_iff_pairwise.mp h)
  exact ⟨hl.imp fun hle => .inl hle, fun r hr => hlast r hr _ (mem_singleton_self _)⟩

-- ── Tables

/-- The regions are not empty, ascend, and none meets another. -/
structure Separated (l : List (ℕ × ℕ)) : Prop where
  ascend : l.Pairwise fun r r' => r.1 + r.2 ≤ r'.1
  pos : ∀ r ∈ l, 0 < r.2

/-- The table from the first start that is not below `start`. -/
def lowerBound (start : ℕ) (l : List (ℕ × ℕ)) : List (ℕ × ℕ) := l.dropWhile fun r => r.1 < start

/-- The table before that. -/
def below (start : ℕ) (l : List (ℕ × ℕ)) : List (ℕ × ℕ) := l.takeWhile fun r => r.1 < start

theorem Separated.nil : Separated [] := ⟨List.Pairwise.nil, forall_mem_nil _⟩

end

section

variable (h : Separated l)
include h

theorem Separated.keys : l.Pairwise fun r r' => r.1 < r'.1 := by
  refine (List.Pairwise.and_mem.mp h.ascend).imp ?_
  intro r r' hr
  have hpos := h.pos r hr.1
  omega

theorem Separated.nodup_keys : (l.map Prod.fst).Nodup := pairwise_map.mpr (h.keys.imp fun hlt => Nat.ne_of_lt hlt)

theorem Separated.apart (hr : r ∈ l) (hr' : r' ∈ l) (hne : r ≠ r') : Apart r r' := by
  have hpair : l.Pairwise Apart := h.ascend.imp .inl
  exact hpair.forall hr hr' hne

theorem Separated.filter (p : ℕ × ℕ → Bool) : Separated (l.filter p) :=
  ⟨h.ascend.filter _, fun r hr => h.pos r (mem_filter.mp hr).1⟩

/-- Without one key the others are left. -/
theorem Separated.perm_filter {keys : List ℕ} (hperm : (start :: keys).Perm (l.map Prod.fst)) :
    keys.Perm ((l.filter fun r => decide (r.1 ≠ start)).map Prod.fst) := by
  have herase := hperm.erase start
  rw [erase_cons_head, h.nodup_keys.erase_eq_filter, filter_map] at herase
  refine herase.trans (List.Perm.of_eq (congrArg (map Prod.fst) ?_))
  refine filter_congr fun r _ => ?_
  rw [Bool.eq_iff_iff]
  simp

theorem Separated.insert (hpos : 0 < len) (hapart : ∀ r ∈ l, Apart r (start, len)) :
    Separated (OrderedSet.insert keyLt (start, len) l) := by
  have hne : ∀ r ∈ l, (start, len).1 ≠ r.1 := by
    intro r hr hkey
    have hpos' := h.pos r hr
    rcases hapart r hr with hle | hle <;> simp only at hkey hle <;> omega
  have hperm := insert_keyLt_perm hne
  have hkeys := insert_keyLt_pairwise h.keys hne
  have hmem : ∀ r ∈ OrderedSet.insert keyLt (start, len) l, r = (start, len) ∨ r ∈ l :=
    fun r hr => mem_cons.mp (hperm.subset hr)
  have hallpos : ∀ r ∈ OrderedSet.insert keyLt (start, len) l, 0 < r.2 := by
    intro r hr
    rcases hmem r hr with rfl | hr
    · exact hpos
    · exact h.pos r hr
  refine ⟨(List.Pairwise.and_mem.mp hkeys).imp ?_, hallpos⟩
  rintro r r' ⟨hr, hr', hlt⟩
  -- the starts ascend, so the one side of `Apart` is excluded
  have hside : Apart r r' → r.1 + r.2 ≤ r'.1 := by
    rintro (hle | hle)
    · exact hle
    · omega
  rcases hmem r hr with rfl | hr
  · rcases hmem r' hr' with rfl | hr'
    · exact absurd hlt (Nat.lt_irrefl _)
    · exact hside (hapart r' hr').symm
  · rcases hmem r' hr' with rfl | hr'
    · exact hside (hapart r hr)
    · refine hside (h.apart hr hr' fun heq => ?_)
      rw [heq] at hlt
      exact absurd hlt (Nat.lt_irrefl _)

/-- In an ascending table the neighbours decide. -/
theorem clear_iff (hlen : 0 < len) : ((∀ r ∈ (lowerBound start l).head?, start + len ≤ r.1) ∧
      ∀ r ∈ (below start l).getLast?, r.1 + r.2 ≤ start) ↔ ∀ r ∈ l, Apart r (start, len) := by
  have hsplit : below start l ++ lowerBound start l = l := takeWhile_append_dropWhile
  have hasc := h.ascend
  rw [← hsplit] at hasc
  obtain ⟨hbelow, habove, -⟩ := pairwise_append.mp hasc
  constructor
  · rintro ⟨hnext, hprev⟩ r hr
    rw [← hsplit] at hr
    rcases mem_append.mp hr with hr | hr
    · -- below the last one of those before
      refine .inl ?_
      rcases eq_nil_or_concat (below start l) with hnil | ⟨init, last, heq⟩
      · rw [hnil] at hr
        cases hr
      · have hlast := hprev last (by rw [heq, concat_eq_append, getLast?_concat]; rfl)
        rw [heq, concat_eq_append] at hr hbelow
        rcases mem_append.mp hr with hr | hr
        · have hle := (pairwise_append.mp hbelow).2.2 r hr last (mem_singleton_self _)
          omega
        · rw [mem_singleton.mp hr]
          exact hlast
    · refine .inr ?_
      cases heq : lowerBound start l with
      | nil =>
        rw [heq] at hr
        cases hr
      | cons first rest =>
        have hfirst := hnext first (by rw [heq]; rfl)
        rw [heq] at hr habove
        rcases mem_cons.mp hr with rfl | hr
        · exact hfirst
        · have hle := (pairwise_cons.mp habove).1 r hr
          omega
  · intro hall
    refine ⟨fun r hr => ?_, fun r hr => ?_⟩
    · have hmem : r ∈ lowerBound start l := mem_of_mem_head? hr
      have hge : ¬ r.1 < start := by
        have hhead := head?_dropWhile_not (fun r : ℕ × ℕ => decide (r.1 < start)) l
        rw [show (l.dropWhile fun r => decide (r.1 < start)).head? = some r from hr] at hhead
        simpa using hhead
      rcases hall r (hsplit ▸ mem_append_right _ hmem) with hle | hle
      · have hpos := h.pos r (hsplit ▸ mem_append_right _ hmem)
        omega
      · exact hle
    · have hmem : r ∈ below start l := mem_of_getLast? hr
      have hlt : r.1 < start := by
        have hall := all_takeWhile (p := fun r : ℕ × ℕ => decide (r.1 < start)) (l := l)
        simpa using all_eq_true.mp hall r hmem
      rcases hall r (hsplit ▸ mem_append_left _ hmem) with hle | hle
      · exact hle
      · omega

end

end Region
