import Mathlib.Data.List.Perm.Basic
import Mathlib.Data.List.Nodup

/-! # Resources between a common store and their holders

    A fixed set of resources circulates: each is in a common store or held by one of the holders, or it has
    been lost. `Owned` says that no resource is in two places; the moves are `give` (from the store to a
    holder), `reclaim` (back to the store) and `tail` (lost). Holders are named by any type. -/

namespace Ownership

open List

variable {H B : Type} {loose loose' : List B} {held held' : H → List B} {b : B} {f : H}

/-- Every resource is in one place, and there once. -/
structure Owned (loose : List B) (held : H → List B) : Prop where
  loose_nodup : loose.Nodup
  held_nodup : ∀ f, (held f).Nodup
  apart : ∀ f, ∀ b ∈ held f, b ∉ loose
  single : ∀ f g b, b ∈ held f → b ∈ held g → f = g

/-- Moving resources around inside the store. -/
theorem Owned.perm (h : Owned loose held) (hp : loose.Perm loose') : Owned loose' held :=
  ⟨hp.nodup_iff.mp h.loose_nodup, h.held_nodup, fun f b hb hl => h.apart f b hb (hp.mem_iff.mpr hl), h.single⟩

section

variable (h : Owned (b :: loose) held)
include h

/-- A resource is lost. -/
theorem Owned.tail : Owned loose held :=
  ⟨(nodup_cons.mp h.loose_nodup).2, h.held_nodup, fun f c hc hl => h.apart f c hc (mem_cons_of_mem b hl), h.single⟩

/-- Nobody holds what is in the store. -/
theorem Owned.not_held (f : H) : b ∉ held f := fun hb => h.apart f b hb (mem_cons_self)

/-- **GIVE**: a resource leaves the store for the holder `f`. -/
theorem Owned.give (hself : (held' f).Perm (b :: held f))
    (hother : ∀ g, g ≠ f → held' g = held g) : Owned loose held' := by
  obtain ⟨hb, hnd⟩ := nodup_cons.mp h.loose_nodup
  -- a resource of the new holder is `b` or was its own before
  have hmem : ∀ g c, c ∈ held' g → (g = f ∧ c = b) ∨ c ∈ held g := by
    intro g c hc
    by_cases hg : g = f
    · subst hg
      rcases mem_cons.mp (hself.mem_iff.mp hc) with hcb | hc
      · exact .inl ⟨rfl, hcb⟩
      · exact .inr hc
    · exact .inr (hother g hg ▸ hc)
  refine ⟨hnd, fun g => ?_, fun g c hc => ?_, fun g k c hg hk => ?_⟩
  · by_cases hg : g = f
    · subst hg
      exact hself.nodup_iff.mpr (nodup_cons.mpr ⟨h.not_held g, h.held_nodup g⟩)
    · rw [hother g hg]
      exact h.held_nodup g
  · rcases hmem g c hc with ⟨-, rfl⟩ | hc
    · exact hb
    · exact fun hl => h.apart g c hc (mem_cons_of_mem b hl)
  · rcases hmem g c hg with ⟨rfl, rfl⟩ | hg
    · rcases hmem k c hk with ⟨rfl, -⟩ | hk
      · rfl
      · exact absurd hk (h.not_held k)
    · rcases hmem k c hk with ⟨rfl, rfl⟩ | hk
      · exact absurd hg (h.not_held g)
      · exact h.single g k c hg hk

end

/-- **RECLAIM**: the holder `f` puts a resource back. -/
theorem Owned.reclaim (h : Owned loose held) (hself : (held f).Perm (b :: held' f))
    (hother : ∀ g, g ≠ f → held' g = held g) : Owned (b :: loose) held' := by
  have hbf : b ∈ held f := hself.mem_iff.mpr (mem_cons_self)
  obtain ⟨hb, hnd⟩ := nodup_cons.mp (hself.nodup_iff.mp (h.held_nodup f))
  have hsub : ∀ g c, c ∈ held' g → c ∈ held g := by
    intro g c hc
    by_cases hg : g = f
    · subst hg
      exact hself.mem_iff.mpr (mem_cons_of_mem b hc)
    · exact hother g hg ▸ hc
  refine ⟨nodup_cons.mpr ⟨h.apart f b hbf, h.loose_nodup⟩, fun g => ?_, fun g c hc => ?_,
    fun g k c hg hk => h.single g k c (hsub g c hg) (hsub k c hk)⟩
  · by_cases hg : g = f
    · subst hg
      exact hnd
    · rw [hother g hg]
      exact h.held_nodup g
  · intro hl
    rcases mem_cons.mp hl with rfl | hl
    · -- `b` has left `f`, and no one else ever had it
      by_cases hg : g = f
      · subst hg
        exact hb hc
      · exact hg (h.single g f c (hsub g c hc) hbf)
    · exact h.apart g c (hsub g c hc) hl

/-- Taking out the element that `find?` finds only reorders the list. -/
theorem perm_cons_eraseP_of_find? {p : B → Bool} {l : List B} {a : B}
    (h : l.find? p = some a) : l.Perm (a :: l.eraseP p) := by
  induction l with
  | nil => cases h
  | cons c l ih =>
    by_cases hc : p c = true
    · rw [find?_cons_of_pos hc] at h
      rw [eraseP_cons_of_pos hc, Option.some.inj h]
    · rw [find?_cons_of_neg hc] at h
      rw [eraseP_cons_of_neg hc]
      exact ((ih h).cons c).trans (List.Perm.swap a c _)

end Ownership
