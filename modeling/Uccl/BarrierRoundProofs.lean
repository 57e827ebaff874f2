import Mathlib.Data.Nat.ModEq

/-! # Rounds of a barrier

    A barrier is used again and again. Each party enters (it has called the barrier once more and waits) and
    leaves (it no longer waits). `Rounds calls waiting k` says that `k` rounds have been let go: every party
    is at most one call ahead of that, and one that does not wait has made exactly `k` calls.

    The three moves of a correct barrier keep it: a party that does not wait enters; a party whose call has
    been let go leaves; the next round is let go once everybody has entered it. `sync` is what a barrier is
    for: nobody has left a call that somebody else has not made. -/

namespace BarrierRound

/-- Counters at most one apart agree as soon as they agree modulo anything above 1: a sequence number of any width tells
    neighbouring rounds apart. -/
theorem eq_of_mod_eq {a b m : ℕ} (hm : 1 < m) (hab : a ≤ b + 1) (hba : b ≤ a + 1) (h : a % m = b % m) : a = b := by
  rcases Nat.le_total a b with hle | hle
  · have hdvd : m ∣ b - a := (Nat.modEq_iff_dvd' hle).mp h
    have hzero := Nat.eq_zero_of_dvd_of_lt hdvd (by omega)
    omega
  · have hdvd : m ∣ a - b := (Nat.modEq_iff_dvd' hle).mp h.symm
    have hzero := Nat.eq_zero_of_dvd_of_lt hdvd (by omega)
    omega

variable {ι : Type}

/-- `k` rounds have been let go. -/
structure Rounds (calls : ι → ℕ) (waiting : ι → Prop) (k : ℕ) : Prop where
  lower : ∀ r, k ≤ calls r
  upper : ∀ r, calls r ≤ k + 1
  closed : ∀ r, ¬ waiting r → calls r = k

variable {calls calls' : ι → ℕ} {waiting waiting' : ι → Prop} {k : ℕ}

section

variable (h : Rounds calls waiting k) {r : ι}
include h

/-- **SYNCHRONISATION**: a call that has been left has been made by everybody. -/
theorem Rounds.sync (hr : ¬ waiting r) (r' : ι) : calls r ≤ calls r' :=
  le_of_eq_of_le (h.closed r hr) (h.lower r')

/-- A party that does not wait enters. -/
theorem Rounds.enter (hr : ¬ waiting r) (hc : calls' r = calls r + 1) (hcs : ∀ r', r' ≠ r → calls' r' = calls r')
    (hw : waiting' r) (hws : ∀ r', r' ≠ r → (waiting' r' ↔ waiting r')) : Rounds calls' waiting' k := by
  have hk := h.closed r hr
  refine ⟨fun r' => ?_, fun r' => ?_, fun r' hr' => ?_⟩
  · by_cases heq : r' = r
    · rw [heq, hc]; omega
    · rw [hcs r' heq]; exact h.lower r'
  · by_cases heq : r' = r
    · rw [heq, hc]; omega
    · rw [hcs r' heq]; exact h.upper r'
  · have hne : r' ≠ r := fun heq => hr' (heq ▸ hw)
    rw [hcs r' hne]
    exact h.closed r' fun hw' => hr' ((hws r' hne).mpr hw')

/-- A party leaves a call that has been let go. -/
theorem Rounds.leave (hr : calls r = k)
    (hws : ∀ r', r' ≠ r → (waiting' r' ↔ waiting r')) : Rounds calls waiting' k := by
  refine ⟨h.lower, h.upper, fun r' hr' => ?_⟩
  by_cases heq : r' = r
  · rw [heq, hr]
  · exact h.closed r' fun hw => hr' ((hws r' heq).mpr hw)

/-- Who waits is all that matters about waiting. -/
theorem Rounds.congr (hws : ∀ r, waiting' r ↔ waiting r) : Rounds calls waiting' k :=
  ⟨h.lower, h.upper, fun r hr => h.closed r fun hw => hr ((hws r).mpr hw)⟩

end

/-- Everybody has made the same number of calls: nobody has yet to make one, so all of
    them may be let go, whoever waits. -/
theorem Rounds.of_forall_eq (hall : ∀ r, calls r = k) : Rounds calls waiting k :=
  ⟨fun r => (hall r).ge, fun r => (hall r).le.trans (Nat.le_succ _), fun r _ => hall r⟩

-- ── Gathering a group

/-- A leader looks at the parties of its group in turn. Those it has scanned have made as many calls as it has, unless
    it has already sent word of its own. -/
def Seen (sent : ℕ) (calls : ι → ℕ) (lead : ι) (scanned : ι → Prop) : Prop :=
  sent = calls lead ∨ ∀ r, scanned r → calls r = calls lead

/-- A party other than the leader enters from round `k`: if the leader had scanned it, the
    leader's own call is let go and its word is sent. -/
theorem Seen.enter {sent : ℕ} {lead r : ι} {scanned : ι → Prop} (h : Seen sent calls lead scanned)
    (hlo : k ≤ sent) (hhi : sent ≤ calls lead) (hr : calls r = k) (hne : r ≠ lead)
    (hcs : ∀ r', r' ≠ r → calls' r' = calls r') : Seen sent calls' lead scanned := by
  have hlead := hcs lead (Ne.symm hne)
  rcases h with hsent | hall
  · exact .inl (hsent.trans hlead.symm)
  · by_cases hin : scanned r
    · refine .inl ?_
      have := hall r hin
      omega
    · refine .inr fun r' hr' => ?_
      rw [hlead, hcs r' fun heq => hin (heq ▸ hr')]
      exact hall r' hr'

end BarrierRound
