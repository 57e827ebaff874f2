import Uccl.StepRunProofs
import Uccl.EpImmProofs

/-! # Start-up of the node's shared barrier words

    The proxies of one node share a `LocalBarrier` in shared memory. The one whose `shm_open` created the object owns
    it: `init_common` makes it store `full_mask` and then zero `arrive_seq[i]` and `release_seq[i]` for each local rank
    in turn. The others wait for a non-zero `full_mask`. So they can call `send_barrier` while the owner is still
    zeroing, and the owner then wipes out an arrival (`arrival_wiped`, `arrival_kept_iff`).

    One step is one access to the shared words. `calls` is read by no function. -/

namespace EpLocalBarrier

open StepRun EpImm Function Except

variable {R : ℕ}

/-- Where a rank is in `init_common`. -/
inductive Pc
  /-- before `map_local_barrier_shm` -/
  | map
  /-- the owner, before the store to `full_mask` -/
  | mask
  /-- the owner, before the store to `arrive_seq[i]` -/
  | arrive (i : ℕ)
  /-- the owner, before the store to `release_seq[i]` -/
  | release (i : ℕ)
  /-- another rank, waiting for `full_mask` -/
  | wait
  /-- past `init_common` -/
  | ready
  deriving DecidableEq

/-- The shared words, and each local rank's own `barrier_seq`. -/
structure World (R : ℕ) where
  /-- the rank for which `shm_open` created the object -/
  owner : Option (Fin R)
  fullMask : ℕ
  arriveSeq : Fin R → ℕ
  releaseSeq : Fin R → ℕ
  barrierSeq : Fin R → ℕ
  pc : Fin R → Pc
  calls : Fin R → ℕ

/-- `ftruncate` gives zeros. -/
def World.init : World R :=
  { owner := none, fullMask := 0, arriveSeq := fun _ => 0, releaseSeq := fun _ => 0,
    barrierSeq := fun _ => 0, pc := fun _ => .map, calls := fun _ => 0 }

/-- What `send_barrier` throws on CXI. -/
inductive Fault
  | seqWrapped
  deriving DecidableEq

def goto (s : World R) (r : Fin R) (pc : Pc) : World R := { s with pc := Function.update s.pc r pc }

/-- The next access of `init_common` at rank `r`. -/
def initStep (s : World R) (r : Fin R) : World R :=
  match s.pc r with
  | .map =>
    if s.owner = none then goto { s with owner := some r } r .mask else goto s r .wait
  | .mask =>
    goto { s with fullMask := if 64 ≤ R then 2 ^ 64 - 1 else 2 ^ R - 1 } r (.arrive 0)
  | .arrive i =>
    if h : i < R then
      goto { s with arriveSeq := Function.update s.arriveSeq ⟨i, h⟩ 0 } r (.release i)
    else goto s r .ready
  | .release i =>
    if h : i < R then
      goto { s with releaseSeq := Function.update s.releaseSeq ⟨i, h⟩ 0 } r (.arrive (i + 1))
    else goto s r .ready
  | .wait => if s.fullMask = 0 then s else goto s r .ready
  | .ready => s

/-- `send_barrier`: on verbs the number is masked to 21 bits, on CXI it is 64 bits wide; the
    word takes its low 32 bits. -/
def sendBarrier (cxi : Bool) (s : World R) (r : Fin R) : Except Fault (World R) :=
  let seq := if cxi then (s.barrierSeq r + 1) % 2 ^ 64
    else (s.barrierSeq r + 1) &&& BarrierImm.kSeqMask
  if cxi ∧ seq = 0 then .error .seqWrapped
  else .ok { s with
    barrierSeq := Function.update s.barrierSeq r seq
    arriveSeq := Function.update s.arriveSeq r (seq % 2 ^ 32)
    calls := Function.update s.calls r (s.calls r + 1) }

inductive Action (R : ℕ)
  /-- `init_common`, one access -/
  | init (r : Fin R)
  | sendBarrier (r : Fin R)
  /-- the leader's `barrier_check` passes a release on: a store to `release_seq[l]` -/
  | pass (lead l : Fin R)
  deriving DecidableEq

def step (cxi : Bool) (s : World R) : Action R → Except Fault (World R)
  | .init r => .ok (initStep s r)
  | .sendBarrier r => if s.pc r = .ready then sendBarrier cxi s r else .ok s
  | .pass lead l =>
    if s.pc lead = .ready then
      .ok { s with releaseSeq := Function.update s.releaseSeq l (s.barrierSeq lead) }
    else .ok s

/-- An initialisation at this place does not store to `arrive_seq[r]` any more. -/
def Pc.Past (r : ℕ) : Pc → Prop
  | .mask => False
  | .arrive i => r < i
  | .release i => r ≤ i
  | .map | .wait | .ready => True

instance (r : ℕ) (p : Pc) : Decidable (p.Past r) := by
  cases p <;> unfold Pc.Past <;> infer_instance

/-- The word of rank `r` has been zeroed: nobody's initialisation will store to it. -/
def Zeroed (s : World R) (r : Fin R) : Prop := ∀ o, (s.pc o).Past r
deriving Decidable

-- ── The defect

/-- The ranks of a node that has two. -/
abbrev rank0 : Fin 2 := ⟨0, Nat.two_pos⟩

abbrev rank1 : Fin 2 := ⟨1, Nat.one_lt_two⟩

/-- Two local ranks. Rank 0 creates the object and stores the mask; rank 1 sees it and calls its first
    barrier; rank 0 goes on zeroing, is done, and calls its first barrier. -/
def lateZero : List (Action 2) :=
  [.init rank0, .init rank1, .init rank0, .init rank1, .sendBarrier rank1, .init rank0, .init rank0,
   .init rank0, .init rank0, .init rank0, .sendBarrier rank0]

/-- **THE ARRIVAL OF RANK 1 IS GONE**: both ranks have called barrier 1, and the leader finds 0
    in the word of rank 1. -/
theorem arrival_wiped : ∃ s, runFrom (step false) (World.init : World 2) lateZero = .ok s ∧ s.calls 0 = 1 ∧
      s.calls 1 = 1 ∧ s.pc 0 = .ready ∧ s.arriveSeq 0 = 1 ∧ s.arriveSeq 1 = 0 := by
  refine exists_run_of_eval (fun s => s.calls 0 = 1 ∧ s.calls 1 = 1 ∧ s.pc 0 = .ready ∧ s.arriveSeq 0 = 1 ∧
    s.arriveSeq 1 = 0) ?_ fun s hrun hs => hs
  decide +kernel

-- ── What holds in every reachable state

/-- Who is past the mapping found an owner, and a rank that has not called has the number 0. -/
structure Inv (s : World R) : Prop where
  mapped : ∀ r, s.pc r ≠ .map → s.owner ≠ none
  fresh : ∀ r, s.calls r = 0 → s.barrierSeq r = 0

variable {s s' : World R} {cxi : Bool} {r : Fin R} {a : Action R}

theorem init_inv : Inv (World.init : World R) := ⟨fun _ h => absurd rfl h, fun _ _ => rfl⟩

/-- One access of `init_common`: what can have become of the owner. -/
theorem initStep_owner (s : World R) (o : Fin R) :
    (initStep s o).owner = s.owner ∨ (s.pc o = .map ∧ s.owner = none ∧ (initStep s o).owner = some o) := by
  unfold initStep
  cases hpc : s.pc o with
  | map =>
    dsimp only
    split
    · next hnone => exact .inr ⟨rfl, hnone, rfl⟩
    · exact .inl rfl
  | mask | ready => exact .inl rfl
  | arrive i | release i | wait =>
    dsimp only
    split <;> exact .inl rfl

theorem initStep_pc_of_ne (s : World R) {o p : Fin R} (hne : p ≠ o) : (initStep s o).pc p = s.pc p := by
  have hgoto : ∀ (u : World R) (pc : Pc), (goto u o pc).pc p = u.pc p := fun _ _ =>
    update_of_ne hne ..
  unfold initStep
  split
  · split <;> rw [hgoto]
  · rw [hgoto]
  · split <;> rw [hgoto]
  · split <;> rw [hgoto]
  · split
    · rfl
    · rw [hgoto]
  · rfl

/-- The numbers are the business of `send_barrier` alone. -/
theorem initStep_numbers (s : World R) (o : Fin R) :
    (initStep s o).calls = s.calls ∧ (initStep s o).barrierSeq = s.barrierSeq := by
  unfold initStep
  split
  · split <;> exact ⟨rfl, rfl⟩
  · exact ⟨rfl, rfl⟩
  · split <;> exact ⟨rfl, rfl⟩
  · split <;> exact ⟨rfl, rfl⟩
  · split <;> exact ⟨rfl, rfl⟩
  · exact ⟨rfl, rfl⟩

/-- Whoever has left the mapping, with or without success, has left an owner behind. -/
theorem initStep_mapped (s : World R) (o : Fin R) (h : s.pc o ≠ .map → s.owner ≠ none) :
    (initStep s o).owner ≠ none := by
  rcases initStep_owner s o with howner | ⟨-, -, howner⟩
  · by_cases hmap : s.pc o = .map
    · intro hnone
      have hs : s.owner = none := howner.symm.trans hnone
      -- the creator of the object is its owner
      have hsome : (initStep s o).owner = some o := by
        unfold initStep
        rw [hmap]
        exact congrArg World.owner (if_pos hs)
      cases hsome.symm.trans hnone
    · rw [howner]
      exact h hmap
  · rw [howner]
    exact Option.some_ne_none o

/-- `send_barrier` that does not throw: the word takes the number. -/
theorem sendBarrier_ok (h : sendBarrier cxi s r = .ok s') : ∃ seq, (seq = if cxi then (s.barrierSeq r + 1) % 2 ^ 64
        else (s.barrierSeq r + 1) &&& BarrierImm.kSeqMask) ∧
      s' = { s with
        barrierSeq := update s.barrierSeq r seq
        arriveSeq := update s.arriveSeq r (seq % 2 ^ 32)
        calls := update s.calls r (s.calls r + 1) } := by
  unfold sendBarrier at h
  generalize hseq : (if cxi then (s.barrierSeq r + 1) % 2 ^ 64
    else (s.barrierSeq r + 1) &&& BarrierImm.kSeqMask : ℕ) = seq at h
  by_cases hwrap : cxi ∧ seq = 0
  · rw [if_pos hwrap] at h
    cases h
  · rw [if_neg hwrap] at h
    exact ⟨seq, rfl, (ok.inj h).symm⟩

theorem step_inv (h : Inv s) (hstep : step cxi s a = .ok s') : Inv s' := by
  cases a with
  | init o =>
    cases hstep
    have howner : (initStep s o).owner ≠ none := initStep_mapped s o (h.mapped o)
    refine ⟨fun _ _ => howner, ?_⟩
    rw [(initStep_numbers s o).1, (initStep_numbers s o).2]
    exact h.fresh
  | sendBarrier o =>
    unfold step at hstep
    dsimp only at hstep
    split at hstep
    · obtain ⟨seq, -, heq⟩ := sendBarrier_ok hstep
      rw [heq]
      refine ⟨h.mapped, fun p hp => ?_⟩
      have hp : update s.calls o (s.calls o + 1) p = 0 := hp
      show update s.barrierSeq o seq p = 0
      by_cases hpo : p = o
      · rw [hpo, update_self] at hp
        omega
      · rw [update_of_ne hpo] at hp ⊢
        exact h.fresh p hp
    · cases hstep
      exact h
  | pass lead l =>
    unfold step at hstep
    dsimp only at hstep
    split at hstep
    · cases hstep
      exact ⟨h.mapped, h.fresh⟩
    · cases hstep
      exact h

theorem inv_of_run {acts : List (Action R)} (h : runFrom (step cxi) World.init acts = .ok s) : Inv s :=
  runFrom_invariant (I := Inv) (fun _ _ _ hi hs => step_inv hi hs) init_inv h

-- ── A word that has been zeroed keeps its arrival

/-- The first arrival of `r` stands in its word, and no initialisation is going to touch it. -/
structure Held (s : World R) (r : Fin R) : Prop where
  word : s.arriveSeq r = 1
  zeroed : Zeroed s r
  owned : s.owner ≠ none

/-- An access of `init_common` past the word of `r` stays past it and leaves the word alone. -/
theorem initStep_held (h : Held s r) (o : Fin R) : Held (initStep s o) r := by
  have hpast : (s.pc o).Past r := h.zeroed o
  have hkept : (initStep s o).arriveSeq r = s.arriveSeq r ∧ ((initStep s o).pc o).Past r := by
    have hgoto : ∀ (u : World R) (pc : Pc), (goto u o pc).pc o = pc := fun _ _ =>
      update_self ..
    unfold initStep
    cases hpc : s.pc o with
    | map =>
      rw [if_neg h.owned, hgoto]
      exact ⟨rfl, trivial⟩
    | mask =>
      rw [hpc] at hpast
      exact hpast.elim
    | arrive i =>
      rw [hpc] at hpast
      have hlt : (r : ℕ) < i := hpast
      dsimp only
      split
      · next hi =>
        rw [hgoto]
        exact ⟨update_of_ne (Fin.ne_of_lt hlt) .., hlt.le⟩
      · rw [hgoto]
        exact ⟨rfl, trivial⟩
    | release i =>
      rw [hpc] at hpast
      have hle : (r : ℕ) ≤ i := hpast
      dsimp only
      split
      · rw [hgoto]
        exact ⟨rfl, Nat.lt_succ_of_le hle⟩
      · rw [hgoto]
        exact ⟨rfl, trivial⟩
    | wait =>
      dsimp only
      split
      · rw [hpc]
        exact ⟨rfl, trivial⟩
      · rw [hgoto]
        exact ⟨rfl, trivial⟩
    | ready =>
      rw [hpc]
      exact ⟨rfl, trivial⟩
  refine ⟨hkept.1.trans h.word, fun p => ?_, initStep_mapped s o fun _ => h.owned⟩
  by_cases hp : p = o
  · rw [hp]
    exact hkept.2
  · rw [initStep_pc_of_ne s hp]
    exact h.zeroed p

theorem step_held (h : Held s r) (ha : a ≠ .sendBarrier r) (hstep : step cxi s a = .ok s') : Held s' r := by
  cases a with
  | init o =>
    cases hstep
    exact initStep_held h o
  | sendBarrier o =>
    have hne : r ≠ o := fun heq => ha (congrArg Action.sendBarrier heq.symm)
    unfold step at hstep
    dsimp only at hstep
    split at hstep
    · obtain ⟨seq, -, heq⟩ := sendBarrier_ok hstep
      rw [heq]
      exact ⟨(update_of_ne hne ..).trans h.word, h.zeroed, h.owned⟩
    · cases hstep
      exact h
  | pass lead l =>
    unfold step at hstep
    dsimp only at hstep
    split at hstep
    · cases hstep
      exact ⟨h.word, h.zeroed, h.owned⟩
    · cases hstep
      exact h

theorem runFrom_held {later : List (Action R)} (h : Held s r)
    (hnot : ∀ a ∈ later, a ≠ .sendBarrier r) (hrun : runFrom (step cxi) s later = .ok s') : Held s' r := by
  induction later generalizing s with
  | nil =>
    cases hrun
    exact h
  | cons a later ih =>
    obtain ⟨u, hstep, hrest⟩ := runFrom_cons_inv hrun
    exact ih (step_held h (hnot a (List.mem_cons_self)) hstep) (fun b hb => hnot b (List.mem_cons_of_mem a hb)) hrest

/-- Barrier 1 on either transport. -/
theorem first_seq (cxi : Bool) : (if cxi then (0 + 1) % 2 ^ 64 else (0 + 1) &&& BarrierImm.kSeqMask : ℕ) = 1 := by
  cases cxi <;> decide

/-- The first `send_barrier` of a rank stores 1 and touches nothing of the initialisation. -/
theorem first_send (h : Inv s) (hready : s.pc r = .ready) (hfirst : s.calls r = 0)
    (hsend : step cxi s (.sendBarrier r) = .ok s') :
    s'.arriveSeq r = 1 ∧ s'.barrierSeq r = 1 ∧ s'.pc = s.pc ∧ s'.owner = s.owner := by
  have hsend : (if s.pc r = .ready then sendBarrier cxi s r else .ok s) = .ok s' := hsend
  rw [if_pos hready] at hsend
  obtain ⟨seq, hseq, heq⟩ := sendBarrier_ok hsend
  rw [h.fresh r hfirst, first_seq cxi] at hseq
  rw [heq, hseq]
  exact ⟨update_self .., update_self .., rfl, rfl⟩

theorem first_send_held (h : Inv s) (hready : s.pc r = .ready) (hfirst : s.calls r = 0)
    (hsend : step cxi s (.sendBarrier r) = .ok s') (hzero : Zeroed s r) : Held s' r := by
  obtain ⟨hword, -, hpc, howner⟩ := first_send h hready hfirst hsend
  refine ⟨hword, fun o => ?_, ?_⟩
  · rw [hpc]
    exact hzero o
  · rw [howner]
    exact h.mapped r (by rw [hready]; decide)

-- ── A word that has not been zeroed is going to be

/-- An owner at the store to `arrive_seq[i]`, `i ≤ r`, gets to the store to `arrive_seq[r]`. -/
theorem wiped_of_arrive (cxi : Bool) (o r : Fin R) : ∀ (d i : ℕ) (s : World R), i + d = r → s.pc o = .arrive i →
      ∃ k t, runFrom (step cxi) s (List.replicate k (.init o)) = .ok t ∧ t.arriveSeq r = 0 := by
  intro d
  induction d with
  | zero =>
    intro i s hi hpc
    have hlt : i < R := by
      omega
    have hr : (⟨i, hlt⟩ : Fin R) = r := Fin.ext hi
    refine ⟨1, initStep s o, rfl, ?_⟩
    unfold initStep
    rw [hpc]
    dsimp only
    rw [dif_pos hlt, hr]
    exact update_self ..
  | succ d ih =>
    intro i s hi hpc
    have hlt : i < R := by
      omega
    -- two stores further the owner is at the next index
    have hnext : (initStep s o).pc o = .release i := by
      unfold initStep
      rw [hpc]
      dsimp only
      rw [dif_pos hlt]
      exact update_self ..
    have hagain : (initStep (initStep s o) o).pc o = .arrive (i + 1) := by
      generalize initStep s o = u at hnext ⊢
      unfold initStep
      rw [hnext]
      dsimp only
      rw [dif_pos hlt]
      exact update_self ..
    obtain ⟨k, t, hrun, hzero⟩ := ih (i + 1) _ (by omega) hagain
    exact ⟨k + 2, t, hrun, hzero⟩

/-- If `arrive_seq[r]` has not been zeroed yet then the initialisation, let run on, zeroes it. -/
theorem wiped_of_not_zeroed (cxi : Bool) (h : ¬ Zeroed s r) :
    ∃ o k t, runFrom (step cxi) s (List.replicate k (.init o)) = .ok t ∧ t.arriveSeq r = 0 := by
  obtain ⟨o, hpast⟩ := not_forall.mp h
  refine ⟨o, ?_⟩
  cases hpc : s.pc o with
  | map | wait | ready =>
    rw [hpc] at hpast
    exact absurd trivial hpast
  | mask =>
    have harrive : (initStep s o).pc o = .arrive 0 := by
      unfold initStep
      rw [hpc]
      exact update_self ..
    obtain ⟨k, t, hrun, hzero⟩ := wiped_of_arrive cxi o r r 0 _ (Nat.zero_add _) harrive
    exact ⟨k + 1, t, hrun, hzero⟩
  | arrive i =>
    rw [hpc] at hpast
    have hle : i ≤ r := Nat.le_of_not_lt hpast
    exact wiped_of_arrive cxi o r (r - i) i s (by omega) hpc
  | release i =>
    rw [hpc] at hpast
    have hlt : i < r := Nat.lt_of_not_le hpast
    have hi : i < R := hlt.trans r.isLt
    have harrive : (initStep s o).pc o = .arrive (i + 1) := by
      unfold initStep
      rw [hpc]
      dsimp only
      rw [dif_pos hi]
      exact update_self ..
    obtain ⟨k, t, hrun, hzero⟩ := wiped_of_arrive cxi o r (r - (i + 1)) (i + 1) _ (by omega) harrive
    exact ⟨k + 1, t, hrun, hzero⟩

-- ── Exactly when

/-- A first `send_barrier` comes after the owner's store of 0 to the caller's word. -/
def SentAfterZero (s : World R) : Action R → Prop
  | .sendBarrier r => s.pc r = .ready → s.calls r = 0 → Zeroed s r
  | _ => True

instance (s : World R) (a : Action R) : Decidable (SentAfterZero s a) := by
  cases a <;> unfold SentAfterZero <;> infer_instance

/-- The leader's loop over `arrive_seq` in `barrier_check`: every word shows its own number. -/
def allLocalArrived (s : World R) (lead : Fin R) : Bool :=
  decide (∀ lr, s.arriveSeq lr = s.barrierSeq lead % 2 ^ 32)

/-- One step of a run in which nobody is too early. -/
theorem step_first (h : Inv s) (hfirst : ∀ r, s.calls r = 1 → Held s r ∧ s.barrierSeq r = 1)
    (hG : SentAfterZero s a) (hstep : step cxi s a = .ok s') :
    ∀ r, s'.calls r = 1 → Held s' r ∧ s'.barrierSeq r = 1 := by
  intro r hr
  cases a with
  | init o =>
    rw [← ok.inj hstep] at hr ⊢
    rw [(initStep_numbers s o).1] at hr
    rw [(initStep_numbers s o).2]
    exact ⟨initStep_held (hfirst r hr).1 o, (hfirst r hr).2⟩
  | sendBarrier o =>
    by_cases hready : s.pc o = .ready
    · have hsend : (if s.pc o = .ready then sendBarrier cxi s o else .ok s) = .ok s' := hstep
      rw [if_pos hready] at hsend
      obtain ⟨seq, -, heq⟩ := sendBarrier_ok hsend
      have hcalls : update s.calls o (s.calls o + 1) r = 1 := by
        rw [heq] at hr
        exact hr
      by_cases hro : r = o
      · -- this call is the first
        rw [hro, update_self] at hcalls
        have hzero : s.calls o = 0 := by omega
        rw [hro]
        exact ⟨first_send_held h hready hzero hstep (hG hready hzero), (first_send h hready hzero hstep).2.1⟩
      · rw [update_of_ne hro] at hcalls
        refine ⟨step_held (hfirst r hcalls).1 (fun ha => hro (Action.sendBarrier.inj ha).symm) hstep, ?_⟩
        rw [heq]
        exact (update_of_ne hro ..).trans (hfirst r hcalls).2
    · have hsame : (if s.pc o = .ready then sendBarrier cxi s o else .ok s) = .ok s' := hstep
      rw [if_neg hready] at hsame
      rw [← ok.inj hsame] at hr ⊢
      exact hfirst r hr
  | pass lead l =>
    have hsame : s'.calls = s.calls ∧ s'.barrierSeq = s.barrierSeq := by
      unfold step at hstep
      dsimp only at hstep
      split at hstep <;> rw [← ok.inj hstep] <;> exact ⟨rfl, rfl⟩
    rw [hsame.1] at hr
    rw [hsame.2]
    exact ⟨step_held (hfirst r hr).1 (by rintro ⟨⟩) hstep, (hfirst r hr).2⟩

/-- **AN ARRIVAL IS KEPT IFF ITS WORD HAD BEEN ZEROED**: what a rank's first `send_barrier` stores stays until its next
    one, whatever happens in between, exactly if the owner was done with that word. If that is so of each first call, a
    leader that checks when each rank has called once finds them all. -/
theorem arrival_kept_iff (cxi : Bool) (acts : List (Action R)) (s : World R)
    (hrun : runFrom (step cxi) World.init acts = .ok s) :
    (∀ r s', s.pc r = .ready → s.calls r = 0 → step cxi s (.sendBarrier r) = .ok s' →
      ((∀ later t, Action.sendBarrier r ∉ later → runFrom (step cxi) s' later = .ok t →
        t.arriveSeq r = 1) ↔ Zeroed s r)) ∧
    (Along (step cxi) SentAfterZero World.init acts → (∀ r, s.calls r = 1) → ∀ lead, allLocalArrived s lead) := by
  refine ⟨fun r s' hready hfirst hsend => ⟨fun hkept => ?_, fun hzero later t hnot hlater => ?_⟩,
    fun hG hcalls lead => ?_⟩
  · by_contra hne
    have hpc : s'.pc = s.pc := (first_send (inv_of_run hrun) hready hfirst hsend).2.2.1
    have hne' : ¬ Zeroed s' r := by
      unfold Zeroed
      rw [hpc]
      exact hne
    obtain ⟨o, k, t, ht, hwiped⟩ := wiped_of_not_zeroed cxi hne'
    have hnot : Action.sendBarrier r ∉ List.replicate k (Action.init o) := fun hmem =>
      absurd (List.eq_of_mem_replicate hmem) (by rintro ⟨⟩)
    have hone := hkept _ t hnot ht
    omega
  · have hheld := first_send_held (inv_of_run hrun) hready hfirst hsend hzero
    have hnever : ∀ a ∈ later, a ≠ .sendBarrier r := fun a ha heq => hnot (heq ▸ ha)
    exact (runFrom_held hheld hnever hlater).word
  · have hall := runFrom_invariant_along (I := fun u : World R => Inv u ∧
      ∀ r, u.calls r = 1 → Held u r ∧ u.barrierSeq r = 1)
      (fun u a u' hu hg hst => ⟨step_inv hu.1 hst, step_first hu.1 hu.2 hg hst⟩)
      ⟨init_inv, fun r hr => nomatch hr⟩ hG hrun
    refine decide_eq_true fun lr => ?_
    rw [(hall.2 lr (hcalls lr)).1.word, (hall.2 lead (hcalls lead)).2]
    rfl

/-- Rank 1 waits until rank 0 is done: its first arrival is kept, and the leader finds both. -/
theorem arrival_kept_inTurn : ∃ s, runFrom (step true) (World.init : World 2)
        (List.flatten [List.replicate 7 (.init 0), [.init 1, .init 1, .sendBarrier 1, .sendBarrier 0]])
        = .ok s ∧ allLocalArrived s 0 := by
  refine exists_run_of_guarded (G := SentAfterZero) (fun s => s.calls 0 = 1 ∧ s.calls 1 = 1) ?_
    fun s halong hrun hs => (arrival_kept_iff true _ s hrun).2 halong (fun r => ?_) 0
  · decide +kernel
  · match r with
    | 0 => exact hs.1
    | 1 => exact hs.2

end EpLocalBarrier
