import Uccl.EpCxiBarrierProofs

/-! # When the CXI barrier is safe

    Under `EnteredOpen` rank 0 lets a barrier go at most once: it comes to the arrival sum only while its
    BARRIER is open, and then the sum it waits for is `rounds + 1` from every node. No word can hold more than
    that, so the sum is reached only when each word is, and every leader's release word counts the rounds. -/

namespace EpCxiBarrier

open StepRun BarrierRound EpQueue Function Except Finset
open EpBarrier (Rank Pc leader root rank0 rank1 onlyRing leader_ne_root leader_injective eq_leader)

variable {N R Q : ℕ} [NeZero N] [NeZero R] {maxInflight : ℕ}

/-- What the place of the leader of node `n` in `barrier_check` says; rank 0 is on its way to
    the decision only with its BARRIER open. -/
def PcOk (rounds sent : ℕ) (calls : Rank N R → ℕ) (waiting : Prop) (n : Fin N) : Pc → Prop
  | .loop => True
  | .scan lr => Seen sent calls (leader n) (fun r => r.1 = n ∧ r.2.val < lr) ∧ (n = 0 → waiting)
  | .arrived => Seen sent calls (leader n) (fun r => r.1 = n) ∧ (n = 0 → waiting)
  | .fan true _ | .finish true => n = 0 ∧ calls (leader n) = rounds
  | .fan false _ | .finish false => n ≠ 0 ∧ calls (leader n) = rounds

/-- What holds along a run that meets `EnteredOpen`. -/
structure Inv (maxInflight : ℕ) (s : World N R Q) : Prop where
  queues : ∀ r, (s.queues r).Ok maxInflight
  seq : ∀ r, s.barrierSeq r = s.calls r ∧ s.calls r < 2 ^ 64
  arriveSeq : ∀ r, s.arriveSeq r = s.calls r % 2 ^ 32
  rounds : Rounds s.calls (fun r => BarrierOpen (s.queues r)) s.rounds
  owed : (s.pc root).releasing = false → BarrierOpen (s.queues root) → s.calls root = s.rounds + 1
  lastSent : ∀ n, s.lastSentSeq (leader n) = s.sent n
  sent : ∀ n, s.rounds ≤ s.sent n ∧ s.sent n ≤ s.calls (leader n)
  gathered : ∀ n, s.sent n = s.rounds + 1 → ∀ l, s.calls (n, l) = s.rounds + 1
  pc : ∀ n, PcOk s.rounds (s.sent n) s.calls (BarrierOpen (s.queues root)) n (s.pc (leader n))
  follower : ∀ r : Rank N R, r.2 ≠ 0 → s.pc r = .loop
  word : ∀ r : Rank N R, r.2 ≠ 0 → s.releaseSeq r ≤ s.rounds ∧ s.calls r ≤ s.releaseSeq r + 1 ∧
    (¬ BarrierOpen (s.queues r) → s.calls r = s.releaseSeq r)
  arrivals : ∀ n, n ≠ 0 → s.arrivalsInFlight n + s.arrivalWord n = s.sent n
  releases : ∀ n, n ≠ 0 → s.releasesInFlight n + s.releaseWord n = s.rounds

variable {s s' : World N R Q}

theorem init_inv : Inv maxInflight (World.init : World N R Q) where
  queues _ := Queues.init_ok
  seq _ := ⟨rfl, Nat.two_pow_pos 64⟩
  arriveSeq _ := rfl
  rounds := Rounds.of_forall_eq fun _ => rfl
  owed _ hopen := by
    obtain ⟨wr, hwr, -⟩ := hopen
    cases hwr
  lastSent _ := rfl
  sent _ := ⟨le_refl _, le_refl _⟩
  gathered _ h := nomatch h
  pc _ := trivial
  follower _ _ := rfl
  word _ _ := ⟨le_refl _, Nat.zero_le _, fun _ => rfl⟩
  arrivals _ _ := rfl
  releases _ _ := rfl

theorem Inv.safe (h : Inv maxInflight s) : Safe s := by
  refine ⟨fun n hn => ⟨fun hgo => ?_, fun hgo => ?_⟩, fun r hr r' => h.rounds.sync hr.not_open r'⟩
  · rw [h.releases n hn]
    rcases hgo with hrel | hclosed
    · have hplace := h.pc 0
      cases hp : s.pc (root : Rank N R) with
      | fan global lr | finish global =>
        rw [hp] at hrel
        cases global with
        | false => cases hrel
        | true =>
          rw [show (leader 0 : Rank N R) = root from rfl, hp] at hplace
          exact hplace.2.symm
      | loop | scan lr | arrived =>
        rw [hp] at hrel
        cases hrel
    · exact (h.rounds.closed root hclosed).symm
  · rw [h.releases n hn]
    have hrel : (s.pc root).releasing = false := by
      cases hr : (s.pc (root : Rank N R)).releasing with
      | false => rfl
      | true => exact absurd (.inl hr) hgo
    exact (h.owed hrel (not_not.mp fun hnot => hgo (.inr hnot))).symm

-- ── Queue steps and moves

/-- A place goes on to hold with the scans, the call and the wait that it speaks of. -/
theorem PcOk.imp {rounds rounds' sent : ℕ} {calls calls' : Rank N R → ℕ} {waiting waiting' : Prop} {n : Fin N}
    {pc : Pc} (h : PcOk rounds sent calls waiting n pc)
    (hseen : ∀ scanned, Seen sent calls (leader n) scanned → Seen sent calls' (leader n) scanned)
    (hcalls : calls (leader n) = rounds → calls' (leader n) = rounds') (hw : n = 0 → waiting → waiting') :
    PcOk rounds' sent calls' waiting' n pc := by
  cases pc with
  | loop => exact trivial
  | scan lr | arrived => exact ⟨hseen _ h.1, fun hn => hw hn (h.2 hn)⟩
  | fan global lr | finish global => cases global <;> exact ⟨h.1, hcalls h.2⟩

/-- Who waits is all that a place says about the queues. -/
theorem PcOk.congr {rounds sent : ℕ} {calls : Rank N R → ℕ} {waiting waiting' : Prop} {n : Fin N}
    {pc : Pc} (h : PcOk rounds sent calls waiting n pc) (hw : n = 0 → waiting → waiting') :
    PcOk rounds sent calls waiting' n pc := h.imp (fun _ => id) id hw

section

variable (h : Inv maxInflight s) {r : Rank N R} {n : Fin N} {q : Queues Q}
include h

theorem Inv.queues_update (hq : q.Ok maxInflight) : ∀ r', (update s.queues r q r').Ok maxInflight :=
  (forall_update_iff s.queues fun _ q => q.Ok maxInflight).mpr ⟨hq, fun r' _ => h.queues r'⟩

theorem Inv.requeue (hq : q.Ok maxInflight)
    (hopen : BarrierOpen q ↔ BarrierOpen (s.queues r)) : Inv maxInflight (requeue s r q) := by
  have hop : ∀ r', BarrierOpen (update s.queues r q r') ↔ BarrierOpen (s.queues r') := by
    intro r'
    by_cases heq : r' = r
    · rw [heq, update_self]; exact hopen
    · rw [update_of_ne heq]
  refine { h with queues := h.queues_update hq, rounds := h.rounds.congr hop,
                  owed := fun hrel ho => h.owed hrel ((hop root).mp ho),
                  pc := fun n => (h.pc n).congr fun _ => (hop root).mpr, word := fun r' hr' => ?_ }
  obtain ⟨hle, hup, hclosed⟩ := h.word r' hr'
  exact ⟨hle, hup, fun hnot => hclosed fun ho => hnot ((hop r').mpr ho)⟩

theorem Inv.goto (n : Fin N) (pc : Pc) (hpc : PcOk s.rounds (s.sent n) s.calls (BarrierOpen (s.queues root)) n pc)
    (hrel : pc.releasing = (s.pc (leader n)).releasing) : Inv maxInflight (goto s (leader n) pc) := by
  refine { h with owed := fun hnot ho => h.owed ?_ ho, pc := fun m => ?_, follower := fun r hr => ?_ }
  · rw [← hnot]
    show _ = (update s.pc (leader n) pc root).releasing
    by_cases heq : (root : Rank N R) = leader n
    · rw [heq, update_self, hrel]
    · rw [update_of_ne heq]
  · show PcOk _ _ _ _ m (update s.pc (leader n) pc (leader m))
    by_cases heq : m = n
    · rw [heq, update_self]; exact hpc
    · rw [update_of_ne fun hl => heq (leader_injective hl)]; exact h.pc m
  · exact (update_of_ne (fun heq : r = leader n => hr (heq ▸ rfl)) ..).trans (h.follower r hr)

/-- `send_barrier` at a rank whose last BARRIER has retired. -/
theorem Inv.sendBarrier {s' : World N R Q}
    (hq : q.Ok maxInflight) (hopen : BarrierOpen q) (hclosed : ¬ BarrierOpen (s.queues r))
    (hpc : s.pc r = .loop) (hrun : sendBarrier (EpCxiBarrier.requeue s r q) r = .ok s') : Inv maxInflight s' := by
  have hk := h.rounds.closed r hclosed
  obtain ⟨hseq, hlt⟩ := h.seq r
  -- the number does not wrap, or the call would have thrown
  have hwrap : (s.barrierSeq r + 1) % 2 ^ 64 ≠ 0 := by
    intro hzero
    unfold EpCxiBarrier.sendBarrier at hrun
    dsimp only [EpCxiBarrier.requeue] at hrun
    rw [if_pos hzero] at hrun
    cases hrun
  have hnext : (s.barrierSeq r + 1) % 2 ^ 64 = s.calls r + 1 ∧ s.calls r + 1 < 2 ^ 64 := by
    rw [hseq] at hwrap ⊢
    omega
  have hs' : s' = { EpCxiBarrier.requeue s r q with
      barrierSeq := update s.barrierSeq r (s.calls r + 1)
      arriveSeq := update s.arriveSeq r ((s.calls r + 1) % 2 ^ 32)
      calls := update s.calls r (s.calls r + 1) } := by
    unfold EpCxiBarrier.sendBarrier at hrun
    dsimp only [EpCxiBarrier.requeue] at hrun
    rw [if_neg hwrap, hnext.1] at hrun
    exact (ok.inj hrun).symm
  rw [hs']
  have hcalls : ∀ r', r' ≠ r → update s.calls r (s.calls r + 1) r' = s.calls r' := fun r' hne => update_of_ne hne ..
  have hself : update s.calls r (s.calls r + 1) r = s.calls r + 1 := update_self ..
  have hqs : ∀ r', r' ≠ r → update s.queues r q r' = s.queues r' := fun r' hne => update_of_ne hne ..
  have hqself : update s.queues r q r = q := update_self ..
  refine { h with queues := h.queues_update hq, seq := fun r' => ?_, arriveSeq := fun r' => ?_, rounds := ?_,
                  owed := fun hrel ho => ?_, sent := fun n => ?_, gathered := fun n hn l => ?_,
                  pc := fun n => ?_, word := fun r' hr' => ?_ }
  · show update s.barrierSeq r (s.calls r + 1) r' = update s.calls r (s.calls r + 1) r'
      ∧ update s.calls r (s.calls r + 1) r' < 2 ^ 64
    by_cases heq : r' = r
    · rw [heq, update_self, hself]; exact ⟨rfl, hnext.2⟩
    · rw [update_of_ne heq, hcalls r' heq]; exact h.seq r'
  · show update s.arriveSeq r _ r' = update s.calls r (s.calls r + 1) r' % 2 ^ 32
    by_cases heq : r' = r
    · rw [heq, update_self, hself]
    · rw [update_of_ne heq, hcalls r' heq]; exact h.arriveSeq r'
  · refine h.rounds.enter hclosed hself hcalls ?_ fun r' hne => ?_
    · show BarrierOpen (update s.queues r q r)
      rw [hqself]; exact hopen
    · show BarrierOpen (update s.queues r q r') ↔ _
      rw [hqs r' hne]
  · show update s.calls r (s.calls r + 1) root = s.rounds + 1
    by_cases heq : (root : Rank N R) = r
    · rw [heq, hself, hk]
    · rw [hcalls _ heq]
      refine h.owed hrel ?_
      have ho : BarrierOpen (update s.queues r q root) := ho
      rwa [hqs _ heq] at ho
  · refine ⟨(h.sent n).1, (h.sent n).2.trans ?_⟩
    show s.calls (leader n) ≤ update s.calls r (s.calls r + 1) (leader n)
    by_cases heq : leader n = r
    · rw [heq, hself]; exact Nat.le_succ _
    · rw [hcalls _ heq]
  · show update s.calls r (s.calls r + 1) (n, l) = s.rounds + 1
    have hnot : (n, l) ≠ r := by
      intro heq
      have hall := h.gathered n hn l
      rw [heq, hk] at hall
      omega
    rw [hcalls _ hnot]
    exact h.gathered n hn l
  · show PcOk s.rounds (s.sent n) (update s.calls r (s.calls r + 1))
      (BarrierOpen (update s.queues r q root)) n (s.pc (leader n))
    by_cases hr : r = leader n
    · rw [← hr, hpc]
      exact trivial
    · refine (h.pc n).imp (fun _ hs => hs.enter (h.sent n).1 (h.sent n).2 hk hr hcalls) (hcalls _ (Ne.symm hr)).trans ?_
      rintro rfl ho
      rw [hqs root (Ne.symm hr)]
      exact ho
  · show s.releaseSeq r' ≤ s.rounds ∧ update s.calls r (s.calls r + 1) r' ≤ s.releaseSeq r' + 1 ∧
      (¬ BarrierOpen (update s.queues r q r') → update s.calls r (s.calls r + 1) r' = s.releaseSeq r')
    obtain ⟨hle, hup, hcl⟩ := h.word r' hr'
    by_cases heq : r' = r
    · subst heq
      rw [hself, hqself]
      have := hcl hclosed
      exact ⟨hle, by omega, fun hnot => absurd hopen hnot⟩
    · rw [hcalls r' heq, hqs r' heq]
      exact ⟨hle, hup, hcl⟩

-- ── Acks

theorem Inv.ack_rounds (hr : s.calls r = s.rounds) : (∀ r', ((ack s r).queues r').Ok maxInflight) ∧
      Rounds s.calls (fun r' => BarrierOpen ((ack s r).queues r')) s.rounds ∧
      (∀ r', r' ≠ r → (ack s r).queues r' = s.queues r') ∧ ¬ BarrierOpen ((ack s r).queues r) := by
  have hself : (ack s r).queues r = ackBarrier (s.queues r) := update_self ..
  have hother : ∀ r', r' ≠ r → (ack s r).queues r' = s.queues r' := fun r' hne =>
    update_of_ne hne ..
  refine ⟨h.queues_update (ackBarrier_ok (h.queues r)), h.rounds.leave hr fun r' hne => ?_, hother, ?_⟩
  · rw [hother r' hne]
  · rw [hself]; exact ackBarrier_not_open _

/-- A follower acks when its word shows its own number. -/
theorem Inv.ackFollower (hr : r.2 ≠ 0) (hseen : s.releaseSeq r = s.barrierSeq r) : Inv maxInflight (ack s r) := by
  obtain ⟨hle, hup, -⟩ := h.word r hr
  have hlow := h.rounds.lower r
  have hcalls : s.calls r = s.releaseSeq r := by rw [hseen, (h.seq r).1]
  obtain ⟨hqueues, hrounds, hother, -⟩ := h.ack_rounds (r := r) (by omega)
  have hroot : (ack s r).queues root = s.queues root := hother root fun heq => hr (heq ▸ rfl)
  refine { h with queues := hqueues, rounds := hrounds, owed := fun hrel ho => h.owed hrel (hroot ▸ ho),
                  pc := fun n => (h.pc n).congr fun _ ho => hroot ▸ ho, word := fun r' hr' => ?_ }
  by_cases heq : r' = r
  · rw [heq]
    exact ⟨hle, hup, fun _ => hcalls⟩
  · rw [hother r' heq]
    exact h.word r' hr'

/-- A leader that is done passing a release on acks and leaves `barrier_check`. -/
theorem Inv.finish (hcalls : s.calls (leader n) = s.rounds) :
    Inv maxInflight (EpCxiBarrier.goto (ack s (leader n)) (leader n) .loop) := by
  obtain ⟨hqueues, hrounds, hother, hclosed⟩ := h.ack_rounds hcalls
  refine { h with queues := hqueues, rounds := hrounds, owed := fun hrel ho => ?_, pc := fun m => ?_,
                  follower := fun r hr => ?_, word := fun r hr => ?_ }
  · have hne : (root : Rank N R) ≠ leader n := fun heq => hclosed (heq ▸ ho)
    have hrel : (update s.pc (leader n) .loop root).releasing = false := hrel
    rw [update_of_ne hne] at hrel
    exact h.owed hrel (hother root hne ▸ ho)
  · show PcOk s.rounds (s.sent m) s.calls (BarrierOpen ((ack s (leader n)).queues root)) m
      (update s.pc (leader n) .loop (leader m))
    by_cases heq : m = n
    · rw [heq, update_self]
      exact trivial
    · rw [update_of_ne fun hl => heq (leader_injective hl)]
      refine (h.pc m).congr fun hm ho => ?_
      rw [hother root fun hl => heq (hm.trans (leader_injective hl))]
      exact ho
  · exact (update_of_ne (fun heq : r = leader n => hr (heq ▸ rfl)) ..).trans (h.follower r hr)
  · obtain ⟨hle, hup, hcl⟩ := h.word r hr
    refine ⟨hle, hup, fun hnot => hcl ?_⟩
    rw [← hother r fun heq => hr (heq ▸ rfl)]
    exact hnot

/-- A leader whose barrier is let go stores its number in a word of its node. -/
theorem Inv.store (n : Fin N) (l : Fin R) (hcalls : s.calls (leader n) = s.rounds) : Inv maxInflight { s with
      releaseSeq := update s.releaseSeq (n, l) (s.barrierSeq (leader n)) } := by
  refine { h with word := fun r hr => ?_ }
  show update s.releaseSeq (n, l) (s.barrierSeq (leader n)) r ≤ s.rounds ∧
    s.calls r ≤ update s.releaseSeq (n, l) (s.barrierSeq (leader n)) r + 1 ∧
    (¬ BarrierOpen (s.queues r) → s.calls r = update s.releaseSeq (n, l) (s.barrierSeq (leader n)) r)
  by_cases heq : r = (n, l)
  · rw [heq, update_self, (h.seq (leader n)).1, hcalls]
    exact ⟨le_refl _, h.rounds.upper _, h.rounds.closed _⟩
  · rw [update_of_ne heq]
    exact h.word r hr

-- ── Remote adds

omit h [NeZero N] in
/-- An add is taken off the flight and put into the word. -/
theorem add_applied {flight word : Fin N → ℕ} (hpos : flight n ≠ 0) (m : Fin N) :
    update flight n (flight n - 1) m + update word n (word n + 1) m = flight m + word m := by
  by_cases heq : m = n
  · subst heq
    rw [update_self, update_self]
    omega
  · rw [update_of_ne heq, update_of_ne heq]

theorem Inv.applyArrival (n : Fin N) : Inv maxInflight (applyArrival s n) := by
  unfold EpCxiBarrier.applyArrival
  split
  · exact h
  · next hpos => exact { h with arrivals := fun m hm => (add_applied hpos m).trans (h.arrivals m hm) }

theorem Inv.applyRelease (n : Fin N) : Inv maxInflight (applyRelease s n) := by
  unfold EpCxiBarrier.applyRelease
  split
  · exact h
  · next hpos => exact { h with releases := fun m hm => (add_applied hpos m).trans (h.releases m hm) }

-- ── The decision

/-- The arrival of a node counts as sent; it changes nothing else that matters. -/
theorem Inv.reportArrival (hpc : s.pc (leader n) = .arrived) :
    Inv maxInflight (reportArrival s (leader n)) ∧ (reportArrival s (leader n)).pc = s.pc ∧
      (reportArrival s (leader n)).calls = s.calls ∧
      (reportArrival s (leader n)).queues = s.queues ∧
      (reportArrival s (leader n)).sent n = s.calls (leader n) := by
  have hplace := h.pc n
  rw [hpc] at hplace
  unfold EpCxiBarrier.reportArrival
  split
  · next hsame =>
    refine ⟨h, rfl, rfl, rfl, ?_⟩
    rw [h.lastSent n, (h.seq (leader n)).1] at hsame
    exact hsame
  · next hnew =>
    rw [h.lastSent n, (h.seq (leader n)).1] at hnew
    have hsent := h.sent n
    have hup := h.rounds.upper (leader n)
    have hcalls : s.calls (leader n) = s.rounds + 1 := by omega
    have hself : update s.sent n (s.calls (leader n)) n = s.calls (leader n) := update_self ..
    have hother : ∀ m, m ≠ n → update s.sent n (s.calls (leader n)) m = s.sent m := fun m hm => update_of_ne hm ..
    refine ⟨?_, rfl, rfl, rfl, hself⟩
    refine { h with lastSent := fun m => ?_, sent := fun m => ?_, gathered := fun m hm l => ?_,
                    pc := fun m => ?_, arrivals := fun m hm => ?_ }
    · show update s.lastSentSeq (leader n) (s.barrierSeq (leader n)) (leader m) = update s.sent n (s.calls (leader n)) m
      by_cases heq : m = n
      · rw [heq, update_self, hself, (h.seq (leader n)).1]
      · rw [hother m heq, update_of_ne fun hl => heq (leader_injective hl)]
        exact h.lastSent m
    · show s.rounds ≤ update s.sent n (s.calls (leader n)) m ∧
        update s.sent n (s.calls (leader n)) m ≤ s.calls (leader m)
      by_cases heq : m = n
      · rw [heq, hself]
        exact ⟨h.rounds.lower _, le_refl _⟩
      · rw [hother m heq]
        exact h.sent m
    · by_cases heq : m = n
      · -- all local ranks have been seen at this call
        have hl : s.calls (n, l) = s.calls (leader n) := by
          rcases hplace.1 with hold | hall
          · exact absurd hold hnew
          · exact hall (n, l) rfl
        rw [heq, hl, hcalls]
      · have hm : update s.sent n (s.calls (leader n)) m = s.rounds + 1 := hm
        rw [hother m heq] at hm
        exact h.gathered m hm l
    · show PcOk s.rounds (update s.sent n (s.calls (leader n)) m) s.calls _ m (s.pc (leader m))
      by_cases heq : m = n
      · rw [heq, hself, hpc]
        exact ⟨.inl rfl, hplace.2⟩
      · rw [hother m heq]
        exact h.pc m
    · show (if leader n = root then s.arrivalsInFlight
          else update s.arrivalsInFlight n (s.arrivalsInFlight n + 1)) m + s.arrivalWord m
        = update s.sent n (s.calls (leader n)) m
      have hacc := h.arrivals m hm
      by_cases heq : m = n
      · subst heq
        rw [if_neg (leader_ne_root hm), update_self, hself]
        omega
      · rw [hother m heq]
        split
        · exact hacc
        · rw [update_of_ne heq]
          exact hacc

/-- With the arrival sum reached for an open barrier, every rank of every node has called it. -/
theorem Inv.all_called (hcalls : s.calls root = s.rounds + 1)
    (hown : s.sent 0 = s.calls root) (hfits : s.calls root * (N - 1) < 2 ^ 64)
    (hsum : ¬ arrivalSum s < expectedArrivals s) : (∀ n, s.sent n = s.rounds + 1) ∧ ∀ r, s.calls r = s.rounds + 1 := by
  have hword : ∀ n ∈ Finset.univ.erase (0 : Fin N), s.arrivalWord n ≤ s.rounds + 1 := by
    intro n hn
    have hacc := h.arrivals n (ne_of_mem_erase hn)
    have hsent := h.sent n
    have hup := h.rounds.upper (leader n)
    omega
  have hcard : (Finset.univ.erase (0 : Fin N)).card = N - 1 := by
    rw [card_erase_of_mem (mem_univ _), card_univ, Fintype.card_fin]
  have hconst : ∑ _n ∈ Finset.univ.erase (0 : Fin N), (s.rounds + 1) = s.calls root * (N - 1) := by
    rw [sum_const, hcard, smul_eq_mul, hcalls, mul_comm]
  have hge : ∑ _n ∈ Finset.univ.erase (0 : Fin N), (s.rounds + 1)
      ≤ ∑ n ∈ Finset.univ.erase (0 : Fin N), s.arrivalWord n := by
    have hexp : expectedArrivals s = s.calls root * (N - 1) := by
      unfold expectedArrivals
      rw [(h.seq root).1, Nat.mod_eq_of_lt hfits]
    rw [hexp, ← hconst] at hsum
    exact (Nat.le_of_not_lt hsum).trans (Nat.mod_le _ _)
  have heq := (sum_eq_sum_iff_of_le hword).mp (le_antisymm (sum_le_sum hword) hge)
  have hsents : ∀ n, s.sent n = s.rounds + 1 := by
    intro n
    by_cases hn : n = 0
    · rw [hn, hown, hcalls]
    · have hn' := heq n (mem_erase.mpr ⟨hn, mem_univ _⟩)
      have hacc := h.arrivals n hn
      have hsent := h.sent n
      have hup := h.rounds.upper (leader n)
      omega
  exact ⟨hsents, fun r => h.gathered r.1 (hsents r.1) r.2⟩

/-- Rank 0 lets the round go. -/
theorem Inv.releaseAll (hsents : ∀ n, s.sent n = s.rounds + 1) (hcalls : ∀ r, s.calls r = s.rounds + 1) :
    Inv maxInflight (EpCxiBarrier.goto (releaseAll s) root (.fan true 0)) := by
  have hpcs : update s.pc root (.fan true 0) (root : Rank N R) = .fan true 0 := update_self ..
  refine { h with rounds := Rounds.of_forall_eq hcalls, owed := fun hrel _ => ?_, sent := fun n => ?_,
                  gathered := fun n hn => ?_, pc := fun n => ?_, follower := fun r hr => ?_,
                  word := fun r hr => ?_, releases := fun n hn => ?_ }
  · cases (congrArg Pc.releasing hpcs).symm.trans hrel
  · exact ⟨(hsents n).ge, ((hsents n).trans (hcalls (leader n)).symm).le⟩
  · have hn : s.sent n = s.rounds + 1 + 1 := hn
    have := hsents n
    omega
  · show PcOk (s.rounds + 1) (s.sent n) s.calls (BarrierOpen (s.queues root)) n
      (update s.pc root (.fan true 0) (leader n))
    by_cases hn : n = 0
    · rw [hn, show (leader 0 : Rank N R) = root from rfl, hpcs]
      exact ⟨rfl, hcalls root⟩
    · rw [update_of_ne (leader_ne_root hn)]
      exact (h.pc n).imp (fun _ => id) (fun _ => hcalls _) fun _ => id
  · exact (update_of_ne (fun heq : r = root => hr (heq ▸ rfl)) ..).trans (h.follower r hr)
  · obtain ⟨hle, hup, hcl⟩ := h.word r hr
    exact ⟨hle.trans (Nat.le_succ _), hup, hcl⟩
  · show (if n = 0 then s.releasesInFlight n else s.releasesInFlight n + 1) + s.releaseWord n = s.rounds + 1
    rw [if_neg hn]
    have := h.releases n hn
    omega

/-- What a leader decides once it has seen all local ranks. -/
theorem Inv.decideArrived (hpc : s.pc (leader n) = .arrived) (hfits : n = 0 → s.calls root * (N - 1) < 2 ^ 64) :
    Inv maxInflight (decideArrived s (leader n)) := by
  obtain ⟨hinv, hpcs, hcalls, hqueues, hown⟩ := h.reportArrival hpc
  have hplace := h.pc n
  rw [hpc] at hplace
  rw [← hpcs] at hpc
  have hnot : ((EpCxiBarrier.reportArrival s (leader n)).pc (leader n)).releasing = false := by
    rw [hpc]; rfl
  unfold EpCxiBarrier.decideArrived
  dsimp only
  split
  · next hroot =>
    have hn : n = 0 := leader_injective hroot
    subst hn
    split
    · exact hinv.goto 0 _ trivial hnot.symm
    · next hsum =>
      have howed : (EpCxiBarrier.reportArrival s (leader 0)).calls root
          = (EpCxiBarrier.reportArrival s (leader 0)).rounds + 1 :=
        hinv.owed hnot (by rw [hqueues]; exact hplace.2 rfl)
      have hall := hinv.all_called howed (by rw [hown, hcalls]; rfl) (by rw [hcalls]; exact hfits rfl) hsum
      exact hinv.releaseAll hall.1 hall.2
  · next hroot =>
    have hn : n ≠ 0 := fun heq => hroot (heq ▸ rfl)
    split
    · exact hinv.goto n _ trivial hnot.symm
    · next hword =>
      -- the word counts the rounds, so the barrier is one of them
      refine hinv.goto n _ ⟨hn, ?_⟩ hnot.symm
      have hacc := hinv.releases n hn
      have hlow := hinv.rounds.lower (leader n)
      have hmod := Nat.mod_le ((EpCxiBarrier.reportArrival s (leader n)).releaseWord n) (2 ^ 64)
      rw [(hinv.seq (leader n)).1] at hword
      have hword : ¬ (EpCxiBarrier.reportArrival s (leader n)).releaseWord n % 2 ^ 64
        < (EpCxiBarrier.reportArrival s (leader n)).calls (leader n) := hword
      omega

-- ── Steps and runs

theorem Inv.check (r : Rank N R) (hG : EnteredOpen s (.check r : Action N R Q)) : Inv maxInflight (check s r) := by
  by_cases hlead : r.2 = 0
  · obtain ⟨n, rfl⟩ : ∃ n, r = leader n := ⟨r.1, eq_leader hlead⟩
    have hplace := h.pc n
    unfold EpCxiBarrier.check
    cases hpc : s.pc (leader n) with
    | loop =>
      dsimp only
      split
      · exact h
      · next hinflight =>
        refine h.goto n _ ⟨.inr fun r hr => absurd hr.2 (Nat.not_lt_zero _), fun hn => ?_⟩ ?_
        · subst hn
          exact (h.queues root).open_of_inflight (Bool.eq_true_of_not_eq_false hinflight) ((hG rfl).1 hpc)
        · rw [hpc]; rfl
    | scan lr =>
      rw [hpc] at hplace
      have hrel : (s.pc (leader n)).releasing = false := by rw [hpc]; rfl
      dsimp only
      split
      · next hlr =>
        split
        · next hseen =>
          refine h.goto n _ ⟨hplace.1.imp id fun hall r hr => ?_, hplace.2⟩ hrel.symm
          rcases Nat.lt_succ_iff_lt_or_eq.mp hr.2 with hlt | heq
          · exact hall r ⟨hr.1, hlt⟩
          · have hrl : (n, ⟨lr, hlr⟩) = r := Prod.ext hr.1.symm (Fin.ext heq.symm)
            have hseen : s.arriveSeq (n, ⟨lr, hlr⟩) % 2 ^ 32 = s.barrierSeq (leader n) % 2 ^ 32 := hseen
            rw [hrl, h.arriveSeq, (h.seq (leader n)).1, Nat.mod_mod] at hseen
            have hlo := h.rounds.lower r
            have hhi := h.rounds.upper r
            have hlo' := h.rounds.lower (leader n)
            have hhi' := h.rounds.upper (leader n)
            exact eq_of_mod_eq (by decide) (by omega) (by omega) hseen
        · exact h.goto n _ trivial hrel.symm
      · next hlr =>
        exact h.goto n _ ⟨hplace.1.imp id fun hall r hr =>
          hall r ⟨hr, r.2.isLt.trans_le (Nat.le_of_not_lt hlr)⟩, hplace.2⟩ hrel.symm
    | arrived => exact h.decideArrived hpc fun hn => (hG (hn ▸ rfl)).2
    | fan global lr =>
      rw [hpc] at hplace
      have hcalls : s.calls (leader n) = s.rounds := by cases global <;> exact hplace.2
      have hrel : (Pc.fan global lr).releasing = (s.pc (leader n)).releasing := by rw [hpc]
      dsimp only
      split
      · next hlr =>
        refine (h.store n ⟨lr, hlr⟩ hcalls).goto n (.fan global (lr + 1)) ?_ ?_
        · cases global <;> exact hplace
        · cases global <;> exact hrel
      · refine h.goto n (.finish global) ?_ ?_
        · cases global <;> exact hplace
        · cases global <;> exact hrel
    | finish global =>
      rw [hpc] at hplace
      exact h.finish (by cases global <;> exact hplace.2)
  · unfold EpCxiBarrier.check
    rw [h.follower r hlead]
    dsimp only
    split
    · exact h
    · split
      · next hseen => exact h.ackFollower hlead hseen
      · exact h

end

theorem Inv.post (hmax : maxInflight < 2 ^ 32) (h : Inv maxInflight s) {r : Rank N R} {i : Fin Q}
    (hpc : s.pc r = .loop) (hrun : post maxInflight s r i = .ok s') : Inv maxInflight s' := by
  unfold EpCxiBarrier.post at hrun
  split at hrun
  · cases hrun
    exact h
  · next c q htake =>
    obtain ⟨hroom, -, hblocked, rfl⟩ := take_cases htake
    have hok := accept_ok (h.queues r) hmax (c := c) hroom
    have hopen := accept_open (h.queues r) hmax (c := c) hroom
    split at hrun
    · next hc =>
      subst hc
      have hidle : (s.queues r).barrierInflight = false := by
        have : ((s.queues r).barrierInflight || false && (s.queues r).quietInflight) = false := hblocked
        rwa [Bool.false_and, Bool.or_false] at this
      exact h.sendBarrier hok (hopen.mpr (.inl rfl)) ((h.queues r).not_open hidle) hpc hrun
    · next hc =>
      cases hrun
      exact h.requeue hok (hopen.trans (or_iff_right hc))

theorem step_inv (hmax : maxInflight < 2 ^ 32) (h : Inv maxInflight s) {a : Action N R Q}
    (hG : EnteredOpen s a) (hrun : step maxInflight s a = .ok s') : Inv maxInflight s' := by
  have hqueue : ∀ (r : Rank N R) (q : Queues Q), q.Ok maxInflight → (BarrierOpen q ↔ BarrierOpen (s.queues r)) →
      (if s.pc r = .loop then Except.ok (EpCxiBarrier.requeue s r q) else .ok s : Except Fault _)
        = .ok s' → Inv maxInflight s' := by
    intro r q hq hopen heq
    split at heq
    · cases heq
      exact h.requeue hq hopen
    · cases heq
      exact h
  cases a with
  | push r i c =>
    cases hrun
    exact h.requeue (push_ok (h.queues r) i c) Iff.rfl
  | post r i =>
    dsimp only [EpCxiBarrier.step] at hrun
    split at hrun
    · next hpc => exact h.post hmax hpc hrun
    · cases hrun
      exact h
  | complete r wr => exact hqueue r _ (complete_ok (h.queues r) wr) (complete_open (h.queues r) wr) hrun
  | quiet r => exact hqueue r _ (ackQuiet_ok (h.queues r)) (ackQuiet_open (h.queues r)) hrun
  | notify r => exact hqueue r _ (notify_ok (h.queues r)) (notify_open (h.queues r)) hrun
  | applyArrival n =>
    cases hrun
    exact h.applyArrival n
  | applyRelease n =>
    cases hrun
    exact h.applyRelease n
  | check r =>
    cases hrun
    exact h.check r hG

/-- **CXI BARRIER SAFETY**: in every run in which rank 0 does not enter `barrier_check` with its BARRIER acked and the
    awaited sum fits in 64 bits, every other leader gets one release per barrier and no BARRIER is acked before every
    rank has called it. -/
theorem cxi_barrier_safe (hmax : maxInflight < 2 ^ 32) {acts : List (Action N R Q)}
    (hG : Along (step maxInflight) EnteredOpen (World.init : World N R Q) acts)
    (hrun : runFrom (step maxInflight) World.init acts = .ok s) : Safe s :=
  (runFrom_invariant_along (I := Inv maxInflight)
    (fun _ _ _ hi hg hst => step_inv hmax hi hg hst) init_inv hG hrun).safe

/-- Two nodes of one rank go through two barriers, the first with a WRITE in front of it that
    completes before rank 0 acks. -/
def inTurn : List (Action 2 1 1) :=
  List.flatten
    [[.push rank0 onlyRing .write, .push rank0 onlyRing .barrier, .push rank0 onlyRing .barrier,
      .push rank1 onlyRing .barrier, .push rank1 onlyRing .barrier, .post rank0 onlyRing,
      .post rank0 onlyRing, .post rank1 onlyRing],
     List.replicate 4 (.check rank1), [.applyArrival rank1.1, .complete rank0 0],
     List.replicate 7 (.check rank0), [.notify rank0, .post rank0 onlyRing, .applyRelease rank1.1],
     List.replicate 7 (.check rank1), [.notify rank1, .post rank1 onlyRing],
     List.replicate 4 (.check rank1), [.applyArrival rank1.1], List.replicate 7 (.check rank0)]

theorem cxi_barrier_safe_inTurn : Along (step 8) EnteredOpen (World.init : World 2 1 1) inTurn ∧
      ∃ s, runFrom (step 8) (World.init : World 2 1 1) inTurn = .ok s ∧ Safe s ∧
        BarrierAcked (s.queues root) ∧ s.calls root = 2 := by
  have heval : (runGuarded (step 8) EnteredOpen (World.init : World 2 1 1) inTurn).map
      (fun s : World 2 1 1 => (decide (BarrierAcked (s.queues root)), s.calls root)) = some (true, 2) := by
    decide +kernel
  obtain ⟨halong, s, hrun, hobs⟩ := exists_of_runGuarded heval
  have hsafe := cxi_barrier_safe (show 8 < 2 ^ 32 by decide) halong hrun
  exact ⟨halong, s, hrun, hsafe, of_decide_eq_true (congrArg Prod.fst hobs), congrArg Prod.snd hobs⟩

end EpCxiBarrier
