import Uccl.EqdsPacerProofs

/-! # How much credit one pacing interval releases

    `handle_grant_credit` runs once per pacing interval and is meant to release `kCreditPerPull * kSendersPerPull`
    quanta, give or take one grant. The inner of its two loops stops at `total_consumed >= limit || ++budget >=
    kSendersPerPull`, so that a turn which exhausts the credit does not count a sender; the outer one goes on while no
    sender is counted. A first sink with four quanta of backlog therefore makes the call serve the whole list
    (`backlog_drained_at_once`). The idle list is walked without any budget, and as sinks are put back at its end,
    several times.

    `grant_bounded_iff` says exactly in which states the bound holds whatever `send_pull_packet` returns. -/

namespace EqdsGrant

open EqdsCc EqdsPacer SerialNumber StepRun Function List Except

variable {K : Type} [DecidableEq K]

/-- The credit of an interval and one more grant. -/
def creditLimit : ℕ := kCreditPerPull.toNat * kSendersPerPull + kCreditPerPull.toNat

/-- The pacer gets from `s` to `t` by going on in the call it is in, for some results of `send_pull_packet`. -/
def Continues (s t : Pacer K) : Prop := ∃ sents, runFrom pacerRun s sents = .ok t

/-- Whatever `send_pull_packet` returns, a call of `handle_grant_credit` has granted at
    most the limit at every point. -/
def GrantBounded (s : Pacer K) : Prop :=
  ∀ s₁ t, pacerStep s .handleGrantCredit = .ok s₁ → Continues s₁ t →
    t.granted ≤ s.granted + creditLimit

/-- The quanta the sinks of a list wait for. -/
def backlogs (sinks : K → Sink) (l : List K) : ℕ := (l.map fun k => (sinks k).backlog.toNat).sum

/-- A sink that is put back on the idle list after its grant. -/
def StaysIdle (k : Sink) : Prop := k.backlog = 0 ∧ k.idleCreditEnough = false
deriving Decidable

/-- The first active sink waits for less than a full grant, or all together for no more than the limit. If none is
    active: at most one sink is idle; or two, neither of which is left idle by a packet sent to it, or the first of
    which is not left idle either way. -/
def SmallDemand (s : Pacer K) : Prop :=
  match s.active, s.idle with
  | first :: rest, _ =>
    (s.sinks first).backlog.toNat < 4 ∨ backlogs s.sinks (first :: rest) ≤ creditLimit
  | [], [] | [], [_] => True
  | [], [x, y] => ¬ StaysIdle (advance (s.sinks x) 4) ∧
      (¬ StaysIdle (s.sinks x) ∨ ¬ StaysIdle (advance (s.sinks y) 4))
  | [], _ :: _ :: _ :: _ => False

theorem Continues.trans {s t u : Pacer K} (h : Continues s t) (h' : Continues t u) : Continues s u := by
  obtain ⟨sents, hrun⟩ := h
  obtain ⟨sents', hrun'⟩ := h'
  exact ⟨sents ++ sents', (runFrom_append hrun sents').trans hrun'⟩

-- ── Grants

theorem increment_active (k : Sink) : (increment k false).toNat = min 4 k.backlog.toNat := by
  unfold increment
  rw [if_neg Bool.false_ne_true]
  split
  · next hlt =>
    have hlt : k.backlog.toNat < 4 := hlt
    omega
  · next hge =>
    have hge : ¬ k.backlog.toNat < 4 := hge
    show 4 = _
    omega

/-- A grant within the backlog is taken off it. -/
theorem backlog_advance (k : Sink) (inc : PullQuanta) (h : inc.toNat ≤ k.backlog.toNat) :
    (advance k inc).backlog.toNat = k.backlog.toNat - inc.toNat := by
  by_cases hgt : pullnoGt k.highestPullTarget k.latestPull = true
  · have hback : k.backlog = k.highestPullTarget - k.latestPull := if_pos hgt
    have hhalf := ((serialGt_iff (w := 7) _ _).mp hgt).2
    have hdiff : k.highestPullTarget - (k.latestPull + inc) = k.backlog - inc := by
      rw [hback, sub_add_eq_sub_sub]
    have hsub : (k.backlog - inc).toNat = k.backlog.toNat - inc.toNat := BitVec.toNat_sub_of_le h
    show (if serialGt k.highestPullTarget (k.latestPull + inc) = true
      then k.highestPullTarget - (k.latestPull + inc) else 0).toNat = _
    rw [← hsub, ← hdiff]
    split
    · rfl
    · next hnot =>
      rw [serialGt_iff (w := 7), hdiff, hsub, hback] at hnot
      rw [hdiff, hsub, hback]
      show 0 = _
      omega
  · have hback : k.backlog = 0 := if_neg hgt
    have hinc : inc = 0 := by
      rw [hback] at h
      exact BitVec.eq_of_toNat_eq (Nat.le_zero.mp h)
    rw [hinc]
    show (if serialGt k.highestPullTarget (k.latestPull + 0) = true
      then k.highestPullTarget - (k.latestPull + 0) else 0).toNat = _
    rw [add_zero, hback, show serialGt k.highestPullTarget k.latestPull = false from Bool.eq_false_iff.mpr hgt]
    rfl

omit [DecidableEq K] in
theorem backlogs_cons (sinks : K → Sink) (k : K) (l : List K) :
    backlogs sinks (k :: l) = (sinks k).backlog.toNat + backlogs sinks l := rfl

omit [DecidableEq K] in
theorem backlogs_append (sinks : K → Sink) (l l' : List K) :
    backlogs sinks (l ++ l') = backlogs sinks l + backlogs sinks l' := by
  unfold backlogs
  rw [map_append, sum_append]

theorem backlogs_update {sinks : K → Sink} {k : K} {x : Sink} {l : List K} (hk : k ∉ l) :
    backlogs (update sinks k x) l = backlogs sinks l := by
  refine congrArg sum (map_congr_left fun m hm => ?_)
  rw [update_of_ne]
  rintro rfl
  exact hk hm

/-- Whether the packet was sent or not, an active grant is paid from the backlog. -/
theorem backlogs_grant {s : Pacer K} {k : K} {l : List K} (hk : k ∉ l) (sent : Bool) :
    (grant s k (increment (s.sinks k) false) sent).granted +
        backlogs (grant s k (increment (s.sinks k) false) sent).sinks (k :: l)
      = s.granted + backlogs s.sinks (k :: l) := by
  unfold grant
  split
  · have hle : (increment (s.sinks k) false).toNat ≤ (s.sinks k).backlog.toNat := by
      rw [increment_active]
      exact Nat.min_le_right ..
    show s.granted + _ + backlogs (update s.sinks k _) (k :: l) = _
    rw [backlogs_cons, backlogs_cons, backlogs_update hk, update_self, backlog_advance _ _ hle]
    omega
  · rfl

theorem granted_grant_le (s : Pacer K) (k : K) (inc : PullQuanta) (sent : Bool) :
    (grant s k inc sent).granted ≤ s.granted + inc.toNat := by
  unfold grant
  split
  · exact le_rfl
  · exact Nat.le_add_right ..

/-- With one sender per pull, every turn goes back to the `while`; it counts a sender unless the credit is exhausted. -/
theorem afterActive_while (s : Pacer K) (n : Option K) (budget total : ℕ) (consumed : PullQuanta) :
    afterActive s n budget total consumed = { s with
      pc := .activeWhile (if (total + consumed.toNat) % 2 ^ 16 ≥ 4 then budget else budget + 1)
        ((total + consumed.toNat) % 2 ^ 16) } := by
  unfold afterActive
  dsimp only
  split
  · next hge =>
    have hge : (total + consumed.toNat) % 2 ^ 16 ≥ 4 := hge
    rw [if_pos hge]
  · next hlt =>
    have hlt : ¬ (total + consumed.toNat) % 2 ^ 16 ≥ 4 := hlt
    rw [if_neg hlt]
    exact if_pos (Nat.le_add_left 1 budget)

-- ── Active sinks

section

variable {s s' s₁ : Pacer K} {c g total : ℕ} {sent : Bool} {k y : K} {rest l : List K}

/-- What was granted and what is still waited for stays below `c`. -/
def WithinBacklog (c : ℕ) (s : Pacer K) : Prop :=
  match s.pc with
  | .activeWhile _ _ => s.active.Nodup ∧ s.granted + backlogs s.sinks s.active ≤ c
  | .activeEach pos _ _ _ =>
    s.active.Nodup ∧ pos = s.active.head? ∧ s.granted + backlogs s.sinks s.active ≤ c
  | .activeGranted k _ _ _ _ =>
    s.active.Nodup ∧ k ∉ s.active ∧ s.granted + backlogs s.sinks (k :: s.active) ≤ c
  | .rest => s.granted ≤ c
  | _ => False

theorem WithinBacklog.step (h : WithinBacklog c s) (hrun : pacerRun s sent = .ok s') : WithinBacklog c s' := by
  unfold WithinBacklog at h
  unfold pacerRun at hrun
  split at h
  · next budget total hpc =>
    obtain ⟨hnodup, hle⟩ := h
    simp only [hpc] at hrun
    split at hrun
    · cases hrun
      exact ⟨hnodup, rfl, hle⟩
    · cases hrun
      exact Nat.le_trans (Nat.le_add_right ..) hle
  · next pos n budget total hpc =>
    obtain ⟨hnodup, hpos, hle⟩ := h
    cases hpos' : pos with
    | none =>
      simp only [hpc, hpos'] at hrun
      cases hrun
      exact ⟨hnodup, hle⟩
    | some k =>
      simp only [hpc, hpos'] at hrun
      obtain ⟨rest, hactive⟩ := head?_eq_some_iff.mp (hpos.symm.trans hpos')
      rw [hactive] at hnodup hle
      have hk := (nodup_cons.mp hnodup).1
      cases hrun
      rw [grant_active, hactive, erase_cons_head]
      exact ⟨(nodup_cons.mp hnodup).2, hk, le_of_eq_of_le (backlogs_grant hk sent) hle⟩
  · next k n budget total consumed hpc =>
    obtain ⟨hnodup, hk, hle⟩ := h
    simp only [hpc] at hrun
    rw [backlogs_cons] at hle
    split at hrun
    · split at hrun
      · cases hrun
      · rw [← ok.inj hrun, afterActive_while]
        exact ⟨hnodup, by show s.granted + backlogs s.sinks s.active ≤ c; omega⟩
    · rw [← ok.inj hrun, afterActive_while]
      refine ⟨nodup_snoc hnodup hk, ?_⟩
      rw [backlogs_append]
      show s.granted + (backlogs s.sinks s.active + ((s.sinks k).backlog.toNat + 0)) ≤ c
      omega
  · next hpc =>
    simp only [hpc] at hrun
    cases hrun
  · exact h.elim

/-- After a first sink that waits for less than a full grant, a sender is counted, and the
    loop ends with the credit: `g` is what had been granted before. -/
def Modest (g : ℕ) (s : Pacer K) : Prop :=
  match s.pc with
  | .activeWhile budget total => s.granted ≤ g + total ∧ total ≤ 7 ∧
      (budget = 0 → total = 0 ∧ ∃ k, s.active.head? = some k ∧ (s.sinks k).backlog.toNat < 4)
  | .activeEach pos _ budget total => s.granted ≤ g + total ∧ total < 4 ∧
      (budget = 0 → total = 0 ∧ ∃ k, pos = some k ∧ (s.sinks k).backlog.toNat < 4)
  | .activeGranted _ _ budget total consumed => s.granted ≤ g + total + consumed.toNat ∧
      total < 4 ∧ consumed.toNat ≤ 4 ∧ (budget = 0 → total + consumed.toNat < 4)
  | .rest => s.granted ≤ g + 7
  | _ => False

/-- The end of a turn keeps it, wherever the sink goes. -/
theorem modest_afterActive (n : Option K) {budget : ℕ} {consumed : PullQuanta}
    (hg : s.granted ≤ g + total + consumed.toNat) (htotal : total < 4)
    (hconsumed : consumed.toNat ≤ 4) (hfirst : budget = 0 → total + consumed.toNat < 4) :
    Modest g (afterActive s n budget total consumed) := by
  have hmod : (total + consumed.toNat) % 2 ^ 16 = total + consumed.toNat := Nat.mod_eq_of_lt (by omega)
  rw [afterActive_while, hmod]
  refine ⟨?_, by omega, fun hzero => ?_⟩
  · show s.granted ≤ g + (total + consumed.toNat)
    omega
  · split at hzero
    · omega
    · cases hzero

theorem Modest.step (h : Modest g s) (hrun : pacerRun s sent = .ok s') : Modest g s' := by
  unfold Modest at h
  unfold pacerRun at hrun
  split at h
  · next budget total hpc =>
    obtain ⟨hg, htotal, hfirst⟩ := h
    simp only [hpc] at hrun
    split at hrun
    · next hgo =>
      cases hrun
      refine ⟨hg, ?_, hfirst⟩
      rcases hgo.2 with hbudget | hcredit
      · have := (hfirst (Nat.lt_one_iff.mp hbudget)).1
        omega
      · exact hcredit
    · cases hrun
      show s.granted ≤ g + 7
      omega
  · next pos n budget total hpc =>
    obtain ⟨hg, htotal, hfirst⟩ := h
    cases hpos : pos with
    | none =>
      simp only [hpc, hpos] at hrun
      cases hrun
      refine ⟨hg, by omega, fun hzero => ?_⟩
      obtain ⟨-, k, hk, -⟩ := hfirst hzero
      cases hpos.symm.trans hk
    | some k =>
      simp only [hpc, hpos] at hrun
      cases hrun
      have hinc := increment_active (s.sinks k)
      have hle := granted_grant_le s k (increment (s.sinks k) false) sent
      refine ⟨?_, htotal, by omega, fun hzero => ?_⟩
      · show (grant s k _ sent).granted ≤ g + total + _
        omega
      · obtain ⟨htotal, m, hm, hback⟩ := hfirst hzero
        rw [← Option.some.inj (hpos.symm.trans hm)] at hback
        omega
  · next k n budget total consumed hpc =>
    obtain ⟨hg, htotal, hconsumed, hfirst⟩ := h
    simp only [hpc] at hrun
    split at hrun
    · split at hrun
      · cases hrun
      · cases hrun
        exact modest_afterActive n hg htotal hconsumed hfirst
    · cases hrun
      exact modest_afterActive n hg htotal hconsumed hfirst
  · next hpc =>
    simp only [hpc] at hrun
    cases hrun
  · exact h.elim

/-- **ONE TURN** of the loops over the active list, with the packet sent. -/
theorem active_turn (hactive : s.active = k :: rest)
    (hlinked : Linked s.active s.idle none) (hpc : s.pc = .activeWhile 0 total) :
    ∃ t, runFrom pacerRun s [true, true, true] = .ok t ∧ t.pc = .activeWhile
        (if (total + min 4 (s.sinks k).backlog.toNat) % 2 ^ 16 ≥ 4 then 0 else 1)
        ((total + min 4 (s.sinks k).backlog.toNat) % 2 ^ 16) ∧
      t.granted = s.granted + min 4 (s.sinks k).backlog.toNat ∧
      Linked t.active t.idle none ∧
      t.granted + backlogs t.sinks t.active = s.granted + backlogs s.sinks s.active ∧
      (t.active.length + 1 = s.active.length ∨
        t.active.length = s.active.length ∧ 4 ≤ (s.sinks k).backlog.toNat) := by
  have hinc := increment_active (s.sinks k)
  have hhead : s.active.head? = some k := by
    rw [hactive]
    rfl
  have htaken : Linked rest s.idle (some k) := by
    have h := hlinked.takeActive (k := k) (by rw [hactive]; exact mem_cons_self)
    rw [hactive, erase_cons_head] at h
    exact h
  have hk := htaken.taken k rfl
  have h1 : pacerRun s true
      = .ok { s with pc := .activeEach (some k) (nextOf s.active k) 0 total } := by
    have hgo : s.active ≠ [] ∧ (0 < kSendersPerPull ∨ total < kCreditPerPull.toNat * kSendersPerPull) :=
      ⟨by rw [hactive]; exact cons_ne_nil k rest, .inl Nat.one_pos⟩
    simp only [pacerRun, hpc, if_pos hgo, hhead, Option.bind_some]
  have h2 : pacerRun { s with pc := .activeEach (some k) (nextOf s.active k) 0 total } true
      = .ok { s with
        sinks := update s.sinks k (advance (s.sinks k) (increment (s.sinks k) false))
        granted := s.granted + (increment (s.sinks k) false).toNat
        active := rest
        pc := .activeGranted k (nextOf s.active k) 0 total (increment (s.sinks k) false) } := by
    simp only [pacerRun, grant, if_true, hactive, erase_cons_head]
  have hself : update s.sinks k (advance (s.sinks k) (increment (s.sinks k) false)) k
      = advance (s.sinks k) (increment (s.sinks k) false) := update_self ..
  have hback := backlog_advance (s.sinks k) (increment (s.sinks k) false) (by omega)
  by_cases hzero : (advance (s.sinks k) (increment (s.sinks k) false)).backlog = 0
  · -- the sink is served and becomes idle
    refine ⟨{ s with
      sinks := update s.sinks k (advance (s.sinks k) (increment (s.sinks k) false))
      granted := s.granted + min 4 (s.sinks k).backlog.toNat
      active := rest
      idle := s.idle ++ [k]
      pc := .activeWhile
        (if (total + min 4 (s.sinks k).backlog.toNat) % 2 ^ 16 ≥ 4 then 0 else 1)
        ((total + min 4 (s.sinks k).backlog.toNat) % 2 ^ 16) }, ?_, rfl, rfl, htaken.putIdle, ?_,
      .inl ?_⟩
    · rw [runFrom_cons_ok h1, runFrom_cons_ok h2, runFrom_cons_ok]
      · rfl
      · simp only [pacerRun, hself, if_pos hzero, if_neg hk.2, afterActive_while, hinc, Nat.zero_add]
    · show s.granted + min 4 (s.sinks k).backlog.toNat
        + backlogs (update s.sinks k _) rest = _
      rw [hzero] at hback
      have hback : 0 = (s.sinks k).backlog.toNat - (increment (s.sinks k) false).toNat := hback
      rw [backlogs_update hk.1, hactive, backlogs_cons]
      omega
    · rw [hactive, length_cons]
  · have hpos : (advance (s.sinks k) (increment (s.sinks k) false)).backlog.toNat ≠ 0 :=
      fun h => hzero (BitVec.eq_of_toNat_eq h)
    refine ⟨{ s with
      sinks := update s.sinks k (advance (s.sinks k) (increment (s.sinks k) false))
      granted := s.granted + min 4 (s.sinks k).backlog.toNat
      active := rest ++ [k]
      pc := .activeWhile
        (if (total + min 4 (s.sinks k).backlog.toNat) % 2 ^ 16 ≥ 4 then 0 else 1)
        ((total + min 4 (s.sinks k).backlog.toNat) % 2 ^ 16) }, ?_, rfl, rfl, htaken.putActive, ?_,
      .inr ⟨?_, by omega⟩⟩
    · rw [runFrom_cons_ok h1, runFrom_cons_ok h2, runFrom_cons_ok]
      · rfl
      · simp only [pacerRun, hself, if_neg hzero, afterActive_while, hinc, Nat.zero_add]
    · show s.granted + min 4 (s.sinks k).backlog.toNat
        + backlogs (update s.sinks k _) (rest ++ [k]) = _
      rw [backlogs_append, backlogs_update hk.1, backlogs_cons, hself, hactive, backlogs_cons]
      show _ + (_ + (_ + 0)) = _
      omega
    · rw [hactive, length_append, length_singleton, length_cons]

/-- **THE LOOP DOES NOT STOP AT THE LIMIT**: once the credit is exhausted before a sender
    was counted, it goes on as long as a sink waits. -/
theorem active_overrun : ∀ (m : ℕ) (s : Pacer K) (total : ℕ),
    backlogs s.sinks s.active + s.active.length = m → s.pc = .activeWhile 0 total →
    Linked s.active s.idle none → 4 ≤ total → s.granted = g + total →
    g + creditLimit < s.granted + backlogs s.sinks s.active →
    ∃ t, Continues s t ∧ g + creditLimit < t.granted := by
  have hlimit : creditLimit = 8 := rfl
  intro m
  induction m using Nat.strong_induction_on with
  | _ m ih =>
    intro s total hm hpc hlinked htotal hg hmore
    by_cases hdone : g + creditLimit < s.granted
    · exact ⟨s, ⟨[], rfl⟩, hdone⟩
    · cases hactive : s.active with
      | nil =>
        rw [hactive] at hmore
        exact absurd hmore hdone
      | cons k rest =>
        obtain ⟨t, hrun, htpc, htg, htlinked, hsum, hlen⟩ := active_turn hactive hlinked hpc
        have hmod : (total + min 4 (s.sinks k).backlog.toNat) % 2 ^ 16
            = total + min 4 (s.sinks k).backlog.toNat := Nat.mod_eq_of_lt (by omega)
        rw [if_pos (by omega)] at htpc
        obtain ⟨u, hu, hover⟩ := ih _ (by omega) t _ rfl htpc htlinked (by omega)
          (by omega) (by omega)
        exact ⟨u, Continues.trans ⟨_, hrun⟩ hu, hover⟩

-- ── Idle sinks

/-- One turn of the loop over the idle list. -/
def idleTurn (s : Pacer K) (k : K) (n : Option K) (sent : Bool) : Pacer K :=
  let s := grant s k 4 sent
  let s := { s with idle := s.idle.erase k }
  afterIdle (if StaysIdle (s.sinks k) then { s with idle := s.idle ++ [k] } else s) n

theorem idle_turn {n : Option K} (hpc : s.pc = .idleEach (some k) n) (sent : Bool) :
    Continues s (idleTurn s k n sent) := by
  have h1 : pacerRun s sent = .ok { grant s k 4 sent with
      idle := (grant s k 4 sent).idle.erase k, pc := .idleGranted k n } := by
    simp only [pacerRun, hpc]
    rfl
  unfold idleTurn StaysIdle
  by_cases hback : ((grant s k 4 sent).sinks k).backlog = 0
  · have h2 : pacerRun { grant s k 4 sent with
        idle := (grant s k 4 sent).idle.erase k, pc := .idleGranted k n } true
        = .ok { grant s k 4 sent with
          idle := (grant s k 4 sent).idle.erase k, pc := .idleSatisfied k n } := by
      simp only [pacerRun, if_pos hback]
    refine ⟨[sent, true, true], ?_⟩
    rw [runFrom_cons_ok h1, runFrom_cons_ok h2]
    cases henough : ((grant s k 4 sent).sinks k).idleCreditEnough with
    | true =>
      rw [runFrom_cons_ok (t := afterIdle { grant s k 4 sent with
        idle := (grant s k 4 sent).idle.erase k } n)]
      · simp only [runFrom_nil, henough, hback]
        rfl
      · simp only [pacerRun, henough]
        rfl
    | false =>
      rw [runFrom_cons_ok (t := afterIdle { grant s k 4 sent with
        idle := (grant s k 4 sent).idle.erase k ++ [k] } n)]
      · simp only [runFrom_nil, henough, hback]
        rfl
      · simp only [pacerRun, henough]
        rfl
  · refine ⟨[sent, true], ?_⟩
    rw [runFrom_cons_ok h1, runFrom_cons_ok (t := afterIdle { grant s k 4 sent with
      idle := (grant s k 4 sent).idle.erase k } n)]
    · simp only [runFrom_nil, hback, false_and, if_false]
    · simp only [pacerRun, if_neg hback]
      rfl

section

variable (s : Pacer K) (k : K) (n : Option K) (sent : Bool)

theorem idleTurn_pc : (idleTurn s k n sent).pc = .idleEach n (n.bind (nextOf (idleTurn s k n sent).idle)) := rfl

theorem idleTurn_granted : (idleTurn s k n sent).granted = s.granted + if sent then 4 else 0 := by
  unfold idleTurn
  dsimp only
  split <;> cases sent <;> rfl

theorem idleTurn_sinks : (idleTurn s k n sent).sinks
      = if sent then update s.sinks k (advance (s.sinks k) 4) else s.sinks := by
  unfold idleTurn
  dsimp only
  split <;> cases sent <;> rfl

end

/-- The sink is taken off the list and put at its end if it stays idle. -/
theorem idleTurn_idle (hidle : s.idle = k :: l) (n : Option K) (sent : Bool) : (idleTurn s k n sent).idle
      = if StaysIdle (if sent then advance (s.sinks k) 4 else s.sinks k) then l ++ [k] else l := by
  have hsink : (grant s k 4 sent).sinks k = if sent then advance (s.sinks k) 4 else s.sinks k := by
    cases sent with
    | false => rfl
    | true => exact update_self ..
  have herase : (grant s k 4 sent).idle.erase k = l := by
    rw [grant_idle, hidle, erase_cons_head]
  rw [← hsink]
  unfold idleTurn
  dsimp only
  split
  · show (grant s k 4 sent).idle.erase k ++ [k] = _
    rw [herase]
  · exact herase

/-- The walk is at the last element it will visit. -/
def LastTurn (c : ℕ) (s : Pacer K) : Prop :=
  match s.pc with
  | .idleEach (some _) n => n = none ∧ s.granted + 4 ≤ c
  | .idleGranted _ n | .idleSatisfied _ n => n = none ∧ s.granted ≤ c
  | .idleEach none _ | .rest => s.granted ≤ c
  | _ => False

theorem LastTurn.step (h : LastTurn c s) (hrun : pacerRun s sent = .ok s') : LastTurn c s' := by
  unfold LastTurn at h
  unfold pacerRun at hrun
  split at h
  · next k n hpc =>
    obtain ⟨rfl, hle⟩ := h
    simp only [hpc] at hrun
    cases hrun
    exact ⟨rfl, Nat.le_trans (granted_grant_le s k _ sent) hle⟩
  · next k n hpc =>
    obtain ⟨rfl, hle⟩ := h
    simp only [hpc] at hrun
    split at hrun
    · cases hrun
      exact ⟨rfl, hle⟩
    · cases hrun
      exact hle
  · next k n hpc =>
    obtain ⟨rfl, hle⟩ := h
    simp only [hpc] at hrun
    split at hrun <;> rw [← ok.inj hrun] <;> exact hle
  · next n hpc =>
    simp only [hpc] at hrun
    cases hrun
    exact h
  · next hpc =>
    simp only [hpc] at hrun
    cases hrun
  · exact h.elim

/-- The first of two sinks is not put back, so that the second is the last. -/
def FirstDropped (c : ℕ) (y : K) (s : Pacer K) : Prop :=
  LastTurn c s ∨
  match s.pc with
  | .idleEach (some x) n => n = some y ∧ s.idle = [x, y] ∧ ¬ StaysIdle (s.sinks x) ∧
      ¬ StaysIdle (advance (s.sinks x) 4) ∧ s.granted + 8 ≤ c
  | .idleGranted x n => n = some y ∧ s.idle = [y] ∧ ¬ StaysIdle (s.sinks x) ∧ s.granted + 4 ≤ c
  | .idleSatisfied x n => n = some y ∧ s.idle = [y] ∧ (s.sinks x).idleCreditEnough = true ∧
      s.granted + 4 ≤ c
  | _ => False

theorem lastTurn_afterIdle (hidle : s.idle = [y]) (hle : s.granted + 4 ≤ c) : LastTurn c (afterIdle s (some y)) := by
  refine ⟨?_, hle⟩
  rw [hidle]
  exact if_pos rfl

theorem FirstDropped.step (h : FirstDropped c y s) (hrun : pacerRun s sent = .ok s') : FirstDropped c y s' := by
  rcases h with h | h
  · exact .inl (h.step hrun)
  unfold pacerRun at hrun
  split at h
  · next x n hpc =>
    obtain ⟨rfl, hidle, hfail, hsent, hle⟩ := h
    simp only [hpc] at hrun
    cases hrun
    refine .inr ⟨rfl, ?_, ?_, ?_⟩
    · rw [grant_idle, hidle, erase_cons_head]
    · cases sent with
      | false => exact hfail
      | true =>
        show ¬ StaysIdle (update s.sinks x _ x)
        rw [update_self]
        exact hsent
    · have hg : (grant s x _ sent).granted ≤ s.granted + 4 := granted_grant_le s x 4 sent
      exact Nat.le_trans (Nat.add_le_add_right hg 4) hle
  · next x n hpc =>
    obtain ⟨rfl, hidle, hdrop, hle⟩ := h
    simp only [hpc] at hrun
    split at hrun
    · next hback =>
      cases hrun
      refine .inr ⟨rfl, hidle, ?_, hle⟩
      exact Bool.not_eq_false _ |>.mp fun henough => hdrop ⟨hback, henough⟩
    · cases hrun
      exact .inl (lastTurn_afterIdle hidle hle)
  · next x n hpc =>
    obtain ⟨rfl, hidle, henough, hle⟩ := h
    simp only [hpc] at hrun
    rw [if_pos henough] at hrun
    cases hrun
    exact .inl (lastTurn_afterIdle hidle hle)
  · exact h.elim

/-- Sinks that a sent packet takes off the list for good: what was granted and a grant
    for each one left stays below `c`. -/
def ServedOnce (c : ℕ) (s : Pacer K) : Prop :=
  s.idle.Nodup ∧ (∀ k ∈ s.idle, ¬ StaysIdle (advance (s.sinks k) 4)) ∧
  s.granted + 4 * s.idle.length ≤ c ∧
  match s.pc with
  | .idleEach pos n => Cursor s.idle pos n
  | .idleGranted k n => k ∉ s.idle ∧ (∀ m ∈ n, m ∈ s.idle) ∧ (StaysIdle (s.sinks k) →
      ¬ StaysIdle (advance (s.sinks k) 4) ∧ s.granted + 4 * (s.idle.length + 1) ≤ c)
  | .idleSatisfied k n => k ∉ s.idle ∧ (∀ m ∈ n, m ∈ s.idle) ∧
      ((s.sinks k).idleCreditEnough = false →
        ¬ StaysIdle (advance (s.sinks k) 4) ∧ s.granted + 4 * (s.idle.length + 1) ≤ c)
  | .rest => True
  | _ => False

theorem ServedOnce.step (h : ServedOnce c s) (hrun : pacerRun s sent = .ok s') : ServedOnce c s' := by
  obtain ⟨hnodup, hdrop, hle, h⟩ := h
  unfold pacerRun at hrun
  split at h
  · next pos n hpc =>
    cases hpos : pos with
    | none =>
      simp only [hpc, hpos] at hrun
      cases hrun
      exact ⟨hnodup, hdrop, hle, trivial⟩
    | some k =>
      simp only [hpc, hpos] at hrun
      rw [hpos] at h
      have hk := h.1 k rfl
      have hlen : (s.idle.erase k).length + 1 = s.idle.length := by
        rw [length_erase_of_mem hk]
        exact Nat.succ_pred_eq_of_pos (length_pos_of_mem hk)
      cases hrun
      cases sent with
      | false =>
        exact ⟨hnodup.erase k, fun m hm => hdrop m (mem_of_mem_erase hm),
          by show s.granted + 4 * (s.idle.erase k).length ≤ c; omega, hnodup.not_mem_erase,
          h.erase, fun _ => ⟨hdrop k hk, by show s.granted + 4 * ((s.idle.erase k).length + 1) ≤ c; omega⟩⟩
      | true =>
        refine ⟨hnodup.erase k, fun m hm => ?_, ?_, hnodup.not_mem_erase, h.erase, fun hstays => ?_⟩
        · have hmk : m ≠ k := by
            rintro rfl
            exact hnodup.not_mem_erase hm
          show ¬ StaysIdle (advance (update s.sinks k _ m) 4)
          rw [update_of_ne hmk]
          exact hdrop m (mem_of_mem_erase hm)
        · show s.granted + 4 + 4 * (s.idle.erase k).length ≤ c
          omega
        · refine absurd hstays ?_
          show ¬ StaysIdle (update s.sinks k _ k)
          rw [update_self]
          exact hdrop k hk
  · next k n hpc =>
    obtain ⟨hk, hn, hstays⟩ := h
    simp only [hpc] at hrun
    split at hrun
    · next hback =>
      cases hrun
      exact ⟨hnodup, hdrop, hle, hk, hn, fun henough => hstays ⟨hback, henough⟩⟩
    · cases hrun
      exact ⟨hnodup, hdrop, hle, cursor_of_mem hnodup hn⟩
  · next k n hpc =>
    obtain ⟨hk, hn, hstays⟩ := h
    simp only [hpc] at hrun
    split at hrun
    · cases hrun
      exact ⟨hnodup, hdrop, hle, cursor_of_mem hnodup hn⟩
    · next henough =>
      obtain ⟨hdrop', hle'⟩ := hstays (Bool.eq_false_iff.mpr henough)
      have hnodup' : (s.idle ++ [k]).Nodup := nodup_snoc hnodup hk
      cases hrun
      refine ⟨hnodup', forall_mem_snoc hdrop hdrop', ?_,
        cursor_of_mem hnodup' fun m hm => mem_append_left _ (hn m hm)⟩
      show s.granted + 4 * (s.idle ++ [k]).length ≤ c
      rw [length_append]
      exact hle'
  · next hpc =>
    simp only [hpc] at hrun
    cases hrun
  · exact h.elim

-- ── The call

/-- What the steps of a call keep bounds what it grants. -/
theorem bounded_of_invariant {I : Pacer K → Prop} (henter : pacerStep s .handleGrantCredit = .ok s₁)
    (hstep : ∀ s sent s', I s → pacerRun s sent = .ok s' → I s')
    (hle : ∀ t, I t → t.granted ≤ s.granted + creditLimit) (hstart : I s₁) : GrantBounded s := by
  rintro s₁' t henter' ⟨sents, hrun⟩
  rw [← ok.inj (henter.symm.trans henter')] at hrun
  exact hle t (runFrom_invariant hstep hstart hrun)

/-- The call is entered at the active list, if there is one, else at the idle list. -/
theorem enter_active (hrest : s.pc = .rest) (hactive : s.active = k :: l) :
    pacerStep s .handleGrantCredit = .ok { s with pc := .activeWhile 0 0 } := by
  have hne : s.active ≠ [] := by
    rw [hactive]
    exact cons_ne_nil k l
  simp only [pacerStep, if_pos hrest, if_pos hne]

theorem enter_idle (hrest : s.pc = .rest) (hactive : s.active = []) : pacerStep s .handleGrantCredit = .ok { s with
      pc := .idleEach s.idle.head? (s.idle.head?.bind (nextOf s.idle)) } := by
  simp only [pacerStep, if_pos hrest, hactive, ne_eq, not_true_eq_false, if_false]

omit [DecidableEq K] in
theorem WithinBacklog.granted_le (h : WithinBacklog c s) : s.granted ≤ c := by
  unfold WithinBacklog at h
  split at h
  · exact Nat.le_trans (Nat.le_add_right ..) h.2
  · exact Nat.le_trans (Nat.le_add_right ..) h.2.2
  · exact Nat.le_trans (Nat.le_add_right ..) h.2.2
  · exact h
  · exact h.elim

omit [DecidableEq K] in
theorem Modest.granted_le (h : Modest g s) : s.granted ≤ g + 8 := by
  unfold Modest at h
  split at h
  · omega
  · omega
  · omega
  · omega
  · exact h.elim

omit [DecidableEq K] in
theorem LastTurn.granted_le (h : LastTurn c s) : s.granted ≤ c := by
  unfold LastTurn at h
  split at h
  · omega
  · exact h.2
  · exact h.2
  · exact h
  · exact h
  · exact h.elim

omit [DecidableEq K] in
theorem FirstDropped.granted_le (h : FirstDropped c y s) : s.granted ≤ c := by
  rcases h with h | h
  · exact h.granted_le
  · split at h
    · omega
    · omega
    · omega
    · exact h.elim

/-- With an active sink. -/
theorem bounded_active_iff {first : K} (hrest : s.pc = .rest)
    (hlinked : Linked s.active s.idle none) (hactive : s.active = first :: rest) :
    GrantBounded s ↔ (s.sinks first).backlog.toNat < 4 ∨ backlogs s.sinks (first :: rest) ≤ creditLimit := by
  have henter := enter_active hrest hactive
  constructor
  · intro hbound
    by_contra hlarge
    push Not at hlarge
    obtain ⟨hfirst, hall⟩ := hlarge
    obtain ⟨t, hrun, htpc, htg, htlinked, hsum, -⟩ :=
      active_turn (s := { s with pc := .activeWhile 0 0 }) hactive hlinked rfl
    have hfour : min 4 (s.sinks first).backlog.toNat = 4 := Nat.min_eq_left hfirst
    have htpc : t.pc = .activeWhile 0 4 := by
      rw [htpc]
      rw [hfour]
      rfl
    have htg : t.granted = s.granted + min 4 (s.sinks first).backlog.toNat := htg
    have hsum : t.granted + backlogs t.sinks t.active = s.granted + backlogs s.sinks s.active := hsum
    rw [hactive] at hsum
    obtain ⟨u, hu, hover⟩ := active_overrun (g := s.granted) _ t 4 rfl htpc htlinked le_rfl
      (by omega) (by omega)
    have := hbound _ u henter (Continues.trans ⟨_, hrun⟩ hu)
    omega
  · rintro (hfirst | hall)
    · refine bounded_of_invariant (I := Modest s.granted) henter
        (fun _ _ _ h hrun => h.step hrun) (fun t h => h.granted_le) ?_
      refine ⟨le_rfl, Nat.zero_le 7, fun _ => ⟨rfl, first, ?_, hfirst⟩⟩
      rw [hactive]
      rfl
    · refine bounded_of_invariant (I := WithinBacklog (s.granted + creditLimit)) henter
        (fun _ _ _ h hrun => h.step hrun) (fun t h => h.granted_le) ?_
      refine ⟨hlinked.activeOnce, ?_⟩
      show s.granted + backlogs s.sinks s.active ≤ _
      rw [hactive]
      omega

/-- Three packets to idle sinks exceed the limit. -/
theorem not_bounded_of_three {t : Pacer K} (henter : pacerStep s .handleGrantCredit = .ok s₁)
    (hrun : Continues s₁ t) (hthree : t.granted = s.granted + 12) : ¬ GrantBounded s := by
  intro hbound
  have hle := hbound s₁ t henter hrun
  have hlimit : creditLimit = 8 := rfl
  omega

section

variable (hrest : s.pc = .rest) {l : List K}
include hrest

theorem enter_two {x y : K} (hactive : s.active = []) (hidle : s.idle = x :: y :: l) :
    pacerStep s .handleGrantCredit = .ok { s with pc := .idleEach (some x) (some y) } := by
  have hfirst : nextOf (x :: y :: l) x = some y := if_pos rfl
  rw [enter_idle hrest hactive, hidle, head?_cons, Option.bind_some, hfirst]

/-- A packet to each of the first two sinks and to the one that is then behind them. -/
theorem not_bounded_of_turns {x y z : K} {l1 : List K} (hactive : s.active = []) (hidle : s.idle = x :: y :: l)
    (h1 : (idleTurn { s with pc := .idleEach (some x) (some y) } x (some y) true).idle = y :: z :: l1) :
    ¬ GrantBounded s := by
  have hpc1 := idleTurn_pc { s with pc := .idleEach (some x) (some y) } x (some y) true
  rw [Option.bind_some, h1, show nextOf (y :: z :: l1) y = some z from if_pos rfl] at hpc1
  have hturn1 := idle_turn (s := { s with pc := .idleEach (some x) (some y) }) rfl true
  have hturn2 := idle_turn hpc1 true
  have hturn3 := idle_turn (idleTurn_pc (idleTurn { s with pc := .idleEach (some x) (some y) }
    x (some y) true) y (some z) true) true
  refine not_bounded_of_three (enter_two hrest hactive hidle) (hturn1.trans (hturn2.trans hturn3)) ?_
  rw [idleTurn_granted, idleTurn_granted, idleTurn_granted]
  rfl

/-- **THREE IDLE SINKS** get a packet each. -/
theorem not_bounded_idle_three {x y z : K}
    (hactive : s.active = []) (hidle : s.idle = x :: y :: z :: l) : ¬ GrantBounded s := by
  obtain ⟨l1, h1⟩ : ∃ l1, (idleTurn { s with pc := .idleEach (some x) (some y) } x (some y) true).idle
      = y :: z :: l1 := by
    rw [idleTurn_idle (s := { s with pc := .idleEach (some x) (some y) }) (l := y :: z :: l) hidle, if_pos rfl]
    split
    · exact ⟨l ++ [x], rfl⟩
    · exact ⟨l, rfl⟩
  exact not_bounded_of_turns hrest hactive hidle h1

/-- **TWO IDLE SINKS.** -/
theorem bounded_idle_two_iff {x y : K}
    (hlinked : Linked s.active s.idle none) (hactive : s.active = []) (hidle : s.idle = [x, y]) :
    GrantBounded s ↔ ¬ StaysIdle (advance (s.sinks x) 4) ∧
      (¬ StaysIdle (s.sinks x) ∨ ¬ StaysIdle (advance (s.sinks y) 4)) := by
  have hnodup := hlinked.idleOnce
  rw [hidle] at hnodup
  have hxy : x ≠ y := fun heq => (nodup_cons.mp hnodup).1 (heq ▸ mem_singleton_self y)
  have henter := enter_two hrest hactive hidle
  constructor
  · intro hbound
    by_contra hlarge
    have hcases : StaysIdle (advance (s.sinks x) 4) ∨ (¬ StaysIdle (advance (s.sinks x) 4) ∧
        StaysIdle (s.sinks x) ∧ StaysIdle (advance (s.sinks y) 4)) := by
      by_cases hx : StaysIdle (advance (s.sinks x) 4)
      · exact .inl hx
      · refine .inr ⟨hx, ?_⟩
        by_contra hboth
        exact hlarge ⟨hx, not_and_or.mp hboth⟩
    rcases hcases with hx | ⟨hx, hfail, hy⟩
    · -- packets to x, y and x again
      have h1 := idleTurn_idle (s := { s with pc := .idleEach (some x) (some y) }) hidle (some y) true
      rw [if_pos rfl, if_pos hx] at h1
      exact not_bounded_of_turns hrest hactive hidle h1 hbound
    · -- no packet to x, then one to y, to x and to y again
      obtain ⟨s₁, hs1⟩ : ∃ s₁ : Pacer K, s₁ = { s with pc := .idleEach (some x) (some y) } := ⟨_, rfl⟩
      obtain ⟨t1, ht1⟩ : ∃ t1, t1 = idleTurn s₁ x (some y) false := ⟨_, rfl⟩
      obtain ⟨t2, ht2⟩ : ∃ t2, t2 = idleTurn t1 y (some x) true := ⟨_, rfl⟩
      obtain ⟨t3, ht3⟩ : ∃ t3, t3 = idleTurn t2 x (some y) true := ⟨_, rfl⟩
      have hidle1 : t1.idle = [y, x] := by
        rw [ht1, idleTurn_idle (l := [y]) (by rw [hs1]; exact hidle), if_neg Bool.false_ne_true, hs1]
        exact if_pos hfail
      have hsinks1 : t1.sinks = s.sinks := by
        rw [ht1, idleTurn_sinks, if_neg Bool.false_ne_true, hs1]
      have hpc1 : t1.pc = .idleEach (some y) (some x) := by
        rw [ht1, idleTurn_pc, ← ht1, hidle1]
        exact congrArg _ (if_pos rfl)
      have hidle2 : t2.idle = [x, y] := by
        rw [ht2, idleTurn_idle hidle1, hsinks1]
        exact if_pos hy
      have hpc2 : t2.pc = .idleEach (some x) (some y) := by
        rw [ht2, idleTurn_pc, ← ht2, hidle2]
        exact congrArg _ (if_pos rfl)
      have hsinks2 : t2.sinks x = s.sinks x := by
        rw [ht2, idleTurn_sinks, if_pos rfl, update_of_ne hxy, hsinks1]
      have hturn1 : Continues s₁ t1 := by
        rw [ht1]
        exact idle_turn (by rw [hs1]) false
      have hturn2 : Continues t1 t2 := by
        rw [ht2]
        exact idle_turn hpc1 true
      have hturn3 : Continues t2 t3 := by
        rw [ht3]
        exact idle_turn hpc2 true
      have hpc3 : t3.pc = .idleEach (some y) (nextOf t3.idle y) := by
        rw [ht3]
        exact idleTurn_pc ..
      have hturn4 := idle_turn hpc3 true
      rw [← hs1] at henter
      refine not_bounded_of_three henter (hturn1.trans (hturn2.trans (hturn3.trans hturn4))) ?_ hbound
      rw [idleTurn_granted, ht3, idleTurn_granted, ht2, idleTurn_granted, ht1, idleTurn_granted, hs1]
      rfl
  · rintro ⟨hx, hfail | hy⟩
    · refine bounded_of_invariant (I := FirstDropped (s.granted + creditLimit) y) henter
        (fun _ _ _ h hrun => h.step hrun) (fun t h => h.granted_le) ?_
      exact .inr ⟨rfl, hidle, hfail, hx, le_rfl⟩
    · refine bounded_of_invariant (I := ServedOnce (s.granted + creditLimit)) henter
        (fun _ _ _ h hrun => h.step hrun) (fun t h => Nat.le_trans (Nat.le_add_right ..) h.2.2.1) ?_
      refine ⟨hlinked.idleOnce, fun k hk => ?_, ?_, ?_⟩
      · rw [hidle] at hk
        rcases mem_pair.mp hk with rfl | rfl
        · exact hx
        · exact hy
      · rw [hidle]
        exact le_rfl
      · rw [hidle]
        refine ⟨fun k hk => ?_, fun m hm => ?_⟩
        · rw [← Option.some.inj hk]
          exact mem_cons_self
        · rw [← Option.some.inj hm]
          exact ⟨mem_cons_of_mem _ (mem_singleton_self y), fun heq => hxy (Option.some.inj heq).symm⟩

/-- The loop over the idle list has one turn left. -/
theorem bounded_lastTurn (hactive : s.active = []) (h : LastTurn (s.granted + creditLimit)
      { s with pc := .idleEach s.idle.head? (s.idle.head?.bind (nextOf s.idle)) }) : GrantBounded s :=
  bounded_of_invariant (enter_idle hrest hactive) (fun _ _ _ h hrun => h.step hrun)
    (fun _ h => h.granted_le) h

end

/-- **THE BOUND HOLDS EXACTLY FOR SMALL DEMAND**: for every state of the lists, a call of `handle_grant_credit` stays
    within the limit whatever `send_pull_packet` returns if and only if the demand is small. -/
theorem grant_bounded_iff (hrest : s.pc = .rest) (hlinked : Linked s.active s.idle none) :
    GrantBounded s ↔ SmallDemand s := by
  unfold SmallDemand
  split
  · next first rest _ hactive => exact bounded_active_iff hrest hlinked hactive
  · next hactive hidle =>
    refine iff_of_true (bounded_lastTurn hrest hactive ?_) trivial
    rw [hidle]
    exact Nat.le_add_right ..
  · next x hactive hidle =>
    refine iff_of_true (bounded_lastTurn hrest hactive ?_) trivial
    rw [hidle]
    refine ⟨if_pos rfl, ?_⟩
    show s.granted + 4 ≤ s.granted + 8
    omega
  · next x y hactive hidle => exact bounded_idle_two_iff hrest hlinked hactive hidle
  · next x y z l hactive hidle =>
    exact iff_of_false (not_bounded_idle_three hrest hactive hidle) id

end

/-- A flow that waits for `quanta` quanta. -/
def waiting (quanta : PullQuanta) : Sink :=
  { highestPullTarget := initPullQuanta + quanta, target := 50 + quanta.toNat }

/-- Three active flows, the first of which waits for three quanta. -/
def shortFirst : Pacer (Fin 3) :=
  { sinks := fun k => if k = 0 then waiting 3 else waiting 100, active := [0, 1, 2] }

theorem grant_bounded_iff_short : SmallDemand shortFirst ∧ GrantBounded shortFirst := by
  have hsmall : SmallDemand shortFirst := by
    show _ ∨ _
    decide
  exact ⟨hsmall, (grant_bounded_iff rfl ⟨by decide, nodup_nil, fun _ _ => not_mem_nil, nofun⟩).mpr hsmall⟩

/-- One active flow that waits for 100 quanta. -/
def longFirst : Pacer Unit := { sinks := fun _ => waiting 100, active := [()] }

/-- **THE WHOLE BACKLOG IS GRANTED AT ONCE**: 100 quanta in one call. -/
theorem backlog_drained_at_once : ∃ s t, pacerStep longFirst .handleGrantCredit = .ok s ∧ Continues s t ∧ t.pc = .rest ∧
      t.granted = longFirst.granted + 100 ∧ longFirst.granted + creditLimit < t.granted := by
  have heval : observe (fun t : Pacer Unit => (t.pc, t.granted))
      (runFrom pacerRun { longFirst with pc := .activeWhile 0 0 } (replicate 76 true))
      = some (.rest, 100) := by decide +kernel
  obtain ⟨t, hrun, hobs⟩ := exists_of_observe heval
  have hgranted : t.granted = 100 := congrArg Prod.snd hobs
  refine ⟨_, t, rfl, ⟨_, hrun⟩, congrArg Prod.fst hobs, hgranted, ?_⟩
  rw [hgranted]
  decide

end EqdsGrant
