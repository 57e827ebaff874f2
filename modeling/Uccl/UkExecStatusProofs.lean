import Uccl.StepRunProofs
import Uccl.UkExecProofs

/-! # The status of a collective

    A backend can report that a put or a signal has failed. `TransportBackend` prints a line and counts the
    put as done; `SignalBackend` leaves the signal out, and its op is never done. Nothing sets the status of a
    run to failed, so a run is told the truth about (`Honest`) if and only if no op of it has failed. The
    calls of `wait` return true also when their deadline passes. -/

namespace UkExec

open StepRun Function List

/-- The ready ops that a run holds. -/
def Run.held (r : Run) : List ℕ := r.ring ++ (r.deferredDev ++ (r.deferredTpt ++ r.deferredSig))

section Statements

variable {n : ℕ} (cfg : Config) (s : State n)

/-- The executor has nothing to do. -/
def Settled : Prop :=
  s.enq = .idle ∧ (∀ w, s.workers w = .idle) ∧ (∀ b, (s.be b).pending = [] ∧ (s.be b).completed = []) ∧
    ∀ k, (s.runs k).held = []

/-- A run with a failed op is never completed, and has failed once the executor has nothing to do; no op that
    depends on a failed one is started; and a call of `wait` returns true only if its run is completed. -/
structure Honest : Prop where
  notCompleted : ∀ o ∈ s.failed, (s.runs o.run).status ≠ .completed
  ends : Settled s → ∀ o ∈ s.failed, (s.runs o.run).status = .failed
  dependents : ∀ o ∈ s.failed, ∀ i, o.idx ∈ (cfg.plan o.run).deps i → .started o.run i ∉ s.log
  wait : ∀ r ∈ s.returned, r.2.1 = true → r.2.2 = .completed

/-- No call of `wait` is left because of its deadline while its run is running. -/
def patient : Action n → Bool
  | .leave w expired =>
    match s.calls w with
    | .waiting k timed => !(timed && expired) || decide ((s.runs k).status ≠ .running)
    | _ => true
  | _ => true

/-- The statuses of runs, and what the calls of `wait` have seen of them. -/
structure Told : Prop where
  status : ∀ k, k < s.count → (s.runs k).status = .running ∨ (s.runs k).status = .completed
  notFailed : ∀ k, (s.runs k).status ≠ .failed
  waiting : ∀ w k timed, s.calls w = .waiting k timed → k < s.count
  leaving : ∀ w k, s.calls w = .leaving k → k < s.count ∧ (s.runs k).status = .completed
  returned : ∀ r ∈ s.returned, r.2.2 = .completed

end Statements

section Steps

variable {cfg : Config} {n : ℕ} {s s' : State n}

/-- No status and no call changes. -/
structure Calm (s s' : State n) : Prop where
  count : s'.count = s.count
  calls : s'.calls = s.calls
  returned : s'.returned = s.returned
  status : ∀ k, (s'.runs k).status = (s.runs k).status

/-- Such a step says nothing new. -/
theorem Told.of_calm (h : Told s) (hc : Calm s s') : Told s' := by
  refine ⟨fun k hk => ?_, fun k => ?_, fun w k timed hw => ?_, fun w k hw => ?_, ?_⟩
  · rw [hc.count] at hk
    rw [hc.status]
    exact h.status k hk
  · rw [hc.status]
    exact h.notFailed k
  · rw [hc.calls] at hw
    rw [hc.count]
    exact h.waiting w k timed hw
  · rw [hc.calls] at hw
    rw [hc.count, hc.status]
    exact h.leaving w k hw
  · rw [hc.returned]
    exact h.returned

/-- What no step of the enqueue thread changes in a run, but for the marks of submission. -/
structure Run.Same (r r' : Run) : Prop where
  indegree : r'.indegree = r.indegree
  doneCount : r'.doneCount = r.doneCount
  status : r'.status = r.status

section Same

variable (p : Plan) (r : Run) (i : ℕ) (fused : Bool)

/-- A fused signal is marked submitted and nothing else. -/
theorem Run.fuse_cases (sig : Option ℕ) : r.Same (r.fuse sig) ∧ (r.fuse sig).held = r.held ∧ (r.fuse sig).submitted = r.submitted := by
  cases sig with
  | none | some j => exact ⟨⟨rfl, rfl, rfl⟩, rfl, rfl⟩

/-- An accepted op is marked, with the signal that is fused to it. -/
theorem Run.same_accepted : r.Same (r.accepted p i fused) := by
  have h : (r.markSubmitted i).Same (r.accepted p i fused) := ((r.markSubmitted i).fuse_cases _).1
  exact ⟨h.indegree, h.doneCount, h.status⟩

/-- What is put off waits in a list of its backend. -/
theorem Run.same_defer (b : Be) (l : List ℕ) : r.Same (r.defer b l) ∧ (r.defer b l).submitted = r.submitted := by
  cases b with
  | dev | tpt | sig => exact ⟨⟨rfl, rfl, rfl⟩, rfl⟩

end Same

theorem Calm.refl (s : State n) : Calm s s := ⟨rfl, rfl, rfl, fun _ => rfl⟩

/-- A run is changed, but not its status. -/
theorem Calm.of_update {k : ℕ} {r : Run} (hcount : s'.count = s.count) (hcalls : s'.calls = s.calls)
    (hreturned : s'.returned = s.returned) (hruns : s'.runs = update s.runs k r)
    (hr : r.status = (s.runs k).status) : Calm s s' := by
  refine ⟨hcount, hcalls, hreturned, fun k' => ?_⟩
  rw [hruns]
  exact update_congr Run.status hr k'

section

variable (cfg : Config) (s : State n) (w : Fin n) (ok : Bool) (m : ℕ) (be : Option ℕ)
  (path : UkCommand.PutPath) (canFuse : Bool) (r : Run) (b : Be) (i : ℕ) (failed : Bool) (k : ℕ) (x : Entry)
  (e : Enq) (l : List ℕ)

theorem Run.status_defer : (r.defer b l).status = r.status := (r.same_defer b l).1.status

theorem calm_pop : Calm s (pop s) := by
  unfold pop
  split
  · split
    · exact .of_update rfl rfl rfl rfl rfl
    · exact .of_update rfl rfl rfl rfl rfl
  · exact .refl s

theorem calm_scan : Calm s (scan cfg s path canFuse) := by
  unfold scan
  split
  · split
    · split
      · exact .of_update rfl rfl rfl rfl rfl
      · exact ⟨rfl, rfl, rfl, fun _ => rfl⟩
    · split
      · exact .of_update rfl rfl rfl rfl rfl
      · exact ⟨rfl, rfl, rfl, fun _ => rfl⟩
    · split
      · exact ⟨rfl, rfl, rfl, fun _ => rfl⟩
      · exact ⟨rfl, rfl, rfl, fun _ => rfl⟩
    · exact ⟨rfl, rfl, rfl, fun _ => rfl⟩
  · exact ⟨rfl, rfl, rfl, fun _ => rfl⟩
  · exact .refl s

/-- A backend accepts an op. -/
theorem calm_start : Calm s ((s.start cfg b k x).at e) := .of_update rfl rfl rfl rfl (Run.same_accepted ..).status

theorem calm_scanPlain : Calm s (scanPlain cfg s be) := by
  unfold scanPlain
  split
  · split
    · split
      · exact .refl s
      · split
        · exact calm_start ..
        · exact .of_update rfl rfl rfl rfl rfl
    · split
      · exact .refl s
      · split
        · exact calm_start ..
        · exact .of_update rfl rfl rfl rfl rfl
    · exact .refl s
  · exact .refl s

theorem calm_reserve : Calm s (reserve s m) := by
  unfold reserve
  split
  · split
    · exact ⟨rfl, rfl, rfl, fun _ => rfl⟩
    · split
      · exact ⟨rfl, rfl, rfl, fun _ => rfl⟩
      · split
        · exact ⟨rfl, rfl, rfl, fun _ => rfl⟩
        · exact .refl s
  · exact .refl s

theorem calm_enqueuePlain : Calm s (enqueuePlain cfg s be) := by
  unfold enqueuePlain
  split
  · split
    · exact calm_start ..
    · exact .of_update rfl rfl rfl rfl (Run.status_defer ..)
  · exact ⟨rfl, rfl, rfl, fun _ => rfl⟩
  · exact .refl s

theorem calm_writeSlot : Calm s (writeSlot cfg s) := by
  unfold writeSlot
  split
  · split
    · exact ⟨rfl, rfl, rfl, fun _ => rfl⟩
    · exact .refl s
  · split
    · exact ⟨rfl, rfl, rfl, fun _ => rfl⟩
    · exact .refl s
  · split
    · exact ⟨rfl, rfl, rfl, fun _ => rfl⟩
    · exact .refl s
  · exact ⟨rfl, rfl, rfl, fun _ => rfl⟩
  · split
    · exact ⟨rfl, rfl, rfl, fun _ => rfl⟩
    · exact .refl s
  · exact ⟨rfl, rfl, rfl, fun _ => rfl⟩
  · exact .refl s

theorem calm_submit : Calm s (submit cfg s ok) := by
  unfold submit
  split
  · split
    · exact calm_start ..
    · exact .of_update rfl rfl rfl rfl rfl
  · split
    · exact calm_start ..
    · exact ⟨rfl, rfl, rfl, fun _ => rfl⟩
  · exact ⟨rfl, rfl, rfl, fun _ => rfl⟩
  · exact .refl s

theorem calm_release : Calm s (release cfg s) := by
  unfold release
  split
  · exact .of_update rfl rfl rfl rfl (Run.status_defer ..)
  · exact .of_update rfl rfl rfl rfl (Run.status_defer ..)
  · exact .refl s

theorem calm_complete : Calm s (complete cfg s b i failed) := by
  unfold complete
  split
  · exact ⟨rfl, rfl, rfl, fun _ => rfl⟩
  · exact .refl s

theorem calm_drain (m : ℕ) : Calm s (drain s w b m) := by
  unfold drain
  split
  · exact ⟨rfl, rfl, rfl, fun _ => rfl⟩
  · exact .refl s

end

section

variable (h : Told s)
include h

/-- An op is done: a run that is running may become completed. -/
theorem Told.comp (c : Comp) : Told (compStep cfg s c).1 := by
  cases c with
  | load o | status k | done k => exact h
  | count o | mark o => exact h.of_calm (.of_update rfl rfl rfl rfl rfl)
  | release o todo =>
    cases todo with
    | nil => exact h
    | cons i todo => exact h.of_calm (.of_update rfl rfl rfl rfl rfl)
  | push o i todo =>
    show Told (if (s.runs o.run).ring.length < ringCapacity (cfg.plan o.run).nops then
      (s.modRun o.run fun r => r.push i, some (Comp.release o todo)) else (s, some (.push o i todo))).1
    split
    · exact h.of_calm (.of_update rfl rfl rfl rfl rfl)
    · exact h
  | cas k =>
    show Told (if (s.runs k).status = .running then
      ((s.modRun k Run.complete).note (.completed k), some (Comp.drop k)) else (s, none)).1
    split
    · have hstatus : ∀ k', (update s.runs k (s.runs k).complete k').status =
          if k' = k then .completed else (s.runs k').status := by
        intro k'
        by_cases hk : k' = k
        · rw [hk, update_self, if_pos rfl]
          rfl
        · rw [update_of_ne hk, if_neg hk]
      refine ⟨fun k' hk' => ?_, fun k' => ?_, h.waiting, fun w k' hw => ⟨(h.leaving w k' hw).1, ?_⟩, h.returned⟩
      · show (update s.runs k (s.runs k).complete k').status = _ ∨ (update s.runs k (s.runs k).complete k').status = _
        rw [hstatus]
        split
        · exact .inr rfl
        · exact h.status k' hk'
      · show (update s.runs k (s.runs k).complete k').status ≠ _
        rw [hstatus]
        split
        · exact fun heq => (by cases heq)
        · exact h.notFailed k'
      · show (update s.runs k (s.runs k).complete k').status = _
        rw [hstatus]
        split
        · rfl
        · exact (h.leaving w k' hw).2
    · exact h
  | drop k => exact { h with }

/-- The place of a worker is not told. -/
theorem Told.goto (w : Fin n) (x : Worker) : Told (s.goto w x) := { h with }

/-- Nor is that of the enqueue thread. -/
theorem Told.at (e : Enq) : Told (s.at e) := { h with }

/-- A worker goes on with a completion or drains. -/
theorem Told.workStep (w : Fin n) : Told (workStep cfg s w) := by
  unfold UkExec.workStep
  split
  · exact h
  · exact h.goto ..
  · split
    · split
      · exact h.goto ..
      · exact h
    · exact h
  · split
    · exact { h with }
    · exact { h with }
  · exact h.goto ..
  · exact h.goto ..
  · rename_i c snaps hw
    have hcomp : Told (compStep cfg s c).1 := h.comp c
    split
    · rename_i s' c' hstep
      rw [hstep] at hcomp
      exact hcomp.goto ..
    · rename_i s' hstep
      rw [hstep] at hcomp
      exact hcomp.goto ..

theorem Told.hereStep : Told (hereStep cfg s) := by
  unfold UkExec.hereStep
  split
  · rename_i c comp hq
    have hcomp : Told (compStep cfg s comp).1 := h.comp comp
    split
    · rename_i s' c' hstep
      rw [hstep] at hcomp
      exact hcomp.at ..
    · rename_i s' hstep
      rw [hstep] at hcomp
      exact hcomp.at ..
  · exact h

/-- A run is added, running or completed. -/
theorem Told.addRun {r : Run} {a : ℕ} (hr : r.status = .running ∨ r.status = .completed) :
    Told { s.modRun s.count fun _ => r with count := s.count + 1, activeRuns := a } := by
  have hself : (update s.runs s.count r s.count) = r := update_self ..
  have hother : ∀ k, k ≠ s.count → update s.runs s.count r k = s.runs k := fun k hk => update_of_ne hk ..
  refine ⟨fun k hk => ?_, fun k => ?_, fun w k timed hw => Nat.lt_succ_of_lt (h.waiting w k timed hw), fun w k hw => ?_, h.returned⟩
  · show (update s.runs s.count r k).status = _ ∨ (update s.runs s.count r k).status = _
    have hk' : k < s.count + 1 := hk
    by_cases heq : k = s.count
    · rw [heq, hself]
      exact hr
    · rw [hother k heq]
      exact h.status k (by omega)
  · show (update s.runs s.count r k).status ≠ _
    by_cases heq : k = s.count
    · rw [heq, hself]
      rcases hr with hr | hr
      · rw [hr]
        exact fun hc => (by cases hc)
      · rw [hr]
        exact fun hc => (by cases hc)
    · rw [hother k heq]
      exact h.notFailed k
  · obtain ⟨hlt, hstatus⟩ := h.leaving w k hw
    refine ⟨Nat.lt_succ_of_lt hlt, ?_⟩
    show (update s.runs s.count r k).status = _
    rw [hother k (Nat.ne_of_lt hlt)]
    exact hstatus

/-- A run that is submitted is running. -/
theorem Told.submitRun : Told (submitRun cfg s) := by
  unfold UkExec.submitRun
  split
  · dsimp only
    split
    · exact h.addRun (.inr rfl)
    · exact h.addRun (.inl rfl)
  · exact h

-- ── Calls of wait

/-- One call of `wait` changes. -/
theorem Told.setCall {w : Fin n} {c : Call} (hwaiting : ∀ k timed, c = .waiting k timed → k < s.count)
    (hleaving : ∀ k, c = .leaving k → k < s.count ∧ (s.runs k).status = .completed) :
    Told { s with calls := update s.calls w c } := by
  have hcalls : ∀ v c', update s.calls w c v = c' → c = c' ∨ s.calls v = c' := by
    intro v c' hv
    by_cases hvw : v = w
    · rw [hvw, update_self] at hv
      exact .inl hv
    · rw [update_of_ne hvw] at hv
      exact .inr hv
  refine ⟨h.status, h.notFailed, fun v k timed hv => ?_, fun v k hv => ?_, h.returned⟩
  · exact (hcalls v _ hv).elim (hwaiting k timed) (h.waiting v k timed)
  · exact (hcalls v _ hv).elim (hleaving k) (h.leaving v k)

/-- A call of `wait` for a run that is known. -/
theorem Told.call (w : Fin n) (k : ℕ) (timed : Bool) : Told (call s w k timed) := by
  unfold UkExec.call
  split
  · rename_i hcall
    refine h.setCall (fun k' timed' hv => ?_) fun k' hv => ?_
    · cases hv
      exact hcall.2
    · cases hv
  · exact h

/-- A call leaves when its run is completed, not at its deadline. -/
theorem Told.leave (w : Fin n) (expired : Bool) (hpatient : patient s (.leave w expired) = true) :
    Told (leave s w expired) := by
  cases hcall : s.calls w with
  | waiting k timed =>
    have hstep : UkExec.leave s w expired =
        if s.workers w = .idle ∧ ((s.runs k).status ≠ .running ∨ (timed && expired) = true) then
          { s with calls := update s.calls w (.leaving k) } else s := by
      unfold UkExec.leave
      rw [hcall]
    rw [hstep]
    split
    · rename_i hleave
      have hnot : (s.runs k).status ≠ .running := by
        have hp : (!(timed && expired) || decide ((s.runs k).status ≠ .running)) = true := by
          simp only [patient, hcall] at hpatient
          exact hpatient
        rcases hleave.2 with hne | hexp
        · exact hne
        · rw [hexp] at hp
          exact of_decide_eq_true hp
      have hlt := h.waiting w k timed hcall
      refine h.setCall (fun k' timed' hv => ?_) fun k' hv => ?_
      · cases hv
      · cases hv
        exact ⟨hlt, (h.status k hlt).resolve_left hnot⟩
    · exact h
  | none | leaving k =>
    have hstep : UkExec.leave s w expired = s := by
      unfold UkExec.leave
      rw [hcall]
    rw [hstep]
    exact h

theorem Told.ret (w : Fin n) : Told (ret s w) := by
  unfold UkExec.ret
  split
  · rename_i k hcall
    have hnone : Told { s with calls := update s.calls w .none } :=
      h.setCall (fun k timed hv => (by cases hv)) fun k hv => (by cases hv)
    exact { hnone with returned := forall_mem_snoc h.returned (h.leaving w k hcall).2 }
  · exact h

/-- **ONE STEP**, of any thread. -/
theorem Told.step {a : Action n} (hpatient : patient s a = true) (hstep : UkExec.step cfg s a = .ok s') : Told s' := by
  cases a with
  | submitRun =>
    cases hstep
    exact h.submitRun
  | begin k =>
    cases hstep
    split
    · exact h.at ..
    · exact h
  | pop =>
    cases hstep
    exact h.of_calm (calm_pop s)
  | scan path canFuse =>
    cases hstep
    exact h.of_calm (calm_scan ..)
  | scanPlain be =>
    cases hstep
    exact h.of_calm (calm_scanPlain ..)
  | reserve m =>
    cases hstep
    exact h.of_calm (calm_reserve s m)
  | enqueuePlain be =>
    cases hstep
    exact h.of_calm (calm_enqueuePlain ..)
  | writeSlot =>
    cases hstep
    exact h.of_calm (calm_writeSlot ..)
  | submit ok =>
    cases hstep
    exact h.of_calm (calm_submit ..)
  | release =>
    cases hstep
    exact h.of_calm (calm_release ..)
  | here =>
    cases hstep
    exact h.hereStep
  | complete b i failed =>
    cases hstep
    exact h.of_calm (calm_complete ..)
  | drain w b m =>
    cases hstep
    exact h.of_calm (calm_drain ..)
  | work w =>
    cases hstep
    exact h.workStep w
  | call w k timed =>
    cases hstep
    exact h.call w k timed
  | finalize w =>
    cases hstep
    unfold finalize
    split
    · split
      · exact h.goto ..
      · exact h
    · exact h
  | leave w expired =>
    cases hstep
    exact h.leave w expired hpatient
  | ret w =>
    cases hstep
    exact h.ret w

end

-- ── Every run

/-- There are no runs at the beginning. -/
theorem told_init (n : ℕ) : Told (State.init n) := by
  refine ⟨fun k hk => absurd hk (Nat.not_lt_zero k), fun k hc => ?_, fun w k timed hw => ?_, fun w k hw => ?_, fun r hr => ?_⟩
  · cases hc
  · cases hw
  · cases hw
  · cases hr

/-- The run is told the truth about if no op has failed, and not otherwise. -/
theorem status_honest (cfg : Config) (as : List (Action n))
    (hpatient : Along (UkExec.step cfg) (fun s a => patient s a = true) (State.init n) as)
    (hrun : runFrom (UkExec.step cfg) (State.init n) as = .ok s) :
    (s.failed = [] → Honest cfg s) ∧ (Settled s → s.failed ≠ [] → ¬ Honest cfg s) := by
  have htold : Told s := runFrom_invariant_along (fun _ _ _ hi hg hs => Told.step hi hg hs) (told_init n) hpatient hrun
  refine ⟨fun hnone => ?_, fun hsettled hfailed hhonest => ?_⟩
  · have hno : ∀ o, o ∉ s.failed := by
      rw [hnone]
      exact fun _ => not_mem_nil
    exact ⟨fun o ho => absurd ho (hno o), fun _ o ho => absurd ho (hno o), fun o ho => absurd ho (hno o),
      fun r hr _ => htold.returned r hr⟩
  · obtain ⟨o, ho⟩ := exists_mem_of_ne_nil _ hfailed
    exact htold.notFailed o.run (hhonest.ends hsettled o ho)

end Steps

-- ── A put that fails

/-- A put to a peer, and a reduction that depends on it. -/
def putReduce : Plan where
  ops := [⟨.put, 4, 0, 0, none, some 1, 0, [], .input, .output⟩, ⟨.reduce, 4, 0, 0, none, none, 0, [0], .input, .output⟩]
  putToSig _ := none
  sigGroupSize _ := 0

/-- One run of that plan. -/
def putReduceConfig : Config := ⟨fun _ => putReduce, fun _ => 1, 1⟩

/-- The one worker of these runs. -/
def only : Fin 1 := ⟨0, Nat.one_pos⟩

/-- The put is handed over. -/
def putStarts : List (Action 1) :=
  [.submitRun, .begin 0, .pop, .pop, .scan .rdma false, .scan .rdma false, .reserve 0, .reserve 1, .writeSlot, .writeSlot,
   .submit true, .submit true, .release]

/-- The put is done, well or not, and the reduction and the run after it. -/
def putEnds (failed : Bool) : List (Action 1) :=
  [.complete .tpt 0 failed, .drain only .tpt 1, .work only, .work only, .work only, .work only, .work only, .work only,
   .work only, .work only, .work only, .work only, .work only, .work only, .work only,
   .begin 0, .pop, .pop, .scan .device false, .scan .device false, .reserve 1, .writeSlot, .writeSlot, .submit true, .submit true,
   .release, .reserve 0,
   .complete .dev 0 false, .drain only .dev 1, .work only, .work only, .work only, .work only, .work only, .work only,
   .work only, .work only, .work only, .work only, .work only, .work only, .work only,
   .call only 0 true, .leave only false, .ret only]

/-- The put and the reduction are done, and `wait` returns true. -/
theorem status_honest_of_put : ∃ s, runFrom (UkExec.step putReduceConfig) (State.init 1) (putStarts ++ putEnds false) = .ok s ∧
    s.failed = [] ∧ s.returned = [(0, true, .completed)] ∧ Honest putReduceConfig s := by
  refine exists_run_of_guarded (G := fun s a => patient s a = true)
    (fun s => s.failed = [] ∧ s.returned = [(0, true, .completed)]) ?_ fun s halong hrun hs => ?_
  · decide +kernel
  · exact ⟨hs.1, hs.2, (status_honest putReduceConfig _ halong hrun).1 hs.1⟩

/-- A call of `wait` returns true at its deadline, with the put under way. The put then fails; the reduction is started,
    the run is completed, and the next `wait` returns true as well. -/
theorem status_false : ∃ s, runFrom (UkExec.step putReduceConfig) (State.init 1)
      (putStarts ++ [.call 0 0 true, .leave 0 true, .ret 0] ++ putEnds true) = .ok s ∧
    s.failed = [⟨0, 0⟩] ∧ (s.runs 0).status = .completed ∧ .started 0 1 ∈ s.log ∧
    s.returned = [(0, true, .running), (0, true, .completed)] ∧ ¬ Honest putReduceConfig s := by
  refine exists_run_of_eval (fun s => s.failed = [⟨0, 0⟩] ∧ (s.runs 0).status = .completed ∧ .started 0 1 ∈ s.log ∧
    s.returned = [(0, true, .running), (0, true, .completed)]) ?_ fun s hrun hs => ?_
  · decide +kernel
  · obtain ⟨hfailed, hstatus, hstarted, hreturned⟩ := hs
    refine ⟨hfailed, hstatus, hstarted, hreturned, fun hhonest => ?_⟩
    refine hhonest.notCompleted ⟨0, 0⟩ ?_ hstatus
    rw [hfailed]
    exact mem_singleton_self _

end UkExec
