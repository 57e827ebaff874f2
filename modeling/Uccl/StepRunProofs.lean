import Mathlib.Data.List.Perm.Basic

/-! # Runs of a step function that may stop

    A system is given by a state type, a type of actions, and one step function into `Except`: a step either
    yields the next state or stops the run with a fault. `runFrom` folds the step over a list of actions, so a
    list of actions IS a run, an interleaving, a loss pattern.

    Two rules carry every safety theorem that is built on top:

    * `runFrom_invariant` — what each step keeps, the run keeps;
    * `runFrom_invariant_along` — the same when each step of the run is known to meet a side condition on the
      state it starts from (`Along`). -/

namespace StepRun

open List

variable {S A E : Type}
variable {step : S → A → Except E S} {s t s' : S} {as : List A} {G : S → A → Prop} {I P : S → Prop} {r : Except E S}
  {a : A} {x : E}

/-- Fold the step function over a list of actions, stopping at the first fault. -/
def runFrom (step : S → A → Except E S) : S → List A → Except E S
  | s, [] => .ok s
  | s, a :: as =>
    match step s a with
    | .ok s' => runFrom step s' as
    | .error e => .error e

/-- Every step of the run meets `G` in the state it is taken from. -/
def Along (step : S → A → Except E S) (G : S → A → Prop) : S → List A → Prop
  | _, [] => True
  | s, a :: as => G s a ∧ ∀ s', step s a = .ok s' → Along step G s' as

@[simp] theorem runFrom_nil (step : S → A → Except E S) (s : S) : runFrom step s [] = .ok s := rfl

theorem runFrom_cons_ok (h : step s a = .ok t) (as : List A) : runFrom step s (a :: as) = runFrom step t as := by
  show (match step s a with
    | .ok s' => runFrom step s' as
    | .error e => .error e) = runFrom step t as
  rw [h]

/-- A finished run that starts with `a` took a first step and went on. -/
theorem runFrom_cons_inv (h : runFrom step s (a :: as) = .ok t) :
    ∃ s', step s a = .ok s' ∧ runFrom step s' as = .ok t := by
  cases hs : step s a with
  | error e =>
    have h' : (match step s a with
      | .ok s' => runFrom step s' as
      | .error e => .error e) = .ok t := h
    rw [hs] at h'
    cases h'
  | ok s' =>
    rw [runFrom_cons_ok hs] at h
    exact ⟨s', rfl, h⟩

/-- Runs compose. -/
theorem runFrom_append (h : runFrom step s as = .ok s') (bs : List A) :
    runFrom step s (as ++ bs) = runFrom step s' bs := by
  induction as generalizing s with
  | nil =>
    have hs : s = s' := Except.ok.inj h
    rw [hs, nil_append]
  | cons a as ih =>
    obtain ⟨s1, h1, h2⟩ := runFrom_cons_inv h
    rw [cons_append, runFrom_cons_ok h1]
    exact ih h2

/-- **THE GUARDED INVARIANT RULE**: an invariant that every step meeting `G`
    keeps holds at the end of every run all of whose steps meet `G`. -/
theorem runFrom_invariant_along (hstep : ∀ s a s', I s → G s a → step s a = .ok s' → I s')
    (hs : I s) (hG : Along step G s as) (h : runFrom step s as = .ok t) : I t := by
  induction as generalizing s with
  | nil =>
    have hst : s = t := Except.ok.inj h
    rw [← hst]
    exact hs
  | cons a as ih =>
    obtain ⟨s', h1, h2⟩ := runFrom_cons_inv h
    exact ih (hstep s a s' hs hG.1 h1) (hG.2 s' h1) h2

/-- A side condition that the actions meet in every state. -/
theorem Along.of_forall_mem (hG : ∀ a ∈ as, ∀ s, G s a) (s : S) : Along step G s as := by
  induction as generalizing s with
  | nil => exact trivial
  | cons a as ih =>
    exact ⟨hG a mem_cons_self s, fun s' _ => ih (fun b hb => hG b (mem_cons_of_mem a hb)) s'⟩

/-- Every run meets the empty side condition. -/
theorem Along.of_forall (hG : ∀ s a, G s a) (s : S) (as : List A) : Along step G s as :=
  .of_forall_mem (fun a _ s => hG s a) s

/-- A side condition may be checked in another form, if the two agree on the states of the run. -/
theorem Along.weaken {H : S → A → Prop} (hstep : ∀ s a s', I s → H s a → step s a = .ok s' → I s')
    (himp : ∀ s a, I s → H s a → G s a) (hs : I s) (h : Along step H s as) : Along step G s as := by
  induction as generalizing s with
  | nil => exact trivial
  | cons a as ih => exact ⟨himp s a hs h.1, fun s' hs' => ih (hstep s a s' hs h.1 hs') (h.2 s' hs')⟩

/-- **THE INVARIANT RULE**: what every step keeps, every run keeps. -/
theorem runFrom_invariant (hstep : ∀ s a s', I s → step s a = .ok s' → I s') (hs : I s)
    (h : runFrom step s as = .ok t) : I t :=
  runFrom_invariant_along (G := fun _ _ => True) (fun s a s' hi _ hst => hstep s a s' hi hst) hs
    (Along.of_forall (fun _ _ => trivial) s as) h

/-- A step that starts from a state satisfying `I` and meets `G` never faults: then neither does a run. -/
theorem runFrom_total_along (hstep : ∀ s a, I s → G s a → ∃ s', step s a = .ok s' ∧ I s') (hs : I s)
    (hG : Along step G s as) : ∃ t, runFrom step s as = .ok t ∧ I t := by
  induction as generalizing s with
  | nil => exact ⟨s, rfl, hs⟩
  | cons a as ih =>
    obtain ⟨s', h1, hi⟩ := hstep s a hs hG.1
    obtain ⟨t, ht, hit⟩ := ih hi (hG.2 s' h1)
    exact ⟨t, by rw [runFrom_cons_ok h1]; exact ht, hit⟩

/-- Look at the state a run ends in, if it ends. -/
def observe {B : Type} (obs : S → B) : Except E S → Option B
  | .ok s => some (obs s)
  | .error _ => none

/-- What is observed at the end of a run is so of a state it reaches: a run on fixed
    inputs is settled by evaluating `observe`. -/
theorem exists_of_observe {B : Type} {o : S → B} {b : B} (h : observe o r = some b) : ∃ s, r = .ok s ∧ o s = b := by
  cases r with
  | error e => cases h
  | ok s => exact ⟨s, rfl, Option.some.inj h⟩

/-- The same for a goal that names the run: where it ends `Q` holds, by evaluation, and with it
    what else the goal says of the end. -/
theorem exists_run_of_eval (Q : S → Prop) [DecidablePred Q]
    (h : observe (fun s => decide (Q s)) r = some true) (hP : ∀ s, r = .ok s → Q s → P s) : ∃ s, r = .ok s ∧ P s := by
  obtain ⟨s, hs, hQ⟩ := exists_of_observe h
  exact ⟨s, hs, hP s hs (of_decide_eq_true hQ)⟩

section

variable (hstep : ∀ s a s', I s → G s a → step s a = .ok s' → I s')
include hstep

/-- What is so of every fault that a step meeting `G` raises from a state satisfying the
    invariant is so of the fault that stops a run all of whose steps meet `G`. -/
theorem runFrom_error_along {P : E → Prop}
    (herr : ∀ s a x, I s → G s a → step s a = .error x → P x) (hs : I s) (hG : Along step G s as)
    (h : runFrom step s as = .error x) : P x := by
  induction as generalizing s with
  | nil => cases h
  | cons a as ih =>
    cases hsa : step s a with
    | error y =>
      have hrun : (match step s a with
        | .ok s' => runFrom step s' as
        | .error e => .error e) = .error x := h
      rw [hsa] at hrun
      exact herr s a x hs hG.1 (hsa.trans (congrArg _ (Except.error.inj hrun)))
    | ok s' =>
      rw [runFrom_cons_ok hsa] at h
      exact ih (hstep s a s' hs hG.1 hsa) (hG.2 s' hsa) h

/-- In particular, a fault that no such step raises does not stop such a run. -/
theorem runFrom_ne_error_along
    (hne : ∀ s a, I s → G s a → step s a ≠ .error x) (hs : I s) (hG : Along step G s as) :
    runFrom step s as ≠ .error x := fun h =>
  runFrom_error_along (P := fun y => y ≠ x) hstep (fun s a _ hi hg hsa hyx => hne s a hi hg (hyx ▸ hsa)) hs hG h rfl

end

/-- The same without a side condition. -/
theorem runFrom_ne_error (hstep : ∀ s a s', I s → step s a = .ok s' → I s')
    (hne : ∀ s a, I s → step s a ≠ .error x) (hs : I s) : runFrom step s as ≠ .error x :=
  runFrom_ne_error_along (G := fun _ _ => True) (fun s a s' hi _ => hstep s a s' hi)
    (fun s a hi _ => hne s a hi) hs (Along.of_forall (fun _ _ => trivial) s as)

/-- `t` can be reached from `s` by steps that all meet `G`. -/
def Reaches (step : S → A → Except E S) (G : S → A → Prop) (s t : S) : Prop :=
  ∃ as, Along step G s as ∧ runFrom step s as = .ok t

theorem Reaches.refl (s : S) : Reaches step G s s := ⟨[], trivial, rfl⟩

theorem Reaches.cons (ha : G s a) (h : step s a = .ok s') (ht : Reaches step G s' t) : Reaches step G s t := by
  obtain ⟨as, halong, hrun⟩ := ht
  refine ⟨a :: as, ⟨ha, fun s1 h1 => ?_⟩, (runFrom_cons_ok h as).trans hrun⟩
  rw [← Except.ok.inj (h.symm.trans h1)]
  exact halong

theorem Reaches.trans {u : S} (h : Reaches step G s t) (h' : Reaches step G t u) : Reaches step G s u := by
  obtain ⟨as, halong, hrun⟩ := h
  induction as generalizing s with
  | nil =>
    rw [Except.ok.inj hrun]
    exact h'
  | cons a as ih =>
    obtain ⟨s', hs, hrest⟩ := runFrom_cons_inv hrun
    exact (ih (halong.2 s' hs) hrest).cons halong.1 hs

/-- Run and check the side condition of every step on the way. -/
def runGuarded (step : S → A → Except E S) (G : S → A → Prop) [∀ s a, Decidable (G s a)] :
    S → List A → Option S
  | s, [] => some s
  | s, a :: as =>
    if G s a then
      match step s a with
      | .ok s' => runGuarded step G s' as
      | .error _ => none
    else none

/-- One evaluation settles that a run on fixed inputs meets its side condition and what it ends in. -/
theorem exists_of_runGuarded [∀ s a, Decidable (G s a)] {B : Type} {o : S → B} {b : B}
    (h : (runGuarded step G s as).map o = some b) : Along step G s as ∧ ∃ t, runFrom step s as = .ok t ∧ o t = b := by
  induction as generalizing s with
  | nil => exact ⟨trivial, s, rfl, Option.some.inj h⟩
  | cons a as ih =>
    unfold runGuarded at h
    split at h
    · next hG =>
      split at h
      · next s' hs =>
        obtain ⟨halong, t, ht, ho⟩ := ih h
        refine ⟨⟨hG, fun s1 hs1 => ?_⟩, t, (runFrom_cons_ok hs as).trans ht, ho⟩
        rw [← Except.ok.inj (hs.symm.trans hs1)]
        exact halong
      · cases h
    · cases h

theorem exists_run_of_guarded [∀ s a, Decidable (G s a)] (Q : S → Prop) [DecidablePred Q]
    (h : (runGuarded step G s as).map (fun t => decide (Q t)) = some true)
    (hP : ∀ t, Along step G s as → runFrom step s as = .ok t → Q t → P t) : ∃ t, runFrom step s as = .ok t ∧ P t := by
  obtain ⟨halong, t, ht, hQ⟩ := exists_of_runGuarded h
  exact ⟨t, ht, hP t halong ht (of_decide_eq_true hQ)⟩

-- ── One component of a state changes

section

variable {B : Type} {l : List B} {a b : B} {k : ℕ}

theorem forall_mem_snoc {P : B → Prop} (hl : ∀ x ∈ l, P x) (hb : P b) : ∀ x ∈ l ++ [b], P x :=
  List.forall_mem_append.mpr ⟨hl, List.forall_mem_singleton.mpr hb⟩

theorem nodup_snoc (hl : l.Nodup) (hb : b ∉ l) : (l ++ [b]).Nodup :=
  (perm_append_singleton b l).nodup_iff.mpr (nodup_cons.mpr ⟨hb, hl⟩)

theorem lt_length (h : l[k]? = some a) : k < l.length := (List.getElem?_eq_some_iff.mp h).1

theorem getElem?_append_some (h : l[k]? = some a) (l' : List B) : (l ++ l')[k]? = some a :=
  (getElem?_append_left (lt_length h)).trans h

/-- What stands in a list that has grown by one. -/
theorem getElem?_snoc_cases (h : (l ++ [b])[k]? = some a) : l[k]? = some a ∨ k = l.length ∧ a = b := by
  rcases Nat.lt_trichotomy k l.length with hlt | rfl | hgt
  · exact .inl ((getElem?_append_left hlt).symm.trans h)
  · rw [getElem?_concat_length] at h
    exact .inr ⟨rfl, (Option.some.inj h).symm⟩
  · rw [getElem?_eq_none (by rw [length_append]; exact hgt)] at h
    cases h

/-- What stands in a list after one entry has changed. -/
theorem getElem?_set_cases {i : ℕ} (h : (l.set i b)[k]? = some a) : k = i ∧ a = b ∨ k ≠ i ∧ l[k]? = some a := by
  by_cases hk : k = i
  · have hlt := lt_length h
    rw [length_set] at hlt
    rw [← hk, getElem?_set_self hlt] at h
    exact .inl ⟨hk, (Option.some.inj h).symm⟩
  · exact .inr ⟨hk, (getElem?_set_ne (Ne.symm hk)).symm.trans h⟩

theorem cons_eraseIdx_perm (h : l[k]? = some a) : (a :: l.eraseIdx k).Perm l := by
  obtain ⟨hk, rfl⟩ := List.getElem?_eq_some_iff.mp h
  exact getElem_cons_eraseIdx_perm hk

end

/-- What the new value of a component shares with the old, every component keeps. -/
theorem update_congr {I V B : Type} [DecidableEq I] {g : I → V} {i : I} {v : V} (f : V → B)
    (h : f v = f (g i)) (j : I) : f (Function.update g i v j) = f (g j) := by
  by_cases hj : j = i
  · rw [hj, Function.update_self, h]
  · rw [Function.update_of_ne hj]

end StepRun
