import Uccl.EpReceiverRoundsProofs

/-! # Atomics that arrive during a QUIET

    The proxy's main loop polls the completion queue, runs GPU commands and calls `apply_pending_updates` on a set of
    its own. A QUIET command runs `quiet_cq` in the middle of that loop: it polls the same queue, but collects atomics
    that are not ready in a set that lives on its stack, and returns after three empty polls in a row. An atomic that is
    still in that set then will never be applied (`atomic_lost`). Nothing is lost exactly if no atomic that arrives in
    `quiet_cq` has tokens that arrive after its return (`quiet_keeps_iff`). -/

namespace EpQuietSet

open StepRun EpImm EpReceive TokenRound EpReceiverBarrier List

variable {e : Env} (batching : Bool)

/-- A proxy in low-latency mode. `world.rx.pending` is the set of the loop that is running; in `quiet_cq`,
    `quiet` has the main loop's set and `empty_iters`. -/
structure Proxy (e : Env) where
  world : World e
  quiet : Option (List PendingUpdate × ℕ)

def Proxy.init : Proxy e := ⟨World.init, none⟩

inductive Event (e : Env)
  /-- a source starts a round -/
  | begin (key : Key e) (tokens : List ℕ)
  /-- one poll of the completion queue by the loop that is running, and what it finds -/
  | poll (found : List ℕ)
  /-- `apply_pending_updates` at the end of a turn of the main loop -/
  | apply
  /-- the main loop takes a QUIET command -/
  | quiet

/-- The completions of one poll, one after another. -/
def deliverAll : World e → List ℕ → Except Fault (World e)
  | w, [] => .ok w
  | w, i :: rest =>
    match deliver batching w i with
    | .error f => .error f
    | .ok w' => deliverAll w' rest

def kConsecutiveEmptyToExit : ℕ := 3

/-- The set of the running loop is exchanged. -/
def withSet (w : World e) (pending : List PendingUpdate) : World e :=
  { w with rx := { w.rx with pending := pending } }

def applyPending (w : World e) : World e := { w with rx := applyPendingUpdates w.rx }

def poll (p : Proxy e) (found : List ℕ) : Except Fault (Proxy e) :=
  match p.quiet with
  | none =>
    match deliverAll batching p.world found with
    | .error f => .error f
    | .ok w => .ok { p with world := w }
  | some (outer, emptyIters) =>
    if found = [] then
      if kConsecutiveEmptyToExit ≤ emptyIters + 1 then
        -- `quiet_cq` returns: its own set is destroyed
        .ok ⟨withSet p.world outer, none⟩
      else .ok { p with quiet := some (outer, emptyIters + 1) }
    else
      match deliverAll batching p.world found with
      | .error f => .error f
      | .ok w => .ok ⟨applyPending w, some (outer, 0)⟩

def step (p : Proxy e) : Event e → Except Fault (Proxy e)
  | .begin key tokens => .ok { p with world := beginRound batching p.world key tokens }
  | .poll found => poll batching p found
  | .apply => if p.quiet = none then .ok { p with world := applyPending p.world } else .ok p
  | .quiet =>
    if p.quiet = none then .ok ⟨withSet p.world [], some (p.world.rx.pending, 0)⟩ else .ok p

/-- The main loop's set while `quiet_cq` runs. -/
def Proxy.aside (p : Proxy e) : List PendingUpdate :=
  match p.quiet with
  | none => []
  | some (outer, _) => outer

/-- Every atomic that was sent is under way, applied, or in a set that is going to be examined. -/
def Accounted (p : Proxy e) : Prop :=
  ∀ key, p.world.flight.countP (Msg.isAtomicOf key) + (applied batching p.world key).length +
    (p.world.rx.pending ++ p.aside).countP (isFor batching key) = (p.world.rounds key).length

/-- `quiet_cq` returns with this event. -/
def returns (p : Proxy e) : Event e → Bool
  | .poll [] =>
    match p.quiet with
    | none => false
    | some (_, emptyIters) => decide (kConsecutiveEmptyToExit ≤ emptyIters + 1)
  | _ => false

/-- Tokens of the key are still under way, but its atomic is not, and did not arrive before `quiet_cq` began. -/
def Overtaken (p : Proxy e) (key : Key e) : Prop :=
  0 < (p.world.flight.map (Msg.tokensFor key)).sum ∧ p.world.flight.countP (Msg.isAtomicOf key) = 0 ∧
    p.aside.countP (isFor batching key) = 0
deriving Decidable

/-- If `quiet_cq` returns with this event, no atomic that arrived in it was ahead of its tokens. -/
def TokensIn (p : Proxy e) (a : Event e) : Prop :=
  returns p a = true → ∀ m ∈ p.world.flight, ¬ Overtaken batching p m.key
deriving Decidable

-- ── The defect

/-- Rank 3 dispatches 5 tokens to rank 0. The atomic arrives while rank 0 is in `quiet_cq`, the tokens after
    it has returned. -/
def atomicDuringQuiet : List (Event ⟨0, 4, 8, 2⟩) :=
  [.begin dispatchKey [2, 3], .quiet, .poll [0], .poll [], .poll [], .poll [], .poll [0, 0], .apply]

/-- **THE ATOMIC IS GONE**: everything has been received, nothing has been applied, nothing is held. -/
theorem atomic_lost : ∃ p, runFrom (step false) Proxy.init atomicDuringQuiet = .ok p ∧ p.world.flight = [] ∧
      p.world.rounds dispatchKey = [5] ∧ p.world.rx.adds = [] ∧ p.world.rx.pending = [] ∧
      p.quiet = none := by
  refine exists_run_of_eval (fun p => p.world.flight.length = 0 ∧ p.world.rounds dispatchKey = [5] ∧
    p.world.rx.adds = [] ∧ p.world.rx.pending.length = 0 ∧ p.quiet.isNone) ?_ fun p hrun hp => ?_
  · decide +kernel
  · obtain ⟨hflight, hrounds, hadds, hpending, hquiet⟩ := hp
    exact ⟨eq_nil_of_length_eq_zero hflight, hrounds, hadds, eq_nil_of_length_eq_zero hpending,
      Option.isNone_iff_eq_none.mp hquiet⟩

-- ── What holds otherwise

variable {batching} {aside : List PendingUpdate} {p p' : Proxy e} {a : Event e} {w : World e}

theorem deliverAll_inv (h : Inv batching aside w) (found : List ℕ) :
    ∃ w', deliverAll batching w found = .ok w' ∧ Inv batching aside w' := by
  induction found generalizing w with
  | nil => exact ⟨w, rfl, h⟩
  | cons i rest ih =>
    obtain ⟨w1, hstep, h1⟩ := h.delivered i
    obtain ⟨w2, hrest, h2⟩ := ih h1
    refine ⟨w2, ?_, h2⟩
    unfold deliverAll
    rw [hstep]
    exact hrest

/-- In `quiet_cq` no entry of the set is ready: each was looked at after the last arrival. -/
structure QuietInv (batching : Bool) (p : Proxy e) : Prop where
  inv : Inv batching p.aside p.world
  unready : p.quiet ≠ none → Unready batching p.world

/-- A round of another key does not make an entry ready. -/
theorem unready_begun (h : Inv batching aside w) (hun : Unready batching w) (key : Key e)
    (tokens : List ℕ) : Unready batching (beginRound batching w key tokens) := by
  unfold beginRound
  split
  · next hbegin =>
    intro key' hmem
    by_cases hkey : key' = key
    · have hnone := (h.none_outstanding hbegin.1).2
      rw [countP_eq_zero] at hnone
      refine absurd ?_ (hnone _ (mem_append_left _ hmem))
      rw [hkey, isFor_update]
      exact decide_eq_true rfl
    · have hcur : current { w with
          flight := w.flight ++ round key tokens
          rounds := Function.update w.rounds key (w.rounds key ++ [tokens.sum]) } key' = current w key' :=
        congrArg (getLastD · 0) (Function.update_of_ne hkey ..)
      rw [hcur] at hmem ⊢
      exact hun key' hmem
  · exact hun

/-- An entry of the set is for a key. -/
theorem exists_held (h : Inv batching aside w) (hne : w.rx.pending ≠ []) :
    ∃ key, update batching key (current w key) ∈ w.rx.pending ∧ 0 < w.rx.pending.countP (isFor batching key) := by
  obtain ⟨u, hu⟩ := exists_mem_of_ne_nil _ hne
  obtain ⟨key, rfl⟩ := h.held u (mem_append_left _ hu)
  refine ⟨key, hu, countP_pos_iff.mpr ⟨_, hu, ?_⟩⟩
  rw [isFor_update]
  exact decide_eq_true rfl

/-- The set of `quiet_cq` is empty exactly if none of its atomics was ahead of its tokens. -/
theorem pending_nil_iff (h : Inv batching p.aside p.world) (hun : Unready batching p.world) :
    p.world.rx.pending = [] ↔ ∀ m ∈ p.world.flight, ¬ Overtaken batching p m.key := by
  constructor
  · rintro hnil m - ⟨htokens, hatomic, haside⟩
    have hone : p.world.flight.countP (Msg.isAtomicOf m.key) +
        (p.world.rx.pending ++ p.aside).countP (isFor batching m.key) = 1 :=
      (h.ok m.key).open_iff.mp ((h.ok m.key).open_of_inFlight htokens)
    rw [hnil, nil_append] at hone
    omega
  · intro hin
    by_contra hne
    obtain ⟨key, hu, hlocal⟩ := exists_held h hne
    have hheld : (p.world.rx.pending ++ p.aside).countP (isFor batching key) =
      p.world.rx.pending.countP (isFor batching key) + p.aside.countP (isFor batching key) := countP_append
    have htokens : 0 < (p.world.flight.map (Msg.tokensFor key)).sum :=
      (h.ok key).inFlight_pos (show 0 < (p.world.rx.pending ++ p.aside).countP _ by omega) (hun key hu)
    have hone : p.world.flight.countP (Msg.isAtomicOf key) +
        (p.world.rx.pending ++ p.aside).countP (isFor batching key) = 1 :=
      (h.ok key).open_iff.mp ((h.ok key).open_of_inFlight htokens)
    obtain ⟨m, hm, hkey⟩ : ∃ m ∈ p.world.flight, m.key = key := by
      by_contra hno
      refine absurd (sum_eq_zero fun n hn => ?_) (Nat.ne_of_gt htokens)
      obtain ⟨m, hm, rfl⟩ := mem_map.mp hn
      cases m with
      | write key' k => exact if_neg fun heq => hno ⟨_, hm, heq⟩
      | atomic _ _ => rfl
    exact hin m hm (hkey ▸ ⟨htokens, by omega, by omega⟩)

theorem poll_inv (h : QuietInv batching p) (found : List ℕ) (hG : TokensIn batching p (.poll found)) :
    ∃ p', poll batching p found = .ok p' ∧ QuietInv batching p' := by
  obtain ⟨w, q⟩ := p
  obtain ⟨h, hun⟩ := h
  unfold poll
  cases q with
  | none =>
    obtain ⟨w', hall, h'⟩ := deliverAll_inv h found
    refine ⟨⟨w', none⟩, ?_, h', fun hne => absurd rfl hne⟩
    rw [hall]
  | some q =>
    obtain ⟨outer, emptyIters⟩ := q
    have hunready := hun (Option.some_ne_none _)
    dsimp only
    by_cases hfound : found = []
    · rw [if_pos hfound]
      split
      · next hexit =>
        have hempty : w.rx.pending = [] := by
          rw [hfound] at hG
          exact (pending_nil_iff h hunready).mpr (hG (decide_eq_true hexit))
        refine ⟨_, rfl, h.regroup ?_, fun hne => absurd rfl hne⟩
        show (outer ++ []).Perm (w.rx.pending ++ outer)
        rw [hempty, append_nil, nil_append]
      · exact ⟨_, rfl, h, fun _ => hunready⟩
    · rw [if_neg hfound]
      obtain ⟨w', hall, h'⟩ := deliverAll_inv h found
      refine ⟨⟨applyPending w', some (outer, 0)⟩, ?_, h'.apply.1, fun _ => h'.apply.2⟩
      rw [hall]

theorem step_inv (h : QuietInv batching p) (hG : TokensIn batching p a) :
    ∃ p', step batching p a = .ok p' ∧ QuietInv batching p' := by
  cases a with
  | begin key tokens =>
    exact ⟨_, rfl, h.inv.begun key tokens, fun hq => unready_begun h.inv (h.unready hq) key tokens⟩
  | poll found => exact poll_inv h found hG
  | apply =>
    unfold step
    dsimp only
    split
    · exact ⟨_, rfl, h.inv.apply.1, fun _ => h.inv.apply.2⟩
    · exact ⟨p, rfl, h⟩
  | quiet =>
    unfold step
    dsimp only
    split
    · next hnone =>
      refine ⟨_, rfl, h.inv.regroup ?_, fun _ key hmem => nomatch hmem⟩
      unfold Proxy.aside
      rw [hnone, append_nil, nil_append]
    · exact ⟨p, rfl, h⟩

theorem accounted_of_inv (h : Inv batching p.aside p.world) : Accounted batching p := by
  intro key
  have hout : (applied batching p.world key).length + p.world.flight.countP (Msg.isAtomicOf key) +
    (p.world.rx.pending ++ p.aside).countP (isFor batching key) = (p.world.rounds key).length :=
    (h.ok key).outstanding
  omega

/-- A return that drops an entry leaves its key short of an atomic. -/
theorem not_accounted_of_drop {outer : List PendingUpdate}
    (h : Inv batching outer p.world) (hne : p.world.rx.pending ≠ []) :
    ¬ Accounted batching ⟨withSet p.world outer, none⟩ := by
  intro hacc
  obtain ⟨key, -, hpos⟩ := exists_held h hne
  have hbefore : (applied batching p.world key).length + p.world.flight.countP (Msg.isAtomicOf key) +
    (p.world.rx.pending ++ outer).countP (isFor batching key) = (p.world.rounds key).length :=
    (h.ok key).outstanding
  have hafter : p.world.flight.countP (Msg.isAtomicOf key) + (applied batching p.world key).length +
    (outer ++ []).countP (isFor batching key) = (p.world.rounds key).length := hacc key
  rw [countP_append] at hbefore
  rw [append_nil] at hafter
  omega

/-- **AN ATOMIC SURVIVES A QUIET IFF ITS TOKENS ARE IN BEFORE `quiet_cq` RETURNS**: in every run in which no return
    finds an atomic of its own ahead of its tokens, every atomic is accounted for; and a return from such a state keeps
    that so exactly if it finds none. -/
theorem quiet_keeps_iff (batching : Bool) (e : Env) (acts : List (Event e))
    (hG : Along (step batching) (TokensIn batching) (Proxy.init : Proxy e) acts) :
    ∃ p, runFrom (step batching) (Proxy.init : Proxy e) acts = .ok p ∧ Accounted batching p ∧
      ∀ p', returns p (.poll []) = true → step batching p (.poll []) = .ok p' →
        (Accounted batching p' ↔ TokensIn batching p (.poll [])) := by
  obtain ⟨p, hrun, hinv⟩ := runFrom_total_along (I := QuietInv batching)
    (fun p a hi hg => step_inv hi hg) ⟨EpReceiverBarrier.init_inv, fun hne => absurd rfl hne⟩ hG
  refine ⟨p, hrun, accounted_of_inv hinv.inv, fun p' hret hstep => ⟨fun hacc _ => ?_, fun hin => ?_⟩⟩
  · obtain ⟨w, q⟩ := p
    cases q with
    | none => cases hret
    | some q =>
      obtain ⟨outer, emptyIters⟩ := q
      refine (pending_nil_iff hinv.inv (hinv.unready (Option.some_ne_none _))).mp (by_contra fun hne => ?_)
      have hexit : kConsecutiveEmptyToExit ≤ emptyIters + 1 := of_decide_eq_true hret
      have hstep : (if kConsecutiveEmptyToExit ≤ emptyIters + 1 then Except.ok ⟨withSet w outer, none⟩
        else Except.ok ⟨w, some (outer, emptyIters + 1)⟩) = (Except.ok p' : Except Fault (Proxy e)) := hstep
      rw [if_pos hexit] at hstep
      rw [← Except.ok.inj hstep] at hacc
      exact not_accounted_of_drop (p := ⟨w, none⟩) hinv.inv hne hacc
  · obtain ⟨p₁, hstep₁, hinv₁⟩ := step_inv hinv hin
    rw [← Except.ok.inj (hstep₁.symm.trans hstep)]
    exact accounted_of_inv hinv₁.inv

/-- The tokens are in before the atomic: `quiet_cq` applies it on arrival, and returns with an empty set. -/
def tokensFirst : List (Event ⟨0, 4, 8, 2⟩) :=
  [.begin dispatchKey [2, 3], .poll [1], .quiet, .poll [1], .poll [0], .poll [], .poll [], .poll []]

theorem quiet_keeps_tokensFirst : ∃ p, runFrom (step false) Proxy.init tokensFirst = .ok p ∧ Accounted false p ∧
      ∀ p', returns p (.poll []) = true → step false p (.poll []) = .ok p' →
        (Accounted false p' ↔ TokensIn false p (.poll [])) := by
  refine quiet_keeps_iff false _ tokensFirst ?_
  have heval : (runGuarded (step false) (TokensIn false) (Proxy.init : Proxy ⟨0, 4, 8, 2⟩) tokensFirst).map
      (fun p => p.world.rx.adds) = some [(23, -6)] := by
    decide +kernel
  exact (exists_of_runGuarded heval).1

end EpQuietSet
