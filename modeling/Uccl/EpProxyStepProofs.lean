import Mathlib.Data.Finset.Lattice.Lemmas
import Uccl.EpProxyProofs

/-! # A step of an EP proxy

    The queues of `EpQueue` are the abstraction: `queues` forgets the bytes, the batch and the place the thread is at.
    An id that was taken and waits in the batch or among the postponed ATOMICs counts as posted there, and the BARRIER
    or the QUIET of the batch as in flight. Every step of the loop is then one operation of `EpQueue` or none
    (`Move.sound`), so what is known of the queues holds of the proxy in every run.

    What the queues do not show has its own invariants: `Place` for where the thread is and `Custody` for the items
    between take and posting. `Move` says once what a step can do, and `step_spec` that it does this, or refuses a batch
    with a BARRIER and a QUIET. So the proxy runs on as long as the two do not wait on different rings (`runs_on`). -/

namespace EpProxy

open StepRun EpQueue Function List
open EpDeviceQuiet (HeadIs Heads Sound push_heads complete_heads accept_heads retireFront_heads
  init_heads)

variable {Q : ℕ} {cfg : Config} {x x' : Proxy Q}
variable {c : CmdType} {items go qs : List (Item Q)} {wr : ℕ} {it : Item Q} {i j : Fin Q}
  {cmd : TransferCmd} {next : Pc} {ready : ℕ → Bool} {call : DeviceCall} {r : D2HQueue} {a : Action Q}

-- ── The proxy as a set of queues

def D2HQueue.ring (r : D2HQueue) : EpQueue.Ring :=
  { fifo := r.fifo.map TransferCmd.cmdType, tail := r.tail, pending := r.pending.map Prod.fst
    fifoSeq := r.fifoSeq, retired := r.retired.length }

/-- What is in flight: what the context says, or the first of `items`. -/
def flight (wr : Option ℕ) (items : List (Item Q)) : Option ℕ := wr.or (items.head?.map Item.wr)

def queues (x : Proxy Q) : Queues Q :=
  { ring := D2HQueue.ring ∘ x.queue
    acked := x.acked
    barrierInflight := x.barrierInflight
    barrierWr := flight x.barrierWr (ofType .barrier x.batch)
    quietInflight := x.quietInflight
    quietWr := flight x.quietWr (ofType .quiet x.batch)
    nic := x.outstanding ∪ ids (transfers (x.batch ++ x.postponed)) }

/-- What was pushed on each ring. -/
def cmds (x : Proxy Q) (i : Fin Q) : List CmdType := (x.queue i).pushed.map TransferCmd.cmdType

theorem queues_eq {q q' : Queues Q} (hring : q.ring = q'.ring) (hacked : q.acked = q'.acked)
    (hbf : q.barrierInflight = q'.barrierInflight) (hb : q.barrierWr = q'.barrierWr)
    (hqf : q.quietInflight = q'.quietInflight) (hq : q.quietWr = q'.quietWr) (hnic : q.nic = q'.nic) : q = q' := by
  cases q
  cases q'
  cases hring
  cases hacked
  cases hbf
  cases hb
  cases hqf
  cases hq
  cases hnic
  rfl

theorem goesOn_ne_barrier (h : goesOn c = true) : c ≠ .barrier := by
  rintro rfl
  cases h

theorem goesOn_ne_quiet (h : goesOn c = true) : c ≠ .quiet := by
  rintro rfl
  cases h

@[simp] theorem flight_nil (wr : Option ℕ) : flight wr ([] : List (Item Q)) = wr := Option.or_none

theorem flight_eq_none {wr : Option ℕ} (h : flight wr items = none) : wr = none ∧ items = [] := by
  obtain ⟨hwr, hitems⟩ := Option.or_eq_none_iff.mp h
  exact ⟨hwr, head?_eq_none_iff.mp (Option.map_eq_none_iff.mp hitems)⟩

section

variable (c : CmdType) (it : Item Q) (l l' : List (Item Q))

@[simp] theorem ring_pop (r : D2HQueue) : r.pop.ring = r.ring.pop := by
  simp only [D2HQueue.pop, D2HQueue.ring, EpQueue.Ring.pop, map_tail]

@[simp] theorem mem_ids : wr ∈ ids items ↔ ∃ it ∈ items, it.wr = wr := by
  rw [ids, mem_toFinset, mem_map]

@[simp] theorem ids_append : ids (l ++ l') = ids l ∪ ids l' := by
  rw [ids, map_append, toFinset_append]
  rfl

theorem ids_perm {l l' : List (Item Q)} (h : l.Perm l') : ids l = ids l' := toFinset_eq_of_perm _ _ (h.map Item.wr)

@[simp] theorem transfers_append : transfers (l ++ l') = transfers l ++ transfers l' := filter_append ..

theorem transfers_perm {l l' : List (Item Q)} (h : l.Perm l') : (transfers l).Perm (transfers l') := h.filter _

@[simp] theorem ofType_append : ofType c (l ++ l') = ofType c l ++ ofType c l' := filter_append ..

theorem ofType_single : ofType c [it] = if it.cmd.cmdType = c then [it] else [] := by
  simp only [ofType, filter_cons, filter_nil, beq_iff_eq]

theorem transfers_single : transfers [it] = if goesOn it.cmd.cmdType then [it] else [] := by
  simp only [transfers, filter_cons, filter_nil]

end

theorem ofType_snoc_self (h : it.cmd.cmdType = c) (l : List (Item Q)) : ofType c (l ++ [it]) = ofType c l ++ [it] := by
  rw [ofType_append, ofType_single, if_pos h]

theorem ofType_snoc_of_ne (h : it.cmd.cmdType ≠ c) (l : List (Item Q)) : ofType c (l ++ [it]) = ofType c l := by
  rw [ofType_append, ofType_single, if_neg h, append_nil]

theorem transfers_snoc_of_not (h : goesOn it.cmd.cmdType = false) (l l' : List (Item Q)) :
    transfers (l ++ [it] ++ l') = transfers (l ++ l') := by
  rw [transfers_append, transfers_append, transfers_single, h, transfers_append]
  simp only [Bool.false_eq_true, if_false, append_nil]

@[simp] theorem mem_transfers : it ∈ transfers items ↔ it ∈ items ∧ goesOn it.cmd.cmdType = true := mem_filter

@[simp] theorem mem_ofType : it ∈ ofType c items ↔ it ∈ items ∧ it.cmd.cmdType = c := by
  rw [ofType, mem_filter, beq_iff_eq]

-- ── The operations on the queues

theorem queues_setQueue (x : Proxy Q) (i : Fin Q) (r : D2HQueue) : queues (setQueue x i r) =
      { queues x with ring := update (queues x).ring i r.ring } := by
  refine queues_eq ?_ rfl rfl rfl rfl rfl rfl
  exact comp_update D2HQueue.ring x.queue i r

theorem queues_pushCall (x : Proxy Q) (i : Fin Q) (call : DeviceCall) :
    queues (pushCall x i call) = push (queues x) i call.cmd.cmdType := by
  rw [pushCall, queues_setQueue]
  simp only [D2HQueue.ring, D2HQueue.push, map_append, map_singleton, push, queues, Function.comp_apply]

/-- What an accepted trigger does besides joining the batch. -/
theorem accept_cases (h : accept cfg x i cmd = .ok x') :
    (cmd.cmdType = .barrier ∧ x.barrierWr = none ∧ x' = { collect x i cmd with
        barrierInflight := true
        barrierWr := if cfg.cxi then some (uniqueWrId i (x.queue i).fifoSeq) else none }) ∨
    (cmd.cmdType = .quiet ∧ x.quietWr = none ∧ x' = { collect x i cmd with
        quietInflight := true
        quietWr := if cfg.cxi then some (uniqueWrId i (x.queue i).fifoSeq) else none }) ∨
    (goesOn cmd.cmdType = true ∧ x' = setQueue (collect x i cmd) i ((collect x i cmd).queue i).pop) := by
  unfold accept at h
  cases hc : cmd.cmdType with
  | barrier =>
    simp only [hc] at h
    split at h
    · cases h
    · next hfree =>
      obtain ⟨-, hwr⟩ := not_or.mp hfree
      have hwr : x.barrierWr = none := not_not.mp hwr
      rw [hwr] at h
      exact .inl ⟨rfl, hwr, (Except.ok.inj h).symm⟩
  | quiet =>
    simp only [hc] at h
    split at h
    · cases h
    · next hfree =>
      obtain ⟨-, hwr⟩ := not_or.mp hfree
      have hwr : x.quietWr = none := not_not.mp hwr
      rw [hwr] at h
      exact .inr (.inl ⟨rfl, hwr, (Except.ok.inj h).symm⟩)
  | write | atomic =>
    simp only [hc] at h
    exact .inr (.inr ⟨rfl, (Except.ok.inj h).symm⟩)

theorem collect_ring (x : Proxy Q) (i : Fin Q) (cmd : TransferCmd) :
    (queues (collect x i cmd)).ring = update (queues x).ring i (((queues x).ring i).assign i) := by
  rw [collect, queues_setQueue]
  simp only [D2HQueue.ring, D2HQueue.assign, map_append, map_singleton,
    EpQueue.Ring.assign, queues, Function.comp_apply]

/-- A taken trigger is taken in the queues. -/
theorem queues_accept (h : accept cfg x i cmd = .ok x') (hb : cmd.cmdType = .barrier → ofType .barrier x.batch = [])
    (hq : cmd.cmdType = .quiet → ofType .quiet x.batch = []) : queues x' = EpQueue.accept (queues x) i cmd.cmdType := by
  have hring := collect_ring x i cmd
  have htype : (nextItem x i cmd).cmd.cmdType = cmd.cmdType := rfl
  rcases accept_cases h with ⟨hc, hwr, rfl⟩ | ⟨hc, hwr, rfl⟩ | ⟨hc, rfl⟩
  · rw [hc] at htype ⊢
    refine queues_eq hring rfl rfl ?_ rfl ?_ ?_
    · show flight _ (ofType .barrier (x.batch ++ [nextItem x i cmd])) = _
      rw [ofType_snoc_self htype, hb hc]
      cases cfg.cxi <;> rfl
    · show flight x.quietWr (ofType .quiet (x.batch ++ [nextItem x i cmd])) = _
      rw [ofType_snoc_of_ne (by rw [htype]; decide)]
      rfl
    · show x.outstanding ∪ ids (transfers (x.batch ++ [nextItem x i cmd] ++ x.postponed)) = _
      rw [transfers_snoc_of_not (by rw [htype]; rfl)]
      rfl
  · rw [hc] at htype ⊢
    refine queues_eq hring rfl rfl ?_ rfl ?_ ?_
    · show flight x.barrierWr (ofType .barrier (x.batch ++ [nextItem x i cmd])) = _
      rw [ofType_snoc_of_ne (by rw [htype]; decide)]
      rfl
    · show flight _ (ofType .quiet (x.batch ++ [nextItem x i cmd])) = _
      rw [ofType_snoc_self htype, hq hc]
      cases cfg.cxi <;> rfl
    · show x.outstanding ∪ ids (transfers (x.batch ++ [nextItem x i cmd] ++ x.postponed)) = _
      rw [transfers_snoc_of_not (by rw [htype]; rfl)]
      rfl
  · have hnb := goesOn_ne_barrier hc
    have hnq := goesOn_ne_quiet hc
    have haccept : EpQueue.accept (queues x) i cmd.cmdType = { queues x with
        ring := update (queues x).ring i (((queues x).ring i).assign i).pop
        nic := insert (uniqueWrId i ((queues x).ring i).fifoSeq) (queues x).nic } := by
      cases hd : cmd.cmdType with
      | barrier => exact absurd hd hnb
      | quiet => exact absurd hd hnq
      | write | atomic => rfl
    rw [haccept, queues_setQueue, ring_pop]
    refine queues_eq ?_ rfl rfl ?_ rfl ?_ ?_
    · show update (queues (collect x i cmd)).ring i ((queues (collect x i cmd)).ring i).pop = _
      rw [hring, update_self, update_idem]
    · show flight x.barrierWr (ofType .barrier (x.batch ++ [nextItem x i cmd])) = _
      rw [ofType_snoc_of_ne (htype ▸ hnb)]
      rfl
    · show flight x.quietWr (ofType .quiet (x.batch ++ [nextItem x i cmd])) = _
      rw [ofType_snoc_of_ne (htype ▸ hnq)]
      rfl
    · have hperm : (x.batch ++ [nextItem x i cmd] ++ x.postponed).Perm
          ([nextItem x i cmd] ++ (x.batch ++ x.postponed)) := by
        rw [append_assoc]
        exact perm_middle
      show x.outstanding ∪ ids (transfers (x.batch ++ [nextItem x i cmd] ++ x.postponed)) =
        {(nextItem x i cmd).wr} ∪ (x.outstanding ∪ ids (transfers (x.batch ++ x.postponed)))
      rw [ids_perm (transfers_perm hperm), transfers_append, transfers_single, htype, if_pos hc,
        ids_append, Finset.union_left_comm]
      rfl

theorem queues_retireQuiet (hbatch : x.batch = []) (i : Fin Q) (wr : ℕ) :
    queues (retireQuiet x i wr) = clearQuiet (queues x) i wr := by
  have hwr : (queues x).quietWr = x.quietWr := by
    show flight x.quietWr (ofType .quiet x.batch) = _
    rw [hbatch]
    exact flight_nil _
  unfold retireQuiet clearQuiet
  rw [hwr]
  split
  · rw [queues_setQueue, ring_pop]
    refine queues_eq rfl rfl rfl rfl rfl ?_ rfl
    rw [hbatch]
    rfl
  · rfl

theorem queues_retireBarrier (hbatch : x.batch = []) (i : Fin Q) (wr : ℕ) :
    queues (retireBarrier x i wr) = clearBarrier (queues x) i wr := by
  have hwr : (queues x).barrierWr = x.barrierWr := by
    show flight x.barrierWr (ofType .barrier x.batch) = _
    rw [hbatch]
    exact flight_nil _
  unfold retireBarrier clearBarrier
  rw [hwr]
  split
  · rw [queues_setQueue, ring_pop]
    refine queues_eq rfl rfl rfl ?_ rfl rfl rfl
    rw [hbatch]
    rfl
  · rfl

theorem retireQuiet_batch (x : Proxy Q) (i : Fin Q) (wr : ℕ) : (retireQuiet x i wr).batch = x.batch := by
  unfold retireQuiet
  split <;> rfl

theorem queues_retireFront (hbatch : x.batch = []) (i : Fin Q) (wr bytes : ℕ) (rest : List (ℕ × ℕ)) :
    queues (retireFront x i wr bytes rest) = EpQueue.retireFront (queues x) i wr (rest.map Prod.fst) := by
  let y : Proxy Q :=
    setQueue { x with acked := x.acked.erase wr, inflightBytes := subBytes x.inflightBytes bytes }
      i ((x.queue i).retire wr rest)
  have hy : queues y = { queues x with
      acked := (queues x).acked.erase wr
      ring := update (queues x).ring i { (queues x).ring i with
          pending := rest.map Prod.fst, retired := ((queues x).ring i).retired + 1 } } := by
    rw [queues_setQueue]
    simp only [D2HQueue.ring, D2HQueue.retire, length_append, length_singleton, queues, Function.comp_apply]
  calc queues (retireBarrier (retireQuiet y i wr) i wr)
      = clearBarrier (queues (retireQuiet y i wr)) i wr :=
        queues_retireBarrier ((retireQuiet_batch y i wr).trans hbatch) i wr
    _ = clearBarrier (clearQuiet (queues y) i wr) i wr := by rw [queues_retireQuiet (x := y) hbatch]
    _ = EpQueue.retireFront (queues x) i wr (rest.map Prod.fst) := by rw [hy]; rfl

-- ── Where the thread is, and what it holds

/-- The thread is between the first take and the last post of `post_gpu_command`. -/
def Pc.collecting : Pc → Bool
  | .take _ _ | .post | .cxi | .cxiQuiet _ => true
  | _ => false

structure Place (cfg : Config) (x : Proxy Q) : Prop where
  idle : x.pc.collecting = false → x.batch = []
  cxi : (x.pc = .cxi ∨ ∃ wr, x.pc = .cxiQuiet wr) → cfg.cxi = true
  quiet : ∀ wr, ((∃ n, x.pc = .quiet wr n) ∨ x.pc = .cxiQuiet wr) → x.quietWr = some wr
  budget : ∀ (i : Fin Q) b, x.pc = .take i b → b + (x.queue i).pending.length ≤ cfg.maxInflight

/-- The items between take and posting. -/
structure Custody (cfg : Config) (x : Proxy Q) : Prop where
  nodup : ((transfers (x.batch ++ x.postponed)).map Item.wr).Nodup
  apart : ∀ it ∈ transfers (x.batch ++ x.postponed), it.wr ∉ x.outstanding
  barriers : ∀ it ∈ ofType .barrier x.batch,
    ofType .barrier x.batch = [it] ∧ x.barrierWr = if cfg.cxi then some it.wr else none
  quiets : ∀ it ∈ ofType .quiet x.batch,
    ofType .quiet x.batch = [it] ∧ x.quietWr = if cfg.cxi then some it.wr else none
  atomics : ∀ it ∈ x.postponed, it.cmd.cmdType = .atomic

/-- Some items of the batch or of those held back are posted. -/
structure Handed (cfg : Config) (x x' : Proxy Q) (go : List (Item Q)) : Prop where
  queue : x'.queue = x.queue
  inflightBytes : x'.inflightBytes = x.inflightBytes
  acked : x'.acked = x.acked
  barrierInflight : x'.barrierInflight = x.barrierInflight
  quietInflight : x'.quietInflight = x.quietInflight
  posted : x'.posted = x.posted ++ go
  outstanding : x'.outstanding = x.outstanding ∪ ids (transfers go)
  perm : (go ++ (x'.batch ++ x'.postponed)).Perm (x.batch ++ x.postponed)
  barrier : flight x'.barrierWr (ofType .barrier x'.batch) = flight x.barrierWr (ofType .barrier x.batch)
  quiet : flight x'.quietWr (ofType .quiet x'.batch) = flight x.quietWr (ofType .quiet x.batch)
  barriers : ∀ it ∈ ofType .barrier x'.batch,
    ofType .barrier x'.batch = [it] ∧ x'.barrierWr = if cfg.cxi then some it.wr else none
  quiets : ∀ it ∈ ofType .quiet x'.batch,
    ofType .quiet x'.batch = [it] ∧ x'.quietWr = if cfg.cxi then some it.wr else none
  atomics : ∀ it ∈ x'.postponed, it.cmd.cmdType = .atomic

/-- What the proxy can do in a step. -/
inductive Move (cfg : Config) (x : Proxy Q) : Proxy Q → Prop
  | complete (wr : ℕ) (pc : Pc) (hout : wr ∈ x.outstanding) :
      Move cfg x
        { x with outstanding := x.outstanding.erase wr, acked := insert wr x.acked, pc := pc }
  | ack (wr : ℕ) (pc : Pc) (hwr : x.barrierWr = some wr ∨ x.quietWr = some wr) :
      Move cfg x { x with acked := insert wr x.acked, pc := pc }
  | retire (i : Fin Q) (wr bytes : ℕ) (rest : List (ℕ × ℕ))
      (hfront : (x.queue i).pending = (wr, bytes) :: rest) (hacked : wr ∈ x.acked)
      (hbatch : x.batch = []) : Move cfg x (retireFront x i wr bytes rest)
  | take (i : Fin Q) (cmd : TransferCmd) (y : Proxy Q) (pc : Pc)
      (hroom : (x.queue i).pending.length < cfg.maxInflight)
      (hhead : (x.queue i).fifo.head? = some cmd) (hbytes : x.inflightBytes < cfg.byteLimit)
      (hheld : held x cmd.cmdType = false) (haccept : accept cfg x i cmd = .ok y) :
      Move cfg x { y with pc := pc }
  | hand (x' : Proxy Q) (go : List (Item Q)) (h : Handed cfg x x' go) : Move cfg x x'
  | goto (pc : Pc) : Move cfg x { x with pc := pc }

theorem Move.stay : Move cfg x x := .goto x.pc

-- ── The queues in a step

/-- The queue of an accepted trigger, popped or not. -/
theorem accept_queue (h : accept cfg x i cmd = .ok x') : x'.queue = update x.queue i
      (if goesOn cmd.cmdType then ((x.queue i).assign i cmd).pop else (x.queue i).assign i cmd) := by
  rcases accept_cases h with ⟨hc, -, rfl⟩ | ⟨hc, -, rfl⟩ | ⟨hc, rfl⟩
  · rw [hc]
    rfl
  · rw [hc]
    rfl
  · rw [if_pos hc]
    simp only [setQueue, collect, update_self, update_idem]

/-- The queue after its front has retired: a QUIET or a BARRIER leaves its head. -/
theorem retireFront_queue (hne : x.quietWr = some wr → x.barrierWr ≠ some wr) (bytes : ℕ) (rest : List (ℕ × ℕ)) :
    (retireFront x i wr bytes rest).queue = update x.queue i
      (if x.quietWr = some wr ∨ x.barrierWr = some wr then ((x.queue i).retire wr rest).pop
      else (x.queue i).retire wr rest) := by
  unfold retireFront retireBarrier retireQuiet setQueue
  by_cases hquiet : x.quietWr = some wr
  · have hbarrier := hne hquiet
    simp [hquiet, hbarrier]
  · by_cases hbarrier : x.barrierWr = some wr
    · simp [hquiet, hbarrier]
    · simp [hquiet, hbarrier]

/-- Changing one queue and not what was pushed on it. -/
theorem cmds_of_update (h : x'.queue = update x.queue i r) (hr : r.pushed = (x.queue i).pushed) : cmds x' = cmds x := by
  funext j
  unfold cmds
  rw [h]
  exact congrArg _ (update_congr D2HQueue.pushed hr j)

theorem cmds_pushCall (x : Proxy Q) (i : Fin Q) (call : DeviceCall) :
    cmds (pushCall x i call) = update (cmds x) i (cmds x i ++ [call.cmd.cmdType]) := by
  funext j
  show (update x.queue i ((x.queue i).push call.cmd) j).pushed.map TransferCmd.cmdType = _
  by_cases hj : j = i
  · rw [hj, update_self, update_self]
    exact map_append ..
  · rw [update_of_ne hj, update_of_ne hj]
    rfl

theorem barrierWr_queues (h : x.barrierWr = some wr) : (queues x).barrierWr = some wr := by
  show flight x.barrierWr _ = _
  rw [h]
  rfl

theorem quietWr_queues (h : x.quietWr = some wr) : (queues x).quietWr = some wr := by
  show flight x.quietWr _ = _
  rw [h]
  rfl

/-- A QUIET and a BARRIER in flight have different ids. -/
theorem quietWr_ne_barrierWr (h : (queues x).Ok cfg.maxInflight) (hquiet : x.quietWr = some wr) :
    x.barrierWr ≠ some wr := fun hbarrier =>
  (h.quiet wr (quietWr_queues hquiet)).2.2 (barrierWr_queues hbarrier)

theorem queues_handed (h : Handed cfg x x' go) : queues x' = queues x := by
  refine queues_eq (congrArg (D2HQueue.ring ∘ ·) h.queue) h.acked h.barrierInflight h.barrier h.quietInflight h.quiet ?_
  show x'.outstanding ∪ ids (transfers (x'.batch ++ x'.postponed)) =
    x.outstanding ∪ ids (transfers (x.batch ++ x.postponed))
  rw [h.outstanding, Finset.union_assoc, ← ids_append, ← transfers_append]
  exact congrArg _ (ids_perm (transfers_perm h.perm))

theorem queues_complete (hc : Custody cfg x) (hout : wr ∈ x.outstanding) (pc : Pc) :
    queues { x with outstanding := x.outstanding.erase wr, acked := insert wr x.acked, pc := pc } =
      complete (queues x) wr := by
  have hnot : wr ∉ ids (transfers (x.batch ++ x.postponed)) := fun hin => by
    obtain ⟨it, hit, rfl⟩ := mem_ids.mp hin
    exact hc.apart it hit hout
  have hin : wr ∈ (queues x).nic := Finset.mem_union_left _ hout
  rw [complete, if_pos hin]
  refine queues_eq rfl rfl rfl rfl rfl rfl ?_
  show x.outstanding.erase wr ∪ _ = (x.outstanding ∪ _).erase wr
  rw [Finset.erase_union_distrib, Finset.erase_eq_of_notMem hnot]

/-- The kind of trigger that is not held back has none of its kind in the batch. -/
theorem no_second (h : (queues x).Ok cfg.maxInflight) (hheld : held x c = false) :
    (c = .barrier → x.barrierWr = none ∧ ofType .barrier x.batch = []) ∧
      (c = .quiet → x.quietWr = none ∧ ofType .quiet x.batch = []) := by
  constructor
  · rintro rfl
    have hf : x.barrierInflight = false := by simpa [held] using hheld
    refine flight_eq_none (Option.isSome_eq_false_iff.mp ?_ |> Option.isNone_iff_eq_none.mp)
    exact h.barrierInflight.symm.trans hf
  · rintro rfl
    have hf : x.quietInflight = false := by simpa [held] using hheld
    refine flight_eq_none (Option.isSome_eq_false_iff.mp ?_ |> Option.isNone_iff_eq_none.mp)
    exact h.quietInflight.symm.trans hf

theorem maxInflight_lt (cfg : Config) : cfg.maxInflight < 2 ^ 32 := cfg.kMaxInflight.isLt

theorem ring_pending_lt {i : Fin Q} (h : (x.queue i).pending.length < cfg.maxInflight) :
    ((queues x).ring i).pending.length < cfg.maxInflight := by
  show ((x.queue i).pending.map Prod.fst).length < _
  rw [length_map]
  exact h

/-- Every step of the loop is a step of the queues, or none. -/
theorem Move.sound (h : Move cfg x x') (hs : Sound cfg.maxInflight (queues x) (cmds x))
    (hc : Custody cfg x) : Sound cfg.maxInflight (queues x') (cmds x') := by
  cases h with
  | complete wr pc hout =>
    rw [queues_complete hc hout pc]
    exact ⟨complete_ok hs.ok wr, complete_heads hs.heads wr⟩
  | ack wr pc hwr =>
    obtain ⟨hpend, hnic⟩ : Pending (queues x) wr ∧ wr ∉ (queues x).nic := by
      rcases hwr with hwr | hwr
      · exact hs.ok.barrier wr (barrierWr_queues hwr)
      · have hq := hs.ok.quiet wr (quietWr_queues hwr)
        exact ⟨hq.1, hq.2.1⟩
    exact ⟨ack_ok hs.ok hpend hnic, hs.heads.congr rfl rfl rfl⟩
  | retire i wr bytes rest hfront hacked hbatch =>
    have hpend : ((queues x).ring i).pending = wr :: rest.map Prod.fst := by
      show (x.queue i).pending.map Prod.fst = _
      rw [hfront]
      rfl
    have hcmds : cmds (retireFront x i wr bytes rest) = cmds x :=
      cmds_of_update (retireFront_queue (quietWr_ne_barrierWr hs.ok) bytes rest) (by split <;> rfl)
    rw [queues_retireFront hbatch, hcmds]
    exact ⟨(retireFront_retired hs.ok i wr _).ok hs.ok hpend hacked,
      retireFront_heads hs.heads hs.ok (maxInflight_lt cfg) hpend⟩
  | take i cmd y pc hroom hhead hbytes hheld haccept =>
    have hfree := no_second hs.ok hheld
    have hq : queues y = EpQueue.accept (queues x) i cmd.cmdType :=
      queues_accept haccept (fun hb => (hfree.1 hb).2) fun hb => (hfree.2 hb).2
    have hcmds : cmds y = cmds x := cmds_of_update (accept_queue haccept) (by split <;> rfl)
    have hfirst : ((queues x).ring i).fifo.head? = some cmd.cmdType := by
      show ((x.queue i).fifo.map TransferCmd.cmdType).head? = _
      rw [head?_map, hhead]
      rfl
    have hlen := ring_pending_lt hroom
    show Sound cfg.maxInflight (queues y) (cmds y)
    rw [hq, hcmds]
    exact ⟨accept_ok hs.ok (maxInflight_lt cfg) hlen, accept_heads hs.heads hs.ok hfirst hheld⟩
  | hand x' go h =>
    have hcmds : cmds x' = cmds x := by
      unfold cmds
      rw [h.queue]
    rw [queues_handed h, hcmds]
    exact hs
  | goto pc => exact hs

-- ── The items in a step

/-- What `accept` does to the rest of the proxy. -/
theorem accept_fields (h : accept cfg x i cmd = .ok x') :
    x'.batch = x.batch ++ [nextItem x i cmd] ∧ x'.postponed = x.postponed ∧
      x'.outstanding = x.outstanding ∧ x'.posted = x.posted ∧
      x'.inflightBytes = addBytes x.inflightBytes cmd := by
  rcases accept_cases h with ⟨-, -, rfl⟩ | ⟨-, -, rfl⟩ | ⟨-, rfl⟩ <;> exact ⟨rfl, rfl, rfl, rfl, rfl⟩

theorem retireFront_fields (x : Proxy Q) (i : Fin Q) (wr bytes : ℕ) (rest : List (ℕ × ℕ)) :
    (retireFront x i wr bytes rest).batch = x.batch ∧ (retireFront x i wr bytes rest).postponed = x.postponed ∧
      (retireFront x i wr bytes rest).outstanding = x.outstanding ∧
      (retireFront x i wr bytes rest).posted = x.posted ∧
      (retireFront x i wr bytes rest).inflightBytes = subBytes x.inflightBytes bytes ∧
      (retireFront x i wr bytes rest).pc = x.pc := by
  unfold retireFront retireBarrier retireQuiet
  split <;> split <;> exact ⟨rfl, rfl, rfl, rfl, rfl, rfl⟩

/-- Nothing on the way has the next id. -/
theorem nextItem_fresh (hok : (queues x).Ok cfg.maxInflight) (cmd : TransferCmd)
    (hroom : (x.queue i).pending.length < cfg.maxInflight) : (nextItem x i cmd).wr ∉ (queues x).nic := by
  intro hin
  have hlen := ring_pending_lt hroom
  exact hok.fresh hlen (maxInflight_lt cfg) (hok.nic _ hin).1

/-- The items of type `c` are one at most, and over CXI it is in the context. -/
def Sole (cfg : Config) (c : CmdType) (items : List (Item Q)) (wr : Option ℕ) : Prop :=
  ∀ it ∈ ofType c items, ofType c items = [it] ∧ wr = if cfg.cxi then some it.wr else none

theorem Sole.snoc {wr : Option ℕ} (h : Sole cfg c items wr) (hne : it.cmd.cmdType ≠ c) :
    Sole cfg c (items ++ [it]) wr := by
  rw [Sole, ofType_snoc_of_ne hne]
  exact h

theorem sole_snoc (hnil : ofType c items = []) (htype : it.cmd.cmdType = c) :
    Sole cfg c (items ++ [it]) (if cfg.cxi then some it.wr else none) := by
  rw [Sole, ofType_snoc_self htype, hnil]
  intro it' hit
  rw [mem_singleton.mp hit]
  exact ⟨rfl, rfl⟩

theorem accept_custody (hc : Custody cfg x) (hok : (queues x).Ok cfg.maxInflight)
    (hroom : (x.queue i).pending.length < cfg.maxInflight) (hheld : held x cmd.cmdType = false)
    (h : accept cfg x i cmd = .ok x') : Custody cfg x' := by
  obtain ⟨hbatch, hpost, hout, -, -⟩ := accept_fields h
  have hfresh := nextItem_fresh hok cmd hroom
  have hnone := no_second hok hheld
  -- the new item in front, the others as they were
  have hperm : (x'.batch ++ x'.postponed).Perm (nextItem x i cmd :: (x.batch ++ x.postponed)) := by
    rw [hbatch, hpost, append_assoc]
    exact perm_middle
  have hmem : ∀ it ∈ transfers (x'.batch ++ x'.postponed),
      it = nextItem x i cmd ∨ it ∈ transfers (x.batch ++ x.postponed) := by
    intro it hit
    obtain ⟨hin, hgoes⟩ := mem_transfers.mp hit
    exact (mem_cons.mp (hperm.mem_iff.mp hin)).imp_right fun hin => mem_transfers.mpr ⟨hin, hgoes⟩
  refine ⟨?_, fun it hit => ?_, ?_, ?_, ?_⟩
  · refine ((hperm.filter _).map Item.wr).nodup_iff.mpr ?_
    rw [filter_cons]
    split
    · refine nodup_cons.mpr ⟨fun hin => hfresh ?_, hc.nodup⟩
      exact Finset.mem_union_right _ (mem_toFinset.mpr hin)
    · exact hc.nodup
  · rw [hout]
    rcases hmem it hit with rfl | hin
    · exact fun hin => hfresh (Finset.mem_union_left _ hin)
    · exact hc.apart it hin
  · rw [hbatch]
    rcases accept_cases h with ⟨hcmd, -, rfl⟩ | ⟨hcmd, -, rfl⟩ | ⟨hcmd, rfl⟩
    · exact sole_snoc (hnone.1 hcmd).2 hcmd
    · exact Sole.snoc hc.barriers fun heq => absurd (hcmd.symm.trans heq) (by decide)
    · exact Sole.snoc hc.barriers (goesOn_ne_barrier hcmd)
  · rw [hbatch]
    rcases accept_cases h with ⟨hcmd, -, rfl⟩ | ⟨hcmd, -, rfl⟩ | ⟨hcmd, rfl⟩
    · exact Sole.snoc hc.quiets fun heq => absurd (hcmd.symm.trans heq) (by decide)
    · exact sole_snoc (hnone.2 hcmd).2 hcmd
    · exact Sole.snoc hc.quiets (goesOn_ne_quiet hcmd)
  · rw [hpost]
    exact hc.atomics

theorem Handed.custody (h : Handed cfg x x' go) (hc : Custody cfg x) : Custody cfg x' := by
  have hperm : (transfers go ++ transfers (x'.batch ++ x'.postponed)).Perm (transfers (x.batch ++ x.postponed)) := by
    rw [← transfers_append]
    exact transfers_perm h.perm
  have hnodup := (hperm.map Item.wr).nodup_iff.mpr hc.nodup
  rw [map_append] at hnodup
  refine { h with nodup := hnodup.of_append_right, apart := fun it hit hout => ?_ }
  rw [h.outstanding] at hout
  rcases Finset.mem_union.mp hout with hold | hnew
  · exact hc.apart it (hperm.mem_iff.mp (mem_append_right _ hit)) hold
  · exact disjoint_of_nodup_append hnodup (mem_toFinset.mp hnew) (mem_map_of_mem hit)

theorem Move.custody (h : Move cfg x x') (hs : Sound cfg.maxInflight (queues x) (cmds x))
    (hc : Custody cfg x) : Custody cfg x' := by
  cases h with
  | complete wr pc hout =>
    exact { hc with apart := fun it hit hin => hc.apart it hit (Finset.mem_of_mem_erase hin) }
  | ack wr pc hwr | goto pc => exact { hc with }
  | retire i wr bytes rest hfront hacked hbatch =>
    obtain ⟨hb, hp, ho, -, -, -⟩ := retireFront_fields x i wr bytes rest
    refine ⟨?_, ?_, fun it hit => ?_, fun it hit => ?_, ?_⟩
    · rw [hb, hp]
      exact hc.nodup
    · rw [hb, hp, ho]
      exact hc.apart
    · rw [hb, hbatch] at hit
      cases hit
    · rw [hb, hbatch] at hit
      cases hit
    · rw [hp]
      exact hc.atomics
  | take i cmd y pc hroom hhead hbytes hheld haccept =>
    have hy := accept_custody hc hs.ok hroom hheld haccept
    exact { hy with }
  | hand x' go h => exact h.custody hc

-- ── What posting does

theorem postBarrier_ok {bs : List (Item Q)} (h : postBarrier cfg x bs qs = .ok x') :
    x' = { x with barrierWr := flight x.barrierWr bs } := by
  unfold postBarrier at h
  cases bs with
  | nil =>
    rw [flight_nil]
    exact (Except.ok.inj h).symm
  | cons b rest =>
    simp only at h
    split at h
    · cases h
    · next hone =>
      have hwr : x.barrierWr = none := not_not.mp (not_or.mp hone).2
      split at h
      · cases h
      · rw [sendBarrier, if_pos hwr] at h
        rw [hwr]
        exact (Except.ok.inj h).symm

theorem postQuiet_ok (h : postQuiet x qs next = .ok x') :
    ∃ pc, x' = { x with quietWr := flight x.quietWr qs, pc := pc } ∧
      (qs = [] ∧ pc = next ∨ qs ≠ [] ∧ ∃ wr, x'.quietWr = some wr ∧ pc = .quiet wr 0) := by
  unfold postQuiet at h
  cases qs with
  | nil =>
    refine ⟨next, ?_, .inl ⟨rfl, rfl⟩⟩
    rw [flight_nil]
    exact (Except.ok.inj h).symm
  | cons q rest =>
    simp only at h
    split at h
    · cases h
    · next hone =>
      have hwr : x.quietWr = none := not_not.mp (not_or.mp hone).2
      rw [hwr]
      have hx := (Except.ok.inj h).symm
      exact ⟨_, hx, .inr ⟨cons_ne_nil _ _, q.wr, congrArg Proxy.quietWr hx, rfl⟩⟩

/-- Holding ATOMICs back leaves the other kinds alone. -/
theorem ofType_go (hc : c ≠ .atomic) (ready : ℕ → Bool) (items : List (Item Q)) :
    ofType c (items.filter fun it => !postpones cfg ready it) = ofType c items := by
  unfold ofType
  rw [filter_filter]
  refine filter_congr fun it _ => ?_
  by_cases htype : it.cmd.cmdType = c
  · have hne : it.cmd.cmdType ≠ .atomic := htype ▸ hc
    simp [postpones, hne]
  · simp [htype]

theorem postMixed_ok (h : postMixed cfg ready x items next = .ok x') : ∃ pc, x' = { x with
        postponed := x.postponed ++ items.filter (postpones cfg ready)
        outstanding := x.outstanding ∪ ids (transfers (items.filter fun it => !postpones cfg ready it))
        posted := x.posted ++ items.filter fun it => !postpones cfg ready it
        barrierWr := flight x.barrierWr (ofType .barrier items)
        quietWr := flight x.quietWr (ofType .quiet items)
        pc := pc } ∧
      (ofType .quiet items = [] ∧ pc = next ∨
        ofType .quiet items ≠ [] ∧ ∃ wr, x'.quietWr = some wr ∧ pc = .quiet wr 0) := by
  unfold postMixed at h
  dsimp only at h
  rw [ofType_go (c := .barrier) (by decide), ofType_go (c := .quiet) (by decide)] at h
  split at h
  · cases h
  · next y hy =>
    obtain ⟨pc, hx, hpc⟩ := postQuiet_ok h
    have hy := postBarrier_ok hy
    refine ⟨pc, ?_, hpc⟩
    rw [hx, hy]

/-- The assertions of `post_gpu_commands_mixed`. -/
theorem postMixed_error {f : Fault} (h : postMixed cfg ready x items next = .error f)
    (hb : ∀ it ∈ ofType .barrier items, ofType .barrier items = [it] ∧ x.barrierWr = none)
    (hq : ∀ it ∈ ofType .quiet items, ofType .quiet items = [it] ∧ x.quietWr = none) :
    f = .quietNotEmpty ∧ ofType .barrier items ≠ [] ∧ ofType .quiet items ≠ [] := by
  unfold postMixed at h
  dsimp only at h
  rw [ofType_go (c := .barrier) (by decide), ofType_go (c := .quiet) (by decide)] at h
  split at h
  · next e he =>
    unfold postBarrier at he
    cases hbs : ofType .barrier items with
    | nil =>
      rw [hbs] at he
      cases he
    | cons b rest =>
      obtain ⟨hone, hwr⟩ := hb b (hbs ▸ mem_cons_self)
      rw [hbs] at hone
      have hrest : rest = [] := (cons.inj hone).2
      simp only [hbs, hrest, hwr, ne_eq, not_true_eq_false, or_self, if_false] at he
      split at he
      · next hqs =>
        rw [← Except.error.inj he] at h
        exact ⟨(Except.error.inj h).symm, cons_ne_nil _ _, hqs⟩
      · cases he
  · next y hy =>
    cases hqs : ofType .quiet items with
    | nil =>
      rw [hqs] at h
      cases h
    | cons q rest =>
      obtain ⟨hone, hwr⟩ := hq q (hqs ▸ mem_cons_self)
      rw [hqs] at hone
      have hrest : rest = [] := (cons.inj hone).2
      rw [postBarrier_ok hy] at h
      simp only [hqs, hrest, hwr] at h
      cases h

/-- The one BARRIER (QUIET) of a batch over CXI is in the context as well. -/
theorem Sole.tail {wr : Option ℕ} {rest : List (Item Q)} (hcxi : cfg.cxi = true) (h : Sole cfg c (it :: rest) wr) :
    flight wr (ofType c rest) = flight wr (ofType c (it :: rest)) ∧ Sole cfg c rest wr := by
  have happ : ofType c (it :: rest) = ofType c [it] ++ ofType c rest := ofType_append c [it] rest
  by_cases htype : it.cmd.cmdType = c
  · rw [ofType_single, if_pos htype] at happ
    obtain ⟨hone, hwr⟩ := h it (happ ▸ mem_cons_self)
    have hnil : ofType c rest = [] := (cons.inj (happ.symm.trans hone)).2
    rw [if_pos hcxi] at hwr
    refine ⟨?_, fun it' hit => ?_⟩
    · rw [hwr]
      rfl
    · rw [hnil] at hit
      cases hit
  · rw [ofType_single, if_neg htype] at happ
    rw [Sole, happ] at h
    rw [happ]
    exact ⟨rfl, h⟩

section

variable (hc : Custody cfg x) {rest : List (Item Q)} {ready : ℕ → Bool}
include hc

theorem postMixed_handed {next : Pc} (h : postMixed cfg ready { x with batch := [] } x.batch next = .ok x') :
    Handed cfg x x' (x.batch.filter fun it => !postpones cfg ready it) := by
  obtain ⟨pc, rfl, -⟩ := postMixed_ok h
  refine ⟨rfl, rfl, rfl, rfl, rfl, rfl, rfl, ?_, flight_nil _, flight_nil _,
    forall_mem_nil _, forall_mem_nil _, fun it hit => ?_⟩
  · have hsplit : (x.batch.filter (postpones cfg ready) ++
        x.batch.filter fun it => !postpones cfg ready it).Perm x.batch := filter_append_perm _ _
    have hswap : (x.batch.filter (fun it => !postpones cfg ready it) ++
        (x.postponed ++ x.batch.filter (postpones cfg ready))).Perm
        ((x.batch.filter (postpones cfg ready) ++
          x.batch.filter fun it => !postpones cfg ready it) ++ x.postponed) := by
      rw [← append_assoc, append_assoc (x.batch.filter (postpones cfg ready))]
      exact perm_append_comm
    exact hswap.trans (hsplit.append_right _)
  · rcases mem_append.mp hit with hit | hit
    · exact hc.atomics it hit
    · have hp := (mem_filter.mp hit).2
      simp only [postpones, Bool.and_eq_true, beq_iff_eq] at hp
      exact hp.1.2

/-- The second round posts ATOMICs only. -/
theorem postponed_handed {next : Pc} (hbatch : x.batch = [])
    (h : postMixed cfg ready { x with postponed := [] } x.postponed next = .ok x') :
    Handed cfg x x' (x.postponed.filter fun it => !postpones cfg ready it) ∧ x'.batch = [] ∧ x'.pc = next := by
  have hnone : ∀ c, c ≠ .atomic → ofType c x.postponed = [] := fun c hne =>
    eq_nil_iff_forall_not_mem.mpr fun it hit => by
      obtain ⟨hin, htype⟩ := mem_ofType.mp hit
      exact hne (htype.symm.trans (hc.atomics it hin))
  obtain ⟨pc, hx, hpc⟩ := postMixed_ok h
  rw [hnone .barrier (by decide), hnone .quiet (by decide), flight_nil, flight_nil] at hx
  have hgoes : pc = next := by
    rcases hpc with ⟨-, hpc⟩ | ⟨hne, -⟩
    · exact hpc
    · exact absurd (hnone .quiet (by decide)) hne
  subst hx
  refine ⟨⟨rfl, rfl, rfl, rfl, rfl, rfl, rfl, ?_, rfl, rfl, ?_, ?_, fun it hit => ?_⟩, hbatch, hgoes⟩
  · rw [hbatch]
    exact perm_append_comm.trans (filter_append_perm _ _)
  · rw [hbatch]
    exact forall_mem_nil _
  · rw [hbatch]
    exact forall_mem_nil _
  · exact hc.atomics it (mem_of_mem_filter hit)

/-- Over CXI a BARRIER of the batch is the one in the context, so `send_barrier` accepts it. -/
theorem postCxi_barrier (hcxi : cfg.cxi = true) (hbatch : x.batch = it :: rest) (htype : it.cmd.cmdType = .barrier) :
    x.barrierWr = some it.wr := by
  have hwr := (hc.barriers it (mem_ofType.mpr ⟨hbatch ▸ mem_cons_self, htype⟩)).2
  rwa [if_pos hcxi] at hwr

theorem postCxi_cons (hcxi : cfg.cxi = true) (hbatch : x.batch = it :: rest) : ∃ pc, postCxi cfg x = .ok { x with
        batch := rest, posted := x.posted ++ [it]
        outstanding := x.outstanding ∪ ids (transfers [it]), pc := pc } ∧
      (pc = x.pc ∨ x.quietWr = some it.wr ∧ pc = .cxiQuiet it.wr) := by
  unfold postCxi
  rw [hbatch, transfers_single]
  cases htype : it.cmd.cmdType with
  | quiet =>
    have hwr := (hc.quiets it (mem_ofType.mpr ⟨hbatch ▸ mem_cons_self, htype⟩)).2
    rw [if_pos hcxi] at hwr
    refine ⟨.cxiQuiet it.wr, ?_, .inr ⟨hwr, rfl⟩⟩
    simp [htype, goesOn, ids]
  | barrier =>
    have hwr := postCxi_barrier hc hcxi hbatch htype
    refine ⟨x.pc, ?_, .inl rfl⟩
    simp [htype, goesOn, ids, sendBarrier, hwr, hcxi]
  | write | atomic =>
    refine ⟨x.pc, ?_, .inl rfl⟩
    simp [htype, goesOn, ids, Finset.union_comm x.outstanding]

theorem postCxi_handed (hcxi : cfg.cxi = true) (hbatch : x.batch = it :: rest) (pc : Pc) : Handed cfg x { x with
        batch := rest, posted := x.posted ++ [it]
        outstanding := x.outstanding ∪ ids (transfers [it]), pc := pc } [it] := by
  obtain ⟨hbarrier, hbarriers⟩ := Sole.tail hcxi (hbatch ▸ hc.barriers)
  obtain ⟨hquiet, hquiets⟩ := Sole.tail hcxi (hbatch ▸ hc.quiets)
  refine ⟨rfl, rfl, rfl, rfl, rfl, rfl, rfl, ?_, ?_, ?_, hbarriers, hquiets, hc.atomics⟩
  · rw [hbatch]
    exact List.Perm.refl _
  · rw [hbatch]
    exact hbarrier
  · rw [hbatch]
    exact hquiet

end

-- ── What a step does

/-- Places about which there is nothing to know but the batch. -/
def Pc.plain : Pc → Bool
  | .poll | .notify _ | .post | .postpone | .barrierCheck => true
  | _ => false

theorem Place.of_plain (hpc : x.pc.plain = true) (hbatch : x.pc.collecting = false → x.batch = []) : Place cfg x where
  idle := hbatch
  cxi h := by
    rcases h with h | ⟨_, h⟩ <;> rw [h] at hpc <;> cases hpc
  quiet _ h := by
    rcases h with ⟨_, h⟩ | h <;> rw [h] at hpc <;> cases hpc
  budget _ _ h := by
    rw [h] at hpc
    cases hpc

/-- The thread stays where it is. -/
theorem Place.same (h : Place cfg x) (hpc : x'.pc = x.pc) (hbatch : x'.batch = x.batch)
    (hquiet : x'.quietWr = x.quietWr)
    (hpend : ∀ i, (x'.queue i).pending.length = (x.queue i).pending.length) : Place cfg x' where
  idle hidle := hbatch.trans (h.idle (hpc ▸ hidle))
  cxi hcxi := h.cxi (hpc ▸ hcxi)
  quiet wr hwr := hquiet.trans (h.quiet wr (hpc ▸ hwr))
  budget i b hb := by
    rw [hpend i]
    exact h.budget i b (hpc ▸ hb)

/-- What is known at the other places. -/
def Pc.Known (cfg : Config) (x : Proxy Q) : Pc → Prop
  | .take i budget => ∀ h : i < Q, budget + (x.queue ⟨i, h⟩).pending.length ≤ cfg.maxInflight
  | .cxi => cfg.cxi = true
  | .cxiQuiet wr => cfg.cxi = true ∧ x.quietWr = some wr
  | .quiet wr _ => x.batch = [] ∧ x.quietWr = some wr
  | _ => False

theorem Place.of_known {pc : Pc} (hpc : x.pc = pc) (h : pc.Known cfg x) : Place cfg x := by
  subst hpc
  refine ⟨fun hidle => ?_, fun hcxi => ?_, fun wr hwr => ?_, fun i budget hbudget => ?_⟩
  · cases hpc : x.pc with
    | take | cxi | cxiQuiet =>
      rw [hpc] at hidle
      cases hidle
    | quiet =>
      rw [hpc] at h
      exact h.1
    | poll | notify | post | postpone | barrierCheck =>
      rw [hpc] at h
      cases h
  · rcases hcxi with hpc | ⟨wr, hpc⟩ <;> rw [hpc] at h
    · exact h
    · exact h.1
  · rcases hwr with ⟨n, hpc⟩ | hpc <;> rw [hpc] at h <;> exact h.2
  · rw [hbudget] at h
    exact h i.isLt

theorem enterRing_place (hok : (queues x).Ok cfg.maxInflight) (i : ℕ) : Place cfg (enterRing cfg x i) := by
  refine Place.of_known rfl fun h => ?_
  have hroom : ((x.queue ⟨i, h⟩).pending.map Prod.fst).length ≤ cfg.maxInflight := hok.room ⟨i, h⟩
  rw [length_map] at hroom
  rw [dif_pos h]
  show cfg.maxInflight - (x.queue ⟨i, h⟩).pending.length + (x.queue ⟨i, h⟩).pending.length ≤ _
  omega

/-- The three invariants that a step relies on. -/
structure Core (cfg : Config) (x : Proxy Q) : Prop where
  sound : Sound cfg.maxInflight (queues x) (cmds x)
  custody : Custody cfg x
  place : Place cfg x

theorem notifyStep_spec (h : Core cfg x) {i : ℕ} (hpc : x.pc = .notify i) (hi : i < Q) :
    Move cfg x (notifyStep x ⟨i, hi⟩) ∧ Place cfg (notifyStep x ⟨i, hi⟩) := by
  have hbatch : x.batch = [] := h.place.idle (by rw [hpc]; rfl)
  unfold notifyStep
  split
  · exact ⟨.goto _, Place.of_plain rfl fun _ => hbatch⟩
  · next wr bytes rest hfront =>
    split
    · next hacked =>
      obtain ⟨hb, -, -, -, -, hp⟩ := retireFront_fields x ⟨i, hi⟩ wr bytes rest
      refine ⟨.retire _ _ _ _ hfront hacked hbatch, Place.of_plain ?_ fun _ => hb.trans hbatch⟩
      rw [hp, hpc]
      rfl
    · exact ⟨.goto _, Place.of_plain rfl fun _ => hbatch⟩

/-- A trigger that is not held back is accepted. -/
theorem accept_total (cfg : Config) (hok : (queues x).Ok cfg.maxInflight) (i : Fin Q)
    (hheld : held x cmd.cmdType = false) : ∃ y, accept cfg x i cmd = .ok y := by
  have hnone := no_second hok hheld
  unfold accept
  cases hc : cmd.cmdType with
  | barrier =>
    have hflag : x.barrierInflight = false := by simpa [held, hc] using hheld
    simp [hflag, (hnone.1 hc).1]
  | quiet =>
    have hflag : x.quietInflight = false := by simpa [held, hc] using hheld
    simp [hflag, (hnone.2 hc).1]
  | write | atomic => exact ⟨_, rfl⟩

/-- A turn of the take loop does not fail. -/
theorem takeStep_spec (h : Core cfg x) {i budget : ℕ} (hpc : x.pc = .take i budget) (hi : i < Q) :
    ∃ x', takeStep cfg x ⟨i, hi⟩ budget = .ok x' ∧ Move cfg x x' ∧ Place cfg x' := by
  have hnext : Move cfg x (enterRing cfg x (i + 1)) ∧ Place cfg (enterRing cfg x (i + 1)) :=
    ⟨.goto _, enterRing_place h.sound.ok _⟩
  have hbudget := h.place.budget ⟨i, hi⟩ budget hpc
  unfold takeStep
  split
  · exact ⟨_, rfl, hnext⟩
  · exact ⟨_, rfl, hnext⟩
  · next budget cmd rest hfifo =>
    split
    · exact ⟨_, rfl, hnext⟩
    · next hfree =>
      obtain ⟨hbytes, hheld⟩ := not_or.mp hfree
      have hheld : held x cmd.cmdType = false := Bool.eq_false_iff.mpr hheld
      obtain ⟨y, hy⟩ := accept_total cfg h.sound.ok ⟨i, hi⟩ hheld
      have hroom : (x.queue ⟨i, hi⟩).pending.length < cfg.maxInflight := by omega
      have hhead : (x.queue ⟨i, hi⟩).fifo.head? = some cmd := by
        rw [hfifo]
        rfl
      have hmove : ∀ pc, Move cfg x { y with pc := pc } := fun pc =>
        .take _ _ _ _ hroom hhead (Nat.lt_of_not_le hbytes) hheld hy
      simp only [hy]
      split
      · refine ⟨_, rfl, hmove _, Place.of_known rfl fun _ => ?_⟩
        rw [accept_queue hy, update_self]
        have hlen : (if goesOn cmd.cmdType = true then ((x.queue ⟨i, hi⟩).assign ⟨i, hi⟩ cmd).pop
            else (x.queue ⟨i, hi⟩).assign ⟨i, hi⟩ cmd).pending.length =
            (x.queue ⟨i, hi⟩).pending.length + 1 := by
          split <;> exact length_append ..
        omega
      · exact ⟨_, rfl, hmove _, enterRing_place ((hmove y.pc).sound h.sound h.custody).ok _⟩

/-- The batch is refused: it holds a BARRIER and a QUIET, and the transport is not CXI. -/
structure Refused (cfg : Config) (x : Proxy Q) : Prop where
  pc : x.pc = .post
  cxi : cfg.cxi = false
  barrier : ofType .barrier x.batch ≠ []
  quiet : ofType .quiet x.batch ≠ []

section

variable (h : Core cfg x)
include h

theorem post_spec (ready : ℕ → Bool) (hpc : x.pc = .post) (hcxi : cfg.cxi = false) :
    (∃ x', postMixed cfg ready { x with batch := [] } x.batch .postpone = .ok x' ∧ Move cfg x x' ∧ Place cfg x') ∨
    (postMixed cfg ready { x with batch := [] } x.batch .postpone = .error .quietNotEmpty ∧ Refused cfg x) := by
  have hb : ∀ it ∈ ofType .barrier x.batch, ofType .barrier x.batch = [it] ∧ x.barrierWr = none :=
    fun it hit => by simpa [hcxi] using h.custody.barriers it hit
  have hq : ∀ it ∈ ofType .quiet x.batch, ofType .quiet x.batch = [it] ∧ x.quietWr = none :=
    fun it hit => by simpa [hcxi] using h.custody.quiets it hit
  cases hpost : postMixed cfg ready { x with batch := [] } x.batch .postpone with
  | error f =>
    obtain ⟨rfl, hbs, hqs⟩ := postMixed_error hpost hb hq
    exact .inr ⟨rfl, hpc, hcxi, hbs, hqs⟩
  | ok x' =>
    refine .inl ⟨x', rfl, .hand _ _ (postMixed_handed h.custody hpost), ?_⟩
    obtain ⟨pc, hx, ⟨-, hnext⟩ | ⟨-, wr, hwr, hquiet⟩⟩ := postMixed_ok hpost
    · refine Place.of_plain ?_ fun _ => ?_
      · rw [hx, hnext]
        rfl
      · rw [hx]
    · have hat : x'.pc = .quiet wr 0 := by
        rw [hx]
        exact hquiet
      refine Place.of_known hat ⟨?_, hwr⟩
      rw [hx]

theorem cxi_spec (hpc : x.pc = .cxi) : ∃ x', postCxi cfg x = .ok x' ∧ Move cfg x x' ∧ Place cfg x' := by
  have hcxi : cfg.cxi = true := h.place.cxi (.inl hpc)
  cases hbatch : x.batch with
  | nil =>
    refine ⟨{ x with pc := .postpone }, ?_, .goto _, Place.of_plain rfl fun _ => hbatch⟩
    unfold postCxi
    rw [hbatch]
  | cons it rest =>
    obtain ⟨pc, hpost, hwhere⟩ := postCxi_cons h.custody hcxi hbatch
    refine ⟨_, hpost, .hand _ _ (postCxi_handed h.custody hcxi hbatch pc), ?_⟩
    rcases hwhere with rfl | ⟨hwr, rfl⟩
    · exact Place.of_known hpc hcxi
    · exact Place.of_known rfl ⟨hcxi, hwr⟩

theorem postpone_spec (ready : ℕ → Bool) (hpc : x.pc = .postpone) :
    ∃ x', postMixed cfg ready { x with postponed := [] } x.postponed .barrierCheck = .ok x' ∧
      Move cfg x x' ∧ Place cfg x' := by
  have hbatch : x.batch = [] := h.place.idle (by rw [hpc]; rfl)
  cases hpost : postMixed cfg ready { x with postponed := [] } x.postponed .barrierCheck with
  | error f =>
    have hnone : ∀ c, c ≠ .atomic → ∀ it ∈ ofType c x.postponed, False := fun c hne it hit => by
      obtain ⟨hin, htype⟩ := mem_ofType.mp hit
      exact hne (htype.symm.trans (h.custody.atomics it hin))
    obtain ⟨-, hbs, -⟩ := postMixed_error hpost (fun it hit => (hnone .barrier (by decide) it hit).elim)
      (fun it hit => (hnone .quiet (by decide) it hit).elim)
    obtain ⟨it, hit⟩ := exists_mem_of_ne_nil _ hbs
    exact (hnone .barrier (by decide) it hit).elim
  | ok x' =>
    obtain ⟨hhand, hb, hnext⟩ := postponed_handed h.custody hbatch hpost
    refine ⟨x', rfl, .hand _ _ hhand, Place.of_plain ?_ fun _ => hb⟩
    rw [hnext]
    rfl

/-- The thread goes on, or refuses its batch. -/
theorem advance_spec (ready : ℕ → Bool) : (∃ x', advance cfg ready x = .ok x' ∧ Move cfg x x' ∧ Place cfg x') ∨
      (advance cfg ready x = .error .quietNotEmpty ∧ Refused cfg x) := by
  have hidle : x.pc.collecting = false → x.batch = [] := h.place.idle
  unfold advance
  cases hpc : x.pc with
  | poll | barrierCheck =>
    rw [hpc] at hidle
    exact .inl ⟨_, rfl, .goto _, Place.of_plain rfl hidle⟩
  | notify i =>
    dsimp only
    by_cases hi : i < Q
    · rw [dif_pos hi]
      exact .inl ⟨_, rfl, notifyStep_spec h hpc hi⟩
    · rw [dif_neg hi]
      exact .inl ⟨_, rfl, .goto _, enterRing_place h.sound.ok 0⟩
  | take i budget =>
    dsimp only
    by_cases hi : i < Q
    · rw [dif_pos hi]
      exact .inl (takeStep_spec h hpc hi)
    · rw [dif_neg hi]
      exact .inl ⟨_, rfl, .goto _, Place.of_plain rfl Bool.noConfusion⟩
  | post =>
    cases hcxi : cfg.cxi with
    | true => exact .inl ⟨_, rfl, .goto _, Place.of_known rfl hcxi⟩
    | false =>
      have hpost := post_spec h ready hpc hcxi
      rw [hpc] at hpost
      exact hpost
  | cxi => exact .inl (cxi_spec h hpc)
  | quiet wr emptyIters =>
    have hwr := h.place.quiet wr (.inl ⟨_, hpc⟩)
    rw [hpc] at hidle
    dsimp only
    split
    · exact .inl ⟨_, rfl, .ack wr _ (.inr hwr), Place.of_plain rfl hidle⟩
    · exact .inl ⟨_, rfl, .goto _, Place.of_known rfl ⟨hidle rfl, hwr⟩⟩
  | cxiQuiet wr =>
    have hwr := h.place.quiet wr (.inr hpc)
    have hcxi := h.place.cxi (.inr ⟨wr, hpc⟩)
    dsimp only
    split
    · exact .inl ⟨_, rfl, .ack wr _ (.inr hwr), Place.of_known rfl hcxi⟩
    · exact .inl ⟨_, rfl, .stay, h.place⟩
  | postpone =>
    have hpost := postpone_spec h ready hpc
    rw [hpc] at hpost
    exact .inl hpost

theorem pollCqe_spec (wr : ℕ) : Move cfg x (pollCqe x wr) ∧ Place cfg (pollCqe x wr) := by
  unfold pollCqe
  split
  · next hout =>
    split
    · exact ⟨.complete wr x.pc hout, h.place.same rfl rfl rfl fun _ => rfl⟩
    · exact ⟨.complete wr x.pc hout, h.place.same rfl rfl rfl fun _ => rfl⟩
    · next w n hpc =>
      have hbatch : x.batch = [] := h.place.idle (by rw [hpc]; rfl)
      exact ⟨.complete wr _ hout, Place.of_known rfl ⟨hbatch, h.place.quiet w (.inl ⟨n, hpc⟩)⟩⟩
    · exact ⟨.stay, h.place⟩
  · exact ⟨.stay, h.place⟩

theorem reportBarrier_spec : Move cfg x (reportBarrier cfg x) ∧ Place cfg (reportBarrier cfg x) := by
  unfold reportBarrier
  split
  · split
    · next wr hwr => exact ⟨.ack wr x.pc (.inl hwr), h.place.same rfl rfl rfl fun _ => rfl⟩
    · exact ⟨.stay, h.place⟩
  · exact ⟨.stay, h.place⟩

end

theorem pushCall_place (h : Place cfg x) (i : Fin Q) (call : DeviceCall) : Place cfg (pushCall x i call) := by
  refine h.same rfl rfl rfl fun j => ?_
  exact update_congr (fun r : D2HQueue => r.pending.length) (by rfl) j

theorem pushCall_core (h : Core cfg x) (i : Fin Q) (call : DeviceCall) : Core cfg (pushCall x i call) where
  sound := by
    rw [queues_pushCall, cmds_pushCall]
    exact ⟨push_ok h.sound.ok i _, push_heads h.sound.heads i _⟩
  custody := ⟨h.custody.nodup, h.custody.apart, h.custody.barriers, h.custody.quiets, h.custody.atomics⟩
  place := pushCall_place h.place i call

/-- **WHAT A STEP DOES**: a push, one move of the proxy, or the batch is refused. -/
theorem step_spec (h : Core cfg x) (a : Action Q) : (∃ i call, a = .push i call) ∨
      (∃ x', step cfg x a = .ok x' ∧ Move cfg x x' ∧ Place cfg x') ∨
      (step cfg x a = .error .quietNotEmpty ∧ Refused cfg x) := by
  cases a with
  | push i call => exact .inl ⟨i, call, rfl⟩
  | cqe wr => exact .inr (.inl ⟨_, rfl, pollCqe_spec h wr⟩)
  | reportBarrier => exact .inr (.inl ⟨_, rfl, reportBarrier_spec h⟩)
  | advance ready => exact .inr (advance_spec h ready)

theorem step_move (h : Core cfg x) (hstep : step cfg x a = .ok x') :
    ((∃ i call, a = .push i call ∧ x' = pushCall x i call) ∨ Move cfg x x') ∧ Core cfg x' := by
  rcases step_spec h a with ⟨i, call, rfl⟩ | ⟨y, hy, hmove, hplace⟩ | ⟨herr, -⟩
  · cases hstep
    exact ⟨.inl ⟨i, call, rfl, rfl⟩, pushCall_core h i call⟩
  · rw [Except.ok.inj (hstep.symm.trans hy)]
    exact ⟨.inr hmove, hmove.sound h.sound h.custody, hmove.custody h.sound h.custody, hplace⟩
  · cases hstep.symm.trans herr

theorem init_core : Core cfg (Proxy.init : Proxy Q) where
  sound := by
    exact ⟨Queues.init_ok, init_heads⟩
  custody := ⟨nodup_nil, forall_mem_nil _, forall_mem_nil _, forall_mem_nil _, forall_mem_nil _⟩
  place := Place.of_plain rfl fun _ => rfl

-- ── When no assertion fails

/-- A trigger of kind `c` waits in ring `i`. -/
def Waits (x : Proxy Q) (c : CmdType) (i : Fin Q) : Prop :=
  ∃ cmd ∈ (x.queue i).fifo, cmd.cmdType = c
deriving Decidable

/-- A QUIET (BARRIER) is pushed while no BARRIER (QUIET) waits in another ring. -/
def Alone (x : Proxy Q) : Action Q → Prop
  | .push i .quiet => ∀ j, j ≠ i → ¬ Waits x .barrier j
  | .push i .sync => ∀ j, j ≠ i → ¬ Waits x .quiet j
  | _ => True

instance (x : Proxy Q) (a : Action Q) : Decidable (Alone x a) := by
  unfold Alone
  split <;> infer_instance

/-- A QUIET and a BARRIER wait in one ring if they do. -/
def OneRing (x : Proxy Q) : Prop := ∀ i j, Waits x .quiet i → Waits x .barrier j → i = j

theorem update_fifo_subset (h : r.fifo ⊆ (x.queue j).fifo) (i : Fin Q) :
    (update x.queue j r i).fifo ⊆ (x.queue i).fifo := by
  by_cases hj : i = j
  · rw [hj, update_self]
    exact h
  · rw [update_of_ne hj]
    exact List.Subset.refl _

/-- A move takes triggers off the rings and puts none there. -/
theorem Move.fifo (h : Move cfg x x') (hs : Sound cfg.maxInflight (queues x) (cmds x)) (i : Fin Q) :
    (x'.queue i).fifo ⊆ (x.queue i).fifo := by
  cases h with
  | complete | ack | goto => exact List.Subset.refl _
  | retire j wr bytes rest hfront hacked hbatch =>
    rw [retireFront_queue (quietWr_ne_barrierWr hs.ok)]
    refine update_fifo_subset ?_ i
    split
    · exact tail_subset _
    · exact List.Subset.refl _
  | take j cmd y pc hroom hhead hbytes hheld haccept =>
    rw [accept_queue haccept]
    refine update_fifo_subset ?_ i
    split
    · exact tail_subset _
    · exact List.Subset.refl _
  | hand x' go h =>
    rw [h.queue]
    exact List.Subset.refl _

theorem waits_push (h : Waits (pushCall x i call) c j) : Waits x c j ∨ j = i ∧ call.cmd.cmdType = c := by
  obtain ⟨cmd, hin, htype⟩ := h
  have hin : cmd ∈ (update x.queue i ((x.queue i).push call.cmd) j).fifo := hin
  by_cases hj : j = i
  · rw [hj, update_self] at hin
    rcases mem_append.mp hin with hin | hin
    · exact .inl ⟨cmd, hj ▸ hin, htype⟩
    · exact .inr ⟨hj, mem_singleton.mp hin ▸ htype⟩
  · rw [update_of_ne hj] at hin
    exact .inl ⟨cmd, hin, htype⟩

theorem pushCall_oneRing (h : OneRing x) (halone : Alone x (.push i call)) : OneRing (pushCall x i call) := by
  intro a b hquiet hbarrier
  rcases waits_push hquiet with hq | ⟨rfl, hcall⟩
  · rcases waits_push hbarrier with hb | ⟨rfl, hcall⟩
    · exact h a b hq hb
    · cases call with
      | sync => exact by_contra fun hne => halone a hne hq
      | putNbi | amoNonfetchAdd | quiet => cases hcall
  · cases call with
    | quiet =>
      rcases waits_push hbarrier with hb | ⟨-, hcall'⟩
      · exact by_contra fun hne => halone b (Ne.symm hne) hb
      · cases hcall'
    | putNbi | amoNonfetchAdd | sync => cases hcall

theorem step_oneRing (hcore : Core cfg x) (h : OneRing x) (halone : Alone x a)
    (hstep : step cfg x a = .ok x') : OneRing x' := by
  rcases (step_move hcore hstep).1 with ⟨i, call, rfl, rfl⟩ | hmove
  · exact pushCall_oneRing h halone
  · rintro i j ⟨c, hc, hquiet⟩ ⟨d, hd, hbarrier⟩
    exact h i j ⟨c, hmove.fifo hcore.sound i hc, hquiet⟩ ⟨d, hmove.fifo hcore.sound j hd, hbarrier⟩

/-- What is in flight waits at the head of its ring. -/
theorem HeadIs.waits (h : HeadIs (queues x) c wr) : ∃ i, (x.queue i).fifo.head?.map TransferCmd.cmdType = some c := by
  obtain ⟨i, -, -, hhead⟩ := h
  refine ⟨i, ?_⟩
  have hhead : ((x.queue i).fifo.map TransferCmd.cmdType).head? = some c := hhead
  rwa [head?_map] at hhead

theorem flight_isSome (wr : Option ℕ) (h : items ≠ []) : ∃ w, flight wr items = some w := by
  cases hf : flight wr items with
  | none => exact absurd (flight_eq_none hf).2 h
  | some w => exact ⟨w, rfl⟩

/-- A batch is refused only if a QUIET and a BARRIER wait on two rings. -/
theorem Refused.not_oneRing (h : Refused cfg x) (hcore : Core cfg x) : ¬ OneRing x := by
  intro hone
  obtain ⟨b, hb⟩ := flight_isSome x.barrierWr h.barrier
  obtain ⟨q, hq⟩ := flight_isSome x.quietWr h.quiet
  obtain ⟨i, hi⟩ := HeadIs.waits (hcore.sound.heads.quiet q hq)
  obtain ⟨j, hj⟩ := HeadIs.waits (hcore.sound.heads.barrier b hb)
  have waits : ∀ {c k}, (x.queue k).fifo.head?.map TransferCmd.cmdType = some c → Waits x c k := by
    intro c k hk
    obtain ⟨cmd, hhead, htype⟩ := Option.map_eq_some_iff.mp hk
    exact ⟨cmd, mem_of_mem_head? hhead, htype⟩
  have heq := hone i j (waits hi) (waits hj)
  rw [heq] at hi
  cases hi.symm.trans hj

/-- **NO ASSERTION FAILS** over CXI, and over verbs as long as a QUIET and a BARRIER do not wait on different rings. -/
theorem runs_on {acts : List (Action Q)} (h : cfg.cxi = true ∨ Along (step cfg) Alone (Proxy.init : Proxy Q) acts) :
    ∃ x, runFrom (step cfg) (Proxy.init : Proxy Q) acts = .ok x := by
  -- what a step that is not refused keeps
  have hgo : ∀ (x : Proxy Q) a, Core cfg x → ¬ Refused cfg x → ∃ x', step cfg x a = .ok x' ∧ Core cfg x' := by
    intro x a hcore hnot
    rcases step_spec hcore a with ⟨i, call, rfl⟩ | ⟨x', hx', -⟩ | ⟨-, hrefused⟩
    · exact ⟨_, rfl, pushCall_core hcore i call⟩
    · exact ⟨x', hx', (step_move hcore hx').2⟩
    · exact absurd hrefused hnot
  rcases h with hcxi | halong
  · obtain ⟨x, hx, -⟩ := runFrom_total_along (G := fun _ _ => True) (I := Core cfg)
      (fun x a hcore _ => hgo x a hcore fun hr => by rw [hr.cxi] at hcxi; cases hcxi) init_core
      (Along.of_forall (fun _ _ => trivial) Proxy.init acts)
    exact ⟨x, hx⟩
  · obtain ⟨x, hx, -⟩ := runFrom_total_along (I := fun x => Core cfg x ∧ OneRing x) (fun x a hi halone => by
        obtain ⟨x', hx', hcore'⟩ := hgo x a hi.1 fun hr => hr.not_oneRing hi.1 hi.2
        exact ⟨x', hx', hcore', step_oneRing hi.1 hi.2 halone hx'⟩)
      ⟨init_core, by rintro i j ⟨c, hc, -⟩; cases hc⟩ halong
    exact ⟨x, hx⟩

/-- A BARRIER with a QUIET behind it on one ring, a WRITE on the other. -/
theorem same_ring_runs_on : ∃ x, runFrom (step verbsConfig) (Proxy.init : Proxy 2)
    ([.push 0 .sync, .push 0 .quiet, .push 1 (.putNbi 5)] ++ advances 30) = .ok x :=
  runs_on (.inr (exists_of_runGuarded (o := fun x => x.quietInflight) (b := false) (by decide +kernel)).1)

end EpProxy
