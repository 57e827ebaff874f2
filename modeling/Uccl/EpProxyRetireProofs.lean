import Uccl.LedgerProofs
import Uccl.EpProxyStepProofs

/-! # Retirement in an EP proxy is exact

    Over a whole run: what was pushed on a ring is popped in that order and each trigger once, a WRITE or an
    ATOMIC when it is taken and a QUIET or a BARRIER when it retires; every taken trigger is posted once, or
    waits to be; ids retire in the order they were given out; the counter of bytes in flight is the sum over
    the pending WRITEs (`retirement_exact`).

    `QueueLog` is what one ring keeps of this, `Log` what the proxy does. The state of the queues themselves
    comes from `Core`. -/

namespace EpProxy

open StepRun EpQueue Function List
open EpDeviceQuiet (Stays HeadIs Heads Sound)

variable {Q : ℕ} {cfg : Config} {x x' : Proxy Q}
variable {i : Fin Q} {r : D2HQueue} {cmd c : TransferCmd} {wr bytes total : ℕ} {rest : List (ℕ × ℕ)} {a : Action Q}

-- ── One ring

/-- The commands that were taken and have not retired. -/
def D2HQueue.inFlight (r : D2HQueue) : List TransferCmd :=
  (r.pushed.take r.fifoSeq).drop r.retired.length

structure QueueLog (i : ℕ) (r : D2HQueue) : Prop where
  popped : r.popped ++ r.fifo = r.pushed
  tail : r.popped.length = r.tail
  retired : r.retired = (List.range r.retired.length).map (uniqueWrId i)
  bytes : r.inFlight.map (fun c => c.bytes.toNat) = r.pending.map Prod.snd
  built : ∀ c ∈ r.pushed, c.cmdType ≠ .write → c.bytes = 0

theorem cmd_built (call : DeviceCall) (h : call.cmd.cmdType ≠ .write) : call.cmd.bytes = 0 := by
  cases call with
  | putNbi bytes => exact absurd rfl h
  | amoNonfetchAdd | quiet | sync => rfl

theorem QueueLog.push {i : ℕ} (h : QueueLog i r) (hseq : r.fifoSeq ≤ r.pushed.length)
    (call : DeviceCall) : QueueLog i (r.push call.cmd) where
  popped := by
    show r.popped ++ (r.fifo ++ [call.cmd]) = r.pushed ++ [call.cmd]
    rw [← append_assoc, h.popped]
  tail := h.tail
  retired := h.retired
  bytes := by
    show (((r.pushed ++ [call.cmd]).take r.fifoSeq).drop r.retired.length).map _ = _
    rw [take_append_of_le_length hseq]
    exact h.bytes
  built := forall_mem_snoc h.built (cmd_built call)

theorem QueueLog.pop {i : ℕ} (h : QueueLog i r) (hhead : r.fifo.head? = some cmd) : QueueLog i r.pop := { h with
    popped := by
      show r.popped ++ r.fifo.head?.toList ++ r.fifo.tail = r.pushed
      rw [hhead, append_assoc, ← h.popped]
      exact congrArg _ (cons_head?_tail hhead)
    tail := by
      show (r.popped ++ r.fifo.head?.toList).length = r.tail + 1
      rw [hhead, length_append, h.tail]
      rfl }

/-- The head of a ring all of whose takes were popped is the next to be taken. -/
theorem QueueLog.next {i : ℕ} (h : QueueLog i r) (hhead : r.fifo.head? = some cmd) : r.pushed[r.tail]? = some cmd := by
  rw [← h.popped, ← h.tail, getElem?_append_right (le_refl _), Nat.sub_self, ← head?_eq_getElem?]
  exact hhead

theorem QueueLog.assign (h : QueueLog i r) (hnext : r.pushed[r.fifoSeq]? = some cmd)
    (hret : r.retired.length ≤ r.fifoSeq) : QueueLog i (r.assign i cmd) :=
  { h with
    bytes := by
      have hlt : r.fifoSeq < r.pushed.length := lt_length hnext
      have hlen : r.retired.length ≤ (r.pushed.take r.fifoSeq).length := by
        rw [length_take]
        omega
      show ((r.pushed.take (r.fifoSeq + 1)).drop r.retired.length).map _ =
        (r.pending ++ [(uniqueWrId i r.fifoSeq, cmd.bytes.toNat)]).map Prod.snd
      rw [take_add_one, hnext, drop_append_of_le_length hlen, map_append, map_append]
      exact congrArg (· ++ [cmd.bytes.toNat]) h.bytes }

theorem QueueLog.retire {i : ℕ} (h : QueueLog i r) (hfront : r.pending = (wr, bytes) :: rest)
    (hwr : wr = uniqueWrId i r.retired.length) : QueueLog i (r.retire wr rest) :=
  { h with
    retired := by
      show r.retired ++ [wr] = (List.range (r.retired ++ [wr]).length).map (uniqueWrId i)
      rw [length_append, length_singleton, range_succ, map_append, ← h.retired, hwr]
      rfl
    bytes := by
      show ((r.pushed.take r.fifoSeq).drop (r.retired ++ [wr]).length).map _ = rest.map Prod.snd
      have hbytes := congrArg List.tail h.bytes
      rw [hfront, ← map_tail, D2HQueue.inFlight, tail_drop] at hbytes
      rw [length_append]
      exact hbytes }

-- ── The proxy

/-- What was ever taken. -/
def items (x : Proxy Q) : List (Item Q) := x.posted ++ (x.batch ++ x.postponed)

/-- The bytes of the pending commands of each ring. -/
def pendingBytes (x : Proxy Q) (i : Fin Q) : List ℕ := (x.queue i).pending.map Prod.snd

structure Log (cfg : Config) (x : Proxy Q) : Prop where
  queue : ∀ i : Fin Q, QueueLog i (x.queue i)
  slots : ∀ i, (((items x).filter (·.ring = i)).map Item.slot).Perm (List.range (x.queue i).fifoSeq)
  cmds : ∀ it ∈ items x,
    (x.queue it.ring).pushed[it.slot]? = some it.cmd ∧ it.wr = uniqueWrId it.ring it.slot
  bytes : Ledger.Exact (pendingBytes x) (fun i => (pendingBytes x i).sum) x.inflightBytes
  small : x.inflightBytes < cfg.byteLimit + 2 ^ 24

theorem byteLimit_lt (cfg : Config) : cfg.byteLimit + 2 ^ 25 < 2 ^ 64 := by
  unfold Config.byteLimit kNumProxyThs
  omega

theorem subBytes_eq (hle : bytes ≤ total) (hlt : total < 2 ^ 64) : subBytes total bytes = total - bytes := by
  unfold subBytes
  split <;> omega

theorem addBytes_eq (hbuilt : cmd.cmdType ≠ .write → cmd.bytes = 0)
    (hlt : total + cmd.bytes.toNat < 2 ^ 64) : addBytes total cmd = total + cmd.bytes.toNat := by
  unfold addBytes
  by_cases hw : cmd.cmdType = .write
  · by_cases hpos : 0 < cmd.bytes.toNat
    · rw [if_pos ⟨hw, hpos⟩, Nat.mod_eq_of_lt hlt]
    · rw [if_neg fun h => hpos h.2]
      omega
  · rw [if_neg fun h => hw h.1, hbuilt hw]
    rfl

/-- No more is taken than was pushed. -/
theorem fifoSeq_le (h : Core cfg x) (i : Fin Q) : (x.queue i).fifoSeq ≤ (x.queue i).pushed.length := by
  have hheads := h.sound.heads
  have hlen : (cmds x i).length = (x.queue i).pushed.length := length_map ..
  rw [← hlen]
  rcases hheads.seq i with hseq | ⟨hseq, hwr⟩
  · exact hseq.le.trans (hheads.le i)
  · have hat : ∃ c, (cmds x i)[((queues x).ring i).tail]? = some c := by
      rcases hwr with hwr | hwr
      · obtain ⟨j, heq, -, hhead⟩ := hheads.quiet _ hwr
        rw [show i = j from Fin.ext (uniqueWrId_inj heq).1]
        exact ⟨_, hheads.getElem?_tail hhead⟩
      · obtain ⟨j, heq, -, hhead⟩ := hheads.barrier _ hwr
        rw [show i = j from Fin.ext (uniqueWrId_inj heq).1]
        exact ⟨_, hheads.getElem?_tail hhead⟩
    obtain ⟨c, hc⟩ := hat
    exact hseq.le.trans (lt_length hc)

/-- Another ring, or one that still has what it had. -/
theorem Log.of_update (h : Log cfg x) (hq : x'.queue = update x.queue i r)
    (hr : QueueLog i r) (hpushed : r.pushed = (x.queue i).pushed)
    (hslots : (((items x').filter (·.ring = i)).map Item.slot).Perm (List.range r.fifoSeq))
    (hother : ∀ j, j ≠ i → ((items x').filter (·.ring = j)).Perm ((items x).filter (·.ring = j)))
    (hcmds : ∀ it ∈ items x', it ∈ items x ∨
      (x.queue it.ring).pushed[it.slot]? = some it.cmd ∧ it.wr = uniqueWrId it.ring it.slot)
    (hbytes : Ledger.Exact (pendingBytes x') (fun i => (pendingBytes x' i).sum) x'.inflightBytes)
    (hsmall : x'.inflightBytes < cfg.byteLimit + 2 ^ 24) : Log cfg x' := by
  have hpush : ∀ j, (x'.queue j).pushed = (x.queue j).pushed := fun j => by
    rw [hq]
    exact update_congr D2HQueue.pushed hpushed j
  refine ⟨fun j => ?_, fun j => ?_, fun it hit => ?_, hbytes, hsmall⟩
  · rw [hq]
    exact (forall_update_iff _ fun j : Fin Q => QueueLog j).mpr ⟨hr, fun j _ => h.queue j⟩ j
  · rw [hq]
    by_cases hj : j = i
    · rw [hj, update_self]
      exact hslots
    · rw [update_of_ne hj]
      exact ((hother j hj).map _).trans (h.slots j)
  · rw [hpush]
    exact (hcmds it hit).elim (h.cmds it) id

section

variable (hcore : Core cfg x)
include hcore

theorem pushCall_log (h : Log cfg x) (i : Fin Q) (call : DeviceCall) : Log cfg (pushCall x i call) := by
  have hq : (pushCall x i call).queue = update x.queue i ((x.queue i).push call.cmd) := rfl
  have hsame : ∀ j, ((pushCall x i call).queue j).fifoSeq = (x.queue j).fifoSeq ∧
      ((pushCall x i call).queue j).pending = (x.queue j).pending := fun j => by
    exact ⟨update_congr D2HQueue.fifoSeq (by rfl) j, update_congr D2HQueue.pending (by rfl) j⟩
  have hbytes : pendingBytes (pushCall x i call) = pendingBytes x :=
    funext fun j => congrArg (List.map Prod.snd) (hsame j).2
  refine ⟨fun j => ?_, fun j => ?_, fun it hit => ⟨?_, (h.cmds it hit).2⟩, ?_, h.small⟩
  · exact (forall_update_iff _ fun j : Fin Q => QueueLog j).mpr
      ⟨(h.queue i).push (fifoSeq_le hcore i) call, fun j _ => h.queue j⟩ j
  · rw [(hsame j).1]
    exact h.slots j
  · have hat := (h.cmds it hit).1
    rw [hq]
    by_cases hj : it.ring = i
    · rw [hj] at hat
      rw [hj, update_self]
      show ((x.queue i).pushed ++ [call.cmd])[it.slot]? = _
      exact getElem?_append_some hat _
    · rw [update_of_ne hj]
      exact hat
  · rw [hbytes]
    exact h.bytes

/-- The ring that retires its front, and the id it retires. -/
theorem front_wr (hfront : (x.queue i).pending = (wr, bytes) :: rest) :
    ((queues x).ring i).pending = wr :: rest.map Prod.fst ∧ wr = uniqueWrId i (x.queue i).retired.length := by
  have hpend : ((queues x).ring i).pending = wr :: rest.map Prod.fst := by
    show (x.queue i).pending.map Prod.fst = _
    rw [hfront]
    rfl
  have hself := (retireFront_retired hcore.sound.ok i wr (rest.map Prod.fst)).self
  exact ⟨hpend, ((hcore.sound.ok.window i).retire hpend hself.1 hself.2.1 hself.2.2).2.1⟩

/-- A QUIET or a BARRIER that retires is at the head of its ring, and all before it has retired. -/
theorem front_head (hfront : (x.queue i).pending = (wr, bytes) :: rest)
    (hin : x.quietWr = some wr ∨ x.barrierWr = some wr) :
    (x.queue i).retired.length = (x.queue i).tail ∧ ∃ cmd, (x.queue i).fifo.head? = some cmd := by
  have hhead : ∃ d, HeadIs (queues x) d wr := hin.elim (fun hw => ⟨_, hcore.sound.heads.quiet wr (quietWr_queues hw)⟩)
    fun hw => ⟨_, hcore.sound.heads.barrier wr (barrierWr_queues hw)⟩
  obtain ⟨d, hd⟩ := hhead
  obtain ⟨-, hret, -, hfirst⟩ := hd.front hcore.sound.ok (maxInflight_lt cfg) (front_wr hcore hfront).1
  have hfirst : ((x.queue i).fifo.map TransferCmd.cmdType).head? = some d := hfirst
  rw [head?_map] at hfirst
  obtain ⟨cmd, hcmd, -⟩ := Option.map_eq_some_iff.mp hfirst
  exact ⟨hret, cmd, hcmd⟩

theorem retireFront_log (h : Log cfg x) (hfront : (x.queue i).pending = (wr, bytes) :: rest) :
    Log cfg (retireFront x i wr bytes rest) := by
  obtain ⟨hb, hp, -, hpost, hinf, -⟩ := retireFront_fields x i wr bytes rest
  have hne : x.quietWr = some wr → x.barrierWr ≠ some wr := quietWr_ne_barrierWr hcore.sound.ok
  have hq := retireFront_queue (i := i) hne bytes rest
  have hlog := (h.queue i).retire hfront (front_wr hcore hfront).2
  have hitems : items (retireFront x i wr bytes rest) = items x := by
    unfold items
    rw [hb, hp, hpost]
  -- popped or not, the ring keeps these
  generalize hr : (if x.quietWr = some wr ∨ x.barrierWr = some wr then ((x.queue i).retire wr rest).pop
      else (x.queue i).retire wr rest) = r at hq
  have hfields : QueueLog i r ∧ r.pushed = (x.queue i).pushed ∧ r.fifoSeq = (x.queue i).fifoSeq ∧ r.pending = rest := by
    rw [← hr]
    split
    · next hin =>
      obtain ⟨-, cmd, hhead⟩ := front_head hcore hfront hin
      exact ⟨hlog.pop hhead, rfl, rfl, rfl⟩
    · exact ⟨hlog, rfl, rfl, rfl⟩
  obtain ⟨hr, hpushed, hseq, hpend⟩ := hfields
  have hself : pendingBytes x i = bytes :: pendingBytes (retireFront x i wr bytes rest) i := by
    unfold pendingBytes
    rw [hq, update_self, hpend, hfront]
    rfl
  have hother : ∀ j, j ≠ i → pendingBytes (retireFront x i wr bytes rest) j = pendingBytes x j := fun j hj => by
      unfold pendingBytes
      rw [hq, update_of_ne hj]
  have hle : bytes ≤ x.inflightBytes := (h.bytes.le_total (f := i) (hself ▸ mem_cons_self)).trans (h.bytes.total_le i)
  have hsmall := h.small
  have hlimit := byteLimit_lt cfg
  have hsub : (retireFront x i wr bytes rest).inflightBytes = x.inflightBytes - bytes := by
    rw [hinf, subBytes_eq hle (by omega)]
  refine h.of_update hq hr hpushed ?_ (fun j _ => ?_) (fun it hit => .inl (hitems ▸ hit)) ?_ (by omega)
  · rw [hitems, hseq]
    exact h.slots i
  · rw [hitems]
  · refine h.bytes.remove (f := i) (n := bytes) (hself ▸ List.Perm.refl _)
      (fun j hj => hother j hj ▸ List.Perm.refl _) ?_ (fun j hj => congrArg sum (hother j hj)) hsub
    rw [hself, sum_cons, Nat.add_sub_cancel_left]

theorem accept_log (h : Log cfg x) (hhead : (x.queue i).fifo.head? = some cmd)
    (hbytes : x.inflightBytes < cfg.byteLimit) (hheld : held x cmd.cmdType = false)
    (haccept : accept cfg x i cmd = .ok x') : Log cfg x' := by
  obtain ⟨hb, hp, -, hpost, hinf⟩ := accept_fields haccept
  have hq := accept_queue haccept
  -- everything taken from this ring was popped
  have hseq : (x.queue i).fifoSeq = (x.queue i).tail := by
    refine hcore.sound.heads.untaken hcore.sound.ok (i := i) (c := cmd.cmdType) ?_ hheld
    show ((x.queue i).fifo.map TransferCmd.cmdType).head? = _
    rw [head?_map, hhead]
    rfl
  have hnext : (x.queue i).pushed[(x.queue i).fifoSeq]? = some cmd := by
    rw [hseq]
    exact (h.queue i).next hhead
  have hlog := (h.queue i).assign hnext (hcore.sound.ok.window i).1
  have hperm : (items x').Perm (nextItem x i cmd :: items x) := by
    unfold items
    rw [hb, hp, hpost, append_assoc x.batch, ← append_assoc x.posted]
    refine perm_middle.trans ?_
    rw [append_assoc]
    exact List.Perm.refl _
  generalize hr : (if goesOn cmd.cmdType then ((x.queue i).assign i cmd).pop
      else (x.queue i).assign i cmd) = r at hq
  have hfields : QueueLog i r ∧ r.pushed = (x.queue i).pushed ∧ r.fifoSeq = (x.queue i).fifoSeq + 1 ∧
      r.pending = (x.queue i).pending ++ [(uniqueWrId i (x.queue i).fifoSeq, cmd.bytes.toNat)] := by
    rw [← hr]
    split
    · exact ⟨hlog.pop hhead, rfl, rfl, rfl⟩
    · exact ⟨hlog, rfl, rfl, rfl⟩
  obtain ⟨hr, hpushed, hrseq, hpend⟩ := hfields
  have hself : pendingBytes x' i = pendingBytes x i ++ [cmd.bytes.toNat] := by
    unfold pendingBytes
    rw [hq, update_self, hpend, map_append]
    rfl
  have hother : ∀ j, j ≠ i → pendingBytes x' j = pendingBytes x j := fun j hj => by
    unfold pendingBytes
    rw [hq, update_of_ne hj]
  have hlimit := byteLimit_lt cfg
  have hadd : x'.inflightBytes = x.inflightBytes + cmd.bytes.toNat := by
    rw [hinf]
    refine addBytes_eq ((h.queue i).built cmd (mem_of_getElem? hnext)) (by omega)
  refine h.of_update hq hr hpushed ?_ (fun j hj => ?_) (fun it hit => ?_) ?_ (by omega)
  · refine ((hperm.filter _).map _).trans ?_
    rw [filter_cons, if_pos (decide_eq_true (show (nextItem x i cmd).ring = i from rfl)), map_cons, hrseq, range_succ]
    refine ((h.slots i).cons _).trans ?_
    show ((x.queue i).tail :: range (x.queue i).fifoSeq).Perm _
    rw [← hseq]
    exact (perm_append_singleton ..).symm
  · refine (hperm.filter _).trans ?_
    rw [filter_cons, if_neg]
    intro hring
    exact hj (of_decide_eq_true hring).symm
  · rcases mem_cons.mp (hperm.mem_iff.mp hit) with rfl | hin
    · refine .inr ⟨?_, ?_⟩
      · show (x.queue i).pushed[(x.queue i).tail]? = some cmd
        rw [← hseq]
        exact hnext
      · show uniqueWrId i (x.queue i).fifoSeq = uniqueWrId i (x.queue i).tail
        rw [hseq]
    · exact .inl hin
  · refine h.bytes.add (f := i) (n := cmd.bytes.toNat) ?_
      (fun j hj => hother j hj ▸ List.Perm.refl _) ?_ (fun j hj => congrArg sum (hother j hj)) hadd
    · rw [hself]
      exact perm_append_singleton ..
    · rw [hself, sum_append, sum_singleton]

end

theorem Move.log (hmove : Move cfg x x') (hcore : Core cfg x) (h : Log cfg x) : Log cfg x' := by
  cases hmove with
  | complete | ack | goto => exact { h with }
  | retire i wr bytes rest hfront hacked hbatch => exact retireFront_log hcore h hfront
  | take i cmd y pc hroom hhead hbytes hheld haccept =>
    have hy := accept_log hcore h hhead hbytes hheld haccept
    exact { hy with }
  | hand x' go hand =>
    have hperm : (items x').Perm (items x) := by
      unfold items
      rw [hand.posted, append_assoc]
      exact hand.perm.append_left _
    have hbytes : pendingBytes x' = pendingBytes x := by
      unfold pendingBytes
      rw [hand.queue]
    refine ⟨?_, fun i => ?_, fun it hit => ?_, ?_, ?_⟩
    · rw [hand.queue]
      exact h.queue
    · rw [hand.queue]
      exact ((hperm.filter _).map _).trans (h.slots i)
    · rw [hand.queue]
      exact h.cmds it (hperm.mem_iff.mp hit)
    · rw [hbytes, hand.inflightBytes]
      exact h.bytes
    · rw [hand.inflightBytes]
      exact h.small

theorem init_log : Log cfg (Proxy.init : Proxy Q) where
  queue _ := ⟨rfl, rfl, rfl, rfl, forall_mem_nil _⟩
  slots _ := List.Perm.refl _
  cmds := forall_mem_nil _
  bytes := ⟨fun _ => rfl, (Finset.sum_eq_zero fun _ _ => rfl).symm⟩
  small := by
    show 0 < cfg.byteLimit + 2 ^ 24
    omega

theorem step_log (hcore : Core cfg x) (h : Log cfg x) (hstep : step cfg x a = .ok x') : Log cfg x' := by
  rcases (step_move hcore hstep).1 with ⟨i, call, -, rfl⟩ | hmove
  · exact pushCall_log hcore h i call
  · exact hmove.log hcore h

-- ── What the queues say about the log

theorem mem_inFlight : c ∈ r.inFlight ↔ ∃ k, r.retired.length ≤ k ∧ k < r.fifoSeq ∧ r.pushed[k]? = some c := by
  unfold D2HQueue.inFlight
  rw [mem_iff_getElem?]
  constructor
  · rintro ⟨k, hk⟩
    rw [getElem?_drop, getElem?_take] at hk
    split at hk
    · next hlt => exact ⟨_, Nat.le_add_right .., hlt, hk⟩
    · cases hk
  · rintro ⟨k, hle, hlt, hk⟩
    refine ⟨k - r.retired.length, ?_⟩
    rw [getElem?_drop, getElem?_take, Nat.add_sub_cancel' hle, if_pos hlt]
    exact hk

section

variable (hcore : Core cfg x)
include hcore

/-- The command in flight at the head of a ring: it is the last one taken and has not retired. -/
theorem head_inFlight {c : CmdType} (h : HeadIs (queues x) c wr) (hpend : Pending (queues x) wr) :
    ∃ i : Fin Q, wr = uniqueWrId i (x.queue i).tail ∧ (x.queue i).retired.length ≤ (x.queue i).tail ∧
      (x.queue i).fifoSeq = (x.queue i).tail + 1 ∧ (cmds x i)[(x.queue i).tail]? = some c := by
  obtain ⟨i, hwr, hseq, hhead⟩ := h
  refine ⟨i, hwr, ?_, hseq, hcore.sound.heads.getElem?_tail hhead⟩
  obtain ⟨j, hj⟩ := hpend
  rw [(hcore.sound.ok.window j).2] at hj
  obtain ⟨a, ha, heq⟩ := mem_map.mp hj
  obtain ⟨hlo, hhi⟩ := mem_range'_1.mp ha
  have hji : j = i := Fin.ext (uniqueWrId_inj (heq.trans hwr)).1
  rw [hji] at hlo hhi
  show ((queues x).ring i).retired ≤ ((queues x).ring i).tail
  omega

theorem quiet_inFlight (h : (queues x).quietWr = some wr) :
    ∃ i : Fin Q, wr = uniqueWrId i (x.queue i).tail ∧ (x.queue i).retired.length ≤ (x.queue i).tail ∧
      (x.queue i).fifoSeq = (x.queue i).tail + 1 ∧ (cmds x i)[(x.queue i).tail]? = some .quiet :=
  head_inFlight hcore (hcore.sound.heads.quiet wr h) (hcore.sound.ok.quiet wr h).1

theorem barrier_inFlight (h : (queues x).barrierWr = some wr) :
    ∃ i : Fin Q, wr = uniqueWrId i (x.queue i).tail ∧ (x.queue i).retired.length ≤ (x.queue i).tail ∧
      (x.queue i).fifoSeq = (x.queue i).tail + 1 ∧ (cmds x i)[(x.queue i).tail]? = some .barrier :=
  head_inFlight hcore (hcore.sound.heads.barrier wr h) (hcore.sound.ok.barrier wr h).1

/-- A ring has popped all it took, or its head is a QUIET or a BARRIER in flight. -/
theorem tail_cases (i : Fin Q) :
    (x.queue i).retired.length ≤ (x.queue i).tail ∧ ((x.queue i).fifoSeq = (x.queue i).tail ∨
        (x.queue i).fifoSeq = (x.queue i).tail + 1 ∧
          ((cmds x i)[(x.queue i).tail]? = some .quiet ∧ x.quietInflight = true ∨
            (cmds x i)[(x.queue i).tail]? = some .barrier ∧ x.barrierInflight = true)) := by
  rcases hcore.sound.heads.seq i with hseq | ⟨hseq, hwr | hwr⟩
  · exact ⟨(hcore.sound.ok.window i).1.trans hseq.le, .inl hseq⟩
  · obtain ⟨j, heq, hret, -, hat⟩ := quiet_inFlight hcore hwr
    have hij : i = j := Fin.ext (uniqueWrId_inj heq).1
    rw [← hij] at hret hat
    refine ⟨hret, .inr ⟨hseq, .inl ⟨hat, ?_⟩⟩⟩
    exact hcore.sound.ok.quietInflight.trans (congrArg Option.isSome hwr)
  · obtain ⟨j, heq, hret, -, hat⟩ := barrier_inFlight hcore hwr
    have hij : i = j := Fin.ext (uniqueWrId_inj heq).1
    rw [← hij] at hret hat
    refine ⟨hret, .inr ⟨hseq, .inr ⟨hat, ?_⟩⟩⟩
    exact hcore.sound.ok.barrierInflight.trans (congrArg Option.isSome hwr)

end

theorem cmds_getElem? {k : ℕ} (h : (x.queue i).pushed[k]? = some c) : (cmds x i)[k]? = some c.cmdType := by
  unfold cmds
  rw [getElem?_map, h]
  rfl

section

variable (hcore : Core cfg x) {c : TransferCmd} {k : ℕ}
include hcore

/-- A QUIET or a BARRIER is popped when it retires. -/
theorem popped_iff_of_stays (h : Log cfg x) (hk : (x.queue i).pushed[k]? = some c) (hs : Stays c.cmdType) :
    k < (x.queue i).popped.length ↔ k < (x.queue i).retired.length := by
  rw [(h.queue i).tail]
  constructor
  · intro hlt
    exact hcore.sound.heads.popped i k c.cmdType hlt (cmds_getElem? hk) hs
  · intro hlt
    exact hlt.trans_le (tail_cases hcore i).1

/-- Any other command is popped when it is taken. -/
theorem popped_iff_of_not_stays (h : Log cfg x) (hk : (x.queue i).pushed[k]? = some c) (hs : ¬ Stays c.cmdType) :
    k < (x.queue i).popped.length ↔ k < (x.queue i).fifoSeq := by
  rw [(h.queue i).tail]
  rcases (tail_cases hcore i).2 with hseq | ⟨hseq, hhead⟩
  · rw [hseq]
  · have hne : k ≠ (x.queue i).tail := by
      rintro rfl
      have hat := cmds_getElem? hk
      rcases hhead with ⟨hq, -⟩ | ⟨hb, -⟩
      · exact hs (.inl (Option.some.inj (hat.symm.trans hq)))
      · exact hs (.inr (Option.some.inj (hat.symm.trans hb)))
    omega

/-- A QUIET or a BARRIER that was taken and has not retired is the head of its ring. -/
theorem inFlight_head (hc : c ∈ (x.queue i).inFlight) (hs : Stays c.cmdType) :
    (x.queue i).fifoSeq = (x.queue i).tail + 1 ∧ (cmds x i)[(x.queue i).tail]? = some c.cmdType := by
  obtain ⟨k, hle, hlt, hk⟩ := mem_inFlight.mp hc
  have hnot : ¬ k < (x.queue i).tail := fun hlt' =>
    absurd (hcore.sound.heads.popped i k c.cmdType hlt' (cmds_getElem? hk) hs) (Nat.not_lt.mpr hle)
  rcases (tail_cases hcore i).2 with hseq | ⟨hseq, -⟩
  · omega
  · have heq : k = (x.queue i).tail := by omega
    exact ⟨hseq, heq ▸ cmds_getElem? hk⟩

omit hcore in
theorem mem_inFlight_of_cmds {c : CmdType} (hret : (x.queue i).retired.length ≤ k)
    (hlt : k < (x.queue i).fifoSeq) (hat : (cmds x i)[k]? = some c) :
    ∃ cmd ∈ (x.queue i).inFlight, cmd.cmdType = c := by
  unfold cmds at hat
  rw [getElem?_map] at hat
  obtain ⟨cmd, hc, htype⟩ := Option.map_eq_some_iff.mp hat
  exact ⟨cmd, mem_inFlight.mpr ⟨k, hret, hlt, hc⟩, htype⟩

theorem quietInflight_iff : x.quietInflight = true ↔ ∃ i, ∃ c ∈ (x.queue i).inFlight, c.cmdType = .quiet := by
  constructor
  · intro hflag
    have hsome : (queues x).quietWr.isSome = true := hcore.sound.ok.quietInflight.symm.trans hflag
    obtain ⟨wr, hwr⟩ := Option.isSome_iff_exists.mp hsome
    obtain ⟨i, -, hret, hseq, hat⟩ := quiet_inFlight hcore hwr
    exact ⟨i, mem_inFlight_of_cmds hret (by omega) hat⟩
  · rintro ⟨i, c, hc, htype⟩
    obtain ⟨hseq, hat⟩ := inFlight_head hcore hc (.inl htype)
    rcases (tail_cases hcore i).2 with hnone | ⟨-, ⟨-, hflag⟩ | ⟨hb, -⟩⟩
    · omega
    · exact hflag
    · rw [htype] at hat
      cases hat.symm.trans hb

theorem barrierInflight_iff : x.barrierInflight = true ↔ ∃ i, ∃ c ∈ (x.queue i).inFlight, c.cmdType = .barrier := by
  constructor
  · intro hflag
    have hsome : (queues x).barrierWr.isSome = true := hcore.sound.ok.barrierInflight.symm.trans hflag
    obtain ⟨wr, hwr⟩ := Option.isSome_iff_exists.mp hsome
    obtain ⟨i, -, hret, hseq, hat⟩ := barrier_inFlight hcore hwr
    exact ⟨i, mem_inFlight_of_cmds hret (by omega) hat⟩
  · rintro ⟨i, c, hc, htype⟩
    obtain ⟨hseq, hat⟩ := inFlight_head hcore hc (.inr htype)
    rcases (tail_cases hcore i).2 with hnone | ⟨-, ⟨hq, -⟩ | ⟨-, hflag⟩⟩
    · omega
    · rw [htype] at hat
      cases hat.symm.trans hq
    · exact hflag

/-- Ids are given out, and retire, in order. -/
theorem retired_append_pending (h : Log cfg x) (i : Fin Q) : (x.queue i).retired ++ (x.queue i).pending.map Prod.fst =
      (List.range (x.queue i).fifoSeq).map (uniqueWrId i) := by
  obtain ⟨hle, hpend⟩ := hcore.sound.ok.window i
  have hle : (x.queue i).retired.length ≤ (x.queue i).fifoSeq := hle
  have hpend : (x.queue i).pending.map Prod.fst =
    (range' (x.queue i).retired.length ((x.queue i).fifoSeq - (x.queue i).retired.length)).map (uniqueWrId i) := hpend
  have hsplit : range' 0 (x.queue i).retired.length ++
      range' (x.queue i).retired.length ((x.queue i).fifoSeq - (x.queue i).retired.length) =
      range' 0 (x.queue i).fifoSeq := by
    have happ := @range'_append_1 0 (x.queue i).retired.length ((x.queue i).fifoSeq - (x.queue i).retired.length)
    rwa [Nat.zero_add, Nat.add_sub_cancel' hle] at happ
  rw [hpend, range_eq_range', ← hsplit, map_append, ← range_eq_range', ← (h.queue i).retired]

end

/-- Only WRITEs have bytes. -/
theorem sum_writes {l : List TransferCmd} (h : ∀ c ∈ l, c.cmdType ≠ .write → c.bytes = 0) :
    (l.map fun c => c.bytes.toNat).sum = ((l.filter fun c => c.cmdType = .write).map fun c => c.bytes.toNat).sum := by
  induction l with
  | nil => rfl
  | cons c l ih =>
    have ih := ih fun d hd => h d (mem_cons_of_mem _ hd)
    by_cases hw : c.cmdType = .write
    · rw [filter_cons, if_pos (decide_eq_true hw), map_cons, map_cons, sum_cons, sum_cons, ih]
    · rw [filter_cons, if_neg (fun hd => hw (of_decide_eq_true hd)), map_cons, sum_cons, h c (mem_cons_self) hw, ih]
      exact Nat.zero_add _

/-- The bytes of the WRITEs that were taken and have not retired. -/
def writeBytes (r : D2HQueue) : ℕ :=
  ((r.inFlight.filter fun c => c.cmdType = .write).map fun c => c.bytes.toNat).sum

theorem inflightBytes_eq (h : Log cfg x) : x.inflightBytes = ∑ i, writeBytes (x.queue i) := by
  rw [h.bytes.all]
  refine Finset.sum_congr rfl fun i _ => ?_
  show ((x.queue i).pending.map Prod.snd).sum = _
  rw [← (h.queue i).bytes]
  exact sum_writes fun c hc => (h.queue i).built c (mem_of_mem_take (mem_of_mem_drop hc))

-- ── The result

/-- How the history of a proxy stands to its state. -/
structure ExactRetirement (cfg : Config) (x : Proxy Q) : Prop where
  /-- every taken trigger is posted, or waits to be, once -/
  posted : ∀ i, (((items x).filter (·.ring = i)).map Item.slot).Perm (List.range (x.queue i).fifoSeq)
  decoded : ∀ it ∈ items x, (x.queue it.ring).pushed[it.slot]? = some it.cmd
  popped : ∀ i, (x.queue i).popped ++ (x.queue i).fifo = (x.queue i).pushed
  popStays : ∀ i k c, (x.queue i).pushed[k]? = some c → Stays c.cmdType →
    (k < (x.queue i).popped.length ↔ k < (x.queue i).retired.length)
  popOthers : ∀ i k c, (x.queue i).pushed[k]? = some c → ¬ Stays c.cmdType →
    (k < (x.queue i).popped.length ↔ k < (x.queue i).fifoSeq)
  order : ∀ i : Fin Q, (x.queue i).retired ++ (x.queue i).pending.map Prod.fst =
    (List.range (x.queue i).fifoSeq).map (uniqueWrId i)
  room : ∀ i, (x.queue i).pending.length ≤ cfg.maxInflight
  quiet : x.quietInflight = true ↔ ∃ i, ∃ c ∈ (x.queue i).inFlight, c.cmdType = .quiet
  barrier : x.barrierInflight = true ↔ ∃ i, ∃ c ∈ (x.queue i).inFlight, c.cmdType = .barrier
  bytes : x.inflightBytes = ∑ i, writeBytes (x.queue i)

/-- What a step retires was acked; a QUIET or a BARRIER that it pops was acked, and everything
    before it on its ring has retired. -/
structure Fenced (x x' : Proxy Q) : Prop where
  retired : ∀ (i : Fin Q) n, (x.queue i).retired.length ≤ n → n < (x'.queue i).retired.length →
    uniqueWrId i n ∈ x.acked
  popped : ∀ (i : Fin Q) k c, (x.queue i).popped.length ≤ k → k < (x'.queue i).popped.length →
    (x.queue i).pushed[k]? = some c → Stays c.cmdType →
    k ≤ (x.queue i).retired.length ∧ uniqueWrId i k ∈ x.acked

theorem Fenced.of_same (h : ∀ i, (x'.queue i).retired = (x.queue i).retired ∧
    (x'.queue i).popped = (x.queue i).popped) : Fenced x x' := by
  refine ⟨fun i n hle hlt => ?_, fun i k c hle hlt => ?_⟩
  · rw [(h i).1] at hlt
    exact absurd hlt (Nat.not_lt.mpr hle)
  · rw [(h i).2] at hlt
    exact absurd hlt (Nat.not_lt.mpr hle)

/-- One ring changes. -/
theorem Fenced.of_update (hq : x'.queue = update x.queue i r)
    (hret : ∀ n, (x.queue i).retired.length ≤ n → n < r.retired.length → uniqueWrId i n ∈ x.acked)
    (hpop : ∀ k c, (x.queue i).popped.length ≤ k → k < r.popped.length →
      (x.queue i).pushed[k]? = some c → Stays c.cmdType →
      k ≤ (x.queue i).retired.length ∧ uniqueWrId i k ∈ x.acked) : Fenced x x' := by
  refine ⟨fun j n hle hlt => ?_, fun j k c hle hlt hk hs => ?_⟩
  · rw [hq] at hlt
    by_cases hj : j = i
    · rw [hj, update_self] at hlt
      rw [hj] at hle ⊢
      exact hret n hle hlt
    · rw [update_of_ne hj] at hlt
      exact absurd hlt (Nat.not_lt.mpr hle)
  · rw [hq] at hlt
    by_cases hj : j = i
    · rw [hj, update_self] at hlt
      rw [hj] at hle hk ⊢
      exact hpop k c hle hlt hk hs
    · rw [update_of_ne hj] at hlt
      exact absurd hlt (Nat.not_lt.mpr hle)

theorem retireFront_fenced (hcore : Core cfg x) (h : Log cfg x)
    (hfront : (x.queue i).pending = (wr, bytes) :: rest) (hacked : wr ∈ x.acked) :
    Fenced x (retireFront x i wr bytes rest) := by
  have hwr := (front_wr hcore hfront).2
  have hne : x.quietWr = some wr → x.barrierWr ≠ some wr := quietWr_ne_barrierWr hcore.sound.ok
  refine Fenced.of_update (retireFront_queue (i := i) hne bytes rest) (fun n hle hlt => ?_) fun k c hle hlt hk hs => ?_
  · have hlen : n < ((x.queue i).retired ++ [wr]).length := by
      split at hlt <;> exact hlt
    rw [length_append, length_singleton] at hlen
    rw [show n = (x.queue i).retired.length by omega, ← hwr]
    exact hacked
  · split at hlt
    · next hin =>
      obtain ⟨hret, cmd, hhead⟩ := front_head hcore hfront hin
      have hlen : k < ((x.queue i).popped ++ (x.queue i).fifo.head?.toList).length := hlt
      rw [hhead, length_append] at hlen
      have hone : (some cmd).toList.length = 1 := rfl
      have htail := (h.queue i).tail
      have heq : k = (x.queue i).retired.length := by omega
      refine ⟨heq.le, ?_⟩
      rw [heq, ← hwr]
      exact hacked
    · exact absurd hlt (Nat.not_lt.mpr hle)

theorem accept_fenced (h : Log cfg x) (hhead : (x.queue i).fifo.head? = some cmd)
    (haccept : accept cfg x i cmd = .ok x') : Fenced x x' := by
  refine Fenced.of_update (accept_queue haccept) (fun n hle hlt => ?_) fun k c hle hlt hk hs => ?_
  · have hlen : n < (x.queue i).retired.length := by
      split at hlt <;> exact hlt
    exact absurd hlen (Nat.not_lt.mpr hle)
  · split at hlt
    · next hgoes =>
      -- what is popped at a take is no QUIET and no BARRIER
      have hlen : k < ((x.queue i).popped ++ (x.queue i).fifo.head?.toList).length := hlt
      rw [hhead, length_append] at hlen
      have hone : (some cmd).toList.length = 1 := rfl
      have htail := (h.queue i).tail
      have heq : k = (x.queue i).tail := by omega
      have hcmd : c = cmd := by
        have hnext := (h.queue i).next hhead
        rw [← heq] at hnext
        exact Option.some.inj (hk.symm.trans hnext)
      rw [hcmd] at hs
      rcases hs with hs | hs
      · exact absurd hs (goesOn_ne_quiet hgoes)
      · exact absurd hs (goesOn_ne_barrier hgoes)
    · exact absurd hlt (Nat.not_lt.mpr hle)

theorem step_fenced (hcore : Core cfg x) (h : Log cfg x) (hstep : step cfg x a = .ok x') : Fenced x x' := by
  rcases (step_move hcore hstep).1 with ⟨i, call, -, rfl⟩ | hmove
  · refine Fenced.of_update (i := i) (r := (x.queue i).push call.cmd) rfl (fun n hle hlt => ?_) fun k c hle hlt => ?_
    · exact absurd hlt (Nat.not_lt.mpr hle)
    · exact absurd hlt (Nat.not_lt.mpr hle)
  · cases hmove with
    | complete | ack | goto => exact Fenced.of_same fun _ => ⟨rfl, rfl⟩
    | retire i wr bytes rest hfront hacked hbatch => exact retireFront_fenced hcore h hfront hacked
    | take i cmd y pc hroom hhead hbytes hheld haccept =>
      have hy := accept_fenced h hhead haccept
      exact ⟨hy.retired, hy.popped⟩
    | hand x' go hand =>
      refine Fenced.of_same fun i => ?_
      rw [hand.queue]
      exact ⟨rfl, rfl⟩

/-- **RETIREMENT IS EXACT** in every run, whatever is pushed and in whatever order completions come. -/
theorem retirement_exact {acts : List (Action Q)} (hrun : runFrom (step cfg) (Proxy.init : Proxy Q) acts = .ok x) :
    ExactRetirement cfg x ∧ ∀ a x', step cfg x a = .ok x' → Fenced x x' := by
  obtain ⟨hcore, h⟩ := runFrom_invariant (I := fun x => Core cfg x ∧ Log cfg x)
    (fun x a x' hi hstep => ⟨(step_move hi.1 hstep).2, step_log hi.1 hi.2 hstep⟩)
    ⟨init_core, init_log⟩ hrun
  have hroom : ∀ i, (x.queue i).pending.length ≤ cfg.maxInflight := fun i => by
    have hlen : ((x.queue i).pending.map Prod.fst).length ≤ cfg.maxInflight := hcore.sound.ok.room i
    rwa [length_map] at hlen
  refine ⟨⟨h.slots, fun it hit => (h.cmds it hit).1, fun i => (h.queue i).popped,
    fun i k c hk hs => popped_iff_of_stays hcore h hk hs,
    fun i k c hk hs => popped_iff_of_not_stays hcore h hk hs, retired_append_pending hcore h, hroom,
    quietInflight_iff hcore, barrierInflight_iff hcore, inflightBytes_eq h⟩, ?_⟩
  exact fun a x' hstep => step_fenced hcore h hstep

/-- A WRITE and a QUIET behind it, an ATOMIC on the other ring. The WRITE completes and the QUIET is acked in
    the first pass; both have retired in the second. -/
theorem retirement_exact_two_rings : ∃ x, runFrom (step verbsConfig) (Proxy.init : Proxy 2)
      ([.push 0 (.putNbi 5), .push 0 .quiet, .push 1 .amoNonfetchAdd] ++ advances 10 ++
        [.cqe (uniqueWrId 0 0)] ++ advances 9) = .ok x ∧
      (x.queue 0).popped = [(DeviceCall.putNbi 5).cmd, DeviceCall.quiet.cmd] ∧
      (x.queue 1).inFlight = [DeviceCall.amoNonfetchAdd.cmd] ∧ ExactRetirement verbsConfig x := by
  refine exists_run_of_eval (fun x => (x.queue 0).popped = [(DeviceCall.putNbi 5).cmd, DeviceCall.quiet.cmd] ∧
    (x.queue 1).inFlight = [DeviceCall.amoNonfetchAdd.cmd]) ?_ fun x hrun hx => ?_
  · decide +kernel
  · exact ⟨hx.1, hx.2, (retirement_exact hrun).1⟩

end EpProxy
