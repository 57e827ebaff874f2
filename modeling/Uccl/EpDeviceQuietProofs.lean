import Uccl.EpQueueProofs

/-! # The device-side quiet

    `nvshmemi_ibgda_quiet` is meant as a fence: the GPU pushes a QUIET command on its device-to-host rings and waits
    until the host has popped each of them. A ring retires in order, so a popped QUIET has behind it everything that was
    pushed on ITS ring before. The QUIETs go to every `kQuietStride`-th ring: to all rings over CXI, and to one ring of
    each proxy elsewhere. The sibling rings are not waited for: the proxy's own `quiet` stops after three empty polls
    (`sibling_outstanding`).

    `P` proxies with `Q` rings each. A step is one push of the GPU, one look of the waiting GPU at a tail, or one turn
    of a proxy's loops: a take, a posting, a poll, a `notify_gpu_completion`. `pushed` and the `before` of a call (how
    much was pushed when it began) are read by no function. -/

namespace EpDeviceQuiet

open StepRun EpQueue Function List Except Nat

variable {P Q : ℕ}
variable {i : Fin Q}

-- ── A proxy

/-- A proxy thread.  The ids that `queues.nic` has and `outstanding` has not are in `batch`. -/
structure Proxy (Q : ℕ) where
  queues : Queues Q
  /-- taken by `post_gpu_command` and not handed on yet -/
  batch : List (ℕ × CmdType)
  /-- posted to the transport and not complete -/
  outstanding : Finset ℕ
  /-- in the loop of a QUIET, with `empty_iters` -/
  quiet : Option ℕ

def Proxy.init : Proxy Q := ⟨Queues.init, [], ∅, none⟩

inductive Fault
  /-- "quiet_wrs should be empty" -/
  | quietNotEmpty
  deriving DecidableEq

/-- The `take` loop of `post_gpu_command`, once around. -/
def takeOne (maxInflight : ℕ) (x : Proxy Q) (i : Fin Q) : Proxy Q :=
  match take maxInflight x.queues i with
  | none => x
  | some (c, q) => { x with
      queues := q
      batch := x.batch ++ [(uniqueWrId i (x.queues.ring i).fifoSeq, c)] }

/-- The ids of the WRITE and ATOMIC commands of a batch. -/
def transfers (batch : List (ℕ × CmdType)) : Finset ℕ :=
  ((batch.filter fun x => x.2 = .write ∨ x.2 = .atomic).map Prod.fst).toFinset

def has (c : CmdType) (batch : List (ℕ × CmdType)) : Bool := batch.any fun x => x.2 = c

/-- `post_gpu_commands_mixed`: writes and atomics are posted, then a QUIET runs `quiet_cq`. -/
def postMixed (x : Proxy Q) : Except Fault (Proxy Q) :=
  if has .barrier x.batch ∧ has .quiet x.batch then .error .quietNotEmpty
  else .ok { x with
    batch := []
    outstanding := x.outstanding ∪ transfers x.batch
    quiet := if has .quiet x.batch then some 0 else none }

/-- `post_cxi_commands`: one command after another; a QUIET waits in its place. -/
def postCxi (x : Proxy Q) : Proxy Q :=
  match x.batch with
  | [] => x
  | (wr, c) :: rest =>
    match c with
    | .write | .atomic => { x with batch := rest, outstanding := insert wr x.outstanding }
    | .quiet => { x with batch := rest, quiet := some 0 }
    | .barrier => { x with batch := rest }

/-- A completion of a posted request is polled. -/
def completeOne (x : Proxy Q) (wr : ℕ) : Proxy Q :=
  if wr ∈ x.outstanding then
    { x with queues := complete x.queues wr, outstanding := x.outstanding.erase wr }
  else x

def completeAll (x : Proxy Q) (found : List ℕ) : Proxy Q := found.foldl completeOne x

/-- The end of a QUIET: its own id is reported. -/
def endQuiet (x : Proxy Q) : Proxy Q := { x with queues := ackQuiet x.queues, quiet := none }

def kConsecutiveEmptyToExit : ℕ := 3

/-- One poll of the completion queue that finds `found`, in the main loop or in the loop of a QUIET:
    `quiet_cq` leaves after three empty polls in a row, the loop over CXI when nothing is outstanding. -/
def poll (cxi : Bool) (x : Proxy Q) (found : List ℕ) : Proxy Q :=
  match x.quiet with
  | none => completeAll x found
  | some emptyIters =>
    let x' := completeAll x found
    if cxi then
      if x'.outstanding = ∅ then endQuiet x' else x'
    else if found = [] then
      if kConsecutiveEmptyToExit ≤ emptyIters + 1 then endQuiet x'
      else { x' with quiet := some (emptyIters + 1) }
    else { x' with quiet := some 0 }

-- ── The system

/-- A call of `nvshmemi_ibgda_quiet`. -/
inductive Call (P Q : ℕ)
  | idle
  /-- `todo` are the rings still to get a QUIET, `slots` those to be waited for -/
  | running (before : Fin P → Fin Q → ℕ) (todo : List (Fin P × Fin Q))
      (slots : List ((Fin P × Fin Q) × ℕ))
  | returned (before : Fin P → Fin Q → ℕ)

/-- What was pushed before a call that has returned. -/
def Call.before? : Call P Q → Option (Fin P → Fin Q → ℕ)
  | .returned before => some before
  | _ => none

theorem Call.eq_of_before? {c : Call P Q} {before : Fin P → Fin Q → ℕ} (h : c.before? = some before) :
    c = .returned before := by
  cases c with
  | returned b => exact congrArg Call.returned (Option.some.inj h)
  | idle | running => cases h

structure World (P Q : ℕ) where
  proxies : Fin P → Proxy Q
  pushed : Fin P → Fin Q → List CmdType
  call : Call P Q

def World.init : World P Q :=
  { proxies := fun _ => Proxy.init, pushed := fun _ _ => [], call := .idle }

/-- `kQuietStride` -/
def kQuietStride (cxi : Bool) (Q : ℕ) : ℕ := if cxi then 1 else Q

/-- Ring `i` of proxy `p` is `d2h_channel_idx = p * Q + i`; the call uses every `kQuietStride`-th. -/
def carriesQuiet (cxi : Bool) (r : Fin P × Fin Q) : Bool :=
  decide ((r.1 * Q + r.2) % kQuietStride cxi Q = 0)

/-- The rings of the call's loop, in order. -/
def quietRings (cxi : Bool) : List (Fin P × Fin Q) :=
  ((List.finRange P).flatMap fun p => (List.finRange Q).map fun i => (p, i)).filter (carriesQuiet cxi)

/-- The GPU pushes a command on a ring. -/
def pushCmd (s : World P Q) (p : Fin P) (i : Fin Q) (c : CmdType) : World P Q :=
  { s with
    proxies := Function.update s.proxies p { s.proxies p with queues := push (s.proxies p).queues i c }
    pushed := Function.update s.pushed p (Function.update (s.pushed p) i (s.pushed p i ++ [c])) }

/-- A proxy moves. -/
def setProxy (s : World P Q) (p : Fin P) (x : Proxy Q) : World P Q :=
  { s with proxies := Function.update s.proxies p x }

/-- The call goes on: it pushes the next QUIET and notes the slot, or looks whether the next slot
    has been popped, or returns. -/
def callStep (s : World P Q) : World P Q :=
  match s.call with
  | .running before (r :: todo) slots =>
    { pushCmd s r.1 r.2 .quiet with
      call := .running before todo (slots ++ [(r, (s.pushed r.1 r.2).length)]) }
  | .running before [] ((r, slot) :: slots) =>
    if slot < ((s.proxies r.1).queues.ring r.2).tail then
      { s with call := .running before [] slots }
    else s
  | .running before [] [] => { s with call := .returned before }
  | _ => s

inductive Turn (Q : ℕ)
  | take (i : Fin Q)
  | post
  | poll (found : List ℕ)
  /-- `barrier_check` reports the BARRIER in flight -/
  | ackBarrier
  | notify

inductive Action (P Q : ℕ)
  /-- a warp pushes a command -/
  | push (p : Fin P) (i : Fin Q) (c : CmdType)
  | proxy (p : Fin P) (turn : Turn Q)
  /-- `nvshmemi_ibgda_quiet` is entered -/
  | enter
  /-- the call goes on -/
  | call

/-- `post_gpu_command` hands its batch on. -/
def post (cxi : Bool) (x : Proxy Q) : Except Fault (Proxy Q) :=
  if cxi then .ok (postCxi x) else postMixed x

/-- A turn of proxy `p`.  In the loop of a QUIET it does nothing but poll. -/
def proxyStep (cxi : Bool) (maxInflight : ℕ) (x : Proxy Q) : Turn Q → Except Fault (Proxy Q)
  | .poll found => .ok (poll cxi x found)
  | .take i => if x.quiet = none then .ok (takeOne maxInflight x i) else .ok x
  | .post => if x.quiet = none then post cxi x else .ok x
  | .ackBarrier =>
    if x.quiet = none then .ok { x with queues := ackBarrier x.queues } else .ok x
  | .notify =>
    if x.quiet = none ∧ x.batch = [] then .ok { x with queues := notifyGpuCompletion x.queues }
    else .ok x

def step (cxi : Bool) (maxInflight : ℕ) (s : World P Q) : Action P Q → Except Fault (World P Q)
  | .push p i c => .ok (pushCmd s p i c)
  | .proxy p turn =>
    match proxyStep cxi maxInflight (s.proxies p) turn with
    | .error f => .error f
    | .ok x => .ok (setProxy s p x)
  | .enter =>
    match s.call with
    | .running _ _ _ => .ok s
    | _ => .ok { s with call := .running (fun p i => (s.pushed p i).length) (quietRings cxi) [] }
  | .call => .ok (callStep s)

/-- The `k`-th command of ring `i` has been reported complete: its id is in `acked_wrs_`, or it was
    and has been consumed. -/
def Reported (q : Queues Q) (i : Fin Q) (k : ℕ) : Prop :=
  k < (q.ring i).retired ∨ (k < (q.ring i).fifoSeq ∧ uniqueWrId i k ∈ q.acked)

-- ── The defect

/-- Four proxies of eight rings, not CXI. A WRITE is pushed on ring 1 of proxy 0, then the call pushes its QUIETs. Proxy
    0 posts the WRITE; each `quiet_cq` finds nothing three times and acks; the QUIETs retire. -/
def siblingWrite : List (Action 4 8) :=
  List.flatten
    [[.push 0 1 .write, .enter, .call, .call, .call, .call],
     (List.finRange 4).flatMap fun p =>
       [.proxy p (.take 0), .proxy p (.take 1), .proxy p .post, .proxy p (.poll []),
        .proxy p (.poll []), .proxy p (.poll []), .proxy p .notify],
     [.call, .call, .call, .call, .call]]

/-- **THE CALL RETURNS WITH A WRITE OUTSTANDING**: the WRITE was pushed before the call and has not been reported. -/
theorem sibling_outstanding : ∃ s before, runFrom (step false 8) (World.init : World 4 8) siblingWrite = .ok s ∧
      s.call = .returned before ∧ before 0 1 = 1 ∧ s.pushed 0 1 = [.write] ∧
      uniqueWrId 1 0 ∈ (s.proxies 0).outstanding ∧ ¬ Reported (s.proxies 0).queues 1 0 := by
  have heval : observe (fun s : World 4 8 => (s.call.before?.map fun b => b 0 1, s.pushed 0 1,
      decide (uniqueWrId 1 0 ∈ (s.proxies 0).outstanding),
      ((s.proxies 0).queues.ring 1).retired, decide (uniqueWrId 1 0 ∈ (s.proxies 0).queues.acked)))
      (runFrom (step false 8) World.init siblingWrite) = some (some 1, [.write], true, 0, false) := by
    decide +kernel
  obtain ⟨s, hrun, hobs⟩ := exists_of_observe heval
  obtain ⟨hcall, hrest⟩ := Prod.mk.inj hobs
  obtain ⟨hpushed, hrest⟩ := Prod.mk.inj hrest
  obtain ⟨hout, hrest⟩ := Prod.mk.inj hrest
  obtain ⟨hret, hacked⟩ := Prod.mk.inj hrest
  obtain ⟨before, hbefore, hone⟩ := Option.map_eq_some_iff.mp hcall
  refine ⟨s, before, hrun, Call.eq_of_before? hbefore, hone, hpushed, of_decide_eq_true hout, ?_⟩
  rintro (hlt | ⟨-, hmem⟩)
  · rw [hret] at hlt
    exact absurd hlt (Nat.not_lt_zero _)
  · exact of_decide_eq_false hacked hmem

-- ── The heads of the rings

/-- `c` stays at the head of its ring from its take to its retirement. -/
def Stays (c : CmdType) : Prop := c = .quiet ∨ c = .barrier

/-- The id in flight is that of the head of a ring, and the head is a `c`. -/
def HeadIs (q : Queues Q) (c : CmdType) (wr : ℕ) : Prop :=
  ∃ i : Fin Q, wr = uniqueWrId i (q.ring i).tail ∧
    (q.ring i).fifoSeq = (q.ring i).tail + 1 ∧ (q.ring i).fifo.head? = some c

/-- How the counters of the rings of a proxy stand to what was pushed on them. -/
structure Heads (q : Queues Q) (cmds : Fin Q → List CmdType) : Prop where
  le : ∀ i, (q.ring i).tail ≤ (cmds i).length
  fifo : ∀ i, (q.ring i).fifo = (cmds i).drop (q.ring i).tail
  /-- what is taken is popped, except for a QUIET or a BARRIER in flight -/
  seq : ∀ i : Fin Q, (q.ring i).fifoSeq = (q.ring i).tail ∨
    (q.ring i).fifoSeq = (q.ring i).tail + 1 ∧
      (q.quietWr = some (uniqueWrId i (q.ring i).tail) ∨ q.barrierWr = some (uniqueWrId i (q.ring i).tail))
  quiet : ∀ wr, q.quietWr = some wr → HeadIs q .quiet wr
  barrier : ∀ wr, q.barrierWr = some wr → HeadIs q .barrier wr
  /-- a QUIET or a BARRIER is popped when it retires -/
  popped : ∀ i k c, k < (q.ring i).tail → (cmds i)[k]? = some c → Stays c → k < (q.ring i).retired

variable {q q' : Queues Q} {cmds : Fin Q → List CmdType} {maxInflight wr : ℕ} {d c : CmdType} {rest : List ℕ}

theorem init_heads : Heads (Queues.init : Queues Q) fun _ => [] where
  le _ := le_refl _
  fifo _ := rfl
  seq _ := .inl rfl
  quiet _ h := nomatch h
  barrier _ h := nomatch h
  popped _ _ _ h := absurd h (Nat.not_lt_zero _)

section

variable (h : Heads q cmds)
include h

/-- Nothing is taken or popped, and what is in flight is the same. -/
theorem Heads.of_same (hring : ∀ i, (q'.ring i).tail = (q.ring i).tail ∧
      (q'.ring i).fifo = (q.ring i).fifo ∧ (q'.ring i).fifoSeq = (q.ring i).fifoSeq ∧
      (q.ring i).retired ≤ (q'.ring i).retired) (hquiet : q'.quietWr = q.quietWr)
    (hbarrier : q'.barrierWr = q.barrierWr) : Heads q' cmds := by
  have hhead : ∀ c wr, HeadIs q c wr → HeadIs q' c wr := by
    rintro c wr ⟨i, hwr, hseq, hfirst⟩
    refine ⟨i, ?_⟩
    rw [(hring i).1, (hring i).2.1, (hring i).2.2.1]
    exact ⟨hwr, hseq, hfirst⟩
  refine ⟨fun i => ?_, fun i => ?_, fun i => ?_, fun wr hwr => hhead _ wr (h.quiet wr (hquiet ▸ hwr)),
    fun wr hwr => hhead _ wr (h.barrier wr (hbarrier ▸ hwr)), fun i k c hk hc hs => ?_⟩
  · rw [(hring i).1]
    exact h.le i
  · rw [(hring i).1, (hring i).2.1]
    exact h.fifo i
  · rw [(hring i).1, (hring i).2.2.1, hquiet, hbarrier]
    exact h.seq i
  · rw [(hring i).1] at hk
    exact (h.popped i k c hk hc hs).trans_le (hring i).2.2.2

/-- The rings and what is in flight are the same. -/
theorem Heads.congr (hring : q'.ring = q.ring) (hquiet : q'.quietWr = q.quietWr)
    (hbarrier : q'.barrierWr = q.barrierWr) : Heads q' cmds :=
  h.of_same (fun i => by rw [hring]; exact ⟨rfl, rfl, rfl, le_refl _⟩) hquiet hbarrier

theorem complete_heads (wr : ℕ) : Heads (complete q wr) cmds := by
  unfold complete
  split
  · exact h.congr rfl rfl rfl
  · exact h

theorem ackQuiet_heads : Heads (ackQuiet q) cmds := by
  unfold ackQuiet
  split
  · exact h.congr rfl rfl rfl
  · exact h

theorem ackBarrier_heads : Heads (ackBarrier q) cmds := by
  unfold ackBarrier
  split
  · exact h.congr rfl rfl rfl
  · exact h

theorem push_heads (i : Fin Q) (c : CmdType) : Heads (push q i c) (update cmds i (cmds i ++ [c])) := by
  have hself : (push q i c).ring i = { q.ring i with fifo := (q.ring i).fifo ++ [c] } := update_self ..
  have hother : ∀ j, j ≠ i → (push q i c).ring j = q.ring j := fun j hj => update_of_ne hj ..
  have htail : ∀ j, ((push q i c).ring j).tail = (q.ring j).tail ∧ ((push q i c).ring j).fifoSeq = (q.ring j).fifoSeq ∧
      ((push q i c).ring j).retired = (q.ring j).retired := fun j => by
    by_cases hj : j = i
    · rw [hj, hself]
      exact ⟨rfl, rfl, rfl⟩
    · rw [hother j hj]
      exact ⟨rfl, rfl, rfl⟩
  have hcmds : ∀ j, j ≠ i → update cmds i (cmds i ++ [c]) j = cmds j := fun j hj =>
    update_of_ne hj ..
  have hcmdsi : update cmds i (cmds i ++ [c]) i = cmds i ++ [c] := update_self ..
  -- a push does not change the head of a ring that has one
  have hhead : ∀ d wr, HeadIs q d wr → HeadIs (push q i c) d wr := by
    rintro d wr ⟨j, hwr, hseq, hfirst⟩
    refine ⟨j, ?_, ?_, ?_⟩
    · rw [(htail j).1]
      exact hwr
    · rw [(htail j).1, (htail j).2.1]
      exact hseq
    · by_cases hj : j = i
      · rw [hj] at hfirst
        rw [hj, hself]
        exact head?_append_of_ne_nil _ (fun hnil => by rw [hnil] at hfirst; exact nomatch hfirst) |>.trans hfirst
      · rw [hother j hj]
        exact hfirst
  refine ⟨fun j => ?_, fun j => ?_, fun j => ?_, fun wr hwr => hhead _ wr (h.quiet wr hwr),
    fun wr hwr => hhead _ wr (h.barrier wr hwr), fun j k d hk hd hs => ?_⟩
  · rw [(htail j).1]
    by_cases hj : j = i
    · rw [hj, hcmdsi, length_append]
      exact (h.le i).trans (Nat.le_add_right ..)
    · rw [hcmds j hj]
      exact h.le j
  · by_cases hj : j = i
    · rw [hj, hcmdsi, hself]
      rw [drop_append_of_le_length (h.le i), h.fifo i]
    · rw [hother j hj, hcmds j hj]
      exact h.fifo j
  · rw [(htail j).1, (htail j).2.1]
    exact h.seq j
  · rw [(htail j).1] at hk
    rw [(htail j).2.2]
    refine h.popped j k d hk ?_ hs
    by_cases hj : j = i
    · rw [hj, hcmdsi, getElem?_append_left (hk.trans_le (hj ▸ h.le j))] at hd
      rw [hj]
      exact hd
    · rw [hcmds j hj] at hd
      exact hd

/-- The head of a ring has not been taken if it can be. -/
theorem Heads.untaken (hok : q.Ok maxInflight) {c : CmdType}
    (hhead : (q.ring i).fifo.head? = some c) (hblocked : blocked q c = false) :
    (q.ring i).fifoSeq = (q.ring i).tail := by
  rcases h.seq i with hseq | ⟨-, hwr | hwr⟩
  · exact hseq
  · obtain ⟨j, heq, -, hq⟩ := h.quiet _ hwr
    have hij : i = j := Fin.ext (uniqueWrId_inj heq).1
    rw [← hij, hhead] at hq
    rw [Option.some.inj hq, blocked, hok.quietInflight, hwr] at hblocked
    cases hblocked
  · obtain ⟨j, heq, -, hq⟩ := h.barrier _ hwr
    have hij : i = j := Fin.ext (uniqueWrId_inj heq).1
    rw [← hij, hhead] at hq
    rw [Option.some.inj hq, blocked, hok.barrierInflight, hwr] at hblocked
    cases hblocked

end

/-- The head of a ring without a command in flight is not what is in flight. -/
theorem HeadIs.of_update {r : Ring} (h : HeadIs q d wr)
    (hring : q'.ring = update q.ring i r) (hne : wr ≠ uniqueWrId i (q.ring i).tail) : HeadIs q' d wr := by
  obtain ⟨j, hwr, hseq, hhead⟩ := h
  have hj : j ≠ i := fun hji => hne (hji ▸ hwr)
  refine ⟨j, ?_⟩
  rw [hring, update_of_ne hj]
  exact ⟨hwr, hseq, hhead⟩

/-- What is in flight is not at the head of a ring all of whose takes were popped. -/
theorem HeadIs.ne_of_untaken (h : HeadIs q d wr)
    (hseq : (q.ring i).fifoSeq = (q.ring i).tail) : wr ≠ uniqueWrId i (q.ring i).tail := by
  obtain ⟨j, hwr, htaken, -⟩ := h
  intro heq
  have hij : j = i := Fin.ext (uniqueWrId_inj (hwr.symm.trans heq)).1
  rw [hij] at htaken
  omega

/-- The head of a ring is the command pushed at its tail. -/
theorem Heads.getElem?_tail (h : Heads q cmds)
    (hhead : (q.ring i).fifo.head? = some c) : (cmds i)[(q.ring i).tail]? = some c := by
  rw [h.fifo i, head?_drop] at hhead
  exact hhead

/-- A QUIET or a BARRIER is taken: it stays at the head of its ring, in flight. -/
theorem Heads.keep_head (h : Heads q cmds) (hseq : (q.ring i).fifoSeq = (q.ring i).tail)
    (hring : q'.ring = update q.ring i ((q.ring i).assign i))
    (hnew : q'.quietWr = some (uniqueWrId i (q.ring i).tail) ∨ q'.barrierWr = some (uniqueWrId i (q.ring i).tail))
    (hsame : ∀ wr, (q.quietWr = some wr → q'.quietWr = some wr) ∧ (q.barrierWr = some wr → q'.barrierWr = some wr))
    (hquiet : ∀ wr, q'.quietWr = some wr → HeadIs q' .quiet wr)
    (hbarrier : ∀ wr, q'.barrierWr = some wr → HeadIs q' .barrier wr) : Heads q' cmds := by
  have htail : ∀ j, (q'.ring j).tail = (q.ring j).tail ∧ (q'.ring j).fifo = (q.ring j).fifo ∧
      (q'.ring j).retired = (q.ring j).retired := fun j => by
    rw [hring]
    by_cases hj : j = i
    · rw [hj, update_self]
      exact ⟨rfl, rfl, rfl⟩
    · rw [update_of_ne hj]
      exact ⟨rfl, rfl, rfl⟩
  refine ⟨fun j => ?_, fun j => ?_, fun j => ?_, hquiet, hbarrier, fun j k c hk hc hs => ?_⟩
  · rw [(htail j).1]
    exact h.le j
  · rw [(htail j).1, (htail j).2.1]
    exact h.fifo j
  · by_cases hj : j = i
    · rw [hj, hring, update_self]
      exact .inr ⟨congrArg (· + 1) hseq, hnew⟩
    · rw [hring, update_of_ne hj]
      exact (h.seq j).imp_right fun hin => ⟨hin.1, hin.2.imp (hsame _).1 (hsame _).2⟩
  · rw [(htail j).1] at hk
    rw [(htail j).2.2]
    exact h.popped j k c hk hc hs

/-- A command is popped; what stays until it retires has retired. -/
theorem Heads.pop_head (h : Heads q cmds) {r : Ring}
    (hhead : (q.ring i).fifo.head? = some c) (hring : q'.ring = update q.ring i r)
    (htail : r.tail = (q.ring i).tail + 1) (hfifo : r.fifo = (q.ring i).fifo.tail)
    (hseq : r.fifoSeq = r.tail) (hretired : (q.ring i).retired ≤ r.retired)
    (hstays : Stays c → (q.ring i).tail < r.retired)
    (hquiet : ∀ wr, q'.quietWr = some wr ↔ q.quietWr = some wr ∧ wr ≠ uniqueWrId i (q.ring i).tail)
    (hbarrier : ∀ wr, q'.barrierWr = some wr ↔
      q.barrierWr = some wr ∧ wr ≠ uniqueWrId i (q.ring i).tail) : Heads q' cmds := by
  have hat := h.getElem?_tail hhead
  have hself : q'.ring i = r := by rw [hring, update_self]
  have hother : ∀ j, j ≠ i → q'.ring j = q.ring j := fun j hj => by
    rw [hring, update_of_ne hj]
  refine ⟨fun j => ?_, fun j => ?_, fun j => ?_, fun wr hwr => ?_, fun wr hwr => ?_, fun j k d hk hd hs => ?_⟩
  · by_cases hj : j = i
    · rw [hj, hself, htail]
      exact lt_length hat
    · rw [hother j hj]
      exact h.le j
  · by_cases hj : j = i
    · rw [hj, hself, htail, hfifo, h.fifo i, tail_drop]
    · rw [hother j hj]
      exact h.fifo j
  · by_cases hj : j = i
    · rw [hj, hself]
      exact .inl hseq
    · rw [hother j hj]
      have hne : uniqueWrId j (q.ring j).tail ≠ uniqueWrId i (q.ring i).tail := fun heq =>
        hj (Fin.ext (uniqueWrId_inj heq).1)
      exact (h.seq j).imp_right fun hin => ⟨hin.1, hin.2.imp (fun hw => (hquiet _).mpr ⟨hw, hne⟩)
        fun hw => (hbarrier _).mpr ⟨hw, hne⟩⟩
  · obtain ⟨hold, hne⟩ := (hquiet wr).mp hwr
    exact (h.quiet wr hold).of_update hring hne
  · obtain ⟨hold, hne⟩ := (hbarrier wr).mp hwr
    exact (h.barrier wr hold).of_update hring hne
  · by_cases hj : j = i
    · rw [hj, hself, htail] at hk
      rw [hj] at hd
      rw [hj, hself]
      rcases Nat.lt_succ_iff_lt_or_eq.mp hk with hlt | heq
      · exact (h.popped i k d hlt hd hs).trans_le hretired
      · rw [heq] at hd ⊢
        exact hstays (Option.some.inj (hat.symm.trans hd) ▸ hs)
    · rw [hother j hj] at hk ⊢
      exact h.popped j k d hk hd hs

theorem accept_heads (h : Heads q cmds) (hok : q.Ok maxInflight)
    (hhead : (q.ring i).fifo.head? = some c) (hblocked : blocked q c = false) : Heads (accept q i c) cmds := by
  have hseq := h.untaken hok hhead hblocked
  have hwr : uniqueWrId i (q.ring i).fifoSeq = uniqueWrId i (q.ring i).tail := by rw [hseq]
  have hquiet : ∀ wr, q.quietWr = some wr → wr ≠ uniqueWrId i (q.ring i).tail := fun wr hin =>
    (h.quiet wr hin).ne_of_untaken hseq
  have hbarrier : ∀ wr, q.barrierWr = some wr → wr ≠ uniqueWrId i (q.ring i).tail := fun wr hin =>
    (h.barrier wr hin).ne_of_untaken hseq
  -- the new head in flight
  have hnew : ∀ q' : Queues Q, q'.ring = update q.ring i ((q.ring i).assign i) →
      HeadIs q' c (uniqueWrId i (q.ring i).tail) := fun q' hring => by
    refine ⟨i, ?_⟩
    rw [hring, update_self]
    exact ⟨rfl, congrArg (· + 1) hseq, hhead⟩
  cases c with
  | quiet =>
    have hnone : q.quietWr = none := by
      rw [blocked, hok.quietInflight] at hblocked
      simpa using hblocked
    refine h.keep_head hseq rfl (.inl (congrArg some hwr))
      (fun wr => ⟨fun hin => (nomatch hnone.symm.trans hin), id⟩) (fun wr hin => ?_)
      fun wr hin => (h.barrier wr hin).of_update rfl (hbarrier wr hin)
    rw [← Option.some.inj hin, hwr]
    exact hnew _ rfl
  | barrier =>
    have hnone : q.barrierWr = none := by
      rw [blocked, hok.barrierInflight] at hblocked
      simpa using hblocked
    refine h.keep_head hseq rfl (.inr (congrArg some hwr)) (fun wr => ⟨id, fun hin => (nomatch hnone.symm.trans hin)⟩)
      (fun wr hin => (h.quiet wr hin).of_update rfl (hquiet wr hin)) fun wr hin => ?_
    rw [← Option.some.inj hin, hwr]
    exact hnew _ rfl
  | write | atomic =>
    exact h.pop_head hhead rfl rfl rfl (congrArg (· + 1) hseq) (le_refl _)
      (fun hs => by rcases hs with hs | hs <;> exact nomatch hs)
      (fun wr => ⟨fun hin => ⟨hin, hquiet wr hin⟩, And.left⟩)
      (fun wr => ⟨fun hin => ⟨hin, hbarrier wr hin⟩, And.left⟩)

/-- The ring after one pass of the retire loop: a QUIET or a BARRIER leaves its head. -/
theorem retireFront_ring (hok : q.Ok maxInflight) (i : Fin Q) (wr : ℕ) (rest : List ℕ) :
    (retireFront q i wr rest).ring = update q.ring i (if q.quietWr = some wr ∨ q.barrierWr = some wr then
        Ring.pop { q.ring i with pending := rest, retired := (q.ring i).retired + 1 }
      else { q.ring i with pending := rest, retired := (q.ring i).retired + 1 }) := by
  unfold retireFront clearBarrier clearQuiet
  by_cases hquiet : q.quietWr = some wr
  · have hbarrier : q.barrierWr ≠ some wr := (hok.quiet wr hquiet).2.2
    simp [hquiet, hbarrier]
  · by_cases hbarrier : q.barrierWr = some wr
    · simp [hquiet, hbarrier]
    · simp [hquiet, hbarrier]

/-- A head in flight is the last command its ring was given an id for, so if its id is at the front
    of the deque nothing else is pending there. -/
theorem HeadIs.front (h : HeadIs q d wr)
    (hok : q.Ok maxInflight) (hmax : maxInflight < 2 ^ 32) (hfront : (q.ring i).pending = wr :: rest) :
    wr = uniqueWrId i (q.ring i).tail ∧ (q.ring i).retired = (q.ring i).tail ∧
      (q.ring i).fifoSeq = (q.ring i).tail + 1 ∧ (q.ring i).fifo.head? = some d := by
  obtain ⟨j, hwr, hseq, hhead⟩ := h
  have hself := (retireFront_retired hok i wr rest).self
  obtain ⟨-, hret, hlt⟩ := (hok.window i).retire hfront hself.1 hself.2.1 hself.2.2
  obtain ⟨hji, hmod⟩ := uniqueWrId_inj (hwr.symm.trans hret)
  have hji : j = i := Fin.ext hji
  rw [hji] at hwr hseq hhead hmod
  have hroom := hok.room i
  rw [(hok.window i).2, length_map, length_range'] at hroom
  exact ⟨hwr, by omega, hseq, hhead⟩

theorem retireFront_heads (h : Heads q cmds) (hok : q.Ok maxInflight) (hmax : maxInflight < 2 ^ 32)
    (hfront : (q.ring i).pending = wr :: rest) : Heads (retireFront q i wr rest) cmds := by
  have hring := retireFront_ring hok i wr rest
  have hret := retireFront_retired hok i wr rest
  by_cases hin : q.quietWr = some wr ∨ q.barrierWr = some wr
  · rw [if_pos hin] at hring
    have hhead : ∃ d, HeadIs q d wr := hin.elim (fun hw => ⟨_, h.quiet wr hw⟩) fun hw => ⟨_, h.barrier wr hw⟩
    obtain ⟨d, hd⟩ := hhead
    obtain ⟨hwr, hlast, hseq, hfirst⟩ := hd.front hok hmax hfront
    have hquiet := hret.quiet
    have hbarrier := hret.barrier
    refine h.pop_head hfirst hring rfl rfl hseq (le_succ _) (fun _ => ?_) (hwr ▸ hquiet) (hwr ▸ hbarrier)
    exact lt_succ_of_le hlast.ge
  · rw [if_neg hin] at hring
    refine h.of_same (fun j => ?_) (Option.ext fun w => (hret.quiet w).trans ⟨And.left, fun hw =>
      ⟨hw, fun heq => hin (.inl (heq ▸ hw))⟩⟩) (Option.ext fun w => (hret.barrier w).trans
      ⟨And.left, fun hw => ⟨hw, fun heq => hin (.inr (heq ▸ hw))⟩⟩)
    rw [hring]
    by_cases hj : j = i
    · rw [hj, update_self]
      exact ⟨rfl, rfl, rfl, le_succ _⟩
    · rw [update_of_ne hj]
      exact ⟨rfl, rfl, rfl, le_refl _⟩

-- ── What a turn of a proxy keeps

/-- A proxy that has been pushed `cmds` is sound. -/
structure Sound (maxInflight : ℕ) (q : Queues Q) (cmds : Fin Q → List CmdType) : Prop where
  ok : q.Ok maxInflight
  heads : Heads q cmds

/-- From `q` to `q'` the queues stay sound and no ring un-retires. -/
def Onward (maxInflight : ℕ) (cmds : Fin Q → List CmdType) (q q' : Queues Q) : Prop :=
  Sound maxInflight q cmds →
    Sound maxInflight q' cmds ∧ ∀ i, (q.ring i).retired ≤ (q'.ring i).retired

theorem Onward.refl (q : Queues Q) : Onward maxInflight cmds q q := fun h => ⟨h, fun _ => le_refl _⟩

theorem Onward.trans {q1 q2 q3 : Queues Q} (h1 : Onward maxInflight cmds q1 q2)
    (h2 : Onward maxInflight cmds q2 q3) : Onward maxInflight cmds q1 q3 := fun h => by
  obtain ⟨hs, hle⟩ := h1 h
  obtain ⟨hs', hle'⟩ := h2 hs
  exact ⟨hs', fun i => (hle i).trans (hle' i)⟩

theorem complete_onward (q : Queues Q) (wr : ℕ) : Onward maxInflight cmds q (complete q wr) := fun h => by
    refine ⟨⟨complete_ok h.ok wr, complete_heads h.heads wr⟩, fun i => ?_⟩
    unfold complete
    split <;> exact le_refl _

theorem ackQuiet_onward (q : Queues Q) : Onward maxInflight cmds q (ackQuiet q) := fun h => by
  refine ⟨⟨ackQuiet_ok h.ok, ackQuiet_heads h.heads⟩, fun i => ?_⟩
  unfold ackQuiet
  split <;> exact le_refl _

theorem ackBarrier_onward (q : Queues Q) : Onward maxInflight cmds q (ackBarrier q) := fun h => by
  refine ⟨⟨ackBarrier_ok h.ok, ackBarrier_heads h.heads⟩, fun i => ?_⟩
  unfold ackBarrier
  split <;> exact le_refl _

theorem takeOne_onward (hmax : maxInflight < 2 ^ 32) (x : Proxy Q) (i : Fin Q) :
    Onward maxInflight cmds x.queues (takeOne maxInflight x i).queues := fun h => by
  unfold takeOne
  split
  · exact Onward.refl _ h
  · next c q hq =>
    obtain ⟨hroom, hhead, hblocked, heq⟩ := take_cases hq
    obtain ⟨r, hring, -, -, hret⟩ := accept_ring x.queues i c
    rw [heq]
    refine ⟨⟨accept_ok h.ok hmax hroom, accept_heads h.heads h.ok hhead hblocked⟩, fun j => ?_⟩
    rw [hring]
    exact (update_congr Ring.retired hret j).ge

theorem notify_onward (hmax : maxInflight < 2 ^ 32) (q : Queues Q) :
    Onward maxInflight cmds q (notifyGpuCompletion q) := fun h => by
  -- what each pass of the retire loops keeps
  obtain ⟨hok, hheads, hle⟩ := notify_rule
    (P := fun q' => Heads q' cmds ∧ ∀ j, (q.ring j).retired ≤ (q'.ring j).retired)
    (fun q' i wr rest hok hfront _ hq' => ⟨retireFront_heads hq'.1 hok hmax hfront, fun j => by
      have hret := retireFront_retired hok i wr rest
      by_cases hj : j = i
      · rw [hj, hret.self.2.2]
        exact (hq'.2 i).trans (le_succ _)
      · rw [(hret.other j hj).2.2]
        exact hq'.2 j⟩) h.ok ⟨h.heads, fun _ => le_refl _⟩
  exact ⟨⟨hok, hheads⟩, hle⟩

theorem completeAll_onward (x : Proxy Q) (found : List ℕ) :
    Onward maxInflight cmds x.queues (completeAll x found).queues := by
  induction found generalizing x with
  | nil => exact Onward.refl _
  | cons wr found ih =>
    refine Onward.trans ?_ (ih (completeOne x wr))
    unfold completeOne
    split
    · exact complete_onward _ wr
    · exact Onward.refl _

theorem poll_onward (cxi : Bool) (x : Proxy Q) (found : List ℕ) :
    Onward maxInflight cmds x.queues (poll cxi x found).queues := by
  have hall : Onward maxInflight cmds x.queues (completeAll x found).queues := completeAll_onward x found
  have hend : Onward maxInflight cmds x.queues (endQuiet (completeAll x found)).queues :=
    hall.trans (ackQuiet_onward _)
  unfold poll
  split
  · exact hall
  · dsimp only
    split
    · split
      · exact hend
      · exact hall
    · split
      · split
        · exact hend
        · exact hall
      · exact hall

theorem post_queues {cxi : Bool} {x x' : Proxy Q} (h : post cxi x = .ok x') : x'.queues = x.queues := by
  unfold post at h
  split at h
  · rw [← ok.inj h, postCxi]
    split
    · rfl
    · split <;> rfl
  · unfold postMixed at h
    split at h
    · cases h
    · rw [← ok.inj h]

theorem proxyStep_onward (hmax : maxInflight < 2 ^ 32) {cxi : Bool} {x x' : Proxy Q} {turn : Turn Q}
    (h : proxyStep cxi maxInflight x turn = .ok x') : Onward maxInflight cmds x.queues x'.queues := by
  cases turn with
  | poll found =>
    cases h
    exact poll_onward cxi x found
  | take i =>
    unfold proxyStep at h
    dsimp only at h
    split at h <;> rw [← ok.inj h]
    · exact takeOne_onward hmax x i
    · exact Onward.refl _
  | post =>
    unfold proxyStep at h
    dsimp only at h
    split at h
    · rw [post_queues h]
      exact Onward.refl _
    · cases h
      exact Onward.refl _
  | ackBarrier =>
    unfold proxyStep at h
    dsimp only at h
    split at h <;> rw [← ok.inj h]
    · exact ackBarrier_onward _
    · exact Onward.refl _
  | notify =>
    unfold proxyStep at h
    dsimp only at h
    split at h <;> rw [← ok.inj h]
    · exact notify_onward hmax _
    · exact Onward.refl _

-- ── What a call waits for

/-- All that was pushed on ring `r` before the call has retired. -/
def Fenced (s : World P Q) (before : Fin P → Fin Q → ℕ) (r : Fin P × Fin Q) : Prop :=
  before r.1 r.2 ≤ ((s.proxies r.1).queues.ring r.2).retired

/-- The call has still to see a QUIET popped that is behind what was pushed on `r` before it. -/
def Marked (s : World P Q) (before : Fin P → Fin Q → ℕ) (slots : List ((Fin P × Fin Q) × ℕ))
    (r : Fin P × Fin Q) : Prop :=
  ∃ slot, (r, slot) ∈ slots ∧ before r.1 r.2 ≤ slot ∧ (s.pushed r.1 r.2)[slot]? = some .quiet

/-- What a call has achieved. -/
def CallOk (cxi : Bool) (s : World P Q) : Call P Q → Prop
  | .idle => True
  | .running before todo slots =>
    (∀ p i, before p i ≤ (s.pushed p i).length) ∧
      ∀ r, carriesQuiet cxi r = true → r ∈ todo ∨ Marked s before slots r ∨ Fenced s before r
  | .returned before => ∀ r, carriesQuiet cxi r = true → Fenced s before r

structure Inv (cxi : Bool) (maxInflight : ℕ) (s : World P Q) : Prop where
  sound : ∀ p, Sound maxInflight (s.proxies p).queues (s.pushed p)
  call : CallOk cxi s s.call

/-- More has been pushed and more has retired. -/
structure Later (s s' : World P Q) : Prop where
  pushed : ∀ p i, s.pushed p i <+: s'.pushed p i
  retired : ∀ p i, ((s.proxies p).queues.ring i).retired ≤ ((s'.proxies p).queues.ring i).retired

variable {cxi : Bool} {s s' : World P Q} {before : Fin P → Fin Q → ℕ}
  {slots : List ((Fin P × Fin Q) × ℕ)} {r : Fin P × Fin Q}

theorem Later.fenced (h : Later s s') (hr : Fenced s before r) : Fenced s' before r := hr.trans (h.retired r.1 r.2)

theorem Later.marked (h : Later s s') (hr : Marked s before slots r) : Marked s' before slots r := by
  obtain ⟨slot, hin, hle, hquiet⟩ := hr
  refine ⟨slot, hin, hle, ?_⟩
  obtain ⟨more, heq⟩ := h.pushed r.1 r.2
  rw [← heq]
  exact getElem?_append_some hquiet _

theorem Later.callOk (h : Later s s') {c : Call P Q} (hc : CallOk cxi s c) : CallOk cxi s' c := by
  cases c with
  | idle => trivial
  | running before todo slots =>
    exact ⟨fun p i => (hc.1 p i).trans (h.pushed p i).length_le,
      fun r hr => (hc.2 r hr).imp_right (Or.imp h.marked h.fenced)⟩
  | returned before => exact fun r hr => h.fenced (hc r hr)

section

variable (h : ∀ p, Sound maxInflight (s.proxies p).queues (s.pushed p))
include h

/-- A QUIET that has been popped has retired, and so has what was pushed before it. -/
theorem Sound.fenced {slot : ℕ} (hle : before r.1 r.2 ≤ slot) (hquiet : (s.pushed r.1 r.2)[slot]? = some .quiet)
    (hpopped : slot < ((s.proxies r.1).queues.ring r.2).tail) : Fenced s before r :=
  hle.trans ((h r.1).heads.popped r.2 slot .quiet hpopped hquiet (.inl rfl)).le

theorem pushCmd_sound (p : Fin P) (i : Fin Q) (c : CmdType) (p' : Fin P) :
    Sound maxInflight ((pushCmd s p i c).proxies p').queues ((pushCmd s p i c).pushed p') := by
  unfold pushCmd
  dsimp only
  by_cases hp : p' = p
  · rw [hp, update_self, update_self]
    exact ⟨push_ok (h p).ok i c, push_heads (h p).heads i c⟩
  · rw [update_of_ne hp, update_of_ne hp]
    exact h p'

end

theorem pushCmd_pushed (s : World P Q) (p : Fin P) (i : Fin Q) (c : CmdType) :
    (pushCmd s p i c).pushed p i = s.pushed p i ++ [c] := by
  unfold pushCmd
  dsimp only
  rw [update_self, update_self]

theorem pushCmd_later (s : World P Q) (p : Fin P) (i : Fin Q) (c : CmdType) : Later s (pushCmd s p i c) := by
  refine ⟨fun p' i' => ?_, fun p' i' => ?_⟩ <;> unfold pushCmd <;> dsimp only <;> by_cases hp : p' = p
  · rw [hp, update_self]
    by_cases hi : i' = i
    · rw [hi, update_self]
      exact prefix_append ..
    · rw [update_of_ne hi]
  · rw [update_of_ne hp]
  · rw [hp, update_self]
    unfold push
    dsimp only
    by_cases hi : i' = i
    · rw [hi, update_self]
    · rw [update_of_ne hi]
  · rw [update_of_ne hp]

theorem mem_quietRings : r ∈ quietRings cxi ↔ carriesQuiet cxi r = true := by
  unfold quietRings
  rw [mem_filter, and_iff_right_iff_imp]
  intro _
  exact mem_flatMap.mpr ⟨r.1, mem_finRange _, mem_map.mpr ⟨r.2, mem_finRange _, rfl⟩⟩

/-- Over CXI all rings carry a QUIET, elsewhere the first ring of each proxy. -/
theorem carriesQuiet_iff {p : Fin P} : carriesQuiet cxi (p, i) = true ↔ cxi = true ∨ (i : ℕ) = 0 := by
  unfold carriesQuiet kQuietStride
  cases cxi with
  | true => simp [mod_one]
  | false => simp [mul_add_mod_self_right, mod_eq_of_lt i.isLt]

-- ── Every run

theorem Inv.init : Inv cxi maxInflight (World.init : World P Q) where
  sound _ := ⟨Queues.init_ok, init_heads⟩
  call := trivial

section

variable (h : Inv cxi maxInflight s)
include h

theorem Inv.pushCmd (p : Fin P) (i : Fin Q) (c : CmdType) : Inv cxi maxInflight (pushCmd s p i c) :=
  ⟨pushCmd_sound h.sound p i c, (pushCmd_later s p i c).callOk h.call⟩

theorem Inv.setProxy {p : Fin P} {x : Proxy Q} (hx : Onward maxInflight (s.pushed p) (s.proxies p).queues x.queues) :
    Inv cxi maxInflight (setProxy s p x) := by
  obtain ⟨hsound, hle⟩ := hx (h.sound p)
  have hlater : Later s (EpDeviceQuiet.setProxy s p x) := by
    refine ⟨fun _ _ => prefix_rfl, fun p' i => ?_⟩
    unfold EpDeviceQuiet.setProxy
    dsimp only
    by_cases hp : p' = p
    · rw [hp, update_self]
      exact hle i
    · rw [update_of_ne hp]
  refine ⟨fun p' => ?_, hlater.callOk h.call⟩
  exact (forall_update_iff _ fun p' (y : Proxy Q) => Sound maxInflight y.queues (s.pushed p')).mpr
    ⟨hsound, fun p' _ => h.sound p'⟩ p'

/-- The call goes on: a ring leaves `todo` for a QUIET behind what was pushed on it, and `slots`
    when that QUIET has been popped. -/
theorem Inv.callStep : Inv cxi maxInflight (callStep s) := by
  have hcall := h.call
  unfold EpDeviceQuiet.callStep
  split
  · next before r todo slots heq =>
    rw [heq] at hcall
    have hlater := pushCmd_later s r.1 r.2 .quiet
    refine ⟨pushCmd_sound h.sound r.1 r.2 .quiet, fun p i => ?_, fun r' hr' => ?_⟩
    · exact (hcall.1 p i).trans (hlater.pushed p i).length_le
    · rcases hcall.2 r' hr' with hin | ⟨slot, hin, hrest⟩ | hfenced
      · rcases mem_cons.mp hin with hself | hin
        · refine .inr (.inl ⟨(s.pushed r.1 r.2).length, ?_, ?_, ?_⟩)
          · rw [hself]
            exact mem_append_right _ (mem_singleton_self _)
          · rw [hself]
            exact hcall.1 r.1 r.2
          · rw [hself]
            rw [pushCmd_pushed, getElem?_concat_length]
        · exact .inl hin
      · obtain ⟨slot', hin', hrest'⟩ := hlater.marked ⟨slot, hin, hrest⟩
        exact .inr (.inl ⟨slot', mem_append_left _ hin', hrest'⟩)
      · exact .inr (.inr (hlater.fenced hfenced))
  · next before r slot slots heq =>
    rw [heq] at hcall
    split
    · next hpopped =>
      refine ⟨h.sound, hcall.1, fun r' hr' => ?_⟩
      rcases hcall.2 r' hr' with hin | ⟨slot', hin, hle, hquiet⟩ | hfenced
      · cases hin
      · rcases mem_cons.mp hin with hself | hin
        · obtain ⟨hr, hslot⟩ := Prod.mk.inj hself
          rw [← hr, ← hslot] at hpopped
          exact .inr (.inr (Sound.fenced h.sound hle hquiet hpopped))
        · exact .inr (.inl ⟨slot', hin, hle, hquiet⟩)
      · exact .inr (.inr hfenced)
    · exact h
  · next before heq =>
    rw [heq] at hcall
    refine ⟨h.sound, fun r hr => ?_⟩
    rcases hcall.2 r hr with hin | ⟨slot, hin, -⟩ | hfenced
    · cases hin
    · cases hin
    · exact hfenced
  · exact h

theorem Inv.enter : Inv cxi maxInflight
      { s with call := .running (fun p i => (s.pushed p i).length) (quietRings cxi) [] } :=
  ⟨h.sound, fun _ _ => le_refl _, fun _ hr => .inl (mem_quietRings.mpr hr)⟩

end

theorem Inv.step (hmax : maxInflight < 2 ^ 32) {a : Action P Q} (h : Inv cxi maxInflight s)
    (hstep : step cxi maxInflight s a = .ok s') : Inv cxi maxInflight s' := by
  unfold EpDeviceQuiet.step at hstep
  cases a with
  | push p i c =>
    cases hstep
    exact h.pushCmd p i c
  | proxy p turn =>
    dsimp only at hstep
    split at hstep
    · cases hstep
    · next x hx =>
      cases hstep
      exact h.setProxy (proxyStep_onward hmax hx)
  | enter =>
    dsimp only at hstep
    split at hstep <;> rw [← ok.inj hstep]
    · exact h
    · exact h.enter
  | call =>
    cases hstep
    exact h.callStep

/-- **THE FENCE**: when the call returns, every command that was pushed before it on a ring that carries a QUIET has
    been reported complete: over CXI on any ring, elsewhere on the first ring of a proxy. -/
theorem quiet_fences (hmax : maxInflight < 2 ^ 32) (acts : List (Action P Q))
    (hrun : runFrom (step cxi maxInflight) World.init acts = .ok s) (hret : s.call = .returned before)
    (p : Fin P) (i : Fin Q) (hring : cxi = true ∨ (i : ℕ) = 0) (k : ℕ) (hk : k < before p i) :
    Reported (s.proxies p).queues i k := by
  have hinv : Inv cxi maxInflight s := runFrom_invariant (fun _ _ _ hs hstep => Inv.step hmax hs hstep) Inv.init hrun
  have hcall := hinv.call
  rw [hret] at hcall
  exact .inl (hk.trans_le (hcall (p, i) (carriesQuiet_iff.mpr hring)))

/-- A single proxy and its two rings. -/
abbrev onlyProxy : Fin 1 := ⟨0, Nat.one_pos⟩

abbrev ring0 : Fin 2 := ⟨0, Nat.two_pos⟩

abbrev ring1 : Fin 2 := ⟨1, Nat.one_lt_two⟩

/-- One proxy of two rings over CXI: a WRITE on ring 1, then the call with a QUIET on each ring. -/
def cxiWrite : List (Action 1 2) :=
  .push onlyProxy ring1 .write :: .enter :: .call :: .call ::
    ([.take ring0, .take ring1, .post, .poll [], .post, .notify, .take ring1, .post, .poll [],
      .poll [uniqueWrId 1 0], .notify].map (.proxy onlyProxy) ++ [.call, .call, .call])

theorem quiet_fences_cxiWrite : ∃ s before, runFrom (step true 8) (World.init : World 1 2) cxiWrite = .ok s ∧
      s.call = .returned before ∧ before 0 1 = 1 ∧ s.pushed 0 1 = [.write, .quiet] ∧
      Reported (s.proxies 0).queues 1 0 := by
  have heval : observe (fun s : World 1 2 => (s.call.before?.map fun b => b 0 1, s.pushed 0 1))
      (runFrom (step true 8) World.init cxiWrite) = some (some 1, [.write, .quiet]) := by
    decide +kernel
  obtain ⟨s, hrun, hobs⟩ := exists_of_observe heval
  obtain ⟨hcall, hpushed⟩ := Prod.mk.inj hobs
  obtain ⟨before, hbefore, hone⟩ := Option.map_eq_some_iff.mp hcall
  have hret := Call.eq_of_before? hbefore
  refine ⟨s, before, hrun, hret, hone, hpushed, ?_⟩
  exact quiet_fences (by decide) cxiWrite hrun hret 0 1 (.inl rfl) 0 (by rw [hone]; decide)

end EpDeviceQuiet
