import Uccl.EqdsTargetProofs
import Uccl.StepRunProofs

/-! # The EQDS pacer and its two sender lists

    One pacer thread serves the flows of a device. An engine that stores a higher `highest_pull_target_` sends the pacer
    a message (`request_pull`); the pacer keeps the flows it owes credit on `active_senders_`, those it may give some
    extra credit on `idle_senders_`, and `handle_grant_credit` moves them between the two while it walks the list.

    The engines store a target at any time, so every load of the target is a step of its own: an active sink is first
    granted credit and later, after a second load, put back on one of the lists. `registration_kept` says that no
    interleaving loses a flow with a backlog, and that no flow is on both lists; it holds as long as the 8-bit pull
    numbers of a flow can be compared. -/

namespace EqdsPacer

open EqdsCc SerialNumber StepRun Function List

variable {K : Type} [DecidableEq K]
variable {sink : K} {l : List K}

-- ── Lists

/-- The element after `k`; `none` stands for the list head. -/
def nextOf : List K → K → Option K
  | [], _ => none
  | a :: l, k => if a = k then l.head? else nextOf l k

theorem nextOf_mem (hl : l.Nodup) {k m : K} (h : nextOf l k = some m) : m ∈ l ∧ m ≠ k := by
  induction l with
  | nil => cases h
  | cons a l ih =>
    obtain ⟨ha, hl'⟩ := nodup_cons.mp hl
    unfold nextOf at h
    split at h
    · next hak =>
      have hm := mem_of_mem_head? h
      refine ⟨mem_cons_of_mem _ hm, fun hmk => ha ?_⟩
      rw [hak, ← hmk]
      exact hm
    · obtain ⟨hm, hne⟩ := ih hl' h
      exact ⟨mem_cons_of_mem _ hm, hne⟩

/-- The two variables of a `list_for_each_safe` over `l`. -/
def Cursor (l : List K) (pos n : Option K) : Prop :=
  (∀ k ∈ pos, k ∈ l) ∧ ∀ m ∈ n, m ∈ l ∧ some m ≠ pos

theorem cursor_of_mem (hl : l.Nodup) {pos : Option K} (h : ∀ k ∈ pos, k ∈ l) : Cursor l pos (pos.bind (nextOf l)) := by
  refine ⟨h, fun m hm => ?_⟩
  obtain ⟨k, hk, hnext⟩ := Option.bind_eq_some_iff.mp hm
  obtain ⟨hmem, hne⟩ := nextOf_mem hl hnext
  refine ⟨hmem, fun heq => hne ?_⟩
  rw [hk] at heq
  exact Option.some.inj heq

/-- `n` stays on the list when `pos` is taken off. -/
theorem Cursor.erase {k : K} {n : Option K} (h : Cursor l (some k) n) : ∀ m ∈ n, m ∈ l.erase k := fun m hm =>
  (mem_erase_of_ne fun heq => (h.2 m hm).2 (congrArg some heq)).mpr (h.2 m hm).1

/-- The two sender lists and the sink the pacer has taken off them: an element is in one place. -/
structure Linked (active idle : List K) (hand : Option K) : Prop where
  activeOnce : active.Nodup
  idleOnce : idle.Nodup
  apart : ∀ k ∈ active, k ∉ idle
  taken : ∀ k ∈ hand, k ∉ active ∧ k ∉ idle

section

variable {active idle : List K} {hand : Option K} {k : K}

omit [DecidableEq K] in
theorem Linked.drop (h : Linked active idle hand) : Linked active idle none := { h with taken := nofun }

theorem Linked.takeActive (h : Linked active idle none) (hk : k ∈ active) : Linked (active.erase k) idle (some k) := by
  refine ⟨h.activeOnce.erase k, h.idleOnce, fun m hm => h.apart m (mem_of_mem_erase hm), ?_⟩
  rintro m ⟨rfl⟩
  exact ⟨h.activeOnce.not_mem_erase, h.apart k hk⟩

theorem Linked.takeIdle (h : Linked active idle none) (hk : k ∈ idle) : Linked active (idle.erase k) (some k) := by
  refine ⟨h.activeOnce, h.idleOnce.erase k, fun m hm hm' => h.apart m hm (mem_of_mem_erase hm'), ?_⟩
  rintro m ⟨rfl⟩
  exact ⟨fun hm => h.apart k hm hk, h.idleOnce.not_mem_erase⟩

omit [DecidableEq K] in
theorem Linked.putActive (h : Linked active idle (some k)) : Linked (active ++ [k]) idle none := by
  obtain ⟨hactive, hidle⟩ := h.taken k rfl
  exact ⟨nodup_snoc h.activeOnce hactive, h.idleOnce, forall_mem_snoc h.apart hidle, nofun⟩

omit [DecidableEq K] in
theorem Linked.putIdle (h : Linked active idle (some k)) : Linked active (idle ++ [k]) none := by
  obtain ⟨hactive, hidle⟩ := h.taken k rfl
  refine ⟨h.activeOnce, nodup_snoc h.idleOnce hidle, fun m hm hm' => ?_, nofun⟩
  rcases mem_append.mp hm' with hm' | hm'
  · exact h.apart m hm hm'
  · rw [mem_singleton.mp hm'] at hm
    exact hactive hm

/-- A message moves a sink to the active list, from the idle list or from neither. -/
theorem Linked.register (h : Linked active idle none) (hk : k ∉ active) :
    Linked (active ++ [k]) (idle.erase k) none := by
  by_cases hidle : k ∈ idle
  · exact (h.takeIdle hidle).putActive
  · rw [erase_of_not_mem hidle]
    refine Linked.putActive { h with taken := ?_ }
    rintro m ⟨rfl⟩
    exact ⟨hk, hidle⟩

end

-- ── The system

def kCreditPerPull : PullQuanta := 4

def kSendersPerPull : ℕ := 1

/-- Messages handled in one call of `handle_pull_request`. -/
def pullRequestBudget : ℕ := 16

/-- A ring of `kChannelSize` = 2048 slots holds one message less. -/
def channelCapacity : ℕ := 2047

inductive PacerFault where
  /-- `UCCL_CHECK(list_empty(&sink->idle_item.idle_link))`. -/
  | idleLinkInUse
  /-- The action is not enabled in this state. -/
  | notEnabled
  deriving DecidableEq, Repr

/-- Where the pacer thread is: outside, in the loop of `handle_pull_request`, at the `while` of `handle_grant_credit`,
    in one of its `list_for_each_safe` loops, or there between two loads of a target. `n` is the saved successor. -/
inductive Pc (K : Type) where
  | rest
  | pull (budget : ℕ)
  | activeWhile (budget totalConsumed : ℕ)
  | activeEach (pos n : Option K) (budget totalConsumed : ℕ)
  | activeGranted (sink : K) (n : Option K) (budget totalConsumed : ℕ) (consumed : PullQuanta)
  | idleEach (pos n : Option K)
  | idleGranted (sink : K) (n : Option K)
  | idleSatisfied (sink : K) (n : Option K)
  deriving DecidableEq, Repr

/-- The sink taken off its list. -/
def Pc.hand : Pc K → Option K
  | .activeGranted sink _ _ _ _ | .idleGranted sink _ | .idleSatisfied sink _ => some sink
  | _ => none

/-- The active sink whose grant is made and that is not back on a list yet. -/
def Pc.settling : Pc K → Option K
  | .activeGranted sink _ _ _ _ => some sink
  | _ => none

/-- The flows of a device, the pacer's channel and its lists. `announcing` is set for a flow whose engine is inside
    `request_pull`, as it is when a flow is installed. `granted` is history: the quanta in all pull packets sent. -/
structure Pacer (K : Type) where
  sinks : K → Sink := fun _ => {}
  announcing : K → Bool := fun _ => true
  cmdq : List K := []
  active : List K := []
  idle : List K := []
  pc : Pc K := .rest
  granted : ℕ := 0

/-- The engines store targets and enqueue messages; the pacer enters one of its two functions, or goes on in
    the one it is in. `sent` is what `send_pull_packet` returns if the step calls it. -/
inductive PacerAction (K : Type) where
  | handlePullTarget (sink : K) (pullTarget : PullQuanta)
  | requestPull (sink : K)
  | handlePullRequest
  | handleGrantCredit
  | run (sent : Bool)

/-- `handle_pull_request` for one message. -/
def register (s : Pacer K) (sink : K) : Pacer K :=
  if sink ∈ s.active then s
  else { s with idle := s.idle.erase sink, active := s.active ++ [sink] }

/-- The increment of `grant_credit`. -/
def increment (k : Sink) (idle : Bool) : PullQuanta :=
  if idle then kCreditPerPull
  else if k.backlog < kCreditPerPull then k.backlog else kCreditPerPull

/-- `latest_pull_ += increment`. -/
def advance (k : Sink) (increment : PullQuanta) : Sink :=
  { k with latestPull := k.latestPull + increment, pulled := k.pulled + increment.toNat }

/-- `grant_credit` up to its last load: nothing is changed if the packet is not sent. -/
def grant (s : Pacer K) (sink : K) (increment : PullQuanta) (sent : Bool) : Pacer K :=
  if sent then
    { s with
      sinks := Function.update s.sinks sink (advance (s.sinks sink) increment)
      granted := s.granted + increment.toNat }
  else s

/-- One turn of the `list_for_each_safe` over the active list has consumed its grant. -/
def afterActive (s : Pacer K) (n : Option K) (budget totalConsumed : ℕ) (consumed : PullQuanta) :
    Pacer K :=
  let total := (totalConsumed + consumed.toNat) % 2 ^ 16
  if total ≥ kCreditPerPull.toNat * kSendersPerPull then
    { s with pc := .activeWhile budget total }
  else if budget + 1 ≥ kSendersPerPull then { s with pc := .activeWhile (budget + 1) total }
  else { s with pc := .activeEach n (n.bind (nextOf s.active)) (budget + 1) total }

/-- The next turn of the loop over the idle list. -/
def afterIdle (s : Pacer K) (n : Option K) : Pacer K :=
  { s with pc := .idleEach n (n.bind (nextOf s.idle)) }

/-- The next step of the function the pacer is in. -/
def pacerRun (s : Pacer K) (sent : Bool) : Except PacerFault (Pacer K) :=
  match s.pc with
  | .rest => .error .notEnabled
  | .pull budget =>
    match s.cmdq with
    | [] => .ok { s with pc := .rest }
    | sink :: cmdq =>
      let s := register { s with cmdq := cmdq } sink
      .ok { s with
        pc := if budget + 1 ≥ pullRequestBudget then .rest else .pull (budget + 1) }
  | .activeWhile budget totalConsumed =>
    if s.active ≠ [] ∧ (budget < kSendersPerPull ∨
        totalConsumed < kCreditPerPull.toNat * kSendersPerPull) then
      .ok { s with
        pc := .activeEach s.active.head? (s.active.head?.bind (nextOf s.active)) budget
          totalConsumed }
    else .ok { s with pc := .rest }
  | .activeEach none _ budget totalConsumed => .ok { s with pc := .activeWhile budget totalConsumed }
  | .activeEach (some sink) n budget totalConsumed =>
    let consumed := increment (s.sinks sink) false
    let s := grant s sink consumed sent
    .ok { s with
      active := s.active.erase sink
      pc := .activeGranted sink n budget totalConsumed consumed }
  | .activeGranted sink n budget totalConsumed consumed =>
    if (s.sinks sink).backlog = 0 then
      if sink ∈ s.idle then .error .idleLinkInUse
      else .ok (afterActive { s with idle := s.idle ++ [sink] } n budget totalConsumed consumed)
    else .ok (afterActive { s with active := s.active ++ [sink] } n budget totalConsumed consumed)
  | .idleEach none _ => .ok { s with pc := .rest }
  | .idleEach (some sink) n =>
    let s := grant s sink (increment (s.sinks sink) true) sent
    .ok { s with idle := s.idle.erase sink, pc := .idleGranted sink n }
  | .idleGranted sink n =>
    if (s.sinks sink).backlog = 0 then .ok { s with pc := .idleSatisfied sink n }
    else .ok (afterIdle s n)
  | .idleSatisfied sink n =>
    if (s.sinks sink).idleCreditEnough then .ok (afterIdle s n)
    else .ok (afterIdle { s with idle := s.idle ++ [sink] } n)

/-- One step.  An engine that waits for room in the channel does nothing else. -/
def pacerStep (s : Pacer K) : PacerAction K → Except PacerFault (Pacer K)
  | .handlePullTarget sink pullTarget =>
    if s.announcing sink then .error .notEnabled
    else
      let res := (s.sinks sink).handlePullTarget pullTarget
      .ok { s with
        sinks := Function.update s.sinks sink res.2
        announcing := Function.update s.announcing sink res.1 }
  | .requestPull sink =>
    if s.announcing sink then
      if s.cmdq.length < channelCapacity then
        .ok { s with
          cmdq := s.cmdq ++ [sink], announcing := Function.update s.announcing sink false }
      else .ok s
    else .error .notEnabled
  | .handlePullRequest =>
    if s.pc = .rest then .ok { s with pc := .pull 0 } else .error .notEnabled
  | .handleGrantCredit =>
    if s.pc = .rest then
      if s.active ≠ [] then .ok { s with pc := .activeWhile 0 0 }
      else .ok { s with pc := .idleEach s.idle.head? (s.idle.head?.bind (nextOf s.idle)) }
    else .error .notEnabled
  | .run sent => pacerRun s sent

-- ── The invariant

/-- The loop variables point into the list that is walked. -/
def CursorOk (active idle : List K) : Pc K → Prop
  | .activeEach pos n _ _ => Cursor active pos n
  | .activeGranted _ n _ _ _ => ∀ m ∈ n, m ∈ active
  | .idleEach pos n => Cursor idle pos n
  | .idleGranted _ n | .idleSatisfied _ n => ∀ m ∈ n, m ∈ idle
  | .rest | .pull _ | .activeWhile _ _ => True

/-- `k` is on the active list, or a message for it is under way, or it is just being served. -/
def Registered (s : Pacer K) (k : K) : Prop :=
  k ∈ s.active ∨ k ∈ s.cmdq ∨ s.announcing k = true ∨ s.pc.settling = some k

structure PacerOk (s : Pacer K) : Prop where
  linked : Linked s.active s.idle s.pc.hand
  cursor : CursorOk s.active s.idle s.pc
  sinks : ∀ k, (s.sinks k).Ok
  kept : ∀ k, (s.sinks k).pulled < (s.sinks k).target → Registered s k

omit [DecidableEq K] in
theorem pacerOk_initial : PacerOk ({} : Pacer K) where
  linked := ⟨nodup_nil, nodup_nil, nofun, nofun⟩
  cursor := trivial
  sinks _ := Sink.ok_initial
  kept _ _ := .inr (.inr (.inl rfl))

/-- The two pull numbers of a flow stay close enough to be compared: no target is stored 128 or more quanta ahead
    of what was pulled, and no idle grant takes what was pulled more than 128 quanta ahead of the target. -/
def InWindow (s : Pacer K) : PacerAction K → Prop
  | .handlePullTarget sink pullTarget =>
    ((s.sinks sink).handlePullTarget pullTarget).2.target < (s.sinks sink).pulled + 128
  | .run sent =>
    match s.pc with
    | .idleEach (some sink) _ =>
      sent = true → (s.sinks sink).pulled + 4 ≤ (s.sinks sink).target + 128
    | _ => True
  | _ => True

instance (s : Pacer K) (a : PacerAction K) : Decidable (InWindow s a) := by
  unfold InWindow
  split
  · infer_instance
  · split <;> infer_instance
  · infer_instance

-- ── Steps

section

variable {s : Pacer K} {n : Option K}

omit [DecidableEq K] in
/-- Unless `k` is being served, what registers it in `s` registers it in `t`. -/
theorem Registered.mono {k : K} (h : Registered s k) {t : Pacer K} (hpc : ∀ m ∈ s.pc.settling, m ≠ k)
    (hactive : k ∈ s.active → k ∈ t.active) (hcmdq : t.cmdq = s.cmdq)
    (hannouncing : t.announcing = s.announcing) : Registered t k := by
  rcases h with hreg | hreg | hreg | hreg
  · exact .inl (hactive hreg)
  · exact .inr (.inl (hcmdq ▸ hreg))
  · exact .inr (.inr (.inl (hannouncing ▸ hreg)))
  · exact absurd rfl (hpc k hreg)

omit [DecidableEq K] in
theorem ne_of_settling {k : K} (h : s.pc.settling = none) : ∀ m ∈ s.pc.settling, m ≠ k := by
  rw [h]
  exact fun m hm => absurd hm (Option.not_mem_none m)

omit [DecidableEq K] in
/-- Moving on, with the lists and what is registered as before. -/
theorem PacerOk.goto (h : PacerOk s) (pc : Pc K) (hhand : pc.hand = none)
    (hcursor : CursorOk s.active s.idle pc) (hsettling : s.pc.settling = none) : PacerOk { s with pc := pc } := by
  refine ⟨?_, hcursor, h.sinks, fun k hk => ?_⟩
  · rw [hhand]
    exact h.linked.drop
  · exact (h.kept k hk).mono (ne_of_settling hsettling) id rfl rfl

/-- A higher target is announced. -/
theorem PacerOk.handlePullTarget (h : PacerOk s) {pullTarget : PullQuanta} (hquiet : s.announcing sink = false)
    (hwin : ((s.sinks sink).handlePullTarget pullTarget).2.target < (s.sinks sink).pulled + 128) : PacerOk { s with
      sinks := update s.sinks sink ((s.sinks sink).handlePullTarget pullTarget).2
      announcing :=
        update s.announcing sink ((s.sinks sink).handlePullTarget pullTarget).1 } := by
  by_cases hgt : pullnoGt pullTarget (s.sinks sink).highestPullTarget = true
  · have hraised : ((s.sinks sink).handlePullTarget pullTarget).1 = true := by
      unfold Sink.handlePullTarget
      rw [if_pos hgt]
    refine ⟨h.linked, h.cursor, fun k => ?_, fun k hk => ?_⟩
    · show (update s.sinks sink _ k).Ok
      by_cases hks : k = sink
      · rw [hks, update_self]
        exact (h.sinks sink).handlePullTarget pullTarget hwin
      · rw [update_of_ne hks]
        exact h.sinks k
    · by_cases hks : k = sink
      · refine .inr (.inr (.inl ?_))
        show update s.announcing sink _ k = true
        rw [hks, update_self]
        exact hraised
      · have hk : (update s.sinks sink _ k).pulled < (update s.sinks sink _ k).target :=
          hk
        rw [update_of_ne hks] at hk
        rcases h.kept k hk with hreg | hreg | hreg | hreg
        · exact .inl hreg
        · exact .inr (.inl hreg)
        · refine .inr (.inr (.inl ?_))
          show update s.announcing sink _ k = true
          rw [update_of_ne hks]
          exact hreg
        · exact .inr (.inr (.inr hreg))
  · have hsame : (s.sinks sink).handlePullTarget pullTarget = (s.announcing sink, s.sinks sink) := by
      unfold Sink.handlePullTarget
      rw [if_neg hgt, hquiet]
    rw [hsame, update_eq_self, update_eq_self]
    exact h

theorem PacerOk.requestPull (h : PacerOk s) : PacerOk { s with
      cmdq := s.cmdq ++ [sink], announcing := update s.announcing sink false } := by
  refine { h with kept := fun k hk => ?_ }
  by_cases hks : k = sink
  · refine .inr (.inl (mem_append_right _ ?_))
    rw [hks]
    exact mem_singleton_self sink
  · rcases h.kept k hk with hreg | hreg | hreg | hreg
    · exact .inl hreg
    · exact .inr (.inl (mem_append_left _ hreg))
    · refine .inr (.inr (.inl ?_))
      show update s.announcing sink _ k = true
      rw [update_of_ne hks]
      exact hreg
    · exact .inr (.inr (.inr hreg))

/-- A message taken from the channel leaves its sink on the active list. -/
theorem PacerOk.register (h : PacerOk s) {budget : ℕ} (hpc : s.pc = .pull budget) {cmdq : List K}
    (hq : s.cmdq = sink :: cmdq) {pc : Pc K} (hhand : pc.hand = none)
    (hcursor : ∀ active idle, CursorOk active idle pc) :
    PacerOk { register { s with cmdq := cmdq } sink with pc := pc } := by
  have hlinked := h.linked
  have hkept : ∀ k, (s.sinks k).pulled < (s.sinks k).target →
      k = sink ∨ k ∈ s.active ∨ k ∈ cmdq ∨ s.announcing k = true := by
    intro k hk
    rcases h.kept k hk with hreg | hreg | hreg | hreg
    · exact .inr (.inl hreg)
    · rw [hq] at hreg
      rcases mem_cons.mp hreg with hks | hreg
      · exact .inl hks
      · exact .inr (.inr (.inl hreg))
    · exact .inr (.inr (.inr hreg))
    · rw [hpc] at hreg
      cases hreg
  unfold EqdsPacer.register
  split
  · next hmem =>
    refine ⟨?_, hcursor _ _, h.sinks, fun k hk => ?_⟩
    · rw [hhand]
      exact hlinked.drop
    · rcases hkept k hk with rfl | hreg | hreg | hreg
      · exact .inl hmem
      · exact .inl hreg
      · exact .inr (.inl hreg)
      · exact .inr (.inr (.inl hreg))
  · next hmem =>
    refine ⟨?_, hcursor _ _, h.sinks, fun k hk => ?_⟩
    · rw [hhand]
      exact hlinked.drop.register hmem
    · rcases hkept k hk with rfl | hreg | hreg | hreg
      · exact .inl (mem_append_right _ (mem_singleton_self k))
      · exact .inl (mem_append_left _ hreg)
      · exact .inr (.inl hreg)
      · exact .inr (.inr (.inl hreg))

/-- A grant within the window: the backlog does not grow. -/
theorem grant_ok (h : ∀ k, (s.sinks k).Ok) (sink : K) (inc : PullQuanta) (sent : Bool)
    (hwin : sent = true → (s.sinks sink).pulled + inc.toNat ≤ (s.sinks sink).target + 128) :
    (∀ k, ((grant s sink inc sent).sinks k).Ok) ∧
      ∀ k, ((grant s sink inc sent).sinks k).pulled < ((grant s sink inc sent).sinks k).target →
        (s.sinks k).pulled < (s.sinks k).target := by
  unfold grant
  split
  · next hsent =>
    have hle := hwin hsent
    refine ⟨fun k => ?_, fun k => ?_⟩
    · show (update s.sinks sink _ k).Ok
      by_cases hks : k = sink
      · rw [hks, update_self]
        refine ⟨(h sink).target, ?_, ?_, hle⟩
        · show (s.sinks sink).latestPull + inc = BitVec.ofNat 8 ((s.sinks sink).pulled + inc.toNat)
          rw [BitVec.ofNat_add, ← (h sink).pulled, BitVec.ofNat_toNat, BitVec.setWidth_eq]
        · show (s.sinks sink).target < (s.sinks sink).pulled + inc.toNat + 128
          have := (h sink).ahead
          omega
      · rw [update_of_ne hks]
        exact h k
    · show (update s.sinks sink _ k).pulled < (update s.sinks sink _ k).target → _
      by_cases hks : k = sink
      · rw [hks, update_self]
        intro hlt
        exact Nat.lt_of_le_of_lt (Nat.le_add_right ..) hlt
      · rw [update_of_ne hks]
        exact id
  · exact ⟨h, fun _ => id⟩

section

variable (s : Pacer K) (sink : K) (inc : PullQuanta) (sent : Bool) {k : Sink}

/-- An active sink is granted no more than its backlog. -/
theorem increment_active_le (h : k.Ok) : (increment k false).toNat ≤ k.target - k.pulled := by
  rw [← h.backlog]
  unfold increment
  rw [if_neg Bool.false_ne_true]
  split
  · exact le_rfl
  · next hge => exact Nat.not_lt.mp hge

@[simp] theorem grant_active : (grant s sink inc sent).active = s.active := by
  cases sent <;> rfl

@[simp] theorem grant_idle : (grant s sink inc sent).idle = s.idle := by
  cases sent <;> rfl

@[simp] theorem grant_cmdq : (grant s sink inc sent).cmdq = s.cmdq := by
  cases sent <;> rfl

@[simp] theorem grant_announcing : (grant s sink inc sent).announcing = s.announcing := by
  cases sent <;> rfl

end

theorem PacerOk.grantActive (h : PacerOk s) {budget total : ℕ}
    (hpc : s.pc = .activeEach (some sink) n budget total) (sent : Bool) (consumed : PullQuanta) :
    PacerOk { grant s sink (increment (s.sinks sink) false) sent with
      active := (grant s sink (increment (s.sinks sink) false) sent).active.erase sink
      pc := .activeGranted sink n budget total consumed } := by
  have hcursor := h.cursor
  have hlinked := h.linked
  rw [hpc] at hcursor hlinked
  obtain ⟨hsinks, hkept⟩ := grant_ok h.sinks sink (increment (s.sinks sink) false) sent fun _ => by
      have := increment_active_le (h.sinks sink)
      have := (h.sinks sink).behind
      omega
  refine ⟨?_, ?_, hsinks, fun k hk => ?_⟩
  · rw [grant_active, grant_idle]
    exact hlinked.takeActive (hcursor.1 sink rfl)
  · rw [grant_active]
    exact hcursor.erase
  · by_cases hks : k = sink
    · exact .inr (.inr (.inr (congrArg some hks.symm)))
    · refine (h.kept k (hkept k hk)).mono (ne_of_settling (congrArg Pc.settling hpc)) (fun hreg => ?_)
        (grant_cmdq ..) (grant_announcing ..)
      rw [grant_active]
      exact (mem_erase_of_ne hks).mpr hreg

theorem PacerOk.grantIdle (h : PacerOk s) (hpc : s.pc = .idleEach (some sink) n)
    {sent : Bool} (hwin : sent = true → (s.sinks sink).pulled + 4 ≤ (s.sinks sink).target + 128) :
    PacerOk { grant s sink (increment (s.sinks sink) true) sent with
      idle := (grant s sink (increment (s.sinks sink) true) sent).idle.erase sink
      pc := .idleGranted sink n } := by
  have hcursor := h.cursor
  have hlinked := h.linked
  rw [hpc] at hcursor hlinked
  obtain ⟨hsinks, hkept⟩ := grant_ok h.sinks sink (increment (s.sinks sink) true) sent hwin
  refine ⟨?_, ?_, hsinks, fun k hk => ?_⟩
  · rw [grant_active, grant_idle]
    exact hlinked.takeIdle (hcursor.1 sink rfl)
  · rw [grant_idle]
    exact hcursor.erase
  · refine (h.kept k (hkept k hk)).mono (ne_of_settling (congrArg Pc.settling hpc)) (fun hreg => ?_)
      (grant_cmdq ..) (grant_announcing ..)
    rw [grant_active]
    exact hreg

/-- After a turn of the loop over the active list the loop variables are in place. -/
theorem afterActive_eq (s : Pacer K) (n : Option K) (budget total : ℕ) (consumed : PullQuanta)
    (hs : s.active.Nodup) (hn : ∀ m ∈ n, m ∈ s.active) :
    ∃ pc : Pc K, afterActive s n budget total consumed = { s with pc := pc } ∧
      pc.hand = none ∧ CursorOk s.active s.idle pc := by
  unfold afterActive
  dsimp only
  split
  · exact ⟨_, rfl, rfl, trivial⟩
  · split
    · exact ⟨_, rfl, rfl, trivial⟩
    · exact ⟨_, rfl, rfl, cursor_of_mem hs hn⟩

section

variable (h : PacerOk s) {n : Option K}
include h

/-- **SETTLING A GRANT**: a sink that still has a backlog goes back to the active list, one that has none is idle. -/
theorem PacerOk.settle {budget total : ℕ} {consumed : PullQuanta}
    (hpc : s.pc = .activeGranted sink n budget total consumed) : ∃ s', pacerRun s true = .ok s' ∧ PacerOk s' := by
  have hcursor := h.cursor
  have hlinked := h.linked
  rw [hpc] at hcursor hlinked
  have hother : ∀ k, k ≠ sink → ∀ m ∈ s.pc.settling, m ≠ k := by
    intro k hne m hm
    rw [hpc] at hm
    exact Option.some.inj hm ▸ hne.symm
  simp only [pacerRun, hpc]
  split
  · next hzero =>
    have hnone : ¬ (s.sinks sink).pulled < (s.sinks sink).target := by
      have hback := (h.sinks sink).backlog
      rw [hzero] at hback
      have hback : 0 = (s.sinks sink).target - (s.sinks sink).pulled := hback
      omega
    rw [if_neg (hlinked.taken sink rfl).2]
    obtain ⟨pc, heq, hhand, hcur⟩ := afterActive_eq
      { s with idle := s.idle ++ [sink], pc := .activeGranted sink n budget total consumed }
      n budget total consumed hlinked.activeOnce hcursor
    refine ⟨_, rfl, ?_⟩
    rw [heq]
    refine ⟨?_, hcur, h.sinks, fun k hk => ?_⟩
    · rw [hhand]
      exact hlinked.putIdle
    · have hne : k ≠ sink := by
        rintro rfl
        exact hnone hk
      exact (h.kept k hk).mono (hother k hne) id rfl rfl
  · obtain ⟨pc, heq, hhand, hcur⟩ := afterActive_eq
      { s with active := s.active ++ [sink], pc := .activeGranted sink n budget total consumed }
      n budget total consumed hlinked.putActive.activeOnce fun m hm => mem_append_left _ (hcursor m hm)
    refine ⟨_, rfl, ?_⟩
    rw [heq]
    refine ⟨?_, hcur, h.sinks, fun k hk => ?_⟩
    · rw [hhand]
      exact hlinked.putActive
    · by_cases hne : k = sink
      · refine .inl (mem_append_right _ ?_)
        rw [hne]
        exact mem_singleton_self sink
      · exact (h.kept k hk).mono (hother k hne) (mem_append_left _) rfl rfl

/-- An idle sink goes back to its list, or to none; nobody needs it to be on one. -/
theorem PacerOk.keepIdle (hpc : s.pc = .idleSatisfied sink n) :
    PacerOk (afterIdle { s with idle := s.idle ++ [sink] } n) := by
  have hcursor := h.cursor
  have hlinked := h.linked
  rw [hpc] at hcursor hlinked
  refine ⟨hlinked.putIdle, ?_, h.sinks, fun k hk => ?_⟩
  · exact cursor_of_mem hlinked.putIdle.idleOnce fun m hm => mem_append_left _ (hcursor m hm)
  · exact (h.kept k hk).mono (ne_of_settling (congrArg Pc.settling hpc)) id rfl rfl

theorem PacerOk.afterIdle (hn : ∀ m ∈ n, m ∈ s.idle) (hsettling : s.pc.settling = none) : PacerOk (afterIdle s n) :=
  h.goto (.idleEach n (n.bind (nextOf s.idle))) rfl (cursor_of_mem h.linked.idleOnce hn) hsettling

/-- **ONE STEP OF THE PACER**: the check on the idle link holds. -/
theorem PacerOk.run {sent : Bool} (hwin : InWindow s (.run sent)) :
    pacerRun s sent = .error .notEnabled ∨ ∃ s', pacerRun s sent = .ok s' ∧ PacerOk s' := by
  have hcursor := h.cursor
  cases hpc : s.pc with
  | rest => exact .inl (by simp only [pacerRun, hpc])
  | pull budget =>
    right
    cases hq : s.cmdq with
    | nil =>
      refine ⟨{ s with pc := .rest }, by simp only [pacerRun, hpc, hq], h.goto _ rfl trivial ?_⟩
      rw [hpc]
      rfl
    | cons sink cmdq =>
      refine ⟨_, by simp only [pacerRun, hpc, hq]; rfl, h.register hpc hq ?_ fun _ _ => ?_⟩
      · split <;> rfl
      · split <;> exact trivial
  | activeWhile budget total =>
    right
    have hsettling : s.pc.settling = none := by
      rw [hpc]
      rfl
    simp only [pacerRun, hpc]
    split
    · refine ⟨_, rfl, h.goto _ rfl ?_ hsettling⟩
      exact cursor_of_mem h.linked.activeOnce fun k hk => mem_of_mem_head? hk
    · exact ⟨_, rfl, h.goto _ rfl trivial hsettling⟩
  | activeEach pos n budget total =>
    right
    cases pos with
    | none =>
      refine ⟨{ s with pc := .activeWhile budget total }, by simp only [pacerRun, hpc], h.goto _ rfl trivial ?_⟩
      rw [hpc]
      rfl
    | some sink =>
      exact ⟨_, by simp only [pacerRun, hpc]; rfl, h.grantActive hpc sent _⟩
  | activeGranted sink n budget total consumed =>
    obtain ⟨s', hrun, hok⟩ := h.settle hpc
    refine .inr ⟨s', ?_, hok⟩
    rw [← hrun]
    simp only [pacerRun, hpc]
  | idleEach pos n =>
    right
    cases pos with
    | none =>
      refine ⟨{ s with pc := .rest }, by simp only [pacerRun, hpc], h.goto _ rfl trivial ?_⟩
      rw [hpc]
      rfl
    | some sink =>
      simp only [InWindow, hpc] at hwin
      exact ⟨_, by simp only [pacerRun, hpc], h.grantIdle hpc hwin⟩
  | idleGranted sink n =>
    right
    rw [hpc] at hcursor
    have hsettling : s.pc.settling = none := by
      rw [hpc]
      rfl
    simp only [pacerRun, hpc]
    split
    · refine ⟨_, rfl, ⟨?_, hcursor, h.sinks, fun k hk => ?_⟩⟩
      · have hlinked := h.linked
        rw [hpc] at hlinked
        exact hlinked
      · exact (h.kept k hk).mono (ne_of_settling hsettling) id rfl rfl
    · exact ⟨_, rfl, h.afterIdle hcursor hsettling⟩
  | idleSatisfied sink n =>
    right
    rw [hpc] at hcursor
    have hsettling : s.pc.settling = none := by
      rw [hpc]
      rfl
    simp only [pacerRun, hpc]
    split
    · exact ⟨_, rfl, h.afterIdle hcursor hsettling⟩
    · exact ⟨_, rfl, h.keepIdle hpc⟩

/-- **ONE STEP** within the window. -/
theorem PacerOk.step {a : PacerAction K} (ha : InWindow s a) :
    pacerStep s a = .error .notEnabled ∨ ∃ s', pacerStep s a = .ok s' ∧ PacerOk s' := by
  cases a with
  | handlePullTarget sink pullTarget =>
    simp only [pacerStep]
    split
    · exact .inl rfl
    · next hquiet =>
      exact .inr ⟨_, rfl, h.handlePullTarget (Bool.eq_false_iff.mpr hquiet) ha⟩
  | requestPull sink =>
    simp only [pacerStep]
    split
    · split
      · exact .inr ⟨_, rfl, h.requestPull⟩
      · exact .inr ⟨_, rfl, h⟩
    · exact .inl rfl
  | handlePullRequest =>
    simp only [pacerStep]
    split
    · next hpc =>
      refine .inr ⟨_, rfl, h.goto _ rfl trivial ?_⟩
      rw [hpc]
      rfl
    · exact .inl rfl
  | handleGrantCredit =>
    simp only [pacerStep]
    split
    · next hpc =>
      have hsettling : s.pc.settling = none := by
        rw [hpc]
        rfl
      right
      split
      · exact ⟨_, rfl, h.goto _ rfl trivial hsettling⟩
      · refine ⟨_, rfl, h.goto _ rfl ?_ hsettling⟩
        exact cursor_of_mem h.linked.idleOnce fun k hk => mem_of_mem_head? hk
    · exact .inl rfl
  | run sent => exact h.run ha

end

end

/-- **NO REGISTRATION IS LOST**: in every interleaving within the window, the check on the idle link holds, a sink is on
    at most one list and once, and one with a backlog is registered: outside the pacer's functions, it is on the active
    list or a message for it is queued or about to be. -/
theorem registration_kept {as : List (PacerAction K)} (has : Along pacerStep InWindow ({} : Pacer K) as) :
    runFrom pacerStep ({} : Pacer K) as ≠ .error .idleLinkInUse ∧ ∀ s, runFrom pacerStep ({} : Pacer K) as = .ok s →
        (s.active.Nodup ∧ s.idle.Nodup ∧ ∀ k ∈ s.active, k ∉ s.idle) ∧
        (∀ k, 0 < (s.sinks k).backlog → Registered s k) ∧
        (s.pc = .rest → ∀ k, 0 < (s.sinks k).backlog → k ∈ s.active ∨ k ∈ s.cmdq ∨ s.announcing k = true) := by
  have hstep : ∀ (s : Pacer K) a s', PacerOk s → InWindow s a → pacerStep s a = .ok s' → PacerOk s' := by
    intro s a s' h ha hrun
    rcases h.step ha with herr | ⟨s₁, hok, h₁⟩
    · cases hrun.symm.trans herr
    · rw [Except.ok.inj (hrun.symm.trans hok)]
      exact h₁
  refine ⟨runFrom_ne_error_along hstep (fun s a h ha herr => ?_) pacerOk_initial has, fun s hs => ?_⟩
  · rcases h.step ha with herr' | ⟨s₁, hok, -⟩
    · cases herr.symm.trans herr'
    · cases herr.symm.trans hok
  · have h : PacerOk s := runFrom_invariant_along hstep pacerOk_initial has hs
    have hkept : ∀ k, 0 < (s.sinks k).backlog → Registered s k := by
      intro k hk
      refine h.kept k ?_
      have hpos : 0 < (s.sinks k).backlog.toNat := hk
      rw [(h.sinks k).backlog] at hpos
      omega
    refine ⟨⟨h.linked.activeOnce, h.linked.idleOnce, h.linked.apart⟩, hkept, fun hrest k hk => ?_⟩
    rcases hkept k hk with hreg | hreg | hreg | hreg
    · exact .inl hreg
    · exact .inr (.inl hreg)
    · exact .inr (.inr hreg)
    · rw [hrest] at hreg
      cases hreg

/-- Two flows; one is granted credit while its engine raises the target. -/
def raisedRun : List (PacerAction Bool) :=
  [.requestPull true, .requestPull false, .handlePullTarget true 54, .requestPull true,
   .handlePullRequest, .run true, .run true, .run true, .run true,
   .handleGrantCredit, .run true, .run true, .handlePullTarget true 60, .run true]

theorem registration_kept_raised : ∃ s, runFrom pacerStep ({} : Pacer Bool) raisedRun = .ok s ∧
      (s.sinks true).backlog = 6 ∧ s.active = [false, true] ∧ Registered s true := by
  refine exists_run_of_guarded (G := InWindow) (fun s => (s.sinks true).backlog = 6 ∧ s.active = [false, true]) ?_
    fun s halong hrun hs => ⟨hs.1, hs.2, ((registration_kept halong).2 s hrun).2.1 true ?_⟩
  · decide +kernel
  · rw [hs.1]
    decide

/-- A sender that has seen the pull `pull` and has spent its credit. -/
def drained (pull : PullQuanta) : EQDSCC := { pull := pull, creditSpec := 0, inSpeculating := false }

/-- A megabyte waits to be sent. -/
def backlogged : TxEnv := { unackedBytes := 0, backlogBytes := 2 ^ 20, wnd := none }

/-- The pacer follows the targets of one flow, with the pull number 70 when 101 arrives and 98 when 129 and
    then `t` arrive. -/
def mixedRun (t : PullQuanta) : List (PacerAction Unit) :=
  [.requestPull (), .handlePullRequest, .run true, .run true, .handlePullTarget () 81, .requestPull (),
   .handleGrantCredit] ++ replicate 15 (.run true) ++
  [.handlePullTarget () 101, .requestPull ()] ++ replicate 21 (.run true) ++
  [.handlePullTarget () 129, .requestPull (), .handlePullTarget () t, .requestPull ()] ++ replicate 4 (.run true) ++
  .handlePullRequest :: replicate 5 (.run true) ++
  .handleGrantCredit :: replicate 4 (.run true) ++
  .handleGrantCredit :: replicate 3 (.run true)

/-- **A RETRANSMISSION LOSES ITS FLOW**: a chunk sent at pull number 70 with target 101 is sent again at 98 with 129,
    and the word has the bits of both, 229. That is 131 ahead and compares as behind: the next grant makes the flow
    idle; the idle grant finds a backlog and drops it from both lists. -/
theorem retransmitted_flow_dropped : ((drained 70).computePullTarget backlogged 65536).1 = 101 ∧
    ∃ d s, EqdsTarget.retransmits 65536 (EqdsTarget.setTarget (RdmaImm.immOf 5 true 3 7) 101)
        [({ drained 98 with creditPull := 65536 }, backlogged)] = [(129, d)] ∧
      runFrom pacerStep {} (mixedRun (EqdsTarget.getTarget d)) = .ok s ∧ s.pc = .rest ∧
      (s.sinks ()).backlog = 127 ∧ s.active = [] ∧ s.idle = [] ∧ s.cmdq = [] ∧ s.announcing () = false := by
  refine ⟨by decide, EqdsTarget.setTarget (EqdsTarget.setTarget (RdmaImm.immOf 5 true 3 7) 101) 129, ?_⟩
  have hword : EqdsTarget.getTarget (EqdsTarget.setTarget (EqdsTarget.setTarget (RdmaImm.immOf 5 true 3 7) 101) 129) =
      229 := by decide
  rw [hword]
  obtain ⟨s, hrun, hs⟩ := exists_run_of_eval (r := runFrom pacerStep {} (mixedRun 229)) (P := fun s => s.pc = .rest ∧
    (s.sinks ()).backlog = 127 ∧ s.active = [] ∧ s.idle = [] ∧ s.cmdq = [] ∧ s.announcing () = false) _
    (by decide +kernel) fun s _ hs => hs
  exact ⟨s, rfl, hrun, hs⟩

end EqdsPacer
