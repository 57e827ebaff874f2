import Uccl.P2pNcclProofs

/-! # Who releases a handle

    Every handle of the NCCL transport has one owner: the request that a control loop polls, or a caller of
    the wrapper, whose request has forgotten it. The control loop is right (`control_loop_exact`): it goes on
    when the event of its request is there, and releases the handle once. The wrapper is right exactly in the
    runs that look at no request that has a handle (`reported_iff`). -/

namespace P2pNccl

open StepRun Function List Except

variable {handles : List AsyncHandle} {h conn : ℕ} {handle : AsyncHandle} {s s' : Sys} {ureq : NcclRequest}
  {loops : ℕ → Loop} {as : List Action} {starts : Bool} {maker : Maker} {r : Request}

-- ── The invariant

/-- A handle of a caller is never deleted. A handle of a control loop is in the request that the loop polls,
    or was deleted once, behind its event. -/
def Owned (loops : ℕ → Loop) (h : ℕ) (handle : AsyncHandle) : Prop :=
  match handle.maker with
  | .caller => handle.deletes = 0
  | .control conn =>
    (handle.deletes = 0 ∧ ∃ ureq, loops conn = .polling ureq ∧ ureq.context = some h) ∨
      (handle.deletes = 1 ∧ handle.event ≠ .notReady)

/-- A request has a handle if its call started an operation. -/
def Attached (handles : List AsyncHandle) (r : Request) : Prop :=
  (r.call.starts = true ∧ ∃ h handle, r.handle = some h ∧ handles[h]? = some handle ∧ handle.maker = .caller) ∨
    (r.call.starts = false ∧ r.handle = none)

structure Inv (s : Sys) : Prop where
  owned : ∀ h handle, s.handles[h]? = some handle → Owned s.loops h handle
  /-- What a control loop polls is a handle of its own that is not deleted. -/
  held : ∀ conn ureq h, s.loops conn = .polling ureq → ureq.context = some h →
    ∃ handle, s.handles[h]? = some handle ∧ handle.maker = .control conn ∧ handle.deletes = 0
  attached : ∀ r ∈ s.requests, Attached s.handles r
  polled : ∀ p ∈ s.polls, p.ret = true ∧
    ∃ r, s.requests[p.request]? = some r ∧ p.event.isSome = r.call.starts

theorem Inv.init : Inv Sys.init where
  owned := fun h handle hget => by cases hget
  held := fun conn ureq h hloop => by cases hloop
  attached := forall_mem_nil _
  polled := forall_mem_nil _

/-- No handle goes, and none changes its maker. -/
def Keeps (handles handles' : List AsyncHandle) : Prop :=
  ∀ (h : ℕ) (handle : AsyncHandle), handles[h]? = some handle →
    ∃ handle' : AsyncHandle, handles'[h]? = some handle' ∧ handle'.maker = handle.maker

theorem Attached.mono {handles' : List AsyncHandle} (hkeeps : Keeps handles handles')
    (hr : Attached handles r) : Attached handles' r := by
  rcases hr with ⟨hstarts, h, handle, hh, hget, hmaker⟩ | hnone
  · obtain ⟨handle', hget', hmaker'⟩ := hkeeps h handle hget
    exact .inl ⟨hstarts, h, handle', hh, hget', hmaker'.trans hmaker⟩
  · exact .inr hnone

theorem extend_get (hget : handles[h]? = some handle) : (extend starts maker handles)[h]? = some handle := by
  unfold extend
  split
  · exact getElem?_append_some hget _
  · exact hget

theorem extend_cases (hget : (extend starts maker handles)[h]? = some handle) :
    handles[h]? = some handle ∨ (starts = true ∧ h = handles.length ∧ handle = ⟨.notReady, 0, maker⟩) := by
  unfold extend at hget
  split at hget
  · next hstarts =>
    exact (getElem?_snoc_cases hget).imp_right fun hnew => ⟨hstarts, hnew⟩
  · exact .inl hget

theorem extend_last (maker : Maker) (handles : List AsyncHandle) :
    (extend true maker handles)[handles.length]? = some ⟨.notReady, 0, maker⟩ := getElem?_concat_length

theorem keeps_extend (starts : Bool) (maker : Maker) (handles : List AsyncHandle) :
    Keeps handles (extend starts maker handles) := fun _ handle hget => ⟨handle, extend_get hget, rfl⟩

theorem set_get (hget : handles[h]? = some handle) (handle' : AsyncHandle) :
    (handles.set h handle')[h]? = some handle' :=
  getElem?_set_self (lt_length hget)

/-- A handle is replaced by one of the same maker. -/
theorem keeps_set (hget : handles[h]? = some handle) (handle' : AsyncHandle) (hmaker : handle'.maker = handle.maker) :
    Keeps handles (handles.set h handle') := by
  intro k handle1 hget1
  by_cases hk : h = k
  · subst hk
    refine ⟨handle', set_get hget handle', ?_⟩
    rw [hmaker, Option.some.inj (hget.symm.trans hget1)]
  · exact ⟨handle1, (getElem?_set_ne hk).trans hget1, rfl⟩

-- ── Steps

theorem async_inv (hs : Inv s) (call : Call) (peerId : ℕ) (ureq : UcclRequest) : Inv (async s call peerId ureq) := by
  obtain ⟨ureq', heq⟩ := async_eq s call peerId ureq
  rw [heq]
  refine ⟨fun h handle hget => ?_, fun conn u h hloop hctx => ?_, fun r hr => ?_, fun p hp => ?_⟩
  · rcases extend_cases hget with hold | ⟨_, _, hnew⟩
    · exact hs.owned h handle hold
    · rw [hnew]
      exact rfl
  · obtain ⟨handle, hget, hrest⟩ := hs.held conn u h hloop hctx
    exact ⟨handle, extend_get hget, hrest⟩
  · rcases mem_append.mp hr with hold | hnew
    · exact (hs.attached r hold).mono (keeps_extend _ _ _)
    · rw [mem_singleton.mp hnew, newHandle_extend]
      cases hstarts : call.starts with
      | true => exact .inl ⟨hstarts, s.handles.length, _, rfl, extend_last _ _, rfl⟩
      | false => exact .inr ⟨hstarts, rfl⟩
  · obtain ⟨hret, r, hr, hevent⟩ := hs.polled p hp
    refine ⟨hret, r, ?_, hevent⟩
    exact getElem?_append_some hr _

/-- The event of a request is there if its call started an operation. -/
theorem Inv.eventOf_isSome (hs : Inv s) (hr : r ∈ s.requests) : (eventOf s r.handle).isSome = r.call.starts := by
  rcases hs.attached r hr with ⟨hstarts, h, handle, hh, hget, _⟩ | ⟨hstarts, hh⟩
  · rw [hstarts, hh]
    show (s.handles[h]?.map AsyncHandle.event).isSome = true
    rw [hget]
    rfl
  · rw [hstarts, hh]
    rfl

theorem look_inv (hs : Inv s) (i : ℕ) : Inv (look ucclPollUreqOnce s i) := by
  cases hr : s.requests[i]? with
  | none =>
    unfold look
    rw [hr]
    exact hs
  | some r =>
    rw [look_eq hr]
    refine { hs with polled := forall_mem_snoc hs.polled ?_ }
    exact ⟨rfl, r, hr, hs.eventOf_isSome (mem_of_getElem? hr)⟩

/-- A loop that polls nothing has no handle that is not deleted. -/
theorem Owned.of_not_polling (hown : Owned loops h handle)
    (hidle : ∀ ureq, loops conn = .polling ureq → ureq.context ≠ some h) (l : Loop) :
    Owned (update loops conn l) h handle := by
  unfold Owned at hown ⊢
  cases hmaker : handle.maker with
  | caller =>
    rw [hmaker] at hown
    exact hown
  | control c =>
    rw [hmaker] at hown
    rcases hown with ⟨hzero, ureq, hloop, hctx⟩ | hdone
    · by_cases hc : c = conn
      · exact absurd hctx (hidle ureq (hc ▸ hloop))
      · exact .inl ⟨hzero, ureq, (update_of_ne hc _ _).trans hloop, hctx⟩
    · exact .inr hdone

/-- What `serve` does when the loop waits and the message is not empty. -/
theorem serve_eq (hidle : s.loops conn = .idle) {call : Call} (hsize : call.size ≠ 0) :
    ∃ ureq, (call.env.enqueues = true → ureq.context = some s.handles.length) ∧ serve s conn call = { s with
          handles := extend call.env.enqueues (.control conn) s.handles
          loops := update s.loops conn (if call.env.enqueues then .polling ureq else .returned) } := by
  obtain ⟨hok, hctx, hhandles⟩ :=
    internal_eq hsize (.control conn) call.env s.handles ⟨.read, 0, none, 0⟩
  refine ⟨(internal (.control conn) call.env s.handles call.size ⟨.read, 0, none, 0⟩).2.1, hctx, ?_⟩
  unfold serve
  rw [hidle]
  rw [if_neg hsize, ← hhandles]
  cases call.type with
  | read =>
    unfold sendInternal
    dsimp only
    rw [hok]
  | write =>
    unfold recvInternal
    dsimp only
    rw [hok]

theorem serve_inv (hs : Inv s) (conn : ℕ) (call : Call) : Inv (serve s conn call) := by
  cases hloop : s.loops conn with
  | polling ureq | returned =>
    unfold serve
    rw [hloop]
    exact hs
  | idle =>
    by_cases hsize : call.size = 0
    · unfold serve
      rw [hloop]
      rw [if_pos hsize]
      exact hs
    obtain ⟨ureq, hctx, heq⟩ := serve_eq hloop hsize
    rw [heq]
    have hnone : ∀ h u, s.loops conn = .polling u → u.context ≠ some h := fun h u hpoll =>
      (by rw [hloop] at hpoll; cases hpoll)
    refine ⟨fun h handle hget => ?_, fun c u h hpoll hu => ?_, fun r hr => ?_, hs.polled⟩
    · rcases extend_cases hget with hold | ⟨hok, hh, hnew⟩
      · exact (hs.owned h handle hold).of_not_polling (hnone h) _
      · rw [hnew, hok]
        refine .inl ⟨rfl, ureq, ?_, (hctx hok).trans (congrArg some hh.symm)⟩
        exact update_self _ _ _
    · by_cases hc : c = conn
      · subst hc
        dsimp only at hpoll
        rw [update_self] at hpoll
        cases hok : call.env.enqueues with
        | false =>
          rw [hok] at hpoll
          cases hpoll
        | true =>
          rw [hok] at hpoll
          cases hpoll
          rw [hctx hok] at hu
          rw [← Option.some.inj hu]
          exact ⟨_, extend_last _ _, rfl, rfl⟩
      · dsimp only at hpoll
        rw [update_of_ne hc] at hpoll
        obtain ⟨handle, hget, hrest⟩ := hs.held c u h hpoll hu
        exact ⟨handle, extend_get hget, hrest⟩
    · exact (hs.attached r hr).mono (keeps_extend _ _ _)

theorem pollUreqOnce_eq (hctx : ureq.context = some h) (hget : handles[h]? = some handle) : pollUreqOnce handles ureq =
      if handle.event = .notReady then (false, ureq, handles)
      else (true, { ureq with context := none }, handles.set h { handle with deletes := handle.deletes + 1 }) := by
  unfold pollUreqOnce
  rw [hctx]
  dsimp only
  rw [hget]

theorem servePoll_eq (hloop : s.loops conn = .polling ureq) : servePoll s conn = { s with
        handles := (pollUreqOnce s.handles ureq).2.2
        loops := update s.loops conn
          (if (pollUreqOnce s.handles ureq).1 then .idle else .polling (pollUreqOnce s.handles ureq).2.1) } := by
  unfold servePoll
  rw [hloop]

/-- What a poll of the control loop does: the request is done and had no handle, or its event is not
    there, or the handle is deleted behind its event. -/
theorem servePoll_cases (hs : Inv s) (hloop : s.loops conn = .polling ureq) :
    (ureq.context = none ∧ servePoll s conn = { s with loops := update s.loops conn .idle }) ∨
    servePoll s conn = s ∨
    ∃ h handle, ureq.context = some h ∧ s.handles[h]? = some handle ∧ handle.maker = .control conn ∧
      handle.deletes = 0 ∧ handle.event ≠ .notReady ∧
      servePoll s conn = { s with
          handles := s.handles.set h { handle with deletes := handle.deletes + 1 }
          loops := update s.loops conn .idle } := by
  rw [servePoll_eq hloop]
  cases hctx : ureq.context with
  | none =>
    have hpoll : pollUreqOnce s.handles ureq = (true, ureq, s.handles) := by
      unfold pollUreqOnce
      rw [hctx]
    rw [hpoll]
    exact .inl ⟨rfl, rfl⟩
  | some h =>
    obtain ⟨handle, hget, hmaker, hzero⟩ := hs.held conn ureq h hloop hctx
    rw [pollUreqOnce_eq hctx hget]
    by_cases hready : handle.event = .notReady
    · rw [if_pos hready]
      rw [if_neg Bool.noConfusion, ← hloop, update_eq_self]
      exact .inr (.inl rfl)
    · rw [if_neg hready]
      exact .inr (.inr ⟨h, handle, rfl, hget, hmaker, hzero, hready, rfl⟩)

/-- A loop that goes on holds nothing. -/
theorem Inv.held_idle (hs : Inv s) (conn : ℕ) {c : ℕ}
    (hpoll : update s.loops conn .idle c = .polling ureq) (hctx : ureq.context = some h) :
    c ≠ conn ∧ ∃ handle, s.handles[h]? = some handle ∧ handle.maker = .control c ∧ handle.deletes = 0 := by
  by_cases hc : c = conn
  · rw [hc, update_self] at hpoll
    cases hpoll
  · rw [update_of_ne hc] at hpoll
    exact ⟨hc, hs.held c ureq h hpoll hctx⟩

theorem servePoll_inv (hs : Inv s) (conn : ℕ) : Inv (servePoll s conn) := by
  cases hloop : s.loops conn with
  | idle | returned =>
    unfold servePoll
    rw [hloop]
    exact hs
  | polling ureq =>
    rcases servePoll_cases hs hloop with ⟨hnone, heq⟩ | hsame | ⟨h, handle, hctx, hget, hmaker, hzero, hready, heq⟩
    · rw [heq]
      refine ⟨fun k a ha => ?_, fun c u k hpoll hu => (hs.held_idle conn hpoll hu).2, hs.attached, hs.polled⟩
      refine (hs.owned k a ha).of_not_polling (fun u hu => ?_) _
      rw [← Loop.polling.inj (hloop.symm.trans hu), hnone]
      exact fun hcon => (by cases hcon)
    · rw [hsame]
      exact hs
    · rw [heq]
      refine ⟨fun k a ha => ?_, fun c u k hpoll hu => ?_, fun r hr => ?_, hs.polled⟩
      · rcases getElem?_set_cases ha with ⟨_, hnew⟩ | ⟨hk, hold⟩
        · rw [hnew]
          rw [hmaker]
          exact .inr ⟨by rw [hzero], hready⟩
        · refine (hs.owned k a hold).of_not_polling (fun u hu => ?_) _
          rw [← Loop.polling.inj (hloop.symm.trans hu), hctx]
          exact fun hcon => hk (Option.some.inj hcon).symm
      · obtain ⟨hc, a, ha, hmakera, hzeroa⟩ := hs.held_idle conn hpoll hu
        have hk : h ≠ k := by
          intro hk
          rw [← hk, hget] at ha
          rw [← Option.some.inj ha, hmaker] at hmakera
          exact hc (Maker.control.inj hmakera).symm
        exact ⟨a, (getElem?_set_ne hk).trans ha, hmakera, hzeroa⟩
      · exact (hs.attached r hr).mono (keeps_set hget { handle with deletes := handle.deletes + 1 } rfl)

/-- An event that comes leaves its handle with its owner. -/
theorem Owned.complete (hown : Owned loops h handle) (hready : handle.event = .notReady) (status : EventStatus) :
    Owned loops h { handle with event := status } := by
  unfold Owned at hown ⊢
  cases hmaker : handle.maker with
  | caller =>
    rw [hmaker] at hown
    exact hown
  | control conn =>
    rw [hmaker] at hown
    rcases hown with hpolled | ⟨_, hdone⟩
    · exact .inl hpolled
    · exact absurd hready hdone

theorem complete_inv (hs : Inv s) (h : ℕ) (status : EventStatus) : Inv (complete s h status) := by
  unfold complete
  split
  · exact hs
  · next handle hget =>
    split
    · next hready =>
      refine ⟨fun k a ha => ?_, fun conn ureq k hloop hctx => ?_, fun r hr => ?_, hs.polled⟩
      · rcases getElem?_set_cases ha with ⟨hk, hnew⟩ | ⟨_, hold⟩
        · rw [hnew, hk]
          exact (hs.owned h handle hget).complete hready status
        · exact hs.owned k a hold
      · obtain ⟨a, ha, hmaker, hzero⟩ := hs.held conn ureq k hloop hctx
        by_cases hk : h = k
        · subst hk
          rw [← Option.some.inj (hget.symm.trans ha)] at hmaker hzero
          exact ⟨_, set_get hget _, hmaker, hzero⟩
        · exact ⟨a, (getElem?_set_ne hk).trans ha, hmaker, hzero⟩
      · exact (hs.attached r hr).mono (keeps_set hget { handle with event := status } rfl)
    · exact hs

/-- Every step keeps the invariant. -/
theorem step_inv {a : Action} (hs : Inv s) (hstep : step s a = .ok s') : Inv s' := by
  cases a with
  | async call peerId ureq => exact ok.inj hstep ▸ async_inv hs call peerId ureq
  | poll i | check i => exact ok.inj hstep ▸ look_inv hs i
  | serve conn call => exact ok.inj hstep ▸ serve_inv hs conn call
  | servePoll conn => exact ok.inj hstep ▸ servePoll_inv hs conn
  | complete h status => exact ok.inj hstep ▸ complete_inv hs h status

theorem run_inv (hrun : runFrom step Sys.init as = .ok s) : Inv s :=
  runFrom_invariant (fun _ _ _ hi hst => step_inv hi hst) Inv.init hrun

-- ── The control loop

/-- **THE CONTROL LOOP IS RIGHT**: in every run, a handle that a control loop has made is in the request
    that the loop still polls and was not deleted, or was deleted exactly once, behind its event. -/
theorem control_loop_exact {as : List Action} (hrun : runFrom step Sys.init as = .ok s) {conn : ℕ}
    (hget : s.handles[h]? = some handle) (hmaker : handle.maker = .control conn) :
    (handle.deletes = 0 ∧ ∃ ureq, s.loops conn = .polling ureq ∧ ureq.context = some h) ∨
      (handle.deletes = 1 ∧ handle.event ≠ .notReady) := by
  have hown := (run_inv hrun).owned h handle hget
  unfold Owned at hown
  rw [hmaker] at hown
  exact hown

/-- A control loop receives and polls until the event is there. -/
theorem control_loop_exact_served : ∃ s handle, runFrom step Sys.init
      [.serve 3 ⟨.write, 64, allGood⟩, .servePoll 3, .complete 0 .success, .servePoll 3] = .ok s ∧
    s.handles[0]? = some handle ∧ (handle.deletes = 0 ∧ (∃ ureq, s.loops 3 = .polling ureq ∧ ureq.context = some 0) ∨
      handle.deletes = 1 ∧ handle.event ≠ .notReady) := by
  have hrun : runFrom step Sys.init
      [.serve 3 ⟨.write, 64, allGood⟩, .servePoll 3, .complete 0 .success, .servePoll 3] = .ok _ := rfl
  exact ⟨_, ⟨.success, 1, .control 3⟩, hrun, rfl, control_loop_exact hrun rfl rfl⟩

-- ── The wrapper

/-- A poll that returned true found the event of its request complete, and behind it the handle of the
    request is released; no handle is released twice. -/
structure Reported (s : Sys) : Prop where
  timely : ∀ p ∈ s.polls, p.ret = true → ∀ event, p.event = some event → event = .success
  released : ∀ p ∈ s.polls, p.ret = true → ∀ r, s.requests[p.request]? = some r →
    ∀ h handle, r.handle = some h → s.handles[h]? = some handle → handle.deletes = 1
  once : ∀ handle ∈ s.handles, handle.deletes ≤ 1

/-- The step looks at no request whose call started an operation. -/
def Vacant (s : Sys) : Action → Prop
  | .poll i => ∀ r ∈ s.requests[i]?, r.call.starts = false
  | .check i => ∀ r ∈ s.requests[i]?, r.call.starts = false
  | .async _ _ _ => True
  | .serve _ _ => True
  | .servePoll _ => True
  | .complete _ _ => True

instance (s : Sys) (a : Action) : Decidable (Vacant s a) := by
  cases a <;> unfold Vacant <;> infer_instance

theorem Inv.once (hs : Inv s) (hmem : handle ∈ s.handles) : handle.deletes ≤ 1 := by
  obtain ⟨h, hget⟩ := mem_iff_getElem?.mp hmem
  have hown := hs.owned h handle hget
  unfold Owned at hown
  cases hmaker : handle.maker with
  | caller =>
    rw [hmaker] at hown
    omega
  | control conn =>
    rw [hmaker] at hown
    rcases hown with ⟨hzero, _⟩ | ⟨hone, _⟩ <;> omega

/-- No request that has an event was looked at. -/
def Unseen (s : Sys) : Prop := ∀ p ∈ s.polls, p.event = none

theorem Inv.reported_iff_unseen (hs : Inv s) : Reported s ↔ Unseen s := by
  constructor
  · intro hrep p hp
    obtain ⟨hret, r, hr, hevent⟩ := hs.polled p hp
    rcases hs.attached r (mem_of_getElem? hr) with ⟨_, h, handle, hh, hget, hmaker⟩ | ⟨hstarts, _⟩
    · -- the handle of a caller is never deleted
      have hone := hrep.released p hp hret r hr h handle hh hget
      have hown := hs.owned h handle hget
      unfold Owned at hown
      rw [hmaker] at hown
      omega
    · rw [hstarts] at hevent
      exact Option.isNone_iff_eq_none.mp (by rw [← Option.not_isSome, hevent]; rfl)
  · intro hunseen
    refine ⟨fun p hp _ event he => ?_, fun p hp _ r hr h handle hh _ => ?_, fun handle hmem => hs.once hmem⟩
    · rw [hunseen p hp] at he
      cases he
    · obtain ⟨_, r', hr', hevent⟩ := hs.polled p hp
      have hrr : r = r' := Option.some.inj (hr.symm.trans hr')
      rcases hs.attached r (mem_of_getElem? hr) with ⟨hstarts, _⟩ | ⟨_, hnone⟩
      · rw [← hrr, hstarts, hunseen p hp] at hevent
        exact Bool.noConfusion hevent
      · rw [hnone] at hh
        cases hh

theorem look_unseen (hs : Inv s) (i : ℕ) :
    Unseen (look ucclPollUreqOnce s i) ↔ (∀ r ∈ s.requests[i]?, r.call.starts = false) ∧ Unseen s := by
  cases hr : s.requests[i]? with
  | none =>
    unfold look
    rw [hr]
    exact ⟨fun h => ⟨fun r hcon => (by cases hcon), h⟩, fun h => h.2⟩
  | some r =>
    rw [look_eq hr]
    have hevent := hs.eventOf_isSome (mem_of_getElem? hr)
    constructor
    · intro h
      refine ⟨fun r' hr' => ?_, fun p hp => h p (mem_append_left _ hp)⟩
      have hnone : eventOf s r.handle = none := h _ (mem_append_right _ (mem_singleton_self _))
      rw [← Option.some.inj hr', ← hevent, hnone]
      rfl
    · rintro ⟨hvacant, hunseen⟩
      refine forall_mem_snoc hunseen ?_
      rw [hvacant r rfl] at hevent
      exact Option.isNone_iff_eq_none.mp (by rw [← Option.not_isSome, hevent]; rfl)

/-- Only polls and checks are logged. -/
theorem step_unseen {a : Action} (hs : Inv s) (hstep : step s a = .ok s') : Unseen s' ↔ Vacant s a ∧ Unseen s := by
  have hquiet : ∀ t : Sys, t.polls = s.polls → (Unseen t ↔ True ∧ Unseen s) := by
    intro t ht
    unfold Unseen
    rw [ht, true_and]
  cases a with
  | async call peerId ureq => exact ok.inj hstep ▸ hquiet _ rfl
  | poll i | check i => exact ok.inj hstep ▸ look_unseen hs i
  | serve conn call => exact ok.inj hstep ▸ hquiet _ (by unfold serve; split <;> (try split) <;> rfl)
  | servePoll conn => exact ok.inj hstep ▸ hquiet _ (by unfold servePoll; split <;> rfl)
  | complete h status => exact ok.inj hstep ▸ hquiet _ (by unfold complete; split <;> (try split) <;> rfl)

theorem run_unseen {t : Sys} (hs : Inv s) (hrun : runFrom step s as = .ok t) :
    Unseen t ↔ Along step Vacant s as ∧ Unseen s := by
  induction as generalizing s with
  | nil =>
    cases hrun
    exact ⟨fun h => ⟨trivial, h⟩, fun h => h.2⟩
  | cons a as ih =>
    obtain ⟨s', hfirst, hrest⟩ := runFrom_cons_inv hrun
    rw [ih (step_inv hs hfirst) hrest, step_unseen hs hfirst]
    constructor
    · rintro ⟨halong, hvacant, hunseen⟩
      refine ⟨⟨hvacant, fun s1 h1 => ?_⟩, hunseen⟩
      rw [← ok.inj (hfirst.symm.trans h1)]
      exact halong
    · rintro ⟨⟨hvacant, halong⟩, hunseen⟩
      exact ⟨halong s' hfirst, hvacant, hunseen⟩

/-- **THE WRAPPER REPORTS RIGHTLY EXACTLY WHEN IT HAS NOTHING TO REPORT**: completion is reported behind the event and
    handles are released if and only if no request is looked at whose call started an operation. -/
theorem reported_iff {s : Sys} {as : List Action} (hrun : runFrom step Sys.init as = .ok s) :
    Reported s ↔ Along step Vacant Sys.init as := by
  rw [(run_inv hrun).reported_iff_unseen, run_unseen Inv.init hrun]
  exact and_iff_left (forall_mem_nil _)

/-- An empty write is polled, and a read whose control message was lost is checked, while a control loop receives. -/
theorem reported_iff_no_operation : ∃ s, runFrom step Sys.init
      [.async ⟨.write, 0, allGood⟩ 1 ⟨.read, 0, 0, false⟩, .serve 3 ⟨.write, 64, allGood⟩, .poll 0,
        .async ⟨.read, 64, { allGood with ctrlMsg := false }⟩ 1 ⟨.read, 0, 0, false⟩, .check 1,
        .complete 0 .success, .servePoll 3] = .ok s ∧
    s.polls.length = 2 ∧ s.handles = [⟨.success, 1, .control 3⟩] ∧ Reported s := by
  refine exists_run_of_guarded (G := Vacant) (fun s => s.polls.length = 2 ∧ s.handles = [⟨.success, 1, .control 3⟩]) ?_
    fun s halong hrun hs => ⟨hs.1, hs.2, (reported_iff hrun).mpr halong⟩
  decide +kernel

end P2pNccl
