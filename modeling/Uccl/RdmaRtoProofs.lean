import Uccl.RdmaEngineProofs

/-! # Retransmission timers

    A subflow's `rto_armed` flag and its entry in the `TimerManager` are kept by different objects. They are
    compared PER SUBFLOW: `TimerTouched` says that a routine working on `f` leaves the flag and the entry of
    `f` in agreement and those of every other subflow alone, so that the loop of `handle_rto`, during which
    the subflows still to be visited are out of step, is an ordinary induction over the expired subflows.

    A chunk of a send never waits without a timer. A chunk of a one-sided operation may: `senderCC_tx_write`
    and `senderCC_tx_read` track a chunk and arm nothing, in UC mode as well. -/

namespace RdmaRto

open RdmaPcb RdmaImm RdmaTimer RdmaState RdmaTransmit RdmaAck RdmaEngine StepRun List Except

variable {F : Type} [DecidableEq F] {ty : ReqId → ReqType}
variable {e e' : SenderCtx F} {f : F} {now : ℕ} {cfg : Config} {c : TxChoice}

/-- The flag of a subflow says whether it has an entry. -/
def SyncAt (e : SenderCtx F) (f : F) : Prop := (e.flows f).rtoArmed = e.rto.isArmed f

/-- If the subflow tracks a chunk of a send, its timer is armed; `ty` is the type each request was submitted with. -/
def Covered (ty : ReqId → ReqType) (e : SenderCtx F) (f : F) : Prop :=
  ∀ t ∈ (e.flows f).unackedChunks, ty t.ureq = .ReqTx → (e.flows f).rtoArmed = true

/-- Flags and entries agree, sends are covered, and requests keep their type. -/
structure TimersOk (ty : ReqId → ReqType) (e : SenderCtx F) : Prop where
  indexed : Indexed e.rto
  sync : ∀ f, SyncAt e f
  covered : ∀ f, Covered ty e f
  typed : ∀ id, (e.ureqs id).type = ty id

-- ── Setting the timer of one subflow

/-- A routine worked on the timer of `f`: flag and entry of `f` agree again and no other subflow's changed. -/
structure TimerTouched (e : SenderCtx F) (f : F) (e' : SenderCtx F) : Prop where
  indexed : Indexed e'.rto
  sync : SyncAt e' f
  flag : ∀ g, g ≠ f → (e'.flows g).rtoArmed = (e.flows g).rtoArmed
  entry : ∀ g, g ≠ f → e'.rto.isArmed g = e.rto.isArmed g

omit [DecidableEq F] in
theorem TimerTouched.refl (hi : Indexed e.rto) (hs : SyncAt e f) : TimerTouched e f e :=
  ⟨hi, hs, fun _ _ => rfl, fun _ _ => rfl⟩

omit [DecidableEq F] in
theorem TimerTouched.trans {e'' : SenderCtx F} (h1 : TimerTouched e f e')
    (h2 : TimerTouched e' f e'') : TimerTouched e f e'' :=
  ⟨h2.indexed, h2.sync, fun g hg => (h2.flag g hg).trans (h1.flag g hg),
    fun g hg => (h2.entry g hg).trans (h1.entry g hg)⟩

omit [DecidableEq F] in
/-- The other subflows stay in step. -/
theorem TimerTouched.syncAt {g : F} (h : TimerTouched e f e') (hg : g ≠ f) (hs : SyncAt e g) : SyncAt e' g := by
  unfold SyncAt
  rw [h.flag g hg, h.entry g hg]
  exact hs

omit [DecidableEq F] in
/-- A change that leaves every flag and the timer queue alone. -/
theorem TimerTouched.of_same {e1 e2 : SenderCtx F} (h : TimerTouched e f e1)
    (hrto : e2.rto = e1.rto) (hflag : ∀ g, (e2.flows g).rtoArmed = (e1.flows g).rtoArmed) : TimerTouched e f e2 := by
  refine ⟨hrto ▸ h.indexed, ?_, fun g hg => (hflag g).trans (h.flag g hg), fun g hg => ?_⟩
  · unfold SyncAt
    rw [hflag f, hrto]
    exact h.sync
  · rw [hrto]
    exact h.entry g hg

/-- Arming: the entry is there and the flag says so. -/
theorem touched_armTimerForFlow (hi : Indexed e.rto) (hs : SyncAt e f) (now : ℕ) :
    TimerTouched e f (armTimerForFlow e f now) ∧ ((armTimerForFlow e f now).flows f).rtoArmed = true := by
  by_cases harmed : (e.flows f).rtoArmed = true
  · have heq : armTimerForFlow e f now = e := by
      unfold armTimerForFlow
      rw [harmed]
      rfl
    rw [heq]
    exact ⟨TimerTouched.refl hi hs, harmed⟩
  · have heq : armTimerForFlow e f now = { (e.modFlow f fun sf => { sf with rtoArmed := true }) with
          rto := armTimer e.rto f now } := by
      unfold armTimerForFlow
      rw [Bool.eq_false_iff.mpr harmed]
      rfl
    have hself : ((armTimerForFlow e f now).flows f).rtoArmed = true := by
      rw [heq]
      rw [SenderCtx.modFlow_flows_self]
    refine ⟨⟨?_, ?_, ?_, ?_⟩, hself⟩
    · rw [heq]
      exact indexed_armTimer hi f now
    · unfold SyncAt
      rw [hself, heq]
      rw [isArmed_armTimer hi, decide_eq_true rfl, Bool.true_or]
    · intro g hg
      rw [heq]
      exact congrArg SubUcclFlow.rtoArmed (Function.update_of_ne hg ..)
    · intro g hg
      rw [heq]
      rw [isArmed_armTimer hi, decide_eq_false hg, Bool.false_or]

/-- Re-arming: the same, whatever the flag was. -/
theorem touched_rearmTimerForFlow (hi : Indexed e.rto) (hs : SyncAt e f) (now : ℕ) :
    TimerTouched e f (rearmTimerForFlow e f now) ∧ ((rearmTimerForFlow e f now).flows f).rtoArmed = true := by
  by_cases harmed : (e.flows f).rtoArmed = true
  · have heq : rearmTimerForFlow e f now = { e with rto := rearmTimer e.rto f now } := by
      unfold rearmTimerForFlow
      rw [if_pos harmed]
    rw [heq]
    refine ⟨⟨indexed_rearmTimer hi f now, ?_, fun _ _ => rfl, ?_⟩, harmed⟩
    · show (e.flows f).rtoArmed = (rearmTimer e.rto f now).isArmed f
      rw [isArmed_rearmTimer hi, decide_eq_true rfl, Bool.true_or, harmed]
    · intro g hg
      rw [isArmed_rearmTimer hi, decide_eq_false hg, Bool.false_or]
  · have heq : rearmTimerForFlow e f now = armTimerForFlow e f now := by
      unfold rearmTimerForFlow
      rw [if_neg harmed]
    rw [heq]
    exact touched_armTimerForFlow hi hs now

/-- Disarming: no entry, and the flag says so. -/
theorem touched_disarmTimerForFlow (hi : Indexed e.rto) (hs : SyncAt e f) :
    TimerTouched e f (disarmTimerForFlow e f) := by
  by_cases harmed : (e.flows f).rtoArmed = true
  · have heq : disarmTimerForFlow e f = { (e.modFlow f fun sf => { sf with rtoArmed := false }) with
          rto := disarmTimer e.rto f } := by
      unfold disarmTimerForFlow
      rw [if_pos harmed]
    rw [heq]
    refine ⟨indexed_disarmTimer hi f, ?_, ?_, ?_⟩
    · show ((e.modFlow f fun sf => { sf with rtoArmed := false }).flows f).rtoArmed = (disarmTimer e.rto f).isArmed f
      rw [SenderCtx.modFlow_flows_self, isArmed_disarmTimer hi, decide_eq_false (by simp)]
      rfl
    · intro g hg
      exact congrArg SubUcclFlow.rtoArmed (Function.update_of_ne hg ..)
    · intro g hg
      rw [isArmed_disarmTimer hi, decide_eq_true hg, Bool.true_and]
  · have heq : disarmTimerForFlow e f = e := by
      unfold disarmTimerForFlow
      rw [if_neg harmed]
    rw [heq]
    exact TimerTouched.refl hi hs

-- ── Retransmission

/-- Counting a retransmission touches no timer. -/
theorem rtoArmed_countRexmit (e : SenderCtx F) (f : F) (rto : Bool) (g : F) :
    ((countRexmit e f rto).flows g).rtoArmed = (e.flows g).rtoArmed :=
  update_congr SubUcclFlow.rtoArmed (by rfl) g

/-- **A RETRANSMISSION ROUND** re-arms the timer unless nothing is tracked. -/
theorem touched_retransmitForFlow {rto : Bool} (hi : Indexed e.rto) (hs : SyncAt e f)
    (h : retransmitForFlow e f rto now = .ok e') :
    TimerTouched e f e' ∧ ((e.flows f).unackedChunks ≠ [] → (e'.flows f).rtoArmed = true) := by
  simp only [retransmitForFlow] at h
  split at h
  · next hnil =>
    cases h
    exact ⟨TimerTouched.refl hi hs, fun hne => absurd hnil hne⟩
  · next oldest rest hchunks =>
    split at h
    · have hsent : TimerTouched e f (tryRetransmitChunk e oldest.wrEx) :=
        (TimerTouched.refl hi hs).of_same rfl fun _ => rfl
      obtain ⟨hre, harmed⟩ := touched_rearmTimerForFlow hsent.indexed hsent.sync now
      cases h
      refine ⟨(hsent.trans hre).of_same rfl (rtoArmed_countRexmit _ f rto), fun _ => ?_⟩
      rw [rtoArmed_countRexmit]
      exact harmed
    · split at h
      · cases h
      · next e1 done hloop =>
        have hwalk : TimerTouched e f e1 := sackHoleLoop_rule (I := TimerTouched e f)
          (fun _ _ ht _ => ht.of_same rfl fun _ => rfl) (fun _ _ ht => ht) _ _ _ _ _ _
          (TimerTouched.refl hi hs) hloop
        obtain ⟨hre, harmed⟩ := touched_rearmTimerForFlow hwalk.indexed hwalk.sync now
        cases h
        split
        · refine ⟨(hwalk.trans hre).of_same rfl (rtoArmed_countRexmit _ f rto), fun _ => ?_⟩
          rw [rtoArmed_countRexmit]
          exact harmed
        · exact ⟨hwalk.trans hre, fun _ => harmed⟩

-- ── Steps of the engine

omit [DecidableEq F] in
/-- A step that sets no timer, tracks nothing new and retypes no request. -/
theorem TimersOk.of_frame (h : TimersOk ty e) (hrto : e'.rto = e.rto)
    (hflag : ∀ f, (e'.flows f).rtoArmed = (e.flows f).rtoArmed)
    (hsub : ∀ f, (e'.flows f).unackedChunks ⊆ (e.flows f).unackedChunks)
    (htype : ∀ id, (e'.ureqs id).type = (e.ureqs id).type) : TimersOk ty e' := by
  refine ⟨hrto ▸ h.indexed, fun f => ?_, fun f t ht hty => ?_, fun id => (htype id).trans (h.typed id)⟩
  · unfold SyncAt
    rw [hflag f, hrto]
    exact h.sync f
  · rw [hflag f]
    exact h.covered f t (hsub f ht) hty

/-- A routine that worked on the timer of `f` and left `f` covered. -/
theorem TimersOk.of_touched (hsync : ∀ g, g ≠ f → SyncAt e g) (hcov : ∀ g, g ≠ f → Covered ty e g)
    (ht : TimerTouched e f e') (hf : Covered ty e' f)
    (hsub : ∀ g, g ≠ f → (e'.flows g).unackedChunks ⊆ (e.flows g).unackedChunks)
    (htype : ∀ id, (e'.ureqs id).type = ty id) : TimersOk ty e' := by
  refine ⟨ht.indexed, fun g => ?_, fun g => ?_, htype⟩
  · by_cases hg : g = f
    · rw [hg]; exact ht.sync
    · exact ht.syncAt hg (hsync g hg)
  · by_cases hg : g = f
    · rw [hg]; exact hf
    · intro t hmem hty
      rw [ht.flag g hg]
      exact hcov g hg t (hsub g hg hmem) hty

omit [DecidableEq F] in
/-- An armed subflow is covered. -/
theorem covered_of_armed (h : (e.flows f).rtoArmed = true) : Covered ty e f :=
  fun _ _ _ => h

/-- Posting and tracking a chunk in UC mode arms the timer. -/
theorem timersOk_transmitChunk (hUC : cfg.rcMode = false) (h : TimersOk ty e) (f : F) (id : ReqId)
    (w : WrEx F) (user : TxUser) (c : TxChoice) : TimersOk ty (transmitChunk cfg e f id w user c) := by
  -- the chunk is tracked before the timer is armed: only `f` may be uncovered in between
  generalize he1 : postAndTrack e f user (messageTrack id { w with qpidx := c.qpidx }) = e1
  have heq : transmitChunk cfg e f id w user c = armTimerForFlow e1 f c.now := by
    unfold transmitChunk
    rw [hUC, he1]
    rfl
  have hrto : e1.rto = e.rto := by rw [← he1]; rfl
  have hureqs : e1.ureqs = e.ureqs := by rw [← he1]; rfl
  have hother : ∀ g, g ≠ f → e1.flows g = e.flows g := by
    intro g hg
    rw [← he1]
    exact flows_postAndTrack_of_ne e hg _ _
  have hself : (e1.flows f).rtoArmed = (e.flows f).rtoArmed := by
    rw [← he1, flows_postAndTrack_self]
  have hsync : ∀ g, SyncAt e1 g := by
    intro g
    unfold SyncAt
    rw [hrto]
    by_cases hg : g = f
    · rw [hg, hself]; exact h.sync f
    · rw [hother g hg]; exact h.sync g
  obtain ⟨htouch, harmed⟩ :=
    touched_armTimerForFlow (hrto ▸ h.indexed) (hsync f) c.now
  have hres := resent_armTimerForFlow e1 f c.now
  rw [heq]
  refine TimersOk.of_touched (fun g _ => hsync g) ?_ htouch (covered_of_armed harmed) ?_ ?_
  · intro g hg t ht hty
    rw [hother g hg] at ht ⊢
    exact h.covered g t ht hty
  · intro g _
    rw [hres.unackedChunks g]
    exact fun _ ht => ht
  · intro k
    rw [hres.frame]
    exact hureqs ▸ h.typed k

/-- A change of one subflow that neither sets its flag nor tracks a chunk. -/
theorem TimersOk.modFlow (h : TimersOk ty e) (f : F) {k : SubUcclFlow F → SubUcclFlow F}
    (hflag : (k (e.flows f)).rtoArmed = (e.flows f).rtoArmed)
    (hsub : (k (e.flows f)).unackedChunks ⊆ (e.flows f).unackedChunks) : TimersOk ty (e.modFlow f k) := by
  refine h.of_frame rfl (fun g => ?_) (fun g => ?_) fun _ => rfl
  · exact update_congr _ hflag g
  · by_cases hg : g = f
    · rw [hg, SenderCtx.modFlow_flows_self]; exact hsub
    · rw [SenderCtx.modFlow_flows_of_ne e hg]; exact fun _ ht => ht

theorem timersOk_takeCsn (h : TimersOk ty e) (pool : List (WrEx F)) (f : F) :
    TimersOk ty (takeCsn { e with wrExPool := pool } f) := by
  have hpool : TimersOk ty { e with wrExPool := pool } := { h with }
  exact hpool.modFlow f rfl fun _ ht => ht

theorem timersOk_accountChunk (h : TimersOk ty e) (f : F) (id : ReqId) (n : ℕ) :
    TimersOk ty (accountChunk e f id n) := by
  refine h.of_frame rfl (fun g => ?_) (fun g => ?_) fun k => ?_
  · exact update_congr SubUcclFlow.rtoArmed (by rfl) g
  · by_cases hg : g = f
    · rw [hg, flows_accountChunk_self]; exact fun _ ht => ht
    · rw [flows_accountChunk_of_ne e hg]; exact fun _ ht => ht
  · exact update_congr UcclRequest.type (by rfl) k

theorem timersOk_txMessageChunk (hUC : cfg.rcMode = false) {id : ReqId} {b : Bool}
    (h : TimersOk ty e) (hrun : txMessageChunk cfg e id c = .ok (e', b)) : TimersOk ty e' := by
  rcases txMessageChunk_cases hrun with ⟨-, rfl⟩ | ⟨w, pool, -, -, -, rfl⟩
  · exact h
  · refine timersOk_accountChunk ?_ _ _ _
    have htake := timersOk_takeCsn h pool (e.ureqs id).context
    unfold placeChunk
    dsimp only
    split
    · exact timersOk_transmitChunk hUC htake _ _ _ _ _
    · have hcnt := htake.modFlow (e.ureqs id).context
        (k := fun sf => { sf with inWheelCnt := addU32 sf.inWheelCnt 1 }) rfl fun _ ht => ht
      exact { hcnt with }

/-- A chunk of a one-sided operation is tracked without a timer, but it is no chunk of a send. -/
theorem timersOk_txOneSidedChunk {opcode : Opcode} {user : TxUser} {id : ReqId}
    {b : Bool} (h : TimersOk ty e) (hne : (e.ureqs id).type ≠ .ReqTx)
    (hrun : txOneSidedChunk opcode user cfg e id c = .ok (e', b)) : TimersOk ty e' := by
  rcases txOneSidedChunk_cases hrun with ⟨-, rfl⟩ | ⟨w, pool, -, -, ⟨-, rfl⟩ | ⟨-, rfl⟩⟩
  · exact h
  · exact timersOk_takeCsn h pool _
  · refine timersOk_accountChunk ?_ _ _ _
    have htake := timersOk_takeCsn h pool (e.ureqs id).context
    unfold placeOneSided takeOneSided
    refine ⟨htake.indexed, fun g => ?_, fun g t ht hty => ?_, htake.typed⟩
    · unfold SyncAt
      by_cases hg : g = (e.ureqs id).context
      · rw [hg, flows_postAndTrack_self]; exact htake.sync _
      · rw [flows_postAndTrack_of_ne _ hg]; exact htake.sync g
    · by_cases hg : g = (e.ureqs id).context
      · rw [hg, flows_postAndTrack_self] at ht ⊢
        rcases mem_append.mp ht with ht | ht
        · exact htake.covered _ t ht hty
        · rw [mem_singleton.mp ht] at hty
          exact absurd ((h.typed id).trans hty) hne
      · rw [flows_postAndTrack_of_ne _ hg] at ht ⊢
        exact htake.covered g t ht hty

theorem timersOk_burstTimingWheel (hUC : cfg.rcMode = false) (h : TimersOk ty e) (due : List F) (cs : ℕ → TxChoice) :
    TimersOk ty (burstTimingWheel cfg e due cs) := by
  refine burstTimingWheel_rule ?_ ?_ h due cs
  · intro e f w h _
    exact { h with }
  · intro e w rest c h _
    unfold burstChunk
    have hrest : TimersOk ty { e with readyQueue := rest } := { h with }
    exact (timersOk_transmitChunk hUC hrest _ _ _ _ _).modFlow _ rfl fun _ ht => ht

section

variable (h : TimersOk ty e) {hdr : UcclSackHdr}
include h

/-- A retransmission round on one subflow. -/
theorem timersOk_retransmitForFlow {rto : Bool} (hrun : retransmitForFlow e f rto now = .ok e') : TimersOk ty e' := by
  obtain ⟨ht, harmed⟩ := touched_retransmitForFlow h.indexed (h.sync f) hrun
  have hres := resent_retransmitForFlow hrun
  refine TimersOk.of_touched (fun g _ => h.sync g) (fun g _ => h.covered g) ht ?_ ?_ ?_
  · intro t hmem _
    rw [hres.unackedChunks f] at hmem
    exact harmed fun hnil => nomatch hnil ▸ hmem
  · intro g _
    rw [hres.unackedChunks g]
    exact fun _ hmem => hmem
  · intro k
    rw [hres.frame]
    exact h.typed k

theorem timersOk_fastRetransmitForFlow (hrun : fastRetransmitForFlow cfg e f now = .ok e') : TimersOk ty e' := by
  unfold fastRetransmitForFlow at hrun
  split at hrun
  · exact timersOk_retransmitForFlow h hrun
  · cases hrun
    exact h

theorem timersOk_rearmTimerForFlow (f : F) (now : ℕ) : TimersOk ty (rearmTimerForFlow e f now) := by
  obtain ⟨ht, harmed⟩ := touched_rearmTimerForFlow h.indexed (h.sync f) now
  have hres := resent_rearmTimerForFlow e f now
  refine TimersOk.of_touched (fun g _ => h.sync g) (fun g _ => h.covered g) ht
    (covered_of_armed harmed) (fun g _ => ?_) fun k => ?_
  · rw [hres.unackedChunks g]
    exact fun _ hmem => hmem
  · rw [hres.frame]
    exact h.typed k

/-- With nothing tracked the timer may go. -/
theorem timersOk_disarmTimerForFlow (hnil : (e.flows f).unackedChunks = []) : TimersOk ty (disarmTimerForFlow e f) := by
  have hres := resent_disarmTimerForFlow e f
  refine TimersOk.of_touched (fun g _ => h.sync g) (fun g _ => h.covered g)
    (touched_disarmTimerForFlow h.indexed (h.sync f)) (fun t ht => ?_) (fun g _ => ?_) fun k => ?_
  · rw [hres.unackedChunks f, hnil] at ht
    cases ht
  · rw [hres.unackedChunks g]
    exact fun _ hmem => hmem
  · rw [hres.frame]
    exact h.typed k

theorem timersOk_resetTimer (f : F) (now : ℕ) : TimersOk ty (resetTimer e f now) := by
  unfold resetTimer
  split
  · next hempty => exact timersOk_disarmTimerForFlow h (isEmpty_iff.mp hempty)
  · exact timersOk_rearmTimerForFlow h f now

omit [DecidableEq F] in
theorem timersOk_tryRetransmitChunk (w : WrEx F) : TimersOk ty (tryRetransmitChunk e w) := { h with }

theorem timersOk_countRexmit (f : F) (rto : Bool) : TimersOk ty (countRexmit e f rto) := by
  exact h.modFlow f rfl fun _ ht => ht

theorem timersOk_rxDuplicateAck (hrun : rxDuplicateAck cfg e f hdr now = .ok e') : TimersOk ty e' := by
  have hnote : TimersOk ty (noteDuplicateAck e f hdr) := by
    exact h.modFlow f rfl fun _ ht => ht
  simp only [rxDuplicateAck] at hrun
  split at hrun
  · cases hrun
    exact hnote
  · split at hrun
    · exact timersOk_fastRetransmitForFlow hnote hrun
    · split at hrun
      · cases hrun
      · next e1 done hloop =>
        cases hrun
        refine sackHoleLoop_rule (I := TimersOk ty) (fun _ chunk hi _ => timersOk_tryRetransmitChunk hi chunk.wrEx)
          (fun resent e hi => ?_) _ _ _ _ _ _ hnote hloop
        -- every hole of the fast-recovery walk re-arms the timer
        cases resent with
        | false => exact timersOk_rearmTimerForFlow hi f now
        | true => exact timersOk_rearmTimerForFlow (timersOk_countRexmit hi f false) f now

theorem timersOk_rxValidAck {ackno : UintCsn} (hrun : rxValidAck e f ackno now = .ok e') : TimersOk ty e' := by
  obtain ⟨e1, hack, rfl⟩ := rxValidAck_cases hrun
  have h1 : TimersOk ty e1 := by
    refine ackTransmittedChunks_rule (fun e chunk rest h hchunks => ?_) _ _ _ h hack
    have hpop := h.modFlow f (k := fun sf => { sf with
        unackedBytes := subU32 sf.unackedBytes chunk.wrEx.sge.length
        unackedChunks := rest
        ackedChunks := sf.ackedChunks + 1 }) rfl
      (hchunks ▸ subset_cons_self chunk rest)
    exact { hpop with }
  refine timersOk_resetTimer ?_ f now
  have hback : TimersOk ty (reduceEngineBytes e1 f (e.flows f).unackedBytes) := { h1 with }
  exact hback.modFlow f rfl fun _ ht => ht

theorem timersOk_ucRxAck (hrun : ucRxAck cfg e hdr now = .ok e') : TimersOk ty e' := by
  rcases ucRxAck_cases hrun with rfl | ⟨e1, rfl, -, -, hbranch⟩
  · exact h
  · have h1 : TimersOk ty e1 := by
      rcases hbranch with ⟨-, hdup⟩ | ⟨-, hvalid⟩
      · exact timersOk_rxDuplicateAck h hdup
      · exact timersOk_rxValidAck h hvalid
    exact h1.modFlow _ rfl fun _ ht => ht

/-- A completion by CSN removes a chunk and sets no timer. -/
theorem timersOk_rcRxAck (wrId : UintCsn × F) : TimersOk ty (rcRxAck e wrId) := by
  rcases rcRxAck_cases e wrId with heq | ⟨chunk, -, heq⟩
  · rw [heq]
    exact h
  · rw [heq]
    refine h.of_frame rfl (fun g => ?_) (fun g => ?_) fun k => ?_
    · exact update_congr SubUcclFlow.rtoArmed (by rfl) g
    · by_cases hg : g = wrId.2
      · rw [hg, flows_ackRcChunk_self]
        exact eraseP_subset
      · rw [flows_ackRcChunk_of_ne e hg]
        exact fun _ ht => ht
    · exact update_congr UcclRequest.type (by rfl) k

end

-- ── Expiry

/-- The loop of `handle_rto` has still to visit `fs`: their entries are gone and
    their flags not yet lowered; everything else is in order. -/
structure Expiring (ty : ReqId → ReqType) (fs : List F) (e : SenderCtx F) : Prop where
  indexed : Indexed e.rto
  gone : ∀ f ∈ fs, e.rto.isArmed f = false
  sync : ∀ f, f ∉ fs → SyncAt e f
  covered : ∀ f, f ∉ fs → Covered ty e f
  typed : ∀ id, (e.ureqs id).type = ty id

/-- One turn: mark the subflow and retransmit, which arms its timer again. -/
theorem expiring_step (hRTO : isNoRto cfg = false) {fs : List F} (hf : f ∉ fs) (h : Expiring ty (f :: fs) e)
    (hrun : rtoRetransmitForFlow cfg (markFlowTimeout e f) f now = .ok e') : Expiring ty fs e' := by
  have hmark := resent_markFlowTimeout e f
  have hsync : SyncAt (markFlowTimeout e f) f := by
    unfold SyncAt markFlowTimeout
    rw [SenderCtx.modFlow_flows_self]
    exact (h.gone f (mem_cons_self)).symm
  have hlink : (cfg.isRoce || kTestLoss) = true := by
    unfold isNoRto at hRTO
    rwa [Bool.not_eq_false'] at hRTO
  unfold rtoRetransmitForFlow at hrun
  rw [if_pos hlink] at hrun
  have hindexed : Indexed (markFlowTimeout e f).rto := h.indexed
  obtain ⟨ht, harmed⟩ := touched_retransmitForFlow hindexed hsync hrun
  have hres := hmark.trans (resent_retransmitForFlow hrun)
  have hflag : ∀ g, g ≠ f → (e'.flows g).rtoArmed = (e.flows g).rtoArmed := by
    intro g hg
    rw [hres.other g hg]
  have hentry : ∀ g, g ≠ f → e'.rto.isArmed g = e.rto.isArmed g := ht.entry
  refine ⟨ht.indexed, fun g hg => ?_, fun g hg => ?_, fun g hg => ?_, fun k => ?_⟩
  · rw [hentry g fun heq => hf (heq ▸ hg)]
    exact h.gone g (mem_cons_of_mem _ hg)
  · by_cases hgf : g = f
    · rw [hgf]; exact ht.sync
    · unfold SyncAt
      rw [hflag g hgf, hentry g hgf]
      exact h.sync g fun hmem => (mem_cons.mp hmem).elim hgf hg
  · intro t hmem hty
    rw [hres.unackedChunks g] at hmem
    by_cases hgf : g = f
    · subst hgf
      refine harmed fun hnil => ?_
      rw [← hmark.unackedChunks g, hnil] at hmem
      cases hmem
    · rw [hflag g hgf]
      exact h.covered g (fun hin => (mem_cons.mp hin).elim hgf hg) t hmem hty
  · rw [hres.frame]
    exact h.typed k

theorem expiring_handleExpired (hRTO : isNoRto cfg = false) :
    ∀ (fs : List F) (e e' : SenderCtx F), fs.Nodup → Expiring ty fs e →
      handleExpired cfg now fs e = .ok e' → Expiring ty [] e' := by
  intro fs
  induction fs with
  | nil =>
    intro e e' _ h hrun
    cases hrun
    exact h
  | cons f fs ih =>
    intro e e' hnd h hrun
    obtain ⟨hf, hnd⟩ := nodup_cons.mp hnd
    simp only [handleExpired] at hrun
    split at hrun
    · cases hrun
    · next e1 h1 => exact ih e1 e' hnd (expiring_step hRTO hf h h1) hrun

/-- `handle_rto` leaves every subflow in order again. -/
theorem timersOk_handleRto (h : TimersOk ty e) (hrun : handleRto cfg e now = .ok e') : TimersOk ty e' := by
  unfold handleRto at hrun
  split at hrun
  · cases hrun
    exact h
  · next hRTO =>
    obtain ⟨hindexed, hnd, -, hleft⟩ := checkExpired_spec h.indexed now
    have hstart : Expiring ty (checkExpired e.rto now).1 { e with rto := (checkExpired e.rto now).2 } := by
      refine ⟨hindexed, fun f hf => ?_, fun f hf => ?_, fun f _ => h.covered f, h.typed⟩
      · rw [hleft, decide_eq_false (not_not_intro hf), Bool.false_and]
      · show (e.flows f).rtoArmed = (checkExpired e.rto now).2.isArmed f
        rw [hleft, decide_eq_true hf]
        exact h.sync f
    have hend := expiring_handleExpired (Bool.eq_false_iff.mpr hRTO) _ _ _ hnd hstart hrun
    exact ⟨hend.indexed, fun f => hend.sync f not_mem_nil, fun f => hend.covered f not_mem_nil, hend.typed⟩

-- ── Runs

theorem timersOk_engStep (hUC : cfg.rcMode = false) (e : SenderCtx F) (a : TxAction F)
    (e' : SenderCtx F) (h : TimersOk ty e) (hrun : engStep cfg e a = .ok e') : TimersOk ty e' := by
  cases a with
  | tx id cs =>
    simp only [engStep] at hrun
    split at hrun
    · cases hrun
    · next e1 b htx =>
      cases hrun
      exact txMessage_rule (fun _ _ _ _ h _ => timersOk_txMessageChunk hUC h)
        (fun _ _ _ _ _ _ _ h hne => timersOk_txOneSidedChunk h hne) h htx
  | burst due cs =>
    cases hrun
    exact timersOk_burstTimingWheel hUC h due cs
  | ucAck hdr now => exact timersOk_ucRxAck h hrun
  | rcAck wrId =>
    cases hrun
    exact timersOk_rcRxAck h wrId
  | rto now => exact timersOk_handleRto h hrun
  | retransmit f rto now => exact timersOk_retransmitForFlow h hrun

omit [DecidableEq F] in
theorem timersOk_initial (h : Initial e) : TimersOk (fun id => (e.ureqs id).type) e := by
  obtain ⟨timeout, hrto⟩ := h.timers
  refine ⟨hrto ▸ indexed_init timeout, fun f => ?_, fun f t ht => ?_, fun _ => rfl⟩
  · obtain ⟨fid, hf⟩ := h.flows f
    unfold SyncAt
    rw [hf, hrto]
    rfl
  · obtain ⟨fid, hf⟩ := h.flows f
    rw [hf] at ht
    cases ht

/-- **NO SEND WAITS WITHOUT A TIMER**: in every run of an engine in UC mode, whatever
    requests it works on, `rto_armed` is set exactly when the subflow has an entry
    in the timer queue, and it is set whenever a chunk of a send is tracked. -/
theorem timer_covers_sends {cfg : Config} (hUC : cfg.rcMode = false) {e₀ e : SenderCtx F}
    {as : List (TxAction F)} (h₀ : Initial e₀) (hrun : runFrom (engStep cfg) e₀ as = .ok e) (f : F) :
    ((e.flows f).rtoArmed = true ↔ e.rto.isArmed f = true) ∧
    ((e.flows f).rtoArmed = true ↔ ∃ x ∈ e.rto.heap, x.flow = f) ∧
    ∀ t ∈ (e.flows f).unackedChunks, (e₀.ureqs t.ureq).type = .ReqTx → (e.flows f).rtoArmed = true := by
  have h := runFrom_invariant (timersOk_engStep hUC) (timersOk_initial h₀) hrun
  have hsync : (e.flows f).rtoArmed = e.rto.isArmed f := h.sync f
  refine ⟨?_, ?_, h.covered f⟩
  · rw [hsync]
  · rw [hsync]
    exact isArmed_iff_mem_heap h.indexed f

/-- A send of one byte is tracked with its timer armed. -/
theorem timer_covers_sends_one_byte :
    ∃ e, runFrom (engStep defaultConfig) (byteRequests .ReqTx) [.tx 0 fun _ => {}] = .ok e ∧
      (e.flows ()).unackedChunks.map ChunkTrack.ureq = [0] ∧ (e.flows ()).rtoArmed = true := by
  refine exists_run_of_eval (fun e => (e.flows ()).unackedChunks.map ChunkTrack.ureq = [0]) ?_ fun e hrun he => ⟨he, ?_⟩
  · decide +kernel
  · have hcov := (timer_covers_sends rfl (initial_freshEngine _ fun _ => ⟨rfl, rfl⟩) hrun ()).2.2
    obtain ⟨t, ht, -⟩ := mem_map.mp (he ▸ mem_singleton_self 0 : 0 ∈ _)
    exact hcov t ht rfl

/-- **A WRITE WAITS WITHOUT A TIMER**: in UC mode on a RoCE link the one chunk of a
    one-sided write is tracked and no timer is armed. -/
theorem write_tracked_without_timer : defaultConfig.rcMode = false ∧ isNoRto defaultConfig = false ∧
    Initial (byteRequests .ReqWrite) ∧
    ∃ e, runFrom (engStep defaultConfig) (byteRequests .ReqWrite) [.tx 0 fun _ => {}] = .ok e ∧
      (e.flows ()).unackedChunks ≠ [] ∧ (e.flows ()).rtoArmed = false := by
  refine ⟨rfl, rfl, initial_freshEngine _ fun _ => ⟨rfl, rfl⟩, ?_⟩
  refine exists_run_of_eval (fun e => (e.flows ()).unackedChunks.isEmpty = false ∧ (e.flows ()).rtoArmed = false) ?_
    fun e hrun he => ⟨fun hnil => ?_, he.2⟩
  · decide +kernel
  · rw [hnil] at he
    cases he.1

end RdmaRto
