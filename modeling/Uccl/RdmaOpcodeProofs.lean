import Uccl.RdmaEngineProofs
import Uccl.OwnershipProofs

/-! # Recycled work requests

    `WrExBuffPool` sets the opcode of a `wr_ex` once, when the pool is built. `senderCC_tx_message` relies on
    it; `senderCC_tx_write` and `senderCC_tx_read` overwrite it in buffers of the same pool, and a completed
    buffer goes back as it is.

    So the opcode a send is posted with is a fact about the HISTORY of its buffer, and the result is exact: it
    is the one of a write with immediate if and only if no one-sided operation posted that buffer before. What
    carries it is ownership — no buffer is in two of the pool, the wheel, the ready queue and the tracked
    chunks — so that overwriting one buffer's opcode touches no other owner. -/

namespace RdmaOpcode

open RdmaPcb RdmaImm RdmaTimer RdmaState RdmaTransmit RdmaAck RdmaEngine Ownership StepRun List

variable {F : Type}
variable {e e' : SenderCtx F} {sq ps : List (Post F)}

/-- Posted by `senderCC_tx_write` or `senderCC_tx_read`. -/
def Post.oneSided (p : Post F) : Prop := p.user = .write ∨ p.user = .read

/-- Posted by `senderCC_tx_message` or `burst_timing_wheel`. -/
def Post.ofSend (p : Post F) : Prop := p.user = .message ∨ p.user = .wheel

/-- Some one-sided operation posted this buffer. -/
def OneSided (sq : List (Post F)) (buff : ℕ) : Prop :=
  ∃ q ∈ sq, q.buff = buff ∧ Post.oneSided q

/-- Every work request of a send has the opcode of its buffer's history. -/
def PostsOk (sq : List (Post F)) : Prop :=
  ∀ before p after, sq = before ++ p :: after → Post.ofSend p →
    (p.opcode = .RDMA_WRITE_WITH_IMM ↔ ¬ OneSided before p.buff)

theorem oneSided_append (hps : ∀ p ∈ ps, ¬ Post.oneSided p) (b : ℕ) : OneSided (sq ++ ps) b ↔ OneSided sq b := by
  constructor
  · rintro ⟨q, hq, hb, hone⟩
    rcases mem_append.mp hq with hq | hq
    · exact ⟨q, hq, hb, hone⟩
    · exact absurd hone (hps q hq)
  · rintro ⟨q, hq, hb, hone⟩
    exact ⟨q, mem_append_left ps hq, hb, hone⟩

theorem oneSided_snoc {p : Post F} (hp : Post.oneSided p) (b : ℕ) :
    OneSided (sq ++ [p]) b ↔ OneSided sq b ∨ p.buff = b := by
  constructor
  · rintro ⟨q, hq, hb, hone⟩
    rcases mem_append.mp hq with hq | hq
    · exact .inl ⟨q, hq, hb, hone⟩
    · exact .inr (mem_singleton.mp hq ▸ hb)
  · rintro (⟨q, hq, hb, hone⟩ | hb)
    · exact ⟨q, mem_append_left _ hq, hb, hone⟩
    · exact ⟨p, mem_append_right _ (mem_singleton_self p), hb, hp⟩

/-- One more post: only its own opcode is to be looked at. -/
theorem PostsOk.snoc (h : PostsOk sq) {p : Post F}
    (hp : Post.ofSend p → (p.opcode = .RDMA_WRITE_WITH_IMM ↔ ¬ OneSided sq p.buff)) : PostsOk (sq ++ [p]) := by
  intro before q after heq hq
  rcases eq_nil_or_concat after with rfl | ⟨after', x, rfl⟩
  · obtain ⟨rfl, hpq⟩ := append_inj' heq rfl
    have hpq : p = q := head_eq_of_cons_eq hpq
    subst hpq
    exact hp hq
  · rw [concat_eq_append, ← cons_append, ← append_assoc] at heq
    exact h before q after' (append_inj' heq rfl).1 hq

theorem PostsOk.append (h : PostsOk sq) (hps : ∀ p ∈ ps, ¬ Post.ofSend p) : PostsOk (sq ++ ps) := by
  induction ps generalizing sq with
  | nil => rw [append_nil]; exact h
  | cons p ps ih =>
    rw [← singleton_append, ← append_assoc]
    refine ih (h.snoc fun hp => absurd hp (hps p (mem_cons_self))) fun q hq => ?_
    exact hps q (mem_cons_of_mem p hq)

-- ── Buffers with their opcodes

/-- What matters of a buffer: its address and its opcode. -/
abbrev Key := ℕ × Opcode

/-- A buffer's opcode says whether a one-sided operation used it. -/
def KeyOk (sq : List (Post F)) (k : Key) : Prop :=
  k.2 = .RDMA_WRITE_WITH_IMM ↔ ¬ OneSided sq k.1

/-- Each buffer has one owner, opcodes tell the buffers' histories, and so do the posts made so far. -/
structure Sound (loose : List Key) (held : F → List Key) (sq : List (Post F)) : Prop where
  owned : Owned (loose.map Prod.fst) fun f => (held f).map Prod.fst
  loose_ok : ∀ k ∈ loose, KeyOk sq k
  held_ok : ∀ f, ∀ k ∈ held f, KeyOk sq k
  posts : PostsOk sq

section

variable {loose loose' : List Key} {held held' : F → List Key} {sq : List (Post F)} {k : Key}
  {f : F}

theorem Sound.perm (h : Sound loose held sq) (hp : loose.Perm loose') : Sound loose' held sq :=
  ⟨h.owned.perm (hp.map _), fun k hk => h.loose_ok k (hp.mem_iff.mpr hk), h.held_ok, h.posts⟩

theorem Sound.tail (h : Sound (k :: loose) held sq) : Sound loose held sq :=
  ⟨Owned.tail h.owned, fun c hc => h.loose_ok c (mem_cons_of_mem k hc), h.held_ok, h.posts⟩

/-- Retransmissions post no send and no one-sided operation. -/
theorem Sound.quiet (h : Sound loose held sq) {ps : List (Post F)}
    (hps : ∀ p ∈ ps, p.user = .retransmit) : Sound loose held (sq ++ ps) := by
  have hone : ∀ p ∈ ps, ¬ Post.oneSided p := by
    intro p hp h
    unfold Post.oneSided at h
    rw [hps p hp] at h
    exact h.elim nofun nofun
  have hsend : ∀ p ∈ ps, ¬ Post.ofSend p := by
    intro p hp h
    unfold Post.ofSend at h
    rw [hps p hp] at h
    exact h.elim nofun nofun
  have hkey : ∀ k, KeyOk sq k → KeyOk (sq ++ ps) k := by
    intro k hk
    unfold KeyOk
    rw [oneSided_append hone]
    exact hk
  exact ⟨h.owned, fun k hk => hkey k (h.loose_ok k hk), fun f k hk => hkey k (h.held_ok f k hk), h.posts.append hsend⟩

/-- **A SEND IS POSTED** with the opcode its buffer had. -/
theorem Sound.send (h : Sound (k :: loose) held sq) {p : Post F} (hp : Post.ofSend p)
    (hkey : (p.buff, p.opcode) = k) (hself : held' f = held f ++ [k])
    (hother : ∀ g, g ≠ f → held' g = held g) : Sound loose held' (sq ++ [p]) := by
  have hone : ∀ q ∈ [p], ¬ Post.oneSided q := by
    intro q hq hone
    rw [mem_singleton.mp hq] at hone
    rcases hone with hu | hu
    · rcases hp with hp | hp <;> cases hp.symm.trans hu
    · rcases hp with hp | hp <;> cases hp.symm.trans hu
  have hok : ∀ c, KeyOk sq c → KeyOk (sq ++ [p]) c := by
    intro c hc
    unfold KeyOk
    rw [oneSided_append hone]
    exact hc
  have hk := h.loose_ok k (mem_cons_self)
  refine ⟨Owned.give (f := f) h.owned ?_ fun g hg => by rw [hother g hg],
    fun c hc => hok c (h.loose_ok c (mem_cons_of_mem k hc)), fun g c hc => ?_,
    h.posts.snoc fun _ => ?_⟩
  · rw [hself, map_append]
    exact perm_append_comm
  · by_cases hg : g = f
    · subst hg
      rw [hself] at hc
      rcases mem_append.mp hc with hc | hc
      · exact hok c (h.held_ok g c hc)
      · rw [mem_singleton.mp hc]
        exact hok k hk
    · exact hok c (h.held_ok g c (hother g hg ▸ hc))
  · subst hkey
    exact hk

/-- **A ONE-SIDED OPERATION IS POSTED**: from here on its buffer carries another opcode, and no other buffer does. -/
theorem Sound.oneSided (h : Sound (k :: loose) held sq) {p : Post F} (hp : Post.oneSided p)
    (hbuff : p.buff = k.1) (hop : p.opcode ≠ .RDMA_WRITE_WITH_IMM) (hself : held' f = held f ++ [(k.1, p.opcode)])
    (hother : ∀ g, g ≠ f → held' g = held g) : Sound loose held' (sq ++ [p]) := by
  have hfresh : k.1 ∉ loose.map Prod.fst := (nodup_cons.mp h.owned.loose_nodup).1
  -- a buffer other than `k` keeps its history
  have hok : ∀ c : Key, c.1 ≠ k.1 → KeyOk sq c → KeyOk (sq ++ [p]) c := by
    intro c hne hc
    unfold KeyOk
    rw [oneSided_snoc hp, hbuff, or_iff_left fun heq => hne heq.symm]
    exact hc
  have hsend : ¬ Post.ofSend p := by
    intro h
    rcases hp with hp | hp
    · rcases h with h | h <;> cases hp.symm.trans h
    · rcases h with h | h <;> cases hp.symm.trans h
  refine ⟨Owned.give (f := f) h.owned ?_ fun g hg => by rw [hother g hg], fun c hc => ?_,
    fun g c hc => ?_, h.posts.snoc fun hs => absurd hs hsend⟩
  · rw [hself, map_append]
    exact perm_append_comm
  · refine hok c (fun heq => ?_) (h.loose_ok c (mem_cons_of_mem k hc))
    exact hfresh (heq ▸ mem_map_of_mem hc)
  · have hold : ∀ g, c ∈ held g → KeyOk (sq ++ [p]) c := by
      intro g hc
      refine hok c (fun heq => ?_) (h.held_ok g c hc)
      exact Owned.not_held h.owned g (heq ▸ mem_map_of_mem hc)
    by_cases hg : g = f
    · subst hg
      rw [hself] at hc
      rcases mem_append.mp hc with hc | hc
      · exact hold g hc
      · rw [mem_singleton.mp hc]
        exact ⟨fun heq => absurd heq hop, fun hno => absurd ((oneSided_snoc hp _).mpr (.inr hbuff)) hno⟩
    · exact hold g (hother g hg ▸ hc)

/-- A completed chunk's buffer goes back with its opcode. -/
theorem Sound.reclaim (h : Sound loose held sq) (hself : (held f).Perm (k :: held' f))
    (hother : ∀ g, g ≠ f → held' g = held g) : Sound (k :: loose) held' sq := by
  have hsub : ∀ g c, c ∈ held' g → c ∈ held g := by
    intro g c hc
    by_cases hg : g = f
    · subst hg
      exact hself.mem_iff.mpr (mem_cons_of_mem k hc)
    · exact hother g hg ▸ hc
  refine ⟨Owned.reclaim (f := f) h.owned (hself.map Prod.fst) fun g hg => by rw [hother g hg],
    fun c hc => ?_, fun g c hc => h.held_ok g c (hsub g c hc), h.posts⟩
  rcases mem_cons.mp hc with rfl | hc
  · exact h.held_ok f c (hself.mem_iff.mpr (mem_cons_self))
  · exact h.loose_ok c hc

end

-- ── The engine

def key (w : WrEx F) : Key := (w.buff, w.opcode)

/-- The buffers that no subflow tracks: pool, wheel and ready queue. -/
def looseKeys (e : SenderCtx F) : List Key :=
  (e.wrExPool ++ e.wheel ++ e.readyQueue).map key

/-- The buffers of a subflow's tracked chunks. -/
def heldKeys (e : SenderCtx F) (f : F) : List Key :=
  (e.flows f).unackedChunks.map fun t => key t.wrEx

def OpcodesOk (e : SenderCtx F) : Prop := Sound (looseKeys e) (heldKeys e) e.sq

/-- Nothing that matters changed. -/
theorem OpcodesOk.congr (h : OpcodesOk e) (hloose : looseKeys e' = looseKeys e)
    (hheld : ∀ f, (e'.flows f).unackedChunks = (e.flows f).unackedChunks) (hsq : e'.sq = e.sq) : OpcodesOk e' := by
  have hkeys : heldKeys e' = heldKeys e := funext fun f => by
    unfold heldKeys
    rw [hheld f]
  unfold OpcodesOk
  rw [hloose, hkeys, hsq]
  exact h

variable [DecidableEq F] {w : WrEx F} {id : ReqId} {f : F} {pool : List (WrEx F)}

/-- A change of one subflow that tracks and completes nothing. -/
theorem OpcodesOk.modFlow (h : OpcodesOk e) (f : F) {g : SubUcclFlow F → SubUcclFlow F}
    (hg : (g (e.flows f)).unackedChunks = (e.flows f).unackedChunks) : OpcodesOk (e.modFlow f g) := by
  exact h.congr rfl (update_congr _ hg) rfl

theorem opcodesOk_resent (h : OpcodesOk e) (hres : Resent e f e') : OpcodesOk e' := by
  obtain ⟨ps, hsq, hps⟩ := hres.posts
  have hquiet : Sound (looseKeys e) (heldKeys e) (e.sq ++ ps) := h.quiet fun p hp => by
    obtain ⟨chunk, -, rfl⟩ := hps p hp
    rfl
  have hloose : looseKeys e' = looseKeys e := by
    rw [hres.frame]
    rfl
  have hheld : heldKeys e' = heldKeys e := funext fun g => by
    unfold heldKeys
    rw [hres.unackedChunks g]
  unfold OpcodesOk
  rw [hloose, hheld, hsq]
  exact hquiet

theorem opcodesOk_accountChunk (h : OpcodesOk e) (f : F) (id : ReqId) (n : ℕ) : OpcodesOk (accountChunk e f id n) := by
  exact h.congr rfl (update_congr SubUcclFlow.unackedChunks (by rfl)) rfl

/-- What posting and tracking adds to the held buffers. -/
theorem heldKeys_postAndTrack (e : SenderCtx F) (f : F) (user : TxUser) (t : ChunkTrack F) :
    heldKeys (postAndTrack e f user t) f = heldKeys e f ++ [key t.wrEx] := by
  unfold heldKeys
  rw [flows_postAndTrack_self, map_append]
  rfl

theorem heldKeys_postAndTrack_of_ne (e : SenderCtx F) {g : F} (hg : g ≠ f) (user : TxUser)
    (t : ChunkTrack F) : heldKeys (postAndTrack e f user t) g = heldKeys e g := by
  unfold heldKeys
  rw [flows_postAndTrack_of_ne e hg]

/-- A buffer on its way from the pool or the ready queue is posted and tracked. -/
theorem opcodesOk_transmitChunk {cfg : Config} {user : TxUser}
    {c : TxChoice} (huser : user = .message ∨ user = .wheel) (h : Sound (key w :: looseKeys e) (heldKeys e) e.sq) :
    OpcodesOk (transmitChunk cfg e f id w user c) := by
  have hpost : OpcodesOk (postAndTrack e f user (messageTrack id { w with qpidx := c.qpidx })) :=
    Sound.send (k := key w) (f := f) h huser rfl (heldKeys_postAndTrack e f user _)
      fun g hg => heldKeys_postAndTrack_of_ne e hg user _
  unfold transmitChunk
  split
  · exact opcodesOk_resent hpost (resent_armTimerForFlow _ f c.now)
  · exact hpost

/-- A buffer on its way from the pool waits in the wheel. -/
theorem opcodesOk_queueOnTimingWheel (h : Sound (key w :: looseKeys e) (heldKeys e) e.sq) :
    OpcodesOk (queueOnTimingWheel e f id w) := by
  have hheld : heldKeys (queueOnTimingWheel e f id w) = heldKeys e := funext fun g => by
    exact congrArg _ (update_congr SubUcclFlow.unackedChunks (by rfl) g)
  unfold OpcodesOk
  rw [hheld]
  have hmove : List.Perm ({ w with ureq := id } :: (e.wrExPool ++ e.wheel ++ e.readyQueue))
      (e.wrExPool ++ (e.wheel ++ [{ w with ureq := id }]) ++ e.readyQueue) := by
    rw [← append_assoc, append_assoc (e.wrExPool ++ e.wheel)]
    exact perm_middle.symm
  exact h.perm (hmove.map key)

/-- Taking a buffer from the pool. -/
theorem sound_takeCsn (h : OpcodesOk e) (hpool : e.wrExPool = w :: pool) (f : F) :
    Sound (key w :: looseKeys (takeCsn { e with wrExPool := pool } f))
      (heldKeys (takeCsn { e with wrExPool := pool } f)) e.sq := by
  have hloose : looseKeys e = key w :: looseKeys (takeCsn { e with wrExPool := pool } f) := by
    unfold looseKeys
    rw [hpool]
    rfl
  have hheld : heldKeys (takeCsn { e with wrExPool := pool } f) = heldKeys e := funext fun g => by
    exact congrArg _ (update_congr SubUcclFlow.unackedChunks (by rfl) g)
  rw [hheld, ← hloose]
  exact h

omit [DecidableEq F] in
/-- A completed chunk's buffer is appended to the pool, or lost when the pool is full. -/
theorem opcodesOk_freed (h : OpcodesOk e)
    (hself : (heldKeys e f).Perm (key w :: heldKeys e' f)) (hother : ∀ g, g ≠ f → heldKeys e' g = heldKeys e g)
    (hpool : e'.wrExPool = freeBuff e.wrExPool w) (hwheel : e'.wheel = e.wheel)
    (hready : e'.readyQueue = e.readyQueue) (hsq : e'.sq = e.sq) : OpcodesOk e' := by
  have hback : Sound (key w :: looseKeys e) (heldKeys e') e'.sq := hsq ▸ Sound.reclaim h hself hother
  unfold OpcodesOk looseKeys
  rw [hpool, hwheel, hready]
  unfold freeBuff
  split
  · exact hback.tail
  · refine hback.perm ?_
    unfold looseKeys
    simp only [map_append, map_cons, append_assoc, singleton_append]
    exact perm_middle.symm

/-- **WHAT EVERY STEP KEEPS.** -/
theorem stepwise_opcodesOk (cfg : Config) : Stepwise cfg (OpcodesOk (F := F)) where
  message e id c w pool h _ hpool _ := by
    refine opcodesOk_accountChunk ?_ _ _ _
    have htake := sound_takeCsn h hpool (e.ureqs id).context
    unfold placeChunk
    dsimp only
    split
    · exact opcodesOk_transmitChunk (.inl rfl) htake
    · exact opcodesOk_queueOnTimingWheel htake
  oneSided opcode user hkind e id c w pool h _ hpool _ := by
    refine opcodesOk_accountChunk ?_ _ _ _
    have htake := sound_takeCsn h hpool (e.ureqs id).context
    have huser : user = .write ∨ user = .read := hkind.imp And.right And.right
    have hop : opcode ≠ .RDMA_WRITE_WITH_IMM := by
      rcases hkind with ⟨rfl, -⟩ | ⟨rfl, -⟩ <;> decide
    exact Sound.oneSided (f := (e.ureqs id).context) htake huser rfl hop
      (heldKeys_postAndTrack _ _ user _) fun g hg => heldKeys_postAndTrack_of_ne _ hg user _
  failedPost e id w pool h _ hpool := (sound_takeCsn h hpool (e.ureqs id).context).tail
  reaped e f w h hfind := by
    have hmove : List.Perm (e.wrExPool ++ e.wheel ++ e.readyQueue)
        (e.wrExPool ++ (e.wheel.eraseP fun w => decide (wheelFlow e w = f)) ++ (e.readyQueue ++ [w])) := by
      rw [append_assoc, append_assoc]
      refine List.Perm.append_left _ ?_
      refine ((perm_cons_eraseP_of_find? hfind).append_right _).trans ?_
      rw [← append_assoc]
      exact (perm_append_singleton w _).symm
    exact Sound.perm h (hmove.map key)
  burst e w rest c h hready := by
    have hsend : Sound (key w :: looseKeys { e with readyQueue := rest })
        (heldKeys { e with readyQueue := rest }) e.sq := by
      refine Sound.perm h ?_
      unfold looseKeys
      rw [hready]
      exact List.Perm.map key perm_middle
    exact (opcodesOk_transmitChunk (.inr rfl) hsend).modFlow _ rfl
  resent e f e' h hres := opcodesOk_resent h hres
  expired e rto h := h.congr rfl (fun _ => rfl) rfl
  duplicate e f hdr h := by
    exact h.modFlow f rfl
  sack e f hdr h := by
    exact h.modFlow f rfl
  valid e f ackno now e' h hrun := by
    obtain ⟨e1, hack, rfl⟩ := rxValidAck_cases hrun
    have h1 : OpcodesOk e1 := by
      refine ackTransmittedChunks_rule (fun e chunk rest h hchunks => ?_) _ _ _ h hack
      refine opcodesOk_freed (f := f) (w := chunk.wrEx) h ?_ (fun g hg => ?_) rfl rfl rfl rfl
      · unfold heldKeys
        rw [hchunks, flows_ackFront_self]
        rfl
      · unfold heldKeys
        rw [flows_ackFront_of_ne e hg]
    have hback : OpcodesOk (reduceEngineBytes e1 f (e.flows f).unackedBytes) := h1.congr rfl (fun _ => rfl) rfl
    refine opcodesOk_resent ?_ (resent_resetTimer _ f now)
    exact hback.modFlow f rfl
  completed e f csn chunk h hfind := by
    refine opcodesOk_freed (f := f) (w := chunk.wrEx) h ?_ (fun g hg => ?_) rfl rfl rfl rfl
    · unfold heldKeys
      rw [flows_ackRcChunk_self]
      exact (perm_cons_eraseP_of_find? hfind).map _
    · unfold heldKeys
      rw [flows_ackRcChunk_of_ne e hg]

omit [DecidableEq F] in
theorem opcodesOk_initial (h : Initial e) : OpcodesOk e := by
  have hloose : looseKeys e = (initWrExPool : List (WrEx F)).map key := by
    unfold looseKeys
    rw [h.pool, h.wheel, h.readyQueue, append_nil, append_nil]
  have hheld : heldKeys e = fun _ => [] := funext fun f => by
    obtain ⟨fid, hf⟩ := h.flows f
    unfold heldKeys
    rw [hf]
    rfl
  unfold OpcodesOk
  rw [hloose, hheld, h.sq]
  refine ⟨⟨?_, fun _ => nodup_nil, nofun, nofun⟩, fun k hk => ?_, nofun, ?_⟩
  · unfold initWrExPool
    rw [map_map, map_map]
    exact (map_id _).symm ▸ nodup_range
  · obtain ⟨w, hw, rfl⟩ := mem_map.mp hk
    obtain ⟨i, -, rfl⟩ := mem_map.mp hw
    exact ⟨fun _ => nofun, fun _ => rfl⟩
  · intro before p after heq
    exact absurd heq (append_ne_nil_of_right_ne_nil _ (cons_ne_nil _ _)).symm

/-- **THE OPCODE OF A SEND**: in every run of an engine, a work request posted by `senderCC_tx_message` or
    `burst_timing_wheel` is a write with immediate if and only if neither `senderCC_tx_write` nor
    `senderCC_tx_read` posted its buffer before. -/
theorem send_opcode_iff {cfg : Config} {e₀ e : SenderCtx F} {as : List (TxAction F)}
    (h₀ : Initial e₀) (hrun : runFrom (engStep cfg) e₀ as = .ok e)
    {before after : List (Post F)} {p : Post F} (hsq : e.sq = before ++ p :: after)
    (hp : p.user = .message ∨ p.user = .wheel) :
    p.opcode = .RDMA_WRITE_WITH_IMM ↔ ∀ q ∈ before, q.buff = p.buff → q.user ≠ .write ∧ q.user ≠ .read := by
  have h : OpcodesOk e := runFrom_invariant (stepwise_opcodesOk cfg).step (opcodesOk_initial h₀) hrun
  rw [h.posts before p after hsq hp]
  constructor
  · intro hno q hq hb
    exact ⟨fun hw => hno ⟨q, hq, hb, .inl hw⟩, fun hr => hno ⟨q, hq, hb, .inr hr⟩⟩
  · rintro hall ⟨q, hq, hb, hone⟩
    obtain ⟨hw, hr⟩ := hall q hq hb
    exact hone.elim hw hr

-- ── A send with the opcode of a write

/-- Request `id` is a send of length 0. -/
def ZeroSend (e : SenderCtx F) (id : ReqId) : Prop := (e.ureqs id).type = .ReqTx ∧ (e.ureqs id).dataLen = 0

/-- A send of length 0 takes the oldest buffer of the pool and posts it as it is. -/
theorem engStep_tx_zero_length (cfg : Config) (hbypass : cfg.bypassPacing = true)
    (hzero : ZeroSend e id) (hpool : e.wrExPool = w :: pool) (cs : ℕ → TxChoice) :
    ∃ e' p, engStep cfg e (.tx id cs) = .ok e' ∧ e'.wrExPool = pool ∧ ZeroSend e' id ∧ e'.sq = e.sq ++ [p] ∧
      p.user = .message ∧ (p.buff, p.opcode) = key w := by
  obtain ⟨htype, hlen⟩ := hzero
  have hchunk := txMessageChunk_eq cfg (.inr hlen) hpool (cs 0)
  have hstep : engStep cfg e (.tx id cs) =
      .ok (accountChunk (placeChunk cfg e id (cs 0) w pool) (e.ureqs id).context id (admitted cfg e id)) := by
    simp only [engStep, txMessage, htype, senderCCTxMessage, txTurns, txLoop, hlen, hchunk,
      Nat.zero_sub, or_true, if_true]
  have hplace : ∃ e1 f w', placeChunk cfg e id (cs 0) w pool =
      transmitChunk cfg e1 f id w' .message (cs 0) ∧ e1.sq = e.sq ∧ e1.wrExPool = pool ∧ key w' = key w := by
    unfold placeChunk
    dsimp only
    rw [hbypass, Bool.true_or]
    exact ⟨_, _, _, rfl, rfl, rfl, rfl⟩
  obtain ⟨e1, f, w', hplace, hsq, hpool1, hkey⟩ := hplace
  have hsent := sq_transmitChunk cfg e1 f id w' .message (cs 0)
  refine ⟨_, postOf .message { w' with qpidx := (cs 0).qpidx }, hstep, ?_, ⟨?_, ?_⟩, ?_, rfl, hkey⟩
  · show (placeChunk cfg e id (cs 0) w pool).wrExPool = pool
    rw [hplace, hsent.2, hpool1]
  · rw [ureqs_accountChunk, Function.update_self, ureqs_placeChunk]
    exact htype
  · rw [ureqs_accountChunk, Function.update_self, ureqs_placeChunk]
    exact hlen
  · show (placeChunk cfg e id (cs 0) w pool).sq = _
    rw [hplace, hsent.1, hsq]

/-- As many sends of length 0 as there are buffers ahead of the rest of the pool use these up. -/
theorem runFrom_tx_zero_length (cfg : Config) (hbypass : cfg.bypassPacing = true)
    (cs : ℕ → TxChoice) {rest : List (WrEx F)} :
    ∀ (ws : List (WrEx F)) (e : SenderCtx F), ZeroSend e id → e.wrExPool = ws ++ rest →
      ∃ e' ps, runFrom (engStep cfg) e (List.replicate ws.length (.tx id cs)) = .ok e' ∧
        e'.wrExPool = rest ∧ ZeroSend e' id ∧ e'.sq = e.sq ++ ps ∧ ∀ p ∈ ps, p.user = .message := by
  intro ws
  induction ws with
  | nil => intro e hzero hpool; exact ⟨e, [], rfl, hpool, hzero, (append_nil _).symm, forall_mem_nil _⟩
  | cons w ws ih =>
    intro e hzero hpool
    obtain ⟨e1, p, hstep, hpool1, hzero1, hsq1, huser, -⟩ := engStep_tx_zero_length cfg hbypass hzero hpool cs
    obtain ⟨e', ps, hrun, hrest, hzero', hsq, husers⟩ := ih e1 hzero1 hpool1
    refine ⟨e', p :: ps, (runFrom_cons_ok hstep _).trans hrun, hrest, hzero', ?_, forall_mem_cons.mpr ⟨huser, husers⟩⟩
    rw [hsq, hsq1, append_assoc, singleton_append]

/-- RC mode on a RoCE link: 64 KB chunks, pacing bypassed. -/
def rcConfig : Config := { defaultConfig with rcMode := true }

/-- Request 0 is a write of one byte, all others are sends of length 0. -/
def writeThenSends : SenderCtx Unit :=
  freshEngine (fun _ => ()) fun id =>
    if id = 0 then freshRequest .ReqWrite () 1 else freshRequest .ReqTx () 0

theorem initial_writeThenSends : Initial writeThenSends := by
  refine initial_freshEngine _ fun id => ?_
  split
  · exact ⟨rfl, rfl⟩
  · exact ⟨rfl, rfl⟩

/-- A request is posted and completed; then one send for each buffer that is ahead of
    its own in the pool; then one more. -/
def recycledRun (id : ReqId) : List (TxAction Unit) :=
  [.tx id fun _ => {}, .rcAck (0, ())] ++ (List.replicate 4094 (.tx 1 fun _ => {}) ++ [.tx 1 fun _ => {}])

/-- The last send of `recycledRun` takes the buffer of the request. -/
theorem recycledRun_last (id : ReqId) (user : TxUser) (k : Key) (hobs : observe (fun e =>
      ((e.wrExPool.dropLast.length, e.wrExPool.getLast?.map key), ((e.ureqs 1).type, (e.ureqs 1).dataLen),
        e.sq.map fun p => (p.user, p.buff)))
      (runFrom (engStep rcConfig) writeThenSends [.tx id fun _ => {}, .rcAck (0, ())]) =
    some ((4094, some k), (.ReqTx, 0), [(user, k.1)])) :
    ∃ e q ps p, runFrom (engStep rcConfig) writeThenSends (recycledRun id) = .ok e ∧ e.sq = (q :: ps) ++ [p] ∧
      (q.user, q.buff) = (user, k.1) ∧ (∀ q ∈ ps, q.user = .message) ∧ p.user = .message ∧ (p.buff, p.opcode) = k := by
  obtain ⟨e₁, hrun₁, hobs⟩ := exists_of_observe hobs
  simp only [Prod.mk.injEq] at hobs
  obtain ⟨⟨hlen, hlast⟩, ⟨htype, hzero⟩, hsq₁⟩ := hobs
  obtain ⟨q, hq, hfirst⟩ := map_eq_singleton_iff.mp hsq₁
  obtain ⟨w, hw, hkey⟩ := Option.map_eq_some_iff.mp hlast
  have hpool : e₁.wrExPool = e₁.wrExPool.dropLast ++ [w] := (dropLast_append_getLast? w hw).symm
  obtain ⟨e₂, ps, hrun₂, hpool₂, hzero₂, hsq₂, husers⟩ :=
    runFrom_tx_zero_length rcConfig rfl (fun _ => {}) e₁.wrExPool.dropLast e₁ ⟨htype, hzero⟩ hpool
  obtain ⟨e₃, p, hstep, -, -, hsq₃, huser, hpkey⟩ := engStep_tx_zero_length rcConfig rfl hzero₂ hpool₂ fun _ => {}
  rw [hlen] at hrun₂
  refine ⟨e₃, q, ps, p, ?_, ?_, hfirst, husers, huser, hpkey.trans hkey⟩
  · unfold recycledRun
    rw [runFrom_append hrun₁, runFrom_append hrun₂, runFrom_cons_ok hstep]
    rfl
  · rw [hsq₃, hsq₂, hq, singleton_append]

/-- The buffer of a send comes back to a send: it goes out as a write with immediate again. -/
theorem send_opcode_iff_recycled : ∃ e q ps p,
    runFrom (engStep rcConfig) writeThenSends (recycledRun 2) = .ok e ∧ e.sq = (q :: ps) ++ [p] ∧
      q.buff = p.buff ∧ p.user = .message ∧ p.opcode = .RDMA_WRITE_WITH_IMM := by
  obtain ⟨e, q, ps, p, hrun, hsq, hfirst, husers, huser, hkey⟩ :=
    recycledRun_last 2 .message (0, .RDMA_WRITE_WITH_IMM) (by decide +kernel)
  obtain ⟨hquser, hqbuff⟩ := Prod.mk.injEq .. ▸ hfirst
  refine ⟨e, q, ps, p, hrun, hsq, hqbuff.trans (congrArg Prod.fst hkey).symm, huser, ?_⟩
  refine (send_opcode_iff initial_writeThenSends hrun hsq (.inl huser)).mpr fun r hr _ => ?_
  have hmessage : r.user = .message := (mem_cons.mp hr).elim (fun heq => heq ▸ hquser) (husers r)
  rw [hmessage]
  exact ⟨nofun, nofun⟩

/-- **A SEND GOES OUT AS A PLAIN WRITE**: its immediate, with it the completion at the receiver, is gone. -/
theorem recycled_send_is_write : Initial writeThenSends ∧
    ∃ e, runFrom (engStep rcConfig) writeThenSends (recycledRun 0) = .ok e ∧
      ∃ p ∈ e.sq, p.user = .message ∧ p.opcode = .RDMA_WRITE := by
  obtain ⟨e, q, ps, p, hrun, hsq, -, -, huser, hkey⟩ :=
    recycledRun_last 0 .write (0, .RDMA_WRITE) (by decide +kernel)
  refine ⟨initial_writeThenSends, e, hrun, p, ?_, huser, congrArg Prod.snd hkey⟩
  rw [hsq]
  exact mem_append_right _ (mem_singleton_self p)

end RdmaOpcode
