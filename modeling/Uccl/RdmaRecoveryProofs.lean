import Uccl.RdmaExactlyOnceProofs

/-! # Recovery from a lost ACK

    The receiver has chunks whose ACK was lost, and nothing is in flight. The sender's timer fires, it sends
    chunks again, they arrive, ACKs are posted and arrive: does `snd_una` move?

    Not always. `uc_rx_rtx_chunk` returns from each of its drop branches before it reaches `list_add_tail` of
    the ACK list, so a copy of a chunk that was accepted causes no ACK. `recovery_advances_iff` says exactly
    when the round helps: an ACK was queued already, or one of the chunks sent again — a hole in the SACK
    bitmap that the sender stored — is missing at the receiver (`AckForthcoming`). `lost_ack_wedges` is the
    smallest state in which neither is the case. -/

namespace RdmaRecovery

open RdmaPcb RdmaImm RdmaTimer RdmaState RdmaTransmit RdmaAck RdmaEngine RdmaTracking List Except
  RdmaReceive RdmaReassembly RdmaChannel RdmaDelivery RdmaExactlyOnce Segmentation WordBitmap
  StepRun

-- ── What a retransmission round posts

/-- Position `i` of the bitmap is a hole: it is clear, and a later one is set. -/
def Hole (b : SackBitmap) (i : ℕ) : Prop :=
  testBit b i = false ∧ ∃ j, i < j ∧ testBit b j = true

/-- **THE WALK OVER THE BITMAP** posts the chunks at the holes. -/
theorem sackHoleLoop_posts {f : Unit} {b : SackBitmap} {base : UintCsn} {l : List (ChunkTrack Unit)}
    (hcsn : ∀ i t, l[i]? = some t → base + BitVec.ofNat 8 i = t.csn) :
    ∀ (n index : ℕ) (e : SenderCtx Unit) (done : Bool) (r : SenderCtx Unit × Bool),
      (e.flows f).unackedChunks = l → index + n = 128 →
      sackHoleLoop f b base (fun _ e => e) n index (popCountFrom b index) e done = .ok r →
      ∃ ps, r.1.sq = e.sq ++ ps ∧ ∀ p, p ∈ ps ↔
        ∃ i t, index ≤ i ∧ Hole b i ∧ l[i]? = some t ∧ p = rtxPost t.wrEx := by
  intro n
  induction n with
  | zero =>
    intro index e done r _ hn h
    cases h
    refine ⟨[], (append_nil _).symm, fun p => ⟨fun hp => absurd hp not_mem_nil, ?_⟩⟩
    rintro ⟨i, t, hi, ⟨-, j, hj, hset⟩, -⟩
    have := lt_of_testBit (by decide) hset
    omega
  | succ n ih =>
    intro index e done r hl hn h
    have hindex : index < 64 * 2 := by omega
    simp only [sackHoleLoop] at h
    split at h
    · next hstop =>
      cases h
      refine ⟨[], (append_nil _).symm, fun p => ⟨fun hp => absurd hp not_mem_nil, ?_⟩⟩
      rintro ⟨i, t, hi, ⟨-, j, hj, hset⟩, ht, -⟩
      rcases hstop with hzero | hempty
      · have hpos : 0 < popCountFrom b index := popCountFrom_pos_iff.mpr
          ⟨j, by omega, lt_of_testBit (by decide) hset, hset⟩
        omega
      · rw [hl, List.isEmpty_iff] at hempty
        rw [hempty] at ht
        cases ht
    · next hgo =>
      obtain ⟨hcount, -⟩ := not_or.mp hgo
      split at h
      · next hset =>
        rw [popCountFrom_of_set hindex hset] at h
        obtain ⟨ps, hsq, hps⟩ := ih (index + 1) e done r hl (by omega) h
        refine ⟨ps, hsq, fun p => (hps p).trans ?_⟩
        constructor
        · rintro ⟨i, t, hi, hrest⟩
          exact ⟨i, t, by omega, hrest⟩
        · rintro ⟨i, t, hi, hhole, hrest⟩
          refine ⟨i, t, Nat.lt_of_le_of_ne hi ?_, hhole, hrest⟩
          rintro rfl
          cases hset.symm.trans hhole.1
      · next hclear =>
        have hclear := Bool.eq_false_iff.mpr hclear
        rw [popCountFrom_of_clear hindex hclear] at h hcount
        obtain ⟨j, hj, -, hset⟩ := popCountFrom_pos_iff.mp (Nat.pos_of_ne_zero hcount)
        split at h
        · cases h
        · next chunk hchunk =>
          rw [hl] at hchunk
          rw [if_pos (hcsn index chunk hchunk)] at h
          obtain ⟨ps, hsq, hps⟩ := ih (index + 1)
            (tryRetransmitChunk e chunk.wrEx) true r hl (by omega) h
          refine ⟨rtxPost chunk.wrEx :: ps, ?_, fun p => ?_⟩
          · rw [hsq]
            exact append_assoc ..
          · rw [mem_cons, hps p]
            constructor
            · rintro (rfl | ⟨i, t, hi, hrest⟩)
              · exact ⟨index, chunk, le_rfl, ⟨hclear, j, hj, hset⟩, hchunk, rfl⟩
              · exact ⟨i, t, by omega, hrest⟩
            · rintro ⟨i, t, hi, hhole, ht, rfl⟩
              rcases Nat.lt_or_eq_of_le hi with hlt | rfl
              · exact .inr ⟨i, t, hlt, hhole, ht, rfl⟩
              · rw [Option.some.inj (hchunk.symm.trans ht)]
                exact .inl rfl

/-- The `i`-th tracked chunk has the CSN the walk expects. -/
theorem base_add_eq_csn {sf : SubUcclFlow Unit} {tx : ℕ} (h : TrackedAt sf tx) {i : ℕ}
    {t : ChunkTrack Unit} (ht : sf.unackedChunks[i]? = some t) :
    sf.pcb.txSackBitmapBase.setWidth 8 + BitVec.ofNat 8 i = t.csn := by
  rw [h.csn_eq ht, h.base, BitVec.setWidth_setWidth_of_le _ (by decide), BitVec.setWidth_eq, h.una, csnOf_add]

theorem sq_rearmTimerForFlow (e : SenderCtx Unit) (f : Unit) (now : ℕ) : (rearmTimerForFlow e f now).sq = e.sq := by
  unfold rearmTimerForFlow armTimerForFlow
  split
  · rfl
  · split <;> rfl

/-- Without a set bit the oldest chunk is sent again, otherwise those at the holes. -/
def SentAgain (pcb : PCB) (i : ℕ) : Prop :=
  Hole pcb.txSackBitmap i ∨ pcb.txSackBitmapCount = 0 ∧ i = 0

theorem retransmitForFlow_posts {e e' : SenderCtx Unit} {tx : ℕ}
    (h : TrackedAt (e.flows ()) tx) {rto : Bool} {now : ℕ} (hrun : retransmitForFlow e () rto now = .ok e') :
    ∃ ps, e'.sq = e.sq ++ ps ∧ ∀ p, p ∈ ps ↔ ∃ i t, SentAgain (e.flows ()).pcb i ∧
      (e.flows ()).unackedChunks[i]? = some t ∧ p = rtxPost t.wrEx := by
  simp only [retransmitForFlow] at hrun
  split at hrun
  · next hnil =>
    rw [← ok.inj hrun, hnil]
    refine ⟨[], (append_nil _).symm, fun p => ⟨fun hp => absurd hp not_mem_nil, ?_⟩⟩
    rintro ⟨i, t, -, ht, -⟩
    cases ht
  · next oldest rest hchunks =>
    split at hrun
    · next hzero =>
      -- no bit is set, so there is no hole
      have hnone : ∀ i, ¬ Hole (e.flows ()).pcb.txSackBitmap i := by
        rintro i ⟨-, j, -, hset⟩
        have hpos := popCountFrom_pos_iff.mpr
          ⟨j, Nat.zero_le j, lt_of_testBit (by decide) hset, hset⟩
        rw [popCountFrom_zero, ← h.count, hzero] at hpos
        exact Nat.lt_irrefl 0 hpos
      refine ⟨[rtxPost oldest.wrEx], ?_, fun p => ?_⟩
      · cases hrun
        exact sq_rearmTimerForFlow ..
      · rw [mem_singleton, hchunks]
        constructor
        · rintro rfl
          exact ⟨0, oldest, .inr ⟨hzero, rfl⟩, rfl, rfl⟩
        · rintro ⟨i, t, hagain, ht, rfl⟩
          rcases hagain with hhole | ⟨-, rfl⟩
          · exact absurd hhole (hnone i)
          · rw [← Option.some.inj ht]
    · next hcount =>
      split at hrun
      · cases hrun
      · next e1 done hloop =>
        rw [h.count] at hloop
        obtain ⟨ps, hsq, hps⟩ := sackHoleLoop_posts (fun _ _ => base_add_eq_csn h) _ 0 e false
          (e1, done) rfl rfl hloop
        refine ⟨ps, ?_, fun p => (hps p).trans ?_⟩
        · cases hrun
          split
          · exact (sq_rearmTimerForFlow ..).trans hsq
          · exact (sq_rearmTimerForFlow ..).trans hsq
        · constructor
          · rintro ⟨i, t, -, hhole, hrest⟩
            exact ⟨i, t, .inl hhole, hrest⟩
          · rintro ⟨i, t, hagain, hrest⟩
            rcases hagain with hhole | ⟨hzero, -⟩
            · exact ⟨i, t, Nat.zero_le i, hhole, hrest⟩
            · exact absurd hzero hcount

-- ── One round

/-- The ACKs that `uc_post_acks` adds in `s₁` to those posted in `s`. -/
def newAcks (s s₁ : Channel) : List ℕ :=
  List.range' s.rcv.acks.length ((ucPostAcks s₁.rcv).acks.length - s.rcv.acks.length)

/-- **ONE ROUND OF RECOVERY**: an RTO retransmission, everything it posts arrives in any
    order the QPs allow, the ACKs are posted, and every new one arrives. -/
def Round (cfg : Config) (now : ℕ) (s t : Channel) : Prop :=
  ∃ (qs : List ℕ) (s₁ : Channel),
    runFrom (chStep cfg) s (.retransmit true now :: qs.map .deliver) = .ok s₁ ∧ s₁.wire = [] ∧
    runFrom (chStep cfg) s₁ (.postAcks :: (newAcks s s₁).map fun k => .ack k now) = .ok t

/-- The receiver has an ACK queued, or it misses a chunk that the sender will send again
    because of a hole in its copy of the SACK bitmap. -/
def AckForthcoming (s : Channel) : Prop :=
  () ∈ s.rcv.ackList ∨ ∃ i, Hole (s.snd.flows ()).pcb.txSackBitmap i ∧
    (s.snd.flows ()).ackedChunks + i ∉ acceptedSeqs s.rcv

section

variable {cfg : Config} {lens : ReqId → ℕ} {s u : Channel}

-- ── The copies arrive

/-- What is in flight are copies of chunks not below `snd_una`. -/
def OnlyCopies (s : Channel) : Prop :=
  ∀ p ∈ s.wire, p.opcode = .SEND ∧ (s.snd.flows ()).ackedChunks ≤ p.seq

/-- `u` is reached from `s` when some of what is in flight arrives: an ACK is queued by
    then if it was before or if something new was accepted. -/
structure Draining (cfg : Config) (lens : ReqId → ℕ) (s u : Channel) : Prop where
  ok : ChanOk cfg lens u
  snd : u.snd = s.snd
  acks : u.rcv.acks = s.rcv.acks
  wire : u.wire ⊆ s.wire
  le : (s.rcv.flows ()).rcvdChunks ≤ (u.rcv.flows ()).rcvdChunks
  old : acceptedSeqs s.rcv ⊆ acceptedSeqs u.rcv
  new : ∀ k ∈ acceptedSeqs u.rcv, k ∈ acceptedSeqs s.rcv ∨ ∃ p ∈ s.wire, p.seq = k
  arrived : ∀ p ∈ s.wire, p ∈ u.wire ∨ p.seq ∈ acceptedSeqs u.rcv
  queued : () ∈ u.rcv.ackList ↔ () ∈ s.rcv.ackList ∨
    ∃ k ∈ acceptedSeqs u.rcv, k ∉ acceptedSeqs s.rcv

theorem Draining.refl (h : ChanOk cfg lens s) : Draining cfg lens s s where
  ok := h
  snd := rfl
  acks := rfl
  wire := List.Subset.refl _
  le := le_rfl
  old := List.Subset.refl _
  new _ hk := .inl hk
  arrived _ hp := .inl hp
  queued := ⟨.inl, fun h => h.elim id fun ⟨_, hk, hnot⟩ => absurd hk hnot⟩

/-- One more copy arrives. -/
theorem Draining.step (hUC : cfg.rcMode = false) (hwin : InWindow s) (hcopies : OnlyCopies s)
    (h : Draining cfg lens s u) {q : ℕ} {p : Post Unit}
    (hfind : u.wire.find? (fun p => decide (p.qpidx = q)) = some p) :
    ∃ u', chStep cfg u (.deliver q) = .ok u' ∧ Draining cfg lens s u' ∧
      u'.wire = u.wire.eraseP fun p => decide (p.qpidx = q) := by
  have hmem : p ∈ s.wire := h.wire (mem_of_find?_eq_some hfind)
  obtain ⟨hop, hseq⟩ := hcopies p hmem
  have hwin' : InWindow u := by
    unfold InWindow
    rw [h.snd]
    exact hwin
  have htimely : CopyTimely u (.deliver q) := by
    intro p' hp' _
    rw [hfind] at hp'
    obtain ⟨L, hr, -⟩ := h.ok.rcv
    have hle := hr.le_tx
    have htx := h.ok.snd.tracked.tx_le
    unfold InWindow at hwin'
    rw [← Option.some.inj hp']
    rw [← h.snd] at hseq
    omega
  obtain ⟨pre, post, hwire, -, -, herase⟩ := wire_split hfind
  have hsub : ∀ p' ∈ pre ++ post, p' ∈ s.wire := by
    intro p' hp'
    refine h.wire ?_
    rw [hwire]
    exact mem_append.mpr ((mem_append.mp hp').imp_right (mem_cons_of_mem _))
  have hleft : ∀ p' ∈ u.wire, p' ∈ pre ++ post ∨ p' = p := by
    intro p' hp'
    rw [hwire] at hp'
    rcases mem_append.mp hp' with hp' | hp'
    · exact .inl (mem_append_left _ hp')
    · rcases mem_cons.mp hp' with hp' | hp'
      · exact .inr hp'
      · exact .inl (mem_append_right _ hp')
  obtain ⟨e, hrun, hok, hle, hcase⟩ := h.ok.deliver_spec hUC hwin' htimely hfind
  refine ⟨_, hrun, ?_, rfl⟩
  rcases hcase with ⟨hnew, hseqs, hsend⟩ | ⟨hold, rfl⟩
  · obtain ⟨hacks, hqueued⟩ := hsend hop
    have hmem' : ∀ k, k ∈ acceptedSeqs e ↔ k ∈ acceptedSeqs u.rcv ∨ k = p.seq := by
      intro k
      rw [hseqs, mem_append, mem_singleton]
    refine ⟨hok, h.snd, hacks.trans h.acks, ?_, le_trans h.le hle,
      fun k hk => (hmem' k).mpr (.inl (h.old hk)), ?_, ?_, ?_⟩
    · rw [herase]
      exact hsub
    · intro k hk
      rcases (hmem' k).mp hk with hk | rfl
      · exact h.new k hk
      · exact .inr ⟨p, hmem, rfl⟩
    · intro p' hp'
      rw [herase]
      rcases h.arrived p' hp' with hw | hacc
      · rcases hleft p' hw with hw | rfl
        · exact .inl hw
        · exact .inr ((hmem' _).mpr (.inr rfl))
      · exact .inr ((hmem' _).mpr (.inl hacc))
    · exact ⟨fun _ => .inr ⟨p.seq, (hmem' _).mpr (.inr rfl), fun hk => hnew (h.old hk)⟩, fun _ => hqueued⟩
  · refine ⟨hok, h.snd, h.acks, ?_, le_trans h.le hle, h.old, h.new, fun p' hp' => ?_, h.queued⟩
    · rw [herase]
      exact hsub
    · rw [herase]
      rcases h.arrived p' hp' with hw | hacc
      · rcases hleft p' hw with hw | rfl
        · exact .inl hw
        · exact .inr hold
      · exact .inr hacc

/-- Whatever order they arrive in. -/
theorem Draining.run (hUC : cfg.rcMode = false) (hwin : InWindow s) (hcopies : OnlyCopies s)
    {qs : List ℕ} {t : Channel} (h : Draining cfg lens s u)
    (hrun : runFrom (chStep cfg) u (qs.map .deliver) = .ok t) : Draining cfg lens s t := by
  induction qs generalizing u with
  | nil =>
    cases hrun
    exact h
  | cons q qs ih =>
    obtain ⟨u', hstep, hrest⟩ := runFrom_cons_inv hrun
    cases hfind : u.wire.find? fun p => decide (p.qpidx = q) with
    | none =>
      simp only [chStep, deliver, hfind] at hstep
      cases hstep
    | some p =>
      obtain ⟨u1, hstep', h', -⟩ := h.step hUC hwin hcopies hfind
      rw [ok.inj (hstep.symm.trans hstep')] at hrest
      exact ih h' hrest

/-- And they can all arrive. -/
theorem Draining.empties (hUC : cfg.rcMode = false) (hwin : InWindow s)
    (hcopies : OnlyCopies s) (h : Draining cfg lens s u) :
    ∃ (qs : List ℕ) (t : Channel), runFrom (chStep cfg) u (qs.map .deliver) = .ok t ∧ t.wire = [] := by
  induction hn : u.wire.length generalizing u with
  | zero => exact ⟨[], u, rfl, eq_nil_of_length_eq_zero hn⟩
  | succ n ih =>
    cases hwire : u.wire with
    | nil =>
      rw [hwire] at hn
      cases hn
    | cons p rest =>
      have hself : (fun p' : Post Unit => decide (p'.qpidx = p.qpidx)) p = true := decide_eq_true rfl
      have hfind : u.wire.find? (fun p' => decide (p'.qpidx = p.qpidx)) = some p := by
        rw [hwire]
        exact find?_cons_of_pos hself
      obtain ⟨u', hstep, h', hwire'⟩ := h.step hUC hwin hcopies hfind
      rw [hwire, eraseP_cons_of_pos (p := fun p' : Post Unit => decide (p'.qpidx = p.qpidx)) hself] at hwire'
      rw [hwire] at hn
      obtain ⟨qs, t, hrun, hempty⟩ := ih h' (by rw [hwire']; exact Nat.succ.inj hn)
      exact ⟨p.qpidx :: qs, t, (runFrom_cons_ok hstep _).trans hrun, hempty⟩

-- ── The ACKs arrive

/-- ACKs for everything up to `rcv_nxt` arrive: if there is one, `snd_una` gets there. -/
theorem acks_run (h : ChanOk cfg lens s) (hwin : InWindow s) (now : ℕ) {ks : List ℕ}
    (hks : ∀ k ∈ ks, ∃ hdr, s.rcv.acks[k]? = some hdr ∧ hdr.seq = (s.rcv.flows ()).rcvdChunks) :
    ∃ t, runFrom (chStep cfg) s (ks.map fun k => .ack k now) = .ok t ∧ ChanOk cfg lens t ∧
      (t.snd.flows ()).ackedChunks =
        if ks = [] then (s.snd.flows ()).ackedChunks else (s.rcv.flows ()).rcvdChunks := by
  induction ks generalizing s with
  | nil => exact ⟨s, rfl, h, (if_pos rfl).symm⟩
  | cons k ks ih =>
    obtain ⟨⟨hdr, hk, hseq⟩, hks⟩ := forall_mem_cons.mp hks
    have hle := h.acked_le
    have hsize : kSackBitmapSize = 128 := rfl
    obtain ⟨e, hrun, hok, hsent, hacked⟩ := h.ack_spec hwin hk (by omega) now
    rw [hseq, Nat.max_eq_right hle] at hacked
    have hwin' : InWindow (s.withSnd e) := by
      unfold InWindow at hwin ⊢
      show (e.flows ()).sentChunks < (e.flows ()).ackedChunks + kSackBitmapSize
      omega
    obtain ⟨t, hrest, hok', hfinal⟩ := ih hok hwin' hks
    refine ⟨t, (runFrom_cons_ok hrun _).trans hrest, hok', hfinal.trans ?_⟩
    split
    · exact hacked
    · rfl

/-- `uc_post_acks` posts an ACK for everything up to `rcv_nxt` if one is queued. -/
theorem newAcks_spec {s₁ : Channel} (hacks : s₁.rcv.acks = s.rcv.acks) : (newAcks s s₁ = [] ↔ () ∉ s₁.rcv.ackList) ∧
    ∀ k ∈ newAcks s s₁, ∃ hdr, (ucPostAcks s₁.rcv).acks[k]? = some hdr ∧ hdr.seq = (s₁.rcv.flows ()).rcvdChunks := by
  have hlen : (ucPostAcks s₁.rcv).acks.length - s.rcv.acks.length = s₁.rcv.ackList.length := by
    rw [ucPostAcks_eq]
    rw [length_append, length_map, hacks, Nat.add_sub_cancel_left]
  unfold newAcks
  rw [hlen]
  refine ⟨?_, fun k hk => ?_⟩
  · cases s₁.rcv.ackList with
    | nil => exact ⟨fun _ => not_mem_nil, fun _ => rfl⟩
    | cons x xs => exact ⟨nofun, fun hnot => absurd (mem_cons_self) hnot⟩
  · obtain ⟨i, hi, rfl⟩ := mem_range'.mp hk
    have hget := getElem?_eq_getElem hi
    rw [Nat.one_mul, ucPostAcks_eq]
    refine ⟨craftAck (s₁.rcv.flows ()), ?_, rfl⟩
    rw [hacks, getElem?_append_right (Nat.le_add_right _ _), Nat.add_sub_cancel_left, getElem?_map, hget]
    rfl

/-- The ACKs are posted and arrive. -/
theorem postAcks_run (h : ChanOk cfg lens u) (hwin : InWindow u) (hacks : u.rcv.acks = s.rcv.acks) (now : ℕ) :
    ∃ t, runFrom (chStep cfg) u (.postAcks :: (newAcks s u).map fun k => .ack k now) = .ok t ∧ ChanOk cfg lens t ∧
      (t.snd.flows ()).ackedChunks = if () ∈ u.rcv.ackList then (u.rcv.flows ()).rcvdChunks
        else (u.snd.flows ()).ackedChunks := by
  obtain ⟨hnil, hnew⟩ := newAcks_spec hacks
  obtain ⟨L, hr, hpos⟩ := h.rcv
  have hposted := hr.ucPostAcks hpos
  have hrcvd : ((ucPostAcks u.rcv).flows ()).rcvdChunks = (u.rcv.flows ()).rcvdChunks := by
    rw [ucPostAcks_eq]
  have hok : ChanOk cfg lens { u with rcv := ucPostAcks u.rcv } := by
    rw [ucPostAcks_eq] at hposted ⊢
    exact { h with rcv := ⟨L, hposted, hpos⟩ }
  rw [← hrcvd] at hnew ⊢
  obtain ⟨t, hrun, hok', hacked⟩ := acks_run hok hwin now hnew
  refine ⟨t, (runFrom_cons_ok rfl _).trans hrun, hok', hacked.trans ?_⟩
  by_cases hq : () ∈ u.rcv.ackList
  · rw [if_pos hq, if_neg fun h => hnil.mp h hq]
  · rw [if_neg hq, if_pos (hnil.mpr hq)]

-- ── The round

/-- What the retransmission puts in flight. -/
theorem retransmit_spec (h : ChanOk cfg lens s) (hwire : s.wire = []) (now : ℕ) :
    ∃ e, chStep cfg s (.retransmit true now) = .ok (s.withSnd e) ∧ ChanOk cfg lens (s.withSnd e) ∧
      (e.flows ()).sentChunks = (s.snd.flows ()).sentChunks ∧
      (e.flows ()).ackedChunks = (s.snd.flows ()).ackedChunks ∧
      OnlyCopies (s.withSnd e) ∧
      ∀ k, (∃ p ∈ (s.withSnd e).wire, p.seq = k) ↔
        ∃ i, SentAgain (s.snd.flows ()).pcb i ∧ i < (s.snd.flows ()).unackedChunks.length ∧
          k = (s.snd.flows ()).ackedChunks + i := by
  obtain ⟨e, hrun⟩ := retransmitForFlow_ok h.snd.tracked true now
  have hresent := resent_retransmitForFlow hrun
  obtain ⟨_, _, _, _, hflow⟩ := hresent.self
  obtain ⟨ps, hsq, hps⟩ := retransmitForFlow_posts h.snd.tracked hrun
  have hposts : (s.withSnd e).wire = ps := by rw [wire_withSnd hsq, hwire, nil_append]
  have hseq : ∀ {i t}, (s.snd.flows ()).unackedChunks[i]? = some t →
      (rtxPost t.wrEx).seq = (s.snd.flows ()).ackedChunks + i := by
    intro i t ht
    obtain ⟨_, _, hholds, -⟩ := h.snd.chunks.get ht
    exact hholds.seq
  refine ⟨e, ?_, h.resent hresent, by rw [hflow], by rw [hflow], fun p hp => ?_, fun k => ?_⟩
  · simp only [chStep, hrun]
  · rw [hposts] at hp
    obtain ⟨i, t, -, ht, rfl⟩ := (hps p).mp hp
    refine ⟨rfl, ?_⟩
    show (e.flows ()).ackedChunks ≤ _
    rw [hseq ht, hflow]
    exact Nat.le_add_right _ _
  · rw [hposts]
    constructor
    · rintro ⟨p, hp, rfl⟩
      obtain ⟨i, t, hagain, ht, rfl⟩ := (hps p).mp hp
      have hi := lt_length ht
      exact ⟨i, hagain, hi, hseq ht⟩
    · rintro ⟨i, hagain, hi, rfl⟩
      have ht := getElem?_eq_getElem hi
      exact ⟨_, (hps _).mpr ⟨i, _, hagain, ht, rfl⟩, hseq ht⟩

/-- Something that is sent again is missing exactly if a hole is. -/
theorem missing_iff (h : ChanOk cfg lens s) (hahead : (s.snd.flows ()).ackedChunks < (s.rcv.flows ()).rcvdChunks) :
    (∃ i, SentAgain (s.snd.flows ()).pcb i ∧ i < (s.snd.flows ()).unackedChunks.length ∧
      (s.snd.flows ()).ackedChunks + i ∉ acceptedSeqs s.rcv) ↔
    ∃ i, Hole (s.snd.flows ()).pcb.txSackBitmap i ∧ (s.snd.flows ()).ackedChunks + i ∉ acceptedSeqs s.rcv := by
  constructor
  · rintro ⟨i, hhole | ⟨-, rfl⟩, -, hnot⟩
    · exact ⟨i, hhole, hnot⟩
    · -- the oldest chunk is below `rcv_nxt`
      obtain ⟨L, hr, -⟩ := h.rcv
      exact absurd ((hr.seqs _).mpr (.inl hahead)) hnot
  · rintro ⟨i, hhole, hnot⟩
    obtain ⟨-, j, hij, hset⟩ := id hhole
    have hbit := h.snd.tracked.bits j hset
    have hlen := h.snd.tracked.length
    exact ⟨i, .inl hhole, by omega, hnot⟩

/-- **WHAT A ROUND DOES**: it can be carried out, and however it is, `snd_una` moves up if
    an ACK was forthcoming and stays where it is otherwise. -/
theorem round_spec (hUC : cfg.rcMode = false) (h : ChanOk cfg lens s) (hwin : InWindow s) (hwire : s.wire = [])
    (hahead : (s.snd.flows ()).ackedChunks < (s.rcv.flows ()).rcvdChunks) (now : ℕ) :
    (∃ t, Round cfg now s t) ∧ ∀ t, Round cfg now s t → ChanOk cfg lens t ∧
      (AckForthcoming s → (s.snd.flows ()).ackedChunks < (t.snd.flows ()).ackedChunks) ∧
      (¬ AckForthcoming s → (t.snd.flows ()).ackedChunks = (s.snd.flows ()).ackedChunks) ∧
      (t.snd.flows ()).ackedChunks ≤ (s.snd.flows ()).sentChunks := by
  obtain ⟨e, hfirst, hok, hsent, hacked, hcopies, hposts⟩ := retransmit_spec h hwire now
  have hwin1 : InWindow (s.withSnd e) := by
    show (e.flows ()).sentChunks < (e.flows ()).ackedChunks + kSackBitmapSize
    rw [hsent, hacked]
    exact hwin
  have hwin2 : ∀ {u}, Draining cfg lens (s.withSnd e) u → InWindow u := by
    intro u hd
    unfold InWindow
    rw [hd.snd]
    exact hwin1
  refine ⟨?_, ?_⟩
  · obtain ⟨qs, u, hrun, hempty⟩ := (Draining.refl hok).empties hUC hwin1 hcopies
    have hd := (Draining.refl hok).run hUC hwin1 hcopies hrun
    obtain ⟨t, hlast, -⟩ := postAcks_run (s := s) hd.ok (hwin2 hd) hd.acks now
    exact ⟨t, qs, u, (runFrom_cons_ok hfirst _).trans hrun, hempty, hlast⟩
  · rintro t ⟨qs, u, hrun, hempty, hlast⟩
    rw [runFrom_cons_ok hfirst] at hrun
    have hd := (Draining.refl hok).run hUC hwin1 hcopies hrun
    obtain ⟨t', hlast', hok', hfinal⟩ := postAcks_run (s := s) hd.ok (hwin2 hd) hd.acks now
    rw [← ok.inj (hlast.symm.trans hlast')] at hok' hfinal
    -- everything sent again has arrived, so an ACK is queued if some of it was missing
    have hqueued : () ∈ u.rcv.ackList ↔ AckForthcoming s := by
      rw [hd.queued]
      refine or_congr_right (Iff.trans ?_ (missing_iff h hahead))
      constructor
      · rintro ⟨k, hk, hnot⟩
        rcases hd.new k hk with hold | hp
        · exact absurd hold hnot
        · obtain ⟨i, hagain, hi, rfl⟩ := (hposts k).mp hp
          exact ⟨i, hagain, hi, hnot⟩
      · rintro ⟨i, hagain, hi, hnot⟩
        obtain ⟨p, hp, hseq⟩ := (hposts _).mpr ⟨i, hagain, hi, rfl⟩
        refine ⟨_, ?_, hnot⟩
        rcases hd.arrived p hp with hw | hacc
        · rw [hempty] at hw
          cases hw
        · rw [← hseq]
          exact hacc
    have hsnd : u.snd = e := hd.snd
    have hle : (s.rcv.flows ()).rcvdChunks ≤ (u.rcv.flows ()).rcvdChunks := hd.le
    obtain ⟨L, hr, -⟩ := hd.ok.rcv
    have htx := hr.le_tx
    have hsent' := hd.ok.snd.tracked.tx_le
    have hacked' := hd.ok.snd.tracked.acked_le
    rw [hsnd] at htx hsent' hacked' hfinal
    refine ⟨hok', fun hf => ?_, fun hf => ?_, ?_⟩
    · rw [hfinal, if_pos (hqueued.mpr hf)]
      omega
    · rw [hfinal, if_neg fun hq => hf (hqueued.mp hq)]
      exact hacked
    · rw [hfinal]
      split <;> omega

end

/-- **A ROUND OF RECOVERY HELPS IF AND ONLY IF AN ACK IS FORTHCOMING**: with nothing in flight and `rcv_nxt` ahead of
    `snd_una`, an RTO retransmission whose every consequence arrives advances `snd_una` exactly if the receiver had an
    ACK queued, or misses one of the chunks that are sent again. -/
theorem recovery_advances_iff {cfg : Config} (hUC : cfg.rcMode = false) {s₀ s : Channel}
    (h₀ : ChInitial s₀) {as : List ChAction} (has : Along (chStep cfg) Timely s₀ as)
    (hs : runFrom (chStep cfg) s₀ as = .ok s) (hwin : InWindow s) (hwire : s.wire = [])
    (hahead : seqnoLt (s.snd.flows ()).pcb.sndUna (s.rcv.flows ()).pcb.rcvNxt = true) (now : ℕ) :
    (∃ t, Round cfg now s t) ∧ ∀ t, Round cfg now s t →
      (seqnoLt (s.snd.flows ()).pcb.sndUna (t.snd.flows ()).pcb.sndUna = true ↔ AckForthcoming s) := by
  have h := chanOk_along hUC h₀ has hs
  obtain ⟨L, hr, -⟩ := h.rcv
  have hlt : (s.snd.flows ()).ackedChunks < (s.rcv.flows ()).rcvdChunks := by
    refine Nat.lt_of_le_of_ne h.acked_le fun heq => ?_
    rw [h.snd.tracked.una, hr.nxt, heq, seqnoLt_csnOf_of_le le_rfl (by omega)] at hahead
    cases hahead
  obtain ⟨hexists, hround⟩ := round_spec hUC h hwin hwire hlt now
  refine ⟨hexists, fun t ht => ?_⟩
  obtain ⟨hok, hmoves, hstays, hle⟩ := hround t ht
  have hsize : kSackBitmapSize = 128 := rfl
  unfold InWindow at hwin
  rw [h.snd.tracked.una, hok.snd.tracked.una]
  constructor
  · intro hadv
    by_contra hnot
    rw [hstays hnot, seqnoLt_csnOf_of_le le_rfl (by omega)] at hadv
    cases hadv
  · intro hf
    exact seqnoLt_csnOf_of_lt (hmoves hf) (by omega)

/-- A one-byte message arrived and its ACK is queued. -/
def queuedAckRun : List ChAction := [.postRecv 0, .startSend 0 0, .tx 0 {}, .deliver 0]

theorem recovery_advances_iff_queued : ∃ s t, runFrom (chStep defaultConfig) (freshChannel 1) queuedAckRun = .ok s ∧
      AckForthcoming s ∧ Round defaultConfig 1 s t ∧
      seqnoLt (s.snd.flows ()).pcb.sndUna (t.snd.flows ()).pcb.sndUna = true := by
  have heval : (runGuarded (chStep defaultConfig) Timely (freshChannel 1) queuedAckRun).map
      (fun s => (decide (InWindow s), s.wire.length, s.rcv.ackList,
        seqnoLt (s.snd.flows ()).pcb.sndUna (s.rcv.flows ()).pcb.rcvNxt))
      = some (true, 0, [()], true) := by decide +kernel
  obtain ⟨halong, s, hrun, hobs⟩ := exists_of_runGuarded heval
  have hforth : AckForthcoming s := by
    have hlist : s.rcv.ackList = [()] := congrArg (fun x => x.2.2.1) hobs
    exact .inl (by rw [hlist]; exact mem_singleton_self _)
  obtain ⟨⟨t, ht⟩, hiff⟩ := recovery_advances_iff rfl (chInitial_freshChannel 1) halong hrun
    (of_decide_eq_true (congrArg Prod.fst hobs))
    (eq_nil_of_length_eq_zero (congrArg (fun x => x.2.1) hobs))
    (congrArg (fun x => x.2.2.2) hobs) 1
  exact ⟨s, t, hrun, hforth, ht, (hiff t ht).mpr hforth⟩

/-- The same, and the ACK is posted and lost. -/
def lostAckRun : List ChAction :=
  [.postRecv 0, .startSend 0 0, .tx 0 {}, .deliver 0, .postAcks]

/-- **A LOST ACK IS NEVER REPEATED**: the sender waits for chunk 0, the receiver has it, the
    copy arrives and is dropped, no ACK is posted and everything is as before. -/
theorem lost_ack_wedges : Along (chStep defaultConfig) Timely (freshChannel 1) lostAckRun ∧
    ∃ s t, runFrom (chStep defaultConfig) (freshChannel 1) lostAckRun = .ok s ∧
      (InWindow s ∧ (s.snd.flows ()).unackedChunks.length = 1 ∧ s.wire = [] ∧
        seqnoLt (s.snd.flows ()).pcb.sndUna (s.rcv.flows ()).pcb.rcvNxt = true) ∧
      Round defaultConfig 1 s t ∧ t.rcv.acks.length = s.rcv.acks.length ∧
      (t.snd.flows ()).pcb.sndUna = (s.snd.flows ()).pcb.sndUna := by
  have heval : (runGuarded (chStep defaultConfig) Timely (freshChannel 1) lostAckRun).map
      (fun s => ((decide (InWindow s), (s.snd.flows ()).unackedChunks.length, s.wire.length,
          seqnoLt (s.snd.flows ()).pcb.sndUna (s.rcv.flows ()).pcb.rcvNxt),
        observe (fun u => (u.wire.length, newAcks s u, observe (fun t =>
            decide (t.rcv.acks.length = s.rcv.acks.length ∧
              (t.snd.flows ()).pcb.sndUna = (s.snd.flows ()).pcb.sndUna))
            (runFrom (chStep defaultConfig) u [.postAcks])))
          (runFrom (chStep defaultConfig) s [.retransmit true 1, .deliver 0])))
      = some ((true, 1, 0, true), some (0, [], some true)) := by decide +kernel
  obtain ⟨halong, s, hrun, hobs⟩ := exists_of_runGuarded heval
  obtain ⟨hstate, hround⟩ := Prod.mk.inj hobs
  obtain ⟨u, hcopy, hobs'⟩ := exists_of_observe hround
  obtain ⟨hempty, hrest⟩ := Prod.mk.inj hobs'
  obtain ⟨hnew, hlast⟩ := Prod.mk.inj hrest
  obtain ⟨t, hpost, hsame⟩ := exists_of_observe hlast
  obtain ⟨hacks, huna⟩ := of_decide_eq_true hsame
  refine ⟨halong, s, t, hrun, ⟨of_decide_eq_true (congrArg Prod.fst hstate), congrArg (fun x => x.2.1) hstate,
    eq_nil_of_length_eq_zero (congrArg (fun x => x.2.2.1) hstate),
    congrArg (fun x => x.2.2.2) hstate⟩, ⟨[0], u, hcopy, ?_, ?_⟩, hacks, huna⟩
  · exact eq_nil_of_length_eq_zero hempty
  · rw [hnew]
    exact hpost

end RdmaRecovery
