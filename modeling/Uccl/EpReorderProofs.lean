import Uccl.EpPostProofs

/-! # Piggybacked atomics that arrive out of order

    Over EFA the atomics a sender piggybacks on its writes may overtake each other. The sender numbers those to one word
    modulo 16 (`next_seq_per_index`), and the receiver keeps one reorder buffer per word (`SeqBuf`): the number it
    expects next, a mask of what came early, and the early values.

    A slot of the buffer says which send it holds only together with the window. `Holds` is that reading: the receiver
    waits for send `e`, and slot `m % 16` is taken exactly when send `m` of the sixteen from `e` on has come early. It
    is kept by every arrival order in which no send is sixteen or more ahead of one that is still outstanding
    (`Windowed`).

    `PackAtomicWithSeq` keeps 13 bits of the offset and does not check the rest (`offset_cut`). -/

namespace EpReorder

open StepRun EpImm EpReceive EpPost Function List Nat AtomicsImm List

variable {v : ℕ → ℤ} {e m word : ℕ} {held arrived : ℕ → Prop}
variable {adds₀ : List (ℕ × ℤ)} {s : Receiver} {sb : SeqBuf} {value : ℤ} {seq n : ℕ} {b : Build} {slot : BitVec 16}
  {c : TransferCmd}

-- ── The reorder buffer, by send position

/-- The buffer waits for send `e` and keeps the values of the early sends `held`. -/
structure Holds (sb : SeqBuf) (v : ℕ → ℤ) (e : ℕ) (held : ℕ → Prop) : Prop where
  expected : sb.expected = e % 16
  window : ∀ m, held m → e ≤ m ∧ m < e + 16
  mask : ∀ m, e ≤ m → m < e + 16 → (sb.presentMask.getLsbD (m % 16) = true ↔ held m)
  vals : ∀ m, held m → sb.vals (m % 16) = v m

/-- Within a window a slot belongs to one send. -/
theorem eq_of_slot {m m' : ℕ} (hm : e ≤ m ∧ m < e + 16) (hm' : e ≤ m' ∧ m' < e + 16)
    (h : m % 16 = m' % 16) : m = m' := by
  omega

theorem getLsbD_bit {i q : ℕ} (hi : i < 16) (hq : q < 16) : (1#16 <<< q).getLsbD i = decide (i = q) := by
  by_cases h : i = q
  · subst h
    simp [hi]
  · simp [hi, h]
    omega

/-- The buffer behind the number it waits for. -/
def nextOf (sb : SeqBuf) : SeqBuf :=
  { sb with expected := (sb.expected + 1) % kReorderingBufferSize }

/-- The buffer with the value it waits for taken out. -/
def takenOf (sb : SeqBuf) : SeqBuf :=
  { sb with
    presentMask := sb.presentMask &&& ~~~(1#16 <<< sb.expected)
    expected := (sb.expected + 1) % kReorderingBufferSize }

/-- The buffer with an early value put in. -/
def keptIn (sb : SeqBuf) (seq : ℕ) (value : ℤ) : SeqBuf :=
  { sb with
    presentMask := sb.presentMask ||| (1#16 <<< seq)
    vals := Function.update sb.vals seq value }

/-- Nothing is held under the number that is waited for: the next one is waited for. -/
theorem Holds.pass (h : Holds sb v e held) (he : ¬ held e) : Holds (nextOf sb) v (e + 1) held := by
  refine ⟨?_, ?_, ?_, h.vals⟩
  · show (sb.expected + 1) % 16 = (e + 1) % 16
    rw [h.expected]
    omega
  · intro m hm
    have hne : m ≠ e := fun hme => he (hme ▸ hm)
    have := h.window m hm
    omega
  · intro m hlo hhi
    by_cases hlast : m = e + 16
    · -- the slot of `e` is the slot of `e + 16`, and it is free
      have hslot : m % 16 = e % 16 := by omega
      have hfree : ¬ held m := fun hm => by have := h.window m hm; omega
      show sb.presentMask.getLsbD (m % 16) = true ↔ held m
      rw [hslot, h.mask e (le_rfl) (by omega)]
      exact ⟨fun hh => absurd hh he, fun hh => absurd hh hfree⟩
    · exact h.mask m (by omega) (by omega)

/-- Send `e` is held: its value is taken out and the next one is waited for. -/
theorem Holds.take (h : Holds sb v e held) : Holds (takenOf sb) v (e + 1) (fun m => held m ∧ e + 1 ≤ m) := by
  refine ⟨?_, ?_, ?_, fun m hm => h.vals m hm.1⟩
  · show (sb.expected + 1) % 16 = (e + 1) % 16
    rw [h.expected]
    omega
  · intro m hm
    have := h.window m hm.1
    omega
  · intro m hlo hhi
    show (sb.presentMask &&& ~~~(1#16 <<< sb.expected)).getLsbD (m % 16) = true ↔ _
    have hm16 : m % 16 < 16 := mod_lt _ (by decide)
    rw [h.expected, BitVec.getLsbD_and, BitVec.getLsbD_not,
      getLsbD_bit hm16 (mod_lt _ (by decide)), decide_eq_true hm16, Bool.true_and]
    by_cases hlast : m = e + 16
    · have hslot : m % 16 = e % 16 := by omega
      rw [decide_eq_true hslot, Bool.not_true, Bool.and_false]
      exact ⟨fun hh => absurd hh (by decide), fun hm => by have := h.window m hm.1; omega⟩
    · have hslot : ¬ m % 16 = e % 16 := by omega
      rw [decide_eq_false hslot, Bool.not_false, Bool.and_true, h.mask m (by omega) (by omega)]
      exact ⟨fun hm => ⟨hm, hlo⟩, fun hm => hm.1⟩

/-- An early send of the window goes to its slot. -/
theorem Holds.keep (h : Holds sb v e held) (hlo : e ≤ m) (hhi : m < e + 16) :
    Holds (keptIn sb (m % 16) (v m)) v e (fun i => held i ∨ i = m) := by
  refine ⟨h.expected, ?_, ?_, ?_⟩
  · rintro i (hi | rfl)
    · exact h.window i hi
    · exact ⟨hlo, hhi⟩
  · intro i hilo hihi
    show (sb.presentMask ||| (1#16 <<< (m % 16))).getLsbD (i % 16) = true ↔ _
    have hi16 : i % 16 < 16 := mod_lt _ (by decide)
    rw [BitVec.getLsbD_or, getLsbD_bit hi16 (mod_lt _ (by decide)), Bool.or_eq_true,
      decide_eq_true_iff, h.mask i hilo hihi]
    exact or_congr Iff.rfl ⟨eq_of_slot ⟨hilo, hihi⟩ ⟨hlo, hhi⟩, fun him => by rw [him]⟩
  · rintro i hi
    show update sb.vals (m % 16) (v m) (i % 16) = v i
    by_cases him : i = m
    · rw [him, update_self]
    · have hold : held i := hi.resolve_right him
      have hslot : i % 16 ≠ m % 16 := fun hs => him (eq_of_slot (h.window i hold) ⟨hlo, hhi⟩ hs)
      rw [update_of_ne hslot, h.vals i hold]

-- ── The drain loop

/-- The values of the first `e` sends have been added to the word, in order. -/
def Committed (adds₀ : List (ℕ × ℤ)) (word : ℕ) (v : ℕ → ℤ) (e : ℕ) (s : Receiver) : Prop :=
  s.adds = adds₀ ++ (range e).map fun n => (word, v n)

theorem Committed.succ {s' : Receiver} (h : Committed adds₀ word v e s)
    (hs : s'.adds = s.adds ++ [(word, v e)]) : Committed adds₀ word v (e + 1) s' := by
  unfold Committed at h ⊢
  rw [hs, h, append_assoc, range_succ, map_append, map_singleton]

theorem Committed.prefix_of_le (h : Committed adds₀ word v e s) (hn : n ≤ e) :
    adds₀ ++ ((range n).map fun n => (word, v n)) <+: s.adds := by
  obtain ⟨d, rfl⟩ := Nat.exists_eq_add_of_le hn
  rw [h, range_add, map_append, ← append_assoc]
  exact prefix_append ..

/-- A value is added to the word, and its buffer becomes `sb`. -/
def commit (s : Receiver) (word : ℕ) (value : ℤ) (sb : SeqBuf) : Receiver :=
  { fetchAdd s word value with seqbufs := Function.update s.seqbufs word sb }

theorem commit_seqbufs (s : Receiver) (word : ℕ) (value : ℤ) (sb : SeqBuf) :
    (commit s word value sb).seqbufs word = sb :=
  update_self ..

theorem drain_hit (h : (s.seqbufs word).presentMask.getLsbD (s.seqbufs word).expected = true) :
    drain word (n + 1) s = drain word n (commit s word
      ((s.seqbufs word).vals (s.seqbufs word).expected) (takenOf (s.seqbufs word))) := by
  simp only [drain, if_pos h]
  rfl

theorem drain_miss (h : ¬ (s.seqbufs word).presentMask.getLsbD (s.seqbufs word).expected = true) :
    drain word (n + 1) s = s := by
  simp only [drain, if_neg h]

/-- **THE DRAIN LOOP**: it commits what is held without a gap from the expected send on, and stops at the
    first send that is not there. Sixteen rounds are enough, since all that is held is in the window. -/
theorem drain_spec (n : ℕ) (h : Holds (s.seqbufs word) v e held) (hn : ∀ m, held m → m < e + n)
    (hadds : Committed adds₀ word v e s) :
    ∃ e', e ≤ e' ∧ (∀ m, e ≤ m → m < e' → held m) ∧ ¬ held e' ∧ Committed adds₀ word v e' (drain word n s) ∧
      Holds ((drain word n s).seqbufs word) v e' (fun m => held m ∧ e' ≤ m) := by
  induction n generalizing s e held with
  | zero =>
    have hempty : ∀ m, ¬ held m := by
      intro m hm
      have := h.window m hm
      have := hn m hm
      omega
    have hsame : (fun m => held m ∧ e ≤ m) = held := by
      funext m
      exact propext ⟨And.left, fun hm => absurd hm (hempty m)⟩
    refine ⟨e, le_rfl, fun m h1 h2 => absurd h2 (by omega), hempty e, hadds, ?_⟩
    rw [hsame]
    exact h
  | succ n ih =>
    have hbit : (s.seqbufs word).presentMask.getLsbD (s.seqbufs word).expected = true ↔ held e := by
      rw [h.expected]
      exact h.mask e (le_rfl) (by omega)
    by_cases he : held e
    · -- one more value comes out, and the loop goes on behind it
      have hvals : (s.seqbufs word).vals (s.seqbufs word).expected = v e := by
        rw [h.expected]
        exact h.vals e he
      rw [drain_hit (hbit.mpr he), hvals]
      have htake : Holds ((commit s word (v e) (takenOf (s.seqbufs word))).seqbufs word) v (e + 1)
          (fun m => held m ∧ e + 1 ≤ m) := by
        rw [commit_seqbufs]
        exact h.take
      obtain ⟨e', hle, hall, hgap, hadds', hholds⟩ :=
        ih htake (fun m hm => by have := hn m hm.1; omega) (hadds.succ rfl)
      have hsame : (fun m => (held m ∧ e + 1 ≤ m) ∧ e' ≤ m) = fun m => held m ∧ e' ≤ m := by
        funext m
        exact propext ⟨fun hm => ⟨hm.1.1, hm.2⟩, fun hm => ⟨⟨hm.1, hle.trans hm.2⟩, hm.2⟩⟩
      refine ⟨e', by omega, ?_, fun hh => hgap ⟨hh, hle⟩, hadds', hsame ▸ hholds⟩
      intro m hlo hhi
      rcases Nat.eq_or_lt_of_le hlo with heq | hlt
      · exact heq ▸ he
      · exact (hall m hlt hhi).1
    · have hsame : (fun m => held m ∧ e ≤ m) = held := by
        funext m
        exact propext ⟨And.left, fun hm => ⟨hm, (h.window m hm).1⟩⟩
      rw [drain_miss fun hb => he (hbit.mp hb)]
      refine ⟨e, le_rfl, fun m h1 h2 => absurd h2 (by omega), he, hadds, ?_⟩
      rw [hsame]
      exact h

theorem receive_expected (h : seq = (s.seqbufs word).expected) : receiveReorderable s word value seq
      = .ok (drain word kReorderingBufferSize (commit s word value (nextOf (s.seqbufs word)))) := by
  unfold receiveReorderable
  rw [if_pos h]
  rfl

theorem receive_early (h : seq ≠ (s.seqbufs word).expected)
    (hfree : ¬ (s.seqbufs word).presentMask.getLsbD seq = true) : receiveReorderable s word value seq
      = .ok { s with seqbufs := update s.seqbufs word (keptIn (s.seqbufs word) seq value) } := by
  unfold receiveReorderable
  rw [if_neg h, if_neg hfree]
  rfl

-- ── One arrival

/-- What the receiver of one word has done with the sends that `arrived`: the ones before `e` are
    committed, `e` is missing, the rest is held. -/
structure InOrder (adds₀ : List (ℕ × ℤ)) (word : ℕ) (v : ℕ → ℤ) (arrived : ℕ → Prop) (e : ℕ)
    (s : Receiver) : Prop where
  committed : Committed adds₀ word v e s
  below : ∀ m, m < e → arrived m
  missing : ¬ arrived e
  buffer : Holds (s.seqbufs word) v e (fun m => arrived m ∧ e ≤ m)

/-- **ONE ARRIVAL**: a send of the window that has not come before is committed or held, and the
    receiver does not abort. -/
theorem InOrder.arrive (h : InOrder adds₀ word v arrived e s) (hnew : ¬ arrived m) (hwin : m < e + 16) :
    ∃ s' e', receiveReorderable s word (v m) (m % 16) = .ok s' ∧
      InOrder adds₀ word v (fun i => arrived i ∨ i = m) e' s' := by
  have hlo : e ≤ m := Nat.le_of_not_lt fun hlt => hnew (h.below m hlt)
  by_cases hme : m = e
  · -- the send that is waited for, and then what is held behind it
    subst hme
    rw [receive_expected h.buffer.expected.symm]
    have hpass : Holds ((commit s word (v m) (nextOf (s.seqbufs word))).seqbufs word) v (m + 1)
        (fun i => arrived i ∧ m ≤ i) := by
      rw [commit_seqbufs]
      exact h.buffer.pass fun hh => h.missing hh.1
    have hfuel : ∀ i, arrived i ∧ m ≤ i → i < m + 1 + kReorderingBufferSize := by
      intro i hi
      have := h.buffer.window i hi
      unfold kReorderingBufferSize
      omega
    obtain ⟨e', hle, hall, hgap, hadds, hholds⟩ :=
      drain_spec kReorderingBufferSize hpass hfuel (h.committed.succ rfl)
    refine ⟨_, e', rfl, hadds, ?_, ?_, ?_⟩
    · intro i hi
      by_cases him : i < m
      · exact .inl (h.below i him)
      · rcases Nat.eq_or_lt_of_le (Nat.le_of_not_lt him) with heq | hlt
        · exact .inr heq.symm
        · exact .inl (hall i hlt hi).1
    · rintro (ha | heq)
      · exact hgap ⟨ha, by omega⟩
      · omega
    · have hsame : (fun i => (arrived i ∧ m ≤ i) ∧ e' ≤ i) = fun i => (arrived i ∨ i = m) ∧ e' ≤ i := by
        funext i
        apply propext
        constructor
        · exact fun hi => ⟨.inl hi.1.1, hi.2⟩
        · rintro ⟨hi | hi, hei⟩
          · exact ⟨⟨hi, by omega⟩, hei⟩
          · omega
      exact hsame ▸ hholds
  · have hslot : m % 16 ≠ e % 16 := by omega
    have hfree : ¬ (s.seqbufs word).presentMask.getLsbD (m % 16) = true :=
      fun hb => hnew ((h.buffer.mask m hlo hwin).mp hb).1
    rw [receive_early (h.buffer.expected.symm ▸ hslot) hfree]
    refine ⟨_, e, rfl, h.committed, fun i hi => .inl (h.below i hi), ?_, ?_⟩
    · rintro (ha | heq)
      · exact h.missing ha
      · exact hme heq.symm
    · have hkeep := h.buffer.keep hlo hwin
      have hsame : (fun i => (arrived i ∧ e ≤ i) ∨ i = m) = fun i => (arrived i ∨ i = m) ∧ e ≤ i := by
        funext i
        apply propext
        constructor
        · rintro (hi | rfl)
          · exact ⟨.inl hi.1, hi.2⟩
          · exact ⟨.inr rfl, hlo⟩
        · rintro ⟨hi | hi, hei⟩
          · exact .inl ⟨hi, hei⟩
          · exact .inr hi
      show Holds (update s.seqbufs word (keptIn (s.seqbufs word) (m % 16) (v m)) word) v e _
      rw [update_self, ← hsame]
      exact hkeep

-- ── The immediates of the sender

/-- Four bits of a number and the two free bits of an aligned offset: `GetSeq` puts the number together again. -/
theorem getSeq_word {x : ℤ} {seq : BitVec 8} (hslot : slot &&& 0x3#16 = 0#16) (hseq : seq.toNat < 16) :
    getSeq (AtomicsImm.word true (seq.getLsbD 3) x
      ((slot &&& 0x1FFF#16) ||| (seq.setWidth 16 &&& 0x3#16)) (seq.getLsbD 2) true) = seq := by
  have h0 : slot.getLsbD 0 = false := by
    have := congrArg (fun w => w.getLsbD 0) hslot
    simpa using this
  have h1 : slot.getLsbD 1 = false := by
    have := congrArg (fun w => w.getLsbD 1) hslot
    simpa using this
  have hhigh : ∀ i, 4 ≤ i → seq.getLsbD i = false := by
    intro i hi
    apply testBit_lt_two_pow
    have hpow : 2 ^ 4 ≤ 2 ^ i := Nat.pow_le_pow_right (by decide) hi
    omega
  have h4 := hhigh 4 (by decide)
  have h5 := hhigh 5 (by decide)
  have h6 := hhigh 6 (by decide)
  have h7 := hhigh 7 (by decide)
  apply BitVec.eq_of_getLsbD_eq
  intro i hi
  unfold getSeq AtomicsImm.word
  interval_cases i <;> simp_all

/-- What the receiver reads from an immediate: a numbered atomic for a word. -/
structure Carries (imm : Imm) (word : ℕ) (value : ℤ) (seq : ℕ) : Prop where
  atomics : ImmType.isAtomics imm = true
  reorderable : isReorderable imm = true
  word : (getOff imm).toNat / 8 = word
  value : getValue imm = value
  seq : (getSeq imm).toNat = seq

/-- The offset field keeps 13 bits, and the number is in the two lowest. -/
theorem word_of_offset (slot : BitVec 16) (seq : BitVec 16) :
    ((slot &&& 0x1FFF#16) ||| (seq &&& 0x3#16)).toNat ≤ 0x1FFF ∧
      ((slot &&& 0x1FFF#16) ||| (seq &&& 0x3#16)).toNat / 8 = slot.toNat / 8 % 1024 := by
  have hoff : (slot &&& 0x1FFF#16).toNat = slot.toNat % 8192 := by
    exact and_two_pow_sub_one_eq_mod _ 13
  have hseq : (seq &&& 0x3#16).toNat = seq.toNat % 4 := by
    exact and_two_pow_sub_one_eq_mod _ 2
  rw [BitVec.toNat_or, hseq]
  refine ⟨le_of_lt_succ (or_lt_two_pow (n := 13) (by omega) (by omega)), ?_⟩
  have hshift : ∀ x : ℕ, x / 8 = x >>> 3 := fun x => (shiftRight_eq_div_pow x 3).symm
  rw [hshift, shiftRight_or_distrib, ← hshift, ← hshift]
  have hzero : seq.toNat % 4 / 8 = 0 := by omega
  rw [hzero, or_zero]
  omega

/-- The counter behind a piggybacked atomic. -/
def counted (ctx : Ctx) (index : ℕ) : Ctx :=
  let next := BitVec.ofNat 8 (((ctx.nextSeq index).toNat + 1) % kReorderingBufferSize)
  { ctx with nextSeq := Function.update ctx.nextSeq index next }

/-- The word a numbered atomic is packed into. -/
def numberedWord (v : ℤ) (slot : BitVec 16) (seq : BitVec 8) : Imm :=
  AtomicsImm.word true (seq.getLsbD 3) v ((slot &&& 0x1FFF#16) ||| (seq.setWidth 16 &&& 0x3#16))
    (seq.getLsbD 2) true

/-- `PackAtomicWithSeq` on an aligned offset. -/
theorem packAtomicWithSeq_eq {v : ℤ} {seq : BitVec 8} (hv : AtomicsImm.InRange v)
    (halign : slot.toNat % 4 = 0) (hseq : seq.toNat < 16) :
    packAtomicWithSeq v slot seq true = some (numberedWord v slot seq) ∧
      Carries (numberedWord v slot seq) (slot.toNat / 8 % 1024) v seq.toNat := by
  have hslot : slot &&& 0x3#16 = 0#16 := by
    apply BitVec.eq_of_toNat_eq
    exact (and_two_pow_sub_one_eq_mod _ 2).trans halign
  obtain ⟨hfits, hword⟩ := word_of_offset slot (seq.setWidth 16)
  constructor
  · unfold packAtomicWithSeq pack
    rw [if_pos ⟨hslot, hseq⟩, if_pos ⟨hv, hfits⟩]
    rfl
  · refine ⟨isAtomics_word .., ?_, ?_, getValue_word _ _ _ _ hv, congrArg BitVec.toNat (getSeq_word hslot hseq)⟩
    · simp [numberedWord, isReorderable, AtomicsImm.word]
    · unfold numberedWord
      rw [getOff_word _ _ _ _ hfits, hword]

theorem inRange_atomicVal (c : TransferCmd) : AtomicsImm.InRange (c.atomicVal.toNat : ℤ) := by
  constructor <;> omega

theorem atomicVal_in_range (c : TransferCmd) : ¬ ((c.atomicVal.toNat : ℤ) < -kMaxSendAtomicValue ∨
    kMaxSendAtomicValue < (c.atomicVal.toNat : ℤ)) := by
  unfold kMaxSendAtomicValue
  omega

/-- **THE SENDER**: over EFA a piggybacked atomic is numbered with the counter of its word, and the counter goes on. -/
theorem piggyback_efa {ctx : Ctx} (hefa : b.efa = true)
    (halign : c.slot.toNat % 4 = 0) (hseq : (ctx.nextSeq (c.slot.toNat / 8)).toNat < 16) :
    ∃ imm, piggyback b ctx c = .ok (imm, counted ctx (c.slot.toNat / 8)) ∧
      Carries imm (c.slot.toNat / 8 % 1024) c.atomicVal.toNat (ctx.nextSeq (c.slot.toNat / 8)).toNat := by
  obtain ⟨hpack, hcarries⟩ := packAtomicWithSeq_eq (inRange_atomicVal c) halign hseq
  have hget := BitVec.eq_of_toNat_eq hcarries.seq
  refine ⟨_, ?_, hcarries⟩
  unfold piggyback
  simp only [if_neg (atomicVal_in_range c), hefa, Bool.true_or, if_true, hpack, hget, ne_eq,
    not_true_eq_false, if_false, Bool.not_true, Bool.false_eq_true, false_and]
  rfl

/-- Post a sequence of commands with a piggybacked atomic to one destination. -/
def piggybackAll (b : Build) : Ctx → List TransferCmd → Except Abort (List Imm × Ctx)
  | ctx, [] => .ok ([], ctx)
  | ctx, c :: cs =>
    match piggyback b ctx c with
    | .error a => .error a
    | .ok (imm, ctx) =>
      match piggybackAll b ctx cs with
      | .error a => .error a
      | .ok (imms, ctx) => .ok (imm :: imms, ctx)

theorem piggybackAll_concat {ctx ctx' ctx'' : Ctx} {cs : List TransferCmd} {imms : List Imm} {imm : Imm}
    (h : piggybackAll b ctx cs = .ok (imms, ctx')) (hc : piggyback b ctx' c = .ok (imm, ctx'')) :
    piggybackAll b ctx (cs ++ [c]) = .ok (imms ++ [imm], ctx'') := by
  induction cs generalizing ctx imms with
  | nil =>
    obtain ⟨rfl, rfl⟩ := Prod.mk.inj (Except.ok.inj h)
    simp only [nil_append, piggybackAll, hc]
  | cons d ds ih =>
    cases hd : piggyback b ctx d with
    | error a => simp only [piggybackAll, hd] at h; cases h
    | ok r =>
      cases hds : piggybackAll b r.2 ds with
      | error a => simp only [piggybackAll, hd, hds] at h; cases h
      | ok q =>
        simp only [piggybackAll, hd, hds] at h
        obtain ⟨hi, hx⟩ := Prod.mk.inj (Except.ok.inj h)
        have htail : piggybackAll b r.2 ds = .ok (q.1, ctx') := by rw [hds, ← hx]
        simp only [cons_append, piggybackAll, hd, ih htail, ← hi]

/-- The receiver hands such an immediate to the reorder buffer of its word. A piggybacked value has 8 bits, so
    it is never the one that stands for `kLargeAtomicValue`. -/
theorem receive_carried {env : Env} {imm : Imm}
    (h : Carries imm word value seq) (hefa : b.efa = true) (hvalue : value ≠ kMaxSendAtomicValue) :
    remoteProcessCompletion b true env s imm = receiveReorderable s word value seq := by
  unfold remoteProcessCompletion receiveAtomicNormal
  simp only [h.atomics, h.reorderable, h.word, h.value, h.seq, hefa, if_neg hvalue, if_true,
    Bool.not_true, Bool.false_eq_true, if_false]

-- ── Whole runs

/-- Send `π k` is the `k`-th to arrive. At every arrival the sends that are still outstanding are among
    sixteen consecutive ones: none that arrives is sixteen ahead of a missing one. -/
def Windowed (π : ℕ → ℕ) : Prop := ∀ k m, (∀ j, j < k → π j ≠ m) → π k < m + 16

/-- The sends that are among the first `k` arrivals. -/
def arrivedBy (π : ℕ → ℕ) (k m : ℕ) : Prop := ∃ j, j < k ∧ π j = m

theorem arrivedBy_succ (π : ℕ → ℕ) (k : ℕ) : arrivedBy π (k + 1) = fun m => arrivedBy π k m ∨ m = π k := by
  funext m
  apply propext
  constructor
  · rintro ⟨j, hj, hm⟩
    rcases Nat.lt_or_ge j k with hlt | hge
    · exact .inl ⟨j, hlt, hm⟩
    · have hjk : j = k := by omega
      exact .inr (hjk ▸ hm.symm)
  · rintro (⟨j, hj, hm⟩ | hm)
    · exact ⟨j, by omega, hm⟩
    · exact ⟨k, by omega, hm.symm⟩

/-- Whatever was sent arrives. -/
theorem arrivedBy_eventually {π : ℕ → ℕ} (hπ : Function.Surjective π) (n : ℕ) :
    ∃ k, ∀ k', k ≤ k' → ∀ m, m < n → arrivedBy π k' m := by
  induction n with
  | zero => exact ⟨0, fun k' _ m hm => absurd hm (by omega)⟩
  | succ n ih =>
    obtain ⟨k, hk⟩ := ih
    obtain ⟨j, hj⟩ := hπ n
    refine ⟨max k (j + 1), fun k' hle m hm => ?_⟩
    rcases Nat.lt_succ_iff_lt_or_eq.mp hm with hlt | heq
    · exact hk k' (by omega) m hlt
    · exact ⟨j, by omega, heq ▸ hj⟩

section Run

variable {b : Build} (hefa : b.efa = true) (env : Env) (c : ℕ → TransferCmd) (index : ℕ)
  (hindex : ∀ n, (c n).slot.toNat / 8 = index) (halign : ∀ n, (c n).slot.toNat % 4 = 0)
include hefa hindex halign

/-- The sends one after the other: the `n`-th is numbered `n % 16`. -/
theorem sends {ctx : Ctx} (hctx : ctx.nextSeq index = 0#8) :
    ∃ imm : ℕ → Imm, (∀ n, ∃ ctx', piggybackAll b ctx ((range n).map c) = .ok ((range n).map imm, ctx')) ∧
      ∀ n, Carries (imm n) (index % 1024) (c n).atomicVal.toNat (n % 16) := by
  -- the counter of the word after `n` sends
  have hstep : ∀ (ctx : Ctx) (n : ℕ), (ctx.nextSeq index).toNat = n % 16 →
      ∃ imm, piggyback b ctx (c n) = .ok (imm, counted ctx index) ∧
        Carries imm (index % 1024) (c n).atomicVal.toNat (n % 16) ∧
        ((counted ctx index).nextSeq index).toNat = (n + 1) % 16 := by
    intro ctx n hn
    have hlt : (ctx.nextSeq ((c n).slot.toNat / 8)).toNat < 16 := by
      rw [hindex]
      omega
    obtain ⟨imm, hpost, hcarries⟩ := piggyback_efa hefa (halign n) hlt
    rw [hindex] at hpost hcarries
    refine ⟨imm, hpost, hn ▸ hcarries, ?_⟩
    show (update ctx.nextSeq index _ index).toNat = _
    rw [update_self, BitVec.toNat_ofNat]
    unfold kReorderingBufferSize
    omega
  let ctxs : ℕ → Ctx := fun n => Nat.rec ctx (fun _ x => counted x index) n
  have hseq : ∀ n, ((ctxs n).nextSeq index).toNat = n % 16 := by
    intro n
    induction n with
    | zero => exact congrArg BitVec.toNat hctx
    | succ n ih => exact (hstep (ctxs n) n ih).choose_spec.2.2
  choose imm himm using fun n => hstep (ctxs n) n (hseq n)
  refine ⟨imm, fun n => ⟨ctxs n, ?_⟩, fun n => (himm n).2.1⟩
  induction n with
  | zero => rfl
  | succ n ih =>
    rw [range_succ, map_append, map_append]
    exact piggybackAll_concat ih (himm n).1

omit hindex halign in
/-- **THE ARRIVALS**: after any number of them the receiver is in order. -/
theorem arrivals {imm : ℕ → Imm} {π : ℕ → ℕ} (hπ : Function.Injective π) (hwin : Windowed π)
    (himm : ∀ n, Carries (imm n) word (c n).atomicVal.toNat (n % 16)) (hs : s.seqbufs word = {}) (k : ℕ) :
    ∃ s' e, runFrom (remoteProcessCompletion b true env) s ((range k).map fun j => imm (π j)) = .ok s' ∧
      InOrder s.adds word (fun n => ((c n).atomicVal.toNat : ℤ)) (arrivedBy π k) e s' := by
  induction k with
  | zero =>
    have hnone : ∀ m, ¬ arrivedBy π 0 m := by
      rintro m ⟨j, hj, -⟩
      omega
    refine ⟨s, 0, rfl, (append_nil _).symm, fun m hm => absurd hm (by omega), hnone 0, ?_⟩
    rw [hs]
    refine ⟨rfl, fun m hm => absurd hm.1 (hnone m), fun m _ _ => ?_, fun m hm => absurd hm.1 (hnone m)⟩
    exact ⟨fun hb => absurd hb (by simp), fun hm => absurd hm.1 (hnone m)⟩
  | succ k ih =>
    obtain ⟨s', e, hrun, hord⟩ := ih
    have hnew : ¬ arrivedBy π k (π k) := by
      rintro ⟨j, hj, hjk⟩
      exact absurd (hπ hjk) (by omega)
    have hnear : π k < e + 16 := hwin k e fun j hj hje => hord.missing ⟨j, hj, hje⟩
    obtain ⟨s'', e', hrecv, hord'⟩ := hord.arrive hnew hnear
    refine ⟨s'', e', ?_, arrivedBy_succ π k ▸ hord'⟩
    have hvalue : ((c (π k)).atomicVal.toNat : ℤ) ≠ kMaxSendAtomicValue := by
      unfold kMaxSendAtomicValue
      omega
    rw [range_succ, map_append, runFrom_append hrun, map_singleton,
      runFrom_cons_ok ((receive_carried (himm (π k)) hefa hvalue).trans hrecv), runFrom_nil]

/-- **THE REORDER BUFFER**: for all piggybacked atomics to one of the first 1024 words of one destination and every
    arrival order that keeps to the window, no assertion fails, the values added so far are those of the sends before
    the first missing one, in order, and in the end all are added. -/
theorem reorder_exact (hbelow : index < 1024) (ctx : Ctx) (hctx : ctx.nextSeq index = 0#8) (s : Receiver)
    (hs : s.seqbufs index = {}) (π : ℕ → ℕ) (hπ : Function.Bijective π) (hwin : Windowed π) :
    ∃ imm : ℕ → Imm, (∀ n, ∃ ctx', piggybackAll b ctx ((range n).map c) = .ok ((range n).map imm, ctx')) ∧
      (∀ k, ∃ s' e, runFrom (remoteProcessCompletion b true env) s ((range k).map fun j => imm (π j)) = .ok s' ∧
        (∀ m, m < e → arrivedBy π k m) ∧ ¬ arrivedBy π k e ∧
        s'.adds = s.adds ++ (range e).map fun n => (index, ((c n).atomicVal.toNat : ℤ))) ∧
      (∀ n, ∃ k, ∀ k', k ≤ k' → ∃ s', runFrom (remoteProcessCompletion b true env) s
          ((range k').map fun j => imm (π j)) = .ok s' ∧
        s.adds ++ ((range n).map fun n => (index, ((c n).atomicVal.toNat : ℤ))) <+: s'.adds) := by
  obtain ⟨imm, hsend, hcarries⟩ := sends hefa c index hindex halign hctx
  rw [mod_eq_of_lt hbelow] at hcarries
  refine ⟨imm, hsend, fun k => ?_, fun n => ?_⟩
  · obtain ⟨s', e, hrun, hord⟩ := arrivals hefa env c hπ.1 hwin hcarries hs k
    exact ⟨s', e, hrun, hord.below, hord.missing, hord.committed⟩
  · obtain ⟨k, hk⟩ := arrivedBy_eventually hπ.2 n
    refine ⟨k, fun k' hle => ?_⟩
    obtain ⟨s', e, hrun, hord⟩ := arrivals hefa env c hπ.1 hwin hcarries hs k'
    have hne : n ≤ e := Nat.le_of_not_lt fun hlt => hord.missing (hk k' hle e hlt)
    exact ⟨s', hrun, hord.committed.prefix_of_le hne⟩

end Run

/-- Every other send overtakes the one before it. -/
def swapped (n : ℕ) : ℕ := if n % 2 = 0 then n + 1 else n - 1

theorem swapped_involutive : Function.Involutive swapped := by
  intro n
  unfold swapped
  split <;> split <;> omega

theorem swapped_windowed : Windowed swapped := by
  intro k m hm
  have hle : ∀ n, swapped n ≤ n + 1 := by
    intro n
    unfold swapped
    split <;> omega
  by_contra hfar
  have hk := hle k
  have hm' := hle m
  exact hm (swapped m) (by omega) (swapped_involutive m)

/-- The `n`-th of a sequence of atomics to word 3. -/
def toWordThree (n : ℕ) : TransferCmd :=
  { isCombine := false, lowLatency := false, dstRank := 8#8,
    atomicVal := BitVec.ofNat 8 (n % 255 + 1), bytes := 16#24, reqRptr := 0#32, slot := 24#16 }

theorem toWordThree_slot (n : ℕ) : (toWordThree n).slot.toNat = 24 := rfl

/-- A destination that nothing has been posted to. -/
def freshCtx : Ctx := { remoteAddr := 0#64, remoteLen := 0x1000#64, nextSeq := fun _ => 0#8 }

theorem reorder_exact_of_swapped : ∃ imm : ℕ → Imm, (∀ n, ∃ ctx', piggybackAll ⟨true, false, false, false⟩ freshCtx
        ((range n).map toWordThree) = .ok ((range n).map imm, ctx')) ∧
      (∀ k, ∃ s' e, runFrom (remoteProcessCompletion ⟨true, false, false, false⟩ true ⟨0, 16, 16, 2⟩)
          Receiver.init ((range k).map fun j => imm (swapped j)) = .ok s' ∧
        (∀ m, m < e → arrivedBy swapped k m) ∧ ¬ arrivedBy swapped k e ∧
        s'.adds = [] ++ (range e).map fun n => (3, ((toWordThree n).atomicVal.toNat : ℤ))) ∧
      (∀ n, ∃ k, ∀ k', k ≤ k' → ∃ s', runFrom (remoteProcessCompletion ⟨true, false, false, false⟩ true ⟨0, 16, 16, 2⟩)
          Receiver.init ((range k').map fun j => imm (swapped j)) = .ok s' ∧
        [] ++ ((range n).map fun n => (3, ((toWordThree n).atomicVal.toNat : ℤ))) <+: s'.adds) :=
  reorder_exact (b := ⟨true, false, false, false⟩) rfl ⟨0, 16, 16, 2⟩ toWordThree 3
    (fun n => congrArg (· / 8) (toWordThree_slot n)) (fun n => congrArg (· % 4) (toWordThree_slot n))
    (by decide) freshCtx rfl Receiver.init rfl swapped swapped_involutive.bijective swapped_windowed

/-- **THE OFFSET IS CUT TO 13 BITS**: an atomic for the word 1024, at 8192, is added to the word 0. -/
theorem offset_cut : ∃ imm ctx s, piggyback ⟨true, false, false, false⟩ freshCtx
        { toWordThree 0 with slot := 8192#16 } = .ok (imm, ctx) ∧
      runFrom (remoteProcessCompletion ⟨true, false, false, false⟩ true ⟨0, 16, 16, 2⟩) Receiver.init [imm] = .ok s ∧
      s.adds = [(0, 1)] :=
  ⟨_, _, _, rfl, rfl, rfl⟩

end EpReorder
